import Mathlib.Data.List.Basic

/-!
# Runs and reachable states of partial transition systems

A `System` has one initial state and a partial step function; `step s a = none` says that the
action `a` is not enabled in `s`. `run` executes a list of actions. `Reachable allowed` collects
the states reached by steps that all satisfy `allowed`, so an environment assumption on single
steps restricts whole runs. `Reachable.invariant`, `Reachable.simulate` and `Reachable.forward` are
the rules the rest of the development uses.
-/

namespace P2KVS.Transition

/-- A partial transition system with one initial state. -/
structure System (State Action : Type*) where
  init : State
  step : State → Action → Option State

namespace System

variable {State Action : Type*} (sys : System State Action)

/-- Execute the actions in order. An action that is not enabled stops the run. -/
def run : List Action → State → Option State
  | [], s => some s
  | a :: rest, s => sys.step s a >>= run rest

/-- The state behind the actions, or the initial state if the run gets stuck. -/
def after (actions : List Action) : State :=
  (sys.run actions sys.init).getD sys.init

/-- Every step that the run of these actions takes satisfies `P`. -/
def Always (P : State → Action → Prop) : List Action → State → Prop
  | [], _ => True
  | a :: rest, s => P s a ∧ match sys.step s a with
      | none => True
      | some t => Always P rest t

/-- `Always` is decidable when the step predicate is. -/
instance decidableAlways (P : State → Action → Prop) [∀ s a, Decidable (P s a)] :
    (actions : List Action) → (s : State) → Decidable (sys.Always P actions s)
  | [], _ => inferInstanceAs (Decidable True)
  | a :: rest, s =>
      have : Decidable (match sys.step s a with
          | none => True
          | some t => sys.Always P rest t) :=
        match sys.step s a with
        | none => inferInstanceAs (Decidable True)
        | some t => decidableAlways P rest t
      inferInstanceAs (Decidable (_ ∧ _))

/-- The states reached from the initial one by steps that satisfy `allowed`. -/
inductive Reachable (allowed : State → Action → Prop) : State → Prop where
  | init : Reachable allowed sys.init
  | step {s t : State} {a : Action} :
      Reachable allowed s → allowed s a → sys.step s a = some t → Reachable allowed t

variable {sys} {allowed : State → Action → Prop}

/-- What holds initially and survives every allowed step holds in every reachable state. The
step case may use that its source state is reachable. -/
theorem Reachable.invariant {I : State → Prop} (hinit : I sys.init)
    (hstep : ∀ {s a t}, sys.Reachable allowed s → I s → allowed s a → sys.step s a = some t → I t)
    {s : State} (h : sys.Reachable allowed s) : I s := by
  induction h with
  | init => exact hinit
  | step hs ha ht ih => exact hstep hs ih ha ht

/-- A projection that maps every allowed step to a stutter or to an allowed step of a second
system maps reachable states to reachable states. -/
theorem Reachable.simulate {State' Action' : Type*} {target : System State' Action'}
    {allowed' : State' → Action' → Prop} (f : State → State') (hinit : f sys.init = target.init)
    (hstep : ∀ {s a t}, sys.Reachable allowed s → allowed s a → sys.step s a = some t →
      f t = f s ∨ ∃ b, allowed' (f s) b ∧ target.step (f s) b = some (f t))
    {s : State} (h : sys.Reachable allowed s) : target.Reachable allowed' (f s) := by
  induction h with
  | init => exact hinit ▸ .init
  | step hs ha ht ih =>
      obtain heq | ⟨b, hb, hbt⟩ := hstep hs ha ht
      · exact heq ▸ ih
      · exact .step ih hb hbt

/-- A relation between the states of two systems that every allowed step keeps, by a stutter or by
an allowed step of the second one, relates every reachable state to a reachable state. -/
theorem Reachable.forward {State' Action' : Type*} {target : System State' Action'}
    {allowed' : State' → Action' → Prop} {R : State → State' → Prop}
      (hinit : R sys.init target.init)
    (hstep : ∀ {s a t u}, sys.Reachable allowed s → R s u → allowed s a → sys.step s a = some t →
      R t u ∨ ∃ b u', allowed' u b ∧ target.step u b = some u' ∧ R t u')
    {s : State} (h : sys.Reachable allowed s) : ∃ u, target.Reachable allowed' u ∧ R s u := by
  induction h with
  | init => exact ⟨_, .init, hinit⟩
  | step hs ha ht ih =>
      obtain ⟨u, hu, hR⟩ := ih
      obtain hstutter | ⟨b, u', hb, hbu, hR'⟩ := hstep hs hR ha ht
      · exact ⟨u, hu, hstutter⟩
      · exact ⟨u', .step hu hb hbu, hR'⟩

/-- Weakening the step predicate keeps every reachable state. -/
theorem Reachable.mono {weaker : State → Action → Prop} (himp : ∀ s a, allowed s a → weaker s a)
    {s : State} (h : sys.Reachable allowed s) : sys.Reachable weaker s := by
  induction h with
  | init => exact .init
  | step _ ha ht ih => exact .step ih (himp _ _ ha) ht

/-- When the steps that are not allowed, and only they, raise a debt, there is no debt exactly in
the states that the allowed steps reach. -/
theorem Reachable.debt_eq_zero_iff (debt : State → Int) (hinit : debt sys.init = 0)
    (hkeep : ∀ {s a t}, sys.Reachable (fun _ _ => True) s → allowed s a → sys.step s a = some t →
      debt t = debt s)
    (hraise : ∀ {s a t}, sys.Reachable (fun _ _ => True) s → ¬ allowed s a →
      sys.step s a = some t → debt s < debt t)
    {s : State} (h : sys.Reachable (fun _ _ => True) s) :
    debt s = 0 ↔ sys.Reachable allowed s := by
  constructor
  · have hboth : 0 ≤ debt s ∧ (debt s = 0 → sys.Reachable allowed s) := by
      induction h with
      | init => exact ⟨Int.le_of_eq hinit.symm, fun _ => .init⟩
      | @step s t a hs _ ht ih =>
          obtain ⟨hpos, hreach⟩ := ih
          by_cases ha : allowed s a
          · rw [hkeep hs ha ht]
            exact ⟨hpos, fun hzero => .step (hreach hzero) ha ht⟩
          · -- a debt that was raised once stays
            have hlt := hraise hs ha ht
            exact ⟨by omega, fun hzero => by omega⟩
    exact hboth.2
  · intro hallowed
    refine hallowed.invariant (I := fun s => debt s = 0) hinit ?_
    intro s a t hs hzero ha ht
    exact (hkeep (hs.mono fun _ _ _ => trivial) ha ht).trans hzero

/-- A predicate that every step satisfies holds along every run. -/
theorem always_of_forall (h : ∀ s a, allowed s a) (actions : List Action) (s : State) :
    sys.Always allowed actions s := by
  induction actions generalizing s with
  | nil => trivial
  | cons a rest ih =>
      refine ⟨h s a, ?_⟩
      cases sys.step s a with
      | none => trivial
      | some t => exact ih t

/-- A successful run of allowed steps from a reachable state ends in a reachable state. -/
theorem Reachable.run {actions : List Action} {s t : State} (h : sys.Reachable allowed s)
    (hall : sys.Always allowed actions s) (hrun : sys.run actions s = some t) :
    sys.Reachable allowed t := by
  induction actions generalizing s with
  | nil =>
      cases hrun
      exact h
  | cons a rest ih =>
      simp only [System.run, bind, Option.bind_eq_some_iff] at hrun
      obtain ⟨u, hu, hrest⟩ := hrun
      simp only [Always, hu] at hall
      exact ih (.step h hall.1 hu) hall.2 hrest

/-- A successful run of allowed steps from the initial state ends in a reachable state. -/
theorem reachable_of_run {actions : List Action} {s : State}
    (hall : sys.Always allowed actions sys.init) (hrun : sys.run actions sys.init = some s) :
    sys.Reachable allowed s :=
  Reachable.run .init hall hrun

/-- A run of allowed steps that does not get stuck reaches the state behind it. -/
theorem reachable_after {actions : List Action} (hall : sys.Always allowed actions sys.init)
    (hrun : (sys.run actions sys.init).isSome) : sys.Reachable allowed (sys.after actions) := by
  obtain ⟨s, hs⟩ := Option.isSome_iff_exists.mp hrun
  rw [after, hs]
  exact reachable_of_run hall hs

/-- Without a restriction on the steps, a run only has to get through. -/
theorem reachable_after_free {actions : List Action} (hrun : (sys.run actions sys.init).isSome) :
    sys.Reachable (fun _ _ => True) (sys.after actions) :=
  reachable_after (always_of_forall (fun _ _ => trivial) actions sys.init) hrun

end System

end P2KVS.Transition
