import P2KVS.RocksDB.AwaitState.Protocol

/-!
# No wake-up is lost

`WriteThread` takes `SetState` and a returning `AwaitState` as one step each. `Atomic` says that.
Every interleaving of the two calls refines it and comes to an end, as long as the old state is not
one the thread waits for and the new one is.
-/

namespace P2KVS.WriteThread.Wait

open Transition

/-- `SetState` and `AwaitState` as one step each: the state of the writer, and what `AwaitState` has
returned. -/
structure Atomic where
  state : WriterState
  returned : Option WriterState
  deriving DecidableEq, Repr

/-- `SetState` changes the state at once; `AwaitState` returns at once when the state is one it
waits for. -/
def atomic (call : Call) : System Atomic Party where
  init := ⟨call.old, none⟩
  step s
    | .setter => some { s with state := call.new }
    | .waiter => if call.goal s.state then some { s with returned := some s.state } else none

/-- What the two threads have done, seen as steps of `Atomic`. -/
def State.view (call : Call) (s : State) : Atomic where
  state := if s.setter.stored then call.new else call.old
  returned := match s.waiter with
    | .returned _ => some call.new
    | _ => none

/-! ### Progress -/

/-- How far the waiting thread is from its return. A thread that is woken has to lock the mutex and
look once more. -/
def WaiterPc.rank : WaiterPc → Nat
  | .outside => 8
  | .spin => 7
  | .create => 6
  | .load => 5
  | .exchange _ => 4
  | .lock => 3
  | .test => 2
  | .sleep woken => if woken then 3 else 1
  | .returned _ => 0

/-- How far `SetState` is from its return. Its `notify_one` pays for what it makes the other thread
do. -/
def SetterPc.rank : SetterPc → Nat
  | .outside => 9
  | .load => 8
  | .exchange _ => 7
  | .lock => 6
  | .store => 5
  | .notify => 4
  | .unlock => 1
  | .returned => 0

/-- How many steps the two threads can take. -/
def State.potential (s : State) : Nat :=
  s.waiter.rank + s.setter.rank

/-- The step is none of the loops of `AwaitState` and no spurious wake-up. -/
def Action.isMove : Action → Bool
  | .spin | .wake => false
  | .await | .set | .wait | .put => true

section Runs

variable {call : Call} {s t : State}

/-- The steps left to the waiting thread, apart from wake-ups. -/
theorem WaiterPc.rank_le (p : WaiterPc) : p.rank ≤ 8 := by
  cases p with
  | sleep woken => cases woken <;> decide
  | _ =>
      simp only [WaiterPc.rank]
      omega

/-- The steps left to `SetState`, with those that its wake-up gives to the other thread. -/
theorem SetterPc.rank_le (p : SetterPc) : p.rank ≤ 9 := by
  cases p <;> simp only [SetterPc.rank] <;> omega

/-- A wake-up gives the waiting thread two more steps at most. -/
theorem WaiterPc.rank_wake_le (p : WaiterPc) : p.wake.rank ≤ p.rank + 2 := by
  cases p with
  | sleep woken => cases woken <;> decide
  | _ => exact Nat.le_add_right _ _

/-- The two threads can take 17 steps at most. -/
theorem State.potential_le (s : State) : s.potential ≤ 17 :=
  Nat.add_le_add s.waiter.rank_le s.setter.rank_le

/-- Every step lowers the potential, apart from the loops of `AwaitState` and spurious wake-ups. -/
theorem Move.potential_le {a : Action} (hmove : Move call s a t) :
    t.potential + (if a.isMove then 1 else 0) ≤ s.potential + if a = .wake then 2 else 0 := by
  unfold State.potential
  cases hmove with
  | spin => exact Nat.le_refl _
  | await hpc | giveUp hpc | create hpc | look hpc | block hpc | sleep hpc | leave hpc | wake hpc =>
      simp only [hpc, WaiterPc.rank, Action.isMove, reduceCtorEq, if_true, if_false]
      omega
  | met hlooks =>
      obtain hpc | hpc | ⟨seen, hpc⟩ := hlooks <;>
        simp only [hpc, WaiterPc.rank, Action.isMove, reduceCtorEq, if_true, if_false] <;> omega
  | acquire hpc =>
      obtain hpc | hpc := hpc <;>
        simp only [hpc, WaiterPc.rank, Action.isMove, reduceCtorEq, if_true, if_false] <;> omega
  | locked hpc =>
      obtain hpc | ⟨seen, hpc⟩ := hpc <;>
        simp only [hpc, SetterPc.rank, Action.isMove, reduceCtorEq, if_true, if_false] <;> omega
  | set hpc | unlocked hpc | exchange hpc | guard hpc | store hpc | unlock hpc =>
      simp only [hpc, SetterPc.rank, Action.isMove, reduceCtorEq, if_true, if_false]
      omega
  | notify hpc =>
      have hwake := s.waiter.rank_wake_le
      simp only [hpc, SetterPc.rank, Action.isMove, reduceCtorEq, if_true, if_false]
      omega

/-- Every step is a step of `Atomic`, or none: the new state is there when `SetState` exchanges or
stores it, and `AwaitState` returns when it has seen it. -/
theorem Move.view {a : Action} (hmove : Move call s a t) (hnew : call.goal call.new = true) :
    t.view call = s.view call ∨
      ∃ b, (atomic call).step (s.view call) b = some (t.view call) := by
  cases hmove with
  | met _ hput | leave _ hput =>
      exact .inr ⟨.waiter, by simp [atomic, State.view, hput, SetterPc.stored, hnew]⟩
  | exchange hpc | store hpc =>
      exact .inr ⟨.setter, by simp [atomic, State.view, hpc, SetterPc.stored]⟩
  | notify hpc =>
      left
      cases hwait : s.waiter <;> simp [State.view, hpc, hwait, WaiterPc.wake, SetterPc.stored]
  | locked hpc =>
      left
      obtain hpc | ⟨seen, hpc⟩ := hpc <;> simp [State.view, hpc, SetterPc.stored]
  | acquire hpc =>
      left
      obtain hpc | hpc := hpc <;> simp [State.view, hpc]
  | spin => exact .inl rfl
  | await hpc | giveUp hpc | create hpc | look hpc | block hpc | sleep hpc | wake hpc =>
      exact .inl (by simp [State.view, hpc])
  | set hpc | unlocked hpc | guard hpc | unlock hpc =>
      exact .inl (by simp [State.view, hpc, SetterPc.stored])

/-- The invariant holds in every reachable state. -/
theorem inv_reachable (hold : call.goal call.old = false) (hnew : call.goal call.new = true)
    {allowed : State → Action → Prop} (h : (system call).Reachable allowed s) : Inv call s := by
  have hne : call.old ≠ call.new := fun heq => by simp [heq, hnew] at hold
  refine h.invariant ?_ fun _ hinv _ hstep => (hinv.move hold hnew hstep).inv hne hinv
  constructor <;> simp [system, SetterPc.finds, SetterPc.holds, SetterPc.foundLocked,
    WaiterPc.blocked, WaiterPc.waitable]

/-- A run has no more steps than the potential at its beginning and its spurious wake-ups allow. -/
theorem Inv.run_length (hold : call.goal call.old = false) (hnew : call.goal call.new = true)
    (h : Inv call s) {actions : List Action} (hrun : (system call).run actions s = some t) :
    Inv call t ∧
      t.potential + actions.countP Action.isMove ≤ s.potential + 2 * actions.count .wake := by
  have hne : call.old ≠ call.new := fun heq => by simp [heq, hnew] at hold
  induction actions generalizing s with
  | nil =>
      cases hrun
      exact ⟨h, by simp⟩
  | cons a rest ih =>
      simp only [System.run, bind, Option.bind_eq_some_iff] at hrun
      obtain ⟨u, hu, hrest⟩ := hrun
      have hmove : Move call s a u := h.move hold hnew hu
      obtain ⟨hinv, hle⟩ := ih (hmove.inv hne h) hrest
      refine ⟨hinv, ?_⟩
      have hstep := hmove.potential_le
      rw [List.countP_cons, List.count_cons]
      simp only [beq_iff_eq]
      split_ifs at hstep ⊢ <;> omega

/-- When neither thread can take a step and both have been called, both have returned. -/
theorem Inv.all_returned (h : Inv call s) (hwaiter : s.waiter ≠ .outside)
    (hsetter : s.setter ≠ .outside) (hwait : step call s .wait = none)
    (hput : step call s .put = none) :
    s.waiter = .returned (.state call.new) ∧ s.setter = .returned := by
  simp only [step, State.waitStep] at hwait
  simp only [step, State.putStep] at hput
  -- whoever holds the mutex can go on
  have hfree : s.holder = none := by
    cases hholder : s.holder with
    | none => rfl
    | some party =>
        cases party with
        | waiter =>
            have hpc := h.waiter.mp hholder
            simp only [hpc] at hwait
            split_ifs at hwait
        | setter =>
            have hpc := h.setter.mp hholder
            cases hset : s.setter <;> simp [hset, SetterPc.holds] at hpc hput
  have hreturned : s.setter = .returned := by
    cases hset : s.setter <;> simp only [hset] at hput <;> first | rfl | skip
    · exact absurd hset hsetter
    · cases hput
    · split_ifs at hput
    · rw [if_pos hfree] at hput
      cases hput
    all_goals cases hput
  have hword : s.word = .state call.new := by
    have hfinds := h.word
    rwa [hreturned] at hfinds
  refine ⟨?_, hreturned⟩
  cases hpc : s.waiter with
  | outside => exact absurd hpc hwaiter
  | spin | exchange _ | test =>
      simp only [hpc] at hwait
      split_ifs at hwait
  | create | load => simp [hpc] at hwait
  | lock => simp [hpc, hfree] at hwait
  | sleep woken =>
      -- a thread that sleeps behind the store has been woken
      cases woken with
      | true => simp [hpc, hfree] at hwait
      | false => obtain hlocked | hnotify := h.asleep hpc <;> simp_all
  | returned value => rw [(h.answer value hpc).1]

end Runs

/-- `SetState` and `AwaitState` in every interleaving, as long as the thread does not wait for the
old state and waits for the new one. No assertion fails, and `SetState` does not touch the writer
once `AwaitState` has returned. What they do refines one step each. And no wake-up is lost: apart
from the loops of `AwaitState` and spurious wake-ups there are only so many steps, and when neither
thread can go on, `AwaitState` has returned the new state. -/
theorem set_state_wakes_waiter {call : Call} (hold : call.goal call.old = false)
    (hnew : call.goal call.new = true) {s : State}
    (h : (system call).Reachable (fun _ _ => True) s) :
    s.fault = false ∧ (atomic call).Reachable (fun _ _ => True) (s.view call) ∧
      ∀ {actions : List Action} {t : State}, (system call).run actions s = some t →
        actions.countP Action.isMove ≤ 17 + 2 * actions.count .wake ∧
          (t.waiter ≠ .outside → t.setter ≠ .outside → step call t .wait = none →
            step call t .put = none →
            t.waiter = .returned (.state call.new) ∧ t.setter = .returned) := by
  have hinv := inv_reachable hold hnew h
  refine ⟨hinv.fault, ?_, fun {actions t} hrun => ?_⟩
  · refine h.simulate (State.view call) rfl fun hs _ hstep => ?_
    obtain heq | ⟨b, hb⟩ := ((inv_reachable hold hnew hs).move hold hnew hstep).view hnew
    · exact .inl heq
    · exact .inr ⟨b, trivial, hb⟩
  · obtain ⟨hend, hlength⟩ := hinv.run_length hold hnew hrun
    have hbound := s.potential_le
    exact ⟨by omega, hend.all_returned⟩

/-- A follower that waits in `JoinBatchGroup` and is released. -/
def released : Call where
  old := .init
  new := .completed
  goal := fun state => state ≠ .init
  madeWaitable := false

/-- The follower falls asleep and is woken without a reason; it sleeps again until the new state is
stored. -/
def releasedRun : List Action :=
  [.await, .spin] ++ List.replicate 6 .wait ++ [.wake, .wait, .wait, .set] ++
    List.replicate 5 .put ++ [.wait, .wait]

/-- The follower returns from `AwaitState` with the new state. -/
theorem set_state_wakes_waiter_asleep :
    ∃ t, (system released).run releasedRun (system released).init = some t ∧
      releasedRun.countP Action.isMove ≤ 17 + 2 * releasedRun.count .wake ∧
      t.waiter = .returned (.state .completed) ∧ t.setter = .returned := by
  have hrun : (system released).run releasedRun (system released).init =
      some ⟨.state .completed, true, none, .returned (.state .completed), .returned, false⟩ := by
    decide
  have hend := (@set_state_wakes_waiter released (by decide) (by decide) _ .init).2.2 hrun
  exact ⟨_, hrun, hend.1, hend.2 (by decide) (by decide) (by decide) (by decide)⟩

end P2KVS.WriteThread.Wait
