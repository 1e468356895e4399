import Mathlib.Data.Nat.Basic

/-!
# Loops that leave with a return

A loop body either goes on with new values of its variables or returns. `run` executes at most so
many rounds; `Returns` says that the loop returns at all. The rules are those a loop is reasoned
with: one round, a variant that bounds the rounds, an invariant that no round leaves.
-/

namespace P2KVS.Loop

variable {σ ρ : Type*}

/-- Execute at most `fuel` rounds. -/
def run (body : σ → σ ⊕ ρ) : Nat → σ → Option ρ
  | 0, _ => none
  | fuel + 1, s => match body s with
      | .inl t => run body fuel t
      | .inr r => some r

/-- The loop returns `r` from `s`. -/
inductive Returns (body : σ → σ ⊕ ρ) : σ → ρ → Prop where
  | done {s : σ} {r : ρ} : body s = .inr r → Returns body s r
  | next {s t : σ} {r : ρ} : body s = .inl t → Returns body t r → Returns body s r

variable {body : σ → σ ⊕ ρ} {s t : σ} {r : ρ}

/-- A round that goes on uses up one of the rounds. -/
theorem run_next (h : body s = .inl t) (fuel : Nat) :
    run body (fuel + 1) s = run body fuel t := by
  simp only [run, h]

/-- A round that returns ends the run. -/
theorem run_done (h : body s = .inr r) (fuel : Nat) : run body (fuel + 1) s = some r := by
  simp only [run, h]

/-- More rounds do not change what a run returns. -/
theorem run_mono {fuel fuel' : Nat} (hle : fuel ≤ fuel') (h : run body fuel s = some r) :
    run body fuel' s = some r := by
  induction fuel generalizing s fuel' with
  | zero => cases h
  | succ fuel ih =>
      obtain ⟨k, rfl⟩ : ∃ k, fuel' = k + 1 := ⟨fuel' - 1, by omega⟩
      cases hbody : body s with
      | inl t =>
          rw [run_next hbody] at h ⊢
          exact ih (by omega) h
      | inr r' =>
          rw [run_done hbody] at h ⊢
          exact h

/-- A loop that returns does so within finitely many rounds. -/
theorem Returns.exists_run (h : Returns body s r) : ∃ fuel, run body fuel s = some r := by
  induction h with
  | done hbody => exact ⟨1, run_done hbody 0⟩
  | next hbody _ ih =>
      obtain ⟨fuel, hrun⟩ := ih
      exact ⟨fuel + 1, (run_next hbody fuel).trans hrun⟩

/-- An invariant that keeps the loop going keeps it going for ever. -/
theorem run_eq_none {I : σ → Prop} (hI : ∀ s, I s → ∃ t, body s = .inl t ∧ I t) (h : I s)
    (fuel : Nat) : run body fuel s = none := by
  induction fuel generalizing s with
  | zero => rfl
  | succ fuel ih =>
      obtain ⟨t, hbody, ht⟩ := hI s h
      rw [run_next hbody]
      exact ih ht

/-- When every round lowers a variant or leads into an invariant that keeps the loop going, the
loop returns within as many rounds as the variant says, or it gets into the invariant and never
returns. -/
theorem run_or_forever {I : σ → Prop} (variant : σ → Nat)
    (hI : ∀ s, I s → ∃ t, body s = .inl t ∧ I t)
    (hround : ∀ s t, body s = .inl t → variant t < variant s ∨ I t) (s : σ) :
    (∃ r, run body (variant s + 1) s = some r) ∨ (∃ t, I t) ∧ ∀ fuel, run body fuel s = none := by
  induction hv : variant s using Nat.strong_induction_on generalizing s with
  | _ v ih =>
      cases hbody : body s with
      | inr r => exact .inl ⟨r, run_done hbody _⟩
      | inl t =>
          have hforever : (∀ fuel, run body fuel t = none) → ∀ fuel, run body fuel s = none := by
            intro ht fuel
            cases fuel with
            | zero => rfl
            | succ fuel => rw [run_next hbody, ht]
          rcases hround s t hbody with hlt | ht
          · rcases ih (variant t) (hv ▸ hlt) t rfl with ⟨r, hr⟩ | ⟨hinv, hnone⟩
            · exact .inl ⟨r, (run_next hbody v).trans (run_mono (by omega) hr)⟩
            · exact .inr ⟨hinv, hforever hnone⟩
          · exact .inr ⟨⟨t, ht⟩, hforever fun fuel => run_eq_none hI ht fuel⟩

/-- Under the same rule, what the loop returns it returns within the bound of the variant. -/
theorem Returns.run_variant {I : σ → Prop} (variant : σ → Nat)
    (hI : ∀ s, I s → ∃ t, body s = .inl t ∧ I t)
    (hround : ∀ s t, body s = .inl t → variant t < variant s ∨ I t) (h : Returns body s r) :
    run body (variant s + 1) s = some r := by
  obtain ⟨fuel, hrun⟩ := h.exists_run
  rcases run_or_forever variant hI hround s with ⟨r', hr'⟩ | ⟨-, hnone⟩
  · have hmax := run_mono (Nat.le_max_left fuel (variant s + 1)) hrun
    rw [run_mono (Nat.le_max_right fuel (variant s + 1)) hr'] at hmax
    exact hr'.trans hmax
  · rw [hnone fuel] at hrun
    cases hrun

end P2KVS.Loop
