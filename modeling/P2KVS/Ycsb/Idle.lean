import P2KVS.Ycsb.Ledger

/-!
# The idle branch of a `ycsb.cpp` worker

`Paced` says by program point how far the worker is behind the tail it has observed and which of its
batches are empty. A worker is `Drained` when it has taken every published request and nothing is
pending. `Running.drained` says when the idle branch guarantees that, and `Drained.step` that a
drained worker stays as it is until something is published.
-/

namespace P2KVS.Ycsb

open Channel History Transition

/-- The ledger alone is stable. -/
theorem ledger_stable (p : Params) (slots : Nat → AsyncRequest) :
    Stable p slots (fun _ => True) (fun _ => True) (fun _ => True) where
  writeOut := fun _ _ _ => trivial
  readOut := fun _ _ => trivial
  put := fun _ _ _ _ => trivial
  pushKey := fun _ _ _ _ => trivial
  scan := fun _ _ _ _ => trivial

/-- After the flush of the pending reads no key is pending. -/
theorem Ledger.lookedUp {p : Params} {slots : Nat → AsyncRequest} {v : Locals}
    (h : Ledger p slots v) (c : Choice) (report : Bool) :
    (v.flushReads p c report).reads = [] := by
  unfold Locals.flushReads
  split_ifs with hlength
  · rfl
  · rw [h.keys, ne_eq, not_not] at hlength
    exact List.length_eq_zero_iff.mp hlength

namespace Worker

/-- How far a worker is behind the tail it has observed, and what the idle branch has flushed. -/
structure Paced (w : Worker) : Prop where
  behind : w.vars.seq ≤ w.seen
  point : match w.pc with
    | .loopHead => True
    | .idleWrite => w.seen ≤ w.vars.seq
    | .idleRead => w.seen ≤ w.vars.seq ∧ w.vars.batchReqs = []
    | .idle | .wait => w.seen ≤ w.vars.seq ∧ w.vars.batchReqs = [] ∧ w.vars.reads = []
    | .wake | .fetch | .handle _ | .exited => w.vars.seq < w.seen

section Steps

variable {p : Params} {slots : Nat → AsyncRequest} {tail : Nat} {c : Choice} {w w' : Worker}

/-- A worker that has not started has observed nothing. -/
theorem paced_start (p : Params) : Paced (start p) :=
  ⟨Nat.le_refl _, trivial⟩

/-- A poll that observes `t` stays within it. -/
theorem Paced.poll (h : Paced w) {t : Nat} (hseen : w.seen ≤ t) : w.vars.seq ≤ t :=
  Nat.le_trans h.behind hseen

/-- Every step keeps the pace. -/
theorem Paced.step (h : Paced w) (hledger : w.pc ≠ .exited → Ledger p slots w.vars)
    (hstep : Worker.step p slots tail c w = some w') : Paced w' := by
  have hbehind := h.behind
  have hpoint := h.point
  unfold Worker.step at hstep
  cases hpc : w.pc with
  | loopHead =>
      rw [hpc] at hstep
      obtain ⟨hseen, _, rfl⟩ := poll_eq_some.mp hstep
      refine ⟨h.poll hseen, ?_⟩
      dsimp only
      split_ifs with hle
      · exact hle
      · exact Nat.lt_of_not_le hle
  | idleWrite =>
      rw [hpc] at hstep hpoint
      cases hstep
      have hseq := Locals.flushWrites_seq c w.vars false
      refine ⟨hseq ▸ hbehind, hseq ▸ hpoint, ?_⟩
      exact (hledger (by simp [hpc])).flushed c false
  | idleRead =>
      rw [hpc] at hstep hpoint
      cases hstep
      obtain ⟨hseq, hbatch⟩ := Locals.flushReads_seq_batch p c w.vars false
      refine ⟨hseq ▸ hbehind, hseq ▸ hpoint.1, hbatch.trans hpoint.2, ?_⟩
      exact (hledger (by simp [hpc])).lookedUp c false
  | idle =>
      rw [hpc] at hstep hpoint
      cases hstep
      exact ⟨hbehind, hpoint⟩
  | wait =>
      rw [hpc] at hstep hpoint
      obtain ⟨hseen, _, rfl⟩ := poll_eq_some.mp hstep
      refine ⟨h.poll hseen, ?_⟩
      dsimp only
      split_ifs with hle
      · exact ⟨hle, hpoint.2⟩
      · exact Nat.lt_of_not_le hle
  | wake | fetch =>
      rw [hpc] at hstep hpoint
      cases hstep
      exact ⟨hbehind, hpoint⟩
  | handle r =>
      rw [hpc] at hstep hpoint
      cases hstep
      have hseq := Locals.handle_seq p c w.vars r
      split_ifs at hseq with hend
      · simp only [if_pos hend]
        exact ⟨hseq ▸ hbehind, hseq ▸ hpoint⟩
      · simp only [if_neg hend]
        exact ⟨hseq ▸ hpoint, trivial⟩
  | exited =>
      rw [hpc] at hstep
      cases hstep

end Steps

/-- The worker has taken every request in front of the tail and nothing is pending. -/
structure Drained (tail : Nat) (w : Worker) : Prop where
  seq : w.vars.seq = tail
  batch : w.vars.batchReqs = []
  reads : w.vars.reads = []

section Reachable

variable {p : Params} {slots : Nat → AsyncRequest} {tail : Nat} {c : Choice} {w w' : Worker}

/-- What is known of a worker at any point of a run. -/
structure Running (p : Params) (slots : Nat → AsyncRequest) (tail : Nat) (w : Worker) : Prop where
  inv : Inv p slots (fun _ => True) w
  paced : Paced w
  seen : w.seen ≤ tail

/-- Every worker that runs alone is known that well. -/
theorem running_of_reachable (h : (alone p slots tail).Reachable (fun _ _ => True) w) :
    Running p slots tail w := by
  have hinv : ∀ {u}, (alone p slots tail).Reachable (fun _ _ => True) u →
      Inv p slots (fun _ => True) u := fun hu =>
    inv_reachable (ledger_stable p slots) tail trivial (hu.mono fun _ _ _ => by simp)
  have hstart : (consumer p).Synced tail (start p) := ⟨Nat.zero_le _, by simp [start]⟩
  have hsync : (consumer p).Synced tail w := Consumer.synced_alone hstart h
  refine ⟨hinv h, ?_, hsync.1⟩
  exact h.invariant (I := Paced) (paced_start p) fun hu hpaced _ hstep =>
    hpaced.step (fun hne => settled_of_ne hne ▸ (hinv hu).ledger) hstep

/-- Before the exit the ledger is about the variables themselves. -/
theorem Running.ledger (h : Running p slots tail w) (hne : w.pc ≠ .exited) :
    Ledger p slots w.vars :=
  settled_of_ne hne ▸ h.inv.ledger

/-- A worker is drained if nothing was ever published, or if it is in its idle branch and the tail
it has observed is the current one. -/
theorem Running.drained (h : Running p slots tail w)
    (hidle : tail = 0 ∨ (w.pc = .idle ∨ w.pc = .wait) ∧ w.seen = tail) : Drained tail w := by
  have hbehind := h.paced.behind
  have hseen := h.seen
  have hpoint := h.paced.point
  rcases hidle with rfl | ⟨hpc, rfl⟩
  · have hseq : w.vars.seq = 0 := by omega
    have hne : w.pc ≠ .exited := by
      intro hexit
      rw [hexit] at hpoint
      omega
    have hwrites := (h.ledger hne).writes
    have hreads := (h.ledger hne).reads
    rw [hseq, positions_zero, List.append_eq_nil_iff] at hwrites hreads
    exact ⟨hseq, hwrites.2, hreads.2⟩
  · rcases hpc with hpc | hpc <;>
    · rw [hpc] at hpoint
      exact ⟨by omega, hpoint.2.1, hpoint.2.2⟩

/-- A drained worker changes none of its variables. -/
theorem Drained.step (hd : Drained tail w) (h : Running p slots tail w)
    (hstep : Worker.step p slots tail c w = some w') : w'.vars = w.vars := by
  have hseen := h.seen
  have hseq := hd.seq
  have hpoint := h.paced.point
  obtain ⟨_, hsame, _⟩ | ⟨hpc, rfl⟩ | ⟨hpc, rfl⟩ | ⟨r, hpc, rfl⟩ := step_cases hstep
  · exact hsame
  · have hsize := (h.ledger (by simp [hpc])).size
    rw [hd.batch] at hsize
    exact if_neg (not_not.mpr hsize)
  · have hlength := (h.ledger (by simp [hpc])).keys
    rw [hd.reads] at hlength
    exact if_neg (not_not.mpr hlength)
  · -- a request is handled only in front of the observed tail
    rw [hpc] at hpoint
    dsimp only at hpoint
    omega

end Reachable

end Worker

end P2KVS.Ycsb
