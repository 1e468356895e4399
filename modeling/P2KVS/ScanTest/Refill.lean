import P2KVS.ScanTest.Agreement
import P2KVS.ScanTest.Continuity
import P2KVS.ScanTest.Rounds

/-!
# The assertion behind a refill

When `Next()` returns false, the merge thread asks the worker of the current queue for more keys,
calls `Next()` again and asserts that it returns true. `vector_merge_iter` has no notion of an
exhausted queue, and a buffer has lost the keys of its initial fill. With scans of size 100 the
assertion holds exactly when the current queue has at least 102 keys more than the merge has gone
forward in it (`refill_assertion`); `refill_assertion_fails` is a run with enough keys in all that
ends in the failed assertion.
-/

namespace P2KVS.ScanTest

open Sorted Storage Transition

/-- How many keys at or past the start key of its scan the current queue has. -/
def supply (p : Program) (s : State) : Nat :=
  ((p.db s.merge.current).keysFrom (startKey (s.lanes s.merge.current).request)).length

/-- When the merge thread asks a queue for keys, the queue has enough of them. -/
def Supplied (p : Program) (s : State) : Action → Prop
  | .work _ _ => True
  | .merge _ => match s.merge.pc with
      | .needIter _ => s.merge.now s.merge.current + 102 ≤ supply p s
      | _ => True

/-- Whether a queue has enough keys can be computed. -/
instance (p : Program) (s : State) : (a : Action) → Decidable (Supplied p s a)
  | .work _ _ => inferInstanceAs (Decidable True)
  | .merge _ => match h : s.merge.pc with
      | .needIter _ => decidable_of_iff (s.merge.now s.merge.current + 102 ≤ supply p s)
          (by simp only [Supplied, h])
      | .waitStart _ | .find _ _ _ | .advance _ | .waitIter _ | .retry _ | .release _ | .done
      | .aborted => isTrue (by simp only [Supplied, h])

/-- A worker looks at slots in front of the tail, and copies requests of the dispatcher. -/
structure Lane.Requested (p : Program) (l : Lane) : Prop where
  check : l.pc = .check → l.seq < p.content.length
  request : l.pc.handling = true → ∃ scan ∈ p.scans, l.request.scanSize = scan.2

/-- A worker that has found work has not reached the tail. -/
theorem Lane.seq_lt_of_check {p : Program} {q t : Nat} {l l' : Lane} (h : l.step p q t = some l')
    (hpc : l.pc = .poll) (hcheck : l'.pc = .check) : l'.seq < p.content.length := by
  simp only [Lane.step, hpc] at h
  split_ifs at h with ht hle
  · cases h
    cases hcheck
  · cases h
    show l.seq < p.content.length
    omega

/-- A slot in front of the tail that is not the end marker holds a request of the dispatcher. -/
theorem Program.slot_real {p : Program} {i : Nat} (hi : i < p.content.length)
    (hreal : (p.slot i).seq ≠ -1) : ∃ scan ∈ p.scans, (p.slot i).scanSize = scan.2 := by
  unfold slot content at *
  rw [List.length_append, List.length_mapIdx, List.length_singleton] at hi
  by_cases hlt : i < p.scans.length
  · refine ⟨p.scans[i], List.getElem_mem hlt, ?_⟩
    simp [List.getD_eq_getElem?_getD, List.getElem?_append_left, hlt]
  · obtain rfl : i = p.scans.length := by omega
    exact absurd (by simp [List.getD_eq_getElem?_getD]) hreal

/-- Every request that a worker handles comes from the dispatcher. -/
theorem requested_reachable {p : Program} {q : Nat} {w : Watched}
    (h : (Watched.system p q).Reachable (fun _ _ => True) w) : w.lane.Requested p := by
  refine h.invariant (I := fun w => w.lane.Requested p) ?_ ?_
  · exact ⟨by simp [Watched.system, Lane.start], by simp [Watched.system, Lane.start, Pc.handling]⟩
  intro w a w' _ hinv _ hstep
  cases a with
  | store status =>
      cases hstep
      exact ⟨hinv.check, hinv.request⟩
  | work t =>
      simp only [Watched.system, Watched.step, Option.map_eq_some_iff] at hstep
      obtain ⟨l, hl, rfl⟩ := hstep
      have hmove := Lane.move_of_step hl
      generalize hlane : w.lane = old at hinv hl hmove
      show l.Requested p
      cases hmove with
      | poll t' pc hpc hnext =>
          refine ⟨Lane.seq_lt_of_check hl hpc, fun hhandling => ?_⟩
          obtain rfl | rfl := hnext
          · simp [Pc.handling] at hhandling
          · simp [Pc.handling] at hhandling
      | take hpc hreal =>
          exact ⟨by simp, fun _ => Program.slot_real (hinv.check hpc) hreal⟩
      | finish | advance => exact ⟨by simp, by simp [Pc.handling]⟩
      | seek iter hpc _ =>
          refine ⟨?_, fun _ => hinv.request (by simp [hpc, Pc.handling])⟩
          dsimp only
          split_ifs <;> simp
      | first _ hpc _ | fill _ _ _ hpc _ _ _ | filled _ _ _ hpc _ | publish hpc | released hpc _
      | notOver hpc _ | needed hpc _ | notNeeded hpc _ | refill _ hpc _ _ | refilled _ _ hpc _
      | iterOver hpc | clear hpc =>
          exact ⟨by simp, fun _ => hinv.request (by simp [hpc, Pc.handling])⟩

/-- How far the merge thread can have gone: in iteration `i` of its loop it has advanced less than
`i` times. -/
def Merge.Bounded (p : Program) (m : Merge) : Prop :=
  match m.pc with
  | .find _ best caller => (∀ b, best = some b → b.1 < p.queueNum) ∧
      (∀ q, m.now q ≤ caller.getD 0) ∧ caller.getD 0 < 100
  | .advance i => m.current < p.queueNum ∧ ∀ q, m.now q < i
  | .needIter i | .waitIter i | .retry i =>
      i < 100 ∧ m.current < p.queueNum ∧ ∀ q, m.now q < i
  | _ => True

namespace Merge.Bounded

variable {p : Program} {m m' : Merge} {junk : Nat → Slice} {status : Nat → ScanStatus}
  {buffer : Nat → Vec KeyRef} {store : Option (Nat × ScanStatus)}

/-- The loop over the advances ends at 100. -/
theorem lt_of_advance {i : Nat} (hpc : m.pc = .advance i)
    (h : m.step p junk status buffer = some (m', store)) (hgo : m'.pc ≠ .release 0) : i < 100 := by
  by_contra hge
  simp only [Merge.step, hpc, if_neg hge, Option.some.injEq, Prod.mk.injEq] at h
  exact hgo (h.1 ▸ rfl)

/-- A `Next()` that returns true in iteration `i` advances one queue. -/
theorem next {i : Nat} (hnow : ∀ q, m.now q < i) (hi : i < 100) :
    Merge.Bounded p { m with
      now := Function.update m.now m.current (m.now m.current + 1)
      pc := .find 0 none (some i) } := by
  refine ⟨by simp, fun q => ?_, hi⟩
  have hq := hnow q
  show Function.update m.now m.current (m.now m.current + 1) q ≤ i
  by_cases heq : q = m.current
  · subst heq
    rw [Function.update_self]
    omega
  · rw [Function.update_of_ne heq]
    omega

/-- Every step of the merge thread keeps the bounds. -/
theorem step (h : m.Bounded p) (hstep : m.step p junk status buffer = some (m', store)) :
    m'.Bounded p := by
  have hmove := Merge.move_of_step hstep
  unfold Merge.Bounded at h
  cases hmove with
  | idle hpc =>
      obtain ⟨i, hpc⟩ | ⟨i, hpc⟩ := hpc
      · simp [Merge.Bounded, hpc]
      · simpa [Merge.Bounded, hpc] using h
  | started | abort | release | finished => trivial
  | roundOver =>
      unfold Merge.roundHead
      split_ifs
      · trivial
      · trivial
  | construct => exact ⟨by simp, fun q => Nat.le_refl 0, by simp⟩
  | read i best caller key _ hpc hi _ =>
      simp only [hpc] at h
      refine ⟨fun b hb => ?_, h.2⟩
      cases hb
      exact Merge.improve_lt hi h.1 key
  | found i best caller _ hpc _ =>
      simp only [hpc] at h
      refine ⟨h.1 best rfl, fun q => ?_⟩
      have hq := h.2.1 q
      cases caller with
      | none => exact Nat.lt_succ_of_le hq
      | some j => exact Nat.lt_succ_of_le hq
  | next i hpc _ =>
      obtain hpc | hpc := hpc
      · simp only [hpc] at h
        exact next h.2 (lt_of_advance hpc hstep (by simp))
      · simp only [hpc] at h
        exact next h.2.2 h.1
  | short i hpc _ =>
      simp only [hpc] at h
      exact ⟨lt_of_advance hpc hstep (by simp), h⟩
  | need i hpc =>
      simp only [hpc] at h
      exact h
  | served i hpc _ =>
      simp only [hpc] at h
      exact h

end Merge.Bounded

section Reachable

variable {p : Program} {allowed : State → Action → Prop} {s : State}

/-- The bounds hold in every reachable state. -/
theorem bounded_reachable (h : (system p).Reachable allowed s) : s.merge.Bounded p := by
  refine h.invariant (I := fun s => s.merge.Bounded p) ?_ ?_
  · show Merge.Bounded p ⟨Merge.roundHead p 0, 0, fun _ => 0, 0, []⟩
    unfold Merge.roundHead
    split_ifs
    · trivial
    · trivial
  intro s a t _ hinv _ hstep
  cases a with
  | work q tail =>
      simp only [system, step] at hstep
      split_ifs at hstep
      simp only [Option.map_eq_some_iff] at hstep
      obtain ⟨_, _, rfl⟩ := hstep
      exact hinv
  | merge junk =>
      simp only [system, step, Option.map_eq_some_iff] at hstep
      obtain ⟨⟨m, store⟩, hm, rfl⟩ := hstep
      exact hinv.step hm

/-- The merge thread calls `Next()` again only while the flag of the current queue is
`ITER_OVER`. -/
theorem answered_reachable (h : (system p).Reachable allowed s) {i : Nat}
    (hpc : s.merge.pc = .retry i) : (s.lanes s.merge.current).status = .iterOver := by
  refine h.invariant (I := fun s => ∀ i, s.merge.pc = .retry i →
    (s.lanes s.merge.current).status = .iterOver) ?_ ?_ i hpc
  · intro i hpc
    change Merge.roundHead p 0 = .retry i at hpc
    unfold Merge.roundHead at hpc
    split_ifs at hpc
  intro s a t hs hinv _ hstep i hpc
  obtain ⟨q, _, l, _, hq, hmove, rfl⟩ | ⟨_, m, store, _, hmove, rfl⟩ := step_cases hstep
  · have hover := hinv i hpc
    show (Function.update s.lanes q l s.merge.current).status = .iterOver
    by_cases heq : s.merge.current = q
    · subst heq
      rw [Function.update_self]
      have hshake := handshake_reachable hs _ hq
      rcases hmove.status with hsame | ⟨hpublish, _⟩ | hiter
      · exact hsame.trans hover
      · have hscan := hshake.outside (by simp [hpublish, Pc.inside])
        exact absurd (hscan.symm.trans hover) (by simp)
      · have hneed := hshake.serving (by simp [hiter, Pc.serving])
        exact absurd (hneed.symm.trans hover) (by simp)
    · rw [Function.update_of_ne heq]
      exact hover
  · cases hmove with
    | idle => exact hinv i hpc
    | served _ _ hstatus => exact hstatus
    | roundOver =>
        change Merge.roundHead p (s.merge.seq + 1) = .retry i at hpc
        unfold Merge.roundHead at hpc
        split_ifs at hpc
    | _ => cases hpc

/-- With scans of size 100, `Next()` behind a refill returns true exactly when the current queue has
at least 102 keys more than the merge has gone forward in it. -/
theorem retry_iff (hsize : ∀ scan ∈ p.scans, scan.2 = 100) (h : (system p).Reachable allowed s)
    {i : Nat} (hpc : s.merge.pc = .retry i) :
    s.merge.now s.merge.current + 1 < (s.lanes s.merge.current).buffer.size ↔
      s.merge.now s.merge.current + 102 ≤ supply p s := by
  have hbounded := bounded_reachable h
  simp only [Merge.Bounded, hpc] at hbounded
  obtain ⟨hi, hc, hnow⟩ := hbounded
  have hover := answered_reachable h hpc
  have hshake := handshake_reachable h _ hc
  obtain ⟨refills, hreach, hanswered⟩ := lane_watched h _ hc
  obtain ⟨r, rfl⟩ := hanswered hover
  -- the worker waits, so its buffer is not being refilled
  have hwaits : (s.lanes s.merge.current).pc = .waitOver ∨
      (s.lanes s.merge.current).pc = .checkNeed := by
    cases hlane : (s.lanes s.merge.current).pc with
    | waitOver => exact .inl rfl
    | checkNeed => exact .inr rfl
    | refill _ | iterOver =>
        have hneed := hshake.serving (by simp [hlane, Pc.serving])
        exact absurd (hneed.symm.trans hover) (by simp)
    | _ =>
        have hscan := hshake.outside (by simp [hlane, Pc.inside])
        exact absurd (hscan.symm.trans hover) (by simp)
  obtain ⟨r', hrefilled⟩ : ∃ r', Watched.Refilled p s.merge.current r'
      ⟨s.lanes s.merge.current, some (r + 1)⟩ := by
    have hinv := Watched.inv_reachable hreach
    rcases hwaits with hlane | hlane
    · simpa only [Watched.Inv, hlane] using hinv
    · simpa only [Watched.Inv, hlane] using hinv
  obtain rfl : r + 1 = r' := Option.some.inj hrefilled.refills
  have hscan : (s.lanes s.merge.current).request.scanSize = 100 := by
    obtain ⟨scan, hmem, heq⟩ := (requested_reachable hreach).request (by
      rcases hwaits with hlane | hlane <;> simp [hlane, Pc.handling])
    exact heq.trans (hsize scan hmem)
  have hlength : (s.lanes s.merge.current).buffer.size = _ := hrefilled.elements.size
  have hhundred : (100 : Int).toNat = 100 := rfl
  simp only [Watched.filled, Watched.scanSize, Watched.keys, hscan, hhundred, List.length_take,
    List.length_drop] at hlength
  have hlt := hnow s.merge.current
  unfold supply
  rw [hlength]
  omega

end Reachable

/-- A worker changes its request only when it takes the next one. -/
theorem Lane.Move.request {p : Program} {q : Nat} {l l' : Lane} (h : l.Move p q l')
    (hpc : l.pc ≠ .check) : l'.request = l.request := by
  cases h with
  | take hcheck => exact absurd hcheck hpc
  | _ => rfl

/-- Storing a flag changes no request. -/
theorem setStatus_request (lanes : Nat → Lane) (store : Option (Nat × ScanStatus)) (q : Nat) :
    (setStatus lanes store q).request = (lanes q).request := by
  obtain ⟨status, heq⟩ := setStatus_eq lanes store q
  rw [heq]

/-- The merge thread waits for keys, or is about to call `Next()` again. -/
def MergePc.Waits (pc : MergePc) : Prop :=
  (∃ i, pc = .waitIter i) ∨ ∃ i, pc = .retry i

/-- In a run in which every queue that is asked has enough keys, the queue still has them when the
answer comes. -/
theorem supplied_reachable {p : Program} (hsize : ∀ scan ∈ p.scans, scan.2 = 100) {s : State}
    (h : (system p).Reachable (Supplied p) s) :
    s.merge.pc ≠ .aborted ∧
      (s.merge.pc.Waits → s.merge.now s.merge.current + 102 ≤ supply p s) := by
  refine h.invariant (I := fun s => s.merge.pc ≠ .aborted ∧
    (s.merge.pc.Waits → s.merge.now s.merge.current + 102 ≤ supply p s)) ?_ ?_
  · show Merge.roundHead p 0 ≠ .aborted ∧ (MergePc.Waits (Merge.roundHead p 0) → _)
    unfold Merge.roundHead
    split_ifs <;> simp [MergePc.Waits]
  intro s a t hs hinv hallowed hstep
  obtain ⟨q, _, l, _, hq, hmove, rfl⟩ | ⟨_, m, store, rfl, hmove, rfl⟩ := step_cases hstep
  · refine ⟨hinv.1, fun hwaits => ?_⟩
    have hkeep : (Function.update s.lanes q l s.merge.current).request =
        (s.lanes s.merge.current).request := by
      by_cases heq : s.merge.current = q
      · subst heq
        rw [Function.update_self]
        refine hmove.request fun hcheck => ?_
        -- a worker that is asked has not noticed `SCAN_OVER`
        have hshake := handshake_reachable hs _ hq
        refine hshake.engaged ?_ (hshake.outside (by simp [hcheck, Pc.inside]))
        have hpc : s.merge.pc.Waits := hwaits
        obtain ⟨i, hpc⟩ | ⟨i, hpc⟩ := hpc
        · rw [hpc]; trivial
        · rw [hpc]; trivial
      · rw [Function.update_of_ne heq]
    have hold := hinv.2 hwaits
    unfold supply at hold ⊢
    show s.merge.now s.merge.current + 102 ≤ ((p.db s.merge.current).keysFrom
      (startKey (Function.update s.lanes q l s.merge.current).request)).length
    rw [hkeep]
    exact hold
  · unfold supply
    simp only [setStatus_request]
    cases hmove with
    | idle => exact hinv
    | need i hpc =>
        simp only [Supplied, hpc] at hallowed
        exact ⟨by simp, fun _ => hallowed⟩
    | served i hpc _ => exact ⟨by simp, fun _ => hinv.2 (.inl ⟨i, hpc⟩)⟩
    | abort i hpc hshort =>
        have hroom := (retry_iff hsize hs hpc).mpr (hinv.2 (.inr ⟨i, hpc⟩))
        exact absurd hroom (not_lt.mpr hshort)
    | roundOver =>
        unfold Merge.roundHead
        split_ifs <;> simp [MergePc.Waits]
    | _ => simp [MergePc.Waits, Merge.construct]

/-- The assertion behind a refill, with scans of size 100. In every reachable state in which the
merge thread is about to call `Next()` again, the call returns true exactly when the current queue
has at least 102 keys at or past its start key more than the merge has gone forward in it. In every
run in which each queue that is asked for keys has that many, the assertion never fails. -/
theorem refill_assertion {p : Program} (hsize : ∀ scan ∈ p.scans, scan.2 = 100) :
    (∀ {s : State} {i : Nat}, (system p).Reachable (fun _ _ => True) s → s.merge.pc = .retry i →
      (s.merge.now s.merge.current + 1 < (s.lanes s.merge.current).buffer.size ↔
        s.merge.now s.merge.current + 102 ≤ supply p s)) ∧
    ∀ {s : State}, (system p).Reachable (Supplied p) s → s.merge.pc ≠ .aborted :=
  ⟨fun h hpc => retry_iff hsize h hpc, fun h => (supplied_reachable hsize h).1⟩

/-- Over 200 keys, the worker fills its buffer, the merge thread asks for more keys, the worker
answers, and the merge thread advances to its second key. -/
def longRun : List Action :=
  constructRun ++ merges 2 ++ List.replicate 104 (.work 0 1) ++ merges 4

/-- Over 200 keys the assertion behind the first refill holds. -/
theorem refill_assertion_long :
    (∀ scan ∈ longScan.scans, scan.2 = 100) ∧
      ∃ s, (system longScan).Reachable (Supplied longScan) s ∧ s.merge.pc = .advance 2 ∧
        s.merge.pc ≠ .aborted := by
  have hsize : ∀ scan ∈ longScan.scans, scan.2 = 100 := by decide
  have hrun : ((system longScan).run longRun (system longScan).init).map (fun s => s.merge.pc) =
      some (.advance 2) := by
    decide +kernel
  obtain ⟨s, hs, hpc⟩ := Option.map_eq_some_iff.mp hrun
  have hreach : (system longScan).Reachable (Supplied longScan) s :=
    System.reachable_of_run (by decide +kernel) hs
  exact ⟨hsize, s, hreach, hpc, (refill_assertion hsize).2 hreach⟩

/-- One queue over the keys from 1 to 100, as many as the scan asks for. -/
def exactScan : Program where
  queueNum := 1
  readNum := 1
  scans := [(0, 100)]
  db := fun _ => ⟨(longScan.db 0).entries.take 100,
    (longScan.db 0).sorted.sublist (List.take_sublist _ _)⟩
  assertions := true
  queueNum_pos := Nat.one_pos

/-- The worker fills its buffer and stands on the last key. The merge thread asks for more keys,
the worker finds that there is none, and the merge thread calls `Next()` again. -/
def exactRun : List Action :=
  List.replicate 105 (.work 0 1) ++ merges 5 ++ List.replicate 4 (.work 0 1) ++ merges 2

/-- The instance has 100 keys, but the assertion behind the first refill fails. The worker calls
`Next` on valid iterators only. -/
theorem refill_assertion_fails :
    (∀ q < exactScan.queueNum,
      1 ≤ ((exactScan.db q).keysFrom (startKey (exactScan.slot 0))).length) ∧
    100 ≤ (exactScan.keysFrom (exactScan.slot 0)).length ∧ exactScan.assertions = true ∧
    ∃ s, (system exactScan).Reachable (fun _ _ => True) s ∧ s.merge.pc = .aborted := by
  have hkeys : 100 ≤ ((exactScan.db 0).keysFrom (startKey (exactScan.slot 0))).length := by
    decide +kernel
  have hunion := length_keysFrom_le exactScan (exactScan.slot 0) exactScan.queueNum_pos
  refine ⟨by decide +kernel, Nat.le_trans hkeys hunion, rfl, ?_⟩
  have hrun : ((system exactScan).run exactRun (system exactScan).init).map
      (fun s => s.merge.pc) = some .aborted := by
    decide +kernel
  obtain ⟨s, hs, hpc⟩ := Option.map_eq_some_iff.mp hrun
  have hreach : (system exactScan).Reachable (fun _ _ => True) s :=
    System.reachable_of_run (System.always_of_forall (fun _ _ => trivial) exactRun _) hs
  exact ⟨s, hreach, hpc⟩

end P2KVS.ScanTest
