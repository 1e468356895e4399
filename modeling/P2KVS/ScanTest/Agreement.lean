import Mathlib.Data.List.Perm.Subperm
import P2KVS.Merge.Refinement
import P2KVS.ScanTest.Handshake

/-!
# The parallel scan against the plain one

Without `MULTITHREAD_SCAN` the program scans with one `MergingIterator` over all instances;
`plainScan` is what that loop visits. The parallel scan is meant to stand on the same keys. A worker
fills its buffer through `operator[]`, so the buffer has storage for the keys but its size stays 0.
`key()` reads with `at`, which checks the size: it throws right behind the construction, for every
data and every interleaving, whatever the slices in the buffers read as.
`parallel_scan_never_agrees` says that the two scans never agree, and `parallel_scan_throws` is a
run up to the first `key()`.
-/

namespace P2KVS.ScanTest

open Sorted Storage Transition

/-- The keys that the single-threaded branch stands on: `Seek` to the start key, and at most
`scan_size` times `Next`. -/
def plainScan (p : Program) (r : AsyncRequest) : List Slice :=
  Iterator.visit r.scanSize.toNat
    (Iterator.seek
      (MergingIterator.new bytewiseComparator fun q : Fin p.queueNum => Cursor.start (p.db q))
      (startKey r))

/-- The keys at or past the start key of a scan in all instances. -/
def Program.keysFrom (p : Program) (r : AsyncRequest) : List Slice :=
  (SortedMap.union fun q : Fin p.queueNum => p.db q).keysFrom (startKey r)

/-- The instances have no key in common. -/
def Program.Disjoint (p : Program) : Prop :=
  SortedMap.Disjoint fun q : Fin p.queueNum => p.db q

/-- The plain scan visits the first `scan_size` keys of all instances at or past the start key. -/
theorem plainScan_eq {p : Program} (hdisjoint : p.Disjoint) (r : AsyncRequest) :
    plainScan p r = (p.keysFrom r).take r.scanSize.toNat :=
  MergingIterator.visit_seek bytewiseComparator hdisjoint (startKey r) r.scanSize.toNat

/-- The buffer of a lane has size 0, except while its worker answers the merge thread and until it
has cleared the buffer; the flag is not `MERGE_START` then. -/
def Lane.Unsized (l : Lane) : Prop :=
  l.buffer.size = 0 ∨ (l.pc.inside = true ∨ l.pc = .clear) ∧ l.status ≠ .mergeStart

namespace Lane.Unsized

variable {p : Program} {m : Merge} {q : Nat} {l : Lane}

/-- The buffer has size 0 while it is filled. -/
theorem outside (h : l.Unsized) (hpc : l.pc.inside = false) (hclear : l.pc ≠ .clear) :
    l.buffer.size = 0 := by
  obtain hsize | ⟨hinside | hpc', _⟩ := h
  · exact hsize
  · exact absurd (hpc.symm.trans hinside) (by simp)
  · exact absurd hpc' hclear

/-- A worker step that touches neither the flag nor the buffer. -/
theorem frame (h : l.Unsized) {l' : Lane} (hbuffer : l'.buffer = l.buffer)
    (hstatus : l'.status = l.status) (hpc : l'.pc.inside = true ∨ l'.pc = .clear) : l'.Unsized :=
  h.imp (fun hsize => hbuffer ▸ hsize) fun hold => ⟨hpc, hstatus ▸ hold.2⟩

/-- Every step of the worker keeps the size. -/
theorem work (h : l.Unsized) (hshake : Handshake m q l) {l' : Lane} (hmove : l.Move p q l') :
    l'.Unsized := by
  cases hmove with
  | poll _ _ hpc _ | finish hpc _ | take hpc _ | seek _ hpc _ | filled _ _ _ hpc _ | publish hpc
  | advance hpc =>
      exact .inl (h.outside (by simp [hpc, Pc.inside]) (by simp [hpc]))
  | first _ hpc hstore | fill _ _ _ hpc _ _ hstore =>
      have hsize := h.outside (by simp [hpc, Pc.inside]) (by simp [hpc])
      exact .inl ((Vec.size_store hstore).trans hsize)
  | released => exact h.frame rfl rfl (.inr rfl)
  | notOver | needed | notNeeded | refilled => exact h.frame rfl rfl (.inl rfl)
  | refill _ hpc _ _ =>
      have hneed := hshake.serving (by simp [hpc, Pc.serving])
      exact .inr ⟨.inl rfl, by simp [hneed]⟩
  | iterOver => exact .inr ⟨.inl rfl, by simp⟩
  | clear => exact .inl rfl

end Lane.Unsized

/-- No buffer has a size while it is filled or shown. -/
theorem unsized_reachable {p : Program} {allowed : State → Action → Prop} {s : State}
    (h : (system p).Reachable allowed s) : ∀ q < p.queueNum, (s.lanes q).Unsized := by
  refine lanes_reachable (P := fun _ l => l.Unsized) (fun _ => .inl rfl) ?_ ?_ h
  · intro s q tail l _ hshake hunsized hmove
    exact hunsized.work hshake hmove
  · intro q l status hne hunsized
    exact hunsized.imp id fun hold => ⟨hold.1, hne.1⟩

/-- The first `key()` of the round has thrown, and `smallest` is a queue. -/
structure Thrown (p : Program) (m : Merge) : Prop where
  head : ∀ k ∈ m.stood.head?, k = none
  begun : m.pc.Asking 0 → m.stood ≠ []
  best : ∀ {i : Nat} {best : Nat × KeyRef} {caller : Option Nat},
    m.pc = .find i (some best) caller → best.1 < p.queueNum

namespace Thrown

variable {p : Program} {m : Merge}

/-- A step that neither stands on a key nor is in `FindSmallest`. -/
theorem frame (h : Thrown p m) {m' : Merge} (hstood : m'.stood = m.stood)
    (hasking : m'.pc.Asking 0 → m.pc.Asking 0)
    (hfind : ∀ {i : Nat} {best : Nat × KeyRef} {caller : Option Nat},
      m'.pc ≠ .find i (some best) caller) :
    Thrown p m' where
  head := hstood ▸ h.head
  begun := fun hnew => hstood ▸ h.begun (hasking hnew)
  best := fun hpc => absurd hpc hfind

/-- Every step of the merge thread keeps it, if the buffers have no size during the construction. -/
theorem move (h : Thrown p m) {status : Nat → ScanStatus} {buffer : Nat → Vec KeyRef} {m' : Merge}
    {store : Option (Nat × ScanStatus)}
    (hsize : ∀ {i : Nat} {best : Option (Nat × KeyRef)}, m.pc = .find i best none →
      ∀ q < p.queueNum, (buffer q).size = 0)
    (hmove : m.Move p status buffer m' store) : Thrown p m' := by
  cases hmove with
  | idle => exact h
  | started => exact h.frame rfl False.elim (by simp)
  | construct => exact ⟨by simp [Merge.construct], False.elim, by simp [Merge.construct]⟩
  | read i best caller key _ hpc hi _ =>
      refine ⟨h.head, fun hasking => h.begun ?_, ?_⟩
      · rw [hpc]
        cases caller with
        | none => exact hasking
        | some => trivial
      · intro i' best' caller' hnew
        cases hnew
        exact Merge.improve_lt hi (fun _ hb => h.best (hb ▸ hpc)) key
  | found i best caller _ hpc _ =>
      refine ⟨?_, fun _ => by simp, by simp⟩
      cases hstood : m.stood with
      | cons k rest =>
          intro k' hk'
          exact h.head k' (by simpa [hstood] using hk')
      | nil =>
          -- nothing has been stood on before, so the caller is the constructor
          cases caller with
          | some => exact absurd hstood (h.begun (by rw [hpc]; trivial))
          | none =>
              have hzero := hsize hpc best.1 (h.best hpc)
              simp [Vec.at?, hzero]
  | next i hpc _ =>
      refine h.frame rfl (fun _ => ?_) (by simp)
      obtain hpc | hpc := hpc
      · rw [hpc]; trivial
      · rw [hpc]; trivial
  | short _ hpc _ | finished _ hpc _ | need _ hpc | served _ hpc _ | abort _ hpc _ =>
      exact h.frame rfl (fun _ => by rw [hpc]; trivial) (by simp)
  | release i =>
      exact h.frame rfl (fun hasking => absurd hasking (Nat.not_succ_le_zero i)) (by simp)
  | roundOver =>
      unfold Merge.roundHead
      split_ifs
      · exact h.frame rfl False.elim (by simp)
      · exact h.frame rfl False.elim (by simp)

end Thrown

/-- The first `key()` of a round has thrown in every reachable state. -/
theorem thrown_reachable {p : Program} {allowed : State → Action → Prop} {s : State}
    (h : (system p).Reachable allowed s) : Thrown p s.merge := by
  refine h.invariant (I := fun s => Thrown p s.merge) ?_ ?_
  · refine ⟨by simp [system, Merge.start], ?_, ?_⟩
    · simp only [system, Merge.start, Merge.roundHead]
      split_ifs <;> exact False.elim
    · simp only [system, Merge.start, Merge.roundHead]
      split_ifs <;> simp
  intro s a t hs hinv _ hstep
  obtain ⟨q, _, l, _, _, _, rfl⟩ | ⟨_, m, store, _, hmove, rfl⟩ := step_cases hstep
  · exact hinv
  · refine hinv.move ?_ hmove
    intro i best hpc q hq
    have hshown := constructing_shown hs hpc hq
    exact (unsized_reachable hs q hq).resolve_right fun hnot => hnot.2 hshown

/-- Every instance contributes its keys to those at or past the start key. -/
theorem length_keysFrom_le (p : Program) (r : AsyncRequest) {q : Nat} (hq : q < p.queueNum) :
    ((p.db q).keysFrom (startKey r)).length ≤ (p.keysFrom r).length := by
  refine (List.Nodup.subperm ((p.db q).keys_nodup.filter _) ?_).length_le
  intro k hk
  obtain ⟨hkey, hle⟩ := List.mem_filter.mp hk
  exact List.mem_filter.mpr ⟨(SortedMap.mem_keys_union _ k).mpr ⟨⟨q, hq⟩, hkey⟩, hle⟩

/-- The parallel scan never agrees with the plain one. For every program whose instances have
disjoint keys, and every scan of size 100 with at least 100 keys at or past its start key, the plain
scan visits 100 keys; but in every state that some interleaving reaches, `key()` has thrown right
behind the construction of the round's `vector_merge_iter`, if there was one, and what the iterator
has stood on is not what the plain scan visits. -/
theorem parallel_scan_never_agrees {p : Program} (hdisjoint : p.Disjoint) {r : AsyncRequest}
    (hsize : r.scanSize = 100) (hkeys : 100 ≤ (p.keysFrom r).length) :
    (plainScan p r).length = 100 ∧
      ∀ {s : State}, (system p).Reachable (fun _ _ => True) s →
        (∀ k ∈ s.merge.stood.head?, k = none) ∧ s.merge.stood ≠ (plainScan p r).map some := by
  have hlength : (plainScan p r).length = 100 := by
    rw [plainScan_eq hdisjoint, hsize, List.length_take]
    exact Nat.min_eq_left hkeys
  refine ⟨hlength, ?_⟩
  intro s h
  have hhead := (thrown_reachable h).head
  refine ⟨hhead, ?_⟩
  intro heq
  cases hplain : plainScan p r with
  | nil => simp [hplain] at hlength
  | cons k rest =>
      rw [heq, hplain] at hhead
      exact absurd (hhead (some k) rfl) (by simp)

/-- The keys of one byte from 1 to 200 are sorted. -/
theorem byteKeys_sorted :
    ((List.range 200).map fun i : Nat => (([Fin.ofNat 256 (i + 1)] : Slice), ([] : Slice))).Pairwise
      fun a b => a.1 < b.1 := by
  rw [List.pairwise_map]
  refine List.pairwise_lt_range.imp_of_mem ?_
  intro i j hi hj hlt
  rw [List.mem_range] at hi hj
  refine List.cons_lt_cons_iff.mpr (.inl ?_)
  rw [Fin.lt_def]
  simp only [Fin.ofNat]
  omega

/-- One queue over the keys from 1 to 200, and one scan of size 100. -/
def longScan : Program where
  queueNum := 1
  readNum := 1
  scans := [(0, 100)]
  db := fun _ => ⟨_, byteKeys_sorted⟩
  assertions := true
  queueNum_pos := Nat.one_pos

/-- The worker fills its buffer, and the merge thread constructs its iterator. -/
def constructRun : List Action :=
  List.replicate 105 (.work 0 1) ++ merges 3

/-- Behind the construction the buffer has no size, and `key()` has thrown. -/
theorem constructRun_ends :
    ∃ s, (system longScan).Reachable (fun _ _ => True) s ∧ s.merge.pc = .advance 1 ∧
      s.merge.stood = [none] ∧ (s.lanes 0).buffer.size = 0 := by
  have hrun : ((system longScan).run constructRun (system longScan).init).map
      (fun s => (s.merge.pc, s.merge.stood, (s.lanes 0).buffer.size)) =
        some (.advance 1, [none], 0) := by
    decide +kernel
  obtain ⟨s, hs, hend⟩ := Option.map_eq_some_iff.mp hrun
  simp only [Prod.mk.injEq] at hend
  have hreach : (system longScan).Reachable (fun _ _ => True) s :=
    System.reachable_of_run (System.always_of_forall (fun _ _ => trivial) constructRun _) hs
  exact ⟨s, hreach, hend⟩

/-- The state behind that construction does not agree with the plain scan, which visits 100 keys. -/
theorem parallel_scan_never_agrees_long :
    longScan.Disjoint ∧ (plainScan longScan (longScan.slot 0)).length = 100 ∧
      ∃ s, (system longScan).Reachable (fun _ _ => True) s ∧ s.merge.pc = .advance 1 ∧
        s.merge.stood ≠ (plainScan longScan (longScan.slot 0)).map some := by
  have hdisjoint : longScan.Disjoint := fun (i j : Fin 1) hij => absurd (Subsingleton.elim i j) hij
  have hkeys : 100 ≤ ((longScan.db 0).keysFrom (startKey (longScan.slot 0))).length := by
    decide +kernel
  have hle := length_keysFrom_le longScan (longScan.slot 0) longScan.queueNum_pos
  have hunion := Nat.le_trans hkeys hle
  obtain ⟨hlength, hnever⟩ := parallel_scan_never_agrees hdisjoint rfl hunion
  obtain ⟨s, hreach, hpc, _⟩ := constructRun_ends
  exact ⟨hdisjoint, hlength, s, hreach, hpc, (hnever hreach).2⟩

/-- The first key of the plain scan is 1; the parallel scan over the same keys has no first key,
because the buffer it has filled with 100 keys has size 0. -/
theorem parallel_scan_throws :
    (∃ s, (system longScan).Reachable (fun _ _ => True) s ∧ s.merge.pc = .advance 1 ∧
        s.merge.stood = [none] ∧ (s.lanes 0).buffer.size = 0) ∧
      (plainScan longScan (longScan.slot 0)).take 1 = [[1]] :=
  ⟨constructRun_ends, by decide +kernel⟩

end P2KVS.ScanTest
