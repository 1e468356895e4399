import P2KVS.ScanTest.Handshake

/-!
# The rounds of the parallel scan

Rounds are not numbered. A worker publishes `MERGE_START` only behind a valid `Seek`, but counts its
request as handled in any case. `rounds_agree` says that the buffers of round `n` were filled with
the results of the requests number `n` in every run in which each `Seek` finds a key;
`rounds_drift_apart` is a run in which one does not, and the first round merges the results of two
different requests.

What a buffer was filled with is not what it reads as: only the first slice of a fill refers to a
string that still exists (`stored`).
-/

namespace P2KVS.ScanTest

open Sorted Storage Transition

/-- The result of a request on queue `q`: the first `scan_size` keys at or past its start key. The
loop of the source stores the first key before it looks at `scan_size`. -/
def scanResult (p : Program) (q : Nat) (r : AsyncRequest) : List Slice :=
  ((p.db q).keysFrom (startKey r)).take (max 1 r.scanSize.toNat)

/-- The slices that a fill with these keys leaves in the buffer: the string of the first key still
exists, those of the others do not. -/
def stored : List Slice → List KeyRef
  | [] => []
  | k :: rest => ⟨k, true⟩ :: rest.map fun k => ⟨k, false⟩

/-- One more key behind the first. -/
theorem stored_append {keys : List Slice} (h : keys ≠ []) (k : Slice) :
    stored (keys ++ [k]) = stored keys ++ [⟨k, false⟩] := by
  cases keys with
  | nil => exact absurd rfl h
  | cons k' rest => simp [stored]

/-- The slices of a fill are made of its keys. -/
theorem map_key_stored (keys : List Slice) : (stored keys).map KeyRef.key = keys := by
  cases keys with
  | nil => rfl
  | cons k rest => simp [stored, Function.comp_def]

/-- A fill has a slice for every key. -/
@[simp] theorem length_stored (keys : List Slice) : (stored keys).length = keys.length := by
  rw [← List.length_map KeyRef.key, map_key_stored]

/-- The slice of a single key reads as that key. -/
theorem map_read_stored {keys : List Slice} (h : keys.length ≤ 1) (junk : Slice) :
    (stored keys).map (KeyRef.read junk) = keys := by
  match keys, h with
  | [], _ => rfl
  | [k], _ => rfl

/-- A worker that is about to call `Seek` has a key at or past the start key in its instance. -/
def SeekFinds (p : Program) (s : State) : Action → Prop
  | .work q _ => (s.lanes q).pc = .seek → (p.db q).keysFrom (startKey (s.lanes q).request) ≠ []
  | .merge _ => True

/-- Whether a `Seek` finds a key can be computed. -/
instance (p : Program) (s : State) : (a : Action) → Decidable (SeekFinds p s a)
  | .work q _ => inferInstanceAs (Decidable ((s.lanes q).pc = .seek →
      (p.db q).keysFrom (startKey (s.lanes q).request) ≠ []))
  | .merge _ => inferInstanceAs (Decidable True)

/-- The worker has copied the request number `seq`. -/
def Pc.handling : Pc → Bool
  | .poll | .check | .exited => false
  | _ => true

/-- The worker has published its buffer for the request number `seq`. -/
def Pc.served : Pc → Bool
  | .waitOver | .checkNeed | .refill _ | .iterOver | .clear | .advance => true
  | _ => false

/-- How far the worker has filled its buffer: behind `first` it holds slices of the keys up to the
one under the iterator, and at `publish` of the whole result. -/
def Lane.Filling (p : Program) (q : Nat) (l : Lane) : Prop :=
  match l.pc with
  | .first => Iterator.valid l.iter = true ∧ l.iter.ahead = (p.db q).keysFrom (startKey l.request)
  | .fill i size => i = size ∧ 1 ≤ size ∧ size ≤ max 1 l.request.scanSize.toNat ∧
      ∃ taken, taken.length = size ∧ l.buffer.Holds (stored taken) ∧
        (p.db q).keysFrom (startKey l.request) = taken ++ (Iterator.next l.iter).ahead
  | .publish => l.buffer.Holds (stored (scanResult p q l.request))
  | _ => True

/-- Lane `q` handles its requests one after the other, publishes each once, and shows the result of
the current one. -/
structure Loaded (p : Program) (q : Nat) (l : Lane) : Prop where
  count : l.published = l.seq + if l.pc.served then 1 else 0
  request : l.pc.handling = true → l.request = p.slot l.seq
  filling : l.Filling p q
  shown : l.status = .mergeStart → l.buffer.Holds (stored (scanResult p q l.request))

namespace Loaded

variable {p : Program} {m : Merge} {q : Nat} {l : Lane}

/-- A worker step that stays with its request and publishes nothing. -/
theorem frame (h : Loaded p q l) {l' : Lane} (hpublished : l'.published = l.published)
    (hseq : l'.seq = l.seq) (hrequest : l'.request = l.request)
    (hserved : l'.pc.served = l.pc.served)
    (hhandling : l'.pc.handling = true → l.pc.handling = true) (hfilling : l'.Filling p q)
    (hshown : l'.status = .mergeStart → l'.buffer = l.buffer ∧ l.status = .mergeStart) :
    Loaded p q l' where
  count := by rw [hpublished, hseq, hserved, h.count]
  request := fun hpc => by rw [hrequest, hseq, h.request (hhandling hpc)]
  filling := hfilling
  shown := fun hstatus => by
    obtain ⟨hbuffer, hold⟩ := hshown hstatus
    rw [hbuffer, hrequest]
    exact h.shown hold

/-- Behind the first key the buffer holds one slice. -/
theorem filling_first (h : Loaded p q l) (hpc : l.pc = .first) {buffer : Vec KeyRef}
    (hstore : l.buffer.store 0 ⟨Iterator.key l.iter, true⟩ = some buffer) :
    ({ l with buffer := buffer, pc := .fill 1 1 } : Lane).Filling p q := by
  have hfilling := h.filling
  simp only [Lane.Filling, hpc] at hfilling
  obtain ⟨hvalid, hahead⟩ := hfilling
  rw [ahead_of_valid hvalid] at hahead
  have hempty : l.buffer.Holds [] := List.nil_prefix
  exact ⟨rfl, Nat.le_refl 1, Nat.le_max_left 1 _, [Iterator.key l.iter], rfl, hempty.store hstore,
    hahead.symm⟩

/-- The slice of each further key is stored behind those the buffer holds. -/
theorem filling_fill (h : Loaded p q l) {i size : Nat} (hpc : l.pc = .fill i size)
    (hi : (i : Int) < l.request.scanSize) (hvalid : Iterator.valid (Iterator.next l.iter) = true)
    {buffer : Vec KeyRef}
    (hstore : l.buffer.store size ⟨Iterator.key (Iterator.next l.iter), false⟩ = some buffer) :
    ({ l with
      iter := Iterator.next l.iter
      buffer := buffer
      pc := .fill (i + 1) (size + 1) } : Lane).Filling p q := by
  have hfilling := h.filling
  simp only [Lane.Filling, hpc] at hfilling
  obtain ⟨rfl, hone, _, taken, rfl, hholds, hkeys⟩ := hfilling
  rw [ahead_of_valid hvalid] at hkeys
  have hnew : buffer.Holds (stored (taken ++ [Iterator.key (Iterator.next l.iter)])) := by
    rw [stored_append (List.ne_nil_of_length_pos hone)]
    exact hholds.store (by rwa [length_stored])
  refine ⟨rfl, show 1 ≤ taken.length + 1 by omega,
    show taken.length + 1 ≤ max 1 l.request.scanSize.toNat by omega,
    taken ++ [Iterator.key (Iterator.next l.iter)], List.length_append, hnew, ?_⟩
  rw [List.append_assoc, List.singleton_append]
  exact hkeys

/-- When the loop ends, the buffer holds slices of the result. -/
theorem filling_filled (h : Loaded p q l) {i size : Nat} {iter : Cursor Slice Slice}
    (hpc : l.pc = .fill i size) (hend : l.Exhausts i iter) :
    l.buffer.Holds (stored (scanResult p q l.request)) := by
  have hfilling := h.filling
  simp only [Lane.Filling, hpc] at hfilling
  obtain ⟨rfl, hone, hle, taken, rfl, hholds, hkeys⟩ := hfilling
  have hresult : scanResult p q l.request = taken := by
    rw [scanResult, hkeys]
    obtain ⟨_, hinvalid, _⟩ | ⟨hge, _⟩ := hend
    · -- the instance has no further key
      rw [Cursor.ahead_of_not_valid hinvalid, List.append_nil, List.take_of_length_le hle]
    · -- the loop has stored as many keys as the result has
      rw [show max 1 l.request.scanSize.toNat = taken.length by omega, List.take_left]
  rw [hresult]
  exact hholds

/-- Every step of the worker keeps its lane loaded, if `Seek` finds a key. -/
theorem work (h : Loaded p q l) (hshake : Handshake m q l)
    (hseek : l.pc = .seek → (p.db q).keysFrom (startKey l.request) ≠ []) {l' : Lane}
    (hmove : l.Move p q l') : Loaded p q l' := by
  -- outside of the handshake the flag is `SCAN_OVER`, so there is nothing to show
  have hover : l.pc.inside = false → l.status ≠ .mergeStart :=
    fun hout => by simp [hshake.outside hout]
  cases hmove with
  | poll t pc hpc hnext =>
      obtain rfl | rfl := hnext
      · exact h.frame rfl rfl rfl (by simp [hpc]) (by simp [Pc.handling]) trivial
          fun hs => ⟨rfl, hs⟩
      · exact h.frame rfl rfl rfl (by simp [hpc, Pc.served]) (by simp [Pc.handling]) trivial
          fun hs => ⟨rfl, hs⟩
  | finish hpc _ =>
      exact h.frame rfl rfl rfl (by simp [hpc, Pc.served]) (by simp [Pc.handling]) trivial
        fun hs => ⟨rfl, hs⟩
  | take hpc _ =>
      have hcount := h.count
      simp only [hpc, Pc.served] at hcount
      exact ⟨hcount, fun _ => rfl, trivial, fun hs => absurd hs (hover (by simp [hpc, Pc.inside]))⟩
  | seek iter hpc hiter =>
      have hahead : iter.ahead = (p.db q).keysFrom (startKey l.request) := by
        rw [hiter]
        exact Cursor.ahead_seek (Cursor.start (p.db q)) (startKey l.request)
      have hvalid : Iterator.valid iter = true := by
        by_contra hinvalid
        exact hseek hpc (hahead ▸ Cursor.ahead_of_not_valid (Bool.eq_false_of_not_eq_true hinvalid))
      rw [if_pos hvalid]
      exact h.frame rfl rfl rfl (by simp [hpc, Pc.served]) (by simp [hpc, Pc.handling])
        ⟨hvalid, hahead⟩ fun hs => ⟨rfl, hs⟩
  | first buffer hpc hstore =>
      exact h.frame rfl rfl rfl (by simp [hpc, Pc.served]) (by simp [hpc, Pc.handling])
        (h.filling_first hpc hstore) fun hs => absurd hs (hover (by simp [hpc, Pc.inside]))
  | fill i size buffer hpc hi hvalid hstore =>
      exact h.frame rfl rfl rfl (by simp [hpc, Pc.served]) (by simp [hpc, Pc.handling])
        (h.filling_fill hpc hi hvalid hstore) fun hs => absurd hs (hover (by simp [hpc, Pc.inside]))
  | filled i size iter hpc hend =>
      exact h.frame rfl rfl rfl (by simp [hpc, Pc.served]) (by simp [hpc, Pc.handling])
        (h.filling_filled hpc hend) fun hs => ⟨rfl, hs⟩
  | publish hpc =>
      have hcount := h.count
      have hholds := h.filling
      simp only [hpc, Pc.served, Lane.Filling] at hcount hholds
      exact ⟨congrArg (· + 1) hcount, fun _ => h.request (by simp [hpc, Pc.handling]), trivial,
        fun _ => hholds⟩
  | released hpc _ | notOver hpc _ | needed hpc _ | notNeeded hpc _ | refilled _ _ hpc _ =>
      exact h.frame rfl rfl rfl (by simp [hpc, Pc.served]) (by simp [hpc, Pc.handling]) trivial
        fun hs => ⟨rfl, hs⟩
  | refill i hpc _ _ =>
      -- the buffer changes, but the flag is `NEED_ITER`
      have hneed := hshake.serving (by simp [hpc, Pc.serving])
      exact h.frame rfl rfl rfl (by simp [hpc, Pc.served]) (by simp [hpc, Pc.handling]) trivial
        fun hs => absurd (hneed.symm.trans hs) (by simp)
  | iterOver hpc =>
      exact h.frame rfl rfl rfl (by simp [hpc, Pc.served]) (by simp [hpc, Pc.handling]) trivial
        fun hs => absurd hs (by simp)
  | clear hpc =>
      exact h.frame rfl rfl rfl (by simp [hpc, Pc.served]) (by simp [hpc, Pc.handling]) trivial
        fun hs => absurd hs (hover (by simp [hpc, Pc.inside]))
  | advance hpc =>
      have hcount := h.count
      simp only [hpc, Pc.served, if_true] at hcount
      exact ⟨hcount, by simp [Pc.handling], trivial,
        fun hs => absurd hs (hover (by simp [hpc, Pc.inside]))⟩

end Loaded

/-- Every lane is loaded in every run in which each `Seek` finds a key. -/
theorem loaded_reachable {p : Program} {s : State} (h : (system p).Reachable (SeekFinds p) s) :
    ∀ q < p.queueNum, Loaded p q (s.lanes q) := by
  refine lanes_reachable ?_ ?_ ?_ h
  · intro q
    exact ⟨rfl, by simp [Lane.start, Pc.handling], trivial, by simp [Lane.start]⟩
  · intro s q tail l hallowed hshake hloaded hmove
    exact hloaded.work hshake hallowed hmove
  · intro q l status hne hloaded
    exact ⟨hloaded.count, hloaded.request, hloaded.filling, fun hs => absurd hs hne.1⟩

/-- Round agreement. In every run in which each `Seek` finds a key, whenever the merge thread
constructs the iterator of round `n`, worker `q` is at its request number `n`, and the slices in
`scans[q]` were made of the keys of the result of that request, for every queue `q`. The first one
reads as its key. The others dangle, so the buffer reads as the result, whatever stands in the
memory, when the result has no second key. -/
theorem rounds_agree {p : Program} {s : State} (h : (system p).Reachable (SeekFinds p) s)
    (hpc : s.merge.pc = .find 0 none none) {q : Nat} (hq : q < p.queueNum) :
    let result := scanResult p q (p.slot s.merge.seq)
    (s.lanes q).seq = s.merge.seq ∧ (s.lanes q).request = p.slot s.merge.seq ∧
      (s.lanes q).buffer.Holds (stored result) ∧
      ((s.lanes q).buffer.map KeyRef.key).Holds result ∧
      (result.length ≤ 1 → ∀ junk, ((s.lanes q).buffer.map (KeyRef.read junk)).Holds result) := by
  intro result
  have hshake := handshake_reachable h q hq
  have hloaded := loaded_reachable h q hq
  have hstatus := constructing_shown h hpc hq
  -- a queue that shows `MERGE_START` has published once more than it was released
  have hinside : (s.lanes q).pc.inside = true := by
    by_contra hout
    have hover := hshake.outside (Bool.eq_false_of_not_eq_true hout)
    exact absurd (hover.symm.trans hstatus) (by simp)
  have hserved : (s.lanes q).pc.served = true ∧ (s.lanes q).pc.handling = true := by
    cases hlane : (s.lanes q).pc with
    | waitOver | checkNeed | refill _ | iterOver => exact ⟨rfl, rfl⟩
    | _ => simp [hlane, Pc.inside] at hinside
  have hseq : (s.lanes q).seq = s.merge.seq := by
    have hpublished := hshake.count
    have hhandled := hloaded.count
    simp only [Merge.released, hpc, hstatus, reduceCtorEq, if_false] at hpublished
    rw [if_pos hserved.1] at hhandled
    omega
  have hrequest : (s.lanes q).request = p.slot s.merge.seq := hseq ▸ hloaded.request hserved.2
  have hholds : (s.lanes q).buffer.Holds (stored result) := by
    have hshown := hloaded.shown hstatus
    rwa [hrequest] at hshown
  refine ⟨hseq, hrequest, hholds, ?_, fun hone junk => ?_⟩
  · simpa only [map_key_stored] using hholds.map KeyRef.key
  · simpa only [map_read_stored hone] using hholds.map (KeyRef.read junk)

/-- Two queues, with key 6 in the first instance and key 1 in the second one. -/
def twoQueues (scans : List (Int × Int)) : Program where
  queueNum := 2
  readNum := 2
  scans := scans
  db := fun q =>
    ⟨[(generateKeyFromInt 28 (if q = 0 then 6 else 1), [])], List.pairwise_singleton _ _⟩
  assertions := true
  queueNum_pos := Nat.two_pos

/-- Two queues over three keys each, the even and the odd ones, and two scans of two keys. -/
def evenOdd : Program where
  queueNum := 2
  readNum := 2
  scans := [(2, 2), (0, 2)]
  db := fun q =>
    if q = 0 then ⟨[0, 2, 4].map fun k => (generateKeyFromInt 28 k, []), by decide⟩
    else ⟨[1, 3, 5].map fun k => (generateKeyFromInt 28 k, []), by decide⟩
  assertions := true
  queueNum_pos := Nat.two_pos

/-- Both workers publish the result of their first request, the second worker first. -/
def agreeRun : List Action :=
  List.replicate 7 (.work 1 2) ++ List.replicate 7 (.work 0 2) ++ merges 2

/-- Both buffers of that run were filled from the key 2 on. Seen through the memory, the second
slice of each is junk. -/
theorem rounds_agree_two_queues :
    let s := (system evenOdd).after agreeRun
    let keys := fun q => ([2, 4].map fun k => generateKeyFromInt 28 (k + q) : List Slice)
    s.merge.pc = .find 0 none none ∧ (s.lanes 0).seq = s.merge.seq ∧
      (s.lanes 1).seq = s.merge.seq ∧ ((s.lanes 0).buffer.map KeyRef.key).Holds (keys 0) ∧
      ((s.lanes 1).buffer.map KeyRef.key).Holds (keys 1) ∧
      ((s.lanes 1).buffer.map (KeyRef.read [9])).Holds [generateKeyFromInt 28 3, [9]] := by
  intro s keys
  have hreach : (system evenOdd).Reachable (SeekFinds evenOdd) s :=
    System.reachable_after (by decide) (by decide)
  have hpc : s.merge.pc = .find 0 none none := by decide
  obtain ⟨hseq, _, _, hmade, _⟩ := rounds_agree hreach hpc (show 0 < 2 by decide)
  obtain ⟨hseq', _, hstored, hmade', _⟩ := rounds_agree hreach hpc (show 1 < 2 by decide)
  have hresult : scanResult evenOdd 0 (evenOdd.slot s.merge.seq) = keys 0 := by decide
  have hresult' : scanResult evenOdd 1 (evenOdd.slot s.merge.seq) = keys 1 := by decide
  exact ⟨hpc, hseq, hseq', hresult ▸ hmade, hresult' ▸ hmade',
    (hresult' ▸ hstored).map (KeyRef.read [9])⟩

/-- The second worker finds no key for its first request, 5, and publishes the result of its second
one. -/
def driftRun : List Action :=
  List.replicate 6 (.work 0 2) ++ List.replicate 10 (.work 1 2) ++ merges 2

/-- The first round begins over the result of the first request of queue 0 and the result of the
second request of queue 1. -/
theorem rounds_drift_apart :
    let p := twoQueues [(5, 1), (0, 1)]
    let s := (system p).after driftRun
    (system p).Reachable (fun _ _ => True) s ∧ s.merge.pc = .find 0 none none ∧ s.merge.seq = 0 ∧
      (s.lanes 0).seq = 0 ∧ (s.lanes 1).seq = 1 ∧ scanResult p 1 (p.slot 0) = [] ∧
      scanResult p 1 (p.slot 1) = [generateKeyFromInt 28 1] ∧
      (s.lanes 1).buffer.Holds (stored (scanResult p 1 (p.slot 1))) := by
  intro p s
  exact ⟨System.reachable_after (by decide) (by decide), by decide, by decide, by decide, by decide,
    by decide, by decide, by decide⟩

end P2KVS.ScanTest
