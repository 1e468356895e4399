import P2KVS.Foundation.Merging
import P2KVS.ScanTest.System

/-!
# The class `vector_merge_iter`

`vector_merge_iter` merges the buffers `scans[]` while they grow. `Feed` is any choice of sorted key
sequences of which the buffers hold the beginnings, and `Feed.schedule` lets `Next()` and the
growth of the buffers happen in any order. In every reachable state the keys given so far are the
beginning of the merge of the whole sequences (`vector_merge_iter_merges`), so the windows do not
matter. The buffers of this module hold the bytes that the slices read as. `Merge.steps_next`
connects the class with the merge thread, which reads one buffer a step, while those bytes stay the
same.
-/

namespace P2KVS.ScanTest

open Merging Sorted Storage Transition

/-- The fields of `vector_merge_iter`. -/
structure VectorMergeIter where
  now : Nat → Nat
  current : Nat

namespace VectorMergeIter

/-- `smallest` and `smallest_key` of `FindSmallest()` behind the first `n` buffers. There is no
result if an access is out of range. -/
def smallest (scans : Nat → Vec Slice) (now : Nat → Nat) : Nat → Option (Option (Nat × Slice))
  | 0 => some none
  | i + 1 => do
      let best ← smallest scans now i
      let key ← (scans i).get (now i)
      return some (Merge.improve (fun _ => id) best i key)

/-- `FindSmallest()`. -/
def findSmallest (queueNum : Nat) (scans : Nat → Vec Slice) (it : VectorMergeIter) :
    Option VectorMergeIter :=
  (smallest scans it.now queueNum).join.map fun best => { it with current := best.1 }

/-- The constructor. -/
def new (queueNum : Nat) (scans : Nat → Vec Slice) : Option VectorMergeIter :=
  findSmallest queueNum scans ⟨fun _ => 0, 0⟩

/-- `Next()`: what it returns and the new fields. -/
def next (queueNum : Nat) (scans : Nat → Vec Slice) (it : VectorMergeIter) :
    Option (Bool × VectorMergeIter) :=
  if (scans it.current).size ≤ it.now it.current + 1 then some (false, it)
  else
    (findSmallest queueNum scans
      { it with now := Function.update it.now it.current (it.now it.current + 1) }).map (true, ·)

/-- `key()`. -/
def key (scans : Nat → Vec Slice) (it : VectorMergeIter) : Option Slice :=
  (scans it.current).at? (it.now it.current)

end VectorMergeIter

/-- One iteration of `FindSmallest()` keeps the first of the smallest keys. -/
theorem Merge.improve_eq (best : Nat × Slice) (i : Nat) (key : Slice) :
    improve (fun _ => id) (some best) i key = if key < best.2 then (i, key) else best := by
  obtain ⟨smallest, smallestKey⟩ := best
  simp only [improve, id, bytewiseComparator.lt_iff]

/-- `FindSmallest()` over buffers that can all be read finds the first of the smallest keys. -/
theorem VectorMergeIter.smallest_spec {scans : Nat → Vec Slice} {now : Nat → Nat} {n : Nat}
    (hread : ∀ i < n, ∃ x, (scans i).get (now i) = some x) (hn : 0 < n) :
    ∃ c < n, ∃ x, smallest scans now n = some (some (c, x)) ∧ (scans c).get (now c) = some x ∧
      ∀ i < n, ∀ y, (scans i).get (now i) = some y → x ≤ y ∧ (i < c → x < y) := by
  induction n with
  | zero => exact absurd hn (Nat.lt_irrefl 0)
  | succ n ih =>
      obtain ⟨z, hz⟩ := hread n (Nat.lt_succ_self n)
      have hsame : ∀ y, (scans n).get (now n) = some y → z = y := fun y hy =>
        Option.some.inj (hz.symm.trans hy)
      rcases Nat.eq_zero_or_pos n with rfl | hpos
      · refine ⟨0, Nat.one_pos, z, by simp [smallest, hz, Merge.improve], hz, ?_⟩
        intro i hi y hy
        obtain rfl : i = 0 := by omega
        exact ⟨le_of_eq (hsame y hy), fun h => absurd h (Nat.lt_irrefl 0)⟩
      · obtain ⟨c, hc, x, hfound, hx, hleast⟩ :=
          ih (fun i hi => hread i (Nat.lt_succ_of_lt hi)) hpos
        have hstep : smallest scans now (n + 1) =
            some (some (Merge.improve (fun _ => id) (some (c, x)) n z)) := by
          simp [smallest, hfound, hz]
        rw [Merge.improve_eq] at hstep
        split_ifs at hstep with hlt
        · -- the last key is smaller than all before it
          refine ⟨n, Nat.lt_succ_self n, z, hstep, hz, fun i hi y hy => ?_⟩
          rcases Nat.lt_succ_iff_lt_or_eq.mp hi with hi | rfl
          · have hzy := lt_of_lt_of_le hlt (hleast i hi y hy).1
            exact ⟨le_of_lt hzy, fun _ => hzy⟩
          · exact ⟨le_of_eq (hsame y hy), fun h => absurd h (Nat.lt_irrefl i)⟩
        · refine ⟨c, Nat.lt_succ_of_lt hc, x, hstep, hx, fun i hi y hy => ?_⟩
          rcases Nat.lt_succ_iff_lt_or_eq.mp hi with hi | rfl
          · exact hleast i hi y hy
          · rw [← hsame y hy]
            exact ⟨not_lt.mp hlt, fun h => absurd h (by omega)⟩

/-- A defined search has read every buffer. -/
theorem VectorMergeIter.read_of_smallest {scans : Nat → Vec Slice} {now : Nat → Nat} {n : Nat}
    {best : Option (Nat × Slice)} (h : smallest scans now n = some best) {i : Nat} (hi : i < n) :
    ∃ front x, smallest scans now i = some front ∧ (scans i).get (now i) = some x := by
  induction n generalizing best with
  | zero => exact absurd hi (Nat.not_lt_zero i)
  | succ n ih =>
      simp only [smallest, Option.bind_eq_bind, Option.bind_eq_some_iff] at h
      obtain ⟨front, hfront, x, hx, _⟩ := h
      rcases Nat.lt_succ_iff_lt_or_eq.mp hi with hi | rfl
      · exact ih hfront hi
      · exact ⟨front, x, hfront, hx⟩

namespace Merge

variable {p : Program} {junk : Nat → Slice} {status : Nat → ScanStatus} {buffer : Nat → Vec KeyRef}
  {m : Merge}

/-- What the buffers read as. -/
def bytes (junk : Nat → Slice) (buffer : Nat → Vec KeyRef) (q : Nat) : Vec Slice :=
  (buffer q).map (KeyRef.read (junk q))

/-- The smallest slice so far, as it reads. -/
def readBest (junk : Nat → Slice) (best : Nat × KeyRef) : Nat × Slice :=
  (best.1, best.2.read (junk best.1))

/-- An iteration of `FindSmallest()` over slices is one over their bytes. -/
theorem readBest_improve (best : Option (Nat × KeyRef)) (i : Nat) (key : KeyRef) :
    readBest junk (improve (fun q => KeyRef.read (junk q)) best i key) =
      improve (fun _ => id) (best.map (readBest junk)) i (key.read (junk i)) := by
  cases best with
  | none => rfl
  | some old =>
      simp only [improve, readBest, Option.map_some, id]
      split_ifs <;> rfl

/-- Steps of the merge thread during which the flags, the buffers and the memory do not change. -/
def steps (p : Program) (junk : Nat → Slice) (status : Nat → ScanStatus)
    (buffer : Nat → Vec KeyRef) : Nat → Merge → Option Merge
  | 0, m => some m
  | n + 1, m => m.step p junk status buffer >>= fun r => steps p junk status buffer n r.1

/-- The search of the merge thread is `FindSmallest()` from the iteration it has reached. -/
theorem steps_find {i n : Nat} {best : Option (Nat × KeyRef)} {found : Nat × Slice}
    {caller : Option Nat} (hn : i + n = p.queueNum) (hpc : m.pc = .find i best caller)
    (hbest : VectorMergeIter.smallest (bytes junk buffer) m.now i =
      some (best.map (readBest junk)))
    (hfound : VectorMergeIter.smallest (bytes junk buffer) m.now p.queueNum =
      some (some found)) :
    steps p junk status buffer (n + 1) m = some { m with
      current := found.1
      stood := m.stood ++ [(bytes junk buffer found.1).at? (m.now found.1)]
      pc := .advance (caller.elim 1 (· + 1)) } := by
  induction n generalizing i best m with
  | zero =>
      obtain rfl : i = p.queueNum := by omega
      have hlast := Option.some.inj (hbest.symm.trans hfound)
      obtain ⟨smallest, rfl, rfl⟩ := Option.map_eq_some_iff.mp hlast
      simp [steps, step, hpc, key, bytes, readBest, Vec.at?_map]
  | succ n ih =>
      have hi : i < p.queueNum := by omega
      obtain ⟨front, x, hfront, hx⟩ := VectorMergeIter.read_of_smallest hfound hi
      obtain rfl : front = best.map (readBest junk) := Option.some.inj (hfront.symm.trans hbest)
      -- the bytes are those of the slice that the merge thread reads
      have hread := hx
      rw [bytes, Vec.get_map, Option.map_eq_some_iff] at hread
      obtain ⟨slice, hslice, rfl⟩ := hread
      have hstep : m.step p junk status buffer = some ({ m with
          pc := .find (i + 1) (some (improve (fun q => KeyRef.read (junk q)) best i slice))
            caller }, none) := by
        simp [step, hpc, hi, hslice]
      have hnext : VectorMergeIter.smallest (bytes junk buffer) m.now (i + 1) =
          some ((some (improve (fun q => KeyRef.read (junk q)) best i slice)).map
            (readBest junk)) := by
        rw [Option.map_some, readBest_improve]
        simp [VectorMergeIter.smallest, hbest, hx]
      show (m.step p junk status buffer >>= fun r => steps p junk status buffer (n + 1) r.1) = _
      rw [hstep]
      exact ih (by omega) rfl hnext hfound

/-- An advance of the merge thread is a call of `Next()` on what the buffers read as. -/
theorem steps_next {i : Nat} (hi : i < 100) (hpc : m.pc = .advance i) {moved : Bool}
    {it : VectorMergeIter}
    (hnext : VectorMergeIter.next p.queueNum (bytes junk buffer) ⟨m.now, m.current⟩ =
      some (moved, it)) :
    if moved then
      steps p junk status buffer (p.queueNum + 2) m = some { m with
        now := it.now
        current := it.current
        stood := m.stood ++ [it.key (bytes junk buffer)]
        pc := .advance (i + 1) }
    else steps p junk status buffer 1 m = some { m with pc := .needIter i } := by
  unfold VectorMergeIter.next at hnext
  have hbytes : (bytes junk buffer m.current).size = (buffer m.current).size := rfl
  split_ifs at hnext with hsize
  · cases hnext
    rw [hbytes] at hsize
    simp [steps, step, hpc, hi, next, hsize]
  · simp only [VectorMergeIter.findSmallest, Option.map_eq_some_iff, Option.join_eq_some_iff,
      Prod.mk.injEq] at hnext
    obtain ⟨_, ⟨found, hfound, rfl⟩, rfl, rfl⟩ := hnext
    rw [hbytes] at hsize
    have hstep : m.step p junk status buffer = some ({ m with
        now := Function.update m.now m.current (m.now m.current + 1)
        pc := .find 0 none (some i) }, none) := by
      simp [step, hpc, hi, next, hsize]
    rw [if_pos rfl]
    show (m.step p junk status buffer >>=
      fun r => steps p junk status buffer (p.queueNum + 1) r.1) = _
    rw [hstep]
    exact steps_find (m := { m with
      now := Function.update m.now m.current (m.now m.current + 1)
      pc := .find 0 none (some i) }) (Nat.zero_add p.queueNum) rfl rfl hfound

end Merge

/-- Sorted key sequences and buffers that hold a non-empty beginning of each. -/
structure Feed where
  queueNum : Nat
  keys : Nat → List Slice
  scans : Nat → Vec Slice
  queueNum_pos : 0 < queueNum
  sorted : ∀ q, (keys q).Pairwise (· ≤ ·)
  filled : ∀ q < queueNum, ∃ xs, xs ≠ [] ∧ xs <+: keys q ∧ (scans q).Contains xs

/-- The buffers, the iterator over them, and the history variable `given`: the results of `key()`
behind the construction and behind each successful `Next()`. -/
structure Feed.State where
  scans : Nat → Vec Slice
  iter : VectorMergeIter
  given : List (Option Slice)

/-- A call of `Next()`, or the next key of a sequence is appended to its buffer. -/
inductive Feed.Action where
  | next
  | append (q : Nat)
  deriving DecidableEq, Repr

namespace Feed

variable {f : Feed} {s t : State}

/-- One step of the schedule. A `Next()` that accesses a buffer out of range has no result. -/
def step (f : Feed) (s : State) : Action → Option State
  | .next => (s.iter.next f.queueNum s.scans).map fun (moved, iter) =>
      { s with iter, given := if moved then s.given ++ [iter.key s.scans] else s.given }
  | .append q =>
      if q < f.queueNum then
        (f.keys q)[(s.scans q).size]?.map fun key =>
          { s with scans := Function.update s.scans q ((s.scans q).pushBack key) }
      else none

/-- The state behind the construction of the iterator, if no access was out of range. -/
def start (f : Feed) : State :=
  let iter := (VectorMergeIter.new f.queueNum f.scans).getD ⟨fun _ => 0, 0⟩
  ⟨f.scans, iter, [iter.key f.scans]⟩

/-- `Next()` and refills in any order. -/
def schedule (f : Feed) : System State Action where
  init := f.start
  step := f.step

/-- What is left of sequence `q` from the iterator's position on. -/
def rest (f : Feed) (now : Nat → Nat) (q : Nat) : List Slice :=
  (f.keys q).drop (now q)

/-- Every buffer holds the beginning of its sequence, with the iterator's position inside. -/
def Windows (f : Feed) (scans : Nat → Vec Slice) (now : Nat → Nat) : Prop :=
  ∀ q < f.queueNum, now q < (scans q).size ∧ ∃ xs, xs <+: f.keys q ∧ (scans q).Contains xs

/-- The current buffer is the first of those with the smallest key. -/
structure Smallest (f : Feed) (now : Nat → Nat) (c : Nat) (x : Slice) : Prop where
  lt : c < f.queueNum
  head : (f.rest now c).head? = some x
  least : ∀ i < f.queueNum, ∀ y, (f.rest now i).head? = some y → x ≤ y ∧ (i < c → x < y)

/-- What holds along a schedule: the keys given are those of the merge in front of what is left, and
the key of the current buffer. -/
structure Inv (f : Feed) (s : State) : Prop where
  windows : f.Windows s.scans s.iter.now
  given : ∃ front x, f.Smallest s.iter.now s.iter.current x ∧
    s.given = (front ++ [x]).map some ∧
    (merge id fun i : Fin f.queueNum => f.keys i) =
      front ++ merge id fun i : Fin f.queueNum => f.rest s.iter.now i

/-- Inside a window, both accesses read the head of what is left. -/
theorem Windows.read {scans : Nat → Vec Slice} {now : Nat → Nat} (h : f.Windows scans now) {q : Nat}
    (hq : q < f.queueNum) :
    (scans q).get (now q) = (f.rest now q).head? ∧ (scans q).at? (now q) = (f.rest now q).head? ∧
      ∃ x, (f.rest now q).head? = some x := by
  obtain ⟨hlt, xs, hprefix, hcontains⟩ := h q hq
  have hlen : now q < xs.length := hcontains.size ▸ hlt
  have hkeys : now q < (f.keys q).length := lt_of_lt_of_le hlen hprefix.length_le
  have hhead : (f.rest now q).head? = xs[now q]? := by
    rw [rest, List.head?_drop, List.getElem?_eq_getElem hkeys, List.getElem?_eq_getElem hlen,
      hprefix.getElem]
  rw [hhead]
  exact ⟨hcontains.holds.get hlen, hcontains.at hlt, _, List.getElem?_eq_getElem hlen⟩

/-- Inside the windows `FindSmallest()` is defined and settles on the first smallest key. -/
theorem Windows.findSmallest {scans : Nat → Vec Slice} (it : VectorMergeIter)
    (h : f.Windows scans it.now) :
    ∃ c x, it.findSmallest f.queueNum scans = some { it with current := c } ∧
      f.Smallest it.now c x ∧ (scans c).at? (it.now c) = some x := by
  obtain ⟨c, hc, x, hfound, hx, hleast⟩ := VectorMergeIter.smallest_spec
    (fun i hi => (h.read hi).1 ▸ (h.read hi).2.2) f.queueNum_pos
  refine ⟨c, x, by simp [VectorMergeIter.findSmallest, hfound], ⟨hc, ?_, ?_⟩, ?_⟩
  · exact (h.read hc).1.symm.trans hx
  · exact fun i hi y hy => hleast i hi y ((h.read hi).1.trans hy)
  · exact (h.read hc).2.1.trans ((h.read hc).1.symm.trans hx)

/-- The first position is inside every buffer. -/
theorem windows_start (f : Feed) : f.Windows f.scans fun _ => 0 := by
  intro q hq
  obtain ⟨xs, hne, hprefix, hcontains⟩ := f.filled q hq
  exact ⟨hcontains.size ▸ List.length_pos_iff.mpr hne, xs, hprefix, hcontains⟩

/-- The construction establishes the invariant. -/
theorem inv_start (f : Feed) : f.Inv f.start := by
  obtain ⟨c, x, hfound, hsmallest, hkey⟩ := Windows.findSmallest ⟨fun _ => 0, 0⟩ f.windows_start
  have hstart : f.start = ⟨f.scans, ⟨fun _ => 0, c⟩, [some x]⟩ := by
    simp [start, VectorMergeIter.new, hfound, VectorMergeIter.key, hkey]
  rw [hstart]
  exact ⟨f.windows_start, [], x, hsmallest, rfl, rfl⟩

/-- What is left when the current buffer advances. -/
theorem rest_update (f : Feed) (now : Nat → Nat) (c : Nat) :
    f.rest (Function.update now c (now c + 1)) =
      Function.update (f.rest now) c (f.rest now c).tail := by
  funext q
  by_cases hq : q = c
  · subst hq
    simp [rest, List.tail_drop]
  · simp [rest, Function.update_of_ne hq]

/-- The merge of what is left begins with the key of the current buffer. -/
theorem Smallest.merge_eq {now : Nat → Nat} {c : Nat} {x : Slice} (h : f.Smallest now c x) :
    (merge id fun i : Fin f.queueNum => f.rest now i) =
      x :: merge id fun i : Fin f.queueNum =>
        f.rest (Function.update now c (now c + 1)) i := by
  have hcons : f.rest now c = x :: (f.rest now c).tail := List.eq_cons_of_mem_head? h.head
  have hmerge : (merge id fun i : Fin f.queueNum => f.rest now i) = x :: merge id
      (Function.update (fun i : Fin f.queueNum => f.rest now i) ⟨c, h.lt⟩ (f.rest now c).tail) :=
    merge_eq_cons (fun i => (f.sorted i).sublist (List.drop_sublist _ _)) hcons
      (fun i y hy => (h.least i i.isLt y hy).1) (fun i hi y hy => (h.least i i.isLt y hy).2 hi)
  rw [hmerge, rest_update]
  refine congrArg (fun lists => x :: merge id lists) (funext fun i => ?_)
  by_cases hi : i = ⟨c, h.lt⟩
  · subst hi
    simp
  · have hne : (i : Nat) ≠ c := fun heq => hi (Fin.ext heq)
    simp [Function.update_of_ne hi, Function.update_of_ne hne]

/-- A successful `Next()` moves to the next key of the merge. -/
theorem Inv.next (h : f.Inv s) (hroom : s.iter.now s.iter.current + 1 <
    (s.scans s.iter.current).size) :
    ∃ iter, s.iter.next f.queueNum s.scans = some (true, iter) ∧
      f.Inv { s with iter := iter, given := s.given ++ [iter.key s.scans] } := by
  obtain ⟨front, x, hsmallest, hgiven, hmerge⟩ := h.given
  have hwindows : f.Windows s.scans
      (Function.update s.iter.now s.iter.current (s.iter.now s.iter.current + 1)) := by
    intro q hq
    by_cases hc : q = s.iter.current
    · subst hc
      simpa using ⟨hroom, (h.windows _ hq).2⟩
    · simpa [Function.update_of_ne hc] using h.windows q hq
  obtain ⟨c, y, hfound, hnext, hkey⟩ := Windows.findSmallest
    ⟨Function.update s.iter.now s.iter.current (s.iter.now s.iter.current + 1), s.iter.current⟩
    hwindows
  refine ⟨_, by rw [VectorMergeIter.next, if_neg (by omega), hfound]; rfl, hwindows,
    front ++ [x], y, hnext, ?_, ?_⟩
  · rw [hgiven, List.map_append, List.map_append, VectorMergeIter.key, hkey]
    simp
  · rw [hmerge, hsmallest.merge_eq, List.append_assoc, List.singleton_append]

/-- Appending the next key of a sequence to its buffer keeps the windows. -/
theorem Inv.append (h : f.Inv s) {q : Nat} (hq : q < f.queueNum) {key : Slice}
    (hkey : (f.keys q)[(s.scans q).size]? = some key) :
    f.Inv { s with scans := Function.update s.scans q ((s.scans q).pushBack key) } := by
  refine ⟨fun i hi => ?_, h.given⟩
  by_cases heq : i = q
  · subst heq
    obtain ⟨hlt, xs, hprefix, hcontains⟩ := h.windows i hi
    have hgrown := hcontains.pushBack key
    obtain ⟨tail, htail⟩ := hprefix
    -- the buffer ends where the sequence goes on with the new key
    have hprefix' : xs ++ [key] <+: f.keys i := by
      rw [hcontains.size, ← htail, List.getElem?_append_right (Nat.le_refl _), Nat.sub_self] at hkey
      cases tail with
      | nil => simp at hkey
      | cons y tail =>
          simp only [List.getElem?_cons_zero, Option.some.injEq] at hkey
          exact ⟨tail, by rw [← htail, hkey, List.append_assoc, List.singleton_append]⟩
    simp only [Function.update_self]
    refine ⟨?_, _, hprefix', hgrown⟩
    rw [hgrown.size, List.length_append, List.length_singleton, ← hcontains.size]
    omega
  · simpa [Function.update_of_ne heq] using h.windows i hi

/-- The invariant holds along every schedule. -/
theorem inv_reachable (h : f.schedule.Reachable (fun _ _ => True) s) : f.Inv s := by
  refine h.invariant f.inv_start ?_
  intro s a t _ hinv _ hstep
  change f.step s a = some t at hstep
  cases a with
  | next =>
      by_cases hroom : s.iter.now s.iter.current + 1 < (s.scans s.iter.current).size
      · obtain ⟨iter, hnext, hinv'⟩ := hinv.next hroom
        simp only [step, hnext, Option.map_some, if_true, Option.some.injEq] at hstep
        exact hstep ▸ hinv'
      · have hnext : s.iter.next f.queueNum s.scans = some (false, s.iter) :=
          if_pos (not_lt.mp hroom)
        simp only [step, hnext, Option.map_some, Bool.false_eq_true, if_false,
          Option.some.injEq] at hstep
        exact hstep ▸ hinv
  | append q =>
      simp only [step] at hstep
      split_ifs at hstep with hq
      simp only [Option.map_eq_some_iff] at hstep
      obtain ⟨key, hkey, rfl⟩ := hstep
      exact hinv.append hq hkey

end Feed

/-- For all sorted key sequences, all beginnings of them in the buffers and all schedules of
`Next()` and refills: the keys given behind the construction and behind each successful `Next()` are
the beginning of the merge of the sequences, ordered by key and, among equal keys, by queue. Every
position is inside its buffer, so that the constructor, `Next()` and `key()` make no access out of
range. A `Next()` that returns false changes nothing, and behind a refill of the current buffer it
returns true. -/
theorem vector_merge_iter_merges {f : Feed} {s : Feed.State}
    (h : f.schedule.Reachable (fun _ _ => True) s) :
    (∃ given, s.given = given.map some ∧
      given <+: merge id fun i : Fin f.queueNum => f.keys i) ∧
    (∀ q < f.queueNum, s.iter.now q < (s.scans q).size) ∧
    (∃ iter, VectorMergeIter.new f.queueNum f.scans = some iter) ∧
    (∃ r, s.iter.next f.queueNum s.scans = some r) ∧
    (∃ key, s.iter.key s.scans = some key) ∧
    (∀ iter, s.iter.next f.queueNum s.scans = some (false, iter) → iter = s.iter) ∧
    ∀ t, f.step s (.append s.iter.current) = some t →
      ∃ iter, t.iter.next f.queueNum t.scans = some (true, iter) := by
  have hinv := Feed.inv_reachable h
  obtain ⟨front, x, hsmallest, hgiven, hmerge⟩ := hinv.given
  refine ⟨⟨front ++ [x], hgiven, ?_⟩, fun q hq => (hinv.windows q hq).1, ?_, ?_, ?_, ?_, ?_⟩
  · rw [hmerge, hsmallest.merge_eq]
    exact ⟨_, by rw [List.append_assoc, List.singleton_append]⟩
  · obtain ⟨c, y, hfound, _⟩ := Feed.Windows.findSmallest ⟨fun _ => 0, 0⟩ f.windows_start
    exact ⟨_, hfound⟩
  · by_cases hroom : s.iter.now s.iter.current + 1 < (s.scans s.iter.current).size
    · obtain ⟨iter, hnext, _⟩ := hinv.next hroom
      exact ⟨_, hnext⟩
    · exact ⟨_, if_pos (not_lt.mp hroom)⟩
  · exact ⟨x, (hinv.windows.read hsmallest.lt).2.1.trans hsmallest.head⟩
  · intro iter hnext
    unfold VectorMergeIter.next at hnext
    split_ifs at hnext
    · cases hnext
      rfl
    · simp at hnext
  · intro t hstep
    have hreach := Feed.inv_reachable (h.step (a := .append s.iter.current) trivial hstep)
    simp only [Feed.step, if_pos hsmallest.lt, Option.map_eq_some_iff] at hstep
    obtain ⟨key, _, rfl⟩ := hstep
    have hlt := (hinv.windows s.iter.current hsmallest.lt).1
    obtain ⟨iter, hnext, _⟩ := hreach.next (by
      show s.iter.now s.iter.current + 1 < (Function.update s.scans s.iter.current
        ((s.scans s.iter.current).pushBack key) s.iter.current).size
      rw [Function.update_self, Vec.size_pushBack]
      omega)
    exact ⟨iter, hnext⟩

/-- Two sequences that share the key `[2]`, with one key of each in the buffers. -/
def smallFeed : Feed where
  queueNum := 2
  keys := fun q => if q = 0 then [[2], [4]] else [[1], [2], [3]]
  scans := fun q => if q = 0 then ⟨1, [some [2]]⟩ else ⟨1, [some [1], none]⟩
  queueNum_pos := Nat.two_pos
  sorted := by
    intro q
    split <;> decide
  filled := by
    intro q _
    split
    · exact ⟨[[2]], by decide, ⟨[[4]], rfl⟩, rfl, ⟨[], rfl⟩⟩
    · exact ⟨[[1]], by decide, ⟨[[2], [3]], rfl⟩, rfl, ⟨[none], rfl⟩⟩

/-- A failed `Next()`, a refill and two more calls, of which the second fails: the keys given are
the first two of the merge, and the key of queue 0 comes first among the equal ones. -/
theorem vector_merge_iter_merges_small :
    let s := smallFeed.schedule.after [.next, .append 1, .next, .next]
    s.given = [some [1], some [2]] ∧ s.iter.current = 0 ∧
      (∃ given, s.given = given.map some ∧
        given <+: merge id fun i : Fin smallFeed.queueNum => smallFeed.keys i) ∧
      ∀ iter, s.iter.next smallFeed.queueNum s.scans = some (false, iter) → iter = s.iter := by
  intro s
  have hreach : smallFeed.schedule.Reachable (fun _ _ => True) s :=
    System.reachable_after_free (by decide)
  obtain ⟨hgiven, _, _, _, _, hkept, _⟩ := vector_merge_iter_merges hreach
  exact ⟨by decide, by decide, hgiven, hkept⟩

end P2KVS.ScanTest
