import P2KVS.Merge.Faithful

/-!
# The merging iterator refines a cursor over the union

Over children with disjoint keys, `merging_iterator_refines` says that no sequence of operations can
tell a `MergingIterator` from one cursor over the sorted union of the children. Cursors never fail,
so every operation over them is careful and `Faithful.apply` says where it lands; the cursor over
the union lands there too, and there is only one such entry.
-/

namespace P2KVS

open Sorted

/-- A cursor over a sorted map ends every operation where it has to. -/
instance {K V : Type*} [LinearOrder K] [Inhabited K] [Inhabited V] : MapIterator (Cursor K V) where
  map := Cursor.map
  map_apply := by
    intro c c' op h
    cases op with
    | seekToFirst | seekToLast | seek =>
        cases h
        rfl
    | next =>
        obtain ⟨_, rfl⟩ := Iterator.apply_next_eq_some.mp h
        exact c.next_map
    | prev =>
        obtain ⟨_, rfl⟩ := Iterator.apply_prev_eq_some.mp h
        exact c.prev_map
  lands := by
    intro c c' op h _
    rw [observe_cursor, observe_cursor]
    cases op with
    | seekToFirst =>
        cases h
        exact c.isFirst_seekToFirst
    | seekToLast =>
        cases h
        exact c.isLast_seekToLast
    | seek target =>
        cases h
        exact c.isFirst_seek target
    | next =>
        obtain ⟨hvalid, rfl⟩ := Iterator.apply_next_eq_some.mp h
        obtain ⟨e, he⟩ := Option.isSome_iff_exists.mp (c.valid_eq.symm.trans hvalid)
        exact ⟨e, he, Cursor.isFirst_next he⟩
    | prev =>
        obtain ⟨hvalid, rfl⟩ := Iterator.apply_prev_eq_some.mp h
        obtain ⟨e, he⟩ := Option.isSome_iff_exists.mp (c.valid_eq.symm.trans hvalid)
        exact ⟨e, he, Cursor.isLast_prev he⟩
  current := by
    intro c e he
    rw [observe_cursor] at he
    exact ⟨rfl, Cursor.mem_of_current he⟩

namespace MergingIterator

variable {n : Nat} {K V : Type*} [LinearOrder K] [Inhabited K] [Inhabited V]
  {maps : Fin n → SortedMap K V} {m m' : MergingIterator n (Cursor K V) K} {u u' : Cursor K V}

/-- No failure of a cursor goes unnoticed, since there is none. -/
theorem careful_cursors (m : MergingIterator n (Cursor K V) K) (op : Iterator.Op K) :
    Careful m op := by
  cases op with
  | prev => exact fun _ _ _ _ _ hfails => hfails.1 rfl
  | seekToFirst | seekToLast | seek | next => trivial

/-- What relates a merging iterator to a cursor over the union of its children. -/
structure Simulates (maps : Fin n → SortedMap K V) (m : MergingIterator n (Cursor K V) K)
    (u : Cursor K V) : Prop where
  map : u.map = SortedMap.union maps
  faithful : Faithful maps m
  observe : Iterator.observe m = Iterator.observe u

/-- Related iterators are valid together. -/
theorem Simulates.valid_eq (h : Simulates maps m u) : Iterator.valid m = Iterator.valid u := by
  rw [Bool.eq_iff_iff, Iterator.valid_iff, Iterator.valid_iff, h.observe]

/-- An operation that both sides make keeps the relation. -/
theorem Simulates.apply (hdisjoint : SortedMap.Disjoint maps) (h : Simulates maps m u)
    (op : Iterator.Op K) (hm : Iterator.apply m op = some m') (hu : Iterator.apply u op = some u') :
    Simulates maps m' u' := by
  obtain ⟨hfaithful, hlands⟩ := h.faithful.apply hdisjoint op (careful_cursors m op) hm
  have hmap : u'.map = u.map := MapIterator.map_apply op hu
  have hunion : op.Lands (SortedMap.union maps).entries (Iterator.observe m)
      (Iterator.observe u') := by
    rw [h.observe, ← h.map]
    exact MapIterator.lands op hu rfl
  exact ⟨hmap.trans h.map, hfaithful,
    (hlands (status_ok_iff.mpr fun _ => rfl)).unique hunion⟩

/-- Related iterators stay related, and show the same, under every sequence of operations. -/
theorem Simulates.run (hdisjoint : SortedMap.Disjoint maps) (h : Simulates maps m u)
    (ops : List (Iterator.Op K)) :
    (Iterator.run ops m).map Iterator.observe = (Iterator.run ops u).map Iterator.observe := by
  induction ops generalizing m u with
  | nil => simpa [Iterator.run] using h.observe
  | cons op rest ih =>
      -- the operation is enabled on both sides or on neither
      have henabled := Iterator.apply_isSome_congr h.valid_eq op
      cases hm : Iterator.apply m op with
      | none =>
          have hu : Iterator.apply u op = none := by simpa [hm] using henabled
          simp [Iterator.run, hm, hu]
      | some m' =>
          obtain ⟨u', hu⟩ : ∃ u', Iterator.apply u op = some u' := by
            simpa [hm, Option.isSome_iff_exists] using henabled.symm
          simpa [Iterator.run, hm, hu] using ih (h.apply hdisjoint op hm hu)

/-- A fresh merging iterator over fresh children is related to a fresh cursor over the union. -/
theorem simulates_new (cmp : Comparator K) (maps : Fin n → SortedMap K V) :
    Simulates maps (new cmp fun i => Cursor.start (maps i))
      (Cursor.start (SortedMap.union maps)) := by
  have hfresh : ∀ m : SortedMap K V, Iterator.valid (Cursor.start m) = false :=
    fun m => decide_eq_false (lt_irrefl m.entries.length)
  refine ⟨rfl, faithful_new cmp (fun _ => rfl) fun i => hfresh (maps i), ?_⟩
  rw [observe_of_none (current_new cmp fun i => hfresh (maps i)), Iterator.observe,
    if_neg (by simp [hfresh])]

/-- A cursor walks over the keys from its position on. -/
theorem walk_cursor (c : Cursor K V) {fuel : Nat} (hfuel : c.ahead.length ≤ fuel) :
    Iterator.walk fuel c = some c.ahead := by
  induction fuel generalizing c with
  | zero =>
      have hnil : c.ahead = [] := List.length_eq_zero_iff.mp (Nat.le_zero.mp hfuel)
      have hend : ¬ Iterator.valid c = true := fun hvalid => by simp [ahead_of_valid hvalid] at hnil
      simp [Iterator.walk, hend, hnil]
  | succ fuel ih =>
      by_cases hvalid : Iterator.valid c = true
      · rw [ahead_of_valid hvalid, List.length_cons] at hfuel
        rw [Iterator.walk, if_pos hvalid, ih (Iterator.next c) (by omega), ahead_of_valid hvalid]
        rfl
      · rw [Iterator.walk, if_neg hvalid,
          Cursor.ahead_of_not_valid (Bool.eq_false_of_not_eq_true hvalid)]

/-- A cursor stands on the entries from its position on. -/
theorem stand_cursor (c : Cursor K V) (n : Nat) : Iterator.stand n c = c.remains.take n := by
  induction n generalizing c with
  | zero => rfl
  | succ n ih =>
      by_cases hvalid : Iterator.valid c = true
      · obtain ⟨e, he⟩ := Iterator.valid_iff.mp hvalid
        have hcurrent : c.current? = some e := (observe_cursor c).symm.trans he
        rw [Iterator.observe, if_pos hvalid] at he
        rw [Iterator.stand, if_pos hvalid, ih, Option.some.inj he,
          Cursor.remains_of_current hcurrent, List.take_succ_cons]
        rfl
      · rw [Iterator.stand, if_neg hvalid, Cursor.remains_of_not_valid hvalid, List.take_nil]

/-- Related valid iterators stay related behind `Next`. -/
theorem Simulates.next (hdisjoint : SortedMap.Disjoint maps) (h : Simulates maps m u)
    (hvalid : Iterator.valid u = true) :
    Simulates maps (Iterator.next m) (Iterator.next u) :=
  h.apply hdisjoint .next (Iterator.apply_next_eq_some.mpr ⟨h.valid_eq.trans hvalid, rfl⟩)
    (Iterator.apply_next_eq_some.mpr ⟨hvalid, rfl⟩)

/-- Related valid iterators have the same key and the same value. -/
theorem Simulates.entry_eq (h : Simulates maps m u) (hvalid : Iterator.valid u = true) :
    (Iterator.key m, Iterator.value m) = (Iterator.key u, Iterator.value u) := by
  have hobs := h.observe
  rw [Iterator.observe, Iterator.observe, if_pos (h.valid_eq.trans hvalid), if_pos hvalid] at hobs
  exact Option.some.inj hobs

/-- Related iterators walk over the same keys. -/
theorem Simulates.walk (hdisjoint : SortedMap.Disjoint maps) (h : Simulates maps m u) (fuel : Nat) :
    Iterator.walk fuel m = Iterator.walk fuel u := by
  induction fuel generalizing m u with
  | zero => simp only [Iterator.walk, h.valid_eq]
  | succ fuel ih =>
      simp only [Iterator.walk, h.valid_eq]
      split_ifs with hvalid
      · have hkey : Iterator.key m = Iterator.key u := congrArg Prod.fst (h.entry_eq hvalid)
        rw [ih (h.next hdisjoint hvalid), hkey]
      · rfl

/-- Related iterators stand on the same entries. -/
theorem Simulates.stand (hdisjoint : SortedMap.Disjoint maps) (h : Simulates maps m u) (k : Nat) :
    Iterator.stand k m = Iterator.stand k u := by
  induction k generalizing m u with
  | zero => rfl
  | succ k ih =>
      simp only [Iterator.stand, h.valid_eq]
      split_ifs with hvalid
      · rw [ih (h.next hdisjoint hvalid), h.entry_eq hvalid]
      · rfl

/-- A merging iterator over children with disjoint keys, positioned by `SeekToFirst`, walks over the
keys of all children in increasing order. -/
theorem walk_seekToFirst (cmp : Comparator K) (hdisjoint : SortedMap.Disjoint maps) {fuel : Nat}
    (hfuel : (SortedMap.union maps).keys.length ≤ fuel) :
    Iterator.walk fuel (seekToFirst (new cmp fun i => Cursor.start (maps i))) =
      some (SortedMap.union maps).keys := by
  have h := (simulates_new cmp maps).apply hdisjoint .seekToFirst rfl rfl
  refine (h.walk hdisjoint fuel).trans ?_
  exact walk_cursor (Cursor.start (SortedMap.union maps)).seekToFirst hfuel

/-- A merging iterator over children with disjoint keys, positioned by `Seek`, stands on the entries
of all children at or past the target. -/
theorem stand_seek (cmp : Comparator K) (hdisjoint : SortedMap.Disjoint maps) (target : K)
    (k : Nat) :
    Iterator.stand k (seek (new cmp fun i => Cursor.start (maps i)) target) =
      ((SortedMap.union maps).entries.filter fun e => target ≤ e.1).take k := by
  have h := (simulates_new cmp maps).apply hdisjoint (.seek target) rfl rfl
  refine ((h.stand hdisjoint k).trans (stand_cursor _ k)).trans ?_
  exact congrArg (List.take k) (Cursor.remains_seek (fun _ _ => le_of_lt) _ target)

/-- A merging iterator over children with disjoint keys, positioned by `Seek`, visits the keys of
all children at or past the target in increasing order. -/
theorem visit_seek (cmp : Comparator K) (hdisjoint : SortedMap.Disjoint maps) (target : K)
    (k : Nat) :
    Iterator.visit k (seek (new cmp fun i => Cursor.start (maps i)) target) =
      ((SortedMap.union maps).keysFrom target).take k := by
  rw [Iterator.visit_eq, stand_seek cmp hdisjoint, List.map_take, SortedMap.keysFrom,
    SortedMap.keys, List.filter_map]
  rfl

end MergingIterator

/-- No sequence of `SeekToFirst`, `SeekToLast`, `Seek`, `Next` and `Prev` can tell a merging
iterator over children with disjoint keys from one cursor over the sorted union of the children: the
same sequences respect `assert(Valid())`, and after each of them validity, key and value agree. -/
theorem merging_iterator_refines {n : Nat} {K V : Type*} [LinearOrder K] [Inhabited K]
    [Inhabited V] (cmp : Comparator K) (maps : Fin n → SortedMap K V)
    (hdisjoint : SortedMap.Disjoint maps) (ops : List (Iterator.Op K)) :
    (Iterator.run ops (MergingIterator.new cmp fun i => Cursor.start (maps i))).map
        Iterator.observe =
      (Iterator.run ops (Cursor.start (SortedMap.union maps))).map Iterator.observe :=
  (MergingIterator.simulates_new cmp maps).run hdisjoint ops

/-- Two children over one-byte keys, the second holding a key between those of the first. -/
def twoChildren : Fin 2 → SortedMap Slice Nat
  | 0 => ⟨[([1], 10), ([3], 30)], by decide⟩
  | 1 => ⟨[([2], 20)], by decide⟩

/-- A walk over two children that turns around twice, once past the exhausted second child, ends on
the middle key. -/
theorem merging_iterator_refines_two_children :
    SortedMap.Disjoint twoChildren ∧
      (Iterator.run [.seek [2], .next, .prev, .prev, .next]
        (MergingIterator.new bytewiseComparator fun i => Cursor.start (twoChildren i))).map
          Iterator.observe = some (some ([2], 20)) := by
  have hdisjoint : SortedMap.Disjoint twoChildren := by decide
  refine ⟨hdisjoint, ?_⟩
  rw [merging_iterator_refines bytewiseComparator twoChildren hdisjoint]
  decide

end P2KVS
