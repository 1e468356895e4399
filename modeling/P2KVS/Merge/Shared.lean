import P2KVS.Foundation.Merging
import P2KVS.Merge.Refinement

/-!
# Merging children that share keys

Over children that are sorted lists a `MergingIterator` walks over the merge of the lists: going
forward what is left is the merge of what remains of the children, going backward the merge of what
is behind them. The search loops break ties towards the first and towards the last child, which
makes the walk backward the exact reverse of the walk forward.
-/

namespace P2KVS

open Sorted Merging

namespace MergingIterator

variable {n : Nat} {K V : Type*} [LinearOrder K]

/-- A search loop ends with the candidate it started with or with one it went over. -/
theorem mem_of_foldl_improve {ok : Fin n → Bool} {better : Fin n → Fin n → Bool}
    {candidates : List (Fin n)} {best : Option (Fin n)} {c : Fin n}
    (h : candidates.foldl (improve ok better) best = some c) : best = some c ∨ c ∈ candidates := by
  induction candidates generalizing best with
  | nil => exact .inl h
  | cons i rest ih =>
      rcases ih h with hbest | hmem
      · have hcases : improve ok better best i = best ∨ improve ok better best i = some i := by
          unfold improve
          cases best with
          | none => split_ifs <;> simp
          | some j => dsimp only; split_ifs <;> simp
        rcases hcases with hold | hnew
        · exact .inl (hold ▸ hbest)
        · rw [hnew] at hbest
          cases hbest
          exact .inr List.mem_cons_self
      · exact .inr (List.mem_cons_of_mem i hmem)

/-- A search loop prefers earlier candidates: what it ends with beats every candidate in front of
it. -/
theorem foldl_improve_earliest {ok : Fin n → Bool} {better : Fin n → Fin n → Bool}
    (htrans : ∀ i j k, better i j = true → better j k = true → better i k = true)
    (hirrefl : ∀ i, better i i = false)
    (hneg : ∀ i j k, better i j = true → better k j = false → better i k = true)
    {before after : List (Fin n)} {c : Fin n} (hbefore : c ∉ before) (hafter : c ∉ after)
    (h : (before ++ c :: after).foldl (improve ok better) none = some c) {i : Fin n}
    (hi : i ∈ before) (hok : ok i = true) : better c i = true := by
  have hbest := foldl_improve ok better htrans hirrefl before
  have hold : before.foldl (improve ok better) none ≠ some c := fun hc =>
    (mem_of_foldl_improve hc).elim (fun hnone => by cases hnone) hbefore
  rw [List.foldl_append, List.foldl_cons] at h
  -- the loop has reached `c` and does not come back to it, so this iteration takes it
  have htake := (mem_of_foldl_improve h).resolve_right hafter
  cases hfound : before.foldl (improve ok better) none with
  | none =>
      rw [hfound] at hbest
      simp [hbest i hi] at hok
  | some j =>
      rw [hfound] at hbest hold htake
      unfold improve at htake
      simp only at htake
      split_ifs at htake with _ hbetter
      · exact hneg c j i hbetter (hbest.2 i hi hok)
      · exact absurd htake hold
      · exact absurd htake hold

section Ties

variable {ι : Type*} {cmp : Comparator K} {children : Fin n → IteratorWrapper ι K} {c : Fin n}

/-- `FindSmallest()` breaks ties towards the first child. -/
theorem find_smallest_first (h : findSmallest cmp children = some c) (i : Fin n) (hi : i < c)
    (hvalid : (children i).valid = true) : (children c).key < (children i).key := by
  obtain ⟨before, after, hsplit, hbefore, hafter⟩ := finRange_split c
  unfold findSmallest at h
  rw [hsplit] at h
  have hbetter := foldl_improve_earliest (fun i j k => by simpa [cmp.lt_iff] using lt_trans)
    (by simp [cmp.lt_iff])
    (fun i j k hij hkj => by
      simp only [cmp.lt_iff, decide_eq_true_eq, decide_eq_false_iff_not, not_lt] at hij hkj ⊢
      exact hij.trans_le hkj)
    (fun hmem => lt_irrefl c ((hbefore c).mp hmem)) (fun hmem => lt_irrefl c ((hafter c).mp hmem))
    h ((hbefore i).mpr hi) hvalid
  exact (cmp.lt_iff _ _).mp (of_decide_eq_true hbetter)

/-- `FindLargest()` breaks ties towards the last child. -/
theorem find_largest_last (h : findLargest cmp children = some c) (i : Fin n) (hi : c < i)
    (hvalid : (children i).valid = true) : (children i).key < (children c).key := by
  obtain ⟨before, after, hsplit, hbefore, hafter⟩ := finRange_split c
  unfold findLargest at h
  rw [hsplit, List.reverse_append, List.reverse_cons, List.append_assoc,
    List.singleton_append] at h
  have hbetter := foldl_improve_earliest
    (fun i j k hij hjk => by
      simp only [gt_iff_lt, cmp.gt_iff, decide_eq_true_eq] at hij hjk ⊢
      exact hjk.trans hij)
    (by simp [cmp.gt_iff])
    (fun i j k hij hkj => by
      simp only [gt_iff_lt, cmp.gt_iff, decide_eq_true_eq, decide_eq_false_iff_not,
        not_lt] at hij hkj ⊢
      exact hkj.trans_lt hij)
    (fun hmem => lt_irrefl c ((hafter c).mp (List.mem_reverse.mp hmem)))
    (fun hmem => lt_irrefl c ((hbefore c).mp (List.mem_reverse.mp hmem)))
    h (List.mem_reverse.mpr ((hafter i).mpr hi)) hvalid
  exact (cmp.gt_iff _ _).mp (of_decide_eq_true hbetter)

end Ties

variable [Inhabited K] [Inhabited V] {m : MergingIterator n (Cursor K V (· ≤ ·)) K}

/-- A wrapper over a cursor that is up to date shows the entry under the cursor. -/
theorem cached_entry {w : IteratorWrapper (Cursor K V (· ≤ ·)) K} (hw : w.Cached) {e : K × V}
    (he : w.iter.current? = some e) : w.valid = true ∧ w.key = e.1 ∧ w.value = e.2 := by
  rw [← observe_cursor] at he
  exact ⟨hw.valid_iff.mpr ⟨e, he⟩, hw.entry he⟩

/-- A valid wrapper over a cursor that is up to date stands on an entry. -/
theorem exists_entry {w : IteratorWrapper (Cursor K V (· ≤ ·)) K} (hw : w.Cached)
    (hvalid : w.valid = true) : ∃ e, w.iter.current? = some e := by
  rw [← observe_cursor]
  exact hw.valid_iff.mp hvalid

/-- The iterator goes forward: the caches are up to date and the current child is the smallest
one. -/
structure Forward (m : MergingIterator n (Cursor K V (· ≤ ·)) K) : Prop where
  cached : ∀ i, (m.children i).Cached
  direction : m.direction = .forward
  current : m.current = findSmallest m.comparator m.children

/-- The iterator goes backward: the caches are up to date and the current child is the largest
one. -/
structure Reverse (m : MergingIterator n (Cursor K V (· ≤ ·)) K) : Prop where
  cached : ∀ i, (m.children i).Cached
  direction : m.direction = .reverse
  current : m.current = findLargest m.comparator m.children

/-- Settling on the smallest child starts a walk forward. -/
theorem forward_settle (m : MergingIterator n (Cursor K V (· ≤ ·)) K)
    {children : Fin n → IteratorWrapper (Cursor K V (· ≤ ·)) K} (h : ∀ i, (children i).Cached) :
    Forward (m.settleForward children) :=
  ⟨h, rfl, rfl⟩

/-- Settling on the largest child starts a walk backward. -/
theorem reverse_settle (m : MergingIterator n (Cursor K V (· ≤ ·)) K)
    {children : Fin n → IteratorWrapper (Cursor K V (· ≤ ·)) K} (h : ∀ i, (children i).Cached) :
    Reverse (m.settleReverse children) :=
  ⟨h, rfl, rfl⟩

/-- What is left of a walk forward. -/
def left (m : MergingIterator n (Cursor K V (· ≤ ·)) K) : List (K × V) :=
  merge Prod.fst fun i => (m.children i).iter.remains

/-- What is left of a walk backward, in the order of the keys. -/
def leftBehind (m : MergingIterator n (Cursor K V (· ≤ ·)) K) : List (K × V) :=
  merge Prod.fst fun i => (m.children i).iter.behind

/-- A walk forward is over, or it stands on the first entry that is left and `Next()` takes this
entry off. -/
theorem Forward.step (h : Forward m) :
    (Iterator.valid m = false ∧ m.left = []) ∨
      (Iterator.valid m = true ∧ Forward m.next ∧
        m.left = (Iterator.key m, Iterator.value m) :: m.next.left) := by
  have hspec := find_smallest_spec m.comparator m.children
  rw [← h.current] at hspec
  cases hc : m.current with
  | none =>
      rw [hc] at hspec
      refine .inl ⟨by simp [Iterator.valid, valid, hc], merge_eq_nil fun i => ?_⟩
      have hvalid : (m.children i).iter.current? = none := by
        rw [← Option.not_isSome_iff_eq_none, ← Cursor.valid_eq]
        have hfalse : (m.children i).iter.valid = false :=
          (h.cached i).valid.symm.trans (hspec i)
        simp [hfalse]
      exact List.head?_eq_none_iff.mp ((m.children i).iter.head_remains.trans hvalid)
  | some c =>
      rw [hc] at hspec
      obtain ⟨hvalid, hsmallest⟩ := hspec
      obtain ⟨e, he⟩ := exists_entry (h.cached c) hvalid
      obtain ⟨_, hkey, hvalue⟩ := cached_entry (h.cached c) he
      -- going forward `Next()` moves the current child only
      have hnext : m.next = m.settleForward (Function.update m.children c (m.children c).next) := by
        simp [next, hc, h.direction]
      have hremains : (m.children c).iter.remains = e :: (m.children c).iter.next.remains := by
        exact Cursor.remains_of_current he
      have hleft : m.next.left = merge Prod.fst (Function.update
          (fun i => (m.children i).iter.remains) c (m.children c).iter.next.remains) := by
        rw [hnext]
        refine congrArg (merge Prod.fst) (funext fun i => ?_)
        by_cases hi : i = c
        · subst hi
          simp [settleForward, IteratorWrapper.next, IteratorWrapper.update, Iterator.next]
        · simp [settleForward, Function.update_of_ne hi]
      have hentry : (Iterator.key m, Iterator.value m) = e := by
        simp [Iterator.key, Iterator.value, key, value, hc, hkey, hvalue]
      have hfirst := find_smallest_first (h.current.symm.trans hc)
      refine .inr ⟨by simp [Iterator.valid, valid, hc], ?_, ?_⟩
      · rw [hnext]
        exact forward_settle m ((Function.forall_update_iff _ fun _ => IteratorWrapper.Cached).mpr
          ⟨IteratorWrapper.cached_update _ _, fun i _ => h.cached i⟩)
      · rw [hleft, hentry]
        refine merge_eq_cons (fun i => Cursor.remains_sorted _) hremains ?_ ?_
        · intro i y hy
          obtain ⟨hi, hkeyi, _⟩ :=
            cached_entry (h.cached i) ((m.children i).iter.head_remains.symm.trans hy)
          exact hkey ▸ hkeyi ▸ hsmallest i hi
        · intro i hlt y hy
          obtain ⟨hi, hkeyi, _⟩ :=
            cached_entry (h.cached i) ((m.children i).iter.head_remains.symm.trans hy)
          exact hkey ▸ hkeyi ▸ hfirst i hlt hi

/-- A walk backward is over, or it stands on the last entry that is left and `Prev()` takes this
entry off. -/
theorem Reverse.step (h : Reverse m) :
    (Iterator.valid m = false ∧ m.leftBehind = []) ∨
      (Iterator.valid m = true ∧ Reverse m.prev ∧
        m.leftBehind = m.prev.leftBehind ++ [(Iterator.key m, Iterator.value m)]) := by
  have hspec := find_largest_spec m.comparator m.children
  rw [← h.current] at hspec
  cases hc : m.current with
  | none =>
      rw [hc] at hspec
      refine .inl ⟨by simp [Iterator.valid, valid, hc], merge_eq_nil fun i => ?_⟩
      have hfalse : (m.children i).iter.valid = false := (h.cached i).valid.symm.trans (hspec i)
      simp [Cursor.behind, hfalse]
  | some c =>
      rw [hc] at hspec
      obtain ⟨hvalid, hlargest⟩ := hspec
      obtain ⟨e, he⟩ := exists_entry (h.cached c) hvalid
      obtain ⟨_, hkey, hvalue⟩ := cached_entry (h.cached c) he
      -- going backward `Prev()` moves the current child only
      have hprev : m.prev = m.settleReverse (Function.update m.children c (m.children c).prev) := by
        simp [prev, hc, h.direction]
      have hbehind : (m.children c).iter.behind = (m.children c).iter.prev.behind ++ [e] := by
        rw [Cursor.behind_prev]
        exact (List.dropLast_append_getLast? e
          ((m.children c).iter.getLast_behind.trans he)).symm
      have hleft : m.prev.leftBehind = merge Prod.fst (Function.update
          (fun i => (m.children i).iter.behind) c (m.children c).iter.prev.behind) := by
        rw [hprev]
        refine congrArg (merge Prod.fst) (funext fun i => ?_)
        by_cases hi : i = c
        · subst hi
          simp [settleReverse, IteratorWrapper.prev, IteratorWrapper.update, Iterator.prev]
        · simp [settleReverse, Function.update_of_ne hi]
      have hentry : (Iterator.key m, Iterator.value m) = e := by
        simp [Iterator.key, Iterator.value, key, value, hc, hkey, hvalue]
      have hlast := find_largest_last (h.current.symm.trans hc)
      refine .inr ⟨by simp [Iterator.valid, valid, hc], ?_, ?_⟩
      · rw [hprev]
        exact reverse_settle m ((Function.forall_update_iff _ fun _ => IteratorWrapper.Cached).mpr
          ⟨IteratorWrapper.cached_update _ _, fun i _ => h.cached i⟩)
      · rw [hleft, hentry]
        refine merge_eq_concat (fun i => Cursor.behind_sorted _) hbehind ?_ ?_
        · intro i y hy
          obtain ⟨hi, hkeyi, _⟩ :=
            cached_entry (h.cached i) ((m.children i).iter.getLast_behind.symm.trans hy)
          exact hkey ▸ hkeyi ▸ hlargest i hi
        · intro i hlt y hy
          obtain ⟨hi, hkeyi, _⟩ :=
            cached_entry (h.cached i) ((m.children i).iter.getLast_behind.symm.trans hy)
          exact hkey ▸ hkeyi ▸ hlast i hlt hi

/-- A walk forward goes over what is left. -/
theorem Forward.collect (h : Forward m) {fuel : Nat} (hfuel : m.left.length ≤ fuel) :
    Iterator.collect Iterator.next fuel m = some m.left := by
  induction fuel generalizing m with
  | zero =>
      obtain ⟨hvalid, hleft⟩ | ⟨_, _, hleft⟩ := h.step
      · rw [Iterator.collect_of_not_valid hvalid, hleft]
      · rw [hleft, List.length_cons] at hfuel
        omega
  | succ fuel ih =>
      obtain ⟨hvalid, hleft⟩ | ⟨hvalid, hnext, hleft⟩ := h.step
      · rw [Iterator.collect_of_not_valid hvalid, hleft]
      · rw [hleft, List.length_cons] at hfuel
        have hrest : Iterator.collect Iterator.next fuel (Iterator.next m) = some m.next.left :=
          ih hnext (Nat.le_of_succ_le_succ hfuel)
        rw [Iterator.collect, if_pos hvalid, hrest, hleft, Option.map_some]

/-- A walk backward goes over what is left, from the last entry to the first. -/
theorem Reverse.collect (h : Reverse m) {fuel : Nat} (hfuel : m.leftBehind.length ≤ fuel) :
    Iterator.collect Iterator.prev fuel m = some m.leftBehind.reverse := by
  induction fuel generalizing m with
  | zero =>
      obtain ⟨hvalid, hleft⟩ | ⟨_, _, hleft⟩ := h.step
      · rw [Iterator.collect_of_not_valid hvalid, hleft, List.reverse_nil]
      · rw [hleft, List.length_append, List.length_singleton] at hfuel
        omega
  | succ fuel ih =>
      obtain ⟨hvalid, hleft⟩ | ⟨hvalid, hprev, hleft⟩ := h.step
      · rw [Iterator.collect_of_not_valid hvalid, hleft, List.reverse_nil]
      · rw [hleft, List.length_append, List.length_singleton] at hfuel
        have hrest : Iterator.collect Iterator.prev fuel (Iterator.prev m) =
            some m.prev.leftBehind.reverse := ih hprev (Nat.le_of_succ_le_succ hfuel)
        rw [Iterator.collect, if_pos hvalid, hrest, hleft, Option.map_some,
          List.reverse_append, List.reverse_singleton, List.singleton_append]

end MergingIterator

/-- Over children that are sorted lists, the walk by `Next()` from `Seek(target)` goes over every
entry at or past the target of every child once, ordered by key and, among equal keys, by child; the
walk from `SeekToFirst()` goes over all entries in this order, and the walk by `Prev()` from
`SeekToLast()` over the same entries in the reverse order. -/
theorem merging_iterator_merges {n : Nat} {K V : Type*} [LinearOrder K] [Inhabited K] [Inhabited V]
    (lists : Fin n → SortedList K V) (m : MergingIterator n (Cursor K V (· ≤ ·)) K)
    (hover : ∀ i, (m.children i).iter.map = lists i) (target : K) {fuel : Nat}
    (hfuel : ((List.finRange n).map fun i => (lists i).entries.length).sum ≤ fuel) :
    Iterator.collect Iterator.next fuel (Iterator.seek m target) =
        some (merge Prod.fst fun i => (lists i).entries.filter fun e => target ≤ e.1) ∧
      Iterator.collect Iterator.next fuel (Iterator.seekToFirst m) =
        some (merge Prod.fst fun i => (lists i).entries) ∧
      Iterator.collect Iterator.prev fuel (Iterator.seekToLast m) =
        some (merge Prod.fst fun i => (lists i).entries).reverse := by
  have hall : (merge Prod.fst fun i => (lists i).entries).length ≤ fuel := by
    rw [length_merge]
    exact hfuel
  have hsome : (merge Prod.fst fun i =>
      (lists i).entries.filter fun e => target ≤ e.1).length ≤ fuel := by
    rw [merge, sortBy, List.length_mergeSort, ← List.filter_flatMap]
    refine (List.length_filter_le _ _).trans ?_
    rw [List.length_flatMap]
    exact hfuel
  refine ⟨?_, ?_, ?_⟩
  · have hleft : (m.seek target).left =
        merge Prod.fst fun i => (lists i).entries.filter fun e => target ≤ e.1 := by
      refine congrArg (merge Prod.fst) (funext fun i => ?_)
      rw [← hover i]
      exact Cursor.remains_seek (fun _ _ => id) (m.children i).iter target
    have hwalk := (m.forward_settle fun i =>
      IteratorWrapper.cached_update (m.children i) ((m.children i).iter.seek target)).collect
        (hleft ▸ hsome)
    exact hwalk.trans (congrArg some hleft)
  · have hleft : m.seekToFirst.left = merge Prod.fst fun i => (lists i).entries := by
      refine congrArg (merge Prod.fst) (funext fun i => ?_)
      rw [← hover i]
      rfl
    have hwalk := (m.forward_settle fun i =>
      IteratorWrapper.cached_update (m.children i) (m.children i).iter.seekToFirst).collect
        (hleft ▸ hall)
    exact hwalk.trans (congrArg some hleft)
  · have hleft : m.seekToLast.leftBehind = merge Prod.fst fun i => (lists i).entries := by
      refine congrArg (merge Prod.fst) (funext fun i => ?_)
      rw [← hover i]
      exact Cursor.behind_seekToLast (m.children i).iter
    have hwalk := (m.reverse_settle fun i =>
      IteratorWrapper.cached_update (m.children i) (m.children i).iter.seekToLast).collect
        (hleft ▸ hall)
    exact hwalk.trans (congrArg (fun l => some l.reverse) hleft)

/-- Two children that both hold the key `[2]`. -/
def sharingChildren : Fin 2 → SortedList Slice Nat
  | 0 => ⟨[([1], 10), ([2], 20)], by decide⟩
  | 1 => ⟨[([2], 21), ([3], 31)], by decide⟩

/-- A fresh iterator over two children that share a key walks over their merge in both
directions. -/
theorem merging_iterator_merges_sharing :
    let m := MergingIterator.new bytewiseComparator fun i => Cursor.start (sharingChildren i)
    ((List.finRange 2).map fun i => (sharingChildren i).entries.length).sum ≤ 4 ∧
      Iterator.collect Iterator.next 4 (Iterator.seek m [2]) =
        some (merge Prod.fst fun i => (sharingChildren i).entries.filter fun e => [2] ≤ e.1) ∧
      Iterator.collect Iterator.next 4 (Iterator.seekToFirst m) =
        some (merge Prod.fst fun i => (sharingChildren i).entries) ∧
      Iterator.collect Iterator.prev 4 (Iterator.seekToLast m) =
        some (merge Prod.fst fun i => (sharingChildren i).entries).reverse := by
  intro m
  have hfuel : ((List.finRange 2).map fun i => (sharingChildren i).entries.length).sum ≤ 4 := by
    decide
  exact ⟨hfuel, merging_iterator_merges sharingChildren m (fun _ => rfl) [2] hfuel⟩

end P2KVS
