import Mathlib.Data.List.Induction
import P2KVS.Merge.Iterator

/-!
# Merging children whose operations may fail

A `MapIterator` moves over one sorted map: while its status is OK, every operation ends on the entry
that `Iterator.Op.Lands` names. `Faithful` is what a `MergingIterator` over such children with
disjoint keys keeps: going forward each child that has not failed stands on its first entry at or
past the current key, going backward on its last entry at or before it. `Faithful.apply` says that
the merging iterator then moves over the union of the maps in the same sense as its children over
theirs.

The exception is a `Prev()` that turns around when the `Seek` of a child fails and the `SeekToLast`
after it succeeds although the child has entries at or past the key (`FailsUnnoticed`): the source
takes the failure for a child without such entries, and the second operation clears the status.
Operations without such a failure are `Careful`.
-/

namespace P2KVS

open Sorted

namespace Iterator

variable {K V : Type*} [LinearOrder K]

/-- On an iterator that stood on `old` over a sorted map, the operation has to end on `found`. -/
def Op.Lands (op : Op K) (entries : List (K × V)) (old found : Option (K × V)) : Prop :=
  match op with
  | .seekToFirst => IsFirst (fun _ => True) entries found
  | .seekToLast => IsLast (fun _ => True) entries found
  | .seek target => IsFirst (fun k => target ≤ k) entries found
  | .next => ∃ e, old = some e ∧ IsFirst (fun k => e.1 < k) entries found
  | .prev => ∃ e, old = some e ∧ IsLast (fun k => k < e.1) entries found

/-- There is only one entry on which an operation can end. -/
theorem Op.Lands.unique {op : Op K} {m : SortedMap K V} {old a b : Option (K × V)}
    (ha : op.Lands m.entries old a) (hb : op.Lands m.entries old b) : a = b := by
  cases op with
  | seekToFirst => exact SortedMap.isFirst_unique m (P := fun _ => True) ha hb
  | seekToLast => exact SortedMap.isLast_unique m (P := fun _ => True) ha hb
  | seek target => exact SortedMap.isFirst_unique m (P := fun k => target ≤ k) ha hb
  | next =>
      obtain ⟨e, he, ha⟩ := ha
      obtain ⟨d, hd, hb⟩ := hb
      obtain rfl : e = d := Option.some.inj (he.symm.trans hd)
      exact SortedMap.isFirst_unique m ha hb
  | prev =>
      obtain ⟨e, he, ha⟩ := ha
      obtain ⟨d, hd, hb⟩ := hb
      obtain rfl : e = d := Option.some.inj (he.symm.trans hd)
      exact SortedMap.isLast_unique m ha hb

end Iterator

/-- An iterator over a sorted map. An operation may fail, which its status shows; otherwise it ends
where it has to. An iterator that has failed is not valid. -/
class MapIterator (ι : Type*) {K V : Type*} [LinearOrder K] [Iterator ι K V] where
  map : ι → SortedMap K V
  map_apply {it it' : ι} (op : Iterator.Op K) : Iterator.apply it op = some it' → map it' = map it
  lands {it it' : ι} (op : Iterator.Op K) : Iterator.apply it op = some it' →
    Iterator.status it' = .ok →
      op.Lands (map it).entries (Iterator.observe it) (Iterator.observe it')
  current {it : ι} {e : K × V} : Iterator.observe it = some e →
    Iterator.status it = .ok ∧ e ∈ (map it).entries

namespace MapIterator

variable {ι K V : Type*} [LinearOrder K] [Iterator ι K V] [MapIterator ι]

/-- The iterator is over `m` and, unless it has failed, stands on an entry that satisfies `Q`. -/
structure Stands (m : SortedMap K V) (Q : Option (K × V) → Prop) (it : ι) : Prop where
  map : map it = m
  position : Iterator.status it = .ok → Q (Iterator.observe it)

/-- An operation ends where it has to unless it fails. -/
theorem stands_apply {m : SortedMap K V} {it it' : ι} (op : Iterator.Op K) (hmap : map it = m)
    (h : Iterator.apply it op = some it') :
    Stands m (op.Lands m.entries (Iterator.observe it)) it' :=
  ⟨(map_apply op h).trans hmap, fun hok => hmap ▸ lands op h hok⟩

/-- `Next` from an entry ends on the first entry past it unless it fails. -/
theorem stands_next {m : SortedMap K V} {it : ι} {e : K × V} (hmap : map it = m)
    (he : Iterator.observe it = some e) :
    Stands m (IsFirst (fun k => e.1 < k) m.entries) (Iterator.next it) := by
  have hstands := stands_apply .next hmap
    (Iterator.apply_next_eq_some.mpr ⟨Iterator.valid_iff.mpr ⟨e, he⟩, rfl⟩)
  refine ⟨hstands.map, fun hok => ?_⟩
  obtain ⟨d, hd, hfirst⟩ := hstands.position hok
  obtain rfl : e = d := Option.some.inj (he.symm.trans hd)
  exact hfirst

/-- `Prev` from an entry ends on the last entry before it unless it fails. -/
theorem stands_prev {m : SortedMap K V} {it : ι} {e : K × V} (hmap : map it = m)
    (he : Iterator.observe it = some e) :
    Stands m (IsLast (fun k => k < e.1) m.entries) (Iterator.prev it) := by
  have hstands := stands_apply .prev hmap
    (Iterator.apply_prev_eq_some.mpr ⟨Iterator.valid_iff.mpr ⟨e, he⟩, rfl⟩)
  refine ⟨hstands.map, fun hok => ?_⟩
  obtain ⟨d, hd, hlast⟩ := hstands.position hok
  obtain rfl : e = d := Option.some.inj (he.symm.trans hd)
  exact hlast

/-- The `Seek(key)` of this iterator fails unnoticed: the `SeekToLast()` behind it succeeds, but
there are entries at or past the key. -/
def FailsUnnoticed (it : ι) (key : K) : Prop :=
  Iterator.status (Iterator.seek it key) ≠ .ok ∧
    Iterator.status (Iterator.seekToLast (Iterator.seek it key)) = .ok ∧
    ∃ e ∈ (map it : SortedMap K V).entries, key ≤ e.1

/-- Whether a failure is unnoticed can be computed. -/
instance (it : ι) (key : K) : Decidable (FailsUnnoticed it key) :=
  inferInstanceAs (Decidable (_ ∧ _ ∧ _))

end MapIterator

namespace MergingIterator

variable {n : Nat} {ι K V : Type*} [LinearOrder K]

section Search

/-- `best` is a qualifying candidate that no other one beats; `none` if no candidate qualifies. -/
def IsBest (ok : Fin n → Bool) (better : Fin n → Fin n → Bool) (candidates : List (Fin n)) :
    Option (Fin n) → Prop
  | none => ∀ i ∈ candidates, ok i = false
  | some c => ok c = true ∧ ∀ i ∈ candidates, ok i = true → better i c = false

/-- One iteration of a search loop takes its candidate into account. -/
theorem IsBest.improve {ok : Fin n → Bool} {better : Fin n → Fin n → Bool}
    (htrans : ∀ i j k, better i j = true → better j k = true → better i k = true)
    (hirrefl : ∀ i, better i i = false) {candidates : List (Fin n)} {best : Option (Fin n)}
    (h : IsBest ok better candidates best) (i : Fin n) :
    IsBest ok better (candidates ++ [i]) (improve ok better best i) := by
  have hsplit : ∀ {Q : Fin n → Prop}, (∀ j ∈ candidates, Q j) → Q i →
      ∀ j ∈ candidates ++ [i], Q j :=
    fun hold hnew => List.forall_mem_append.mpr ⟨hold, List.forall_mem_singleton.mpr hnew⟩
  unfold MergingIterator.improve
  cases hok : ok i with
  | false =>
      cases best with
      | none => exact hsplit h hok
      | some c => exact ⟨h.1, hsplit h.2 (fun htrue => by simp [hok] at htrue)⟩
  | true =>
      cases best with
      | none => exact ⟨hok, hsplit (fun j hj htrue => by simp [h j hj] at htrue) fun _ => hirrefl i⟩
      | some c =>
          simp only [if_true]
          cases hbetter : better i c with
          | false => exact ⟨h.1, hsplit h.2 fun _ => hbetter⟩
          | true =>
              -- whatever beat the new candidate would have beaten the old one
              refine ⟨hok, hsplit (fun j hj hokj => ?_) fun _ => hirrefl i⟩
              by_contra hne
              have hjc := htrans j i c (by simpa using hne) hbetter
              simp [h.2 j hj hokj] at hjc

/-- A search loop over a list of candidates finds the best one. -/
theorem foldl_improve (ok : Fin n → Bool) (better : Fin n → Fin n → Bool)
    (htrans : ∀ i j k, better i j = true → better j k = true → better i k = true)
    (hirrefl : ∀ i, better i i = false) (candidates : List (Fin n)) :
    IsBest ok better candidates (candidates.foldl (improve ok better) none) := by
  induction candidates using List.reverseRecOn with
  | nil => simp [IsBest]
  | append_singleton candidates i ih =>
      rw [List.foldl_append, List.foldl_cons, List.foldl_nil]
      exact ih.improve htrans hirrefl i

/-- `FindSmallest()` finds no child only if none is valid, and otherwise a valid child with the
smallest key. -/
theorem find_smallest_spec (cmp : Comparator K) (children : Fin n → IteratorWrapper ι K) :
    match findSmallest cmp children with
    | none => ∀ i, (children i).valid = false
    | some c => (children c).valid = true ∧
        ∀ i, (children i).valid = true → (children c).key ≤ (children i).key := by
  have h := foldl_improve (fun i => (children i).valid)
    (fun i j => decide (cmp.compare (children i).key (children j).key < 0))
    (fun i j k => by simpa [cmp.lt_iff] using lt_trans) (by simp [cmp.lt_iff]) (List.finRange n)
  rw [← findSmallest] at h
  split
  · rename_i heq
    simpa [heq, IsBest] using h
  · rename_i c heq
    simpa [heq, IsBest, cmp.lt_iff] using h

/-- `FindLargest()` finds no child only if none is valid, and otherwise a valid child with the
largest key. -/
theorem find_largest_spec (cmp : Comparator K) (children : Fin n → IteratorWrapper ι K) :
    match findLargest cmp children with
    | none => ∀ i, (children i).valid = false
    | some c => (children c).valid = true ∧
        ∀ i, (children i).valid = true → (children i).key ≤ (children c).key := by
  have h := foldl_improve (fun i => (children i).valid)
    (fun i j => decide (cmp.compare (children i).key (children j).key > 0))
    (fun i j k hij hjk => by
      simp only [gt_iff_lt, cmp.gt_iff, decide_eq_true_eq] at hij hjk ⊢
      exact hjk.trans hij)
    (by simp [cmp.gt_iff]) (List.finRange n).reverse
  rw [← findLargest] at h
  split
  · rename_i heq
    simpa [heq, IsBest] using h
  · rename_i c heq
    simpa [heq, IsBest, cmp.gt_iff] using h

end Search

variable {maps : Fin n → SortedMap K V}

/-- No other child holds the key of the current entry. -/
theorem key_ne_of_other (hdisjoint : SortedMap.Disjoint maps) {c i : Fin n} {e x : K × V}
    (he : e ∈ (maps c).entries) (hne : i ≠ c) (hx : x ∈ (maps i).entries) : e.1 ≠ x.1 := by
  intro heq
  exact hdisjoint c i hne.symm e.1 (List.mem_map.mpr ⟨e, he, rfl⟩)
    (List.mem_map.mpr ⟨x, hx, heq.symm⟩)

/-- A status loop ends with OK exactly when it started with OK and met nothing else. -/
theorem foldl_status {st : Fin n → Status} {candidates : List (Fin n)} {s : Status} :
    candidates.foldl (fun s i => if s = .ok then st i else s) s = .ok ↔
      s = .ok ∧ ∀ i ∈ candidates, st i = .ok := by
  induction candidates generalizing s with
  | nil => simp
  | cons i rest ih =>
      rw [List.foldl_cons, ih, List.forall_mem_cons]
      by_cases hs : s = .ok
      · simp [hs]
      · simp [hs]

variable [Iterator ι K V]

/-- `status()` is OK exactly when the status of every child is. -/
theorem status_ok_iff {m : MergingIterator n ι K} :
    m.status = .ok ↔ ∀ i, Iterator.status (m.children i).iter = .ok := by
  refine foldl_status.trans ?_
  simp only [true_and, List.mem_finRange, forall_const]
  rfl

variable [MapIterator ι]

open MapIterator

/-- An up-to-date child that is valid shows an entry of its map and has not failed. -/
theorem entry_of_valid {w : IteratorWrapper ι K} (hw : w.Cached) (hvalid : w.valid = true) :
    ∃ e, Iterator.observe w.iter = some e ∧ w.key = e.1 ∧ w.value = e.2 ∧
      Iterator.status w.iter = .ok ∧ e ∈ (map w.iter).entries := by
  obtain ⟨e, he⟩ := hw.valid_iff.mp hvalid
  obtain ⟨hkey, hvalue⟩ := hw.entry he
  exact ⟨e, he, hkey, hvalue, MapIterator.current he⟩

/-- What a walk keeps: the caches are up to date, the current child is valid, and every child that
has not failed stands next to the current key on the side of the direction. -/
structure Faithful (maps : Fin n → SortedMap K V) (m : MergingIterator n ι K) : Prop where
  cached : ∀ i, (m.children i).Cached
  map : ∀ i, map (m.children i).iter = maps i
  valid : ∀ c, m.current = some c → (m.children c).valid = true
  forward : ∀ c, m.current = some c → m.direction = .forward → ∀ i,
    Stands (maps i) (IsFirst (fun k => (m.children c).key ≤ k) (maps i).entries)
      (m.children i).iter
  reverse : ∀ c, m.current = some c → m.direction = .reverse → ∀ i,
    Stands (maps i) (IsLast (fun k => k ≤ (m.children c).key) (maps i).entries)
      (m.children i).iter

/-- Without a current child there is nothing to keep beyond the caches. -/
theorem faithful_of_none {m : MergingIterator n ι K} (hcached : ∀ i, (m.children i).Cached)
    (hmap : ∀ i, MapIterator.map (m.children i).iter = maps i) (hcurrent : m.current = none) :
    Faithful maps m := by
  have hnone : ∀ c, m.current ≠ some c := fun c hc => by simp [hcurrent] at hc
  exact ⟨hcached, hmap, fun c hc => absurd hc (hnone c), fun c hc => absurd hc (hnone c),
    fun c hc => absurd hc (hnone c)⟩

omit [MapIterator ι] in
/-- Nothing stands in the union where no child that is up to date stands on anything. -/
theorem no_entry_of_not_valid (hdisjoint : SortedMap.Disjoint maps) {P : K → Prop}
    {children : Fin n → IteratorWrapper ι K} (hcached : ∀ i, (children i).Cached)
    (hvalid : ∀ i, (children i).valid = false)
    (hnone : ∀ i, Iterator.observe (children i).iter = none → ∀ x ∈ (maps i).entries, ¬ P x.1) :
    ∀ x ∈ (SortedMap.union maps).entries, ¬ P x.1 := by
  intro x hx
  obtain ⟨i, hi⟩ := (SortedMap.mem_entries_union hdisjoint x).mp hx
  refine hnone i (Option.eq_none_iff_forall_ne_some.mpr fun e he => ?_) x hi
  exact absurd ((hcached i).valid_iff.mpr ⟨e, he⟩) (by simp [hvalid i])

section Settling

variable [Inhabited K] [Inhabited V]

/-- Going forward: if every child stands on its first entry satisfying an upward-closed predicate
unless it has failed, the walk stays faithful, and without failures the iterator stands on the first
such entry of all children. -/
theorem faithful_settleForward (hdisjoint : SortedMap.Disjoint maps) (m : MergingIterator n ι K)
    {children : Fin n → IteratorWrapper ι K} {P : K → Prop} (hup : ∀ a b, P a → a ≤ b → P b)
    (hcached : ∀ i, (children i).Cached)
    (hstands : ∀ i, Stands (maps i) (IsFirst P (maps i).entries) (children i).iter) :
    Faithful maps (m.settleForward children) ∧
      ((m.settleForward children).status = .ok →
        IsFirst P (SortedMap.union maps).entries
          (Iterator.observe (m.settleForward children))) := by
  have hspec := find_smallest_spec m.comparator children
  have hcurrent : (m.settleForward children).current = findSmallest m.comparator children := rfl
  cases hfound : findSmallest m.comparator children with
  | none =>
      rw [hfound] at hspec hcurrent
      refine ⟨faithful_of_none hcached (fun i => (hstands i).map) hcurrent, fun hok => ?_⟩
      rw [observe_of_none hcurrent]
      refine no_entry_of_not_valid hdisjoint hcached hspec fun i hnone => ?_
      have hchild := (hstands i).position (status_ok_iff.mp hok i)
      rwa [hnone] at hchild
  | some c =>
      rw [hfound] at hspec hcurrent
      obtain ⟨hvalid, hsmallest⟩ := hspec
      obtain ⟨e, he, hkey, hvalue, hstatus, _⟩ := entry_of_valid (hcached c) hvalid
      have hchild := (hstands c).position hstatus
      rw [he] at hchild
      -- no child that has not failed has an entry satisfying `P` below the current one
      have hleast : ∀ i, Iterator.status (children i).iter = .ok →
          ∀ x ∈ (maps i).entries, P x.1 → e.1 ≤ x.1 := by
        intro i hi x hx hp
        refine ((hstands i).position hi).le_of_le (fun d hd => ?_) hx hp
        have hle := hsmallest i ((hcached i).valid_iff.mpr ⟨d, hd⟩)
        rwa [hkey, ((hcached i).entry hd).1] at hle
      have hself : ∀ {c'}, (m.settleForward children).current = some c' → c' = c :=
        fun hc' => (Option.some.inj (hcurrent.symm.trans hc')).symm
      refine ⟨⟨hcached, fun i => (hstands i).map, ?_, ?_, ?_⟩, fun hok => ?_⟩
      · intro c' hc'
        rw [hself hc']
        exact hvalid
      · intro c' hc' _ i
        refine ⟨(hstands i).map, fun hi => ((hstands i).position hi).congr fun x hx => ?_⟩
        show P x.1 ↔ (children c').key ≤ x.1
        rw [hself hc', hkey]
        exact ⟨hleast i hi x hx, hup e.1 x.1 hchild.2.1⟩
      · intro c' _ hdir
        cases hdir
      · have hobserve : Iterator.observe (m.settleForward children) = some e :=
          (observe_of_current hcurrent).trans (congrArg some (Prod.ext hkey hvalue))
        rw [hobserve]
        refine ⟨(SortedMap.mem_entries_union hdisjoint e).mpr ⟨c, hchild.1⟩, hchild.2.1, ?_⟩
        intro x hx hp
        obtain ⟨i, hi⟩ := (SortedMap.mem_entries_union hdisjoint x).mp hx
        exact hleast i (status_ok_iff.mp hok i) x hi hp

/-- Going backward: the mirror image of `faithful_settleForward`. -/
theorem faithful_settleReverse (hdisjoint : SortedMap.Disjoint maps) (m : MergingIterator n ι K)
    {children : Fin n → IteratorWrapper ι K} {P : K → Prop} (hdown : ∀ a b, P a → b ≤ a → P b)
    (hcached : ∀ i, (children i).Cached)
    (hstands : ∀ i, Stands (maps i) (IsLast P (maps i).entries) (children i).iter) :
    Faithful maps (m.settleReverse children) ∧
      ((m.settleReverse children).status = .ok →
        IsLast P (SortedMap.union maps).entries
          (Iterator.observe (m.settleReverse children))) := by
  have hspec := find_largest_spec m.comparator children
  have hcurrent : (m.settleReverse children).current = findLargest m.comparator children := rfl
  cases hfound : findLargest m.comparator children with
  | none =>
      rw [hfound] at hspec hcurrent
      refine ⟨faithful_of_none hcached (fun i => (hstands i).map) hcurrent, fun hok => ?_⟩
      rw [observe_of_none hcurrent]
      refine no_entry_of_not_valid hdisjoint hcached hspec fun i hnone => ?_
      have hchild := (hstands i).position (status_ok_iff.mp hok i)
      rwa [hnone] at hchild
  | some c =>
      rw [hfound] at hspec hcurrent
      obtain ⟨hvalid, hlargest⟩ := hspec
      obtain ⟨e, he, hkey, hvalue, hstatus, _⟩ := entry_of_valid (hcached c) hvalid
      have hchild := (hstands c).position hstatus
      rw [he] at hchild
      -- no child that has not failed has an entry satisfying `P` above the current one
      have hgreatest : ∀ i, Iterator.status (children i).iter = .ok →
          ∀ x ∈ (maps i).entries, P x.1 → x.1 ≤ e.1 := by
        intro i hi x hx hp
        refine ((hstands i).position hi).le_of_le (fun d hd => ?_) hx hp
        have hle := hlargest i ((hcached i).valid_iff.mpr ⟨d, hd⟩)
        rwa [hkey, ((hcached i).entry hd).1] at hle
      have hself : ∀ {c'}, (m.settleReverse children).current = some c' → c' = c :=
        fun hc' => (Option.some.inj (hcurrent.symm.trans hc')).symm
      refine ⟨⟨hcached, fun i => (hstands i).map, ?_, ?_, ?_⟩, fun hok => ?_⟩
      · intro c' hc'
        rw [hself hc']
        exact hvalid
      · intro c' _ hdir
        cases hdir
      · intro c' hc' _ i
        refine ⟨(hstands i).map, fun hi => ((hstands i).position hi).congr fun x hx => ?_⟩
        show P x.1 ↔ x.1 ≤ (children c').key
        rw [hself hc', hkey]
        exact ⟨hgreatest i hi x hx, hdown e.1 x.1 hchild.2.1⟩
      · have hobserve : Iterator.observe (m.settleReverse children) = some e :=
          (observe_of_current hcurrent).trans (congrArg some (Prod.ext hkey hvalue))
        rw [hobserve]
        refine ⟨(SortedMap.mem_entries_union hdisjoint e).mpr ⟨c, hchild.1⟩, hchild.2.1, ?_⟩
        intro x hx hp
        obtain ⟨i, hi⟩ := (SortedMap.mem_entries_union hdisjoint x).mp hx
        exact hgreatest i (status_ok_iff.mp hok i) x hi hp

end Settling

/-- A child that turns forward at the key of another child's entry stands on its first entry past
that key unless it fails. -/
theorem stands_turnForward (cmp : Comparator K) {k : K} {m : SortedMap K V}
    {w : IteratorWrapper ι K} (hmap : map w.iter = m) (hfree : ∀ x ∈ m.entries, k ≠ x.1) :
    (turnForward cmp k w).Cached ∧
      Stands m (IsFirst (fun a => k < a) m.entries) (turnForward cmp k w).iter := by
  have hcached : (w.seek k).Cached := IteratorWrapper.cached_update _ _
  have hstands : Stands m (IsFirst (fun a => k ≤ a) m.entries) (w.seek k).iter :=
    stands_apply (.seek k) hmap rfl
  -- the sought child cannot stand on the key itself, so the extra step is not taken
  have hstay : turnForward cmp k w = w.seek k := by
    refine turnForward_eq_seek cmp fun hvalid heq => ?_
    obtain ⟨d, _, hkey, _, _, hmem⟩ := entry_of_valid hcached hvalid
    exact hfree d (hstands.map ▸ hmem) (heq.trans hkey)
  rw [hstay]
  refine ⟨hcached, hstands.map, fun hok => (hstands.position hok).congr fun x hx => ?_⟩
  exact ⟨fun hle => lt_of_le_of_ne hle (hfree x hx), le_of_lt⟩

/-- A child that turns backward at `k` stands on its last entry before `k` unless it fails or a
failure goes unnoticed. -/
theorem stands_turnReverse {k : K} {m : SortedMap K V} {w : IteratorWrapper ι K}
    (hmap : map w.iter = m) (hnoticed : ¬ FailsUnnoticed w.iter k) :
    (turnReverse k w).Cached ∧
      Stands m (IsLast (fun a => a < k) m.entries) (turnReverse k w).iter := by
  have hcached : (w.seek k).Cached := IteratorWrapper.cached_update _ _
  have hstands : Stands m (IsFirst (fun a => k ≤ a) m.entries) (w.seek k).iter :=
    stands_apply (.seek k) hmap rfl
  unfold turnReverse
  by_cases hvalid : (w.seek k).valid = true
  · obtain ⟨d, hd, _, _, hok, _⟩ := entry_of_valid hcached hvalid
    have hfirst := hstands.position hok
    rw [hd] at hfirst
    have hprev := stands_prev hstands.map hd
    simp only [hvalid, if_true]
    refine ⟨IteratorWrapper.cached_update _ _, hprev.map, fun hok' => ?_⟩
    refine (hprev.position hok').congr fun x hx => ⟨fun hlt => ?_, fun hlt => ?_⟩
    · by_contra hge
      exact absurd (hfirst.2.2 x hx (not_lt.mp hge)) (not_le.mpr hlt)
    · exact hlt.trans_le hfirst.2.1
  · have hlast : Stands m (IsLast (fun _ => True) m.entries) (w.seek k).seekToLast.iter :=
      stands_apply .seekToLast hstands.map rfl
    simp only [hvalid]
    refine ⟨IteratorWrapper.cached_update _ _, hlast.map, fun hok => ?_⟩
    refine (hlast.position hok).congr fun x hx => ⟨fun _ => ?_, fun _ => trivial⟩
    -- either `Seek` succeeded and found nothing, or it failed and there is nothing to find
    by_cases hseek : Iterator.status (w.seek k).iter = .ok
    · have hnone : Iterator.observe (w.seek k).iter = none :=
        Option.eq_none_iff_forall_ne_some.mpr fun e he => hvalid (hcached.valid_iff.mpr ⟨e, he⟩)
      have hfirst := hstands.position hseek
      rw [hnone] at hfirst
      exact not_le.mp (hfirst x hx)
    · by_contra hge
      exact hnoticed ⟨hseek, hok, x, hmap ▸ hx, not_lt.mp hge⟩

/-- A child whose failure goes unnoticed stands at or past `k`, without any sign of it. -/
theorem turnReverse_unnoticed {k : K} {w : IteratorWrapper ι K} (h : FailsUnnoticed w.iter k) :
    (turnReverse k w).Cached ∧
      ∃ e, Iterator.observe (turnReverse k w).iter = some e ∧ k ≤ e.1 := by
  obtain ⟨hfail, hok, x, hx, hle⟩ := h
  have hcached : (w.seek k).Cached := IteratorWrapper.cached_update _ _
  have hvalid : ¬ (w.seek k).valid = true := by
    intro hvalid
    obtain ⟨_, _, _, _, hstatus, _⟩ := entry_of_valid hcached hvalid
    exact hfail hstatus
  have hturn : turnReverse k w = (w.seek k).seekToLast := by
    simp [turnReverse, hvalid]
  have hmap : map (w.seek k).iter = map w.iter := map_apply (.seek k) rfl
  have hstands := stands_apply .seekToLast hmap rfl
  have hlast := hstands.position hok
  rw [hturn]
  refine ⟨IteratorWrapper.cached_update _ _, ?_⟩
  show ∃ e, Iterator.observe (Iterator.seekToLast (w.seek k).iter) = some e ∧ k ≤ e.1
  cases hfound : Iterator.observe (Iterator.seekToLast (w.seek k).iter) with
  | none =>
      rw [hfound] at hlast
      exact absurd trivial (hlast x hx)
  | some e =>
      rw [hfound] at hlast
      exact ⟨e, rfl, hle.trans (hlast.2.2 x hx trivial)⟩

/-- No failure goes unnoticed when the iterator turns around for `Prev()`. -/
def Careful (m : MergingIterator n ι K) : Iterator.Op K → Prop
  | .prev => ∀ c, m.current = some c → m.direction = .forward →
      ∀ i, i ≠ c → ¬ FailsUnnoticed (m.children i).iter (m.children c).key
  | _ => True

/-- Whether an operation is careful can be computed. -/
instance (m : MergingIterator n ι K) : (op : Iterator.Op K) → Decidable (Careful m op)
  | .prev => inferInstanceAs (Decidable (∀ c, m.current = some c → m.direction = .forward →
      ∀ i, i ≠ c → ¬ FailsUnnoticed (m.children i).iter (m.children c).key))
  | .seekToFirst | .seekToLast | .seek _ | .next => inferInstanceAs (Decidable True)

section Walks

variable [Inhabited K] [Inhabited V] {m : MergingIterator n ι K} {c : Fin n}

/-- `Next()` from a valid position keeps the walk faithful, and without failures it leads to the
first key past the current one. -/
theorem Faithful.next (hdisjoint : SortedMap.Disjoint maps) (h : Faithful maps m)
    (hc : m.current = some c) :
    Faithful maps m.next ∧ (m.next.status = .ok →
      IsFirst (fun k => (m.children c).key < k) (SortedMap.union maps).entries
        (Iterator.observe m.next)) := by
  obtain ⟨e, he, hkey, _, _, hmem⟩ := entry_of_valid (h.cached c) (h.valid c hc)
  rw [h.map c] at hmem
  simp only [MergingIterator.next, hc]
  -- the non-current children, in place or re-positioned, stand past the current key
  have hothers : ∀ i ≠ c, (if m.direction ≠ .forward ∧ i ≠ c then
        turnForward m.comparator (m.children c).key (m.children i) else m.children i).Cached ∧
      Stands (maps i) (IsFirst (fun k => (m.children c).key < k) (maps i).entries)
        (if m.direction ≠ .forward ∧ i ≠ c then
          turnForward m.comparator (m.children c).key (m.children i)
          else m.children i).iter := by
    intro i hi
    have hfree : ∀ x ∈ (maps i).entries, (m.children c).key ≠ x.1 :=
      fun x hx => hkey ▸ key_ne_of_other hdisjoint hmem hi hx
    cases hd : m.direction with
    | forward =>
        simp only [ne_eq, not_true_eq_false, false_and, if_false]
        have hstands := h.forward c hc hd i
        refine ⟨h.cached i, hstands.map, fun hi => (hstands.position hi).congr fun x hx => ?_⟩
        exact ⟨fun hle => lt_of_le_of_ne hle (hfree x hx), le_of_lt⟩
    | reverse =>
        simp only [ne_eq, reduceCtorEq, not_false_eq_true, hi, and_self, if_true]
        exact stands_turnForward m.comparator (h.map i) hfree
  refine faithful_settleForward hdisjoint m (fun _ _ hlt hab => hlt.trans_le hab) ?_ ?_
  · refine (Function.forall_update_iff _ fun _ => IteratorWrapper.Cached).mpr
      ⟨IteratorWrapper.cached_update _ _, fun i hi => (hothers i hi).1⟩
  · refine (Function.forall_update_iff _ fun i (w : IteratorWrapper ι K) =>
      Stands (maps i) (IsFirst (fun k => (m.children c).key < k) (maps i).entries) w.iter).mpr
      ⟨?_, fun i hi => (hothers i hi).2⟩
    simp only [ne_eq, not_true_eq_false, and_false, if_false, hkey]
    exact stands_next (h.map c) he

/-- A careful `Prev()` from a valid position keeps the walk faithful, and without failures it leads
to the last key before the current one. -/
theorem Faithful.prev (hdisjoint : SortedMap.Disjoint maps) (h : Faithful maps m)
    (hc : m.current = some c) (hcareful : Careful m .prev) :
    Faithful maps m.prev ∧ (m.prev.status = .ok →
      IsLast (fun k => k < (m.children c).key) (SortedMap.union maps).entries
        (Iterator.observe m.prev)) := by
  obtain ⟨e, he, hkey, _, _, hmem⟩ := entry_of_valid (h.cached c) (h.valid c hc)
  rw [h.map c] at hmem
  have hnoticed := hcareful c hc
  simp only [MergingIterator.prev, hc]
  -- the non-current children, in place or re-positioned, stand before the current key
  have hothers : ∀ i ≠ c, (if m.direction ≠ .reverse ∧ i ≠ c then
        turnReverse (m.children c).key (m.children i) else m.children i).Cached ∧
      Stands (maps i) (IsLast (fun k => k < (m.children c).key) (maps i).entries)
        (if m.direction ≠ .reverse ∧ i ≠ c then
          turnReverse (m.children c).key (m.children i) else m.children i).iter := by
    intro i hi
    cases hd : m.direction with
    | reverse =>
        simp only [ne_eq, not_true_eq_false, false_and, if_false]
        have hstands := h.reverse c hc hd i
        refine ⟨h.cached i, hstands.map, fun hok => (hstands.position hok).congr fun x hx => ?_⟩
        have hne : x.1 ≠ (m.children c).key :=
          hkey ▸ (key_ne_of_other hdisjoint hmem hi hx).symm
        exact ⟨fun hle => lt_of_le_of_ne hle hne, le_of_lt⟩
    | forward =>
        simp only [ne_eq, reduceCtorEq, not_false_eq_true, hi, and_self, if_true]
        exact stands_turnReverse (h.map i) (hnoticed hd i hi)
  refine faithful_settleReverse hdisjoint m (fun _ _ hlt hab => hab.trans_lt hlt) ?_ ?_
  · refine (Function.forall_update_iff _ fun _ => IteratorWrapper.Cached).mpr
      ⟨IteratorWrapper.cached_update _ _, fun i hi => (hothers i hi).1⟩
  · refine (Function.forall_update_iff _ fun i (w : IteratorWrapper ι K) =>
      Stands (maps i) (IsLast (fun k => k < (m.children c).key) (maps i).entries) w.iter).mpr
      ⟨?_, fun i hi => (hothers i hi).2⟩
    simp only [ne_eq, not_true_eq_false, and_false, if_false, hkey]
    exact stands_prev (h.map c) he

/-- A `Prev()` that is not careful leads to a key at or past the current one. -/
theorem prev_of_not_careful (hcareful : ¬ Careful m .prev) (hc : m.current = some c) :
    ∃ e, Iterator.observe m.prev = some e ∧ (m.children c).key ≤ e.1 := by
  simp only [Careful, not_forall, not_not] at hcareful
  obtain ⟨c', hc', hd, i, hi, hfails⟩ := hcareful
  obtain rfl : c = c' := Option.some.inj (hc.symm.trans hc')
  obtain ⟨hcached, e, he, hle⟩ := turnReverse_unnoticed hfails
  have hprev : m.prev = m.settleReverse (Function.update
      (fun i => if m.direction ≠ .reverse ∧ i ≠ c then
        turnReverse (m.children c).key (m.children i) else m.children i) c
      (m.children c).prev) := by
    simp [MergingIterator.prev, hc]
  have hchild : (m.prev.children i) = turnReverse (m.children c).key (m.children i) := by
    rw [hprev]
    simp [settleReverse, hd, hi]
  rw [← hchild] at hcached he
  have hvalid : (m.prev.children i).valid = true := hcached.valid_iff.mpr ⟨e, he⟩
  have hcurrent : m.prev.current = findLargest m.comparator m.prev.children := by
    rw [hprev]
    rfl
  have hspec := find_largest_spec m.comparator m.prev.children
  cases hfound : findLargest m.comparator m.prev.children with
  | none =>
      rw [hfound] at hspec
      simp [hspec i] at hvalid
  | some d =>
      rw [hfound] at hspec hcurrent
      refine ⟨_, observe_of_current hcurrent, ?_⟩
      calc (m.children c).key ≤ e.1 := hle
        _ = (m.prev.children i).key := (hcached.entry he).1.symm
        _ ≤ (m.prev.children d).key := hspec.2 i hvalid

/-- A careful operation keeps the walk faithful, and without failures it ends where the same
operation ends over the union of the maps. -/
theorem Faithful.apply (hdisjoint : SortedMap.Disjoint maps) (h : Faithful maps m)
    {m' : MergingIterator n ι K} (op : Iterator.Op K) (hcareful : Careful m op)
    (hstep : Iterator.apply m op = some m') :
    Faithful maps m' ∧ (Iterator.status m' = .ok →
      op.Lands (SortedMap.union maps).entries (Iterator.observe m) (Iterator.observe m')) := by
  cases op with
  | seekToFirst =>
      cases hstep
      exact faithful_settleForward hdisjoint m (P := fun _ => True) (fun _ _ _ _ => trivial)
        (fun i => IteratorWrapper.cached_update _ _)
        fun i => stands_apply .seekToFirst (h.map i) rfl
  | seekToLast =>
      cases hstep
      exact faithful_settleReverse hdisjoint m (P := fun _ => True) (fun _ _ _ _ => trivial)
        (fun i => IteratorWrapper.cached_update _ _)
        fun i => stands_apply .seekToLast (h.map i) rfl
  | seek target =>
      cases hstep
      exact faithful_settleForward hdisjoint m (P := fun k => target ≤ k)
        (fun _ _ hle hab => hle.trans hab) (fun i => IteratorWrapper.cached_update _ _)
        fun i => stands_apply (.seek target) (h.map i) rfl
  | next =>
      obtain ⟨hvalid, rfl⟩ := Iterator.apply_next_eq_some.mp hstep
      obtain ⟨c, hc⟩ := Option.isSome_iff_exists.mp hvalid
      obtain ⟨hfaithful, hfirst⟩ := h.next hdisjoint hc
      exact ⟨hfaithful, fun hok => ⟨_, observe_of_current hc, hfirst hok⟩⟩
  | prev =>
      obtain ⟨hvalid, rfl⟩ := Iterator.apply_prev_eq_some.mp hstep
      obtain ⟨c, hc⟩ := Option.isSome_iff_exists.mp hvalid
      obtain ⟨hfaithful, hlast⟩ := h.prev hdisjoint hc hcareful
      exact ⟨hfaithful, fun hok => ⟨_, observe_of_current hc, hlast hok⟩⟩

omit [MapIterator ι] [Inhabited V] in
/-- A fresh iterator over children that are not valid yet is not valid either. -/
theorem current_new (cmp : Comparator K) {iters : Fin n → ι}
    (hvalid : ∀ i, Iterator.valid (iters i) = false) : (new cmp iters).current = none := by
  show findSmallest cmp (fun i => IteratorWrapper.set (iters i)) = none
  have hspec := find_smallest_spec cmp fun i => IteratorWrapper.set (iters i)
  cases hfound : findSmallest cmp fun i => IteratorWrapper.set (iters i) with
  | none => rfl
  | some c =>
      rw [hfound] at hspec
      exact absurd hspec.1 (by simp [IteratorWrapper.set, IteratorWrapper.update, hvalid])

omit [Inhabited V] in
/-- A fresh iterator over children that are not valid yet is faithful. -/
theorem faithful_new (cmp : Comparator K) {iters : Fin n → ι}
    (hmap : ∀ i, MapIterator.map (iters i) = maps i)
    (hvalid : ∀ i, Iterator.valid (iters i) = false) : Faithful maps (new cmp iters) :=
  faithful_of_none (fun _ => IteratorWrapper.cached_update _ _) hmap (current_new cmp hvalid)

end Walks

end MergingIterator

end P2KVS
