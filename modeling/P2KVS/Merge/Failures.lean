import P2KVS.Foundation.Transition
import P2KVS.Merge.Refinement

/-!
# Children that fail

A `FallibleCursor` is an iterator whose operations may fail: a failure leaves it invalid with a
status that is not OK until the next positioning operation. `merging_iterator_lands` says where
`Next()` and `Prev()` of a `MergingIterator` over such children lead while `status()` is OK.
`Next()` is right. A `Prev()` that turns around is wrong exactly when the `Seek` of a child fails
unnoticed.
-/

namespace P2KVS

open Sorted Transition

/-- A cursor whose operations may fail; `plan i` is the outcome of its operation number `i`, and
`count` of them have been made. -/
structure FallibleCursor (K V : Type*) [LT K] where
  cursor : Cursor K V
  status : Status
  plan : Nat → Status
  count : Nat

namespace FallibleCursor

variable {K V : Type*} [LinearOrder K]

/-- A cursor that has not been positioned yet. -/
def start (m : SortedMap K V) (plan : Nat → Status) : FallibleCursor K V :=
  ⟨.start m, .ok, plan, 0⟩

/-- The entry under the cursor; none after a failure. -/
def current? (c : FallibleCursor K V) : Option (K × V) :=
  if c.status = .ok then c.cursor.current? else none

/-- Make one operation, which moves the cursor if it does not fail. -/
def attempt (c : FallibleCursor K V) (cursor : Cursor K V) : FallibleCursor K V :=
  { c with
    cursor := if c.plan c.count = .ok then cursor else c.cursor
    status := c.plan c.count
    count := c.count + 1 }

/-- Make one relative movement; a failed cursor stays as it is. -/
def move (c : FallibleCursor K V) (cursor : Cursor K V) : FallibleCursor K V :=
  if c.status = .ok then c.attempt cursor else c

end FallibleCursor

/-- A fallible cursor follows the iterator contract. -/
instance {K V : Type*} [LinearOrder K] [Inhabited K] [Inhabited V] :
    Iterator (FallibleCursor K V) K V where
  valid := fun c => c.current?.isSome
  key := fun c => (c.current?.map Prod.fst).getD default
  value := fun c => (c.current?.map Prod.snd).getD default
  status := FallibleCursor.status
  seekToFirst := fun c => c.attempt c.cursor.seekToFirst
  seekToLast := fun c => c.attempt c.cursor.seekToLast
  seek := fun c target => c.attempt (c.cursor.seek target)
  next := fun c => c.move c.cursor.next
  prev := fun c => c.move c.cursor.prev

namespace FallibleCursor

variable {K V : Type*} [LinearOrder K]

/-- A fallible cursor shows the entry under it unless it has failed. -/
theorem observe_fallible [Inhabited K] [Inhabited V] (c : FallibleCursor K V) :
    Iterator.observe c = c.current? :=
  Iterator.observe_eq rfl rfl rfl

variable {c : FallibleCursor K V}

/-- A cursor with an entry has not failed. -/
theorem status_of_current {e : K × V} (h : c.current? = some e) :
    c.status = .ok ∧ c.cursor.current? = some e := by
  unfold current? at h
  split_ifs at h with hok
  exact ⟨hok, h⟩

/-- A movement of a cursor that stands on an entry is an operation. -/
theorem move_of_current {e : K × V} (h : c.current? = some e) (cursor : Cursor K V) :
    c.move cursor = c.attempt cursor :=
  if_pos (status_of_current h).1

/-- An operation stays on the map. -/
theorem attempt_map {cursor : Cursor K V} (h : cursor.map = c.cursor.map) :
    (c.attempt cursor).cursor.map = c.cursor.map := by
  show (if c.plan c.count = .ok then cursor else c.cursor).map = c.cursor.map
  split_ifs
  · exact h
  · rfl

/-- An operation that does not fail moves the cursor. -/
theorem attempt_current {cursor : Cursor K V} (h : (c.attempt cursor).status = .ok) :
    (c.attempt cursor).current? = cursor.current? := by
  have hmoved : (c.attempt cursor).cursor = cursor := if_pos h
  rw [current?, if_pos h, hmoved]

end FallibleCursor

open FallibleCursor in
/-- A fallible cursor ends every operation that does not fail where it has to. -/
instance {K V : Type*} [LinearOrder K] [Inhabited K] [Inhabited V] :
    MapIterator (FallibleCursor K V) where
  map := fun c => c.cursor.map
  map_apply := by
    intro c c' op h
    cases op with
    | seekToFirst | seekToLast | seek =>
        cases h
        exact attempt_map rfl
    | next =>
        obtain ⟨hvalid, rfl⟩ := Iterator.apply_next_eq_some.mp h
        obtain ⟨e, he⟩ := Option.isSome_iff_exists.mp hvalid
        show (c.move c.cursor.next).cursor.map = _
        rw [move_of_current he]
        exact attempt_map c.cursor.next_map
    | prev =>
        obtain ⟨hvalid, rfl⟩ := Iterator.apply_prev_eq_some.mp h
        obtain ⟨e, he⟩ := Option.isSome_iff_exists.mp hvalid
        show (c.move c.cursor.prev).cursor.map = _
        rw [move_of_current he]
        exact attempt_map c.cursor.prev_map
  lands := by
    intro c c' op h hok
    rw [observe_fallible, observe_fallible]
    cases op with
    | seekToFirst =>
        cases h
        exact (attempt_current hok).symm ▸ c.cursor.isFirst_seekToFirst
    | seekToLast =>
        cases h
        exact (attempt_current hok).symm ▸ c.cursor.isLast_seekToLast
    | seek target =>
        cases h
        exact (attempt_current hok).symm ▸ c.cursor.isFirst_seek target
    | next =>
        obtain ⟨hvalid, rfl⟩ := Iterator.apply_next_eq_some.mp h
        obtain ⟨e, he⟩ := Option.isSome_iff_exists.mp hvalid
        have hmove : Iterator.next c = c.attempt c.cursor.next := move_of_current he _
        rw [hmove] at hok ⊢
        exact ⟨e, he, (attempt_current hok).symm ▸ Cursor.isFirst_next (status_of_current he).2⟩
    | prev =>
        obtain ⟨hvalid, rfl⟩ := Iterator.apply_prev_eq_some.mp h
        obtain ⟨e, he⟩ := Option.isSome_iff_exists.mp hvalid
        have hmove : Iterator.prev c = c.attempt c.cursor.prev := move_of_current he _
        rw [hmove] at hok ⊢
        exact ⟨e, he, (attempt_current hok).symm ▸ Cursor.isLast_prev (status_of_current he).2⟩
  current := by
    intro c e he
    obtain ⟨hok, hcursor⟩ := status_of_current ((observe_fallible c).symm.trans he)
    exact ⟨hok, Cursor.mem_of_current hcursor⟩

namespace MergingIterator

variable {n : Nat} {K V : Type*} [LinearOrder K] [Inhabited K] [Inhabited V]
  {maps : Fin n → SortedMap K V}

/-- The iterator over children that fail by the given plans, under any operations. -/
def walk (cmp : Comparator K) (maps : Fin n → SortedMap K V) (plans : Fin n → Nat → Status) :
    System (MergingIterator n (FallibleCursor K V) K) (Iterator.Op K) where
  init := new cmp fun i => .start (maps i) (plans i)
  step := Iterator.apply

/-- A walk without unnoticed failures is faithful. -/
theorem faithful_reachable {cmp : Comparator K} {plans : Fin n → Nat → Status}
    {m : MergingIterator n (FallibleCursor K V) K} (hdisjoint : SortedMap.Disjoint maps)
    (h : (walk cmp maps plans).Reachable Careful m) : Faithful maps m := by
  have hfresh : ∀ i, (FallibleCursor.start (maps i) (plans i)).current?.isSome = false := by
    simp [FallibleCursor.start, FallibleCursor.current?, Cursor.start, Cursor.current?]
  have hinit : Faithful maps (new cmp fun i => FallibleCursor.start (maps i) (plans i)) :=
    faithful_new cmp (fun _ => rfl) hfresh
  exact h.invariant hinit
    fun _ hfaithful hcareful hstep => (hfaithful.apply hdisjoint _ hcareful hstep).1

end MergingIterator

/-- Over children with disjoint keys whose operations fail at any moments: after `Next()` from a
valid position, if `status()` is OK, the iterator is on the smallest key past the old one of all
children, or not valid if there is none. After `Prev()` with `status()` OK it is on the largest key
before the old one exactly when no `Seek` failed unnoticed in this step, provided none did in the
steps before. -/
theorem merging_iterator_lands {n : Nat} {K V : Type*} [LinearOrder K] [Inhabited K] [Inhabited V]
    (cmp : Comparator K) (maps : Fin n → SortedMap K V) (hdisjoint : SortedMap.Disjoint maps)
    (plans : Fin n → Nat → Status) {m m' : MergingIterator n (FallibleCursor K V) K}
    (h : (MergingIterator.walk cmp maps plans).Reachable MergingIterator.Careful m)
    (hok : Iterator.status m' = .ok) :
    (Iterator.apply m .next = some m' →
      IsFirst (fun k => Iterator.key m < k) (SortedMap.union maps).entries
        (Iterator.observe m')) ∧
    (Iterator.apply m .prev = some m' →
      (IsLast (fun k => k < Iterator.key m) (SortedMap.union maps).entries
        (Iterator.observe m') ↔ MergingIterator.Careful m .prev)) := by
  have hfaithful := MergingIterator.faithful_reachable hdisjoint h
  have hkey : ∀ e, Iterator.observe m = some e → e.1 = Iterator.key m := by
    intro e he
    exact (congrArg Prod.fst (Option.some.inj (Option.ite_none_right_eq_some.mp he).2)).symm
  constructor
  · intro hstep
    obtain ⟨e, he, hfirst⟩ := (hfaithful.apply hdisjoint .next trivial hstep).2 hok
    exact hkey e he ▸ hfirst
  · intro hstep
    constructor
    · intro hlast
      by_contra hcareful
      obtain ⟨hvalid, rfl⟩ := Iterator.apply_prev_eq_some.mp hstep
      obtain ⟨c, hc⟩ := Option.isSome_iff_exists.mp hvalid
      obtain ⟨e, he, hle⟩ := MergingIterator.prev_of_not_careful hcareful hc
      have hobserve : Iterator.observe (Iterator.prev m) = some e := he
      rw [hobserve, ← hkey _ (MergingIterator.observe_of_current hc)] at hlast
      exact absurd hle (not_le.mpr hlast.2.1)
    · intro hcareful
      obtain ⟨e, he, hlast⟩ := (hfaithful.apply hdisjoint .prev hcareful hstep).2 hok
      exact hkey e he ▸ hlast

/-- Two children after `SeekToFirst()` and one `Next()`, on the key `[2]`. -/
def beforeTurn (plans : Fin 2 → Nat → Status) :
    MergingIterator 2 (FallibleCursor Slice Nat) Slice :=
  (MergingIterator.walk bytewiseComparator twoChildren plans).after [.seekToFirst, .next]

/-- Without failures the turn leads back to the key `[1]`. -/
theorem merging_iterator_lands_two_children :
    SortedMap.Disjoint twoChildren ∧
      MergingIterator.Careful (beforeTurn fun _ _ => .ok) .prev ∧
      Iterator.status (Iterator.prev (beforeTurn fun _ _ => .ok)) = .ok ∧
      IsLast (fun k => k < Iterator.key (beforeTurn fun _ _ => .ok))
        (SortedMap.union twoChildren).entries
        (Iterator.observe (Iterator.prev (beforeTurn fun _ _ => .ok))) := by
  have hdisjoint : SortedMap.Disjoint twoChildren := by decide
  have hreach : (MergingIterator.walk bytewiseComparator twoChildren fun _ _ => .ok).Reachable
      MergingIterator.Careful (beforeTurn fun _ _ => .ok) :=
    System.reachable_after (by decide +kernel) (by decide +kernel)
  have hvalid : Iterator.valid (beforeTurn fun _ _ => .ok) = true := by decide +kernel
  have hok : Iterator.status (Iterator.prev (beforeTurn fun _ _ => .ok)) = .ok := by
    decide +kernel
  have hcareful : MergingIterator.Careful (beforeTurn fun _ _ => .ok) .prev := by decide +kernel
  have hstep := Iterator.apply_prev_eq_some.mpr ⟨hvalid, rfl⟩
  have hlands := merging_iterator_lands bytewiseComparator twoChildren hdisjoint
    (fun _ _ => .ok) hreach hok
  exact ⟨hdisjoint, hcareful, hok, (hlands.2 hstep).mpr hcareful⟩

/-- The third operation of the first child, its `Seek` when the iterator turns around, fails. -/
def seekFails : Fin 2 → Nat → Status
  | 0, 2 => .ioError
  | _, _ => .ok

/-- From the key `[2]` the `Prev()` whose `Seek` fails leads to the key `[3]` with `status()` OK. -/
theorem merging_iterator_lands_past :
    ∃ m m', (MergingIterator.walk bytewiseComparator twoChildren seekFails).Reachable
        (fun _ _ => True) m ∧
      Iterator.apply m .prev = some m' ∧ Iterator.status m' = .ok ∧ Iterator.key m = [2] ∧
      Iterator.observe m' = some ([3], 30) ∧
      ¬ IsLast (fun k => k < Iterator.key m) (SortedMap.union twoChildren).entries
        (Iterator.observe m') := by
  have hreach : (MergingIterator.walk bytewiseComparator twoChildren seekFails).Reachable
      (fun _ _ => True) (beforeTurn seekFails) :=
    System.reachable_after_free (by decide +kernel)
  have hvalid : Iterator.valid (beforeTurn seekFails) = true := by decide +kernel
  have hkey : Iterator.key (beforeTurn seekFails) = [2] := by decide +kernel
  have hobserve : Iterator.observe (Iterator.prev (beforeTurn seekFails)) = some ([3], 30) := by
    decide +kernel
  refine ⟨beforeTurn seekFails, Iterator.prev (beforeTurn seekFails), hreach,
    Iterator.apply_prev_eq_some.mpr ⟨hvalid, rfl⟩, by decide +kernel, hkey, hobserve, ?_⟩
  rw [hkey, hobserve]
  intro hlast
  exact absurd hlast.2.1 (by decide)

end P2KVS
