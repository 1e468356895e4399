import P2KVS.Store.Key

/-!
# The merging iterator

The iterator classes of `merge_iter.h`. `Iterator` is RocksDB's abstract iterator, `IteratorWrapper`
caches validity and key of one child, and `MergingIterator` merges the children of an array. A key
or value is meaningful only while the iterator is valid, as the assertions of the source require;
`Iterator.observe` hides the others. `Iterator.run` executes a list of operations and stops where
the source would violate `assert(Valid())`.
-/

namespace P2KVS

open Sorted

/-- The `rocksdb::Status` values that the programs tell apart. -/
inductive Status where
  | ok
  | notFound
  | ioError
  deriving DecidableEq, Repr

/-- RocksDB's `Iterator` interface on a state type `ι`. -/
class Iterator (ι : Type*) (K V : outParam Type*) where
  valid : ι → Bool
  key : ι → K
  value : ι → V
  status : ι → Status
  seekToFirst : ι → ι
  seekToLast : ι → ι
  seek : ι → K → ι
  next : ι → ι
  prev : ι → ι

/-- A cursor follows the iterator contract without errors. -/
instance {K V : Type*} [LinearOrder K] [Inhabited K] [Inhabited V] {r : K → K → Prop} :
    Iterator (Cursor K V r) K V where
  valid := Cursor.valid
  key := fun c => (c.current?.map Prod.fst).getD default
  value := fun c => (c.current?.map Prod.snd).getD default
  status := fun _ => .ok
  seekToFirst := Cursor.seekToFirst
  seekToLast := Cursor.seekToLast
  seek := Cursor.seek
  next := Cursor.next
  prev := Cursor.prev

/-- A valid cursor has its key and what is ahead of the next position ahead. -/
theorem ahead_of_valid {K V : Type*} [LinearOrder K] [Inhabited K] [Inhabited V] {c : Cursor K V}
    (h : Iterator.valid c = true) : c.ahead = Iterator.key c :: (Iterator.next c).ahead := by
  have hsome : c.current?.isSome = true := c.valid_eq ▸ h
  obtain ⟨e, he⟩ := Option.isSome_iff_exists.mp hsome
  rw [Cursor.ahead_of_current he]
  simp only [Iterator.key, he, Option.map_some, Option.getD_some]
  rfl

namespace Iterator

variable {ι K V : Type*} [Iterator ι K V]

/-- The positioning operations of an iterator. -/
inductive Op (K : Type*) where
  | seekToFirst
  | seekToLast
  | seek (target : K)
  | next
  | prev

/-- Apply one operation. `next` and `prev` require a valid iterator. -/
def apply (it : ι) : Op K → Option ι
  | .seekToFirst => some (seekToFirst it)
  | .seekToLast => some (seekToLast it)
  | .seek target => some (seek it target)
  | .next => if valid it then some (next it) else none
  | .prev => if valid it then some (prev it) else none

/-- Going on takes a valid iterator. -/
theorem apply_next_eq_some {it it' : ι} :
    apply it .next = some it' ↔ valid it = true ∧ next it = it' :=
  Option.ite_none_right_eq_some.trans (and_congr_right fun _ => Option.some_inj)

/-- Going back takes a valid iterator. -/
theorem apply_prev_eq_some {it it' : ι} :
    apply it .prev = some it' ↔ valid it = true ∧ prev it = it' :=
  Option.ite_none_right_eq_some.trans (and_congr_right fun _ => Option.some_inj)

/-- Iterators that are valid together can make the same operations. -/
theorem apply_isSome_congr {κ : Type*} [Iterator κ K V] {it : ι} {it' : κ}
    (h : valid it = valid it') (op : Op K) : (apply it op).isSome = (apply it' op).isSome := by
  cases op with
  | seekToFirst | seekToLast | seek => rfl
  | next | prev =>
      simp only [apply, h]
      split_ifs <;> rfl

/-- Apply operations in order. -/
def run : List (Op K) → ι → Option ι
  | [], it => some it
  | op :: rest, it => apply it op >>= run rest

/-- The entry the iterator stands on, if it is valid. -/
def observe (it : ι) : Option (K × V) :=
  if valid it then some (key it, value it) else none

/-- An iterator that reads its answers off an optional entry stands on that entry. -/
theorem observe_eq [Inhabited K] [Inhabited V] {it : ι} {current : Option (K × V)}
    (hvalid : valid it = current.isSome) (hkey : key it = (current.map Prod.fst).getD default)
    (hvalue : value it = (current.map Prod.snd).getD default) : observe it = current := by
  cases current with
  | none => simp [observe, hvalid]
  | some e => simp [observe, hvalid, hkey, hvalue]

/-- An iterator is valid exactly when it stands on an entry. -/
theorem valid_iff {it : ι} : valid it = true ↔ ∃ e, observe it = some e := by
  constructor
  · intro hvalid
    exact ⟨_, if_pos hvalid⟩
  · rintro ⟨e, he⟩
    exact (Option.ite_none_right_eq_some.mp he).1

/-- The keys visited by `Next` until the iterator is not valid any more; `none` if it is still
valid after `fuel` steps. -/
def walk : Nat → ι → Option (List K)
  | 0, it => if valid it then none else some []
  | fuel + 1, it =>
      if valid it then (walk fuel (next it)).map fun rest => key it :: rest else some []

/-- The keys the iterator stands on at the start of the iterations of a loop that calls `Next` at
most `n` times and ends when the iterator is not valid any more. -/
def visit : Nat → ι → List K
  | 0, _ => []
  | n + 1, it => if valid it then key it :: visit n (next it) else []

/-- The entries the iterator stands on at the start of the iterations of such a loop. -/
def stand : Nat → ι → List (K × V)
  | 0, _ => []
  | n + 1, it => if valid it then (key it, value it) :: stand n (next it) else []

/-- The keys of these iterations are the keys of the entries. -/
theorem visit_eq (n : Nat) (it : ι) : visit n it = (stand n it).map Prod.fst := by
  induction n generalizing it with
  | zero => rfl
  | succ n ih =>
      simp only [visit, stand]
      split_ifs
      · rw [ih, List.map_cons]
      · rfl

/-- The entries on the way when `move` is repeated until the iterator is not valid any more; `none`
if it is still valid after `fuel` moves. -/
def collect (move : ι → ι) : Nat → ι → Option (List (K × V))
  | 0, it => if valid it then none else some []
  | fuel + 1, it =>
      if valid it then (collect move fuel (move it)).map fun rest => (key it, value it) :: rest
      else some []

/-- An iterator that is not valid any more has nothing on the way. -/
theorem collect_of_not_valid {move : ι → ι} {it : ι} (h : valid it = false) (fuel : Nat) :
    collect move fuel it = some [] := by
  cases fuel <;> simp [collect, h]

end Iterator

/-- A cursor shows the entry under it. -/
theorem observe_cursor {K V : Type*} [LinearOrder K] [Inhabited K] [Inhabited V]
    {r : K → K → Prop} (c : Cursor K V r) : Iterator.observe c = c.current? :=
  Iterator.observe_eq c.valid_eq rfl rfl

/-- `IteratorWrapper`: an iterator with its validity and key cached. -/
structure IteratorWrapper (ι K : Type*) where
  iter : ι
  valid : Bool
  key : K

namespace IteratorWrapper

variable {ι K V : Type*} [Iterator ι K V]

/-- `Update()` after the underlying iterator has moved to `iter`. The cached key of an invalid
iterator is left as it was. -/
def update (w : IteratorWrapper ι K) (iter : ι) : IteratorWrapper ι K where
  iter := iter
  valid := Iterator.valid iter
  key := if Iterator.valid iter then Iterator.key iter else w.key

/-- `Set(iter)` on a default-constructed wrapper. -/
def set [Inhabited K] (iter : ι) : IteratorWrapper ι K :=
  update ⟨iter, false, default⟩ iter

/-- `value()`. -/
def value (w : IteratorWrapper ι K) : V :=
  Iterator.value w.iter

/-- `status()`. -/
def status (w : IteratorWrapper ι K) : Status :=
  Iterator.status w.iter

/-- `Next()`. -/
def next (w : IteratorWrapper ι K) : IteratorWrapper ι K :=
  w.update (Iterator.next w.iter)

/-- `Prev()`. -/
def prev (w : IteratorWrapper ι K) : IteratorWrapper ι K :=
  w.update (Iterator.prev w.iter)

/-- `Seek(k)`. -/
def seek (w : IteratorWrapper ι K) (k : K) : IteratorWrapper ι K :=
  w.update (Iterator.seek w.iter k)

/-- `SeekToFirst()`. -/
def seekToFirst (w : IteratorWrapper ι K) : IteratorWrapper ι K :=
  w.update (Iterator.seekToFirst w.iter)

/-- `SeekToLast()`. -/
def seekToLast (w : IteratorWrapper ι K) : IteratorWrapper ι K :=
  w.update (Iterator.seekToLast w.iter)

/-- The cache agrees with the iterator. -/
structure Cached (w : IteratorWrapper ι K) : Prop where
  valid : w.valid = Iterator.valid w.iter
  key : Iterator.valid w.iter = true → w.key = Iterator.key w.iter

/-- Every update refreshes the cache. -/
theorem cached_update (w : IteratorWrapper ι K) (iter : ι) : (w.update iter).Cached where
  valid := rfl
  key := fun hvalid => if_pos hvalid

variable {w : IteratorWrapper ι K}

/-- An up-to-date wrapper is valid exactly when its iterator stands on an entry. -/
theorem Cached.valid_iff (hw : w.Cached) :
    w.valid = true ↔ ∃ e, Iterator.observe w.iter = some e := by
  rw [hw.valid]
  exact Iterator.valid_iff

/-- An up-to-date wrapper shows the entry its iterator stands on. -/
theorem Cached.entry (hw : w.Cached) {e : K × V} (he : Iterator.observe w.iter = some e) :
    w.key = e.1 ∧ w.value = e.2 := by
  obtain ⟨hvalid, heq⟩ := Option.ite_none_right_eq_some.mp he
  cases heq
  exact ⟨hw.key hvalid, rfl⟩

end IteratorWrapper

/-- Which direction is the iterator moving? -/
inductive Direction where
  | forward
  | reverse
  deriving DecidableEq, Repr

/-- `MergingIterator` over `n` children. -/
structure MergingIterator (n : Nat) (ι K : Type*) [LinearOrder K] where
  comparator : Comparator K
  children : Fin n → IteratorWrapper ι K
  current : Option (Fin n)
  direction : Direction

namespace MergingIterator

variable {n : Nat} {ι K V : Type*} [LinearOrder K] [Iterator ι K V]

/-- One iteration of the search loops: `i` replaces the candidate if it is valid and there is no
candidate yet or it is better. -/
def improve (ok : Fin n → Bool) (better : Fin n → Fin n → Bool) (best : Option (Fin n))
    (i : Fin n) : Option (Fin n) :=
  if ok i then
    match best with
    | none => some i
    | some j => if better i j then some i else some j
  else best

/-- `FindSmallest()`: the children from the first to the last. -/
def findSmallest (cmp : Comparator K) (children : Fin n → IteratorWrapper ι K) :
    Option (Fin n) :=
  (List.finRange n).foldl (improve (fun i => (children i).valid)
    fun i j => decide (cmp.compare (children i).key (children j).key < 0)) none

/-- `FindLargest()`: the children from the last to the first. -/
def findLargest (cmp : Comparator K) (children : Fin n → IteratorWrapper ι K) :
    Option (Fin n) :=
  (List.finRange n).reverse.foldl (improve (fun i => (children i).valid)
    fun i j => decide (cmp.compare (children i).key (children j).key > 0)) none

/-- The constructor. -/
def new [Inhabited K] (cmp : Comparator K) (iters : Fin n → ι) : MergingIterator n ι K :=
  let children := fun i => IteratorWrapper.set (iters i)
  ⟨cmp, children, findSmallest cmp children, .forward⟩

/-- `Valid()`. -/
def valid (m : MergingIterator n ι K) : Bool :=
  m.current.isSome

/-- `key()`. -/
def key [Inhabited K] (m : MergingIterator n ι K) : K :=
  (m.current.map fun c => (m.children c).key).getD default

/-- `value()`. -/
def value [Inhabited V] (m : MergingIterator n ι K) : V :=
  (m.current.map fun c => (m.children c).value).getD default

/-- `status()`: the first status that is not OK, else the last one. -/
def status (m : MergingIterator n ι K) : Status :=
  (List.finRange n).foldl
    (fun s i => if s = .ok then (m.children i).status else s) .ok

/-- Find the smallest child and go forward. -/
def settleForward (m : MergingIterator n ι K) (children : Fin n → IteratorWrapper ι K) :
    MergingIterator n ι K :=
  { m with children, current := findSmallest m.comparator children, direction := .forward }

/-- Find the largest child and go backward. -/
def settleReverse (m : MergingIterator n ι K) (children : Fin n → IteratorWrapper ι K) :
    MergingIterator n ι K :=
  { m with children, current := findLargest m.comparator children, direction := .reverse }

/-- `SeekToFirst()`. -/
def seekToFirst (m : MergingIterator n ι K) : MergingIterator n ι K :=
  m.settleForward fun i => (m.children i).seekToFirst

/-- `SeekToLast()`. -/
def seekToLast (m : MergingIterator n ι K) : MergingIterator n ι K :=
  m.settleReverse fun i => (m.children i).seekToLast

/-- `Seek(target)`. -/
def seek (m : MergingIterator n ι K) (target : K) : MergingIterator n ι K :=
  m.settleForward fun i => (m.children i).seek target

/-- Position a non-current child after `key` when `Next()` turns around. -/
def turnForward (cmp : Comparator K) (key : K) (child : IteratorWrapper ι K) :
    IteratorWrapper ι K :=
  let child := child.seek key
  if child.valid && cmp.compare key child.key == 0 then child.next else child

/-- The extra step is not taken unless the child stands on the key. -/
theorem turnForward_eq_seek (cmp : Comparator K) {key : K} {child : IteratorWrapper ι K}
    (h : (child.seek key).valid = true → key ≠ (child.seek key).key) :
    turnForward cmp key child = child.seek key := by
  refine if_neg ?_
  simpa only [Bool.and_eq_true, beq_iff_eq, cmp.eq_iff, not_and] using h

/-- Position a non-current child before `key` when `Prev()` turns around. -/
def turnReverse (key : K) (child : IteratorWrapper ι K) : IteratorWrapper ι K :=
  let child := child.seek key
  if child.valid then child.prev else child.seekToLast

/-- `Next()`. Without a current child the assertion of the source fails and nothing moves. -/
def next (m : MergingIterator n ι K) : MergingIterator n ι K :=
  match m.current with
  | none => m
  | some c =>
      let children := fun i =>
        if m.direction ≠ .forward ∧ i ≠ c then
          turnForward m.comparator (m.children c).key (m.children i)
        else m.children i
      m.settleForward (Function.update children c (children c).next)

/-- `Prev()`. Without a current child the assertion of the source fails and nothing moves. -/
def prev (m : MergingIterator n ι K) : MergingIterator n ι K :=
  match m.current with
  | none => m
  | some c =>
      let children := fun i =>
        if m.direction ≠ .reverse ∧ i ≠ c then turnReverse (m.children c).key (m.children i)
        else m.children i
      m.settleReverse (Function.update children c (children c).prev)

/-- The merging iterator offers the iterator interface itself. -/
instance [Inhabited K] [Inhabited V] : Iterator (MergingIterator n ι K) K V where
  valid := valid
  key := key
  value := value
  status := status
  seekToFirst := seekToFirst
  seekToLast := seekToLast
  seek := seek
  next := next
  prev := prev

/-- A merging iterator shows the entry of its current child. -/
theorem observe_of_current [Inhabited K] [Inhabited V] {m : MergingIterator n ι K} {c : Fin n}
    (hc : m.current = some c) :
    Iterator.observe m = some ((m.children c).key, (m.children c).value) := by
  simp [Iterator.observe, Iterator.valid, Iterator.key, Iterator.value, valid, key, value, hc]

/-- A merging iterator without a current child shows nothing. -/
theorem observe_of_none [Inhabited K] [Inhabited V] {m : MergingIterator n ι K}
    (hc : m.current = none) : Iterator.observe m = none := by
  simp [Iterator.observe, Iterator.valid, valid, hc]

end MergingIterator

end P2KVS
