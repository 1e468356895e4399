import Mathlib.Data.List.Basic

/-!
# Vectors with reserved storage

A C++ vector: a size, and storage whose length is the capacity. The indexed access of `operator[]`
is not checked against the size. It reads and writes the storage, so a store behind the size is kept
there and leaves the size as it is; an access behind the capacity, or of a cell that was never
written, is undefined behaviour and has no result here. `at` is checked against the size. Elements
have trivial destructors, so `clear` leaves the storage alone.
-/

namespace P2KVS.Storage

/-- A vector; `none` is a cell that was never written. -/
structure Vec (α : Type*) where
  size : Nat
  cells : List (Option α)
  deriving DecidableEq, Repr

namespace Vec

variable {α β : Type*}

/-- A new vector after `reserve(capacity)`. -/
def reserve (capacity : Nat) : Vec α :=
  ⟨0, List.replicate capacity none⟩

/-- Read `v[i]`. -/
def get (v : Vec α) (i : Nat) : Option α :=
  v.cells[i]?.join

/-- Assign `v[i] = x`. -/
def store (v : Vec α) (i : Nat) (x : α) : Option (Vec α) :=
  if i < v.cells.length then some { v with cells := v.cells.set i (some x) } else none

/-- Read `v.at(i)`, which throws for an index behind the size. -/
def at? (v : Vec α) (i : Nat) : Option α :=
  if i < v.size then v.get i else none

/-- `v.push_back(x)`. Without room the elements in front of the size move to storage of twice the
size. -/
def pushBack (v : Vec α) (x : α) : Vec α :=
  if v.size < v.cells.length then ⟨v.size + 1, v.cells.set v.size (some x)⟩
  else ⟨v.size + 1, v.cells.take v.size ++ some x :: List.replicate (v.size - 1) none⟩

/-- `v.clear()`. -/
def clear (v : Vec α) : Vec α :=
  { v with size := 0 }

/-- The same vector with every element seen through `f`. -/
def map (f : α → β) (v : Vec α) : Vec β :=
  ⟨v.size, v.cells.map (Option.map f)⟩

/-- The storage begins with the elements of `xs`. -/
def Holds (v : Vec α) (xs : List α) : Prop :=
  xs.map some <+: v.cells

/-- What the storage begins with can be computed. -/
instance [DecidableEq α] (v : Vec α) (xs : List α) : Decidable (v.Holds xs) :=
  inferInstanceAs (Decidable (xs.map some <+: v.cells))

/-- An indexed store does not change the size. -/
theorem size_store {v w : Vec α} {i : Nat} {x : α} (h : v.store i x = some w) :
    w.size = v.size := by
  unfold store at h
  split_ifs at h
  cases h
  rfl

/-- A store right behind the elements held extends them. -/
theorem Holds.store {v w : Vec α} {xs : List α} {x : α} (h : v.Holds xs)
    (hstore : v.store xs.length x = some w) : w.Holds (xs ++ [x]) := by
  unfold Vec.store at hstore
  split_ifs at hstore with hlt
  cases hstore
  obtain ⟨rest, hrest⟩ := h
  have hlength : (xs.map some).length = xs.length := List.length_map _
  cases rest with
  | nil =>
      rw [← hrest, List.append_nil, hlength] at hlt
      exact absurd hlt (Nat.lt_irrefl _)
  | cons old rest =>
      refine ⟨rest, ?_⟩
      simp only [← hrest, List.map_append, List.map_singleton]
      rw [← hlength, List.set_append_right _ _ (Nat.le_refl _), Nat.sub_self]
      simp

/-- `push_back` makes the vector one element longer. -/
@[simp] theorem size_pushBack (v : Vec α) (x : α) : (v.pushBack x).size = v.size + 1 := by
  unfold pushBack
  split_ifs <;> rfl

/-- Mapping the elements keeps the size. -/
@[simp] theorem size_map (f : α → β) (v : Vec α) : (v.map f).size = v.size := rfl

/-- Seen through `f`, a cell reads as `f` of its element. -/
theorem get_map (f : α → β) (v : Vec α) (i : Nat) : (v.map f).get i = (v.get i).map f := by
  rw [get, get, map, List.getElem?_map]
  rcases v.cells[i]? with _ | _ | x <;> rfl

/-- Seen through `f`, a checked read gives `f` of the element or throws as before. -/
theorem at?_map (f : α → β) (v : Vec α) (i : Nat) : (v.map f).at? i = (v.at? i).map f := by
  rw [at?, at?, size_map, get_map]
  split_ifs <;> rfl

/-- Seen through `f`, an element that is pushed is `f` of it. -/
theorem map_pushBack (f : α → β) (v : Vec α) (x : α) :
    (v.pushBack x).map f = (v.map f).pushBack (f x) := by
  have hlen : (v.map f).cells.length = v.cells.length := List.length_map _
  unfold pushBack
  simp only [hlen, size_map]
  split_ifs
  · simp [map, List.map_set]
  · simp [map, List.map_take]

/-- Seen through `f`, the elements held are those of `f`. -/
theorem Holds.map {v : Vec α} {xs : List α} (h : v.Holds xs) (f : α → β) :
    (v.map f).Holds (xs.map f) := by
  obtain ⟨rest, hrest⟩ := h
  refine ⟨rest.map (Option.map f), ?_⟩
  rw [Vec.map, ← hrest, List.map_append]
  simp

/-- What is held can be read. -/
theorem Holds.get {v : Vec α} {xs : List α} (h : v.Holds xs) {i : Nat} (hi : i < xs.length) :
    v.get i = xs[i]? := by
  obtain ⟨rest, hrest⟩ := h
  have hlen : i < (xs.map some).length := by rwa [List.length_map]
  rw [Vec.get, ← hrest, List.getElem?_append_left hlen, List.getElem?_map,
    List.getElem?_eq_getElem hi]
  rfl

/-- The elements of the vector are those of `xs`. -/
structure Contains (v : Vec α) (xs : List α) : Prop where
  size : v.size = xs.length
  holds : v.Holds xs

/-- An element of the vector can be read in both ways. -/
theorem Contains.at {v : Vec α} {xs : List α} (h : v.Contains xs) {i : Nat} (hi : i < v.size) :
    v.at? i = xs[i]? := by
  rw [at?, if_pos hi, h.holds.get (h.size ▸ hi)]

/-- `push_back` appends to the elements, whatever the storage holds behind them. -/
theorem Contains.pushBack {v : Vec α} {xs : List α} (h : v.Contains xs) (x : α) :
    (v.pushBack x).Contains (xs ++ [x]) := by
  obtain ⟨hsize, rest, hrest⟩ := h
  have hlen : (xs.map some).length = v.size := by rw [List.length_map, hsize]
  unfold Vec.pushBack
  split_ifs with hroom
  · -- the new element replaces the first cell behind the old ones
    have hcells : v.cells.set v.size (some x) = xs.map some ++ rest.set 0 (some x) := by
      rw [← hrest, ← hlen, List.set_append_right _ _ (Nat.le_refl _), Nat.sub_self]
    cases rest with
    | nil =>
        rw [← hrest, List.append_nil, hlen] at hroom
        exact absurd hroom (Nat.lt_irrefl _)
    | cons old rest =>
        exact ⟨by simp [hsize], rest, by simp [hcells]⟩
  · have htake : v.cells.take v.size = xs.map some := by
      rw [← hrest, ← hlen, List.take_left]
    exact ⟨by simp [hsize], List.replicate (v.size - 1) none, by simp [htake]⟩

end Vec

end P2KVS.Storage
