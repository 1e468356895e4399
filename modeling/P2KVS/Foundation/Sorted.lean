import Mathlib.Order.Defs.LinearOrder
import Mathlib.Data.List.Nodup
import Mathlib.Data.List.FinRange

/-!
# Sorted maps and cursors over them

A `SortedMap` is a key-value list in strictly increasing key order; in a `SortedList` a key may
occur several times. A `Cursor` moves over either in both directions: what `remains` shrinks at the
head when it goes forward, and what is `behind` it at the end when it goes backward. Over a sorted
map its operations are characterised by `IsFirst` and `IsLast`, the first and the last entry whose
key satisfies a predicate, so that arguments about several cursors reduce to arguments about keys.
`union` puts the entries of finitely many maps into one.
-/

namespace P2KVS.Sorted

variable {K V : Type*}

/-- A key-value list in the order `r` of its keys. -/
structure OrderedList (K V : Type*) (r : K → K → Prop) where
  entries : List (K × V)
  sorted : entries.Pairwise fun a b => r a.1 b.1

/-- A key-value list in strictly increasing key order. -/
abbrev SortedMap (K V : Type*) [LT K] := OrderedList K V (· < ·)

/-- A key-value list in key order. A key may occur several times. -/
abbrev SortedList (K V : Type*) [LE K] := OrderedList K V (· ≤ ·)

variable [LinearOrder K]

/-- `found` is the first of the entries whose key satisfies `P`; `none` if there is none. -/
def IsFirst (P : K → Prop) (entries : List (K × V)) : Option (K × V) → Prop
  | some e => e ∈ entries ∧ P e.1 ∧ ∀ x ∈ entries, P x.1 → e.1 ≤ x.1
  | none => ∀ x ∈ entries, ¬ P x.1

/-- `found` is the last of the entries whose key satisfies `P`; `none` if there is none. -/
def IsLast (P : K → Prop) (entries : List (K × V)) : Option (K × V) → Prop
  | some e => e ∈ entries ∧ P e.1 ∧ ∀ x ∈ entries, P x.1 → x.1 ≤ e.1
  | none => ∀ x ∈ entries, ¬ P x.1

/-- Predicates that agree on the keys have the same first entry. -/
theorem IsFirst.congr {P Q : K → Prop} {entries : List (K × V)} {found : Option (K × V)}
    (h : IsFirst P entries found) (hiff : ∀ x ∈ entries, P x.1 ↔ Q x.1) :
    IsFirst Q entries found := by
  cases found with
  | none => exact fun x hx hq => h x hx ((hiff x hx).mpr hq)
  | some e =>
      obtain ⟨hmem, hp, hleast⟩ := h
      exact ⟨hmem, (hiff e hmem).mp hp, fun x hx hq => hleast x hx ((hiff x hx).mpr hq)⟩

/-- What bounds the first entry satisfying `P` from below bounds all of them. -/
theorem IsFirst.le_of_le {P : K → Prop} {entries : List (K × V)} {found : Option (K × V)}
    (h : IsFirst P entries found) {k : K} (hle : ∀ e, found = some e → k ≤ e.1) {x : K × V}
    (hx : x ∈ entries) (hp : P x.1) : k ≤ x.1 := by
  cases found with
  | none => exact absurd hp (h x hx)
  | some e => exact (hle e rfl).trans (h.2.2 x hx hp)

/-- What bounds the last entry satisfying `P` from above bounds all of them. -/
theorem IsLast.le_of_le {P : K → Prop} {entries : List (K × V)} {found : Option (K × V)}
    (h : IsLast P entries found) {k : K} (hle : ∀ e, found = some e → e.1 ≤ k) {x : K × V}
    (hx : x ∈ entries) (hp : P x.1) : x.1 ≤ k := by
  cases found with
  | none => exact absurd hp (h x hx)
  | some e => exact (h.2.2 x hx hp).trans (hle e rfl)

/-- Predicates that agree on the keys have the same last entry. -/
theorem IsLast.congr {P Q : K → Prop} {entries : List (K × V)} {found : Option (K × V)}
    (h : IsLast P entries found) (hiff : ∀ x ∈ entries, P x.1 ↔ Q x.1) :
    IsLast Q entries found := by
  cases found with
  | none => exact fun x hx hq => h x hx ((hiff x hx).mpr hq)
  | some e =>
      obtain ⟨hmem, hp, hgreatest⟩ := h
      exact ⟨hmem, (hiff e hmem).mp hp, fun x hx hq => hgreatest x hx ((hiff x hx).mpr hq)⟩

/-- In a sorted list, the entries at or past `target` are those from the first such entry on. -/
theorem drop_findIdx_eq_filter {V : Type*} {entries : List (K × V)}
    (hsorted : entries.Pairwise fun a b => a.1 ≤ b.1) (target : K) :
    entries.drop (entries.findIdx fun e => target ≤ e.1) =
      entries.filter fun e => target ≤ e.1 := by
  induction hsorted with
  | nil => rfl
  | @cons e rest hle _ ih =>
      by_cases hhead : target ≤ e.1
      · have hall : ∀ x ∈ e :: rest, decide (target ≤ x.1) = true := by
          intro x hx
          rcases List.mem_cons.mp hx with rfl | hx
          · exact decide_eq_true hhead
          · exact decide_eq_true (hhead.trans (hle x hx))
        rw [List.filter_eq_self.mpr hall, List.findIdx_cons]
        simp [hhead]
      · rw [List.filter_cons_of_neg (by simpa using hhead), ← ih, List.findIdx_cons]
        simp [hhead]

namespace SortedMap

/-- The map without entries. -/
def empty : SortedMap K V :=
  ⟨[], List.Pairwise.nil⟩

/-- The keys in increasing order. -/
def keys (m : SortedMap K V) : List K :=
  m.entries.map Prod.fst

/-- Insert or overwrite one entry of a sorted list. -/
def insertEntry (k : K) (v : V) : List (K × V) → List (K × V)
  | [] => [(k, v)]
  | e :: rest =>
      if k < e.1 then (k, v) :: e :: rest
      else if e.1 < k then e :: insertEntry k v rest
      else (k, v) :: rest

/-- Insertion adds the new entry and drops the old one with the same key. -/
theorem mem_insertEntry {k : K} {v : V} {entries : List (K × V)}
    (h : entries.Pairwise fun a b => a.1 < b.1) (x : K × V) :
    x ∈ insertEntry k v entries ↔ x = (k, v) ∨ (x ∈ entries ∧ x.1 ≠ k) := by
  induction entries with
  | nil => simp [insertEntry]
  | cons e rest ih =>
      obtain ⟨hhead, hrest⟩ := List.pairwise_cons.mp h
      simp only [insertEntry]
      split_ifs with hlt hgt
      · -- the new entry comes first, and no old entry has its key
        have hne : ∀ y ∈ e :: rest, y.1 ≠ k := by
          intro y hy
          rcases List.mem_cons.mp hy with rfl | hy
          · exact ne_of_gt hlt
          · exact ne_of_gt (hlt.trans (hhead y hy))
        constructor
        · intro hx
          exact (List.mem_cons.mp hx).imp_right fun hx => ⟨hx, hne x hx⟩
        · intro hx
          obtain rfl | ⟨hx, _⟩ := hx
          · exact List.mem_cons_self
          · exact List.mem_cons_of_mem _ hx
      · rw [List.mem_cons, ih hrest, List.mem_cons]
        constructor
        · intro hx
          obtain rfl | hx | ⟨hx, hne⟩ := hx
          · exact .inr ⟨.inl rfl, ne_of_lt hgt⟩
          · exact .inl hx
          · exact .inr ⟨.inr hx, hne⟩
        · intro hx
          obtain hx | ⟨rfl | hx, hne⟩ := hx
          · exact .inr (.inl hx)
          · exact .inl rfl
          · exact .inr (.inr ⟨hx, hne⟩)
      · have heq : e.1 = k := le_antisymm (not_lt.mp hlt) (not_lt.mp hgt)
        have hne : ∀ y ∈ rest, y.1 ≠ k := fun y hy => heq ▸ ne_of_gt (hhead y hy)
        rw [List.mem_cons, List.mem_cons]
        constructor
        · intro hx
          obtain hx | hx := hx
          · exact .inl hx
          · exact .inr ⟨.inr hx, hne x hx⟩
        · intro hx
          obtain hx | ⟨rfl | hx, hk⟩ := hx
          · exact .inl hx
          · exact absurd heq hk
          · exact .inr hx

/-- Insertion keeps the list sorted. -/
theorem insertEntry_sorted (k : K) (v : V) {entries : List (K × V)}
    (h : entries.Pairwise fun a b => a.1 < b.1) :
    (insertEntry k v entries).Pairwise fun a b => a.1 < b.1 := by
  induction entries with
  | nil => simp [insertEntry]
  | cons e rest ih =>
      obtain ⟨hhead, hrest⟩ := List.pairwise_cons.mp h
      simp only [insertEntry]
      split_ifs with hlt hgt
      · refine List.pairwise_cons.mpr ⟨?_, h⟩
        intro y hy
        rcases List.mem_cons.mp hy with rfl | hy
        · exact hlt
        · exact hlt.trans (hhead y hy)
      · refine List.pairwise_cons.mpr ⟨?_, ih hrest⟩
        intro y hy
        rcases (mem_insertEntry hrest y).mp hy with rfl | ⟨hy, _⟩
        · exact hgt
        · exact hhead y hy
      · have heq : e.1 = k := le_antisymm (not_lt.mp hlt) (not_lt.mp hgt)
        exact List.pairwise_cons.mpr ⟨fun y hy => heq ▸ hhead y hy, hrest⟩

/-- Insert or overwrite one entry. -/
def insert (m : SortedMap K V) (k : K) (v : V) : SortedMap K V :=
  ⟨insertEntry k v m.entries, insertEntry_sorted k v m.sorted⟩

/-- The entries after an insertion. -/
@[simp] theorem mem_entries_insert (m : SortedMap K V) (k : K) (v : V) (x : K × V) :
    x ∈ (m.insert k v).entries ↔ x = (k, v) ∨ (x ∈ m.entries ∧ x.1 ≠ k) :=
  mem_insertEntry m.sorted x

/-- The keys after an insertion. -/
@[simp] theorem mem_keys_insert (m : SortedMap K V) (k : K) (v : V) (x : K) :
    x ∈ (m.insert k v).keys ↔ x = k ∨ x ∈ m.keys := by
  simp only [keys, List.mem_map, mem_entries_insert]
  constructor
  · intro hx
    obtain ⟨e, rfl | ⟨he, _⟩, rfl⟩ := hx
    · exact .inl rfl
    · exact .inr ⟨e, he, rfl⟩
  · intro hx
    obtain rfl | ⟨e, he, rfl⟩ := hx
    · exact ⟨_, .inl rfl, rfl⟩
    · by_cases hk : e.1 = k
      · exact ⟨(k, v), .inl rfl, hk.symm⟩
      · exact ⟨e, .inr ⟨he, hk⟩, rfl⟩

/-- Insert the entries of a list in order. -/
def insertAll (m : SortedMap K V) (entries : List (K × V)) : SortedMap K V :=
  entries.foldl (fun m e => m.insert e.1 e.2) m

/-- The keys after inserting the entries of a list. -/
theorem mem_keys_insertAll (m : SortedMap K V) (entries : List (K × V)) (x : K) :
    x ∈ (m.insertAll entries).keys ↔ x ∈ entries.map Prod.fst ∨ x ∈ m.keys := by
  induction entries generalizing m with
  | nil => simp [insertAll]
  | cons e rest ih =>
      have hstep : m.insertAll (e :: rest) = (m.insert e.1 e.2).insertAll rest := rfl
      rw [hstep, ih, mem_keys_insert, List.map_cons, List.mem_cons]
      tauto

/-- Inserting entries with distinct new keys adds exactly these entries. -/
theorem mem_entries_insertAll (m : SortedMap K V) {entries : List (K × V)}
    (hnodup : (entries.map Prod.fst).Nodup) (hnew : ∀ x ∈ entries, x.1 ∉ m.keys) (x : K × V) :
    x ∈ (m.insertAll entries).entries ↔ x ∈ entries ∨ x ∈ m.entries := by
  induction entries generalizing m with
  | nil => simp [insertAll]
  | cons e rest ih =>
      obtain ⟨hhead, hrest⟩ := List.nodup_cons.mp hnodup
      have hstep : m.insertAll (e :: rest) = (m.insert e.1 e.2).insertAll rest := rfl
      have hfresh : ∀ y ∈ rest, y.1 ∉ (m.insert e.1 e.2).keys := by
        intro y hy hmem
        rcases (mem_keys_insert m e.1 e.2 y.1).mp hmem with heq | hmem
        · exact hhead (List.mem_map.mpr ⟨y, hy, heq⟩)
        · exact hnew y (List.mem_cons_of_mem _ hy) hmem
      have hkept : x ∈ m.entries → x.1 ≠ e.1 := by
        intro hx heq
        exact hnew e List.mem_cons_self (List.mem_map.mpr ⟨x, hx, heq⟩)
      rw [hstep, ih _ hrest hfresh, mem_entries_insert, List.mem_cons]
      tauto

/-- Two entries of a sorted map with one key are the same entry. -/
theorem entry_unique (m : SortedMap K V) {a b : K × V} (ha : a ∈ m.entries) (hb : b ∈ m.entries)
    (hkey : a.1 = b.1) : a = b := by
  obtain ⟨i, hi, rfl⟩ := List.mem_iff_getElem.mp ha
  obtain ⟨j, hj, rfl⟩ := List.mem_iff_getElem.mp hb
  have hpair := List.pairwise_iff_getElem.mp m.sorted
  rcases lt_trichotomy i j with hlt | rfl | hgt
  · exact absurd hkey (ne_of_lt (hpair i j hi hj hlt))
  · rfl
  · exact absurd hkey (ne_of_gt (hpair j i hj hi hgt))

/-- The first entry whose key satisfies a predicate is unique. -/
theorem isFirst_unique (m : SortedMap K V) {P : K → Prop} {a b : Option (K × V)}
    (ha : IsFirst P m.entries a) (hb : IsFirst P m.entries b) : a = b := by
  match a, b with
  | none, none => rfl
  | none, some e => exact absurd hb.2.1 (ha e hb.1)
  | some e, none => exact absurd ha.2.1 (hb e ha.1)
  | some d, some e =>
      have hkey : d.1 = e.1 := le_antisymm (ha.2.2 e hb.1 hb.2.1) (hb.2.2 d ha.1 ha.2.1)
      exact congrArg some (m.entry_unique ha.1 hb.1 hkey)

/-- The last entry whose key satisfies a predicate is unique. -/
theorem isLast_unique (m : SortedMap K V) {P : K → Prop} {a b : Option (K × V)}
    (ha : IsLast P m.entries a) (hb : IsLast P m.entries b) : a = b := by
  match a, b with
  | none, none => rfl
  | none, some e => exact absurd hb.2.1 (ha e hb.1)
  | some e, none => exact absurd ha.2.1 (hb e ha.1)
  | some d, some e =>
      have hkey : d.1 = e.1 := le_antisymm (hb.2.2 d ha.1 ha.2.1) (ha.2.2 e hb.1 hb.2.1)
      exact congrArg some (m.entry_unique ha.1 hb.1 hkey)

/-- The key sets of the maps are pairwise disjoint. -/
def Disjoint {n : Nat} (maps : Fin n → SortedMap K V) : Prop :=
  ∀ i j, i ≠ j → ∀ k ∈ (maps i).keys, k ∉ (maps j).keys

/-- Disjointness of finitely many maps is decidable. -/
instance {n : Nat} (maps : Fin n → SortedMap K V) : Decidable (Disjoint maps) :=
  inferInstanceAs (Decidable (∀ i j, i ≠ j → ∀ k ∈ (maps i).keys, k ∉ (maps j).keys))

/-- All entries of finitely many maps in one sorted map. -/
def union {n : Nat} (maps : Fin n → SortedMap K V) : SortedMap K V :=
  empty.insertAll ((List.finRange n).flatMap fun i => (maps i).entries)

/-- The keys of a sorted map are distinct. -/
theorem keys_nodup (m : SortedMap K V) : m.keys.Nodup := by
  refine List.pairwise_map.mpr (m.sorted.imp ?_)
  intro a b hab
  exact ne_of_lt hab

/-- The keys of a sorted map are in strictly increasing order. -/
theorem keys_sorted (m : SortedMap K V) : m.keys.Pairwise (· < ·) :=
  List.pairwise_map.mpr m.sorted

/-- The union has the keys of all maps. -/
theorem mem_keys_union {n : Nat} (maps : Fin n → SortedMap K V) (k : K) :
    k ∈ (union maps).keys ↔ ∃ i, k ∈ (maps i).keys := by
  rw [union, mem_keys_insertAll, List.map_flatMap, List.mem_flatMap]
  simp [empty, keys]

/-- The union of maps with disjoint keys has exactly their entries. -/
theorem mem_entries_union {n : Nat} {maps : Fin n → SortedMap K V} (h : Disjoint maps)
    (x : K × V) : x ∈ (union maps).entries ↔ ∃ i, x ∈ (maps i).entries := by
  have hnodup : (((List.finRange n).flatMap fun i => (maps i).entries).map Prod.fst).Nodup := by
    rw [List.map_flatMap]
    refine List.nodup_flatMap.mpr ⟨fun i _ => (maps i).keys_nodup, ?_⟩
    refine (List.nodup_finRange n).imp ?_
    intro i j hij k hki hkj
    exact h i j hij k hki hkj
  rw [union, mem_entries_insertAll empty hnodup (by simp [empty, keys])]
  simp [empty]

/-- The keys at or past `target`. -/
def keysFrom (m : SortedMap K V) (target : K) : List K :=
  m.keys.filter (target ≤ ·)

end SortedMap

/-- A position in an ordered list, which is a sorted map unless another order is given. A position
past the last entry is not valid. -/
structure Cursor (K V : Type*) [LT K] (r : K → K → Prop := (· < ·)) where
  map : OrderedList K V r
  pos : Nat

namespace Cursor

section Movement

variable {r : K → K → Prop}

/-- A cursor that has not been positioned yet. -/
def start (m : OrderedList K V r) : Cursor K V r :=
  ⟨m, m.entries.length⟩

/-- The entry under the cursor. -/
def current? (c : Cursor K V r) : Option (K × V) :=
  c.map.entries[c.pos]?

/-- The cursor is on an entry. -/
def valid (c : Cursor K V r) : Bool :=
  c.pos < c.map.entries.length

/-- Position at the first entry. -/
def seekToFirst (c : Cursor K V r) : Cursor K V r :=
  ⟨c.map, 0⟩

/-- Position at the last entry. -/
def seekToLast (c : Cursor K V r) : Cursor K V r :=
  ⟨c.map, c.map.entries.length - 1⟩

/-- Position at the first entry at or past `target`. -/
def seek (c : Cursor K V r) (target : K) : Cursor K V r :=
  ⟨c.map, c.map.entries.findIdx fun e => target ≤ e.1⟩

/-- Move to the next entry; an exhausted cursor stays exhausted. -/
def next (c : Cursor K V r) : Cursor K V r :=
  if c.valid then ⟨c.map, c.pos + 1⟩ else c

/-- Move to the previous entry; an exhausted cursor stays exhausted. -/
def prev (c : Cursor K V r) : Cursor K V r :=
  if c.valid then ⟨c.map, if c.pos = 0 then c.map.entries.length else c.pos - 1⟩ else c

/-- The entries from the cursor on. -/
def remains (c : Cursor K V r) : List (K × V) :=
  c.map.entries.drop c.pos

/-- The keys from the cursor on. -/
def ahead (c : Cursor K V r) : List K :=
  c.remains.map Prod.fst

/-- The entries up to the cursor; none if it is exhausted. -/
def behind (c : Cursor K V r) : List (K × V) :=
  if c.valid then c.map.entries.take (c.pos + 1) else []

/-- No movement changes the list under the cursor. -/
@[simp] theorem next_map (c : Cursor K V r) : c.next.map = c.map := by
  unfold next
  split <;> rfl

/-- No movement changes the list under the cursor. -/
@[simp] theorem prev_map (c : Cursor K V r) : c.prev.map = c.map := by
  unfold prev
  split <;> rfl

/-- A cursor is valid exactly when it has an entry. -/
theorem valid_eq (c : Cursor K V r) : c.valid = c.current?.isSome := by
  rw [Bool.eq_iff_iff]
  simp [valid, current?]

/-- The entry under a cursor belongs to its list. -/
theorem mem_of_current {c : Cursor K V r} {e : K × V} (h : c.current? = some e) :
    e ∈ c.map.entries :=
  List.mem_of_getElem? h

/-- An exhausted cursor is past the last entry. -/
theorem length_le_of_not_valid {c : Cursor K V r} (h : ¬ c.valid = true) :
    c.map.entries.length ≤ c.pos :=
  not_lt.mp (mt decide_eq_true h)

/-- What remains is in the order of the list. -/
theorem remains_sorted (c : Cursor K V r) : c.remains.Pairwise fun a b => r a.1 b.1 :=
  c.map.sorted.sublist (List.drop_sublist _ _)

/-- What is behind is in the order of the list. -/
theorem behind_sorted (c : Cursor K V r) : c.behind.Pairwise fun a b => r a.1 b.1 := by
  unfold behind
  split_ifs
  · exact c.map.sorted.sublist (List.take_sublist _ _)
  · exact List.Pairwise.nil

/-- The entry under the cursor is the head of what remains. -/
theorem head_remains (c : Cursor K V r) : c.remains.head? = c.current? :=
  List.head?_drop

/-- The entry under the cursor is the end of what is behind. -/
theorem getLast_behind (c : Cursor K V r) : c.behind.getLast? = c.current? := by
  unfold behind
  split_ifs with hvalid
  · have hlt : c.pos < c.map.entries.length := of_decide_eq_true hvalid
    rw [List.take_succ_eq_append_getElem hlt, List.getLast?_concat]
    exact (List.getElem?_eq_getElem hlt).symm
  · exact (List.getElem?_eq_none (length_le_of_not_valid hvalid)).symm

/-- Nothing remains of an exhausted cursor. -/
theorem remains_of_not_valid {c : Cursor K V r} (h : ¬ c.valid = true) : c.remains = [] :=
  List.drop_eq_nil_of_le (length_le_of_not_valid h)

/-- Going forward takes the head off what remains. -/
theorem remains_next (c : Cursor K V r) : c.next.remains = c.remains.tail := by
  unfold next
  split_ifs with hvalid
  · show c.map.entries.drop (c.pos + 1) = (c.map.entries.drop c.pos).tail
    rw [List.tail_drop]
  · rw [remains_of_not_valid hvalid, List.tail_nil]

/-- Of a cursor on an entry, this entry remains and what remains behind the next movement. -/
theorem remains_of_current {c : Cursor K V r} {e : K × V} (h : c.current? = some e) :
    c.remains = e :: c.next.remains := by
  rw [remains_next]
  exact List.eq_cons_of_mem_head? (c.head_remains.trans h)

/-- Going backward takes the end off what is behind. -/
theorem behind_prev (c : Cursor K V r) : c.prev.behind = c.behind.dropLast := by
  by_cases hvalid : c.valid = true
  · have hlt : c.pos < c.map.entries.length := of_decide_eq_true hvalid
    have hbehind : c.behind.dropLast = c.map.entries.take c.pos := by
      rw [behind, if_pos hvalid, List.take_succ_eq_append_getElem hlt, List.dropLast_concat]
    rw [hbehind, prev, if_pos hvalid]
    split_ifs with hzero
    · rw [hzero, List.take_zero]
      exact if_neg (by simp [valid])
    · have hprev : c.pos - 1 < c.map.entries.length := by omega
      show (if decide (c.pos - 1 < c.map.entries.length) = true then
        c.map.entries.take (c.pos - 1 + 1) else []) = _
      rw [if_pos (decide_eq_true hprev), Nat.sub_add_cancel (by omega)]
  · rw [prev, if_neg hvalid, behind, if_neg hvalid, List.dropLast_nil]

/-- `seek` leaves the entries at or past its target. -/
theorem remains_seek (hle : ∀ a b, r a b → a ≤ b) (c : Cursor K V r) (target : K) :
    (c.seek target).remains = c.map.entries.filter fun e => target ≤ e.1 :=
  drop_findIdx_eq_filter (c.map.sorted.imp (hle _ _)) target

/-- `seekToLast` has all entries behind. -/
theorem behind_seekToLast (c : Cursor K V r) : c.seekToLast.behind = c.map.entries := by
  show (if decide (c.map.entries.length - 1 < c.map.entries.length) = true then
    c.map.entries.take (c.map.entries.length - 1 + 1) else []) = _
  split_ifs with hlt
  · have hpos : c.map.entries.length - 1 < c.map.entries.length := of_decide_eq_true hlt
    exact List.take_of_length_le (by omega)
  · have hnil : c.map.entries.length = 0 := by
      have := mt decide_eq_true hlt
      omega
    exact (List.length_eq_zero_iff.mp hnil).symm

end Movement

/-- Keys grow with positions. -/
theorem key_lt {m : SortedMap K V} {i j : Nat} {a b : K × V} (ha : m.entries[i]? = some a)
    (hb : m.entries[j]? = some b) (hij : i < j) : a.1 < b.1 := by
  obtain ⟨hi, rfl⟩ := List.getElem?_eq_some_iff.mp ha
  obtain ⟨hj, rfl⟩ := List.getElem?_eq_some_iff.mp hb
  exact List.pairwise_iff_getElem.mp m.sorted i j hi hj hij

/-- Positions grow with keys. -/
theorem pos_lt {m : SortedMap K V} {i j : Nat} {a b : K × V} (ha : m.entries[i]? = some a)
    (hb : m.entries[j]? = some b) (hab : a.1 < b.1) : i < j := by
  rcases lt_trichotomy i j with hlt | rfl | hgt
  · exact hlt
  · rw [ha] at hb
    cases hb
    exact absurd hab (lt_irrefl _)
  · exact absurd hab (lt_asymm (key_lt hb ha hgt))

/-- A position splits a sorted list: if exactly the entries from `i` on satisfy `P`, the entry at
`i` is the first that does. -/
theorem isFirst_at {m : SortedMap K V} {P : K → Prop} {i : Nat}
    (h : ∀ j e, m.entries[j]? = some e → (P e.1 ↔ i ≤ j)) :
    IsFirst P m.entries m.entries[i]? := by
  cases hi : m.entries[i]? with
  | none =>
      intro x hx hp
      obtain ⟨j, hj⟩ := List.mem_iff_getElem?.mp hx
      have hle := (h j x hj).mp hp
      have hlen := List.getElem?_eq_none_iff.mp hi
      have hlt := (List.getElem?_eq_some_iff.mp hj).1
      omega
  | some e =>
      refine ⟨List.mem_of_getElem? hi, (h i e hi).mpr (le_refl i), ?_⟩
      intro x hx hp
      obtain ⟨j, hj⟩ := List.mem_iff_getElem?.mp hx
      rcases Nat.eq_or_lt_of_le ((h j x hj).mp hp) with rfl | hlt
      · rw [hi] at hj
        cases hj
        exact le_refl _
      · exact (key_lt hi hj hlt).le

/-- If exactly the entries up to `i` satisfy `P`, the entry at `i` is the last that does. -/
theorem isLast_at {m : SortedMap K V} {P : K → Prop} {i : Nat} (hi : i < m.entries.length)
    (h : ∀ j e, m.entries[j]? = some e → (P e.1 ↔ j ≤ i)) :
    IsLast P m.entries m.entries[i]? := by
  have hget := List.getElem?_eq_getElem hi
  rw [hget]
  refine ⟨List.getElem_mem hi, (h i _ hget).mpr (le_refl i), ?_⟩
  intro x hx hp
  obtain ⟨j, hj⟩ := List.mem_iff_getElem?.mp hx
  rcases Nat.eq_or_lt_of_le ((h j x hj).mp hp) with rfl | hlt
  · rw [hget] at hj
    cases hj
    exact le_refl _
  · exact (key_lt hj hget hlt).le

/-- `seekToFirst` stands on the first entry. -/
theorem isFirst_seekToFirst (c : Cursor K V) :
    IsFirst (fun _ => True) c.map.entries c.seekToFirst.current? :=
  isFirst_at fun _ _ _ => ⟨fun _ => Nat.zero_le _, fun _ => trivial⟩

/-- `seekToLast` stands on the last entry. -/
theorem isLast_seekToLast (c : Cursor K V) :
    IsLast (fun _ => True) c.map.entries c.seekToLast.current? := by
  rcases Nat.eq_zero_or_pos c.map.entries.length with hnil | hpos
  · have hentries : c.map.entries = [] := List.length_eq_zero_iff.mp hnil
    simp [current?, seekToLast, hentries, IsLast]
  · refine isLast_at (show c.map.entries.length - 1 < _ by omega) ?_
    intro j e hj
    have hlt := (List.getElem?_eq_some_iff.mp hj).1
    exact ⟨fun _ => show j ≤ c.map.entries.length - 1 by omega, fun _ => trivial⟩

/-- `seek` stands on the first entry at or past its target. -/
theorem isFirst_seek (c : Cursor K V) (target : K) :
    IsFirst (fun k => target ≤ k) c.map.entries (c.seek target).current? := by
  refine isFirst_at ?_
  intro j e hj
  obtain ⟨hlen, rfl⟩ := List.getElem?_eq_some_iff.mp hj
  constructor
  · intro hle
    by_contra hlt
    have hfalse := List.not_of_lt_findIdx (not_le.mp hlt)
    simp only [decide_eq_false_iff_not] at hfalse
    exact hfalse hle
  · intro hle
    have hbound : (c.seek target).pos < c.map.entries.length := lt_of_le_of_lt hle hlen
    have hfound : target ≤ (c.map.entries[(c.seek target).pos]).1 := by
      have := List.findIdx_getElem (w := hbound)
      exact of_decide_eq_true this
    rcases Nat.eq_or_lt_of_le hle with heq | hlt
    · simpa [heq] using hfound
    · exact hfound.trans (key_lt (List.getElem?_eq_getElem hbound) hj hlt).le

/-- `next` stands on the first entry past the current key. -/
theorem isFirst_next {c : Cursor K V} {e : K × V} (h : c.current? = some e) :
    IsFirst (fun k => e.1 < k) c.map.entries c.next.current? := by
  have hvalid : c.valid = true := by simp [valid_eq, h]
  simp only [next, hvalid, if_true, current?]
  refine isFirst_at ?_
  intro j x hj
  constructor
  · intro hlt
    exact pos_lt h hj hlt
  · intro hle
    exact key_lt h hj hle

/-- `prev` stands on the last entry before the current key. -/
theorem isLast_prev {c : Cursor K V} {e : K × V} (h : c.current? = some e) :
    IsLast (fun k => k < e.1) c.map.entries c.prev.current? := by
  have hvalid : c.valid = true := by simp [valid_eq, h]
  have hpos : c.pos < c.map.entries.length := (List.getElem?_eq_some_iff.mp h).1
  simp only [prev, hvalid, if_true, current?]
  split_ifs with hzero
  · rw [List.getElem?_eq_none (le_refl _)]
    intro x hx hlt
    obtain ⟨j, hj⟩ := List.mem_iff_getElem?.mp hx
    have := pos_lt hj h hlt
    omega
  · refine isLast_at (by omega) ?_
    intro j x hj
    constructor
    · intro hlt
      have := pos_lt hj h hlt
      omega
    · intro hle
      exact key_lt hj h (by omega)

/-- A cursor on an entry has its key and what is ahead of the next position ahead. -/
theorem ahead_of_current {c : Cursor K V} {e : K × V} (h : c.current? = some e) :
    c.ahead = e.1 :: c.next.ahead := by
  rw [ahead, remains_of_current h, List.map_cons, ahead]

/-- An exhausted cursor has nothing ahead. -/
theorem ahead_of_not_valid {c : Cursor K V} (h : c.valid = false) : c.ahead = [] := by
  rw [ahead, remains_of_not_valid (by simp [h]), List.map_nil]

/-- `seek` has the keys at or past its target ahead. -/
theorem ahead_seek (c : Cursor K V) (target : K) :
    (c.seek target).ahead = SortedMap.keysFrom c.map target := by
  rw [ahead, remains_seek fun _ _ => le_of_lt, SortedMap.keysFrom, SortedMap.keys, List.filter_map]
  rfl

end Cursor

end P2KVS.Sorted
