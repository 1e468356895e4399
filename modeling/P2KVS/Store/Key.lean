import P2KVS.Foundation.BigEndian
import P2KVS.Foundation.Sorted

/-!
# Keys and their order

`generateKeyFromInt` is the key encoding that every program of the repository shares: the low bytes
of the number, most significant first, padded with the character `0`. `bytewiseComparator` is
RocksDB's default comparator. `generate_key_lt_iff` says that the encoding embeds the numeric order
of the encodable numbers into the comparator's order.
-/

namespace P2KVS

open BigEndian

/-- A byte, compared as `unsigned char`. -/
abbrev Byte := Fin 256

/-- There are bytes. -/
instance byteNeZero : NeZero 256 := ⟨by decide⟩

/-- The bytes a `rocksdb::Slice` points to. -/
abbrev Slice := List Byte

/-- A three-way comparison that agrees with a linear order, as `rocksdb::Comparator` requires. -/
structure Comparator (K : Type*) [LinearOrder K] where
  compare : K → K → Int
  lt_iff : ∀ a b, compare a b < 0 ↔ a < b
  eq_iff : ∀ a b, compare a b = 0 ↔ a = b

/-- A positive comparison says that the first key is the greater one. -/
theorem Comparator.gt_iff {K : Type*} [LinearOrder K] (cmp : Comparator K) (a b : K) :
    0 < cmp.compare a b ↔ b < a := by
  have hlt := cmp.lt_iff a b
  have heq := cmp.eq_iff a b
  rcases lt_trichotomy a b with h | h | h
  · have := hlt.mpr h
    exact ⟨fun hpos => by omega, fun hgt => absurd h (lt_asymm hgt)⟩
  · have := heq.mpr h
    exact ⟨fun hpos => by omega, fun hgt => absurd h (ne_of_gt hgt)⟩
  · have hnot : ¬ cmp.compare a b < 0 := fun hneg => lt_asymm h (hlt.mp hneg)
    have hne : cmp.compare a b ≠ 0 := fun hzero => ne_of_gt h (heq.mp hzero)
    exact ⟨fun _ => h, fun _ => by omega⟩

/-- C's `memcmp` on the first `n` bytes, which both slices have. -/
def memcmp : Nat → Slice → Slice → Int
  | n + 1, x :: a, y :: b => if x < y then -1 else if y < x then 1 else memcmp n a b
  | _, _, _ => 0

/-- `Slice::compare`. -/
def compareSlice (a b : Slice) : Int :=
  let minLen := if a.length < b.length then a.length else b.length
  let r := memcmp minLen a b
  if r = 0 then
    if a.length < b.length then -1 else if b.length < a.length then 1 else r
  else r

/-- `Slice::compare` decides on the first bytes unless they are equal. -/
theorem compare_slice_cons (x y : Byte) (a b : Slice) :
    compareSlice (x :: a) (y :: b) =
      if x < y then -1 else if y < x then 1 else compareSlice a b := by
  have hmin : (if (x :: a).length < (y :: b).length then (x :: a).length else (y :: b).length) =
      (if a.length < b.length then a.length else b.length) + 1 := by
    simp only [List.length_cons, Nat.add_lt_add_iff_right]
    split <;> rfl
  simp only [compareSlice, hmin, memcmp]
  simp only [List.length_cons, Nat.add_lt_add_iff_right]
  rcases lt_trichotomy x y with h | h | h
  · simp [h]
  · simp [h]
  · simp [h, lt_asymm h]

/-- `Slice::compare` is the lexicographic comparison of bytes. -/
theorem compare_slice_spec (a b : Slice) :
    (compareSlice a b < 0 ↔ a < b) ∧ (compareSlice a b = 0 ↔ a = b) := by
  induction a generalizing b with
  | nil =>
      cases b with
      | nil => simp [compareSlice, memcmp]
      | cons y b => simp [compareSlice, memcmp]
  | cons x a ih =>
      cases b with
      | nil => simp [compareSlice, memcmp]
      | cons y b =>
          obtain ⟨hlt, heq⟩ := ih b
          rw [compare_slice_cons, List.cons_lt_cons_iff, List.cons.injEq]
          rcases lt_trichotomy x y with h | h | h
          · simp [h, ne_of_lt h]
          · simp [h, hlt, heq]
          · simp [h, lt_asymm h, ne_of_gt h]

/-- `rocksdb::BytewiseComparator()`. -/
def bytewiseComparator : Comparator Slice where
  compare := compareSlice
  lt_iff := fun a b => (compare_slice_spec a b).1
  eq_iff := fun a b => (compare_slice_spec a b).2

/-- The expression `(v >> shift) & 0xFF`. -/
def byteAt (v : UInt64) (shift : Nat) : Byte :=
  Fin.ofNat 256 ((v >>> UInt64.ofNat shift) &&& 0xFF).toNat

/-- The character `0` that pads keys and fills values. -/
def charZero : Byte := 48

/-- `GenerateKeyFromInt`: the bytes it leaves in the key buffer of `keySize` bytes. -/
def generateKeyFromInt (keySize : Nat) (v : UInt64) : Slice :=
  let bytesToFill := min keySize 8
  (List.range bytesToFill).map (fun i => byteAt v ((bytesToFill - i - 1) <<< 3)) ++
    List.replicate (keySize - bytesToFill) charZero

/-- A key has the size of the buffer. -/
@[simp] theorem length_generateKeyFromInt (keySize : Nat) (v : UInt64) :
    (generateKeyFromInt keySize v).length = keySize := by
  simp [generateKeyFromInt]

/-- Shifting by whole bytes reads a base-256 digit. -/
theorem byte_at_digit (v : UInt64) {i : Nat} (hi : i < 8) :
    byteAt v (i <<< 3) = Fin.ofNat 256 (v.toNat / 256 ^ i) := by
  have hshift : i <<< 3 = 8 * i := by
    rw [Nat.shiftLeft_eq]
    omega
  have hmask : ∀ w : Nat, w &&& 255 = w % 256 := fun w => Nat.and_two_pow_sub_one_eq_mod w 8
  have hsmall : 8 * i < 2 ^ 64 := by omega
  have hpow : 2 ^ (8 * i) = 256 ^ i := by rw [Nat.pow_mul]
  apply Fin.ext
  simp only [byteAt, hshift, Fin.val_ofNat, UInt64.toNat_and, UInt64.toNat_shiftRight,
    UInt64.toNat_ofNat', Nat.mod_eq_of_lt hsmall]
  rw [Nat.mod_eq_of_lt (show 8 * i < 64 by omega), show (0xFF : UInt64).toNat = 255 from rfl,
    hmask, Nat.mod_mod, Nat.shiftRight_eq_div_pow, hpow]

/-- The encoding is the big-endian digits followed by padding. -/
theorem generate_key_eq (keySize : Nat) (v : UInt64) :
    generateKeyFromInt keySize v =
      bigEndian 256 (min keySize 8) v.toNat ++
        List.replicate (keySize - min keySize 8) charZero := by
  have hdigits : ∀ n ≤ 8, (List.range n).map (fun i => byteAt v ((n - i - 1) <<< 3)) =
      bigEndian 256 n v.toNat := by
    intro n hn
    induction n with
    | zero => rfl
    | succ n ih =>
        rw [List.range_succ_eq_map, List.map_cons, List.map_map, bigEndian, ← ih (by omega),
          ← byte_at_digit v (show n < 8 by omega)]
        congr 1
        refine List.map_congr_left fun i _ => ?_
        simp only [Function.comp_apply]
        congr 2
        omega
  simp only [generateKeyFromInt, hdigits _ (Nat.min_le_right keySize 8)]

/-- Lists with a common tail are ordered as their equally long heads. -/
theorem append_lt_append_iff {a b tail : Slice} (hlen : a.length = b.length) :
    a ++ tail < b ++ tail ↔ a < b := by
  induction a generalizing b with
  | nil =>
      cases b with
      | nil => simp
      | cons y b => simp at hlen
  | cons x a ih =>
      cases b with
      | nil => simp at hlen
      | cons y b =>
          simp only [List.cons_append, List.cons_lt_cons_iff, ih (Nat.succ.inj hlen)]

/-- The encoding embeds the order of the numbers that fit the encoded bytes. -/
theorem generate_key_lt_iff (keySize : Nat) {u v : UInt64}
    (hu : u.toNat < 256 ^ min keySize 8) (hv : v.toNat < 256 ^ min keySize 8) :
    generateKeyFromInt keySize u < generateKeyFromInt keySize v ↔ u.toNat < v.toNat := by
  rw [generate_key_eq, generate_key_eq, append_lt_append_iff (by simp), bigEndian_lt_iff hu hv]

/-- `memcmp` over two whole slices of one size is their comparison. -/
theorem memcmp_eq_compareSlice {n : Nat} {a b : Slice} (ha : a.length = n) (hb : b.length = n) :
    memcmp n a b = compareSlice a b := by
  simp only [compareSlice, ha, hb, lt_irrefl, if_false, ite_self]

/-- The sign of `memcmp` on two encoded numbers is their numeric comparison. -/
theorem compare_memcmp_key {keySize : Nat} {u v : UInt64} (hu : u.toNat < 256 ^ min keySize 8)
    (hv : v.toNat < 256 ^ min keySize 8) :
    compare (memcmp keySize (generateKeyFromInt keySize u) (generateKeyFromInt keySize v)) 0 =
      compare u.toNat v.toNat := by
  have hcmp : ∀ a b, bytewiseComparator.compare a b = compareSlice a b := fun _ _ => rfl
  rw [memcmp_eq_compareSlice (by simp) (by simp), ← hcmp]
  rcases lt_trichotomy u.toNat v.toNat with hlt | heq | hgt
  · rw [compare_lt_iff_lt.mpr hlt, compare_lt_iff_lt, bytewiseComparator.lt_iff]
    exact (generate_key_lt_iff keySize hu hv).mpr hlt
  · rw [UInt64.toNat_inj.mp heq, compare_eq_iff_eq.mpr rfl, compare_eq_iff_eq,
      bytewiseComparator.eq_iff]
  · rw [compare_gt_iff_gt.mpr hgt, compare_gt_iff_gt, bytewiseComparator.gt_iff]
    exact (generate_key_lt_iff keySize hv hu).mpr hgt

/-- Numbers that fit the encoded bytes have different keys. -/
theorem generate_key_inj {keySize : Nat} {u v : UInt64} (hu : u.toNat < 256 ^ min keySize 8)
    (hv : v.toNat < 256 ^ min keySize 8)
    (h : generateKeyFromInt keySize u = generateKeyFromInt keySize v) : u = v := by
  have hnot : ∀ {a b : UInt64}, a.toNat < 256 ^ min keySize 8 → b.toNat < 256 ^ min keySize 8 →
      generateKeyFromInt keySize a = generateKeyFromInt keySize b → ¬ a.toNat < b.toNat :=
    fun ha hb heq hlt => absurd ((generate_key_lt_iff keySize ha hb).mpr hlt) (heq ▸ lt_irrefl _)
  have huv := hnot hu hv h
  have hvu := hnot hv hu h.symm
  exact UInt64.toNat_inj.mp (by omega)

/-- `GenerateKeyFromInt` is an order embedding. Keys have `key_size_` bytes, and for numbers below
`2 ^ (8 * min(key_size_, 8))` their `memcmp` is the numeric comparison and different numbers have
different keys. With eight bytes or more this holds for all 64-bit numbers. -/
theorem generate_key_order_embedding (keySize : Nat) :
    let key := generateKeyFromInt keySize
    (∀ v, (key v).length = keySize) ∧
      (∀ u v : UInt64, u.toNat < 2 ^ (8 * min keySize 8) → v.toNat < 2 ^ (8 * min keySize 8) →
        compare (memcmp keySize (key u) (key v)) 0 = compare u.toNat v.toNat ∧
          (key u = key v → u = v)) ∧
      (8 ≤ keySize → ∀ u v : UInt64,
        compare (memcmp keySize (key u) (key v)) 0 = compare u.toNat v.toNat ∧
          (key u = key v → u = v)) := by
  intro key
  have hpow : 2 ^ (8 * min keySize 8) = 256 ^ min keySize 8 := by rw [Nat.pow_mul]
  have hfit : ∀ u v : UInt64, u.toNat < 2 ^ (8 * min keySize 8) →
      v.toNat < 2 ^ (8 * min keySize 8) →
      compare (memcmp keySize (key u) (key v)) 0 = compare u.toNat v.toNat ∧
        (key u = key v → u = v) := by
    intro u v hu hv
    rw [hpow] at hu hv
    exact ⟨compare_memcmp_key hu hv, generate_key_inj hu hv⟩
  refine ⟨length_generateKeyFromInt keySize, hfit, fun hsize u v => hfit u v ?_ ?_⟩
  · rw [Nat.min_eq_right hsize]
    exact u.toNat_lt
  · rw [Nat.min_eq_right hsize]
    exact v.toNat_lt

/-- With two bytes the keys of 255 and 256 differ in both bytes. -/
theorem generate_key_order_embedding_two_bytes :
    generateKeyFromInt 2 255 = [0, 255] ∧ generateKeyFromInt 2 256 = [1, 0] ∧
      compare (memcmp 2 (generateKeyFromInt 2 255) (generateKeyFromInt 2 256)) 0 =
        compare (255 : UInt64).toNat (256 : UInt64).toNat := by
  have hlaw := (generate_key_order_embedding 2).2.1 255 256 (by decide) (by decide)
  exact ⟨by decide, by decide, hlaw.1⟩

end P2KVS
