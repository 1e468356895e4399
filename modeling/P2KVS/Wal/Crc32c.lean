import P2KVS.Foundation.Crc
import P2KVS.Store.Key
import P2KVS.Wal.CrcTables

/-!
# The checksum of log records

`util/crc32c.cc` in its portable form: `ExtendImpl` takes single bytes up to an aligned address,
then eight bytes at a time through four tables, then the rest. `extend_impl_is_crc` says that this
is the division by the Castagnoli polynomial, bit by bit, wherever the bytes lie in memory.
-/

namespace P2KVS.Crc32c

open LittleEndian Crc

/-- The polynomial of CRC-32C, reflected. -/
def castagnoli : BitVec 32 := 0x82f63b78#32

/-- An access to one of the tables. -/
def lookup (table : List Nat) (i : Nat) : BitVec 32 :=
  BitVec.ofNat 32 (table.getD i 0)

/-- `STEP1`. -/
def step1 (l : BitVec 32) (b : Byte) : BitVec 32 :=
  lookup table0 (l.toNat % 256 ^^^ b.val) ^^^ (l >>> 8)

/-- One of the two halves of `Slow_CRC32`. -/
def slowWord (l : BitVec 32) (p : Slice) : BitVec 32 :=
  let c := l.toNat ^^^ value (p.take 4)
  lookup table3 (c % 256) ^^^ lookup table2 (c / 256 % 256) ^^^
    lookup table1 (c / 256 / 256 % 256) ^^^ lookup table0 (c / 256 / 256 / 256)

/-- `Slow_CRC32`, with the pointer behind it. -/
def slowCRC32 (l : BitVec 32) (p : Slice) : BitVec 32 × Slice :=
  (slowWord (slowWord l p) (p.drop 4), p.drop 8)

/-- The loop of `ExtendImpl` over sixteen bytes. -/
def sixteens (l : BitVec 32) (p : Slice) : BitVec 32 × Slice :=
  if 16 ≤ p.length then
    let first := slowCRC32 l p
    let second := slowCRC32 first.1 first.2
    sixteens second.1 second.2
  else (l, p)
termination_by p.length
decreasing_by simp only [slowCRC32, List.length_drop]; omega

/-- The loop of `ExtendImpl` over eight bytes. -/
def eights (l : BitVec 32) (p : Slice) : BitVec 32 × Slice :=
  if 8 ≤ p.length then
    let word := slowCRC32 l p
    eights word.1 word.2
  else (l, p)
termination_by p.length
decreasing_by simp only [slowCRC32, List.length_drop]; omega

/-- `ExtendImpl<Slow_CRC32>` on bytes that lie at the address `pval`. -/
def extendImpl (pval : Nat) (crc : BitVec 32) (buf : Slice) : BitVec 32 :=
  let l := crc ^^^ 0xffffffff#32
  -- the bytes up to the next address that 16 divides
  let x := (pval + 15) / 16 * 16 - pval
  let (l, p) := if x ≤ buf.length then ((buf.take x).foldl step1 l, buf.drop x) else (l, buf)
  let (l, p) := sixteens l p
  let (l, p) := eights l p
  p.foldl step1 l ^^^ 0xffffffff#32

/-- `Extend`. The address of the bytes makes no difference to it. -/
def extend (crc : BitVec 32) (data : Slice) : BitVec 32 :=
  extendImpl 0 crc data

/-- `Value`. -/
def valueOf (data : Slice) : BitVec 32 :=
  extend 0 data

/-- `kMaskDelta`. -/
def kMaskDelta : BitVec 32 := 0xa282ead8#32

/-- `Mask`. -/
def mask (crc : BitVec 32) : BitVec 32 :=
  ((crc >>> 15) ||| (crc <<< 17)) + kMaskDelta

/-- `Unmask`. -/
def unmask (maskedCrc : BitVec 32) : BitVec 32 :=
  let rot := maskedCrc - kMaskDelta
  (rot >>> 17) ||| (rot <<< 15)

/-- `table0_` has the quotients of a byte, the others those of a byte with one to three more
behind it. -/
theorem tables_eq :
    table0 = (List.range 256).map (fun i => (bitSteps castagnoli 8 (BitVec.ofNat 32 i)).toNat) ∧
    table1 = (List.range 256).map (fun i => (bitSteps castagnoli 16 (BitVec.ofNat 32 i)).toNat) ∧
    table2 = (List.range 256).map (fun i => (bitSteps castagnoli 24 (BitVec.ofNat 32 i)).toNat) ∧
    table3 =
      (List.range 256).map (fun i => (bitSteps castagnoli 32 (BitVec.ofNat 32 i)).toNat) := by
  decide +kernel

/-- An entry of a table that is given by a function. -/
theorem lookup_map (f : Nat → BitVec 32) {i : Nat} (hi : i < 256) :
    lookup ((List.range 256).map fun i => (f i).toNat) i = f i := by
  simp [lookup, hi]

/-- An entry of `table0_`. -/
theorem lookup_table0 {i : Nat} (hi : i < 256) :
    lookup table0 i = bitSteps castagnoli 8 (BitVec.ofNat 32 i) := by
  rw [tables_eq.1, lookup_map _ hi]

/-- `STEP1` takes in a byte. -/
theorem step1_eq (l : BitVec 32) (b : Byte) : step1 l b = byteStep castagnoli l b := by
  have hlt : l.toNat % 256 ^^^ b.val < 2 ^ 8 :=
    Nat.xor_lt_two_pow (Nat.mod_lt _ (by decide)) b.isLt
  rw [byteStep_eq_table l b (by decide), step1, lookup_table0 hlt]

/-- The loops over single bytes. -/
theorem foldl_step1 (l : BitVec 32) (bytes : Slice) :
    bytes.foldl step1 l = bytesStep castagnoli l bytes := by
  rw [bytesStep]
  congr 1
  funext l b
  exact step1_eq l b

/-- A word of four bytes is taken in with one look at each table. -/
theorem slowWord_eq (l : BitVec 32) {p : Slice} (hlen : 4 ≤ p.length) :
    slowWord l p = bytesStep castagnoli l (p.take 4) := by
  have hfour : (p.take 4).length = 4 := by simp [hlen]
  have hvalue : value (p.take 4) < 2 ^ 32 := by
    have := value_lt (p.take 4)
    rw [hfour] at this
    exact this
  have hc : l.toNat ^^^ value (p.take 4) < 2 ^ 32 := Nat.xor_lt_two_pow l.isLt hvalue
  rw [bytesStep_eq_bitSteps l (p.take 4) (by omega), hfour]
  have hxor : l ^^^ BitVec.ofNat 32 (value (p.take 4)) =
      BitVec.ofNat 32 (l.toNat ^^^ value (p.take 4)) := by
    rw [BitVec.ofNat_xor, BitVec.ofNat_toNat, BitVec.setWidth_eq]
  rw [hxor, slowWord]
  generalize l.toNat ^^^ value (p.take 4) = c at hc
  -- the four bytes of the word apart, each with the steps that are left behind it
  rw [bitSteps_split 24 c (by omega), bitSteps_split 16 (c / 256) (by omega),
    bitSteps_split 8 (c / 256 / 256) (by omega), lookup_table0 (by omega), tables_eq.2.1,
    tables_eq.2.2.1, tables_eq.2.2.2, lookup_map _ (by omega), lookup_map _ (by omega),
    lookup_map _ (by omega), BitVec.xor_assoc, BitVec.xor_assoc]

/-- `Slow_CRC32` takes in eight bytes. -/
theorem slowCRC32_eq (l : BitVec 32) {p : Slice} (hlen : 8 ≤ p.length) :
    slowCRC32 l p = (bytesStep castagnoli l (p.take 8), p.drop 8) := by
  have hsplit : p.take 8 = p.take 4 ++ (p.drop 4).take 4 := by
    rw [← List.take_add]
  rw [slowCRC32, slowWord_eq l (by omega), slowWord_eq _ (by simp; omega), hsplit,
    bytesStep_append]

/-- The loop over sixteen bytes takes in what it steps over. -/
theorem sixteens_eq (l : BitVec 32) (p : Slice) :
    bytesStep castagnoli (sixteens l p).1 (sixteens l p).2 = bytesStep castagnoli l p := by
  fun_induction sixteens l p with
  | case1 l p hlen first second ih =>
      have hfirst : first = _ := slowCRC32_eq l (show 8 ≤ p.length by omega)
      have hsecond : second = _ := slowCRC32_eq first.1 (p := first.2) (by
        rw [hfirst, List.length_drop]
        omega)
      rw [ih, hsecond, ← bytesStep_append, List.take_append_drop, hfirst, ← bytesStep_append,
        List.take_append_drop]
  | case2 l p hlen => rfl

/-- The loop over eight bytes takes in what it steps over. -/
theorem eights_eq (l : BitVec 32) (p : Slice) :
    bytesStep castagnoli (eights l p).1 (eights l p).2 = bytesStep castagnoli l p := by
  fun_induction eights l p with
  | case1 l p hlen word ih =>
      have hword : word = _ := slowCRC32_eq l hlen
      rw [ih, hword, ← bytesStep_append, List.take_append_drop]
  | case2 l p hlen => rfl

/-- The portable implementation computes CRC-32C bit by bit, whatever the address of the bytes. -/
theorem extendImpl_eq (pval : Nat) (crc : BitVec 32) (buf : Slice) :
    extendImpl pval crc buf =
      bytesStep castagnoli (crc ^^^ 0xffffffff#32) buf ^^^ 0xffffffff#32 := by
  simp only [extendImpl]
  split
  next hx =>
    rw [foldl_step1, eights_eq, sixteens_eq, foldl_step1, ← bytesStep_append,
      List.take_append_drop]
  next hx => rw [foldl_step1, eights_eq, sixteens_eq]

/-- Extending the checksum of some bytes by more bytes gives that of all of them. -/
theorem extend_extend (crc : BitVec 32) (a b : Slice) :
    extend (extend crc a) b = extend crc (a ++ b) := by
  simp only [extend, extendImpl_eq, BitVec.xor_assoc, BitVec.xor_self, BitVec.xor_zero,
    bytesStep_append]

/-- `Unmask` undoes `Mask`. -/
theorem unmask_mask (crc : BitVec 32) : unmask (mask crc) = crc := by
  simp only [unmask, mask, BitVec.add_sub_cancel]
  apply BitVec.eq_of_getLsbD_eq
  intro i hi
  simp only [BitVec.getLsbD_or, BitVec.getLsbD_ushiftRight, BitVec.getLsbD_shiftLeft]
  have hpast : crc.getLsbD (15 + (17 + i)) = false := BitVec.getLsbD_of_ge _ _ (by omega)
  by_cases hlow : i < 15
  · simp [hlow, hi, hpast, show 17 + i < 32 by omega]
  · have hback : 15 + (i - 15) = i := by omega
    simp [hlow, hi, hpast, hback, show ¬ 17 + i < 32 by omega, show i - 15 < 17 by omega]

/-- Messages that differ within four consecutive bytes have different checksums. -/
theorem valueOf_ne (before behind : Slice) {a b : Slice} (hlen : a.length = b.length)
    (hfour : a.length ≤ 4) (hne : a ≠ b) :
    valueOf (before ++ a ++ behind) ≠ valueOf (before ++ b ++ behind) := by
  intro h
  simp only [valueOf, extend, extendImpl_eq] at h
  exact bytesStep_ne (by decide) _ before behind hlen (by omega) hne ((BitVec.xor_left_inj _).mp h)

/-- The portable implementation computes CRC-32C bit by bit, whatever the address of the bytes, and
over any cut of the bytes into two pieces, wherever these lie in memory. -/
theorem extend_impl_is_crc (pval pval' : Nat) (crc : BitVec 32) (a b : Slice) :
    extendImpl pval crc a =
        bytesStep castagnoli (crc ^^^ 0xffffffff#32) a ^^^ 0xffffffff#32 ∧
      extendImpl pval' (extendImpl pval crc a) b =
        bytesStep castagnoli (crc ^^^ 0xffffffff#32) (a ++ b) ^^^ 0xffffffff#32 := by
  refine ⟨extendImpl_eq pval crc a, ?_⟩
  rw [extendImpl_eq, extendImpl_eq, BitVec.xor_assoc, BitVec.xor_self, BitVec.xor_zero,
    bytesStep_append]

end P2KVS.Crc32c
