import Mathlib.Algebra.Group.Int.Defs
import P2KVS.ReadTest.Dispatch
import P2KVS.WriteTest.EndToEnd

/-!
# Where `write_test.cpp` and `read_test.cpp` look for a key

Both programs draw `uint64_t` values and keep them in an `int` field. `write_test.cpp` takes the
residue of the value, `read_test.cpp` that of the `int` it has converted the value to, and the C++
remainder of a negative number is not positive. `same_location` says for which `TOTAL_NUM` and
`QUEUE_NUM` the two still agree.
-/

namespace P2KVS.ReadTest

/-- `int q_num = key % QUEUE_NUM` of `write_test.cpp`, on the `uint64_t`. -/
def writeIndex (queueNum : Nat) (v : UInt64) : Int :=
  Int.bmod (v.toNat % queueNum : Nat) (2 ^ 32)

/-- The `i`-th request of `read_test.cpp`. -/
def readRequest (i : Nat) (v : UInt64) : AsyncRequest :=
  fillRequest i v .blank

/-- The bytes under which `write_test.cpp` stores its `i`-th value. -/
def writtenBytes (i : Nat) (v : UInt64) : Slice :=
  (WriteTest.record (WriteTest.fillRequest i v .blank)).1

section Conversion

variable {queueNum : Nat} {v u : UInt64}

/-- The conversion yields the `int` that is congruent to the value. -/
theorem intKey_spec (v : UInt64) :
    -2 ^ 31 ≤ intKey v ∧ intKey v < 2 ^ 31 ∧ intKey v % 2 ^ 32 = (v.toNat : Int) % 2 ^ 32 := by
  have hlow : -((2 ^ 32 : Nat) / 2 : Int) ≤ intKey v := Int.le_bmod (Nat.two_pow_pos 32)
  have hhigh : intKey v < ((2 ^ 32 : Nat) + 1) / 2 := Int.bmod_lt (Nat.two_pow_pos 32)
  have hmod : intKey v % (2 ^ 32 : Nat) = (v.toNat : Int) % (2 ^ 32 : Nat) := Int.bmod_emod
  refine ⟨?_, ?_, hmod⟩ <;> omega

/-- The lower half of the 32-bit values is kept. -/
theorem intKey_of_lt (h : v.toNat < 2 ^ 31) : intKey v = v.toNat := by
  obtain ⟨hlow, hhigh, hmod⟩ := intKey_spec v
  omega

/-- The upper half becomes negative. -/
theorem intKey_of_le (hlow : 2 ^ 31 ≤ v.toNat) (hhigh : v.toNat < 2 ^ 32) :
    intKey v = -((2 ^ 32 - v.toNat : Nat) : Int) := by
  obtain ⟨_, _, hmod⟩ := intKey_spec v
  omega

/-- Values of 32 bits are not confused. -/
theorem intKey_inj (hu : u.toNat < 2 ^ 32) (hv : v.toNat < 2 ^ 32) (h : intKey u = intKey v) :
    u = v := by
  obtain ⟨_, _, hmodu⟩ := intKey_spec u
  obtain ⟨_, _, hmodv⟩ := intKey_spec v
  refine UInt64.toNat_inj.mp ?_
  omega

/-- Values that are congruent modulo `2 ^ 32` become the same `int`. -/
theorem intKey_congr (h : u.toNat % 2 ^ 32 = v.toNat % 2 ^ 32) : intKey u = intKey v := by
  obtain ⟨_, _, hmodu⟩ := intKey_spec u
  obtain ⟨_, _, hmodv⟩ := intKey_spec v
  omega

/-- The conversion of an `int` to `uint64_t` extends its sign, so it is injective. -/
theorem ofInt_inj {x y : Int} (hx : -2 ^ 31 ≤ x ∧ x < 2 ^ 31) (hy : -2 ^ 31 ≤ y ∧ y < 2 ^ 31)
    (h : UInt64.ofInt x = UInt64.ofInt y) : x = y := by
  have htoNat : ∀ z : Int, (UInt64.ofInt z).toNat = (z % 2 ^ 64).toNat := by
    intro z
    have hlt := Int.emod_lt_of_pos z (show (0 : Int) < 2 ^ 64 by decide)
    rw [UInt64.ofInt, UInt64.toNat_ofNat']
    refine Nat.mod_eq_of_lt ?_
    omega
  have hnat := congrArg UInt64.toNat h
  rw [htoNat, htoNat] at hnat
  omega

/-- `write_test.cpp` stores the same `int` in its requests. -/
theorem key_fillRequest (i : Nat) (v : UInt64) :
    (WriteTest.fillRequest i v .blank).key = intKey v := by
  unfold WriteTest.fillRequest intKey
  with_reducible rfl

/-- The bytes of a value are those of its `int`. -/
theorem writtenBytes_eq (i : Nat) (v : UInt64) :
    writtenBytes i v = generateKeyFromInt WriteTest.keySize (UInt64.ofInt (intKey v)) := by
  rw [writtenBytes, WriteTest.record, key_fillRequest]

/-- `read_test.cpp` looks for the bytes that `write_test.cpp` has stored. -/
theorem bytes_readRequest (i j : Nat) (v : UInt64) :
    (readRequest i v).bytes = writtenBytes j v := by
  rw [writtenBytes_eq, AsyncRequest.bytes, readRequest, fillRequest,
    show WriteTest.keySize = keySize from rfl]

/-- Two values have the same bytes only if they are the same `int`. -/
theorem intKey_of_writtenBytes {i j : Nat} (h : writtenBytes i u = writtenBytes j v) :
    intKey u = intKey v := by
  have hbound : ∀ w : UInt64, w.toNat < 256 ^ min WriteTest.keySize 8 := by
    intro w
    rw [show 256 ^ min WriteTest.keySize 8 = 2 ^ 64 from rfl]
    exact w.toNat_lt
  obtain ⟨hlowu, hhighu, _⟩ := intKey_spec u
  obtain ⟨hlowv, hhighv, _⟩ := intKey_spec v
  rw [writtenBytes_eq, writtenBytes_eq] at h
  exact ofInt_inj ⟨hlowu, hhighu⟩ ⟨hlowv, hhighv⟩ (generate_key_inj (hbound _) (hbound _) h)

/-- The index of a value in the lower half. -/
theorem readIndex_of_lt (h : v.toNat < 2 ^ 31) :
    readIndex queueNum v = (v.toNat % queueNum : Nat) := by
  rw [readIndex, intKey_of_lt h]
  exact (Int.ofNat_tmod _ _).symm

/-- The index of a value in the upper half is not positive. -/
theorem readIndex_of_le (hlow : 2 ^ 31 ≤ v.toNat) (hhigh : v.toNat < 2 ^ 32) :
    readIndex queueNum v = -(((2 ^ 32 - v.toNat) % queueNum : Nat) : Int) := by
  rw [readIndex, intKey_of_le hlow hhigh, Int.neg_tmod]
  exact congrArg Neg.neg (Int.ofNat_tmod _ _).symm

/-- The residue of the value is an `int` if it is small enough. -/
theorem writeIndex_of_lt (h : v.toNat % queueNum < 2 ^ 31) :
    writeIndex queueNum v = (v.toNat % queueNum : Nat) :=
  Int.bmod_eq_of_le (by omega) (by omega)

/-- A negative `int` has an index only if it is a multiple of `QUEUE_NUM`. -/
theorem dvd_of_readIndex_nonneg (hlow : 2 ^ 31 ≤ v.toNat) (hhigh : v.toNat < 2 ^ 32)
    (h : 0 ≤ readIndex queueNum v) : queueNum ∣ 2 ^ 32 - v.toNat := by
  rw [readIndex_of_le hlow hhigh] at h
  exact Nat.dvd_of_mod_eq_zero (by omega)

/-- Then both programs compute the index 0, if the value is a multiple too. -/
theorem index_of_dvd (hlow : 2 ^ 31 ≤ v.toNat) (hhigh : v.toNat < 2 ^ 32)
    (hneg : queueNum ∣ 2 ^ 32 - v.toNat) (hpos : queueNum ∣ v.toNat) :
    readIndex queueNum v = 0 ∧ writeIndex queueNum v = 0 := by
  have hread := Nat.mod_eq_zero_of_dvd hneg
  have hwrite := Nat.mod_eq_zero_of_dvd hpos
  rw [readIndex_of_le hlow hhigh, writeIndex_of_lt (by omega)]
  omega

end Conversion

/-- For all values below `TOTAL_NUM`, `read_test.cpp` computes an index of an instance, the one that
`write_test.cpp` computes, both programs use the same bytes, and distinct values have distinct
bytes, exactly if `TOTAL_NUM` is at most `2 ^ 31`, or one more and `QUEUE_NUM` divides `2 ^ 31`, or
at most `2 ^ 32` and there is only one instance. -/
theorem same_location {totalNum queueNum : Nat} (hqueue : 1 ≤ queueNum) :
    ((∀ v : UInt64, v.toNat < totalNum →
        (0 ≤ readIndex queueNum v ∧ readIndex queueNum v < queueNum) ∧
          readIndex queueNum v = writeIndex queueNum v ∧
          ∀ i j, (readRequest i v).bytes = writtenBytes j v) ∧
      ∀ u v : UInt64, u.toNat < totalNum → v.toNat < totalNum → u ≠ v →
        ∀ i j, writtenBytes i u ≠ writtenBytes j v) ↔
    totalNum ≤ 2 ^ 31 ∨ totalNum = 2 ^ 31 + 1 ∧ queueNum ∣ 2 ^ 31 ∨
      queueNum = 1 ∧ totalNum ≤ 2 ^ 32 := by
  constructor
  · rintro ⟨hplace, hdistinct⟩
    have hbytes : totalNum ≤ 2 ^ 32 := by
      -- `2 ^ 32` has the bytes of 0
      by_contra hlarge
      have hvalue := UInt64.toNat_ofNat_of_lt' (show 2 ^ 32 < 2 ^ 64 by omega)
      have hzero : (0 : UInt64).toNat = 0 := rfl
      refine hdistinct 0 (UInt64.ofNat (2 ^ 32)) (by omega) (by omega) ?_ 0 0 ?_
      · intro heq
        rw [← heq, hzero] at hvalue
        omega
      · have hsame : intKey 0 = intKey (UInt64.ofNat (2 ^ 32)) := intKey_congr (by omega)
        rw [writtenBytes_eq, writtenBytes_eq, hsame]
    by_cases hsmall : totalNum ≤ 2 ^ 31
    · exact .inl hsmall
    have hfirst := UInt64.toNat_ofNat_of_lt' (show 2 ^ 31 < 2 ^ 64 by omega)
    have hdvd : queueNum ∣ 2 ^ 31 := by
      have hindex := (hplace (UInt64.ofNat (2 ^ 31)) (by omega)).1.1
      have hmultiple := dvd_of_readIndex_nonneg (by omega) (by omega) hindex
      rwa [hfirst, show 2 ^ 32 - 2 ^ 31 = 2 ^ 31 by omega] at hmultiple
    by_cases hone : totalNum = 2 ^ 31 + 1
    · exact .inr (.inl ⟨hone, hdvd⟩)
    -- two consecutive numbers are multiples of `QUEUE_NUM`
    have hsecond := UInt64.toNat_ofNat_of_lt' (show 2 ^ 31 + 1 < 2 ^ 64 by omega)
    have hindex := (hplace (UInt64.ofNat (2 ^ 31 + 1)) (by omega)).1.1
    have hmultiple := dvd_of_readIndex_nonneg (by omega) (by omega) hindex
    rw [hsecond] at hmultiple
    rw [show 2 ^ 31 = 2 ^ 32 - (2 ^ 31 + 1) + 1 by omega] at hdvd
    exact .inr (.inr ⟨Nat.dvd_one.mp ((Nat.dvd_add_right hmultiple).mp hdvd), hbytes⟩)
  · intro hcond
    have htotal : totalNum ≤ 2 ^ 32 := by omega
    have hindex : ∀ v : UInt64, v.toNat < totalNum → readIndex queueNum v = writeIndex queueNum v ∧
        0 ≤ readIndex queueNum v ∧ readIndex queueNum v < queueNum := by
      intro v hv
      by_cases hlow : v.toNat < 2 ^ 31
      · have hlt := Nat.mod_lt v.toNat hqueue
        have hle := Nat.mod_le v.toNat queueNum
        rw [readIndex_of_lt hlow, writeIndex_of_lt (by omega)]
        omega
      · have hzero : readIndex queueNum v = 0 ∧ writeIndex queueNum v = 0 := by
          rcases hcond with hcond | ⟨hcond, hdvd⟩ | ⟨rfl, _⟩
          · omega
          · have hvalue : v.toNat = 2 ^ 31 := by omega
            refine index_of_dvd (by omega) (by omega) ?_ (hvalue ▸ hdvd)
            rwa [hvalue, show 2 ^ 32 - 2 ^ 31 = 2 ^ 31 by omega]
          · exact index_of_dvd (by omega) (by omega) (Nat.one_dvd _) (Nat.one_dvd _)
        omega
    refine ⟨fun v hv => ?_, ?_⟩
    · obtain ⟨hsame, hrange⟩ := hindex v hv
      exact ⟨hrange, hsame, fun i j => bytes_readRequest i j v⟩
    · intro u v hu hv hne i j heq
      exact hne (intKey_inj (by omega) (by omega) (intKey_of_writtenBytes heq))

/-- With eight instances and 320 million keys, the last key is read where it was written. -/
theorem same_location_small :
    let v : UInt64 := 319999999
    v.toNat < 320000000 ∧ readIndex 8 v = writeIndex 8 v ∧
      (readRequest 0 v).bytes = writtenBytes 0 v := by
  intro v
  have hv : v.toNat < 320000000 := by decide
  have hlaw := (same_location (show 1 ≤ 8 by omega)).mpr (.inl (show 320000000 ≤ 2 ^ 31 by omega))
  obtain ⟨_, hindex, hbytes⟩ := hlaw.1 v hv
  exact ⟨hv, hindex, hbytes 0 0⟩

/-- With eight instances and three thousand million keys, `read_test.cpp` indexes `qs` with `-7`. -/
theorem same_location_large :
    let v : UInt64 := 2147483649
    v.toNat < 3000000000 ∧ readIndex 8 v = -7 ∧ writeIndex 8 v = 1 := by
  decide

end P2KVS.ReadTest
