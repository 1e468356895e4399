import P2KVS.Foundation.LittleEndian
import Mathlib.Data.BitVec

/-!
# Cyclic redundancy checks

The reflected form: a state of `w` bits is divided by a polynomial bit by bit, and a byte is added
to the low end of the state before eight such steps. The step is linear, and injective when the
polynomial has its highest bit. So a run of bytes that fits into the state can be added at once,
and two messages that differ within such a run have different checks.
-/

namespace P2KVS.Crc

open LittleEndian

variable {w : Nat} (poly : BitVec w)

/-- Divide by one bit. -/
def bitStep (s : BitVec w) : BitVec w :=
  (s >>> 1) ^^^ (if s.getLsbD 0 then poly else 0#w)

/-- Divide by `n` bits. -/
def bitSteps : Nat → BitVec w → BitVec w
  | 0, s => s
  | n + 1, s => bitSteps n (bitStep poly s)

/-- Take in one byte. -/
def byteStep (s : BitVec w) (b : Fin 256) : BitVec w :=
  bitSteps poly 8 (s ^^^ BitVec.ofNat w b.val)

/-- Take in bytes. -/
def bytesStep (s : BitVec w) (bytes : List (Fin 256)) : BitVec w :=
  bytes.foldl (byteStep poly) s

variable {poly}

/-- A step is linear. -/
theorem bitStep_xor (s t : BitVec w) :
    bitStep poly (s ^^^ t) = bitStep poly s ^^^ bitStep poly t := by
  apply BitVec.eq_of_getLsbD_eq
  intro i hi
  simp only [bitStep, BitVec.getLsbD_xor, BitVec.getLsbD_ushiftRight]
  cases s.getLsbD 0 <;> cases t.getLsbD 0 <;>
    cases s.getLsbD (1 + i) <;> cases t.getLsbD (1 + i) <;> simp

/-- Several steps are linear. -/
theorem bitSteps_xor (n : Nat) (s t : BitVec w) :
    bitSteps poly n (s ^^^ t) = bitSteps poly n s ^^^ bitSteps poly n t := by
  induction n generalizing s t with
  | zero => rfl
  | succ n ih => simp only [bitSteps, bitStep_xor, ih]

/-- Steps in two parts. -/
theorem bitSteps_add (m n : Nat) (s : BitVec w) :
    bitSteps poly (m + n) s = bitSteps poly n (bitSteps poly m s) := by
  induction m generalizing s with
  | zero => rw [Nat.zero_add]; rfl
  | succ m ih => rw [Nat.add_right_comm]; exact ih (bitStep poly s)

/-- A number that is even is halved. -/
theorem bitStep_even (v : Nat) (h : 2 * v < 2 ^ w) :
    bitStep poly (BitVec.ofNat w (2 * v)) = BitVec.ofNat w v := by
  have hlow : (BitVec.ofNat w (2 * v)).getLsbD 0 = false := by
    simp [BitVec.getLsbD_ofNat]
  simp only [bitStep, hlow, Bool.false_eq_true, if_false, BitVec.xor_zero]
  apply BitVec.eq_of_toNat_eq
  have hv : v < 2 ^ w := by omega
  simp only [BitVec.toNat_ushiftRight, BitVec.toNat_ofNat, Nat.mod_eq_of_lt h,
    Nat.mod_eq_of_lt hv, Nat.shiftRight_eq_div_pow]
  omega

/-- A multiple of `2 ^ n` is divided by it in `n` steps. -/
theorem bitSteps_shift (n v : Nat) (h : 2 ^ n * v < 2 ^ w) :
    bitSteps poly n (BitVec.ofNat w (2 ^ n * v)) = BitVec.ofNat w v := by
  induction n with
  | zero => simp [bitSteps]
  | succ n ih =>
      rw [Nat.pow_succ', Nat.mul_assoc] at h ⊢
      rw [bitSteps, bitStep_even _ h]
      exact ih (by omega)

/-- The steps keep different states apart. -/
theorem bitStep_injective (hpoly : poly.msb = true) : Function.Injective (bitStep poly) := by
  intro s t hst
  have hz : bitStep poly (s ^^^ t) = 0#w := by rw [bitStep_xor, hst, BitVec.xor_self]
  have hlow : (s ^^^ t).getLsbD 0 = false := by
    by_contra hne
    have htrue : (s ^^^ t).getLsbD 0 = true := by simpa using hne
    -- the highest bit of the polynomial has nothing to cancel it
    have hmsb := congrArg BitVec.msb hz
    simp [bitStep, htrue, hpoly, BitVec.msb_ushiftRight] at hmsb
  have hshift : (s ^^^ t) >>> 1 = 0#w := by
    simpa [bitStep, hlow] using hz
  have hzero : s ^^^ t = 0#w := by
    apply BitVec.eq_of_getLsbD_eq
    intro i hi
    cases i with
    | zero => simp [hlow]
    | succ i =>
        have hbit := congrArg (fun x => x.getLsbD i) hshift
        simpa [BitVec.getLsbD_ushiftRight, Nat.add_comm] using hbit
  exact BitVec.xor_eq_zero_iff.mp hzero

/-- Several steps keep different states apart too. -/
theorem bitSteps_injective (hpoly : poly.msb = true) (n : Nat) :
    Function.Injective (bitSteps poly n) := by
  induction n with
  | zero => exact fun _ _ h => h
  | succ n ih => exact ih.comp (bitStep_injective hpoly)

/-- A number is the sum of its lowest byte and the rest without a carry. -/
theorem ofNat_split (low high : Nat) (h : low < 2 ^ 8) :
    BitVec.ofNat w (low + 2 ^ 8 * high) =
      BitVec.ofNat w low ^^^ BitVec.ofNat w (2 ^ 8 * high) := by
  rw [← BitVec.ofNat_xor]
  congr 1
  apply Nat.eq_of_testBit_eq
  intro i
  rw [Nat.add_comm, Nat.testBit_two_pow_mul_add _ h, Nat.testBit_xor, Nat.testBit_two_pow_mul]
  by_cases hi : i < 8
  · simp [hi, Nat.not_le.mpr hi]
  · have hlow : low.testBit i = false :=
      Nat.testBit_lt_two_pow (h.trans_le (Nat.pow_le_pow_right (by omega) (by omega)))
    simp [hi, hlow, Nat.not_lt.mp hi]

/-- The lowest byte of a state and the rest of it can be divided apart. -/
theorem bitSteps_split (n v : Nat) (h : v < 2 ^ w) :
    bitSteps poly (8 + n) (BitVec.ofNat w v) =
      bitSteps poly (8 + n) (BitVec.ofNat w (v % 256)) ^^^
        bitSteps poly n (BitVec.ofNat w (v / 256)) := by
  have hv : v = v % 256 + 2 ^ 8 * (v / 256) := by omega
  have hlow : v % 256 < 2 ^ 8 := Nat.mod_lt _ (by decide)
  conv_lhs => rw [hv, ofNat_split _ _ hlow, bitSteps_xor]
  rw [bitSteps_add 8 n (BitVec.ofNat w (2 ^ 8 * (v / 256))), bitSteps_shift 8 _ (by omega)]

/-- Bytes that fit into the state are taken in at once. -/
theorem bytesStep_eq_bitSteps (s : BitVec w) (bytes : List (Fin 256)) (h : 8 * bytes.length ≤ w) :
    bytesStep poly s bytes =
      bitSteps poly (8 * bytes.length) (s ^^^ BitVec.ofNat w (value bytes)) := by
  induction bytes generalizing s with
  | nil => simp [bytesStep, value, bitSteps]
  | cons b rest ih =>
      simp only [List.length_cons] at h
      have hrest : 2 ^ 8 * value rest < 2 ^ w :=
        calc 2 ^ 8 * value rest
          _ < 2 ^ 8 * 256 ^ rest.length := by
              have := value_lt rest
              omega
          _ = 2 ^ (8 + 8 * rest.length) := by
              rw [Nat.pow_add, Nat.pow_mul]
          _ ≤ 2 ^ w := Nat.pow_le_pow_right (by omega) (by omega)
      have hsplit := ofNat_split (w := w) b.val (value rest) b.isLt
      calc bytesStep poly s (b :: rest)
        _ = bytesStep poly (byteStep poly s b) rest := rfl
        _ = bitSteps poly (8 * rest.length)
              (byteStep poly s b ^^^ BitVec.ofNat w (value rest)) := ih _ (by omega)
        _ = bitSteps poly (8 * rest.length)
              (bitSteps poly 8 (s ^^^ BitVec.ofNat w (b.val + 2 ^ 8 * value rest))) := by
            rw [hsplit, ← BitVec.xor_assoc, bitSteps_xor 8 (s ^^^ _), bitSteps_shift 8 _ hrest]
            rfl
        _ = bitSteps poly (8 * (rest.length + 1))
              (s ^^^ BitVec.ofNat w (value (b :: rest))) := by
            rw [← bitSteps_add, Nat.add_comm, Nat.mul_add]
            rfl

/-- Bytes are taken in one part after the other. -/
theorem bytesStep_append (s : BitVec w) (a b : List (Fin 256)) :
    bytesStep poly s (a ++ b) = bytesStep poly (bytesStep poly s a) b :=
  List.foldl_append

/-- Taking in the same bytes keeps different states apart. -/
theorem bytesStep_injective (hpoly : poly.msb = true) (bytes : List (Fin 256)) :
    Function.Injective (bytesStep poly · bytes) := by
  induction bytes with
  | nil => exact fun _ _ h => h
  | cons b rest ih =>
      intro s t h
      exact (BitVec.xor_left_inj _).mp (bitSteps_injective hpoly 8 (ih h))

/-- Messages that differ within as many bytes as the state has lead to different states. -/
theorem bytesStep_ne (hpoly : poly.msb = true) (s : BitVec w) (before behind : List (Fin 256))
    {a b : List (Fin 256)} (hlen : a.length = b.length) (hfit : 8 * a.length ≤ w) (hne : a ≠ b) :
    bytesStep poly s (before ++ a ++ behind) ≠ bytesStep poly s (before ++ b ++ behind) := by
  intro h
  rw [bytesStep_append, bytesStep_append, bytesStep_append _ _ behind,
    bytesStep_append _ before b] at h
  have hmiddle := bytesStep_injective hpoly behind h
  rw [bytesStep_eq_bitSteps _ a hfit, bytesStep_eq_bitSteps _ b (hlen ▸ hfit), hlen] at hmiddle
  have hvalue := (BitVec.xor_right_inj _).mp (bitSteps_injective hpoly _ hmiddle)
  have hlt : ∀ l : List (Fin 256), l.length = b.length → value l < 2 ^ w := by
    intro l hl
    calc value l
      _ < 256 ^ l.length := value_lt l
      _ = 2 ^ (8 * l.length) := by rw [Nat.pow_mul]
      _ ≤ 2 ^ w := Nat.pow_le_pow_right (by omega) (by omega)
  have hnat := congrArg BitVec.toNat hvalue
  rw [BitVec.toNat_ofNat, BitVec.toNat_ofNat, Nat.mod_eq_of_lt (hlt a hlen),
    Nat.mod_eq_of_lt (hlt b rfl)] at hnat
  exact hne (value_injective hlen hnat)

/-- A byte is taken in with one look at the table of the quotients of all bytes. -/
theorem byteStep_eq_table (s : BitVec w) (b : Fin 256) (h : 8 ≤ w) :
    byteStep poly s b =
      bitSteps poly 8 (BitVec.ofNat w (s.toNat % 256 ^^^ b.val)) ^^^ (s >>> 8) := by
  have hb : b.val < 2 ^ w :=
    Nat.lt_of_lt_of_le (show b.val < 2 ^ 8 from b.isLt) (Nat.pow_le_pow_right (by decide) h)
  have hlt : s.toNat ^^^ b.val < 2 ^ w := Nat.xor_lt_two_pow s.isLt hb
  have hxor : s ^^^ BitVec.ofNat w b.val = BitVec.ofNat w (s.toNat ^^^ b.val) := by
    rw [BitVec.ofNat_xor, BitVec.ofNat_toNat, BitVec.setWidth_eq]
  have hlow : (s.toNat ^^^ b.val) % 256 = s.toNat % 256 ^^^ b.val := by
    show (s.toNat ^^^ b.val) % 2 ^ 8 = s.toNat % 2 ^ 8 ^^^ b.val
    rw [Nat.xor_mod_two_pow, Nat.mod_eq_of_lt (a := b.val) b.isLt]
  have hhigh : BitVec.ofNat w ((s.toNat ^^^ b.val) / 256) = s >>> 8 := by
    apply BitVec.eq_of_toNat_eq
    show (BitVec.ofNat w ((s.toNat ^^^ b.val) / 2 ^ 8)).toNat = _
    rw [Nat.xor_div_two_pow, Nat.div_eq_of_lt (a := b.val) b.isLt,
      Nat.xor_zero, BitVec.toNat_ofNat, BitVec.toNat_ushiftRight, Nat.shiftRight_eq_div_pow,
      Nat.mod_eq_of_lt ((Nat.div_le_self _ _).trans_lt s.isLt)]
  calc byteStep poly s b
    _ = bitSteps poly (8 + 0) (BitVec.ofNat w (s.toNat ^^^ b.val)) := by rw [byteStep, hxor]
    _ = _ := bitSteps_split 0 _ hlt
    _ = _ := by
        rw [hlow, hhigh]
        rfl

end P2KVS.Crc
