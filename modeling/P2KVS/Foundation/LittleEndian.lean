import Mathlib.Algebra.GroupWithZero.Nat
import Mathlib.Data.Fin.Basic
import Mathlib.Data.Nat.Basic
import Mathlib.Tactic.Ring

/-!
# Little-endian digits

`littleEndian base n v` lists the lowest `n` digits of `v`, the least significant first, and `value`
reads digits back. The two are inverse to each other between the numbers below `base ^ n` and the
lists of `n` digits.
-/

namespace P2KVS.LittleEndian

variable {base : Nat}

/-- The lowest `n` digits of `v`, the least significant first. -/
def littleEndian (base : Nat) [NeZero base] : Nat → Nat → List (Fin base)
  | 0, _ => []
  | n + 1, v => Fin.ofNat base v :: littleEndian base n (v / base)

/-- The number with these digits. -/
def value : List (Fin base) → Nat
  | [] => 0
  | d :: rest => d.val + base * value rest

/-- Digits stand for a number below the power of the base. -/
theorem value_lt (digits : List (Fin base)) : value digits < base ^ digits.length := by
  induction digits with
  | nil => simp [value]
  | cons d rest ih =>
      have hd := d.isLt
      calc d.val + base * value rest
        _ < base + base * value rest := by omega
        _ = base * (value rest + 1) := by ring
        _ ≤ base * base ^ rest.length := Nat.mul_le_mul_left _ ih
        _ = base ^ (rest.length + 1) := by ring

/-- Reading the lowest digits back gives the remainder. -/
theorem value_littleEndian [NeZero base] (n v : Nat) :
    value (littleEndian base n v) = v % base ^ n := by
  induction n generalizing v with
  | zero => simp [littleEndian, value, Nat.mod_one]
  | succ n ih =>
      simp only [littleEndian, value, ih]
      rw [Nat.pow_succ', Nat.mod_mul]
      rfl

/-- Reading back is exact below the power of the base. -/
theorem value_littleEndian_of_lt [NeZero base] {n v : Nat} (h : v < base ^ n) :
    value (littleEndian base n v) = v := by
  rw [value_littleEndian, Nat.mod_eq_of_lt h]

/-- The digits of the number that digits stand for are these digits. -/
theorem littleEndian_value [NeZero base] (digits : List (Fin base)) :
    littleEndian base digits.length (value digits) = digits := by
  induction digits with
  | nil => rfl
  | cons d rest ih =>
      have hpos : 0 < base := Nat.pos_of_ne_zero (NeZero.ne base)
      have hdiv : (d.val + base * value rest) / base = value rest := by
        rw [Nat.add_mul_div_left _ _ hpos, Nat.div_eq_of_lt d.isLt, Nat.zero_add]
      have hmod : Fin.ofNat base (d.val + base * value rest) = d := by
        apply Fin.ext
        show (d.val + base * value rest) % base = d.val
        rw [Nat.add_mul_mod_self_left, Nat.mod_eq_of_lt d.isLt]
      simp only [List.length_cons, littleEndian, value, hdiv, hmod, ih]

/-- Lists of digits of one length that stand for the same number are equal. -/
theorem value_injective [NeZero base] {a b : List (Fin base)} (hlen : a.length = b.length)
    (h : value a = value b) : a = b := by
  rw [← littleEndian_value a, ← littleEndian_value b, hlen, h]

end P2KVS.LittleEndian
