import Mathlib.Algebra.GroupWithZero.Nat
import Mathlib.Data.Fin.Basic
import Mathlib.Data.List.Lex
import Mathlib.Data.Nat.Basic

/-!
# Big-endian digits

`bigEndian base n v` lists the lowest `n` digits of `v`, the most significant first. Below
`base ^ n`, the lexicographic order of the digits is the numeric order.
-/

namespace P2KVS.BigEndian

variable {base : Nat} [NeZero base]

/-- The lowest `n` digits of `v`, the most significant first. -/
def bigEndian (base : Nat) [NeZero base] : Nat → Nat → List (Fin base)
  | 0, _ => []
  | n + 1, v => Fin.ofNat base (v / base ^ n) :: bigEndian base n v

/-- There are as many digits as asked for. -/
@[simp] theorem length_bigEndian (n v : Nat) : (bigEndian base n v).length = n := by
  induction n with
  | zero => rfl
  | succ n ih => simp [bigEndian, ih]

/-- The lowest digits do not depend on higher ones. -/
theorem bigEndian_mod {n m : Nat} (hle : n ≤ m) (v : Nat) :
    bigEndian base n (v % base ^ m) = bigEndian base n v := by
  induction n with
  | zero => rfl
  | succ n ih =>
      have hpow : base ^ m = base ^ n * base ^ (m - n) := by
        rw [← Nat.pow_add]
        congr 1
        omega
      have hdvd : base ∣ base ^ (m - n) :=
        Nat.dvd_of_pow_dvd (Nat.le_refl 1) (Nat.pow_dvd_pow base (by omega))
      have hdigit : v % base ^ m / base ^ n % base = v / base ^ n % base := by
        rw [hpow, Nat.mod_mul_right_div_self, Nat.mod_mod_of_dvd _ hdvd]
      simp only [bigEndian, ih (by omega)]
      congr 1
      exact Fin.ext hdigit

/-- Comparing numbers is comparing the quotients by `p` first and the remainders second. -/
theorem lt_iff_div_mod (p u v : Nat) :
    u < v ↔ u / p < v / p ∨ (u / p = v / p ∧ u % p < v % p) := by
  have hu := Nat.div_add_mod u p
  have hv := Nat.div_add_mod v p
  constructor
  · intro hlt
    rcases Nat.lt_or_eq_of_le (Nat.div_le_div_right (c := p) hlt.le) with h | h
    · exact .inl h
    · rw [h] at hu
      exact .inr ⟨h, by omega⟩
  · intro hlex
    obtain h | ⟨h, hmod⟩ := hlex
    · by_contra hge
      exact absurd (Nat.div_le_div_right (c := p) (not_lt.mp hge)) (not_le.mpr h)
    · rw [h] at hu
      omega

/-- Below `base ^ n` the digits are ordered as the numbers are. -/
theorem bigEndian_lt_iff {n u v : Nat} (hu : u < base ^ n) (hv : v < base ^ n) :
    bigEndian base n u < bigEndian base n v ↔ u < v := by
  induction n generalizing u v with
  | zero =>
      have hu' : u = 0 := by simpa using hu
      have hv' : v = 0 := by simpa using hv
      simp [bigEndian, hu', hv']
  | succ n ih =>
      have hpos : 0 < base ^ n := Nat.pow_pos (Nat.pos_of_ne_zero (NeZero.ne base))
      have hdigit : ∀ w, w < base ^ (n + 1) → w / base ^ n < base := by
        intro w hw
        rw [Nat.div_lt_iff_lt_mul hpos, Nat.mul_comm, ← Nat.pow_succ]
        exact hw
      have hval : ∀ w, w < base ^ (n + 1) → (Fin.ofNat base (w / base ^ n)).val = w / base ^ n :=
        fun w hw => Nat.mod_eq_of_lt (hdigit w hw)
      rw [bigEndian, bigEndian, List.cons_lt_cons_iff, ← bigEndian_mod (le_refl n) u,
        ← bigEndian_mod (le_refl n) v, ih (Nat.mod_lt _ hpos) (Nat.mod_lt _ hpos),
        Fin.lt_def, Fin.ext_iff, hval u hu, hval v hv]
      exact (lt_iff_div_mod (base ^ n) u v).symm

end P2KVS.BigEndian
