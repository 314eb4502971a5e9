import Mathlib.Data.Nat.Bitwise
import Mathlib.Algebra.Order.Ring.Nat

/-! Scaling a number by a ratio, one bit at a time.

    Bit `i` of `a` contributes the truncated product `2 ^ i * n / d`. The truncations add up to less
    than the number of bits, so the sum falls short of `a * n / d` by less than that
    (`le_partialProducts`). -/

namespace AvrCec.Lib

/-- The sum of the truncated products of the low `w` bits of `a`. -/
def partialProducts (a n d : Nat) : Nat → Nat
  | 0 => 0
  | w + 1 => partialProducts a n d w + if a.testBit w then 2 ^ w * n / d else 0

/-- The remainders the truncations drop, in units of `1 / d`. -/
def lostProducts (a n d : Nat) : Nat → Nat
  | 0 => 0
  | w + 1 => lostProducts a n d w + if a.testBit w then 2 ^ w * n % d else 0

theorem partialProducts_mul_add (a n d w : Nat) :
    partialProducts a n d w * d + lostProducts a n d w = a % 2 ^ w * n := by
  induction w with
  | zero => simp [partialProducts, lostProducts, Nat.mod_one]
  | succ w ih =>
    rw [partialProducts, lostProducts, Nat.mod_pow_succ, ← Nat.toNat_testBit]
    cases a.testBit w with
    | false => simpa using ih
    | true =>
      have hdiv : 2 ^ w * n / d * d + 2 ^ w * n % d = 2 ^ w * n := Nat.div_add_mod' ..
      simp only [if_true, Bool.toNat_true, Nat.mul_one, Nat.add_mul]
      omega

theorem lostProducts_le (a n d w : Nat) (hd : 0 < d) : lostProducts a n d w ≤ w * (d - 1) := by
  induction w with
  | zero => exact Nat.zero_le _
  | succ w ih =>
    have hmod := Nat.mod_lt (2 ^ w * n) hd
    rw [lostProducts, Nat.add_mul]
    split <;> omega

variable {a n d w : Nat}

theorem partialProducts_le (ha : a < 2 ^ w) (hd : 0 < d) : partialProducts a n d w ≤ a * n / d := by
  have h := partialProducts_mul_add a n d w
  rw [Nat.mod_eq_of_lt ha] at h
  rw [Nat.le_div_iff_mul_le hd]
  omega

/-- The truncations of `w` products lose less than `w`. -/
theorem le_partialProducts (ha : a < 2 ^ (w + 1)) (hd : 0 < d) :
    a * n / d ≤ partialProducts a n d (w + 1) + w := by
  have h := partialProducts_mul_add a n d (w + 1)
  have hlost := lostProducts_le a n d (w + 1) hd
  rw [Nat.mod_eq_of_lt ha] at h
  have hlt : a * n / d < partialProducts a n d (w + 1) + w + 1 := by
    rw [Nat.div_lt_iff_lt_mul hd, ← h, Nat.add_mul, Nat.add_mul]
    rw [Nat.add_mul, Nat.one_mul] at hlost
    have hle : w * (d - 1) ≤ w * d := Nat.mul_le_mul_left w (Nat.sub_le d 1)
    omega
  omega

theorem partialProducts_lt_iff (ha : a < 2 ^ w) (hd : 0 < d) (m : Nat) :
    partialProducts a n d w < m ↔ a * n < m * d + lostProducts a n d w := by
  have h := partialProducts_mul_add a n d w
  rw [Nat.mod_eq_of_lt ha] at h
  rw [← h]
  constructor
  · intro hlt
    have := Nat.mul_lt_mul_of_pos_right hlt hd
    omega
  · intro hlt
    exact Nat.lt_of_mul_lt_mul_right (a := d) (by omega)

theorem partialProducts_mono (a n d : Nat) {v w : Nat} (h : v ≤ w) :
    partialProducts a n d v ≤ partialProducts a n d w := by
  induction h with
  | refl => exact Nat.le_refl _
  | step _ ih => exact Nat.le_trans ih (Nat.le_add_right ..)

end AvrCec.Lib
