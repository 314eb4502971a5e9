import Mathlib.Algebra.Order.Round
import Mathlib.Data.Int.Log
import Mathlib.Data.Rat.Floor
import Mathlib.Tactic.GCongr
import Mathlib.Tactic.Linarith
import Mathlib.Tactic.Positivity
import Mathlib.Tactic.Ring

/-! Binary floating point, rounded to nearest with ties to even.

    `fl p` takes a rational number to the nearest one with a significand of `p` bits. Exponents are
    unbounded, so it is an arithmetic of floating point as long as nothing overflows or becomes
    subnormal. The error of one rounding is relative (`abs_fl_sub_le`), so that of a row of products
    and quotients is counted in roundings (`Rounded`). -/

namespace AvrCec
namespace Lib

/-! ### One rounding -/

/-- The nearest integer; of two, the even one. -/
def roundEven (q : ℚ) : ℤ :=
  if q - ⌊q⌋ < 1 / 2 ∨ q - ⌊q⌋ = 1 / 2 ∧ ⌊q⌋ % 2 = 0 then ⌊q⌋ else ⌊q⌋ + 1

/-- The last place of a significand of `p` bits. -/
def ulp (p : ℕ) (q : ℚ) : ℚ := 2 ^ (Int.log 2 |q| + 1 - p)

def fl (p : ℕ) (q : ℚ) : ℚ := roundEven (q / ulp p q) * ulp p q

theorem abs_roundEven_sub_le (q : ℚ) : |(roundEven q : ℚ) - q| ≤ 1 / 2 := by
  have hlo := Int.floor_le q
  have hhi := Int.lt_floor_add_one q
  rw [roundEven, abs_le]
  split
  · rename_i h
    have : q - ⌊q⌋ ≤ 1 / 2 := h.elim le_of_lt fun h => h.1.le
    constructor <;> linarith
  · rename_i h
    have : 1 / 2 ≤ q - ⌊q⌋ := not_lt.mp fun hlt => h (.inl hlt)
    push_cast
    constructor <;> linarith

theorem ulp_pos (p : ℕ) (q : ℚ) : 0 < ulp p q := zpow_pos (by norm_num) _

/-- A number is at least `2 ^ (p - 1)` of its last places. -/
theorem ulp_le (p : ℕ) {q : ℚ} (hq : q ≠ 0) : ulp p q ≤ 2 * |q| / 2 ^ p := by
  have hlog : (2 : ℚ) ^ Int.log 2 |q| ≤ |q| := by
    have h := Int.zpow_log_le_self (b := 2) (r := |q|) (by decide) (abs_pos.mpr hq)
    exact_mod_cast h
  rw [ulp, zpow_sub₀ (by norm_num), zpow_add₀ (by norm_num), zpow_one, zpow_natCast, mul_comm]
  gcongr

/-- The error of a rounding is at most half a last place. -/
theorem abs_fl_sub_le (p : ℕ) (q : ℚ) : |fl p q - q| ≤ |q| / 2 ^ p := by
  rcases eq_or_ne q 0 with rfl | hq
  · simp [fl, roundEven]
  have hu := ulp_pos p q
  have hle := ulp_le p hq
  have hround := abs_roundEven_sub_le (q / ulp p q)
  have heq : fl p q - q = (roundEven (q / ulp p q) - q / ulp p q) * ulp p q := by
    rw [sub_mul, div_mul_cancel₀ _ hu.ne']
    rfl
  calc |fl p q - q|
    _ = |(roundEven (q / ulp p q) : ℚ) - q / ulp p q| * ulp p q := by rw [heq, abs_mul, abs_of_pos hu]
    _ ≤ 1 / 2 * ulp p q := by gcongr
    _ ≤ 1 / 2 * (2 * |q| / 2 ^ p) := by gcongr
    _ = |q| / 2 ^ p := by ring

/-! ### A row of roundings -/

/-- `r` comes from `q ≥ 0` by at most `k` relative errors of size `e`. -/
structure Rounded (e : ℚ) (k : ℕ) (q r : ℚ) : Prop where
  nonneg : 0 ≤ q
  lower : (1 - e) ^ k * q ≤ r
  upper : r ≤ (1 + e) ^ k * q

section
variable {e q r q' r' : ℚ} {k l : ℕ}

theorem Rounded.exact (hq : 0 ≤ q) : Rounded e 0 q q := ⟨hq, by simp, by simp⟩

theorem Rounded.result_nonneg (h : Rounded e k q r) (he : e ≤ 1) : 0 ≤ r :=
  le_trans (mul_nonneg (pow_nonneg (sub_nonneg.mpr he) k) h.nonneg) h.lower

theorem Rounded.fl {p : ℕ} (h : Rounded (1 / 2 ^ p) k q r) : Rounded (1 / 2 ^ p) (k + 1) q (fl p r) := by
  have he : (1 : ℚ) / 2 ^ p ≤ 1 := (div_le_one (by positivity)).mpr (one_le_pow₀ (by norm_num))
  have hr := h.result_nonneg he
  have herr := abs_fl_sub_le p r
  rw [abs_of_nonneg hr, abs_le] at herr
  refine ⟨h.nonneg, ?_, ?_⟩
  · calc (1 - 1 / 2 ^ p) ^ (k + 1) * q
      _ = (1 - 1 / 2 ^ p) * ((1 - 1 / 2 ^ p) ^ k * q) := by ring
      _ ≤ (1 - 1 / 2 ^ p) * r := mul_le_mul_of_nonneg_left h.lower (sub_nonneg.mpr he)
      _ = r - r / 2 ^ p := by ring
      _ ≤ Lib.fl p r := by linarith [herr.1]
  · calc Lib.fl p r
      _ ≤ r + r / 2 ^ p := by linarith [herr.2]
      _ = (1 + 1 / 2 ^ p) * r := by ring
      _ ≤ (1 + 1 / 2 ^ p) * ((1 + 1 / 2 ^ p) ^ k * q) := by
        have := h.upper
        gcongr
      _ = (1 + 1 / 2 ^ p) ^ (k + 1) * q := by ring

theorem Rounded.mul (h : Rounded e k q r) (h' : Rounded e l q' r') (he : e ≤ 1) (he₀ : 0 ≤ e) :
    Rounded e (k + l) (q * q') (r * r') := by
  have hr := h.result_nonneg he
  have hlo : 0 ≤ (1 - e) ^ l * q' := mul_nonneg (pow_nonneg (sub_nonneg.mpr he) l) h'.nonneg
  have hhi : 0 ≤ (1 + e) ^ k * q := mul_nonneg (pow_nonneg (by linarith) k) h.nonneg
  refine ⟨mul_nonneg h.nonneg h'.nonneg, ?_, ?_⟩
  · calc (1 - e) ^ (k + l) * (q * q')
      _ = (1 - e) ^ k * q * ((1 - e) ^ l * q') := by ring
      _ ≤ r * r' := mul_le_mul h.lower h'.lower hlo hr
  · calc r * r'
      _ ≤ (1 + e) ^ k * q * ((1 + e) ^ l * q') := mul_le_mul h.upper h'.upper (h'.result_nonneg he) hhi
      _ = (1 + e) ^ (k + l) * (q * q') := by ring

theorem Rounded.div (h : Rounded e k q r) {d : ℚ} (hd : 0 < d) : Rounded e k (q / d) (r / d) := by
  have hlo := h.lower
  have hhi := h.upper
  refine ⟨div_nonneg h.nonneg hd.le, ?_, ?_⟩
  · rw [← mul_div_assoc]
    gcongr
  · rw [← mul_div_assoc]
    gcongr

end

end Lib
end AvrCec
