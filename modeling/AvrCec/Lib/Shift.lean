import Mathlib.Data.Nat.Notation

/-! Serial registers.

    A register of `w` bits sends its top bit, shifts to the left and takes a bit in behind. While a word
    is sent it holds what is left of that word on top of what has come in of another (`shifting`). -/

namespace AvrCec.Lib

variable {w : ℕ}

/-- The register that has sent `k` bits of `out` and has taken in `k` bits of `inp`. -/
def shifting (out inp : BitVec w) (k : ℕ) : BitVec w := out <<< k ||| inp >>> (w - k)

theorem shifting_zero (out inp : BitVec w) : shifting out inp 0 = out := by
  ext i hi
  simp [shifting]

theorem shifting_full (out inp : BitVec w) : shifting out inp w = inp := by
  ext i hi
  simp [shifting]

/-- The bit that is sent. -/
theorem msb_shifting (out inp : BitVec w) {k : ℕ} (hk : k < w) : (shifting out inp k).msb = out.getMsbD k := by
  have hin : 0 < w - k := by omega
  rw [BitVec.msb_eq_getMsbD_zero, shifting, BitVec.getMsbD_or, BitVec.getMsbD_shiftLeft, BitVec.getMsbD_ushiftRight,
    decide_eq_true hin, Bool.not_true, Bool.false_and, Bool.and_false, Bool.or_false, Nat.zero_add]

/-- The next bit is taken in. -/
theorem shift_in (out inp : BitVec w) {k : ℕ} (hk : k < w) {b : Bool} (hb : inp.getMsbD k = b) :
    shifting out inp k <<< 1 ||| (BitVec.ofBool b).setWidth w = shifting out inp (k + 1) := by
  subst hb
  ext i hi
  simp only [shifting, BitVec.getElem_or, BitVec.getElem_shiftLeft, BitVec.getElem_ushiftRight,
    BitVec.getElem_setWidth, BitVec.getLsbD_ofBool]
  rcases i with _ | i
  · have hlow : w - (k + 1) + 0 = w - 1 - k := by omega
    simp [hlow, BitVec.getMsbD, hk]
  · have hnext : w - k + i = w - (k + 1) + (i + 1) := by omega
    simp [hnext]

end AvrCec.Lib
