import Mathlib.Data.Nat.Bitwise
import Mathlib.Data.List.Induction
import Mathlib.Tactic.Ring

/-! Words as bit strings, most significant bit first, and shift registers with a marker bit.

    A word of `w` bits is sent as `toBits w n` and read back by `ofBits`. A receiver that shifts the
    bits of a `w`-bit word into a register preloaded with 1 knows from the marker how many are in:
    after the bits `l` the register holds `2 ^ l.length + ofBits l`. -/

namespace AvrCec.Lib

/-- The number a bit string stands for, most significant bit first. -/
def ofBits (l : List Bool) : Nat := l.foldl (fun n b => 2 * n + b.toNat) 0

/-- The `w` low bits of `n`, most significant bit first. -/
def toBits (w n : Nat) : List Bool := (List.range w).map fun i => n.testBit (w - 1 - i)

@[simp] theorem ofBits_nil : ofBits [] = 0 := rfl

theorem ofBits_concat (l : List Bool) (b : Bool) : ofBits (l ++ [b]) = 2 * ofBits l + b.toNat := by
  simp [ofBits]

theorem ofBits_lt (l : List Bool) : ofBits l < 2 ^ l.length := by
  induction l using List.reverseRecOn with
  | nil => simp
  | append_singleton l b ih =>
    rw [ofBits_concat, List.length_append, List.length_singleton, pow_succ]
    have := b.toNat_le
    omega

@[simp] theorem length_toBits (w n : Nat) : (toBits w n).length = w := by simp [toBits]

theorem getElem_toBits {w n i : Nat} (h : i < (toBits w n).length) :
    (toBits w n)[i] = n.testBit (w - 1 - i) := by simp [toBits]

/-- Dropping the lowest bit of the number drops the last bit of the string. -/
theorem toBits_succ (w n : Nat) : toBits (w + 1) n = toBits w (n / 2) ++ [n.testBit 0] := by
  rw [toBits, List.range_succ, List.map_append, List.map_singleton]
  congr 1
  · refine List.map_congr_left fun i hi => ?_
    have hlt : i < w := List.mem_range.mp hi
    rw [show w + 1 - 1 - i = (w - 1 - i) + 1 by omega, Nat.testBit_succ]
  · simp

theorem ofBits_toBits (w n : Nat) (h : n < 2 ^ w) : ofBits (toBits w n) = n := by
  induction w generalizing n with
  | zero => simp at h; subst h; rfl
  | succ w ih =>
    rw [toBits_succ, ofBits_concat, ih (n / 2) (by omega), Nat.testBit_zero]
    rcases Nat.mod_two_eq_zero_or_one n with hn | hn <;> simp [hn] <;> omega

/-! ### The marker register -/

/-- What the register holds after the bits `l`. -/
def marked (l : List Bool) : Nat := 2 ^ l.length + ofBits l

@[simp] theorem marked_nil : marked [] = 1 := rfl

theorem marked_pos (l : List Bool) : 0 < marked l := by
  have := Nat.two_pow_pos l.length
  unfold marked; omega

theorem marked_lt (l : List Bool) : marked l < 2 ^ (l.length + 1) := by
  have := ofBits_lt l
  unfold marked; rw [pow_succ]; omega

/-- Shifting a bit in. -/
theorem marked_concat (l : List Bool) (b : Bool) : marked (l ++ [b]) = 2 * marked l + b.toNat := by
  unfold marked
  rw [ofBits_concat, List.length_append, List.length_singleton, pow_succ]; ring

theorem shiftIn_eq (n : Nat) (b : Bool) : n <<< 1 ||| b.toNat = 2 * n + b.toNat := by
  cases b
  · simp [Nat.shiftLeft_eq, mul_comm]
  · rw [Nat.shiftLeft_eq, pow_one, mul_comm]
    exact (Nat.two_pow_add_eq_or_of_lt (i := 1) (by simp) n).symm

/-- The marker reaches bit `w` exactly when `w` bits are in. -/
theorem testBit_marked {w : Nat} (l : List Bool) (h : l.length ≤ w) :
    (marked l).testBit w = decide (l.length = w) := by
  rcases Nat.lt_or_eq_of_le h with hlt | heq
  · rw [Nat.testBit_lt_two_pow, decide_eq_false (by omega)]
    exact lt_of_lt_of_le (marked_lt l) (Nat.pow_le_pow_right (by norm_num) (by omega))
  · subst heq
    rw [decide_eq_true rfl, marked, Nat.testBit_two_pow_add_eq, Nat.testBit_lt_two_pow (ofBits_lt l)]
    rfl

end AvrCec.Lib
