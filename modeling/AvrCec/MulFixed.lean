import AvrCec.Lib.Scaling
import Mathlib.Tactic.Ring

/-! `MUL_FIXED_B` of `div.h`: scaling a byte by the ratio of two constants.

    The sub-expressions in the constants are exact; only the accumulator of the bitwise sum has a
    width, chosen from the largest result. The shift tests are in the wrong order: where `bd` is a
    multiple of `bn`, and the result should shrink, the byte is shifted left, and the other way
    round. `scales_iff` says when the result is right all the same. -/

namespace AvrCec
open Lib

/-- `_MUL_BIT_FIXED_B`, into an accumulator of `w` bits. -/
def mulBitFixedB (w a bn bd maxA bit ret : Nat) : Nat :=
  if 2 ^ bit ≤ maxA ∧ a &&& 2 ^ bit ≠ 0 then (ret + 2 ^ bit * bn / bd) % 2 ^ w else ret

/-- `_MUL_FIXED_B`, with the type of its accumulator given by the width. -/
def mulFixedBits (w a bn bd maxA : Nat) : Nat :=
  (List.range 8).foldl (fun z bit => mulBitFixedB w a bn bd maxA bit z) 0

/-- `_MUL_SHIFT_FIXED`; `none` when both of its tests fail. -/
def mulShiftFixed (a bn bd bit : Nat) : Option Nat :=
  if bd = bn * 2 ^ bit then some (a <<< bit)
  else if bd = bn / 2 ^ bit then some (a >>> bit)
  else none

/-- The accumulator is an `unsigned char`, an `unsigned int` or an `unsigned long`. -/
def accWidth (bn bd maxA : Nat) : Nat :=
  if maxA * bn / bd < 256 then 8 else if maxA * bn / bd < 65536 then 16 else 32

/-- The bits `MUL_FIXED_B` tries the shifts for, in order. -/
def shiftBits : List Nat := [1, 2, 3, 4, 5, 6, 7]

def mulFixedB (a bn bd maxA : Nat) : Nat :=
  if bd = bn then a
  else (shiftBits.findSome? (mulShiftFixed a bn bd)).getD
    (mulFixedBits (accWidth bn bd maxA) a bn bd maxA)

/-! ### The bitwise sum -/

section
variable {a bn bd maxA w : Nat}

/-- As long as the exact sum fits, the accumulator holds it. -/
theorem foldl_mulBit (ha : a ≤ maxA) (n : Nat) (hfit : partialProducts a bn bd n < 2 ^ w) :
    (List.range n).foldl (fun z bit => mulBitFixedB w a bn bd maxA bit z) 0 =
      partialProducts a bn bd n := by
  induction n with
  | zero => rfl
  | succ n ih =>
    have hprev := Nat.lt_of_le_of_lt (partialProducts_mono a bn bd n.le_succ) hfit
    rw [List.range_succ, List.foldl_append, ih hprev, List.foldl_cons, List.foldl_nil, mulBitFixedB]
    rw [partialProducts] at hfit ⊢
    have hmask : a &&& 2 ^ n ≠ 0 ↔ a.testBit n = true := by
      rw [Nat.and_two_pow]
      cases a.testBit n <;> simp
    by_cases hbit : a.testBit n = true
    · rw [if_pos hbit] at hfit ⊢
      rw [if_pos ⟨Nat.le_trans (Nat.ge_two_pow_of_testBit hbit) ha, hmask.mpr hbit⟩,
        Nat.mod_eq_of_lt hfit]
    · rw [if_neg hbit, if_neg fun h => hbit (hmask.mp h.2), Nat.add_zero]

/-- The width chosen from the largest result holds every result below 2³². -/
theorem sum_lt_width (ha : a ≤ maxA) (hle : partialProducts a bn bd 8 ≤ a * bn / bd)
    (h32 : partialProducts a bn bd 8 < 2 ^ 32) :
    partialProducts a bn bd 8 < 2 ^ accWidth bn bd maxA := by
  have hmax : a * bn / bd ≤ maxA * bn / bd := Nat.div_le_div_right (Nat.mul_le_mul_right bn ha)
  rw [accWidth]
  split
  · omega
  · split
    · omega
    · exact h32

/-! ### What the macro promises -/

/-- `MUL_FIXED_B` scales by `bn / bd`, up to the eight truncations of the bitwise sum; so does the
    bitwise sum itself, and its accumulator never overflows on the way. -/
structure Scales (a bn bd maxA : Nat) : Prop where
  le : mulFixedB a bn bd maxA ≤ a * bn / bd
  short : a * bn / bd ≤ mulFixedB a bn bd maxA + 7
  bits_le : mulFixedBits (accWidth bn bd maxA) a bn bd maxA ≤ mulFixedB a bn bd maxA + 7
  le_bits : mulFixedB a bn bd maxA ≤ mulFixedBits (accWidth bn bd maxA) a bn bd maxA + 7
  fits : ∀ n ≤ 8, partialProducts a bn bd n < 2 ^ accWidth bn bd maxA

theorem scales_iff_bounds (ha : a ≤ maxA) (hmax : maxA ≤ 255) (hd : 0 < bd) :
    Scales a bn bd maxA ↔ mulFixedB a bn bd maxA ≤ a * bn / bd ∧
      a * bn / bd ≤ mulFixedB a bn bd maxA + 7 ∧ partialProducts a bn bd 8 < 2 ^ 32 := by
  have h8 : a < 2 ^ 8 := by omega
  have hle := partialProducts_le (n := bn) h8 hd
  have hge : a * bn / bd ≤ partialProducts a bn bd 8 + 7 := le_partialProducts h8 hd
  constructor
  · intro h
    refine ⟨h.le, h.short, Nat.lt_of_lt_of_le (h.fits 8 (Nat.le_refl 8)) ?_⟩
    rw [accWidth]
    split
    · decide
    · split <;> decide
  · rintro ⟨hret, hshort, h32⟩
    have hfit := sum_lt_width ha hle h32
    have hbits : mulFixedBits (accWidth bn bd maxA) a bn bd maxA = partialProducts a bn bd 8 :=
      foldl_mulBit ha 8 hfit
    exact ⟨hret, hshort, by omega, by omega,
      fun n hn => Nat.lt_of_le_of_lt (partialProducts_mono a bn bd hn) hfit⟩

/-! ### The paths -/

/-- Which path the macro takes, and what it returns there. -/
theorem mulFixedB_cases :
    (bd = bn ∧ mulFixedB a bn bd maxA = a) ∨
    (∃ k ∈ shiftBits, bd = bn * 2 ^ k ∧ mulFixedB a bn bd maxA = a * 2 ^ k) ∨
    (∃ k ∈ shiftBits, bd = bn / 2 ^ k ∧ mulFixedB a bn bd maxA = a / 2 ^ k) ∨
    (bd ≠ bn ∧ (∀ k ∈ shiftBits, bd ≠ bn * 2 ^ k ∧ bd ≠ bn / 2 ^ k) ∧
      mulFixedB a bn bd maxA = mulFixedBits (accWidth bn bd maxA) a bn bd maxA) := by
  by_cases heq : bd = bn
  · exact .inl ⟨heq, by rw [mulFixedB, if_pos heq]⟩
  rw [mulFixedB, if_neg heq]
  cases hfind : shiftBits.findSome? (mulShiftFixed a bn bd) with
  | some r =>
    obtain ⟨k, hk, hr⟩ := List.exists_of_findSome?_eq_some hfind
    rw [mulShiftFixed] at hr
    split at hr
    · next h =>
      refine .inr (.inl ⟨k, hk, h, ?_⟩)
      rw [Option.getD_some, ← Option.some.inj hr, Nat.shiftLeft_eq]
    · split at hr
      · next h =>
        refine .inr (.inr (.inl ⟨k, hk, h, ?_⟩))
        rw [Option.getD_some, ← Option.some.inj hr, Nat.shiftRight_eq_div_pow]
      · contradiction
  | none =>
    refine .inr (.inr (.inr ⟨heq, fun k hk => ?_, rfl⟩))
    have hr := List.findSome?_eq_none_iff.mp hfind k hk
    rw [mulShiftFixed] at hr
    split at hr
    · contradiction
    · next h =>
      split at hr
      · contradiction
      · next h' => exact ⟨h, h'⟩

theorem one_le_of_mem_shiftBits {k : Nat} (hk : k ∈ shiftBits) : 1 ≤ k ∧ k ≤ 7 := by
  have : ∀ k ∈ shiftBits, 1 ≤ k ∧ k ≤ 7 := by decide
  exact this k hk

/-- Shifting left where the ratio is `1 / 2 ^ k`: right for 0 only. -/
theorem shiftLeft_le_iff {k : Nat} (hk : 1 ≤ k) (hn : 0 < bn) :
    a * 2 ^ k ≤ a * bn / (bn * 2 ^ k) ↔ a = 0 := by
  have h2 : 2 ≤ 2 ^ k := by simpa using Nat.pow_le_pow_right (n := 2) (by decide) hk
  have hdiv : a * bn / (bn * 2 ^ k) = a / 2 ^ k := by
    rw [Nat.mul_comm a bn, Nat.mul_div_mul_left _ _ hn]
  have hle : a / 2 ^ k ≤ a := Nat.div_le_self ..
  rw [hdiv]
  constructor
  · intro h
    have : a * 2 ≤ a * 2 ^ k := Nat.mul_le_mul_left a h2
    omega
  · rintro rfl
    simp

/-- The scaled value where `bd` is `bn` halved `k` times, with a remainder. -/
theorem scaled_of_halved {k : Nat} (hd : 0 < bd) (h : bd = bn / 2 ^ k) :
    a * bn / bd = a * 2 ^ k + a * (bn % 2 ^ k) / bd := by
  have hbn : bn = bd * 2 ^ k + bn % 2 ^ k := by
    rw [h]
    exact (Nat.div_add_mod' ..).symm
  calc a * bn / bd = (a * (bn % 2 ^ k) + a * 2 ^ k * bd) / bd := by
        congr 1
        conv => lhs; rw [hbn]
        ring
    _ = a * (bn % 2 ^ k) / bd + a * 2 ^ k := Nat.add_mul_div_right _ _ hd
    _ = a * 2 ^ k + a * (bn % 2 ^ k) / bd := Nat.add_comm ..

/-- Shifting right where the ratio is about 2. -/
theorem halved_one_iff (hd : 0 < bd) (h : bd = bn / 2 ^ 1) :
    a * bn / bd ≤ a / 2 ^ 1 + 7 ↔
      a ≤ 2 ∨ (a = 3 ∧ bn ≠ 3) ∨ (a = 4 ∧ (bn % 2 = 0 ∨ 7 ≤ bn)) := by
  rw [scaled_of_halved hd h]
  simp only [Nat.pow_one] at h ⊢
  rcases Nat.mod_two_eq_zero_or_one bn with hr | hr
  · -- an exact double
    rw [hr, Nat.mul_zero, Nat.zero_div]
    omega
  · rw [hr, Nat.mul_one]
    have hself : a / bd ≤ a := Nat.div_le_self ..
    by_cases hbd : bd ≤ 2
    · obtain rfl | rfl : bd = 1 ∨ bd = 2 := by omega
      · omega
      · omega
    · have hthird : a / bd ≤ a / 3 := Nat.div_le_div_left (by omega) (by decide)
      generalize a / bd = q at *
      omega

/-- Shifting right where the ratio is about 4. -/
theorem halved_two_iff (hd : 0 < bd) (h : bd = bn / 2 ^ 2) :
    a * bn / bd ≤ a / 2 ^ 2 + 7 ↔ a ≤ 1 := by
  rw [scaled_of_halved hd h]
  constructor
  · generalize a * (bn % 2 ^ 2) / bd = q
    omega
  · intro ha
    have hself : a * (bn % 2 ^ 2) / bd ≤ a * (bn % 2 ^ 2) := Nat.div_le_self ..
    have hmul : a * (bn % 2 ^ 2) ≤ 1 * (bn % 2 ^ 2) := Nat.mul_le_mul_right _ ha
    omega

/-- Shifting right where the ratio is about 8 or more. -/
theorem halved_more_iff {k : Nat} (hk : 3 ≤ k) (hd : 0 < bd) (h : bd = bn / 2 ^ k) :
    a * bn / bd ≤ a / 2 ^ k + 7 ↔ a = 0 := by
  rw [scaled_of_halved hd h]
  have h8 : 8 ≤ 2 ^ k := Nat.pow_le_pow_right (n := 2) (by decide) hk
  constructor
  · intro hle
    have hmul : a * 8 ≤ a * 2 ^ k := Nat.mul_le_mul_left a h8
    have hdiv : a / 2 ^ k ≤ a / 8 := Nat.div_le_div_left h8 (by decide)
    generalize a * (bn % 2 ^ k) / bd = q at hle
    omega
  · rintro rfl
    simp

/-! ### When it scales -/

/-- Where `MUL_FIXED_B` scales by `bn / bd`: everywhere on the equal path, next to nowhere on the
    shift paths, and on the bitwise path until the sum outgrows 32 bits. -/
def ScalesWhen (a bn bd : Nat) : Prop :=
  if bd = bn then True
  else if ∃ k ∈ shiftBits, bd = bn * 2 ^ k then a = 0
  else if bd = bn / 2 ^ 1 then a ≤ 2 ∨ (a = 3 ∧ bn ≠ 3) ∨ (a = 4 ∧ (bn % 2 = 0 ∨ 7 ≤ bn))
  else if bd = bn / 2 ^ 2 then a ≤ 1
  else if ∃ k ∈ shiftBits, bd = bn / 2 ^ k then a = 0
  else a * bn < 2 ^ 32 * bd + lostProducts a bn bd 8

/-- A multiple of `bn` is not also a fraction of it. -/
theorem halved_lt {k : Nat} (hk : k ∈ shiftBits) (hn : 0 < bn) : bn / 2 ^ k < bn :=
  Nat.div_lt_self hn (Nat.one_lt_two_pow (by have := one_le_of_mem_shiftBits hk; omega))

theorem le_doubled (bn k : Nat) : bn ≤ bn * 2 ^ k := Nat.le_mul_of_pos_right bn (Nat.two_pow_pos k)

/-- At most one halving gives `bd`. -/
theorem halved_inj {j k : Nat} (hd : 0 < bd) (hj : bd = bn / 2 ^ j) (hk : bd = bn / 2 ^ k) : j = k := by
  have hlt : ∀ {i l}, bd = bn / 2 ^ i → bd = bn / 2 ^ l → ¬ i < l := by
    intro i l hi hl hil
    have hpow : 2 ^ l = 2 ^ i * 2 ^ (l - i) := by rw [← Nat.pow_add]; congr 1; omega
    rw [hpow, ← Nat.div_div_eq_div_mul, ← hi] at hl
    have : bd / 2 ^ (l - i) < bd := Nat.div_lt_self hd (Nat.one_lt_two_pow (by omega))
    omega
  have h₁ := hlt hj hk
  have h₂ := hlt hk hj
  omega

theorem scaled_halved_iff {k : Nat} (hk : k ∈ shiftBits) (hn : 0 < bn) (hd : 0 < bd)
    (h : bd = bn / 2 ^ k) : a * bn / bd ≤ a / 2 ^ k + 7 ↔ ScalesWhen a bn bd := by
  have hlt := halved_lt hk hn
  have hdouble : ¬ ∃ j ∈ shiftBits, bd = bn * 2 ^ j := by
    rintro ⟨j, -, hj⟩
    have := le_doubled bn j
    omega
  have hk' := one_le_of_mem_shiftBits hk
  rw [ScalesWhen, if_neg (by omega), if_neg hdouble]
  by_cases h1 : k = 1
  · subst h1
    rw [if_pos h]
    exact halved_one_iff hd h
  rw [if_neg fun h' => h1 (halved_inj hd h h')]
  by_cases h2 : k = 2
  · subst h2
    rw [if_pos h]
    exact halved_two_iff hd h
  rw [if_neg fun h' => h2 (halved_inj hd h h'), if_pos ⟨k, hk, h⟩]
  exact halved_more_iff (by omega) hd h

end

/-- `MUL_FIXED_B` scales by `bn / bd` exactly where `ScalesWhen` says. -/
theorem mulFixed_scales_iff (a bn bd maxA : Nat) (ha : a ≤ maxA) (hmax : maxA ≤ 255) (hn : 0 < bn)
    (hd : 0 < bd) : Scales a bn bd maxA ↔ ScalesWhen a bn bd := by
  have h8 : a < 2 ^ 8 := by omega
  have hle := partialProducts_le (n := bn) h8 hd
  have hge : a * bn / bd ≤ partialProducts a bn bd 8 + 7 := le_partialProducts h8 hd
  rw [scales_iff_bounds ha hmax hd]
  rcases @mulFixedB_cases a bn bd maxA with
    ⟨heq, hret⟩ | ⟨k, hk, h, hret⟩ | ⟨k, hk, h, hret⟩ | ⟨hne, hno, hret⟩
  · -- the equal path
    rw [hret, ScalesWhen, if_pos heq]
    have hdiv : a * bn / bd = a := by rw [heq]; exact Nat.mul_div_cancel a hn
    have hsum : a < 2 ^ 32 := by omega
    exact iff_of_true ⟨by omega, by omega, by omega⟩ trivial
  · -- shifted left, where the ratio is a fraction
    have hne : bd ≠ bn := by
      have := (one_le_of_mem_shiftBits hk).1
      have : 2 ^ 1 ≤ 2 ^ k := Nat.pow_le_pow_right (by decide) this
      have : bn * 2 ^ 1 ≤ bn * 2 ^ k := Nat.mul_le_mul_left bn this
      omega
    rw [hret, ScalesWhen, if_neg hne, if_pos ⟨k, hk, h⟩]
    have hiff := shiftLeft_le_iff (a := a) (one_le_of_mem_shiftBits hk).1 hn
    rw [← h] at hiff
    constructor
    · exact fun hs => hiff.mp hs.1
    · rintro rfl
      simp only [Nat.zero_mul, Nat.zero_div] at hle ⊢
      exact ⟨Nat.le_refl 0, by decide, by omega⟩
  · -- shifted right, where the ratio is at least 2
    rw [hret, ← scaled_halved_iff hk hn hd h]
    have hshrink : a / 2 ^ k ≤ a := Nat.div_le_self ..
    have hgrow : a ≤ a * bn / bd := by
      rw [Nat.le_div_iff_mul_le hd]
      exact Nat.mul_le_mul_left a (by have := halved_lt hk hn; omega)
    have hsmall : a < 2 ^ 24 := by omega
    constructor
    · exact fun hs => hs.2.1
    · exact fun hs => ⟨by omega, hs, by omega⟩
  · -- the bitwise path
    have hmult : ¬ ∃ k ∈ shiftBits, bd = bn * 2 ^ k := fun ⟨k, hk, h⟩ => (hno k hk).1 h
    have hfrac : ¬ ∃ k ∈ shiftBits, bd = bn / 2 ^ k := fun ⟨k, hk, h⟩ => (hno k hk).2 h
    rw [hret, ScalesWhen, if_neg hne, if_neg hmult, if_neg (hno 1 (by decide)).2,
      if_neg (hno 2 (by decide)).2, if_neg hfrac, ← partialProducts_lt_iff h8 hd]
    constructor
    · exact fun hs => hs.2.2
    · intro hs
      have hbits : mulFixedBits (accWidth bn bd maxA) a bn bd maxA = partialProducts a bn bd 8 :=
        foldl_mulBit ha 8 (sum_lt_width ha hle hs)
      rw [hbits]
      exact ⟨hle, hge, hs⟩

/-- Two thirds of 30: the bitwise path. -/
theorem mulFixed_two_thirds : Scales 30 2 3 255 ↔ ScalesWhen 30 2 3 :=
  mulFixed_scales_iff 30 2 3 255 (by decide) (by decide) (by decide) (by decide)

/-- Half of 1 comes out as 2. -/
theorem mulFixed_doubles_half : mulFixedB 1 1 2 255 = 2 ∧ ¬ Scales 1 1 2 255 :=
  ⟨by decide, fun h => absurd h.le (by decide)⟩

end AvrCec
