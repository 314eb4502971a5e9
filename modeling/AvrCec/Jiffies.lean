import AvrCec.Spec

/-! `time.h`: the long jiffies that are to fit in 8 bits.

    `LJIFFIES_SHIFT` is picked so that the longest time, in jiffies, shifted down by it fits in 8
    bits. The conversions round up after the shift, so a time in the last of the 256 steps comes out
    as 256, and no time at all wraps (`longJiffies_iff`). The preprocessor picks the shift in 64
    bits; the divisors are formed by the compiler, in an `unsigned long` of 32, and from a shift of 15
    on from a power of two that AVR's 16-bit `int` does not have. -/

namespace AvrCec

/-! ### The conversions -/

def sToJiffiesUp (b : Build) (n : Nat) : Nat := divRoundUp (n * b.fCpu) b.tcnt0Prescaler
def msToJiffiesUp (b : Build) (n : Nat) : Nat := divRoundUp (n * b.fCpu) (b.tcnt0Prescaler * 1000)
def nsToJiffiesUp (b : Build) (n : Nat) : Nat := divRoundUp (n * b.fCpu) (b.tcnt0Prescaler * 1000000000)

/-- The longest time to be tracked: which of the four `LONG_TIME` constants is defined, and its value. -/
inductive LongTime where
  | s (n : Nat)
  | ms (n : Nat)
  | us (n : Nat)
  | ns (n : Nat)
  deriving DecidableEq, Repr

namespace LongTime

def duration : LongTime → Nat
  | .s n | .ms n | .us n | .ns n => n

/-- The units of a second. -/
def perSecond : LongTime → Nat
  | .s _ => 1
  | .ms _ => 1000
  | .us _ => 1000000
  | .ns _ => 1000000000

end LongTime

def ljiffiesMax (b : Build) : LongTime → Nat
  | .s n => sToJiffiesUp b n
  | .ms n => msToJiffiesUp b n
  | .us n => usToJiffiesUp b n
  | .ns n => nsToJiffiesUp b n

def ljiffiesShift (max : Nat) : Nat := ((List.range 24).find? fun k => max < 2 ^ (8 + k)).getD 24

/-- `1 << k` in a 16-bit `int`; undefined when it cannot be represented. -/
def intShift (k : Nat) : Option Nat := if k < 15 then some (2 ^ k) else none

/-- The product with `TCNT0_PRESCALER`, an `unsigned long`. -/
def tcnt0Lprescaler (b : Build) (t : LongTime) : Option Nat :=
  (intShift (ljiffiesShift (ljiffiesMax b t))).map fun l => l * b.tcnt0Prescaler % 2 ^ 32

/-- The family of the `*_TO_LJIFFIES` macros: a division and the units of a second. The divisor is an
    `unsigned long` as well, and undefined when it wraps to 0. -/
def toLjiffies (div : Nat → Nat → Nat) (perSecond : Nat) (b : Build) (t : LongTime) (n : Nat) : Option Nat :=
  (tcnt0Lprescaler b t).bind fun l =>
    let d := l * perSecond % 2 ^ 32
    if d = 0 then none else some (div (n * b.fCpu) d)

def sToLjiffiesRnd := toLjiffies divRound 1
def msToLjiffiesRnd := toLjiffies divRound 1000
def usToLjiffiesRnd := toLjiffies divRound 1000000
def nsToLjiffiesRnd := toLjiffies divRound 1000000000

def sToLjiffiesUp := toLjiffies divRoundUp 1
def msToLjiffiesUp := toLjiffies divRoundUp 1000
def usToLjiffiesUp := toLjiffies divRoundUp 1000000
def nsToLjiffiesUp := toLjiffies divRoundUp 1000000000

def sToLjiffies := toLjiffies (· / ·) 1
def msToLjiffies := toLjiffies (· / ·) 1000
def usToLjiffies := toLjiffies (· / ·) 1000000
def nsToLjiffies := toLjiffies (· / ·) 1000000000

/-- The three conversions of the unit `LONG_TIME` is given in. -/
def LongTime.conversions : LongTime → List (Build → LongTime → Nat → Option Nat)
  | .s _ => [sToLjiffies, sToLjiffiesRnd, sToLjiffiesUp]
  | .ms _ => [msToLjiffies, msToLjiffiesRnd, msToLjiffiesUp]
  | .us _ => [usToLjiffies, usToLjiffiesRnd, usToLjiffiesUp]
  | .ns _ => [nsToLjiffies, nsToLjiffiesRnd, nsToLjiffiesUp]

theorem conversions_eq (t : LongTime) : t.conversions =
    [toLjiffies (· / ·) t.perSecond, toLjiffies divRound t.perSecond, toLjiffies divRoundUp t.perSecond] := by
  cases t <;> rfl

theorem ljiffiesMax_eq (b : Build) (t : LongTime) :
    ljiffiesMax b t = divRoundUp (t.duration * b.fCpu) (b.tcnt0Prescaler * t.perSecond) := by
  cases t <;> simp [ljiffiesMax, sToJiffiesUp, msToJiffiesUp, usToJiffiesUp, nsToJiffiesUp,
    LongTime.duration, LongTime.perSecond]

theorem perSecond_pos (t : LongTime) : 0 < t.perSecond := by
  cases t <;> exact Nat.succ_pos _

/-! ### The divisions -/

section
variable {n m d : Nat}

theorem asmDivRoundUp_le_iff (hd : 0 < d) (hm : 0 < m) : asmDivRoundUp n d ≤ m ↔ n ≤ m * d := by
  have h : (n - 1) / d < m ↔ n - 1 < m * d := Nat.div_lt_iff_lt_mul hd
  have hpos : 0 < m * d := Nat.mul_pos hm hd
  rw [asmDivRoundUp]
  omega

theorem divRoundUp_le_iff (hn : 0 < n) (hd : 0 < d) (hm : 0 < m) : divRoundUp n d ≤ m ↔ n ≤ m * d := by
  rw [divRoundUp_of_pos hn, asmDivRoundUp_le_iff hd hm]

/-- Nothing, rounded up by a divisor of 32 bits. -/
theorem lt_divRoundUp_zero (hd : 0 < d) (h32 : d < 2 ^ 32) : 255 < divRoundUp 0 d := by
  have h : 255 ≤ (2 ^ 64 - 1) / d := by
    rw [Nat.le_div_iff_mul_le hd]
    omega
  rw [divRoundUp, if_pos rfl]
  omega

/-- Rounding up is the largest of the three. -/
theorem div_le_divRoundUp (hn : 0 < n) (hd : 0 < d) : n / d ≤ divRoundUp n d := by
  rw [divRoundUp_of_pos hn, asmDivRoundUp, Nat.div_le_iff_le_mul hd, Nat.add_mul]
  have := Nat.lt_div_mul_add hd (a := n - 1)
  omega

theorem divRound_le_divRoundUp (hn : 0 < n) (hd : 0 < d) : divRound n d ≤ divRoundUp n d := by
  rw [divRoundUp_of_pos hn, divRound, asmDivRoundUp, Nat.div_le_iff_le_mul hd, Nat.add_mul]
  have := Nat.lt_div_mul_add hd (a := n - 1)
  omega

end

/-! ### The ladder -/

/-- The shift brings the count below 256, and no smaller one does. -/
theorem ljiffiesShift_spec {m : Nat} (hm : m < 2 ^ 32) :
    m < 2 ^ (8 + ljiffiesShift m) ∧ ∀ k < ljiffiesShift m, 2 ^ (8 + k) ≤ m := by
  rw [ljiffiesShift]
  cases hfind : (List.range 24).find? fun k => m < 2 ^ (8 + k) with
  | none =>
    rw [List.find?_eq_none] at hfind
    refine ⟨hm, fun k hk => ?_⟩
    simpa using hfind k (List.mem_range.mpr hk)
  | some s =>
    obtain ⟨hlt, -, hmin⟩ := List.find?_range_eq_some.mp hfind
    refine ⟨by simpa using hlt, fun k hk => ?_⟩
    simpa using hmin k hk

theorem ljiffiesShift_eq {m s : Nat} (hm : m < 2 ^ 32) (hlt : m < 2 ^ (8 + s))
    (hge : s = 0 ∨ 2 ^ (7 + s) ≤ m) : ljiffiesShift m = s := by
  obtain ⟨hlt', hmin⟩ := ljiffiesShift_spec hm
  generalize ljiffiesShift m = r at *
  rcases Nat.lt_trichotomy r s with h | h | h
  · -- a smaller shift would do
    have : 2 ^ (8 + r) ≤ 2 ^ (7 + s) := Nat.pow_le_pow_right (by decide) (by omega)
    omega
  · exact h
  · exact absurd (hmin s h) (by omega)

theorem ljiffiesShift_ge {m : Nat} (hm : m < 2 ^ 32) :
    ljiffiesShift m = 0 ∨ 2 ^ (7 + ljiffiesShift m) ≤ m := by
  obtain ⟨-, hmin⟩ := ljiffiesShift_spec hm
  generalize ljiffiesShift m = r at *
  cases r with
  | zero => exact .inl rfl
  | succ k =>
    have := hmin k (by omega)
    exact .inr (by rwa [show 7 + (k + 1) = 8 + k by omega])

/-- Below 2²² the literal `1` can be shifted. -/
theorem ljiffiesShift_lt_iff {m : Nat} (hm : m < 2 ^ 32) : ljiffiesShift m < 15 ↔ m < 2 ^ 22 := by
  obtain ⟨hlt, hmin⟩ := ljiffiesShift_spec hm
  generalize ljiffiesShift m = r at *
  constructor
  · intro hr
    have : 2 ^ (8 + r) ≤ 2 ^ 22 := Nat.pow_le_pow_right (by decide) (by omega)
    omega
  · intro h22
    by_contra hge
    have := hmin 14 (by omega)
    omega

/-! ### Long jiffies -/

/-- `TCNT0_LPRESCALER` is what it is meant to be, and no conversion of the time `n` outgrows 8 bits. -/
structure LongJiffies (b : Build) (t : LongTime) (n : Nat) : Prop where
  prescaler : tcnt0Lprescaler b t = some (2 ^ ljiffiesShift (ljiffiesMax b t) * b.tcnt0Prescaler)
  ne_zero : tcnt0Lprescaler b t ≠ some 0
  fits : ∀ convert ∈ t.conversions, ∃ v, convert b t n = some v ∧ v ≤ 255

/-- A time that the ladder serves: the longest one has fewer than 2²² jiffies, and `n` is not zero and
    at most 255 of the divisors, in their 32 bits, that go with the longest time's power of two. -/
structure Served (b : Build) (t : LongTime) (n : Nat) : Prop where
  shiftable : ljiffiesMax b t < 2 ^ 22
  pos : 0 < n * b.fCpu
  fits : ∀ k, k = 0 ∨ 2 ^ (7 + k) ≤ ljiffiesMax b t → ljiffiesMax b t < 2 ^ (8 + k) →
    n * b.fCpu ≤ 255 * (2 ^ k * b.tcnt0Prescaler * t.perSecond % 2 ^ 32)

/-- The prescalers of Timer0. -/
def tcnt0Prescalers : List Nat := [1, 8, 64, 256, 1024]

section
variable {b : Build} {t : LongTime} {n : Nat}

theorem lprescaler_lt {p s : Nat} (hp : p ∈ tcnt0Prescalers) (hs : s < 15) :
    0 < 2 ^ s * p ∧ 2 ^ s * p < 2 ^ 32 := by
  have hpow : 2 ^ s ≤ 2 ^ 14 := Nat.pow_le_pow_right (by decide) (by omega)
  have hpos : 0 < 2 ^ s := Nat.two_pow_pos s
  simp only [tcnt0Prescalers, List.mem_cons, List.not_mem_nil, or_false] at hp
  rcases hp with rfl | rfl | rfl | rfl | rfl <;> omega

theorem tcnt0Lprescaler_eq (hp : b.tcnt0Prescaler ∈ tcnt0Prescalers)
    (h : ljiffiesShift (ljiffiesMax b t) < 15) :
    tcnt0Lprescaler b t = some (2 ^ ljiffiesShift (ljiffiesMax b t) * b.tcnt0Prescaler) := by
  rw [tcnt0Lprescaler, intShift, if_pos h, Option.map_some, Nat.mod_eq_of_lt (lprescaler_lt hp h).2]

/-- The conversions of a time fit in 8 bits if the one that rounds up does. -/
theorem conversions_fit_iff {l : Nat} (hl : tcnt0Lprescaler b t = some l) :
    (∀ convert ∈ t.conversions, ∃ v, convert b t n = some v ∧ v ≤ 255) ↔
      0 < n * b.fCpu ∧ n * b.fCpu ≤ 255 * (l * t.perSecond % 2 ^ 32) := by
  have h32 := Nat.mod_lt (l * t.perSecond) (show 2 ^ 32 > 0 by decide)
  have hconv : ∀ div, toLjiffies div t.perSecond b t n =
      if l * t.perSecond % 2 ^ 32 = 0 then none else some (div (n * b.fCpu) (l * t.perSecond % 2 ^ 32)) := by
    intro div
    rw [toLjiffies, hl, Option.bind_some]
  simp only [conversions_eq, List.forall_mem_cons, List.not_mem_nil, false_implies, implies_true, and_true,
    hconv]
  generalize l * t.perSecond % 2 ^ 32 = d at h32
  generalize n * b.fCpu = c
  constructor
  · rintro ⟨-, -, v, hv, hle⟩
    split at hv
    · contradiction
    have hd : 0 < d := by omega
    obtain rfl := Option.some.inj hv
    have hc : 0 < c := by
      by_contra hzero
      obtain rfl : c = 0 := by omega
      have := lt_divRoundUp_zero hd h32
      omega
    exact ⟨hc, (divRoundUp_le_iff hc hd (by decide)).mp hle⟩
  · rintro ⟨hc, hle⟩
    have hd : 0 < d := by omega
    have hup := (divRoundUp_le_iff hc hd (by decide)).mpr hle
    rw [if_neg (by omega), if_neg (by omega), if_neg (by omega)]
    exact ⟨⟨_, rfl, Nat.le_trans (div_le_divRoundUp hc hd) hup⟩,
      ⟨_, rfl, Nat.le_trans (divRound_le_divRoundUp hc hd) hup⟩, ⟨_, rfl, hup⟩⟩

/-- Long jiffies are well defined and fit in 8 bits exactly for the times the ladder serves. -/
theorem longJiffies_iff (b : Build) (t : LongTime) (n : Nat) (hp : b.tcnt0Prescaler ∈ tcnt0Prescalers)
    (hmax : ljiffiesMax b t < 2 ^ 32) : LongJiffies b t n ↔ Served b t n := by
  constructor
  · intro h
    have h15 : ljiffiesShift (ljiffiesMax b t) < 15 := by
      by_contra hge
      have hpre := h.prescaler
      rw [tcnt0Lprescaler, intShift, if_neg hge] at hpre
      contradiction
    obtain ⟨hpos, hle⟩ := (conversions_fit_iff (tcnt0Lprescaler_eq hp h15)).mp h.fits
    refine ⟨(ljiffiesShift_lt_iff hmax).mp h15, hpos, fun k hk hlt => ?_⟩
    rwa [ljiffiesShift_eq hmax hlt hk] at hle
  · intro h
    have h15 := (ljiffiesShift_lt_iff hmax).mpr h.shiftable
    have hpre := tcnt0Lprescaler_eq hp h15
    refine ⟨hpre, ?_, (conversions_fit_iff hpre).mpr ⟨h.pos, ?_⟩⟩
    · rw [hpre, ne_eq, Option.some.injEq]
      exact Nat.ne_of_gt (lprescaler_lt hp h15).1
    · exact h.fits _ (ljiffiesShift_ge hmax) (ljiffiesShift_spec hmax).1

/-- Where the divisor fits in 32 bits, every time up to the longest is served once the longest one is
    not in the last step before a power of two. -/
theorem served_of_longest {s : Nat} (hf : 0 < b.fCpu) (hp : 0 < b.tcnt0Prescaler)
    (hs : s < 15) (hlt : ljiffiesMax b t < 2 ^ (8 + s)) (hge : s = 0 ∨ 2 ^ (7 + s) ≤ ljiffiesMax b t)
    (h32 : 2 ^ s * b.tcnt0Prescaler * t.perSecond < 2 ^ 32) (hlast : ljiffiesMax b t ≤ 255 * 2 ^ s)
    (hn : 0 < n) (hle : n ≤ t.duration) : Served b t n := by
  have hpow : 2 ^ (8 + s) ≤ 2 ^ 22 := Nat.pow_le_pow_right (by decide) (by omega)
  have hmax : ljiffiesMax b t < 2 ^ 32 := by omega
  refine ⟨by omega, Nat.mul_pos hn hf, fun k hk hklt => ?_⟩
  obtain rfl : k = s := (ljiffiesShift_eq hmax hklt hk).symm.trans (ljiffiesShift_eq hmax hlt hge)
  rw [Nat.mod_eq_of_lt h32]
  have hd : 0 < b.tcnt0Prescaler * t.perSecond := Nat.mul_pos hp (perSecond_pos t)
  rw [ljiffiesMax_eq, divRoundUp_le_iff (Nat.mul_pos (Nat.lt_of_lt_of_le hn hle) hf) hd
    (Nat.mul_pos (by decide) (Nat.two_pow_pos _))] at hlast
  calc n * b.fCpu
    _ ≤ t.duration * b.fCpu := Nat.mul_le_mul_right _ hle
    _ ≤ 255 * 2 ^ k * (b.tcnt0Prescaler * t.perSecond) := hlast
    _ = 255 * (2 ^ k * b.tcnt0Prescaler * t.perSecond) := by
      rw [Nat.mul_assoc, Nat.mul_assoc (2 ^ k)]

end

/-- One millisecond and half a second at 1 MHz. -/
theorem longJiffies_half_second : LongJiffies {} (.ms 500) 1 ∧ LongJiffies {} (.ms 500) 500 := by
  have hserved : ∀ n, 0 < n → n ≤ 500 → Served {} (.ms 500) n := by
    intro n hn hle
    exact served_of_longest (s := 11) (by decide) (by decide) (by decide) (by decide) (by decide)
      (by decide) (by decide) hn hle
  exact ⟨(longJiffies_iff {} (.ms 500) 1 (by decide) (by decide)).mpr (hserved 1 (by decide) (by decide)),
    (longJiffies_iff {} (.ms 500) 500 (by decide) (by decide)).mpr (hserved 500 (by decide) (by decide))⟩

/-- 511 microseconds at 1 MHz come out as 256 long jiffies, and none as over 16 bits of them. -/
theorem longJiffies_overflow :
    usToLjiffiesUp {} (.us 511) 511 = some 256 ∧ usToLjiffiesUp {} (.us 511) 0 = some 9223372036855 ∧
      ¬ LongJiffies {} (.us 511) 511 ∧ ¬ LongJiffies {} (.us 511) 0 := by
  refine ⟨by decide, by decide, fun h => ?_, fun h => ?_⟩
  all_goals
    obtain ⟨v, hv, hle⟩ := h.fits usToLjiffiesUp (by simp [LongTime.conversions])
    obtain rfl := Option.some.inj hv
    exact absurd hle (by decide)

end AvrCec
