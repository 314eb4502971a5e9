import AvrCec.Jiffies
import AvrCec.Usi
import Mathlib.Algebra.Order.Field.Basic
import Mathlib.Data.Rat.Cast.Order
import Mathlib.Tactic.Linarith
import Mathlib.Tactic.FieldSimp
import Mathlib.Tactic.Ring

/-! The clock of the USI driver's samples: Timer0, cleared on a match with `OCR0A`.

    `TCNT0_TOP` is the sample time in prescaled clocks, to the nearest. The timer counts from 0 to
    `OCR0A`, one clock more than the register says, so the period is never the nearest one
    (`sampleClock_never`); and where 256 clocks are nearest the register wraps to 0. -/

namespace AvrCec

/-- `TCNT0_PRESCALER_IDEAL` for `TCNT0_ROLLOVER_PERIOD_US`. -/
def tcnt0PrescalerIdeal (fCpu rolloverPeriodUs : Nat) : Nat :=
  divRoundUp (fCpu * rolloverPeriodUs) 256000000

/-- `TCNT0_PRESCALER` and `TCNT0_PRESCALER_VAL`; `none` when there is no valid prescaler. -/
def tcnt0PrescalerOf (ideal : Nat) : Option (Nat × Nat) :=
  if ideal = 1 then some (1, 1)
  else if ideal ≤ 8 then some (8, 2)
  else if ideal ≤ 64 then some (64, 3)
  else if ideal ≤ 256 then some (256, 4)
  else if ideal ≤ 1024 then some (1024, 5)
  else none

def tcnt0Top (b : Build) : Nat := usToJiffiesRnd b sampleUs

/-- The register `cec_receive_init` writes is 8 bits wide. -/
def ocr0a (b : Build) : Nat := tcnt0Top b % 256

/-- A prescaled clock, in microseconds. -/
def clockUs (b : Build) : ℚ := b.tcnt0Prescaler * 1000000 / b.fCpu

/-- The period of Timer0, which counts from 0 to `OCR0A`, in microseconds. -/
def samplePeriodUs (b : Build) : ℚ := (ocr0a b + 1) * clockUs b

/-- The sample clock is right: `TCNT0_TOP` fits its register, and the period is the sample time to
    the nearest prescaled clock. -/
structure SampleClock (b : Build) : Prop where
  fits : tcnt0Top b < 256
  period : |samplePeriodUs b - sampleUs| ≤ clockUs b / 2

variable {b : Build} {fCpu p val : Nat}

theorem tcnt0PrescalerOf_le {ideal : Nat} (h : tcnt0PrescalerOf ideal = some (p, val)) :
    ideal ≤ p ∧ 0 < p := by
  rw [tcnt0PrescalerOf] at h
  repeat' split at h
  all_goals first
    | (obtain ⟨rfl, rfl⟩ := Prod.mk.inj (Option.some.inj h); omega)
    | contradiction

/-- The sample time fits in 256 prescaled clocks. -/
theorem sample_le (h : tcnt0PrescalerOf (tcnt0PrescalerIdeal fCpu sampleUs) = some (p, val)) :
    sampleUs * fCpu ≤ 256 * (p * 1000000) := by
  obtain ⟨hle, hp⟩ := tcnt0PrescalerOf_le h
  rw [Nat.mul_comm sampleUs]
  rcases Nat.eq_zero_or_pos fCpu with rfl | hf
  · omega
  rw [tcnt0PrescalerIdeal, divRoundUp_le_iff (Nat.mul_pos hf (by decide)) (by decide) hp] at hle
  omega

/-- The top value is the nearest count. -/
theorem tcnt0Top_nearest (hp : 0 < b.tcnt0Prescaler) :
    tcnt0Top b * (b.tcnt0Prescaler * 1000000) ≤ sampleUs * b.fCpu + b.tcnt0Prescaler * 500000 ∧
      sampleUs * b.fCpu + b.tcnt0Prescaler * 500000 < (tcnt0Top b + 1) * (b.tcnt0Prescaler * 1000000) := by
  have hd : 0 < b.tcnt0Prescaler * 1000000 := by omega
  have hhalf : b.tcnt0Prescaler * 1000000 / 2 = b.tcnt0Prescaler * 500000 := by omega
  rw [tcnt0Top, usToJiffiesRnd, divRound, hhalf]
  refine ⟨Nat.div_mul_le_self _ _, ?_⟩
  rw [Nat.add_mul, Nat.one_mul]
  exact Nat.lt_div_mul_add hd

/-- The period in units of `1 / F_CPU` microseconds. -/
theorem period_off (hf : 0 < b.fCpu) {c : Nat} (hc : ocr0a b = c)
    (h : ((c : ℚ) + 1) * (b.tcnt0Prescaler * 1000000) - sampleUs * b.fCpu > b.tcnt0Prescaler * 500000 ∨
      (sampleUs : ℚ) * b.fCpu - (c + 1) * (b.tcnt0Prescaler * 1000000) > b.tcnt0Prescaler * 500000) :
    clockUs b / 2 < |samplePeriodUs b - sampleUs| := by
  have hfq : (0 : ℚ) < b.fCpu := by exact_mod_cast hf
  have hperiod : samplePeriodUs b - sampleUs =
      (((c : ℚ) + 1) * (b.tcnt0Prescaler * 1000000) - sampleUs * b.fCpu) / b.fCpu := by
    rw [samplePeriodUs, clockUs, hc]
    field_simp
  have hclock : clockUs b / 2 = b.tcnt0Prescaler * 500000 / b.fCpu := by
    rw [clockUs]
    field_simp
    ring
  rw [hperiod, hclock, abs_div, abs_of_pos hfq, div_lt_div_iff_of_pos_right hfq, lt_abs]
  rcases h with h | h
  · exact .inl h
  · exact .inr (by linarith)

/-- The period is off by more than half a prescaled clock at every clock rate. -/
theorem half_clock_lt (h : tcnt0PrescalerOf (tcnt0PrescalerIdeal fCpu sampleUs) = some (p, val)) :
    let b : Build := { fCpu := fCpu, tcnt0Prescaler := p }
    clockUs b / 2 < |samplePeriodUs b - sampleUs| := by
  intro b
  have hp := (tcnt0PrescalerOf_le h).2
  obtain ⟨hlo, hhi⟩ := tcnt0Top_nearest (b := b) hp
  have hle := sample_le h
  have hf : 0 < fCpu := by
    by_contra hzero
    -- no clock at all has no prescaler
    obtain rfl : fCpu = 0 := by omega
    exact absurd h (by simp [tcnt0PrescalerIdeal, tcnt0PrescalerOf, divRoundUp])
  have htop : tcnt0Top b ≤ 256 := by
    by_contra hgt
    have : 257 * (p * 1000000) ≤ tcnt0Top b * (p * 1000000) := Nat.mul_le_mul_right _ (by omega)
    change tcnt0Top b * (p * 1000000) ≤ sampleUs * fCpu + p * 500000 at hlo
    omega
  rcases Nat.lt_or_eq_of_le htop with hlt | heq
  · refine period_off hf (Nat.mod_eq_of_lt hlt) (.inl ?_)
    have : (sampleUs * b.fCpu + b.tcnt0Prescaler * 500000 : ℚ) <
        (tcnt0Top b + 1) * (b.tcnt0Prescaler * 1000000) := by exact_mod_cast hhi
    linarith
  · -- the register wraps to 0
    rw [heq] at hlo
    refine period_off (c := 0) hf (by rw [ocr0a, heq]) (.inr ?_)
    have : (256 * (b.tcnt0Prescaler * 1000000) : ℚ) ≤
        sampleUs * b.fCpu + b.tcnt0Prescaler * 500000 := by exact_mod_cast hlo
    have hpq : (0 : ℚ) < b.tcnt0Prescaler := by exact_mod_cast hp
    push_cast
    linarith

/-- The sample clock is right at no clock rate. -/
theorem sampleClock_never (fCpu p val : Nat)
    (h : tcnt0PrescalerOf (tcnt0PrescalerIdeal fCpu sampleUs) = some (p, val)) :
    ¬ SampleClock { fCpu := fCpu, tcnt0Prescaler := p } :=
  fun hs => absurd hs.period (not_le.mpr (half_clock_lt h))

/-- At 1 MHz Timer0 runs at a prescaler of 8. -/
theorem sampleClock_one_mhz : ¬ SampleClock { fCpu := 1000000, tcnt0Prescaler := 8 } :=
  sampleClock_never 1000000 8 2 (by decide)

/-- There the period is 312 microseconds, one and a half clocks too long. -/
theorem samplePeriod_one_mhz :
    let b : Build := { fCpu := 1000000, tcnt0Prescaler := 8 }
    samplePeriodUs b = 312 ∧ ¬ |samplePeriodUs b - sampleUs| ≤ clockUs b / 2 := by
  have htop : ocr0a { fCpu := 1000000, tcnt0Prescaler := 8 } = 38 := by decide
  have hperiod : samplePeriodUs { fCpu := 1000000, tcnt0Prescaler := 8 } = 312 := by
    rw [samplePeriodUs, clockUs, htop]
    norm_num
  refine ⟨hperiod, ?_⟩
  rw [hperiod, clockUs]
  norm_num [sampleUs, cecPeriod]

/-- Where the top value fits its register: below 255.5 prescaled clocks. -/
theorem tcnt0Top_lt_iff (b : Build) (hp : 0 < b.tcnt0Prescaler) :
    tcnt0Top b < 256 ↔ 2 * (sampleUs * b.fCpu) < 511 * (b.tcnt0Prescaler * 1000000) := by
  obtain ⟨hlo, hhi⟩ := tcnt0Top_nearest (b := b) hp
  constructor
  · intro hlt
    have : (tcnt0Top b + 1) * (b.tcnt0Prescaler * 1000000) ≤ 256 * (b.tcnt0Prescaler * 1000000) :=
      Nat.mul_le_mul_right _ hlt
    omega
  · intro hlt
    by_contra hge
    have : 256 * (b.tcnt0Prescaler * 1000000) ≤ tcnt0Top b * (b.tcnt0Prescaler * 1000000) :=
      Nat.mul_le_mul_right _ (by omega)
    omega

end AvrCec
