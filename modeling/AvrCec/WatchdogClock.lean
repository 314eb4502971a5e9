import AvrCec.Jiffies
import AvrCec.Watchdog

/-! The watchdog's clock constants, which the assembler computes, and the two `LOG2` of `bitops.h`.

    In the assembler a comparison is -1 when it holds and a conjunction 1. The last entry of the
    assembler's `LOG2` takes a comparison for a conjunction, and compares strictly; so from 2³¹ on it
    is wrong (`asmLog2_eq_iff`). The divisor of the tick constants is the one of a single board. -/

namespace AvrCec.Watchdog
open Lib Lib.Avr

/-! ### `bitops.h` -/

/-- A comparison in the assembler: all ones when it holds. -/
def gasCompare (c : Bool) : BitVec 64 := if c then -1 else 0

/-- `&&` in the assembler. -/
def gasAnd (a b : BitVec 64) : BitVec 64 := if a ≠ 0 ∧ b ≠ 0 then 1 else 0

def log2Entry (n bit : Nat) : BitVec 64 :=
  -gasAnd (gasCompare (2 ^ bit ≤ n)) (gasCompare (n < 2 ^ (bit + 1))) &&& BitVec.ofNat 64 bit

/-- `LOG2` in an assembler file. -/
def asmLog2 (n : Nat) : Nat :=
  ((List.range 31).foldl (fun r bit => r ||| log2Entry n bit) 0 |||
    (-gasCompare (2 ^ 31 < n) &&& 31)).toNat

/-- `LOG2` in a C file. -/
def cLog2 (n : Nat) : Nat :=
  if n < 2 ^ 0 then 0 else ((List.range 31).find? fun k => n < 2 ^ (k + 1)).getD 31

theorem minus_one_and (x : BitVec 64) : -1 &&& x = x := by
  rw [show (-1 : BitVec 64) = BitVec.allOnes 64 by decide, BitVec.allOnes_and]

theorem log2Entry_eq {n : Nat} (hn : 0 < n) (bit : Nat) :
    log2Entry n bit = if Nat.log2 n = bit then BitVec.ofNat 64 bit else 0 := by
  have hiff : Nat.log2 n = bit ↔ 2 ^ bit ≤ n ∧ n < 2 ^ (bit + 1) := Nat.log2_eq_iff (by omega)
  rw [log2Entry]
  by_cases h : Nat.log2 n = bit
  · obtain ⟨hlo, hhi⟩ := hiff.mp h
    rw [if_pos h, decide_eq_true hlo, decide_eq_true hhi]
    exact minus_one_and _
  · rw [if_neg h]
    by_cases hlo : 2 ^ bit ≤ n
    · have hhi : ¬ n < 2 ^ (bit + 1) := fun hhi => h (hiff.mpr ⟨hlo, hhi⟩)
      simp [gasAnd, gasCompare, hhi]
    · simp [gasAnd, gasCompare, hlo]

/-- The entries below `m` find the logarithm of the numbers below `2 ^ m`. -/
theorem foldl_log2Entry {n : Nat} (hn : 0 < n) (m : Nat) :
    (List.range m).foldl (fun r bit => r ||| log2Entry n bit) 0 =
      if Nat.log2 n < m then BitVec.ofNat 64 (Nat.log2 n) else 0 := by
  induction m with
  | zero => rfl
  | succ m ih =>
    rw [List.range_succ, List.foldl_append, ih, List.foldl_cons, List.foldl_nil, log2Entry_eq hn]
    rcases Nat.lt_trichotomy (Nat.log2 n) m with h | h | h
    · rw [if_pos h, if_neg (by omega), if_pos (by omega)]
      exact BitVec.or_zero
    · rw [if_neg (by omega), if_pos h, if_pos (by omega), h]
      exact BitVec.zero_or
    · rw [if_neg (by omega), if_neg (by omega), if_neg (by omega)]
      rfl

/-- From 2³¹ on only the last entry is left, and it is 0 or 1. -/
theorem asmLog2_eq {n : Nat} (hn : 0 < n) :
    asmLog2 n = if n < 2 ^ 31 then Nat.log2 n else if 2 ^ 31 < n then 1 else 0 := by
  rw [asmLog2, foldl_log2Entry hn]
  by_cases h : n < 2 ^ 31
  · have hlog : Nat.log2 n < 31 := (Nat.log2_lt (by omega)).mpr h
    have hlast : ¬ 2 ^ 31 < n := by omega
    rw [if_pos hlog, if_pos h, decide_eq_false hlast]
    simp [gasCompare]
    omega
  · have hlog : ¬ Nat.log2 n < 31 := fun hl => h ((Nat.log2_lt (by omega)).mp hl)
    rw [if_neg hlog, if_neg h]
    by_cases hlast : 2 ^ 31 < n
    · rw [decide_eq_true hlast, if_pos hlast]
      decide
    · rw [decide_eq_false hlast, if_neg hlast]
      decide

theorem cLog2_eq {n : Nat} (hn : 0 < n) (h : n < 2 ^ 32) : cLog2 n = Nat.log2 n := by
  rw [cLog2, if_neg (by omega)]
  symm
  rw [Nat.log2_eq_iff (by omega)]
  cases hfind : (List.range 31).find? fun k => n < 2 ^ (k + 1) with
  | none =>
    rw [List.find?_eq_none] at hfind
    have := hfind 30 (by decide)
    exact ⟨by simpa using this, h⟩
  | some k =>
    obtain ⟨hlt, -, hmin⟩ := List.find?_range_eq_some.mp hfind
    refine ⟨?_, by simpa using hlt⟩
    cases k with
    | zero => exact hn
    | succ k => simpa using hmin k (Nat.lt_succ_self k)

/-- The two agree, on the logarithm, below 2³¹. -/
theorem asmLog2_eq_iff {n : Nat} (hn : 0 < n) (h : n < 2 ^ 32) :
    (asmLog2 n = Nat.log2 n ∧ asmLog2 n = cLog2 n) ↔ n < 2 ^ 31 := by
  rw [cLog2_eq hn h, and_self, asmLog2_eq hn]
  constructor
  · intro heq
    by_contra hge
    have h31 : 31 ≤ Nat.log2 n := (Nat.le_log2 (by omega)).mpr (by omega)
    rw [if_neg hge] at heq
    split at heq <;> omega
  · intro hlt
    rw [if_pos hlt]

/-! ### The clock -/

def maxLatencyUs : Nat := 2 * (cecT7EarlyEnd - cecT6Late0)

def tcnt1PrescalerIdeal (fCpu : Nat) : Nat := asmDivRoundUp (fCpu * maxLatencyUs) (256 * 1000000)
def tcnt1PrescalerVal (fCpu : Nat) : Nat := asmLog2 (tcnt1PrescalerIdeal fCpu * 2 - 1) + 1
def tcnt1Prescaler : Nat := 64

def usToTicks (fCpu n : Nat) : Nat := fCpu * n / (tcnt1Prescaler * 1000000)
def usToTicksUp (fCpu n : Nat) : Nat := asmDivRoundUp (fCpu * n) (tcnt1Prescaler * 1000000)

/-- `cec_watchdog_init` as it is assembled for a clock rate. -/
def initFor (fCpu : Nat) : List (Instr Port Cell) :=
  cecWatchdogInit (BitVec.ofNat 8 (usToTicksUp fCpu cecMaxRiseTime))
    (BitVec.ofNat 8 (usToTicks fCpu maxLatencyUs)) (tcnt1PrescalerVal fCpu)

/-- The power of two by which a clock select divides. -/
def divisor (val : Nat) : Nat := 2 ^ (val - 1)

/-- The constants agree with the clock, and `LOG2` is right at `n`: the selector is the least that
    suffices, the tick constants are in its clocks, `cec_watchdog_init` programs all three, and the
    compare values stand for at least the rise time and at most the latency limit. -/
structure ClockAgrees (n fCpu : Nat) (regs : Nat → BitVec 8) (io : Io) : Prop where
  log2 : asmLog2 n = Nat.log2 n ∧ asmLog2 n = cLog2 n
  enough : tcnt1PrescalerIdeal fCpu ≤ divisor (tcnt1PrescalerVal fCpu)
  least : ∀ k, tcnt1PrescalerIdeal fCpu ≤ 2 ^ k → divisor (tcnt1PrescalerVal fCpu) ≤ 2 ^ k
  divides : tcnt1Prescaler = divisor (tcnt1PrescalerVal fCpu)
  programmed : ∃ m, Avr.run (initFor fCpu) 8 (entry regs 0 io) = some m ∧
    m.io.tccr1.toNat = tcnt1PrescalerVal fCpu ∧
    m.io.ocr1a.toNat = usToTicksUp fCpu cecMaxRiseTime ∧
    m.io.ocr1b.toNat = usToTicks fCpu maxLatencyUs
  rise : cecMaxRiseTime * fCpu ≤
    usToTicksUp fCpu cecMaxRiseTime * divisor (tcnt1PrescalerVal fCpu) * 1000000
  latency : usToTicks fCpu maxLatencyUs * divisor (tcnt1PrescalerVal fCpu) * 1000000 ≤
    maxLatencyUs * fCpu

/-- What `cec_watchdog_init` leaves in the registers. -/
theorem run_init (rise latency : BitVec 8) {val : Nat} (h₁ : val ≠ 1) (h₁₈ : val ≠ 18)
    (regs : Nat → BitVec 8) (io : Io) :
    ∃ m, Avr.run (cecWatchdogInit rise latency val) 8 (entry regs 0 io) = some m ∧
      m.io.tccr1 = regs val ∧ m.io.ocr1a = rise ∧ m.io.ocr1b = latency := by
  simp [Avr.run, cecWatchdogInit, exec, entry, Machine.load, Ports.write, h₁, h₁₈]

/-- The ideal prescaler is in the range of the board's. -/
theorem tcnt1PrescalerIdeal_iff (fCpu : Nat) :
    (32 < tcnt1PrescalerIdeal fCpu ∧ tcnt1PrescalerIdeal fCpu ≤ 64) ↔
      11702858 ≤ fCpu ∧ fCpu ≤ 23405714 := by
  have hlow : tcnt1PrescalerIdeal fCpu ≤ 32 ↔ fCpu * 700 ≤ 32 * (256 * 1000000) :=
    asmDivRoundUp_le_iff (by decide) (by decide)
  have hhigh : tcnt1PrescalerIdeal fCpu ≤ 64 ↔ fCpu * 700 ≤ 64 * (256 * 1000000) :=
    asmDivRoundUp_le_iff (by decide) (by decide)
  omega

/-- The one selector that goes with the divisor of the tick constants. -/
theorem tcnt1PrescalerVal_eq_seven (fCpu : Nat) :
    tcnt1PrescalerVal fCpu = 7 ↔ 32 < tcnt1PrescalerIdeal fCpu ∧ tcnt1PrescalerIdeal fCpu ≤ 64 := by
  have hpos : 0 < tcnt1PrescalerIdeal fCpu := Nat.lt_add_right _ Nat.zero_lt_one
  have hsix : Nat.log2 (tcnt1PrescalerIdeal fCpu * 2 - 1) = 6 ↔
      2 ^ 6 ≤ tcnt1PrescalerIdeal fCpu * 2 - 1 ∧ tcnt1PrescalerIdeal fCpu * 2 - 1 < 2 ^ 7 :=
    Nat.log2_eq_iff (by omega)
  rw [tcnt1PrescalerVal, asmLog2_eq (by omega)]
  split
  · omega
  · split <;> omega

/-- The clock constants agree at the rates of which the board's prescaler is the right one, if the
    register that the selector happens to name holds it. -/
theorem clockAgrees_iff (n fCpu : Nat) (regs : Nat → BitVec 8) (io : Io) (hn : 0 < n) (h32 : n < 2 ^ 32) :
    ClockAgrees n fCpu regs io ↔
      n < 2 ^ 31 ∧ (11702858 ≤ fCpu ∧ fCpu ≤ 23405714) ∧ regs 7 = 7 := by
  rw [← tcnt1PrescalerIdeal_iff, ← tcnt1PrescalerVal_eq_seven, ← asmLog2_eq_iff hn h32]
  have hinit := run_init (BitVec.ofNat 8 (usToTicksUp fCpu cecMaxRiseTime))
    (BitVec.ofNat 8 (usToTicks fCpu maxLatencyUs)) (show 7 ≠ 1 by decide) (by decide) regs io
  constructor
  · intro h
    have hval : tcnt1PrescalerVal fCpu = 7 := by
      have hsix : 2 ^ (tcnt1PrescalerVal fCpu - 1) = 2 ^ 6 := h.divides.symm
      have := (Nat.pow_right_inj (by decide)).mp hsix
      omega
    refine ⟨h.log2, hval, ?_⟩
    obtain ⟨m, hm, hsel, -⟩ := h.programmed
    obtain ⟨m', hm', hreg, -⟩ := hinit
    rw [initFor, hval, hm'] at hm
    obtain rfl := Option.some.inj hm
    rw [hval, hreg] at hsel
    exact BitVec.eq_of_toNat_eq hsel
  · rintro ⟨hlog, hval, hreg⟩
    obtain ⟨hlow, hhigh⟩ := (tcnt1PrescalerVal_eq_seven fCpu).mp hval
    obtain ⟨hslow, hfast⟩ := (tcnt1PrescalerIdeal_iff fCpu).mp ⟨hlow, hhigh⟩
    have hdiv : divisor (tcnt1PrescalerVal fCpu) = 64 := by rw [hval]; rfl
    have hrise : usToTicksUp fCpu cecMaxRiseTime ≤ 255 :=
      (asmDivRoundUp_le_iff (by decide) (by decide)).mpr (by rw [cecMaxRiseTime, tcnt1Prescaler]; omega)
    have hlatency : usToTicks fCpu maxLatencyUs < 256 :=
      (Nat.div_lt_iff_lt_mul (by decide)).mpr (by rw [show maxLatencyUs = 700 by decide, tcnt1Prescaler]; omega)
    refine ⟨hlog, by rw [hdiv]; exact hhigh, fun k hk => ?_, hdiv.symm, ?_, ?_, ?_⟩
    · -- the least power of two above 32
      have hk6 : 5 < k := by
        by_contra hle
        have : 2 ^ k ≤ 2 ^ 5 := Nat.pow_le_pow_right (by decide) (by omega)
        omega
      rw [hdiv]
      exact Nat.pow_le_pow_right (n := 2) (by decide) hk6
    · obtain ⟨m, hm, hsel, ha, hb⟩ := hinit
      refine ⟨m, by rw [initFor, hval]; exact hm, by rw [hsel, hval, hreg]; rfl, ?_, ?_⟩
      · rw [ha, BitVec.toNat_ofNat]
        exact Nat.mod_eq_of_lt (by omega)
      · rw [hb, BitVec.toNat_ofNat]
        exact Nat.mod_eq_of_lt (by omega)
    · have h := (asmDivRoundUp_le_iff (n := fCpu * cecMaxRiseTime) (d := tcnt1Prescaler * 1000000)
        (m := usToTicksUp fCpu cecMaxRiseTime) (by decide) (Nat.lt_add_right _ Nat.zero_lt_one)).mp (Nat.le_refl _)
      rw [hdiv, Nat.mul_comm cecMaxRiseTime, Nat.mul_assoc]
      exact h
    · have h : usToTicks fCpu maxLatencyUs * (tcnt1Prescaler * 1000000) ≤ fCpu * maxLatencyUs :=
        Nat.div_mul_le_self _ _
      rw [hdiv, Nat.mul_comm maxLatencyUs, Nat.mul_assoc]
      exact h

/-- A 16 MHz board, whose caller left the selector in `r7`. -/
theorem clockAgrees_sixteen_mhz : ClockAgrees 1000 16000000 (fun _ => 7) {} :=
  (clockAgrees_iff 1000 16000000 (fun _ => 7) {} (by decide) (by decide)).mpr
    ⟨by decide, by decide, rfl⟩

/-- At 8 MHz the selector divides by 32, the tick constants by 64; and 2³¹ has the logarithm 0. -/
theorem clock_eight_mhz :
    tcnt1PrescalerVal 8000000 = 6 ∧ divisor 6 = 32 ∧ tcnt1Prescaler = 64 ∧ asmLog2 (2 ^ 31) = 0 ∧
      ¬ ClockAgrees 1 8000000 (fun _ => 6) {} ∧ ¬ ClockAgrees (2 ^ 31) 16000000 (fun _ => 7) {} := by
  refine ⟨by decide, by decide, by decide, by decide, fun h => ?_, fun h => ?_⟩
  · exact absurd h.divides (by decide)
  · exact absurd h.log2.2 (by decide)

end AvrCec.Watchdog
