import AvrCec.PwmWave
import AvrCec.Latency

/-! The waveform of an attempt, in microseconds.

    The prescaler is the least power of two for which the start bit's 4500 us fit in Timer1's eight
    bits, so one count is less than 35.2 us long (`tickUs_lt`). The counts are evaluated in single
    precision, which makes them one more or less at some clocks, but never more than a thousandth of a
    count worse than the nearest (`usToCecJiffies_near`): every time is met to within 18 us
    (`ticks_near`), whatever the clock. An attempt that runs to its end is therefore a start bit
    and the framing of its message, each pulse within 18 us of its nominal times (`attempt_wave`), and
    every receiver of this library takes it in (`attempt_received`). -/

namespace AvrCec
open Lib

namespace Soft

/-- One count of Timer1. -/
noncomputable def tickUs (b : Build) : ℝ := (tcnt1Prescaler b * 1000000 : ℕ) / (b.fCpu : ℝ)

/-- A cycle is low until the count has passed OCR1B, and the next one begins once the count has passed
    OCR1C as it is then. -/
noncomputable def pulses (b : Build) (cs : List (Nat × Nat)) : List (Pulse ℝ) :=
  List.zipWith (fun c d => ⟨(c.1 + 1) * tickUs b, (d.2 + 1) * tickUs b⟩) cs cs.tail

/-! ### Counts of Timer1 -/

section
variable {b : Build}

/-- The clock is fast enough for the prescaler to be chosen by it. -/
def Clocked (b : Build) : Prop := 57000 ≤ b.fCpu

instance (b : Build) : Decidable (Clocked b) := Nat.decLe ..

theorem start_pos (h : Clocked b) : 0 < b.fCpu * cecStartHigh := by
  unfold Clocked at h
  exact Nat.mul_pos (by omega) (by decide)

theorem ideal_two (h : Clocked b) : 2 ≤ tcnt1PrescalerIdeal b := by
  have hdiv : 1 ≤ (b.fCpu * cecStartHigh - 1) / 256000000 := by
    rw [Nat.le_div_iff_mul_le (by decide)]
    unfold Clocked at h
    unfold cecStartHigh
    omega
  rw [tcnt1PrescalerIdeal, divRoundUp_of_pos (start_pos h), asmDivRoundUp]
  omega

theorem ideal_le_prescaler (b : Build) : tcnt1PrescalerIdeal b ≤ tcnt1Prescaler b := by
  have hlt := Nat.lt_log2_self (n := tcnt1PrescalerIdeal b - 1)
  have hval : tcnt1PrescalerVal b - 1 = (tcnt1PrescalerIdeal b - 1).log2 + 1 := rfl
  rw [tcnt1Prescaler, hval]
  omega

theorem prescaler_lt (h : Clocked b) : tcnt1Prescaler b ≤ 2 * (tcnt1PrescalerIdeal b - 1) := by
  have htwo := ideal_two h
  have hle := Nat.log2_self_le (n := tcnt1PrescalerIdeal b - 1) (by omega)
  have hval : tcnt1PrescalerVal b - 1 = (tcnt1PrescalerIdeal b - 1).log2 + 1 := rfl
  rw [tcnt1Prescaler, hval, Nat.pow_succ]
  omega

/-- The counts of the start bit fit in eight bits, and one is less than 35.2 us long. -/
theorem prescaler_bounds (h : Clocked b) :
    cecStartHigh * b.fCpu ≤ 256 * (tcnt1Prescaler b * 1000000) ∧ 5 * (tcnt1Prescaler b * 1000000) < 176 * b.fCpu := by
  have hlo := ideal_le_prescaler b
  have hhi := prescaler_lt h
  have hmod := Nat.div_add_mod (b.fCpu * cecStartHigh - 1) 256000000
  have hlt := Nat.mod_lt (b.fCpu * cecStartHigh - 1) (by decide : 256000000 > 0)
  rw [tcnt1PrescalerIdeal, divRoundUp_of_pos (start_pos h), asmDivRoundUp] at hlo hhi
  unfold Clocked at h
  unfold cecStartHigh at *
  generalize (b.fCpu * 4500 - 1) / 256000000 = q at *
  omega

theorem tickUs_pos (h : Clocked b) : 0 < tickUs b := by
  have hpos : 0 < tcnt1Prescaler b * 1000000 := Nat.mul_pos (Nat.two_pow_pos _) (by decide)
  have hf : 0 < b.fCpu := by
    unfold Clocked at h
    omega
  exact div_pos (by exact_mod_cast hpos) (by exact_mod_cast hf)

theorem tickUs_lt (h : Clocked b) : tickUs b < 176 / 5 := by
  have hlt := (prescaler_bounds h).2
  have hf : (0 : ℝ) < b.fCpu := by
    have : 0 < b.fCpu := by
      unfold Clocked at h
      omega
    exact_mod_cast this
  have hcast : 5 * ((tcnt1Prescaler b * 1000000 : ℕ) : ℝ) < 176 * b.fCpu := by exact_mod_cast hlt
  rw [tickUs, div_lt_iff₀ hf]
  linarith

/-- The counts of a time before they are rounded. -/
def exactCounts (b : Build) (n : ℕ) : ℚ := n / 1000000 * b.fCpu / tcnt1Prescaler b

/-- Single precision is a thousandth of a count worse than the nearest. -/
theorem usToCecJiffies_near {n : ℕ} (h : exactCounts b n ≤ 256) :
    |(usToCecJiffies b n : ℚ) - exactCounts b n| ≤ 501 / 1000 := by
  have hP : (0 : ℚ) < tcnt1Prescaler b := by
    have : 0 < tcnt1Prescaler b := Nat.two_pow_pos _
    exact_mod_cast this
  have hseconds := (Rounded.exact (e := 1 / 2 ^ 24) (q := (n : ℚ) / 1000000) (by positivity)).fl
  have hclock := (Rounded.exact (e := 1 / 2 ^ 24) (q := (b.fCpu : ℚ)) (by positivity)).fl
  have hjiffies := (((hseconds.mul hclock (by norm_num) (by norm_num)).fl).div hP).fl
  have hfloor : usToCecJiffies b n =
      ⌊fl 24 (1 / 2 + fl 24 (fl 24 (fl 24 (n / 1000000) * fl 24 b.fCpu) / tcnt1Prescaler b))⌋₊ := rfl
  change Rounded _ _ (exactCounts b n) _ at hjiffies
  rw [hfloor]
  generalize fl 24 (fl 24 (fl 24 (n / 1000000) * fl 24 b.fCpu) / tcnt1Prescaler b) = r at hjiffies
  generalize exactCounts b n = x at *
  obtain ⟨hx, hlo, hhi⟩ := hjiffies
  have hr := hlo.trans' (mul_nonneg (by norm_num) hx)
  have herr := abs_fl_sub_le 24 (1 / 2 + r)
  rw [abs_of_nonneg (show 0 ≤ 1 / 2 + r by linarith)] at herr
  norm_num at hlo hhi
  generalize fl 24 (1 / 2 + r) = v at herr
  rw [abs_le] at herr
  -- the four errors of the counts and the one of the sum
  have hvlo : x + 1 / 2 - 1 / 1000 ≤ v := by linarith [herr.1]
  have hvhi : v ≤ x + 1 / 2 + 1 / 1000 := by linarith [herr.2]
  have hfloor_le := Nat.floor_le (a := v) (by linarith)
  have hlt_floor := Nat.lt_floor_add_one v
  rw [abs_le]
  constructor <;> linarith

-- 184.5 counts, of which 0.5 + 184.5 in single precision makes less than 185
example : usToCecJiffies { fCpu := 82000 } cecStartHigh = 184 := by decide +kernel

/-- A time of the specification in counts, to within half a count and what single precision adds. -/
theorem ticks_near (h : Clocked b) {n : ℕ} (hn : 600 ≤ n) (hle : n ≤ cecStartHigh) :
    |((ocr (usToCecJiffies b n) + 1 : ℕ) : ℝ) * tickUs b - n| ≤ 18 := by
  obtain ⟨hfit, -⟩ := prescaler_bounds h
  have hf : 0 < b.fCpu := by
    unfold Clocked at h
    omega
  have htick := tickUs_lt h
  have hpos := tickUs_pos h
  have hexact : ((exactCounts b n : ℚ) : ℝ) * tickUs b = n := by
    have hfr : (b.fCpu : ℝ) ≠ 0 := by exact_mod_cast hf.ne'
    have hP : (tcnt1Prescaler b : ℝ) ≠ 0 := by exact_mod_cast (Nat.two_pow_pos _).ne'
    rw [exactCounts, tickUs]
    push_cast
    field_simp
  have hmost : exactCounts b n ≤ 256 := by
    have hP : (0 : ℚ) < tcnt1Prescaler b := by exact_mod_cast Nat.two_pow_pos _
    have hmul : n * b.fCpu ≤ cecStartHigh * b.fCpu := Nat.mul_le_mul_right _ hle
    have hcast : (n * b.fCpu : ℚ) ≤ 256 * (tcnt1Prescaler b * 1000000) := by exact_mod_cast hmul.trans hfit
    rw [exactCounts, div_le_iff₀ hP]
    linarith
  have hnear := usToCecJiffies_near hmost
  have hnearR : |((usToCecJiffies b n : ℕ) : ℝ) - (exactCounts b n : ℚ)| ≤ 501 / 1000 := by
    have hcast := (Rat.cast_le (K := ℝ)).mpr hnear
    push_cast at hcast
    exact hcast
  rw [abs_le] at hnearR
  -- the count fits in its register
  have hleast : (17 : ℝ) ≤ (exactCounts b n : ℚ) := by
    have hnr : (600 : ℝ) ≤ n := by exact_mod_cast hn
    by_contra hlt
    have := mul_lt_mul_of_pos_right (not_le.mp hlt) hpos
    linarith
  have hmostR : ((exactCounts b n : ℚ) : ℝ) ≤ 256 := by exact_mod_cast hmost
  have hocr : ocr (usToCecJiffies b n) + 1 = usToCecJiffies b n := by
    have hlo : 1 ≤ usToCecJiffies b n := by
      have : (0 : ℝ) < (usToCecJiffies b n : ℕ) := by linarith [hnearR.1]
      exact_mod_cast this
    have hhi : usToCecJiffies b n < 257 := by
      have : ((usToCecJiffies b n : ℕ) : ℝ) < 257 := by linarith [hnearR.2]
      exact_mod_cast this
    rw [ocr]
    omega
  rw [hocr, ← hexact, ← sub_mul, abs_mul, abs_of_pos hpos]
  calc |((usToCecJiffies b n : ℕ) : ℝ) - (exactCounts b n : ℚ)| * tickUs b
    _ ≤ 501 / 1000 * tickUs b := by
      rw [← abs_le] at hnearR
      gcongr
    _ ≤ 18 := by linarith

end

/-! ### The pulses of a schedule -/

/-- A pulse whose times are within 18 us of those of `q`. -/
structure Near (p q : Pulse ℝ) : Prop where
  low : |p.low - q.low| ≤ 18
  total : |p.total - q.total| ≤ 18

/-- The pulse of a start bit. -/
noncomputable def startPulse (b : Build) : Pulse ℝ :=
  ⟨(ocr (usToCecJiffies b cecStartLow) + 1) * tickUs b, (ocr (usToCecJiffies b cecStartHigh) + 1) * tickUs b⟩

/-- The pulse of a bit. -/
noncomputable def bitPulse (b : Build) (bit : Bool) : Pulse ℝ :=
  ⟨(bitTicks b bit + 1) * tickUs b, (ocr (usToCecJiffies b cecPeriod) + 1) * tickUs b⟩

/-- The low time of one cycle goes with the period found at the next overflow. -/
theorem pulses_zip (b : Build) {ls ts : List Nat} (h : ls.length = ts.length) : pulses b (ls.zip ts)
    = List.zipWith (fun (l t : Nat) => ⟨((l : ℝ) + 1) * tickUs b, ((t : ℝ) + 1) * tickUs b⟩) ls ts.tail := by
  induction ls generalizing ts with
  | nil => rfl
  | cons l ls ih =>
    obtain ⟨t, ts, rfl⟩ := List.exists_cons_of_length_eq_add_one h.symm
    have h' : ls.length = ts.length := by simpa using h
    cases ls with
    | nil =>
      obtain rfl := List.length_eq_zero_iff.mp h'.symm
      rfl
    | cons l' ls =>
      obtain ⟨t', ts, rfl⟩ := List.exists_cons_of_length_eq_add_one h'.symm
      have hrest := ih h'
      rw [List.tail_cons, pulses] at hrest
      rw [List.tail_cons, List.zipWith_cons_cons, pulses, List.zip_cons_cons, List.tail_cons, ← hrest]
      rfl

theorem zipWith_last {α β γ : Type*} (f : α → β → γ) (l : List α) (a : α) (b : β) :
    List.zipWith f (l ++ [a]) (List.replicate l.length b) = l.map fun x => f x b := by
  induction l with
  | nil => rfl
  | cons x l ih => rw [List.cons_append, List.length_cons, List.replicate_succ, List.zipWith_cons_cons, ih, List.map_cons]

/-- The last cycle begins no pulse: it leaves the line high. -/
theorem pulses_schedule (b : Build) (message : List Nat) :
    pulses b (schedule b message) = startPulse b :: (framing message).map (bitPulse b) := by
  have hlen : ((framing message).map (bitTicks b)).length = 10 * message.length := by simp
  rw [schedule, pulses_zip b (by rw [length_lows, length_tops]), lows, tops]
  rw [List.tail_cons, List.zipWith_cons_cons, ← hlen, zipWith_last, List.map_map]
  rfl

theorem startPulse_near {b : Build} (h : Clocked b) : Near (startPulse b) ⟨cecStartLow, cecStartHigh⟩ := by
  have hlow := ticks_near h (n := cecStartLow) (by decide) (by decide)
  have htotal := ticks_near h (n := cecStartHigh) (by decide) (by decide)
  push_cast at hlow htotal
  exact ⟨hlow, htotal⟩

theorem bitPulse_near {b : Build} (h : Clocked b) (bit : Bool) : Near (bitPulse b bit) (nominal bit) := by
  have htotal := ticks_near h (n := cecPeriod) (by decide) (by decide)
  have hlow : |((bitTicks b bit + 1 : ℕ) : ℝ) * tickUs b - ((if bit then cec1 else cec0 : ℕ) : ℝ)| ≤ 18 := by
    cases bit with
    | true => exact ticks_near h (n := cec1) (by decide) (by decide)
    | false => exact ticks_near h (n := cec0) (by decide) (by decide)
  push_cast at hlow htotal
  refine ⟨?_, htotal⟩
  cases bit <;> simpa [bitPulse, nominal] using hlow

theorem bitPulses_near {b : Build} (h : Clocked b) (bits : List Bool) :
    List.Forall₂ (fun bit p => Near p (nominal bit)) bits (bits.map (bitPulse b)) := by
  induction bits with
  | nil => exact .nil
  | cons bit bits ih => exact .cons (bitPulse_near h bit) ih

/-! ### Near is good enough -/

theorem Near.bounds {p q : Pulse ℝ} (h : Near p q) :
    (q.low - 18 ≤ p.low ∧ p.low ≤ q.low + 18) ∧ q.total - 18 ≤ p.total ∧ p.total ≤ q.total + 18 := by
  obtain ⟨hlow, htotal⟩ := h
  rw [abs_le] at hlow htotal
  exact ⟨⟨by linarith, by linarith⟩, by linarith, by linarith⟩

theorem Near.start {p : Pulse ℝ} (h : Near p ⟨cecStartLow, cecStartHigh⟩) : StartPulse p := by
  obtain ⟨⟨hlo, hhi⟩, hlo', hhi'⟩ := h.bounds
  norm_num [cecStartLow, cecStartHigh] at hlo hhi hlo' hhi'
  constructor
  · norm_num [cecStartLowEarly, cecStartLowLate]
    constructor <;> linarith
  · norm_num [cecStartHighEarly, cecStartHighLate]
    constructor <;> linarith

theorem Near.bit {p : Pulse ℝ} {bit : Bool} (h : Near p (nominal bit)) : BitPulse bit p := by
  obtain ⟨⟨hlo, hhi⟩, hlo', hhi'⟩ := h.bounds
  norm_num [nominal, cecPeriod] at hlo hhi hlo' hhi'
  constructor
  · cases bit with
    | true =>
      norm_num [cec1, cecT1Early1, cecT2Late1] at *
      constructor <;> linarith
    | false =>
      norm_num [cec0, cecT5Early0, cecT6Late0] at *
      constructor <;> linarith
  · norm_num [cecT7EarlyEnd, cecT8LateEnd]
    constructor <;> linarith

/-- Polled every 180 us, such a start bit is in its windows. -/
theorem Near.startFrame {b : Build} (hm : Micro b) {p : Pulse ℝ} (h : Near p ⟨cecStartLow, cecStartHigh⟩) :
    StartFrame b 180 p := by
  obtain ⟨hstart, -, hhold, -⟩ := hm.thresholds
  obtain ⟨⟨hlo, hhi⟩, hlo', hhi'⟩ := h.bounds
  have h35 : usToJiffies b cecStartLowEarly = 3500 := hm.jiffies _
  have h39 : usToJiffiesUp b cecStartLowLate = 3900 := hm.up (by decide)
  have h49 : holdTime b 4100 = 4900 := hhold 4100 (by decide)
  norm_num [cecStartLow, cecStartHigh] at hlo hhi hlo' hhi'
  constructor
  · rw [h35]
    norm_num
    linarith
  · rw [h39]
    norm_num
    linarith
  · norm_num
    linarith
  · rw [hstart]
    norm_num
    linarith
  · rw [hstart, h49]
    norm_num
    linarith

theorem Near.bitFrame {b : Build} (hm : Micro b) {p : Pulse ℝ} {bit : Bool} (h : Near p (nominal bit)) :
    BitFrame b 180 bit p := by
  obtain ⟨-, hbit, hhold, hack⟩ := hm.thresholds
  obtain ⟨⟨hlo, hhi⟩, hlo', hhi'⟩ := h.bounds
  have h3 : usToJiffies b cecT3 = 850 := hm.jiffies _
  have h28 : holdTime b 2000 = 2800 := hhold 2000 (by decide)
  have hlow : 582 ≤ p.low ∧ p.low ≤ 1518 := by
    cases bit <;> norm_num [nominal, cec1, cec0] at hlo hhi <;> constructor <;> linarith
  norm_num [nominal, cecPeriod] at hlo' hhi'
  constructor
  · norm_num
    linarith
  · rw [h3]
    cases bit with
    | true =>
      norm_num [nominal, cec1] at hhi ⊢
      linarith
    | false =>
      norm_num [nominal, cec0] at hlo ⊢
      linarith
  · norm_num
    linarith
  · rw [hack]
    norm_num
    linarith
  · rw [hbit]
    norm_num
    linarith
  · rw [hbit, h28]
    norm_num
    linarith

/-! ### The waveform of an attempt -/

/-- The pulses of an attempt that has run to its end. -/
structure Sends (message : List Nat) (wave : List (Pulse ℝ)) : Prop where
  near : ∃ start ps, wave = start :: ps ∧ Near start ⟨cecStartLow, cecStartHigh⟩ ∧
    List.Forall₂ (fun bit p => Near p (nominal bit)) (framing message) ps

theorem sends_schedule {b : Build} (h : Clocked b) (message : List Nat) :
    Sends message (pulses b (schedule b message)) :=
  ⟨_, _, pulses_schedule b message, startPulse_near h, bitPulses_near h _⟩

/-- A tick decoder that has been idle takes a waveform in tolerance in, up to the bit that ends it. -/
theorem ticks_take {start : Pulse ℝ} {bits : List Bool} {ps : List (Pulse ℝ)} {t₀ : ℝ} (build : Build) (addr : Addr)
    (is : List Usi.Step) (ticks : List Bool)
    (hidle : (ticks.foldl cecProcessTick (run Usi.step (Usi.initial build addr) is)).rx.flags = 0)
    (hstart : StartPulse start) (hbits : List.Forall₂ BitPulse bits ps) (hne : bits ≠ [])
    (hhigh : 17 ≤ tickAt samplePeriod t₀) :
    let s := ticks.foldl cecProcessTick (run Usi.step (Usi.initial build addr) is)
    let n := tickAt samplePeriod (t₀ + duration (start :: ps))
    ∃ d, (samples samplePeriod (line t₀ (start :: ps)) n).foldl cecProcessTick s
      = withDec (takeIn (cecReceiveStart s) bits) d := by
  intro s n
  have hvalid : s.hw.dec.Valid := valid_ticks (Usi.valid_run build addr is) ticks
  have hnot : s.hw.dec.recvState ≠ .bits := fun h => Usi.synced_ticks build addr is ticks h hidle
  have ht₀ : 0 ≤ t₀ := by
    have := (lt_tickAt samplePeriod_pos 0 t₀).mp (by omega)
    simpa using this.le
  have hfits : ∀ p ∈ start :: ps, p.Fits := List.forall_mem_cons.mpr ⟨hstart.fits, bitPulses_fit hbits⟩
  obtain ⟨d, hhead, hd⟩ := start_pulse (d := s.hw.dec) hidle hvalid hnot hhigh (startShape_of_times hstart ht₀)
  have hclosed : bits = [] → false = true := fun h => absurd h hne
  obtain ⟨d', htail⟩ := start_bits (s := s) hd
    (bitShapes_of_times hbits (by have := hstart.bounds; linarith : 0 ≤ t₀ + start.total)) hclosed
  refine ⟨d', ?_⟩
  rw [← htail, ← hhead, withDec_self, ← List.foldl_append, samples_line samplePeriod_pos hfits t₀]
  simp [shapes, train]

theorem Sends.decoded {message : List Nat} {wave : List (Pulse ℝ)} (h : Sends message wave) (hne : message ≠ [])
    (build : Build) (addr : Addr) (is : List Usi.Step) (ticks : List Bool) {t₀ : ℝ}
    (hidle : (ticks.foldl cecProcessTick (run Usi.step (Usi.initial build addr) is)).rx.flags = 0)
    (hhigh : 17 ≤ tickAt samplePeriod t₀) :
    let s := ticks.foldl cecProcessTick (run Usi.step (Usi.initial build addr) is)
    let n := tickAt samplePeriod (t₀ + duration wave)
    Accepted s ((samples samplePeriod (line t₀ wave) n).foldl cecProcessTick s) (framing message) := by
  intro s n
  have hbits : framing message ≠ [] := by
    rw [← List.length_pos_iff, length_framing]
    have := List.length_pos_iff.mpr hne
    omega
  obtain ⟨start, ps, rfl, hstart, hps⟩ := h.near
  obtain ⟨d, hend⟩ := ticks_take build addr is ticks hidle hstart.start (hps.imp fun _ _ h => h.bit) hbits hhigh
  obtain ⟨ended, htook⟩ := takeIn_calls (s := cecReceiveStart s) rfl (tracks_start s) (framing message)
  have hlist : (cecReceiveStart s).calls = .start :: s.calls := rfl
  refine ⟨taken (cecReceiveStart s) (framing message), taken_le _ _, ended, ?_, fun he => ?_, fun he => ?_⟩
  · rw [hend, ← hlist]
    exact htook.calls
  · rw [hend]
    exact htook.going he
  · rw [hend]
    obtain ⟨hpos, hmod, h0⟩ := htook.ended he
    exact ⟨hpos, by rwa [List.length_nil, Nat.zero_add] at hmod, h0⟩

/-- A soft driver at rest takes it in too, polled every 180 us, up to the acks that it fills in. -/
theorem Sends.polled {message : List Nat} {wave : List (Pulse ℝ)} (h : Sends message wave) {s : Cec Soft}
    (hrest : AtRest s) (hmicro : Micro s.build) {ds : List ℕ} (hds : ∀ d ∈ ds, d < 180) {t₀ : ℝ} (ht₀ : 0 < t₀)
    (hbefore : (ds.sum : ℕ) < t₀ + duration wave) (hreach : t₀ + duration wave ≤ (ds.sum : ℕ) + 180) :
    Received s (polled (fun n => line t₀ wave n) 0 s ds) (heardBits (cecReceiveStart s) (framing message)) := by
  obtain ⟨start, ps, rfl, hstart, hps⟩ := h.near
  have hp : Prompt s.build 180 := prompt_micro hmicro (by decide) (by decide)
  have hframe : StartFrame s.build 180 start := hstart.startFrame hmicro
  have hframes : List.Forall₂ (BitFrame s.build 180) (framing message) ps := hps.imp fun _ _ h => h.bitFrame hmicro
  exact (polled_place hrest hp hframe hframes hds ht₀ hbefore).received hp hframe hframes
    (by rw [Nat.cast_ofNat]; linarith)

/-- In every run an attempt that ends with its clock stopped has put a start bit and the framing of its
    message on the line, each pulse within 18 us of its nominal times, whatever the clock and the polls. -/
theorem attempt_wave (build : Build) (addr : Addr) (is : List Step) (i : Step) (js : List Step)
    (hclock : Clocked build) :
    let s := run step (initial build addr) is
    let u := step i s
    let v := run step u js
    attempts u.told ≠ attempts s.told → u.hw.pwm.tov1 = false → Along Handled step u js →
      episodes v.told = episodes u.told → v.hw.pwm.tccr1 = 0 →
      Sends u.tx.message (pulses build (cycles u js)) := by
  intro s u v hbegin htov hjs hgo hstop
  have hcycles : cycles u js = (schedule build u.tx.message).drop u.hw.pwm.tov1.toNat :=
    (begun_cycles (run_build build addr is) (framed_run build addr is) hbegin hjs hgo).2 hstop
  rw [hcycles, htov, Bool.toNat_false, List.drop_zero]
  exact sends_schedule hclock _

/-- So it is received, by every tick decoder that has been idle and by every soft driver at rest. -/
theorem attempt_received (build : Build) (addr : Addr) (is : List Step) (i : Step) (js : List Step)
    (hclock : Clocked build) :
    let s := run step (initial build addr) is
    let u := step i s
    let v := run step u js
    let wave := pulses build (cycles u js)
    attempts u.told ≠ attempts s.told → u.hw.pwm.tov1 = false → Along Handled step u js →
      episodes v.told = episodes u.told → v.hw.pwm.tccr1 = 0 →
      Sends u.tx.message wave ∧
      (∀ build' addr' is' (ticks : List Bool) t₀,
        let w := ticks.foldl cecProcessTick (run Usi.step (Usi.initial build' addr') is')
        w.rx.flags = 0 → 17 ≤ tickAt samplePeriod t₀ →
          Accepted w ((samples samplePeriod (line t₀ wave) (tickAt samplePeriod (t₀ + duration wave))).foldl
            cecProcessTick w) (framing u.tx.message)) ∧
      ∀ (w : Cec Soft) (ds : List ℕ) (t₀ : ℝ), AtRest w → Micro w.build → (∀ d ∈ ds, d < 180) → 0 < t₀ →
        (ds.sum : ℕ) < t₀ + duration wave → t₀ + duration wave ≤ (ds.sum : ℕ) + 180 →
          Received w (polled (fun n => line t₀ wave n) 0 w ds)
            (heardBits (cecReceiveStart w) (framing u.tx.message)) := by
  intro s u v wave hbegin htov hjs hgo hstop
  have hsends : Sends u.tx.message wave := attempt_wave build addr is i js hclock hbegin htov hjs hgo hstop
  have hne : u.tx.message ≠ [] := by
    rw [← List.length_pos_iff, length_message]
    exact Nat.succ_pos _
  exact ⟨hsends, fun build' addr' is' ticks t₀ hidle hhigh => hsends.decoded hne build' addr' is' ticks hidle hhigh,
    fun w ds t₀ hrest hmicro hds ht₀ hbefore hreach => hsends.polled hrest hmicro hds ht₀ hbefore hreach⟩

theorem duration_schedule (b : Build) (message : List Nat) :
    duration (pulses b (schedule b message)) = (ocr (usToCecJiffies b cecStartHigh) + 1) * tickUs b +
      10 * message.length * ((ocr (usToCecJiffies b cecPeriod) + 1) * tickUs b) := by
  rw [pulses_schedule, duration, List.map_cons, List.sum_cons, List.map_map,
    show Pulse.total ∘ bitPulse b = fun _ => (ocr (usToCecJiffies b cecPeriod) + 1) * tickUs b from rfl,
    List.map_const', List.sum_replicate, length_framing, nsmul_eq_mul]
  push_cast
  rfl

/-- The ping of address 5, at 1 MHz, and what two devices at that address make of it. -/
theorem attempt_received_ping :
    let u := run step (initial {} (.fixed 4)) [.app (.send [0x45]), .recv 6000 true, .xmit 6000 true, .xmit 7000 true]
    let js := startPolls ++ [false, true, false, false, false, true, false, true, false, false].flatMap bitPolls ++
      [.overflow, .xmit 200 true]
    let wave := pulses {} (cycles u js)
    let usi := Usi.initial {} (.fixed 5)
    let soft : Cec Soft := step (.recv 1 true) (initial {} (.fixed 5))
    u.tx.message = [0x45] ∧ Sends [0x45] wave ∧
      Accepted usi ((samples samplePeriod (line 6000 wave) (tickAt samplePeriod (6000 + duration wave))).foldl
        cecProcessTick usi) (framing [0x45]) ∧
      Received soft (polled (fun n => line 100 wave n) 0 soft (List.replicate 200 143))
        (heardBits (cecReceiveStart soft) (framing [0x45])) := by
  intro u js wave usi soft
  have hmessage : u.tx.message = [0x45] := by decide +kernel
  obtain ⟨hsends, husi, hsoft⟩ := attempt_received {} (.fixed 4) [.app (.send [0x45]), .recv 6000 true, .xmit 6000 true]
    (.xmit 7000 true) js (by decide +kernel) (by decide +kernel) (by decide +kernel) (by decide +kernel)
    (by decide +kernel) (by decide +kernel)
  have hrest : AtRest soft := ⟨by decide +kernel, by decide +kernel, by decide +kernel, by decide +kernel⟩
  have hduration : duration wave = 28512 := by
    have hcycles : cycles u js = schedule {} [0x45] := by decide +kernel
    have hstart : ocr (usToCecJiffies {} cecStartHigh) = 140 := by decide +kernel
    have hbit : ocr (usToCecJiffies {} cecPeriod) = 74 := by decide +kernel
    have htick : tcnt1Prescaler {} = 32 := by decide +kernel
    change duration (pulses {} (cycles u js)) = _
    rw [hcycles, duration_schedule, hstart, hbit, tickUs, htick]
    norm_num
  have hsum : (List.replicate 200 143).sum = 28600 := by rw [List.sum_replicate, smul_eq_mul]
  refine ⟨hmessage, hmessage ▸ hsends, hmessage ▸ husi {} (.fixed 5) [] [] 6000 rfl ?_,
    hmessage ▸ hsoft soft (List.replicate 200 143) 100 hrest ⟨by decide, by decide⟩ (fun d hd => ?_) (by norm_num) ?_ ?_⟩
  · refine (lt_tickAt samplePeriod_pos 16 6000).mpr ?_
    norm_num [samplePeriod_eq]
  · rw [List.eq_of_mem_replicate hd]
    decide
  · change _ < 100 + duration wave
    rw [hsum, hduration]
    norm_num
  · change 100 + duration wave ≤ _
    rw [hsum, hduration]
    norm_num

end Soft
end AvrCec
