import AvrCec.Overheard
import AvrCec.PwmTiming

/-! A sender on its own line.

    `Bench` closes the loop: Timer1 overflows when its count is up, its pin and the other devices make the
    level of the line, and `cec_periodic` reads that level. The polls are closer together than 180 us, and
    the others do no more than stretch the low phases of ack slots. Then the sender hears the echo of its
    message and nothing else (`loop_poll`), so that no attempt is aborted, the last ack reports success,
    the clock stops, and the receive buffer holds the message (`loopback`). -/

namespace AvrCec
open Lib

namespace Soft

/-! ### The bench -/

/-- A device at its last poll, how often Timer1 has overflowed since its attempt began, the time of the
    last overflow, and the OCR1B that was latched then. -/
structure Bench where
  dev : Cec Soft
  now : ℕ
  slot : ℕ
  edge : ℝ
  latch : ℕ

/-- How long the pin is low in a cycle. With OCR1B zero it stays high. -/
noncomputable def lowUs (b : Build) (ocr1b : ℕ) : ℝ := if ocr1b = 0 then 0 else (ocr1b + 1) * tickUs b

namespace Bench

/-- The time at which the count passes OCR1C. -/
noncomputable def due (w : Bench) : ℝ := w.edge + (w.dev.hw.pwm.ocr1c + 1) * tickUs w.dev.build

/-- Timer1 runs on to the time `now`, less than a cycle away. -/
noncomputable def timer (w : Bench) (now : ℕ) : Bench :=
  if w.dev.hw.pwm.tccr1 ≠ 0 ∧ w.due ≤ now then
    { w with dev := timerOverflow w.dev, slot := w.slot + 1, edge := w.due, latch := w.dev.hw.pwm.ocr1b }
  else w

/-- The level of Timer1's pin. -/
noncomputable def pin (w : Bench) (now : ℕ) : Bool := decide (w.edge + lowUs w.dev.build w.latch ≤ now)

/-- `cec_periodic`, `d` after the last poll. Both drivers read the line. -/
noncomputable def poll (others : ℕ → Bool) (w : Bench) (d : ℕ) : Bench :=
  let now := w.now + d
  let w := w.timer now
  let high := w.pin now && others now
  let level₁ := high && !w.dev.hw.driven
  let level₂ := high && !(cecReceivePeriodic w.dev d level₁).hw.driven
  { w with dev := cecPeriodic w.dev d level₁ level₂, now := now }

/-- The poll `now` that begins an attempt: the first overflow is at `t₀`. -/
noncomputable def start (u : Cec Soft) (now : ℕ) (t₀ : ℝ) : Bench :=
  { dev := u, now := now, slot := 0, edge := t₀ - (u.hw.pwm.ocr1c + 1) * tickUs u.build, latch := 0 }

end Bench

/-! ### The edges of a waveform -/

section
variable {b : Build} {m : List ℕ}

/-- The time of a bit. -/
noncomputable def periodUs (b : Build) : ℝ := (ocr (usToCecJiffies b cecPeriod) + 1) * tickUs b

/-- The times of the overflows. -/
noncomputable def edgeAt (b : Build) : ℕ → ℝ
  | 0 => 0
  | c + 1 => (startPulse b).total + c * periodUs b

/-- The time of the overflow before. -/
noncomputable def edgeBefore (b : Build) : ℕ → ℝ
  | 0 => -(startPulse b).total
  | j + 1 => edgeAt b j

/-- The waveform of a message. -/
noncomputable def wave (b : Build) (m : List ℕ) : List (Pulse ℝ) := startPulse b :: (framing m).map (bitPulse b)

theorem edge_next {n top : ℕ} (h : (tops b m)[n]? = some top) :
    edgeBefore b n + (top + 1) * tickUs b = edgeAt b n := by
  have hstart : (startPulse b).total = (ocr (usToCecJiffies b cecStartHigh) + 1) * tickUs b := rfl
  have hlt := (List.getElem?_eq_some_iff.mp h).1
  rw [length_tops] at hlt
  rcases n with _ | _ | c
  · rw [tops_start b m (by decide)] at h
    obtain rfl := Option.some.inj h
    rw [edgeBefore, edgeAt, hstart]
    ring
  · rw [tops_start b m (by decide)] at h
    obtain rfl := Option.some.inj h
    rw [edgeBefore, edgeAt, edgeAt, hstart]
    push_cast
    ring
  · rw [tops_data b m (by omega) hlt] at h
    obtain rfl := Option.some.inj h
    rw [edgeBefore, edgeAt, edgeAt, periodUs]
    push_cast
    ring

theorem startPulse_bounds (h : Clocked b) : (3682 ≤ (startPulse b).low ∧ (startPulse b).low ≤ 3718) ∧
    4482 ≤ (startPulse b).total ∧ (startPulse b).total ≤ 4518 := by
  obtain ⟨⟨h₁, h₂⟩, h₃, h₄⟩ := (startPulse_near h).bounds
  norm_num [cecStartLow, cecStartHigh] at h₁ h₂ h₃ h₄
  exact ⟨⟨by linarith, by linarith⟩, by linarith, by linarith⟩

theorem period_bounds (h : Clocked b) : 2382 ≤ periodUs b ∧ periodUs b ≤ 2418 := by
  obtain ⟨-, h₁, h₂⟩ := (bitPulse_near h true).bounds
  norm_num [nominal, cecPeriod] at h₁ h₂
  exact ⟨h₁.trans_eq rfl, (Eq.refl (periodUs b)).trans_le h₂⟩

theorem edgeAt_succ (h : Clocked b) (n : ℕ) : edgeAt b n + 2382 ≤ edgeAt b (n + 1) := by
  have hs := startPulse_bounds h
  have hp := period_bounds h
  rcases n with _ | c
  · rw [edgeAt, edgeAt]
    push_cast
    linarith
  · rw [edgeAt, edgeAt]
    push_cast
    linarith

theorem edgeAt_mono (h : Clocked b) : Monotone (edgeAt b) :=
  monotone_nat_of_le_succ fun n => by linarith [edgeAt_succ h n]

theorem lt_of_edges (h : Clocked b) {i j : ℕ} {x : ℝ} (hi : edgeAt b i ≤ x) (hj : x < edgeAt b j) : i < j := by
  by_contra hc
  have hle := edgeAt_mono h (not_lt.mp hc)
  linarith

/-! ### The level of the pin -/

/-- The level of a train of equal periods. -/
theorem level_slot {start p : Pulse ℝ} {ps : List (Pulse ℝ)} {period x : ℝ} {c : ℕ} (hstart : start.Fits)
    (hfits : ∀ p ∈ ps, p.Fits) (hps : ∀ p ∈ ps, p.total = period) (hp : ps[c]? = some p)
    (hx : start.total + c * period ≤ x) (hx' : x < start.total + (c + 1) * period) :
    level (start :: ps) x = decide (p.low ≤ x - start.total - c * period) := by
  obtain ⟨hlt, hval⟩ := List.getElem?_eq_some_iff.mp hp
  have hsplit : ps = ps.take c ++ p :: ps.drop (c + 1) := by
    rw [← hval, ← List.drop_eq_getElem_cons hlt, List.take_append_drop]
  have htake : ∀ q ∈ ps.take c, q ∈ ps := fun q hq => List.mem_of_mem_take hq
  have hdur : duration (ps.take c) = c * period := by
    rw [duration_const fun q hq => hps q (htake q hq), List.length_take, Nat.min_eq_left hlt.le]
  have hfits' : ∀ q ∈ ps.take c, q.Fits := fun q hq => hfits q (htake q hq)
  have hnonneg := duration_nonneg hfits'
  have hperiod := hps p (hval ▸ List.getElem_mem hlt)
  have hlow := hstart.2
  rw [hdur] at hnonneg
  rw [level_beyond (by linarith) (by linarith), hsplit, level_append hfits' (by rw [hdur]; linarith), hdur,
    level_inside (by rw [hperiod]; linarith)]

theorem bitPulses_fit_period (h : Clocked b) (m : List ℕ) :
    (∀ p ∈ (framing m).map (bitPulse b), p.Fits) ∧ ∀ p ∈ (framing m).map (bitPulse b), p.total = periodUs b := by
  constructor
  · intro p hp
    obtain ⟨bit, -, rfl⟩ := List.mem_map.mp hp
    exact (bitPulse_near h bit).bit.fits
  · intro p hp
    obtain ⟨bit, -, rfl⟩ := List.mem_map.mp hp
    rfl

/-- A pulse of Timer1 is longer than one count. -/
theorem lowUs_bit (h : Clocked b) (bit : Bool) : lowUs b (bitTicks b bit) = (bitPulse b bit).low := by
  have htick := tickUs_lt h
  obtain ⟨⟨hlow, -⟩, -⟩ := (bitPulse_near h bit).bounds
  have hmin : (582 : ℝ) ≤ (bitPulse b bit).low := by
    cases bit <;> norm_num [nominal, cec1, cec0] at hlow <;> linarith
  rw [lowUs, if_neg]
  · rfl
  · intro h0
    rw [bitPulse, h0] at hmin
    norm_num at hmin
    linarith

theorem lowUs_start (h : Clocked b) : lowUs b (ocr (usToCecJiffies b cecStartLow)) = (startPulse b).low := by
  have htick := tickUs_lt h
  have hmin := (startPulse_bounds h).1.1
  rw [lowUs, if_neg]
  · rfl
  · intro h0
    rw [startPulse, h0] at hmin
    norm_num at hmin
    linarith

/-- The pin in each cycle is the waveform of the message, and high after it. -/
theorem pin_level (h : Clocked b) {w : Bench} {t₀ : ℝ} {now : ℕ} (hb : w.dev.build = b)
    (hedge : w.edge = t₀ + edgeBefore b w.slot) (hlatch : (0 :: lows b m)[w.slot]? = some w.latch)
    (hreached : w.edge ≤ now) :
    (w.slot < 10 * m.length + 2 → now < t₀ + edgeAt b w.slot → w.pin now = line t₀ (wave b m) now) ∧
      (w.slot = 10 * m.length + 2 → w.pin now = true) := by
  have hs := startPulse_bounds h
  rcases hslot : w.slot with _ | _ | c
  · rw [hslot] at hedge hlatch
    have h0 : w.latch = 0 := (Option.some.inj hlatch).symm
    refine ⟨fun _ hlt => ?_, fun hc => by omega⟩
    rw [edgeAt, add_zero] at hlt
    rw [Bench.pin, hb, h0, lowUs, if_pos rfl, add_zero, decide_eq_true hreached, line, if_pos hlt]
  · rw [hslot] at hedge hlatch
    have h0 : w.latch = ocr (usToCecJiffies b cecStartLow) := (Option.some.inj hlatch).symm
    rw [Nat.zero_add, edgeBefore, edgeAt, add_zero] at hedge
    refine ⟨fun _ hlt => ?_, fun hc => by omega⟩
    rw [Nat.zero_add, edgeAt, Nat.cast_zero, zero_mul, add_zero] at hlt
    rw [hedge] at hreached
    rw [Bench.pin, hb, h0, lowUs_start h, hedge, line, if_neg (not_lt.mpr hreached), wave, level_inside (by linarith),
      decide_eq_decide]
    constructor <;> intro hle <;> linarith
  · rw [hslot] at hedge hlatch
    rw [List.getElem?_cons_succ] at hlatch
    rw [edgeBefore, edgeAt] at hedge
    have hp := period_bounds h
    have hc0 : (0 : ℝ) ≤ c * periodUs b := mul_nonneg (Nat.cast_nonneg c) (by linarith)
    constructor
    · intro hc hlt
      have hlen : c < (framing m).length := by
        rw [length_framing]
        omega
      have hbit := List.getElem?_eq_getElem hlen
      have h0 : w.latch = bitTicks b (framing m)[c] := by
        rw [lows_bit b m hbit] at hlatch
        exact (Option.some.inj hlatch).symm
      have hpulse : ((framing m).map (bitPulse b))[c]? = some (bitPulse b (framing m)[c]) := by
        rw [List.getElem?_map, hbit]
        rfl
      obtain ⟨hfits, htotal⟩ := bitPulses_fit_period h m
      rw [edgeAt, Nat.cast_add, Nat.cast_one] at hlt
      rw [hedge] at hreached
      have hstart : (startPulse b).Fits := ⟨by linarith, by linarith⟩
      rw [Bench.pin, hb, h0, lowUs_bit h, hedge, line, if_neg (not_lt.mpr (by linarith)), wave,
        level_slot hstart hfits htotal hpulse (by linarith) (by linarith), decide_eq_decide]
      constructor <;> intro hle <;> linarith
    · intro hc
      have hlast : w.latch = 0 := by
        rw [show c + 1 = 10 * m.length + 1 by omega, lows_last] at hlatch
        exact (Option.some.inj hlatch).symm
      rw [Bench.pin, hlast, lowUs, if_pos rfl, add_zero, decide_eq_true hreached]

end
/-! ### What a poll does to the transmit side -/

section
variable {b : Build} {m : List ℕ} {u t z : Cec Soft} {j k k' : ℕ}

theorem At.moved (h : At b m j t) (hm : Moved t z) : At b m j z := h.congr hm.pwm fun _ => by rw [hm.tx]

/-- The echo, heard in step with the attempt, leaves the transmit driver alone. -/
theorem Tells.kept (h : Tells (echo m) t z k k') (ho : Overhears u m) (hat : At b m j t)
    (hsame : Same (engineAt u (echo m) k) t) (hr : Reports u t m k) (hj : ∀ c, k = c + 1 → k' = c + 2 → j = c + 2) :
    At b m j z ∧ z.hw.pwm = t.hw.pwm ∧ episodes z.told = episodes t.told ∧ Reports u z m k' := by
  cases h with
  | quiet same moved =>
    rw [same, moved.told]
    exact ⟨hat.moved moved, moved.pwm, rfl, hr.congr (by rw [moved.tx]) moved.told⟩
  | @start v first before after =>
    obtain ⟨rfl, rfl⟩ := first
    have htold : z.told = t.told := by
      rw [after.told, ← before.told]
      exact emit_told v rfl
    have hpwm : z.hw.pwm = t.hw.pwm := after.pwm.trans before.pwm
    have htx : z.tx = { t.tx with needed := z.tx.needed } := by
      rw [after.tx, ← before.tx]
      rfl
    have hseveral := ho.several
    refine ⟨hat.congr hpwm fun _ => htx, hpwm, by rw [htold], ?_⟩
    rw [Reports, if_neg (by omega)] at hr ⊢
    rw [htold, htx]
    exact hr
  | @bit v c bit next is before after =>
    obtain ⟨rfl, rfl⟩ := next
    obtain rfl := hj c rfl rfl
    have hc : c < 10 * m.length := by
      have := (List.getElem?_eq_some_iff.mp is).1
      rwa [length_echo] at this
    have hbusy : t.tx.state.busy := by
      rw [Reports, if_neg (by omega)] at hr
      exact hr.1
    have hfetched : v.tx.message = m ∧ v.tx.Fetched ((framing m).take (c + 2)) := by
      rw [before.tx]
      rcases Nat.lt_or_ge (c + 2) (10 * m.length) with hlt | hge
      · exact hat.bits hlt
      · rw [List.take_of_length_le (by rw [length_framing]; exact hge)]
        exact hat.wait hge hbusy
    obtain ⟨hhw, hcalm, -, htx, hreports⟩ := ho.heard is (before.rx.trans hsame.rx) hfetched.1 hfetched.2
      (hr.congr (by rw [before.tx]) before.told)
    have hpwm : z.hw.pwm = t.hw.pwm := after.pwm.trans ((congrArg Soft.pwm hhw).trans before.pwm)
    rw [before.told, ← after.told] at hcalm
    have hreports' : Reports u z m (c + 2) := hreports.congr (by rw [after.tx]) after.told
    refine ⟨hat.congr hpwm fun hor => ?_, hpwm, hcalm, hreports'⟩
    rcases Nat.lt_or_ge (c + 1) (10 * m.length) with hlt | hge
    · rw [after.tx, (htx hlt).1, before.tx]
    · rw [Reports, if_pos (by omega)] at hreports'
      rcases hor with hlt' | hb
      · omega
      · exact absurd hb (not_busy_idle hreports'.1)

/-- The transmit driver's own step leaves the receive side alone, and the attempt under way or over. -/
structure Carried (s t : Cec Soft) : Prop where
  same : Same s t
  frame : frame t = frame s
  told : episodes t.told = episodes s.told ∧ sentCount t.told = sentCount s.told
  busy : s.tx.state.busy → t.tx.state.busy
  idle : s.tx.state = .idle → t.tx.state = .idle

theorem Carried.refl (s : Cec Soft) : Carried s s := ⟨Same.refl s, rfl, ⟨rfl, rfl⟩, id, id⟩

theorem Carried.pwm {s t : Cec Soft} (h : Carried s t) (f : Pwm → Pwm) : Carried s (setPwm t f) :=
  ⟨h.same.trans ⟨rfl, rfl, rfl, rfl⟩, h.frame, h.told, h.busy, h.idle⟩

theorem Carried.reports {s t : Cec Soft} (h : Carried s t) (hr : Reports u s m k) : Reports u t m k := by
  rw [Reports] at hr ⊢
  rw [h.told.2]
  split
  · next hk =>
    rw [if_pos hk] at hr
    exact hr.imp h.idle id
  · next hk =>
    rw [if_neg hk] at hr
    exact hr.imp h.busy id

/-- A bit fetched. -/
theorem nextBit_carried {s : Cec Soft} (h : s.tx.state.busy) : Carried s (pwmNextBit s) := by
  have hbusy : (pwmNextBit s).tx.state.busy := getBit_busy h _
  obtain ⟨bit, read, htold⟩ : ∃ bit read, (pwmNextBit s).told = .getBit bit read :: s.told := ⟨_, _, rfl⟩
  refine ⟨⟨rfl, rfl, rfl, rfl⟩, rfl, ?_, fun _ => hbusy, fun hidle => absurd h (not_busy_idle hidle)⟩
  rw [htold]
  constructor
  · simp [episodes, attempts, failures]
  · simp [sentCount]

/-- An overflow handled while the receive engine hears the attempt. -/
theorem handled_carried {s : Cec Soft} (hat : At b m j s) (hlong : 0 < m.length)
    (hflags : s.hw.pwm.xmitState = .running → s.rx.flags ≠ 0) (htov : s.hw.pwm.tov1 = true) :
    Carried s (xmitPwmPeriodic s) := by
  have hcleared : Carried s (cleared s) := (Carried.refl s).pwm _
  have hasked : j < 10 * m.length → s.tx.state.busy := by
    intro hj
    rcases hat.asked hj with hs | hs <;> rw [hs] <;> decide
  have hnext : ∀ v : Cec Soft, Carried s v → v.tx = s.tx → s.tx.state.busy → Carried s (pwmNextBit v) := by
    intro v hv htx hb
    have hn := nextBit_carried (s := v) (by rw [htx]; exact hb)
    exact ⟨hv.same.trans hn.same, hn.frame.trans hv.frame, ⟨hn.told.1.trans hv.told.1, hn.told.2.trans hv.told.2⟩,
      fun h => hn.busy (hv.busy h), fun h => hn.idle (hv.idle h)⟩
  rw [pwmPeriodic_eq htov]
  cases hp : s.hw.pwm.xmitState with
  | idle => exact hcleared
  | done => exact hcleared
  | start =>
    obtain rfl := hat.start hp
    exact hnext _ hcleared rfl (hasked (by omega))
  | running =>
    dsimp only
    rw [if_neg (hflags hp)]
    have htopped : ∀ n, Carried s (pwmNextBit (topped (cleared s) n)) :=
      fun n => hnext (topped (cleared s) n) (hcleared.pwm _) rfl (hasked (hat.running hp).2)
    exact htopped _
  | end1 => exact hcleared.pwm _
  | end2 => exact hcleared.pwm _

/-- With no message waiting the transmit driver does no more than that. -/
theorem xmit_eq (s : Cec Soft) (d : ℕ) (level : Bool)
    (h : ¬ (if s.hw.pwm.xmitState ≠ .idle then xmitPwmPeriodic s else s).tx.state.pending) :
    ∃ f : Pwm → Pwm, (∀ p, (f p).tov1 = p.tov1) ∧
      step (.xmit d level) s = setPwm (if s.hw.pwm.xmitState ≠ .idle then xmitPwmPeriodic s else s) f := by
  rw [step, cecTransmitPeriodic]
  generalize (if s.hw.pwm.xmitState ≠ .idle then xmitPwmPeriodic s else s) = t at h ⊢
  dsimp only
  cases level with
  | false => exact ⟨fun p => { p with transmitHighTimer := 0 }, fun _ => rfl, rfl⟩
  | true =>
    refine ⟨fun p => { p with transmitHighTimer := cappedAdd p.transmitHighTimer d }, fun _ => rfl, ?_⟩
    rw [if_neg (by decide)]
    split
    · rfl
    · exact if_neg fun hc => h hc.2

/-- The transmit driver's poll, while the receive engine hears the attempt. -/
theorem xmit_carried {s : Cec Soft} (hat : At b m j s) (hlong : 0 < m.length) (hf : Framed Busy s) (hb : s.build = b)
    (hflags : s.hw.pwm.xmitState = .running → s.hw.pwm.tov1 = true → s.rx.flags ≠ 0)
    (hrun : s.hw.pwm.tov1 = true → j < 10 * m.length + 2) (hr : Reports u s m k) (d : ℕ) (level : Bool) :
    Carried s (step (.xmit d level) s) ∧ (step (.xmit d level) s).hw.pwm.tov1 = false ∧
      At b m (j + s.hw.pwm.tov1.toNat) (step (.xmit d level) s) := by
  have hne : m ≠ [] := List.ne_nil_of_length_pos hlong
  have hbusy : s.tx.state.busy ∨ s.tx.state = .idle := by
    rw [Reports] at hr
    split at hr
    · exact .inr hr.1
    · exact .inl hr.1
  have hfirst : ∃ t, (if s.hw.pwm.xmitState ≠ .idle then xmitPwmPeriodic s else s) = t ∧ Carried s t ∧
      t.hw.pwm.tov1 = false := by
    refine ⟨_, rfl, ?_⟩
    cases htov : s.hw.pwm.tov1 with
    | false =>
      have hsame : xmitPwmPeriodic s = s := by
        rw [xmitPwmPeriodic, htov]
        rfl
      rw [hsame, ite_self]
      exact ⟨Carried.refl s, htov⟩
    | true =>
      have hx : s.hw.pwm.xmitState ≠ .idle := fun hx => by
        have := hat.idle hx
        have := hrun htov
        omega
      have hc := handled_carried hat hlong (fun hx => hflags hx htov) htov
      rw [if_pos hx]
      exact ⟨hc, (at_handled hat hne hf.size hb hx htov hc.told.1).2⟩
  obtain ⟨t, ht, hc, hoff⟩ := hfirst
  have hnot : ¬ (if s.hw.pwm.xmitState ≠ .idle then xmitPwmPeriodic s else s).tx.state.pending := by
    rw [ht]
    exact not_pending_of (hbusy.imp hc.busy hc.idle)
  obtain ⟨f, hf1, hstep⟩ := xmit_eq s d level hnot
  rw [ht] at hstep
  have hcarried : Carried s (step (.xmit d level) s) := by
    rw [hstep]
    exact hc.pwm f
  have htov : (step (.xmit d level) s).hw.pwm.tov1 = false := by
    rw [hstep]
    exact (hf1 _).trans hoff
  obtain ⟨n, hn, hsum⟩ := at_xmit hat hne hf hb d level hcarried.told.1
  change n + (step (.xmit d level) s).hw.pwm.tov1.toNat = _ at hsum
  rw [htov, Bool.toNat_false, Nat.add_zero] at hsum
  exact ⟨hcarried, htov, hsum ▸ hn⟩

end

/-! ### The loop closed -/

/-- What the other devices do to the waveform of a message: they stretch the low phases that make it the
    echo. -/
structure Answered (b : Build) (m : List ℕ) (t₀ : ℝ) (others : ℕ → Bool) (ps : List (Pulse ℝ)) : Prop where
  frames : List.Forall₂ (BitFrame b 180) (echo m) ps
  periods : ∀ p ∈ ps, p.total = periodUs b
  line : ∀ n : ℕ, n < t₀ + edgeAt b (10 * m.length + 1) →
    (line t₀ (wave b m) n && others n) = Lib.line t₀ (startPulse b :: ps) n
  after : ∀ n : ℕ, t₀ + edgeAt b (10 * m.length + 1) ≤ n → others n = true

/-- The bench after a poll, in or after the attempt of `u`. -/
structure Loop (u : Cec Soft) (t₀ : ℝ) (ps : List (Pulse ℝ)) (w : Bench) : Prop where
  framed : Framed Busy w.dev
  attempt : At u.build u.tx.message w.slot w.dev
  handled : w.dev.hw.pwm.tov1 = false
  edge : w.edge = t₀ + edgeBefore u.build w.slot
  latch : (0 :: lows u.build u.tx.message)[w.slot]? = some w.latch
  reached : w.edge ≤ w.now
  ahead : w.slot < 10 * u.tx.message.length + 2 → w.now < t₀ + edgeAt u.build w.slot
  calm : episodes w.dev.told = episodes u.told
  hears : ∃ k ≤ 10 * u.tx.message.length + 1, Same (engineAt u (echo u.tx.message) k) w.dev ∧
    Reports u w.dev u.tx.message k
  place : w.slot < 10 * u.tx.message.length + 2 →
    Place 180 u w.dev (startPulse u.build) (echo u.tx.message) ps (w.now - t₀)
  rest : w.slot = 10 * u.tx.message.length + 2 → AtRest w.dev ∧
    Same (engineAt u (echo u.tx.message) (10 * u.tx.message.length + 1)) w.dev

/-- The overflow flag. -/
def flagged (s : Cec Soft) (tov1 : Bool) : Cec Soft := setPwm s fun p => { p with tov1 := tov1 }

section
variable {u : Cec Soft} {t₀ : ℝ} {ps : List (Pulse ℝ)} {w : Bench} {d : ℕ}

theorem Loop.build (h : Loop u t₀ ps w) : w.dev.build = u.build := by
  obtain ⟨k, -, hsame, -⟩ := h.hears
  exact hsame.build.trans (engineAt_build ..)

theorem latch_le {b : Build} {m : List ℕ} {n latch : ℕ} (h : (0 :: lows b m)[n]? = some latch) :
    n ≤ 10 * m.length + 2 := by
  have hlt := (List.getElem?_eq_some_iff.mp h).1
  rw [List.length_cons, length_lows] at hlt
  omega

/-- Timer1 has run on from `w` to `x`, with an overflow on the way or without. -/
structure TimerAt (u : Cec Soft) (t₀ : ℝ) (w x : Bench) (v : Bool) (now : ℕ) : Prop where
  dev : x.dev = flagged w.dev v
  slot : x.slot = w.slot + v.toNat
  within : v = true → w.slot < 10 * u.tx.message.length + 2
  edge : x.edge = t₀ + edgeBefore u.build (w.slot + v.toNat)
  latch : (0 :: lows u.build u.tx.message)[w.slot + v.toNat]? = some x.latch
  reached : x.edge ≤ now
  ahead : w.slot + v.toNat < 10 * u.tx.message.length + 2 → now < t₀ + edgeAt u.build (w.slot + v.toNat)

theorem TimerAt.edge_le {x : Bench} {v : Bool} {now : ℕ} (h : TimerAt u t₀ w x v now) :
    t₀ + edgeBefore u.build (w.slot + v.toNat) ≤ now := by
  rw [← h.edge]
  exact h.reached

/-- Timer1 overflows at the next edge, when that is reached. -/
theorem Loop.timer (h : Loop u t₀ ps w) (hclock : Clocked u.build) (hd : d < 180) :
    ∃ v, TimerAt u t₀ w (w.timer (w.now + d)) v (w.now + d) := by
  have hdue : w.slot < 10 * u.tx.message.length + 2 → w.due = t₀ + edgeAt u.build w.slot := by
    intro hlt
    rw [Bench.due, h.edge, h.build, add_assoc, edge_next (h.attempt.top hlt)]
  have hcast : ((w.now + d : ℕ) : ℝ) = w.now + d := Nat.cast_add _ _
  have hd0 : (0 : ℝ) ≤ d := Nat.cast_nonneg d
  have hd180 : (d : ℝ) < 180 := by exact_mod_cast hd
  have hreached := h.reached
  rw [Bench.timer]
  by_cases hover : w.dev.hw.pwm.tccr1 ≠ 0 ∧ w.due ≤ (w.now + d : ℕ)
  · obtain ⟨hrun, hle⟩ := hover
    have hlt : w.slot < 10 * u.tx.message.length + 2 := h.attempt.clock.mp hrun
    have hstep : timerOverflow w.dev = flagged w.dev true := if_pos hrun
    have hahead := h.ahead hlt
    have hnext := edgeAt_succ hclock w.slot
    rw [if_pos ⟨hrun, hle⟩, hstep]
    rw [hdue hlt] at hle ⊢
    refine ⟨true, rfl, rfl, fun _ => hlt, rfl, ?_, hle, fun _ => ?_⟩
    · rw [Bool.toNat_true, List.getElem?_cons_succ]
      exact h.attempt.low hlt
    · rw [Bool.toNat_true, hcast]
      linarith
  · have hsame : flagged w.dev false = w.dev := by
      rw [← h.handled]
      rfl
    rw [if_neg hover]
    refine ⟨false, hsame.symm, rfl, fun hc => Bool.noConfusion hc, h.edge, h.latch, ?_, fun hlt => ?_⟩
    · rw [hcast]
      linarith
    · rw [Bool.toNat_false, Nat.add_zero] at hlt ⊢
      rw [← hdue hlt]
      exact not_le.mp fun hle => hover ⟨h.attempt.clock.mpr hlt, hle⟩

theorem line_sub (t₀ : ℝ) (l : List (Pulse ℝ)) (y : ℝ) : line t₀ l y = line 0 l (y - t₀) := by
  rw [line, line, sub_zero]
  congr 1
  rw [eq_iff_iff, sub_neg]

theorem edgeBefore_le (hclock : Clocked u.build) {n : ℕ} (hn : n ≠ 0) {x : ℝ} (h : edgeBefore u.build n ≤ x) {c : ℕ}
    (hc : x < edgeAt u.build (c + 1)) : n ≤ c + 1 := by
  obtain ⟨j, rfl⟩ := Nat.exists_eq_succ_of_ne_zero hn
  have := lt_of_edges hclock h hc
  omega

/-- The receive driver's poll. -/
structure Polled (u : Cec Soft) (t₀ : ℝ) (ps : List (Pulse ℝ)) (j n now : ℕ) (t z : Cec Soft) : Prop where
  attempt : At u.build u.tx.message j z
  pwm : z.hw.pwm = t.hw.pwm
  calm : episodes z.told = episodes t.told
  hears : ∃ k ≤ 10 * u.tx.message.length + 1, Same (engineAt u (echo u.tx.message) k) z ∧ Reports u z u.tx.message k
  tracked : j ≠ 0 → j < 10 * u.tx.message.length → n = j + 1 → z.rx.flags ≠ 0
  place : n < 10 * u.tx.message.length + 2 →
    Place 180 u z (startPulse u.build) (echo u.tx.message) ps (now - t₀)
  rest : n = 10 * u.tx.message.length + 2 → AtRest z ∧
    Same (engineAt u (echo u.tx.message) (10 * u.tx.message.length + 1)) z

variable {others : ℕ → Bool} {v : Bool}

theorem Answered.duration (ha : Answered u.build u.tx.message t₀ others ps) :
    (startPulse u.build).total + Lib.duration ps = edgeAt u.build (10 * u.tx.message.length + 1) := by
  rw [duration_const ha.periods, ← ha.frames.length_eq, length_echo, edgeAt]

/-- Inside the waveform. -/
theorem Loop.recv (h : Loop u t₀ ps w) (ho : Overhears u u.tx.message) (hmicro : Micro u.build)
    (hclock : Clocked u.build) (ha : Answered u.build u.tx.message t₀ others ps) (hd : d < 180)
    (hn : w.slot + v.toNat < 10 * u.tx.message.length + 2)
    (hedge : t₀ + edgeBefore u.build (w.slot + v.toNat) ≤ (w.now + d : ℕ))
    (hahead : (w.now + d : ℕ) < t₀ + edgeAt u.build (w.slot + v.toNat)) :
    Polled u t₀ ps w.slot (w.slot + v.toNat) (w.now + d) (flagged w.dev v)
      (step (.recv d (line t₀ (startPulse u.build :: ps) (w.now + d : ℕ) && !(flagged w.dev v).hw.driven))
        (flagged w.dev v)) := by
  have hprompt : Prompt u.build 180 := prompt_micro hmicro (by decide) (by decide)
  have hstart : StartFrame u.build 180 (startPulse u.build) := (startPulse_near hclock).startFrame hmicro
  have hT3 : ((usToJiffies u.build cecT3 : ℕ) : ℝ) = 850 := by
    rw [show usToJiffies u.build cecT3 = 850 from hmicro.jiffies _]
    norm_num
  have hcast : ((w.now + d : ℕ) : ℝ) = w.now + d := Nat.cast_add _ _
  have hd180 : (d : ℝ) < 180 := by exact_mod_cast hd
  have hlow := startPulse_bounds hclock
  have hlt : w.slot < 10 * u.tx.message.length + 2 := (Nat.le_add_right _ _).trans_lt hn
  have hend : edgeAt u.build (w.slot + v.toNat) ≤ edgeAt u.build (10 * u.tx.message.length + 1) :=
    edgeAt_mono hclock (by omega)
  have hflag : Same w.dev (flagged w.dev v) := ⟨rfl, rfl, rfl, rfl⟩
  have hat : At u.build u.tx.message w.slot (flagged w.dev v) :=
    ⟨h.attempt.state, h.attempt.clock, h.attempt.low, h.attempt.top, h.attempt.bits, h.attempt.wait⟩
  have hplace := (h.place hlt).congr hflag rfl
  obtain ⟨k, hk, hsame, hreports⟩ := h.hears
  have hsame' := hsame.trans hflag
  have hreports' : Reports u (flagged w.dev v) u.tx.message k := hreports.congr rfl rfl
  obtain ⟨k₁, hwithin⟩ := hplace.within ho hprompt hstart ha.periods
  obtain rfl := sign_unique (by rwa [length_echo]) (by rw [length_echo]; exact hwithin.le) hsame' hwithin.same
  have hreached := h.reached
  have hbefore := h.ahead hlt
  rw [h.edge] at hreached
  generalize flagged w.dev v = t at hat hplace hsame' hreports' hwithin ⊢
  -- one poll of the waveform
  have hnext := hplace.next hprompt hstart ha.frames hd (by rw [ha.duration]; linarith)
  rw [line_sub, hcast, add_sub_right_comm]
  have hpolls := recv_polls t d (line 0 (startPulse u.build :: ps) (w.now - t₀ + d) && !t.hw.driven)
  generalize step (.recv d (line 0 (startPulse u.build :: ps) (w.now - t₀ + d) && !t.hw.driven)) t = z at hnext hpolls
  obtain ⟨k', hwithin'⟩ := hnext.within ho hprompt hstart ha.periods
  have htells := hpolls.tells (by rwa [length_echo]) (by rw [length_echo]; exact hwithin'.le) hsame' hwithin'.same
  -- a bit is heard in its own cycle
  have hstep : ∀ c, k = c + 1 → k' = c + 2 → w.slot = c + 2 := by
    intro c hc hc'
    have hlate := hwithin.before c hc (by have := hwithin'.le; omega)
    have hdue := hwithin'.after c hc'
    rw [hT3] at hlate hdue
    push_cast at hlate
    have hnextedge := edgeAt_succ hclock (c + 1)
    have hc1 : edgeAt u.build (c + 1) = (startPulse u.build).total + c * periodUs u.build := rfl
    have hlo : c + 1 < w.slot := lt_of_edges hclock (x := w.now - t₀) (by linarith) (by linarith)
    have hhi : w.slot ≤ c + 1 + 1 :=
      edgeBefore_le hclock (x := w.now - t₀) (by omega) (by linarith) (by linarith)
    omega
  obtain ⟨hat', hpwm, hcalm, hreports''⟩ := htells.kept ho hat hsame' hreports' hstep
  refine ⟨hat', hpwm, hcalm, ⟨k', hwithin'.le, hwithin'.same, hreports''⟩, fun h0 hj hjn => ?_, fun _ => ?_,
    fun hc => by omega⟩
  · -- it has heard the start bit, and not the last bit
    rw [hjn] at hedge hahead
    have hfirst : edgeAt u.build 1 ≤ edgeAt u.build w.slot := edgeAt_mono hclock (by omega)
    have hone : edgeAt u.build 1 = (startPulse u.build).total + (0 : ℕ) * periodUs u.build := rfl
    rw [Nat.cast_zero, zero_mul, add_zero] at hone
    have hbegun : k' ≠ 0 := by
      intro hc
      have := hwithin'.early hc
      rw [edgeBefore] at hedge
      linarith
    obtain ⟨c, rfl⟩ := Nat.exists_eq_succ_of_ne_zero hbegun
    have hc : c < 10 * u.tx.message.length := by
      by_contra hc
      obtain ⟨l, hl⟩ := Nat.exists_eq_succ_of_ne_zero (by omega : c ≠ 0)
      have hdue := hwithin'.after l (by omega)
      have hmono : edgeAt u.build (w.slot + 1) ≤ edgeAt u.build (l + 1) := edgeAt_mono hclock (by omega)
      have hl1 : edgeAt u.build (l + 1) = (startPulse u.build).total + l * periodUs u.build := rfl
      rw [hT3] at hdue
      linarith
    rw [hwithin'.same.rx]
    exact (ho.tracks_take hc).flags_ne
  · rw [hcast, add_sub_right_comm]
    exact hnext

/-- The end of the waveform, and after it. -/
theorem Loop.recv_over (h : Loop u t₀ ps w) (ho : Overhears u u.tx.message) (hmicro : Micro u.build)
    (hclock : Clocked u.build) (ha : Answered u.build u.tx.message t₀ others ps) (hd : d < 180)
    (hn : w.slot + v.toNat = 10 * u.tx.message.length + 2)
    (hedge : t₀ + edgeBefore u.build (w.slot + v.toNat) ≤ (w.now + d : ℕ)) :
    Polled u t₀ ps w.slot (w.slot + v.toNat) (w.now + d) (flagged w.dev v) (step (.recv d true) (flagged w.dev v)) ∧
      (flagged w.dev v).hw.driven = false := by
  have hprompt : Prompt u.build 180 := prompt_micro hmicro (by decide) (by decide)
  have hstart : StartFrame u.build 180 (startPulse u.build) := (startPulse_near hclock).startFrame hmicro
  have hcast : ((w.now + d : ℕ) : ℝ) = w.now + d := Nat.cast_add _ _
  have hd180 : (d : ℝ) < 180 := by exact_mod_cast hd
  have hflag : Same w.dev (flagged w.dev v) := ⟨rfl, rfl, rfl, rfl⟩
  have hat : At u.build u.tx.message w.slot (flagged w.dev v) :=
    ⟨h.attempt.state, h.attempt.clock, h.attempt.low, h.attempt.top, h.attempt.bits, h.attempt.wait⟩
  have hslot : 10 * u.tx.message.length < w.slot := by
    have := v.toNat_le
    omega
  -- the driver is at rest, at the last poll already
  have hrest : AtRest w.dev ∧ Same (engineAt u (echo u.tx.message) (10 * u.tx.message.length + 1)) w.dev := by
    rcases Nat.lt_or_ge w.slot (10 * u.tx.message.length + 2) with hlt | hge
    · refine (h.place hlt).over ho hprompt hstart ha.frames ?_
      rw [hn] at hedge
      rw [duration_cons, ha.duration, Nat.cast_ofNat]
      rw [edgeBefore] at hedge
      linarith
    · exact h.rest (by have := latch_le h.latch; omega)
  obtain ⟨hquiet, hsame⟩ := hrest
  obtain ⟨k, hk, hsame', hreports⟩ := h.hears
  obtain rfl := sign_unique (by rwa [length_echo]) (by rw [length_echo]) hsame' hsame
  have hreports' : Reports u (flagged w.dev v) u.tx.message (10 * u.tx.message.length + 1) := hreports.congr rfl rfl
  have hquiet' : AtRest (flagged w.dev v) := hquiet.congr hflag rfl
  have hsame'' := hsame.trans hflag
  generalize flagged w.dev v = t at hat hsame'' hreports' hquiet' ⊢
  obtain ⟨hrest', hstill⟩ := hquiet'.next (d := d) hsame''
  have hpolls := recv_polls t d true
  generalize step (.recv d true) t = z at hrest' hstill hpolls
  have htells := hpolls.tells (by rw [length_echo]) (by rw [length_echo]) hsame'' hstill
  obtain ⟨hat', hpwm, hcalm, hreports''⟩ := htells.kept ho hat hsame'' hreports' fun c hc hc' => by omega
  exact ⟨⟨hat', hpwm, hcalm, ⟨_, le_refl _, hstill, hreports''⟩, fun _ hj => by omega, fun hc => by omega,
    fun _ => ⟨hrest', hstill⟩⟩, hquiet'.driven⟩

/-- The poll of the receive driver, whatever Timer1 has done before it. -/
theorem Loop.polled (h : Loop u t₀ ps w) (ho : Overhears u u.tx.message) (hmicro : Micro u.build)
    (hclock : Clocked u.build) (ha : Answered u.build u.tx.message t₀ others ps) (hd : d < 180)
    (hv : TimerAt u t₀ w (w.timer (w.now + d)) v (w.now + d)) :
    ∃ level₁ level₂, (w.poll others d) = { (w.timer (w.now + d)) with
      dev := cecPeriodic (flagged w.dev v) d level₁ level₂, now := w.now + d } ∧
      Polled u t₀ ps w.slot (w.slot + v.toNat) (w.now + d) (flagged w.dev v)
        (step (.recv d level₁) (flagged w.dev v)) := by
  have hslot := hv.slot
  have hbuild : (w.timer (w.now + d)).dev.build = u.build := by
    rw [hv.dev]
    exact h.build
  have hpin := pin_level hclock hbuild (by rw [hslot]; exact hv.edge) (by rw [hslot]; exact hv.latch) hv.reached
  rw [Bench.poll]
  dsimp only
  rw [hv.dev]
  refine ⟨_, _, rfl, ?_⟩
  rw [hslot] at hpin
  rcases Nat.lt_or_ge (w.slot + v.toNat) (10 * u.tx.message.length + 2) with hlt | hge
  · have hbefore := hv.ahead hlt
    have hmono : edgeAt u.build (w.slot + v.toNat) ≤ edgeAt u.build (10 * u.tx.message.length + 1) :=
      edgeAt_mono hclock (by omega)
    rw [hpin.1 hlt hbefore, ha.line _ (by linarith)]
    exact h.recv ho hmicro hclock ha hd hlt hv.edge_le hbefore
  · have hle := latch_le hv.latch
    obtain ⟨hpolled, hdriven⟩ := h.recv_over ho hmicro hclock ha hd (by omega) hv.edge_le
    have hover : others (w.now + d) = true := by
      refine ha.after _ (le_trans ?_ hv.edge_le)
      rw [show w.slot + v.toNat = 10 * u.tx.message.length + 1 + 1 by omega, edgeBefore]
    rw [hpin.2 (by omega), hover, hdriven]
    exact hpolled

/-- One poll of the bench. -/
theorem loop_poll (h : Loop u t₀ ps w) (ho : Overhears u u.tx.message) (hmicro : Micro u.build)
    (hclock : Clocked u.build) (haddr : u.addr = .none ∨ cecAddrReady u.addr = true)
    (ha : Answered u.build u.tx.message t₀ others ps) (hd : d < 180) : Loop u t₀ ps (w.poll others d) := by
  obtain ⟨v, hv⟩ := h.timer hclock hd
  have hflagged : Framed Busy (flagged w.dev v) :=
    ⟨h.framed.asks, h.framed.busy, h.framed.free, h.framed.size, h.framed.pos⟩
  have htov : (flagged w.dev v).hw.pwm.tov1 = v := rfl
  obtain ⟨level₁, level₂, hpoll, hpolled⟩ := h.polled ho hmicro hclock ha hd hv
  obtain ⟨k, hk, hsame, hreports⟩ := hpolled.hears
  have hframed : Framed Busy (step (.recv d level₁) (flagged w.dev v)) := framed_step hflagged _
  have hcalm : episodes (step (.recv d level₁) (flagged w.dev v)).told = episodes u.told :=
    hpolled.calm.trans h.calm
  have hpwm : (step (.recv d level₁) (flagged w.dev v)).hw.pwm.tov1 = v := (congrArg Pwm.tov1 hpolled.pwm).trans htov
  have hper : cecPeriodic (flagged w.dev v) d level₁ level₂
      = cecAddrPeriodic (step (.xmit d level₂) (step (.recv d level₁) (flagged w.dev v))) := rfl
  rw [hper] at hpoll
  generalize step (.recv d level₁) (flagged w.dev v) = z at hpolled hsame hreports hframed hcalm hpwm hpoll
  -- the transmit driver's
  have hseveral := ho.several
  have hzbuild : z.build = u.build := hsame.build.trans (engineAt_build ..)
  obtain ⟨hcarried, hoff, hat⟩ := xmit_carried hpolled.attempt (by omega) hframed hzbuild
    (fun hrun hflag => by
      obtain ⟨h0, hlt⟩ := hpolled.attempt.running hrun
      rw [hpwm] at hflag
      exact hpolled.tracked h0 hlt (by rw [hflag]; rfl))
    (fun hflag => hv.within (hpwm.symm.trans hflag)) hreports d level₂
  have hframed' : Framed Busy (step (.xmit d level₂) z) := framed_step hframed _
  generalize step (.xmit d level₂) z = y at hcarried hoff hat hframed' hpoll
  rw [hpwm] at hat
  have hsame' := hsame.trans hcarried.same
  rw [hpoll, hsame'.settled haddr]
  refine ⟨hframed', ?_, hoff, ?_, ?_, hv.reached, fun hlt => ?_, hcarried.told.1.trans hcalm,
    ⟨k, hk, hsame', hcarried.reports hreports⟩, fun hlt => ?_, fun heq => ?_⟩
  all_goals dsimp only at *
  · rw [hv.slot]
    exact hat
  · rw [hv.slot]
    exact hv.edge
  · rw [hv.slot]
    exact hv.latch
  · rw [hv.slot] at hlt ⊢
    exact hv.ahead hlt
  · rw [hv.slot] at hlt
    exact (hpolled.place hlt).congr hcarried.same hcarried.frame
  · rw [hv.slot] at heq
    obtain ⟨hrest, hover⟩ := hpolled.rest heq
    exact ⟨hrest.congr hcarried.same hcarried.frame, hover.trans hcarried.same⟩

/-- All polls of the bench. -/
theorem loop_run (h : Loop u t₀ ps w) (ho : Overhears u u.tx.message) (hmicro : Micro u.build)
    (hclock : Clocked u.build) (haddr : u.addr = .none ∨ cecAddrReady u.addr = true)
    (ha : Answered u.build u.tx.message t₀ others ps) {ds : List ℕ} (hds : ∀ d ∈ ds, d < 180) :
    Loop u t₀ ps (ds.foldl (Bench.poll others) w) := by
  induction ds generalizing w with
  | nil => exact h
  | cons d ds ih =>
    rw [List.forall_mem_cons] at hds
    exact ih (loop_poll h ho hmicro hclock haddr ha hds.1) hds.2

end

/-! ### A follower that acks -/

/-- While the sender leaves the line high, the others pull it low in the ack slots of a directed message,
    from their falling edges on and for the times `hold`, and nowhere else. -/
structure Answers (b : Build) (m : List ℕ) (t₀ : ℝ) (hold : ℕ → ℝ) (others : ℕ → Bool) : Prop where
  window : ∀ c, 1210 ≤ hold c ∧ hold c ≤ 2200
  low : ∀ n : ℕ, (n < t₀ + edgeAt b (10 * m.length + 1) → line t₀ (wave b m) n = true) →
    (others n = false ↔ ∃ c < 10 * m.length, c % 10 = 9 ∧ ¬ Broadcast m ∧
      t₀ + edgeAt b (c + 1) ≤ n ∧ n < t₀ + edgeAt b (c + 1) + hold c)

section
variable {b : Build} {m : List ℕ} {t₀ : ℝ} {hold : ℕ → ℝ} {others : ℕ → Bool}

/-- The pulse that is heard of a bit. -/
noncomputable def answered (b : Build) (m : List ℕ) (hold : ℕ → ℝ) (bit : Bool) (c : ℕ) : Pulse ℝ :=
  ⟨if c % 10 = 9 ∧ ¬ Broadcast m then hold c else (bitPulse b bit).low, periodUs b⟩

noncomputable def answeredAll (b : Build) (m : List ℕ) (hold : ℕ → ℝ) : List (Pulse ℝ) :=
  (framing m).zipIdx.map fun p => answered b m hold p.1 p.2

theorem getElem?_answeredAll (b : Build) (m : List ℕ) (hold : ℕ → ℝ) (c : ℕ) :
    (answeredAll b m hold)[c]? = ((framing m)[c]?).map fun bit => answered b m hold bit c := by
  rw [answeredAll, List.getElem?_map, List.getElem?_zipIdx]
  cases (framing m)[c]? <;> simp

/-- The cycle that a time falls into. -/
theorem exists_slot {x : ℝ} {k : ℕ} (h1 : edgeAt b 1 ≤ x) (hk : x < edgeAt b (k + 1)) :
    ∃ c < k, edgeAt b (c + 1) ≤ x ∧ x < edgeAt b (c + 1 + 1) := by
  induction k with
  | zero => linarith
  | succ k ih =>
    rcases lt_or_ge x (edgeAt b (k + 1)) with hlt | hge
    · obtain ⟨c, hc, hx⟩ := ih hlt
      exact ⟨c, by omega, hx⟩
    · exact ⟨k, Nat.lt_succ_self k, hge, hk⟩

theorem answered_frame (hmicro : Micro b) (hclock : Clocked b) (hwin : ∀ c, 1210 ≤ hold c ∧ hold c ≤ 2200) {c : ℕ}
    {bit : Bool} (hc : c < 10 * m.length) (hbit : (framing m)[c]? = some bit) :
    ∃ heard, (echo m)[c]? = some heard ∧ BitFrame b 180 heard (answered b m hold bit c) := by
  rw [getElem?_echo m c hc]
  by_cases h9 : c % 10 = 9
  · rw [framing_ack hc h9] at hbit
    obtain rfl := Option.some.inj hbit
    rw [if_pos h9]
    refine ⟨_, rfl, ?_⟩
    by_cases hcast : Broadcast m
    · have hlevel : ackLevel m = true := decide_eq_true hcast
      rw [hlevel, answered, if_neg fun hc => hc.2 hcast]
      exact (bitPulse_near hclock true).bitFrame hmicro
    · have hlevel : ackLevel m = false := decide_eq_false hcast
      have hperiod := period_bounds hclock
      obtain ⟨-, hthreshold, hhold, hack⟩ := hmicro.thresholds
      have h3 : usToJiffies b cecT3 = 850 := hmicro.jiffies _
      have h28 : holdTime b 2000 = 2800 := hhold 2000 (by decide)
      obtain ⟨hlo, hhi⟩ := hwin c
      rw [hlevel, answered, if_pos ⟨h9, hcast⟩]
      constructor
      · norm_num
        linarith
      · rw [h3, if_neg (by decide)]
        norm_num
        linarith
      · norm_num
        linarith
      · rw [hack]
        norm_num
        linarith
      · rw [hthreshold]
        norm_num
        linarith
      · rw [hthreshold, h28]
        norm_num
        linarith
  · rw [if_neg h9, answered, if_neg fun hc => h9 hc.1]
    exact ⟨bit, hbit, (bitPulse_near hclock bit).bitFrame hmicro⟩

/-- The others hold the line low in no slot that has not begun. -/
theorem Answers.silent (h : Answers b m t₀ hold others) (hclock : Clocked b) {n : ℕ} (hn : n < t₀ + edgeAt b 1)
    (hhigh : n < t₀ + edgeAt b (10 * m.length + 1) → line t₀ (wave b m) n = true) : others n = true := by
  by_contra hc
  obtain ⟨c, -, -, -, hle, -⟩ := (h.low n hhigh).mp (by simpa using hc)
  have hmono := edgeAt_mono hclock (by omega : 1 ≤ c + 1)
  linarith

theorem Answers.silent_after (h : Answers b m t₀ hold others) (hclock : Clocked b) {n : ℕ}
    (hn : t₀ + edgeAt b (10 * m.length + 1) ≤ n) : others n = true := by
  by_contra hc
  obtain ⟨c, hc, -, -, -, hlt⟩ := (h.low n fun hlt => absurd hlt (not_lt.mpr hn)).mp (by simpa using hc)
  have hwin := (h.window c).2
  have hnext := edgeAt_succ hclock (c + 1)
  have hmono := edgeAt_mono hclock (by omega : c + 1 + 1 ≤ 10 * m.length + 1)
  linarith

/-- In one cycle there is one slot to be held low. -/
theorem Answers.in_slot (h : Answers b m t₀ hold others) (hclock : Clocked b) {n c : ℕ} (hc : c < 10 * m.length)
    (hle : t₀ + edgeAt b (c + 1) ≤ n) (hlt : n < t₀ + edgeAt b (c + 1 + 1)) (hhigh : line t₀ (wave b m) n = true) :
    others n = false ↔ (c % 10 = 9 ∧ ¬ Broadcast m) ∧ n < t₀ + edgeAt b (c + 1) + hold c := by
  rw [h.low n fun _ => hhigh]
  constructor
  · rintro ⟨c', -, h9, hcast, hle', hlt'⟩
    have hwin := (h.window c').2
    have hnext := edgeAt_succ hclock (c' + 1)
    have h₁ : c' + 1 < c + 1 + 1 := lt_of_edges hclock (x := n - t₀) (by linarith) (by linarith)
    have h₂ : c + 1 < c' + 1 + 1 := lt_of_edges hclock (x := n - t₀) (by linarith) (by linarith)
    obtain rfl : c' = c := by omega
    exact ⟨⟨h9, hcast⟩, hlt'⟩
  · rintro ⟨⟨h9, hcast⟩, hlt'⟩
    exact ⟨c, hc, h9, hcast, hle, hlt'⟩

theorem answered_frames (hmicro : Micro b) (hclock : Clocked b) (hwin : ∀ c, 1210 ≤ hold c ∧ hold c ≤ 2200) :
    List.Forall₂ (BitFrame b 180) (echo m) (answeredAll b m hold) := by
  refine List.forall₂_iff_get.mpr ⟨by simp [answeredAll], fun c hc hc' => ?_⟩
  rw [length_echo] at hc
  have hbit := List.getElem?_eq_getElem (l := framing m) (i := c) (by rwa [length_framing])
  obtain ⟨heard, hheard, hframe⟩ := answered_frame hmicro hclock hwin hc hbit
  have hpulse := getElem?_answeredAll b m hold c
  rw [hbit, Option.map_some] at hpulse
  rw [List.get_eq_getElem, List.get_eq_getElem, (List.getElem?_eq_some_iff.mp hheard).2,
    (List.getElem?_eq_some_iff.mp hpulse).2]
  exact hframe

/-- The low phase of a bit, stretched where it is acked. -/
theorem Answers.stretches (h : Answers b m t₀ hold others) (hclock : Clocked b) {n c : ℕ} {bit : Bool}
    (hc : c < 10 * m.length) (hbit : (framing m)[c]? = some bit) (hle : t₀ + edgeAt b (c + 1) ≤ n)
    (hlt : n < t₀ + edgeAt b (c + 1 + 1))
    (hlevel : line t₀ (wave b m) n = decide ((bitPulse b bit).low ≤ n - t₀ - edgeAt b (c + 1))) :
    (decide ((bitPulse b bit).low ≤ n - t₀ - edgeAt b (c + 1)) && others n)
      = decide ((answered b m hold bit c).low ≤ n - t₀ - edgeAt b (c + 1)) := by
  rw [answered]
  by_cases hlow : (bitPulse b bit).low ≤ n - t₀ - edgeAt b (c + 1)
  · rw [decide_eq_true hlow] at hlevel ⊢
    have hiff := h.in_slot hclock hc hle hlt hlevel
    rw [Bool.true_and]
    by_cases hacked : c % 10 = 9 ∧ ¬ Broadcast m
    · rw [if_pos hacked, Bool.eq_iff_iff, decide_eq_true_iff, ← Bool.not_eq_false, hiff]
      constructor
      · intro hnot
        by_contra hlt'
        exact hnot ⟨hacked, by linarith⟩
      · rintro hle' ⟨-, hlt'⟩
        linarith
    · rw [if_neg hacked, decide_eq_true hlow, ← Bool.not_eq_false, hiff]
      exact fun hc => hacked hc.1
  · rw [decide_eq_false hlow, Bool.false_and]
    symm
    rw [decide_eq_false_iff_not, not_le]
    rw [not_le] at hlow
    split
    · next hacked =>
      -- our own low phase is over before the other's
      rw [framing_ack hc hacked.1] at hbit
      obtain rfl := Option.some.inj hbit
      have hwin := (h.window c).1
      obtain ⟨⟨-, hshort⟩, -⟩ := (bitPulse_near hclock true).bounds
      norm_num [nominal, cec1] at hshort
      linarith
    · exact hlow

/-- So what is heard is the echo. -/
theorem Answers.answered (h : Answers b m t₀ hold others) (hmicro : Micro b) (hclock : Clocked b) :
    Answered b m t₀ others (answeredAll b m hold) := by
  have hbounds := startPulse_bounds hclock
  have hperiod := period_bounds hclock
  have hframes := answered_frames (m := m) hmicro hclock h.window
  have hperiods : ∀ p ∈ answeredAll b m hold, p.total = periodUs b := by
    intro p hp
    obtain ⟨q, -, rfl⟩ := List.mem_map.mp hp
    rfl
  have hone : edgeAt b 1 = (startPulse b).total := by rw [edgeAt, Nat.cast_zero, zero_mul, add_zero]
  refine ⟨hframes, hperiods, fun n hn => ?_, fun n hn => h.silent_after hclock hn⟩
  rcases lt_or_ge (n : ℝ) t₀ with hlt | hge
  · have hhigh : line t₀ (wave b m) n = true := if_pos hlt
    rw [hhigh, h.silent hclock (by linarith) fun _ => hhigh, line, if_pos hlt]
    rfl
  · have hlevel : ∀ l, line t₀ l n = level l (n - t₀) := fun l => if_neg (not_lt.mpr hge)
    have hwave := hlevel (wave b m)
    rw [hlevel, hlevel]
    rcases lt_or_ge (n - t₀) (edgeAt b 1) with hstart | hslot
    · rw [hone] at hstart
      rw [wave, level_inside hstart] at hwave ⊢
      rw [level_inside hstart]
      by_cases hlow : (startPulse b).low ≤ n - t₀
      · rw [decide_eq_true hlow] at hwave ⊢
        rw [h.silent hclock (by linarith) fun _ => hwave]
        rfl
      · rw [decide_eq_false hlow]
        rfl
    · obtain ⟨c, hc, hle, hlt⟩ := exists_slot (b := b) (k := 10 * m.length) hslot (by linarith)
      have hlen : c < (framing m).length := by rwa [length_framing]
      have hbit := List.getElem?_eq_getElem hlen
      generalize (framing m)[c] = bit at hbit
      have hown : ((framing m).map (bitPulse b))[c]? = some (bitPulse b bit) := by
        rw [List.getElem?_map, hbit]
        rfl
      have hheard : (answeredAll b m hold)[c]? = some (Soft.answered b m hold bit c) := by
        rw [getElem?_answeredAll, hbit]
        rfl
      have hedge : edgeAt b (c + 1) = (startPulse b).total + c * periodUs b := rfl
      have hedge' : edgeAt b (c + 1 + 1) = (startPulse b).total + (c + 1) * periodUs b := by
        rw [edgeAt, Nat.cast_add, Nat.cast_one]
      obtain ⟨hfits, htotal⟩ := bitPulses_fit_period hclock m
      have hstart : (startPulse b).Fits := ⟨by linarith, by linarith⟩
      rw [wave, level_slot hstart hfits htotal hown (by linarith) (by linarith), sub_sub _ (startPulse b).total,
        ← hedge] at hwave ⊢
      rw [level_slot hstart (frames_fit hframes) hperiods hheard (by linarith) (by linarith),
        sub_sub _ (startPulse b).total, ← hedge]
      exact h.stretches hclock hc hbit (by linarith) (by linarith) hwave

end

/-! ### Attempts -/

/-- The bench as an attempt begins. -/
theorem loop_start {u : Cec Soft} {now : ℕ} {t₀ : ℝ} {ps : List (Pulse ℝ)} (hf : Framed Busy u)
    (hat : At u.build u.tx.message 0 u) (htov : u.hw.pwm.tov1 = false) (hrest : AtRest u) (hclock : Clocked u.build)
    (hlt : now < t₀) (hle : t₀ ≤ now + 2 * tickUs u.build) : Loop u t₀ ps (Bench.start u now t₀) := by
  have htop := hat.top (Nat.succ_pos _)
  have hstart := startPulse_bounds hclock
  have htick := tickUs_lt hclock
  have hedge : (Bench.start u now t₀).edge = t₀ + edgeBefore u.build 0 := by
    have hnext := edge_next htop
    change t₀ - (u.hw.pwm.ocr1c + 1) * tickUs u.build = _
    rw [edgeBefore, edgeAt] at *
    linarith
  have hbusy : u.tx.state.busy := by
    have hlong : 0 < u.tx.message.length := by
      rw [length_message]
      exact Nat.succ_pos _
    rcases hat.asked (by omega) with hs | hs <;> rw [hs] <;> decide
  refine ⟨hf, hat, htov, hedge, rfl, ?_, fun _ => ?_, rfl, ⟨0, Nat.zero_le _, Same.refl u, ?_⟩, fun _ => ?_, fun hc => ?_⟩
  · rw [hedge, edgeBefore]
    change _ ≤ (now : ℝ)
    linarith
  · change (now : ℝ) < t₀ + 0
    linarith
  · rw [Reports, if_neg (by omega)]
    exact ⟨hbusy, rfl⟩
  · exact .rest (by change (now : ℝ) - t₀ < 0; linarith) hrest (Same.refl u)
  · exact absurd hc (by change 0 ≠ _; omega)

/-- In every run, from the beginning of an attempt on, with the polls less than 180 us apart and others
    that only ack: no error takes effect and no other attempt begins, the pin is the waveform of the
    message, the engine is told of the bits of its echo in order and of nothing else, and from the end of
    the waveform on the success has been reported once, the clock is stopped, and the receive buffer holds
    the message with a clean header. -/
theorem loopback (build : Build) (addr : Addr) (is : List Step) (i : Step) (hclock : Clocked build)
    (hmicro : Micro build) :
    let s := run step (initial build addr) is
    let u := step i s
    let m := u.tx.message
    attempts u.told ≠ attempts s.told → u.hw.pwm.tov1 = false → AtRest u → Overhears u m →
      (u.addr = .none ∨ cecAddrReady u.addr = true) →
    ∀ (now : ℕ) (t₀ : ℝ) (hold : ℕ → ℝ) (others : ℕ → Bool), now < t₀ → t₀ ≤ now + 2 * tickUs build →
      Answers build m t₀ hold others →
    ∀ ds : List ℕ, (∀ d ∈ ds, d < 180) →
      let w := ds.foldl (Bench.poll others) (Bench.start u now t₀)
      episodes w.dev.told = episodes u.told ∧
      (w.now < t₀ + edgeAt build (10 * m.length + 1) → w.pin w.now = line t₀ (wave build m) w.now) ∧
      (∃ k ≤ 10 * m.length + 1, w.dev.signs = u.signs ++ signsTo (echo m) k) ∧
      (t₀ + edgeAt build (10 * m.length + 1) ≤ w.now →
        (w.dev.tx.state = .idle ∧ sentCount w.dev.told = sentCount u.told + 1) ∧ w.dev.hw.pwm.tccr1 = 0 ∧
        w.dev.rx.flags = 0 ∧ w.dev.header = m.length ∧
        ∀ k, (hk : k < m.length) → w.dev.rx.buf (build.hdr + 1 + k) = m[k]) := by
  intro s u m hbegin htov hrest ho haddr now t₀ hold others hlt hle ha ds hds w
  have hbuild : s.build = build := run_build build addr is
  have hu : u.build = build := (step_build s i).trans hbuild
  have hframed : Framed Busy u := framed_step (framed_run build addr is) i
  have hat : At build m 0 u := at_begin hbuild hbegin
  have hm : u.tx.message = m := rfl
  clear_value m
  clear_value u
  subst hm hu
  have hloop : Loop u t₀ (answeredAll u.build u.tx.message hold) w :=
    loop_run (loop_start hframed hat htov hrest hclock hlt hle) ho hmicro hclock haddr (ha.answered hmicro hclock) hds
  have hw : w.dev.build = u.build := hloop.build
  have hpin := pin_level hclock hw hloop.edge hloop.latch hloop.reached
  have hslot : (w.now : ℝ) < t₀ + edgeAt u.build (10 * u.tx.message.length + 1) ↔
      w.slot < 10 * u.tx.message.length + 2 := by
    constructor
    · intro hnow
      by_contra hc
      have hlast : w.slot = 10 * u.tx.message.length + 1 + 1 := by
        have := latch_le hloop.latch
        omega
      have hreached := hloop.reached
      rw [hloop.edge, hlast, edgeBefore] at hreached
      linarith
    · intro hlast
      have hmono := edgeAt_mono hclock (by omega : w.slot ≤ 10 * u.tx.message.length + 1)
      have := hloop.ahead hlast
      linarith
  refine ⟨hloop.calm, fun hnow => hpin.1 (hslot.mp hnow) (hloop.ahead (hslot.mp hnow)), ?_, fun hnow => ?_⟩
  · obtain ⟨k, hk, hsame, -⟩ := hloop.hears
    refine ⟨k, hk, ?_⟩
    rw [← engineAt_signs, Cec.signs, hsame.calls]
    rfl
  · have hlast : w.slot = 10 * u.tx.message.length + 2 := by
      have hge := mt hslot.mpr (not_lt.mpr hnow)
      have := latch_le hloop.latch
      omega
    obtain ⟨hquiet, hsame⟩ := hloop.rest hlast
    obtain ⟨k, hk, hsame', hreports⟩ := hloop.hears
    obtain rfl := sign_unique (by rwa [length_echo]) (by rw [length_echo]) hsame' hsame
    rw [Reports, if_pos rfl] at hreports
    have hclocked := hloop.attempt.clock
    rw [hlast] at hclocked
    have hstop : w.dev.hw.pwm.tccr1 = 0 := by
      by_contra hc
      exact absurd (hclocked.mp hc) (lt_irrefl _)
    have hrx : w.dev.rx = (feed (cecReceiveStart u) (echo u.tx.message)).rx := by
      rw [hsame.rx, engineAt, List.take_of_length_le (by rw [length_echo])]
    obtain ⟨-, hheader, hbuf⟩ := ho.handed
    rw [Cec.header, hw, hrx]
    exact ⟨hreports, hstop, hrx ▸ hquiet.flags, hheader, hbuf⟩

theorem now_run (others : ℕ → Bool) (w : Bench) (ds : List ℕ) :
    (ds.foldl (Bench.poll others) w).now = w.now + ds.sum := by
  induction ds generalizing w with
  | nil => rfl
  | cons d ds ih =>
    rw [List.foldl_cons, ih, List.sum_cons, ← Nat.add_assoc]
    rfl

/-- A message of two bytes to address 5, which acks it, polled for 60 ms. -/
theorem loopback_directed :
    ∃ (others : ℕ → Bool) (ds : List ℕ), ds.sum = 60000 ∧
      let s := run step (initial {} (.fixed 4)) [.app (.send [0x45, 0x36]), .recv 6000 true, .xmit 6000 true]
      let u := step (.xmit 7000 true) s
      let w := ds.foldl (Bench.poll others) (Bench.start u 0 (tickUs {}))
      w.dev.tx.state = .idle ∧ w.dev.header = 2 := by
  have hclock : Clocked {} := by decide
  have hmicro : Micro {} := ⟨by decide, by decide⟩
  have htick := tickUs_lt hclock
  have hpos := tickUs_pos hclock
  obtain ⟨others, hothers⟩ : ∃ others, Answers {} [0x45, 0x36] (tickUs {}) (fun _ => 1500) others :=
    ⟨fun n => decide (¬ ∃ c < 10 * 2, c % 10 = 9 ∧ ¬ Broadcast [0x45, 0x36] ∧
      tickUs {} + edgeAt {} (c + 1) ≤ n ∧ n < tickUs {} + edgeAt {} (c + 1) + 1500),
      fun _ => by norm_num, fun n _ => by simp⟩
  obtain ⟨ds, hds, hsum⟩ : ∃ ds : List ℕ, (∀ d ∈ ds, d < 180) ∧ ds.sum = 60000 := by
    refine ⟨List.replicate 600 100, fun d hd => ?_, by rw [List.sum_replicate]; rfl⟩
    rw [List.eq_of_mem_replicate hd]
    decide
  refine ⟨others, ds, hsum, ?_⟩
  intro s u w
  have hm : u.tx.message = [0x45, 0x36] := by decide +kernel
  have hreached : tickUs {} + edgeAt {} (10 * u.tx.message.length + 1) ≤ w.now := by
    obtain ⟨-, -, hstart⟩ := startPulse_bounds hclock
    obtain ⟨-, hperiod⟩ := period_bounds hclock
    have hnow : w.now = 60000 := (now_run others _ ds).trans (by rw [hsum]; exact Nat.zero_add _)
    rw [hnow, hm, edgeAt]
    norm_num only [List.length_cons, List.length_nil, Nat.cast_ofNat]
    linarith
  have hlast := (loopback {} (.fixed 4)
    [.app (.send [0x45, 0x36]), .recv 6000 true, .xmit 6000 true] (.xmit 7000 true) hclock hmicro
    (by decide +kernel) (by decide +kernel) ⟨by decide +kernel, by decide +kernel, by decide +kernel, by decide +kernel⟩
    ⟨⟨by decide +kernel, by decide +kernel, by decide +kernel, by decide +kernel⟩, by decide +kernel⟩
    (.inr (by decide +kernel)) 0 (tickUs {}) (fun _ => 1500) others (by rw [Nat.cast_zero]; exact hpos)
    (by rw [Nat.cast_zero]; linarith) (by rw [hm]; exact hothers) ds hds).2.2.2 hreached
  exact ⟨hlast.1.1, hlast.2.2.2.1.trans (congrArg List.length hm)⟩

end Soft
end AvrCec
