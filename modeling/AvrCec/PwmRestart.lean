import AvrCec.AddrSearch
import AvrCec.Agreement

/-! The build with the soft receive driver and the PWM transmit driver after `cec_halt` and `cec_init`.

    Its `cec_receive_init` is empty: the edge timer, the last level and a sample that is due all outlast
    the two calls. When they are what a reset leaves (`Fresh`) the device agrees with one that has just
    booted (`Matched`): the period of a frame and the ack timer are written before they are read again,
    and Timer1's registers when it is next started. -/

namespace AvrCec
open Lib

/-- The transmit drivers differ in the registers of a PWM that does not reach the pin. -/
structure AgreePwm (p q : Pwm) : Prop where
  rest : q = { p with tcnt1 := q.tcnt1, ocr1b := q.ocr1b, ocr1c := q.ocr1c }
  regs : p.gtccr = .pwm → q = p

/-- The drivers behave alike from here on, up to the period of the frame under way. -/
structure AgreeSoft (u v : Soft) : Prop where
  timer : v.receiveFrameTimer = u.receiveFrameTimer
  last : v.lastState = u.lastState
  sample : v.sample = u.sample
  driven : v.driven = u.driven
  ackDone : u.driven = true → v.receiveFrameAckDone = u.receiveFrameAckDone
  pwm : AgreePwm u.pwm v.pwm

theorem agreePwm_abort {p q : Pwm} (h : AgreePwm p q) : AgreePwm p.cecTransmitAbort q.cecTransmitAbort :=
  ⟨congrArg Pwm.cecTransmitAbort h.rest, fun hg => Gtccr.noConfusion hg⟩

namespace Soft

theorem respects : Respects AgreeSoft where
  nack _ _ _ h := ⟨rfl, h.last, h.sample, rfl, fun _ => rfl, h.pwm⟩
  abort h := ⟨h.timer, h.last, h.sample, h.driven, h.ackDone, agreePwm_abort h.pwm⟩

/-- The devices behave alike from here on. -/
structure Matched (s t : Cec Soft) : Prop extends Agree AgreeSoft s t where
  place : s.rx.flags ≠ 0 ∨ s.hw.sample = true →
    t.rx = s.rx ∧ t.hw.receiveFramePeriod = s.hw.receiveFramePeriod

variable {s t : Cec Soft}

theorem untouched_period : Untouched Soft.receiveFramePeriod := ⟨fun _ => rfl, fun _ _ => rfl⟩

theorem untouched_sample : Untouched Soft.sample := ⟨fun _ => rfl, fun _ _ => rfl⟩

theorem agree_hw (h : Agree AgreeSoft s t) {u v : Soft} (huv : AgreeSoft u v) :
    Agree AgreeSoft { s with hw := u } { t with hw := v } :=
  ⟨h.build, h.addr, h.flags, h.buf, h.tx, huv⟩

/-- A change of the driver that arms no sample. -/
theorem matched_hw (h : Matched s t) {u v : Soft} (huv : AgreeSoft u v) (hs : u.sample = s.hw.sample)
    (hu : u.receiveFramePeriod = s.hw.receiveFramePeriod) (hv : v.receiveFramePeriod = t.hw.receiveFramePeriod) :
    Matched { s with hw := u } { t with hw := v } := by
  refine ⟨agree_hw h.toAgree huv, fun hlive => ?_⟩
  obtain ⟨hrx, hperiod⟩ := h.place (hlive.imp id fun hsample => hs.symm.trans hsample)
  exact ⟨hrx, hv.trans (hperiod.trans hu.symm)⟩

theorem matched_count (h : Matched s t) (delta : Nat) : Matched (softCount s delta) (softCount t delta) := by
  have hw := h.hw
  have htimer : cappedAdd t.hw.receiveFrameTimer delta = cappedAdd s.hw.receiveFrameTimer delta := by
    rw [hw.timer]
  exact matched_hw h ⟨htimer, hw.last, hw.sample, hw.driven, hw.ackDone, hw.pwm⟩ rfl rfl rfl

/-- Ending a reception. -/
theorem matched_receiveError (h : Matched s t) (err : Err) :
    Matched (cecReceiveError s err) (cecReceiveError t err) := by
  refine ⟨agree_receiveError respects h.toAgree err, fun hlive => ?_⟩
  have hsample : s.hw.sample = true := by
    rcases hlive with hne | hs
    · exact absurd (by rw [(receiveError_rx s err).1]) hne
    · rw [← untouched_sample.receiveError s err]; exact hs
  obtain ⟨hrx, hperiod⟩ := h.place (.inr hsample)
  rw [(receiveError_rx s err).1, (receiveError_rx t err).1, hrx, untouched_period.receiveError,
    untouched_period.receiveError]
  exact ⟨rfl, hperiod⟩

theorem matched_sample (h : Matched s t) (level : Bool) : Matched (softSample s level) (softSample t level) := by
  have hw := h.hw
  rw [softSample, softSample, hw.sample, hw.timer, h.build]
  by_cases hdue : s.hw.sample = true ∧ s.hw.receiveFrameTimer > usToJiffies s.build cecT3
  · rw [if_pos hdue, if_pos hdue]
    obtain ⟨hrx, hperiod⟩ := h.place (.inr hdue.1)
    have hoff : Agree AgreeSoft { s with hw := { s.hw with sample := false } }
        { t with hw := { t.hw with sample := false } } :=
      agree_hw h.toAgree ⟨hw.timer, hw.last, rfl, hw.driven, hw.ackDone, hw.pwm⟩
    rw [h.build] at hoff
    dsimp only
    split
    · exact matched_receiveError ⟨hoff, fun _ => ⟨hrx, hperiod⟩⟩ .hw
    · obtain ⟨hbit, hrx'⟩ := agree_receiveBit respects hoff hrx level
      refine ⟨hbit, fun _ => ⟨hrx', ?_⟩⟩
      rw [untouched_period.receiveBit, untouched_period.receiveBit]
      exact hperiod
  · rw [if_neg hdue, if_neg hdue]
    exact h

theorem softFloat_off (h : s.hw.driven = false) : softFloat s = s := by
  have hself : ({ s.hw with driven := false } : Soft) = s.hw := by rw [← h]
  rw [softFloat, hself, ite_self]

theorem matched_float (h : Matched s t) : Matched (softFloat s) (softFloat t) := by
  have hw := h.hw
  cases hd : s.hw.driven with
  | false =>
    rw [softFloat_off hd, softFloat_off (hw.driven.trans hd)]
    exact h
  | true =>
    have hoff : Matched { s with hw := { s.hw with driven := false } } { t with hw := { t.hw with driven := false } } :=
      matched_hw h ⟨hw.timer, hw.last, hw.sample, rfl, fun hd => Bool.noConfusion hd, hw.pwm⟩ rfl rfl rfl
    rw [softFloat, softFloat, hw.timer, hw.ackDone hd]
    split
    · exact hoff
    · exact h

theorem matched_hold (h : Matched s t) : Matched (softHold s) (softHold t) := by
  rw [softHold, softHold, h.hw.timer, h.build]
  by_cases hlive : s.rx.flags ≠ 0 ∨ s.hw.sample = true
  · rw [(h.place hlive).2]
    split
    · exact matched_receiveError h .noEom
    · exact h
  · -- no reception is open, and no error has an effect
    have h0 : s.rx.flags = 0 := by
      by_contra hne
      exact hlive (.inl hne)
    have h0' : t.rx.flags = 0 := h.flags.trans h0
    rw [receiveError_zero h0, receiveError_zero h0', ite_self, ite_self]
    exact h

theorem matched_rise (h : Matched s t) : Matched (softRise s) (softRise t) := by
  have hw := h.hw
  rw [softRise, softRise, hw.timer, h.build]
  split
  · have hperiod : Agree AgreeSoft
        { s with hw := { s.hw with receiveFramePeriod := usToJiffiesRnd s.build (cecStartHighEarly - 200) % 65536 } }
        { t with hw := { t.hw with receiveFramePeriod := usToJiffiesRnd s.build (cecStartHighEarly - 200) % 65536 } } :=
      agree_hw h.toAgree ⟨hw.timer, hw.last, hw.sample, hw.driven, hw.ackDone, hw.pwm⟩
    rw [h.build] at hperiod
    obtain ⟨hstart, hrx⟩ := agree_receiveStart hperiod
    exact ⟨hstart, fun _ => ⟨hrx, rfl⟩⟩
  · exact h

/-- A new frame. -/
theorem matched_frame (h : Matched s t) {n m : Nat} (hn : m = n) :
    Matched { s with hw := { s.hw with receiveFramePeriod := n, receiveFrameTimer := 0 } }
      { t with hw := { t.hw with receiveFramePeriod := m, receiveFrameTimer := 0 } } := by
  have hw := h.hw
  exact ⟨agree_hw h.toAgree ⟨rfl, hw.last, hw.sample, hw.driven, hw.ackDone, hw.pwm⟩,
    fun hlive => ⟨(h.place hlive).1, hn⟩⟩

/-- The ack of a falling edge. -/
theorem matched_drive (h : Matched s t) {n m : Nat} (hn : m = n) :
    Matched { s with hw := { s.hw with driven := true, receiveFrameAckDone := n } }
      { t with hw := { t.hw with driven := true, receiveFrameAckDone := m } } := by
  have hw := h.hw
  exact matched_hw h ⟨hw.timer, hw.last, hw.sample, rfl, fun _ => hn, hw.pwm⟩ rfl rfl rfl

/-- A falling edge arms a sample in an open reception only. -/
theorem matched_fall (h : Matched s t) : Matched (softFall s) (softFall t) := by
  have hw := h.hw
  have hlimit : ∀ {s' t' : Cec Soft}, Matched s' t' →
      usToJiffiesRnd t'.build (cecT7EarlyEnd - 50) % 65536 = usToJiffiesRnd s'.build (cecT7EarlyEnd - 50) % 65536 :=
    fun h' => by rw [h'.build]
  have hack : usToJiffies t.build cecT5Early0 % 65536 = usToJiffies s.build cecT5Early0 % 65536 := by rw [h.build]
  rw [softFall, softFall]
  refine (fun hin => matched_frame hin (hlimit hin)) ?_
  by_cases h0 : s.rx.flags ≠ 0
  · obtain ⟨hrx, hperiod⟩ := h.place (.inl h0)
    have harm : ∀ {s' t' : Cec Soft}, Matched s' t' → s'.rx.flags ≠ 0 →
        Matched { s' with hw := { s'.hw with sample := true } } { t' with hw := { t'.hw with sample := true } } := by
      intro s' t' h' h0'
      have hw' := h'.hw
      exact ⟨agree_hw h'.toAgree ⟨hw'.timer, hw'.last, rfl, hw'.driven, hw'.ackDone, hw'.pwm⟩,
        fun _ => h'.place (.inl h0')⟩
    rw [h.flags, if_pos h0, if_pos h0, hw.timer, hperiod]
    split
    · exact matched_receiveError h .lowDrive
    · dsimp only
      split
      · exact harm (matched_drive h hack) h0
      · exact harm h h0
  · rw [if_neg h0, if_neg (by rw [h.flags]; exact h0)]
    exact h

theorem matched_edge (h : Matched s t) (level : Bool) : Matched (softEdge s level) (softEdge t level) := by
  rw [softEdge, softEdge, h.hw.last]
  split
  · exact matched_hold h
  · split
    · exact matched_rise h
    · exact matched_fall h

theorem matched_recv (h : Matched s t) (delta : Nat) (level : Bool) :
    Matched (cecReceivePeriodic s delta level) (cecReceivePeriodic t delta level) := by
  have hedge := matched_edge (matched_float (matched_sample (matched_count h delta) level)) level
  rw [cecReceivePeriodic, cecReceivePeriodic]
  generalize softEdge (softFloat (softSample (softCount s delta) level)) level = s' at hedge
  generalize softEdge (softFloat (softSample (softCount t delta) level)) level = t' at hedge
  have hw := hedge.hw
  exact matched_hw hedge ⟨hw.timer, rfl, hw.sample, hw.driven, hw.ackDone, hw.pwm⟩ rfl rfl rfl

/-! ### The transmit driver -/

theorem matched_pwm (h : Matched s t) {f g : Pwm → Pwm} (hfg : AgreePwm (f s.hw.pwm) (g t.hw.pwm)) :
    Matched (setPwm s f) (setPwm t g) := by
  have hw := h.hw
  exact matched_hw h ⟨hw.timer, hw.last, hw.sample, hw.driven, hw.ackDone, hfg⟩ rfl rfl rfl

/-- The engine's calls for the transmit driver. -/
theorem matched_tx {s' t' : Cec Soft} (h : Matched s t) (ha : Agree AgreeSoft s' t') (hs : s'.rx = s.rx)
    (ht : t'.rx = t.rx) (hhs : s'.hw.sample = s.hw.sample)
    (hps : s'.hw.receiveFramePeriod = s.hw.receiveFramePeriod)
    (hpt : t'.hw.receiveFramePeriod = t.hw.receiveFramePeriod) : Matched s' t' := by
  refine ⟨ha, fun hlive => ?_⟩
  rw [hs, hhs] at hlive
  rw [hs, ht, hps, hpt]
  exact h.place hlive

theorem agreePwm_map {p q : Pwm} (h : AgreePwm p q) (f : Pwm → Pwm)
    (hrest : ∃ a b c, f q = { f p with tcnt1 := a, ocr1b := b, ocr1c := c })
    (hg : (f p).gtccr = p.gtccr) : AgreePwm (f p) (f q) := by
  obtain ⟨a, b, c, hq⟩ := hrest
  refine ⟨by rw [hq], fun hp => ?_⟩
  rw [h.regs (hg.symm.trans hp)]

theorem matched_onError (h : Matched s t) (err : Err) :
    Matched (cecTransmitOnError s err) (cecTransmitOnError t err) :=
  matched_tx h (agree_onError respects h.toAgree err) (sameReceive_onError s err).rx (sameReceive_onError t err).rx
    (untouched_sample.onError s err) (untouched_period.onError s err) (untouched_period.onError t err)

/-- The registers and the driver's state, set alike. -/
theorem matched_set (h : Matched s t) (f : Pwm → Pwm)
    (hf : ∀ p a b c, ∃ a' b' c', f { p with tcnt1 := a, ocr1b := b, ocr1c := c } =
      { f p with tcnt1 := a', ocr1b := b', ocr1c := c' })
    (hg : ∀ p, (f p).gtccr = p.gtccr) : Matched (setPwm s f) (setPwm t f) := by
  have hpwm := h.hw.pwm
  refine matched_pwm h (agreePwm_map hpwm f ?_ (hg _))
  obtain ⟨a, b, c, hq⟩ := hf s.hw.pwm t.hw.pwm.tcnt1 t.hw.pwm.ocr1b t.hw.pwm.ocr1c
  exact ⟨a, b, c, by rw [← hq, ← hpwm.rest]⟩

theorem matched_nextBit (h : Matched s t) (hb : s.tx.state.busy) : Matched (pwmNextBit s) (pwmNextBit t) := by
  obtain ⟨hget, hbit⟩ := agree_getBit h.toAgree hb
  have hget' := matched_tx h hget rfl rfl rfl rfl rfl
  rw [pwmNextBit, pwmNextBit, hbit, h.build, hget.tx.state]
  exact matched_set hget' (fun p => { p with
    ocr1b := ocr (usToCecJiffies s.build (if (cecTransmitGetBit s).2 then cec1 else cec0))
    xmitState := if (cecTransmitGetBit s).1.tx.state = .waitForAck then .end1 else .running })
    (fun _ _ _ _ => ⟨_, _, _, rfl⟩) fun _ => rfl

/-- The driver's states that fetch a bit do so in an attempt. -/
theorem fetching_busy (h : Matched s t) (hf : Framed Busy t) (hx : s.hw.pwm.xmitState = .start ∨ s.hw.pwm.xmitState = .running) :
    s.tx.state.busy := by
  have hxt : t.hw.pwm.xmitState = s.hw.pwm.xmitState := by rw [h.hw.pwm.rest]
  have hasks := hf.asks (by rw [Busy, hxt]; exact hx)
  rw [h.tx.state] at hasks
  rcases hasks with hs | hs <;> rw [hs] <;> decide

theorem matched_pwmPeriodic (h : Matched s t) (hf : Framed Busy t) :
    Matched (xmitPwmPeriodic s) (xmitPwmPeriodic t) := by
  have htov : t.hw.pwm.tov1 = s.hw.pwm.tov1 := by rw [h.hw.pwm.rest]
  rw [xmitPwmPeriodic, xmitPwmPeriodic, htov]
  split
  · exact h
  · have hclear : Matched (setPwm s fun p => { p with tov1 := false }) (setPwm t fun p => { p with tov1 := false }) :=
      matched_set h _ (fun _ _ _ _ => ⟨_, _, _, rfl⟩) fun _ => rfl
    have hasks : s.hw.pwm.xmitState = .start ∨ s.hw.pwm.xmitState = .running →
        (setPwm s fun p => { p with tov1 := false }).tx.state.busy := fetching_busy h hf
    have hx : (setPwm s fun p => { p with tov1 := false }).hw.pwm.xmitState = s.hw.pwm.xmitState := rfl
    generalize (setPwm s fun p => { p with tov1 := false }) = s' at hclear hasks hx
    generalize (setPwm t fun p => { p with tov1 := false }) = t' at hclear
    have hx' : t'.hw.pwm.xmitState = s.hw.pwm.xmitState := by rw [hclear.hw.pwm.rest]; exact hx
    dsimp only
    rw [hx, hx', hclear.flags, hclear.build]
    cases hxs : s.hw.pwm.xmitState with
    | running =>
      dsimp only
      split
      · exact matched_onError hclear .arbLost
      · exact matched_nextBit (matched_set hclear _ (fun _ _ _ _ => ⟨_, _, _, rfl⟩) fun _ => rfl) (hasks (.inr hxs))
    | start => exact matched_nextBit hclear (hasks (.inl hxs))
    | end1 => exact matched_set hclear _ (fun _ _ _ _ => ⟨_, _, _, rfl⟩) fun _ => rfl
    | end2 => exact matched_set hclear _ (fun _ _ _ _ => ⟨_, _, _, rfl⟩) fun _ => rfl
    | idle => exact hclear
    | done => exact hclear

/-- The frame of the start bit. -/
def startFrame (period low : Nat) (p : Pwm) : Pwm :=
  { p with tcnt1 := period - 1, ocr1c := period, gtccr := .pwm, ocr1b := low, xmitState := .start }

theorem xmitStart_eq (s : Cec Soft) :
    xmitStart s =
      setPwm (cecTransmitStart (setPwm s
          (startFrame (ocr (usToCecJiffies s.build cecStartHigh)) (ocr (usToCecJiffies s.build cecStartLow)))))
        fun p => { p with tccr1 := tcnt1PrescalerVal s.build } := rfl

/-- All of Timer1's registers are set before it runs. -/
theorem matched_xmitStart (h : Matched s t) (hp : s.tx.state.pending) : Matched (xmitStart s) (xmitStart t) := by
  have hpwm := h.hw.pwm
  have hregs : ∀ period low, Matched (setPwm s (startFrame period low)) (setPwm t (startFrame period low)) := by
    intro period low
    refine matched_pwm h ⟨?_, fun _ => ?_⟩ <;> rw [hpwm.rest] <;> rfl
  rw [xmitStart_eq, xmitStart_eq, h.build]
  have hset := hregs (ocr (usToCecJiffies s.build cecStartHigh)) (ocr (usToCecJiffies s.build cecStartLow))
  have hstart := matched_tx hset (agree_transmitStart hset.toAgree hp) rfl rfl rfl rfl rfl
  exact matched_set hstart _ (fun _ _ _ _ => ⟨_, _, _, rfl⟩) fun _ => rfl

theorem matched_xmit (h : Matched s t) (hf : Framed Busy t) (delta : Nat) (level : Bool) :
    Matched (cecTransmitPeriodic s delta level) (cecTransmitPeriodic t delta level) := by
  have hx : t.hw.pwm.xmitState = s.hw.pwm.xmitState := by rw [h.hw.pwm.rest]
  have hpoll : Matched (if s.hw.pwm.xmitState ≠ .idle then xmitPwmPeriodic s else s)
      (if s.hw.pwm.xmitState ≠ .idle then xmitPwmPeriodic t else t) := by
    split
    · exact matched_pwmPeriodic h hf
    · exact h
  rw [cecTransmitPeriodic, cecTransmitPeriodic, hx]
  generalize (if s.hw.pwm.xmitState ≠ .idle then xmitPwmPeriodic s else s) = s' at hpoll
  generalize (if s.hw.pwm.xmitState ≠ .idle then xmitPwmPeriodic t else t) = t' at hpoll
  dsimp only
  split
  · exact matched_set hpoll _ (fun _ _ _ _ => ⟨_, _, _, rfl⟩) fun _ => rfl
  · have hcount : Matched
        (setPwm s' fun p => { p with transmitHighTimer := cappedAdd p.transmitHighTimer delta })
        (setPwm t' fun p => { p with transmitHighTimer := cappedAdd p.transmitHighTimer delta }) :=
      matched_set hpoll _ (fun _ _ _ _ => ⟨_, _, _, rfl⟩) fun _ => rfl
    generalize (setPwm s' fun p => { p with transmitHighTimer := cappedAdd p.transmitHighTimer delta }) = s'' at hcount
    generalize (setPwm t' fun p => { p with transmitHighTimer := cappedAdd p.transmitHighTimer delta }) = t'' at hcount
    have hhigh : t''.hw.pwm.transmitHighTimer = s''.hw.pwm.transmitHighTimer := by rw [hcount.hw.pwm.rest]
    have hidle : t''.hw.pwm.xmitState = s''.hw.pwm.xmitState := by rw [hcount.hw.pwm.rest]
    rw [hhigh, hcount.tx.needed, hidle, hcount.tx.state]
    split
    · exact hcount
    · split
      · next hc => exact matched_xmitStart hcount hc.2
      · exact hcount

/-- A change of the buffer alone on the receive side, and of nothing of the driver. -/
theorem Matched.of_buf {s' t' : Cec Soft} (h : Matched s t) (ha : Agree AgreeSoft s' t')
    (hs : s'.rx = { s.rx with buf := s'.rx.buf }) (ht : t'.rx = { t.rx with buf := t'.rx.buf })
    (hhs : s'.hw = s.hw) (hht : t'.hw = t.hw) : Matched s' t' := by
  have hflags : s'.rx.flags = s.rx.flags := by rw [hs]
  refine ⟨ha, fun hlive => ?_⟩
  rw [hflags, hhs] at hlive
  obtain ⟨hrx, hperiod⟩ := h.place hlive
  rw [hhs, hht, ht, hs, ha.buf, hrx]
  exact ⟨rfl, hperiod⟩

theorem matched_step (h : Matched s t) (hf : Framed Busy t) (i : Step) : Matched (step i s) (step i t) := by
  cases i with
  | recv delta level => exact matched_recv h delta level
  | xmit delta level => exact matched_xmit h hf delta level
  | addr =>
    exact h.of_buf (agree_addrPeriodic h.toAgree) (addrPeriodic_rx s) (addrPeriodic_rx t)
      (Usi.addrPeriodic_hw s) (Usi.addrPeriodic_hw t)
  | overflow =>
    have htccr : t.hw.pwm.tccr1 = s.hw.pwm.tccr1 := by rw [h.hw.pwm.rest]
    rw [step, step, timerOverflow, timerOverflow, htccr]
    split
    · exact matched_set h _ (fun _ _ _ _ => ⟨_, _, _, rfl⟩) fun _ => rfl
    · exact h
  | app a => exact h.of_buf (agree_app h.toAgree a) (app_rx s a) (app_rx t a) (Usi.app_hw s a) (Usi.app_hw t a)

/-! ### The firmware -/

variable {build : Build} {addr : Addr}

theorem runs_step (h : Runs build addr s) (i : Step) : Runs build addr (step i s) := by
  have hbit : ∀ (t : Cec Soft) level, t.build = build → (cecReceiveBit t level).build = build :=
    fun t level ht => (receiveBit_build t level).1.trans ht
  have hbuild : ∀ i, (step i s).build = build := fun i =>
    kept_step (kept_build build) h.build i fun _ _ _ _ t _ _ ht => hbit t _ ht
  cases i with
  | recv delta level =>
    exact h.of_eq ((hbuild (.recv delta level)).trans h.build.symm) (keptTx_recv (keptTx_addr fetches s.addr) rfl delta level)
  | xmit delta level =>
    exact h.of_eq ((hbuild (.xmit delta level)).trans h.build.symm) (keptXmit_periodic (keptPwm_addr s.addr).toKeptXmit rfl delta level)
  | addr => exact h.addrPeriodic
  | overflow =>
    rw [step, timerOverflow]
    split
    · exact h.of_eq rfl rfl
    · exact h
  | app a => exact h.app a

/-- A step, `cec_halt` or `cec_init`. -/
def op : Op Step → Cec Soft → Cec Soft
  | .step i, s => step i s
  | .halt, s => cecHalt s
  | .init, s => cecInit s

theorem runs_op (h : Runs build addr s) (o : Op Step) : Runs build addr (op o s) := by
  cases o with
  | step i => exact runs_step h i
  | halt =>
    have haddr : (cecReceiveError s .halt).addr = s.addr := (keptTx_addr fetches s.addr).receiveError rfl .halt
    rw [op, cecHalt]
    exact Runs.addrInit (h.of_eq ((halted_build _).trans (receiveError_rx s .halt).2.1) ((halted_addr _).trans haddr))
  | init =>
    rw [op, cecInit]
    exact Runs.addrInit (h.of_eq (inited_build ..) (inited_addr ..))

theorem runs_run (build : Build) (addr : Addr) (os : List (Op Step)) :
    Runs build addr (run op (initial build addr) os) := by
  have hstep : ∀ (s : Cec Soft) (o : Op Step), Runs build addr s → Runs build addr (op o s) := fun s o h => runs_op h o
  have hboot : Runs build addr (boot build addr ({} : Soft)) := ⟨rfl, rfl⟩
  exact invariant_run' hstep os (runs_op hboot .init)

/-! ### The restart -/

/-- The variables that neither `cec_halt` nor `cec_init` writes, and that are read again, are what a
    reset leaves. The halt of a broadcast restarts the edge timer, and it stops a transmitter that it
    reaches. -/
structure Fresh (s : Cec Soft) : Prop where
  timer : s.hw.receiveFrameTimer = 0 ∨ s.rx.flags.bcast = true
  last : s.hw.lastState = false
  sample : s.hw.sample = false
  highTimer : s.hw.pwm.transmitHighTimer = 0
  stopped : s.hw.pwm.xmitState = .idle ∧ s.hw.pwm.tccr1 = 0 ∨ s.rx.flags ≠ 0 ∧ s.tx.state.busy
  tov1 : s.hw.pwm.tov1 = false
  lastBit : s.tx.lastBit % 4 = 0
  buf : ∀ i, i ≠ s.build.hdr → s.rx.buf i = 0

/-- What Timer1 does to the pin: nothing while it is forced. -/
def pin (p : Pwm) : Option (Nat × Nat × Nat × Nat) :=
  if p.gtccr = .pwm then some (p.tccr1, p.tcnt1, p.ocr1b, p.ocr1c) else none

/-- What can be seen of a device: the receive buffer, `transmit_state` and the line. -/
def seen (s : Cec Soft) : (Nat → Nat) × TransmitState × Bool × Option (Nat × Nat × Nat × Nat) :=
  (s.rx.buf, s.tx.state, s.hw.driven, pin s.hw.pwm)

theorem agreePwm_pin {p q : Pwm} (h : AgreePwm p q) : pin q = pin p := by
  by_cases hg : p.gtccr = .pwm
  · rw [h.regs hg]
  · have hg' : q.gtccr = p.gtccr := by rw [h.rest]
    rw [pin, pin, if_neg hg, if_neg (by rw [hg']; exact hg)]

theorem Matched.seen (h : Matched s t) : seen t = seen s := by
  rw [Soft.seen, Soft.seen, h.buf, h.tx.state, h.hw.driven, agreePwm_pin h.hw.pwm]

theorem restart_timer (hf : Fresh s) : (cecReceiveError s .halt).hw.receiveFrameTimer = 0 := by
  have habort : ∀ u : Soft, (Driver.cecTransmitAbort u).receiveFrameTimer = u.receiveFrameTimer := fun _ => rfl
  by_cases h0 : s.rx.flags = 0
  · have hbcast : s.rx.flags.bcast ≠ true := by rw [h0]; exact Bool.false_ne_true
    rw [receiveError_zero h0]
    exact hf.timer.resolve_right hbcast
  · have hnack : (if s.rx.flags.bcast then Driver.cecReceiveNackFrame s.build s.hw else s.hw).receiveFrameTimer = 0 := by
      split
      · rfl
      · next hb => exact hf.timer.resolve_right hb
    rw [receiveError_hw s .halt h0]
    dsimp only
    split
    · rw [habort]; exact hnack
    · exact hnack

theorem restart_stopped (hf : Fresh s) :
    (cecReceiveError s .halt).hw.pwm.xmitState = .idle ∧ (cecReceiveError s .halt).hw.pwm.tccr1 = 0 := by
  have hnack : ∀ u : Soft, (if s.rx.flags.bcast then Driver.cecReceiveNackFrame s.build u else u).pwm = u.pwm := by
    intro u
    split
    · exact nackFrame_pwm ..
    · rfl
  have habort : ∀ u : Soft, (Driver.cecTransmitAbort u).pwm.xmitState = .idle ∧ (Driver.cecTransmitAbort u).pwm.tccr1 = 0 :=
    fun _ => ⟨rfl, rfl⟩
  by_cases h0 : s.rx.flags = 0
  · rw [receiveError_zero h0]
    exact hf.stopped.resolve_right fun h => h.1 h0
  · rw [receiveError_hw s .halt h0]
    dsimp only
    split
    · exact habort _
    · next hb =>
      rw [hnack]
      exact hf.stopped.resolve_right fun h => hb h.2

theorem restart_hw (s : Cec Soft) : (cecInit (cecHalt s)).hw = (cecReceiveError s .halt).hw.initHw := by
  rw [cecInit, addrInit_hw, inited_hw, cecHalt, addrInit_hw, halted_hw]

theorem restart_tx (s : Cec Soft) :
    (cecInit (cecHalt s)).tx = { (cecReceiveError s .halt).tx with
      state := .idle, needed := Driver.idleWait Soft (cecHalt s).build cecNewPeriodWait } := by
  have hhalt : (cecHalt s).tx = { (cecReceiveError s .halt).tx with state := .idle } := by
    rw [cecHalt, addrInit_tx (by rw [halted_tx]), halted_tx]
  have hinit : ∀ u : Cec Soft, u.tx.state = .idle →
      (cecInit u).tx = { u.tx with needed := Driver.idleWait Soft u.build cecNewPeriodWait } := by
    intro u hu
    rw [cecInit, addrInit_tx (by rw [inited_tx]; exact hu), inited_tx]
  rw [hinit (cecHalt s) (by rw [hhalt]), hhalt]

theorem restart_rx (s : Cec Soft) :
    (cecInit (cecHalt s)).rx = { s.rx with flags := 0, buf := Function.update s.rx.buf s.build.hdr 0 } := by
  rw [cecInit, addrInit_rx, inited_rx, cecHalt, addrInit_rx, halted_rx]

theorem agreeSoft_restart (hf : Fresh s) : AgreeSoft (cecReceiveError s .halt).hw.initHw (initHw {}) := by
  have hlast : Untouched Soft.lastState := ⟨fun _ => rfl, fun _ _ => rfl⟩
  have hhigh : Untouched fun u : Soft => u.pwm.transmitHighTimer := ⟨fun _ => rfl, fun _ _ => rfl⟩
  have htov : Untouched fun u : Soft => u.pwm.tov1 := ⟨fun _ => rfl, fun _ _ => rfl⟩
  have h1 := restart_timer hf
  have h2 := (hlast.receiveError s .halt).trans hf.last
  have h3 := (untouched_sample.receiveError s .halt).trans hf.sample
  have h4 : (cecReceiveError s .halt).hw.pwm.transmitHighTimer = 0 := (hhigh.receiveError s .halt).trans hf.highTimer
  have h5 : (cecReceiveError s .halt).hw.pwm.tov1 = false := (htov.receiveError s .halt).trans hf.tov1
  obtain ⟨h6, h7⟩ := restart_stopped hf
  generalize (cecReceiveError s .halt).hw = u at *
  have hpwm : AgreePwm { u.pwm with gtccr := .forced } { ({} : Pwm) with gtccr := .forced } := by
    refine ⟨?_, fun hg => Gtccr.noConfusion hg⟩
    rw [h4, h5, h6, h7]
  exact ⟨h1.symm, h2.symm, h3.symm, rfl, fun hd => Bool.noConfusion hd, hpwm⟩

/-- The device after `cec_halt` and `cec_init`, and one that has just booted. -/
theorem matched_restart (hf : Fresh s) (hr : Runs build addr s) :
    Matched (cecInit (cecHalt s)) (initial build addr) := by
  have hrx := restart_rx s
  have htx := restart_tx s
  have hhw := restart_hw s
  have hhalt : Runs build addr (cecHalt s) := runs_op hr .halt
  have hruns : Runs build addr (cecInit (cecHalt s)) := runs_op hhalt .init
  have haddr : (cecInit (cecHalt s)).addr = (initial build addr).addr := by
    rw [cecInit, initial, cecInit, addrInit_addr, addrInit_addr, inited_addr, inited_addr]
    exact hhalt.addr
  have hbuild : (initial build addr).build = build := by rw [initial, cecInit, addrInit_build, inited_build]; rfl
  have hbuf : Function.update s.rx.buf s.build.hdr 0 = fun _ => 0 := by
    funext i
    by_cases hi : i = s.build.hdr
    · rw [hi, Function.update_self]
    · rw [Function.update_of_ne hi, hf.buf i hi]
  have hinit : (initial build addr).rx = {} := by rw [initial, cecInit, addrInit_rx, inited_rx]; rfl
  have hinit_tx : (initial build addr).tx = { ({} : Transmit) with needed := Driver.idleWait Soft build cecNewPeriodWait } := by
    rw [initial, cecInit, addrInit_tx (by rw [inited_tx]; rfl), inited_tx]
    rfl
  have hinit_hw : (initial build addr).hw = initHw {} := by rw [initial, cecInit, addrInit_hw, inited_hw]; rfl
  refine ⟨⟨hbuild.trans hruns.build.symm, haddr.symm, ?_, ?_, ?_, ?_⟩, fun hlive => ?_⟩
  · rw [hrx, hinit]
  · rw [hrx, hinit, hbuf]
  · rw [htx, hinit_tx, hhalt.build]
    refine agreeTx_idle rfl rfl rfl ?_
    change 0 % 4 = (cecReceiveError s .halt).tx.lastBit % 4
    rw [receiveError_lastBit, hf.lastBit]
  · rw [hhw, hinit_hw]
    exact agreeSoft_restart hf
  · rw [hrx, hhw] at hlive
    rcases hlive with hne | hsample
    · exact absurd rfl hne
    · have hoff := (untouched_sample.receiveError s .halt).trans hf.sample
      exact absurd (hoff.symm.trans hsample) Bool.false_ne_true

/-- A later run of a device restarted in a fresh state. -/
theorem restart_seen (hf : Fresh s) (hr : Runs build addr s) (is : List Step) :
    seen (run step (cecInit (cecHalt s)) is) = seen (run step (initial build addr) is) := by
  have hstep : ∀ (s t : Cec Soft) (i : Step), Matched s t ∧ Framed Busy t →
      Matched (step i s) (step i t) ∧ Framed Busy (step i t) :=
    fun s t i h => ⟨matched_step h.1 h.2 i, framed_step h.2 i⟩
  exact (lockstep_run' hstep is ⟨matched_restart hf hr, framed_run build addr []⟩).1.seen.symm

end Soft

end AvrCec
