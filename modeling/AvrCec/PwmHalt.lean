import AvrCec.Attempt

/-! `cec_halt` in the build with the soft receive driver and the PWM transmit driver.

    Neither driver has anything of its own to halt: the PWM runs on unless an abort stops it, and the
    receive driver keeps driving the line, the nack of a broadcast under way included
    (`Soft.parked_iff`). -/

namespace AvrCec
open Lib

namespace Soft

/-- The receive driver lets the line float, and the PWM is not running. -/
def Floating (u : Soft) : Prop := u.driven = false ∧ u.pwm.tccr1 = 0

/-- The driver is in one of the states that fetch bits. -/
def Busy (u : Soft) : Prop := u.pwm.xmitState = .start ∨ u.pwm.xmitState = .running

theorem nackFrame_pwm (b : Build) (u : Soft) : (Driver.cecReceiveNackFrame b u).pwm = u.pwm := pwm_mk ..

theorem fetches : Fetches Soft.pwm Busy where
  congr hv h := by rw [Busy, ← hv]; exact h
  nack := nackFrame_pwm
  abort _ h := by rcases h with h | h <;> exact PwmState.noConfusion h

theorem not_busy {u : Soft} {x : PwmState} (h : u.pwm.xmitState = x) (h₁ : x ≠ .start) (h₂ : x ≠ .running) :
    ¬ Busy u := by
  rintro (hb | hb)
  · exact h₁ (h.symm.trans hb)
  · exact h₂ (h.symm.trans hb)

/-- What the PWM driver does to the transmit side, apart from fetching a bit and starting, with the error
    that it reports itself. -/
structure KeptXmit (P : Cec Soft → Prop) : Prop where
  lost : ∀ {s : Cec Soft}, P s → P (cecTransmitOnError s .arbLost)
  /-- Its registers other than the clock select. -/
  regs : ∀ {s : Cec Soft} (f : Pwm → Pwm), P s → (f s.hw.pwm).xmitState = s.hw.pwm.xmitState →
    (f s.hw.pwm).tccr1 = s.hw.pwm.tccr1 → P (setPwm s f)
  /-- The end of a message. -/
  end1 : ∀ {s : Cec Soft}, P s → s.hw.pwm.xmitState = .end1 →
    P (setPwm s fun p => { p with ocr1b := 0, xmitState := .end2 })
  end2 : ∀ {s : Cec Soft}, P s → P (setPwm s fun p => { p with tccr1 := 0, xmitState := .idle })
  fetch : ∀ {s : Cec Soft}, P s → Busy s.hw → P (pwmNextBit s)
  begin : ∀ {s : Cec Soft}, P s → s.hw.pwm.xmitState = .idle → s.tx.state.pending → P (xmitStart s)

/-- What the receive side and the PWM driver do to the transmit side. -/
structure KeptPwm (P : Cec Soft → Prop) : Prop extends KeptTx Soft.pwm P, KeptXmit P where
  lost := fun h => toKeptTx.error h .arbLost

variable {P : Cec Soft → Prop}

theorem keptXmit_pwm (hP : KeptXmit P) {s : Cec Soft} (hs : P s) : P (xmitPwmPeriodic s) := by
  rw [xmitPwmPeriodic]
  split
  · exact hs
  · have ht : P (setPwm s fun p => { p with tov1 := false }) := hP.regs _ hs rfl rfl
    generalize (setPwm s fun p => { p with tov1 := false }) = t at ht
    dsimp only
    split
    · next hx =>
      split
      · exact hP.lost ht
      · exact hP.fetch (hP.regs _ ht rfl rfl) (.inr hx)
    · next hx => exact hP.fetch ht (.inl hx)
    · next hx => exact hP.end1 ht hx
    · exact hP.end2 ht
    · exact ht
    · exact ht

theorem keptXmit_periodic (hP : KeptXmit P) {s : Cec Soft} (hs : P s) (delta : Nat) (level : Bool) :
    P (cecTransmitPeriodic s delta level) := by
  have ht : P (if s.hw.pwm.xmitState ≠ .idle then xmitPwmPeriodic s else s) := by
    split
    · exact keptXmit_pwm hP hs
    · exact hs
  rw [cecTransmitPeriodic]
  generalize (if s.hw.pwm.xmitState ≠ .idle then xmitPwmPeriodic s else s) = t at ht
  dsimp only
  split
  · exact hP.regs _ ht rfl rfl
  · have hu : P (setPwm t fun p => { p with transmitHighTimer := cappedAdd p.transmitHighTimer delta }) :=
      hP.regs _ ht rfl rfl
    generalize (setPwm t fun p =>
      { p with transmitHighTimer := cappedAdd p.transmitHighTimer delta }) = u at hu
    split
    · exact hu
    · split
      · next hc => exact hP.begin hu hc.1 hc.2
      · exact hu

/-- A step that queues no message keeps what the receive side and the PWM driver keep. -/
theorem keptTx_step (hP : KeptPwm P) (hassign : ∀ {s : Cec Soft} m, P s → P { s with addr := .bitfield m })
    (hstatic : ∀ {s : Cec Soft}, P s → s.addr.Static) {s : Cec Soft} (hs : P s) {i : Step}
    (hi : ¬ QueuesMessage .app i) : P (step i s) := by
  cases i with
  | recv delta level => exact keptTx_recv hP.toKeptTx hs delta level
  | xmit delta level => exact keptXmit_periodic hP.toKeptXmit hs delta level
  | addr =>
    rw [step, addrPeriodic_static (hstatic hs)]
    exact hs
  | overflow =>
    rw [step, timerOverflow]
    split
    · exact hP.regs _ hs rfl rfl
    · exact hs
  | app a =>
    cases a with
    | clear => exact hP.same hs rfl rfl rfl (clearHeader_told s)
    | send message => exact absurd ⟨message, rfl⟩ hi
    | assign m =>
      rw [step, App.step]
      split
      · exact hassign m hs
      · exact hs

theorem keptPwm_attempt (u : Cec Soft) : KeptPwm (Attempt Busy u) where
  toKeptTx := keptTx_attempt fetches u
  regs f h hx _ := h.mono h.static rfl (fun hb => by rw [Busy, ← hx]; exact hb) rfl
  end1 h _ := h.mono h.static rfl (fun hb => absurd hb (not_busy rfl PwmState.noConfusion PwmState.noConfusion)) rfl
  end2 h := h.mono h.static rfl (fun hb => absurd hb (not_busy rfl PwmState.noConfusion PwmState.noConfusion)) rfl
  fetch {s} h hb := by
    refine h.fetch hb rfl rfl rfl fun hf hw => ?_
    have hx : (pwmNextBit s).hw.pwm.xmitState = .end1 := if_pos hw
    exact not_busy hx PwmState.noConfusion PwmState.noConfusion hf
  begin h _ _ := h.start rfl rfl rfl

theorem keptPwm_silent : KeptPwm (Silent Busy) where
  toKeptTx := keptTx_silent fetches
  regs f h hx _ := h.mono h.static rfl (fun hb => by rw [Busy, ← hx]; exact hb) rfl
  end1 h _ := h.mono h.static rfl (fun hb => absurd hb (not_busy rfl PwmState.noConfusion PwmState.noConfusion)) rfl
  end2 h := h.mono h.static rfl (fun hb => absurd hb (not_busy rfl PwmState.noConfusion PwmState.noConfusion)) rfl
  fetch h hb := absurd hb h.parked
  begin h _ hp := absurd hp (by rw [h.state]; decide)

theorem silent_step {s : Cec Soft} (h : Silent Busy s) {i : Step} (hi : ¬ QueuesMessage .app i) :
    Silent Busy (step i s) :=
  keptTx_step keptPwm_silent (fun _ h => h.mono trivial rfl id rfl) (·.static) h hi

theorem keepsAttempt : KeepsAttempt Busy step :=
  keepsAttempt_of_step (fun _ _ => rfl) fun hs hi =>
    keptTx_step (keptPwm_attempt _) (fun _ h => h.mono trivial rfl id rfl) (·.static) hs hi

/-! ### The state a halt leaves -/

/-- The PWM runs exactly while the driver is not idle, and the wait for a quiet line has 16 bits. -/
structure Reach (s : Cec Soft) : Prop where
  static : s.addr.Static
  clocked : s.hw.pwm.tccr1 = 0 ↔ s.hw.pwm.xmitState = .idle
  needed : s.tx.needed < 65536

theorem idleWait_lt (b : Build) (n : Nat) : Driver.idleWait Soft b n < 65536 := Nat.mod_lt _ (by decide)

theorem onError_needed {s : Cec Soft} (h : s.tx.needed < 65536) (err : Err) :
    (cecTransmitOnError s err).tx.needed < 65536 := by
  rw [cecTransmitOnError]
  split
  · rw [cecTransmitFinishAbort]
    dsimp only
    split
    · exact h
    · exact idleWait_lt ..
  · exact h

theorem getBit_needed_lt {t : Transmit} (h : t.needed < 65536) {present : Nat} (hp : present < 65536) :
    (t.getBit present).1.needed < 65536 := by
  rw [Transmit.getBit]
  dsimp only
  repeat' split
  all_goals assumption

theorem start_needed (s : Cec Soft) : (cecTransmitStart s).tx.needed = s.tx.needed := by
  change (if s.tx.state = .pend then _ else _ : Transmit).needed = _
  split <;> rfl

theorem onError_pwm (s : Cec Soft) (err : Err) :
    (cecTransmitOnError s err).hw.pwm
      = if s.tx.state.busy then s.hw.pwm.cecTransmitAbort else s.hw.pwm := by
  rw [onError_hw]
  split <;> rfl

theorem keptPwm_reach : KeptPwm Reach where
  same h ha ht hv _ := ⟨ha ▸ h.static, by rw [show _ = _ from hv]; exact h.clocked, by rw [ht]; exact h.needed⟩
  nack := nackFrame_pwm
  needed n hn h := ⟨h.static, h.clocked, hn.elim fun _ h => h ▸ idleWait_lt ..⟩
  onError {s} err h hb := by
    refine ⟨by rw [(sameReceive_onError s err).addr]; exact h.static, ?_, onError_needed h.needed err⟩
    rw [onError_pwm, if_pos hb]
    exact ⟨fun _ => rfl, fun _ => rfl⟩
  acked {s} h hw := by
    have haddr := (sameReceive_receiveAck s true).addr
    rw [cecTransmitReceiveAck, if_pos rfl, if_pos hw] at haddr ⊢
    exact ⟨by rw [haddr]; exact h.static, h.clocked, h.needed⟩
  regs f h hx ht := by
    refine ⟨h.static, ?_, h.needed⟩
    change (f _).tccr1 = 0 ↔ (f _).xmitState = .idle
    rw [hx, ht]
    exact h.clocked
  end1 {s} h hx := by
    refine ⟨h.static, ?_, h.needed⟩
    change s.hw.pwm.tccr1 = 0 ↔ PwmState.end2 = .idle
    rw [h.clocked, hx]
    exact ⟨PwmState.noConfusion, PwmState.noConfusion⟩
  end2 h := ⟨h.static, ⟨fun _ => rfl, fun _ => rfl⟩, h.needed⟩
  fetch {s} h hb := by
    refine ⟨h.static, ?_, getBit_needed_lt h.needed (idleWait_lt ..)⟩
    change s.hw.pwm.tccr1 = 0 ↔ (if (cecTransmitGetBit s).1.tx.state = .waitForAck then PwmState.end1 else .running) = .idle
    rw [h.clocked]
    constructor
    · intro hi
      rcases hb with hx | hx <;> rw [hx] at hi <;> exact PwmState.noConfusion hi
    · intro hi
      split at hi <;> exact PwmState.noConfusion hi
  begin {s} h _ _ := by
    refine ⟨h.static, ?_, (start_needed _).trans_lt h.needed⟩
    change tcnt1PrescalerVal s.build = 0 ↔ PwmState.start = .idle
    rw [tcnt1PrescalerVal]
    exact ⟨fun h0 => absurd h0 (by omega), fun hi => PwmState.noConfusion hi⟩

theorem reach_step {s : Cec Soft} (h : Reach s) (i : Step) : Reach (step i s) := by
  by_cases hi : QueuesMessage .app i
  · obtain ⟨message, rfl⟩ := hi
    rw [step, App.step]
    split
    · exact ⟨h.static, h.clocked, h.needed⟩
    · exact h
  · exact keptTx_step keptPwm_reach (fun _ h => ⟨trivial, h.clocked, h.needed⟩) (·.static) h hi

/-- What a halt does to the driver: it ends the reception, and nothing else. -/
theorem halt_hw (s : Cec Soft) : (cecHalt s).hw = (cecReceiveError s .halt).hw := by
  rw [cecHalt, addrInit_hw]
  rfl

theorem halt_driven (s : Cec Soft) :
    (cecHalt s).hw.driven = if s.rx.flags ≠ 0 ∧ s.rx.flags.bcast = true then true else s.hw.driven := by
  rw [halt_hw]
  by_cases h0 : s.rx.flags = 0
  · rw [receiveError_zero h0, if_neg (fun h => h.1 h0)]
  · rw [receiveError_hw s .halt h0]
    dsimp only
    by_cases hb : s.rx.flags.bcast = true
    · have hc : s.rx.flags ≠ 0 ∧ s.rx.flags.bcast = true := ⟨h0, hb⟩
      simp only [if_pos hb, if_pos hc]
      split <;> rfl
    · have hc : ¬ (s.rx.flags ≠ 0 ∧ s.rx.flags.bcast = true) := fun h => hb h.2
      simp only [if_neg hb, if_neg hc]
      split <;> rfl

theorem halt_xmitState (s : Cec Soft) :
    (cecHalt s).hw.pwm.xmitState
      = if s.rx.flags ≠ 0 ∧ s.tx.state.busy then .idle else s.hw.pwm.xmitState := by
  rw [halt_hw]
  by_cases h0 : s.rx.flags = 0
  · rw [receiveError_zero h0, if_neg (fun h => h.1 h0)]
  · have hnack : (if s.rx.flags.bcast then Driver.cecReceiveNackFrame s.build s.hw else s.hw).pwm
        = s.hw.pwm := by
      split
      · exact nackFrame_pwm ..
      · rfl
    rw [receiveError_hw s .halt h0]
    dsimp only
    by_cases hb : s.tx.state.busy
    · have hc : s.rx.flags ≠ 0 ∧ s.tx.state.busy := ⟨h0, hb⟩
      simp only [if_pos hb, if_pos hc]
      rfl
    · have hc : ¬ (s.rx.flags ≠ 0 ∧ s.tx.state.busy) := fun h => hb h.2
      simp only [if_neg hb, if_neg hc, hnack]

/-- The halt reaches both output paths, or finds them idle. -/
def HaltParks (s : Cec Soft) : Prop :=
  s.hw.driven = false ∧ ¬ (s.rx.flags ≠ 0 ∧ s.rx.flags.bcast = true) ∧
    (s.hw.pwm.xmitState = .idle ∨ (s.rx.flags ≠ 0 ∧ s.tx.state.busy))

instance (s : Cec Soft) : Decidable (HaltParks s) := by
  unfold HaltParks; infer_instance

theorem reach_halt {s : Cec Soft} (h : Reach s) : Reach (cecHalt s) := by
  have he := keptPwm_reach.toKeptTx.receiveError h .halt
  obtain ⟨hstatic, htx⟩ := addrInit_static (s := cecTransmitHalt (cecReceiveHalt (cecReceiveError s .halt))) he.static
  refine ⟨hstatic, ?_, (congrArg Transmit.needed htx).trans_lt he.needed⟩
  rw [halt_hw]
  exact he.clocked

theorem parked_iff {s : Cec Soft} (h : Reach s) :
    Parked step .app Floating (cecHalt s) ↔ HaltParks s := by
  have hh := reach_halt h
  have hx : (cecHalt s).hw.pwm.xmitState = .idle ↔
      (s.hw.pwm.xmitState = .idle ∨ (s.rx.flags ≠ 0 ∧ s.tx.state.busy)) := by
    rw [halt_xmitState]
    split
    · next hc => exact ⟨fun _ => .inr hc, fun _ => rfl⟩
    · next hc => exact ⟨.inl, fun ho => ho.resolve_right hc⟩
  have hd : (cecHalt s).hw.driven = false ↔
      (s.hw.driven = false ∧ ¬ (s.rx.flags ≠ 0 ∧ s.rx.flags.bcast = true)) := by
    rw [halt_driven]
    split
    · next hc => exact ⟨fun hf => Bool.noConfusion hf, fun ho => absurd hc ho.2⟩
    · next hc => exact ⟨fun hf => ⟨hf, hc⟩, fun ho => ho.1⟩
  constructor
  · intro hs
    obtain ⟨h₁, h₂⟩ := hd.mp hs.floating.1
    exact ⟨h₁, h₂, hx.mp (hh.clocked.mp hs.floating.2)⟩
  · rintro ⟨h₁, h₂, h₃⟩
    have hidle := hx.mpr h₃
    refine parked_of_step ⟨hd.mpr ⟨h₁, h₂⟩, hh.clocked.mpr hidle⟩ ?_
      (not_busy hidle PwmState.noConfusion PwmState.noConfusion) hh.static
      (fun s i hs hq => silent_step hs hq) keepsAttempt
    have he := keptPwm_reach.toKeptTx.receiveError h .halt
    exact congrArg Transmit.state (addrInit_static
      (s := cecTransmitHalt (cecReceiveHalt (cecReceiveError s .halt))) he.static).2

theorem reach_run (build : Build) {addr : Addr} (h : addr.Static) (as : List (OrHalt Step)) :
    Reach (run (orHalt step cecHalt) (initial build addr) as) := by
  have hstep : ∀ s a, Reach s → Reach (orHalt step cecHalt a s) := by
    intro s a hs
    cases a with
    | step i => exact reach_step hs i
    | halt => exact reach_halt hs
  have h0 : Reach (initial build addr) := by
    obtain ⟨hstatic, htx⟩ := addrInit_static (s := cecTransmitInit { boot build addr ({} : Soft) with hw := initHw {} }) h
    refine ⟨hstatic, ?_, (congrArg Transmit.needed htx).trans_lt (idleWait_lt ..)⟩
    rw [initial, cecInit, addrInit_hw]
    exact ⟨fun _ => rfl, fun _ => rfl⟩
  exact invariant_run' hstep as h0

end Soft

end AvrCec
