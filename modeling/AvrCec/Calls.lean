import AvrCec.UsiHalt
import AvrCec.PwmHalt

/-! Runs of either driver as sequences of calls of the transmit engine.

    Whatever the driver and the line do, the transmit engine sees five kinds of call: an attempt
    begins, a bit is fetched, an error is reported, the last ack arrives, a message is queued. A
    property of the engine and its log that each of them keeps (`KeptCalls`) holds over every run of
    both builds (`Usi.keptCalls_step`, `Soft.keptCalls_step`). The driver's part of the coherence is
    that it fetches bits in a state `act` only, which an abort leaves. -/

namespace AvrCec
open Lib

section
variable {D : Type} [Driver D] {X : Type} {view : D → X} {act : D → Prop} {P : Cec D → Prop}

/-- A property of the transmit engine that every call of a driver keeps. -/
structure KeptEngine (act : D → Prop) (P : Cec D → Prop) : Prop where
  quiet : ∀ {s t : Cec D}, P s → t.tx = { s.tx with needed := t.tx.needed } → (act t.hw → act s.hw) →
    t.told = s.told → P t
  onError : ∀ {s : Cec D} (err : Err), P s → s.tx.state.busy → P (cecTransmitOnError s err)
  acked : ∀ {s : Cec D}, P s → s.tx.state = .waitForAck → P (cecTransmitReceiveAck s true)
  begin : ∀ {s t : Cec D}, P s → s.tx.state.pending → ¬ act s.hw → t.tx = (cecTransmitStart s).tx →
    t.told = .begin :: s.told → P t
  fetch : ∀ {s t : Cec D}, P s → act s.hw → t.tx = (cecTransmitGetBit s).1.tx →
    t.told = (cecTransmitGetBit s).1.told → (act t.hw → t.tx.state ≠ .waitForAck) → P t

/-- A property that the queueing of a message keeps too. -/
structure KeptCalls (act : D → Prop) (P : Cec D → Prop) : Prop extends KeptEngine act P where
  queued : ∀ {s : Cec D} buf bufEnd, P s → s.tx.state = .idle → bufEnd < cecBufferSize →
    P (queue s buf bufEnd)

theorem KeptEngine.keptTx (hP : KeptEngine act P) (hf : Fetches view act) : KeptTx view P where
  same h _ ht hv hl := hP.quiet h (by rw [ht]) (hf.congr hv) hl
  nack := hf.nack
  needed _ _ h := hP.quiet h rfl id rfl
  onError err h hb := hP.onError err h hb
  acked h hw := hP.acked h hw

/-- The address module queues a message of its own when the transmit state is idle. -/
theorem KeptCalls.addrPeriodic (hP : KeptCalls act P) {s : Cec D} (hs : P s) : P (cecAddrPeriodic s) := by
  have hclear : P (clearHeader s) := hP.quiet hs rfl id (clearHeader_told s)
  rw [cecAddrPeriodic]
  split
  · next l a i _ =>
    dsimp only
    split
    · exact hs
    · split
      · next hidle =>
        split
        · exact hP.quiet hclear rfl id rfl
        · have hlt : 0 < cecBufferSize := by decide
          exact hP.quiet (hP.queued (Function.update s.tx.buf 0 (l.getD i 0)) 0 hclear hidle hlt) rfl id rfl
      · split
        · exact hP.quiet hclear rfl id rfl
        · exact hclear
  · exact hs

omit [Driver D] in
/-- Queueing is not logged. -/
theorem addrPeriodic_told (s : Cec D) : (cecAddrPeriodic s).told = s.told := by
  have hclear := clearHeader_told s
  rw [cecAddrPeriodic]
  dsimp only
  repeat' split
  · rfl
  · exact hclear
  · exact hclear
  · exact hclear
  · exact hclear
  · rfl

omit [Driver D] in
theorem app_told (s : Cec D) (a : App) : (a.step s).told = s.told := by
  cases a with
  | clear => exact clearHeader_told s
  | send message =>
    rw [App.step]
    split <;> rfl
  | assign m =>
    rw [App.step]
    split <;> rfl

/-- The application reaches the transmit engine by queueing a message only. -/
theorem KeptCalls.app (hP : KeptCalls act P) {s : Cec D} (hs : P s)
    (hsend : ∀ buf bufEnd, s.tx.state.val < TransmitState.pend.val → bufEnd < cecBufferSize →
      P (queue s buf bufEnd)) (a : App) : P (a.step s) := by
  cases a with
  | clear => exact hP.quiet hs rfl id (clearHeader_told s)
  | send message =>
    rw [App.step]
    split
    · next h =>
      obtain ⟨hstate, hne, hlen, -⟩ := h
      have hpos : message.length ≠ 0 := fun h0 => hne (List.length_eq_zero_iff.mp h0)
      have hend : message.length - 1 < cecBufferSize := by omega
      exact hsend _ _ hstate hend
    · exact hs
  | assign m =>
    rw [App.step]
    split
    · exact hP.quiet hs rfl id rfl
    · exact hs

end

/-! ### The USI driver -/

namespace Usi
variable {P : Cec Usi → Prop}

theorem keptEngine_next (hP : KeptEngine Busy P) {s : Cec Usi} (hs : P s) : P (cecUsiNextBit s).1 := by
  rw [cecUsiNextBit]
  split
  · next hx =>
    split
    · next hc => exact hP.begin hs hc.1 (fun hb => hb hx) rfl rfl
    · exact hs
  · next hx =>
    have hbusy : Busy s.hw := fun hi => UsiXmit.noConfusion (hx.symm.trans hi)
    exact hP.quiet hs rfl (fun _ => hbusy) rfl
  · next hx =>
    have hbusy : Busy s.hw := fun hi => UsiXmit.noConfusion (hx.symm.trans hi)
    exact hP.fetch hs hbusy rfl rfl fun hf hw => hf (if_pos hw)

theorem keptEngine_poll (hP : KeptEngine Busy P) {s : Cec Usi} (hs : P s) (others₁ others₂ : Bool) :
    P (cecReceivePeriodic s others₁ others₂) :=
  keptTx_poll (hP.keptTx fetches) (keptEngine_next hP) hs others₁ others₂

theorem handleAck_told (s : Cec Usi) (others : Bool) : (handleAck s others).told = s.told := by
  rw [handleAck]
  dsimp only
  repeat' split
  all_goals rfl

/-- The driver's log of a byte written out: nothing, the beginning of an attempt, or a bit. -/
theorem next_told (v : Cec Usi) : (cecUsiNextBit v).1.told = v.told ∨
    (cecUsiNextBit v).1.told = .begin :: v.told ∨ ∃ b r, (cecUsiNextBit v).1.told = .getBit b r :: v.told := by
  rw [cecUsiNextBit]
  split
  · split
    · exact .inr (.inl rfl)
    · exact .inl rfl
  · exact .inl rfl
  · exact .inr (.inr ⟨_, _, rfl⟩)

/-- The rule for runs of the USI driver. -/
theorem keptCalls_step (hP : KeptCalls Busy P) {s : Cec Usi} (hs : P s)
    (hsend : ∀ buf bufEnd, s.tx.state.val < TransmitState.pend.val → bufEnd < cecBufferSize →
      P (queue s buf bufEnd)) (i : Step) : P (step i s) := by
  cases i with
  | tick others => exact keptTx_clock (hP.keptTx fetches) hs others
  | poll others₁ others₂ => exact hP.addrPeriodic (keptEngine_poll hP.toKeptEngine hs others₁ others₂)
  | app a => exact hP.app hs hsend a

end Usi

/-! ### The PWM driver -/

namespace Soft
variable {P : Cec Soft → Prop}

theorem keptEngine_pwm (hP : KeptEngine Busy P) : KeptPwm P where
  toKeptTx := hP.keptTx fetches
  regs f h hx _ := hP.quiet h rfl (fun hb => by rw [Busy, ← hx]; exact hb) rfl
  end1 h _ := hP.quiet h rfl (fun hb => absurd hb (not_busy rfl PwmState.noConfusion PwmState.noConfusion)) rfl
  end2 h := hP.quiet h rfl (fun hb => absurd hb (not_busy rfl PwmState.noConfusion PwmState.noConfusion)) rfl
  fetch {s} h hb := by
    refine hP.fetch h hb rfl rfl fun hf hw => ?_
    have hx : (pwmNextBit s).hw.pwm.xmitState = .end1 := if_pos hw
    exact not_busy hx PwmState.noConfusion PwmState.noConfusion hf
  begin h hx hp := hP.begin h hp (not_busy hx PwmState.noConfusion PwmState.noConfusion) rfl rfl

/-- The rule for runs of the PWM driver. -/
theorem keptCalls_step (hP : KeptCalls Busy P) {s : Cec Soft} (hs : P s)
    (hsend : ∀ buf bufEnd, s.tx.state.val < TransmitState.pend.val → bufEnd < cecBufferSize →
      P (queue s buf bufEnd)) (i : Step) : P (step i s) := by
  have hpwm := keptEngine_pwm hP.toKeptEngine
  cases i with
  | recv delta level => exact keptTx_recv hpwm.toKeptTx hs delta level
  | xmit delta level => exact keptXmit_periodic hpwm.toKeptXmit hs delta level
  | addr => exact hP.addrPeriodic hs
  | overflow =>
    rw [step, timerOverflow]
    split
    · exact hpwm.regs _ hs rfl rfl
    · exact hs
  | app a => exact hP.app hs hsend a

end Soft

end AvrCec
