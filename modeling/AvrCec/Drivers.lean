import AvrCec.Build
import AvrCec.Engine

/-! What the drivers can do to the receive side.

    Neither driver, nor the transmit engine, nor the address module touches the receive engine's
    variables except through its entry points. So a property of the receive side that the entry points
    keep (`Kept`) holds over a whole run, provided the bits it is fed keep it too: the USI decoder
    feeds bits during a reception only (`Usi.Synced`), the soft driver whenever a sample falls due
    (`Soft.SampleDue`). -/

namespace AvrCec
open Lib

section
variable {D : Type} [Driver D]

/-- A property of the receive side that every entry point but `cecReceiveBit` keeps. -/
structure Kept (P : Cec D → Prop) : Prop where
  same : ∀ {s t : Cec D}, P s → t.build = s.build → t.rx = s.rx → t.heard = s.heard → P t
  start : ∀ {s : Cec D}, P s → P (cecReceiveStart s)
  error : ∀ {s : Cec D} (err : Err), P s → P (cecReceiveError s err)
  clear : ∀ {s : Cec D}, P s → P (clearHeader s)

variable {P : Cec D → Prop}

/-- A change outside of the receive side and the log. -/
theorem Kept.quiet (hP : Kept P) {s t : Cec D} (hs : P s) (hb : t.build = s.build) (hr : t.rx = s.rx)
    (hl : t.log = s.log) : P t :=
  hP.same hs hb hr (by rw [Cec.heard, Cec.heard, hl])

theorem Kept.sameReceive (hP : Kept P) {s t : Cec D} (h : SameReceive s t) (hs : P s) : P t :=
  hP.same hs h.build h.rx h.heard

theorem Kept.addrPeriodic (hP : Kept P) {s : Cec D} (hs : P s) : P (cecAddrPeriodic s) := by
  unfold cecAddrPeriodic
  have hc := hP.clear hs
  dsimp only
  repeat' split
  all_goals first
    | exact hs
    | exact hc
    | exact hP.quiet hc rfl rfl rfl

theorem Kept.app (hP : Kept P) {s : Cec D} (hs : P s) (a : App) : P (a.step s) := by
  cases a with
  | clear => exact hP.clear hs
  | send message =>
    unfold App.step
    dsimp only
    split
    · exact hP.quiet hs rfl rfl rfl
    · exact hs
  | assign logicalAddresses =>
    unfold App.step
    dsimp only
    split
    · exact hP.quiet hs rfl rfl rfl
    · exact hs

omit [Driver D] in
/-- Two kept properties together. -/
theorem Kept.and [Driver D] {Q : Cec D → Prop} (hP : Kept P) (hQ : Kept Q) :
    Kept fun s => P s ∧ Q s where
  same h hb hr hh := ⟨hP.same h.1 hb hr hh, hQ.same h.2 hb hr hh⟩
  start h := ⟨hP.start h.1, hQ.start h.2⟩
  error err h := ⟨hP.error err h.1, hQ.error err h.2⟩
  clear h := ⟨hP.clear h.1, hQ.clear h.2⟩

theorem receiveError_zero {s : Cec D} (h : s.rx.flags = 0) (err : Err) : cecReceiveError s err = s := by
  rw [cecReceiveError, if_pos h]

/-- An error ends the reception and leaves the rest of the receive side alone. -/
theorem receiveError_rx (s : Cec D) (err : Err) :
    (cecReceiveError s err).rx = { s.rx with flags := 0 } ∧
    (cecReceiveError s err).build = s.build ∧
    (cecReceiveError s err).heard = if s.rx.flags = 0 then s.heard else .error err :: s.heard := by
  by_cases h : s.rx.flags = 0
  · rw [receiveError_zero h, if_pos h]
    exact ⟨by rw [← h], rfl, rfl⟩
  · rw [if_neg h, cecReceiveError, if_neg h]
    have hsame := fun t : Cec D => sameReceive_onError t err
    exact ⟨(hsame _).rx, (hsame _).build, (hsame _).heard.trans (emit_heard s (.error err))⟩

omit [Driver D] in
@[simp] theorem receiveStart_heard [Driver D] (s : Cec D) :
    (cecReceiveStart s).heard = .start :: s.heard := rfl

omit [Driver D] in
@[simp] theorem clearHeader_heard (s : Cec D) : (clearHeader s).heard = .clear :: s.heard := rfl

/-- The build never changes. -/
theorem kept_build (b : Build) : Kept fun s : Cec D => s.build = b where
  same h hb _ _ := hb.trans h
  start h := h
  error {s} err h := (receiveError_rx s err).2.1.trans h
  clear h := h

end

/-! ### The soft driver -/

namespace Soft

/-- A poll `delta` jiffies after the last takes the sample of the pending bit. -/
def SampleDue (s : Cec Soft) (delta : Nat) : Prop :=
  s.hw.sample = true ∧ usToJiffies s.build cecT3 < cappedAdd s.hw.receiveFrameTimer delta ∧
    cappedAdd s.hw.receiveFrameTimer delta ≤ usToJiffiesUp s.build cecT4

instance (s : Cec Soft) (delta : Nat) : Decidable (SampleDue s delta) := by
  unfold SampleDue; infer_instance

variable {P : Cec Soft → Prop}

theorem kept_fall (hP : Kept P) {s : Cec Soft} (hs : P s) : P (softFall s) := by
  have he := hP.error .lowDrive hs
  unfold softFall
  dsimp only
  repeat' split
  all_goals first
    | exact hP.quiet he rfl rfl rfl
    | exact hP.quiet hs rfl rfl rfl

theorem kept_edge (hP : Kept P) {s : Cec Soft} (hs : P s) (level : Bool) : P (softEdge s level) := by
  unfold softEdge softHold softRise
  repeat' split
  · exact hP.error .noEom hs
  · exact hs
  · exact hP.start (hP.quiet hs rfl rfl rfl)
  · exact hs
  · exact kept_fall hP hs

theorem kept_recv (hP : Kept P) {s : Cec Soft} (hs : P s) (delta : Nat) (level : Bool)
    (hbit : SampleDue s delta →
      ∀ t : Cec Soft, t.build = s.build → t.rx = s.rx → P t → P (cecReceiveBit t level)) :
    P (cecReceivePeriodic s delta level) := by
  have hcount : P (softCount s delta) := hP.quiet hs rfl rfl rfl
  have hsample : P (softSample (softCount s delta) level) := by
    unfold softSample
    dsimp only
    split
    · next hdue =>
      have hoff : P { softCount s delta with hw := { (softCount s delta).hw with sample := false } } :=
        hP.quiet hcount rfl rfl rfl
      split
      · exact hP.error .hw hoff
      · next hlate => exact hbit ⟨hdue.1, hdue.2, Nat.le_of_not_lt hlate⟩ _ rfl rfl hoff
    · exact hcount
  have hfloat : P (softFloat (softSample (softCount s delta) level)) := by
    unfold softFloat
    split
    · exact hP.quiet hsample rfl rfl rfl
    · exact hsample
  exact hP.quiet (kept_edge hP hfloat level) rfl rfl rfl

theorem kept_pwm (hP : Kept P) {s : Cec Soft} (hs : P s) : P (xmitPwmPeriodic s) := by
  have hbit : ∀ t : Cec Soft, P t → P (pwmNextBit t) := by
    intro t ht
    exact hP.quiet (hP.sameReceive (sameReceive_getBit t) ht) rfl rfl rfl
  unfold xmitPwmPeriodic
  have hs' : P (setPwm s fun p => { p with tov1 := false }) := hP.quiet hs rfl rfl rfl
  generalize (setPwm s fun p => { p with tov1 := false }) = t at hs'
  dsimp only
  repeat' split
  · exact hs
  · exact hP.sameReceive (sameReceive_onError t .arbLost) hs'
  · exact hbit _ (hP.quiet hs' rfl rfl rfl)
  · exact hbit t hs'
  all_goals exact hP.quiet hs' rfl rfl rfl

theorem kept_xmitStart (hP : Kept P) {s : Cec Soft} (hs : P s) : P (xmitStart s) := by
  have hs' : P (setPwm s fun p => { p with
      tcnt1 := ocr (usToCecJiffies s.build cecStartHigh) - 1
      ocr1c := ocr (usToCecJiffies s.build cecStartHigh)
      gtccr := .pwm
      ocr1b := ocr (usToCecJiffies s.build cecStartLow)
      xmitState := .start }) := hP.quiet hs rfl rfl rfl
  exact hP.quiet (hP.sameReceive (sameReceive_transmitStart _) hs') rfl rfl rfl

theorem kept_xmit (hP : Kept P) {s : Cec Soft} (hs : P s) (delta : Nat) (level : Bool) :
    P (cecTransmitPeriodic s delta level) := by
  unfold cecTransmitPeriodic
  have hs' : P (if s.hw.pwm.xmitState ≠ .idle then xmitPwmPeriodic s else s) := by
    split
    · exact kept_pwm hP hs
    · exact hs
  generalize (if s.hw.pwm.xmitState ≠ .idle then xmitPwmPeriodic s else s) = t at hs'
  dsimp only
  repeat' split
  · exact hP.quiet hs' rfl rfl rfl
  · exact hP.quiet hs' rfl rfl rfl
  · exact kept_xmitStart hP (hP.quiet hs' rfl rfl rfl)
  · exact hP.quiet hs' rfl rfl rfl

/-- The rule for runs of the soft driver: what its samples keep, every step keeps. -/
theorem kept_step (hP : Kept P) {s : Cec Soft} (hs : P s) (i : Step)
    (hbit : ∀ delta level, i = .recv delta level → SampleDue s delta →
      ∀ t : Cec Soft, t.build = s.build → t.rx = s.rx → P t → P (cecReceiveBit t level)) :
    P (step i s) := by
  cases i with
  | recv delta level => exact kept_recv hP hs delta level (hbit delta level rfl)
  | xmit delta level => exact kept_xmit hP hs delta level
  | addr => exact hP.addrPeriodic hs
  | overflow =>
    change P (timerOverflow s)
    unfold timerOverflow
    split
    · exact hP.quiet hs rfl rfl rfl
    · exact hs
  | app a => exact hP.app hs a

end Soft

/-! ### The USI driver -/

section
variable {D : Type} [Driver D]

/-- An error of the transmit side reaches the driver through its abort only. -/
theorem onError_hw (s : Cec D) (err : Err) :
    (cecTransmitOnError s err).hw = if s.tx.state.busy then Driver.cecTransmitAbort s.hw else s.hw := by
  rw [cecTransmitOnError]
  split <;> rfl

end

namespace Usi

theorem onError_dec (s : Cec Usi) (err : Err) : (cecTransmitOnError s err).hw.dec = s.hw.dec := by
  rw [onError_hw]
  split <;> rfl

/-- The decoder hands out bits during a reception only. -/
def Synced (s : Cec Usi) : Prop := s.hw.dec.recvState = .bits → s.rx.flags ≠ 0

variable {P : Cec Usi → Prop}

/-- `P` holds and the decoder is in step with the engine. -/
structure Tracked (P : Cec Usi → Prop) (s : Cec Usi) : Prop where
  holds : P s
  synced : Synced s

/-- Changes outside of the receive side and the decoder's state. -/
theorem Tracked.same (hP : Kept P) {s t : Cec Usi} (hs : Tracked P s) (hb : t.build = s.build)
    (hr : t.rx = s.rx) (hl : t.log = s.log) (hd : t.hw.dec.recvState = s.hw.dec.recvState) :
    Tracked P t :=
  ⟨hP.quiet hs.holds hb hr hl, fun h => by rw [hr]; exact hs.synced (hd.symm.trans h)⟩

theorem Tracked.sameReceive (hP : Kept P) {s t : Cec Usi} (hs : Tracked P s) (h : SameReceive s t)
    (hd : t.hw.dec.recvState = s.hw.dec.recvState) : Tracked P t :=
  ⟨hP.sameReceive h hs.holds, fun hd' => by rw [h.rx]; exact hs.synced (hd.symm.trans hd')⟩

/-- Leaving the decoder's bit state needs no reception. -/
theorem Tracked.leave (hP : Kept P) {s t : Cec Usi} (hs : P s) (hb : t.build = s.build)
    (hr : t.rx = s.rx) (hl : t.log = s.log) (hd : t.hw.dec.recvState ≠ .bits) : Tracked P t :=
  ⟨hP.quiet hs hb hr hl, fun h => absurd h hd⟩

theorem tracked_sample (hP : Kept P)
    (hbit : ∀ s b, s.rx.flags ≠ 0 → P s → P (cecReceiveBit s b)) {s : Cec Usi}
    (hs : Tracked P s) (b : Bool) : Tracked P (tickSample s b) := by
  unfold tickSample
  split
  · next h =>
    have hb := hbit s b (hs.synced h.1) hs.holds
    dsimp only
    split
    · exact Tracked.leave hP hb rfl rfl rfl (by simp [setDec])
    · next hne => exact ⟨hb, fun _ => hne⟩
  · exact hs

theorem tracked_hold (hP : Kept P) {s : Cec Usi} (hs : Tracked P s) : Tracked P (tickHold s) := by
  unfold tickHold
  split
  · exact Tracked.leave hP (hP.error .noEom hs.holds) rfl rfl rfl (by simp [setDec])
  · exact hs

theorem tracked_fall (hP : Kept P) {s : Cec Usi} (hs : Tracked P s) : Tracked P (tickFall s) := by
  unfold tickFall
  dsimp only
  have hs' : Tracked P (setDec s fun d => { d with
      ackDone := d.ackDone && !decide ((s.hw.dec.recvFrame + 8) % 256 = 10 * 8) }) :=
    hs.same hP rfl rfl rfl rfl
  generalize (setDec s fun d => { d with
      ackDone := d.ackDone && !decide ((s.hw.dec.recvFrame + 8) % 256 = 10 * 8) }) = t at hs'
  split
  · exact Tracked.leave hP (hP.error .lowDrive hs'.holds) rfl rfl rfl (by simp [setDec])
  · split
    · exact ⟨hP.quiet (hP.start hs'.holds) rfl rfl rfl, fun _ => by simp [setDec, cecReceiveStart]; decide⟩
    · exact hs'.same hP rfl rfl rfl rfl

theorem tracked_rise (hP : Kept P) {s : Cec Usi} (hs : Tracked P s) : Tracked P (tickRise s) := by
  unfold tickRise
  split
  · exact Tracked.leave hP hs.holds rfl rfl rfl (by simp [setDec])
  · exact hs

theorem tracked_tick (hP : Kept P)
    (hbit : ∀ s b, s.rx.flags ≠ 0 → P s → P (cecReceiveBit s b)) {s : Cec Usi}
    (hs : Tracked P s) (b : Bool) : Tracked P (cecProcessTick s b) := by
  have hcount : Tracked P (tickCount s) := hs.same hP rfl rfl rfl rfl
  have hsample := tracked_sample hP hbit hcount b
  have hedge : Tracked P (tickEdge (tickSample (tickCount s) b) b) := by
    unfold tickEdge
    split
    · exact tracked_hold hP hsample
    · split
      · exact tracked_fall hP hsample
      · exact tracked_rise hP hsample
  exact hedge.same hP rfl rfl rfl rfl

theorem tracked_ticks (hP : Kept P)
    (hbit : ∀ s b, s.rx.flags ≠ 0 → P s → P (cecReceiveBit s b)) {s : Cec Usi}
    (hs : Tracked P s) (l : List Bool) : Tracked P (l.foldl cecProcessTick s) := by
  induction l generalizing s with
  | nil => exact hs
  | cons b l ih => exact ih (tracked_tick hP hbit hs b)

theorem tracked_nextBit (hP : Kept P) {s : Cec Usi} (hs : Tracked P s) :
    Tracked P (cecUsiNextBit s).1 := by
  unfold cecUsiNextBit
  split
  · split
    · exact (hs.sameReceive hP (sameReceive_transmitStart s) rfl).same hP
        rfl rfl rfl rfl
    · exact hs
  · exact hs.same hP rfl rfl rfl rfl
  · exact (hs.sameReceive hP (sameReceive_getBit s) rfl).same hP rfl rfl rfl rfl

theorem tracked_overflow (hP : Kept P)
    (hbit : ∀ s b, s.rx.flags ≠ 0 → P s → P (cecReceiveBit s b)) {s : Cec Usi}
    (hs : Tracked P s) : Tracked P (handleOverflow s) := by
  have hidle : Tracked P { s with hw := countIdle (floatNack s.hw) s.hw.usibr } :=
    hs.same hP rfl rfl rfl rfl
  have hticks := tracked_ticks hP hbit hidle (byteTicks s.hw.usibr)
  exact (tracked_nextBit hP hticks).same hP rfl rfl rfl rfl

theorem tracked_ack (hP : Kept P) {s : Cec Usi} (hs : Tracked P s) (others : Bool) :
    Tracked P (handleAck s others) := by
  have hdec : ∀ u n, (cecReceiveDoAck u n).dec = u.dec := by
    intro u n
    unfold cecReceiveDoAck
    split
    · rfl
    · dsimp only
      split <;> rfl
  unfold handleAck
  dsimp only
  repeat' split
  · exact hs.same hP rfl rfl rfl (by rw [hdec]; rfl)
  · exact hs.same hP rfl rfl rfl (by rw [hdec]; rfl)
  · exact hs
  · exact hs

theorem tracked_poll (hP : Kept P)
    (hbit : ∀ s b, s.rx.flags ≠ 0 → P s → P (cecReceiveBit s b)) {s : Cec Usi}
    (hs : Tracked P s) (others₁ others₂ : Bool) :
    Tracked P (cecReceivePeriodic s others₁ others₂) := by
  unfold cecReceivePeriodic
  have hfloat : Tracked P (checkFloat s others₁) := by
    unfold checkFloat
    have hmax : Tracked P { s with hw := loadFloatMax s.hw } := hs.same hP rfl rfl rfl rfl
    dsimp only
    split
    · exact hmax.sameReceive hP (sameReceive_onError _ .arbLost) (by rw [onError_dec])
    · exact hmax
  dsimp only
  split
  · exact tracked_ack hP (tracked_overflow hP hbit hfloat) others₂
  · exact tracked_ack hP hfloat others₂

/-- The rule for runs of the USI driver: what a bit of a reception keeps, every step keeps. -/
theorem tracked_step (hP : Kept P)
    (hbit : ∀ s b, s.rx.flags ≠ 0 → P s → P (cecReceiveBit s b)) {s : Cec Usi}
    (hs : Tracked P s) (i : Step) : Tracked P (step i s) := by
  cases i with
  | tick others =>
    refine hs.same hP rfl rfl rfl ?_
    change (s.hw.clock others).dec.recvState = _
    unfold clock
    dsimp only
    split <;> rfl
  | poll others₁ others₂ =>
    have h := tracked_poll hP hbit hs others₁ others₂
    refine ⟨hP.addrPeriodic h.holds, ?_⟩
    change Synced (cecAddrPeriodic _)
    unfold cecAddrPeriodic
    dsimp only
    repeat' split
    all_goals exact h.synced
  | app a =>
    refine ⟨hP.app hs.holds a, ?_⟩
    cases a with
    | clear => exact hs.synced
    | send message =>
      change Synced (App.step s _)
      unfold App.step
      dsimp only
      split <;> exact hs.synced
    | assign logicalAddresses =>
      change Synced (App.step s _)
      unfold App.step
      dsimp only
      split <;> exact hs.synced

end Usi

end AvrCec
