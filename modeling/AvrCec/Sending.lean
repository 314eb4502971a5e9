import AvrCec.Decoder

/-! What the drivers can do to the transmit side.

    The receive side reaches the transmit engine through `cecTransmitOnError` and
    `cecTransmitReceiveAck` only. So a property of the transmit side that these two keep (`KeptTx`)
    holds over a run whenever the driver's own fetching of bits (`cecUsiNextBit`,
    `cecTransmitPeriodic`) and the queueing of messages keep it too. -/

namespace AvrCec
open Lib

section
variable {D : Type} [Driver D] {X : Type}

/-- A property of the transmit engine, its log and the part `view` of the driver, that nothing the
    receive side does can break. -/
structure KeptTx (view : D → X) (P : Cec D → Prop) : Prop where
  same : ∀ {s t : Cec D}, P s → t.addr = s.addr → t.tx = s.tx → view t.hw = view s.hw →
    t.told = s.told → P t
  nack : ∀ b u, view (Driver.cecReceiveNackFrame b u) = view u
  needed : ∀ {s : Cec D} (n : Nat), (∃ m, n = Driver.idleWait D s.build m) → P s →
    P { s with tx := { s.tx with needed := n } }
  onError : ∀ {s : Cec D} (err : Err), P s → s.tx.state.busy → P (cecTransmitOnError s err)
  acked : ∀ {s : Cec D}, P s → s.tx.state = .waitForAck → P (cecTransmitReceiveAck s true)

variable {view : D → X} {P : Cec D → Prop}

/-- A change outside of the transmit side and the log. -/
theorem KeptTx.quiet (hP : KeptTx view P) {s t : Cec D} (hs : P s) (ha : t.addr = s.addr)
    (ht : t.tx = s.tx) (hv : view t.hw = view s.hw) (hl : t.log = s.log) : P t :=
  hP.same hs ha ht hv (by rw [Cec.told, Cec.told, hl])

theorem KeptTx.error (hP : KeptTx view P) {s : Cec D} (hs : P s) (err : Err) :
    P (cecTransmitOnError s err) := by
  by_cases hb : s.tx.state.busy
  · exact hP.onError err hs hb
  · rwa [cecTransmitOnError, if_neg hb]

theorem KeptTx.ack (hP : KeptTx view P) {s : Cec D} (hs : P s) (ack : Bool) :
    P (cecTransmitReceiveAck s ack) := by
  cases ack with
  | false => exact hP.error hs .nack
  | true =>
    by_cases hw : s.tx.state = .waitForAck
    · exact hP.acked hs hw
    · rwa [cecTransmitReceiveAck, if_pos rfl, if_neg hw]

theorem KeptTx.receiveError (hP : KeptTx view P) {s : Cec D} (hs : P s) (err : Err) :
    P (cecReceiveError s err) := by
  rw [cecReceiveError]
  split
  · exact hs
  · have hview : view (if s.rx.flags.bcast then Driver.cecReceiveNackFrame s.build s.hw else s.hw)
        = view s.hw := by
      split
      · exact hP.nack ..
      · rfl
    have htold : (s.emit (.error err)).told = s.told := emit_told s rfl
    exact hP.error (hP.same hs (by exact rfl) (by exact rfl) (by exact hview) (by exact htold)) err

theorem KeptTx.receiveStart (hP : KeptTx view P) {s : Cec D} (hs : P s) : P (cecReceiveStart s) :=
  hP.needed _ ⟨_, rfl⟩ (hP.same (t := { s.emit .start with rx := (cecReceiveStart s).rx }) hs rfl rfl rfl
    (emit_told s rfl))

theorem KeptTx.receiveBit (hP : KeptTx view P) {s : Cec D} (hs : P s) (b : Bool) :
    P (cecReceiveBit s b) := by
  have h := sameTransmit_receiveBit s b
  have hheard : P (heardByTransmit s b) := by
    have hemit : P (s.emit (.bit b)) := hP.same hs rfl rfl rfl (emit_told s rfl)
    rw [heardByTransmit]
    split
    · rw [cecCheckTxBit]
      split
      · exact hP.error hemit .arbLost
      · exact hemit
    · exact hP.ack hemit _
  exact hP.same hheard h.addr h.tx (congrArg view h.hw) h.told

omit [Driver D] in
theorem clearHeader_told (s : Cec D) : (clearHeader s).told = s.told := emit_told s rfl

/-- An address module that assigns no address by itself. -/
def Addr.Static : Addr → Prop
  | .devType .. => False
  | _ => True

omit [Driver D] in
theorem addrPeriodic_static {s : Cec D} (h : s.addr.Static) : cecAddrPeriodic s = s := by
  rw [cecAddrPeriodic]
  cases ha : s.addr with
  | devType l a i => rw [ha] at h; exact h.elim
  | none => rfl
  | fixed a => rfl
  | bitfield m => rfl

/-- The application touches the transmit side by queueing messages only. -/
theorem KeptTx.app (hP : KeptTx view P)
    (hassign : ∀ {s : Cec D} m, P s → P { s with addr := .bitfield m })
    (hsend : ∀ {s : Cec D} buf bufEnd, P s → s.tx.state.val < TransmitState.pend.val →
      bufEnd < cecBufferSize → P (queue s buf bufEnd))
    {s : Cec D} (hs : P s) (a : App) : P (a.step s) := by
  cases a with
  | clear => exact hP.same hs rfl rfl rfl (clearHeader_told s)
  | send message =>
    rw [App.step]
    split
    · next h =>
      have hlen := h.2.2.1
      have hpos : message.length ≠ 0 := fun h0 => h.2.1 (List.length_eq_zero_iff.mp h0)
      exact hsend _ _ hs h.1 (by omega)
    · exact hs
  | assign m =>
    rw [App.step]
    split
    · exact hassign m hs
    · exact hs

end

/-! ### What the engines leave alone of the driver -/

section
variable {D : Type} [Driver D] {Y : Type}

/-- What ending a reception does to the driver. -/
theorem receiveError_hw (s : Cec D) (err : Err) (h0 : s.rx.flags ≠ 0) :
    (cecReceiveError s err).hw =
      let u := if s.rx.flags.bcast then Driver.cecReceiveNackFrame s.build s.hw else s.hw
      if s.tx.state.busy then Driver.cecTransmitAbort u else u := by
  rw [cecReceiveError, if_neg h0, onError_hw]
  rfl

/-- A part of the driver that neither an abort nor a nack of the frame changes. -/
structure Untouched (g : D → Y) : Prop where
  abort : ∀ u, g (Driver.cecTransmitAbort u) = g u
  nack : ∀ b u, g (Driver.cecReceiveNackFrame b u) = g u

variable {g : D → Y}

theorem Untouched.onError (hg : Untouched g) (s : Cec D) (err : Err) :
    g (cecTransmitOnError s err).hw = g s.hw := by
  rw [onError_hw]
  split
  · exact hg.abort _
  · rfl

theorem Untouched.receiveError (hg : Untouched g) (s : Cec D) (err : Err) :
    g (cecReceiveError s err).hw = g s.hw := by
  rw [cecReceiveError]
  split
  · rfl
  · rw [hg.onError]
    dsimp only
    split
    · exact hg.nack ..
    · rfl

theorem Untouched.receiveBit (hg : Untouched g) (s : Cec D) (b : Bool) :
    g (cecReceiveBit s b).hw = g s.hw := by
  rw [(sameTransmit_receiveBit s b).hw, heardByTransmit]
  split
  · rw [cecCheckTxBit]
    split
    · exact hg.onError ..
    · rfl
  · rw [cecTransmitReceiveAck]
    split
    · split <;> rfl
    · exact hg.onError ..

end

/-! ### The USI driver -/

namespace Usi
variable {P : Cec Usi → Prop}

/-- A part of the driver that decoding does not change either. -/
structure Undecoded {Y : Type} (g : Usi → Y) : Prop extends Untouched g where
  dec : ∀ u d, g { u with dec := d } = g u

theorem Undecoded.tick {Y : Type} {g : Usi → Y} (hg : Undecoded g) (s : Cec Usi) (b : Bool) :
    g (cecProcessTick s b).hw = g s.hw := by
  have hcall : ∀ (t : Cec Usi) (c : Call), g (t.call c).hw = g t.hw := by
    intro t c
    cases c with
    | none => rfl
    | start => rfl
    | error err => exact hg.receiveError t err
  rw [processTick_eq]
  dsimp only
  split
  · exact (hg.dec _ _).trans ((hcall _ _).trans (hg.receiveBit s b))
  · exact (hg.dec _ _).trans (hcall s _)

theorem Undecoded.ticks {Y : Type} {g : Usi → Y} (hg : Undecoded g) (s : Cec Usi) (l : List Bool) :
    g (l.foldl cecProcessTick s).hw = g s.hw := by
  induction l generalizing s with
  | nil => rfl
  | cons b l ih => exact (ih _).trans (hg.tick s b)

section
variable {X : Type} {view : Usi → X}

theorem keptTx_call (hP : KeptTx view P) {s : Cec Usi} (hs : P s) (c : Call) : P (s.call c) := by
  cases c with
  | none => exact hs
  | start => exact hP.receiveStart hs
  | error err => exact hP.receiveError hs err

/-- A view of the driver that decoding does not change. -/
theorem keptTx_tick (hP : KeptTx view P) (hdec : ∀ u d, view { u with dec := d } = view u)
    {s : Cec Usi} (hs : P s) (b : Bool) : P (cecProcessTick s b) := by
  rw [processTick_eq]
  dsimp only
  split
  · exact hP.quiet (keptTx_call hP (hP.receiveBit hs b) _) rfl rfl (hdec ..) rfl
  · exact hP.quiet (keptTx_call hP hs _) rfl rfl (hdec ..) rfl

theorem keptTx_ticks_of (hP : KeptTx view P) (hdec : ∀ u d, view { u with dec := d } = view u)
    {s : Cec Usi} (hs : P s) (l : List Bool) : P (l.foldl cecProcessTick s) := by
  induction l generalizing s with
  | nil => exact hs
  | cons b l ih => exact ih (keptTx_tick hP hdec hs b)

end

theorem keptTx_ticks (hP : KeptTx Usi.xmitState P) {s : Cec Usi} (hs : P s) (l : List Bool) :
    P (l.foldl cecProcessTick s) := keptTx_ticks_of hP (fun _ _ => rfl) hs l

theorem doAck_xmitState (u : Usi) (acks : Nat) : (cecReceiveDoAck u acks).xmitState = u.xmitState := by
  rw [cecReceiveDoAck]
  split
  · rfl
  · dsimp only
    split <;> rfl

theorem keptTx_handleAck (hP : KeptTx Usi.xmitState P) {s : Cec Usi} (hs : P s) (others : Bool) :
    P (handleAck s others) := by
  rw [handleAck]
  dsimp only
  repeat' split
  · exact hP.quiet hs rfl rfl (doAck_xmitState ..) rfl
  · exact hP.quiet hs rfl rfl (doAck_xmitState ..) rfl
  · exact hs
  · exact hs

/-- Before the overflow, if any, is handled. -/
theorem keptTx_checkFloat (hP : KeptTx Usi.xmitState P) {s : Cec Usi} (hs : P s) (others : Bool) :
    P (checkFloat s others) := by
  have hload : P { s with hw := loadFloatMax s.hw } := hP.quiet hs rfl rfl rfl rfl
  rw [checkFloat]
  dsimp only
  split
  · exact hP.error hload .arbLost
  · exact hload

/-- The state in which a poll that handles an overflow asks for the next bit. -/
def decoded (s : Cec Usi) : Cec Usi :=
  (byteTicks s.hw.usibr).foldl cecProcessTick { s with hw := countIdle (floatNack s.hw) s.hw.usibr }

theorem handleOverflow_eq (s : Cec Usi) : handleOverflow s = writeOut (decoded s) := rfl

theorem keptTx_decoded (hP : KeptTx Usi.xmitState P) {s : Cec Usi} (hs : P s) : P (decoded s) := by
  have hcount : P { s with hw := countIdle (floatNack s.hw) s.hw.usibr } :=
    hP.quiet hs rfl rfl rfl rfl
  exact keptTx_ticks hP hcount _

theorem keptTx_writeOut (hP : KeptTx Usi.xmitState P) (hnext : ∀ {s : Cec Usi}, P s → P (cecUsiNextBit s).1)
    {s : Cec Usi} (hs : P s) : P (writeOut s) :=
  hP.quiet (hnext hs) rfl rfl rfl rfl

theorem keptTx_poll (hP : KeptTx Usi.xmitState P) (hnext : ∀ {s : Cec Usi}, P s → P (cecUsiNextBit s).1)
    {s : Cec Usi} (hs : P s) (others₁ others₂ : Bool) : P (cecReceivePeriodic s others₁ others₂) := by
  have hfloat := keptTx_checkFloat hP hs others₁
  rw [cecReceivePeriodic]
  split
  · exact keptTx_handleAck hP (keptTx_writeOut hP hnext (keptTx_decoded hP hfloat)) others₂
  · exact keptTx_handleAck hP hfloat others₂

/-- A tick of the clock does not reach the transmit side. -/
theorem keptTx_clock (hP : KeptTx Usi.xmitState P) {s : Cec Usi} (hs : P s) (others : Bool) :
    P { s with hw := s.hw.clock others } := by
  refine hP.quiet hs rfl rfl ?_ rfl
  rw [clock]
  dsimp only
  split <;> rfl

end Usi

/-! ### The PWM driver -/

namespace Soft
variable {P : Cec Soft → Prop}

/-- Stated for the constructor, so that the kernel compares no other field. -/
theorem pwm_mk (period timer ackDone : Nat) (last sample driven : Bool) (p : Pwm) :
    (Soft.mk period timer ackDone last sample driven p).pwm = p := rfl

/-- A change of the receive driver. -/
theorem recvHw (hP : KeptTx Soft.pwm P) {s : Cec Soft} (hs : P s) {u : Soft}
    (hu : u.pwm = s.hw.pwm) : P { s with hw := u } :=
  hP.quiet hs rfl rfl hu rfl

theorem keptTx_fall (hP : KeptTx Soft.pwm P) {s : Cec Soft} (hs : P s) : P (softFall s) := by
  have hnext : ∀ (t : Cec Soft) (n m : Nat), P t →
      P { t with hw := { t.hw with receiveFramePeriod := n, receiveFrameTimer := m } } :=
    fun _ _ _ ht => recvHw hP ht (pwm_mk ..)
  have hsample : ∀ t : Cec Soft, P t → P { t with hw := { t.hw with sample := true } } :=
    fun _ ht => recvHw hP ht (pwm_mk ..)
  have hack : ∀ (t : Cec Soft) (n : Nat), P t →
      P { t with hw := { t.hw with driven := true, receiveFrameAckDone := n } } :=
    fun _ _ ht => recvHw hP ht (pwm_mk ..)
  rw [softFall]
  refine hnext _ _ _ ?_
  split
  · split
    · exact hP.receiveError hs .lowDrive
    · refine hsample _ ?_
      split
      · exact hack _ _ hs
      · exact hs
  · exact hs

theorem keptTx_edge (hP : KeptTx Soft.pwm P) {s : Cec Soft} (hs : P s) (level : Bool) :
    P (softEdge s level) := by
  rw [softEdge]
  split
  · rw [softHold]
    split
    · exact hP.receiveError hs .noEom
    · exact hs
  · split
    · rw [softRise]
      split
      · exact hP.receiveStart (recvHw hP hs (pwm_mk ..))
      · exact hs
    · exact keptTx_fall hP hs

theorem keptTx_recv (hP : KeptTx Soft.pwm P) {s : Cec Soft} (hs : P s) (delta : Nat) (level : Bool) :
    P (cecReceivePeriodic s delta level) := by
  have hcount : P (softCount s delta) := recvHw hP hs (pwm_mk ..)
  have hsample : P (softSample (softCount s delta) level) := by
    rw [softSample]
    dsimp only
    split
    · have hoff : P { softCount s delta with hw := { (softCount s delta).hw with sample := false } } :=
        recvHw hP hcount (pwm_mk ..)
      split
      · exact hP.receiveError hoff .hw
      · exact hP.receiveBit hoff level
    · exact hcount
  have hfloat : P (softFloat (softSample (softCount s delta) level)) := by
    rw [softFloat]
    split
    · exact recvHw hP hsample (pwm_mk ..)
    · exact hsample
  have hedge := keptTx_edge hP hfloat level
  rw [cecReceivePeriodic]
  generalize softEdge (softFloat (softSample (softCount s delta) level)) level = t at hedge
  exact recvHw hP hedge (pwm_mk ..)

end Soft

end AvrCec
