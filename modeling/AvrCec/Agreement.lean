import AvrCec.Abort

/-! Engines that no run can tell apart.

    Two states agree (`Agree`) when they differ only in variables that are written before they are
    read again: the place in a reception while none is under way, the message and the place in it
    while none is queued, the counters of an attempt before it begins. Every call of the two engines
    keeps the agreement, whatever the driver, provided the drivers agree in a relation of their own
    that an abort and a nack respect (`Respects`). -/

namespace AvrCec
open Lib

/-- The transmit engines behave alike from here on. Of the bits sent only the last two are read
    again. -/
structure AgreeTx (t u : Transmit) : Prop where
  state : u.state = t.state
  needed : u.needed = t.needed
  lastBit : u.lastBit % 4 = t.lastBit % 4
  queued : t.state ≠ .idle → u.bufEnd = t.bufEnd ∧ ∀ i ≤ t.bufEnd, u.buf i = t.buf i
  retries : t.state ≠ .idle → t.state ≠ .pend → u.retries = t.retries
  place : t.state.busy → u.bufBit = t.bufBit ∧ u.bufPos = t.bufPos ∧ t.bufPos ≤ t.bufEnd

section
variable {D : Type} {R : D → D → Prop}

/-- The two states behave alike from here on, up to the place in the reception under way. -/
structure Agree (R : D → D → Prop) (s t : Cec D) : Prop where
  build : t.build = s.build
  addr : t.addr = s.addr
  flags : t.rx.flags = s.rx.flags
  buf : t.rx.buf = s.rx.buf
  tx : AgreeTx s.tx t.tx
  hw : R s.hw t.hw

/-- A relation of drivers that the calls of the engines keep. -/
structure Respects [Driver D] (R : D → D → Prop) : Prop where
  nack : ∀ b {u v}, R u v → R (Driver.cecReceiveNackFrame b u) (Driver.cecReceiveNackFrame b v)
  abort : ∀ {u v : D}, R u v → R (Driver.cecTransmitAbort u) (Driver.cecTransmitAbort v)

/-! ### The transmit engine -/

section
variable [Driver D]

theorem agree_finishAbort {s t : Cec D} (h : Agree R s t) (hb : s.tx.state.busy) :
    Agree R (cecTransmitFinishAbort s) (cecTransmitFinishAbort t) := by
  have hi : s.tx.state ≠ .idle := fun hi => absurd hb (by rw [hi]; decide)
  have hp : s.tx.state ≠ .pend := fun hp => absurd hb (by rw [hp]; decide)
  refine ⟨h.build, h.addr, h.flags, h.buf, ?_, h.hw⟩
  rw [cecTransmitFinishAbort, cecTransmitFinishAbort, h.tx.retries hi hp, h.build]
  dsimp only
  split
  · exact ⟨rfl, h.tx.needed, h.tx.lastBit, fun _ => h.tx.queued hi, fun _ _ => rfl, fun hb => absurd hb (by decide : ¬ TransmitState.failed.busy)⟩
  · exact ⟨rfl, rfl, h.tx.lastBit, fun _ => h.tx.queued hi, fun _ _ => rfl, fun hb => absurd hb (by decide : ¬ TransmitState.again.busy)⟩

theorem agree_onError (hR : Respects R) {s t : Cec D} (h : Agree R s t) (err : Err) :
    Agree R (cecTransmitOnError s err) (cecTransmitOnError t err) := by
  rw [cecTransmitOnError, cecTransmitOnError, h.tx.state]
  split
  · next hb =>
    have htx := h.tx
    exact agree_finishAbort ⟨h.build, h.addr, h.flags, h.buf,
      ⟨htx.state, htx.needed, htx.lastBit, htx.queued, htx.retries, htx.place⟩, hR.abort h.hw⟩ hb
  · exact h

omit [Driver D] in
theorem AgreeTx.delayed {t u : Transmit} (h : AgreeTx t u) : u.delayed = t.delayed := by
  have hlast := h.lastBit
  rw [Transmit.delayed, Transmit.delayed, Nat.shiftRight_one, Nat.shiftRight_one, Nat.and_one_is_mod,
    Nat.and_one_is_mod]
  omega

theorem agree_checkTxBit (hR : Respects R) {s t : Cec D} (h : Agree R s t) (bit : Bool) :
    Agree R (cecCheckTxBit s bit) (cecCheckTxBit t bit) := by
  rw [cecCheckTxBit, cecCheckTxBit, h.tx.delayed]
  split
  · exact agree_onError hR h .arbLost
  · exact h

theorem agree_transmitAck (hR : Respects R) {s t : Cec D} (h : Agree R s t) (ack : Bool) :
    Agree R (cecTransmitReceiveAck s ack) (cecTransmitReceiveAck t ack) := by
  rw [cecTransmitReceiveAck, cecTransmitReceiveAck, h.tx.state]
  split
  · split
    · refine ⟨h.build, h.addr, h.flags, h.buf, ?_, h.hw⟩
      exact ⟨rfl, h.tx.needed, h.tx.lastBit, fun hi => absurd rfl hi, fun hi => absurd rfl hi,
        fun hb => absurd hb (by decide : ¬ TransmitState.idle.busy)⟩
    · exact h
  · exact agree_onError hR h .nack

omit [Driver D] in
theorem transmitStart_tx (s : Cec D) : (cecTransmitStart s).tx =
    { (if s.tx.state = .pend then { s.tx with retries := 0, stats := fun _ => 0 } else s.tx) with
      bufBit := 0x80, bufPos := 0, state := .bitEom } := rfl

omit [Driver D] in
theorem agree_transmitStart {s t : Cec D} (h : Agree R s t) (hp : s.tx.state.pending) :
    Agree R (cecTransmitStart s) (cecTransmitStart t) := by
  have hi : s.tx.state ≠ .idle := fun hi => absurd hp (by rw [hi]; decide)
  have hqueued := h.tx.queued hi
  refine ⟨h.build, h.addr, h.flags, h.buf, ?_, h.hw⟩
  rw [transmitStart_tx, transmitStart_tx, h.tx.state]
  by_cases hpend : s.tx.state = .pend
  · rw [if_pos hpend, if_pos hpend]
    exact ⟨rfl, h.tx.needed, h.tx.lastBit, fun _ => hqueued, fun _ _ => rfl, fun _ => ⟨rfl, rfl, Nat.zero_le _⟩⟩
  · rw [if_neg hpend, if_neg hpend]
    exact ⟨rfl, h.tx.needed, h.tx.lastBit, fun _ => hqueued, fun _ _ => h.tx.retries hi hpend,
      fun _ => ⟨rfl, rfl, Nat.zero_le _⟩⟩

omit [Driver D] in
/-- Shifting in a bit keeps the last two in agreement. -/
theorem shift_agree {n m : Nat} (h : m % 4 = n % 4) (bit : Bool) :
    (m <<< 1 ||| bit.toNat) % 256 % 4 = (n <<< 1 ||| bit.toNat) % 256 % 4 := by
  rw [shiftIn_eq, shiftIn_eq]
  omega

omit [Driver D] in
theorem agreeTx_getBit {t u : Transmit} (h : AgreeTx t u) (hb : t.state.busy) (present : Nat) :
    AgreeTx (t.getBit present).1 (u.getBit present).1 ∧ (u.getBit present).2 = (t.getBit present).2 := by
  have hi : t.state ≠ .idle := fun hi => absurd hb (by rw [hi]; decide)
  have hp : t.state ≠ .pend := fun hp => absurd hb (by rw [hp]; decide)
  obtain ⟨hend, hbuf⟩ := h.queued hi
  obtain ⟨hbit, hpos, hle⟩ := h.place hb
  have hretries := h.retries hi hp
  rw [Transmit.getBit, Transmit.getBit, hbit, hpos, hend, h.state, hbuf _ hle]
  split
  · exact ⟨⟨h.state, h.needed, shift_agree h.lastBit _, fun _ => ⟨hend, hbuf⟩, fun _ _ => hretries,
      fun _ => ⟨rfl, hpos, hle⟩⟩, rfl⟩
  · dsimp only
    split
    · exact ⟨⟨rfl, h.needed, shift_agree h.lastBit _, fun _ => ⟨rfl, hbuf⟩, fun _ _ => hretries,
        fun _ => ⟨rfl, rfl, hle⟩⟩, rfl⟩
    · split
      · exact ⟨⟨rfl, rfl, shift_agree h.lastBit _, fun _ => ⟨rfl, hbuf⟩, fun _ _ => hretries,
          fun _ => ⟨rfl, rfl, hle⟩⟩, rfl⟩
      · next hlast =>
        have hne : t.bufEnd ≠ t.bufPos := by simpa using hlast
        have hnext : (t.bufPos + 1) % 256 ≤ t.bufEnd := (Nat.mod_le _ _).trans (by omega)
        exact ⟨⟨rfl, rfl, shift_agree h.lastBit _, fun _ => ⟨rfl, hbuf⟩, fun _ _ => hretries,
          fun _ => ⟨rfl, rfl, hnext⟩⟩, rfl⟩

theorem agree_getBit {s t : Cec D} (h : Agree R s t) (hb : s.tx.state.busy) :
    Agree R (cecTransmitGetBit s).1 (cecTransmitGetBit t).1 ∧
      (cecTransmitGetBit t).2 = (cecTransmitGetBit s).2 := by
  obtain ⟨htx, hbit⟩ := agreeTx_getBit h.tx hb (Driver.idleWait D s.build cecPresentPeriodWait)
  rw [cecTransmitGetBit, cecTransmitGetBit, h.build]
  exact ⟨⟨h.build, h.addr, h.flags, h.buf, htx, h.hw⟩, congrArg Prod.fst hbit⟩

/-! ### The receive engine -/

theorem agree_receiveError (hR : Respects R) {s t : Cec D} (h : Agree R s t) (err : Err) :
    Agree R (cecReceiveError s err) (cecReceiveError t err) := by
  rw [cecReceiveError, cecReceiveError, h.flags]
  split
  · exact h
  · apply agree_onError hR
    refine ⟨h.build, h.addr, rfl, h.buf, h.tx, ?_⟩
    dsimp only
    rw [h.build]
    split
    · exact hR.nack _ h.hw
    · exact h.hw

theorem agree_receiveStart {s t : Cec D} (h : Agree R s t) :
    Agree R (cecReceiveStart s) (cecReceiveStart t) ∧ (cecReceiveStart t).rx = (cecReceiveStart s).rx := by
  have hneeded : (cecReceiveStart t).tx.needed = (cecReceiveStart s).tx.needed :=
    congrArg (fun b => Driver.idleWait D b cecNewPeriodWait) h.build
  have hrx : (cecReceiveStart t).rx = (cecReceiveStart s).rx :=
    congrArg (fun buf => ({ buf := buf, byte := 1, flags := { active := true, bitsEom := true } } : Receive)) h.buf
  have htx := h.tx
  exact ⟨⟨h.build, h.addr, congrArg Receive.flags hrx, congrArg Receive.buf hrx,
    ⟨htx.state, hneeded, htx.lastBit, htx.queued, htx.retries, htx.place⟩, h.hw⟩, hrx⟩

omit [Driver D] in
theorem byteDone_rx {s t : Cec D} (hb : t.build = s.build) (ha : t.addr = s.addr) (hr : t.rx = s.rx)
    (f : Flags) (p v : Nat) : (receiveByteDone t f p v).rx = (receiveByteDone s f p v).rx := by
  have hflags : byteFlags t f p v = byteFlags s f p v := by
    rw [byteFlags, byteFlags, firstByteFlags, firstByteFlags, Cec.header, Cec.header, hb, ha, hr]
  rw [receiveByteDone, receiveByteDone]
  dsimp only
  rw [hflags, hb, hr]

theorem dataEom_rx {s t : Cec D} (hb : t.build = s.build) (ha : t.addr = s.addr) (hr : t.rx = s.rx)
    (f : Flags) (p : Nat) (b : Bool) : (receiveDataEom t f p b).rx = (receiveDataEom s f p b).rx := by
  have hs := sameReceive_checkTxBit s b
  have ht := sameReceive_checkTxBit t b
  have hrx : (cecCheckTxBit t b).rx = (cecCheckTxBit s b).rx := by rw [hs.rx, ht.rx, hr]
  have hdone := byteDone_rx (by rw [hs.build, ht.build, hb]) (by rw [hs.addr, ht.addr, ha]) hrx f p
  rw [receiveDataEom, receiveDataEom]
  dsimp only
  rw [hrx]
  split
  · split
    · exact hdone _
    · rfl
  · rfl

theorem ack_rx {s t : Cec D} (hb : t.build = s.build) (hr : t.rx = s.rx) (f : Flags) (p : Nat) (b : Bool) :
    (receiveAck t f p b).rx = (receiveAck s f p b).rx := by
  have hs := sameReceive_receiveAck s (f.ack b)
  have ht := sameReceive_receiveAck t (f.ack b)
  have hrx : (cecTransmitReceiveAck t (f.ack b)).rx = (cecTransmitReceiveAck s (f.ack b)).rx := by
    rw [hs.rx, ht.rx, hr]
  have hbuild : (cecTransmitReceiveAck t (f.ack b)).build = (cecTransmitReceiveAck s (f.ack b)).build := by
    rw [hs.build, ht.build, hb]
  rw [receiveAck, receiveAck]
  dsimp only
  generalize (if (!f.ack b) = true then { f with nacked := true } else f) = g
  split
  · rw [receiveDone, receiveDone]
    dsimp only
    rw [hrx, hbuild]
  · dsimp only
    rw [hrx]

/-- A bit, with the places in the reception equal too. -/
theorem agree_receiveBit (hR : Respects R) {s t : Cec D} (h : Agree R s t) (hr : t.rx = s.rx) (b : Bool) :
    Agree R (cecReceiveBit s b) (cecReceiveBit t b) ∧ (cecReceiveBit t b).rx = (cecReceiveBit s b).rx := by
  have hemit : Agree R (s.emit (.bit b)) (t.emit (.bit b)) := ⟨h.build, h.addr, h.flags, h.buf, h.tx, h.hw⟩
  have hheard : Agree R (heardByTransmit s b) (heardByTransmit t b) := by
    rw [heardByTransmit, heardByTransmit, hr]
    split
    · exact agree_checkTxBit hR hemit b
    · exact agree_transmitAck hR hemit _
  have hrx : (cecReceiveBit t b).rx = (cecReceiveBit s b).rx := by
    rw [cecReceiveBit, cecReceiveBit, hr]
    split
    · exact dataEom_rx hemit.build hemit.addr hr s.rx.flags s.rx.pos b
    · exact ack_rx hemit.build hr s.rx.flags s.rx.pos b
  have hs := sameTransmit_receiveBit s b
  have ht := sameTransmit_receiveBit t b
  refine ⟨⟨?_, ?_, congrArg Receive.flags hrx, congrArg Receive.buf hrx, ?_, ?_⟩, hrx⟩
  · rw [hs.build, ht.build]; exact hheard.build
  · rw [hs.addr, ht.addr]; exact hheard.addr
  · rw [hs.tx, ht.tx]; exact hheard.tx
  · rw [hs.hw, ht.hw]; exact hheard.hw

end

/-! ### The address module and the application -/

theorem agree_clear {s t : Cec D} (h : Agree R s t) : Agree R (clearHeader s) (clearHeader t) := by
  refine ⟨h.build, h.addr, h.flags, ?_, h.tx, h.hw⟩
  change Function.update t.rx.buf t.build.hdr 0 = Function.update s.rx.buf s.build.hdr 0
  rw [h.buf, h.build]

theorem agree_queue {s t : Cec D} (h : Agree R s t) {buf buf' : Nat → Nat} {bufEnd : Nat}
    (hbuf : ∀ i ≤ bufEnd, buf' i = buf i) : Agree R (queue s buf bufEnd) (queue t buf' bufEnd) :=
  ⟨h.build, h.addr, h.flags, h.buf, ⟨rfl, h.tx.needed, h.tx.lastBit, fun _ => ⟨rfl, hbuf⟩,
    fun _ hp => absurd rfl hp, fun hb => absurd hb (by decide : ¬ TransmitState.pend.busy)⟩, h.hw⟩

theorem agree_addrPeriodic {s t : Cec D} (h : Agree R s t) :
    Agree R (cecAddrPeriodic s) (cecAddrPeriodic t) := by
  have hclear := agree_clear h
  rw [cecAddrPeriodic, cecAddrPeriodic, h.addr]
  split
  · next l a i _ =>
    dsimp only
    split
    · exact h
    · generalize clearHeader s = u at hclear
      generalize clearHeader t = v at hclear
      rw [hclear.tx.state]
      split
      · split
        · exact ⟨hclear.build, rfl, hclear.flags, hclear.buf, hclear.tx, hclear.hw⟩
        · have hbuf : ∀ j ≤ 0, Function.update v.tx.buf 0 (l.getD i 0) j
              = Function.update u.tx.buf 0 (l.getD i 0) j := by
            intro j hj
            obtain rfl := Nat.le_zero.mp hj
            rw [Function.update_self, Function.update_self]
          have hq := agree_queue hclear hbuf
          exact ⟨hq.build, rfl, hq.flags, hq.buf, hq.tx, hq.hw⟩
      · next hi =>
        have hzero : v.tx.buf 0 = u.tx.buf 0 := (hclear.tx.queued hi).2 0 (Nat.zero_le _)
        rw [hzero]
        split
        · exact ⟨hclear.build, rfl, hclear.flags, hclear.buf, hclear.tx, hclear.hw⟩
        · exact hclear
  · exact h

theorem agree_app {s t : Cec D} (h : Agree R s t) (a : App) : Agree R (a.step s) (a.step t) := by
  cases a with
  | clear => exact agree_clear h
  | send message =>
    rw [App.step, App.step, h.tx.state]
    split
    · next hsend =>
      refine agree_queue h fun i hi => ?_
      have hlen : i < message.length := by
        have hpos := List.length_pos_iff.mpr hsend.2.1
        omega
      rw [List.getD_eq_getElem _ _ hlen, List.getD_eq_getElem _ _ hlen]
    · exact h
  | assign m =>
    rw [App.step, App.step, h.addr]
    split
    · exact ⟨h.build, rfl, h.flags, h.buf, h.tx, h.hw⟩
    · exact h

/-- Clearing the header is all that either does to the receive side. -/
theorem addrPeriodic_rx (s : Cec D) : (cecAddrPeriodic s).rx = { s.rx with buf := (cecAddrPeriodic s).rx.buf } := by
  rw [cecAddrPeriodic]
  dsimp only
  repeat' split
  all_goals rfl

theorem app_rx (s : Cec D) (a : App) : (a.step s).rx = { s.rx with buf := (a.step s).rx.buf } := by
  cases a <;> rw [App.step]
  · rfl
  · split <;> rfl
  · split <;> rfl

end

/-! ### What a run keeps of the firmware -/

/-- The address module as `cec_addr_init` leaves it. -/
def Addr.atInit : Addr → Addr
  | .bitfield _ => .bitfield 0
  | .devType cecDevAddrs _ _ => .devType cecDevAddrs 0xff 0
  | a => a

/-- The firmware a device runs: its build and its address module. -/
structure Runs (build : Build) (addr : Addr) {D : Type} (s : Cec D) : Prop where
  build : s.build = build
  addr : s.addr.atInit = addr.atInit

section
variable {D : Type} {build : Build} {addr : Addr} {s t : Cec D}

theorem addrInit_addr (s : Cec D) : (cecAddrInit s).addr = s.addr.atInit := by
  rw [cecAddrInit]
  cases h : s.addr with
  | none => exact h
  | fixed a => exact h
  | bitfield m => rfl
  | devType l a i => rfl

theorem Runs.of_eq (h : Runs build addr s) (hb : t.build = s.build) (ha : t.addr = s.addr) : Runs build addr t :=
  ⟨hb.trans h.build, by rw [ha]; exact h.addr⟩

theorem Runs.addrInit (h : Runs build addr s) : Runs build addr (cecAddrInit s) := by
  refine ⟨(addrInit_build s).trans h.build, ?_⟩
  rw [addrInit_addr, ← h.addr]
  cases s.addr <;> rfl

theorem Runs.addrPeriodic (h : Runs build addr s) : Runs build addr (cecAddrPeriodic s) := by
  have ha := h.addr
  rw [cecAddrPeriodic]
  split
  · next l a i hs =>
    rw [hs] at ha
    dsimp only
    repeat' split
    · exact h
    · exact ⟨h.build, ha⟩
    · exact ⟨h.build, ha⟩
    · exact ⟨h.build, ha⟩
    · exact h.of_eq rfl rfl
  · exact h

theorem Runs.app (h : Runs build addr s) (a : App) : Runs build addr (a.step s) := by
  have ha := h.addr
  cases a with
  | clear => exact h.of_eq rfl rfl
  | send message =>
    rw [App.step]
    split
    · exact h.of_eq rfl rfl
    · exact h
  | assign m =>
    rw [App.step]
    split
    · next hs =>
      rw [hs] at ha
      exact ⟨h.build, ha⟩
    · exact h

/-- The engines' part of `cec_halt`, once the reception is over. -/
theorem halted_build (u : Cec D) : (cecTransmitHalt (cecReceiveHalt u)).build = u.build := rfl

theorem halted_addr (u : Cec D) : (cecTransmitHalt (cecReceiveHalt u)).addr = u.addr := rfl

theorem halted_hw (u : Cec D) : (cecTransmitHalt (cecReceiveHalt u)).hw = u.hw := rfl

theorem halted_tx (u : Cec D) : (cecTransmitHalt (cecReceiveHalt u)).tx = { u.tx with state := .idle } := rfl

theorem halted_buf (u : Cec D) :
    (cecTransmitHalt (cecReceiveHalt u)).rx = { u.rx with buf := Function.update u.rx.buf u.build.hdr 0 } := rfl

/-- `cec_halt` ends the reception and clears the header. -/
theorem halted_rx [Driver D] (s : Cec D) :
    (cecTransmitHalt (cecReceiveHalt (cecReceiveError s .halt))).rx =
      { s.rx with flags := 0, buf := Function.update s.rx.buf s.build.hdr 0 } := by
  obtain ⟨hrx, hb, -⟩ := receiveError_rx s .halt
  rw [halted_buf, hrx, hb]

/-- The engines' part of `cec_init`. -/
theorem inited_build [Driver D] (u : Cec D) (w : D) : (cecTransmitInit { u with hw := w }).build = u.build := rfl

theorem inited_addr [Driver D] (u : Cec D) (w : D) : (cecTransmitInit { u with hw := w }).addr = u.addr := rfl

theorem inited_hw [Driver D] (u : Cec D) (w : D) : (cecTransmitInit { u with hw := w }).hw = w := rfl

theorem inited_rx [Driver D] (u : Cec D) (w : D) : (cecTransmitInit { u with hw := w }).rx = u.rx := rfl

theorem inited_tx [Driver D] (u : Cec D) (w : D) : (cecTransmitInit { u with hw := w }).tx =
    { u.tx with needed := Driver.idleWait D u.build cecNewPeriodWait } := rfl

/-- Ending a reception sends no bit. -/
theorem receiveError_lastBit [Driver D] (s : Cec D) (err : Err) :
    (cecReceiveError s err).tx.lastBit = s.tx.lastBit := by
  have hkept : KeptTx (fun _ : D => ()) fun t : Cec D => t.tx.lastBit = s.tx.lastBit :=
    { same := fun h _ ht _ _ => by rw [ht]; exact h
      nack := fun _ _ => rfl
      needed := fun _ _ h => h
      onError := fun err h hb => by
        obtain ⟨_, _, -, -, htx⟩ := onError_charged hb err
        rw [htx]
        exact h
      acked := fun h hw => by
        rw [cecTransmitReceiveAck, if_pos rfl, if_pos hw]
        exact h }
  exact hkept.receiveError rfl err

/-- Two transmit engines with nothing queued. -/
theorem agreeTx_idle {t u : Transmit} (ht : t.state = .idle) (hu : u.state = .idle) (hn : u.needed = t.needed)
    (hl : u.lastBit % 4 = t.lastBit % 4) : AgreeTx t u :=
  ⟨hu.trans ht.symm, hn, hl, fun hne => absurd ht hne, fun hne => absurd ht hne,
    fun hb => absurd hb (by rw [ht]; decide)⟩

end

end AvrCec
