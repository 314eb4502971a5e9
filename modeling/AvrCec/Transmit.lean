import AvrCec.State

/-! The transmit engine, `cec_transmit.c`, with `CHECK_BIT_DELAY` 1 as both of its drivers have it.

    The hardware driver pulls the bits of an attempt with `cecTransmitGetBit`; the receive engine
    reports what it hears of them with `cecCheckTxBit` and `cecTransmitReceiveAck`. -/

namespace AvrCec
variable {D : Type} [Driver D]

/-- Charge a failed attempt: try again, or give up. -/
def cecTransmitFinishAbort (s : Cec D) : Cec D :=
  let retries := (s.tx.retries + 1) % 256
  { s with tx :=
      if retries = cecXmitMaxRetransmit then { s.tx with retries := retries, state := .failed }
      else { s.tx with
        retries := retries
        needed := Driver.idleWait D s.build cecPrevPeriodWait
        state := .again } }

/-- An error was detected. -/
def cecTransmitOnError (s : Cec D) (err : Err) : Cec D :=
  if s.tx.state.busy then
    let s := s.emit (.abort err)
    let s := { s with tx := { s.tx with
        stats := Function.update s.tx.stats err.val ((s.tx.stats err.val + 1) % 256) } }
    cecTransmitFinishAbort { s with hw := Driver.cecTransmitAbort s.hw }
  else s

/-- The bit the receive side should be hearing now: the one before the last we fetched. -/
def Transmit.delayed (t : Transmit) : Nat := t.lastBit >>> 1 &&& 1

/-- Make sure our own receive side is in sync with what we are sending. -/
def cecCheckTxBit (s : Cec D) (bit : Bool) : Cec D :=
  if bit.toNat ≠ s.tx.delayed then cecTransmitOnError s .arbLost else s

def cecTransmitReceiveAck (s : Cec D) (ack : Bool) : Cec D :=
  if ack then
    if s.tx.state = .waitForAck then
      let s := s.emit (.sent s.tx.message)
      { s with tx := { s.tx with state := .idle } }
    else s
  else cecTransmitOnError s .nack

/-- The hardware wants us to start the next message. -/
def cecTransmitStart (s : Cec D) : Cec D :=
  let s := s.emit .begin
  let tx := if s.tx.state = .pend then { s.tx with retries := 0, stats := fun _ => 0 } else s.tx
  { s with tx := { tx with bufBit := 0x80, bufPos := 0, state := .bitEom } }

/-- Set up the cycle after the one that sends `bit`. -/
def Transmit.shift (t : Transmit) (bit : Bool) (bufBit : Nat) : Transmit :=
  { t with lastBit := (t.lastBit <<< 1 ||| bit.toNat) % 256, bufBit := bufBit }

/-- The next bit of the message: the engine after it, the bit, and the index of `transmit_buf` that
    it was read from. `present` is the idle wait of a present initiator. -/
def Transmit.getBit (t : Transmit) (present : Nat) : Transmit × Bool × Option Nat :=
  if t.bufBit ≠ 0 then
    let bit : Bool := t.buf t.bufPos &&& t.bufBit ≠ 0
    (t.shift bit (t.bufBit >>> 1), bit, some t.bufPos)
  else
    let isLast : Bool := t.bufEnd = t.bufPos
    if t.state = .bitEom then
      -- A ping (one block) carries no EOM, so it is acked but never taken for a message.
      let bit := isLast && t.bufEnd ≠ 0
      ({ t with state := .ack }.shift bit t.bufBit, bit, none)
    else if isLast then
      ({ t with state := .waitForAck, needed := present }.shift true t.bufBit, true, none)
    else
      let t := { t with bufPos := (t.bufPos + 1) % 256, state := .bitEom, needed := present }
      (t.shift true 0x80, true, none)

/-- The hardware wants the next bit. -/
def cecTransmitGetBit (s : Cec D) : Cec D × Bool :=
  let r := s.tx.getBit (Driver.idleWait D s.build cecPresentPeriodWait)
  ({ s.emit (.getBit r.2.1 r.2.2) with tx := r.1 }, r.2.1)

/-- `cec_transmit_init`, without the driver's part. -/
def cecTransmitInit (s : Cec D) : Cec D :=
  { s with tx := { s.tx with needed := Driver.idleWait D s.build cecNewPeriodWait } }

/-! ### What the transmit engine leaves alone

The receive side is untouched by every call, and nothing of it is logged. -/

/-- `t` differs from `s` on the transmit side only. -/
structure SameReceive (s t : Cec D) : Prop where
  build : t.build = s.build
  rx : t.rx = s.rx
  addr : t.addr = s.addr
  heard : t.heard = s.heard

omit [Driver D] in
theorem SameReceive.refl (s : Cec D) : SameReceive s s := ⟨rfl, rfl, rfl, rfl⟩

omit [Driver D] in
theorem SameReceive.trans {s t u : Cec D} (h₁ : SameReceive s t) (h₂ : SameReceive t u) :
    SameReceive s u :=
  ⟨h₂.build.trans h₁.build, h₂.rx.trans h₁.rx, h₂.addr.trans h₁.addr, h₂.heard.trans h₁.heard⟩

omit [Driver D] in
theorem SameReceive.header {s t : Cec D} (h : SameReceive s t) : t.header = s.header := by
  rw [Cec.header, Cec.header, h.rx, h.build]

theorem sameReceive_onError (s : Cec D) (err : Err) : SameReceive s (cecTransmitOnError s err) := by
  rw [cecTransmitOnError]
  split
  · exact ⟨rfl, rfl, rfl, emit_heard s (.abort err)⟩
  · exact SameReceive.refl s

theorem sameReceive_checkTxBit (s : Cec D) (bit : Bool) : SameReceive s (cecCheckTxBit s bit) := by
  rw [cecCheckTxBit]
  split
  · exact sameReceive_onError s .arbLost
  · exact SameReceive.refl s

theorem sameReceive_receiveAck (s : Cec D) (ack : Bool) :
    SameReceive s (cecTransmitReceiveAck s ack) := by
  rw [cecTransmitReceiveAck]
  cases ack with
  | false => exact sameReceive_onError s .nack
  | true =>
    rw [if_pos rfl]
    split
    · exact ⟨rfl, rfl, rfl, emit_heard s (.sent s.tx.message)⟩
    · exact SameReceive.refl s

omit [Driver D] in
theorem sameReceive_transmitStart (s : Cec D) : SameReceive s (cecTransmitStart s) :=
  ⟨rfl, rfl, rfl, emit_heard s .begin⟩

theorem sameReceive_getBit (s : Cec D) : SameReceive s (cecTransmitGetBit s).1 :=
  ⟨rfl, rfl, rfl, emit_heard s _⟩

end AvrCec
