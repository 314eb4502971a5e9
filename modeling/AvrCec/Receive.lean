import AvrCec.Transmit
import AvrCec.Addr

/-! The receive engine, `cec_receive.c`, in a build with `CEC_MONITOR` 0.

    A reception is opened by `cecReceiveStart` and fed one bit at a time: eight data bits and the EOM
    bit of a block while `bitsEom` is set, then the block's ack bit. `byte` is a shift register with
    a marker bit ahead of the data, 0 between the last data bit and the next block. -/

namespace AvrCec
variable {D : Type} [Driver D]

def cecReceiveError (s : Cec D) (err : Err) : Cec D :=
  if s.rx.flags = 0 then s
  else
    -- Having lost sync in a broadcast, the driver blasts the line.
    let hw := if s.rx.flags.bcast then Driver.cecReceiveNackFrame s.build s.hw else s.hw
    cecTransmitOnError { s.emit (.error err) with rx := { s.rx with flags := 0 }, hw := hw } err

/-- The underlying hardware got us a start frame. -/
def cecReceiveStart (s : Cec D) : Cec D :=
  let s := s.emit .start
  { s with
    rx := { s.rx with pos := 0, byte := 1, flags := { active := true, bitsEom := true } }
    tx := { s.tx with needed := Driver.idleWait D s.build cecNewPeriodWait } }

/-- The target address is in: who is it for, and may we take it? Returns the flags and `nack`. -/
def firstByteFlags (s : Cec D) (flags : Flags) (receiveByte : Nat) : Flags × Bool :=
  let addr := receiveByte &&& 0xf
  let flags := if addr = cecAddrBroadcast then { flags with bcast := true }
    else if cecAddrMatch s.addr addr then { flags with doAck := true }
    else flags
  if s.header ≠ 0 then ({ flags with ignore := true }, true) else (flags, false)

/-- A whole byte is in: the flags after it and `nack`. -/
def byteFlags (s : Cec D) (flags : Flags) (receivePos receiveByte : Nat) : Flags × Bool :=
  if receivePos = 0 then firstByteFlags s flags receiveByte
  else if receivePos = cecBufferSize then ({ flags with overrun := true }, true)
  else (flags, false)

/-- A whole byte is in: store it, or refuse it. -/
def receiveByteDone (s : Cec D) (flags : Flags) (receivePos receiveByte : Nat) : Cec D :=
  let r := byteFlags s flags receivePos receiveByte
  let index := receivePos + 1 + s.build.hdr
  -- A broadcast is refused by driving the ack slot, a directed message by leaving it alone.
  let flags := if r.2 then { r.1 with doAck := r.1.bcast } else r.1
  let keep := !r.2 && !(flags.ignore || flags.overrun)
  { s.emitIf keep (.store index receiveByte) with rx := { s.rx with
      buf := if keep then Function.update s.rx.buf index receiveByte else s.rx.buf
      pos := (receivePos + 1) % 256
      byte := 0
      flags := flags } }

/-- A data bit, or the EOM bit. -/
def receiveDataEom (s : Cec D) (flags : Flags) (receivePos : Nat) (bit : Bool) : Cec D :=
  let s := cecCheckTxBit s bit
  let receiveByte := s.rx.byte
  if receiveByte ≠ 0 then
    let done := receiveByte &&& 0x80 ≠ 0
    let receiveByte := (receiveByte <<< 1 ||| bit.toNat) % 256
    if done then receiveByteDone s flags receivePos receiveByte
    else { s with rx := { s.rx with byte := receiveByte, flags := flags } }
  else
    let flags := if bit then { flags with eom := true } else flags
    { s with rx := { s.rx with flags := { flags with bitsEom := false } } }

/-- The ack the engine reads into a line level: the polarity is reversed in a broadcast. -/
def Flags.ack (flags : Flags) (level : Bool) : Bool := if !flags.bcast then !level else level

/-- We are done: hand the message over, unless it was ignored; the remainder, if any, is too. -/
def receiveDone (s : Cec D) (flags : Flags) (receivePos : Nat) : Cec D :=
  let header := receivePos ||| flags.status
  { (s.emitIf (!flags.ignore) (.header header)).emit .done with rx := { s.rx with
      buf := if !flags.ignore then Function.update s.rx.buf s.build.hdr header else s.rx.buf
      flags := 0 } }

/-- The ack bit. -/
def receiveAck (s : Cec D) (flags : Flags) (receivePos : Nat) (bit : Bool) : Cec D :=
  let bit := flags.ack bit
  let s := cecTransmitReceiveAck s bit
  let flags := if !bit then { flags with nacked := true } else flags
  if !bit || flags.eom then receiveDone s flags receivePos
  else { s with rx := { s.rx with byte := 1, flags := { flags with bitsEom := true } } }

/-- The underlying hardware got us a new bit. -/
def cecReceiveBit (s : Cec D) (bit : Bool) : Cec D :=
  let flags := s.rx.flags
  let receivePos := s.rx.pos
  let s := s.emit (.bit bit)
  if flags.bitsEom then receiveDataEom s flags receivePos bit
  else receiveAck s flags receivePos bit

end AvrCec
