import AvrCec.Receive

/-! The USI driver, `cec_usi.c`, and the hardware under it.

    The line is sampled, and our output shifted, once every 300 us: a *tick*. `usidr` holds the
    output bits still to come in its high part (a one pulls the line low; the top bit is the level we
    drive now) and the samples taken so far in its low part (a one is a low line). After eight ticks
    the counter overflows: the finished byte of samples is left in `usibr`, whose old content, the
    next byte to send, is loaded into `usidr`. A poll that finds the overflow flag decodes the
    samples tick by tick and queues the byte after. -/

namespace AvrCec

def sampleUs : Nat := cecPeriod / 8
def minTicks (n : Nat) : Nat := (n - 5) / sampleUs
def maxTicks (n : Nat) : Nat := 1 + (n + 5) / sampleUs

def cecPatStart0 : BitVec 8 := 0x7f
def cecPatStart1 : BitVec 8 := 0xf8
def cecPat1 : BitVec 8 := 0xc0
def cecPat0 : BitVec 8 := 0xf8
def cecPatIdle : BitVec 8 := 0x00

inductive UsiRecv where | idle | start | bits
  deriving DecidableEq, Repr

inductive UsiXmit where | idle | start | bits
  deriving DecidableEq, Repr

/-- The variables of the tick decoder, with the `FLAG1_CEC_USI_ACK_DONE` bit it clears. -/
structure Decoder where
  recvFrameTick : Nat := 0
  recvFrame : Nat := 0
  minFrameTicks : Nat := 0
  maxFrameTicks : Nat := 0
  recvState : UsiRecv := .idle
  recvLastBit : Bool := false
  ackDone : Bool := false
  deriving DecidableEq, Repr

/-- The USI driver: decoder, transmit side, pin direction and USI registers. `nacking` is
    `FLAG1_CEC_USI_NACKING`; `driven` says that the receive driver pulls the line low. -/
structure Usi where
  dec : Decoder := {}
  idleFrames : Nat := 0
  xmitState : UsiXmit := .idle
  floatTicksMax : Nat := 0
  floatTicksMaxNext : Nat := 0
  nacking : Bool := false
  driven : Bool := false
  usidr : BitVec 8 := 0
  usibr : BitVec 8 := 0
  /-- The four counter bits of `USISR`. -/
  usicnt : Nat := 0
  /-- The overflow flag of `USISR`. -/
  usioif : Bool := false
  deriving DecidableEq, Repr

/-- `USISR & 7`: the ticks since the last overflow. -/
def Usi.tick (u : Usi) : Nat := u.usicnt % 8

/-- What we drive: the top bit of the shift register, or the receive driver. -/
def Usi.low (u : Usi) : Bool := u.usidr.msb || u.driven

/-- The mask `cec_transmit_abort` builds: one step of the loop for each output bit left. -/
def abortLoop : Nat → BitVec 8 → BitVec 8 → BitVec 8
  | 0, dr, _ => dr
  | n + 1, dr, bit => abortLoop n (dr &&& bit) (bit >>> 1)

/-- The hardware's part of `cec_transmit_abort`: drop the output bits still in the data register. -/
def Usi.cecTransmitAbort (u : Usi) : Usi :=
  { u with xmitState := .idle, usidr := abortLoop (8 - u.tick) u.usidr 0x7f }

/-- We lost sync and don't know where to nack, just blast the line. -/
def Usi.cecReceiveNackFrame (u : Usi) : Usi := { u with driven := true, nacking := true }

instance : Driver Usi where
  cecReceiveNackFrame _ := Usi.cecReceiveNackFrame
  cecTransmitAbort := Usi.cecTransmitAbort
  idleWait _ n := n

/-- The decoder's variables with `f` applied. -/
def setDec (s : Cec Usi) (f : Decoder → Decoder) : Cec Usi := { s with hw := { s.hw with dec := f s.hw.dec } }

/-- No transition: a reception does not outlast its frame. -/
def tickHold (s : Cec Usi) : Cec Usi :=
  if s.hw.dec.recvFrameTick > s.hw.dec.maxFrameTicks then
    let s := cecReceiveError s .noEom
    setDec s fun d => { d with recvState := .idle }
  else s

/-- A falling edge: too early, the end of a start bit, or the next bit of a frame. -/
def tickFall (s : Cec Usi) : Cec Usi :=
  let frame := (s.hw.dec.recvFrame + 8) % 256
  let wrap : Bool := frame = 10 * 8
  let s := setDec s fun d => { d with ackDone := d.ackDone && !wrap }
  let frame := if wrap then 0 else frame
  if s.hw.dec.recvFrameTick < s.hw.dec.minFrameTicks then
    let s := cecReceiveError s .lowDrive
    setDec s fun d => { d with recvState := .idle, recvFrame := frame, recvFrameTick := 0 }
  else if s.hw.dec.recvState = .start then
    let s := cecReceiveStart s
    setDec s fun d => { d with
      ackDone := false
      recvState := .bits
      minFrameTicks := minTicks cecT7EarlyEnd
      maxFrameTicks := maxTicks cecT8LateEnd
      recvFrame := 0
      recvFrameTick := 0 }
  else setDec s fun d => { d with recvFrame := frame, recvFrameTick := 0 }

/-- A rising edge: was the low period a start condition? -/
def tickRise (s : Cec Usi) : Cec Usi :=
  if minTicks cecStartLowEarly ≤ s.hw.dec.recvFrameTick ∧
      s.hw.dec.recvFrameTick ≤ maxTicks cecStartLowLate then
    setDec s fun d => { d with
      recvState := .start
      minFrameTicks := minTicks cecStartHighEarly
      maxFrameTicks := maxTicks cecStartHighLate }
  else s

/-- The sample window of a bit. -/
def tickSample (s : Cec Usi) (bitState : Bool) : Cec Usi :=
  if s.hw.dec.recvState = .bits ∧ s.hw.dec.recvFrameTick = cecNomSample / sampleUs then
    let s := cecReceiveBit s bitState
    if s.rx.flags = 0 then setDec s fun d => { d with recvState := .idle } else s
  else s

/-- One more tick since the last falling edge, up to 255. -/
def tickCount (s : Cec Usi) : Cec Usi :=
  setDec s fun d => { d with recvFrameTick := min (d.recvFrameTick + 1) 255 }

def tickEdge (s : Cec Usi) (bitState : Bool) : Cec Usi :=
  if bitState = s.hw.dec.recvLastBit then tickHold s
  else if !bitState then tickFall s
  else tickRise s

/-- Process a 300 us time period. -/
def cecProcessTick (s : Cec Usi) (bitState : Bool) : Cec Usi :=
  let s := tickEdge (tickSample (tickCount s) bitState) bitState
  setDec s fun d => { d with recvLastBit := bitState }

/-- The next byte to queue behind the one being sent. -/
def cecUsiNextBit (s : Cec Usi) : Cec Usi × BitVec 8 :=
  match s.hw.xmitState with
  | .idle =>
    if s.tx.state.pending ∧ s.tx.needed ≤ s.hw.idleFrames then
      let s := cecTransmitStart s
      ({ s with hw := { s.hw with floatTicksMaxNext := 8, xmitState := .start } }, cecPatStart0)
    else (s, cecPatIdle)
  | .start =>
    ({ s with hw := { s.hw with
        xmitState := .bits
        floatTicksMaxNext := divRoundUp (cecStartLow + cecMaxRiseTime) sampleUs - 8 } }, cecPatStart1)
  | .bits =>
    let r := cecTransmitGetBit s
    let s := r.1
    ({ s with hw := { s.hw with
        xmitState := if s.tx.state = .waitForAck then .idle else .bits
        floatTicksMaxNext := if r.2 && s.hw.dec.recvFrame ≠ 7 * 8
          then divRoundUp (cec1 + cecMaxRiseTime) sampleUs
          else divRoundUp (cec0 + cecMaxRiseTime) sampleUs } },
      if r.2 then cecPat1 else cecPat0)

/-- How many of the last `n` samples of `reg` were low, up to the first high one; `none` when all
    `acks` are used up by them. -/
def ackMissed : Nat → BitVec 8 → Nat → Option Nat
  | 0, _, acks => some acks
  | n + 1, reg, acks =>
    if reg.getLsbD 0 = false then some acks
    else if acks - 1 = 0 then none
    else ackMissed n (reg >>> 1) (acks - 1)

/-- The ack bits for the `n` output bits left in the data register, and the acks left over. -/
def ackBits : Nat → Nat → BitVec 8 → BitVec 8 × Nat
  | 0, acks, bits => (bits, acks)
  | n + 1, acks, bits =>
    if acks - 1 = 0 then (bits, 0)
    else if n = 0 then (bits, acks - 1)
    else ackBits n (acks - 1) (bits.sshiftRight 1)

/-- The acks left over, as the head of the next byte. -/
def ackRest : Nat → BitVec 8 → BitVec 8
  | 0, bits => bits
  | acks + 1, bits => if acks = 0 then bits else ackRest acks (bits.sshiftRight 1)

/-- Inject up to `acks` low ticks, counted from the falling edge seen in the data register. -/
def cecReceiveDoAck (u : Usi) (acks : Nat) : Usi :=
  match ackMissed u.tick u.usidr acks with
  | none => u
  | some acks =>
    let (bits, acks) := ackBits (8 - u.tick) acks 0x80
    let u := { u with usidr := u.usidr ||| bits }
    if acks = 0 then u else { u with usibr := ackRest acks 0x80 }

/-- The samples of a byte as line levels, first sample first. -/
def byteTicks (b : BitVec 8) : List Bool := (List.range 8).map fun i => !b.getMsbD i

/-- We nack for at least one full frame. -/
def floatNack (u : Usi) : Usi := { u with driven := u.driven && u.nacking, nacking := false }

/-- Count the number of consecutive idle frames. -/
def countIdle (u : Usi) (buf : BitVec 8) : Usi :=
  { u with idleFrames := if buf ≠ 0 then 0 else min (u.idleFrames + 1) 255 }

/-- Write out the next byte, and account for the overflow. -/
def writeOut (s : Cec Usi) : Cec Usi :=
  let r := cecUsiNextBit s
  { r.1 with hw := { r.1.hw with usibr := r.2, usicnt := r.1.hw.usicnt ||| 8, usioif := false } }

/-- Handle an overflow: decode the byte read and queue the next one. -/
def handleOverflow (s : Cec Usi) : Cec Usi :=
  let buf := s.hw.usibr
  writeOut ((byteTicks buf).foldl cecProcessTick { s with hw := countIdle (floatNack s.hw) buf })

/-- Handle outgoing acks; `others` says whether another device pulls the line low now. -/
def handleAck (s : Cec Usi) (others : Bool) : Cec Usi :=
  if !s.hw.dec.ackDone && s.rx.flags.doAck && (s.hw.low || others) then
    let ticks := (s.hw.dec.recvFrameTick + s.hw.tick) % 256
    if s.hw.dec.recvFrame = 9 * 8 ∧ s.hw.dec.recvFrameTick < 4 then
      let s := setDec s fun d => { d with ackDone := true }
      { s with hw := cecReceiveDoAck s.hw (4 - s.hw.dec.recvFrameTick) }
    else if s.hw.dec.recvFrame = 8 * 8 ∧ maxTicks cecT6Late0 ≤ ticks then
      let s := setDec s fun d => { d with ackDone := true }
      { s with hw := cecReceiveDoAck s.hw 5 }
    else s
  else s

/-- The bound queued with the byte that is now being sent. -/
def loadFloatMax (u : Usi) : Usi :=
  { u with floatTicksMax := if u.usioif then u.floatTicksMaxNext else u.floatTicksMax }

/-- The check at the top of a poll: no one else may hold the line low past our own low time. -/
def checkFloat (s : Cec Usi) (others : Bool) : Cec Usi :=
  let s := { s with hw := loadFloatMax s.hw }
  if (s.hw.low || others) && s.hw.floatTicksMax ≤ s.hw.tick then cecTransmitOnError s .arbLost else s

/-- One poll. The line is read twice; `others₁` and `others₂` say whether another device pulls it
    low at each reading. -/
def Usi.cecReceivePeriodic (s : Cec Usi) (others₁ others₂ : Bool) : Cec Usi :=
  let overflow := s.hw.usioif
  let s := checkFloat s others₁
  let s := if overflow then handleOverflow s else s
  handleAck s others₂

/-- One tick of the clock: the line is sampled into the data register and the output shifted; the
    sixteenth count overflows. -/
def Usi.clock (u : Usi) (others : Bool) : Usi :=
  let shifted := u.usidr <<< 1 ||| (BitVec.ofBool (u.low || others)).setWidth 8
  if u.usicnt = 15 then
    { u with usidr := u.usibr, usibr := shifted, usicnt := 0, usioif := true }
  else { u with usidr := shifted, usicnt := u.usicnt + 1 }

end AvrCec
