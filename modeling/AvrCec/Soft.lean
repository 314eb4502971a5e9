import AvrCec.Receive
import AvrCec.Lib.Float

/-! The soft receive driver, `cec_receive_min.c`, and the PWM transmit driver,
    `cec_transmit_pwm.c`, of a build without `CEC_USI`.

    The receive driver reads the line at each poll and times its edges with a capped 16-bit timer:
    a falling edge arms a sample, which is taken by the first poll more than `CEC_T3` after it. The
    transmit driver reprograms Timer1 at each of its overflows. Times are in jiffies. -/

namespace AvrCec
open Lib

inductive PwmState where | idle | start | running | end1 | end2 | done
  deriving DecidableEq, Repr

/-- What `GTCCR` is set to: nothing yet, PWM on channel B, or the pin forced to let the line float. -/
inductive Gtccr where | reset | pwm | forced
  deriving DecidableEq, Repr

/-- The PWM driver and Timer1. `tccr1` is the clock select, 0 when the timer is stopped. -/
structure Pwm where
  transmitHighTimer : Nat := 0
  xmitState : PwmState := .idle
  tccr1 : Nat := 0
  gtccr : Gtccr := .reset
  tcnt1 : Nat := 0
  ocr1b : Nat := 0
  ocr1c : Nat := 0
  tov1 : Bool := false
  deriving DecidableEq, Repr

/-- The soft receive driver; `driven` says that it pulls the line low. -/
structure Soft where
  receiveFramePeriod : Nat := 0
  receiveFrameTimer : Nat := 0
  receiveFrameAckDone : Nat := 0
  lastState : Bool := false
  sample : Bool := false
  driven : Bool := false
  pwm : Pwm := {}
  deriving DecidableEq, Repr

/-- We lost sync and don't know where to nack: drive the line for a full frame. -/
def Soft.cecReceiveNackFrame (b : Build) (u : Soft) : Soft :=
  { u with
    driven := true
    receiveFrameAckDone := usToJiffies b (10 * cecPeriod) % 65536
    receiveFrameTimer := 0 }

/-- Stop the clock, let the line float. -/
def Pwm.cecTransmitAbort (p : Pwm) : Pwm :=
  { p with tccr1 := 0, gtccr := .forced, xmitState := .idle }

instance : Driver Soft where
  cecReceiveNackFrame := Soft.cecReceiveNackFrame
  cecTransmitAbort u := { u with pwm := u.pwm.cecTransmitAbort }
  idleWait b n := usToJiffiesUp b (n * cecPeriod) % 65536

/-! ### `cec_receive_min.c` -/

/-- The sample point of the pending bit: take it, or report that we came too late. -/
def softSample (s : Cec Soft) (state : Bool) : Cec Soft :=
  if s.hw.sample ∧ s.hw.receiveFrameTimer > usToJiffies s.build cecT3 then
    let late := s.hw.receiveFrameTimer > usToJiffiesUp s.build cecT4
    let s := { s with hw := { s.hw with sample := false } }
    if late then cecReceiveError s .hw else cecReceiveBit s state
  else s

/-- We've gone too long without an expected transition. -/
def softHold (s : Cec Soft) : Cec Soft :=
  if s.hw.receiveFrameTimer >
      (s.hw.receiveFramePeriod + usToJiffiesUp s.build 800 % 65536) % 65536 then
    cecReceiveError s .noEom
  else s

/-- A rising edge: was the low period a start condition? -/
def softRise (s : Cec Soft) : Cec Soft :=
  if s.hw.receiveFrameTimer > usToJiffies s.build cecStartLowEarly ∧
      s.hw.receiveFrameTimer < usToJiffiesUp s.build cecStartLowLate then
    cecReceiveStart { s with hw := { s.hw with
      receiveFramePeriod := usToJiffiesRnd s.build (cecStartHighEarly - 200) % 65536 } }
  else s

/-- A falling edge: an error when it comes too early, else the next bit, acked if it is the ack
    slot of a block we take. -/
def softFall (s : Cec Soft) : Cec Soft :=
  let s := if s.rx.flags ≠ 0 then
      if s.hw.receiveFrameTimer < s.hw.receiveFramePeriod then cecReceiveError s .lowDrive
      else
        let s := if s.rx.flags.doAck && !s.rx.flags.bitsEom then
            { s with hw := { s.hw with
              driven := true
              receiveFrameAckDone := usToJiffies s.build cecT5Early0 % 65536 } }
          else s
        { s with hw := { s.hw with sample := true } }
    else s
  { s with hw := { s.hw with
    receiveFramePeriod := usToJiffiesRnd s.build (cecT7EarlyEnd - 50) % 65536
    receiveFrameTimer := 0 } }

/-- The timer of the bit under way, capped at about `0xffff`. -/
def softCount (s : Cec Soft) (delta : Nat) : Cec Soft :=
  { s with hw := { s.hw with receiveFrameTimer := cappedAdd s.hw.receiveFrameTimer delta } }

/-- Done acking or nacking? -/
def softFloat (s : Cec Soft) : Cec Soft :=
  if s.hw.receiveFrameTimer > s.hw.receiveFrameAckDone then
    { s with hw := { s.hw with driven := false } }
  else s

def softEdge (s : Cec Soft) (state : Bool) : Cec Soft :=
  if state = s.hw.lastState then softHold s
  else if state then softRise s
  else softFall s

/-- One poll of the receive driver, `delta` jiffies after the last, that reads the level `state`. -/
def Soft.cecReceivePeriodic (s : Cec Soft) (delta : Nat) (state : Bool) : Cec Soft :=
  let s := softEdge (softFloat (softSample (softCount s delta) state)) state
  { s with hw := { s.hw with lastState := state } }

/-! ### `cec_transmit_pwm.c` -/

def tcnt1PrescalerIdeal (b : Build) : Nat := divRoundUp (b.fCpu * cecStartHigh) 256000000
def tcnt1PrescalerVal (b : Build) : Nat := Nat.log2 (tcnt1PrescalerIdeal b - 1) + 2
def tcnt1Prescaler (b : Build) : Nat := 2 ^ (tcnt1PrescalerVal b - 1)

/-- `US_TO_CEC_JIFFIES`. AVR's `double` is a `float`, with a significand of 24 bits. -/
def usToCecJiffies (b : Build) (n : Nat) : Nat :=
  let seconds := fl 24 (n / 1000000)
  let jiffies := fl 24 (fl 24 (seconds * fl 24 b.fCpu) / tcnt1Prescaler b)
  ⌊fl 24 (1 / 2 + jiffies)⌋₊

/-- Timer1's registers are 8 bits wide. -/
def ocr (n : Nat) : Nat := (n - 1) % 256

def setPwm (s : Cec Soft) (f : Pwm → Pwm) : Cec Soft := { s with hw := { s.hw with pwm := f s.hw.pwm } }

/-- Load the frame after the one that has begun. -/
def pwmNextBit (s : Cec Soft) : Cec Soft :=
  let r := cecTransmitGetBit s
  setPwm r.1 fun p => { p with
    ocr1b := ocr (usToCecJiffies s.build (if r.2 then cec1 else cec0))
    xmitState := if r.1.tx.state = .waitForAck then .end1 else .running }

def xmitPwmPeriodic (s : Cec Soft) : Cec Soft :=
  if !s.hw.pwm.tov1 then s
  else
    let s := setPwm s fun p => { p with tov1 := false }
    match s.hw.pwm.xmitState with
    | .running =>
      -- Is the receive side tracking us?
      if s.rx.flags = 0 then cecTransmitOnError s .arbLost
      else pwmNextBit (setPwm s fun p => { p with ocr1c := ocr (usToCecJiffies s.build cecPeriod) })
    | .start => pwmNextBit s
    | .end1 => setPwm s fun p => { p with ocr1b := 0, xmitState := .end2 }
    | .end2 => setPwm s fun p => { p with tccr1 := 0, xmitState := .idle }
    | .idle | .done => s

def xmitStart (s : Cec Soft) : Cec Soft :=
  let period := ocr (usToCecJiffies s.build cecStartHigh)
  let s := setPwm s fun p => { p with
    tcnt1 := period - 1
    ocr1c := period
    gtccr := .pwm
    ocr1b := ocr (usToCecJiffies s.build cecStartLow)
    xmitState := .start }
  let s := cecTransmitStart s
  setPwm s fun p => { p with tccr1 := tcnt1PrescalerVal s.build }

/-- One poll of the transmit driver, that reads the level `state`. -/
def Soft.cecTransmitPeriodic (s : Cec Soft) (delta : Nat) (state : Bool) : Cec Soft :=
  let s := if s.hw.pwm.xmitState ≠ .idle then xmitPwmPeriodic s else s
  if !state then setPwm s fun p => { p with transmitHighTimer := 0 }
  else
    let s := setPwm s fun p => { p with transmitHighTimer := cappedAdd p.transmitHighTimer delta }
    if s.hw.pwm.transmitHighTimer < s.tx.needed then s
    else if s.hw.pwm.xmitState = .idle ∧ s.tx.state.pending then xmitStart s
    else s

end AvrCec
