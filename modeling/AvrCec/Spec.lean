import AvrCec.Lib.Run
import Mathlib.Algebra.Ring.Nat

/-! The constants of `cec_spec.h` and `cec.h`, and the arithmetic of `div.h` and `time.h`.

    Times are in microseconds, as in the source. `Build` collects what a firmware fixes at compile
    time: the number of application bytes ahead of the receive buffer's header, and the clock from
    which `time.h` derives its jiffies. `F_CPU` is taken as a 64-bit constant, by which the products
    of the `US_TO_JIFFIES` family are exact; with a 32-bit one those of the longer waits wrap. -/

namespace AvrCec

/-! ### `cec.h` and `cec_spec.h` -/

def cecBufferSize : Nat := 16
def cecAddrBroadcast : Nat := 0xf
def cecAddrUnregistered : Nat := 15

def cecT1Early1 : Nat := 400
def cec1 : Nat := 600
def cecT2Late1 : Nat := 800
def cecT3 : Nat := 850
def cecNomSample : Nat := 1050
def cecT4 : Nat := 1250
def cecT5Early0 : Nat := 1300
def cec0 : Nat := 1500
def cecT6Late0 : Nat := 1700
def cecT7EarlyEnd : Nat := 2050
def cecPeriod : Nat := 2400
def cecT8LateEnd : Nat := 2750

def cecStartLowEarly : Nat := 3500
def cecStartLow : Nat := 3700
def cecStartLowLate : Nat := 3900

def cecStartHighEarly : Nat := 4300
def cecStartHigh : Nat := 4500
def cecStartHighLate : Nat := 4700

def cecPresentPeriodWait : Nat := 7
def cecNewPeriodWait : Nat := 5
def cecPrevPeriodWait : Nat := 3

def cecMaxRiseTime : Nat := 250

def cecXmitMaxRetransmit : Nat := 5

/-- The `CEC_ERR_*` codes. -/
inductive Err where | none | arbLost | nack | noEom | lowDrive | halt | hw
  deriving DecidableEq, Repr

/-- The value of an error code, its slot in `transmit_state_buf`. -/
def Err.val : Err → Nat
  | .none => 0
  | .arbLost => 1
  | .nack => 2
  | .noEom => 3
  | .lowDrive => 4
  | .halt => 5
  | .hw => 6

/-! ### `div.h` and `time.h` -/

def divRound (n d : Nat) : Nat := (n + d / 2) / d

/-- The C version: `(n) - 1UL` wraps at 0, in the 64 bits of a product with `F_CPU`. -/
def divRoundUp (n d : Nat) : Nat := 1 + (if n = 0 then 2 ^ 64 - 1 else n - 1) / d

/-- The assembler's version: its numbers are signed, and a division truncates `-1 / d` to 0. -/
def asmDivRoundUp (n d : Nat) : Nat := 1 + (n - 1) / d

theorem divRoundUp_of_pos {n : Nat} (hn : 0 < n) (d : Nat) : divRoundUp n d = asmDivRoundUp n d := by
  rw [divRoundUp, if_neg (by omega), asmDivRoundUp]

/-- What the firmware fixes at compile time. -/
structure Build where
  /-- `CEC_RECEIVE_BUF_HDR`: application bytes at the head of the receive buffer. -/
  hdr : Nat := 0
  fCpu : Nat := 1000000
  tcnt0Prescaler : Nat := 1
  deriving DecidableEq

def usToJiffies (b : Build) (n : Nat) : Nat := n * b.fCpu / (b.tcnt0Prescaler * 1000000)
def usToJiffiesRnd (b : Build) (n : Nat) : Nat := divRound (n * b.fCpu) (b.tcnt0Prescaler * 1000000)
def usToJiffiesUp (b : Build) (n : Nat) : Nat := divRoundUp (n * b.fCpu) (b.tcnt0Prescaler * 1000000)

/-- The inline assembly `add`/`adc`/`brcc`/`ldi` on a 16-bit timer: on a carry out of the sum the
    high byte becomes `0xff` and the low byte stays. -/
def cappedAdd (timer delta : Nat) : Nat :=
  if timer + delta < 65536 then timer + delta else 0xff00 + (timer + delta) % 256

end AvrCec
