import AvrCec.Spec
import Mathlib.Logic.Function.Basic

/-! The state of the library: the static variables of `cec_receive.c` and `cec_transmit.c`, those of
    the address module, and the hardware driver's, whose type is a parameter.

    `log` is a ghost: no function of the source reads it. It records, newest first, the calls the
    properties are about (a reception started, a bit consumed, a byte stored, an attempt aborted and
    so on), so that a statement about a whole run is a statement about one list. -/

namespace AvrCec

/-- `cec_receive_flags`: one field for each of its eight bits. -/
structure Flags where
  active : Bool := false
  bcast : Bool := false
  doAck : Bool := false
  bitsEom : Bool := false
  eom : Bool := false
  ignore : Bool := false
  overrun : Bool := false
  nacked : Bool := false
  deriving DecidableEq, Repr

instance : Zero Flags := ⟨{}⟩

theorem Flags.zero_def : (0 : Flags) = {} := rfl

/-- The status bits of the header byte: `flags & (CEC_STATUS_NACK | CEC_STATUS_OVERRUN)`. -/
def Flags.status (f : Flags) : Nat := (if f.nacked then 0x80 else 0) ||| (if f.overrun then 0x40 else 0)

/-- The receive engine. `buf` is the memory from the start of `cec_receive_buf` on; the array itself
    is its first `CEC_BUFFER_SIZE + CEC_RECEIVE_BUF_HDR + 1` entries. -/
structure Receive where
  buf : Nat → Nat := fun _ => 0
  byte : Nat := 0
  pos : Nat := 0
  flags : Flags := 0

/-- The values of `transmit_state`. -/
inductive TransmitState where
  | idle | failed | pend | again | bitEom | ack | waitForAck
  deriving DecidableEq, Repr

/-- The byte that stands for a transmit state. -/
def TransmitState.val : TransmitState → Nat
  | .idle => 0
  | .failed => 1
  | .pend => 2
  | .again => 3
  | .bitEom => 4
  | .ack => 8
  | .waitForAck => 16

/-- `transmit_state > TRANSMIT_AGAIN`: an attempt is under way. -/
abbrev TransmitState.busy (t : TransmitState) : Prop := TransmitState.again.val < t.val

/-- `transmit_state & TRANSMIT_PEND`: a message waits for an attempt. -/
abbrev TransmitState.pending (t : TransmitState) : Prop := t.val &&& TransmitState.pend.val ≠ 0

/-- The transmit engine. `needed` is `needed_idle_frames` or `needed_idle_time`, and `stats` the
    counters that `CEC_ERR_STATS` keeps behind `transmit_state`. -/
structure Transmit where
  buf : Nat → Nat := fun _ => 0
  bufEnd : Nat := 0
  bufBit : Nat := 0
  bufPos : Nat := 0
  lastBit : Nat := 0
  state : TransmitState := .idle
  retries : Nat := 0
  needed : Nat := 0
  stats : Nat → Nat := fun _ => 0

/-- The message queued for transmission: `transmit_buf[0..transmit_buf_end]`. -/
def Transmit.message (t : Transmit) : List Nat := (List.range (t.bufEnd + 1)).map t.buf

/-- The address module the firmware was built with, and its variables. -/
inductive Addr where
  | none
  | fixed (address : Nat)
  | bitfield (logicalAddresses : Nat)
  | devType (cecDevAddrs : List Nat) (logicalAddress cecDevIdx : Nat)
  deriving DecidableEq, Repr

/-- What the log records. -/
inductive Ev where
  /-- `cec_receive_start` was called. -/
  | start
  /-- `cec_receive_bit` was called. -/
  | bit (level : Bool)
  /-- A message byte was stored into `cec_receive_buf`. -/
  | store (index value : Nat)
  /-- The header byte was written. -/
  | header (value : Nat)
  /-- The ack bit ended the reception. -/
  | done
  /-- `cec_receive_error` ended a reception. -/
  | error (err : Err)
  /-- The header byte was cleared by its reader. -/
  | clear
  /-- `cec_transmit_start` was called. -/
  | begin
  /-- `cec_transmit_get_bit` returned `bit`; `read` is the index of `transmit_buf` it read. -/
  | getBit (bit : Bool) (read : Option Nat)
  /-- `cec_transmit_on_error` ended an attempt. -/
  | abort (err : Err)
  /-- `cec_transmit_receive_ack` took the last ack of the message. -/
  | sent (message : List Nat)
  deriving DecidableEq, Repr

/-- The events of the receive side, among them all that write to `cec_receive_buf`. -/
def Ev.ofReceive : Ev → Bool
  | .begin | .getBit .. | .abort _ | .sent _ => false
  | _ => true

/-- The whole program, over a hardware driver `D`. -/
structure Cec (D : Type) where
  build : Build
  rx : Receive
  tx : Transmit
  addr : Addr
  hw : D
  log : List Ev

variable {D : Type}

/-- Record an event. -/
def Cec.emit (s : Cec D) (e : Ev) : Cec D := { s with log := e :: s.log }

@[simp] theorem emit_build (s : Cec D) (e : Ev) : (s.emit e).build = s.build := rfl
@[simp] theorem emit_rx (s : Cec D) (e : Ev) : (s.emit e).rx = s.rx := rfl
@[simp] theorem emit_tx (s : Cec D) (e : Ev) : (s.emit e).tx = s.tx := rfl
@[simp] theorem emit_addr (s : Cec D) (e : Ev) : (s.emit e).addr = s.addr := rfl
@[simp] theorem emit_hw (s : Cec D) (e : Ev) : (s.emit e).hw = s.hw := rfl
@[simp] theorem emit_log (s : Cec D) (e : Ev) : (s.emit e).log = e :: s.log := rfl

/-- Record an event on a condition. -/
def Cec.emitIf (s : Cec D) (c : Bool) (e : Ev) : Cec D := { s with log := if c then e :: s.log else s.log }

/-- The part of the log the receive side wrote. -/
def Cec.heard (s : Cec D) : List Ev := s.log.filter Ev.ofReceive

theorem emit_heard (s : Cec D) (e : Ev) :
    (s.emit e).heard = if e.ofReceive then e :: s.heard else s.heard := by
  simp [Cec.heard, List.filter_cons]

theorem emitIf_heard (s : Cec D) (c : Bool) {e : Ev} (he : e.ofReceive = true) :
    (s.emitIf c e).heard = if c then e :: s.heard else s.heard := by
  cases c <;> simp [Cec.heard, Cec.emitIf, he]

/-- The part of the log the transmit side wrote. -/
def Cec.told (s : Cec D) : List Ev := s.log.filter fun e => !e.ofReceive

theorem emit_told (s : Cec D) {e : Ev} (he : e.ofReceive = true) : (s.emit e).told = s.told := by
  simp [Cec.told, he]

theorem emitIf_told (s : Cec D) (c : Bool) {e : Ev} (he : e.ofReceive = true) :
    (s.emitIf c e).told = s.told := by
  cases c <;> simp [Cec.told, Cec.emitIf, he]

/-- What the engines ask of a hardware driver. -/
class Driver (D : Type) where
  /-- `cec_receive_nack_frame`. -/
  cecReceiveNackFrame : Build → D → D
  /-- The hardware's part of `cec_transmit_abort`. -/
  cecTransmitAbort : D → D
  /-- The unit of the idle wait: frames for the USI, jiffies for the soft driver. -/
  idleWait : Build → Nat → Nat

/-- The header byte `cec_receive_buf[CEC_RECEIVE_BUF_HDR]`. -/
abbrev Cec.header (s : Cec D) : Nat := s.rx.buf s.build.hdr

/-- The length of `cec_receive_buf`. -/
def Build.bufLen (b : Build) : Nat := cecBufferSize + b.hdr + 1

end AvrCec
