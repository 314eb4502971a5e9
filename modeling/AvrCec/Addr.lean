import AvrCec.State

/-! The address modules `cec_addr_none.c`, `cec_addr_fixed.c`, `cec_addr_bitfield.c` and
    `cec_addr_dev_type.c`, and what an application does with the library's variables. The source
    picks one module at compile time; `Addr` says which. -/

namespace AvrCec
variable {D : Type}

/-- Whether `addr` is one of our logical addresses. -/
def cecAddrMatch : Addr → Nat → Bool
  | .none, _ => false
  | .fixed address, addr => addr == address
  | .bitfield logicalAddresses, addr => logicalAddresses.testBit addr
  | .devType _ logicalAddress _, addr => addr == logicalAddress

def cecAddrReady : Addr → Bool
  | .none => false
  | .devType _ logicalAddress _ => logicalAddress != 0xff
  | _ => true

/-- Whoever reads the message clears the header byte to hand the buffer back. -/
def clearHeader (s : Cec D) : Cec D :=
  let s := s.emit .clear
  { s with rx := { s.rx with buf := Function.update s.rx.buf s.build.hdr 0 } }

/-- Load a message of `bufEnd + 1` bytes and set the transmit state to pending. -/
def queue (s : Cec D) (buf : Nat → Nat) (bufEnd : Nat) : Cec D :=
  { s with tx := { s.tx with buf := buf, bufEnd := bufEnd, state := .pend } }

def cecAddrInit (s : Cec D) : Cec D :=
  match s.addr with
  | .bitfield _ => { s with addr := .bitfield 0 }
  | .devType cecDevAddrs _ _ =>
    { s with addr := .devType cecDevAddrs 0xff 0, tx := { s.tx with state := .idle } }
  | _ => s

@[simp] theorem addrInit_build (s : Cec D) : (cecAddrInit s).build = s.build := by
  unfold cecAddrInit; split <;> rfl
@[simp] theorem addrInit_rx (s : Cec D) : (cecAddrInit s).rx = s.rx := by
  unfold cecAddrInit; split <;> rfl
@[simp] theorem addrInit_hw (s : Cec D) : (cecAddrInit s).hw = s.hw := by
  unfold cecAddrInit; split <;> rfl
@[simp] theorem addrInit_log (s : Cec D) : (cecAddrInit s).log = s.log := by
  unfold cecAddrInit; split <;> rfl

/-- The traditional assignment: poll the addresses of our device type until one is not acked. -/
def cecAddrPeriodic (s : Cec D) : Cec D :=
  match s.addr with
  | .devType cecDevAddrs logicalAddress cecDevIdx =>
    if cecAddrReady s.addr then s
    else
      let s := clearHeader s
      if s.tx.state = .idle then
        if cecDevIdx = cecDevAddrs.length then
          { s with addr := .devType cecDevAddrs cecAddrUnregistered cecDevIdx }
        else
          let buf := Function.update s.tx.buf 0 (cecDevAddrs.getD cecDevIdx 0)
          { queue s buf 0 with addr := .devType cecDevAddrs logicalAddress ((cecDevIdx + 1) % 256) }
      else if s.tx.state = .failed then
        { s with addr := .devType cecDevAddrs (s.tx.buf 0 &&& 0xf) cecDevIdx }
      else s
  | _ => s

/-- What the application does between polls: it clears the header byte at any moment, loads the
    transmit interface while that is free, and (bitfield module) assigns logical addresses. -/
inductive App where
  | clear
  | send (message : List Nat)
  | assign (logicalAddresses : Nat)
  deriving DecidableEq, Repr

/-- A message the transmit interface can hold: 1 to 16 bytes. -/
def Sendable (message : List Nat) : Prop :=
  message ≠ [] ∧ message.length ≤ cecBufferSize ∧ ∀ b ∈ message, b < 256

instance (message : List Nat) : Decidable (Sendable message) := by
  unfold Sendable; infer_instance

/-- The application follows the transmit interface's contract: it loads the buffer only when the
    transmit state is idle or failed. -/
def App.step (s : Cec D) : App → Cec D
  | .clear => clearHeader s
  | .send message =>
    if s.tx.state.val < TransmitState.pend.val ∧ Sendable message then
      queue s (fun i => message.getD i (s.tx.buf i)) (message.length - 1)
    else s
  | .assign logicalAddresses =>
    match s.addr with
    | .bitfield _ => { s with addr := .bitfield logicalAddresses }
    | _ => s

end AvrCec
