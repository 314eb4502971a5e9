import Mathlib.Logic.Function.Basic

/-! A fragment of the AVR instruction set: the instructions short hand-written routines are made of.

    `P` names the I/O ports and `A` the bytes of data memory; registers and the bits of a byte are
    numbered. What a port reads as, and what a write to it does, belongs to a device (`Ports`). Of the
    status register only the carry, the zero and the interrupt flag are kept. A branch names the index
    of the instruction it goes to. -/

namespace AvrCec.Lib.Avr

inductive Instr (P A : Type)
  | ldi (d : Nat) (k : BitVec 8)
  | clr (d : Nat)
  | inc (d : Nat)
  | tst (d : Nat)
  | add (d r : Nat)
  | adc (d r : Nat)
  | lds (d : Nat) (a : A)
  | sts (a : A) (r : Nat)
  | inp (d : Nat) (p : P)
  | out (p : P) (r : Nat)
  | sbrc (r b : Nat)
  | sbic (p : P) (b : Nat)
  | brcc (k : Nat)
  | breq (k : Nat)
  | rjmp (k : Nat)
  | cli
  | sei
  | ret
  deriving DecidableEq, Repr

/-- The I/O space of a device of type `D`. -/
class Ports (P D : Type) where
  read : D → P → BitVec 8
  write : D → P → BitVec 8 → D

structure Machine (D A : Type) where
  regs : Nat → BitVec 8
  mem : A → BitVec 8
  io : D
  carry : Bool
  zero : Bool
  irq : Bool
  pc : Nat

variable {P D A : Type} [Ports P D] [DecidableEq A]

/-- Write a register and go on to the next instruction. -/
def Machine.load (m : Machine D A) (d : Nat) (v : BitVec 8) : Machine D A :=
  { m with regs := Function.update m.regs d v, pc := m.pc + 1 }

/-- `add` and `adc`: the sum of two registers and a carry, left in the first. -/
def Machine.sum (m : Machine D A) (d r : Nat) (c : Bool) : Machine D A :=
  { m.load d (m.regs d + m.regs r + (BitVec.ofBool c).setWidth 8) with
    carry := 256 ≤ (m.regs d).toNat + (m.regs r).toNat + c.toNat
    zero := m.regs d + m.regs r + (BitVec.ofBool c).setWidth 8 = 0 }

/-- A skip passes over the instruction behind it. -/
def Machine.skip (m : Machine D A) (c : Bool) : Machine D A :=
  { m with pc := if c then m.pc + 2 else m.pc + 1 }

def Machine.branch (m : Machine D A) (c : Bool) (k : Nat) : Machine D A :=
  { m with pc := if c then k else m.pc + 1 }

def exec (m : Machine D A) : Instr P A → Machine D A
  | .ldi d k => m.load d k
  | .clr d => { m.load d 0 with zero := true }
  | .inc d => { m.load d (m.regs d + 1) with zero := m.regs d + 1 = 0 }
  | .tst d => { m with zero := m.regs d = 0, pc := m.pc + 1 }
  | .add d r => m.sum d r false
  | .adc d r => m.sum d r m.carry
  | .lds d a => m.load d (m.mem a)
  | .sts a r => { m with mem := Function.update m.mem a (m.regs r), pc := m.pc + 1 }
  | .inp d p => m.load d (Ports.read m.io p)
  | .out p r => { m with io := Ports.write m.io p (m.regs r), pc := m.pc + 1 }
  | .sbrc r b => m.skip !(m.regs r).getLsbD b
  | .sbic p b => m.skip !(Ports.read m.io p).getLsbD b
  | .brcc k => m.branch (!m.carry) k
  | .breq k => m.branch m.zero k
  | .rjmp k => { m with pc := k }
  | .cli => { m with irq := false, pc := m.pc + 1 }
  | .sei => { m with irq := true, pc := m.pc + 1 }
  | .ret => m

/-- Run a routine until it returns or falls off its end; `none` when `n` steps are not enough. -/
def run (code : List (Instr P A)) : Nat → Machine D A → Option (Machine D A)
  | 0, _ => none
  | n + 1, m =>
    match code[m.pc]? with
    | none | some .ret => some m
    | some i => run code n (exec m i)

variable {code : List (Instr P A)} {m : Machine D A} {i : Instr P A}

theorem run_next (n : Nat) (hi : code[m.pc]? = some i) (hret : i ≠ .ret) :
    run code (n + 1) m = run code n (exec m i) := by
  rw [run, hi]
  cases i <;> first | rfl | exact absurd rfl hret

theorem run_off (n : Nat) (hi : code[m.pc]? = none) : run code (n + 1) m = some m := by
  rw [run, hi]

/-- Two registers as a 16-bit number, the low byte in `r`. -/
def Machine.pair (m : Machine D A) (r : Nat) : Nat := (m.regs (r + 1)).toNat * 256 + (m.regs r).toNat

end AvrCec.Lib.Avr
