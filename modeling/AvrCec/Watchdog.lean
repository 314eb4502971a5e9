import AvrCec.Lib.Avr
import AvrCec.Lib.Run
import Mathlib.Logic.Function.Iterate

/-! `cec_watchdog.S`: is someone else holding the line low?

    The routine is kept instruction by instruction, over a model of Timer1: a counter with two compare
    flags, each set when the counter reaches its register and cleared by writing a one to it. Pin
    `PB0` is high when the line is low, and pin `PB1` when we drive it. `verdict_iff` compares each
    call with what it is there for. -/

namespace AvrCec.Watchdog
open Lib Lib.Avr

/-! ### Timer1 and the pins -/

/-- The I/O registers the watchdog uses. -/
inductive Port where | pinb | tcnt1 | ocr1a | ocr1b | tifr | gtccr | tccr1
  deriving DecidableEq, Repr

/-- Its byte of data memory. -/
inductive Cell where | cecWatchdogLastOutput
  deriving DecidableEq, Repr

def ocf1a : Nat := 6
def ocf1b : Nat := 5
def psr1 : Nat := 1
def cecPbin : Nat := 0
def cecPbout : Nat := 1

/-- Timer1 and port B. `restarts` is a ghost that counts the writes to the counter. -/
structure Io where
  pinb : BitVec 8 := 0
  tcnt1 : BitVec 8 := 0
  ocr1a : BitVec 8 := 0
  ocr1b : BitVec 8 := 0
  ocf1a : Bool := false
  ocf1b : Bool := false
  tccr1 : BitVec 8 := 0
  restarts : Nat := 0
  deriving DecidableEq

/-- The compare flags as `TIFR` shows them; Timer0's are left out. -/
def Io.tifr (io : Io) : BitVec 8 :=
  (if io.ocf1a then BitVec.twoPow 8 Watchdog.ocf1a else 0) |||
    (if io.ocf1b then BitVec.twoPow 8 Watchdog.ocf1b else 0)

instance : Ports Port Io where
  read io
    | .pinb => io.pinb
    | .tcnt1 => io.tcnt1
    | .ocr1a => io.ocr1a
    | .ocr1b => io.ocr1b
    | .tifr => io.tifr
    | .gtccr => 0
    | .tccr1 => io.tccr1
  write io
    | .pinb, _ => io
    | .tcnt1, v => { io with tcnt1 := v, restarts := io.restarts + 1 }
    | .ocr1a, v => { io with ocr1a := v }
    | .ocr1b, v => { io with ocr1b := v }
    | .tifr, v => { io with
        ocf1a := io.ocf1a && !v.getLsbD Watchdog.ocf1a
        ocf1b := io.ocf1b && !v.getLsbD Watchdog.ocf1b }
    -- the prescaler's phase is not kept
    | .gtccr, _ => io
    | .tccr1, v => { io with tccr1 := v }

/-- One prescaled clock. -/
def Io.clock (io : Io) : Io :=
  let tcnt1 := io.tcnt1 + 1
  { io with
    tcnt1 := tcnt1
    ocf1a := io.ocf1a || tcnt1 == io.ocr1a
    ocf1b := io.ocf1b || tcnt1 == io.ocr1b }

/-- Our output pulls the line low. -/
def Io.driving (io : Io) : Bool := io.pinb.getLsbD cecPbout

/-- The line is low. -/
def Io.lineLow (io : Io) : Bool := io.pinb.getLsbD cecPbin

@[simp] theorem tifr_ocf1a (io : Io) : io.tifr.getLsbD ocf1a = io.ocf1a := by
  rw [Io.tifr]
  cases io.ocf1a <;> cases io.ocf1b <;> rfl

@[simp] theorem tifr_ocf1b (io : Io) : io.tifr.getLsbD ocf1b = io.ocf1b := by
  rw [Io.tifr]
  cases io.ocf1a <;> cases io.ocf1b <;> rfl

/-! ### The routines -/

/-- `cec_watchdog_periodic`, with `latency` for `US_TO_TICKS(MAX_LATENCY_US)`. The labels
    `rising_edge`, `no_edge` and `done` are instructions 18, 23 and 27. -/
def cecWatchdogPeriodic (latency : BitVec 8) : List (Instr Port Cell) := [
  .lds 18 .cecWatchdogLastOutput,
  .ldi 21 1,
  .ldi 20 latency,
  .ldi 22 (BitVec.twoPow 8 psr1),
  .ldi 23 (BitVec.twoPow 8 ocf1a ||| BitVec.twoPow 8 ocf1b),
  .clr 24,
  .cli,
  .inp 18 .tcnt1,
  .add 18 20,
  .out .ocr1b 18,
  .inp 19 .tifr,
  .sbrc 19 ocf1b,
  .rjmp 18,
  .sbic .pinb cecPbout,
  .rjmp 27,
  .clr 21,
  .tst 18,
  .breq 23,
  .out .ocr1b 20,
  .out .gtccr 22,
  .out .tcnt1 1,
  .out .tifr 13,
  .rjmp 27,
  .sbrc 19 ocf1a,
  .rjmp 27,
  .sbic .pinb cecPbin,
  .inc 24,
  .sei,
  .sts .cecWatchdogLastOutput 21,
  .ret]

/-- `cec_watchdog_init`, with `rise` for `US_TO_TICKS_UP(CEC_MAX_RISE_TIME)` and `val` for
    `TCNT1_PRESCALER_VAL`. The last `out` takes a register, so `val` is the number of one. -/
def cecWatchdogInit (rise latency : BitVec 8) (val : Nat) : List (Instr Port Cell) := [
  .ldi 18 rise,
  .out .ocr1a 18,
  .ldi 18 latency,
  .out .ocr1b 18,
  .ldi 18 (BitVec.twoPow 8 psr1),
  .out .gtccr 18,
  .out .tccr1 val,
  .ret]

/-- What a routine of the watchdog finds: its registers, the byte it left and the hardware. -/
def entry (regs : Nat → BitVec 8) (lastOutput : BitVec 8) (io : Io) : Machine Io Cell where
  -- compiled code keeps `r1` at zero
  regs := Function.update regs 1 0
  mem _ := lastOutput
  io := io
  carry := false
  zero := false
  irq := true
  pc := 0

/-! ### A call -/

/-- The hardware after the counter was restarted and `TIFR` written with `r13`. -/
def restarted (latency r13 : BitVec 8) (io : Io) : Io :=
  { io with
    tcnt1 := 0
    ocr1b := latency
    ocf1a := io.ocf1a && !r13.getLsbD ocf1a
    ocf1b := io.ocf1b && !r13.getLsbD ocf1b
    restarts := io.restarts + 1 }

/-- What a call does: the hardware after it, the byte it leaves and what it returns. The register
    that held the last output is overwritten with the counter, so what is tested for an edge is the
    new latency limit, and only a limit of 0 is none. -/
def outcome (latency r13 : BitVec 8) (io : Io) : Io × BitVec 8 × BitVec 8 :=
  if io.ocf1b then (restarted latency r13 io, 1, 0)
  else if io.driving then ({ io with ocr1b := io.tcnt1 + latency }, 1, 0)
  else if io.tcnt1 + latency = 0 then
    ({ io with ocr1b := 0 }, 0, if !io.ocf1a && io.lineLow then 1 else 0)
  else (restarted latency r13 io, 0, 0)

theorem run_periodic (latency : BitVec 8) (regs : Nat → BitVec 8) (lastOutput : BitVec 8) (io : Io) :
    (Avr.run (cecWatchdogPeriodic latency) 30 (entry regs lastOutput io)).map
        (fun m => (m.io, m.mem .cecWatchdogLastOutput, m.regs 24)) =
      some (outcome latency (regs 13) io) := by
  rw [outcome]
  cases hlate : io.ocf1b with
  | true =>
    simp [Avr.run, cecWatchdogPeriodic, exec, entry, Machine.load, Machine.skip, Machine.sum,
      Ports.read, Ports.write, restarted, hlate]
  | false =>
    cases hdriving : io.pinb.getLsbD cecPbout with
    | true =>
      simp [Avr.run, cecWatchdogPeriodic, exec, entry, Machine.load, Machine.skip, Machine.sum,
        Ports.read, Ports.write, Io.driving, hlate, hdriving]
    | false =>
      by_cases hlimit : io.tcnt1 + latency = 0#8
      · cases hrise : io.ocf1a with
        | true =>
          simp [Avr.run, cecWatchdogPeriodic, exec, entry, Machine.load, Machine.skip, Machine.sum,
            Machine.branch, Ports.read, Ports.write, Io.driving, hlate, hdriving, hlimit, hrise]
        | false =>
          cases hlow : io.pinb.getLsbD cecPbin <;>
            simp [Avr.run, cecWatchdogPeriodic, exec, entry, Machine.load, Machine.skip, Machine.sum,
              Machine.branch, Ports.read, Ports.write, Io.driving, Io.lineLow, hlate, hdriving,
              hlimit, hrise, hlow]
      · simp [Avr.run, cecWatchdogPeriodic, exec, entry, Machine.load, Machine.skip, Machine.sum,
          Machine.branch, Ports.read, Ports.write, Io.driving, restarted, hlate, hdriving, hlimit]

/-! ### Sequences of calls -/

/-- Between calls: the hardware, and the byte the last call left. `drove` is a ghost: whether the
    output was driving at the last call. -/
structure State where
  io : Io
  lastOutput : BitVec 8 := 0
  drove : Bool := false

/-- A call `wait` prescaled clocks after the last, with the levels of port B and the registers its
    caller has. -/
structure Call where
  wait : Nat
  pinb : BitVec 8
  regs : Nat → BitVec 8

/-- The hardware as a call finds it. -/
def State.found (s : State) (c : Call) : Io := { Nat.iterate Io.clock c.wait s.io with pinb := c.pinb }

/-- A call: the state after it and the value returned, if the routine returns. -/
def State.call (latency : BitVec 8) (s : State) (c : Call) : Option (State × BitVec 8) :=
  (Avr.run (cecWatchdogPeriodic latency) 30 (entry c.regs s.lastOutput (s.found c))).map fun m =>
    ({ io := m.io, lastOutput := m.mem .cecWatchdogLastOutput, drove := (s.found c).driving }, m.regs 24)

/-- The state after `cec_watchdog_init`, which a reset precedes. -/
def started (rise latency : BitVec 8) (val : Nat) (regs : Nat → BitVec 8) (io : Io) : Option State :=
  (Avr.run (cecWatchdogInit rise latency val) 8 (entry regs 0 io)).map fun m => { io := m.io }

def step (latency : BitVec 8) (c : Call) (s : State) : State :=
  ((s.call latency c).map Prod.fst).getD s

/-! ### The verdict -/

/-- A call comes too late, or our output was released since the call before. -/
def Due (io : Io) (drove : Bool) : Prop := io.ocf1b = true ∨ (drove = true ∧ io.driving = false)

/-- What a call is there for, given the hardware it finds and whether the output was driving at the
    call before. -/
structure Verdict (io : Io) (drove : Bool) (t : State) (returned : BitVec 8) : Prop where
  returns : returned = 1 ↔ io.ocf1b = false ∧ drove = false ∧ io.driving = false ∧
    io.ocf1a = true ∧ io.lineLow = true
  restarts : Due io drove → t.io.restarts = io.restarts + 1 ∧ t.io.tcnt1 = 0 ∧
    t.io.ocf1a = false ∧ t.io.ocf1b = false
  keeps : ¬ Due io drove → t.io.restarts = io.restarts
  stored : t.lastOutput = if io.driving || io.ocf1b then 1 else 0

/-- The call does what it is there for. -/
def Judges (latency : BitVec 8) (s : State) (c : Call) : Prop :=
  ∃ t returned, s.call latency c = some (t, returned) ∧ Verdict (s.found c) s.drove t returned

/-- Writing `r13` to `TIFR` clears both compare flags. -/
def Clears (r13 : BitVec 8) (io : Io) : Prop :=
  (io.ocf1a = true → r13.getLsbD ocf1a = true) ∧ (io.ocf1b = true → r13.getLsbD ocf1b = true)

/-- The calls that go well in spite of the two clobbered registers and the skip the wrong way round:
    a restart is right when one is due and `r13` happens to clear the flags; and only where the new
    latency limit is 0 is there none, which is right when none is due and the line is high. -/
def GoesWell (latency : BitVec 8) (s : State) (c : Call) : Prop :=
  let io := s.found c
  if io.ocf1b then Clears (c.regs 13) io
  else if io.driving then True
  else if io.tcnt1 + latency = 0 then s.drove = false ∧ io.lineLow = false
  else s.drove = true ∧ Clears (c.regs 13) io

theorem call_eq (latency : BitVec 8) (s : State) (c : Call) :
    let o := outcome latency (c.regs 13) (s.found c)
    s.call latency c = some (⟨o.1, o.2.1, (s.found c).driving⟩, o.2.2) := by
  obtain ⟨m, hm, hval⟩ := Option.map_eq_some_iff.mp (run_periodic latency c.regs s.lastOutput (s.found c))
  rw [State.call, hm, ← hval]
  rfl

/-- Restarting does what is due, if it clears the flags. -/
theorem verdict_restarted {latency r13 stored : BitVec 8} {io : Io} {drove : Bool} (hdue : Due io drove)
    (hstored : stored = if io.driving || io.ocf1b then 1 else 0) (d : Bool) :
    Verdict io drove ⟨restarted latency r13 io, stored, d⟩ 0 ↔ Clears r13 io := by
  constructor
  · intro h
    obtain ⟨-, -, ha, hb⟩ := h.restarts hdue
    exact ⟨fun hset => by simpa [restarted, hset] using ha, fun hset => by simpa [restarted, hset] using hb⟩
  · rintro ⟨ha, hb⟩
    refine ⟨iff_of_false (by decide) ?_, fun _ => ⟨rfl, rfl, ?_, ?_⟩, fun hnot => absurd hdue hnot, hstored⟩
    · rintro ⟨hlate, hdrove, -⟩
      rcases hdue with h | ⟨h, -⟩
      · exact Bool.noConfusion (h.symm.trans hlate)
      · exact Bool.noConfusion (h.symm.trans hdrove)
    · change (io.ocf1a && !r13.getLsbD ocf1a) = false
      cases h : io.ocf1a
      · rfl
      · rw [ha h]; rfl
    · change (io.ocf1b && !r13.getLsbD ocf1b) = false
      cases h : io.ocf1b
      · rfl
      · rw [hb h]; rfl

/-- While we drive, a call that is not late has nothing to do. -/
theorem verdict_driving {latency : BitVec 8} {io : Io} {drove : Bool} (hlate : ¬ io.ocf1b = true)
    (hdriving : io.driving = true) (d : Bool) :
    Verdict io drove ⟨{ io with ocr1b := io.tcnt1 + latency }, 1, d⟩ 0 := by
  refine ⟨iff_of_false (by decide) ?_, ?_, fun _ => rfl, by rw [hdriving]; rfl⟩
  · rintro ⟨-, -, hfree, -⟩
    exact Bool.noConfusion (hfree.symm.trans hdriving)
  · rintro (h | ⟨-, hfree⟩)
    · exact absurd h hlate
    · exact Bool.noConfusion (hfree.symm.trans hdriving)

/-- Not restarting is right when the output was not driving before; then the verdict is the wrong way
    round, and right on a high line only. -/
theorem verdict_quiet {io : Io} {drove : Bool} (hlate : ¬ io.ocf1b = true)
    (hdriving : ¬ io.driving = true) (d : Bool) :
    Verdict io drove ⟨{ io with ocr1b := 0 }, 0, d⟩ (if !io.ocf1a && io.lineLow then 1 else 0) ↔
      drove = false ∧ io.lineLow = false := by
  have hlate' : io.ocf1b = false := by simpa using hlate
  have hdriving' : io.driving = false := by simpa using hdriving
  constructor
  · intro h
    have hdrove : drove = false := by
      cases hd : drove
      · rfl
      · have := (h.restarts (.inr ⟨hd, hdriving'⟩)).1
        exact absurd this (Nat.ne_of_lt (Nat.lt_succ_self io.restarts))
    refine ⟨hdrove, ?_⟩
    cases hlow : io.lineLow
    · rfl
    · have hret := h.returns
      rw [hlate', hdrove, hdriving', hlow] at hret
      cases hrise : io.ocf1a <;> simp [hrise] at hret
  · rintro ⟨hdrove, hlow⟩
    refine ⟨?_, ?_, fun _ => rfl, by rw [hlate', hdriving']; rfl⟩
    · simp [hlow]
    · rintro (h | ⟨h, -⟩)
      · exact absurd h hlate
      · exact Bool.noConfusion (hdrove.symm.trans h)

/-- Restarting is wrong when nothing was released. -/
theorem not_verdict_restarted {latency r13 stored : BitVec 8} {io : Io} {drove : Bool}
    (hnot : ¬ Due io drove) (d : Bool) : ¬ Verdict io drove ⟨restarted latency r13 io, stored, d⟩ 0 :=
  fun h => absurd (h.keeps hnot) (Nat.ne_of_gt (Nat.lt_succ_self io.restarts))

theorem judges_iff (latency : BitVec 8) (s : State) (c : Call) :
    Judges latency s c ↔ GoesWell latency s c := by
  have hcall := call_eq latency s c
  have hverdict : Judges latency s c ↔
      let o := outcome latency (c.regs 13) (s.found c)
      Verdict (s.found c) s.drove ⟨o.1, o.2.1, (s.found c).driving⟩ o.2.2 := by
    constructor
    · rintro ⟨t, returned, ht, hv⟩
      obtain ⟨rfl, rfl⟩ := Prod.mk.inj (Option.some.inj (hcall.symm.trans ht))
      exact hv
    · exact fun hv => ⟨_, _, hcall, hv⟩
  rw [hverdict, GoesWell]
  generalize s.found c = io
  generalize s.drove = drove
  generalize c.regs 13 = r13
  dsimp only
  rw [outcome]
  by_cases hlate : io.ocf1b = true
  · rw [if_pos hlate, if_pos hlate]
    exact verdict_restarted (.inl hlate) (by simp [hlate]) _
  rw [if_neg hlate, if_neg hlate]
  by_cases hdriving : io.driving = true
  · rw [if_pos hdriving, if_pos hdriving]
    exact iff_of_true (verdict_driving hlate hdriving _) trivial
  rw [if_neg hdriving, if_neg hdriving]
  by_cases hlimit : io.tcnt1 + latency = 0
  · rw [if_pos hlimit, if_pos hlimit]
    exact verdict_quiet hlate hdriving _
  rw [if_neg hlimit, if_neg hlimit]
  cases drove with
  | false =>
    have hnot : ¬ Due io false := by simp [Due, hlate]
    exact iff_of_false (not_verdict_restarted hnot _) (by simp)
  | true =>
    have hdue : Due io true := .inr ⟨rfl, by simpa using hdriving⟩
    rw [verdict_restarted hdue (by simp [hlate, hdriving])]
    simp

theorem started_eq (rise latency : BitVec 8) (val : Nat) (regs : Nat → BitVec 8) (io : Io) :
    (started rise latency val regs io).isSome := by
  simp [started, Avr.run, cecWatchdogInit, exec, entry, Machine.load]

/-- In every sequence of calls from `cec_watchdog_init` on, all calls do what they are there for
    exactly when all of them go well. -/
theorem verdict_iff (rise latency : BitVec 8) (val : Nat) (regs : Nat → BitVec 8) (io : Io)
    (calls : List Call) :
    ∃ s, started rise latency val regs io = some s ∧
      (Along (Judges latency) (step latency) s calls ↔ Along (GoesWell latency) (step latency) s calls) := by
  obtain ⟨s, hs⟩ := Option.isSome_iff_exists.mp (started_eq rise latency val regs io)
  exact ⟨s, hs, along_congr (judges_iff latency) s calls⟩

/-- The byte a call leaves is right in any case. -/
theorem stored_eq (latency : BitVec 8) (s : State) (c : Call) :
    ∃ t returned, s.call latency c = some (t, returned) ∧
      t.lastOutput = if (s.found c).driving || (s.found c).ocf1b then 1 else 0 := by
  refine ⟨_, _, call_eq latency s c, ?_⟩
  dsimp only
  rw [outcome]
  cases (s.found c).ocf1b <;> cases (s.found c).driving <;> simp
  split <;> rfl

/-- The first call on an idle line restarts the timer, though nothing was released: a 16 MHz board. -/
theorem idle_call_restarts : ∃ s, started 63 175 7 (fun _ => 0) {} = some s ∧
    ¬ Along (Judges 175) (step 175) s [⟨0, 0, fun _ => 0⟩] := by
  refine ⟨_, rfl, fun h => ?_⟩
  have hwell := (judges_iff 175 _ _).mp h.1
  exact Bool.noConfusion hwell.1

end AvrCec.Watchdog
