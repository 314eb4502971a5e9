import AvrCec.Usi
import AvrCec.Soft

/-! `cec.c`: initialisation, the periodic call and the halt of the two builds, and the steps a run of
    each is made of.

    A run interleaves the hardware (a tick of the USI clock, an overflow of Timer1), polls at any
    moment and with any line level, and the application's actions. -/

namespace AvrCec

section
variable {D : Type} [Driver D]

/-- The zero-initialised state of a firmware image. -/
def boot (build : Build) (addr : Addr) (hw : D) : Cec D :=
  { build := build, rx := {}, tx := {}, addr := addr, hw := hw, log := [] }

/-- `cec_receive_halt`, without the driver's part. -/
def cecReceiveHalt (s : Cec D) : Cec D := clearHeader s

/-- `cec_transmit_halt`, without the driver's part. -/
def cecTransmitHalt (s : Cec D) : Cec D := { s with tx := { s.tx with state := .idle } }

end

/-! ### The USI build -/

namespace Usi

/-- `cec_pin_config` and `cec_receive_init`. -/
def initHw (u : Usi) : Usi :=
  { u with driven := false, usibr := cecPatIdle, usidr := cecPatIdle, usicnt := 8, usioif := false }

def cecInit (s : Cec Usi) : Cec Usi :=
  cecAddrInit (cecTransmitInit { s with hw := s.hw.initHw })

/-- One call of `cec_periodic`; the transmit side has no periodic work of its own. -/
def cecPeriodic (s : Cec Usi) (others₁ others₂ : Bool) : Cec Usi :=
  cecAddrPeriodic (cecReceivePeriodic s others₁ others₂)

def cecHalt (s : Cec Usi) : Cec Usi :=
  let s := cecReceiveError s .halt
  let s := cecReceiveHalt s
  let s := { s with hw := { s.hw with driven := false } }
  let s := cecTransmitHalt s
  let s := { s with hw := { s.hw with usibr := 0, usidr := 0 } }
  cecAddrInit s

/-- What can happen next in a run without `cec_halt`. -/
inductive Step where
  | tick (others : Bool)
  | poll (others₁ others₂ : Bool)
  | app (a : App)
  deriving DecidableEq, Repr

def step (i : Step) (s : Cec Usi) : Cec Usi :=
  match i with
  | .tick others => { s with hw := s.hw.clock others }
  | .poll others₁ others₂ => cecPeriodic s others₁ others₂
  | .app a => a.step s

/-- The state `cec_init` leaves after a reset. -/
def initial (build : Build) (addr : Addr) : Cec Usi := cecInit (boot build addr {})

/-- `n` byte times on a line no one else drives: eight ticks and the poll that handles the overflow. -/
def byteTimes (n : Nat) : List Step :=
  (List.replicate n (List.replicate 8 (.tick false) ++ [.poll false false])).flatten

/-- A poll has handled the last overflow before the eight ticks of the byte are over. -/
def Timely (s : Cec Usi) : Step → Prop
  | .tick _ => s.hw.usioif → s.hw.tick ≠ 7
  | _ => True

instance (s : Cec Usi) (i : Step) : Decidable (Timely s i) := by
  cases i <;> dsimp only [Timely] <;> infer_instance

end Usi

/-! ### The build with the soft receive driver and the PWM transmit driver -/

namespace Soft

/-- `cec_pin_config` and `cec_transmit_init_hw`. -/
def initHw (u : Soft) : Soft := { u with driven := false, pwm := { u.pwm with gtccr := .forced } }

def cecInit (s : Cec Soft) : Cec Soft :=
  cecAddrInit (cecTransmitInit { s with hw := s.hw.initHw })

/-- One call of `cec_periodic`; the line is read by each of the two drivers. -/
def cecPeriodic (s : Cec Soft) (delta : Nat) (level₁ level₂ : Bool) : Cec Soft :=
  cecAddrPeriodic (cecTransmitPeriodic (cecReceivePeriodic s delta level₁) delta level₂)

/-- The soft driver has nothing of its own to halt. -/
def cecHalt (s : Cec Soft) : Cec Soft :=
  cecAddrInit (cecTransmitHalt (cecReceiveHalt (cecReceiveError s .halt)))

/-- What can happen next in a run without `cec_halt`. The three parts of `cec_periodic` are steps of
    their own, so that Timer1 can overflow between them and a run may poll the receive driver only. -/
inductive Step where
  | recv (delta : Nat) (level : Bool)
  | xmit (delta : Nat) (level : Bool)
  | addr
  | overflow
  | app (a : App)
  deriving DecidableEq, Repr

/-- Timer1 overflows only while its clock runs. -/
def timerOverflow (s : Cec Soft) : Cec Soft :=
  if s.hw.pwm.tccr1 ≠ 0 then setPwm s fun p => { p with tov1 := true } else s

def step (i : Step) (s : Cec Soft) : Cec Soft :=
  match i with
  | .recv delta level => cecReceivePeriodic s delta level
  | .xmit delta level => cecTransmitPeriodic s delta level
  | .addr => cecAddrPeriodic s
  | .overflow => timerOverflow s
  | .app a => a.step s

theorem cecPeriodic_eq_run (s : Cec Soft) (delta : Nat) (level₁ level₂ : Bool) :
    cecPeriodic s delta level₁ level₂
      = Lib.run step s [.recv delta level₁, .xmit delta level₂, .addr] := rfl

/-- The state `cec_init` leaves after a reset. -/
def initial (build : Build) (addr : Addr) : Cec Soft := cecInit (boot build addr {})

end Soft

end AvrCec
