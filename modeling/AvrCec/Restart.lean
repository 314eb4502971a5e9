import AvrCec.PwmRestart
import AvrCec.UsiRestart

/-! `cec_halt` followed by `cec_init`, in both builds. -/

namespace AvrCec
open Lib

/-- A state reached by steps, halts and initialisations. -/
def Usi.reached (build : Build) (addr : Addr) (os : List (Op Usi.Step)) : Cec Usi :=
  run Usi.op (Usi.initial build addr) os

def Soft.reached (build : Build) (addr : Addr) (os : List (Op Soft.Step)) : Cec Soft :=
  run Soft.op (Soft.initial build addr) os

/-- Restarted where nothing is left of the run before, either build is seen to do, in every later run,
    what it does from boot. -/
theorem restart_afresh (build : Build) (addr : Addr) :
    (∀ os, Usi.Fresh (Usi.reached build addr os) → ∀ is,
      Usi.seen (run Usi.step (Usi.cecInit (Usi.cecHalt (Usi.reached build addr os))) is) =
        Usi.seen (run Usi.step (Usi.initial build addr) is)) ∧
    ∀ os, Soft.Fresh (Soft.reached build addr os) → ∀ is,
      Soft.seen (run Soft.step (Soft.cecInit (Soft.cecHalt (Soft.reached build addr os))) is) =
        Soft.seen (run Soft.step (Soft.initial build addr) is) :=
  ⟨fun os hf is => Usi.restart_seen hf (Usi.runs_run build addr os) is,
    fun os hf is => Soft.restart_seen hf (Soft.runs_run build addr os) is⟩

/-- A message is queued, and the hardware goes on, before the first poll. -/
def usiQueued : List (Op Usi.Step) :=
  [.step (.app (.send [0x45, 0x36])), .step (.tick true), .step (.tick false)]

def pwmQueued : List (Op Soft.Step) := [.step (.app (.send [0x45, 0x36])), .step (.xmit 100 false)]

theorem restart_queued :
    Usi.seen (run Usi.step (Usi.cecInit (Usi.cecHalt (Usi.reached {} (.fixed 4) usiQueued))) (Usi.byteTimes 6)) =
        Usi.seen (run Usi.step (Usi.initial {} (.fixed 4)) (Usi.byteTimes 6)) ∧
      Soft.seen (run Soft.step (Soft.cecInit (Soft.cecHalt (Soft.reached {} (.fixed 4) pwmQueued))) [.xmit 12000 true]) =
        Soft.seen (run Soft.step (Soft.initial {} (.fixed 4)) [.xmit 12000 true]) := by
  have hu : Usi.Fresh (Usi.reached {} (.fixed 4) usiQueued) :=
    ⟨by decide, by decide, by decide, by decide, by decide, fun _ _ => rfl⟩
  have hs : Soft.Fresh (Soft.reached {} (.fixed 4) pwmQueued) :=
    ⟨by decide, by decide, by decide, by decide, by decide, by decide, by decide, fun _ _ => rfl⟩
  exact ⟨(restart_afresh {} (.fixed 4)).1 usiQueued hu (Usi.byteTimes 6),
    (restart_afresh {} (.fixed 4)).2 pwmQueued hs [.xmit 12000 true]⟩

theorem Usi.seen_ne {s t : Cec Usi} (hs : s.rx.buf 0 = 0x80) (ht : t.rx.buf 0 = 0) : Usi.seen s ≠ Usi.seen t := by
  intro h
  have hbuf : s.rx.buf = t.rx.buf := congrArg Prod.fst h
  rw [hbuf, ht] at hs
  exact absurd hs (by decide)

theorem Soft.seen_ne {s t : Cec Soft} (hs : s.rx.buf 0 = 0x80) (ht : t.rx.buf 0 = 0) : Soft.seen s ≠ Soft.seen t := by
  intro h
  have hbuf : s.rx.buf = t.rx.buf := congrArg Prod.fst h
  rw [hbuf, ht] at hs
  exact absurd hs (by decide)

/-- Another device sends a start bit, and its first data bit begins. -/
def usiStarted : List (Op Usi.Step) :=
  (Usi.Step.tick false :: List.replicate 7 (Usi.Step.tick true) ++ [Usi.Step.poll true true] ++
    List.replicate 5 (Usi.Step.tick true) ++ [Usi.Step.tick false, Usi.Step.tick false, Usi.Step.tick true, Usi.Step.poll true true]).map .step

def pwmStarted : List (Op Soft.Step) := Soft.pollsOfStart.map .step

/-- The bit that was due is taken after the restart, and ends a message that never was. -/
theorem restart_hears_old_bit :
    Usi.seen (run Usi.step (Usi.cecInit (Usi.cecHalt (Usi.reached {} (.fixed 4) usiStarted))) (Usi.byteTimes 1)) ≠
        Usi.seen (run Usi.step (Usi.initial {} (.fixed 4)) (Usi.byteTimes 1)) ∧
      Soft.seen (run Soft.step (Soft.cecInit (Soft.cecHalt (Soft.reached {} (.fixed 4) pwmStarted))) [.recv 1100 true]) ≠
        Soft.seen (run Soft.step (Soft.initial {} (.fixed 4)) [.recv 1100 true]) := by
  have hu : (run Usi.step (Usi.cecInit (Usi.cecHalt (Usi.reached {} (.fixed 4) usiStarted))) (Usi.byteTimes 1)).rx.buf 0 = 0x80 ∧
      (run Usi.step (Usi.initial {} (.fixed 4)) (Usi.byteTimes 1)).rx.buf 0 = 0 := by decide +kernel
  have hs : (run Soft.step (Soft.cecInit (Soft.cecHalt (Soft.reached {} (.fixed 4) pwmStarted))) [.recv 1100 true]).rx.buf 0 = 0x80 ∧
      (run Soft.step (Soft.initial {} (.fixed 4)) [.recv 1100 true]).rx.buf 0 = 0 := by decide +kernel
  exact ⟨Usi.seen_ne hu.1 hu.2, Soft.seen_ne hs.1 hs.2⟩

end AvrCec
