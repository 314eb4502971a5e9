import AvrCec.PwmWave

/-! `cec_halt` in both builds.

    A halt is to park the device, and to leave the driver such that the next attempt begins with its
    start bit (`Stopped`). It stops the USI build exactly when it reaches the driver's own state
    machine. In the PWM build it also has to find no overflow pending: the poll that handles one in an
    attempt's first state loads the first bit over the start bit (`Soft.stopped_iff`). -/

namespace AvrCec
open Lib

/-- What a build shows of its transmit side. -/
structure Interface (D I S : Type) where
  step : I → Cec D → Cec D
  app : App → I
  /-- Neither output path pulls the line low. -/
  Floating : D → Prop
  /-- What a step gives the line to show. -/
  signal : Cec D → I → List S
  /-- What a start bit is made of. -/
  startBit : Build → List S
  /-- The step leaves nothing of an attempt behind that it aborts. -/
  Clean : Cec D → I → Prop

/-- How many bits have been fetched. -/
def gets (l : List Ev) : Nat := l.countP fun | .getBit .. => true | _ => false

section
variable {D I S : Type}

def Interface.signals (T : Interface D I S) : Cec D → List I → List S
  | _, [] => []
  | s, i :: is => T.signal s i ++ T.signals (T.step i s) is

/-- The halt that left the state `h` has stopped the device: it is parked, and what the line is given to
    show of an attempt after it begins with the attempt's start bit, before any bit is fetched. -/
structure Stopped (T : Interface D I S) (h : Cec D) : Prop extends Parked T.step T.app T.Floating h where
  begins : ∀ (is : List I) (i : I) (js : List I), Along T.Clean T.step h.forget is →
    let s := run T.step h.forget is
    let u := T.step i s
    let v := run T.step u js
    attempts u.told ≠ attempts s.told → episodes v.told = episodes u.told →
      (T.signals s (i :: js) <+: T.startBit s.build ∨ T.startBit s.build <+: T.signals s (i :: js)) ∧
        (gets v.told ≠ gets u.told → T.signals s (i :: js) ≠ [])

/-- A property of the signals since the beginning of an attempt, kept by every step that does not end it. -/
theorem signals_run {T : Interface D I S} {P : List S → Cec D → Prop}
    (hle : ∀ s i, episodes s.told ≤ episodes (T.step i s).told)
    (hstep : ∀ sent s i, P sent s → episodes (T.step i s).told = episodes s.told → P (sent ++ T.signal s i) (T.step i s))
    {sent : List S} {s : Cec D} (hs : P sent s) {js : List I}
    (hgo : episodes (run T.step s js).told = episodes s.told) : P (sent ++ T.signals s js) (run T.step s js) := by
  induction js generalizing sent s with
  | nil =>
    rw [Interface.signals, List.append_nil]
    exact hs
  | cons i js ih =>
    have hrun : episodes (T.step i s).told ≤ episodes (run T.step (T.step i s) js).told := by
      have hgrow : ∀ t j, episodes (T.step i s).told ≤ episodes t.told →
          episodes (T.step i s).told ≤ episodes (T.step j t).told := fun t j h => h.trans (hle t j)
      exact invariant_run' hgrow js (Nat.le_refl _)
    have hcalm : episodes (T.step i s).told = episodes s.told :=
      Nat.le_antisymm (hrun.trans (Nat.le_of_eq hgo)) (hle s i)
    rw [Interface.signals, ← List.append_assoc]
    exact ih (hstep sent s i hs hcalm) (by rw [hcalm]; exact hgo)

/-- Unless an attempt begins or ends, the receive side leaves the driver and its bits alone. -/
theorem keptTx_calm {X : Type} [Driver D] {view : D → X}
    (hnack : ∀ b u, view (Driver.cecReceiveNackFrame b u) = view u) (e c : Nat) (x : X) :
    KeptTx view fun s : Cec D => e < episodes s.told ∨ episodes s.told = e ∧ view s.hw = x ∧ gets s.told = c where
  same h _ _ hv hl := by
    rw [hl, hv]
    exact h
  nack := hnack
  needed _ _ h := h
  onError {s} err h hb := by
    rw [onError_episodes hb err]
    rcases h with h | ⟨h, -⟩
    · exact .inl (by omega)
    · exact .inl (by omega)
  acked {s} h hw := by
    rw [cecTransmitReceiveAck, if_pos rfl, if_pos hw]
    exact h

end

/-! ### The USI build -/

namespace Usi

/-- The byte that a poll queues behind the one being sent. -/
def queued (s : Cec Usi) : Step → List (BitVec 8)
  | .poll others _ => if s.hw.usioif then [(cecUsiNextBit (decoded (checkFloat s others))).2] else []
  | _ => []

def interface : Interface Usi Step (BitVec 8) where
  step := step
  app := .app
  Floating := Floating
  signal := queued
  startBit _ := [cecPatStart0, cecPatStart1]
  Clean _ _ := True

theorem next_episodes (s : Cec Usi) : episodes s.told ≤ episodes (cecUsiNextBit s).1.told := by
  rcases next_told s with h | h | ⟨b, r, h⟩ <;> rw [h] <;> simp [episodes, attempts, failures]

theorem episodes_le_step (s : Cec Usi) (i : Step) : episodes s.told ≤ episodes (step i s).told := by
  cases i with
  | tick others => exact Nat.le_refl _
  | app a => exact Nat.le_of_eq (congrArg episodes (app_told s a)).symm
  | poll others₁ others₂ =>
    rw [step, cecPeriodic, addrPeriodic_told]
    exact keptTx_poll (keptTx_episodes (fun _ _ => rfl) _) (fun h => h.trans (next_episodes _)) (Nat.le_refl _)
      others₁ others₂

theorem handleAck_xmitState (s : Cec Usi) (others : Bool) :
    (handleAck s others).hw.xmitState = s.hw.xmitState := by
  rw [handleAck]
  dsimp only
  repeat' split
  · exact doAck_xmitState ..
  · exact doAck_xmitState ..
  · rfl
  · rfl

/-- The first half of the start bit has been queued, or all of it. -/
def Opening (sent : List (BitVec 8)) (s : Cec Usi) : Prop :=
  sent = [cecPatStart0] ∧ s.hw.xmitState = .start ∨ [cecPatStart0, cecPatStart1] <+: sent

theorem opening_step {sent : List (BitVec 8)} {s : Cec Usi} {i : Step} (h : Opening sent s)
    (hgo : episodes (step i s).told = episodes s.told) : Opening (sent ++ queued s i) (step i s) := by
  rcases h with ⟨rfl, hx⟩ | h
  · cases i with
    | tick others =>
      have hclock : (s.hw.clock others).xmitState = s.hw.xmitState := by
        rw [clock]
        split <;> rfl
      exact .inl ⟨rfl, hclock.trans hx⟩
    | app a => exact .inl ⟨rfl, by rw [step, app_hw]; exact hx⟩
    | poll others₁ others₂ =>
      have hview : ∀ b u, (Driver.cecReceiveNackFrame b u : Usi).xmitState = u.xmitState := fun _ _ => rfl
      have hcalm := keptTx_calm hview (episodes s.told) (gets s.told) .start
      have hfloat := keptTx_checkFloat hcalm (.inr ⟨rfl, hx, rfl⟩) others₁
      rw [step, cecPeriodic, addrPeriodic_told, cecReceivePeriodic] at hgo
      rw [step, cecPeriodic, Opening, addrPeriodic_hw, cecReceivePeriodic, queued]
      split at hgo
      · next ho =>
        -- the second half follows, unless an error came first
        rw [if_pos ho]
        have hd := keptTx_decoded hcalm hfloat
        rw [handleAck_told, handleOverflow_eq] at hgo
        have hle := next_episodes (decoded (checkFloat s others₁))
        change episodes (cecUsiNextBit _).1.told = _ at hgo
        rcases hd with hd | ⟨-, hstart, -⟩
        · omega
        · refine .inr ?_
          rw [cecUsiNextBit, hstart]
          exact List.prefix_rfl
      · next ho =>
        rw [if_neg ho, if_neg ho]
        rcases keptTx_handleAck hcalm hfloat others₂ with hlost | ⟨-, hstart, -⟩
        · omega
        · exact .inl ⟨rfl, hstart⟩
  · exact .inr (h.trans (List.prefix_append _ _))

/-- An attempt begins with the first half of its start bit. -/
theorem opening_begin {s : Cec Usi} {i : Step} (h : attempts (step i s).told ≠ attempts s.told) :
    Opening (queued s i) (step i s) := by
  obtain ⟨others₁, others₂, rfl, ho, hx, hpend, hlong, -⟩ := begins h
  refine .inl ?_
  rw [queued, if_pos ho, step, cecPeriodic, addrPeriodic_hw, cecReceivePeriodic, if_pos ho, handleOverflow_eq]
  rw [handleAck_xmitState, writeOut, cecUsiNextBit, hx]
  dsimp only
  rw [if_pos ⟨hpend, hlong⟩]
  exact ⟨rfl, rfl⟩

theorem stopped_iff {s : Cec Usi} (h : Reach s) : Stopped interface (cecHalt s) ↔ HaltReaches s := by
  rw [← parked_iff h]
  refine ⟨fun hs => hs.toParked, fun hp => ⟨hp, fun is i js _ => ?_⟩⟩
  intro s u v hbegin hgo
  have hopen : Opening (interface.signals s (i :: js)) v :=
    signals_run (T := interface) (fun s i => episodes_le_step s i) (fun _ _ _ h hgo => opening_step h hgo)
      (opening_begin hbegin) hgo
  rcases hopen with ⟨hsent, -⟩ | hsent
  · rw [hsent]
    exact ⟨.inl ⟨[cecPatStart1], rfl⟩, fun _ => List.cons_ne_nil _ _⟩
  · refine ⟨.inr hsent, fun _ hnil => ?_⟩
    rw [hnil] at hsent
    exact absurd hsent (by simp)

/-- The state after a run in which halts may have come before. -/
def after (build : Build) (addr : Addr) (as : List (OrHalt Step)) : Cec Usi :=
  run (orHalt step cecHalt) (initial build addr) as

end Usi

/-! ### The PWM build -/

namespace Soft

/-- What an overflow latches: the top of the cycle that ends, and how long the one that begins is low. -/
def latched (s : Cec Soft) (i : Step) : List Nat := (cycle s i).toList.flatMap fun c => [c.2, c.1]

/-- No attempt is aborted with an overflow pending. -/
def Clean (s : Cec Soft) (i : Step) : Prop :=
  failures (step i s).told = failures s.told ∨ (step i s).hw.pwm.tov1 = false

instance (s : Cec Soft) (i : Step) : Decidable (Clean s i) := by
  unfold Clean; infer_instance

def interface : Interface Soft Step Nat where
  step := step
  app := .app
  Floating := Floating
  signal := latched
  startBit b := [ocr (usToCecJiffies b cecStartHigh), ocr (usToCecJiffies b cecStartLow), ocr (usToCecJiffies b cecStartHigh)]
  Clean := Clean

theorem xmitPwm_tov1 (s : Cec Soft) : (xmitPwmPeriodic s).hw.pwm.tov1 = false := by
  have herr : ∀ (t : Cec Soft) err, t.hw.pwm.tov1 = false → (cecTransmitOnError t err).hw.pwm.tov1 = false := by
    intro t err ht
    rw [onError_pwm]
    split
    · exact ht
    · exact ht
  cases htov : s.hw.pwm.tov1 with
  | false =>
    rw [xmitPwmPeriodic, htov]
    exact htov
  | true =>
    rw [pwmPeriodic_eq htov]
    split
    · split
      · exact herr _ _ rfl
      · rfl
    all_goals rfl

theorem nextBit_going (s : Cec Soft) : (pwmNextBit s).hw.pwm.xmitState ≠ .idle := by
  change (if _ then PwmState.end1 else PwmState.running) ≠ .idle
  split <;> exact PwmState.noConfusion

/-- A poll of a driver that is under way, and stays so. -/
theorem transmit_going {s : Cec Soft} (hx : s.hw.pwm.xmitState ≠ .idle)
    (ht : (xmitPwmPeriodic s).hw.pwm.xmitState ≠ .idle) (delta : Nat) (level : Bool) :
    ∃ n, cecTransmitPeriodic s delta level = setPwm (xmitPwmPeriodic s) fun p => { p with transmitHighTimer := n } := by
  rw [cecTransmitPeriodic, if_pos hx]
  generalize xmitPwmPeriodic s = t at ht
  cases level with
  | false => exact ⟨0, rfl⟩
  | true =>
    refine ⟨cappedAdd t.hw.pwm.transmitHighTimer delta, ?_⟩
    dsimp only
    rw [if_neg (by decide)]
    split
    · rfl
    · exact if_neg fun hc => ht hc.1

/-- Only a poll in the driver's idle state leaves an overflow pending. -/
theorem transmit_tov1 (s : Cec Soft) (delta : Nat) (level : Bool) :
    (cecTransmitPeriodic s delta level).hw.pwm.tov1 = if s.hw.pwm.xmitState ≠ .idle then false else s.hw.pwm.tov1 := by
  have ht : (if s.hw.pwm.xmitState ≠ .idle then xmitPwmPeriodic s else s).hw.pwm.tov1 =
      if s.hw.pwm.xmitState ≠ .idle then false else s.hw.pwm.tov1 := by
    split
    · exact xmitPwm_tov1 s
    · rfl
  rw [← ht, cecTransmitPeriodic]
  generalize (if s.hw.pwm.xmitState ≠ .idle then xmitPwmPeriodic s else s) = t
  dsimp only
  repeat' split
  · rfl
  · rfl
  · rfl
  · rfl

theorem recv_calm {s : Cec Soft} {delta : Nat} {level : Bool}
    (hgo : episodes (cecReceivePeriodic s delta level).told = episodes s.told) :
    (cecReceivePeriodic s delta level).hw.pwm = s.hw.pwm ∧ gets (cecReceivePeriodic s delta level).told = gets s.told := by
  have hcalm := keptTx_calm (D := Soft) nackFrame_pwm (episodes s.told) (gets s.told) s.hw.pwm
  rcases keptTx_recv hcalm (.inr ⟨rfl, rfl, rfl⟩) delta level with h | ⟨-, h⟩
  · omega
  · exact h

/-- Nothing is pending while the driver is idle. -/
structure Swept (s : Cec Soft) : Prop extends Reach s where
  swept : s.hw.pwm.xmitState = .idle → s.hw.pwm.tov1 = false

theorem swept_step {s : Cec Soft} (h : Swept s) {i : Step} (hi : Clean s i) : Swept (step i s) := by
  refine ⟨reach_step h.toReach i, ?_⟩
  cases i with
  | recv delta level =>
    intro hidle
    rcases hi with hi | hi
    · -- no abort, as no attempt begins either
      have hatt := keptTx_recv (keptTx_attempts (attempts s.told)) rfl delta level
      have hgo : episodes (cecReceivePeriodic s delta level).told = episodes s.told := congrArg₂ _ hatt hi
      have hpwm := (recv_calm hgo).1
      change (cecReceivePeriodic s delta level).hw.pwm.xmitState = .idle at hidle
      change (cecReceivePeriodic s delta level).hw.pwm.tov1 = false
      rw [hpwm] at hidle ⊢
      exact h.swept hidle
    · exact hi
  | xmit delta level =>
    intro _
    rw [step, transmit_tov1]
    split
    · rfl
    · next hx => exact h.swept (Decidable.of_not_not hx)
  | addr =>
    rw [step, Usi.addrPeriodic_hw]
    exact h.swept
  | overflow =>
    rw [step, timerOverflow]
    split
    · next hrun => exact fun hidle => absurd (h.clocked.mpr hidle) hrun
    · exact h.swept
  | app a =>
    rw [step, Usi.app_hw]
    exact h.swept

/-- Nothing has been latched and no bit fetched; or the start bit's low time has, and its top stays; or
    all of it has. `c` bits had been fetched before. -/
def Opening (b : Build) (c : Nat) (sent : List Nat) (s : Cec Soft) : Prop :=
  sent = [] ∧ gets s.told = c ∧ s.hw.pwm.xmitState = .start ∧ s.hw.pwm.tov1 = false ∧
      s.hw.pwm.ocr1b = ocr (usToCecJiffies b cecStartLow) ∧ s.hw.pwm.ocr1c = ocr (usToCecJiffies b cecStartHigh) ∨
    sent = [ocr (usToCecJiffies b cecStartHigh), ocr (usToCecJiffies b cecStartLow)] ∧
      s.hw.pwm.xmitState ≠ .idle ∧ (s.hw.pwm.tov1 = true → s.hw.pwm.xmitState = .start) ∧
      s.hw.pwm.ocr1c = ocr (usToCecJiffies b cecStartHigh) ∨
    interface.startBit b <+: sent

theorem Opening.congr {b : Build} {c : Nat} {sent : List Nat} {s t : Cec Soft} (h : Opening b c sent s)
    (hg : gets t.told = gets s.told) (hx : t.hw.pwm.xmitState = s.hw.pwm.xmitState) (htov : t.hw.pwm.tov1 = s.hw.pwm.tov1)
    (hb : t.hw.pwm.ocr1b = s.hw.pwm.ocr1b) (hc : t.hw.pwm.ocr1c = s.hw.pwm.ocr1c) : Opening b c sent t := by
  rw [Opening, hg, hx, htov, hb, hc]
  exact h

/-- A poll of the transmit driver before the start bit is over fetches the first bit, or nothing. -/
theorem opening_xmit {b : Build} {c : Nat} {sent : List Nat} {s : Cec Soft} (h : Opening b c sent s)
    (delta : Nat) (level : Bool) : Opening b c sent (cecTransmitPeriodic s delta level) := by
  have hwait : s.hw.pwm.xmitState ≠ .idle → s.hw.pwm.tov1 = false → Opening b c sent (cecTransmitPeriodic s delta level) := by
    intro hx htov
    have hsame : xmitPwmPeriodic s = s := by
      rw [xmitPwmPeriodic, htov]
      rfl
    obtain ⟨n, hn⟩ := transmit_going hx (by rw [hsame]; exact hx) delta level
    rw [hn, hsame]
    exact h.congr rfl rfl rfl rfl rfl
  rcases h with ⟨rfl, -, hx, htov, -⟩ | ⟨rfl, hx, hstart, htop⟩ | hall
  · exact hwait (by rw [hx]; exact PwmState.noConfusion) htov
  · cases htov : s.hw.pwm.tov1 with
    | false => exact hwait hx htov
    | true =>
      have heq : xmitPwmPeriodic s = pwmNextBit (cleared s) := by
        rw [pwmPeriodic_eq htov, hstart htov]
      have hgoing : (xmitPwmPeriodic s).hw.pwm.xmitState ≠ .idle := by
        rw [heq]
        exact nextBit_going _
      obtain ⟨n, hn⟩ := transmit_going hx hgoing delta level
      rw [hn, heq]
      rw [heq] at hgoing
      exact .inr (.inl ⟨rfl, hgoing, fun ht => Bool.noConfusion ht, htop⟩)
  · exact .inr (.inr hall)

theorem opening_step {b : Build} {c : Nat} {sent : List Nat} {s : Cec Soft} {i : Step} (h : Opening b c sent s)
    (hgo : episodes (step i s).told = episodes s.told) : Opening b c (sent ++ latched s i) (step i s) := by
  cases i with
  | recv delta level =>
    obtain ⟨hpwm, hgets⟩ := recv_calm hgo
    rw [show latched s (.recv delta level) = [] from rfl, List.append_nil]
    exact h.congr hgets (by rw [step, hpwm]) (by rw [step, hpwm]) (by rw [step, hpwm]) (by rw [step, hpwm])
  | xmit delta level =>
    rw [show latched s (.xmit delta level) = [] from rfl, List.append_nil]
    exact opening_xmit h delta level
  | addr =>
    rw [show latched s .addr = [] from rfl, List.append_nil, step]
    exact h.congr (by rw [addrPeriodic_told]) (by rw [Usi.addrPeriodic_hw]) (by rw [Usi.addrPeriodic_hw])
      (by rw [Usi.addrPeriodic_hw]) (by rw [Usi.addrPeriodic_hw])
  | app a =>
    rw [show latched s (.app a) = [] from rfl, List.append_nil, step]
    exact h.congr (by rw [app_told]) (by rw [Usi.app_hw]) (by rw [Usi.app_hw]) (by rw [Usi.app_hw]) (by rw [Usi.app_hw])
  | overflow =>
    by_cases hrun : s.hw.pwm.tccr1 ≠ 0
    · have hcycle : cycle s .overflow = some (s.hw.pwm.ocr1b, s.hw.pwm.ocr1c) := if_pos hrun
      have hstep : step .overflow s = setPwm s fun p => { p with tov1 := true } := if_pos hrun
      rw [latched, hcycle, hstep]
      rcases h with ⟨rfl, -, hx, -, hlow, htop⟩ | ⟨rfl, -, -, htop⟩ | hall
      · refine .inr (.inl ⟨?_, fun hidle => PwmState.noConfusion (hx.symm.trans hidle), fun _ => hx, htop⟩)
        rw [hlow, htop]
        rfl
      · refine .inr (.inr ?_)
        rw [htop]
        exact ⟨[s.hw.pwm.ocr1b], rfl⟩
      · exact .inr (.inr (hall.trans (List.prefix_append _ _)))
    · have hcycle : cycle s .overflow = none := if_neg hrun
      have hstep : step .overflow s = s := if_neg hrun
      rw [latched, hcycle, hstep, Option.toList_none, List.flatMap_nil, List.append_nil]
      exact h

/-- An attempt begins with the registers of its start bit. -/
theorem opening_begin {s : Cec Soft} (h : Swept s) {i : Step} (hbegin : attempts (step i s).told ≠ attempts s.told) :
    Opening s.build (gets (step i s).told) (latched s i) (step i s) := by
  have hat : At s.build (step i s).tx.message 0 (step i s) := at_begin rfl hbegin
  have hlow := Option.some.inj (hat.low (by omega))
  have htop := Option.some.inj (hat.top (by omega))
  have hstate : (step i s).hw.pwm.xmitState = .start := hat.state
  obtain ⟨delta, -, rfl, -⟩ := xmit_begins (keptXmit_build s.build) rfl hbegin
  refine .inl ⟨rfl, rfl, hstate, ?_, hlow.symm, htop.symm⟩
  rw [step, transmit_tov1]
  split
  · rfl
  · next hx => exact h.swept (Decidable.of_not_not hx)

/-- The halt reaches both output paths, and there is no overflow that the next attempt would find. -/
def HaltReaches (s : Cec Soft) : Prop := HaltParks s ∧ s.hw.pwm.tov1 = false

instance (s : Cec Soft) : Decidable (HaltReaches s) := by
  unfold HaltReaches; infer_instance

theorem halt_tov1 (s : Cec Soft) : (cecHalt s).hw.pwm.tov1 = s.hw.pwm.tov1 := by
  rw [halt_hw]
  by_cases h0 : s.rx.flags = 0
  · rw [receiveError_zero h0]
  · have hnack : (if s.rx.flags.bcast then Driver.cecReceiveNackFrame s.build s.hw else s.hw).pwm = s.hw.pwm := by
      split
      · exact nackFrame_pwm ..
      · rfl
    have habort : ∀ u : Soft, (Driver.cecTransmitAbort u).pwm.tov1 = u.pwm.tov1 := fun _ => rfl
    rw [receiveError_hw s .halt h0]
    dsimp only
    split
    · rw [habort, hnack]
    · rw [hnack]

/-- A poll of an idle driver that reads low, and one that has read high for long enough. -/
theorem transmit_low {s : Cec Soft} (hx : s.hw.pwm.xmitState = .idle) (delta : Nat) :
    cecTransmitPeriodic s delta false = setPwm s fun p => { p with transmitHighTimer := 0 } := by
  have hskip : (if s.hw.pwm.xmitState ≠ .idle then xmitPwmPeriodic s else s) = s := if_neg (not_not.mpr hx)
  rw [cecTransmitPeriodic, hskip]
  rfl

theorem transmit_begins {s : Cec Soft} (hx : s.hw.pwm.xmitState = .idle) (hp : s.tx.state.pending) {delta : Nat}
    (hlong : s.tx.needed ≤ cappedAdd s.hw.pwm.transmitHighTimer delta) :
    cecTransmitPeriodic s delta true =
      xmitStart (setPwm s fun p => { p with transmitHighTimer := cappedAdd p.transmitHighTimer delta }) := by
  have hskip : (if s.hw.pwm.xmitState ≠ .idle then xmitPwmPeriodic s else s) = s := if_neg (not_not.mpr hx)
  rw [cecTransmitPeriodic, hskip]
  dsimp only
  rw [if_neg (by decide)]
  exact (if_neg (Nat.not_lt.mpr hlong)).trans (if_pos ⟨hx, hp⟩)

/-- An overflow found in the first state of an attempt fetches a bit. -/
theorem transmit_fetches {s : Cec Soft} (hx : s.hw.pwm.xmitState = .start) (htov : s.hw.pwm.tov1 = true)
    (delta : Nat) (level : Bool) : ∃ b r, (cecTransmitPeriodic s delta level).told = .getBit b r :: s.told := by
  have heq : xmitPwmPeriodic s = pwmNextBit (cleared s) := by rw [pwmPeriodic_eq htov, hx]
  obtain ⟨n, hn⟩ := transmit_going (s := s) (by rw [hx]; exact PwmState.noConfusion)
    (by rw [heq]; exact nextBit_going _) delta level
  rw [hn, heq]
  exact ⟨_, _, rfl⟩

/-- So an attempt that begins with an overflow pending fetches its first bit in the next poll. -/
theorem begin_fetches {s : Cec Soft} (hx : s.hw.pwm.xmitState = .idle) (hp : s.tx.state.pending) {delta : Nat}
    (hlong : s.tx.needed ≤ cappedAdd s.hw.pwm.transmitHighTimer delta) (htov : s.hw.pwm.tov1 = true) :
    let u := step (.xmit delta true) s
    let v := step (.xmit 0 true) u
    attempts u.told ≠ attempts s.told ∧ episodes v.told = episodes u.told ∧ gets v.told ≠ gets u.told := by
  intro u v
  have hu : u = _ := transmit_begins hx hp hlong
  have htold : u.told = .begin :: s.told := by
    rw [hu, Cec.told, xmitStart_log]
    rfl
  obtain ⟨b, r, hget⟩ := transmit_fetches (s := u) (by rw [hu]; rfl) (by rw [hu]; exact htov) 0 true
  have hv : v.told = .getBit b r :: u.told := hget
  rw [hv, htold]
  simp [attempts, episodes, failures, gets]

/-- An overflow that a halt leaves pending makes the next attempt begin so. -/
theorem pending_stays {h : Cec Soft} (hreach : Reach h) (hstate : h.tx.state = .idle)
    (hidle : h.hw.pwm.xmitState = .idle) (htov : h.hw.pwm.tov1 = true) : ¬ Stopped interface h := by
  intro hs
  -- a message is queued, and a poll resets the timer
  let q := queue h.forget (fun i => [0].getD i (h.tx.buf i)) 0
  let s := setPwm q fun p => { p with transmitHighTimer := 0 }
  have hsend : step (.app (.send [0])) h.forget = q :=
    if_pos ⟨by rw [show h.forget.tx.state = .idle from hstate]; decide, by decide⟩
  have hlow : step (.xmit 0 false) q = s := transmit_low (s := q) hidle 0
  have hclean : Along Clean step h.forget [.app (.send [0]), .xmit 0 false] := by
    refine ⟨.inl (congrArg failures (app_told _ _)), ?_, trivial⟩
    rw [hsend, Clean, hlow]
    exact .inl rfl
  obtain ⟨delta, hlong⟩ : ∃ delta, h.tx.needed ≤ cappedAdd 0 delta := by
    have hcap : cappedAdd 0 65535 = 65535 := by decide
    have := hreach.needed
    exact ⟨65535, by omega⟩
  have hbegins := hs.begins [.app (.send [0]), .xmit 0 false] (.xmit delta true) [.xmit 0 true] hclean
  have hrun : run interface.step h.forget [.app (.send [0]), .xmit 0 false] = s := by
    change step (.xmit 0 false) (step (.app (.send [0])) h.forget) = s
    rw [hsend, hlow]
  rw [hrun] at hbegins
  have hpend : s.tx.state.pending := by
    change TransmitState.pend.pending
    decide
  obtain ⟨hbegin, hcalm, hget⟩ := begin_fetches (s := s) hidle hpend hlong htov
  exact (hbegins hbegin hcalm).2 hget rfl

theorem stopped_iff {s : Cec Soft} (h : Reach s) : Stopped interface (cecHalt s) ↔ HaltReaches s := by
  rw [HaltReaches, ← parked_iff h, ← halt_tov1]
  have hreach := reach_halt h
  constructor
  · intro hs
    refine ⟨hs.toParked, ?_⟩
    have hidle := hreach.clocked.mp hs.floating.2
    have hstate := (hs.silent [] (fun _ hi => absurd hi (List.not_mem_nil))).1
    by_contra htov
    exact pending_stays hreach hstate hidle (eq_true_of_ne_false htov) hs
  · rintro ⟨hp, htov⟩
    refine ⟨hp, fun is i js his => ?_⟩
    intro s' u v hbegin hgo
    have hswept : Swept s' := by
      have h0 : Swept (cecHalt s).forget := ⟨⟨hreach.static, hreach.clocked, hreach.needed⟩, fun _ => htov⟩
      have hstep : ∀ (t : Cec Soft) (i : Step), Swept t → Clean t i → Swept (step i t) := fun _ _ h hi => swept_step h hi
      exact invariant_run hstep h0 his
    have hopen : Opening s'.build (gets u.told) (interface.signals s' (i :: js)) v :=
      signals_run (T := interface) (fun s i => episodes_le_step s i) (fun _ _ _ h hgo => opening_step h hgo)
        (opening_begin hswept hbegin) hgo
    rcases hopen with ⟨hsent, hgets, -⟩ | ⟨hsent, -⟩ | hsent
    · rw [hsent]
      exact ⟨.inl List.nil_prefix, fun hne => absurd hgets hne⟩
    · rw [hsent]
      exact ⟨.inl ⟨[ocr (usToCecJiffies s'.build cecStartHigh)], rfl⟩, fun _ => List.cons_ne_nil _ _⟩
    · refine ⟨.inr hsent, fun _ hnil => ?_⟩
      rw [hnil] at hsent
      exact absurd hsent (by simp [interface])

/-- The state after a run in which halts may have come before. -/
def after (build : Build) (addr : Addr) (as : List (OrHalt Step)) : Cec Soft :=
  run (orHalt step cecHalt) (initial build addr) as

end Soft

/-- In every state of a run, halts included, `cec_halt` stops the transmitter and releases the line
    exactly when it reaches the driver. -/
theorem halt_stops_iff (build : Build) (addr : Addr) (h : addr.Static) :
    (∀ as, Stopped Usi.interface (Usi.cecHalt (Usi.after build addr as)) ↔ Usi.HaltReaches (Usi.after build addr as)) ∧
      ∀ as, Stopped Soft.interface (Soft.cecHalt (Soft.after build addr as)) ↔
        Soft.HaltReaches (Soft.after build addr as) :=
  ⟨fun as => Usi.stopped_iff (Usi.reach_run build h as), fun as => Soft.stopped_iff (Soft.reach_run build h as)⟩

/-- A message is queued and its start bit begins. -/
def usiBegins : List (OrHalt Usi.Step) :=
  (.app (.send [0x45, 0x36]) :: Usi.byteTimes 5).map .step

def pwmBegins : List (OrHalt Soft.Step) :=
  [.step (.app (.send [0x45, 0x36])), .step (.xmit 12000 true)]

/-- The echo of that start bit has been heard, and that of the first bits begins. -/
def usiMidway : List (OrHalt Usi.Step) := usiBegins ++ (Usi.byteTimes 4).map .step

def pwmMidway : List (OrHalt Soft.Step) :=
  .step (.recv 6000 true) :: pwmBegins ++ (Soft.startPolls ++ Soft.bitPolls false).map .step

/-- A halt in the middle of a message stops both builds. -/
theorem halt_stops_midway :
    ((Usi.after {} (.fixed 4) usiMidway).rx.flags ≠ 0 ∧ (Usi.after {} (.fixed 4) usiMidway).tx.state.busy ∧
      Stopped Usi.interface (Usi.cecHalt (Usi.after {} (.fixed 4) usiMidway))) ∧
    (Soft.after {} (.fixed 4) pwmMidway).rx.flags ≠ 0 ∧ (Soft.after {} (.fixed 4) pwmMidway).tx.state.busy ∧
      Stopped Soft.interface (Soft.cecHalt (Soft.after {} (.fixed 4) pwmMidway)) := by
  obtain ⟨husi, hsoft⟩ := halt_stops_iff {} (.fixed 4) trivial
  have hu : (Usi.after {} (.fixed 4) usiMidway).rx.flags ≠ 0 ∧ (Usi.after {} (.fixed 4) usiMidway).tx.state.busy ∧
    Usi.HaltReaches (Usi.after {} (.fixed 4) usiMidway) := by decide +kernel
  have hs : (Soft.after {} (.fixed 4) pwmMidway).rx.flags ≠ 0 ∧ (Soft.after {} (.fixed 4) pwmMidway).tx.state.busy ∧
    Soft.HaltReaches (Soft.after {} (.fixed 4) pwmMidway) := by decide +kernel
  exact ⟨⟨hu.1, hu.2.1, (husi usiMidway).mpr hu.2.2⟩, hs.1, hs.2.1, (hsoft pwmMidway).mpr hs.2.2⟩

/-- A halt while the start bit begins, before the receive side has seen it, stops neither build. -/
theorem halt_leaves_running :
    ¬ Stopped Usi.interface (Usi.cecHalt (Usi.after {} (.fixed 4) usiBegins)) ∧
      ¬ Stopped Soft.interface (Soft.cecHalt (Soft.after {} (.fixed 4) pwmBegins)) := by
  have hu : ¬ Usi.HaltReaches (Usi.after {} (.fixed 4) usiBegins) := by decide +kernel
  have hs : ¬ Soft.HaltReaches (Soft.after {} (.fixed 4) pwmBegins) := by decide +kernel
  have hfixed : (Addr.fixed 4).Static := trivial
  exact ⟨fun h => hu ((Usi.stopped_iff (Usi.reach_run {} hfixed usiBegins)).mp h),
    fun h => hs ((Soft.stopped_iff (Soft.reach_run {} hfixed pwmBegins)).mp h)⟩

end AvrCec
