import AvrCec.Release
import AvrCec.Agreement
import AvrCec.Tolerance

/-! The soft receive driver on a line that it polls at a pace of its own.

    The driver sees the line at its polls only, so every edge comes late, by less than the gap between
    two polls, and while it acks a block it reads its own low. `Frames` says what a waveform must keep
    for that to do no harm. Then the polls fed with it leave the receive side as the engine alone would
    be left by a start and the bits read (`polled_received`): the driver is in one of the places of a
    bit (`InBit`), each poll moves it on in the bit or into the bit after, and the sample is taken in
    between. -/

namespace AvrCec
open Lib

/-! ### Receive sides -/

section
variable {D : Type} [Driver D]

/-- The receive sides agree, in what they have received and in what they were told. -/
structure Same (e t : Cec D) : Prop where
  build : t.build = e.build
  addr : t.addr = e.addr
  rx : t.rx = e.rx
  calls : t.calls = e.calls

omit [Driver D] in
theorem Same.refl (e : Cec D) : Same e e := ⟨rfl, rfl, rfl, rfl⟩

omit [Driver D] in
theorem Same.hw {e t : Cec D} (h : Same e t) (u : D) : Same e { t with hw := u } :=
  ⟨h.build, h.addr, h.rx, h.calls⟩

theorem Same.bit {buf₀ : Nat → Nat} {bits : List Bool} {e t : Cec D} (h : Same e t)
    (he : Tracks e.build.hdr buf₀ bits e.rx) (b : Bool) : Same (cecReceiveBit e b) (cecReceiveBit t b) := by
  have hrx : (cecReceiveBit t b).rx = (cecReceiveBit e b).rx := by
    rw [cecReceiveBit, cecReceiveBit, h.rx]
    split
    · exact dataEom_rx (s := e.emit (.bit b)) (t := t.emit (.bit b)) h.build h.addr h.rx e.rx.flags e.rx.pos b
    · exact ack_rx (s := e.emit (.bit b)) (t := t.emit (.bit b)) h.build h.rx e.rx.flags e.rx.pos b
  have ht : Tracks t.build.hdr buf₀ bits t.rx := by
    rw [h.build, h.rx]
    exact he
  refine ⟨?_, ?_, hrx, ?_⟩
  · rw [(receiveBit_build t b).1, (receiveBit_build e b).1, h.build]
  · rw [(receiveBit_build t b).2, (receiveBit_build e b).2, h.addr]
  · rcases receiveBit_calls he b with ⟨htr, hcalls⟩ | ⟨-, h0, hcalls⟩
    · rcases receiveBit_calls ht b with ⟨-, hcalls'⟩ | ⟨-, h0, -⟩
      · rw [hcalls, hcalls', h.calls]
      · rw [hrx] at h0
        exact absurd h0 htr.flags_ne
    · rcases receiveBit_calls ht b with ⟨htr, -⟩ | ⟨-, -, hcalls'⟩
      · exact absurd (by rw [hrx]; exact h0) htr.flags_ne
      · rw [hcalls, hcalls', h.calls]

theorem Same.start {e t : Cec D} (h : Same e t) : Same (cecReceiveStart e) (cecReceiveStart t) := by
  refine ⟨h.build, h.addr, ?_, congrArg (Ev.start :: ·) h.calls⟩
  have hbuf := congrArg Receive.buf h.rx
  exact congrArg (fun buf => ({ buf := buf, byte := 1, flags := { active := true, bitsEom := true } } : Receive)) hbuf

end

namespace Soft

/-! ### Thresholds -/

/-- The least time of a start bit and of a bit after it, and how much longer they may take. -/
def startPeriod (b : Build) : Nat := usToJiffiesRnd b (cecStartHighEarly - 200) % 65536
def bitPeriod (b : Build) : Nat := usToJiffiesRnd b (cecT7EarlyEnd - 50) % 65536
def holdTime (b : Build) (period : Nat) : Nat := (period + usToJiffiesUp b 800 % 65536) % 65536

/-- The gap between two polls is less than `gap` jiffies, and leaves room for a sample between the
    times of its window, and before an ack ends. -/
structure Prompt (b : Build) (gap : Nat) : Prop where
  pos : 0 < gap
  window : usToJiffies b cecT3 + gap ≤ usToJiffiesUp b cecT4
  ack : usToJiffies b cecT3 + gap ≤ ackDeadline b
  bit : holdTime b (bitPeriod b) ≤ usToJiffies b cecStartLowEarly
  count : holdTime b (bitPeriod b) + gap ≤ 65536 ∧ holdTime b (startPeriod b) + gap ≤ 65536

/-- A start bit that no delay of its edges takes out of its windows. -/
structure StartFrame (b : Build) (gap : Nat) (p : Pulse ℝ) : Prop where
  early : (usToJiffies b cecStartLowEarly + gap : ℕ) ≤ p.low
  late : p.low + gap ≤ usToJiffiesUp b cecStartLowLate
  high : p.low + gap ≤ p.total
  least : (startPeriod b + gap : ℕ) ≤ p.total
  most : p.total ≤ holdTime b (startPeriod b)

/-- A bit that no delay of its edges takes out of its windows. -/
structure BitFrame (b : Build) (gap : Nat) (bit : Bool) (p : Pulse ℝ) : Prop where
  seen : gap ≤ p.low
  low : if bit then p.low ≤ usToJiffies b cecT3 else (usToJiffies b cecT3 + 2 * gap : ℕ) ≤ p.low
  high : p.low + gap ≤ p.total
  ack : (ackDeadline b + 3 * gap : ℕ) ≤ p.total
  least : (bitPeriod b + gap : ℕ) ≤ p.total
  most : p.total ≤ holdTime b (bitPeriod b)

/-! ### Polls -/

/-- The polls of the receive driver at the given distances, the first of them after the time `now`.
    The line reads low while we drive it. -/
def polled (line : ℕ → Bool) (now : ℕ) (s : Cec Soft) : List ℕ → Cec Soft
  | [] => s
  | d :: ds => polled line (now + d) (step (.recv d (line (now + d) && !s.hw.driven)) s) ds

/-- The variables of the receive driver. -/
@[ext] structure Frame where
  period : Nat
  timer : Nat
  ackDone : Nat
  last : Bool
  sample : Bool
  driven : Bool

def frame (s : Cec Soft) : Frame where
  period := s.hw.receiveFramePeriod
  timer := s.hw.receiveFrameTimer
  ackDone := s.hw.receiveFrameAckDone
  last := s.hw.lastState
  sample := s.hw.sample
  driven := s.hw.driven

theorem frame_receiveBit (s : Cec Soft) (b : Bool) : frame (cecReceiveBit s b) = frame s := by
  obtain ⟨p, hp⟩ := receiveBit_hw s b
  rw [frame, hp]
  rfl

theorem frame_unsampled (s : Cec Soft) : frame (unsampled s) = { frame s with sample := false } := rfl

theorem frame_count (s : Cec Soft) (d : Nat) :
    frame (softCount s d) = { frame s with timer := cappedAdd (frame s).timer d } := rfl

theorem frame_float (s : Cec Soft) : frame (softFloat s)
    = { frame s with driven := (frame s).driven && !decide ((frame s).ackDone < (frame s).timer) } := by
  rw [softFloat]
  split
  · next h =>
    have hd : decide ((frame s).ackDone < (frame s).timer) = true := decide_eq_true h
    rw [hd, Bool.not_true, Bool.and_false]
    rfl
  · next h =>
    have hd : decide ((frame s).ackDone < (frame s).timer) = false := decide_eq_false h
    rw [hd, Bool.not_false, Bool.and_true]

theorem same_float {e t : Cec Soft} (h : Same e t) : Same e (softFloat t) := by
  rw [softFloat]
  split
  · exact h.hw _
  · exact h

/-- Done acking, when the time of the ack is over. -/
def Frame.floated (w : Frame) : Frame := { w with driven := w.driven && !decide (w.ackDone < w.timer) }

/-- A poll, up to the edge it may see, takes no sample. -/
theorem sampled_wait {t : Cec Soft} {d : ℕ} (level : Bool)
    (h : t.hw.sample = true → cappedAdd t.hw.receiveFrameTimer d ≤ usToJiffies t.build cecT3) :
    sampled t d level = softCount t d := by
  rw [sampled, softSample_eq, if_neg]
  rintro ⟨hs, hlt⟩
  exact absurd (h hs) (Nat.not_le.mpr hlt)

/-- A poll in the window of the sample feeds the engine the level. -/
theorem sampled_due {t : Cec Soft} {d : ℕ} (level : Bool) (hs : t.hw.sample = true)
    (hlo : usToJiffies t.build cecT3 < cappedAdd t.hw.receiveFrameTimer d)
    (hhi : cappedAdd t.hw.receiveFrameTimer d ≤ usToJiffiesUp t.build cecT4) :
    sampled t d level = cecReceiveBit (unsampled (softCount t d)) level := by
  have hdue : (softCount t d).hw.sample = true ∧
      usToJiffies (softCount t d).build cecT3 < (softCount t d).hw.receiveFrameTimer := ⟨hs, hlo⟩
  have hearly : ¬ usToJiffiesUp (softCount t d).build cecT4 < (softCount t d).hw.receiveFrameTimer :=
    Nat.not_lt.mpr hhi
  rw [sampled, softSample_eq, if_pos hdue, if_neg hearly]

/-- The level a poll keeps for the next one. -/
def lastly (s : Cec Soft) (level : Bool) : Cec Soft := { s with hw := { s.hw with lastState := level } }

theorem frame_lastly (s : Cec Soft) (level : Bool) :
    frame (lastly s level) = { frame s with last := level } := rfl

theorem step_recv (t : Cec Soft) (d : ℕ) (level : Bool) :
    step (.recv d level) t = lastly (softEdge (softFloat (sampled t d level)) level) level := rfl

section
variable {e t : Cec Soft} {d : ℕ} {w : Frame}

/-- No edge that is due is missing, and no edge there is ends or begins anything. -/
theorem poll_quiet {level : Bool} (hu : Same e (sampled t d level)) (hw : frame (sampled t d level) = w)
    (hhold : level = w.last → e.rx.flags = 0 ∨ w.timer ≤ holdTime e.build w.period)
    (hrise : level ≠ w.last → level = true ∧ w.timer ≤ usToJiffies e.build cecStartLowEarly) :
    Same e (step (.recv d level) t) ∧ frame (step (.recv d level) t) = { w.floated with last := level } := by
  have hv := same_float hu
  have hfv : frame (softFloat (sampled t d level)) = w.floated := by
    rw [frame_float, hw]
    rfl
  rw [step_recv]
  generalize softFloat (sampled t d level) = v at hv hfv
  have hlast : v.hw.lastState = w.last := congrArg Frame.last hfv
  have htimer : v.hw.receiveFrameTimer = w.timer := congrArg Frame.timer hfv
  have hperiod : v.hw.receiveFramePeriod = w.period := congrArg Frame.period hfv
  have hedge : softEdge v level = v := by
    rw [softEdge, hlast]
    split
    · next heq =>
      rw [softHold, htimer, hperiod, hv.build]
      rcases hhold heq with h0 | hle
      · rw [receiveError_zero (by rw [hv.rx]; exact h0), ite_self]
      · exact if_neg (Nat.not_lt.mpr hle)
    · next hne =>
      obtain ⟨rfl, hle⟩ := hrise hne
      rw [if_pos rfl, softRise, htimer, hv.build, if_neg]
      rintro ⟨hlt, -⟩
      exact absurd hle (Nat.not_le.mpr hlt)
  rw [hedge]
  exact ⟨hv.hw _, by rw [frame_lastly, hfv]⟩

/-- The rising edge of a start bit. -/
theorem poll_rise (hu : Same e (sampled t d true)) (hw : frame (sampled t d true) = w)
    (hlast : w.last = false) (hlo : usToJiffies e.build cecStartLowEarly < w.timer)
    (hhi : w.timer < usToJiffiesUp e.build cecStartLowLate) :
    Same (cecReceiveStart e) (step (.recv d true) t) ∧
      frame (step (.recv d true) t) = { w.floated with period := startPeriod e.build, last := true } := by
  have hv := same_float hu
  have hfv : frame (softFloat (sampled t d true)) = w.floated := by
    rw [frame_float, hw]
    rfl
  have hframe : ∀ (v : Cec Soft) (n : ℕ), frame (lastly (cecReceiveStart { v with hw := { v.hw with
      receiveFramePeriod := n } }) true) = { frame v with period := n, last := true } := fun _ _ => rfl
  rw [step_recv]
  generalize softFloat (sampled t d true) = v at hv hfv
  have hvlast : v.hw.lastState = false := (congrArg Frame.last hfv).trans hlast
  have htimer : v.hw.receiveFrameTimer = w.timer := congrArg Frame.timer hfv
  have hedge : softEdge v true
      = cecReceiveStart { v with hw := { v.hw with receiveFramePeriod := startPeriod e.build } } := by
    rw [softEdge, hvlast, if_neg (by decide), if_pos rfl, softRise, htimer, hv.build, if_pos ⟨hlo, hhi⟩]
    rfl
  rw [hedge, hframe, hfv]
  exact ⟨(hv.hw _).start.hw _, rfl⟩

/-- We ack the bit that is about to begin. -/
def Acks (e : Cec Soft) : Bool := e.rx.flags.doAck && !e.rx.flags.bitsEom

/-- The parts of a falling edge: an ack begun, a sample armed, a bit begun. -/
def acking (s : Cec Soft) (deadline : ℕ) : Cec Soft :=
  { s with hw := { s.hw with driven := true, receiveFrameAckDone := deadline } }

def armed (s : Cec Soft) : Cec Soft := { s with hw := { s.hw with sample := true } }

def begun (s : Cec Soft) (period : ℕ) : Cec Soft :=
  { s with hw := { s.hw with receiveFramePeriod := period, receiveFrameTimer := 0 } }

theorem frame_begun (s : Cec Soft) (n : ℕ) :
    frame (lastly (begun s n) false) = { frame s with period := n, timer := 0, last := false } := rfl
theorem frame_armed (s : Cec Soft) : frame (armed s) = { frame s with sample := true } := rfl
theorem frame_acking (s : Cec Soft) (n : ℕ) :
    frame (acking s n) = { frame s with driven := true, ackDone := n } := rfl

/-- A falling edge that is not early. -/
theorem softFall_eq {s : Cec Soft} (h : s.rx.flags ≠ 0 → s.hw.receiveFramePeriod ≤ s.hw.receiveFrameTimer) :
    softFall s = begun (if s.rx.flags ≠ 0 then armed (if Acks s then acking s (ackDeadline s.build) else s) else s)
      (bitPeriod s.build) := by
  have hbegun : ∀ (t : Cec Soft) (n : ℕ),
      { t with hw := { t.hw with receiveFramePeriod := n, receiveFrameTimer := 0 } } = begun t n := fun _ _ => rfl
  have harmed : ∀ t : Cec Soft, { t with hw := { t.hw with sample := true } } = armed t := fun _ => rfl
  have hacking : ∀ (t : Cec Soft) (n : ℕ),
      { t with hw := { t.hw with driven := true, receiveFrameAckDone := n } } = acking t n := fun _ _ => rfl
  have harmb : ∀ t : Cec Soft, (armed t).build = t.build := fun _ => rfl
  have hackb : ∀ (t : Cec Soft) (n : ℕ), (acking t n).build = t.build := fun _ _ => rfl
  rw [softFall, hbegun, bitPeriod]
  by_cases h0 : s.rx.flags = 0
  · rw [if_neg (not_not_intro h0), if_neg (not_not_intro h0)]
  · rw [if_pos h0, if_pos h0, if_neg (Nat.not_lt.mpr (h h0)), harmed, harmb, Acks]
    split
    · rw [hacking, hackb, ackDeadline]
    · rfl

/-- A falling edge arms a sample, and begins an ack when one is due. -/
theorem poll_fall (hu : Same e (sampled t d false)) (hw : frame (sampled t d false) = w)
    (hlast : w.last = true) (hsample : w.sample = false) (hdriven : w.floated.driven = false)
    (hperiod : e.rx.flags ≠ 0 → w.period ≤ w.timer) :
    Same e (step (.recv d false) t) ∧ ∃ ackDone, (Acks e = true → ackDone = ackDeadline e.build) ∧
      frame (step (.recv d false) t) =
        { period := bitPeriod e.build, timer := 0, ackDone := ackDone, last := false,
          sample := decide (e.rx.flags ≠ 0), driven := Acks e } := by
  have hv := same_float hu
  have hfv : frame (softFloat (sampled t d false)) = w.floated := by
    rw [frame_float, hw]
    rfl
  rw [step_recv]
  generalize softFloat (sampled t d false) = v at hv hfv
  have hvlast : v.hw.lastState = true := (congrArg Frame.last hfv).trans hlast
  have htimer : v.hw.receiveFrameTimer = w.timer := congrArg Frame.timer hfv
  have hvperiod : v.hw.receiveFramePeriod = w.period := congrArg Frame.period hfv
  have hvsample : (frame v).sample = false := (congrArg Frame.sample hfv).trans hsample
  have hvdriven : (frame v).driven = false := (congrArg Frame.driven hfv).trans hdriven
  have hedge : softEdge v false = softFall v := by
    rw [softEdge, hvlast, if_neg (by decide)]
    rfl
  have hflags : v.rx.flags = e.rx.flags := congrArg Receive.flags hv.rx
  have hacks : Acks v = Acks e := by rw [Acks, Acks, hflags]
  have hle : v.rx.flags ≠ 0 → v.hw.receiveFramePeriod ≤ v.hw.receiveFrameTimer := by
    rw [hflags, htimer, hvperiod]
    exact hperiod
  rw [hedge, softFall_eq hle, frame_begun, hflags, hacks, hv.build]
  generalize bitPeriod e.build = n
  generalize ackDeadline e.build = m
  by_cases h0 : e.rx.flags = 0
  · have hno : Acks e = false := by
      rw [Acks, h0]
      rfl
    rw [if_neg (not_not_intro h0), decide_eq_false (not_not_intro h0), hno]
    exact ⟨(hv.hw _).hw _, (frame v).ackDone, fun h => Bool.noConfusion h,
      Frame.ext rfl rfl rfl rfl hvsample hvdriven⟩
  · rw [if_pos h0, decide_eq_true h0, frame_armed]
    cases ha : Acks e with
    | false =>
      rw [if_neg (by decide)]
      exact ⟨((hv.hw _).hw _).hw _, (frame v).ackDone, fun h => Bool.noConfusion h,
        Frame.ext rfl rfl rfl rfl rfl hvdriven⟩
    | true =>
      rw [if_pos rfl, frame_acking]
      exact ⟨(((hv.hw _).hw _).hw _).hw _, m, fun _ => rfl, rfl⟩

end

/-! ### Inside a bit -/

/-- The level read of a bit: low when we ack it. -/
def heardBit (e : Cec Soft) (bit : Bool) : Bool := bit && !Acks e

/-- The engine `time` jiffies into a bit: the sample is taken in between. -/
def soFar (e : Cec Soft) (bit : Bool) (time : ℕ) : Cec Soft :=
  if e.rx.flags ≠ 0 ∧ usToJiffies e.build cecT3 < time then cecReceiveBit e (heardBit e bit) else e

theorem soFar_build (e : Cec Soft) (bit : Bool) (time : ℕ) : (soFar e bit time).build = e.build := by
  rw [soFar]
  split
  · exact (receiveBit_build e _).1
  · rfl

/-- The driver `x` after the falling edge of a bit, of an engine `e` that has all bits before it. -/
structure InBit (gap : ℕ) (e t : Cec Soft) (p : Pulse ℝ) (bit : Bool) (x : ℝ) : Prop where
  behind : ((frame t).timer : ℝ) ≤ x
  ahead : x < (frame t).timer + gap
  inside : x < p.total
  tracks : e.rx.flags ≠ 0 → ∃ buf₀ bits, Tracks e.build.hdr buf₀ bits e.rx
  same : Same (soFar e bit (frame t).timer) t
  period : (frame t).period = bitPeriod e.build
  sample : (frame t).sample = true ↔ e.rx.flags ≠ 0 ∧ (frame t).timer ≤ usToJiffies e.build cecT3
  ackDone : Acks e = true → (frame t).ackDone = ackDeadline e.build
  driven : (frame t).driven = true ↔ Acks e = true ∧ (frame t).timer ≤ ackDeadline e.build
  high : (frame t).last = true → p.low ≤ x ∧ (frame t).driven = false
  low : (frame t).last = false → x < p.low ∨ Acks e = true ∧ x < ackDeadline e.build + 2 * gap

theorem cappedAdd_eq {t d : ℕ} {x y : ℝ} {n : ℕ} (h : (t : ℝ) ≤ x) (hx : x + d < y) (hy : y ≤ n)
    (hn : n ≤ 65536) : cappedAdd t d = t + d := by
  have hlt : ((t + d : ℕ) : ℝ) < n := by
    push_cast
    linarith
  have hlt' : t + d < n := by exact_mod_cast hlt
  rw [cappedAdd, if_pos (by omega)]

/-- What is left of a poll inside a bit once its sample is taken, if it is due. -/
structure Met (e t u : Cec Soft) (bit : Bool) (d : ℕ) : Prop where
  same : Same (soFar e bit (frame u).timer) u
  timer : (frame u).timer = (frame t).timer + d
  sample : (frame u).sample = true ↔ e.rx.flags ≠ 0 ∧ (frame u).timer ≤ usToJiffies e.build cecT3
  period : (frame u).period = (frame t).period
  ackDone : (frame u).ackDone = (frame t).ackDone
  last : (frame u).last = (frame t).last
  driven : (frame u).driven = (frame t).driven

section
variable {gap d : ℕ} {e t : Cec Soft} {p : Pulse ℝ} {bit : Bool} {x : ℝ}

theorem InBit.build (h : InBit gap e t p bit x) : t.build = e.build :=
  h.same.build.trans (soFar_build e bit _)

/-- The level read while the sample falls due is the bit, or our own ack. -/
theorem InBit.heard (h : InBit gap e t p bit x) (hp : Prompt e.build gap) (hf : BitFrame e.build gap bit p)
    (hd : d < gap) (hle : (frame t).timer ≤ usToJiffies e.build cecT3)
    (hlt : usToJiffies e.build cecT3 < (frame t).timer + d) :
    x + d < p.total ∧ (decide (p.low ≤ x + d) && !(frame t).driven) = heardBit e bit := by
  have hbehind := h.behind
  have hahead := h.ahead
  have hack := hp.ack
  have hdr : (d : ℝ) < gap := by exact_mod_cast hd
  have hlo : ((usToJiffies e.build cecT3 : ℕ) : ℝ) < x + d := by
    have hc : ((usToJiffies e.build cecT3 : ℕ) : ℝ) < ((frame t).timer + d : ℕ) := by exact_mod_cast hlt
    push_cast at hc
    linarith
  have hhi : x + d < (usToJiffies e.build cecT3 : ℕ) + 2 * gap := by
    have hc : (((frame t).timer : ℕ) : ℝ) ≤ (usToJiffies e.build cecT3 : ℕ) := by exact_mod_cast hle
    linarith
  constructor
  · have hack' : (usToJiffies e.build cecT3 : ℝ) + gap ≤ ackDeadline e.build := by exact_mod_cast hack
    have hpulse := hf.ack
    push_cast at hpulse
    have hgap : (0 : ℝ) < gap := by exact_mod_cast hp.pos
    linarith
  · rw [heardBit]
    cases ha : Acks e with
    | true =>
      have hdriven : (frame t).driven = true := h.driven.mpr ⟨ha, by omega⟩
      simp [hdriven]
    | false =>
      have hdriven : (frame t).driven = false := by
        by_contra hc
        exact absurd (h.driven.mp (by simpa using hc)).1 (by rw [ha]; decide)
      have hlow := hf.low
      rw [hdriven, Bool.not_false, Bool.and_true, Bool.and_true]
      cases bit with
      | true =>
        rw [if_pos rfl] at hlow
        exact decide_eq_true (by linarith)
      | false =>
        rw [if_neg (by decide)] at hlow
        push_cast at hlow
        exact decide_eq_false (by linarith)

/-- The poll in which the sample falls due. -/
theorem InBit.reads (h : InBit gap e t p bit x) (hp : Prompt e.build gap) (hd : d < gap)
    (hcount : cappedAdd (frame t).timer d = (frame t).timer + d) (h0 : e.rx.flags ≠ 0)
    (hle : (frame t).timer ≤ usToJiffies e.build cecT3) (hlt : usToJiffies e.build cecT3 < (frame t).timer + d) :
    Met e t (sampled t d (heardBit e bit)) bit d := by
  have hwindow := hp.window
  have hdue : sampled t d (heardBit e bit) = cecReceiveBit (unsampled (softCount t d)) (heardBit e bit) := by
    refine sampled_due _ (h.sample.mpr ⟨h0, hle⟩) ?_ ?_
    · rw [h.build]
      exact hlt.trans_le (Nat.le_of_eq hcount.symm)
    · rw [h.build]
      exact (Nat.le_of_eq hcount).trans (by omega)
  have hbefore : soFar e bit (frame t).timer = e := if_neg fun hc => absurd hle (Nat.not_le.mpr hc.2)
  have hafter : soFar e bit ((frame t).timer + d) = cecReceiveBit e (heardBit e bit) := if_pos ⟨h0, hlt⟩
  have hsame : Same e (unsampled (softCount t d)) := by
    have := h.same
    rw [hbefore] at this
    exact (this.hw _).hw _
  obtain ⟨buf₀, heard, htracks⟩ := h.tracks h0
  have hframe : frame (sampled t d (heardBit e bit))
      = { frame t with timer := (frame t).timer + d, sample := false } := by
    rw [hdue, frame_receiveBit, frame_unsampled, frame_count, hcount]
  constructor
  · rw [hframe, hafter, hdue]
    exact hsame.bit htracks _
  all_goals rw [hframe]
  exact ⟨fun hc => Bool.noConfusion hc, fun hc => absurd hc.2 (Nat.not_le.mpr hlt)⟩

/-- A poll in which it does not. -/
theorem InBit.waits (h : InBit gap e t p bit x) (level : Bool)
    (hcount : cappedAdd (frame t).timer d = (frame t).timer + d)
    (hnot : ¬ (e.rx.flags ≠ 0 ∧ (frame t).timer ≤ usToJiffies e.build cecT3 ∧
      usToJiffies e.build cecT3 < (frame t).timer + d)) : Met e t (sampled t d level) bit d := by
  have hwait : t.hw.sample = true → cappedAdd t.hw.receiveFrameTimer d ≤ usToJiffies t.build cecT3 := by
    intro hs
    obtain ⟨h0, hle⟩ := h.sample.mp hs
    rw [h.build]
    refine (Nat.le_of_eq hcount).trans ?_
    by_contra hc
    exact hnot ⟨h0, hle, Nat.not_le.mp hc⟩
  have hsofar : soFar e bit ((frame t).timer + d) = soFar e bit (frame t).timer := by
    rw [soFar, soFar]
    congr 1
    rw [eq_iff_iff]
    refine ⟨fun hc => ⟨hc.1, ?_⟩, fun hc => ⟨hc.1, hc.2.trans_le (Nat.le_add_right _ _)⟩⟩
    by_contra hn
    exact hnot ⟨hc.1, Nat.not_lt.mp hn, hc.2⟩
  have hframe : frame (sampled t d level) = { frame t with timer := (frame t).timer + d } := by
    rw [sampled_wait level hwait, frame_count, hcount]
  constructor
  · rw [hframe, hsofar, sampled_wait level hwait]
    exact h.same.hw _
  all_goals rw [hframe]
  refine ⟨fun hc => ⟨(h.sample.mp hc).1, ?_⟩, fun hc => h.sample.mpr ⟨hc.1, ?_⟩⟩
  · by_contra hn
    exact hnot ⟨(h.sample.mp hc).1, (h.sample.mp hc).2, Nat.not_le.mp hn⟩
  · exact (Nat.le_add_right _ _).trans hc.2

/-- The level of the line inside a bit. -/
noncomputable def read (t : Cec Soft) (p : Pulse ℝ) (x : ℝ) : Bool := decide (p.low ≤ x) && !t.hw.driven

theorem InBit.met (h : InBit gap e t p bit x) (hp : Prompt e.build gap) (hf : BitFrame e.build gap bit p)
    (hd : d < gap) (hcount : cappedAdd (frame t).timer d = (frame t).timer + d) :
    Met e t (sampled t d (read t p (x + d))) bit d := by
  by_cases hdue : e.rx.flags ≠ 0 ∧ (frame t).timer ≤ usToJiffies e.build cecT3 ∧
      usToJiffies e.build cecT3 < (frame t).timer + d
  · obtain ⟨h0, hle, hlt⟩ := hdue
    have hread : read t p (x + d) = heardBit e bit := (h.heard hp hf hd hle hlt).2
    rw [hread]
    exact h.reads hp hd hcount h0 hle hlt
  · exact h.waits _ hcount hdue

/-- A poll that is still inside the bit. -/
theorem InBit.next (h : InBit gap e t p bit x) (hp : Prompt e.build gap) (hf : BitFrame e.build gap bit p)
    (hd : d < gap) (hx : x + d < p.total) :
    InBit gap e (step (.recv d (read t p (x + d))) t) p bit (x + d) := by
  have hcount := cappedAdd_eq h.behind hx hf.most (by have := hp.count.1; omega)
  have hmet := h.met hp hf hd hcount
  have hbehind := h.behind
  have hahead := h.ahead
  have hdr : (d : ℝ) < gap := by exact_mod_cast hd
  have htimer : (((frame t).timer + d : ℕ) : ℝ) ≤ x + d := by
    push_cast
    linarith
  have hmost : (frame t).timer + d ≤ holdTime e.build (bitPeriod e.build) := by
    have hc := htimer.trans (hx.le.trans hf.most)
    exact_mod_cast hc
  have hread : read t p (x + d) = false → (frame t).last = false := by
    intro hr
    by_contra hl
    obtain ⟨hlow, hdriven⟩ := h.high (by simpa using hl)
    have hdr' : t.hw.driven = false := hdriven
    rw [read, hdr', decide_eq_true (by have : (0 : ℝ) ≤ d := Nat.cast_nonneg d; linarith)] at hr
    exact Bool.noConfusion hr
  obtain ⟨hsame, hframe⟩ := poll_quiet hmet.same rfl
    (fun _ => .inr (by rw [hmet.timer, hmet.period, soFar_build, h.period]; exact hmost))
    (fun hne => by
      have htrue : read t p (x + d) = true := by
        by_contra hc
        have hf := hread (by simpa using hc)
        rw [hmet.last, hf] at hne
        exact hne (by simpa using hc)
      refine ⟨htrue, ?_⟩
      rw [hmet.timer, soFar_build]
      exact hmost.trans hp.bit)
  generalize step (.recv d (read t p (x + d))) t = t' at hsame hframe
  have htimer' : (frame t').timer = (frame t).timer + d := by
    rw [hframe]
    exact hmet.timer
  have hperiod' : (frame t').period = bitPeriod e.build := by
    rw [hframe]
    exact hmet.period.trans h.period
  have hsample' : (frame t').sample = (frame (sampled t d (read t p (x + d)))).sample := by
    rw [hframe]
    rfl
  have hack' : (frame t').ackDone = (frame t).ackDone := by
    rw [hframe]
    exact hmet.ackDone
  have hlast' : (frame t').last = read t p (x + d) := by rw [hframe]
  have hdriven' : (frame t').driven
      = ((frame t).driven && !decide ((frame t).ackDone < (frame t).timer + d)) := by
    rw [hframe, ← hmet.driven, ← hmet.ackDone, ← hmet.timer]
    rfl
  refine ⟨?_, ?_, hx, h.tracks, ?_, hperiod', ?_, fun ha => hack'.trans (h.ackDone ha), ?_, fun hl => ?_, fun hl => ?_⟩
  · rw [htimer']
    exact htimer
  · rw [htimer']
    push_cast
    linarith
  · rw [htimer', ← hmet.timer]
    exact hsame
  · rw [hsample', htimer', ← hmet.timer]
    exact hmet.sample
  · rw [hdriven', htimer', Bool.and_eq_true, h.driven, Bool.not_eq_true', decide_eq_false_iff_not, Nat.not_lt]
    constructor
    · rintro ⟨⟨ha, -⟩, hle⟩
      exact ⟨ha, by rwa [h.ackDone ha] at hle⟩
    · rintro ⟨ha, hle⟩
      exact ⟨⟨ha, (Nat.le_add_right _ _).trans hle⟩, by rwa [h.ackDone ha]⟩
  · rw [hlast', read, Bool.and_eq_true, decide_eq_true_iff, Bool.not_eq_true'] at hl
    have hd0 : (frame t).driven = false := hl.2
    rw [hdriven', hd0, Bool.false_and]
    exact ⟨hl.1, rfl⟩
  · rw [hlast', read, Bool.and_eq_false_iff, decide_eq_false_iff_not, Bool.not_eq_false'] at hl
    rcases hl with hlow | hdriven
    · exact .inl (not_le.mp hlow)
    · obtain ⟨ha, hle⟩ := h.driven.mp hdriven
      have hle' : (((frame t).timer : ℕ) : ℝ) ≤ (ackDeadline e.build : ℕ) := by exact_mod_cast hle
      exact .inr ⟨ha, by linarith⟩

/-! ### From bit to bit -/

/-- The falling edge of a bit. -/
theorem inBit_begins {w : Frame} (hu : Same e (sampled t d false)) (hw : frame (sampled t d false) = w)
    (hlast : w.last = true) (hsample : w.sample = false) (hdriven : w.floated.driven = false)
    (hperiod : e.rx.flags ≠ 0 → w.period ≤ w.timer)
    (htracks : e.rx.flags ≠ 0 → ∃ buf₀ bits, Tracks e.build.hdr buf₀ bits e.rx)
    (hf : BitFrame e.build gap bit p) (h0 : 0 ≤ x) (hx : x < gap) :
    InBit gap e (step (.recv d false) t) p bit x := by
  obtain ⟨hsame, ackDone, hack, hframe⟩ := poll_fall hu hw hlast hsample hdriven hperiod
  generalize step (.recv d false) t = t' at hsame hframe
  have hseen := hf.seen
  have hhigh := hf.high
  have hfresh : soFar e bit 0 = e := if_neg fun hc => absurd hc.2 (Nat.not_lt_zero _)
  refine ⟨?_, ?_, by linarith, htracks, ?_, ?_, ?_, ?_, ?_, ?_, ?_⟩
  all_goals rw [hframe]
  · simpa using h0
  · simpa using hx
  · rw [hfresh]
    exact hsame
  · simp
  · exact hack
  · simp
  · exact fun hc => Bool.noConfusion hc
  · exact fun _ => .inl (by linarith)

/-- The engine once a bit is over. -/
def bitDone (e : Cec Soft) (bit : Bool) : Cec Soft :=
  if e.rx.flags = 0 then e else cecReceiveBit e (heardBit e bit)

theorem bitDone_build (e : Cec Soft) (bit : Bool) : (bitDone e bit).build = e.build := by
  rw [bitDone]
  split
  · rfl
  · exact (receiveBit_build e _).1

theorem bitDone_tracks (h : InBit gap e t p bit x) (h0 : (bitDone e bit).rx.flags ≠ 0) :
    ∃ buf₀ bits, Tracks (bitDone e bit).build.hdr buf₀ bits (bitDone e bit).rx := by
  rw [bitDone_build]
  rw [bitDone] at h0 ⊢
  split at h0
  · next hz => exact absurd hz h0
  · next hz =>
    obtain ⟨buf₀, heard, htracks⟩ := h.tracks hz
    rw [if_neg hz]
    rcases receiveBit_calls htracks (heardBit e bit) with ⟨ht, -⟩ | ⟨-, hend, -⟩
    · exact ⟨buf₀, _, ht⟩
    · exact absurd hend h0

/-- Less than a gap ahead of its end all of a bit is over but the next edge. -/
theorem InBit.closing (h : InBit gap e t p bit x) (hp : Prompt e.build gap) (hf : BitFrame e.build gap bit p)
    (hx : p.total ≤ x + gap) : ackDeadline e.build < (frame t).timer ∧ (frame t).last = true ∧
      (frame t).sample = false ∧ (frame t).driven = false ∧ soFar e bit (frame t).timer = bitDone e bit := by
  have hahead := h.ahead
  have hack := hf.ack
  have hhigh := hf.high
  have hgap : (0 : ℝ) < gap := by exact_mod_cast hp.pos
  push_cast at hack
  have hlate : ackDeadline e.build < (frame t).timer := by
    have hc : (ackDeadline e.build : ℝ) < ((frame t).timer : ℕ) := by linarith
    exact_mod_cast hc
  have hafter : usToJiffies e.build cecT3 < (frame t).timer := by
    have := hp.ack
    omega
  refine ⟨hlate, ?_, ?_, ?_, ?_⟩
  · by_contra hl
    rcases h.low (by simpa using hl) with hlow | ⟨-, hlow⟩
    · linarith
    · linarith
  · by_contra hs
    exact absurd (h.sample.mp (by simpa using hs)).2 (Nat.not_le.mpr hafter)
  · by_contra hd
    exact absurd (h.driven.mp (by simpa using hd)).2 (Nat.not_le.mpr hlate)
  · rw [soFar, bitDone]
    by_cases h0 : e.rx.flags = 0
    · rw [if_neg fun hc => hc.1 h0, if_pos h0]
    · rw [if_pos ⟨h0, hafter⟩, if_neg h0]

/-- The poll that sees the edge of the bit after. -/
theorem InBit.fall (h : InBit gap e t p bit x) (hp : Prompt e.build gap) (hf : BitFrame e.build gap bit p)
    (hd : d < gap) (hx : p.total ≤ x + d) {q : Pulse ℝ} {bit' : Bool} (hq : BitFrame e.build gap bit' q) :
    InBit gap (bitDone e bit) (step (.recv d false) t) q bit' (x + d - p.total) := by
  have hdr : (d : ℝ) < gap := by exact_mod_cast hd
  have hinside := h.inside
  have hahead := h.ahead
  obtain ⟨hlate, hlast, hsample, hdriven, hdone⟩ := h.closing hp hf (by linarith)
  have hcount : cappedAdd (frame t).timer d = (frame t).timer + d := by
    refine cappedAdd_eq (y := p.total + gap) (n := holdTime e.build (bitPeriod e.build) + gap) h.behind ?_ ?_ hp.count.1
    · linarith
    · have := hf.most
      push_cast
      linarith
  have hwait : sampled t d false = softCount t d :=
    sampled_wait false fun hs => absurd (hsample.symm.trans hs) (by decide)
  have hsame : Same (bitDone e bit) (sampled t d false) := by
    rw [hwait, ← hdone]
    exact h.same.hw _
  have hframe : frame (sampled t d false) = { frame t with timer := (frame t).timer + d } := by
    rw [hwait, frame_count, hcount]
  refine inBit_begins hsame hframe hlast hsample ?_ (fun _ => ?_) (bitDone_tracks h) ?_ (by linarith) (by linarith)
  · simp [Frame.floated, hdriven]
  · have hleast := hf.least
    push_cast at hleast
    have hc : (bitPeriod e.build : ℝ) ≤ ((frame t).timer + d : ℕ) := by
      push_cast
      linarith
    dsimp only
    rw [h.period]
    exact_mod_cast hc
  · rw [bitDone_build]
    exact hq

end

/-- The levels that are read of the bits sent. -/
def heardBits (e : Cec Soft) : List Bool → List Bool
  | [] => []
  | bit :: bits => heardBit e bit :: heardBits (cecReceiveBit e (heardBit e bit)) bits

/-- The engine after the bits of a waveform: it takes them in until its reception ends. -/
def allDone (e : Cec Soft) (bits : List Bool) : Cec Soft :=
  if e.rx.flags = 0 then e else takeIn e (heardBits e bits)

theorem allDone_cons (e : Cec Soft) (bit : Bool) (bits : List Bool) :
    allDone e (bit :: bits) = allDone (bitDone e bit) bits := by
  rw [allDone, allDone, bitDone]
  by_cases h0 : e.rx.flags = 0
  · rw [if_pos h0, if_pos h0, if_pos h0]
  · rw [if_neg h0, if_neg h0, heardBits]
    by_cases h1 : (cecReceiveBit e (heardBit e bit)).rx.flags = 0
    · rw [if_pos h1, takeIn_ended h1]
    · rw [if_neg h1, takeIn_cons h1]

theorem allDone_nil (e : Cec Soft) : allDone e [] = e := by
  rw [allDone, heardBits, takeIn_nil, ite_self]

theorem frames_fit {b : Build} {gap : ℕ} {bits : List Bool} {ps : List (Pulse ℝ)}
    (h : List.Forall₂ (BitFrame b gap) bits ps) : ∀ p ∈ ps, p.Fits := by
  induction h with
  | nil => simp
  | cons hb _ ih =>
    have hseen := hb.seen
    have hhigh := hb.high
    have hgap : (0 : ℝ) ≤ gap := Nat.cast_nonneg gap
    rw [List.forall_mem_cons]
    exact ⟨⟨by linarith, by linarith⟩, ih⟩

/-! ### The start bit -/

/-- Nothing is under way, and the line was high at the last poll. -/
structure AtRest (t : Cec Soft) : Prop where
  flags : t.rx.flags = 0
  last : (frame t).last = true
  sample : (frame t).sample = false
  driven : (frame t).driven = false

/-- The driver `x` after the falling edge of a start bit, of an engine `e` outside of a reception. -/
structure InStart (gap : ℕ) (e t : Cec Soft) (p : Pulse ℝ) (x : ℝ) : Prop where
  behind : ((frame t).timer : ℝ) ≤ x
  ahead : x < (frame t).timer + gap
  inside : x < p.total
  flags : e.rx.flags = 0
  last : (frame t).last = decide (p.low ≤ x)
  same : Same (if (frame t).last then cecReceiveStart e else e) t
  period : (frame t).last = true → (frame t).period = startPeriod e.build
  sample : (frame t).sample = false
  driven : (frame t).driven = false

section
variable {gap d : ℕ} {e t : Cec Soft} {p : Pulse ℝ} {x : ℝ}

theorem sampled_idle (hs : (frame t).sample = false) (level : Bool) : sampled t d level = softCount t d :=
  sampled_wait level fun hs' => absurd (hs.symm.trans hs') (by decide)

theorem floated_idle {w : Frame} (h : w.driven = false) : w.floated = w := by
  rw [Frame.floated, h, Bool.false_and, ← h]

/-- A poll of the line at rest. -/
theorem AtRest.next (h : AtRest t) (hs : Same e t) :
    AtRest (step (.recv d true) t) ∧ Same e (step (.recv d true) t) := by
  have hu : Same e (sampled t d true) := by
    rw [sampled_idle h.sample]
    exact hs.hw _
  have hframe : frame (sampled t d true) = { frame t with timer := cappedAdd (frame t).timer d } := by
    rw [sampled_idle h.sample, frame_count]
  have hflags : e.rx.flags = 0 := by
    rw [← hs.rx]
    exact h.flags
  obtain ⟨hsame, hf⟩ := poll_quiet hu hframe (fun _ => .inl hflags) fun hne => absurd h.last.symm hne
  refine ⟨⟨?_, ?_, ?_, ?_⟩, hsame⟩
  · rw [hsame.rx]
    exact hflags
  all_goals rw [hf]
  · exact h.sample
  · simp [Frame.floated, h.driven]

/-- The falling edge of a start bit. -/
theorem AtRest.fall (h : AtRest t) (hs : Same e t) (hp : StartFrame e.build gap p) (h0 : 0 ≤ x) (hx : x < gap)
    (hgap : 0 < gap) : InStart gap e (step (.recv d false) t) p x := by
  have hflags : e.rx.flags = 0 := by
    rw [← hs.rx]
    exact h.flags
  have hu : Same e (sampled t d false) := by
    rw [sampled_idle h.sample]
    exact hs.hw _
  have hframe : frame (sampled t d false) = { frame t with timer := cappedAdd (frame t).timer d } := by
    rw [sampled_idle h.sample, frame_count]
  have hdriven : ({ frame t with timer := cappedAdd (frame t).timer d } : Frame).floated.driven = false := by
    simp [Frame.floated, h.driven]
  obtain ⟨hsame, ackDone, -, hf⟩ :=
    poll_fall hu hframe h.last h.sample hdriven fun hne => absurd hflags hne
  have hno : Acks e = false := by
    rw [Acks, hflags]
    rfl
  have hearly := hp.early
  have hhigh := hp.high
  have hgap' : (0 : ℝ) < gap := by exact_mod_cast hgap
  have hlow : x < p.low := by
    push_cast at hearly
    have : (0 : ℝ) ≤ usToJiffies e.build cecStartLowEarly := Nat.cast_nonneg _
    linarith
  generalize step (.recv d false) t = t' at hsame hf
  refine ⟨?_, ?_, by linarith, hflags, ?_, ?_, ?_, ?_, ?_⟩
  all_goals rw [hf]
  · simpa using h0
  · simpa using hx
  · exact (decide_eq_false (not_le.mpr hlow)).symm
  · exact hsame
  · exact fun hc => Bool.noConfusion hc
  · exact decide_eq_false (not_not_intro hflags)
  · exact hno

/-- A poll that is still inside the start bit. -/
theorem InStart.next (h : InStart gap e t p x) (hp : Prompt e.build gap) (hf : StartFrame e.build gap p)
    (hd : d < gap) (hx : x + d < p.total) : InStart gap e (step (.recv d (decide (p.low ≤ x + d))) t) p (x + d) := by
  have hcount := cappedAdd_eq h.behind hx hf.most (by have := hp.count.2; omega)
  have hbehind := h.behind
  have hahead := h.ahead
  have hdr : (d : ℝ) < gap := by exact_mod_cast hd
  have hd0 : (0 : ℝ) ≤ d := Nat.cast_nonneg d
  have hcast : (((frame t).timer + d : ℕ) : ℝ) = (frame t).timer + d := Nat.cast_add _ _
  have hframe : ∀ level, frame (sampled t d level) = { frame t with timer := (frame t).timer + d } := by
    intro level
    rw [sampled_idle h.sample, frame_count, hcount]
  have hsampled : ∀ level, Same (if (frame t).last then cecReceiveStart e else e) (sampled t d level) := by
    intro level
    rw [sampled_idle h.sample]
    exact h.same.hw _
  have hfloat : ({ frame t with timer := (frame t).timer + d } : Frame).floated
      = { frame t with timer := (frame t).timer + d } := floated_idle h.driven
  -- what the poll leaves, whatever engine it leaves
  have hfinish : ∀ {e' t' : Cec Soft} {n : ℕ}, e' = (if decide (p.low ≤ x + d) then cecReceiveStart e else e) →
      Same e' t' → frame t' = { frame t with
        timer := (frame t).timer + d, period := n, last := decide (p.low ≤ x + d) } →
      (decide (p.low ≤ x + d) = true → n = startPeriod e.build) → InStart gap e t' p (x + d) := by
    intro e' t' n he hs hft hn
    refine ⟨?_, ?_, hx, h.flags, ?_, ?_, ?_, ?_, ?_⟩
    all_goals rw [hft]
    · linarith
    · linarith
    · exact he ▸ hs
    · exact hn
    · exact h.sample
    · exact h.driven
  by_cases hlast : p.low ≤ x
  · have hhigh : (frame t).last = true := h.last.trans (decide_eq_true hlast)
    have htrue : decide (p.low ≤ x + d) = true := decide_eq_true (by linarith)
    have hmost : (frame t).timer + d ≤ holdTime e.build (startPeriod e.build) := by
      have hc : (((frame t).timer + d : ℕ) : ℝ) ≤ holdTime e.build (startPeriod e.build) := by
        have := hf.most
        linarith
      exact_mod_cast hc
    obtain ⟨hsame, hft⟩ := poll_quiet (hsampled true) (hframe true)
      (fun _ => .inr (by
        rw [hhigh, if_pos rfl]
        change _ ≤ holdTime e.build (frame t).period
        rw [h.period hhigh]
        exact hmost)) fun hne => absurd hhigh.symm hne
    rw [hfloat] at hft
    rw [htrue] at hfinish ⊢
    rw [hhigh] at hsame
    exact hfinish rfl hsame hft fun _ => h.period hhigh
  · have hlow : (frame t).last = false := h.last.trans (decide_eq_false hlast)
    have hlast' := not_le.mp hlast
    by_cases hrise : p.low ≤ x + d
    · have htrue : decide (p.low ≤ x + d) = true := decide_eq_true hrise
      have hearly := hf.early
      have hlate := hf.late
      push_cast at hearly
      have hlo : usToJiffies e.build cecStartLowEarly < (frame t).timer + d := by
        have hc : (usToJiffies e.build cecStartLowEarly : ℝ) < ((frame t).timer + d : ℕ) := by linarith
        exact_mod_cast hc
      have hhi : (frame t).timer + d < usToJiffiesUp e.build cecStartLowLate := by
        have hc : (((frame t).timer + d : ℕ) : ℝ) < usToJiffiesUp e.build cecStartLowLate := by linarith
        exact_mod_cast hc
      have hs := hsampled true
      rw [hlow] at hs
      obtain ⟨hsame, hft⟩ := poll_rise hs (hframe true) hlow hlo hhi
      rw [hfloat] at hft
      rw [htrue] at hfinish ⊢
      exact hfinish rfl hsame hft fun _ => rfl
    · have hfalse : decide (p.low ≤ x + d) = false := decide_eq_false hrise
      have hs := hsampled false
      rw [hlow] at hs
      obtain ⟨hsame, hft⟩ := poll_quiet hs (hframe false) (fun _ => .inl h.flags)
        fun hne => absurd hlow.symm hne
      rw [hfloat] at hft
      rw [hfalse] at hfinish ⊢
      exact hfinish rfl hsame hft fun hc => Bool.noConfusion hc

/-- The poll that sees the edge of the first bit. -/
theorem InStart.fall (h : InStart gap e t p x) (hp : Prompt e.build gap) (hf : StartFrame e.build gap p)
    (hd : d < gap) (hx : p.total ≤ x + d) {q : Pulse ℝ} {bit : Bool} (hq : BitFrame e.build gap bit q) :
    InBit gap (cecReceiveStart e) (step (.recv d false) t) q bit (x + d - p.total) := by
  have hdr : (d : ℝ) < gap := by exact_mod_cast hd
  have hinside := h.inside
  have hahead := h.ahead
  have hhigh := hf.high
  have hlast : (frame t).last = true := h.last.trans (decide_eq_true (by linarith))
  have hcount : cappedAdd (frame t).timer d = (frame t).timer + d := by
    refine cappedAdd_eq (y := p.total + gap) (n := holdTime e.build (startPeriod e.build) + gap) h.behind ?_ ?_
      hp.count.2
    · linarith
    · have := hf.most
      push_cast
      linarith
  have hsame : Same (cecReceiveStart e) (sampled t d false) := by
    have hs := h.same
    rw [hlast] at hs
    rw [sampled_idle h.sample]
    exact hs.hw _
  have hframe : frame (sampled t d false) = { frame t with timer := (frame t).timer + d } := by
    rw [sampled_idle h.sample, frame_count, hcount]
  refine inBit_begins hsame hframe hlast h.sample ?_ (fun _ => ?_) (fun _ => ⟨_, _, tracks_start e⟩) hq
    (by linarith) (by linarith)
  · simp [Frame.floated, h.driven]
  · have hleast := hf.least
    push_cast at hleast
    have hc : (startPeriod e.build : ℝ) ≤ ((frame t).timer + d : ℕ) := by
      push_cast
      linarith
    dsimp only
    rw [h.period hlast]
    exact_mod_cast hc

end

/-! ### Whole waveforms -/

section
variable {gap : ℕ} {start : Pulse ℝ}

/-- Where in a waveform the driver is, `x` after the falling edge of its start bit. -/
inductive Place (gap : ℕ) (s t : Cec Soft) (start : Pulse ℝ) (bits : List Bool) (ps : List (Pulse ℝ)) (x : ℝ) : Prop
  | rest (before : x < 0) (rest : AtRest t) (same : Same s t)
  | start (within : InStart gap s t start x)
  | bit {pre post : List Bool} {bit : Bool} {qs rs : List (Pulse ℝ)} {q : Pulse ℝ}
      (bits_eq : bits = pre ++ bit :: post) (pulses_eq : ps = qs ++ q :: rs)
      (past : List.Forall₂ (BitFrame s.build gap) pre qs) (frame : BitFrame s.build gap bit q)
      (ahead : List.Forall₂ (BitFrame s.build gap) post rs)
      (within : InBit gap (allDone (cecReceiveStart s) pre) t q bit (x - start.total - duration qs))

theorem allDone_build (e : Cec Soft) (bits : List Bool) : (allDone e bits).build = e.build := by
  induction bits generalizing e with
  | nil => rw [allDone_nil]
  | cons bit bits ih => rw [allDone_cons, ih, bitDone_build]

theorem allDone_concat (e : Cec Soft) (bits : List Bool) (bit : Bool) :
    allDone e (bits ++ [bit]) = bitDone (allDone e bits) bit := by
  induction bits generalizing e with
  | nil => rw [List.nil_append, allDone_cons, allDone_nil, allDone_nil]
  | cons b bits ih => rw [List.cons_append, allDone_cons, allDone_cons, ih]

variable {s t : Cec Soft} {bits : List Bool} {ps : List (Pulse ℝ)} {x : ℝ} {d : ℕ}

/-- One poll of the waveform, short of its end. -/
theorem Place.next (h : Place gap s t start bits ps x) (hp : Prompt s.build gap)
    (hstart : StartFrame s.build gap start) (hbits : List.Forall₂ (BitFrame s.build gap) bits ps) (hd : d < gap)
    (hx : x + d < start.total + duration ps) :
    Place gap s (step (.recv d (Lib.line 0 (start :: ps) (x + d) && !t.hw.driven)) t) start bits ps (x + d) := by
  have hdr : (d : ℝ) < gap := by exact_mod_cast hd
  have hd0 : (0 : ℝ) ≤ d := Nat.cast_nonneg d
  have hgap : (0 : ℝ) < gap := by exact_mod_cast hp.pos
  have hhigh := hstart.high
  have hearly := hstart.early
  push_cast at hearly
  have hlow0 : (0 : ℝ) ≤ usToJiffies s.build cecStartLowEarly := Nat.cast_nonneg _
  have hline : 0 ≤ x + d → Lib.line 0 (start :: ps) (x + d) = level (start :: ps) (x + d) := by
    intro h0
    rw [Lib.line, if_neg (not_lt.mpr h0), sub_zero]
  cases h with
  | rest before hrest hsame =>
    have hdriven : t.hw.driven = false := hrest.driven
    rw [hdriven, Bool.not_false, Bool.and_true]
    by_cases hneg : x + d < 0
    · rw [show Lib.line 0 (start :: ps) (x + d) = true from if_pos hneg]
      obtain ⟨hnext, hs⟩ := hrest.next (d := d) hsame
      exact .rest hneg hnext hs
    · have hfall : InStart gap s (step (.recv d false) t) start (x + d) :=
        hrest.fall hsame hstart (not_lt.mp hneg) (by linarith) hp.pos
      rw [hline (not_lt.mp hneg), level_inside hfall.inside, decide_eq_false (by linarith)]
      exact .start hfall
  | start within =>
    have hdriven : t.hw.driven = false := within.driven
    have hpos : 0 ≤ x := le_trans (Nat.cast_nonneg _) within.behind
    have hinside := within.inside
    rw [hdriven, Bool.not_false, Bool.and_true, hline (by linarith)]
    by_cases hin : x + d < start.total
    · rw [level_inside hin]
      exact .start (within.next hp hstart hd hin)
    · have hin' := not_lt.mp hin
      cases hbits with
      | nil =>
        rw [show duration ([] : List (Pulse ℝ)) = 0 by rfl] at hx
        linarith
      | @cons bit q bits ps hq hqs =>
        have hfall := within.fall hp hstart hd hin' hq
        have hseen := hq.seen
        rw [level_beyond (by linarith) hin', level_inside hfall.inside, decide_eq_false (by linarith)]
        refine .bit (List.nil_append _).symm (List.nil_append _).symm .nil hq hqs ?_
        rw [allDone_nil, show duration ([] : List (Pulse ℝ)) = 0 by rfl, sub_zero]
        exact hfall
  | @bit pre post bit qs rs q hb hps hover hq hahead within =>
    subst hb hps
    have hfits := frames_fit hover
    have hnonneg := duration_nonneg hfits
    have hpos : 0 ≤ x - start.total - duration qs := le_trans (Nat.cast_nonneg _) within.behind
    have hinside := within.inside
    have hb : (allDone (cecReceiveStart s) pre).build = s.build := allDone_build _ _
    have hp' : Prompt (allDone (cecReceiveStart s) pre).build gap := by rwa [hb]
    have hq' : BitFrame (allDone (cecReceiveStart s) pre).build gap bit q := by rwa [hb]
    have hlevel : level (start :: (qs ++ q :: rs)) (x + d)
        = level (q :: rs) (x - start.total - duration qs + d) := by
      rw [level_beyond (by linarith) (by linarith), level_append hfits (by linarith)]
      congr 1
      ring
    rw [hline (by linarith), hlevel]
    by_cases hin : x - start.total - duration qs + d < q.total
    · have hnext := within.next hp' hq' hd hin
      rw [level_inside hin]
      refine .bit rfl rfl hover hq hahead ?_
      rw [show x + d - start.total - duration qs = x - start.total - duration qs + d by ring]
      exact hnext
    · have hin' := not_lt.mp hin
      have hqhigh := hq.high
      cases hahead with
      | nil =>
        rw [duration_append, duration_cons, show duration ([] : List (Pulse ℝ)) = 0 by rfl] at hx
        linarith
      | @cons bit' r post rs hr hrs =>
        have hfall := within.fall hp' hq' hd hin' (by rwa [hb] : BitFrame _ gap bit' r)
        have hseen := hr.seen
        rw [level_beyond (by linarith) hin', level_inside hfall.inside, decide_eq_false (by linarith), Bool.false_and]
        have hover' : List.Forall₂ (BitFrame s.build gap) (pre ++ [bit]) (qs ++ [q]) :=
          List.rel_append hover (.cons hq .nil)
        refine .bit (List.append_cons ..) (List.append_cons ..) hover' hr hrs ?_
        rw [allDone_concat, duration_append, duration_cons, show duration ([] : List (Pulse ℝ)) = 0 by rfl,
          show x + d - start.total - (duration qs + (q.total + 0))
            = x - start.total - duration qs + d - q.total by ring]
        exact hfall

/-- All polls of the waveform, short of its end. -/
theorem place_run {t₀ : ℝ} (ds : List ℕ) {now : ℕ} (h : Place gap s t start bits ps (now - t₀))
    (hp : Prompt s.build gap) (hstart : StartFrame s.build gap start)
    (hbits : List.Forall₂ (BitFrame s.build gap) bits ps) (hds : ∀ d ∈ ds, d < gap)
    (hbefore : now + (ds.sum : ℕ) < t₀ + duration (start :: ps)) :
    Place gap s (polled (fun n => Lib.line t₀ (start :: ps) n) now t ds) start bits ps (now + (ds.sum : ℕ) - t₀) := by
  induction ds generalizing t now with
  | nil =>
    rw [List.sum_nil, Nat.cast_zero, add_zero]
    exact h
  | cons d ds ih =>
    have hsum : (0 : ℝ) ≤ (ds.sum : ℕ) := Nat.cast_nonneg _
    have hcast : ((now + d : ℕ) : ℝ) = now + d := Nat.cast_add _ _
    rw [List.sum_cons, Nat.cast_add] at hbefore ⊢
    rw [duration_cons] at hbefore
    have hshift : Lib.line t₀ (start :: ps) ((now + d : ℕ) : ℝ) = Lib.line 0 (start :: ps) (now - t₀ + d) := by
      rw [Lib.line, Lib.line, hcast, sub_zero, show (now : ℝ) + d - t₀ = now - t₀ + d by ring]
      congr 1
      rw [eq_iff_iff, ← sub_neg, show (now : ℝ) + d - t₀ = now - t₀ + d by ring]
    have hnext := h.next hp hstart hbits (hds d (List.mem_cons_self ..)) (by linarith)
    rw [polled, hshift]
    generalize step (.recv d (Lib.line 0 (start :: ps) (now - t₀ + d) && !t.hw.driven)) t = u at hnext
    have hnext' : Place gap s u start bits ps ((now + d : ℕ) - t₀) := by
      rw [hcast, add_sub_right_comm]
      exact hnext
    have := ih hnext' (fun d' hd' => hds d' (List.mem_cons_of_mem _ hd')) (by rw [hcast, duration_cons]; linarith)
    rw [hcast] at this
    rwa [← add_assoc]

end

/-- What comes of a waveform: the receive side is that of the engine fed a start and the bits in order,
    all of them or up to the ack bit on which it ends the message. -/
def Received (s t : Cec Soft) (bits : List Bool) : Prop :=
  ∃ m ≤ bits.length, ∃ ended : Bool, TookIn (cecReceiveStart s) t 0 bits m ended ∧
    t.rx = (feed (cecReceiveStart s) (bits.take m)).rx

section
variable {s : Cec Soft} {gap : ℕ} {start : Pulse ℝ} {bits : List Bool} {ps : List (Pulse ℝ)} {t₀ : ℝ} {ds : List ℕ}

theorem polled_place (hrest : AtRest s) (hp : Prompt s.build gap) (hstart : StartFrame s.build gap start)
    (hbits : List.Forall₂ (BitFrame s.build gap) bits ps) (hds : ∀ d ∈ ds, d < gap) (ht₀ : 0 < t₀)
    (hbefore : (ds.sum : ℕ) < t₀ + duration (start :: ps)) :
    Place gap s (polled (fun n => Lib.line t₀ (start :: ps) n) 0 s ds) start bits ps ((ds.sum : ℕ) - t₀) := by
  have hfirst : Place gap s s start bits ps ((0 : ℕ) - t₀) := .rest (by simpa using ht₀) hrest (Same.refl s)
  have hplace := place_run ds hfirst hp hstart hbits hds (by simpa using hbefore)
  rwa [Nat.cast_zero, zero_add] at hplace

/-- Less than a gap ahead of the end of the waveform nothing of it is left to do. -/
theorem Place.closing {t : Cec Soft} {x : ℝ} (h : Place gap s t start bits ps x) (hp : Prompt s.build gap)
    (hstart : StartFrame s.build gap start) (hbits : List.Forall₂ (BitFrame s.build gap) bits ps)
    (hreach : duration (start :: ps) ≤ x + gap) : Same (allDone (cecReceiveStart s) bits) t ∧
      (frame t).last = true ∧ (frame t).sample = false ∧ (frame t).driven = false := by
  have hgap : (0 : ℝ) < gap := by exact_mod_cast hp.pos
  have hhigh := hstart.high
  rw [duration_cons] at hreach
  cases h with
  | rest before =>
    have hearly := hstart.early
    have hnonneg := duration_nonneg (frames_fit hbits)
    have hlow0 : (0 : ℝ) ≤ usToJiffies s.build cecStartLowEarly := Nat.cast_nonneg _
    push_cast at hearly
    linarith
  | start within =>
    have hinside := within.inside
    cases hbits with
    | nil =>
      rw [show duration ([] : List (Pulse ℝ)) = 0 by rfl] at hreach
      have hlast : (frame t).last = true := within.last.trans (decide_eq_true (by linarith))
      have hsame := within.same
      rw [hlast] at hsame
      rw [allDone_nil]
      exact ⟨hsame, hlast, within.sample, within.driven⟩
    | @cons bit q bits ps hq hqs =>
      have hnonneg := duration_nonneg (frames_fit hqs)
      have hseen := hq.seen
      have hqhigh := hq.high
      rw [duration_cons] at hreach
      linarith
  | @bit pre post bit qs rs q hb hps hover hq hahead within =>
    have hinside := within.inside
    have hb' : (allDone (cecReceiveStart s) pre).build = s.build := allDone_build _ _
    rw [hps, duration_append, duration_cons] at hreach
    cases hahead with
    | nil =>
      rw [show duration ([] : List (Pulse ℝ)) = 0 by rfl] at hreach
      obtain ⟨-, hlast, hsample, hdriven, hdone⟩ := within.closing (by rwa [hb']) (by rwa [hb']) (by linarith)
      rw [hb, allDone_concat, ← hdone]
      exact ⟨within.same, hlast, hsample, hdriven⟩
    | @cons bit' r post rs hr hrs =>
      have hnonneg := duration_nonneg (frames_fit hrs)
      have hseen := hr.seen
      have hrhigh := hr.high
      rw [duration_cons] at hreach
      linarith

/-- At the end of the waveform, as near as the polls come to it, all of it has been received. -/
theorem Place.received {t : Cec Soft} {x : ℝ} (h : Place gap s t start bits ps x) (hp : Prompt s.build gap)
    (hstart : StartFrame s.build gap start) (hbits : List.Forall₂ (BitFrame s.build gap) bits ps)
    (hreach : duration (start :: ps) ≤ x + gap) : Received s t (heardBits (cecReceiveStart s) bits) := by
  obtain ⟨hrun, -⟩ := h.closing hp hstart hbits hreach
  have hopen : (cecReceiveStart s).rx.flags ≠ 0 := (tracks_start s).flags_ne
  rw [allDone, if_neg hopen] at hrun
  obtain ⟨ended, htook⟩ := takeIn_calls (s := cecReceiveStart s) rfl (tracks_start s) (heardBits (cecReceiveStart s) bits)
  refine ⟨_, taken_le (cecReceiveStart s) _, ended, ⟨?_, fun he => ?_, fun he => ?_⟩, hrun.rx⟩
  · rw [hrun.calls]
    exact htook.calls
  · rw [hrun.rx]
    exact htook.going he
  · rw [hrun.rx]
    exact htook.ended he

/-- However the polls fall, a waveform within the windows that they leave is received bit by bit, with
    the ack slots that we fill read low. -/
theorem polled_received (hrest : AtRest s) (hp : Prompt s.build gap) (hstart : StartFrame s.build gap start)
    (hbits : List.Forall₂ (BitFrame s.build gap) bits ps) (hds : ∀ d ∈ ds, d < gap) (ht₀ : 0 < t₀)
    (hbefore : (ds.sum : ℕ) < t₀ + duration (start :: ps))
    (hreach : t₀ + duration (start :: ps) ≤ (ds.sum : ℕ) + gap) :
    Received s (polled (fun n => Lib.line t₀ (start :: ps) n) 0 s ds) (heardBits (cecReceiveStart s) bits) :=
  (polled_place hrest hp hstart hbits hds ht₀ hbefore).received hp hstart hbits (by linarith)

end

/-! ### Our own acks -/

section
variable {s : Cec Soft} {gap : ℕ} {start : Pulse ℝ} {bits : List Bool} {ps : List (Pulse ℝ)} {t₀ : ℝ} {ds : List ℕ}

/-- An engine that is still in the reception has heard as many bits as were sent. -/
theorem allDone_tracks (s : Cec Soft) (bits : List Bool) (h : (allDone (cecReceiveStart s) bits).rx.flags ≠ 0) :
    ∃ heard : List Bool, heard.length = bits.length ∧
      Tracks s.build.hdr s.rx.buf heard (allDone (cecReceiveStart s) bits).rx := by
  induction bits using List.reverseRecOn with
  | nil =>
    rw [allDone_nil]
    exact ⟨[], rfl, tracks_start s⟩
  | append_singleton bits bit ih =>
    have hbuild : (allDone (cecReceiveStart s) bits).build = s.build := allDone_build _ _
    rw [allDone_concat] at h ⊢
    rw [bitDone] at h ⊢
    split at h
    · next h0 => exact absurd h0 h
    · next h0 =>
      obtain ⟨heard, hlen, htracks⟩ := ih h0
      rw [if_neg h0]
      rw [← hbuild] at htracks ⊢
      rcases receiveBit_calls htracks (heardBit (allDone (cecReceiveStart s) bits) bit) with ⟨ht, -⟩ | ⟨-, hend, -⟩
      · exact ⟨_, by simp [hlen], ht⟩
      · exact absurd hend h

/-- The bit that is acked is the tenth of its block. -/
theorem acks_phase (h : Acks (allDone (cecReceiveStart s) bits) = true) : bits.length % 10 = 9 := by
  rw [Acks, Bool.and_eq_true, Bool.not_eq_true'] at h
  have hne : (allDone (cecReceiveStart s) bits).rx.flags ≠ 0 := by
    intro h0
    rw [h0] at h
    exact absurd h.1 (by decide)
  obtain ⟨heard, hlen, htracks⟩ := allDone_tracks s bits hne
  have heom := htracks.bitsEom
  rw [h.2] at heom
  have h9 := of_decide_eq_false heom.symm
  rw [not_not, phase, hlen] at h9
  exact h9

/-- When the bit after the first `k` begins. -/
noncomputable def slotAt (t₀ : ℝ) (start : Pulse ℝ) (ps : List (Pulse ℝ)) (k : ℕ) : ℝ :=
  t₀ + start.total + duration (ps.take k)

/-- A slot is over when a later one begins. -/
theorem slot_over {qs rs : List (Pulse ℝ)} {q : Pulse ℝ} {k : ℕ} (hk : qs.length < k) (hrs : ∀ r ∈ rs, r.Fits) :
    duration qs + q.total ≤ duration ((qs ++ q :: rs).take k) := by
  obtain ⟨n, rfl⟩ := Nat.exists_eq_add_of_lt hk
  have htake : (qs ++ q :: rs).take (qs.length + n + 1) = qs ++ q :: rs.take n := by
    rw [Nat.add_assoc, List.take_length_add_append, List.take_succ_cons]
  have hnonneg : 0 ≤ duration (rs.take n) := duration_nonneg fun r hr => hrs r (List.mem_of_mem_take hr)
  rw [htake, duration_append, duration_cons]
  linarith

/-- We hold the line low in the ack slots of the blocks that we take, from a gap after the falling edge
    to the end of the ack, and at no other time. -/
theorem polled_acks (hrest : AtRest s) (hp : Prompt s.build gap) (hstart : StartFrame s.build gap start)
    (hbits : List.Forall₂ (BitFrame s.build gap) bits ps) (hds : ∀ d ∈ ds, d < gap) (ht₀ : 0 < t₀)
    (hbefore : (ds.sum : ℕ) < t₀ + duration (start :: ps)) :
    let now : ℝ := (ds.sum : ℕ)
    let driven := (polled (fun n => Lib.line t₀ (start :: ps) n) 0 s ds).hw.driven
    (driven = true → ∃ k < bits.length, Acks (allDone (cecReceiveStart s) (bits.take k)) = true ∧ k % 10 = 9 ∧
        slotAt t₀ start ps k ≤ now ∧ now < slotAt t₀ start ps k + ackDeadline s.build + gap) ∧
      ∀ k < bits.length, Acks (allDone (cecReceiveStart s) (bits.take k)) = true →
        slotAt t₀ start ps k + gap ≤ now → now ≤ slotAt t₀ start ps k + ackDeadline s.build → driven = true := by
  intro now driven
  have hplace : Place gap s (polled (fun n => Lib.line t₀ (start :: ps) n) 0 s ds) start bits ps (now - t₀) :=
    polled_place hrest hp hstart hbits hds ht₀ hbefore
  change (driven = true → _) ∧ _
  have hgap : (0 : ℝ) < gap := by exact_mod_cast hp.pos
  have hslot : ∀ k, t₀ + start.total ≤ slotAt t₀ start ps k := by
    intro k
    have : 0 ≤ duration (ps.take k) := duration_nonneg fun p hp => frames_fit hbits p (List.mem_of_mem_take hp)
    rw [slotAt]
    linarith
  have hpulse : 0 < start.total := by
    have hearly := hstart.early
    have hhigh := hstart.high
    have hlow0 : (0 : ℝ) ≤ usToJiffies s.build cecStartLowEarly := Nat.cast_nonneg _
    push_cast at hearly
    linarith
  have hdriven : driven = (frame (polled (fun n => Lib.line t₀ (start :: ps) n) 0 s ds)).driven := rfl
  generalize polled (fun n => Lib.line t₀ (start :: ps) n) 0 s ds = t at hplace hdriven
  cases hplace with
  | rest before rest =>
    rw [hdriven, rest.driven]
    refine ⟨fun hc => Bool.noConfusion hc, fun k _ _ hk => ?_⟩
    have := hslot k
    linarith
  | start within =>
    have hinside := within.inside
    rw [hdriven, within.driven]
    refine ⟨fun hc => Bool.noConfusion hc, fun k _ _ hk => ?_⟩
    have := hslot k
    linarith
  | @bit pre post bit qs rs q hb hps hover hq hahead within =>
    have hbuild : (allDone (cecReceiveStart s) pre).build = s.build := allDone_build _ _
    have hlen := hover.length_eq
    have htake : bits.take pre.length = pre := by rw [hb, List.take_left]
    have hslotq : slotAt t₀ start ps pre.length = t₀ + start.total + duration qs := by
      rw [slotAt, hps, hlen, List.take_left]
    have hd := within.driven
    have hbehind := within.behind
    have hahead' := within.ahead
    have hinside := within.inside
    rw [hbuild] at hd
    rw [hdriven]
    constructor
    · intro hdrives
      obtain ⟨hacks, hle⟩ := hd.mp hdrives
      have hle' : ((frame t).timer : ℝ) ≤ ackDeadline s.build := by exact_mod_cast hle
      refine ⟨pre.length, ?_, by rwa [htake], acks_phase hacks, ?_, ?_⟩
      · rw [hb, List.length_append, List.length_cons]
        omega
      · rw [hslotq]
        have hpos : (0 : ℝ) ≤ (frame t).timer := Nat.cast_nonneg _
        linarith
      · rw [hslotq]
        linarith
    · intro k hk hacks hfrom hto
      rcases Nat.lt_trichotomy k pre.length with hlt | heq | hgt
      · -- slot `k` is over
        obtain ⟨r, us, vs, hqs, hus, hr⟩ : ∃ r us vs, qs = us ++ r :: vs ∧ us.length = k ∧
            BitFrame s.build gap (pre.getD k false) r := by
          have hkq : k < qs.length := by omega
          refine ⟨qs[k], qs.take k, qs.drop (k + 1), ?_, by rw [List.length_take]; omega, ?_⟩
          · rw [← List.drop_eq_getElem_cons, List.take_append_drop]
          · have := hover.get hlt hkq
            rw [List.getD_eq_getElem _ _ hlt]
            exact this
        have hfits : ∀ v ∈ vs, v.Fits := fun v hv => frames_fit hover v (by rw [hqs]; simp [hv])
        have hnonneg := duration_nonneg hfits
        have hslotk : slotAt t₀ start ps k = t₀ + start.total + duration us := by
          rw [slotAt, hps, hqs, ← hus, List.append_assoc, List.take_left]
        have hack := hr.ack
        push_cast at hack
        rw [hqs, duration_append, duration_cons] at hbehind
        have hpos : (0 : ℝ) ≤ (frame t).timer := Nat.cast_nonneg _
        rw [hslotk] at hto
        linarith
      · subst heq
        rw [htake] at hacks
        refine hd.mpr ⟨hacks, ?_⟩
        rw [hslotq] at hto
        have hc : ((frame t).timer : ℝ) ≤ ackDeadline s.build := by linarith
        exact_mod_cast hc
      · -- slot `k` is yet to come
        have hfits := frames_fit hahead
        have := slot_over (q := q) (by omega : qs.length < k) hfits
        rw [slotAt, hps] at hfrom
        linarith

end

/-! ### Jiffies of a microsecond -/

/-- A jiffy is a microsecond. -/
structure Micro (b : Build) : Prop where
  prescaler : 0 < b.tcnt0Prescaler
  clock : b.fCpu = b.tcnt0Prescaler * 1000000

theorem Micro.jiffies {b : Build} (h : Micro b) (n : ℕ) : usToJiffies b n = n := by
  have hpos : 0 < b.tcnt0Prescaler * 1000000 := Nat.mul_pos h.prescaler (by decide)
  rw [usToJiffies, h.clock, Nat.mul_div_cancel _ hpos]

theorem Micro.up {b : Build} (h : Micro b) {n : ℕ} (hn : 0 < n) : usToJiffiesUp b n = n := by
  have hpos : 0 < b.tcnt0Prescaler * 1000000 := Nat.mul_pos h.prescaler (by decide)
  obtain ⟨m, rfl⟩ := Nat.exists_eq_add_of_lt hn
  have hmul : 0 < (0 + m + 1) * (b.tcnt0Prescaler * 1000000) := Nat.mul_pos hn hpos
  have hdiv : ((0 + m + 1) * (b.tcnt0Prescaler * 1000000) - 1) / (b.tcnt0Prescaler * 1000000) = m := by
    refine Nat.div_eq_of_lt_le ?_ ?_
    · rw [Nat.zero_add, Nat.add_mul, Nat.one_mul]
      omega
    · rw [Nat.zero_add]
      have := Nat.mul_pos (Nat.succ_pos m) hpos
      rw [Nat.succ_eq_add_one] at this
      omega
  rw [usToJiffiesUp, h.clock, divRoundUp_of_pos hmul, asmDivRoundUp, hdiv]
  omega

theorem Micro.rnd {b : Build} (h : Micro b) (n : ℕ) : usToJiffiesRnd b n = n := by
  have hpos : 0 < b.tcnt0Prescaler * 1000000 := Nat.mul_pos h.prescaler (by decide)
  rw [usToJiffiesRnd, divRound, h.clock, Nat.mul_comm n, Nat.mul_add_div hpos,
    Nat.div_eq_of_lt (Nat.div_lt_self hpos (by decide)), Nat.add_zero]

theorem Micro.thresholds {b : Build} (h : Micro b) :
    startPeriod b = 4100 ∧ bitPeriod b = 2000 ∧ (∀ n < 60000, holdTime b n = n + 800) ∧ ackDeadline b = 1300 := by
  refine ⟨?_, ?_, fun n hn => ?_, ?_⟩
  · rw [startPeriod, h.rnd]
    rfl
  · rw [bitPeriod, h.rnd]
    rfl
  · rw [holdTime, h.up (by decide)]
    omega
  · rw [ackDeadline, h.jiffies]
    rfl

theorem prompt_micro {b : Build} (h : Micro b) {gap : ℕ} (h0 : 0 < gap) (hgap : gap ≤ 400) : Prompt b gap := by
  obtain ⟨hstart, hbit, hhold, hack⟩ := h.thresholds
  refine ⟨h0, ?_, ?_, ?_, ?_⟩
  · rw [h.jiffies, h.up (by decide), cecT3, cecT4]
    omega
  · rw [h.jiffies, hack, cecT3]
    omega
  · rw [hbit, hhold 2000 (by decide), h.jiffies]
    decide
  · rw [hbit, hstart, hhold 2000 (by decide), hhold 4100 (by decide)]
    omega

/-- Polled every 50 us, every bit of the specification is in its windows. -/
theorem bitFrame_of_pulse {b : Build} (h : Micro b) {bit : Bool} {p : Pulse ℝ} (hp : BitPulse bit p) :
    BitFrame b 50 bit p := by
  obtain ⟨-, hbit, hhold, hack⟩ := h.thresholds
  obtain ⟨hlow, htotal, htotal'⟩ := hp.bounds
  have hbounds := hp.low_bounds
  have h3 : usToJiffies b cecT3 = 850 := h.jiffies _
  have h28 : holdTime b 2000 = 2800 := hhold 2000 (by decide)
  constructor
  · norm_num
    linarith
  · rw [h3]
    cases bit with
    | true =>
      rw [if_pos rfl] at hlow ⊢
      norm_num
      linarith
    | false =>
      rw [if_neg (by decide)] at hlow ⊢
      norm_num
      linarith
  · norm_num
    linarith
  · rw [hack]
    norm_num
    linarith
  · rw [hbit]
    norm_num
    linarith
  · rw [hbit, h28]
    norm_num
    linarith

/-- So is every start bit 50 us inside of the bounds of its low time. -/
theorem startFrame_of_pulse {b : Build} (h : Micro b) {p : Pulse ℝ} (hp : StartPulse p) (hlow : 3550 ≤ p.low)
    (hlow' : p.low ≤ 3850) : StartFrame b 50 p := by
  obtain ⟨hstart, -, hhold, -⟩ := h.thresholds
  obtain ⟨-, -, htotal, htotal'⟩ := hp.bounds
  have h35 : usToJiffies b cecStartLowEarly = 3500 := h.jiffies _
  have h39 : usToJiffiesUp b cecStartLowLate = 3900 := h.up (by decide)
  have h49 : holdTime b 4100 = 4900 := hhold 4100 (by decide)
  constructor
  · rw [h35]
    norm_num
    linarith
  · rw [h39]
    norm_num
    linarith
  · norm_num
    linarith
  · rw [hstart]
    norm_num
    linarith
  · rw [hstart, h49]
    norm_num
    linarith

/-- Polled every 200 us, the nominal waveform is. -/
theorem startFrame_nominal {b : Build} (h : Micro b) : StartFrame b 200 ⟨cecStartLow, cecStartHigh⟩ := by
  obtain ⟨hstart, -, hhold, -⟩ := h.thresholds
  have h35 : usToJiffies b cecStartLowEarly = 3500 := h.jiffies _
  have h39 : usToJiffiesUp b cecStartLowLate = 3900 := h.up (by decide)
  have h49 : holdTime b 4100 = 4900 := hhold 4100 (by decide)
  constructor
  · norm_num [h35, cecStartLow]
  · norm_num [h39, cecStartLow]
  · norm_num [cecStartLow, cecStartHigh]
  · norm_num [hstart, cecStartHigh]
  · norm_num [hstart, h49, cecStartHigh]

theorem bitFrame_nominal {b : Build} (h : Micro b) (bit : Bool) : BitFrame b 200 bit (nominal bit) := by
  obtain ⟨-, hbit, hhold, hack⟩ := h.thresholds
  have h3 : usToJiffies b cecT3 = 850 := h.jiffies _
  have h28 : holdTime b 2000 = 2800 := hhold 2000 (by decide)
  constructor
  · cases bit <;> norm_num [nominal, cec1, cec0]
  · cases bit <;> norm_num [nominal, h3, cec1, cec0]
  · cases bit <;> norm_num [nominal, cec1, cec0, cecPeriod]
  · norm_num [nominal, hack, cecPeriod]
  · norm_num [nominal, hbit, cecPeriod]
  · norm_num [nominal, hbit, h28, cecPeriod]

theorem bitFrames_nominal {b : Build} (h : Micro b) (bits : List Bool) :
    List.Forall₂ (BitFrame b 200) bits (bits.map nominal) := by
  induction bits with
  | nil => exact .nil
  | cons bit bits ih => exact .cons (bitFrame_nominal h bit) ih

/-- Polled every 50 us, a waveform in tolerance is received, but for start bits at the edge of theirs. -/
theorem tolerance_received {s : Cec Soft} {start : Pulse ℝ} {bits : List Bool} {ps : List (Pulse ℝ)} {t₀ : ℝ}
    {ds : List ℕ} (hrest : AtRest s) (hmicro : Micro s.build) (hstart : StartPulse start)
    (hlow : 3550 ≤ start.low ∧ start.low ≤ 3850) (hbits : List.Forall₂ BitPulse bits ps) (hds : ∀ d ∈ ds, d < 50)
    (ht₀ : 0 < t₀) (hbefore : (ds.sum : ℕ) < t₀ + duration (start :: ps))
    (hreach : t₀ + duration (start :: ps) ≤ (ds.sum : ℕ) + 50) :
    Received s (polled (fun n => Lib.line t₀ (start :: ps) n) 0 s ds) (heardBits (cecReceiveStart s) bits) := by
  have hp : Prompt s.build 50 := prompt_micro hmicro (by decide) (by decide)
  have hframe : StartFrame s.build 50 start := startFrame_of_pulse hmicro hstart hlow.1 hlow.2
  have hframes : List.Forall₂ (BitFrame s.build 50) bits ps := hbits.imp fun _ _ hb => bitFrame_of_pulse hmicro hb
  exact (polled_place hrest hp hframe hframes hds ht₀ hbefore).received hp hframe hframes
    (by rw [Nat.cast_ofNat]; linarith)

/-- A ping of address 4 at nominal times, polled every 199 us by a device at that address. -/
theorem polled_received_ping :
    let bits := [false, true, false, false, false, true, false, false, true, true]
    let s : Cec Soft := step (.recv 1 true) (initial {} (.fixed 4))
    let wave : List (Pulse ℝ) := ⟨cecStartLow, cecStartHigh⟩ :: bits.map nominal
    Received s (polled (fun n => Lib.line 1000 wave n) 0 s (List.replicate 148 199))
      (heardBits (cecReceiveStart s) bits) := by
  intro bits s wave
  have hmicro : Micro s.build := ⟨by decide, by decide⟩
  have hrest : AtRest s := ⟨by decide +kernel, by decide +kernel, by decide +kernel, by decide +kernel⟩
  have hduration : duration wave = 28500 := by
    norm_num [duration, wave, bits, nominal, cecPeriod, cecStartHigh]
  have hsum : (List.replicate 148 199).sum = 29452 := by rw [List.sum_replicate, smul_eq_mul]
  refine polled_received hrest (prompt_micro hmicro (by decide) (by decide)) (startFrame_nominal hmicro)
    (bitFrames_nominal hmicro bits) (fun d hd => ?_) (by norm_num) ?_ ?_
  · rw [List.eq_of_mem_replicate hd]
    decide
  · rw [hsum, hduration]
    norm_num
  · rw [hsum, hduration]
    norm_num

/-- The ack of that ping, 754 us after its falling edge. -/
theorem polled_acks_ping :
    let bits := [false, true, false, false, false, true, false, false, true, true]
    let s : Cec Soft := step (.recv 1 true) (initial {} (.fixed 4))
    let wave : List (Pulse ℝ) := ⟨cecStartLow, cecStartHigh⟩ :: bits.map nominal
    (polled (fun n => Lib.line 1000 wave n) 0 s (List.replicate 140 199)).hw.driven = true := by
  intro bits s wave
  have hmicro : Micro s.build := ⟨by decide, by decide⟩
  have hrest : AtRest s := ⟨by decide +kernel, by decide +kernel, by decide +kernel, by decide +kernel⟩
  have hduration : duration wave = 28500 := by
    norm_num [duration, wave, bits, nominal, cecPeriod, cecStartHigh]
  have hslot : slotAt 1000 ⟨cecStartLow, cecStartHigh⟩ (bits.map nominal) 9 = 27100 := by
    norm_num [slotAt, duration, bits, nominal, cecPeriod, cecStartHigh]
  have hdeadline : ackDeadline s.build = 1300 := hmicro.thresholds.2.2.2
  have hsum : (List.replicate 140 199).sum = 27860 := by rw [List.sum_replicate, smul_eq_mul]
  have hacks : Acks (allDone (cecReceiveStart s) (bits.take 9)) = true := by decide +kernel
  have hds : ∀ d ∈ List.replicate 140 199, d < 200 := by
    intro d hd
    rw [List.eq_of_mem_replicate hd]
    decide
  generalize List.replicate 140 199 = ds at hsum hds
  have hbefore : (ds.sum : ℕ) < (1000 : ℝ) + duration wave := by
    rw [hsum, hduration]
    norm_num
  obtain ⟨-, hdriven⟩ := polled_acks hrest (prompt_micro hmicro (by decide) (by decide)) (startFrame_nominal hmicro)
    (bitFrames_nominal hmicro bits) hds (by norm_num) hbefore
  refine hdriven 9 (by decide) hacks ?_ ?_
  · rw [hsum, hslot]
    norm_num
  · rw [hsum, hslot, hdeadline]
    norm_num

end Soft
end AvrCec
