import AvrCec.NackFrame
import AvrCec.Capped

/-! How long the soft receive driver holds the line low.

    A drive is begun by the ack branch of a falling edge or by `cec_receive_nack_frame`, and the first
    poll whose timer is past the deadline ends it. While the line reads low the drive is in one of
    three phases (`Phase`): an ack whose sample may still be pending, which a late sample turns into a
    nack of the frame; a nack begun while the line was high, of which the next poll sees the falling
    edge; and a nack with nothing left to renew it. So the deadline moves once at most, and so does the
    timer (`drive_released`). -/

namespace AvrCec
open Lib

namespace Soft

def ackDeadline (b : Build) : Nat := usToJiffies b cecT5Early0 % 65536
def nackDeadline (b : Build) : Nat := usToJiffies b (10 * cecPeriod) % 65536

/-! ### Drives -/

/-- The state in which a poll compares its timer with the deadline. -/
def sampled (s : Cec Soft) (delta : Nat) (level : Bool) : Cec Soft := softSample (softCount s delta) level

/-- The line reads low while we drive it. -/
def ReadsLow (s : Cec Soft) : Step → Prop
  | .recv _ level => s.hw.driven = true → level = false
  | _ => True

/-- The poll finds the timer past the deadline, and lets the line go. -/
def Releases (s : Cec Soft) : Step → Prop
  | .recv delta level =>
    (sampled s delta level).hw.receiveFrameAckDone < (sampled s delta level).hw.receiveFrameTimer
  | _ => False

/-- The step begins a drive. -/
def Starts (s : Cec Soft) (i : Step) : Prop :=
  (s.hw.driven = false ∨ Releases s i) ∧ ReadsLow s i ∧ (step i s).hw.driven = true

/-- The step goes on with a drive. -/
def Holds (s : Cec Soft) (i : Step) : Prop := s.hw.driven = true ∧ ReadsLow s i ∧ ¬ Releases s i

/-- The step moves the deadline. -/
def Raises (s : Cec Soft) (i : Step) : Prop := (step i s).hw.receiveFrameAckDone ≠ s.hw.receiveFrameAckDone

/-- The step restarts the timer instead of counting on. -/
def Restarts (s : Cec Soft) : Step → Prop
  | .recv delta level =>
    (step (.recv delta level) s).hw.receiveFrameTimer ≠ cappedAdd s.hw.receiveFrameTimer delta
  | i => (step i s).hw.receiveFrameTimer ≠ s.hw.receiveFrameTimer

instance (s : Cec Soft) (i : Step) : Decidable (ReadsLow s i) :=
  match i with
  | .recv _ level => inferInstanceAs (Decidable (s.hw.driven = true → level = false))
  | .xmit .. | .addr | .overflow | .app _ => .isTrue trivial

instance (s : Cec Soft) (i : Step) : Decidable (Releases s i) :=
  match i with
  | .recv .. => Nat.decLt ..
  | .xmit .. | .addr | .overflow | .app _ => .isFalse id

instance (s : Cec Soft) (i : Step) : Decidable (Starts s i) := instDecidableAnd
instance (s : Cec Soft) (i : Step) : Decidable (Holds s i) := instDecidableAnd
instance (s : Cec Soft) (i : Step) : Decidable (Raises s i) := instDecidableNot

instance (s : Cec Soft) (i : Step) : Decidable (Restarts s i) :=
  match i with
  | .recv .. => instDecidableNot
  | .xmit .. | .addr | .overflow | .app _ => instDecidableNot

/-! ### What a drive depends on -/

/-- The part of the state that a drive depends on. -/
structure Watch where
  timer : Nat
  ackDone : Nat
  last : Bool
  sample : Bool
  driven : Bool
  flags : Flags
  byte : Nat

def watch (s : Cec Soft) : Watch where
  timer := s.hw.receiveFrameTimer
  ackDone := s.hw.receiveFrameAckDone
  last := s.hw.lastState
  sample := s.hw.sample
  driven := s.hw.driven
  flags := s.rx.flags
  byte := s.rx.byte

theorem Watch.keep {w : Watch} {b : Bool} (h : w.last = b) : { w with last := b } = w := by
  cases w
  cases h
  rfl

/-- The end of a reception, which in a broadcast begins a nack of the frame. -/
def Watch.errored (w : Watch) (deadline : Nat) : Watch :=
  if w.flags.bcast then { w with timer := 0, ackDone := deadline, driven := true, flags := 0 }
  else { w with flags := 0 }

theorem watch_onError (s : Cec Soft) (err : Err) : watch (cecTransmitOnError s err) = watch s := by
  have hrx := (sameReceive_onError s err).rx
  have hhw := onError_hw s err
  rw [watch, hrx, hhw]
  split <;> rfl

theorem watch_receiveError (s : Cec Soft) (err : Err) :
    watch (cecReceiveError s err) = (watch s).errored (nackDeadline s.build) := by
  by_cases h0 : s.rx.flags = 0
  · have hb : (watch s).flags.bcast = false := by
      change s.rx.flags.bcast = false
      rw [h0]
      rfl
    rw [receiveError_zero h0, Watch.errored, hb, if_neg (by decide), watch, h0]
  · rw [cecReceiveError, if_neg h0, watch_onError, Watch.errored]
    change _ = if s.rx.flags.bcast = true then _ else _
    by_cases hb : s.rx.flags.bcast = true
    · rw [if_pos hb, if_pos hb]
      rfl
    · rw [if_neg hb, if_neg hb]
      rfl

/-- The transmit side's part of a bit reaches the PWM only. -/
theorem receiveBit_hw (s : Cec Soft) (b : Bool) : ∃ p, (cecReceiveBit s b).hw = { s.hw with pwm := p } := by
  have herror : ∀ (t : Cec Soft) (err : Err), ∃ p, (cecTransmitOnError t err).hw = { t.hw with pwm := p } := by
    intro t err
    rw [onError_hw]
    split
    · exact ⟨t.hw.pwm.cecTransmitAbort, rfl⟩
    · exact ⟨t.hw.pwm, rfl⟩
  rw [(sameTransmit_receiveBit s b).hw, heardByTransmit]
  split
  · rw [cecCheckTxBit]
    split
    · exact herror (s.emit (.bit b)) .arbLost
    · exact ⟨s.hw.pwm, rfl⟩
  · rw [cecTransmitReceiveAck]
    split
    · split <;> exact ⟨s.hw.pwm, rfl⟩
    · exact herror (s.emit (.bit b)) .nack

theorem watch_receiveBit (s : Cec Soft) (b : Bool) :
    watch (cecReceiveBit s b) =
      { watch s with flags := (cecReceiveBit s b).rx.flags, byte := (cecReceiveBit s b).rx.byte } := by
  obtain ⟨p, hp⟩ := receiveBit_hw s b
  rw [watch, hp]
  rfl

/-- An ack bit ends the reception, or is positive and goes on with the next block. -/
theorem ack_bit (s : Cec Soft) (b : Bool) (h : s.rx.flags.bitsEom = false) :
    (cecReceiveBit s b).rx.flags = 0 ∧ (s.rx.flags.ack b = false ∨ s.rx.flags.eom = true) ∨
      s.rx.flags.ack b = true ∧ (cecReceiveBit s b).rx.flags = { s.rx.flags with bitsEom := true } ∧
        (cecReceiveBit s b).rx.byte = 1 := by
  rw [cecReceiveBit]
  dsimp only
  rw [if_neg (by rw [h]; decide), receiveAck]
  by_cases ha : s.rx.flags.ack b = true
  · simp only [ha, Bool.not_true, Bool.false_eq_true, if_false, Bool.false_or]
    split
    · next he => exact .inl ⟨congrArg Receive.flags (receiveDone_rx _ _ _), .inr he⟩
    · exact .inr ⟨trivial, rfl, rfl⟩
  · rw [Bool.not_eq_true] at ha
    simp only [ha, Bool.not_false, if_true, Bool.true_or]
    exact .inl ⟨congrArg Receive.flags (receiveDone_rx _ _ _), .inl trivial⟩

/-- A low ack bit ends a broadcast's reception. -/
theorem low_ack_directed (s : Cec Soft) (h : s.rx.flags.bitsEom = false) :
    (cecReceiveBit s false).rx.flags.bcast = false := by
  rcases ack_bit s false h with ⟨h0, -⟩ | ⟨ha, hf, -⟩
  · rw [h0]
    rfl
  · rw [hf]
    rw [Flags.ack] at ha
    split at ha
    · next hb => simpa using hb
    · exact Bool.noConfusion ha

/-- A bit that completes no byte leaves the kind of reception alone. -/
theorem bit_directed (s : Cec Soft) (b : Bool) (h : s.rx.flags.bcast = false)
    (hfree : s.rx.flags.bitsEom = false ∨ s.rx.byte &&& 0x80 = 0) :
    (cecReceiveBit s b).rx.flags.bcast = false := by
  by_cases heom : s.rx.flags.bitsEom = true
  · have hbyte := hfree.resolve_left (by rw [heom]; decide)
    have hrx : (cecCheckTxBit (s.emit (.bit b)) b).rx = s.rx := (sameReceive_checkTxBit _ _).rx
    rw [cecReceiveBit, if_pos heom, receiveDataEom]
    dsimp only
    rw [hrx, if_neg (not_not_intro hbyte)]
    split
    · exact h
    · split <;> exact h
  · rw [Bool.not_eq_true] at heom
    rcases ack_bit s b heom with ⟨h0, -⟩ | ⟨-, hf, -⟩
    · rw [h0]
      rfl
    · rw [hf]
      exact h

/-- An orphaned low bit is taken for a positive ack. -/
theorem orphan_bit (s : Cec Soft) (h : s.rx.flags = 0) :
    (cecReceiveBit s false).rx.flags = { bitsEom := true } ∧ (cecReceiveBit s false).rx.byte = 1 := by
  rcases ack_bit s false (by rw [h]; rfl) with ⟨-, hno⟩ | ⟨-, hf, hbyte⟩
  · rw [h] at hno
    exact absurd hno (by decide)
  · rw [hf, h]
    exact ⟨rfl, hbyte⟩

/-! ### The phases of a drive -/

/-- An ack, a nack of the frame begun on a high line, and a nack on a line that reads low. -/
inductive Phase where | ack | high | nack
  deriving DecidableEq

def Watch.InPhase (b : Build) (w : Watch) : Phase → Prop
  | .ack => w.last = false ∧ w.ackDone = ackDeadline b ∧
      (w.sample = true → w.flags.bitsEom = false) ∧ (w.sample = false → w.flags.bcast = false)
  | .high => w.last = true ∧ w.ackDone = nackDeadline b ∧ w.flags = 0 ∧ w.timer = 0
  | .nack => w.last = false ∧ w.ackDone = nackDeadline b ∧ w.flags.bcast = false ∧
      (w.sample = true → w.flags.bitsEom = false ∨ w.byte &&& 0x80 = 0)

/-- On a low line a drive stays in its phase, or an ack becomes a nack with the timer restarted. -/
def Onward (b : Build) (p : Phase) (w w' : Watch) : Prop :=
  w'.InPhase b p ∧ w'.timer = w.timer ∧ w'.ackDone = w.ackDone ∧ w'.driven = w.driven ∨
    p = .ack ∧ w'.InPhase b .nack ∧ w'.timer = 0 ∧ w'.driven = true

theorem Onward.trans {b : Build} {p : Phase} {w w' w'' : Watch} (h : Onward b p w w')
    (hnext : ∀ q, w'.InPhase b q → q = p ∨ q = .nack → Onward b q w' w'') : Onward b p w w'' := by
  rcases h with ⟨hp, ht, ha, hd⟩ | ⟨rfl, hp, ht, hd⟩
  · rcases hnext p hp (.inl rfl) with ⟨hp', ht', ha', hd'⟩ | ⟨heq, hp', ht', hd'⟩
    · exact .inl ⟨hp', ht'.trans ht, ha'.trans ha, hd'.trans hd⟩
    · exact .inr ⟨heq, hp', ht', hd'⟩
  · rcases hnext .nack hp (.inr rfl) with ⟨hp', ht', -, hd'⟩ | ⟨heq, -⟩
    · exact .inr ⟨rfl, hp', ht'.trans ht, hd'.trans hd⟩
    · exact Phase.noConfusion heq

/-- An error in a drive. -/
theorem errored_onward {b : Build} {p : Phase} {w : Watch} (h : w.InPhase b p) (hp : p ≠ .high) :
    Onward b p w (w.errored (nackDeadline b)) := by
  rw [Watch.errored]
  cases p with
  | ack =>
    obtain ⟨hl, ha, -, -⟩ := h
    split
    · exact .inr ⟨rfl, ⟨hl, rfl, rfl, fun _ => .inl rfl⟩, rfl, rfl⟩
    · exact .inl ⟨⟨hl, ha, fun _ => rfl, fun _ => rfl⟩, rfl, rfl, rfl⟩
  | high => exact absurd rfl hp
  | nack =>
    obtain ⟨hl, ha, hb, -⟩ := h
    rw [if_neg (by rw [hb]; decide)]
    exact .inl ⟨⟨hl, ha, rfl, fun _ => .inl rfl⟩, rfl, rfl, rfl⟩

theorem hold_onward {s : Cec Soft} {p : Phase} (h : (watch s).InPhase s.build p) (hp : p ≠ .high) :
    Onward s.build p (watch s) (watch (softHold s)) := by
  rw [softHold]
  split
  · rw [watch_receiveError]
    exact errored_onward h hp
  · exact .inl ⟨h, rfl, rfl, rfl⟩

/-- The pending sample, taken off. -/
def unsampled (s : Cec Soft) : Cec Soft := { s with hw := { s.hw with sample := false } }

theorem watch_unsampled (s : Cec Soft) : watch (unsampled s) = { watch s with sample := false } := rfl

@[simp] theorem unsampled_rx (s : Cec Soft) : (unsampled s).rx = s.rx := rfl
@[simp] theorem unsampled_build (s : Cec Soft) : (unsampled s).build = s.build := rfl

theorem softSample_eq (s : Cec Soft) (level : Bool) : softSample s level =
    if s.hw.sample = true ∧ usToJiffies s.build cecT3 < s.hw.receiveFrameTimer then
      if usToJiffiesUp s.build cecT4 < s.hw.receiveFrameTimer then cecReceiveError (unsampled s) .hw
      else cecReceiveBit (unsampled s) level
    else s := rfl

/-- A sample of the line that we drive. -/
theorem sample_onward {s : Cec Soft} {p : Phase} (h : (watch s).InPhase s.build p) (hp : p ≠ .high) :
    Onward s.build p (watch s) (watch (softSample s false)) := by
  rw [softSample_eq]
  split
  · next hdue =>
    have hsample : (watch s).sample = true := hdue.1
    split
    · -- too late
      rw [watch_receiveError, watch_unsampled, unsampled_build]
      cases p with
      | ack =>
        obtain ⟨hl, ha, -, -⟩ := h
        rw [Watch.errored]
        split
        · exact .inr ⟨rfl, ⟨hl, rfl, rfl, fun _ => .inl rfl⟩, rfl, rfl⟩
        · exact .inl ⟨⟨hl, ha, fun _ => rfl, fun _ => rfl⟩, rfl, rfl, rfl⟩
      | high => exact absurd rfl hp
      | nack =>
        obtain ⟨hl, ha, hn, -⟩ := h
        have hn' : Watch.InPhase s.build { watch s with sample := false } .nack :=
          ⟨hl, ha, hn, fun hs => Bool.noConfusion hs⟩
        rcases errored_onward hn' hp with ⟨hp', ht, ha', hd⟩ | ⟨heq, -⟩
        · exact .inl ⟨hp', ht, ha', hd⟩
        · exact Phase.noConfusion heq
    · rw [watch_receiveBit, watch_unsampled]
      refine .inl ⟨?_, rfl, rfl, rfl⟩
      cases p with
      | ack =>
        obtain ⟨hl, ha, heom, -⟩ := h
        refine ⟨hl, ha, fun hs => Bool.noConfusion hs, fun _ => ?_⟩
        exact low_ack_directed (unsampled s) (heom hsample)
      | high => exact absurd rfl hp
      | nack =>
        obtain ⟨hl, ha, hn, hfree⟩ := h
        refine ⟨hl, ha, ?_, fun hs => Bool.noConfusion hs⟩
        exact bit_directed (unsampled s) false hn (hfree hsample)
  · exact .inl ⟨h, rfl, rfl, rfl⟩

theorem watch_recv (s : Cec Soft) (delta : Nat) (level : Bool) :
    watch (cecReceivePeriodic s delta level)
      = { watch (softEdge (softFloat (sampled s delta level)) level) with last := level } := rfl

theorem watch_count (s : Cec Soft) (delta : Nat) :
    watch (softCount s delta) = { watch s with timer := cappedAdd (watch s).timer delta } := rfl

theorem watch_float (s : Cec Soft) : watch (softFloat s)
    = { watch s with driven := (watch s).driven && !decide ((watch s).ackDone < (watch s).timer) } := by
  rw [softFloat]
  split
  · next h =>
    have hd : decide ((watch s).ackDone < (watch s).timer) = true := decide_eq_true h
    rw [hd, Bool.not_true, Bool.and_false]
    rfl
  · next h =>
    have hd : decide ((watch s).ackDone < (watch s).timer) = false := decide_eq_false h
    rw [hd, Bool.not_false, Bool.and_true]

theorem sample_build (s : Cec Soft) (level : Bool) : (softSample s level).build = s.build := by
  rw [softSample_eq]
  split
  · split
    · exact (receiveError_rx _ _).2.1
    · exact (receiveBit_build _ _).1
  · rfl

theorem float_build (s : Cec Soft) : (softFloat s).build = s.build := by
  rw [softFloat]
  split <;> rfl

theorem sampled_build (s : Cec Soft) (delta : Nat) (level : Bool) : (sampled s delta level).build = s.build :=
  sample_build (softCount s delta) level

/-- What a falling edge does to a drive. -/
theorem watch_fall (s : Cec Soft) :
    watch (softFall s) = { (watch s).errored (nackDeadline s.build) with timer := 0 } ∨
    s.rx.flags ≠ 0 ∧ (s.rx.flags.doAck = true ∧ s.rx.flags.bitsEom = false ∧ watch (softFall s)
        = { watch s with timer := 0, driven := true, ackDone := ackDeadline s.build, sample := true } ∨
      (s.rx.flags.doAck = false ∨ s.rx.flags.bitsEom = true) ∧
        watch (softFall s) = { watch s with timer := 0, sample := true }) := by
  have hnext : ∀ (t : Cec Soft) (n : Nat),
      watch { t with hw := { t.hw with receiveFramePeriod := n, receiveFrameTimer := 0 } } = { watch t with timer := 0 } :=
    fun _ _ => rfl
  have hsample : ∀ t : Cec Soft, watch { t with hw := { t.hw with sample := true } } = { watch t with sample := true } :=
    fun _ => rfl
  have hack : ∀ (t : Cec Soft) (n : Nat), watch { t with hw := { t.hw with driven := true, receiveFrameAckDone := n } }
      = { watch t with driven := true, ackDone := n } := fun _ _ => rfl
  rw [softFall, hnext]
  by_cases h0 : s.rx.flags ≠ 0
  · rw [if_pos h0]
    by_cases hearly : s.hw.receiveFrameTimer < s.hw.receiveFramePeriod
    · rw [if_pos hearly, watch_receiveError]
      exact .inl rfl
    · rw [if_neg hearly, hsample]
      refine .inr ⟨h0, ?_⟩
      by_cases hc : (s.rx.flags.doAck && !s.rx.flags.bitsEom) = true
      · rw [if_pos hc, hack]
        simp only [Bool.and_eq_true, Bool.not_eq_true'] at hc
        exact .inl ⟨hc.1, hc.2, rfl⟩
      · rw [if_neg hc]
        simp only [Bool.and_eq_true, Bool.not_eq_true', not_and_or, Bool.not_eq_true, Bool.not_eq_false] at hc
        exact .inr ⟨hc, rfl⟩
  · rw [if_neg h0]
    have hz : (watch s).flags = 0 := not_not.mp h0
    refine .inl ?_
    rw [Watch.errored, hz, if_neg (by decide), ← hz]

/-- The falling edge of our own nack. -/
theorem fall_nacks {s : Cec Soft} (ha : (watch s).ackDone = nackDeadline s.build)
    (hf : s.rx.flags = 0 ∨ s.rx.flags = { bitsEom := true } ∧ s.rx.byte = 1) :
    Watch.InPhase s.build { watch (softFall s) with last := false } .nack ∧ (watch (softFall s)).timer = 0 ∧
      (watch (softFall s)).driven = (watch s).driven := by
  have hb : (watch s).flags.bcast = false := by
    change s.rx.flags.bcast = false
    rcases hf with h | ⟨h, -⟩
    · rw [h]
      rfl
    · rw [h]
  rcases watch_fall s with h | ⟨h0, ⟨hdo, -, -⟩ | ⟨-, h⟩⟩
  · rw [h, Watch.errored, if_neg (by rw [hb]; decide)]
    exact ⟨⟨rfl, ha, rfl, fun _ => .inl rfl⟩, rfl, rfl⟩
  · have hno : s.rx.flags.doAck = false := by
      rcases hf with h | ⟨h, -⟩
      · rw [h]
        rfl
      · rw [h]
    exact absurd hdo (by rw [hno]; decide)
  · rw [h]
    refine ⟨⟨rfl, ha, hb, fun _ => .inr ?_⟩, rfl, rfl⟩
    rcases hf with hz | ⟨-, hbyte⟩
    · exact absurd hz h0
    · change s.rx.byte &&& 0x80 = 0
      rw [hbyte]
      rfl

/-- The sample of a poll on a line that was high when the nack began. -/
theorem sampled_high {s : Cec Soft} (h : (watch s).InPhase s.build .high) (delta : Nat) :
    let u := sampled s delta false
    (watch u).last = true ∧ (watch u).ackDone = nackDeadline s.build ∧ (watch u).driven = (watch s).driven ∧
      (u.rx.flags = 0 ∨ u.rx.flags = { bitsEom := true } ∧ u.rx.byte = 1) := by
  obtain ⟨hl, ha, hf, -⟩ := h
  intro u
  have hu : u = softSample (softCount s delta) false := rfl
  have hoff : watch (unsampled (softCount s delta))
      = { watch s with timer := cappedAdd (watch s).timer delta, sample := false } := rfl
  have hrx : (unsampled (softCount s delta)).rx = s.rx := rfl
  rw [softSample_eq] at hu
  split at hu
  · generalize unsampled (softCount s delta) = t at hu hoff hrx
    split at hu
    · rw [receiveError_zero (by rw [hrx]; exact hf)] at hu
      rw [hu, hoff, hrx]
      exact ⟨hl, ha, rfl, .inl hf⟩
    · rw [hu, watch_receiveBit, hoff]
      exact ⟨hl, ha, rfl, .inr (orphan_bit t (by rw [hrx]; exact hf))⟩
  · rw [hu, watch_count]
    exact ⟨hl, ha, rfl, .inl hf⟩

/-! ### Steps that are no polls of the receive driver -/

theorem keptXmit_watch (w : Watch) : KeptXmit fun s => watch s = w where
  lost h := (watch_onError ..).trans h
  regs _ h _ _ := h
  end1 h _ := h
  end2 h := h
  fetch h _ := h
  begin h _ _ := h

theorem watch_quiet (s : Cec Soft) (i : Step) (hi : ∀ delta level, i ≠ .recv delta level) :
    watch (step i s) = watch s := by
  cases i with
  | recv delta level => exact absurd rfl (hi delta level)
  | xmit delta level => exact keptXmit_periodic (keptXmit_watch (watch s)) rfl delta level
  | addr =>
    change watch (cecAddrPeriodic s) = watch s
    rw [cecAddrPeriodic]
    dsimp only
    repeat' split
    all_goals rfl
  | overflow =>
    rw [step, timerOverflow]
    split <;> rfl
  | app a =>
    cases a with
    | clear => rfl
    | send message =>
      rw [step, App.step]
      split <;> rfl
    | assign m =>
      rw [step, App.step]
      split <;> rfl

theorem recv_or_quiet (s : Cec Soft) (i : Step) : (∃ delta level, i = .recv delta level) ∨
    watch (step i s) = watch s ∧ i.recvDelta = 0 ∧ ¬ Restarts s i ∧ ¬ Releases s i := by
  by_cases hi : ∃ delta level, i = .recv delta level
  · exact .inl hi
  · have hw := watch_quiet s i fun delta level he => hi ⟨delta, level, he⟩
    refine .inr ⟨hw, ?_⟩
    have ht : (step i s).hw.receiveFrameTimer = s.hw.receiveFrameTimer := congrArg Watch.timer hw
    cases i with
    | recv delta level => exact absurd ⟨delta, level, rfl⟩ hi
    | xmit delta level => exact ⟨rfl, not_not_intro ht, id⟩
    | addr => exact ⟨rfl, not_not_intro ht, id⟩
    | overflow => exact ⟨rfl, not_not_intro ht, id⟩
    | app a => exact ⟨rfl, not_not_intro ht, id⟩

theorem step_build (s : Cec Soft) (i : Step) : (step i s).build = s.build :=
  kept_step (kept_build s.build) rfl i fun _ _ _ _ t _ _ ht => (receiveBit_build t _).1.trans ht

/-! ### One step of a drive -/

theorem edge_low {s : Cec Soft} (h : (watch s).last = false) : softEdge s false = softHold s := by
  have hl : s.hw.lastState = false := h
  rw [softEdge, if_pos hl.symm]

/-- A poll that goes on with an ack or a nack. -/
theorem held_low {s : Cec Soft} {p : Phase} (h : (watch s).InPhase s.build p) (hp : p ≠ .high)
    (hd : s.hw.driven = true) {delta : Nat} (hr : ¬ Releases s (.recv delta false)) :
    let w := watch (step (.recv delta false) s)
    w.driven = true ∧ (w.InPhase s.build p ∧ w.ackDone = (watch s).ackDone ∧
        w.timer = cappedAdd (watch s).timer delta ∧ w.timer ≤ w.ackDone ∨
      p = .ack ∧ w.InPhase s.build .nack ∧ w.timer = 0) := by
  have hcount : (watch (softCount s delta)).InPhase s.build p := by
    rw [watch_count]
    cases p with
    | ack => exact h
    | high => exact absurd rfl hp
    | nack => exact h
  have hsample : Onward s.build p (watch (softCount s delta)) (watch (sampled s delta false)) :=
    sample_onward (s := softCount s delta) hcount hp
  have hub := sampled_build s delta false
  have hle : (watch (sampled s delta false)).timer ≤ (watch (sampled s delta false)).ackDone := Nat.le_of_not_lt hr
  have hfloat : watch (softFloat (sampled s delta false)) = watch (sampled s delta false) := by
    rw [watch_float, decide_eq_false (Nat.not_lt.mpr hle), Bool.not_false, Bool.and_true]
  have hvb := (float_build (sampled s delta false)).trans hub
  intro w
  have hw : w = { watch (softEdge (softFloat (sampled s delta false)) false) with last := false } :=
    watch_recv s delta false
  generalize softFloat (sampled s delta false) = v at hfloat hvb hw
  generalize watch (sampled s delta false) = u at hsample hle hfloat
  have hhold : ∀ q, u.InPhase s.build q → q ≠ .high →
      Onward s.build q u { watch (softEdge v false) with last := false } := by
    intro q hq hne
    have hlast : (watch v).last = false := by
      rw [hfloat]
      cases q with
      | ack => exact hq.1
      | high => exact absurd rfl hne
      | nack => exact hq.1
    have ho : Onward s.build q (watch v) (watch (softHold v)) := by
      have hph : (watch v).InPhase v.build q := by
        rw [hfloat, hvb]
        exact hq
      have := hold_onward hph hne
      rwa [hvb] at this
    have hkeep : ({ watch (softHold v) with last := false } : Watch) = watch (softHold v) := by
      have hl : (watch (softHold v)).last = false := by
        rw [softHold]
        split
        · rw [watch_receiveError, Watch.errored]
          split <;> exact hlast
        · exact hlast
      exact Watch.keep hl
    rw [edge_low hlast, hkeep, ← hfloat]
    exact ho
  rw [hw]
  have hd' : (watch (softCount s delta)).driven = true := hd
  rcases hsample with ⟨hph, ht, ha, hud⟩ | ⟨rfl, hph, ht, hud⟩
  · rcases hhold p hph hp with ⟨hph', ht', ha', hd''⟩ | ⟨heq, hph', ht', hd''⟩
    · refine ⟨hd''.trans (hud.trans hd'), .inl ⟨hph', ha'.trans ha, ht'.trans ht, ?_⟩⟩
      rw [ht', ha']
      exact hle
    · exact ⟨hd'', .inr ⟨heq, hph', ht'⟩⟩
  · rcases hhold .nack hph Phase.noConfusion with ⟨hph', ht', -, hd''⟩ | ⟨heq, -⟩
    · exact ⟨hd''.trans hud, .inr ⟨rfl, hph', ht'.trans ht⟩⟩
    · exact Phase.noConfusion heq

/-- The poll that sees the falling edge of our own nack. -/
theorem held_high {s : Cec Soft} (h : (watch s).InPhase s.build .high) (hd : s.hw.driven = true) (delta : Nat) :
    let w := watch (step (.recv delta false) s)
    w.InPhase s.build .nack ∧ w.timer = 0 ∧ (w.driven = true ↔ ¬ Releases s (.recv delta false)) := by
  obtain ⟨hl, ha, hud, hf⟩ := sampled_high h delta
  have hub := sampled_build s delta false
  have hrx : (softFloat (sampled s delta false)).rx = (sampled s delta false).rx := by
    rw [softFloat]
    split <;> rfl
  have hfloat := watch_float (sampled s delta false)
  have hvb := (float_build (sampled s delta false)).trans hub
  intro w
  have hw : w = { watch (softEdge (softFloat (sampled s delta false)) false) with last := false } :=
    watch_recv s delta false
  generalize softFloat (sampled s delta false) = v at hfloat hvb hw hrx
  have hlast : v.hw.lastState = true := (congrArg Watch.last hfloat).trans hl
  have hedge : softEdge v false = softFall v := by
    rw [softEdge, if_neg (by rw [hlast]; decide)]
    rfl
  have hadone : (watch v).ackDone = nackDeadline v.build := by
    rw [hfloat, hvb]
    exact ha
  obtain ⟨hph, ht, hdriven⟩ := fall_nacks hadone (by rw [hrx]; exact hf)
  rw [hvb] at hph
  rw [hw, hedge]
  refine ⟨hph, ht, ?_⟩
  change (watch (softFall v)).driven = true ↔ _
  rw [hdriven, hfloat]
  have hsd : (watch (sampled s delta false)).driven = true := hud.trans hd
  change ((watch (sampled s delta false)).driven && !decide (Releases s (.recv delta false))) = true ↔ _
  rw [hsd, Bool.true_and, Bool.not_eq_true', decide_eq_false_iff_not]

/-! ### A whole drive -/

/-- A drive under way, with its deadline ahead. -/
structure Driving (p : Phase) (s : Cec Soft) : Prop where
  driven : s.hw.driven = true
  phase : (watch s).InPhase s.build p
  ahead : s.hw.receiveFrameTimer ≤ s.hw.receiveFrameAckDone

def deadline (b : Build) : Phase → Nat
  | .ack => ackDeadline b
  | .high | .nack => nackDeadline b

theorem Driving.deadline {p : Phase} {s : Cec Soft} (h : Driving p s) :
    s.hw.receiveFrameAckDone = deadline s.build p := by
  cases p with
  | ack => exact h.phase.2.1
  | high => exact h.phase.2.1
  | nack => exact h.phase.2.1

/-- A step of a drive goes on with its phase, or with a nack on a low line. -/
theorem driving_step {p : Phase} {s : Cec Soft} (h : Driving p s) {i : Step} (hi : Holds s i) :
    Driving p (step i s) ∧ ¬ Restarts s i ∧ (p = .high → i.recvDelta = 0) ∨
      p ≠ .nack ∧ Driving .nack (step i s) ∧ (step i s).hw.receiveFrameTimer = 0 := by
  obtain ⟨-, hlow, hr⟩ := hi
  have hb := step_build s i
  rcases recv_or_quiet s i with ⟨delta, level, rfl⟩ | ⟨hw, hzero, hkeep, -⟩
  · obtain rfl : level = false := hlow h.driven
    by_cases hp : p = .high
    · subst hp
      obtain ⟨hph, ht, hd⟩ := held_high h.phase h.driven delta
      refine .inr ⟨Phase.noConfusion, ⟨hd.mpr hr, by rw [hb]; exact hph, ?_⟩, ht⟩
      exact (Nat.le_of_eq ht).trans (Nat.zero_le _)
    · obtain ⟨hd, ⟨hph, -, ht, hle⟩ | ⟨rfl, hph, ht⟩⟩ := held_low h.phase hp h.driven hr
      · exact .inl ⟨⟨hd, by rw [hb]; exact hph, hle⟩, not_not_intro ht, fun heq => absurd heq hp⟩
      · exact .inr ⟨Phase.noConfusion, ⟨hd, by rw [hb]; exact hph, (Nat.le_of_eq ht).trans (Nat.zero_le _)⟩, ht⟩
  · have hph : (watch (step i s)).InPhase (step i s).build p := by
      rw [hw, hb]
      exact h.phase
    have hle : (watch (step i s)).timer ≤ (watch (step i s)).ackDone := by
      rw [hw]
      exact h.ahead
    exact .inl ⟨⟨(congrArg Watch.driven hw).trans h.driven, hph, hle⟩, hkeep, fun _ => hzero⟩

/-! ### The end of a drive -/

theorem sample_pending {s : Cec Soft} {level : Bool} (h : (watch (softSample s level)).sample = true) :
    (watch (softSample s level)).timer ≤ usToJiffies s.build cecT3 := by
  rw [softSample_eq] at h ⊢
  split at h
  · exfalso
    split at h
    · rw [watch_receiveError, watch_unsampled, Watch.errored] at h
      split at h <;> exact Bool.noConfusion h
    · rw [watch_receiveBit, watch_unsampled] at h
      exact Bool.noConfusion h
  · next hno =>
    rw [if_neg hno]
    exact Nat.le_of_not_lt fun hlt => hno ⟨h, hlt⟩

/-- The sample point of an ack comes before its deadline. -/
theorem t3_le_deadline {b : Build} (hb : usToJiffies b cecT5Early0 < 65536) :
    usToJiffies b cecT3 ≤ ackDeadline b := by
  rw [ackDeadline, Nat.mod_eq_of_lt hb]
  exact Nat.div_le_div_right (Nat.mul_le_mul_right _ (by decide))

/-- The first poll past the deadline ends the drive. -/
theorem driving_released {p : Phase} {s : Cec Soft} (h : Driving p s)
    (hb : usToJiffies s.build cecT5Early0 < 65536) {i : Step} (hlow : ReadsLow s i) (hr : Releases s i) :
    (step i s).hw.driven = false := by
  rcases recv_or_quiet s i with ⟨delta, level, rfl⟩ | ⟨-, -, -, hno⟩
  · obtain rfl : level = false := hlow h.driven
    by_cases hp : p = .high
    · subst hp
      have hd := (held_high h.phase h.driven delta).2.2
      by_contra hne
      exact hd.mp (Bool.eq_true_of_not_eq_false hne) hr
    · have hcount : (watch (softCount s delta)).InPhase s.build p := by
        rw [watch_count]
        cases p with
        | ack => exact h.phase
        | high => exact absurd rfl hp
        | nack => exact h.phase
      rcases sample_onward (s := softCount s delta) hcount hp with ⟨hph, -, -, -⟩ | ⟨-, -, ht, -⟩
      · have hfloat : watch (softFloat (sampled s delta false)) = { watch (sampled s delta false) with driven := false } := by
          have hpast : (watch (sampled s delta false)).ackDone < (watch (sampled s delta false)).timer := hr
          rw [watch_float, decide_eq_true hpast, Bool.not_true, Bool.and_false]
        have hdirected : (watch (sampled s delta false)).flags.bcast = false := by
          cases p with
          | ack =>
            refine hph.2.2.2 ?_
            by_contra hs
            have hle := sample_pending (Bool.eq_true_of_not_eq_false hs)
            have hdl : (sampled s delta false).hw.receiveFrameAckDone = ackDeadline s.build := hph.2.1
            have hlt : ackDeadline s.build < (sampled s delta false).hw.receiveFrameTimer := hdl ▸ hr
            exact absurd (hlt.trans_le (hle.trans (t3_le_deadline hb))) (Nat.lt_irrefl _)
          | high => exact absurd rfl hp
          | nack => exact hph.2.2.1
        have hlast : (watch (softFloat (sampled s delta false))).last = false := by
          rw [hfloat]
          cases p with
          | ack => exact hph.1
          | high => exact absurd rfl hp
          | nack => exact hph.1
        change (watch (softEdge (softFloat (sampled s delta false)) false)).driven = false
        rw [edge_low hlast, softHold]
        split
        · rw [watch_receiveError, hfloat, Watch.errored]
          rw [if_neg (by rw [Bool.not_eq_true]; exact hdirected)]
        · rw [hfloat]
      · have hlt : (sampled s delta false).hw.receiveFrameAckDone < (sampled s delta false).hw.receiveFrameTimer := hr
        have hz : (sampled s delta false).hw.receiveFrameTimer = 0 := ht
        rw [hz] at hlt
        exact absurd hlt (Nat.not_lt_zero _)
  · exact absurd hr hno

/-! ### The start of a drive -/

theorem rise_driven (s : Cec Soft) : (softRise s).hw.driven = s.hw.driven := by
  have hstart : ∀ (t : Cec Soft) (n : Nat),
      (cecReceiveStart { t with hw := { t.hw with receiveFramePeriod := n } }).hw.driven = t.hw.driven := fun _ _ => rfl
  rw [softRise]
  split
  · exact hstart s _
  · rfl

/-- A timer that has just been restarted has no edge to time. -/
theorem edge_fresh {s : Cec Soft} {level : Bool} (ht : s.hw.receiveFrameTimer = 0)
    (h : level = true ∨ s.hw.lastState = false) : softEdge s level = s := by
  rw [softEdge]
  split
  · rw [softHold, ht, if_neg (Nat.not_lt_zero _)]
  · next hne =>
    split
    · rw [softRise, ht, if_neg (fun hgt => absurd hgt.1 (Nat.not_lt_zero _))]
    · next hlow =>
      have hl : s.hw.lastState = false := h.resolve_left hlow
      rw [hl, Bool.not_eq_false] at hne
      exact absurd hne hlow

/-- An error that begins a drive. -/
theorem errored_drives {w : Watch} {n : Nat} (hd : w.driven = false) (h : (w.errored n).driven = true) :
    w.errored n = { w with timer := 0, ackDone := n, driven := true, flags := 0 } := by
  rw [Watch.errored] at h ⊢
  split
  · rfl
  · next hb =>
    rw [if_neg hb] at h
    exact absurd (hd.symm.trans h) (by decide)

/-- A late sample that begins a drive. -/
theorem sample_drives {s : Cec Soft} {level : Bool} (hd : (watch s).driven = false)
    (h : (watch (softSample s level)).driven = true) :
    (watch (softSample s level)).timer = 0 ∧ (watch (softSample s level)).ackDone = nackDeadline s.build ∧
      (watch (softSample s level)).flags = 0 := by
  rw [softSample_eq] at h ⊢
  split at h
  · next hdue =>
    rw [if_pos hdue]
    split at h
    · next hlate =>
      rw [if_pos hlate]
      rw [watch_receiveError, unsampled_build] at h ⊢
      rw [errored_drives (by rw [watch_unsampled]; exact hd) h]
      exact ⟨rfl, rfl, rfl⟩
    · rw [watch_receiveBit, watch_unsampled] at h
      exact absurd (hd.symm.trans h) (by decide)
  · exact absurd (hd.symm.trans h) (by decide)

/-- An edge, or none, that begins a drive. -/
theorem edge_drives {s : Cec Soft} {level : Bool} (hd : s.hw.driven = false)
    (h : (softEdge s level).hw.driven = true) :
    (∃ p, Watch.InPhase s.build { watch (softEdge s level) with last := level } p) ∧
      (watch (softEdge s level)).timer = 0 := by
  rw [softEdge] at h ⊢
  split at h
  · next hl =>
    rw [if_pos hl]
    rw [softHold] at h ⊢
    split at h
    · next hlong =>
      rw [if_pos hlong, watch_receiveError]
      have hw : ((watch s).errored (nackDeadline s.build)).driven = true := by
        rw [← watch_receiveError]
        exact h
      rw [errored_drives hd hw]
      refine ⟨?_, rfl⟩
      cases level with
      | true => exact ⟨.high, rfl, rfl, rfl, rfl⟩
      | false => exact ⟨.nack, rfl, rfl, rfl, fun _ => .inl rfl⟩
    · exact absurd (hd.symm.trans h) (by decide)
  · next hl =>
    rw [if_neg hl]
    split at h
    · exact absurd (hd.symm.trans ((rise_driven s).symm.trans h)) (by decide)
    · next hlow =>
      rw [if_neg hlow]
      obtain rfl : level = false := Bool.eq_false_of_not_eq_true hlow
      rcases watch_fall s with hw | ⟨-, ⟨-, heom, hw⟩ | ⟨-, hw⟩⟩
      · have hdr : ((watch s).errored (nackDeadline s.build)).driven = true :=
          (congrArg Watch.driven hw).symm.trans h
        rw [hw, errored_drives hd hdr]
        exact ⟨⟨.nack, rfl, rfl, rfl, fun _ => .inl rfl⟩, rfl⟩
      · rw [hw]
        exact ⟨⟨.ack, rfl, rfl, fun _ => heom, fun hno => Bool.noConfusion hno⟩, rfl⟩
      · have hdr : (watch s).driven = true := (congrArg Watch.driven hw).symm.trans h
        exact absurd (hd.symm.trans hdr) (by decide)

/-- Every drive begins in one of the phases, with the timer restarted. -/
theorem starts_driving {s : Cec Soft} {i : Step} (h : Starts s i) :
    (∃ p, Driving p (step i s)) ∧ (step i s).hw.receiveFrameTimer = 0 := by
  obtain ⟨hfree, -, hdriven⟩ := h
  rcases recv_or_quiet s i with ⟨delta, level, rfl⟩ | ⟨hw, -, -, hno⟩
  · have hb := step_build s (.recv delta level)
    have hvb := (float_build (sampled s delta level)).trans (sampled_build s delta level)
    have hfloat := watch_float (sampled s delta level)
    have hw := watch_recv s delta level
    suffices hend : (∃ p, (watch (step (.recv delta level) s)).InPhase s.build p) ∧
        (watch (step (.recv delta level) s)).timer = 0 by
      obtain ⟨⟨p, hp⟩, ht⟩ := hend
      exact ⟨⟨p, hdriven, by rw [hb]; exact hp, (Nat.le_of_eq ht).trans (Nat.zero_le _)⟩, ht⟩
    change (∃ p, (watch (cecReceivePeriodic s delta level)).InPhase s.build p) ∧
      (watch (cecReceivePeriodic s delta level)).timer = 0
    rw [hw]
    have hdr : (softEdge (softFloat (sampled s delta level)) level).hw.driven = true := hdriven
    by_cases hv : (softFloat (sampled s delta level)).hw.driven = false
    · rw [← hvb]
      exact edge_drives hv hdr
    · -- the sample came too late
      rw [Bool.not_eq_false] at hv
      have hv' : (watch (softFloat (sampled s delta level))).driven = true := hv
      rw [hfloat] at hv'
      obtain ⟨hud, hahead⟩ := Bool.and_eq_true_iff.mp hv'
      rw [Bool.not_eq_true', decide_eq_false_iff_not] at hahead
      obtain ⟨ht, ha, hf⟩ := sample_drives (s := softCount s delta) (hfree.resolve_right hahead) hud
      have hvw : watch (softFloat (sampled s delta level)) = watch (sampled s delta level) := by
        rw [hfloat, decide_eq_false hahead, Bool.not_false, Bool.and_true]
      have hvt : (watch (softFloat (sampled s delta level))).timer = 0 := by
        rw [hvw]
        exact ht
      have hva : (watch (softFloat (sampled s delta level))).ackDone = nackDeadline s.build := by
        rw [hvw]
        exact ha
      have hvf : (watch (softFloat (sampled s delta level))).flags = 0 := by
        rw [hvw]
        exact hf
      generalize softFloat (sampled s delta level) = v at hvb hvt hva hvf
      by_cases hquiet : level = true ∨ v.hw.lastState = false
      · rw [edge_fresh hvt hquiet]
        refine ⟨?_, hvt⟩
        cases level with
        | true => exact ⟨.high, rfl, hva, hvf, hvt⟩
        | false => exact ⟨.nack, rfl, hva, congrArg Flags.bcast hvf, fun _ => .inl (congrArg Flags.bitsEom hvf)⟩
      · rw [not_or, Bool.not_eq_true, Bool.not_eq_false] at hquiet
        obtain ⟨rfl, hl⟩ := hquiet
        have hedge : softEdge v false = softFall v := by
          rw [softEdge, if_neg (by rw [hl]; decide)]
          rfl
        obtain ⟨hph, hzero, -⟩ := fall_nacks (s := v) (by rw [hvb]; exact hva) (.inl hvf)
        rw [hedge, ← hvb]
        exact ⟨⟨.nack, hph⟩, hzero⟩
  · have hd : (step i s).hw.driven = s.hw.driven := congrArg Watch.driven hw
    rcases hfree with hfree | hr
    · exact absurd (hfree.symm.trans (hd.symm.trans hdriven)) (by decide)
    · exact absurd hr hno

/-! ### The run of a drive -/

/-- The deadline moves from the ack's to the nack's, when the phase does. -/
theorem driving_raises {p : Phase} {s : Cec Soft} (h : Driving p s) {i : Step} (hi : Holds s i) (hr : Raises s i) :
    p = .ack ∧ Driving .nack (step i s) := by
  have hb := step_build s i
  have ha := h.deadline
  rcases driving_step h hi with ⟨h', -⟩ | ⟨hne, h', -⟩
  · exact absurd (h'.deadline.trans (by rw [hb, ha])) hr
  · cases p with
    | ack => exact ⟨rfl, h'⟩
    | high => exact absurd (h'.deadline.trans (by rw [hb, ha]; rfl)) hr
    | nack => exact absurd rfl hne

/-- What only a change of phase does happens once at most. -/
theorem driving_count {Q : Cec Soft → Step → Prop} [∀ s i, Decidable (Q s i)]
    (hQ : ∀ {p s i}, Driving p s → Holds s i → Driving p (step i s) → ¬ Restarts s i → ¬ Q s i)
    {p : Phase} {s : Cec Soft} (h : Driving p s) {js : List Step} (hj : Along Holds step s js) :
    countAlong Q step s js ≤ if p = .nack then 0 else 1 := by
  induction js generalizing p s with
  | nil => exact Nat.zero_le _
  | cons j js ih =>
    rw [countAlong]
    rcases driving_step h hj.1 with ⟨h', hkeep, -⟩ | ⟨hne, h', -⟩
    · rw [if_neg (hQ h hj.1 h' hkeep), Nat.zero_add]
      exact ih h' hj.2
    · have hrest := ih h' hj.2
      rw [if_pos rfl, Nat.le_zero] at hrest
      rw [hrest, if_neg hne]
      split
      · exact Nat.le_refl 1
      · exact Nat.zero_le 1

theorem driving_end {p : Phase} {s : Cec Soft} (h : Driving p s) {js : List Step} (hj : Along Holds step s js) :
    ∃ q, Driving q (run step s js) := by
  have hstep : ∀ (t : Cec Soft) (i : Step), (∃ q, Driving q t) → Holds t i → ∃ q, Driving q (step i t) := by
    rintro t i ⟨q, hq⟩ hi
    rcases driving_step hq hi with ⟨h', -⟩ | ⟨-, h', -⟩
    · exact ⟨q, h'⟩
    · exact ⟨.nack, h'⟩
  exact invariant_run hstep ⟨p, h⟩ hj

/-- The time that the steps say has passed for the receive driver. -/
def elapsed (js : List Step) : Nat := (js.map Step.recvDelta).sum

/-- How far the timer of a drive in the phase can still get, restarts counted in. -/
def allowance (b : Build) (gap : Nat) : Phase → Nat
  | .ack => ackDeadline b + gap + nackDeadline b
  | .high => gap + nackDeadline b
  | .nack => nackDeadline b

theorem cappedAdd_exact {t d : Nat} (h : cappedAdd t d < 0xff00) : cappedAdd t d = t + d := by
  rw [cappedAdd] at h ⊢
  split
  · rfl
  · next hc =>
    rw [if_neg hc] at h
    omega

/-- A timer that was not restarted has counted the step's time. -/
theorem counted {s : Cec Soft} {i : Step} (h : ¬ Restarts s i) (hcap : (step i s).hw.receiveFrameTimer < 0xff00) :
    (step i s).hw.receiveFrameTimer = s.hw.receiveFrameTimer + i.recvDelta := by
  cases i with
  | recv delta level =>
    have ht := not_not.mp h
    rw [ht] at hcap ⊢
    exact cappedAdd_exact hcap
  | xmit delta level => exact not_not.mp h
  | addr => exact not_not.mp h
  | overflow => exact not_not.mp h
  | app a => exact not_not.mp h

theorem driving_elapsed {p : Phase} {s : Cec Soft} (h : Driving p s) {js : List Step} (hj : Along Holds step s js)
    {gap : Nat} (hgap : ∀ j ∈ js, j.recvDelta ≤ gap) (hack : ackDeadline s.build < 0xff00)
    (hnack : nackDeadline s.build < 0xff00) :
    s.hw.receiveFrameTimer + elapsed js ≤ allowance s.build gap p := by
  induction js generalizing p s with
  | nil =>
    have hle := h.ahead
    rw [h.deadline] at hle
    change s.hw.receiveFrameTimer + 0 ≤ _
    cases p with
    | ack => exact Nat.le_trans hle (Nat.le_add_right_of_le (Nat.le_add_right _ _))
    | high => exact Nat.le_trans hle (Nat.le_add_left _ _)
    | nack => exact hle
  | cons j js ih =>
    have hb := step_build s j
    have hj1 := hgap j List.mem_cons_self
    have helapsed : elapsed (j :: js) = j.recvDelta + elapsed js := by rw [elapsed, List.map_cons, List.sum_cons, elapsed]
    have ih' : ∀ {q}, Driving q (step j s) →
        (step j s).hw.receiveFrameTimer + elapsed js ≤ allowance s.build gap q := by
      intro q hq
      rw [← hb]
      exact ih hq hj.2 (fun k hk => hgap k (List.mem_cons_of_mem j hk)) (by rw [hb]; exact hack) (by rw [hb]; exact hnack)
    rcases driving_step h hj.1 with ⟨h', hkeep, -⟩ | ⟨hne, h', ht⟩
    · have hcap : (step j s).hw.receiveFrameTimer < 0xff00 := by
        refine Nat.lt_of_le_of_lt h'.ahead ?_
        rw [h'.deadline, hb]
        cases p with
        | ack => exact hack
        | high => exact hnack
        | nack => exact hnack
      have hrest := ih' h'
      rw [counted hkeep hcap] at hrest
      rw [helapsed]
      omega
    · have hrest := ih' h'
      have hle := h.ahead
      rw [h.deadline] at hle
      rw [ht, allowance] at hrest
      rw [helapsed]
      cases p with
      | ack =>
        rw [deadline] at hle
        rw [allowance]
        omega
      | high =>
        have ht0 : s.hw.receiveFrameTimer = 0 := h.phase.2.2.2
        rw [allowance]
        omega
      | nack => exact absurd rfl hne

/-- What holds of the drive that has been going on from `s` for the steps `js`. -/
structure Bounded (s : Cec Soft) (js : List Step) : Prop where
  /-- The poll that finds the timer past the deadline ends it. -/
  released : usToJiffies s.build cecT5Early0 < 65536 → ∀ i, ReadsLow (run step s js) i →
    Releases (run step s js) i → (step i (run step s js)).hw.driven = false
  /-- The deadline is raised once at most, from the ack's to the nack's. -/
  raises : countAlong Raises step s js ≤ 1
  raised : Along (fun t i => Raises t i → t.hw.receiveFrameAckDone = ackDeadline s.build ∧
    (step i t).hw.receiveFrameAckDone = nackDeadline s.build) step s js
  restarts : countAlong Restarts step s js ≤ 1
  /-- Polled in time, it lasts for both deadlines and a poll gap. -/
  lasts : ackDeadline s.build < 0xff00 → nackDeadline s.build < 0xff00 →
    ∀ gap, (∀ j ∈ js, j.recvDelta ≤ gap) → elapsed js ≤ ackDeadline s.build + nackDeadline s.build + gap

theorem driving_bounded {p : Phase} {s : Cec Soft} (h : Driving p s) {js : List Step} (hj : Along Holds step s js) :
    Bounded s js := by
  have hstep : ∀ (t : Cec Soft) (i : Step), t.build = s.build → (step i t).build = s.build :=
    fun t i ht => (step_build t i).trans ht
  have hbuild : (run step s js).build = s.build := invariant_run' hstep js rfl
  have hone : (if p = Phase.nack then 0 else 1) ≤ 1 := by split <;> decide
  refine ⟨?_, Nat.le_trans ?_ hone, ?_, Nat.le_trans ?_ hone, ?_⟩
  · intro hb i hlow hr
    obtain ⟨q, hq⟩ := driving_end h hj
    exact driving_released hq (by rw [hbuild]; exact hb) hlow hr
  · refine driving_count (fun h₁ _ h₂ _ hraise => ?_) h hj
    exact hraise (h₂.deadline.trans (by rw [step_build, h₁.deadline]))
  · clear hstep hbuild hone
    induction js generalizing p s with
    | nil => exact trivial
    | cons j js ih =>
      have hb := step_build s j
      refine ⟨fun hr => ?_, ?_⟩
      · obtain ⟨rfl, h'⟩ := driving_raises h hj.1 hr
        exact ⟨h.deadline, h'.deadline.trans (by rw [hb]; rfl)⟩
      · rcases driving_step h hj.1 with ⟨h', -⟩ | ⟨-, h', -⟩
        · rw [← hb]
          exact ih h' hj.2
        · rw [← hb]
          exact ih h' hj.2
  · exact driving_count (fun _ _ _ hkeep => hkeep) h hj
  · intro hack hnack gap hgap
    have hle := driving_elapsed h hj hgap hack hnack
    have hmost : allowance s.build gap p ≤ ackDeadline s.build + gap + nackDeadline s.build := by
      cases p with
      | ack => exact Nat.le_refl _
      | high => exact Nat.add_le_add_right (Nat.le_add_left _ _) _
      | nack => exact Nat.le_add_left _ _
    omega

end Soft

/-- In the USI build a nack of a broken frame is over after two polls that handle an overflow. In the
    soft build the first poll past the deadline ends a drive, whose deadline is raised once at most and
    whose timer is restarted once at most. -/
theorem drive_released (build : Build) (addr : Addr) :
    (∀ is js : List Usi.Step, let s := run Usi.step (Usi.initial build addr) is
      s.hw.nacking = true → countAlong Usi.Handles Usi.step s js = 2 → (run Usi.step s js).hw.driven = false) ∧
    (∀ (is : List Soft.Step) (i : Soft.Step) (js : List Soft.Step),
      let s := run Soft.step (Soft.initial build addr) is
      Soft.Starts s i → Along Soft.Holds Soft.step (Soft.step i s) js → Soft.Bounded (Soft.step i s) js) := by
  constructor
  · intro is js s hn h2
    exact Usi.nack_released (Usi.nackTimed_run build addr is) hn js h2
  · intro is i js s hstart hj
    obtain ⟨⟨p, hp⟩, -⟩ := Soft.starts_driving hstart
    exact Soft.driving_bounded hp hj

namespace Usi

/-- The rest of a byte on a line that others pull low for the first `low` ticks of it. -/
def byteOf (low high : Nat) : List Step :=
  List.replicate low (.tick true) ++ List.replicate high (.tick false) ++ [.poll false false]

/-- A broadcast whose ack slot is followed by a falling edge that comes too soon. -/
def brokenBroadcast : List Step :=
  .tick false :: byteOf 7 0 ++ byteOf 5 3 ++
    (toBits 8 0x0f ++ [false]).flatMap (fun bit => if bit then byteOf 2 6 else byteOf 5 3) ++
    byteOf 1 7 ++ byteOf 1 7 ++ byteOf 0 8

end Usi

namespace Soft

/-- A broadcast up to the falling edge of its ack slot, with jiffies of a microsecond. -/
def broadcastHeader : List Step := pollsOfStart ++ (toBits 8 0x0f ++ [false]).flatMap pollsOfBit

/-- The same at 2.73 jiffies a microsecond. -/
def fastHeader : List Step :=
  [.recv 13000 true, .recv 273 false, .recv 10104 true, .recv 2185 false] ++
    (toBits 8 0x0f ++ [false]).flatMap fun bit =>
      if bit then [.recv 2458 true, .recv 4096 false]
      else [.recv 2458 false, .recv 1639 true, .recv 2458 false]

/-- A clock at which the deadline of a nack is the largest value of the timer. -/
def fastBuild : Build := { fCpu := 2730640 }

end Soft

theorem drive_released_both :
    (run Usi.step (run Usi.step (Usi.initial {} .none) Usi.brokenBroadcast) (Usi.byteTimes 2)).hw.driven = false ∧
    Soft.Bounded (Soft.step (.recv 2000 false) (run Soft.step (Soft.initial {} .none) Soft.broadcastHeader))
      (List.replicate 24 (.recv 1000 false)) :=
  ⟨(drive_released {} .none).1 Usi.brokenBroadcast (Usi.byteTimes 2) (by decide +kernel) (by decide +kernel),
    (drive_released {} .none).2 Soft.broadcastHeader (.recv 2000 false) (List.replicate 24 (.recv 1000 false))
      (by decide +kernel) (by decide +kernel)⟩

/-- No poll ever finds the capped timer past that deadline. -/
theorem drive_outlasts :
    let s := run Soft.step (Soft.initial Soft.fastBuild .none) Soft.fastHeader
    let js := List.replicate 12 (.recv 60000 false)
    Soft.Starts s (.recv 60000 false) ∧ Along Soft.Holds Soft.step (Soft.step (.recv 60000 false) s) js ∧
      Soft.ackDeadline Soft.fastBuild + Soft.nackDeadline Soft.fastBuild + 10 * 60000 < Soft.elapsed js := by
  decide +kernel

end AvrCec
