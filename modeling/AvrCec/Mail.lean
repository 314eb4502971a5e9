import AvrCec.Delivery
import AvrCec.Sending

/-! Sending and unread mail.

    Two devices are `Alike` when they differ in the receive buffer and the IGNORE flag only, and
    neither wants an ack slot. Whether the buffer is taken shows in nothing else as long as the header
    bytes heard name other devices (`Elsewhere`): then two devices that differ in their mail stay alike
    (`alike_run`), and none of them touches an ack slot. A broadcast of our own is no such message. -/

namespace AvrCec
open Lib

section
variable {D : Type} [Driver D]

/-- `t` is `s` with another mailbox, and both leave the ack slots alone. -/
structure Alike (s t : Cec D) : Prop where
  build : t.build = s.build
  addr : t.addr = s.addr
  hw : t.hw = s.hw
  tx : t.tx = s.tx
  byte : t.rx.byte = s.rx.byte
  pos : t.rx.pos = s.rx.pos
  flags : s.rx.flags = 0 ∧ t.rx.flags = 0 ∨
    s.rx.flags.active = true ∧ ∃ ign, t.rx.flags = { s.rx.flags with ignore := ign }
  quiet : s.rx.flags.doAck = false ∧ s.rx.flags.bcast = false

variable {s t : Cec D}

/-- The receive sides of `Alike`. -/
structure AlikeRx (a b : Receive) : Prop where
  byte : b.byte = a.byte
  pos : b.pos = a.pos
  flags : a.flags = 0 ∧ b.flags = 0 ∨ a.flags.active = true ∧ ∃ ign, b.flags = { a.flags with ignore := ign }
  quiet : a.flags.doAck = false ∧ a.flags.bcast = false

omit [Driver D] in
theorem Alike.rx (h : Alike s t) : AlikeRx s.rx t.rx := ⟨h.byte, h.pos, h.flags, h.quiet⟩

omit [Driver D] in
theorem Alike.of_rx {s' t' : Cec D} (hb : t'.build = s'.build) (ha : t'.addr = s'.addr)
    (hh : t'.hw = s'.hw) (ht : t'.tx = s'.tx) (h : AlikeRx s'.rx t'.rx) : Alike s' t' :=
  ⟨hb, ha, hh, ht, h.byte, h.pos, h.flags, h.quiet⟩

omit [Driver D] in
theorem Alike.flags_zero (h : Alike s t) : t.rx.flags = 0 ↔ s.rx.flags = 0 := by
  rcases h.flags with ⟨hs, ht⟩ | ⟨hact, ign, ht⟩
  · rw [hs, ht]
  · constructor
    · intro h0
      have := congrArg Flags.active (ht.symm.trans h0)
      exact absurd (hact.symm.trans this) (by decide)
    · intro h0
      rw [h0] at hact
      exact absurd hact (by decide)

theorem onError_tx {s t : Cec D} (hb : t.build = s.build) (ht : t.tx = s.tx) (err : Err) :
    (cecTransmitOnError t err).tx = (cecTransmitOnError s err).tx := by
  obtain ⟨b, rx, tx, addr, hw, log⟩ := s
  obtain ⟨b', rx', tx', addr', hw', log'⟩ := t
  subst hb ht
  rw [cecTransmitOnError, cecTransmitOnError]
  split <;> rfl

theorem alike_onError (h : Alike s t) (err : Err) :
    Alike (cecTransmitOnError s err) (cecTransmitOnError t err) := by
  have hs := sameReceive_onError s err
  have ht := sameReceive_onError t err
  refine .of_rx ?_ ?_ ?_ ?_ ?_
  · rw [hs.build, ht.build]; exact h.build
  · rw [hs.addr, ht.addr]; exact h.addr
  · rw [onError_hw, onError_hw, h.tx, h.hw]
  · exact onError_tx h.build h.tx err
  · rw [hs.rx, ht.rx]; exact h.rx

omit [Driver D] in
theorem alike_emit (h : Alike s t) (e : Ev) : Alike (s.emit e) (t.emit e) :=
  .of_rx h.build h.addr h.hw h.tx h.rx

theorem alike_checkTxBit (h : Alike s t) (b : Bool) : Alike (cecCheckTxBit s b) (cecCheckTxBit t b) := by
  rw [cecCheckTxBit, cecCheckTxBit, h.tx]
  split
  · exact alike_onError h .arbLost
  · exact h

theorem alike_receiveAck (h : Alike s t) (ack : Bool) :
    Alike (cecTransmitReceiveAck s ack) (cecTransmitReceiveAck t ack) := by
  rw [cecTransmitReceiveAck, cecTransmitReceiveAck, h.tx]
  split
  · split
    · exact .of_rx h.build h.addr h.hw (congrArg (fun tx : Transmit => { tx with state := .idle }) h.tx) h.rx
    · exact h
  · exact alike_onError h .nack

omit [Driver D] in
theorem alike_clear (h : Alike s t) : Alike (clearHeader s) (clearHeader t) :=
  .of_rx h.build h.addr h.hw h.tx ⟨h.byte, h.pos, h.flags, h.quiet⟩

theorem alike_receiveStart (h : Alike s t) : Alike (cecReceiveStart s) (cecReceiveStart t) := by
  refine .of_rx h.build h.addr h.hw ?_ ⟨rfl, rfl, .inr ⟨rfl, false, rfl⟩, rfl, rfl⟩
  simp only [cecReceiveStart, emit_tx, emit_build, h.tx, h.build]

theorem alike_receiveError (h : Alike s t) (err : Err) :
    Alike (cecReceiveError s err) (cecReceiveError t err) := by
  by_cases h0 : s.rx.flags = 0
  · rw [receiveError_zero h0, receiveError_zero (h.flags_zero.mpr h0)]
    exact h
  · have h0' : t.rx.flags ≠ 0 := fun ht => h0 (h.flags_zero.mp ht)
    have hbcast : t.rx.flags.bcast = s.rx.flags.bcast := by
      rcases h.flags with ⟨hs, -⟩ | ⟨-, ign, ht⟩
      · exact absurd hs h0
      · rw [ht]
    rw [cecReceiveError, cecReceiveError, if_neg h0, if_neg h0', hbcast, h.hw, h.build]
    have hquiet : (0 : Flags).doAck = false ∧ (0 : Flags).bcast = false := ⟨rfl, rfl⟩
    refine alike_onError (.of_rx ?_ ?_ ?_ ?_ ?_) err
    · exact h.build
    · exact h.addr
    · rfl
    · exact h.tx
    · exact ⟨h.byte, h.pos, .inl ⟨rfl, rfl⟩, hquiet⟩

/-- The bit completes a byte, the header byte for all the engine knows. -/
def CompletesHeader (s : Cec D) : Prop :=
  s.rx.flags.bitsEom = true ∧ s.rx.byte &&& 0x80 ≠ 0 ∧ s.rx.pos = 0

/-- The destination that the bit `b` completes. -/
def destination (s : Cec D) (b : Bool) : Nat := (s.rx.byte <<< 1 ||| b.toNat) % 256 % 16

/-- No header byte that the bit completes is a broadcast or names us. -/
def Elsewhere (s : Cec D) (b : Bool) : Prop :=
  CompletesHeader s → destination s b ≠ cecAddrBroadcast ∧ cecAddrMatch s.addr (destination s b) = false

instance (s : Cec D) : Decidable (CompletesHeader s) := by unfold CompletesHeader; infer_instance

instance (s : Cec D) (b : Bool) : Decidable (Elsewhere s b) := by unfold Elsewhere; infer_instance

omit [Driver D] in
/-- A byte completed asks for no ack slot, whatever the mailbox. -/
theorem doneFlags_quiet (s : Cec D) {f : Flags} (hf : f.doAck = false ∧ f.bcast = false) {p v : Nat}
    (he : p = 0 → v % 16 ≠ cecAddrBroadcast ∧ cecAddrMatch s.addr (v % 16) = false) :
    (doneFlags s f p v).doAck = false ∧ (doneFlags s f p v).bcast = false := by
  have hb : (doneFlags s f p v).bcast = false := by
    rw [(doneFlags_flags s f p v).bcast, hf.2]
    by_cases hp : p = 0
    · simp [hp, (he hp).1]
    · simp [hp]
  refine ⟨?_, hb⟩
  rw [doneFlags_doAck, hb, hf.1]
  split
  · rfl
  · by_cases hp : p = 0
    · simp [(he hp).2]
    · simp [hp]

omit [Driver D] in
/-- The mailbox decides about the IGNORE flag only. -/
theorem doneFlags_alike (s t : Cec D) {f : Flags} (hf : f.doAck = false ∧ f.bcast = false) (ign : Bool)
    {p v : Nat} (hs : p = 0 → v % 16 ≠ cecAddrBroadcast ∧ cecAddrMatch s.addr (v % 16) = false)
    (ha : t.addr = s.addr) :
    doneFlags t { f with ignore := ign } p v
      = { doneFlags s f p v with ignore := (doneFlags t { f with ignore := ign } p v).ignore } := by
  have h₁ := doneFlags_flags s f p v
  have h₂ := doneFlags_flags t { f with ignore := ign } p v
  obtain ⟨hd₁, hb₁⟩ := doneFlags_quiet s hf hs
  obtain ⟨hd₂, hb₂⟩ := doneFlags_quiet t (f := { f with ignore := ign }) hf (by rw [ha]; exact hs)
  generalize doneFlags s f p v = f₁ at *
  generalize doneFlags t { f with ignore := ign } p v = f₂ at *
  cases f₁
  cases f₂
  simp only at hd₁ hb₁ hd₂ hb₂
  simp only [Flags.mk.injEq, true_and]
  exact ⟨h₂.active.trans h₁.active.symm, hb₂.trans hb₁.symm, hd₂.trans hd₁.symm,
    h₂.bitsEom.trans h₁.bitsEom.symm, h₂.eom.trans h₁.eom.symm, h₂.overrun.trans h₁.overrun.symm,
    h₂.nacked.trans h₁.nacked.symm⟩

/-- A data or EOM bit. -/
theorem alike_dataEom {ign : Bool} {f : Flags} {p : Nat} (h : Alike s t) (hact : f.active = true)
    (hf : f.doAck = false ∧ f.bcast = false) (b : Bool)
    (he : s.rx.byte &&& 0x80 ≠ 0 → p = 0 → destination s b ≠ cecAddrBroadcast ∧
      cecAddrMatch s.addr (destination s b) = false) :
    Alike (receiveDataEom s f p b) (receiveDataEom t { f with ignore := ign } p b) := by
  have hcheck := alike_checkTxBit h b
  have hsame := sameReceive_checkTxBit s b
  have hbyte := hcheck.byte
  rw [receiveDataEom, receiveDataEom, hbyte]
  rw [destination, ← hsame.rx, ← hsame.addr] at he
  generalize cecCheckTxBit s b = u at *
  generalize cecCheckTxBit t b = v at *
  dsimp only
  by_cases h0 : u.rx.byte ≠ 0
  · rw [if_pos h0, if_pos h0]
    by_cases hdone : u.rx.byte &&& 0x80 ≠ 0
    · rw [if_pos hdone, if_pos hdone, receiveByteDone_eq, receiveByteDone_eq]
      have hquiet := doneFlags_quiet u hf (p := p) (he hdone)
      have hflags := doneFlags_alike u v hf ign (he hdone) hcheck.addr
      have hact' := (doneFlags_flags u f p ((u.rx.byte <<< 1 ||| b.toNat) % 256)).active.trans hact
      exact .of_rx hcheck.build hcheck.addr hcheck.hw hcheck.tx ⟨rfl, rfl, .inr ⟨hact', _, hflags⟩, hquiet⟩
    · rw [if_neg hdone, if_neg hdone]
      exact .of_rx hcheck.build hcheck.addr hcheck.hw hcheck.tx
        ⟨rfl, hcheck.pos, .inr ⟨hact, ign, rfl⟩, hf⟩
  · rw [if_neg h0, if_neg h0]
    refine .of_rx hcheck.build hcheck.addr hcheck.hw hcheck.tx ⟨hcheck.byte, hcheck.pos, .inr ?_, ?_⟩
    · cases b <;> exact ⟨hact, ign, rfl⟩
    · cases b <;> exact hf

/-- The ack bit. -/
theorem alike_ackBit {ign : Bool} {f : Flags} {p : Nat} (h : Alike s t) (hact : f.active = true)
    (hf : f.doAck = false ∧ f.bcast = false) (b : Bool) :
    Alike (receiveAck s f p b) (receiveAck t { f with ignore := ign } p b) := by
  have hack : ({ f with ignore := ign } : Flags).ack b = f.ack b := rfl
  have h' := alike_receiveAck h (f.ack b)
  have hzero : (0 : Flags).doAck = false ∧ (0 : Flags).bcast = false := ⟨rfl, rfl⟩
  rw [receiveAck, receiveAck, hack]
  generalize cecTransmitReceiveAck s (f.ack b) = u at h'
  generalize cecTransmitReceiveAck t (f.ack b) = v at h'
  dsimp only
  have hdone : ∀ g g' : Flags, Alike (receiveDone u g p) (receiveDone v g' p) := fun g g' =>
    .of_rx h'.build h'.addr h'.hw h'.tx ⟨h'.byte, h'.pos, .inl ⟨rfl, rfl⟩, hzero⟩
  cases f.ack b with
  | false => exact hdone _ _
  | true =>
    simp only [Bool.not_true, Bool.false_eq_true, if_false, Bool.false_or]
    split
    · exact hdone _ _
    · exact .of_rx h'.build h'.addr h'.hw h'.tx ⟨rfl, h'.pos, .inr ⟨hact, ign, rfl⟩, hf⟩

/-- A bit of a reception that completes no header byte for us. -/
theorem alike_receiveBit (h : Alike s t) (h0 : s.rx.flags ≠ 0) {b : Bool} (he : Elsewhere s b) :
    Alike (cecReceiveBit s b) (cecReceiveBit t b) := by
  rcases h.flags with ⟨hs, -⟩ | ⟨hact, ign, hflags⟩
  · exact absurd hs h0
  · have hemit := alike_emit h (.bit b)
    rw [cecReceiveBit, cecReceiveBit, hflags, h.pos]
    dsimp only
    by_cases heom : s.rx.flags.bitsEom = true
    · rw [if_pos heom, if_pos heom]
      exact alike_dataEom hemit hact h.quiet b fun hd hp => he ⟨heom, hd, hp⟩
    · rw [if_neg heom, if_neg heom]
      exact alike_ackBit hemit hact h.quiet b

end

/-! ### The USI build -/

namespace Usi

/-- Two devices alike, whose decoder hands out bits during a reception only. -/
structure AlikeRun (s t : Cec Usi) : Prop where
  alike : Alike s t
  synced : Synced s

variable {s t : Cec Usi}

/-- Every header byte that the samples complete names another device. -/
def TicksElsewhere (s : Cec Usi) : List Bool → Prop
  | [] => True
  | b :: l => (s.hw.dec.count.sampling → Elsewhere s b) ∧ TicksElsewhere (cecProcessTick s b) l

instance decidableTicksElsewhere : (l : List Bool) → (s : Cec Usi) → Decidable (TicksElsewhere s l)
  | [], _ => .isTrue trivial
  | b :: l, s => @instDecidableAnd _ _ inferInstance (decidableTicksElsewhere l (cecProcessTick s b))

theorem alike_withDec (h : Alike s t) (d : Decoder) : Alike (withDec s d) (withDec t d) :=
  .of_rx h.build h.addr (congrArg (fun u : Usi => { u with dec := d }) h.hw) h.tx h.rx

theorem alike_call (h : Alike s t) (c : Call) : Alike (s.call c) (t.call c) := by
  cases c with
  | none => exact h
  | start => exact alike_receiveStart h
  | error err => exact alike_receiveError h err

theorem alike_tick (h : AlikeRun s t) {b : Bool} (he : s.hw.dec.count.sampling → Elsewhere s b) :
    Alike (cecProcessTick s b) (cecProcessTick t b) := by
  rw [processTick_eq, processTick_eq, h.alike.hw]
  dsimp only
  by_cases hs : s.hw.dec.count.sampling
  · have hbit := alike_receiveBit h.alike (h.synced hs.1) (he hs)
    have hafter : ∀ d : Decoder, d.after (cecReceiveBit t b).rx.flags = d.after (cecReceiveBit s b).rx.flags := by
      intro d
      have hiff := hbit.flags_zero
      rw [Decoder.after, Decoder.after]
      simp only [hiff]
    rw [if_pos hs, if_pos hs, hafter]
    exact alike_withDec (alike_call hbit _) _
  · rw [if_neg hs, if_neg hs]
    exact alike_withDec (alike_call h.alike _) _

/-- The decoder stays in step with the engine. -/
theorem synced_tick (h : Synced s) (b : Bool) : Synced (cecProcessTick s b) := by
  have htrue : Kept fun _ : Cec Usi => True := ⟨fun _ _ _ _ => trivial, fun _ => trivial, fun _ _ => trivial, fun _ => trivial⟩
  exact (tracked_tick htrue (fun _ _ _ _ => trivial) ⟨trivial, h⟩ b).synced

theorem alikeRun_ticks (h : AlikeRun s t) {l : List Bool} (he : TicksElsewhere s l) :
    AlikeRun (l.foldl cecProcessTick s) (l.foldl cecProcessTick t) := by
  induction l generalizing s t with
  | nil => exact h
  | cons b l ih => exact ih ⟨alike_tick h he.1, synced_tick h.synced b⟩ he.2

theorem alike_checkFloat (h : Alike s t) (others : Bool) : Alike (checkFloat s others) (checkFloat t others) := by
  have hload : Alike { s with hw := loadFloatMax s.hw } { t with hw := loadFloatMax t.hw } :=
    .of_rx h.build h.addr (congrArg loadFloatMax h.hw) h.tx h.rx
  rw [checkFloat, checkFloat, h.hw]
  dsimp only
  split
  · have herr := alike_onError hload .arbLost
    rwa [h.hw] at herr
  · rwa [h.hw] at hload

theorem alike_nextBit (h : Alike s t) :
    Alike (cecUsiNextBit s).1 (cecUsiNextBit t).1 ∧ (cecUsiNextBit t).2 = (cecUsiNextBit s).2 := by
  obtain ⟨b, rx, tx, addr, hw, log⟩ := s
  obtain ⟨b', rx', tx', addr', hw', log'⟩ := t
  obtain rfl : tx' = tx := h.tx
  obtain rfl : hw' = hw := h.hw
  obtain rfl : b' = b := h.build
  obtain rfl : addr' = addr := h.addr
  have hrx : AlikeRx rx rx' := h.rx
  rw [cecUsiNextBit, cecUsiNextBit]
  cases hw'.xmitState with
  | idle =>
    by_cases hc : tx'.state.pending ∧ tx'.needed ≤ hw'.idleFrames
    · simp only [if_pos hc]
      exact ⟨.of_rx rfl rfl rfl rfl hrx, trivial⟩
    · simp only [if_neg hc]
      exact ⟨.of_rx rfl rfl rfl rfl hrx, trivial⟩
  | start => exact ⟨.of_rx rfl rfl rfl rfl hrx, rfl⟩
  | bits => exact ⟨.of_rx rfl rfl rfl rfl hrx, rfl⟩

theorem alike_writeOut (h : Alike s t) : Alike (writeOut s) (writeOut t) := by
  obtain ⟨hnext, hbyte⟩ := alike_nextBit h
  have hhw := hnext.hw
  rw [writeOut, writeOut]
  dsimp only
  rw [hbyte]
  exact .of_rx hnext.build hnext.addr (by dsimp only; rw [hhw]) hnext.tx hnext.rx

/-- Without a wanted ack slot a poll drives none. -/
theorem handleAck_quiet (h : s.rx.flags.doAck = false) (others : Bool) : handleAck s others = s := by
  rw [handleAck, h, Bool.and_false, Bool.false_and, if_neg Bool.false_ne_true]

theorem doAck_alike (h : Alike s t) : t.rx.flags.doAck = false := by
  rcases h.flags with ⟨-, ht⟩ | ⟨-, ign, ht⟩
  · rw [ht]; rfl
  · rw [ht]; exact h.quiet.1

/-- The state in which a poll decides about the ack slot. -/
def beforeAck (s : Cec Usi) (others : Bool) : Cec Usi :=
  if s.hw.usioif then handleOverflow (checkFloat s others) else checkFloat s others

theorem poll_eq (s : Cec Usi) (others₁ others₂ : Bool) :
    cecReceivePeriodic s others₁ others₂ = handleAck (beforeAck s others₁) others₂ := by
  rw [cecReceivePeriodic, beforeAck]

/-- The poll hears of no message for us. -/
def PollElsewhere (s : Cec Usi) (others : Bool) : Prop :=
  s.hw.usioif = true →
    let u := checkFloat s others
    TicksElsewhere { u with hw := countIdle (floatNack u.hw) u.hw.usibr } (byteTicks u.hw.usibr)

/-- The step hears of no message for us. -/
def StepElsewhere (s : Cec Usi) : Step → Prop
  | .poll others _ => PollElsewhere s others
  | _ => True

instance (s : Cec Usi) (others : Bool) : Decidable (PollElsewhere s others) := by
  unfold PollElsewhere; infer_instance

instance (s : Cec Usi) (i : Step) : Decidable (StepElsewhere s i) :=
  match i with
  | .poll others _ => inferInstanceAs (Decidable (PollElsewhere s others))
  | .tick _ | .app _ => .isTrue trivial

theorem alike_beforeAck (h : AlikeRun s t) {others : Bool} (he : PollElsewhere s others) :
    Alike (beforeAck s others) (beforeAck t others) := by
  have hfloat := alike_checkFloat h.alike others
  have hsync : Synced (checkFloat s others) := by
    intro hb
    have hrx : (checkFloat s others).rx = s.rx := by
      rw [checkFloat]
      dsimp only
      split
      · exact (sameReceive_onError _ .arbLost).rx
      · rfl
    rw [hrx]
    rw [checkFloat_dec] at hb
    exact h.synced hb
  rw [beforeAck, beforeAck, h.alike.hw]
  by_cases ho : s.hw.usioif = true
  · rw [if_pos ho, if_pos ho, handleOverflow_eq, handleOverflow_eq]
    refine alike_writeOut ?_
    have hcount : AlikeRun
        { checkFloat s others with hw := countIdle (floatNack (checkFloat s others).hw) (checkFloat s others).hw.usibr }
        { checkFloat t others with hw := countIdle (floatNack (checkFloat t others).hw) (checkFloat t others).hw.usibr } :=
      ⟨.of_rx hfloat.build hfloat.addr (by dsimp only; rw [hfloat.hw]) hfloat.tx hfloat.rx, hsync⟩
    have hticks := alikeRun_ticks hcount (he ho)
    rw [decoded, decoded, hfloat.hw]
    rw [hfloat.hw] at hticks
    exact hticks.alike
  · rw [if_neg ho, if_neg ho]
    exact hfloat

/-- Neither touches the ack slot, and they stay alike. -/
theorem alike_poll (h : AlikeRun s t) {others₁ : Bool} (he : PollElsewhere s others₁) (others₂ : Bool) :
    Alike (cecReceivePeriodic s others₁ others₂) (cecReceivePeriodic t others₁ others₂) := by
  have hb := alike_beforeAck h he
  rw [poll_eq, poll_eq, handleAck_quiet hb.quiet.1, handleAck_quiet (doAck_alike hb)]
  exact hb

theorem alike_addrPeriodic {D : Type} [Driver D] {s t : Cec D} (h : Alike s t) :
    Alike (cecAddrPeriodic s) (cecAddrPeriodic t) := by
  have hc := alike_clear h
  rw [cecAddrPeriodic, cecAddrPeriodic, h.addr]
  cases haddr : s.addr with
  | devType l a i =>
    dsimp only
    by_cases hr : cecAddrReady (.devType l a i) = true
    · rw [if_pos hr, if_pos hr]; exact h
    · rw [if_neg hr, if_neg hr, hc.tx]
      by_cases hidle : (clearHeader s).tx.state = .idle
      · rw [if_pos hidle, if_pos hidle]
        by_cases hl : i = l.length
        · rw [if_pos hl, if_pos hl]
          exact .of_rx hc.build rfl hc.hw rfl hc.rx
        · rw [if_neg hl, if_neg hl]
          exact .of_rx hc.build rfl hc.hw (by simp only [queue, hc.tx]) hc.rx
      · rw [if_neg hidle, if_neg hidle]
        by_cases hfail : (clearHeader s).tx.state = .failed
        · rw [if_pos hfail, if_pos hfail]
          exact .of_rx hc.build rfl hc.hw rfl hc.rx
        · rw [if_neg hfail, if_neg hfail]; exact hc
  | none => exact h
  | fixed a => exact h
  | bitfield m => exact h

theorem alike_app {D : Type} [Driver D] {s t : Cec D} (h : Alike s t) (a : App) : Alike (a.step s) (a.step t) := by
  cases a with
  | clear => exact alike_clear h
  | send message =>
    rw [App.step, App.step, h.tx]
    split
    · exact .of_rx h.build h.addr h.hw (by simp only [queue, h.tx]) h.rx
    · exact h
  | assign m =>
    rw [App.step, App.step, h.addr]
    split
    · exact .of_rx h.build rfl h.hw h.tx h.rx
    · exact h

theorem alikeRun_step (h : AlikeRun s t) {i : Step} (he : StepElsewhere s i) :
    AlikeRun (step i s) (step i t) := by
  have htrue : Kept fun _ : Cec Usi => True :=
    ⟨fun _ _ _ _ => trivial, fun _ => trivial, fun _ _ => trivial, fun _ => trivial⟩
  refine ⟨?_, (tracked_step htrue (fun _ _ _ _ => trivial) ⟨trivial, h.synced⟩ i).synced⟩
  cases i with
  | tick others =>
    exact .of_rx h.alike.build h.alike.addr (congrArg (Usi.clock · others) h.alike.hw) h.alike.tx h.alike.rx
  | poll others₁ others₂ => exact alike_addrPeriodic (alike_poll h he others₂)
  | app a => exact alike_app h.alike a

/-- What two devices share that differ in their mail. -/
structure DifferInMail (s t : Cec Usi) : Prop where
  addr : t.addr = s.addr
  hw : t.hw = s.hw
  tx : t.tx = s.tx
  byte : t.rx.byte = s.rx.byte
  pos : t.rx.pos = s.rx.pos
  flags : t.rx.flags = { s.rx.flags with ignore := t.rx.flags.ignore }

/-- The reception under way, if any, is for other devices. -/
def Quiet (s : Cec Usi) : Prop := s.rx.flags.doAck = false ∧ s.rx.flags.bcast = false

instance (s : Cec Usi) : Decidable (Quiet s) := by unfold Quiet; infer_instance

/-- Both drive the same output and are as far with sending, and neither asks for an ack slot. -/
structure SendAlike (s t : Cec Usi) : Prop where
  hw : t.hw = s.hw
  tx : t.tx = s.tx
  ack : s.rx.flags.doAck = false ∧ t.rx.flags.doAck = false

end Usi

/-- Two devices that differ in their mail send alike, in every run in which the header bytes they hear
    name other devices. -/
theorem sending_ignores_mail (build : Build) (addr : Addr) (is₁ is₂ is : List Usi.Step)
    (hd : Usi.DifferInMail (run Usi.step (Usi.initial build addr) is₁)
      (run Usi.step (Usi.initial build addr) is₂))
    (hq : Usi.Quiet (run Usi.step (Usi.initial build addr) is₁))
    (he : Along Usi.StepElsewhere Usi.step (run Usi.step (Usi.initial build addr) is₁) is) :
    Usi.SendAlike (run Usi.step (run Usi.step (Usi.initial build addr) is₁) is)
      (run Usi.step (run Usi.step (Usi.initial build addr) is₂) is) := by
  obtain ⟨⟨hdel₁, hb₁⟩, hsync⟩ := Usi.delivers_run build addr is₁
  obtain ⟨⟨hdel₂, hb₂⟩, -⟩ := Usi.delivers_run build addr is₂
  generalize run Usi.step (Usi.initial build addr) is₁ = s at *
  generalize run Usi.step (Usi.initial build addr) is₂ = t at *
  have hflags : s.rx.flags = 0 ∧ t.rx.flags = 0 ∨
      s.rx.flags.active = true ∧ ∃ ign, t.rx.flags = { s.rx.flags with ignore := ign } := by
    by_cases h0 : s.rx.flags = 0
    · refine .inl ⟨h0, ?_⟩
      by_contra hne
      obtain ⟨bits, buf₀, -, ht⟩ := hdel₂.opened hne
      have hact := ht.active
      rw [hd.flags, h0] at hact
      exact Bool.false_ne_true hact
    · obtain ⟨bits, buf₀, -, ht⟩ := hdel₁.opened h0
      exact .inr ⟨ht.active, _, hd.flags⟩
  have h0 : Usi.AlikeRun s t :=
    ⟨⟨hb₂.trans hb₁.symm, hd.addr, hd.hw, hd.tx, hd.byte, hd.pos, hflags, hq⟩, hsync⟩
  have hstep : ∀ (s t : Cec Usi) (i : Usi.Step), Usi.AlikeRun s t → Usi.StepElsewhere s i →
      Usi.AlikeRun (Usi.step i s) (Usi.step i t) := fun s t i h he => Usi.alikeRun_step h he
  have hend := (lockstep_run hstep h0 he).alike
  exact ⟨hend.hw, hend.tx, hend.quiet.1, Usi.doAck_alike hend⟩

/-- We have broadcast a message, and read it back into our own buffer. -/
def unread : List Usi.Step := .app (.send [0x4f, 0x36]) :: Usi.byteTimes 28

theorem differ_unread :
    Usi.DifferInMail (run Usi.step (Usi.initial {} (.fixed 4)) (unread ++ [.app .clear]))
      (run Usi.step (Usi.initial {} (.fixed 4)) unread) := by
  have hclear : ∀ t : Cec Usi, Usi.DifferInMail (Usi.step (.app .clear) t) t :=
    fun t => ⟨rfl, rfl, rfl, rfl, rfl, rfl⟩
  rw [run_concat]
  exact hclear _

/-- A message to device 5. -/
def directed : List Usi.Step := .app (.send [0x45, 0x36]) :: Usi.byteTimes 20

theorem sending_ignores_mail_directed :
    Usi.SendAlike
      (run Usi.step (run Usi.step (Usi.initial {} (.fixed 4)) (unread ++ [.app .clear])) directed)
      (run Usi.step (run Usi.step (Usi.initial {} (.fixed 4)) unread) directed) := by
  have hq : Usi.Quiet (run Usi.step (Usi.initial {} (.fixed 4)) (unread ++ [.app .clear])) := by
    decide +kernel
  have he : Along Usi.StepElsewhere Usi.step
      (run Usi.step (Usi.initial {} (.fixed 4)) (unread ++ [.app .clear])) directed := by
    decide +kernel
  exact sending_ignores_mail _ _ _ _ directed differ_unread hq he

/-- Another broadcast, which no other device rejects: it is sent if the buffer has been read, and
    refused by our own receive side if not. -/
theorem broadcast_refused_by_mail :
    let is := .app (.send [0x4f, 0x36]) :: Usi.byteTimes 30
    let s := run Usi.step (Usi.initial {} (.fixed 4)) (unread ++ [.app .clear])
    let t := run Usi.step (Usi.initial {} (.fixed 4)) unread
    Usi.DifferInMail s t ∧ s.header = 0 ∧ t.header = 2 ∧
      (run Usi.step s is).tx.state = .idle ∧ (run Usi.step t is).tx.state ≠ .idle ∧
      .abort .nack ∈ (run Usi.step t is).log ∧
      ¬ Usi.SendAlike (run Usi.step s is) (run Usi.step t is) := by
  intro is s t
  have hs : (run Usi.step s is).tx.state = .idle := by decide +kernel
  have ht : (run Usi.step t is).tx.state ≠ .idle := by decide +kernel
  refine ⟨differ_unread, by decide +kernel, by decide +kernel, hs, ht, by decide +kernel, fun h => ht ?_⟩
  rw [h.tx]
  exact hs

end AvrCec
