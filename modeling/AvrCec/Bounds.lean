import AvrCec.Drivers

/-! The soft receive driver and the bounds of `cec_receive_buf`.

    A byte is stored behind the ones before it while the position is below 16; the block after the
    sixteenth sets the sticky `overrun` flag, and no reception with the flag stores. The flag is lost
    with the others when an error ends the reception, but the position and the driver's pending
    sample are not: `stores_in_bounds` shows that this is the only way out of the buffer. -/

namespace AvrCec
open Lib

section
variable {D : Type} [Driver D]

/-- A reception past the sixteenth block is flagged, and every store so far was in the buffer. -/
structure InBounds (s : Cec D) : Prop where
  flagged : s.rx.flags ≠ 0 → s.rx.pos ≤ cecBufferSize ∨ s.rx.flags.overrun = true
  stores : ∀ i v, .store i v ∈ s.heard → i < s.build.bufLen

theorem kept_inBounds : Kept (InBounds (D := D)) where
  same h hb hr hh := ⟨by rw [hr]; exact h.flagged, by rw [hh, hb]; exact h.stores⟩
  start h := ⟨fun _ => .inl (Nat.zero_le _), fun i v hm => h.stores i v (by simpa using hm)⟩
  error {s} err h := by
    obtain ⟨hrx, hb, hh⟩ := receiveError_rx s err
    refine ⟨by rw [hrx]; exact fun hne => absurd rfl hne, fun i v hm => ?_⟩
    rw [hh] at hm
    rw [hb]
    refine h.stores i v ?_
    split at hm
    · exact hm
    · simpa using hm
  clear h := ⟨h.flagged, fun i v hm => h.stores i v (by simpa using hm)⟩

omit [Driver D] in
/-- A completed byte. -/
theorem inBounds_byteDone {s : Cec D} (h : InBounds s) (f : Flags) (p v : Nat)
    (hp : p ≤ cecBufferSize ∨ f.overrun = true) : InBounds (receiveByteDone s f p v) := by
  have hover := (doneFlags_flags s f p v).overrun
  have hb : (receiveByteDone s f p v).build = s.build := (sameTransmit_byteDone s f p v).build
  constructor
  · intro _
    rw [receiveByteDone_rx]
    dsimp only
    rw [hover]
    rcases hp with hp | hp
    · rcases Nat.lt_or_eq_of_le hp with hlt | heq
      · exact .inl (by unfold cecBufferSize at *; omega)
      · exact .inr (by simp [heq])
    · exact .inr (by rw [hp]; rfl)
  · intro i w hm
    rw [hb]
    rw [receiveByteDone_heard] at hm
    split at hm
    · next hst =>
      rcases List.mem_cons.mp hm with heq | hm
      · -- the store: neither at nor past the sixteenth block
        obtain ⟨rfl, -⟩ : i = p + 1 + s.build.hdr ∧ w = v := by simpa using heq
        unfold stored refused at hst
        rw [hover] at hst
        simp only [Bool.and_eq_true, Bool.not_eq_true', Bool.or_eq_false_iff, beq_eq_false_iff_ne] at hst
        have hlt := hp.resolve_right (by rw [hst.2.2.1]; decide)
        have hne := hst.1.2
        unfold Build.bufLen
        omega
      · exact h.stores i w hm
    · exact h.stores i w hm

omit [Driver D] in
/-- The end of a reception. -/
theorem inBounds_done {s : Cec D} (h : InBounds s) (f : Flags) (p : Nat) :
    InBounds (receiveDone s f p) := by
  have hb : (receiveDone s f p).build = s.build := (sameTransmit_done s f p).build
  constructor
  · rw [receiveDone_rx]
    exact fun hne => absurd rfl hne
  · intro i v hm
    rw [receiveDone_heard] at hm
    rw [hb]
    refine h.stores i v ?_
    split at hm <;> simpa using hm

/-- A bit keeps the bounds, unless it comes after the reception's end, reads as a positive ack and
    finds the position past the buffer. -/
theorem inBounds_bit {s : Cec D} (h : InBounds s) (level : Bool)
    (hlate : s.rx.flags = 0 → level = false → s.rx.pos ≤ cecBufferSize) :
    InBounds (cecReceiveBit s level) := by
  have hemit : InBounds (s.emit (.bit level)) :=
    ⟨h.flagged, fun i v hm => h.stores i v (by simpa [emit_heard, Ev.ofReceive] using hm)⟩
  have hf : s.rx.flags.bitsEom = true → s.rx.flags ≠ 0 := by
    intro hb h0
    rw [h0] at hb; exact absurd hb (by decide)
  unfold cecReceiveBit
  dsimp only
  split
  · next heom =>
    have hs := kept_inBounds.sameReceive (sameReceive_checkTxBit (s.emit (.bit level)) level) hemit
    have hp := h.flagged (hf heom)
    unfold receiveDataEom
    dsimp only
    repeat' split
    · exact inBounds_byteDone hs _ _ _ hp
    all_goals exact ⟨fun _ => by rw [(sameReceive_checkTxBit _ _).rx]; exact hp, hs.stores⟩
  · have hs := kept_inBounds.sameReceive
      (sameReceive_receiveAck (s.emit (.bit level)) (s.rx.flags.ack level)) hemit
    have hrx := (sameReceive_receiveAck (s.emit (.bit level)) (s.rx.flags.ack level)).rx
    unfold receiveAck
    cases hack : s.rx.flags.ack level with
    | false =>
      rw [hack] at hs
      simp only [Bool.not_false, if_true, Bool.true_or]
      exact inBounds_done hs _ _
    | true =>
      rw [hack] at hs hrx
      simp only [Bool.not_true, Bool.false_eq_true, if_false, Bool.false_or]
      split
      · exact inBounds_done hs _ _
      · refine ⟨fun _ => ?_, hs.stores⟩
        dsimp only
        rw [hrx]
        by_cases h0 : s.rx.flags = 0
        · -- no reception: the polarity is that of a directed message
          refine .inl (hlate h0 ?_)
          rw [h0] at hack
          simpa [Flags.ack, Flags.zero_def] using hack
        · exact h.flagged h0

end

namespace Soft

/-- No poll takes a low sample after the end of a reception that went past the buffer. -/
def NoLateAck (s : Cec Soft) : Step → Prop
  | .recv delta level =>
    ¬ (SampleDue s delta ∧ s.rx.flags = 0 ∧ level = false ∧ cecBufferSize < s.rx.pos)
  | _ => True

instance (s : Cec Soft) (i : Step) : Decidable (NoLateAck s i) :=
  match i with
  | .recv .. => instDecidableNot
  | .xmit .. | .addr | .overflow | .app _ => .isTrue trivial

theorem inBounds_step {b : Build} {s : Cec Soft} (h : InBounds s ∧ s.build = b) (i : Step)
    (hi : NoLateAck s i) : InBounds (step i s) ∧ (step i s).build = b := by
  refine kept_step (kept_inBounds.and (kept_build b)) h i fun delta level hi' hdue t _ hr ht => ?_
  subst hi'
  refine ⟨inBounds_bit ht.1 level fun h0 hl => Nat.le_of_not_lt fun hp => hi ⟨hdue, ?_, hl, ?_⟩,
    (receiveBit_build t level).1.trans ht.2⟩
  · rw [← hr]; exact h0
  · rw [← hr]; exact hp

/-- Every store of a run of the soft driver is inside the buffer, if no poll of the run takes a low
    sample after the end of a reception that went past the buffer. -/
theorem stores_in_bounds (build : Build) (addr : Addr) (is : List Step)
    (h : Along NoLateAck step (boot build addr {}) is) (i v : Nat)
    (hm : .store i v ∈ (run step (boot build addr {}) is).log) : i < build.bufLen := by
  have h0 : InBounds (boot build addr ({} : Soft)) := ⟨fun hne => absurd rfl hne, fun _ _ hm => nomatch hm⟩
  have hr := invariant_run (P := NoLateAck) (fun s i hs hi => inBounds_step (b := build) hs i hi)
    ⟨h0, rfl⟩ h
  rw [← hr.2]
  exact hr.1.stores i v (List.mem_filter.mpr ⟨hm, rfl⟩)

/-! ### Polls of a line

With jiffies of a microsecond. Each list ends with the falling edge of the bit after. -/

/-- Three or two polls of one bit. -/
def pollsOfBit : Bool → List Step
  | true => [.recv 900 true, .recv 1500 false]
  | false => [.recv 900 false, .recv 600 true, .recv 900 false]

/-- A block that goes on, positively acked. -/
def pollsOfBlock (data : Nat) : List Step := (toBits 8 data ++ [false, false]).flatMap pollsOfBit

/-- The line is high, and then carries a start bit. -/
def pollsOfStart : List Step := [.recv 5000 true, .recv 100 false, .recv 3700 true, .recv 800 false]

/-- The line rises and falls again 300 us into a bit, and stays low for 1500 us. -/
def pollsOfGlitch : List Step :=
  [.recv 300 true, .recv 300 false, .recv 900 false, .recv 600 true, .recv 900 false]

/-- The first block of a message fills the buffer's second byte. -/
theorem stores_in_bounds_block : 1 < Build.bufLen {} :=
  stores_in_bounds {} .none (pollsOfStart ++ pollsOfBlock 0x11) (by decide +kernel) 1 0x11
    (by decide +kernel)

/-- A message of 17 blocks, a glitch in the bit after it, and eight more bits. -/
def overflowing : List Step :=
  pollsOfStart ++ pollsOfBlock 0x11 ++ (List.replicate 16 (pollsOfBlock 0xff)).flatten ++
    pollsOfGlitch ++ (List.replicate 8 (pollsOfBit true)).flatten

/-- The variables and the delta are within their types. -/
def Typed (s : Cec Soft) : Step → Prop
  | .recv delta _ =>
    delta < 65536 ∧ s.rx.pos < 256 ∧ s.rx.byte < 256 ∧ s.hw.receiveFrameTimer < 65536
  | _ => True

instance (s : Cec Soft) (i : Step) : Decidable (Typed s i) :=
  match i with
  | .recv .. => instDecidableAnd
  | .xmit .. | .addr | .overflow | .app _ => .isTrue trivial

/-- The error drops the `overrun` flag and leaves the sample pending; taken as a positive ack, it
    resumes the reception at position 17, two entries past the last. -/
theorem stores_past_buffer :
    Along Typed step (boot {} .none {}) overflowing ∧
    .store 18 0xff ∈ (run step (boot {} .none {}) overflowing).log ∧ ¬ 18 < Build.bufLen {} := by
  decide +kernel

end Soft

end AvrCec
