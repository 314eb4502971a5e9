import AvrCec.Bounds

/-! Messages are handed over intact.

    Abstractly the buffer is the memory that the stores, header writes and clears of the log leave
    (`replay`), and a reception is open from a start to its end or an error (`openBits`). An event is
    `Genuine` when it writes nothing while a message waits for its reader, and makes a message wait
    only on the ack bit of an open reception whose bytes are in the buffer. -/

namespace AvrCec
open Lib

/-! ### Histories -/

/-- The memory the log leaves, newest event first. -/
def replay (hdr : Nat) : List Ev → Nat → Nat
  | [] => fun _ => 0
  | .store i v :: l => Function.update (replay hdr l) i v
  | .header v :: l => Function.update (replay hdr l) hdr v
  | .clear :: l => Function.update (replay hdr l) hdr 0
  | _ :: l => replay hdr l

/-- The bits heard since the last start, if neither an ack bit nor an error has ended it. -/
def openBits : List Ev → Option (List Bool)
  | [] => none
  | .start :: _ => some []
  | .bit b :: l => (openBits l).map (· ++ [b])
  | .done :: _ => none
  | .error _ :: _ => none
  | _ :: l => openBits l

@[simp] theorem replay_bit (hdr : Nat) (b : Bool) (l : List Ev) :
    replay hdr (.bit b :: l) = replay hdr l := rfl

@[simp] theorem replay_done (hdr : Nat) (l : List Ev) : replay hdr (.done :: l) = replay hdr l := rfl

@[simp] theorem replay_store (hdr i v : Nat) (l : List Ev) :
    replay hdr (.store i v :: l) = Function.update (replay hdr l) i v := rfl

@[simp] theorem replay_header (hdr v : Nat) (l : List Ev) :
    replay hdr (.header v :: l) = Function.update (replay hdr l) hdr v := rfl

@[simp] theorem openBits_store (i v : Nat) (l : List Ev) : openBits (.store i v :: l) = openBits l := rfl

theorem openBits_bit {l : List Ev} {bits : List Bool} (h : openBits l = some bits) (b : Bool) :
    openBits (.bit b :: l) = some (bits ++ [b]) := by
  change (openBits l).map _ = _
  rw [h]; rfl

/-- The event `e` after the history `l` respects the ownership of the buffer. -/
structure Genuine (hdr : Nat) (e : Ev) (l : List Ev) : Prop where
  /-- A message is left alone until its reader clears the header. -/
  kept : replay hdr l hdr ≠ 0 → e ≠ .clear → replay hdr (e :: l) = replay hdr l
  /-- A message appears on the ack bit of an open reception, whose bytes it is made of. -/
  delivered : replay hdr l hdr = 0 → replay hdr (e :: l) hdr ≠ 0 →
    ∃ v ack l' bits n, e = .header v ∧ l = .bit ack :: l' ∧ openBits l = some bits ∧
      bits.length = 10 * (n + 1) ∧
      ∀ k < min (n + 1) cecBufferSize, replay hdr l (hdr + 1 + k) = byteAt bits k

/-- Every event of the history is genuine. -/
def History (hdr : Nat) (log : List Ev) : Prop := ∀ e l, e :: l <:+ log → Genuine hdr e l

theorem history_cons {hdr : Nat} {e : Ev} {l : List Ev} (he : Genuine hdr e l) (hl : History hdr l) :
    History hdr (e :: l) := by
  intro f m hs
  rcases List.suffix_cons_iff.mp hs with heq | hs
  · obtain ⟨rfl, rfl⟩ := List.cons.inj heq
    exact he
  · exact hl f m hs

/-- An event that writes nothing is genuine. -/
theorem genuine_quiet {hdr : Nat} {e : Ev} {l : List Ev} (h : replay hdr (e :: l) = replay hdr l) :
    Genuine hdr e l :=
  ⟨fun _ _ => h, fun h0 h1 => absurd (by rw [h, h0]) h1⟩

/-- So is a byte stored while no message waits. -/
theorem genuine_store {hdr i : Nat} {l : List Ev} (h0 : replay hdr l hdr = 0) (hi : i ≠ hdr) (v : Nat) :
    Genuine hdr (.store i v) l := by
  refine ⟨fun h => absurd h0 h, fun _ h1 => absurd ?_ h1⟩
  rw [replay_store, Function.update_of_ne hi.symm, h0]

section
variable {D : Type} [Driver D]

/-! ### The invariant -/

/-- The buffer is the one of the history, and the engine tracks the open reception. -/
structure Delivers (s : Cec D) : Prop where
  memory : s.rx.buf = replay s.build.hdr s.heard
  opened : s.rx.flags ≠ 0 → ∃ bits buf₀, openBits s.heard = some bits ∧
    Tracks s.build.hdr buf₀ bits s.rx
  history : History s.build.hdr s.heard

theorem kept_delivers : Kept (Delivers (D := D)) where
  same h hb hr hh := ⟨by rw [hb, hr, hh]; exact h.memory, by rw [hb, hr, hh]; exact h.opened,
    by rw [hb, hh]; exact h.history⟩
  start {s} h := ⟨h.memory, fun _ => ⟨[], s.rx.buf, rfl, tracks_start s⟩,
    history_cons (genuine_quiet rfl) h.history⟩
  error {s} err h := by
    obtain ⟨hrx, hb, hh⟩ := receiveError_rx s err
    split at hh
    · exact ⟨by rw [hrx, hb, hh]; exact h.memory, by rw [hrx]; exact fun hne => absurd rfl hne,
        by rw [hb, hh]; exact h.history⟩
    · exact ⟨by rw [hrx, hb, hh]; exact h.memory, by rw [hrx]; exact fun hne => absurd rfl hne,
        by rw [hb, hh]; exact history_cons (genuine_quiet rfl) h.history⟩
  clear {s} h := by
    refine ⟨?_, fun hne => ?_, history_cons ⟨fun _ hc => absurd rfl hc, fun _ h1 => ?_⟩ h.history⟩
    · change Function.update s.rx.buf s.build.hdr 0 = _
      rw [h.memory]; rfl
    · obtain ⟨bits, buf₀, hopen, ht⟩ := h.opened hne
      exact ⟨bits, _, hopen, tracks_clear ht⟩
    · exact absurd (Function.update_self ..) h1

/-- A byte completed: it is stored only into a buffer that is ours. -/
theorem delivers_done {s : Cec D} (h : Delivers s) {bits : List Bool} {buf₀ : Nat → Nat}
    (hopen : openBits s.heard = some bits) (ht : Tracks s.build.hdr buf₀ bits s.rx)
    (h7 : phase bits = 7) (b : Bool) : Delivers (cecReceiveBit s b) := by
  have ht' := tracks_data ht (by omega : phase bits ≠ 9) b
  have hsame := sameReceive_checkTxBit (s.emit (.bit b)) b
  have hb := (receiveBit_build s b).1
  have hemit : (s.emit (.bit b)).heard = .bit b :: s.heard := by simp [emit_heard, Ev.ofReceive]
  have hopen' := openBits_bit hopen b
  have hrx := congrArg Cec.rx (receiveBit_done ht h7 b)
  have hheard := congrArg Cec.heard (receiveBit_done ht h7 b)
  rw [receiveByteDone_rx, hsame.rx, hsame.build] at hrx
  rw [receiveByteDone_heard, hsame.heard, hsame.build, hemit] at hheard
  generalize ofBits (current bits ++ [b]) = v at hrx hheard
  split at hheard
  · next hst =>
    rw [if_pos hst] at hrx
    have hfree : s.rx.buf s.build.hdr = 0 := by
      unfold stored at hst
      simp only [Bool.and_eq_true, Bool.not_eq_true', Bool.or_eq_false_iff] at hst
      have hign := hst.2.1
      rw [(doneFlags_flags _ _ _ _).ignore, hsame.header, Bool.or_eq_false_iff] at hign
      rcases Nat.eq_zero_or_pos (blocks bits) with h0 | hpos
      · have := hign.2
        rw [ht.pos, h0] at this
        simpa [Cec.header] using this
      · exact ht.header.trans (ht.free hpos hign.1)
    refine ⟨?_, fun _ => ⟨bits ++ [b], buf₀, ?_, by rw [hb]; exact ht'⟩, ?_⟩
    · rw [hheard, hb, hrx, replay_store, replay_bit, ← h.memory]
      rfl
    · rw [hheard, openBits_store, hopen']
    · rw [hheard, hb]
      refine history_cons (genuine_store ?_ ?_ v) (history_cons (genuine_quiet rfl) h.history)
      · rw [replay_bit, ← h.memory]; exact hfree
      · change s.rx.pos + 1 + s.build.hdr ≠ s.build.hdr; omega
  · next hst =>
    rw [if_neg hst] at hrx
    refine ⟨?_, fun _ => ⟨bits ++ [b], buf₀, ?_, by rw [hb]; exact ht'⟩, ?_⟩
    · rw [hheard, hb, hrx, replay_bit, ← h.memory]
      rfl
    · rw [hheard, hopen']
    · rw [hheard, hb]
      exact history_cons (genuine_quiet rfl) h.history

/-- The last ack bit: the header is written only into a buffer that is ours. -/
theorem delivers_end {s : Cec D} (h : Delivers s) {bits : List Bool} {buf₀ : Nat → Nat}
    (hopen : openBits s.heard = some bits) (ht : Tracks s.build.hdr buf₀ bits s.rx)
    (h9 : phase bits = 9) {b : Bool} (hends : s.rx.ends b = true) : Delivers (cecReceiveBit s b) := by
  have hb := (receiveBit_build s b).1
  have hrx := ack_ends ht h9 hends
  have hopen' := openBits_bit hopen b
  have hblocks : 10 * blocks bits = bits.length + 1 := by unfold phase blocks at *; omega
  have hheard := ack_ends_heard ht h9 hends
  have hflags : (cecReceiveBit s b).rx.flags = 0 := by rw [hrx]
  split at hheard
  · next hign =>
    rw [if_pos hign] at hrx
    refine ⟨?_, fun hne => absurd hflags hne, ?_⟩
    · rw [hheard, hb, hrx]; exact h.memory
    · rw [hheard, hb]
      exact history_cons (genuine_quiet rfl) (history_cons (genuine_quiet rfl) h.history)
  · next hign =>
    rw [if_neg hign] at hrx
    have hign' := Bool.eq_false_iff.mpr hign
    have hfree : s.rx.buf s.build.hdr = 0 := ht.header.trans (ht.free (by omega) hign')
    refine ⟨?_, fun hne => absurd hflags hne, ?_⟩
    · rw [hheard, hb, hrx, replay_done, replay_header, replay_bit, ← h.memory]
    · rw [hheard, hb]
      refine history_cons (genuine_quiet rfl) (history_cons ⟨fun hne => ?_, fun _ _ => ?_⟩
        (history_cons (genuine_quiet rfl) h.history))
      · rw [replay_bit, ← h.memory] at hne
        exact absurd hfree hne
      · refine ⟨_, b, s.heard, bits ++ [b], blocks bits - 1, rfl, rfl, hopen', ?_, fun k hk => ?_⟩
        · rw [List.length_append, List.length_singleton]; omega
        · rw [replay_bit, ← h.memory, ht.buf, hign', byteAt_append (lt_blocks (by omega))]
          simp only [Bool.false_eq_true, if_false]
          rw [fill, if_pos (by omega)]
          congr 1; omega

/-- Every bit of a reception keeps the invariant. -/
theorem delivers_bit {s : Cec D} (h : Delivers s) (hne : s.rx.flags ≠ 0) (b : Bool) :
    Delivers (cecReceiveBit s b) := by
  obtain ⟨bits, buf₀, hopen, ht⟩ := h.opened hne
  have hb := (receiveBit_build s b).1
  have hopen' := openBits_bit hopen b
  rcases Decidable.em (phase bits = 7) with h7 | h7
  · exact delivers_done h hopen ht h7 b
  · have hgoes : (phase bits = 9 → s.rx.ends b = false) →
        Tracks s.build.hdr buf₀ (bits ++ [b]) (cecReceiveBit s b).rx →
        (cecReceiveBit s b).rx.buf = s.rx.buf → Delivers (cecReceiveBit s b) := by
      intro hgo ht' hbuf
      have hheard := receiveBit_heard ht h7 hgo
      refine ⟨by rw [hheard, hb, hbuf]; exact h.memory, fun _ => ⟨_, buf₀, ?_, by rw [hb]; exact ht'⟩, ?_⟩
      · rw [hheard]; exact hopen'
      · rw [hheard, hb]
        exact history_cons (genuine_quiet rfl) h.history
    rcases Decidable.em (phase bits = 9) with h9 | h9
    · cases hends : s.rx.ends b with
      | true => exact delivers_end h hopen ht h9 hends
      | false =>
        refine hgoes (fun _ => hends) (tracks_next ht h9 hends) ?_
        rw [receiveBit_ack (by rw [ht.bitsEom, h9]; rfl) ht.nacked, hends]
        simp only [Bool.false_eq_true, if_false, (sameReceive_receiveAck _ _).rx, emit_rx]
    · refine hgoes (fun h => absurd h h9) (tracks_data ht h9 b) ?_
      have hlt : phase bits < 10 := Nat.mod_lt _ (by norm_num)
      rcases Nat.lt_or_ge (phase bits) 7 with hp | hp
      · rw [receiveBit_shift ht hp]
      · rw [receiveBit_eom ht (by omega)]

end

/-! ### Runs -/

/-- No poll takes a sample when no reception is under way. -/
def Soft.NoOrphan (s : Cec Soft) : Soft.Step → Prop
  | .recv delta _ => Soft.SampleDue s delta → s.rx.flags ≠ 0
  | _ => True

instance (s : Cec Soft) (i : Soft.Step) : Decidable (Soft.NoOrphan s i) :=
  match i with
  | .recv delta _ => inferInstanceAs (Decidable (Soft.SampleDue s delta → s.rx.flags ≠ 0))
  | .xmit .. | .addr | .overflow | .app _ => .isTrue trivial

/-- A state whose receive side is that of an image just booted delivers. -/
theorem delivers_initial {D : Type} [Driver D] {s : Cec D} (hrx : s.rx = {}) (hlog : s.log = []) :
    Delivers s := by
  have hheard : s.heard = [] := by rw [Cec.heard, hlog]; rfl
  refine ⟨by rw [hrx, hheard]; rfl, by rw [hrx]; exact fun hne => absurd rfl hne, ?_⟩
  rw [hheard]
  exact fun _ _ hs => absurd (List.suffix_nil.mp hs) (List.cons_ne_nil _ _)

/-- The invariant holds in every run of the USI build. -/
theorem Usi.delivers_run (build : Build) (addr : Addr) (is : List Step) :
    Tracked (fun s => Delivers s ∧ s.build = build) (run step (initial build addr) is) := by
  have h0 : Tracked (fun s => Delivers s ∧ s.build = build) (initial build addr) := by
    refine ⟨⟨delivers_initial (addrInit_rx _) (addrInit_log _), addrInit_build _⟩, fun hb => ?_⟩
    rw [initial, cecInit, addrInit_hw] at hb
    exact UsiRecv.noConfusion hb
  have hstep : ∀ (s : Cec Usi) (i : Step), Tracked (fun s => Delivers s ∧ s.build = build) s →
      Tracked (fun s => Delivers s ∧ s.build = build) (step i s) := fun s i hs =>
    tracked_step (kept_delivers.and (kept_build build))
      (fun t b hne ht => ⟨delivers_bit ht.1 hne b, (receiveBit_build t b).1.trans ht.2⟩) hs i
  exact invariant_run' hstep is h0

/-- In every run of the USI build, and in every run of the soft driver that takes no sample outside of
    a reception, the buffer is what its history makes it and every event of that is genuine. -/
theorem delivery (build : Build) (addr : Addr) :
    (∀ is, (run Usi.step (Usi.initial build addr) is).rx.buf
        = replay build.hdr (run Usi.step (Usi.initial build addr) is).heard ∧
      History build.hdr (run Usi.step (Usi.initial build addr) is).heard) ∧
    ∀ is, Along Soft.NoOrphan Soft.step (Soft.initial build addr) is →
      (run Soft.step (Soft.initial build addr) is).rx.buf
        = replay build.hdr (run Soft.step (Soft.initial build addr) is).heard ∧
      History build.hdr (run Soft.step (Soft.initial build addr) is).heard := by
  constructor
  · intro is
    obtain ⟨h, hb⟩ := (Usi.delivers_run build addr is).holds
    have hmem := h.memory
    have hhist := h.history
    rw [hb] at hmem hhist
    exact ⟨hmem, hhist⟩
  · intro is hP
    have hstep : ∀ (s : Cec Soft) (i : Soft.Step), Delivers s ∧ s.build = build → Soft.NoOrphan s i →
        Delivers (Soft.step i s) ∧ (Soft.step i s).build = build := by
      intro s i hs hi
      refine Soft.kept_step (kept_delivers.and (kept_build build)) hs i
        fun delta level hi' hdue t _ hr ht => ?_
      subst hi'
      exact ⟨delivers_bit ht.1 (hr ▸ hi hdue) level, (receiveBit_build t level).1.trans ht.2⟩
    have h0 : Delivers (Soft.initial build addr) ∧ (Soft.initial build addr).build = build :=
      ⟨delivers_initial (addrInit_rx _) (addrInit_log _), addrInit_build _⟩
    obtain ⟨h, hb⟩ := invariant_run (P := Soft.NoOrphan) hstep h0 hP
    have hmem := h.memory
    have hhist := h.history
    rw [hb] at hmem hhist
    exact ⟨hmem, hhist⟩

/-- A message of two blocks. -/
def twoBlocks : List Soft.Step :=
  Soft.pollsOfStart ++ Soft.pollsOfBlock 0x14 ++ (toBits 8 0x36 ++ [true, false]).flatMap Soft.pollsOfBit

/-- It is delivered, and its reader clears it. -/
theorem delivery_cleared :
    let s := run Soft.step (Soft.initial {} .none) twoBlocks
    let t := run Soft.step (Soft.initial {} .none) (twoBlocks ++ [.app .clear])
    s.header = 2 ∧ History (Build.hdr {}) s.heard ∧ t.header = 0 ∧ History (Build.hdr {}) t.heard := by
  intro s t
  have hs := ((delivery {} .none).2 twoBlocks (by decide +kernel)).2
  have ht := ((delivery {} .none).2 (twoBlocks ++ [.app .clear]) (by decide +kernel)).2
  exact ⟨by decide +kernel, hs, by decide +kernel, ht⟩

/-- After a start bit the line rises 300 us into the first bit, falls again and is high at the sample
    point. -/
def orphaned : List Soft.Step :=
  Soft.pollsOfStart ++ [.recv 300 true, .recv 300 false, .recv 900 true]

/-- The error ends the reception, and the sample that was pending is then taken for an ack bit: a
    header is delivered although no reception is open. -/
theorem delivery_orphan : ¬ History 0 (run Soft.step (Soft.initial {} .none) orphaned).heard := by
  have hlog : (run Soft.step (Soft.initial {} .none) orphaned).heard
      = [.done, .header 0x80, .bit true, .error .lowDrive, .start] := by decide +kernel
  intro h
  rw [hlog] at h
  obtain ⟨_, _, _, bits, _, _, _, hopen, _⟩ := (h (.header 0x80) _ (List.suffix_cons ..)).delivered rfl
    (by decide)
  exact Option.some_ne_none _ hopen.symm

end AvrCec
