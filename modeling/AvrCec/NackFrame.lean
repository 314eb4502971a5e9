import AvrCec.Slots
import AvrCec.UsiRestart

/-! How long the USI driver nacks a broken broadcast.

    `cec_receive_nack_frame` marks the drive it starts; the next poll that handles an overflow takes the
    mark away, and the one after that lets the line go. An error in between would renew the mark, but
    only one of a broadcast: its header byte needs eight bits, at least three ticks apart
    (`Early`), and the two bytes decoded since the drive began have sixteen. -/

namespace AvrCec
open Lib

namespace Usi

/-- The poll handles an overflow. -/
def Handles (s : Cec Usi) : Step → Prop
  | .poll .. => s.hw.usioif = true
  | _ => False

instance (s : Cec Usi) (i : Step) : Decidable (Handles s i) :=
  match i with
  | .poll .. => inferInstanceAs (Decidable (s.hw.usioif = true))
  | .tick _ | .app _ => .isFalse id

/-- At most `n` ticks have gone by in the reception under way. -/
structure Early (n : Nat) (s : Cec Usi) : Prop where
  heard : s.rx.flags ≠ 0 → 3 * bitsSince s.calls ≤ n
  slot : s.hw.dec.recvState = .bits → ∃ k, s.hw.dec.At (bitsSince s.calls) k ∧
    3 * k + min s.hw.dec.recvFrameTick 3 ≤ n

theorem early_free {s : Cec Usi} (h : Tracked Received s) (h0 : s.rx.flags = 0) : Early 0 s :=
  ⟨fun hne => absurd h0 hne, fun hb => absurd h0 (h.synced hb)⟩

theorem Early.mono {m n : Nat} {s : Cec Usi} (h : Early m s) (hmn : m ≤ n) : Early n s :=
  ⟨fun hne => Nat.le_trans (h.heard hne) hmn,
    fun hb => (h.slot hb).imp fun _ hk => ⟨hk.1, Nat.le_trans hk.2 hmn⟩⟩

/-- A broadcast takes eight bits to be recognised. -/
theorem directed_of_few {s : Cec Usi} (h : Received s) (hn : s.rx.flags ≠ 0 → bitsSince s.calls < 8) :
    s.rx.flags.bcast = false := by
  by_contra hb
  have h0 : s.rx.flags ≠ 0 := fun h0 => hb (by rw [h0]; rfl)
  obtain ⟨bits, buf₀, hopen, htr⟩ := h.1.opened h0
  rw [← openBits_filter, ← calls_eq] at hopen
  have hfew := hn h0
  rw [bitsSince_open hopen] at hfew
  obtain ⟨k, hk, -⟩ := htr.bcast.mp (Bool.eq_true_of_not_eq_false hb)
  have hlt := lt_blocks hk
  omega

/-! ### One tick -/

/-- The nack side of the driver: whether it drives the line, and whether it has begun to since the last
    overflow. -/
def drive (s : Cec Usi) : Bool × Bool := (s.hw.driven, s.hw.nacking)

theorem drive_onError (s : Cec Usi) (err : Err) : drive (cecTransmitOnError s err) = drive s := by
  rw [drive, onError_hw]
  split <;> rfl

theorem drive_receiveBit (s : Cec Usi) (b : Bool) : drive (cecReceiveBit s b) = drive s := by
  rw [drive, (sameTransmit_receiveBit s b).hw, heardByTransmit]
  split
  · rw [cecCheckTxBit]
    split
    · exact drive_onError _ _
    · rfl
  · rw [cecTransmitReceiveAck]
    split
    · split <;> rfl
    · exact drive_onError _ _

/-- An error drives the line in a broadcast. -/
theorem drive_receiveError (s : Cec Usi) (err : Err) :
    drive (cecReceiveError s err) = if s.rx.flags.bcast then (true, true) else drive s := by
  by_cases h0 : s.rx.flags = 0
  · rw [receiveError_zero h0, h0]
    rfl
  · rw [drive, receiveError_hw s err h0]
    dsimp only
    split <;> split <;> rfl

theorem drive_call (s : Cec Usi) (c : Call) : drive (s.call c) = drive s ∨
    s.rx.flags.bcast = true ∧ drive (s.call c) = (true, true) ∧ (s.call c).rx.flags = 0 := by
  cases c with
  | none => exact .inl rfl
  | start => exact .inl rfl
  | error err =>
    change drive (cecReceiveError s err) = _ ∨ _ ∧ drive (cecReceiveError s err) = _ ∧
      (cecReceiveError s err).rx.flags = 0
    rw [drive_receiveError, (receiveError_rx s err).1]
    split
    · next hb => exact .inr ⟨hb, rfl, rfl⟩
    · exact .inl rfl

/-- A tick leaves the drive alone, or drives the line at the end of a reception. -/
theorem tick_drive (s : Cec Usi) (b : Bool) : drive (cecProcessTick s b) = drive s ∨
    drive (cecProcessTick s b) = (true, true) ∧ (cecProcessTick s b).rx.flags = 0 := by
  rw [processTick_eq]
  dsimp only
  split
  · rcases drive_call (cecReceiveBit s b)
      ((s.hw.dec.count.after (cecReceiveBit s b).rx.flags).edge b).2 with h | ⟨-, h⟩
    · exact .inl (h.trans (drive_receiveBit s b))
    · exact .inr h
  · rcases drive_call s (s.hw.dec.count.edge b).2 with h | ⟨-, h⟩
    · exact .inl h
    · exact .inr h

/-- A falling edge restarts the tick count, and none is accepted before its time. -/
theorem edge_tick (d : Decoder) (b : Bool) : (d.edge b).1.recvFrameTick = d.recvFrameTick ∨
    (d.edge b).1.recvFrameTick = 0 ∧ ((d.edge b).1.recvState = .bits → d.minFrameTicks ≤ d.recvFrameTick) := by
  rcases Bool.eq_or_eq_not d.recvLastBit b with heq | hne
  · rw [Decoder.edge_hold heq, Decoder.hold]
    split <;> exact .inl rfl
  · cases b with
    | false =>
      rw [Decoder.edge_fall hne, Decoder.fall]
      split
      · exact .inr ⟨rfl, UsiRecv.noConfusion⟩
      · next hearly =>
        have hle := Nat.le_of_not_lt hearly
        split <;> exact .inr ⟨rfl, fun _ => hle⟩
    | true =>
      rw [Decoder.edge_rise hne, Decoder.rise]
      split <;> exact .inl rfl

theorem tick_tick (s : Cec Usi) (b : Bool) :
    (cecProcessTick s b).hw.dec.recvFrameTick = s.hw.dec.count.recvFrameTick ∨
      (cecProcessTick s b).hw.dec.recvFrameTick = 0 ∧ ((cecProcessTick s b).hw.dec.recvState = .bits →
        s.hw.dec.minFrameTicks ≤ s.hw.dec.count.recvFrameTick) := by
  rw [processTick_eq]
  dsimp only
  split
  · exact edge_tick (s.hw.dec.count.after _) b
  · exact edge_tick s.hw.dec.count b

theorem Early.sampled {n k : Nat} {s : Cec Usi} (hs : s.hw.dec.count.sampling)
    (hat : s.hw.dec.At (bitsSince s.calls) k) (hk : 3 * k + min s.hw.dec.recvFrameTick 3 ≤ n) :
    3 * (bitsSince s.calls + 1) ≤ n + 1 := by
  have h3 : min (s.hw.dec.recvFrameTick + 1) 255 = 3 := hs.2
  have hheard := hat.heard
  rw [if_pos (by omega)] at hheard
  omega

/-- One more tick. -/
theorem Early.tick {n : Nat} {s : Cec Usi} (h : Early n s) (hs : Slotted s) (b : Bool) :
    Early (n + 1) (cecProcessTick s b) := by
  have hslot : (cecProcessTick s b).hw.dec.recvState = .bits →
      ∃ k, (cecProcessTick s b).hw.dec.At (bitsSince (cecProcessTick s b).calls) k ∧
        3 * k + min (cecProcessTick s b).hw.dec.recvFrameTick 3 ≤ n + 1 := by
    intro hb
    by_cases hd : s.hw.dec.recvState = .bits
    · obtain ⟨k, hat, hk⟩ := h.slot hd
      refine ⟨_, tick_at hs hd hat hb, ?_⟩
      have hcount : s.hw.dec.count.recvFrameTick = min (s.hw.dec.recvFrameTick + 1) 255 := rfl
      rcases tick_tick s b with ht | ⟨ht, hmin⟩
      · rw [ht, hcount, if_neg (by omega)]
        omega
      · -- the next slot opens at the sixth tick or later
        have h6 := hmin hb
        rw [(hs.valid.bits hd).1, hcount] at h6
        rw [ht, if_pos rfl]
        omega
    · obtain ⟨hat, h0⟩ := tick_opens hd hb
      refine ⟨0, hat, ?_⟩
      rw [h0]
      omega
  refine ⟨fun h0 => ?_, hslot⟩
  by_cases hb : (cecProcessTick s b).hw.dec.recvState = .bits
  · obtain ⟨k, hat, hk⟩ := hslot hb
    have hheard := hat.heard
    split at hheard <;> omega
  · have ha : ¬ Accepted (cecProcessTick s b) := fun ha => hb ha.1
    rw [tick_hears hs ha]
    split
    · next hsample =>
      obtain ⟨k, hat, hk⟩ := h.slot hsample.1
      exact Early.sampled hsample hat hk
    · next hsample =>
      have hne : s.rx.flags ≠ 0 := by
        rw [processTick_eq] at h0 ha
        dsimp only at h0 ha
        rw [if_neg hsample] at h0 ha
        have hstart := Decoder.edge_start ha
        intro hz
        refine h0 ?_
        change (s.call (s.hw.dec.count.edge b).2).rx.flags = 0
        cases hc : (s.hw.dec.count.edge b).2 with
        | none => exact hz
        | start => exact absurd hc hstart
        | error err =>
          change (cecReceiveError s err).rx.flags = 0
          rw [(receiveError_rx s err).1]
      have := h.heard hne
      omega

/-- While no broadcast can have been recognised no tick drives the line. -/
theorem Early.drive_tick {n : Nat} {s : Cec Usi} (h : Early n s) (hs : Slotted s) (hn : n + 1 < 24) (b : Bool) :
    drive (cecProcessTick s b) = drive s := by
  rw [processTick_eq]
  dsimp only
  split
  · next hsample =>
    have hne := hs.tracked.synced hsample.1
    obtain ⟨hrec, hcount⟩ := received_bit hs.tracked.holds hne b
    obtain ⟨k, hat, hk⟩ := h.slot hsample.1
    have hfew := Early.sampled hsample hat hk
    have hdirected := directed_of_few hrec fun _ => by rw [hcount]; omega
    rcases drive_call (cecReceiveBit s b)
      ((s.hw.dec.count.after (cecReceiveBit s b).rx.flags).edge b).2 with hd | ⟨hb, -⟩
    · exact hd.trans (drive_receiveBit s b)
    · rw [hdirected] at hb
      exact Bool.noConfusion hb
  · have hdirected := directed_of_few hs.tracked.holds fun h0 => by have := h.heard h0; omega
    rcases drive_call s (s.hw.dec.count.edge b).2 with hd | ⟨hb, -⟩
    · exact hd
    · rw [hdirected] at hb
      exact Bool.noConfusion hb

/-! ### A byte -/

theorem Early.ticks {n : Nat} {s : Cec Usi} (h : Early n s) (hs : Slotted s) {l : List Bool}
    (hn : n + l.length < 24) :
    Early (n + l.length) (l.foldl cecProcessTick s) ∧ drive (l.foldl cecProcessTick s) = drive s := by
  induction l generalizing n s with
  | nil => exact ⟨h, rfl⟩
  | cons b l ih =>
    rw [List.length_cons] at hn ⊢
    obtain ⟨hearly, hdrive⟩ := ih (h.tick hs b) (slotted_tick hs b) (by omega)
    refine ⟨hearly.mono (by omega), hdrive.trans ?_⟩
    exact h.drive_tick hs (by omega) b

/-- The ticks of a byte leave the drive alone, or start one that is no older than they are. -/
theorem ticks_drive {s : Cec Usi} (hs : Slotted s) (l : List Bool) :
    drive (l.foldl cecProcessTick s) = drive s ∨
      drive (l.foldl cecProcessTick s) = (true, true) ∧ Early (l.length - 1) (l.foldl cecProcessTick s) := by
  -- a drive that has begun stays as it is
  have hkeep : ∀ (l : List Bool) (n : Nat) (s : Cec Usi), Slotted s → drive s = (true, true) → Early n s →
      drive (l.foldl cecProcessTick s) = (true, true) ∧ Early (n + l.length) (l.foldl cecProcessTick s) := by
    intro l
    induction l with
    | nil => exact fun n s _ hd he => ⟨hd, he⟩
    | cons b l ih =>
      intro n s hs hd he
      have hd' : drive (cecProcessTick s b) = (true, true) := by
        rcases tick_drive s b with h | ⟨h, -⟩
        · exact h.trans hd
        · exact h
      obtain ⟨hdrive, hearly⟩ := ih (n + 1) (cecProcessTick s b) (slotted_tick hs b) hd' (he.tick hs b)
      rw [List.length_cons]
      exact ⟨hdrive, hearly.mono (by omega)⟩
  induction l generalizing s with
  | nil => exact .inl rfl
  | cons b l ih =>
    rcases tick_drive s b with h | ⟨h, h0⟩
    · rcases ih (slotted_tick hs b) with hl | ⟨hl, he⟩
      · exact .inl (hl.trans h)
      · exact .inr ⟨hl, he.mono (by rw [List.length_cons]; omega)⟩
    · obtain ⟨hd, he⟩ := hkeep l 0 _ (slotted_tick hs b) h (early_free (slotted_tick hs b).tracked h0)
      exact .inr ⟨hd, he.mono (by rw [List.length_cons]; omega)⟩

/-! ### Runs -/

/-- `t` is as far into its reception as `s`, and drives the line as `s` does. -/
structure Still (s t : Cec Usi) : Prop where
  dec : ∃ done, t.hw.dec = { s.hw.dec with ackDone := done }
  flags : t.rx.flags = s.rx.flags
  calls : t.calls = s.calls
  drive : drive t = drive s

theorem Still.trans {s t u : Cec Usi} (h₁ : Still s t) (h₂ : Still t u) : Still s u := by
  obtain ⟨d₁, hd₁⟩ := h₁.dec
  obtain ⟨d₂, hd₂⟩ := h₂.dec
  exact ⟨⟨d₂, by rw [hd₂, hd₁]⟩, h₂.flags.trans h₁.flags, h₂.calls.trans h₁.calls, h₂.drive.trans h₁.drive⟩

theorem Early.still {n : Nat} {s t : Cec Usi} (h : Early n s) (hst : Still s t) : Early n t := by
  obtain ⟨done, hd⟩ := hst.dec
  refine ⟨?_, ?_⟩
  · rw [hst.flags, hst.calls]
    exact h.heard
  · rw [hst.calls, hd]
    exact fun hb => (h.slot hb).imp fun _ hk => ⟨⟨hk.1.frame, hk.1.heard⟩, hk.2⟩

theorem still_checkFloat (s : Cec Usi) (others : Bool) : Still s (checkFloat s others) := by
  refine ⟨⟨s.hw.dec.ackDone, checkFloat_dec s others⟩, ?_, calls_checkFloat s others, ?_⟩
  · rw [(sameReceive_checkFloat s others).rx]
  · rw [checkFloat]
    dsimp only
    split
    · exact drive_onError { s with hw := loadFloatMax s.hw } .arbLost
    · rfl

theorem still_writeOut (s : Cec Usi) : Still s (writeOut s) := by
  refine ⟨⟨s.hw.dec.ackDone, nextBit_dec s⟩, ?_, calls_writeOut s, ?_⟩
  · exact congrArg Receive.flags (nextBit_rx s)
  · change drive (cecUsiNextBit s).1 = drive s
    rw [cecUsiNextBit]
    split
    · split <;> rfl
    · rfl
    · rfl

theorem still_handleAck (s : Cec Usi) (others : Bool) : Still s (handleAck s others) := by
  have hack : ∀ (u : Usi) (acks : Nat), ((cecReceiveDoAck u acks).driven, (cecReceiveDoAck u acks).nacking)
      = (u.driven, u.nacking) := by
    intro u acks
    rw [cecReceiveDoAck]
    split
    · rfl
    · dsimp only
      split <;> rfl
  refine ⟨handleAck_dec s others, congrArg Receive.flags (handleAck_rx s others), calls_handleAck s others, ?_⟩
  rw [handleAck]
  dsimp only
  repeat' split
  · exact hack ..
  · exact hack ..
  · rfl
  · rfl

theorem still_addrPeriodic (s : Cec Usi) : Still s (cecAddrPeriodic s) := by
  refine ⟨⟨s.hw.dec.ackDone, congrArg Usi.dec (addrPeriodic_hw s)⟩, addrPeriodic_flags s, calls_addrPeriodic s, ?_⟩
  rw [drive, addrPeriodic_hw]
  rfl

/-- A step that handles no overflow. -/
theorem still_step {s : Cec Usi} {i : Step} (h : ¬ Handles s i) : Still s (step i s) := by
  cases i with
  | tick others =>
    refine ⟨⟨s.hw.dec.ackDone, clock_dec s.hw others⟩, rfl, rfl, ?_⟩
    change ((s.hw.clock others).driven, (s.hw.clock others).nacking) = _
    rw [clock]
    split <;> rfl
  | poll others₁ others₂ =>
    change Still s (cecAddrPeriodic (cecReceivePeriodic s others₁ others₂))
    refine Still.trans ?_ (still_addrPeriodic _)
    rw [cecReceivePeriodic, if_neg (by exact h)]
    exact (still_checkFloat s others₁).trans (still_handleAck _ others₂)
  | app a =>
    refine ⟨⟨s.hw.dec.ackDone, congrArg Usi.dec (app_hw s a)⟩, app_flags s a, calls_app s a, ?_⟩
    change drive (a.step s) = drive s
    rw [drive, app_hw]
    rfl

/-- A step that does: the mark is taken away, an unmarked drive ends, and a byte is decoded. -/
theorem handled_step {s : Cec Usi} {i : Step} (h : Handles s i) : ∃ u l, List.length l = 8 ∧
    (Slotted s → Slotted u) ∧ (∀ n, Early n s → Early n u) ∧
    drive u = (s.hw.driven && s.hw.nacking, false) ∧ Still (l.foldl cecProcessTick u) (step i s) := by
  cases i with
  | tick others => exact h.elim
  | app a => exact h.elim
  | poll others₁ others₂ =>
    have hfloat := still_checkFloat s others₁
    refine ⟨counted (checkFloat s others₁), byteTicks (checkFloat s others₁).hw.usibr, ?_,
      fun hs => slotted_counted hs others₁, fun n he => ?_, ?_, ?_⟩
    · rw [byteTicks, List.length_map, List.length_range]
    · have he' := he.still hfloat
      exact ⟨he'.heard, he'.slot⟩
    · obtain ⟨hdriven, hnacking⟩ := Prod.mk.inj hfloat.drive
      change ((checkFloat s others₁).hw.driven && (checkFloat s others₁).hw.nacking, false) = _
      rw [hdriven, hnacking]
    · change Still _ (cecAddrPeriodic (cecReceivePeriodic s others₁ others₂))
      refine Still.trans ?_ (still_addrPeriodic _)
      rw [cecReceivePeriodic, if_pos (by exact h), handleOverflow_eq]
      exact (still_writeOut _).trans (still_handleAck _ others₂)

/-- A drive that bears its mark is at most a byte old, one that does not at most two. -/
structure NackTimed (s : Cec Usi) : Prop where
  slotted : Slotted s
  marked : s.hw.nacking = true → s.hw.driven = true ∧ Early 7 s
  unmarked : s.hw.driven = true → Early 15 s

theorem nackTimed_step {s : Cec Usi} (h : NackTimed s) (i : Step) : NackTimed (step i s) := by
  have hslotted := slotted_step h.slotted i
  by_cases hi : Handles s i
  · obtain ⟨u, l, hlen, hu, hearly, hdrive, hst⟩ := handled_step hi
    obtain ⟨hdriven, hnacking⟩ := Prod.mk.inj hst.drive
    rcases ticks_drive (hu h.slotted) l with hd | ⟨hd, he⟩
    · obtain ⟨hd₁, hd₂⟩ := Prod.mk.inj (hd.trans hdrive)
      rw [hd₂] at hnacking
      rw [hd₁] at hdriven
      refine ⟨hslotted, fun hn => ?_, fun hr => ?_⟩
      · rw [hnacking] at hn
        exact Bool.noConfusion hn
      · rw [hdriven, Bool.and_eq_true] at hr
        have hold := (hearly 7 (h.marked hr.2).2).ticks (hu h.slotted) (l := l) (by omega)
        rw [hlen] at hold
        exact hold.1.still hst
    · obtain ⟨hd₁, hd₂⟩ := Prod.mk.inj hd
      have hyoung : Early 7 (step i s) := by
        rw [hlen] at he
        exact he.still hst
      exact ⟨hslotted, fun _ => ⟨hdriven.trans hd₁, hyoung⟩, fun _ => hyoung.mono (by omega)⟩
  · have hst := still_step hi
    obtain ⟨hdriven, hnacking⟩ := Prod.mk.inj hst.drive
    refine ⟨hslotted, fun hn => ?_, fun hr => (h.unmarked (hdriven ▸ hr)).still hst⟩
    obtain ⟨hr, he⟩ := h.marked (hnacking ▸ hn)
    exact ⟨hdriven.trans hr, he.still hst⟩

theorem nackTimed_run (build : Build) (addr : Addr) (is : List Step) :
    NackTimed (run step (initial build addr) is) := by
  have h0 : NackTimed (initial build addr) := by
    have hslotted := slotted_run build addr []
    have hfree : drive (initial build addr) = (false, false) := by
      rw [drive, initial, cecInit, addrInit_hw]
      rfl
    obtain ⟨hdriven, hnacking⟩ := Prod.mk.inj hfree
    refine ⟨hslotted, fun hn => ?_, fun hr => ?_⟩
    · rw [hnacking] at hn
      exact Bool.noConfusion hn
    · rw [hdriven] at hr
      exact Bool.noConfusion hr
  have hstep : ∀ (s : Cec Usi) (i : Step), NackTimed s → NackTimed (step i s) := fun s i hs => nackTimed_step hs i
  exact invariant_run' hstep is h0

/-- The overflow handled after that leaves the drive without its mark, and the next one ends it: in
    neither does a tick drive the line anew. -/
theorem handled_timed {s : Cec Usi} (h : NackTimed s) (hr : s.hw.driven = true) {i : Step} (hi : Handles s i) :
    drive (step i s) = (s.hw.nacking, false) := by
  obtain ⟨u, l, hlen, hu, hearly, hdrive, hst⟩ := handled_step hi
  have hkept := ((hearly 15 (h.unmarked hr)).ticks (hu h.slotted) (l := l) (by omega)).2
  rw [hst.drive, hkept, hdrive, hr, Bool.true_and]

/-- A drive that `cec_receive_nack_frame` has started is over once two overflows have been handled. -/
theorem nack_released {s : Cec Usi} (h : NackTimed s) (hn : s.hw.nacking = true) (js : List Step)
    (h2 : countAlong Handles step s js = 2) : (run step s js).hw.driven = false := by
  have hover : ∀ (js : List Step) (s : Cec Usi), NackTimed s → s.hw.driven = false →
      countAlong Handles step s js = 0 → (run step s js).hw.driven = false := by
    intro js
    induction js with
    | nil => exact fun s _ hr _ => hr
    | cons j js ih =>
      intro s h hr h0
      rw [countAlong] at h0
      split at h0
      · omega
      · next hj =>
        have hdriven := (Prod.mk.inj (still_step hj).drive).1
        exact ih _ (nackTimed_step h j) (hdriven.trans hr) (by omega)
  have hunmarked : ∀ (js : List Step) (s : Cec Usi), NackTimed s → s.hw.driven = true → s.hw.nacking = false →
      countAlong Handles step s js = 1 → (run step s js).hw.driven = false := by
    intro js
    induction js with
    | nil => exact fun s _ _ _ h0 => absurd h0 (by rw [countAlong]; decide)
    | cons j js ih =>
      intro s h hr hn h1
      rw [countAlong] at h1
      split at h1
      · next hj =>
        have hdriven := (Prod.mk.inj (handled_timed h hr hj)).1
        exact hover js _ (nackTimed_step h j) (hdriven.trans hn) (by omega)
      · next hj =>
        obtain ⟨hdriven, hnacking⟩ := Prod.mk.inj (still_step hj).drive
        exact ih _ (nackTimed_step h j) (hdriven.trans hr) (hnacking.trans hn) (by omega)
  induction js generalizing s with
  | nil => exact absurd h2 (by rw [countAlong]; decide)
  | cons j js ih =>
    rw [countAlong] at h2
    split at h2
    · next hj =>
      obtain ⟨hdriven, hnacking⟩ := Prod.mk.inj (handled_timed h (h.marked hn).1 hj)
      exact hunmarked js _ (nackTimed_step h j) (hdriven.trans hn) hnacking (by omega)
    · next hj =>
      have hnacking := (Prod.mk.inj (still_step hj).drive).2
      exact ih (nackTimed_step h j) (hnacking.trans hn) (by omega)

end Usi

end AvrCec
