import AvrCec.Heard
import AvrCec.Mail

/-! Whether anyone listens while the USI driver sends.

    The driver never asks whether its own receive side tracks what it sends. So long as it does when
    the first data bit is read back, and no reception is completed before the last bit is out
    (`Followed`), a reception is open through the rest of every attempt, and the attempt cannot outlast
    it: on an idle line the decoder gives up within three bytes (`listens_while_sending`). Otherwise
    the transmitter talks to nobody and then waits for an ack forever (`unheard_attempt`). -/

namespace AvrCec
open Lib

/-- The bits fetched in the attempt under way. -/
def sofar (l : List Ev) : List Bool := (fetched l).getD []

namespace Usi

/-! ### Idle bytes -/

/-- A high tick: no counter is reset, and one that is overdue ends the reception. -/
theorem high_tick {s : Cec Usi} (hv : s.hw.dec.Valid) :
    let t := cecProcessTick s true
    t.hw.dec.recvFrameTick = min (s.hw.dec.recvFrameTick + 1) 255 ∧ t.hw.dec.recvLastBit = true ∧
      (s.hw.dec.recvLastBit = true → 16 ≤ s.hw.dec.recvFrameTick →
        t.rx.flags = 0 ∧ t.hw.dec.recvState = .idle) := by
  have hedge : ∀ d : Decoder, (d.edge true).1.recvFrameTick = d.recvFrameTick ∧ (d.edge true).1.recvLastBit = true := by
    intro d
    rcases Bool.eq_false_or_eq_true d.recvLastBit with hb | hb
    · rw [Decoder.edge_hold hb, Decoder.hold]
      split <;> exact ⟨rfl, rfl⟩
    · rw [Decoder.edge_rise hb, Decoder.rise]
      split <;> exact ⟨rfl, rfl⟩
  have hover : ∀ (t : Cec Usi) (d : Decoder), d.recvLastBit = true → d.maxFrameTicks < d.recvFrameTick →
      (t.call (d.edge true).2).rx.flags = 0 ∧ (d.edge true).1.recvState = .idle := by
    intro t d hb hlt
    rw [Decoder.edge_hold hb, Decoder.hold, if_pos hlt]
    refine ⟨?_, rfl⟩
    change (cecReceiveError t .noEom).rx.flags = 0
    rw [(receiveError_rx t .noEom).1]
  have hlate : 16 ≤ s.hw.dec.recvFrameTick → s.hw.dec.count.maxFrameTicks < s.hw.dec.count.recvFrameTick := by
    intro h16
    have hmax := hv.window.2
    change s.hw.dec.maxFrameTicks < min (s.hw.dec.recvFrameTick + 1) 255
    omega
  intro t
  change (cecProcessTick s true).hw.dec.recvFrameTick = _ ∧ (cecProcessTick s true).hw.dec.recvLastBit = true ∧
    (_ → _ → (cecProcessTick s true).rx.flags = 0 ∧ (cecProcessTick s true).hw.dec.recvState = .idle)
  rw [processTick_eq]
  dsimp only
  split
  · exact ⟨(hedge _).1, (hedge _).2, fun hb h16 => hover _ (s.hw.dec.count.after _) hb (hlate h16)⟩
  · exact ⟨(hedge _).1, (hedge _).2, fun hb h16 => hover s s.hw.dec.count hb (hlate h16)⟩

/-- The idle bytes counted have been high throughout, and after three no reception is left. -/
structure Rested (s : Cec Usi) : Prop where
  high : 0 < s.hw.idleFrames → s.hw.dec.recvLastBit = true ∧
    min (8 * s.hw.idleFrames) 255 ≤ s.hw.dec.recvFrameTick
  ended : 3 ≤ s.hw.idleFrames → s.rx.flags = 0 ∧ s.hw.dec.recvState = .idle

/-- The ticks of an idle byte. -/
theorem high_ticks {s : Cec Usi} (hv : s.hw.dec.Valid) (n : Nat) :
    let t := (List.replicate n true).foldl cecProcessTick s
    (0 < n → t.hw.dec.recvLastBit = true) ∧ min (s.hw.dec.recvFrameTick + n) 255 ≤ t.hw.dec.recvFrameTick ∧
      (s.hw.dec.recvLastBit = true → 16 ≤ s.hw.dec.recvFrameTick → 0 < n →
        t.rx.flags = 0 ∧ t.hw.dec.recvState = .idle) := by
  induction n with
  | zero => exact ⟨fun h => absurd h (Nat.lt_irrefl 0), Nat.min_le_left .., fun _ _ h => absurd h (Nat.lt_irrefl 0)⟩
  | succ n ih =>
    intro t
    have ht : t = cecProcessTick ((List.replicate n true).foldl cecProcessTick s) true := by
      rw [← List.foldl_concat cecProcessTick s true (List.replicate n true), ← List.replicate_succ']
    obtain ⟨hlast, htick, -⟩ := ih
    obtain ⟨htick', hlast', hover⟩ := high_tick (valid_ticks hv (List.replicate n true))
    rw [ht]
    refine ⟨fun _ => hlast', ?_, fun hb h16 _ => hover ?_ ?_⟩
    · rw [htick']; omega
    · rcases Nat.eq_zero_or_pos n with rfl | hn
      · exact hb
      · exact hlast hn
    · have := hv.tick
      omega

theorem undecoded_idleFrames : Undecoded Usi.idleFrames := ⟨⟨fun _ => rfl, fun _ _ => rfl⟩, fun _ _ => rfl⟩

theorem checkFloat_idleFrames (s : Cec Usi) (others : Bool) :
    (checkFloat s others).hw.idleFrames = s.hw.idleFrames := by
  rw [checkFloat]
  dsimp only
  split
  · exact undecoded_idleFrames.onError ..
  · rfl

theorem sameReceive_checkFloat (s : Cec Usi) (others : Bool) : SameReceive s (checkFloat s others) := by
  have h := sameReceive_onError { s with hw := loadFloatMax s.hw } .arbLost
  rw [checkFloat]
  dsimp only
  split
  · exact ⟨h.build, h.rx, h.addr, h.heard⟩
  · exact ⟨rfl, rfl, rfl, rfl⟩

/-- The check at the top of a poll ends the attempt or does nothing to it. -/
theorem checkFloat_busy {s : Cec Usi} {others : Bool} (hb : (checkFloat s others).tx.state.busy) :
    (checkFloat s others).tx = s.tx ∧ (checkFloat s others).told = s.told := by
  rw [checkFloat] at hb ⊢
  dsimp only at hb ⊢
  split at hb
  · exact absurd hb (onError_free _ _)
  · next h =>
    rw [if_neg h]
    exact ⟨rfl, rfl⟩

theorem nextBit_rx (s : Cec Usi) : (cecUsiNextBit s).1.rx = s.rx := by
  rw [cecUsiNextBit]
  split
  · split <;> rfl
  · rfl
  · rfl

theorem nextBit_idleFrames (s : Cec Usi) : (cecUsiNextBit s).1.hw.idleFrames = s.hw.idleFrames := by
  rw [cecUsiNextBit]
  split
  · split <;> rfl
  · rfl
  · rfl

theorem doAck_idleFrames (u : Usi) (acks : Nat) : (cecReceiveDoAck u acks).idleFrames = u.idleFrames := by
  rw [cecReceiveDoAck]
  split
  · rfl
  · dsimp only
    split <;> rfl

theorem handleAck_idleFrames (s : Cec Usi) (others : Bool) :
    (handleAck s others).hw.idleFrames = s.hw.idleFrames := by
  rw [handleAck]
  dsimp only
  repeat' split
  · exact doAck_idleFrames ..
  · exact doAck_idleFrames ..
  · rfl
  · rfl

theorem handleAck_rx (s : Cec Usi) (others : Bool) : (handleAck s others).rx = s.rx := by
  rw [handleAck]
  dsimp only
  repeat' split
  all_goals rfl

theorem addrPeriodic_flags (s : Cec Usi) : (cecAddrPeriodic s).rx.flags = s.rx.flags := by
  rw [cecAddrPeriodic]
  dsimp only
  repeat' split
  all_goals rfl

theorem app_flags (s : Cec Usi) (a : App) : (a.step s).rx.flags = s.rx.flags := by
  cases a with
  | clear => rfl
  | send message =>
    rw [App.step]
    split <;> rfl
  | assign m =>
    rw [App.step]
    split <;> rfl

/-- The next byte is written out to the transmit side only. -/
theorem rested_writeOut {s : Cec Usi} (h : Rested s) : Rested (writeOut s) := by
  have hdec : (writeOut s).hw.dec = s.hw.dec := nextBit_dec s
  have hrx : (writeOut s).rx = s.rx := nextBit_rx s
  have hidle : (writeOut s).hw.idleFrames = s.hw.idleFrames := nextBit_idleFrames s
  exact ⟨by rw [hidle, hdec]; exact h.high, by rw [hidle, hdec, hrx]; exact h.ended⟩

theorem rested_decoded {s : Cec Usi} (h : Rested s) (hv : s.hw.dec.Valid) : Rested (decoded s) := by
  have hidle : (decoded s).hw.idleFrames = (countIdle (floatNack s.hw) s.hw.usibr).idleFrames :=
    undecoded_idleFrames.ticks _ _
  by_cases hbr : s.hw.usibr = 0
  · have hcount : (decoded s).hw.idleFrames = min (s.hw.idleFrames + 1) 255 := by
      rw [hidle, countIdle, if_neg (not_not_intro hbr)]
      rfl
    have hbyte : byteTicks s.hw.usibr = List.replicate 8 true := by rw [hbr]; decide
    obtain ⟨hlast, htick, hover⟩ := high_ticks (s := { s with hw := countIdle (floatNack s.hw) s.hw.usibr }) hv 8
    have hdec : decoded s = (List.replicate 8 true).foldl cecProcessTick
        { s with hw := countIdle (floatNack s.hw) s.hw.usibr } := by rw [decoded, hbyte]
    have hold : 0 < s.hw.idleFrames → s.hw.dec.recvLastBit = true ∧
        min (8 * s.hw.idleFrames) 255 ≤ s.hw.dec.recvFrameTick := h.high
    rw [← hdec] at hlast htick hover
    refine ⟨fun _ => ⟨hlast (by omega), ?_⟩, fun h3 => ?_⟩
    · rw [hcount]
      refine Nat.le_trans ?_ htick
      change min (8 * min (s.hw.idleFrames + 1) 255) 255 ≤ min (s.hw.dec.recvFrameTick + 8) 255
      rcases Nat.eq_zero_or_pos s.hw.idleFrames with h0 | hpos
      · omega
      · have := (hold hpos).2
        omega
    · rw [hcount] at h3
      obtain ⟨hb, ht⟩ := hold (by omega)
      exact hover hb (by change 16 ≤ s.hw.dec.recvFrameTick; omega) (by omega)
  · have hzero : (decoded s).hw.idleFrames = 0 := by rw [hidle, countIdle, if_pos hbr]
    exact ⟨fun hpos => absurd hpos (by rw [hzero]; decide), fun h3 => absurd h3 (by rw [hzero]; decide)⟩

/-- What the rest of a poll leaves alone of the receive side. -/
theorem rested_poll {s : Cec Usi} (h : Rested s) (hv : s.hw.dec.Valid) (others₁ others₂ : Bool) :
    Rested (cecReceivePeriodic s others₁ others₂) := by
  have hfloat : Rested (checkFloat s others₁) := by
    refine ⟨?_, ?_⟩
    · rw [checkFloat_idleFrames, checkFloat_dec]; exact h.high
    · rw [checkFloat_idleFrames, checkFloat_dec, (sameReceive_checkFloat s others₁).rx]; exact h.ended
  have hack : ∀ t : Cec Usi, Rested t → Rested (handleAck t others₂) := by
    intro t ht
    obtain ⟨done, hdec⟩ := handleAck_dec t others₂
    have hrx : (handleAck t others₂).rx = t.rx := handleAck_rx t others₂
    have hidle : (handleAck t others₂).hw.idleFrames = t.hw.idleFrames := handleAck_idleFrames t others₂
    exact ⟨by rw [hidle, hdec]; exact ht.high, by rw [hidle, hdec, hrx]; exact ht.ended⟩
  rw [cecReceivePeriodic]
  split
  · exact hack _ (rested_writeOut (rested_decoded hfloat (checkFloat_dec s others₁ ▸ hv)))
  · exact hack _ hfloat

theorem rested_step {s : Cec Usi} (h : Rested s) (hv : s.hw.dec.Valid) (i : Step) : Rested (step i s) := by
  cases i with
  | tick others =>
    have hdec : (s.hw.clock others).dec = s.hw.dec ∧ (s.hw.clock others).idleFrames = s.hw.idleFrames := by
      rw [clock]
      split <;> exact ⟨rfl, rfl⟩
    refine ⟨?_, ?_⟩
    · rw [step, hdec.1, hdec.2]; exact h.high
    · rw [step, hdec.1, hdec.2]; exact h.ended
  | poll others₁ others₂ =>
    have hp := rested_poll h hv others₁ others₂
    have hflags := addrPeriodic_flags (cecReceivePeriodic s others₁ others₂)
    refine ⟨?_, ?_⟩
    · rw [step, cecPeriodic, addrPeriodic_hw]; exact hp.high
    · rw [step, cecPeriodic, addrPeriodic_hw, hflags]; exact hp.ended
  | app a =>
    have hhw : (step (.app a) s).hw = s.hw := app_hw s a
    have hflags : (step (.app a) s).rx.flags = s.rx.flags := app_flags s a
    exact ⟨by rw [hhw]; exact h.high, by rw [hhw, hflags]; exact h.ended⟩

/-! ### An attempt and its reception -/

/-- What holds in every run. -/
structure Sane (s : Cec Usi) : Prop where
  valid : s.hw.dec.Valid
  tracked : Tracked Delivers s
  framed : Framed Busy s
  rested : Rested s

theorem sane_step {s : Cec Usi} (h : Sane s) (i : Step) : Sane (step i s) :=
  ⟨valid_step h.valid i,
    tracked_step kept_delivers (fun _ b hne ht => delivers_bit ht hne b) h.tracked i,
    framed_step h.framed i, rested_step h.rested h.valid i⟩

theorem sane_initial (build : Build) (addr : Addr) : Sane (initial build addr) := by
  have ht := delivers_run build addr []
  refine ⟨valid_run build addr [], ⟨ht.holds.1, ht.synced⟩, framed_run build addr [], ?_⟩
  have hidle : (initial build addr).hw.idleFrames = 0 := by rw [initial, cecInit, addrInit_hw]; rfl
  exact ⟨fun h => absurd h (by rw [hidle]; decide), fun h => absurd h (by rw [hidle]; decide)⟩

/-- The state in which a poll decodes. -/
def counted (s : Cec Usi) : Cec Usi := { s with hw := countIdle (floatNack s.hw) s.hw.usibr }

/-- The calls of the byte that a poll decodes. -/
def heardIn (s : Cec Usi) (others : Bool) : List Heard :=
  byteCalls (counted (checkFloat s others)) (byteTicks (checkFloat s others).hw.usibr)

/-- When the first data bit is read back the receive side has recognised a start bit, and from there
    it does not complete a reception before the transmitter is done. -/
def Followed (s : Cec Usi) : Step → Prop
  | .poll others _ => s.hw.usioif = true →
    ((sofar (checkFloat s others).told).length = 2 → s.rx.flags ≠ 0 ∨ .start ∈ heardIn s others) ∧
      (2 ≤ (sofar (checkFloat s others).told).length →
        ¬ Outruns (counted (checkFloat s others)) (heardIn s others))
  | _ => True

instance (s : Cec Usi) (i : Step) : Decidable (Followed s i) :=
  match i with
  | .poll .. => by dsimp only [Followed]; infer_instance
  | .tick _ | .app _ => .isTrue trivial

/-- A reception is open once the first data bit has been read back, with the third bit fetched. -/
def Listens (s : Cec Usi) : Prop := 3 ≤ (sofar s.told).length → s.rx.flags ≠ 0

theorem decoded_hear (s : Cec Usi) :
    decoded s = withDec ((counted s).hearAll (byteCalls (counted s) (byteTicks s.hw.usibr))) (decoded s).hw.dec :=
  ticks_hear (counted s) (byteTicks s.hw.usibr)

theorem sane_checkFloat {s : Cec Usi} (h : Sane s) (others : Bool) :
    Framed Busy (checkFloat s others) ∧ Tracked Delivers (counted (checkFloat s others)) := by
  refine ⟨keptTx_checkFloat ((keptCalls_framed fetches).keptTx fetches) h.framed others, ?_⟩
  have hfloat : Tracked Delivers (checkFloat s others) :=
    h.tracked.sameReceive kept_delivers (sameReceive_checkFloat s others) (by rw [checkFloat_dec])
  exact hfloat.same kept_delivers rfl rfl rfl rfl

theorem sofar_free {s : Cec Usi} (h : Framed Busy s) (hb : ¬ s.tx.state.busy) : sofar s.told = [] := by
  rw [sofar, h.free hb]
  rfl

/-- The byte written out is one more bit at most. -/
theorem sofar_next (v : Cec Usi) : (sofar (cecUsiNextBit v).1.told).length ≤ (sofar v.told).length + 1 := by
  rcases next_told v with h | h | ⟨b, r, h⟩
  · rw [h]; exact Nat.le_succ _
  · rw [h]; exact Nat.zero_le _
  · rw [h]
    change (((fetched v.told).map (· ++ [b])).getD []).length ≤ ((fetched v.told).getD []).length + 1
    cases fetched v.told with
    | none => exact Nat.zero_le _
    | some bits => simp

/-- Reading a byte back keeps the reception of the attempt open. -/
theorem listens_decoded {s : Cec Usi} (h : Sane s) (hl : Listens s) {others : Bool}
    (hf : Followed s (.poll others false)) (ho : s.hw.usioif = true)
    (hb : (decoded (checkFloat s others)).tx.state.busy)
    (h2 : 2 ≤ (sofar (decoded (checkFloat s others)).told).length) :
    (decoded (checkFloat s others)).rx.flags ≠ 0 := by
  obtain ⟨hfirst, hout⟩ := hf ho
  obtain ⟨hframed, htracked⟩ := sane_checkFloat h others
  have hdec := decoded_hear (checkFloat s others)
  change decoded (checkFloat s others) = withDec ((counted (checkFloat s others)).hearAll (heardIn s others)) _ at hdec
  have hrx : (decoded (checkFloat s others)).rx = ((counted (checkFloat s others)).hearAll (heardIn s others)).rx := by
    rw [hdec]; rfl
  have hb' : ((counted (checkFloat s others)).hearAll (heardIn s others)).tx.state.busy := by
    rw [hdec] at hb; exact hb
  obtain ⟨hstate, htold, -⟩ := hearAll_busy hb'
  have htold' : (decoded (checkFloat s others)).told = (checkFloat s others).told := by
    rw [hdec]; exact htold
  rw [htold'] at h2
  have hopen := open_iff htracked.holds (byte_sound htracked _) (hout h2) hb'
  rw [hrx]
  refine hopen.mpr ?_
  rcases Nat.lt_or_eq_of_le h2 with h3 | h2
  · -- the attempt is the one under way before the poll
    have hsame := (checkFloat_busy (hstate ▸ hb' : (checkFloat s others).tx.state.busy)).2
    left
    change (checkFloat s others).rx.flags ≠ 0
    rw [(sameReceive_checkFloat s others).rx]
    exact hl (hsame ▸ h3)
  · rw [← (sameReceive_checkFloat s others).rx] at hfirst
    exact hfirst h2.symm

theorem listens_beforeAck {s : Cec Usi} (h : Sane s) (hl : Listens s) {others : Bool}
    (hf : Followed s (.poll others false)) : Listens (beforeAck s others) := by
  obtain ⟨hframed, -⟩ := sane_checkFloat h others
  rw [beforeAck]
  split
  · next ho =>
    have hdec : Framed Busy (decoded (checkFloat s others)) :=
      keptTx_decoded ((keptCalls_framed fetches).keptTx fetches) hframed
    intro h3
    change 3 ≤ (sofar (cecUsiNextBit (decoded (checkFloat s others))).1.told).length at h3
    have hnext := sofar_next (decoded (checkFloat s others))
    have h2 : 2 ≤ (sofar (decoded (checkFloat s others)).told).length := by omega
    have hb : (decoded (checkFloat s others)).tx.state.busy := by
      by_contra hfree
      rw [sofar_free hdec hfree] at h2
      exact absurd h2 (by decide)
    change (cecUsiNextBit (decoded (checkFloat s others))).1.rx.flags ≠ 0
    rw [nextBit_rx]
    exact listens_decoded h hl hf ho hb h2
  · intro h3
    have hb : (checkFloat s others).tx.state.busy := by
      by_contra hfree
      rw [sofar_free hframed hfree] at h3
      exact absurd h3 (by decide)
    rw [(sameReceive_checkFloat s others).rx]
    exact hl ((checkFloat_busy hb).2 ▸ h3)

theorem listens_step {s : Cec Usi} (h : Sane s) (hl : Listens s) {i : Step} (hf : Followed s i) :
    Listens (step i s) := by
  cases i with
  | tick others => exact hl
  | poll others₁ others₂ =>
    have hb := listens_beforeAck h hl hf
    rw [step, cecPeriodic, poll_eq, Listens, addrPeriodic_told, addrPeriodic_flags, handleAck_rx,
      handleAck_told]
    exact hb
  | app a =>
    rw [step, Listens, app_told, app_flags]
    exact hl

/-- After `s` the attempt under way there has ended, by a received ack or an abort, or it goes on. -/
def EndsByCall (s t : Cec Usi) : Prop :=
  ∃ l, t.told = l ++ s.told ∧ ((∃ e ∈ l, (∃ m, e = .sent m) ∨ ∃ err, e = .abort err) ∨
    .begin ∉ l ∧ t.tx.state.busy)

theorem keptCalls_ends (s : Cec Usi) :
    KeptCalls Busy fun t : Cec Usi => Framed Busy t ∧ EndsByCall s t where
  quiet {t u} h ht ha hl := by
    obtain ⟨hframed, l, hlog, hend⟩ := h
    refine ⟨(keptCalls_framed fetches).quiet hframed ht ha hl, l, hl.trans hlog, hend.imp_right fun hg => ⟨hg.1, ?_⟩⟩
    rw [ht]
    exact hg.2
  onError {t} err h hb := by
    obtain ⟨hframed, l, hlog, -⟩ := h
    refine ⟨(keptCalls_framed fetches).onError err hframed hb, .abort err :: l, ?_,
      .inl ⟨_, List.mem_cons_self .., .inr ⟨err, rfl⟩⟩⟩
    rw [(onError_busy hb err).2.2.2, hlog]
    rfl
  acked {t} h hw := by
    obtain ⟨hframed, l, hlog, -⟩ := h
    refine ⟨(keptCalls_framed fetches).acked hframed hw, .sent t.tx.message :: l, ?_,
      .inl ⟨_, List.mem_cons_self .., .inl ⟨_, rfl⟩⟩⟩
    rw [cecTransmitReceiveAck, if_pos rfl, if_pos hw, List.cons_append, ← hlog]
    rfl
  begin {t u} h hp ha ht hl := by
    obtain ⟨hframed, l, hlog, hend⟩ := h
    refine ⟨(keptCalls_framed fetches).begin hframed hp ha ht hl, .begin :: l, by rw [hl, hlog]; rfl, ?_⟩
    rcases hend with ⟨e, he, hcause⟩ | ⟨-, hb⟩
    · exact .inl ⟨e, List.mem_cons_of_mem _ he, hcause⟩
    · exact absurd hp (busy_not_pending hb)
  fetch {t u} h ha ht hl hnext := by
    obtain ⟨hframed, l, hlog, hend⟩ := h
    obtain ⟨bits, -, -, -, hfetch⟩ := hframed.next ha
    have hbusy : u.tx.state.busy := by rw [ht]; exact hfetch.busy
    have hlog' : u.told = .getBit (t.tx.getBit _).2.1 (t.tx.getBit _).2.2 :: t.told := hl
    refine ⟨(keptCalls_framed fetches).fetch hframed ha ht hl hnext, _ :: l, by rw [hlog', hlog]; rfl, ?_⟩
    rcases hend with ⟨e, he, hcause⟩ | ⟨hno, -⟩
    · exact .inl ⟨e, List.mem_cons_of_mem _ he, hcause⟩
    · refine .inr ⟨fun hm => ?_, hbusy⟩
      rcases List.mem_cons.mp hm with he | hm
      · exact Ev.noConfusion he
      · exact hno hm
  queued {t} buf bufEnd h hidle hlt := by
    obtain ⟨hframed, l, hlog, hend⟩ := h
    refine ⟨(keptCalls_framed fetches).queued buf bufEnd hframed hidle hlt, l, hlog, hend.imp_right fun hg => ?_⟩
    exact absurd hg.2 (not_busy_idle hidle)

end Usi

/-- In every run of the USI build whose attempts are followed, a reception is open from the time the
    first data bit is read back; the attempt ends by a received ack or an abort, and the engine does not
    wait for its last ack through three idle bytes. -/
theorem listens_while_sending (build : Build) (addr : Addr) (is : List Usi.Step)
    (h : Along Usi.Followed Usi.step (Usi.initial build addr) is) :
    let s := run Usi.step (Usi.initial build addr) is
    Usi.Listens s ∧ (s.tx.state = .waitForAck → s.hw.idleFrames < 3) ∧
      ∀ i, s.tx.state.busy → Usi.EndsByCall s (Usi.step i s) := by
  have hstep : ∀ (s : Cec Usi) (i : Usi.Step), Usi.Sane s ∧ Usi.Listens s → Usi.Followed s i →
      Usi.Sane (Usi.step i s) ∧ Usi.Listens (Usi.step i s) :=
    fun s i hs hi => ⟨Usi.sane_step hs.1 i, Usi.listens_step hs.1 hs.2 hi⟩
  have h0 := Usi.sane_initial build addr
  have hlisten : Usi.Listens (Usi.initial build addr) := by
    have hfree : ¬ (Usi.initial build addr).tx.state.busy := by
      rw [Usi.initial, Usi.cecInit, addrInit_tx rfl]
      exact not_busy_idle rfl
    rw [Usi.Listens, Usi.sofar_free h0.framed hfree]
    exact fun h3 => absurd h3 (by decide)
  intro s
  obtain ⟨hsane, hl⟩ : Usi.Sane s ∧ Usi.Listens s := invariant_run hstep ⟨h0, hlisten⟩ h
  refine ⟨hl, fun hw => ?_, fun i hb => ?_⟩
  · by_contra h3
    have hbusy : s.tx.state.busy := by rw [hw]; decide
    obtain ⟨bits, hbits, hfetch⟩ := hsane.framed.busy hbusy
    have hlen : 3 ≤ (sofar s.told).length := by
      have hwhole := hfetch.whole_iff.mpr hw
      rw [sofar, hbits, Option.getD_some, hwhole, length_framing, length_message]
      omega
    exact hl hlen (hsane.rested.ended (by omega)).1
  · have hends : Framed Usi.Busy (Usi.step i s) ∧ Usi.EndsByCall s (Usi.step i s) :=
      Usi.keptCalls_step (Usi.keptCalls_ends s) ⟨hsane.framed, [], rfl, .inr ⟨List.not_mem_nil, hb⟩⟩
        (fun _ _ hlt _ => by
          have hbusy : TransmitState.again.val < s.tx.state.val := hb
          exact absurd (Nat.lt_trans hbusy hlt) (by decide)) i
    exact hends.2

/-- The whole of a ping on a quiet line. -/
theorem listens_while_pinging :
    Usi.Listens (run Usi.step (Usi.initial {} (.fixed 4)) (.app (.send [0x45]) :: Usi.byteTimes 16)) :=
  (listens_while_sending {} (.fixed 4) _ (by decide +kernel)).1

/-- A ping whose start bit another device holds low for the last three ticks. -/
def stretchedStart : List Usi.Step :=
  .app (.send [0x45]) :: Usi.byteTimes 7 ++
    (List.replicate 5 (.tick false) ++ List.replicate 3 (.tick true) ++ [.poll false false]) ++ Usi.byteTimes 20

/-- The receive side takes no start bit, the whole ping is sent all the same, and the engine waits for
    its ack on a line that has been idle for ten bytes. -/
theorem unheard_attempt :
    let s := run Usi.step (Usi.initial {} (.fixed 4)) stretchedStart
    ¬ Usi.Listens s ∧ s.tx.state = .waitForAck ∧ s.hw.idleFrames = 10 := by
  intro s
  have hlen : 3 ≤ (sofar s.told).length := by decide +kernel
  have hflags : s.rx.flags = 0 := by decide +kernel
  exact ⟨fun h => h hlen hflags, by decide +kernel, by decide +kernel⟩

end AvrCec
