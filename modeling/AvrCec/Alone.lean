import AvrCec.AddrSearch
import AvrCec.PwmWave
import AvrCec.Success

/-! Attempts that nobody interferes with.

    While an attempt is under way the line shows what the attempt sends and what others add to it. Where
    they add nothing outside of the ack slots (`Usi.Alone`, `Soft.Alone`), no call of the receive engine
    finds anything wrong (`Agrees`), and only an ack slot can end the attempt: it is sent, or it is
    charged a nack (`Answered`). So a message that was alone in one attempt has been answered by the
    time it is given up (`Usi.tried_step`, `Soft.tried_step`). -/

namespace AvrCec
open Lib

section
variable {D : Type} [Driver D] {X : Type} {view : D → X} {act : D → Prop}

/-! ### What is heard of an attempt -/

/-- The call finds the line as the attempt under way has it: nothing out of place in its reception, and
    outside of the ack slots the bit that is due. -/
def Agrees (s : Cec D) : Heard → Prop
  | .start => True
  | .bit level => s.tx.state.busy → s.rx.flags.bitsEom = true → level.toNat = s.tx.delayed
  | .error _ => s.tx.state.busy → s.rx.flags = 0

instance (s : Cec D) : DecidablePred (Agrees s) := fun c =>
  match c with
  | .start => .isTrue trivial
  | .bit _ => by dsimp only [Agrees]; infer_instance
  | .error _ => by dsimp only [Agrees]; infer_instance

/-- So do all of them, each in the state that it finds. -/
def AgreesAll (s : Cec D) : List Heard → Prop
  | [] => True
  | c :: cs => Agrees s c ∧ AgreesAll (s.hear c) cs

instance decidableAgreesAll : (s : Cec D) → (cs : List Heard) → Decidable (AgreesAll s cs)
  | _, [] => .isTrue trivial
  | s, c :: cs => @instDecidableAnd _ _ inferInstance (decidableAgreesAll (s.hear c) cs)

/-- The nacks charged to a message are among its failures, and it is given up before they are many. -/
structure Poised (act : D → Prop) (s : Cec D) : Prop where
  framed : Framed act s
  nacks : s.tx.state ≠ .pend → s.tx.stats Err.nack.val ≤ s.tx.retries
  tries : s.tx.state ≠ .pend → s.tx.state ≠ .failed → s.tx.retries < cecXmitMaxRetransmit

omit [Driver D] in
theorem busy_ne_failed {t : TransmitState} (h : t.busy) : t ≠ .failed := by
  rintro rfl
  exact absurd h (by decide)

omit [Driver D] in
/-- The counter of nacks has room in an attempt. -/
theorem Poised.room {s : Cec D} (h : Poised act s) (hb : s.tx.state.busy) :
    s.tx.stats Err.nack.val ≤ s.tx.retries ∧ s.tx.retries < 5 :=
  ⟨h.nacks (busy_ne_pend hb), h.tries (busy_ne_pend hb) (busy_ne_failed hb)⟩

omit [Driver D] in
theorem stats_le {s : Cec D} (err : Err) :
    Function.update s.tx.stats err.val ((s.tx.stats err.val + 1) % 256) Err.nack.val ≤
      s.tx.stats Err.nack.val + 1 := by
  by_cases he : Err.nack.val = err.val
  · rw [he, Function.update_self]
    exact Nat.mod_le _ _
  · rw [Function.update_of_ne he]
    exact Nat.le_succ _

theorem keptCalls_poised (hf : Fetches view act) : KeptCalls act (Poised (D := D) act) where
  quiet {s t} h ht ha hl := by
    have hstate : t.tx.state = s.tx.state := by rw [ht]
    have hstats : t.tx.stats = s.tx.stats := by rw [ht]
    have hretries : t.tx.retries = s.tx.retries := by rw [ht]
    refine ⟨(keptCalls_framed hf).quiet h.framed ht ha hl, ?_, ?_⟩
    · rw [hstate, hstats, hretries]
      exact h.nacks
    · rw [hstate, hretries]
      exact h.tries
  onError {s} err h hb := by
    obtain ⟨state, needed, -, hfailed, htx⟩ := onError_charged hb err
    obtain ⟨hnacks, htries⟩ := h.room hb
    have hmod : (s.tx.retries + 1) % 256 = s.tx.retries + 1 := by omega
    refine ⟨(keptCalls_framed hf).onError err h.framed hb, fun _ => ?_, fun _ hne => ?_⟩
    · rw [htx, hmod]
      exact (stats_le err).trans (Nat.succ_le_succ hnacks)
    · rw [htx] at hne ⊢
      have hlast := mt hfailed.mpr hne
      unfold cecXmitMaxRetransmit at hlast ⊢
      dsimp only
      omega
  acked {s} h hw := by
    have hb : s.tx.state.busy := by rw [hw]; decide
    have hframed := (keptCalls_framed hf).acked h.framed hw
    rw [cecTransmitReceiveAck, if_pos rfl, if_pos hw] at hframed ⊢
    exact ⟨hframed, fun _ => (h.room hb).1, fun _ _ => (h.room hb).2⟩
  begin {s t} h hp ha ht hl := by
    refine ⟨(keptCalls_framed hf).begin h.framed hp ha ht hl, fun _ => ?_, fun _ _ => ?_⟩
    all_goals
      rw [ht]
      by_cases hpend : s.tx.state = .pend
      · simp [cecTransmitStart, hpend, cecXmitMaxRetransmit]
      · have hne : s.tx.state ≠ .failed := by
          intro hfailed
          rw [hfailed] at hp
          exact absurd hp (by decide)
        have htries := h.tries hpend hne
        have hnacks := h.nacks hpend
        simpa [cecTransmitStart, hpend]
  fetch {s t} h ha ht hl hnext := by
    obtain ⟨hr, hs⟩ := getBit_rest s.tx (Driver.idleWait D s.build cecPresentPeriodWait)
    obtain ⟨_, -, hbefore, -, -⟩ := h.framed.next ha
    obtain ⟨hnacks, htries⟩ := h.room hbefore.busy
    refine ⟨(keptCalls_framed hf).fetch h.framed ha ht hl hnext, fun _ => ?_, fun _ _ => ?_⟩
    · rw [ht]
      change (s.tx.getBit _).1.stats _ ≤ (s.tx.getBit _).1.retries
      rw [hr, hs]
      exact hnacks
    · rw [ht]
      change (s.tx.getBit _).1.retries < _
      rw [hr]
      exact htries
  queued buf bufEnd h hidle hlt :=
    ⟨(keptCalls_framed hf).queued buf bufEnd h.framed hidle hlt, fun hne => absurd rfl hne, fun hne => absurd rfl hne⟩

omit [Driver D] in
/-- Before the first message. -/
theorem poised_initial {s : Cec D} (h : Framed act s) (hstats : s.tx.stats Err.nack.val = 0)
    (hretries : s.tx.retries = 0) : Poised act s :=
  ⟨h, fun _ => by rw [hstats]; exact Nat.zero_le _, fun _ _ => by rw [hretries]; decide⟩

omit [Driver D] in
/-- The application queues over a failed message too. -/
theorem poised_queue {s : Cec D} (h : Poised act s) (buf : Nat → Nat) {bufEnd : Nat}
    (hs : s.tx.state.val < TransmitState.pend.val) (hlt : bufEnd < cecBufferSize) : Poised act (queue s buf bufEnd) :=
  ⟨framed_queue h.framed hs hlt buf, fun hne => absurd rfl hne, fun hne => absurd rfl hne⟩

/-! ### Answers -/

/-- The message was sent, or a nack was charged to it. -/
structure Answered (s : Cec D) : Prop where
  loaded : s.tx.state ≠ .pend
  answer : s.tx.state = .idle ∨ s.tx.stats Err.nack.val ≠ 0

/-- An answer stands until another message is queued. -/
theorem keptEngine_answered (hf : Fetches view act) :
    KeptEngine act fun s : Cec D => Poised act s ∧ Answered s where
  quiet {s t} h ht ha hl := by
    have hstate : t.tx.state = s.tx.state := by rw [ht]
    have hstats : t.tx.stats = s.tx.stats := by rw [ht]
    refine ⟨(keptCalls_poised hf).quiet h.1 ht ha hl, by rw [hstate]; exact h.2.loaded, ?_⟩
    rw [hstate, hstats]
    exact h.2.answer
  onError {s} err h hb := by
    obtain ⟨state, needed, hs, -, htx⟩ := onError_charged hb err
    obtain ⟨hnacks, htries⟩ := h.1.room hb
    have hne := h.2.answer.resolve_left fun hidle => not_busy_idle hidle hb
    refine ⟨(keptCalls_poised hf).onError err h.1 hb, ?_, .inr ?_⟩
    · rw [htx]
      rcases hs with rfl | rfl <;> exact TransmitState.noConfusion
    · rw [htx]
      change Function.update s.tx.stats err.val _ Err.nack.val ≠ 0
      by_cases he : Err.nack.val = err.val
      · rw [he, Function.update_self, ← he]
        omega
      · rwa [Function.update_of_ne he]
  acked {s} h hw := by
    refine ⟨(keptCalls_poised hf).acked h.1 hw, ?_⟩
    rw [cecTransmitReceiveAck, if_pos rfl, if_pos hw]
    exact ⟨TransmitState.noConfusion, .inl rfl⟩
  begin {s t} h hp ha ht hl := by
    have hidle : s.tx.state ≠ .idle := by
      intro hidle
      rw [hidle] at hp
      exact absurd hp (by decide)
    refine ⟨(keptCalls_poised hf).begin h.1 hp ha ht hl, by rw [ht]; exact TransmitState.noConfusion, .inr ?_⟩
    rw [ht, (transmitStart_message s).2, if_neg h.2.loaded]
    exact h.2.answer.resolve_left hidle
  fetch {s t} h ha ht hl hnext := by
    obtain ⟨_, -, hbefore, -, hafter⟩ := h.1.framed.next ha
    have hne := h.2.answer.resolve_left fun hidle => not_busy_idle hidle hbefore.busy
    rw [← ht] at hafter
    refine ⟨(keptCalls_poised hf).fetch h.1 ha ht hl hnext, busy_ne_pend hafter.busy, .inr ?_⟩
    rw [ht]
    change (s.tx.getBit _).1.stats _ ≠ 0
    rwa [(getBit_rest ..).2]

/-- A bit that agrees ends an attempt in its ack slot only. -/
theorem answered_bit {s : Cec D} (h : Poised act s) (hb : s.tx.state.busy) {b : Bool} (hc : Agrees s (.bit b))
    (hfree : ¬ (heardByTransmit s b).tx.state.busy) : Answered (heardByTransmit s b) := by
  rw [heardByTransmit] at hfree ⊢
  split at hfree
  · next heom =>
    have hsame : ¬ b.toNat ≠ (s.emit (.bit b)).tx.delayed := not_not.mpr (hc hb heom)
    rw [cecCheckTxBit, if_neg hsame] at hfree
    exact absurd hb hfree
  · next heom =>
    rw [if_neg heom]
    cases hack : s.rx.flags.ack b with
    | true =>
      rw [hack, cecTransmitReceiveAck, if_pos rfl] at hfree
      rw [cecTransmitReceiveAck, if_pos rfl]
      by_cases hw : (s.emit (.bit b)).tx.state = .waitForAck
      · rw [if_pos hw]
        exact ⟨TransmitState.noConfusion, .inl rfl⟩
      · rw [if_neg hw] at hfree
        exact absurd hb hfree
    | false =>
      have hb' : (s.emit (.bit b)).tx.state.busy := hb
      obtain ⟨state, needed, hs, -, hcharged⟩ := onError_charged hb' .nack
      obtain ⟨hnacks, htries⟩ := h.room hb
      rw [cecTransmitReceiveAck, if_neg Bool.false_ne_true]
      refine ⟨?_, .inr ?_⟩
      · rw [hcharged]
        rcases hs with rfl | rfl <;> exact TransmitState.noConfusion
      · rw [hcharged]
        change Function.update s.tx.stats Err.nack.val _ Err.nack.val ≠ 0
        rw [Function.update_self]
        change (s.tx.stats Err.nack.val + 1) % 256 ≠ 0
        omega

/-- An attempt that agrees with the line ends in an answer. -/
theorem answered_hear {s : Cec D} (h : Poised act s) (hb : s.tx.state.busy) {c : Heard} (hc : Agrees s c)
    (hfree : ¬ (s.hear c).tx.state.busy) : Answered (s.hear c) := by
  cases c with
  | start => exact absurd hb hfree
  | error err =>
    have hsame : s.hear (.error err) = s := receiveError_zero (hc hb) err
    exact absurd hb (hsame ▸ hfree)
  | bit b =>
    have htx : (s.hear (.bit b)).tx = (heardByTransmit s b).tx := (sameTransmit_receiveBit s b).tx
    obtain ⟨hloaded, hans⟩ := answered_bit h hb hc (htx ▸ hfree)
    exact ⟨htx ▸ hloaded, htx ▸ hans⟩

/-! ### The attempt of interest -/

/-- The attempt under way is the `n`th, or the message has been answered. -/
def Held (n : Nat) (s : Cec D) : Prop := s.tx.state.busy ∧ attempts s.told = n ∨ Answered s

omit [Driver D] in
/-- A change outside of the transmit engine. -/
theorem Held.quiet {n : Nat} {s t : Cec D} (h : Held n s) (htx : t.tx = s.tx) (hl : t.told = s.told) : Held n t := by
  rcases h with ⟨hb, hn⟩ | ha
  · exact .inl ⟨htx ▸ hb, hl ▸ hn⟩
  · exact .inr ⟨htx ▸ ha.loaded, htx ▸ ha.answer⟩

theorem held_hear (hf : Fetches view act) {n : Nat} {s : Cec D} (h : Poised act s) (hh : Held n s) {c : Heard}
    (hc : Agrees s c) : Held n (s.hear c) := by
  rcases hh with ⟨hb, hn⟩ | ha
  · by_cases hb' : (s.hear c).tx.state.busy
    · exact .inl ⟨hb', by rw [(hear_busy hb').2.1]; exact hn⟩
    · exact .inr (answered_hear h hb hc hb')
  · exact .inr (((keptEngine_answered hf).keptTx hf).hear ⟨h, ha⟩ c).2

theorem held_hearAll (hf : Fetches view act) {n : Nat} {s : Cec D} (h : Poised act s) (hh : Held n s)
    {cs : List Heard} (hcs : AgreesAll s cs) : Held n (s.hearAll cs) := by
  induction cs generalizing s with
  | nil => exact hh
  | cons c cs ih =>
    have hpoised := ((keptCalls_poised hf).toKeptEngine.keptTx hf).hear h c
    exact ih hpoised (held_hear hf h hh hcs.1) hcs.2

/-- Once the `n`th attempt has begun, and until another message waits, it is under way or answered. -/
def Tried (n : Nat) (s : Cec D) : Prop := n ≤ attempts s.told → s.tx.state ≠ .pend → Held n s

omit [Driver D] in
theorem Tried.queues {n : Nat} {s t : Cec D} (h : Tried n s) (hq : Queues s t) (hl : t.told = s.told) : Tried n t := by
  intro hn hp
  have htx := hq.tx hp
  rw [hl] at hn
  rw [htx] at hp
  exact (h hn hp).quiet htx hl

omit [Driver D] in
/-- A message given up was charged a nack. -/
theorem Tried.nacked {n : Nat} {s : Cec D} (h : Tried n s) (hn : n ≤ attempts s.told) (hf : s.tx.state = .failed) :
    s.tx.stats Err.nack.val ≠ 0 := by
  have hp : s.tx.state ≠ .pend := by rw [hf]; exact TransmitState.noConfusion
  rcases h hn hp with ⟨hb, -⟩ | ha
  · exact absurd hf (busy_ne_failed hb)
  · exact ha.answer.resolve_left fun hidle => TransmitState.noConfusion (hf.symm.trans hidle)

omit [Driver D] in
/-- A turn of the engines, in which at most one attempt begins. -/
theorem Tried.turn {n : Nat} {s t : Cec D} (h : Tried n s) (hload : n ≤ attempts s.told → s.tx.state ≠ .pend)
    (hone : attempts t.told = attempts s.told ∨ attempts t.told = attempts s.told + 1 ∧ t.tx.state.busy)
    (hheld : Held n s → Held n t) : Tried n t := by
  intro hn _
  by_cases hle : n ≤ attempts s.told
  · exact hheld (h hle (hload hle))
  · rcases hone with heq | ⟨heq, hb⟩
    · omega
    · exact .inl ⟨hb, by omega⟩

end

/-- The `n`th attempt of a run is alone, and no message is queued once it has begun. -/
def AloneIn {D I : Type} (alone : Cec D → I → Prop) (n : Nat) (s : Cec D) (i : I) : Prop :=
  (attempts s.told = n → alone s i) ∧ (n ≤ attempts s.told → s.tx.state ≠ .pend)

instance {D I : Type} {alone : Cec D → I → Prop} [∀ s i, Decidable (alone s i)] (n : Nat) (s : Cec D) (i : I) :
    Decidable (AloneIn alone n s i) := instDecidableAnd

/-- One attempt of the message that a run ends with was alone. -/
def AloneOnce {D I : Type} (alone : Cec D → I → Prop) (step : I → Cec D → Cec D) (s : Cec D) (is : List I) : Prop :=
  ∃ n, 0 < n ∧ n ≤ attempts (run step s is).told ∧ Along (AloneIn alone n) step s is

/-! ### The USI build -/

namespace Usi

/-- In an attempt, a poll does not find the line low past our own low time, and what it decodes agrees
    with what we send. -/
def Alone (s : Cec Usi) : Step → Prop
  | .poll others _ =>
    (s.tx.state.busy → s.hw.low = true ∨ others = true → s.hw.tick < (loadFloatMax s.hw).floatTicksMax) ∧
      (s.hw.usioif = true → AgreesAll (counted (checkFloat s others)) (heardIn s others))
  | _ => True

instance (s : Cec Usi) (i : Step) : Decidable (Alone s i) :=
  match i with
  | .poll .. => instDecidableAnd
  | .tick _ | .app _ => .isTrue trivial

theorem keptTx_poised : KeptTx Usi.xmitState (Poised (D := Usi) Busy) := (keptCalls_poised fetches).keptTx fetches

variable {n : Nat} {s : Cec Usi}

/-- The check of the low time. -/
theorem held_checkFloat (h : Poised Busy s) (hh : Held n s) {others : Bool}
    (hfloat : s.tx.state.busy → s.hw.low = true ∨ others = true → s.hw.tick < (loadFloatMax s.hw).floatTicksMax) :
    Held n (checkFloat s others) := by
  rcases hh with ⟨hb, hn⟩ | ha
  · have hquiet : ¬ ((s.hw.low || others) && decide ((loadFloatMax s.hw).floatTicksMax ≤ s.hw.tick)) = true := by
      rw [Bool.and_eq_true, Bool.or_eq_true, decide_eq_true_iff]
      rintro ⟨hlow, hle⟩
      exact absurd hle (Nat.not_le.mpr (hfloat hb hlow))
    have hsame : checkFloat s others = { s with hw := loadFloatMax s.hw } := if_neg hquiet
    rw [hsame]
    exact .inl ⟨hb, hn⟩
  · exact .inr (keptTx_checkFloat ((keptEngine_answered fetches).keptTx fetches) ⟨h, ha⟩ others).2

/-- The bits decoded. -/
theorem held_decoded {others : Bool} (h : Poised Busy (checkFloat s others)) (hh : Held n (checkFloat s others))
    (hcs : AgreesAll (counted (checkFloat s others)) (heardIn s others)) : Held n (decoded (checkFloat s others)) := by
  have hpoised : Poised Busy (counted (checkFloat s others)) := keptTx_poised.quiet h rfl rfl rfl rfl
  have hheld : Held n (counted (checkFloat s others)) := hh.quiet rfl rfl
  rw [decoded_hear]
  exact (held_hearAll fetches hpoised hheld hcs).quiet rfl rfl

/-- The next byte. -/
theorem held_next {v : Cec Usi} (h : Poised Busy v) (hh : Held n v) : Held n (cecUsiNextBit v).1 := by
  rcases hh with ⟨hb, hn⟩ | ha
  · rw [cecUsiNextBit]
    split
    · rw [if_neg fun hc => busy_not_pending hb hc.1]
      exact .inl ⟨hb, hn⟩
    · exact .inl ⟨hb, hn⟩
    · next hx =>
      obtain ⟨_, -, -, -, hafter⟩ := h.framed.next fun hi => UsiXmit.noConfusion (hx.symm.trans hi)
      exact .inl ⟨hafter.busy, hn⟩
  · exact .inr (keptEngine_next (keptEngine_answered fetches) ⟨h, ha⟩).2

theorem held_poll (h : Poised Busy s) (hh : Held n s) {others₁ : Bool} (others₂ : Bool)
    (hi : Alone s (.poll others₁ others₂)) : Held n (cecReceivePeriodic s others₁ others₂) := by
  have hpoised := keptTx_checkFloat keptTx_poised h others₁
  have hheld := held_checkFloat h hh hi.1
  rw [cecReceivePeriodic]
  split
  · next ho =>
    have hnext := held_next (keptTx_decoded keptTx_poised hpoised) (held_decoded hpoised hheld (hi.2 ho))
    exact (hnext.quiet (t := writeOut (decoded (checkFloat s others₁))) rfl rfl).quiet (handleAck_same ..).1
      (handleAck_told ..)
  · exact hheld.quiet (handleAck_same ..).1 (handleAck_told ..)

/-- At most one attempt begins in a poll, as its last act. -/
theorem poll_begins_once (s : Cec Usi) (others₁ others₂ : Bool) :
    let t := cecReceivePeriodic s others₁ others₂
    attempts t.told = attempts s.told ∨ attempts t.told = attempts s.told + 1 ∧ t.tx.state.busy := by
  have hkept := keptTx_attempts (attempts s.told)
  have hfloat := keptTx_checkFloat hkept rfl others₁
  have hdecoded := keptTx_decoded hkept hfloat
  dsimp only
  rw [cecReceivePeriodic]
  split
  · rw [handleAck_told, (handleAck_same ..).1, handleOverflow_eq]
    generalize decoded (checkFloat s others₁) = v at hdecoded
    change attempts (cecUsiNextBit v).1.told = _ ∨ attempts (cecUsiNextBit v).1.told = _ ∧ (cecUsiNextBit v).1.tx.state.busy
    rw [← hdecoded, cecUsiNextBit]
    split
    · split
      · refine .inr ⟨List.countP_cons_of_pos rfl, ?_⟩
        change TransmitState.bitEom.busy
        decide
      · exact .inl rfl
    · exact .inl rfl
    · exact .inl rfl
  · rw [handleAck_told]
    exact .inl hfloat

theorem tried_poll (h : Poised Busy s) (ht : Tried n s) {others₁ others₂ : Bool}
    (hi : AloneIn Alone n s (.poll others₁ others₂)) : Tried n (cecReceivePeriodic s others₁ others₂) := by
  refine ht.turn hi.2 (poll_begins_once s others₁ others₂) fun hh => ?_
  rcases hh with ⟨hb, hn⟩ | ha
  · exact held_poll h (.inl ⟨hb, hn⟩) others₂ (hi.1 hn)
  · exact .inr (keptEngine_poll (keptEngine_answered fetches) ⟨h, ha⟩ others₁ others₂).2

theorem tried_step (h : Poised Busy s) (ht : Tried n s) {i : Step} (hi : AloneIn Alone n s i) : Tried n (step i s) := by
  cases i with
  | tick others => exact fun hn hp => (ht hn hp).quiet rfl rfl
  | poll others₁ others₂ =>
    exact (tried_poll h ht hi).queues (addrPeriodic_queues _) (addrPeriodic_told _)
  | app a => exact ht.queues (app_queues s a) (app_told s a)

theorem poised_step (h : Poised Busy s) (i : Step) : Poised Busy (step i s) :=
  keptCalls_step (keptCalls_poised fetches) h (fun buf _ hs hlt => poised_queue h buf hs hlt) i

end Usi

/-! ### The PWM build -/

namespace Soft

/-- The call that a poll's sample makes. -/
def sampleCall (s : Cec Soft) (delta : Nat) (level : Bool) : Option Heard :=
  let timer := cappedAdd s.hw.receiveFrameTimer delta
  if s.hw.sample ∧ usToJiffies s.build cecT3 < timer then
    some (if usToJiffiesUp s.build cecT4 < timer then .error .hw else .bit level)
  else none

/-- The call that a falling edge makes when it comes too early. -/
def fallCall (s : Cec Soft) : Option Heard :=
  if s.rx.flags ≠ 0 ∧ s.hw.receiveFrameTimer < s.hw.receiveFramePeriod then some (.error .lowDrive) else none

/-- The call that a poll's edge detector makes: for a line that stays, rises or falls. -/
def edgeCall (s : Cec Soft) (level : Bool) : Option Heard :=
  if level = s.hw.lastState then
    if (s.hw.receiveFramePeriod + usToJiffiesUp s.build 800 % 65536) % 65536 < s.hw.receiveFrameTimer then
      some (.error .noEom)
    else none
  else if level then
    if usToJiffies s.build cecStartLowEarly < s.hw.receiveFrameTimer ∧
        s.hw.receiveFrameTimer < usToJiffiesUp s.build cecStartLowLate then
      some .start
    else none
  else fallCall s

/-- The receive driver's poll up to its edge detector. -/
def beforeEdge (s : Cec Soft) (delta : Nat) (level : Bool) : Cec Soft :=
  softFloat (softSample (softCount s delta) level)

section
variable {P : Cec Soft → Prop}

theorem keeps_fall (hhw : ∀ {s : Cec Soft} {u : Soft}, P s → u.pwm = s.hw.pwm → P { s with hw := u })
    {s : Cec Soft} (hs : P s) (hcall : ∀ c ∈ fallCall s, P (s.hear c)) : P (softFall s) := by
  have hnext : ∀ (t : Cec Soft) (n m : Nat), P t →
      P { t with hw := { t.hw with receiveFramePeriod := n, receiveFrameTimer := m } } :=
    fun _ _ _ ht => hhw ht (pwm_mk ..)
  have hsample : ∀ t : Cec Soft, P t → P { t with hw := { t.hw with sample := true } } :=
    fun _ ht => hhw ht (pwm_mk ..)
  have hack : ∀ (t : Cec Soft) (n : Nat), P t →
      P { t with hw := { t.hw with driven := true, receiveFrameAckDone := n } } :=
    fun _ _ ht => hhw ht (pwm_mk ..)
  rw [softFall]
  refine hnext _ _ _ ?_
  split
  · next h0 =>
    split
    · next hlt => exact hcall (.error .lowDrive) (if_pos ⟨h0, hlt⟩)
    · refine hsample _ ?_
      split
      · exact hack _ _ hs
      · exact hs
  · exact hs

theorem keeps_edge (hhw : ∀ {s : Cec Soft} {u : Soft}, P s → u.pwm = s.hw.pwm → P { s with hw := u })
    {s : Cec Soft} (hs : P s) {level : Bool}
    (hcall : ∀ c ∈ edgeCall s level, ∀ u : Soft, P { s with hw := u } → P (Cec.hear { s with hw := u } c)) :
    P (softEdge s level) := by
  rw [edgeCall] at hcall
  rw [softEdge]
  split
  · next hlast =>
    rw [if_pos hlast] at hcall
    rw [softHold]
    split
    · next hlate =>
      rw [if_pos hlate] at hcall
      exact hcall (.error .noEom) rfl s.hw hs
    · exact hs
  · next hlast =>
    rw [if_neg hlast] at hcall
    split
    · next hlevel =>
      rw [if_pos hlevel] at hcall
      rw [softRise]
      split
      · next hw =>
        rw [if_pos hw] at hcall
        exact hcall .start rfl _ (hhw hs (pwm_mk ..))
      · exact hs
    · next hlevel =>
      rw [if_neg hlevel] at hcall
      exact keeps_fall hhw hs fun c hc => hcall c hc s.hw hs

/-- The rule for polls of the receive driver: what survives its own changes and the two calls. -/
theorem keeps_recv (hhw : ∀ {s : Cec Soft} {u : Soft}, P s → u.pwm = s.hw.pwm → P { s with hw := u })
    {s : Cec Soft} (hs : P s) {delta : Nat} {level : Bool}
    (hsample : ∀ c ∈ sampleCall s delta level, ∀ u : Soft, P { s with hw := u } → P (Cec.hear { s with hw := u } c))
    (hedge : ∀ c ∈ edgeCall (beforeEdge s delta level) level, ∀ u : Soft, P { beforeEdge s delta level with hw := u } →
      P (Cec.hear { beforeEdge s delta level with hw := u } c)) : P (cecReceivePeriodic s delta level) := by
  have hlast : ∀ (t : Cec Soft) (b : Bool), P t → P { t with hw := { t.hw with lastState := b } } :=
    fun _ _ ht => hhw ht (pwm_mk ..)
  have hoff : ∀ t : Cec Soft, P t → P { t with hw := { t.hw with sample := false } } :=
    fun _ ht => hhw ht (pwm_mk ..)
  have hfloat : ∀ t : Cec Soft, P t → P (softFloat t) := by
    intro t ht
    have hdriven : P { t with hw := { t.hw with driven := false } } := hhw ht (pwm_mk ..)
    rw [softFloat]
    split
    · exact hdriven
    · exact ht
  have hcount : P (softCount s delta) := hhw hs (pwm_mk ..)
  refine hlast _ _ (keeps_edge hhw (s := beforeEdge s delta level) (hfloat _ ?_) hedge)
  rw [sampleCall] at hsample
  rw [softSample]
  split
  · next hdue =>
    have hdue' : s.hw.sample ∧ usToJiffies s.build cecT3 < cappedAdd s.hw.receiveFrameTimer delta := hdue
    rw [if_pos hdue'] at hsample
    have hsampled := hoff _ hcount
    dsimp only
    split
    · next hlate =>
      rw [if_pos (by exact hlate)] at hsample
      exact hsample _ rfl _ hsampled
    · next hlate =>
      rw [if_neg (by exact hlate)] at hsample
      exact hsample _ rfl _ hsampled
  · exact hcount

end

/-- In an attempt, what a poll of the receive driver hears agrees with what we send, and a poll of the
    transmit driver finds a reception open once the start bit is over. -/
def Alone (s : Cec Soft) : Step → Prop
  | .recv delta level => (∀ c ∈ sampleCall s delta level, Agrees s c) ∧
      ∀ c ∈ edgeCall (beforeEdge s delta level) level, Agrees (beforeEdge s delta level) c
  | .xmit .. => s.tx.state.busy → s.hw.pwm.tov1 = true → s.hw.pwm.xmitState = .running → s.rx.flags ≠ 0
  | _ => True

instance (s : Cec Soft) (i : Step) : Decidable (Alone s i) :=
  match i with
  | .recv .. => instDecidableAnd
  | .xmit .. => by dsimp only [Alone]; infer_instance
  | .addr | .overflow | .app _ => .isTrue trivial

theorem keptTx_poised : KeptTx Soft.pwm (Poised (D := Soft) Busy) := (keptCalls_poised fetches).keptTx fetches

variable {n : Nat} {s : Cec Soft}

theorem held_recv (h : Poised Busy s) (hh : Held n s) {delta : Nat} {level : Bool} (hi : Alone s (.recv delta level)) :
    Held n (cecReceivePeriodic s delta level) := by
  have hcall : ∀ (t : Cec Soft) (c : Heard), Agrees t c → ∀ u : Soft,
      Poised Busy { t with hw := u } ∧ Held n { t with hw := u } →
      Poised Busy (Cec.hear { t with hw := u } c) ∧ Held n (Cec.hear { t with hw := u } c) := by
    intro t c hc u hu
    have hc' : Agrees { t with hw := u } c := by cases c <;> exact hc
    exact ⟨keptTx_poised.hear hu.1 c, held_hear fetches hu.1 hu.2 hc'⟩
  have hhw : ∀ {t : Cec Soft} {u : Soft}, Poised Busy t ∧ Held n t → u.pwm = t.hw.pwm →
      Poised Busy { t with hw := u } ∧ Held n { t with hw := u } :=
    fun ht hu => ⟨recvHw keptTx_poised ht.1 hu, ht.2.quiet rfl rfl⟩
  exact (keeps_recv hhw ⟨h, hh⟩ (fun c hc => hcall s c (hi.1 c hc))
    fun c hc => hcall (beforeEdge s delta level) c (hi.2 c hc)).2

/-- An overflow handled does not end the attempt. -/
theorem busy_pwm (h : Poised Busy s) (hb : s.tx.state.busy)
    (hi : s.hw.pwm.tov1 = true → s.hw.pwm.xmitState = .running → s.rx.flags ≠ 0) :
    (xmitPwmPeriodic s).tx.state.busy := by
  have hfetch : ∀ f : Pwm → Pwm, (f s.hw.pwm).xmitState = s.hw.pwm.xmitState → Busy s.hw →
      (pwmNextBit (setPwm s f)).tx.state.busy := by
    intro f hf hbusy
    have hact : Busy (setPwm s f).hw := by
      rw [Busy, show (setPwm s f).hw.pwm.xmitState = _ from hf]
      exact hbusy
    have hset : Framed Busy (setPwm s f) := (keptCalls_framed fetches).quiet h.framed rfl (fun _ => hbusy) rfl
    obtain ⟨_, -, -, -, hafter⟩ := hset.next hact
    exact hafter.busy
  cases htov : s.hw.pwm.tov1 with
  | false =>
    rw [xmitPwmPeriodic, htov]
    exact hb
  | true =>
    rw [pwmPeriodic_eq htov]
    cases hx : s.hw.pwm.xmitState with
    | running =>
      dsimp only
      rw [if_neg (hi htov hx)]
      exact hfetch (fun p => { p with tov1 := false, ocr1c := ocr (usToCecJiffies s.build cecPeriod) }) rfl (.inr hx)
    | start => exact hfetch (fun p => { p with tov1 := false }) rfl (.inl hx)
    | _ => exact hb

theorem held_xmit (h : Poised Busy s) (hh : Held n s) {delta : Nat} {level : Bool} (hi : Alone s (.xmit delta level)) :
    Held n (cecTransmitPeriodic s delta level) := by
  rcases hh with ⟨hb, hn⟩ | ha
  · have ht : Held n (if s.hw.pwm.xmitState ≠ .idle then xmitPwmPeriodic s else s) ∧
        (if s.hw.pwm.xmitState ≠ .idle then xmitPwmPeriodic s else s).tx.state.busy := by
      split
      · have hb' := busy_pwm h hb (hi hb)
        exact ⟨.inl ⟨hb', (pwm_attempts s).trans hn⟩, hb'⟩
      · exact ⟨.inl ⟨hb, hn⟩, hb⟩
    rw [cecTransmitPeriodic]
    generalize (if s.hw.pwm.xmitState ≠ .idle then xmitPwmPeriodic s else s) = t at ht
    obtain ⟨hheld, hbusy⟩ := ht
    dsimp only
    split
    · exact hheld.quiet rfl rfl
    · split
      · exact hheld.quiet rfl rfl
      · -- another attempt does not begin in one
        rw [if_neg fun hc => busy_not_pending hbusy hc.2]
        exact hheld.quiet rfl rfl
  · exact .inr (keptXmit_periodic (keptEngine_pwm (keptEngine_answered fetches)).toKeptXmit ⟨h, ha⟩ delta level).2

theorem step_begins_once (s : Cec Soft) (i : Step) : attempts (step i s).told = attempts s.told ∨
    attempts (step i s).told = attempts s.told + 1 ∧ (step i s).tx.state.busy := by
  by_cases hbegin : attempts (step i s).told = attempts s.told
  · exact .inl hbegin
  · obtain ⟨delta, u, hi, -, -, heq, hsame⟩ := xmit_begins (keptXmit_build s.build) rfl hbegin
    have htold : (xmitStart u).told = .begin :: u.told := by
      rw [Cec.told, xmitStart_log]
      rfl
    rw [heq, htold, ← hsame]
    refine .inr ⟨List.countP_cons_of_pos rfl, ?_⟩
    change TransmitState.bitEom.busy
    decide

theorem tried_step (h : Poised Busy s) (ht : Tried n s) {i : Step} (hi : AloneIn Alone n s i) : Tried n (step i s) := by
  cases i with
  | recv delta level =>
    refine ht.turn hi.2 (step_begins_once s (.recv delta level)) fun hh => ?_
    rcases hh with ⟨hb, hn⟩ | ha
    · exact held_recv h (.inl ⟨hb, hn⟩) (hi.1 hn)
    · exact .inr (keptTx_recv ((keptEngine_answered fetches).keptTx fetches) ⟨h, ha⟩ delta level).2
  | xmit delta level =>
    refine ht.turn hi.2 (step_begins_once s (.xmit delta level)) fun hh => ?_
    rcases hh with ⟨hb, hn⟩ | ha
    · exact held_xmit h (.inl ⟨hb, hn⟩) (hi.1 hn)
    · exact .inr (keptXmit_periodic (keptEngine_pwm (keptEngine_answered fetches)).toKeptXmit ⟨h, ha⟩ delta level).2
  | addr => exact ht.queues (addrPeriodic_queues s) (addrPeriodic_told s)
  | overflow =>
    rw [step, timerOverflow]
    split
    · exact fun hn hp => (ht hn hp).quiet rfl rfl
    · exact ht
  | app a => exact ht.queues (app_queues s a) (app_told s a)

theorem poised_step (h : Poised Busy s) (i : Step) : Poised Busy (step i s) :=
  keptCalls_step (keptCalls_poised fetches) h (fun buf _ hs hlt => poised_queue h buf hs hlt) i

end Soft

end AvrCec
