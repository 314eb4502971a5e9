import AvrCec.Echo

/-! What a reported success of the USI driver stands for.

    The transmit engine takes any positive ack bit for its own while it waits for the last one. That is
    sound in a run whose every byte is heard in step with the transmitter (`InStep`): whenever a success
    is reported, the reception was opened by the attempt's own start bit and has consumed exactly the
    framing of the message, every block acked (`no_false_success`). Out of step, bits that another
    device sends are taken for the echo (`false_success`). -/

namespace AvrCec
open Lib

namespace Usi

/-- What the decoder reports is never a nack. -/
theorem edge_error (d : Decoder) (b : Bool) : ∀ err, (d.edge b).2 = .error err → err ≠ .nack := by
  have hhold : ∀ err, d.hold.2 = .error err → err ≠ .nack := by
    intro err he
    rw [Decoder.hold] at he
    split at he
    · rw [← Call.error.inj he]; exact Err.noConfusion
    · exact Call.noConfusion he
  have hfall : ∀ err, d.fall.2 = .error err → err ≠ .nack := by
    intro err he
    rw [Decoder.fall] at he
    split at he
    · rw [← Call.error.inj he]; exact Err.noConfusion
    · split at he <;> exact Call.noConfusion he
  have hrise : ∀ err, d.rise.2 = .error err → err ≠ .nack := by
    intro err he
    rw [Decoder.rise] at he
    split at he <;> exact Call.noConfusion he
  rw [Decoder.edge]
  dsimp only
  split
  · exact hhold
  · split
    · exact hfall
    · exact hrise

theorem byteCalls_error (s : Cec Usi) (l : List Bool) : ∀ err, .error err ∈ byteCalls s l → err ≠ .nack := by
  have hcall : ∀ (d : Decoder) (b : Bool) err, .error err ∈ Call.heard (d.edge b).2 → err ≠ .nack := by
    intro d b err he
    refine edge_error d b err ?_
    cases hc : (d.edge b).2 with
    | none => rw [hc] at he; exact absurd he List.not_mem_nil
    | start => rw [hc] at he; exact Heard.noConfusion (List.mem_singleton.mp he)
    | error err' => rw [hc] at he; rw [Heard.error.inj (List.mem_singleton.mp he)]
  induction l generalizing s with
  | nil => exact fun _ he => absurd he List.not_mem_nil
  | cons b l ih =>
    intro err he
    rcases List.mem_append.mp he with he | he
    · rw [tickCalls] at he
      split at he
      · rcases List.mem_cons.mp he with he | he
        · exact Heard.noConfusion he
        · exact hcall _ _ err he
      · exact hcall _ _ err he
    · exact ih _ err he

/-! ### The driver in an attempt -/

/-- The driver fetches while bits are left, from the byte after the start pattern's second on. -/
structure Phased (s : Cec Usi) : Prop where
  fetches : s.tx.state.busy → s.tx.state ≠ .waitForAck → s.hw.xmitState ≠ .idle
  start : s.hw.xmitState = .start → s.tx.state.busy → sofar s.told = []

theorem keptTx_phased : KeptTx Usi.xmitState Phased where
  same h _ ht hv hl := ⟨by rw [ht, hv]; exact h.fetches, by rw [ht, hv, hl]; exact h.start⟩
  nack _ _ := rfl
  needed _ _ h := ⟨h.fetches, h.start⟩
  onError {s} err _ _ := ⟨fun hb => absurd hb (onError_free s err), fun _ hb => absurd hb (onError_free s err)⟩
  acked {s} _ hw := by
    have hfree : ¬ (cecTransmitReceiveAck s true).tx.state.busy := by
      rw [cecTransmitReceiveAck, if_pos rfl, if_pos hw]
      exact not_busy_idle rfl
    exact ⟨fun hb => absurd hb hfree, fun _ hb => absurd hb hfree⟩

theorem phased_next {s : Cec Usi} (h : Phased s) : Phased (cecUsiNextBit s).1 := by
  rw [cecUsiNextBit]
  split
  · split
    · exact ⟨fun _ _ => UsiXmit.noConfusion, fun _ _ => rfl⟩
    · exact h
  · exact ⟨fun _ _ => UsiXmit.noConfusion, fun hx => UsiXmit.noConfusion hx⟩
  · refine ⟨fun _ hw => ?_, fun hx => ?_⟩
    · change (if _ then UsiXmit.idle else .bits) ≠ .idle
      rw [if_neg (by exact hw)]
      exact UsiXmit.noConfusion
    · change (if _ then UsiXmit.idle else .bits) = .start at hx
      split at hx <;> exact UsiXmit.noConfusion hx

/-- An attempt waits for three idle frames at least. -/
def Waits (s : Cec Usi) : Prop := cecPrevPeriodWait ≤ s.tx.needed

theorem waits_onError {s : Cec Usi} (h : Waits s) (err : Err) : Waits (cecTransmitOnError s err) := by
  rw [cecTransmitOnError, cecTransmitFinishAbort]
  split
  · dsimp only
    rw [Waits]
    split
    · exact h
    · exact Nat.le_refl _
  · exact h

theorem waits_hear {s : Cec Usi} (h : Waits s) (c : Heard) : Waits (s.hear c) := by
  cases c with
  | start => exact (by decide : cecPrevPeriodWait ≤ cecNewPeriodWait)
  | error err =>
    change Waits (cecReceiveError s err)
    rw [cecReceiveError]
    split
    · exact h
    · exact waits_onError (by exact h) err
  | bit b =>
    have hheard : Waits (heardByTransmit s b) := by
      rw [heardByTransmit, cecCheckTxBit, cecTransmitReceiveAck]
      dsimp only
      repeat' split
      · exact waits_onError (by exact h) _
      · exact h
      · exact h
      · exact h
      · exact waits_onError (by exact h) _
    change cecPrevPeriodWait ≤ (cecReceiveBit s b).tx.needed
    rw [(sameTransmit_receiveBit s b).tx]
    exact hheard

theorem waits_hearAll {s : Cec Usi} (h : Waits s) (cs : List Heard) : Waits (s.hearAll cs) := by
  induction cs generalizing s with
  | nil => exact h
  | cons c cs ih => exact ih (waits_hear h c)

theorem waits_next {s : Cec Usi} (h : Waits s) : Waits (cecUsiNextBit s).1 := by
  have hstart : (cecTransmitStart s).tx.needed = s.tx.needed := by
    change (if s.tx.state = .pend then _ else _ : Transmit).needed = _
    split <;> rfl
  rw [cecUsiNextBit]
  split
  · split
    · change cecPrevPeriodWait ≤ (cecTransmitStart s).tx.needed
      rw [hstart]
      exact h
    · exact h
  · exact h
  · change cecPrevPeriodWait ≤ (s.tx.getBit cecPresentPeriodWait).1.needed
    rw [Transmit.getBit]
    dsimp only
    repeat' split
    · exact h
    · exact h
    · exact (by decide : cecPrevPeriodWait ≤ cecPresentPeriodWait)
    · exact (by decide : cecPrevPeriodWait ≤ cecPresentPeriodWait)

/-- The receive side leaves the message alone. -/
theorem keptTx_bufEnd (n : Nat) : KeptTx (fun _ : Usi => ()) fun s : Cec Usi => s.tx.bufEnd = n where
  same h _ ht _ _ := by rw [ht]; exact h
  nack _ _ := rfl
  needed _ _ h := h
  onError err h hb := by
    obtain ⟨_, _, -, -, htx⟩ := onError_charged hb err
    rw [htx]
    exact h
  acked h hw := by
    rw [cecTransmitReceiveAck, if_pos rfl, if_pos hw]
    exact h

/-! ### Runs in step -/

/-- The byte a poll decodes in an attempt is heard in step with the transmitter. -/
def InStep (s : Cec Usi) : Step → Prop
  | .poll others _ => s.hw.usioif = true → (checkFloat s others).tx.state.busy →
    Paced (sofar (checkFloat s others).told).length (10 * ((checkFloat s others).tx.bufEnd + 1))
      (broken (counted (checkFloat s others)) (heardIn s others))
      (reaching (counted (checkFloat s others)) (heardIn s others))
  | _ => True

instance (s : Cec Usi) (i : Step) : Decidable (InStep s i) :=
  match i with
  | .poll .. => by dsimp only [InStep]; infer_instance
  | .tick _ | .app _ => .isTrue trivial

/-- The reception of an attempt is two bits behind it, or one when all are out. -/
structure InPace (s : Cec Usi) : Prop where
  backed : Backed s
  waits : Waits s
  stands : s.tx.state.busy → Stands 2 s (sofar s.told).length (10 * (s.tx.bufEnd + 1))

/-- What holds in every run in step. -/
structure March (s : Cec Usi) : Prop extends InPace s where
  sane : Sane s
  phased : Phased s

theorem backed_checkFloat {s : Cec Usi} (h : Backed s) (others : Bool) : Backed (checkFloat s others) := by
  have hload : Backed { s with hw := loadFloatMax s.hw } := h.same rfl [] rfl fun _ he => nomatch he
  rw [checkFloat]
  dsimp only
  split
  · exact hload.onError Err.noConfusion
  · exact hload

theorem checkFloat_log {s : Cec Usi} {others : Bool} (hb : (checkFloat s others).tx.state.busy) :
    (checkFloat s others).log = s.log := by
  rw [checkFloat] at hb ⊢
  dsimp only at hb ⊢
  split at hb
  · exact absurd hb (onError_free _ _)
  · next h => rw [if_neg h]

theorem waits_checkFloat {s : Cec Usi} (h : Waits s) (others : Bool) : Waits (checkFloat s others) := by
  rw [checkFloat]
  dsimp only
  split
  · exact waits_onError (by exact h) _
  · exact h

theorem stands_checkFloat {s : Cec Usi} (h : InPace s) {others : Bool} (hb : (checkFloat s others).tx.state.busy) :
    Stands 2 (checkFloat s others) (sofar (checkFloat s others).told).length
      (10 * ((checkFloat s others).tx.bufEnd + 1)) := by
  obtain ⟨htx, htold⟩ := checkFloat_busy hb
  have hlog := checkFloat_log hb
  have hsame := sameReceive_checkFloat s others
  have hkeeps : KeepsRx s (checkFloat s others) := ⟨hsame.build, .inl hsame.rx⟩
  rw [htx] at hb
  rw [htx, htold]
  rcases h.stands hb with ⟨hk, h0⟩ | ⟨c, ho, hc⟩
  · exact .inl ⟨hk, hkeeps.flags.trans h0⟩
  · exact .inr ⟨c, ho.same hkeeps (by rw [htx]) (by rw [hlog]) (by rw [hlog]), hc⟩

/-- Decoding a byte in step. -/
theorem stands_decoded {s : Cec Usi} (h : March s) {others : Bool} (hi : InStep s (.poll others false))
    (ho : s.hw.usioif = true) : Backed (decoded (checkFloat s others)) ∧
      ((decoded (checkFloat s others)).tx.state.busy →
        Stands 1 (decoded (checkFloat s others)) (sofar (decoded (checkFloat s others)).told).length
          (10 * ((decoded (checkFloat s others)).tx.bufEnd + 1))) := by
  obtain ⟨hframed, htracked⟩ := sane_checkFloat h.sane others
  have hbacked : Backed (counted (checkFloat s others)) :=
    (backed_checkFloat h.backed others).same rfl [] rfl fun _ he => absurd he List.not_mem_nil
  have hstands : (checkFloat s others).tx.state.busy → Stands 2 (counted (checkFloat s others))
      (sofar (checkFloat s others).told).length (10 * ((checkFloat s others).tx.bufEnd + 1)) := by
    intro hb
    rcases stands_checkFloat h.toInPace hb with hlt | ⟨c, hopen, hc⟩
    · exact .inl hlt
    · exact .inr ⟨c, hopen.same ⟨rfl, .inl rfl⟩ rfl rfl rfl, hc⟩
  have hpaced : (checkFloat s others).tx.state.busy → _ := hi ho
  have hdec := decoded_hear (checkFloat s others)
  have hsound := byte_sound htracked (byteTicks (checkFloat s others).hw.usibr)
  have herror := byteCalls_error (counted (checkFloat s others)) (byteTicks (checkFloat s others).hw.usibr)
  change Sound _ (heardIn s others) at hsound
  change ∀ err, .error err ∈ heardIn s others → _ at herror
  change _ = withDec ((counted (checkFloat s others)).hearAll (heardIn s others)) _ at hdec
  generalize (decoded (checkFloat s others)).hw.dec = d at hdec
  rw [hdec]
  generalize hcs : heardIn s others = cs at *
  have hall : Backed ((counted (checkFloat s others)).hearAll cs) ∧
      (((counted (checkFloat s others)).hearAll cs).tx.state.busy →
        Stands 1 ((counted (checkFloat s others)).hearAll cs) (sofar (checkFloat s others).told).length
          (10 * ((checkFloat s others).tx.bufEnd + 1))) := by
    by_cases hb : (checkFloat s others).tx.state.busy
    · obtain ⟨sent, hfetched, hsent⟩ := hframed.busy hb
      have hk : (sofar (checkFloat s others).told).length = sent.length := by rw [sofar, hfetched]; rfl
      have hsending : Sending (counted (checkFloat s others)) sent :=
        ⟨hbacked, hfetched, hsent, hframed.size⟩
      rw [hk] at hpaced hstands ⊢
      obtain ⟨hreach, hgo⟩ := paced_reaching hsending (hstands hb) (sound_reaching hsound)
        (fun err => reaching_error _ err cs) (hpaced hb)
      refine ⟨backed_hearAll herror hreach, fun hbusy => ?_⟩
      obtain ⟨heq, hbroken⟩ := hearAll_reaching hbusy
      rw [heq] at hbusy ⊢
      exact hgo hbusy hbroken
    · refine ⟨backed_hearAll herror ?_, fun hbusy => ?_⟩
      · rw [reaching_free (s := counted (checkFloat s others)) hb]
        exact hbacked
      · exact absurd ((hearAll_busy hbusy).1 ▸ hbusy) hb
  refine ⟨hall.1.same rfl [] rfl fun _ he => absurd he List.not_mem_nil, fun hbusy => ?_⟩
  have htold := (@hearAll_busy _ _ _ cs hbusy).2.1
  have hend := (keptTx_bufEnd (checkFloat s others).tx.bufEnd).hearAll
    (s := counted (checkFloat s others)) rfl cs
  have hstand := hall.2 hbusy
  rw [← hend] at hstand
  have htold' : sofar ((counted (checkFloat s others)).hearAll cs).told = sofar (checkFloat s others).told := by
    rw [htold]; rfl
  rw [← htold'] at hstand
  rcases hstand with hlt | ⟨c, hopen, hc⟩
  · exact .inl hlt
  · exact .inr ⟨c, hopen.same ⟨rfl, .inl rfl⟩ rfl rfl rfl, hc⟩

/-- The next byte brings the transmitter one bit further ahead. -/
theorem stands_next {v : Cec Usi} (hb : Backed v) (hf : Framed Busy v) (hr : Rested v) (hp : Phased v) (hw : Waits v)
    (hs : v.tx.state.busy → Stands 1 v (sofar v.told).length (10 * (v.tx.bufEnd + 1))) :
    Backed (cecUsiNextBit v).1 ∧ ((cecUsiNextBit v).1.tx.state.busy →
      Stands 2 (cecUsiNextBit v).1 (sofar (cecUsiNextBit v).1.told).length
        (10 * ((cecUsiNextBit v).1.tx.bufEnd + 1))) := by
  rw [cecUsiNextBit]
  split
  · next hx =>
    split
    · next hc =>
      -- an attempt begins after idle frames, which have ended any reception
      obtain ⟨hmsg, hstats⟩ := transmitStart_message v
      refine ⟨hb.extend [.begin] rfl (fun _ he => List.mem_singleton.mp he ▸ rfl) fun _ h0 => ?_, fun _ => ?_⟩
      · change (cecTransmitStart v).tx.stats _ ≠ 0 at h0
        rw [hstats] at h0
        split at h0
        · exact absurd rfl h0
        · next hne => exact ⟨hmsg, hne, h0⟩
      · have h3 : cecPrevPeriodWait ≤ v.hw.idleFrames := Nat.le_trans hw hc.2
        exact .inl ⟨Nat.zero_le _, (hr.ended h3).1⟩
    · -- all bits are out, or no attempt is under way
      refine ⟨hb, fun (hbusy : v.tx.state.busy) => ?_⟩
      change Stands 2 v (sofar v.told).length (10 * (v.tx.bufEnd + 1))
      have hwait : v.tx.state = .waitForAck := by
        by_contra hne
        exact hp.fetches hbusy hne hx
      obtain ⟨sent, hsent, hfetch⟩ := hf.busy hbusy
      have hk : (sofar v.told).length = sent.length := by rw [sofar, hsent]; rfl
      have hall : sent.length = 10 * (v.tx.bufEnd + 1) := by
        rw [hfetch.whole_iff.mpr hwait, length_framing, length_message]
      rcases hs hbusy with ⟨hlt, h0⟩ | ⟨c, ho, hc⟩
      · exact .inl ⟨by omega, h0⟩
      · exact .inr ⟨c, ho, by omega⟩
  · next hx =>
    refine ⟨hb.same rfl [] rfl fun _ he => absurd he List.not_mem_nil, fun (hbusy : v.tx.state.busy) => ?_⟩
    have h0 : (sofar v.told).length = 0 := by rw [hp.start hx hbusy]; rfl
    rcases hs hbusy with ⟨hlt, hz⟩ | ⟨c, ho, hc⟩
    · exact .inl ⟨by change (sofar v.told).length ≤ 2; omega, hz⟩
    · omega
  · next hx =>
    have hbusy : Busy v.hw := fun hi => UsiXmit.noConfusion (hx.symm.trans hi)
    obtain ⟨sent, hsent, hfetch, hsent', hfetch'⟩ := hf.next hbusy
    have hlt := hfetch.lt_of_asked (hf.asks hbusy)
    obtain ⟨hmsg, hstats⟩ := getBit_message v.tx (Driver.idleWait Usi v.build cecPresentPeriodWait)
    have hend : (cecTransmitGetBit v).1.tx.bufEnd = v.tx.bufEnd := getBit_bufEnd ..
    refine ⟨hb.extend [_] rfl (fun _ he => List.mem_singleton.mp he ▸ rfl) fun _ h0 => ?_, fun _ => ?_⟩
    · refine ⟨hmsg, busy_ne_pend hfetch.busy, ?_⟩
      rw [← hstats]
      exact h0
    · have hk : (sofar v.told).length = sent.length := by rw [sofar, hsent]; rfl
      have hk' : (sofar (cecTransmitGetBit v).1.told).length = sent.length + 1 := by
        rw [sofar, hsent']
        simp
      change Stands 2 _ (sofar (cecTransmitGetBit v).1.told).length (10 * ((cecTransmitGetBit v).1.tx.bufEnd + 1))
      rw [hk', hend]
      rcases hs hfetch.busy with ⟨hle, hz⟩ | ⟨c, ho, hc⟩
      · exact .inl ⟨by omega, hz⟩
      · exact .inr ⟨c, ho.same ⟨rfl, .inl rfl⟩ hmsg rfl rfl, by omega⟩

/-! ### The rest of a step -/

theorem handleAck_same (s : Cec Usi) (others : Bool) :
    (handleAck s others).tx = s.tx ∧ (handleAck s others).log = s.log ∧ KeepsRx s (handleAck s others) := by
  rw [handleAck]
  dsimp only
  repeat' split
  all_goals exact ⟨rfl, rfl, rfl, .inl rfl⟩

/-- It leaves an attempt under way and its reception alone. -/
theorem InPace.same {s t : Cec Usi} (h : InPace s) (hq : Queues s t) : InPace t := by
  obtain ⟨⟨es, hlog, hes⟩, hneeded, htx, hkeeps⟩ := hq
  have hsettles : ∀ e ∈ es, e.settles = false := by
    rcases hes with rfl | rfl
    · exact fun _ he => absurd he List.not_mem_nil
    · exact fun _ he => List.mem_singleton.mp he ▸ rfl
  have hopen : openBits t.log = openBits s.log ∧ openedAt t.log = openedAt s.log ∧ t.told = s.told := by
    rw [Cec.told, hlog]
    rcases hes with rfl | rfl <;> exact ⟨rfl, rfl, rfl⟩
  refine ⟨h.backed.extend _ hlog hsettles fun hp h0 => ?_, ?_, fun hb => ?_⟩
  · have heq := htx hp
    exact ⟨by rw [heq], heq ▸ hp, heq ▸ h0⟩
  · rw [Waits, hneeded]
    exact h.waits
  · have heq := htx (busy_ne_pend hb)
    rw [heq] at hb
    rw [hopen.2.2, heq]
    rcases h.stands hb with ⟨hk, hz⟩ | ⟨c, ho, hc⟩
    · exact .inl ⟨hk, hkeeps.flags.trans hz⟩
    · exact .inr ⟨c, ho.same hkeeps (by rw [heq]) hopen.1 hopen.2.1, hc⟩

theorem phased_queue {s t : Cec Usi} (h : Phased s) (hhw : t.hw = s.hw) (htold : t.told = s.told)
    (hq : Queues s t) : Phased t := by
  refine ⟨fun hb hw => ?_, fun hx hb => ?_⟩
  · have heq := hq.tx (busy_ne_pend hb)
    rw [hhw]
    exact h.fetches (heq ▸ hb) (heq ▸ hw)
  · have heq := hq.tx (busy_ne_pend hb)
    rw [htold]
    exact h.start (hhw ▸ hx) (heq ▸ hb)

theorem inPace_handleAck {v : Cec Usi} (h : InPace v) (others : Bool) : InPace (handleAck v others) := by
  obtain ⟨htx, hlog, hkeeps⟩ := handleAck_same v others
  exact h.same ⟨⟨[], hlog, .inl rfl⟩, by rw [htx], fun _ => htx, hkeeps⟩

theorem inPace_poll {s : Cec Usi} (h : March s) {others : Bool} (hi : InStep s (.poll others false))
    (others₂ : Bool) : InPace (cecReceivePeriodic s others others₂) := by
  have hwaits := waits_checkFloat h.waits others
  rw [cecReceivePeriodic]
  split
  · next ho =>
    obtain ⟨hframed, -⟩ := sane_checkFloat h.sane others
    have hfloat : Rested (checkFloat s others) := by
      refine ⟨?_, ?_⟩
      · rw [checkFloat_idleFrames, checkFloat_dec]; exact h.sane.rested.high
      · rw [checkFloat_idleFrames, checkFloat_dec, (sameReceive_checkFloat s others).rx]
        exact h.sane.rested.ended
    have hrested : Rested (decoded (checkFloat s others)) :=
      rested_decoded hfloat (by rw [checkFloat_dec]; exact h.sane.valid)
    have hfr : Framed Busy (decoded (checkFloat s others)) :=
      keptTx_decoded ((keptCalls_framed fetches).keptTx fetches) hframed
    have hphased : Phased (decoded (checkFloat s others)) :=
      keptTx_decoded keptTx_phased (keptTx_checkFloat keptTx_phased h.phased others)
    have hwd : Waits (decoded (checkFloat s others)) := by
      rw [decoded_hear]
      exact waits_hearAll (s := counted (checkFloat s others)) hwaits _
    obtain ⟨hb, hs⟩ := stands_decoded h hi ho
    obtain ⟨hb', hs'⟩ := stands_next hb hfr hrested hphased hwd hs
    refine inPace_handleAck (v := writeOut (decoded (checkFloat s others)))
      ⟨hb'.same rfl [] rfl fun _ he => absurd he List.not_mem_nil, waits_next hwd, fun hbusy => ?_⟩ others₂
    rcases hs' hbusy with hlt | ⟨c, ho, hc⟩
    · exact .inl hlt
    · exact .inr ⟨c, ho.same ⟨rfl, .inl rfl⟩ rfl rfl rfl, hc⟩
  · exact inPace_handleAck ⟨backed_checkFloat h.backed others, hwaits, stands_checkFloat h.toInPace⟩ others₂

theorem march_step {s : Cec Usi} (h : March s) {i : Step} (hi : InStep s i) : March (step i s) := by
  have hsane := sane_step h.sane i
  cases i with
  | tick others =>
    exact ⟨h.toInPace.same (queues_none rfl rfl rfl rfl), hsane, keptTx_clock keptTx_phased h.phased others⟩
  | poll others₁ others₂ =>
    have hphased : Phased (cecReceivePeriodic s others₁ others₂) := keptTx_poll keptTx_phased phased_next h.phased ..
    have hq := addrPeriodic_queues (cecReceivePeriodic s others₁ others₂)
    exact ⟨(inPace_poll h hi others₂).same hq, hsane,
      phased_queue hphased (addrPeriodic_hw _) (addrPeriodic_told _) hq⟩
  | app a =>
    have hq := app_queues s a
    exact ⟨h.toInPace.same hq, hsane, phased_queue h.phased (app_hw s a) (app_told s a) hq⟩

theorem march_initial (build : Build) (addr : Addr) : March (initial build addr) := by
  have htx : (initial build addr).tx = (cecTransmitInit (boot build addr ({} : Usi).initHw)).tx := by
    rw [initial, cecInit, addrInit_tx rfl]
    rfl
  have hlog : (initial build addr).log = [] := addrInit_log _
  have hidle : (initial build addr).tx.state = .idle := by rw [htx]; rfl
  have hfree : ¬ (initial build addr).tx.state.busy := not_busy_idle hidle
  have hxmit : (initial build addr).hw.xmitState = .idle := by
    rw [initial, cecInit, addrInit_hw]
    rfl
  refine ⟨⟨⟨fun m l hs => ?_, fun _ h0 => ?_⟩, ?_, fun hb => absurd hb hfree⟩, sane_initial build addr,
    fun hb => absurd hb hfree, fun hx => ?_⟩
  · rw [hlog] at hs
    exact absurd (List.suffix_nil.mp hs) (List.cons_ne_nil _ _)
  · rw [htx] at h0
    exact absurd rfl h0
  · rw [Waits, htx]
    exact (by decide : cecPrevPeriodWait ≤ cecNewPeriodWait)
  · rw [hxmit] at hx
    exact UsiXmit.noConfusion hx

theorem march_run (build : Build) (addr : Addr) {is : List Step} (h : Along InStep step (initial build addr) is) :
    March (run step (initial build addr) is) := by
  have hstep : ∀ (s : Cec Usi) (i : Step), March s → InStep s i → March (step i s) := fun _ _ hs hi => march_step hs hi
  exact invariant_run hstep (march_initial build addr) h

end Usi

/-- In every run of the USI build whose bytes are heard in step, whenever the engine takes an ack for
    the last one of its message, the bits consumed since the latest start are the framing of the
    message, every block acked, and that start was the attempt's own. -/
theorem no_false_success (build : Build) (addr : Addr) (is : List Usi.Step)
    (h : Along Usi.InStep Usi.step (Usi.initial build addr) is) (m : List Nat) (l : List Ev)
    (hs : .sent m :: l <:+ (run Usi.step (Usi.initial build addr) is).log) :
    openBits l = some (flat (blocksOf (ackLevel m) m)) ∧ OwnEcho l := by
  have hsent := (Usi.march_run build addr h).backed.sent m l hs
  exact ⟨hsent.bits, hsent.start⟩

/-- A broadcast that nobody refuses. -/
theorem no_false_success_broadcast :
    let log := (run Usi.step (Usi.initial {} (.fixed 4)) unread).log
    openBits (log.drop 3) = some (flat (blocksOf (ackLevel [0x4f, 0x36]) [0x4f, 0x36])) ∧ OwnEcho (log.drop 3) :=
  no_false_success {} (.fixed 4) unread (by decide +kernel) [0x4f, 0x36] _
    ⟨(run Usi.step (Usi.initial {} (.fixed 4)) unread).log.take 2, by decide +kernel⟩

/-- A byte time in which another device holds the line low in the ticks that `low` names. -/
def heldByte (low : Nat → Bool) : List Usi.Step :=
  (List.range 8).map (fun i => Usi.Step.tick (low i)) ++ [.poll false false]

/-- The ping of `stretchedStart`; then, with the engine still waiting for its ack, another device sends
    a start bit and ten zeros. -/
def fooled : List Usi.Step :=
  .app (.send [0x45]) :: Usi.byteTimes 7 ++ heldByte (fun i => 5 ≤ i) ++ Usi.byteTimes 12 ++
    heldByte (fun i => 1 ≤ i) ++ (List.replicate 11 (heldByte fun i => i < 5)).flatten

/-- The ping is reported a success on the ack bit of the other message. -/
theorem false_success : ¬ ∀ m l, .sent m :: l <:+ (run Usi.step (Usi.initial {} (.fixed 4)) fooled).log →
    openBits l = some (flat (blocksOf (ackLevel m) m)) ∧ OwnEcho l := by
  intro h
  have hbits := (h [0x45] ((run Usi.step (Usi.initial {} (.fixed 4)) fooled).log.drop 1)
    ⟨(run Usi.step (Usi.initial {} (.fixed 4)) fooled).log.take 0, by decide +kernel⟩).1
  exact absurd hbits (by decide +kernel)

end AvrCec
