import AvrCec.Alone

/-! When a logical address is claimed.

    The address module takes `TRANSMIT_FAILED` for "nobody answers". A poll also fails when its
    attempts end for any other reason, and then its address is claimed without having been polled once
    (`claimed_unpolled`). Where nobody interferes with the poll in one of its attempts, in a run whose
    bits are heard in step, an attempt of the poll was sent in full and its ack slot read back high
    (`claimed_when_alone`). -/

namespace AvrCec
open Lib

/-! ### The soft driver in step -/

namespace Soft

/-- What a poll hears in an attempt is in step with the transmitter. -/
def InStep (s : Cec Soft) : Step → Prop
  | .recv delta level => (∀ c ∈ sampleCall s delta level, OnTime s c) ∧
      ∀ c ∈ edgeCall (beforeEdge s delta level) level, OnTime (beforeEdge s delta level) c
  | _ => True

instance (s : Cec Soft) (i : Step) : Decidable (InStep s i) :=
  match i with
  | .recv .. => instDecidableAnd
  | .xmit .. | .addr | .overflow | .app _ => .isTrue trivial

/-- What holds in every run in step. -/
structure Hears (s : Cec Soft) : Prop where
  framed : Framed Busy s
  echoes : Echoes s

theorem framed_keptTx : KeptTx Soft.pwm (Framed (D := Soft) Busy) := (keptCalls_framed fetches).keptTx fetches

/-- A change of the driver that starts no fetching. -/
theorem Hears.hw {s t : Cec Soft} (h : Hears s) (hb : Busy t.hw → Busy s.hw) (hbuild : t.build = s.build)
    (hrx : t.rx = s.rx) (htx : t.tx = s.tx) (hlog : t.log = s.log) : Hears t :=
  ⟨(keptCalls_framed fetches).quiet h.framed (by rw [htx]) hb (by rw [Cec.told, Cec.told, hlog]),
    echoes_queues h.echoes (queues_none hlog htx hbuild hrx)⟩

theorem Hears.hear {s : Cec Soft} (h : Hears s) {c : Heard} (hc : OnTime s c)
    (hne : ∀ err, c = .error err → err ≠ .nack) : Hears (s.hear c) :=
  ⟨framed_keptTx.hear h.framed c, echoes_hear h.echoes h.framed hc hne⟩

/-- Stated for any driver state, so that the kernel compares no driver. -/
theorem onTime_hw {s : Cec Soft} {c : Heard} (h : OnTime s c) (u : Soft) : OnTime { s with hw := u } c := by
  cases c <;> exact h

/-- The driver reports no nack. -/
theorem sampleCall_error {s : Cec Soft} {delta : Nat} {level : Bool} :
    ∀ c ∈ sampleCall s delta level, ∀ err, c = .error err → err ≠ .nack := by
  rw [sampleCall]
  repeat' split
  all_goals
    rintro c hc err rfl
    cases hc
  exact Err.noConfusion

theorem edgeCall_error {s : Cec Soft} {level : Bool} :
    ∀ c ∈ edgeCall s level, ∀ err, c = .error err → err ≠ .nack := by
  rw [edgeCall, fallCall]
  repeat' split
  all_goals
    rintro c hc err rfl
    cases hc
  · exact Err.noConfusion
  · exact Err.noConfusion

theorem hears_recv {s : Cec Soft} (h : Hears s) {delta : Nat} {level : Bool} (hi : InStep s (.recv delta level)) :
    Hears (cecReceivePeriodic s delta level) := by
  have hhw : ∀ {t : Cec Soft} {u : Soft}, Hears t → u.pwm = t.hw.pwm → Hears { t with hw := u } :=
    fun ht hu => ht.hw (fun hb => by rw [Busy, ← hu]; exact hb) rfl rfl rfl rfl
  exact keeps_recv hhw h (fun c hc u hu => hu.hear (onTime_hw (hi.1 c hc) u) (sampleCall_error c hc))
    fun c hc u hu => hu.hear (onTime_hw (hi.2 c hc) u) (edgeCall_error c hc)

theorem keptXmit_hears : KeptXmit Hears where
  lost h := ⟨framed_keptTx.error h.framed .arbLost, echoes_onError h.echoes Err.noConfusion⟩
  regs f h hx _ := h.hw (fun hb => by rw [Busy, ← hx]; exact hb) rfl rfl rfl rfl
  end1 h _ := h.hw (fun hb => absurd hb (not_busy rfl PwmState.noConfusion PwmState.noConfusion)) rfl rfl rfl rfl
  end2 h := h.hw (fun hb => absurd hb (not_busy rfl PwmState.noConfusion PwmState.noConfusion)) rfl rfl rfl rfl
  fetch {s} h hb := by
    obtain ⟨_, _, hfetch, -, -⟩ := h.framed.next hb
    exact ⟨(keptEngine_pwm (keptCalls_framed fetches).toKeptEngine).fetch h.framed hb,
      echoes_fetch h.echoes hfetch.busy rfl rfl ⟨rfl, .inl rfl⟩⟩
  begin h hx hp := ⟨(keptEngine_pwm (keptCalls_framed fetches).toKeptEngine).begin h.framed hx hp,
    echoes_begin h.echoes rfl rfl⟩

theorem hears_step {s : Cec Soft} (h : Hears s) {i : Step} (hi : InStep s i) : Hears (step i s) := by
  cases i with
  | recv delta level => exact hears_recv h hi
  | xmit delta level => exact keptXmit_periodic keptXmit_hears h delta level
  | addr => exact ⟨framed_step h.framed .addr, echoes_queues h.echoes (addrPeriodic_queues s)⟩
  | overflow =>
    rw [step, timerOverflow]
    split
    · exact keptXmit_hears.regs _ h rfl rfl
    · exact h
  | app a => exact ⟨framed_step h.framed (.app a), echoes_queues h.echoes (app_queues s a)⟩

theorem hears_initial (build : Build) (addr : Addr) : Hears (initial build addr) := by
  have htx : (initial build addr).tx = (cecTransmitInit (boot build addr ({} : Soft).initHw)).tx := by
    rw [initial, cecInit, addrInit_tx rfl]
    rfl
  have hlog : (initial build addr).log = [] := addrInit_log _
  have hidle : (initial build addr).tx.state = .idle := by rw [htx]; rfl
  refine ⟨framed_run build addr [], ⟨fun m l hs => ?_, fun _ h0 => ?_⟩, fun hb => absurd hb (not_busy_idle hidle)⟩
  · rw [hlog] at hs
    exact absurd (List.suffix_nil.mp hs) (List.cons_ne_nil _ _)
  · rw [htx] at h0
    exact absurd rfl h0

end Soft

/-! ### Polls -/

section
variable {D : Type}

/-- While no address is assigned, what the transmit interface holds is a poll of a table address. -/
def Polls (table : List Nat) (s : Cec D) : Prop :=
  ∃ address idx, s.addr = .devType table address idx ∧ idx ≤ table.length ∧
    (address = 0xff → s.tx.state ≠ .idle → ∃ v ∈ table, s.tx.message = [v])

/-- The engines' turn. -/
theorem polls_turn {table : List Nat} {s t : Cec D} (h : Polls table s) (ht : Turn s t)
    (hm : t.tx.message = s.tx.message) : Polls table t := by
  obtain ⟨address, idx, haddr, hidx, hpoll⟩ := h
  refine ⟨address, idx, ht.addr.trans haddr, hidx, fun ha hne => ?_⟩
  rw [hm]
  refine hpoll ha fun hidle => hne ?_
  rw [ht.rest (by rw [hidle]; decide), hidle]

/-- The module queues the next address of the table. -/
theorem polls_addrPeriodic {table : List Nat} {s : Cec D} (h : Polls table s) : Polls table (cecAddrPeriodic s) := by
  obtain ⟨address, idx, haddr, hidx, hpoll⟩ := h
  rw [cecAddrPeriodic, haddr]
  dsimp only
  split
  · exact ⟨address, idx, haddr, hidx, hpoll⟩
  · split
    · next hidle =>
      have hidle : s.tx.state = .idle := hidle
      split
      · exact ⟨_, idx, rfl, hidx, fun _ hne => absurd hidle hne⟩
      · next hne =>
        have hlt : idx < table.length := by omega
        refine ⟨address, (idx + 1) % 256, rfl, by omega, fun _ _ => ⟨table[idx], List.getElem_mem hlt, ?_⟩⟩
        change (List.range (0 + 1)).map (Function.update s.tx.buf 0 (table.getD idx 0)) = _
        simp [List.getD_eq_getElem?_getD, List.getElem?_eq_getElem hlt]
    · split
      · next hnot hidle hfailed =>
        have hne : s.tx.buf 0 &&& 0xf ≠ 0xff := by
          have hle : s.tx.buf 0 &&& 0xf < 2 ^ 4 := Nat.and_lt_two_pow _ (by decide)
          omega
        exact ⟨_, idx, rfl, hidx, fun ha => absurd ha hne⟩
      · exact ⟨address, idx, haddr, hidx, hpoll⟩

/-- The application loads the transmit interface only once an address is assigned. -/
def Reserved (s : Cec D) : App → Prop
  | .send _ => s.tx.state.val < TransmitState.pend.val → cecAddrReady s.addr = true
  | .clear | .assign _ => True

instance (s : Cec D) (a : App) : Decidable (Reserved s a) :=
  match a with
  | .send _ => by dsimp only [Reserved]; infer_instance
  | .clear | .assign _ => .isTrue trivial

theorem polls_app {table : List Nat} {s : Cec D} (h : Polls table s) {a : App}
    (hready : Reserved s a) : Polls table (a.step s) := by
  obtain ⟨address, idx, haddr, hidx, hpoll⟩ := h
  cases a with
  | clear => exact ⟨address, idx, haddr, hidx, hpoll⟩
  | assign m =>
    rw [App.step, haddr]
    exact ⟨address, idx, haddr, hidx, hpoll⟩
  | send m =>
    rw [App.step]
    split
    · next hc =>
      refine ⟨address, idx, haddr, hidx, fun ha => ?_⟩
      have hr := hready hc.1
      rw [haddr, ha] at hr
      exact Bool.noConfusion hr
    · exact ⟨address, idx, haddr, hidx, hpoll⟩

variable [Driver D] {act : D → Prop}

/-- The engines leave the message alone. -/
theorem keptEngine_message (m : List Nat) : KeptEngine act fun s : Cec D => s.tx.message = m where
  quiet h ht _ _ := by rw [ht]; exact h
  onError err h hb := by
    obtain ⟨_, _, -, -, htx⟩ := onError_charged hb err
    rw [htx]
    exact h
  acked h hw := by
    rw [cecTransmitReceiveAck, if_pos rfl, if_pos hw]
    exact h
  begin {s t} h _ _ ht _ := by
    rw [ht]
    exact (transmitStart_message s).1.trans h
  fetch {s t} h _ ht _ _ := by
    rw [ht]
    exact (getBit_message s.tx _).1.trans h

/-- An attempt of the poll `v` was sent in full, and its ack slot read back as a nack. -/
def Unanswered (v : Nat) (log : List Ev) : Prop :=
  ∃ l, .abort .nack :: l <:+ log ∧ fetched l = some (framing [v]) ∧
    openBits l = some ((framing [v]).take 9 ++ [!ackLevel [v]]) ∧ OwnEcho l

omit [Driver D] in
theorem unanswered_of_refused {v : Nat} {l log : List Ev} (hl : .abort .nack :: l <:+ log) (h : Refused [v] l) :
    Unanswered v log := by
  obtain ⟨hstart, c, h9, hc, hopen, sent, hsent, hpre, hlt⟩ := h
  have hc9 : c = 9 := by
    rw [List.length_singleton] at hc
    omega
  subst hc9
  have hall : sent = framing [v] := by
    refine hpre.eq_of_length (Nat.le_antisymm hpre.length_le ?_)
    rw [length_framing, List.length_singleton]
    omega
  have htake : (echo [v]).take 9 = (framing [v]).take 9 := by
    refine List.ext_getElem? fun i => ?_
    rw [List.getElem?_take, List.getElem?_take]
    split
    · next hi =>
      rw [getElem?_echo [v] i (by rw [List.length_singleton]; omega), if_neg (by omega)]
    · rfl
  exact ⟨l, hl, hall ▸ hsent, htake ▸ hopen, hstart⟩

omit [Driver D] in
/-- A call of the address module that takes a table address for its own finds one that nobody answers. -/
def ClaimsUnanswered (table : List Nat) (u : Cec D) : Prop :=
  logicalAddress u.addr = 0xff → ∀ a, logicalAddress (cecAddrPeriodic u).addr = a → a ≠ 0xff →
    a ≠ cecAddrUnregistered → ∃ v ∈ table, v &&& 0xf = a ∧ Unanswered v u.log

omit [Driver D] in
theorem claimsUnanswered {table : List Nat} {u : Cec D} (h : Polls table u) (hb : Backed u)
    (hn : u.tx.state = .failed → u.tx.stats Err.nack.val ≠ 0) : ClaimsUnanswered table u := by
  obtain ⟨address, idx, haddr, -, hpoll⟩ := h
  intro hfree a ha hne hun
  have hff : address = 0xff := by rw [haddr] at hfree; exact hfree
  subst hff
  have hnot : ¬ cecAddrReady (.devType table 0xff idx) = true := Bool.false_ne_true
  rw [cecAddrPeriodic, haddr] at ha
  dsimp only at ha
  rw [if_neg hnot] at ha
  split at ha
  · split at ha
    · exact absurd ha.symm hun
    · exact absurd ha.symm hne
  · split at ha
    · next hfailed =>
      have hfailed : u.tx.state = .failed := hfailed
      have hidle : u.tx.state ≠ .idle := by rw [hfailed]; exact TransmitState.noConfusion
      obtain ⟨v, hv, hm⟩ := hpoll rfl hidle
      obtain ⟨l, hl, hr⟩ := hb.nacked (by rw [hfailed]; exact TransmitState.noConfusion) (hn hfailed)
      have hhead : u.tx.buf 0 = v := by
        have hlen := congrArg List.length hm
        rw [length_message, List.length_singleton] at hlen
        have hzero : u.tx.message[0]? = some (u.tx.buf 0) := by simp [Transmit.message]
        rw [hm] at hzero
        exact (Option.some.inj hzero).symm
      have hlow : u.tx.buf 0 &&& 0xf = a := ha
      exact ⟨v, hv, hhead ▸ hlow, unanswered_of_refused hl (hm ▸ hr)⟩
    · rw [show (clearHeader u).addr = _ from haddr] at ha
      exact absurd ha.symm hne

end

/-! ### Runs -/

theorem polls_initial {D : Type} {s : Cec D} {table : List Nat} (haddr : s.addr = .devType table 0xff 0)
    (hidle : s.tx.state = .idle) : Polls table s :=
  ⟨0xff, 0, haddr, Nat.zero_le _, fun _ hne => absurd hidle hne⟩

theorem tried_initial {D : Type} {s : Cec D} (n : Nat) (hidle : s.tx.state = .idle) : Tried n s :=
  fun _ hp => .inr ⟨hp, .inl hidle⟩

namespace Usi

/-- The application leaves the transmit interface to the module until an address is assigned. -/
def Yields (s : Cec Usi) : Step → Prop
  | .app a => Reserved s a
  | .tick _ | .poll .. => True

instance (s : Cec Usi) (i : Step) : Decidable (Yields s i) :=
  match i with
  | .app a => inferInstanceAs (Decidable (Reserved s a))
  | .tick _ | .poll .. => .isTrue trivial

theorem polls_poll {table : List Nat} {s : Cec Usi} (hf : Framed Busy s) (h : Polls table s) (others₁ others₂ : Bool) :
    Polls table (cecReceivePeriodic s others₁ others₂) :=
  polls_turn h (turn_poll hf others₁ others₂)
    (keptEngine_poll (keptEngine_message s.tx.message) rfl others₁ others₂)

theorem polls_step {table : List Nat} {s : Cec Usi} (hf : Framed Busy s) (h : Polls table s) {i : Step}
    (hi : Yields s i) : Polls table (step i s) := by
  cases i with
  | tick others => exact h
  | poll others₁ others₂ => exact polls_addrPeriodic (polls_poll hf h others₁ others₂)
  | app a => exact polls_app h hi

/-- What holds in a run in step whose `n`th attempt is alone. -/
structure Watched (table : List Nat) (n : Nat) (s : Cec Usi) : Prop extends March s where
  polls : Polls table s
  poised : Poised Busy s
  tried : Tried n s

theorem watched_run (build : Build) (table : List Nat) (n : Nat) {is : List Step}
    (h : Along (fun s i => (InStep s i ∧ Yields s i) ∧ AloneIn Alone n s i) step
      (initial build (.devType table 0 0)) is) : Watched table n (run step (initial build (.devType table 0 0)) is) := by
  have hstep : ∀ (s : Cec Usi) (i : Step), Watched table n s → (InStep s i ∧ Yields s i) ∧ AloneIn Alone n s i →
      Watched table n (step i s) := fun s i hs hi =>
    ⟨march_step hs.toMarch hi.1.1, polls_step hs.sane.framed hs.polls hi.1.2, poised_step hs.poised i,
      tried_step hs.poised hs.tried hi.2⟩
  have h0 := march_initial build (.devType table 0 0)
  exact invariant_run hstep ⟨h0, polls_initial rfl rfl, poised_initial h0.sane.framed rfl rfl, tried_initial n rfl⟩ h

end Usi

namespace Soft

/-- The same in the PWM build. -/
def Yields (s : Cec Soft) : Step → Prop
  | .app a => Reserved s a
  | .recv .. | .xmit .. | .addr | .overflow => True

instance (s : Cec Soft) (i : Step) : Decidable (Yields s i) :=
  match i with
  | .app a => inferInstanceAs (Decidable (Reserved s a))
  | .recv .. | .xmit .. | .addr | .overflow => .isTrue trivial

theorem polls_step {table : List Nat} {s : Cec Soft} (hf : Framed Busy s) (h : Polls table s) {i : Step}
    (hi : Yields s i) : Polls table (step i s) := by
  cases i with
  | recv delta level =>
    exact polls_turn h (turn_recv hf delta level)
      (keptTx_recv ((keptEngine_message s.tx.message : KeptEngine Busy _).keptTx fetches) rfl delta level)
  | xmit delta level =>
    exact polls_turn h (turn_xmit hf delta level)
      (keptXmit_periodic (keptEngine_pwm (keptEngine_message s.tx.message)).toKeptXmit rfl delta level)
  | addr => exact polls_addrPeriodic h
  | overflow =>
    rw [step, timerOverflow]
    split
    · exact h
    · exact h
  | app a => exact polls_app h hi

structure Watched (table : List Nat) (n : Nat) (s : Cec Soft) : Prop extends Hears s where
  polls : Polls table s
  poised : Poised Busy s
  tried : Tried n s

theorem watched_run (build : Build) (table : List Nat) (n : Nat) {is : List Step}
    (h : Along (fun s i => (InStep s i ∧ Yields s i) ∧ AloneIn Alone n s i) step
      (initial build (.devType table 0 0)) is) : Watched table n (run step (initial build (.devType table 0 0)) is) := by
  have hstep : ∀ (s : Cec Soft) (i : Step), Watched table n s → (InStep s i ∧ Yields s i) ∧ AloneIn Alone n s i →
      Watched table n (step i s) := fun s i hs hi =>
    ⟨hears_step hs.toHears hi.1.1, polls_step hs.framed hs.polls hi.1.2, poised_step hs.poised i,
      tried_step hs.poised hs.tried hi.2⟩
  have h0 := hears_initial build (.devType table 0 0)
  exact invariant_run hstep ⟨h0, polls_initial rfl rfl, poised_initial h0.framed rfl rfl, tried_initial n rfl⟩ h

end Soft

/-- In every run in step of either build in which one attempt of the poll was alone, an address that the
    module claims was polled: an attempt of the poll was sent through its header block and read back a
    negative ack in its ack slot. -/
theorem claimed_when_alone (build : Build) (table : List Nat) :
    (∀ is others₁ others₂, let s := Usi.initial build (.devType table 0 0)
      let all := is ++ [.poll others₁ others₂]
      Along (fun s i => Usi.InStep s i ∧ Usi.Yields s i) Usi.step s all → AloneOnce Usi.Alone Usi.step s all →
      ClaimsUnanswered table (Usi.cecReceivePeriodic (run Usi.step s is) others₁ others₂)) ∧
    ∀ is, let s := Soft.initial build (.devType table 0 0)
      Along (fun s i => Soft.InStep s i ∧ Soft.Yields s i) Soft.step s is → AloneOnce Soft.Alone Soft.step s is →
      ClaimsUnanswered table (run Soft.step s is) := by
  constructor
  · rintro is others₁ others₂ s all hall ⟨n, -, hn, halone⟩
    obtain ⟨his, hlast, -⟩ := (along_append ..).mp (hall.and halone)
    have hw := Usi.watched_run build table n his
    have hcount : n ≤ attempts (Usi.cecReceivePeriodic (run Usi.step s is) others₁ others₂).told := by
      rw [run_concat, Usi.step, Usi.cecPeriodic, addrPeriodic_told] at hn
      exact hn
    exact claimsUnanswered (Usi.polls_poll hw.sane.framed hw.polls others₁ others₂)
      (Usi.inPace_poll hw.toMarch hlast.1.1 others₂).backed
      ((Usi.tried_poll hw.poised hw.tried hlast.2).nacked hcount)
  · rintro is s hall ⟨n, -, hn, halone⟩
    have hw := Soft.watched_run build table n (hall.and halone)
    exact claimsUnanswered hw.polls hw.echoes.backed (hw.tried.nacked hn)

/-- Byte times in which another device pulls the line low for a moment, at the end of the byte. -/
def glitched (n : Nat) : List Usi.Step :=
  (List.replicate n (List.replicate 7 (Usi.Step.tick false) ++ [.poll true false, .tick false, .poll false false])).flatten

/-- Four attempts are lost; the line is quiet in the fifth, up to the poll that decodes its nack. -/
def quietFifth : List Usi.Step := glitched 20 ++ Usi.byteTimes 17 ++ List.replicate 8 (.tick false)

/-- An attempt whose start bit another device stretches, and one that nobody acks. -/
def stretchedPolls : List Soft.Step :=
  [.xmit 12000 true, .overflow, .recv 200 false, .xmit 200 false, .recv 4000 false, .recv 200 true, .overflow,
    .xmit 200 true]

def unackedPolls : List Soft.Step :=
  .xmit 12000 true :: Soft.startPolls ++
    [false, true, false, false, false, true, false, false, false, true].flatMap Soft.bitPolls

/-- A playback device claims the first address of its table after a poll that was alone in its last
    attempt, in both builds. -/
theorem claimed_fifth_attempt :
    (let u := Usi.cecReceivePeriodic (run Usi.step (Usi.initial {} (.devType [0x44] 0 0)) quietFifth) false false
      ∃ v ∈ [0x44], v &&& 0xf = 4 ∧ Unanswered v u.log) ∧
    let u := run Soft.step (Soft.initial {} (.devType [0x44] 0 0))
      (.recv 6000 true :: .addr :: (List.replicate 4 stretchedPolls).flatten ++ unackedPolls)
    ∃ v ∈ [0x44], v &&& 0xf = 4 ∧ Unanswered v u.log := by
  obtain ⟨husi, hsoft⟩ := claimed_when_alone {} [0x44]
  constructor
  · exact husi quietFifth false false (by decide +kernel) ⟨5, by decide, by decide +kernel, by decide +kernel⟩
      (by decide +kernel) 4 (by decide +kernel) (by decide) (by decide)
  · exact hsoft _ (by decide +kernel) ⟨5, by decide, by decide +kernel, by decide +kernel⟩
      (by decide +kernel) 4 (by decide +kernel) (by decide) (by decide)

/-- Every attempt of the poll is lost in its start pattern, or in its first data bits; the address is
    claimed all the same. -/
theorem claimed_unpolled : ¬ ClaimsUnanswered [0x44]
    (Usi.cecReceivePeriodic (run Usi.step (Usi.initial {} (.devType [0x44] 0 0))
      (glitched 25 ++ List.replicate 7 (.tick false))) true false) := by
  intro h
  obtain ⟨v, -, -, l, hl, -⟩ := h (by decide +kernel) 4 (by decide +kernel) (by decide) (by decide)
  exact absurd (hl.subset (List.mem_cons_self ..)) (by decide +kernel)

end AvrCec
