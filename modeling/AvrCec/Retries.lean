import AvrCec.Framing

/-! The retry budget of a message.

    From the moment a message is queued until it is sent or given up, the log holds its attempts and
    the failures charged to them. `Ledger` says that the retry counter and the error counters agree
    with the log, and every call keeps it (`keptCalls_account`). A message is given up after
    `cecXmitMaxRetransmit` failed attempts, the first one included, so it gets one retransmission less
    than the constant names (`retry_budget`). -/

namespace AvrCec
open Lib

/-! ### Counting in the log -/

/-- How many failures each attempt has been charged, newest first. -/
def charges : List Ev → List Nat
  | [] => []
  | .begin :: l => 0 :: charges l
  | .abort _ :: l => (charges l).modifyHead (· + 1)
  | _ :: l => charges l

def attempts (l : List Ev) : Nat := l.countP (· = .begin)

def failures (l : List Ev) : Nat := l.countP fun | .abort _ => true | _ => false

def sentCount (l : List Ev) : Nat := l.countP fun | .sent _ => true | _ => false

/-- Failures for which no error code was given. -/
def uncoded (l : List Ev) : Nat := l.countP (· = .abort .none)

/-- The sum of the six error counters. -/
def Transmit.counters (t : Transmit) : Nat :=
  ([Err.arbLost, .nack, .noEom, .lowDrive, .halt, .hw].map fun e => t.stats e.val).sum

theorem counters_eq (t : Transmit) :
    t.counters = t.stats 1 + (t.stats 2 + (t.stats 3 + (t.stats 4 + (t.stats 5 + t.stats 6)))) := rfl

/-- One more failure in the counters, and in the slot of the missing code. -/
theorem stats_charged (t : Transmit) (err : Err) (h : t.stats 0 + t.counters < 255) :
    let u := { t with stats := Function.update t.stats err.val ((t.stats err.val + 1) % 256) }
    u.stats 0 + u.counters = t.stats 0 + t.counters + 1 ∧
      u.stats 0 = t.stats 0 + if err = .none then 1 else 0 := by
  rw [counters_eq] at h
  dsimp only
  rw [counters_eq, counters_eq]
  cases err <;> simp [Err.val, Function.update] <;> omega

section
variable {D : Type}

/-! ### The ledger of a message -/

/-- The counters of the engine agree with the log `l` of the message. -/
structure Counted (l : List Ev) (t : Transmit) : Prop where
  tried : attempts l ≠ 0
  retries : t.retries = failures l
  total : t.stats 0 + t.counters = failures l
  slot : t.stats 0 = uncoded l
  le : failures l ≤ cecXmitMaxRetransmit
  failed : t.state = .failed ↔ failures l = cecXmitMaxRetransmit

/-- The log `l` since the message was queued, and the engine. -/
structure Ledger (l : List Ev) (t : Transmit) : Prop where
  once : ∀ c ∈ charges l, c ≤ 1
  sum : (charges l).sum = failures l
  current : t.state.busy → ∃ rest, charges l = 0 :: rest
  /-- The message waits for its first attempt, or its attempts have been counted. -/
  going : sentCount l = 0 → l = [] ∧ t.state = .pend ∨ Counted l t ∧ t.state ≠ .pend ∧ t.state ≠ .idle
  /-- So have they when it has just been sent. -/
  sent : sentCount l = 1 → t.state = .idle → Counted l t

/-- The log has grown by a part that agrees with the engine. -/
def Account (told : List Ev) (s : Cec D) : Prop := ∃ l, s.told = l ++ told ∧ Ledger l s.tx

theorem Counted.congr {l : List Ev} {t u : Transmit} (h : Counted l t) (hr : u.retries = t.retries)
    (hs : u.stats = t.stats) (hf : u.state = .failed ↔ t.state = .failed) : Counted l u := by
  refine ⟨h.tried, hr.trans h.retries, ?_, ?_, h.le, hf.trans h.failed⟩
  · rw [counters_eq, hs, ← counters_eq]
    exact h.total
  · rw [hs]
    exact h.slot

variable [Driver D] {X : Type} {view : D → X} {act : D → Prop}

omit [Driver D] in
/-- A message that is not sent, with the engine busy, has been tried and not given up. -/
theorem Ledger.counted {l : List Ev} {t : Transmit} (h : Ledger l t) (hb : t.state.busy)
    (h0 : sentCount l = 0) : Counted l t := by
  rcases h.going h0 with ⟨-, hp⟩ | ⟨hc, -, -⟩
  · exact absurd hp (busy_ne_pend hb)
  · exact hc

/-- A failure is charged. -/
theorem Ledger.charge {l : List Ev} {s : Cec D} (h : Ledger l s.tx) (hb : s.tx.state.busy) (err : Err) :
    Ledger (.abort err :: l) (cecTransmitOnError s err).tx := by
  obtain ⟨state, needed, hs, hfailed, htx⟩ := onError_charged hb err
  obtain ⟨rest, hrest⟩ := h.current hb
  have hcharges : charges (.abort err :: l) = 1 :: rest := by
    change (charges l).modifyHead _ = _
    rw [hrest]
    rfl
  have hfail : failures (.abort err :: l) = failures l + 1 := by simp [failures]
  have hfree : ¬ state.busy := by rcases hs with rfl | rfl <;> decide
  have honce := h.once
  have hsum := h.sum
  rw [hrest] at honce hsum
  rw [htx]
  refine ⟨?_, ?_, ?_, fun h0 => ?_, fun _ hi => ?_⟩
  · rw [hcharges]
    intro c hc
    rcases List.mem_cons.mp hc with rfl | hc
    · exact Nat.le_refl 1
    · exact honce c (List.mem_cons_of_mem _ hc)
  · rw [hcharges, hfail, ← hsum]
    simp [Nat.add_comm]
  · intro hbusy
    exact absurd hbusy hfree
  · have h0' : sentCount l = 0 := by simpa [sentCount] using h0
    have hc := h.counted hb h0'
    have hne : failures l ≠ cecXmitMaxRetransmit := by
      intro he
      have hf := hc.failed.mpr he
      rw [hf] at hb
      exact absurd hb (by decide)
    have hle := hc.le
    have hretries := hc.retries
    have htotal := hc.total
    unfold cecXmitMaxRetransmit at hne hle
    have hmod : (s.tx.retries + 1) % 256 = failures l + 1 := by omega
    obtain ⟨hstats, hslot⟩ := stats_charged s.tx err (by omega)
    refine .inr ⟨⟨?_, ?_, ?_, ?_, ?_, ?_⟩, ?_, ?_⟩
    · simpa [attempts] using hc.tried
    · rw [hfail]; exact hmod
    · rw [hfail, ← htotal]; exact hstats
    · have hun : uncoded (.abort err :: l) = uncoded l + if err = .none then 1 else 0 := by
        simp [uncoded, List.countP_cons]
      rw [hun, ← hc.slot]
      exact hslot
    · rw [hfail]; unfold cecXmitMaxRetransmit; omega
    · rw [hfail, hfailed, hmod]
    · rcases hs with rfl | rfl <;> exact TransmitState.noConfusion
    · rcases hs with rfl | rfl <;> exact TransmitState.noConfusion
  · rcases hs with rfl | rfl <;> exact TransmitState.noConfusion hi

omit [Driver D] in
/-- An attempt begins. -/
theorem Ledger.begin {l : List Ev} {s : Cec D} (h : Ledger l s.tx) (hp : s.tx.state.pending) :
    Ledger (.begin :: l) (cecTransmitStart s).tx := by
  refine ⟨?_, ?_, fun _ => ⟨charges l, rfl⟩, fun h0 => ?_, fun _ hi => TransmitState.noConfusion hi⟩
  · intro c hc
    rcases List.mem_cons.mp hc with rfl | hc
    · exact Nat.zero_le _
    · exact h.once c hc
  · have hfail : failures (.begin :: l) = failures l := by simp [failures]
    rw [hfail, ← h.sum]
    exact List.sum_cons.trans (Nat.zero_add _)
  · have h0' : sentCount l = 0 := by simpa [sentCount] using h0
    refine .inr ⟨?_, TransmitState.noConfusion, TransmitState.noConfusion⟩
    rcases h.going h0' with ⟨rfl, hpend⟩ | ⟨hc, hpend, -⟩
    · -- the first attempt resets the counters
      have htx : (cecTransmitStart s).tx = { s.tx with
          retries := 0, stats := fun _ => 0, bufBit := 0x80, bufPos := 0, state := .bitEom } := by
        change { (if s.tx.state = .pend then _ else _ : Transmit) with
          bufBit := 0x80, bufPos := 0, state := .bitEom } = _
        rw [if_pos hpend]
        rfl
      rw [htx]
      exact ⟨by decide, rfl, rfl, rfl, Nat.zero_le _, ⟨fun hf => TransmitState.noConfusion hf, fun he => by
        exact absurd he (by decide)⟩⟩
    · have htx : (cecTransmitStart s).tx = { s.tx with bufBit := 0x80, bufPos := 0, state := .bitEom } := by
        change { (if s.tx.state = .pend then _ else _ : Transmit) with
          bufBit := 0x80, bufPos := 0, state := .bitEom } = _
        rw [if_neg hpend]
        rfl
      have hnot : failures l ≠ cecXmitMaxRetransmit := by
        intro he
        have hf := hc.failed.mpr he
        rw [hf] at hp
        exact absurd hp (by decide)
      have hfail : failures (.begin :: l) = failures l := by simp [failures]
      rw [htx]
      refine ⟨by simp [attempts], hfail ▸ hc.retries, hfail ▸ hc.total, ?_, hfail ▸ hc.le, ?_⟩
      · have hun : uncoded (.begin :: l) = uncoded l := by simp [uncoded]
        rw [hun]; exact hc.slot
      · rw [hfail]
        exact ⟨fun hf => TransmitState.noConfusion hf, fun he => absurd he hnot⟩

omit [Driver D] in
/-- An event that neither begins nor ends an attempt, in one. -/
theorem Ledger.during {l : List Ev} {t u : Transmit} (h : Ledger l t) (hb : t.state.busy) {b : Bool}
    {r : Option Nat} (hr : u.retries = t.retries) (hs : u.stats = t.stats) (hbusy : u.state.busy) :
    Ledger (.getBit b r :: l) u := by
  have hidle : u.state ≠ .idle := fun hi => not_busy_idle hi hbusy
  have hfail : u.state ≠ .failed := by
    intro hf
    rw [hf] at hbusy
    exact absurd hbusy (by decide)
  refine ⟨h.once, ?_, fun _ => h.current hb, fun h0 => ?_, fun _ hi => absurd hi hidle⟩
  · have hcount : failures (.getBit b r :: l) = failures l := by simp [failures]
    rw [hcount]
    exact h.sum
  · have h0' : sentCount l = 0 := by simpa [sentCount] using h0
    have hc := h.counted hb h0'
    have hfail' : t.state ≠ .failed := by
      intro hf
      rw [hf] at hb
      exact absurd hb (by decide)
    have hcount := hc.congr hr hs ⟨fun hf => absurd hf hfail, fun hf => absurd hf hfail'⟩
    refine .inr ⟨⟨?_, ?_, ?_, ?_, ?_, ?_⟩, busy_ne_pend hbusy, hidle⟩
    · simpa [attempts] using hcount.tried
    · simpa [failures] using hcount.retries
    · simpa [failures] using hcount.total
    · simpa [uncoded] using hcount.slot
    · simpa [failures] using hcount.le
    · simpa [failures] using hcount.failed

omit [Driver D] in
/-- The message is sent. -/
theorem Ledger.finish {l : List Ev} {t : Transmit} (h : Ledger l t) (hw : t.state = .waitForAck)
    (m : List Nat) : Ledger (.sent m :: l) { t with state := .idle } := by
  have hb : t.state.busy := by rw [hw]; decide
  have hone : sentCount (.sent m :: l) = sentCount l + 1 := by simp [sentCount]
  refine ⟨h.once, ?_, fun hbusy => absurd hbusy (not_busy_idle rfl), fun h0 => ?_, fun h1 _ => ?_⟩
  · have hcount : failures (.sent m :: l) = failures l := by simp [failures]
    rw [hcount]
    exact h.sum
  · omega
  · have hc := h.counted hb (by omega)
    have hcount : Counted l { t with state := .idle } := hc.congr rfl rfl
      ⟨fun hf => TransmitState.noConfusion hf, fun hf => by rw [hw] at hf; exact TransmitState.noConfusion hf⟩
    refine ⟨?_, ?_, ?_, ?_, ?_, ?_⟩
    · simpa [attempts] using hcount.tried
    · simpa [failures] using hcount.retries
    · simpa [failures] using hcount.total
    · simpa [uncoded] using hcount.slot
    · simpa [failures] using hcount.le
    · simpa [failures] using hcount.failed

theorem getBit_rest (t : Transmit) (present : Nat) :
    (t.getBit present).1.retries = t.retries ∧ (t.getBit present).1.stats = t.stats := by
  rw [Transmit.getBit]
  dsimp only
  repeat' split
  all_goals exact ⟨rfl, rfl⟩

/-- Every call keeps the account. -/
theorem keptCalls_account (hf : Fetches view act) (told : List Ev) :
    KeptCalls act fun s : Cec D => Framed act s ∧ Account told s where
  quiet {s t} h ht ha hl := by
    obtain ⟨hframed, l, hlog, hledger⟩ := h
    refine ⟨(keptCalls_framed hf).quiet hframed ht ha hl, l, hl.trans hlog, ?_⟩
    have hcongr : ∀ {l}, Counted l s.tx → Counted l t.tx := fun hc => by
      rw [ht]
      exact hc.congr rfl rfl Iff.rfl
    have hstate : t.tx.state = s.tx.state := by rw [ht]
    refine ⟨hledger.once, hledger.sum, hstate ▸ hledger.current, fun h0 => ?_, fun h1 hi => ?_⟩
    · rw [hstate]
      exact (hledger.going h0).imp_right fun hc => ⟨hcongr hc.1, hc.2⟩
    · exact hcongr (hledger.sent h1 (hstate ▸ hi))
  onError {s} err h hb := by
    obtain ⟨hframed, l, hlog, hledger⟩ := h
    refine ⟨(keptCalls_framed hf).onError err hframed hb, .abort err :: l, ?_, hledger.charge hb err⟩
    rw [(onError_busy hb err).2.2.2, hlog]
    rfl
  acked {s} h hw := by
    obtain ⟨hframed, l, hlog, hledger⟩ := h
    refine ⟨(keptCalls_framed hf).acked hframed hw, .sent s.tx.message :: l, ?_, ?_⟩
    · rw [cecTransmitReceiveAck, if_pos rfl, if_pos hw, List.cons_append, ← hlog]
      rfl
    · rw [cecTransmitReceiveAck, if_pos rfl, if_pos hw]
      exact hledger.finish hw _
  begin {s t} h hp ha ht hl := by
    obtain ⟨hframed, l, hlog, hledger⟩ := h
    refine ⟨(keptCalls_framed hf).begin hframed hp ha ht hl, .begin :: l, ?_, ?_⟩
    · rw [hl, hlog]; rfl
    · rw [ht]
      exact hledger.begin hp
  fetch {s t} h ha ht hl hnext := by
    obtain ⟨hframed, l, hlog, hledger⟩ := h
    obtain ⟨bits, -, hbefore, -, hafter⟩ := hframed.next ha
    obtain ⟨hr, hs⟩ := getBit_rest s.tx (Driver.idleWait D s.build cecPresentPeriodWait)
    let r := s.tx.getBit (Driver.idleWait D s.build cecPresentPeriodWait)
    refine ⟨(keptCalls_framed hf).fetch hframed ha ht hl hnext, .getBit r.2.1 r.2.2 :: l, ?_, ?_⟩
    · rw [hl, List.cons_append, ← hlog]
      rfl
    · rw [ht]
      exact hledger.during hbefore.busy hr hs hafter.busy
  queued {s} buf bufEnd h hidle hlt := by
    obtain ⟨hframed, l, hlog, hledger⟩ := h
    refine ⟨(keptCalls_framed hf).queued buf bufEnd hframed hidle hlt, l, hlog, hledger.once, hledger.sum,
      fun hb => absurd rfl (busy_ne_pend hb), fun h0 => ?_, fun _ hi => TransmitState.noConfusion hi⟩
    rcases hledger.going h0 with ⟨-, hp⟩ | ⟨-, -, hi⟩
    · rw [hidle] at hp; exact TransmitState.noConfusion hp
    · exact absurd hidle hi

end

/-! ### Error codes

No error is reported without its code, so the slot of the missing one stays empty. -/

section
variable {D : Type} [Driver D]

/-- Every failure has its code. -/
def Coded (s : Cec D) : Prop := .abort .none ∉ s.told

omit [Driver D] in
theorem coded_told {s t : Cec D} (h : Coded s) (ht : t.told = s.told) : Coded t := by
  rw [Coded, ht]
  exact h

omit [Driver D] in
/-- A change of the driver; stated for any, so that no register of a real one is compared. -/
theorem coded_hw {s : Cec D} (h : Coded s) (u : D) : Coded { s with hw := u } := h

omit [Driver D] in
theorem coded_cons {s t : Cec D} {e : Ev} (h : Coded s) (ht : t.told = e :: s.told)
    (he : e ≠ .abort .none) : Coded t := by
  rw [Coded, ht, List.mem_cons, not_or]
  exact ⟨he.symm, h⟩

theorem coded_onError {s : Cec D} (h : Coded s) {err : Err} (he : err ≠ .none) :
    Coded (cecTransmitOnError s err) := by
  by_cases hb : s.tx.state.busy
  · exact coded_cons h (onError_busy hb err).2.2.2 fun heq => he (Ev.abort.inj heq)
  · rwa [cecTransmitOnError, if_neg hb]

theorem coded_receiveError {s : Cec D} (h : Coded s) {err : Err} (he : err ≠ .none) :
    Coded (cecReceiveError s err) := by
  rw [cecReceiveError]
  split
  · exact h
  · refine coded_onError (coded_told h ?_) he
    exact emit_told s (e := .error err) rfl

theorem coded_receiveStart {s : Cec D} (h : Coded s) : Coded (cecReceiveStart s) :=
  coded_told h (emit_told (e := .start) _ rfl)

theorem coded_receiveBit {s : Cec D} (h : Coded s) (b : Bool) : Coded (cecReceiveBit s b) := by
  have hemit : Coded (s.emit (.bit b)) := coded_told h (emit_told s rfl)
  have hheard : Coded (heardByTransmit s b) := by
    rw [heardByTransmit]
    split
    · rw [cecCheckTxBit]
      split
      · exact coded_onError hemit Err.noConfusion
      · exact hemit
    · rw [cecTransmitReceiveAck]
      split
      · split
        · exact coded_cons (e := .sent s.tx.message) hemit rfl Ev.noConfusion
        · exact hemit
      · exact coded_onError hemit Err.noConfusion
  exact coded_told hheard (sameTransmit_receiveBit s b).told

end

namespace Usi

theorem edge_coded (d : Decoder) (b : Bool) : (d.edge b).2 ≠ .error .none := by
  rw [Decoder.edge]
  dsimp only
  split
  · rw [Decoder.hold]
    split <;> simp
  · split
    · rw [Decoder.fall]
      repeat' split
      all_goals simp
    · rw [Decoder.rise]
      split <;> simp

theorem coded_tick {s : Cec Usi} (h : Coded s) (b : Bool) : Coded (cecProcessTick s b) := by
  have hcall : ∀ (t : Cec Usi) (d : Decoder), Coded t → Coded (t.call (d.edge b).2) := by
    intro t d ht
    have hne := edge_coded d b
    cases hc : (d.edge b).2 with
    | none => exact ht
    | start => exact coded_receiveStart ht
    | error err =>
      rw [hc] at hne
      exact coded_receiveError ht fun he => hne (congrArg Call.error he)
  rw [processTick_eq]
  dsimp only
  split
  · exact hcall _ _ (coded_receiveBit h b)
  · exact hcall _ _ h

theorem coded_ticks {s : Cec Usi} (h : Coded s) (l : List Bool) : Coded (l.foldl cecProcessTick s) := by
  induction l generalizing s with
  | nil => exact h
  | cons b l ih => exact ih (coded_tick h b)

theorem coded_next {s : Cec Usi} (h : Coded s) : Coded (cecUsiNextBit s).1 := by
  rw [cecUsiNextBit]
  split
  · split
    · exact coded_cons (e := .begin) h rfl Ev.noConfusion
    · exact h
  · exact h
  · exact coded_cons h rfl Ev.noConfusion

theorem coded_step {s : Cec Usi} (h : Coded s) (i : Step) : Coded (step i s) := by
  cases i with
  | tick others => exact h
  | app a => exact coded_told h (app_told s a)
  | poll others₁ others₂ =>
    have hfloat : Coded (checkFloat s others₁) := by
      rw [checkFloat]
      dsimp only
      split
      · refine coded_onError ?_ Err.noConfusion
        exact h
      · exact h
    have hcount : Coded { checkFloat s others₁ with
        hw := countIdle (floatNack (checkFloat s others₁).hw) (checkFloat s others₁).hw.usibr } := hfloat
    have hack : ∀ t : Cec Usi, Coded t → Coded (handleAck t others₂) := by
      intro t ht
      rw [handleAck]
      dsimp only
      repeat' split
      all_goals exact ht
    refine coded_told ?_ (addrPeriodic_told _)
    rw [cecReceivePeriodic]
    split
    · exact hack _ (coded_next (coded_ticks hcount _))
    · exact hack _ hfloat

theorem coded_run (build : Build) (addr : Addr) (is : List Step) : Coded (run step (initial build addr) is) := by
  have h0 : Coded (initial build addr) := by
    rw [Coded, Cec.told, initial, cecInit, addrInit_log]
    exact List.not_mem_nil
  have hstep : ∀ (s : Cec Usi) (i : Step), Coded s → Coded (step i s) := fun s i hs => coded_step hs i
  exact invariant_run' hstep is h0

end Usi

namespace Soft

theorem coded_fall {s : Cec Soft} (h : Coded s) : Coded (softFall s) := by
  have hnext : ∀ (t : Cec Soft) (n m : Nat), Coded t →
      Coded { t with hw := { t.hw with receiveFramePeriod := n, receiveFrameTimer := m } } :=
    fun _ _ _ ht => coded_hw ht _
  have hsample : ∀ t : Cec Soft, Coded t → Coded { t with hw := { t.hw with sample := true } } :=
    fun _ ht => coded_hw ht _
  have hack : ∀ (t : Cec Soft) (n : Nat), Coded t →
      Coded { t with hw := { t.hw with driven := true, receiveFrameAckDone := n } } :=
    fun _ _ ht => coded_hw ht _
  rw [softFall]
  refine hnext _ _ _ ?_
  split
  · split
    · exact coded_receiveError h Err.noConfusion
    · refine hsample _ ?_
      split
      · exact hack _ _ h
      · exact h
  · exact h

theorem coded_edge {s : Cec Soft} (h : Coded s) (level : Bool) : Coded (softEdge s level) := by
  rw [softEdge]
  split
  · rw [softHold]
    split
    · exact coded_receiveError h Err.noConfusion
    · exact h
  · split
    · rw [softRise]
      split
      · exact coded_receiveStart (coded_hw h _)
      · exact h
    · exact coded_fall h

theorem coded_recv {s : Cec Soft} (h : Coded s) (delta : Nat) (level : Bool) :
    Coded (cecReceivePeriodic s delta level) := by
  have hcount : Coded (softCount s delta) := coded_hw h _
  have hsample : Coded (softSample (softCount s delta) level) := by
    generalize softCount s delta = t at hcount
    rw [softSample]
    split
    · dsimp only
      split
      · exact coded_receiveError (coded_hw hcount _) Err.noConfusion
      · exact coded_receiveBit (coded_hw hcount _) level
    · exact hcount
  rw [cecReceivePeriodic]
  generalize softSample (softCount s delta) level = t at hsample
  have hfloat : Coded (softFloat t) := by
    rw [softFloat]
    split
    · exact coded_hw hsample _
    · exact hsample
  exact coded_hw (coded_edge hfloat level) _

theorem coded_xmit {s : Cec Soft} (h : Coded s) (delta : Nat) (level : Bool) :
    Coded (cecTransmitPeriodic s delta level) := by
  have hbit : ∀ t : Cec Soft, Coded t → Coded (pwmNextBit t) := fun t ht =>
    coded_hw (coded_cons (t := (cecTransmitGetBit t).1) ht rfl Ev.noConfusion) _
  have hpwm : Coded (xmitPwmPeriodic s) := by
    rw [xmitPwmPeriodic]
    split
    · exact h
    · have ht : Coded (setPwm s fun p => { p with tov1 := false }) := coded_hw h _
      generalize (setPwm s fun p => { p with tov1 := false }) = t at ht
      dsimp only
      split
      · split
        · exact coded_onError ht Err.noConfusion
        · exact hbit _ (coded_hw ht _)
      · exact hbit t ht
      · exact coded_hw ht _
      · exact coded_hw ht _
      all_goals exact ht
  have hfirst : Coded (if s.hw.pwm.xmitState ≠ .idle then xmitPwmPeriodic s else s) := by
    split
    · exact hpwm
    · exact h
  rw [cecTransmitPeriodic]
  generalize (if s.hw.pwm.xmitState ≠ .idle then xmitPwmPeriodic s else s) = t at hfirst
  dsimp only
  split
  · exact coded_hw hfirst _
  · have hhigh : Coded (setPwm t fun p => { p with transmitHighTimer := cappedAdd p.transmitHighTimer delta }) :=
      coded_hw hfirst _
    generalize (setPwm t fun p =>
      { p with transmitHighTimer := cappedAdd p.transmitHighTimer delta }) = u at hhigh
    split
    · exact hhigh
    · split
      · rw [xmitStart]
        refine coded_hw ?_ _
        exact coded_cons (t := cecTransmitStart _) (coded_hw hhigh _) rfl Ev.noConfusion
      · exact hhigh

theorem coded_step {s : Cec Soft} (h : Coded s) (i : Step) : Coded (step i s) := by
  cases i with
  | recv delta level => exact coded_recv h delta level
  | xmit delta level => exact coded_xmit h delta level
  | addr => exact coded_told h (addrPeriodic_told s)
  | overflow =>
    rw [step, timerOverflow]
    split <;> exact h
  | app a => exact coded_told h (app_told s a)

theorem coded_run (build : Build) (addr : Addr) (is : List Step) : Coded (run step (initial build addr) is) := by
  have h0 : Coded (initial build addr) := by
    rw [Coded, Cec.told, initial, cecInit, addrInit_log]
    exact List.not_mem_nil
  have hstep : ∀ (s : Cec Soft) (i : Step), Coded s → Coded (step i s) := fun s i hs => coded_step hs i
  exact invariant_run' hstep is h0

end Soft

/-! ### The budget -/

section
variable {D I : Type}

/-- What the transmit side has logged between two states of a run. -/
def newEvents (s t : Cec D) : List Ev := t.told.take (t.told.length - s.told.length)

theorem newEvents_eq {s t : Cec D} {l : List Ev} (h : t.told = l ++ s.told) : newEvents s t = l := by
  rw [newEvents, h, List.length_append, Nat.add_sub_cancel]
  exact List.take_left ..

/-- The message has not been sent, or it was the last thing that happened. -/
def Ongoing (l : List Ev) (t : Transmit) : Prop := sentCount l = 0 ∨ sentCount l = 1 ∧ t.state = .idle

instance (l : List Ev) (t : Transmit) : Decidable (Ongoing l t) := by unfold Ongoing; infer_instance

/-- Each attempt of the message is charged at most one failure, it is given up once the first attempt and
    `cecXmitMaxRetransmit` retransmissions have failed, and the error counters sum to its failures. -/
structure RetryBudget (l : List Ev) (t : Transmit) : Prop where
  charged : ∀ c ∈ charges l, c ≤ 1
  failed : t.state = .failed ↔ failures l = 1 + cecXmitMaxRetransmit
  counted : attempts l ≠ 0 → t.counters = failures l

/-- In every run on from `s`, in which the message queued there is under way, it is given up after
    `cecXmitMaxRetransmit` failures, and within its budget exactly before that. -/
def KeepsBudget (step : I → Cec D → Cec D) (s : Cec D) : Prop :=
  ∀ is, Along (fun u _ => u.tx.state ≠ .failed) step s is →
    Ongoing (newEvents s (run step s is)) (run step s is).tx →
      (RetryBudget (newEvents s (run step s is)) (run step s is).tx ↔
        failures (newEvents s (run step s is)) < cecXmitMaxRetransmit) ∧
      ((run step s is).tx.state = .failed ↔ failures (newEvents s (run step s is)) = cecXmitMaxRetransmit)

theorem Counted.budget {l : List Ev} {t : Transmit} (h : Counted l t) (honce : ∀ c ∈ charges l, c ≤ 1)
    (hcoded : uncoded l = 0) : RetryBudget l t ↔ failures l < cecXmitMaxRetransmit := by
  have hle := h.le
  have htotal := h.total
  have hslot := h.slot
  constructor
  · intro hbudget
    refine Nat.lt_of_le_of_ne hle fun he => ?_
    have := hbudget.failed.mp (h.failed.mpr he)
    omega
  · intro hlt
    refine ⟨honce, ⟨fun hf => ?_, fun he => ?_⟩, fun _ => ?_⟩
    · exact absurd (h.failed.mp hf) (Nat.ne_of_lt hlt)
    · omega
    · omega

/-- What the ledger of a message says about its budget. -/
theorem Ledger.budget {l : List Ev} {t : Transmit} (h : Ledger l t) (ho : Ongoing l t) (hcoded : uncoded l = 0) :
    (RetryBudget l t ↔ failures l < cecXmitMaxRetransmit) ∧
      (t.state = .failed ↔ failures l = cecXmitMaxRetransmit) := by
  have hcase : (l = [] ∧ t.state = .pend) ∨ Counted l t := by
    rcases ho with h0 | ⟨h1, hi⟩
    · exact (h.going h0).imp_right And.left
    · exact .inr (h.sent h1 hi)
  rcases hcase with ⟨rfl, hp⟩ | hc
  · have hnot : ¬ t.state = .failed := by rw [hp]; exact TransmitState.noConfusion
    refine ⟨⟨fun _ => by decide, fun _ => ⟨h.once, ?_, fun ha => absurd rfl ha⟩⟩, ?_⟩
    · exact ⟨fun hf => absurd hf hnot, fun he => absurd he (by decide)⟩
    · exact ⟨fun hf => absurd hf hnot, fun he => absurd he (by decide)⟩
  · exact ⟨hc.budget h.once hcoded, hc.failed⟩

variable [Driver D] {act : D → Prop} {step : I → Cec D → Cec D}

omit [Driver D] in
/-- The rule for the budget: what each step of a build keeps. -/
theorem keepsBudget_of_step {s : Cec D} (hframed : Framed act s) (hp : s.tx.state = .pend)
    (hcoded : ∀ is, Coded (run step s is))
    (hstep : ∀ t i, Framed act t ∧ Account s.told t → t.tx.state ≠ .failed →
      Framed act (step i t) ∧ Account s.told (step i t)) : KeepsBudget step s := by
  intro is hrun ho
  have hledger : Ledger [] s.tx := by
    refine ⟨fun c hc => absurd hc List.not_mem_nil, rfl, fun hb => absurd hp (busy_ne_pend hb),
      fun _ => .inl ⟨rfl, hp⟩, fun h1 _ => absurd h1 (by decide)⟩
  have h0 : Framed act s ∧ Account s.told s := ⟨hframed, [], rfl, hledger⟩
  have hend : Framed act (run step s is) ∧ Account s.told (run step s is) :=
    invariant_run (fun t i ht hne => hstep t i ht hne) h0 hrun
  obtain ⟨-, l, hlog, hl⟩ := hend
  have hnew := newEvents_eq hlog
  have hun : uncoded l = 0 := by
    refine List.countP_eq_zero.mpr fun e he => ?_
    simp only [decide_eq_true_eq]
    rintro rfl
    exact hcoded is (by rw [hlog]; exact List.mem_append_left _ he)
  rw [hnew] at ho ⊢
  exact hl.budget ho hun

/-- Unless a message has been given up, the next one is queued when it has been sent. -/
theorem account_queue {X : Type} {view : D → X} (hfetch : Fetches view act) {told : List Ev} {s : Cec D}
    (h : Framed act s ∧ Account told s) (hf : s.tx.state ≠ .failed) {bufEnd : Nat}
    (hs : s.tx.state.val < TransmitState.pend.val) (hlt : bufEnd < cecBufferSize) (buf : Nat → Nat) :
    Framed act (queue s buf bufEnd) ∧ Account told (queue s buf bufEnd) := by
  have hidle : s.tx.state = .idle := by
    cases hst : s.tx.state with
    | idle => rfl
    | failed => exact absurd hst hf
    | _ => rw [hst] at hs; exact absurd hs (by decide)
  exact (keptCalls_account hfetch told).queued buf bufEnd h hidle hlt

end

/-- In every run of both builds a message queued is given up after five failed attempts. -/
theorem retry_budget (build : Build) (addr : Addr) :
    (∀ is, (run Usi.step (Usi.initial build addr) is).tx.state = .pend →
      KeepsBudget Usi.step (run Usi.step (Usi.initial build addr) is)) ∧
    ∀ is, (run Soft.step (Soft.initial build addr) is).tx.state = .pend →
      KeepsBudget Soft.step (run Soft.step (Soft.initial build addr) is) := by
  constructor
  · intro is hp
    refine keepsBudget_of_step (Usi.framed_run build addr is) hp (fun js => ?_) fun t i ht hf => ?_
    · rw [← run_append]
      exact Usi.coded_run build addr (is ++ js)
    · have hkept := keptCalls_account Usi.fetches (run Usi.step (Usi.initial build addr) is).told
      exact Usi.keptCalls_step hkept ht (fun buf _ hs hlt => account_queue Usi.fetches ht hf hs hlt buf) i
  · intro is hp
    refine keepsBudget_of_step (Soft.framed_run build addr is) hp (fun js => ?_) fun t i ht hf => ?_
    · rw [← run_append]
      exact Soft.coded_run build addr (is ++ js)
    · have hkept := keptCalls_account Soft.fetches (run Soft.step (Soft.initial build addr) is).told
      exact Soft.keptCalls_step hkept ht (fun buf _ hs hlt => account_queue Soft.fetches ht hf hs hlt buf) i

/-- A ping of a device that is not there. -/
def unanswered : Cec Usi := run Usi.step (Usi.initial {} (.fixed 4)) [.app (.send [0x45])]

/-- Four attempts have failed after 80 byte times. -/
theorem retry_budget_unanswered :
    RetryBudget (newEvents unanswered (run Usi.step unanswered (Usi.byteTimes 80)))
      (run Usi.step unanswered (Usi.byteTimes 80)).tx := by
  have hp : unanswered.tx.state = .pend := by decide
  have hrun : Along (fun u _ => u.tx.state ≠ .failed) Usi.step unanswered (Usi.byteTimes 80) := by
    decide +kernel
  have ho : Ongoing (newEvents unanswered (run Usi.step unanswered (Usi.byteTimes 80)))
      (run Usi.step unanswered (Usi.byteTimes 80)).tx := by decide +kernel
  have hlt : failures (newEvents unanswered (run Usi.step unanswered (Usi.byteTimes 80)))
      < cecXmitMaxRetransmit := by decide +kernel
  exact ((retry_budget {} (.fixed 4)).1 _ hp _ hrun ho).1.mpr hlt

/-- After the fifth the message is given up, with a retransmission left. -/
theorem retry_budget_short :
    let t := run Usi.step unanswered (Usi.byteTimes 90)
    t.tx.state = .failed ∧ failures (newEvents unanswered t) = 5 ∧ attempts (newEvents unanswered t) = 5 ∧
      ¬ RetryBudget (newEvents unanswered t) t.tx := by
  intro t
  have hstate : t.tx.state = .failed := by decide +kernel
  have hfail : failures (newEvents unanswered t) = 5 := by decide +kernel
  refine ⟨hstate, hfail, by decide +kernel, fun h => ?_⟩
  have hsix := h.failed.mp hstate
  rw [hfail] at hsix
  exact absurd hsix (by decide)

end AvrCec
