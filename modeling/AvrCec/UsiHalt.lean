import AvrCec.Attempt

/-! `cec_halt` in the USI build.

    The halt zeroes the shift registers and the transmit state, but the driver's own state machine is
    reset by an abort only. Left in one of its sending states it fetches a bit some overflows later
    (`runaway_fetches`), so a halt parks the device exactly when it reaches that state machine
    (`Usi.parked_iff`). -/

namespace AvrCec
open Lib

namespace Usi

/-- Neither the receive driver nor the shift register pulls the line low, now or later. -/
def Floating (u : Usi) : Prop := u.driven = false ∧ u.usidr = 0 ∧ u.usibr = 0

/-- The driver is past the idle state of its transmit side. -/
def Busy (u : Usi) : Prop := u.xmitState ≠ .idle

theorem fetches : Fetches Usi.xmitState Busy where
  congr hv h := by rw [Busy, ← hv]; exact h
  nack _ _ := rfl
  abort _ h := h rfl

theorem attempt_next {u s : Cec Usi} (h : Attempt Busy u s) : Attempt Busy u (cecUsiNextBit s).1 := by
  rw [cecUsiNextBit]
  split
  · split
    · exact h.start rfl rfl rfl
    · exact h
  · next hx => exact h.mono h.static rfl (fun _ hi => by rw [hx] at hi; exact UsiXmit.noConfusion hi) rfl
  · next hx =>
    refine h.fetch (fun hi => by rw [hx] at hi; exact UsiXmit.noConfusion hi) rfl rfl rfl fun hf hw => hf ?_
    exact if_pos hw

theorem silent_next {s : Cec Usi} (h : Silent Busy s) : Silent Busy (cecUsiNextBit s).1 := by
  have hx : s.hw.xmitState = .idle := Decidable.of_not_not h.parked
  have hp : ¬ s.tx.state.pending := by rw [h.state]; decide
  rw [cecUsiNextBit, hx]
  dsimp only
  rw [if_neg fun hc => hp hc.1]
  exact h

/-- A step that queues no message keeps what the receive side and the fetching of bits keep. -/
theorem keptTx_step {P : Cec Usi → Prop} (hP : KeptTx Usi.xmitState P)
    (hnext : ∀ {s : Cec Usi}, P s → P (cecUsiNextBit s).1)
    (hassign : ∀ {s : Cec Usi} m, P s → P { s with addr := .bitfield m })
    (hstatic : ∀ {s : Cec Usi}, P s → s.addr.Static) {s : Cec Usi} (hs : P s) {i : Step}
    (hi : ¬ QueuesMessage .app i) : P (step i s) := by
  cases i with
  | tick others => exact keptTx_clock hP hs others
  | poll others₁ others₂ =>
    have h := keptTx_poll hP hnext hs others₁ others₂
    rw [step, cecPeriodic, addrPeriodic_static (hstatic h)]
    exact h
  | app a =>
    cases a with
    | clear => exact hP.same hs rfl rfl rfl (clearHeader_told s)
    | send message => exact absurd ⟨message, rfl⟩ hi
    | assign m =>
      rw [step, App.step]
      split
      · exact hassign m hs
      · exact hs

theorem silent_step {s : Cec Usi} (h : Silent Busy s) {i : Step} (hi : ¬ QueuesMessage .app i) :
    Silent Busy (step i s) :=
  keptTx_step (keptTx_silent fetches) silent_next (fun _ h => h.mono trivial rfl id rfl) (·.static) h hi

theorem keepsAttempt : KeepsAttempt Busy step :=
  keepsAttempt_of_step (fun _ _ => rfl) fun hs hi =>
    keptTx_step (keptTx_attempt fetches _) attempt_next (fun _ h => h.mono trivial rfl id rfl) (·.static) hs hi

/-! ### The counter -/

theorem undecoded_usicnt : Undecoded Usi.usicnt := ⟨⟨fun _ => rfl, fun _ _ => rfl⟩, fun _ _ => rfl⟩

theorem checkFloat_usicnt (s : Cec Usi) (others : Bool) : (checkFloat s others).hw.usicnt = s.hw.usicnt := by
  rw [checkFloat]
  dsimp only
  split
  · exact undecoded_usicnt.onError ..
  · rfl

theorem nextBit_usicnt (s : Cec Usi) : (cecUsiNextBit s).1.hw.usicnt = s.hw.usicnt := by
  rw [cecUsiNextBit]
  split
  · split <;> rfl
  · rfl
  · rfl

theorem doAck_usicnt (u : Usi) (acks : Nat) : (cecReceiveDoAck u acks).usicnt = u.usicnt := by
  rw [cecReceiveDoAck]
  split
  · rfl
  · dsimp only
    split <;> rfl

theorem handleAck_usicnt (s : Cec Usi) (others : Bool) : (handleAck s others).hw.usicnt = s.hw.usicnt := by
  rw [handleAck]
  dsimp only
  repeat' split
  · exact doAck_usicnt ..
  · exact doAck_usicnt ..
  · rfl
  · rfl

/-- The counter has four bits. -/
theorem usicnt_poll {s : Cec Usi} (h : s.hw.usicnt < 16) (others₁ others₂ : Bool) :
    (cecReceivePeriodic s others₁ others₂).hw.usicnt < 16 := by
  rw [cecReceivePeriodic]
  split
  · rw [handleAck_usicnt, handleOverflow_eq]
    change (cecUsiNextBit _).1.hw.usicnt ||| 8 < 2 ^ 4
    rw [nextBit_usicnt, decoded, undecoded_usicnt.ticks]
    exact Nat.or_lt_two_pow (by change (checkFloat s others₁).hw.usicnt < 16; rwa [checkFloat_usicnt]) (by decide)
  · rw [handleAck_usicnt, checkFloat_usicnt]
    exact h

/-! ### The state a halt leaves -/

theorem receiveError_xmitState (s : Cec Usi) (err : Err) :
    (cecReceiveError s err).hw.xmitState
      = if s.rx.flags ≠ 0 ∧ s.tx.state.busy then .idle else s.hw.xmitState := by
  by_cases h0 : s.rx.flags = 0
  · rw [receiveError_zero h0, if_neg (fun h => h.1 h0)]
  · rw [receiveError_hw s err h0]
    dsimp only
    by_cases hb : s.tx.state.busy
    · have hc : s.rx.flags ≠ 0 ∧ s.tx.state.busy := ⟨h0, hb⟩
      simp only [if_pos hb, if_pos hc]
      rfl
    · have hc : ¬ (s.rx.flags ≠ 0 ∧ s.tx.state.busy) := fun h => hb h.2
      simp only [if_neg hb, if_neg hc]
      split <;> rfl

/-- What a halt leaves of the transmit side. -/
structure Halted (s h : Cec Usi) : Prop where
  floating : Floating h.hw
  state : h.tx.state = .idle
  xmitState : h.hw.xmitState = if s.rx.flags ≠ 0 ∧ s.tx.state.busy then .idle else s.hw.xmitState
  static : h.addr.Static
  usicnt : h.hw.usicnt = s.hw.usicnt

theorem halted {s : Cec Usi} (h : s.addr.Static) : Halted s (cecHalt s) := by
  have hx := receiveError_xmitState s .halt
  have hcnt := undecoded_usicnt.receiveError s .halt
  have haddr : (cecReceiveError s .halt).addr.Static := (receiveError_addr s .halt).symm ▸ h
  rw [cecHalt]
  generalize cecReceiveError s .halt = t at hx hcnt haddr
  obtain ⟨hstatic, htx⟩ := addrInit_static (s := { cecTransmitHalt { cecReceiveHalt t with
    hw := { (cecReceiveHalt t).hw with driven := false } } with
    hw := { t.hw with driven := false, usibr := 0, usidr := 0 } }) haddr
  refine ⟨?_, ?_, ?_, hstatic, ?_⟩
  · rw [addrInit_hw]; exact ⟨rfl, rfl, rfl⟩
  · exact congrArg Transmit.state htx
  · rw [addrInit_hw]; exact hx
  · rw [addrInit_hw]; exact hcnt

/-- What holds in every run, halts included. -/
structure Reach (s : Cec Usi) : Prop where
  static : s.addr.Static
  usicnt : s.hw.usicnt < 16

theorem keptTx_static : KeptTx Usi.xmitState fun s : Cec Usi => s.addr.Static where
  same h ha _ _ _ := ha ▸ h
  nack _ _ := rfl
  needed _ _ h := h
  onError {s} err h _ := by rw [(sameReceive_onError s err).addr]; exact h
  acked {s} h _ := by rw [(sameReceive_receiveAck s true).addr]; exact h

theorem static_next {s : Cec Usi} (h : s.addr.Static) : (cecUsiNextBit s).1.addr.Static := by
  rw [cecUsiNextBit]
  split
  · split
    · exact h
    · exact h
  · exact h
  · exact h

theorem static_step {s : Cec Usi} (h : s.addr.Static) (i : Step) : (step i s).addr.Static := by
  by_cases hi : QueuesMessage .app i
  · obtain ⟨message, rfl⟩ := hi
    rw [step, App.step]
    split
    · exact h
    · exact h
  · exact keptTx_step keptTx_static static_next (fun _ _ => trivial) id h hi

theorem reach_step {s : Cec Usi} (h : Reach s) (i : Step) : Reach (step i s) := by
  refine ⟨static_step h.static i, ?_⟩
  have hcnt := h.usicnt
  cases i with
  | tick others =>
    change (s.hw.clock others).usicnt < 16
    rw [clock]
    split
    · exact Nat.zero_lt_succ _
    · change s.hw.usicnt + 1 < 16
      omega
  | poll others₁ others₂ =>
    change (cecAddrPeriodic (cecReceivePeriodic s others₁ others₂)).hw.usicnt < 16
    rw [addrPeriodic_hw]
    exact usicnt_poll hcnt others₁ others₂
  | app a =>
    change (a.step s).hw.usicnt < 16
    rw [app_hw]
    exact hcnt

theorem reach_run (build : Build) {addr : Addr} (h : addr.Static) (as : List (OrHalt Step)) :
    Reach (run (orHalt step cecHalt) (initial build addr) as) := by
  have hstep : ∀ s a, Reach s → Reach (orHalt step cecHalt a s) := by
    intro s a hs
    cases a with
    | step i => exact reach_step hs i
    | halt =>
      have hh := halted hs.static
      refine ⟨hh.static, ?_⟩
      change (cecHalt s).hw.usicnt < 16
      rw [hh.usicnt]
      exact hs.usicnt
  have h0 : Reach (initial build addr) := by
    refine ⟨(addrInit_static (s := cecTransmitInit { boot build addr ({} : Usi) with hw := initHw {} }) h).1, ?_⟩
    rw [initial, cecInit, addrInit_hw]
    exact (by decide : 8 < 16)
  exact invariant_run' hstep as h0

/-! ### A driver that a halt leaves running -/

/-- The transmit state is idle, and the driver is not. -/
structure Runaway (x : UsiXmit) (s : Cec Usi) : Prop where
  state : s.tx.state = .idle
  xmit : s.hw.xmitState = x
  static : s.addr.Static

theorem keptTx_runaway (x : UsiXmit) : KeptTx Usi.xmitState (Runaway x) where
  same h ha ht hv _ := ⟨by rw [ht]; exact h.state, hv.trans h.xmit, ha ▸ h.static⟩
  nack _ _ := rfl
  needed _ _ h := ⟨h.state, h.xmit, h.static⟩
  onError _ h hb := absurd hb (not_busy_idle h.state)
  acked h hw := by
    rw [h.state] at hw; exact TransmitState.noConfusion hw

/-- The clock brings the next overflow. -/
theorem runaway_overflow {x : UsiXmit} {s : Cec Usi} (h : Runaway x s) (hcnt : s.hw.usicnt < 16) :
    ∃ n, let t := run step s (List.replicate n (.tick false))
      Runaway x t ∧ t.hw.usioif = true ∧ t.hw.usicnt < 16 := by
  obtain ⟨m, hm⟩ := Nat.exists_eq_add_of_le (Nat.le_of_lt_succ hcnt)
  induction m generalizing s with
  | zero =>
    refine ⟨1, keptTx_clock (keptTx_runaway x) h false, ?_⟩
    change (s.hw.clock false).usioif = true ∧ (s.hw.clock false).usicnt < 16
    have h15 : s.hw.usicnt = 15 := hm.symm
    rw [clock, if_pos h15]
    exact ⟨rfl, Nat.zero_lt_succ _⟩
  | succ m ih =>
    have hclock : (s.hw.clock false).usicnt = s.hw.usicnt + 1 := by
      rw [clock, if_neg (by omega)]
    obtain ⟨n, hn⟩ := ih (s := step (.tick false) s) (keptTx_clock (keptTx_runaway x) h false)
      (by change (s.hw.clock false).usicnt < 16; omega) (by change 15 = (s.hw.clock false).usicnt + m; omega)
    exact ⟨n + 1, hn⟩

/-- A poll that handles an overflow. -/
theorem poll_overflow {s : Cec Usi} (h : s.hw.usioif = true) :
    cecReceivePeriodic s false false = handleAck (writeOut (decoded (checkFloat s false))) false := by
  rw [cecReceivePeriodic, if_pos h, handleOverflow_eq]

theorem runaway_start {s : Cec Usi} (h : Runaway .start s) (ho : s.hw.usioif = true) :
    Runaway .bits (step (.poll false false) s) := by
  have hk := keptTx_runaway .start
  have hd := keptTx_decoded hk (keptTx_checkFloat hk h false)
  have hnext : Runaway .bits (cecUsiNextBit (decoded (checkFloat s false))).1 := by
    rw [cecUsiNextBit, hd.xmit]
    exact ⟨hd.state, rfl, hd.static⟩
  have hack := keptTx_handleAck (keptTx_runaway .bits) (s := writeOut (decoded (checkFloat s false)))
    ⟨hnext.state, hnext.xmit, hnext.static⟩ false
  rw [step, cecPeriodic, poll_overflow ho, addrPeriodic_static hack.static]
  exact hack

theorem keptTx_fetched : KeptTx Usi.xmitState fun s : Cec Usi => ∃ b r, .getBit b r ∈ s.told where
  same := by
    rintro s t ⟨b, r, h⟩ _ _ _ hl
    exact ⟨b, r, by rw [hl]; exact h⟩
  nack _ _ := rfl
  needed _ _ h := h
  onError := by
    rintro s err ⟨b, r, h⟩ hb
    exact ⟨b, r, by rw [(onError_busy hb err).2.2.2]; exact List.mem_cons_of_mem _ h⟩
  acked := by
    rintro s ⟨b, r, h⟩ hw
    rw [cecTransmitReceiveAck, if_pos rfl, if_pos hw]
    exact ⟨b, r, List.mem_cons_of_mem _ h⟩

theorem runaway_bits {s : Cec Usi} (h : Runaway .bits s) (ho : s.hw.usioif = true) :
    ∃ b r, .getBit b r ∈ (step (.poll false false) s).told := by
  have hk := keptTx_runaway .bits
  have hd := keptTx_decoded hk (keptTx_checkFloat hk h false)
  have hnext : ∃ b r, .getBit b r ∈ (cecUsiNextBit (decoded (checkFloat s false))).1.told := by
    rw [cecUsiNextBit, hd.xmit]
    exact ⟨_, _, List.mem_cons_self ..⟩
  have hack := keptTx_handleAck keptTx_fetched (s := writeOut (decoded (checkFloat s false))) hnext false
  have hstatic := keptTx_handleAck keptTx_static (s := writeOut (decoded (checkFloat s false)))
    (static_next hd.static) false
  rw [step, cecPeriodic, poll_overflow ho, addrPeriodic_static hstatic]
  exact hack

theorem not_queuesMessage_tick (others : Bool) : ¬ QueuesMessage .app (Step.tick others) := fun ⟨_, h⟩ => nomatch h

theorem not_queuesMessage_poll (others₁ others₂ : Bool) : ¬ QueuesMessage .app (Step.poll others₁ others₂) :=
  fun ⟨_, h⟩ => nomatch h

/-- Left running, the driver fetches a bit without any message queued. -/
theorem runaway_fetches {x : UsiXmit} (hx : x ≠ .idle) {s : Cec Usi} (h : Runaway x s)
    (hcnt : s.hw.usicnt < 16) :
    ∃ is, (∀ i ∈ is, ¬ QueuesMessage .app i) ∧ ∃ b r, .getBit b r ∈ (run step s is).told := by
  have hticks : ∀ n, ∀ i ∈ List.replicate n (Step.tick false), ¬ QueuesMessage .app i := by
    intro n i hi
    rw [(List.mem_replicate.mp hi).2]
    exact not_queuesMessage_tick false
  have hbits : ∀ {t : Cec Usi}, Runaway .bits t → t.hw.usicnt < 16 →
      ∃ is, (∀ i ∈ is, ¬ QueuesMessage .app i) ∧ ∃ b r, .getBit b r ∈ (run step t is).told := by
    intro t ht hc
    obtain ⟨n, hn, ho, -⟩ := runaway_overflow ht hc
    refine ⟨List.replicate n (.tick false) ++ [.poll false false], fun i hi => ?_, ?_⟩
    · rcases List.mem_append.mp hi with hi | hi
      · exact hticks n i hi
      · rw [List.mem_singleton.mp hi]; exact not_queuesMessage_poll _ _
    · rw [run_concat]
      exact runaway_bits hn ho
  cases x with
  | idle => exact absurd rfl hx
  | bits => exact hbits h hcnt
  | start =>
    obtain ⟨n, hn, ho, hc⟩ := runaway_overflow h hcnt
    have hstart := runaway_start hn ho
    have hreach := reach_step ⟨hn.static, hc⟩ (.poll false false)
    obtain ⟨is, his, hget⟩ := hbits hstart hreach.usicnt
    refine ⟨List.replicate n (.tick false) ++ .poll false false :: is, fun i hi => ?_, ?_⟩
    · rcases List.mem_append.mp hi with hi | hi
      · exact hticks n i hi
      · rcases List.mem_cons.mp hi with rfl | hi
        · exact not_queuesMessage_poll _ _
        · exact his i hi
    · rw [run_append]
      exact hget

/-- The halt reaches the driver's transmit side, or finds it idle. -/
def HaltReaches (s : Cec Usi) : Prop := s.hw.xmitState = .idle ∨ (s.rx.flags ≠ 0 ∧ s.tx.state.busy)

instance (s : Cec Usi) : Decidable (HaltReaches s) := by
  unfold HaltReaches; infer_instance

theorem parked_iff {s : Cec Usi} (h : Reach s) :
    Parked step .app Floating (cecHalt s) ↔ HaltReaches s := by
  have hh := halted h.static
  have hx : (cecHalt s).hw.xmitState = .idle ↔ HaltReaches s := by
    rw [hh.xmitState, HaltReaches]
    split
    · next hc => exact ⟨fun _ => .inr hc, fun _ => rfl⟩
    · next hc => exact ⟨.inl, fun ho => ho.resolve_right hc⟩
  rw [← hx]
  constructor
  · intro hs
    by_contra hne
    have hrun : Runaway (cecHalt s).hw.xmitState (cecHalt s).forget := ⟨hh.state, rfl, hh.static⟩
    obtain ⟨is, his, b, r, hget⟩ := runaway_fetches hne hrun (by
      change (cecHalt s).hw.usicnt < 16
      rw [hh.usicnt]
      exact h.usicnt)
    exact (hs.silent is his).2 b r hget
  · intro hidle
    exact parked_of_step hh.floating hh.state (fun hb => hb hidle) hh.static
      (fun s i hs hq => silent_step hs hq) keepsAttempt

end Usi

end AvrCec
