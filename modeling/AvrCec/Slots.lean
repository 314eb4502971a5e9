import AvrCec.Listening
import AvrCec.Tolerance

/-! The slots of the USI decoder.

    The decoder counts the bits of a block in `recv_frame` and the engine in its own flags and byte; an
    accepted falling edge opens a slot, and the sample three ticks later hears its bit. So in a
    reception the decoder is in slot `k`, counted from the start bit, and has heard `k` bits before its
    sample is due and `k + 1` after (`Decoder.At`): whatever the line does, the two counters agree
    (`slot_alignment`). -/

namespace AvrCec
open Lib

/-! ### The bits since a start -/

/-- The bits heard since the latest start. -/
def bitsSince : List Ev → Nat
  | [] => 0
  | .start :: _ => 0
  | .bit _ :: l => bitsSince l + 1
  | _ :: l => bitsSince l

/-- Every bit was heard in a reception that was open. -/
def InReception (log : List Ev) : Prop := ∀ b l, .bit b :: l <:+ log → openBits l ≠ none

theorem bitsSince_filter : ∀ l : List Ev, bitsSince (l.filter Ev.ofDecoder) = bitsSince l
  | [] => rfl
  | e :: l => by
    have ih := bitsSince_filter l
    cases e with
    | bit b => exact congrArg (· + 1) ih
    | start => rfl
    | _ => exact ih

theorem openBits_filter : ∀ l : List Ev, openBits (l.filter Ev.ofDecoder) = openBits l
  | [] => rfl
  | e :: l => by
    have ih := openBits_filter l
    cases e with
    | bit b => exact congrArg (Option.map (· ++ [b])) ih
    | start => rfl
    | done => rfl
    | error err => rfl
    | _ => exact ih

theorem bitsSince_open : ∀ {l : List Ev} {bits : List Bool}, openBits l = some bits → bitsSince l = bits.length
  | [], _, h => absurd h (Option.some_ne_none _).symm
  | e :: l, bits, h => by
    cases e with
    | start =>
      obtain rfl : [] = bits := Option.some.inj h
      rfl
    | bit b =>
      obtain ⟨before, hbefore, rfl⟩ := Option.map_eq_some_iff.mp h
      rw [bitsSince, bitsSince_open hbefore, List.length_append, List.length_singleton]
    | done => exact absurd h (Option.some_ne_none _).symm
    | error err => exact absurd h (Option.some_ne_none _).symm
    | _ => exact bitsSince_open (l := l) h

theorem inReception_filter {l : List Ev} (h : InReception (l.filter Ev.ofDecoder)) : InReception l := by
  intro b m hs
  have hm := h b (m.filter Ev.ofDecoder) (hs.filter Ev.ofDecoder)
  rwa [openBits_filter] at hm

theorem inReception_cons {e : Ev} {l : List Ev} (he : ∀ b, e = .bit b → openBits l ≠ none)
    (h : InReception l) : InReception (e :: l) := by
  intro b m hs
  rcases List.suffix_cons_iff.mp hs with heq | hs
  · obtain ⟨rfl, rfl⟩ := List.cons.inj heq
    exact he b rfl
  · exact h b m hs

section
variable {D : Type} [Driver D]

/-- The history is genuine, and every bit was heard in a reception. -/
def Received (s : Cec D) : Prop := Delivers s ∧ InReception s.calls

theorem kept_received : Kept (Received (D := D)) := by
  refine kept_delivers.and ⟨fun h _ _ hh => ?_, fun h => ?_, fun {s} err h => ?_, fun h => h⟩
  · rw [calls_eq, hh, ← calls_eq]
    exact h
  · exact inReception_cons (fun _ he => Ev.noConfusion he) h
  · rw [calls_eq, (receiveError_rx s err).2.2]
    split
    · rw [← calls_eq]
      exact h
    · refine inReception_cons (fun _ he => Ev.noConfusion he) ?_
      rw [← calls_eq]
      exact h

/-- A bit of a reception counts, and is heard in it. -/
theorem received_bit {s : Cec D} (h : Received s) (h0 : s.rx.flags ≠ 0) (b : Bool) :
    Received (cecReceiveBit s b) ∧ bitsSince (cecReceiveBit s b).calls = bitsSince s.calls + 1 := by
  obtain ⟨hd, hin⟩ := h
  obtain ⟨bits, buf₀, hopen, ht⟩ := hd.opened h0
  have hne : openBits s.calls ≠ none := by
    rw [calls_eq, openBits_filter, hopen]
    exact Option.some_ne_none bits
  have hbit : InReception (.bit b :: s.calls) := inReception_cons (fun _ _ => hne) hin
  rcases receiveBit_calls ht b with ⟨-, hcalls⟩ | ⟨-, -, hcalls⟩
  · refine ⟨⟨delivers_bit hd h0 b, ?_⟩, ?_⟩
    · rw [hcalls]; exact hbit
    · rw [hcalls]; rfl
  · refine ⟨⟨delivers_bit hd h0 b, ?_⟩, ?_⟩
    · rw [hcalls]
      exact inReception_cons (fun _ he => Ev.noConfusion he) hbit
    · rw [hcalls]; rfl

end

/-! ### One tick of the decoder -/

namespace Decoder
variable {d : Decoder} {heard k : Nat}

/-- The decoder is in slot `k`: it has heard the bits before it, and its own once that is sampled. -/
structure At (d : Decoder) (heard k : Nat) : Prop where
  frame : d.recvFrame = 8 * (k % 10)
  heard : heard = k + if d.recvFrameTick < 3 then 0 else 1

theorem At.count (h : d.At heard k) (hd : d.recvState = .bits) (hs : ¬ d.count.sampling) :
    d.count.At heard k := by
  refine ⟨h.frame, ?_⟩
  have hne : ¬ min (d.recvFrameTick + 1) 255 = 3 := fun ht => hs ⟨hd, ht⟩
  rw [h.heard]
  change k + (if d.recvFrameTick < 3 then 0 else 1) = k + if min (d.recvFrameTick + 1) 255 < 3 then 0 else 1
  split <;> split <;> omega

theorem At.sampled (h : d.At heard k) (hs : d.count.sampling) (f : Flags) :
    (d.count.after f).At (heard + 1) k := by
  have ht : min (d.recvFrameTick + 1) 255 = 3 := hs.2
  refine ⟨h.frame, ?_⟩
  rw [h.heard]
  change k + (if d.recvFrameTick < 3 then 0 else 1) + 1 = k + if min (d.recvFrameTick + 1) 255 < 3 then 0 else 1
  rw [ht, if_pos (by omega), if_neg (by omega)]

theorem nextFrame_slot (h : d.recvFrame = 8 * (k % 10)) : d.nextFrame.recvFrame = 8 * ((k + 1) % 10) := by
  have hlt : k % 10 < 10 := Nat.mod_lt _ (by norm_num)
  have hnext : (d.recvFrame + 8) % 256 = 8 * (k % 10) + 8 := by omega
  change (if decide ((d.recvFrame + 8) % 256 = 10 * 8) = true then 0 else (d.recvFrame + 8) % 256) = _
  rw [hnext]
  split
  · next hw =>
    have := of_decide_eq_true hw
    omega
  · next hw =>
    have : ¬ 8 * (k % 10) + 8 = 10 * 8 := fun he => hw (decide_eq_true he)
    omega

/-- An edge in a reception that goes on: a falling one opens the next slot. -/
theorem At.edge (h : d.At heard k) (hv : d.Valid) (hd : d.recvState = .bits) (hpos : 0 < d.recvFrameTick)
    {b : Bool} (hb : (d.edge b).1.recvState = .bits) :
    (d.edge b).2 = .none ∧
      (d.edge b).1.At heard (if (d.edge b).1.recvFrameTick = 0 then k + 1 else k) := by
  rcases Bool.eq_or_eq_not d.recvLastBit b with heq | hne
  · rw [edge_hold heq, hold] at hb ⊢
    split at hb
    · exact UsiRecv.noConfusion hb
    · next hmax =>
      rw [if_neg hmax]
      refine ⟨rfl, ?_⟩
      rw [if_neg (by exact Nat.ne_of_gt hpos)]
      exact ⟨h.frame, h.heard⟩
  · cases b with
    | false =>
      rw [edge_fall hne, fall] at hb ⊢
      have hstart : ¬ d.recvState = .start := by rw [hd]; exact UsiRecv.noConfusion
      by_cases hearly : d.recvFrameTick < d.minFrameTicks
      · rw [if_pos hearly] at hb
        exact UsiRecv.noConfusion hb
      · rw [if_neg hearly, if_neg hstart]
        refine ⟨rfl, nextFrame_slot h.frame, ?_⟩
        -- the slot has been sampled: no edge is accepted before
        have hmin := (hv.bits hd).1
        have hheard := h.heard
        rw [if_neg (by omega)] at hheard
        exact hheard
    | true =>
      rw [edge_rise hne, rise] at hb ⊢
      split at hb
      · exact UsiRecv.noConfusion hb
      · next hlow =>
        rw [if_neg hlow]
        refine ⟨rfl, ?_⟩
        rw [if_neg (by exact Nat.ne_of_gt hpos)]
        exact ⟨h.frame, h.heard⟩

/-- A reception opens at the end of a start bit, in slot 0 with no bit heard. -/
theorem edge_opens (hd : d.recvState ≠ .bits) {b : Bool} (hb : (d.edge b).1.recvState = .bits) :
    d.recvState = .start ∧ (d.edge b).2 = .start ∧ (d.edge b).1.At 0 0 ∧ (d.edge b).1.recvFrameTick = 0 := by
  rcases Bool.eq_or_eq_not d.recvLastBit b with heq | hne
  · rw [edge_hold heq, hold] at hb
    split at hb
    · exact UsiRecv.noConfusion hb
    · exact absurd hb hd
  · cases b with
    | false =>
      rw [edge_fall hne, fall] at hb ⊢
      by_cases hearly : d.recvFrameTick < d.minFrameTicks
      · rw [if_pos hearly] at hb
        exact UsiRecv.noConfusion hb
      · rw [if_neg hearly] at hb ⊢
        by_cases hstart : d.recvState = .start
        · rw [if_pos hstart]
          exact ⟨hstart, rfl, ⟨rfl, rfl⟩, rfl⟩
        · rw [if_neg hstart] at hb
          exact absurd hb hd
    | true =>
      rw [edge_rise hne, rise] at hb
      split at hb
      · exact UsiRecv.noConfusion hb
      · exact absurd hb hd

/-- Only a tick that opens a reception calls the engine's start. -/
theorem edge_start {b : Bool} (hb : ¬ ((d.edge b).1.recvState = .bits ∧ (d.edge b).1.recvFrameTick = 0)) :
    (d.edge b).2 ≠ .start := by
  rcases Bool.eq_or_eq_not d.recvLastBit b with heq | hne
  · rw [edge_hold heq, hold]
    split <;> exact Call.noConfusion
  · cases b with
    | false =>
      rw [edge_fall hne, fall] at hb ⊢
      split
      · exact Call.noConfusion
      · next hearly =>
        rw [if_neg hearly] at hb
        split
        · next hstart =>
          rw [if_pos hstart] at hb
          exact absurd ⟨rfl, rfl⟩ hb
        · exact Call.noConfusion
    | true =>
      rw [edge_rise hne, rise]
      split <;> exact Call.noConfusion

end Decoder

namespace Usi

/-! ### Ticks in a run -/

/-- What holds at every tick of a run. -/
structure Slotted (s : Cec Usi) : Prop where
  valid : s.hw.dec.Valid
  tracked : Tracked Received s
  slot : s.hw.dec.recvState = .bits → ∃ k, s.hw.dec.At (bitsSince s.calls) k

theorem received_ticks {s : Cec Usi} (h : Tracked Received s) (l : List Bool) :
    Tracked Received (l.foldl cecProcessTick s) :=
  tracked_ticks kept_received (fun _ b h0 ht => (received_bit ht h0 b).1) h l

/-- A tick of a reception that goes on stays in its slot, or opens the next one. -/
theorem tick_at {s : Cec Usi} {k : Nat} (h : Slotted s) (hd : s.hw.dec.recvState = .bits)
    (hat : s.hw.dec.At (bitsSince s.calls) k) {b : Bool}
    (hb : (cecProcessTick s b).hw.dec.recvState = .bits) :
    (cecProcessTick s b).hw.dec.At (bitsSince (cecProcessTick s b).calls)
      (if (cecProcessTick s b).hw.dec.recvFrameTick = 0 then k + 1 else k) := by
  have hpos : 0 < s.hw.dec.count.recvFrameTick := by
    change 0 < min (s.hw.dec.recvFrameTick + 1) 255
    omega
  rw [processTick_eq] at hb ⊢
  dsimp only at hb ⊢
  by_cases hs : s.hw.dec.count.sampling
  · rw [if_pos hs] at hb ⊢
    obtain ⟨-, hcount⟩ := received_bit h.tracked.holds (h.tracked.synced hd) b
    generalize cecReceiveBit s b = t at hb hcount ⊢
    have hd' : (s.hw.dec.count.after t.rx.flags).recvState = .bits := by
      by_contra hd'
      have hstart := (Decoder.edge_opens hd' hb).1
      rw [Decoder.after] at hstart
      dsimp only at hstart
      split at hstart
      · exact UsiRecv.noConfusion hstart
      · exact UsiRecv.noConfusion (hs.1.symm.trans hstart)
    obtain ⟨hcall, hat'⟩ := (hat.sampled hs t.rx.flags).edge (h.valid.count.after _) hd' hpos hb
    rw [hcall, ← hcount] at *
    exact hat'
  · rw [if_neg hs] at hb ⊢
    obtain ⟨hcall, hat'⟩ := (hat.count hd hs).edge h.valid.count hd hpos hb
    rw [hcall]
    exact hat'

/-- A tick that opens a reception. -/
theorem tick_opens {s : Cec Usi} (hd : s.hw.dec.recvState ≠ .bits) {b : Bool}
    (hb : (cecProcessTick s b).hw.dec.recvState = .bits) :
    (cecProcessTick s b).hw.dec.At (bitsSince (cecProcessTick s b).calls) 0 ∧
      (cecProcessTick s b).hw.dec.recvFrameTick = 0 := by
  have hs : ¬ s.hw.dec.count.sampling := fun hs => hd hs.1
  rw [processTick_eq] at hb ⊢
  dsimp only at hb ⊢
  rw [if_neg hs] at hb ⊢
  obtain ⟨-, hcall, hat, h0⟩ := Decoder.edge_opens (d := s.hw.dec.count) hd hb
  rw [hcall]
  exact ⟨hat, h0⟩

theorem call_bitsSince (s : Cec Usi) {c : Call} (hc : c ≠ .start) :
    bitsSince (s.call c).calls = bitsSince s.calls := by
  cases c with
  | none => rfl
  | start => exact absurd rfl hc
  | error err =>
    change bitsSince (cecReceiveError s err).calls = _
    rw [calls_eq, (receiveError_rx s err).2.2]
    split
    · rw [← calls_eq]
    · change bitsSince (s.heard.filter Ev.ofDecoder) = _
      rw [← calls_eq]

/-- The tick accepts a falling edge, of a start bit or of a bit after it. -/
def Accepted (s : Cec Usi) : Prop := s.hw.dec.recvState = .bits ∧ s.hw.dec.recvFrameTick = 0

/-- A tick that accepts no edge hears a bit at its slot's sample point only. -/
theorem tick_hears {s : Cec Usi} (h : Slotted s) {b : Bool} (ha : ¬ Accepted (cecProcessTick s b)) :
    bitsSince (cecProcessTick s b).calls
      = bitsSince s.calls + if s.hw.dec.count.sampling then 1 else 0 := by
  rw [processTick_eq] at ha ⊢
  dsimp only at ha ⊢
  by_cases hs : s.hw.dec.count.sampling
  · rw [if_pos hs] at ha
    rw [if_pos hs, if_pos hs, ← (received_bit h.tracked.holds (h.tracked.synced hs.1) b).2]
    exact call_bitsSince _ (Decoder.edge_start ha)
  · rw [if_neg hs] at ha
    rw [if_neg hs, if_neg hs]
    exact call_bitsSince s (Decoder.edge_start ha)

theorem slotted_tick {s : Cec Usi} (h : Slotted s) (b : Bool) : Slotted (cecProcessTick s b) := by
  refine ⟨valid_tick h.valid b, received_ticks h.tracked [b], fun hb => ?_⟩
  by_cases hd : s.hw.dec.recvState = .bits
  · obtain ⟨k, hat⟩ := h.slot hd
    exact ⟨_, tick_at h hd hat hb⟩
  · exact ⟨0, (tick_opens hd hb).1⟩

theorem slotted_ticks {s : Cec Usi} (h : Slotted s) (l : List Bool) : Slotted (l.foldl cecProcessTick s) := by
  induction l generalizing s with
  | nil => exact h
  | cons b l ih => exact ih (slotted_tick h b)

/-! ### Between the ticks -/

theorem calls_writeOut (s : Cec Usi) : (writeOut s).calls = s.calls := by
  change (cecUsiNextBit s).1.calls = s.calls
  rw [cecUsiNextBit]
  split
  · split
    · exact (calls_eq _).trans ((congrArg _ (sameReceive_transmitStart s).heard).trans (calls_eq s).symm)
    · rfl
  · rfl
  · exact (calls_eq _).trans ((congrArg _ (sameReceive_getBit s).heard).trans (calls_eq s).symm)

theorem calls_checkFloat (s : Cec Usi) (others : Bool) : (checkFloat s others).calls = s.calls := by
  rw [calls_eq, (sameReceive_checkFloat s others).heard, ← calls_eq]

theorem calls_handleAck (s : Cec Usi) (others : Bool) : (handleAck s others).calls = s.calls := by
  rw [handleAck]
  dsimp only
  repeat' split
  all_goals rfl

theorem calls_addrPeriodic (s : Cec Usi) : (cecAddrPeriodic s).calls = s.calls := by
  rw [cecAddrPeriodic]
  dsimp only
  repeat' split
  all_goals rfl

theorem calls_app (s : Cec Usi) (a : App) : (a.step s).calls = s.calls := by
  cases a with
  | clear => rfl
  | send message =>
    rw [App.step]
    split <;> rfl
  | assign m =>
    rw [App.step]
    split <;> rfl

/-- The state a poll decodes its byte from. -/
theorem slotted_counted {s : Cec Usi} (h : Slotted s) (others : Bool) :
    Slotted (counted (checkFloat s others)) := by
  have hdec := checkFloat_dec s others
  have hfloat : Tracked Received (checkFloat s others) :=
    h.tracked.sameReceive kept_received (sameReceive_checkFloat s others) (by rw [hdec])
  refine ⟨?_, hfloat.same kept_received rfl rfl rfl rfl, ?_⟩
  · change (checkFloat s others).hw.dec.Valid
    rw [hdec]
    exact h.valid
  · change (checkFloat s others).hw.dec.recvState = .bits →
      ∃ k, (checkFloat s others).hw.dec.At (bitsSince (checkFloat s others).calls) k
    rw [hdec, calls_checkFloat]
    exact h.slot

theorem slotted_poll {s : Cec Usi} (h : Slotted s) (others₁ others₂ : Bool) :
    (cecReceivePeriodic s others₁ others₂).hw.dec.recvState = .bits →
      ∃ k, (cecReceivePeriodic s others₁ others₂).hw.dec.At
        (bitsSince (cecReceivePeriodic s others₁ others₂).calls) k := by
  have hack : ∀ t : Cec Usi, (t.hw.dec.recvState = .bits → ∃ k, t.hw.dec.At (bitsSince t.calls) k) →
      (handleAck t others₂).hw.dec.recvState = .bits →
        ∃ k, (handleAck t others₂).hw.dec.At (bitsSince (handleAck t others₂).calls) k := by
    intro t ht
    obtain ⟨done, hd⟩ := handleAck_dec t others₂
    rw [hd, calls_handleAck]
    exact fun hb => (ht hb).imp fun _ hat => ⟨hat.frame, hat.heard⟩
  rw [cecReceivePeriodic]
  split
  · refine hack _ ?_
    have hdec : (handleOverflow (checkFloat s others₁)).hw.dec = (decoded (checkFloat s others₁)).hw.dec :=
      nextBit_dec _
    rw [hdec, handleOverflow_eq, calls_writeOut]
    exact (slotted_ticks (slotted_counted h others₁) _).slot
  · refine hack _ ?_
    rw [checkFloat_dec, calls_checkFloat]
    exact h.slot

theorem slotted_step {s : Cec Usi} (h : Slotted s) (i : Step) : Slotted (step i s) := by
  refine ⟨valid_step h.valid i,
    tracked_step kept_received (fun _ b h0 ht => (received_bit ht h0 b).1) h.tracked i, ?_⟩
  cases i with
  | tick others =>
    have hdec : (s.hw.clock others).dec = s.hw.dec := by
      rw [clock]
      split <;> rfl
    change (s.hw.clock others).dec.recvState = .bits → ∃ k, (s.hw.clock others).dec.At (bitsSince s.calls) k
    rw [hdec]
    exact h.slot
  | poll others₁ others₂ =>
    rw [step, cecPeriodic, addrPeriodic_hw, calls_addrPeriodic]
    exact slotted_poll h others₁ others₂
  | app a =>
    change (a.step s).hw.dec.recvState = .bits → ∃ k, (a.step s).hw.dec.At (bitsSince (a.step s).calls) k
    rw [app_hw, calls_app]
    exact h.slot

theorem slotted_run (build : Build) (addr : Addr) (is : List Step) :
    Slotted (run step (initial build addr) is) := by
  have hidle : (initial build addr).hw.dec.recvState = .idle := by rw [initial, cecInit, addrInit_hw]; rfl
  have h0 : Slotted (initial build addr) := by
    refine ⟨valid_run build addr [], ⟨⟨(delivers_run build addr []).holds.1, ?_⟩, ?_⟩, ?_⟩
    · intro b l hs
      have hcalls : (initial build addr).calls = [] := by
        rw [Cec.calls, initial, cecInit, addrInit_log]
        rfl
      rw [hcalls] at hs
      exact absurd (List.suffix_nil.mp hs) (List.cons_ne_nil _ _)
    · exact fun hb => UsiRecv.noConfusion (hidle.symm.trans hb)
    · exact fun hb => UsiRecv.noConfusion (hidle.symm.trans hb)
  have hstep : ∀ (s : Cec Usi) (i : Step), Slotted s → Slotted (step i s) := fun s i hs => slotted_step hs i
  exact invariant_run' hstep is h0

/-! ### What the slots say -/

/-- At the end of a tick in a reception the counters of the driver and of the engine agree. -/
structure Aligned (s : Cec Usi) : Prop where
  /-- No bit was heard without a reception in progress. -/
  received : InReception s.log
  active : s.hw.dec.recvState = .bits → s.rx.flags ≠ 0
  frame : s.hw.dec.recvState = .bits → s.hw.dec.recvFrame % 8 = 0 ∧ s.hw.dec.recvFrame < 80
  slot : s.hw.dec.recvState = .bits →
    if s.hw.dec.recvFrameTick < 3 then s.hw.dec.recvFrame / 8 = bitsSince s.log % 10
    else 0 < bitsSince s.log ∧ s.hw.dec.recvFrame / 8 = (bitsSince s.log - 1) % 10
  bitsEom : s.hw.dec.recvState = .bits → (s.rx.flags.bitsEom = false ↔ bitsSince s.log % 10 = 9)
  byte : s.hw.dec.recvState = .bits →
    (s.rx.byte = 0 ↔ bitsSince s.log % 10 = 8 ∨ bitsSince s.log % 10 = 9)

/-- No tick of the levels accepts a falling edge. -/
def NoEdge (s : Cec Usi) : List Bool → Prop
  | [] => True
  | b :: l => ¬ Accepted (cecProcessTick s b) ∧ NoEdge (cecProcessTick s b) l

/-- An accepted falling edge is followed by one sample: none is taken before its third tick, one has
    been when the reception is still on there, and no other is before the next accepted edge. -/
structure SampledOnce (s : Cec Usi) : Prop where
  most : Accepted s → ∀ levels, NoEdge s levels →
    bitsSince (levels.foldl cecProcessTick s).log ≤ bitsSince s.log + 1
  going : Accepted s → ∀ levels, NoEdge s levels → (levels.foldl cecProcessTick s).hw.dec.recvState = .bits →
    bitsSince (levels.foldl cecProcessTick s).log
      = bitsSince s.log + if (levels.foldl cecProcessTick s).hw.dec.recvFrameTick < 3 then 0 else 1
  next : Accepted s → ∀ levels b, NoEdge s levels →
    (levels.foldl cecProcessTick s).hw.dec.recvState = .bits →
    Accepted (cecProcessTick (levels.foldl cecProcessTick s) b) →
    bitsSince (cecProcessTick (levels.foldl cecProcessTick s) b).log = bitsSince s.log + 1

theorem bitsSince_calls (s : Cec Usi) : bitsSince s.calls = bitsSince s.log := bitsSince_filter s.log

theorem aligned_of_slotted {s : Cec Usi} (h : Slotted s) : Aligned s := by
  have hk := h.slot
  rw [bitsSince_calls] at hk
  have hopen : s.hw.dec.recvState = .bits → ∃ bits buf₀, bitsSince s.log = bits.length ∧
      Tracks s.build.hdr buf₀ bits s.rx := by
    intro hb
    obtain ⟨bits, buf₀, hopen, ht⟩ := h.tracked.holds.1.opened (h.tracked.synced hb)
    rw [← openBits_filter, ← calls_eq, Cec.calls, openBits_filter] at hopen
    exact ⟨bits, buf₀, bitsSince_open hopen, ht⟩
  refine ⟨inReception_filter h.tracked.holds.2, h.tracked.synced, fun _ => ?_, fun hb => ?_, fun hb => ?_,
    fun hb => ?_⟩
  · obtain ⟨k, hlt, hf⟩ := h.valid.frame
    omega
  · obtain ⟨k, hat⟩ := hk hb
    have hf := hat.frame
    have hn := hat.heard
    split
    · next ht =>
      rw [if_pos ht] at hn
      omega
    · next ht =>
      rw [if_neg ht] at hn
      omega
  · obtain ⟨bits, buf₀, hlen, ht⟩ := hopen hb
    rw [ht.bitsEom, hlen, phase]
    simp
  · obtain ⟨bits, buf₀, hlen, ht⟩ := hopen hb
    have hlt : phase bits < 10 := Nat.mod_lt _ (by norm_num)
    have hpos := marked_pos (current bits)
    rw [ht.byte, hlen, ← phase]
    split <;> omega

/-- A reception that goes on stays in its slot, and a reception that is over hears nothing more. -/
theorem noEdge_ticks {s : Cec Usi} {k : Nat} (h : Slotted s) (levels : List Bool) (hn : NoEdge s levels)
    (hk : bitsSince s.log ≤ k + 1) (hat : s.hw.dec.recvState = .bits → s.hw.dec.At (bitsSince s.log) k) :
    let t := levels.foldl cecProcessTick s
    bitsSince t.log ≤ k + 1 ∧ (t.hw.dec.recvState = .bits → t.hw.dec.At (bitsSince t.log) k) := by
  induction levels generalizing s with
  | nil => exact ⟨hk, hat⟩
  | cons b l ih =>
    have hhears := tick_hears h hn.1
    rw [bitsSince_calls, bitsSince_calls] at hhears
    refine ih (slotted_tick h b) hn.2 ?_ fun hb => ?_
    · rw [hhears]
      split
      · next hs =>
        have h3 : min (s.hw.dec.recvFrameTick + 1) 255 = 3 := hs.2
        have hheard := (hat hs.1).heard
        rw [if_pos (by omega)] at hheard
        omega
      · exact hk
    · by_cases hd : s.hw.dec.recvState = .bits
      · have hat' := hat hd
        rw [← bitsSince_calls] at hat'
        have hnext := tick_at h hd hat' hb
        rw [if_neg fun h0 => hn.1 ⟨hb, h0⟩, bitsSince_calls] at hnext
        exact hnext
      · exact absurd ⟨hb, (tick_opens hd hb).2⟩ hn.1

theorem sampledOnce_of_slotted {s : Cec Usi} (h : Slotted s) : SampledOnce s := by
  have hgo : Accepted s → ∀ levels, NoEdge s levels →
      let t := levels.foldl cecProcessTick s
      bitsSince t.log ≤ bitsSince s.log + 1 ∧
        (t.hw.dec.recvState = .bits → t.hw.dec.At (bitsSince t.log) (bitsSince s.log)) := by
    rintro ⟨hd, h0⟩ levels hn
    obtain ⟨k, hat⟩ := h.slot hd
    have hheard := hat.heard
    rw [h0, if_pos (by omega), Nat.add_zero] at hheard
    rw [← hheard, bitsSince_calls] at hat
    exact noEdge_ticks h levels hn (Nat.le_succ _) fun _ => hat
  refine ⟨fun ha levels hn => (hgo ha levels hn).1, fun ha levels hn hb => ((hgo ha levels hn).2 hb).heard,
    fun ha levels b hn hb hnext => ?_⟩
  have hat := (hgo ha levels hn).2 hb
  rw [← bitsSince_calls (levels.foldl cecProcessTick s)] at hat
  have hheard := (tick_at (slotted_ticks h levels) hb hat hnext.1).heard
  rw [hnext.2, if_pos rfl, bitsSince_calls] at hheard
  exact hheard

/-- In every run, and at the end of every tick of every sequence of levels a poll of it may decode, the
    slots are aligned and each accepted falling edge is followed by one sample. -/
theorem slot_alignment (build : Build) (addr : Addr) (is : List Step) :
    (Aligned (run step (initial build addr) is) ∧ SampledOnce (run step (initial build addr) is)) ∧
      ∀ (others : Bool) (levels : List Bool),
        let s := levels.foldl cecProcessTick (counted (checkFloat (run step (initial build addr) is) others))
        Aligned s ∧ SampledOnce s := by
  have h := slotted_run build addr is
  refine ⟨⟨aligned_of_slotted h, sampledOnce_of_slotted h⟩, fun others levels => ?_⟩
  have ht := slotted_ticks (slotted_counted h others) levels
  exact ⟨aligned_of_slotted ht, sampledOnce_of_slotted ht⟩

end Usi

end AvrCec
