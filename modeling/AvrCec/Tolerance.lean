import AvrCec.Decoder
import AvrCec.Lib.Sampling
import Mathlib.Algebra.Order.Archimedean.Real.Basic

/-! The USI tick decoder over the timing tolerance of `cec_spec.h`.

    A waveform is a train of pulses with times anywhere in their windows, sampled at any phase. Its
    samples are a train of tick counts in windows of their own (`bitShape_of_times`); from there on
    the proof is about ticks: the start pulse opens a reception (`start_received`), every pulse after
    it feeds the engine its bit (`pulse_received`) until the engine has ended the message, and none
    after that feeds it anything (`pulse_ignored`). -/

namespace AvrCec
open Lib

/-! ### The calls the engine saw -/

/-- The calls of a tick decoder that had an effect, and the ends of receptions. -/
def Ev.ofDecoder : Ev → Bool
  | .start | .bit _ | .error _ | .done => true
  | _ => false

section
variable {D : Type} [Driver D]

/-- The part of the log a tick decoder is to blame for. -/
def Cec.calls (s : Cec D) : List Ev := s.log.filter Ev.ofDecoder

omit [Driver D] in
theorem calls_eq (s : Cec D) : s.calls = s.heard.filter Ev.ofDecoder := by
  rw [Cec.calls, Cec.heard, List.filter_filter]
  refine List.filter_congr fun e _ => ?_
  cases e <;> rfl

/-- A bit of a reception is taken in, or ends the reception as its ack bit. -/
theorem receiveBit_calls {buf₀ : Nat → Nat} {bits : List Bool} {s : Cec D}
    (h : Tracks s.build.hdr buf₀ bits s.rx) (b : Bool) :
    (Tracks s.build.hdr buf₀ (bits ++ [b]) (cecReceiveBit s b).rx ∧
        (cecReceiveBit s b).calls = .bit b :: s.calls) ∨
      (phase bits = 9 ∧ (cecReceiveBit s b).rx.flags = 0 ∧
        (cecReceiveBit s b).calls = .done :: .bit b :: s.calls) := by
  have hbit : ∀ l : List Ev, (Ev.bit b :: l).filter Ev.ofDecoder = .bit b :: l.filter Ev.ofDecoder :=
    fun _ => rfl
  rw [calls_eq, calls_eq]
  by_cases h9 : phase bits = 9
  · cases hends : s.rx.ends b with
    | false =>
      refine .inl ⟨tracks_next h h9 hends, ?_⟩
      rw [receiveBit_heard h (by omega) fun _ => hends, hbit]
    | true =>
      refine .inr ⟨h9, by rw [ack_ends h h9 hends], ?_⟩
      rw [ack_ends_heard h h9 hends]
      split <;> rfl
  · refine .inl ⟨tracks_data h h9 b, ?_⟩
    by_cases h7 : phase bits = 7
    · have hsame := sameReceive_checkTxBit (s.emit (.bit b)) b
      have hemit : (s.emit (.bit b)).heard = .bit b :: s.heard := by simp [emit_heard, Ev.ofReceive]
      rw [receiveBit_done h h7, receiveByteDone_heard, hsame.heard, hemit]
      split <;> rfl
    · rw [receiveBit_heard h h7 fun h => absurd h h9, hbit]

/-- How many of the bits the engine takes before its flags are 0. -/
def taken (s : Cec D) : List Bool → Nat
  | [] => 0
  | b :: bs => if (cecReceiveBit s b).rx.flags = 0 then 1 else taken (cecReceiveBit s b) bs + 1

/-- The state once it has taken them. -/
def takeIn (s : Cec D) (bits : List Bool) : Cec D := feed s (bits.take (taken s bits))

theorem takeIn_nil (s : Cec D) : takeIn s [] = s := rfl

theorem takeIn_ended {s : Cec D} {b : Bool} (h : (cecReceiveBit s b).rx.flags = 0) (bs : List Bool) :
    takeIn s (b :: bs) = cecReceiveBit s b := by
  rw [takeIn, taken, if_pos h]; rfl

theorem takeIn_cons {s : Cec D} {b : Bool} (h : (cecReceiveBit s b).rx.flags ≠ 0) (bs : List Bool) :
    takeIn s (b :: bs) = takeIn (cecReceiveBit s b) bs := by
  rw [takeIn, taken, if_neg h]; rfl

theorem taken_le (s : Cec D) (bits : List Bool) : taken s bits ≤ bits.length := by
  induction bits generalizing s with
  | nil => exact Nat.le_refl 0
  | cons b bs ih =>
    rw [taken, List.length_cons]
    split
    · omega
    · exact Nat.succ_le_succ (ih _)

/-- What the engine saw of the bits it was fed, and how its reception stands. -/
structure TookIn (s t : Cec D) (done : Nat) (bits : List Bool) (m : Nat) (ended : Bool) : Prop where
  calls : t.calls = (if ended then [.done] else []) ++ ((bits.take m).map .bit).reverse ++ s.calls
  going : ended = false → m = bits.length ∧ t.rx.flags ≠ 0
  ended : ended = true → 0 < m ∧ (done + m) % 10 = 0 ∧ t.rx.flags = 0

/-- The engine takes the bits in order until all are in, or until it ends the message on an ack
    bit. -/
theorem takeIn_calls {hdr : Nat} {buf₀ : Nat → Nat} {heard : List Bool} {s : Cec D}
    (hhdr : s.build.hdr = hdr) (h : Tracks hdr buf₀ heard s.rx) (bits : List Bool) :
    ∃ ended, TookIn s (takeIn s bits) heard.length bits (taken s bits) ended := by
  induction bits generalizing s heard with
  | nil => exact ⟨false, rfl, fun _ => ⟨rfl, h.flags_ne⟩, fun he => Bool.noConfusion he⟩
  | cons b bs ih =>
    subst hhdr
    rcases receiveBit_calls h b with ⟨ht, hcalls⟩ | ⟨h9, h0, hcalls⟩
    · have hne := ht.flags_ne
      obtain ⟨ended, hrest⟩ := ih (congrArg Build.hdr (receiveBit_build s b).1) ht
      refine ⟨ended, ?_, fun he => ?_, fun he => ?_⟩
      · rw [takeIn_cons hne, hrest.calls, hcalls, taken, if_neg hne, List.take_succ_cons,
          List.map_cons, List.reverse_cons]
        simp only [List.append_assoc, List.singleton_append]
      · rw [takeIn_cons hne, taken, if_neg hne, List.length_cons]
        exact ⟨congrArg Nat.succ (hrest.going he).1, (hrest.going he).2⟩
      · obtain ⟨hpos, hmod, h0⟩ := hrest.ended he
        rw [takeIn_cons hne, taken, if_neg hne]
        rw [List.length_append, List.length_singleton] at hmod
        exact ⟨by omega, by omega, h0⟩
    · refine ⟨true, ?_, fun he => Bool.noConfusion he, fun _ => ?_⟩
      · rw [takeIn_ended h0, hcalls, taken, if_pos h0]
        rfl
      · rw [takeIn_ended h0, taken, if_pos h0]
        rw [phase] at h9
        exact ⟨by omega, by omega, h0⟩

end

/-! ### Pulses in ticks -/

/-- The low and the high ticks of the bit `b`. -/
structure BitShape (b : Bool) (q : Nat × Nat) : Prop where
  low : if b then 1 ≤ q.1 ∧ q.1 ≤ 3 else 4 ≤ q.1 ∧ q.1 ≤ 6
  high : 1 ≤ q.2
  total : 6 ≤ q.1 + q.2 ∧ q.1 + q.2 ≤ 10

/-- Those of a start bit. -/
structure StartShape (q : Nat × Nat) : Prop where
  low : 11 ≤ q.1 ∧ q.1 ≤ 13
  total : 14 ≤ q.1 + q.2 ∧ q.1 + q.2 ≤ 16
  high : 1 ≤ q.2

/-- A pulse after the tick of its falling edge. -/
def afterFall (q : Nat × Nat) : List Bool := List.replicate (q.1 - 1) false ++ List.replicate q.2 true

theorem train_fall {q : Nat × Nat} (h : 1 ≤ q.1) (l : List (Nat × Nat)) :
    train (q :: l) = false :: (afterFall q ++ train l) := by
  obtain ⟨a, ha⟩ := Nat.exists_eq_add_of_le' h
  rw [train_cons, afterFall, ha, Nat.add_sub_cancel, List.replicate_succ, List.cons_append, List.cons_append]

theorem BitShape.low_pos {b : Bool} {q : Nat × Nat} (h : BitShape b q) : 1 ≤ q.1 ∧ q.1 ≤ 6 := by
  have hlow := h.low
  split at hlow <;> omega

/-- The decoder `tick` ticks after a falling edge, on a line at the level `last`. -/
def Decoder.put (d : Decoder) (tick : Nat) (last : Bool) : Decoder :=
  { d with recvFrameTick := tick, recvLastBit := last }

theorem put_self (d : Decoder) : d.put d.recvFrameTick d.recvLastBit = d := rfl

theorem put_hold (s : Cec Usi) (d : Decoder) (k n : Nat) (b : Bool) (hmax : k + n ≤ d.maxFrameTicks)
    (h255 : d.maxFrameTicks ≤ 255) (hq : d.recvState = .bits → 3 ≤ k ∨ k + n < 3) :
    (List.replicate n b).foldl cecProcessTick (withDec s (d.put k b)) = withDec s (d.put (k + n) b) :=
  hold_ticks s (d.put k b) n rfl hmax h255 hq

theorem put_rise (s : Cec Usi) (d : Decoder) (k : Nat) (hk : k + 1 < 11)
    (hq : d.recvState = .bits → k ≠ 2) :
    cecProcessTick (withDec s (d.put k false)) true = withDec s (d.put (k + 1) true) :=
  tick_rise s (d.put k false) rfl hk hq

theorem put_sample (s : Cec Usi) (d : Decoder) {b last : Bool} (hs : d.recvState = .bits)
    (hmax : 3 ≤ d.maxFrameTicks) (hb : last = b ∨ b = true) :
    cecProcessTick (withDec s (d.put 2 last)) b
      = withDec (cecReceiveBit s b) ((d.after (cecReceiveBit s b).rx.flags).put 3 b) :=
  tick_sample s (d.put 2 last) hs rfl hmax hb

/-- The decoder right after the falling edge of a bit. -/
structure Fallen (d : Decoder) : Prop where
  edge : d.recvFrameTick = 0 ∧ d.recvLastBit = false
  window : d.minFrameTicks = 6 ∧ d.maxFrameTicks = 10

theorem Fallen.put {d : Decoder} (h : Fallen d) : d = d.put 0 false := by
  rw [← h.edge.1, ← h.edge.2, put_self]

/-- The decoder waits for the falling edge of the next bit. -/
structure Awaiting (d : Decoder) : Prop where
  tick : 5 ≤ d.recvFrameTick ∧ d.recvFrameTick ≤ 9
  last : d.recvLastBit = true
  window : d.minFrameTicks = 6 ∧ d.maxFrameTicks = 10

theorem awaiting_put {d : Decoder} {b : Bool} {q : Nat × Nat} (hd : Fallen d) (hq : BitShape b q) :
    Awaiting (d.put (q.1 + q.2 - 1) true) := by
  obtain ⟨h6, h10⟩ := hq.total
  refine ⟨⟨?_, ?_⟩, rfl, hd.window⟩
  · change 5 ≤ q.1 + q.2 - 1
    omega
  · change q.1 + q.2 - 1 ≤ 9
    omega

/-- Outside of a reception a bit has no effect. -/
theorem pulse_idle (s : Cec Usi) {d : Decoder} {b : Bool} {q : Nat × Nat} (hd : Fallen d)
    (hidle : d.recvState = .idle) (hq : BitShape b q) :
    (afterFall q).foldl cecProcessTick (withDec s d) = withDec s (d.put (q.1 + q.2 - 1) true) := by
  obtain ⟨h1, h6⟩ := hq.low_pos
  obtain ⟨n, hn⟩ := Nat.exists_eq_add_of_le' hq.high
  have htotal := hq.total
  have hmax := hd.window.2
  have hno : d.recvState = .bits → False := fun h => by rw [hidle] at h; exact UsiRecv.noConfusion h
  calc (afterFall q).foldl cecProcessTick (withDec s d)
      = (List.replicate n true).foldl cecProcessTick
          (cecProcessTick (withDec s (d.put (0 + (q.1 - 1)) false)) true) := by
        rw [afterFall, List.foldl_append, hn, List.replicate_succ, List.foldl_cons]
        nth_rewrite 1 [hd.put]
        rw [put_hold s d 0 (q.1 - 1) false (by omega) (by omega) fun h => (hno h).elim]
    _ = withDec s (d.put (0 + (q.1 - 1) + 1 + n) true) := by
        rw [put_rise s d _ (by omega) fun h => (hno h).elim,
          put_hold s d _ n true (by omega) (by omega) fun h => (hno h).elim]
    _ = withDec s (d.put (q.1 + q.2 - 1) true) := by
        rw [show 0 + (q.1 - 1) + 1 + n = q.1 + q.2 - 1 by omega]

/-- A one: the line is high again when its sample falls due. -/
theorem pulse_one (s : Cec Usi) {d : Decoder} {q : Nat × Nat} (hd : Fallen d)
    (hbits : d.recvState = .bits) (hq : BitShape true q) :
    (afterFall q).foldl cecProcessTick (withDec s d)
      = withDec (cecReceiveBit s true)
          ((d.after (cecReceiveBit s true).rx.flags).put (q.1 + q.2 - 1) true) := by
  have hlow : 1 ≤ q.1 ∧ q.1 ≤ 3 := hq.low
  have htotal := hq.total
  have hmax := hd.window.2
  -- two ticks come ahead of the sample, and the line may rise in them
  have hahead : ∃ last, (List.replicate (q.1 - 1) false ++ List.replicate (3 - q.1) true).foldl
      cecProcessTick (withDec s d) = withDec s (d.put 2 last) := by
    rw [List.foldl_append]
    nth_rewrite 1 [hd.put]
    rw [put_hold s d 0 (q.1 - 1) false (by omega) (by omega) fun _ => .inr (by omega)]
    rcases (by omega : q.1 = 3 ∨ q.1 = 2 ∨ q.1 = 1) with h | h | h <;> rw [h]
    · exact ⟨false, rfl⟩
    · exact ⟨true, put_rise s d 1 (by omega) fun _ => by omega⟩
    · refine ⟨true, ?_⟩
      change cecProcessTick (cecProcessTick (withDec s (d.put 0 false)) true) true = _
      rw [put_rise s d 0 (by omega) fun _ => by omega]
      exact put_hold s d 1 1 true (by omega) (by omega) fun _ => .inr (by omega)
  obtain ⟨last, hahead⟩ := hahead
  have hsplit : List.replicate q.2 true
      = List.replicate (3 - q.1) true ++ [true] ++ List.replicate (q.1 + q.2 - 4) true := by
    rw [← List.replicate_one, List.replicate_append_replicate, List.replicate_append_replicate]
    congr 1; omega
  rw [afterFall, hsplit, ← List.append_assoc, ← List.append_assoc, List.foldl_append, List.foldl_append,
    hahead, List.foldl_cons, List.foldl_nil, put_sample s d hbits (by omega) (.inr rfl),
    put_hold _ _ 3 (q.1 + q.2 - 4) true (by change _ ≤ d.maxFrameTicks; omega)
      (by change d.maxFrameTicks ≤ 255; omega) fun _ => .inl (Nat.le_refl 3),
    show 3 + (q.1 + q.2 - 4) = q.1 + q.2 - 1 by omega]

/-- A zero: the line is still low when its sample falls due. -/
theorem pulse_zero (s : Cec Usi) {d : Decoder} {q : Nat × Nat} (hd : Fallen d)
    (hbits : d.recvState = .bits) (hq : BitShape false q) :
    (afterFall q).foldl cecProcessTick (withDec s d)
      = withDec (cecReceiveBit s false)
          ((d.after (cecReceiveBit s false).rx.flags).put (q.1 + q.2 - 1) true) := by
  have hlow : 4 ≤ q.1 ∧ q.1 ≤ 6 := hq.low
  obtain ⟨n, hn⟩ := Nat.exists_eq_add_of_le' hq.high
  have htotal := hq.total
  have hmax := hd.window.2
  have hsplit : List.replicate (q.1 - 1) false
      = List.replicate 2 false ++ [false] ++ List.replicate (q.1 - 4) false := by
    rw [← List.replicate_one, List.replicate_append_replicate, List.replicate_append_replicate]
    congr 1; omega
  have hahead : (List.replicate 2 false).foldl cecProcessTick (withDec s d) = withDec s (d.put 2 false) := by
    nth_rewrite 1 [hd.put]
    exact put_hold s d 0 2 false (by omega) (by omega) fun _ => .inr (by omega)
  have hafter : ∀ f, (d.after f).maxFrameTicks = 10 := fun _ => hmax
  rw [afterFall, hsplit, List.foldl_append, List.foldl_append, List.foldl_append, hahead,
    List.foldl_cons, List.foldl_nil, put_sample s d hbits (by omega) (.inl rfl)]
  generalize cecReceiveBit s false = t
  have hmax' := hafter t.rx.flags
  rw [put_hold t _ 3 (q.1 - 4) false (by omega) (by omega) fun _ => .inl (Nat.le_refl 3), hn,
    List.replicate_succ, List.foldl_cons, put_rise t _ _ (by omega) fun _ => by omega,
    put_hold t _ _ n true (by omega) (by omega) fun _ => .inl (by omega),
    show 3 + (q.1 - 4) + 1 + n = q.1 + (n + 1) - 1 by omega]

/-- A bit of a reception is handed to the engine. -/
theorem pulse_bits (s : Cec Usi) {d : Decoder} {b : Bool} {q : Nat × Nat} (hd : Fallen d)
    (hbits : d.recvState = .bits) (hq : BitShape b q) :
    (afterFall q).foldl cecProcessTick (withDec s d)
      = withDec (cecReceiveBit s b) ((d.after (cecReceiveBit s b).rx.flags).put (q.1 + q.2 - 1) true) := by
  cases b with
  | true => exact pulse_one s hd hbits hq
  | false => exact pulse_zero s hd hbits hq

/-! ### Trains of bits -/

/-- The falling edge of a bit. -/
theorem fall_awaiting (s : Cec Usi) {d : Decoder} (hd : Awaiting d) (hs : d.recvState ≠ .start) :
    ∃ d', cecProcessTick (withDec s d) false = withDec s d' ∧ Fallen d' ∧ d'.recvState = d.recvState := by
  obtain ⟨h5, h9⟩ := hd.tick
  have hmin := hd.window.1
  exact ⟨_, tick_fall s d hd.last (by omega) hs fun _ => by omega, ⟨⟨rfl, rfl⟩, hd.window⟩, rfl⟩

/-- Once the engine has ended the message the bits have no effect. -/
theorem train_idle (s : Cec Usi) {bits : List Bool} {qs : List (Nat × Nat)}
    (hq : List.Forall₂ BitShape bits qs) {d : Decoder} (hd : Awaiting d) (hidle : d.recvState = .idle) :
    ∃ d', (train qs).foldl cecProcessTick (withDec s d) = withDec s d' ∧ Awaiting d' ∧
      d'.recvState = .idle := by
  induction hq generalizing d with
  | nil => exact ⟨d, rfl, hd, hidle⟩
  | @cons b q bits qs hb _ ih =>
    obtain ⟨d', hfall, hd', hstate⟩ := fall_awaiting s hd (by rw [hidle]; exact UsiRecv.noConfusion)
    rw [train_fall hb.low_pos.1, List.foldl_cons, List.foldl_append, hfall,
      pulse_idle s hd' (hstate.trans hidle) hb]
    exact ih (awaiting_put hd' hb) (hstate.trans hidle)

/-- The bits after the one whose falling edge was the last tick. -/
theorem train_fallen (s : Cec Usi) {b : Bool} {bits : List Bool} {q : Nat × Nat} {qs : List (Nat × Nat)}
    (hb : BitShape b q) (hq : List.Forall₂ BitShape bits qs) {d : Decoder} (hd : Fallen d)
    (hbits : d.recvState = .bits) :
    ∃ d', (afterFall q ++ train qs).foldl cecProcessTick (withDec s d) = withDec (takeIn s (b :: bits)) d' ∧
      Awaiting d' ∧ d'.recvState ≠ .start := by
  induction hq generalizing s d b q with
  | nil =>
    refine ⟨_, ?_, awaiting_put (d := d.after (cecReceiveBit s b).rx.flags) ⟨hd.edge, hd.window⟩ hb, ?_⟩
    · rw [train, List.flatMap_nil, List.append_nil, pulse_bits s hd hbits hb, takeIn, taken]
      split <;> rfl
    · change (if (cecReceiveBit s b).rx.flags = 0 then UsiRecv.idle else d.recvState) ≠ .start
      split
      · exact UsiRecv.noConfusion
      · rw [hbits]; exact UsiRecv.noConfusion
  | @cons b₁ q₁ bits qs hb₁ hq ih =>
    have hawait := awaiting_put (d := d.after (cecReceiveBit s b).rx.flags) ⟨hd.edge, hd.window⟩ hb
    have hstate : (d.after (cecReceiveBit s b).rx.flags).recvState
        = if (cecReceiveBit s b).rx.flags = 0 then .idle else .bits := by rw [Decoder.after, hbits]
    rw [List.foldl_append, pulse_bits s hd hbits hb]
    by_cases h0 : (cecReceiveBit s b).rx.flags = 0
    · rw [if_pos h0] at hstate
      rw [takeIn_ended h0]
      obtain ⟨d', hidle, hd', hi⟩ := train_idle (cecReceiveBit s b) (.cons hb₁ hq) hawait hstate
      exact ⟨d', hidle, hd', by rw [hi]; exact UsiRecv.noConfusion⟩
    · rw [if_neg h0] at hstate
      have hnot : (d.after (cecReceiveBit s b).rx.flags).recvState ≠ .start := by
        rw [hstate]; exact UsiRecv.noConfusion
      obtain ⟨d', hfall, hd', hs'⟩ := fall_awaiting (cecReceiveBit s b) hawait hnot
      rw [train_fall hb₁.low_pos.1, List.foldl_cons, hfall, takeIn_cons h0]
      exact ih _ hb₁ hd' (hs'.trans hstate)

/-! ### The start bit -/

/-- A high tick outside of a reception: a start bit under way is dropped when its time is up. -/
theorem high_tick {s : Cec Usi} {d : Decoder} (h0 : s.rx.flags = 0) (hv : d.Valid)
    (hb : d.recvState ≠ .bits) :
    ∃ d', cecProcessTick (withDec s d) true = withDec s d' ∧ d'.Valid ∧ d'.recvState ≠ .bits ∧
      d'.recvLastBit = true ∧ d'.recvFrameTick = min (d.recvFrameTick + 1) 255 ∧
      (d'.recvState = .start → d'.recvFrameTick ≤ 16) := by
  have hcount : d.count.recvFrameTick = min (d.recvFrameTick + 1) 255 := rfl
  have hvalid := hv.count.edge true
  rw [← hcount]
  have hcall : s.call (d.count.edge true).2 = s := by
    cases hlast : d.recvLastBit with
    | true =>
      rw [Decoder.edge_hold (by exact hlast), Decoder.hold]
      split
      · exact receiveError_zero h0 .noEom
      · rfl
    | false =>
      rw [Decoder.edge_rise (by exact hlast), Decoder.rise]
      split <;> rfl
  refine ⟨_, tick_quiet (not_sampling fun h => absurd h hb) hcall, hvalid, ?_⟩
  cases hlast : d.recvLastBit with
  | true =>
    rw [Decoder.edge_hold (by exact hlast), Decoder.hold]
    split
    · exact ⟨UsiRecv.noConfusion, rfl, rfl, fun h => UsiRecv.noConfusion h⟩
    · next hin =>
      refine ⟨hb, rfl, rfl, fun h => ?_⟩
      have hmax : d.count.maxFrameTicks = 16 := (hv.start h).2.1
      change d.count.recvFrameTick ≤ 16
      omega
  | false =>
    rw [Decoder.edge_rise (by exact hlast), Decoder.rise]
    split
    · next hin =>
      refine ⟨UsiRecv.noConfusion, rfl, rfl, fun _ => ?_⟩
      have : d.count.recvFrameTick ≤ 14 := hin.2
      change d.count.recvFrameTick ≤ 16
      omega
    · refine ⟨hb, rfl, rfl, fun h => ?_⟩
      have := (hv.start h).2.2
      rw [hlast] at this
      exact Bool.noConfusion this

theorem high_ticks {s : Cec Usi} {d : Decoder} (h0 : s.rx.flags = 0) (hv : d.Valid)
    (hb : d.recvState ≠ .bits) (n : Nat) :
    ∃ d', (List.replicate (n + 1) true).foldl cecProcessTick (withDec s d) = withDec s d' ∧ d'.Valid ∧
      d'.recvState ≠ .bits ∧ d'.recvLastBit = true ∧ min (n + 1) 255 ≤ d'.recvFrameTick ∧
      (d'.recvState = .start → d'.recvFrameTick ≤ 16) := by
  induction n with
  | zero =>
    obtain ⟨d', htick, hv', hb', hlast, hcount, hstart⟩ := high_tick h0 hv hb
    exact ⟨d', htick, hv', hb', hlast, by omega, hstart⟩
  | succ n ih =>
    obtain ⟨d₁, hticks, hv₁, hb₁, -, hcount₁, -⟩ := ih
    obtain ⟨d', htick, hv', hb', hlast, hcount, hstart⟩ := high_tick h0 hv₁ hb₁
    refine ⟨d', ?_, hv', hb', hlast, by omega, hstart⟩
    rw [List.replicate_succ', List.foldl_append, hticks]
    exact htick

/-- The decoder after the rising edge of a start bit. -/
def Decoder.inStart (d : Decoder) : Decoder :=
  { d with recvState := .start, minFrameTicks := 14, maxFrameTicks := 16 }

/-- The decoder at the end of the high period of a start bit. -/
structure InStart (d : Decoder) : Prop where
  state : d.recvState = .start
  window : d.minFrameTicks = 14 ∧ d.maxFrameTicks = 16
  tick : 13 ≤ d.recvFrameTick ∧ d.recvFrameTick ≤ 15
  last : d.recvLastBit = true

/-- Seventeen high ticks and the pulse of a start bit, outside of a reception. -/
theorem start_pulse {s : Cec Usi} {d : Decoder} (h0 : s.rx.flags = 0) (hv : d.Valid)
    (hb : d.recvState ≠ .bits) {n : Nat} (hn : 17 ≤ n) {q : Nat × Nat} (hq : StartShape q) :
    ∃ d', (List.replicate n true ++ train [q]).foldl cecProcessTick (withDec s d) = withDec s d' ∧
      InStart d' := by
  obtain ⟨m, rfl⟩ := Nat.exists_eq_add_of_le' (by omega : 1 ≤ n)
  obtain ⟨h11, h13⟩ := hq.low
  obtain ⟨k, hk⟩ := Nat.exists_eq_add_of_le' hq.high
  have htotal := hq.total
  obtain ⟨d₁, hhigh, hv₁, hb₁, hlast₁, hcount₁, hstart₁⟩ := high_ticks h0 hv hb m
  have hidle : d₁.recvState = .idle := by
    cases hs : d₁.recvState with
    | idle => rfl
    | start => have := hstart₁ hs; omega
    | bits => exact absurd hs hb₁
  have hstart : d₁.recvState ≠ .start := by rw [hidle]; exact UsiRecv.noConfusion
  have hfall : cecProcessTick (withDec s d₁) false = withDec s (d₁.nextFrame.put 0 false) :=
    tick_fall s d₁ hlast₁ (by have := hv₁.window.1; omega) hstart fun h => absurd h hb₁
  have hlow : (List.replicate (q.1 - 1) false).foldl cecProcessTick
      (withDec s (d₁.nextFrame.put 0 false)) = withDec s (d₁.nextFrame.put (q.1 - 1) false) := by
    have hmin : min (0 + (q.1 - 1)) 255 = q.1 - 1 := by omega
    have hidles := idle_ticks s (d₁.nextFrame.put 0 false) (q.1 - 1) h0 hidle rfl (Nat.zero_le _)
    change _ = withDec s (d₁.nextFrame.put (min (0 + (q.1 - 1)) 255) false) at hidles
    rwa [hmin] at hidles
  have hrise : cecProcessTick (withDec s (d₁.nextFrame.put (q.1 - 1) false)) true
      = withDec s (d₁.nextFrame.inStart.put (q.1 - 1 + 1) true) :=
    tick_rise_start s (d₁.nextFrame.put (q.1 - 1) false) rfl (by change 11 ≤ q.1 - 1 + 1; omega)
      (by change q.1 - 1 + 1 ≤ 14; omega)
  refine ⟨d₁.nextFrame.inStart.put (q.1 - 1 + 1 + k) true, ?_, rfl, ⟨rfl, rfl⟩, ?_, rfl⟩
  · rw [List.foldl_append, hhigh, train_fall (by omega), List.foldl_cons, hfall, train, List.flatMap_nil,
      List.append_nil, afterFall, List.foldl_append, hlow, hk, List.replicate_succ, List.foldl_cons, hrise]
    exact put_hold s d₁.nextFrame.inStart _ k true (by change q.1 - 1 + 1 + k ≤ 16; omega)
      (by change 16 ≤ 255; omega) fun h => UsiRecv.noConfusion h
  · change 13 ≤ q.1 - 1 + 1 + k ∧ q.1 - 1 + 1 + k ≤ 15
    omega

/-! ### Waveforms -/

/-- The times of a start bit are in their windows. -/
structure StartPulse (p : Pulse ℝ) : Prop where
  low : cecStartLowEarly ≤ p.low ∧ p.low ≤ cecStartLowLate
  total : cecStartHighEarly ≤ p.total ∧ p.total ≤ cecStartHighLate

/-- The times of the bit `b` are in their windows. -/
structure BitPulse (b : Bool) (p : Pulse ℝ) : Prop where
  low : if b then cecT1Early1 ≤ p.low ∧ p.low ≤ cecT2Late1 else cecT5Early0 ≤ p.low ∧ p.low ≤ cecT6Late0
  total : cecT7EarlyEnd ≤ p.total ∧ p.total ≤ cecT8LateEnd

/-- What comes of a waveform: one call of `cec_receive_start`, then the bits in order, all of them or
    up to the ack bit on which the engine ended the message. -/
def Accepted (s t : Cec Usi) (bits : List Bool) : Prop :=
  ∃ m ≤ bits.length, ∃ ended : Bool,
    t.calls = (if ended then [.done] else []) ++ ((bits.take m).map .bit).reverse ++ .start :: s.calls ∧
    (ended = false → m = bits.length ∧ t.rx.flags ≠ 0) ∧
    (ended = true → 0 < m ∧ m % 10 = 0 ∧ t.rx.flags = 0)

/-- The time between two samples. -/
noncomputable def samplePeriod : ℝ := sampleUs

theorem samplePeriod_eq : samplePeriod = 300 := by
  norm_num [samplePeriod, sampleUs, cecPeriod]

theorem samplePeriod_pos : 0 < samplePeriod := by
  rw [samplePeriod_eq]; norm_num

theorem StartPulse.bounds {p : Pulse ℝ} (h : StartPulse p) :
    3500 ≤ p.low ∧ p.low ≤ 3900 ∧ 4300 ≤ p.total ∧ p.total ≤ 4700 := by
  obtain ⟨⟨hl, hl'⟩, hp, hp'⟩ := h
  norm_num [cecStartLowEarly, cecStartLowLate, cecStartHighEarly, cecStartHighLate] at hl hl' hp hp'
  exact ⟨hl, hl', hp, hp'⟩

theorem BitPulse.bounds {b : Bool} {p : Pulse ℝ} (h : BitPulse b p) :
    (if b then 400 ≤ p.low ∧ p.low ≤ 800 else 1300 ≤ p.low ∧ p.low ≤ 1700) ∧
      2050 ≤ p.total ∧ p.total ≤ 2750 := by
  obtain ⟨hl, hp⟩ := h
  norm_num [cecT1Early1, cecT2Late1, cecT5Early0, cecT6Late0, cecT7EarlyEnd, cecT8LateEnd] at hl hp
  exact ⟨hl, hp⟩

theorem StartPulse.fits {p : Pulse ℝ} (h : StartPulse p) : p.Fits := by
  obtain ⟨hl, hl', hp, -⟩ := h.bounds
  exact ⟨by linarith, by linarith⟩

theorem BitPulse.low_bounds {b : Bool} {p : Pulse ℝ} (h : BitPulse b p) : 400 ≤ p.low ∧ p.low ≤ 1700 := by
  have hlow := h.bounds.1
  split at hlow
  · exact ⟨by linarith, by linarith⟩
  · exact ⟨by linarith, by linarith⟩

theorem BitPulse.fits {b : Bool} {p : Pulse ℝ} (h : BitPulse b p) : p.Fits := by
  obtain ⟨hl, hl'⟩ := h.low_bounds
  obtain ⟨-, hp, -⟩ := h.bounds
  exact ⟨by linarith, by linarith⟩

/-- How many samples an interval of `lo` to `hi` periods holds, whatever its phase. -/
theorem ticks_between {x h : ℝ} (hx : 0 ≤ x) (lo hi : ℕ) (hlo : 300 * (lo : ℝ) ≤ h)
    (hhi : h ≤ 300 * (hi : ℝ)) :
    tickAt samplePeriod x + lo ≤ tickAt samplePeriod (x + h) ∧
      tickAt samplePeriod (x + h) ≤ tickAt samplePeriod x + hi := by
  rw [← samplePeriod_eq] at hlo hhi
  exact ⟨add_le_tickAt samplePeriod_pos hx hlo, tickAt_le_add samplePeriod_pos hx hhi⟩

/-- A high period of at least a tick is seen. -/
theorem high_between {t : ℝ} (ht : 0 ≤ t) {p : Pulse ℝ} (hlow : 0 ≤ p.low) (h : p.low + 300 ≤ p.total) :
    tickAt samplePeriod (t + p.low) + 1 ≤ tickAt samplePeriod (t + p.total) := by
  have hone := add_le_tickAt samplePeriod_pos (x := t + p.low) (h := p.total - p.low) (n := 1)
    (by linarith) (by rw [samplePeriod_eq]; push_cast; linarith)
  rwa [show t + p.low + (p.total - p.low) = t + p.total by ring] at hone

theorem startShape_of_times {p : Pulse ℝ} (h : StartPulse p) {t : ℝ} (ht : 0 ≤ t) :
    StartShape (tickAt samplePeriod (t + p.low) - tickAt samplePeriod t,
      tickAt samplePeriod (t + p.total) - tickAt samplePeriod (t + p.low)) := by
  obtain ⟨hl, hl', hp, hp'⟩ := h.bounds
  have hlow := ticks_between ht 11 13 (h := p.low) (by push_cast; linarith) (by push_cast; linarith)
  have htotal := ticks_between ht 14 16 (h := p.total) (by push_cast; linarith) (by push_cast; linarith)
  have hhigh := high_between ht (p := p) (by linarith) (by linarith)
  exact ⟨by dsimp only; omega, by dsimp only; omega, by dsimp only; omega⟩

theorem bitShape_of_times {b : Bool} {p : Pulse ℝ} (h : BitPulse b p) {t : ℝ} (ht : 0 ≤ t) :
    BitShape b (tickAt samplePeriod (t + p.low) - tickAt samplePeriod t,
      tickAt samplePeriod (t + p.total) - tickAt samplePeriod (t + p.low)) := by
  obtain ⟨hlow, hp, hp'⟩ := h.bounds
  have hfit := h.low_bounds
  have htotal := ticks_between ht 6 10 (h := p.total) (by push_cast; linarith) (by push_cast; linarith)
  have hhigh := high_between ht (p := p) (by linarith) (by linarith)
  have hfall : tickAt samplePeriod t ≤ tickAt samplePeriod (t + p.low) :=
    tickAt_mono samplePeriod_pos (by linarith)
  refine ⟨?_, by dsimp only; omega, by dsimp only; omega⟩
  cases b with
  | true =>
    obtain ⟨hl, hl'⟩ := hlow
    have := ticks_between ht 1 3 (h := p.low) (by push_cast; linarith) (by push_cast; linarith)
    rw [if_pos rfl]
    dsimp only
    omega
  | false =>
    obtain ⟨hl, hl'⟩ := hlow
    have := ticks_between ht 4 6 (h := p.low) (by push_cast; linarith) (by push_cast; linarith)
    rw [if_neg (by decide)]
    dsimp only
    omega

theorem bitShapes_of_times {bits : List Bool} {ps : List (Pulse ℝ)} (h : List.Forall₂ BitPulse bits ps)
    {t : ℝ} (ht : 0 ≤ t) : List.Forall₂ BitShape bits (shapes samplePeriod t ps) := by
  induction h generalizing t with
  | nil => exact .nil
  | @cons b p bits ps hb _ ih =>
    exact .cons (bitShape_of_times hb ht) (ih (by have := hb.bounds.2.1; linarith))

theorem bitPulses_fit {bits : List Bool} {ps : List (Pulse ℝ)} (h : List.Forall₂ BitPulse bits ps) :
    ∀ p ∈ ps, p.Fits := by
  induction h with
  | nil => intro p hp; exact absurd hp (by simp)
  | cons hb _ ih =>
    intro p hp
    rcases List.mem_cons.mp hp with rfl | hp
    · exact hb.fits
    · exact ih p hp

/-- The decoder at the end of a start bit and the bits after it, up to the falling edge that ends the
    last of them when the samples go on to it. -/
theorem start_bits {s : Cec Usi} {d : Decoder} (hd : InStart d) {bits : List Bool}
    {qs : List (Nat × Nat)} (hq : List.Forall₂ BitShape bits qs) {closed : Bool}
    (hclosed : bits = [] → closed = true) :
    ∃ d', (train qs ++ List.replicate closed.toNat false).foldl cecProcessTick (withDec s d)
      = withDec (takeIn (cecReceiveStart s) bits) d' := by
  have hopen : cecProcessTick (withDec s d) false = withDec (cecReceiveStart s) .started := by
    have hmin := hd.window.1
    have htick := hd.tick
    exact tick_fall_start s d hd.last (by omega) hd.state
  cases hq with
  | nil =>
    rw [hclosed rfl]
    exact ⟨_, hopen⟩
  | @cons b q bits qs hb hqs =>
    obtain ⟨d', hbits, hd', hs⟩ := train_fallen (cecReceiveStart s) hb hqs (d := .started)
      ⟨⟨rfl, rfl⟩, rfl, rfl⟩ rfl
    rw [train_fall hb.low_pos.1, List.cons_append, List.foldl_cons, hopen, List.foldl_append, hbits]
    cases closed with
    | false => exact ⟨d', rfl⟩
    | true =>
      obtain ⟨d'', hfall, -, -⟩ := fall_awaiting (takeIn (cecReceiveStart s) (b :: bits)) hd' hs
      exact ⟨d'', hfall⟩

/-- Outside of a reception the decoder of a run waits for no bits. -/
theorem Usi.synced_ticks (build : Build) (addr : Addr) (is : List Step) (ticks : List Bool) :
    Synced (ticks.foldl cecProcessTick (run step (initial build addr) is)) := by
  have hkept := kept_build (D := Usi) build
  have hbit : ∀ (s : Cec Usi) b, s.rx.flags ≠ 0 → s.build = build → (cecReceiveBit s b).build = build :=
    fun s b _ h => (receiveBit_build s b).1.trans h
  have h0 : Tracked (fun s => s.build = build) (initial build addr) := by
    refine ⟨?_, fun h => ?_⟩
    · rw [initial, cecInit, addrInit_build]; rfl
    · rw [initial, cecInit, addrInit_hw] at h; exact UsiRecv.noConfusion h
  have hstep : ∀ (s : Cec Usi) (i : Step), Tracked (fun s => s.build = build) s →
      Tracked (fun s => s.build = build) (step i s) := fun s i hs => tracked_step hkept hbit hs i
  exact (tracked_ticks hkept hbit (invariant_run' hstep is h0) ticks).synced

/-- The decoder accepts every waveform in tolerance, from any state of a run outside of a reception
    and after a line high for 17 ticks. A start bit ends with the falling edge after it, so without any
    bit the samples go on to that edge (`closed`). -/
theorem waveform_received (build : Build) (addr : Addr) (is : List Usi.Step) (ticks : List Bool)
    {start : Pulse ℝ} {bits : List Bool} {ps : List (Pulse ℝ)} {t₀ : ℝ} {closed : Bool}
    (hidle : (ticks.foldl cecProcessTick (run Usi.step (Usi.initial build addr) is)).rx.flags = 0)
    (hstart : StartPulse start) (hbits : List.Forall₂ BitPulse bits ps)
    (hhigh : 17 ≤ tickAt samplePeriod t₀) (hclosed : bits = [] → closed = true) :
    let s := ticks.foldl cecProcessTick (run Usi.step (Usi.initial build addr) is)
    let n := tickAt samplePeriod (t₀ + duration (start :: ps)) + closed.toNat
    let t := (samples samplePeriod (line t₀ (start :: ps)) n).foldl cecProcessTick s
    Accepted s t bits := by
  intro s n t
  have hvalid : s.hw.dec.Valid := valid_ticks (Usi.valid_run build addr is) ticks
  have hnot : s.hw.dec.recvState ≠ .bits := fun h => Usi.synced_ticks build addr is ticks h hidle
  have ht₀ : 0 ≤ t₀ := by
    have := (lt_tickAt samplePeriod_pos 0 t₀).mp (by omega)
    simpa using this.le
  have hfits : ∀ p ∈ start :: ps, p.Fits := by
    intro p hp
    rcases List.mem_cons.mp hp with rfl | hp
    · exact hstart.fits
    · exact bitPulses_fit hbits p hp
  -- the samples, in ticks
  have hsamples : samples samplePeriod (line t₀ (start :: ps)) n
      = List.replicate (tickAt samplePeriod t₀) true ++ train (shapes samplePeriod t₀ (start :: ps))
        ++ List.replicate closed.toNat false := by
    rw [← samples_line samplePeriod_pos hfits t₀]
    cases closed with
    | false => simp [n]
    | true => exact samples_close samplePeriod_pos hfits t₀
  obtain ⟨d, hhead, hd⟩ := start_pulse (d := s.hw.dec) hidle hvalid hnot hhigh
    (startShape_of_times hstart ht₀)
  obtain ⟨d', htail⟩ := start_bits (s := s) hd
    (bitShapes_of_times hbits (by have := hstart.bounds; linarith : 0 ≤ t₀ + start.total)) hclosed
  have hend : t = withDec (takeIn (cecReceiveStart s) bits) d' := by
    rw [← htail, ← hhead, withDec_self, ← List.foldl_append]
    change (samples samplePeriod (line t₀ (start :: ps)) n).foldl cecProcessTick s = _
    rw [hsamples]
    simp only [shapes, train, List.flatMap_cons, List.flatMap_nil, List.append_nil, List.append_assoc]
    rfl
  have hhdr : (cecReceiveStart s).build.hdr = s.build.hdr := rfl
  obtain ⟨ended, htook⟩ := takeIn_calls hhdr (tracks_start s) bits
  have hlist : (cecReceiveStart s).calls = .start :: s.calls := rfl
  refine ⟨taken (cecReceiveStart s) bits, taken_le _ bits, ended, ?_, fun he => ?_, fun he => ?_⟩
  · rw [hend, ← hlist]; exact htook.calls
  · rw [hend]; exact htook.going he
  · rw [hend]
    obtain ⟨hpos, hmod, h0⟩ := htook.ended he
    exact ⟨hpos, by rwa [List.length_nil, Nat.zero_add] at hmod, h0⟩

/-- The nominal pulse of a bit. -/
noncomputable def nominal (b : Bool) : Pulse ℝ := ⟨if b then cec1 else cec0, cecPeriod⟩

theorem bitPulse_nominal (b : Bool) : BitPulse b (nominal b) := by
  refine ⟨?_, ?_⟩
  · cases b <;> norm_num [nominal, cec1, cec0, cecT1Early1, cecT2Late1, cecT5Early0, cecT6Late0]
  · norm_num [nominal, cecPeriod, cecT7EarlyEnd, cecT8LateEnd]

theorem bitPulses_nominal (bits : List Bool) : List.Forall₂ BitPulse bits (bits.map nominal) := by
  induction bits with
  | nil => exact .nil
  | cons b bits ih => exact .cons (bitPulse_nominal b) ih

/-- A ping of address 4 at nominal times, after a line high for 20 ticks. -/
theorem waveform_received_ping :
    let bits := [false, true, false, false, false, true, false, false, true, false]
    let s := Usi.initial {} (.bitfield 0)
    let n := tickAt samplePeriod (6000 + duration (⟨3700, 4500⟩ :: bits.map nominal)) + false.toNat
    Accepted s ((samples samplePeriod (line 6000 (⟨3700, 4500⟩ :: bits.map nominal)) n).foldl
      cecProcessTick s) bits := by
  intro bits s n
  have hstart : StartPulse ⟨3700, 4500⟩ := by
    refine ⟨?_, ?_⟩
    · norm_num [cecStartLowEarly, cecStartLowLate]
    · norm_num [cecStartHighEarly, cecStartHighLate]
  have hhigh : 17 ≤ tickAt samplePeriod (6000 : ℝ) := by
    refine (lt_tickAt samplePeriod_pos 16 6000).mpr ?_
    rw [samplePeriod_eq]; norm_num
  have hclosed : bits = [] → false = true := fun h => absurd h (by simp [bits])
  exact waveform_received {} (.bitfield 0) [] [] rfl hstart (bitPulses_nominal bits) hhigh hclosed

end AvrCec
