import AvrCec.Drivers

/-! The USI tick decoder, apart from the engine it calls.

    One tick counts, feeds the engine a bit when it is the sample point of one (`Decoder.sampling`),
    and then moves the decoder on the edge it sees (`Decoder.edge`), which may call the engine too
    (`Call`). `processTick_eq` says that this is all a tick does, so that what the decoder makes of a
    waveform is a matter of the decoder alone. `Decoder.Valid` is what holds of it in every run. -/

namespace AvrCec
open Lib

/-! ### Changes of the driver that the engines do not see -/

section
variable {D : Type} [Driver D]

/-- The state with the driver's part mapped. -/
def Cec.mapHw (f : D → D) (s : Cec D) : Cec D := { s with hw := f s.hw }

/-- A change of the driver that commutes with what the engines do to it. -/
structure Transparent (f : D → D) : Prop where
  abort : ∀ u, Driver.cecTransmitAbort (f u) = f (Driver.cecTransmitAbort u)
  nack : ∀ b u, Driver.cecReceiveNackFrame b (f u) = f (Driver.cecReceiveNackFrame b u)

variable {f : D → D}

theorem onError_mapHw (hf : Transparent f) (s : Cec D) (err : Err) :
    cecTransmitOnError (s.mapHw f) err = (cecTransmitOnError s err).mapHw f := by
  have htx : (s.mapHw f).tx = s.tx := rfl
  rw [cecTransmitOnError, cecTransmitOnError, htx]
  split
  · simp only [Cec.mapHw, Cec.emit, hf.abort]
    rfl
  · rfl

theorem receiveError_mapHw (hf : Transparent f) (s : Cec D) (err : Err) :
    cecReceiveError (s.mapHw f) err = (cecReceiveError s err).mapHw f := by
  have hrx : (s.mapHw f).rx = s.rx := rfl
  rw [cecReceiveError, cecReceiveError, hrx]
  split
  · rfl
  · dsimp only
    rw [← onError_mapHw hf]
    cases s.rx.flags.bcast
    · rfl
    · simp only [Cec.mapHw, Cec.emit, hf.nack, if_true]

theorem checkTxBit_mapHw (hf : Transparent f) (s : Cec D) (bit : Bool) :
    cecCheckTxBit (s.mapHw f) bit = (cecCheckTxBit s bit).mapHw f := by
  rw [cecCheckTxBit, cecCheckTxBit, onError_mapHw hf]
  change (if bit.toNat ≠ s.tx.delayed then _ else _) = _
  split <;> rfl

theorem receiveAck_mapHw (hf : Transparent f) (s : Cec D) (ack : Bool) :
    cecTransmitReceiveAck (s.mapHw f) ack = (cecTransmitReceiveAck s ack).mapHw f := by
  rw [cecTransmitReceiveAck, cecTransmitReceiveAck, onError_mapHw hf]
  change (if ack = true then if s.tx.state = .waitForAck then _ else _ else _) = _
  split
  · split <;> rfl
  · rfl

/-- No bit depends on what it does not see. -/
theorem receiveBit_mapHw (hf : Transparent f) (s : Cec D) (bit : Bool) :
    cecReceiveBit (s.mapHw f) bit = (cecReceiveBit s bit).mapHw f := by
  have hemit : (s.mapHw f).emit (.bit bit) = (s.emit (.bit bit)).mapHw f := rfl
  rw [cecReceiveBit, cecReceiveBit, hemit]
  change (if s.rx.flags.bitsEom = true then _ else _) = _
  split
  · rw [receiveDataEom, receiveDataEom, checkTxBit_mapHw hf]
    generalize cecCheckTxBit (s.emit (.bit bit)) bit = t
    have hrx : (t.mapHw f).rx = t.rx := rfl
    rw [hrx]
    by_cases hbyte : t.rx.byte ≠ 0
    · rw [if_pos hbyte, if_pos hbyte]
      by_cases hdone : t.rx.byte &&& 0x80 ≠ 0
      · simp only [if_pos hdone]; rfl
      · simp only [if_neg hdone]; rfl
    · rw [if_neg hbyte, if_neg hbyte]; rfl
  · rw [receiveAck, receiveAck]
    have hflags : (s.mapHw f).rx = s.rx := rfl
    rw [hflags, receiveAck_mapHw hf]
    cases s.rx.flags.ack bit with
    | false => rfl
    | true =>
      simp only [Bool.not_true, Bool.false_eq_true, if_false, Bool.false_or]
      cases s.rx.flags.eom <;> rfl

end

/-! ### The decoder by itself -/

/-- What an edge calls of the engine. -/
inductive Call where
  | none
  | start
  | error (err : Err)
  deriving DecidableEq, Repr

def Cec.call (s : Cec Usi) : Call → Cec Usi
  | .none => s
  | .start => cecReceiveStart s
  | .error err => cecReceiveError s err

namespace Decoder

def count (d : Decoder) : Decoder := { d with recvFrameTick := min (d.recvFrameTick + 1) 255 }

/-- The tick is the sample point of a bit. -/
def sampling (d : Decoder) : Prop :=
  d.recvState = .bits ∧ d.recvFrameTick = cecNomSample / sampleUs

instance (d : Decoder) : Decidable d.sampling := by unfold sampling; infer_instance

/-- The reception is over. -/
def stop (d : Decoder) : Decoder := { d with recvState := .idle }

/-- After a sample: the reception is over if the engine's flags are 0. -/
def after (d : Decoder) (f : Flags) : Decoder :=
  { d with recvState := if f = 0 then .idle else d.recvState }

def hold (d : Decoder) : Decoder × Call :=
  if d.recvFrameTick > d.maxFrameTicks then (d.stop, .error .noEom) else (d, .none)

/-- `recv_frame` counts the bits of a block in its upper five bits. -/
def nextFrame (d : Decoder) : Decoder :=
  let frame := (d.recvFrame + 8) % 256
  let wrap : Bool := frame = 10 * 8
  { d with
    ackDone := d.ackDone && !wrap
    recvFrame := if wrap then 0 else frame }

def fall (d : Decoder) : Decoder × Call :=
  if d.recvFrameTick < d.minFrameTicks then
    ({ d.nextFrame.stop with recvFrameTick := 0 }, .error .lowDrive)
  else if d.recvState = .start then
    ({ d with
      ackDone := false
      recvState := .bits
      minFrameTicks := minTicks cecT7EarlyEnd
      maxFrameTicks := maxTicks cecT8LateEnd
      recvFrame := 0
      recvFrameTick := 0 }, .start)
  else ({ d.nextFrame with recvFrameTick := 0 }, .none)

def rise (d : Decoder) : Decoder × Call :=
  if minTicks cecStartLowEarly ≤ d.recvFrameTick ∧ d.recvFrameTick ≤ maxTicks cecStartLowLate then
    ({ d with
      recvState := .start
      minFrameTicks := minTicks cecStartHighEarly
      maxFrameTicks := maxTicks cecStartHighLate }, .none)
  else (d, .none)

/-- What the decoder becomes on the level `b`, and what it calls. -/
def edge (d : Decoder) (b : Bool) : Decoder × Call :=
  let r := if b = d.recvLastBit then d.hold else if !b then d.fall else d.rise
  ({ r.1 with recvLastBit := b }, r.2)

theorem edge_hold {d : Decoder} {b : Bool} (h : d.recvLastBit = b) :
    d.edge b = ({ d.hold.1 with recvLastBit := b }, d.hold.2) := by
  rw [edge, if_pos h.symm]

theorem edge_fall {d : Decoder} (h : d.recvLastBit = true) :
    d.edge false = ({ d.fall.1 with recvLastBit := false }, d.fall.2) := by
  rw [edge, if_neg (by rw [h]; decide)]
  rfl

theorem edge_rise {d : Decoder} (h : d.recvLastBit = false) :
    d.edge true = ({ d.rise.1 with recvLastBit := true }, d.rise.2) := by
  rw [edge, if_neg (by rw [h]; decide)]
  rfl

end Decoder

/-- The state with its decoder replaced. -/
def withDec (s : Cec Usi) (d : Decoder) : Cec Usi := setDec s fun _ => d

@[simp] theorem withDec_dec (s : Cec Usi) (d : Decoder) : (withDec s d).hw.dec = d := rfl
@[simp] theorem withDec_rx (s : Cec Usi) (d : Decoder) : (withDec s d).rx = s.rx := rfl
@[simp] theorem withDec_tx (s : Cec Usi) (d : Decoder) : (withDec s d).tx = s.tx := rfl
@[simp] theorem withDec_log (s : Cec Usi) (d : Decoder) : (withDec s d).log = s.log := rfl
@[simp] theorem withDec_withDec (s : Cec Usi) (d e : Decoder) :
    withDec (withDec s d) e = withDec s e := rfl
@[simp] theorem withDec_self (s : Cec Usi) : withDec s s.hw.dec = s := rfl

theorem transparent_dec (f : Decoder → Decoder) : Transparent fun u : Usi => { u with dec := f u.dec } :=
  ⟨fun _ => rfl, fun _ _ => rfl⟩

theorem receiveBit_withDec (s : Cec Usi) (d : Decoder) (b : Bool) :
    cecReceiveBit (withDec s d) b = withDec (cecReceiveBit s b) d :=
  receiveBit_mapHw (transparent_dec fun _ => d) s b

theorem receiveError_withDec (s : Cec Usi) (d : Decoder) (err : Err) :
    cecReceiveError (withDec s d) err = withDec (cecReceiveError s err) d :=
  receiveError_mapHw (transparent_dec fun _ => d) s err

theorem setDec_eq (s : Cec Usi) (g : Decoder → Decoder) : setDec s g = withDec s (g s.hw.dec) := rfl

theorem receiveError_dec (s : Cec Usi) (err : Err) : (cecReceiveError s err).hw.dec = s.hw.dec := by
  rw [cecReceiveError]
  split
  · rfl
  · rw [Usi.onError_dec]
    cases s.rx.flags.bcast <;> rfl

theorem call_withDec (s : Cec Usi) (d : Decoder) (c : Call) :
    (withDec s d).call c = withDec (s.call c) d := by
  cases c with
  | none => rfl
  | start => rfl
  | error err => exact receiveError_withDec s d err

theorem tickHold_eq (s : Cec Usi) :
    tickHold s = withDec (s.call s.hw.dec.hold.2) s.hw.dec.hold.1 := by
  rw [tickHold, Decoder.hold]
  split
  · dsimp only
    rw [setDec_eq, receiveError_dec]
    rfl
  · rfl

theorem tickFall_eq (s : Cec Usi) :
    tickFall s = withDec (s.call s.hw.dec.fall.2) s.hw.dec.fall.1 := by
  rw [tickFall, Decoder.fall, setDec_eq]
  generalize hd : s.hw.dec = d
  change (if d.recvFrameTick < d.minFrameTicks then _ else if d.recvState = .start then _ else _) = _
  by_cases hearly : d.recvFrameTick < d.minFrameTicks
  · rw [if_pos hearly, if_pos hearly, receiveError_withDec, setDec_eq]
    rfl
  · rw [if_neg hearly, if_neg hearly]
    by_cases hstart : d.recvState = .start
    · rw [if_pos hstart, if_pos hstart]
      subst hd
      rfl
    · rw [if_neg hstart, if_neg hstart]
      subst hd
      rfl

theorem tickRise_eq (s : Cec Usi) :
    tickRise s = withDec (s.call s.hw.dec.rise.2) s.hw.dec.rise.1 := by
  rw [tickRise, Decoder.rise]
  split <;> rfl

/-- The edge a tick sees does what the decoder says. -/
theorem tickEdge_eq (s : Cec Usi) (b : Bool) :
    setDec (tickEdge s b) (fun d => { d with recvLastBit := b })
      = withDec (s.call (s.hw.dec.edge b).2) (s.hw.dec.edge b).1 := by
  rw [tickEdge, Decoder.edge]
  split
  · rw [tickHold_eq]; rfl
  · split
    · rw [tickFall_eq]; rfl
    · rw [tickRise_eq]; rfl

/-- What one tick does. -/
theorem processTick_eq (s : Cec Usi) (b : Bool) :
    cecProcessTick s b =
      let d := s.hw.dec.count
      if d.sampling then
        let t := cecReceiveBit s b
        withDec (t.call ((d.after t.rx.flags).edge b).2) ((d.after t.rx.flags).edge b).1
      else withDec (s.call (d.edge b).2) (d.edge b).1 := by
  have hcount : tickCount s = withDec s s.hw.dec.count := rfl
  rw [cecProcessTick, hcount]
  generalize s.hw.dec.count = d
  dsimp only
  rw [tickEdge_eq]
  by_cases hs : d.sampling
  · have hsample : tickSample (withDec s d) b = withDec (cecReceiveBit s b)
        (d.after (cecReceiveBit s b).rx.flags) := by
      rw [tickSample, withDec_dec, Decoder.after]
      change (if d.sampling then _ else _) = _
      rw [if_pos hs, receiveBit_withDec]
      change (if (cecReceiveBit s b).rx.flags = 0 then _ else _) = _
      split <;> rfl
    rw [if_pos hs, hsample, call_withDec]
    rfl
  · have hsample : tickSample (withDec s d) b = withDec s d := by
      rw [tickSample, withDec_dec]
      exact if_neg hs
    rw [if_neg hs, hsample, call_withDec]
    rfl

/-! ### One kind of tick at a time -/

/-- A tick that takes no sample, and whose call, if any, has no effect. -/
theorem tick_quiet {s : Cec Usi} {d : Decoder} {b : Bool} (hs : ¬ d.count.sampling)
    (hc : s.call (d.count.edge b).2 = s) :
    cecProcessTick (withDec s d) b = withDec s (d.count.edge b).1 := by
  rw [processTick_eq]
  dsimp only [withDec_dec]
  rw [if_neg hs, call_withDec, hc]
  rfl

theorem count_eq {d : Decoder} (h : d.recvFrameTick < 255) :
    d.count = { d with recvFrameTick := d.recvFrameTick + 1 } := by
  rw [Decoder.count, Nat.min_eq_left (by omega)]

/-- Away from the second tick of a bit no sample is due. -/
theorem not_sampling {d : Decoder} (h : d.recvState = .bits → d.recvFrameTick ≠ 2) :
    ¬ d.count.sampling := by
  rintro ⟨hb, ht⟩
  refine h hb ?_
  have : min (d.recvFrameTick + 1) 255 = 3 := ht
  omega

/-- The line stays as it is, within the time that the frame may take. -/
theorem hold_ticks (s : Cec Usi) (d : Decoder) (n : Nat) {b : Bool} (hb : d.recvLastBit = b)
    (hmax : d.recvFrameTick + n ≤ d.maxFrameTicks) (h255 : d.maxFrameTicks ≤ 255)
    (hq : d.recvState = .bits → 3 ≤ d.recvFrameTick ∨ d.recvFrameTick + n < 3) :
    (List.replicate n b).foldl cecProcessTick (withDec s d)
      = withDec s { d with recvFrameTick := d.recvFrameTick + n } := by
  induction n generalizing d with
  | zero => rfl
  | succ n ih =>
    have hcount := count_eq (d := d) (by omega)
    have hhold : d.count.edge b = ({ d with recvFrameTick := d.recvFrameTick + 1 }, .none) := by
      rw [hcount, Decoder.edge_hold (by exact hb), Decoder.hold, if_neg (by dsimp only; omega), ← hb]
    have htick : cecProcessTick (withDec s d) b
        = withDec s { d with recvFrameTick := d.recvFrameTick + 1 } := by
      rw [tick_quiet (not_sampling fun h => by have := hq h; omega) (by rw [hhold]; rfl), hhold]
    rw [List.replicate_succ, List.foldl_cons, htick,
      ih { d with recvFrameTick := d.recvFrameTick + 1 } hb (by dsimp only; omega) h255
        (fun h => by have := hq h; dsimp only; omega)]
    dsimp only
    rw [Nat.add_assoc, Nat.add_comm 1 n]

/-- Outside of a reception nothing happens while the line stays as it is. -/
theorem idle_ticks (s : Cec Usi) (d : Decoder) (n : Nat) {b : Bool} (h0 : s.rx.flags = 0)
    (hidle : d.recvState = .idle) (hb : d.recvLastBit = b) (h255 : d.recvFrameTick ≤ 255) :
    (List.replicate n b).foldl cecProcessTick (withDec s d)
      = withDec s { d with recvFrameTick := min (d.recvFrameTick + n) 255 } := by
  induction n generalizing d with
  | zero =>
    rw [Nat.add_zero, Nat.min_eq_left h255]
    rfl
  | succ n ih =>
    have hstop : d.count.stop = d.count := by
      rw [Decoder.stop, Decoder.count, ← hidle]
    have htick : cecProcessTick (withDec s d) b = withDec s d.count := by
      rw [tick_quiet (not_sampling fun h => by rw [hidle] at h; exact UsiRecv.noConfusion h)]
      · rw [Decoder.edge_hold (by exact hb), Decoder.hold]
        split
        · dsimp only
          rw [hstop, ← hb]; rfl
        · dsimp only
          rw [← hb]; rfl
      · rw [Decoder.edge_hold (by exact hb), Decoder.hold]
        split
        · exact receiveError_zero h0 .noEom
        · rfl
    rw [List.replicate_succ, List.foldl_cons, htick, ih d.count hidle hb (Nat.min_le_right ..)]
    have hmin : min (d.count.recvFrameTick + n) 255 = min (d.recvFrameTick + (n + 1)) 255 := by
      rw [Decoder.count]
      dsimp only
      omega
    rw [hmin]
    rfl

/-- A falling edge that is not too early, of the bit after. -/
theorem tick_fall (s : Cec Usi) (d : Decoder) (hb : d.recvLastBit = true)
    (hmin : d.minFrameTicks ≤ min (d.recvFrameTick + 1) 255) (hs : d.recvState ≠ .start)
    (hq : d.recvState = .bits → d.recvFrameTick ≠ 2) :
    cecProcessTick (withDec s d) false
      = withDec s { d.nextFrame with recvFrameTick := 0, recvLastBit := false } := by
  have hedge : d.count.edge false
      = ({ d.nextFrame with recvFrameTick := 0, recvLastBit := false }, .none) := by
    have hlate : ¬ d.count.recvFrameTick < d.count.minFrameTicks := Nat.not_lt.mpr hmin
    have hstart : ¬ d.count.recvState = .start := hs
    rw [Decoder.edge_fall (by exact hb), Decoder.fall, if_neg hlate, if_neg hstart]
    rfl
  rw [tick_quiet (not_sampling hq) (by rw [hedge]; rfl), hedge]

/-- The decoder after the falling edge that ends a start bit. -/
def Decoder.started : Decoder where
  recvState := .bits
  minFrameTicks := 6
  maxFrameTicks := 10

/-- The falling edge that ends a start bit. -/
theorem tick_fall_start (s : Cec Usi) (d : Decoder) (hb : d.recvLastBit = true)
    (hmin : d.minFrameTicks ≤ min (d.recvFrameTick + 1) 255) (hs : d.recvState = .start) :
    cecProcessTick (withDec s d) false = withDec (cecReceiveStart s) .started := by
  have hedge : d.count.edge false = (.started, .start) := by
    have hlate : ¬ d.count.recvFrameTick < d.count.minFrameTicks := Nat.not_lt.mpr hmin
    have hstart : d.count.recvState = .start := hs
    rw [Decoder.edge_fall (by exact hb), Decoder.fall, if_neg hlate, if_pos hstart]
    rfl
  have hns : ¬ d.count.sampling := not_sampling fun h => by rw [hs] at h; exact UsiRecv.noConfusion h
  rw [processTick_eq]
  dsimp only [withDec_dec]
  rw [if_neg hns, call_withDec, hedge]
  rfl

/-- A rising edge that ends no start bit. -/
theorem tick_rise (s : Cec Usi) (d : Decoder) (hb : d.recvLastBit = false)
    (ht : d.recvFrameTick + 1 < 11) (hq : d.recvState = .bits → d.recvFrameTick ≠ 2) :
    cecProcessTick (withDec s d) true
      = withDec s { d with recvFrameTick := d.recvFrameTick + 1, recvLastBit := true } := by
  have hedge : d.count.edge true
      = ({ d with recvFrameTick := d.recvFrameTick + 1, recvLastBit := true }, .none) := by
    rw [count_eq (by omega), Decoder.edge_rise (by exact hb), Decoder.rise,
      if_neg (by intro h; have : 11 ≤ d.recvFrameTick + 1 := h.1; omega)]
  rw [tick_quiet (not_sampling hq) (by rw [hedge]; rfl), hedge]

/-- The rising edge of a start bit. -/
theorem tick_rise_start (s : Cec Usi) (d : Decoder) (hb : d.recvLastBit = false)
    (hlo : 11 ≤ d.recvFrameTick + 1) (hhi : d.recvFrameTick + 1 ≤ 14) :
    cecProcessTick (withDec s d) true
      = withDec s { d with
          recvFrameTick := d.recvFrameTick + 1
          recvState := .start
          minFrameTicks := 14
          maxFrameTicks := 16
          recvLastBit := true } := by
  have hedge : d.count.edge true = ({ d with
          recvFrameTick := d.recvFrameTick + 1
          recvState := .start
          minFrameTicks := 14
          maxFrameTicks := 16
          recvLastBit := true }, .none) := by
    rw [count_eq (by omega), Decoder.edge_rise (by exact hb), Decoder.rise,
      if_pos (by exact ⟨hlo, hhi⟩)]
    rfl
  rw [tick_quiet (not_sampling fun _ => by omega) (by rw [hedge]; rfl), hedge]

/-- The sample of a bit, on a line that stays as it is or rises. -/
theorem tick_sample (s : Cec Usi) (d : Decoder) {b : Bool} (hs : d.recvState = .bits)
    (ht : d.recvFrameTick = 2) (hmax : 3 ≤ d.maxFrameTicks) (hb : d.recvLastBit = b ∨ b = true) :
    cecProcessTick (withDec s d) b
      = withDec (cecReceiveBit s b)
          { d.after (cecReceiveBit s b).rx.flags with recvFrameTick := 3, recvLastBit := b } := by
  have hcount := count_eq (d := d) (by omega)
  have hsample : d.count.sampling := by
    rw [hcount, ht]
    exact ⟨hs, rfl⟩
  rw [processTick_eq]
  dsimp only [withDec_dec]
  rw [if_pos hsample, receiveBit_withDec, call_withDec, withDec_rx, withDec_withDec]
  generalize (cecReceiveBit s b).rx.flags = f
  -- the edge neither calls nor leaves the state that the sample left
  have hedge : (d.count.after f).edge b
      = ({ d.after f with recvFrameTick := 3, recvLastBit := b }, .none) := by
    rw [hcount, ht]
    rcases hb with hlast | rfl
    · rw [Decoder.edge_hold (by exact hlast), Decoder.hold, if_neg (by exact Nat.not_lt.mpr hmax)]
      rfl
    · rcases Bool.eq_false_or_eq_true d.recvLastBit with hlast | hlast
      · rw [Decoder.edge_hold (by exact hlast), Decoder.hold, if_neg (by exact Nat.not_lt.mpr hmax)]
        rfl
      · have hnot : ¬ (11 ≤ 3 ∧ 3 ≤ 14) := by omega
        rw [Decoder.edge_rise (by exact hlast), Decoder.rise, if_neg (by exact hnot)]
        rfl
  rw [hedge]
  rfl

/-! ### What holds of the decoder in every run -/

/-- The windows are those of the state the decoder is in, and the counters are in range. -/
structure Decoder.Valid (d : Decoder) : Prop where
  tick : d.recvFrameTick ≤ 255
  frame : ∃ k < 10, d.recvFrame = 8 * k
  window : d.minFrameTicks ≤ 14 ∧ d.maxFrameTicks ≤ 16
  bits : d.recvState = .bits → d.minFrameTicks = 6 ∧ d.maxFrameTicks = 10
  start : d.recvState = .start → d.minFrameTicks = 14 ∧ d.maxFrameTicks = 16 ∧ d.recvLastBit = true

namespace Decoder.Valid
variable {d : Decoder}

theorem nextFrame (h : d.Valid) : ∃ k < 10, d.nextFrame.recvFrame = 8 * k := by
  obtain ⟨k, hk, hf⟩ := h.frame
  rw [Decoder.nextFrame, hf]
  rcases Nat.lt_or_eq_of_le (Nat.le_of_lt_succ hk) with hlt | heq
  · have hwrap : ¬ (8 * k + 8) % 256 = 10 * 8 := by omega
    exact ⟨k + 1, by omega, by simp only [decide_eq_false hwrap]; simp; omega⟩
  · subst heq
    exact ⟨0, by norm_num, rfl⟩

theorem count (h : d.Valid) : d.count.Valid :=
  ⟨Nat.min_le_right .., h.frame, h.window, h.bits, h.start⟩

theorem after (h : d.Valid) (f : Flags) : (d.after f).Valid := by
  refine ⟨h.tick, h.frame, h.window, fun hb => h.bits ?_, fun hs => h.start ?_⟩
  · rw [Decoder.after] at hb
    dsimp only at hb
    split at hb
    · exact UsiRecv.noConfusion hb
    · exact hb
  · rw [Decoder.after] at hs
    dsimp only at hs
    split at hs
    · exact UsiRecv.noConfusion hs
    · exact hs

/-- Outside of a reception and of a start bit the windows do not matter. -/
theorem idle (htick : d.recvFrameTick ≤ 255) (hframe : ∃ k < 10, d.recvFrame = 8 * k)
    (hwindow : d.minFrameTicks ≤ 14 ∧ d.maxFrameTicks ≤ 16) (hidle : d.recvState = .idle) : d.Valid := by
  refine ⟨htick, hframe, hwindow, fun hb => ?_, fun hs => ?_⟩
  · rw [hidle] at hb; exact UsiRecv.noConfusion hb
  · rw [hidle] at hs; exact UsiRecv.noConfusion hs

theorem edge (h : d.Valid) (b : Bool) : (d.edge b).1.Valid := by
  rcases Bool.eq_or_eq_not d.recvLastBit b with heq | hne
  · rw [Decoder.edge_hold heq, Decoder.hold]
    split
    · exact idle h.tick h.frame h.window rfl
    · refine ⟨h.tick, h.frame, h.window, h.bits, fun hs => ?_⟩
      obtain ⟨hmin, hmax, hlast⟩ := h.start hs
      exact ⟨hmin, hmax, heq.symm.trans hlast⟩
  · cases b with
    | false =>
      rw [Decoder.edge_fall hne, Decoder.fall]
      split
      · exact idle (Nat.zero_le _) h.nextFrame h.window rfl
      · split
        · exact ⟨Nat.zero_le _, ⟨0, by norm_num, rfl⟩, ⟨show 6 ≤ 14 by omega, show 10 ≤ 16 by omega⟩, fun _ => ⟨rfl, rfl⟩,
            fun hs => UsiRecv.noConfusion hs⟩
        · next hs => exact ⟨Nat.zero_le _, h.nextFrame, h.window, h.bits, fun hs' => absurd hs' hs⟩
    | true =>
      rw [Decoder.edge_rise hne, Decoder.rise]
      split
      · exact ⟨h.tick, h.frame, ⟨Nat.le_refl 14, Nat.le_refl 16⟩, fun hb => UsiRecv.noConfusion hb,
          fun _ => ⟨rfl, rfl, rfl⟩⟩
      · refine ⟨h.tick, h.frame, h.window, h.bits, fun hs => ?_⟩
        obtain ⟨hmin, hmax, -⟩ := h.start hs
        exact ⟨hmin, hmax, rfl⟩

end Decoder.Valid

theorem valid_tick {s : Cec Usi} (h : s.hw.dec.Valid) (b : Bool) :
    (cecProcessTick s b).hw.dec.Valid := by
  rw [processTick_eq]
  dsimp only
  split
  · exact (h.count.after _).edge b
  · exact h.count.edge b

theorem valid_ticks {s : Cec Usi} (h : s.hw.dec.Valid) (l : List Bool) :
    (l.foldl cecProcessTick s).hw.dec.Valid := by
  induction l generalizing s with
  | nil => exact h
  | cons b l ih => exact ih (valid_tick h b)

namespace Usi

theorem checkFloat_dec (s : Cec Usi) (others : Bool) : (checkFloat s others).hw.dec = s.hw.dec := by
  rw [checkFloat]
  dsimp only
  split
  · rw [onError_dec]; rfl
  · rfl

theorem nextBit_dec (s : Cec Usi) : (cecUsiNextBit s).1.hw.dec = s.hw.dec := by
  rw [cecUsiNextBit]
  split
  · split <;> rfl
  · rfl
  · rfl

theorem doAck_dec (u : Usi) (acks : Nat) : (cecReceiveDoAck u acks).dec = u.dec := by
  rw [cecReceiveDoAck]
  split
  · rfl
  · dsimp only
    split <;> rfl

/-- Acking leaves the decoder's counters alone. -/
theorem handleAck_dec (s : Cec Usi) (others : Bool) :
    ∃ done, (handleAck s others).hw.dec = { s.hw.dec with ackDone := done } := by
  rw [handleAck]
  dsimp only
  repeat' split
  · exact ⟨true, doAck_dec ..⟩
  · exact ⟨true, doAck_dec ..⟩
  · exact ⟨s.hw.dec.ackDone, rfl⟩
  · exact ⟨s.hw.dec.ackDone, rfl⟩

theorem valid_overflow {s : Cec Usi} (h : s.hw.dec.Valid) : (handleOverflow s).hw.dec.Valid := by
  have hidle : ({ s with hw := countIdle (floatNack s.hw) s.hw.usibr } : Cec Usi).hw.dec.Valid := h
  change (cecUsiNextBit _).1.hw.dec.Valid
  rw [nextBit_dec]
  exact valid_ticks hidle _

theorem valid_poll {s : Cec Usi} (h : s.hw.dec.Valid) (others₁ others₂ : Bool) :
    (cecReceivePeriodic s others₁ others₂).hw.dec.Valid := by
  have hack : ∀ t : Cec Usi, t.hw.dec.Valid → (handleAck t others₂).hw.dec.Valid := by
    intro t ht
    obtain ⟨done, hd⟩ := handleAck_dec t others₂
    rw [hd]
    exact ⟨ht.tick, ht.frame, ht.window, ht.bits, ht.start⟩
  have hfloat : (checkFloat s others₁).hw.dec.Valid := by
    rw [checkFloat_dec]; exact h
  rw [cecReceivePeriodic]
  split
  · exact hack _ (valid_overflow hfloat)
  · exact hack _ hfloat

theorem addrPeriodic_hw {D : Type} (s : Cec D) : (cecAddrPeriodic s).hw = s.hw := by
  rw [cecAddrPeriodic]
  dsimp only
  repeat' split
  all_goals rfl

theorem app_hw {D : Type} (s : Cec D) (a : App) : (a.step s).hw = s.hw := by
  cases a <;> rw [App.step]
  · rfl
  · split <;> rfl
  · split <;> rfl

theorem valid_step {s : Cec Usi} (h : s.hw.dec.Valid) (i : Step) : (step i s).hw.dec.Valid := by
  cases i with
  | tick others =>
    change (s.hw.clock others).dec.Valid
    rw [clock]
    split <;> exact h
  | poll others₁ others₂ =>
    change (cecAddrPeriodic (cecReceivePeriodic s others₁ others₂)).hw.dec.Valid
    rw [addrPeriodic_hw]
    exact valid_poll h others₁ others₂
  | app a =>
    change (a.step s).hw.dec.Valid
    rw [app_hw]
    exact h

theorem valid_run (build : Build) (addr : Addr) (is : List Step) :
    (run step (initial build addr) is).hw.dec.Valid := by
  have h0 : (initial build addr).hw.dec.Valid := by
    rw [initial, cecInit, addrInit_hw]
    exact .idle (Nat.zero_le _) ⟨0, by norm_num, rfl⟩ ⟨Nat.zero_le _, Nat.zero_le _⟩ rfl
  have hstep : ∀ (s : Cec Usi) (i : Step), s.hw.dec.Valid → (step i s).hw.dec.Valid :=
    fun s i hs => valid_step hs i
  exact invariant_run' hstep is h0

end Usi

end AvrCec
