import AvrCec.AddrSearch
import AvrCec.Agreement
import AvrCec.Listening

/-! The USI build after `cec_halt` and `cec_init`.

    Neither call resets the tick decoder, the idle counter or the driver's transmit side. What is left
    there matters to no later run when it is what a reset leaves (`Fresh`): the limits of a frame, the
    ack and nack marks and the place in a reception are written before they are read again, so the
    device then agrees with one that has just booted (`Matched`) and goes on doing so
    (`matched_step`). -/

namespace AvrCec
open Lib

/-! ### The decoder -/

/-- The decoders behave alike from here on: the limits matter during a frame only. -/
structure AgreeDec (d e : Decoder) : Prop where
  tick : e.recvFrameTick = d.recvFrameTick
  frame : e.recvFrame = d.recvFrame
  state : e.recvState = d.recvState
  last : e.recvLastBit = d.recvLastBit
  limits : d.recvState ≠ .idle → e.minFrameTicks = d.minFrameTicks ∧ e.maxFrameTicks = d.maxFrameTicks

namespace Decoder

/-- What an edge can call, and where that leaves the decoder. -/
theorem edge_cases (d : Decoder) (b : Bool) :
    ((d.edge b).2 = .start ∧ (d.edge b).1.recvState = .bits ∧ (d.edge b).1.ackDone = false) ∨
      (∃ err, (d.edge b).2 = .error err ∧ (d.edge b).1.recvState = .idle) ∨
      ((d.edge b).2 = .none ∧ ((d.edge b).1.recvState = d.recvState ∨ (d.edge b).1.recvState = .start)) := by
  rw [edge]
  dsimp only
  split
  · rw [hold]
    split
    · exact .inr (.inl ⟨.noEom, rfl, rfl⟩)
    · exact .inr (.inr ⟨rfl, .inl rfl⟩)
  · split
    · rw [fall]
      split
      · exact .inr (.inl ⟨.lowDrive, rfl, rfl⟩)
      · split
        · exact .inl ⟨rfl, rfl, rfl⟩
        · exact .inr (.inr ⟨rfl, .inl rfl⟩)
    · rw [rise]
      split
      · exact .inr (.inr ⟨rfl, .inr rfl⟩)
      · exact .inr (.inr ⟨rfl, .inl rfl⟩)

/-- Outside of a frame no edge starts a reception. -/
theorem edge_idle {d : Decoder} (hi : d.recvState = .idle) (b : Bool) : (d.edge b).2 ≠ .start := by
  rw [edge]
  dsimp only
  split
  · rw [hold]
    split <;> exact Call.noConfusion
  · split
    · rw [fall]
      split
      · exact Call.noConfusion
      · rw [if_neg (by rw [hi]; exact UsiRecv.noConfusion)]
        exact Call.noConfusion
    · rw [rise]
      split <;> exact Call.noConfusion

end Decoder

namespace AgreeDec
variable {d e : Decoder}

theorem count (h : AgreeDec d e) : AgreeDec d.count e.count :=
  ⟨congrArg (fun n => min (n + 1) 255) h.tick, h.frame, h.state, h.last, h.limits⟩

theorem after (h : AgreeDec d e) (f : Flags) : AgreeDec (d.after f) (e.after f) := by
  refine ⟨h.tick, h.frame, ?_, h.last, fun hi => h.limits fun hd => hi ?_⟩
  · rw [Decoder.after, Decoder.after, h.state]
  · rw [Decoder.after, hd, ite_self]

theorem hold (h : AgreeDec d e) : AgreeDec d.hold.1 e.hold.1 ∧ (d.recvState ≠ .idle → e.hold.2 = d.hold.2) := by
  have hstop : AgreeDec d.stop e.stop := ⟨h.tick, h.frame, rfl, h.last, fun hi => absurd rfl hi⟩
  by_cases hi : d.recvState = .idle
  · have hd : d.stop = d := by rw [Decoder.stop, ← hi]
    have he : e.stop = e := by rw [Decoder.stop, ← hi, ← h.state]
    refine ⟨?_, fun hne => absurd hi hne⟩
    have hd' : d.hold.1 = d := by rw [Decoder.hold]; split; exact hd; rfl
    have he' : e.hold.1 = e := by rw [Decoder.hold]; split; exact he; rfl
    rw [hd', he']
    exact h
  · rw [Decoder.hold, Decoder.hold, h.tick, (h.limits hi).2]
    split
    · exact ⟨hstop, fun _ => rfl⟩
    · exact ⟨h, fun _ => rfl⟩

theorem nextFrame (h : AgreeDec d e) : e.nextFrame.recvFrame = d.nextFrame.recvFrame := by
  rw [Decoder.nextFrame, Decoder.nextFrame, h.frame]

theorem fall (h : AgreeDec d e) : AgreeDec d.fall.1 e.fall.1 ∧ (d.recvState ≠ .idle → e.fall.2 = d.fall.2) := by
  by_cases hi : d.recvState = .idle
  · have hparts : ∀ c : Decoder, c.recvState = .idle → c.fall.1.recvFrameTick = 0 ∧
        c.fall.1.recvFrame = c.nextFrame.recvFrame ∧ c.fall.1.recvState = .idle ∧
        c.fall.1.recvLastBit = c.recvLastBit := by
      intro c hc
      rw [Decoder.fall]
      split
      · exact ⟨rfl, rfl, rfl, rfl⟩
      · rw [if_neg (by rw [hc]; exact UsiRecv.noConfusion)]
        exact ⟨rfl, rfl, hc, rfl⟩
    obtain ⟨hd1, hd2, hd3, hd4⟩ := hparts d hi
    obtain ⟨he1, he2, he3, he4⟩ := hparts e (h.state.trans hi)
    exact ⟨⟨he1.trans hd1.symm, he2.trans (h.nextFrame.trans hd2.symm), he3.trans hd3.symm,
      he4.trans (h.last.trans hd4.symm), fun hne => absurd hd3 hne⟩, fun hne => absurd hi hne⟩
  · obtain ⟨hmin, hmax⟩ := h.limits hi
    rw [Decoder.fall, Decoder.fall, h.tick, hmin, h.state]
    split
    · exact ⟨⟨rfl, h.nextFrame, rfl, h.last, fun hne => absurd rfl hne⟩, fun _ => rfl⟩
    · split
      · exact ⟨⟨rfl, rfl, rfl, h.last, fun _ => ⟨rfl, rfl⟩⟩, fun _ => rfl⟩
      · exact ⟨⟨rfl, h.nextFrame, h.state, h.last, fun _ => ⟨hmin, hmax⟩⟩, fun _ => rfl⟩

theorem rise (h : AgreeDec d e) : AgreeDec d.rise.1 e.rise.1 ∧ e.rise.2 = d.rise.2 := by
  rw [Decoder.rise, Decoder.rise, h.tick]
  split
  · exact ⟨⟨rfl, h.frame, rfl, h.last, fun _ => ⟨rfl, rfl⟩⟩, rfl⟩
  · exact ⟨h, rfl⟩

/-- An edge keeps the agreement, and in a frame it calls the same. -/
theorem edge (h : AgreeDec d e) (b : Bool) :
    AgreeDec (d.edge b).1 (e.edge b).1 ∧ (d.recvState ≠ .idle → (e.edge b).2 = (d.edge b).2) := by
  have hlast : ∀ {c c' : Decoder}, AgreeDec c c' →
      AgreeDec { c with recvLastBit := b } { c' with recvLastBit := b } :=
    fun hc => ⟨hc.tick, hc.frame, hc.state, rfl, hc.limits⟩
  rw [Decoder.edge, Decoder.edge, h.last]
  dsimp only
  split
  · exact ⟨hlast h.hold.1, h.hold.2⟩
  · split
    · exact ⟨hlast h.fall.1, h.fall.2⟩
    · exact ⟨hlast h.rise.1, fun _ => h.rise.2⟩

/-- In a frame the edges keep the ack mark equal too. -/
theorem ackDone (h : AgreeDec d e) (hne : d.recvState ≠ .idle) (hack : e.ackDone = d.ackDone) (b : Bool) :
    (e.edge b).1.ackDone = (d.edge b).1.ackDone := by
  have hframe : e.nextFrame.ackDone = d.nextFrame.ackDone := by
    rw [Decoder.nextFrame, Decoder.nextFrame, h.frame, hack]
  obtain ⟨hmin, hmax⟩ := h.limits hne
  rw [Decoder.edge, Decoder.edge, h.last]
  dsimp only
  split
  · rw [Decoder.hold, Decoder.hold, h.tick, hmax]
    split <;> exact hack
  · split
    · rw [Decoder.fall, Decoder.fall, h.tick, hmin, h.state]
      split
      · exact hframe
      · split
        · rfl
        · exact hframe
    · rw [Decoder.rise, Decoder.rise, h.tick]
      split <;> exact hack

end AgreeDec

/-! ### The driver -/

/-- The drivers differ in the decoder and the nack mark only, and in the latter only while nothing is
    driven. -/
structure AgreeUsi (u v : Usi) : Prop where
  nacking : u.driven = true → v.nacking = u.nacking
  rest : v = { u with dec := v.dec, nacking := v.nacking }

namespace Usi

/-- A change of the driver that neither sees nor touches what may differ. -/
theorem agreeUsi_map {u v : Usi} (h : AgreeUsi u v) {f : Usi → Usi}
    (hf : ∀ u d n, f { u with dec := d, nacking := n } = { f u with dec := d, nacking := n })
    (hdriven : ∀ u, (f u).driven = u.driven) : AgreeUsi (f u) (f v) := by
  have hnack : ∀ w, (f w).nacking = w.nacking := by
    intro w
    have hself := congrArg Usi.nacking (hf w w.dec w.nacking)
    exact hself
  have hdec : ∀ w, (f w).dec = w.dec := by
    intro w
    have hself := congrArg Usi.dec (hf w w.dec w.nacking)
    exact hself
  refine ⟨fun hd => ?_, ?_⟩
  · rw [hnack, hnack]
    exact h.nacking ((hdriven u).symm.trans hd)
  · rw [hdec, hnack, ← hf, ← h.rest]

theorem respects : Respects AgreeUsi where
  nack b {u v} h := by
    refine ⟨fun _ => rfl, ?_⟩
    change { v with driven := true, nacking := true } = ({ u with driven := true, nacking := true, dec := v.dec } : Usi)
    rw [h.rest]
  abort {u v} h := agreeUsi_map h (fun _ _ _ => rfl) fun _ => rfl

/-- The devices behave alike from here on. -/
structure Matched (s t : Cec Usi) : Prop extends Agree AgreeUsi s t where
  dec : AgreeDec s.hw.dec t.hw.dec
  rx : s.rx.flags ≠ 0 → t.rx = s.rx ∧ t.hw.dec.ackDone = s.hw.dec.ackDone
  framed : s.rx.flags ≠ 0 → s.hw.dec.recvState ≠ .idle
  synced : Synced s

variable {s t : Cec Usi}

theorem Matched.flags_zero (h : Matched s t) (hi : s.hw.dec.recvState = .idle) : s.rx.flags = 0 := by
  by_contra h0
  exact h.framed h0 hi

theorem receiveError_flags (s : Cec Usi) (err : Err) : (cecReceiveError s err).rx.flags = 0 := by
  rw [(receiveError_rx s err).1]

/-- Outside of a reception only a start has an effect. -/
theorem call_zero (h0 : s.rx.flags = 0) {c : Call} (hc : c ≠ .start) : s.call c = s := by
  cases c with
  | none => rfl
  | start => exact absurd rfl hc
  | error err => exact receiveError_zero h0 err

theorem agreeUsi_dec {u v : Usi} (h : AgreeUsi u v) (d e : Decoder) :
    AgreeUsi { u with dec := d } { v with dec := e } := by
  refine ⟨h.nacking, ?_⟩
  change ({ v with dec := e } : Usi) = { u with dec := e, nacking := v.nacking }
  rw [h.rest]

theorem agree_withDec (h : Agree AgreeUsi s t) (d e : Decoder) : Agree AgreeUsi (withDec s d) (withDec t e) :=
  ⟨h.build, h.addr, h.flags, h.buf, h.tx, agreeUsi_dec h.hw d e⟩

/-- The edge of a tick, with the calls it makes. -/
theorem matched_edge {d e : Decoder} (h : Matched (withDec s d) (withDec t e)) (b : Bool) :
    Matched (withDec (s.call (d.edge b).2) (d.edge b).1) (withDec (t.call (e.edge b).2) (e.edge b).1) := by
  have hagree : Agree AgreeUsi s t := agree_withDec h.toAgree s.hw.dec t.hw.dec
  have hdec : AgreeDec d e := h.dec
  obtain ⟨hedge, hcall⟩ := hdec.edge b
  by_cases hi : d.recvState = .idle
  · -- no frame is open, and nothing is called that has an effect
    have h0 : s.rx.flags = 0 := h.flags_zero hi
    have h0' : t.rx.flags = 0 := hagree.flags.trans h0
    rw [call_zero h0 (Decoder.edge_idle hi b), call_zero h0' (Decoder.edge_idle (hdec.state.trans hi) b)]
    refine ⟨agree_withDec hagree _ _, hedge, fun hne => absurd h0 hne, fun hne => absurd h0 hne, fun hbits => ?_⟩
    change (d.edge b).1.recvState = .bits at hbits
    rcases Decoder.edge_cases d b with ⟨hc, -⟩ | ⟨err, -, hidle⟩ | ⟨-, hsame | hstart⟩
    · exact absurd hc (Decoder.edge_idle hi b)
    · rw [hidle] at hbits; exact UsiRecv.noConfusion hbits
    · rw [hsame, hi] at hbits; exact UsiRecv.noConfusion hbits
    · rw [hstart] at hbits; exact UsiRecv.noConfusion hbits
  · rw [hcall hi]
    rcases Decoder.edge_cases d b with ⟨hc, hbits, hdone⟩ | ⟨err, hc, hidle⟩ | ⟨hc, hkeep⟩
    · rw [hc]
      obtain ⟨hstart, hrx⟩ := agree_receiveStart hagree
      have hdone' : (e.edge b).1.ackDone = false := by
        rcases Decoder.edge_cases e b with ⟨-, -, hdone'⟩ | ⟨err, hc', -⟩ | ⟨hc', -⟩
        · exact hdone'
        · rw [hcall hi, hc] at hc'; exact Call.noConfusion hc'
        · rw [hcall hi, hc] at hc'; exact Call.noConfusion hc'
      refine ⟨agree_withDec hstart _ _, hedge, fun _ => ⟨hrx, hdone'.trans hdone.symm⟩, fun _ hidle => ?_, fun _ => ?_⟩
      · change (d.edge b).1.recvState = .idle at hidle
        rw [hbits] at hidle; exact UsiRecv.noConfusion hidle
      · exact of_decide_eq_false rfl
    · rw [hc]
      have h0 : (s.call (.error err)).rx.flags = 0 := receiveError_flags s err
      refine ⟨agree_withDec (agree_receiveError respects hagree err) _ _, hedge, fun hne => absurd h0 hne,
        fun hne => absurd h0 hne, fun hbits => ?_⟩
      change (d.edge b).1.recvState = .bits at hbits
      rw [hidle] at hbits; exact UsiRecv.noConfusion hbits
    · rw [hc]
      refine ⟨agree_withDec hagree _ _, hedge, fun hne => ⟨(h.rx hne).1, hdec.ackDone hi (h.rx hne).2 b⟩,
        fun hne hidle => ?_, fun hbits => ?_⟩
      · change (d.edge b).1.recvState = .idle at hidle
        rcases hkeep with hsame | hstart
        · exact hi (hsame.symm.trans hidle)
        · rw [hstart] at hidle; exact UsiRecv.noConfusion hidle
      · change (d.edge b).1.recvState = .bits at hbits
        rcases hkeep with hsame | hstart
        · exact h.synced (hsame.symm.trans hbits)
        · rw [hstart] at hbits; exact UsiRecv.noConfusion hbits

/-- One tick of the decoder. -/
theorem matched_tick (h : Matched s t) (b : Bool) : Matched (cecProcessTick s b) (cecProcessTick t b) := by
  have hcount := h.dec.count
  rw [processTick_eq, processTick_eq]
  dsimp only
  have hsampling : t.hw.dec.count.sampling ↔ s.hw.dec.count.sampling := by
    rw [Decoder.sampling, Decoder.sampling, hcount.state, hcount.tick]
  by_cases hs : s.hw.dec.count.sampling
  · rw [if_pos hs, if_pos (hsampling.mpr hs)]
    have hopen : s.rx.flags ≠ 0 := h.synced hs.1
    obtain ⟨hbit, hrx⟩ := agree_receiveBit respects h.toAgree (h.rx hopen).1 b
    have hafter : AgreeDec (s.hw.dec.count.after (cecReceiveBit s b).rx.flags)
        (t.hw.dec.count.after (cecReceiveBit t b).rx.flags) := by
      rw [hrx]
      exact hcount.after _
    have hagree := agree_withDec hbit (s.hw.dec.count.after (cecReceiveBit s b).rx.flags)
      (t.hw.dec.count.after (cecReceiveBit t b).rx.flags)
    refine matched_edge ⟨hagree, hafter, fun hne => ⟨hrx, ?_⟩, fun hne hidle => ?_, fun hbits h0 => ?_⟩ b
    · exact (h.rx hopen).2
    · change (cecReceiveBit s b).rx.flags ≠ 0 at hne
      change (if (cecReceiveBit s b).rx.flags = 0 then UsiRecv.idle else s.hw.dec.count.recvState) = .idle at hidle
      rw [if_neg hne] at hidle
      exact UsiRecv.noConfusion (hs.1.symm.trans hidle)
    · change (cecReceiveBit s b).rx.flags = 0 at h0
      change (if (cecReceiveBit s b).rx.flags = 0 then UsiRecv.idle else s.hw.dec.count.recvState) = .bits at hbits
      rw [if_pos h0] at hbits
      exact UsiRecv.noConfusion hbits
  · rw [if_neg hs, if_neg fun ht => hs (hsampling.mp ht)]
    exact matched_edge ⟨agree_withDec h.toAgree _ _, hcount, h.rx, h.framed, h.synced⟩ b

theorem matched_ticks (h : Matched s t) (l : List Bool) :
    Matched (l.foldl cecProcessTick s) (l.foldl cecProcessTick t) := by
  induction l generalizing s t with
  | nil => exact h
  | cons b l ih => exact ih (matched_tick h b)

/-! ### A step -/

/-- A change on which the devices agree, of the buffer alone on the receive side. -/
theorem Matched.of_buf {s' t' : Cec Usi} (h : Matched s t) (ha : Agree AgreeUsi s' t')
    (hs : s'.rx = { s.rx with buf := s'.rx.buf }) (ht : t'.rx = { t.rx with buf := t'.rx.buf })
    (hds : s'.hw.dec = s.hw.dec) (hdt : t'.hw.dec = t.hw.dec) : Matched s' t' := by
  have hflags : s'.rx.flags = s.rx.flags := by rw [hs]
  refine ⟨ha, ?_, fun hne => ?_, fun hne => ?_, fun hb => ?_⟩
  · rw [hds, hdt]; exact h.dec
  · rw [hflags] at hne
    obtain ⟨hrx, hdone⟩ := h.rx hne
    rw [hds, hdt, ht, hs, ha.buf, hrx]
    exact ⟨rfl, hdone⟩
  · rw [hds]
    exact h.framed (hflags ▸ hne)
  · rw [hds] at hb
    rw [hflags]
    exact h.synced hb

theorem Matched.of_agree {s' t' : Cec Usi} (h : Matched s t) (ha : Agree AgreeUsi s' t') (hs : s'.rx = s.rx)
    (ht : t'.rx = t.rx) (hds : s'.hw.dec = s.hw.dec) (hdt : t'.hw.dec = t.hw.dec) : Matched s' t' :=
  h.of_buf ha (by rw [hs]) (by rw [ht]) hds hdt

theorem matched_hw {u v : Usi} (h : Matched s t) (hw : AgreeUsi u v) (hu : u.dec = s.hw.dec)
    (hv : v.dec = t.hw.dec) : Matched { s with hw := u } { t with hw := v } :=
  h.of_agree ⟨h.build, h.addr, h.flags, h.buf, h.tx, hw⟩ rfl rfl hu hv

theorem matched_onError (h : Matched s t) (err : Err) :
    Matched (cecTransmitOnError s err) (cecTransmitOnError t err) :=
  h.of_agree (agree_onError respects h.toAgree err) (sameReceive_onError s err).rx (sameReceive_onError t err).rx
    (onError_dec s err) (onError_dec t err)

theorem agreeUsi_low {u v : Usi} (h : AgreeUsi u v) : v.low = u.low := by
  rw [h.rest]
  rfl

theorem agreeUsi_tick {u v : Usi} (h : AgreeUsi u v) : v.tick = u.tick := by
  rw [h.rest]
  rfl

theorem matched_checkFloat (h : Matched s t) (others : Bool) :
    Matched (checkFloat s others) (checkFloat t others) := by
  have hload : Matched { s with hw := loadFloatMax s.hw } { t with hw := loadFloatMax t.hw } :=
    matched_hw h (agreeUsi_map h.hw (fun _ _ _ => rfl) fun _ => rfl) rfl rfl
  have hmax : (loadFloatMax t.hw).floatTicksMax = (loadFloatMax s.hw).floatTicksMax := by
    rw [h.hw.rest]
    rfl
  rw [checkFloat, checkFloat]
  dsimp only
  rw [agreeUsi_low hload.hw, agreeUsi_tick hload.hw, hmax]
  split
  · exact matched_onError hload .arbLost
  · exact hload

theorem agreeUsi_floatNack {u v : Usi} (h : AgreeUsi u v) : AgreeUsi (floatNack u) (floatNack v) := by
  refine ⟨fun _ => rfl, ?_⟩
  have hdriven : (v.driven && v.nacking) = (u.driven && u.nacking) := by
    have hv : v.driven = u.driven := by rw [h.rest]
    rw [hv]
    cases hd : u.driven with
    | false => rfl
    | true => rw [h.nacking hd]
  change ({ v with driven := v.driven && v.nacking, nacking := false } : Usi)
    = { u with dec := v.dec, driven := u.driven && u.nacking, nacking := false }
  rw [hdriven, h.rest]

theorem matched_decoded (h : Matched s t) : Matched (decoded s) (decoded t) := by
  have hbr : t.hw.usibr = s.hw.usibr := by rw [h.hw.rest]
  have hcount : AgreeUsi (countIdle (floatNack s.hw) s.hw.usibr) (countIdle (floatNack t.hw) s.hw.usibr) :=
    @agreeUsi_map _ _ (agreeUsi_floatNack h.hw) (fun u => countIdle u s.hw.usibr) (fun _ _ _ => rfl) fun _ => rfl
  rw [decoded, decoded, hbr]
  exact matched_ticks (matched_hw h hcount rfl rfl) _

/-- The next byte to queue, and the queueing of it. -/
theorem matched_nextBit (h : Matched s t) (hf : Framed Busy t) :
    Matched (cecUsiNextBit s).1 (cecUsiNextBit t).1 ∧ (cecUsiNextBit t).2 = (cecUsiNextBit s).2 := by
  have hx : t.hw.xmitState = s.hw.xmitState := by rw [h.hw.rest]
  have hidle : t.hw.idleFrames = s.hw.idleFrames := by rw [h.hw.rest]
  have hmap : ∀ {s' t' : Cec Usi}, Matched s' t' → ∀ f : Usi → Usi,
      (∀ u d n, f { u with dec := d, nacking := n } = { f u with dec := d, nacking := n }) →
      (∀ u, (f u).driven = u.driven) → Matched { s' with hw := f s'.hw } { t' with hw := f t'.hw } := by
    intro s' t' h' f hf hd
    have hdec : ∀ w, (f w).dec = w.dec := fun w => by
      have hself := congrArg Usi.dec (hf w w.dec w.nacking)
      exact hself
    exact matched_hw h' (agreeUsi_map h'.hw hf hd) (hdec _) (hdec _)
  rw [cecUsiNextBit, cecUsiNextBit, hx]
  cases hxs : s.hw.xmitState with
  | idle =>
    dsimp only
    rw [h.tx.state, h.tx.needed, hidle]
    split
    · next hc =>
      have hstart : Matched (cecTransmitStart s) (cecTransmitStart t) :=
        h.of_agree (agree_transmitStart h.toAgree hc.1) rfl rfl rfl rfl
      exact ⟨hmap hstart (fun u => { u with floatTicksMaxNext := 8, xmitState := .start }) (fun _ _ _ => rfl)
        fun _ => rfl, rfl⟩
    · exact ⟨h, rfl⟩
  | start =>
    exact ⟨hmap h (fun u => { u with
      xmitState := .bits
      floatTicksMaxNext := divRoundUp (cecStartLow + cecMaxRiseTime) sampleUs - 8 }) (fun _ _ _ => rfl)
      fun _ => rfl, rfl⟩
  | bits =>
    have hb : s.tx.state.busy := by
      have hasks := hf.asks (by rw [Busy, hx, hxs]; exact UsiXmit.noConfusion)
      rw [h.tx.state] at hasks
      rcases hasks with hs | hs <;> rw [hs] <;> decide
    obtain ⟨hget, hbit⟩ := agree_getBit h.toAgree hb
    have hget' : Matched (cecTransmitGetBit s).1 (cecTransmitGetBit t).1 := h.of_agree hget rfl rfl rfl rfl
    have hframe : (cecTransmitGetBit t).1.hw.dec.recvFrame = (cecTransmitGetBit s).1.hw.dec.recvFrame :=
      hget'.dec.frame
    dsimp only
    rw [hbit, hframe, hget.tx.state]
    exact ⟨hmap hget' (fun u => { u with
      xmitState := if (cecTransmitGetBit s).1.tx.state = .waitForAck then .idle else .bits
      floatTicksMaxNext :=
        if (cecTransmitGetBit s).2 && (cecTransmitGetBit s).1.hw.dec.recvFrame ≠ 7 * 8
          then divRoundUp (cec1 + cecMaxRiseTime) sampleUs
          else divRoundUp (cec0 + cecMaxRiseTime) sampleUs }) (fun _ _ _ => rfl) fun _ => rfl, rfl⟩

theorem matched_writeOut (h : Matched s t) (hf : Framed Busy t) : Matched (writeOut s) (writeOut t) := by
  obtain ⟨hnext, hbyte⟩ := matched_nextBit h hf
  rw [writeOut, writeOut]
  dsimp only
  rw [hbyte]
  refine matched_hw hnext ?_ rfl rfl
  exact @agreeUsi_map _ _ hnext.hw (fun u => { u with
    usibr := (cecUsiNextBit s).2, usicnt := u.usicnt ||| 8, usioif := false }) (fun _ _ _ => rfl) fun _ => rfl

/-- The ack that a poll injects. -/
theorem doAck_parts (u : Usi) (d : Decoder) (n : Bool) (acks : Nat) :
    cecReceiveDoAck { u with dec := d, nacking := n } acks = { cecReceiveDoAck u acks with dec := d, nacking := n } := by
  have htick : ({ u with dec := d, nacking := n } : Usi).tick = u.tick := rfl
  rw [cecReceiveDoAck, cecReceiveDoAck, htick]
  cases ackMissed u.tick u.usidr acks with
  | none => rfl
  | some k =>
    dsimp only
    by_cases hz : (ackBits (8 - u.tick) k 0x80).2 = 0
    · simp only [if_pos hz]
    · simp only [if_neg hz]

theorem doAck_driven (u : Usi) (acks : Nat) : (cecReceiveDoAck u acks).driven = u.driven := by
  rw [cecReceiveDoAck]
  split
  · rfl
  · dsimp only
    split <;> rfl

/-- The ack mark is set in an open reception only. -/
theorem matched_done (h : Matched s t) (hne : s.rx.flags ≠ 0) :
    Matched (setDec s fun d => { d with ackDone := true }) (setDec t fun d => { d with ackDone := true }) :=
  ⟨agree_withDec h.toAgree _ _, ⟨h.dec.tick, h.dec.frame, h.dec.state, h.dec.last, h.dec.limits⟩,
    fun _ => ⟨(h.rx hne).1, rfl⟩, h.framed, h.synced⟩

theorem matched_doAck (h : Matched s t) (acks : Nat) :
    Matched { s with hw := cecReceiveDoAck s.hw acks } { t with hw := cecReceiveDoAck t.hw acks } :=
  matched_hw h (@agreeUsi_map _ _ h.hw (fun u => cecReceiveDoAck u acks) (fun u d n => doAck_parts u d n acks)
    fun u => doAck_driven u acks) (doAck_dec ..) (doAck_dec ..)

theorem matched_handleAck (h : Matched s t) (others : Bool) : Matched (handleAck s others) (handleAck t others) := by
  by_cases hack : s.rx.flags.doAck = true
  · have hne : s.rx.flags ≠ 0 := fun h0 => by
      rw [h0] at hack
      exact Bool.noConfusion hack
    obtain ⟨hrx, hdone⟩ := h.rx hne
    have hmark := matched_done h hne
    have htick : (setDec t fun d => { d with ackDone := true }).hw.dec.recvFrameTick
        = (setDec s fun d => { d with ackDone := true }).hw.dec.recvFrameTick := hmark.dec.tick
    rw [handleAck, handleAck]
    dsimp only
    rw [hrx, hdone, agreeUsi_low h.hw, agreeUsi_tick h.hw, h.dec.tick, h.dec.frame, htick]
    split
    · split
      · exact matched_doAck hmark _
      · split
        · exact matched_doAck hmark _
        · exact h
    · exact h
  · have hoff : s.rx.flags.doAck = false := Bool.eq_false_iff.mpr hack
    have hoff' : t.rx.flags.doAck = false := by rw [h.flags]; exact hoff
    rw [handleAck_quiet hoff, handleAck_quiet hoff']
    exact h

theorem matched_poll (h : Matched s t) (hf : Framed Busy t) (others₁ others₂ : Bool) :
    Matched (cecReceivePeriodic s others₁ others₂) (cecReceivePeriodic t others₁ others₂) := by
  have hkept := (keptCalls_framed fetches).keptTx fetches
  have hfloat := matched_checkFloat h others₁
  have hframed := keptTx_decoded hkept (keptTx_checkFloat hkept hf others₁)
  have hoif : t.hw.usioif = s.hw.usioif := by rw [h.hw.rest]
  rw [poll_eq, poll_eq, beforeAck, beforeAck, hoif]
  split
  · rw [handleOverflow_eq, handleOverflow_eq]
    exact matched_handleAck (matched_writeOut (matched_decoded hfloat) hframed) others₂
  · exact matched_handleAck hfloat others₂

theorem clock_parts (u : Usi) (d : Decoder) (n others : Bool) :
    clock { u with dec := d, nacking := n } others = { clock u others with dec := d, nacking := n } := by
  rw [clock, clock]
  split <;> rfl

theorem clock_driven (u : Usi) (others : Bool) : (clock u others).driven = u.driven := by
  rw [clock]
  split <;> rfl

theorem clock_dec (u : Usi) (others : Bool) : (clock u others).dec = u.dec := by
  rw [clock]
  split <;> rfl

theorem matched_step (h : Matched s t) (hf : Framed Busy t) (i : Step) : Matched (step i s) (step i t) := by
  cases i with
  | tick others =>
    exact matched_hw h (@agreeUsi_map _ _ h.hw (fun u => clock u others) (fun u d n => clock_parts u d n others)
      fun u => clock_driven u others) (clock_dec ..) (clock_dec ..)
  | poll others₁ others₂ =>
    have hpoll := matched_poll h hf others₁ others₂
    exact hpoll.of_buf (agree_addrPeriodic hpoll.toAgree) (addrPeriodic_rx _) (addrPeriodic_rx _)
      (congrArg Usi.dec (addrPeriodic_hw _)) (congrArg Usi.dec (addrPeriodic_hw _))
  | app a =>
    exact h.of_buf (agree_app h.toAgree a) (app_rx s a) (app_rx t a) (congrArg Usi.dec (app_hw s a))
      (congrArg Usi.dec (app_hw t a))

/-! ### The firmware -/

theorem call_build (s : Cec Usi) (c : Call) : (s.call c).build = s.build := by
  cases c with
  | none => rfl
  | start => rfl
  | error err => exact (receiveError_rx s err).2.1

theorem tick_build (s : Cec Usi) (b : Bool) : (cecProcessTick s b).build = s.build := by
  rw [processTick_eq]
  dsimp only
  split
  · exact (call_build ..).trans (receiveBit_build s b).1
  · exact call_build ..

theorem ticks_build (s : Cec Usi) (l : List Bool) : (l.foldl cecProcessTick s).build = s.build := by
  induction l generalizing s with
  | nil => rfl
  | cons b l ih => exact (ih _).trans (tick_build s b)

theorem nextBit_build (s : Cec Usi) : (cecUsiNextBit s).1.build = s.build := by
  rw [cecUsiNextBit]
  split
  · split <;> rfl
  · rfl
  · rfl

theorem handleAck_build (s : Cec Usi) (others : Bool) : (handleAck s others).build = s.build := by
  rw [handleAck]
  dsimp only
  repeat' split
  all_goals rfl

theorem poll_build (s : Cec Usi) (others₁ others₂ : Bool) :
    (cecReceivePeriodic s others₁ others₂).build = s.build := by
  have hfloat := (sameReceive_checkFloat s others₁).build
  rw [poll_eq, handleAck_build, beforeAck]
  split
  · exact (nextBit_build _).trans ((ticks_build _ _).trans hfloat)
  · exact hfloat

variable {build : Build} {addr : Addr}

theorem runs_step (h : Runs build addr s) (i : Step) : Runs build addr (step i s) := by
  cases i with
  | tick others => exact h.of_eq rfl rfl
  | poll others₁ others₂ =>
    have haddr : (cecReceivePeriodic s others₁ others₂).addr = s.addr :=
      keptTx_poll (keptTx_addr fetches s.addr) (fun {t} ht => (nextBit_addr t).trans ht) rfl others₁ others₂
    exact (h.of_eq (poll_build s others₁ others₂) haddr).addrPeriodic
  | app a => exact h.app a

theorem runs_op (h : Runs build addr s) (o : Op Step) : Runs build addr (op o s) := by
  cases o with
  | step i => exact runs_step h i
  | halt =>
    have haddr : (cecReceiveError s .halt).addr = s.addr := (keptTx_addr fetches s.addr).receiveError rfl .halt
    exact Runs.addrInit (h.of_eq (receiveError_rx s .halt).2.1 haddr)
  | init => exact Runs.addrInit (h.of_eq rfl rfl)

theorem runs_run (build : Build) (addr : Addr) (os : List (Op Step)) :
    Runs build addr (run op (initial build addr) os) := by
  have hstep : ∀ (s : Cec Usi) (o : Op Step), Runs build addr s → Runs build addr (op o s) := fun s o h => runs_op h o
  have hboot : Runs build addr (boot build addr ({} : Usi)) := ⟨rfl, rfl⟩
  exact invariant_run' hstep os (Runs.addrInit (hboot.of_eq rfl rfl))

/-! ### The restart -/

/-- The variables that neither `cec_halt` nor `cec_init` writes, and that are read again, are what a
    reset leaves. -/
structure Fresh (s : Cec Usi) : Prop where
  dec : s.hw.dec.recvFrameTick = 0 ∧ s.hw.dec.recvFrame = 0 ∧ s.hw.dec.recvState = .idle ∧
    s.hw.dec.recvLastBit = false
  idleFrames : s.hw.idleFrames = 0
  xmitState : s.hw.xmitState = .idle
  floatTicksMax : s.hw.floatTicksMax = 0 ∧ s.hw.floatTicksMaxNext = 0
  lastBit : s.tx.lastBit % 4 = 0
  buf : ∀ i, i ≠ s.build.hdr → s.rx.buf i = 0

/-- What can be seen of a device: the receive buffer, `transmit_state` and the line. -/
def seen (s : Cec Usi) : (Nat → Nat) × TransmitState × Bool := (s.rx.buf, s.tx.state, s.hw.low)

theorem Matched.seen (h : Matched s t) : seen t = seen s := by
  rw [Usi.seen, Usi.seen, h.buf, h.tx.state, agreeUsi_low h.hw]

theorem receiveError_parts {s : Cec Usi} (hx : s.hw.xmitState = .idle) (err : Err) :
    ∃ n d x, (cecReceiveError s err).hw = { s.hw with nacking := n, driven := d, usidr := x } := by
  by_cases h0 : s.rx.flags = 0
  · rw [receiveError_zero h0]
    exact ⟨_, _, _, rfl⟩
  · have habort : ∀ u : Usi, u.xmitState = .idle →
        Driver.cecTransmitAbort u = { u with usidr := abortLoop (8 - u.tick) u.usidr 0x7f } := by
      intro u hu
      change ({ u with xmitState := .idle, usidr := _ } : Usi) = _
      rw [← hu]
    rw [receiveError_hw s err h0]
    dsimp only
    split
    · split
      · exact ⟨true, true, _, habort _ hx⟩
      · exact ⟨_, _, _, habort _ hx⟩
    · split
      · exact ⟨true, true, _, rfl⟩
      · exact ⟨_, _, _, rfl⟩

/-- The registers and marks after `cec_halt` and `cec_init`. -/
theorem restart_hw {s : Cec Usi} (hx : s.hw.xmitState = .idle) :
    ∃ n, (cecInit (cecHalt s)).hw =
      { s.hw with nacking := n, driven := false, usidr := 0, usibr := 0, usicnt := 8, usioif := false } := by
  obtain ⟨n, d, x, hw⟩ := receiveError_parts hx .halt
  refine ⟨n, ?_⟩
  rw [cecInit, addrInit_hw]
  change (cecHalt s).hw.initHw = _
  rw [cecHalt, addrInit_hw]
  change initHw { (cecReceiveError s .halt).hw with driven := false, usibr := 0, usidr := 0 } = _
  rw [hw]
  rfl

theorem restart_tx (s : Cec Usi) :
    (cecInit (cecHalt s)).tx =
      { (cecReceiveError s .halt).tx with state := .idle, needed := cecNewPeriodWait } := by
  have hhalt : (cecHalt s).tx = { (cecReceiveError s .halt).tx with state := .idle } := addrInit_tx rfl
  have hstate : (cecTransmitInit { cecHalt s with hw := (cecHalt s).hw.initHw }).tx.state = .idle :=
    congrArg Transmit.state hhalt
  rw [cecInit, addrInit_tx hstate]
  change { (cecHalt s).tx with needed := cecNewPeriodWait } = _
  rw [hhalt]

theorem restart_rx (s : Cec Usi) :
    (cecInit (cecHalt s)).rx = { s.rx with flags := 0, buf := Function.update s.rx.buf s.build.hdr 0 } := by
  rw [cecInit, addrInit_rx]
  change (cecHalt s).rx = _
  rw [cecHalt, addrInit_rx]
  exact halted_rx s

/-- The device after `cec_halt` and `cec_init`, and one that has just booted. -/
theorem matched_restart (hf : Fresh s) (hr : Runs build addr s) :
    Matched (cecInit (cecHalt s)) (initial build addr) := by
  obtain ⟨n, hw⟩ := restart_hw hf.xmitState
  have hrx := restart_rx s
  have htx := restart_tx s
  have hruns : Runs build addr (cecInit (cecHalt s)) := runs_op (runs_op hr .halt) .init
  have haddr : (cecInit (cecHalt s)).addr = (initial build addr).addr := by
    rw [cecInit, initial, cecInit, addrInit_addr, addrInit_addr]
    exact (runs_op hr .halt).addr
  have hbuild : (initial build addr).build = build := addrInit_build _
  have hbuf : Function.update s.rx.buf s.build.hdr 0 = fun _ => 0 := by
    funext i
    by_cases hi : i = s.build.hdr
    · rw [hi, Function.update_self]
    · rw [Function.update_of_ne hi, hf.buf i hi]
  have hinit : (initial build addr).rx = {} := addrInit_rx _
  have hinit_tx : (initial build addr).tx = { ({} : Transmit) with needed := cecNewPeriodWait } := addrInit_tx rfl
  have hinit_hw : (initial build addr).hw = { ({} : Usi) with usicnt := 8 } := addrInit_hw _
  obtain ⟨htick, hframe, hstate, hlast⟩ := hf.dec
  refine ⟨⟨hbuild.trans hruns.build.symm, haddr.symm, ?_, ?_, ?_, ?_⟩, ?_, ?_, ?_, ?_⟩
  · rw [hrx, hinit]
  · rw [hrx, hinit, hbuf]
  · rw [htx, hinit_tx]
    refine agreeTx_idle rfl rfl rfl ?_
    change 0 % 4 = (cecReceiveError s .halt).tx.lastBit % 4
    rw [receiveError_lastBit, hf.lastBit]
  · rw [hw, hinit_hw]
    refine ⟨fun hd => Bool.noConfusion hd, ?_⟩
    rw [hf.idleFrames, hf.xmitState, hf.floatTicksMax.1, hf.floatTicksMax.2]
  · rw [hw, hinit_hw]
    exact ⟨htick.symm, hframe.symm, hstate.symm, hlast.symm, fun hne => absurd hstate hne⟩
  · intro hne
    rw [hrx] at hne
    exact absurd rfl hne
  · intro hne
    rw [hrx] at hne
    exact absurd rfl hne
  · intro hbits
    rw [hw] at hbits
    exact UsiRecv.noConfusion (hstate.symm.trans hbits)

/-- A later run of a device restarted in a fresh state. -/
theorem restart_seen (hf : Fresh s) (hr : Runs build addr s) (is : List Step) :
    seen (run step (cecInit (cecHalt s)) is) = seen (run step (initial build addr) is) := by
  have hstep : ∀ (s t : Cec Usi) (i : Step), Matched s t ∧ Framed Busy t →
      Matched (step i s) (step i t) ∧ Framed Busy (step i t) :=
    fun s t i h => ⟨matched_step h.1 h.2 i, framed_step h.2 i⟩
  exact (lockstep_run' hstep is ⟨matched_restart hf hr, framed_run build addr []⟩).1.seen.symm

end Usi

end AvrCec
