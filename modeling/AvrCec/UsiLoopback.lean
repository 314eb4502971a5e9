import AvrCec.Overheard
import AvrCec.Abort
import AvrCec.Lib.Shift

/-! A USI sender on its own line.

    What a poll queues is shifted out one byte time later and decoded another byte time after that, so
    the sender reads a bit back with the bit after it on the line and the next one about to be queued.
    `Turn` is the device between two overflows, as a function of the byte times since its attempt began;
    `Loop` adds the registers and holds at every tick. With others that do no more than hold the ack
    slots, neither the check of the low time nor the decoder finds an error at any tick at which the
    device may be polled (`Loop.poll`), and the attempt ends in success (`attempt_echoed`). -/

namespace AvrCec
open Lib

namespace Usi

/-! ### The bytes of an attempt -/

/-- A byte that is low in its first `n` ticks. -/
def lowTicks (n : ℕ) : BitVec 8 := BitVec.allOnes 8 <<< (8 - n)

theorem byteTicks_lowTicks {n : ℕ} (hn : n ≤ 8) :
    byteTicks (lowTicks n) = List.replicate n false ++ List.replicate (8 - n) true := by
  have h : ∀ n < 9, byteTicks (lowTicks n) = List.replicate n false ++ List.replicate (8 - n) true := by decide
  exact h n (Nat.lt_succ_of_le hn)

theorem getMsbD_lowTicks {n t : ℕ} (hn : n ≤ 8) (ht : t < 8) : (lowTicks n).getMsbD t = decide (t < n) := by
  have h : ∀ n < 9, ∀ t < 8, (lowTicks n).getMsbD t = decide (t < n) := by decide
  exact h n (Nat.lt_succ_of_le hn) t ht

/-- How long the pattern of a bit is low. -/
def bitLow (bit : Bool) : ℕ := if bit then 2 else 5

theorem pattern_eq (bit : Bool) : (if bit then cecPat1 else cecPat0) = lowTicks (bitLow bit) := by cases bit <;> rfl

theorem start1_eq : cecPatStart1 = lowTicks 5 := rfl

theorem idle_eq : cecPatIdle = lowTicks 0 := rfl

/-- The byte sent in the `k`th byte time of an attempt, whose start is queued in the first. -/
def sent (m : List ℕ) : ℕ → BitVec 8
  | 0 => cecPatIdle
  | 1 => cecPatStart0
  | 2 => cecPatStart1
  | c + 3 => ((framing m)[c]?).elim cecPatIdle fun bit => if bit then cecPat1 else cecPat0

/-- The byte time is the ack slot of a block that is acked. -/
def Slot (m : List ℕ) (k : ℕ) : Prop := 3 ≤ k ∧ k - 3 < 10 * m.length ∧ (k - 3) % 10 = 9 ∧ ¬ Broadcast m

instance (m : List ℕ) (k : ℕ) : Decidable (Slot m k) := by
  unfold Slot
  infer_instance

/-- The byte read in it, with the slots held low for `hold` ticks. -/
def read (m : List ℕ) (hold : ℕ → ℕ) (k : ℕ) : BitVec 8 := if Slot m k then lowTicks (hold k) else sent m k

/-- The check of the low time, with the bound `n`, does not find the byte too long. -/
structure Covers (m : List ℕ) (k n : ℕ) : Prop where
  own : ∀ t < 8, n ≤ t → (sent m k).getMsbD t = false
  ack : Slot m k → 6 ≤ n

variable {m : List ℕ} {hold : ℕ → ℕ} {k : ℕ}

theorem sent_bit {c : ℕ} {bit : Bool} (h : (framing m)[c]? = some bit) : sent m (c + 3) = lowTicks (bitLow bit) := by
  rw [sent, h, ← pattern_eq]
  rfl

theorem sent_rest {c : ℕ} (h : 10 * m.length ≤ c) : sent m (c + 3) = lowTicks 0 := by
  rw [sent, List.getElem?_eq_none (by rwa [length_framing])]
  rfl

theorem read_sent (h : ¬ Slot m k) : read m hold k = sent m k := if_neg h

theorem not_slot {n : ℕ} (h : n < 3) : ¬ Slot m n := fun hs => absurd hs.1 (Nat.not_le.mpr h)

theorem slot_ack {c : ℕ} (h : Slot m (c + 3)) : sent m (c + 3) = lowTicks 2 :=
  sent_bit (framing_ack h.2.1 h.2.2.1)

/-- The bit that is heard in it. -/
theorem read_bit (hwin : ∀ k, 4 ≤ hold k ∧ hold k ≤ 6) {c : ℕ} (hc : c < 10 * m.length) :
    ∃ bit low, (echo m)[c]? = some bit ∧ read m hold (c + 3) = lowTicks low ∧ BitShape bit (low, 8 - low) := by
  have hlen : c < (framing m).length := by rwa [length_framing]
  rw [getElem?_echo m c hc]
  by_cases hs : Slot m (c + 3)
  · have h9 : c % 10 = 9 := hs.2.2.1
    obtain ⟨h4, h6⟩ := hwin (c + 3)
    refine ⟨false, hold (c + 3), ?_, if_pos hs, ⟨⟨h4, h6⟩, ?_, ?_⟩⟩
    · rw [if_pos h9, ackLevel, decide_eq_false hs.2.2.2]
    · dsimp only
      omega
    · dsimp only
      omega
  · have hbit : (if c % 10 = 9 then some (ackLevel m) else (framing m)[c]?) = (framing m)[c]? := by
      split
      · next h9 =>
        have hcast : Broadcast m := by
          by_contra hb
          exact hs ⟨by omega, by omega, by omega, hb⟩
        rw [framing_ack hc h9, ackLevel, decide_eq_true hcast]
      · rfl
    have hget := List.getElem?_eq_getElem hlen
    generalize (framing m)[c] = bit at hget
    refine ⟨bit, bitLow bit, by rw [hbit, hget], (read_sent hs).trans (sent_bit hget), ?_⟩
    cases bit <;> exact ⟨by decide, by decide, by decide⟩

/-! ### The decoder, byte by byte -/

/-- The decoder after `k` bytes of an attempt. -/
def Stage (m : List ℕ) : ℕ → Decoder → Prop
  | 0, d | 1, d => d.recvState = .idle ∧ d.recvLastBit = true ∧ 24 ≤ d.recvFrameTick
  | 2, d => d.recvState = .idle ∧ d.recvLastBit = false ∧ d.recvFrameTick = 6
  | 3, d => InStart d
  | c + 4, d =>
    if c < 10 * m.length then
      Awaiting d ∧ d.recvFrame = 8 * (c % 10) ∧ d.recvState = if c + 1 < 10 * m.length then .bits else .idle
    else d.recvState = .idle ∧ d.recvLastBit = true

theorem high_byte {s : Cec Usi} {d : Decoder} (h0 : s.rx.flags = 0) (hv : d.Valid) (hidle : d.recvState = .idle)
    (hlast : d.recvLastBit = true) : (byteTicks (lowTicks 0)).foldl cecProcessTick (withDec s d)
      = withDec s (d.put (min (d.recvFrameTick + 8) 255) true) := by
  rw [byteTicks_lowTicks (by decide), List.replicate_zero, List.nil_append,
    idle_ticks s d 8 h0 hidle hlast hv.tick]
  rw [Decoder.put, ← hlast]

/-- The first byte of a start bit. -/
theorem start0_byte {s : Cec Usi} {d : Decoder} (h0 : s.rx.flags = 0) (hv : d.Valid) (hidle : d.recvState = .idle)
    (hlast : d.recvLastBit = true) (htick : 24 ≤ d.recvFrameTick) :
    (byteTicks cecPatStart0).foldl cecProcessTick (withDec s d) = withDec s (d.nextFrame.put 6 false) := by
  have hticks : byteTicks cecPatStart0 = List.replicate 1 true ++ false :: List.replicate 6 false := by decide
  have hhigh := idle_ticks s d 1 h0 hidle hlast hv.tick
  have hmin := hv.window.1
  have htick' := hv.tick
  have hfall := tick_fall s { d with recvFrameTick := min (d.recvFrameTick + 1) 255 } hlast (by dsimp only; omega)
    (by rw [hidle]; exact UsiRecv.noConfusion) fun h => absurd h (by rw [hidle]; exact UsiRecv.noConfusion)
  rw [hticks, List.foldl_append, hhigh, List.foldl_cons, hfall]
  exact idle_ticks s (d.nextFrame.put 0 false) 6 h0 hidle rfl (Nat.zero_le _)

/-- The second. -/
theorem start1_byte {s : Cec Usi} {d : Decoder} (h0 : s.rx.flags = 0) (hidle : d.recvState = .idle)
    (hlast : d.recvLastBit = false) (htick : d.recvFrameTick = 6) :
    (byteTicks cecPatStart1).foldl cecProcessTick (withDec s d) = withDec s (d.inStart.put 14 true) := by
  have hticks : byteTicks cecPatStart1 = List.replicate 5 false ++ true :: List.replicate 2 true := by decide
  have hlow := idle_ticks s d 5 h0 hidle hlast (by omega)
  have hrise := tick_rise_start s (d.put 11 false) rfl (by change 11 ≤ 12; decide) (by change 12 ≤ 14; decide)
  rw [htick] at hlow
  rw [hticks, List.foldl_append, hlow, List.foldl_cons]
  change List.foldl cecProcessTick (cecProcessTick (withDec s { d with recvFrameTick := 11 }) true) _ = _
  have hput : ({ d with recvFrameTick := 11 } : Decoder) = d.put 11 false := by rw [Decoder.put, ← hlast]
  rw [hput, hrise]
  exact put_hold s d.inStart 12 2 true (by change 14 ≤ 16; decide) (by change 16 ≤ 255; decide)
    fun h => UsiRecv.noConfusion h

/-- The byte of the first bit, and the end of the start bit with it. -/
theorem first_byte {s : Cec Usi} {d : Decoder} (hd : InStart d) {bit : Bool} {low : ℕ}
    (hq : BitShape bit (low, 8 - low)) : (byteTicks (lowTicks low)).foldl cecProcessTick (withDec s d)
      = withDec (cecReceiveBit (cecReceiveStart s) bit)
          ((Decoder.started.after (cecReceiveBit (cecReceiveStart s) bit).rx.flags).put 7 true) := by
  obtain ⟨h1, h6⟩ := hq.low_pos
  have hmin := hd.window.1
  have htick := hd.tick
  have htrain := train_fall h1 []
  rw [train_cons, train, List.flatMap_nil, List.append_nil, List.append_nil] at htrain
  rw [byteTicks_lowTicks (by dsimp only at h6; omega), htrain, List.foldl_cons,
    tick_fall_start s d hd.last (by omega) hd.state,
    pulse_bits (cecReceiveStart s) ⟨⟨rfl, rfl⟩, rfl, rfl⟩ rfl hq]
  dsimp only at h6 ⊢
  rw [show low + (8 - low) - 1 = 7 by omega]

/-- The byte of a bit after it. -/
theorem bit_byte {s : Cec Usi} {d : Decoder} (hd : Awaiting d) (hbits : d.recvState = .bits) {bit : Bool} {low : ℕ}
    (hq : BitShape bit (low, 8 - low)) : (byteTicks (lowTicks low)).foldl cecProcessTick (withDec s d)
      = withDec (cecReceiveBit s bit) ((d.nextFrame.after (cecReceiveBit s bit).rx.flags).put 7 true) := by
  obtain ⟨h1, h6⟩ := hq.low_pos
  have hmin := hd.window.1
  have htick := hd.tick
  have htrain := train_fall h1 []
  rw [train_cons, train, List.flatMap_nil, List.append_nil, List.append_nil] at htrain
  have hfall : cecProcessTick (withDec s d) false = withDec s (d.nextFrame.put 0 false) :=
    tick_fall s d hd.last (by omega) (by rw [hbits]; exact UsiRecv.noConfusion) fun _ => by omega
  rw [byteTicks_lowTicks (by dsimp only at h6; omega), htrain, List.foldl_cons, hfall,
    pulse_bits s (d := d.nextFrame.put 0 false) ⟨⟨rfl, rfl⟩, hd.window⟩ hbits hq]
  dsimp only at h6 ⊢
  rw [show low + (8 - low) - 1 = 7 by omega]
  rfl

/-! ### Between two overflows -/

/-- The signs that the engine has had after `k` bytes. -/
def signsBy (m : List ℕ) (k : ℕ) : ℕ := if k < 4 then 0 else min (k - 2) (10 * m.length + 1)

/-- The engines in the attempt that began in the state `u`, with `i` signs heard and the `n`th byte queued. -/
structure Under (u : Cec Usi) (m : List ℕ) (i n : ℕ) (s : Cec Usi) : Prop where
  framed : Framed Busy s
  same : Same (engineAt u (echo m) i) s
  reports : Reports u s m i
  calm : episodes s.told = episodes u.told
  message : s.tx.message = m
  fetched : s.tx.state.busy → fetched s.told = some ((framing m).take (n - 1))
  xmit : s.hw.xmitState = if n = 0 then .start else if n ≤ 10 * m.length then .bits else .idle

/-- The device with `k` bytes decoded and the `n`th queued. -/
structure Turn (u : Cec Usi) (m : List ℕ) (k n : ℕ) (s : Cec Usi) : Prop extends Under u m (signsBy m k) n s where
  valid : s.hw.dec.Valid
  stage : Stage m k s.hw.dec

variable {u s : Cec Usi} {i n : ℕ}

theorem Under.hw (h : Under u m i n s) {x : Usi} (hx : x.xmitState = s.hw.xmitState) :
    Under u m i n { s with hw := x } :=
  ⟨keptTx_framed.quiet h.framed rfl rfl hx rfl, h.same.hw x, h.reports.congr rfl rfl, h.calm, h.message, h.fetched,
    hx ▸ h.xmit⟩

theorem Turn.hw (h : Turn u m k n s) {x : Usi} (hd : x.dec = s.hw.dec) (hx : x.xmitState = s.hw.xmitState) :
    Turn u m k n { s with hw := x } :=
  ⟨h.toUnder.hw hx, hd ▸ h.valid, hd ▸ h.stage⟩

/-- The engine hears the start bit. -/
theorem Under.start (h : Under u m 0 n s) (hlen : 0 < m.length) : Under u m 1 n (cecReceiveStart s) := by
  have htold : (cecReceiveStart s).told = s.told := rfl
  have hreports := h.reports
  refine ⟨keptTx_framed.receiveStart h.framed, h.same.start, ?_, h.calm, h.message, h.fetched, h.xmit⟩
  rw [Reports, if_neg (by omega)] at hreports ⊢
  exact hreports

/-- It hears the next bit of the echo. -/
theorem Under.bit {c : ℕ} (h : Under u m (c + 1) (c + 3) s) (hr : Receivable u m) {bit : Bool}
    (hbit : (echo m)[c]? = some bit) :
    Under u m (c + 2) (c + 3) (cecReceiveBit s bit) ∧ (cecReceiveBit s bit).hw = s.hw := by
  have hc : c < 10 * m.length := by
    have := (List.getElem?_eq_some_iff.mp hbit).1
    rwa [length_echo] at this
  have hbusy : s.tx.state.busy := by
    have hreports := h.reports
    rw [Reports, if_neg (by omega)] at hreports
    exact hreports.1
  obtain ⟨bits, hbits, hfetched⟩ := h.framed.busy hbusy
  rw [h.fetched hbusy] at hbits
  obtain rfl := Option.some.inj hbits
  have hnext : (echo m).take (c + 1) = (echo m).take c ++ [bit] := by
    rw [List.take_add_one, hbit]
    rfl
  have hsame : Same (engineAt u (echo m) (c + 2)) (cecReceiveBit s bit) := by
    rw [engineAt, hnext, feed_concat]
    have htracks : Tracks (engineAt u (echo m) (c + 1)).build.hdr u.rx.buf ((echo m).take c)
        (engineAt u (echo m) (c + 1)).rx := by
      rw [engineAt, (feed_build _ _).1]
      exact hr.tracks_take hc
    exact h.same.bit htracks bit
  obtain ⟨hhw, hcalm, htx, hgoing, hreports⟩ := hr.heard hbit h.same.rx h.message hfetched h.reports
  refine ⟨⟨keptTx_framed.receiveBit h.framed bit, hsame, hreports, hcalm.trans h.calm, ?_, fun hb => ?_, ?_⟩, hhw⟩
  · rw [htx]
    exact h.message
  · rcases Nat.lt_or_ge (c + 1) (10 * m.length) with hlt | hge
    · rw [(hgoing hlt).2]
      exact h.fetched hbusy
    · rw [Reports, if_pos (by omega)] at hreports
      exact absurd hb (not_busy_idle hreports.1)
  · rw [hhw]
    exact h.xmit

/-- The engine is outside of a reception before the first bit and after the last. -/
theorem Turn.idle (h : Turn u m k n s) (hr : Receivable u m) (h0 : u.rx.flags = 0)
    (hk : k < 4 ∨ 10 * m.length + 3 ≤ k) : s.rx.flags = 0 := by
  rw [h.same.rx, signsBy]
  rcases hk with hk | hk
  · rw [if_pos hk]
    exact h0
  · have hlast : min (k - 2) (10 * m.length + 1) = 10 * m.length + 1 := by omega
    have hseveral := hr.several
    rw [if_neg (by omega), hlast, engineAt, List.take_of_length_le (by rw [length_echo])]
    exact hr.handed.1

/-- The engine acks nothing. -/
theorem Turn.unacked (h : Turn u m k n s) (ho : Overhears u m) (h0 : u.rx.flags = 0) : s.rx.flags.doAck = false := by
  rcases Nat.lt_or_ge k 4 with hk | hk
  · rw [h.idle ho.toReceivable h0 (.inl hk)]
    rfl
  · rcases Nat.lt_or_ge k (10 * m.length + 3) with hlt | hge
    · have hseveral := ho.several
      have hk' : min (k - 2) (10 * m.length + 1) = k - 3 + 1 := by omega
      rw [h.same.rx, signsBy, if_neg (by omega), hk', engineAt]
      exact ho.unacked (List.take_prefix ..) (take_echo_ne (by omega))
    · rw [h.idle ho.toReceivable h0 (.inr hge)]
      rfl

theorem put_awaiting {d : Decoder} (h : d.minFrameTicks = 6 ∧ d.maxFrameTicks = 10) : Awaiting (d.put 7 true) :=
  ⟨⟨by change 5 ≤ 7; decide, by change 7 ≤ 9; decide⟩, rfl, h⟩

/-- The frame counter counts the bits of a block. -/
theorem frame_next {d : Decoder} {c : ℕ} (h : d.recvFrame = 8 * (c % 10)) :
    d.nextFrame.recvFrame = 8 * ((c + 1) % 10) := by
  change (if ((d.recvFrame + 8) % 256 = 10 * 8 : Bool) then 0 else (d.recvFrame + 8) % 256) = _
  rw [h]
  split
  · next heq =>
    rw [decide_eq_true_iff] at heq
    omega
  · next heq =>
    rw [decide_eq_true_iff] at heq
    omega

/-- A byte that tells the engine nothing. -/
theorem Turn.quiet (h : Turn u m k n s) {d : Decoder} (hv : d.Valid) (hs : signsBy m (k + 1) = signsBy m k)
    (hd : Stage m (k + 1) d) : Turn u m (k + 1) n (withDec s d) :=
  ⟨hs ▸ h.toUnder.hw rfl, hv, hd⟩

/-- In the reception of the echo the engine has flags, after it none. -/
theorem Under.flags_iff {c : ℕ} (h : Under u m (c + 2) n s) (hr : Receivable u m) (hc : c < 10 * m.length) :
    s.rx.flags = 0 ↔ ¬ c + 1 < 10 * m.length := by
  rw [h.same.rx, engineAt]
  constructor
  · intro hz hlt
    exact (hr.tracks_take hlt).flags_ne hz
  · intro hge
    rw [List.take_of_length_le (by rw [length_echo]; omega)]
    exact hr.handed.1

/-- A byte in which the engine hears the next bit of the echo. -/
theorem Under.hears {c : ℕ} (h : Under u m (c + 1) (c + 3) s) (hr : Receivable u m) (hc : c < 10 * m.length) {bit : Bool}
    (hbit : (echo m)[c]? = some bit) {d : Decoder} (hwindow : d.minFrameTicks = 6 ∧ d.maxFrameTicks = 10)
    (hframe : d.recvFrame = 8 * (c % 10)) (hstate : d.recvState = .bits)
    (hv : ((d.after (cecReceiveBit s bit).rx.flags).put 7 true).Valid) :
    let d' := (d.after (cecReceiveBit s bit).rx.flags).put 7 true
    Turn u m (c + 4) (c + 3) (withDec (cecReceiveBit s bit) d') ∧
      ∃ d, (withDec (cecReceiveBit s bit) d').hw = { s.hw with dec := d } := by
  intro d'
  obtain ⟨hunder, hhw⟩ := h.bit hr hbit
  have hsigns : signsBy m (c + 4) = c + 2 := by
    rw [signsBy, if_neg (by omega)]
    omega
  have hflags := hunder.flags_iff hr hc
  refine ⟨⟨by rw [hsigns]; exact hunder.hw rfl, hv, ?_⟩, d', congrArg (fun x : Usi => { x with dec := d' }) hhw⟩
  rw [Stage, if_pos hc]
  refine ⟨put_awaiting hwindow, hframe, ?_⟩
  change (if _ then UsiRecv.idle else d.recvState) = _
  rw [hstate]
  split
  · next hz => rw [if_neg (hflags.mp hz)]
  · next hz => rw [if_pos (not_not.mp (mt hflags.mpr hz))]

/-- The line is high again after the last bit. -/
theorem Stage.rest {c : ℕ} {d : Decoder} (h : Stage m (c + 4) d) (hc : 10 * m.length ≤ c + 1) :
    d.recvState = .idle ∧ d.recvLastBit = true := by
  rw [Stage] at h
  split at h
  · obtain ⟨hawait, -, hidle⟩ := h
    rw [if_neg (by omega)] at hidle
    exact ⟨hidle, hawait.last⟩
  · exact h

/-- The decoder takes one more byte, and leaves the rest of the driver alone. -/
theorem Turn.decode (h : Turn u m k k s) (hr : Receivable u m) (h0 : u.rx.flags = 0)
    (hwin : ∀ k, 4 ≤ hold k ∧ hold k ≤ 6) :
    Turn u m (k + 1) k ((byteTicks (read m hold k)).foldl cecProcessTick s) ∧
      ∃ d, ((byteTicks (read m hold k)).foldl cecProcessTick s).hw = { s.hw with dec := d } := by
  have hvalid := valid_ticks h.valid (byteTicks (read m hold k))
  have hself : withDec s s.hw.dec = s := withDec_self s
  have hlen : 1 < m.length := hr.several
  have hquiet : ∀ d, (byteTicks (read m hold k)).foldl cecProcessTick s = withDec s d →
      signsBy m (k + 1) = signsBy m k → Stage m (k + 1) d →
      Turn u m (k + 1) k ((byteTicks (read m hold k)).foldl cecProcessTick s) ∧
        ∃ d, ((byteTicks (read m hold k)).foldl cecProcessTick s).hw = { s.hw with dec := d } := by
    intro d heq hs hd
    rw [heq] at hvalid ⊢
    exact ⟨h.quiet hvalid hs hd, d, rfl⟩
  have hstage := h.stage
  rcases k with _ | _ | _ | _ | c
  · obtain ⟨hidle, hlast, htick⟩ := hstage
    have hbyte := high_byte (h.idle hr h0 (.inl (by decide))) h.valid hidle hlast
    rw [hself] at hbyte
    refine hquiet _ hbyte rfl ⟨hidle, rfl, ?_⟩
    change 24 ≤ min (s.hw.dec.recvFrameTick + 8) 255
    omega
  · obtain ⟨hidle, hlast, htick⟩ := hstage
    have hbyte := start0_byte (h.idle hr h0 (.inl (by decide))) h.valid hidle hlast htick
    rw [hself] at hbyte
    exact hquiet _ hbyte rfl ⟨hidle, rfl, rfl⟩
  · obtain ⟨hidle, hlast, htick⟩ := hstage
    have hbyte := start1_byte (h.idle hr h0 (.inl (by decide))) hidle hlast htick
    rw [hself] at hbyte
    exact hquiet _ hbyte rfl ⟨rfl, ⟨rfl, rfl⟩, ⟨by change 13 ≤ 14; decide, by change 14 ≤ 15; decide⟩, rfl⟩
  · -- the start bit is over, and the first bit heard
    have hc : 0 < 10 * m.length := by omega
    obtain ⟨bit, low, hbit, hread, hshape⟩ := read_bit hwin hc
    have hbyte := first_byte (s := s) hstage hshape
    rw [hself, ← hread] at hbyte
    have hstart : Under u m 1 3 (cecReceiveStart s) := h.toUnder.start (by omega)
    rw [hbyte] at hvalid ⊢
    exact hstart.hears hr hc hbit ⟨rfl, rfl⟩ rfl rfl hvalid
  · rcases Nat.lt_or_ge (c + 1) (10 * m.length) with hlt | hge
    · -- one more bit
      rw [Stage, if_pos (by omega), if_pos hlt] at hstage
      obtain ⟨hawait, hframe, hbits⟩ := hstage
      obtain ⟨bit, low, hbit, hread, hshape⟩ := read_bit hwin hlt
      have hbyte := bit_byte (s := s) hawait hbits hshape
      rw [hself, ← hread] at hbyte
      have hsigns : signsBy m (c + 4) = c + 2 := by
        rw [signsBy, if_neg (by omega)]
        omega
      have hunder : Under u m (c + 2) (c + 4) s := hsigns ▸ h.toUnder
      rw [hbyte] at hvalid ⊢
      exact hunder.hears hr hlt hbit hawait.window (frame_next hframe) hbits hvalid
    · obtain ⟨hidle, hlast⟩ := Stage.rest hstage hge
      have hread : read m hold (c + 4) = lowTicks 0 :=
        (read_sent fun hs => absurd hs.2.1 (by omega)).trans (sent_rest hge)
      have hbyte := high_byte (h.idle hr h0 (.inr (by omega))) h.valid hidle hlast
      rw [hself, ← hread] at hbyte
      refine hquiet _ hbyte ?_ ?_
      · rw [signsBy, signsBy, if_neg (by omega), if_neg (by omega)]
        omega
      · rw [Stage, if_neg (by omega)]
        exact ⟨hidle, rfl⟩

theorem covers_low {low n : ℕ} (h : sent m k = lowTicks low) (h8 : low ≤ 8) (hn : low ≤ n) (hs : Slot m k → 6 ≤ n) :
    Covers m k n := by
  refine ⟨fun t ht hnt => ?_, hs⟩
  rw [h, getMsbD_lowTicks h8 ht, decide_eq_false]
  omega

/-- The bit fetched is the next one of the framing. -/
theorem Turn.fetch (h : Turn u m (k + 1) k s) (hpos : 0 < k) (hle : k ≤ 10 * m.length) (hx : s.hw.xmitState = .bits) :
    (framing m)[k - 1]? = some (cecTransmitGetBit s).2 ∧
      (cecTransmitGetBit s).1.tx.state.busy ∧ (cecTransmitGetBit s).1.tx.message = m ∧
      fetched (cecTransmitGetBit s).1.told = some ((framing m).take k) ∧
      ((cecTransmitGetBit s).1.tx.state = .waitForAck ↔ k = 10 * m.length) ∧ s.tx.state.busy := by
  obtain ⟨bits, hbits, hfetch, hbits', hfetch'⟩ := h.framed.next (show Busy s.hw by rw [Busy, hx]; exact UsiXmit.noConfusion)
  have hmessage : (cecTransmitGetBit s).1.tx.message = m := (getBit_message s.tx _).1.trans h.message
  have hold := h.fetched hfetch.busy
  rw [hbits] at hold
  obtain rfl := Option.some.inj hold
  have hlen : ((framing m).take (k - 1)).length = k - 1 := by
    rw [List.length_take, length_framing]
    omega
  have hwhole := hfetch'.whole_iff
  have hprefix := hfetch'.framed
  rw [hmessage] at hprefix hwhole
  generalize (cecTransmitGetBit s).2 = bit at *
  have hbit : (framing m)[k - 1]? = some bit := by
    obtain ⟨l, hl⟩ := hprefix
    rw [← hl, List.append_assoc, List.getElem?_append_right (by omega), hlen, Nat.sub_self]
    rfl
  have htake : (framing m).take (k - 1) ++ [bit] = (framing m).take k := by
    have hnext := List.take_add_one (l := framing m) (i := k - 1)
    rw [hbit, Nat.sub_add_cancel hpos] at hnext
    exact hnext.symm
  rw [htake] at hbits' hwhole
  refine ⟨hbit, hfetch'.busy, hmessage, hbits', ?_, hfetch.busy⟩
  rw [← hwhole]
  constructor
  · intro heq
    have hlen' := congrArg List.length heq
    rw [List.length_take, length_framing] at hlen'
    omega
  · intro heq
    rw [heq, List.take_of_length_le (by rw [length_framing])]

/-- What a poll queues with `k + 1` bytes decoded, under a bound that covers it. -/
structure Queued (u : Cec Usi) (m : List ℕ) (k : ℕ) (s : Cec Usi) (r : Cec Usi × BitVec 8) : Prop where
  turn : Turn u m (k + 1) (k + 1) r.1
  byte : r.2 = sent m (k + 2)
  hw : ∃ x n, r.1.hw = { s.hw with xmitState := x, floatTicksMaxNext := n } ∧ Covers m (k + 2) n

theorem framed_next (h : Framed Busy s) : Framed Busy (cecUsiNextBit s).1 :=
  keptEngine_next (keptCalls_framed fetches).toKeptEngine h

/-- The second byte of the start bit. -/
theorem Turn.queue_start (h : Turn u m 1 0 s) (hlen : 0 < m.length) : Queued u m 0 s (cecUsiNextBit s) := by
  have hxmit := h.xmit
  have hframed := framed_next h.framed
  have heq : cecUsiNextBit s
      = ({ s with hw := { s.hw with xmitState := .bits, floatTicksMaxNext := 6 } }, cecPatStart1) := by
    rw [cecUsiNextBit, hxmit]
    rfl
  rw [heq] at hframed ⊢
  refine ⟨⟨⟨hframed, h.same.hw _, h.reports.congr rfl rfl, h.calm, h.message, h.fetched, ?_⟩, h.valid, h.stage⟩, rfl,
    .bits, 6, rfl, covers_low start1_eq (by decide) (by decide) fun hs => absurd hs (not_slot (by decide))⟩
  rw [if_neg (by decide), if_pos (by omega)]

/-- The frame counter when an ack slot is queued, whose bound is that of a zero. -/
theorem Stage.ack_frame {d : Decoder} (h : Stage m (k + 1) d) (hs : Slot m (k + 2)) : d.recvFrame = 7 * 8 := by
  obtain ⟨-, hlt, h9, -⟩ := hs
  obtain ⟨c, rfl⟩ := Nat.exists_eq_add_of_le' (by omega : 3 ≤ k)
  rw [Stage, if_pos (by omega)] at h
  rw [h.2.1]
  omega

/-- The byte of a bit. -/
theorem Turn.queue_bit (h : Turn u m (k + 1) k s) (hpos : 0 < k) (hle : k ≤ 10 * m.length) :
    Queued u m k s (cecUsiNextBit s) := by
  have hxmit : s.hw.xmitState = .bits := h.xmit.trans (by rw [if_neg (by omega), if_pos hle])
  have hframed := framed_next h.framed
  obtain ⟨hbit, hbusy, hmessage, hfetched, hwhole, hbusy'⟩ := h.fetch hpos hle hxmit
  obtain ⟨x, n, heq, hx, hn⟩ : ∃ x n, cecUsiNextBit s = ({ (cecTransmitGetBit s).1 with
      hw := { s.hw with xmitState := x, floatTicksMaxNext := n } },
        if (cecTransmitGetBit s).2 then cecPat1 else cecPat0) ∧
      x = (if (cecTransmitGetBit s).1.tx.state = .waitForAck then .idle else .bits) ∧
      n = if (cecTransmitGetBit s).2 && s.hw.dec.recvFrame ≠ 7 * 8 then 3 else 6 := by
    refine ⟨_, _, ?_, rfl, rfl⟩
    rw [cecUsiNextBit, hxmit]
    rfl
  have hsent : sent m (k + 2) = if (cecTransmitGetBit s).2 then cecPat1 else cecPat0 := by
    rw [show k + 2 = k - 1 + 3 by omega, sent, hbit]
    rfl
  obtain ⟨read, htold⟩ : ∃ read, (cecTransmitGetBit s).1.told = .getBit (cecTransmitGetBit s).2 read :: s.told :=
    ⟨_, rfl⟩
  rw [heq] at hframed ⊢
  refine ⟨⟨⟨hframed, ⟨h.same.build, h.same.addr, h.same.rx, h.same.calls⟩, ?_, ?_, hmessage, fun _ => hfetched, ?_⟩,
    h.valid, h.stage⟩, hsent.symm, x, n, rfl, ?_⟩
  · have hreports := h.reports
    rw [Reports] at hreports ⊢
    split at hreports
    · exact absurd hbusy' (not_busy_idle hreports.1)
    · next hne =>
      rw [if_neg hne]
      refine ⟨hbusy, ?_⟩
      change sentCount (cecTransmitGetBit s).1.told = _
      rw [htold, ← hreports.2]
      simp [sentCount]
  · change episodes (cecTransmitGetBit s).1.told = _
    rw [htold, ← h.calm]
    simp [episodes, attempts, failures]
  · change x = _
    rw [hx, if_neg (Nat.succ_ne_zero k)]
    by_cases hlast : k = 10 * m.length
    · rw [if_pos (hwhole.mpr hlast), if_neg (by omega)]
    · rw [if_neg (mt hwhole.mp hlast), if_pos (by omega)]
  · rw [pattern_eq] at hsent
    refine covers_low hsent ?_ ?_ fun hs => ?_
    · cases (cecTransmitGetBit s).2 <;> decide
    · rw [hn]
      cases (cecTransmitGetBit s).2 with
      | true =>
        split
        · decide
        · decide
      | false => exact Nat.le_succ 5
    · rw [hn, h.stage.ack_frame hs, decide_eq_false (not_not_intro rfl), Bool.and_false]
      decide

/-- Nothing is left to be queued. -/
theorem Turn.queue_rest (h : Turn u m (k + 1) k s) (hgt : 10 * m.length < k) : Queued u m k s (cecUsiNextBit s) := by
  have hxmit : s.hw.xmitState = .idle := h.xmit.trans (by rw [if_neg (by omega), if_neg (by omega)])
  have hnot : ¬ s.tx.state.pending := by
    have hreports := h.reports
    rw [Reports] at hreports
    split at hreports
    · exact not_pending_of (.inr hreports.1)
    · exact not_pending_of (.inl hreports.1)
  have heq : cecUsiNextBit s = (s, cecPatIdle) := by
    rw [cecUsiNextBit, hxmit]
    exact if_neg fun hc => hnot hc.1
  have hsent : sent m (k + 2) = lowTicks 0 := by
    rw [show k + 2 = k - 1 + 3 by omega]
    exact sent_rest (by omega)
  rw [heq]
  refine ⟨⟨⟨h.framed, h.same, h.reports, h.calm, h.message, fun hb => ?_, ?_⟩, h.valid, h.stage⟩, hsent.symm,
    s.hw.xmitState, s.hw.floatTicksMaxNext, rfl,
    covers_low hsent (by decide) (Nat.zero_le _) fun hs => absurd hs.2.1 (by omega)⟩
  · rw [h.fetched hb, List.take_of_length_le (by rw [length_framing]; omega),
      List.take_of_length_le (by rw [length_framing]; omega)]
  · rw [hxmit, if_neg (by omega), if_neg (by omega)]

theorem Turn.queue (h : Turn u m (k + 1) k s) (hr : Receivable u m) : Queued u m k s (cecUsiNextBit s) := by
  have hseveral := hr.several
  rcases Nat.eq_zero_or_pos k with rfl | hpos
  · exact h.queue_start (by omega)
  · rcases Nat.lt_or_ge (10 * m.length) k with hgt | hle
    · exact h.queue_rest hgt
    · exact h.queue_bit hpos hle

/-! ### The bench -/

/-- A device and the ticks since the byte began in which its attempt did. -/
structure Bench where
  dev : Cec Usi
  now : ℕ

def Bench.step (i : Step) (w : Bench) : Bench where
  dev := Usi.step i w.dev
  now := match i with
    | .tick _ => w.now + 1
    | _ => w.now

/-- Polls handle every overflow in time, and the others hold ack slots low only, for `hold` ticks each.
    While we are low ourselves they may do as they like, and a poll may find a slot still held or let go. -/
def Fair (m : List ℕ) (hold : ℕ → ℕ) (w : Bench) : Step → Prop
  | .tick others => Timely w.dev (.tick others) ∧
    if Slot m (w.now / 8) then 2 ≤ w.now % 8 → others = decide (w.now % 8 < hold (w.now / 8)) else others = false
  | .poll others₁ others₂ => others₁ = true ∨ others₂ = true → Slot m (w.now / 8) ∧ w.now % 8 < 6
  | .app _ => False

instance (m : List ℕ) (hold : ℕ → ℕ) (w : Bench) (i : Step) : Decidable (Fair m hold w i) :=
  match i with
  | .tick _ => instDecidableAnd
  | .poll .. => inferInstanceAs (Decidable (_ → _))
  | .app _ => .isFalse id

/-- The bench in the attempt of `u`, with the overflow of the `k`th byte handled last. -/
structure Loop (u : Cec Usi) (m : List ℕ) (hold : ℕ → ℕ) (k : ℕ) (w : Bench) : Prop where
  turn : Turn u m k k w.dev
  byte : w.now / 8 = if w.dev.hw.usioif then k + 1 else k
  count : w.dev.hw.usicnt = w.now % 8 + if w.dev.hw.usioif then 0 else 8
  shifts : w.dev.hw.usidr = shifting (sent m (w.now / 8)) (read m hold (w.now / 8)) (w.now % 8)
  waits : w.dev.hw.usibr = if w.dev.hw.usioif then read m hold k else sent m (k + 1)
  floats : w.dev.hw.driven = false
  next : Covers m (k + 1) w.dev.hw.floatTicksMaxNext
  bound : w.dev.hw.usioif = false → k ≠ 0 → Covers m k w.dev.hw.floatTicksMax

variable {w : Bench}

theorem Loop.tick_eq (h : Loop u m hold k w) : w.dev.hw.tick = w.now % 8 := by
  rw [Usi.tick, h.count]
  split <;> omega

/-- What we drive. -/
theorem Loop.low_eq (h : Loop u m hold k w) : w.dev.hw.low = (sent m (w.now / 8)).getMsbD (w.now % 8) := by
  rw [Usi.low, h.floats, Bool.or_false, h.shifts, msb_shifting _ _ (Nat.mod_lt _ (by decide))]

/-- A sample of the line is the bit of the byte that is read. -/
theorem read_level (hwin : ∀ k, 4 ≤ hold k ∧ hold k ≤ 6) {t : ℕ} (ht : t < 8) {others : Bool}
    (h : if Slot m k then 2 ≤ t → others = decide (t < hold k) else others = false) :
    (read m hold k).getMsbD t = ((sent m k).getMsbD t || others) := by
  by_cases hs : Slot m k
  · obtain ⟨c, rfl⟩ := Nat.exists_eq_add_of_le' hs.1
    obtain ⟨h4, h6⟩ := hwin (c + 3)
    rw [if_pos hs] at h
    rw [read, if_pos hs, slot_ack hs, getMsbD_lowTicks (by omega) ht, getMsbD_lowTicks (by decide) ht]
    rcases Nat.lt_or_ge t 2 with hlt | hge
    · rw [decide_eq_true (by omega), decide_eq_true hlt, Bool.true_or]
    · rw [h hge, decide_eq_false (by omega : ¬ t < 2), Bool.false_or]
  · rw [if_neg hs] at h
    rw [read_sent hs, h, Bool.or_false]

/-- A tick. -/
theorem Loop.tick (h : Loop u m hold k w) (hwin : ∀ k, 4 ≤ hold k ∧ hold k ≤ 6) {others : Bool}
    (hf : Fair m hold w (.tick others)) : Loop u m hold k (w.step (.tick others)) := by
  obtain ⟨htimely, hothers⟩ := hf
  have ht : w.now % 8 < 8 := Nat.mod_lt _ (by decide)
  have hlevel := read_level hwin ht hothers
  have hshift := shift_in (sent m (w.now / 8)) (read m hold (w.now / 8)) ht hlevel
  rw [← h.shifts, ← h.low_eq] at hshift
  have hcount := h.count
  have hbyte := h.byte
  have hkept : ∀ x : Usi, x.dec = w.dev.hw.dec → x.xmitState = w.dev.hw.xmitState →
      Turn u m k k { w.dev with hw := x } := fun x => h.turn.hw
  rcases Nat.lt_or_ge (w.now % 8) 7 with hlt | hge
  · have hdiv : (w.now + 1) / 8 = w.now / 8 := by omega
    have hmod : (w.now + 1) % 8 = w.now % 8 + 1 := by omega
    have hclock : w.step (.tick others) = Bench.mk { w.dev with hw := { w.dev.hw with
        usidr := w.dev.hw.usidr <<< 1 ||| (BitVec.ofBool (w.dev.hw.low || others)).setWidth 8,
        usicnt := w.dev.hw.usicnt + 1 } } (w.now + 1) := by
      rw [Bench.step, Usi.step, Usi.clock, if_neg (by rw [hcount]; split <;> omega)]
    rw [hclock]
    refine ⟨hkept _ rfl rfl, ?_, ?_, ?_, h.waits, h.floats, h.next, h.bound⟩
    · dsimp only
      rw [hdiv, hbyte]
    · dsimp only
      rw [hmod, hcount]
      omega
    · dsimp only
      rw [hdiv, hmod, hshift]
  · -- the overflow
    have h7 : w.now % 8 = 7 := by omega
    have hoif : w.dev.hw.usioif = false := by
      rw [← Bool.not_eq_true]
      exact fun hc => htimely hc (h.tick_eq.trans h7)
    rw [hoif, if_neg (by decide)] at hcount hbyte
    have hwaits := h.waits
    rw [hoif, if_neg (by decide)] at hwaits
    have hdiv : (w.now + 1) / 8 = k + 1 := by omega
    have hmod : (w.now + 1) % 8 = 0 := by omega
    rw [h7, shifting_full, hbyte] at hshift
    have hclock : w.step (.tick others) = Bench.mk { w.dev with hw := { w.dev.hw with
        usidr := w.dev.hw.usibr,
        usibr := w.dev.hw.usidr <<< 1 ||| (BitVec.ofBool (w.dev.hw.low || others)).setWidth 8,
        usicnt := 0, usioif := true } } (w.now + 1) := by
      rw [Bench.step, Usi.step, Usi.clock, if_pos (by omega)]
    rw [hclock]
    refine ⟨hkept _ rfl rfl, hdiv, hmod.symm, ?_, hshift, h.floats, h.next, fun hc => Bool.noConfusion hc⟩
    dsimp only
    rw [hdiv, hmod, shifting_zero, hwaits]

/-- No poll finds the line low for too long. -/
theorem Loop.float (h : Loop u m hold k w) {others : Bool}
    (ho : others = true → Slot m (w.now / 8) ∧ w.now % 8 < 6) :
    checkFloat w.dev others = { w.dev with hw := loadFloatMax w.dev.hw } := by
  have ht : w.now % 8 < 8 := Nat.mod_lt _ (by decide)
  have hbyte := h.byte
  have hcovers : Covers m (w.now / 8) (loadFloatMax w.dev.hw).floatTicksMax ∨ w.now / 8 = 0 := by
    rw [loadFloatMax]
    dsimp only
    cases hoif : w.dev.hw.usioif with
    | true =>
      rw [hoif, if_pos rfl] at hbyte
      rw [hbyte, if_pos rfl]
      exact .inl h.next
    | false =>
      rw [hoif, if_neg (by decide)] at hbyte
      rw [hbyte, if_neg (by decide)]
      rcases Nat.eq_zero_or_pos k with h0 | hpos
      · exact .inr h0
      · exact .inl (h.bound hoif (by omega))
  rw [checkFloat]
  dsimp only
  refine if_neg fun hc => ?_
  rw [Bool.and_eq_true, Bool.or_eq_true, decide_eq_true_iff] at hc
  obtain ⟨hlow, hle⟩ := hc
  change w.dev.hw.low = true ∨ _ at hlow
  change _ ≤ w.dev.hw.tick at hle
  rw [h.low_eq] at hlow
  rw [h.tick_eq] at hle
  rcases hcovers with hcovers | h0
  · rcases hlow with hlow | hothers
    · rw [hcovers.own _ ht hle] at hlow
      exact Bool.noConfusion hlow
    · obtain ⟨hs, hlt⟩ := ho hothers
      have := hcovers.ack hs
      omega
  · rw [h0] at hlow ho
    rcases hlow with hlow | hothers
    · rw [sent, idle_eq, getMsbD_lowTicks (by decide) ht] at hlow
      exact absurd (of_decide_eq_true hlow) (Nat.not_lt_zero _)
    · exact not_slot (by decide) (ho hothers).1

theorem or_eight_eq {n : ℕ} (h : n < 8) : n ||| 8 = n + 8 := by
  have hall : ∀ n < 8, n ||| 8 = n + 8 := by decide
  exact hall n h

theorem loadFloatMax_handled {x : Usi} (h : x.usioif = false) : loadFloatMax x = x := by
  cases x
  change _ = false at h
  subst h
  rfl

/-- The overflow is handled. -/
theorem Loop.written (h : Loop u m hold k w) (hoif : w.dev.hw.usioif = true) (hr : Receivable u m) (h0 : u.rx.flags = 0)
    (hwin : ∀ k, 4 ≤ hold k ∧ hold k ≤ 6) :
    Loop u m hold (k + 1) ⟨writeOut ((byteTicks w.dev.hw.usibr).foldl cecProcessTick
      (counted { w.dev with hw := loadFloatMax w.dev.hw })), w.now⟩ := by
  have ht : w.now % 8 < 8 := Nat.mod_lt _ (by decide)
  have hbyte := h.byte
  have hcount := h.count
  have hwaits := h.waits
  rw [hoif, if_pos rfl] at hbyte hcount hwaits
  have hbound : Covers m (k + 1) (loadFloatMax w.dev.hw).floatTicksMax := by
    rw [loadFloatMax]
    dsimp only
    rw [if_pos hoif]
    exact h.next
  obtain ⟨x, hx⟩ : ∃ x, countIdle (floatNack (loadFloatMax w.dev.hw)) w.dev.hw.usibr = x := ⟨_, rfl⟩
  have hquiet : x.dec = w.dev.hw.dec ∧ x.xmitState = w.dev.hw.xmitState ∧ x.usidr = w.dev.hw.usidr ∧
      x.usicnt = w.dev.hw.usicnt ∧ x.driven = false ∧ x.floatTicksMax = (loadFloatMax w.dev.hw).floatTicksMax := by
    rw [← hx]
    refine ⟨rfl, rfl, rfl, rfl, ?_, rfl⟩
    change (w.dev.hw.driven && w.dev.hw.nacking) = false
    rw [h.floats, Bool.false_and]
  obtain ⟨hdec, hxmit, hdr, hcnt, hdriven, hmax⟩ := hquiet
  have hcounted : counted { w.dev with hw := loadFloatMax w.dev.hw } = { w.dev with hw := x } := by
    rw [← hx]
    rfl
  rw [hcounted, hwaits]
  obtain ⟨hturn, d, hhw⟩ := (h.turn.hw hdec hxmit).decode hr h0 hwin
  generalize (byteTicks (read m hold k)).foldl cecProcessTick { w.dev with hw := x } = t at hturn hhw ⊢
  obtain ⟨hturn', hsent, y, n, hhw', hcovers⟩ := hturn.queue hr
  have hout : (writeOut t).hw = { x with
      dec := d, xmitState := y, floatTicksMaxNext := n, usibr := sent m (k + 2), usicnt := x.usicnt ||| 8,
      usioif := false } := by
    rw [writeOut]
    dsimp only
    rw [hsent, hhw', hhw]
  have hwritten : Turn u m (k + 1) (k + 1) (writeOut t) := by
    rw [writeOut]
    exact hturn'.hw rfl rfl
  refine ⟨hwritten, ?_, ?_, ?_, ?_, ?_, ?_, fun _ _ => ?_⟩
  · rw [hout]
    exact hbyte
  · rw [hout]
    dsimp only
    rw [hcnt, hcount]
    exact or_eight_eq ht
  · rw [hout]
    exact hdr.trans h.shifts
  · rw [hout]
    rfl
  · rw [hout]
    exact hdriven
  · rw [hout]
    exact hcovers
  · rw [hout]
    dsimp only
    rw [hmax]
    exact hbound

/-- The rest of a poll does nothing. -/
theorem Loop.finished (h : Loop u m hold k w) (ho : Overhears u m) (h0 : u.rx.flags = 0)
    (haddr : u.addr = .none ∨ cecAddrReady u.addr = true) (others : Bool) :
    cecAddrPeriodic (handleAck w.dev others) = w.dev := by
  rw [handleAck_quiet (h.turn.unacked ho h0) others]
  exact h.turn.same.settled haddr

/-- A poll, which handles the overflow if there is one. -/
theorem Loop.poll (h : Loop u m hold k w) (ho : Overhears u m) (h0 : u.rx.flags = 0)
    (haddr : u.addr = .none ∨ cecAddrReady u.addr = true) (hwin : ∀ k, 4 ≤ hold k ∧ hold k ≤ 6)
    {others₁ others₂ : Bool} (hf : Fair m hold w (.poll others₁ others₂)) :
    Loop u m hold (if w.dev.hw.usioif then k + 1 else k) (w.step (.poll others₁ others₂)) := by
  have hfloat := h.float fun hc => hf (.inl hc)
  change Loop u m hold _ ⟨cecPeriodic w.dev others₁ others₂, w.now⟩
  rw [cecPeriodic, cecReceivePeriodic, hfloat]
  dsimp only
  cases hoif : w.dev.hw.usioif with
  | false =>
    rw [loadFloatMax_handled hoif, if_neg (by decide), if_neg (by decide)]
    change Loop u m hold k ⟨cecAddrPeriodic (handleAck w.dev others₂), w.now⟩
    rw [h.finished ho h0 haddr]
    exact h
  | true =>
    have hnext := h.written hoif ho.toReceivable h0 hwin
    rw [if_pos rfl, if_pos rfl, handleOverflow]
    change Loop u m hold (k + 1) ⟨cecAddrPeriodic (handleAck (writeOut ((byteTicks w.dev.hw.usibr).foldl cecProcessTick
      (counted { w.dev with hw := loadFloatMax w.dev.hw }))) others₂), w.now⟩
    rw [hnext.finished ho h0 haddr]
    exact hnext

/-! ### Attempts -/

theorem sane_run (build : Build) (addr : Addr) (is : List Step) : Sane (run step (initial build addr) is) := by
  have hstep : ∀ (s : Cec Usi) (i : Step), Sane s → Sane (step i s) := fun _ i hs => sane_step hs i
  exact invariant_run' hstep is (sane_initial build addr)

/-- An attempt begins with the decoder at rest and the first byte of the start bit queued. -/
theorem begun (build : Build) (addr : Addr) (is : List Step) (i : Step) :
    let s := run step (initial build addr) is
    let u := step i s
    attempts u.told ≠ attempts s.told → Turn u u.tx.message 0 0 u ∧ u.rx.flags = 0 ∧ u.hw.usibr = cecPatStart0 ∧
      u.hw.usioif = false ∧ u.hw.floatTicksMaxNext = 8 := by
  intro s u h
  have hsane : Sane u := sane_step (sane_run build addr is) i
  obtain ⟨others₁, others₂, rfl, ho, hxmit, hpend, hlong, -⟩ := begins h
  have hfloat := keptTx_checkFloat keptTx_framed (framed_run build addr is) others₁
  have hspaced := spaced_decoded hfloat (spaced_checkFloat (spaced_run build addr is) others₁)
  have hthree : 3 ≤ u.hw.idleFrames := by
    have hidle := step_idleFrames s others₁ others₂
    rw [if_pos ho] at hidle
    have hleast := hspaced.shortest (shortest _)
    change 3 ≤ (step (.poll others₁ others₂) s).hw.idleFrames
    rw [hidle]
    exact Nat.le_trans hleast hlong
  obtain ⟨h0, hidle⟩ := hsane.rested.ended hthree
  obtain ⟨hlast, htick⟩ := hsane.rested.high (by omega)
  have hu : u = cecAddrPeriodic (handleAck (writeOut (decoded (checkFloat s others₁))) others₂) := by
    change cecAddrPeriodic (cecReceivePeriodic s others₁ others₂) = _
    rw [cecReceivePeriodic, if_pos ho]
    rfl
  generalize decoded (checkFloat s others₁) = d at hxmit hpend hlong hu
  have hflags : (writeOut d).rx.flags = 0 := by
    rw [← handleAck_rx (writeOut d) others₂, ← addrPeriodic_flags, ← hu]
    exact h0
  rw [handleAck_quiet (by rw [hflags]; rfl)] at hu
  have hnext : cecUsiNextBit d = ({ cecTransmitStart d with
      hw := { (cecTransmitStart d).hw with floatTicksMaxNext := 8, xmitState := .start } }, cecPatStart0) := by
    rw [cecUsiNextBit, hxmit]
    exact if_pos ⟨hpend, hlong⟩
  have hhw : u.hw = { (cecTransmitStart d).hw with
      floatTicksMaxNext := 8, xmitState := .start, usibr := cecPatStart0, usicnt := d.hw.usicnt ||| 8, usioif := false } := by
    rw [hu, addrPeriodic_hw, writeOut, hnext]
    rfl
  have htold : fetched u.told = some [] := by
    rw [hu, addrPeriodic_told, writeOut, hnext]
    rfl
  have hbusy : u.tx.state.busy := by
    by_contra hb
    rw [hsane.framed.free hb] at htold
    exact absurd htold (Option.some_ne_none []).symm
  refine ⟨⟨⟨hsane.framed, Same.refl u, ?_, rfl, rfl, fun _ => htold, ?_⟩, hsane.valid, hidle, hlast, ?_⟩, h0, ?_, ?_, ?_⟩
  · rw [signsBy, if_pos (by decide), Reports, if_neg (Nat.succ_ne_zero _).symm]
    exact ⟨hbusy, rfl⟩
  · rw [hhw]
    rfl
  · omega
  · rw [hhw]
  · rw [hhw]
  · rw [hhw]

/-- The bench as an attempt begins, with nothing of an earlier byte in the data register. -/
theorem loop_start (h : Turn u m 0 0 u) (hclocked : Clocked u.hw) (hbr : u.hw.usibr = cecPatStart0)
    (hoif : u.hw.usioif = false) (hmax : u.hw.floatTicksMaxNext = 8) (hdr : u.hw.usidr = 0)
    (hdriven : u.hw.driven = false) : Loop u m hold 0 ⟨u, u.hw.tick⟩ := by
  have hlt := hclocked.lt
  have hge := hclocked.handled hoif
  have htick : u.hw.tick = u.hw.usicnt - 8 := by
    rw [Usi.tick]
    omega
  have hbyte : u.hw.tick / 8 = 0 := by omega
  refine ⟨h, ?_, ?_, ?_, ?_, hdriven, ?_, fun _ h0 => absurd rfl h0⟩
  · rw [hoif]
    exact hbyte
  · rw [hoif]
    change u.hw.usicnt = u.hw.tick % 8 + 8
    omega
  · dsimp only
    rw [hbyte, read_sent (not_slot (by decide)), hdr, sent, cecPatIdle]
    simp [shifting]
  · rw [hoif]
    exact hbr
  · rw [hmax]
    exact ⟨fun t ht h8 => absurd ht (Nat.not_lt.mpr h8), fun hs => absurd hs (not_slot (by decide))⟩

theorem loop_run (h : Loop u m hold k w) (ho : Overhears u m) (h0 : u.rx.flags = 0)
    (haddr : u.addr = .none ∨ cecAddrReady u.addr = true) (hwin : ∀ k, 4 ≤ hold k ∧ hold k ≤ 6) {is : List Step}
    (hf : Along (Fair m hold) Bench.step w is) : ∃ k, Loop u m hold k (run Bench.step w is) := by
  have hstep : ∀ w i, (∃ k, Loop u m hold k w) → Fair m hold w i → ∃ k, Loop u m hold k (Bench.step i w) := by
    rintro w i ⟨k, hk⟩ hi
    cases i with
    | tick others => exact ⟨k, hk.tick hwin hi⟩
    | poll others₁ others₂ => exact ⟨_, hk.poll ho h0 haddr hwin hi⟩
    | app a => exact absurd hi id
  exact invariant_run hstep ⟨k, h⟩ hf

/-- What the engine has been told, and what has been reported. -/
theorem Loop.heard (h : Loop u m hold k w) :
    ∃ n ≤ 10 * m.length + 1, w.dev.signs = u.signs ++ signsTo (echo m) n ∧ Reports u w.dev m n := by
  refine ⟨signsBy m k, ?_, ?_, h.turn.reports⟩
  · rw [signsBy]
    split
    · exact Nat.zero_le _
    · exact Nat.min_le_right _ _
  · rw [← engineAt_signs, Cec.signs, h.turn.same.calls]
    rfl

/-- Once the byte of the last bit has been decoded the attempt is over. -/
theorem Loop.ended (h : Loop u m hold k w) (hr : Receivable u m) (hnow : 8 * (10 * m.length + 4) ≤ w.now) :
    (w.dev.tx.state = .idle ∧ sentCount w.dev.told = sentCount u.told + 1) ∧ w.dev.hw.xmitState = .idle ∧
      w.dev.rx.flags = 0 ∧ w.dev.header = m.length ∧
      ∀ k, (hk : k < m.length) → w.dev.rx.buf (w.dev.build.hdr + 1 + k) = m[k] := by
  have hseveral := hr.several
  have hbyte := h.byte
  have hlast : 10 * m.length + 3 ≤ k := by split at hbyte <;> omega
  have hall : signsBy m k = 10 * m.length + 1 := by
    rw [signsBy, if_neg (by omega)]
    omega
  have hreports := h.turn.reports
  rw [hall, Reports, if_pos rfl] at hreports
  have hsame := h.turn.same
  rw [hall, engineAt, List.take_of_length_le (by rw [length_echo])] at hsame
  have hbuild : w.dev.build = u.build := hsame.build.trans (feed_build _ _).1
  obtain ⟨hflags, hheader, hbuf⟩ := hr.handed
  rw [Cec.header, hbuild, hsame.rx]
  exact ⟨hreports, h.turn.xmit.trans (by rw [if_neg (by omega), if_neg (by omega)]), hflags, hheader, hbuf⟩

/-- In every run, from the beginning of an attempt on, for every order of ticks and polls that handles
    each overflow in time, with others that only hold the ack slots low for four to six ticks: no error
    takes effect and no other attempt begins, what we drive is the start bit and the framing of the
    message, the engine is told of the bits of its echo in order and of nothing else, the attempt is
    under way until the last of them and then a success, and the receive buffer holds the message with a
    clean header. -/
theorem attempt_echoed (build : Build) (addr : Addr) (is : List Step) (i : Step) :
    let s := run step (initial build addr) is
    let u := step i s
    let m := u.tx.message
    attempts u.told ≠ attempts s.told → u.hw.usidr = 0 → u.hw.driven = false → Overhears u m →
      (u.addr = .none ∨ cecAddrReady u.addr = true) →
    ∀ hold : ℕ → ℕ, (∀ k, 4 ≤ hold k ∧ hold k ≤ 6) →
    ∀ js, Along (Fair m hold) Bench.step ⟨u, u.hw.tick⟩ js →
      let w := run Bench.step ⟨u, u.hw.tick⟩ js
      episodes w.dev.told = episodes u.told ∧
      w.dev.hw.low = (sent m (w.now / 8)).getMsbD (w.now % 8) ∧
      (∃ n ≤ 10 * m.length + 1, w.dev.signs = u.signs ++ signsTo (echo m) n ∧ Reports u w.dev m n) ∧
      (8 * (10 * m.length + 4) ≤ w.now →
        (w.dev.tx.state = .idle ∧ sentCount w.dev.told = sentCount u.told + 1) ∧ w.dev.hw.xmitState = .idle ∧
        w.dev.rx.flags = 0 ∧ w.dev.header = m.length ∧
        ∀ k, (hk : k < m.length) → w.dev.rx.buf (w.dev.build.hdr + 1 + k) = m[k]) := by
  intro s u m hbegin hdr hdriven ho haddr hold hwin js hf w
  obtain ⟨hturn, h0, hbr, hoif, hmax⟩ := begun build addr is i hbegin
  have hstep : ∀ (s : Cec Usi) (i : Step), Clocked s.hw → Clocked (step i s).hw := fun _ i hs => clocked_step hs i
  have hclocked : Clocked u.hw := hstep s i (invariant_run' hstep is (clocked_run build addr []))
  obtain ⟨k, hloop⟩ := loop_run (loop_start hturn hclocked hbr hoif hmax hdr hdriven) ho h0 haddr hwin hf
  exact ⟨hloop.turn.calm, hloop.low_eq, hloop.heard, hloop.ended ho.toReceivable⟩

/-- `n` byte times with the ack slots held low for five ticks, and two polls in each. -/
def answeredBytes (m : List ℕ) (n : ℕ) : List Step :=
  (List.range n).flatMap fun k =>
    (List.range 8).map (fun t => .tick (decide (Slot m k ∧ t < 5))) ++ [.poll false false, .poll false false]

/-- A message of two bytes to address 5, which acks it. -/
theorem attempt_echoed_directed :
    let s := run step (initial {} (.fixed 4)) (.app (.send [0x45, 0x36]) :: byteTimes 4 ++ List.replicate 8 (.tick false))
    let u := step (.poll false false) s
    let w := run Bench.step ⟨u, u.hw.tick⟩ (answeredBytes [0x45, 0x36] 24)
    w.dev.tx.state = .idle ∧ w.dev.header = 2 := by
  intro s u
  have hm : u.tx.message = [0x45, 0x36] := by decide +kernel
  have hrun := attempt_echoed {} (.fixed 4)
    (.app (.send [0x45, 0x36]) :: byteTimes 4 ++ List.replicate 8 (.tick false)) (.poll false false)
    (by decide +kernel) (by decide +kernel) (by decide +kernel)
    ⟨⟨by decide +kernel, by decide +kernel, by decide +kernel, by decide +kernel⟩, by decide +kernel⟩
    (.inr (by decide +kernel)) (fun _ => 5) (fun _ => by decide)
  have hended : ∀ js, Along (Fair u.tx.message fun _ => 5) Bench.step ⟨u, u.hw.tick⟩ js →
      8 * (10 * u.tx.message.length + 4) ≤ (run Bench.step ⟨u, u.hw.tick⟩ js).now →
      (run Bench.step ⟨u, u.hw.tick⟩ js).dev.tx.state = .idle ∧ (run Bench.step ⟨u, u.hw.tick⟩ js).dev.header = 2 := by
    intro js hfair hnow
    obtain ⟨-, -, -, hlast⟩ := hrun js hfair
    exact ⟨(hlast hnow).1.1, (hlast hnow).2.2.2.1.trans (congrArg List.length hm)⟩
  have hfair : Along (Fair u.tx.message fun _ => 5) Bench.step ⟨u, u.hw.tick⟩ (answeredBytes [0x45, 0x36] 24) := by
    decide +kernel
  have hnow : 8 * (10 * u.tx.message.length + 4) ≤
      (run Bench.step ⟨u, u.hw.tick⟩ (answeredBytes [0x45, 0x36] 24)).now := by
    decide +kernel
  exact hended _ hfair hnow

end Usi
end AvrCec
