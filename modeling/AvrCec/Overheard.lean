import AvrCec.Latency
import AvrCec.FreeTime

/-! What a sender overhears of its own message.

    The receive engine of its sender stays in the reception to the last bit of the echo and hands it over
    there (`Receivable.tracks`, `Receivable.handed`). The message is for someone else, and so it acks none
    of it (`Overhears.unacked`). Bit by bit the transmit engine finds the message as it was sent and on the
    last bit it is done (`Receivable.right`, `Receivable.last`). A soft driver that is polled with the echo
    makes those calls and no others, each within a gap of its sample point (`Place.within`, `Place.over`). -/

namespace AvrCec
open Lib

section
variable {D : Type} [Driver D]

/-! ### The reception of a message -/

/-- A message of several blocks, heard with the receive buffer free. -/
structure Receivable (s : Cec D) (message : List Nat) : Prop where
  free : s.header = 0
  bytes : ∀ b ∈ message, b < 256
  several : 1 < message.length
  fits : message.length ≤ cecBufferSize

/-- The message is for someone else, or for all. -/
structure Overhears (s : Cec D) (message : List Nat) : Prop extends Receivable s message where
  other : ∀ b ∈ message.head?, b % 16 ≠ cecAddrBroadcast → cecAddrMatch s.addr (b % 16) = false

theorem blocksOf_data {m : List Nat} (h : ∀ b ∈ m, b < 256) (ack : Bool) : ∀ b ∈ blocksOf ack m, b.data < 256 := by
  intro b hb
  obtain ⟨⟨x, i⟩, hx, rfl⟩ := List.mem_map.mp hb
  exact h x (List.fst_mem_of_mem_zipIdx hx)

theorem isBcast_blocksOf (m : List Nat) (ack : Bool) : IsBcast (blocksOf ack m) ↔ Broadcast m := by
  cases m with
  | nil => simp [IsBcast, Broadcast, blocksOf]
  | cons b m => simp [IsBcast, Broadcast, blocksOf]

theorem acked_echo (m : List Nat) (level : Bool) : Acked (blocksOf (ackLevel m) m) level ↔ level = ackLevel m := by
  rw [Acked, ackLevel]
  simp only [isBcast_blocksOf]

theorem echo_goesOn (m : List Nat) :
    ∀ b ∈ (blocksOf (ackLevel m) m).dropLast, GoesOn (blocksOf (ackLevel m) m) b := by
  intro b hb
  obtain ⟨i, hi, rfl⟩ := List.mem_iff_getElem.mp hb
  rw [List.length_dropLast, length_blocksOf] at hi
  rw [List.getElem_dropLast, GoesOn, acked_echo]
  constructor
  · simp only [blocksOf, List.getElem_map, List.getElem_zipIdx, decide_eq_false_iff_not]
    omega
  · simp [blocksOf]

/-- An ack slot is sent as a one. -/
theorem framing_ack {m : List Nat} {c : Nat} (hc : c < 10 * m.length) (h9 : c % 10 = 9) : (framing m)[c]? = some true := by
  have hlt : c / 10 < m.length := by omega
  rw [framing, getElem?_flat, getElem?_blocksOf, List.getElem?_eq_getElem hlt]
  simp only [Option.map_some, Option.bind_some, getElem?_bits]
  rw [if_neg (by omega), if_neg (by omega), if_pos h9]

/-- The bits before one of the echo. -/
theorem echo_before {m : List Nat} {p : List Bool} {b : Bool} (h : p ++ [b] <+: echo m) :
    p <+: echo m ∧ p ≠ echo m ∧ p.length < 10 * m.length := by
  have hlen := h.length_le
  rw [List.length_append, List.length_singleton, length_echo] at hlen
  refine ⟨(List.prefix_append p [b]).trans h, ?_, hlen⟩
  rintro rfl
  rw [length_echo] at hlen
  omega

namespace Receivable
variable {s : Cec D} {m : List Nat} {p : List Bool}

theorem tracks (h : Receivable s m) (hp : p <+: echo m) (hne : p ≠ echo m) :
    Tracks s.build.hdr s.rx.buf p (feed (cecReceiveStart s) p).rx := by
  have hfits := h.fits
  unfold cecBufferSize at hfits
  exact tracks_part s (blocksOf_data h.bytes _) (by rw [length_blocksOf]; omega) (echo_goesOn m) hp hne

theorem tracks_take (h : Receivable s m) {c : Nat} (hc : c < 10 * m.length) :
    Tracks s.build.hdr s.rx.buf ((echo m).take c) (feed (cecReceiveStart s) ((echo m).take c)).rx :=
  h.tracks (List.take_prefix ..) (take_echo_ne hc)

theorem kept (h : Receivable s m) (hp : p <+: echo m) (hne : p ≠ echo m) :
    (feed (cecReceiveStart s) p).rx.flags.ignore = false := by
  have hfits := h.fits
  unfold cecBufferSize at hfits
  exact free_part s h.free (blocksOf_data h.bytes _) (by rw [length_blocksOf]; omega) (echo_goesOn m) hp hne

omit [Driver D] in
/-- The first byte of the echo is the message's. -/
theorem byteAt_zero (h : Receivable s m) (hp : p <+: echo m) (h8 : 8 ≤ p.length) :
    byteAt p 0 = m.headD 0 ∧ decide (Broadcast m) = decide (m.headD 0 % 16 = cecAddrBroadcast) := by
  obtain ⟨l, hl⟩ := hp
  have hpos : 0 < (blocksOf (ackLevel m) m).length := by
    have := h.several
    rw [length_blocksOf]
    omega
  rw [← byteAt_append (k := 0) h8 l, hl, echo, byteAt_flat (blocksOf_data h.bytes _) hpos]
  cases m with
  | nil => exact absurd h.several (by decide)
  | cons b m => simp [blocksOf, Broadcast]

/-- Whether a block is acked is decided by the first. -/
theorem doAck (h : Receivable s m) (hp : p <+: echo m) (hne : p ≠ echo m) :
    (feed (cecReceiveStart s) p).rx.flags.doAck = (decide (0 < blocks p) && !decide (Broadcast m) &&
      cecAddrMatch s.addr (m.headD 0 % 16)) := by
  induction p using List.reverseRecOn with
  | nil => rfl
  | append_singleton p b ih =>
    obtain ⟨hp', hne', hlt⟩ := echo_before hp
    have ht := h.tracks hp' hne'
    have ht' := h.tracks hp hne
    have hb := feed_build (cecReceiveStart s) p
    have hhdr : (feed (cecReceiveStart s) p).build.hdr = s.build.hdr := by rw [hb.1]; rfl
    rw [feed_concat] at ht' ⊢
    by_cases h7 : phase p = 7
    · have hheader : (feed (cecReceiveStart s) p).header = 0 := by
        rw [Cec.header, hhdr]
        exact ht.header.trans h.free
      have haddr : (feed (cecReceiveStart s) p).addr = s.addr := hb.2
      have hpos := ht.pos
      have hfits := h.fits
      unfold cecBufferSize at hfits
      have hphase := h7
      unfold phase at hphase
      have hblocks : blocks p < 16 := by
        unfold blocks
        omega
      rw [Nat.mod_eq_of_lt (by omega)] at hpos
      rw [← hhdr] at ht
      have hfull : (blocks p == cecBufferSize) = false := by
        rw [beq_eq_false_iff_ne]
        unfold cecBufferSize
        omega
      rw [receiveBit_flags ht h7, doneFlags_doAck, refused, hheader, hpos, ih hp' hne', haddr, hfull, blocks_done h7,
        decide_eq_true (Nat.succ_pos (blocks p)), Bool.true_and]
      simp only [bne_self_eq_false, Bool.and_false, Bool.or_false, Bool.false_eq_true, if_false]
      by_cases h0 : blocks p = 0
      · obtain ⟨hbyte, hcast⟩ := h.byteAt_zero hp (by
          rw [List.length_append, List.length_singleton]
          omega)
        rw [h0, hbyte, hcast]
        generalize m.headD 0 = x
        by_cases h15 : x % 16 = cecAddrBroadcast <;> simp [h15]
      · rw [beq_eq_false_iff_ne.mpr h0, decide_eq_true (Nat.pos_of_ne_zero h0)]
        simp
    · rw [← hhdr] at ht
      rw [blocks_concat h7, ← ih hp' hne']
      refine (receiveBit_policy ht h7 fun h9 => ?_).1
      by_contra hends
      have := ack_ends ht h9 (Bool.eq_true_of_not_eq_false hends)
      exact ht'.flags_ne (by rw [this])

/-- The last bit of the echo is its last ack. -/
theorem echo_last {m : List Nat} (hm : m ≠ []) : echo m = (echo m).take (10 * m.length - 1) ++ [ackLevel m] := by
  have hpos := List.length_pos_iff.mpr hm
  have hbit := getElem?_echo m (10 * m.length - 1) (by omega)
  rw [if_pos (by omega)] at hbit
  have htake := List.take_add_one (l := echo m) (i := 10 * m.length - 1)
  rw [hbit, List.take_of_length_le (by rw [length_echo]; omega)] at htake
  exact htake

/-- The engine hands the message over with its last ack. -/
theorem handed (h : Receivable s m) :
    let t := feed (cecReceiveStart s) (echo m)
    t.rx.flags = 0 ∧ t.rx.buf s.build.hdr = m.length ∧
      ∀ k, (hk : k < m.length) → t.rx.buf (s.build.hdr + 1 + k) = m[k] := by
  intro t
  have hseveral := h.several
  have hfits := h.fits
  unfold cecBufferSize at hfits
  have hne : m ≠ [] := List.ne_nil_of_length_pos (by omega)
  have hsplit := echo_last hne
  have heom := echo_eom (m := m) (n := 10 * m.length - 2) (by omega) (by omega)
  have ht := h.tracks_take (c := 10 * m.length - 1) (by omega)
  have hlen := length_take_echo (Nat.sub_le (10 * m.length) 1)
  have hpre : (echo m).take (10 * m.length - 1) <+: echo m := List.take_prefix ..
  have hlast : ((echo m).take (10 * m.length - 1)).getLastD false = true := by
    have htake := List.take_add_one (l := echo m) (i := 10 * m.length - 2)
    rw [heom, decide_eq_true (by omega), show 10 * m.length - 2 + 1 = 10 * m.length - 1 by omega] at htake
    rw [htake, Option.toList_some, getLastD_concat]
  have hkept := h.kept hpre (take_echo_ne (by omega))
  have hdone : t = cecReceiveBit (feed (cecReceiveStart s) ((echo m).take (10 * m.length - 1))) (ackLevel m) := by
    rw [← feed_concat, ← hsplit]
  have hb := (feed_build (cecReceiveStart s) ((echo m).take (10 * m.length - 1))).1
  have hhdr : (feed (cecReceiveStart s) ((echo m).take (10 * m.length - 1))).build.hdr = s.build.hdr := by rw [hb]; rfl
  generalize feed (cecReceiveStart s) ((echo m).take (10 * m.length - 1)) = u at ht hkept hdone hhdr
  generalize hp : (echo m).take (10 * m.length - 1) = p at ht hlen hsplit hlast hpre
  have h9 : phase p = 9 := by
    unfold phase
    omega
  have hblocks : blocks p = m.length := by
    unfold blocks
    omega
  have hack : u.rx.flags.ack (ackLevel m) = true := by
    refine (ack_iff ht (blocksOf_data h.bytes (ackLevel m)) hpre (by omega) (by omega) _).mpr ?_
    rw [acked_echo]
  have hends : u.rx.ends (ackLevel m) = true := by
    rw [Receive.ends, ht.eom, h9, hlast, hack]
    rfl
  have hover := ht.overrun
  have hpos := ht.pos
  have hbuf := ht.buf
  rw [hblocks] at hover hpos
  rw [decide_eq_false (by unfold cecBufferSize; omega)] at hover
  rw [Nat.mod_eq_of_lt (by omega)] at hpos
  rw [hkept, if_neg (by decide)] at hbuf
  have hend := ack_ends (by rw [hhdr]; exact ht) h9 hends
  rw [← hdone, hkept, if_neg (by decide), hhdr, Receive.headerByte, hack, hpos, hbuf] at hend
  rw [hend]
  refine ⟨rfl, ?_, fun k hk => ?_⟩
  · dsimp only
    rw [Function.update_self, status_eq _ (by omega), hover]
    rfl
  · dsimp only
    have hlt : k < (blocksOf (ackLevel m) m).length := by rwa [length_blocksOf]
    rw [Function.update_of_ne (by omega), fill, if_pos (by rw [hblocks]; unfold cecBufferSize; omega),
      show s.build.hdr + 1 + k - s.build.hdr - 1 = k by omega,
      ← byteAt_append (lt_blocks (by omega)) [ackLevel m], ← hsplit, echo, byteAt_flat (blocksOf_data h.bytes _) hlt]
    simp [blocksOf]

/-! ### The echo, in the transmit engine -/

/-- Short of the last ack a bit of the echo is the bit that the transmit engine expects. -/
theorem right (h : Receivable s m) {v : Cec D} {hdr : Nat} {buf₀ : Nat → Nat} {c : Nat}
    (ht : Tracks hdr buf₀ ((echo m).take c) v.rx) (hc : c + 1 < 10 * m.length) (hm : v.tx.message = m)
    (hf : v.tx.Fetched ((framing m).take (c + 2))) {b : Bool} (hb : (echo m)[c]? = some b) :
    heardByTransmit v b = v.emit (.bit b) := by
  have hfits := h.fits
  unfold cecBufferSize at hfits
  have hlen : ((echo m).take c).length = c := length_take_echo (by omega)
  have hfetched : ((framing m).take (c + 2)).length = c + 2 := by
    rw [List.length_take, length_framing]
    omega
  rw [getElem?_echo m c (by omega)] at hb
  rw [heardByTransmit]
  by_cases h9 : c % 10 = 9
  · rw [if_pos h9] at hb
    have heom : v.rx.flags.bitsEom = false := by
      rw [ht.bitsEom, phase, hlen, h9]
      rfl
    have hack : v.rx.flags.ack b = true :=
      (ack_echo ht (by omega) (by omega) (by omega) b).mpr (Option.some.inj hb).symm
    have hw : ¬ (v.emit (.bit b)).tx.state = .waitForAck := by
      intro hw
      have hwhole := congrArg List.length (hf.whole_iff.mpr hw)
      rw [hfetched, hm, length_framing] at hwhole
      omega
    rw [heom, if_neg (by decide), cecTransmitReceiveAck, hack, if_pos rfl, if_neg hw]
  · rw [if_neg h9] at hb
    have heom : v.rx.flags.bitsEom = true := by
      rw [ht.bitsEom, phase, hlen]
      exact decide_eq_true h9
    obtain ⟨x, hx, hdelayed⟩ := delayed_framing hf (c := c) hfetched.symm
    rw [hm, hb] at hx
    have hright : ¬ b.toNat ≠ (v.emit (.bit b)).tx.delayed := by
      rw [not_ne_iff, Option.some.inj hx]
      exact hdelayed.symm
    rw [heom, if_pos rfl, cecCheckTxBit, if_neg hright]

/-- On the last ack it is done. -/
theorem last (h : Receivable s m) {v : Cec D} {hdr : Nat} {buf₀ : Nat → Nat} {c : Nat}
    (ht : Tracks hdr buf₀ ((echo m).take c) v.rx) (hc : c + 1 = 10 * m.length) (hm : v.tx.message = m)
    (hf : v.tx.Fetched (framing m)) {b : Bool} (hb : (echo m)[c]? = some b) :
    heardByTransmit v b = { (v.emit (.bit b)).emit (.sent m) with tx := { v.tx with state := .idle } } := by
  have hfits := h.fits
  unfold cecBufferSize at hfits
  have hlen : ((echo m).take c).length = c := length_take_echo (by omega)
  rw [getElem?_echo m c (by omega), if_pos (by omega)] at hb
  have heom : v.rx.flags.bitsEom = false := by
    rw [ht.bitsEom, phase, hlen, show c % 10 = 9 by omega]
    rfl
  have hack : v.rx.flags.ack b = true :=
    (ack_echo ht (by omega) (by omega) (by omega) b).mpr (Option.some.inj hb).symm
  have hw : (v.emit (.bit b)).tx.state = .waitForAck := hf.whole_iff.mp (by rw [hm])
  rw [heardByTransmit, heom, if_neg (by decide), cecTransmitReceiveAck, hack, if_pos rfl, if_pos hw, emit_tx, hm]
  rfl

end Receivable

namespace Overhears
variable {s : Cec D} {m : List Nat} {p : List Bool}

/-- None of its blocks is acked. -/
theorem unacked (h : Overhears s m) (hp : p <+: echo m) (hne : p ≠ echo m) :
    (feed (cecReceiveStart s) p).rx.flags.doAck = false := by
  rw [h.doAck hp hne]
  by_cases hcast : Broadcast m
  · simp [hcast]
  · obtain ⟨b, hb⟩ : ∃ b, m.head? = some b := by
      have hseveral := h.several
      cases m with
      | nil => exact absurd hseveral (by decide)
      | cons b m => exact ⟨b, rfl⟩
    have hother := h.other b (Option.mem_def.mpr hb)
    rw [show m.headD 0 = b by rw [List.headD_eq_head?_getD, hb]; rfl, hother fun h15 => hcast ⟨b, hb, h15⟩, Bool.and_false]

end Overhears

/-! ### The calls of the engine, in order -/

/-- The starts, bits and errors that the engine has been told of, oldest first. -/
def Cec.signs (s : Cec D) : List Ev := (s.calls.filter (· ≠ .done)).reverse

omit [Driver D] in
theorem signs_log {s t : Cec D} (es : List Ev) (h : t.log = es ++ s.log) :
    t.signs = s.signs ++ ((es.filter Ev.ofDecoder).filter (· ≠ .done)).reverse := by
  rw [Cec.signs, Cec.calls, h, List.filter_append, List.filter_append, List.reverse_append]
  rfl

omit [Driver D] in
theorem signs_files {es : List Ev} (hes : ∀ e ∈ es, e.files = true) :
    (es.filter Ev.ofDecoder).filter (· ≠ .done) = [] := by
  rw [List.filter_filter, List.filter_eq_nil_iff]
  intro e he
  have hfile := hes e he
  cases e <;> first | exact Bool.noConfusion hfile | simp [Ev.ofDecoder]

theorem onError_signs (s : Cec D) (err : Err) : (cecTransmitOnError s err).signs = s.signs := by
  rw [cecTransmitOnError]
  split
  · exact (signs_log [.abort err] rfl).trans (List.append_nil _)
  · rfl

theorem heardByTransmit_signs (s : Cec D) (b : Bool) : (heardByTransmit s b).signs = s.signs ++ [.bit b] := by
  have hemit : (s.emit (.bit b)).signs = s.signs ++ [.bit b] := signs_log [.bit b] rfl
  rw [heardByTransmit]
  split
  · rw [cecCheckTxBit]
    split
    · rw [onError_signs, hemit]
    · exact hemit
  · rw [cecTransmitReceiveAck]
    split
    · split
      · exact signs_log [.sent s.tx.message, .bit b] rfl
      · exact hemit
    · rw [onError_signs, hemit]

theorem receiveBit_signs (s : Cec D) (b : Bool) : (cecReceiveBit s b).signs = s.signs ++ [.bit b] := by
  obtain ⟨es, hlog, hes⟩ := receiveBit_log s b
  rw [signs_log es hlog, signs_files hes, heardByTransmit_signs]
  exact List.append_nil _

theorem receiveStart_signs (s : Cec D) : (cecReceiveStart s).signs = s.signs ++ [.start] :=
  signs_log [.start] rfl

theorem receiveError_signs {s : Cec D} (h : s.rx.flags ≠ 0) (err : Err) :
    (cecReceiveError s err).signs = s.signs ++ [.error err] := by
  have hemit : (s.emit (.error err)).signs = s.signs ++ [.error err] := signs_log [.error err] rfl
  rw [cecReceiveError, if_neg h]
  exact (onError_signs ..).trans hemit

theorem feed_signs (s : Cec D) (bits : List Bool) : (feed s bits).signs = s.signs ++ bits.map .bit := by
  induction bits generalizing s with
  | nil => exact (List.append_nil _).symm
  | cons b bits ih =>
    change (feed (cecReceiveBit s b) bits).signs = _
    rw [ih, receiveBit_signs, List.append_assoc]
    rfl

/-- What the engine has been told of once it has heard `k` signs of a waveform. -/
def signsTo (bits : List Bool) : Nat → List Ev
  | 0 => []
  | k + 1 => .start :: (bits.take k).map .bit

/-- The engine then. -/
def engineAt (s : Cec D) (bits : List Bool) : Nat → Cec D
  | 0 => s
  | k + 1 => feed (cecReceiveStart s) (bits.take k)

theorem engineAt_signs (s : Cec D) (bits : List Bool) (k : Nat) :
    (engineAt s bits k).signs = s.signs ++ signsTo bits k := by
  cases k with
  | zero => exact (List.append_nil _).symm
  | succ k =>
    rw [engineAt, feed_signs, receiveStart_signs, List.append_assoc]
    rfl

theorem engineAt_build (s : Cec D) (bits : List Bool) (k : Nat) : (engineAt s bits k).build = s.build := by
  cases k with
  | zero => rfl
  | succ k => exact (feed_build _ _).1

theorem engineAt_addr (s : Cec D) (bits : List Bool) (k : Nat) : (engineAt s bits k).addr = s.addr := by
  cases k with
  | zero => rfl
  | succ k => exact (feed_build _ _).2

theorem length_signsTo {bits : List Bool} {k : ℕ} (hk : k ≤ bits.length + 1) : (signsTo bits k).length = k := by
  cases k with
  | zero => rfl
  | succ k =>
    rw [signsTo, List.length_cons, List.length_map, List.length_take]
    omega

theorem getElem?_signsTo (bits : List Bool) (k c : ℕ) :
    (signsTo bits k)[c + 1]? = if c + 1 < k then (bits[c]?).map .bit else none := by
  cases k with
  | zero => simp [signsTo]
  | succ k =>
    rw [signsTo, List.getElem?_cons_succ, List.getElem?_map, List.getElem?_take]
    by_cases h : c < k
    · rw [if_pos h, if_pos (by omega)]
    · rw [if_neg h, if_neg (by omega)]
      rfl

/-- The calls tell how far the engine is. -/
theorem sign_unique {s t : Cec D} {bits : List Bool} {k k' : Nat} (hk : k ≤ bits.length + 1) (hk' : k' ≤ bits.length + 1)
    (h : Same (engineAt s bits k) t) (h' : Same (engineAt s bits k') t) : k = k' := by
  have hsigns : s.signs ++ signsTo bits k = s.signs ++ signsTo bits k' := by
    rw [← engineAt_signs, ← engineAt_signs, Cec.signs, Cec.signs, ← h.calls, ← h'.calls]
  have hlen := congrArg List.length (List.append_cancel_left hsigns)
  rwa [length_signsTo hk, length_signsTo hk'] at hlen

omit [Driver D] in
theorem Same.trans {e t u : Cec D} (h : Same e t) (h' : Same t u) : Same e u :=
  ⟨h'.build.trans h.build, h'.addr.trans h.addr, h'.rx.trans h.rx, h'.calls.trans h.calls⟩

/-! ### The report -/

/-- The success is reported with the last sign of the echo, and the attempt is under way until then. -/
def Reports (u t : Cec D) (m : List Nat) (k : Nat) : Prop :=
  if k = 10 * m.length + 1 then t.tx.state = .idle ∧ sentCount t.told = sentCount u.told + 1
  else t.tx.state.busy ∧ sentCount t.told = sentCount u.told

omit [Driver D] in
theorem Reports.congr {u t z : Cec D} {m : List Nat} {k : Nat} (h : Reports u t m k) (htx : z.tx.state = t.tx.state)
    (htold : z.told = t.told) : Reports u z m k := by
  rw [Reports, htx, htold]
  exact h

/-- One more bit of the echo, heard with the bit after it fetched, leaves the transmit driver alone. -/
theorem Receivable.heard {u v : Cec D} {m : List Nat} (h : Receivable u m) {c : Nat} {bit : Bool}
    (hbit : (echo m)[c]? = some bit) (hrx : v.rx = (feed (cecReceiveStart u) ((echo m).take c)).rx)
    (hm : v.tx.message = m) (hf : v.tx.Fetched ((framing m).take (c + 2))) (hr : Reports u v m (c + 1)) :
    (cecReceiveBit v bit).hw = v.hw ∧ episodes (cecReceiveBit v bit).told = episodes v.told ∧
      (cecReceiveBit v bit).tx = { v.tx with state := (cecReceiveBit v bit).tx.state } ∧
      (c + 1 < 10 * m.length → (cecReceiveBit v bit).tx = v.tx ∧ (cecReceiveBit v bit).told = v.told) ∧ Reports u (cecReceiveBit v bit) m (c + 2) := by
  have hc : c < 10 * m.length := by
    have := (List.getElem?_eq_some_iff.mp hbit).1
    rwa [length_echo] at this
  rw [Reports, if_neg (by omega)] at hr
  obtain ⟨hbusy, hsent⟩ := hr
  have htx := (sameTransmit_receiveBit v bit).tx
  have hhw := (sameTransmit_receiveBit v bit).hw
  have htold := (sameTransmit_receiveBit v bit).told
  have htracks : Tracks u.build.hdr u.rx.buf ((echo m).take c) v.rx := by
    rw [hrx]
    exact h.tracks_take hc
  have hemit : (v.emit (.bit bit)).told = v.told := emit_told v rfl
  rcases Nat.lt_or_ge (c + 1) (10 * m.length) with hlt | hge
  · rw [h.right htracks hlt hm hf hbit] at htx hhw htold
    rw [hemit] at htold
    rw [htx, hhw, htold]
    refine ⟨rfl, rfl, rfl, fun _ => ⟨rfl, rfl⟩, ?_⟩
    rw [Reports, if_neg (by omega), htx, htold]
    exact ⟨hbusy, hsent⟩
  · rw [List.take_of_length_le (by rw [length_framing]; omega)] at hf
    rw [h.last htracks (by omega) hm hf hbit] at htx hhw htold
    replace htold : (cecReceiveBit v bit).told = .sent m :: v.told := by
      rw [htold, ← hemit]
      rfl
    rw [htx, hhw, htold]
    refine ⟨rfl, ?_, rfl, fun hlt => by omega, ?_⟩
    · simp [episodes, attempts, failures]
    · rw [Reports, if_pos (by omega), htx, htold, sentCount, List.countP_cons, ← sentCount, hsent]
      exact ⟨rfl, rfl⟩

theorem getBit_busy {t : Transmit} (h : t.state.busy) (present : Nat) : (t.getBit present).1.state.busy := by
  rw [Transmit.getBit]
  split
  · exact h
  · dsimp only
    split
    · exact (by decide : TransmitState.ack.busy)
    · split
      · exact (by decide : TransmitState.waitForAck.busy)
      · exact (by decide : TransmitState.bitEom.busy)

theorem not_pending_of {x : TransmitState} (h : x.busy ∨ x = .idle) : ¬ x.pending := by
  rcases h with h | rfl
  · cases x <;> first | decide | exact absurd h (by decide)
  · decide

omit [Driver D] in
/-- The address module has nothing to do. -/
theorem addrPeriodic_settled {s : Cec D} (h : s.addr = .none ∨ cecAddrReady s.addr = true) :
    cecAddrPeriodic s = s := by
  rw [cecAddrPeriodic]
  split
  · next heq =>
    rw [heq] at h
    rcases h with h | h
    · exact Addr.noConfusion h
    · rw [heq, if_pos h]
  · rfl

theorem Same.settled {u s : Cec D} {bits : List Bool} {k : Nat} (h : Same (engineAt u bits k) s)
    (haddr : u.addr = .none ∨ cecAddrReady u.addr = true) : cecAddrPeriodic s = s := by
  refine addrPeriodic_settled ?_
  rwa [h.addr, engineAt_addr]

end

namespace Soft

/-! ### The calls of a poll -/

/-- `t` is `s` but for the receive driver's variables. -/
def Moved (s t : Cec Soft) : Prop := ∃ u : Soft, u.pwm = s.hw.pwm ∧ t = { s with hw := u }

namespace Moved
variable {s t u : Cec Soft}

theorem refl (s : Cec Soft) : Moved s s := ⟨s.hw, rfl, rfl⟩

theorem trans (h : Moved s t) (h' : Moved t u) : Moved s u := by
  obtain ⟨x, hx, rfl⟩ := h
  obtain ⟨y, hy, rfl⟩ := h'
  exact ⟨y, hy.trans hx, rfl⟩

theorem hw {x : Soft} (h : x.pwm = s.hw.pwm) : Moved s { s with hw := x } := ⟨x, h, rfl⟩

theorem signs (h : Moved s t) : t.signs = s.signs := by
  obtain ⟨x, -, rfl⟩ := h
  rfl

theorem rx (h : Moved s t) : t.rx = s.rx := by
  obtain ⟨x, -, rfl⟩ := h
  rfl

theorem tx (h : Moved s t) : t.tx = s.tx := by
  obtain ⟨x, -, rfl⟩ := h
  rfl

theorem told (h : Moved s t) : t.told = s.told := by
  obtain ⟨x, -, rfl⟩ := h
  rfl

theorem pwm (h : Moved s t) : t.hw.pwm = s.hw.pwm := by
  obtain ⟨x, hx, rfl⟩ := h
  exact hx

end Moved

/-- What one poll tells the engine: nothing, a start, the level read as a bit, or more than that. -/
inductive Poll (s t : Cec Soft) (level : Bool) : Prop
  | quiet (moved : Moved s t)
  | start {v : Cec Soft} (before : Moved s v) (after : Moved (cecReceiveStart v) t)
  | bit {v : Cec Soft} (before : Moved s v) (after : Moved (cecReceiveBit v level) t)
  | more (new : List Ev) (signs : t.signs = s.signs ++ new)
      (more : (∃ err, .error err ∈ new) ∨ new = [.bit level, .start])

/-- The edge of a poll. -/
theorem edge_moves (w : Cec Soft) (level : Bool) : Moved w (softEdge w level) ∨
    (∃ v, Moved w v ∧ softEdge w level = cecReceiveStart v) ∨
    ∃ err, (softEdge w level).signs = w.signs ++ [.error err] := by
  rw [softEdge]
  split
  · rw [softHold]
    split
    · by_cases h0 : w.rx.flags = 0
      · rw [receiveError_zero h0]
        exact .inl (Moved.refl w)
      · exact .inr (.inr ⟨_, receiveError_signs h0 _⟩)
    · exact .inl (Moved.refl w)
  · split
    · have hperiod : ∀ (v : Cec Soft) (n : ℕ), Moved v { v with hw := { v.hw with receiveFramePeriod := n } } :=
        fun _ _ => Moved.hw rfl
      rw [softRise]
      split
      · exact .inr (.inl ⟨_, hperiod w _, rfl⟩)
      · exact .inl (Moved.refl w)
    · have hbegun : ∀ (v : Cec Soft) (n : ℕ), Moved v (begun v n) := fun _ _ => Moved.hw rfl
      have harmed : ∀ v : Cec Soft, Moved v (armed v) := fun _ => Moved.hw rfl
      have hacking : ∀ (v : Cec Soft) (n : ℕ), Moved v (acking v n) := fun _ _ => Moved.hw rfl
      by_cases hearly : w.rx.flags ≠ 0 ∧ w.hw.receiveFrameTimer < w.hw.receiveFramePeriod
      · have hbegun_eq : ∀ (v : Cec Soft) (n : ℕ),
            { v with hw := { v.hw with receiveFramePeriod := n, receiveFrameTimer := 0 } } = begun v n := fun _ _ => rfl
        right
        right
        rw [softFall, hbegun_eq, if_pos hearly.1, if_pos hearly.2, (hbegun _ _).signs]
        exact ⟨_, receiveError_signs hearly.1 _⟩
      · left
        rw [softFall_eq fun h0 => Nat.not_lt.mp fun hlt => hearly ⟨h0, hlt⟩]
        split
        · split
          · exact (hacking w _).trans ((harmed _).trans (hbegun _ _))
          · exact (harmed w).trans (hbegun _ _)
        · exact hbegun w _

theorem recv_polls (t : Cec Soft) (d : ℕ) (level : Bool) : Poll t (step (.recv d level) t) level := by
  have hcount : Moved t (softCount t d) := Moved.hw rfl
  have hunsampled : Moved (softCount t d) (unsampled (softCount t d)) := Moved.hw rfl
  have hfloat : ∀ u : Cec Soft, Moved u (softFloat u) := by
    intro u
    rw [softFloat]
    split
    · exact Moved.hw rfl
    · exact Moved.refl u
  have hlastly : ∀ u : Cec Soft, Moved u (lastly u level) := fun _ => Moved.hw rfl
  -- the sample, then the edge
  have hsample : Moved t (sampled t d level) ∨
      (∃ v, Moved t v ∧ sampled t d level = cecReceiveBit v level) ∨
      ∃ err, (sampled t d level).signs = t.signs ++ [.error err] := by
    rw [sampled, softSample_eq]
    split
    · split
      · by_cases h0 : (unsampled (softCount t d)).rx.flags = 0
        · rw [receiveError_zero h0]
          exact .inl (hcount.trans hunsampled)
        · exact .inr (.inr ⟨_, receiveError_signs h0 _⟩)
      · exact .inr (.inl ⟨_, hcount.trans hunsampled, rfl⟩)
    · exact .inl hcount
  rw [step_recv]
  generalize sampled t d level = u at hsample
  have hu := hfloat u
  generalize softFloat u = w at hu
  have hedge := edge_moves w level
  generalize softEdge w level = z at hedge
  have hz := hlastly z
  generalize lastly z level = y at hz
  rcases hsample with hm | ⟨v, hv, rfl⟩ | ⟨err, herr⟩
  · rcases hedge with he | ⟨v, hv, rfl⟩ | ⟨err, herr⟩
    · exact .quiet (hm.trans (hu.trans (he.trans hz)))
    · exact .start (hm.trans (hu.trans hv)) hz
    · refine .more [.error err] ?_ (.inl ⟨err, List.mem_singleton_self _⟩)
      rw [hz.signs, herr, hu.signs, hm.signs]
  · rcases hedge with he | ⟨v', hv', rfl⟩ | ⟨err, herr⟩
    · exact .bit hv (hu.trans (he.trans hz))
    · refine .more [.bit level, .start] ?_ (.inr rfl)
      rw [hz.signs, receiveStart_signs, hv'.signs, hu.signs, receiveBit_signs, hv.signs, List.append_assoc]
      rfl
    · refine .more [.bit level, .error err] ?_ (.inl ⟨err, by simp⟩)
      rw [hz.signs, herr, hu.signs, receiveBit_signs, hv.signs, List.append_assoc]
      rfl
  · have hmore : ∃ new, y.signs = u.signs ++ new := by
      rcases hedge with he | ⟨v', hv', rfl⟩ | ⟨err', herr'⟩
      · exact ⟨[], by rw [hz.signs, he.signs, hu.signs, List.append_nil]⟩
      · exact ⟨[.start], by rw [hz.signs, receiveStart_signs, hv'.signs, hu.signs]⟩
      · exact ⟨[.error err'], by rw [hz.signs, herr', hu.signs]⟩
    obtain ⟨new, hnew⟩ := hmore
    refine .more (.error err :: new) ?_ (.inl ⟨err, List.mem_cons_self ..⟩)
    rw [hnew, herr, List.append_assoc]
    rfl

/-! ### The polls of an echo -/

/-- What a poll tells the engine is the next sign of the waveform, if there is one. -/
inductive Tells (bits : List Bool) (t z : Cec Soft) (k k' : ℕ) : Prop
  | quiet (same : k' = k) (moved : Moved t z)
  | start {v : Cec Soft} (first : k = 0 ∧ k' = 1) (before : Moved t v) (after : Moved (cecReceiveStart v) z)
  | bit {v : Cec Soft} {c : ℕ} {b : Bool} (next : k = c + 1 ∧ k' = c + 2) (is : bits[c]? = some b)
      (before : Moved t v) (after : Moved (cecReceiveBit v b) z)

theorem Poll.tells {s t z : Cec Soft} {level : Bool} (h : Poll t z level) {bits : List Bool} {k k' : ℕ}
    (hk : k ≤ bits.length + 1) (hk' : k' ≤ bits.length + 1) (ht : Same (engineAt s bits k) t)
    (hz : Same (engineAt s bits k') z) : Tells bits t z k k' := by
  have hts : t.signs = s.signs ++ signsTo bits k := by
    rw [Cec.signs, ht.calls, ← Cec.signs, engineAt_signs]
  have hzs : z.signs = s.signs ++ signsTo bits k' := by
    rw [Cec.signs, hz.calls, ← Cec.signs, engineAt_signs]
  have hnew : ∀ new, z.signs = t.signs ++ new → signsTo bits k' = signsTo bits k ++ new := by
    intro new heq
    rw [hzs, hts, List.append_assoc] at heq
    exact List.append_cancel_left heq
  have hcount : ∀ new, z.signs = t.signs ++ new → k' = k + new.length := by
    intro new heq
    have hlen := congrArg List.length (hnew new heq)
    rwa [List.length_append, length_signsTo hk, length_signsTo hk'] at hlen
  have hget : ∀ new, z.signs = t.signs ++ new → ∀ c, (signsTo bits k')[k + c]? = new[c]? := by
    intro new heq c
    rw [hnew new heq, List.getElem?_append_right (by rw [length_signsTo hk]; omega), length_signsTo hk,
      Nat.add_sub_cancel_left]
  cases h with
  | quiet moved =>
    have heq : z.signs = t.signs ++ [] := by rw [moved.signs, List.append_nil]
    exact .quiet (hcount [] heq) moved
  | @start v before after =>
    have heq : z.signs = t.signs ++ [.start] := by rw [after.signs, receiveStart_signs, before.signs]
    have hone := hcount _ heq
    refine .start ?_ before after
    rcases Nat.eq_zero_or_pos k with rfl | hpos
    · exact ⟨rfl, hone⟩
    · obtain ⟨c, rfl⟩ := Nat.exists_eq_add_of_le' hpos
      have hat := hget _ heq 0
      rw [Nat.add_zero, getElem?_signsTo] at hat
      split at hat
      · cases hc : bits[c]? <;> rw [hc] at hat <;> simp at hat
      · simp at hat
  | @bit v before after =>
    have heq : z.signs = t.signs ++ [.bit level] := by rw [after.signs, receiveBit_signs, before.signs]
    have hone := hcount _ heq
    have hat := hget _ heq 0
    rcases Nat.eq_zero_or_pos k with rfl | hpos
    · obtain rfl : k' = 1 := hone
      simp [signsTo] at hat
    · obtain ⟨c, rfl⟩ := Nat.exists_eq_add_of_le' hpos
      rw [Nat.add_zero, getElem?_signsTo, if_pos (by rw [hone]; simp)] at hat
      refine .bit ⟨rfl, hone⟩ ?_ before after
      cases hc : bits[c]? with
      | none =>
        rw [hc] at hat
        simp at hat
      | some b =>
        rw [hc] at hat
        simpa using hat
  | more new heq hmore =>
    exfalso
    rcases hmore with ⟨err, hmem⟩ | rfl
    · have hmem' : Ev.error err ∈ signsTo bits k' := by
        rw [hnew new heq]
        exact List.mem_append_right _ hmem
      cases k' with
      | zero => simp [signsTo] at hmem'
      | succ k' =>
        obtain ⟨b, -, hb⟩ := List.mem_map.mp ((List.mem_cons.mp hmem').resolve_left Ev.noConfusion)
        exact Ev.noConfusion hb
    · have hat := hget _ heq 1
      rw [getElem?_signsTo] at hat
      split at hat
      · cases hc : bits[k]? <;> rw [hc] at hat <;> simp at hat
      · simp at hat

/-! ### The signs of an echo in time -/

theorem duration_const {ps : List (Pulse ℝ)} {period : ℝ} (h : ∀ p ∈ ps, p.total = period) :
    duration ps = ps.length * period := by
  induction ps with
  | nil => simp [duration]
  | cons p ps ih =>
    rw [List.forall_mem_cons] at h
    rw [duration_cons, ih h.2, h.1, List.length_cons]
    push_cast
    ring

/-- The engine has had `k` signs of the echo, `x` after the falling edge of its start bit, and each of
    them less than a gap after its time. -/
structure Within (gap : ℕ) (s t : Cec Soft) (start : Pulse ℝ) (period : ℝ) (m : List ℕ) (k : ℕ) (x : ℝ) : Prop where
  le : k ≤ 10 * m.length + 1
  same : Same (engineAt s (echo m) k) t
  early : k = 0 → x < start.low
  begun : k ≠ 0 → start.low ≤ x
  after : ∀ c : ℕ, k = c + 2 → start.total + c * period + usToJiffies s.build cecT3 < x
  before : ∀ c : ℕ, k = c + 1 → c < 10 * m.length → x < start.total + c * period + usToJiffies s.build cecT3 + gap

section
variable {gap : ℕ} {s t : Cec Soft} {start : Pulse ℝ} {m : List ℕ} {ps : List (Pulse ℝ)} {x period : ℝ}

theorem allDone_echo (h : Overhears s m) {pre : List Bool} (hpre : pre <+: echo m) :
    allDone (cecReceiveStart s) pre = feed (cecReceiveStart s) pre := by
  induction pre using List.reverseRecOn with
  | nil => exact allDone_nil _
  | append_singleton pre b ih =>
    obtain ⟨hpre', hne, -⟩ := echo_before hpre
    have hacks : Acks (feed (cecReceiveStart s) pre) = false := by rw [Acks, h.unacked hpre' hne, Bool.false_and]
    rw [allDone_concat, ih hpre', bitDone, if_neg (h.tracks hpre' hne).flags_ne, heardBit, hacks, Bool.not_false,
      Bool.and_true, feed_concat]

/-- The place of the driver in the echo says how far the engine is. -/
theorem Place.within (h : Place gap s t start (echo m) ps x) (ho : Overhears s m) (hp : Prompt s.build gap)
    (hstart : StartFrame s.build gap start) (hps : ∀ p ∈ ps, p.total = period) :
    ∃ k, Within gap s t start period m k x := by
  have hgap : (0 : ℝ) < gap := by exact_mod_cast hp.pos
  have hT3 : (0 : ℝ) ≤ usToJiffies s.build cecT3 := Nat.cast_nonneg _
  have hhigh := hstart.high
  have hearly := hstart.early
  have hlow0 : (0 : ℝ) ≤ usToJiffies s.build cecStartLowEarly := Nat.cast_nonneg _
  push_cast at hearly
  cases h with
  | rest before _ same =>
    exact ⟨0, Nat.zero_le _, same, fun _ => by linarith, fun h0 => absurd rfl h0, by simp, by simp⟩
  | start within =>
    have hsame := within.same
    have hlast := within.last
    have hinside := within.inside
    by_cases hlow : start.low ≤ x
    · rw [hlast, decide_eq_true hlow, if_pos rfl] at hsame
      refine ⟨1, by omega, hsame, by simp, fun _ => hlow, fun c hc => by omega, fun c hc _ => ?_⟩
      obtain rfl : c = 0 := by omega
      rw [Nat.cast_zero, zero_mul]
      linarith
    · rw [hlast, decide_eq_false hlow, if_neg (by decide)] at hsame
      exact ⟨0, Nat.zero_le _, hsame, fun _ => not_le.mp hlow, fun h0 => absurd rfl h0, by simp, by simp⟩
  | @bit pre post bit qs rs q hb hq past frame ahead within =>
    have hprefix : pre ++ [bit] <+: echo m := ⟨post, by rw [hb, List.append_assoc]; rfl⟩
    obtain ⟨hpre, hne, hlen⟩ := echo_before hprefix
    have htake : (echo m).take pre.length = pre := (List.prefix_iff_eq_take.mp hpre).symm
    have htake' : (echo m).take (pre.length + 1) = pre ++ [bit] := by
      have := (List.prefix_iff_eq_take.mp hprefix).symm
      rwa [List.length_append, List.length_singleton] at this
    rw [hq] at hps
    have hqs : duration qs = pre.length * period := by
      rw [duration_const fun p hp => hps p (List.mem_append_left _ hp), past.length_eq]
    have hqtotal : q.total = period := hps q (List.mem_append_right _ (List.mem_cons_self ..))
    have hbehind := within.behind
    have hahead := within.ahead
    have hinside := within.inside
    have hsame := within.same
    have hperiod : (usToJiffies s.build cecT3 : ℝ) + gap < period := by
      have hack : (usToJiffies s.build cecT3 : ℝ) + gap ≤ ackDeadline s.build := by exact_mod_cast hp.ack
      have hframe := frame.ack
      push_cast at hframe
      linarith
    have hacks : Acks (feed (cecReceiveStart s) pre) = false := by rw [Acks, ho.unacked hpre hne, Bool.false_and]
    have hopen : (feed (cecReceiveStart s) pre).rx.flags ≠ 0 := (ho.tracks hpre hne).flags_ne
    have hbuild : (feed (cecReceiveStart s) pre).build = s.build := (feed_build _ pre).1
    rw [allDone_echo ho hpre, soFar, heardBit, hacks, Bool.not_false, Bool.and_true, hbuild] at hsame
    rw [hqs] at hbehind hahead hinside
    rw [hqtotal] at hinside
    have hbegun : start.low ≤ x := by
      have : (0 : ℝ) ≤ pre.length * period := mul_nonneg (Nat.cast_nonneg _) (by linarith)
      have : (0 : ℝ) ≤ (Soft.frame t).timer := Nat.cast_nonneg _
      linarith
    by_cases hdue : usToJiffies s.build cecT3 < (Soft.frame t).timer
    · have hlt : (usToJiffies s.build cecT3 : ℝ) < (Soft.frame t).timer := by exact_mod_cast hdue
      rw [if_pos ⟨hopen, hdue⟩, ← feed_concat, ← htake'] at hsame
      refine ⟨pre.length + 2, by omega, hsame, by simp, fun _ => hbegun, fun c hc => ?_, fun c hc _ => ?_⟩
      · obtain rfl : c = pre.length := by omega
        linarith
      · obtain rfl : c = pre.length + 1 := by omega
        push_cast
        linarith
    · have hle : ((Soft.frame t).timer : ℝ) ≤ usToJiffies s.build cecT3 := by exact_mod_cast not_lt.mp hdue
      have hnot : ¬ ((feed (cecReceiveStart s) pre).rx.flags ≠ 0 ∧
          usToJiffies s.build cecT3 < (Soft.frame t).timer) := fun hc => hdue hc.2
      have htimer : (0 : ℝ) ≤ (Soft.frame t).timer := Nat.cast_nonneg _
      rw [if_neg hnot, ← htake] at hsame
      refine ⟨pre.length + 1, by omega, hsame, by simp, fun _ => hbegun, fun c hc => ?_, fun c hc _ => ?_⟩
      · have hc' : pre.length = c + 1 := by omega
        rw [hc'] at hbehind
        push_cast at hbehind
        linarith
      · obtain rfl : c = pre.length := by omega
        linarith

/-- At its end the driver is at rest again, and the engine has handed the message over. -/
theorem Place.over (h : Place gap s t start (echo m) ps x) (ho : Overhears s m) (hp : Prompt s.build gap)
    (hstart : StartFrame s.build gap start) (hbits : List.Forall₂ (BitFrame s.build gap) (echo m) ps)
    (hreach : duration (start :: ps) ≤ x + gap) :
    AtRest t ∧ Same (engineAt s (echo m) (10 * m.length + 1)) t := by
  obtain ⟨hsame, hlast, hsample, hdriven⟩ := h.closing hp hstart hbits hreach
  rw [allDone_echo ho (List.prefix_refl _)] at hsame
  have hflags : t.rx.flags = 0 := by
    rw [hsame.rx]
    exact ho.handed.1
  refine ⟨⟨hflags, hlast, hsample, hdriven⟩, ?_⟩
  rw [engineAt, List.take_of_length_le (by rw [length_echo])]
  exact hsame

/-! ### What the transmit driver leaves alone -/

variable {u : Cec Soft}

theorem AtRest.congr (h : AtRest t) (hs : Same t u) (hf : frame u = frame t) : AtRest u :=
  ⟨hs.rx ▸ h.flags, hf ▸ h.last, hf ▸ h.sample, hf ▸ h.driven⟩

theorem InStart.congr {e : Cec Soft} {p : Pulse ℝ} (h : InStart gap e t p x) (hs : Same t u) (hf : frame u = frame t) :
    InStart gap e u p x :=
  ⟨hf ▸ h.behind, hf ▸ h.ahead, h.inside, h.flags, hf ▸ h.last, hf ▸ h.same.trans hs, hf ▸ h.period, hf ▸ h.sample,
    hf ▸ h.driven⟩

theorem InBit.congr {e : Cec Soft} {p : Pulse ℝ} {bit : Bool} (h : InBit gap e t p bit x) (hs : Same t u)
    (hf : frame u = frame t) : InBit gap e u p bit x :=
  ⟨hf ▸ h.behind, hf ▸ h.ahead, h.inside, h.tracks, hf ▸ h.same.trans hs, hf ▸ h.period, hf ▸ h.sample, hf ▸ h.ackDone,
    hf ▸ h.driven, hf ▸ h.high, hf ▸ h.low⟩

theorem Place.congr {bits : List Bool} (h : Place gap s t start bits ps x) (hs : Same t u) (hf : frame u = frame t) :
    Place gap s u start bits ps x := by
  cases h with
  | rest before rest same => exact .rest before (rest.congr hs hf) (same.trans hs)
  | start within => exact .start (within.congr hs hf)
  | bit hb hq past frame ahead within => exact .bit hb hq past frame ahead (within.congr hs hf)

end

end Soft
end AvrCec
