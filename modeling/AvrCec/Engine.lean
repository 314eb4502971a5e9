import AvrCec.Receive
import AvrCec.Reception

/-! The receive engine implements receptions.

    Each call of `cecReceiveBit` either appends its bit to the reception under way (`tracks_data`,
    `tracks_next`) or ends it on an ack bit (`ack_ends`); `cecReceiveStart` opens one that has heard
    nothing (`tracks_start`). The lemmas before them say what each kind of bit does to the engine. -/

namespace AvrCec
open Lib

variable {D : Type} [Driver D]

theorem and_0x80 (n : Nat) : (n &&& 0x80 ≠ 0) ↔ n.testBit 7 = true := by
  rw [show (0x80 : Nat) = 2 ^ 7 from rfl, Nat.and_two_pow]
  cases n.testBit 7 <;> simp

/-- The shift of the data byte, before and at its eighth bit. -/
theorem shift_marked {l : List Bool} (h : l.length < 7) (b : Bool) :
    (marked l <<< 1 ||| b.toNat) % 256 = marked (l ++ [b]) := by
  have hlt := marked_lt (l ++ [b])
  have hle : 2 ^ ((l ++ [b]).length + 1) ≤ 2 ^ 8 :=
    Nat.pow_le_pow_right (by norm_num) (by rw [List.length_append, List.length_singleton]; omega)
  rw [shiftIn_eq, ← marked_concat]
  exact Nat.mod_eq_of_lt (by omega)

theorem shift_marked_done {l : List Bool} (h : l.length = 7) (b : Bool) :
    (marked l <<< 1 ||| b.toNat) % 256 = ofBits (l ++ [b]) := by
  have hlt := ofBits_lt (l ++ [b])
  rw [shiftIn_eq, ← marked_concat, marked]
  rw [List.length_append, List.length_singleton, h] at *
  omega

/-- A data bit that does not complete its byte is shifted in. -/
theorem receiveBit_shift {hdr : Nat} {buf₀ : Nat → Nat} {bits : List Bool} {s : Cec D}
    (h : Tracks hdr buf₀ bits s.rx) (hp : phase bits < 7) (b : Bool) :
    (cecReceiveBit s b).rx = { s.rx with byte := marked (current bits ++ [b]) } := by
  have hsame := sameReceive_checkTxBit (s.emit (.bit b)) b
  have heom : s.rx.flags.bitsEom = true := by rw [h.bitsEom, decide_eq_true]; omega
  have hbyte : s.rx.byte = marked (current bits) := by rw [h.byte, if_pos (by omega)]
  have hne : marked (current bits) ≠ 0 := (marked_pos _).ne'
  have hmark : ¬ (marked (current bits) &&& 0x80 ≠ 0) := by
    rw [and_0x80, testBit_marked _ (by rw [length_current]; omega), length_current,
      decide_eq_false (by omega)]
    decide
  rw [cecReceiveBit, if_pos heom, receiveDataEom]
  simp only [hsame.rx, emit_rx, hbyte, if_pos hne, if_neg hmark]
  rw [shift_marked (by rw [length_current]; exact hp)]

/-- The EOM bit. -/
theorem receiveBit_eom {hdr : Nat} {buf₀ : Nat → Nat} {bits : List Bool} {s : Cec D}
    (h : Tracks hdr buf₀ bits s.rx) (hp : phase bits = 8) (b : Bool) :
    (cecReceiveBit s b).rx = { s.rx with flags := { s.rx.flags with eom := b, bitsEom := false } } := by
  have hsame := sameReceive_checkTxBit (s.emit (.bit b)) b
  have heom : s.rx.flags.bitsEom = true := by rw [h.bitsEom, decide_eq_true]; omega
  have hbyte : s.rx.byte = 0 := by rw [h.byte, if_neg (by omega)]
  have hclear : s.rx.flags.eom = false := by
    rw [h.eom, decide_eq_false (by omega), Bool.false_and]
  rw [cecReceiveBit, if_pos heom, receiveDataEom]
  simp only [hsame.rx, emit_rx, hbyte, ne_eq, not_true_eq_false, if_false]
  cases b with
  | true => rfl
  | false => simp [hclear]

/-- The eighth data bit: the byte is stored when it is not refused, and counted in any case. -/
theorem receiveBit_done {hdr : Nat} {buf₀ : Nat → Nat} {bits : List Bool} {s : Cec D}
    (h : Tracks hdr buf₀ bits s.rx) (hp : phase bits = 7) (b : Bool) :
    cecReceiveBit s b
      = receiveByteDone (cecCheckTxBit (s.emit (.bit b)) b) s.rx.flags s.rx.pos
          (ofBits (current bits ++ [b])) := by
  have hsame := sameReceive_checkTxBit (s.emit (.bit b)) b
  have heom : s.rx.flags.bitsEom = true := by rw [h.bitsEom, decide_eq_true]; omega
  have hbyte : s.rx.byte = marked (current bits) := by rw [h.byte, if_pos (by omega)]
  have hne : marked (current bits) ≠ 0 := (marked_pos _).ne'
  have hmark : marked (current bits) &&& 0x80 ≠ 0 := by
    rw [and_0x80, testBit_marked _ (by rw [length_current]; omega), length_current, hp]
    decide
  rw [cecReceiveBit, if_pos heom, receiveDataEom]
  simp only [hsame.rx, emit_rx, hbyte, if_pos hne, if_pos hmark]
  rw [shift_marked_done (by rw [length_current]; exact hp)]

/-! ### A byte completed -/

/-- `nack`: the buffer was taken when the header byte came in, or it is full now. -/
def refused (s : Cec D) (receivePos : Nat) : Bool :=
  (receivePos == 0 && s.header != 0) || receivePos == cecBufferSize

omit [Driver D] in
theorem byteFlags_nack (s : Cec D) (f : Flags) (p v : Nat) : (byteFlags s f p v).2 = refused s p := by
  unfold byteFlags firstByteFlags refused
  by_cases hp : p = 0
  · subst hp
    by_cases hh : s.header = 0 <;> simp [hh, cecBufferSize]
  · rw [if_neg hp]
    by_cases h16 : p = cecBufferSize
    · simp [h16]
    · simp [hp, h16]

/-- What a completed byte makes of each flag but `doAck`. -/
structure ByteFlags (s : Cec D) (f : Flags) (p v : Nat) (f' : Flags) : Prop where
  active : f'.active = f.active
  bitsEom : f'.bitsEom = f.bitsEom
  eom : f'.eom = f.eom
  nacked : f'.nacked = f.nacked
  bcast : f'.bcast = (f.bcast || (p == 0 && v % 16 == cecAddrBroadcast))
  ignore : f'.ignore = (f.ignore || (p == 0 && s.header != 0))
  overrun : f'.overrun = (f.overrun || p == cecBufferSize)

theorem and_0xf (n : Nat) : n &&& 0xf = n % 16 := by
  rw [show (0xf : Nat) = 2 ^ 4 - 1 from rfl, Nat.and_two_pow_sub_one_eq_mod]

omit [Driver D] in
theorem byteFlags_flags (s : Cec D) (f : Flags) (p v : Nat) :
    ByteFlags s f p v (byteFlags s f p v).1 := by
  unfold byteFlags firstByteFlags
  by_cases hp : p = 0
  · subst hp
    simp only [if_true, and_0xf]
    by_cases hb : v % 16 = cecAddrBroadcast <;> by_cases hm : cecAddrMatch s.addr (v % 16) = true <;>
      by_cases hh : s.header = 0 <;> constructor <;> simp [hb, hm, hh, cecBufferSize]
  · by_cases h16 : p = cecBufferSize <;> constructor <;> simp [hp, h16] <;> simp [cecBufferSize]

/-- The flags after a whole byte. -/
def doneFlags (s : Cec D) (f : Flags) (p v : Nat) : Flags :=
  if refused s p then { (byteFlags s f p v).1 with doAck := (byteFlags s f p v).1.bcast }
  else (byteFlags s f p v).1

omit [Driver D] in
theorem doneFlags_flags (s : Cec D) (f : Flags) (p v : Nat) :
    ByteFlags s f p v (doneFlags s f p v) := by
  have h := byteFlags_flags s f p v
  unfold doneFlags
  split
  · exact ⟨h.active, h.bitsEom, h.eom, h.nacked, h.bcast, h.ignore, h.overrun⟩
  · exact h

omit [Driver D] in
/-- Whether a whole byte is to be acked, or nacked. -/
theorem doneFlags_doAck (s : Cec D) (f : Flags) (p v : Nat) :
    (doneFlags s f p v).doAck = if refused s p then (doneFlags s f p v).bcast
      else f.doAck || (p == 0 && v % 16 != cecAddrBroadcast && cecAddrMatch s.addr (v % 16)) := by
  unfold doneFlags
  cases href : refused s p with
  | true => rfl
  | false =>
    simp only [Bool.false_eq_true, if_false]
    unfold refused at href
    simp only [Bool.or_eq_false_iff, beq_eq_false_iff_ne] at href
    unfold byteFlags firstByteFlags
    rw [if_neg href.2, and_0xf]
    by_cases hp : p = 0
    · subst hp
      have hh : s.header = 0 := by simpa using href.1
      by_cases hb : v % 16 = cecAddrBroadcast <;>
        cases hm : cecAddrMatch s.addr (v % 16) <;> simp [hb, hm, hh]
    · simp [hp]

/-- Whether a whole byte is stored. -/
def stored (s : Cec D) (f : Flags) (p v : Nat) : Bool :=
  !refused s p && !((doneFlags s f p v).ignore || (doneFlags s f p v).overrun)

omit [Driver D] in
/-- What a completed byte does. -/
theorem receiveByteDone_eq (s : Cec D) (f : Flags) (p v : Nat) :
    receiveByteDone s f p v
      = { s.emitIf (stored s f p v) (.store (p + 1 + s.build.hdr) v) with rx := { s.rx with
          buf := if stored s f p v then Function.update s.rx.buf (p + 1 + s.build.hdr) v else s.rx.buf
          pos := (p + 1) % 256
          byte := 0
          flags := doneFlags s f p v } } := by
  rw [receiveByteDone, byteFlags_nack]
  rfl

omit [Driver D] in
theorem receiveByteDone_rx (s : Cec D) (f : Flags) (p v : Nat) :
    (receiveByteDone s f p v).rx = { s.rx with
      buf := if stored s f p v then Function.update s.rx.buf (p + 1 + s.build.hdr) v else s.rx.buf
      pos := (p + 1) % 256
      byte := 0
      flags := doneFlags s f p v } := by
  rw [receiveByteDone_eq]

omit [Driver D] in
theorem receiveByteDone_heard (s : Cec D) (f : Flags) (p v : Nat) :
    (receiveByteDone s f p v).heard
      = if stored s f p v then .store (p + 1 + s.build.hdr) v :: s.heard else s.heard := by
  rw [receiveByteDone_eq]
  exact emitIf_heard s (stored s f p v) rfl

/-! ### One bit of a reception -/

theorem getLastD_concat (bits : List Bool) (b d : Bool) : (bits ++ [b]).getLastD d = b := by
  rw [List.getLastD_eq_getLast?, List.getLast?_concat]; rfl

omit [Driver D] in
/-- The completed byte, in a state `t` whose receive side is still that of `s`. -/
theorem tracks_done {buf₀ : Nat → Nat} {bits : List Bool} {s t : Cec D}
    (h : Tracks s.build.hdr buf₀ bits s.rx) (h7 : phase bits = 7) (b : Bool)
    (hbuild : t.build = s.build) (hrx : t.rx = s.rx) :
    Tracks s.build.hdr buf₀ (bits ++ [b]) { t.rx with
      buf := if stored t s.rx.flags s.rx.pos (byteAt (bits ++ [b]) (blocks bits))
        then Function.update t.rx.buf (s.rx.pos + 1 + t.build.hdr) (byteAt (bits ++ [b]) (blocks bits))
        else t.rx.buf
      pos := (s.rx.pos + 1) % 256
      byte := 0
      flags := doneFlags t s.rx.flags s.rx.pos (byteAt (bits ++ [b]) (blocks bits)) } := by
  have hphase : phase (bits ++ [b]) = 8 := by rw [phase_concat, h7]
  have hb := blocks_done h7 b
  have hpos := h.pos
  have hhdr : t.header = buf₀ s.build.hdr := by rw [Cec.header, hrx, hbuild]; exact h.header
  generalize hv : byteAt (bits ++ [b]) (blocks bits) = v
  have hf := doneFlags_flags t s.rx.flags s.rx.pos v
  have hover : (doneFlags t s.rx.flags s.rx.pos v).overrun = decide (cecBufferSize < blocks bits + 1) := by
    rw [hf.overrun, h.overrun, hpos, Bool.eq_iff_iff]
    simp only [Bool.or_eq_true, decide_eq_true_eq, beq_iff_eq]
    unfold cecBufferSize; omega
  have hign : (doneFlags t s.rx.flags s.rx.pos v).ignore = false ↔
      s.rx.flags.ignore = false ∧ (s.rx.pos = 0 → buf₀ s.build.hdr = 0) := by
    rw [hf.ignore, hhdr]
    simp
  refine ⟨?_, ?_, ?_, ?_, ?_, ?_, ?_, ?_, ?_, ?_, ?_⟩ <;> dsimp only
  · rw [hf.active]; exact h.active
  · rw [hf.nacked]; exact h.nacked
  · rw [hf.bitsEom, h.bitsEom, hphase, h7]; rfl
  · rw [hf.eom, h.eom, hphase, h7]; rfl
  · rw [hphase]; rfl
  · rw [hpos, hb]; omega
  · rw [hover, hb]
  · rw [bcastHeard_done h7, hv, ← h.bcast, hf.bcast, hpos]
    simp
  · intro h0; rw [hb] at h0; omega
  · intro _ hi
    rw [hign] at hi
    by_cases h0 : blocks bits = 0
    · exact hi.2 (by rw [hpos, h0])
    · exact h.free (by omega) hi.1
  · rw [hrx, hbuild, h.buf]
    by_cases hi : (doneFlags t s.rx.flags s.rx.pos v).ignore = false
    · -- taken: stored while there is room
      have hi' := hign.mp hi
      have href : refused t s.rx.pos = (s.rx.pos == cecBufferSize) := by
        unfold refused
        rw [hhdr]
        by_cases hz : s.rx.pos = 0
        · simp [hz, hi'.2 hz]
        · simp [hz]
      rw [stored, href, hi, hover, hi'.1]
      by_cases hroom : blocks bits < cecBufferSize
      · have hlt : blocks bits < 256 := by unfold cecBufferSize at hroom; omega
        rw [hpos, Nat.mod_eq_of_lt hlt, decide_eq_false (by omega)]
        simp [Nat.ne_of_lt hroom, fill_done h7 hroom, hv]
      · rw [decide_eq_true (by omega)]
        simp [fill_concat (.inr (by omega : cecBufferSize ≤ blocks bits))]
    · -- refused: nothing has been stored
      have hi' := Bool.eq_true_of_not_eq_false hi
      have hnot : ¬ (s.rx.flags.ignore = false ∧ (s.rx.pos = 0 → buf₀ s.build.hdr = 0)) :=
        fun hc => hi (hign.mpr hc)
      rw [stored, hi']
      simp only [Bool.true_or, Bool.not_true, Bool.and_false, Bool.false_eq_true, if_false, if_true]
      cases hold : s.rx.flags.ignore with
      | true => rfl
      | false =>
        have hz : blocks bits = 0 := by
          by_contra h0
          exact hnot ⟨hold, fun _ => h.free (by omega) hold⟩
        exact fill_zero hz ..

/-- A data or EOM bit extends the reception. -/
theorem tracks_data {buf₀ : Nat → Nat} {bits : List Bool} {s : Cec D}
    (h : Tracks s.build.hdr buf₀ bits s.rx) (hp : phase bits ≠ 9) (b : Bool) :
    Tracks s.build.hdr buf₀ (bits ++ [b]) (cecReceiveBit s b).rx := by
  have hphase := phase_concat bits b
  have hlt : phase bits < 10 := Nat.mod_lt _ (by norm_num)
  rcases Nat.lt_trichotomy (phase bits) 7 with h7 | h7 | h7
  · -- a bit of a byte under way
    have hb := blocks_concat (by omega : phase bits ≠ 7) b
    rw [receiveBit_shift h h7]
    refine ⟨h.active, h.nacked, ?_, ?_, ?_, ?_, ?_, ?_, ?_, ?_, ?_⟩
    · rw [hphase, h.bitsEom]; congr 1; simp only [eq_iff_iff]; omega
    · rw [hphase, h.eom, decide_eq_false (by omega), decide_eq_false (by omega)]; rfl
    · rw [hphase, if_pos (by omega), current_concat (by omega)]
    · rw [hb]; exact h.pos
    · rw [hb]; exact h.overrun
    · rw [bcastHeard_concat (by omega)]; exact h.bcast
    · rw [hb]; exact h.fresh
    · rw [hb]; exact h.free
    · rw [fill_concat (.inl (by omega))]; exact h.buf
  · -- the byte is complete
    have hb := blocks_done h7 b
    have hsame := sameReceive_checkTxBit (s.emit (.bit b)) b
    rw [receiveBit_done h h7, receiveByteDone_rx, ← byteAt_done h7]
    exact tracks_done h h7 b hsame.build hsame.rx
  · -- the EOM bit
    have hb := blocks_concat (by omega : phase bits ≠ 7) b
    rw [receiveBit_eom h (by omega)]
    refine ⟨h.active, h.nacked, ?_, ?_, ?_, ?_, ?_, ?_, ?_, ?_, ?_⟩
    · rw [hphase, decide_eq_false (by omega)]
    · rw [hphase, decide_eq_true (by omega), getLastD_concat]; rfl
    · rw [hphase, if_neg (by omega), h.byte, if_neg (by omega)]
    · rw [hb]; exact h.pos
    · rw [hb]; exact h.overrun
    · rw [bcastHeard_concat (by omega)]; exact h.bcast
    · rw [hb]; exact h.fresh
    · rw [hb]; exact h.free
    · rw [fill_concat (.inl (by omega))]; exact h.buf

/-- The ack bit `level` ends the reception: it is negative, or the EOM bit was set. -/
def Receive.ends (rx : Receive) (level : Bool) : Bool := !rx.flags.ack level || rx.flags.eom

/-- The header byte of a reception that ends on the ack bit `level`. -/
def Receive.headerByte (rx : Receive) (level : Bool) : Nat :=
  rx.pos ||| Flags.status { rx.flags with nacked := !rx.flags.ack level }

omit [Driver D] in
theorem receiveDone_rx (s : Cec D) (f : Flags) (p : Nat) :
    (receiveDone s f p).rx = { s.rx with
      buf := if f.ignore then s.rx.buf else Function.update s.rx.buf s.build.hdr (p ||| f.status)
      flags := 0 } := by
  rw [receiveDone]
  cases f.ignore <;> rfl

omit [Driver D] in
theorem receiveDone_heard (s : Cec D) (f : Flags) (p : Nat) :
    (receiveDone s f p).heard
      = .done :: if f.ignore then s.heard else .header (p ||| f.status) :: s.heard := by
  have h := emitIf_heard s (!f.ignore) (e := .header (p ||| f.status)) rfl
  change ((s.emitIf (!f.ignore) (.header (p ||| f.status))).emit .done).heard = _
  rw [emit_heard, h]
  cases f.ignore <;> rfl

/-- The ack bit of a block. -/
theorem receiveBit_ack {s : Cec D} (h : s.rx.flags.bitsEom = false)
    (hn : s.rx.flags.nacked = false) (b : Bool) :
    cecReceiveBit s b =
      let t := cecTransmitReceiveAck (s.emit (.bit b)) (s.rx.flags.ack b)
      if s.rx.ends b then
        receiveDone t { s.rx.flags with nacked := !s.rx.flags.ack b } s.rx.pos
      else { t with rx := { t.rx with byte := 1, flags := { s.rx.flags with bitsEom := true } } } := by
  have heom : ¬ (s.rx.flags.bitsEom = true) := by rw [h]; decide
  have hself : { s.rx.flags with nacked := false } = s.rx.flags := by rw [← hn]
  rw [cecReceiveBit, if_neg heom, receiveAck, Receive.ends]
  cases s.rx.flags.ack b with
  | false => simp only [Bool.not_false, if_true, Bool.true_or]
  | true => simp only [Bool.not_true, Bool.false_eq_true, if_false, Bool.false_or, hself]

/-- A positive ack of a block that is not the last opens the next one. -/
theorem tracks_next {buf₀ : Nat → Nat} {bits : List Bool} {s : Cec D}
    (h : Tracks s.build.hdr buf₀ bits s.rx) (hp : phase bits = 9) {b : Bool}
    (hends : s.rx.ends b = false) :
    Tracks s.build.hdr buf₀ (bits ++ [b]) (cecReceiveBit s b).rx := by
  have hphase : phase (bits ++ [b]) = 0 := by rw [phase_concat, hp]
  have hb := blocks_concat (by omega : phase bits ≠ 7) b
  have heom : s.rx.flags.bitsEom = false := by rw [h.bitsEom, hp]; rfl
  have hclear : s.rx.flags.eom = false := by
    rw [Receive.ends, Bool.or_eq_false_iff] at hends; exact hends.2
  rw [receiveBit_ack heom h.nacked, hends]
  simp only [Bool.false_eq_true, if_false, (sameReceive_receiveAck _ _).rx, emit_rx]
  refine ⟨h.active, h.nacked, ?_, ?_, ?_, ?_, ?_, ?_, ?_, ?_, ?_⟩
  · rw [hphase]; rfl
  · rw [hphase, hclear]; rfl
  · rw [hphase, if_pos (by norm_num), current_concat_ack hp, marked_nil]
  · rw [hb]; exact h.pos
  · rw [hb]; exact h.overrun
  · rw [bcastHeard_concat (by omega)]; exact h.bcast
  · rw [hb]; exact h.fresh
  · rw [hb]; exact h.free
  · rw [fill_concat (.inl (by omega))]; exact h.buf

/-- Any other ack bit ends the reception. -/
theorem ack_ends {buf₀ : Nat → Nat} {bits : List Bool} {s : Cec D}
    (h : Tracks s.build.hdr buf₀ bits s.rx) (hp : phase bits = 9) {b : Bool}
    (hends : s.rx.ends b = true) :
    (cecReceiveBit s b).rx = { s.rx with
      buf := if s.rx.flags.ignore then s.rx.buf
        else Function.update s.rx.buf s.build.hdr (s.rx.headerByte b)
      flags := 0 } := by
  have hsame := sameReceive_receiveAck (s.emit (.bit b)) (s.rx.flags.ack b)
  have heom : s.rx.flags.bitsEom = false := by rw [h.bitsEom, hp]; rfl
  rw [receiveBit_ack heom h.nacked, hends]
  simp only [if_true, receiveDone_rx, hsame.rx, hsame.build, emit_rx, emit_build]
  rfl

theorem ack_ends_heard {buf₀ : Nat → Nat} {bits : List Bool} {s : Cec D}
    (h : Tracks s.build.hdr buf₀ bits s.rx) (hp : phase bits = 9) {b : Bool}
    (hends : s.rx.ends b = true) :
    (cecReceiveBit s b).heard
      = .done :: if s.rx.flags.ignore then .bit b :: s.heard
          else .header (s.rx.headerByte b) :: .bit b :: s.heard := by
  have hsame := sameReceive_receiveAck (s.emit (.bit b)) (s.rx.flags.ack b)
  have heom : s.rx.flags.bitsEom = false := by rw [h.bitsEom, hp]; rfl
  have hemit : (s.emit (.bit b)).heard = .bit b :: s.heard := by simp [emit_heard, Ev.ofReceive]
  rw [receiveBit_ack heom h.nacked, hends]
  simp only [if_true, receiveDone_heard, hsame.heard, hemit]
  rfl

/-- What a bit that completes no byte and ends nothing adds to the log. -/
theorem receiveBit_heard {hdr : Nat} {buf₀ : Nat → Nat} {bits : List Bool} {s : Cec D}
    (h : Tracks hdr buf₀ bits s.rx) (h7 : phase bits ≠ 7) {b : Bool}
    (hgo : phase bits = 9 → s.rx.ends b = false) :
    (cecReceiveBit s b).heard = .bit b :: s.heard := by
  have hemit : (s.emit (.bit b)).heard = .bit b :: s.heard := by simp [emit_heard, Ev.ofReceive]
  have hlt : phase bits < 10 := Nat.mod_lt _ (by norm_num)
  by_cases h9 : phase bits = 9
  · have heom : s.rx.flags.bitsEom = false := by rw [h.bitsEom, h9]; rfl
    rw [receiveBit_ack heom h.nacked, hgo h9]
    exact (sameReceive_receiveAck _ _).heard.trans hemit
  · have hsame := sameReceive_checkTxBit (s.emit (.bit b)) b
    have heom : s.rx.flags.bitsEom = true := by rw [h.bitsEom, decide_eq_true h9]
    rw [cecReceiveBit, if_pos heom, receiveDataEom]
    by_cases h8 : phase bits < 8
    · have hbyte : s.rx.byte = marked (current bits) := by rw [h.byte, if_pos h8]
      have hne : marked (current bits) ≠ 0 := (marked_pos _).ne'
      have hmark : ¬ (marked (current bits) &&& 0x80 ≠ 0) := by
        rw [and_0x80, testBit_marked _ (by rw [length_current]; omega), length_current,
          decide_eq_false (by omega)]
        decide
      simp only [hsame.rx, emit_rx, hbyte, if_pos hne, if_neg hmark]
      exact hsame.heard.trans hemit
    · have hbyte : s.rx.byte = 0 := by rw [h.byte, if_neg h8]
      simp only [hsame.rx, emit_rx, hbyte, ne_eq, not_true_eq_false, if_false]
      exact hsame.heard.trans hemit

omit [Driver D] in
/-- The flags after a byte depend on our addresses and the header byte only. -/
theorem doneFlags_congr {s t : Cec D} (haddr : t.addr = s.addr) (hhdr : t.header = s.header)
    (f : Flags) (p v : Nat) : doneFlags t f p v = doneFlags s f p v := by
  unfold doneFlags byteFlags firstByteFlags refused
  rw [haddr, hhdr]

/-- The eighth data bit decides whether the block is acked and the message kept. -/
theorem receiveBit_flags {buf₀ : Nat → Nat} {bits : List Bool} {s : Cec D}
    (h : Tracks s.build.hdr buf₀ bits s.rx) (h7 : phase bits = 7) (b : Bool) :
    (cecReceiveBit s b).rx.flags
      = doneFlags s s.rx.flags s.rx.pos (byteAt (bits ++ [b]) (blocks bits)) := by
  have hsame := sameReceive_checkTxBit (s.emit (.bit b)) b
  rw [receiveBit_done h h7, receiveByteDone_rx, byteAt_done h7]
  exact doneFlags_congr hsame.addr hsame.header ..

/-- No other bit of a reception changes those decisions. -/
theorem receiveBit_policy {buf₀ : Nat → Nat} {bits : List Bool} {s : Cec D}
    (h : Tracks s.build.hdr buf₀ bits s.rx) (h7 : phase bits ≠ 7) {b : Bool}
    (hgo : phase bits = 9 → s.rx.ends b = false) :
    (cecReceiveBit s b).rx.flags.doAck = s.rx.flags.doAck ∧
      (cecReceiveBit s b).rx.flags.ignore = s.rx.flags.ignore := by
  have hlt : phase bits < 10 := Nat.mod_lt _ (by norm_num)
  rcases (by omega : phase bits < 7 ∨ phase bits = 8 ∨ phase bits = 9) with hp | hp | hp
  · rw [receiveBit_shift h hp]; exact ⟨rfl, rfl⟩
  · rw [receiveBit_eom h hp]; exact ⟨rfl, rfl⟩
  · have heom : s.rx.flags.bitsEom = false := by rw [h.bitsEom, hp]; rfl
    rw [receiveBit_ack heom h.nacked, hgo hp]
    exact ⟨rfl, rfl⟩

/-- A start opens a reception that has heard nothing. -/
theorem tracks_start (s : Cec D) :
    Tracks s.build.hdr s.rx.buf [] (cecReceiveStart s).rx := by
  refine ⟨rfl, rfl, rfl, rfl, rfl, rfl, rfl, ?_, fun _ => ⟨rfl, rfl⟩, ?_, ?_⟩
  · refine ⟨fun h => by simp [cecReceiveStart] at h, ?_⟩
    rintro ⟨k, hk, -⟩
    exact absurd hk (by simp [blocks])
  · intro h; exact absurd h (by decide)
  · rw [fill_nil]; rfl

omit [Driver D] in
/-- Clearing the header leaves a reception as it is. -/
theorem tracks_clear {buf₀ : Nat → Nat} {bits : List Bool} {s : Cec D}
    (h : Tracks s.build.hdr buf₀ bits s.rx) :
    Tracks s.build.hdr (Function.update buf₀ s.build.hdr 0) bits (clearHeader s).rx := by
  refine ⟨h.active, h.nacked, h.bitsEom, h.eom, h.byte, h.pos, h.overrun, h.bcast, h.fresh, ?_, ?_⟩
  · intro _ _; exact Function.update_self ..
  · change Function.update s.rx.buf s.build.hdr 0 = if s.rx.flags.ignore then _ else _
    rw [fill_update_hdr, h.buf]
    split <;> rfl

/-! ### What the engine leaves alone

A bit reaches the transmit engine through `cecCheckTxBit` or `cecTransmitReceiveAck` and in no other
way. -/

/-- `t` differs from `s` on the receive side only. -/
structure SameTransmit (s t : Cec D) : Prop where
  build : t.build = s.build
  tx : t.tx = s.tx
  addr : t.addr = s.addr
  hw : t.hw = s.hw
  told : t.told = s.told

omit [Driver D] in
theorem sameTransmit_byteDone (s : Cec D) (f : Flags) (p v : Nat) :
    SameTransmit s (receiveByteDone s f p v) :=
  ⟨rfl, rfl, rfl, rfl, emitIf_told s _ rfl⟩

omit [Driver D] in
theorem sameTransmit_done (s : Cec D) (f : Flags) (p : Nat) : SameTransmit s (receiveDone s f p) := by
  refine ⟨rfl, rfl, rfl, rfl, ?_⟩
  change ((s.emitIf (!f.ignore) (.header (p ||| f.status))).emit .done).told = _
  rw [emit_told _ rfl, emitIf_told s _ rfl]

theorem sameTransmit_dataEom (s : Cec D) (f : Flags) (p : Nat) (b : Bool) :
    SameTransmit (cecCheckTxBit s b) (receiveDataEom s f p b) := by
  unfold receiveDataEom
  dsimp only
  repeat' split
  · exact sameTransmit_byteDone ..
  all_goals exact ⟨rfl, rfl, rfl, rfl, rfl⟩

theorem sameTransmit_ack (s : Cec D) (f : Flags) (p : Nat) (b : Bool) :
    SameTransmit (cecTransmitReceiveAck s (f.ack b)) (receiveAck s f p b) := by
  unfold receiveAck
  dsimp only
  generalize (if (!f.ack b) = true then { f with nacked := true } else f) = g
  split
  · exact sameTransmit_done ..
  · exact ⟨rfl, rfl, rfl, rfl, rfl⟩

/-- What the transmit engine makes of a bit. -/
def heardByTransmit (s : Cec D) (b : Bool) : Cec D :=
  let t := s.emit (.bit b)
  if s.rx.flags.bitsEom then cecCheckTxBit t b else cecTransmitReceiveAck t (s.rx.flags.ack b)

theorem sameTransmit_receiveBit (s : Cec D) (b : Bool) :
    SameTransmit (heardByTransmit s b) (cecReceiveBit s b) := by
  unfold heardByTransmit cecReceiveBit
  dsimp only
  split
  · exact sameTransmit_dataEom ..
  · exact sameTransmit_ack ..

theorem sameReceive_heardByTransmit (s : Cec D) (b : Bool) :
    SameReceive (s.emit (.bit b)) (heardByTransmit s b) := by
  unfold heardByTransmit
  dsimp only
  split
  · exact sameReceive_checkTxBit ..
  · exact sameReceive_receiveAck ..

theorem receiveBit_build (s : Cec D) (b : Bool) :
    (cecReceiveBit s b).build = s.build ∧ (cecReceiveBit s b).addr = s.addr := by
  have ht := sameTransmit_receiveBit s b
  have hr := sameReceive_heardByTransmit s b
  exact ⟨ht.build.trans hr.build, ht.addr.trans hr.addr⟩

/-- Feed the engine a list of bits. -/
def feed (s : Cec D) (bits : List Bool) : Cec D := bits.foldl cecReceiveBit s

@[simp] theorem feed_nil (s : Cec D) : feed s [] = s := rfl

theorem feed_append (s : Cec D) (l m : List Bool) : feed s (l ++ m) = feed (feed s l) m :=
  List.foldl_append

theorem feed_concat (s : Cec D) (l : List Bool) (b : Bool) :
    feed s (l ++ [b]) = cecReceiveBit (feed s l) b := by
  rw [feed_append]; rfl

theorem feed_build (s : Cec D) (bits : List Bool) :
    (feed s bits).build = s.build ∧ (feed s bits).addr = s.addr := by
  induction bits using List.reverseRecOn with
  | nil => exact ⟨rfl, rfl⟩
  | append_singleton l b ih =>
    have hb := receiveBit_build (feed s l) b
    rw [feed_concat]
    exact ⟨hb.1.trans ih.1, hb.2.trans ih.2⟩

/-- The data and EOM bits of one block, or the first of them. -/
theorem tracks_feed {buf₀ : Nat → Nat} {bits : List Bool} {s : Cec D}
    (h : Tracks s.build.hdr buf₀ bits s.rx) (l : List Bool) (hl : phase bits + l.length ≤ 9) :
    Tracks s.build.hdr buf₀ (bits ++ l) (feed s l).rx := by
  induction l using List.reverseRecOn with
  | nil => rwa [List.append_nil]
  | append_singleton l b ih =>
    rw [List.length_append, List.length_singleton] at hl
    have hp : phase (bits ++ l) ≠ 9 := by
      unfold phase at *
      rw [List.length_append]; omega
    have hb := (feed_build s l).1
    rw [feed_concat, ← List.append_assoc, ← hb]
    exact tracks_data (by rw [hb]; exact ih (by omega)) hp b

end AvrCec
