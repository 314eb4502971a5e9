import AvrCec.Messages
import AvrCec.Calls

/-! Every attempt sends a prefix of the framing of its message.

    `framing` is the bit string of a message as its initiator sends it. `Transmit.Fetched` places the
    engine in it: after the bits `bits` the engine's three counters are what their number makes them
    (`getBit_fetched`). `Framed` says so of every open attempt, and it is kept by every call
    (`keptCalls_framed`). -/

namespace AvrCec
open Lib

/-! ### The framing of a message -/

/-- The blocks of a message; a ping carries no EOM bit. -/
def blocksOf (ack : Bool) (message : List Nat) : List Block :=
  message.zipIdx.map fun p => ⟨p.1, p.2 + 1 = message.length ∧ message.length ≠ 1, ack⟩

/-- Eight data bits, EOM and a one in the ack slot for every byte. -/
def framing (message : List Nat) : List Bool := flat (blocksOf true message)

@[simp] theorem length_blocksOf (ack : Bool) (m : List Nat) : (blocksOf ack m).length = m.length := by
  simp [blocksOf]

@[simp] theorem length_framing (m : List Nat) : (framing m).length = 10 * m.length := by
  simp [framing]

@[simp] theorem length_message (t : Transmit) : t.message.length = t.bufEnd + 1 := by
  simp [Transmit.message]

theorem getElem?_blocksOf (ack : Bool) (m : List Nat) (i : Nat) :
    (blocksOf ack m)[i]?
      = m[i]?.map fun b => ⟨b, i + 1 = m.length ∧ m.length ≠ 1, ack⟩ := by
  simp [blocksOf, List.getElem?_zipIdx, Option.map_map, Function.comp_def]

theorem getElem?_flat (ms : List Block) (n : Nat) :
    (flat ms)[n]? = ms[n / 10]?.bind fun b => b.bits[n % 10]? := by
  induction ms generalizing n with
  | nil => simp
  | cons b ms ih =>
    rw [flat_cons]
    rcases Nat.lt_or_ge n 10 with hlt | hge
    · have hdiv : n / 10 = 0 := by omega
      have hmod : n % 10 = n := by omega
      rw [List.getElem?_append_left (by rw [length_bits]; exact hlt), hdiv, hmod]
      rfl
    · obtain ⟨k, rfl⟩ := Nat.exists_eq_add_of_le hge
      have hdiv : (10 + k) / 10 = k / 10 + 1 := by omega
      have hmod : (10 + k) % 10 = k % 10 := by omega
      rw [List.getElem?_append_right (by rw [length_bits]; exact hge), length_bits,
        Nat.add_sub_cancel_left, ih, hdiv, hmod]
      rfl

/-- The bits of a block, by their number. -/
theorem getElem?_bits (b : Block) (j : Nat) :
    b.bits[j]? = if j < 8 then some (b.data.testBit (7 - j))
      else if j = 8 then some b.eom else if j = 9 then some b.ack else none := by
  have h8 : (toBits 8 b.data).length = 8 := length_toBits ..
  rw [Block.bits]
  split
  · next h =>
    rw [List.getElem?_append_left (by omega), List.getElem?_eq_getElem (by omega), getElem_toBits]
  · next h =>
    obtain ⟨k, rfl⟩ := Nat.exists_eq_add_of_le (Nat.le_of_not_lt h)
    rw [List.getElem?_append_right (by omega), h8, Nat.add_sub_cancel_left]
    rcases k with _ | _ | k
    · rfl
    · rfl
    · have h9 : ¬ 8 + (k + 1 + 1) = 9 := by omega
      simp [h9]

/-- The bit of the framing that the engine is at. -/
theorem getElem?_framing (t : Transmit) {n : Nat} (h : n < 10 * (t.bufEnd + 1)) :
    (framing t.message)[n]? = some (if n % 10 < 8 then (t.buf (n / 10)).testBit (7 - n % 10)
      else if n % 10 = 8 then n / 10 = t.bufEnd ∧ t.bufEnd ≠ 0 else true) := by
  have hlt : n / 10 < t.bufEnd + 1 := by omega
  have hmod : n % 10 < 10 := Nat.mod_lt _ (by omega)
  have hmsg : t.message[n / 10]? = some (t.buf (n / 10)) := by simp [Transmit.message, hlt]
  rw [framing, getElem?_flat, getElem?_blocksOf, hmsg, length_message]
  simp only [Option.map_some, Option.bind_some, getElem?_bits]
  rcases (by omega : n % 10 < 8 ∨ n % 10 = 8 ∨ n % 10 = 9) with h | h | h
  · rw [if_pos h, if_pos h]
  · rw [if_neg (by omega), if_pos h, if_neg (by omega), if_pos h]
    congr 2
    simp
  · rw [if_neg (by omega), if_neg (by omega), if_pos h, if_neg (by omega), if_neg (by omega)]

/-! ### The engine in an attempt -/

/-- The engine has handed out `bits` in the attempt under way. -/
structure Transmit.Fetched (t : Transmit) (bits : List Bool) : Prop where
  framed : bits <+: framing t.message
  going : bits.length < 10 * (t.bufEnd + 1) → t.bufPos = bits.length / 10 ∧
    t.bufBit = 0x80 >>> (bits.length % 10) ∧
    t.state = if bits.length % 10 = 9 then .ack else .bitEom
  done : bits.length = 10 * (t.bufEnd + 1) → t.bufPos = t.bufEnd ∧ t.state = .waitForAck
  last : ∀ l b, bits = l ++ [b] → t.lastBit % 2 = b.toNat
  delayed : ∀ l b c, bits = l ++ [b, c] → t.delayed = b.toNat

namespace Transmit.Fetched
variable {t : Transmit} {bits : List Bool}

theorem length_le (h : t.Fetched bits) : bits.length ≤ 10 * (t.bufEnd + 1) := by
  have := h.framed.length_le
  rwa [length_framing, length_message] at this

theorem pos (h : t.Fetched bits) : t.bufPos ≤ t.bufEnd := by
  rcases Nat.lt_or_eq_of_le h.length_le with hlt | heq
  · rw [(h.going hlt).1]; omega
  · rw [(h.done heq).1]

/-- The whole framing is out exactly when the engine waits for the last ack. -/
theorem whole_iff (h : t.Fetched bits) : bits = framing t.message ↔ t.state = .waitForAck := by
  constructor
  · intro heq
    refine (h.done ?_).2
    rw [heq, length_framing, length_message]
  · intro hw
    rcases Nat.lt_or_eq_of_le h.length_le with hlt | heq
    · have hs := (h.going hlt).2.2
      rw [hw] at hs
      split at hs <;> exact TransmitState.noConfusion hs
    · refine h.framed.eq_of_length ?_
      rw [heq, length_framing, length_message]

/-- The states of an attempt. -/
theorem state (h : t.Fetched bits) :
    t.state = .waitForAck ∨ (t.state = .bitEom ∨ t.state = .ack) := by
  rcases Nat.lt_or_eq_of_le h.length_le with hlt | heq
  · rw [(h.going hlt).2.2]
    split
    · exact .inr (.inr rfl)
    · exact .inr (.inl rfl)
  · exact .inl (h.done heq).2

theorem busy (h : t.Fetched bits) : t.state.busy := by
  rcases h.state with hs | hs | hs <;> rw [hs] <;> decide

/-- A bit is asked for in these two states, and then one is left. -/
theorem lt_of_asked (h : t.Fetched bits) (hs : t.state = .bitEom ∨ t.state = .ack) :
    bits.length < 10 * (t.bufEnd + 1) := by
  refine Nat.lt_of_le_of_ne h.length_le fun heq => ?_
  have hw := (h.done heq).2
  rcases hs with hs | hs <;> rw [hs] at hw <;> exact TransmitState.noConfusion hw

end Transmit.Fetched

/-- The mask of data bit `j`. -/
theorem mask_eq {j : Nat} (h : j < 8) : 0x80 >>> j = 2 ^ (7 - j) := by
  rw [show (0x80 : Nat) = 2 ^ 7 from rfl, Nat.shiftRight_eq_div_pow, Nat.pow_div (by omega) (by norm_num)]

theorem and_mask (n : Nat) {j : Nat} (h : j < 8) : decide (n &&& 0x80 >>> j ≠ 0) = n.testBit (7 - j) := by
  rw [mask_eq h, Nat.and_two_pow]
  cases n.testBit (7 - j) <;> simp

/-- One bit further. -/
theorem Transmit.Fetched.step {t : Transmit} {bits : List Bool} (h : t.Fetched bits) {bit : Bool}
    {pos bufBit needed : Nat} {state : TransmitState} (hbit : (framing t.message)[bits.length]? = some bit)
    (hgoing : bits.length + 1 < 10 * (t.bufEnd + 1) → pos = (bits.length + 1) / 10 ∧
      bufBit = 0x80 >>> ((bits.length + 1) % 10) ∧
      state = if (bits.length + 1) % 10 = 9 then .ack else .bitEom)
    (hdone : bits.length + 1 = 10 * (t.bufEnd + 1) → pos = t.bufEnd ∧ state = .waitForAck) :
    Transmit.Fetched { t with
      lastBit := (t.lastBit <<< 1 ||| bit.toNat) % 256
      bufPos := pos, bufBit := bufBit, state := state, needed := needed } (bits ++ [bit]) := by
  have hshift : (t.lastBit <<< 1 ||| bit.toNat) % 256 = (2 * t.lastBit + bit.toNat) % 256 := by
    rw [shiftIn_eq]
  refine ⟨?_, ?_, ?_, ?_, ?_⟩
  · have htake := List.prefix_iff_eq_take.mp h.framed
    have hnext : (framing t.message).take (bits.length + 1) = bits ++ [bit] := by
      rw [List.take_add_one, hbit, ← htake]
      rfl
    change bits ++ [bit] <+: framing t.message
    rw [← hnext]
    exact List.take_prefix ..
  · rw [List.length_append, List.length_singleton]
    exact hgoing
  · rw [List.length_append, List.length_singleton]
    exact hdone
  · intro l b hl
    obtain ⟨-, hb⟩ := List.append_inj' hl rfl
    obtain rfl := List.singleton_inj.mp hb
    have := bit.toNat_le
    change (t.lastBit <<< 1 ||| bit.toNat) % 256 % 2 = bit.toNat
    rw [hshift]
    omega
  · intro l b c hl
    -- the bit before is the last one fetched until now
    have hsplit : bits ++ [bit] = (l ++ [b]) ++ [c] := by rw [hl, List.append_assoc]; rfl
    obtain ⟨hbits, -⟩ := List.append_inj' hsplit rfl
    have hlast := h.last l b hbits
    have := bit.toNat_le
    change ((t.lastBit <<< 1 ||| bit.toNat) % 256) >>> 1 &&& 1 = b.toNat
    rw [hshift, Nat.and_one_is_mod, Nat.shiftRight_one]
    omega

theorem getBit_bufEnd (t : Transmit) (present : Nat) : (t.getBit present).1.bufEnd = t.bufEnd := by
  rw [Transmit.getBit]
  dsimp only
  repeat' split
  all_goals rfl

/-- A bit asked for is the next one of the framing. -/
theorem getBit_fetched {t : Transmit} {bits : List Bool} (h : t.Fetched bits)
    (hs : t.state = .bitEom ∨ t.state = .ack) (h256 : t.bufEnd < 256) (present : Nat) :
    (t.getBit present).1.Fetched (bits ++ [(t.getBit present).2.1]) := by
  have hlt := h.lt_of_asked hs
  obtain ⟨hpos, hbit, hstate⟩ := h.going hlt
  have hframe := getElem?_framing t hlt
  have hmod : bits.length % 10 < 10 := Nat.mod_lt _ (by omega)
  rw [← hpos] at hframe
  rw [Transmit.getBit]
  rcases (by omega : bits.length % 10 < 8 ∨ bits.length % 10 = 8 ∨ bits.length % 10 = 9) with h8 | h8 | h8
  · -- a data bit
    rw [if_pos h8] at hframe
    have hne : t.bufBit ≠ 0 := by
      rw [hbit, mask_eq h8]
      exact (Nat.two_pow_pos _).ne'
    rw [if_pos hne]
    have hval : decide (t.buf t.bufPos &&& t.bufBit ≠ 0) = (t.buf t.bufPos).testBit (7 - bits.length % 10) := by
      rw [hbit, and_mask _ h8]
    rw [← hval] at hframe
    refine h.step hframe (fun _ => ⟨?_, ?_, ?_⟩) fun hd => ?_
    · rw [hpos]; omega
    · have hsucc : (bits.length + 1) % 10 = bits.length % 10 + 1 := by omega
      rw [hbit, hsucc, Nat.shiftRight_add]
    · rw [hstate, if_neg (by omega), if_neg (by omega)]
    · omega
  · -- the EOM bit
    have hzero : ¬ t.bufBit ≠ 0 := by rw [hbit, h8]; decide
    rw [if_neg (by omega), if_pos h8] at hframe
    rw [if_neg hzero, if_pos (by rw [hstate, if_neg (by omega)])]
    have hval : (decide (t.bufEnd = t.bufPos) && decide (t.bufEnd ≠ 0))
        = decide (t.bufPos = t.bufEnd ∧ t.bufEnd ≠ 0) := by
      rw [← Bool.decide_and, eq_comm]
      simp only [eq_comm]
    rw [← hval] at hframe
    refine h.step hframe (fun _ => ⟨?_, ?_, ?_⟩) fun hd => ?_
    · rw [hpos]; omega
    · have hsucc : (bits.length + 1) % 10 = 9 := by omega
      rw [hbit, hsucc, h8]; rfl
    · rw [if_pos (by omega)]
    · omega
  · -- the ack slot
    have hzero : ¬ t.bufBit ≠ 0 := by rw [hbit, h8]; decide
    have hack : t.state = .ack := by rw [hstate, if_pos h8]
    rw [if_neg (by omega), if_neg (by omega)] at hframe
    rw [if_neg hzero, if_neg (by rw [hack]; exact TransmitState.noConfusion)]
    split
    · next hlast =>
      have hlast : t.bufEnd = t.bufPos := of_decide_eq_true hlast
      refine h.step hframe (fun hg => ?_) fun _ => ⟨hlast.symm, rfl⟩
      omega
    · next hlast =>
      have hlast : ¬ t.bufEnd = t.bufPos := fun he => hlast (decide_eq_true he)
      refine h.step hframe (fun _ => ⟨?_, ?_, ?_⟩) fun hd => ?_
      · change (t.bufPos + 1) % 256 = _
        omega
      · have hsucc : (bits.length + 1) % 10 = 0 := by omega
        rw [hsucc]; rfl
      · rw [if_neg (by omega)]
      · omega

/-! ### The attempts in the log -/

/-- The bits fetched since the attempt under way began, newest event first. -/
def fetched : List Ev → Option (List Bool)
  | [] => none
  | .begin :: _ => some []
  | .getBit b _ :: l => (fetched l).map (· ++ [b])
  | .abort _ :: _ => none
  | .sent _ :: _ => none
  | _ :: l => fetched l

section
variable {D : Type}

theorem fetched_told (s : Cec D) : fetched s.told = fetched s.log := by
  rw [Cec.told]
  induction s.log with
  | nil => rfl
  | cons e l ih =>
    cases e with
    | getBit b r => exact congrArg (Option.map _) ih
    | begin => rfl
    | abort err => rfl
    | sent message => rfl
    | _ => exact ih

/-- What an open attempt has sent, and what holds between attempts. -/
structure Framed (act : D → Prop) (s : Cec D) : Prop where
  /-- The driver asks for bits in these two states only. -/
  asks : act s.hw → s.tx.state = .bitEom ∨ s.tx.state = .ack
  busy : s.tx.state.busy → ∃ bits, fetched s.told = some bits ∧ s.tx.Fetched bits
  free : ¬ s.tx.state.busy → fetched s.told = none
  size : s.tx.bufEnd < cecBufferSize
  pos : s.tx.state ≠ .pend → s.tx.bufPos ≤ s.tx.bufEnd

variable [Driver D] {X : Type} {view : D → X} {act : D → Prop}

/-- What an error that takes effect does to the engine. -/
theorem onError_charged {s : Cec D} (hb : s.tx.state.busy) (err : Err) :
    ∃ state needed, (state = .again ∨ state = .failed) ∧
      (state = .failed ↔ (s.tx.retries + 1) % 256 = cecXmitMaxRetransmit) ∧
      (cecTransmitOnError s err).tx = { s.tx with
        stats := Function.update s.tx.stats err.val ((s.tx.stats err.val + 1) % 256)
        retries := (s.tx.retries + 1) % 256, state := state, needed := needed } := by
  rw [cecTransmitOnError, if_pos hb, cecTransmitFinishAbort]
  dsimp only
  split
  · next h => exact ⟨.failed, _, .inr rfl, ⟨fun _ => h, fun _ => rfl⟩, rfl⟩
  · next h => exact ⟨.again, _, .inl rfl, ⟨fun hf => TransmitState.noConfusion hf, fun he => absurd he h⟩, rfl⟩

theorem busy_ne_pend {t : TransmitState} (h : t.busy) : t ≠ .pend := by
  rintro rfl
  exact absurd h (by decide)

theorem busy_not_pending {t : TransmitState} (h : t.busy) : ¬ t.pending := by
  cases t with
  | bitEom => decide
  | ack => decide
  | waitForAck => decide
  | _ => exact absurd h (by decide)

omit [Driver D] in
theorem fetched_start (t : Transmit) (h : t.state = .bitEom) (hpos : t.bufPos = 0) (hbit : t.bufBit = 0x80) :
    t.Fetched [] := by
  refine ⟨List.nil_prefix, fun _ => ⟨hpos, hbit, h⟩, fun hd => ?_, fun l b hl => ?_, fun l b c hl => ?_⟩
  · rw [List.length_nil] at hd; omega
  · simp at hl
  · simp at hl

omit [Driver D] in
/-- A message is queued between attempts. -/
theorem framed_queue {s : Cec D} (h : Framed act s) (hs : s.tx.state.val < TransmitState.pend.val)
    {bufEnd : Nat} (hlt : bufEnd < cecBufferSize) (buf : Nat → Nat) : Framed act (queue s buf bufEnd) := by
  have hfree : ¬ s.tx.state.busy := by
    intro hb
    have : TransmitState.again.val < s.tx.state.val := hb
    exact absurd (Nat.lt_trans this hs) (by decide)
  refine ⟨fun hact => ?_, fun hb => absurd rfl (busy_ne_pend hb), fun _ => h.free hfree, hlt,
    fun hp => absurd rfl hp⟩
  rcases h.asks hact with ha | ha <;> rw [ha] at hs <;> exact absurd hs (by decide)

/-- The bit that is fetched is the next one of the framing. -/
theorem Framed.next {s : Cec D} (h : Framed act s) (ha : act s.hw) :
    ∃ bits, fetched s.told = some bits ∧ s.tx.Fetched bits ∧
      fetched (cecTransmitGetBit s).1.told = some (bits ++ [(cecTransmitGetBit s).2]) ∧
      (cecTransmitGetBit s).1.tx.Fetched (bits ++ [(cecTransmitGetBit s).2]) := by
  have hasked := h.asks ha
  have hbusy : s.tx.state.busy := by rcases hasked with hs | hs <;> rw [hs] <;> decide
  have hsize := h.size
  obtain ⟨bits, hbits, hfetch⟩ := h.busy hbusy
  refine ⟨bits, hbits, hfetch, ?_, getBit_fetched hfetch hasked (by unfold cecBufferSize at hsize; omega) _⟩
  change (fetched s.told).map _ = _
  rw [hbits]
  rfl

/-- Every call keeps the framing. -/
theorem keptCalls_framed (hf : Fetches view act) : KeptCalls act (Framed (D := D) act) where
  quiet {s t} h ht ha hl := by
    have hstate : t.tx.state = s.tx.state := by rw [ht]
    refine ⟨fun hact => by rw [hstate]; exact h.asks (ha hact), fun hb => ?_, fun hb => ?_, by rw [ht]; exact h.size,
      fun hp => ?_⟩
    · obtain ⟨bits, hbits, hfetch⟩ := h.busy (hstate ▸ hb)
      refine ⟨bits, hl ▸ hbits, ?_⟩
      rw [ht]
      exact ⟨hfetch.framed, hfetch.going, hfetch.done, hfetch.last, hfetch.delayed⟩
    · rw [hl]
      exact h.free (hstate ▸ hb)
    · rw [ht]
      exact h.pos (hstate ▸ hp)
  onError {s} err h hb := by
    obtain ⟨state, needed, hs, -, htx⟩ := onError_charged hb err
    obtain ⟨hhw, -, -, htold⟩ := onError_busy hb err
    have hfree : ¬ state.busy := by rcases hs with rfl | rfl <;> decide
    refine ⟨fun hact => ?_, fun hb' => ?_, fun _ => by rw [htold]; rfl, by rw [htx]; exact h.size, fun _ => ?_⟩
    · rw [hhw] at hact
      exact absurd hact (hf.abort s.hw)
    · rw [htx] at hb'
      exact absurd hb' hfree
    · rw [htx]
      exact h.pos (busy_ne_pend hb)
  acked {s} h hw := by
    rw [cecTransmitReceiveAck, if_pos rfl, if_pos hw]
    refine ⟨fun hact => ?_, fun hb => absurd hb (not_busy_idle rfl), fun _ => rfl, h.size, fun _ => h.pos ?_⟩
    · rcases h.asks hact with hs | hs <;> rw [hs] at hw <;> exact TransmitState.noConfusion hw
    · rw [hw]; exact TransmitState.noConfusion
  begin {s t} h _ _ ht hl := by
    have hstate : t.tx.state = .bitEom := by rw [ht]; rfl
    have hend : t.tx.bufEnd = s.tx.bufEnd := by
      rw [ht]
      change (if s.tx.state = .pend then _ else _ : Transmit).bufEnd = _
      split <;> rfl
    have hbusy : t.tx.state.busy := by rw [hstate]; decide
    refine ⟨fun _ => .inl hstate, fun _ => ⟨[], by rw [hl]; rfl, ?_⟩, fun hb => absurd hbusy hb,
      by rw [hend]; exact h.size, fun _ => ?_⟩
    · exact fetched_start t.tx hstate (by rw [ht]; rfl) (by rw [ht]; rfl)
    · rw [ht]; exact Nat.zero_le _
  fetch {s t} h hact ht hl hnext := by
    obtain ⟨bits, -, -, hopen, hfetch⟩ := h.next hact
    rw [← ht] at hfetch
    refine ⟨fun hact' => hfetch.state.resolve_left (hnext hact'), fun _ => ⟨_, hl ▸ hopen, hfetch⟩,
      fun hb => absurd hfetch.busy hb, ?_, fun _ => hfetch.pos⟩
    have hend : t.tx.bufEnd = s.tx.bufEnd := ht ▸ getBit_bufEnd ..
    rw [hend]
    exact h.size
  queued buf bufEnd h hidle hlt := framed_queue h (by rw [hidle]; decide) hlt buf

/-- How many bits have been fetched. -/
def fetchCount (l : List Ev) : Nat := l.countP fun | .getBit .. => true | _ => false

/-- Nothing but a fetch fetches. -/
theorem keptTx_fetchCount (hf : Fetches view act) (n : Nat) :
    KeptTx view fun s : Cec D => fetchCount s.told = n where
  same h _ _ _ hl := by rw [hl]; exact h
  nack := hf.nack
  needed _ _ h := h
  onError err h hb := by
    rw [(onError_busy hb err).2.2.2]
    exact h
  acked h hw := by
    rw [cecTransmitReceiveAck, if_pos rfl, if_pos hw]
    exact h

end

/-! ### Runs -/

/-- The attempts in the state `s`: one is open exactly while the engine is busy, it has sent a prefix of
    the framing of the message, and all of it exactly when the engine waits for the last ack. -/
structure SendsFraming {D : Type} (s : Cec D) : Prop where
  open_iff : (∃ bits, fetched s.log = some bits) ↔ s.tx.state.busy
  framed : ∀ bits, fetched s.log = some bits → bits <+: framing s.tx.message
  whole_iff : ∀ bits, fetched s.log = some bits → (bits = framing s.tx.message ↔ s.tx.state = .waitForAck)
  pos : s.tx.state ≠ .pend → s.tx.bufPos ≤ s.tx.bufEnd

theorem Framed.sends {D : Type} {act : D → Prop} {s : Cec D} (h : Framed act s) : SendsFraming s := by
  have hopen : ∀ bits, fetched s.log = some bits → s.tx.state.busy ∧ s.tx.Fetched bits := by
    intro bits hbits
    rw [← fetched_told] at hbits
    by_cases hb : s.tx.state.busy
    · obtain ⟨bits', hbits', hfetch⟩ := h.busy hb
      rw [hbits] at hbits'
      exact ⟨hb, Option.some.inj hbits' ▸ hfetch⟩
    · rw [h.free hb] at hbits
      exact nomatch hbits
  refine ⟨⟨fun ⟨bits, hbits⟩ => (hopen bits hbits).1, fun hb => ?_⟩, fun bits hbits => (hopen bits hbits).2.framed,
    fun bits hbits => (hopen bits hbits).2.whole_iff, h.pos⟩
  obtain ⟨bits, hbits, -⟩ := h.busy hb
  exact ⟨bits, fetched_told s ▸ hbits⟩

/-- The state of an image just booted has sent nothing. -/
theorem framed_initial {D : Type} {act : D → Prop} {s : Cec D} (htx : s.tx.state = .idle)
    (hbuf : s.tx.bufEnd = 0 ∧ s.tx.bufPos = 0) (hact : ¬ act s.hw) (hlog : s.log = []) : Framed act s := by
  refine ⟨fun h => absurd h hact, fun hb => absurd hb (not_busy_idle htx), fun _ => ?_, ?_, fun _ => ?_⟩
  · rw [Cec.told, hlog]; rfl
  · rw [hbuf.1]; decide
  · rw [hbuf.1, hbuf.2]

theorem addrInit_tx {D : Type} {s : Cec D} (h : s.tx.state = .idle) : (cecAddrInit s).tx = s.tx := by
  rw [cecAddrInit]
  split
  · rfl
  · rw [← h]
  · rfl

namespace Usi

/-- The transmit state in which the step calls `cec_transmit_get_bit`, if it does. -/
def asking (s : Cec Usi) : Step → Option TransmitState
  | .poll others _ =>
    let t := decoded (checkFloat s others)
    if s.hw.usioif ∧ t.hw.xmitState = .bits then some t.tx.state else none
  | _ => none

theorem framed_step {s : Cec Usi} (h : Framed Busy s) (i : Step) : Framed Busy (step i s) :=
  keptCalls_step (keptCalls_framed fetches) h (fun buf _ hlt hend => framed_queue h hlt hend buf) i

theorem framed_run (build : Build) (addr : Addr) (is : List Step) :
    Framed Busy (run step (initial build addr) is) := by
  have h0 : Framed Busy (initial build addr) := by
    refine framed_initial ?_ ⟨?_, ?_⟩ ?_ (addrInit_log _)
    · rw [initial, cecInit, addrInit_tx rfl]; rfl
    · rw [initial, cecInit, addrInit_tx rfl]; rfl
    · rw [initial, cecInit, addrInit_tx rfl]; rfl
    · rw [initial, cecInit, addrInit_hw]
      exact fun h => h rfl
  have hstep : ∀ s i, Framed Busy s → Framed Busy (step i s) := fun s i hs => framed_step hs i
  exact invariant_run' hstep is h0

/-- The engine is asked for a bit in two of its states. -/
theorem asking_state {s : Cec Usi} (h : Framed Busy s) (i : Step) :
    ∀ st ∈ asking s i, st = .bitEom ∨ st = .ack := by
  intro st hst
  cases i with
  | tick _ => exact nomatch hst
  | app _ => exact nomatch hst
  | poll others _ =>
    have hkept := (keptCalls_framed fetches).keptTx fetches
    have hd : Framed Busy (decoded (checkFloat s others)) := keptTx_decoded hkept (keptTx_checkFloat hkept h others)
    rw [asking] at hst
    split at hst
    · next hc =>
      obtain rfl := Option.some.inj hst
      refine hd.asks fun hi => ?_
      rw [hc.2] at hi
      exact UsiXmit.noConfusion hi
    · exact nomatch hst

/-- A step that does not ask fetches nothing. -/
theorem fetchCount_asking (s : Cec Usi) (i : Step) (h : asking s i = none) :
    fetchCount (step i s).told = fetchCount s.told := by
  have hkept : KeptTx Usi.xmitState fun t : Cec Usi => fetchCount t.told = fetchCount s.told :=
    keptTx_fetchCount fetches _
  cases i with
  | tick others => exact keptTx_clock hkept rfl others
  | app a => exact congrArg fetchCount (app_told s a)
  | poll others₁ others₂ =>
    have hfloat := keptTx_checkFloat hkept rfl others₁
    rw [step, cecPeriodic, addrPeriodic_told, cecReceivePeriodic]
    split
    · next ho =>
      have hd := keptTx_decoded hkept hfloat
      refine keptTx_handleAck hkept ?_ others₂
      rw [asking, ho] at h
      change fetchCount (cecUsiNextBit (decoded (checkFloat s others₁))).1.told = _
      rw [cecUsiNextBit]
      split
      · split
        · exact hd
        · exact hd
      · exact hd
      · next hx =>
        rw [if_pos ⟨rfl, hx⟩] at h
        exact absurd h (Option.some_ne_none _)
    · exact keptTx_handleAck hkept hfloat others₂

end Usi

namespace Soft

/-- The transmit state in which the step calls `cec_transmit_get_bit`, if it does. -/
def asking (s : Cec Soft) : Step → Option TransmitState
  | .xmit _ _ =>
    let calls := s.hw.pwm.xmitState = .start ∨ s.hw.pwm.xmitState = .running ∧ s.rx.flags ≠ 0
    if s.hw.pwm.tov1 ∧ calls then some s.tx.state else none
  | _ => none

theorem framed_step {s : Cec Soft} (h : Framed Busy s) (i : Step) : Framed Busy (step i s) :=
  keptCalls_step (keptCalls_framed fetches) h (fun buf _ hlt hend => framed_queue h hlt hend buf) i

theorem framed_run (build : Build) (addr : Addr) (is : List Step) :
    Framed Busy (run step (initial build addr) is) := by
  have h0 : Framed Busy (initial build addr) := by
    refine framed_initial ?_ ⟨?_, ?_⟩ ?_ (addrInit_log _)
    · rw [initial, cecInit, addrInit_tx rfl]; rfl
    · rw [initial, cecInit, addrInit_tx rfl]; rfl
    · rw [initial, cecInit, addrInit_tx rfl]; rfl
    · rw [initial, cecInit, addrInit_hw]
      exact not_busy rfl PwmState.noConfusion PwmState.noConfusion
  have hstep : ∀ s i, Framed Busy s → Framed Busy (step i s) := fun s i hs => framed_step hs i
  exact invariant_run' hstep is h0

theorem asking_state {s : Cec Soft} (h : Framed Busy s) (i : Step) :
    ∀ st ∈ asking s i, st = .bitEom ∨ st = .ack := by
  intro st hst
  cases i with
  | xmit _ _ =>
    rw [asking] at hst
    split at hst
    · next hc =>
      obtain rfl := Option.some.inj hst
      exact h.asks (hc.2.imp id And.left)
    · exact nomatch hst
  | _ => exact nomatch hst

theorem fetchCount_asking (s : Cec Soft) (i : Step) (h : asking s i = none) :
    fetchCount (step i s).told = fetchCount s.told := by
  have hkept : KeptTx Soft.pwm fun t : Cec Soft => fetchCount t.told = fetchCount s.told :=
    keptTx_fetchCount fetches _
  cases i with
  | recv delta level => exact keptTx_recv hkept rfl delta level
  | xmit delta level =>
    have hpwm : fetchCount (xmitPwmPeriodic s).told = fetchCount s.told := by
      rw [xmitPwmPeriodic]
      split
      · rfl
      · next htov =>
        have htov : s.hw.pwm.tov1 = true := by simpa using htov
        have hno : ¬ (s.hw.pwm.xmitState = .start ∨ s.hw.pwm.xmitState = .running ∧ s.rx.flags ≠ 0) := by
          intro hc
          rw [asking, if_pos ⟨htov, hc⟩] at h
          exact absurd h (Option.some_ne_none _)
        dsimp only
        split
        · next hx =>
          split
          · exact hkept.error (s := setPwm s fun p => { p with tov1 := false }) rfl .arbLost
          · next hne => exact absurd (.inr ⟨hx, hne⟩) hno
        · next hx => exact absurd (.inl hx) hno
        all_goals rfl
    have hfirst : fetchCount (if s.hw.pwm.xmitState ≠ .idle then xmitPwmPeriodic s else s).told
        = fetchCount s.told := by
      split
      · exact hpwm
      · rfl
    rw [step, cecTransmitPeriodic, ← hfirst]
    generalize (if s.hw.pwm.xmitState ≠ .idle then xmitPwmPeriodic s else s) = t
    dsimp only
    repeat' split
    all_goals rfl
  | addr => exact congrArg fetchCount (addrPeriodic_told s)
  | overflow =>
    rw [step, timerOverflow]
    split <;> rfl
  | app a => exact congrArg fetchCount (app_told s a)

end Soft

/-- The attempts of a device that is in the state `s`, and what its next step may fetch. -/
structure FramesAttempts {D I : Type} (step : I → Cec D → Cec D)
    (asking : Cec D → I → Option TransmitState) (s : Cec D) : Prop where
  sends : SendsFraming s
  asks : ∀ i, ∀ st ∈ asking s i, st = .bitEom ∨ st = .ack
  fetches : ∀ i, asking s i = none → fetchCount (step i s).told = fetchCount s.told

/-- In every run of both builds every attempt sends a prefix of the framing of its message, and
    `cec_transmit_get_bit` is called in the states `bitEom` and `ack` only. -/
theorem every_attempt_framed (build : Build) (addr : Addr) :
    (∀ is, FramesAttempts Usi.step Usi.asking (run Usi.step (Usi.initial build addr) is)) ∧
      ∀ is, FramesAttempts Soft.step Soft.asking (run Soft.step (Soft.initial build addr) is) := by
  constructor
  · intro is
    have h := Usi.framed_run build addr is
    exact ⟨h.sends, Usi.asking_state h, Usi.fetchCount_asking _⟩
  · intro is
    have h := Soft.framed_run build addr is
    exact ⟨h.sends, Soft.asking_state h, Soft.fetchCount_asking _⟩

/-- Two bytes have been sent when a ping is queued: the position is past its end until the next
    attempt begins. -/
theorem bufPos_stale :
    let s := run Usi.step (Usi.initial {} (.fixed 4))
      (.app (.send [0x4f, 0x36]) :: Usi.byteTimes 28 ++ [.app (.send [0x45])])
    s.tx.state = .pend ∧ s.tx.bufEnd = 0 ∧ s.tx.bufPos = 1 := by
  decide +kernel

end AvrCec
