import AvrCec.Listening

/-! The echo of an attempt.

    A transmitter hears its own bits: the receive engine should be one or two bits behind it. As long as
    every byte sent is heard as one bit (`Paced`), the reception open in an attempt was opened by the
    attempt's own start bit and has heard the message's framing with every block acked (`Opened`,
    `Due.bit`). A success reported then, and a nack charged to the message, are backed by what was heard
    (`Backed`). -/

namespace AvrCec
open Lib

/-! ### The echo of a message -/

/-- The message is a broadcast: the low nibble of its header byte is 15. -/
def Broadcast (message : List Nat) : Prop := ∃ b ∈ message.head?, b % 16 = cecAddrBroadcast

instance (message : List Nat) : Decidable (Broadcast message) := by unfold Broadcast; infer_instance

/-- The level of a positive ack. -/
def ackLevel (message : List Nat) : Bool := Broadcast message

/-- The framing of a message whose every block is positively acked. -/
def echo (message : List Nat) : List Bool := flat (blocksOf (ackLevel message) message)

@[simp] theorem length_echo (m : List Nat) : (echo m).length = 10 * m.length := by
  simp [echo]

theorem length_take_echo {m : List Nat} {c : Nat} (hc : c ≤ 10 * m.length) : ((echo m).take c).length = c := by
  rw [List.length_take, length_echo]
  omega

theorem take_echo_ne {m : List Nat} {c : Nat} (hc : c < 10 * m.length) : (echo m).take c ≠ echo m := by
  intro heq
  have hlen := congrArg List.length heq
  rw [length_take_echo hc.le, length_echo] at hlen
  omega

/-- Outside of the ack slots the echo is what was sent. -/
theorem getElem?_echo (m : List Nat) (n : Nat) (h : n < 10 * m.length) :
    (echo m)[n]? = if n % 10 = 9 then some (ackLevel m) else (framing m)[n]? := by
  have hlt : n / 10 < m.length := by omega
  have hmod : n % 10 < 10 := Nat.mod_lt _ (by omega)
  rw [echo, framing, getElem?_flat, getElem?_flat, getElem?_blocksOf, getElem?_blocksOf,
    List.getElem?_eq_getElem hlt]
  simp only [Option.map_some, Option.bind_some, getElem?_bits]
  rcases (by omega : n % 10 < 8 ∨ n % 10 = 8 ∨ n % 10 = 9) with h | h | h
  · rw [if_pos h, if_pos h, if_neg (by omega)]
  · rw [if_neg (by omega), if_pos h, if_neg (by omega), if_neg (by omega), if_pos h]
  · rw [if_neg (by omega), if_neg (by omega), if_pos h, if_pos h]

/-- The EOM bits of the echo: none but the last of a message of several blocks. -/
theorem echo_eom {m : List Nat} {n : Nat} (h : n < 10 * m.length) (h8 : n % 10 = 8) :
    (echo m)[n]? = some (decide (n / 10 + 1 = m.length ∧ m.length ≠ 1)) := by
  have hlt : n / 10 < m.length := by omega
  rw [echo, getElem?_flat, getElem?_blocksOf, List.getElem?_eq_getElem hlt]
  simp only [Option.map_some, Option.bind_some, getElem?_bits]
  rw [if_neg (by omega), if_pos h8]

theorem toBits_mod (n : Nat) : toBits 8 (n % 256) = toBits 8 n := by
  rw [toBits, toBits]
  refine List.map_congr_left fun i hi => ?_
  have hi : i < 8 := List.mem_range.mp hi
  rw [show (256 : Nat) = 2 ^ 8 from rfl, Nat.testBit_mod_two_pow, decide_eq_true (by omega), Bool.true_and]

/-- Only the low byte of a block's data is sent. -/
def Block.low (b : Block) : Block := { b with data := b.data % 256 }

theorem flat_low (ms : List Block) : flat (ms.map Block.low) = flat ms := by
  induction ms with
  | nil => rfl
  | cons b ms ih =>
    rw [List.map_cons, flat_cons, flat_cons, ih, Block.bits, Block.bits, Block.low, toBits_mod]

theorem isBcast_low (m : List Nat) (ack : Bool) : IsBcast ((blocksOf ack m).map Block.low) ↔ Broadcast m := by
  cases m with
  | nil => simp [IsBcast, Broadcast, blocksOf]
  | cons b m =>
    have hmod : b % 256 % 16 = b % 16 := by omega
    simp [IsBcast, Broadcast, blocksOf, Block.low, hmod]

/-- In the header block's ack slot and after it the engine's ack of a level is the message's. -/
theorem ack_echo {hdr : Nat} {buf₀ : Nat → Nat} {m : List Nat} {rx : Receive} {c : Nat}
    (h : Tracks hdr buf₀ ((echo m).take c) rx) (h8 : 8 ≤ c) (hc : c ≤ 10 * m.length) (hm : m.length ≤ 256)
    (level : Bool) : rx.flags.ack level = true ↔ level = ackLevel m := by
  have hlen := length_take_echo hc
  have hack := @ack_iff _ _ ((blocksOf (ackLevel m) m).map Block.low) _ _ h ?_ ?_ (by rw [hlen]; exact h8)
    (by unfold blocks; rw [hlen]; omega) level
  · rw [hack, Acked, ackLevel]
    simp only [isBcast_low]
  · intro b hb
    obtain ⟨b', -, rfl⟩ := List.mem_map.mp hb
    exact Nat.mod_lt _ (by decide)
  · rw [flat_low]
    exact List.take_prefix ..

/-- An ack slot before the last follows a clear EOM bit. -/
theorem eom_echo {hdr : Nat} {buf₀ : Nat → Nat} {m : List Nat} {rx : Receive} {c : Nat}
    (h : Tracks hdr buf₀ ((echo m).take c) rx) (h9 : c % 10 = 9) (hc : c + 1 < 10 * m.length) :
    rx.flags.eom = false := by
  obtain ⟨c, rfl⟩ := Nat.exists_eq_add_of_le' (by omega : 1 ≤ c)
  have hbit := echo_eom (m := m) (n := c) (by omega) (by omega)
  have htake : (echo m).take (c + 1) = (echo m).take c ++ [decide (c / 10 + 1 = m.length ∧ m.length ≠ 1)] := by
    rw [List.take_add_one, hbit]
    rfl
  rw [h.eom, htake, getLastD_concat, decide_eq_false (by omega : ¬ (c / 10 + 1 = m.length ∧ m.length ≠ 1)),
    Bool.and_false]

/-! ### Successes and nacks in the log -/

/-- How many bits of the attempt under way had been fetched when its reception was opened. -/
def openedAt : List Ev → Option Nat
  | [] => none
  | .begin :: _ => none
  | .start :: l => (fetched l).map List.length
  | _ :: l => openedAt l

/-- The open reception was opened by the start bit of the attempt under way: by the second byte of the
    start pattern or, where that byte's high ticks end on time, the byte after it. -/
def OwnEcho (l : List Ev) : Prop := openedAt l = some 1 ∨ openedAt l = some 2

instance (l : List Ev) : Decidable (OwnEcho l) := by unfold OwnEcho; infer_instance

/-- What the receive engine has consumed when a success is reported. -/
structure Succeeded (m : List Nat) (l : List Ev) : Prop where
  bits : openBits l = some (echo m)
  start : OwnEcho l

/-- What it has consumed when the ack of a block is missing: the block and the blocks before it, all of
    them sent. -/
structure Refused (m : List Nat) (l : List Ev) : Prop where
  start : OwnEcho l
  bits : ∃ c, c % 10 = 9 ∧ c < 10 * m.length ∧ openBits l = some ((echo m).take c ++ [!ackLevel m]) ∧
    ∃ sent, fetched l = some sent ∧ sent <+: framing m ∧ c < sent.length

/-- The attempt ended. -/
def Ev.settles : Ev → Bool
  | .abort _ | .sent _ => true
  | _ => false

/-- A byte or a header was written, or cleared. -/
def Ev.files : Ev → Bool
  | .store .. | .header _ | .done | .clear => true
  | _ => false

section
variable {D : Type}

/-- Every success and every nack charged to the message is backed by what was heard. -/
structure Backed (s : Cec D) : Prop where
  sent : ∀ m l, .sent m :: l <:+ s.log → Succeeded m l
  nacked : s.tx.state ≠ .pend → s.tx.stats Err.nack.val ≠ 0 →
    ∃ l, .abort .nack :: l <:+ s.log ∧ Refused s.tx.message l

theorem suffix_of_settles {e : Ev} (he : e.settles = true) {es l l' : List Ev}
    (hes : ∀ e ∈ es, e.settles = false) (h : e :: l' <:+ es ++ l) : e :: l' <:+ l := by
  induction es with
  | nil => exact h
  | cons f es ih =>
    rcases List.suffix_cons_iff.mp h with heq | h
    · obtain ⟨rfl, -⟩ := List.cons.inj heq
      rw [hes e (List.mem_cons_self ..)] at he
      exact Bool.noConfusion he
    · exact ih (fun e he => hes e (List.mem_cons_of_mem _ he)) h

/-- Events between the ends of attempts. -/
theorem Backed.extend {s t : Cec D} (h : Backed s) (es : List Ev) (hlog : t.log = es ++ s.log)
    (hes : ∀ e ∈ es, e.settles = false)
    (hn : t.tx.state ≠ .pend → t.tx.stats Err.nack.val ≠ 0 → t.tx.message = s.tx.message ∧
      s.tx.state ≠ .pend ∧ s.tx.stats Err.nack.val ≠ 0) : Backed t := by
  refine ⟨fun m l hs => h.sent m l (suffix_of_settles rfl hes (hlog ▸ hs)), fun hp h0 => ?_⟩
  obtain ⟨hm, hp', h0'⟩ := hn hp h0
  obtain ⟨l, hl, hr⟩ := h.nacked hp' h0'
  refine ⟨l, ?_, by rw [hm]; exact hr⟩
  rw [hlog]
  exact hl.trans (List.suffix_append ..)

/-- Nothing that a success or a nack depends on has changed. -/
theorem Backed.same {s t : Cec D} (h : Backed s) (ht : t.tx = s.tx) (es : List Ev)
    (hlog : t.log = es ++ s.log) (hes : ∀ e ∈ es, e.settles = false) : Backed t :=
  h.extend es hlog hes fun hp h0 => ⟨by rw [ht], by rw [← ht]; exact hp, by rw [← ht]; exact h0⟩

variable [Driver D]

/-- An error other than a nack. -/
theorem Backed.onError {s : Cec D} (h : Backed s) {err : Err} (hne : err ≠ .nack) :
    Backed (cecTransmitOnError s err) := by
  by_cases hb : s.tx.state.busy
  · obtain ⟨state, needed, hs, -, htx⟩ := onError_charged hb err
    have hlog : (cecTransmitOnError s err).log = .abort err :: s.log := by
      rw [cecTransmitOnError, if_pos hb]; rfl
    refine ⟨fun m l hsuf => ?_, fun _ h0 => ?_⟩
    · rw [hlog] at hsuf
      rcases List.suffix_cons_iff.mp hsuf with heq | hsuf
      · exact Ev.noConfusion (List.cons.inj heq).1
      · exact h.sent m l hsuf
    · rw [htx] at h0 ⊢
      have hval : Err.nack.val ≠ err.val := by cases err <;> first | decide | exact absurd rfl hne
      change Function.update s.tx.stats err.val _ Err.nack.val ≠ 0 at h0
      rw [Function.update_of_ne hval] at h0
      obtain ⟨l, hl, hr⟩ := h.nacked (busy_ne_pend hb) h0
      exact ⟨l, hlog ▸ hl.trans (List.suffix_cons ..), hr⟩
  · rwa [cecTransmitOnError, if_neg hb]

/-- A nack, whose block was heard as it was sent. -/
theorem Backed.nack {s : Cec D} (h : Backed s) (hb : s.tx.state.busy) (hr : Refused s.tx.message s.log) :
    Backed (cecTransmitOnError s .nack) := by
  obtain ⟨state, needed, hs, -, htx⟩ := onError_charged hb .nack
  have hlog : (cecTransmitOnError s .nack).log = .abort .nack :: s.log := by
    rw [cecTransmitOnError, if_pos hb]; rfl
  refine ⟨fun m l hsuf => ?_, fun _ _ => ⟨s.log, hlog ▸ List.suffix_rfl, by rw [htx]; exact hr⟩⟩
  rw [hlog] at hsuf
  rcases List.suffix_cons_iff.mp hsuf with heq | hsuf
  · exact Ev.noConfusion (List.cons.inj heq).1
  · exact h.sent m l hsuf

/-- A success, when the whole echo has been heard. -/
theorem Backed.acked {s : Cec D} (h : Backed s) (hw : s.tx.state = .waitForAck)
    (hs : Succeeded s.tx.message s.log) : Backed (cecTransmitReceiveAck s true) := by
  rw [cecTransmitReceiveAck, if_pos rfl, if_pos hw]
  refine ⟨fun m l hsuf => ?_, fun _ h0 => ?_⟩
  · rcases List.suffix_cons_iff.mp hsuf with heq | hsuf
    · obtain ⟨he, rfl⟩ := List.cons.inj heq
      obtain rfl := Ev.sent.inj he
      exact hs
    · exact h.sent m l hsuf
  · obtain ⟨l, hl, hr⟩ := h.nacked (by rw [hw]; exact TransmitState.noConfusion) h0
    exact ⟨l, hl.trans (List.suffix_cons ..), hr⟩

/-! ### A bit of the echo -/

omit [Driver D] in
theorem emitIf_log (s : Cec D) (c : Bool) {e : Ev} (he : e.files = true) :
    ∃ es, (s.emitIf c e).log = es ++ s.log ∧ ∀ f ∈ es, f.files = true := by
  cases c with
  | false => exact ⟨[], rfl, fun _ h => nomatch h⟩
  | true => exact ⟨[e], rfl, fun f h => List.mem_singleton.mp h ▸ he⟩

omit [Driver D] in
theorem receiveDone_log (s : Cec D) (f : Flags) (p : Nat) :
    ∃ es, (receiveDone s f p).log = es ++ s.log ∧ ∀ e ∈ es, e.files = true := by
  obtain ⟨es, hlog, hes⟩ := emitIf_log s (!f.ignore) (e := .header (p ||| f.status)) rfl
  refine ⟨.done :: es, congrArg (Ev.done :: ·) hlog, fun e he => ?_⟩
  rcases List.mem_cons.mp he with rfl | he
  · rfl
  · exact hes e he

/-- What a bit adds to the log once the transmit engine has had it. -/
theorem receiveBit_log (s : Cec D) (b : Bool) :
    ∃ es, (cecReceiveBit s b).log = es ++ (heardByTransmit s b).log ∧ ∀ e ∈ es, e.files = true := by
  have hnone : ∀ l : List Ev, ∃ es, l = es ++ l ∧ ∀ e ∈ es, e.files = true :=
    fun l => ⟨[], rfl, fun _ h => nomatch h⟩
  rw [cecReceiveBit, heardByTransmit]
  split
  · rw [receiveDataEom]
    dsimp only
    split
    · split
      · exact emitIf_log (cecCheckTxBit (s.emit (.bit b)) b) _ rfl
      · exact hnone _
    · exact hnone _
  · rw [receiveAck]
    dsimp only
    generalize (if (!s.rx.flags.ack b) = true then { s.rx.flags with nacked := true } else s.rx.flags) = g
    split
    · exact receiveDone_log ..
    · exact hnone _

omit [Driver D] in
theorem openedAt_files {es : List Ev} (hes : ∀ e ∈ es, e.files = true) (l : List Ev) :
    openedAt (es ++ l) = openedAt l := by
  induction es with
  | nil => rfl
  | cons e es ih =>
    have he := hes e (List.mem_cons_self ..)
    have ih := ih fun f hf => hes f (List.mem_cons_of_mem _ hf)
    cases e with
    | store => exact ih
    | header => exact ih
    | done => exact ih
    | clear => exact ih
    | _ => exact Bool.noConfusion he

theorem settles_of_files {es : List Ev} (hes : ∀ e ∈ es, e.files = true) : ∀ e ∈ es, e.settles = false := by
  intro e he
  have h := hes e he
  cases e with
  | abort => exact Bool.noConfusion h
  | sent => exact Bool.noConfusion h
  | _ => rfl

omit [Driver D] in
theorem openBits_heard (s : Cec D) : openBits s.heard = openBits s.log := by
  rw [Cec.heard]
  induction s.log with
  | nil => rfl
  | cons e l ih =>
    cases e with
    | bit b => exact congrArg (Option.map _) ih
    | start => rfl
    | done => rfl
    | error => rfl
    | _ => exact ih

/-- A bit that does not end the reception is the next one of it. -/
theorem receiveBit_openBits {buf₀ : Nat → Nat} {bits : List Bool} {s : Cec D}
    (h : Tracks s.build.hdr buf₀ bits s.rx) (ho : openBits s.log = some bits) {b : Bool}
    (hgo : phase bits = 9 → s.rx.ends b = false) : openBits (cecReceiveBit s b).log = some (bits ++ [b]) := by
  have ho' : openBits (.bit b :: s.heard) = some (bits ++ [b]) := openBits_bit (openBits_heard s ▸ ho) b
  rw [← openBits_heard]
  by_cases h7 : phase bits = 7
  · have hsame := sameReceive_checkTxBit (s.emit (.bit b)) b
    have hemit : (s.emit (.bit b)).heard = .bit b :: s.heard := by simp [emit_heard, Ev.ofReceive]
    rw [receiveBit_done h h7, receiveByteDone_heard, hsame.heard, hemit]
    split
    · exact ho'
    · exact ho'
  · rw [receiveBit_heard h h7 hgo]
    exact ho'

/-- The open reception is the echo of the attempt under way, up to bit `c`. -/
structure Opened (s : Cec D) (c : Nat) : Prop where
  tracks : ∃ buf₀, Tracks s.build.hdr buf₀ ((echo s.tx.message).take c) s.rx
  bits : openBits s.log = some ((echo s.tx.message).take c)
  start : OwnEcho s.log

omit [Driver D] in
theorem Opened.flags {s : Cec D} {c : Nat} (h : Opened s c) : s.rx.flags ≠ 0 := by
  obtain ⟨_, ht⟩ := h.tracks
  exact ht.flags_ne

/-- `t` has the receive engine of `s`, up to a cleared header. -/
structure KeepsRx (s t : Cec D) : Prop where
  build : t.build = s.build
  rx : t.rx = s.rx ∨ t.rx = (clearHeader s).rx

omit [Driver D] in
theorem KeepsRx.flags {s t : Cec D} (h : KeepsRx s t) : t.rx.flags = s.rx.flags := by
  rcases h.rx with hr | hr <;> rw [hr]
  rfl

omit [Driver D] in
/-- Nothing that the reception depends on has changed. -/
theorem Opened.same {s t : Cec D} {c : Nat} (h : Opened s c) (hk : KeepsRx s t)
    (hm : t.tx.message = s.tx.message) (hb : openBits t.log = openBits s.log)
    (hs : openedAt t.log = openedAt s.log) : Opened t c := by
  obtain ⟨buf₀, ht⟩ := h.tracks
  refine ⟨?_, by rw [hb, hm]; exact h.bits, by rw [OwnEcho, hs]; exact h.start⟩
  rw [hm, hk.build]
  rcases hk.rx with hr | hr
  · exact ⟨buf₀, hr ▸ ht⟩
  · exact ⟨_, hr ▸ tracks_clear ht⟩

omit [Driver D] in
/-- The bit that is due back, two behind the fetched ones. -/
theorem delayed_framing {t : Transmit} {sent : List Bool} (h : t.Fetched sent) {c : Nat} (hc : c + 2 = sent.length) :
    ∃ x : Bool, (framing t.message)[c]? = some x ∧ t.delayed = x.toNat := by
  have hsplit : sent = sent.take c ++ [sent[c], sent[c + 1]] := by
    conv_lhs => rw [← List.take_append_drop c sent]
    rw [List.drop_eq_getElem_cons (by omega), List.drop_eq_getElem_cons (by omega),
      List.drop_eq_nil_of_le (by omega)]
  refine ⟨sent[c], ?_, h.delayed _ _ _ hsplit⟩
  obtain ⟨l, hl⟩ := h.framed
  rw [← hl, List.getElem?_append_left (by omega), List.getElem?_eq_getElem (by omega)]

/-- The attempt under way has fetched `sent`. -/
structure Sending (s : Cec D) (sent : List Bool) : Prop where
  backed : Backed s
  fetched : fetched s.told = some sent
  tx : s.tx.Fetched sent
  size : s.tx.bufEnd < cecBufferSize

/-- Bit `c` is due: the transmitter is one or two bits ahead of it. -/
structure Due (s : Cec D) (sent : List Bool) (c : Nat) : Prop extends Sending s sent where
  opened : Opened s c
  behind : c + 2 = sent.length ∨ sent.length = 10 * (s.tx.bufEnd + 1) ∧ c + 1 = sent.length

namespace Due
variable {s : Cec D} {sent : List Bool} {c : Nat}

omit [Driver D] in
theorem lt (h : Due s sent c) : c < 10 * s.tx.message.length := by
  have hle := h.tx.length_le
  have hc := h.behind
  rw [length_message]
  omega

omit [Driver D] in
theorem phase_eq (h : Due s sent c) : phase ((echo s.tx.message).take c) = c % 10 := by
  have hlt := h.lt
  rw [phase, List.length_take, length_echo]
  congr 1
  omega

omit [Driver D] in
theorem emit (h : Due s sent c) (b : Bool) : Backed (s.emit (.bit b)) :=
  h.backed.same rfl [.bit b] rfl fun _ he => List.mem_singleton.mp he ▸ rfl

/-- What the receive engine makes of the bit adds no end of an attempt. -/
theorem backed_bit {b : Bool} (h : Backed (heardByTransmit s b)) : Backed (cecReceiveBit s b) := by
  obtain ⟨es, hlog, hes⟩ := receiveBit_log s b
  exact h.same (sameTransmit_receiveBit s b).tx _ hlog (settles_of_files hes)

/-- The transmit engine has nothing to say, and the reception goes on with the next bit of the echo. -/
theorem goes_on (h : Due s sent c) {b : Bool} (hsame : heardByTransmit s b = s.emit (.bit b))
    (hgo : c % 10 = 9 → s.rx.ends b = false) (hnext : (echo s.tx.message)[c]? = some b) :
    (cecReceiveBit s b).tx = s.tx ∧ Opened (cecReceiveBit s b) (c + 1) := by
  obtain ⟨buf₀, ht⟩ := h.opened.tracks
  obtain ⟨es, hlog, hes⟩ := receiveBit_log s b
  have htx : (cecReceiveBit s b).tx = s.tx := by rw [(sameTransmit_receiveBit s b).tx, hsame, emit_tx]
  have hgo' : phase ((echo s.tx.message).take c) = 9 → s.rx.ends b = false := fun h9 => hgo (h.phase_eq ▸ h9)
  have htake : (echo s.tx.message).take (c + 1) = (echo s.tx.message).take c ++ [b] := by
    rw [List.take_add_one, hnext]
    rfl
  refine ⟨htx, ⟨buf₀, ?_⟩, ?_, ?_⟩
  · rw [htx, htake, (receiveBit_build s b).1]
    by_cases h9 : phase ((echo s.tx.message).take c) = 9
    · exact tracks_next ht h9 (hgo' h9)
    · exact tracks_data ht h9 b
  · rw [receiveBit_openBits ht h.opened.bits hgo', htx, htake]
  · rw [OwnEcho, hlog, hsame, openedAt_files hes]
    exact h.opened.start

/-- A data or EOM bit is checked against the bit sent. -/
theorem data (h : Due s sent c) (h9 : c % 10 ≠ 9) (b : Bool) :
    Backed (cecReceiveBit s b) ∧ ((cecReceiveBit s b).tx.state.busy →
      (cecReceiveBit s b).tx = s.tx ∧ Opened (cecReceiveBit s b) (c + 1)) := by
  obtain ⟨buf₀, ht⟩ := h.opened.tracks
  have hlt := h.lt
  have hm := length_message s.tx
  have heom : s.rx.flags.bitsEom = true := by rw [ht.bitsEom, h.phase_eq, decide_eq_true h9]
  have hheard : heardByTransmit s b = cecCheckTxBit (s.emit (.bit b)) b := by
    rw [heardByTransmit, heom]
    rfl
  obtain ⟨x, hx, hdelayed⟩ := delayed_framing h.tx (h.behind.resolve_right fun hc => by omega)
  by_cases hbx : b = x
  · have hsame : heardByTransmit s b = s.emit (.bit b) := by
      rw [hheard, cecCheckTxBit, if_neg]
      change ¬ b.toNat ≠ s.tx.delayed
      rw [hdelayed, hbx]
      exact fun hne => hne rfl
    have hnext : (echo s.tx.message)[c]? = some b := by rw [getElem?_echo _ _ hlt, if_neg h9, hx, hbx]
    exact ⟨backed_bit (hsame ▸ h.emit b), fun _ => h.goes_on hsame (fun hc => absurd hc h9) hnext⟩
  · have hlost : heardByTransmit s b = cecTransmitOnError (s.emit (.bit b)) .arbLost := by
      rw [hheard, cecCheckTxBit, if_pos]
      change b.toNat ≠ s.tx.delayed
      rw [hdelayed]
      cases b <;> cases x <;> first | decide | exact absurd rfl hbx
    refine ⟨backed_bit ?_, fun hb => ?_⟩
    · rw [hlost]
      exact (h.emit b).onError Err.noConfusion
    · rw [(sameTransmit_receiveBit s b).tx, hlost] at hb
      exact absurd hb (onError_free _ _)

/-- The ack bit of a block. -/
theorem ack (h : Due s sent c) (h9 : c % 10 = 9) (b : Bool) :
    Backed (cecReceiveBit s b) ∧ ((cecReceiveBit s b).tx.state.busy →
      (cecReceiveBit s b).tx = s.tx ∧ Opened (cecReceiveBit s b) (c + 1) ∧ c + 2 = sent.length) := by
  obtain ⟨buf₀, ht⟩ := h.opened.tracks
  have hlt := h.lt
  have hm := length_message s.tx
  have hsize := h.size
  have htx := (sameTransmit_receiveBit s b).tx
  have heom : s.rx.flags.bitsEom = false := by rw [ht.bitsEom, h.phase_eq, h9]; rfl
  have hheard : heardByTransmit s b = cecTransmitReceiveAck (s.emit (.bit b)) (s.rx.flags.ack b) := by
    rw [heardByTransmit, heom]
    rfl
  have hack := ack_echo ht (by omega) (by omega) (by unfold cecBufferSize at hsize; omega) b
  have hopen : openBits (s.emit (.bit b)).log = some ((echo s.tx.message).take c ++ [b]) :=
    openBits_bit h.opened.bits b
  cases hab : s.rx.flags.ack b with
  | false =>
    have hneg : b = !ackLevel s.tx.message := Bool.eq_not.mpr fun he => by
      rw [hack.mpr he] at hab
      exact Bool.noConfusion hab
    rw [hab] at hheard
    refine ⟨backed_bit ?_, fun hb => ?_⟩
    · rw [hheard]
      refine (h.emit b).nack h.tx.busy ⟨h.opened.start, c, h9, hlt, ?_, sent, ?_, h.tx.framed, ?_⟩
      · rw [hopen, hneg]; rfl
      · exact (fetched_told s).symm.trans h.fetched
      · have := h.behind
        omega
    · rw [htx, hheard] at hb
      exact absurd hb (onError_free _ _)
  | true =>
    have hnext : (echo s.tx.message)[c]? = some b := by rw [getElem?_echo _ _ hlt, if_pos h9, hack.mp hab]
    rw [hab] at hheard
    by_cases hw : s.tx.state = .waitForAck
    · have hall : sent.length = 10 * (s.tx.bufEnd + 1) := by
        rw [h.tx.whole_iff.mpr hw, length_framing, hm]
      have hlast : (echo s.tx.message).take c ++ [b] = echo s.tx.message := by
        have htake : (echo s.tx.message).take (c + 1) = (echo s.tx.message).take c ++ [b] := by
          rw [List.take_add_one, hnext]; rfl
        have hbehind := h.behind
        rw [← htake, List.take_of_length_le (by rw [length_echo]; omega)]
      refine ⟨backed_bit ?_, fun hb => ?_⟩
      · rw [hheard]
        exact (h.emit b).acked hw ⟨by rw [hopen, hlast]; rfl, h.opened.start⟩
      · have hidle : (cecReceiveBit s b).tx.state = .idle := by
          rw [htx, hheard, cecTransmitReceiveAck, if_pos rfl, if_pos (by exact hw)]
        exact absurd hb (not_busy_idle hidle)
    · have hsame : heardByTransmit s b = s.emit (.bit b) := by
        rw [hheard, cecTransmitReceiveAck, if_pos rfl, if_neg (by exact hw)]
      have hc2 : c + 2 = sent.length := h.behind.resolve_right fun hc => hw (h.tx.done hc.1).2
      have hle := h.tx.length_le
      have hends : s.rx.ends b = false := by
        rw [Receive.ends, hab, eom_echo ht h9 (by omega)]
        rfl
      obtain ⟨hsametx, hopened⟩ := h.goes_on hsame (fun _ => hends) hnext
      exact ⟨backed_bit (hsame ▸ h.emit b), fun _ => ⟨hsametx, hopened, hc2⟩⟩

/-- One more bit: it is the next bit of the echo, or it ends the attempt. -/
theorem bit (h : Due s sent c) (b : Bool) :
    Backed (s.hear (.bit b)) ∧ ((s.hear (.bit b)).tx.state.busy →
      Sending (s.hear (.bit b)) sent ∧ Opened (s.hear (.bit b)) (c + 1) ∧ c + 2 = sent.length) := by
  have hone : Backed (cecReceiveBit s b) ∧ ((cecReceiveBit s b).tx.state.busy →
      (cecReceiveBit s b).tx = s.tx ∧ Opened (cecReceiveBit s b) (c + 1) ∧ c + 2 = sent.length) := by
    by_cases h9 : c % 10 = 9
    · exact h.ack h9 b
    · obtain ⟨hb, hgo⟩ := h.data h9 b
      have hc2 : c + 2 = sent.length := h.behind.resolve_right fun hc => by omega
      exact ⟨hb, fun hbusy => ⟨(hgo hbusy).1, (hgo hbusy).2, hc2⟩⟩
  refine ⟨hone.1, fun hb => ?_⟩
  obtain ⟨htx, hopened, hc2⟩ := hone.2 hb
  have htold : (s.hear (.bit b)).told = s.told := (hear_busy hb).2.1
  refine ⟨⟨hone.1, by rw [htold]; exact h.fetched, ?_, ?_⟩, hopened, hc2⟩
  · change (cecReceiveBit s b).tx.Fetched sent
    rw [htx]
    exact h.tx
  · change (cecReceiveBit s b).tx.bufEnd < cecBufferSize
    rw [htx]
    exact h.size

end Due

/-- A start bit, while one or two bits of the attempt have been fetched. -/
theorem sending_start {s : Cec D} {sent : List Bool} (h : Sending s sent) :
    Sending (s.hear .start) sent ∧ (sent.length = 1 ∨ sent.length = 2 → Opened (s.hear .start) 0) := by
  have hbacked : Backed (s.hear .start) :=
    h.backed.extend [.start] rfl (fun _ he => List.mem_singleton.mp he ▸ rfl) fun hp h0 => ⟨rfl, hp, h0⟩
  have hfetched : fetched (s.hear .start).told = some sent := by
    change fetched (s.emit .start).told = some sent
    rw [emit_told s rfl]
    exact h.fetched
  have htx : (s.hear .start).tx.Fetched sent := ⟨h.tx.framed, h.tx.going, h.tx.done, h.tx.last, h.tx.delayed⟩
  refine ⟨⟨hbacked, hfetched, htx, h.size⟩, fun hlen => ⟨⟨_, tracks_start s⟩, ?_, ?_⟩⟩
  · change some [] = some (List.take 0 _)
    rfl
  · have hopened : openedAt (s.hear .start).log = some sent.length := by
      change (fetched s.log).map List.length = _
      rw [← fetched_told, h.fetched]
      rfl
    rw [OwnEcho, hopened]
    exact hlen.imp (congrArg some) (congrArg some)

/-! ### The calls of a byte in an attempt -/

/-- The starts and bits heard until the attempt ends. -/
def reaching (s : Cec D) : List Heard → List Heard
  | [] => []
  | .error err :: cs => reaching (s.hear (.error err)) cs
  | c :: cs => if s.tx.state.busy then c :: reaching (s.hear c) cs else []

/-- An error ends the reception. -/
def broken (s : Cec D) : List Heard → Bool
  | [] => false
  | .error err :: cs => s.rx.flags ≠ 0 || broken (s.hear (.error err)) cs
  | c :: cs => broken (s.hear c) cs

theorem reaching_cons (s : Cec D) {c : Heard} (hc : ∀ err, c ≠ .error err) (cs : List Heard) :
    reaching s (c :: cs) = if s.tx.state.busy then c :: reaching (s.hear c) cs else [] := by
  cases c with
  | error err => exact absurd rfl (hc err)
  | start => rfl
  | bit b => rfl

theorem hear_free {s : Cec D} (hb : ¬ s.tx.state.busy) (c : Heard) : ¬ (s.hear c).tx.state.busy := fun hb' =>
  hb ((hear_busy hb').1 ▸ hb')

theorem reaching_free {s : Cec D} (hb : ¬ s.tx.state.busy) (cs : List Heard) : reaching s cs = [] := by
  induction cs generalizing s with
  | nil => rfl
  | cons c cs ih =>
    cases c with
    | error err => exact ih (hear_free hb _)
    | start => exact if_neg hb
    | bit b => exact if_neg hb

/-- No errors are among them. -/
theorem reaching_error (s : Cec D) (err : Err) (cs : List Heard) : .error err ∉ reaching s cs := by
  induction cs generalizing s with
  | nil => exact List.not_mem_nil
  | cons c cs ih =>
    rcases Classical.em (∃ err', c = .error err') with ⟨err', rfl⟩ | hc
    · exact ih _
    · rw [reaching_cons s (fun err' he => hc ⟨err', he⟩)]
      split
      · exact fun hm => ih _ ((List.mem_cons.mp hm).resolve_left fun he => hc ⟨err, he.symm⟩)
      · exact List.not_mem_nil

/-- In an attempt that goes on, nothing is heard but them. -/
theorem hearAll_reaching {s : Cec D} {cs : List Heard} (hb : (s.hearAll cs).tx.state.busy) :
    s.hearAll cs = s.hearAll (reaching s cs) ∧ broken s cs = false := by
  induction cs generalizing s with
  | nil => exact ⟨rfl, rfl⟩
  | cons c cs ih =>
    have hb₁ : (s.hear c).tx.state.busy := by
      have := (@hearAll_busy _ _ _ cs hb).1
      rwa [hearAll_cons, this] at hb
    have hb₀ : s.tx.state.busy := (hear_busy hb₁).1 ▸ hb₁
    obtain ⟨hall, hbroken⟩ := ih hb
    have hreach : (∀ err, c ≠ .error err) → s.hearAll (c :: cs) = s.hearAll (reaching s (c :: cs)) := by
      intro hc
      rw [hearAll_cons, hall, reaching_cons s hc, if_pos hb₀]
      rfl
    cases c with
    | error err =>
      have h0 : s.rx.flags = 0 := by
        by_contra h0
        exact receiveError_free h0 err hb₁
      have hsame : s.hear (.error err) = s := receiveError_zero h0 err
      refine ⟨?_, ?_⟩
      · rw [hearAll_cons, hall, reaching, hsame]
      · rw [broken, hbroken, h0]
        rfl
    | start => exact ⟨hreach fun _ => Heard.noConfusion, hbroken⟩
    | bit b => exact ⟨hreach fun _ => Heard.noConfusion, hbroken⟩

theorem sound_reaching {s : Cec D} {cs : List Heard} (h : Sound s cs) : Sound s (reaching s cs) := by
  induction cs generalizing s with
  | nil => trivial
  | cons c cs ih =>
    have hih := ih h.2
    have hcons : (∀ err, c ≠ .error err) → Sound s (reaching s (c :: cs)) := by
      intro hc
      rw [reaching_cons s hc]
      split
      · exact ⟨h.1, hih⟩
      · trivial
    cases c with
    | error err =>
      by_cases h0 : s.rx.flags = 0
      · have hsame : s.hear (.error err) = s := receiveError_zero h0 err
        rw [hsame] at hih
        rw [reaching, hsame]
        exact hih
      · have hfree : ¬ (s.hear (.error err)).tx.state.busy := receiveError_free h0 err
        rw [reaching, reaching_free hfree]
        trivial
    | start => exact hcons fun _ => Heard.noConfusion
    | bit b => exact hcons fun _ => Heard.noConfusion

/-- An error the decoder reports. -/
theorem backed_error {s : Cec D} (h : Backed s) {err : Err} (hne : err ≠ .nack) : Backed (s.hear (.error err)) := by
  change Backed (cecReceiveError s err)
  rw [cecReceiveError]
  split
  · exact h
  · refine Backed.onError ?_ hne
    exact h.same rfl [.error err] rfl fun _ he => List.mem_singleton.mp he ▸ rfl

/-- Between attempts no call settles one. -/
theorem backed_free {s : Cec D} (h : Backed s) (hb : ¬ s.tx.state.busy) {c : Heard}
    (hne : ∀ err, c = .error err → err ≠ .nack) : Backed (s.hear c) := by
  cases c with
  | start =>
    exact h.extend [.start] rfl (fun _ he => List.mem_singleton.mp he ▸ rfl) fun hp h0 => ⟨rfl, hp, h0⟩
  | error err => exact backed_error h (hne err rfl)
  | bit b =>
    have hemit : Backed (s.emit (.bit b)) :=
      h.same rfl [.bit b] rfl fun _ he => List.mem_singleton.mp he ▸ rfl
    have hfree : ∀ err, cecTransmitOnError (s.emit (.bit b)) err = s.emit (.bit b) := fun err => by
      rw [cecTransmitOnError, if_neg (by exact hb)]
    have hsame : heardByTransmit s b = s.emit (.bit b) := by
      rw [heardByTransmit, cecCheckTxBit, cecTransmitReceiveAck, hfree, hfree]
      have hw : ¬ (s.emit (.bit b)).tx.state = .waitForAck := fun hw => hb (by rw [show s.tx.state = _ from hw]; decide)
      rw [if_neg hw]
      simp only [ite_self]
    exact Due.backed_bit (hsame ▸ hemit)

/-- What follows the end of an attempt settles nothing. -/
theorem backed_hearAll {s : Cec D} {cs : List Heard} (hne : ∀ err, .error err ∈ cs → err ≠ .nack)
    (h : Backed (s.hearAll (reaching s cs))) : Backed (s.hearAll cs) := by
  have hrest : ∀ (ds : List Heard) (t : Cec D), (∀ err, .error err ∈ ds → err ≠ .nack) → ¬ t.tx.state.busy →
      Backed t → Backed (t.hearAll ds) := by
    intro ds
    induction ds with
    | nil => exact fun t _ _ ht => ht
    | cons c ds ih =>
      intro t hd hb ht
      exact ih _ (fun err he => hd err (List.mem_cons_of_mem _ he)) (hear_free hb c)
        (backed_free ht hb fun err he => hd err (he ▸ List.mem_cons_self ..))
  induction cs generalizing s with
  | nil => exact h
  | cons c cs ih =>
    have hne' : ∀ err, .error err ∈ cs → err ≠ .nack := fun err he => hne err (List.mem_cons_of_mem _ he)
    have hcons : (∀ err, c ≠ .error err) → Backed (s.hearAll (c :: cs)) := by
      intro hc
      rw [reaching_cons s hc] at h
      split at h
      · exact ih hne' h
      · next hb => exact hrest _ s hne hb h
    cases c with
    | error err =>
      by_cases h0 : s.rx.flags = 0
      · have hsame : s.hear (.error err) = s := receiveError_zero h0 err
        rw [reaching, hsame] at h
        rw [hearAll_cons, hsame]
        exact ih hne' h
      · have hfree : ¬ (s.hear (.error err)).tx.state.busy := receiveError_free h0 err
        rw [reaching, reaching_free hfree] at h
        exact hrest cs _ hne' hfree (backed_error h (hne err (List.mem_cons_self ..)))
    | start => exact hcons fun _ => Heard.noConfusion
    | bit b => exact hcons fun _ => Heard.noConfusion

/-- What an attempt that has fetched `k` of its `n` bits should hear in a byte: at most the start bit
    while the start pattern is read back, then one bit, and no start bit once all are out. -/
def Paced (k n : Nat) (broken : Bool) : List Heard → Prop
  | [] => k < 2 ∨ k = n ∨ broken
  | [.start] => k = 1 ∨ k = 2 ∧ broken
  | [.bit _] => 2 ≤ k
  | [.start, .bit _] => k = 2
  | cs => k = n ∧ .start ∉ cs

instance (k n : Nat) (broken : Bool) (cs : List Heard) : Decidable (Paced k n broken cs) := by
  unfold Paced
  split <;> infer_instance

/-- Where the reception of an attempt stands when it is `lag` bits behind. -/
def Stands (lag : Nat) (s : Cec D) (k n : Nat) : Prop :=
  k ≤ lag ∧ s.rx.flags = 0 ∨ ∃ c, Opened s c ∧ (c + lag = k ∨ k = n ∧ (c + 1 = n ∨ c + 2 = n))

omit [Driver D] in
/-- The engine waits for the last ack when all bits are out. -/
theorem Sending.all_out {s : Cec D} {sent : List Bool} (h : Sending s sent) :
    s.tx.state = .waitForAck ↔ sent.length = 10 * (s.tx.bufEnd + 1) := by
  refine ⟨fun hw => ?_, fun hn => (h.tx.done hn).2⟩
  rw [h.tx.whole_iff.mpr hw, length_framing, length_message]

/-- Once all bits are out, any bits heard are the rest of the echo. -/
theorem last_bits {s : Cec D} {sent : List Bool} (hw : s.tx.state = .waitForAck) {cs : List Heard}
    (hstart : .start ∉ cs) (herr : ∀ err, .error err ∉ cs) (h : Sending s sent) {c : Nat} (ho : Opened s c)
    (hc : c + 1 = sent.length ∨ c + 2 = sent.length) :
    Backed (s.hearAll cs) ∧ ((s.hearAll cs).tx.state.busy →
      ∃ c, Opened (s.hearAll cs) c ∧ (c + 1 = sent.length ∨ c + 2 = sent.length)) := by
  induction cs generalizing s c with
  | nil => exact ⟨h.backed, fun _ => ⟨c, ho, hc⟩⟩
  | cons e cs ih =>
    cases e with
    | start => exact absurd (List.mem_cons_self ..) hstart
    | error err => exact absurd (List.mem_cons_self ..) (herr err)
    | bit b =>
      have hall := h.all_out.mp hw
      have hdue : Due s sent c := ⟨h, ho, by omega⟩
      obtain ⟨hb, hgo⟩ := hdue.bit b
      have herr' : ∀ err, .error err ∉ cs := fun err he => herr err (List.mem_cons_of_mem _ he)
      by_cases hbusy : (s.hear (.bit b)).tx.state.busy
      · obtain ⟨h', ho', hc2⟩ := hgo hbusy
        exact ih ((hear_busy hbusy).1.trans hw) (fun he => hstart (List.mem_cons_of_mem _ he)) herr' h' ho'
          (.inl hc2)
      · refine ⟨backed_hearAll (s := s.hear (.bit b)) (fun err he => absurd he (herr' err)) ?_, fun hb' => ?_⟩
        · rw [reaching_free hbusy]
          exact hb
        · have hrest : ((s.hear (.bit b)).hearAll cs).tx.state.busy := hb'
          exact absurd ((hearAll_busy hrest).1 ▸ hrest) hbusy

/-- The lists that are paced, by what they ask for. -/
theorem paced_cases {k n : Nat} {br : Bool} {cs : List Heard} (h : Paced k n br cs) :
    (cs = [] ∧ (k < 2 ∨ k = n ∨ br = true)) ∨ (cs = [.start] ∧ (k = 1 ∨ k = 2 ∧ br = true)) ∨
      (∃ b, cs = [.bit b] ∧ 2 ≤ k) ∨ (∃ b, cs = [.start, .bit b] ∧ k = 2) ∨ (k = n ∧ .start ∉ cs) := by
  unfold Paced at h
  split at h
  · exact .inl ⟨rfl, h⟩
  · exact .inr (.inl ⟨rfl, h⟩)
  · exact .inr (.inr (.inl ⟨_, rfl, h⟩))
  · exact .inr (.inr (.inr (.inl ⟨_, rfl, h⟩)))
  · exact .inr (.inr (.inr (.inr h)))

/-- In a byte that is paced the reception catches up with the transmitter by a bit. -/
theorem paced_reaching {s : Cec D} {sent : List Bool} (h : Sending s sent)
    (hs : Stands 2 s sent.length (10 * (s.tx.bufEnd + 1))) {cs : List Heard} (hsound : Sound s cs)
    (herr : ∀ err, .error err ∉ cs) {br : Bool} (hp : Paced sent.length (10 * (s.tx.bufEnd + 1)) br cs) :
    Backed (s.hearAll cs) ∧ ((s.hearAll cs).tx.state.busy → br = false →
      Stands 1 (s.hearAll cs) sent.length (10 * (s.tx.bufEnd + 1))) := by
  have hle := h.tx.length_le
  rcases paced_cases hp with ⟨rfl, hk⟩ | ⟨rfl, hk⟩ | ⟨b, rfl, hk⟩ | ⟨b, rfl, hk⟩ | ⟨hk, hno⟩
  · -- nothing is heard
    refine ⟨h.backed, fun _ hbr => ?_⟩
    have hk' : sent.length < 2 ∨ sent.length = 10 * (s.tx.bufEnd + 1) := by
      rcases hk with hk | hk | hk
      · exact .inl hk
      · exact .inr hk
      · rw [hbr] at hk; exact Bool.noConfusion hk
    rcases hs with ⟨hlt, h0⟩ | ⟨c, ho, hc⟩
    · exact .inl ⟨by omega, h0⟩
    · exact .inr ⟨c, ho, by omega⟩
  · -- the start bit
    obtain ⟨h', ho⟩ := sending_start h
    refine ⟨h'.backed, fun _ hbr => .inr ⟨0, ho ?_, ?_⟩⟩
    · exact hk.imp id And.left
    · rcases hk with hk | hk
      · exact .inl hk.symm
      · rw [hbr] at hk; exact Bool.noConfusion hk.2
  · -- one bit
    have h0 := hsound.1 b rfl
    obtain ⟨-, hz⟩ | ⟨c, ho, hc⟩ := hs
    · exact absurd hz h0
    · obtain ⟨hb, hgo⟩ := Due.bit (c := c) ⟨h, ho, by omega⟩ b
      exact ⟨hb, fun hbusy _ => .inr ⟨c + 1, (hgo hbusy).2.1, .inl (hgo hbusy).2.2⟩⟩
  · -- the start bit and the first data bit
    obtain ⟨h', ho⟩ := sending_start h
    obtain ⟨hb, hgo⟩ := Due.bit (c := 0) ⟨h', ho (.inr hk), by omega⟩ b
    exact ⟨hb, fun hbusy _ => .inr ⟨1, (hgo hbusy).2.1, .inl (hgo hbusy).2.2⟩⟩
  · obtain ⟨hlt, -⟩ | ⟨c, ho, hc⟩ := hs
    · omega
    · obtain ⟨hb, hgo⟩ := last_bits (h.all_out.mpr hk) hno herr h ho (by omega)
      refine ⟨hb, fun hbusy _ => ?_⟩
      obtain ⟨c', ho', hc'⟩ := hgo hbusy
      exact .inr ⟨c', ho', by omega⟩

/-! ### The other calls -/

/-- Fetching leaves the message alone. -/
theorem getBit_message (t : Transmit) (present : Nat) :
    (t.getBit present).1.message = t.message ∧ (t.getBit present).1.stats = t.stats := by
  rw [Transmit.getBit]
  dsimp only
  repeat' split
  all_goals exact ⟨rfl, rfl⟩

omit [Driver D] in
theorem transmitStart_message (s : Cec D) : (cecTransmitStart s).tx.message = s.tx.message ∧
    (cecTransmitStart s).tx.stats = if s.tx.state = .pend then fun _ => 0 else s.tx.stats := by
  by_cases hp : s.tx.state = .pend <;> simp [cecTransmitStart, Transmit.message, hp]

/-- `t` is `s` with a message queued, or the header cleared, or both. -/
structure Queues (s t : Cec D) : Prop where
  log : ∃ es, t.log = es ++ s.log ∧ (es = [] ∨ es = [.clear])
  needed : t.tx.needed = s.tx.needed
  tx : t.tx.state ≠ .pend → t.tx = s.tx
  rx : KeepsRx s t

omit [Driver D] in
theorem queues_none {s t : Cec D} (hlog : t.log = s.log) (htx : t.tx = s.tx) (hb : t.build = s.build)
    (hrx : t.rx = s.rx) : Queues s t := ⟨⟨[], hlog, .inl rfl⟩, by rw [htx], fun _ => htx, hb, .inl hrx⟩

omit [Driver D] in
theorem queues_clear {s t : Cec D} (hlog : t.log = .clear :: s.log) (hneeded : t.tx.needed = s.tx.needed)
    (htx : t.tx.state ≠ .pend → t.tx = s.tx) (hb : t.build = s.build) (hrx : t.rx = (clearHeader s).rx) :
    Queues s t := ⟨⟨[.clear], hlog, .inr rfl⟩, hneeded, htx, hb, .inr hrx⟩

omit [Driver D] in
/-- The address module and the application clear the header, and queue messages. -/
theorem addrPeriodic_queues (s : Cec D) : Queues s (cecAddrPeriodic s) := by
  rw [cecAddrPeriodic]
  dsimp only
  repeat' split
  · exact queues_none rfl rfl rfl rfl
  · exact queues_clear rfl rfl (fun _ => rfl) rfl rfl
  · exact queues_clear rfl rfl (fun hp => absurd rfl hp) rfl rfl
  · exact queues_clear rfl rfl (fun _ => rfl) rfl rfl
  · exact queues_clear rfl rfl (fun _ => rfl) rfl rfl
  · exact queues_none rfl rfl rfl rfl

omit [Driver D] in
theorem app_queues (s : Cec D) (a : App) : Queues s (a.step s) := by
  cases a with
  | clear => exact queues_clear rfl rfl (fun _ => rfl) rfl rfl
  | send message =>
    rw [App.step]
    split
    · exact ⟨⟨[], rfl, .inl rfl⟩, rfl, fun hp => absurd rfl hp, rfl, .inl rfl⟩
    · exact queues_none rfl rfl rfl rfl
  | assign m =>
    rw [App.step]
    split <;> exact queues_none rfl rfl rfl rfl

/-! ### Calls on time -/

/-- How many bits the reception opened by the attempt's own start bit has heard. -/
def echoed (l : List Ev) : Option Nat := if OwnEcho l then (openBits l).map List.length else none

/-- The call finds the reception in step with the attempt under way, if there is one. -/
def OnTime (s : Cec D) : Heard → Prop
  | .start => s.tx.state.busy → (sofar s.told).length = 1 ∨ (sofar s.told).length = 2
  | .bit _ => s.tx.state.busy → ∃ c ∈ echoed s.log, c + 2 = (sofar s.told).length ∨
      s.tx.state = .waitForAck ∧ c + 1 = (sofar s.told).length
  | .error _ => True

instance (s : Cec D) (c : Heard) : Decidable (OnTime s c) :=
  match c with
  | .start => by dsimp only [OnTime]; infer_instance
  | .bit _ => by dsimp only [OnTime]; infer_instance
  | .error _ => .isTrue trivial

/-- What the attempt's own reception has heard is the echo. -/
structure Echoes (s : Cec D) : Prop where
  backed : Backed s
  heard : s.tx.state.busy → ∀ c ∈ echoed s.log, Opened s c

omit [Driver D] in
theorem mem_echoed {l : List Ev} {bits : List Bool} (h : openBits l = some bits) {c : Nat}
    (hc : c ∈ echoed l) : c = bits.length := by
  rw [echoed] at hc
  split at hc
  · rw [h] at hc
    exact (Option.some.inj hc).symm
  · exact nomatch hc

/-- The start bit and the bits heard on time keep it. -/
theorem echoes_hear {act : D → Prop} {s : Cec D} (h : Echoes s) (hf : Framed act s) {c : Heard} (hc : OnTime s c)
    (hne : ∀ err, c = .error err → err ≠ .nack) : Echoes (s.hear c) := by
  by_cases hb : s.tx.state.busy
  · obtain ⟨sent, hsent, hfetch⟩ := hf.busy hb
    have hsending : Sending s sent := ⟨h.backed, hsent, hfetch, hf.size⟩
    have hk : (sofar s.told).length = sent.length := by rw [sofar, hsent]; rfl
    cases c with
    | start =>
      obtain ⟨h', ho⟩ := sending_start hsending
      refine ⟨h'.backed, fun _ c hc' => ?_⟩
      obtain rfl := @mem_echoed _ [] rfl _ hc'
      exact ho (hk ▸ hc hb)
    | error err =>
      refine ⟨backed_error h.backed (hne err rfl), fun hb' => ?_⟩
      by_cases h0 : s.rx.flags = 0
      · have hsame : s.hear (.error err) = s := receiveError_zero h0 err
        rw [hsame] at hb' ⊢
        exact h.heard hb'
      · exact absurd hb' (receiveError_free h0 err)
    | bit b =>
      obtain ⟨c, hc', hdue⟩ := hc hb
      have hopen := h.heard hb c hc'
      rw [hk] at hdue
      have hbehind : c + 2 = sent.length ∨ sent.length = 10 * (s.tx.bufEnd + 1) ∧ c + 1 = sent.length :=
        hdue.imp id fun hw => ⟨hsending.all_out.mp hw.1, hw.2⟩
      obtain ⟨hbacked, hgo⟩ := Due.bit ⟨hsending, hopen, hbehind⟩ b
      refine ⟨hbacked, fun hb' c'' hc'' => ?_⟩
      obtain ⟨h', hopen', hc2⟩ := hgo hb'
      have hle := h'.tx.length_le
      have hlen := mem_echoed hopen'.bits hc''
      rw [List.length_take, length_echo, length_message] at hlen
      have heq : c'' = c + 1 := by omega
      exact heq ▸ hopen'
  · refine ⟨backed_free h.backed hb hne, fun hb' => absurd hb' (hear_free hb c)⟩

omit [Driver D] in
/-- Queueing and clearing. -/
theorem echoes_queues {s t : Cec D} (h : Echoes s) (hq : Queues s t) : Echoes t := by
  obtain ⟨⟨es, hlog, hes⟩, -, htx, hkeeps⟩ := hq
  have hsettles : ∀ e ∈ es, e.settles = false := by
    rcases hes with rfl | rfl
    · exact fun _ he => nomatch he
    · exact fun _ he => List.mem_singleton.mp he ▸ rfl
  have hsame : openBits t.log = openBits s.log ∧ openedAt t.log = openedAt s.log := by
    rw [hlog]
    rcases hes with rfl | rfl <;> exact ⟨rfl, rfl⟩
  have hechoed : echoed t.log = echoed s.log := by simp only [echoed, OwnEcho, hsame.1, hsame.2]
  refine ⟨h.backed.extend _ hlog hsettles fun hp h0 => ?_, fun hb c hc => ?_⟩
  · have heq := htx hp
    exact ⟨by rw [heq], heq ▸ hp, heq ▸ h0⟩
  · have heq := htx (busy_ne_pend hb)
    rw [heq] at hb
    exact (h.heard hb c (hechoed ▸ hc)).same hkeeps (by rw [heq]) hsame.1 hsame.2

/-- An error the driver reports. -/
theorem echoes_onError {s : Cec D} (h : Echoes s) {err : Err} (hne : err ≠ .nack) :
    Echoes (cecTransmitOnError s err) :=
  ⟨h.backed.onError hne, fun hb => absurd hb (onError_free s err)⟩

omit [Driver D] in
/-- An attempt begins. -/
theorem echoes_begin {s t : Cec D} (h : Echoes s) (ht : t.tx = (cecTransmitStart s).tx)
    (hl : t.log = .begin :: s.log) : Echoes t := by
  obtain ⟨hmsg, hstats⟩ := transmitStart_message s
  refine ⟨h.backed.extend [.begin] hl (fun _ he => List.mem_singleton.mp he ▸ rfl) fun _ h0 => ?_,
    fun _ c hc => ?_⟩
  · rw [ht, hstats] at h0
    rw [ht]
    split at h0
    · exact absurd rfl h0
    · next hne => exact ⟨hmsg, hne, h0⟩
  · rw [hl] at hc
    exact absurd hc (fun hm => nomatch hm)

/-- A bit is fetched. -/
theorem echoes_fetch {s t : Cec D} (h : Echoes s) (hb : s.tx.state.busy) (ht : t.tx = (cecTransmitGetBit s).1.tx)
    (hl : t.log = (cecTransmitGetBit s).1.log) (hkeeps : KeepsRx s t) : Echoes t := by
  obtain ⟨hmsg, hstats⟩ := getBit_message s.tx (Driver.idleWait D s.build cecPresentPeriodWait)
  have hm : t.tx.message = s.tx.message := by rw [ht]; exact hmsg
  have hlog : t.log = .getBit (cecTransmitGetBit s).2 (s.tx.getBit (Driver.idleWait D s.build cecPresentPeriodWait)).2.2
      :: s.log := hl
  refine ⟨h.backed.extend [_] hlog (fun _ he => List.mem_singleton.mp he ▸ rfl) fun _ h0 => ?_, fun _ c hc => ?_⟩
  · refine ⟨hm, busy_ne_pend hb, ?_⟩
    rw [ht] at h0
    change (s.tx.getBit _).1.stats _ ≠ 0 at h0
    rwa [hstats] at h0
  · rw [hlog] at hc
    exact (h.heard hb c hc).same hkeeps hm (by rw [hlog]; rfl) (by rw [hlog]; rfl)

end

end AvrCec
