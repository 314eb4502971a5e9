import AvrCec.Build
import AvrCec.Engine

/-! Whole messages through the receive engine.

    A message is a list of blocks. `flat` is its bit string; every block but the last is positively
    acked and carries no EOM. Fed such a message after a start, the engine tracks it up to its last
    bit (`tracks_part`) and hands it over there (`message_decoded`). -/

namespace AvrCec
open Lib

/-- One block: its byte, its EOM bit and the line level in its ack slot. -/
structure Block where
  data : Nat
  eom : Bool
  ack : Bool
  deriving DecidableEq, Repr

def Block.bits (b : Block) : List Bool := toBits 8 b.data ++ [b.eom, b.ack]

/-- The bits of a list of blocks. -/
def flat (ms : List Block) : List Bool := ms.flatMap Block.bits

/-- The message is a broadcast: the low nibble of its first byte is 15. -/
def IsBcast (ms : List Block) : Prop := ∃ b ∈ ms.head?, b.data % 16 = cecAddrBroadcast

instance (ms : List Block) : Decidable (IsBcast ms) := by unfold IsBcast; infer_instance

/-- The level in the ack slot is a positive ack of the message `ms`. -/
def Acked (ms : List Block) (level : Bool) : Prop := level = decide (IsBcast ms)

instance (ms : List Block) (level : Bool) : Decidable (Acked ms level) := by
  unfold Acked; infer_instance

/-- The blocks of a message that goes on: no EOM, and a positive ack. -/
def GoesOn (ms : List Block) (b : Block) : Prop := b.eom = false ∧ Acked ms b.ack

instance (ms : List Block) (b : Block) : Decidable (GoesOn ms b) := by
  unfold GoesOn; infer_instance

@[simp] theorem length_bits (b : Block) : b.bits.length = 10 := by simp [Block.bits]

@[simp] theorem flat_nil : flat [] = [] := rfl

theorem flat_cons (b : Block) (ms : List Block) : flat (b :: ms) = b.bits ++ flat ms := rfl

theorem flat_append (ms ns : List Block) : flat (ms ++ ns) = flat ms ++ flat ns :=
  List.flatMap_append

@[simp] theorem length_flat (ms : List Block) : (flat ms).length = 10 * ms.length := by
  induction ms with
  | nil => rfl
  | cons b ms ih =>
    rw [flat_cons, List.length_append, length_bits, ih, List.length_cons]; ring

theorem phase_flat (ms : List Block) : phase (flat ms) = 0 := by
  unfold phase; rw [length_flat]; omega

/-- Reading a byte past the first block. -/
theorem byteAt_bits_append (b : Block) (l : List Bool) (k : Nat) :
    byteAt (b.bits ++ l) (k + 1) = byteAt l k := by
  unfold byteAt
  rw [show 10 * (k + 1) = b.bits.length + 10 * k by rw [length_bits]; ring, List.drop_append,
    List.drop_eq_nil_of_le (Nat.le_add_right _ _), List.nil_append, Nat.add_sub_cancel_left]

theorem byteAt_bits_zero (b : Block) (h : b.data < 256) (l : List Bool) :
    byteAt (toBits 8 b.data ++ l) 0 = b.data := by
  unfold byteAt
  rw [Nat.mul_zero, List.drop_zero, List.take_left' (length_toBits 8 b.data)]
  exact ofBits_toBits 8 b.data h

/-- The bytes of a message are those of its blocks. -/
theorem byteAt_flat {ms : List Block} (hdata : ∀ b ∈ ms, b.data < 256) {k : Nat}
    (hk : k < ms.length) : byteAt (flat ms) k = ms[k].data := by
  induction ms generalizing k with
  | nil => exact absurd hk (Nat.not_lt_zero k)
  | cons b ms ih =>
    rw [flat_cons]
    cases k with
    | zero =>
      rw [Block.bits, List.append_assoc]
      exact byteAt_bits_zero b (hdata b (List.mem_cons_self ..)) _
    | succ k =>
      rw [byteAt_bits_append]
      exact ih (fun c hc => hdata c (List.mem_cons_of_mem _ hc)) (Nat.lt_of_succ_lt_succ hk)

/-- Within 256 blocks only the first byte is taken for a header byte. -/
theorem bcastHeard_iff {bits : List Bool} (h1 : 0 < blocks bits) (h256 : blocks bits ≤ 256) :
    BcastHeard bits ↔ byteAt bits 0 % 16 = cecAddrBroadcast := by
  constructor
  · rintro ⟨k, hk, hv⟩
    obtain rfl : k = 0 := by omega
    exact hv
  · exact fun hv => ⟨0, h1, hv⟩

theorem isBcast_cons (b : Block) (ms : List Block) :
    IsBcast (b :: ms) ↔ b.data % 16 = cecAddrBroadcast := by simp [IsBcast]

/-- The engine has heard the message's first byte when it knows whether it is a broadcast. -/
theorem isBcast_iff {ms : List Block} (hdata : ∀ b ∈ ms, b.data < 256) {p : List Bool}
    (hp : p <+: flat ms) (h8 : 8 ≤ p.length) (h256 : blocks p ≤ 256) :
    BcastHeard p ↔ IsBcast ms := by
  obtain ⟨l, hl⟩ := hp
  cases ms with
  | nil => simp at hl; rw [hl.1] at h8; exact absurd h8 (by decide)
  | cons b ms =>
    rw [bcastHeard_iff (by unfold blocks; omega) h256, isBcast_cons, ← byteAt_append (k := 0) h8 l, hl,
      byteAt_flat hdata (Nat.succ_pos _)]
    rfl

variable {D : Type} [Driver D]

/-- The engine's ack of a level, once the message's kind is known. -/
theorem ack_iff {hdr : Nat} {buf₀ : Nat → Nat} {ms : List Block} {p : List Bool} {rx : Receive}
    (h : Tracks hdr buf₀ p rx) (hdata : ∀ b ∈ ms, b.data < 256) (hp : p <+: flat ms)
    (h8 : 8 ≤ p.length) (h256 : blocks p ≤ 256) (level : Bool) :
    rx.flags.ack level = true ↔ Acked ms level := by
  have hb : rx.flags.bcast = decide (IsBcast ms) := by
    rw [Bool.eq_iff_iff, h.bcast, isBcast_iff hdata hp h8 h256, decide_eq_true_iff]
  unfold Flags.ack Acked
  rw [hb]
  cases level <;> by_cases hm : IsBcast ms <;> simp [hm]

/-- Where a message ends or goes on. -/
theorem ends_iff {hdr : Nat} {buf₀ : Nat → Nat} {ms : List Block} {p : List Bool} {b : Block}
    {rx : Receive} (h : Tracks hdr buf₀ (p ++ (toBits 8 b.data ++ [b.eom])) rx)
    (hphase : phase p = 0) (hdata : ∀ b ∈ ms, b.data < 256)
    (hp : p ++ (toBits 8 b.data ++ [b.eom]) <+: flat ms)
    (h256 : blocks (p ++ (toBits 8 b.data ++ [b.eom])) ≤ 256) :
    rx.ends b.ack = false ↔ GoesOn ms b := by
  have h9 : phase (p ++ (toBits 8 b.data ++ [b.eom])) = 9 := by
    unfold phase at *
    simp only [List.length_append, length_toBits, List.length_singleton]; omega
  have heom : rx.flags.eom = b.eom := by
    rw [h.eom, h9, ← List.append_assoc, getLastD_concat]; rfl
  have hack := ack_iff h hdata hp (by simp) h256 b.ack
  rw [Receive.ends, heom, GoesOn, ← hack, Bool.or_eq_false_iff, Bool.not_eq_false', and_comm]

/-- Feeding one block that the message goes on after. -/
theorem tracks_block {buf₀ : Nat → Nat} {ms : List Block} {p : List Bool} {b : Block} {s : Cec D}
    (h : Tracks s.build.hdr buf₀ p s.rx) (hphase : phase p = 0) (hdata : ∀ b ∈ ms, b.data < 256)
    (hp : p ++ b.bits <+: flat ms) (h256 : blocks (p ++ b.bits) ≤ 256) (hgo : GoesOn ms b) :
    Tracks s.build.hdr buf₀ (p ++ b.bits) (feed s b.bits).rx := by
  have hsplit : p ++ b.bits = p ++ (toBits 8 b.data ++ [b.eom]) ++ [b.ack] := by
    simp [Block.bits]
  have hfeed : feed s b.bits = cecReceiveBit (feed s (toBits 8 b.data ++ [b.eom])) b.ack := by
    rw [← feed_concat]; rfl
  have hpre : p ++ (toBits 8 b.data ++ [b.eom]) <+: flat ms :=
    (List.prefix_append _ _).trans (hsplit ▸ hp)
  have h9 : phase (p ++ (toBits 8 b.data ++ [b.eom])) = 9 := by
    unfold phase at *
    simp only [List.length_append, length_toBits, List.length_singleton]; omega
  have hblocks : blocks (p ++ (toBits 8 b.data ++ [b.eom])) ≤ 256 := by
    unfold blocks at *
    simp only [List.length_append, length_toBits, length_bits, List.length_singleton] at *; omega
  have hmid := tracks_feed h (toBits 8 b.data ++ [b.eom]) (by rw [hphase]; simp)
  have hends := (ends_iff hmid hphase hdata hpre hblocks).mpr hgo
  have hb := (feed_build s (toBits 8 b.data ++ [b.eom])).1
  rw [hfeed, hsplit, ← hb]
  exact tracks_next (by rw [hb]; exact hmid) h9 hends

/-- The engine tracks a message over every whole number of blocks it goes on after. -/
theorem tracks_blocks {ms ns : List Block} (s : Cec D) (hdata : ∀ b ∈ ms, b.data < 256)
    (hpre : ns <+: ms) (hlen : ns.length ≤ 256) (hgo : ∀ b ∈ ns, GoesOn ms b) :
    Tracks s.build.hdr s.rx.buf (flat ns) (feed (cecReceiveStart s) (flat ns)).rx := by
  induction ns using List.reverseRecOn with
  | nil => exact tracks_start s
  | append_singleton ns b ih =>
    have hns : ns <+: ms := (List.prefix_append ns [b]).trans hpre
    rw [List.length_append, List.length_singleton] at hlen
    have hflat : flat (ns ++ [b]) = flat ns ++ b.bits := by rw [flat_append, flat_cons]; simp
    have hprefix : flat ns ++ b.bits <+: flat ms := by
      obtain ⟨l, rfl⟩ := hpre
      rw [flat_append (ns ++ [b]) l, hflat]
      exact List.prefix_append ..
    have h := ih hns (by omega) fun c hc => hgo c (List.mem_append_left _ hc)
    have hb := (feed_build (cecReceiveStart s) (flat ns)).1
    rw [hflat, feed_append, show s.build.hdr = (feed (cecReceiveStart s) (flat ns)).build.hdr by
      rw [hb]; rfl]
    have hlast := hgo b (List.mem_append_right _ (List.mem_singleton_self b))
    refine tracks_block (by rw [hb]; exact h) (phase_flat ns) hdata hprefix ?_ hlast
    unfold blocks
    rw [List.length_append, length_flat, length_bits]
    omega

/-- A proper prefix of a message stops inside one of its blocks. -/
theorem prefix_split {ms : List Block} {p : List Bool} (hp : p <+: flat ms) (hne : p ≠ flat ms) :
    ∃ ns b rest l, ms = ns ++ b :: rest ∧ p = flat ns ++ l ∧ l <+: b.bits ∧ l.length ≤ 9 := by
  induction ms generalizing p with
  | nil => exact absurd (List.prefix_nil.mp hp) hne
  | cons b ms ih =>
    rw [flat_cons] at hp hne
    rcases Nat.lt_or_ge p.length 10 with hlt | hge
    · refine ⟨[], b, ms, p, rfl, rfl, ?_, by omega⟩
      exact List.prefix_of_prefix_length_le hp (List.prefix_append ..) (by rw [length_bits]; omega)
    · obtain ⟨q, rfl⟩ := List.prefix_of_prefix_length_le (List.prefix_append b.bits (flat ms)) hp
        (by rw [length_bits]; exact hge)
      obtain ⟨ns, c, rest, l, rfl, rfl, hl, h9⟩ := ih (p := q)
        ((List.prefix_append_right_inj _).mp hp) (fun h => hne (by rw [h]))
      exact ⟨b :: ns, c, rest, l, rfl, by rw [flat_cons, List.append_assoc], hl, h9⟩

/-- Until its last bit the engine tracks a message. -/
theorem tracks_part {ms : List Block} (s : Cec D) (hdata : ∀ b ∈ ms, b.data < 256)
    (hlen : ms.length ≤ 257) (hgo : ∀ b ∈ ms.dropLast, GoesOn ms b) {p : List Bool}
    (hp : p <+: flat ms) (hne : p ≠ flat ms) :
    Tracks s.build.hdr s.rx.buf p (feed (cecReceiveStart s) p).rx := by
  obtain ⟨ns, b, rest, l, hms, rfl, hl, h9⟩ := prefix_split hp hne
  have hns : ns <+: ms.dropLast := by
    rw [hms, List.dropLast_append_of_ne_nil (List.cons_ne_nil b rest)]
    exact List.prefix_append ..
  have h := tracks_blocks s hdata (hms ▸ List.prefix_append ..)
    (by rw [hms, List.length_append, List.length_cons] at hlen; omega) fun c hc => hgo c (hns.subset hc)
  have hb := (feed_build (cecReceiveStart s) (flat ns)).1
  rw [feed_append, show s.build.hdr = (feed (cecReceiveStart s) (flat ns)).build.hdr by rw [hb]; rfl]
  exact tracks_feed (by rw [hb]; exact h) l (by rw [phase_flat]; omega)

/-- A free buffer stays free, and the message is not ignored. -/
theorem free_part {ms : List Block} (s : Cec D) (hfree : s.header = 0)
    (hdata : ∀ b ∈ ms, b.data < 256) (hlen : ms.length ≤ 256)
    (hgo : ∀ b ∈ ms.dropLast, GoesOn ms b) {p : List Bool} (hp : p <+: flat ms) (hne : p ≠ flat ms) :
    (feed (cecReceiveStart s) p).rx.flags.ignore = false := by
  induction p using List.reverseRecOn with
  | nil => rfl
  | append_singleton p b ih =>
    have hp' : p <+: flat ms := (List.prefix_append p [b]).trans hp
    have hlt := hp.length_le
    rw [List.length_append, List.length_singleton] at hlt
    have hne' : p ≠ flat ms := by rintro rfl; omega
    have hb := (feed_build (cecReceiveStart s) p).1
    have hdr : (feed (cecReceiveStart s) p).build.hdr = s.build.hdr := by rw [hb]; rfl
    have h := tracks_part s hdata (by omega) hgo hp' hne'
    have h' := tracks_part s hdata (by omega) hgo hp hne
    rw [feed_concat] at h' ⊢
    rw [← hdr] at h
    by_cases h7 : phase p = 7
    · have hhdr : (feed (cecReceiveStart s) p).header = 0 := h.header.trans (by rw [hdr]; exact hfree)
      rw [receiveBit_flags h h7, (doneFlags_flags _ _ _ _).ignore, ih hp' hne', hhdr]
      simp
    · refine (receiveBit_policy h h7 fun h9 => ?_).2.trans (ih hp' hne')
      by_contra hends
      have := ack_ends h h9 (Bool.eq_true_of_not_eq_false hends)
      exact h'.flags_ne (by rw [this])

theorem status_eq (n : Nat) (hn : n < 64) (f : Flags) :
    n ||| f.status = n + (if f.nacked then 0x80 else 0) + (if f.overrun then 0x40 else 0) := by
  have h (a : Nat) : n ||| 64 * a = n + 64 * a := by
    rw [Nat.or_comm, Nat.add_comm]
    exact (Nat.two_pow_add_eq_or_of_lt (i := 6) hn a).symm
  unfold Flags.status
  cases f.nacked <;> cases f.overrun
  · exact h 0
  · exact h 1
  · exact h 2
  · exact h 3

/-- Every message of up to 63 blocks is decoded: the engine is busy and the header 0 until the last
    bit, and then the header gives the length and status, the first 16 bytes follow it, and the
    rest of the buffer is as it was. -/
theorem message_decoded (s : Cec D) (ms : List Block) (hne : ms ≠ [])
    (hfree : s.header = 0) (hlen : ms.length ≤ 63) (hdata : ∀ b ∈ ms, b.data < 256)
    (hgo : ∀ b ∈ ms.dropLast, GoesOn ms b) (hlast : ¬ GoesOn ms (ms.getLast hne)) :
    let t := feed (cecReceiveStart s) (flat ms)
    t.rx.flags = 0 ∧
    t.rx.buf s.build.hdr = ms.length + (if Acked ms (ms.getLast hne).ack then 0 else 0x80)
      + (if cecBufferSize < ms.length then 0x40 else 0) ∧
    (∀ k, (hk : k < min ms.length cecBufferSize) → t.rx.buf (s.build.hdr + 1 + k) = ms[k].data) ∧
    (∀ i, i ≠ s.build.hdr → (∀ k < min ms.length cecBufferSize, i ≠ s.build.hdr + 1 + k) →
      t.rx.buf i = s.rx.buf i) ∧
    ∀ p, p <+: flat ms → p ≠ flat ms →
      (feed (cecReceiveStart s) p).rx.buf s.build.hdr = 0 ∧
      (feed (cecReceiveStart s) p).rx.flags ≠ 0 := by
  intro t
  have htrack := fun p => tracks_part (p := p) s hdata (by omega : ms.length ≤ 257) hgo
  -- the last bit, fed to an engine that tracks the rest
  obtain ⟨last, hlast_eq⟩ : ∃ last, last = ms.getLast hne := ⟨_, rfl⟩
  obtain ⟨p, hp_eq⟩ : ∃ p, p = flat ms.dropLast ++ (toBits 8 last.data ++ [last.eom]) := ⟨_, rfl⟩
  have hsplit : flat ms = p ++ [last.ack] := by
    conv_lhs => rw [← List.dropLast_append_getLast hne, ← hlast_eq]
    simp [hp_eq, flat_append, flat_cons, Block.bits]
  have hp : p <+: flat ms := hsplit ▸ List.prefix_append ..
  have hpne : p ≠ flat ms := by rw [hsplit]; simp
  have h := htrack p hp hpne
  have hplen : p.length + 1 = 10 * ms.length := by
    rw [← length_flat, hsplit, List.length_append, List.length_singleton]
  rw [← hlast_eq] at hlast ⊢
  have h9 : phase p = 9 := by unfold phase; omega
  have hblocks : blocks p = ms.length := by unfold blocks; omega
  have hb := (feed_build (cecReceiveStart s) p).1
  have hdr : (feed (cecReceiveStart s) p).build.hdr = s.build.hdr := by rw [hb]; rfl
  have hign := free_part s hfree hdata (by omega) hgo hp hpne
  have hends : (feed (cecReceiveStart s) p).rx.ends last.ack = true := by
    rw [hp_eq] at h hp hblocks ⊢
    exact Bool.eq_true_of_not_eq_false
      ((ends_iff h (phase_flat _) hdata hp (by omega)).not.mpr hlast)
  have hack := ack_iff h hdata hp (by omega) (by omega) last.ack
  have ht : t = cecReceiveBit (feed (cecReceiveStart s) p) last.ack := by rw [← feed_concat, ← hsplit]
  have hend := ack_ends (by rw [hdr]; exact h) h9 hends
  rw [← ht, hign, hdr] at hend
  have hbuf : (feed (cecReceiveStart s) p).rx.buf = fill s.build.hdr s.rx.buf p := by
    rw [h.buf, hign]; rfl
  refine ⟨by rw [hend], ?_, ?_, ?_, ?_⟩
  · have hover := h.overrun
    rw [hblocks] at hover
    rw [hend]
    simp only [Bool.false_eq_true, if_false, Function.update_self]
    rw [Receive.headerByte, status_eq _ (by rw [h.pos, hblocks]; omega), h.pos, hblocks, hover]
    simp only [← hack]
    rw [Nat.mod_eq_of_lt (by omega)]
    cases (feed (cecReceiveStart s) p).rx.flags.ack last.ack <;> simp
  · intro k hk
    have hlt : k < ms.length := by omega
    rw [hend]
    simp only [Bool.false_eq_true, if_false]
    rw [Function.update_of_ne (by omega), hbuf, fill, if_pos (by omega),
      show s.build.hdr + 1 + k - s.build.hdr - 1 = k by omega,
      ← byteAt_append (lt_blocks (by omega)) [last.ack], ← hsplit]
    exact byteAt_flat hdata hlt
  · intro i hi hout
    rw [hend]
    simp only [Bool.false_eq_true, if_false]
    rw [Function.update_of_ne hi, hbuf, fill, if_neg]
    rintro ⟨hlo, hhi⟩
    exact hout (i - s.build.hdr - 1) (by omega) (by omega)
  · intro q hq hqne
    have hq := htrack q hq hqne
    exact ⟨hq.header.trans hfree, hq.flags_ne⟩

/-- A directed message of two blocks, the second one refused. -/
theorem message_decoded_two :
    (feed (cecReceiveStart (Usi.initial { hdr := 3 } (.fixed 4)))
      (flat [⟨0x04, false, false⟩, ⟨0x36, true, true⟩])).rx.buf 3 = 0x82 :=
  (message_decoded (Usi.initial { hdr := 3 } (.fixed 4)) [⟨0x04, false, false⟩, ⟨0x36, true, true⟩]
    (by decide) rfl (by decide) (by decide) (by decide) (by decide)).2.1

end AvrCec
