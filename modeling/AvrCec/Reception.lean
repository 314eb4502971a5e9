import AvrCec.State
import AvrCec.Lib.Bits

/-! A reception as the bits heard so far, and what the engine holds after them.

    Abstractly a reception is a bit string: blocks of eight data bits, an EOM bit and an ack bit.
    `phase`, `blocks` and `byteAt` read it, `fill` is the buffer it leaves, and `Tracks bits` says that
    the engine's shift register, counter, flags and buffer are what that bit string makes them. -/

namespace AvrCec
open Lib

/-! ### Bit strings in blocks of ten -/

/-- Where in its block the next bit stands: 0 to 7 data, 8 EOM, 9 ack. -/
def phase (bits : List Bool) : Nat := bits.length % 10

/-- How many whole bytes are in. -/
def blocks (bits : List Bool) : Nat := (bits.length + 2) / 10

/-- The bits of the block under way. -/
def current (bits : List Bool) : List Bool := bits.drop (10 * (bits.length / 10))

/-- The data byte of block `k`. -/
def byteAt (bits : List Bool) (k : Nat) : Nat := ofBits ((bits.drop (10 * k)).take 8)

theorem length_current (bits : List Bool) : (current bits).length = phase bits := by
  simp only [current, List.length_drop, phase]; omega

theorem phase_concat (bits : List Bool) (b : Bool) : phase (bits ++ [b]) = (phase bits + 1) % 10 := by
  unfold phase
  rw [List.length_append, List.length_singleton]; omega

theorem current_concat {bits : List Bool} (h : phase bits ≠ 9) (b : Bool) :
    current (bits ++ [b]) = current bits ++ [b] := by
  unfold phase at h
  have hdiv : (bits.length + 1) / 10 = bits.length / 10 := by omega
  rw [current, List.length_append, List.length_singleton, hdiv,
    List.drop_append_of_le_length (by omega)]
  rfl

theorem current_concat_ack {bits : List Bool} (h : phase bits = 9) (b : Bool) :
    current (bits ++ [b]) = [] := by
  unfold phase at h
  apply List.eq_nil_of_length_eq_zero
  rw [length_current, phase, List.length_append, List.length_singleton]
  omega

/-- A complete byte does not depend on what follows. -/
theorem byteAt_append {bits : List Bool} {k : Nat} (h : 10 * k + 8 ≤ bits.length) (l : List Bool) :
    byteAt (bits ++ l) k = byteAt bits k := by
  unfold byteAt
  rw [List.drop_append_of_le_length (by omega),
    List.take_append_of_le_length (by rw [List.length_drop]; omega)]

/-- The eighth data bit completes a byte. -/
theorem byteAt_done {bits : List Bool} (h : phase bits = 7) (b : Bool) :
    byteAt (bits ++ [b]) (blocks bits) = ofBits (current bits ++ [b]) := by
  have hb : blocks bits = bits.length / 10 := by unfold blocks phase at *; omega
  unfold phase at h
  rw [byteAt, hb, List.drop_append_of_le_length (by omega), current]
  congr 1
  apply List.take_of_length_le
  rw [List.length_append, List.length_drop, List.length_singleton]
  omega

theorem blocks_concat {bits : List Bool} (h : phase bits ≠ 7) (b : Bool) :
    blocks (bits ++ [b]) = blocks bits := by
  unfold blocks phase at *
  rw [List.length_append, List.length_singleton]; omega

theorem blocks_done {bits : List Bool} (h : phase bits = 7) (b : Bool) :
    blocks (bits ++ [b]) = blocks bits + 1 := by
  unfold blocks phase at *
  rw [List.length_append, List.length_singleton]; omega

theorem lt_blocks {bits : List Bool} {k : Nat} (h : k < blocks bits) : 10 * k + 8 ≤ bits.length := by
  unfold blocks at h; omega

/-! ### The buffer a reception leaves -/

/-- `buf₀` with the first bytes of the reception stored behind the header. -/
def fill (hdr : Nat) (buf₀ : Nat → Nat) (bits : List Bool) : Nat → Nat := fun i =>
  if hdr < i ∧ i ≤ hdr + min (blocks bits) cecBufferSize then byteAt bits (i - hdr - 1) else buf₀ i

theorem fill_zero {bits : List Bool} (h : blocks bits = 0) (hdr : Nat) (buf₀ : Nat → Nat) :
    fill hdr buf₀ bits = buf₀ := by
  funext i
  exact if_neg (by rw [h]; omega)

theorem fill_nil (hdr : Nat) (buf₀ : Nat → Nat) : fill hdr buf₀ [] = buf₀ := fill_zero rfl ..

theorem fill_concat {bits : List Bool} (h : phase bits ≠ 7 ∨ cecBufferSize ≤ blocks bits)
    (hdr : Nat) (buf₀ : Nat → Nat) (b : Bool) :
    fill hdr buf₀ (bits ++ [b]) = fill hdr buf₀ bits := by
  have hmin : min (blocks (bits ++ [b])) cecBufferSize = min (blocks bits) cecBufferSize := by
    by_cases h7 : phase bits = 7
    · rw [blocks_done h7]; have := h.resolve_left (not_not.mpr h7); omega
    · rw [blocks_concat h7]
  funext i
  unfold fill
  rw [hmin]
  split
  · next hi => exact byteAt_append (lt_blocks (by omega)) _
  · rfl

theorem fill_done {bits : List Bool} (h : phase bits = 7) (hlt : blocks bits < cecBufferSize)
    (hdr : Nat) (buf₀ : Nat → Nat) (b : Bool) :
    fill hdr buf₀ (bits ++ [b]) = Function.update (fill hdr buf₀ bits) (blocks bits + 1 + hdr)
      (byteAt (bits ++ [b]) (blocks bits)) := by
  funext i
  unfold fill
  rw [blocks_done h]
  by_cases hi : i = blocks bits + 1 + hdr
  · subst hi
    rw [Function.update_self, if_pos (by omega)]
    congr 1; omega
  · rw [Function.update_of_ne hi]
    by_cases hin : hdr < i ∧ i ≤ hdr + min (blocks bits) cecBufferSize
    · rw [if_pos hin, if_pos (by omega)]
      exact byteAt_append (lt_blocks (by omega)) _
    · rw [if_neg hin, if_neg (by omega)]

theorem fill_hdr (hdr : Nat) (buf₀ : Nat → Nat) (bits : List Bool) : fill hdr buf₀ bits hdr = buf₀ hdr :=
  if_neg (by omega)

/-- Clearing the header does not disturb the bytes behind it. -/
theorem fill_update_hdr (hdr v : Nat) (buf₀ : Nat → Nat) (bits : List Bool) :
    fill hdr (Function.update buf₀ hdr v) bits = Function.update (fill hdr buf₀ bits) hdr v := by
  funext i
  by_cases hi : i = hdr
  · subst hi; rw [fill_hdr, Function.update_self, Function.update_self]
  · rw [Function.update_of_ne hi]; unfold fill; rw [Function.update_of_ne hi]

/-! ### The engine's state after a bit string -/

/-- Some byte that the engine took for a header byte (its 8-bit counter read 0) is a broadcast's. -/
def BcastHeard (bits : List Bool) : Prop :=
  ∃ k, 256 * k < blocks bits ∧ byteAt bits (256 * k) % 16 = cecAddrBroadcast

theorem bcastHeard_concat {bits : List Bool} (h : phase bits ≠ 7) (b : Bool) :
    BcastHeard (bits ++ [b]) ↔ BcastHeard bits := by
  unfold BcastHeard
  rw [blocks_concat h]
  refine exists_congr fun k => and_congr_right fun hk => ?_
  rw [byteAt_append (lt_blocks hk)]

/-- A completed byte counts as a header byte when the 8-bit counter reads 0. -/
theorem bcastHeard_done {bits : List Bool} (h : phase bits = 7) (b : Bool) :
    BcastHeard (bits ++ [b]) ↔ BcastHeard bits ∨
      (blocks bits % 256 = 0 ∧ byteAt (bits ++ [b]) (blocks bits) % 16 = cecAddrBroadcast) := by
  unfold BcastHeard
  rw [blocks_done h]
  constructor
  · rintro ⟨k, hk, hv⟩
    rcases Nat.lt_or_eq_of_le (Nat.lt_succ_iff.mp hk) with hlt | heq
    · exact .inl ⟨k, hlt, by rwa [byteAt_append (lt_blocks hlt)] at hv⟩
    · exact .inr ⟨by omega, by rwa [heq] at hv⟩
  · rintro (⟨k, hk, hv⟩ | ⟨hz, hv⟩)
    · exact ⟨k, by omega, by rwa [byteAt_append (lt_blocks hk)]⟩
    · exact ⟨blocks bits / 256, by omega, by
        rwa [show 256 * (blocks bits / 256) = blocks bits by omega]⟩

/-- The engine is in a reception that has heard `bits`; `buf₀` is what the buffer held before, with
    the header as it is now. -/
structure Tracks (hdr : Nat) (buf₀ : Nat → Nat) (bits : List Bool) (rx : Receive) : Prop where
  active : rx.flags.active = true
  nacked : rx.flags.nacked = false
  bitsEom : rx.flags.bitsEom = decide (phase bits ≠ 9)
  eom : rx.flags.eom = (decide (phase bits = 9) && bits.getLastD false)
  byte : rx.byte = if phase bits < 8 then marked (current bits) else 0
  pos : rx.pos = blocks bits % 256
  overrun : rx.flags.overrun = decide (cecBufferSize < blocks bits)
  bcast : rx.flags.bcast = true ↔ BcastHeard bits
  fresh : blocks bits = 0 → rx.flags.ignore = false ∧ rx.flags.doAck = false
  free : 0 < blocks bits → rx.flags.ignore = false → buf₀ hdr = 0
  buf : rx.buf = if rx.flags.ignore then buf₀ else fill hdr buf₀ bits

theorem Tracks.flags_ne {hdr : Nat} {buf₀ : Nat → Nat} {bits : List Bool} {rx : Receive}
    (h : Tracks hdr buf₀ bits rx) : rx.flags ≠ 0 := by
  intro h0
  have := h.active
  rw [h0] at this; exact absurd this (by decide)

/-- The header byte is the one of `buf₀`. -/
theorem Tracks.header {hdr : Nat} {buf₀ : Nat → Nat} {bits : List Bool} {rx : Receive}
    (h : Tracks hdr buf₀ bits rx) : rx.buf hdr = buf₀ hdr := by
  rw [h.buf]; split
  · rfl
  · exact fill_hdr ..

end AvrCec
