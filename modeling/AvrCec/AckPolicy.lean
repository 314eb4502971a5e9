import AvrCec.Messages

/-! The ack policy over a reception of any length.

    The engine decides at the end of each byte whether it will drive the block's ack slot. The
    decision is incremental and rests on an 8-bit byte counter, so after 256 blocks a byte is taken
    for a header byte again. `ackPolicy_iff` says exactly when the policy the engine follows is the
    one of the first byte. -/

namespace AvrCec
open Lib

/-- What happens to the engine during a reception: bits, and the reader clearing the header. -/
inductive RxIn where
  | bit (level : Bool)
  | clear
  deriving DecidableEq, Repr

/-- The bits among the inputs. -/
def bitsOf (ins : List RxIn) : List Bool := ins.filterMap fun
  | .bit b => some b
  | .clear => none

/-- The inputs before bit number `n`. -/
def before : List RxIn → Nat → List RxIn
  | [], _ => []
  | .clear :: ins, n => .clear :: before ins n
  | .bit _ :: _, 0 => []
  | .bit b :: ins, n + 1 => .bit b :: before ins n

@[simp] theorem bitsOf_nil : bitsOf [] = [] := rfl

@[simp] theorem bitsOf_bit (b : Bool) (ins : List RxIn) : bitsOf (.bit b :: ins) = b :: bitsOf ins := rfl

@[simp] theorem bitsOf_clear (ins : List RxIn) : bitsOf (.clear :: ins) = bitsOf ins := rfl

@[simp] theorem bitsOf_append (ins jns : List RxIn) : bitsOf (ins ++ jns) = bitsOf ins ++ bitsOf jns :=
  List.filterMap_append ..

theorem before_isPrefix (ins : List RxIn) (n : Nat) : before ins n <+: ins := by
  induction ins generalizing n with
  | nil => exact List.prefix_rfl
  | cons i ins ih =>
    cases i with
    | clear => exact (List.prefix_cons_inj _).mpr (ih n)
    | bit b =>
      cases n with
      | zero => exact List.nil_prefix
      | succ n => exact (List.prefix_cons_inj _).mpr (ih n)

theorem length_before (ins : List RxIn) (n : Nat) (h : n ≤ (bitsOf ins).length) :
    (bitsOf (before ins n)).length = n := by
  induction ins generalizing n with
  | nil => exact (Nat.le_zero.mp h).symm
  | cons i ins ih =>
    cases i with
    | clear => exact ih n h
    | bit b =>
      cases n with
      | zero => rfl
      | succ n => exact congrArg (· + 1) (ih n (Nat.le_of_succ_le_succ h))

/-- A prefix that a bit follows is what came before that bit. -/
theorem before_bit {pre ins : List RxIn} {b : Bool} (h : pre ++ [.bit b] <+: ins) :
    before ins (bitsOf pre).length = pre := by
  induction pre generalizing ins with
  | nil =>
    obtain ⟨l, rfl⟩ := h
    rfl
  | cons i pre ih =>
    obtain ⟨l, rfl⟩ := h
    have := ih (List.prefix_append (pre ++ [.bit b]) l)
    cases i with
    | clear => exact congrArg (RxIn.clear :: ·) this
    | bit c => exact congrArg (RxIn.bit c :: ·) this

variable {D : Type} [Driver D]

def rxStep : RxIn → Cec D → Cec D
  | .bit b, s => cecReceiveBit s b
  | .clear, s => clearHeader s

/-- The state after a start and some inputs. -/
def recv (s : Cec D) (ins : List RxIn) : Cec D := run rxStep (cecReceiveStart s) ins

/-- The inputs belong to one reception: it is under way when each of them comes. -/
def Reception (s : Cec D) (ins : List RxIn) : Prop :=
  Along (fun t _ => t.rx.flags ≠ 0) rxStep (cecReceiveStart s) ins

instance (s : Cec D) (ins : List RxIn) : Decidable (Reception s ins) := by
  unfold Reception; infer_instance

theorem recv_concat (s : Cec D) (ins : List RxIn) (i : RxIn) :
    recv s (ins ++ [i]) = rxStep i (recv s ins) := run_concat ..

theorem reception_concat {s : Cec D} {ins : List RxIn} {i : RxIn} :
    Reception s (ins ++ [i]) ↔ Reception s ins ∧ (recv s ins).rx.flags ≠ 0 := by
  unfold Reception
  rw [along_append]
  simp [recv]

theorem reception_part {s : Cec D} {pre ins : List RxIn} (h : Reception s ins) (hp : pre <+: ins) :
    Reception s pre := by
  obtain ⟨l, rfl⟩ := hp
  exact ((along_append ..).mp h).1

theorem recv_build (s : Cec D) (ins : List RxIn) :
    (recv s ins).build = s.build ∧ (recv s ins).addr = s.addr := by
  induction ins using List.reverseRecOn with
  | nil => exact ⟨rfl, rfl⟩
  | append_singleton ins i ih =>
    rw [recv_concat]
    cases i with
    | bit b =>
      have := receiveBit_build (recv s ins) b
      exact ⟨this.1.trans ih.1, this.2.trans ih.2⟩
    | clear => exact ih

/-- While it lasts, a reception is tracked. -/
theorem tracks_recv {s : Cec D} {ins : List RxIn} (h : Reception s ins)
    (hne : (recv s ins).rx.flags ≠ 0) :
    ∃ buf₀, Tracks s.build.hdr buf₀ (bitsOf ins) (recv s ins).rx ∧
      buf₀ s.build.hdr = if .clear ∈ ins then 0 else s.header := by
  induction ins using List.reverseRecOn with
  | nil => exact ⟨_, tracks_start s, by simp⟩
  | append_singleton ins i ih =>
    obtain ⟨hpre, hflags⟩ := reception_concat.mp h
    obtain ⟨buf₀, ht, hbuf⟩ := ih hpre hflags
    have hb := (recv_build s ins).1
    rw [← hb] at ht
    rw [recv_concat] at hne ⊢
    rw [bitsOf_append, ← hb]
    cases i with
    | clear =>
      refine ⟨_, by rw [bitsOf_clear, bitsOf_nil, List.append_nil]; exact tracks_clear ht, ?_⟩
      rw [Function.update_self, if_pos (List.mem_append_right _ (List.mem_singleton_self _))]
    | bit b =>
      refine ⟨buf₀, ?_, by rw [hb, hbuf]; simp⟩
      by_cases h9 : phase (bitsOf ins) = 9
      · cases hends : (recv s ins).rx.ends b with
        | false => exact tracks_next ht h9 hends
        | true => exact absurd (by rw [rxStep, ack_ends ht h9 hends]) hne
      · exact tracks_data ht h9 b

/-- Only an ack bit can end a reception. -/
theorem recv_flags_ne {s : Cec D} {ins : List RxIn} (h : Reception s ins)
    (hp : phase (bitsOf ins) ≠ 0) : (recv s ins).rx.flags ≠ 0 := by
  induction ins using List.reverseRecOn with
  | nil => exact absurd rfl hp
  | append_singleton ins i ih =>
    obtain ⟨hpre, hflags⟩ := reception_concat.mp h
    obtain ⟨buf₀, ht, -⟩ := tracks_recv hpre hflags
    rw [← (recv_build s ins).1] at ht
    rw [recv_concat]
    cases i with
    | clear => exact hflags
    | bit b =>
      refine (tracks_data ht ?_ b).flags_ne
      intro h9
      rw [bitsOf_append, bitsOf_bit, bitsOf_nil, phase_concat, h9] at hp
      exact hp rfl

/-! ### The policy -/

/-- The header byte when block `k` completes: the first one, unless it has been cleared. -/
def headerAt (s : Cec D) (ins : List RxIn) (k : Nat) : Nat :=
  if .clear ∈ before ins (10 * k + 7) then 0 else s.header

/-- Block `j` of a message to `dest` is acked by us, or refused if the message is a broadcast;
    `header` is the header byte when block 0 completed. -/
def WantsAck (addr : Addr) (dest header j : Nat) : Prop :=
  (dest ≠ cecAddrBroadcast ∧ cecAddrMatch addr dest = true ∧ header = 0 ∧ j < cecBufferSize) ∨
  (dest = cecAddrBroadcast ∧ (header ≠ 0 ∨ cecBufferSize ≤ j))

/-- The destination in byte `k`, were it a header byte. -/
def destAt (bits : List Bool) (k : Nat) : Nat := byteAt bits k % 16

/-- Whenever the ack bit of a block is awaited, the engine's decision is the one of the policy, and
    the ack polarity that of block 0's destination. -/
def AckPolicy (s : Cec D) (ins : List RxIn) : Prop :=
  ∀ pre, pre <+: ins → ∀ j, (bitsOf pre).length = 10 * j + 9 →
    ((recv s pre).rx.flags.doAck = true ↔
      WantsAck s.addr (destAt (bitsOf ins) 0) (headerAt s ins 0) j) ∧
    ((recv s pre).rx.flags.bcast = true ↔ destAt (bitsOf ins) 0 = cecAddrBroadcast)

/-- The message is a broadcast, or none of its later bytes that stand where the 8-bit counter reads 0
    looks like the header byte of a broadcast or of a message that we would take. -/
def AckSafe (s : Cec D) (ins : List RxIn) : Prop :=
  destAt (bitsOf ins) 0 = cecAddrBroadcast ∨
  ∀ k, 0 < k → 10 * (256 * k) + 9 ≤ (bitsOf ins).length →
    destAt (bitsOf ins) (256 * k) ≠ cecAddrBroadcast ∧
    ¬ (cecAddrMatch s.addr (destAt (bitsOf ins) (256 * k)) = true ∧ headerAt s ins (256 * k) = 0)

/-- The decision about block `c` is taken when its byte completes. -/
theorem doAck_decided {s : Cec D} {ins q : List RxIn} {c : Nat} (h : Reception s ins)
    (hq : q <+: ins) (hne : (recv s q).rx.flags ≠ 0) (hc : blocks (bitsOf q) = c + 1) :
    let t := recv s (before ins (10 * c + 7))
    (recv s q).rx.flags.doAck
      = (doneFlags t t.rx.flags t.rx.pos (byteAt (bitsOf ins) c)).doAck := by
  induction q using List.reverseRecOn with
  | nil => exact absurd hc (by simp [blocks])
  | append_singleton q i ih =>
    obtain ⟨hpre, hflags⟩ := reception_concat.mp (reception_part h hq)
    obtain ⟨buf₀, ht, -⟩ := tracks_recv hpre hflags
    rw [← (recv_build s q).1] at ht
    have hq' : q <+: ins := (List.prefix_append q [i]).trans hq
    rw [recv_concat] at hne ⊢
    cases i with
    | clear => exact ih hq' hflags (by simpa using hc)
    | bit b =>
      rw [bitsOf_append, bitsOf_bit, bitsOf_nil] at hc
      by_cases h7 : phase (bitsOf q) = 7
      · rw [blocks_done h7] at hc
        have hlen : (bitsOf q).length = 10 * c + 7 := by unfold blocks phase at *; omega
        have hbefore : before ins (10 * c + 7) = q := by rw [← hlen]; exact before_bit hq
        obtain ⟨l, rfl⟩ := hq
        have hbyte : byteAt (bitsOf (q ++ [.bit b] ++ l)) c = byteAt (bitsOf q ++ [b]) c := by
          rw [bitsOf_append, bitsOf_append, bitsOf_bit, bitsOf_nil]
          exact byteAt_append (by rw [List.length_append, List.length_singleton]; omega) _
        intro t
        rw [hbyte, show c = blocks (bitsOf q) by omega]
        change (cecReceiveBit (recv s q) b).rx.flags.doAck = _
        rw [receiveBit_flags ht h7, show t = recv s q from congrArg (recv s) hbefore]
      · rw [blocks_concat h7] at hc
        have hgo : phase (bitsOf q) = 9 → (recv s q).rx.ends b = false := by
          intro h9
          by_contra hends
          exact hne (by rw [rxStep, ack_ends ht h9 (Bool.eq_true_of_not_eq_false hends)])
        exact (receiveBit_policy ht h7 hgo).1.trans (ih hq' hflags hc)

/-- What the engine is about to decide on when byte `c` completes. -/
theorem before_byte {s : Cec D} {ins : List RxIn} {c : Nat} (h : Reception s ins)
    (hc : 10 * c + 8 ≤ (bitsOf ins).length) :
    let t := recv s (before ins (10 * c + 7))
    t.rx.flags ≠ 0 ∧ t.rx.pos = c % 256 ∧ t.header = headerAt s ins c ∧ t.addr = s.addr ∧
      blocks (bitsOf (before ins (10 * c + 7))) = c := by
  intro t
  have hlen := length_before ins (10 * c + 7) (by omega)
  have hblocks : blocks (bitsOf (before ins (10 * c + 7))) = c := by unfold blocks; omega
  have hpre := reception_part h (before_isPrefix ins (10 * c + 7))
  have hne := recv_flags_ne hpre (by unfold phase; omega)
  obtain ⟨buf₀, ht, hbuf⟩ := tracks_recv hpre hne
  refine ⟨hne, by rw [ht.pos, hblocks], ?_, (recv_build s _).2, hblocks⟩
  rw [Cec.header, (recv_build s _).1, ht.header, hbuf, headerAt]

theorem byteAt_before {ins q : List RxIn} (hq : q <+: ins) {k : Nat} (hk : k < blocks (bitsOf q)) :
    byteAt (bitsOf q) k = byteAt (bitsOf ins) k := by
  obtain ⟨l, rfl⟩ := hq
  rw [bitsOf_append, byteAt_append (lt_blocks hk)]

/-- Up to block `j`, no byte but the first is taken for a header byte that matters. -/
def AckSafeTo (s : Cec D) (ins : List RxIn) (j : Nat) : Prop :=
  destAt (bitsOf ins) 0 = cecAddrBroadcast ∨
  ∀ k, 0 < k → 256 * k ≤ j →
    destAt (bitsOf ins) (256 * k) ≠ cecAddrBroadcast ∧
    ¬ (cecAddrMatch s.addr (destAt (bitsOf ins) (256 * k)) = true ∧ headerAt s ins (256 * k) = 0)

/-- The polarity of a safe message is that of its first byte. -/
theorem bcast_iff {s : Cec D} {ins q : List RxIn} {j : Nat} (h : Reception s ins) (hq : q <+: ins)
    (hne : (recv s q).rx.flags ≠ 0) (hpos : 0 < blocks (bitsOf q)) (hj : blocks (bitsOf q) ≤ j + 1)
    (hsafe : AckSafeTo s ins j) :
    (recv s q).rx.flags.bcast = true ↔ destAt (bitsOf ins) 0 = cecAddrBroadcast := by
  obtain ⟨buf₀, ht, -⟩ := tracks_recv (reception_part h hq) hne
  rw [ht.bcast]
  constructor
  · rintro ⟨k, hk, hv⟩
    rw [byteAt_before hq hk] at hv
    rcases Nat.eq_zero_or_pos k with rfl | hk0
    · exact hv
    · refine hsafe.resolve_right fun hs => ?_
      exact (hs k hk0 (by omega)).1 hv
  · intro hv
    exact ⟨0, hpos, by rw [byteAt_before hq hpos]; exact hv⟩

/-- What the policy makes of one more byte `d`; `header` is the header byte now. -/
theorem wantsAck_succ {addr : Addr} {dest header₀ header c d : Nat} {doAck bcast : Bool}
    (hb : bcast = true ↔ dest = cecAddrBroadcast)
    (ha : doAck = true ↔ WantsAck addr dest header₀ c)
    (hsafe : dest = cecAddrBroadcast ∨ ((c + 1) % 256 = 0 →
      d ≠ cecAddrBroadcast ∧ ¬ (cecAddrMatch addr d = true ∧ header = 0))) :
    (if ((c + 1) % 256 == 0 && header != 0) || (c + 1) % 256 == cecBufferSize
      then bcast || ((c + 1) % 256 == 0 && d == cecAddrBroadcast)
      else doAck || ((c + 1) % 256 == 0 && d != cecAddrBroadcast && cecAddrMatch addr d)) = true ↔
    WantsAck addr dest header₀ (c + 1) := by
  unfold WantsAck at *
  by_cases hd : dest = cecAddrBroadcast
  · -- a broadcast is refused from block 16 on, whatever its later bytes are
    have hbt : bcast = true := hb.mpr hd
    rw [hbt]
    by_cases hr : ((c + 1) % 256 = 0 ∧ header ≠ 0) ∨ (c + 1) % 256 = cecBufferSize
    · have : cecBufferSize ≤ c + 1 := by unfold cecBufferSize at *; omega
      simp [hr, hd, this]
    · have hstep : cecBufferSize ≤ c + 1 ↔ cecBufferSize ≤ c := by unfold cecBufferSize at *; omega
      by_cases hz : (c + 1) % 256 = 0
      · have : cecBufferSize ≤ c := by unfold cecBufferSize; omega
        have hda : doAck = true := by rw [ha]; exact .inr ⟨hd, .inr this⟩
        simp [hda, hd, this, hstep]
      · cases hda : doAck <;> simp_all
  · have hbf : bcast = false := by rw [Bool.eq_false_iff]; exact fun h => hd (hb.mp h)
    have hs := hsafe.resolve_left hd
    rw [hbf]
    by_cases hr : ((c + 1) % 256 = 0 ∧ header ≠ 0) ∨ (c + 1) % 256 = cecBufferSize
    · have : ¬ c + 1 < cecBufferSize := by unfold cecBufferSize at *; omega
      simp [hr, hd, this]
      exact fun hz => (hs hz).1
    · have hstep : (c + 1) % 256 ≠ 0 → (c + 1 < cecBufferSize ↔ c < cecBufferSize) := by
        unfold cecBufferSize at *; omega
      have hz : (c + 1) % 256 = 0 → ¬ c < cecBufferSize ∧ ¬ c + 1 < cecBufferSize := by
        unfold cecBufferSize; omega
      by_cases h0 : (c + 1) % 256 = 0
      · cases hda : doAck <;> simp_all
      · cases hda : doAck <;> simp_all

/-- The decision about every block of a safe message is the policy's. -/
theorem doAck_iff {s : Cec D} {ins : List RxIn} {j : Nat} (h : Reception s ins)
    (hj : 10 * j + 8 ≤ (bitsOf ins).length) (hsafe : AckSafeTo s ins j) (c : Nat) (hc : c ≤ j)
    {q : List RxIn} (hq : q <+: ins) (hne : (recv s q).rx.flags ≠ 0)
    (hblocks : blocks (bitsOf q) = c + 1) :
    (recv s q).rx.flags.doAck = true ↔
      WantsAck s.addr (destAt (bitsOf ins) 0) (headerAt s ins 0) c := by
  induction c generalizing q with
  | zero =>
    obtain ⟨htne, hpos, hhdr, haddr, ht0⟩ := before_byte (c := 0) h (by omega)
    obtain ⟨buf₀, ht, -⟩ := tracks_recv (reception_part h (before_isPrefix ..)) htne
    have hnb : (recv s (before ins (10 * 0 + 7))).rx.flags.bcast = false := by
      rw [Bool.eq_false_iff]
      intro hb
      obtain ⟨k, hk, -⟩ := ht.bcast.mp hb
      omega
    rw [doAck_decided h hq hne hblocks, doneFlags_doAck, (doneFlags_flags _ _ _ _).bcast,
      (ht.fresh ht0).2, hnb, haddr]
    unfold refused WantsAck destAt
    rw [hpos, hhdr]
    by_cases hd : byteAt (bitsOf ins) 0 % 16 = cecAddrBroadcast <;>
      by_cases h0 : headerAt s ins 0 = 0 <;> simp [hd, h0, cecBufferSize]
  | succ c ih =>
    obtain ⟨htne, hpos, hhdr, haddr, ht0⟩ := before_byte (c := c + 1) h (by omega)
    have hlast := ih (by omega) (before_isPrefix ins (10 * (c + 1) + 7)) htne ht0
    have hbc := bcast_iff h (before_isPrefix ins (10 * (c + 1) + 7)) htne (by omega) (by omega) hsafe
    rw [doAck_decided h hq hne hblocks, doneFlags_doAck, (doneFlags_flags _ _ _ _).bcast, haddr]
    unfold refused
    rw [hhdr, hpos]
    refine wantsAck_succ hbc hlast (hsafe.imp_right fun hs hz => ?_)
    have hk : 256 * ((c + 1) / 256) = c + 1 := by omega
    have := hs ((c + 1) / 256) (by omega) (by omega)
    rwa [hk] at this

/-- The engine follows the policy of a reception exactly when it is safe. -/
theorem ackPolicy_iff (s : Cec D) (ins : List RxIn) (h : Reception s ins) :
    AckPolicy s ins ↔ AckSafe s ins := by
  constructor
  · intro hpol
    by_cases hd : destAt (bitsOf ins) 0 = cecAddrBroadcast
    · exact .inl hd
    · refine .inr fun k hk hlen => ?_
      have hlen' := length_before ins (10 * (256 * k) + 9) hlen
      have hpre := before_isPrefix ins (10 * (256 * k) + 9)
      have hblocks : blocks (bitsOf (before ins (10 * (256 * k) + 9))) = 256 * k + 1 := by
        unfold blocks; omega
      have hne := recv_flags_ne (reception_part h hpre) (by unfold phase; omega)
      obtain ⟨hack, hbc⟩ := hpol _ hpre (256 * k) hlen'
      have hack' : ¬ (recv s (before ins (10 * (256 * k) + 9))).rx.flags.doAck = true := by
        rw [hack]
        rintro (⟨-, -, -, hj⟩ | ⟨hd', -⟩)
        · unfold cecBufferSize at hj; omega
        · exact hd hd'
      have hb : destAt (bitsOf ins) (256 * k) ≠ cecAddrBroadcast := by
        intro hb
        obtain ⟨buf₀, ht, -⟩ := tracks_recv (reception_part h hpre) hne
        refine hd (hbc.mp (ht.bcast.mpr ⟨k, by omega, ?_⟩))
        rw [byteAt_before hpre (by omega)]
        exact hb
      refine ⟨hb, ?_⟩
      rintro ⟨hm, hfree⟩
      obtain ⟨-, hpos, hhdr, haddr, -⟩ := before_byte (c := 256 * k) h (by omega)
      refine hack' ?_
      rw [doAck_decided h hpre hne hblocks, doneFlags_doAck, haddr]
      unfold refused
      rw [hhdr, hpos, hfree]
      unfold destAt at hb hm
      simp [cecBufferSize, hb, hm]
  · intro hsafe pre hpre j hlen
    have hle : (bitsOf pre).length ≤ (bitsOf ins).length := by
      obtain ⟨l, rfl⟩ := hpre
      rw [bitsOf_append, List.length_append]; omega
    have hblocks : blocks (bitsOf pre) = j + 1 := by unfold blocks; omega
    have hne := recv_flags_ne (reception_part h hpre) (by unfold phase; omega)
    have hsafe' : AckSafeTo s ins j := hsafe.imp_right fun hs k hk hkj => hs k hk (by omega)
    exact ⟨doAck_iff h (by omega) hsafe' j le_rfl hpre hne hblocks,
      bcast_iff h hpre hne (by omega) (by omega) hsafe'⟩

/-- A message to us of three blocks, whose reader clears an older header after the first. -/
def threeBlocks : List RxIn :=
  (toBits 8 0x04 ++ [false, false]).map .bit ++ .clear ::
    (toBits 8 0x82 ++ [false, false] ++ toBits 8 0x36 ++ [true]).map .bit

/-- It is safe, and acked as the policy says. -/
theorem ackPolicy_blocks : AckPolicy (Usi.initial {} (.fixed 4)) threeBlocks :=
  (ackPolicy_iff (Usi.initial {} (.fixed 4)) threeBlocks (by decide +kernel)).mpr
    (.inr fun k hk h => absurd (show 10 * (256 * k) + 9 ≤ 29 from h) (by omega))

/-! ### The counter wraps -/

theorem bitsOf_map (bits : List Bool) : bitsOf (bits.map .bit) = bits := by
  induction bits with
  | nil => rfl
  | cons b bits ih => rw [List.map_cons, bitsOf_bit, ih]

theorem recv_map (s : Cec D) (bits : List Bool) :
    recv s (bits.map .bit) = feed (cecReceiveStart s) bits := by
  induction bits using List.reverseRecOn with
  | nil => rfl
  | append_singleton bits b ih =>
    rw [List.map_append, List.map_singleton, recv_concat, ih, feed_concat]
    rfl

/-- A message of up to 257 blocks is one reception. -/
theorem reception_flat {ms : List Block} (s : Cec D) (hdata : ∀ b ∈ ms, b.data < 256)
    (hlen : ms.length ≤ 257) (hgo : ∀ b ∈ ms.dropLast, GoesOn ms b) {p : List Bool}
    (hp : p <+: flat ms) : Reception s (p.map .bit) := by
  induction p using List.reverseRecOn with
  | nil => exact trivial
  | append_singleton p b ih =>
    have hp' : p <+: flat ms := (List.prefix_append p [b]).trans hp
    have hne : p ≠ flat ms := by
      have := hp.length_le
      rw [List.length_append, List.length_singleton] at this
      rintro rfl; omega
    rw [List.map_append, List.map_singleton, reception_concat, recv_map]
    exact ⟨ih hp', (tracks_part s hdata hlen hgo hp' hne).flags_ne⟩

/-- A first and a last block, and `n` equal ones in between. -/
def framed (n : Nat) (first middle last : Block) : List Block :=
  first :: List.replicate n middle ++ [last]

theorem length_framed (n : Nat) (a b c : Block) : (framed n a b c).length = n + 2 := by
  simp [framed]

theorem getElem_framed_zero (n : Nat) (a b c : Block) (h : 0 < (framed n a b c).length) :
    (framed n a b c)[0] = a := rfl

theorem getElem_framed_last (n : Nat) (a b c : Block) (h : n + 1 < (framed n a b c).length) :
    (framed n a b c)[n + 1] = c := by
  simp [framed]

theorem dropLast_framed (n : Nat) (a b c : Block) :
    (framed n a b c).dropLast = a :: List.replicate n b := List.dropLast_concat

theorem mem_framed {n : Nat} {a b c d : Block} (h : d ∈ framed n a b c) : d = a ∨ d = b ∨ d = c := by
  simp only [framed, List.cons_append, List.mem_cons, List.mem_append, List.mem_replicate,
    List.not_mem_nil, or_false] at h
  rcases h with h | ⟨-, h⟩ | h
  · exact .inl h
  · exact .inr (.inl h)
  · exact .inr (.inr h)

/-- 257 blocks to address 5, each acked by its owner; the last byte ends in our own address 4. -/
def wrapping : List Block := framed 255 ⟨0x15, false, false⟩ ⟨0x00, false, false⟩ ⟨0x04, false, false⟩

/-- The engine takes byte 256 for a header byte and acks a message that is not for us. -/
theorem ackPolicy_wraps :
    Reception (Usi.initial {} (.fixed 4)) ((flat wrapping).map .bit) ∧
    ¬ AckPolicy (Usi.initial {} (.fixed 4)) ((flat wrapping).map .bit) := by
  have hdata : ∀ b ∈ wrapping, b.data < 256 := by
    intro b hb
    rcases mem_framed hb with rfl | rfl | rfl <;> decide
  have hgo : ∀ b ∈ wrapping.dropLast, GoesOn wrapping b := by
    intro b hb
    rw [wrapping, dropLast_framed] at hb
    rcases List.mem_cons.mp hb with rfl | hb
    · exact ⟨rfl, rfl⟩
    · obtain rfl := List.eq_of_mem_replicate hb
      exact ⟨rfl, rfl⟩
  have hlen : wrapping.length = 257 := length_framed ..
  have h := reception_flat (Usi.initial {} (.fixed 4)) hdata hlen.le hgo List.prefix_rfl
  refine ⟨h, fun hpol => ?_⟩
  have hsafe := (ackPolicy_iff _ _ h).mp hpol
  unfold AckSafe at hsafe
  rw [bitsOf_map] at hsafe
  have h0 : destAt (flat wrapping) 0 = 5 := by
    rw [destAt, byteAt_flat hdata (by omega)]
    exact congrArg (fun b : Block => b.data % 16) (getElem_framed_zero ..)
  have h256 : destAt (flat wrapping) (256 * 1) = 4 := by
    rw [destAt, byteAt_flat hdata (by omega)]
    exact congrArg (fun b : Block => b.data % 16) (getElem_framed_last ..)
  rcases hsafe with hb | hs
  · rw [h0] at hb; exact absurd hb (by decide)
  · have := (hs 1 (by norm_num) (by rw [length_flat, hlen]; omega)).2
    rw [h256] at this
    refine this ⟨rfl, ?_⟩
    unfold headerAt
    split <;> rfl

end AvrCec
