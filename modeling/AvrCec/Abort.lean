import AvrCec.Mail
import AvrCec.Retries

/-! What an abort leaves in the registers of the USI.

    `cec_transmit_abort` masks the output bits out of the data register and keeps the samples below
    them. The buffer register, which holds the next pattern, is rewritten when the abort comes with an
    overflow to handle, and left alone when it comes in the middle of a byte: the line is silent after
    an abort exactly when there was an overflow or nothing was queued (`abort_silent_iff`). -/

namespace AvrCec
open Lib

/-- A step, `cec_halt` or `cec_init`. -/
inductive Op (I : Type) where
  | step (i : I)
  | halt
  | init
  deriving DecidableEq, Repr

namespace Usi

def op : Op Step → Cec Usi → Cec Usi
  | .step i, s => step i s
  | .halt, s => cecHalt s
  | .init, s => cecInit s

/-- The samples of the byte under way, below the output bits. -/
def samples (u : Usi) : Nat := u.usidr.toNat % 2 ^ u.tick

/-- The poll aborts an attempt, at its top or while it handles an overflow. -/
def Aborts (s : Cec Usi) (others : Bool) : Prop := failures s.told < failures (beforeAck s others).told

/-- Overflows are handled in time, and no ack is put into the registers. -/
def Passive (s : Cec Usi) : Step → Prop
  | .tick others => Timely s (.tick others)
  | .poll others₁ others₂ =>
    (cecReceivePeriodic s others₁ others₂).hw.usidr = (beforeAck s others₁).hw.usidr ∧
      (cecReceivePeriodic s others₁ others₂).hw.usibr = (beforeAck s others₁).hw.usibr
  | .app _ => True

instance (s : Cec Usi) (i : Step) : Decidable (Passive s i) :=
  match i with
  | .tick others => inferInstanceAs (Decidable (Timely s (.tick others)))
  | .poll .. => instDecidableAnd
  | .app _ => .isTrue trivial

/-- Up to the next attempt, of which there have been `n`, the shift register lets the line float. -/
def SilentFrom (n : Nat) (t : Cec Usi) : Prop :=
  ∀ js, Along Passive step t js → attempts (run step t js).told = n →
    (run step t js).hw.usidr.msb = false

/-! ### The mask -/

theorem abortLoop_and (n : Nat) (dr bit : BitVec 8) :
    abortLoop n dr bit = dr &&& abortLoop n (BitVec.allOnes 8) bit := by
  induction n generalizing dr bit with
  | zero => exact BitVec.and_allOnes.symm
  | succ n ih =>
    rw [abortLoop, abortLoop, ih (dr &&& bit), ih (BitVec.allOnes 8 &&& bit), BitVec.allOnes_and,
      BitVec.and_assoc]

/-- What is left of the data register are the samples. -/
theorem abort_usidr (u : Usi) : u.cecTransmitAbort.usidr.toNat = u.samples := by
  have hmask : ∀ k < 8, (abortLoop (8 - k) (BitVec.allOnes 8) 0x7f).toNat = 2 ^ k - 1 := by decide
  change (abortLoop (8 - u.tick) u.usidr 0x7f).toNat = _
  rw [abortLoop_and, BitVec.toNat_and, hmask u.tick (Nat.mod_lt _ (by decide)), Nat.and_two_pow_sub_one_eq_mod]
  rfl

theorem samples_lt (u : Usi) : u.samples < 2 ^ u.tick := Nat.mod_lt _ (Nat.two_pow_pos _)

/-! ### The counter -/

/-- The counter has four bits, and is in its upper half from a poll to the next overflow. -/
structure Clocked (u : Usi) : Prop where
  lt : u.usicnt < 16
  handled : u.usioif = false → 8 ≤ u.usicnt

theorem Clocked.clock {u : Usi} (h : Clocked u) (others : Bool) : Clocked (u.clock others) := by
  have hlt := h.lt
  rw [Usi.clock]
  split
  · exact ⟨Nat.zero_lt_succ _, fun hf => Bool.noConfusion hf⟩
  · next hne =>
    refine ⟨?_, fun hf => Nat.le_succ_of_le (h.handled hf)⟩
    change u.usicnt + 1 < 16
    omega

theorem undecoded_usioif : Undecoded Usi.usioif := ⟨⟨fun _ => rfl, fun _ _ => rfl⟩, fun _ _ => rfl⟩

theorem checkFloat_usioif (s : Cec Usi) (others : Bool) : (checkFloat s others).hw.usioif = s.hw.usioif := by
  rw [checkFloat]
  dsimp only
  split
  · exact undecoded_usioif.onError ..
  · rfl

theorem checkFloat_usibr (s : Cec Usi) (others : Bool) : (checkFloat s others).hw.usibr = s.hw.usibr := by
  have hbr : Undecoded Usi.usibr := ⟨⟨fun _ => rfl, fun _ _ => rfl⟩, fun _ _ => rfl⟩
  rw [checkFloat]
  dsimp only
  split
  · exact hbr.onError ..
  · rfl

theorem doAck_usioif (u : Usi) (acks : Nat) : (cecReceiveDoAck u acks).usioif = u.usioif := by
  rw [cecReceiveDoAck]
  split
  · rfl
  · dsimp only
    split <;> rfl

theorem handleAck_usioif (s : Cec Usi) (others : Bool) : (handleAck s others).hw.usioif = s.hw.usioif := by
  rw [handleAck]
  dsimp only
  repeat' split
  · exact doAck_usioif ..
  · exact doAck_usioif ..
  · rfl
  · rfl

theorem beforeAck_usicnt (s : Cec Usi) (others : Bool) :
    (beforeAck s others).hw.usicnt = if s.hw.usioif then s.hw.usicnt ||| 8 else s.hw.usicnt := by
  rw [beforeAck]
  split
  · rw [handleOverflow_eq]
    change (cecUsiNextBit _).1.hw.usicnt ||| 8 = _
    rw [nextBit_usicnt, decoded, undecoded_usicnt.ticks]
    change (checkFloat s others).hw.usicnt ||| 8 = _
    rw [checkFloat_usicnt]
  · exact checkFloat_usicnt ..

theorem or_eight {n : Nat} (h : n < 16) : (n ||| 8) % 8 = n % 8 ∧ n ||| 8 < 16 ∧ 8 ≤ n ||| 8 := by
  revert h n
  decide

/-- Handling an overflow does not change the tick. -/
theorem beforeAck_clocked {s : Cec Usi} (h : Clocked s.hw) (others : Bool) :
    Clocked (beforeAck s others).hw ∧ (beforeAck s others).hw.tick = s.hw.tick := by
  have hcnt := beforeAck_usicnt s others
  obtain ⟨hmod, hlt, hle⟩ := or_eight h.lt
  by_cases ho : s.hw.usioif = true
  · rw [if_pos ho] at hcnt
    refine ⟨⟨hcnt ▸ hlt, fun _ => hcnt ▸ hle⟩, ?_⟩
    rw [tick, tick, hcnt, hmod]
  · rw [if_neg ho] at hcnt
    refine ⟨⟨hcnt ▸ h.lt, fun _ => hcnt ▸ h.handled (Bool.eq_false_iff.mpr ho)⟩, ?_⟩
    rw [tick, tick, hcnt]

theorem clocked_step {s : Cec Usi} (h : Clocked s.hw) (i : Step) : Clocked (step i s).hw := by
  cases i with
  | tick others => exact h.clock others
  | poll others₁ others₂ =>
    have hb := (beforeAck_clocked h others₁).1
    rw [step, cecPeriodic, addrPeriodic_hw, poll_eq]
    refine ⟨?_, fun hf => ?_⟩
    · rw [handleAck_usicnt]; exact hb.lt
    · rw [handleAck_usicnt]
      rw [handleAck_usioif] at hf
      exact hb.handled hf
  | app a =>
    rw [step, app_hw]
    exact h

theorem clocked_op {s : Cec Usi} (h : Clocked s.hw) (o : Op Step) : Clocked (op o s).hw := by
  cases o with
  | step i => exact clocked_step h i
  | halt =>
    have hcnt := undecoded_usicnt.receiveError s .halt
    have hoif := undecoded_usioif.receiveError s .halt
    rw [op, cecHalt, addrInit_hw]
    refine ⟨?_, fun hf => ?_⟩
    · change (cecReceiveError s .halt).hw.usicnt < 16
      rw [hcnt]; exact h.lt
    · change 8 ≤ (cecReceiveError s .halt).hw.usicnt
      rw [hcnt]; exact h.handled (hoif ▸ hf)
  | init =>
    rw [op, cecInit, addrInit_hw]
    exact ⟨(by decide : 8 < 16), fun _ => Nat.le_refl 8⟩

theorem clocked_run (build : Build) (addr : Addr) (os : List (Op Step)) :
    Clocked (run op (initial build addr) os).hw := by
  have hstep : ∀ (s : Cec Usi) (o : Op Step), Clocked s.hw → Clocked (op o s).hw := fun s o h => clocked_op h o
  have hinit : Clocked (initial build addr).hw := by
    rw [initial, cecInit, addrInit_hw]
    exact ⟨(by decide : 8 < 16), fun _ => Nat.le_refl 8⟩
  exact invariant_run' hstep os hinit

/-! ### Silence is kept -/

/-- Nothing of an attempt is left in the data register, nor will the driver add to it. -/
def Drained (u : Usi) : Prop := u.xmitState = .idle ∧ u.usidr.toNat < 2 ^ u.tick

/-- The part of the driver an abort rewrites, with the counter. -/
def output (u : Usi) : UsiXmit × BitVec 8 × Nat := (u.xmitState, u.usidr, u.usicnt)

theorem keptTx_drained : KeptTx output fun s : Cec Usi => Drained s.hw where
  same {s t} h _ _ hv _ := by
    have hx : t.hw.xmitState = s.hw.xmitState := congrArg Prod.fst hv
    have hdr : t.hw.usidr = s.hw.usidr := congrArg (·.2.1) hv
    have hcnt : t.hw.usicnt = s.hw.usicnt := congrArg (·.2.2) hv
    rw [Drained, tick, hx, hdr, hcnt]
    exact h
  nack _ _ := rfl
  needed _ _ h := h
  onError {s} err _ hb := by
    rw [(onError_busy hb err).1]
    exact ⟨rfl, (abort_usidr s.hw).symm ▸ samples_lt s.hw⟩
  acked {s} h hw := by
    rw [cecTransmitReceiveAck, if_pos rfl, if_pos hw]
    exact h

/-- Since the registers were those of `u`, either no failure has been charged and they have not
    changed, or the attempt has been aborted and the samples are left. -/
def Halfway (u : Usi) (n : Nat) (t : Cec Usi) : Prop :=
  t.hw.usicnt = u.usicnt ∧ (failures t.told = n ∧ t.hw.usidr = u.usidr ∨
    ¬ t.tx.state.busy ∧ t.hw.xmitState = .idle ∧ t.hw.usidr.toNat = u.samples)

theorem keptTx_halfway (u : Usi) (n : Nat) : KeptTx output (Halfway u n) where
  same {s t} h _ ht hv hl := by
    have hx : t.hw.xmitState = s.hw.xmitState := congrArg Prod.fst hv
    have hdr : t.hw.usidr = s.hw.usidr := congrArg (·.2.1) hv
    have hcnt : t.hw.usicnt = s.hw.usicnt := congrArg (·.2.2) hv
    rw [Halfway, ht, hl, hx, hdr, hcnt]
    exact h
  nack _ _ := rfl
  needed _ _ h := h
  onError {s} err h hb := by
    obtain ⟨hcnt, ⟨-, hdr⟩ | ⟨hfree, -, -⟩⟩ := h
    · obtain ⟨state, needed, hs, -, htx⟩ := onError_charged hb err
      have hfree : ¬ (cecTransmitOnError s err).tx.state.busy := by
        rw [htx]
        change ¬ state.busy
        rcases hs with rfl | rfl <;> decide
      have hsame : s.hw.samples = u.samples := by rw [samples, samples, tick, tick, hdr, hcnt]
      refine ⟨?_, .inr ⟨hfree, ?_, ?_⟩⟩
      · rw [(onError_busy hb err).1]; exact hcnt
      · rw [(onError_busy hb err).1]; rfl
      · rw [(onError_busy hb err).1]; exact (abort_usidr s.hw).trans hsame
    · exact absurd hb hfree
  acked {s} h hw := by
    obtain ⟨hcnt, ⟨hn, hdr⟩ | ⟨hfree, -, -⟩⟩ := h
    · rw [cecTransmitReceiveAck, if_pos rfl, if_pos hw]
      exact ⟨hcnt, .inl ⟨hn, hdr⟩⟩
    · exact absurd (by rw [hw]; decide) hfree

section
variable {P : Cec Usi → Prop}

/-- A poll before it writes to the registers: what the receive side can do to them. -/
theorem keptTx_heard (hP : KeptTx output P) {s : Cec Usi} (hs : P s) (others : Bool) :
    P (checkFloat s others) ∧ P (decoded (checkFloat s others)) := by
  have hload : P { s with hw := loadFloatMax s.hw } := hP.quiet hs rfl rfl rfl rfl
  have hfloat : P (checkFloat s others) := by
    rw [checkFloat]
    dsimp only
    split
    · exact hP.error hload .arbLost
    · exact hload
  have hcount : ∀ t : Cec Usi, P t → P { t with hw := countIdle (floatNack t.hw) t.hw.usibr } :=
    fun _ ht => hP.quiet ht rfl rfl rfl rfl
  exact ⟨hfloat, keptTx_ticks_of hP (fun _ _ => rfl) (hcount _ hfloat) _⟩

end

/-- With the driver idle, the next byte is silent unless an attempt begins with it. -/
theorem next_idle {v : Cec Usi} (h : v.hw.xmitState = .idle) :
    cecUsiNextBit v = (v, cecPatIdle) ∨ (cecUsiNextBit v).1.told = .begin :: v.told := by
  rw [cecUsiNextBit, h]
  dsimp only
  split
  · exact .inr rfl
  · exact .inl rfl

theorem nextBit_usidr (v : Cec Usi) : (cecUsiNextBit v).1.hw.usidr = v.hw.usidr := by
  rw [cecUsiNextBit]
  split
  · split <;> rfl
  · rfl
  · rfl

theorem keptTx_attempts (n : Nat) : KeptTx Usi.xmitState fun s : Cec Usi => attempts s.told = n where
  same h _ _ _ hl := by rw [hl]; exact h
  nack _ _ := rfl
  needed _ _ h := h
  onError {s} err h hb := by rw [(onError_busy hb err).2.2.2]; exact h
  acked {s} h hw := by
    rw [cecTransmitReceiveAck, if_pos rfl, if_pos hw]
    exact h

theorem next_attempts (v : Cec Usi) : attempts v.told ≤ attempts (cecUsiNextBit v).1.told ∧
    failures (cecUsiNextBit v).1.told = failures v.told := by
  rcases next_told v with h | h | ⟨b, r, h⟩
  · rw [h]; exact ⟨Nat.le_refl _, rfl⟩
  · rw [h]; simp [attempts, failures]
  · rw [h]; simp [attempts, failures]

/-- An attempt that has begun since is no longer the one of which there were `n`; before that, the
    driver is drained and, between overflows, nothing is queued. -/
structure Muted (n : Nat) (t : Cec Usi) : Prop where
  clocked : Clocked t.hw
  le : n ≤ attempts t.told
  drained : attempts t.told = n → Drained t.hw ∧ (t.hw.usioif = false → t.hw.usibr = 0)

/-- The samples move up with the output bits. -/
theorem Drained.clock {u : Usi} (h : Drained u) (hc : Clocked u) (hbr : u.usioif = false → u.usibr = 0)
    {others : Bool} (ht : u.usioif = true → u.tick ≠ 7) :
    Drained (u.clock others) ∧ ((u.clock others).usioif = false → (u.clock others).usibr = 0) := by
  obtain ⟨hx, hdr⟩ := h
  have hlt := hc.lt
  rw [Usi.clock]
  split
  · next h15 =>
    -- an overflow: the buffer register, empty by now, is shifted out next
    have hoif : u.usioif = false := by
      rw [Bool.eq_false_iff]
      exact fun ho => ht ho (by rw [tick, h15])
    refine ⟨⟨hx, ?_⟩, fun hf => Bool.noConfusion hf⟩
    change u.usibr.toNat < 1
    rw [hbr hoif]
    decide
  · next h15 =>
    have h7 : u.usicnt ≠ 7 := by
      intro h7
      rcases Bool.eq_false_or_eq_true u.usioif with ho | ho
      · exact ht ho (by rw [tick, h7])
      · have := hc.handled ho
        omega
    have htick : (u.usicnt + 1) % 8 = u.usicnt % 8 + 1 := by omega
    refine ⟨⟨hx, ?_⟩, hbr⟩
    change (u.usidr <<< 1 ||| (BitVec.ofBool (u.low || others)).setWidth 8).toNat < 2 ^ ((u.usicnt + 1) % 8)
    rw [htick, BitVec.toNat_or]
    refine Nat.or_lt_two_pow ?_ ?_
    · rw [BitVec.toNat_shiftLeft, Nat.shiftLeft_eq, Nat.pow_succ]
      exact Nat.lt_of_le_of_lt (Nat.mod_le _ _) (by rw [tick] at hdr; omega)
    · have hone : ((BitVec.ofBool (u.low || others)).setWidth 8).toNat ≤ 1 := by
        cases u.low || others <;> decide
      have hpow := Nat.two_pow_pos (u.usicnt % 8)
      rw [Nat.pow_succ]
      omega

theorem decoded_usicnt (s : Cec Usi) : (decoded s).hw.usicnt = s.hw.usicnt := undecoded_usicnt.ticks _ _

/-- Writing out the next byte. -/
theorem Muted.writeOut {n : Nat} {v : Cec Usi} (hlt : v.hw.usicnt < 16) (hle : n ≤ attempts v.told)
    (hv : attempts v.told = n → Drained v.hw) : Muted n (writeOut v) := by
  obtain ⟨hatt, -⟩ := next_attempts v
  obtain ⟨hmod, hor, h8⟩ := or_eight hlt
  have hcnt : (AvrCec.writeOut v).hw.usicnt = v.hw.usicnt ||| 8 := by
    change (cecUsiNextBit v).1.hw.usicnt ||| 8 = _
    rw [nextBit_usicnt]
  refine ⟨⟨hcnt ▸ hor, fun _ => hcnt ▸ h8⟩, hle.trans hatt, fun hn => ?_⟩
  have hnv : attempts v.told = n := Nat.le_antisymm (hatt.trans (Nat.le_of_eq hn)) hle
  obtain ⟨hx, hdr⟩ := hv hnv
  rcases next_idle hx with heq | hbegin
  · rw [AvrCec.writeOut, heq]
    refine ⟨⟨hx, ?_⟩, fun _ => rfl⟩
    change v.hw.usidr.toNat < 2 ^ ((v.hw.usicnt ||| 8) % 8)
    rw [hmod]
    exact hdr
  · change attempts (cecUsiNextBit v).1.told = n at hn
    rw [hbegin] at hn
    have hone : attempts (.begin :: v.told) = attempts v.told + 1 := by simp [attempts]
    omega

theorem Muted.beforeAck {n : Nat} {s : Cec Usi} (h : Muted n s) (others : Bool) :
    Muted n (beforeAck s others) := by
  have hfloat : attempts (checkFloat s others).told = attempts s.told :=
    keptTx_checkFloat (keptTx_attempts _) rfl others
  have hdec : attempts (decoded (checkFloat s others)).told = attempts s.told :=
    keptTx_decoded (keptTx_attempts _) hfloat
  have hcnt := checkFloat_usicnt s others
  rw [Usi.beforeAck]
  split
  · rw [handleOverflow_eq]
    refine .writeOut ?_ (hdec ▸ h.le) fun hn => ?_
    · rw [decoded_usicnt, hcnt]
      exact h.clocked.lt
    · exact (keptTx_heard keptTx_drained (h.drained (hdec ▸ hn)).1 others).2
  · have hoif := checkFloat_usioif s others
    refine ⟨⟨hcnt ▸ h.clocked.lt, fun hf => hcnt ▸ h.clocked.handled (hoif ▸ hf)⟩, hfloat ▸ h.le, fun hn => ?_⟩
    obtain ⟨hdrained, hbr⟩ := h.drained (hfloat ▸ hn)
    refine ⟨(keptTx_heard keptTx_drained hdrained others).1, fun hf => ?_⟩
    rw [checkFloat_usibr]
    exact hbr (hoif ▸ hf)

/-- What the ack part of a poll and the rest of it leave alone when they inject no ack. -/
structure Unacked (b t : Cec Usi) : Prop where
  told : t.told = b.told
  xmitState : t.hw.xmitState = b.hw.xmitState
  usidr : t.hw.usidr = b.hw.usidr
  usibr : t.hw.usibr = b.hw.usibr
  usicnt : t.hw.usicnt = b.hw.usicnt
  usioif : t.hw.usioif = b.hw.usioif

theorem unacked {s : Cec Usi} {others₁ others₂ : Bool} (h : Passive s (.poll others₁ others₂)) :
    Unacked (beforeAck s others₁) (step (.poll others₁ others₂) s) := by
  obtain ⟨hdr, hbr⟩ := h
  have hhw : (step (.poll others₁ others₂) s).hw = (cecReceivePeriodic s others₁ others₂).hw := by
    rw [step, cecPeriodic, addrPeriodic_hw]
  have hx : (handleAck (Usi.beforeAck s others₁) others₂).hw.xmitState = (beforeAck s others₁).hw.xmitState := by
    rw [handleAck]
    dsimp only
    repeat' split
    · exact doAck_xmitState ..
    · exact doAck_xmitState ..
    · rfl
    · rfl
  refine ⟨?_, ?_, ?_, ?_, ?_, ?_⟩
  · rw [step, cecPeriodic, addrPeriodic_told, poll_eq, handleAck_told]
  · rw [hhw, poll_eq]; exact hx
  · rw [hhw]; exact hdr
  · rw [hhw]; exact hbr
  · rw [hhw, poll_eq, handleAck_usicnt]
  · rw [hhw, poll_eq, handleAck_usioif]

theorem Muted.congr {n : Nat} {b t : Cec Usi} (h : Muted n b) (ht : Unacked b t) : Muted n t := by
  have hle := h.le
  obtain ⟨hlt, h8⟩ := h.clocked
  have hdrained := h.drained
  rw [Drained, tick] at hdrained
  refine ⟨⟨ht.usicnt ▸ hlt, ?_⟩, ht.told ▸ hle, ?_⟩
  · rw [ht.usioif, ht.usicnt]; exact h8
  · rw [Drained, tick, ht.told, ht.xmitState, ht.usidr, ht.usicnt, ht.usioif, ht.usibr]
    exact hdrained

theorem muted_step {n : Nat} {s : Cec Usi} (h : Muted n s) {i : Step} (hi : Passive s i) :
    Muted n (step i s) := by
  cases i with
  | tick others =>
    refine ⟨h.clocked.clock others, h.le, fun hn => ?_⟩
    obtain ⟨hdrained, hbr⟩ := h.drained hn
    exact hdrained.clock h.clocked hbr hi
  | poll others₁ others₂ => exact (h.beforeAck others₁).congr (unacked hi)
  | app a =>
    have hhw : (step (.app a) s).hw = s.hw := app_hw s a
    have htold : (step (.app a) s).told = s.told := app_told s a
    exact ⟨hhw ▸ h.clocked, htold ▸ h.le, by rw [hhw, htold]; exact h.drained⟩

/-- What is drained stays silent up to the next attempt. -/
theorem Muted.silent {n : Nat} {t : Cec Usi} (h : Muted n t) : SilentFrom n t := by
  intro js hjs hn
  have hstep : ∀ s i, Muted n s → Passive s i → Muted n (step i s) := fun _ _ hs hi => muted_step hs hi
  have hend := invariant_run hstep h hjs
  obtain ⟨⟨-, hdr⟩, -⟩ := hend.drained hn
  have htick : (run step t js).hw.tick ≤ 7 := Nat.le_of_lt_succ (Nat.mod_lt _ (by decide))
  have hpow : 2 ^ (run step t js).hw.tick ≤ 2 ^ 7 := Nat.pow_le_pow_right (by decide) htick
  exact BitVec.msb_eq_false_iff_two_mul_lt.mpr (by omega)

/-! ### A byte left in the buffer register is sent -/

/-- `n` ticks in which no one else drives the line. -/
def ticks (n : Nat) : List Step := List.replicate n (.tick false)

theorem ticks_told (t : Cec Usi) (n : Nat) : (run step t (ticks n)).told = t.told := by
  induction n generalizing t with
  | zero => rfl
  | succ n ih => exact ih (step (.tick false) t)

/-- The output bits move up, one a tick. -/
theorem getMsbD_clock {u : Usi} (h : u.usicnt ≠ 15) (others : Bool) {k : Nat} (hk : k < 7) :
    (u.clock others).usidr.getMsbD k = u.usidr.getMsbD (k + 1) := by
  rw [Usi.clock, if_neg h]
  have hsample : ∀ b : Bool, ∀ k < 7, ((BitVec.ofBool b).setWidth 8).getMsbD k = false := by decide
  change (u.usidr <<< 1 ||| (BitVec.ofBool (u.low || others)).setWidth 8).getMsbD k = _
  rw [BitVec.getMsbD_or, BitVec.getMsbD_shiftLeft, hsample _ k hk, Bool.or_false]

/-- A bit of the data register is driven `k` ticks later. -/
theorem shifted_out {t : Cec Usi} (k : Nat) (hcnt : t.hw.usicnt + k ≤ 7) (hbit : t.hw.usidr.getMsbD k = true) :
    Along Passive step t (ticks k) ∧ (run step t (ticks k)).hw.usidr.msb = true := by
  induction k generalizing t with
  | zero => exact ⟨trivial, hbit⟩
  | succ k ih =>
    have h15 : t.hw.usicnt ≠ 15 := by omega
    have hnext : (t.hw.clock false).usicnt = t.hw.usicnt + 1 := by rw [Usi.clock, if_neg h15]
    obtain ⟨halong, hmsb⟩ := ih (t := step (.tick false) t)
      (by change (t.hw.clock false).usicnt + k ≤ 7; omega)
      ((getMsbD_clock h15 false (by omega)).trans hbit)
    have htick : t.hw.tick ≠ 7 := by rw [tick]; omega
    exact ⟨⟨fun _ => htick, halong⟩, hmsb⟩

/-- The next overflow loads the buffer register. -/
theorem loaded {t : Cec Usi} (m : Nat) (hcnt : t.hw.usicnt + m = 15) (hoif : t.hw.usioif = false) :
    Along Passive step t (ticks (m + 1)) ∧ (run step t (ticks (m + 1))).hw.usidr = t.hw.usibr ∧
      (run step t (ticks (m + 1))).hw.usicnt = 0 := by
  induction m generalizing t with
  | zero =>
    have hnot : ¬ t.hw.usioif = true := by rw [hoif]; decide
    refine ⟨⟨fun ho => absurd ho hnot, trivial⟩, ?_⟩
    change (t.hw.clock false).usidr = t.hw.usibr ∧ (t.hw.clock false).usicnt = 0
    rw [Usi.clock, if_pos (show t.hw.usicnt = 15 from hcnt)]
    exact ⟨rfl, rfl⟩
  | succ m ih =>
    have h15 : t.hw.usicnt ≠ 15 := by omega
    have hnot : ¬ t.hw.usioif = true := by rw [hoif]; decide
    have hnext : (t.hw.clock false).usicnt = t.hw.usicnt + 1 ∧ (t.hw.clock false).usioif = t.hw.usioif ∧
        (t.hw.clock false).usibr = t.hw.usibr := by
      rw [Usi.clock, if_neg h15]
      exact ⟨rfl, rfl, rfl⟩
    obtain ⟨halong, hdr, hzero⟩ := ih (t := step (.tick false) t)
      (by change (t.hw.clock false).usicnt + m = 15; omega) (hnext.2.1.trans hoif)
    exact ⟨⟨fun ho => absurd ho hnot, halong⟩, hdr.trans hnext.2.2, hzero⟩

theorem loud_of_queued {t : Cec Usi} (hc : Clocked t.hw) (hoif : t.hw.usioif = false) (hbr : t.hw.usibr ≠ 0) :
    ¬ SilentFrom (attempts t.told) t := by
  intro hsilent
  obtain ⟨k, hk, hbit⟩ : ∃ k < 8, t.hw.usibr.getMsbD k = true := by
    by_contra hnone
    refine hbr (BitVec.eq_of_getMsbD_eq fun k hk => ?_)
    rw [show (0 : BitVec 8).getMsbD k = false from BitVec.getMsbD_zero, Bool.eq_false_iff]
    exact fun hb => hnone ⟨k, hk, hb⟩
  obtain ⟨m, hm⟩ := Nat.exists_eq_add_of_le (Nat.le_of_lt_succ hc.lt)
  obtain ⟨hload, hdr, hzero⟩ := loaded m hm.symm hoif
  obtain ⟨hshift, hmsb⟩ := shifted_out (t := run step t (ticks (m + 1))) k (by omega) (by rw [hdr]; exact hbit)
  have hend := hsilent (ticks (m + 1) ++ ticks k) ((along_append _ _ _ _).mpr ⟨hload, hshift⟩)
    (by rw [run_append, ticks_told, ticks_told])
  rw [run_append, hmsb] at hend
  exact Bool.noConfusion hend

/-! ### An abort -/

/-- What an abort leaves of the driver, up to the ack part of its poll. -/
theorem aborted {s : Cec Usi} (hc : Clocked s.hw) {others : Bool} (ha : Aborts s others) :
    (beforeAck s others).hw.samples = s.hw.samples ∧
      (s.hw.usioif = true → Muted (attempts s.told) (beforeAck s others)) ∧
      (s.hw.usioif = false → Drained (beforeAck s others).hw ∧
        (beforeAck s others).hw.usibr = s.hw.usibr ∧ attempts (beforeAck s others).told = attempts s.told) := by
  obtain ⟨hfloat, hdec⟩ := keptTx_heard (keptTx_halfway s.hw (failures s.told)) ⟨rfl, .inl ⟨rfl, rfl⟩⟩ others
  have hatt : attempts (checkFloat s others).told = attempts s.told :=
    keptTx_checkFloat (keptTx_attempts _) rfl others
  have hsample : ∀ u : Usi, u.usicnt % 8 = s.hw.tick → u.usidr.toNat = s.hw.samples → u.samples = s.hw.samples := by
    intro u hcnt hdr
    rw [samples, hdr, tick, hcnt]
    exact Nat.mod_eq_of_lt (samples_lt s.hw)
  rw [Aborts] at ha
  by_cases ho : s.hw.usioif = true
  · have heq : beforeAck s others = writeOut (decoded (checkFloat s others)) := by
      rw [beforeAck, if_pos ho, handleOverflow_eq]
    rw [heq] at ha ⊢
    generalize hv : decoded (checkFloat s others) = v at ha hdec
    change failures s.told < failures (cecUsiNextBit v).1.told at ha
    rw [(next_attempts v).2] at ha
    obtain ⟨hcnt, ⟨hn, -⟩ | ⟨-, hx, hdr⟩⟩ := hdec
    · omega
    · have htick : v.hw.tick = s.hw.tick := congrArg (· % 8) hcnt
      have hdrained : Drained v.hw := ⟨hx, by rw [hdr, htick]; exact samples_lt s.hw⟩
      have hlt : v.hw.usicnt < 16 := hcnt ▸ hc.lt
      have hv_att : attempts v.told = attempts s.told := hv ▸ keptTx_decoded (keptTx_attempts _) hatt
      refine ⟨hsample _ ?_ ?_, fun _ => .writeOut hlt (Nat.le_of_eq hv_att.symm) fun _ => hdrained,
        fun hf => absurd ho (by rw [hf]; decide)⟩
      · change ((cecUsiNextBit v).1.hw.usicnt ||| 8) % 8 = _
        rw [nextBit_usicnt, (or_eight hlt).1]
        exact htick
      · exact (congrArg BitVec.toNat (nextBit_usidr v)).trans hdr
  · have heq : beforeAck s others = checkFloat s others := by rw [beforeAck, if_neg ho]
    rw [heq] at ha ⊢
    obtain ⟨hcnt, ⟨hn, -⟩ | ⟨-, hx, hdr⟩⟩ := hfloat
    · omega
    · have htick : (checkFloat s others).hw.tick = s.hw.tick := congrArg (· % 8) hcnt
      refine ⟨hsample _ htick hdr, fun h => absurd h ho, fun _ => ⟨⟨hx, ?_⟩, checkFloat_usibr .., hatt⟩⟩
      rw [hdr, htick]
      exact samples_lt s.hw

/-- After an abort the line is silent up to the next attempt exactly when the abort came with an
    overflow, or nothing was queued. -/
theorem silent_iff {s t : Cec Usi} (hc : Clocked s.hw) {others : Bool} (ha : Aborts s others)
    (ht : Unacked (beforeAck s others) t) :
    SilentFrom (attempts s.told) t ↔ s.hw.usioif = true ∨ s.hw.usibr = 0 := by
  obtain ⟨-, hmuted, hmid⟩ := aborted hc ha
  by_cases ho : s.hw.usioif = true
  · exact ⟨fun _ => .inl ho, fun _ => ((hmuted ho).congr ht).silent⟩
  · have hf : s.hw.usioif = false := Bool.eq_false_iff.mpr ho
    obtain ⟨hdrained, hbr, hatt⟩ := hmid hf
    have hoif : (beforeAck s others).hw.usioif = false := by
      rw [beforeAck, if_neg ho, checkFloat_usioif, hf]
    have hbc := (beforeAck_clocked hc others).1
    have htatt : attempts t.told = attempts s.told := by rw [ht.told, hatt]
    constructor
    · intro hsilent
      by_contra hnot
      obtain ⟨hlt, h8⟩ := hbc
      refine loud_of_queued (t := t) ⟨ht.usicnt ▸ hlt, ?_⟩ (ht.usioif.trans hoif) ?_ (by rw [htatt]; exact hsilent)
      · rw [ht.usioif, ht.usicnt]; exact h8
      · rw [ht.usibr, hbr]
        exact fun h0 => hnot (.inr h0)
    · intro hcond
      have hzero := hcond.resolve_left ho
      have hmuted : Muted (attempts s.told) (beforeAck s others) :=
        ⟨hbc, Nat.le_of_eq hatt.symm, fun _ => ⟨hdrained, fun _ => hbr.trans hzero⟩⟩
      exact (hmuted.congr ht).silent

end Usi

/-- Wherever an attempt is aborted, the samples stay; the output is silent from there to the next
    attempt, acks apart, exactly when the abort comes with an overflow to handle or nothing is queued
    in the buffer register. -/
theorem abort_silent_iff (build : Build) (addr : Addr) (os : List (Op Usi.Step)) (others : Bool)
    (ha : Usi.Aborts (run Usi.op (Usi.initial build addr) os) others) :
    let s := run Usi.op (Usi.initial build addr) os
    (Usi.beforeAck s others).hw.samples = s.hw.samples ∧
      (Usi.SilentFrom (attempts s.told) (Usi.beforeAck s others) ↔ s.hw.usioif = true ∨ s.hw.usibr = 0) ∧
      ∀ others₂, Usi.Passive s (.poll others others₂) →
        (Usi.SilentFrom (attempts s.told) (Usi.step (.poll others others₂) s) ↔
          s.hw.usioif = true ∨ s.hw.usibr = 0) := by
  intro s
  have hc := Usi.clocked_run build addr os
  exact ⟨(Usi.aborted hc ha).1, Usi.silent_iff hc ha ⟨rfl, rfl, rfl, rfl, rfl, rfl⟩,
    fun others₂ hp => Usi.silent_iff hc ha (Usi.unacked hp)⟩

/-- A ping of a device that is not there, up to the overflow of its ack slot. -/
def unackedPing : List (Op Usi.Step) :=
  (Usi.Step.app (.send [0x45]) :: Usi.byteTimes 17 ++ Usi.ticks 8).map .step

/-- The negative ack aborts it while an overflow is handled. -/
theorem abort_silent_nack :
    Usi.SilentFrom 1 (Usi.beforeAck (run Usi.op (Usi.initial {} (.fixed 4)) unackedPing) false) := by
  have ha : Usi.Aborts (run Usi.op (Usi.initial {} (.fixed 4)) unackedPing) false := by
    unfold Usi.Aborts
    decide +kernel
  have hoif : (run Usi.op (Usi.initial {} (.fixed 4)) unackedPing).hw.usioif = true := by decide +kernel
  have hone : attempts (run Usi.op (Usi.initial {} (.fixed 4)) unackedPing).told = 1 := by decide +kernel
  have h := (abort_silent_iff {} (.fixed 4) _ false ha).2.1.mpr (.inl hoif)
  rwa [hone] at h

/-- A message whose first data bit another device pulls low from its third tick on. -/
def drivenLow : List (Op Usi.Step) :=
  (Usi.Step.app (.send [0x45, 0x36]) :: Usi.byteTimes 9 ++ Usi.ticks 2 ++ [Usi.Step.tick true]).map .step

/-- The check in the middle of the byte aborts it, and the next bit is sent all the same. -/
theorem abort_leaves_queued :
    let s := run Usi.op (Usi.initial {} (.fixed 4)) drivenLow
    Usi.Aborts s true ∧ Usi.Passive s (.poll true true) ∧
      ¬ Usi.SilentFrom (attempts s.told) (Usi.step (.poll true true) s) := by
  intro s
  refine ⟨by unfold Usi.Aborts; decide +kernel, by decide +kernel, fun h => ?_⟩
  have hlow : (run Usi.step (Usi.step (.poll true true) s) (Usi.ticks 5)).hw.usidr.msb = true := by decide +kernel
  have hend := h (Usi.ticks 5) (by decide +kernel) (by rw [Usi.ticks_told]; decide +kernel)
  rw [hlow] at hend
  exact Bool.noConfusion hend

end AvrCec
