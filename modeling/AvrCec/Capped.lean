import AvrCec.Agreement
import AvrCec.Lib.Avr
import AvrCec.Sending

/-! The capped 16-bit timers of the soft receive driver and of the PWM driver.

    Both timers add the time since the last poll by the same four instructions: on a carry only the
    high byte is forced to `0xff`, so a capped timer moves about within its last 256 values and may
    be pushed over again. `capped_timers` shows that no comparison with a threshold below `0xff00`
    can tell the timer from the exact sum. -/

namespace AvrCec
open Lib Lib.Avr

/-! ### The inline assembly -/

/-- The inline assembly, with the timer in registers `t` and `t + 1` and the delta in `d` and
    `d + 1`. -/
def cappedAsm (t d : Nat) : List (Instr Empty Empty) :=
  [.add t d, .adc (t + 1) (d + 1), .brcc 4, .ldi (t + 1) 0xff]

instance : Ports Empty Unit := ⟨fun _ _ => 0, fun u _ _ => u⟩

/-- A machine about to run the assembly, the timer in `r18` and `r19`, the delta in `r24` and `r25`. -/
def timerMachine (timer delta : Nat) : Machine Unit Empty where
  regs r := if r = 18 then BitVec.ofNat 8 timer
    else if r = 19 then BitVec.ofNat 8 (timer / 256)
    else if r = 24 then BitVec.ofNat 8 delta
    else if r = 25 then BitVec.ofNat 8 (delta / 256)
    else 0
  mem _ := 0
  io := ()
  carry := false
  zero := false
  irq := true
  pc := 0

/-- The timer after the inline assembly. -/
def asmAdd (timer delta : Nat) : Nat :=
  ((Avr.run (cappedAsm 18 24) 5 (timerMachine timer delta)).map (·.pair 18)).getD 0

/-- The bytes of a 16-bit sum, capped. -/
theorem cappedAdd_bytes (a b c d : Nat) (ha : a < 256) (hb : b < 256) (hc : c < 256) (hd : d < 256) :
    let low := a + c
    let high := b + d + (if 256 ≤ low then 1 else 0)
    (if 256 ≤ high then 0xff else high % 256) * 256 + low % 256 = cappedAdd (b * 256 + a) (d * 256 + c) := by
  rw [cappedAdd]
  dsimp only
  split <;> split <;> split <;> omega

/-- The bytes and the carry the two additions leave. -/
theorem sum_bytes (m : Machine Unit Empty) {t d : Nat} (h : d + 1 ≠ t) :
    let m' := exec (exec m (Instr.add (P := Empty) t d)) (Instr.adc (P := Empty) (t + 1) (d + 1))
    let low := (m.regs t).toNat + (m.regs d).toNat
    let high := (m.regs (t + 1)).toNat + (m.regs (d + 1)).toNat + (if 256 ≤ low then 1 else 0)
    (m'.regs t).toNat = low % 256 ∧ (m'.regs (t + 1)).toNat = high % 256 ∧
      m'.carry = decide (256 ≤ high) := by
  intro m' low high
  have hc : (decide (256 ≤ low)).toNat = if 256 ≤ low then 1 else 0 := by split <;> simp_all
  refine ⟨?_, ?_, ?_⟩
  · simp [m', low, exec, Machine.sum, Machine.load, Function.update_apply]
  · simp [m', high, exec, Machine.sum, Machine.load, h, ← hc, low]
  · simp [m', high, exec, Machine.sum, Machine.load, h, ← hc, low]

/-- The assembly ends, and leaves the capped sum. -/
theorem run_cappedAsm (m : Machine Unit Empty) {t d : Nat} (hpc : m.pc = 0) (h : d + 1 ≠ t) :
    ∃ m', Avr.run (cappedAsm t d) 5 m = some m' ∧ m'.pair t = cappedAdd (m.pair t) (m.pair d) := by
  obtain ⟨hlow, hhigh, hcarry⟩ := sum_bytes m h
  have hbytes := cappedAdd_bytes (m.regs t).toNat (m.regs (t + 1)).toNat (m.regs d).toNat
    (m.regs (d + 1)).toNat (m.regs t).isLt (m.regs (t + 1)).isLt (m.regs d).isLt (m.regs (d + 1)).isLt
  have h₁ : (exec m (Instr.add (P := Empty) t d)).pc = 1 := congrArg (· + 1) hpc
  have h₂ : (exec (exec m (Instr.add (P := Empty) t d)) (Instr.adc (P := Empty) (t + 1) (d + 1))).pc = 2 :=
    congrArg (· + 1) h₁
  rw [run_next 4 (i := .add t d) (by rw [hpc]; rfl) nofun,
    run_next 3 (i := .adc (t + 1) (d + 1)) (by rw [h₁]; rfl) nofun]
  generalize exec (exec m (Instr.add (P := Empty) t d)) (Instr.adc (P := Empty) (t + 1) (d + 1)) = n at *
  rw [run_next 2 (i := .brcc 4) (by rw [h₂]; rfl) nofun]
  cases hcar : n.carry with
  | true =>
    -- on a carry the branch falls through to the `ldi`
    have h₃ : (exec n (Instr.brcc (P := Empty) 4)).pc = 3 := by simp [exec, Machine.branch, hcar, h₂]
    rw [run_next 1 (i := .ldi (t + 1) 0xff) (by rw [h₃]; rfl) nofun]
    refine ⟨_, run_off 0 ?_, ?_⟩
    · change (cappedAsm t d)[(exec n (Instr.brcc (P := Empty) 4)).pc + 1]? = none
      rw [h₃]
      rfl
    · have hle : 256 ≤ (m.regs (t + 1)).toNat + (m.regs (d + 1)).toNat +
          (if 256 ≤ (m.regs t).toNat + (m.regs d).toNat then 1 else 0) := by
        simpa [hcar] using hcarry.symm
      rw [Machine.pair, Machine.pair, Machine.pair, ← hbytes, if_pos hle, ← hlow]
      simp [exec, Machine.branch, Machine.load]
  | false =>
    have h₃ : (exec n (Instr.brcc (P := Empty) 4)).pc = 4 := by simp [exec, Machine.branch, hcar]
    refine ⟨_, run_off 1 (by rw [h₃]; rfl), ?_⟩
    have hlt : ¬ 256 ≤ (m.regs (t + 1)).toNat + (m.regs (d + 1)).toNat +
        (if 256 ≤ (m.regs t).toNat + (m.regs d).toNat then 1 else 0) := by
      simpa [hcar] using hcarry.symm
    rw [Machine.pair, Machine.pair, Machine.pair, ← hbytes, if_neg hlt, ← hlow, ← hhigh]
    rfl

theorem asmAdd_eq {timer delta : Nat} (ht : timer < 65536) (hd : delta < 65536) :
    asmAdd timer delta = cappedAdd timer delta := by
  obtain ⟨m', hrun, hpair⟩ :=
    run_cappedAsm (t := 18) (d := 24) (timerMachine timer delta) rfl (by decide)
  have htimer : (timerMachine timer delta).pair 18 = timer := by
    simp [Machine.pair, timerMachine]
    omega
  have hdelta : (timerMachine timer delta).pair 24 = delta := by
    simp [Machine.pair, timerMachine]
    omega
  rw [asmAdd, hrun, ← htimer, ← hdelta]
  exact hpair

/-! ### The timer and the exact sum -/

/-- The timer decides as the exact sum `S` would: it is the sum until the first overflow, and sits
    in its last 256 values from then on. -/
structure Decides (timer S : Nat) : Prop where
  exact : S < 65536 → timer = S
  capped : 65536 ≤ S → 0xff00 ≤ timer ∧ timer ≤ 0xffff
  below : ∀ threshold < 0xff00, timer < threshold ↔ S < threshold
  above : ∀ threshold < 0xff00, threshold < timer ↔ threshold < S

theorem Decides.of_capped {timer S : Nat} (hexact : S < 65536 → timer = S)
    (hcapped : 65536 ≤ S → 0xff00 ≤ timer ∧ timer ≤ 0xffff) : Decides timer S := by
  refine ⟨hexact, hcapped, fun threshold hth => ?_, fun threshold hth => ?_⟩
  all_goals
    rcases Nat.lt_or_ge S 65536 with hS | hS
    · rw [hexact hS]
    · have := hcapped hS
      omega

theorem decides_zero : Decides 0 0 := .of_capped (fun _ => rfl) nofun

theorem Decides.lt {timer S : Nat} (h : Decides timer S) : timer < 65536 := by
  rcases Nat.lt_or_ge S 65536 with hS | hS
  · rw [h.exact hS]; exact hS
  · have := h.capped hS
    omega

/-- One more delta. Past the cap the low byte is whatever the additions left, but a sum that
    overflows again is capped again. -/
theorem Decides.add {timer S delta : Nat} (h : Decides timer S) (hd : delta < 65536) :
    Decides (cappedAdd timer delta) (S + delta) := by
  refine .of_capped (fun hS => ?_) (fun hS => ?_)
  · have := h.exact (by omega)
    rw [cappedAdd, if_pos (by omega), this]
  · rw [cappedAdd]
    split
    · next hlt =>
      rcases Nat.lt_or_ge S 65536 with hlow | hhigh
      · -- the exact sum has no room left
        have := h.exact hlow
        omega
      · have := h.capped hhigh
        omega
    · omega

/-- The assembly over a whole list of deltas. -/
theorem Decides.asm_fold {timer S : Nat} (h : Decides timer S) {ds : List Nat}
    (hds : ∀ d ∈ ds, d < 65536) : Decides (ds.foldl asmAdd timer) (S + ds.sum) := by
  induction ds generalizing timer S with
  | nil => exact h
  | cons d ds ih =>
    have hd : d < 65536 := hds d (List.mem_cons_self ..)
    have hstep : Decides (asmAdd timer d) (S + d) := by
      rw [asmAdd_eq h.lt hd]
      exact h.add hd
    rw [List.foldl_cons, List.sum_cons, ← Nat.add_assoc]
    exact ih hstep fun e he => hds e (List.mem_cons_of_mem d he)

/-! ### The two timers over a run -/

namespace Soft

/-- The time a step says has passed for the receive driver, and for the transmit driver. -/
def Step.recvDelta : Step → Nat
  | .recv delta _ => delta
  | _ => 0

def Step.xmitDelta : Step → Nat
  | .xmit delta _ => delta
  | _ => 0

def receiveTimer (s : Cec Soft) : Nat := s.hw.receiveFrameTimer
def highTimer (s : Cec Soft) : Nat := s.hw.pwm.transmitHighTimer

/-- The exact sum of the deltas since the timer was last reset, `S` of it before the run from `s`. -/
def sinceReset (timer : Cec Soft → Nat) (delta : Step → Nat) : Cec Soft → Nat → List Step → Nat
  | _, S, [] => S
  | s, S, i :: is =>
    sinceReset timer delta (step i s) (if timer (step i s) = 0 then 0 else S + delta i) is

/-- A step resets the timer, adds its delta to it, or leaves it alone. -/
def Counts (timer : Cec Soft → Nat) (delta : Step → Nat) : Prop :=
  ∀ i s, timer (step i s) = 0 ∨ timer (step i s) = cappedAdd (timer s) (delta i) ∨
    (timer (step i s) = timer s ∧ delta i = 0)

/-- A timer that counts decides as the exact sum over a whole run. -/
theorem Counts.decides {timer : Cec Soft → Nat} {delta : Step → Nat} (ht : Counts timer delta)
    {s : Cec Soft} {S : Nat} (h : Decides (timer s) S) {steps : List Step}
    (hsteps : ∀ i ∈ steps, delta i < 65536) :
    Decides (timer (Lib.run step s steps)) (sinceReset timer delta s S steps) := by
  induction steps generalizing s S with
  | nil => exact h
  | cons i is ih =>
    refine ih ?_ fun j hj => hsteps j (List.mem_cons_of_mem i hj)
    rcases ht i s with h0 | hadd | ⟨hsame, hdelta⟩
    · rw [h0, if_pos rfl]
      exact decides_zero
    · split
      · next h0 => rw [h0]; exact decides_zero
      · rw [hadd]
        exact h.add (hsteps i (List.mem_cons_self ..))
    · split
      · next h0 => rw [h0]; exact decides_zero
      · rw [hsame, hdelta]
        exact h

/-- An engine call resets the receive timer or leaves it alone. -/
theorem timer_receiveError (s : Cec Soft) (err : Err) :
    receiveTimer (cecReceiveError s err) = 0 ∨ receiveTimer (cecReceiveError s err) = receiveTimer s := by
  by_cases h0 : s.rx.flags = 0
  · rw [receiveError_zero h0]
    exact .inr rfl
  · rw [receiveTimer, receiveError_hw s err h0]
    dsimp only
    split <;> split <;> first | exact .inl rfl | exact .inr rfl

theorem timer_onError (s : Cec Soft) (err : Err) :
    receiveTimer (cecTransmitOnError s err) = receiveTimer s := by
  rw [receiveTimer, onError_hw]
  split <;> rfl

theorem timer_receiveBit (s : Cec Soft) (bit : Bool) :
    receiveTimer (cecReceiveBit s bit) = receiveTimer s := by
  rw [receiveTimer, (sameTransmit_receiveBit s bit).hw, heardByTransmit]
  split
  · rw [cecCheckTxBit]
    split
    · exact timer_onError _ _
    · rfl
  · rw [cecTransmitReceiveAck]
    split
    · split <;> rfl
    · exact timer_onError _ _

/-- `t` has both timers of `s`. -/
def SameTimers (s t : Cec Soft) : Prop := receiveTimer t = receiveTimer s ∧ highTimer t = highTimer s

theorem SameTimers.refl (s : Cec Soft) : SameTimers s s := ⟨rfl, rfl⟩

theorem SameTimers.trans {s t u : Cec Soft} (h₁ : SameTimers s t) (h₂ : SameTimers t u) :
    SameTimers s u := ⟨h₂.1.trans h₁.1, h₂.2.trans h₁.2⟩

theorem SameTimers.setPwm {s t : Cec Soft} (h : SameTimers s t) (f : Pwm → Pwm)
    (hf : ∀ p, (f p).transmitHighTimer = p.transmitHighTimer) : SameTimers s (setPwm t f) :=
  ⟨h.1, (hf t.hw.pwm).trans h.2⟩

theorem sameTimers_onError (s : Cec Soft) (err : Err) : SameTimers s (cecTransmitOnError s err) := by
  refine ⟨timer_onError s err, ?_⟩
  rw [highTimer, onError_hw]
  split <;> rfl

theorem sameTimers_getBit (s : Cec Soft) : SameTimers s (cecTransmitGetBit s).1 := ⟨rfl, rfl⟩

theorem sameTimers_start (s : Cec Soft) : SameTimers s (cecTransmitStart s) := ⟨rfl, rfl⟩

theorem sameTimers_nextBit (s : Cec Soft) : SameTimers s (pwmNextBit s) := by
  refine SameTimers.setPwm (sameTimers_getBit s) _ ?_
  exact fun _ => rfl

/-- The PWM driver's part of a poll leaves the timers alone. -/
theorem sameTimers_pwm (s : Cec Soft) : SameTimers s (xmitPwmPeriodic s) := by
  rw [xmitPwmPeriodic]
  split
  · exact .refl s
  · have ht : SameTimers s (setPwm s fun p => { p with tov1 := false }) :=
      (SameTimers.refl s).setPwm _ fun _ => rfl
    generalize (setPwm s fun p => { p with tov1 := false }) = t at ht
    dsimp only
    split
    · split
      · exact ht.trans (sameTimers_onError t .arbLost)
      · refine SameTimers.trans (ht.setPwm _ ?_) (sameTimers_nextBit _)
        exact fun _ => rfl
    · exact ht.trans (sameTimers_nextBit t)
    · exact ht.setPwm _ fun _ => rfl
    · exact ht.setPwm _ fun _ => rfl
    all_goals exact ht

theorem sameTimers_xmitStart (s : Cec Soft) : SameTimers s (xmitStart s) := by
  refine SameTimers.setPwm (SameTimers.trans (SameTimers.setPwm (.refl s) _ ?_) (sameTimers_start _)) _ ?_
  all_goals exact fun _ => rfl

/-- A poll of the transmit driver leaves the receive timer alone, and resets the high timer or adds
    to it. -/
theorem xmit_timers (s : Cec Soft) (delta : Nat) (level : Bool) :
    receiveTimer (cecTransmitPeriodic s delta level) = receiveTimer s ∧
      highTimer (cecTransmitPeriodic s delta level) =
        if level then cappedAdd (highTimer s) delta else 0 := by
  have ht : SameTimers s (if s.hw.pwm.xmitState ≠ .idle then xmitPwmPeriodic s else s) := by
    split
    · exact sameTimers_pwm s
    · exact .refl s
  rw [cecTransmitPeriodic]
  generalize (if s.hw.pwm.xmitState ≠ .idle then xmitPwmPeriodic s else s) = t at ht
  rw [← ht.1, ← ht.2]
  cases level with
  | false => exact ⟨rfl, rfl⟩
  | true =>
    have hadd : highTimer (setPwm t fun p =>
        { p with transmitHighTimer := cappedAdd p.transmitHighTimer delta }) = cappedAdd (highTimer t) delta := rfl
    have hsame : receiveTimer (setPwm t fun p =>
        { p with transmitHighTimer := cappedAdd p.transmitHighTimer delta }) = receiveTimer t := rfl
    generalize (setPwm t fun p =>
      { p with transmitHighTimer := cappedAdd p.transmitHighTimer delta }) = u at hadd hsame
    dsimp only
    rw [if_neg (by decide), if_pos rfl, ← hadd, ← hsame]
    split
    · exact ⟨rfl, rfl⟩
    · split
      · exact sameTimers_xmitStart u
      · exact ⟨rfl, rfl⟩

/-- The timer is at `v`, or was reset since. -/
def AtOrReset (v : Nat) (s : Cec Soft) : Prop := receiveTimer s = 0 ∨ receiveTimer s = v

theorem AtOrReset.error {v : Nat} {s : Cec Soft} (h : AtOrReset v s) (err : Err) :
    AtOrReset v (cecReceiveError s err) := by
  rcases timer_receiveError s err with h0 | hsame
  · exact .inl h0
  · rw [AtOrReset, hsame]
    exact h

theorem AtOrReset.sample {v : Nat} {s : Cec Soft} (h : AtOrReset v s) (level : Bool) :
    AtOrReset v (softSample s level) := by
  have hoff : AtOrReset v { s with hw := { s.hw with sample := false } } := h
  rw [softSample]
  dsimp only
  split
  · split
    · exact hoff.error .hw
    · rw [AtOrReset, timer_receiveBit]
      exact hoff
  · exact h

theorem AtOrReset.float {v : Nat} {s : Cec Soft} (h : AtOrReset v s) : AtOrReset v (softFloat s) := by
  rw [softFloat]
  split <;> exact h

theorem AtOrReset.period {v : Nat} {s : Cec Soft} (h : AtOrReset v s) (n : Nat) :
    AtOrReset v { s with hw := { s.hw with receiveFramePeriod := n } } := h

theorem AtOrReset.start {v : Nat} {s : Cec Soft} (h : AtOrReset v s) : AtOrReset v (cecReceiveStart s) := h

theorem receiveTimer_fall (s : Cec Soft) (n : Nat) :
    receiveTimer { s with hw := { s.hw with receiveFramePeriod := n, receiveFrameTimer := 0 } } = 0 := rfl

theorem AtOrReset.edge {v : Nat} {s : Cec Soft} (h : AtOrReset v s) (level : Bool) :
    AtOrReset v (softEdge s level) := by
  rw [softEdge]
  split
  · rw [softHold]
    split
    · exact h.error .noEom
    · exact h
  · split
    · rw [softRise]
      split
      · exact (h.period _).start
      · exact h
    · rw [softFall]
      exact .inl (receiveTimer_fall _ _)

/-- Nothing the receive side does reaches the high timer. -/
theorem keptTx_high (v : Nat) : KeptTx Soft.pwm fun s => highTimer s = v where
  same h _ _ hv _ := (congrArg Pwm.transmitHighTimer hv).trans h
  nack _ _ := pwm_mk ..
  needed _ _ h := h
  onError {s} err h _ := (sameTimers_onError s err).2.trans h
  acked {s} h hw := by
    rw [cecTransmitReceiveAck, if_pos rfl, if_pos hw]
    exact h

theorem counts_receive : Counts receiveTimer Step.recvDelta := by
  intro i s
  cases i with
  | recv delta level =>
    have hcount : AtOrReset (cappedAdd (receiveTimer s) delta) (softCount s delta) := .inr rfl
    rcases ((hcount.sample level).float).edge level with h0 | hadd
    · exact .inl h0
    · exact .inr (.inl hadd)
  | xmit delta level => exact .inr (.inr ⟨(xmit_timers s delta level).1, rfl⟩)
  | addr => exact .inr (.inr ⟨congrArg Soft.receiveFrameTimer (Usi.addrPeriodic_hw s), rfl⟩)
  | overflow =>
    refine .inr (.inr ⟨?_, rfl⟩)
    rw [step, timerOverflow]
    split <;> rfl
  | app a => exact .inr (.inr ⟨congrArg Soft.receiveFrameTimer (Usi.app_hw s a), rfl⟩)

theorem counts_high : Counts highTimer Step.xmitDelta := by
  intro i s
  cases i with
  | recv delta level => exact .inr (.inr ⟨keptTx_recv (keptTx_high (highTimer s)) rfl delta level, rfl⟩)
  | xmit delta level =>
    have h := (xmit_timers s delta level).2
    cases level with
    | false => exact .inl h
    | true => exact .inr (.inl h)
  | addr => exact .inr (.inr ⟨congrArg (·.pwm.transmitHighTimer) (Usi.addrPeriodic_hw s), rfl⟩)
  | overflow =>
    refine .inr (.inr ⟨?_, rfl⟩)
    rw [step, timerOverflow]
    split <;> rfl
  | app a => exact .inr (.inr ⟨congrArg (·.pwm.transmitHighTimer) (Usi.app_hw s a), rfl⟩)

theorem initial_timers (b : Build) (addr : Addr) :
    receiveTimer (initial b addr) = 0 ∧ highTimer (initial b addr) = 0 := by
  rw [receiveTimer, highTimer, initial, cecInit, addrInit_hw, inited_hw]
  exact ⟨rfl, rfl⟩

end Soft

/-- Capped timers decide as unbounded ones would: whatever deltas the assembly adds from a reset on,
    and each of the drivers' two timers after any run. -/
theorem capped_timers (b : Build) (addr : Addr) (ds : List Nat) (steps : List Soft.Step)
    (hds : ∀ d ∈ ds, d < 65536) (hrecv : ∀ i ∈ steps, i.recvDelta < 65536)
    (hxmit : ∀ i ∈ steps, i.xmitDelta < 65536) :
    let start := Soft.initial b addr
    let s := Lib.run Soft.step start steps
    Decides (ds.foldl asmAdd 0) ds.sum ∧
    Decides s.hw.receiveFrameTimer (Soft.sinceReset Soft.receiveTimer Soft.Step.recvDelta start 0 steps) ∧
    Decides s.hw.pwm.transmitHighTimer
      (Soft.sinceReset Soft.highTimer Soft.Step.xmitDelta start 0 steps) := by
  obtain ⟨hreceive, hhigh⟩ := Soft.initial_timers b addr
  refine ⟨?_, Soft.counts_receive.decides (S := 0) ?_ hrecv, Soft.counts_high.decides (S := 0) ?_ hxmit⟩
  · simpa using decides_zero.asm_fold hds
  · rw [hreceive]
    exact decides_zero
  · rw [hhigh]
    exact decides_zero

/-- Two full-scale deltas and a third that pushes the capped timer over again; a poll of each driver
    on an idle line. -/
theorem capped_twice :
    Decides ([65535, 65535, 65535].foldl asmAdd 0) [65535, 65535, 65535].sum ∧
    Decides ((Lib.run Soft.step (Soft.initial {} .none)
      [.recv 300 true, .xmit 300 true]).hw.receiveFrameTimer) 300 ∧
    Decides ((Lib.run Soft.step (Soft.initial {} .none)
      [.recv 300 true, .xmit 300 true]).hw.pwm.transmitHighTimer) 300 :=
  capped_timers {} .none [65535, 65535, 65535] [.recv 300 true, .xmit 300 true]
    (by decide) (by decide) (by decide)

end AvrCec
