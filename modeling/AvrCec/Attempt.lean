import AvrCec.Sending

/-! Attempts to send, and what a halt does to them.

    A device is parked (`Parked`) when neither output path pulls the line low, when no poll fetches a
    bit before the application queues a message, and when every bit fetched after that belongs to an
    attempt that has begun since and reads within the message. `parked_of_step` is the rule that shows
    it: the driver is not fetching (`Silent`), and each of its steps keeps the transmit engine coherent
    with it (`Attempt`). -/

namespace AvrCec
open Lib

/-! ### A parked device -/

/-- An attempt is open in the log, newest event first: nothing has ended the last one that began. -/
def attempting : List Ev → Bool
  | [] => false
  | .begin :: _ => true
  | .abort _ :: _ => false
  | .sent _ :: _ => false
  | _ :: l => attempting l

/-- Every bit was fetched in an attempt that had begun. -/
def OwnStart (l : List Ev) : Prop := ∀ b r m, .getBit b r :: m <:+ l → attempting m = true

section
variable {D I : Type}

/-- The state with its history forgotten. -/
def Cec.forget (s : Cec D) : Cec D := { s with log := [] }

/-- The step queues a message. -/
def QueuesMessage (app : App → I) (i : I) : Prop := ∃ message, i = app (.send message)

/-- The device is parked in the state `h`: it lets the line float, and of the runs from there, the
    ones that queue no message fetch no bit and stay idle, and all of them fetch bits in attempts of
    their own only, within the message queued. -/
structure Parked (step : I → Cec D → Cec D) (app : App → I) (Floating : D → Prop) (h : Cec D) : Prop where
  floating : Floating h.hw
  silent : ∀ is : List I, (∀ i ∈ is, ¬ QueuesMessage app i) →
    (run step h.forget is).tx.state = .idle ∧ ∀ b r, .getBit b r ∉ (run step h.forget is).told
  ownStart : ∀ is : List I, OwnStart (run step h.forget is).told
  reads : ∀ (is : List I) (i : I) b k l, .getBit b (some k) :: l <:+ (run step h.forget (is ++ [i])).told →
    (run step h.forget is).told <:+ l → k ≤ (run step h.forget is).tx.bufEnd

end

/-! ### The transmit engine in an attempt

`act` says that the driver is fetching bits. -/

section
variable {D : Type} {act : D → Prop}

/-- The engine is coherent with its driver, and has been since `u`, in which `bufEnd` was the same. -/
structure Attempt (act : D → Prop) (u s : Cec D) : Prop where
  fetching : act s.hw →
    (s.tx.state = .bitEom ∨ s.tx.state = .ack) ∧ s.tx.bufPos ≤ s.tx.bufEnd ∧ attempting s.told = true
  ownStart : OwnStart s.told
  static : s.addr.Static
  bufEnd : s.tx.bufEnd = u.tx.bufEnd
  reads : ∀ b k l, .getBit b (some k) :: l <:+ s.told → u.told <:+ l → k ≤ u.tx.bufEnd

theorem not_suffix_of_suffix {e : Ev} {l m : List Ev} (h : e :: l <:+ m) : ¬ m <:+ l := by
  intro h'
  have h₁ := h.length_le
  have h₂ := h'.length_le
  rw [List.length_cons] at h₁
  omega

namespace Attempt
variable {u s t : Cec D}

theorem refl (h : Attempt act u s) : Attempt act s s :=
  ⟨h.fetching, h.ownStart, h.static, rfl, fun _ _ _ hl hl' => absurd hl' (not_suffix_of_suffix hl)⟩

/-- A change of the driver that does not make it fetch, or of nothing the engine looks at. -/
theorem mono (h : Attempt act u s) (ha : t.addr.Static) (ht : t.tx = { s.tx with needed := t.tx.needed })
    (hact : act t.hw → act s.hw) (hl : t.told = s.told) : Attempt act u t := by
  refine ⟨fun hf => ?_, by rw [hl]; exact h.ownStart, ha, by rw [ht]; exact h.bufEnd, by rw [hl]; exact h.reads⟩
  rw [hl, ht]
  exact h.fetching (hact hf)

/-- An event that fetches no bit, with the driver not fetching. -/
theorem park (h : Attempt act u s) {e : Ev} (he : ∀ b r, e ≠ .getBit b r) (hact : ¬ act t.hw)
    (ha : t.addr.Static) (hb : t.tx.bufEnd = s.tx.bufEnd) (hl : t.told = e :: s.told) :
    Attempt act u t := by
  refine ⟨fun hf => absurd hf hact, fun b r m hm => ?_, ha, hb.trans h.bufEnd, fun b k l hm => ?_⟩
  · rw [hl] at hm
    rcases List.suffix_cons_iff.mp hm with heq | hm
    · exact absurd (List.cons.inj heq).1.symm (he b r)
    · exact h.ownStart b r m hm
  · rw [hl] at hm
    rcases List.suffix_cons_iff.mp hm with heq | hm
    · exact absurd (List.cons.inj heq).1.symm (he b _)
    · exact h.reads b k l hm

end Attempt

/-- Nothing is sent or queued, and no bit has been fetched. -/
structure Silent (act : D → Prop) (s : Cec D) : Prop where
  state : s.tx.state = .idle
  parked : ¬ act s.hw
  nothing : ∀ b r, .getBit b r ∉ s.told
  static : s.addr.Static

theorem Silent.mono {s t : Cec D} (h : Silent act s) (ha : t.addr.Static)
    (ht : t.tx.state = s.tx.state) (hact : act t.hw → act s.hw) (hl : t.told = s.told) : Silent act t :=
  ⟨ht.trans h.state, fun hf => h.parked (hact hf), by rw [hl]; exact h.nothing, ha⟩

variable [Driver D] {X : Type} {view : D → X}

/-- What `act` must be for the receive side not to matter to it. -/
structure Fetches (view : D → X) (act : D → Prop) : Prop where
  congr : ∀ {u v : D}, view u = view v → act u → act v
  nack : ∀ b u, view (Driver.cecReceiveNackFrame b u) = view u
  abort : ∀ u : D, ¬ act (Driver.cecTransmitAbort u)

theorem onError_busy {s : Cec D} (hb : s.tx.state.busy) (err : Err) :
    (cecTransmitOnError s err).hw = Driver.cecTransmitAbort s.hw ∧
      (cecTransmitOnError s err).addr = s.addr ∧
      (cecTransmitOnError s err).tx.bufEnd = s.tx.bufEnd ∧
      (cecTransmitOnError s err).told = .abort err :: s.told := by
  rw [cecTransmitOnError, if_pos hb, cecTransmitFinishAbort]
  refine ⟨rfl, rfl, ?_, rfl⟩
  dsimp only
  split <;> rfl

theorem keptTx_attempt (hf : Fetches view act) (u : Cec D) : KeptTx view (Attempt act u) where
  same h ha ht hv hl := h.mono (ha ▸ h.static) (by rw [ht]) (hf.congr hv) hl
  nack := hf.nack
  needed n _ h := h.mono h.static rfl id rfl
  onError {s} err h hb := by
    obtain ⟨hhw, haddr, hend, htold⟩ := onError_busy hb err
    exact h.park (fun _ _ => Ev.noConfusion) (hhw ▸ hf.abort s.hw) (haddr ▸ h.static) hend htold
  acked {s} h hw := by
    have hact : ¬ act s.hw := by
      intro hf
      rcases (h.fetching hf).1 with hs | hs <;> rw [hs] at hw <;> exact TransmitState.noConfusion hw
    rw [cecTransmitReceiveAck, if_pos rfl, if_pos hw]
    exact h.park (e := .sent s.tx.message) (fun _ _ => Ev.noConfusion) hact h.static rfl rfl

theorem not_busy_idle {t : TransmitState} (h : t = .idle) : ¬ t.busy := by
  subst h; decide

theorem keptTx_silent (hf : Fetches view act) : KeptTx view (Silent (D := D) act) where
  same h ha ht hv hl := h.mono (ha ▸ h.static) (by rw [ht]) (hf.congr hv) hl
  nack := hf.nack
  needed n _ h := h.mono h.static rfl id rfl
  onError _ h hb := absurd hb (not_busy_idle h.state)
  acked h hw := by
    rw [h.state] at hw; exact TransmitState.noConfusion hw

omit [Driver D] in
/-- The driver begins an attempt. -/
theorem Attempt.start {u s t : Cec D} (h : Attempt act u s) (ha : t.addr = s.addr)
    (ht : t.tx = (cecTransmitStart s).tx) (hl : t.told = .begin :: s.told) : Attempt act u t := by
  have hend : (cecTransmitStart s).tx.bufEnd = s.tx.bufEnd := by
    change (if s.tx.state = .pend then _ else _ : Transmit).bufEnd = _
    split <;> rfl
  refine ⟨fun _ => ?_, fun b r m hm => ?_, ha ▸ h.static, ?_, fun b k l hm => ?_⟩
  · rw [ht, hl]
    exact ⟨.inl rfl, Nat.zero_le _, rfl⟩
  · rw [hl] at hm
    rcases List.suffix_cons_iff.mp hm with heq | hm
    · exact Ev.noConfusion (List.cons.inj heq).1
    · exact h.ownStart b r m hm
  · rw [ht]; exact hend.trans h.bufEnd
  · rw [hl] at hm
    rcases List.suffix_cons_iff.mp hm with heq | hm
    · exact Ev.noConfusion (List.cons.inj heq).1
    · exact h.reads b k l hm

/-- The next bit of an attempt leaves the engine in it, until the last. -/
theorem getBit_attempt {t : Transmit} (hs : t.state = .bitEom ∨ t.state = .ack)
    (hpos : t.bufPos ≤ t.bufEnd) (present : Nat) :
    ((t.getBit present).1.state ≠ .waitForAck →
      ((t.getBit present).1.state = .bitEom ∨ (t.getBit present).1.state = .ack) ∧
        (t.getBit present).1.bufPos ≤ (t.getBit present).1.bufEnd) ∧
      (t.getBit present).1.bufEnd = t.bufEnd ∧
      ∀ k, (t.getBit present).2.2 = some k → k ≤ t.bufEnd := by
  rw [Transmit.getBit]
  by_cases hb : t.bufBit ≠ 0
  · rw [if_pos hb]
    refine ⟨fun _ => ⟨hs, hpos⟩, rfl, fun k hk => ?_⟩
    rw [← Option.some.inj hk]
    exact hpos
  · rw [if_neg hb]
    by_cases he : t.state = .bitEom
    · rw [if_pos he]
      exact ⟨fun _ => ⟨.inr rfl, hpos⟩, rfl, fun k hk => nomatch hk⟩
    · rw [if_neg he]
      by_cases hl : t.bufEnd = t.bufPos
      · rw [if_pos (decide_eq_true hl)]
        exact ⟨fun hne => absurd rfl hne, rfl, fun k hk => nomatch hk⟩
      · rw [if_neg (by rw [decide_eq_false hl]; decide)]
        refine ⟨fun _ => ⟨.inl rfl, ?_⟩, rfl, fun k hk => nomatch hk⟩
        change (t.bufPos + 1) % 256 ≤ t.bufEnd
        have := Nat.mod_le (t.bufPos + 1) 256
        omega

/-- The driver fetches a bit, and stops fetching after the last. -/
theorem Attempt.fetch {u s t : Cec D} (h : Attempt act u s) (hs : act s.hw) (ha : t.addr = s.addr)
    (ht : t.tx = (cecTransmitGetBit s).1.tx) (hl : t.told = (cecTransmitGetBit s).1.told)
    (hact : act t.hw → t.tx.state ≠ .waitForAck) : Attempt act u t := by
  obtain ⟨hstate, hpos, hopen⟩ := h.fetching hs
  obtain ⟨hnext, hend, hread⟩ := getBit_attempt hstate hpos (Driver.idleWait D s.build cecPresentPeriodWait)
  have hl : t.told = .getBit (s.tx.getBit (Driver.idleWait D s.build cecPresentPeriodWait)).2.1
      (s.tx.getBit (Driver.idleWait D s.build cecPresentPeriodWait)).2.2 :: s.told := hl
  refine ⟨fun hf => ?_, ?_, ha ▸ h.static, ?_, ?_⟩
  · have hne := hact hf
    rw [ht] at hne ⊢
    obtain ⟨h₁, h₂⟩ := hnext hne
    exact ⟨h₁, h₂, by rw [hl]; exact hopen⟩
  · intro b r m hm
    rw [hl] at hm
    rcases List.suffix_cons_iff.mp hm with heq | hm
    · rw [(List.cons.inj heq).2]; exact hopen
    · exact h.ownStart b r m hm
  · rw [ht]; exact hend.trans h.bufEnd
  · intro b k l hm hl'
    rw [hl] at hm
    rcases List.suffix_cons_iff.mp hm with heq | hm
    · have hk := (Ev.getBit.inj (List.cons.inj heq).1).2
      rw [← h.bufEnd]
      exact hread k hk.symm
    · exact h.reads b k l hm hl'

end

/-! ### Runs after a halt -/

section
variable {D I : Type} {act : D → Prop} {step : I → Cec D → Cec D}

/-- Any step of a run keeps the engine coherent: either it fetches within the message, or it queues
    one and fetches nothing. -/
def KeepsAttempt (act : D → Prop) (step : I → Cec D → Cec D) : Prop :=
  ∀ s i, Attempt act s s → Attempt act s (step i s) ∨
    (Attempt act (step i s) (step i s) ∧ (step i s).told = s.told)

theorem KeepsAttempt.run (hkeep : KeepsAttempt act step) {s : Cec D} (hs : Attempt act s s) (is : List I) :
    Attempt act (run step s is) (run step s is) := by
  have hstep : ∀ s i, Attempt act s s → Attempt act (step i s) (step i s) := by
    intro s i hs
    rcases hkeep s i hs with h | h
    · exact h.refl
    · exact h.1
  exact invariant_run' hstep is hs

/-- A message is queued while the transmit state is idle or failed, when the driver fetches nothing. -/
theorem attempt_send {s : Cec D} (hs : Attempt act s s) (message : List Nat) :
    Attempt act (App.step s (.send message)) (App.step s (.send message)) ∧
      (App.step s (.send message)).told = s.told := by
  rw [App.step]
  split
  · next hc =>
    have hact : ¬ act s.hw := by
      intro hb
      have hlt := hc.1
      rcases (hs.fetching hb).1 with h | h <;> rw [h] at hlt <;> exact absurd hlt (by decide)
    exact ⟨⟨fun hb => absurd hb hact, hs.ownStart, hs.static, rfl,
      fun _ _ _ hl hl' => absurd hl' (not_suffix_of_suffix hl)⟩, rfl⟩
  · exact ⟨hs, rfl⟩

/-- A step that queues a message is one of the application's. -/
theorem keepsAttempt_of_step {app : App → I} (happ : ∀ a s, step (app a) s = App.step s a)
    (hkeep : ∀ {s i}, Attempt act s s → ¬ QueuesMessage app i → Attempt act s (step i s)) : KeepsAttempt act step := by
  intro s i hs
  by_cases hi : QueuesMessage app i
  · obtain ⟨message, rfl⟩ := hi
    rw [happ]
    exact .inr (attempt_send hs message)
  · exact .inl (hkeep hs hi)

/-- The rule for a halt: the state it leaves, and what each step after it keeps. -/
theorem parked_of_step {app : App → I} {Floating : D → Prop} {h : Cec D}
    (hfloat : Floating h.hw) (hidle : h.tx.state = .idle) (hact : ¬ act h.hw) (hstatic : h.addr.Static)
    (hsilent : ∀ s i, Silent act s → ¬ QueuesMessage app i → Silent act (step i s))
    (hkeep : KeepsAttempt act step) : Parked step app Floating h := by
  have hnil : h.forget.told = [] := rfl
  have hs₀ : Silent act h.forget := ⟨hidle, hact, fun b r hm => by rw [hnil] at hm; simp at hm, hstatic⟩
  have ha₀ : Attempt act h.forget h.forget := by
    refine ⟨fun hf => absurd hf hact, fun b r m hm => ?_, hstatic, rfl, fun b k l hm => ?_⟩
    · rw [hnil] at hm; simp at hm
    · rw [hnil] at hm; simp at hm
  refine ⟨hfloat, fun is his => ?_, fun is => (hkeep.run ha₀ is).ownStart, fun is i b k l hl hl' => ?_⟩
  · have hrun : Along (fun _ i => ¬ QueuesMessage app i) step h.forget is := by
      clear hs₀ ha₀ hnil
      generalize h.forget = s
      induction is generalizing s with
      | nil => exact trivial
      | cons i is ih =>
        exact ⟨his i (List.mem_cons_self ..), ih (fun j hj => his j (List.mem_cons_of_mem _ hj)) _⟩
    have hs : Silent act (run step h.forget is) := invariant_run (fun s i h hq => hsilent s i h hq) hs₀ hrun
    exact ⟨hs.state, hs.nothing⟩
  · rw [run_concat] at hl
    rcases hkeep _ i (hkeep.run ha₀ is) with hstep | ⟨-, htold⟩
    · exact hstep.reads b k l hl hl'
    · rw [htold] at hl
      exact absurd hl' (not_suffix_of_suffix hl)

/-- A step, or `cec_halt`. -/
inductive OrHalt (I : Type) where
  | step (i : I)
  | halt
  deriving DecidableEq, Repr

def orHalt (step : I → Cec D → Cec D) (halt : Cec D → Cec D) : OrHalt I → Cec D → Cec D
  | .step i, s => step i s
  | .halt, s => halt s

end

theorem addrInit_static {D : Type} {s : Cec D} (h : s.addr.Static) :
    (cecAddrInit s).addr.Static ∧ (cecAddrInit s).tx = s.tx := by
  rw [cecAddrInit]
  split
  · exact ⟨trivial, rfl⟩
  · next ha => rw [ha] at h; exact h.elim
  · exact ⟨h, rfl⟩

theorem receiveError_addr {D : Type} [Driver D] (s : Cec D) (err : Err) :
    (cecReceiveError s err).addr = s.addr := by
  rw [cecReceiveError]
  split
  · rfl
  · exact (sameReceive_onError _ err).addr

end AvrCec
