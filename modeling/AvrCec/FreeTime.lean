import AvrCec.Echo
import AvrCec.Capped
import AvrCec.Release
import AvrCec.PwmRestart
import AvrCec.Retries

/-! The signal free time.

    `needed_idle_frames`, or `needed_idle_time`, is overwritten from four places: `cec_transmit_init` and
    every start bit heard ask for the wait of a new initiator, every ack bit we generate for that of
    the present one, and an abort for that of a repeated attempt. Whatever their order, it never falls
    below what the events since the latest start bit or abort ask for (`Spaced`), so an attempt begins
    only after the line has been high that long (`signal_free_time`). -/

namespace AvrCec
open Lib

/-- The beginnings and the aborts of attempts. -/
def episodes (l : List Ev) : Nat := attempts l + failures l

section
variable {D X : Type} [Driver D] {view : D → X}

theorem onError_episodes {s : Cec D} (hb : s.tx.state.busy) (err : Err) :
    episodes (cecTransmitOnError s err).told = episodes s.told + 1 := by
  rw [(onError_busy hb err).2.2.2]
  simp [episodes, attempts, failures, Nat.add_assoc]

theorem keptTx_episodes (hnack : ∀ b u, view (Driver.cecReceiveNackFrame b u) = view u) (c : Nat) :
    KeptTx view fun s : Cec D => c ≤ episodes s.told where
  same h _ _ _ hl := by rw [hl]; exact h
  nack := hnack
  needed _ _ h := h
  onError err h hb := by
    rw [onError_episodes hb]
    omega
  acked {s} h hw := by
    rw [cecTransmitReceiveAck, if_pos rfl, if_pos hw]
    exact h

end

/-- The wait that the events ask for, in bit periods, newest first. -/
def idleWait : List Ev → Nat
  | [] => cecNewPeriodWait
  | .start :: _ => cecNewPeriodWait
  | .abort _ :: _ => cecPrevPeriodWait
  | .getBit b r :: l =>
    if (sofar (.getBit b r :: l)).length % 10 = 0 then cecPresentPeriodWait else idleWait l
  | _ :: l => idleWait l

/-- An attempt begins when none is under way, and a message is sent once a whole block has been. -/
def Ordered : List Ev → Prop
  | [] => True
  | .begin :: l => fetched l = none ∧ Ordered l
  | .sent _ :: l => (∃ bits, fetched l = some bits ∧ 10 ≤ bits.length) ∧ Ordered l
  | _ :: l => Ordered l

/-- The event leaves the transmit engine alone. -/
def Ev.Plain (e : Ev) : Prop := e.ofReceive = true ∧ e ≠ .start

theorem Ev.Plain.keeps {e : Ev} (h : e.Plain) (l : List Ev) :
    idleWait (e :: l) = idleWait l ∧ fetched (e :: l) = fetched l ∧ (Ordered (e :: l) ↔ Ordered l) := by
  obtain ⟨hr, hne⟩ := h
  cases e with
  | start => exact absurd rfl hne
  | begin => exact Bool.noConfusion hr
  | getBit b r => exact Bool.noConfusion hr
  | abort err => exact Bool.noConfusion hr
  | sent m => exact Bool.noConfusion hr
  | _ => exact ⟨rfl, rfl, Iff.rfl⟩

theorem idleWait_cases (l : List Ev) :
    idleWait l = cecPrevPeriodWait ∨ idleWait l = cecNewPeriodWait ∨ idleWait l = cecPresentPeriodWait := by
  induction l with
  | nil => exact .inr (.inl rfl)
  | cons e l ih =>
    cases e with
    | start => exact .inr (.inl rfl)
    | abort err => exact .inl rfl
    | getBit b r =>
      rw [idleWait]
      split
      · exact .inr (.inr rfl)
      · exact ih
    | _ => exact ih

/-- The start bit was the echo of our own and the message has been sent since: we are the present
    initiator. -/
structure Echoed (l : List Ev) : Prop where
  split : ∃ newer older bits m, l = newer ++ .start :: older ∧ .start ∉ newer ∧ (∀ err, .abort err ∉ newer) ∧
    fetched older = some bits ∧ bits.length < 10 ∧ .sent m ∈ newer

theorem idleWait_echoed {l : List Ev} (h : Echoed l) (ho : Ordered l) : idleWait l = cecPresentPeriodWait := by
  obtain ⟨newer, older, bits₀, m, rfl, hstart, habort, hbits₀, hlt₀, hsent⟩ := h
  -- until the tenth bit is fetched the attempt goes on, and then the wait is set
  have hinv : ((∃ bits, fetched (newer ++ .start :: older) = some bits ∧ bits.length < 10) ∧ .sent m ∉ newer) ∨
      idleWait (newer ++ .start :: older) = cecPresentPeriodWait := by
    clear hsent
    induction newer with
    | nil => exact .inl ⟨⟨bits₀, hbits₀, hlt₀⟩, List.not_mem_nil⟩
    | cons e l ih =>
      rw [List.mem_cons, not_or] at hstart
      have habort' : ∀ err, .abort err ∉ l := fun err hm => habort err (List.mem_cons_of_mem e hm)
      have ho' : Ordered (l ++ .start :: older) := by
        cases e with
        | begin => exact ho.2
        | sent m' => exact ho.2
        | _ => exact ho
      have ih := ih ho' hstart.2 habort'
      cases e with
      | start => exact absurd rfl hstart.1
      | abort err => exact absurd List.mem_cons_self (habort err)
      | begin =>
        rcases ih with ⟨⟨bits, hbits, -⟩, -⟩ | hw
        · exact absurd (ho.1.symm.trans hbits) (Option.some_ne_none bits).symm
        · exact .inr hw
      | sent m' =>
        rcases ih with ⟨⟨bits, hbits, hlt⟩, -⟩ | hw
        · obtain ⟨⟨bits', hbits', hge⟩, -⟩ := ho
          obtain rfl := Option.some.inj (hbits.symm.trans hbits')
          omega
        · exact .inr hw
      | getBit b r =>
        rw [List.cons_append, idleWait]
        split
        · exact .inr rfl
        · next hmid =>
          rcases ih with ⟨⟨bits, hbits, hlt⟩, hno⟩ | hw
          · have hnext : fetched (.getBit b r :: (l ++ .start :: older)) = some (bits ++ [b]) :=
              congrArg (Option.map _) hbits
            have hlen : (sofar (.getBit b r :: (l ++ .start :: older))).length = bits.length + 1 := by
              rw [sofar, hnext]
              simp
            refine .inl ⟨⟨_, hnext, ?_⟩, by simpa using hno⟩
            rw [hlen] at hmid
            rw [List.length_append, List.length_singleton]
            omega
          · exact .inr hw
      | _ => exact ih.imp_left fun h => ⟨h.1, by simpa using h.2⟩
  exact hinv.resolve_left fun h => h.2 hsent

section
variable {D : Type} [Driver D] {X : Type} {view : D → X} {act : D → Prop}

/-- The wait of a repeated attempt is the shortest. -/
def Shortest (D : Type) [Driver D] (b : Build) : Prop :=
  Driver.idleWait D b cecPrevPeriodWait ≤ Driver.idleWait D b cecNewPeriodWait ∧
    Driver.idleWait D b cecPrevPeriodWait ≤ Driver.idleWait D b cecPresentPeriodWait

instance (b : Build) : Decidable (Shortest D b) := instDecidableAnd

/-- We wait for as long as the events ask. -/
structure Spaced (s : Cec D) : Prop where
  wait : Driver.idleWait D s.build (idleWait s.log) ≤ s.tx.needed
  ordered : Ordered s.log

theorem Spaced.quiet {s t : Cec D} (h : Spaced s) (hb : t.build = s.build) (hn : t.tx.needed = s.tx.needed)
    (hl : t.log = s.log) : Spaced t :=
  ⟨by rw [hb, hl, hn]; exact h.wait, by rw [hl]; exact h.ordered⟩

theorem Spaced.plain {s t : Cec D} (h : Spaced s) {e : Ev} (he : e.Plain) (hb : t.build = s.build)
    (hn : t.tx.needed = s.tx.needed) (hl : t.log = e :: s.log) : Spaced t := by
  obtain ⟨hw, -, ho⟩ := he.keeps s.log
  exact ⟨by rw [hb, hl, hn, hw]; exact h.wait, by rw [hl]; exact ho.mpr h.ordered⟩

theorem Spaced.shortest {s : Cec D} (h : Spaced s) (hs : Shortest D s.build) :
    Driver.idleWait D s.build cecPrevPeriodWait ≤ s.tx.needed := by
  refine Nat.le_trans ?_ h.wait
  rcases idleWait_cases s.log with hw | hw | hw
  · rw [hw]
  · rw [hw]
    exact hs.1
  · rw [hw]
    exact hs.2

theorem spaced_onError {s : Cec D} (h : Spaced s) (hs : Shortest D s.build) (err : Err) :
    Spaced (cecTransmitOnError s err) := by
  rw [cecTransmitOnError]
  split
  · refine ⟨?_, h.ordered⟩
    rw [cecTransmitFinishAbort]
    dsimp only
    split
    · exact h.shortest hs
    · exact Nat.le_refl _
  · exact h

theorem spaced_receiveError {s : Cec D} (h : Spaced s) (hs : Shortest D s.build) (err : Err) :
    Spaced (cecReceiveError s err) := by
  rw [cecReceiveError]
  split
  · exact h
  · refine spaced_onError ?_ ?_ err
    · exact h.plain (e := .error err) ⟨rfl, Ev.noConfusion⟩ rfl rfl rfl
    · exact hs

theorem spaced_receiveStart {s : Cec D} (h : Spaced s) : Spaced (cecReceiveStart s) :=
  ⟨Nat.le_refl _, h.ordered⟩

theorem spaced_files {s t : Cec D} {es : List Ev} (hes : ∀ e ∈ es, e.files = true) (h : Spaced s)
    (hb : t.build = s.build) (hn : t.tx.needed = s.tx.needed) (hl : t.log = es ++ s.log) : Spaced t := by
  induction es generalizing t with
  | nil => exact h.quiet hb hn hl
  | cons e es ih =>
    have hplain : e.Plain := by
      have he := hes e List.mem_cons_self
      cases e with
      | store i v => exact ⟨rfl, Ev.noConfusion⟩
      | header v => exact ⟨rfl, Ev.noConfusion⟩
      | done => exact ⟨rfl, Ev.noConfusion⟩
      | clear => exact ⟨rfl, Ev.noConfusion⟩
      | _ => exact Bool.noConfusion he
    have hrest : Spaced { t with log := es ++ s.log } :=
      ih (fun e he => hes e (List.mem_cons_of_mem _ he)) hb hn rfl
    exact hrest.plain hplain rfl rfl hl

theorem spaced_receiveBit {s : Cec D} (h : Spaced s) (hs : Shortest D s.build) (hf : Framed act s) (b : Bool) :
    Spaced (cecReceiveBit s b) := by
  have hemit : Spaced (s.emit (.bit b)) := h.plain (e := .bit b) ⟨rfl, Ev.noConfusion⟩ rfl rfl rfl
  have hheard : Spaced (heardByTransmit s b) := by
    rw [heardByTransmit]
    split
    · rw [cecCheckTxBit]
      split
      · exact spaced_onError hemit hs .arbLost
      · exact hemit
    · rw [cecTransmitReceiveAck]
      split
      · split
        · next hw =>
          -- a message is sent: its framing has at least one block
          have hw : s.tx.state = .waitForAck := hw
          obtain ⟨bits, hbits, hfetch⟩ := hf.busy (by rw [hw]; decide)
          refine ⟨hemit.wait, ⟨bits, ?_, ?_⟩, hemit.ordered⟩
          · rw [← hbits, fetched_told]
            rfl
          · rw [hfetch.whole_iff.mpr hw, length_framing, length_message]
            omega
        · exact hemit
      · exact spaced_onError hemit hs .nack
  obtain ⟨es, hlog, hes⟩ := receiveBit_log s b
  have hsame := sameTransmit_receiveBit s b
  refine spaced_files hes hheard ?_ (by rw [hsame.tx]) hlog
  rw [(receiveBit_build s b).1]
  exact ((sameReceive_heardByTransmit s b).build).symm

theorem Spaced.clear {s : Cec D} (h : Spaced s) : Spaced (clearHeader s) :=
  h.plain (e := .clear) ⟨rfl, Ev.noConfusion⟩ rfl rfl rfl

theorem Spaced.begin {s t : Cec D} (h : Spaced s) (hf : Framed act s) (hp : s.tx.state.pending)
    (hb : t.build = s.build) (hn : t.tx.needed = s.tx.needed) (hl : t.log = .begin :: s.log) : Spaced t := by
  refine ⟨by rw [hb, hl, hn]; exact h.wait, ?_⟩
  rw [hl]
  refine ⟨?_, h.ordered⟩
  rw [← fetched_told]
  exact hf.free fun hbusy => busy_not_pending hbusy hp

omit [Driver D] in
/-- The engine asks for the wait of the present initiator with each ack bit. -/
theorem getBit_needed {t : Transmit} {bits : List Bool} (h : t.Fetched bits)
    (hs : t.state = .bitEom ∨ t.state = .ack) (present : Nat) :
    (t.getBit present).1.needed = if bits.length % 10 = 9 then present else t.needed := by
  obtain ⟨-, hbit, hstate⟩ := h.going (h.lt_of_asked hs)
  have hmod : bits.length % 10 < 10 := Nat.mod_lt _ (by omega)
  rw [Transmit.getBit]
  rcases (by omega : bits.length % 10 < 8 ∨ bits.length % 10 = 8 ∨ bits.length % 10 = 9) with h8 | h8 | h8
  · have hne : t.bufBit ≠ 0 := by
      rw [hbit, mask_eq h8]
      exact (Nat.two_pow_pos _).ne'
    rw [if_pos hne, if_neg (by omega)]
    rfl
  · have hzero : ¬ t.bufBit ≠ 0 := by rw [hbit, h8]; decide
    rw [if_neg hzero, if_pos (by rw [hstate, if_neg (by omega)]), if_neg (by omega)]
    rfl
  · have hzero : ¬ t.bufBit ≠ 0 := by rw [hbit, h8]; decide
    rw [if_neg hzero, if_neg (by rw [hstate, if_pos h8]; exact TransmitState.noConfusion), if_pos h8]
    split <;> rfl

theorem Spaced.fetch {s t : Cec D} (h : Spaced s) (hf : Framed act s) (ha : act s.hw) (hb : t.build = s.build)
    (ht : t.tx = (cecTransmitGetBit s).1.tx) (hl : t.log = (cecTransmitGetBit s).1.log) : Spaced t := by
  obtain ⟨bits, -, hfetch, hnext, -⟩ := hf.next ha
  have hneeded : t.tx.needed = if bits.length % 10 = 9 then Driver.idleWait D s.build cecPresentPeriodWait
      else s.tx.needed := by
    rw [ht]
    exact getBit_needed hfetch (hf.asks ha) _
  rw [fetched_told] at hnext
  have hlen : (sofar (cecTransmitGetBit s).1.log).length = bits.length + 1 := by
    rw [sofar, hnext]
    simp
  refine ⟨?_, by rw [hl]; exact h.ordered⟩
  have hlog : idleWait t.log = if (sofar (cecTransmitGetBit s).1.log).length % 10 = 0
      then cecPresentPeriodWait else idleWait s.log := by rw [hl]; rfl
  rw [hb, hlog, hneeded, hlen]
  by_cases h9 : bits.length % 10 = 9
  · rw [if_pos h9, if_pos (by omega)]
  · rw [if_neg h9, if_neg (by omega)]
    exact h.wait

theorem Spaced.addrPeriodic {s : Cec D} (h : Spaced s) : Spaced (cecAddrPeriodic s) := by
  have hc := h.clear
  rw [cecAddrPeriodic]
  dsimp only
  repeat' split
  all_goals first
    | exact h
    | exact hc
    | exact hc.quiet rfl rfl rfl

theorem Spaced.app {s : Cec D} (h : Spaced s) (a : App) : Spaced (a.step s) := by
  cases a with
  | clear => exact h.clear
  | send message =>
    rw [App.step]
    split
    · exact h.quiet rfl rfl rfl
    · exact h
  | assign m =>
    rw [App.step]
    split
    · exact h.quiet rfl rfl rfl
    · exact h

end

/-- The log when the latest attempt began. -/
def beforeBegin (l : List Ev) : List Ev := (l.dropWhile (· ≠ .begin)).tail

/-! ### The USI driver -/

namespace Usi

theorem shortest (b : Build) : Shortest Usi b :=
  ⟨show cecPrevPeriodWait ≤ cecNewPeriodWait by decide, show cecPrevPeriodWait ≤ cecPresentPeriodWait by decide⟩

theorem keptTx_framed : KeptTx Usi.xmitState (Framed (D := Usi) Busy) := (keptCalls_framed fetches).keptTx fetches

theorem spaced_tick {s : Cec Usi} (hf : Framed Busy s) (h : Spaced s) (b : Bool) : Spaced (cecProcessTick s b) := by
  have hcall : ∀ (t : Cec Usi) (c : Call), Spaced t → Spaced (t.call c) := by
    intro t c ht
    cases c with
    | none => exact ht
    | start => exact spaced_receiveStart ht
    | error err => exact spaced_receiveError ht (shortest _) err
  rw [processTick_eq]
  dsimp only
  split
  · exact (hcall _ _ (spaced_receiveBit h (shortest _) hf b)).quiet rfl rfl rfl
  · exact (hcall s _ h).quiet rfl rfl rfl

theorem spaced_ticks {s : Cec Usi} (hf : Framed Busy s) (h : Spaced s) (l : List Bool) :
    Spaced (l.foldl cecProcessTick s) := by
  induction l generalizing s with
  | nil => exact h
  | cons b l ih => exact ih (keptTx_tick keptTx_framed (fun _ _ => rfl) hf b) (spaced_tick hf h b)

theorem spaced_checkFloat {s : Cec Usi} (h : Spaced s) (others : Bool) : Spaced (checkFloat s others) := by
  have hload : Spaced { s with hw := loadFloatMax s.hw } := h.quiet rfl rfl rfl
  rw [checkFloat]
  dsimp only
  split
  · exact spaced_onError hload (shortest _) .arbLost
  · exact hload

theorem spaced_decoded {s : Cec Usi} (hf : Framed Busy s) (h : Spaced s) : Spaced (decoded s) := by
  have hcount : Spaced { s with hw := countIdle (floatNack s.hw) s.hw.usibr } := h.quiet rfl rfl rfl
  exact spaced_ticks (s := { s with hw := countIdle (floatNack s.hw) s.hw.usibr })
    (keptTx_framed.quiet hf rfl rfl rfl rfl) hcount _

theorem spaced_next {s : Cec Usi} (hf : Framed Busy s) (h : Spaced s) : Spaced (cecUsiNextBit s).1 := by
  rw [cecUsiNextBit]
  split
  · split
    · next hc =>
      have hstart : Spaced (cecTransmitStart s) := by
        refine h.begin hf hc.1 rfl ?_ rfl
        rw [cecTransmitStart]
        dsimp only
        split <;> rfl
      exact hstart.quiet rfl rfl rfl
    · exact h
  · exact h.quiet rfl rfl rfl
  · next hx =>
    have hfetch : Spaced (cecTransmitGetBit s).1 :=
      h.fetch hf (fun hi => by rw [hx] at hi; exact UsiXmit.noConfusion hi) rfl rfl rfl
    exact hfetch.quiet rfl rfl rfl

theorem spaced_handleAck {s : Cec Usi} (h : Spaced s) (others : Bool) : Spaced (handleAck s others) := by
  rw [handleAck]
  dsimp only
  repeat' split
  all_goals first
    | exact h
    | exact h.quiet rfl rfl rfl

theorem spaced_step {s : Cec Usi} (hf : Framed Busy s) (h : Spaced s) (i : Step) : Spaced (step i s) := by
  cases i with
  | tick others => exact h.quiet rfl rfl rfl
  | app a => exact h.app a
  | poll others₁ others₂ =>
    have hfloat := spaced_checkFloat h others₁
    have hfloat' := keptTx_checkFloat keptTx_framed hf others₁
    refine Spaced.addrPeriodic ?_
    rw [cecReceivePeriodic]
    split
    · have hnext := spaced_next (keptTx_decoded keptTx_framed hfloat') (spaced_decoded hfloat' hfloat)
      have hout : Spaced (handleOverflow (checkFloat s others₁)) := hnext.quiet rfl rfl rfl
      exact spaced_handleAck hout others₂
    · exact spaced_handleAck hfloat others₂

/-- The byte that the step reads from `USIBR`, if it handles an overflow. -/
def readIn (s : Cec Usi) : Step → List (BitVec 8)
  | .poll .. => if s.hw.usioif then [s.hw.usibr] else []
  | _ => []

/-- The bytes read from `USIBR` along a run, newest first. -/
def bytesRead (s : Cec Usi) : List Step → List (BitVec 8)
  | [] => []
  | i :: is => bytesRead (step i s) is ++ readIn s i

theorem bytesRead_concat (s : Cec Usi) (is : List Step) (i : Step) :
    bytesRead s (is ++ [i]) = readIn (run step s is) i ++ bytesRead s is := by
  induction is generalizing s with
  | nil => simp [bytesRead]
  | cons j is ih => simp [bytesRead, ih]

/-- The last `n` bytes were high throughout. -/
def High (n : Nat) (l : List (BitVec 8)) : Prop := l.take n = List.replicate n 0

theorem High.mono {m n : Nat} {l : List (BitVec 8)} (h : High n l) (hmn : m ≤ n) : High m l := by
  have := congrArg (List.take m) h
  rwa [List.take_take, List.take_replicate, Nat.min_eq_left hmn] at this

theorem High.cons {n : Nat} {l : List (BitVec 8)} (h : High n l) : High (n + 1) (0 :: l) := by
  rw [High, List.take_succ_cons, h, List.replicate_succ]

/-- The idle frames counted when a poll decodes the byte read. -/
theorem decoded_idleFrames (s : Cec Usi) :
    (decoded s).hw.idleFrames = if s.hw.usibr ≠ 0 then 0 else min (s.hw.idleFrames + 1) 255 :=
  undecoded_idleFrames.ticks _ _

theorem high_decoded {s : Cec Usi} {l : List (BitVec 8)} (h : High s.hw.idleFrames l) :
    High (decoded s).hw.idleFrames (s.hw.usibr :: l) := by
  rw [decoded_idleFrames]
  split
  · rfl
  · next hz =>
    rw [not_not.mp hz]
    exact h.cons.mono (Nat.min_le_left _ _)

theorem step_idleFrames (s : Cec Usi) (others₁ others₂ : Bool) :
    (step (.poll others₁ others₂) s).hw.idleFrames =
      if s.hw.usioif then (decoded (checkFloat s others₁)).hw.idleFrames else s.hw.idleFrames := by
  rw [step, cecPeriodic, addrPeriodic_hw, cecReceivePeriodic, handleAck_idleFrames]
  split
  · exact nextBit_idleFrames _
  · exact checkFloat_idleFrames s others₁

theorem high_step {s : Cec Usi} {l : List (BitVec 8)} (h : High s.hw.idleFrames l) (i : Step) :
    High (step i s).hw.idleFrames (readIn s i ++ l) := by
  cases i with
  | tick others =>
    have hidle : (s.hw.clock others).idleFrames = s.hw.idleFrames := by
      rw [clock]
      split <;> rfl
    change High (s.hw.clock others).idleFrames l
    rw [hidle]
    exact h
  | app a =>
    change High (a.step s).hw.idleFrames l
    rw [app_hw]
    exact h
  | poll others₁ others₂ =>
    have hbr := checkFloat_usibr s others₁
    rw [step_idleFrames, readIn]
    split
    · rw [← hbr]
      exact high_decoded (by rw [checkFloat_idleFrames]; exact h)
    · exact h

theorem high_run (build : Build) (addr : Addr) (is : List Step) :
    High (run step (initial build addr) is).hw.idleFrames (bytesRead (initial build addr) is) := by
  induction is using List.reverseRecOn with
  | nil =>
    have hidle : (initial build addr).hw.idleFrames = 0 := by rw [initial, cecInit, addrInit_hw]; rfl
    rw [run_nil, hidle]
    rfl
  | append_singleton is i ih =>
    rw [run_concat, bytesRead_concat]
    exact high_step ih i

theorem spaced_run (build : Build) (addr : Addr) (is : List Step) : Spaced (run step (initial build addr) is) := by
  have h0 : Spaced (initial build addr) := by
    have hlog : (initial build addr).log = [] := by rw [initial, cecInit, addrInit_log]; rfl
    have htx : (initial build addr).tx.needed = cecNewPeriodWait := by rw [initial, cecInit, addrInit_tx rfl]; rfl
    refine ⟨?_, by rw [hlog]; trivial⟩
    rw [hlog, htx]
    exact Nat.le_refl _
  have hstep : ∀ (s : Cec Usi) (i : Step), Framed Busy s ∧ Spaced s → Framed Busy (step i s) ∧ Spaced (step i s) :=
    fun s i hs => ⟨framed_step hs.1 i, spaced_step hs.1 hs.2 i⟩
  exact (invariant_run' hstep is ⟨framed_run build addr [], h0⟩).2

/-- An attempt begins in a poll that handles an overflow, once enough idle frames have been counted. -/
theorem begins {s : Cec Usi} {i : Step} (h : attempts (step i s).told ≠ attempts s.told) :
    ∃ others₁ others₂, i = .poll others₁ others₂ ∧ s.hw.usioif = true ∧
      (decoded (checkFloat s others₁)).hw.xmitState = .idle ∧ (decoded (checkFloat s others₁)).tx.state.pending ∧
      (decoded (checkFloat s others₁)).tx.needed ≤ (decoded (checkFloat s others₁)).hw.idleFrames ∧
      beforeBegin (step i s).log = (decoded (checkFloat s others₁)).log := by
  have hkept := keptTx_attempts (attempts s.told)
  cases i with
  | tick others => exact absurd rfl h
  | app a => exact absurd (congrArg attempts (app_told s a)) h
  | poll others₁ others₂ =>
    have hfloat := keptTx_checkFloat hkept rfl others₁
    refine ⟨others₁, others₂, rfl, ?_⟩
    rw [step, cecPeriodic, addrPeriodic_told, cecReceivePeriodic] at h
    split at h
    · next ho =>
      refine ⟨ho, ?_⟩
      have hd := keptTx_decoded hkept hfloat
      have hclear : ∀ t : Cec Usi, (cecAddrPeriodic t).log = t.log ∨ (cecAddrPeriodic t).log = .clear :: t.log := by
        intro t
        rw [cecAddrPeriodic]
        dsimp only
        repeat' split
        all_goals first
          | exact .inl rfl
          | exact .inr rfl
      have hackLog : ∀ t : Cec Usi, (handleAck t others₂).log = t.log := by
        intro t
        rw [handleAck]
        dsimp only
        repeat' split
        all_goals rfl
      have hackTold : ∀ t : Cec Usi, (handleAck t others₂).told = t.told := fun t => by
        rw [Cec.told, Cec.told, hackLog]
      rw [hackTold] at h
      have hstep : (step (.poll others₁ others₂) s).log = (cecUsiNextBit (decoded (checkFloat s others₁))).1.log ∨
          (step (.poll others₁ others₂) s).log = .clear :: (cecUsiNextBit (decoded (checkFloat s others₁))).1.log := by
        have := hclear (cecReceivePeriodic s others₁ others₂)
        rw [cecReceivePeriodic, if_pos ho, hackLog] at this
        rw [step, cecPeriodic, cecReceivePeriodic, if_pos ho]
        exact this
      change attempts (cecUsiNextBit (decoded (checkFloat s others₁))).1.told ≠ _ at h
      generalize decoded (checkFloat s others₁) = d at h hd hstep ⊢
      rw [cecUsiNextBit] at h hstep
      split at h
      · next hx =>
        rw [hx] at hstep
        split at h
        · next hc =>
          rw [if_pos hc] at hstep
          refine ⟨hx, hc.1, hc.2, ?_⟩
          rcases hstep with hl | hl <;> rw [hl] <;> rfl
        · exact absurd hd h
      · exact absurd hd h
      · exact absurd hd h
    · exact absurd (keptTx_handleAck hkept hfloat others₂) h

end Usi

/-! ### The PWM driver -/

namespace Soft

theorem keptTx_attempts (n : Nat) : KeptTx Soft.pwm fun s : Cec Soft => attempts s.told = n where
  same h _ _ _ hl := by rw [hl]; exact h
  nack := nackFrame_pwm
  needed _ _ h := h
  onError {s} err h hb := by rw [(onError_busy hb err).2.2.2]; exact h
  acked {s} h hw := by
    rw [cecTransmitReceiveAck, if_pos rfl, if_pos hw]
    exact h

theorem keptTx_framed : KeptTx Soft.pwm (Framed (D := Soft) Busy) := (keptCalls_framed fetches).keptTx fetches

/-- What a run keeps, in a build `b`. -/
structure Timed (b : Build) (s : Cec Soft) : Prop where
  framed : Framed Busy s
  spaced : Spaced s
  build : s.build = b

variable {b : Build}

theorem Timed.hw {s : Cec Soft} (h : Timed b s) {u : Soft} (hu : u.pwm = s.hw.pwm) : Timed b { s with hw := u } :=
  ⟨recvHw keptTx_framed h.framed hu, h.spaced.quiet rfl rfl rfl, h.build⟩

theorem Timed.error {s : Cec Soft} (h : Timed b s) (hs : Shortest Soft b) (err : Err) : Timed b (cecReceiveError s err) :=
  ⟨keptTx_framed.receiveError h.framed err, spaced_receiveError h.spaced (by rw [h.build]; exact hs) err,
    (receiveError_rx s err).2.1.trans h.build⟩

theorem Timed.start {s : Cec Soft} (h : Timed b s) : Timed b (cecReceiveStart s) :=
  ⟨keptTx_framed.receiveStart h.framed, spaced_receiveStart h.spaced, h.build⟩

theorem Timed.bit {s : Cec Soft} (h : Timed b s) (hs : Shortest Soft b) (level : Bool) : Timed b (cecReceiveBit s level) :=
  ⟨keptTx_framed.receiveBit h.framed level, spaced_receiveBit h.spaced (by rw [h.build]; exact hs) h.framed level,
    (receiveBit_build s level).1.trans h.build⟩

theorem timed_fall {s : Cec Soft} (h : Timed b s) (hs : Shortest Soft b) : Timed b (softFall s) := by
  have hnext : ∀ (t : Cec Soft) (n m : Nat), Timed b t →
      Timed b { t with hw := { t.hw with receiveFramePeriod := n, receiveFrameTimer := m } } :=
    fun _ _ _ ht => ht.hw (pwm_mk ..)
  have hsample : ∀ t : Cec Soft, Timed b t → Timed b { t with hw := { t.hw with sample := true } } :=
    fun _ ht => ht.hw (pwm_mk ..)
  have hack : ∀ (t : Cec Soft) (n : Nat), Timed b t →
      Timed b { t with hw := { t.hw with driven := true, receiveFrameAckDone := n } } :=
    fun _ _ ht => ht.hw (pwm_mk ..)
  rw [softFall]
  refine hnext _ _ _ ?_
  split
  · split
    · exact h.error hs .lowDrive
    · refine hsample _ ?_
      split
      · exact hack _ _ h
      · exact h
  · exact h

theorem timed_edge {s : Cec Soft} (h : Timed b s) (hs : Shortest Soft b) (level : Bool) : Timed b (softEdge s level) := by
  rw [softEdge]
  split
  · rw [softHold]
    split
    · exact h.error hs .noEom
    · exact h
  · split
    · rw [softRise]
      split
      · exact (h.hw (pwm_mk ..)).start
      · exact h
    · exact timed_fall h hs

theorem timed_recv {s : Cec Soft} (h : Timed b s) (hs : Shortest Soft b) (delta : Nat) (level : Bool) :
    Timed b (cecReceivePeriodic s delta level) := by
  have hcount : Timed b (softCount s delta) := h.hw (pwm_mk ..)
  have hsample : Timed b (softSample (softCount s delta) level) := by
    rw [softSample_eq]
    have hoff : Timed b (unsampled (softCount s delta)) := hcount.hw (pwm_mk ..)
    split
    · split
      · exact hoff.error hs .hw
      · exact hoff.bit hs level
    · exact hcount
  have hfloat : Timed b (softFloat (softSample (softCount s delta) level)) := by
    rw [softFloat]
    split
    · exact hsample.hw (pwm_mk ..)
    · exact hsample
  have hedge := timed_edge hfloat hs level
  rw [cecReceivePeriodic]
  generalize softEdge (softFloat (softSample (softCount s delta) level)) level = t at hedge
  exact hedge.hw (pwm_mk ..)

theorem xmitStart_parts (s : Cec Soft) : ∃ f g, xmitStart s = setPwm (cecTransmitStart (setPwm s f)) g :=
  ⟨_, _, xmitStart_eq s⟩

theorem start_parts (s : Cec Soft) (f g : Pwm → Pwm) :
    (setPwm (cecTransmitStart (setPwm s f)) g).build = s.build ∧
      (setPwm (cecTransmitStart (setPwm s f)) g).tx.needed = s.tx.needed ∧
      (setPwm (cecTransmitStart (setPwm s f)) g).log = .begin :: s.log := by
  refine ⟨rfl, ?_, rfl⟩
  change (cecTransmitStart (setPwm s f)).tx.needed = s.tx.needed
  rw [cecTransmitStart]
  dsimp only
  split <;> rfl

/-- The transmit driver's calls keep it too. -/
theorem keptXmit_timed (hs : Shortest Soft b) : KeptXmit (Timed b) where
  lost {s} h := ⟨keptTx_framed.error h.framed .arbLost, spaced_onError h.spaced (by rw [h.build]; exact hs) .arbLost,
    (sameReceive_onError s .arbLost).build.trans h.build⟩
  regs f h hx ht := ⟨(keptEngine_pwm (keptCalls_framed fetches).toKeptEngine).regs f h.framed hx ht,
    h.spaced.quiet rfl rfl rfl, h.build⟩
  end1 h hx := ⟨(keptEngine_pwm (keptCalls_framed fetches).toKeptEngine).end1 h.framed hx,
    h.spaced.quiet rfl rfl rfl, h.build⟩
  end2 h := ⟨(keptEngine_pwm (keptCalls_framed fetches).toKeptEngine).end2 h.framed, h.spaced.quiet rfl rfl rfl, h.build⟩
  fetch {s} h hb := by
    have hfetch : Spaced (cecTransmitGetBit s).1 := h.spaced.fetch h.framed hb rfl rfl rfl
    exact ⟨(keptEngine_pwm (keptCalls_framed fetches).toKeptEngine).fetch h.framed hb,
      hfetch.quiet rfl rfl rfl, h.build⟩
  begin {s} h hx hp := by
    obtain ⟨f, g, heq⟩ := xmitStart_parts s
    obtain ⟨hb, hn, hl⟩ := start_parts s f g
    have hspaced : Spaced (xmitStart s) := by
      rw [heq]
      exact h.spaced.begin h.framed hp hb hn hl
    exact ⟨(keptEngine_pwm (keptCalls_framed fetches).toKeptEngine).begin h.framed hx hp, hspaced,
      by rw [heq, hb]; exact h.build⟩

theorem timed_step {s : Cec Soft} (h : Timed b s) (hs : Shortest Soft b) (i : Step) : Timed b (step i s) := by
  have hframed := framed_step h.framed i
  have hbuild := (step_build s i).trans h.build
  refine ⟨hframed, ?_, hbuild⟩
  cases i with
  | recv delta level => exact (timed_recv h hs delta level).spaced
  | xmit delta level => exact (keptXmit_periodic (keptXmit_timed hs) h delta level).spaced
  | addr => exact h.spaced.addrPeriodic
  | overflow =>
    rw [step, timerOverflow]
    split
    · exact h.spaced.quiet rfl rfl rfl
    · exact h.spaced
  | app a => exact h.spaced.app a

theorem timed_run {b : Build} (hs : Shortest Soft b) (addr : Addr) (is : List Step) :
    Timed b (run step (initial b addr) is) := by
  have h0 : Timed b (initial b addr) := by
    have hlog : (initial b addr).log = [] := by rw [initial, cecInit, addrInit_log]; rfl
    have htx : (initial b addr).tx.needed = Driver.idleWait Soft b cecNewPeriodWait := by
      rw [initial, cecInit, addrInit_tx rfl]
      rfl
    have hb : (initial b addr).build = b := by rw [initial, cecInit, addrInit_build]; rfl
    refine ⟨framed_run b addr [], ⟨?_, by rw [hlog]; trivial⟩, hb⟩
    rw [hlog, htx, hb]
    exact Nat.le_refl _
  have hstep : ∀ (s : Cec Soft) (i : Step), Timed b s → Timed b (step i s) := fun s i h => timed_step h hs i
  exact invariant_run' hstep is h0

/-- The polls of the transmit driver in a run, newest first: the time since the one before, and the
    level read. -/
def xmits (is : List Step) : List (Nat × Bool) :=
  (is.filterMap fun | .xmit delta level => some (delta, level) | _ => none).reverse

/-- For how long the line has been high. -/
def highFor : List (Nat × Bool) → Nat
  | (delta, true) :: l => delta + highFor l
  | _ => 0

theorem cappedAdd_le (t d : Nat) : cappedAdd t d ≤ t + d := by
  rw [cappedAdd]
  split
  · exact Nat.le_refl _
  · omega

theorem high_le (build : Build) (addr : Addr) (is : List Step) :
    highTimer (run step (initial build addr) is) ≤ highFor (xmits is) := by
  induction is using List.reverseRecOn with
  | nil => exact Nat.le_of_eq (initial_timers build addr).2
  | append_singleton is i ih =>
    rw [run_concat]
    generalize run step (initial build addr) is = s at ih
    have hcounts : highTimer (step i s) ≤ highTimer s + i.xmitDelta := by
      rcases counts_high i s with h0 | hadd | ⟨hsame, -⟩
      · rw [h0]
        exact Nat.zero_le _
      · rw [hadd]
        exact cappedAdd_le _ _
      · rw [hsame]
        exact Nat.le_add_right _ _
    cases i with
    | xmit delta level =>
      have hnext : xmits (is ++ [.xmit delta level]) = (delta, level) :: xmits is := by simp [xmits]
      rw [hnext]
      cases level with
      | false =>
        have hzero := (xmit_timers s delta false).2
        exact (Nat.le_of_eq hzero).trans (Nat.zero_le _)
      | true =>
        change _ ≤ delta + highFor (xmits is)
        change _ ≤ highTimer s + delta at hcounts
        omega
    | _ =>
      refine hcounts.trans (ih.trans (Nat.le_of_eq ?_))
      simp [xmits]

/-- No attempt begins while the driver is busy with one. -/
theorem pwm_attempts (s : Cec Soft) : attempts (xmitPwmPeriodic s).told = attempts s.told := by
  have hset : ∀ (t : Cec Soft) (f : Pwm → Pwm), attempts (setPwm t f).told = attempts t.told := fun _ _ => rfl
  have hget : ∀ t : Cec Soft, attempts (cecTransmitGetBit t).1.told = attempts t.told := fun _ => rfl
  have hbit : ∀ t : Cec Soft, attempts (pwmNextBit t).told = attempts t.told := by
    intro t
    rw [pwmNextBit]
    exact (hset _ _).trans (hget t)
  rw [xmitPwmPeriodic]
  split
  · rfl
  · have ht : attempts (setPwm s fun p => { p with tov1 := false }).told = attempts s.told := rfl
    generalize (setPwm s fun p => { p with tov1 := false }) = t at ht
    dsimp only
    split
    · split
      · exact (keptTx_attempts (attempts s.told)).error ht .arbLost
      · exact (hbit _).trans ((hset _ _).trans ht)
    · exact (hbit t).trans ht
    · exact (hset _ _).trans ht
    · exact (hset _ _).trans ht
    all_goals exact ht

/-- An attempt begins in a poll of the transmit driver that finds the line high for long enough, from a
    state that has what the driver's calls keep. -/
theorem xmit_begins {P : Cec Soft → Prop} (hP : KeptXmit P) {s : Cec Soft} (hs : P s) {i : Step}
    (h : attempts (step i s).told ≠ attempts s.told) :
    ∃ delta u, i = .xmit delta true ∧ P u ∧ u.tx.needed ≤ highTimer u ∧ step i s = xmitStart u ∧
      attempts u.told = attempts s.told := by
  have hkept := keptTx_attempts (attempts s.told)
  cases i with
  | recv delta level => exact absurd (keptTx_recv hkept rfl delta level) h
  | addr => exact absurd (congrArg attempts (addrPeriodic_told s)) h
  | overflow =>
    refine absurd ?_ h
    rw [step, timerOverflow]
    split <;> rfl
  | app a => exact absurd (congrArg attempts (app_told s a)) h
  | xmit delta level =>
    have hfirst : attempts (if s.hw.pwm.xmitState ≠ .idle then xmitPwmPeriodic s else s).told = attempts s.told := by
      split
      · exact pwm_attempts s
      · rfl
    have ht : P (if s.hw.pwm.xmitState ≠ .idle then xmitPwmPeriodic s else s) := by
      split
      · exact keptXmit_pwm hP hs
      · exact hs
    rw [step, cecTransmitPeriodic] at h ⊢
    generalize (if s.hw.pwm.xmitState ≠ .idle then xmitPwmPeriodic s else s) = t at h hfirst ht ⊢
    cases level with
    | false => exact absurd hfirst h
    | true =>
      dsimp only at h ⊢
      rw [if_neg (by decide)] at h ⊢
      have hu : P (setPwm t fun p => { p with transmitHighTimer := cappedAdd p.transmitHighTimer delta }) :=
        hP.regs _ ht rfl rfl
      have htold : attempts (setPwm t fun p => { p with transmitHighTimer := cappedAdd p.transmitHighTimer delta }).told
          = attempts s.told := hfirst
      generalize (setPwm t fun p => { p with transmitHighTimer := cappedAdd p.transmitHighTimer delta }) = u
        at h hu htold ⊢
      split at h
      · exact absurd htold h
      · next hlong =>
        rw [if_neg hlong]
        split at h
        · next hc =>
          rw [if_pos hc]
          exact ⟨delta, u, rfl, hu, Nat.le_of_not_lt hlong, rfl, htold⟩
        · exact absurd htold h

theorem xmitStart_log (s : Cec Soft) : (xmitStart s).log = .begin :: s.log := by
  obtain ⟨f, g, heq⟩ := xmitStart_parts s
  rw [heq]
  exact (start_parts s f g).2.2

theorem begins {b : Build} (hs : Shortest Soft b) {s : Cec Soft} (ht : Timed b s) {i : Step}
    (h : attempts (step i s).told ≠ attempts s.told) :
    ∃ u, Timed b u ∧ u.tx.needed ≤ highTimer (step i s) ∧ beforeBegin (step i s).log = u.log := by
  obtain ⟨delta, u, -, hu, hlong, heq, -⟩ := xmit_begins (keptXmit_timed hs) ht h
  rw [heq, xmitStart_log]
  exact ⟨u, hu, (sameTimers_xmitStart u).2 ▸ hlong, rfl⟩

end Soft

/-- A wait of `n` is long enough for an attempt after the events `l`. -/
structure Waited (wait : Nat → Nat) (l : List Ev) (n : Nat) : Prop where
  least : wait cecPrevPeriodWait ≤ n
  asked : wait (idleWait l) ≤ n
  present : Echoed l → wait cecPresentPeriodWait ≤ n

theorem waited_of_spaced {D : Type} [Driver D] {s : Cec D} (h : Spaced s) (hs : Shortest D s.build) {n : Nat}
    (hn : s.tx.needed ≤ n) : Waited (Driver.idleWait D s.build) s.log n := by
  refine ⟨(h.shortest hs).trans hn, h.wait.trans hn, fun he => ?_⟩
  rw [← idleWait_echoed he h.ordered]
  exact h.wait.trans hn

/-- In every run of both builds an attempt begins only after the line has been high for as long as the
    events since the latest start bit or abort ask: in the USI build by the bytes read, in the soft
    build by the polls of the transmit driver, if the waits keep their order as 16-bit jiffies. -/
theorem signal_free_time (build : Build) (addr : Addr) :
    (∀ is i, let s := run Usi.step (Usi.initial build addr) is
      attempts (Usi.step i s).told ≠ attempts s.told →
        ∃ n, Waited (Driver.idleWait Usi build) (beforeBegin (Usi.step i s).log) n ∧
          Usi.High n (Usi.bytesRead (Usi.initial build addr) (is ++ [i]))) ∧
    (Shortest Soft build → ∀ is i, let s := run Soft.step (Soft.initial build addr) is
      attempts (Soft.step i s).told ≠ attempts s.told →
        Waited (Driver.idleWait Soft build) (beforeBegin (Soft.step i s).log) (Soft.highFor (Soft.xmits (is ++ [i])))) := by
  constructor
  · intro is i s h
    obtain ⟨others₁, others₂, rfl, ho, -, -, hlong, hlog⟩ := Usi.begins h
    have hfloat := Usi.keptTx_checkFloat Usi.keptTx_framed (Usi.framed_run build addr is) others₁
    have hd : Spaced (Usi.decoded (checkFloat s others₁)) :=
      Usi.spaced_decoded hfloat (Usi.spaced_checkFloat (Usi.spaced_run build addr is) others₁)
    refine ⟨(Usi.decoded (checkFloat s others₁)).hw.idleFrames, ?_, ?_⟩
    · rw [hlog]
      exact waited_of_spaced hd (Usi.shortest _) hlong
    · have hhigh := Usi.high_run build addr (is ++ [.poll others₁ others₂])
      rw [run_concat, Usi.step_idleFrames, if_pos ho] at hhigh
      exact hhigh
  · intro hs is i s h
    have ht := Soft.timed_run hs addr is
    have hhigh := Soft.high_le build addr (is ++ [i])
    rw [run_concat] at hhigh
    obtain ⟨u, hu, hlong, hlog⟩ := Soft.begins hs ht h
    have hw := waited_of_spaced hu.spaced (by rw [hu.build]; exact hs) (hlong.trans hhigh)
    rw [hu.build] at hw
    rw [hlog]
    exact hw

/-- A broadcast, and a ping right after it. -/
def backToBack : List Usi.Step :=
  .app (.send [0x4f, 0x36]) :: Usi.byteTimes 28 ++ .app (.send [0x45]) :: Usi.byteTimes 6 ++ List.replicate 8 (.tick false)

/-- A ping that is lost as its first bit is due, no start having been heard. -/
def lostPing : List Soft.Step :=
  [.app (.send [0x45]), .xmit 12000 true, .overflow, .xmit 200 false, .overflow, .xmit 200 true]

/-- Seven idle frames after a message of our own, and three after an attempt that failed. -/
theorem signal_free_time_next :
    (let s := run Usi.step (Usi.initial {} (.fixed 4)) backToBack
     idleWait (beforeBegin (Usi.step (.poll false false) s).log) = cecPresentPeriodWait ∧
      ∃ n, Waited (Driver.idleWait Usi {}) (beforeBegin (Usi.step (.poll false false) s).log) n ∧
        Usi.High n (Usi.bytesRead (Usi.initial {} (.fixed 4)) (backToBack ++ [.poll false false]))) ∧
    let s := run Soft.step (Soft.initial {} (.fixed 4)) lostPing
    idleWait (beforeBegin (Soft.step (.xmit 7000 true) s).log) = cecPrevPeriodWait ∧
      Waited (Driver.idleWait Soft {}) (beforeBegin (Soft.step (.xmit 7000 true) s).log)
        (Soft.highFor (Soft.xmits (lostPing ++ [.xmit 7000 true]))) := by
  obtain ⟨husi, hsoft⟩ := signal_free_time {} (.fixed 4)
  exact ⟨⟨by decide +kernel, husi backToBack (.poll false false) (by decide +kernel)⟩, by decide +kernel,
    hsoft (by decide +kernel) lostPing (.xmit 7000 true) (by decide +kernel)⟩

end AvrCec
