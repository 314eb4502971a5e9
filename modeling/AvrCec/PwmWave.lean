import AvrCec.FreeTime

/-! The cycles of Timer1 in an attempt.

    `cec_transmit_pwm.c` reprograms Timer1 one cycle ahead: what the poll after an overflow writes to
    OCR1B takes effect with the next overflow, and what it writes to OCR1C ends the cycle under way.
    `schedule` is the row of cycles that a message asks for. `At` places the driver in it, each poll
    that handles an overflow moves it on by one (`at_handled`), and nothing else does. So every attempt
    runs through its schedule in order until it is over or aborted (`attempt_cycles`), but for the start
    bit when an overflow was left unhandled before it began. -/

namespace AvrCec
open Lib

namespace Soft

/-! ### The schedule of a message -/

def bitTicks (b : Build) (bit : Bool) : Nat := ocr (usToCecJiffies b (if bit then cec1 else cec0))

/-- OCR1B at each overflow. The last cycle leaves the line high. -/
def lows (b : Build) (message : List Nat) : List Nat :=
  ocr (usToCecJiffies b cecStartLow) :: ((framing message).map (bitTicks b) ++ [0])

/-- OCR1C at each overflow, the top of the cycle that it ends. -/
def tops (b : Build) (message : List Nat) : List Nat :=
  let period := ocr (usToCecJiffies b cecStartHigh)
  period :: period :: List.replicate (10 * message.length) (ocr (usToCecJiffies b cecPeriod))

def schedule (b : Build) (message : List Nat) : List (Nat × Nat) := (lows b message).zip (tops b message)

theorem length_lows (b : Build) (message : List Nat) : (lows b message).length = 10 * message.length + 2 := by
  simp [lows]

theorem length_tops (b : Build) (message : List Nat) : (tops b message).length = 10 * message.length + 2 := by
  simp [tops]

theorem length_schedule (b : Build) (message : List Nat) :
    (schedule b message).length = 10 * message.length + 2 := by
  rw [schedule, List.length_zip, length_lows, length_tops, Nat.min_self]

theorem lows_bit (b : Build) (message : List Nat) {m : Nat} {bit : Bool} (h : (framing message)[m]? = some bit) :
    (lows b message)[m + 1]? = some (bitTicks b bit) := by
  have hlt : m < (framing message).length := (List.getElem?_eq_some_iff.mp h).1
  rw [lows, List.getElem?_cons_succ, List.getElem?_append_left (by rw [List.length_map]; exact hlt),
    List.getElem?_map, h]
  rfl

theorem lows_last (b : Build) (message : List Nat) : (lows b message)[10 * message.length + 1]? = some 0 := by
  rw [lows, List.getElem?_cons_succ, List.getElem?_append_right (by simp)]
  simp

theorem tops_start (b : Build) (message : List Nat) {m : Nat} (h : m < 2) :
    (tops b message)[m]? = some (ocr (usToCecJiffies b cecStartHigh)) := by
  rcases (by omega : m = 0 ∨ m = 1) with rfl | rfl <;> rfl

theorem tops_data (b : Build) (message : List Nat) {m : Nat} (h : 2 ≤ m) (hlt : m < 10 * message.length + 2) :
    (tops b message)[m]? = some (ocr (usToCecJiffies b cecPeriod)) := by
  obtain ⟨k, rfl⟩ := Nat.exists_eq_add_of_le' h
  rw [tops, List.getElem?_cons_succ, List.getElem?_cons_succ]
  exact List.getElem?_replicate_of_lt (by omega)

/-! ### The cycles of a run -/

/-- The cycle that an overflow begins and the top of the one it ends. -/
def cycle (s : Cec Soft) : Step → Option (Nat × Nat)
  | .overflow => if s.hw.pwm.tccr1 ≠ 0 then some (s.hw.pwm.ocr1b, s.hw.pwm.ocr1c) else none
  | _ => none

def cycles (s : Cec Soft) : List Step → List (Nat × Nat)
  | [] => []
  | i :: is => (cycle s i).toList ++ cycles (step i s) is

/-- An overflow finds that the one before it has been handled. -/
def Handled (s : Cec Soft) : Step → Prop
  | .overflow => s.hw.pwm.tccr1 ≠ 0 → s.hw.pwm.tov1 = false
  | _ => True

instance (s : Cec Soft) (i : Step) : Decidable (Handled s i) := by
  cases i <;> dsimp only [Handled] <;> infer_instance

/-! ### The driver in an attempt -/

/-- The state of the driver once it has handled `m` overflows. -/
def stateAt (message : List Nat) (m : Nat) : PwmState :=
  if m = 0 then .start
  else if m < 10 * message.length then .running
  else if m = 10 * message.length then .end1
  else if m = 10 * message.length + 1 then .end2
  else .idle

/-- The driver has handled `m` overflows of the attempt that sends `message`. -/
structure At (b : Build) (message : List Nat) (m : Nat) (s : Cec Soft) : Prop where
  state : s.hw.pwm.xmitState = stateAt message m
  clock : s.hw.pwm.tccr1 ≠ 0 ↔ m < 10 * message.length + 2
  low : m < 10 * message.length + 2 → (lows b message)[m]? = some s.hw.pwm.ocr1b
  top : m < 10 * message.length + 2 → (tops b message)[m]? = some s.hw.pwm.ocr1c
  bits : m < 10 * message.length → s.tx.message = message ∧ s.tx.Fetched ((framing message).take m)
  /-- All bits are out, and the last ack has not been heard. -/
  wait : 10 * message.length ≤ m → s.tx.state.busy → s.tx.message = message ∧ s.tx.Fetched (framing message)

variable {b : Build} {message : List Nat} {m : Nat} {s t : Cec Soft}

theorem At.cycle (h : At b message m s) (hm : m < 10 * message.length + 2) :
    (schedule b message)[m]? = some (s.hw.pwm.ocr1b, s.hw.pwm.ocr1c) :=
  List.getElem?_zip_eq_some.mpr ⟨h.low hm, h.top hm⟩

/-- Bits that are still to be fetched keep the engine busy. -/
theorem At.asked (h : At b message m s) (hm : m < 10 * message.length) :
    s.tx.state = .bitEom ∨ s.tx.state = .ack := by
  obtain ⟨hmsg, hfetch⟩ := h.bits hm
  have hlen : message.length = s.tx.bufEnd + 1 := by rw [← hmsg, length_message]
  refine hfetch.state.resolve_left fun hw => ?_
  have hwhole := congrArg List.length (hfetch.whole_iff.mpr hw)
  rw [List.length_take, length_framing, length_framing, hmsg] at hwhole
  omega

theorem At.congr (h : At b message m s) (hpwm : t.hw.pwm = s.hw.pwm)
    (htx : m < 10 * message.length ∨ t.tx.state.busy → t.tx = { s.tx with needed := t.tx.needed }) :
    At b message m t := by
  refine ⟨by rw [hpwm]; exact h.state, by rw [hpwm]; exact h.clock, by rw [hpwm]; exact h.low,
    by rw [hpwm]; exact h.top, fun hm => ?_, fun hm hb => ?_⟩
  · obtain ⟨hmsg, hf⟩ := h.bits hm
    rw [htx (.inl hm)]
    exact ⟨hmsg, hf.framed, hf.going, hf.done, hf.last, hf.delayed⟩
  · have heq := htx (.inr hb)
    rw [heq] at hb
    obtain ⟨hmsg, hf⟩ := h.wait hm hb
    rw [heq]
    exact ⟨hmsg, hf.framed, hf.going, hf.done, hf.last, hf.delayed⟩

/-- Unless an attempt begins or ends, the receive side and the address module leave the driver where it is. -/
def Stays (b : Build) (message : List Nat) (m : Nat) (c : Nat) (p : Pwm) (s : Cec Soft) : Prop :=
  c < episodes s.told ∨ episodes s.told = c ∧ At b message m s ∧ s.hw.pwm = p

theorem keptTx_stays (c : Nat) (p : Pwm) : KeptTx Soft.pwm (Stays b message m c p) where
  same {s t} h _ ht hv hl := by
    rw [Stays, hl]
    exact h.imp_right fun ⟨he, hat, hp⟩ => ⟨he, hat.congr hv fun _ => by rw [ht], hv.trans hp⟩
  nack := nackFrame_pwm
  needed n _ h := h.imp_right fun ⟨he, hat, hp⟩ => ⟨he, hat.congr rfl fun _ => rfl, hp⟩
  onError {s} err h hb := by
    left
    rw [onError_episodes hb err]
    rcases h with h | ⟨he, -, -⟩ <;> omega
  acked {s} h hw := by
    rw [cecTransmitReceiveAck, if_pos rfl, if_pos hw]
    refine h.imp_right fun ⟨he, hat, hp⟩ => ⟨he, hat.congr rfl fun hm => ?_, hp⟩
    rcases hm with hm | hb
    · rcases hat.asked hm with hs | hs <;> rw [hs] at hw <;> exact TransmitState.noConfusion hw
    · exact absurd hb (not_busy_idle rfl)

/-! ### One overflow handled -/

theorem nextBit_pwm (t : Cec Soft) : (pwmNextBit t).hw.pwm = { t.hw.pwm with
    ocr1b := bitTicks t.build (cecTransmitGetBit t).2
    xmitState := if (cecTransmitGetBit t).1.tx.state = .waitForAck then .end1 else .running } := rfl

theorem nextBit_tx (t : Cec Soft) : (pwmNextBit t).tx = (cecTransmitGetBit t).1.tx := rfl

/-- The cycle after the one that begins bit `m` of the framing. -/
theorem at_nextBit (hat : At b message m s) (hm : m < 10 * message.length) (hsize : s.tx.bufEnd < cecBufferSize)
    (htx : t.tx = s.tx) (hbuild : t.build = b) (hclock : t.hw.pwm.tccr1 = s.hw.pwm.tccr1)
    (htop : (tops b message)[m + 1]? = some t.hw.pwm.ocr1c) : At b message (m + 1) (pwmNextBit t) := by
  obtain ⟨hmsg, hfetch⟩ := hat.bits hm
  have hlen : message.length = s.tx.bufEnd + 1 := by rw [← hmsg, length_message]
  have hnext := getBit_fetched hfetch (hat.asked hm) (by unfold cecBufferSize at hsize; omega)
    (Driver.idleWait Soft t.build cecPresentPeriodWait)
  have hmessage := (getBit_message s.tx (Driver.idleWait Soft t.build cecPresentPeriodWait)).1
  have hget : cecTransmitGetBit t = ({ t.emit (.getBit (s.tx.getBit
      (Driver.idleWait Soft t.build cecPresentPeriodWait)).2.1 (s.tx.getBit
      (Driver.idleWait Soft t.build cecPresentPeriodWait)).2.2) with
      tx := (s.tx.getBit (Driver.idleWait Soft t.build cecPresentPeriodWait)).1 },
      (s.tx.getBit (Driver.idleWait Soft t.build cecPresentPeriodWait)).2.1) := by
    rw [cecTransmitGetBit, htx]
  generalize s.tx.getBit (Driver.idleWait Soft t.build cecPresentPeriodWait) = r at hnext hmessage hget
  -- the bit is that of the framing
  have hcount : ((framing message).take m).length = m := by
    rw [List.length_take, length_framing]
    omega
  have htake : (framing message).take m ++ [r.2.1] = (framing message).take (m + 1) := by
    have hpre := hnext.framed
    rw [hmessage, hmsg, List.prefix_iff_eq_take, List.length_append, hcount] at hpre
    exact hpre
  have hbit : (framing message)[m]? = some r.2.1 := by
    have hlast : ((framing message).take m ++ [r.2.1])[m]? = some r.2.1 := by
      rw [List.getElem?_append_right (Nat.le_of_eq hcount), hcount, Nat.sub_self]
      rfl
    rwa [htake, List.getElem?_take_of_lt (Nat.lt_succ_self m)] at hlast
  rw [htake] at hnext
  have hwhole : r.1.state = .waitForAck ↔ m + 1 = 10 * message.length := by
    rw [← hnext.whole_iff, hmessage, hmsg]
    constructor
    · intro heq
      have := congrArg List.length heq
      rw [List.length_take, length_framing] at this
      omega
    · intro heq
      rw [heq, ← length_framing, List.take_length]
  refine ⟨?_, ?_, fun _ => ?_, fun _ => ?_, fun _ => ?_, fun hlast _ => ?_⟩
  · have hstate : (pwmNextBit t).hw.pwm.xmitState = if r.1.state = .waitForAck then .end1 else .running := by
      rw [nextBit_pwm, hget]
    rw [hstate, stateAt, if_neg (Nat.succ_ne_zero m)]
    split
    · next hw =>
      have hlast := hwhole.mp hw
      rw [if_neg (by omega), if_pos hlast]
    · next hw =>
      have hmore := mt hwhole.mpr hw
      rw [if_pos (by omega)]
  · rw [nextBit_pwm]
    change t.hw.pwm.tccr1 ≠ 0 ↔ _
    rw [hclock, hat.clock]
    omega
  · rw [nextBit_pwm, hget, hbuild]
    exact lows_bit b message hbit
  · rw [nextBit_pwm]
    exact htop
  · rw [nextBit_tx, hget]
    exact ⟨hmessage.trans hmsg, hnext⟩
  · rw [List.take_of_length_le (by rw [length_framing]; exact hlast)] at hnext
    rw [nextBit_tx, hget]
    exact ⟨hmessage.trans hmsg, hnext⟩

/-- The flag is cleared before the overflow is handled. -/
def cleared (s : Cec Soft) : Cec Soft := setPwm s fun p => { p with tov1 := false }

theorem At.start (h : At b message m s) (hx : s.hw.pwm.xmitState = .start) : m = 0 := by
  rw [h.state, stateAt] at hx
  split at hx
  · assumption
  · repeat' split at hx
    all_goals exact PwmState.noConfusion hx

theorem At.running (h : At b message m s) (hx : s.hw.pwm.xmitState = .running) :
    m ≠ 0 ∧ m < 10 * message.length := by
  rw [h.state, stateAt] at hx
  split at hx
  · exact PwmState.noConfusion hx
  · next h0 =>
    split at hx
    · next hlt => exact ⟨h0, hlt⟩
    · repeat' split at hx
      all_goals exact PwmState.noConfusion hx

theorem At.end1 (h : At b message m s) (hx : s.hw.pwm.xmitState = .end1) : m = 10 * message.length := by
  rw [h.state, stateAt] at hx
  repeat' split at hx
  all_goals first
    | assumption
    | exact PwmState.noConfusion hx

theorem At.end2 (h : At b message m s) (hx : s.hw.pwm.xmitState = .end2) : m = 10 * message.length + 1 := by
  rw [h.state, stateAt] at hx
  repeat' split at hx
  all_goals first
    | assumption
    | exact PwmState.noConfusion hx

theorem At.idle (h : At b message m s) (hx : s.hw.pwm.xmitState = .idle) : 10 * message.length + 2 ≤ m := by
  rw [h.state, stateAt] at hx
  repeat' split at hx
  all_goals first
    | exact PwmState.noConfusion hx
    | omega

theorem At.not_done (h : At b message m s) : s.hw.pwm.xmitState ≠ .done := by
  intro hx
  rw [h.state, stateAt] at hx
  repeat' split at hx
  all_goals exact PwmState.noConfusion hx

/-- The period of the cycle under way. -/
def topped (s : Cec Soft) (n : Nat) : Cec Soft := setPwm s fun p => { p with ocr1c := n }

/-- What the last two overflows of an attempt do. -/
def trailed (s : Cec Soft) : Cec Soft := setPwm s fun p => { p with ocr1b := 0, xmitState := .end2 }

def halted (s : Cec Soft) : Cec Soft := setPwm s fun p => { p with tccr1 := 0, xmitState := .idle }

/-- An overflow handled, in the states of an attempt. -/
theorem pwmPeriodic_eq (htov : s.hw.pwm.tov1 = true) : xmitPwmPeriodic s =
    match s.hw.pwm.xmitState with
    | .running => if s.rx.flags = 0 then cecTransmitOnError (cleared s) .arbLost
      else pwmNextBit (topped (cleared s) (ocr (usToCecJiffies s.build cecPeriod)))
    | .start => pwmNextBit (cleared s)
    | .end1 => trailed (cleared s)
    | .end2 => halted (cleared s)
    | .idle | .done => cleared s := by
  have hcleared : setPwm s (fun p => { p with tov1 := false }) = cleared s := rfl
  have htopped : ∀ (t : Cec Soft) (n : Nat), setPwm t (fun p => { p with ocr1c := n }) = topped t n := fun _ _ => rfl
  have hstate : (cleared s).hw.pwm.xmitState = s.hw.pwm.xmitState := rfl
  have hbuild : (cleared s).build = s.build := rfl
  have hflags : (cleared s).rx.flags = s.rx.flags := rfl
  rw [xmitPwmPeriodic, htov, if_neg (by decide), hcleared]
  dsimp only
  rw [hstate, htopped, hbuild, hflags]
  cases s.hw.pwm.xmitState <;> rfl

/-- A poll that finds an overflow moves the driver on by one cycle. -/
theorem at_handled (h : At b message m s) (hne : message ≠ []) (hsize : s.tx.bufEnd < cecBufferSize)
    (hbuild : s.build = b) (hx : s.hw.pwm.xmitState ≠ .idle) (htov : s.hw.pwm.tov1 = true)
    (hgo : episodes (xmitPwmPeriodic s).told = episodes s.told) :
    At b message (m + 1) (xmitPwmPeriodic s) ∧ (xmitPwmPeriodic s).hw.pwm.tov1 = false := by
  have hpos : 0 < message.length := List.length_pos_iff.mpr hne
  have hnext : ∀ t : Cec Soft, (pwmNextBit t).hw.pwm.tov1 = t.hw.pwm.tov1 := fun _ => rfl
  rw [pwmPeriodic_eq htov] at hgo ⊢
  cases hp : s.hw.pwm.xmitState with
  | idle => exact absurd hp hx
  | done => exact absurd hp h.not_done
  | start =>
    obtain rfl := h.start hp
    have htop := h.top (by omega)
    rw [tops_start b message (by decide), ← tops_start b message (m := 0 + 1) (by decide)] at htop
    exact ⟨at_nextBit h (by omega) hsize rfl hbuild rfl htop, hnext _⟩
  | running =>
    obtain ⟨h0, hlt⟩ := h.running hp
    rw [hp] at hgo
    dsimp only at hgo ⊢
    have hbit : ∀ n, (tops b message)[m + 1]? = some n → At b message (m + 1) (pwmNextBit (topped (cleared s) n)) :=
      fun n hn => at_nextBit (t := topped (cleared s) n) h hlt hsize rfl hbuild rfl hn
    split at hgo
    · have hbusy : (cleared s).tx.state.busy := by
        change s.tx.state.busy
        rcases h.asked hlt with hs | hs <;> rw [hs] <;> decide
      have herr := onError_episodes hbusy .arbLost
      have htold : (cleared s).told = s.told := rfl
      rw [htold] at herr
      omega
    · next hf =>
      rw [if_neg hf]
      refine ⟨hbit _ ?_, hnext _⟩
      rw [hbuild]
      exact tops_data b message (by omega) (by omega)
  | end1 =>
    obtain rfl := h.end1 hp
    have htop := h.top (by omega)
    rw [tops_data b message (by omega) (by omega),
      ← tops_data b message (m := 10 * message.length + 1) (by omega) (by omega)] at htop
    have hstate : stateAt message (10 * message.length + 1) = .end2 := by
      rw [stateAt, if_neg (by omega), if_neg (by omega), if_neg (by omega), if_pos rfl]
    refine ⟨⟨hstate.symm, ?_, fun _ => lows_last b message, fun _ => htop, fun hm => ?_,
      fun _ hb => h.wait (Nat.le_refl _) hb⟩, rfl⟩
    · have hclock := h.clock
      change s.hw.pwm.tccr1 ≠ 0 ↔ _
      omega
    · omega
  | end2 =>
    obtain rfl := h.end2 hp
    have hstate : stateAt message (10 * message.length + 1 + 1) = .idle := by
      rw [stateAt, if_neg (by omega), if_neg (by omega), if_neg (by omega), if_neg (by omega)]
    refine ⟨⟨hstate.symm, ⟨fun hc => absurd rfl hc, fun hm => ?_⟩, fun hm => ?_, fun hm => ?_, fun hm => ?_,
      fun _ hb => h.wait (Nat.le_succ _) hb⟩, rfl⟩
    all_goals omega

/-! ### One step of a run -/

theorem begin_episodes (s : Cec Soft) : episodes (xmitStart s).told = episodes s.told + 1 := by
  have htold : (xmitStart s).told = .begin :: s.told := by
    rw [Cec.told, xmitStart_log]
    rfl
  rw [htold]
  simp [episodes, attempts, failures]
  omega

/-- What the log has of attempts is never lost. -/
theorem keptXmit_episodes (c : Nat) : KeptXmit fun s => c ≤ episodes s.told where
  lost {s} h := by
    by_cases hb : s.tx.state.busy
    · rw [onError_episodes hb]
      omega
    · rwa [cecTransmitOnError, if_neg hb]
  regs _ h _ _ := h
  end1 h _ := h
  end2 h := h
  fetch h _ := h
  begin {s} h _ _ := by
    rw [begin_episodes]
    omega

/-- The driver is left where it is, or moved on by the overflow that was waiting. -/
theorem at_xmit (h : At b message m s) (hne : message ≠ []) (hf : Framed Busy s) (hbuild : s.build = b)
    (delta : Nat) (level : Bool)
    (hgo : episodes (cecTransmitPeriodic s delta level).told = episodes s.told) :
    ∃ n, At b message n (cecTransmitPeriodic s delta level) ∧
      n + (cecTransmitPeriodic s delta level).hw.pwm.tov1.toNat = m + s.hw.pwm.tov1.toNat := by
  have hfirst : ∃ t, (if s.hw.pwm.xmitState ≠ .idle then xmitPwmPeriodic s else s) = t ∧
      episodes s.told ≤ episodes t.told ∧ (episodes t.told = episodes s.told →
        ∃ n, At b message n t ∧ n + t.hw.pwm.tov1.toNat = m + s.hw.pwm.tov1.toNat) := by
    refine ⟨_, rfl, ?_⟩
    split
    · next hx =>
      refine ⟨keptXmit_pwm (keptXmit_episodes _) (Nat.le_refl _), fun he => ?_⟩
      cases htov : s.hw.pwm.tov1 with
      | false =>
        have hsame : xmitPwmPeriodic s = s := by
          rw [xmitPwmPeriodic, htov]
          rfl
        rw [hsame, htov]
        exact ⟨m, h, rfl⟩
      | true =>
        obtain ⟨hat, hoff⟩ := at_handled h hne hf.size hbuild hx htov he
        exact ⟨m + 1, hat, by rw [hoff]; rfl⟩
    · exact ⟨Nat.le_refl _, fun _ => ⟨m, h, rfl⟩⟩
  obtain ⟨t, ht, hle, hnext⟩ := hfirst
  have htimer : ∀ (t : Cec Soft) (n k : Nat), At b message n t →
      At b message n (setPwm t fun p => { p with transmitHighTimer := k }) :=
    fun _ _ _ hat => ⟨hat.state, hat.clock, hat.low, hat.top, hat.bits, hat.wait⟩
  rw [cecTransmitPeriodic, ht] at hgo ⊢
  dsimp only at hgo ⊢
  cases level with
  | false =>
    obtain ⟨n, hat, hn⟩ := hnext hgo
    exact ⟨n, htimer t n 0 hat, hn⟩
  | true =>
    rw [if_neg (by decide)] at hgo ⊢
    have hcounted : setPwm t (fun p => { p with transmitHighTimer := cappedAdd p.transmitHighTimer delta })
        = setPwm t fun p => { p with transmitHighTimer := cappedAdd t.hw.pwm.transmitHighTimer delta } := rfl
    rw [hcounted] at hgo ⊢
    generalize cappedAdd t.hw.pwm.transmitHighTimer delta = k at hgo ⊢
    have htold : (setPwm t fun p => { p with transmitHighTimer := k }).told = t.told := rfl
    have htov : (setPwm t fun p => { p with transmitHighTimer := k }).hw.pwm.tov1 = t.hw.pwm.tov1 := rfl
    have hset := htimer t
    generalize hu : (setPwm t fun p => { p with transmitHighTimer := k }) = u at hgo htold htov ⊢
    have hkept : episodes u.told = episodes s.told → ∃ n, At b message n u ∧
        n + u.hw.pwm.tov1.toNat = m + s.hw.pwm.tov1.toNat := by
      rw [htold, htov]
      intro he
      obtain ⟨n, hat, hn⟩ := hnext he
      exact ⟨n, hu ▸ hset n k hat, hn⟩
    split at hgo
    · next hshort =>
      rw [if_pos hshort]
      exact hkept hgo
    · next hlong =>
      rw [if_neg hlong]
      split at hgo
      · rw [begin_episodes, htold] at hgo
        omega
      · next hc =>
        rw [if_neg hc]
        exact hkept hgo

theorem At.busy (h : At b message m s) (hm : m < 10 * message.length) : Busy s.hw := by
  rw [Busy, h.state, stateAt, if_pos hm]
  split
  · exact .inl rfl
  · exact .inr rfl

/-- A step that queues no message in an attempt, and leaves the driver alone. -/
theorem at_queues (h : At b message m s) (hq : Queues s t) (hhw : t.hw = s.hw) (ht : Framed Busy t) :
    At b message m t := by
  refine h.congr (by rw [hhw]) fun hm => ?_
  rcases hm with hm | hb
  · have hasks := ht.asks (hhw ▸ h.busy hm)
    rw [hq.tx (by rcases hasks with hs | hs <;> rw [hs] <;> exact TransmitState.noConfusion)]
  · rw [hq.tx (busy_ne_pend hb)]

/-- One step: what it adds to the cycles is the next of the schedule. -/
theorem at_step (h : At b message m s) (hne : message ≠ []) (hf : Framed Busy s) (hbuild : s.build = b) {i : Step}
    (hi : Handled s i) (hgo : episodes (step i s).told = episodes s.told) :
    ∃ n, At b message n (step i s) ∧
      n + (step i s).hw.pwm.tov1.toNat = m + s.hw.pwm.tov1.toNat + (cycle s i).toList.length ∧
      ∀ c ∈ cycle s i, (schedule b message)[m + s.hw.pwm.tov1.toNat]? = some c := by
  have hframed := framed_step hf i
  cases i with
  | recv delta level =>
    have hstays : Stays b message m (episodes s.told) s.hw.pwm s := .inr ⟨rfl, h, rfl⟩
    rcases keptTx_recv (keptTx_stays _ _) hstays delta level with hlt | ⟨-, hat, hp⟩
    · exact absurd hgo (Nat.ne_of_gt hlt)
    · refine ⟨m, hat, ?_, fun c hc => by simp [cycle] at hc⟩
      change m + (cecReceivePeriodic s delta level).hw.pwm.tov1.toNat = _
      rw [hp]
      rfl
  | xmit delta level =>
    obtain ⟨n, hat, hn⟩ := at_xmit h hne hf hbuild delta level hgo
    exact ⟨n, hat, hn, fun c hc => by simp [cycle] at hc⟩
  | addr =>
    have hhw : (step .addr s).hw = s.hw := Usi.addrPeriodic_hw s
    refine ⟨m, at_queues h (addrPeriodic_queues s) hhw hframed, ?_, fun c hc => by simp [cycle] at hc⟩
    rw [hhw]
    rfl
  | app a =>
    have hhw : (step (.app a) s).hw = s.hw := Usi.app_hw s a
    refine ⟨m, at_queues h (app_queues s a) hhw hframed, ?_, fun c hc => by simp [cycle] at hc⟩
    rw [hhw]
    rfl
  | overflow =>
    by_cases hrun : s.hw.pwm.tccr1 ≠ 0
    · have hoff : s.hw.pwm.tov1 = false := hi hrun
      have hcycle : cycle s .overflow = some (s.hw.pwm.ocr1b, s.hw.pwm.ocr1c) := if_pos hrun
      have hstep : step .overflow s = setPwm s fun p => { p with tov1 := true } := if_pos hrun
      rw [hcycle, hstep, hoff]
      refine ⟨m, ⟨h.state, h.clock, h.low, h.top, h.bits, h.wait⟩, rfl, fun c hc => ?_⟩
      rw [← Option.mem_some_iff.mp hc]
      exact h.cycle (h.clock.mp hrun)
    · have hcycle : cycle s .overflow = none := if_neg hrun
      have hstep : step .overflow s = s := if_neg hrun
      rw [hcycle, hstep]
      exact ⟨m, h, rfl, fun c hc => by simp at hc⟩

theorem episodes_le_step (s : Cec Soft) (i : Step) : episodes s.told ≤ episodes (step i s).told := by
  cases i with
  | recv delta level => exact keptTx_recv (keptTx_episodes nackFrame_pwm _) (Nat.le_refl _) delta level
  | xmit delta level => exact keptXmit_periodic (keptXmit_episodes _) (Nat.le_refl _) delta level
  | addr => exact Nat.le_of_eq (congrArg episodes (addrPeriodic_told s)).symm
  | overflow =>
    rw [step, timerOverflow]
    split <;> exact Nat.le_refl _
  | app a => exact Nat.le_of_eq (congrArg episodes (app_told s a)).symm

theorem episodes_le_run (s : Cec Soft) (is : List Step) : episodes s.told ≤ episodes (run step s is).told := by
  have hstep : ∀ (t : Cec Soft) (i : Step), episodes s.told ≤ episodes t.told → episodes s.told ≤ episodes (step i t).told :=
    fun t i h => h.trans (episodes_le_step t i)
  exact invariant_run' hstep is (Nat.le_refl _)

/-- The cycles of the rest of an attempt. -/
theorem at_run (h : At b message m s) (hne : message ≠ []) (hf : Framed Busy s) (hbuild : s.build = b)
    {is : List Step} (hi : Along Handled step s is) (hgo : episodes (run step s is).told = episodes s.told) :
    ∃ n, At b message n (run step s is) ∧
      n + (run step s is).hw.pwm.tov1.toNat = m + s.hw.pwm.tov1.toNat + (cycles s is).length ∧
      cycles s is <+: (schedule b message).drop (m + s.hw.pwm.tov1.toNat) := by
  induction is generalizing s m with
  | nil => exact ⟨m, h, rfl, List.nil_prefix⟩
  | cons i is ih =>
    have hstep : episodes (step i s).told = episodes s.told :=
      Nat.le_antisymm ((episodes_le_run (step i s) is).trans (Nat.le_of_eq hgo)) (episodes_le_step s i)
    obtain ⟨n, hat, hn, hc⟩ := at_step h hne hf hbuild hi.1 hstep
    obtain ⟨k, hlast, hk, hpre⟩ := ih hat (framed_step hf i) ((step_build s i).trans hbuild) hi.2
      (by rw [hstep]; exact hgo)
    refine ⟨k, hlast, ?_, ?_⟩
    · rw [cycles, List.length_append, ← Nat.add_assoc, ← hn]
      exact hk
    · rw [hn] at hpre
      rw [cycles]
      cases hx : cycle s i with
      | none => rwa [hx] at hpre
      | some x =>
        rw [hx] at hpre hc
        have hget := hc x rfl
        obtain ⟨hlt, hval⟩ := List.getElem?_eq_some_iff.mp hget
        rw [List.drop_eq_getElem_cons hlt, hval]
        exact List.prefix_cons_inj _ |>.mpr hpre

/-! ### Attempts -/

theorem keptXmit_build (b : Build) : KeptXmit fun s => s.build = b where
  lost {s} h := (sameReceive_onError s .arbLost).build.trans h
  regs _ h _ _ := h
  end1 h _ := h
  end2 h := h
  fetch h _ := h
  begin h _ _ := h

/-- The registers of a start bit. -/
def loaded (s : Cec Soft) (period low val : Nat) : Cec Soft :=
  setPwm (cecTransmitStart (setPwm s (startFrame period low))) fun p => { p with tccr1 := val }

theorem at_loaded (s : Cec Soft) {period low val : Nat} (hval : val ≠ 0)
    (htop : (tops b (loaded s period low val).tx.message)[0]? = some period)
    (hlow : (lows b (loaded s period low val).tx.message)[0]? = some low) :
    At b (loaded s period low val).tx.message 0 (loaded s period low val) := by
  have hstate : (loaded s period low val).hw.pwm.xmitState = .start := rfl
  have hclock : (loaded s period low val).hw.pwm.tccr1 = val := rfl
  have hpos : 0 < (loaded s period low val).tx.message.length := by
    rw [length_message]
    exact Nat.succ_pos _
  refine ⟨hstate.trans (if_pos rfl).symm, ?_, fun _ => hlow, fun _ => htop, fun _ => ⟨rfl, ?_⟩, fun hm => ?_⟩
  · rw [hclock]
    exact ⟨fun _ => Nat.succ_pos _, fun _ => hval⟩
  · rw [List.take_zero]
    exact fetched_start _ rfl rfl rfl
  · omega

theorem at_xmitStart (h : s.build = b) : At b (xmitStart s).tx.message 0 (xmitStart s) := by
  have heq : xmitStart s = loaded s (ocr (usToCecJiffies s.build cecStartHigh)) (ocr (usToCecJiffies s.build cecStartLow))
      (tcnt1PrescalerVal s.build) := xmitStart_eq s
  have hval : tcnt1PrescalerVal s.build ≠ 0 := Nat.succ_ne_zero _
  rw [heq, h]
  rw [h] at hval
  exact at_loaded s hval rfl rfl

/-- An attempt that has just begun. -/
theorem at_begin (hs : s.build = b) {i : Step}
    (h : attempts (step i s).told ≠ attempts s.told) : At b (step i s).tx.message 0 (step i s) := by
  obtain ⟨-, u, -, hu, -, heq, -⟩ := xmit_begins (keptXmit_build b) hs h
  rw [heq]
  exact at_xmitStart hu

theorem run_build (build : Build) (addr : Addr) (is : List Step) : (run step (initial build addr) is).build = build := by
  have h0 : (initial build addr).build = build := by rw [initial, cecInit, addrInit_build]; rfl
  have hstep : ∀ (s : Cec Soft) (i : Step), s.build = build → (step i s).build = build :=
    fun s i h => (step_build s i).trans h
  exact invariant_run' hstep is h0

/-- The cycles from the beginning of an attempt on. -/
theorem begun_cycles (hbuild : s.build = b) (hf : Framed Busy s) {i : Step} {js : List Step}
    (hbegin : attempts (step i s).told ≠ attempts s.told) (hjs : Along Handled step (step i s) js)
    (hgo : episodes (run step (step i s) js).told = episodes (step i s).told) :
    cycles (step i s) js <+: (schedule b (step i s).tx.message).drop (step i s).hw.pwm.tov1.toNat ∧
      ((run step (step i s) js).hw.pwm.tccr1 = 0 →
        cycles (step i s) js = (schedule b (step i s).tx.message).drop (step i s).hw.pwm.tov1.toNat) := by
  have hat : At b (step i s).tx.message 0 (step i s) := at_begin hbuild hbegin
  have hframed : Framed Busy (step i s) := framed_step hf i
  have hb : (step i s).build = b := (step_build s i).trans hbuild
  generalize step i s = u at hat hframed hb hjs hgo ⊢
  have hne : u.tx.message ≠ [] := by
    rw [← List.length_pos_iff, length_message]
    exact Nat.succ_pos _
  obtain ⟨n, hlast, hn, hpre⟩ := at_run hat hne hframed hb hjs hgo
  rw [Nat.zero_add] at hn hpre
  refine ⟨hpre, fun hstop => ?_⟩
  have hend : 10 * u.tx.message.length + 2 ≤ n := Nat.le_of_not_lt fun hlt => hlast.clock.mpr hlt hstop
  refine hpre.eq_of_length_le ?_
  rw [List.length_drop, length_schedule]
  omega

/-- In every run the cycles of an attempt are those of its message, in order, until another attempt
    begins or this one is aborted, and they are all there when the clock stops. An overflow that was
    left unhandled before the attempt began costs it the start bit. -/
theorem attempt_cycles (build : Build) (addr : Addr) (is : List Step) (i : Step) (js : List Step) :
    let s := run step (initial build addr) is
    let u := step i s
    let v := run step u js
    attempts u.told ≠ attempts s.told → Along Handled step u js → episodes v.told = episodes u.told →
      cycles u js <+: (schedule build u.tx.message).drop u.hw.pwm.tov1.toNat ∧
        (v.hw.pwm.tccr1 = 0 → cycles u js = (schedule build u.tx.message).drop u.hw.pwm.tov1.toNat) := by
  intro s u v hbegin hjs hgo
  exact begun_cycles (run_build build addr is) (framed_run build addr is) hbegin hjs hgo

/-- The polls of a start bit and of a bit, as the echo of either is heard, after an overflow each. -/
def startPolls : List Step :=
  [.overflow, .recv 200 false, .xmit 200 false, .recv 3500 false, .recv 200 true, .recv 600 true]

def bitPolls (bit : Bool) : List Step :=
  [.overflow, .recv 200 false, .xmit 200 false, .recv 600 bit, .recv 300 bit, .recv 600 true, .recv 700 true]

/-- A ping of address 5 that another device acks. -/
theorem attempt_cycles_ping :
    let u := run step (initial {} (.fixed 4)) [.app (.send [0x45]), .recv 6000 true, .xmit 6000 true, .xmit 7000 true]
    let js := startPolls ++ [false, true, false, false, false, true, false, true, false, false].flatMap bitPolls ++
      [.overflow, .xmit 200 true]
    cycles u js = schedule {} [0x45] := by
  intro u js
  exact (attempt_cycles {} (.fixed 4) [.app (.send [0x45]), .recv 6000 true, .xmit 6000 true] (.xmit 7000 true) js
    (by decide +kernel) (by decide +kernel) (by decide +kernel)).2 (by decide +kernel)

end Soft
end AvrCec
