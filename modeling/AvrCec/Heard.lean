import AvrCec.Framing
import AvrCec.Delivery

/-! What a driver makes the receive engine hear.

    A driver reaches the receive engine through three calls: a start, a bit, an error (`Heard`). A byte
    decoded is the list of the calls the decoder makes for it (`ticks_hear`), so what a byte does to
    the engines is a matter of that list alone. While an attempt goes on, a reception that is open
    stays open unless it is completed under the transmitter's feet (`open_iff`). -/

namespace AvrCec
open Lib

/-- A call of the receive engine. -/
inductive Heard where
  | start
  | bit (level : Bool)
  | error (err : Err)
  deriving DecidableEq, Repr

section
variable {D : Type} [Driver D]

def Cec.hear (s : Cec D) : Heard → Cec D
  | .start => cecReceiveStart s
  | .bit level => cecReceiveBit s level
  | .error err => cecReceiveError s err

def Cec.hearAll (s : Cec D) (cs : List Heard) : Cec D := cs.foldl Cec.hear s

@[simp] theorem hearAll_nil (s : Cec D) : s.hearAll [] = s := rfl

@[simp] theorem hearAll_cons (s : Cec D) (c : Heard) (cs : List Heard) :
    s.hearAll (c :: cs) = (s.hear c).hearAll cs := rfl

theorem hearAll_append (s : Cec D) (cs ds : List Heard) :
    s.hearAll (cs ++ ds) = (s.hearAll cs).hearAll ds := List.foldl_append

/-- Bits are heard in a reception only. -/
def Sound (s : Cec D) : List Heard → Prop
  | [] => True
  | c :: cs => (∀ b, c = .bit b → s.rx.flags ≠ 0) ∧ Sound (s.hear c) cs

theorem sound_append {s : Cec D} {cs ds : List Heard} (hc : Sound s cs) (hd : Sound (s.hearAll cs) ds) :
    Sound s (cs ++ ds) := by
  induction cs generalizing s with
  | nil => exact hd
  | cons c cs ih => exact ⟨hc.1, ih hc.2 hd⟩

/-! ### The receive side -/

theorem delivers_hear {s : Cec D} (h : Delivers s) {c : Heard} (hc : ∀ b, c = .bit b → s.rx.flags ≠ 0) :
    Delivers (s.hear c) := by
  cases c with
  | start => exact kept_delivers.start h
  | bit b => exact delivers_bit h (hc b rfl) b
  | error err => exact kept_delivers.error err h

/-! ### The transmit side -/

section
variable {X : Type} {view : D → X} {P : Cec D → Prop}

theorem KeptTx.hear (hP : KeptTx view P) {s : Cec D} (hs : P s) (c : Heard) : P (s.hear c) := by
  cases c with
  | start => exact hP.receiveStart hs
  | bit b => exact hP.receiveBit hs b
  | error err => exact hP.receiveError hs err

theorem KeptTx.hearAll (hP : KeptTx view P) {s : Cec D} (hs : P s) (cs : List Heard) : P (s.hearAll cs) := by
  induction cs generalizing s with
  | nil => exact hs
  | cons c cs ih => exact ih (hP.hear hs c)

end

/-- An error leaves no attempt under way. -/
theorem onError_free (s : Cec D) (err : Err) : ¬ (cecTransmitOnError s err).tx.state.busy := by
  by_cases hb : s.tx.state.busy
  · obtain ⟨state, needed, hs, -, htx⟩ := onError_charged hb err
    rw [htx]
    change ¬ state.busy
    rcases hs with rfl | rfl <;> decide
  · rwa [cecTransmitOnError, if_neg hb]

theorem receiveError_free {s : Cec D} (h0 : s.rx.flags ≠ 0) (err : Err) :
    ¬ (cecReceiveError s err).tx.state.busy := by
  rw [cecReceiveError, if_neg h0]
  exact onError_free _ err

/-- Either the attempt has ended, or nothing has happened to it. -/
def Unended (u t : Cec D) : Prop :=
  ¬ t.tx.state.busy ∨ t.tx.state = u.tx.state ∧ t.told = u.told ∧ t.tx.lastBit = u.tx.lastBit

theorem keptTx_unended (u : Cec D) : KeptTx (fun _ : D => ()) (Unended u) where
  same h _ ht _ hl := by
    rw [Unended, ht, hl]
    exact h
  nack _ _ := rfl
  needed _ _ h := h
  onError {s} err _ _ := .inl (onError_free s err)
  acked {s} _ hw := by
    refine .inl ?_
    rw [cecTransmitReceiveAck, if_pos rfl, if_pos hw]
    exact not_busy_idle rfl

/-- Calls in an attempt that goes on. -/
theorem hearAll_busy {s : Cec D} {cs : List Heard} (hb : (s.hearAll cs).tx.state.busy) :
    (s.hearAll cs).tx.state = s.tx.state ∧ (s.hearAll cs).told = s.told ∧
      (s.hearAll cs).tx.lastBit = s.tx.lastBit :=
  ((keptTx_unended s).hearAll (.inr ⟨rfl, rfl, rfl⟩) cs).resolve_left fun h => h hb

theorem hear_busy {s : Cec D} {c : Heard} (hb : (s.hear c).tx.state.busy) :
    (s.hear c).tx.state = s.tx.state ∧ (s.hear c).told = s.told ∧ (s.hear c).tx.lastBit = s.tx.lastBit :=
  @hearAll_busy _ _ _ [c] hb

/-! ### Open receptions in an attempt -/

/-- A positive ack bit after an EOM bit, which completes the reception while the transmitter still has
    bits to send. -/
def Completes (s : Cec D) : Heard → Prop
  | .bit b => s.rx.flags.bitsEom = false ∧ s.rx.flags.eom = true ∧ s.rx.flags.ack b = true ∧
      (s.tx.state = .bitEom ∨ s.tx.state = .ack)
  | _ => False

instance (s : Cec D) (c : Heard) : Decidable (Completes s c) := by
  cases c <;> dsimp only [Completes] <;> infer_instance

/-- One of the calls does. -/
def Outruns (s : Cec D) : List Heard → Prop
  | [] => False
  | c :: cs => Completes s c ∨ Outruns (s.hear c) cs

instance decidableOutruns : (cs : List Heard) → (s : Cec D) → Decidable (Outruns s cs)
  | [], _ => .isFalse id
  | c :: cs, s => @instDecidableOr _ _ inferInstance (decidableOutruns cs (s.hear c))

/-- A bit leaves a reception open when the attempt goes on. -/
theorem receiveBit_open {s : Cec D} (h : Delivers s) (h0 : s.rx.flags ≠ 0) {b : Bool}
    (hno : ¬ Completes s (.bit b)) (hb : (cecReceiveBit s b).tx.state.busy) : (cecReceiveBit s b).rx.flags ≠ 0 := by
  obtain ⟨bits, buf₀, -, ht⟩ := h.opened h0
  by_cases h9 : phase bits = 9
  · have heom : s.rx.flags.bitsEom = false := by rw [ht.bitsEom, h9]; rfl
    cases hends : s.rx.ends b with
    | false => exact (tracks_next ht h9 hends).flags_ne
    | true =>
      exfalso
      -- the last ack: the attempt has ended, or has been outrun
      have htx : (cecReceiveBit s b).tx = (cecTransmitReceiveAck (s.emit (.bit b)) (s.rx.flags.ack b)).tx := by
        rw [(sameTransmit_receiveBit s b).tx, heardByTransmit, if_neg (by rw [heom]; decide)]
      rw [htx] at hb
      cases hack : s.rx.flags.ack b with
      | false =>
        rw [hack] at hb
        exact onError_free _ _ hb
      | true =>
        rw [hack, cecTransmitReceiveAck, if_pos rfl] at hb
        have he : s.rx.flags.eom = true := by
          rw [Receive.ends, hack] at hends
          exact hends
        split at hb
        · exact not_busy_idle rfl hb
        · next hw =>
          refine hno ⟨heom, he, hack, ?_⟩
          change ¬ s.tx.state = .waitForAck at hw
          change s.tx.state.busy at hb
          cases hst : s.tx.state with
          | bitEom => exact .inl rfl
          | ack => exact .inr rfl
          | waitForAck => exact absurd hst hw
          | _ => rw [hst] at hb; exact absurd hb (by decide)
  · exact (tracks_data ht h9 b).flags_ne

/-- In an attempt that goes on and is not outrun, a reception is open after some calls if it was open
    before them or one of them was a start. -/
theorem open_iff {s : Cec D} (h : Delivers s) {cs : List Heard} (hc : Sound s cs) (hno : ¬ Outruns s cs)
    (hb : (s.hearAll cs).tx.state.busy) :
    (s.hearAll cs).rx.flags ≠ 0 ↔ s.rx.flags ≠ 0 ∨ .start ∈ cs := by
  induction cs generalizing s with
  | nil => simp
  | cons c cs ih =>
    obtain ⟨hno₁, hno₂⟩ := not_or.mp hno
    have hb₁ : (s.hear c).tx.state.busy := by
      have := (@hearAll_busy _ _ _ cs hb).1
      rwa [hearAll_cons, this] at hb
    have hone : (s.hear c).rx.flags ≠ 0 ↔ s.rx.flags ≠ 0 ∨ c = .start := by
      cases c with
      | start => exact ⟨fun _ => .inr rfl, fun _ => by change ({ active := true, bitsEom := true } : Flags) ≠ 0; decide⟩
      | bit b =>
        have h0 := hc.1 b rfl
        exact ⟨fun _ => .inl h0, fun _ => receiveBit_open h h0 hno₁ hb₁⟩
      | error err =>
        by_cases h0 : s.rx.flags = 0
        · have hsame : s.hear (.error err) = s := receiveError_zero h0 err
          rw [hsame]
          exact ⟨.inl, fun ho => ho.resolve_right Heard.noConfusion⟩
        · exact absurd hb₁ (receiveError_free h0 err)
    rw [hearAll_cons, ih (delivers_hear h hc.1) hc.2 hno₂ hb, hone, List.mem_cons, or_assoc]
    simp only [eq_comm]

end

/-! ### The calls of a byte -/

namespace Usi

def Call.heard : Call → List Heard
  | .none => []
  | .start => [.start]
  | .error err => [.error err]

theorem call_heard (s : Cec Usi) (c : Call) : s.call c = s.hearAll (Call.heard c) := by
  cases c <;> rfl

/-- The calls of a tick that sees the level `b`. -/
def tickCalls (s : Cec Usi) (b : Bool) : List Heard :=
  let d := s.hw.dec.count
  if d.sampling then .bit b :: Call.heard ((d.after (cecReceiveBit s b).rx.flags).edge b).2
  else Call.heard (d.edge b).2

def byteCalls (s : Cec Usi) : List Bool → List Heard
  | [] => []
  | b :: l => tickCalls s b ++ byteCalls (cecProcessTick s b) l

theorem hear_withDec (s : Cec Usi) (d : Decoder) (c : Heard) :
    (withDec s d).hear c = withDec (s.hear c) d := by
  cases c with
  | start => rfl
  | bit b => exact receiveBit_withDec s d b
  | error err => exact receiveError_withDec s d err

theorem hearAll_withDec (s : Cec Usi) (d : Decoder) (cs : List Heard) :
    (withDec s d).hearAll cs = withDec (s.hearAll cs) d := by
  induction cs generalizing s with
  | nil => rfl
  | cons c cs ih => rw [hearAll_cons, hearAll_cons, hear_withDec, ih]

theorem sound_withDec {s t : Cec Usi} {d : Decoder} (ht : t = withDec s d) {cs : List Heard} (h : Sound t cs) :
    Sound s cs := by
  induction cs generalizing s t with
  | nil => trivial
  | cons c cs ih =>
    subst ht
    exact ⟨h.1, ih (hear_withDec s d c) h.2⟩

theorem tick_hear (s : Cec Usi) (b : Bool) :
    cecProcessTick s b = withDec (s.hearAll (tickCalls s b)) (cecProcessTick s b).hw.dec := by
  rw [processTick_eq, tickCalls]
  dsimp only
  split
  · rw [hearAll_cons, call_heard]
    rfl
  · rw [call_heard]
    rfl

/-- What decoding does to the engines. -/
theorem ticks_hear (s : Cec Usi) (l : List Bool) :
    l.foldl cecProcessTick s = withDec (s.hearAll (byteCalls s l)) (l.foldl cecProcessTick s).hw.dec := by
  induction l generalizing s with
  | nil => rfl
  | cons b l ih =>
    have htick := tick_hear s b
    have hcalls : (cecProcessTick s b).hearAll (byteCalls (cecProcessTick s b) l)
        = withDec (s.hearAll (byteCalls s (b :: l))) (cecProcessTick s b).hw.dec := by
      rw [byteCalls, hearAll_append, ← hearAll_withDec, ← htick]
    rw [List.foldl_cons, ih (cecProcessTick s b), hcalls, withDec_withDec]
    rfl

theorem tick_sound {s : Cec Usi} (h : Synced s) (b : Bool) : Sound s (tickCalls s b) := by
  have hcall : ∀ (t : Cec Usi) (c : Call), Sound t (Call.heard c) := by
    intro t c
    cases c with
    | none => trivial
    | start => exact ⟨fun _ he => Heard.noConfusion he, trivial⟩
    | error err => exact ⟨fun _ he => Heard.noConfusion he, trivial⟩
  rw [tickCalls]
  split
  · next hs => exact ⟨fun _ _ => h hs.1, hcall ..⟩
  · exact hcall ..

theorem byte_sound {s : Cec Usi} (h : Tracked Delivers s) (l : List Bool) : Sound s (byteCalls s l) := by
  induction l generalizing s with
  | nil => trivial
  | cons b l ih =>
    have hnext := tracked_tick kept_delivers (fun t b hne ht => delivers_bit ht hne b) h b
    exact sound_append (tick_sound h.synced b) (sound_withDec (tick_hear s b) (ih hnext))

end Usi

end AvrCec
