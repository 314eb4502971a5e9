import AvrCec.Framing

/-! The search for a logical address, `cec_addr_dev_type.c`.

    While it has no address, the module shares the transmit interface with nobody: at every return of
    `cec_periodic` a poll is pending or under way, so the application's turn finds the interface taken
    and the receive buffer empty. `Search` runs the module against engines that do anything the
    transmit interface allows (`Turn`); both builds are such runs (`usi_search`, `soft_search`). The
    index into the table is one byte, so the results are for tables of up to 255 addresses. -/

namespace AvrCec
open Lib

section
variable {D : Type}

/-- What the engines may do between two calls of the address module: a message at rest stays. -/
structure Turn (s t : Cec D) : Prop where
  addr : t.addr = s.addr
  buf : t.tx.buf = s.tx.buf
  rest : s.tx.state.val < TransmitState.pend.val → t.tx.state = s.tx.state

/-- What happens during the search: the engines' part of `cec_periodic`, the address module's part,
    which ends it, the hardware, and the application. -/
inductive Input (D : Type) where
  | engines (t : Cec D)
  | addr
  | clock (u : D)
  | app (a : App)

/-- A search: whether the last thing to run was a whole `cec_periodic`, the polls queued and the
    results read so far, oldest first; `true` for an acked poll. -/
structure Search (D : Type) where
  cec : Cec D
  returned : Bool
  polls : List Nat
  results : List Bool

def cecDevIdx : Addr → Nat
  | .devType _ _ cecDevIdx => cecDevIdx
  | _ => 0

/-- `logical_address` of the module. -/
def logicalAddress : Addr → Nat
  | .devType _ logicalAddress _ => logicalAddress
  | _ => 0xff

/-- The poll a call of the module queued, if any. -/
def polled (s t : Cec D) : List Nat := if cecDevIdx t.addr ≠ cecDevIdx s.addr then [t.tx.buf 0] else []

/-- What the module reads in the transmit state of a poll it has queued. -/
def result (s : Cec D) : List Bool :=
  if cecAddrReady s.addr ∨ cecDevIdx s.addr = 0 then []
  else if s.tx.state = .idle then [true]
  else if s.tx.state = .failed then [false]
  else []

def Search.step : Input D → Search D → Search D
  | .engines t, w => { w with cec := t, returned := false }
  | .addr, w => {
      cec := cecAddrPeriodic w.cec
      returned := true
      polls := w.polls ++ polled w.cec (cecAddrPeriodic w.cec)
      results := w.results ++ result w.cec }
  | .clock u, w => { w with cec := { w.cec with hw := u } }
  | .app a, w => { w with cec := a.step w.cec }

/-- The engines keep to the transmit interface, and the application has its turn after a return of
    `cec_periodic` only. -/
def Search.Allowed (w : Search D) : Input D → Prop
  | .engines t => Turn w.cec t
  | .app _ => w.returned = true
  | _ => True

def Search.start (s : Cec D) : Search D := ⟨s, false, [], []⟩

/-- The address assigned: the first whose poll failed, or the unregistered one when all were acked. -/
def Assigned (table : List Nat) (results : List Bool) (address : Nat) : Prop :=
  (∃ k, ∃ h : k < table.length, results = List.replicate k true ++ [false] ∧ address = table[k] &&& 0xf) ∨
    results = List.replicate table.length true ∧ address = cecAddrUnregistered

/-- The search excludes the application, polls the table in order, each address at most once, and
    finds the first free address. -/
structure Search.Correct (table : List Nat) (w : Search D) : Prop where
  exclusive : w.returned = true → cecAddrReady w.cec.addr = false →
    TransmitState.pend.val ≤ w.cec.tx.state.val ∧ w.cec.header = 0
  inOrder : w.polls = table.take w.polls.length
  index : cecDevIdx w.cec.addr = w.polls.length
  assigned : cecAddrReady w.cec.addr = true → Assigned table w.results (logicalAddress w.cec.addr)

/-! ### The invariant of the search -/

/-- The poll of `table[k]` waits, or has its result, which has not been read. -/
structure Polling (table : List Nat) (k : Nat) (w : Search D) : Prop where
  lt : k < table.length
  addr : w.cec.addr = .devType table 0xff (k + 1)
  buf : w.cec.tx.buf 0 = table[k]
  polls : w.polls = table.take (k + 1)
  results : w.results = List.replicate k true
  exclusive : w.returned = true → TransmitState.pend.val ≤ w.cec.tx.state.val ∧ w.cec.header = 0

/-- The stages of the search. -/
inductive Stage (table : List Nat) (w : Search D) : Prop
  /-- Nothing has been polled. -/
  | fresh (addr : w.cec.addr = .devType table 0xff 0) (idle : w.cec.tx.state = .idle) (polls : w.polls = [])
      (results : w.results = []) (returned : w.returned = false)
  | polling (k : Nat) (h : Polling table k w)
  /-- The search is over. -/
  | ready (address n : Nat) (addr : w.cec.addr = .devType table address n) (hn : n ≤ table.length)
      (hne : address ≠ 0xff) (polls : w.polls = table.take n) (assigned : Assigned table w.results address)

variable {table : List Nat} {w : Search D}

theorem Stage.correct (h : Stage table w) : w.Correct table := by
  cases h with
  | fresh addr idle polls results returned =>
    refine ⟨fun hr => ?_, by rw [polls]; rfl, by rw [addr, polls]; rfl, fun hr => ?_⟩
    · rw [returned] at hr; exact Bool.noConfusion hr
    · rw [addr] at hr; exact Bool.noConfusion hr
  | polling k h =>
    have hlen : w.polls.length = k + 1 := by
      rw [h.polls, List.length_take]
      have := h.lt
      omega
    refine ⟨fun hr _ => h.exclusive hr, by rw [hlen]; exact h.polls, by rw [h.addr, hlen]; rfl, fun hr => ?_⟩
    rw [h.addr] at hr
    exact Bool.noConfusion hr
  | ready address n addr hn hne polls assigned =>
    have hlen : w.polls.length = n := by rw [polls, List.length_take]; omega
    refine ⟨fun _ hr => ?_, by rw [hlen]; exact polls, by rw [addr, hlen]; rfl, fun _ => by rw [addr]; exact assigned⟩
    rw [addr] at hr
    exact absurd (by simpa [cecAddrReady] using hr) hne

/-! ### One step of the search -/

theorem turn_stage (h : Stage table w) {t : Cec D} (ht : Turn w.cec t) :
    Stage table (Search.step (.engines t) w) := by
  cases h with
  | fresh addr idle polls results returned =>
    refine .fresh (ht.addr.trans addr) ((ht.rest ?_).trans idle) polls results rfl
    rw [idle]
    decide
  | polling k h =>
    exact .polling k ⟨h.lt, ht.addr.trans h.addr, (congrFun ht.buf 0).trans h.buf, h.polls, h.results,
      fun hr => Bool.noConfusion hr⟩
  | ready address n addr hn hne polls assigned =>
    exact .ready address n (ht.addr.trans addr) hn hne polls assigned

theorem clock_stage (h : Stage table w) (u : D) : Stage table (Search.step (.clock u) w) := by
  cases h with
  | fresh addr idle polls results returned => exact .fresh addr idle polls results returned
  | polling k h => exact .polling k ⟨h.lt, h.addr, h.buf, h.polls, h.results, h.exclusive⟩
  | ready address n addr hn hne polls assigned => exact .ready address n addr hn hne polls assigned

theorem app_addr {s : Cec D} {table : List Nat} {address n : Nat} (h : s.addr = .devType table address n) (a : App) :
    (a.step s).addr = .devType table address n := by
  cases a with
  | clear => exact h
  | send message =>
    rw [App.step]
    split <;> exact h
  | assign m =>
    rw [App.step, h]
    exact h

/-- The application's turn: during the search it finds the interface taken and nothing to read. -/
theorem app_stage (h : Stage table w) (hr : w.returned = true) (a : App) :
    Stage table (Search.step (.app a) w) := by
  cases h with
  | fresh addr idle polls results returned =>
    rw [returned] at hr
    exact Bool.noConfusion hr
  | polling k h =>
    obtain ⟨hbusy, hheader⟩ := h.exclusive hr
    have htx : (a.step w.cec).tx = w.cec.tx := by
      cases a with
      | clear => rfl
      | send message =>
        rw [App.step, if_neg]
        exact fun hc => absurd hc.1 (Nat.not_lt.mpr hbusy)
      | assign m =>
        rw [App.step]
        split <;> rfl
    have hkept : (a.step w.cec).header = 0 := by
      cases a with
      | clear => exact Function.update_self ..
      | send message =>
        rw [App.step, if_neg]
        · exact hheader
        · exact fun hc => absurd hc.1 (Nat.not_lt.mpr hbusy)
      | assign m =>
        rw [App.step]
        split <;> exact hheader
    refine .polling k ⟨h.lt, app_addr h.addr a, ?_, h.polls, h.results, fun _ => ⟨?_, hkept⟩⟩
    · rw [Search.step, htx]; exact h.buf
    · rw [Search.step, htx]; exact hbusy
  | ready address n addr hn hne polls assigned =>
    exact .ready address n (app_addr addr a) hn hne polls assigned

theorem polled_eq {s t : Cec D} {l : List Nat} {a b k m : Nat} (hs : s.addr = .devType l a k)
    (ht : t.addr = .devType l b m) : polled s t = if m ≠ k then [t.tx.buf 0] else [] := by
  rw [polled, hs, ht]
  rfl

/-- A call of the module that queues the next poll. -/
theorem addr_queues {s : Cec D} {k : Nat} (hlt : k < table.length) (hlen : table.length < 256)
    (haddr : s.addr = .devType table 0xff k) (hidle : s.tx.state = .idle) :
    (cecAddrPeriodic s).addr = .devType table 0xff (k + 1) ∧ (cecAddrPeriodic s).tx.buf 0 = table[k] ∧
      TransmitState.pend.val ≤ (cecAddrPeriodic s).tx.state.val ∧ (cecAddrPeriodic s).header = 0 := by
  have hnot : ¬ cecAddrReady s.addr = true := by rw [haddr]; exact Bool.false_ne_true
  have hmod : (k + 1) % 256 = k + 1 := Nat.mod_eq_of_lt (by omega)
  have hget : table.getD k 0 = table[k] := by
    rw [List.getD_eq_getElem?_getD, List.getElem?_eq_getElem hlt]
    rfl
  rw [cecAddrPeriodic, haddr]
  rw [haddr] at hnot
  dsimp only
  rw [if_neg hnot, if_pos (show (clearHeader s).tx.state = .idle from hidle), if_neg (Nat.ne_of_lt hlt), hmod, hget]
  refine ⟨rfl, ?_, Nat.le_refl 2, Function.update_self ..⟩
  change Function.update s.tx.buf 0 table[k] 0 = table[k]
  exact Function.update_self ..

/-- A call of the module before an address is assigned. -/
theorem addr_stage (h : Stage table w) (hlen : table.length < 256) : Stage table (Search.step .addr w) := by
  -- the module is done with the table, or queues the next poll
  have hnext : ∀ k, w.cec.addr = .devType table 0xff k → w.cec.tx.state = .idle → k ≤ table.length →
      w.polls = table.take k → w.results ++ result w.cec = List.replicate k true →
      Stage table (Search.step .addr w) := by
    intro k haddr hidle hk hpolls hresults
    rcases Nat.lt_or_eq_of_le hk with hlt | heq
    · obtain ⟨ha, hbuf, hbusy, hheader⟩ := addr_queues hlt hlen haddr hidle
      have hpolled : polled w.cec (cecAddrPeriodic w.cec) = [table[k]] := by
        rw [polled_eq haddr ha, if_pos (Nat.succ_ne_self k), hbuf]
      refine .polling k ⟨hlt, ha, hbuf, ?_, hresults, fun _ => ⟨hbusy, hheader⟩⟩
      change w.polls ++ polled w.cec (cecAddrPeriodic w.cec) = _
      rw [hpolled, hpolls, List.take_add_one, List.getElem?_eq_getElem hlt]
      rfl
    · have ha : (cecAddrPeriodic w.cec).addr = .devType table cecAddrUnregistered k := by
        rw [cecAddrPeriodic, haddr]
        dsimp only
        rw [if_neg (show ¬ cecAddrReady (.devType table 0xff k) = true from Bool.false_ne_true),
          if_pos (show (clearHeader w.cec).tx.state = .idle from hidle), if_pos heq]
      have hpolled : polled w.cec (cecAddrPeriodic w.cec) = [] := by
        rw [polled_eq haddr ha, if_neg (fun hne => hne rfl)]
      refine .ready cecAddrUnregistered k ha hk (by decide) ?_ (.inr ⟨?_, rfl⟩)
      · change w.polls ++ polled w.cec (cecAddrPeriodic w.cec) = _
        rw [hpolled, List.append_nil, hpolls]
      · rw [← heq]; exact hresults
  cases h with
  | fresh addr idle polls results returned =>
    refine hnext 0 addr idle (Nat.zero_le _) polls ?_
    rw [results, result, addr, if_pos (.inr rfl)]
    rfl
  | polling k h =>
    have hready : ¬ (cecAddrReady w.cec.addr = true ∨ cecDevIdx w.cec.addr = 0) := by
      rw [h.addr]
      rintro (hr | hz)
      · exact Bool.noConfusion hr
      · exact Nat.succ_ne_zero k hz
    by_cases hidle : w.cec.tx.state = .idle
    · refine hnext (k + 1) h.addr hidle h.lt h.polls ?_
      rw [result, if_neg hready, if_pos hidle, h.results]
      exact List.replicate_succ'.symm
    · have hnot : ¬ cecAddrReady (.devType table 0xff (k + 1)) = true := Bool.false_ne_true
      have hclear : ¬ (clearHeader w.cec).tx.state = .idle := hidle
      have hlt := h.lt
      by_cases hfailed : w.cec.tx.state = .failed
      · -- the poll of `table[k]` has failed: the address is free
        have ha : (cecAddrPeriodic w.cec).addr = .devType table (table[k] &&& 0xf) (k + 1) := by
          rw [cecAddrPeriodic, h.addr]
          dsimp only
          rw [if_neg hnot, if_neg hclear, if_pos (show (clearHeader w.cec).tx.state = .failed from hfailed), ← h.buf]
          rfl
        have hle : table[k] &&& 0xf < 2 ^ 4 := Nat.and_lt_two_pow _ (by decide)
        refine .ready (table[k] &&& 0xf) (k + 1) ha h.lt (by omega) ?_ (.inl ⟨k, h.lt, ?_, rfl⟩)
        · rw [Search.step, polled_eq h.addr ha, if_neg (fun hne => hne rfl), List.append_nil]
          exact h.polls
        · rw [Search.step, result, if_neg hready, if_neg hidle, if_pos hfailed, h.results]
      · have hsame : cecAddrPeriodic w.cec = clearHeader w.cec := by
          rw [cecAddrPeriodic, h.addr]
          dsimp only
          rw [if_neg hnot, if_neg hclear, if_neg (show ¬ (clearHeader w.cec).tx.state = .failed from hfailed)]
        have ha : (clearHeader w.cec).addr = .devType table 0xff (k + 1) := h.addr
        have hbusy : TransmitState.pend.val ≤ w.cec.tx.state.val := by
          cases hst : w.cec.tx.state with
          | idle => exact absurd hst hidle
          | failed => exact absurd hst hfailed
          | _ => decide
        refine .polling k ⟨h.lt, ?_, ?_, ?_, ?_, fun _ => ?_⟩
        · rw [Search.step, hsame]; exact ha
        · rw [Search.step, hsame]; exact h.buf
        · rw [Search.step, hsame, polled_eq h.addr ha, if_neg (fun hne => hne rfl), List.append_nil]
          exact h.polls
        · rw [Search.step, result, if_neg hready, if_neg hidle, if_neg hfailed, List.append_nil]
          exact h.results
        · rw [Search.step, hsame]
          exact ⟨hbusy, Function.update_self ..⟩
  | ready address n addr hn hne polls assigned =>
    have hready : cecAddrReady w.cec.addr = true := by
      rw [addr]
      simpa [cecAddrReady] using hne
    have hsame : cecAddrPeriodic w.cec = w.cec := by
      rw [addr] at hready
      rw [cecAddrPeriodic, addr]
      exact if_pos hready
    refine .ready address n ?_ hn hne ?_ ?_
    · rw [Search.step, hsame]; exact addr
    · rw [Search.step, hsame, polled, if_neg (fun hne => hne rfl), List.append_nil]; exact polls
    · rw [Search.step, result, if_pos (.inl hready), List.append_nil]; exact assigned

theorem search_step (hlen : table.length < 256) (h : Stage table w) {i : Input D} (hi : w.Allowed i) :
    Stage table (Search.step i w) := by
  cases i with
  | engines t => exact turn_stage h hi
  | addr => exact addr_stage h hlen
  | clock u => exact clock_stage h u
  | app a => exact app_stage h hi a

/-- The rule for searches. -/
theorem search_run (hlen : table.length < 256) {s : Cec D} (haddr : s.addr = .devType table 0xff 0)
    (hidle : s.tx.state = .idle) {ins : List (Input D)}
    (h : Along Search.Allowed Search.step (Search.start s) ins) :
    (run Search.step (Search.start s) ins).Correct table := by
  have hstep : ∀ (v : Search D) (i : Input D), Stage table v → v.Allowed i → Stage table (Search.step i v) :=
    fun _ _ hv hi => search_step hlen hv hi
  have hstart : Stage table (Search.start s) := .fresh haddr hidle rfl rfl rfl
  exact (invariant_run hstep hstart h).correct

end

/-! ### Both builds search -/

/-- What a step of a build is to the search. -/
inductive Kind where
  | engines
  | returns
  | hardware
  | app
  deriving DecidableEq

/-- Whether `cec_periodic` has returned last. -/
def Kind.after : Kind → Bool → Bool
  | .engines, _ => false
  | .returns, _ => true
  | _, returned => returned

section
variable {D I : Type}

/-- The application has its turn after a return of `cec_periodic` only. -/
def Orderly (kind : I → Kind) : Bool → List I → Prop
  | _, [] => True
  | returned, i :: is => (kind i = .app → returned = true) ∧ Orderly kind ((kind i).after returned) is

instance decidableOrderly (kind : I → Kind) : (r : Bool) → (is : List I) → Decidable (Orderly kind r is)
  | _, [] => .isTrue trivial
  | r, i :: is => @instDecidableAnd _ _ inferInstance (decidableOrderly kind ((kind i).after r) is)

/-- A run of a build as a search. -/
def inputs (embed : Cec D → I → List (Input D)) (step : I → Cec D → Cec D) (s : Cec D) : List I → List (Input D)
  | [] => []
  | i :: is => embed s i ++ inputs embed step (step i s) is

/-- The run is a search that ends in the same state. -/
def Searches (embed : Cec D → I → List (Input D)) (step : I → Cec D → Cec D) (s : Cec D) (is : List I) : Prop :=
  Along Search.Allowed Search.step (Search.start s) (inputs embed step s is) ∧
    (run Search.step (Search.start s) (inputs embed step s is)).cec = run step s is

variable {embed : Cec D → I → List (Input D)} {step : I → Cec D → Cec D} {kind : I → Kind} {Inv : Cec D → Prop}

theorem searches_of_step
    (hstep : ∀ (w : Search D) i, Inv w.cec → (kind i = .app → w.returned = true) →
      Along Search.Allowed Search.step w (embed w.cec i) ∧
        (run Search.step w (embed w.cec i)).cec = step i w.cec ∧
        (run Search.step w (embed w.cec i)).returned = (kind i).after w.returned)
    (hinv : ∀ s i, Inv s → Inv (step i s)) {s : Cec D} (hs : Inv s) {is : List I} (his : Orderly kind false is) :
    Searches embed step s is := by
  have hgen : ∀ (is : List I) (w : Search D), Inv w.cec → Orderly kind w.returned is →
      Along Search.Allowed Search.step w (inputs embed step w.cec is) ∧
        (run Search.step w (inputs embed step w.cec is)).cec = run step w.cec is := by
    intro is
    induction is with
    | nil => exact fun w _ _ => ⟨trivial, rfl⟩
    | cons i is ih =>
      intro w hw ⟨happ, hrest⟩
      obtain ⟨halong, hcec, hret⟩ := hstep w i hw happ
      have hnext := ih (run Search.step w (embed w.cec i)) (hcec ▸ hinv _ i hw) (hret ▸ hrest)
      rw [hcec] at hnext
      rw [inputs, along_append, run_append]
      exact ⟨⟨halong, hnext.1⟩, hnext.2⟩
  exact hgen is (Search.start s) hs his

variable [Driver D] {act : D → Prop}

/-- What the engines leave of the transmit interface, since `u`. -/
def AtRest (act : D → Prop) (u s : Cec D) : Prop :=
  Framed act s ∧ s.tx.buf = u.tx.buf ∧
    (u.tx.state.val < TransmitState.pend.val → s.tx.state = u.tx.state)

theorem not_busy_of_lt {t : TransmitState} (h : t.val < TransmitState.pend.val) : ¬ t.busy ∧ ¬ t.pending := by
  cases t with
  | idle => decide
  | failed => decide
  | _ => exact absurd h (by decide)

theorem getBit_buf (t : Transmit) (present : Nat) : (t.getBit present).1.buf = t.buf := by
  rw [Transmit.getBit]
  dsimp only
  repeat' split
  all_goals rfl

theorem keptEngine_atRest {X : Type} {view : D → X} (hf : Fetches view act) (u : Cec D) :
    KeptEngine act (AtRest act u) where
  quiet {s t} h ht ha hl := by
    obtain ⟨hframed, hbuf, hrest⟩ := h
    refine ⟨(keptCalls_framed hf).quiet hframed ht ha hl, ?_, fun hlt => ?_⟩
    · rw [ht]; exact hbuf
    · rw [ht]; exact hrest hlt
  onError {s} err h hb := by
    obtain ⟨hframed, hbuf, hrest⟩ := h
    refine ⟨(keptCalls_framed hf).onError err hframed hb, ?_, fun hlt => ?_⟩
    · obtain ⟨state, needed, -, -, htx⟩ := onError_charged hb err
      rw [htx]; exact hbuf
    · exact absurd hb (hrest hlt ▸ (not_busy_of_lt hlt).1)
  acked {s} h hw := by
    obtain ⟨hframed, hbuf, hrest⟩ := h
    refine ⟨(keptCalls_framed hf).acked hframed hw, ?_, fun hlt => ?_⟩
    · rw [cecTransmitReceiveAck, if_pos rfl, if_pos hw]; exact hbuf
    · exact absurd (by rw [hw]; decide) (hrest hlt ▸ (not_busy_of_lt hlt).1)
  begin {s t} h hp ha ht hl := by
    obtain ⟨hframed, hbuf, hrest⟩ := h
    refine ⟨(keptCalls_framed hf).begin hframed hp ha ht hl, ?_, fun hlt => ?_⟩
    · rw [ht]
      change (if s.tx.state = .pend then _ else _ : Transmit).buf = _
      split <;> exact hbuf
    · exact absurd hp (hrest hlt ▸ (not_busy_of_lt hlt).2)
  fetch {s t} h ha ht hl hnext := by
    obtain ⟨hframed, hbuf, hrest⟩ := h
    refine ⟨(keptCalls_framed hf).fetch hframed ha ht hl hnext, ?_, fun hlt => ?_⟩
    · rw [ht]; exact (getBit_buf ..).trans hbuf
    · have hbusy : s.tx.state.busy := by
        rcases hframed.asks ha with hs | hs <;> rw [hs] <;> decide
      exact absurd hbusy (hrest hlt ▸ (not_busy_of_lt hlt).1)

theorem keptTx_addr {X : Type} {view : D → X} (hf : Fetches view act) (a : Addr) :
    KeptTx view fun s : Cec D => s.addr = a where
  same h ha _ _ _ := ha.trans h
  nack := hf.nack
  needed _ _ h := h
  onError {s} err h _ := (sameReceive_onError s err).addr.trans h
  acked {s} h _ := (sameReceive_receiveAck s true).addr.trans h

end

namespace Usi

def kind : Step → Kind
  | .tick _ => .hardware
  | .poll .. => .returns
  | .app _ => .app

def embed (s : Cec Usi) : Step → List (Input Usi)
  | .tick others => [.clock (s.hw.clock others)]
  | .poll others₁ others₂ => [.engines (cecReceivePeriodic s others₁ others₂), .addr]
  | .app a => [.app a]

theorem nextBit_addr (s : Cec Usi) : (cecUsiNextBit s).1.addr = s.addr := by
  rw [cecUsiNextBit]
  split
  · split <;> rfl
  · rfl
  · rfl

theorem turn_poll {s : Cec Usi} (h : Framed Busy s) (others₁ others₂ : Bool) :
    Turn s (cecReceivePeriodic s others₁ others₂) := by
  have hrest : AtRest Busy s (cecReceivePeriodic s others₁ others₂) :=
    keptEngine_poll (keptEngine_atRest fetches s) ⟨h, rfl, fun _ => rfl⟩ others₁ others₂
  have haddr : (cecReceivePeriodic s others₁ others₂).addr = s.addr :=
    keptTx_poll (keptTx_addr fetches s.addr) (fun {t} ht => (nextBit_addr t).trans ht) rfl others₁ others₂
  exact ⟨haddr, hrest.2.1, hrest.2.2⟩

theorem searches {s : Cec Usi} (h : Framed Busy s) {is : List Step} (his : Orderly kind false is) :
    Searches embed step s is := by
  refine searches_of_step (fun w i (hw : Framed Busy w.cec) happ => ?_) (fun t i ht => ?_) h his
  · cases i with
    | tick others => exact ⟨⟨trivial, trivial⟩, rfl, rfl⟩
    | poll others₁ others₂ => exact ⟨⟨turn_poll hw others₁ others₂, trivial, trivial⟩, rfl, rfl⟩
    | app a => exact ⟨⟨happ rfl, trivial⟩, rfl, rfl⟩
  · exact framed_step ht i

end Usi

namespace Soft

def kind : Step → Kind
  | .recv .. | .xmit .. => .engines
  | .addr => .returns
  | .overflow => .hardware
  | .app _ => .app

def embed (s : Cec Soft) : Step → List (Input Soft)
  | .recv delta level => [.engines (cecReceivePeriodic s delta level)]
  | .xmit delta level => [.engines (cecTransmitPeriodic s delta level)]
  | .addr => [.addr]
  | .overflow => [.clock (timerOverflow s).hw]
  | .app a => [.app a]

theorem keptPwm_addr (a : Addr) : KeptPwm fun s : Cec Soft => s.addr = a where
  toKeptTx := keptTx_addr fetches a
  regs _ h _ _ := h
  end1 h _ := h
  end2 h := h
  fetch h _ := h
  begin h _ _ := h

theorem turn_recv {s : Cec Soft} (h : Framed Busy s) (delta : Nat) (level : Bool) :
    Turn s (cecReceivePeriodic s delta level) := by
  have hrest : AtRest Busy s (cecReceivePeriodic s delta level) :=
    keptTx_recv ((keptEngine_atRest fetches s).keptTx fetches) ⟨h, rfl, fun _ => rfl⟩ delta level
  have haddr : (cecReceivePeriodic s delta level).addr = s.addr :=
    keptTx_recv (keptTx_addr fetches s.addr) rfl delta level
  exact ⟨haddr, hrest.2.1, hrest.2.2⟩

theorem turn_xmit {s : Cec Soft} (h : Framed Busy s) (delta : Nat) (level : Bool) :
    Turn s (cecTransmitPeriodic s delta level) := by
  have hrest : AtRest Busy s (cecTransmitPeriodic s delta level) :=
    keptXmit_periodic (keptEngine_pwm (keptEngine_atRest fetches s)).toKeptXmit ⟨h, rfl, fun _ => rfl⟩ delta level
  have haddr : (cecTransmitPeriodic s delta level).addr = s.addr :=
    keptXmit_periodic (keptPwm_addr s.addr).toKeptXmit rfl delta level
  exact ⟨haddr, hrest.2.1, hrest.2.2⟩

/-- An overflow of Timer1 is the hardware's. -/
theorem timerOverflow_eq (s : Cec Soft) : timerOverflow s = { s with hw := (timerOverflow s).hw } := by
  rw [timerOverflow]
  split <;> rfl

theorem searches {s : Cec Soft} (h : Framed Busy s) {is : List Step} (his : Orderly kind false is) :
    Searches embed step s is := by
  refine searches_of_step (fun w i (hw : Framed Busy w.cec) happ => ?_) (fun t i ht => ?_) h his
  · cases i with
    | recv delta level => exact ⟨⟨turn_recv hw delta level, trivial⟩, rfl, rfl⟩
    | xmit delta level => exact ⟨⟨turn_xmit hw delta level, trivial⟩, rfl, rfl⟩
    | addr => exact ⟨⟨trivial, trivial⟩, rfl, rfl⟩
    | overflow => exact ⟨⟨trivial, trivial⟩, (timerOverflow_eq w.cec).symm, rfl⟩
    | app a => exact ⟨⟨happ rfl, trivial⟩, rfl, rfl⟩
  · exact framed_step ht i

end Soft

/-! ### Tables that are too long -/

section
variable {D : Type}

/-- The poll under way is acked. -/
def acked (s : Cec D) : Cec D := { s with tx := { s.tx with state := .idle } }

/-- `n` calls of `cec_periodic`, each of which finds the last poll acked. -/
def ackedPolls (s : Cec D) : Nat → List (Input D)
  | 0 => []
  | n + 1 => .addr :: .engines (acked (cecAddrPeriodic s)) :: ackedPolls (acked (cecAddrPeriodic s)) n

/-- A table of 256 addresses is never done with: the index starts over. -/
theorem ackedPolls_wrap {table : List Nat} (hlen : table.length = 256) (n : Nat) :
    ∀ (w : Search D) (k : Nat), k < 256 → w.cec.addr = .devType table 0xff k → w.cec.tx.state = .idle →
      Along Search.Allowed Search.step w (ackedPolls w.cec n) ∧
        (run Search.step w (ackedPolls w.cec n)).polls.length = w.polls.length + n := by
  induction n with
  | zero => exact fun w k _ _ _ => ⟨trivial, rfl⟩
  | succ n ih =>
    intro w k hk haddr hidle
    have hnot : ¬ cecAddrReady (.devType table 0xff k) = true := Bool.false_ne_true
    have hclear : (clearHeader w.cec).tx.state = .idle := hidle
    have hne : ¬ k = table.length := by omega
    have ha : (cecAddrPeriodic w.cec).addr = .devType table 0xff ((k + 1) % 256) := by
      rw [cecAddrPeriodic, haddr]
      dsimp only
      rw [if_neg hnot, if_pos hclear, if_neg hne]
    have hpend : (cecAddrPeriodic w.cec).tx.state = .pend := by
      rw [cecAddrPeriodic, haddr]
      dsimp only
      rw [if_neg hnot, if_pos hclear, if_neg hne]
      rfl
    have hturn : Turn (cecAddrPeriodic w.cec) (acked (cecAddrPeriodic w.cec)) := by
      refine ⟨rfl, rfl, fun hlt => ?_⟩
      rw [hpend] at hlt
      exact absurd hlt (by decide)
    have hpolled : (polled w.cec (cecAddrPeriodic w.cec)).length = 1 := by
      rw [polled_eq haddr ha, if_pos (show (k + 1) % 256 ≠ k by omega)]
      rfl
    let v := run Search.step w [.addr, .engines (acked (cecAddrPeriodic w.cec))]
    obtain ⟨halong, hcount⟩ := ih v ((k + 1) % 256) (Nat.mod_lt _ (by decide)) ha rfl
    refine ⟨⟨trivial, hturn, halong⟩, hcount.trans ?_⟩
    have hlen : v.polls.length = w.polls.length + (polled w.cec (cecAddrPeriodic w.cec)).length :=
      List.length_append
    rw [hlen, hpolled]
    omega

end

/-! ### The results -/

/-- Until an address is assigned, the application finds the transmit interface taken and nothing to
    read at every return of `cec_periodic`; the polls run through the table in order, each address at
    most once, and the first whose poll fails is taken. This holds of every search, and the orderly
    runs of both builds are searches. -/
theorem address_search (table : List Nat) (hlen : table.length ≤ 255) :
    (∀ (D : Type) (s : Cec D), s.addr = .devType table 0xff 0 → s.tx.state = .idle → ∀ ins,
      Along Search.Allowed Search.step (Search.start s) ins →
        (run Search.step (Search.start s) ins).Correct table) ∧
    (∀ build is, Orderly Usi.kind false is →
      let s := Usi.initial build (.devType table 0 0)
      Searches Usi.embed Usi.step s is ∧
        (run Search.step (Search.start s) (inputs Usi.embed Usi.step s is)).Correct table) ∧
    ∀ build is, Orderly Soft.kind false is →
      let s := Soft.initial build (.devType table 0 0)
      Searches Soft.embed Soft.step s is ∧
        (run Search.step (Search.start s) (inputs Soft.embed Soft.step s is)).Correct table := by
  have hlt : table.length < 256 := Nat.lt_succ_of_le hlen
  refine ⟨fun D s ha hs ins h => search_run hlt ha hs h, fun build is his => ?_, fun build is his => ?_⟩
  · have h := Usi.searches (Usi.framed_run build (.devType table 0 0) []) his
    exact ⟨h, search_run hlt rfl rfl h.1⟩
  · have h := Soft.searches (Soft.framed_run build (.devType table 0 0) []) his
    exact ⟨h, search_run hlt rfl rfl h.1⟩

/-- A playback device on a quiet line. -/
theorem address_search_playback :
    (run Search.step (Search.start (Usi.initial {} (.devType [0x44, 0x88, 0xbb] 0 0)))
      (inputs Usi.embed Usi.step (Usi.initial {} (.devType [0x44, 0x88, 0xbb] 0 0)) (Usi.byteTimes 200))).Correct
        [0x44, 0x88, 0xbb] := by
  have his : Orderly Usi.kind false (Usi.byteTimes 200) := by decide +kernel
  exact ((address_search [0x44, 0x88, 0xbb] (by decide)).2.1 {} _ his).2

/-- With 256 addresses, all of them taken, the first is polled again. -/
theorem address_search_wraps :
    let table := List.replicate 256 0x44
    let s := Usi.initial {} (.devType table 0 0)
    Along Search.Allowed Search.step (Search.start s) (ackedPolls s 257) ∧
      ¬ (run Search.step (Search.start s) (ackedPolls s 257)).Correct table := by
  intro table s
  have htable : table.length = 256 := List.length_replicate
  obtain ⟨halong, hcount⟩ : Along Search.Allowed Search.step (Search.start s) (ackedPolls s 257) ∧
      (run Search.step (Search.start s) (ackedPolls s 257)).polls.length = 257 :=
    ackedPolls_wrap htable 257 (Search.start s) 0 (by decide) rfl rfl
  refine ⟨halong, fun h => ?_⟩
  have hlen := congrArg List.length h.inOrder
  rw [List.length_take, htable, hcount] at hlen
  exact absurd hlen (by decide)

end AvrCec
