import Mathlib.Algebra.Order.Floor.Semiring
import Mathlib.Algebra.Order.Field.Basic
import Mathlib.Algebra.Order.BigOperators.Group.List
import Mathlib.Tactic.Ring
import Mathlib.Tactic.Linarith

/-! Periodic sampling of a train of pulses.

    A pulse pulls an idle-high line low for `low` and lasts `total` until the pulse after it. The line
    is sampled at the times 0, `T`, `2T` and so on; `tickAt T x` is the number of samples taken before
    the time `x`. `shapes` counts the low and the high samples of every pulse, `add_le_tickAt` and
    `tickAt_le_add` bound them by the pulse's times, whatever its phase, and `samples_line` says that
    the samples of the line are those of the shapes. -/

namespace AvrCec.Lib

variable {R : Type*} [Field R] [LinearOrder R] [IsStrictOrderedRing R] [FloorSemiring R]

/-- The number of samples taken before the time `x`. -/
noncomputable def tickAt (T x : R) : ℕ := ⌈x / T⌉₊

variable {T : R}

theorem lt_tickAt (hT : 0 < T) (k : ℕ) (x : R) : k < tickAt T x ↔ T * k < x := by
  rw [tickAt, Nat.lt_ceil, lt_div_iff₀ hT, mul_comm]

theorem tickAt_mono (hT : 0 < T) {x y : R} (h : x ≤ y) : tickAt T x ≤ tickAt T y :=
  Nat.ceil_mono (div_le_div_of_nonneg_right h hT.le)

theorem tickAt_add_mul (hT : 0 < T) {x : R} (hx : 0 ≤ x) (n : ℕ) :
    tickAt T (x + T * n) = tickAt T x + n := by
  have hdiv : (x + T * n) / T = x / T + n := by
    rw [add_div, mul_div_cancel_left₀ _ hT.ne']
  rw [tickAt, tickAt, hdiv, Nat.ceil_add_natCast (div_nonneg hx hT.le)]

/-- An interval of at least `n` periods holds at least `n` samples. -/
theorem add_le_tickAt (hT : 0 < T) {x h : R} (hx : 0 ≤ x) {n : ℕ} (hn : T * n ≤ h) :
    tickAt T x + n ≤ tickAt T (x + h) := by
  rw [← tickAt_add_mul hT hx]
  exact tickAt_mono hT (by linarith)

/-- An interval of at most `n` periods holds at most `n` samples. -/
theorem tickAt_le_add (hT : 0 < T) {x h : R} (hx : 0 ≤ x) {n : ℕ} (hn : h ≤ T * n) :
    tickAt T (x + h) ≤ tickAt T x + n := by
  rw [← tickAt_add_mul hT hx]
  exact tickAt_mono hT (by linarith)

/-- A low period, and the time until the next falling edge. -/
structure Pulse (R : Type*) where
  low : R
  total : R

/-- The level `x` after the first falling edge of a train of pulses, which another falling edge
    ends. -/
def level : List (Pulse R) → R → Bool
  | [], _ => false
  | p :: ps, x => if x < p.low then false else if x < p.total then true else level ps (x - p.total)

/-- A line that is high until the train falls at `t`. -/
def line (t : R) (ps : List (Pulse R)) (x : R) : Bool := if x < t then true else level ps (x - t)

/-- How long a train lasts. -/
def duration (ps : List (Pulse R)) : R := (ps.map Pulse.total).sum

/-- The first `n` samples of a line. -/
def samples (T : R) (f : R → Bool) (n : ℕ) : List Bool := (List.range n).map fun k : ℕ => f (T * k)

/-- The low and the high samples of each pulse of a train that falls at `t`. -/
noncomputable def shapes (T t : R) : List (Pulse R) → List (ℕ × ℕ)
  | [] => []
  | p :: ps =>
    (tickAt T (t + p.low) - tickAt T t, tickAt T (t + p.total) - tickAt T (t + p.low))
      :: shapes T (t + p.total) ps

/-- The samples of pulses of the given shapes. -/
def train (l : List (ℕ × ℕ)) : List Bool :=
  l.flatMap fun q => List.replicate q.1 false ++ List.replicate q.2 true

omit [Field R] [LinearOrder R] [IsStrictOrderedRing R] [FloorSemiring R] in
theorem train_cons (q : ℕ × ℕ) (l : List (ℕ × ℕ)) :
    train (q :: l) = List.replicate q.1 false ++ List.replicate q.2 true ++ train l := rfl

/-- A pulse whose low period ends within it. -/
def Pulse.Fits (p : Pulse R) : Prop := 0 ≤ p.low ∧ p.low ≤ p.total

omit [FloorSemiring R] in
theorem duration_nonneg {ps : List (Pulse R)} (h : ∀ p ∈ ps, p.Fits) : 0 ≤ duration ps := by
  refine List.sum_nonneg fun x hx => ?_
  obtain ⟨p, hp, rfl⟩ := List.mem_map.mp hx
  exact (h p hp).1.trans (h p hp).2

omit [LinearOrder R] [IsStrictOrderedRing R] [FloorSemiring R] in
theorem duration_cons (p : Pulse R) (ps : List (Pulse R)) :
    duration (p :: ps) = p.total + duration ps := by
  rw [duration, List.map_cons, List.sum_cons]; rfl

omit [LinearOrder R] [IsStrictOrderedRing R] [FloorSemiring R] in
theorem duration_append (ps qs : List (Pulse R)) : duration (ps ++ qs) = duration ps + duration qs := by
  simp [duration]

omit [FloorSemiring R] in
/-- After the train the line is low. -/
theorem level_after {ps : List (Pulse R)} (hps : ∀ p ∈ ps, p.Fits) {x : R} (hx : duration ps ≤ x) :
    level ps x = false := by
  induction ps generalizing x with
  | nil => rfl
  | cons p ps ih =>
    rw [duration_cons] at hx
    have hrest : ∀ q ∈ ps, q.Fits := fun q hq => hps q (List.mem_cons_of_mem _ hq)
    have hnonneg := duration_nonneg hrest
    rw [level]
    split
    · rfl
    · rw [if_neg (by intro h; linarith)]
      exact ih hrest (by linarith)

omit [IsStrictOrderedRing R] [FloorSemiring R] in
/-- Before the second falling edge. -/
theorem level_inside {p : Pulse R} {ps : List (Pulse R)} {x : R} (hx : x < p.total) :
    level (p :: ps) x = decide (p.low ≤ x) := by
  rw [level, if_pos hx]
  split
  · next h => exact (decide_eq_false (not_le.mpr h)).symm
  · next h => exact (decide_eq_true (not_lt.mp h)).symm

omit [IsStrictOrderedRing R] [FloorSemiring R] in
/-- From the second falling edge on. -/
theorem level_beyond {p : Pulse R} {ps : List (Pulse R)} {x : R} (hlow : p.low ≤ p.total) (hx : p.total ≤ x) :
    level (p :: ps) x = level ps (x - p.total) := by
  rw [level, if_neg (not_lt.mpr (hlow.trans hx)), if_neg (not_lt.mpr hx)]

omit [FloorSemiring R] in
/-- The pulses that are over leave the level of those after them. -/
theorem level_append {qs ps : List (Pulse R)} (hqs : ∀ q ∈ qs, q.Fits) {x : R} (hx : duration qs ≤ x) :
    level (qs ++ ps) x = level ps (x - duration qs) := by
  induction qs generalizing x with
  | nil => simp [duration]
  | cons q qs ih =>
    rw [List.forall_mem_cons] at hqs
    have hnonneg := duration_nonneg hqs.2
    rw [duration_cons] at hx
    rw [List.cons_append, level_beyond hqs.1.2 (by linarith), ih hqs.2 (by linarith), duration_cons, sub_sub]

/-- Samples over which the line does not change. -/
theorem map_const {f : ℕ → Bool} {a n : ℕ} {b : Bool} (h : ∀ k, a ≤ k → k < a + n → f k = b) :
    (List.range' a n).map f = List.replicate n b := by
  refine List.eq_replicate_iff.mpr ⟨by simp, fun c hc => ?_⟩
  obtain ⟨k, hk, rfl⟩ := List.mem_map.mp hc
  rw [List.mem_range'_1] at hk
  exact h k hk.1 hk.2

theorem range'_split {a b c : ℕ} (hab : a ≤ b) (hbc : b ≤ c) :
    List.range' a (c - a) = List.range' a (b - a) ++ List.range' b (c - b) := by
  have h := @List.range'_append a (b - a) (c - b) 1
  rw [show a + 1 * (b - a) = b by omega, show b - a + (c - b) = c - a by omega] at h
  exact h.symm

/-- The samples of a train that falls at `t`. -/
theorem samples_level (hT : 0 < T) {ps : List (Pulse R)} (hps : ∀ p ∈ ps, p.Fits) {t : R} :
    (List.range' (tickAt T t) (tickAt T (t + duration ps) - tickAt T t)).map
        (fun k : ℕ => level ps (T * k - t))
      = train (shapes T t ps) := by
  induction ps generalizing t with
  | nil => simp [duration, shapes, train]
  | cons p ps ih =>
    obtain ⟨hlow, htotal⟩ := hps p (List.mem_cons_self ..)
    have hrest : ∀ q ∈ ps, q.Fits := fun q hq => hps q (List.mem_cons_of_mem _ hq)
    have hsum : t + duration (p :: ps) = t + p.total + duration ps := by
      rw [duration_cons]; ring
    -- the four edges, in ticks
    have h₁ : tickAt T t ≤ tickAt T (t + p.low) := tickAt_mono hT (by linarith)
    have h₂ : tickAt T (t + p.low) ≤ tickAt T (t + p.total) := tickAt_mono hT (by linarith)
    have h₃ : tickAt T (t + p.total) ≤ tickAt T (t + p.total + duration ps) :=
      tickAt_mono hT (by have := duration_nonneg hrest; linarith)
    have hfall := fun k => lt_tickAt hT k (t + p.low)
    have hnext := fun k => lt_tickAt hT k (t + p.total)
    rw [hsum, range'_split (h₁.trans h₂) h₃, range'_split h₁ h₂, List.map_append, List.map_append,
      shapes, train_cons, ← ih hrest]
    congr 1
    · congr 1
      · refine map_const fun k _ hk => ?_
        rw [level, if_pos]
        have := (hfall k).mp (by omega)
        linarith
      · refine map_const fun k hk hk' => ?_
        have hlt := (hnext k).mp (by omega)
        have hge := mt (hfall k).mpr (by omega)
        rw [level, if_neg (by intro h; exact hge (by linarith)), if_pos (by linarith)]
    · refine List.map_congr_left fun k hk => ?_
      rw [List.mem_range'_1] at hk
      have hge := mt (hnext k).mpr (by omega)
      rw [level, if_neg (by intro h; exact hge (by linarith)), if_neg (by intro h; exact hge (by linarith))]
      congr 1
      ring

/-- The samples of a line up to the end of its train. -/
theorem samples_line (hT : 0 < T) {ps : List (Pulse R)} (hps : ∀ p ∈ ps, p.Fits) (t : R) :
    samples T (line t ps) (tickAt T (t + duration ps))
      = List.replicate (tickAt T t) true ++ train (shapes T t ps) := by
  have hend : tickAt T t ≤ tickAt T (t + duration ps) :=
    tickAt_mono hT (by have := duration_nonneg hps; linarith)
  have hsplit := range'_split (Nat.zero_le _) hend
  rw [Nat.sub_zero, Nat.sub_zero] at hsplit
  rw [samples, List.range_eq_range', hsplit, List.map_append, ← samples_level hT hps]
  congr 1
  · refine map_const fun k _ hk => ?_
    exact if_pos ((lt_tickAt hT k t).mp (by omega))
  · refine List.map_congr_left fun k hk => ?_
    rw [List.mem_range'_1] at hk
    exact if_neg (mt (lt_tickAt hT k t).mpr (by omega))

/-- The sample after them sees the falling edge that ends the train. -/
theorem samples_close (hT : 0 < T) {ps : List (Pulse R)} (hps : ∀ p ∈ ps, p.Fits) (t : R) :
    samples T (line t ps) (tickAt T (t + duration ps) + 1)
      = samples T (line t ps) (tickAt T (t + duration ps)) ++ [false] := by
  have hge := mt (lt_tickAt hT (tickAt T (t + duration ps)) (t + duration ps)).mpr (Nat.lt_irrefl _)
  have hnonneg := duration_nonneg hps
  rw [samples, samples, List.range_succ, List.map_append, List.map_singleton, line,
    if_neg (by intro h; exact hge (by linarith)), level_after hps (by linarith)]

end AvrCec.Lib
