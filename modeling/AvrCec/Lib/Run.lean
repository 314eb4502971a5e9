import Mathlib.Data.List.Basic

/-! Runs of a deterministic machine, fed one input at a time.

    A machine is a step function `step : I → S → S`: an input (a clock tick, a poll, an action of the
    application) takes the state to the next one. `run` folds it over a list of inputs; `Along` says
    that every step of a run meets a condition on the state it starts from and its input. The two
    rules below are the inductions every whole-run result uses: an invariant kept by each step that
    meets the condition holds at the end of the run, and a relation kept by pairs of steps holds
    between the ends of two runs fed the same inputs. -/

namespace AvrCec.Lib

variable {S T I : Type*}

/-- The state after feeding the inputs in order. -/
def run (step : I → S → S) (s : S) : List I → S
  | [] => s
  | i :: is => run step (step i s) is

/-- Every step of the run from `s` meets `P` (on the state before it and its input). -/
def Along (P : S → I → Prop) (step : I → S → S) (s : S) : List I → Prop
  | [] => True
  | i :: is => P s i ∧ Along P step (step i s) is

/-- How many steps of the run from `s` meet `P`. -/
def countAlong (P : S → I → Prop) [∀ s i, Decidable (P s i)] (step : I → S → S) (s : S) : List I → Nat
  | [] => 0
  | i :: is => (if P s i then 1 else 0) + countAlong P step (step i s) is

variable {step : I → S → S}

@[simp] theorem run_nil (s : S) : run step s [] = s := rfl

@[simp] theorem run_cons (s : S) (i : I) (is : List I) :
    run step s (i :: is) = run step (step i s) is := rfl

theorem run_append (s : S) (is js : List I) :
    run step s (is ++ js) = run step (run step s is) js := by
  induction is generalizing s with
  | nil => rfl
  | cons i is ih => exact ih (step i s)

theorem run_concat (s : S) (is : List I) (i : I) :
    run step s (is ++ [i]) = step i (run step s is) := by
  rw [run_append]; rfl

@[simp] theorem along_nil (P : S → I → Prop) (s : S) : Along P step s [] := trivial

@[simp] theorem along_cons (P : S → I → Prop) (s : S) (i : I) (is : List I) :
    Along P step s (i :: is) ↔ P s i ∧ Along P step (step i s) is := Iff.rfl

instance decidableAlong (P : S → I → Prop) [∀ s i, Decidable (P s i)] (step : I → S → S) :
    (is : List I) → (s : S) → Decidable (Along P step s is)
  | [], _ => .isTrue trivial
  | i :: is, s => @instDecidableAnd _ _ inferInstance (decidableAlong P step is (step i s))

theorem along_append (P : S → I → Prop) (s : S) (is js : List I) :
    Along P step s (is ++ js) ↔ Along P step s is ∧ Along P step (run step s is) js := by
  induction is generalizing s with
  | nil => simp
  | cons i is ih => simp [ih, and_assoc]

theorem along_congr {P Q : S → I → Prop} (h : ∀ s i, P s i ↔ Q s i) (s : S) (is : List I) :
    Along P step s is ↔ Along Q step s is := by
  induction is generalizing s with
  | nil => exact Iff.rfl
  | cons i is ih => rw [along_cons, along_cons, h, ih]

/-- Steps that meet two conditions. -/
theorem Along.and {P Q : S → I → Prop} {s : S} {is : List I} (hP : Along P step s is) (hQ : Along Q step s is) :
    Along (fun s i => P s i ∧ Q s i) step s is := by
  induction is generalizing s with
  | nil => trivial
  | cons i is ih => exact ⟨⟨hP.1, hQ.1⟩, ih hP.2 hQ.2⟩

/-- The invariant rule: what every step meeting `P` preserves holds after a run along `P`. -/
theorem invariant_run {P : S → I → Prop} {Inv : S → Prop}
    (hstep : ∀ s i, Inv s → P s i → Inv (step i s)) {s : S} {is : List I}
    (hs : Inv s) (hP : Along P step s is) : Inv (run step s is) := by
  induction is generalizing s with
  | nil => exact hs
  | cons i is ih => exact ih (hstep s i hs hP.1) hP.2

/-- The invariant rule with no side condition on the steps. -/
theorem invariant_run' {Inv : S → Prop} (hstep : ∀ s i, Inv s → Inv (step i s)) {s : S}
    (is : List I) (hs : Inv s) : Inv (run step s is) := by
  induction is generalizing s with
  | nil => exact hs
  | cons i is ih => exact ih (hstep s i hs)

/-- The lock-step rule: two machines fed the same inputs stay related. -/
theorem lockstep_run {stepT : I → T → T} {R : S → T → Prop} {P : S → I → Prop}
    (hstep : ∀ s t i, R s t → P s i → R (step i s) (stepT i t)) {s : S} {t : T} {is : List I}
    (h : R s t) (hP : Along P step s is) : R (run step s is) (run stepT t is) := by
  induction is generalizing s t with
  | nil => exact h
  | cons i is ih => exact ih (hstep s t i h hP.1) hP.2

/-- The lock-step rule with no side condition on the steps. -/
theorem lockstep_run' {stepT : I → T → T} {R : S → T → Prop}
    (hstep : ∀ s t i, R s t → R (step i s) (stepT i t)) {s : S} {t : T} (is : List I) (h : R s t) :
    R (run step s is) (run stepT t is) := by
  induction is generalizing s t with
  | nil => exact h
  | cons i is ih => exact ih (hstep s t i h)

end AvrCec.Lib
