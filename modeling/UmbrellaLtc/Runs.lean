import Mathlib.Data.List.Basic
import Mathlib.Data.List.Induction

/-!
Runs of a deterministic system under a list of inputs. A property holds
throughout a run when it holds before the first input and after each one; a
condition holds at each step when it holds of every input in the state that
input meets. An invariant turns the second into the first.
-/

namespace UmbrellaLtc.Runs

variable {σ ι : Type} (step : σ → ι → σ)

def run (s : σ) (inputs : List ι) : σ := inputs.foldl step s

theorem run_concat (s : σ) (inputs : List ι) (i : ι) :
    run step s (inputs ++ [i]) = step (run step s inputs) i := List.foldl_concat step s i inputs

def Throughout (P : σ → Prop) (s : σ) : List ι → Prop
  | [] => P s
  | i :: rest => P s ∧ Throughout P (step s i) rest

def EachStep (A : σ → ι → Prop) (s : σ) : List ι → Prop
  | [] => True
  | i :: rest => A s i ∧ EachStep A (step s i) rest

variable {step}

theorem throughout_cons {P : σ → Prop} {s : σ} {i : ι} {rest : List ι} :
    Throughout step P s (i :: rest) ↔ P s ∧ Throughout step P (step s i) rest := Iff.rfl

theorem Throughout.mono {P Q : σ → Prop} (hPQ : ∀ s, P s → Q s) {s : σ} {inputs : List ι}
    (h : Throughout step P s inputs) : Throughout step Q s inputs := by
  induction inputs generalizing s with
  | nil => exact hPQ s h
  | cons i rest ih => exact ⟨hPQ s h.1, ih h.2⟩

/-- A step lemma carries an invariant through every run that meets the condition. -/
theorem throughout_of_eachStep {Inv : σ → Prop} {A : σ → ι → Prop}
    (hstep : ∀ s i, Inv s → A s i → Inv (step s i)) {s : σ} {inputs : List ι}
    (hs : Inv s) (hA : EachStep step A s inputs) : Throughout step Inv s inputs := by
  induction inputs generalizing s with
  | nil => exact hs
  | cons i rest ih => exact ⟨hs, ih (hstep s i hs hA.1) hA.2⟩

/-- An invariant that every step keeps holds throughout every run. -/
theorem throughout_of_step {Inv : σ → Prop} (hstep : ∀ s i, Inv s → Inv (step s i)) {s : σ}
    (hs : Inv s) {inputs : List ι} : Throughout step Inv s inputs := by
  induction inputs generalizing s with
  | nil => exact hs
  | cons i rest ih => exact ⟨hs, ih (hstep s i hs)⟩

theorem Throughout.first {P : σ → Prop} {s : σ} {inputs : List ι}
    (h : Throughout step P s inputs) : P s := by
  cases inputs with
  | nil => exact h
  | cons i rest => exact h.1

/-- When the property before and after a step forces the condition, a run that
keeps the property meets the condition at each step. -/
theorem eachStep_of_throughout {P : σ → Prop} {A : σ → ι → Prop}
    (hforce : ∀ s i, P s → P (step s i) → A s i) {s : σ} {inputs : List ι}
    (h : Throughout step P s inputs) : EachStep step A s inputs := by
  induction inputs generalizing s with
  | nil => trivial
  | cons i rest ih =>
    exact ⟨hforce s i h.1 h.2.first, ih h.2⟩

/-- The inputs up to any point of a run meet the condition as well. -/
theorem EachStep.left {A : σ → ι → Prop} {s : σ} {inputs later : List ι}
    (h : EachStep step A s (inputs ++ later)) : EachStep step A s inputs := by
  induction inputs generalizing s with
  | nil => trivial
  | cons i rest ih => exact ⟨h.1, ih h.2⟩

theorem not_eachStep_second {A : σ → ι → Prop} {s : σ} {i j : ι} {rest : List ι}
    (h : ¬ A (step s i) j) : ¬ EachStep step A s (i :: j :: rest) := fun hA => h hA.2.1

/-- Two conditions that an invariant makes the same are met by the same runs. -/
theorem eachStep_congr {Inv : σ → Prop} {A B : σ → ι → Prop}
    (hAB : ∀ s i, Inv s → (A s i ↔ B s i)) {s : σ} {inputs : List ι}
    (h : Throughout step Inv s inputs) : EachStep step A s inputs ↔ EachStep step B s inputs := by
  induction inputs generalizing s with
  | nil => exact Iff.rfl
  | cons i rest ih => exact and_congr (hAB s i h.1) (ih h.2)

/-- Two conditions that are the same as long as an invariant holds are met by the same runs, when
the first one keeps it. -/
theorem eachStep_iff_of_keeps {Inv : σ → Prop} {A B : σ → ι → Prop}
    (hAB : ∀ s i, Inv s → (A s i ↔ B s i)) (hkeep : ∀ s i, Inv s → A s i → Inv (step s i)) {s : σ}
    {inputs : List ι} (hs : Inv s) : EachStep step A s inputs ↔ EachStep step B s inputs := by
  induction inputs generalizing s with
  | nil => exact Iff.rfl
  | cons i rest ih =>
    have hhead := hAB s i hs
    constructor
    · intro h
      exact ⟨hhead.mp h.1, (ih (hkeep s i hs h.1)).mp h.2⟩
    · intro h
      have hfirst := hhead.mpr h.1
      exact ⟨hfirst, (ih (hkeep s i hs hfirst)).mpr h.2⟩

/-- When a condition decides whether a step keeps the property, it decides that for a run. -/
theorem throughout_iff_eachStep {P : σ → Prop} {A B : σ → ι → Prop}
    (hstep : ∀ s i, P s → B s i → (P (step s i) ↔ A s i)) {s : σ} {inputs : List ι} (hs : P s)
    (hB : EachStep step B s inputs) : Throughout step P s inputs ↔ EachStep step A s inputs := by
  induction inputs generalizing s with
  | nil => exact iff_of_true hs trivial
  | cons i rest ih =>
    have hiff := hstep s i hs hB.1
    constructor
    · intro h
      exact ⟨hiff.mp h.2.first, (ih h.2.first hB.2).mp h.2⟩
    · intro h
      exact ⟨hs, (ih (hiff.mpr h.1) hB.2).mpr h.2⟩

theorem Throughout.last {P : σ → Prop} {s : σ} {inputs : List ι}
    (h : Throughout step P s inputs) : P (run step s inputs) := by
  induction inputs generalizing s with
  | nil => exact h
  | cons i rest ih => exact ih h.2

/-- A loop whose steps may fail goes through when each step does from what the steps before it
have established, for the inputs `done` so far. -/
theorem exists_foldlM {f : σ → ι → Option σ} {P : List ι → σ → Prop} {inputs : List ι} {s : σ}
    (hs : P [] s) (hstep : ∀ done i s, (∃ later, inputs = done ++ i :: later) → P done s →
      ∃ s', f s i = some s' ∧ P (done ++ [i]) s') :
    ∃ s', inputs.foldlM f s = some s' ∧ P inputs s' := by
  induction inputs using List.reverseRecOn with
  | nil => exact ⟨s, rfl, hs⟩
  | append_singleton done i ih =>
    obtain ⟨s₁, hrun, h₁⟩ := ih fun done' i' s' ⟨later, hsplit⟩ =>
      hstep done' i' s' ⟨later ++ [i], by rw [hsplit, List.append_assoc, List.cons_append]⟩
    obtain ⟨s₂, hlast, h₂⟩ := hstep done i s₁ ⟨[], rfl⟩ h₁
    refine ⟨s₂, ?_, h₂⟩
    rw [List.foldlM_append, hrun]
    simp [hlast]

end UmbrellaLtc.Runs
