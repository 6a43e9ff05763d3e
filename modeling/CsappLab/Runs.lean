/-
**Runs of a machine.**

A machine is a step function: from a state and an action to the next state, if the action is
possible there.  A run takes the actions of a list one after the other and fails if one of them is
not possible.  Two things are said of a run here: that a property holds in every state it passes
through, and that a condition holds before every step it takes.

Main definitions:

* `Runs.Throughout` — a property of every state a run passes through;
* `Runs.Along` — a condition on every step a run takes.

Main results:

* `Runs.invariant` — what each step keeps, provided the condition, holds after the run;
* `Runs.kept` — the same without a condition;
* `Runs.throughout_iff_along` — a property holds throughout iff the condition holds along the run,
  when a step keeps the property exactly if it meets the condition.
-/

import Mathlib.Data.List.Infix
import Mathlib.Tactic.Common

set_option relaxedAutoImplicit false
set_option autoImplicit false

namespace Runs

variable {σ α : Type*} {step : σ → α → Option σ}

theorem foldlM_concat (s : σ) (actions : List α) (a : α) :
    (actions ++ [a]).foldlM step s = (actions.foldlM step s).bind fun s' => step s' a := by
  simp [List.foldlM_append]

/-! ### Every state -/

/-- The property `C` holds in every state the run passes through. -/
def Throughout (step : σ → α → Option σ) (C : σ → Prop) (s : σ) (actions : List α) : Prop :=
  ∀ pre s', pre <+: actions → pre.foldlM step s = some s' → C s'

theorem throughout_nil {C : σ → Prop} {s : σ} : Throughout step C s [] ↔ C s := by
  constructor
  · intro h
    exact h [] s (List.prefix_refl []) rfl
  · rintro h pre s' hpre hrun
    rw [List.prefix_nil] at hpre
    subst hpre
    cases hrun
    exact h

theorem throughout_cons {C : σ → Prop} {s : σ} {a : α} {actions : List α} :
    Throughout step C s (a :: actions) ↔
      C s ∧ ∀ s', step s a = some s' → Throughout step C s' actions := by
  constructor
  · intro h
    refine ⟨h [] s (List.nil_prefix) rfl, fun s' hs' pre s'' hpre hrun => ?_⟩
    refine h (a :: pre) s'' ((List.prefix_cons_inj a).2 hpre) ?_
    simpa [hs'] using hrun
  · rintro ⟨hs, h⟩ pre s' hpre hrun
    cases pre with
    | nil =>
        cases hrun
        exact hs
    | cons b pre =>
        obtain ⟨rfl, hrest⟩ := List.cons_prefix_cons.1 hpre
        obtain ⟨s₁, hs₁, hrun⟩ : ∃ s₁, step s b = some s₁ ∧ pre.foldlM step s₁ = some s' := by
          simpa [Option.bind_eq_some_iff] using hrun
        exact h s₁ hs₁ pre s' hrest hrun

/-! ### Every step -/

/-- The condition `P` holds at every step the run takes. -/
def Along (step : σ → α → Option σ) (P : σ → α → Prop) : σ → List α → Prop
  | _, [] => True
  | s, a :: actions => ∀ s', step s a = some s' → P s a ∧ Along step P s' actions

instance decidableAlong {P : σ → α → Prop} [∀ s a, Decidable (P s a)] :
    ∀ s actions, Decidable (Along step P s actions)
  | _, [] => isTrue trivial
  | s, a :: actions =>
      match h : step s a with
      | none => isTrue fun s' hs' => by rw [h] at hs'; cases hs'
      | some s₁ =>
          have := decidableAlong (P := P) s₁ actions
          decidable_of_iff (P s a ∧ Along step P s₁ actions)
            ⟨fun hP s' hs' => by rw [h] at hs'; cases hs'; exact hP, fun hP => hP s₁ h⟩

/-- The condition in terms of the states the run passes through. -/
theorem along_iff {P : σ → α → Prop} {s : σ} {actions : List α} :
    Along step P s actions ↔ ∀ pre a s₁ s₂, pre ++ [a] <+: actions →
      pre.foldlM step s = some s₁ → step s₁ a = some s₂ → P s₁ a := by
  induction actions generalizing s with
  | nil => simp [Along]
  | cons b actions ih =>
      constructor
      · intro h pre a s₁ s₂ hpre hrun hstep
        cases pre with
        | nil =>
            cases hrun
            obtain ⟨rfl, -⟩ := List.cons_prefix_cons.1 hpre
            exact (h s₂ hstep).1
        | cons c pre =>
            obtain ⟨rfl, hrest⟩ := List.cons_prefix_cons.1 hpre
            obtain ⟨s', hs', hrun⟩ : ∃ s', step s c = some s' ∧ pre.foldlM step s' = some s₁ := by
              simpa [Option.bind_eq_some_iff] using hrun
            exact ih.1 (h s' hs').2 pre a s₁ s₂ hrest hrun hstep
      · intro h s' hs'
        refine ⟨h [] b s s' (by simp) rfl hs', ih.2 fun pre a s₁ s₂ hpre hrun hstep => ?_⟩
        refine h (b :: pre) a s₁ s₂ ((List.prefix_cons_inj b).2 hpre) ?_ hstep
        simpa [hs'] using hrun

theorem Along.of_prefix {P : σ → α → Prop} {s : σ} {pre actions : List α}
    (h : Along step P s actions) (hpre : pre <+: actions) : Along step P s pre :=
  along_iff.2 fun pre' a s₁ s₂ hpre' => along_iff.1 h pre' a s₁ s₂ (hpre'.trans hpre)

/-- **An invariant of the steps that meet the condition** holds after every run whose steps do. -/
theorem invariant {I : σ → Prop} {P : σ → α → Prop}
    (hkeep : ∀ s a s', I s → P s a → step s a = some s' → I s') {s s' : σ} {actions : List α}
    (h : I s) (halong : Along step P s actions) (hrun : actions.foldlM step s = some s') :
    I s' := by
  induction actions generalizing s with
  | nil =>
      cases hrun
      exact h
  | cons a actions ih =>
      obtain ⟨s₁, hs₁, hrun⟩ : ∃ s₁, step s a = some s₁ ∧ actions.foldlM step s₁ = some s' := by
        simpa [Option.bind_eq_some_iff] using hrun
      obtain ⟨hP, halong⟩ := halong s₁ hs₁
      exact ih (hkeep s a s₁ h hP hs₁) halong hrun

/-- What every step keeps holds after every run. -/
theorem kept {I : σ → Prop} (hkeep : ∀ s a s', I s → step s a = some s' → I s') {s s' : σ}
    {actions : List α} (h : I s) (hrun : actions.foldlM step s = some s') : I s' := by
  have halong : Along step (fun _ _ => True) s actions :=
    along_iff.2 fun _ _ _ _ _ _ _ => trivial
  exact invariant (fun s a s' h _ hstep => hkeep s a s' h hstep) h halong hrun

/-- What the invariant says of the next step holds at every step of such a run. -/
theorem Along.of_invariant {I : σ → Prop} {P Q : σ → α → Prop}
    (hkeep : ∀ s a s', I s → P s a → step s a = some s' → I s')
    (hQ : ∀ s a s', I s → P s a → step s a = some s' → Q s a) {s : σ} {actions : List α}
    (h : I s) (halong : Along step P s actions) : Along step Q s actions := by
  induction actions generalizing s with
  | nil => trivial
  | cons a actions ih =>
      intro s' hs'
      obtain ⟨hP, hrest⟩ := halong s' hs'
      exact ⟨hQ s a s' h hP hs', ih (hkeep s a s' h hP hs') hrest⟩

/-- **When a property holds throughout**: a step that meets the condition keeps the invariant, and
one that does not destroys the property. -/
theorem throughout_iff_along {I C : σ → Prop} {P : σ → α → Prop} (hC : ∀ s, I s → C s)
    (hkeep : ∀ s a s', I s → P s a → step s a = some s' → I s')
    (hdestroy : ∀ s a s', I s → ¬ P s a → step s a = some s' → ¬ C s') {s : σ} (h : I s)
    (actions : List α) : Throughout step C s actions ↔ Along step P s actions := by
  induction actions generalizing s with
  | nil => exact ⟨fun _ => trivial, fun _ => throughout_nil.2 (hC s h)⟩
  | cons a actions ih =>
      rw [throughout_cons]
      constructor
      · rintro ⟨-, hrest⟩ s' hs'
        have hP : P s a := by
          by_contra hP
          exact hdestroy s a s' h hP hs' (hrest s' hs' [] s' List.nil_prefix rfl)
        exact ⟨hP, (ih (hkeep s a s' h hP hs')).1 (hrest s' hs')⟩
      · intro halong
        refine ⟨hC s h, fun s' hs' => ?_⟩
        obtain ⟨hP, hrest⟩ := halong s' hs'
        exact (ih (hkeep s a s' h hP hs')).2 hrest

end Runs
