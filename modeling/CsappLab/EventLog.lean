/-
**Programs that keep a log.**

A program that may fail can be given a log of the events that a statement about it is concerned
with.  The log is written and never read, so the program does what it does without the log; and what
stands in the log when it returns is found by rules that follow the program text.

Main definitions:

* `EventLog.Logged`, `EventLog.record`, `EventLog.silent` — programs with a log;
* `EventLog.Erases` — a program does the same as one without a log;
* `EventLog.Ensures` — what holds of the result and the events of a program that returns;
* `EventLog.Does` — the result, the state and the events of a program with a state;
* `EventLog.Returns` — the result of a program that leaves its state as it is.

Main results:

* `EventLog.Erases.bind`, `EventLog.Erases.ite` — erasure follows the program text;
* `EventLog.Ensures.bind` — and so do the events;
* `EventLog.Does.bind`, `EventLog.Returns.bind` — and so does an exact run.
-/

import Mathlib.Tactic.TypeStar

set_option relaxedAutoImplicit false
set_option autoImplicit false

namespace EventLog

variable {ε φ α β γ δ : Type}

/-- A program that returns or fails, and appends to a log. -/
abbrev Logged (ε φ α : Type) := StateT (List ε) (Except φ) α

/-- Note an event. -/
def record (e : ε) : Logged ε φ Unit := fun log => .ok ((), log ++ [e])

/-- A program without events. -/
def silent (y : Except φ α) : Logged ε φ α := fun log => y.map (·, log)

/-! ### Erasure -/

/-- A program does the same as one without a log, which returns a part of its result. -/
def Erases (part : α → β) (x : Logged ε φ α) (y : Except φ β) : Prop :=
  ∀ log, (x log).map (fun r => part r.1) = y

theorem erases_pure (part : α → β) (a : α) :
    Erases part (pure a : Logged ε φ α) (.ok (part a)) := fun _ => rfl

theorem erases_silent (y : Except φ α) : Erases id (silent y : Logged ε φ α) y := by
  intro log
  cases y <;> rfl

theorem Erases.bind {part : α → β} {part' : γ → δ} {x : Logged ε φ α} {y : Except φ β}
    {f : α → Logged ε φ γ} {g : β → Except φ δ} (hx : Erases part x y)
    (hf : ∀ a, y = .ok (part a) → Erases part' (f a) (g (part a))) :
    Erases part' (x >>= f) (y >>= g) := by
  intro log
  have hlog := hx log
  change ((x log).bind fun r => f r.1 r.2).map (fun r => part' r.1) = y.bind g
  cases hrun : x log with
  | error e =>
      rw [hrun] at hlog
      rw [← hlog]
      rfl
  | ok r =>
      rw [hrun] at hlog
      rw [← hlog]
      exact hf r.1 hlog.symm r.2

/-- An event in front changes nothing. -/
theorem Erases.record_bind {part : α → β} {x : Logged ε φ α} {y : Except φ β} (e : ε)
    (hx : Erases part x y) : Erases part (record e >>= fun _ => x) y :=
  fun log => hx (log ++ [e])

theorem Erases.ite {part : α → β} {p : Prop} [Decidable p] {x x' : Logged ε φ α}
    {y y' : Except φ β} (h : p → Erases part x y) (h' : ¬ p → Erases part x' y') :
    Erases part (if p then x else x') (if p then y else y') := by
  by_cases hp : p
  · rw [if_pos hp, if_pos hp]
    exact h hp
  · rw [if_neg hp, if_neg hp]
    exact h' hp

/-! ### Events -/

/-- What holds of the result and the events of a program, if it returns. -/
def Ensures (x : Logged ε φ α) (q : α → List ε → Prop) : Prop :=
  ∀ log a log', x log = .ok (a, log') → ∃ es, log' = log ++ es ∧ q a es

theorem ensures_pure {a : α} {q : α → List ε → Prop} (h : q a []) :
    Ensures (pure a : Logged ε φ α) q := by
  intro log b log' hrun
  cases hrun
  exact ⟨[], (List.append_nil log).symm, h⟩

theorem ensures_record (e : ε) : Ensures (record e : Logged ε φ Unit) fun _ es => es = [e] := by
  intro log b log' hrun
  cases hrun
  exact ⟨[e], rfl, rfl⟩

theorem ensures_silent (y : Except φ α) :
    Ensures (silent y : Logged ε φ α) fun a es => y = .ok a ∧ es = [] := by
  intro log a log' hrun
  cases y with
  | error e => cases hrun
  | ok b =>
      cases hrun
      exact ⟨[], (List.append_nil log).symm, rfl, rfl⟩

/-- **Events are put together.** -/
theorem Ensures.bind {x : Logged ε φ α} {p : α → List ε → Prop} {f : α → Logged ε φ β}
    {q : β → List ε → Prop} (hx : Ensures x p)
    (hf : ∀ a es, p a es → Ensures (f a) fun b es' => q b (es ++ es')) :
    Ensures (x >>= f) q := by
  intro log b log' hrun
  change ((x log).bind fun r => f r.1 r.2) = .ok (b, log') at hrun
  cases hfirst : x log with
  | error e =>
      rw [hfirst] at hrun
      cases hrun
  | ok r =>
      rw [hfirst] at hrun
      obtain ⟨es, hes, hp⟩ := hx log r.1 r.2 hfirst
      obtain ⟨es', hes', hq⟩ := hf r.1 es hp r.2 b log' hrun
      exact ⟨es ++ es', by rw [hes', hes, List.append_assoc], hq⟩

theorem Ensures.ite {p : Prop} [Decidable p] {x x' : Logged ε φ α} {q : α → List ε → Prop}
    (h : p → Ensures x q) (h' : ¬ p → Ensures x' q) : Ensures (if p then x else x') q := by
  by_cases hp : p
  · rw [if_pos hp]
    exact h hp
  · rw [if_neg hp]
    exact h' hp

theorem Ensures.mono {x : Logged ε φ α} {p q : α → List ε → Prop} (hx : Ensures x p)
    (h : ∀ a es, p a es → q a es) : Ensures x q := by
  intro log a log' hrun
  obtain ⟨es, hes, hp⟩ := hx log a log' hrun
  exact ⟨es, hes, h a es hp⟩

theorem ensures_error (e : φ) (q : α → List ε → Prop) :
    Ensures (silent (.error e) : Logged ε φ α) q :=
  (ensures_silent _).mono fun _ _ h => (nomatch h.1)

/-! ### Exact runs -/

section Exact

variable {σ : Type} {s s' s'' : σ} {a : α} {b : β} {es es' : List ε}

/-- A program with a state returns, and this is what it returns, leaves and notes. -/
def Does (x : StateT σ (Logged ε φ) α) (s : σ) (a : α) (s' : σ) (es : List ε) : Prop :=
  ∀ log, x s log = .ok ((a, s'), log ++ es)

theorem does_pure : Does (pure a : StateT σ (Logged ε φ) α) s a s [] := fun log =>
  congrArg (fun es => Except.ok ((a, s), es)) (List.append_nil log).symm

/-- **Runs are put together.** -/
theorem Does.bind {x : StateT σ (Logged ε φ) α} {f : α → StateT σ (Logged ε φ) β}
    (hx : Does x s a s' es) (hf : Does (f a) s' b s'' es') :
    Does (x >>= f) s b s'' (es ++ es') := by
  intro log
  have hfirst : (x >>= f) s log = ((x s log).bind fun r => f r.1.1 r.1.2 r.2) := rfl
  rw [hfirst, hx log, ← List.append_assoc]
  exact hf (log ++ es)

/-- A program has one run. -/
theorem Does.unique {x : StateT σ (Logged ε φ) α} {a' : α} (h : Does x s a s' es)
    (h' : x s [] = .ok ((a', s''), es')) : a' = a ∧ s'' = s' ∧ es' = es := by
  have heq := h'.symm.trans (h [])
  simp only [List.nil_append, Except.ok.injEq, Prod.mk.injEq] at heq
  exact ⟨heq.1.1, heq.1.2, heq.2⟩

/-- A program returns, and leaves its state as it is. -/
def Returns (s : σ) (x : StateT σ (Logged ε φ) α) (a : α) : Prop := ∃ es, Does x s a s es

theorem Does.returns {x : StateT σ (Logged ε φ) α} (hx : Does x s a s es) : Returns s x a :=
  ⟨es, hx⟩

theorem returns_pure : Returns s (pure a : StateT σ (Logged ε φ) α) a := does_pure.returns

theorem Returns.bind {x : StateT σ (Logged ε φ) α} {f : α → StateT σ (Logged ε φ) β}
    (hx : Returns s x a) (hf : Returns s (f a) b) : Returns s (x >>= f) b := by
  obtain ⟨es, hrun⟩ := hx
  obtain ⟨es', hrun'⟩ := hf
  exact ⟨es ++ es', hrun.bind hrun'⟩

end Exact

end EventLog
