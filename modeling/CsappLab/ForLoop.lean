/-
**Counting loops.**

`for (x = lo; x < hi; x += step)` as a function on states, with the rules its proofs use: an
invariant that is indexed by the counter, and the converse direction, that what holds at the end
and cannot be gained back held after every iteration.

Main definitions:

* `Loop.forLoop` — the loop.

Main results:

* `Loop.forLoop_inv`, `Loop.forLoop_inv_one` — the invariant rule, for any step and for step one;
* `Loop.forLoop_keeps` — what every iteration keeps, the loop keeps;
* `Loop.forLoop_anti` — the converse direction.
-/

import Mathlib.Tactic.Common

set_option relaxedAutoImplicit false
set_option autoImplicit false

namespace Loop

variable {σ : Type}

/-- `for (x = lo; x < hi; x += step) body`.  A step of zero runs no iteration. -/
def forLoop (lo hi step : ℕ) (body : ℕ → σ → σ) (s : σ) : σ :=
  if _h : lo < hi ∧ 0 < step then forLoop (lo + step) hi step body (body lo s) else s
termination_by hi - lo
decreasing_by omega

theorem forLoop_next {lo hi step : ℕ} {body : ℕ → σ → σ} {s : σ} (hlo : lo < hi)
    (hstep : 0 < step) :
    forLoop lo hi step body s = forLoop (lo + step) hi step body (body lo s) := by
  rw [forLoop, dif_pos ⟨hlo, hstep⟩]

theorem forLoop_done {lo hi step : ℕ} {body : ℕ → σ → σ} {s : σ} (hlo : hi ≤ lo) :
    forLoop lo hi step body s = s := by
  rw [forLoop, dif_neg (by omega)]

/-- **The invariant rule**: an invariant that each iteration carries from one value of the counter
to the next holds at the end, for a value of the counter that has left the range. -/
theorem forLoop_inv (P : ℕ → σ → Prop) {lo hi step : ℕ} {body : ℕ → σ → σ} {s : σ}
    (hpos : 0 < step) (h0 : P lo s)
    (hbody : ∀ x s, lo ≤ x → x < hi → P x s → P (x + step) (body x s)) :
    ∃ x, hi ≤ x ∧ (x < hi + step ∨ x = lo) ∧ P x (forLoop lo hi step body s) := by
  induction lo, s using forLoop.induct hi step body with
  | case1 lo s h ih =>
      rw [forLoop_next h.1 hpos]
      obtain ⟨x, hx, hlt, hP⟩ := ih (hbody lo s (Nat.le_refl _) h.1 h0)
        fun x s hle => hbody x s (by omega)
      exact ⟨x, hx, by omega, hP⟩
  | case2 lo s h =>
      have hle : hi ≤ lo := by omega
      exact ⟨lo, hle, .inr rfl, by rwa [forLoop_done hle]⟩

/-- With step one the counter ends at the bound. -/
theorem forLoop_inv_one (P : ℕ → σ → Prop) {lo hi : ℕ} {body : ℕ → σ → σ} {s : σ} (hle : lo ≤ hi)
    (h0 : P lo s) (hbody : ∀ x s, lo ≤ x → x < hi → P x s → P (x + 1) (body x s)) :
    P hi (forLoop lo hi 1 body s) := by
  obtain ⟨x, hx, hlt, hP⟩ := forLoop_inv P Nat.one_pos h0 hbody
  have hxhi : x = hi := by omega
  rwa [hxhi] at hP

/-- What does not depend on the counter and is kept by every iteration is kept by the loop, for any
step. -/
theorem forLoop_keeps {P : σ → Prop} {lo hi step : ℕ} {body : ℕ → σ → σ} {s : σ}
    (hbody : ∀ x s, lo ≤ x → x < hi → P s → P (body x s)) (h0 : P s) :
    P (forLoop lo hi step body s) := by
  induction lo, s using forLoop.induct hi step body with
  | case1 lo s h ih =>
      rw [forLoop_next h.1 h.2]
      exact ih (fun x s hle => hbody x s (by omega)) (hbody lo s (Nat.le_refl _) h.1 h0)
  | case2 lo s h => rwa [forLoop, dif_neg h]

/-- **The converse direction**: a property that no iteration can establish, if it holds at the end,
holds after every iteration. -/
theorem forLoop_anti {Q : σ → Prop} {lo hi step : ℕ} {body : ℕ → σ → σ} {s : σ} (hpos : 0 < step)
    (hbody : ∀ x s, Q (body x s) → Q s) (hend : Q (forLoop lo hi step body s)) :
    Q s ∧ ∀ n, lo + n * step < hi → ∃ s', Q (body (lo + n * step) s') := by
  induction lo, s using forLoop.induct hi step body with
  | case1 lo s h ih =>
      rw [forLoop_next h.1 hpos] at hend
      obtain ⟨hfirst, hrest⟩ := ih hend
      refine ⟨hbody lo s hfirst, fun n hn => ?_⟩
      cases n with
      | zero => exact ⟨s, by simpa using hfirst⟩
      | succ n =>
          have heq : lo + (n + 1) * step = lo + step + n * step := by
            rw [Nat.add_mul, Nat.one_mul]
            omega
          rw [heq] at hn ⊢
          exact hrest n hn
  | case2 lo s h =>
      have hle : hi ≤ lo := by omega
      rw [forLoop_done hle] at hend
      refine ⟨hend, fun n hn => ?_⟩
      have := Nat.zero_le (n * step)
      omega

end Loop
