/-
**Read-write locks.**

A lock that any number of readers or a single writer may hold.  Its state is the list of the holds
that have been granted and not given back, latest first; a thread may hold it several times.  A
thread that asks again for a lock that it holds for writing is not granted it: it blocks, which is
one of the things that the standard allows.

Main definitions:

* `RwLock.Grantable`, `RwLock.acquire`, `RwLock.release` — the operations;
* `RwLock.count` — how many holds a thread has;
* `RwLock.Exclusive` — a writer is alone.

Main results:

* `RwLock.exclusive_acquire`, `RwLock.exclusive_release` — **mutual exclusion** is kept;
* `RwLock.count_release_self` — a release gives back one hold.
-/

import Mathlib.Data.List.Basic
import Mathlib.Data.Nat.Notation
import Mathlib.Tactic.Common

set_option relaxedAutoImplicit false
set_option autoImplicit false

namespace RwLock

/-- What a hold is for. -/
inductive Mode where
  | read
  | write
  deriving DecidableEq, Repr

variable {τ : Type*}

/-- Whether a hold can be granted next to the ones there are. -/
def Grantable (holds : List (τ × Mode)) : Mode → Prop
  | .read => ∀ h ∈ holds, h.2 = .read
  | .write => holds = []

instance (holds : List (τ × Mode)) (mode : Mode) : Decidable (Grantable holds mode) :=
  match mode with
  | .read => inferInstanceAs (Decidable (∀ h ∈ holds, h.2 = .read))
  | .write => inferInstanceAs (Decidable (holds = []))

/-- A thread takes the lock, if it can be granted. -/
def acquire (t : τ) (mode : Mode) (holds : List (τ × Mode)) : Option (List (τ × Mode)) :=
  if Grantable holds mode then some ((t, mode) :: holds) else none

/-- A writer is alone. -/
def Exclusive (holds : List (τ × Mode)) : Prop := ∀ h ∈ holds, h.2 = .write → holds = [h]

/-- A lock that nobody holds can be granted. -/
theorem grantable_nil (mode : Mode) : Grantable ([] : List (τ × Mode)) mode := by
  cases mode with
  | read => intro h hh; cases hh
  | write => rfl

theorem acquire_eq_some {t : τ} {mode : Mode} {holds holds' : List (τ × Mode)}
    (h : acquire t mode holds = some holds') :
    Grantable holds mode ∧ holds' = (t, mode) :: holds := by
  unfold acquire at h
  split at h
  · rename_i hgrant
    exact ⟨hgrant, (Option.some.inj h).symm⟩
  · cases h

/-- **Mutual exclusion**, when the lock is taken. -/
theorem exclusive_acquire {t : τ} {mode : Mode} {holds holds' : List (τ × Mode)}
    (h : acquire t mode holds = some holds') : Exclusive holds' := by
  obtain ⟨hgrant, rfl⟩ := acquire_eq_some h
  cases mode with
  | read =>
      intro x hx hwrite
      rcases List.mem_cons.1 hx with rfl | hx
      · cases hwrite
      · rw [hgrant x hx] at hwrite
        cases hwrite
  | write =>
      obtain rfl : holds = [] := hgrant
      intro x hx _
      rw [List.mem_singleton.1 hx]

variable [DecidableEq τ]

/-- A thread gives its latest hold back. -/
def release (t : τ) (holds : List (τ × Mode)) : List (τ × Mode) :=
  holds.eraseP fun h => h.1 = t

/-- How many holds a thread has. -/
def count (t : τ) (holds : List (τ × Mode)) : ℕ := holds.countP fun h => h.1 = t

/-- **Mutual exclusion**, when the lock is given back. -/
theorem exclusive_release {holds : List (τ × Mode)} (h : Exclusive holds) (t : τ) :
    Exclusive (release t holds) := by
  intro x hx hwrite
  have hmem : x ∈ holds := List.mem_of_mem_eraseP hx
  have hone := h x hmem hwrite
  unfold release at hx ⊢
  rw [hone] at hx ⊢
  by_cases hxt : x.1 = t
  · simp [hxt] at hx
  · simp [hxt]

theorem count_release_self {t : τ} {holds : List (τ × Mode)} (h : 0 < count t holds) :
    count t (release t holds) + 1 = count t holds := by
  induction holds with
  | nil => cases h
  | cons x holds ih =>
      by_cases hx : x.1 = t
      · simp [count, release, hx]
      · simp only [count, release, List.countP_cons, List.eraseP_cons, hx, decide_false,
          cond_false, Bool.false_eq_true, if_false, Nat.add_zero] at h ih ⊢
        exact ih h

theorem count_cons (u t : τ) (mode : Mode) (holds : List (τ × Mode)) :
    count u ((t, mode) :: holds) = count u holds + if t = u then 1 else 0 := by
  rw [count, List.countP_cons, count]
  simp

/-- What a thread gives back is its own. -/
theorem count_release_of_ne {u t : τ} (hut : u ≠ t) (holds : List (τ × Mode)) :
    count u (release t holds) = count u holds := by
  induction holds with
  | nil => rfl
  | cons x holds ih =>
      by_cases hx : x.1 = t
      · have hxu : ¬ x.1 = u := fun h => hut (h.symm.trans hx)
        simp [count, release, hx, hut.symm]
      · simp only [count, release, List.countP_cons, List.eraseP_cons, hx, decide_false,
          cond_false] at ih ⊢
        rw [ih]

theorem mem_of_mem_release {t : τ} {holds : List (τ × Mode)} {h : τ × Mode}
    (hh : h ∈ release t holds) : h ∈ holds := List.mem_of_mem_eraseP hh

/-- Giving back a hold that stands for something else in a list of such things. -/
theorem release_map {σ : Type*} (f : σ → τ × Mode) (t : τ) (l : List σ) :
    release t (l.map f) = (l.eraseP fun x => (f x).1 = t).map f := by
  rw [release, List.eraseP_map]
  rfl

end RwLock
