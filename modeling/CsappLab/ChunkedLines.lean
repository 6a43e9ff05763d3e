/-
**Lines of a stream that arrives in pieces.**

A source hands out its elements in pieces: it holds a buffer, and asks for the next piece when the
buffer is empty.  A request may be interrupted, and is then made again, or it may fail.  Whoever
takes one element after the other sees neither the borders of the pieces nor the interruptions, but
only the elements, and whether a failure comes behind them.

A line ends behind the first element that stops it, or when it is as long as a line may be, or
where the elements end.

Main definitions:

* `Chunked.Source` — a source of elements; `elems` and `fails` are what can be seen of it;
* `Chunked.line`, `Chunked.lines` — the first line of a list, and all its lines.

Main results:

* `Chunked.Source.refill_spec` — what a refill keeps;
* `Chunked.line_eq`, `Chunked.lines_append` — a line that is terminated is read whole;
* `Chunked.flatten_lines` — no element is lost;
* `Chunked.lines_concat` — a terminator ends a line wherever it stands.
-/

import Mathlib.Data.List.Basic
import Mathlib.Tactic.Common

set_option relaxedAutoImplicit false
set_option autoImplicit false

namespace Chunked

/-! ### Sources -/

/-- What comes back from a request for more elements: a piece, which is not empty, an interruption
or a failure. -/
inductive Pull (α : Type*) where
  | data (x : α) (xs : List α)
  | again
  | fail
  deriving DecidableEq

/-- What is left of the current piece, and what the requests to come will bring; behind them is the
end. -/
structure Source (α : Type*) where
  buffered : List α
  pulls : List (Pull α)

variable {α : Type*}

/-- The elements before the first failure. -/
def ahead : List (Pull α) → List α
  | [] => []
  | .data x xs :: ps => x :: xs ++ ahead ps
  | .again :: ps => ahead ps
  | .fail :: _ => []

/-- There is a failure. -/
def failsAhead : List (Pull α) → Bool
  | [] => false
  | .data _ _ :: ps => failsAhead ps
  | .again :: ps => failsAhead ps
  | .fail :: _ => true

namespace Source

/-- All elements that can be taken. -/
def elems (s : Source α) : List α := s.buffered ++ ahead s.pulls

/-- What comes behind the elements is a failure, and not the end. -/
def fails (s : Source α) : Bool := failsAhead s.pulls

/-- Ask for pieces until there is one; no result when a request fails. -/
def refillFrom : List (Pull α) → Option (Source α)
  | [] => some ⟨[], []⟩
  | .data x xs :: ps => some ⟨x :: xs, ps⟩
  | .again :: ps => refillFrom ps
  | .fail :: _ => none

/-- A source with something in its buffer, if there is anything left. -/
def refill (s : Source α) : Option (Source α) :=
  match s.buffered with
  | [] => refillFrom s.pulls
  | _ :: _ => some s

theorem refillFrom_spec (ps : List (Pull α)) :
    (refillFrom ps = none ∧ ahead ps = [] ∧ failsAhead ps = true) ∨
      ∃ t, refillFrom ps = some t ∧ t.elems = ahead ps ∧ t.fails = failsAhead ps ∧
        (t.buffered = [] → ahead ps = [] ∧ failsAhead ps = false) := by
  induction ps with
  | nil => exact .inr ⟨_, rfl, rfl, rfl, fun _ => ⟨rfl, rfl⟩⟩
  | cons p ps ih =>
      cases p with
      | data x xs => exact .inr ⟨_, rfl, rfl, rfl, fun h => by cases h⟩
      | again => exact ih
      | fail => exact .inl ⟨rfl, rfl, rfl⟩

/-- **A refill** keeps what can be seen of a source; afterwards its buffer is empty only at the end,
and it has no result only when a failure is next. -/
theorem refill_spec (s : Source α) :
    (s.refill = none ∧ s.elems = [] ∧ s.fails = true) ∨
      ∃ t, s.refill = some t ∧ t.elems = s.elems ∧ t.fails = s.fails ∧
        (t.buffered = [] → s.elems = [] ∧ s.fails = false) := by
  obtain ⟨buffered, pulls⟩ := s
  cases buffered with
  | nil => exact refillFrom_spec pulls
  | cons x xs => exact .inr ⟨_, rfl, rfl, rfl, fun h => by cases h⟩

end Source

/-! ### Lines -/

variable {stop : α → Bool} {n : ℕ} {xs ys l w : List α} {x : α}

/-- The first line of a list, of at most `n` elements. -/
def line (stop : α → Bool) : ℕ → List α → List α
  | 0, _ => []
  | _ + 1, [] => []
  | n + 1, x :: xs => if stop x then [x] else x :: line stop n xs

/-- The first line ends for another reason than that there are no more elements. -/
def closed (stop : α → Bool) : ℕ → List α → Bool
  | 0, _ => true
  | _ + 1, [] => false
  | n + 1, x :: xs => stop x || closed stop n xs

theorem line_isPrefix (stop : α → Bool) (n : ℕ) (xs : List α) : line stop n xs <+: xs := by
  induction n generalizing xs with
  | zero => exact List.nil_prefix
  | succ n ih =>
      cases xs with
      | nil => exact List.nil_prefix
      | cons x xs =>
          rw [line]
          split
          · exact ⟨xs, rfl⟩
          · exact (List.prefix_cons_inj x).2 (ih xs)

theorem length_line_le (stop : α → Bool) (n : ℕ) (xs : List α) : (line stop n xs).length ≤ n := by
  induction n generalizing xs with
  | zero => exact Nat.le_refl 0
  | succ n ih =>
      cases xs with
      | nil => exact Nat.zero_le _
      | cons x xs =>
          rw [line]
          split
          · exact Nat.succ_le_succ (Nat.zero_le n)
          · exact Nat.succ_le_succ (ih xs)

theorem line_cons_ne_nil (stop : α → Bool) (n : ℕ) (x : α) (xs : List α) :
    line stop (n + 1) (x :: xs) ≠ [] := by
  rw [line]
  split <;> simp

/-- An element that stops a line is its last. -/
theorem not_stop_of_mem_dropLast (hx : x ∈ (line stop n xs).dropLast) : stop x = false := by
  induction n generalizing xs with
  | zero => cases hx
  | succ n ih =>
      cases xs with
      | nil => cases hx
      | cons y xs =>
          rw [line] at hx
          split at hx
          · cases hx
          · rename_i hy
            cases hrest : line stop n xs with
            | nil =>
                rw [hrest] at hx
                cases hx
            | cons z zs =>
                rw [hrest, List.dropLast_cons_of_ne_nil (by simp), ← hrest] at hx
                rcases List.mem_cons.1 hx with rfl | hx
                · simpa using hy
                · exact ih hx

/-- **A line that is terminated** is read whole, whatever comes behind it. -/
theorem line_eq (hw : ∀ y ∈ w, stop y = false) (hx : stop x = true) (hn : w.length < n) :
    line stop n (w ++ x :: xs) = w ++ [x] := by
  induction w generalizing n with
  | nil =>
      cases n with
      | zero => cases hn
      | succ n => exact if_pos hx
  | cons y w ih =>
      cases n with
      | zero => cases hn
      | succ n =>
          have hy : ¬ stop y = true := by
            rw [hw y List.mem_cons_self]
            exact Bool.false_ne_true
          rw [List.cons_append, line, if_neg hy,
            ih (fun z hz => hw z (List.mem_cons_of_mem _ hz)) (Nat.lt_of_succ_lt_succ hn)]
          rfl

/-- What is left behind the last line that ends. -/
theorem not_stop_of_not_closed (h : closed stop n xs = false) (hx : x ∈ xs) : stop x = false := by
  induction n generalizing xs with
  | zero => cases h
  | succ n ih =>
      cases xs with
      | nil => cases hx
      | cons y xs =>
          obtain ⟨hy, hxs⟩ := Bool.or_eq_false_iff.1 h
          rcases List.mem_cons.1 hx with rfl | hx
          · exact hy
          · exact ih hxs hx

/-- The lines of a list, each of at most `n + 1` elements. -/
def lines (stop : α → Bool) (n : ℕ) : List α → List (List α)
  | [] => []
  | x :: xs => line stop (n + 1) (x :: xs) ::
      lines stop n ((x :: xs).drop (line stop (n + 1) (x :: xs)).length)
  termination_by xs => xs.length
  decreasing_by
    have := List.length_pos_iff.2 (line_cons_ne_nil stop n x xs)
    simp only [List.length_drop, List.length_cons]
    omega

theorem lines_nil (stop : α → Bool) (n : ℕ) : lines stop n [] = [] := by rw [lines]

theorem lines_of_ne_nil (h : xs ≠ []) : lines stop n xs =
    line stop (n + 1) xs :: lines stop n (xs.drop (line stop (n + 1) xs).length) := by
  cases xs with
  | nil => exact absurd rfl h
  | cons x xs => rw [lines]

/-- **No element is lost.** -/
theorem flatten_lines (stop : α → Bool) (n : ℕ) (xs : List α) : (lines stop n xs).flatten = xs := by
  fun_induction lines stop n xs with
  | case1 => rfl
  | case2 x xs ih =>
      rw [List.flatten_cons, ih]
      exact List.prefix_iff_eq_append.1 (line_isPrefix stop (n + 1) (x :: xs))

/-- What holds of every first line holds of every line. -/
theorem forall_mem_lines {P : List α → Prop} (h : ∀ x xs, P (line stop (n + 1) (x :: xs)))
    (hl : l ∈ lines stop n xs) : P l := by
  fun_induction lines stop n xs with
  | case1 => cases hl
  | case2 x xs ih =>
      rcases List.mem_cons.1 hl with rfl | hl
      · exact h x xs
      · exact ih hl

/-- **Terminated lines are read one by one**, whatever comes behind them. -/
theorem lines_append {ls : List (List α)} (hls : ∀ l ∈ ls, ∃ w x, l = w ++ [x] ∧
    (∀ y ∈ w, stop y = false) ∧ stop x = true ∧ w.length ≤ n) :
    lines stop n (ls.flatten ++ ys) = ls ++ lines stop n ys := by
  induction ls with
  | nil => rfl
  | cons l ls ih =>
      obtain ⟨w, x, rfl, hw, hx, hn⟩ := hls l List.mem_cons_self
      have hline : line stop (n + 1) (w ++ x :: (ls.flatten ++ ys)) = w ++ [x] :=
        line_eq hw hx (Nat.lt_succ_of_le hn)
      have hsplit : ((w ++ [x]) :: ls).flatten ++ ys = w ++ x :: (ls.flatten ++ ys) := by
        simp
      rw [hsplit, lines_of_ne_nil (by simp), hline,
        show w ++ x :: (ls.flatten ++ ys) = (w ++ [x]) ++ (ls.flatten ++ ys) by simp,
        List.drop_left, ih fun l hl => hls l (List.mem_cons_of_mem _ hl)]
      rfl

theorem line_concat (hx : stop x = true) :
    line stop n (xs ++ x :: ys) = line stop n (xs ++ [x]) := by
  induction n generalizing xs with
  | zero => rfl
  | succ n ih =>
      cases xs with
      | nil =>
          rw [List.nil_append, List.nil_append, line, line, if_pos hx, if_pos hx]
      | cons y xs => rw [List.cons_append, List.cons_append, line, line, ih]

/-- **A terminator ends a line**, however the text in front of it is cut. -/
theorem lines_concat (hx : stop x = true) :
    lines stop n (xs ++ x :: ys) = lines stop n (xs ++ [x]) ++ lines stop n ys := by
  induction hlen : xs.length using Nat.strongRecOn generalizing xs with
  | _ m ih =>
      have hne : ∀ zs, xs ++ x :: zs ≠ [] := fun zs h => by simp at h
      obtain ⟨y, zs, hcons⟩ := List.exists_cons_of_ne_nil (hne [])
      have hpos : line stop (n + 1) (xs ++ [x]) ≠ [] := by
        rw [hcons]
        exact line_cons_ne_nil stop n y zs
      obtain ⟨r, hr⟩ := line_isPrefix stop (n + 1) (xs ++ [x])
      rw [lines_of_ne_nil (hne ys), lines_of_ne_nil (hne []), line_concat hx]
      generalize line stop (n + 1) (xs ++ [x]) = l at hpos hr ⊢
      rcases List.eq_nil_or_concat r with rfl | ⟨r, z, rfl⟩
      · -- the line is all there is in front
        rw [List.append_nil] at hr
        rw [hr, List.drop_length, lines_nil, show xs ++ x :: ys = xs ++ [x] ++ ys by simp,
          List.drop_left]
        rfl
      · rw [List.concat_eq_append, ← List.append_assoc] at hr
        obtain ⟨rfl, hz⟩ := List.append_inj' hr rfl
        have hlt : r.length < m := by
          rw [← hlen, List.length_append]
          exact Nat.lt_add_of_pos_left (List.length_pos_iff.2 hpos)
        rw [List.append_assoc, List.append_assoc, List.drop_left, List.drop_left, List.cons_append,
          ih r.length hlt rfl]

end Chunked
