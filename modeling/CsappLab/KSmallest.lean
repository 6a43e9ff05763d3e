/-
**The smallest elements of a stream.**

The `k` smallest elements of a list over a linear order, in order.  They can be kept up to date with
`k` cells: a new element goes to its place among them, and what is then too many falls off the end.
In an array this is done by exchanging neighbours, from the last cell down, until the new element is
in its place.

Main definitions:

* `Smallest.smallest` — the `k` smallest elements of a list;
* `Smallest.row`, `Smallest.sift` — the first cells of an array, and the exchanges.

Main results:

* `Smallest.smallest_concat` — one more element;
* `Smallest.row_sift` — **the exchanges insert the last element**;
* `Smallest.isLeast_smallest` — the first of them is the least element.
-/

import Mathlib.Data.List.Sort
import Mathlib.Order.Bounds.Basic
import Mathlib.Tactic.Common

set_option relaxedAutoImplicit false
set_option autoImplicit false

namespace Smallest

variable {α : Type*} [LinearOrder α] {k : ℕ} {l : List α} {x y : α}

/-! ### Sorted lists -/

/-- A sorted list. -/
abbrev Sorted (l : List α) : Prop := l.Pairwise (· ≤ ·)

/-- Behind the elements it is not below. -/
theorem orderedInsert_last (hl : Sorted l) (hx : ∀ y ∈ l, y ≤ x) :
    l.orderedInsert (· ≤ ·) x = l ++ [x] := by
  refine List.Perm.eq_of_pairwise' (r := (· ≤ ·)) (hl.orderedInsert x) ?_ ?_
  · exact List.pairwise_append.2 ⟨hl, List.pairwise_singleton _ _,
      fun y hy z hz => by rw [List.mem_singleton.1 hz]; exact hx y hy⟩
  · exact (List.perm_orderedInsert _ x l).trans (List.perm_append_singleton x l).symm

/-- Before a last element that it is not above. -/
theorem orderedInsert_append (hl : Sorted (l ++ [y])) (hxy : x ≤ y) :
    (l ++ [y]).orderedInsert (· ≤ ·) x = l.orderedInsert (· ≤ ·) x ++ [y] := by
  obtain ⟨hsorted, -, hlast⟩ := List.pairwise_append.1 hl
  refine List.Perm.eq_of_pairwise' (r := (· ≤ ·)) (hl.orderedInsert x) ?_ ?_
  · refine List.pairwise_append.2 ⟨hsorted.orderedInsert x, List.pairwise_singleton _ _,
      fun z hz w hw => ?_⟩
    rw [List.mem_singleton.1 hw]
    rcases (List.mem_orderedInsert _).1 hz with rfl | hz
    · exact hxy
    · exact hlast z hz y (List.mem_singleton_self y)
  · exact (List.perm_orderedInsert _ x _).trans
      ((List.perm_orderedInsert _ x l).append_right [y]).symm

/-- What is cut off first does not come back. -/
theorem take_orderedInsert (k : ℕ) (l : List α) (x : α) :
    (l.orderedInsert (· ≤ ·) x).take k = ((l.take k).orderedInsert (· ≤ ·) x).take k := by
  induction l generalizing k with
  | nil => rw [List.take_nil]
  | cons y l ih =>
      cases k with
      | zero => rw [List.take_zero, List.take_zero]
      | succ k =>
          rw [List.take_succ_cons, List.orderedInsert_cons, List.orderedInsert_cons]
          split
          · cases k with
            | zero => rfl
            | succ k =>
                rw [List.take_succ_cons, List.take_succ_cons, List.take_succ_cons,
                  List.take_succ_cons, List.take_take, Nat.min_eq_left (Nat.le_succ k)]
          · rw [List.take_succ_cons, List.take_succ_cons, ih]

/-! ### The smallest elements -/

/-- The `k` smallest elements of a list, in order. -/
def smallest (k : ℕ) (xs : List α) : List α := (xs.insertionSort (· ≤ ·)).take k

theorem insertionSort_concat (xs : List α) (x : α) :
    (xs ++ [x]).insertionSort (· ≤ ·) =
      (xs.insertionSort (· ≤ ·)).orderedInsert (· ≤ ·) x := by
  have hsorted := List.pairwise_insertionSort (· ≤ ·) xs
  refine List.Perm.eq_of_pairwise' (r := (· ≤ ·)) (List.pairwise_insertionSort _ _)
    (hsorted.orderedInsert x) ?_
  have hleft :=
    (List.perm_insertionSort (· ≤ ·) (xs ++ [x])).trans (List.perm_append_singleton x xs)
  have hright := (List.perm_orderedInsert (· ≤ ·) x _).trans
    ((List.perm_insertionSort (· ≤ ·) xs).cons x)
  exact hleft.trans hright.symm

/-- **One more element.** -/
theorem smallest_concat (k : ℕ) (xs : List α) (x : α) :
    smallest k (xs ++ [x]) = ((smallest k xs).orderedInsert (· ≤ ·) x).take k := by
  rw [smallest, insertionSort_concat, take_orderedInsert, smallest]

theorem sorted_smallest (k : ℕ) (xs : List α) : Sorted (smallest k xs) :=
  (List.pairwise_insertionSort (· ≤ ·) xs).sublist (List.take_sublist _ _)

theorem length_smallest (k : ℕ) (xs : List α) :
    (smallest k xs).length = min k xs.length := by
  rw [smallest, List.length_take, List.length_insertionSort]

/-- The first of the smallest elements is the least. -/
theorem isLeast_smallest {xs : List α} {rest : List α} (h : smallest k xs = x :: rest) :
    IsLeast {y | y ∈ xs} x := by
  have hsorted := List.pairwise_insertionSort (· ≤ ·) xs
  have hperm := List.perm_insertionSort (· ≤ ·) xs
  rw [smallest] at h
  cases hs : xs.insertionSort (· ≤ ·) with
  | nil => simp [hs] at h
  | cons y ys =>
      rw [hs] at h hsorted hperm
      obtain ⟨k, rfl⟩ : ∃ k', k = k' + 1 := by
        cases k with
        | zero => simp at h
        | succ k => exact ⟨k, rfl⟩
      rw [List.take_succ_cons, List.cons.injEq] at h
      obtain ⟨rfl, -⟩ := h
      refine ⟨hperm.mem_iff.1 List.mem_cons_self, fun z hz => ?_⟩
      rcases List.mem_cons.1 (hperm.mem_iff.2 hz) with rfl | hz
      · exact le_refl _
      · exact (List.pairwise_cons.1 hsorted).1 z hz

/-! ### In an array -/

/-- The first `n` cells. -/
def row (values : ℕ → α) (n : ℕ) : List α := (List.range n).map values

omit [LinearOrder α] in
theorem row_succ (values : ℕ → α) (n : ℕ) : row values (n + 1) = row values n ++ [values n] := by
  rw [row, List.range_succ, List.map_append, List.map_singleton, row]

omit [LinearOrder α] in
theorem length_row (values : ℕ → α) (n : ℕ) : (row values n).length = n := by
  rw [row, List.length_map, List.length_range]

omit [LinearOrder α] in
theorem row_congr {values values' : ℕ → α} {n : ℕ} (h : ∀ i < n, values' i = values i) :
    row values' n = row values n :=
  List.map_congr_left fun i hi => h i (List.mem_range.1 hi)

/-- Exchanging the cell `pos` with the one before it, as long as that one is greater. -/
def sift (values : ℕ → α) : ℕ → ℕ → α
  | 0 => values
  | pos + 1 =>
      if values (pos + 1) < values pos then
        let temp := values pos
        let values := Function.update values pos (values (pos + 1))
        let values := Function.update values (pos + 1) temp
        sift values pos
      else values

theorem sift_of_lt (values : ℕ → α) {pos i : ℕ} (hi : pos < i) : sift values pos i = values i := by
  induction pos generalizing values with
  | zero => rfl
  | succ pos ih =>
      rw [sift]
      split
      · rw [ih _ (by omega), Function.update_of_ne (by omega), Function.update_of_ne (by omega)]
      · rfl

/-- **The exchanges insert the last element** into the sorted cells before it. -/
theorem row_sift {values : ℕ → α} {pos : ℕ} (hsorted : Sorted (row values pos)) :
    row (sift values pos) (pos + 1) = (row values pos).orderedInsert (· ≤ ·) (values pos) := by
  induction pos generalizing values with
  | zero => rfl
  | succ pos ih =>
      rw [sift]
      split
      · rename_i hlt
        set values' := Function.update (Function.update values pos (values (pos + 1))) (pos + 1)
          (values pos) with hvalues'
        have hrow : row values' pos = row values pos := row_congr fun i hi => by
          rw [hvalues', Function.update_of_ne (by omega), Function.update_of_ne (by omega)]
        have hpos : values' pos = values (pos + 1) := by
          rw [hvalues', Function.update_of_ne (by omega), Function.update_self]
        have hnext : values' (pos + 1) = values pos := by rw [hvalues', Function.update_self]
        rw [row_succ] at hsorted
        have hinit := (List.pairwise_append.1 hsorted).1
        have hfront : Sorted (row values' pos) := by rwa [hrow]
        have hstep := ih hfront
        rw [hrow, hpos] at hstep
        have htop : sift values' pos (pos + 1) = values pos := by
          rw [sift_of_lt values' (Nat.lt_succ_self pos), hnext]
        rw [row_succ, hstep, htop, row_succ values pos, orderedInsert_append hsorted hlt.le]
      · rename_i hle
        rw [row_succ, orderedInsert_last hsorted]
        rw [row_succ] at hsorted ⊢
        have hlast := (List.pairwise_append.1 hsorted).2.2
        intro y hy
        rcases List.mem_append.1 hy with hy | hy
        · exact (hlast y hy _ (List.mem_singleton_self _)).trans (not_lt.1 hle)
        · rw [List.mem_singleton.1 hy]
          exact not_lt.1 hle

end Smallest
