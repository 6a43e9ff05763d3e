/-
**Recency lists.**

The abstract content of a least-recently-used store of capacity `k` over an arbitrary type of
keys: the list of the at most `k` most recently used distinct keys, most recent first.  Using a
key puts it in front; what no longer fits falls off the end, which is the least recently used.

Where the keys have a weight, what fits is the longest part of the list whose weights add up to the
room there is.

Main definitions:

* `Recency.touch` — using a key;
* `Recency.promote` — using the first item with a property;
* `Recency.keep`, `Recency.LongestFit` — the longest part of a list that fits.

Main results:

* `Recency.touch_of_mem`, `Recency.touch_of_lt`, `Recency.touch_of_full` — **the three cases of an
  access**: a hit reorders, a miss below the capacity inserts, and a miss at the capacity replaces
  the last key;
* `Recency.nodup_touch`, `Recency.length_touch_le` — the keys stay distinct and within the
  capacity;
* `Recency.take_touch` — **inclusion**: a smaller store holds the most recent keys of a larger one;
* `Recency.longestFit_keep`, `Recency.LongestFit.eq` — what fits, and that it is one list.
-/

import Mathlib.Algebra.BigOperators.Group.List.Basic
import Mathlib.Algebra.Ring.Nat
import Mathlib.Data.List.Basic
import Mathlib.Data.List.Nodup
import Mathlib.Tactic.Common

set_option relaxedAutoImplicit false
set_option autoImplicit false

namespace Recency

variable {α : Type*} [DecidableEq α]

/-- Using the key `x` in a store of capacity `k`. -/
def touch (k : ℕ) (l : List α) (x : α) : List α := (x :: l.erase x).take k

/-- A hit moves the key to the front. -/
theorem touch_of_mem {k : ℕ} {l : List α} {x : α} (hx : x ∈ l) (hk : l.length ≤ k) :
    touch k l x = x :: l.erase x := by
  have hlen := List.length_erase_of_mem hx
  have hpos := List.length_pos_of_mem hx
  refine List.take_of_length_le ?_
  rw [List.length_cons]
  omega

/-- A miss below the capacity inserts the key. -/
theorem touch_of_lt {k : ℕ} {l : List α} {x : α} (hx : x ∉ l) (hk : l.length < k) :
    touch k l x = x :: l := by
  rw [touch, List.erase_of_not_mem hx]
  exact List.take_of_length_le (by rw [List.length_cons]; omega)

/-- A miss at the capacity replaces the least recently used key. -/
theorem touch_of_full {k : ℕ} {l : List α} {x : α} (hx : x ∉ l) (hne : l ≠ [])
    (hk : l.length = k) : touch k l x = x :: l.dropLast := by
  have hpos := List.length_pos_of_ne_nil hne
  obtain ⟨m, rfl⟩ : ∃ m, k = m + 1 := ⟨k - 1, by omega⟩
  rw [touch, List.erase_of_not_mem hx, List.take_succ_cons, List.dropLast_eq_take, hk]
  rfl

/-- The key that was used is in the store. -/
theorem mem_touch {k : ℕ} (hk : 0 < k) (l : List α) (x : α) : x ∈ touch k l x := by
  obtain ⟨m, rfl⟩ := Nat.exists_eq_succ_of_ne_zero (Nat.ne_of_gt hk)
  rw [touch, List.take_succ_cons]
  exact List.mem_cons_self

/-- The keys of a store stay distinct. -/
theorem nodup_touch {k : ℕ} {l : List α} {x : α} (hl : l.Nodup) : (touch k l x).Nodup := by
  refine List.Nodup.sublist (List.take_sublist _ _) ?_
  exact List.nodup_cons.2 ⟨fun h => (List.Nodup.mem_erase_iff hl).1 h |>.1 rfl, hl.erase x⟩

/-- A store never exceeds its capacity. -/
theorem length_touch_le (k : ℕ) (l : List α) (x : α) : (touch k l x).length ≤ k :=
  List.length_take_le _ _

/-- A hit does not change the number of keys. -/
theorem length_touch_of_mem {k : ℕ} {l : List α} {x : α} (hx : x ∈ l) (hk : l.length ≤ k) :
    (touch k l x).length = l.length := by
  have hpos := List.length_pos_of_mem hx
  rw [touch_of_mem hx hk, List.length_cons, List.length_erase_of_mem hx]
  omega

/-- A miss adds a key as long as there is room. -/
theorem length_touch_of_not_mem {k : ℕ} {l : List α} {x : α} (hx : x ∉ l) :
    (touch k l x).length = min k (l.length + 1) := by
  rw [touch, List.erase_of_not_mem hx, List.length_take, List.length_cons]

/-- Taking a key out commutes with cutting the list behind the next position. -/
theorem take_erase_take (k : ℕ) (l : List α) (x : α) :
    ((l.take (k + 1)).erase x).take k = (l.erase x).take k := by
  induction l generalizing k with
  | nil => rfl
  | cons y l ih =>
      rw [List.take_succ_cons, List.erase_cons, List.erase_cons]
      split
      · rw [List.take_take, Nat.min_self]
      · cases k with
        | zero => rfl
        | succ k => rw [List.take_succ_cons, List.take_succ_cons, ih]

/-- **Inclusion**: what the smaller of two stores holds are the most recent keys of the larger one,
and this survives the use of a key. -/
theorem take_touch {j k : ℕ} (hjk : j ≤ k) (l : List α) (x : α) :
    (touch k l x).take j = touch j (l.take j) x := by
  rw [touch, touch, List.take_take, Nat.min_eq_left hjk]
  cases j with
  | zero => rfl
  | succ j => rw [List.take_succ_cons, List.take_succ_cons, take_erase_take]

/-- An injective renaming of the keys commutes with using a key. -/
theorem touch_map {β : Type*} [DecidableEq β] {f : α → β} (hf : Function.Injective f) (k : ℕ)
    (l : List α) (x : α) : touch k (l.map f) (f x) = (touch k l x).map f := by
  rw [touch, touch, ← List.map_erase hf, ← List.map_cons, List.map_take]

/-- Using a key of a list of images. -/
theorem touch_image {β : Type*} (k : ℕ) (u : β → α) (l : List β) (x : β) :
    touch k (l.map u) (u x) = ((x :: l.eraseP fun y => u y = u x).take k).map u := by
  have herase : (l.map u).erase (u x) = (l.eraseP fun y => u y = u x).map u := by
    rw [List.erase_eq_eraseP', List.eraseP_map]
    rfl
  rw [touch, herase, ← List.map_cons, List.map_take]

theorem eraseP_congr {β : Type*} {p q : β → Bool} {l : List β} (h : ∀ x ∈ l, p x = q x) :
    l.eraseP p = l.eraseP q := by
  induction l with
  | nil => rfl
  | cons x l ih =>
      rw [List.eraseP_cons, List.eraseP_cons, h x List.mem_cons_self,
        ih fun y hy => h y (List.mem_cons_of_mem x hy)]

/-! ### Items with a property -/

section Items

variable {β : Type*}

/-- Using the first item with a property. -/
def promote (p : β → Bool) (l : List β) : List β :=
  match l.find? p with
  | some x => x :: l.eraseP p
  | none => l

theorem promote_of_found {p : β → Bool} {l₁ l₂ : List β} {x : β} (hx : p x = true)
    (hl₁ : ∀ y ∈ l₁, p y = false) : promote p (l₁ ++ x :: l₂) = x :: (l₁ ++ l₂) := by
  have hnot : ∀ y ∈ l₁, ¬ p y = true := fun y hy => by simp [hl₁ y hy]
  have hfind : (l₁ ++ x :: l₂).find? p = some x :=
    List.find?_eq_some_iff_append.2 ⟨hx, l₁, l₂, rfl, fun y hy => by simp [hl₁ y hy]⟩
  rw [promote, hfind]
  simp [List.eraseP_append_right _ hnot, hx]

theorem promote_of_missing {p : β → Bool} {l : List β} (h : l.find? p = none) :
    promote p l = l := by
  rw [promote, h]

/-- Using an item loses none. -/
theorem promote_perm (p : β → Bool) (l : List β) : (promote p l).Perm l := by
  cases hfind : l.find? p with
  | none => rw [promote_of_missing hfind]
  | some x =>
      obtain ⟨hx, l₁, l₂, rfl, hl₁⟩ := List.find?_eq_some_iff_append.1 hfind
      rw [promote_of_found hx fun y hy => by simpa using hl₁ y hy]
      exact List.perm_middle.symm

/-- A renaming of the items commutes with using one. -/
theorem promote_map {γ : Type*} (f : β → γ) (p : γ → Bool) (l : List β) :
    promote p (l.map f) = (promote (p ∘ f) l).map f := by
  rw [promote, promote, List.find?_map, List.eraseP_map]
  cases l.find? (p ∘ f) <;> rfl

/-! ### Weights -/

variable (w : β → ℕ)

/-- The longest part from the front whose weights add up to at most `room`. -/
def keep (room : ℕ) : List β → List β
  | [] => []
  | x :: l => if w x ≤ room then x :: keep (room - w x) l else []

/-- `l'` is the longest part from the front of `l` that fits. -/
structure LongestFit (room : ℕ) (l l' : List β) : Prop where
  front : l' <+: l
  fits : (l'.map w).sum ≤ room
  longest : ∀ l'', l'' <+: l → (l''.map w).sum ≤ room → l'' <+: l'

/-- **What is kept is the longest part that fits.** -/
theorem longestFit_keep (room : ℕ) (l : List β) : LongestFit w room l (keep w room l) := by
  induction l generalizing room with
  | nil => exact ⟨List.prefix_refl _, Nat.zero_le _, fun l'' hl _ => hl⟩
  | cons x l ih =>
      rw [keep]
      split
      · rename_i hx
        obtain ⟨hfront, hfits, hlongest⟩ := ih (room - w x)
        refine ⟨List.cons_prefix_cons.2 ⟨rfl, hfront⟩, ?_, fun l'' hl hsum => ?_⟩
        · rw [List.map_cons, List.sum_cons]
          omega
        · cases l'' with
          | nil => exact List.nil_prefix
          | cons y l'' =>
              obtain ⟨rfl, htail⟩ := List.cons_prefix_cons.1 hl
              rw [List.map_cons, List.sum_cons] at hsum
              exact List.cons_prefix_cons.2 ⟨rfl, hlongest l'' htail (by omega)⟩
      · rename_i hx
        refine ⟨List.nil_prefix, Nat.zero_le _, fun l'' hl hsum => ?_⟩
        cases l'' with
        | nil => exact List.prefix_refl _
        | cons y l'' =>
            obtain ⟨rfl, -⟩ := List.cons_prefix_cons.1 hl
            rw [List.map_cons, List.sum_cons] at hsum
            omega

variable {w}

/-- There is only one longest part that fits. -/
theorem LongestFit.eq {room : ℕ} {l l₁ l₂ : List β} (h₁ : LongestFit w room l l₁)
    (h₂ : LongestFit w room l l₂) : l₁ = l₂ :=
  (h₂.longest l₁ h₁.front h₁.fits).eq_of_length_le
    (h₁.longest l₂ h₂.front h₂.fits).length_le

/-- A renaming of the items that keeps their weights commutes with cutting. -/
theorem LongestFit.map {γ : Type*} {f : γ → β} {room : ℕ} {l l' : List γ}
    (h : LongestFit (w ∘ f) room l l') : LongestFit w room (l.map f) (l'.map f) where
  front := h.front.map f
  fits := by
    rw [List.map_map]
    exact h.fits
  longest l'' hl hsum := by
    obtain ⟨l₀, hl₀, rfl⟩ := List.prefix_map_iff.1 hl
    rw [List.map_map] at hsum
    exact (h.longest l₀ hl₀ hsum).map f

end Items

end Recency
