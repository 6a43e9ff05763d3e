/-
**Serving requests from a small store.**

A store of `k` keys serves a sequence of requests; a request for a key that is not in the store
loads it.  The least-recently-used store holds, at any time, the `k` keys used last, so that what it
does is determined by the reuse distances of the requests alone, whatever its capacity.  It is
compared with any other way to serve the same requests, one that knows the requests to come
included: a potential pays for what the other evicts.

Main definitions:

* `Paging.uses`, `Paging.faults` — the content of the least-recently-used store after a sequence of
  requests, and the number of requests that were not served from it;
* `Paging.reuse` — the number of keys used since the last use of a key;
* `Paging.Serves` — any way to serve a sequence of requests, with its loads;
* `Paging.debt` — the keys the other store does not hold, each with its rank.

Main results:

* `Paging.uses_eq` — **the content**: the `k` keys used last;
* `Paging.mem_uses_iff` — **the reuse distance decides** whether a key is in the store;
* `Paging.serves_lru` — the least-recently-used store is one of the ways to serve requests;
* `Paging.Serves.faults_le` — **it evicts at most `k / (k - h + 1)` times as often** as any way to
  serve the requests with `h` keys.
-/

import CsappLab.RecencyList
import Mathlib.Data.List.Dedup
import Mathlib.Data.Finset.Card

set_option relaxedAutoImplicit false
set_option autoImplicit false

namespace Paging

open Recency

variable {α : Type*} [DecidableEq α]

/-! ### The least-recently-used store -/

/-- The content of the least-recently-used store after the requests, most recent first. -/
def uses (k : ℕ) (xs : List α) : List α := xs.foldl (touch k) []

theorem uses_concat (k : ℕ) (xs : List α) (x : α) :
    uses k (xs ++ [x]) = touch k (uses k xs) x := by
  rw [uses, List.foldl_concat, uses]

theorem nodup_uses (k : ℕ) (xs : List α) : (uses k xs).Nodup := by
  induction xs using List.reverseRecOn with
  | nil => exact List.nodup_nil
  | append_singleton xs x ih =>
      rw [uses_concat]
      exact nodup_touch ih

theorem length_uses_le (k : ℕ) (xs : List α) : (uses k xs).length ≤ k := by
  cases xs using List.reverseRecOn with
  | nil => exact Nat.zero_le k
  | append_singleton xs x =>
      rw [uses_concat]
      exact length_touch_le k _ x

/-- The number of requests that the store did not hold. -/
def faults (k : ℕ) (xs : List α) : ℕ :=
  (xs.foldl (fun st x => (touch k st.1 x, if x ∈ st.1 then st.2 else st.2 + 1)) ([], 0)).2

theorem faults_concat (k : ℕ) (xs : List α) (x : α) :
    faults k (xs ++ [x]) = faults k xs + if x ∈ uses k xs then 0 else 1 := by
  have hfst : ∀ ys : List α,
      (ys.foldl (fun st x => (touch k st.1 x, if x ∈ st.1 then st.2 else st.2 + 1))
        ([], 0)).1 = uses k ys := by
    intro ys
    induction ys using List.reverseRecOn with
    | nil => rfl
    | append_singleton ys y ih =>
        rw [List.foldl_concat, uses_concat]
        exact congrArg (touch k · y) ih
  rw [faults, List.foldl_concat, ← hfst xs]
  dsimp only
  split <;> rfl

/-- The store fills up with its faults. -/
theorem length_uses (k : ℕ) (xs : List α) : (uses k xs).length = min (faults k xs) k := by
  induction xs using List.reverseRecOn with
  | nil => exact (Nat.zero_min k).symm
  | append_singleton xs x ih =>
      have hlen := length_uses_le k xs
      rw [uses_concat, faults_concat]
      split
      · rename_i hx
        rw [length_touch_of_mem hx hlen, ih, Nat.add_zero]
      · rename_i hx
        rw [length_touch_of_not_mem hx, ih]
        omega

/-! ### Reuse distances -/

/-- Of the uses of a key only the last one counts. -/
theorem dedup_concat (xs : List α) (x : α) :
    (xs ++ [x]).dedup = xs.dedup.erase x ++ [x] := by
  induction xs with
  | nil => rfl
  | cons y xs ih =>
      rw [List.cons_append]
      by_cases hy : y ∈ xs
      · rw [List.dedup_cons_of_mem hy, List.dedup_cons_of_mem (List.mem_append_left _ hy), ih]
      · rw [List.dedup_cons_of_notMem hy]
        by_cases hyx : y = x
        · subst hyx
          rw [List.dedup_cons_of_mem (by simp), ih, List.erase_cons_head,
            List.erase_of_not_mem fun h => hy (List.mem_dedup.1 h)]
        · rw [List.dedup_cons_of_notMem (by simp [hy, hyx]), ih,
            List.erase_cons_tail (by simpa using hyx), List.cons_append]

/-- **The content** of the store: the `k` keys used last. -/
theorem uses_eq (k : ℕ) (xs : List α) : uses k xs = xs.dedup.reverse.take k := by
  induction xs using List.reverseRecOn with
  | nil => rw [uses, List.foldl_nil, List.dedup_nil, List.reverse_nil, List.take_nil]
  | append_singleton xs x ih =>
      have herase : (xs.dedup.erase x).reverse = xs.dedup.reverse.erase x := by
        rw [(List.nodup_dedup xs).erase_eq_filter,
          (List.nodup_reverse.2 (List.nodup_dedup xs)).erase_eq_filter, List.filter_reverse]
      rw [uses_concat, ih, dedup_concat, List.reverse_append, List.reverse_singleton,
        List.singleton_append, herase, touch]
      cases k with
      | zero => rfl
      | succ k => rw [List.take_succ_cons, List.take_succ_cons, take_erase_take]

/-- The keys used after the last use of `x` come after it. -/
theorem dedup_append_cons (ys : List α) {zs : List α} {x : α} (hx : x ∉ zs) :
    ∃ us, (ys ++ x :: zs).dedup = us ++ x :: zs.dedup := by
  induction ys with
  | nil => exact ⟨[], List.dedup_cons_of_notMem hx⟩
  | cons y ys ih =>
      obtain ⟨us, hus⟩ := ih
      rw [List.cons_append]
      by_cases hy : y ∈ ys ++ x :: zs
      · exact ⟨us, by rw [List.dedup_cons_of_mem hy, hus]⟩
      · exact ⟨y :: us, by rw [List.dedup_cons_of_notMem hy, hus, List.cons_append]⟩

omit [DecidableEq α] in
/-- What is among the first `k` of distinct keys. -/
theorem mem_take_iff {k : ℕ} {l₁ l₂ : List α} {x : α} (hx : x ∉ l₁) :
    x ∈ (l₁ ++ x :: l₂).take k ↔ l₁.length < k := by
  constructor
  · intro h
    by_contra hlen
    rw [List.take_append_of_le_length (by omega)] at h
    exact hx (List.mem_of_mem_take h)
  · intro h
    rw [List.take_append, List.take_of_length_le (by omega)]
    refine List.mem_append_right _ ?_
    rw [show k - l₁.length = (k - l₁.length - 1) + 1 by omega, List.take_succ_cons]
    exact List.mem_cons_self

/-- The number of different keys used since the last use of `x`, if it was used. -/
def reuse (xs : List α) (x : α) : Option ℕ :=
  if x ∈ xs then some (xs.reverse.takeWhile (· ≠ x)).dedup.length else none

/-- What was used since the last use. -/
theorem takeWhile_reverse (ys : List α) {zs : List α} {x : α} (hx : x ∉ zs) :
    (ys ++ x :: zs).reverse.takeWhile (· ≠ x) = zs.reverse := by
  have hne : ∀ a ∈ zs.reverse, (fun a => decide (a ≠ x)) a = true := fun a ha =>
    decide_eq_true fun he => hx (he ▸ List.mem_reverse.1 ha)
  rw [List.reverse_append, List.reverse_cons, List.append_assoc,
    List.takeWhile_append_of_pos hne, List.singleton_append, List.takeWhile_cons_of_neg (by simp),
    List.append_nil]

/-- The order of the uses does not matter for their number. -/
theorem length_dedup_reverse (zs : List α) : zs.reverse.dedup.length = zs.dedup.length := by
  rw [← List.card_toFinset, ← List.card_toFinset, List.toFinset_reverse]

theorem reuse_append_cons (ys : List α) {zs : List α} {x : α} (hx : x ∉ zs) :
    reuse (ys ++ x :: zs) x = some zs.dedup.length := by
  rw [reuse, if_pos (by simp), takeWhile_reverse ys hx, length_dedup_reverse]

/-- **The reuse distance decides**: the store holds a key exactly when fewer than `k` others were
used since. -/
theorem mem_uses_iff (k : ℕ) (xs : List α) (x : α) :
    x ∈ uses k xs ↔ (reuse xs x).any (· < k) := by
  rw [uses_eq]
  by_cases hx : x ∈ xs
  · obtain ⟨zs, ys, hsplit, hzs⟩ := List.eq_append_cons_of_mem (List.mem_reverse.2 hx)
    have hxs : xs = ys.reverse ++ x :: zs.reverse := by
      rw [← List.reverse_reverse xs, hsplit, List.reverse_append, List.reverse_cons,
        List.append_assoc, List.singleton_append]
    have hlast : x ∉ zs.reverse := fun h => hzs (List.mem_reverse.1 h)
    obtain ⟨us, hus⟩ := dedup_append_cons ys.reverse hlast
    rw [hxs, reuse_append_cons _ hlast, hus, List.reverse_append, List.reverse_cons,
      List.append_assoc, List.singleton_append, mem_take_iff, List.length_reverse]
    · simp
    · exact fun h => hlast (List.mem_dedup.1 (List.mem_reverse.1 h))
  · rw [reuse, if_neg hx]
    have hnot : x ∉ xs.dedup.reverse.take k := fun h =>
      hx (List.mem_dedup.1 (List.mem_reverse.1 (List.mem_of_mem_take h)))
    simpa using hnot

/-! ### Any way to serve requests -/

/-- A store of `h` keys has served the requests, holds `C`, and has loaded a key `loads` times.
Which keys it drops, and which it loads before they are requested, is left open. -/
inductive Serves (h : ℕ) : List α → Finset α → ℕ → Prop
  | start : Serves h [] ∅ 0
  | serve {xs : List α} {C : Finset α} {loads : ℕ} (x : α) (D : Finset α) :
      Serves h xs C loads → x ∈ D → D.card ≤ h → Serves h (xs ++ [x]) D (loads + (D \ C).card)

/-- The least-recently-used store is one way to serve requests, and loads on its faults only. -/
theorem serves_lru {k : ℕ} (hk : 0 < k) (xs : List α) :
    Serves k xs (uses k xs).toFinset (faults k xs) := by
  induction xs using List.reverseRecOn with
  | nil => exact Serves.start
  | append_singleton xs x ih =>
      have hload : ((touch k (uses k xs) x).toFinset \ (uses k xs).toFinset).card =
          if x ∈ uses k xs then 0 else 1 := by
        have hsub : ∀ y ∈ touch k (uses k xs) x, y = x ∨ y ∈ uses k xs := fun y hy =>
          (List.mem_cons.1 (List.mem_of_mem_take hy)).imp_right List.mem_of_mem_erase
        split
        · rename_i hx
          rw [Finset.card_eq_zero, Finset.sdiff_eq_empty_iff_subset]
          intro y hy
          rw [List.mem_toFinset] at hy ⊢
          rcases hsub y hy with rfl | hy
          · exact hx
          · exact hy
        · rename_i hx
          rw [Finset.card_eq_one]
          refine ⟨x, Finset.ext fun y => ?_⟩
          rw [Finset.mem_sdiff, List.mem_toFinset, List.mem_toFinset, Finset.mem_singleton]
          constructor
          · rintro ⟨hy, hy'⟩
            exact (hsub y hy).resolve_right hy'
          · rintro rfl
            exact ⟨mem_touch hk _ y, hx⟩
      rw [faults_concat, uses_concat, ← hload]
      refine Serves.serve x _ ih (List.mem_toFinset.2 (mem_touch hk _ x)) ?_
      exact (List.toFinset_card_le _).trans (length_touch_le k _ x)

/-! ### The potential -/

/-- How many keys of `l` are not in `C`. -/
def outside (C : Finset α) (l : List α) : ℕ := l.countP (· ∉ C)

/-- The keys of `l` that are not in `C`, each with its rank from the end of `l`. -/
def debt (C : Finset α) : List α → ℕ
  | [] => 0
  | x :: l => (if x ∈ C then 0 else l.length + 1) + debt C l

theorem debt_cons_of_mem {C : Finset α} {x : α} (hx : x ∈ C) (l : List α) :
    debt C (x :: l) = debt C l := by
  rw [debt, if_pos hx, Nat.zero_add]

/-- Taking keys away lowers the ranks of the others, if anything. -/
theorem debt_sublist (C : Finset α) {l' l : List α} (h : l'.Sublist l) :
    debt C l' ≤ debt C l := by
  induction h with
  | slnil => exact Nat.le_refl _
  | cons x _ ih => exact ih.trans (Nat.le_add_left _ _)
  | cons_cons x hsub ih =>
      have hlen := hsub.length_le
      rw [debt, debt]
      split <;> omega

/-- Taking the last key away lowers every rank by one. -/
theorem debt_dropLast (C : Finset α) {l : List α} (hne : l ≠ []) :
    debt C l.dropLast + outside C l = debt C l := by
  induction l with
  | nil => exact absurd rfl hne
  | cons x l ih =>
      cases l with
      | nil => by_cases hx : x ∈ C <;> simp [debt, outside, hx]
      | cons y l =>
          have hrest := ih (List.cons_ne_nil y l)
          have hout : outside C (x :: y :: l) =
              outside C (y :: l) + if x ∈ C then 0 else 1 := by
            rw [outside, List.countP_cons, outside]
            by_cases hx : x ∈ C <;> simp [hx]
          rw [List.dropLast_cons_cons, debt, debt, hout, List.length_dropLast]
          simp only [List.length_cons] at *
          split <;> omega

/-- Each key that the other store drops costs at most the capacity. -/
theorem debt_change {k : ℕ} (C D : Finset α) {l : List α} (hl : l.Nodup) (hk : l.length ≤ k) :
    debt D l ≤ debt C l + k * (C \ D).card := by
  have hcount : ∀ m : List α, m.length ≤ k →
      debt D m ≤ debt C m + k * m.countP fun y => y ∈ C ∧ y ∉ D := by
    intro m
    induction m with
    | nil => exact fun _ => Nat.zero_le _
    | cons x m ih =>
        intro hm
        rw [List.length_cons] at hm
        have hrest := ih (by omega)
        rw [debt, debt, List.countP_cons]
        generalize (m.countP fun y => y ∈ C ∧ y ∉ D) = lost at *
        by_cases hx : x ∈ C <;> by_cases hx' : x ∈ D <;> simp [hx, hx', Nat.mul_succ] <;> omega
  refine (hcount l hk).trans (Nat.add_le_add_left (Nat.mul_le_mul_left k ?_) _)
  rw [List.countP_eq_length_filter, ← List.toFinset_card_of_nodup (hl.filter _)]
  refine Finset.card_le_card fun x hx => Finset.mem_sdiff.2 ?_
  simpa using (List.mem_filter.1 (List.mem_toFinset.1 hx)).2

/-- A full store that misses the request holds keys that the other store cannot hold as well. -/
theorem le_outside {h : ℕ} {C : Finset α} {l : List α} {x : α} (hl : l.Nodup) (hx : x ∉ l)
    (hxC : x ∈ C) (hC : C.card ≤ h) : l.length + 1 ≤ outside C l + h := by
  have hboth : (l.filter (· ∈ C)).length ≤ (C.erase x).card := by
    rw [← List.toFinset_card_of_nodup (hl.filter _)]
    refine Finset.card_le_card fun y hy => ?_
    obtain ⟨hyl, hyC⟩ := List.mem_filter.1 (List.mem_toFinset.1 hy)
    exact Finset.mem_erase.2 ⟨fun he => hx (he ▸ hyl), of_decide_eq_true hyC⟩
  have hsplit := List.length_eq_countP_add_countP (· ∈ C) (l := l)
  rw [List.countP_eq_length_filter] at hsplit
  rw [Finset.card_erase_of_mem hxC] at hboth
  have hpos : 0 < C.card := Finset.card_pos.2 ⟨x, hxC⟩
  have hout : outside C l = l.countP fun a => !decide (a ∈ C) := by
    simp [outside]
  simp only [decide_eq_true_eq, hout, decide_not] at hsplit ⊢
  omega

/-- **Comparison with any other way to serve the requests**, with a store of `h ≤ k` keys: the
potential is what makes this hold at every request. -/
theorem Serves.debt_le {h k loads : ℕ} {xs : List α} {C : Finset α} (hs : Serves h xs C loads)
    (hk : h ≤ k) :
    (k + 1 - h) * faults k xs + debt C (uses k xs) + k * C.card ≤
      k * loads + (k + 1 - h) * (uses k xs).length := by
  induction hs with
  | start => simp [faults, uses, debt]
  | @serve xs C loads x D hs hx hD ih =>
      have hnodup := nodup_uses k xs
      have hlen := length_uses_le k xs
      have hpos : 0 < D.card := Finset.card_pos.2 ⟨x, hx⟩
      -- the other store moves first
      have hmove := debt_change C D hnodup hlen
      have hcard : k * D.card + k * (C \ D).card = k * C.card + k * (D \ C).card := by
        have h₁ := Finset.card_sdiff_add_card C D
        have h₂ := Finset.card_sdiff_add_card D C
        rw [Finset.union_comm] at h₂
        rw [← Nat.mul_add, ← Nat.mul_add]
        exact congrArg (k * ·) (by omega)
      rw [uses_concat, faults_concat, Nat.mul_add k]
      by_cases hmem : x ∈ uses k xs
      · -- a hit only reorders
        have hkeep := debt_sublist D (List.erase_sublist (a := x) (l := uses k xs))
        rw [length_touch_of_mem hmem hlen, touch_of_mem hmem hlen, debt_cons_of_mem hx,
          if_pos hmem, Nat.add_zero (faults k xs)]
        omega
      · rw [if_neg hmem, Nat.mul_add, Nat.mul_one]
        rcases Nat.lt_or_eq_of_le hlen with hlt | hfull
        · -- a fault below the capacity evicts nothing
          rw [touch_of_lt hmem hlt, debt_cons_of_mem hx, List.length_cons, Nat.mul_add _ _ 1,
            Nat.mul_one]
          omega
        · -- an eviction is paid by the keys that the other store does not hold
          have hne : uses k xs ≠ [] := List.ne_nil_of_length_pos (by omega)
          have hpay := debt_dropLast D hne
          have hout := le_outside hnodup hmem hx hD
          rw [touch_of_full hmem hne hfull, debt_cons_of_mem hx, List.length_cons,
            List.length_dropLast, show (uses k xs).length - 1 + 1 = (uses k xs).length by omega]
          omega

/-- **Comparison of the evictions**: the least-recently-used store evicts at most `k / (k - h + 1)`
times as often. -/
theorem Serves.faults_le {h k loads : ℕ} {xs : List α} {C : Finset α} (hs : Serves h xs C loads)
    (hk : h ≤ k) :
    (k + 1 - h) * (faults k xs - k) + k * C.card ≤ k * loads := by
  have hle := hs.debt_le hk
  have hlen := length_uses k xs
  rcases Nat.le_total (faults k xs) k with hfew | hmany
  · rw [Nat.sub_eq_zero_of_le hfew, Nat.mul_zero]
    rw [hlen, Nat.min_eq_left hfew] at hle
    omega
  · have hcost := Nat.mul_le_mul_left (k + 1 - h) hmany
    rw [Nat.mul_sub]
    rw [hlen, Nat.min_eq_right hmany] at hle
    omega

end Paging
