/-
**A larger associativity never loses.**

Two simulators with the same sets and blocks and with `E₁ ≤ E₂` lines per set run on the same
accesses.  Their lists differ as soon as the smaller one evicts, but a set of the smaller one always
holds the `E₁` most recent tags of the larger one.  What hits in the smaller one therefore hits in
the larger one, and what the larger one misses or evicts the smaller one does too.

Main definitions:

* `Csim.Included` — the relation between the two specifications.

Main results:

* `Csim.Included.accesses` — **inclusion** is kept by every run;
* `Csim.lru_inclusion` — **the two simulators**, at every point of a run.
-/

import CsappLab.CsimTrace

set_option relaxedAutoImplicit false
set_option autoImplicit false

namespace Csim

open Recency

/-- **Inclusion**: every set of the first cache holds the most recent tags of the second one, and
the counts of the second one are no worse. -/
structure Included (E₁ E₂ : ℕ) (c₁ c₂ : LruCache) : Prop where
  take_eq : ∀ i, (c₂.sets i).take E₁ = c₁.sets i
  length_le : ∀ i, (c₂.sets i).length ≤ E₂
  hits_le : c₁.hits ≤ c₂.hits
  misses_le : c₂.misses ≤ c₁.misses
  evictions_le : c₂.evictions ≤ c₁.evictions

variable {E₁ E₂ : ℕ} {c₁ c₂ : LruCache}

theorem included_empty : Included E₁ E₂ LruCache.empty LruCache.empty :=
  ⟨fun _ => List.take_nil, fun _ => Nat.zero_le _, Nat.le_refl _, Nat.le_refl _, Nat.le_refl _⟩

/-- What the smaller cache holds, the larger one holds. -/
theorem Included.mem (h : Included E₁ E₂ c₁ c₂) {i t : ℕ} (ht : t ∈ c₁.sets i) : t ∈ c₂.sets i := by
  rw [← h.take_eq i] at ht
  exact List.mem_of_mem_take ht

/-- One access. -/
theorem Included.access (h : Included E₁ E₂ c₁ c₂) (hE : E₁ ≤ E₂) (s b address : ℕ) :
    Included E₁ E₂ (c₁.access s E₁ b address) (c₂.access s E₂ b address) := by
  have hits := h.hits_le
  have misses := h.misses_le
  have evictions := h.evictions_le
  refine ⟨fun i => ?_, fun i => ?_, ?_, ?_, ?_⟩
  · -- the lists
    simp only [LruCache.access]
    rcases eq_or_ne i (address / 2 ^ b % 2 ^ s) with rfl | hi
    · rw [Function.update_self, Function.update_self, take_touch hE, h.take_eq]
    · rw [Function.update_of_ne hi, Function.update_of_ne hi, h.take_eq]
  · simp only [LruCache.access]
    rcases eq_or_ne i (address / 2 ^ b % 2 ^ s) with rfl | hi
    · rw [Function.update_self]
      exact length_touch_le _ _ _
    · rw [Function.update_of_ne hi]
      exact h.length_le i
  · -- a hit in the first is a hit in the second
    simp only [LruCache.access]
    by_cases ht : address / 2 ^ (s + b) ∈ c₁.sets (address / 2 ^ b % 2 ^ s)
    · rw [if_pos ht, if_pos (h.mem ht)]
      omega
    · rw [if_neg ht]
      split <;> omega
  · simp only [LruCache.access]
    by_cases ht : address / 2 ^ (s + b) ∈ c₁.sets (address / 2 ^ b % 2 ^ s)
    · rw [if_pos ht, if_pos (h.mem ht)]
      exact misses
    · rw [if_neg ht]
      split <;> omega
  · -- an eviction from the second is one from the first, whose set is full as well
    simp only [LruCache.access]
    by_cases hev : address / 2 ^ (s + b) ∉ c₂.sets (address / 2 ^ b % 2 ^ s) ∧
        (c₂.sets (address / 2 ^ b % 2 ^ s)).length = E₂
    · have hfull : (c₁.sets (address / 2 ^ b % 2 ^ s)).length = E₁ := by
        rw [← h.take_eq, List.length_take, hev.2, Nat.min_eq_left hE]
      rw [if_pos hev, if_pos ⟨fun ht => hev.1 (h.mem ht), hfull⟩]
      omega
    · rw [if_neg hev]
      split <;> omega

/-- **Inclusion is kept by every run.** -/
theorem Included.accesses (h : Included E₁ E₂ c₁ c₂) (hE : E₁ ≤ E₂) (s b : ℕ)
    (addresses : List (BitVec 64)) :
    Included E₁ E₂ (c₁.accesses s E₁ b addresses) (c₂.accesses s E₂ b addresses) := by
  induction addresses generalizing c₁ c₂ with
  | nil => exact h
  | cons address addresses ih => exact ih (h.access hE s b address.toNat)

/-- **The two simulators**, at every point of every run: each set of the one with `E₁` lines holds
the `E₁` most recent tags of the one with `E₂` lines, an access that hits in the first hits in the
second, and the second has no fewer hits, no more misses and no more evictions. -/
theorem lru_inclusion {o : Opts} {E₁ E₂ : ℤ} (ho : Opts.Valid { o with E := E₁ }) (hE : E₁ ≤ E₂)
    (h₁ h₂ : Heap) (cache₁ cache₂ : ℕ → CacheSet) (addresses : List (BitVec 64)) :
    let o₁ := { o with E := E₁ }
    let o₂ := { o with E := E₂ }
    let created₁ := createCache o₁ h₁ cache₁
    let created₂ := createCache o₂ h₂ cache₂
    ∃ σ₁ σ₂ results₁ results₂,
      accesses o₁ created₁.2 (initial o₁ h₁ cache₁) addresses = some (σ₁, results₁) ∧
      accesses o₂ created₂.2 (initial o₂ h₂ cache₂) addresses = some (σ₂, results₂) ∧
      (∀ i < 2 ^ o.s.toNat, validTags σ₁.heap (created₁.2 i) =
        (validTags σ₂.heap (created₂.2 i)).take E₁.toNat) ∧
      (∀ address σ₁', accessCache o₁ created₁.2 σ₁ address = some (σ₁', "hit ") →
        ∃ σ₂', accessCache o₂ created₂.2 σ₂ address = some (σ₂', "hit ")) ∧
      σ₁.hits ≤ σ₂.hits ∧ σ₂.misses ≤ σ₁.misses ∧ σ₂.evictions ≤ σ₁.evictions := by
  intro o₁ o₂ created₁ created₂
  have ho₂ : o₂.Valid := { ho with E_pos := le_trans ho.E_pos hE }
  obtain ⟨original₁, hr₁⟩ := initial_refinesOn ho h₁ cache₁
  obtain ⟨original₂, hr₂⟩ := initial_refinesOn ho₂ h₂ cache₂
  obtain ⟨σ₁, results₁, hrun₁, -, hrep₁, -⟩ := accesses_rep ho hr₁ (balanced_empty o₁) addresses
  obtain ⟨σ₂, results₂, hrun₂, -, hrep₂, -⟩ := accesses_rep ho₂ hr₂ (balanced_empty o₂) addresses
  have hinc : Included E₁.toNat E₂.toNat
      (LruCache.empty.accesses o.s.toNat E₁.toNat o.b.toNat addresses)
      (LruCache.empty.accesses o.s.toNat E₂.toNat o.b.toNat addresses) :=
    included_empty.accesses (Int.toNat_le_toNat hE) _ _ _
  refine ⟨σ₁, σ₂, results₁, results₂, hrun₁, hrun₂, fun i hi => ?_, fun address σ₁' hit => ?_,
    ?_, ?_, ?_⟩
  -- the tags of each simulator are those of its abstract cache
  · obtain ⟨-, htags₁, -⟩ := hrep₁.set hi
    obtain ⟨-, htags₂, -⟩ := hrep₂.set hi
    refine toNat_injective.list_map ?_
    rw [List.map_take, htags₁, htags₂]
    exact (hinc.take_eq i).symm
  · obtain ⟨σ₁'', r₁, hstep₁, -, hhit₁⟩ := hrep₁.access ho address
    obtain ⟨σ₂', r₂, hstep₂, -, hhit₂⟩ := hrep₂.access ho₂ address
    rw [hstep₁] at hit
    cases hit
    obtain rfl := hhit₂.2 (hinc.mem (hhit₁.1 rfl))
    exact ⟨σ₂', hstep₂⟩
  · rw [hrep₁.hits_eq, hrep₂.hits_eq]
    exact hinc.hits_le
  · rw [hrep₁.misses_eq, hrep₂.misses_eq]
    exact hinc.misses_le
  · rw [hrep₁.evictions_eq, hrep₂.evictions_eq]
    exact hinc.evictions_le

/-- Two blocks used in turn: one line replaces them over and over, two lines hold both. -/
theorem lru_inclusion_two :
    ∃ σ₁ σ₂ results₁ results₂,
      accesses ⟨1, 1, 1, false⟩
        (createCache ⟨1, 1, 1, false⟩ ⟨fun _ => ⟨true, 7, 3, 5⟩, 1⟩ fun _ => ⟨0, 0⟩).2
        (initial ⟨1, 1, 1, false⟩ ⟨fun _ => ⟨true, 7, 3, 5⟩, 1⟩ fun _ => ⟨0, 0⟩)
        [0, 4, 0] = some (σ₁, results₁) ∧
      accesses ⟨1, 2, 1, false⟩
        (createCache ⟨1, 2, 1, false⟩ ⟨fun _ => ⟨false, 0, 0, 0⟩, 4⟩ fun _ => ⟨1, 1⟩).2
        (initial ⟨1, 2, 1, false⟩ ⟨fun _ => ⟨false, 0, 0, 0⟩, 4⟩ fun _ => ⟨1, 1⟩)
        [0, 4, 0] = some (σ₂, results₂) ∧
      σ₁.hits ≤ σ₂.hits ∧ σ₂.misses ≤ σ₁.misses ∧ σ₂.evictions ≤ σ₁.evictions := by
  have ho : Opts.Valid ⟨1, 1, 1, false⟩ := by decide
  obtain ⟨σ₁, σ₂, results₁, results₂, hrun₁, hrun₂, -, -, hcounts⟩ :=
    lru_inclusion (o := ⟨1, 1, 1, false⟩) ho (show (1 : ℤ) ≤ 2 by decide)
      ⟨fun _ => ⟨true, 7, 3, 5⟩, 1⟩ ⟨fun _ => ⟨false, 0, 0, 0⟩, 4⟩ (fun _ => ⟨0, 0⟩)
      (fun _ => ⟨1, 1⟩) [0, 4, 0]
  exact ⟨σ₁, σ₂, results₁, results₂, hrun₁, hrun₂, hcounts⟩

end Csim
