/-
**Where the data lies.**

The addresses of a traced program change from run to run.  The simulator only compares them: which
of them lie in one block, and which blocks fall into one set.  Two traces in which the same accesses
agree in this way have the same results, line for line.  Moving all data by a multiple of the size
of a block is such a change, also when addresses wrap around.

Main definitions:

* `Csim.Relabels` — a change of addresses that keeps blocks and sets apart and together;
* `Csim.Relabelled` — two caches that hold the same blocks up to such a change.

Main results:

* `Csim.accesses_relabel` — **the results do not change** with the addresses;
* `Csim.accesses_shift` — data that is moved by whole blocks.
-/

import CsappLab.CsimTrace
import Mathlib.Data.Nat.ModEq

set_option relaxedAutoImplicit false
set_option autoImplicit false

namespace Csim

open Recency

/-! ### Blocks and sets -/

/-- The number of the block that an address lies in. -/
def blockOf (b : ℕ) (a : BitVec 64) : ℕ := a.toNat / 2 ^ b

/-- **A change of addresses** that keeps apart, and together, what lies in one block and what falls
into one set. -/
structure Relabels (s b : ℕ) (f : BitVec 64 → BitVec 64) : Prop where
  block : ∀ x y, blockOf b (f x) = blockOf b (f y) ↔ blockOf b x = blockOf b y
  set : ∀ x y, blockOf b (f x) % 2 ^ s = blockOf b (f y) % 2 ^ s ↔
    blockOf b x % 2 ^ s = blockOf b y % 2 ^ s

/-- The tag of an address. -/
def tagOf (s b : ℕ) (a : BitVec 64) : ℕ := a.toNat / 2 ^ (s + b)

/-- The set of an address. -/
def setOf (s b : ℕ) (a : BitVec 64) : ℕ := a.toNat / 2 ^ b % 2 ^ s

section Blocks

variable {s b : ℕ} {f : BitVec 64 → BitVec 64}

/-- Two blocks of one set have the same tag when they are the same. -/
theorem tagOf_eq_iff {x y : BitVec 64} (hset : setOf s b x = setOf s b y) :
    tagOf s b x = tagOf s b y ↔ blockOf b x = blockOf b y := by
  have htag : ∀ z : BitVec 64, tagOf s b z = blockOf b z / 2 ^ s := fun z => by
    rw [tagOf, blockOf, Nat.div_div_eq_div_mul, Nat.add_comm s b, Nat.pow_add]
  rw [htag, htag]
  constructor
  · intro hdiv
    rw [← Nat.div_add_mod (blockOf b x) (2 ^ s), ← Nat.div_add_mod (blockOf b y) (2 ^ s), hdiv]
    exact congrArg _ hset
  · intro heq
    rw [heq]

/-- The tags of one set are changed one to one. -/
theorem Relabels.tag (hf : Relabels s b f) {x y : BitVec 64} (hset : setOf s b x = setOf s b y) :
    tagOf s b (f x) = tagOf s b (f y) ↔ tagOf s b x = tagOf s b y := by
  rw [tagOf_eq_iff hset, tagOf_eq_iff ((hf.set x y).2 hset)]
  exact hf.block x y

end Blocks

/-! ### Two caches -/

/-- **The same blocks up to a change of addresses**: in a set and the set that it becomes lie the
same addresses, in the same order, and the counters are the same. -/
structure Relabelled (s b : ℕ) (f : BitVec 64 → BitVec 64) (c c' : LruCache) : Prop where
  sets : ∀ a, ∃ l : List (BitVec 64), (∀ x ∈ l, setOf s b x = setOf s b a) ∧
    c.sets (setOf s b a) = l.map (tagOf s b) ∧
    c'.sets (setOf s b (f a)) = l.map fun x => tagOf s b (f x)
  hits : c'.hits = c.hits
  misses : c'.misses = c.misses
  evictions : c'.evictions = c.evictions

section Caches

variable {s E b : ℕ} {f : BitVec 64 → BitVec 64} {c c' : LruCache}

theorem relabelled_empty : Relabelled s b f LruCache.empty LruCache.empty where
  sets _ := ⟨[], fun _ hx => absurd hx List.not_mem_nil, rfl, rfl⟩
  hits := rfl
  misses := rfl
  evictions := rfl

/-- **One access.** -/
theorem Relabelled.access (hf : Relabels s b f) (h : Relabelled s b f c c')
    (address : BitVec 64) : Relabelled s b f (c.access s E b address.toNat)
      (c'.access s E b (f address).toNat) := by
  obtain ⟨l, hl, hsets, hsets'⟩ := h.sets address
  have htag : ∀ x ∈ l, (tagOf s b (f x) = tagOf s b (f address) ↔
      tagOf s b x = tagOf s b address) := fun x hx => hf.tag (hl x hx)
  have hmem : tagOf s b (f address) ∈ c'.sets (setOf s b (f address)) ↔
      tagOf s b address ∈ c.sets (setOf s b address) := by
    rw [hsets, hsets', List.mem_map, List.mem_map]
    exact exists_congr fun x => and_congr_right fun hx => htag x hx
  have hlength : (c'.sets (setOf s b (f address))).length =
      (c.sets (setOf s b address)).length := by
    rw [hsets, hsets', List.length_map, List.length_map]
  refine ⟨fun a => ?_, ?_, ?_, ?_⟩
  · by_cases ha : setOf s b a = setOf s b address
    · -- the set that is accessed
      have ha' : setOf s b (f a) = setOf s b (f address) := (hf.set a address).2 ha
      refine ⟨(address :: l.eraseP fun x => tagOf s b x = tagOf s b address).take E,
        fun x hx => ?_, ?_, ?_⟩
      · rw [ha]
        rcases List.mem_cons.1 (List.mem_of_mem_take hx) with rfl | hx
        · rfl
        · exact hl x (List.mem_of_mem_eraseP hx)
      · have hnew : (c.access s E b address.toNat).sets (setOf s b a) =
            touch E (c.sets (setOf s b address)) (tagOf s b address) := by
          rw [ha]
          exact Function.update_self ..
        rw [hnew, hsets, touch_image]
      · have hnew : (c'.access s E b (f address).toNat).sets (setOf s b (f a)) =
            touch E (c'.sets (setOf s b (f address))) (tagOf s b (f address)) := by
          rw [ha']
          exact Function.update_self ..
        rw [hnew, hsets', touch_image E (fun x => tagOf s b (f x)),
          eraseP_congr fun x hx => decide_eq_decide.2 (htag x hx)]
    · -- the others
      have ha' : setOf s b (f a) ≠ setOf s b (f address) := fun heq => ha ((hf.set a address).1 heq)
      obtain ⟨l₁, hl₁, hold, hold'⟩ := h.sets a
      refine ⟨l₁, hl₁, ?_, ?_⟩
      · rw [← hold]
        exact Function.update_of_ne ha ..
      · rw [← hold']
        exact Function.update_of_ne ha' ..
  · show (if tagOf s b (f address) ∈ c'.sets (setOf s b (f address)) then _ else _) =
      if tagOf s b address ∈ c.sets (setOf s b address) then _ else _
    rw [if_congr hmem rfl rfl, h.hits]
  · show (if tagOf s b (f address) ∈ c'.sets (setOf s b (f address)) then _ else _) =
      if tagOf s b address ∈ c.sets (setOf s b address) then _ else _
    rw [if_congr hmem rfl rfl, h.misses]
  · show (if tagOf s b (f address) ∉ c'.sets (setOf s b (f address)) ∧
        (c'.sets (setOf s b (f address))).length = E then _ else _) =
      if tagOf s b address ∉ c.sets (setOf s b address) ∧
        (c.sets (setOf s b address)).length = E then _ else _
    rw [hlength, if_congr (and_congr_left fun _ => not_congr hmem) rfl rfl, h.evictions]

end Caches

/-! ### Two runs -/

section Runs

variable {o : Opts} {cache cache' : ℕ → CacheSet} {original original' : ℕ → List ℕ} {σ σ' τ : Sim}
  {c c' : LruCache} {f : BitVec 64 → BitVec 64} {r : String}

/-- The string that is printed for an access, by the counters. -/
theorem accessCache_result {address : BitVec 64}
    (hrun : accessCache o cache σ address = some (τ, r)) :
    r = if τ.hits = σ.hits then
      if τ.evictions = σ.evictions then "miss " else "miss eviction " else "hit " := by
  unfold accessCache at hrun
  obtain ⟨⟨h, hit⟩, -, hrun⟩ := Option.bind_eq_some_iff.1 hrun
  cases hit with
  | true =>
      obtain ⟨rfl, rfl⟩ := Prod.mk.inj (Option.some.inj hrun)
      exact (if_neg (by simp)).symm
  | false =>
      obtain ⟨rfl, rfl⟩ := Prod.mk.inj (Option.some.inj hrun)
      dsimp only
      split
      · simp
      · simp

/-- **The results do not change with the addresses.** -/
theorem accesses_relabel (ho : o.Valid) (hf : Relabels o.s.toNat o.b.toNat f)
    (hr : RefinesOn o cache original σ c) (hr' : RefinesOn o cache' original' σ' c')
    (h : Relabelled o.s.toNat o.b.toNat f c c') (addresses : List (BitVec 64)) :
    ∃ τ τ' results results', accesses o cache σ addresses = some (τ, results) ∧
      accesses o cache' σ' (addresses.map f) = some (τ', results') ∧
      results'.map Prod.snd = results.map Prod.snd ∧
      τ'.hits = τ.hits ∧ τ'.misses = τ.misses ∧ τ'.evictions = τ.evictions := by
  induction addresses generalizing σ σ' c c' with
  | nil =>
      refine ⟨σ, σ', [], [], rfl, rfl, rfl, ?_, ?_, ?_⟩
      · rw [hr.hits_eq, hr'.hits_eq, h.hits]
      · rw [hr.misses_eq, hr'.misses_eq, h.misses]
      · rw [hr.evictions_eq, hr'.evictions_eq, h.evictions]
  | cons address addresses ih =>
      obtain ⟨σ₁, r, hrun, hr₁, -⟩ := hr.access ho address
      obtain ⟨σ₁', r', hrun', hr₁', -⟩ := hr'.access ho (f address)
      have h₁ := h.access (E := o.E.toNat) hf address
      obtain ⟨τ, τ', results, results', hrest, hrest', hsame, hcounters⟩ := ih hr₁ hr₁' h₁
      refine ⟨τ, τ', (address, r) :: results, (f address, r') :: results', ?_, ?_, ?_, hcounters⟩
      · simp only [accesses, hrun, hrest, Option.bind_eq_bind, Option.bind_some, Option.pure_def]
      · simp only [List.map_cons, accesses, hrun', hrest', Option.bind_eq_bind, Option.bind_some,
          Option.pure_def]
      · have hr : r' = r := by
          rw [accessCache_result hrun, accessCache_result hrun', hr₁.hits_eq, hr₁'.hits_eq,
            hr.hits_eq, hr'.hits_eq, hr₁.evictions_eq, hr₁'.evictions_eq, hr.evictions_eq,
            hr'.evictions_eq, h₁.hits, h₁.evictions, h.hits, h.evictions]
        rw [List.map_cons, List.map_cons, hsame, hr]

/-- **Moving everything by whole blocks** is a change of addresses. -/
theorem relabels_shift {s b : ℕ} (hsb : s + b ≤ 64) (k : ℕ) :
    Relabels s b fun a => a + BitVec.ofNat 64 (k * 2 ^ b) := by
  have hpow : 2 ^ b * 2 ^ (64 - b) = 2 ^ 64 := by
    rw [← Nat.pow_add]
    congr 1
    omega
  have hblock : ∀ a : BitVec 64, blockOf b (a + BitVec.ofNat 64 (k * 2 ^ b)) =
      (blockOf b a + k) % 2 ^ (64 - b) := fun a => by
    rw [blockOf, BitVec.toNat_add, BitVec.toNat_ofNat, Nat.add_mod_mod, ← hpow,
      Nat.mod_mul_right_div_self, Nat.add_mul_div_right _ _ (Nat.two_pow_pos b), blockOf]
  have hlt : ∀ a : BitVec 64, blockOf b a < 2 ^ (64 - b) := fun a =>
    Nat.div_lt_of_lt_mul (hpow ▸ a.isLt)
  have hdvd : 2 ^ s ∣ 2 ^ (64 - b) := Nat.pow_dvd_pow 2 (by omega)
  constructor
  · intro x y
    rw [hblock, hblock]
    constructor
    · intro heq
      have hmod : Nat.ModEq (2 ^ (64 - b)) (blockOf b x) (blockOf b y) :=
        Nat.ModEq.add_right_cancel' k heq
      rwa [Nat.ModEq, Nat.mod_eq_of_lt (hlt x), Nat.mod_eq_of_lt (hlt y)] at hmod
    · intro heq
      rw [heq]
  · intro x y
    rw [hblock, hblock, Nat.mod_mod_of_dvd _ hdvd, Nat.mod_mod_of_dvd _ hdvd]
    exact ⟨fun heq => Nat.ModEq.add_right_cancel' k heq, fun heq => Nat.ModEq.add_right k heq⟩

/-- **Data that is moved by whole blocks** leaves the output of the simulator as it is. -/
theorem accesses_shift (ho : o.Valid) (h h' : Heap) (cache cache' : ℕ → CacheSet) (k : ℕ)
    (addresses : List (BitVec 64)) :
    ∃ τ τ' results results',
      accesses o (createCache o h cache).2 (initial o h cache) addresses = some (τ, results) ∧
      accesses o (createCache o h' cache').2 (initial o h' cache')
        (addresses.map fun a => a + BitVec.ofNat 64 (k * 2 ^ o.b.toNat)) = some (τ', results') ∧
      results'.map Prod.snd = results.map Prod.snd ∧
      τ'.hits = τ.hits ∧ τ'.misses = τ.misses ∧ τ'.evictions = τ.evictions := by
  obtain ⟨original, hr⟩ := initial_refinesOn ho h cache
  obtain ⟨original', hr'⟩ := initial_refinesOn ho h' cache'
  have hsb : o.s.toNat + o.b.toNat ≤ 64 := by
    have := ho.sb_le
    have := ho.s_pos
    have := ho.b_pos
    omega
  exact accesses_relabel ho (relabels_shift hsb k) hr hr' relabelled_empty addresses

/-- The data comes to lie on both sides of the end of the memory. -/
theorem accesses_shift_wraps : ∃ τ τ' results results',
    accesses ⟨1, 2, 1, false⟩
      (createCache ⟨1, 2, 1, false⟩ ⟨fun _ => ⟨true, 7, 3, 5⟩, 1⟩ fun _ => ⟨0, 0⟩).2
      (initial ⟨1, 2, 1, false⟩ ⟨fun _ => ⟨true, 7, 3, 5⟩, 1⟩ fun _ => ⟨0, 0⟩) [0, 4, 8, 0, 9] =
        some (τ, results) ∧
    accesses ⟨1, 2, 1, false⟩
      (createCache ⟨1, 2, 1, false⟩ ⟨fun _ => ⟨true, 7, 3, 5⟩, 1⟩ fun _ => ⟨0, 0⟩).2
      (initial ⟨1, 2, 1, false⟩ ⟨fun _ => ⟨true, 7, 3, 5⟩, 1⟩ fun _ => ⟨0, 0⟩)
      [-4, 0, 4, -4, 5] = some (τ', results') ∧
    results'.map Prod.snd = results.map Prod.snd ∧
    τ'.hits = τ.hits ∧ τ'.misses = τ.misses ∧ τ'.evictions = τ.evictions := by
  have ho : Opts.Valid ⟨1, 2, 1, false⟩ := by decide
  have hmap : ([0, 4, 8, 0, 9] : List (BitVec 64)).map
      (fun a => a + BitVec.ofNat 64 ((2 ^ 63 - 2) * 2 ^ (1 : ℤ).toNat)) = [-4, 0, 4, -4, 5] := by
    decide
  have hshift := accesses_shift ho ⟨fun _ => ⟨true, 7, 3, 5⟩, 1⟩ ⟨fun _ => ⟨true, 7, 3, 5⟩, 1⟩
    (fun _ => ⟨0, 0⟩) (fun _ => ⟨0, 0⟩) (2 ^ 63 - 2) [0, 4, 8, 0, 9]
  rw [hmap] at hshift
  exact hshift

end Runs

end Csim
