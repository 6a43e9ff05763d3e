/-
**Runs of accesses, and what the counters count.**

A run is a sequence of accesses, in any order and to any addresses.  Each one falls into a set,
whose lines stay the same nodes throughout: an access only permutes them and overwrites a tag.  The
lines in use are the first ones of their list, so that a miss evicts exactly when all `E` lines are
in use, and the three counters can be read off the number of misses in each set.

Main definitions:

* `Csim.setLines`, `Csim.validTags` — the lines of a set and the tags in use, in list order;
* `Csim.accesses` — a run, with the result of each access;
* `Csim.missesIn` — the misses that fell into a set;
* `Csim.ListInvariant` — what holds of the list of a set;
* `Csim.LruCache.accesses` — the specification along a run.

Main results:

* `Csim.simulate_accesses` — reading a trace is a run;
* `Csim.accesses_rep` — a run refines the specification, on the nodes it started with;
* `Csim.counters_account` — **the list invariant and the accounting**, after any run.
-/

import CsappLab.CsimRefine
import Mathlib.Algebra.BigOperators.Group.Finset.Basic
import Mathlib.Algebra.BigOperators.Group.Finset.Piecewise
import Mathlib.Algebra.BigOperators.Ring.Finset

set_option relaxedAutoImplicit false
set_option autoImplicit false

namespace Csim

open Linked Recency

/-! ### Reading a set -/

/-- The lines from `current` on, up to the dummy. -/
def linesFrom (h : Heap) (dummy : ℕ) : ℕ → ℕ → List ℕ
  | 0, _ => []
  | fuel + 1, current =>
      if current = dummy then [] else current :: linesFrom h dummy fuel (h.next current)

/-- The lines of a set, in list order. -/
def setLines (h : Heap) (set : CacheSet) : List ℕ :=
  linesFrom h set.dummy (h.fresh + 1) (h.next set.dummy)

/-- The tags of the lines in use, in list order. -/
def validTags (h : Heap) (set : CacheSet) : List (BitVec 64) :=
  (setLines h set).filterMap (content h)

theorem linesFrom_eq {h : Heap} {d : ℕ} {l₂ : List ℕ} :
    ∀ (l₁ : List ℕ) {fuel : ℕ}, Ring h.next h.prev d (l₁ ++ l₂) → d ∉ l₂ → l₂.length < fuel →
      linesFrom h d fuel (headOf d l₂) = l₂ := by
  induction l₂ with
  | nil =>
      intro l₁ fuel _ _ hfuel
      obtain ⟨fuel, rfl⟩ := Nat.exists_eq_succ_of_ne_zero (Nat.ne_of_gt hfuel)
      simp [linesFrom]
  | cons x l₂ ih =>
      intro l₁ fuel hring hd hfuel
      obtain ⟨fuel, rfl⟩ := Nat.exists_eq_succ_of_ne_zero (Nat.ne_of_gt (Nat.zero_lt_of_lt hfuel))
      have hxd : x ≠ d := fun he => hd (he ▸ List.mem_cons_self ..)
      have hnext : h.next x = headOf d l₂ := hring.next_node
      rw [headOf_cons, linesFrom, if_neg hxd, hnext]
      refine congrArg (x :: ·) (ih (l₁ ++ [x]) ?_ ?_ ?_)
      · rwa [List.append_assoc]
      · exact fun hm => hd (List.mem_cons_of_mem _ hm)
      · simpa using hfuel

section Reading

variable {h : Heap} {set : CacheSet} {nodes : List ℕ} {E : ℕ} {ts : List (BitVec 64)}

/-- The list that is read is the list of the representation. -/
theorem SetRep.setLines_eq (hs : SetRep h set.dummy nodes E ts) : setLines h set = nodes := by
  rw [setLines, hs.ring.next_dummy]
  refine linesFrom_eq [] hs.ring (List.nodup_cons.1 hs.nodup).1 ?_
  have := hs.length_le_fresh
  omega

/-- The tags that are read are the recency list. -/
theorem SetRep.validTags_eq (hs : SetRep h set.dummy nodes E ts) : validTags h set = ts := by
  have hmap : (nodes.map (content h)).filterMap id = nodes.filterMap (content h) :=
    List.filterMap_map
  rw [validTags, hs.setLines_eq, ← hmap, hs.contents, padded, List.filterMap_append]
  simp

end Reading

/-! ### Runs -/

/-- A run: the simulator after the accesses, and each address with the result of its access. -/
def accesses (o : Opts) (cache : ℕ → CacheSet) (σ : Sim) :
    List (BitVec 64) → Option (Sim × List (BitVec 64 × String))
  | [] => some (σ, [])
  | address :: rest => do
      let (σ, result) ← accessCache o cache σ address
      let (σ, results) ← accesses o cache σ rest
      return (σ, (address, result) :: results)

/-- The misses that fell into the set of index `i`. -/
def missesIn (o : Opts) (results : List (BitVec 64 × String)) (i : ℕ) : ℕ :=
  results.countP fun x => (getSetIndexAndTag o x.1).1.toNat = i ∧ x.2 ≠ "hit "

/-- The specification along a run. -/
def LruCache.accesses (s E b : ℕ) (c : LruCache) (addresses : List (BitVec 64)) : LruCache :=
  addresses.foldl (fun c address => c.access s E b address.toNat) c

theorem accesses_append (o : Opts) (cache : ℕ → CacheSet) (σ : Sim) (xs ys : List (BitVec 64)) :
    accesses o cache σ (xs ++ ys) =
      (accesses o cache σ xs).bind fun x =>
        (accesses o cache x.1 ys).map fun y => (y.1, x.2 ++ y.2) := by
  induction xs generalizing σ with
  | nil => cases h : accesses o cache σ ys <;> simp [accesses, h]
  | cons a xs ih =>
      cases h : accessCache o cache σ a with
      | none => simp [accesses, h]
      | some x =>
          simp only [List.cons_append, accesses, h, ih]
          cases h' : accesses o cache x.1 xs with
          | none => simp [h']
          | some y => cases h'' : accesses o cache y.1 ys <;> simp [h', h'']

theorem accesses_concat (o : Opts) (cache : ℕ → CacheSet) (σ : Sim) (addresses : List (BitVec 64))
    (address : BitVec 64) :
    accesses o cache σ (addresses ++ [address]) =
      (accesses o cache σ addresses).bind fun x =>
        (accessCache o cache x.1 address).map fun y => (y.1, x.2 ++ [(address, y.2)]) := by
  rw [accesses_append]
  congr 1
  ext1 x
  cases h : accessCache o cache x.1 address <;> simp [accesses, h]

/-- The accesses that a line of the trace makes. -/
def lineAccesses (loc : Locals) (line : List Char) : List (BitVec 64) :=
  let loc := scanRecord loc line
  if loc.op = 'I' then [] else if loc.op = 'M' then [loc.address, loc.address] else [loc.address]

/-- The simulator without its output. -/
def Sim.quiet (σ : Sim) : Sim := { σ with out := [] }

@[simp] theorem quiet_quiet (σ : Sim) : σ.quiet.quiet = σ.quiet := rfl

@[simp] theorem quiet_print (o : Opts) (loc : Locals) (σ : Sim) (result : String) :
    (printAccessDetails o loc σ result).quiet = σ.quiet := by
  unfold printAccessDetails
  split <;> rfl

/-- An access does not look at the output. -/
theorem accessCache_quiet (o : Opts) (cache : ℕ → CacheSet) (σ : Sim) (address : BitVec 64) :
    accessCache o cache σ.quiet address =
      (accessCache o cache σ address).map fun x => (x.1.quiet, x.2) := by
  cases hc : checkAndUpdateSet σ.heap (cache (getSetIndexAndTag o address).1.toNat)
      (getSetIndexAndTag o address).2 with
  | none => simp [accessCache, Sim.quiet, hc]
  | some x =>
      obtain ⟨h, hit⟩ := x
      cases hit <;> simp [accessCache, Sim.quiet, hc]

/-- **Reading a line is making its accesses**, up to the output. -/
theorem parseLine_accesses (o : Opts) (cache : ℕ → CacheSet) (σ : Sim) (loc : Locals)
    (line : List Char) :
    (parseLine o cache σ loc line).map Sim.quiet =
      (accesses o cache σ.quiet (lineAccesses loc line)).map (·.1) := by
  unfold parseLine lineAccesses
  extract_lets loc'
  by_cases hI : loc'.op = 'I'
  · simp [hI, accesses]
  · rw [if_pos hI, if_neg hI]
    by_cases hM : loc'.op = 'M'
    · simp only [hM, if_true, accesses, accessCache_quiet]
      cases h : accessCache o cache σ loc'.address with
      | none => simp
      | some x =>
          cases h' : accessCache o cache x.1 loc'.address <;> simp [accessCache_quiet, h']
    · simp only [hM, if_false, accesses, accessCache_quiet]
      cases h : accessCache o cache σ loc'.address <;> simp

/-- **Reading a trace is making the accesses of its lines**, up to the output. -/
theorem simulate_accesses (o : Opts) (cache : ℕ → CacheSet) (σ : Sim)
    (input : List (Locals × List Char)) :
    (simulate o cache σ input).map Sim.quiet =
      (accesses o cache σ.quiet (input.flatMap fun x => lineAccesses x.1 x.2)).map (·.1) := by
  induction input generalizing σ with
  | nil => rfl
  | cons x input ih =>
      have hline := parseLine_accesses o cache σ x.1 x.2
      rw [List.flatMap_cons, accesses_append]
      cases h : parseLine o cache σ x.1 x.2 with
      | none =>
          rw [h, Option.map_none, eq_comm, Option.map_eq_none_iff] at hline
          simp [simulate, h, hline]
      | some σ₁ =>
          rw [h, Option.map_some, eq_comm, Option.map_eq_some_iff] at hline
          obtain ⟨y, hy, hyq⟩ := hline
          have := ih σ₁
          simp [simulate, h, hy, hyq, this, Function.comp_def]

/-! ### The list of a set -/

/-- **The list of a set**: a circular list through the dummy, on the lines the set was created with,
the lines in use first, and no tag twice. -/
structure ListInvariant (h : Heap) (set : CacheSet) (original : List ℕ) (E : ℕ) : Prop where
  /-- Following `next` from the dummy runs through the lines and comes back. -/
  ring : Ring h.next h.prev set.dummy (setLines h set)
  /-- No line is met twice. -/
  nodup : (set.dummy :: setLines h set).Nodup
  /-- The two links undo each other. -/
  inverse : ∀ p ∈ set.dummy :: setLines h set, h.prev (h.next p) = p ∧ h.next (h.prev p) = p
  /-- The lines are the ones the set was created with. -/
  perm : (setLines h set).Perm original
  /-- There are `E` of them. -/
  length_eq : (setLines h set).length = E
  /-- The lines in use come first. -/
  used_first : ∃ used unused, setLines h set = used ++ unused ∧
    (∀ p ∈ used, (h.lines p).valid = true) ∧ ∀ p ∈ unused, (h.lines p).valid = false
  /-- The tags in use are distinct. -/
  nodup_tags : (validTags h set).Nodup

theorem SetRep.listInvariant {h : Heap} {set : CacheSet} {nodes original : List ℕ} {E : ℕ}
    {ts : List (BitVec 64)} (hs : SetRep h set.dummy nodes E ts) (hperm : nodes.Perm original) :
    ListInvariant h set original E where
  ring := by
    rw [hs.setLines_eq]
    exact hs.ring
  nodup := by
    rw [hs.setLines_eq]
    exact hs.nodup
  inverse := by
    rw [hs.setLines_eq]
    exact fun p hp => hs.ring.inverse hp
  perm := by rwa [hs.setLines_eq]
  length_eq := by
    rw [hs.setLines_eq]
    exact hs.length_nodes
  used_first := by
    rw [hs.setLines_eq]
    obtain ⟨used, unused, rfl, hused, hunused⟩ := List.map_eq_append_iff.1 hs.contents
    refine ⟨used, unused, rfl, fun p hp => ?_, fun p hp => ?_⟩
    · have hmem := List.mem_map_of_mem hp (f := content h)
      rw [hused] at hmem
      obtain ⟨t, -, ht⟩ := List.mem_map.1 hmem
      rw [← content_isSome, ← ht]
      rfl
    · have hmem := List.mem_map_of_mem hp (f := content h)
      rw [hunused] at hmem
      rw [← Bool.not_eq_true, ← content_isSome, List.eq_of_mem_replicate hmem]
      decide
  nodup_tags := by
    rw [hs.validTags_eq]
    exact hs.nodup_tags

/-! ### Along a run -/

/-- The simulator and the specification, on the lines the sets were created with. -/
structure RefinesOn (o : Opts) (cache : ℕ → CacheSet) (original : ℕ → List ℕ) (σ : Sim)
    (c : LruCache) : Prop where
  /-- The sets are represented, each on its own lines. -/
  rep : ∃ nodes, CacheRep σ.heap cache (2 ^ o.s.toNat) o.E.toNat c.sets nodes ∧
    ∀ i, (nodes i).Perm (original i)
  hits_eq : σ.hits = c.hits
  misses_eq : σ.misses = c.misses
  evictions_eq : σ.evictions = c.evictions

section Runs

variable {o : Opts} {cache : ℕ → CacheSet} {original : ℕ → List ℕ} {σ : Sim} {c : LruCache}

/-- One access. -/
theorem RefinesOn.access (ho : o.Valid) (hr : RefinesOn o cache original σ c)
    (address : BitVec 64) : ∃ σ' r, accessCache o cache σ address = some (σ', r) ∧
      RefinesOn o cache original σ' (c.access o.s.toNat o.E.toNat o.b.toNat address.toNat) ∧
      (r = "hit " ↔ address.toNat / 2 ^ (o.s.toNat + o.b.toNat) ∈
        c.sets (address.toNat / 2 ^ o.b.toNat % 2 ^ o.s.toNat)) := by
  obtain ⟨nodes, hrep, horig⟩ := hr.rep
  obtain ⟨σ', r, nodes', hrun, hrep', hperm, hhit, hhits, hmisses, hevictions⟩ :=
    accessCache_rep ho hrep address
  refine ⟨σ', r, hrun, ⟨⟨nodes', hrep', fun i => (hperm i).trans (horig i)⟩, ?_, ?_, ?_⟩, hhit⟩
  · rw [hhits, hr.hits_eq]
    rfl
  · rw [hmisses, hr.misses_eq]
    rfl
  · rw [hevictions, hr.evictions_eq]
    rfl

/-- The simulator starts in the empty cache, on the lines that were created. -/
theorem initial_refinesOn (ho : o.Valid) (h : Heap) (cache : ℕ → CacheSet) :
    ∃ original, RefinesOn o (createCache o h cache).2 original (initial o h cache)
      LruCache.empty := by
  obtain ⟨nodes, hrep⟩ := (initial_refines ho h cache).rep
  exact ⟨nodes, ⟨nodes, hrep, fun i => List.Perm.refl _⟩, rfl, rfl, rfl⟩

/-- What the sets hold, as read from memory. -/
theorem RefinesOn.set (hr : RefinesOn o cache original σ c) {i : ℕ} (hi : i < 2 ^ o.s.toNat) :
    ListInvariant σ.heap (cache i) (original i) o.E.toNat ∧
      (validTags σ.heap (cache i)).map BitVec.toNat = c.sets i ∧ (c.sets i).Nodup := by
  obtain ⟨nodes, hrep, horig⟩ := hr.rep
  obtain ⟨ts, hs, hts⟩ := hrep.rep i hi
  refine ⟨hs.listInvariant (horig i), ?_, ?_⟩
  · rw [hs.validTags_eq, hts]
  · rw [hts]
    exact hs.nodup_tags.map toNat_injective

/-- The set index of an address, as the specification computes it. -/
theorem setIndex_eq (ho : o.Valid) (address : BitVec 64) :
    (getSetIndexAndTag o address).1.toNat = address.toNat / 2 ^ o.b.toNat % 2 ^ o.s.toNat :=
  (getSetIndexAndTag_toNat ho address).1

/-! ### Accounting -/

theorem missesIn_concat (results : List (BitVec 64 × String)) (address : BitVec 64) (r : String)
    (i : ℕ) : missesIn o (results ++ [(address, r)]) i = missesIn o results i +
      if (getSetIndexAndTag o address).1.toNat = i ∧ r ≠ "hit " then 1 else 0 := by
  simp [missesIn, List.countP_append, List.countP_singleton]

/-- A sum that grows at one index. -/
theorem sum_add_ite {n i : ℕ} (hi : i < n) (f g : ℕ → ℕ) (k : ℕ)
    (h : ∀ j, g j = f j + if i = j then k else 0) :
    ∑ j ∈ Finset.range n, g j = (∑ j ∈ Finset.range n, f j) + k := by
  rw [Finset.sum_congr rfl fun j _ => h j, Finset.sum_add_distrib, Finset.sum_ite_eq,
    if_pos (Finset.mem_range.2 hi)]

/-- **The books** of the specification along a run: what each set holds and what was evicted,
by the number of misses in each set. -/
structure Balanced (o : Opts) (results : List (BitVec 64 × String)) (c : LruCache) : Prop where
  /-- Every access is a hit or a miss. -/
  total : c.hits + c.misses = results.length
  /-- Every miss is one of a set. -/
  misses_eq : c.misses = ∑ i ∈ Finset.range (2 ^ o.s.toNat), missesIn o results i
  /-- A set fills up with its misses. -/
  length_eq : ∀ i, (c.sets i).length = min (missesIn o results i) o.E.toNat
  /-- What does not fit is evicted. -/
  evictions_eq : c.evictions =
    ∑ i ∈ Finset.range (2 ^ o.s.toNat), (missesIn o results i - o.E.toNat)

theorem balanced_empty (o : Opts) : Balanced o [] LruCache.empty where
  total := rfl
  misses_eq := by simp [missesIn, LruCache.empty]
  length_eq i := by simp [missesIn, LruCache.empty]
  evictions_eq := by simp [missesIn, LruCache.empty]

/-- An access keeps the books. -/
theorem Balanced.access (ho : o.Valid) {results : List (BitVec 64 × String)}
    (hb : Balanced o results c) (address : BitVec 64) {r : String}
    (hr : r = "hit " ↔ address.toNat / 2 ^ (o.s.toNat + o.b.toNat) ∈
      c.sets (address.toNat / 2 ^ o.b.toNat % 2 ^ o.s.toNat)) :
    Balanced o (results ++ [(address, r)])
      (c.access o.s.toNat o.E.toNat o.b.toNat address.toNat) := by
  have hcount := missesIn_concat (o := o) results address r
  have hlt := setIndex_lt ho address
  rw [setIndex_eq ho] at hlt
  simp only [setIndex_eq ho] at hcount
  have hfit := hb.length_eq (address.toNat / 2 ^ o.b.toNat % 2 ^ o.s.toNat)
  generalize hi : address.toNat / 2 ^ o.b.toNat % 2 ^ o.s.toNat = i at *
  by_cases hit : r = "hit "
  · -- a hit changes nothing but the order
    have hmem := hr.1 hit
    have hsame : missesIn o (results ++ [(address, r)]) = missesIn o results := by
      funext j
      rw [hcount]
      simp [hit]
    refine ⟨?_, ?_, fun j => ?_, ?_⟩
    · simp only [LruCache.access, hi, if_pos hmem, List.length_append, List.length_singleton]
      have := hb.total
      omega
    · simp only [LruCache.access, hi, if_pos hmem, hsame]
      exact hb.misses_eq
    · rw [hsame, ← hb.length_eq j]
      simp only [LruCache.access, hi]
      rcases eq_or_ne j i with rfl | hj
      · rw [Function.update_self, length_touch_of_mem hmem (by omega)]
      · rw [Function.update_of_ne hj]
    · rw [hsame, ← hb.evictions_eq]
      simp only [LruCache.access, hi]
      rw [if_neg fun h => h.1 hmem]
  · -- a miss fills a line, or replaces one
    have hmem := fun h => hit (hr.2 h)
    simp only [hit, ne_eq, not_false_eq_true, and_true] at hcount
    refine ⟨?_, ?_, fun j => ?_, ?_⟩
    · simp only [LruCache.access, hi, if_neg hmem, List.length_append, List.length_singleton]
      have := hb.total
      omega
    · rw [sum_add_ite hlt _ _ 1 hcount, ← hb.misses_eq]
      simp only [LruCache.access, hi, if_neg hmem]
    · rw [hcount]
      simp only [LruCache.access, hi]
      rcases eq_or_ne j i with rfl | hj
      · rw [Function.update_self, length_touch_of_not_mem hmem, if_pos rfl]
        omega
      · rw [Function.update_of_ne hj, hb.length_eq j, if_neg hj.symm, Nat.add_zero]
    · have hover : ∀ j, missesIn o (results ++ [(address, r)]) j - o.E.toNat =
          missesIn o results j - o.E.toNat +
            if i = j then (if o.E.toNat ≤ missesIn o results i then 1 else 0) else 0 := by
        intro j
        rw [hcount]
        rcases eq_or_ne i j with rfl | hj
        · simp only [if_true]
          split <;> omega
        · simp [hj]
      rw [sum_add_ite hlt _ _ _ hover, ← hb.evictions_eq]
      simp only [LruCache.access, hi]
      by_cases hfull : o.E.toNat ≤ missesIn o results i
      · rw [if_pos hfull, if_pos ⟨hmem, by omega⟩]
      · rw [if_neg hfull, if_neg fun h => hfull (by omega), Nat.add_zero]

/-- **Along a run** the simulator refines the specification, on the lines it started with, and the
books are kept. -/
theorem accesses_rep (ho : o.Valid) (hr : RefinesOn o cache original σ c)
    (hb : Balanced o [] c) (addresses : List (BitVec 64)) :
    ∃ σ' results, accesses o cache σ addresses = some (σ', results) ∧
      results.map Prod.fst = addresses ∧
      RefinesOn o cache original σ' (c.accesses o.s.toNat o.E.toNat o.b.toNat addresses) ∧
      Balanced o results (c.accesses o.s.toNat o.E.toNat o.b.toNat addresses) := by
  induction addresses using List.reverseRecOn with
  | nil => exact ⟨σ, [], rfl, rfl, hr, hb⟩
  | append_singleton addresses address ih =>
      obtain ⟨σ₁, results, hrun, hfst, hr₁, hb₁⟩ := ih
      obtain ⟨σ₂, r, hstep, hr₂, hhit⟩ := hr₁.access ho address
      refine ⟨σ₂, results ++ [(address, r)], ?_, ?_, ?_, ?_⟩
      · rw [accesses_concat, hrun]
        simp [hstep]
      · rw [List.map_append, hfst]
        rfl
      · rw [LruCache.accesses, List.foldl_concat]
        exact hr₂
      · rw [LruCache.accesses, List.foldl_concat]
        exact hb₁.access ho address hhit

end Runs

/-- **The list invariant and the accounting.**  After any run from the created cache, the list of
every set is circular, on its original lines, with the lines in use first and no tag twice; every
access was a hit or a miss; and a miss that is not an eviction put a line into use, so that the
evictions are the misses beyond `E` of each set. -/
theorem counters_account {o : Opts} (ho : o.Valid) (h : Heap) (cache : ℕ → CacheSet)
    (addresses : List (BitVec 64)) :
    let created := createCache o h cache
    ∃ σ results, accesses o created.2 (initial o h cache) addresses = some (σ, results) ∧
      (∀ i < 2 ^ o.s.toNat, ListInvariant σ.heap (created.2 i) (setLines created.1 (created.2 i))
        o.E.toNat) ∧
      σ.hits + σ.misses = addresses.length ∧
      (σ.misses : ℤ) - σ.evictions =
        ∑ i ∈ Finset.range (2 ^ o.s.toNat), ((validTags σ.heap (created.2 i)).length : ℤ) ∧
      σ.evictions = ∑ i ∈ Finset.range (2 ^ o.s.toNat), (missesIn o results i - o.E.toNat) := by
  intro created
  obtain ⟨original, hr⟩ := initial_refinesOn ho h cache
  obtain ⟨σ, results, hrun, hfst, hr', hb⟩ := accesses_rep ho hr (balanced_empty o) addresses
  refine ⟨σ, results, hrun, fun i hi => ?_, ?_, ?_, ?_⟩
  · obtain ⟨hlist, -⟩ := hr'.set hi
    -- the lines the set was created with, as read from memory
    obtain ⟨hlist₀, -⟩ := hr.set hi
    exact { hlist with perm := hlist.perm.trans hlist₀.perm.symm }
  · rw [hr'.hits_eq, hr'.misses_eq, hb.total, ← hfst, List.length_map]
  · have hused : ∀ i ∈ Finset.range (2 ^ o.s.toNat),
        ((validTags σ.heap (created.2 i)).length : ℤ) =
          (missesIn o results i : ℤ) - ((missesIn o results i - o.E.toNat : ℕ) : ℤ) := by
      intro i hi
      obtain ⟨-, htags, -⟩ := hr'.set (Finset.mem_range.1 hi)
      have hlen : (validTags σ.heap (created.2 i)).length =
          min (missesIn o results i) o.E.toNat := by
        rw [← hb.length_eq i, ← htags, List.length_map]
      omega
    rw [Finset.sum_congr rfl hused, Finset.sum_sub_distrib, hr'.misses_eq, hr'.evictions_eq,
      hb.misses_eq, hb.evictions_eq, Nat.cast_sum, Nat.cast_sum]
  · rw [hr'.evictions_eq, hb.evictions_eq]

/-- Two blocks that compete for the only line of a set: the second replaces the first, and is then
found. -/
theorem counters_account_three :
    ∃ σ results, accesses ⟨1, 1, 1, false⟩
        (createCache ⟨1, 1, 1, false⟩ ⟨fun _ => ⟨true, 7, 3, 5⟩, 1⟩ fun _ => ⟨0, 0⟩).2
        (initial ⟨1, 1, 1, false⟩ ⟨fun _ => ⟨true, 7, 3, 5⟩, 1⟩ fun _ => ⟨0, 0⟩)
        [0, 4, 4] = some (σ, results) ∧
      results = [(0, "miss "), (4, "miss eviction "), (4, "hit ")] ∧
      σ.hits + σ.misses = 3 ∧ σ.evictions = 1 := by
  have ho : Opts.Valid ⟨1, 1, 1, false⟩ := by decide
  obtain ⟨σ, results, hrun, -, htotal, -, hevictions⟩ :=
    counters_account ho ⟨fun _ => ⟨true, 7, 3, 5⟩, 1⟩ (fun _ => ⟨0, 0⟩) [0, 4, 4]
  have hval : (accesses ⟨1, 1, 1, false⟩
      (createCache ⟨1, 1, 1, false⟩ ⟨fun _ => ⟨true, 7, 3, 5⟩, 1⟩ fun _ => ⟨0, 0⟩).2
      (initial ⟨1, 1, 1, false⟩ ⟨fun _ => ⟨true, 7, 3, 5⟩, 1⟩ fun _ => ⟨0, 0⟩)
      [0, 4, 4]).map (·.2) = some [(0, "miss "), (4, "miss eviction "), (4, "hit ")] := by
    decide +kernel
  rw [hrun, Option.map_some, Option.some.injEq] at hval
  subst hval
  exact ⟨σ, _, hrun, rfl, htotal, hevictions.trans (by decide)⟩

end Csim
