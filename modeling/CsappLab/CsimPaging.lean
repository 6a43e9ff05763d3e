/-
**Stack distances, and other replacement policies.**

Whether an access hits does not depend on the history of the simulator, only on how many different
blocks of its set were accessed since its own block was: with `E` lines to a set, an access hits
exactly when there were fewer than `E`.  The list of these distances does not mention `E`, so that
one list gives the counters for every associativity.

The misses are also compared with those of a cache that may choose freely which lines to give up,
knowing the rest of the trace.

Main definitions:

* `Csim.setTags` — the tags accessed in a set, in order;
* `Csim.stackDistance`, `Csim.stackDistances` — the distance of an access, and those of a run.

Main results:

* `Csim.accesses_uses` — a run, set by set;
* `Csim.hits_stackDistances` — **one list of distances gives the hits for every associativity**;
* `Csim.evictions_competitive` — **no way to choose the lines to give up evicts much less**.
-/

import CsappLab.CsimTrace
import CsappLab.Paging
import Mathlib.Algebra.Order.BigOperators.Group.Finset

set_option relaxedAutoImplicit false
set_option autoImplicit false

namespace Csim

open Paging

/-! ### A run, set by set -/

/-- The tags accessed in the set of index `i`, in order. -/
def setTags (s b : ℕ) (addresses : List (BitVec 64)) (i : ℕ) : List ℕ :=
  (addresses.filter fun a => a.toNat / 2 ^ b % 2 ^ s = i).map fun a => a.toNat / 2 ^ (s + b)

theorem setTags_concat (s b : ℕ) (addresses : List (BitVec 64)) (address : BitVec 64) (i : ℕ) :
    setTags s b (addresses ++ [address]) i =
      if address.toNat / 2 ^ b % 2 ^ s = i then
        setTags s b addresses i ++ [address.toNat / 2 ^ (s + b)]
      else setTags s b addresses i := by
  rw [setTags, List.filter_append, List.map_append, ← setTags]
  split <;> rename_i hi <;> simp [hi]

/-- How many different blocks of its set were accessed since the block of `address` was, if it
was. -/
def stackDistance (s b : ℕ) (before : List (BitVec 64)) (address : BitVec 64) : Option ℕ :=
  reuse (setTags s b before (address.toNat / 2 ^ b % 2 ^ s)) (address.toNat / 2 ^ (s + b))

/-- The distances of a run, which goes on from the accesses `before`. -/
def stackDistances (s b : ℕ) (before : List (BitVec 64)) : List (BitVec 64) → List (Option ℕ)
  | [] => []
  | address :: rest =>
      stackDistance s b before address :: stackDistances s b (before ++ [address]) rest

theorem stackDistances_concat (s b : ℕ) (before addresses : List (BitVec 64))
    (address : BitVec 64) :
    stackDistances s b before (addresses ++ [address]) =
      stackDistances s b before addresses ++ [stackDistance s b (before ++ addresses) address] := by
  induction addresses generalizing before with
  | nil => rw [List.append_nil]; rfl
  | cons a addresses ih =>
      rw [List.cons_append, stackDistances, stackDistances, ih, List.append_assoc]
      rfl

/-- What a run leaves in each set, and how each of its accesses went. -/
structure Served (o : Opts) (addresses : List (BitVec 64)) (results : List (BitVec 64 × String))
    (c : LruCache) : Prop where
  /-- A set holds the tags used last in it. -/
  sets_eq : ∀ i, c.sets i = uses o.E.toNat (setTags o.s.toNat o.b.toNat addresses i)
  /-- Its misses are those of its own accesses. -/
  missesIn_eq : ∀ i, missesIn o results i =
    faults o.E.toNat (setTags o.s.toNat o.b.toNat addresses i)
  /-- An access hits when its distance is below the associativity. -/
  hit_eq : results.map (fun x => decide (x.2 = "hit ")) =
    (stackDistances o.s.toNat o.b.toNat [] addresses).map fun d => d.any (· < o.E.toNat)
  /-- The counter of hits counts them. -/
  hits_eq : c.hits = results.countP fun x => decide (x.2 = "hit ")

section Runs

variable {o : Opts} {cache : ℕ → CacheSet} {original : ℕ → List ℕ} {c : LruCache}
  {addresses : List (BitVec 64)} {results : List (BitVec 64 × String)}

theorem served_nil (o : Opts) : Served o [] [] LruCache.empty :=
  ⟨fun _ => rfl, fun _ => rfl, rfl, rfl⟩

/-- One more access. -/
theorem Served.access (ho : o.Valid) (hs : Served o addresses results c) (address : BitVec 64)
    {r : String} (hr : r = "hit " ↔ address.toNat / 2 ^ (o.s.toNat + o.b.toNat) ∈
      c.sets (address.toNat / 2 ^ o.b.toNat % 2 ^ o.s.toNat)) :
    Served o (addresses ++ [address]) (results ++ [(address, r)])
      (c.access o.s.toNat o.E.toNat o.b.toNat address.toNat) where
  sets_eq i := by
    rw [setTags_concat]
    simp only [LruCache.access]
    split
    · rename_i hi
      rw [hi, Function.update_self, uses_concat, hs.sets_eq]
    · rename_i hi
      rw [Function.update_of_ne (Ne.symm hi), hs.sets_eq]
  missesIn_eq i := by
    rw [missesIn_concat, hs.missesIn_eq, setIndex_eq ho, setTags_concat]
    by_cases hi : address.toNat / 2 ^ o.b.toNat % 2 ^ o.s.toNat = i
    · rw [if_pos hi, faults_concat, ← hs.sets_eq]
      rw [hi] at hr
      by_cases hit : r = "hit "
      · rw [if_pos (hr.1 hit), if_neg fun h => h.2 hit]
      · rw [if_neg fun h => hit (hr.2 h), if_pos ⟨hi, hit⟩]
    · rw [if_neg hi, if_neg fun h => hi h.1, Nat.add_zero]
  hit_eq := by
    rw [stackDistances_concat, List.map_append, List.map_append, hs.hit_eq, List.nil_append]
    have hlast : decide (r = "hit ") =
        (stackDistance o.s.toNat o.b.toNat addresses address).any (· < o.E.toNat) := by
      rw [Bool.eq_iff_iff, decide_eq_true_iff, hr, hs.sets_eq, mem_uses_iff, stackDistance]
    simp [hlast]
  hits_eq := by
    rw [List.countP_append, List.countP_singleton, ← hs.hits_eq]
    simp only [LruCache.access, ← hr, decide_eq_true_eq]
    split <;> rfl

/-- **A run, set by set.** -/
theorem accesses_uses (ho : o.Valid) {σ : Sim} (hr : RefinesOn o cache original σ LruCache.empty)
    (addresses : List (BitVec 64)) :
    ∃ σ' results c, accesses o cache σ addresses = some (σ', results) ∧
      RefinesOn o cache original σ' c ∧ Balanced o results c ∧ Served o addresses results c := by
  induction addresses using List.reverseRecOn with
  | nil => exact ⟨σ, [], LruCache.empty, rfl, hr, balanced_empty o, served_nil o⟩
  | append_singleton addresses address ih =>
      obtain ⟨σ₁, results, c, hrun, hr₁, hb, hs⟩ := ih
      obtain ⟨σ₂, r, hstep, hr₂, hhit⟩ := hr₁.access ho address
      refine ⟨σ₂, results ++ [(address, r)], _, ?_, hr₂, hb.access ho address hhit,
        hs.access ho address hhit⟩
      rw [accesses_concat, hrun]
      simp [hstep]

end Runs

/-! ### One list for every associativity -/

/-- **One list of distances gives the hits for every associativity.**  On any run from the created
cache, an access hits exactly when its stack distance is below the number of lines of a set; the
distances depend on the trace and on the geometry of the blocks and sets only. -/
theorem hits_stackDistances {o : Opts} (ho : o.Valid) (h : Heap) (cache : ℕ → CacheSet)
    (addresses : List (BitVec 64)) :
    ∃ σ results, accesses o (createCache o h cache).2 (initial o h cache) addresses =
        some (σ, results) ∧
      results.map (fun x => decide (x.2 = "hit ")) =
        (stackDistances o.s.toNat o.b.toNat [] addresses).map (fun d => d.any (· < o.E.toNat)) ∧
      σ.hits = (stackDistances o.s.toNat o.b.toNat [] addresses).countP
        fun d => d.any (· < o.E.toNat) := by
  obtain ⟨original, hr⟩ := initial_refinesOn ho h cache
  obtain ⟨σ, results, c, hrun, hr', hb, hs⟩ := accesses_uses ho hr addresses
  refine ⟨σ, results, hrun, hs.hit_eq, ?_⟩
  have hcount := congrArg (List.countP id) hs.hit_eq
  rw [List.countP_map, List.countP_map] at hcount
  rw [hr'.hits_eq, hs.hits_eq]
  exact hcount

/-- Three blocks of one set in turn, with two lines: the first is given up before it is used again,
and the last is not. -/
theorem hits_stackDistances_five :
    ∃ σ results, accesses ⟨1, 2, 1, false⟩
        (createCache ⟨1, 2, 1, false⟩ ⟨fun _ => ⟨true, 7, 3, 5⟩, 1⟩ fun _ => ⟨0, 0⟩).2
        (initial ⟨1, 2, 1, false⟩ ⟨fun _ => ⟨true, 7, 3, 5⟩, 1⟩ fun _ => ⟨0, 0⟩)
        [0, 4, 8, 0, 9] = some (σ, results) ∧
      stackDistances 1 1 [] [0, 4, 8, 0, 9] = [none, none, none, some 2, some 1] ∧
      results.map (fun x => decide (x.2 = "hit ")) = [false, false, false, false, true] ∧
      σ.hits = 1 := by
  have ho : Opts.Valid ⟨1, 2, 1, false⟩ := by decide
  obtain ⟨σ, results, hrun, hmap, hhits⟩ :=
    hits_stackDistances ho ⟨fun _ => ⟨true, 7, 3, 5⟩, 1⟩ (fun _ => ⟨0, 0⟩) [0, 4, 8, 0, 9]
  have hlist : stackDistances 1 1 [] [0, 4, 8, 0, 9] = [none, none, none, some 2, some 1] := by
    decide +kernel
  refine ⟨σ, results, hrun, hlist, ?_, ?_⟩
  · rw [hmap]
    exact congrArg (List.map fun d => d.any (· < 2)) hlist
  · rw [hhits]
    exact congrArg (List.countP fun d => d.any (· < 2)) hlist

/-! ### Other ways to choose the lines to give up -/

/-- **No way to choose the lines to give up evicts much less.**  Let each set serve the accesses
that fall into it with `lines ≤ E` lines of its own, in any way, one that knows the rest of the
trace included.  The simulator evicts at most `E / (E - lines + 1)` times as often, and this also
bounds its misses beyond the lines that it fills. -/
theorem evictions_competitive {o : Opts} (ho : o.Valid) (h : Heap) (cache : ℕ → CacheSet)
    (addresses : List (BitVec 64)) {lines : ℕ} (hlines : lines ≤ o.E.toNat)
    {contents : ℕ → Finset ℕ} {loads : ℕ → ℕ}
    (hserve : ∀ i < 2 ^ o.s.toNat,
      Serves lines (setTags o.s.toNat o.b.toNat addresses i) (contents i) (loads i)) :
    let created := createCache o h cache
    let sets := Finset.range (2 ^ o.s.toNat)
    ∃ σ results, accesses o created.2 (initial o h cache) addresses = some (σ, results) ∧
      (o.E.toNat + 1 - lines) * σ.evictions + o.E.toNat * ∑ i ∈ sets, (contents i).card ≤
        o.E.toNat * ∑ i ∈ sets, loads i ∧
      (o.E.toNat + 1 - lines) * σ.misses ≤
        o.E.toNat * ∑ i ∈ sets, loads i +
          (o.E.toNat + 1 - lines) * ∑ i ∈ sets, (validTags σ.heap (created.2 i)).length := by
  intro created sets
  obtain ⟨original, hr⟩ := initial_refinesOn ho h cache
  obtain ⟨σ, results, c, hrun, hr', hb, hs⟩ := accesses_uses ho hr addresses
  have hset : ∀ i ∈ sets, (o.E.toNat + 1 - lines) * (missesIn o results i - o.E.toNat) +
      o.E.toNat * (contents i).card ≤ o.E.toNat * loads i := fun i hi => by
    rw [hs.missesIn_eq]
    exact (hserve i (Finset.mem_range.1 hi)).faults_le hlines
  have hevictions : (o.E.toNat + 1 - lines) * σ.evictions +
      o.E.toNat * ∑ i ∈ sets, (contents i).card ≤ o.E.toNat * ∑ i ∈ sets, loads i := by
    rw [hr'.evictions_eq, hb.evictions_eq, Finset.mul_sum, Finset.mul_sum, Finset.mul_sum,
      ← Finset.sum_add_distrib]
    exact Finset.sum_le_sum hset
  -- a miss either fills a line or evicts
  have hmisses : σ.misses =
      σ.evictions + ∑ i ∈ sets, (validTags σ.heap (created.2 i)).length := by
    rw [hr'.misses_eq, hb.misses_eq, hr'.evictions_eq, hb.evictions_eq, ← Finset.sum_add_distrib]
    refine Finset.sum_congr rfl fun i hi => ?_
    obtain ⟨-, htags, -⟩ := hr'.set (Finset.mem_range.1 hi)
    have hlen := hb.length_eq i
    rw [← htags, List.length_map] at hlen
    rw [hlen]
    omega
  refine ⟨σ, results, hrun, hevictions, ?_⟩
  rw [hmisses, Nat.mul_add]
  omega

/-- Three blocks of one set in turn, with two lines: keeping the first block serves the fourth
access without a load, and the simulator evicts three times instead of twice. -/
theorem evictions_competitive_five :
    ∃ σ results, accesses ⟨1, 2, 1, false⟩
        (createCache ⟨1, 2, 1, false⟩ ⟨fun _ => ⟨true, 7, 3, 5⟩, 1⟩ fun _ => ⟨0, 0⟩).2
        (initial ⟨1, 2, 1, false⟩ ⟨fun _ => ⟨true, 7, 3, 5⟩, 1⟩ fun _ => ⟨0, 0⟩)
        [0, 4, 8, 0, 4] = some (σ, results) ∧ σ.evictions ≤ 4 := by
  have hserve : ∀ i < 2 ^ (1 : ℤ).toNat, Serves 2 (setTags 1 1 [0, 4, 8, 0, 4] i)
      (if i = 0 then {0, 1} else ∅) (if i = 0 then 4 else 0) := by
    intro i hi
    have hi : i = 0 ∨ i = 1 := by
      have : i < 2 := hi
      omega
    rcases hi with rfl | rfl
    · have h₁ := Serves.serve 0 {0} (Serves.start (α := ℕ) (h := 2)) (by decide) (by decide)
      have h₂ := Serves.serve 1 {0, 1} h₁ (by decide) (by decide)
      -- the block that is used next stays
      have h₃ := Serves.serve 2 {0, 2} h₂ (by decide) (by decide)
      have h₄ := Serves.serve 0 {0, 2} h₃ (by decide) (by decide)
      exact Serves.serve 1 {0, 1} h₄ (by decide) (by decide)
    · exact Serves.start
  have ho : Opts.Valid ⟨1, 2, 1, false⟩ := by decide
  obtain ⟨σ, results, hrun, hevictions, -⟩ :=
    evictions_competitive ho ⟨fun _ => ⟨true, 7, 3, 5⟩, 1⟩ (fun _ => ⟨0, 0⟩) [0, 4, 8, 0, 4]
      (by decide) hserve
  have hcard : ∑ i ∈ Finset.range (2 ^ (1 : ℤ).toNat),
      (if i = 0 then ({0, 1} : Finset ℕ) else ∅).card = 2 := by decide
  have hloads : ∑ i ∈ Finset.range (2 ^ (1 : ℤ).toNat), (if i = 0 then 4 else 0) = 4 := by decide
  rw [hcard, hloads] at hevictions
  exact ⟨σ, results, hrun, by simp at hevictions; omega⟩

end Csim
