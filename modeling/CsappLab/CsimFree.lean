/-
**Giving the cache back.**

When the trace has been read, `freeCache` walks the list of every set and frees its lines, then the
dummy.  A line must not be read after it was freed, nor freed again; here both fail.

Main definitions:

* `Csim.free`, `Csim.nextOf` — `free` and the read of a link, on memory that may have been freed;
* `Csim.freeCacheSet`, `Csim.freeCache` — one set, and the whole cache.

Main results:

* `Csim.SetRep.freeCacheSet` — a set is freed whole, and nothing of it is read afterwards;
* `Csim.freeCache_simulate` — **every node that `createCache` allocated is freed once**, after any
  trace.
-/

import CsappLab.CsimLines

set_option relaxedAutoImplicit false
set_option autoImplicit false

namespace Csim

open Linked Recency

/-! ### The program -/

/-- `free(p)`, after the nodes `freed`: a node cannot be freed twice. -/
def free (freed : List ℕ) (p : ℕ) : Option (List ℕ) :=
  if p ∈ freed then none else some (p :: freed)

/-- `p->next`, after the nodes `freed`: a freed node cannot be read. -/
def nextOf (h : Heap) (freed : List ℕ) (p : ℕ) : Option ℕ :=
  if p ∈ freed then none else some (h.next p)

/-- The inner loop of `freeCache`, from the line `current` on. -/
def freeLoop (h : Heap) (dummy : ℕ) : ℕ → ℕ → List ℕ → Option (List ℕ)
  | 0, _, _ => none
  | fuel + 1, current, freed =>
      if current = dummy then some freed
      else do
        let next ← nextOf h freed current
        let freed ← free freed current
        freeLoop h dummy fuel next freed

/-- The body of the outer loop of `freeCache`. -/
def freeCacheSet (h : Heap) (set : CacheSet) (freed : List ℕ) : Option (List ℕ) := do
  let current ← nextOf h freed set.dummy
  let freed ← freeLoop h set.dummy (h.fresh + 1) current freed
  free freed set.dummy

/-- The outer loop of `freeCache`: the first `n` sets. -/
def freeSets (h : Heap) (cache : ℕ → CacheSet) : ℕ → Option (List ℕ)
  | 0 => some []
  | n + 1 => do
      let freed ← freeSets h cache n
      freeCacheSet h (cache n) freed

/-- `freeCache`: the nodes it has freed, last one first. -/
def freeCache (o : Opts) (h : Heap) (cache : ℕ → CacheSet) : Option (List ℕ) :=
  freeSets h cache (oneShl o.s).toInt.toNat

/-! ### One set -/

theorem free_of_notMem {freed : List ℕ} {p : ℕ} (hp : p ∉ freed) :
    free freed p = some (p :: freed) := if_neg hp

theorem nextOf_of_notMem {h : Heap} {freed : List ℕ} {p : ℕ} (hp : p ∉ freed) :
    nextOf h freed p = some (h.next p) := if_neg hp

/-- The inner loop frees the rest of the ring. -/
theorem freeLoop_eq {h : Heap} {d : ℕ} {l₂ : List ℕ} :
    ∀ (l₁ : List ℕ) {fuel : ℕ} {freed : List ℕ}, Ring h.next h.prev d (l₁ ++ l₂) →
      (d :: l₂).Nodup → l₂.length < fuel → (∀ p ∈ l₂, p ∉ freed) →
      freeLoop h d fuel (headOf d l₂) freed = some (l₂.reverse ++ freed) := by
  induction l₂ with
  | nil =>
      intro l₁ fuel freed _ _ hfuel _
      obtain ⟨fuel, rfl⟩ := Nat.exists_eq_succ_of_ne_zero (Nat.ne_of_gt hfuel)
      simp [freeLoop]
  | cons x l₂ ih =>
      intro l₁ fuel freed hring hnd hfuel hfreed
      obtain ⟨fuel, rfl⟩ := Nat.exists_eq_succ_of_ne_zero (Nat.ne_of_gt (Nat.zero_lt_of_lt hfuel))
      obtain ⟨hd, hnd⟩ := List.nodup_cons.1 hnd
      have hxd : x ≠ d := fun he => hd (he ▸ List.mem_cons_self ..)
      have hnext : h.next x = headOf d l₂ := hring.next_node
      have hx : x ∉ freed := hfreed x List.mem_cons_self
      have hrest := @ih (l₁ ++ [x]) fuel (x :: freed) (by rwa [List.append_assoc])
        (List.nodup_cons.2 ⟨fun hm => hd (List.mem_cons_of_mem _ hm), (List.nodup_cons.1 hnd).2⟩)
        (by simpa using hfuel) fun p hp hm => by
          rcases List.mem_cons.1 hm with rfl | hm
          · exact (List.nodup_cons.1 hnd).1 hp
          · exact hfreed p (List.mem_cons_of_mem _ hp) hm
      rw [headOf_cons, freeLoop, if_neg hxd, nextOf_of_notMem hx, hnext, free_of_notMem hx]
      simpa using hrest

/-- **A set is freed whole**, its dummy last. -/
theorem SetRep.freeCacheSet {h : Heap} {set : CacheSet} {nodes : List ℕ} {E : ℕ}
    {ts : List (BitVec 64)} (hs : SetRep h set.dummy nodes E ts) {freed : List ℕ}
    (hfreed : ∀ p ∈ set.dummy :: nodes, p ∉ freed) :
    Csim.freeCacheSet h set freed = some (set.dummy :: nodes.reverse ++ freed) := by
  have hd := hfreed set.dummy List.mem_cons_self
  have hlen := hs.length_le_fresh
  have hfuel : nodes.length < h.fresh + 1 := by omega
  have hloop := freeLoop_eq [] hs.ring hs.nodup hfuel
    fun p hp => hfreed p (List.mem_cons_of_mem _ hp)
  have hlast : set.dummy ∉ nodes.reverse ++ freed := by
    rw [List.mem_append, List.mem_reverse]
    exact fun h => h.elim (List.nodup_cons.1 hs.nodup).1 hd
  simp [Csim.freeCacheSet, nextOf_of_notMem hd, hs.ring.next_dummy, hloop, free_of_notMem hlast]

/-! ### All sets -/

/-- The nodes of the first `n` sets. -/
def owned (cache : ℕ → CacheSet) (nodes : ℕ → List ℕ) (n : ℕ) : List ℕ :=
  (List.range n).flatMap fun i => (cache i).dummy :: nodes i

theorem owned_succ (cache : ℕ → CacheSet) (nodes : ℕ → List ℕ) (n : ℕ) :
    owned cache nodes (n + 1) = owned cache nodes n ++ (cache n).dummy :: nodes n := by
  rw [owned, List.range_succ, List.flatMap_append, List.flatMap_singleton, ← owned]

theorem mem_owned {cache : ℕ → CacheSet} {nodes : ℕ → List ℕ} {n p : ℕ} :
    p ∈ owned cache nodes n ↔ ∃ i < n, p ∈ (cache i).dummy :: nodes i := by
  simp [owned, List.mem_flatMap]

section Sets

variable {h : Heap} {cache : ℕ → CacheSet} {m E : ℕ} {sets nodes : ℕ → List ℕ}

/-- The sets are freed one after the other; no node belongs to two. -/
theorem CacheRep.freeSets (hc : CacheRep h cache m E sets nodes) :
    ∀ n ≤ m, ∃ freed, Csim.freeSets h cache n = some freed ∧ freed.Nodup ∧
      freed.Perm (owned cache nodes n) := by
  intro n
  induction n with
  | zero => exact fun _ => ⟨[], rfl, List.nodup_nil, List.Perm.refl _⟩
  | succ n ih =>
      intro hn
      obtain ⟨freed, hrun, hnd, hperm⟩ := ih (by omega)
      obtain ⟨ts, hs, -⟩ := hc.rep n (by omega)
      have hfreed : ∀ p ∈ (cache n).dummy :: nodes n, p ∉ freed := by
        intro p hp hm
        obtain ⟨i, hi, hpi⟩ := mem_owned.1 (hperm.mem_iff.1 hm)
        exact hc.disjoint n (by omega) i (by omega) (by omega) p hp hpi
      have hset : ((cache n).dummy :: (nodes n).reverse).Perm ((cache n).dummy :: nodes n) :=
        (List.reverse_perm _).cons _
      refine ⟨(cache n).dummy :: (nodes n).reverse ++ freed, ?_, ?_, ?_⟩
      · rw [Csim.freeSets, hrun]
        exact hs.freeCacheSet hfreed
      · exact List.nodup_append'.2 ⟨hset.nodup_iff.2 hs.nodup, hnd,
          fun p hp hm => hfreed p (hset.mem_iff.1 hp) hm⟩
      · rw [owned_succ]
        exact (hset.append hperm).trans List.perm_append_comm

theorem CacheRep.length_owned (hc : CacheRep h cache m E sets nodes) :
    ∀ n ≤ m, (owned cache nodes n).length = n * (E + 1) := by
  intro n
  induction n with
  | zero => exact fun _ => (Nat.zero_mul _).symm
  | succ n ih =>
      intro hn
      obtain ⟨ts, hs, -⟩ := hc.rep n (by omega)
      rw [owned_succ, List.length_append, ih (by omega), List.length_cons, hs.length_nodes,
        Nat.succ_mul]

end Sets

/-- What `createCache` takes from `malloc`. -/
theorem createSets_fresh (h : Heap) (cache : ℕ → CacheSet) (E : ℤ) (n : ℕ) :
    (createSets h cache E n).1.fresh = h.fresh + n * (E.toNat + 1) := by
  have hlines : ∀ (g : Heap) (d k : ℕ), (newLines g d k).fresh = g.fresh + k := by
    intro g d k
    induction k with
    | zero => rfl
    | succ k ih => rw [newLines, newLine, fresh_linkFront, ← Nat.add_assoc, ← ih]; rfl
  induction n with
  | zero => rw [Nat.zero_mul]; rfl
  | succ n ih =>
      have hstep : (createSets h cache E (n + 1)).1.fresh =
          (createSets h cache E n).1.fresh + 1 + E.toNat := hlines _ _ _
      rw [hstep, ih, Nat.succ_mul]
      omega

/-- **Every node that `createCache` allocated is freed once**, after any trace, and none is read
after it was freed. -/
theorem freeCache_simulate {o : Opts} (ho : o.Valid) (h : Heap) (cache : ℕ → CacheSet)
    (input : List (Locals × List Char)) :
    let created := createCache o h cache
    ∃ σ freed, simulate o created.2 (initial o h cache) input = some σ ∧
      freeCache o σ.heap created.2 = some freed ∧
      freed.Perm (List.range' h.fresh (created.1.fresh - h.fresh)) := by
  intro created
  have hn : (oneShl o.s).toInt.toNat = 2 ^ o.s.toNat := by
    rw [oneShl_toInt ho.s_le]
    norm_cast
  obtain ⟨nodes, hc, -, hfrom⟩ := createSets_nodes h cache o.E (2 ^ o.s.toNat)
  rw [← hn] at hc hfrom
  have hc₀ : CacheRep created.1 created.2 (2 ^ o.s.toNat) o.E.toNat (fun _ => []) nodes := by
    rw [← hn]
    exact hc
  have hr : RefinesOn o created.2 nodes (initial o h cache) LruCache.empty :=
    ⟨⟨nodes, hc₀, fun i => List.Perm.refl _⟩, rfl, rfl, rfl⟩
  obtain ⟨σ, hrun, c, hr'⟩ := hr.simulate ho input
  obtain ⟨nodes', hc', hperm⟩ := hr'.rep
  obtain ⟨freed, hfree, hnd, hfreed⟩ := hc'.freeSets _ (Nat.le_refl _)
  refine ⟨σ, freed, hrun, by rw [freeCache, hn]; exact hfree, ?_⟩
  -- the nodes are different, and as many as were allocated
  have hfresh : created.1.fresh = h.fresh + 2 ^ o.s.toNat * (o.E.toNat + 1) := by
    rw [← hn]
    exact createSets_fresh h cache o.E _
  have hlen := hfreed.length_eq
  rw [hc'.length_owned _ (Nat.le_refl _)] at hlen
  have hsub : freed ⊆ List.range' h.fresh (created.1.fresh - h.fresh) := by
    intro p hp
    obtain ⟨i, hi, hpi⟩ := mem_owned.1 (hfreed.mem_iff.1 hp)
    have hpi₀ : p ∈ (created.2 i).dummy :: nodes i := ((hperm i).cons _).mem_iff.1 hpi
    obtain ⟨ts, hs, -⟩ := hc₀.rep i hi
    have hlow := hfrom i (by rw [hn]; exact hi) p hpi₀
    have hhigh := hs.lt_fresh p hpi₀
    rw [List.mem_range'_1]
    omega
  refine (hnd.subperm hsub).perm_of_length_le ?_
  rw [List.length_range', hlen]
  omega

/-- Two sets of one line each: four nodes. -/
theorem freeCache_simulate_four :
    ∃ σ freed, simulate ⟨1, 1, 1, false⟩
        (createCache ⟨1, 1, 1, false⟩ ⟨fun _ => ⟨true, 7, 3, 5⟩, 1⟩ fun _ => ⟨0, 0⟩).2
        (initial ⟨1, 1, 1, false⟩ ⟨fun _ => ⟨true, 7, 3, 5⟩, 1⟩ fun _ => ⟨0, 0⟩)
        [(⟨'x', 0, 0⟩, " L 4,1".toList)] = some σ ∧
      freeCache ⟨1, 1, 1, false⟩ σ.heap
        (createCache ⟨1, 1, 1, false⟩ ⟨fun _ => ⟨true, 7, 3, 5⟩, 1⟩ fun _ => ⟨0, 0⟩).2 =
          some freed ∧
      freed.Perm [1, 2, 3, 4] := by
  have ho : Opts.Valid ⟨1, 1, 1, false⟩ := by decide
  exact freeCache_simulate ho ⟨fun _ => ⟨true, 7, 3, 5⟩, 1⟩ (fun _ => ⟨0, 0⟩)
    [(⟨'x', 0, 0⟩, " L 4,1".toList)]

end Csim
