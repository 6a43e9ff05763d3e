/-
**The cache simulator refines the least-recently-used cache.**

The abstract cache keeps, for every set index, the list of the at most `E` most recently used tags,
and three counters.  The comparison starts at the cache `createCache` builds; every record of the
trace then takes both sides through the same accesses.  The relation between the two sides is that
every set in memory represents its recency list and that different sets share no node, so that an
access to one set leaves the others as they were.

Main definitions:

* `Csim.LruCache`, `Csim.LruCache.access`, `Csim.LruCache.run` — **the specification**;
* `Csim.Record`, `Csim.Record.Text` — trace records and their text;
* `Csim.CacheRep` — every set represents its recency list, on nodes of its own.

Main results:

* `Csim.getSetIndexAndTag_toNat` — the bit operations compute the quotient and the remainder;
* `Csim.createSets_rep` — the initial cache represents empty lists;
* `Csim.accessCache_refines`, `Csim.parseLine_refines` — one access, one record;
* `Csim.simulate_refines_lru` — **the whole trace**.
-/

import CsappLab.CsimSet
import Mathlib.Data.Nat.Bitwise

set_option relaxedAutoImplicit false
set_option autoImplicit false

namespace Csim

open Linked Recency

/-! ### The specification -/

/-- A set-associative cache with least-recently-used replacement, on block tags. -/
structure LruCache where
  sets : ℕ → List ℕ
  hits : ℕ
  misses : ℕ
  evictions : ℕ

namespace LruCache

/-- The empty cache. -/
def empty : LruCache := { sets := fun _ => [], hits := 0, misses := 0, evictions := 0 }

/-- One access in a cache of `2 ^ s` sets of `E` lines of `2 ^ b` bytes. -/
def access (s E b : ℕ) (c : LruCache) (address : ℕ) : LruCache :=
  let i := address / 2 ^ b % 2 ^ s
  let t := address / 2 ^ (s + b)
  { sets := Function.update c.sets i (touch E (c.sets i) t)
    hits := if t ∈ c.sets i then c.hits + 1 else c.hits
    misses := if t ∈ c.sets i then c.misses else c.misses + 1
    evictions := if t ∉ c.sets i ∧ (c.sets i).length = E then c.evictions + 1 else c.evictions }

end LruCache

/-- The operations of a trace: instruction load, data load, data store, data modify. -/
inductive Op
  | I
  | L
  | S
  | M
  deriving DecidableEq

/-- The letter of an operation. -/
def Op.letter : Op → Char
  | .I => 'I'
  | .L => 'L'
  | .S => 'S'
  | .M => 'M'

/-- A record of the trace. -/
structure Record where
  op : Op
  address : BitVec 64
  size : ℕ
  deriving DecidableEq

/-- The text of a record: the letter, the address in hexadecimal, a comma, the size in decimal.
Blanks may stand before the letter and before the address. -/
def Record.Text (r : Record) (line : List Char) : Prop :=
  ∃ lead mid hex dec rest : List Char,
    line = lead ++ r.op.letter :: (mid ++ (hex ++ ',' :: (dec ++ rest))) ∧
      (∀ c ∈ lead, CText.isSpace c = true) ∧ (∀ c ∈ mid, CText.isSpace c = true) ∧
      hex ≠ [] ∧ (∀ c ∈ hex, (CText.hexVal c).isSome) ∧
      CText.digitsVal 16 (hex.filterMap CText.hexVal) = r.address.toNat ∧
      dec ≠ [] ∧ (∀ c ∈ dec, (CText.decVal c).isSome) ∧ (∀ c ∈ rest.head?, CText.decVal c = none) ∧
      CText.digitsVal 10 (dec.filterMap CText.decVal) = r.size

/-- What a record does to the abstract cache. -/
def LruCache.step (s E b : ℕ) (c : LruCache) (r : Record) : LruCache :=
  match r.op with
  | .I => c
  | .L => c.access s E b r.address.toNat
  | .S => c.access s E b r.address.toNat
  | .M => (c.access s E b r.address.toNat).access s E b r.address.toNat

/-- **The specification of a trace.** -/
def LruCache.run (s E b : ℕ) (c : LruCache) (rs : List Record) : LruCache :=
  rs.foldl (LruCache.step s E b) c

/-! ### Set index and tag -/

/-- The range of the options in which the shifts of the program are defined. -/
structure Opts.Valid (o : Opts) : Prop where
  s_pos : 1 ≤ o.s
  s_le : o.s ≤ 30
  E_pos : 1 ≤ o.E
  b_pos : 1 ≤ o.b
  sb_le : o.s + o.b ≤ 63

instance (o : Opts) : Decidable o.Valid :=
  decidable_of_iff (1 ≤ o.s ∧ o.s ≤ 30 ∧ 1 ≤ o.E ∧ 1 ≤ o.b ∧ o.s + o.b ≤ 63)
    ⟨fun ⟨hs, hs', hE, hb, hsb⟩ => ⟨hs, hs', hE, hb, hsb⟩,
      fun ho => ⟨ho.s_pos, ho.s_le, ho.E_pos, ho.b_pos, ho.sb_le⟩⟩

theorem oneShl_toInt {s : ℤ} (hs : s ≤ 30) : (oneShl s).toInt = 2 ^ s.toNat := by
  have key : ∀ n ≤ 30, (1#32 <<< n).toInt = 2 ^ n := by decide
  exact key s.toNat (by omega)

theorem setMask_eq {s : ℤ} (hs : s ≤ 30) :
    (oneShl s - 1#32).signExtend 64 = BitVec.ofNat 64 (2 ^ s.toNat - 1) := by
  have key : ∀ n ≤ 30, ((1#32 <<< n) - 1#32).signExtend 64 = BitVec.ofNat 64 (2 ^ n - 1) := by
    decide
  exact key s.toNat (by omega)

/-- **The bit operations compute a quotient and a remainder.** -/
theorem getSetIndexAndTag_toNat {o : Opts} (ho : o.Valid) (address : BitVec 64) :
    (getSetIndexAndTag o address).1.toNat = address.toNat / 2 ^ o.b.toNat % 2 ^ o.s.toNat ∧
      (getSetIndexAndTag o address).2.toNat = address.toNat / 2 ^ (o.s.toNat + o.b.toNat) := by
  have hsb : (o.s + o.b).toNat = o.s.toNat + o.b.toNat := by
    have := ho.s_pos
    have := ho.b_pos
    omega
  have hlt : 2 ^ o.s.toNat - 1 < 2 ^ 64 := by
    have hle : 2 ^ o.s.toNat ≤ 2 ^ 30 :=
      Nat.pow_le_pow_right (by omega) (by have := ho.s_le; omega)
    omega
  constructor
  · simp only [getSetIndexAndTag]
    rw [setMask_eq ho.s_le, BitVec.toNat_and, BitVec.toNat_ushiftRight, BitVec.toNat_ofNat,
      Nat.mod_eq_of_lt hlt, Nat.and_two_pow_sub_one_eq_mod, Nat.shiftRight_eq_div_pow]
  · simp only [getSetIndexAndTag]
    rw [hsb, BitVec.toNat_ushiftRight, Nat.shiftRight_eq_div_pow]

/-- The set index is an index of the array of sets. -/
theorem setIndex_lt {o : Opts} (ho : o.Valid) (address : BitVec 64) :
    (getSetIndexAndTag o address).1.toNat < 2 ^ o.s.toNat := by
  rw [(getSetIndexAndTag_toNat ho address).1]
  exact Nat.mod_lt _ (Nat.two_pow_pos _)

/-- The tag is the block number without its set index. -/
theorem tag_eq (s b a : ℕ) : a / 2 ^ (s + b) = a / 2 ^ b / 2 ^ s := by
  rw [Nat.div_div_eq_div_mul, ← Nat.pow_add, Nat.add_comm]

/-- Set index and tag together are the block number. -/
theorem block_eq (s b a : ℕ) : a / 2 ^ b = 2 ^ s * (a / 2 ^ (s + b)) + a / 2 ^ b % 2 ^ s := by
  rw [tag_eq]
  exact (Nat.div_add_mod _ _).symm

/-- **Two addresses share a line exactly when they agree above the low `b` bits.** -/
theorem getSetIndexAndTag_eq_iff {o : Opts} (ho : o.Valid) (a a' : BitVec 64) :
    getSetIndexAndTag o a = getSetIndexAndTag o a' ↔ a >>> o.b.toNat = a' >>> o.b.toNat := by
  obtain ⟨hi, ht⟩ := getSetIndexAndTag_toNat ho a
  obtain ⟨hi', ht'⟩ := getSetIndexAndTag_toNat ho a'
  have hsh : ∀ x : BitVec 64, (x >>> o.b.toNat).toNat = x.toNat / 2 ^ o.b.toNat := fun x => by
    rw [BitVec.toNat_ushiftRight, Nat.shiftRight_eq_div_pow]
  constructor
  · intro h
    rw [h] at hi ht
    refine BitVec.eq_of_toNat_eq ?_
    rw [hsh, hsh, block_eq o.s.toNat, block_eq o.s.toNat o.b.toNat a'.toNat, ← hi, ← ht, hi', ht']
  · intro h
    have hq : a.toNat / 2 ^ o.b.toNat = a'.toNat / 2 ^ o.b.toNat := by rw [← hsh, h, hsh]
    refine Prod.ext (BitVec.eq_of_toNat_eq ?_) (BitVec.eq_of_toNat_eq ?_)
    · rw [hi, hi', hq]
    · rw [ht, ht', tag_eq, tag_eq, hq]

/-! ### The representation of the whole cache -/

/-- **The first `n` sets represent their recency lists, on nodes of their own.** -/
structure CacheRep (h : Heap) (cache : ℕ → CacheSet) (n E : ℕ) (sets : ℕ → List ℕ)
    (nodes : ℕ → List ℕ) : Prop where
  /-- Every set represents its recency list. -/
  rep : ∀ i < n, ∃ ts : List (BitVec 64),
    SetRep h (cache i).dummy (nodes i) E ts ∧ sets i = ts.map BitVec.toNat
  /-- Different sets share no node. -/
  disjoint : ∀ i < n, ∀ j < n, i ≠ j →
    ∀ p ∈ (cache i).dummy :: nodes i, p ∉ (cache j).dummy :: nodes j

/-- The sets other than the one that was written keep their representation. -/
theorem CacheRep.update {h h' : Heap} {cache : ℕ → CacheSet} {n E i : ℕ} {sets nodes : ℕ → List ℕ}
    (hc : CacheRep h cache n E sets nodes) (hi : i < n) {ts' : List (BitVec 64)}
    {nodes' : List ℕ} (hs : SetRep h' (cache i).dummy nodes' E ts')
    (hperm : nodes'.Perm (nodes i)) (hf : h.fresh ≤ h'.fresh)
    (hframe : ∀ p, p ∉ (cache i).dummy :: nodes i → h'.lines p = h.lines p) :
    CacheRep h' cache n E (Function.update sets i (ts'.map BitVec.toNat))
      (Function.update nodes i nodes') where
  rep := by
    intro j hj
    by_cases hji : j = i
    · subst hji
      exact ⟨ts', by simpa using hs, by simp⟩
    · obtain ⟨ts, hts, heq⟩ := hc.rep j hj
      rw [Function.update_of_ne hji, Function.update_of_ne hji]
      exact ⟨ts, hts.congr (fun p hp => hframe p (hc.disjoint j hj i hi hji p hp)) hf, heq⟩
  disjoint := by
    have hmem : ∀ j p, p ∈ (cache j).dummy :: Function.update nodes i nodes' j →
        p ∈ (cache j).dummy :: nodes j := by
      intro j p hp
      by_cases hji : j = i
      · subst hji
        rw [Function.update_self] at hp
        exact (hperm.cons _).mem_iff.1 hp
      · rwa [Function.update_of_ne hji] at hp
    intro j hj k hk hjk p hp hp'
    exact hc.disjoint j hj k hk hjk p (hmem j p hp) (hmem k p hp')

/-- The simulator and the specification, related. -/
structure Refines (o : Opts) (cache : ℕ → CacheSet) (σ : Sim) (c : LruCache) : Prop where
  /-- The sets are represented. -/
  rep : ∃ nodes, CacheRep σ.heap cache (2 ^ o.s.toNat) o.E.toNat c.sets nodes
  hits_eq : σ.hits = c.hits
  misses_eq : σ.misses = c.misses
  evictions_eq : σ.evictions = c.evictions

/-- The verbose output does not matter. -/
theorem Refines.print {o : Opts} {cache : ℕ → CacheSet} {σ : Sim} {c : LruCache}
    (hr : Refines o cache σ c) (o' : Opts) (loc : Locals) (result : String) :
    Refines o cache (printAccessDetails o' loc σ result) c := by
  unfold printAccessDetails
  split
  · exact ⟨hr.rep, hr.hits_eq, hr.misses_eq, hr.evictions_eq⟩
  · exact hr

theorem toNat_injective : Function.Injective (BitVec.toNat (w := 64)) :=
  fun _ _ => BitVec.eq_of_toNat_eq

/-- A search that hits, as one step of the program. -/
theorem accessCache_hit {o : Opts} {cache : ℕ → CacheSet} {σ : Sim} {address : BitVec 64} {h : Heap}
    (hc : checkAndUpdateSet σ.heap (cache (getSetIndexAndTag o address).1.toNat)
      (getSetIndexAndTag o address).2 = some (h, true)) :
    accessCache o cache σ address = some ({ σ with heap := h, hits := σ.hits + 1 }, "hit ") := by
  simp [accessCache, hc]

/-- A search that misses, as one step of the program. -/
theorem accessCache_miss {o : Opts} {cache : ℕ → CacheSet} {σ : Sim} {address : BitVec 64}
    {h : Heap}
    (hc : checkAndUpdateSet σ.heap (cache (getSetIndexAndTag o address).1.toNat)
      (getSetIndexAndTag o address).2 = some (h, false)) :
    let set := cache (getSetIndexAndTag o address).1.toNat
    let isEviction := (h.lines (h.prev set.dummy)).valid
    accessCache o cache σ address =
      some ({ σ with
        heap := addOrReplaceLine h set (getSetIndexAndTag o address).2
        misses := σ.misses + 1
        evictions := if isEviction then σ.evictions + 1 else σ.evictions },
        if isEviction then "miss eviction " else "miss ") := by
  simp [accessCache, hc]

/-- The lines of one set in another order. -/
theorem perm_update {nodes : ℕ → List ℕ} {i : ℕ} {l : List ℕ} (hl : l.Perm (nodes i)) (j : ℕ) :
    (Function.update nodes i l j).Perm (nodes j) := by
  rcases eq_or_ne j i with rfl | hj
  · rwa [Function.update_self]
  · rw [Function.update_of_ne hj]

/-- **One access**: the set it falls into keeps its nodes and takes the next recency list, the
other sets stay, and the counters say what happened. -/
theorem accessCache_rep {o : Opts} (ho : o.Valid) {cache : ℕ → CacheSet} {σ : Sim} {c : LruCache}
    {nodes : ℕ → List ℕ}
    (hrep : CacheRep σ.heap cache (2 ^ o.s.toNat) o.E.toNat c.sets nodes) (address : BitVec 64) :
    let i := address.toNat / 2 ^ o.b.toNat % 2 ^ o.s.toNat
    let t := address.toNat / 2 ^ (o.s.toNat + o.b.toNat)
    ∃ σ' r nodes', accessCache o cache σ address = some (σ', r) ∧
      CacheRep σ'.heap cache (2 ^ o.s.toNat) o.E.toNat
        (Function.update c.sets i (touch o.E.toNat (c.sets i) t)) nodes' ∧
      (∀ j, (nodes' j).Perm (nodes j)) ∧
      (r = "hit " ↔ t ∈ c.sets i) ∧
      σ'.hits = (if t ∈ c.sets i then σ.hits + 1 else σ.hits) ∧
      σ'.misses = (if t ∈ c.sets i then σ.misses else σ.misses + 1) ∧
      σ'.evictions =
        if t ∉ c.sets i ∧ (c.sets i).length = o.E.toNat then σ.evictions + 1 else σ.evictions := by
  intro i₀ t₀
  obtain ⟨hidx, htag⟩ := getSetIndexAndTag_toNat ho address
  have hi := setIndex_lt ho address
  set i := (getSetIndexAndTag o address).1.toNat with hi_def
  set t := (getSetIndexAndTag o address).2 with ht_def
  rw [show i₀ = i from hidx.symm]
  obtain ⟨ts, hs, hts⟩ := hrep.rep i hi
  have hmem : t₀ ∈ c.sets i ↔ t ∈ ts := by
    rw [hts, ← show t.toNat = t₀ from htag, List.mem_map_of_injective toNat_injective]
  have htouch : touch o.E.toNat (c.sets i) t₀ = (touch o.E.toNat ts t).map BitVec.toNat := by
    rw [hts, ← show t.toNat = t₀ from htag, touch_map toNat_injective]
  have hE := ho.E_pos
  rcases hs.checkAndUpdateSet_eq t with ⟨ht, hcheck⟩ | ⟨ht, x, l₁, l₂, hl, hx, hfst, hcheck⟩
  · -- a miss: the last line is filled
    obtain ⟨l₁, x, hl⟩ := hs.exists_concat (by omega)
    rw [hl] at hs
    have hlast : σ.heap.prev (cache i).dummy = x := by rw [hs.ring.prev_dummy, lastOf_concat]
    have hperm : (x :: l₁).Perm (nodes i) := by
      rw [hl]
      exact (List.perm_append_singleton x l₁).symm
    have hmiss : t₀ ∉ c.sets i := fun hm => ht (hmem.1 hm)
    refine ⟨_, _, Function.update nodes i (x :: l₁), accessCache_miss hcheck, ?_,
      perm_update hperm, ?_, ?_, ?_, ?_⟩
    · rw [htouch]
      refine hrep.update hi (hs.miss ht) hperm ?_ ?_
      · rw [addOrReplaceLine, fresh_moveLineToFront, fresh_fillLine]
      · intro p hp
        rw [hl] at hp
        exact hs.lines_miss hp
    · refine iff_of_false ?_ hmiss
      split <;> decide
    · rw [if_neg hmiss]
    · rw [if_neg hmiss]
    · have hfull : (c.sets i).length = o.E.toNat ↔ (σ.heap.lines x).valid = true := by
        rw [hts, List.length_map, hs.last_valid]
      simp only [← hi_def, hlast]
      by_cases hv : (σ.heap.lines x).valid = true
      · rw [if_pos hv, if_pos ⟨hmiss, hfull.2 hv⟩]
      · rw [if_neg hv, if_neg (fun hm => hv (hfull.1 hm.2))]
  · -- a hit: the line moves to the front
    rw [hl] at hs
    have hperm : (x :: (l₁ ++ l₂)).Perm (nodes i) := by
      rw [hl]
      exact List.perm_middle.symm
    have hhit : t₀ ∈ c.sets i := hmem.2 ht
    refine ⟨_, _, Function.update nodes i (x :: (l₁ ++ l₂)), accessCache_hit hcheck, ?_,
      perm_update hperm, ?_, ?_, ?_, ?_⟩
    · rw [htouch]
      refine hrep.update hi (hs.hit hx hfst) hperm (Nat.le_refl _) ?_
      intro p hp
      rw [hl] at hp
      exact hs.lines_hit hp
    · exact iff_of_true rfl hhit
    · rw [if_pos hhit]
    · rw [if_pos hhit]
    · rw [if_neg (fun hm => hm.1 hhit)]

/-- **One access refines the specification.** -/
theorem accessCache_refines {o : Opts} (ho : o.Valid) {cache : ℕ → CacheSet} {σ : Sim}
    {c : LruCache} (hr : Refines o cache σ c) (address : BitVec 64) :
    ∃ σ' r, accessCache o cache σ address = some (σ', r) ∧
      Refines o cache σ' (c.access o.s.toNat o.E.toNat o.b.toNat address.toNat) := by
  obtain ⟨nodes, hrep⟩ := hr.rep
  obtain ⟨σ', r, nodes', hrun, hrep', -, -, hhits, hmisses, hevictions⟩ :=
    accessCache_rep ho hrep address
  refine ⟨σ', r, hrun, ⟨nodes', hrep'⟩, ?_, ?_, ?_⟩
  · rw [hhits, hr.hits_eq]
    rfl
  · rw [hmisses, hr.misses_eq]
    rfl
  · rw [hevictions, hr.evictions_eq]
    rfl

/-! ### The initial cache -/

/-- The cache `createCache` builds represents empty recency lists, on nodes that were not handed out
before. -/
theorem createSets_nodes (h : Heap) (cache : ℕ → CacheSet) (E : ℤ) :
    ∀ n, ∃ nodes, CacheRep (createSets h cache E n).1 (createSets h cache E n).2 n E.toNat
        (fun _ => []) nodes ∧ h.fresh ≤ (createSets h cache E n).1.fresh ∧
      ∀ i < n, ∀ p ∈ ((createSets h cache E n).2 i).dummy :: nodes i, h.fresh ≤ p := by
  intro n
  induction n with
  | zero => exact ⟨fun _ => [], ⟨fun i hi => absurd hi (Nat.not_lt_zero i),
      fun i hi => absurd hi (Nat.not_lt_zero i)⟩, Nat.le_refl _,
      fun i hi => absurd hi (Nat.not_lt_zero i)⟩
  | succ n ih =>
      obtain ⟨nodes, hc, hle, hfrom⟩ := ih
      set g := (createSets h cache E n).1 with hg
      set ca := (createSets h cache E n).2 with hca
      obtain ⟨new, hnew, hd, hlt, hf, hold⟩ := createCacheSet_rep g E
      have heq₁ : (createSets h cache E (n + 1)).1 = (createCacheSet g E).1 := rfl
      have heq₂ : (createSets h cache E (n + 1)).2 =
          Function.update ca n (createCacheSet g E).2 := rfl
      rw [heq₁, heq₂]
      -- the new set lies above all older nodes
      have hbelow : ∀ i < n, ∀ p ∈ (ca i).dummy :: nodes i, p < g.fresh := by
        intro i hi p hp
        obtain ⟨ts, hts, -⟩ := hc.rep i hi
        exact hts.lt_fresh p hp
      have habove : ∀ p ∈ (createCacheSet g E).2.dummy :: new, g.fresh ≤ p := by
        intro p hp
        rcases List.mem_cons.1 hp with rfl | hp
        · exact hd.ge
        · exact (hlt p hp).le
      refine ⟨Function.update nodes n new, ⟨?_, ?_⟩, hle.trans hf, ?_⟩
      · intro i hi
        by_cases hin : i = n
        · subst hin
          exact ⟨[], by simpa using hnew, rfl⟩
        · have hi' : i < n := by omega
          obtain ⟨ts, hts, heq⟩ := hc.rep i hi'
          rw [Function.update_of_ne hin, Function.update_of_ne hin]
          exact ⟨ts, hts.congr (fun p hp => hold p (hbelow i hi' p hp)) hf, heq⟩
      · intro i hi j hj hij p hp hp'
        by_cases hin : i = n
        · subst hin
          have hjn : j ≠ i := fun he => hij he.symm
          rw [Function.update_self, Function.update_self] at hp
          rw [Function.update_of_ne hjn, Function.update_of_ne hjn] at hp'
          exact absurd (habove p hp) (Nat.not_le.2 (hbelow j (by omega) p hp'))
        · rw [Function.update_of_ne hin, Function.update_of_ne hin] at hp
          by_cases hjn : j = n
          · subst hjn
            rw [Function.update_self, Function.update_self] at hp'
            exact absurd (habove p hp') (Nat.not_le.2 (hbelow i (by omega) p hp))
          · rw [Function.update_of_ne hjn, Function.update_of_ne hjn] at hp'
            exact hc.disjoint i (by omega) j (by omega) hij p hp hp'
      · intro i hi p hp
        by_cases hin : i = n
        · subst hin
          rw [Function.update_self, Function.update_self] at hp
          exact hle.trans (habove p hp)
        · rw [Function.update_of_ne hin, Function.update_of_ne hin] at hp
          exact hfrom i (by omega) p hp

/-- **The cache `createCache` builds represents empty recency lists.** -/
theorem createSets_rep (h : Heap) (cache : ℕ → CacheSet) (E : ℤ) :
    ∀ n, ∃ nodes, CacheRep (createSets h cache E n).1 (createSets h cache E n).2 n E.toNat
      (fun _ => []) nodes := by
  intro n
  obtain ⟨nodes, hc, -, -⟩ := createSets_nodes h cache E n
  exact ⟨nodes, hc⟩

/-- The simulator starts in the empty cache. -/
theorem initial_refines {o : Opts} (ho : o.Valid) (h : Heap) (cache : ℕ → CacheSet) :
    Refines o (createCache o h cache).2 (initial o h cache) LruCache.empty where
  rep := by
    have hn : (oneShl o.s).toInt.toNat = 2 ^ o.s.toNat := by
      rw [oneShl_toInt ho.s_le]
      norm_cast
    have hc := createSets_rep h cache o.E (2 ^ o.s.toNat)
    rw [← hn] at hc ⊢
    exact hc
  hits_eq := rfl
  misses_eq := rfl
  evictions_eq := rfl

/-! ### The text of a record -/

theorem Op.letter_not_space (op : Op) : CText.isSpace op.letter = false := by
  cases op <;> decide

/-- **The three conversions on the text of a record.** -/
theorem Record.Text.conversions {r : Record} {line : List Char} (hl : r.Text line) :
    ∃ rest tail d, CText.skipSpace line = r.op.letter :: rest ∧
      CText.scanLx (CText.skipSpace rest) = some (r.address, ',' :: tail) ∧
      CText.scanD tail = some d := by
  obtain ⟨lead, mid, hex, dec, rest, rfl, hlead, hmid, hne, hhex, hval, hdne, hdec, hrest, -⟩ := hl
  have hop : CText.skipSpace (lead ++ r.op.letter :: (mid ++ (hex ++ ',' :: (dec ++ rest)))) =
      r.op.letter :: (mid ++ (hex ++ ',' :: (dec ++ rest))) := by
    rw [CText.skipSpace_append hlead, CText.skipSpace_cons r.op.letter_not_space]
  have hskip : CText.skipSpace (mid ++ (hex ++ ',' :: (dec ++ rest))) =
      hex ++ ',' :: (dec ++ rest) := by
    obtain ⟨c, t, rfl⟩ := List.exists_cons_of_ne_nil hne
    rw [CText.skipSpace_append hmid]
    exact CText.skipSpace_cons (CText.hexVal_not_space (hhex c (List.mem_cons_self ..)))
  have hlx := CText.scanLx_hex (w := []) (s := ',' :: (dec ++ rest)) (by simp) hne hhex
    (by intro c hc; obtain rfl : ',' = c := by simpa using hc
        decide)
  have hd := CText.scanD_digits (w := []) (by simp) hdne hdec hrest
  have haddr : CText.toULong false r.address.toNat = r.address := by
    rw [CText.toULong, if_neg (Nat.not_le.2 r.address.isLt)]
    simp
  rw [List.nil_append, hval, haddr] at hlx
  rw [List.nil_append] at hd
  exact ⟨_, _, _, hop, hskip.symm ▸ hlx, hd⟩

/-- **`sscanf` reads a record back from its text.** -/
theorem scanRecord_text {r : Record} {line : List Char} (hl : r.Text line) (loc : Locals) :
    (scanRecord loc line).op = r.op.letter ∧ (scanRecord loc line).address = r.address := by
  obtain ⟨rest, tail, d, hop, hlx, hd⟩ := hl.conversions
  constructor <;> simp only [scanRecord, hop, hlx, hd]

/-! ### The trace -/

/-- **One record refines the specification.** -/
theorem parseLine_refines {o : Opts} (ho : o.Valid) {cache : ℕ → CacheSet} {σ : Sim}
    {c : LruCache} (hr : Refines o cache σ c) {r : Record} {line : List Char} (hl : r.Text line)
    (loc : Locals) : ∃ σ', parseLine o cache σ loc line = some σ' ∧
      Refines o cache σ' (c.step o.s.toNat o.E.toNat o.b.toNat r) := by
  obtain ⟨hop, haddr⟩ := scanRecord_text hl loc
  obtain ⟨σ₁, r₁, hacc₁, hr₁⟩ := accessCache_refines ho hr r.address
  obtain ⟨σ₂, r₂, hacc₂, hr₂⟩ := accessCache_refines ho hr₁ r.address
  unfold LruCache.step
  cases hro : r.op with
  | I => exact ⟨σ, by simp [parseLine, hop, hro, Op.letter], hr⟩
  | L => exact ⟨_, by simp [parseLine, hop, haddr, hro, Op.letter, hacc₁]; rfl, hr₁.print _ _ _⟩
  | S => exact ⟨_, by simp [parseLine, hop, haddr, hro, Op.letter, hacc₁]; rfl, hr₁.print _ _ _⟩
  | M =>
      exact ⟨_, by simp [parseLine, hop, haddr, hro, Op.letter, hacc₁, hacc₂]; rfl,
        hr₂.print _ _ _⟩

/-- Along a trace. -/
theorem simulate_refines {o : Opts} (ho : o.Valid) {cache : ℕ → CacheSet} {rs : List Record}
    {input : List (Locals × List Char)} (hin : List.Forall₂ (fun r x => r.Text x.2) rs input) :
    ∀ {σ : Sim} {c : LruCache}, Refines o cache σ c →
      ∃ σ', simulate o cache σ input = some σ' ∧
        Refines o cache σ' (c.run o.s.toNat o.E.toNat o.b.toNat rs) := by
  induction hin with
  | nil => exact fun hr => ⟨_, rfl, hr⟩
  | @cons r x rs input hl _ ih =>
      intro σ c hr
      obtain ⟨σ₁, hline, hr₁⟩ := parseLine_refines ho hr hl x.1
      obtain ⟨σ₂, hrun, hr₂⟩ := ih hr₁
      exact ⟨σ₂, by simp [simulate, hline, hrun], hr₂⟩

/-- **The cache simulator refines the least-recently-used cache.**  For every accepted geometry,
every trace and every initial memory the simulator runs to the end with the counts of the
specification; and two addresses are on the same line exactly when they agree above the low `b`
bits. -/
theorem simulate_refines_lru {o : Opts} (ho : o.Valid) (h : Heap) (cache : ℕ → CacheSet)
    {rs : List Record} {input : List (Locals × List Char)}
    (hin : List.Forall₂ (fun r x => r.Text x.2) rs input) :
    (∃ σ, simulate o (createCache o h cache).2 (initial o h cache) input = some σ ∧
      σ.hits = (LruCache.empty.run o.s.toNat o.E.toNat o.b.toNat rs).hits ∧
      σ.misses = (LruCache.empty.run o.s.toNat o.E.toNat o.b.toNat rs).misses ∧
      σ.evictions = (LruCache.empty.run o.s.toNat o.E.toNat o.b.toNat rs).evictions) ∧
    ∀ a a' : BitVec 64,
      getSetIndexAndTag o a = getSetIndexAndTag o a' ↔ a >>> o.b.toNat = a' >>> o.b.toNat := by
  obtain ⟨σ, hrun, hr⟩ := simulate_refines ho hin (initial_refines ho h cache)
  exact ⟨⟨σ, hrun, hr.hits_eq, hr.misses_eq, hr.evictions_eq⟩, getSetIndexAndTag_eq_iff ho⟩

/-- The text of a record with one blank before the letter and one after it. -/
theorem Record.text_blanks (r : Record) (hex dec : List Char) (hne : hex ≠ [])
    (hhex : ∀ c ∈ hex, (CText.hexVal c).isSome)
    (haddr : CText.digitsVal 16 (hex.filterMap CText.hexVal) = r.address.toNat) (hdne : dec ≠ [])
    (hdec : ∀ c ∈ dec, (CText.decVal c).isSome)
    (hsize : CText.digitsVal 10 (dec.filterMap CText.decVal) = r.size) :
    r.Text (' ' :: r.op.letter :: ' ' :: (hex ++ ',' :: dec)) :=
  ⟨[' '], [' '], hex, dec, [], by simp, List.all_eq_true.1 rfl, List.all_eq_true.1 rfl, hne, hhex,
    haddr, hdne, hdec, by simp, hsize⟩

/-- The start of the example of the handout, on a cache of 16 sets of one line of 16 bytes.  The
memory and the locals hold something else before. -/
theorem simulate_refines_lru_yi :
    ∃ σ, simulate ⟨4, 1, 4, true⟩
        (createCache ⟨4, 1, 4, true⟩ ⟨fun _ => ⟨true, 7, 3, 5⟩, 1⟩ fun _ => ⟨0, 0⟩).2
        (initial ⟨4, 1, 4, true⟩ ⟨fun _ => ⟨true, 7, 3, 5⟩, 1⟩ fun _ => ⟨0, 0⟩)
        [(⟨'I', 9, 9⟩, " L 10,1".toList), (⟨'I', 9, 9⟩, " M 20,1".toList),
          (⟨'I', 9, 9⟩, " L 110,1".toList)] = some σ ∧
      σ.hits = 1 ∧ σ.misses = 3 ∧ σ.evictions = 1 := by
  have ho : Opts.Valid ⟨4, 1, 4, true⟩ := by decide
  have h₁ : Record.Text ⟨.L, 0x10#64, 1⟩ " L 10,1".toList :=
    Record.text_blanks ⟨.L, 0x10#64, 1⟩ ['1', '0'] ['1'] (by decide) (List.all_eq_true.1 rfl) rfl
      (by decide) (List.all_eq_true.1 rfl) rfl
  have h₂ : Record.Text ⟨.M, 0x20#64, 1⟩ " M 20,1".toList :=
    Record.text_blanks ⟨.M, 0x20#64, 1⟩ ['2', '0'] ['1'] (by decide) (List.all_eq_true.1 rfl) rfl
      (by decide) (List.all_eq_true.1 rfl) rfl
  have h₃ : Record.Text ⟨.L, 0x110#64, 1⟩ " L 110,1".toList :=
    Record.text_blanks ⟨.L, 0x110#64, 1⟩ ['1', '1', '0'] ['1'] (by decide)
      (List.all_eq_true.1 rfl) rfl (by decide) (List.all_eq_true.1 rfl) rfl
  have hin : List.Forall₂ (fun (r : Record) (x : Locals × List Char) => r.Text x.2)
      [⟨.L, 0x10#64, 1⟩, ⟨.M, 0x20#64, 1⟩, ⟨.L, 0x110#64, 1⟩]
      [(⟨'I', 9, 9⟩, " L 10,1".toList), (⟨'I', 9, 9⟩, " M 20,1".toList),
        (⟨'I', 9, 9⟩, " L 110,1".toList)] := .cons h₁ (.cons h₂ (.cons h₃ .nil))
  obtain ⟨⟨σ, hrun, hh, hm, he⟩, -⟩ := simulate_refines_lru ho ⟨fun _ => ⟨true, 7, 3, 5⟩, 1⟩
    (fun _ => ⟨0, 0⟩) hin
  exact ⟨σ, hrun, hh.trans (by decide), hm.trans (by decide), he.trans (by decide)⟩

end Csim
