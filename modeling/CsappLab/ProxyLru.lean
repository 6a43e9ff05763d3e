/-
**The cache is a least-recently-used store, and its list is sound.**

The lock is left aside here: every call is granted it, and every allocation succeeds.  A run is any
sequence of lookups, additions and removals of the oldest item from an empty cache.  The list that
is read from `head->next` on is then at every point that of a store of keys with sizes, most
recently used first, in which an addition keeps the longest part that fits next to the new item.

A `content` is a C string: a terminator stands in the memory it points to.

Main definitions:

* `Proxy.Cache.listing`, `Proxy.Cache.pairs` — the items as the links lead to them;
* `Proxy.CString`, `Proxy.CacheOp`, `Proxy.runOps` — the calls and the runs;
* `Proxy.Store` — **the abstract store**;
* `Proxy.FaithfulCalls` — what the next call does, whichever it is;
* `Proxy.ListSound` — the list, its tail and its total.

Main results:

* `Proxy.runOps_inv` — what a run preserves;
* `Proxy.pairs_run` — the cache refines the abstract store;
* `Proxy.faithful_lru` — **the calls are those of a least-recently-used store**, after any run;
* `Proxy.list_sound` — **the list is sound** after any run.
-/

import CsappLab.ProxyList
import CsappLab.RecencyList
import CsappLab.Runs
import Mathlib.Algebra.Order.BigOperators.Group.List
import Mathlib.Algebra.Order.Group.Nat

set_option relaxedAutoImplicit false
set_option autoImplicit false

namespace Proxy

open Linked Recency

/-! ### Reading the list -/

/-- The items from an address on, up to the null pointer. -/
def Cache.itemsFrom (c : Cache) : ℕ → Option Ptr → List Ptr
  | _, none => []
  | 0, some _ => []
  | fuel + 1, some p => p :: c.itemsFrom fuel (c.next p)

/-- The items of the cache, from `head->next` on. -/
def Cache.listing (c : Cache) : List Ptr := c.itemsFrom c.fresh (c.next c.head)

/-- The key and the size of an item. -/
def Cache.pair (c : Cache) (p : Ptr) : Option (List Char) × ℕ := (c.url p, c.size p)

/-- The keys and the sizes of the items. -/
def Cache.pairs (c : Cache) : List (Option (List Char) × ℕ) := c.listing.map c.pair

/-- Following `next` from an address meets the nodes of a list, in order, and then the null
pointer. -/
inductive Follows (c : Cache) : Option Ptr → List Ptr → Prop where
  | null : Follows c none []
  | node (p : Ptr) (l : List Ptr) (h : Follows c (c.next p) l) : Follows c (some p) (p :: l)

theorem Listed.follows {c : Cache} {l₂ : List Ptr} :
    ∀ l₁ : List Ptr, Listed c (l₁ ++ l₂) → Follows c l₂.head? l₂ := by
  induction l₂ with
  | nil => exact fun _ _ => .null
  | cons p l₂ ih =>
      intro l₁ hl
      refine .node p l₂ ?_
      rw [hl.next_node]
      exact ih (l₁ ++ [p]) (by simpa using hl)

theorem Follows.itemsFrom_eq {c : Cache} {from? : Option Ptr} {l : List Ptr}
    (h : Follows c from? l) {fuel : ℕ} (hfuel : l.length ≤ fuel) : c.itemsFrom fuel from? = l := by
  induction h generalizing fuel with
  | null => cases fuel <;> rfl
  | node p l _ ih =>
      obtain ⟨fuel, rfl⟩ := Nat.exists_eq_add_of_le' (Nat.le_trans (Nat.le_add_left 1 _) hfuel)
      exact congrArg (p :: ·) (ih (Nat.le_of_succ_le_succ hfuel))

/-- The list that is read is the list of the representation. -/
theorem Shape.listing_eq {c : Cache} {l : List Ptr} (h : Shape c l) : c.listing = l := by
  have hfollows : Follows c l.head? l := Listed.follows [] h.listed
  rw [Cache.listing, h.listed.next_head]
  refine hfollows.itemsFrom_eq ?_
  have := h.length_le
  omega

theorem Rep.listing_eq {c : Cache} {l : List Ptr} (h : Rep c l) : c.listing = l :=
  h.shape.listing_eq

/-! ### Calls and runs -/

/-- A C string: the bytes readable from an address on, with a terminator among them. -/
structure CString where
  bytes : List UInt8
  terminated : 0 ∈ bytes

/-- What `strdup` copies. -/
def CString.text (s : CString) : List UInt8 := s.bytes.takeWhile (· ≠ 0) ++ [0]

theorem CString.strdup_eq (s : CString) : strdup s.bytes = some s.text := if_pos s.terminated

/-- A call. -/
inductive CacheOp where
  | find (key : List Char)
  | add (url : List Char) (content : CString) (size : ℕ)
  | removeOldest

/-- What a call makes of the cache, when every allocation succeeds. -/
def CacheOp.step (c : Cache) : CacheOp → Option Cache
  | .find key => (findCacheItem c key).map (·.1)
  | .add url content size => addCacheItem .all c url content.bytes size
  | .removeOldest => removeOldestCacheItem c

/-- A run; it has no result if a call does not return. -/
def runOps (ops : List CacheOp) : Option Cache := ops.foldlM CacheOp.step initCache

theorem runOps_concat (ops : List CacheOp) (op : CacheOp) :
    runOps (ops ++ [op]) = (runOps ops).bind fun c => op.step c :=
  Runs.foldlM_concat initCache ops op

/-! ### The abstract store -/

/-- Keys with sizes, most recently used first. -/
abbrev Store := List (Option (List Char) × ℕ)

/-- What a call makes of the store. -/
def Store.step (s : Store) : CacheOp → Store
  | .find key => promote (fun x => x.1 = some key) s
  | .add url _ size =>
      if size ≤ maxObjectSize then (some url, size) :: keep Prod.snd (maxCacheSize - size) s else s
  | .removeOldest => s.dropLast

/-- The store after a run from the empty one. -/
def Store.run (ops : List CacheOp) : Store := ops.foldl Store.step []

/-! ### One call -/

/-- Whether an item has a key. -/
def Cache.hasKey (c : Cache) (key : List Char) (p : Ptr) : Bool := c.url p = some key

section Calls

variable {c : Cache} {l : List Ptr}

/-- A lookup: the first item with the key is promoted. -/
theorem Rep.findCacheItem_eq (h : Rep c l) (key : List Char) :
    ∃ c', Proxy.findCacheItem c key = some (c', l.find? (c.hasKey key)) ∧
      Rep c' (promote (c.hasKey key) l) ∧ SameStore c c' := by
  rcases h.findCacheItem key with ⟨l₁, p, l₂, c', rfl, hp, hl₁, hrun, hrep, hs⟩ |
    ⟨hnone, c', hrun, hrep, hs⟩
  · have hpk : c.hasKey key p = true := by simpa [Cache.hasKey] using hp
    have hl₁k : ∀ q ∈ l₁, c.hasKey key q = false := fun q hq => by
      simpa [Cache.hasKey] using hl₁ q hq
    refine ⟨c', ?_, ?_, hs⟩
    · rw [hrun, List.find?_eq_some_iff_append.2 ⟨hpk, l₁, l₂, rfl, fun q hq => by
        simp [hl₁k q hq]⟩]
    · rwa [promote_of_found hpk hl₁k]
  · have hfind : l.find? (c.hasKey key) = none :=
      List.find?_eq_none.2 fun q hq => by simpa [Cache.hasKey] using hnone q hq
    refine ⟨c', ?_, ?_, hs⟩
    · rw [hrun, hfind]
    · rwa [promote_of_missing hfind]

/-- A lookup that finds nothing takes the lock and gives it back. -/
theorem findCacheItem_missing {c' : Cache} {key : List Char}
    (h : findCacheItem c key = some (c', none)) : c' = (c.record .rdlock).record .unlock := by
  simp only [findCacheItem] at h
  split at h
  · cases h
  · cases h
  · cases h
    rfl

/-- An addition: the new item, and the longest part of the list that fits next to it. -/
theorem Rep.addCacheItem_eq (h : Rep c l) (url : List Char) (content : CString) {size : ℕ}
    (hsize : size ≤ maxObjectSize) :
    ∃ c' kept, Proxy.addCacheItem .all c url content.bytes size = some c' ∧
      Rep c' (c.fresh :: kept) ∧
      LongestFit c.size (maxCacheSize - size) l kept ∧ c'.head = c.head ∧
      c'.entry c.fresh = { url := some url, content := some content.text, size := size } ∧
      (∀ p ∈ kept, c'.entry p = c.entry p) ∧ (Owned c l → Owned c' (c.fresh :: kept)) := by
  obtain ⟨c', kept, hrun, hpre, hrep, hhead, -, hself, hold, hlong, hfit, hown⟩ :=
    h.addCacheItem url hsize content.strdup_eq
  have hmax : maxCacheSize = 1048576 := rfl
  have hobj : maxObjectSize = 102400 := rfl
  refine ⟨c', kept, hrun, hrep, ⟨hpre, by omega, fun l'' hl hsum => hlong l'' hl (by omega)⟩, hhead,
    hself, hold, hown⟩

/-- Nothing is removed from an empty cache. -/
theorem Rep.removeOldest_nil (h : Rep c []) : removeOldestCacheItem c = some c := by
  have htail : c.tail = some c.head := h.listed.tail_eq
  rw [removeOldestCacheItem, if_pos htail]

/-! ### What a run preserves -/

/-- The cache holds the items `l` and no others, behind the dummy of the start. -/
structure Inv (c : Cache) (l : List Ptr) : Prop where
  rep : Rep c l
  owned : Owned c l
  head_eq : c.head = initCache.head

theorem inv_initCache : Inv initCache [] where
  rep := rep_initCache
  owned _ _ := rfl
  head_eq := rfl

theorem Owned.of_sameStore {c' : Cache} {l' : List Ptr} (h : Owned c l) (hs : SameStore c c')
    (hsub : ∀ p ∈ l, p ∈ l') : Owned c' l' := fun p hp => by
  rw [url_of_entry (congrFun hs.entry p)]
  exact h p fun hmem => hp (hsub p hmem)

theorem pair_of_entry {c' : Cache} {p : Ptr} (h : c'.entry p = c.entry p) :
    c'.pair p = c.pair p := by
  rw [Cache.pair, Cache.pair, url_of_entry h, size_of_entry h]

/-- **One call**, on the list of items and on the abstract store. -/
theorem Inv.step (h : Inv c l) (op : CacheOp) :
    ∃ c' l', op.step c = some c' ∧ Inv c' l' ∧ l'.map c'.pair = Store.step (l.map c.pair) op := by
  cases op with
  | find key =>
      obtain ⟨c', hrun, hrep, hs⟩ := h.rep.findCacheItem_eq key
      have hmem : ∀ p ∈ l, p ∈ promote (c.hasKey key) l := fun p hp =>
        (promote_perm _ l).mem_iff.2 hp
      have hpair : c'.pair = c.pair := funext fun p => pair_of_entry (congrFun hs.entry p)
      refine ⟨c', _, by rw [CacheOp.step, hrun]; rfl,
        ⟨hrep, h.owned.of_sameStore hs hmem, hs.head.trans h.head_eq⟩, ?_⟩
      rw [Store.step, promote_map, hpair]
      rfl
  | add url content size =>
      rcases Nat.lt_or_ge maxObjectSize size with hlarge | hsize
      -- too large an object: the lock is taken, and that is all
      · refine ⟨c.record .wrlock, l, addCacheItem_large hlarge,
          ⟨h.rep.record .wrlock, h.owned, h.head_eq⟩, ?_⟩
        rw [Store.step, if_neg (Nat.not_le.2 hlarge)]
        rfl
      · obtain ⟨c', kept, hrun, hrep, hfit, hhead, hself, hold, hown⟩ :=
          h.rep.addCacheItem_eq url content hsize
        refine ⟨c', _, hrun, ⟨hrep, hown h.owned, hhead.trans h.head_eq⟩, ?_⟩
        have hfit' : LongestFit Prod.snd (maxCacheSize - size) (l.map c.pair) (kept.map c.pair) :=
          LongestFit.map (f := c.pair) hfit
        have hnew : c'.pair c.fresh = (some url, size) := by
          rw [Cache.pair]
          exact Prod.ext (congrArg Entry.url hself) (congrArg Entry.size hself)
        rw [Store.step, if_pos hsize, List.map_cons, hnew,
          List.map_congr_left fun p hp => pair_of_entry (hold p hp),
          hfit'.eq (longestFit_keep _ _ _)]
  | removeOldest =>
      rcases List.eq_nil_or_concat l with rfl | ⟨l', p, hl⟩
      · exact ⟨c, [], h.rep.removeOldest_nil, h, rfl⟩
      · rw [List.concat_eq_append] at hl
        subst hl
        obtain ⟨c', hrun, hrep, hhead, -, hold, hown⟩ := h.rep.removeOldest
        refine ⟨c', l', hrun, ⟨hrep, hown h.owned, hhead.trans h.head_eq⟩, ?_⟩
        rw [Store.step, List.map_append, List.map_singleton, List.dropLast_concat,
          List.map_congr_left fun p hp => pair_of_entry (hold p hp)]

end Calls

/-- **What a run preserves**; in particular every call of it returns. -/
theorem runOps_inv (ops : List CacheOp) :
    ∃ c l, runOps ops = some c ∧ Inv c l ∧ l.map c.pair = Store.run ops := by
  induction ops using List.reverseRecOn with
  | nil => exact ⟨initCache, [], rfl, inv_initCache, rfl⟩
  | append_singleton ops op ih =>
      obtain ⟨c, l, hrun, hinv, hstore⟩ := ih
      obtain ⟨c', l', hstep, hinv', hstore'⟩ := hinv.step op
      refine ⟨c', l', ?_, hinv', ?_⟩
      · rw [runOps_concat, hrun]
        exact hstep
      · rw [hstore', hstore, Store.run, Store.run, List.foldl_concat]

/-- **The cache refines the abstract store**: after any run they hold the same keys and sizes in the
same order. -/
theorem pairs_run (ops : List CacheOp) : ∃ c, runOps ops = some c ∧ c.pairs = Store.run ops := by
  obtain ⟨c, l, hrun, hinv, hstore⟩ := runOps_inv ops
  exact ⟨c, hrun, by rw [Cache.pairs, hinv.rep.listing_eq, hstore]⟩

/-! ### The calls of a least-recently-used store -/

/-- **What the next call does**, whichever it is. -/
structure FaithfulCalls (c : Cache) : Prop where
  /-- A lookup returns the first item with the key and moves it, and only it, to the front. -/
  find : ∀ key, ∃ c', findCacheItem c key = some (c', c.listing.find? (c.hasKey key)) ∧
    c'.listing = promote (c.hasKey key) c.listing ∧ c'.entry = c.entry ∧
    c'.totalSize = c.totalSize
  /-- If there is none, it changes nothing: the lock is taken and given back. -/
  find_missing : ∀ key, c.listing.find? (c.hasKey key) = none →
    findCacheItem c key = some ((c.record .rdlock).record .unlock, none)
  /-- An addition puts a new item in front of the longest part of the list that fits. -/
  add : ∀ url (content : CString) size, size ≤ maxObjectSize →
    ∃ c' kept, addCacheItem .all c url content.bytes size = some c' ∧
      c'.listing = c.fresh :: kept ∧
      kept <+: c.listing ∧ (kept.map c.size).sum + size ≤ maxCacheSize ∧
      (∀ l, l <+: c.listing → (l.map c.size).sum + size ≤ maxCacheSize → l <+: kept) ∧
      c.fresh ∉ c.listing ∧
      c'.entry c.fresh = { url := some url, content := some content.text, size := size } ∧
      ∀ p ∈ kept, c'.entry p = c.entry p
  /-- An addition of a larger object changes nothing: the lock is taken. -/
  add_large : ∀ url (content : CString) size, maxObjectSize < size →
    addCacheItem .all c url content.bytes size = some (c.record .wrlock)

theorem Rep.faithfulCalls {c : Cache} {l : List Ptr} (h : Rep c l) : FaithfulCalls c where
  find key := by
    obtain ⟨c', hrun, hrep, hs⟩ := h.findCacheItem_eq key
    exact ⟨c', by rw [hrun, h.listing_eq], by rw [hrep.listing_eq, h.listing_eq], hs.entry,
      hs.totalSize⟩
  find_missing key hnone := by
    obtain ⟨c', hrun, -⟩ := h.findCacheItem_eq key
    rw [h.listing_eq] at hnone
    rw [hnone] at hrun
    rw [hrun, findCacheItem_missing hrun]
  add url content size hsize := by
    obtain ⟨c', kept, hrun, hrep, ⟨hfront, hfits, hlongest⟩, -, hself, hold, -⟩ :=
      h.addCacheItem_eq url content hsize
    have hmax : maxCacheSize = 1048576 := rfl
    have hobj : maxObjectSize = 102400 := rfl
    rw [h.listing_eq]
    refine ⟨c', kept, hrun, hrep.listing_eq, hfront, by omega,
      fun l' hl hsum => hlongest l' hl (by omega), fun hmem => ?_, hself, hold⟩
    exact Nat.lt_irrefl _ (h.bounded _ (List.mem_cons_of_mem _ hmem))
  add_large url content size hlarge := addCacheItem_large hlarge

/-- **The cache is a faithful least-recently-used list.**  Every run returns; the list from
`head->next` on is that of the abstract store; and the next call, whichever it is, does what such a
store does. -/
theorem faithful_lru (ops : List CacheOp) :
    ∃ c, runOps ops = some c ∧ c.pairs = Store.run ops ∧ FaithfulCalls c := by
  obtain ⟨c, l, hrun, hinv, hstore⟩ := runOps_inv ops
  exact ⟨c, hrun, by rw [Cache.pairs, hinv.rep.listing_eq, hstore], hinv.rep.faithfulCalls⟩

/-- A C string with one character. -/
def oneChar : CString where
  bytes := [97, 0]
  terminated := by decide

/-- Two objects are stored, and the one that was stored first is looked up. -/
theorem faithful_lru_three : ∃ c,
    runOps [.add ['a'] oneChar 1, .add ['b'] oneChar 1, .find ['a']] = some c ∧
      c.pairs = [(some ['a'], 1), (some ['b'], 1)] ∧ FaithfulCalls c := by
  obtain ⟨c, hrun, hpairs, hcalls⟩ :=
    faithful_lru [.add ['a'] oneChar 1, .add ['b'] oneChar 1, .find ['a']]
  exact ⟨c, hrun, hpairs.trans (by decide), hcalls⟩

/-! ### The representation invariant -/

/-- The node that `removeOldestCacheItem` hands to `free`. -/
def oldest (c : Cache) : Option Ptr := if c.tail = some c.head then none else c.tail

/-- Nothing but the oldest node is freed. -/
theorem removeOldest_frees {c c' : Cache} (h : removeOldestCacheItem c = some c') :
    oldest c = none ∧ c' = c ∨
      ∃ p, ∃ c₁ : Cache, oldest c = some p ∧ c' = c₁.free p := by
  unfold removeOldestCacheItem at h
  split at h
  · rename_i htail
    cases h
    exact .inl ⟨if_pos htail, rfl⟩
  · rename_i hne
    cases htail : c.tail with
    | none => simp [htail] at h
    | some p =>
        cases hprev : c.prev p with
        | none => simp [htail, hprev] at h
        | some last =>
            simp only [htail, hprev, Option.some.injEq] at h
            exact .inr ⟨p, _, by rw [oldest, if_neg hne, htail], h.symm⟩

/-- **The list is sound**: its links, its tail, and its total. -/
structure ListSound (c : Cache) : Prop where
  /-- Following `next` from the head meets the items and ends at the null pointer. -/
  follows : Follows c (c.next c.head) c.listing
  /-- No node is met twice. -/
  nodup : (c.head :: c.listing).Nodup
  /-- Every node that stores an item is met. -/
  complete : ∀ p, (c.url p).isSome ↔ p ∈ c.listing
  /-- `prev` undoes `next` … -/
  prev_next : ∀ p ∈ c.head :: c.listing, ∀ q, c.next p = some q → c.prev q = some p
  /-- … and `next` undoes `prev`. -/
  next_prev : ∀ q ∈ c.listing, ∃ p ∈ c.head :: c.listing, c.prev q = some p ∧ c.next p = some q
  /-- Nothing precedes the head. -/
  prev_head : c.prev c.head = none
  /-- The tail is the last node, or the head if there is no item. -/
  tail_eq : c.tail = some (lastOf c.head c.listing)
  /-- The head is the one of the start, … -/
  head_eq : c.head = initCache.head
  /-- … and only items are freed. -/
  freed : ∀ p, oldest c = some p → p ∈ c.listing
  /-- The total is that of the items. -/
  total : c.totalSize = (c.listing.map c.size).sum
  /-- No item is too large. -/
  size_le : ∀ p ∈ c.listing, c.size p ≤ maxObjectSize
  /-- The items fit. -/
  total_le : c.totalSize ≤ maxCacheSize
  /-- Taking an item's size off the total does not wrap around. -/
  no_wrap : ∀ p ∈ c.listing, subSize c.totalSize (c.size p) + c.size p = c.totalSize

theorem Inv.listSound {c : Cache} {l : List Ptr} (h : Inv c l) : ListSound c := by
  have hring : Ring c.nx c.pv (some c.head) (l.map some ++ [none]) := h.rep.listed
  have hmem : ∀ p ∈ c.head :: l, some p ∈ some c.head :: (l.map some ++ [none]) := fun p hp => by
    rw [← List.cons_append, ← List.map_cons]
    exact List.mem_append_left _ (List.mem_map_of_mem hp)
  have htail : c.tail = some (lastOf c.head l) := by
    rw [h.rep.listed.tail_eq, lastOf_map]
  have hmax : maxCacheSize = 1048576 := rfl
  have htotal := h.rep.total_le
  rw [← h.rep.listing_eq] at hring hmem htail
  refine ⟨?_, ?_, fun p => ⟨fun hp => ?_, fun hp => ?_⟩, fun p hp q hpq => ?_, fun q hq => ?_, ?_,
    htail, h.head_eq, fun p hp => ?_, ?_, fun p hp => ?_, htotal, fun p hp => ?_⟩
  · rw [h.rep.listing_eq, h.rep.listed.next_head]
    exact Listed.follows [] h.rep.listed
  · rw [h.rep.listing_eq]
    exact h.rep.nodup
  · rw [h.rep.listing_eq]
    by_contra hnot
    rw [h.owned p hnot] at hp
    cases hp
  · rw [h.rep.listing_eq] at hp
    exact (h.rep.stored p hp).1
  · have hinv := (hring.inverse (hmem p hp)).1
    rwa [show c.nx (some p) = some q from hpq] at hinv
  · rw [h.rep.listing_eq] at hq ⊢
    obtain ⟨l₁, l₂, rfl⟩ := List.append_of_mem hq
    obtain ⟨p, hp, hprev⟩ := h.rep.listed.prev_node
    have hinv := (h.rep.listed.inverse (x := some q) (by simp)).2
    rw [show c.pv (some q) = some p from hprev] at hinv
    refine ⟨p, ?_, hprev, hinv⟩
    rw [← List.cons_append]
    exact List.mem_append_left _ hp
  · exact (hring.inverse (x := none) (by simp)).1
  · rw [oldest] at hp
    split at hp
    · cases hp
    · rename_i hne
      rw [htail, Option.some.injEq] at hp
      subst hp
      rcases List.mem_cons.1 (lastOf_mem c.head c.listing) with hlast | hlast
      · rw [htail, hlast] at hne
        exact absurd rfl hne
      · exact hlast
  · rw [h.rep.listing_eq]
    exact h.rep.total
  · rw [h.rep.listing_eq] at hp
    exact (h.rep.stored p hp).2
  · rw [h.rep.listing_eq] at hp
    have hle : c.size p ≤ c.totalSize := by
      rw [h.rep.total]
      exact List.le_sum_of_mem (List.mem_map_of_mem hp)
    rw [subSize]
    omega

/-- **The representation invariant of the cache** holds after any run, and every run returns. -/
theorem list_sound (ops : List CacheOp) : ∃ c, runOps ops = some c ∧ ListSound c := by
  obtain ⟨c, l, hrun, hinv, -⟩ := runOps_inv ops
  exact ⟨c, hrun, hinv.listSound⟩

end Proxy
