/-
**Handler threads and the entries of the cache.**

A handler thread looks its key up; if that misses it fetches the response from the origin and adds
it.  Each call of the cache is made under the lock and is one step, but the lookup and the addition
are two calls with the fetch in between, and the addition does not look whether the key has been
added meanwhile.  Any number of threads take their steps in any order, and any allocation of an
addition may fail.

Main definitions:

* `Proxy.Handler`, `Proxy.Server`, `Proxy.Server.step` — the threads and their steps;
* `Proxy.OneEntry` — no two items have the same key;
* `Proxy.Server.AddsNew` — the additions of keys that are not in the cache, once room was made.

Main results:

* `Proxy.shape_server` — the list is sound in every state a run reaches;
* `Proxy.oneEntry_iff` — **when there is one entry per object**, along every run;
* `Proxy.two_entries` — a run after which an object has two.
-/

import CsappLab.ProxyLock
import CsappLab.ProxyLru
import CsappLab.ProxyReplay
import Mathlib.Data.List.Nodup

set_option relaxedAutoImplicit false
set_option autoImplicit false

namespace Proxy

open Recency

/-! ### Threads -/

/-- Where a handler thread is. -/
inductive Handler where
  /-- Before the lookup. -/
  | start
  /-- The lookup missed; the origin is asked. -/
  | missed (key : List Char)
  /-- The response has been read, and forwarded to the client. -/
  | fetched (key : List Char) (response : List UInt8) (totalSize : ℕ)
  /-- It has returned. -/
  | done

/-- The cache and the handler threads. -/
structure Server where
  cache : Cache
  handlers : ℕ → Handler

/-- A step of a thread: the lookup; the fetch, with what `malloc` returned for the buffer and the
chunks `Rio_readlineb` delivered; giving up when the origin cannot be reached; and the addition,
with the allocations that succeed and the memory behind the buffer. -/
inductive HandlerStep where
  | lookup (t : ℕ) (key : List Char)
  | fetch (t : ℕ) (garbage : List UInt8) (chunks : List (List UInt8))
  | giveUp (t : ℕ)
  | add (t : ℕ) (alloc : Alloc) (beyond : List UInt8)

namespace Server

/-- A thread is at another place, and the cache is another one. -/
def goto (s : Server) (t : ℕ) (c : Cache) (h : Handler) : Server :=
  { cache := c, handlers := Function.update s.handlers t h }

/-- The steps of `handleRequest`. -/
def step (s : Server) : HandlerStep → Option Server
  | .lookup t key =>
      match s.handlers t with
      | .start =>
          (findCacheItem s.cache key).map fun found =>
            s.goto t found.1 (if found.2.isSome then .done else .missed key)
      | _ => none
  | .fetch t garbage chunks =>
      match s.handlers t with
      | .missed key =>
          let f := forward garbage chunks
          some (s.goto t s.cache (.fetched key f.response f.totalSize))
      | _ => none
  | .giveUp t =>
      match s.handlers t with
      | .missed _ => some (s.goto t s.cache .done)
      | _ => none
  | .add t alloc beyond =>
      match s.handlers t with
      | .fetched key response totalSize =>
          (addCacheItem alloc s.cache key (response ++ beyond) totalSize).map fun c =>
            s.goto t c .done
      | _ => none

/-- An empty cache, and every thread before its lookup. -/
def initial : Server := { cache := initCache, handlers := fun _ => .start }

/-- A run; it has no result if a step is not possible. -/
def run (steps : List HandlerStep) : Option Server := steps.foldlM step initial

theorem run_concat (steps : List HandlerStep) (x : HandlerStep) :
    run (steps ++ [x]) = (run steps).bind fun s => s.step x :=
  Runs.foldlM_concat initial steps x

/-- The addition a thread is about to make is of a key that no item has which stays when room is
made; unless the object is too large, or its item or its key do not get their memory. -/
def AddsNew (s : Server) (t : ℕ) (alloc : Alloc) : Prop :=
  ∀ key response totalSize, s.handlers t = .fetched key response totalSize →
    totalSize ≤ maxObjectSize → alloc.item = true → alloc.url = true →
      ∀ p ∈ keep s.cache.size (maxCacheSize - totalSize) s.cache.listing, s.cache.url p ≠ some key

end Server

/-- **One entry per object**: no two items have the same key, and the total counts each item once.
-/
structure OneEntry (c : Cache) : Prop where
  distinct : (c.listing.filterMap c.url).Nodup
  counted : c.totalSize = (c.listing.map c.size).sum

/-! ### What a step preserves -/

section Steps

variable {c c' : Cache} {l : List Ptr}

theorem LeadsTo.mem {from? : Option Ptr} {p : Ptr} (h : LeadsTo c from? p) :
    ∀ {l : List Ptr}, Follows c from? l → p ∈ l := by
  induction h with
  | here p =>
      intro l hl
      cases hl
      exact List.mem_cons_self ..
  | next p q _ ih =>
      intro l hl
      cases hl with
      | node _ l hl => exact List.mem_cons_of_mem _ (ih hl)

/-- A lookup that returns permutes the items. -/
theorem Shape.findCacheItem (h : Shape c l) {key : List Char} {found : Option Ptr}
    (hrun : findCacheItem c key = some (c', found)) :
    ∃ l', Shape c' l' ∧ l'.Perm l ∧ c'.url = c.url := by
  have hrec := h.record .rdlock
  simp only [Proxy.findCacheItem] at hrun
  split at hrun
  · cases hrun
  · rename_i p hloop
    cases hrun
    -- the item is one of the list
    have hfollows := Listed.follows [] hrec.listed
    rw [← hrec.listed.next_head] at hfollows
    obtain ⟨l₁, l₂, rfl⟩ := List.append_of_mem ((findLoop_found hloop).1.mem hfollows)
    obtain ⟨hmove, hs⟩ := hrec.moveToFront
    exact ⟨_, hmove, List.perm_middle.symm, funext fun q => url_of_entry (congrFun hs.entry q)⟩
  · cases hrun
    exact ⟨l, hrec.record .unlock, List.Perm.refl l, rfl⟩

theorem filterMap_url {kept : List Ptr} (hkeep : ∀ p ∈ kept, c'.entry p = c.entry p) :
    kept.filterMap c'.url = kept.filterMap c.url :=
  List.filterMap_congr fun p hp => url_of_entry (hkeep p hp)

/-- What an addition makes of the keys: the key of the new item in front of those that stay, or,
if nothing with a key is added, those that stay. -/
theorem Shape.addCacheItem_keys (h : Shape c l) {alloc : Alloc} {url : List Char}
    {content : List UInt8} {size : ℕ}
    (hrun : Proxy.addCacheItem alloc c url content size = some c') :
    ∃ l', Shape c' l' ∧
      ((size ≤ maxObjectSize ∧ alloc.item = true ∧ alloc.url = true ∧
          l'.filterMap c'.url = url :: (keep c.size (maxCacheSize - size) l).filterMap c.url) ∨
        (¬ (size ≤ maxObjectSize ∧ alloc.item = true ∧ alloc.url = true) ∧
          ∃ kept, kept <+: l ∧ l'.filterMap c'.url = kept.filterMap c.url)) := by
  rcases Nat.lt_or_ge maxObjectSize size with hlarge | hsize
  · rw [addCacheItem_large hlarge] at hrun
    cases hrun
    exact ⟨l, h.record .wrlock, .inr ⟨fun hn => absurd hn.1 (Nat.not_le.2 hlarge), l,
      List.prefix_refl l, rfl⟩⟩
  · cases hitem : alloc.item with
    | false =>
        obtain ⟨c₁, kept, hrun', hpre, hshape, hkeep⟩ :=
          h.addCacheItem_noItem hitem url content hsize
        rw [hrun] at hrun'
        cases hrun'
        exact ⟨kept, hshape, .inr ⟨fun hn => Bool.false_ne_true hn.2.1, kept, hpre,
          filterMap_url hkeep⟩⟩
    | true =>
        obtain ⟨copy, hcopy⟩ := addCacheItem_strdup hitem hsize hrun
        obtain ⟨c₁, kept, hrun', hpre, hshape, -, -, hself, hkeep, hlong, hfit, -⟩ :=
          h.addCacheItem hitem url hsize hcopy
        rw [hrun] at hrun'
        cases hrun'
        have hmax : maxCacheSize = 1048576 := rfl
        have hobj : maxObjectSize = 102400 := rfl
        have hkept : kept = keep c.size (maxCacheSize - size) l := by
          refine LongestFit.eq ?_ (longestFit_keep c.size _ l)
          exact ⟨hpre, by omega, fun l'' hl hsum => hlong l'' hl (by omega)⟩
        have hurl : c'.url c.fresh = if alloc.url then some url else none :=
          congrArg Entry.url hself
        refine ⟨c.fresh :: kept, hshape, ?_⟩
        cases hkey : alloc.url with
        | false =>
            refine .inr ⟨fun hn => Bool.false_ne_true hn.2.2, kept, hpre, ?_⟩
            rw [List.filterMap_cons_none (by rw [hurl, hkey]; rfl), filterMap_url hkeep]
        | true =>
            refine .inl ⟨hsize, rfl, rfl, ?_⟩
            rw [List.filterMap_cons_some (by rw [hurl, hkey]; rfl), filterMap_url hkeep, hkept]

end Steps

/-! ### Along a run -/

/-- **What a step does to the cache**: nothing, a lookup, or an addition. -/
theorem Server.step_cases {s s' : Server} {x : HandlerStep} (h : s.step x = some s') :
    (s'.cache = s.cache ∨ ∃ key found, Proxy.findCacheItem s.cache key = some (s'.cache, found)) ∧
        (∀ t alloc beyond, x ≠ .add t alloc beyond) ∨
      ∃ t alloc beyond key response totalSize, x = .add t alloc beyond ∧
        s.handlers t = .fetched key response totalSize ∧
        Proxy.addCacheItem alloc s.cache key (response ++ beyond) totalSize = some s'.cache := by
  cases x with
  | lookup t key =>
      refine .inl ⟨.inr ?_, fun _ _ _ => by simp⟩
      simp only [Server.step] at h
      split at h
      · obtain ⟨found, hfound, rfl⟩ := Option.map_eq_some_iff.1 h
        exact ⟨key, found.2, hfound⟩
      · cases h
  | fetch t garbage chunks =>
      refine .inl ⟨.inl ?_, fun _ _ _ => by simp⟩
      simp only [Server.step] at h
      split at h
      · cases h
        rfl
      · cases h
  | giveUp t =>
      refine .inl ⟨.inl ?_, fun _ _ _ => by simp⟩
      simp only [Server.step] at h
      split at h
      · cases h
        rfl
      · cases h
  | add t alloc beyond =>
      refine .inr ?_
      simp only [Server.step] at h
      split at h
      · rename_i key response totalSize hfetched
        obtain ⟨c, hadd, rfl⟩ := Option.map_eq_some_iff.1 h
        exact ⟨t, alloc, beyond, key, response, totalSize, rfl, hfetched, hadd⟩
      · cases h

/-- One step: the list stays sound, and if the step adds no key that stays, the keys stay
distinct. -/
theorem Shape.server_step {s s' : Server} {l : List Ptr} {x : HandlerStep} (hl : Shape s.cache l)
    (h : s.step x = some s') :
    ∃ l', Shape s'.cache l' ∧ ((∀ t alloc beyond, x = .add t alloc beyond → s.AddsNew t alloc) →
      (l.filterMap s.cache.url).Nodup → (l'.filterMap s'.cache.url).Nodup) := by
  rcases Server.step_cases h with ⟨hsame | ⟨key, found, hfind⟩, -⟩ |
    ⟨t, alloc, beyond, key, response, totalSize, rfl, hfetched, hadd⟩
  · rw [hsame]
    exact ⟨l, hl, fun _ hnd => hnd⟩
  · obtain ⟨l', hl', hperm, hurl⟩ := hl.findCacheItem hfind
    rw [hurl]
    exact ⟨l', hl', fun _ hnd => (hperm.filterMap _).nodup_iff.2 hnd⟩
  · obtain ⟨l', hl', ⟨hsize, hitem, hkey, hkeys⟩ | ⟨-, kept, hpre, hkeys⟩⟩ :=
      hl.addCacheItem_keys hadd
    -- the new item is in front, and its key is not among those that stay
    · refine ⟨l', hl', fun hnew hnd => ?_⟩
      have hnot := hnew t alloc beyond rfl key response totalSize hfetched hsize hitem hkey
      rw [hl.listing_eq] at hnot
      rw [hkeys, List.nodup_cons]
      refine ⟨fun hmem => ?_, hnd.sublist ?_⟩
      · obtain ⟨p, hp, hurl⟩ := List.mem_filterMap.1 hmem
        exact hnot p hp hurl
      · exact (longestFit_keep _ _ _).front.sublist.filterMap _
    -- nothing was added, but items may have been removed
    · refine ⟨l', hl', fun _ hnd => ?_⟩
      rw [hkeys]
      exact hnd.sublist (hpre.sublist.filterMap _)

/-- **The list is sound** in every state a run reaches. -/
theorem shape_server {steps : List HandlerStep} {s : Server} (h : Server.run steps = some s) :
    ∃ l, Shape s.cache l := by
  refine Runs.kept (I := fun s => ∃ l, Shape s.cache l) ?_ ⟨[], rep_initCache.shape⟩ h
  rintro s₁ x s₂ ⟨l, hl⟩ hstep
  obtain ⟨l', hl', -⟩ := hl.server_step hstep
  exact ⟨l', hl'⟩

/-- Every addition of the run is of a key that is not in the cache, once room was made. -/
def AllAddNew (steps : List HandlerStep) : Prop :=
  ∀ pre t alloc beyond s s', pre ++ [.add t alloc beyond] <+: steps → Server.run pre = some s →
    s.step (.add t alloc beyond) = some s' → s.AddsNew t alloc

/-- Along such a run the keys stay distinct. -/
theorem distinct_run {steps : List HandlerStep} (hall : AllAddNew steps) {s : Server}
    (h : Server.run steps = some s) : ∃ l, Shape s.cache l ∧ (l.filterMap s.cache.url).Nodup := by
  have halong : Runs.Along Server.step
      (fun s x => ∀ t alloc beyond, x = .add t alloc beyond → s.AddsNew t alloc)
      Server.initial steps := by
    refine Runs.along_iff.2 fun pre x s₁ s₂ hpre hrun hstep t alloc beyond hx => ?_
    subst hx
    exact hall pre t alloc beyond s₁ s₂ hpre hrun hstep
  refine Runs.invariant (I := fun s => ∃ l, Shape s.cache l ∧ (l.filterMap s.cache.url).Nodup) ?_
    ⟨[], rep_initCache.shape, List.nodup_nil⟩ halong h
  rintro s₁ x s₂ ⟨l, hl, hnd⟩ hnew hstep
  obtain ⟨l', hl', hkeep⟩ := hl.server_step hstep
  exact ⟨l', hl', hkeep hnew hnd⟩

/-- **When there is one entry per object**: in every run, for any number of threads and any order of
their steps, every state reached has one entry per object iff every addition is of a key that no
item has which stays when room is made. -/
theorem oneEntry_iff (steps : List HandlerStep) :
    (∀ pre s, pre <+: steps → Server.run pre = some s → OneEntry s.cache) ↔ AllAddNew steps := by
  constructor
  · intro h pre t alloc beyond s s' hpre hrun hstep key response totalSize hfetched hsize hitem hkey
    obtain ⟨l, hl⟩ := shape_server hrun
    have hrun' : Server.run (pre ++ [.add t alloc beyond]) = some s' := by
      rw [Server.run_concat, hrun]
      exact hstep
    have hdistinct := (h _ s' hpre hrun').distinct
    rcases Server.step_cases hstep with ⟨-, hno⟩ |
      ⟨t', alloc', beyond', key', response', totalSize', hx, hfetched', hadd⟩
    · exact absurd rfl (hno t alloc beyond)
    · cases hx
      rw [hfetched] at hfetched'
      cases hfetched'
      obtain ⟨l', hl', ⟨-, -, -, hkeys⟩ | ⟨hno, -⟩⟩ := hl.addCacheItem_keys hadd
      · rw [hl'.listing_eq, hkeys] at hdistinct
        rw [hl.listing_eq]
        intro p hp hurl
        exact (List.nodup_cons.1 hdistinct).1 (List.mem_filterMap.2 ⟨p, hp, hurl⟩)
      · exact absurd ⟨hsize, hitem, hkey⟩ hno
  · intro hall pre s hpre hrun
    obtain ⟨l, hl, hnd⟩ := distinct_run (fun pre' t alloc beyond s s' hpre' =>
      hall pre' t alloc beyond s s' (hpre'.trans hpre)) hrun
    refine ⟨?_, ?_⟩
    · rwa [hl.listing_eq]
    · rw [hl.listing_eq]
      exact hl.total

/-- Two threads ask for the same object; both miss, fetch and add it. -/
def bothFetch : List HandlerStep :=
  [.lookup 0 ['k'], .lookup 1 ['k'], .fetch 0 [] [[120]], .fetch 1 [] [[120]],
    .add 0 .all [0], .add 1 .all [0]]

/-- **An object with two entries**: its byte is counted twice. -/
theorem two_entries : ¬ ∀ (steps : List HandlerStep) (s : Server), Server.run steps = some s →
    OneEntry s.cache := by
  intro h
  have hval : (Server.run bothFetch).map (fun s =>
      (s.cache.listing.filterMap s.cache.url, s.cache.totalSize)) =
        some ([['k'], ['k']], 2) := by
    decide +kernel
  obtain ⟨s, hs, hkeys⟩ := Option.map_eq_some_iff.1 hval
  have hdistinct := (h bothFetch s hs).distinct
  rw [(Prod.mk.inj hkeys).1] at hdistinct
  exact absurd hdistinct (by decide)

end Proxy
