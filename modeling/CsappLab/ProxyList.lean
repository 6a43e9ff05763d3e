/-
**The cache is a list of items.**

Read through `next` and `prev`, with `tail` as what precedes the null pointer, the nodes of the
cache form a ring through the dummy: the items in order, then the null pointer.  Detaching a node,
attaching one behind the dummy and removing the last one are the two edits of such a ring, and the
functions of the cache are read off from there as operations on the list of items.

Main definitions:

* `Proxy.Cache.nx`, `Proxy.Cache.pv` — the link functions, with the null pointer as a node;
* `Proxy.Entry` — what an item stores;
* `Proxy.Rep`, `Proxy.Shape` — the cache holds the items of a list, in order, with or without
  their keys.

Main results:

* `Proxy.Shape.moveToFront` — an item moves to the front;
* `Proxy.Rep.findCacheItem` — the first item with the key is found and moved to the front;
* `Proxy.Shape.removeOldest`, `Proxy.Shape.evictLoop` — the last items go, no more than necessary;
* `Proxy.Shape.addCacheItem`, `Proxy.Rep.addCacheItem` — the new item is put in front of what is
  left.
-/

import CsappLab.LinkedRing
import CsappLab.ProxyCache
import Mathlib.Algebra.BigOperators.Group.List.Basic
import Mathlib.Data.List.Induction
import Mathlib.Data.List.Perm.Subperm
import Mathlib.Data.Option.Basic

set_option relaxedAutoImplicit false
set_option autoImplicit false

namespace Proxy

open Linked

/-! ### Links -/

/-- The successor of a node; the null pointer is followed by the dummy. -/
def Cache.nx (c : Cache) : Option Ptr → Option Ptr
  | none => some c.head
  | some p => c.next p

/-- The predecessor of a node; the null pointer is preceded by the tail. -/
def Cache.pv (c : Cache) : Option Ptr → Option Ptr
  | none => c.tail
  | some p => c.prev p

/-- What an item stores. -/
structure Entry where
  url : Option (List Char)
  content : Option (List UInt8)
  size : ℕ

/-- What the node at an address stores. -/
def Cache.entry (c : Cache) (p : Ptr) : Entry :=
  { url := c.url p, content := c.content p, size := c.size p }

theorem url_of_entry {c c' : Cache} {p : Ptr} (h : c'.entry p = c.entry p) : c'.url p = c.url p :=
  congrArg Entry.url h

theorem size_of_entry {c c' : Cache} {p : Ptr} (h : c'.entry p = c.entry p) :
    c'.size p = c.size p := congrArg Entry.size h

section Edits

variable (c : Cache) (p q : Ptr) (v : Option Ptr)

@[simp] theorem head_setNext : (c.setNext p v).head = c.head := rfl

@[simp] theorem head_setPrev : (c.setPrev p v).head = c.head := rfl

@[simp] theorem head_setTail : (c.setTail v).head = c.head := rfl

@[simp] theorem tail_setNext : (c.setNext p v).tail = c.tail := rfl

@[simp] theorem tail_setPrev : (c.setPrev p v).tail = c.tail := rfl

theorem items_setNext : (c.setNext p v).items =
    Function.update c.items p { c.items p with next := v } := rfl

theorem items_setPrev : (c.setPrev p v).items =
    Function.update c.items p { c.items p with prev := v } := rfl

theorem nx_setNext : (c.setNext p v).nx = Function.update c.nx (some p) v := by
  ext1 x
  cases x with
  | none => rw [Function.update_of_ne (by simp)]; rfl
  | some q =>
      rcases eq_or_ne q p with rfl | hq
      · simp [Cache.nx, Cache.next, items_setNext]
      · rw [Function.update_of_ne (by simpa using hq)]
        simp [Cache.nx, Cache.next, items_setNext, Function.update_of_ne hq]

theorem pv_setNext : (c.setNext p v).pv = c.pv := by
  ext1 x
  cases x with
  | none => rfl
  | some q =>
      rcases eq_or_ne q p with rfl | hq
      · simp [Cache.pv, Cache.prev, items_setNext]
      · simp [Cache.pv, Cache.prev, items_setNext, Function.update_of_ne hq]

theorem nx_setPrev : (c.setPrev p v).nx = c.nx := by
  ext1 x
  cases x with
  | none => rfl
  | some q =>
      rcases eq_or_ne q p with rfl | hq
      · simp [Cache.nx, Cache.next, items_setPrev]
      · simp [Cache.nx, Cache.next, items_setPrev, Function.update_of_ne hq]

theorem pv_setPrev : (c.setPrev p v).pv = Function.update c.pv (some p) v := by
  ext1 x
  cases x with
  | none => rw [Function.update_of_ne (by simp)]; rfl
  | some q =>
      rcases eq_or_ne q p with rfl | hq
      · simp [Cache.pv, Cache.prev, items_setPrev]
      · rw [Function.update_of_ne (by simpa using hq)]
        simp [Cache.pv, Cache.prev, items_setPrev, Function.update_of_ne hq]

theorem nx_setTail : (c.setTail v).nx = c.nx := by
  ext1 x
  cases x <;> rfl

theorem pv_setTail : (c.setTail v).pv = Function.update c.pv none v := by
  ext1 x
  cases x with
  | none => simp [Cache.pv, Cache.setTail]
  | some q => rw [Function.update_of_ne (by simp)]; rfl

theorem nx_setTotalSize (n : ℕ) : (c.setTotalSize n).nx = c.nx := by
  ext1 x
  cases x <;> rfl

theorem pv_setTotalSize (n : ℕ) : (c.setTotalSize n).pv = c.pv := by
  ext1 x
  cases x <;> rfl

theorem nx_record (e : Event) : (c.record e).nx = c.nx := by
  ext1 x
  cases x <;> rfl

theorem pv_record (e : Event) : (c.record e).pv = c.pv := by
  ext1 x
  cases x <;> rfl

@[simp] theorem entry_setNext : (c.setNext p v).entry = c.entry := by
  ext1 q
  rcases eq_or_ne q p with rfl | hq
  · simp [Cache.entry, Cache.url, Cache.content, Cache.size, items_setNext]
  · simp [Cache.entry, Cache.url, Cache.content, Cache.size, items_setNext,
      Function.update_of_ne hq]

@[simp] theorem entry_setPrev : (c.setPrev p v).entry = c.entry := by
  ext1 q
  rcases eq_or_ne q p with rfl | hq
  · simp [Cache.entry, Cache.url, Cache.content, Cache.size, items_setPrev]
  · simp [Cache.entry, Cache.url, Cache.content, Cache.size, items_setPrev,
      Function.update_of_ne hq]

@[simp] theorem entry_setTail : (c.setTail v).entry = c.entry := rfl

@[simp] theorem entry_setTotalSize (n : ℕ) : (c.setTotalSize n).entry = c.entry := rfl

@[simp] theorem entry_record (e : Event) : (c.record e).entry = c.entry := rfl

end Edits

/-- Everything but the links and the log is as it was. -/
structure SameStore (c c' : Cache) : Prop where
  head : c'.head = c.head
  fresh : c'.fresh = c.fresh
  totalSize : c'.totalSize = c.totalSize
  entry : c'.entry = c.entry

/-- Detaching an item, as two assignments to the link functions. -/
theorem detach_links {c : Cache} {x p : Ptr} (hprev : c.prev x = some p) (hpx : p ≠ x)
    (htail : c.tail = some x ↔ c.next x = none) :
    (detach c x).nx = Function.update c.nx (some p) (c.next x) ∧
      (detach c x).pv = Function.update c.pv (c.next x) (some p) ∧ SameStore c (detach c x) := by
  have hn : (c.setNext p (c.next x)).next x = c.next x := by
    have := congrFun (nx_setNext c p (c.next x)) (some x)
    rwa [Function.update_of_ne (by simpa using hpx.symm)] at this
  have hp : (c.setNext p (c.next x)).prev x = some p :=
    (congrFun (pv_setNext c p (c.next x)) (some x)).trans hprev
  cases hx : c.next x with
  | none =>
      have ht : c.tail = some x := htail.2 hx
      have hdetach : detach c x = (c.setNext p none).setTail (some p) := by
        rw [hx] at hn hp
        simp only [detach, hprev, hx, hn, tail_setNext, ht, if_true, hp]
      rw [hdetach, nx_setTail, nx_setNext, pv_setTail, pv_setNext]
      exact ⟨rfl, rfl, rfl, rfl, rfl, by simp⟩
  | some n =>
      have ht : c.tail ≠ some x := fun h => by simp [htail.1 h] at hx
      have hdetach : detach c x = (c.setNext p (some n)).setPrev n (some p) := by
        rw [hx] at hn hp
        simp only [detach, hprev, hx, hn, hp, tail_setPrev, tail_setNext, ht, if_false]
      rw [hdetach, nx_setPrev, nx_setNext, pv_setPrev, pv_setNext]
      exact ⟨rfl, rfl, rfl, rfl, rfl, by simp⟩

/-- Attaching an item behind the dummy, as assignments to the link functions. -/
theorem attachFront_links {c : Cache} {x : Ptr} (hxh : x ≠ c.head)
    (htail : c.tail = some c.head ↔ c.next c.head = none) :
    (attachFront c x).nx = Function.update (Function.update c.nx (some x) (c.next c.head))
        (some c.head) (some x) ∧
      (attachFront c x).pv = Function.update (Function.update c.pv (some x) (some c.head))
        (c.next c.head) (some x) ∧ SameStore c (attachFront c x) := by
  have hhead : ((c.setNext x (c.next c.head)).setPrev x (some c.head)).next c.head =
      c.next c.head := by
    have h1 := congrFun (nx_setPrev (c.setNext x (c.next c.head)) x (some c.head)) (some c.head)
    have h2 := congrFun (nx_setNext c x (c.next c.head)) (some c.head)
    rw [Function.update_of_ne (by simpa using hxh.symm)] at h2
    exact h1.trans h2
  cases hn : c.next c.head with
  | none =>
      rw [hn] at hhead
      have hattach : attachFront c x =
          (((c.setNext x none).setPrev x (some c.head)).setNext c.head (some x)).setTail
            (some x) := by
        simp only [attachFront, hn, head_setNext, head_setPrev, hhead, tail_setNext, tail_setPrev,
          htail.2 hn, if_true]
      rw [hattach, nx_setTail, nx_setNext, nx_setPrev, nx_setNext, pv_setTail, pv_setNext,
        pv_setPrev, pv_setNext]
      exact ⟨rfl, rfl, rfl, rfl, rfl, by simp⟩
  | some n =>
      rw [hn] at hhead
      have ht : c.tail ≠ some c.head := fun h => by simp [htail.1 h] at hn
      have hattach : attachFront c x =
          (((c.setNext x (some n)).setPrev x (some c.head)).setPrev n (some x)).setNext c.head
            (some x) := by
        simp only [attachFront, hn, head_setNext, head_setPrev, hhead, tail_setNext, tail_setPrev,
          ht, if_false]
      rw [hattach, nx_setNext, nx_setPrev, nx_setPrev, nx_setNext, pv_setNext, pv_setPrev,
        pv_setPrev, pv_setNext]
      exact ⟨rfl, rfl, rfl, rfl, rfl, by simp⟩

/-- Linking a new item in, as assignments to the link functions. -/
theorem linkNew_links {c : Cache} {x : Ptr} (hxh : x ≠ c.head) :
    (linkNew c x).nx = Function.update (Function.update c.nx (some x) (c.next c.head))
        (some c.head) (some x) ∧
      (linkNew c x).pv = Function.update (Function.update c.pv (some x) (some c.head))
        (c.next c.head) (some x) ∧ SameStore c (linkNew c x) := by
  have h1 : (c.setPrev x (some c.head)).next c.head = c.next c.head :=
    congrFun (nx_setPrev c x (some c.head)) (some c.head)
  have h2 : ((c.setPrev x (some c.head)).setNext x (c.next c.head)).next c.head =
      c.next c.head := by
    have := congrFun (nx_setNext (c.setPrev x (some c.head)) x (c.next c.head)) (some c.head)
    rw [Function.update_of_ne (by simpa using hxh.symm)] at this
    exact this.trans h1
  cases hn : c.next c.head with
  | none =>
      rw [hn] at h1 h2
      have hlink : linkNew c x = (((c.setPrev x (some c.head)).setNext x none).setTail
          (some x)).setNext c.head (some x) := by
        simp only [linkNew, head_setPrev, head_setNext, head_setTail, h1, h2]
      rw [hlink, nx_setNext, nx_setTail, nx_setNext, nx_setPrev, pv_setNext, pv_setTail, pv_setNext,
        pv_setPrev]
      exact ⟨rfl, rfl, rfl, rfl, rfl, by simp⟩
  | some n =>
      rw [hn] at h1 h2
      have hlink : linkNew c x = (((c.setPrev x (some c.head)).setNext x (some n)).setPrev n
          (some x)).setNext c.head (some x) := by
        simp only [linkNew, head_setPrev, head_setNext, h1, h2]
      rw [hlink, nx_setNext, nx_setPrev, nx_setNext, nx_setPrev, pv_setNext, pv_setPrev, pv_setNext,
        pv_setPrev]
      exact ⟨rfl, rfl, rfl, rfl, rfl, by simp⟩

/-! ### The list of items -/

/-- The nodes of the cache, from the dummy through the items to the null pointer and back. -/
def Listed (c : Cache) (l : List Ptr) : Prop :=
  Ring c.nx c.pv (some c.head) (l.map some ++ [none])

/-- **The cache holds the items `l`, most recently used first.** -/
structure Rep (c : Cache) (l : List Ptr) : Prop where
  listed : Listed c l
  nodup : (c.head :: l).Nodup
  bounded : ∀ p ∈ c.head :: l, p < c.fresh
  stored : ∀ p ∈ l, (c.url p).isSome ∧ c.size p ≤ maxObjectSize
  total : c.totalSize = (l.map c.size).sum
  total_le : c.totalSize ≤ maxCacheSize

/-- The same without the keys: the copy of a key may be missing. -/
structure Shape (c : Cache) (l : List Ptr) : Prop where
  listed : Listed c l
  nodup : (c.head :: l).Nodup
  bounded : ∀ p ∈ c.head :: l, p < c.fresh
  sized : ∀ p ∈ l, c.size p ≤ maxObjectSize
  total : c.totalSize = (l.map c.size).sum
  total_le : c.totalSize ≤ maxCacheSize

theorem Rep.shape {c : Cache} {l : List Ptr} (h : Rep c l) : Shape c l :=
  ⟨h.listed, h.nodup, h.bounded, fun p hp => (h.stored p hp).2, h.total, h.total_le⟩

theorem Shape.rep {c : Cache} {l : List Ptr} (h : Shape c l) (hurl : ∀ p ∈ l, (c.url p).isSome) :
    Rep c l :=
  ⟨h.listed, h.nodup, h.bounded, fun p hp => ⟨hurl p hp, h.sized p hp⟩, h.total, h.total_le⟩

/-- Every node that stores a key is one of the list: no item is lost. -/
def Owned (c : Cache) (l : List Ptr) : Prop := ∀ p, p ∉ l → c.url p = none

/-- The cache at start-up is empty. -/
theorem rep_initCache : Rep initCache [] where
  listed := by
    simp [Listed, Linked.Ring, Linked.Chain, Linked.Link, Cache.nx, Cache.pv, Cache.next,
      Cache.prev, initCache]
  nodup := by simp
  bounded p hp := by
    rw [List.mem_singleton] at hp
    rw [hp]
    exact Nat.one_pos
  stored p hp := by cases hp
  total := rfl
  total_le := Nat.zero_le _

theorem nodup_ring {d : Ptr} {l : List Ptr} (h : (d :: l).Nodup) :
    (some d :: (l.map some ++ [none])).Nodup := by
  have hmap := h.map (Option.some_injective Ptr)
  rw [List.map_cons] at hmap
  rw [← List.cons_append, List.nodup_append]
  exact ⟨hmap, List.nodup_singleton none, by simp⟩

theorem Listed.next_head {c : Cache} {l : List Ptr} (h : Listed c l) : c.next c.head = l.head? := by
  have hn : c.next c.head = headOf (some c.head) (l.map some ++ [none]) := Ring.next_dummy h
  rw [hn]
  cases l <;> rfl

theorem Listed.tail_eq {c : Cache} {l : List Ptr} (h : Listed c l) :
    c.tail = lastOf (some c.head) (l.map some) := by
  have hring : Ring c.nx c.pv (some c.head) (l.map some ++ none :: []) := h
  exact hring.prev_node

theorem Listed.next_node {c : Cache} {l₁ l₂ : List Ptr} {p : Ptr} (h : Listed c (l₁ ++ p :: l₂)) :
    c.next p = l₂.head? := by
  rw [Listed, List.map_append, List.map_cons, List.append_assoc, List.cons_append] at h
  have hn : c.next p = headOf (some c.head) (l₂.map some ++ [none]) := Ring.next_node h
  rw [hn]
  cases l₂ <;> rfl

theorem Listed.prev_node {c : Cache} {l₁ l₂ : List Ptr} {p : Ptr} (h : Listed c (l₁ ++ p :: l₂)) :
    ∃ q ∈ c.head :: l₁, c.prev p = some q := by
  rw [Listed, List.map_append, List.map_cons, List.append_assoc, List.cons_append] at h
  have hp : c.prev p = lastOf (some c.head) (l₁.map some) := Ring.prev_node h
  have hmem := lastOf_mem (some c.head) (l₁.map some)
  rw [← List.map_cons, ← hp] at hmem
  obtain ⟨q, hq, hqp⟩ := List.mem_map.1 hmem
  exact ⟨q, hq, hqp.symm⟩

/-- The tail is the last node of the list. -/
theorem Listed.tail_concat {c : Cache} {l : List Ptr} {p : Ptr} (h : Listed c (l ++ [p])) :
    c.tail = some p := by
  rw [h.tail_eq, List.map_append, List.map_singleton, lastOf_concat]

/-- The tail is the dummy iff the list is empty. -/
theorem Listed.tail_eq_head {c : Cache} {l : List Ptr} (h : Listed c l)
    (hnd : (c.head :: l).Nodup) :
    c.tail = some c.head ↔ c.next c.head = none := by
  rw [h.next_head, List.head?_eq_none_iff]
  constructor
  · intro ht
    rcases List.eq_nil_or_concat l with hl | ⟨l', p, hl⟩
    · exact hl
    · rw [List.concat_eq_append] at hl
      subst hl
      rw [h.tail_concat] at ht
      cases ht
      exact absurd (by simp) (List.nodup_cons.1 hnd).1
  · rintro rfl
    rw [h.tail_eq]
    rfl

/-- An item is the tail iff the null pointer follows it. -/
theorem Listed.tail_eq_node {c : Cache} {l₁ l₂ : List Ptr} {p : Ptr}
    (h : Listed c (l₁ ++ p :: l₂)) (hnd : (l₁ ++ p :: l₂).Nodup) :
    c.tail = some p ↔ c.next p = none := by
  rw [h.next_node, List.head?_eq_none_iff]
  constructor
  · intro ht
    rcases List.eq_nil_or_concat l₂ with hl | ⟨l', q, hl⟩
    · exact hl
    · rw [List.concat_eq_append] at hl
      subst hl
      have hq : c.tail = some q := Listed.tail_concat (l := l₁ ++ p :: l') (by simpa using h)
      rw [hq] at ht
      cases ht
      have := (List.nodup_cons.1 (List.nodup_append.1 hnd).2.1).1
      simp at this
  · rintro rfl
    exact h.tail_concat

/-- The list after the store of the items was left alone. -/
theorem Shape.of_sameStore {c c' : Cache} {l l' : List Ptr} (h : Shape c l) (hs : SameStore c c')
    (hl : Listed c' l') (hperm : l'.Perm l) : Shape c' l' := by
  have hsize : ∀ p, c'.size p = c.size p := fun p => size_of_entry (congrFun hs.entry p)
  refine ⟨hl, ?_, ?_, ?_, ?_, ?_⟩
  · rw [hs.head]
    exact (hperm.cons c.head).nodup_iff.2 h.nodup
  · rw [hs.head, hs.fresh]
    exact fun p hp => h.bounded p ((hperm.cons c.head).mem_iff.1 hp)
  · intro p hp
    rw [hsize]
    exact h.sized p (hperm.mem_iff.1 hp)
  · rw [hs.totalSize, h.total, funext hsize]
    exact ((hperm.map c.size).sum_eq).symm
  · rw [hs.totalSize]
    exact h.total_le

/-- The keys are there as long as the entries are kept. -/
theorem Rep.of_shape {c c' : Cache} {l l' : List Ptr} (h : Rep c l) (hs : Shape c' l')
    (hsub : l' ⊆ l) (hentry : ∀ p ∈ l', c'.entry p = c.entry p) : Rep c' l' :=
  hs.rep fun p hp => by
    rw [url_of_entry (hentry p hp)]
    exact (h.stored p (hsub hp)).1

/-! ### Moving an item to the front -/

/-- An item taken out of the list. -/
theorem Listed.detach {c : Cache} {l₁ l₂ : List Ptr} {p : Ptr} (h : Listed c (l₁ ++ p :: l₂))
    (hnd : (c.head :: (l₁ ++ p :: l₂)).Nodup) :
    Listed (detach c p) (l₁ ++ l₂) ∧ SameStore c (detach c p) := by
  have hperm := perm_node c.head p l₁ l₂
  have hnd' := hperm.nodup_iff.1 hnd
  obtain ⟨r, hr, hprev⟩ := h.prev_node
  have hrp : r ≠ p := by
    rintro rfl
    refine (List.nodup_cons.1 hnd').1 ?_
    rw [← List.cons_append]
    exact List.mem_append_left _ hr
  obtain ⟨hnx, hpv, hs⟩ := detach_links hprev hrp (h.tail_eq_node (List.nodup_cons.1 hnd).2)
  refine ⟨?_, hs⟩
  have hring : Ring c.nx c.pv (some c.head) (l₁.map some ++ some p :: (l₂.map some ++ [none])) := by
    simpa [Listed] using h
  have hdel := hring.unlink_update (by
    have := nodup_ring (List.nodup_cons.1 hnd').2
    simpa using this)
  have hpv_p : c.pv (some p) = some r := hprev
  rw [hpv_p] at hdel
  rw [Listed, hnx, hpv, hs.head, List.map_append, List.append_assoc]
  exact hdel

/-- A node put in front of the list by the assignments of an insertion. -/
theorem Listed.insert {c c' : Cache} {l : List Ptr} {x : Ptr} (h : Listed c l)
    (hnd : (c.head :: l).Nodup) (hx : x ∉ c.head :: l) (hhead : c'.head = c.head)
    (hnx : c'.nx = Function.update (Function.update c.nx (some x) (c.next c.head))
      (some c.head) (some x))
    (hpv : c'.pv = Function.update (Function.update c.pv (some x) (some c.head))
      (c.next c.head) (some x)) : Listed c' (x :: l) := by
  have hins := Ring.insertFront_update (x := some x) h (nodup_ring hnd) (by
    rw [← List.cons_append, ← List.map_cons]
    simpa using hx)
  rw [Listed, hnx, hpv, hhead, List.map_cons, List.cons_append]
  exact hins

/-- **An item moves to the front**, and nothing else changes. -/
theorem Shape.moveToFront {c : Cache} {l₁ l₂ : List Ptr} {p : Ptr} (h : Shape c (l₁ ++ p :: l₂)) :
    Shape (moveToFront c p) (p :: (l₁ ++ l₂)) ∧ SameStore c (moveToFront c p) := by
  have hfirst := h.listed.next_head
  by_cases hp : c.next c.head = some p
  · -- the item is the first one already
    have hl₁ : l₁ = [] := by
      cases l₁ with
      | nil => rfl
      | cons q l₁ =>
          rw [hfirst] at hp
          have hqp : q = p := by simpa using hp
          subst hqp
          have := (List.nodup_cons.1 (List.nodup_cons.1 h.nodup).2).1
          simp at this
    subst hl₁
    rw [Proxy.moveToFront, if_pos hp]
    exact ⟨h, rfl, rfl, rfl, rfl⟩
  · rw [Proxy.moveToFront, if_neg hp]
    have hnd := (perm_node c.head p l₁ l₂).nodup_iff.1 h.nodup
    obtain ⟨hp_notMem, hrest⟩ := List.nodup_cons.1 hnd
    obtain ⟨hdet, hs⟩ := h.listed.detach h.nodup
    rw [← hs.head] at hp_notMem hrest
    have hph : p ≠ (Proxy.detach c p).head := fun he => hp_notMem (he ▸ List.mem_cons_self ..)
    obtain ⟨hnx, hpv, hs'⟩ := attachFront_links hph (hdet.tail_eq_head hrest)
    have hatt := hdet.insert hrest hp_notMem hs'.head hnx hpv
    have hboth : SameStore c (attachFront (Proxy.detach c p) p) :=
      ⟨hs'.head.trans hs.head, hs'.fresh.trans hs.fresh, hs'.totalSize.trans hs.totalSize,
        hs'.entry.trans hs.entry⟩
    exact ⟨h.of_sameStore hboth hatt List.perm_middle.symm, hboth⟩

/-- There are no more nodes than addresses handed out. -/
theorem Shape.length_le {c : Cache} {l : List Ptr} (h : Shape c l) : l.length + 1 ≤ c.fresh := by
  have hsub : (c.head :: l) ⊆ List.range c.fresh := fun p hp => List.mem_range.2 (h.bounded p hp)
  simpa using (h.nodup.subperm hsub).length_le

/-! ### Finding an item -/

theorem Shape.record {c : Cache} {l : List Ptr} (h : Shape c l) (e : Event) :
    Shape (c.record e) l :=
  h.of_sameStore ⟨rfl, rfl, rfl, rfl⟩ (by
    rw [Listed, nx_record, pv_record]
    exact h.listed) (List.Perm.refl l)

theorem Rep.record {c : Cache} {l : List Ptr} (h : Rep c l) (e : Event) : Rep (c.record e) l :=
  h.of_shape (h.shape.record e) (List.Subset.refl l) fun _ _ => rfl

/-- A search from the middle of the list: past items with other keys. -/
theorem findLoop_eq {c : Cache} (key : List Char) {l₂ : List Ptr} :
    ∀ (l₁ : List Ptr) {fuel : ℕ}, Listed c (l₁ ++ l₂) → (∀ p ∈ l₂, (c.url p).isSome) →
      l₂.length ≤ fuel →
      findLoop c key fuel l₂.head? = some (l₂.find? fun p => c.url p = some key) := by
  induction l₂ with
  | nil =>
      intro l₁ fuel _ _ _
      cases fuel <;> rfl
  | cons p l₂ ih =>
      intro l₁ fuel hl hurl hfuel
      cases fuel with
      | zero => simp at hfuel
      | succ fuel =>
          obtain ⟨url, hp⟩ := Option.isSome_iff_exists.1 (hurl p (by simp))
          simp only [List.head?_cons, findLoop, hp, List.find?_cons]
          by_cases hkey : url = key
          · simp [hkey]
          · have hnext := hl.next_node
            rw [if_neg hkey, hnext, ih (l₁ ++ [p]) (by simpa using hl)
              (fun q hq => hurl q (by simp [hq])) (by simpa using hfuel)]
            simp [hkey]

/-- **Finding**: the first item with the key comes back and moves to the front; without one,
nothing changes. -/
theorem Rep.findCacheItem {c : Cache} {l : List Ptr} (h : Rep c l) (key : List Char) :
    (∃ l₁ p l₂ c', l = l₁ ++ p :: l₂ ∧ c.url p = some key ∧ (∀ q ∈ l₁, c.url q ≠ some key) ∧
        findCacheItem c key = some (c', some p) ∧ Rep c' (p :: (l₁ ++ l₂)) ∧ SameStore c c') ∨
      (∀ q ∈ l, c.url q ≠ some key) ∧ ∃ c', findCacheItem c key = some (c', none) ∧ Rep c' l ∧
        SameStore c c' := by
  have hrec := h.record .rdlock
  have hfuel : l.length ≤ (c.record .rdlock).fresh := by
    have := hrec.shape.length_le
    omega
  have hloop := findLoop_eq key [] hrec.listed (fun p hp => (hrec.stored p hp).1)
    hfuel
  have hsame : SameStore c (c.record .rdlock) := ⟨rfl, rfl, rfl, rfl⟩
  rw [← hrec.listed.next_head] at hloop
  cases hfind : l.find? fun p => c.url p = some key with
  | some p =>
      obtain ⟨hp, l₁, l₂, rfl, hl₁⟩ := List.find?_eq_some_iff_append.1 hfind
      obtain ⟨hmove, hs⟩ := hrec.shape.moveToFront
      have hrep := hrec.of_shape hmove List.perm_middle.symm.subset fun q _ => congrFun hs.entry q
      refine .inl ⟨l₁, p, l₂, _, rfl, by simpa using hp, ?_, ?_, hrep, ?_⟩
      · intro q hq
        simpa using hl₁ q hq
      · have hloop' := hloop.trans (congrArg some hfind)
        simp only [Proxy.findCacheItem, hloop']
      · exact ⟨hs.head, hs.fresh, hs.totalSize, hs.entry⟩
  | none =>
      refine .inr ⟨?_, (c.record .rdlock).record .unlock, ?_, hrec.record .unlock,
        ⟨rfl, rfl, rfl, rfl⟩⟩
      · intro q hq
        simpa using List.find?_eq_none.1 hfind q hq
      · have hloop' := hloop.trans (congrArg some hfind)
        simp only [Proxy.findCacheItem, hloop']

/-! ### Removing the oldest items -/

theorem entry_free_of_ne {c : Cache} {p q : Ptr} (hq : q ≠ p) : (c.free p).entry q = c.entry q := by
  simp [Cache.entry, Cache.url, Cache.content, Cache.size, Cache.free, Function.update_of_ne hq]

theorem url_free_self (c : Cache) (p : Ptr) : (c.free p).url p = none := by
  simp [Cache.url, Cache.free]

/-- What was freed was on no link. -/
theorem Listed.free {c : Cache} {l : List Ptr} {p : Ptr} (h : Listed c l) (hp : p ∉ c.head :: l) :
    Listed (c.free p) l := by
  refine Ring.congr h ?_ ?_
  all_goals
    intro x hx
    cases x with
    | none => rfl
    | some q =>
        have hq : q ≠ p := by
          rintro rfl
          have hhead : (c.free q).head = c.head := rfl
          refine hp ?_
          simpa [hhead] using hx
        simp [Cache.nx, Cache.pv, Cache.next, Cache.prev, Cache.free, Function.update_of_ne hq]

/-- **The oldest item goes**: the last of the list. -/
theorem Shape.removeOldest {c : Cache} {l : List Ptr} {p : Ptr} (h : Shape c (l ++ [p])) :
    ∃ c', removeOldestCacheItem c = some c' ∧ Shape c' l ∧ c'.head = c.head ∧ c'.fresh = c.fresh ∧
      (∀ q ∈ l, c'.entry q = c.entry q) ∧ (Owned c (l ++ [p]) → Owned c' l) := by
  have hnd := (perm_node c.head p l []).nodup_iff.1 h.nodup
  rw [List.append_nil] at hnd
  obtain ⟨hp_notMem, hrest⟩ := List.nodup_cons.1 hnd
  have htail := h.listed.tail_concat
  have hnext : c.next p = none := h.listed.next_node
  obtain ⟨r, hr, hprev⟩ := h.listed.prev_node
  have hph : p ≠ c.head := fun he => hp_notMem (he ▸ List.mem_cons_self ..)
  have hne : c.tail ≠ some c.head := by rw [htail]; simpa using hph
  -- the links, as those of a ring with a node taken out
  have hring : Ring c.nx c.pv (some c.head) (l.map some ++ some p :: [none]) := by
    simpa [Listed] using h.listed
  have hdel := hring.unlink_update (nodup_ring hrest)
  have hpv_p : c.pv (some p) = some r := hprev
  have hnx_p : c.nx (some p) = none := hnext
  rw [hpv_p, hnx_p] at hdel
  have hlinks : Listed ((c.setTail (some r)).setNext r none) l := by
    rw [Listed, nx_setNext, nx_setTail, pv_setNext, pv_setTail]
    exact hdel
  have hentry : ((c.setTail (some r)).setNext r none).entry = c.entry := by simp
  have hrun : removeOldestCacheItem c =
      some ((((c.setTail (some r)).setNext r none).setTotalSize
        (subSize c.totalSize (((c.setTail (some r)).setNext r none).size p))).free p) := by
    rw [removeOldestCacheItem, if_neg hne]
    simp only [htail, hprev]
    rfl
  -- the sizes
  have htotal := h.total
  simp only [List.map_append, List.map_singleton, List.sum_append, List.sum_singleton] at htotal
  have hle := h.total_le
  have hmax : maxCacheSize = 1048576 := rfl
  have hsub : subSize c.totalSize (((c.setTail (some r)).setNext r none).size p) =
      (l.map c.size).sum := by
    rw [size_of_entry (congrFun hentry p), subSize]
    omega
  rw [hsub] at hrun
  -- the entries of the items that stay
  have hother : ∀ q, q ≠ p → ((((c.setTail (some r)).setNext r none).setTotalSize
      (l.map c.size).sum).free p).entry q = c.entry q := by
    intro q hqp
    rw [entry_free_of_ne hqp]
    exact congrFun hentry q
  have hkeep : ∀ q ∈ l, ((((c.setTail (some r)).setNext r none).setTotalSize
      (l.map c.size).sum).free p).entry q = c.entry q := by
    refine fun q hq => hother q ?_
    rintro rfl
    exact hp_notMem (List.mem_cons_of_mem _ hq)
  refine ⟨_, hrun, ⟨?_, hrest, ?_, ?_, ?_, ?_⟩, rfl, rfl, hkeep, ?_⟩
  · refine Listed.free ?_ hp_notMem
    rw [Listed, nx_setTotalSize, pv_setTotalSize]
    exact hlinks
  · intro q hq
    refine h.bounded q ?_
    rw [← List.cons_append]
    exact List.mem_append_left _ hq
  · intro q hq
    rw [size_of_entry (hkeep q hq)]
    exact h.sized q (List.mem_append_left _ hq)
  · exact congrArg List.sum (List.map_congr_left fun q hq => (size_of_entry (hkeep q hq)).symm)
  · show (l.map c.size).sum ≤ maxCacheSize
    omega
  · intro hown q hq
    rcases eq_or_ne q p with rfl | hqp
    · exact url_free_self _ _
    · rw [url_of_entry (hother q hqp)]
      exact hown q (by simpa [hqp] using hq)

/-- The oldest item goes, and the others keep their keys. -/
theorem Rep.removeOldest {c : Cache} {l : List Ptr} {p : Ptr} (h : Rep c (l ++ [p])) :
    ∃ c', removeOldestCacheItem c = some c' ∧ Rep c' l ∧ c'.head = c.head ∧ c'.fresh = c.fresh ∧
      (∀ q ∈ l, c'.entry q = c.entry q) ∧ (Owned c (l ++ [p]) → Owned c' l) := by
  obtain ⟨c', hrun, hshape, hhead, hfresh, hkeep, hown⟩ := h.shape.removeOldest
  exact ⟨c', hrun, h.of_shape hshape (List.subset_append_left l [p]) hkeep, hhead, hfresh, hkeep,
    hown⟩

/-- **Making room**: the oldest items go until the rest and the new one fit, and no more. -/
theorem Shape.evictLoop {size : ℕ} (hsize : size ≤ maxObjectSize) {l : List Ptr} :
    ∀ {c : Cache} {fuel : ℕ}, Shape c l → l.length ≤ fuel →
      ∃ c' l', evictLoop size fuel c = some c' ∧ l' <+: l ∧ Shape c' l' ∧ c'.head = c.head ∧
        c'.fresh = c.fresh ∧ c'.totalSize + size ≤ maxCacheSize ∧
        (∀ q ∈ l', c'.entry q = c.entry q) ∧
        (∀ l'', l'' <+: l → (l''.map c.size).sum + size ≤ maxCacheSize → l'' <+: l') ∧
        (Owned c l → Owned c' l') := by
  induction l using List.reverseRecOn with
  | nil =>
      intro c fuel h _
      -- an object that may be cached fits into the empty cache
      have hzero : c.totalSize = 0 := by simpa using h.total
      have hmax : maxCacheSize = 1048576 := rfl
      have hobj : maxObjectSize = 102400 := rfl
      have hfit : ¬ maxCacheSize < addSize c.totalSize size := by
        rw [addSize, hzero]
        omega
      refine ⟨c, [], ?_, List.prefix_refl _, h, rfl, rfl, by omega, fun _ _ => rfl,
        fun l'' hl _ => hl, fun hown => hown⟩
      cases fuel <;> rw [Proxy.evictLoop, if_neg hfit]
  | append_singleton l p ih =>
      intro c fuel h hfuel
      have hle := h.total_le
      have hmax : maxCacheSize = 1048576 := rfl
      have hobj : maxObjectSize = 102400 := rfl
      have hadd : addSize c.totalSize size = c.totalSize + size := by
        rw [addSize]
        omega
      by_cases hfit : maxCacheSize < addSize c.totalSize size
      -- the oldest item goes, and the loop runs on with a shorter list
      · obtain ⟨c₁, hrun, h₁, hhead, hfresh, hkeep, hown₁⟩ := h.removeOldest
        cases fuel with
        | zero => simp at hfuel
        | succ fuel =>
            obtain ⟨c', l', hloop, hpre, h', hhead', hfresh', hroom, hkeep', hlong, hown'⟩ :=
              ih h₁ (Nat.le_of_succ_le_succ (by simpa using hfuel))
            refine ⟨c', l', ?_, hpre.trans (List.prefix_append l [p]), h', hhead'.trans hhead,
              hfresh'.trans hfresh, hroom, ?_, ?_, fun hown => hown' (hown₁ hown)⟩
            · rw [Proxy.evictLoop, if_pos hfit]
              simp only [hrun]
              exact hloop
            · intro q hq
              exact (hkeep' q hq).trans (hkeep q (hpre.subset hq))
            · intro l'' hl'' hroom''
              rcases List.prefix_concat_iff.1 hl'' with rfl | hl''
              · -- the whole list does not fit
                rw [← h.total] at hroom''
                omega
              · refine hlong l'' hl'' ?_
                rwa [List.map_congr_left fun q hq => size_of_entry (hkeep q (hl''.subset hq))]
      · refine ⟨c, l ++ [p], ?_, List.prefix_refl _, h, rfl, rfl, by omega, fun _ _ => rfl,
          fun l'' hl _ => hl, fun hown => hown⟩
        cases fuel <;> rw [Proxy.evictLoop, if_neg hfit]

/-! ### Adding an item -/

theorem entry_newItem (c : Cache) (url : Option (List Char)) (content : Option (List UInt8))
    (size : ℕ) (q : Ptr) : (c.newItem url content size).entry q =
      if q = c.fresh then { url := url, content := content, size := size } else c.entry q := by
  split
  · rename_i hq
    simp [Cache.entry, Cache.url, Cache.content, Cache.size, Cache.newItem, hq]
  · rename_i hq
    simp [Cache.entry, Cache.url, Cache.content, Cache.size, Cache.newItem,
      Function.update_of_ne hq]

/-- A node at a new address is on no link. -/
theorem Listed.newItem {c : Cache} {l : List Ptr} (h : Listed c l)
    (hb : ∀ p ∈ c.head :: l, p < c.fresh) (url : Option (List Char))
    (content : Option (List UInt8)) (size : ℕ) : Listed (c.newItem url content size) l := by
  refine Ring.congr h ?_ ?_
  all_goals
    intro x hx
    cases x with
    | none => rfl
    | some q =>
        have hhead : (c.newItem url content size).head = c.head := rfl
        have hq : q ≠ c.fresh := Nat.ne_of_lt (hb q (by simpa [hhead] using hx))
        simp [Cache.nx, Cache.pv, Cache.next, Cache.prev, Cache.newItem, Function.update_of_ne hq]

theorem totalSize_linkNew (c : Cache) (x : Ptr) : (linkNew c x).totalSize = c.totalSize := by
  simp only [linkNew]
  split <;> rfl

/-- The list after the second half of `addCacheItem`. -/
theorem Shape.insertNew {c : Cache} {l : List Ptr} (h : Shape c l) (url : Option (List Char))
    (content : Option (List UInt8)) {size : ℕ} (hsize : size ≤ maxObjectSize)
    (hroom : c.totalSize + size ≤ maxCacheSize) :
    ∃ c', (linkNew (c.newItem url content size) c.fresh).setTotalSize
        (addSize c.totalSize size) = c' ∧ Shape c' (c.fresh :: l) ∧ c'.head = c.head ∧
      c'.fresh = c.fresh + 1 ∧
      c'.entry c.fresh = { url := url, content := content, size := size } ∧
      (∀ q ∈ l, c'.entry q = c.entry q) ∧ (Owned c l → Owned c' (c.fresh :: l)) := by
  -- the new node stands at an address that was never handed out
  have hnotMem : c.fresh ∉ c.head :: l := fun hmem => Nat.lt_irrefl _ (h.bounded _ hmem)
  have hne : c.fresh ≠ c.head := fun he => hnotMem (he ▸ List.mem_cons_self ..)
  have hnew := h.listed.newItem h.bounded url content size
  obtain ⟨hnx, hpv, hs⟩ := linkNew_links (c := c.newItem url content size) hne
  have hlinked := hnew.insert h.nodup hnotMem hs.head hnx hpv
  have hentry : ∀ q, ((linkNew (c.newItem url content size) c.fresh).setTotalSize
      (addSize c.totalSize size)).entry q =
      if q = c.fresh then { url := url, content := content, size := size }
      else c.entry q := by
    intro q
    rw [entry_setTotalSize, hs.entry, entry_newItem]
  have hadd : addSize c.totalSize size = c.totalSize + size := by
    have hmax : maxCacheSize = 1048576 := rfl
    rw [addSize]
    omega
  have hhead : ((linkNew (c.newItem url content size) c.fresh).setTotalSize
      (addSize c.totalSize size)).head = c.head := hs.head
  have hfresh : ((linkNew (c.newItem url content size) c.fresh).setTotalSize
      (addSize c.totalSize size)).fresh = c.fresh + 1 := hs.fresh
  have htotal : ((linkNew (c.newItem url content size) c.fresh).setTotalSize
      (addSize c.totalSize size)).totalSize = c.totalSize + size := hadd
  have hlisted : Listed ((linkNew (c.newItem url content size) c.fresh).setTotalSize
      (addSize c.totalSize size)) (c.fresh :: l) := by
    rw [Listed, nx_setTotalSize, pv_setTotalSize]
    exact hlinked
  -- from here on the new cache is known by its entries and its links only
  generalize (linkNew (c.newItem url content size) c.fresh).setTotalSize
    (addSize c.totalSize size) = c' at *
  have hself : c'.entry c.fresh = { url := url, content := content, size := size } := by
    rw [hentry, if_pos rfl]
  have hold : ∀ q ∈ l, c'.entry q = c.entry q := by
    intro q hq
    rw [hentry, if_neg]
    rintro rfl
    exact hnotMem (List.mem_cons_of_mem _ hq)
  refine ⟨c', rfl, ⟨hlisted, ?_, ?_, ?_, ?_, ?_⟩, hhead, hfresh, hself, hold, ?_⟩
  · rw [hhead]
    exact (List.Perm.swap c.head c.fresh l).nodup_iff.1 (List.nodup_cons.2 ⟨hnotMem, h.nodup⟩)
  · intro q hq
    rw [hhead, List.mem_cons, List.mem_cons] at hq
    rw [hfresh]
    rcases hq with rfl | rfl | hq
    · exact Nat.lt_succ_of_lt (h.bounded _ (List.mem_cons_self ..))
    · exact Nat.lt_succ_self _
    · exact Nat.lt_succ_of_lt (h.bounded q (List.mem_cons_of_mem _ hq))
  · intro q hq
    rcases List.mem_cons.1 hq with rfl | hq
    · have hsz : c'.size c.fresh = size := congrArg Entry.size hself
      rw [hsz]
      exact hsize
    · rw [size_of_entry (hold q hq)]
      exact h.sized q hq
  · have hsz : c'.size c.fresh = size := congrArg Entry.size hself
    rw [htotal, List.map_cons, List.sum_cons, hsz,
      List.map_congr_left fun q hq => size_of_entry (hold q hq), ← h.total, Nat.add_comm]
  · rw [htotal]
    exact hroom
  · intro hown q hq
    obtain ⟨hne, hq⟩ := List.ne_and_not_mem_of_not_mem_cons hq
    rw [url_of_entry ((hentry q).trans (if_neg hne))]
    exact hown q hq

/-- **Adding**: when the item gets its memory and the content has a terminator, the new item is put
in front of the longest part of the list it fits with. -/
theorem Shape.addCacheItem {c : Cache} {l : List Ptr} (h : Shape c l) {alloc : Alloc}
    (hitem : alloc.item = true) (url : List Char) {content copy : List UInt8} {size : ℕ}
    (hsize : size ≤ maxObjectSize) (hcopy : strdup content = some copy) :
    ∃ c' l', addCacheItem alloc c url content size = some c' ∧ l' <+: l ∧
      Shape c' (c.fresh :: l') ∧ c'.head = c.head ∧ c'.fresh = c.fresh + 1 ∧
      c'.entry c.fresh = { url := if alloc.url then some url else none
                           content := if alloc.content then some copy else none
                           size := size } ∧
      (∀ q ∈ l', c'.entry q = c.entry q) ∧
      (∀ l'', l'' <+: l → (l''.map c.size).sum + size ≤ maxCacheSize → l'' <+: l') ∧
      (l'.map c.size).sum + size ≤ maxCacheSize ∧ (Owned c l → Owned c' (c.fresh :: l')) := by
  have hrec := h.record .wrlock
  have hfuel : l.length ≤ (c.record .wrlock).fresh := by
    have := hrec.length_le
    omega
  obtain ⟨c₁, l', hloop, hpre, h₁, hhead, hfresh, hroom, hkeep, hlong, hown₁⟩ :=
    hrec.evictLoop hsize hfuel
  have hfresh' : c₁.fresh = c.fresh := hfresh
  obtain ⟨c₂, hlink, h₂, hhead₂, hfresh₂, hself, hold, hown₂⟩ :=
    h₁.insertNew (if alloc.url then some url else none) (if alloc.content then some copy else none)
      hsize hroom
  rw [hfresh'] at h₂ hfresh₂ hself hown₂
  have hfit : (l'.map c.size).sum + size ≤ maxCacheSize := by
    have hsizes : l'.map c.size = l'.map c₁.size :=
      List.map_congr_left fun q hq => (size_of_entry (hkeep q hq)).symm
    rwa [hsizes, ← h₁.total]
  refine ⟨c₂.record .unlock, l', ?_, hpre, h₂.record .unlock, hhead₂.trans hhead, hfresh₂, hself,
    fun q hq => (hold q hq).trans (hkeep q hq), hlong, hfit, fun hown => hown₂ (hown₁ hown)⟩
  rw [Proxy.addCacheItem]
  simp only [if_neg (Nat.not_lt.2 hsize), hloop, hcopy, totalSize_linkNew, hitem]
  rw [← hlink]
  rfl

/-- **Adding**, when every allocation succeeds. -/
theorem Rep.addCacheItem {c : Cache} {l : List Ptr} (h : Rep c l) (url : List Char)
    {content copy : List UInt8} {size : ℕ} (hsize : size ≤ maxObjectSize)
    (hcopy : strdup content = some copy) :
    ∃ c' l', addCacheItem Alloc.all c url content size = some c' ∧ l' <+: l ∧
      Rep c' (c.fresh :: l') ∧ c'.head = c.head ∧ c'.fresh = c.fresh + 1 ∧
      c'.entry c.fresh = { url := some url, content := some copy, size := size } ∧
      (∀ q ∈ l', c'.entry q = c.entry q) ∧
      (∀ l'', l'' <+: l → (l''.map c.size).sum + size ≤ maxCacheSize → l'' <+: l') ∧
      (l'.map c.size).sum + size ≤ maxCacheSize ∧ (Owned c l → Owned c' (c.fresh :: l')) := by
  obtain ⟨c', l', hrun, hpre, hshape, hhead, hfresh, hself, hold, hrest⟩ :=
    h.shape.addCacheItem (show Alloc.all.item = true from rfl) url hsize hcopy
  refine ⟨c', l', hrun, hpre, hshape.rep fun q hq => ?_, hhead, hfresh, hself, hold, hrest⟩
  rcases List.mem_cons.1 hq with rfl | hq
  · rw [show c'.url c.fresh = some url from congrArg Entry.url hself]
    rfl
  · rw [url_of_entry (hold q hq)]
    exact (h.stored q (hpre.subset hq)).1

/-- Adding, when the item does not get its memory: only room was made. -/
theorem Shape.addCacheItem_noItem {c : Cache} {l : List Ptr} (h : Shape c l) {alloc : Alloc}
    (hitem : alloc.item = false) (url : List Char) (content : List UInt8) {size : ℕ}
    (hsize : size ≤ maxObjectSize) :
    ∃ c' l', Proxy.addCacheItem alloc c url content size = some c' ∧ l' <+: l ∧ Shape c' l' ∧
      ∀ q ∈ l', c'.entry q = c.entry q := by
  have hrec := h.record .wrlock
  have hfuel : l.length ≤ (c.record .wrlock).fresh := by
    have := hrec.length_le
    omega
  obtain ⟨c₁, l', hloop, hpre, h₁, -, -, -, hkeep, -⟩ := hrec.evictLoop hsize hfuel
  refine ⟨c₁, l', ?_, hpre, h₁, hkeep⟩
  rw [Proxy.addCacheItem]
  simp only [if_neg (Nat.not_lt.2 hsize), hloop, hitem]
  rfl

/-- Without a terminator nothing is added: the call does not return. -/
theorem addCacheItem_strdup {c c' : Cache} {alloc : Alloc} (hitem : alloc.item = true)
    {url : List Char} {content : List UInt8} {size : ℕ} (hsize : size ≤ maxObjectSize)
    (hrun : addCacheItem alloc c url content size = some c') :
    ∃ copy, strdup content = some copy := by
  rw [Proxy.addCacheItem] at hrun
  simp only [if_neg (Nat.not_lt.2 hsize)] at hrun
  split at hrun
  · cases hrun
  · simp only [hitem, Bool.not_true, Bool.false_eq_true, if_false] at hrun
    split at hrun
    · cases hrun
    · rename_i copy hcopy
      exact ⟨copy, hcopy⟩

/-- A response over the limit is not stored. -/
theorem addCacheItem_large {c : Cache} {alloc : Alloc} {url : List Char} {content : List UInt8}
    {size : ℕ} (hsize : maxObjectSize < size) :
    addCacheItem alloc c url content size = some (c.record .wrlock) := by
  rw [Proxy.addCacheItem, if_pos hsize]

end Proxy
