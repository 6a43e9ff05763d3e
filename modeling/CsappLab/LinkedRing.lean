/-
**Doubly linked lists through a dummy node.**

A circular doubly linked list is a pair of link functions `nx`, `pv` on an arbitrary type of nodes
together with a distinguished node `d`.  What makes the pair a *list* is that following `nx` from
`d` runs through some list `l` of nodes and comes back to `d`, and that `pv` undoes `nx` on the
way.  This module names that relation and proves the two edits every such structure is built from:
taking a node out, and putting a node in right after the dummy.

The link functions of the edited structure are only constrained *on the nodes of the ring*.  An
implementation that stores its links in a shared memory may therefore change anything else.

Main definitions:

* `Linked.Link`, `Linked.Chain` — two nodes, and a list of nodes, linked both ways;
* `Linked.Ring` — the circular list `l` through the dummy `d`;
* `Linked.Visits` — a walk along one of the links that comes back to the dummy.

Main results:

* `Linked.Ring.unlink` — **taking a node out**;
* `Linked.Ring.insertFront` — **putting a node in after the dummy**;
* `Linked.Ring.unlink_update`, `Linked.Ring.insertFront_update` — the same edits as assignments to
  the two link functions;
* `Linked.Ring.next_node`, `Linked.Ring.prev_node` — what the traversal of a ring reads;
* `Linked.Ring.inverse` — the two links undo each other;
* `Linked.Visits.nodup` — a walk that comes back meets no node twice.
-/

import Mathlib.Data.List.Chain
import Mathlib.Data.List.Nodup
import Mathlib.Logic.Function.Basic
import Mathlib.Tactic.Common

set_option relaxedAutoImplicit false
set_option autoImplicit false

namespace Linked

variable {α : Type*}

/-! ### Links and chains -/

/-- The node `y` follows the node `x`, in both directions. -/
def Link (nx pv : α → α) (x y : α) : Prop := nx x = y ∧ pv y = x

/-- Consecutive nodes of the list are linked both ways. -/
def Chain (nx pv : α → α) (l : List α) : Prop := l.IsChain (Link nx pv)

/-- **The circular list `l` through the dummy `d`.** -/
def Ring (nx pv : α → α) (d : α) (l : List α) : Prop := Chain nx pv (d :: (l ++ [d]))

/-- The node before the position of a list that starts at `d`. -/
def lastOf (d : α) (l : List α) : α := (d :: l).getLast (List.cons_ne_nil d l)

/-- The node after the position of a list that ends at `d`. -/
def headOf (d : α) (l : List α) : α := l.headD d

@[simp] theorem lastOf_nil (d : α) : lastOf d [] = d := rfl

@[simp] theorem lastOf_concat (d x : α) (l : List α) : lastOf d (l ++ [x]) = x := by
  simp [lastOf]

@[simp] theorem headOf_nil (d : α) : headOf d [] = d := rfl

@[simp] theorem headOf_cons (d x : α) (l : List α) : headOf d (x :: l) = x := rfl

theorem lastOf_map {β : Type*} (f : α → β) (d : α) (l : List α) :
    lastOf (f d) (l.map f) = f (lastOf d l) :=
  List.getLast_map (l := d :: l) (List.cons_ne_nil _ _)

theorem lastOf_mem (d : α) (l : List α) : lastOf d l ∈ d :: l := List.getLast_mem _

theorem headOf_mem (d : α) (l : List α) : headOf d l ∈ d :: l := by
  cases l <;> simp

/-- The nodes of a ring, with one of them first. -/
theorem perm_node (d x : α) (l₁ l₂ : List α) :
    (d :: (l₁ ++ x :: l₂)).Perm (x :: d :: (l₁ ++ l₂)) := by
  rw [← List.cons_append, ← List.cons_append]
  exact List.perm_middle

/-- Splitting the list before the position off its last node. -/
theorem exists_concat_lastOf (d : α) (l : List α) : ∃ p, d :: l = p ++ [lastOf d l] :=
  ⟨(d :: l).dropLast, (List.dropLast_append_getLast _).symm⟩

/-- Splitting the list after the position into its head and the rest. -/
theorem exists_cons_headOf (d : α) (l : List α) : ∃ q, l ++ [d] = headOf d l :: q := by
  cases l with
  | nil => exact ⟨[], rfl⟩
  | cons x l => exact ⟨l ++ [d], rfl⟩

/-- A chain whose nodes keep their links is a chain of the new links.  The last node may lose its
successor and the first its predecessor. -/
theorem Chain.congr {nx pv nx' pv' : α → α} {l : List α} (h : Chain nx pv l)
    (hnx : ∀ x ∈ l.dropLast, nx' x = nx x) (hpv : ∀ x ∈ l.tail, pv' x = pv x) :
    Chain nx' pv' l := by
  refine List.isChain_iff_forall_rel_of_append_cons_cons.2 ?_
  intro a b l₁ l₂ hl
  obtain ⟨hn, hp⟩ := List.isChain_iff_forall_rel_of_append_cons_cons.1 h hl
  have ha : a ∈ l.dropLast := by
    rw [hl, List.dropLast_append_of_ne_nil (by simp)]
    simp
  have hb : b ∈ l.tail := by
    rw [hl]
    cases l₁ <;> simp
  exact ⟨by rw [hnx a ha, hn], by rw [hpv b hb, hp]⟩

/-- A chain cut between two nodes. -/
theorem chain_append_cons_cons {nx pv : α → α} {x y : α} {l₁ l₂ : List α} :
    Chain nx pv (l₁ ++ x :: y :: l₂) ↔
      Chain nx pv (l₁ ++ [x]) ∧ Link nx pv x y ∧ Chain nx pv (y :: l₂) :=
  List.isChain_append_cons_cons

/-! ### Rings -/

/-- The empty ring: the dummy points at itself. -/
theorem ring_nil {nx pv : α → α} {d : α} : Ring nx pv d [] ↔ nx d = d ∧ pv d = d := by
  simp [Ring, Chain, Link]

/-- A ring cut at one position: the chain up to it, the link across it, the chain from it. -/
theorem ring_append {nx pv : α → α} {d : α} {l₁ l₂ : List α} :
    Ring nx pv d (l₁ ++ l₂) ↔
      Chain nx pv (d :: l₁) ∧ Link nx pv (lastOf d l₁) (headOf d l₂) ∧ Chain nx pv (l₂ ++ [d]) := by
  obtain ⟨p, hp⟩ := exists_concat_lastOf d l₁
  obtain ⟨q, hq⟩ := exists_cons_headOf d l₂
  have hl : d :: (l₁ ++ l₂ ++ [d]) = p ++ lastOf d l₁ :: headOf d l₂ :: q := by
    rw [List.append_assoc, ← List.cons_append, hp, hq]
    simp
  rw [Ring, hl, chain_append_cons_cons, ← hp, ← hq]

/-- A ring cut after the dummy. -/
theorem ring_cut {nx pv : α → α} {d : α} {l : List α} :
    Ring nx pv d l ↔ Link nx pv d (headOf d l) ∧ Chain nx pv (l ++ [d]) := by
  obtain ⟨q, hq⟩ := exists_cons_headOf d l
  rw [Ring, hq, Chain, List.isChain_cons_cons, Chain]

/-- A ring cut around one of its nodes. -/
theorem ring_append_cons {nx pv : α → α} {d x : α} {l₁ l₂ : List α} :
    Ring nx pv d (l₁ ++ x :: l₂) ↔
      Chain nx pv (d :: l₁) ∧ Link nx pv (lastOf d l₁) x ∧ Link nx pv x (headOf d l₂) ∧
        Chain nx pv (l₂ ++ [d]) := by
  obtain ⟨q, hq⟩ := exists_cons_headOf d l₂
  have hc : Chain nx pv (x :: headOf d l₂ :: q) ↔
      Link nx pv x (headOf d l₂) ∧ Chain nx pv (headOf d l₂ :: q) := List.isChain_cons_cons
  rw [ring_append, headOf_cons, List.cons_append, hq, hc]

/-- The predecessor of a node of the ring. -/
theorem Ring.prev_node {nx pv : α → α} {d x : α} {l₁ l₂ : List α}
    (h : Ring nx pv d (l₁ ++ x :: l₂)) : pv x = lastOf d l₁ :=
  (ring_append_cons.1 h).2.1.2

/-- The successor of a node of the ring. -/
theorem Ring.next_node {nx pv : α → α} {d x : α} {l₁ l₂ : List α}
    (h : Ring nx pv d (l₁ ++ x :: l₂)) : nx x = headOf d l₂ :=
  (ring_append_cons.1 h).2.2.1.1

/-- The successor of the dummy is the first node of the ring, or the dummy itself. -/
theorem Ring.next_dummy {nx pv : α → α} {d : α} {l : List α} (h : Ring nx pv d l) :
    nx d = headOf d l :=
  (ring_cut.1 h).1.1

/-- The predecessor of the dummy is the last node of the ring, or the dummy itself. -/
theorem Ring.prev_dummy {nx pv : α → α} {d : α} {l : List α} (h : Ring nx pv d l) :
    pv d = lastOf d l := by
  have h' : Ring nx pv d (l ++ []) := by rwa [List.append_nil]
  exact (ring_append.1 h').2.1.2

/-- The predecessor of the first node is the dummy. -/
theorem Ring.prev_head {nx pv : α → α} {d : α} {l : List α} (h : Ring nx pv d l) :
    pv (headOf d l) = d :=
  (ring_cut.1 h).1.2

/-- **The two links undo each other**, at every node of a ring. -/
theorem Ring.inverse {nx pv : α → α} {d x : α} {l : List α} (h : Ring nx pv d l) (hx : x ∈ d :: l) :
    pv (nx x) = x ∧ nx (pv x) = x := by
  rcases List.mem_cons.1 hx with rfl | hx
  · constructor
    · rw [h.next_dummy, h.prev_head]
    · have h' : Ring nx pv x (l ++ []) := by rwa [List.append_nil]
      rw [h.prev_dummy]
      exact (ring_append.1 h').2.1.1
  · obtain ⟨l₁, l₂, rfl⟩ := List.append_of_mem hx
    obtain ⟨-, hprev, hnext, -⟩ := ring_append_cons.1 h
    constructor
    · rw [hnext.1, hnext.2]
    · rw [hprev.2, hprev.1]

/-- A node of a ring with distinct nodes is not its own predecessor. -/
theorem Ring.ne_prev {nx pv : α → α} {d x : α} {l₁ l₂ : List α}
    (h : Ring nx pv d (l₁ ++ x :: l₂)) (hnd : (d :: (l₁ ++ x :: l₂)).Nodup) : x ≠ pv x := by
  have hnd' : (x :: d :: (l₁ ++ l₂)).Nodup := (perm_node d x l₁ l₂).nodup_iff.1 hnd
  intro he
  refine (List.nodup_cons.1 hnd').1 ?_
  rw [he, h.prev_node, ← List.cons_append]
  exact List.mem_append_left _ (lastOf_mem d l₁)

/-- A ring whose nodes keep their links. -/
theorem Ring.congr {nx pv nx' pv' : α → α} {d : α} {l : List α} (h : Ring nx pv d l)
    (hnx : ∀ x ∈ d :: l, nx' x = nx x) (hpv : ∀ x ∈ d :: l, pv' x = pv x) : Ring nx' pv' d l := by
  refine Chain.congr h ?_ ?_
  · intro x hx
    rw [← List.cons_append, List.dropLast_concat] at hx
    exact hnx x hx
  · intro x hx
    refine hpv x ?_
    simp only [List.tail_cons, List.mem_append, List.mem_singleton] at hx
    simpa [or_comm] using hx

/-! ### The two edits -/

section Edits

variable {nx pv nx' pv' : α → α} {d x : α} {l l₁ l₂ : List α}

/-- **Taking a node out.**  The node before `x` gets the successor of `x`, the node after it gets
the predecessor of `x`, and no other node of the ring changes its links. -/
theorem Ring.unlink (h : Ring nx pv d (l₁ ++ x :: l₂)) (hnd : (d :: (l₁ ++ l₂)).Nodup)
    (hnx : nx' (pv x) = nx x) (hpv : pv' (nx x) = pv x)
    (hnx_ne : ∀ y ∈ d :: (l₁ ++ l₂), y ≠ pv x → nx' y = nx y)
    (hpv_ne : ∀ y ∈ d :: (l₁ ++ l₂), y ≠ nx x → pv' y = pv y) : Ring nx' pv' d (l₁ ++ l₂) := by
  have hprev := h.prev_node
  have hnext := h.next_node
  obtain ⟨hc₁, -, -, hc₂⟩ := ring_append_cons.1 h
  rw [hprev] at hnx hpv hnx_ne
  rw [hnext] at hpv hnx hpv_ne
  obtain ⟨p, hp⟩ := exists_concat_lastOf d l₁
  obtain ⟨q, hq⟩ := exists_cons_headOf d l₂
  have hnd₁ : (d :: l₁).Nodup := hnd.sublist (by simp)
  have hnd₂ : (l₂ ++ [d]).Nodup := by
    have hsub : (d :: l₂).Nodup := hnd.sublist (by simp)
    exact (List.perm_append_singleton d l₂).nodup_iff.2 hsub
  have hdisj : ∀ y ∈ l₁, y ∉ l₂ ++ [d] := by
    intro y hy hy'
    rcases List.mem_append.1 hy' with hy' | hy'
    · exact (List.nodup_append.1 (List.nodup_cons.1 hnd).2).2.2 y hy y hy' rfl
    · obtain rfl := List.mem_singleton.1 hy'
      exact (List.nodup_cons.1 hnd).1 (List.mem_append_left _ hy)
  refine ring_append.2 ⟨hc₁.congr ?_ ?_, ⟨hnx, hpv⟩, hc₂.congr ?_ ?_⟩
  · -- before the cut only the last node changes its successor
    intro y hy
    have hmem : y ∈ d :: l₁ := List.dropLast_subset _ hy
    refine hnx_ne y (by simp only [List.mem_cons, List.mem_append] at hmem ⊢; tauto) ?_
    rintro rfl
    rw [hp, List.dropLast_concat] at hy
    rw [hp] at hnd₁
    exact (List.nodup_append.1 hnd₁).2.2 _ hy _ (List.mem_singleton_self _) rfl
  · intro y hy
    have hmem : y ∈ l₁ := hy
    refine hpv_ne y (by simp [hmem]) ?_
    rintro rfl
    exact hdisj _ hmem (hq ▸ List.mem_cons_self ..)
  · intro y hy
    have hmem : y ∈ l₂ := by simpa using hy
    refine hnx_ne y (by simp [hmem]) ?_
    rintro rfl
    rcases List.mem_cons.1 (lastOf_mem d l₁) with hd | hl
    · rw [hd] at hmem
      exact (List.nodup_cons.1 hnd).1 (List.mem_append_right _ hmem)
    · exact hdisj _ hl (List.mem_append_left _ hmem)
  · -- after the cut only the first node changes its predecessor
    intro y hy
    have hmem : y ∈ l₂ ++ [d] := List.mem_of_mem_tail hy
    refine hpv_ne y (by simp only [List.mem_append, List.mem_cons] at hmem ⊢; tauto) ?_
    rintro rfl
    rw [hq] at hy hnd₂
    exact (List.nodup_cons.1 hnd₂).1 hy

/-- **Putting a node in after the dummy.** -/
theorem Ring.insertFront (h : Ring nx pv d l) (hnd : (d :: l).Nodup)
    (hnx_d : nx' d = x) (hnx_x : nx' x = nx d) (hpv_x : pv' x = d) (hpv_h : pv' (nx d) = x)
    (hnx_ne : ∀ y ∈ l, nx' y = nx y) (hpv_ne : ∀ y ∈ d :: l, y ≠ nx d → pv' y = pv y) :
    Ring nx' pv' d (x :: l) := by
  have hnext := h.next_dummy
  rw [hnext] at hnx_x hpv_h hpv_ne
  obtain ⟨-, hc⟩ := ring_cut.1 h
  obtain ⟨q, hq⟩ := exists_cons_headOf d l
  have hnd' : (l ++ [d]).Nodup := (List.perm_append_singleton d l).nodup_iff.2 hnd
  refine ring_cut.2 ⟨⟨hnx_d, hpv_x⟩, ?_⟩
  rw [List.cons_append, hq]
  refine List.isChain_cons_cons.2 ⟨⟨hnx_x, hpv_h⟩, ?_⟩
  rw [← hq]
  refine hc.congr ?_ ?_
  · intro y hy
    exact hnx_ne y (by simpa using hy)
  · intro y hy
    have hmem : y ∈ l ++ [d] := List.mem_of_mem_tail hy
    refine hpv_ne y (by simp only [List.mem_append, List.mem_cons] at hmem ⊢; tauto) ?_
    rintro rfl
    rw [hq] at hy hnd'
    exact (List.nodup_cons.1 hnd').1 hy

/-- Taking a node out by two assignments. -/
theorem Ring.unlink_update [DecidableEq α] (h : Ring nx pv d (l₁ ++ x :: l₂))
    (hnd : (d :: (l₁ ++ l₂)).Nodup) :
    Ring (Function.update nx (pv x) (nx x)) (Function.update pv (nx x) (pv x)) d (l₁ ++ l₂) :=
  h.unlink hnd (Function.update_self ..) (Function.update_self ..)
    (fun _ _ hy => Function.update_of_ne hy _ _) (fun _ _ hy => Function.update_of_ne hy _ _)

/-- Putting a node in by four assignments. -/
theorem Ring.insertFront_update [DecidableEq α] (h : Ring nx pv d l) (hnd : (d :: l).Nodup)
    (hx : x ∉ d :: l) :
    Ring (Function.update (Function.update nx x (nx d)) d x)
      (Function.update (Function.update pv x d) (nx d) x) d (x :: l) := by
  have hxd : x ≠ d := fun he => hx (he ▸ List.mem_cons_self ..)
  have hxn : x ≠ nx d := fun he => hx (he ▸ h.next_dummy ▸ headOf_mem d l)
  refine h.insertFront hnd (Function.update_self ..) ?_ ?_ (Function.update_self ..) ?_ ?_
  · rw [Function.update_of_ne hxd, Function.update_self]
  · rw [Function.update_of_ne hxn, Function.update_self]
  · intro y hy
    have hyd : y ≠ d := fun he => (List.nodup_cons.1 hnd).1 (he ▸ hy)
    have hyx : y ≠ x := fun he => hx (he ▸ List.mem_cons_of_mem _ hy)
    rw [Function.update_of_ne hyd, Function.update_of_ne hyx]
  · intro y hy hyn
    have hyx : y ≠ x := fun he => hx (he ▸ hy)
    rw [Function.update_of_ne hyn, Function.update_of_ne hyx]

end Edits

/-! ### Walks along one link -/

section Walks

variable {nx pv : α → α} {d p x : α} {l l₁ l₂ : List α}

/-- **Following `nx` from `d` runs through `l`** and then, for the first time, comes back to `d`. -/
structure Visits (nx : α → α) (d : α) (l : List α) : Prop where
  chain : (d :: (l ++ [d])).IsChain fun x y => nx x = y
  notMem : d ∉ l

theorem Visits.next_dummy (h : Visits nx d l) : nx d = headOf d l := by
  obtain ⟨q, hq⟩ := exists_cons_headOf d l
  have hchain := h.chain
  rw [hq, List.isChain_cons_cons] at hchain
  exact hchain.1

/-- The walk from one of its nodes on. -/
theorem Visits.suffix (h : Visits nx d (l₁ ++ x :: l₂)) :
    (x :: (l₂ ++ [d])).IsChain fun x y => nx x = y := by
  have hchain := h.chain
  rw [List.append_assoc, ← List.cons_append] at hchain
  exact (List.isChain_append.1 hchain).2.1

theorem Visits.next_node (h : Visits nx d (l₁ ++ x :: l₂)) : nx x = headOf d l₂ := by
  obtain ⟨q, hq⟩ := exists_cons_headOf d l₂
  have hchain := h.suffix
  rw [hq, List.isChain_cons_cons] at hchain
  exact hchain.1

/-- Two walks from one node to the first `d` are the same. -/
theorem isChain_unique (hl₁ : (p :: (l₁ ++ [d])).IsChain fun x y => nx x = y)
    (hl₂ : (p :: (l₂ ++ [d])).IsChain fun x y => nx x = y) (hd₁ : d ∉ l₁) (hd₂ : d ∉ l₂) :
    l₁ = l₂ := by
  induction l₁ generalizing p l₂ with
  | nil =>
      cases l₂ with
      | nil => rfl
      | cons y l₂ =>
          have hy : y = d :=
            (List.isChain_cons_cons.1 hl₂).1.symm.trans (List.isChain_cons_cons.1 hl₁).1
          exact absurd (hy ▸ List.mem_cons_self) hd₂
  | cons x l₁ ih =>
      obtain ⟨hx, hl₁⟩ := List.isChain_cons_cons.1 hl₁
      cases l₂ with
      | nil =>
          have hxd : x = d := hx.symm.trans (List.isChain_cons_cons.1 hl₂).1
          exact absurd (hxd ▸ List.mem_cons_self) hd₁
      | cons y l₂ =>
          obtain ⟨hy, hl₂⟩ := List.isChain_cons_cons.1 hl₂
          obtain rfl : x = y := hx.symm.trans hy
          rw [ih hl₁ hl₂ (fun hd => hd₁ (List.mem_cons_of_mem _ hd))
            fun hd => hd₂ (List.mem_cons_of_mem _ hd)]

/-- No node is visited twice: from the second visit on the walk would be that from the first. -/
theorem Visits.nodup_rest (h : Visits nx d (l₁ ++ l₂)) : l₂.Nodup := by
  induction l₂ generalizing l₁ with
  | nil => exact List.nodup_nil
  | cons x l₂ ih =>
      have hrest : Visits nx d (l₁ ++ [x] ++ l₂) := by rwa [List.append_assoc]
      refine List.nodup_cons.2 ⟨fun hx => ?_, ih hrest⟩
      obtain ⟨m, m', rfl⟩ := List.append_of_mem hx
      have hagain : Visits nx d ((l₁ ++ x :: m) ++ x :: m') := by
        rwa [List.append_assoc, List.cons_append]
      have hd : d ∉ m ++ x :: m' := fun hd => h.notMem (by simp [hd])
      have heq := isChain_unique h.suffix hagain.suffix hd fun hd' => hd (by simp [hd'])
      have hlen := congrArg List.length heq
      simp at hlen
      omega

theorem Visits.nodup (h : Visits nx d l) : l.Nodup := by
  have hall : Visits nx d ([] ++ l) := h
  exact hall.nodup_rest

theorem Ring.visits (h : Ring nx pv d l) (hd : d ∉ l) : Visits nx d l :=
  ⟨List.IsChain.imp (fun _ _ hlink => hlink.1) h, hd⟩

end Walks

end Linked
