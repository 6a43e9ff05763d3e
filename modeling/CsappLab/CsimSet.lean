/-
**One set of the simulator is a recency list.**

The lines of a set are the nodes of a ring through its dummy.  Read in list order they carry the
tags of the set, most recently used first, followed by the lines that were never used.  This
module proves that the two list routines of `csim.c` keep that picture: a hit and a miss both end
in the recency list that `Recency.touch` describes, and they write no line of another set.

Main definitions:

* `Csim.content` — the tag a line carries, if it is valid;
* `Csim.padded` — the contents of a set of `E` lines with a given recency list;
* `Csim.SetRep` — **the representation relation** between a set in memory and its recency list.

Main results:

* `Csim.moveLineToFront_ring` — the six assignments that move a line to the front;
* `Csim.SetRep.hit`, `Csim.SetRep.miss` — a set after a hit and after a miss;
* `Csim.SetRep.checkAndUpdateSet_eq` — what the search of a set returns;
* `Csim.createCacheSet_rep` — a new set represents the empty recency list.
-/

import CsappLab.CsimModel
import CsappLab.LinkedRing
import CsappLab.RecencyList
import Mathlib.Data.List.Perm.Subperm

set_option relaxedAutoImplicit false
set_option autoImplicit false

namespace Csim

open Linked Recency

/-! ### Reading a memory after an assignment -/

namespace Heap

variable (h : Heap) (p q : ℕ) (v : Bool) (t : BitVec 64)

/-- The links after a line was assigned. -/
theorem next_assign (line : CacheLine) :
    ({ h with lines := Function.update h.lines p line } : Heap).next =
      Function.update h.next p line.next :=
  Function.comp_update CacheLine.next h.lines p line

theorem prev_assign (line : CacheLine) :
    ({ h with lines := Function.update h.lines p line } : Heap).prev =
      Function.update h.prev p line.prev :=
  Function.comp_update CacheLine.prev h.lines p line

@[simp] theorem next_setNext : (h.setNext p q).next = Function.update h.next p q :=
  h.next_assign p _

@[simp] theorem prev_setNext : (h.setNext p q).prev = h.prev :=
  (h.prev_assign p _).trans (Function.update_eq_self p h.prev)

@[simp] theorem prev_setPrev : (h.setPrev p q).prev = Function.update h.prev p q :=
  h.prev_assign p _

@[simp] theorem next_setPrev : (h.setPrev p q).next = h.next :=
  (h.next_assign p _).trans (Function.update_eq_self p h.next)

@[simp] theorem next_setValid : (h.setValid p v).next = h.next :=
  (h.next_assign p _).trans (Function.update_eq_self p h.next)

@[simp] theorem prev_setValid : (h.setValid p v).prev = h.prev :=
  (h.prev_assign p _).trans (Function.update_eq_self p h.prev)

@[simp] theorem next_setTag : (h.setTag p t).next = h.next :=
  (h.next_assign p _).trans (Function.update_eq_self p h.next)

@[simp] theorem prev_setTag : (h.setTag p t).prev = h.prev :=
  (h.prev_assign p _).trans (Function.update_eq_self p h.prev)

@[simp] theorem fresh_setNext : (h.setNext p q).fresh = h.fresh := rfl
@[simp] theorem fresh_setPrev : (h.setPrev p q).fresh = h.fresh := rfl
@[simp] theorem fresh_setValid : (h.setValid p v).fresh = h.fresh := rfl
@[simp] theorem fresh_setTag : (h.setTag p t).fresh = h.fresh := rfl

theorem lines_setNext_of_ne {x : ℕ} (hx : x ≠ p) : (h.setNext p q).lines x = h.lines x :=
  Function.update_of_ne hx _ _

theorem lines_setPrev_of_ne {x : ℕ} (hx : x ≠ p) : (h.setPrev p q).lines x = h.lines x :=
  Function.update_of_ne hx _ _

theorem lines_setValid_of_ne {x : ℕ} (hx : x ≠ p) : (h.setValid p v).lines x = h.lines x :=
  Function.update_of_ne hx _ _

theorem lines_setTag_of_ne {x : ℕ} (hx : x ≠ p) : (h.setTag p t).lines x = h.lines x :=
  Function.update_of_ne hx _ _

end Heap

/-! ### The contents of a line -/

/-- The tag a line carries, if it is valid. -/
def content (h : Heap) (p : ℕ) : Option (BitVec 64) :=
  if (h.lines p).valid then some (h.lines p).tag else none

theorem content_eq_some {h : Heap} {p : ℕ} {t : BitVec 64} :
    content h p = some t ↔ (h.lines p).valid = true ∧ (h.lines p).tag = t := by
  unfold content
  split <;> simp_all

theorem content_isSome {h : Heap} {p : ℕ} : (content h p).isSome = (h.lines p).valid := by
  unfold content
  split <;> simp_all

@[simp] theorem content_setNext (h : Heap) (p q : ℕ) : content (h.setNext p q) = content h := by
  funext x
  by_cases hx : x = p
  · subst hx; simp [content, Heap.setNext]
  · simp [content, Heap.setNext, hx]

@[simp] theorem content_setPrev (h : Heap) (p q : ℕ) : content (h.setPrev p q) = content h := by
  funext x
  by_cases hx : x = p
  · subst hx; simp [content, Heap.setPrev]
  · simp [content, Heap.setPrev, hx]

/-- The contents of a set of `E` lines whose recency list is `ts`: the tags, then unused lines. -/
def padded (E : ℕ) (ts : List (BitVec 64)) : List (Option (BitVec 64)) :=
  ts.map some ++ List.replicate (E - ts.length) none

@[simp] theorem mem_padded {E : ℕ} {ts : List (BitVec 64)} {t : BitVec 64} :
    some t ∈ padded E ts ↔ t ∈ ts := by
  simp [padded, List.mem_replicate]

/-- A hit, on the contents. -/
theorem padded_touch_hit {E : ℕ} {ts : List (BitVec 64)} {t : BitVec 64} (ht : t ∈ ts)
    (hE : ts.length ≤ E) : some t :: (padded E ts).erase (some t) = padded E (touch E ts t) := by
  have hmem : some t ∈ ts.map some := List.mem_map.2 ⟨t, ht, rfl⟩
  have hlen : (t :: ts.erase t).length = ts.length := by
    have := List.length_pos_of_mem ht
    rw [List.length_cons, List.length_erase_of_mem ht]
    omega
  rw [touch_of_mem ht hE, padded, padded, hlen, List.erase_append_left _ hmem,
    ← List.map_erase (fun _ _ => Option.some.inj)]
  rfl

/-- A miss, on the contents: the last line goes, whether it was used or not. -/
theorem padded_touch_miss {E : ℕ} {ts : List (BitVec 64)} {t : BitVec 64} (ht : t ∉ ts)
    (hE : ts.length ≤ E) (hpos : 0 < E) :
    some t :: (padded E ts).dropLast = padded E (touch E ts t) := by
  rcases Nat.lt_or_ge ts.length E with hlt | hge
  · have hrep : List.replicate (E - ts.length) (none : Option (BitVec 64)) =
        List.replicate (E - (ts.length + 1)) none ++ [none] := by
      rw [show E - ts.length = E - (ts.length + 1) + 1 by omega, List.replicate_succ']
    rw [touch_of_lt ht hlt, padded, padded, List.length_cons, hrep, ← List.append_assoc,
      List.dropLast_concat]
    rfl
  · have hlen : ts.length = E := by omega
    have hne : ts ≠ [] := List.ne_nil_of_length_pos (by omega)
    have hlen' : (t :: ts.dropLast).length = E := by
      rw [List.length_cons, List.length_dropLast]
      omega
    rw [touch_of_full ht hne hlen, padded, padded, hlen, hlen', Nat.sub_self,
      List.replicate_zero, List.append_nil, List.append_nil, ← List.map_dropLast]
    rfl

/-- The last line of a set is in use exactly when the recency list is at its capacity. -/
theorem getLast_padded {E : ℕ} {ts : List (BitVec 64)} {c : Option (BitVec 64)}
    {l : List (Option (BitVec 64))} (hE : ts.length ≤ E) (h : l ++ [c] = padded E ts) :
    c.isSome = true ↔ ts.length = E := by
  have hlast : (padded E ts).getLast? = some c := by rw [← h]; simp
  rcases Nat.lt_or_ge ts.length E with hlt | hge
  · have hrep : List.replicate (E - ts.length) (none : Option (BitVec 64)) =
        List.replicate (E - (ts.length + 1)) none ++ [none] := by
      rw [show E - ts.length = E - (ts.length + 1) + 1 by omega, List.replicate_succ']
    rw [padded, hrep, ← List.append_assoc, List.getLast?_concat] at hlast
    obtain rfl : none = c := by simpa using hlast
    simp
    omega
  · have hlen : ts.length = E := by omega
    rw [padded, hlen, Nat.sub_self, List.replicate_zero, List.append_nil] at hlast
    have hmem : c ∈ ts.map some := List.mem_of_getLast? hlast
    obtain ⟨t, -, rfl⟩ := List.mem_map.1 hmem
    simp [hlen]

/-! ### Moving a line to the front -/

@[simp] theorem content_unlinkLine (h : Heap) (x : ℕ) : content (unlinkLine h x) = content h := by
  simp [unlinkLine]

@[simp] theorem content_linkFront (h : Heap) (d x : ℕ) : content (linkFront h d x) = content h := by
  simp [linkFront]

@[simp] theorem content_moveLineToFront (h : Heap) (d x : ℕ) :
    content (moveLineToFront h d x) = content h := by
  simp [moveLineToFront]

@[simp] theorem fresh_linkFront (h : Heap) (d x : ℕ) : (linkFront h d x).fresh = h.fresh := rfl

@[simp] theorem fresh_moveLineToFront (h : Heap) (d x : ℕ) :
    (moveLineToFront h d x).fresh = h.fresh := rfl

section Move

variable {h : Heap} {d x p : ℕ} {l l₁ l₂ : List ℕ}

/-- The two unlinking assignments, as assignments to the link functions: the first does not
change what the second reads, because a line is not its own predecessor. -/
theorem next_unlinkLine :
    (unlinkLine h x).next = Function.update h.next (h.prev x) (h.next x) := by
  simp [unlinkLine]

theorem prev_unlinkLine (hx : x ≠ h.prev x) :
    (unlinkLine h x).prev = Function.update h.prev (h.next x) (h.prev x) := by
  simp [unlinkLine, Function.update_of_ne hx]

/-- The four linking assignments, as assignments to the link functions. -/
theorem next_linkFront :
    (linkFront h d x).next = Function.update (Function.update h.next x (h.next d)) d x := by
  simp [linkFront]

theorem prev_linkFront (hx : d ≠ x) :
    (linkFront h d x).prev = Function.update (Function.update h.prev x d) (h.next d) x := by
  simp [linkFront, Function.update_of_ne hx]

theorem linkFront_ring (hr : Ring h.next h.prev d l) (hnd : (d :: l).Nodup) (hx : x ∉ d :: l) :
    Ring (linkFront h d x).next (linkFront h d x).prev d (x :: l) := by
  have hdx : d ≠ x := fun he => hx (he ▸ List.mem_cons_self ..)
  rw [next_linkFront, prev_linkFront hdx]
  exact hr.insertFront_update hnd hx

theorem unlinkLine_ring (hr : Ring h.next h.prev d (l₁ ++ x :: l₂))
    (hnd : (d :: (l₁ ++ x :: l₂)).Nodup) :
    Ring (unlinkLine h x).next (unlinkLine h x).prev d (l₁ ++ l₂) := by
  rw [next_unlinkLine, prev_unlinkLine (hr.ne_prev hnd)]
  exact hr.unlink_update (hnd.sublist (by simp))

/-- **The six assignments move a line to the front of its ring.** -/
theorem moveLineToFront_ring (hr : Ring h.next h.prev d (l₁ ++ x :: l₂))
    (hnd : (d :: (l₁ ++ x :: l₂)).Nodup) :
    Ring (moveLineToFront h d x).next (moveLineToFront h d x).prev d (x :: (l₁ ++ l₂)) := by
  have hnd' : (x :: d :: (l₁ ++ l₂)).Nodup :=
    (perm_node d x l₁ l₂).nodup_iff.1 hnd
  exact linkFront_ring (unlinkLine_ring hr hnd) (List.nodup_cons.1 hnd').2
    (List.nodup_cons.1 hnd').1

/-- Linking a line writes only that line and nodes of the ring. -/
theorem lines_linkFront (hr : Ring h.next h.prev d l) (hx : x ∉ d :: l) (hpx : p ≠ x)
    (hp : p ∉ d :: l) : (linkFront h d x).lines p = h.lines p := by
  have hdx : d ≠ x := fun he => hx (he ▸ List.mem_cons_self ..)
  have hpd : p ≠ d := fun he => hp (he ▸ List.mem_cons_self ..)
  have hpn : p ≠ h.next d := fun he => hp (he ▸ hr.next_dummy ▸ headOf_mem d l)
  have hnext : ((h.setNext x (h.next d)).setPrev x d).next d = h.next d := by
    simp [Function.update_of_ne hdx]
  rw [linkFront, hnext, Heap.lines_setNext_of_ne _ _ _ hpd, Heap.lines_setPrev_of_ne _ _ _ hpn,
    Heap.lines_setPrev_of_ne _ _ _ hpx, Heap.lines_setNext_of_ne _ _ _ hpx]

/-- Unlinking a line writes only nodes of the ring. -/
theorem lines_unlinkLine (hr : Ring h.next h.prev d (l₁ ++ x :: l₂))
    (hnd : (d :: (l₁ ++ x :: l₂)).Nodup) (hp : p ∉ d :: (l₁ ++ l₂)) :
    (unlinkLine h x).lines p = h.lines p := by
  have hpp : p ≠ h.prev x := by
    rintro rfl
    rw [hr.prev_node, ← List.cons_append] at hp
    exact hp (List.mem_append_left _ (lastOf_mem d l₁))
  have hpn : p ≠ h.next x := by
    rintro rfl
    rw [hr.next_node] at hp
    refine hp ?_
    have := headOf_mem d l₂
    simp only [List.mem_cons, List.mem_append] at this ⊢
    tauto
  have hnext : (h.setNext (h.prev x) (h.next x)).next x = h.next x := by
    simp [Function.update_of_ne (hr.ne_prev hnd)]
  rw [unlinkLine, hnext, Heap.lines_setPrev_of_ne _ _ _ hpn, Heap.lines_setNext_of_ne _ _ _ hpp]

/-- Moving a line writes only nodes of its ring. -/
theorem lines_moveLineToFront (hr : Ring h.next h.prev d (l₁ ++ x :: l₂))
    (hnd : (d :: (l₁ ++ x :: l₂)).Nodup) (hp : p ∉ d :: (l₁ ++ x :: l₂)) :
    (moveLineToFront h d x).lines p = h.lines p := by
  have hnd' : (x :: d :: (l₁ ++ l₂)).Nodup :=
    (perm_node d x l₁ l₂).nodup_iff.1 hnd
  have hp' : p ∉ x :: d :: (l₁ ++ l₂) := fun hm =>
    hp ((perm_node d x l₁ l₂).mem_iff.2 hm)
  obtain ⟨hpx, hpl⟩ := not_or.1 (fun hm => hp' (List.mem_cons.2 hm))
  rw [moveLineToFront, lines_linkFront (unlinkLine_ring hr hnd) (List.nodup_cons.1 hnd').1 hpx hpl,
    lines_unlinkLine hr hnd hpl]

end Move

/-! ### Filling a line -/

@[simp] theorem next_fillLine (h : Heap) (x : ℕ) (t : BitVec 64) :
    (fillLine h x t).next = h.next := by
  unfold fillLine
  split <;> simp

@[simp] theorem prev_fillLine (h : Heap) (x : ℕ) (t : BitVec 64) :
    (fillLine h x t).prev = h.prev := by
  unfold fillLine
  split <;> simp

@[simp] theorem fresh_fillLine (h : Heap) (x : ℕ) (t : BitVec 64) :
    (fillLine h x t).fresh = h.fresh := by
  unfold fillLine
  split <;> rfl

theorem lines_fillLine_of_ne {h : Heap} {x p : ℕ} {t : BitVec 64} (hp : p ≠ x) :
    (fillLine h x t).lines p = h.lines p := by
  unfold fillLine
  split
  · rw [Heap.lines_setTag_of_ne _ _ _ hp, Heap.lines_setValid_of_ne _ _ _ hp]
  · rw [Heap.lines_setTag_of_ne _ _ _ hp]

/-- The filled line carries the tag, whether it was used before or not. -/
theorem content_fillLine (h : Heap) (x : ℕ) (t : BitVec 64) :
    content (fillLine h x t) = Function.update (content h) x (some t) := by
  funext p
  by_cases hp : p = x
  · subst hp
    cases hv : (h.lines p).valid <;> simp [fillLine, content, Heap.setValid, Heap.setTag, hv]
  · rw [content, lines_fillLine_of_ne hp, Function.update_of_ne hp]
    rfl

/-! ### The representation relation -/

/-- **The set with dummy `d` and lines `nodes` holds the recency list `ts`.** -/
structure SetRep (h : Heap) (d : ℕ) (nodes : List ℕ) (E : ℕ) (ts : List (BitVec 64)) : Prop where
  /-- The lines are the ring of the dummy. -/
  ring : Ring h.next h.prev d nodes
  /-- The dummy and the lines are different nodes. -/
  nodup : (d :: nodes).Nodup
  /-- They have been allocated. -/
  lt_fresh : ∀ p ∈ d :: nodes, p < h.fresh
  /-- There are `E` lines. -/
  length_nodes : nodes.length = E
  /-- The recency list fits. -/
  length_tags : ts.length ≤ E
  /-- The tags are distinct. -/
  nodup_tags : ts.Nodup
  /-- In list order the lines carry the tags, and the remaining lines are unused. -/
  contents : nodes.map (content h) = padded E ts

namespace SetRep

variable {h : Heap} {d : ℕ} {nodes l₁ l₂ : List ℕ} {x E : ℕ} {ts : List (BitVec 64)}
  {t : BitVec 64}

/-- A set survives a change of memory that leaves its nodes alone. -/
theorem congr {h' : Heap} (hs : SetRep h d nodes E ts)
    (heq : ∀ p ∈ d :: nodes, h'.lines p = h.lines p) (hf : h.fresh ≤ h'.fresh) :
    SetRep h' d nodes E ts where
  ring := hs.ring.congr (fun p hp => by rw [Heap.next, heq p hp]; rfl)
    (fun p hp => by rw [Heap.prev, heq p hp]; rfl)
  nodup := hs.nodup
  lt_fresh p hp := lt_of_lt_of_le (hs.lt_fresh p hp) hf
  length_nodes := hs.length_nodes
  length_tags := hs.length_tags
  nodup_tags := hs.nodup_tags
  contents := by
    rw [← hs.contents]
    refine List.map_congr_left fun p hp => ?_
    rw [content, content, heq p (List.mem_cons_of_mem _ hp)]

/-- A tag is in the recency list exactly when some line carries it. -/
theorem mem_tags (hs : SetRep h d nodes E ts) : t ∈ ts ↔ ∃ x ∈ nodes, content h x = some t := by
  rw [← mem_padded (E := E), ← hs.contents, List.mem_map]

/-- The nodes of a set, in another order, with the moved line first. -/
private theorem perm_move (d x : ℕ) (l₁ l₂ : List ℕ) :
    (d :: (l₁ ++ x :: l₂)).Perm (d :: x :: (l₁ ++ l₂)) :=
  List.perm_middle.cons d

/-- **A hit**: the line that carries the tag becomes the first. -/
theorem hit (hs : SetRep h d (l₁ ++ x :: l₂) E ts) (hx : content h x = some t)
    (hfst : ∀ y ∈ l₁, content h y ≠ some t) :
    SetRep (moveLineToFront h d x) d (x :: (l₁ ++ l₂)) E (touch E ts t) where
  ring := moveLineToFront_ring hs.ring hs.nodup
  nodup := (perm_move d x l₁ l₂).nodup_iff.1 hs.nodup
  lt_fresh p hp := hs.lt_fresh p ((perm_move d x l₁ l₂).mem_iff.2 hp)
  length_nodes := by
    rw [← hs.length_nodes]
    simp
    omega
  length_tags := length_touch_le E ts t
  nodup_tags := nodup_touch hs.nodup_tags
  contents := by
    have ht : t ∈ ts := hs.mem_tags.2 ⟨x, by simp, hx⟩
    have hnot : some t ∉ l₁.map (content h) := by
      rintro hm
      obtain ⟨y, hy, hyt⟩ := List.mem_map.1 hm
      exact hfst y hy hyt
    have herase : ((l₁ ++ x :: l₂).map (content h)).erase (some t) =
        (l₁ ++ l₂).map (content h) := by
      rw [List.map_append, List.erase_append_right _ hnot, List.map_cons, hx,
        List.erase_cons_head, List.map_append]
    rw [← padded_touch_hit ht hs.length_tags, ← hs.contents, herase, content_moveLineToFront,
      List.map_cons, hx]

/-- **A miss**: the last line takes the tag and becomes the first. -/
theorem miss {set : CacheSet} (hs : SetRep h set.dummy (l₁ ++ [x]) E ts) (ht : t ∉ ts) :
    SetRep (addOrReplaceLine h set t) set.dummy (x :: l₁) E (touch E ts t) := by
  have hlast : h.prev set.dummy = x := by rw [hs.ring.prev_dummy, lastOf_concat]
  have hr : Ring (fillLine h x t).next (fillLine h x t).prev set.dummy (l₁ ++ x :: []) := by
    rw [next_fillLine, prev_fillLine]
    exact hs.ring
  have hpos : 0 < E := by rw [← hs.length_nodes]; simp
  have hx : x ∉ l₁ := fun hm =>
    (List.nodup_append.1 (List.nodup_cons.1 hs.nodup).2).2.2 x hm x (by simp) rfl
  rw [addOrReplaceLine, hlast]
  exact {
    ring := by simpa using moveLineToFront_ring hr hs.nodup
    nodup := by simpa using (perm_move set.dummy x l₁ []).nodup_iff.1 hs.nodup
    lt_fresh := fun p hp => by
      rw [fresh_moveLineToFront, fresh_fillLine]
      refine hs.lt_fresh p ((perm_move set.dummy x l₁ []).mem_iff.2 ?_)
      simpa using hp
    length_nodes := by rw [← hs.length_nodes]; simp
    length_tags := length_touch_le E ts t
    nodup_tags := nodup_touch hs.nodup_tags
    contents := by
      have hold : l₁.map (content (fillLine h x t)) = l₁.map (content h) := by
        refine List.map_congr_left fun p hp => ?_
        rw [content_fillLine, Function.update_of_ne]
        rintro rfl
        exact hx hp
      have hdrop : (padded E ts).dropLast = l₁.map (content h) := by
        rw [← hs.contents, List.map_append, List.map_singleton, List.dropLast_concat]
      rw [← padded_touch_miss ht hs.length_tags hpos, hdrop, content_moveLineToFront,
        List.map_cons, hold, content_fillLine, Function.update_self] }

/-- The last line is in use exactly when the recency list is full. -/
theorem last_valid (hs : SetRep h d (l₁ ++ [x]) E ts) :
    (h.lines x).valid = true ↔ ts.length = E := by
  rw [← content_isSome]
  refine getLast_padded (l := l₁.map (content h)) hs.length_tags ?_
  rw [← hs.contents, List.map_append]
  rfl

/-- A set has no more lines than there are allocated nodes. -/
theorem length_le_fresh (hs : SetRep h d nodes E ts) : nodes.length ≤ h.fresh := by
  have hsub : nodes ⊆ List.range h.fresh := fun p hp =>
    List.mem_range.2 (hs.lt_fresh p (List.mem_cons_of_mem _ hp))
  simpa using (List.Nodup.subperm (List.nodup_cons.1 hs.nodup).2 hsub).length_le

/-- A hit writes only nodes of the set. -/
theorem lines_hit (hs : SetRep h d (l₁ ++ x :: l₂) E ts) {p : ℕ}
    (hp : p ∉ d :: (l₁ ++ x :: l₂)) : (moveLineToFront h d x).lines p = h.lines p :=
  lines_moveLineToFront hs.ring hs.nodup hp

/-- A miss writes only nodes of the set. -/
theorem lines_miss {set : CacheSet} (hs : SetRep h set.dummy (l₁ ++ [x]) E ts) {p : ℕ}
    (hp : p ∉ set.dummy :: (l₁ ++ [x])) : (addOrReplaceLine h set t).lines p = h.lines p := by
  have hlast : h.prev set.dummy = x := by rw [hs.ring.prev_dummy, lastOf_concat]
  have hr : Ring (fillLine h x t).next (fillLine h x t).prev set.dummy (l₁ ++ x :: []) := by
    rw [next_fillLine, prev_fillLine]
    exact hs.ring
  have hpx : p ≠ x := by
    rintro rfl
    exact hp (by simp)
  rw [addOrReplaceLine, hlast, lines_moveLineToFront hr hs.nodup hp, lines_fillLine_of_ne hpx]

end SetRep

/-- A set with lines has a last one. -/
theorem SetRep.exists_concat {h : Heap} {d E : ℕ} {nodes : List ℕ} {ts : List (BitVec 64)}
    (hs : SetRep h d nodes E ts) (hE : 0 < E) : ∃ l x, nodes = l ++ [x] := by
  rcases List.eq_nil_or_concat nodes with hnil | ⟨l, x, hl⟩
  · have hlen := hs.length_nodes
    rw [hnil, List.length_nil] at hlen
    omega
  · exact ⟨l, x, by rw [hl, List.concat_eq_append]⟩

/-! ### Creating a set -/

/-- **A new line** goes in front of the unused lines of a set; only the nodes of the set change. -/
theorem SetRep.newLine {g : Heap} {d n : ℕ} {nodes : List ℕ} (hs : SetRep g d nodes n []) :
    SetRep (Csim.newLine g d) d (g.fresh :: nodes) (n + 1) [] ∧
      (Csim.newLine g d).fresh = g.fresh + 1 ∧
      ∀ p, p ≠ g.fresh → p ∉ d :: nodes → (Csim.newLine g d).lines p = g.lines p := by
  have hx : g.fresh ∉ d :: nodes := fun hm => absurd (hs.lt_fresh _ hm) (Nat.lt_irrefl _)
  let g₁ : Heap := { g with fresh := g.fresh + 1 }
  let g₂ : Heap := (g₁.setValid g.fresh false).setTag g.fresh 0
  have hnew : Csim.newLine g d = linkFront g₂ d g.fresh := rfl
  have hnext : g₂.next = g.next := by simp [g₂]; rfl
  have hprev : g₂.prev = g.prev := by simp [g₂]; rfl
  have hr₂ : Ring g₂.next g₂.prev d nodes := by
    rw [hnext, hprev]
    exact hs.ring
  have hlines : ∀ p, p ≠ g.fresh → g₂.lines p = g.lines p := fun p hp => by
    rw [Heap.lines_setTag_of_ne _ _ _ hp, Heap.lines_setValid_of_ne _ _ _ hp]
  have hfresh : g₂.fresh = g.fresh + 1 := rfl
  rw [hnew]
  refine ⟨?_, by rw [fresh_linkFront, hfresh], fun p hpx hpn => ?_⟩
  · exact {
      ring := linkFront_ring hr₂ hs.nodup hx
      nodup := by
        refine (List.Perm.swap d g.fresh nodes).nodup_iff.1 ?_
        exact List.nodup_cons.2 ⟨hx, hs.nodup⟩
      lt_fresh := fun p hp => by
        rw [fresh_linkFront, hfresh]
        simp only [List.mem_cons] at hp
        rcases hp with rfl | rfl | hp
        · exact Nat.lt_succ_of_lt (hs.lt_fresh _ (List.mem_cons_self ..))
        · exact Nat.lt_succ_self _
        · exact Nat.lt_succ_of_lt (hs.lt_fresh _ (List.mem_cons_of_mem _ hp))
      length_nodes := by rw [List.length_cons, hs.length_nodes]
      length_tags := Nat.zero_le _
      nodup_tags := List.nodup_nil
      contents := by
        have hnone : content g₂ g.fresh = none := by
          simp [content, g₂, Heap.setTag, Heap.setValid]
        have hrest : nodes.map (content g₂) = nodes.map (content g) := by
          refine List.map_congr_left fun p hp => ?_
          rw [content, content, hlines p]
          rintro rfl
          exact hx (List.mem_cons_of_mem _ hp)
        rw [content_linkFront, List.map_cons, hnone, hrest, hs.contents]
        simp [padded, List.replicate_succ] }
  · rw [lines_linkFront hr₂ hx hpx hpn, hlines p hpx]

/-- **A new set** is the ring of `n` new invalid lines; the older nodes keep their contents. -/
theorem newLines_rep {h : Heap} {d : ℕ} (hring : Ring h.next h.prev d []) (hd : d + 1 = h.fresh) :
    ∀ n, ∃ nodes, SetRep (newLines h d n) d nodes n [] ∧ (newLines h d n).fresh = h.fresh + n ∧
      (∀ p ∈ nodes, d < p) ∧ ∀ p < d, (newLines h d n).lines p = h.lines p := by
  intro n
  induction n with
  | zero =>
      refine ⟨[], ?_, rfl, by simp, fun p _ => rfl⟩
      exact {
        ring := hring
        nodup := by simp
        lt_fresh := fun p hp => by
          obtain rfl : p = d := by simpa using hp
          show p < h.fresh
          omega
        length_nodes := rfl
        length_tags := Nat.le_refl 0
        nodup_tags := List.nodup_nil
        contents := rfl }
  | succ n ih =>
      obtain ⟨nodes, hs, hf, hlt, hold⟩ := ih
      obtain ⟨hs', hf', hold'⟩ := hs.newLine
      refine ⟨(newLines h d n).fresh :: nodes, hs', ?_, fun p hp => ?_, fun p hp => ?_⟩
      · rw [newLines, hf', hf]
        omega
      · rcases List.mem_cons.1 hp with rfl | hp
        · omega
        · exact hlt p hp
      · have hpn : p ∉ d :: nodes := fun hm => by
          rcases List.mem_cons.1 hm with rfl | hm
          · omega
          · have := hlt p hm
            omega
        rw [newLines, hold' p (by omega) hpn, hold p hp]

/-- `createCacheSet` makes an empty set out of new nodes. -/
theorem createCacheSet_rep (h : Heap) (E : ℤ) :
    ∃ nodes, SetRep (createCacheSet h E).1 (createCacheSet h E).2.dummy nodes E.toNat [] ∧
      (createCacheSet h E).2.dummy = h.fresh ∧ (∀ p ∈ nodes, h.fresh < p) ∧
      h.fresh ≤ (createCacheSet h E).1.fresh ∧
      ∀ p < h.fresh, (createCacheSet h E).1.lines p = h.lines p := by
  let h₁ : Heap := { h with fresh := h.fresh + 1 }
  let h₂ : Heap := (h₁.setPrev h.fresh h.fresh).setNext h.fresh h.fresh
  have hring : Ring h₂.next h₂.prev h.fresh [] := by
    refine ring_nil.2 ?_
    simp [h₂]
  obtain ⟨nodes, hs, hf, hlt, hold⟩ := newLines_rep hring rfl E.toNat
  refine ⟨nodes, hs, rfl, hlt, ?_, ?_⟩
  · show h.fresh ≤ (newLines h₂ h.fresh E.toNat).fresh
    rw [hf]
    show h.fresh ≤ h.fresh + 1 + E.toNat
    omega
  · intro p hp
    have hne : p ≠ h.fresh := by omega
    show (newLines h₂ h.fresh E.toNat).lines p = h.lines p
    rw [hold p hp, Heap.lines_setNext_of_ne _ _ _ hne, Heap.lines_setPrev_of_ne _ _ _ hne]

/-! ### Searching a set -/

/-- The search from a line on, along the rest of the ring. -/
theorem checkLoop_eq {h : Heap} {d : ℕ} {t : BitVec 64} :
    ∀ {l : List ℕ} {fuel : ℕ}, Chain h.next h.prev (l ++ [d]) → d ∉ l → l.length < fuel →
      checkLoop h d t fuel (headOf d l) =
        some (match l.find? fun p => content h p = some t with
          | none => (h, false)
          | some x => (moveLineToFront h d x, true)) := by
  intro l
  induction l with
  | nil =>
      intro fuel _ _ hf
      obtain ⟨n, rfl⟩ : ∃ n, fuel = n + 1 := ⟨fuel - 1, by omega⟩
      simp [checkLoop]
  | cons x l ih =>
      intro fuel hc hd hf
      obtain ⟨n, rfl⟩ : ∃ n, fuel = n + 1 := ⟨fuel - 1, by simp at hf; omega⟩
      obtain ⟨hxd, hdl⟩ : d ≠ x ∧ d ∉ l := by simpa using hd
      obtain ⟨q, hq⟩ := exists_cons_headOf d l
      have hc' : Chain h.next h.prev (x :: headOf d l :: q) := by rw [← hq]; exact hc
      obtain ⟨hlink, hrest⟩ := List.isChain_cons_cons.1 hc'
      rw [headOf_cons, checkLoop, if_neg (Ne.symm hxd)]
      by_cases hx : content h x = some t
      · rw [if_pos (content_eq_some.1 hx), List.find?_cons_of_pos (by simpa using hx)]
      · rw [if_neg (fun hv => hx (content_eq_some.2 hv)),
          List.find?_cons_of_neg (by simpa using hx), hlink.1]
        exact ih (by rw [hq]; exact hrest) hdl (by simpa using hf)

/-- **What the search of a set returns**: a hit exactly when the tag is in the recency list. -/
theorem SetRep.checkAndUpdateSet_eq {h : Heap} {set : CacheSet} {nodes : List ℕ} {E : ℕ}
    {ts : List (BitVec 64)} (hs : SetRep h set.dummy nodes E ts) (t : BitVec 64) :
    (t ∉ ts ∧ checkAndUpdateSet h set t = some (h, false)) ∨
      (t ∈ ts ∧ ∃ x l₁ l₂, nodes = l₁ ++ x :: l₂ ∧ content h x = some t ∧
        (∀ y ∈ l₁, content h y ≠ some t) ∧
        checkAndUpdateSet h set t = some (moveLineToFront h set.dummy x, true)) := by
  have hd : set.dummy ∉ nodes := (List.nodup_cons.1 hs.nodup).1
  have hc : Chain h.next h.prev (nodes ++ [set.dummy]) := (ring_cut.1 hs.ring).2
  have hloop := checkLoop_eq (t := t) hc hd (Nat.lt_succ_of_le hs.length_le_fresh)
  rw [← hs.ring.next_dummy] at hloop
  cases hf : nodes.find? fun p => content h p = some t with
  | none =>
      rw [hf] at hloop
      refine Or.inl ⟨fun ht => ?_, hloop⟩
      obtain ⟨x, hx, hxt⟩ := hs.mem_tags.1 ht
      simpa [hxt] using List.find?_eq_none.1 hf x hx
  | some x =>
      rw [hf] at hloop
      obtain ⟨hx, l₁, l₂, hl, hfst⟩ := List.find?_eq_some_iff_append.1 hf
      have hxt : content h x = some t := by simpa using hx
      refine Or.inr ⟨hs.mem_tags.2 ⟨x, by simp [hl], hxt⟩, x, l₁, l₂, hl, hxt, ?_, hloop⟩
      intro y hy
      simpa using hfst y hy

end Csim
