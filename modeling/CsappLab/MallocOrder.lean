/-
**The order of frees.**

Freeing merges a block with its free neighbours at once, so that the heap is never left with two
free blocks side by side.  There is only one way to tile the heap like that around given blocks in
use.  Which blocks there are after a number of frees is thus known from the blocks that are still in
use, whichever cases `coalesce` went through on the way; only the order of the free list remembers
it.

Main definitions:

* `Malloc.freeAll` — some blocks are freed, one after the other;
* `Malloc.SameBlocks` — two heaps with the same blocks and the same free ones.

Main results:

* `Malloc.freeAll_spec` — what is in use after some frees;
* `Malloc.Good.blocks_unique` — **the canonical form** of a heap in order;
* `Malloc.free_order_independent` — **any two orders lead to the same blocks**, and when all are
  freed the heap is one free block.
-/

import CsappLab.MallocClient

set_option relaxedAutoImplicit false
set_option autoImplicit false

namespace Malloc

open ByteMem Tiling Linked

/-- Some blocks are freed, one after the other. -/
def freeAll (lib : Memlib) (h : Heap) (ptrs : List ℕ) : Heap := ptrs.foldl (mmFree lib) h

/-- **The same blocks**: both heaps are well formed with the blocks `ps`, with the same sizes and
bits, and with the same blocks on their free lists. -/
structure SameBlocks (lib : Memlib) (h₁ h₂ : Heap) (ps free₁ free₂ : List ℕ) : Prop where
  left : WellFormed lib h₁ ps free₁
  right : WellFormed lib h₂ ps free₂
  brk : h₁.brk = h₂.brk
  size : ∀ p ∈ ps, h₁.getSize (hdrp p) = h₂.getSize (hdrp p)
  alloc : ∀ p ∈ ps, h₁.getAlloc (hdrp p) = h₂.getAlloc (hdrp p)
  free : free₁.Perm free₂

section Orders

variable {lib : Memlib} {h h₁ h₂ : Heap} {bs cs : List Block} {l l₁ l₂ : List ℕ}

/-- **What is in use after some frees**: the blocks that were not freed. -/
theorem freeAll_spec {ptrs : List ℕ} (hg : Good lib h bs l) (hnd : ptrs.Nodup)
    (hptrs : ∀ p ∈ ptrs, ∃ b ∈ allocated bs, b.base = p) :
    ∃ bs' l', Good lib (freeAll lib h ptrs) bs' l' ∧ (freeAll lib h ptrs).brk = h.brk ∧
      ∀ x, x ∈ allocated bs' ↔ x ∈ allocated bs ∧ x.base ∉ ptrs := by
  induction ptrs generalizing h bs l with
  | nil => exact ⟨bs, l, hg, rfl, fun x => by simp⟩
  | cons p ptrs ih =>
      obtain ⟨hp, hnd'⟩ := List.nodup_cons.1 hnd
      obtain ⟨b, hb, rfl⟩ := hptrs p List.mem_cons_self
      obtain ⟨hmem, halloc⟩ := mem_allocated.1 hb
      obtain ⟨L, R, rfl⟩ := List.append_of_mem hmem
      obtain ⟨bs₁, l₁, hg₁, hused₁, hsteady, -⟩ := mmFree_spec hg halloc
      -- the block that was freed is the only one that is no longer in use
      have hrest : ∀ x, x ∈ allocated bs₁ ↔ x ∈ allocated (L ++ b :: R) ∧ x.base ≠ b.base := by
        intro x
        rw [hused₁, (allocated_perm halloc).mem_iff, List.mem_cons]
        constructor
        · intro hx
          exact ⟨.inr hx, hg.rep.layout.base_ne (mem_allocated.1 hx).1⟩
        · rintro ⟨rfl | hx, hne⟩
          · exact absurd rfl hne
          · exact hx
      obtain ⟨bs', l', hg', hbrk, hused⟩ := ih hg₁ hnd' fun q hq => by
        obtain ⟨c, hc, rfl⟩ := hptrs q (List.mem_cons_of_mem _ hq)
        refine ⟨c, (hrest c).2 ⟨hc, ?_⟩, rfl⟩
        rintro heq
        exact hp (heq ▸ hq)
      refine ⟨bs', l', hg', hbrk.trans hsteady.brk, fun x => ?_⟩
      rw [hused x, hrest x, List.mem_cons, not_or, and_assoc]

/-- **The canonical form**: the blocks of a heap in order are known from those in use. -/
theorem Good.blocks_unique (hg₁ : Good lib h₁ bs l₁) (hg₂ : Good lib h₂ cs l₂)
    (hbrk : h₁.brk = h₂.brk) (hused : ∀ x, x ∈ allocated bs ↔ x ∈ allocated cs) : bs = cs := by
  have htiles := hg₂.rep.layout.tiles
  rw [← hbrk] at htiles
  exact hg₁.merged.unique hg₁.rep.layout.tiles htiles (fun _ hx => hg₁.rep.layout.pos hx)
    (fun _ hx => hg₂.rep.layout.pos hx) hg₂.merged hused

/-- The free list of a heap in order, up to its order. -/
theorem Good.free_perm (hg₁ : Good lib h₁ bs l₁) (hg₂ : Good lib h₂ bs l₂) : l₁.Perm l₂ := by
  have hnd₁ := (List.nodup_cons.1 hg₁.rep.links.nodup).2
  have hnd₂ := (List.nodup_cons.1 hg₂.rep.links.nodup).2
  refine (List.perm_ext_iff_of_nodup hnd₁ hnd₂).2 fun p => ?_
  constructor
  · intro hp
    obtain ⟨b, hb, rfl⟩ := hg₁.rep.listed p hp
    exact (hg₂.sync b hb).1 ((hg₁.sync b hb).2 hp)
  · intro hp
    obtain ⟨b, hb, rfl⟩ := hg₂.rep.listed p hp
    exact (hg₁.sync b hb).1 ((hg₂.sync b hb).2 hp)

/-- The free list of a heap that is one free block. -/
theorem Good.single_free {b : Block} (hg : Good lib h [b] l) (hb : b.alloc = false) :
    l = [b.base] := by
  refine List.perm_singleton.1 ((List.perm_ext_iff_of_nodup
    (List.nodup_cons.1 hg.rep.links.nodup).2 (List.nodup_singleton _)).2 fun p => ?_)
  rw [List.mem_singleton]
  constructor
  · intro hp
    obtain ⟨c, hc, rfl⟩ := hg.rep.listed p hp
    rw [List.mem_singleton.1 hc]
  · rintro rfl
    exact (hg.sync b (List.mem_singleton_self b)).1 hb

/-- A heap that is one free block behind the dummy block. -/
theorem Good.oneBlock {b : Block} (hg : Good lib h [b] l) (hb : b.alloc = false) :
    WellFormed lib h [lib.start + 8, lib.start + 16, b.base] [b.base] ∧
      h.getSize (hdrp b.base) = b.size ∧ h.getAlloc (hdrp b.base) = 0 := by
  have hmem : b ∈ allBlocks lib [b] := mem_allBlocks (List.mem_singleton_self b)
  have hwf := hg.wellFormed
  rw [hg.single_free hb] at hwf
  refine ⟨hwf, hg.rep.tags.getSize hg.rep.layout hmem, ?_⟩
  rw [hg.rep.tags.getAlloc hg.rep.layout hmem, hb]
  rfl

/-- Two heaps in order with the same blocks. -/
theorem Good.sameBlocks (hg₁ : Good lib h₁ bs l₁) (hg₂ : Good lib h₂ bs l₂)
    (hbrk : h₁.brk = h₂.brk) :
    SameBlocks lib h₁ h₂ ((allBlocks lib bs).map Block.base) l₁ l₂ where
  left := hg₁.wellFormed
  right := hg₂.wellFormed
  brk := hbrk
  size p hp := by
    obtain ⟨b, hb, rfl⟩ := List.mem_map.1 hp
    rw [hg₁.rep.tags.getSize hg₁.rep.layout hb, hg₂.rep.tags.getSize hg₂.rep.layout hb]
  alloc p hp := by
    obtain ⟨b, hb, rfl⟩ := List.mem_map.1 hp
    rw [hg₁.rep.tags.getAlloc hg₁.rep.layout hb, hg₂.rep.tags.getAlloc hg₂.rep.layout hb]
  free := hg₁.free_perm hg₂

end Orders

/-- There is always room behind the dummy block. -/
theorem Reach.brk_lt {lib : Memlib} {h₀ : Heap} {s : State} (hs : Reach lib h₀ s) :
    lib.start + 32 < s.heap.brk := by
  induction hs with
  | init hbrk hok =>
      obtain ⟨bs, l, hg, -, hne⟩ := mmInit_spec hbrk hok
      obtain ⟨b, hb⟩ := List.exists_mem_of_ne_nil bs hne
      have hbounds := hg.rep.layout.tiles.mem_bounds hb
      have := (hg.rep.layout.sizes b hb).2
      show lib.start + 32 < (mmInit lib _).1.brk
      omega
  | call hs hvalid hrun ih =>
      obtain ⟨bs, l, hg, hh⟩ := hs.inv
      obtain ⟨h', p, -, -, -, hrun', -, hle⟩ := call_spec hg hh hvalid
      rw [hrun] at hrun'
      cases hrun'
      exact Nat.lt_of_lt_of_le ih hle
  | write v hs hq hlo hhi ih => exact ih

/-- **Any two orders of frees lead to the same blocks.** From every reachable heap, freeing some
live blocks in two orders leads to the same block boundaries, sizes and bits and the same free
blocks; and once every live block is freed, what lies behind the dummy block is one free block, the
only one on the free list. -/
theorem free_order_independent {lib : Memlib} {h₀ : Heap} {s : State} (hs : Reach lib h₀ s)
    {order₁ order₂ : List ℕ} (hperm : order₁.Perm order₂) (hnd : order₁.Nodup)
    (hlive : ∀ p ∈ order₁, ∃ q ∈ s.live, q.1 = p) :
    (∃ ps free₁ free₂, SameBlocks lib (freeAll lib s.heap order₁) (freeAll lib s.heap order₂) ps
      free₁ free₂) ∧
      ((∀ q ∈ s.live, q.1 ∈ order₁) →
        WellFormed lib (freeAll lib s.heap order₁) [lib.start + 8, lib.start + 16, lib.start + 32]
          [lib.start + 32] ∧
        (freeAll lib s.heap order₁).getSize (hdrp (lib.start + 32)) =
          (freeAll lib s.heap order₁).brk - (lib.start + 32) ∧
        (freeAll lib s.heap order₁).getAlloc (hdrp (lib.start + 32)) = 0) := by
  obtain ⟨bs, l, hg, hh⟩ := hs.inv
  have hptrs : ∀ p ∈ order₁, ∃ b ∈ allocated bs, b.base = p := fun p hp => by
    obtain ⟨q, hq, rfl⟩ := hlive p hp
    obtain ⟨b, hb, hbase, -⟩ := hh.room q hq
    exact ⟨b, hb, hbase⟩
  obtain ⟨bs₁, l₁, hg₁, hbrk₁, hused₁⟩ := freeAll_spec hg hnd hptrs
  obtain ⟨bs₂, l₂, hg₂, hbrk₂, hused₂⟩ := freeAll_spec hg (hperm.nodup_iff.1 hnd) fun p hp =>
    hptrs p (hperm.mem_iff.2 hp)
  have hbrk := hbrk₁.trans hbrk₂.symm
  obtain rfl : bs₁ = bs₂ := hg₁.blocks_unique hg₂ hbrk fun x => by
    rw [hused₁ x, hused₂ x, hperm.mem_iff]
  refine ⟨⟨_, l₁, l₂, hg₁.sameBlocks hg₂ hbrk⟩, fun hall => ?_⟩
  -- nothing is in use any more
  have hfree : allocated bs₁ = [] := by
    refine List.eq_nil_iff_forall_not_mem.2 fun x hx => ?_
    obtain ⟨hx, hnot⟩ := (hused₁ x).1 hx
    have hmem := hh.pointers.mem_iff.2 (List.mem_map_of_mem (f := Block.base) hx)
    obtain ⟨q, hq, hqx⟩ := List.mem_map.1 hmem
    exact hnot (hqx ▸ hall q hq)
  have hlt := hs.brk_lt
  rw [← hbrk₁] at hlt
  have hone := hg₁.merged.single hg₁.rep.layout.tiles hlt hfree
  rw [hone] at hg₁
  exact hg₁.oneBlock rfl

/-- Three blocks, freed from the front to the back, and the middle one last: the second order merges
on both sides at its end. -/
theorem free_order_independent_three : ∃ s, play plentiful ⟨(mmInit plentiful fresh).1, []⟩
    [.malloc 10, .malloc 20, .malloc 30] = some s ∧
    s.live = [(88, 30), (56, 20), (32, 10)] ∧
    (∃ ps free₁ free₂, SameBlocks plentiful (freeAll plentiful s.heap [32, 56, 88])
      (freeAll plentiful s.heap [32, 88, 56]) ps free₁ free₂) ∧
    WellFormed plentiful (freeAll plentiful s.heap [32, 56, 88]) [8, 16, 32] [32] := by
  have hplay : (play plentiful ⟨(mmInit plentiful fresh).1, []⟩
      [.malloc 10, .malloc 20, .malloc 30]).map State.live =
        some [(88, 30), (56, 20), (32, 10)] := by decide +kernel
  obtain ⟨s, hs, hlive⟩ := Option.map_eq_some_iff.1 hplay
  have hperm : [32, 56, 88].Perm [32, 88, 56] := (List.Perm.swap 88 56 []).cons 32
  have hptrs : ∀ p ∈ [32, 56, 88], ∃ q ∈ s.live, q.1 = p := by
    rw [hlive]
    decide
  have hall : ∀ q ∈ s.live, q.1 ∈ [32, 56, 88] := by
    rw [hlive]
    decide
  obtain ⟨hsame, hone⟩ :=
    free_order_independent (reach_fresh.play hs) hperm (by decide) hptrs
  exact ⟨s, hs, hlive, hsame, (hone hall).1⟩

end Malloc
