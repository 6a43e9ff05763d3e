/-
**The functions of the interface.**

What each of the functions a client calls does to a heap in order.  All of them return: the loop of
`find_fit` ends because no block is on the list twice.  A function that allocates either leaves the
memory alone and returns the null pointer, or the block it returns is in use afterwards next to
those that were in use before.

Main definitions:

* `Malloc.Unserved`, `Malloc.Served` — the two ways a request for memory can end.

Main results:

* `Malloc.Good.inside` — a heap stays in order when a block in use is written to;
* `Malloc.mmFree_spec`, `Malloc.mmMalloc_spec`, `Malloc.mmRealloc_spec` — **the functions on a heap
  in order**;
* `Malloc.mmInit_spec` — **the heap after `mm_init` is in order**.
-/

import CsappLab.MallocPlace
import Mathlib.Data.List.Perm.Subperm
import Mathlib.Data.List.Range

set_option relaxedAutoImplicit false
set_option autoImplicit false

namespace Malloc

open ByteMem Tiling Linked

/-! ### Blocks in use -/

/-- With a higher break and fewer blocks in use there is more outside of them. -/
theorem Outside.mono {lib : Memlib} {brk brk' a : ℕ} {used used' : List Block}
    (ha : Outside lib brk used a) (hbrk : brk ≤ brk') (hused : ∀ b ∈ used', b ∈ used) :
    Outside lib brk' used' a :=
  ⟨ha.1, Nat.lt_of_lt_of_le ha.2.1 hbrk, fun b hb => ha.2.2 b (hused b hb)⟩

/-! ### Writing to a block in use -/

/-- The part of a block in use that is its own. -/
def Inside (used : List Block) (a : ℕ) : Prop :=
  ∃ b ∈ used, b.base ≤ a ∧ a < b.base + b.size - 8

section Inside

variable {lib : Memlib} {h : Heap} {bs : List Block} {l : List ℕ}

/-- Tags and link words of a heap in order lie outside of the blocks in use. -/
theorem Good.not_inside (hg : Good lib h bs l) {q a : ℕ}
    (hq : ¬ NotTag lib h.brk bs q ∨ ¬ NotLink h l q) (ha : q ≤ a) (ha' : a < q + 4) :
    ¬ Inside (allocated bs) a := by
  have hl := hg.rep.layout
  have hmem : ∀ b ∈ allocated bs, b ∈ bs := fun b hb => (mem_allocated.1 hb).1
  have hout : Outside lib h.brk (allocated bs) a := by
    rcases hq with hq | hq
    · simp only [NotTag, not_and_or, not_forall, not_not] at hq
      rcases hq with hq | ⟨b, hb, hq⟩
      · have := hl.brk_bounds
        exact hl.outside_epilogue hmem (by omega)
      · have := hl.bounds hb
        exact hl.outside_tags hmem hb (by omega)
    · simp only [NotLink, not_forall, not_and_or, not_not] at hq
      obtain ⟨p, hp, hq⟩ := hq
      refine hg.rep.outside_link hmem (fun c hc => ?_) hp (by omega) (by omega)
      exact hg.not_listed (hmem c hc) (mem_allocated.1 hc).2
  rintro ⟨b, hb, hlo, hhi⟩
  have := hout.2.2 b hb
  omega

/-- **A heap stays in order when blocks in use are written to.** -/
theorem Good.inside (hg : Good lib h bs l) {r : Ram} (hw : Wrote (Inside (allocated bs)) h.ram r) :
    Good lib { h with ram := r } bs l := by
  have hget : ∀ q, ¬ NotTag lib h.brk bs q ∨ ¬ NotLink h l q → r.word q = h.ram.word q :=
    fun q hq => hw.word fun a ha ha' => hg.not_inside hq ha ha'
  refine ⟨⟨hg.rep.layout, hg.rep.heapListp, hg.rep.dummyBlockp, ?_, ?_, hg.rep.listed⟩, hg.sync,
    hg.merged⟩
  · exact hg.rep.tags.congr hg.rep.layout rfl fun q _ hq => hget q (.inl hq)
  · exact hg.rep.links.congr rfl fun q _ hq => hget q (.inr hq)

end Inside

/-! ### `mm_free` -/

section Free

variable {lib : Memlib} {h : Heap} {L R : List Block} {b : Block} {l : List ℕ}

/-- The block that is freed is in limbo. -/
theorem Good.release (hg : Good lib h (L ++ b :: R) l) (hb : b.alloc = true) :
    Limbo lib (putTags h b.base b.size false.toNat) L ⟨b.base, b.size, false⟩ R l := by
  have hrep := hg.rep.retag (b := ⟨b.base, b.size, false⟩) (hg.rep.layout.mark false)
    (fun c hc => mem_append_cons_of_mem hc) (hg.rep.listed_replace rfl)
  exact ⟨hrep, rfl, hg.not_listed (c := b) (by simp) hb,
    fun c hc => hg.sync c (mem_append_cons_of_mem hc), hg.merged.left, hg.merged.right.tail⟩

theorem mmFree_eq (lib : Memlib) {bp size : ℕ} (hbp : bp ≠ 0) (hinit : h.heapListp ≠ 0)
    (hsize : h.getSize (hdrp bp) = size) :
    mmFree lib h bp = (coalesce (putTags h bp size 0) bp).1 := by
  unfold mmFree
  rw [if_neg hbp, hsize]
  dsimp only
  rw [if_neg hinit]

/-- **`mm_free` of a block in use**: it becomes part of a free block. -/
theorem mmFree_spec (hg : Good lib h (L ++ b :: R) l) (hb : b.alloc = true) :
    ∃ bs l', Good lib (mmFree lib h b.base) bs l' ∧ allocated bs = allocated (L ++ R) ∧
      Steady (Outside lib h.brk (allocated (L ++ R))) h (mmFree lib h b.base) ∧
      ∃ m ∈ bs, m.alloc = false ∧ m.base ≤ b.base ∧ b.base + b.size ≤ m.base + m.size := by
  have hlay := hg.rep.layout
  have hball : b ∈ allBlocks lib (L ++ b :: R) := mem_allBlocks (by simp)
  have hbounds := hlay.bounds hball
  have hinit := hg.rep.heapListp
  have hused : ∀ c ∈ allocated (L ++ R), c ∈ L ++ ⟨b.base, b.size, false⟩ :: R := fun c hc =>
    mem_append_cons_of_mem (mem_allocated.1 hc).1
  have hput := Rep.steady_putTags (h := h) (b := ⟨b.base, b.size, false⟩) (hlay.mark false) hused
  obtain ⟨L', m, R', l', -, hgood, hm, hlo, hhi, hsame, hsteady⟩ := coalesce_spec (hg.release hb)
  rw [hput.brk] at hsteady
  rw [mmFree_eq lib (by omega) (by omega) (hg.rep.tags.getSize hlay hball)]
  exact ⟨L' ++ m :: R', l', hgood, (allocated_append_cons_free hm).trans hsame, hput.trans hsteady,
    m, by simp, hm, hlo, hhi⟩

end Free

/-! ### `find_fit` -/

section Fit

variable {lib : Memlib} {h : Heap} {bs : List Block} {l l₁ l₂ : List ℕ} {asize fuel : ℕ}

/-- The loop from the position in front of `l₂` on. -/
theorem fitLoop_spec (hl : Links h (l₁ ++ l₂)) (hfuel : l₂.length ≤ fuel) :
    (fitLoop h asize fuel (headOf h.dummyBlockp l₂) = some 0 ∧
        ∀ p ∈ l₂, h.getSize (hdrp p) < asize) ∨
      ∃ p ∈ l₂, fitLoop h asize fuel (headOf h.dummyBlockp l₂) = some p ∧
        asize ≤ h.getSize (hdrp p) := by
  induction l₂ generalizing l₁ fuel with
  | nil =>
      left
      unfold fitLoop
      exact ⟨if_pos rfl, fun p hp => by cases hp⟩
  | cons p l₂ ih =>
      have hp : p ≠ h.dummyBlockp := by
        rintro rfl
        exact (List.nodup_cons.1 hl.nodup).1 (by simp)
      have hnext : h.getSucc p = headOf h.dummyBlockp l₂ := hl.ring.next_node
      cases fuel with
      | zero => cases hfuel
      | succ fuel =>
          rw [headOf_cons, fitLoop, if_neg hp]
          by_cases hfit : asize ≤ h.getSize (hdrp p)
          · rw [if_pos hfit]
            exact .inr ⟨p, List.mem_cons_self, rfl, hfit⟩
          · rw [if_neg hfit, hnext]
            have hl' : Links h (l₁ ++ [p] ++ l₂) := by
              rw [List.append_assoc]
              exact hl
            rcases ih hl' (Nat.le_of_succ_le_succ hfuel) with ⟨hnone, hfull⟩ | ⟨q, hq, hfound, hle⟩
            · refine .inl ⟨hnone, fun q hq => ?_⟩
              rcases List.mem_cons.1 hq with rfl | hq
              · exact Nat.lt_of_not_le hfit
              · exact hfull q hq
            · exact .inr ⟨q, List.mem_cons_of_mem _ hq, hfound, hle⟩

/-- There are fewer free blocks than bytes. -/
theorem Good.length_le (hg : Good lib h bs l) : l.length ≤ h.brk := by
  have hl := hg.rep.layout
  have hnd : l.Nodup := (List.nodup_cons.1 hg.rep.links.nodup).2
  exact hl.tiles.starts_length_le (fun b hb => hl.pos hb) hg.rep.listed hnd

/-- **`find_fit` returns**: what it finds is a free block that is long enough, and if it finds none
there is none. -/
theorem findFit_spec (hg : Good lib h bs l) (asize : ℕ) :
    (findFit h asize = some 0 ∧ ∀ b ∈ bs, b.alloc = false → b.size < asize) ∨
      ∃ L b R, bs = L ++ b :: R ∧ b.alloc = false ∧ asize ≤ b.size ∧
      findFit h asize = some b.base := by
  have hstart : h.getSucc h.dummyBlockp = headOf h.dummyBlockp l := hg.rep.links.ring.next_dummy
  have hlinks : Links h ([] ++ l) := hg.rep.links
  have hloop : (fitLoop h asize h.brk (headOf h.dummyBlockp l) = some 0 ∧
      ∀ p ∈ l, h.getSize (hdrp p) < asize) ∨ ∃ p ∈ l,
        fitLoop h asize h.brk (headOf h.dummyBlockp l) = some p ∧ asize ≤ h.getSize (hdrp p) :=
    fitLoop_spec hlinks hg.length_le
  rw [← hstart] at hloop
  rcases hloop with ⟨hnone, hfull⟩ | ⟨p, hp, hfound, hle⟩
  · refine .inl ⟨hnone, fun b hb hfree => ?_⟩
    rw [← hg.rep.tags.getSize hg.rep.layout (mem_allBlocks hb)]
    exact hfull b.base ((hg.sync b hb).1 hfree)
  · obtain ⟨b, hb, rfl⟩ := hg.rep.listed p hp
    rw [hg.rep.tags.getSize hg.rep.layout (mem_allBlocks hb)] at hle
    obtain ⟨L, R, rfl⟩ := List.append_of_mem hb
    exact .inr ⟨L, b, R, rfl, (hg.sync b hb).2 hp, hle, hfound⟩

end Fit

/-- The adjusted size has room for the tags, unless the sum it is made of is too large. -/
theorem adjust_spec {size : ℕ} (hsize : size ≤ 4294967280) :
    adjust size % 8 = 0 ∧ 16 ≤ adjust size ∧ size + 8 ≤ adjust size ∧
      adjust size ≤ max 16 (size + 15) := by
  unfold adjust
  split
  · rename_i hle
    have : size ≤ 8 := hle
    show 16 % 8 = 0 ∧ 16 ≤ 16 ∧ size + 8 ≤ 16 ∧ 16 ≤ max 16 (size + 15)
    omega
  · rename_i hgt
    have : 8 < size := Nat.lt_of_not_le hgt
    have hsum : addw (addw size 8) 7 = size + 15 := by
      rw [addw_eq (show size + 8 < 4294967296 by omega), addw_eq (by omega)]
    show mulw 8 (addw (addw size 8) 7 / 8) % 8 = 0 ∧ 16 ≤ mulw 8 (addw (addw size 8) 7 / 8) ∧
      size + 8 ≤ mulw 8 (addw (addw size 8) 7 / 8) ∧
      mulw 8 (addw (addw size 8) 7 / 8) ≤ max 16 (size + 15)
    rw [hsum, mulw_eq (by omega)]
    omega

/-! ### `mm_malloc` -/

/-- A request that was not served. -/
structure Unserved (lib : Memlib) (h : Heap) (bs : List Block) (l : List ℕ) (h' : Heap) : Prop where
  good : Good lib h' bs l
  ram : h'.ram = h.ram
  brk : h'.brk = h.brk

/-- **A request that was served**: next to the blocks `used` there is one more in use, which has
room for what was asked for, and memory was only written outside of the former. -/
structure Served (lib : Memlib) (h : Heap) (used : List Block) (size : ℕ) (h' : Heap) (p : ℕ)
    (bs : List Block) (l : List ℕ) (n : ℕ) : Prop where
  good : Good lib h' bs l
  ne : p ≠ 0
  room : size + 8 ≤ n
  perm : (allocated bs).Perm (⟨p, n, true⟩ :: used)
  brk_le : h.brk ≤ h'.brk
  wrote : Wrote (Outside lib h'.brk used) h.ram h'.ram

section Malloc

variable {lib : Memlib} {h h' : Heap} {L R bs : List Block} {b : Block} {l : List ℕ}
  {size asize : ℕ}

/-- Placing a block serves a request. -/
theorem Placed.served (hp : Placed lib h L b R asize h') (hsize : size + 8 ≤ asize)
    (hbase : b.base ≠ 0) :
    ∃ bs l n, Served lib h (allocated (L ++ R)) size h' b.base bs l n := by
  obtain ⟨bs, l, n, hgood, hn, hused, hsteady⟩ := hp
  refine ⟨bs, l, n, hgood, hbase, Nat.le_trans hsize hn, ?_, Nat.le_of_eq hsteady.brk.symm, ?_⟩
  · rw [hused, allocated, allocated, allocated, List.filter_append]
    exact List.perm_middle
  · rw [hsteady.brk]
    exact hsteady.wrote

theorem mmMalloc_zero (hinit : h.heapListp ≠ 0) : mmMalloc lib h 0 = some (h, 0) := by
  unfold mmMalloc
  rw [if_neg hinit]
  rfl

theorem mmMalloc_found {bp : ℕ} (hinit : h.heapListp ≠ 0) (hsize : size ≠ 0)
    (hfit : findFit h (adjust size) = some bp) (hbp : bp ≠ 0) :
    mmMalloc lib h size = some (place h bp (adjust size), bp) := by
  unfold mmMalloc
  rw [if_neg hinit]
  dsimp only
  rw [if_neg hsize, hfit]
  exact if_pos hbp

theorem mmMalloc_grown {esize : ℕ} {r : Heap × ℕ} (hinit : h.heapListp ≠ 0) (hsize : size ≠ 0)
    (hfit : findFit h (adjust size) = some 0) (hesize : max (adjust size) 4096 = esize)
    (hextend : extendHeap lib h (esize / 4) = r) :
    mmMalloc lib h size =
      if r.2 = 0 then some (r.1, 0) else some (place r.1 r.2 (adjust size), r.2) := by
  subst hextend hesize
  unfold mmMalloc
  rw [if_neg hinit]
  dsimp only
  rw [if_neg hsize, hfit]
  rfl

/-- **How `mm_malloc` ends** for a request of at least one byte: a free block that fits is placed;
or there is none and the heap grows, or it does not. -/
inductive Answered (lib : Memlib) (h : Heap) (bs : List Block) (size : ℕ) : Heap → ℕ → Prop
  | found {L R : List Block} {b : Block} (blocks : bs = L ++ b :: R) (free : b.alloc = false)
      (le : adjust size ≤ b.size) (fit : findFit h (adjust size) = some b.base) :
      Answered lib h bs size (place h b.base (adjust size)) b.base
  | refused (full : ∀ b ∈ bs, b.alloc = false → b.size < adjust size)
      (fit : findFit h (adjust size) = some 0)
      (sbrk : (memSbrk lib h (max (adjust size) chunksize)).2 = minusOne)
      (extend : (extendHeap lib h (max (adjust size) chunksize / wsize)).2 = 0) :
      Answered lib h bs size { h with sbrks := h.sbrks + 1 } 0
  | grown {g : Heap} {L R : List Block} {m : Block} {l' : List ℕ}
      (full : ∀ b ∈ bs, b.alloc = false → b.size < adjust size)
      (fit : findFit h (adjust size) = some 0)
      (sbrk : (memSbrk lib h (max (adjust size) chunksize)).2 ≠ minusOne)
      (extend : extendHeap lib h (max (adjust size) chunksize / wsize) = (g, m.base))
      (extended : Extended lib h bs (max (adjust size) chunksize) g L m R l') :
      Answered lib h bs size (place g m.base (adjust size)) m.base

/-- **`mm_malloc` returns**, for every size that does not wrap when it is adjusted. -/
theorem mmMalloc_answered (hg : Good lib h bs l) (hsize : size ≤ 4294967280) (hzero : size ≠ 0) :
    ∃ h' p, mmMalloc lib h size = some (h', p) ∧ Answered lib h bs size h' p := by
  have hinit : h.heapListp ≠ 0 := by
    have := hg.rep.heapListp
    omega
  obtain ⟨h₁, h₂, h₃, h₄⟩ := adjust_spec hsize
  rcases findFit_spec hg (adjust size) with ⟨hfit, hfull⟩ | ⟨L, b, R, rfl, hfree, hle, hfit⟩
  · -- no block fits, and the heap grows
    obtain ⟨esize, hesize⟩ : ∃ n, max (adjust size) 4096 = n := ⟨_, rfl⟩
    have hwords : mulw (esize / 4) 4 = esize := by
      rw [mulw_eq (by omega)]
      omega
    have heven : esize / 4 % 2 = 0 := by omega
    rcases extendHeap_spec hg heven hwords (by omega) (by omega) with
      ⟨hsbrk, hrefused⟩ | ⟨hsbrk, L, m, R, l', hbase, hext⟩
    · have hcall := mmMalloc_grown hinit hzero hfit hesize hrefused
      refine ⟨_, 0, hcall.trans (if_pos rfl), .refused hfull hfit ?_ ?_⟩
      · rw [show max (adjust size) chunksize = esize from hesize]
        exact hsbrk
      · rw [show max (adjust size) chunksize = esize from hesize]
        exact congrArg Prod.snd hrefused
    · have hm := hext.good.rep.layout.bounds (mem_allBlocks (b := m) (by simp))
      have hcall := mmMalloc_grown (r := extendHeap lib h (esize / 4)) hinit hzero hfit hesize rfl
      rw [hbase, if_neg (by omega)] at hcall
      subst hesize
      exact ⟨_, m.base, hcall, .grown hfull hfit hsbrk (Prod.ext rfl hbase) hext⟩
  · have hb := hg.rep.layout.bounds (mem_allBlocks (b := b) (by simp))
    exact ⟨_, b.base, mmMalloc_found hinit hzero hfit (by omega), .found rfl hfree hle hfit⟩

/-- A request that ends with a null pointer was not served, and every other one was. -/
theorem Answered.served (hg : Good lib h bs l) (hsize : size ≤ 4294967280) {p : ℕ}
    (ha : Answered lib h bs size h' p) :
    p = 0 ∧ Unserved lib h bs l h' ∨
      ∃ bs' l' n, Served lib h (allocated bs) size h' p bs' l' n := by
  obtain ⟨h₁, h₂, h₃, -⟩ := adjust_spec hsize
  cases ha with
  | @found L R b blocks free le fit =>
      subst blocks
      have hb := hg.rep.layout.bounds (mem_allBlocks (b := b) (by simp))
      obtain ⟨bs', l', n, hserved⟩ := (place_spec hg free h₁ h₂ le).served h₃ (by omega)
      rw [← allocated_append_cons_free free] at hserved
      exact .inr ⟨bs', l', n, hserved⟩
  | refused full fit sbrk extend => exact .inl ⟨rfl, hg.refused, rfl, rfl⟩
  | @grown g L R m l' full fit sbrk extend extended =>
      have hm := extended.good.rep.layout.bounds (mem_allBlocks (b := m) (by simp))
      have hroom := extended.size_le
      obtain ⟨bs', l₂, n, hserved⟩ :=
        (place_spec extended.good extended.free h₁ h₂ (by omega)).served h₃ (by omega)
      have hlow := hserved.brk_le
      have hgrown := extended.brk
      rw [extended.used] at hserved
      refine .inr ⟨bs', l₂, n, hserved.good, hserved.ne, hserved.room, hserved.perm, by omega, ?_⟩
      exact (extended.wrote.mono fun a ha => ha.mono hlow fun c hc => hc).trans hserved.wrote

/-- **`mm_malloc`.** -/
theorem mmMalloc_spec (hg : Good lib h bs l) (hsize : size ≤ 2147483647) :
    ∃ h' p, mmMalloc lib h size = some (h', p) ∧
      (p = 0 ∧ Unserved lib h bs l h' ∨
        ∃ bs' l' n, Served lib h (allocated bs) size h' p bs' l' n) := by
  by_cases hzero : size = 0
  · subst hzero
    have hinit : h.heapListp ≠ 0 := by
      have := hg.rep.heapListp
      omega
    exact ⟨h, 0, mmMalloc_zero hinit, .inl ⟨rfl, hg, rfl, rfl⟩⟩
  obtain ⟨h', p, hrun, hanswered⟩ := mmMalloc_answered hg (by omega : size ≤ 4294967280) hzero
  exact ⟨h', p, hrun, hanswered.served hg (by omega)⟩

end Malloc

/-! ### `mm_realloc` -/

section Realloc

variable {lib : Memlib} {h : Heap} {L R : List Block} {b : Block} {l : List ℕ} {size ptr : ℕ}

theorem mmRealloc_zero (lib : Memlib) (h : Heap) (ptr : ℕ) :
    mmRealloc lib h ptr 0 = some (mmFree lib h ptr, 0) := rfl

theorem mmRealloc_null (lib : Memlib) (h : Heap) (hsize : size ≠ 0) :
    mmRealloc lib h 0 size = mmMalloc lib h size := by
  unfold mmRealloc
  rw [if_neg hsize, if_pos rfl]

theorem mmRealloc_refused {h₁ : Heap} (hsize : size ≠ 0) (hptr : ptr ≠ 0)
    (hmalloc : mmMalloc lib h size = some (h₁, 0)) : mmRealloc lib h ptr size = some (h₁, 0) := by
  unfold mmRealloc
  rw [if_neg hsize, if_neg hptr, hmalloc]
  rfl

theorem mmRealloc_moved {h₁ : Heap} {newptr oldsize : ℕ} (hsize : size ≠ 0) (hptr : ptr ≠ 0)
    (hnew : newptr ≠ 0) (hmalloc : mmMalloc lib h size = some (h₁, newptr))
    (hold : h₁.getSize (hdrp ptr) = oldsize) :
    mmRealloc lib h ptr size = some (mmFree lib (memcpy h₁ newptr ptr
      (if size < oldsize then size else oldsize)) ptr, newptr) := by
  subst hold
  unfold mmRealloc
  rw [if_neg hsize, if_neg hptr, hmalloc]
  exact if_neg hnew

section Copy

variable {h₁ : Heap} {used bs : List Block} {l₁ : List ℕ} {p n k : ℕ}

/-- The new block is in use. -/
theorem Served.new_mem (hs : Served lib h used size h₁ p bs l₁ n) : ⟨p, n, true⟩ ∈ allocated bs :=
  hs.perm.mem_iff.2 List.mem_cons_self

/-- The other blocks are still in use. -/
theorem Served.old_mem (hs : Served lib h used size h₁ p bs l₁ n) (hb : b ∈ used) :
    b ∈ allocated bs := hs.perm.mem_iff.2 (List.mem_cons_of_mem _ hb)

theorem Served.new_notMem (hs : Served lib h used size h₁ p bs l₁ n) : ⟨p, n, true⟩ ∉ used :=
  (List.nodup_cons.1 (hs.perm.nodup_iff.1 hs.good.rep.layout.nodup_allocated)).1

/-- The new block and another one are two blocks. -/
theorem Served.apart (hs : Served lib h used size h₁ p bs l₁ n) (hb : b ∈ used) :
    b.base + b.size ≤ p ∨ p + n ≤ b.base := by
  have hall : ∀ c ∈ allocated bs, c ∈ allBlocks lib bs := fun c hc =>
    mem_allBlocks (mem_allocated.1 hc).1
  rcases hs.good.rep.layout.apart (hall _ hs.new_mem) (hall _ (hs.old_mem hb)) with heq | happart
  · exact absurd (heq ▸ hb) hs.new_notMem
  · simp only at happart
    omega

/-- What is copied goes to the new block, and the heap stays in order. -/
theorem Served.copied (hs : Served lib h used size h₁ p bs l₁ n) (hk : k ≤ size) (src : ℕ) :
    Good lib (memcpy h₁ p src k) bs l₁ ∧
      Wrote (Outside lib h₁.brk used) h₁.ram (memcpy h₁ p src k).ram := by
  have hroom := hs.room
  constructor
  · refine hs.good.inside (Wrote.copy fun a ha ha' => ⟨_, hs.new_mem, ha, ?_⟩)
    show a < p + n - 8
    omega
  · refine Wrote.copy fun a ha ha' => ?_
    refine hs.good.rep.layout.outside_body (fun c hc => (mem_allocated.1 (hs.old_mem hc)).1)
      (mem_allBlocks (mem_allocated.1 hs.new_mem).1) hs.new_notMem ⟨ha, ?_⟩
    show a < p + n - 8
    omega

end Copy

/-- **`mm_realloc` of a block in use.** -/
theorem mmRealloc_spec (hg : Good lib h (L ++ b :: R) l) (hb : b.alloc = true)
    (hsize : size ≤ 2147483647) (hzero : size ≠ 0) :
    ∃ h' p, mmRealloc lib h b.base size = some (h', p) ∧
      (p = 0 ∧ Unserved lib h (L ++ b :: R) l h' ∨
        ∃ bs l n, Served lib h (allocated (L ++ R)) size h' p bs l n) := by
  have hbase : b.base ≠ 0 := by
    have := hg.rep.layout.bounds (mem_allBlocks (b := b) (by simp))
    omega
  obtain ⟨h₁, p, hmalloc, hcases⟩ := mmMalloc_spec hg hsize
  rcases hcases with ⟨rfl, hno⟩ | ⟨bs, l₁, n, hserved⟩
  · exact ⟨h₁, 0, mmRealloc_refused hzero hbase hmalloc, .inl ⟨rfl, hno⟩⟩
  have hused : (allocated (L ++ b :: R)).Perm (b :: allocated (L ++ R)) := allocated_perm hb
  have hold : b ∈ allocated bs := hserved.old_mem (hused.mem_iff.2 List.mem_cons_self)
  have hgetSize := hserved.good.rep.tags.getSize hserved.good.rep.layout
    (mem_allBlocks (mem_allocated.1 hold).1)
  refine ⟨_, p, mmRealloc_moved hzero hbase hserved.ne hmalloc hgetSize, .inr ?_⟩
  generalize hk : (if size < b.size then size else b.size) = k
  obtain ⟨hgood, hcopy⟩ := hserved.copied (k := k) (by rw [← hk]; split <;> omega) b.base
  obtain ⟨L₁, R₁, rfl⟩ := List.append_of_mem (mem_allocated.1 hold).1
  obtain ⟨bs₂, l₂, hgood₂, hused₂, hsteady, -⟩ := mmFree_spec hgood hb
  -- one block in use is new, and the one that was freed is gone
  have hperm : (allocated (L₁ ++ R₁)).Perm (⟨p, n, true⟩ :: allocated (L ++ R)) := by
    have hcons := ((allocated_perm hb).symm.trans hserved.perm).trans
      ((hused.cons _).trans (.swap ..))
    exact hcons.cons_inv
  refine ⟨bs₂, l₂, n, hgood₂, hserved.ne, hserved.room, ?_, ?_, ?_⟩
  · rw [hused₂]
    exact hperm
  · rw [hsteady.brk]
    exact hserved.brk_le
  · rw [hsteady.brk]
    have hout : ∀ a, Outside lib h₁.brk (allocated (L ++ b :: R)) a →
        Outside lib h₁.brk (allocated (L ++ R)) a := fun a ha =>
      ha.mono (Nat.le_refl _) fun c hc => hused.mem_iff.2 (List.mem_cons_of_mem _ hc)
    have hout' : ∀ a, Outside lib h₁.brk (allocated (L₁ ++ R₁)) a →
        Outside lib h₁.brk (allocated (L ++ R)) a := fun a ha =>
      ha.mono (Nat.le_refl _) fun c hc => hperm.mem_iff.2 (List.mem_cons_of_mem _ hc)
    exact ((hserved.wrote.mono hout).trans (hcopy.mono hout)).trans (hsteady.wrote.mono hout')

end Realloc

/-! ### `mm_init` -/

section Init

variable {lib : Memlib} {h : Heap} {p : ℕ}

/-- The stores of `mm_init`. -/
theorem initBlocks_eq (hlistp : h.heapListp = p) (hp : p + 32 < 4294967296) :
    initBlocks h =
      { ((((((((h.put p 0).put (p + 4) 9).put (p + 8) 9).put (p + 12) 17).put (p + 16)
          (p + 16)).put (p + 20) (p + 16)).put (p + 24) 17).put (p + 28) 1) with
        heapListp := p + 8, dummyBlockp := p + 16 } := by
  have haddw : ∀ k, k ≤ 28 → addw p k = p + k := fun k hk => addw_eq (by omega)
  have h₁ : addw p (1 * wsize) = p + 4 := haddw 4 (by omega)
  have h₂ : addw p (2 * wsize) = p + 8 := haddw 8 (by omega)
  have h₃ : addw p (3 * wsize) = p + 12 := haddw 12 (by omega)
  have h₄ : addw p (4 * wsize) = p + 16 := haddw 16 (by omega)
  have h₅ : addw p (5 * wsize) = p + 20 := haddw 20 (by omega)
  have h₆ : addw p (6 * wsize) = p + 24 := haddw 24 (by omega)
  have h₇ : addw p (7 * wsize) = p + 28 := haddw 28 (by omega)
  have hprologue : pack dsize 1 = 9 := pack_one rfl
  have hdummy : pack (2 * dsize) 1 = 17 := pack_one rfl
  have hepilogue : pack 0 1 = 1 := pack_one rfl
  simp only [initBlocks, hlistp, h₁, h₂, h₃, h₄, h₅, h₆, h₇, hprologue, hdummy, hepilogue]

theorem get_initBlocks (hlistp : h.heapListp = p) (hp : p % 8 = 0) (hhi : p + 32 < 4294967296)
    {q : ℕ} (hq : q % 4 = 0) (hlo : p < q) (hlt : q < p + 32) :
    (initBlocks h).get q = if q = p + 28 then 1 else if q = p + 24 then 17 else
      if q = p + 20 then p + 16 else if q = p + 16 then p + 16
      else if q = p + 12 then 17 else 9 := by
  rw [initBlocks_eq hlistp hhi]
  show ((((((((h.put p 0).put (p + 4) 9).put (p + 8) 9).put (p + 12) 17).put (p + 16)
    (p + 16)).put (p + 20) (p + 16)).put (p + 24) 17).put (p + 28) 1).get q = _
  rw [get_put _ (by omega) hq (by omega), get_put _ (by omega) hq (by omega),
    get_put _ (by omega) hq (by omega), get_put _ (by omega) hq (by omega),
    get_put _ (by omega) hq (by omega), get_put _ (by omega) hq (by omega),
    get_put _ (by omega) hq (by omega)]
  by_cases h₈ : q = p + 8
  · simp [h₈]
  · by_cases h₄ : q = p + 4
    · simp [h₄]
    · have : q = p + 12 ∨ q = p + 16 ∨ q = p + 20 ∨ q = p + 24 ∨ q = p + 28 := by omega
      rcases this with rfl | rfl | rfl | rfl | rfl <;> simp

theorem brk_initBlocks (hlistp : h.heapListp = p) (hp : p + 32 < 4294967296) :
    (initBlocks h).brk = h.brk := by
  rw [initBlocks_eq hlistp hp]
  simp only [brk_put]

/-- The heap with no blocks but the dummy block. -/
theorem good_initBlocks (hlistp : h.heapListp = lib.start) (hbrk : h.brk = lib.start + 32)
    (hmax : lib.start + 32 ≤ lib.maxAddr) : Good lib (initBlocks h) [] [] := by
  have haligned := lib.aligned
  have hlt := lib.maxAddr_lt
  have hhi : lib.start + 32 < 4294967296 := by omega
  have hget : ∀ {q}, q % 4 = 0 → lib.start < q → q < lib.start + 32 → (initBlocks h).get q = _ :=
    fun hq hlo hlt => get_initBlocks hlistp haligned hhi hq hlo hlt
  have hbrk' : (initBlocks h).brk = lib.start + 32 := (brk_initBlocks hlistp hhi).trans hbrk
  have hdummy : (initBlocks h).dummyBlockp = lib.start + 16 := by
    rw [initBlocks_eq hlistp hhi]
  have hnode : Node (lib.start + 16) := ⟨by omega, by omega⟩
  refine ⟨⟨⟨?_, ?_, fun b hb => by cases hb⟩, ?_, hdummy, ⟨fun b hb => ?_, ?_⟩, ⟨?_, ?_, ?_⟩,
    fun p hp => by cases hp⟩, (fun b hb => by cases hb), List.isChain_nil⟩
  · rw [hbrk']
    exact hmax
  · exact hbrk'.symm
  · rw [initBlocks_eq hlistp hhi]
  · have hb' : b = prologue lib ∨ b = dummy lib := by
      simp only [allBlocks, List.mem_cons, List.not_mem_nil, or_false] at hb
      exact hb
    rcases hb' with rfl | rfl
    · constructor
      · show (initBlocks h).get (lib.start + 4) = 9
        rw [hget (by omega) (by omega) (by omega)]
        simp
      · show (initBlocks h).get (lib.start + 8) = 9
        rw [hget (by omega) (by omega) (by omega)]
        simp
    · constructor
      · show (initBlocks h).get (lib.start + 12) = 17
        rw [hget (by omega) (by omega) (by omega)]
        simp
      · show (initBlocks h).get (lib.start + 24) = 17
        rw [hget (by omega) (by omega) (by omega)]
        simp
  · rw [hbrk', hget (by omega) (by omega) (by omega)]
    simp [tag]
  · rw [hdummy]
    refine ring_nil.2 ⟨?_, ?_⟩
    · rw [getSucc_eq hnode, hget (by omega) (by omega) (by omega)]
      simp
    · show (initBlocks h).get (lib.start + 16) = lib.start + 16
      rw [hget (by omega) (by omega) (by omega)]
      simp
  · exact List.nodup_singleton _
  · intro p hp
    rw [List.mem_singleton.1 hp, hdummy]
    exact hnode

theorem mmInit_refused (hsbrk : memSbrk lib h 32 = ({ h with sbrks := h.sbrks + 1 }, minusOne)) :
    (mmInit lib h).2 = -1 := by
  unfold mmInit
  rw [show (2 + 4 + 2) * wsize = 32 from rfl, hsbrk]
  exact congrArg Prod.snd (if_pos rfl)

theorem mmInit_granted {g : Heap} (hne : h.brk ≠ minusOne)
    (hsbrk : memSbrk lib h 32 = ({ h with sbrks := h.sbrks + 1, brk := h.brk + 32 }, h.brk))
    (hg : g = initBlocks { h with sbrks := h.sbrks + 1, brk := h.brk + 32, heapListp := h.brk })
    {r : Heap × ℕ} (hextend : extendHeap lib g 1024 = r) :
    mmInit lib h = if r.2 = 0 then (r.1, -1) else (r.1, 0) := by
  subst hextend hg
  unfold mmInit
  rw [show (2 + 4 + 2) * wsize = 32 from rfl, hsbrk]
  exact if_neg hne

/-- **The heap after `mm_init` is in order**, and no block is in use. -/
theorem mmInit_spec (hbrk : h.brk = lib.start) (hok : (mmInit lib h).2 = 0) :
    ∃ bs l, Good lib (mmInit lib h).1 bs l ∧ allocated bs = [] ∧ bs ≠ [] := by
  have hlt := lib.maxAddr_lt
  rcases memSbrk_cases lib h 32 with ⟨hsbrk, -⟩ | ⟨hsbrk, -, hmax⟩
  · rw [mmInit_refused hsbrk] at hok
    cases hok
  · have hne : h.brk ≠ minusOne := by
      have : minusOne = 4294967295 := rfl
      omega
    obtain ⟨g, hg⟩ : ∃ g, g =
      initBlocks { h with sbrks := h.sbrks + 1, brk := h.brk + 32, heapListp := h.brk } := ⟨_, rfl⟩
    have hgood : Good lib g [] [] := by
      rw [hg]
      exact good_initBlocks hbrk (by rw [hbrk]) (by omega)
    have hcall := mmInit_granted (r := extendHeap lib g 1024) hne hsbrk hg rfl
    have heven : 1024 % 2 = 0 := rfl
    rcases extendHeap_spec hgood heven (mulw_eq (by omega)) (by omega) (by omega) with
      ⟨-, hrefused⟩ | ⟨-, L, m, R, l', hbase, hext⟩
    · rw [hrefused] at hcall
      rw [hcall] at hok
      cases hok
    · have hm := hext.good.rep.layout.bounds (mem_allBlocks (b := m) (by simp))
      rw [hcall, if_neg (by rw [hbase]; omega)]
      exact ⟨_, l', hext.good, (allocated_append_cons_free hext.free).trans hext.used, by simp⟩

end Init

end Malloc
