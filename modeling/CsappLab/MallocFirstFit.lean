/-
**The allocator is a first-fit allocator.**

Over the memory there is a plain description of what `mm.c` does: blocks that tile the heap, a list
of the free ones that is searched from its front, and neighbours that are joined as soon as they are
free.  Every function keeps to it step by step, and so does every run.  In particular the answers of
a run are known from its calls: what the clients write, and what was in memory before `mm_init`,
makes no difference.

Main definitions:

* `Malloc.Refines` — a heap and the state of the first-fit allocator;
* `Malloc.Call.answer`, `Malloc.answers` — the calls on that state;
* `Malloc.Run` — runs with the calls and their answers.

Main results:

* `Malloc.place_refines`, `Malloc.mmFree_refines`, `Malloc.mmMalloc_refines`,
  `Malloc.mmRealloc_refines` — **each function refines its plain description**;
* `Malloc.run_refines` — **every run does**.
-/

import CsappLab.MallocFit

set_option relaxedAutoImplicit false
set_option autoImplicit false

namespace Malloc

open ByteMem Tiling FirstFit Linked

/-! ### The plain description -/

/-- **A heap and the state of the first-fit allocator**: the same blocks, the same list. -/
structure Refines (lib : Memlib) (h : Heap) (s : Pool) : Prop where
  good : Good lib h s.blocks s.free
  brk : h.brk = s.brk
  asked : h.sbrks = s.asked

/-- What `mem_sbrk` grants. -/
def grants (lib : Memlib) (s : Pool) (n : ℕ) : Bool :=
  n < 2147483648 ∧ s.brk + n ≤ lib.maxAddr ∧ lib.grant s.asked

/-- A request for `size` bytes. -/
def request (lib : Memlib) (s : Pool) (size : ℕ) : Pool × ℕ :=
  let (s, p) := s.alloc 16 4096 (grants lib) (adjust size)
  (s, p.getD 0)

/-- A call on the state of the first-fit allocator: the state afterwards and what is returned. -/
def Call.answer (lib : Memlib) (s : Pool) : Call → Pool × ℕ
  | malloc size => if size = 0 then (s, 0) else request lib s size
  | free ptr => if ptr = 0 then (s, 0) else (s.release ptr, 0)
  | realloc ptr size =>
      if size = 0 then if ptr = 0 then (s, 0) else (s.release ptr, 0)
      else if ptr = 0 then request lib s size
      else
        let (s, p) := request lib s size
        if p = 0 then (s, 0) else (s.release ptr, p)

/-- The heap after `mm_init`. -/
def startPool (lib : Memlib) (asked : ℕ) : Pool :=
  Pool.extend { brk := lib.start + 32, asked := asked, blocks := [], free := [] } 4096

/-- The calls one after the other, and what they return. -/
def answers (lib : Memlib) : Pool → List Call → Pool × List ℕ
  | s, [] => (s, [])
  | s, c :: cs =>
      let (s, p) := c.answer lib s
      let (s, ps) := answers lib s cs
      (s, p :: ps)

/-! ### Coalescing -/

section Coalescing

variable {lib : Memlib} {h : Heap} {L R bs : List Block} {b : Block} {l : List ℕ} {s : Pool}
  {asize size p : ℕ}

/-- Blocks in a layout are not empty. -/
theorem Layout.sizes_pos {brk : ℕ} (hl : Layout lib brk bs) : ∀ x ∈ bs, 0 < x.size :=
  fun x hx => by
    have := (hl.sizes x hx).2
    omega

/-- **`coalesce` settles the block in limbo.** -/
theorem Limbo.refines (hlim : Limbo lib h L b R l) (hblocks : s.blocks = L ++ b :: R)
    (hfree : s.free = l) (hbrk : h.brk = s.brk) (hasked : h.sbrks = s.asked) :
    Refines lib (coalesce h b.base).1 (s.settle b.base) ∧
      (s.settle b.base).free.head? = some (coalesce h b.base).2 ∧
      ∃ m ∈ (s.settle b.base).blocks, m.alloc = false ∧ b.size ≤ m.size ∧
        m.base = (coalesce h b.base).2 := by
  obtain ⟨L', m, R', hbase, hgood, hm, hlo, hhi, hused, hsteady⟩ := coalesce_merges hlim
  have hlay := hlim.rep.layout
  have hlay' := hgood.rep.layout
  have htiles : Tiles (lib.start + 32) h.brk (L' ++ m :: R') := hsteady.brk ▸ hlay'.tiles
  have hpos := (hlay.sizes b (by simp)).2
  have hsettle : s.settle b.base =
      { s with blocks := L' ++ m :: R', free := m.base :: unabsorbed s.free m } := by
    refine Pool.settle_eq ?_ ?_ htiles hlay'.sizes_pos
      hgood.merged ?_ hlo (by omega)
    · rw [hblocks]
      exact hlay.tiles
    · rw [hblocks]
      exact hlay.sizes_pos
    · rw [hblocks, allocated_append_cons_free hm, allocated_append_cons_free hlim.free, hused]
  rw [hsettle, hfree]
  refine ⟨⟨hgood, ?_, ?_⟩, ?_, m, by simp, hm, by omega, hbase.symm⟩
  · rw [hsteady.brk]
    exact hbrk
  · rw [hsteady.sbrks]
    exact hasked
  · rw [hbase]
    rfl

/-- The blocks other than one start elsewhere. -/
theorem Good.others (hg : Good lib h (L ++ b :: R) l) : ∀ d ∈ L ++ R, d.base ≠ b.base :=
  fun _ hd => hg.rep.layout.base_ne hd

/-- **`mm_free`** of a block in use. -/
theorem mmFree_refines (hr : Refines lib h s) (hblocks : s.blocks = L ++ b :: R)
    (hb : b.alloc = true) : Refines lib (mmFree lib h b.base) (s.release b.base) := by
  have hg := hr.good
  rw [hblocks] at hg
  have hlay := hg.rep.layout
  have hball : b ∈ allBlocks lib (L ++ b :: R) := mem_allBlocks (by simp)
  have hbounds := hlay.bounds hball
  have hinit := hg.rep.heapListp
  have hlim := hg.release hb
  rw [mmFree_eq lib (by omega) (by omega) (hg.rep.tags.getSize hlay hball)]
  have hsubst : subst s.blocks b.base (fun b => [⟨b.base, b.size, false⟩]) =
      L ++ ⟨b.base, b.size, false⟩ :: R := by
    rw [hblocks, subst_eq hg.others]
    rfl
  refine (hlim.refines (s := { s with
    blocks := subst s.blocks b.base (fun b => [⟨b.base, b.size, false⟩]) }) hsubst rfl ?_ ?_).1
  · rw [brk_putTags]
    exact hr.brk
  · rw [sbrks_putTags]
    exact hr.asked

/-- **`place`** on a free block that is long enough. -/
theorem place_refines (hr : Refines lib h s) (hblocks : s.blocks = L ++ b :: R)
    (hb : b.alloc = false) (hasize : asize % 8 = 0) (hasize' : 16 ≤ asize) (hle : asize ≤ b.size) :
    Refines lib (place h b.base asize) (s.place 16 b.base asize) := by
  have hg := hr.good
  rw [hblocks] at hg
  have hlay := hg.rep.layout
  have hball : b ∈ allBlocks lib (L ++ b :: R) := mem_allBlocks (by simp)
  have hbounds := hlay.bounds hball
  have hsize := hg.rep.tags.getSize hlay hball
  have hsub : subw b.size asize = b.size - asize := subw_eq hle (by omega)
  have hof : blockOf s.blocks b.base = some b := by
    rw [hblocks]
    exact blockOf_eq fun d hd => hg.others d (List.mem_append_left R hd)
  by_cases hcut : asize + 16 ≤ b.size
  · obtain ⟨l₁, rfl, hlim, htagged, hsteady⟩ := hg.place_cut hb
      (hlay.cut hasize hasize' (by omega) true false) rfl rfl rfl
    simp only [shortened, Bool.toNat_true, Bool.toNat_false] at hlim htagged hsteady
    have hnext : (removeFromFreeList (putTags h b.base asize 1) b.base).nextBlkp b.base =
        b.base + asize := by
      rw [nextBlkp_def, hdrp_eq (by omega) (by omega),
        getSize_of_tag hasize (by omega) htagged.header, addw_eq (by omega)]
    rw [place_eq_cut hsize (by omega) rfl, hnext, hsub]
    have hplace : s.place 16 b.base asize = Pool.settle
        { s with
          blocks := L ++ [⟨b.base, asize, true⟩] ++ ⟨b.base + asize, b.size - asize, false⟩ :: R
          free := s.free.filter fun q => q ≠ b.base } (b.base + asize) := by
      unfold Pool.place
      rw [hof]
      dsimp only
      rw [if_pos hcut, hblocks, subst_eq hg.others, List.append_assoc]
      rfl
    rw [hplace]
    refine (hlim.refines rfl rfl ?_ ?_).1
    · rw [hsteady.brk]
      exact hr.brk
    · rw [hsteady.sbrks]
      exact hr.asked
  · obtain ⟨hgood, hsteady⟩ := hg.use_whole hb
    rw [place_eq_whole hsize (by omega)]
    have hplace : s.place 16 b.base asize =
        { s with
          blocks := L ++ ⟨b.base, b.size, true⟩ :: R
          free := s.free.filter fun q => q ≠ b.base } := by
      unfold Pool.place
      rw [hof]
      dsimp only
      rw [if_neg hcut, hblocks, subst_eq hg.others]
      rfl
    rw [hplace]
    exact ⟨hgood, hsteady.brk.trans hr.brk, hsteady.sbrks.trans hr.asked⟩

/-! ### Searching and growing -/

/-- The loop of `find_fit` stops at the first block on the list that is long enough. -/
theorem fitLoop_find {l₁ l₂ : List ℕ} {fuel : ℕ} (hl : Links h (l₁ ++ l₂))
    (hfuel : l₂.length ≤ fuel) :
    fitLoop h asize fuel (headOf h.dummyBlockp l₂) =
      some ((l₂.find? fun p => asize ≤ h.getSize (hdrp p)).getD 0) := by
  induction l₂ generalizing l₁ fuel with
  | nil =>
      unfold fitLoop
      exact if_pos rfl
  | cons p l₂ ih =>
      have hp : p ≠ h.dummyBlockp := by
        rintro rfl
        exact (List.nodup_cons.1 hl.nodup).1 (by simp)
      have hnext : h.getSucc p = headOf h.dummyBlockp l₂ := hl.ring.next_node
      cases fuel with
      | zero => cases hfuel
      | succ fuel =>
          rw [headOf_cons, fitLoop, if_neg hp]
          by_cases hfit : asize ≤ h.getSize (hdrp p)
          · rw [if_pos hfit, List.find?_cons_of_pos (by simpa using hfit)]
            rfl
          · have hl' : Links h (l₁ ++ [p] ++ l₂) := by
              rw [List.append_assoc]
              exact hl
            rw [if_neg hfit, hnext, List.find?_cons_of_neg (by simpa using hfit)]
            exact ih hl' (Nat.le_of_succ_le_succ hfuel)

/-- **`find_fit`** finds what the plain search does. -/
theorem findFit_refines (hr : Refines lib h s) :
    findFit h asize = some ((s.fit asize).getD 0) := by
  have hg := hr.good
  have hlinks : Links h ([] ++ s.free) := hg.rep.links
  rw [findFit, hg.rep.links.ring.next_dummy, fitLoop_find hlinks hg.length_le, Pool.fit,
    ← List.head?_filter, ← List.head?_filter]
  refine congrArg (fun l : List ℕ => some (l.head?.getD 0)) (List.filter_congr fun p hp => ?_)
  obtain ⟨b, hb, rfl⟩ := hg.rep.listed p hp
  rw [hg.rep.tags.getSize hg.rep.layout (mem_allBlocks hb)]
  obtain ⟨L, R, hblocks⟩ := List.append_of_mem hb
  rw [hblocks] at hg
  rw [hblocks, blockOf_eq fun d hd => hg.others d (List.mem_append_left R hd)]
  rfl

/-- What is found is a free block that is long enough. -/
theorem Refines.of_fit (hr : Refines lib h s) (hfit : s.fit asize = some p) :
    ∃ L b R, s.blocks = L ++ b :: R ∧ b.alloc = false ∧ asize ≤ b.size ∧ b.base = p := by
  have hg := hr.good
  have hmem := List.mem_of_find?_eq_some hfit
  have hlong := List.find?_some hfit
  obtain ⟨b, hb, rfl⟩ := hg.rep.listed p hmem
  have hfree := (hg.sync b hb).2 hmem
  obtain ⟨L, R, hblocks⟩ := List.append_of_mem hb
  rw [hblocks] at hg
  rw [hblocks, blockOf_eq fun d hd => hg.others d (List.mem_append_left R hd)] at hlong
  exact ⟨L, b, R, hblocks, hfree, by simpa using hlong, rfl⟩

/-- `mem_sbrk` grants what it is said to. -/
theorem memSbrk_refines (hr : Refines lib h s) (size : ℕ) :
    memSbrk lib h size =
      if grants lib s size then ({ h with sbrks := h.sbrks + 1, brk := h.brk + size }, h.brk)
      else ({ h with sbrks := h.sbrks + 1 }, minusOne) := by
  have hiff : (2147483648 ≤ size ∨ lib.maxAddr < h.brk + size ∨ lib.grant h.sbrks = false) ↔
      ¬ grants lib s size = true := by
    rw [grants, decide_eq_true_eq, hr.brk, hr.asked]
    cases lib.grant s.asked with
    | false => simp
    | true =>
        simp only [Bool.true_eq_false, or_false, and_true]
        omega
  unfold memSbrk
  by_cases hgrant : grants lib s size = true
  · rw [if_pos hgrant, if_neg fun hno => hiff.1 hno hgrant]
  · rw [if_neg hgrant, if_pos (hiff.2 hgrant)]

/-- **`extend_heap`**: the interval grows by a free block, and the block that is returned is the
first on the list. -/
theorem extendHeap_refines {words : ℕ} (hr : Refines lib h s) (hwords : words % 2 = 0)
    (hsize : mulw words 4 = size) (hsize₈ : size % 8 = 0) (hsize' : 16 ≤ size) :
    (grants lib s size = true → Refines lib (extendHeap lib h words).1 (s.extend size) ∧
        (s.extend size).free.head? = some (extendHeap lib h words).2 ∧
        ∃ m ∈ (s.extend size).blocks, m.alloc = false ∧ size ≤ m.size ∧
          m.base = (extendHeap lib h words).2) ∧
      (grants lib s size = false →
        extendHeap lib h words = ({ h with sbrks := h.sbrks + 1 }, 0)) := by
  have hg := hr.good
  have hbrk := hg.rep.layout.brk_bounds
  have hsbrk := memSbrk_refines hr size
  constructor
  · intro hgrant
    rw [if_pos hgrant] at hsbrk
    rw [grants, decide_eq_true_eq] at hgrant
    have hmax : h.brk + size ≤ lib.maxAddr := hr.brk ▸ hgrant.2.1
    have hbrk' := (hg.rep.layout.extend hsize₈ hsize' hmax).brk_bounds
    rw [extendHeap_granted hwords hsize (by omega) (by omega) hsize₈ (by omega) (by omega) hsbrk]
    have hlim := hg.grown hsize₈ hsize' hmax
    rw [Pool.extend, ← hr.brk]
    refine hlim.refines rfl rfl (brk_grown ..) ?_
    rw [← hr.asked]
    exact (sbrks_put ..).trans (sbrks_putTags ..)
  · intro hno
    rw [if_neg (by simp [hno])] at hsbrk
    exact extendHeap_refused hwords hsize hsbrk

/-- **`mm_malloc`** for a request of at least one byte. -/
theorem mmMalloc_refines (hr : Refines lib h s) (hsize : size ≤ 4294967280) (hzero : size ≠ 0) :
    ∃ h', mmMalloc lib h size = some (h', (request lib s size).2) ∧
      Refines lib h' (request lib s size).1 := by
  have hinit : h.heapListp ≠ 0 := by
    have := hr.good.rep.heapListp
    omega
  obtain ⟨h₁, h₂, h₃, h₄⟩ := adjust_spec hsize
  have hfit : findFit h (adjust size) = some ((s.fit (adjust size)).getD 0) :=
    findFit_refines hr
  cases hsearch : s.fit (adjust size) with
  | some p =>
      obtain ⟨L, b, R, hblocks, hb, hle, rfl⟩ := hr.of_fit hsearch
      have hlay := hr.good.rep.layout
      have hbounds := hlay.bounds (b := b) (mem_allBlocks (by simp [hblocks]))
      rw [hsearch] at hfit
      have hrequest : request lib s size = (s.place 16 b.base (adjust size), b.base) := by
        simp only [request, Pool.alloc, hsearch, Option.getD_some]
      rw [hrequest]
      exact ⟨_, mmMalloc_found hinit hzero hfit (by omega), place_refines hr hblocks hb h₁ h₂ hle⟩
  | none =>
      rw [hsearch] at hfit
      obtain ⟨esize, hesize⟩ : ∃ n, max (adjust size) 4096 = n := ⟨_, rfl⟩
      have hwords : mulw (esize / 4) 4 = esize := by
        rw [mulw_eq (by omega)]
        omega
      have hcall := mmMalloc_grown hinit hzero hfit hesize
        (rfl : extendHeap lib h (esize / 4) = _)
      obtain ⟨hyes, hno⟩ := extendHeap_refines hr (by omega) hwords (by omega) (by omega)
      cases hgrant : grants lib s esize with
      | true =>
          obtain ⟨hr', hhead, m, hm, hfree, hlong, hbase⟩ := hyes hgrant
          obtain ⟨L, R, hblocks⟩ := List.append_of_mem hm
          have hbounds := hr'.good.rep.layout.bounds (mem_allBlocks hm)
          have hrequest : request lib s size =
              ((s.extend esize).place 16 m.base (adjust size), m.base) := by
            simp only [request, Pool.alloc, hsearch, hesize, hgrant, if_true, hhead, ← hbase,
              Option.getD_some]
          rw [hrequest]
          rw [← hbase, if_neg (by omega)] at hcall
          exact ⟨_, hcall, place_refines hr' hblocks hfree h₁ h₂ (by omega)⟩
      | false =>
          have hrequest : request lib s size = ({ s with asked := s.asked + 1 }, 0) := by
            simp only [request, Pool.alloc, hsearch, hesize, hgrant, Bool.false_eq_true, if_false,
              Option.getD_none]
          rw [hrequest]
          rw [hno hgrant] at hcall
          refine ⟨_, hcall.trans (if_pos rfl), hr.good.refused, hr.brk, ?_⟩
          show h.sbrks + 1 = s.asked + 1
          rw [hr.asked]

/-! ### Calls -/

/-- The blocks of a heap in order can be read from its memory. -/
theorem Tags.blocks_eq {cs ds : List Block} {lo : ℕ} {x y : List Block} (htx : Tags lib h x)
    (hlx : Layout lib h.brk x) (hty : Tags lib h y) (hly : Layout lib h.brk y)
    (hcs : Tiles lo h.brk cs) (hds : Tiles lo h.brk ds) (hcx : ∀ c ∈ cs, c ∈ x)
    (hdy : ∀ d ∈ ds, d ∈ y) : cs = ds := by
  induction cs generalizing ds lo with
  | nil =>
      cases ds with
      | nil => rfl
      | cons d ds =>
          have hpos := hly.sizes_pos d (hdy d List.mem_cons_self)
          have hle := (hds.mem_bounds List.mem_cons_self).2
          have hend : lo = h.brk := hcs
          have := hds.1
          omega
  | cons c cs ih =>
      have hc : c ∈ allBlocks lib x := mem_allBlocks (hcx c List.mem_cons_self)
      cases ds with
      | nil =>
          have hpos := hlx.sizes_pos c (hcx c List.mem_cons_self)
          have hle := (hcs.mem_bounds List.mem_cons_self).2
          have hend : lo = h.brk := hds
          have := hcs.1
          omega
      | cons d ds =>
          have hd : d ∈ allBlocks lib y := mem_allBlocks (hdy d List.mem_cons_self)
          have hbase : c.base = d.base := hcs.1.trans hds.1.symm
          have hsize : c.size = d.size := by
            rw [← htx.getSize hlx hc, ← hty.getSize hly hd, hbase]
          have halloc : c.alloc = d.alloc := by
            have hbits := htx.getAlloc hlx hc
            rw [hbase, hty.getAlloc hly hd] at hbits
            cases hx : c.alloc <;> cases hy : d.alloc <;> simp [hx, hy] at hbits ⊢
          have hcd : c = d := by
            cases c
            cases d
            simp only [Block.mk.injEq]
            exact ⟨hbase, hsize, halloc⟩
          subst hcd
          exact congrArg _ (ih hcs.2 hds.2 (fun e he => hcx e (List.mem_cons_of_mem _ he))
            fun e he => hdy e (List.mem_cons_of_mem _ he))

theorem Good.blocks_eq {bs' : List Block} {l' : List ℕ} (hg : Good lib h bs l)
    (hg' : Good lib h bs' l') : bs = bs' :=
  hg.rep.tags.blocks_eq hg.rep.layout hg'.rep.tags hg'.rep.layout hg.rep.layout.tiles
    hg'.rep.layout.tiles (fun _ hc => hc) fun _ hd => hd

/-- What is written inside of blocks in use makes no difference. -/
theorem Refines.inside {r : Ram} (hr : Refines lib h s)
    (hw : Wrote (Inside (allocated s.blocks)) h.ram r) : Refines lib { h with ram := r } s where
  good := hr.good.inside hw
  brk := hr.brk
  asked := hr.asked

/-- **`mm_realloc`** of a block in use. -/
theorem mmRealloc_refines (hr : Refines lib h s) (hblocks : s.blocks = L ++ b :: R)
    (hb : b.alloc = true) (hsize : size ≤ 2147483647) (hzero : size ≠ 0) :
    ∃ h', mmRealloc lib h b.base size = some (h', ((Call.realloc b.base size).answer lib s).2) ∧
      Refines lib h' ((Call.realloc b.base size).answer lib s).1 := by
  have hball : b ∈ allBlocks lib s.blocks := mem_allBlocks (by simp [hblocks])
  have hbounds := hr.good.rep.layout.bounds hball
  have hbase : b.base ≠ 0 := by omega
  have hused : b ∈ allocated s.blocks := mem_allocated.2 ⟨by simp [hblocks], hb⟩
  obtain ⟨h₁, hmalloc, hr₁⟩ := mmMalloc_refines hr (by omega : size ≤ 4294967280) hzero
  have hanswer : (Call.realloc b.base size).answer lib s =
      if (request lib s size).2 = 0 then ((request lib s size).1, 0)
      else ((request lib s size).1.release b.base, (request lib s size).2) := by
    simp only [Call.answer, if_neg hzero, if_neg hbase]
  rw [hanswer]
  by_cases hnull : (request lib s size).2 = 0
  · rw [if_pos hnull]
    rw [hnull] at hmalloc
    exact ⟨h₁, mmRealloc_refused hzero hbase hmalloc, hr₁⟩
  · rw [if_neg hnull]
    -- the old block is still in use, and what is copied goes to the new one
    obtain ⟨h₂, p, hspec, ⟨hno, -⟩ | ⟨bs', l', n, hserved⟩⟩ := mmMalloc_spec hr.good hsize
    · rw [hmalloc] at hspec
      obtain ⟨-, rfl⟩ := Prod.mk.inj (Option.some.inj hspec)
      exact absurd hno hnull
    rw [hmalloc] at hspec
    obtain ⟨rfl, rfl⟩ := Prod.mk.inj (Option.some.inj hspec)
    obtain rfl : bs' = (request lib s size).1.blocks := hserved.good.blocks_eq hr₁.good
    have hold := hserved.old_mem hused
    have hgetSize := hr₁.good.rep.tags.getSize hr₁.good.rep.layout
      (mem_allBlocks (mem_allocated.1 hold).1)
    refine ⟨_, mmRealloc_moved hzero hbase hnull hmalloc hgetSize, ?_⟩
    obtain ⟨L₁, R₁, hblocks₁⟩ := List.append_of_mem (mem_allocated.1 hold).1
    have hroom := hserved.room
    refine mmFree_refines (hr₁.inside (Wrote.copy fun a ha ha' => ⟨_, hserved.new_mem, ha, ?_⟩))
      hblocks₁ hb
    show a < (request lib s size).2 + n - 8
    split at ha' <;> omega

end Coalescing

/-- **A valid call refines its plain description.** -/
theorem call_refines {lib : Memlib} {h : Heap} {s : Pool} {live : List (ℕ × ℕ)} {c : Call}
    (hr : Refines lib h s) (hh : Holds live (allocated s.blocks)) (hvalid : c.Valid live) :
    ∃ h', c.run lib h = some (h', (c.answer lib s).2) ∧ Refines lib h' (c.answer lib s).1 := by
  obtain ⟨hsize, hptr⟩ := hvalid
  have hinit : h.heapListp ≠ 0 := by
    have := hr.good.rep.heapListp
    omega
  have hmalloc : ∀ size ≤ 2147483647, size ≠ 0 → ∃ h',
      mmMalloc lib h size = some (h', (request lib s size).2) ∧
        Refines lib h' (request lib s size).1 :=
    fun size hmax hzero => mmMalloc_refines hr (by omega) hzero
  have hfree : ∀ ptr, (ptr = 0 ∨ ∃ q ∈ live, q.1 = ptr) →
      Refines lib (mmFree lib h ptr) (if ptr = 0 then s else s.release ptr) := by
    rintro ptr (rfl | ⟨q, hq, rfl⟩)
    · exact hr
    · obtain ⟨b, hb, hbase, -⟩ := hh.room q hq
      obtain ⟨hmem, halloc⟩ := mem_allocated.1 hb
      obtain ⟨L, R, hblocks⟩ := List.append_of_mem hmem
      have hbounds := hr.good.rep.layout.bounds (mem_allBlocks hmem)
      rw [← hbase, if_neg (by omega)]
      exact mmFree_refines hr hblocks halloc
  cases c with
  | malloc size =>
      by_cases hzero : size = 0
      · subst hzero
        exact ⟨h, mmMalloc_zero hinit, hr⟩
      · simp only [Call.answer, if_neg hzero]
        exact hmalloc size hsize hzero
  | free ptr =>
      have hanswer : (Call.free ptr).answer lib s =
          (if ptr = 0 then s else s.release ptr, 0) := by
        simp only [Call.answer]
        split <;> rfl
      rw [hanswer]
      exact ⟨_, rfl, hfree ptr hptr⟩
  | realloc ptr size =>
      by_cases hzero : size = 0
      · subst hzero
        have hanswer : (Call.realloc ptr 0).answer lib s =
            (if ptr = 0 then s else s.release ptr, 0) := by
          simp only [Call.answer, if_true]
          split <;> rfl
        rw [hanswer]
        exact ⟨_, mmRealloc_zero lib h ptr, hfree ptr hptr⟩
      rcases hptr with hnull | ⟨q, hq, hqp⟩
      · obtain rfl : ptr = 0 := hnull
        obtain ⟨h', hrun, hr'⟩ := hmalloc size hsize hzero
        simp only [Call.answer, if_neg hzero, if_true]
        exact ⟨h', (mmRealloc_null lib h hzero).trans hrun, hr'⟩
      · obtain ⟨b, hb, hbase, -⟩ := hh.room q hq
        obtain ⟨hmem, halloc⟩ := mem_allocated.1 hb
        obtain ⟨L, R, hblocks⟩ := List.append_of_mem hmem
        obtain rfl : b.base = ptr := hbase.trans hqp
        exact mmRealloc_refines hr hblocks halloc hsize hzero

/-! ### Runs -/

/-- **`mm_init`**: the heap is one free block. -/
theorem mmInit_refines {lib : Memlib} {h : Heap} (hbrk : h.brk = lib.start)
    (hok : (mmInit lib h).2 = 0) :
    Refines lib (mmInit lib h).1 (startPool lib (h.sbrks + 1)) := by
  have hlt := lib.maxAddr_lt
  rcases memSbrk_cases lib h 32 with ⟨hsbrk, -⟩ | ⟨hsbrk, -, hmax⟩
  · rw [mmInit_refused hsbrk] at hok
    cases hok
  have hne : h.brk ≠ minusOne := by
    have : minusOne = 4294967295 := rfl
    omega
  obtain ⟨g, hg⟩ : ∃ g, g =
    initBlocks { h with sbrks := h.sbrks + 1, brk := h.brk + 32, heapListp := h.brk } := ⟨_, rfl⟩
  have hhi : h.brk + 32 < 4294967296 := by omega
  have hrefines : Refines lib g
      { brk := lib.start + 32, asked := h.sbrks + 1, blocks := [], free := [] } := by
    rw [hg]
    refine ⟨good_initBlocks hbrk (by rw [hbrk]) (by omega), ?_, ?_⟩
    · rw [brk_initBlocks rfl hhi, hbrk]
    · rw [initBlocks_eq rfl hhi]
      simp only [sbrks_put]
  have hcall := mmInit_granted (r := extendHeap lib g 1024) hne hsbrk hg rfl
  have heven : 1024 % 2 = 0 := rfl
  obtain ⟨hyes, hno⟩ := extendHeap_refines hrefines heven (mulw_eq (by omega)) (by omega) (by omega)
  cases hgrant : grants lib ⟨lib.start + 32, h.sbrks + 1, [], []⟩ (1024 * 4) with
  | true =>
      obtain ⟨hr, -, m, hm, -, -, hbase⟩ := hyes hgrant
      have hbounds := hr.good.rep.layout.bounds (mem_allBlocks hm)
      rw [hcall, if_neg (by omega)]
      exact hr
  | false =>
      rw [hno hgrant] at hcall
      rw [hcall] at hok
      cases hok

/-- **Runs**, with the calls and what they returned. -/
inductive Run (lib : Memlib) (h₀ : Heap) : State → List (Call × ℕ) → Prop
  | init (hbrk : h₀.brk = lib.start) (hok : (mmInit lib h₀).2 = 0) :
      Run lib h₀ ⟨(mmInit lib h₀).1, []⟩ []
  | call {s : State} {tr : List (Call × ℕ)} {c : Call} {h : Heap} {p : ℕ} (hs : Run lib h₀ s tr)
      (hvalid : c.Valid s.live) (hrun : c.run lib s.heap = some (h, p)) :
      Run lib h₀ ⟨h, c.after s.live p⟩ (tr ++ [(c, p)])
  | write {s : State} {tr : List (Call × ℕ)} {q : ℕ × ℕ} {a : ℕ} (v : UInt8)
      (hs : Run lib h₀ s tr) (hq : q ∈ s.live) (hlo : q.1 ≤ a) (hhi : a < q.1 + q.2) :
      Run lib h₀ ⟨{ s.heap with ram := s.heap.ram.setByte a v }, s.live⟩ tr

theorem Run.reach {lib : Memlib} {h₀ : Heap} {s : State} {tr : List (Call × ℕ)}
    (hs : Run lib h₀ s tr) : Reach lib h₀ s := by
  induction hs with
  | init hbrk hok => exact .init hbrk hok
  | call _ hvalid hrun ih => exact .call ih hvalid hrun
  | write v _ hq hlo hhi ih => exact .write v ih hq hlo hhi

theorem answers_snoc (lib : Memlib) (s : Pool) (cs : List Call) (c : Call) :
    answers lib s (cs ++ [c]) = ((c.answer lib (answers lib s cs).1).1,
      (answers lib s cs).2 ++ [(c.answer lib (answers lib s cs).1).2]) := by
  induction cs generalizing s with
  | nil => rfl
  | cons d cs ih => simp only [List.cons_append, answers, ih]

/-- **The allocator is a first-fit allocator**: the answers of a run are those of the plain
description for the same calls, and the heap has its blocks and its list. -/
theorem run_refines {lib : Memlib} {h₀ : Heap} {s : State} {tr : List (Call × ℕ)}
    (hs : Run lib h₀ s tr) :
    (answers lib (startPool lib (h₀.sbrks + 1)) (tr.map Prod.fst)).2 = tr.map Prod.snd ∧
      Refines lib s.heap (answers lib (startPool lib (h₀.sbrks + 1)) (tr.map Prod.fst)).1 := by
  induction hs with
  | init hbrk hok => exact ⟨rfl, mmInit_refines hbrk hok⟩
  | @call s tr c h p hs hvalid hrun ih =>
      obtain ⟨hsame, hr⟩ := ih
      obtain ⟨bs, l, hg, hh⟩ := hs.reach.inv
      obtain rfl := hg.blocks_eq hr.good
      obtain ⟨h', hrun', hr'⟩ := call_refines hr hh hvalid
      obtain ⟨rfl, rfl⟩ := Prod.mk.inj (Option.some.inj (hrun'.symm.trans hrun))
      rw [List.map_append, List.map_append, List.map_singleton, List.map_singleton, answers_snoc]
      exact ⟨congrArg (· ++ _) hsame, hr'⟩
  | write v hs hq hlo hhi ih =>
      obtain ⟨hsame, hr⟩ := ih
      obtain ⟨bs, l, hg, hh⟩ := hs.reach.inv
      obtain rfl := hg.blocks_eq hr.good
      obtain ⟨b, hb, hbase, hroom⟩ := hh.room _ hq
      exact ⟨hsame, hr.inside (Wrote.setByte ⟨b, hb, by omega, by omega⟩)⟩

/-- Some calls one after the other, with what they return; no result when one of them is not valid,
or does not return. -/
def record (lib : Memlib) : State → List Call → Option (State × List (Call × ℕ))
  | s, [] => some (s, [])
  | s, c :: cs =>
      if c.Valid s.live then
        match c.run lib s.heap with
        | none => none
        | some (h, p) => (record lib ⟨h, c.after s.live p⟩ cs).map fun r => (r.1, (c, p) :: r.2)
      else none

theorem Run.record {lib : Memlib} {h₀ : Heap} {s s' : State} {tr tr' : List (Call × ℕ)}
    {cs : List Call} (hs : Run lib h₀ s tr) (hrecord : record lib s cs = some (s', tr')) :
    Run lib h₀ s' (tr ++ tr') := by
  induction cs generalizing s tr tr' with
  | nil =>
      obtain ⟨rfl, rfl⟩ := Prod.mk.inj (Option.some.inj hrecord)
      rw [List.append_nil]
      exact hs
  | cons c cs ih =>
      rw [Malloc.record] at hrecord
      split at hrecord
      · rename_i hvalid
        split at hrecord
        · cases hrecord
        · rename_i h p hrun
          obtain ⟨⟨s₁, tr₁⟩, hrest, heq⟩ := Option.map_eq_some_iff.1 hrecord
          obtain ⟨rfl, rfl⟩ := Prod.mk.inj heq
          have hrun' := ih (hs.call hvalid hrun) hrest
          rw [List.append_assoc] at hrun'
          exact hrun'
      · cases hrecord

/-- Four calls: a block is given back, and the next request is served from it. -/
theorem run_refines_four : ∃ s, Run plentiful fresh s
      [(.malloc 10, 32), (.malloc 20, 56), (.free 32, 0), (.malloc 8, 32)] ∧
    (answers plentiful (startPool plentiful (fresh.sbrks + 1))
      [.malloc 10, .malloc 20, .free 32, .malloc 8]).2 = [32, 56, 0, 32] ∧
    Refines plentiful s.heap (answers plentiful (startPool plentiful (fresh.sbrks + 1))
      [.malloc 10, .malloc 20, .free 32, .malloc 8]).1 := by
  have hrecord : (record plentiful ⟨(mmInit plentiful fresh).1, []⟩
      [.malloc 10, .malloc 20, .free 32, .malloc 8]).map Prod.snd =
        some [(.malloc 10, 32), (.malloc 20, 56), (.free 32, 0), (.malloc 8, 32)] := by
    decide +kernel
  obtain ⟨⟨s, tr⟩, hs, rfl⟩ := Option.map_eq_some_iff.1 hrecord
  have hinit : Run plentiful fresh ⟨(mmInit plentiful fresh).1, []⟩ [] :=
    .init rfl (by decide +kernel)
  have hrun := hinit.record hs
  exact ⟨s, hrun, run_refines hrun⟩

/-! ### Runs that were started again -/

section Recount

variable {lib : Memlib} (hgrant : ∀ k, lib.grant k = true)
include hgrant

theorem request_recount (s : Pool) (n size : ℕ) : ∃ m, request lib (s.recount n) size =
    ((request lib s size).1.recount m, (request lib s size).2) := by
  have hgrants : ∀ k, grants lib (s.recount n) k = grants lib s k := fun k => by
    simp only [grants, hgrant, Pool.recount]
  obtain ⟨m, hm⟩ : ∃ m, (s.recount n).alloc 16 4096 (grants lib) (adjust size) =
      ((s.alloc 16 4096 (grants lib) (adjust size)).1.recount m,
        (s.alloc 16 4096 (grants lib) (adjust size)).2) := Pool.alloc_recount hgrants _
  exact ⟨m, by simp only [request, hm]⟩

/-- **The answer to a call** is the same, if memory is granted for every request. -/
theorem answer_recount (s : Pool) (n : ℕ) (c : Call) : ∃ m, c.answer lib (s.recount n) =
    ((c.answer lib s).1.recount m, (c.answer lib s).2) := by
  cases c with
  | malloc size =>
      simp only [Call.answer]
      split
      · exact ⟨n, rfl⟩
      · exact request_recount hgrant s n size
  | free ptr =>
      simp only [Call.answer, Pool.release_recount]
      split <;> exact ⟨n, rfl⟩
  | realloc ptr size =>
      obtain ⟨m, hm⟩ := request_recount hgrant s n size
      simp only [Call.answer, hm, Pool.release_recount]
      split
      · split <;> exact ⟨n, rfl⟩
      · split
        · exact ⟨m, rfl⟩
        · split <;> exact ⟨m, rfl⟩

end Recount

theorem startPool_recount (lib : Memlib) (m n : ℕ) :
    startPool lib m = (startPool lib n).recount (m + 1) :=
  Pool.extend_recount { brk := lib.start + 32, asked := n, blocks := [], free := [] } m 4096

theorem startPool_brk (lib : Memlib) (n : ℕ) : (startPool lib n).brk = lib.start + 4128 :=
  Pool.settle_brk _ _

end Malloc
