/-
**Where a request is served from.**

`mm_malloc` adjusts the size, searches the free list and, if that fails, asks for more memory.  The
search sees every free block of the heap, so that memory is asked for only when no free block fits,
and then once.  The adjusted size is computed with 32 bits; for sizes close to the end of the range
the sum wraps, and the request is served with a block that is too small.

Main definitions:

* `Malloc.FreeBlock`, `Malloc.Fits` — a free block of the heap, and one that is long enough;
* `Malloc.FromFree`, `Malloc.FromSbrk` — the request is served without, or with, new memory;
* `Malloc.innerCalls`, `Malloc.NoWrap` — the calls of `find_fit` and `place`, and that no size
  wraps.

Main results:

* `Malloc.mmMalloc_exhaustion` — **a request is served from the free blocks if one of them fits**,
  and otherwise memory is asked for once;
* `Malloc.noWrap_iff` — **for which sizes no computation wraps**;
* `Malloc.size_wraps` — one for which it does.
-/

import CsappLab.MallocClient

set_option relaxedAutoImplicit false
set_option autoImplicit false

namespace Malloc

open Tiling

/-! ### The free blocks of a heap -/

/-- A free block of the heap, wherever it is. -/
def FreeBlock (h : Heap) (p : ℕ) : Prop :=
  ∃ ps, Walk h h.heapListp ps h.brk ∧ p ∈ ps ∧ h.getAlloc (hdrp p) = 0

/-- A free block that is long enough. -/
def Fits (h : Heap) (asize p : ℕ) : Prop := FreeBlock h p ∧ asize ≤ h.getSize (hdrp p)

section Fits

variable {lib : Memlib} {h : Heap} {bs cs : List Block} {l : List ℕ} {ps : List ℕ}
  {lo asize p : ℕ}

/-- There is only one way to walk through the heap. -/
theorem Tags.walk_unique (ht : Tags lib h bs) (hl : Layout lib h.brk bs) (hcs : Tiles lo h.brk cs)
    (hmem : ∀ c ∈ cs, c ∈ allBlocks lib bs) (hwalk : Walk h lo ps h.brk) :
    ps = cs.map Block.base := by
  induction cs generalizing lo ps with
  | nil =>
      obtain rfl : lo = h.brk := hcs
      cases ps with
      | nil => rfl
      | cons q ps =>
          -- the epilogue has size zero
          obtain ⟨-, hpos, -⟩ := hwalk
          have hbrk := hl.brk_bounds
          rw [hdrp_eq (by omega) (by omega), getSize_of_tag rfl (by omega) ht.epilogue] at hpos
          cases hpos
  | cons c cs ih =>
      obtain ⟨rfl, hrest⟩ := hcs
      have hc := hmem c List.mem_cons_self
      have hbounds := hl.bounds hc
      cases ps with
      | nil =>
          obtain hend : c.base = h.brk := hwalk
          have := hrest.le
          omega
      | cons q ps =>
          obtain ⟨rfl, -, -, hwalk⟩ := hwalk
          rw [ht.nextBlkp hl hc] at hwalk
          rw [List.map_cons, ih hrest (fun d hd => hmem d (List.mem_cons_of_mem _ hd)) hwalk]

/-- The free blocks, in terms of the blocks of the heap. -/
theorem Good.freeBlock_iff (hg : Good lib h bs l) :
    FreeBlock h p ↔ ∃ b ∈ bs, b.alloc = false ∧ b.base = p := by
  have hl := hg.rep.layout
  have hwalk := hg.wellFormed.walk
  constructor
  · rintro ⟨ps, hps, hp, hfree⟩
    rw [hg.rep.heapListp] at hps
    obtain rfl := hg.rep.tags.walk_unique hl hl.tiles_all (fun c hc => hc) hps
    -- the list has exactly the free blocks
    have hlisted : p ∈ l := (hg.wellFormed.free_iff p).2 ⟨hp, hfree⟩
    obtain ⟨b, hb, rfl⟩ := hg.rep.listed p hlisted
    exact ⟨b, hb, (hg.sync b hb).2 hlisted, rfl⟩
  · rintro ⟨b, hb, hfree, rfl⟩
    refine ⟨_, hwalk, List.mem_map_of_mem (mem_allBlocks hb), ?_⟩
    rw [hg.rep.tags.getAlloc hl (mem_allBlocks hb), hfree]
    rfl

theorem Good.fits_iff (hg : Good lib h bs l) :
    Fits h asize p ↔ ∃ b ∈ bs, b.alloc = false ∧ b.base = p ∧ asize ≤ b.size := by
  have hget : ∀ b ∈ bs, h.getSize (hdrp b.base) = b.size := fun b hb =>
    hg.rep.tags.getSize hg.rep.layout (mem_allBlocks hb)
  constructor
  · rintro ⟨hblock, hle⟩
    obtain ⟨b, hb, hfree, rfl⟩ := hg.freeBlock_iff.1 hblock
    rw [hget b hb] at hle
    exact ⟨b, hb, hfree, rfl, hle⟩
  · rintro ⟨b, hb, hfree, rfl, hle⟩
    rw [Fits, hget b hb]
    exact ⟨hg.freeBlock_iff.2 ⟨b, hb, hfree, rfl⟩, hle⟩

/-- A block with a size that was asked for is in use after it was placed. -/
theorem Placed.getSize {L R : List Block} {b : Block} {h' : Heap}
    (hp : Placed lib h L b R asize h') : asize ≤ h'.getSize (hdrp b.base) := by
  obtain ⟨bs, l, n, hgood, hn, hused, -⟩ := hp
  have hin : ⟨b.base, n, true⟩ ∈ allocated bs := by
    rw [hused]
    simp
  have hsize := hgood.rep.tags.getSize hgood.rep.layout (mem_allBlocks (mem_allocated.1 hin).1)
  exact Nat.le_trans hn (Nat.le_of_eq hsize.symm)

end Fits

/-! ### With or without new memory -/

/-- **The request is served from a free block**: `find_fit` finds one that fits, and no memory is
asked for. -/
structure FromFree (h : Heap) (asize : ℕ) (h' : Heap) (p : ℕ) : Prop where
  fit : findFit h asize = some p
  fits : Fits h asize p
  ne : p ≠ 0
  size : asize ≤ h'.getSize (hdrp p)
  brk : h'.brk = h.brk
  sbrks : h'.sbrks = h.sbrks

/-- **No free block fits**, and `mem_sbrk` is called once: if it succeeds the block is long enough,
and if it fails nothing has changed but the number of calls. -/
structure FromSbrk (lib : Memlib) (h : Heap) (asize : ℕ) (h' : Heap) (p : ℕ) : Prop where
  fit : findFit h asize = some 0
  sbrks : h'.sbrks = h.sbrks + 1
  granted : (memSbrk lib h (max asize chunksize)).2 ≠ minusOne →
    p ≠ 0 ∧ asize ≤ h'.getSize (hdrp p)
  refused : (memSbrk lib h (max asize chunksize)).2 = minusOne →
    p = 0 ∧ h' = { h with sbrks := h.sbrks + 1 }

section Answered

variable {lib : Memlib} {h h' : Heap} {bs : List Block} {l : List ℕ} {size p : ℕ}

theorem Placed.sbrks {L R : List Block} {b : Block} {asize : ℕ}
    (hp : Placed lib h L b R asize h') : h'.sbrks = h.sbrks := by
  obtain ⟨bs, l, n, -, -, -, hsteady⟩ := hp
  exact hsteady.sbrks

theorem Placed.brk {L R : List Block} {b : Block} {asize : ℕ}
    (hp : Placed lib h L b R asize h') : h'.brk = h.brk := by
  obtain ⟨bs, l, n, -, -, -, hsteady⟩ := hp
  exact hsteady.brk

/-- How a request ends depends on whether a free block fits. -/
theorem Answered.exhaustion (hg : Good lib h bs l) (hsize : size ≤ 4294967280)
    (ha : Answered lib h bs size h' p) :
    ((∃ q, Fits h (adjust size) q) → FromFree h (adjust size) h' p) ∧
      ((¬ ∃ q, Fits h (adjust size) q) → FromSbrk lib h (adjust size) h' p) := by
  obtain ⟨h₁, h₂, h₃, -⟩ := adjust_spec hsize
  -- when the search fails no free block fits
  have hnone : (∀ b ∈ bs, b.alloc = false → b.size < adjust size) →
      ¬ ∃ q, Fits h (adjust size) q := by
    rintro hfull ⟨q, hq⟩
    obtain ⟨b, hb, hfree, -, hle⟩ := hg.fits_iff.1 hq
    exact Nat.not_le.2 (hfull b hb hfree) hle
  cases ha with
  | @found L R b blocks free le fit =>
      subst blocks
      have hb := hg.rep.layout.bounds (mem_allBlocks (b := b) (by simp))
      have hfits : Fits h (adjust size) b.base := hg.fits_iff.2 ⟨b, by simp, free, rfl, le⟩
      have hplaced := place_spec hg free h₁ h₂ le
      exact ⟨fun _ => ⟨fit, hfits, by omega, hplaced.getSize, hplaced.brk, hplaced.sbrks⟩,
        fun hno => absurd ⟨_, hfits⟩ hno⟩
  | refused full fit sbrk extend =>
      exact ⟨fun hyes => absurd hyes (hnone full),
        fun _ => ⟨fit, rfl, fun hgranted => absurd sbrk hgranted, fun _ => ⟨rfl, rfl⟩⟩⟩
  | @grown g L R m l' full fit sbrk extend extended =>
      have hm := extended.good.rep.layout.bounds (mem_allBlocks (b := m) (by simp))
      have hroom := extended.size_le
      have hplaced := place_spec extended.good extended.free h₁ h₂ (by omega)
      exact ⟨fun hyes => absurd hyes (hnone full), fun _ => ⟨fit,
        hplaced.sbrks.trans extended.sbrks, fun _ => ⟨by omega, hplaced.getSize⟩,
        fun hrefused => absurd hrefused sbrk⟩⟩

/-- A request that ends with a null pointer has changed nothing but the number of calls. -/
theorem Answered.eq_of_null (hg : Good lib h bs l) (hsize : size ≤ 4294967280)
    (ha : Answered lib h bs size h' 0) : h' = { h with sbrks := h.sbrks + 1 } := by
  obtain ⟨hfree, hsbrk⟩ := ha.exhaustion hg hsize
  by_cases hfits : ∃ q, Fits h (adjust size) q
  · exact absurd rfl (hfree hfits).ne
  · by_cases hminus : (memSbrk lib h (max (adjust size) chunksize)).2 = minusOne
    · exact ((hsbrk hfits).refused hminus).2
    · exact absurd rfl ((hsbrk hfits).granted hminus).1

end Answered

/-- **A request is served from the free blocks if one of them fits**, wherever it is in the heap,
and otherwise memory is asked for once. -/
theorem mmMalloc_exhaustion {lib : Memlib} {h₀ : Heap} {s : State} {n : ℕ} (hs : Reach lib h₀ s)
    (hn : 1 ≤ n) (hmax : n ≤ 2147483647) :
    ∃ h p, mmMalloc lib s.heap n = some (h, p) ∧
      ((∃ q, Fits s.heap (adjust n) q) → FromFree s.heap (adjust n) h p) ∧
      ((¬ ∃ q, Fits s.heap (adjust n) q) → FromSbrk lib s.heap (adjust n) h p) := by
  obtain ⟨bs, l, hg, -⟩ := hs.inv
  have hsize : n ≤ 4294967280 := by omega
  obtain ⟨h, p, hrun, hanswered⟩ := mmMalloc_answered hg hsize (by omega)
  exact ⟨h, p, hrun, hanswered.exhaustion hg hsize⟩

/-- A request after two others. -/
theorem mmMalloc_exhaustion_third : ∃ s : State, s.live = [(56, 20), (32, 10)] ∧
    ∃ h p, mmMalloc plentiful s.heap 100 = some (h, p) ∧
      ((∃ q, Fits s.heap (adjust 100) q) → FromFree s.heap (adjust 100) h p) ∧
      ((¬ ∃ q, Fits s.heap (adjust 100) q) → FromSbrk plentiful s.heap (adjust 100) h p) := by
  have hplay : (play plentiful ⟨(mmInit plentiful fresh).1, []⟩
      [.malloc 10, .malloc 20]).map State.live = some [(56, 20), (32, 10)] := by decide +kernel
  obtain ⟨s, hs, hlive⟩ := Option.map_eq_some_iff.1 hplay
  exact ⟨s, hlive, mmMalloc_exhaustion (reach_fresh.play hs) (by decide) (by decide)⟩

/-! ### Sizes that wrap -/

/-- The calls of the two helpers of `mm_malloc`. -/
inductive Inner where
  | findFit (h : Heap) (asize : ℕ)
  | place (h : Heap) (bp asize : ℕ)

/-- The calls of `find_fit` and `place` that `mm_malloc` makes. -/
def innerCalls (lib : Memlib) (h : Heap) (size : ℕ) : List Inner :=
  let h := if h.heapListp = 0 then (mmInit lib h).1 else h
  if size = 0 then []
  else
    let asize := adjust size
    .findFit h asize ::
      match findFit h asize with
      | none => []
      | some bp =>
          if bp ≠ 0 then [.place h bp asize]
          else
            let (h, bp) := extendHeap lib h (max asize chunksize / wsize)
            if bp = 0 then [] else [.place h bp asize]

/-- The block that `mm_malloc` returns is the one it has placed. -/
theorem mmMalloc_placed {lib : Memlib} {h h' : Heap} {size p : ℕ}
    (hrun : mmMalloc lib h size = some (h', p)) (hp : p ≠ 0) :
    ∃ g, .place g p (adjust size) ∈ innerCalls lib h size ∧ h' = place g p (adjust size) := by
  unfold mmMalloc at hrun
  unfold innerCalls
  generalize (if h.heapListp = 0 then (mmInit lib h).1 else h) = g at hrun ⊢
  dsimp only at hrun ⊢
  split at hrun
  · exact absurd (congrArg Prod.snd (Option.some.inj hrun)).symm hp
  · rename_i hzero
    rw [if_neg hzero]
    cases hfit : findFit g (adjust size) with
    | none =>
        rw [hfit] at hrun
        cases hrun
    | some bp =>
        rw [hfit] at hrun
        dsimp only at hrun ⊢
        split at hrun
        · rename_i hbp
          cases hrun
          exact ⟨g, by simp [hbp], rfl⟩
        · rename_i hbp
          rw [if_neg hbp]
          split at hrun
          · exact absurd (congrArg Prod.snd (Option.some.inj hrun)).symm hp
          · rename_i hne
            cases hrun
            exact ⟨_, by simp [hne], rfl⟩

/-- No helper is called with a block that would be too small for its links, and no block that is
placed is shorter than the size it is placed for, so that the difference does not wrap. -/
def Inner.Sound : Inner → Prop
  | .findFit _ asize => 16 ≤ asize
  | .place h bp asize => 16 ≤ asize ∧ asize ≤ h.getSize (hdrp bp)

/-- **No size wraps** in a call of `mm_malloc`. -/
structure NoWrap (lib : Memlib) (h : Heap) (size : ℕ) : Prop where
  returns : ∃ h' p, mmMalloc lib h size = some (h', p) ∧
    (p = 0 ∨ size + 8 ≤ h'.getSize (hdrp p))
  sound : ∀ c ∈ innerCalls lib h size, c.Sound

section NoWrap

variable {lib : Memlib} {h h' : Heap} {bs : List Block} {l : List ℕ} {size p : ℕ}

/-- The first call is one of `find_fit`, with the adjusted size. -/
theorem findFit_mem_innerCalls (hinit : h.heapListp ≠ 0) (hzero : size ≠ 0) :
    Inner.findFit h (adjust size) ∈ innerCalls lib h size := by
  unfold innerCalls
  rw [if_neg hinit]
  dsimp only
  rw [if_neg hzero]
  exact List.mem_cons_self

/-- How a request ends says which calls were made. -/
theorem Answered.innerCalls (hg : Good lib h bs l) (hzero : size ≠ 0)
    (ha : Answered lib h bs size h' p) : ∀ c ∈ innerCalls lib h size,
      c = .findFit h (adjust size) ∨ ∃ g bs' l' b, c = .place g b.base (adjust size) ∧
        Good lib g bs' l' ∧ b ∈ bs' ∧ adjust size ≤ b.size := by
  have hinit : h.heapListp ≠ 0 := by
    have := hg.rep.heapListp
    omega
  unfold Malloc.innerCalls
  rw [if_neg hinit]
  dsimp only
  rw [if_neg hzero]
  intro c hc
  rcases List.mem_cons.1 hc with rfl | hc
  · exact .inl rfl
  right
  cases ha with
  | @found L R b blocks free le fit =>
      have hb : b ∈ bs := by simp [blocks]
      have hbounds := hg.rep.layout.bounds (mem_allBlocks hb)
      simp only [fit] at hc
      rw [if_pos (by omega)] at hc
      exact ⟨h, bs, l, b, List.mem_singleton.1 hc, hg, hb, le⟩
  | refused full fit sbrk extend =>
      simp only [fit, extend] at hc
      cases hc
  | @grown g L R m l' full fit sbrk extend extended =>
      have hbounds := extended.good.rep.layout.bounds (mem_allBlocks (b := m) (by simp))
      have hroom := extended.size_le
      simp only [fit, extend] at hc
      rw [if_neg (by simp), if_neg (by omega)] at hc
      exact ⟨g, _, l', m, List.mem_singleton.1 hc, extended.good, by simp, by omega⟩

theorem Good.noWrap (hg : Good lib h bs l) (hzero : size ≠ 0) (hsize : size ≤ 4294967280) :
    NoWrap lib h size := by
  obtain ⟨h', p, hrun, hanswered⟩ := mmMalloc_answered hg hsize hzero
  obtain ⟨-, hmin, -, -⟩ := adjust_spec hsize
  refine ⟨⟨h', p, hrun, ?_⟩, fun c hc => ?_⟩
  · rcases hanswered.served hg hsize with ⟨hnull, -⟩ | ⟨bs', l', n, hserved⟩
    · exact .inl hnull
    · have hin := (mem_allocated.1 (hserved.perm.mem_iff.2 List.mem_cons_self)).1
      have hget := hserved.good.rep.tags.getSize hserved.good.rep.layout (mem_allBlocks hin)
      exact .inr (Nat.le_trans hserved.room (Nat.le_of_eq hget.symm))
  · rcases hanswered.innerCalls hg hzero c hc with rfl | ⟨g, bs', l', b, rfl, hgood, hb, hle⟩
    · exact hmin
    · have hget := hgood.rep.tags.getSize hgood.rep.layout (mem_allBlocks hb)
      exact ⟨hmin, Nat.le_trans hle (Nat.le_of_eq hget.symm)⟩

/-- The largest sizes are adjusted to less than a block. -/
theorem adjust_wraps (hlo : 4294967280 < size) (hhi : size < 4294967296) : adjust size < 16 := by
  have hsum : addw (addw size 8) 7 < 16 := by
    simp only [addw]
    omega
  unfold adjust
  rw [if_neg (by show ¬ size ≤ 8; omega)]
  show mulw 8 (addw (addw size 8) 7 / 8) < 16
  simp only [mulw]
  omega

end NoWrap

/-- **For which sizes no computation wraps**: those to which the tags and the rounding can be added.
-/
theorem noWrap_iff {lib : Memlib} {h₀ : Heap} {s : State} {size : ℕ} (hs : Reach lib h₀ s)
    (hsize : 1 ≤ size) (hmax : size < 4294967296) :
    NoWrap lib s.heap size ↔ size ≤ 4294967280 := by
  obtain ⟨bs, l, hg, -⟩ := hs.inv
  constructor
  · intro h
    by_contra hlarge
    have hinit : s.heap.heapListp ≠ 0 := by
      have := hg.rep.heapListp
      omega
    have hfit : 16 ≤ adjust size := h.sound _ (findFit_mem_innerCalls hinit (by omega))
    have := adjust_wraps (by omega) hmax
    omega
  · exact hg.noWrap (by omega)

/-- A request after two others. -/
theorem noWrap_iff_third : ∃ s : State, s.live = [(56, 20), (32, 10)] ∧
    (NoWrap plentiful s.heap 100 ↔ 100 ≤ 4294967280) := by
  have hplay : (play plentiful ⟨(mmInit plentiful fresh).1, []⟩
      [.malloc 10, .malloc 20]).map State.live = some [(56, 20), (32, 10)] := by decide +kernel
  obtain ⟨s, hs, hlive⟩ := Option.map_eq_some_iff.1 hplay
  exact ⟨s, hlive, noWrap_iff (reach_fresh.play hs) (by decide) (by decide)⟩

/-- **A size that wraps**: the first request of a run is one for all of memory, and a block of eight
bytes is returned. -/
theorem size_wraps :
    ¬ ∀ (lib : Memlib) (h₀ : Heap) (s : State) (size : ℕ), Reach lib h₀ s → 1 ≤ size →
      size < 4294967296 → NoWrap lib s.heap size := by
  intro h
  have hrun : (mmMalloc plentiful (mmInit plentiful fresh).1 4294967295).map
      (fun r => (r.2, r.1.getSize (hdrp r.2))) = some (32, 8) := by decide +kernel
  obtain ⟨h', p, hrun', hok⟩ := (h plentiful fresh ⟨(mmInit plentiful fresh).1, []⟩ 4294967295
    reach_fresh (by decide) (by decide)).returns
  rw [hrun'] at hrun
  simp only [Option.map_some, Option.some.injEq, Prod.mk.injEq] at hrun
  obtain ⟨rfl, hget⟩ := hrun
  omega

end Malloc
