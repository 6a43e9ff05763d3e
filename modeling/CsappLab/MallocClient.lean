/-
**What a client can rely on.**

The invariant of runs, in terms of what can be read from memory: the blocks that `NEXT_BLKP` leads
through, their tags, and the links of the free list.  From it follows what clients care about.  A
block that is returned overlaps no other that the client holds, which is what the test driver checks
with a list of ranges; and no call touches the contents of the client's other blocks.

Main definitions:

* `Malloc.Walk`, `Malloc.WellFormed` — the blocks `NEXT_BLKP` leads through, and what holds of them;
* `Malloc.addRange`, `Malloc.removeRange` — the range list of `mdriver.c`;
* `Malloc.Driven` — runs with the range list that goes with them.

Main results:

* `Malloc.wellFormed_reach` — **the heap is well formed after every run**;
* `Malloc.isolated` — **no call touches the other allocations**;
* `Malloc.returned_block` — **what is returned is aligned, inside the heap and disjoint from the
  other allocations**, and the driver accepts it.
-/

import CsappLab.MallocRun

set_option relaxedAutoImplicit false
set_option autoImplicit false

namespace Malloc

open ByteMem Tiling Linked

/-! ### Walking through the heap -/

/-- `NEXT_BLKP` leads from `p` through the blocks `ps` to `e`, each right behind the one before, and
none of them is the end of the heap for `GET_SIZE`. -/
def Walk (h : Heap) : ℕ → List ℕ → ℕ → Prop
  | p, [], e => p = e
  | p, q :: ps, e => q = p ∧ 0 < h.getSize (hdrp p) ∧ h.nextBlkp p = p + h.getSize (hdrp p) ∧
      Walk h (h.nextBlkp p) ps e

/-- **A well-formed heap** with the blocks `ps`, of which those in `free` are free. -/
structure WellFormed (lib : Memlib) (h : Heap) (ps free : List ℕ) : Prop where
  heapListp : h.heapListp = lib.start + 8
  walk : Walk h h.heapListp ps h.brk
  epilogue : h.get (hdrp h.brk) = pack 0 1
  footer : ∀ p ∈ ps, h.get (h.ftrp p) = h.get (hdrp p)
  size : ∀ p ∈ ps, h.getSize (hdrp p) % 8 = 0 ∧
    (if p = h.heapListp then h.getSize (hdrp p) = 8 else 16 ≤ h.getSize (hdrp p))
  merged : ps.IsChain fun p q => h.getAlloc (hdrp p) ≠ 0 ∨ h.getAlloc (hdrp q) ≠ 0
  ring : Ring h.getSucc h.getPred h.dummyBlockp free
  inverse : ∀ p ∈ h.dummyBlockp :: free,
    h.getPred (h.getSucc p) = p ∧ h.getSucc (h.getPred p) = p
  nodup : (h.dummyBlockp :: free).Nodup
  free_iff : ∀ p, p ∈ free ↔ p ∈ ps ∧ h.getAlloc (hdrp p) = 0

section WellFormed

variable {lib : Memlib} {h : Heap} {bs cs : List Block} {l : List ℕ} {lo : ℕ}

theorem Tags.walk (ht : Tags lib h bs) (hl : Layout lib h.brk bs) (hcs : Tiles lo h.brk cs)
    (hmem : ∀ c ∈ cs, c ∈ allBlocks lib bs) : Walk h lo (cs.map Block.base) h.brk := by
  induction cs generalizing lo with
  | nil => exact hcs
  | cons c cs ih =>
      obtain ⟨rfl, hrest⟩ := hcs
      have hc := hmem c List.mem_cons_self
      have hbounds := hl.bounds hc
      have hnext := ht.nextBlkp hl hc
      have hsize := ht.getSize hl hc
      refine ⟨rfl, by omega, by rw [hnext, hsize], ?_⟩
      rw [hnext]
      exact ih hrest fun d hd => hmem d (List.mem_cons_of_mem _ hd)

/-- The two blocks in front are in use. -/
theorem Good.merged_all (hg : Good lib h bs l) : Merged (allBlocks lib bs) :=
  List.isChain_cons.2 ⟨fun _ _ => .inl rfl, List.isChain_cons.2 ⟨fun _ _ => .inl rfl, hg.merged⟩⟩

/-- **A heap in order is well formed.** -/
theorem Good.wellFormed (hg : Good lib h bs l) :
    WellFormed lib h ((allBlocks lib bs).map Block.base) l := by
  have hl := hg.rep.layout
  have ht := hg.rep.tags
  have hbrk := hl.brk_bounds
  have hlistp := hg.rep.heapListp
  refine ⟨hlistp, ?_, ?_, ?_, ?_, ?_, hg.rep.links.ring,
    fun p hp => hg.rep.links.ring.inverse hp, hg.rep.links.nodup, fun p => ⟨fun hp => ?_, ?_⟩⟩
  · rw [hlistp]
    exact ht.walk hl hl.tiles_all fun c hc => hc
  · rw [hdrp_eq (by omega) (by omega), ht.epilogue, pack_one rfl]
    rfl
  · intro p hp
    obtain ⟨b, hb, rfl⟩ := List.mem_map.1 hp
    rw [ht.ftrp hl hb, hl.hdrp hb, (ht.tagged b hb).footer, (ht.tagged b hb).header]
  · intro p hp
    obtain ⟨b, hb, rfl⟩ := List.mem_map.1 hp
    have hbounds := hl.bounds hb
    rw [ht.getSize hl hb, hlistp]
    refine ⟨hbounds.2.1, ?_⟩
    simp only [allBlocks, List.mem_cons] at hb
    rcases hb with rfl | rfl | hb
    · exact (if_pos rfl).mpr rfl
    · rw [if_neg (by show lib.start + 16 ≠ _; omega)]
      exact Nat.le_refl 16
    · have := (hl.tiles.mem_bounds hb).1
      rw [if_neg (by omega)]
      exact (hl.sizes b hb).2
  · refine (List.isChain_map Block.base).2 (hg.merged_all.imp_of_mem_imp fun b c hb hc hbc => ?_)
    rw [ht.getAlloc hl hb, ht.getAlloc hl hc]
    rcases hbc with hb' | hc'
    · exact .inl (by simp [hb'])
    · exact .inr (by simp [hc'])
  · obtain ⟨b, hb, rfl⟩ := hg.rep.listed p hp
    refine ⟨List.mem_map_of_mem (mem_allBlocks hb), ?_⟩
    rw [ht.getAlloc hl (mem_allBlocks hb), (hg.sync b hb).2 hp]
    rfl
  · rintro ⟨hp, hfree⟩
    obtain ⟨b, hb, rfl⟩ := List.mem_map.1 hp
    rw [ht.getAlloc hl hb] at hfree
    have halloc : b.alloc = false := by
      cases hb : b.alloc with
      | false => rfl
      | true =>
          rw [hb] at hfree
          cases hfree
    simp only [allBlocks, List.mem_cons] at hb
    rcases hb with rfl | rfl | hb
    · cases halloc
    · cases halloc
    · exact (hg.sync b hb).1 halloc

end WellFormed

/-- **The heap is well formed after every run**, and every valid call returns. -/
theorem wellFormed_reach {lib : Memlib} {h₀ : Heap} {s : State} (hs : Reach lib h₀ s) :
    (∃ ps free, WellFormed lib s.heap ps free) ∧
      ∀ c : Call, c.Valid s.live → ∃ h p, c.run lib s.heap = some (h, p) := by
  obtain ⟨bs, l, hg, hh⟩ := hs.inv
  refine ⟨⟨_, l, hg.wellFormed⟩, fun c hc => ?_⟩
  obtain ⟨h, p, -, -, -, hrun, -⟩ := call_spec hg hh hc
  exact ⟨h, p, hrun⟩

/-- A heap in which one block was given back. -/
theorem wellFormed_reach_three : ∃ s, play plentiful ⟨(mmInit plentiful fresh).1, []⟩
    [.malloc 10, .malloc 20, .free 32] = some s ∧ s.live = [(56, 20)] ∧
      ∃ ps free, WellFormed plentiful s.heap ps free := by
  have hplay : (play plentiful ⟨(mmInit plentiful fresh).1, []⟩
      [.malloc 10, .malloc 20, .free 32]).map State.live = some [(56, 20)] := by decide +kernel
  obtain ⟨s, hs, hlive⟩ := Option.map_eq_some_iff.1 hplay
  exact ⟨s, hs, hlive, (wellFormed_reach (reach_fresh.play hs)).1⟩

/-! ### The contents of the other allocations -/

/-- The bytes of the tags of the blocks `ps`, and of the epilogue. -/
def TagByte (h : Heap) (ps : List ℕ) (a : ℕ) : Prop :=
  hdrp h.brk ≤ a ∧ a < hdrp h.brk + 4 ∨
    ∃ p ∈ ps, hdrp p ≤ a ∧ a < hdrp p + 4 ∨ h.ftrp p ≤ a ∧ a < h.ftrp p + 4

/-- The bytes between the tags of a block. -/
def BodyByte (h : Heap) (p a : ℕ) : Prop := p ≤ a ∧ a < h.ftrp p

/-- The bytes between the tags of the free blocks, and of the dummy free block in front of them. -/
def FreeByte (h : Heap) (ps : List ℕ) (a : ℕ) : Prop :=
  BodyByte h h.dummyBlockp a ∨ ∃ p ∈ ps, h.getAlloc (hdrp p) = 0 ∧ BodyByte h p a

section Isolated

variable {lib : Memlib} {h : Heap} {bs used : List Block} {l : List ℕ} {p a : ℕ}

/-- **Outside of blocks in use** there are tags, free blocks, and the other blocks in use. -/
theorem Good.outside_cases (hg : Good lib h bs l) (ha : Outside lib h.brk used a) :
    TagByte h ((allBlocks lib bs).map Block.base) a ∨
      FreeByte h ((allBlocks lib bs).map Block.base) a ∨
      ∃ b ∈ allocated bs, b ∉ used ∧ BodyByte h b.base a := by
  have hl := hg.rep.layout
  have ht := hg.rep.tags
  have hbrk := hl.brk_bounds
  obtain ⟨hlo, hhi, hother⟩ := ha
  have hepilogue : hdrp h.brk = h.brk - 4 := hdrp_eq (by omega) (by omega)
  rcases Nat.lt_or_ge a (h.brk - 4) with hlt | hge
  · -- every block starts four bytes behind its header
    obtain ⟨b, hb, hab, hab'⟩ := hl.tiles_all.cover (a := a + 4) (by omega) (by omega)
    have hbounds := hl.bounds hb
    have hhdrp := hl.hdrp hb
    have hftrp := ht.ftrp hl hb
    have hin : b.base ∈ (allBlocks lib bs).map Block.base := List.mem_map_of_mem hb
    by_cases hbody : b.base ≤ a ∧ a < b.base + b.size - 8
    · rw [← hftrp] at hbody
      simp only [allBlocks, List.mem_cons] at hb
      rcases hb with rfl | rfl | hb
      · rw [hftrp] at hbody
        have hsize : (prologue lib).size = 8 := rfl
        omega
      · refine .inr (.inl (.inl ?_))
        rw [hg.rep.dummyBlockp]
        exact hbody
      · cases halloc : b.alloc with
        | false =>
            refine .inr (.inl (.inr ⟨b.base, hin, ?_, hbody⟩))
            rw [ht.getAlloc hl (mem_allBlocks hb), halloc]
            rfl
        | true =>
            refine .inr (.inr ⟨b, mem_allocated.2 ⟨hb, halloc⟩, fun hbu => ?_, hbody⟩)
            have := hother b hbu
            omega
    · refine .inl (.inr ⟨b.base, hin, ?_⟩)
      rw [hhdrp, hftrp]
      omega
  · left
    left
    omega

/-- A call leaves the bytes of the allocations alone that are kept. -/
theorem Called.bytes {h' : Heap} {kept : List (ℕ × ℕ)} {size : ℕ}
    (hc : Called lib h kept size h' p bs l used) {q : ℕ × ℕ} (hq : q ∈ kept) (hlo : q.1 ≤ a)
    (hhi : a < q.1 + q.2) : h'.ram.bytes a = h.ram.bytes a := by
  obtain ⟨b, hb, hbase, hroom⟩ := hc.kept.room q hq
  refine hc.wrote.frame a fun hout => ?_
  have := hout.2.2 b hb
  omega

/-- What a call writes to. -/
theorem Called.stores {h' : Heap} {kept : List (ℕ × ℕ)} {size : ℕ}
    (hc : Called lib h kept size h' p bs l used) (ha : Outside lib h'.brk used a) :
    TagByte h' ((allBlocks lib bs).map Block.base) a ∨
      FreeByte h' ((allBlocks lib bs).map Block.base) a ∨ p ≠ 0 ∧ BodyByte h' p a := by
  rcases hc.good.outside_cases ha with htag | hfree | ⟨b, hb, hnot, hbody⟩
  · exact .inl htag
  · exact .inr (.inl hfree)
  · rcases hc.blocks with ⟨-, hperm⟩ | ⟨hp, n, -, hperm⟩
    · exact absurd (hperm.mem_iff.1 hb) hnot
    · rcases List.mem_cons.1 (hperm.mem_iff.1 hb) with rfl | hb
      · exact .inr (.inr ⟨hp, hbody⟩)
      · exact absurd hb hnot

end Isolated

/-- An allocation that is not given back is kept. -/
theorem Holds.mem_kept {lib : Memlib} {h : Heap} {live : List (ℕ × ℕ)} {bs : List Block}
    {l : List ℕ} {c : Call} {q : ℕ × ℕ} {p : ℕ} (hg : Good lib h bs l)
    (hh : Holds live (allocated bs)) (hq : q ∈ live) (hother : c.ptr = 0 ∨ q.1 ≠ c.ptr) :
    q ∈ c.kept live p := by
  have hne : q.1 ≠ c.ptr := by
    rcases hother with hnull | hne
    · obtain ⟨b, hb, hbase, -⟩ := hh.room q hq
      have := hg.rep.layout.bounds (mem_allBlocks (mem_allocated.1 hb).1)
      omega
    · exact hne
  have hdrop : q ∈ drop live c.ptr := List.mem_filter.2 ⟨hq, decide_eq_true hne⟩
  cases c with
  | malloc size => exact hq
  | free ptr => exact hdrop
  | realloc ptr size =>
      simp only [Call.kept]
      split
      · exact hq
      · exact hdrop

/-- **No call touches the other allocations.**  The bytes of every allocation stay that is not the
one given back, and what is written to are tags, free blocks and the block that is returned. -/
theorem isolated {lib : Memlib} {h₀ h : Heap} {s : State} {c : Call} {p : ℕ}
    (hs : Reach lib h₀ s) (hvalid : c.Valid s.live) (hrun : c.run lib s.heap = some (h, p)) :
    (∀ q ∈ s.live, c.ptr = 0 ∨ q.1 ≠ c.ptr →
        ∀ a, q.1 ≤ a → a < q.1 + q.2 → h.ram.bytes a = s.heap.ram.bytes a) ∧
      ∃ ps, Walk h h.heapListp ps h.brk ∧ ∃ ws, h.ram.log = s.heap.ram.log ++ ws ∧
        ∀ w ∈ ws, ∀ a, w.1 ≤ a → a < w.1 + w.2 →
          TagByte h ps a ∨ FreeByte h ps a ∨ p ≠ 0 ∧ BodyByte h p a := by
  obtain ⟨bs, l, hg, hh⟩ := hs.inv
  obtain ⟨h', p', bs', l', used, hrun', hcalled, -⟩ := call_spec hg hh hvalid
  obtain ⟨rfl, rfl⟩ : h' = h ∧ p' = p := by simpa [hrun] using hrun'.symm
  obtain ⟨ws, hlog, hws⟩ := hcalled.wrote.stores
  exact ⟨fun q hq hother a hlo hhi => hcalled.bytes (hh.mem_kept hg hq hother) hlo hhi,
    _, hcalled.good.wellFormed.walk, ws, hlog,
    fun w hw a ha ha' => hcalled.stores (hws w hw a ha ha')⟩

/-- One of two allocations is given back. -/
theorem isolated_free : ∃ (s : State) (h : Heap), s.live = [(56, 20), (32, 10)] ∧
    (Call.free 32).run plentiful s.heap = some (h, 0) ∧
      ∀ a, 56 ≤ a → a < 76 → h.ram.bytes a = s.heap.ram.bytes a := by
  have hplay : (play plentiful ⟨(mmInit plentiful fresh).1, []⟩
      [.malloc 10, .malloc 20]).map State.live = some [(56, 20), (32, 10)] := by decide +kernel
  obtain ⟨s, hs, hlive⟩ := Option.map_eq_some_iff.1 hplay
  have hvalid : (Call.free 32).Valid s.live := by
    rw [hlive]
    decide
  have hq : (56, 20) ∈ s.live := by
    rw [hlive]
    decide
  refine ⟨s, mmFree plentiful s.heap 32, hlive, rfl, ?_⟩
  exact (isolated (reach_fresh.play hs) hvalid rfl).1 (56, 20) hq (.inr (by decide))

/-! ### The range list of the driver -/

/-- `add_range`: the list afterwards, no result when the driver reports an error. -/
def addRange (heapLo heapHi : ℕ) (ranges : List (ℕ × ℕ)) (lo size : ℕ) : Option (List (ℕ × ℕ)) :=
  let hi := lo + size - 1
  if lo % 8 ≠ 0 then none
  else if lo < heapLo ∨ heapHi < lo ∨ hi < heapLo ∨ heapHi < hi then none
  else if ranges.any fun r => (r.1 ≤ lo ∧ lo ≤ r.2) ∨ (r.1 ≤ hi ∧ hi ≤ r.2) then none
  else some ((lo, hi) :: ranges)

/-- `remove_range`. -/
def removeRange (ranges : List (ℕ × ℕ)) (lo : ℕ) : List (ℕ × ℕ) := ranges.eraseP fun r => r.1 = lo

/-- What `eval_mm_valid` does to the range list after a call that returned `p`; the two bounds are
`mem_heap_lo` and `mem_heap_hi`.  When no block was returned, the list stays as it is. -/
def Call.track (lib : Memlib) (h : Heap) (p : ℕ) (ranges : List (ℕ × ℕ)) :
    Call → Option (List (ℕ × ℕ))
  | malloc size => if p = 0 then some ranges else addRange lib.start (h.brk - 1) ranges p size
  | free ptr => some (removeRange ranges ptr)
  | realloc ptr size => if p = 0 then some ranges
      else addRange lib.start (h.brk - 1) (removeRange ranges ptr) p size

/-- The driver asks for at least one byte. -/
def Call.Sized : Call → Prop
  | malloc size => 1 ≤ size
  | free _ => True
  | realloc _ size => 1 ≤ size

/-- **The states the driver leads to**, with its range list. -/
inductive Driven (lib : Memlib) (h₀ : Heap) : State → List (ℕ × ℕ) → Prop
  | init (hbrk : h₀.brk = lib.start) (hok : (mmInit lib h₀).2 = 0) :
      Driven lib h₀ ⟨(mmInit lib h₀).1, []⟩ []
  | call {s : State} {ranges ranges' : List (ℕ × ℕ)} {c : Call} {h : Heap} {p : ℕ}
      (hs : Driven lib h₀ s ranges) (hvalid : c.Valid s.live) (hsized : c.Sized)
      (hrun : c.run lib s.heap = some (h, p)) (htrack : c.track lib h p ranges = some ranges') :
      Driven lib h₀ ⟨h, c.after s.live p⟩ ranges'
  | write {s : State} {ranges : List (ℕ × ℕ)} {q : ℕ × ℕ} {a : ℕ} (v : UInt8)
      (hs : Driven lib h₀ s ranges) (hq : q ∈ s.live) (hlo : q.1 ≤ a) (hhi : a < q.1 + q.2) :
      Driven lib h₀ ⟨{ s.heap with ram := s.heap.ram.setByte a v }, s.live⟩ ranges

theorem Driven.reach {lib : Memlib} {h₀ : Heap} {s : State} {ranges : List (ℕ × ℕ)}
    (hd : Driven lib h₀ s ranges) : Reach lib h₀ s := by
  induction hd with
  | init hbrk hok => exact .init hbrk hok
  | call _ hvalid _ hrun _ ih => exact .call ih hvalid hrun
  | write v _ hq hlo hhi ih => exact .write v ih hq hlo hhi

/-- The range of an allocation. -/
def range (q : ℕ × ℕ) : ℕ × ℕ := (q.1, q.1 + q.2 - 1)

/-- Taking the range of an allocation off the list. -/
theorem removeRange_ranges {live : List (ℕ × ℕ)} (hnd : (live.map Prod.fst).Nodup) (p : ℕ) :
    removeRange (live.map range) p = (drop live p).map range := by
  induction live with
  | nil => rfl
  | cons q live ih =>
      obtain ⟨hq, hnd⟩ := List.nodup_cons.1 hnd
      by_cases hqp : q.1 = p
      · -- no other allocation has this pointer
        have hrest : drop live p = live := by
          refine List.filter_eq_self.2 fun r hr => decide_eq_true ?_
          rintro rfl
          exact hq (List.mem_map.2 ⟨r, hr, hqp.symm⟩)
        have hdrop : drop (q :: live) p = drop live p :=
          List.filter_cons_of_neg (by simp [hqp])
        rw [hdrop, hrest, removeRange, List.map_cons,
          List.eraseP_cons_of_pos (by simp [range, hqp])]
      · have hdrop : drop (q :: live) p = q :: drop live p :=
          List.filter_cons_of_pos (by simp [hqp])
        rw [hdrop, removeRange, List.map_cons, List.eraseP_cons_of_neg (by simp [range, hqp]),
          List.map_cons]
        exact congrArg _ (ih hnd)

/-- `add_range` of a block that is aligned, inside the heap and disjoint from the others. -/
theorem addRange_ranges {heapLo brk p size : ℕ} {kept : List (ℕ × ℕ)} (hsize : 1 ≤ size)
    (hp : p % 8 = 0) (hlo : heapLo ≤ p) (hhi : p + size ≤ brk)
    (hkept : ∀ q ∈ kept, 1 ≤ q.2 ∧ (p + size ≤ q.1 ∨ q.1 + q.2 ≤ p)) :
    addRange heapLo (brk - 1) (kept.map range) p size = some (((p, size) :: kept).map range) := by
  have hinside : ¬ (p < heapLo ∨ brk - 1 < p ∨ p + size - 1 < heapLo ∨ brk - 1 < p + size - 1) := by
    omega
  have hoverlap : ¬ ((kept.map range).any fun r =>
      (r.1 ≤ p ∧ p ≤ r.2) ∨ (r.1 ≤ p + size - 1 ∧ p + size - 1 ≤ r.2)) = true := by
    rw [List.any_eq_true]
    rintro ⟨r, hr, hover⟩
    obtain ⟨q, hq, rfl⟩ := List.mem_map.1 hr
    have hover' := of_decide_eq_true hover
    have := hkept q hq
    simp only [range] at hover'
    omega
  unfold addRange
  rw [if_neg (by omega), if_neg hinside, if_neg hoverlap]
  rfl

section Returned

variable {lib : Memlib} {h h' : Heap} {kept live : List (ℕ × ℕ)} {bs used : List Block}
  {l : List ℕ} {size p : ℕ}

/-- **What is returned** is aligned, inside the heap, and disjoint from what is kept. -/
theorem Called.returned (hc : Called lib h kept size h' p bs l used) (hp : p ≠ 0) :
    p % 8 = 0 ∧ lib.start ≤ p ∧ p + size ≤ h'.brk ∧
      ∀ q ∈ kept, p + size ≤ q.1 ∨ q.1 + q.2 ≤ p := by
  have hl := hc.good.rep.layout
  rcases hc.blocks with ⟨hp', -⟩ | ⟨-, n, hn, hperm⟩
  · exact absurd hp' hp
  have hmem : ∀ b ∈ ⟨p, n, true⟩ :: used, b ∈ allBlocks lib bs := fun b hb =>
    mem_allBlocks (mem_allocated.1 (hperm.mem_iff.2 hb)).1
  have hnew := hmem _ List.mem_cons_self
  obtain ⟨haligned, -, -, hlo, hhi, -⟩ := hl.bounds hnew
  have hnd : (⟨p, n, true⟩ :: used).Nodup := hperm.nodup_iff.1 hl.nodup_allocated
  simp only at haligned hlo hhi
  -- blocks are apart, and what the client asked for lies inside of them
  refine ⟨haligned, by omega, by omega, fun q hq => ?_⟩
  obtain ⟨b, hb, hbase, hroom⟩ := hc.kept.room q hq
  rcases hl.apart hnew (hmem b (List.mem_cons_of_mem _ hb)) with heq | hapart
  · exact absurd (heq ▸ hb) (List.nodup_cons.1 hnd).1
  · simp only at hapart
    omega

/-- The pointers the client holds are distinct. -/
theorem Holds.nodup (hg : Good lib h bs l) (hh : Holds live (allocated bs)) :
    (live.map Prod.fst).Nodup := by
  have hl := hg.rep.layout
  refine hh.pointers.nodup_iff.2 (List.Nodup.map_on (fun b hb c hc hbc => ?_) hl.nodup_allocated)
  have hb' := (mem_allocated.1 hb).1
  have hc' := (mem_allocated.1 hc).1
  have := hl.pos hb'
  have := hl.pos hc'
  exact (hl.apart (mem_allBlocks hb') (mem_allBlocks hc')).resolve_right (by omega)

/-- **The driver's list stays the list of the ranges of the allocations.** -/
theorem Called.track (hg : Good lib h bs l) (hh : Holds live (allocated bs))
    {bs' : List Block} {l' : List ℕ} {c : Call}
    (hc : Called lib h (c.kept live p) c.size h' p bs' l' used) (hrun : c.run lib h = some (h', p))
    (hsized : c.Sized) (hlive : ∀ q ∈ live, 1 ≤ q.2) :
    c.track lib h' p (live.map range) = some ((c.after live p).map range) ∧
      ∀ q ∈ c.after live p, 1 ≤ q.2 := by
  have hnd := hh.nodup hg
  have hdrop : ∀ {ptr}, ∀ q ∈ drop live ptr, 1 ≤ q.2 := fun q hq =>
    hlive q (List.mem_filter.1 hq).1
  cases c with
  | malloc size =>
      by_cases hp : p = 0
      · rw [Call.after, if_pos hp]
        exact ⟨if_pos hp, hlive⟩
      · obtain ⟨haligned, hlo, hhi, hdisjoint⟩ := hc.returned hp
        rw [Call.after, if_neg hp]
        refine ⟨(if_neg hp).trans (addRange_ranges hsized haligned hlo hhi fun q hq =>
          ⟨hlive q hq, hdisjoint q hq⟩), fun q hq => ?_⟩
        rcases List.mem_cons.1 hq with rfl | hq
        · exact hsized
        · exact hlive q hq
  | free ptr =>
      obtain rfl : 0 = p := congrArg Prod.snd (Option.some.inj hrun)
      exact ⟨congrArg some (removeRange_ranges hnd ptr), hdrop⟩
  | realloc ptr size =>
      have hzero : size ≠ 0 := Nat.ne_of_gt hsized
      by_cases hp : p = 0
      · have hkept : (Call.realloc ptr size).kept live p = live := if_pos ⟨hzero, hp⟩
        rw [Call.after, if_pos hp, hkept]
        exact ⟨if_pos hp, hlive⟩
      · have hkept : (Call.realloc ptr size).kept live p = drop live ptr :=
          if_neg fun hand => hp hand.2
        obtain ⟨haligned, hlo, hhi, hdisjoint⟩ := hc.returned hp
        rw [hkept] at hdisjoint
        rw [Call.after, if_neg hp, hkept, Call.track, if_neg hp, removeRange_ranges hnd]
        refine ⟨addRange_ranges hsized haligned hlo hhi fun q hq =>
          ⟨hdrop q hq, hdisjoint q hq⟩, fun q hq => ?_⟩
        rcases List.mem_cons.1 hq with rfl | hq
        · exact hsized
        · exact hdrop q hq

end Returned

/-- The driver's list in every run. -/
theorem Driven.ranges {lib : Memlib} {h₀ : Heap} {s : State} {ranges : List (ℕ × ℕ)}
    (hd : Driven lib h₀ s ranges) : ranges = s.live.map range ∧ ∀ q ∈ s.live, 1 ≤ q.2 := by
  induction hd with
  | init => exact ⟨rfl, fun q hq => by cases hq⟩
  | call hs hvalid hsized hrun htrack ih =>
      obtain ⟨rfl, hlive⟩ := ih
      obtain ⟨bs, l, hg, hh⟩ := hs.reach.inv
      obtain ⟨h', p', bs', l', used, hrun', hcalled, -⟩ := call_spec hg hh hvalid
      obtain ⟨rfl, rfl⟩ : h' = _ ∧ p' = _ := by simpa [hrun] using hrun'.symm
      obtain ⟨htrack', hlive'⟩ := hcalled.track hg hh hrun hsized hlive
      exact ⟨Option.some.inj (htrack.symm.trans htrack'), hlive'⟩
  | write v hs hq hlo hhi ih => exact ih

/-- **What is returned** is aligned, inside the heap, and disjoint from all other allocations, and
the driver's check of it succeeds. -/
theorem returned_block {lib : Memlib} {h₀ h : Heap} {s : State} {c : Call} {p : ℕ}
    (hs : Reach lib h₀ s) (hvalid : c.Valid s.live) (hrun : c.run lib s.heap = some (h, p))
    (hp : p ≠ 0) :
    (p % 8 = 0 ∧ lib.start ≤ p ∧ p + c.size ≤ h.brk ∧
        ∀ q ∈ s.live, c.ptr = 0 ∨ q.1 ≠ c.ptr → p + c.size ≤ q.1 ∨ q.1 + q.2 ≤ p) ∧
      ∀ ranges, Driven lib h₀ s ranges → c.Sized →
        ∃ ranges', c.track lib h p ranges = some ranges' := by
  obtain ⟨bs, l, hg, hh⟩ := hs.inv
  obtain ⟨h', p', bs', l', used, hrun', hcalled, -⟩ := call_spec hg hh hvalid
  obtain ⟨rfl, rfl⟩ : h' = h ∧ p' = p := by simpa [hrun] using hrun'.symm
  obtain ⟨haligned, hlo, hhi, hdisjoint⟩ := hcalled.returned hp
  refine ⟨⟨haligned, hlo, hhi, fun q hq hother => hdisjoint q (hh.mem_kept hg hq hother)⟩,
    fun ranges hd hsized => ?_⟩
  obtain ⟨rfl, hlive⟩ := hd.ranges
  exact ⟨_, (hcalled.track hg hh hrun hsized hlive).1⟩

/-- One of two allocations is moved. -/
theorem returned_block_realloc : ∃ (s : State) (h : Heap), s.live = [(56, 20), (32, 10)] ∧
    (Call.realloc 32 100).run plentiful s.heap = some (h, 88) ∧ 88 + 100 ≤ h.brk ∧
      (88 + 100 ≤ 56 ∨ 56 + 20 ≤ 88) := by
  have hplay : (play plentiful ⟨(mmInit plentiful fresh).1, []⟩
      [.malloc 10, .malloc 20]).map State.live = some [(56, 20), (32, 10)] := by decide +kernel
  have hplay' : ((play plentiful ⟨(mmInit plentiful fresh).1, []⟩ [.malloc 10, .malloc 20]).bind
      fun s => ((Call.realloc 32 100).run plentiful s.heap).map Prod.snd) = some 88 := by
    decide +kernel
  obtain ⟨s, hs, hlive⟩ := Option.map_eq_some_iff.1 hplay
  rw [hs] at hplay'
  obtain ⟨⟨h, p⟩, hrun, hp⟩ := Option.map_eq_some_iff.1 hplay'
  obtain rfl : p = 88 := hp
  have hvalid : (Call.realloc 32 100).Valid s.live := by
    rw [hlive]
    decide
  have hq : (56, 20) ∈ s.live := by
    rw [hlive]
    decide
  obtain ⟨-, -, hhi, hdisjoint⟩ :=
    (returned_block (reach_fresh.play hs) hvalid hrun (by decide)).1
  exact ⟨s, h, hlive, hrun, hhi, hdisjoint (56, 20) hq (.inr (by decide))⟩

end Malloc
