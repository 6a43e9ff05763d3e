/-
**Growing the heap, and placing a block.**

The two operations that make blocks.  Growing the heap puts a free block where the epilogue was, and
placing a block marks a free block as used, or cuts it in two.  The new free block is in limbo in
both cases, and `coalesce` brings the heap back in order.

Main results:

* `Malloc.extendHeap_spec` — **growing**: nothing happens, or there is a free block of the size that
  was asked for, and the same blocks are in use;
* `Malloc.place_spec` — **placing**: the block is in use and long enough, and all other blocks in
  use are as before.
-/

import CsappLab.MallocCoalesce

set_option relaxedAutoImplicit false
set_option autoImplicit false

namespace Malloc

open ByteMem Tiling

/-! ### Growing -/

/-- The blocks of a heap that has grown. -/
theorem Layout.extend {lib : Memlib} {brk size : ℕ} {bs : List Block} (hl : Layout lib brk bs)
    (hsize : size % 8 = 0) (hsize' : 16 ≤ size) (hmax : brk + size ≤ lib.maxAddr) :
    Layout lib (brk + size) (bs ++ [⟨brk, size, false⟩]) where
  brk_le := hmax
  tiles := tiles_append_cons.2 ⟨hl.tiles, rfl⟩
  sizes b hb := by
    rcases List.mem_append.1 hb with hb | hb
    · exact hl.sizes b hb
    · obtain rfl := List.mem_singleton.1 hb
      exact ⟨hsize, hsize'⟩

/-- What `extend_heap` does before it coalesces. -/
def grown (h : Heap) (size : ℕ) : Heap :=
  let g : Heap := { h with sbrks := h.sbrks + 1, brk := h.brk + size }
  (putTags g h.brk size 0).put (h.brk + size - 4) 1

section Grown

variable {lib : Memlib} {h : Heap} {bs : List Block} {l : List ℕ} {size : ℕ}

theorem brk_grown (h : Heap) (size : ℕ) : (grown h size).brk = h.brk + size :=
  (brk_put ..).trans (brk_putTags ..)

theorem dummyBlockp_grown (h : Heap) (size : ℕ) : (grown h size).dummyBlockp = h.dummyBlockp :=
  (dummyBlockp_put ..).trans (dummyBlockp_putTags ..)

theorem heapListp_grown (h : Heap) (size : ℕ) : (grown h size).heapListp = h.heapListp :=
  (heapListp_put ..).trans (heapListp_putTags ..)

theorem get_grown (hbrk : h.brk % 8 = 0) (hlo : 4 ≤ h.brk) (hsize : size % 8 = 0)
    (hsize' : 8 ≤ size) (hhi : h.brk + size < 4294967296) {q : ℕ} (hq : q % 4 = 0) :
    (grown h size).get q = if q = h.brk + size - 4 then 1
      else if q = h.brk - 4 ∨ q = h.brk + size - 8 then size else h.get q := by
  have htag : (putTags { h with sbrks := h.sbrks + 1, brk := h.brk + size } h.brk size
      false.toNat).get q = if q = h.brk - 4 ∨ q = h.brk + size - 8 then tag size false
        else h.get q :=
    get_putTags _ hbrk hlo hsize hsize' hhi hq
  rw [grown, get_put _ (by omega) hq (by omega)]
  split
  · rfl
  · exact htag

/-- The new block is in limbo. -/
theorem Good.grown (hg : Good lib h bs l) (hsize : size % 8 = 0) (hsize' : 16 ≤ size)
    (hmax : h.brk + size ≤ lib.maxAddr) :
    Limbo lib (grown h size) bs ⟨h.brk, size, false⟩ [] l := by
  have hl := hg.rep.layout
  have hl' := hl.extend hsize hsize' hmax
  have hbrk := hl.brk_bounds
  have hbrk' := hl'.brk_bounds
  have hget : ∀ {q}, q % 4 = 0 → (Malloc.grown h size).get q = if q = h.brk + size - 4 then 1
      else if q = h.brk - 4 ∨ q = h.brk + size - 8 then size else h.get q := fun hq =>
    get_grown (by omega) (by omega) hsize (by omega) (by omega) hq
  have hnew : h.brk ∉ l := by
    intro hmem
    obtain ⟨b, hb, hbase⟩ := hg.rep.listed _ hmem
    have := hl.bounds (mem_allBlocks hb)
    omega
  refine ⟨⟨?_, ?_, ?_, ⟨fun c hc => ?_, ?_⟩, ?_, fun p hp => ?_⟩, rfl, hnew, ?_, hg.merged, ?_⟩
  · rw [brk_grown]
    exact hl'
  · rw [heapListp_grown]
    exact hg.rep.heapListp
  · rw [dummyBlockp_grown]
    exact hg.rep.dummyBlockp
  · by_cases hcn : c = ⟨h.brk, size, false⟩
    · subst hcn
      constructor
      · rw [hget (by show (h.brk - 4) % 4 = 0; omega), if_neg (by show h.brk - 4 ≠ _; omega),
          if_pos (.inl rfl)]
        rfl
      · rw [hget (by show (h.brk + size - 8) % 4 = 0; omega),
          if_neg (by show h.brk + size - 8 ≠ _; omega), if_pos (.inr rfl)]
        rfl
    · have hc' : c ∈ allBlocks lib bs := by
        simp only [allBlocks, List.mem_cons, List.mem_append, List.not_mem_nil] at hc ⊢
        tauto
      have hcb := hl.bounds hc'
      constructor
      · rw [hget (by omega), if_neg (by omega), if_neg (by omega)]
        exact (hg.rep.tags.tagged c hc').header
      · rw [hget (by omega), if_neg (by omega), if_neg (by omega)]
        exact (hg.rep.tags.tagged c hc').footer
  · rw [brk_grown, hget (by omega), if_pos rfl]
    rfl
  · refine hg.rep.links.congr (dummyBlockp_grown h size) fun q hq hlink => ?_
    -- a link word lies in a block below the old break
    have htag := hg.rep.notTag_of_link hlink
    simp only [NotLink, not_forall, not_and_or, not_not] at hlink
    obtain ⟨p, hp, hpq⟩ := hlink
    obtain ⟨b, hb, rfl, hbsize, -⟩ := hg.rep.node_block hp
    have hbb := hl.bounds hb
    rw [hget hq, if_neg (by omega), if_neg (by omega)]
  · obtain ⟨b, hb, hbp⟩ := hg.rep.listed p hp
    exact ⟨b, List.mem_append_left _ hb, hbp⟩
  · rw [List.append_nil]
    exact hg.sync
  · exact List.isChain_nil

theorem wrote_grown (hg : Good lib h bs l) (hsize : size % 8 = 0) (hsize' : 16 ≤ size)
    (hmax : h.brk + size ≤ lib.maxAddr) :
    Wrote (Outside lib (h.brk + size) (allocated bs)) h.ram (grown h size).ram := by
  have hl' := hg.rep.layout.extend hsize hsize' hmax
  have hbrk := hg.rep.layout.brk_bounds
  have hbrk' := hl'.brk_bounds
  have hused : ∀ c ∈ allocated bs, c ∈ bs ++ [⟨h.brk, size, false⟩] := fun c hc =>
    List.mem_append_left _ (mem_allocated.1 hc).1
  have hnew : (⟨h.brk, size, false⟩ : Block) ∈ allBlocks lib (bs ++ [⟨h.brk, size, false⟩]) :=
    mem_allBlocks (by simp)
  have htags : Wrote (Outside lib (h.brk + size) (allocated bs)) h.ram
      (putTags { h with sbrks := h.sbrks + 1, brk := h.brk + size } h.brk size false.toNat).ram :=
    wrote_putTags (by omega) (by omega) hsize (by omega) (by omega) fun a ha =>
      hl'.outside_tags hused hnew ha
  refine htags.trans (Wrote.setWord fun a ha ha' => ?_)
  exact hl'.outside_epilogue hused (by omega)

end Grown

/-- The heap after `mem_sbrk` has refused. -/
theorem Good.refused {lib : Memlib} {h : Heap} {bs : List Block} {l : List ℕ}
    (hg : Good lib h bs l) : Good lib { h with sbrks := h.sbrks + 1 } bs l where
  rep :=
    { layout := hg.rep.layout
      heapListp := hg.rep.heapListp
      dummyBlockp := hg.rep.dummyBlockp
      tags := ⟨fun b hb => ⟨(hg.rep.tags.tagged b hb).header, (hg.rep.tags.tagged b hb).footer⟩,
        hg.rep.tags.epilogue⟩
      links := ⟨hg.rep.links.ring, hg.rep.links.nodup, hg.rep.links.node⟩
      listed := hg.rep.listed }
  sync := hg.sync
  merged := hg.merged

/-- What `extend_heap` leaves: no more memory, or a free block of the size that was asked for; the
blocks in use are the same. -/
structure Extended (lib : Memlib) (h : Heap) (bs : List Block) (size : ℕ) (h' : Heap)
    (L : List Block) (m : Block) (R : List Block) (l : List ℕ) : Prop where
  good : Good lib h' (L ++ m :: R) l
  free : m.alloc = false
  size_le : size ≤ m.size
  used : allocated (L ++ R) = allocated bs
  brk : h'.brk = h.brk + size
  sbrks : h'.sbrks = h.sbrks + 1
  wrote : Wrote (Outside lib h'.brk (allocated bs)) h.ram h'.ram

theorem memSbrk_cases (lib : Memlib) (h : Heap) (incr : ℕ) :
    (memSbrk lib h incr = ({ h with sbrks := h.sbrks + 1 }, minusOne) ∧
        (2147483648 ≤ incr ∨ lib.maxAddr < h.brk + incr ∨ lib.grant h.sbrks = false)) ∨
      (memSbrk lib h incr = ({ h with sbrks := h.sbrks + 1, brk := h.brk + incr }, h.brk) ∧
        incr < 2147483648 ∧ h.brk + incr ≤ lib.maxAddr) := by
  unfold memSbrk
  split
  · rename_i hno
    exact .inl ⟨rfl, hno⟩
  · rename_i hyes
    simp only [not_or, Nat.not_le, Nat.not_lt] at hyes
    exact .inr ⟨rfl, hyes.1, hyes.2.1⟩

theorem extendHeap_refused {lib : Memlib} {h : Heap} {words size : ℕ} (hwords : words % 2 = 0)
    (hsize : mulw words 4 = size)
    (hsbrk : memSbrk lib h size = ({ h with sbrks := h.sbrks + 1 }, minusOne)) :
    extendHeap lib h words = ({ h with sbrks := h.sbrks + 1 }, 0) := by
  unfold extendHeap
  rw [if_neg (by omega), show mulw words wsize = size from hsize]
  dsimp only
  rw [hsbrk]
  exact if_pos rfl

/-- When memory is granted, `extend_heap` coalesces the new block. -/
theorem extendHeap_granted {lib : Memlib} {h : Heap} {words size : ℕ} (hwords : words % 2 = 0)
    (hsize : mulw words 4 = size) (hbrk : h.brk % 8 = 0) (hlo : 4 ≤ h.brk) (hsize₈ : size % 8 = 0)
    (hsize' : 8 ≤ size) (hhi : h.brk + size < 4294967296)
    (hsbrk : memSbrk lib h size =
      ({ h with sbrks := h.sbrks + 1, brk := h.brk + size }, h.brk)) :
    extendHeap lib h words = coalesce (grown h size) h.brk := by
  have hne : h.brk ≠ minusOne := by
    have : minusOne = 4294967295 := rfl
    omega
  have hget : (putTags { h with sbrks := h.sbrks + 1, brk := h.brk + size } h.brk size
      false.toNat).get (h.brk - 4) = tag size false := by
    rw [get_putTags _ hbrk hlo hsize₈ hsize' hhi (by omega), if_pos (.inl rfl)]
  have hnext : (putTags { h with sbrks := h.sbrks + 1, brk := h.brk + size } h.brk size
      false.toNat).nextBlkp h.brk = h.brk + size := by
    rw [nextBlkp_def, hdrp_eq hlo (by omega), getSize_of_tag hsize₈ (by omega) hget, addw_eq hhi]
  have hepilogue : (putTags { h with sbrks := h.sbrks + 1, brk := h.brk + size } h.brk size
      0).put (hdrp ((putTags { h with sbrks := h.sbrks + 1, brk := h.brk + size } h.brk size
      0).nextBlkp h.brk)) (pack 0 1) = grown h size := by
    rw [show (0 : ℕ) = false.toNat from rfl, hnext, hdrp_eq (by omega) hhi, pack_one rfl]
    rfl
  unfold extendHeap
  rw [if_neg (by omega), show mulw words wsize = size from hsize]
  dsimp only
  rw [hsbrk]
  dsimp only
  rw [if_neg hne, hepilogue]

/-- **Growing the heap**: it depends on `mem_sbrk`. -/
theorem extendHeap_spec {lib : Memlib} {h : Heap} {bs : List Block} {l : List ℕ} {words size : ℕ}
    (hg : Good lib h bs l) (hwords : words % 2 = 0) (hsize : mulw words 4 = size)
    (hsize₈ : size % 8 = 0) (hsize' : 16 ≤ size) :
    ((memSbrk lib h size).2 = minusOne ∧
        extendHeap lib h words = ({ h with sbrks := h.sbrks + 1 }, 0)) ∨
      (memSbrk lib h size).2 ≠ minusOne ∧ ∃ L m R l', (extendHeap lib h words).2 = m.base ∧
        Extended lib h bs size (extendHeap lib h words).1 L m R l' := by
  have hbrk := hg.rep.layout.brk_bounds
  rcases memSbrk_cases lib h size with ⟨hsbrk, -⟩ | ⟨hsbrk, -, hmax⟩
  · exact .inl ⟨congrArg Prod.snd hsbrk, extendHeap_refused hwords hsize hsbrk⟩
  · right
    refine ⟨?_, ?_⟩
    · have hminus : minusOne = 4294967295 := rfl
      rw [hsbrk]
      show h.brk ≠ minusOne
      omega
    have hbrk' := (hg.rep.layout.extend hsize₈ hsize' hmax).brk_bounds
    have hlim := hg.grown hsize₈ hsize' hmax
    rw [extendHeap_granted hwords hsize (by omega) (by omega) hsize₈ (by omega) (by omega) hsbrk]
    obtain ⟨L, m, R, l', hbase, hgood, hfree, hlo, hhi, hused, hsteady⟩ := coalesce_spec hlim
    simp only at hlo hhi
    rw [List.append_nil] at hused hsteady
    rw [brk_grown] at hsteady
    have hend := hgood.rep.layout.tiles.mem_bounds (show m ∈ L ++ m :: R by simp)
    refine ⟨L, m, R, l', hbase, hgood, hfree, by omega, hused, hsteady.brk.trans (brk_grown ..),
      hsteady.sbrks.trans ((sbrks_put ..).trans (sbrks_putTags ..)), ?_⟩
    rw [hsteady.brk, brk_grown]
    exact (wrote_grown hg hsize₈ hsize' hmax).trans hsteady.wrote

/-! ### Placing -/

/-- A block is marked. -/
theorem Layout.mark {lib : Memlib} {brk : ℕ} {L R : List Block} {b : Block}
    (hl : Layout lib brk (L ++ b :: R)) (alloc : Bool) :
    Layout lib brk (L ++ ⟨b.base, b.size, alloc⟩ :: R) where
  brk_le := hl.brk_le
  tiles := by
    obtain ⟨p, n, x⟩ := b
    exact tiles_mark.1 hl.tiles
  sizes c hc := by
    rcases List.mem_append.1 hc with hc | hc
    · exact hl.sizes c (by simp [hc])
    · rcases List.mem_cons.1 hc with rfl | hc
      · exact hl.sizes b (by simp)
      · exact hl.sizes c (by simp [hc])

/-- A block is cut in two. -/
theorem Layout.cut {lib : Memlib} {brk n : ℕ} {L R : List Block} {b : Block}
    (hl : Layout lib brk (L ++ b :: R)) (hn : n % 8 = 0) (hn' : 16 ≤ n) (hle : n + 16 ≤ b.size)
    (x y : Bool) : Layout lib brk (L ++ ⟨b.base, n, x⟩ :: ⟨b.base + n, b.size - n, y⟩ :: R) where
  brk_le := hl.brk_le
  tiles := by
    refine (tiles_join (x := b.alloc)).1 ?_
    rw [Nat.add_sub_cancel' (by omega)]
    exact hl.tiles
  sizes c hc := by
    have hb := hl.sizes b (by simp)
    simp only [List.mem_append, List.mem_cons] at hc
    rcases hc with hc | rfl | rfl | hc
    · exact hl.sizes c (by simp [hc])
    · exact ⟨hn, hn'⟩
    · show (b.size - n) % 8 = 0 ∧ 16 ≤ b.size - n
      omega
    · exact hl.sizes c (by simp [hc])

/-- What `place` leaves: a heap in order, in which the block is in use with the size that was asked
for, and all other blocks in use are as before. -/
def Placed (lib : Memlib) (h : Heap) (L : List Block) (b : Block) (R : List Block) (asize : ℕ)
    (h' : Heap) : Prop :=
  ∃ bs l n, Good lib h' bs l ∧ asize ≤ n ∧
    allocated bs = allocated L ++ ⟨b.base, n, true⟩ :: allocated R ∧
    Steady (Outside lib h.brk (allocated (L ++ R))) h h'

section Place

variable {lib : Memlib} {h : Heap} {L R : List Block} {b : Block} {l : List ℕ} {asize n : ℕ}

/-- The blocks in use stay outside of the list. -/
theorem Good.not_listed {bs : List Block} (hg : Good lib h bs l) {c : Block}
    (hc : c ∈ bs) (halloc : c.alloc = true) : c.base ∉ l := by
  intro hin
  rw [(hg.sync c hc).2 hin] at halloc
  cases halloc

/-- **The whole block is used**: it leaves the list. -/
theorem Good.use_whole (hg : Good lib h (L ++ b :: R) l) (hb : b.alloc = false) :
    Good lib (removeFromFreeList (putTags h b.base b.size true.toNat) b.base)
        (L ++ ⟨b.base, b.size, true⟩ :: R) (l.filter fun q => q ≠ b.base) ∧
      Steady (Outside lib h.brk (allocated (L ++ R))) h
        (removeFromFreeList (putTags h b.base b.size true.toNat) b.base) := by
  have hlay := hg.rep.layout
  obtain ⟨l₁, l₂, rfl⟩ := List.append_of_mem ((hg.sync b (by simp)).1 hb)
  have hnd : (l₁ ++ b.base :: l₂).Nodup := (List.nodup_cons.1 hg.rep.links.nodup).2
  have hlay' := hlay.mark true
  have hrep : Rep lib (putTags h b.base b.size true.toNat) (L ++ ⟨b.base, b.size, true⟩ :: R)
      (l₁ ++ b.base :: l₂) :=
    hg.rep.retag (b := ⟨b.base, b.size, true⟩) hlay' (fun c hc => mem_append_cons_of_mem hc)
      (hg.rep.listed_replace rfl)
  have hused : ∀ c ∈ allocated (L ++ R), c ∈ L ++ ⟨b.base, b.size, true⟩ :: R := fun c hc =>
    mem_append_cons_of_mem (mem_allocated.1 hc).1
  have hput : Steady (Outside lib h.brk (allocated (L ++ R))) h
      (putTags h b.base b.size true.toNat) :=
    Rep.steady_putTags (b := ⟨b.base, b.size, true⟩) hlay' hused
  have hrem := hrep.steady_remove hused fun c hc => by
    obtain ⟨hc, halloc⟩ := mem_allocated.1 hc
    exact hg.not_listed (mem_append_cons_of_mem hc) halloc
  rw [brk_putTags] at hrem
  rw [filter_ne_of_nodup hnd]
  refine ⟨⟨hrep.remove, fun c hc => ?_, ?_⟩, hput.trans hrem⟩
  · rw [mem_rest hnd]
    by_cases hcb : c.base = b.base
    · have hc' : c = ⟨b.base, b.size, true⟩ := by
        by_contra hne
        have hrest : c ∈ L ++ R := by
          simp only [List.mem_append, List.mem_cons] at hc ⊢
          tauto
        exact hlay.base_ne hrest hcb
      simp [hc']
    · have hrest : c ∈ L ++ b :: R := by
        simp only [List.mem_append, List.mem_cons] at hc ⊢
        rcases hc with hc | rfl | hc
        · exact .inl hc
        · exact absurd rfl hcb
        · exact .inr (.inr hc)
      rw [hg.sync c hrest, and_iff_left hcb]
  · exact hg.merged.left.insert_used hg.merged.right.tail rfl

theorem Good.place_whole (hg : Good lib h (L ++ b :: R) l) (hb : b.alloc = false)
    (hle : asize ≤ b.size) :
    Placed lib h L b R asize (removeFromFreeList (putTags h b.base b.size true.toNat) b.base) := by
  obtain ⟨hgood, hsteady⟩ := hg.use_whole hb
  exact ⟨_, _, b.size, hgood, hle, by simp [allocated], hsteady⟩

/-! ### Cutting a block in two -/

/-- What `place` does before it makes the second part: the block has the tags of the first part and
is off the list. -/
def shortened (h : Heap) (b : Block) : Heap :=
  removeFromFreeList (putTags h b.base b.size b.alloc.toNat) b.base

theorem brk_shortened (h : Heap) (b : Block) : (shortened h b).brk = h.brk :=
  brk_removeFromFreeList.trans (brk_putTags ..)

theorem dummyBlockp_shortened (h : Heap) (b : Block) :
    (shortened h b).dummyBlockp = h.dummyBlockp :=
  dummyBlockp_removeFromFreeList.trans (dummyBlockp_putTags ..)

theorem heapListp_shortened (h : Heap) (b : Block) : (shortened h b).heapListp = h.heapListp :=
  heapListp_removeFromFreeList.trans (heapListp_putTags ..)

section Cut

variable {b₁ b₂ : Block} {l₁ l₂ : List ℕ}

/-- The list has none but the other blocks and the one that is taken off. -/
theorem Good.listed_cut (hg : Good lib h (L ++ b :: R) l) (hbase : b₁.base = b.base) :
    ∀ p ∈ l, ∃ c ∈ L ++ [b₁] ++ R, c.base = p := by
  rw [List.append_assoc]
  exact hg.rep.listed_replace hbase

theorem mem_cut {c : Block} (hc : c ∈ L ++ [b₁] ++ R) : c ∈ L ++ b₁ :: b₂ :: R := by
  simp only [List.mem_append, List.mem_cons, List.not_mem_nil] at hc ⊢
  tauto

theorem eq_or_mem_of_mem_cut {c : Block} (hc : c ∈ L ++ [b₁] ++ R) : c = b₁ ∨ c ∈ L ++ R := by
  simp only [List.mem_append, List.mem_cons, List.not_mem_nil] at hc ⊢
  tauto

/-- The links of the list once the first part has its tags. -/
theorem Good.links_cut (hg : Good lib h (L ++ b :: R) l)
    (hl : Layout lib h.brk (L ++ b₁ :: b₂ :: R)) (hbase : b₁.base = b.base) :
    Links (putTags h b₁.base b₁.size b₁.alloc.toNat) l := by
  refine hg.rep.links.putTags hl hg.rep.dummyBlockp (fun p hp => ?_) (mem_allBlocks (by simp))
  obtain ⟨c, hc, hcp⟩ := hg.listed_cut hbase p hp
  exact ⟨c, mem_cut hc, hcp⟩

/-- Taking the block off the list changes no tag. -/
theorem Good.get_shortened (hg : Good lib h (L ++ b :: R) (l₁ ++ b₁.base :: l₂))
    (hl : Layout lib h.brk (L ++ b₁ :: b₂ :: R)) (hbase : b₁.base = b.base) {q : ℕ}
    (hq : q % 4 = 0) (htag : ¬ NotTag lib h.brk (L ++ b₁ :: b₂ :: R) q) :
    (shortened h b₁).get q = (putTags h b₁.base b₁.size b₁.alloc.toNat).get q := by
  refine get_removeFromFreeList (hg.links_cut hl hbase) hq ?_
  by_contra hlink
  refine htag (hl.notTag_of_listed ((dummyBlockp_putTags ..).trans hg.rep.dummyBlockp) ?_ hlink)
  intro p hp
  obtain ⟨c, hc, hcp⟩ := hg.listed_cut hbase p hp
  exact ⟨c, mem_cut hc, hcp⟩

/-- The first part and the other blocks have their tags. -/
theorem Good.tagged_shortened (hg : Good lib h (L ++ b :: R) (l₁ ++ b₁.base :: l₂))
    (hl : Layout lib h.brk (L ++ b₁ :: b₂ :: R)) (hbase : b₁.base = b.base) {c : Block}
    (hc : c ∈ allBlocks lib (L ++ [b₁] ++ R)) : Tagged (shortened h b₁) c := by
  have hc' : c ∈ allBlocks lib (L ++ b₁ :: b₂ :: R) := by
    simp only [allBlocks, List.mem_cons] at hc ⊢
    exact hc.imp_right (Or.imp_right mem_cut)
  have hcbounds := hl.bounds hc'
  have htag : Tagged (putTags h b₁.base b₁.size b₁.alloc.toNat) c := by
    refine hl.tagged_putTags (mem_allBlocks (by simp)) hc' fun hne => hg.rep.tags.tagged c ?_
    simp only [allBlocks, List.mem_cons] at hc ⊢
    exact hc.imp_right (Or.imp_right fun hc =>
      mem_append_cons_of_mem ((eq_or_mem_of_mem_cut hc).resolve_left hne))
  constructor
  · rw [hg.get_shortened hl hbase (by omega) fun hno => (hno.2 c hc').1 rfl]
    exact htag.header
  · rw [hg.get_shortened hl hbase (by omega) fun hno => (hno.2 c hc').2 rfl]
    exact htag.footer

theorem Good.epilogue_shortened (hg : Good lib h (L ++ b :: R) (l₁ ++ b₁.base :: l₂))
    (hl : Layout lib h.brk (L ++ b₁ :: b₂ :: R)) (hbase : b₁.base = b.base) :
    (shortened h b₁).get (h.brk - 4) = tag 0 true := by
  have hall₁ : b₁ ∈ allBlocks lib (L ++ b₁ :: b₂ :: R) := mem_allBlocks (by simp)
  have hbrk := hl.brk_bounds
  have hbounds := hl.bounds hall₁
  rw [hg.get_shortened hl hbase (by omega) fun hno => hno.1 rfl, hl.get_putTags hall₁ (by omega),
    if_neg (by omega)]
  exact hg.rep.tags.epilogue

/-- The two stores of tags and the removal keep the other blocks in use as they are. -/
theorem Good.steady_cut (hg : Good lib h (L ++ b :: R) (l₁ ++ b₁.base :: l₂))
    (hl : Layout lib h.brk (L ++ b₁ :: b₂ :: R)) (hbase : b₁.base = b.base) :
    Steady (Outside lib h.brk (allocated (L ++ R))) h
      (putTags (shortened h b₁) b₂.base b₂.size b₂.alloc.toNat) := by
  have hused : ∀ c ∈ allocated (L ++ R), c ∈ L ++ b₁ :: b₂ :: R := by
    intro c hc
    have := (mem_allocated.1 hc).1
    simp only [List.mem_append, List.mem_cons] at this ⊢
    exact this.imp_right fun h => .inr (.inr h)
  have hl' : Layout lib (shortened h b₁).brk (L ++ [b₁] ++ b₂ :: R) := by
    rw [brk_shortened, List.append_assoc]
    exact hl
  have hs₁ : Steady (Outside lib h.brk (allocated (L ++ R))) h
      (putTags h b₁.base b₁.size b₁.alloc.toNat) := Rep.steady_putTags hl hused
  have hs₂ : Steady (Outside lib h.brk (allocated (L ++ R)))
      (putTags h b₁.base b₁.size b₁.alloc.toNat) (shortened h b₁) := by
    refine ⟨brk_removeFromFreeList, sbrks_removeFromFreeList,
      wrote_removeFromFreeList (hg.links_cut hl hbase) fun x hx a ha ha' => ?_⟩
    rw [dummyBlockp_putTags] at hx
    refine hg.rep.outside_link (fun c hc => mem_append_cons_of_mem (mem_allocated.1 hc).1)
      (fun c hc => ?_) hx
      ha ha'
    obtain ⟨hc, halloc⟩ := mem_allocated.1 hc
    exact hg.not_listed (mem_append_cons_of_mem hc) halloc
  have hs₃ := Rep.steady_putTags (b := b₂) hl' fun c hc => by
    rw [List.append_assoc]
    exact hused c hc
  rw [brk_shortened] at hs₃
  exact (hs₁.trans hs₂).trans hs₃

/-- **The block is cut in two**, and the second part is in limbo. -/
theorem Good.place_cut (hg : Good lib h (L ++ b :: R) l) (hb : b.alloc = false)
    (hl : Layout lib h.brk (L ++ b₁ :: b₂ :: R)) (hbase : b₁.base = b.base) (hb₁ : b₁.alloc = true)
    (hb₂ : b₂.alloc = false) :
    ∃ l', l' = l.filter (fun q => q ≠ b.base) ∧
      Limbo lib (putTags (shortened h b₁) b₂.base b₂.size b₂.alloc.toNat) (L ++ [b₁]) b₂ R l' ∧
      Tagged (shortened h b₁) b₁ ∧
      Steady (Outside lib h.brk (allocated (L ++ R))) h
        (putTags (shortened h b₁) b₂.base b₂.size b₂.alloc.toNat) := by
  have hl' : Layout lib h.brk (L ++ [b₁] ++ b₂ :: R) := by
    rw [List.append_assoc]
    exact hl
  obtain ⟨l₁, l₂, rfl⟩ := List.append_of_mem ((hg.sync b (by simp)).1 hb)
  rw [← hbase] at hg
  have hlinks := hg.links_cut hl hbase
  have hnd : (l₁ ++ b₁.base :: l₂).Nodup := (List.nodup_cons.1 hlinks.nodup).2
  have hlisted : ∀ p ∈ l₁ ++ l₂, ∃ c ∈ L ++ [b₁] ++ R, c.base = p := fun p hp =>
    hg.listed_cut hbase p ((mem_rest hnd).1 hp).1
  have hdummy : (shortened h b₁).dummyBlockp = lib.start + 16 :=
    (dummyBlockp_shortened h b₁).trans hg.rep.dummyBlockp
  have htags := Tags.mark (h := shortened h b₁) (by rw [brk_shortened]; exact hl')
    (fun c hc => hg.tagged_shortened hl hbase hc)
    (by rw [brk_shortened]; exact hg.epilogue_shortened hl hbase)
  have hlinks' : Links (putTags (shortened h b₁) b₂.base b₂.size b₂.alloc.toNat) (l₁ ++ l₂) := by
    refine hlinks.remove.putTags hl hdummy (fun p hp => ?_) (mem_allBlocks (by simp))
    obtain ⟨c, hc, hcp⟩ := hlisted p hp
    exact ⟨c, mem_cut hc, hcp⟩
  refine ⟨l₁ ++ l₂, by rw [← hbase, filter_ne_of_nodup hnd],
    ⟨⟨?_, ?_, ?_, htags, hlinks', fun p hp => ?_⟩, hb₂, fun hin => ?_,
    fun c hc => ?_, ?_, hg.merged.right.tail⟩,
    hg.tagged_shortened hl hbase (mem_allBlocks (by simp)), hg.steady_cut hl hbase⟩
  · rw [brk_putTags, brk_shortened]
    exact hl'
  · rw [heapListp_putTags, heapListp_shortened]
    exact hg.rep.heapListp
  · rw [dummyBlockp_putTags]
    exact hdummy
  · obtain ⟨c, hc, hcp⟩ := hlisted p hp
    refine ⟨c, ?_, hcp⟩
    rw [List.append_assoc]
    exact mem_cut hc
  · obtain ⟨c, hc, hcb⟩ := hlisted _ hin
    exact hl'.base_ne hc hcb
  · rw [mem_rest hnd]
    rcases eq_or_mem_of_mem_cut hc with rfl | hrest
    · simp [hb₁]
    · have hcb : c.base ≠ b.base := hg.rep.layout.base_ne hrest
      rw [hg.sync c (mem_append_cons_of_mem hrest), hbase, and_iff_left hcb]
  · exact hg.merged.left.insert_used List.isChain_nil hb₁

end Cut

theorem place_eq_whole {bp csize : ℕ} (hsize : h.getSize (hdrp bp) = csize)
    (hno : ¬ 16 ≤ subw csize asize) :
    place h bp asize = removeFromFreeList (putTags h bp csize 1) bp := by
  unfold place
  rw [hsize]
  exact if_neg hno

theorem place_eq_cut {h₂ : Heap} {bp csize : ℕ} (hsize : h.getSize (hdrp bp) = csize)
    (hle : 16 ≤ subw csize asize) (heq : h₂ = removeFromFreeList (putTags h bp asize 1) bp) :
    place h bp asize =
      (coalesce (putTags h₂ (h₂.nextBlkp bp) (subw csize asize) 0) (h₂.nextBlkp bp)).1 := by
  subst heq
  unfold place
  rw [hsize]
  exact if_pos hle

theorem Steady.mono {P Q : ℕ → Prop} {h h' : Heap} (hs : Steady P h h') (hPQ : ∀ a, P a → Q a) :
    Steady Q h h' where
  brk := hs.brk
  sbrks := hs.sbrks
  wrote := hs.wrote.mono hPQ

/-- **Placing a block.** -/
theorem place_spec (hg : Good lib h (L ++ b :: R) l) (hb : b.alloc = false)
    (hasize : asize % 8 = 0) (hasize' : 16 ≤ asize) (hle : asize ≤ b.size) :
    Placed lib h L b R asize (place h b.base asize) := by
  have hlay := hg.rep.layout
  have hball : b ∈ allBlocks lib (L ++ b :: R) := mem_allBlocks (by simp)
  have hbounds := hlay.bounds hball
  have hsize := hg.rep.tags.getSize hlay hball
  have hsub : subw b.size asize = b.size - asize := subw_eq hle (by omega)
  by_cases hcut : 16 ≤ b.size - asize
  · obtain ⟨l₁, -, hlim, htagged, hsteady⟩ := hg.place_cut hb
      (hlay.cut hasize hasize' (by omega) true false) rfl rfl rfl
    simp only [shortened, Bool.toNat_true, Bool.toNat_false] at hlim htagged hsteady
    have hnext : (removeFromFreeList (putTags h b.base asize 1) b.base).nextBlkp b.base =
        b.base + asize := by
      rw [nextBlkp_def, hdrp_eq (by omega) (by omega),
        getSize_of_tag hasize (by omega) htagged.header, addw_eq (by omega)]
    obtain ⟨L', m, R', l₂, -, hgood, hm, -, -, hused, hsteady'⟩ := coalesce_spec hlim
    rw [place_eq_cut hsize (by omega) rfl, hnext, hsub]
    refine ⟨_, l₂, asize, hgood, Nat.le_refl asize, ?_, hsteady.trans ?_⟩
    · rw [allocated_append_cons_free hm, hused]
      simp [allocated]
    · rw [hsteady.brk] at hsteady'
      refine hsteady'.mono fun a ha => ⟨ha.1, ha.2.1, fun c hc => ha.2.2 c ?_⟩
      simp only [allocated, List.mem_filter, List.mem_append] at hc ⊢
      tauto
  · rw [place_eq_whole hsize (by omega)]
    exact hg.place_whole hb hle

end Place

end Malloc
