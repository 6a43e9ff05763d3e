/-
**Boundary tags in memory.**

What the words of a heap say about its blocks.  In front of the blocks that come and go stand the
prologue and the dummy block; each block repeats its size and its bit at its two ends, and behind
the last block stands the epilogue, a header without a block.

Main definitions:

* `Malloc.Layout` — where the blocks lie;
* `Malloc.Tags` — the tags of all blocks, and the epilogue;
* `Malloc.Outside` — the addresses an operation may write to when some blocks are in use.

Main results:

* `Malloc.get_put`, `Malloc.get_putTags` — the words after a store, and after a pair of tags;
* `Malloc.Tags.getSize`, `Malloc.Tags.nextBlkp`, `Malloc.Tags.prevBlkp` — what the macros read;
* `Malloc.Tags.mark` — writing the tags of one block.
-/

import CsappLab.MallocModel
import CsappLab.Tiling

set_option relaxedAutoImplicit false
set_option autoImplicit false

namespace Malloc

open ByteMem Tiling

/-! ### Words -/

theorem addw_eq {a b : ℕ} (h : a + b < 4294967296) : addw a b = a + b := Nat.mod_eq_of_lt h

theorem subw_eq {a b : ℕ} (hb : b ≤ a) (ha : a < 4294967296) : subw a b = a - b := by
  unfold subw
  omega

theorem mulw_eq {a b : ℕ} (h : a * b < 4294967296) : mulw a b = a * b := Nat.mod_eq_of_lt h

theorem pack_zero (size : ℕ) : pack size 0 = size := Nat.or_zero size

theorem pack_one {size : ℕ} (h : size % 8 = 0) : pack size 1 = size + 1 := by
  obtain ⟨k, rfl⟩ : ∃ k, size = 2 ^ 3 * k := ⟨size / 8, by omega⟩
  exact (Nat.two_pow_add_eq_or_of_lt (show (1 : ℕ) < 2 ^ 3 by decide) k).symm

/-- The mask of `GET_SIZE` clears the last three bits. -/
theorem and_mask {w : ℕ} (h : w < 4294967296) : w &&& 4294967288 = 8 * (w / 8) := by
  refine Nat.eq_of_testBit_eq fun i => ?_
  have hmask : (4294967288 : ℕ) = 2 ^ 3 * (2 ^ 29 - 1) := by decide
  have hw : 8 * (w / 8) = 2 ^ 3 * (w / 2 ^ 3) := rfl
  rw [Nat.testBit_and, hmask, hw, Nat.testBit_two_pow_mul, Nat.testBit_two_pow_mul,
    Nat.testBit_two_pow_sub_one, Nat.testBit_div_two_pow]
  by_cases hi : 3 ≤ i
  · have hsub : i - 3 + 3 = i := by omega
    by_cases hhi : i < 32
    · have : i - 3 < 29 := by omega
      simp [hi, hsub, this]
    · have hpow : (2 : ℕ) ^ 32 ≤ 2 ^ i := Nat.pow_le_pow_right (by omega) (by omega)
      have hbit : w.testBit i = false := Nat.testBit_lt_two_pow (Nat.lt_of_lt_of_le h hpow)
      simp [hi, hsub, hbit]
  · simp [hi]

/-! ### Stores -/

section Stores

variable (h : Heap) (p v : ℕ)

@[simp] theorem brk_put : (h.put p v).brk = h.brk := by
  cases h
  rfl

@[simp] theorem sbrks_put : (h.put p v).sbrks = h.sbrks := by
  cases h
  rfl

@[simp] theorem heapListp_put : (h.put p v).heapListp = h.heapListp := by
  cases h
  rfl

@[simp] theorem dummyBlockp_put : (h.put p v).dummyBlockp = h.dummyBlockp := by
  cases h
  rfl

end Stores

/-- **The words after a store.** -/
theorem get_put (h : Heap) {p q v : ℕ} (hp : p % 4 = 0) (hq : q % 4 = 0) (hv : v < 4294967296) :
    (h.put p v).get q = if q = p then v else h.get q :=
  h.ram.word_setWord hp hq hv

theorem get_put_of_ne (h : Heap) {p q v : ℕ} (hp : p % 4 = 0) (hq : q % 4 = 0) (hne : q ≠ p) :
    (h.put p v).get q = h.get q :=
  h.ram.word_setWord_of_disjoint (by omega)

theorem ftrp_def (h : Heap) (bp : ℕ) :
    h.ftrp bp = subw (addw bp (h.getSize (hdrp bp))) 8 := rfl

theorem nextBlkp_def (h : Heap) (bp : ℕ) : h.nextBlkp bp = addw bp (h.getSize (hdrp bp)) := rfl

theorem prevBlkp_def (h : Heap) (bp : ℕ) :
    h.prevBlkp bp = subw bp (h.getSize (subw bp 8)) := rfl

/-- `HDRP` of a block. -/
theorem hdrp_eq {bp : ℕ} (hlo : 4 ≤ bp) (hhi : bp < 4294967296) : hdrp bp = bp - 4 :=
  subw_eq hlo hhi

/-- A word with the size and the bit of a block. -/
def tag (size : ℕ) (alloc : Bool) : ℕ := size + alloc.toNat

theorem tag_lt {size : ℕ} (h : size % 8 = 0) (hlt : size < 4294967296) (alloc : Bool) :
    tag size alloc < 4294967296 := by
  cases alloc <;> simp only [tag, Bool.toNat_false, Bool.toNat_true] <;> omega

theorem pack_eq_tag {size : ℕ} (h : size % 8 = 0) (alloc : Bool) :
    pack size alloc.toNat = tag size alloc := by
  cases alloc with
  | false => exact pack_zero size
  | true => exact pack_one h

theorem getSize_of_tag {h : Heap} {p size : ℕ} {alloc : Bool} (hsize : size % 8 = 0)
    (hlt : size < 4294967296) (hp : h.get p = tag size alloc) : h.getSize p = size := by
  rw [Heap.getSize, hp, and_mask (tag_lt hsize hlt alloc)]
  cases alloc <;> simp only [tag, Bool.toNat_false, Bool.toNat_true] <;> omega

theorem getAlloc_of_tag {h : Heap} {p size : ℕ} {alloc : Bool} (hsize : size % 8 = 0)
    (hp : h.get p = tag size alloc) : h.getAlloc p = alloc.toNat := by
  rw [Heap.getAlloc, hp, Nat.and_one_is_mod]
  cases alloc <;> simp only [tag, Bool.toNat_false, Bool.toNat_true] <;> omega

/-- The two stores of a pair of tags. -/
theorem putTags_eq (h : Heap) {bp size : ℕ} {alloc : Bool} (hbp : bp % 8 = 0) (hlo : 4 ≤ bp)
    (hsize : size % 8 = 0) (hsize' : 8 ≤ size) (hhi : bp + size < 4294967296) :
    putTags h bp size alloc.toNat =
      (h.put (bp - 4) (tag size alloc)).put (bp + size - 8) (tag size alloc) := by
  have hhdr : hdrp bp = bp - 4 := hdrp_eq hlo (by omega)
  have hget : (h.put (bp - 4) (tag size alloc)).get (bp - 4) = tag size alloc := by
    rw [get_put _ (by omega) (by omega) (tag_lt hsize (by omega) alloc), if_pos rfl]
  have hsz : (h.put (bp - 4) (tag size alloc)).getSize (bp - 4) = size :=
    getSize_of_tag hsize (by omega) hget
  have hftr : (h.put (bp - 4) (tag size alloc)).ftrp bp = bp + size - 8 := by
    rw [ftrp_def, hhdr, hsz, addw_eq hhi, subw_eq (by omega) hhi]
  simp only [putTags, pack_eq_tag hsize, hhdr, hftr]

/-- **The words after a pair of tags was written.** -/
theorem get_putTags (h : Heap) {bp size q : ℕ} {alloc : Bool} (hbp : bp % 8 = 0) (hlo : 4 ≤ bp)
    (hsize : size % 8 = 0) (hsize' : 8 ≤ size) (hhi : bp + size < 4294967296) (hq : q % 4 = 0) :
    (putTags h bp size alloc.toNat).get q =
      if q = bp - 4 ∨ q = bp + size - 8 then tag size alloc else h.get q := by
  have hlt := tag_lt hsize (show size < 4294967296 by omega) alloc
  rw [putTags_eq h hbp hlo hsize hsize' hhi, get_put _ (by omega) hq hlt,
    get_put _ (by omega) hq hlt]
  by_cases h₁ : q = bp + size - 8
  · simp [h₁]
  · by_cases h₂ : q = bp - 4
    · simp [h₂]
    · simp [h₁, h₂]

section PutTags

variable (h : Heap) (bp size alloc : ℕ)

@[simp] theorem brk_putTags : (putTags h bp size alloc).brk = h.brk :=
  (brk_put ..).trans (brk_put ..)

@[simp] theorem sbrks_putTags : (putTags h bp size alloc).sbrks = h.sbrks :=
  (sbrks_put ..).trans (sbrks_put ..)

@[simp] theorem heapListp_putTags : (putTags h bp size alloc).heapListp = h.heapListp :=
  (heapListp_put ..).trans (heapListp_put ..)

@[simp] theorem dummyBlockp_putTags : (putTags h bp size alloc).dummyBlockp = h.dummyBlockp :=
  (dummyBlockp_put ..).trans (dummyBlockp_put ..)

end PutTags

/-! ### Where the blocks lie -/

/-- The prologue. -/
def prologue (lib : Memlib) : Block := { base := lib.start + 8, size := 8, alloc := true }

/-- The dummy block. -/
def dummy (lib : Memlib) : Block := { base := lib.start + 16, size := 16, alloc := true }

/-- All blocks of a heap. -/
def allBlocks (lib : Memlib) (bs : List Block) : List Block := prologue lib :: dummy lib :: bs

/-- **The layout of a heap**: the blocks behind the dummy block tile the rest of it, each with a
size that is a multiple of eight and at least sixteen. -/
structure Layout (lib : Memlib) (brk : ℕ) (bs : List Block) : Prop where
  brk_le : brk ≤ lib.maxAddr
  tiles : Tiles (lib.start + 32) brk bs
  sizes : ∀ b ∈ bs, b.size % 8 = 0 ∧ 16 ≤ b.size

namespace Layout

variable {lib : Memlib} {brk : ℕ} {bs : List Block} {b c : Block}

theorem tiles_all (h : Layout lib brk bs) : Tiles (lib.start + 8) brk (allBlocks lib bs) :=
  ⟨rfl, rfl, h.tiles⟩

/-- Every block is aligned, at least eight bytes long, and inside the heap. -/
theorem bounds (h : Layout lib brk bs) (hb : b ∈ allBlocks lib bs) :
    b.base % 8 = 0 ∧ b.size % 8 = 0 ∧ 8 ≤ b.size ∧ lib.start + 8 ≤ b.base ∧
      b.base + b.size ≤ brk ∧ brk < 4294967296 := by
  have hsizes : ∀ c ∈ allBlocks lib bs, c.size % 8 = 0 ∧ 8 ≤ c.size := by
    intro c hc
    simp only [allBlocks, List.mem_cons] at hc
    rcases hc with rfl | rfl | hc
    · simp [prologue]
    · simp [dummy]
    · have := h.sizes c hc
      omega
  have hstart := lib.aligned
  have hal := (h.tiles_all.aligned (show (lib.start + 8) % 8 = 0 by omega)
    fun c hc => (hsizes c hc).1).2 b hb
  obtain ⟨hlo, hhi⟩ := h.tiles_all.mem_bounds hb
  have := h.brk_le
  have := lib.maxAddr_lt
  have := hsizes b hb
  omega

theorem brk_bounds (h : Layout lib brk bs) :
    brk % 8 = 0 ∧ lib.start + 32 ≤ brk ∧ brk < 4294967296 := by
  have hstart := lib.aligned
  have hal := (h.tiles.aligned (show (lib.start + 32) % 8 = 0 by omega)
    fun c hc => (h.sizes c hc).1).1
  have := h.tiles.le
  have := h.brk_le
  have := lib.maxAddr_lt
  omega

/-- Two blocks are the same, or apart. -/
theorem apart (h : Layout lib brk bs) (hb : b ∈ allBlocks lib bs) (hc : c ∈ allBlocks lib bs) :
    b = c ∨ b.base + b.size ≤ c.base ∨ c.base + c.size ≤ b.base :=
  h.tiles_all.apart hb hc

theorem pos (h : Layout lib brk bs) (hb : b ∈ bs) : 0 < b.size := by
  have := (h.sizes b hb).2
  omega

theorem nodup_allocated (h : Layout lib brk bs) : (allocated bs).Nodup :=
  (h.tiles.nodup fun _ hb => h.pos hb).filter _

end Layout

/-! ### Tags -/

/-- The tags of a block. -/
structure Tagged (h : Heap) (b : Block) : Prop where
  header : h.get (b.base - 4) = tag b.size b.alloc
  footer : h.get (b.base + b.size - 8) = tag b.size b.alloc

/-- **The tags of a heap**: those of all blocks, and the epilogue. -/
structure Tags (lib : Memlib) (h : Heap) (bs : List Block) : Prop where
  tagged : ∀ b ∈ allBlocks lib bs, Tagged h b
  epilogue : h.get (h.brk - 4) = tag 0 true

/-- A word that no tag stands in. -/
def NotTag (lib : Memlib) (brk : ℕ) (bs : List Block) (q : ℕ) : Prop :=
  q ≠ brk - 4 ∧ ∀ b ∈ allBlocks lib bs, q ≠ b.base - 4 ∧ q ≠ b.base + b.size - 8

namespace Tags

variable {lib : Memlib} {h h' : Heap} {bs : List Block} {b c : Block}

/-- Tags only depend on the words they stand in. -/
theorem congr (ht : Tags lib h bs) (hl : Layout lib h.brk bs) (hbrk : h'.brk = h.brk)
    (hget : ∀ q, q % 4 = 0 → ¬ NotTag lib h.brk bs q → h'.get q = h.get q) : Tags lib h' bs where
  tagged b hb := by
    obtain ⟨hbase, hsize, hsize', hlo, hhi, hmax⟩ := hl.bounds hb
    constructor
    · rw [hget _ (by omega) fun hno => (hno.2 b hb).1 rfl]
      exact (ht.tagged b hb).header
    · rw [hget _ (by omega) fun hno => (hno.2 b hb).2 rfl]
      exact (ht.tagged b hb).footer
  epilogue := by
    have := hl.brk_bounds
    rw [hbrk, hget _ (by omega) fun hno => hno.1 rfl]
    exact ht.epilogue

end Tags

/-- `HDRP` of a block. -/
theorem Layout.hdrp {lib : Memlib} {brk : ℕ} {bs : List Block} {b : Block}
    (hl : Layout lib brk bs) (hb : b ∈ allBlocks lib bs) : hdrp b.base = b.base - 4 := by
  have := hl.bounds hb
  exact hdrp_eq (by omega) (by omega)

namespace Tags

section Macros

variable {lib : Memlib} {h : Heap} {bs : List Block} {b c : Block}
variable (ht : Tags lib h bs) (hl : Layout lib h.brk bs)
include ht hl

theorem getSize (hb : b ∈ allBlocks lib bs) : h.getSize (Malloc.hdrp b.base) = b.size := by
  have := hl.bounds hb
  rw [hl.hdrp hb]
  exact getSize_of_tag (by omega) (by omega) (ht.tagged b hb).header

theorem getAlloc (hb : b ∈ allBlocks lib bs) :
    h.getAlloc (Malloc.hdrp b.base) = b.alloc.toNat := by
  have := hl.bounds hb
  rw [hl.hdrp hb]
  exact getAlloc_of_tag (by omega) (ht.tagged b hb).header

theorem ftrp (hb : b ∈ allBlocks lib bs) : h.ftrp b.base = b.base + b.size - 8 := by
  have := hl.bounds hb
  rw [ftrp_def, ht.getSize hl hb, addw_eq (by omega), subw_eq (by omega) (by omega)]

theorem getAlloc_ftrp (hb : b ∈ allBlocks lib bs) : h.getAlloc (h.ftrp b.base) = b.alloc.toNat := by
  have := hl.bounds hb
  rw [ht.ftrp hl hb]
  exact getAlloc_of_tag (by omega) (ht.tagged b hb).footer

/-- `NEXT_BLKP` of a block is where it ends. -/
theorem nextBlkp (hb : b ∈ allBlocks lib bs) : h.nextBlkp b.base = b.base + b.size := by
  have := hl.bounds hb
  rw [nextBlkp_def, ht.getSize hl hb, addw_eq (by omega)]

/-- `PREV_BLKP` of the end of a block is the block. -/
theorem prevBlkp (hc : c ∈ allBlocks lib bs) : h.prevBlkp (c.base + c.size) = c.base := by
  have := hl.bounds hc
  have hfoot : h.getSize (c.base + c.size - 8) = c.size :=
    getSize_of_tag (by omega) (by omega) (ht.tagged c hc).footer
  have hword : subw (c.base + c.size) 8 = c.base + c.size - 8 := subw_eq (by omega) (by omega)
  rw [prevBlkp_def, hword, hfoot, subw_eq (by omega) (by omega)]
  omega

/-- The epilogue counts as allocated. -/
theorem getAlloc_brk : h.getAlloc (Malloc.hdrp h.brk) = 1 := by
  have := hl.brk_bounds
  rw [hdrp_eq (by omega) (by omega)]
  exact getAlloc_of_tag rfl ht.epilogue

end Macros

end Tags

section Mark

variable {lib : Memlib} {h : Heap} {brk : ℕ} {bs : List Block} {b c : Block}

/-- The words after the tags of a block were written. -/
theorem Layout.get_putTags (hl : Layout lib brk bs) (hb : b ∈ allBlocks lib bs) {q : ℕ}
    (hq : q % 4 = 0) : (putTags h b.base b.size b.alloc.toNat).get q =
      if q = b.base - 4 ∨ q = b.base + b.size - 8 then tag b.size b.alloc else h.get q := by
  have hbounds := hl.bounds hb
  exact Malloc.get_putTags h (by omega) (by omega) (by omega) (by omega) (by omega) hq

theorem Layout.get_putTags_of_notTag (hl : Layout lib brk bs) (hb : b ∈ allBlocks lib bs) {q : ℕ}
    (hq : q % 4 = 0) (hno : NotTag lib brk bs q) :
    (putTags h b.base b.size b.alloc.toNat).get q = h.get q := by
  obtain ⟨h₁, h₂⟩ := hno.2 b hb
  rw [hl.get_putTags hb hq, if_neg (by omega)]

/-- A block has its tags after they were written, and the others keep theirs. -/
theorem Layout.tagged_putTags (hl : Layout lib brk bs) (hb : b ∈ allBlocks lib bs)
    (hc : c ∈ allBlocks lib bs) (ht : c ≠ b → Tagged h c) :
    Tagged (putTags h b.base b.size b.alloc.toNat) c := by
  have hcbounds := hl.bounds hc
  have hbbounds := hl.bounds hb
  by_cases hcb : c = b
  · subst hcb
    constructor
    · rw [hl.get_putTags hb (by omega), if_pos (.inl rfl)]
    · rw [hl.get_putTags hb (by omega), if_pos (.inr rfl)]
  · have hapart := (hl.apart hc hb).resolve_left hcb
    constructor
    · rw [hl.get_putTags hb (by omega), if_neg (by omega)]
      exact (ht hcb).header
    · rw [hl.get_putTags hb (by omega), if_neg (by omega)]
      exact (ht hcb).footer

/-- **Writing the tags of one block**, when those of the others are in place. -/
theorem Tags.mark {L R : List Block} (hl : Layout lib h.brk (L ++ b :: R))
    (htagged : ∀ c ∈ allBlocks lib (L ++ R), Tagged h c)
    (hepilogue : h.get (h.brk - 4) = tag 0 true) :
    Tags lib (putTags h b.base b.size b.alloc.toNat) (L ++ b :: R) := by
  have hb : b ∈ allBlocks lib (L ++ b :: R) := by simp [allBlocks]
  constructor
  · intro c hc
    refine hl.tagged_putTags hb hc fun hcb => htagged c ?_
    simp only [allBlocks, List.mem_cons, List.mem_append] at hc ⊢
    tauto
  · have hbrk := hl.brk_bounds
    have hbounds := hl.bounds hb
    rw [brk_putTags, hl.get_putTags hb (by omega), if_neg (by omega)]
    exact hepilogue

end Mark

/-- The first two words of a block that has room for them are no tags. -/
theorem Layout.notTag_link {lib : Memlib} {brk : ℕ} {bs : List Block} {b : Block}
    (hl : Layout lib brk bs) (hb : b ∈ allBlocks lib bs) (hsize : 16 ≤ b.size) :
    NotTag lib brk bs b.base ∧ NotTag lib brk bs (b.base + 4) := by
  have hbounds := hl.bounds hb
  have hbrk := hl.brk_bounds
  refine ⟨⟨by omega, fun c hc => ?_⟩, ⟨by omega, fun c hc => ?_⟩⟩
  all_goals
    have hcbounds := hl.bounds hc
    rcases hl.apart hb hc with rfl | hapart
    · omega
    · omega

/-! ### Where an operation may write -/

/-- **Outside of the blocks in use**: behind the padding at the start of the heap, below the break,
and not in the part of a block in use that is its own. -/
def Outside (lib : Memlib) (brk : ℕ) (used : List Block) (a : ℕ) : Prop :=
  lib.start + 4 ≤ a ∧ a < brk ∧ ∀ b ∈ used, a < b.base ∨ b.base + b.size - 8 ≤ a

namespace Layout

variable {lib : Memlib} {brk a : ℕ} {bs used : List Block} {b : Block}

/-- The tags of a block. -/
theorem outside_tags (hl : Layout lib brk bs) (hused : ∀ c ∈ used, c ∈ bs)
    (hb : b ∈ allBlocks lib bs)
    (ha : b.base - 4 ≤ a ∧ a < b.base ∨ b.base + b.size - 8 ≤ a ∧ a < b.base + b.size - 4) :
    Outside lib brk used a := by
  have hbounds := hl.bounds hb
  refine ⟨by omega, by omega, fun c hc => ?_⟩
  have hc' : c ∈ allBlocks lib bs :=
    List.mem_cons_of_mem _ (List.mem_cons_of_mem _ (hused c hc))
  have hcbounds := hl.bounds hc'
  rcases hl.apart hb hc' with rfl | hapart
  · omega
  · omega

/-- What lies between the tags of a block that is not in use. -/
theorem outside_body (hl : Layout lib brk bs) (hused : ∀ c ∈ used, c ∈ bs)
    (hb : b ∈ allBlocks lib bs) (hb' : b ∉ used)
    (ha : b.base ≤ a ∧ a < b.base + b.size - 8) : Outside lib brk used a := by
  have hbounds := hl.bounds hb
  refine ⟨by omega, by omega, fun c hc => ?_⟩
  have hc' : c ∈ allBlocks lib bs :=
    List.mem_cons_of_mem _ (List.mem_cons_of_mem _ (hused c hc))
  have hcbounds := hl.bounds hc'
  rcases hl.apart hb hc' with rfl | hapart
  · exact absurd hc hb'
  · omega

/-- The epilogue. -/
theorem outside_epilogue (hl : Layout lib brk bs) (hused : ∀ c ∈ used, c ∈ bs)
    (ha : brk - 4 ≤ a ∧ a < brk) : Outside lib brk used a := by
  have hbrk := hl.brk_bounds
  refine ⟨by omega, by omega, fun c hc => ?_⟩
  have hcbounds := hl.bounds (List.mem_cons_of_mem _ (List.mem_cons_of_mem _ (hused c hc)))
  omega

end Layout

/-- The two stores of a pair of tags. -/
theorem wrote_putTags {P : ℕ → Prop} {h : Heap} {bp size : ℕ} {alloc : Bool} (hbp : bp % 8 = 0)
    (hlo : 4 ≤ bp) (hsize : size % 8 = 0) (hsize' : 8 ≤ size) (hhi : bp + size < 4294967296)
    (hP : ∀ a, bp - 4 ≤ a ∧ a < bp ∨ bp + size - 8 ≤ a ∧ a < bp + size - 4 → P a) :
    Wrote P h.ram (putTags h bp size alloc.toNat).ram := by
  rw [putTags_eq h hbp hlo hsize hsize' hhi]
  refine (Wrote.setWord fun a ha ha' => ?_).trans (Wrote.setWord fun a ha ha' => ?_)
  · exact hP a (by omega)
  · exact hP a (by omega)

end Malloc
