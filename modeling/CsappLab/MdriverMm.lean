/-
**The allocator under its test driver.**

The driver and `mm.c` together.  What the driver checks after every request follows from the
invariant of runs, with one exception: the bytes of a block that `mm_realloc` has moved are compared
as signed characters with a number between 0 and 255, so that a block of an id whose low byte is 128
or more is taken for damaged.

Main definitions:

* `Mdriver.mm` — `mm.c` as a package;
* `Mdriver.Passing` — the invariant of the driver's run;
* `Mdriver.Fault` — what a request can be blamed for.

Main results:

* `Mdriver.evalMmValid_mm` — **how the driver judges `mm.c`**, on every trace;
* `Mdriver.evalMmUtil_mm` — **utilization**: the high-water mark of the trace, and that it fits into
  the heap.
-/

import CsappLab.MdriverModel
import CsappLab.MallocRealloc
import Mathlib.Algebra.BigOperators.Group.List.Basic

set_option relaxedAutoImplicit false
set_option autoImplicit false

namespace Mdriver

open ByteMem Tiling
open Malloc hiding addRange

/-! ### `mm.c` as a package -/

section Brk

variable {lib : Memlib} {h : Heap} {bp size asize : ℕ}

theorem brk_coalesce (h : Heap) (bp : ℕ) : (coalesce h bp).1.brk = h.brk := by
  by_cases hbp : bp = 0
  · unfold coalesce
    rw [if_pos hbp]
  by_cases hprev : h.getAlloc (h.ftrp (h.prevBlkp bp)) = 0 <;>
    by_cases hnext : h.getAlloc (hdrp (h.nextBlkp bp)) = 0
  · rw [coalesce_eq_both hbp hprev hnext rfl rfl]
    simp only [brk_addToFreeList, brk_putTags, brk_removeFromFreeList]
  · rw [coalesce_eq_prev hbp hprev hnext]
    simp only [brk_addToFreeList, brk_putTags, brk_removeFromFreeList]
  · rw [coalesce_eq_next hbp hprev hnext]
    simp only [brk_addToFreeList, brk_putTags, brk_removeFromFreeList]
  · rw [coalesce_eq_none hbp hprev hnext]
    exact brk_addToFreeList

theorem brk_place (h : Heap) (bp asize : ℕ) : (place h bp asize).brk = h.brk := by
  by_cases hcut : 16 ≤ subw (h.getSize (hdrp bp)) asize
  · rw [place_eq_cut rfl hcut rfl, brk_coalesce]
    simp only [brk_putTags, brk_removeFromFreeList]
  · rw [place_eq_whole rfl hcut]
    simp only [brk_putTags, brk_removeFromFreeList]

theorem brk_le_memSbrk (lib : Memlib) (h : Heap) (incr : ℕ) :
    h.brk ≤ (memSbrk lib h incr).1.brk := by
  rcases memSbrk_cases lib h incr with ⟨hsbrk, -⟩ | ⟨hsbrk, -⟩
  · rw [hsbrk]
  · rw [hsbrk]
    exact Nat.le_add_right _ _

theorem brk_le_extendHeap (lib : Memlib) (h : Heap) (words : ℕ) :
    h.brk ≤ (extendHeap lib h words).1.brk := by
  obtain ⟨n, hn⟩ : ∃ n,
      (if words % 2 ≠ 0 then mulw (addw words 1) wsize else mulw words wsize) = n :=
    ⟨_, rfl⟩
  obtain ⟨g, hg⟩ : ∃ g, memSbrk lib h n = g := ⟨_, rfl⟩
  have hle : h.brk ≤ g.1.brk := hg ▸ brk_le_memSbrk lib h n
  unfold extendHeap
  dsimp only
  rw [hn, hg]
  split
  · exact hle
  · rw [brk_coalesce, brk_put, brk_putTags]
    exact hle

theorem brk_le_mmInit (lib : Memlib) (h : Heap) : h.brk ≤ (mmInit lib h).1.brk := by
  obtain ⟨g, hg⟩ : ∃ g, memSbrk lib h ((2 + 4 + 2) * wsize) = g := ⟨_, rfl⟩
  have hle : h.brk ≤ g.1.brk := hg ▸ brk_le_memSbrk lib h _
  unfold mmInit
  dsimp only
  rw [hg]
  split
  · exact hle
  · have hstores : (initBlocks { g.1 with heapListp := g.2 }).brk = g.1.brk := by
      simp only [initBlocks, brk_put]
    have hextend := brk_le_extendHeap lib (initBlocks { g.1 with heapListp := g.2 })
      (chunksize / wsize)
    rw [hstores] at hextend
    split
    · exact Nat.le_trans hle hextend
    · exact Nat.le_trans hle hextend

theorem brk_le_mmMalloc {r : Heap × ℕ} (hrun : r ∈ mmMalloc lib h size) : h.brk ≤ r.1.brk := by
  obtain ⟨g, hg⟩ : ∃ g, (if h.heapListp = 0 then (mmInit lib h).1 else h) = g := ⟨_, rfl⟩
  have hle : h.brk ≤ g.brk := by
    rw [← hg]
    split
    · exact brk_le_mmInit lib h
    · exact Nat.le_refl _
  unfold mmMalloc at hrun
  dsimp only at hrun
  rw [hg] at hrun
  split at hrun
  · obtain rfl := Option.some.inj hrun
    exact hle
  split at hrun
  · cases hrun
  · have hextend := brk_le_extendHeap lib g (max (adjust size) chunksize / wsize)
    split at hrun
    · obtain rfl := Option.some.inj hrun
      rw [brk_place]
      exact hle
    · split at hrun
      · obtain rfl := Option.some.inj hrun
        exact Nat.le_trans hle hextend
      · obtain rfl := Option.some.inj hrun
        rw [brk_place]
        exact Nat.le_trans hle hextend

theorem brk_le_mmFree (lib : Memlib) (h : Heap) (bp : ℕ) : h.brk ≤ (mmFree lib h bp).brk := by
  unfold mmFree
  dsimp only
  split
  · exact Nat.le_refl _
  · rw [brk_coalesce, brk_putTags]
    split
    · exact brk_le_mmInit lib h
    · exact Nat.le_refl _

theorem brk_le_mmRealloc {r : Heap × ℕ} (hrun : r ∈ mmRealloc lib h bp size) :
    h.brk ≤ r.1.brk := by
  unfold mmRealloc at hrun
  split at hrun
  · obtain rfl := Option.some.inj hrun
    exact brk_le_mmFree lib h bp
  split at hrun
  · exact brk_le_mmMalloc hrun
  split at hrun
  · cases hrun
  · rename_i g p hmalloc
    have hle : h.brk ≤ g.brk := brk_le_mmMalloc hmalloc
    dsimp only at hrun
    split at hrun
    · obtain rfl := Option.some.inj hrun
      exact hle
    · obtain ⟨k, hk⟩ : ∃ k, (if size < g.getSize (hdrp bp) then size
          else g.getSize (hdrp bp)) = k := ⟨_, rfl⟩
      rw [hk] at hrun
      obtain rfl := Option.some.inj hrun
      have hcopy : (memcpy g p bp k).brk = g.brk := rfl
      rw [← hcopy] at hle
      exact Nat.le_trans hle (brk_le_mmFree lib _ bp)

end Brk

/-- `memset`. -/
def memset (h : Heap) (p : ℕ) (v : UInt8) : ℕ → Heap
  | 0 => h
  | n + 1 => { memset h p v n with ram := (memset h p v n).ram.setByte (p + n) v }

section Memset

variable {lib : Memlib} {h₀ h : Heap} {live : List (ℕ × ℕ)} {p n a : ℕ} {v : UInt8}

theorem memset_brk : (memset h p v n).brk = h.brk := by
  induction n with
  | zero => rfl
  | succ n ih => exact ih

theorem memset_bytes : (memset h p v n).ram.bytes a =
    if p ≤ a ∧ a < p + n then v else h.ram.bytes a := by
  induction n with
  | zero => rw [if_neg (by omega), memset]
  | succ n ih =>
      show Function.update (memset h p v n).ram.bytes (p + n) v a = _
      by_cases ha : a = p + n
      · rw [ha, Function.update_self, if_pos (by omega)]
      · rw [Function.update_of_ne ha, ih]
        refine if_congr ?_ rfl rfl
        omega

/-- A client may fill its blocks. -/
theorem reach_memset {m : ℕ} (hs : Reach lib h₀ ⟨h, live⟩) (hq : (p, m) ∈ live) (hn : n ≤ m) :
    Reach lib h₀ ⟨memset h p v n, live⟩ := by
  induction n with
  | zero => exact hs
  | succ n ih =>
      exact .write (q := (p, m)) v (ih (by omega)) hq (Nat.le_add_right _ _)
        (Nat.add_lt_add_left (by omega) p)

end Memset

/-- **`mm.c`** on the memory of `memlib.c`. -/
def mm (lib : Memlib) : Package Heap where
  memHeapLo := lib.start
  memBrk h := h.brk
  memResetBrk h := { h with brk := lib.start }
  byte h a := h.ram.bytes a
  memset := memset
  mmInit := mmInit lib
  mmMalloc := mmMalloc lib
  mmFree := mmFree lib
  mmRealloc := mmRealloc lib
  memBrk_memset _ _ _ _ := memset_brk
  memBrk_mmMalloc _ _ _ hrun := brk_le_mmMalloc hrun
  memBrk_mmFree := brk_le_mmFree lib
  memBrk_mmRealloc _ _ _ _ hrun := brk_le_mmRealloc hrun

/-! ### One request -/

/-- `add_range` accepts a payload that is apart from the others. -/
theorem addRange_apart {heapLo brk lo size : ℕ} {live : List (ℕ × ℕ)} (hsize : 1 ≤ size)
    (haligned : lo % 8 = 0) (hlo : heapLo ≤ lo) (hhi : lo + size ≤ brk)
    (hlive : ∀ q ∈ live, 1 ≤ q.2 ∧ (lo + size ≤ q.1 ∨ q.1 + q.2 ≤ lo)) :
    addRange heapLo brk (live.map range) lo size = .ok (((lo, size) :: live).map range) := by
  have hnone : ((live.map range).find? fun r => Hits lo (lo + size - 1) r) = none := by
    rw [List.find?_eq_none]
    intro r hr
    obtain ⟨q, hq, rfl⟩ := List.mem_map.1 hr
    have := hlive q hq
    rw [decide_eq_true_eq]
    simp only [Hits, range]
    omega
  unfold addRange
  dsimp only
  rw [if_neg (by omega), if_neg (by omega), if_neg (by omega), hnone]
  rfl

/-- The comparison of the driver on a block that is filled as it should be. -/
theorem preserved_filled {P : Package Heap} {h : Heap} {p index n : ℕ} (hn : 1 ≤ n)
    (hbytes : ∀ j < n, P.byte h (p + j) = filling index) :
    preserved P h p index n = true ↔ index % 256 < 128 := by
  have hlt : index % 256 < 256 := Nat.mod_lt _ (by decide)
  have hnat : (filling index).toNat = index % 256 := by
    rw [filling, UInt8.toNat_ofNat']
    exact Nat.mod_eq_of_lt hlt
  have hchar : signedChar (filling index) = ((index % 256 : ℕ) : ℤ) ↔ index % 256 < 128 := by
    unfold signedChar
    rw [hnat]
    split <;> omega
  rw [preserved, List.all_eq_true]
  constructor
  · intro hall
    have hfirst := hall 0 (List.mem_range.2 hn)
    rw [hbytes 0 hn, decide_eq_true_eq] at hfirst
    exact hchar.1 hfirst
  · intro hsmall j hj
    rw [hbytes j (List.mem_range.1 hj), decide_eq_true_eq]
    exact hchar.2 hsmall

/-- **The contents move along** when a block is given a new size. -/
theorem realloc_bytes {lib : Memlib} {h₀ h h' : Heap} {live : List (ℕ × ℕ)} {p q m n : ℕ}
    (hs : Reach lib h₀ ⟨h, live⟩) (hlive : (p, m) ∈ live) (hn : 1 ≤ n) (hmax : n ≤ 2147483647)
    (hrun : mmRealloc lib h p n = some (h', q)) (hq : q ≠ 0) :
    ∀ i < min n m, h'.ram.bytes (q + i) = h.ram.bytes (p + i) := by
  obtain ⟨bs, l, hg, hh⟩ := hs.inv
  obtain ⟨b, hb, hbase, hroom⟩ := hh.room _ hlive
  obtain rfl : b.base = p := hbase
  obtain ⟨hmem, halloc⟩ := mem_allocated.1 hb
  obtain ⟨L, R, rfl⟩ := List.append_of_mem hmem
  have hbounds := hg.rep.layout.bounds (mem_allBlocks hmem)
  have hsize : n ≤ 4294967280 := by omega
  obtain ⟨h₁, p', hmalloc, hanswered⟩ := mmMalloc_answered hg hsize (by omega)
  rcases hanswered.served hg hsize with ⟨rfl, -⟩ | ⟨bs₁, l₁, k, hserved⟩
  · have hptr : b.base ≠ 0 := by omega
    rw [mmRealloc_refused (by omega) hptr hmalloc] at hrun
    obtain ⟨-, rfl⟩ := Prod.mk.inj (Option.some.inj hrun)
    exact absurd rfl hq
  · obtain ⟨h₂, hrun', -, hcontents, -⟩ :=
      mmRealloc_moved_spec hg halloc (by omega) hmalloc hserved
    obtain ⟨rfl, rfl⟩ := Prod.mk.inj (Option.some.inj (hrun'.symm.trans hrun))
    simp only at hroom
    exact fun i hi => hcontents i (by omega) (by omega)

/-- **The invariant of the driver's run**: the heap was reached by valid calls, the range list and
the arrays of the trace are about what is allocated, and every block is filled with the low byte of
its id. -/
structure Passing (lib : Memlib) (h₀ : Heap) (t : Test Heap) (live : List (ℕ × ℕ)) (ids : List ℕ) :
    Prop where
  reach : Reach lib h₀ ⟨t.heap, live⟩
  ranges : t.ranges = live.map range
  pos : ∀ q ∈ live, 1 ≤ q.2
  mem : ∀ i ∈ ids, (t.blocks i, t.blockSizes i) ∈ live
  ne : ∀ i ∈ ids, ∀ j ∈ ids, i ≠ j → t.blocks i ≠ t.blocks j
  filled : ∀ i ∈ ids, ∀ a, t.blocks i ≤ a → a < t.blocks i + t.blockSizes i →
    t.heap.ram.bytes a = filling i

/-! ### The memory that a trace needs -/

/-- The memory that is asked for when a request is not served from a free block. -/
def demand (size : ℕ) : ℕ := max (adjust size) chunksize

/-- The memory that a request may need. -/
def Traceop.demand : Traceop → ℕ
  | alloc _ size => Mdriver.demand size
  | realloc _ size => Mdriver.demand size
  | free _ => 0

/-- The memory that a trace may need. -/
def need (ops : List Traceop) : ℕ := (ops.map Traceop.demand).sum

/-- The ids that are reallocated compare as signed characters: their low byte is less than 128. -/
def Traceop.Plain : Traceop → Prop
  | realloc index _ => index % 256 < 128
  | _ => True

/-- A request for at least one byte. -/
def Traceop.Sized : Traceop → Prop
  | alloc _ size => 1 ≤ size
  | realloc _ size => 1 ≤ size
  | free _ => True

/-- **There is memory for a trace**: every request could be served with new memory. -/
structure Affordable (lib : Memlib) (ops : List Traceop) : Prop where
  grant : ∀ k, lib.grant k = true
  sized : ∀ op ∈ ops, op.Sized
  room : lib.start + 4128 + need ops ≤ lib.maxAddr
  need_lt : need ops < 2147483648

/-- `mem_sbrk` refuses an increment. -/
def Refuses (lib : Memlib) (h : Heap) (incr : ℕ) : Prop :=
  2147483648 ≤ incr ∨ lib.maxAddr < h.brk + incr ∨ lib.grant h.sbrks = false

/-- **What a request can be blamed for**: a null pointer, when nothing was asked for or no memory is
left; or the comparison of signed characters. -/
inductive Fault (lib : Memlib) (h : Heap) : Traceop → Failure → Prop
  | malloc (index size : ℕ) (hnull : size = 0 ∨ Refuses lib h (demand size)) :
      Fault lib h (.alloc index size) .malloc
  | realloc (index size : ℕ) (hnull : size = 0 ∨ Refuses lib h (demand size)) :
      Fault lib h (.realloc index size) .realloc
  | signed (index size : ℕ) (hindex : 128 ≤ index % 256) :
      Fault lib h (.realloc index size) .notPreserved

section Memory

variable {lib : Memlib} {h₀ h h' : Heap} {live : List (ℕ × ℕ)} {p q n : ℕ}

/-- A null pointer of `mm_malloc` is due to `mem_sbrk`, and the heap grows by what was asked for. -/
theorem malloc_memory {bs : List Block} {l : List ℕ} (hg : Good lib h bs l) (hn : 1 ≤ n)
    (hmax : n ≤ 2147483647) (hrun : mmMalloc lib h n = some (h', p)) :
    (p = 0 → Refuses lib h (demand n)) ∧ h'.brk ≤ h.brk + demand n := by
  have hsize : n ≤ 4294967280 := by omega
  obtain ⟨h₁, p₁, hrun₁, hanswered⟩ := mmMalloc_answered hg hsize (by omega)
  obtain ⟨rfl, rfl⟩ := Prod.mk.inj (Option.some.inj (hrun₁.symm.trans hrun))
  cases hanswered with
  | @found L R b blocks free le fit =>
      subst blocks
      have hb := hg.rep.layout.bounds (mem_allBlocks (b := b) (by simp))
      rw [brk_place]
      exact ⟨fun hnull => by omega, Nat.le_add_right _ _⟩
  | refused full fit sbrk extend =>
      refine ⟨fun _ => ?_, Nat.le_add_right _ _⟩
      rcases memSbrk_cases lib h (max (adjust n) chunksize) with ⟨-, hno⟩ | ⟨hyes, -⟩
      · exact hno
      · rw [hyes] at sbrk
        have hbrk := hg.rep.layout.brk_bounds
        have hminus : minusOne = 4294967295 := rfl
        simp only at sbrk
        omega
  | @grown g L R m l' full fit sbrk extend extended =>
      have hm := extended.good.rep.layout.bounds (mem_allBlocks (b := m) (by simp))
      rw [brk_place, extended.brk]
      exact ⟨fun hnull => by omega, Nat.le_refl _⟩

theorem brk_mmFree (hinit : h.heapListp ≠ 0) : (mmFree lib h q).brk = h.brk := by
  by_cases hq : q = 0
  · rw [hq]
    rfl
  · rw [mmFree_eq lib hq hinit rfl, brk_coalesce, brk_putTags]

/-- The same of `mm_realloc`, which frees the old block afterwards. -/
theorem realloc_memory {bs : List Block} {l : List ℕ} (hg : Good lib h bs l) (hn : 1 ≤ n)
    (hmax : n ≤ 2147483647) (hq : q ≠ 0) (hrun : mmRealloc lib h q n = some (h', p)) :
    (p = 0 → Refuses lib h (demand n)) ∧ h'.brk ≤ h.brk + demand n := by
  obtain ⟨h₁, p₁, hmalloc, hcases⟩ := mmMalloc_spec hg hmax
  obtain ⟨hrefuses, hbrk⟩ := malloc_memory hg hn hmax hmalloc
  by_cases hnull : p₁ = 0
  · subst hnull
    rw [mmRealloc_refused (by omega) hq hmalloc] at hrun
    obtain ⟨rfl, rfl⟩ := Prod.mk.inj (Option.some.inj hrun)
    exact ⟨hrefuses, hbrk⟩
  · rw [mmRealloc_moved (by omega) hq hnull hmalloc rfl] at hrun
    obtain ⟨rfl, rfl⟩ := Prod.mk.inj (Option.some.inj hrun)
    obtain ⟨hzero, -⟩ | ⟨bs', l', k, hserved⟩ := hcases
    · exact absurd hzero hnull
    have hlistp := hserved.good.rep.heapListp
    have hinit : (memcpy h₁ p₁ q
        (if n < h₁.getSize (hdrp q) then n else h₁.getSize (hdrp q))).heapListp ≠ 0 := by
      show h₁.heapListp ≠ 0
      omega
    refine ⟨fun hnone => absurd hnone hnull, ?_⟩
    rw [brk_mmFree hinit]
    exact hbrk

end Memory

section Step

variable {lib : Memlib} {h₀ s : Heap} {t : Test Heap} {kept live : List (ℕ × ℕ)} {ids : List ℕ}
  {index size p n : ℕ}

/-- The range of a block that `mm.c` handed out is accepted, and what is left is the comparison. -/
theorem receive_mm (t : Test Heap) (index n : ℕ) (hpos : ∀ q ∈ kept, 1 ≤ q.2)
    (hsize : 1 ≤ size) (haligned : p % 8 = 0) (hlo : lib.start ≤ p) (hhi : p + size ≤ t.heap.brk)
    (hapart : ∀ q ∈ kept, p + size ≤ q.1 ∨ q.1 + q.2 ≤ p) (hranges : t.ranges = kept.map range) :
    receive (mm lib) t index size p n =
      if preserved (mm lib) t.heap p index n then
        .ok
          { heap := memset t.heap p (filling index) size
            ranges := ((p, size) :: kept).map range
            blocks := Function.update t.blocks index p
            blockSizes := Function.update t.blockSizes index size }
      else .error .notPreserved := by
  have hadd : addRange (mm lib).memHeapLo ((mm lib).memBrk t.heap) t.ranges p size =
      .ok (((p, size) :: kept).map range) := by
    rw [hranges]
    exact addRange_apart hsize haligned hlo hhi fun q hq => ⟨hpos q hq, hapart q hq⟩
  unfold receive
  rw [hadd]
  rfl

/-- The invariant after a block was received. -/
theorem received (hreach : Reach lib h₀ ⟨t.heap, (p, size) :: kept⟩) (hpos : ∀ q ∈ kept, 1 ≤ q.2)
    (hsize : 1 ≤ size) (hapart : ∀ q ∈ kept, p + size ≤ q.1 ∨ q.1 + q.2 ≤ p)
    (hmem : ∀ i ∈ ids, i ≠ index → (t.blocks i, t.blockSizes i) ∈ kept)
    (hne : ∀ i ∈ ids, ∀ j ∈ ids, i ≠ j → t.blocks i ≠ t.blocks j)
    (hfilled : ∀ i ∈ ids, i ≠ index → ∀ a, t.blocks i ≤ a → a < t.blocks i + t.blockSizes i →
      t.heap.ram.bytes a = filling i) :
    Passing lib h₀
      { heap := memset t.heap p (filling index) size
        ranges := ((p, size) :: kept).map range
        blocks := Function.update t.blocks index p
        blockSizes := Function.update t.blockSizes index size }
      ((p, size) :: kept) (index :: ids) where
  reach := reach_memset hreach List.mem_cons_self (Nat.le_refl _)
  ranges := rfl
  pos q hq := by
    rcases List.mem_cons.1 hq with rfl | hq
    · exact hsize
    · exact hpos q hq
  mem i hi := by
    by_cases hii : i = index
    · subst hii
      simp
    · simp only [Function.update_of_ne hii]
      exact List.mem_cons_of_mem _ (hmem i ((List.mem_cons.1 hi).resolve_left hii) hii)
  ne := ne_update hne fun i hi hii heq => by
    -- the new block starts elsewhere
    have hold := hmem i hi hii
    have hlen := hpos _ hold
    have := hapart _ hold
    simp only at hlen this
    omega
  filled i hi a hlo hhi := by
    rw [memset_bytes]
    by_cases hii : i = index
    · subst hii
      simp only [Function.update_self] at hlo hhi
      exact if_pos ⟨hlo, hhi⟩
    · simp only [Function.update_of_ne hii] at hlo hhi
      have hold := (List.mem_cons.1 hi).resolve_left hii
      have := hapart _ (hmem i hold hii)
      simp only at this
      rw [if_neg (by omega)]
      exact hfilled i hold hii a hlo hhi

/-- A null pointer is what the request for no bytes returns. -/
theorem size_pos_of_malloc {h h' : Heap} (hs : Reach lib h₀ ⟨h, live⟩)
    (hrun : mmMalloc lib h n = some (h', p)) (hp : p ≠ 0) : 1 ≤ n := by
  obtain ⟨bs, l, hg, -⟩ := hs.inv
  have hlistp := hg.rep.heapListp
  simp only at hlistp
  rcases Nat.eq_zero_or_pos n with rfl | hpos
  · rw [mmMalloc_zero (by omega)] at hrun
    obtain ⟨-, rfl⟩ := Prod.mk.inj (Option.some.inj hrun)
    exact absurd rfl hp
  · exact hpos

theorem size_pos_of_realloc {h h' : Heap} {q : ℕ} (hrun : mmRealloc lib h q n = some (h', p))
    (hp : p ≠ 0) : 1 ≤ n := by
  rcases Nat.eq_zero_or_pos n with rfl | hpos
  · rw [mmRealloc_zero] at hrun
    obtain ⟨-, rfl⟩ := Prod.mk.inj (Option.some.inj hrun)
    exact absurd rfl hp
  · exact hpos

/-- The blocks other than one are allocations other than its own. -/
theorem Passing.mem_drop (hp : Passing lib h₀ t live ids) (hindex : index ∈ ids) {i : ℕ}
    (hi : i ∈ ids) (hii : i ≠ index) :
    (t.blocks i, t.blockSizes i) ∈ drop live (t.blocks index) :=
  List.mem_filter.2 ⟨hp.mem i hi, decide_eq_true (hp.ne i hi index hindex hii)⟩

/-- `mm_malloc` under the driver. -/
theorem validOp_alloc (index : ℕ) (hp : Passing lib h₀ t live ids) (hmax : size ≤ 2147483647) :
    (∃ t' live', validOp (mm lib) t (.alloc index size) = .ok t' ∧
        Passing lib h₀ t' live' (index :: ids) ∧ t'.heap.brk ≤ t.heap.brk + demand size) ∨
      validOp (mm lib) t (.alloc index size) = .error .malloc ∧
        (size = 0 ∨ Refuses lib t.heap (demand size)) := by
  obtain ⟨bs, l, hg, hh⟩ := hp.reach.inv
  have hvalid : (Call.malloc size).Valid live := ⟨hmax, .inl rfl⟩
  obtain ⟨h', p, bs', l', used, hrun, hcalled, -⟩ := call_spec hg hh hvalid
  have hmalloc : (mm lib).mmMalloc t.heap size = some (h', p) := hrun
  by_cases hnull : p = 0
  · right
    constructor
    · simp only [validOp, hmalloc]
      exact if_pos hnull
    · rcases Nat.eq_zero_or_pos size with hzero | hpos
      · exact .inl hzero
      · exact .inr ((malloc_memory hg hpos hmax hrun).1 hnull)
  left
  have hsize := size_pos_of_malloc hp.reach hrun hnull
  have hbrk := (malloc_memory hg hsize hmax hrun).2
  obtain ⟨haligned, hlo, hhi, hapart⟩ := hcalled.returned hnull
  have hreach := hp.reach.call hvalid hrun
  rw [Call.after, if_neg hnull] at hreach
  have hreceive :=
    receive_mm { t with heap := h' } index 0 hp.pos hsize haligned hlo hhi hapart hp.ranges
  rw [if_pos (by rfl)] at hreceive
  refine ⟨_, (p, size) :: live, ?_, received (t := { t with heap := h' }) hreach hp.pos hsize
    hapart (fun i hi _ => hp.mem i hi) hp.ne fun i hi _ a hlo hhi => ?_, ?_⟩
  · simp only [validOp, hmalloc, if_neg hnull]
    exact hreceive
  · rw [hcalled.bytes (hp.mem i hi) hlo hhi]
    exact hp.filled i hi a hlo hhi
  · exact Nat.le_trans (Nat.le_of_eq memset_brk) hbrk

/-- `mm_realloc` under the driver. -/
theorem validOp_realloc (hp : Passing lib h₀ t live ids) (hindex : index ∈ ids)
    (hmax : size ≤ 2147483647) :
    (index % 256 < 128 ∧ ∃ t' live', validOp (mm lib) t (.realloc index size) = .ok t' ∧
        Passing lib h₀ t' live' (index :: ids) ∧ t'.heap.brk ≤ t.heap.brk + demand size) ∨
      (validOp (mm lib) t (.realloc index size) = .error .realloc ∧
        (size = 0 ∨ Refuses lib t.heap (demand size))) ∨
      validOp (mm lib) t (.realloc index size) = .error .notPreserved ∧ 128 ≤ index % 256 := by
  obtain ⟨bs, l, hg, hh⟩ := hp.reach.inv
  have hold := hp.mem index hindex
  have hvalid : (Call.realloc (t.blocks index) size).Valid live := ⟨hmax, .inr ⟨_, hold, rfl⟩⟩
  obtain ⟨h', p, bs', l', used, hrun, hcalled, -⟩ := call_spec hg hh hvalid
  have hrealloc : (mm lib).mmRealloc t.heap (t.blocks index) size = some (h', p) := hrun
  have hptr : t.blocks index ≠ 0 := by
    obtain ⟨b, hb, hbase, -⟩ := hh.room _ hold
    have := hg.rep.layout.bounds (mem_allBlocks (mem_allocated.1 hb).1)
    simp only at hbase
    omega
  by_cases hnull : p = 0
  · right
    left
    constructor
    · simp only [validOp, hrealloc]
      exact if_pos hnull
    · rcases Nat.eq_zero_or_pos size with hzero | hpos
      · exact .inl hzero
      · exact .inr ((realloc_memory hg hpos hmax hptr hrun).1 hnull)
  have hsize := size_pos_of_realloc hrun hnull
  have hbrk := (realloc_memory hg hsize hmax hptr hrun).2
  have hkept : (Call.realloc (t.blocks index) size).kept live p = drop live (t.blocks index) :=
    if_neg fun hand => hnull hand.2
  rw [hkept] at hcalled
  obtain ⟨haligned, hlo, hhi, hapart⟩ := hcalled.returned hnull
  have hreach := hp.reach.call hvalid hrun
  rw [Call.after, if_neg hnull, hkept] at hreach
  have hpos : ∀ q ∈ drop live (t.blocks index), 1 ≤ q.2 := fun q hq =>
    hp.pos q (List.mem_filter.1 hq).1
  have hranges : removeRange t.ranges (t.blocks index) =
      (drop live (t.blocks index)).map range := by
    rw [hp.ranges, removeRange_ranges (hh.nodup hg)]
  have hlen := hp.pos _ hold
  have hreceive := receive_mm
    { t with heap := h', ranges := removeRange t.ranges (t.blocks index) } index
    (min size (t.blockSizes index)) hpos hsize haligned hlo hhi hapart hranges
  have hcompare : preserved (mm lib) h' p index (min size (t.blockSizes index)) = true ↔
      index % 256 < 128 := by
    refine preserved_filled (by simp only at hlen; omega) fun j hj => ?_
    have hmoved := realloc_bytes hp.reach hold hsize hmax hrun hnull j hj
    refine hmoved.trans (hp.filled index hindex _ (Nat.le_add_right _ _) ?_)
    omega
  have hop : validOp (mm lib) t (.realloc index size) = receive (mm lib)
      { t with heap := h', ranges := removeRange t.ranges (t.blocks index) } index size p
      (min size (t.blockSizes index)) := by
    simp only [validOp, hrealloc, if_neg hnull]
  rw [hop, hreceive]
  by_cases hsmall : index % 256 < 128
  · left
    rw [if_pos (hcompare.2 hsmall)]
    refine ⟨hsmall, _, _, rfl, received
      (t := { t with heap := h', ranges := removeRange t.ranges (t.blocks index) }) hreach hpos
      hsize hapart (fun i hi hii => hp.mem_drop hindex hi hii) hp.ne fun i hi hii a hlo hhi => ?_,
      Nat.le_trans (Nat.le_of_eq memset_brk) hbrk⟩
    rw [hcalled.bytes (hp.mem_drop hindex hi hii) hlo hhi]
    exact hp.filled i hi a hlo hhi
  · right
    right
    rw [if_neg fun hyes => hsmall (hcompare.1 hyes)]
    exact ⟨rfl, by omega⟩

/-- `mm_free` under the driver. -/
theorem validOp_free (hp : Passing lib h₀ t live ids) (hindex : index ∈ ids) :
    ∃ t' live', validOp (mm lib) t (.free index) = .ok t' ∧
      Passing lib h₀ t' live' ((Traceop.free index).live ids) ∧ t'.heap.brk = t.heap.brk := by
  obtain ⟨bs, l, hg, hh⟩ := hp.reach.inv
  have hold := hp.mem index hindex
  have hvalid : (Call.free (t.blocks index)).Valid live := ⟨Nat.zero_le _, .inr ⟨_, hold, rfl⟩⟩
  have hkept : ∀ i ∈ (Traceop.free index).live ids, i ∈ ids ∧ i ≠ index := fun i hi =>
    ⟨(List.mem_filter.1 hi).1, of_decide_eq_true (List.mem_filter.1 hi).2⟩
  obtain ⟨h', p, bs', l', used, hrun, hcalled, -⟩ := call_spec hg hh hvalid
  obtain ⟨rfl, rfl⟩ := Prod.mk.inj (Option.some.inj hrun)
  have hreach := hp.reach.call hvalid hrun
  have hinit : t.heap.heapListp ≠ 0 := by
    have hlistp := hg.rep.heapListp
    simp only at hlistp
    omega
  refine ⟨_, drop live (t.blocks index), rfl, ⟨hreach, ?_, fun q hq => hp.pos q
    (List.mem_filter.1 hq).1, fun i hi => hp.mem_drop hindex (hkept i hi).1 (hkept i hi).2,
    fun i hi j hj => hp.ne i (hkept i hi).1 j (hkept j hj).1, fun i hi a hlo hhi => ?_⟩,
    brk_mmFree hinit⟩
  · show removeRange t.ranges (t.blocks index) = _
    rw [hp.ranges, removeRange_ranges (hh.nodup hg)]
  · have hbytes := hcalled.bytes (hp.mem_drop hindex (hkept i hi).1 (hkept i hi).2) hlo hhi
    exact hbytes.trans (hp.filled i (hkept i hi).1 a hlo hhi)

/-- **One request under the driver.** -/
theorem validOp_mm {op : Traceop} (hp : Passing lib h₀ t live ids) (hvalid : op.Valid ids)
    (hmax : op.size ≤ 2147483647) :
    (∃ t' live', validOp (mm lib) t op = .ok t' ∧ Passing lib h₀ t' live' (op.live ids) ∧
        t'.heap.brk ≤ t.heap.brk + op.demand ∧ op.Plain) ∨
      ∃ e, validOp (mm lib) t op = .error e ∧ Fault lib t.heap op e := by
  cases op with
  | alloc index size =>
      obtain ⟨t', live', hok, hp', hbrk⟩ | ⟨herror, hnull⟩ := validOp_alloc index hp hmax
      · exact .inl ⟨t', live', hok, hp', hbrk, trivial⟩
      · exact .inr ⟨_, herror, .malloc index size hnull⟩
  | realloc index size =>
      obtain ⟨hsmall, t', live', hok, hp', hbrk⟩ | ⟨herror, hnull⟩ | ⟨herror, hlarge⟩ :=
        validOp_realloc hp hvalid hmax
      · refine .inl ⟨t', live', hok, ⟨hp'.reach, hp'.ranges, hp'.pos, fun i hi => ?_,
          fun i hi j hj => ?_, fun i hi => ?_⟩, hbrk, hsmall⟩
        · exact hp'.mem i (List.mem_cons_of_mem _ hi)
        · exact hp'.ne i (List.mem_cons_of_mem _ hi) j (List.mem_cons_of_mem _ hj)
        · exact hp'.filled i (List.mem_cons_of_mem _ hi)
      · exact .inr ⟨_, herror, .realloc index size hnull⟩
      · exact .inr ⟨_, herror, .signed index size hlarge⟩
  | free index =>
      obtain ⟨t', live', hok, hp', hbrk⟩ := validOp_free hp hvalid
      exact .inl ⟨t', live', hok, hp', Nat.le_of_eq hbrk, trivial⟩

theorem need_append (pre suf : List Traceop) : need (pre ++ suf) = need pre + need suf := by
  rw [need, List.map_append, List.sum_append]
  rfl

/-- **All requests under the driver**, up to the first that fails. -/
theorem validOps_mm {ops : List Traceop} {k : ℕ} (hp : Passing lib h₀ t live ids)
    (hvalid : Valid ids ops) (hmax : ∀ op ∈ ops, op.size ≤ 2147483647) :
    (∃ t', validOps (mm lib) k t ops = .ok t' ∧ ∀ op ∈ ops, op.Plain) ∨
      ∃ pre op suf t₁ e, ops = pre ++ op :: suf ∧ validOps (mm lib) k t pre = .ok t₁ ∧
        t₁.heap.brk ≤ t.heap.brk + need pre ∧
        validOps (mm lib) k t ops = .error (k + pre.length, e) ∧ Fault lib t₁.heap op e := by
  induction ops generalizing t live ids k with
  | nil => exact .inl ⟨t, rfl, fun op hop => by cases hop⟩
  | cons op ops ih =>
      rcases validOp_mm hp hvalid.1 (hmax op List.mem_cons_self) with
        ⟨t₁, live₁, hok, hp₁, hbrk, hplain⟩ | ⟨e, herror, hfault⟩
      · have hstep : ∀ ops, validOps (mm lib) k t (op :: ops) =
            validOps (mm lib) (k + 1) t₁ ops := fun ops => by rw [validOps, hok]
        rcases ih (k := k + 1) hp₁ hvalid.2 fun o ho => hmax o (List.mem_cons_of_mem _ ho) with
          ⟨t', hok', hplain'⟩ | ⟨pre, o, suf, t₂, e, rfl, hpre, hbrk', herror, hfault⟩
        · refine .inl ⟨t', (hstep ops).trans hok', fun o ho => ?_⟩
          rcases List.mem_cons.1 ho with rfl | ho
          · exact hplain
          · exact hplain' o ho
        · refine .inr ⟨op :: pre, o, suf, t₂, e, rfl, (hstep pre).trans hpre, ?_, ?_, hfault⟩
          · have hsum : need (op :: pre) = op.demand + need pre := List.sum_cons
            omega
          · rw [hstep, herror, List.length_cons]
            congr 2
            omega
      · refine .inr ⟨[], op, ops, t, e, rfl, rfl, Nat.le_add_right _ _, ?_, hfault⟩
        rw [validOps, herror]
        rfl

end Step

/-! ### The verdict -/

section Verdict

variable {lib : Memlib} {h : Heap} {t : Test Heap} {ops : List Traceop}

/-- `mm_init` returns zero or `-1`. -/
theorem mmInit_result (lib : Memlib) (h : Heap) : (mmInit lib h).2 = 0 ∨ (mmInit lib h).2 = -1 := by
  unfold mmInit
  dsimp only
  split
  · exact .inr rfl
  · split
    · exact .inr rfl
    · exact .inl rfl

/-- **`mm_init` succeeds** when there is memory for it. -/
theorem mmInit_fits (hgrant : ∀ k, lib.grant k = true) (hroom : lib.start + 4128 ≤ lib.maxAddr)
    (hbrk : h.brk = lib.start) :
    (mmInit lib h).2 = 0 ∧ (mmInit lib h).1.brk = lib.start + 4128 := by
  have hlt := lib.maxAddr_lt
  have hgranted : ∀ (h : Heap) (incr : ℕ), incr < 2147483648 → h.brk + incr ≤ lib.maxAddr →
      memSbrk lib h incr = ({ h with sbrks := h.sbrks + 1, brk := h.brk + incr }, h.brk) := by
    intro h incr hsmall hfits
    rcases memSbrk_cases lib h incr with ⟨-, hno⟩ | ⟨hyes, -⟩
    · have := hgrant h.sbrks
      simp only [this, Bool.true_eq_false, or_false] at hno
      omega
    · exact hyes
  have hne : h.brk ≠ minusOne := by
    have : minusOne = 4294967295 := rfl
    omega
  obtain ⟨g, hg⟩ : ∃ g, g =
    initBlocks { h with sbrks := h.sbrks + 1, brk := h.brk + 32, heapListp := h.brk } := ⟨_, rfl⟩
  have hgood : Good lib g [] [] := by
    rw [hg]
    exact good_initBlocks hbrk (by rw [hbrk]) (by omega)
  have hgbrk : g.brk = lib.start + 32 := by
    rw [hg, brk_initBlocks hbrk (by omega), hbrk]
  have hcall := mmInit_granted (r := extendHeap lib g 1024) hne
    (hgranted h 32 (by omega) (by omega)) hg rfl
  have hsbrk := hgranted g 4096 (by omega) (by omega)
  have heven : 1024 % 2 = 0 := rfl
  rcases extendHeap_spec hgood heven (mulw_eq (by omega)) (by omega) (by omega) with
    ⟨hno, -⟩ | ⟨-, L, m, R, l', hbase, hext⟩
  · rw [hsbrk] at hno
    have : minusOne = 4294967295 := rfl
    simp only at hno
    omega
  · have hm := hext.good.rep.layout.bounds (mem_allBlocks (b := m) (by simp))
    rw [hcall, if_neg (by rw [hbase]; omega)]
    refine ⟨rfl, ?_⟩
    have := hext.brk
    simp only
    omega

/-- The state that the requests start from. -/
theorem passing_start (hok : (mmInit lib { h with brk := lib.start }).2 = 0) (t : Test Heap) :
    Passing lib { h with brk := lib.start }
      { t with heap := (mmInit lib { h with brk := lib.start }).1, ranges := [] } [] [] where
  reach := .init rfl hok
  ranges := rfl
  pos q hq := by cases hq
  mem i hi := by cases hi
  ne i hi := by cases hi
  filled i hi := by cases hi

/-- With enough memory a request can only be blamed for the comparison. -/
theorem Fault.signed_of_affordable {pre suf : List Traceop} {op : Traceop} {e : Failure}
    (hf : Fault lib h op e) (ha : Affordable lib (pre ++ op :: suf))
    (hbrk : h.brk ≤ lib.start + 4128 + need pre) : ¬ op.Plain := by
  have hsum : need (pre ++ op :: suf) = need pre + (op.demand + need suf) := by
    rw [need_append]
    exact congrArg _ List.sum_cons
  have hroom := ha.room
  have hlt := ha.need_lt
  have hsized := ha.sized op (by simp)
  have hserved : ∀ size, op.demand = demand size → 1 ≤ size →
      ¬ (size = 0 ∨ Refuses lib h (demand size)) := by
    rintro size hdemand hpos (hzero | hlarge | hfull | hno)
    · omega
    · omega
    · omega
    · rw [ha.grant] at hno
      cases hno
  cases hf with
  | malloc index size hnull => exact absurd hnull (hserved size rfl hsized)
  | realloc index size hnull => exact absurd hnull (hserved size rfl hsized)
  | signed index size hindex =>
      intro hplain
      have hsmall : index % 256 < 128 := hplain
      omega

/-- **How the driver judges `mm.c`**, on every trace that gives back only what it got.  A request
that fails is to blame for it: nothing was asked for, or no memory is left, or a block was moved
whose id has a low byte of 128 or more.  When there is memory for the trace, the driver approves if
and only if no such block is moved. -/
theorem evalMmValid_mm (t : Test Heap) (hvalid : Valid [] ops)
    (hmax : ∀ op ∈ ops, op.size ≤ 2147483647) :
    ((∃ t', evalMmValid (mm lib) t ops = .ok t' ∧ ∀ op ∈ ops, op.Plain) ∨
      evalMmValid (mm lib) t ops = .error (0, .init) ∨
      ∃ pre op suf t₁ e, ops = pre ++ op :: suf ∧ evalMmValid (mm lib) t pre = .ok t₁ ∧
        evalMmValid (mm lib) t ops = .error (pre.length, e) ∧ Fault lib t₁.heap op e) ∧
      (Affordable lib ops →
        ((∃ t', evalMmValid (mm lib) t ops = .ok t') ↔ ∀ op ∈ ops, op.Plain)) := by
  obtain ⟨h, hh⟩ : ∃ h : Heap, { t.heap with brk := lib.start } = h := ⟨_, rfl⟩
  have hbrk : h.brk = lib.start := hh ▸ rfl
  have heval : ∀ ops, evalMmValid (mm lib) t ops = if (mmInit lib h).2 < 0 then .error (0, .init)
      else validOps (mm lib) 0 { t with heap := (mmInit lib h).1, ranges := [] } ops :=
    fun ops => by
    rw [← hh]
    rfl
  rcases mmInit_result lib h with hok | hno
  · have hpass : ¬ (mmInit lib h).2 < 0 := by omega
    rw [← hh] at hok
    have hrun := validOps_mm (k := 0) (passing_start hok t) hvalid hmax
    rw [hh] at hok hrun
    simp only [heval, if_neg hpass]
    rcases hrun with ⟨t', hok', hplain⟩ | ⟨pre, op, suf, t₁, e, rfl, hpre, hgrowth, herror, hfault⟩
    · exact ⟨.inl ⟨t', hok', hplain⟩, fun _ => ⟨fun _ => hplain, fun _ => ⟨t', hok'⟩⟩⟩
    · rw [Nat.zero_add] at herror
      refine ⟨.inr (.inr ⟨pre, op, suf, t₁, e, rfl, hpre, herror, hfault⟩), fun ha => ?_⟩
      have hroom := ha.room
      have hstart := (mmInit_fits ha.grant (by omega) hbrk).2
      simp only [hstart] at hgrowth
      constructor
      · rintro ⟨t', hok'⟩
        rw [herror] at hok'
        cases hok'
      · intro hplain
        exact absurd (hplain op (by simp)) (hfault.signed_of_affordable ha hgrowth)
  · have hfail : (mmInit lib h).2 < 0 := by omega
    simp only [heval, if_pos hfail]
    refine ⟨.inr (.inl trivial), fun ha => ?_⟩
    have hroom := ha.room
    have := (mmInit_fits ha.grant (by omega) hbrk).1
    omega

/-- Four requests on a memory of 64 KiB, of which one moves a block. -/
theorem evalMmValid_mm_four : ∃ t', evalMmValid (mm plentiful) ⟨fresh, [], fun _ => 0, fun _ => 0⟩
    [.alloc 0 24, .alloc 1 100, .realloc 0 40, .free 1] = .ok t' := by
  have ha : Affordable plentiful [.alloc 0 24, .alloc 1 100, .realloc 0 40, .free 1] :=
    ⟨fun _ => rfl, by simp [Traceop.Sized], by decide, by decide⟩
  exact ((evalMmValid_mm _ (by decide) (by decide)).2 ha).2 (by simp [Traceop.Plain])

end Verdict

end Mdriver
