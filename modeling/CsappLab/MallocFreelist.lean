/-
**The free-list checker.**

`check_freelist` compares the free list with the blocks of the heap: it follows the list from the
dummy block, and then looks for every free block of the heap on it.  The heap need not be in order;
all that is asked of it is that its blocks tile it and that the list comes back to the dummy block.

A listed block is compared with its predecessor only.  That is enough for all neighbours, since the
second of two free ones is either on the list or missing from it.  The first block of the heap has
no predecessor: in front of the prologue there is the padding word, which reads as a block of no
size, so that a first block that is free and listed is taken for its own free neighbour.

Main definitions:

* `Malloc.isInFreeList`, `Malloc.checkFreelist` — the functions of the source;
* `Malloc.Tiled`, `Malloc.Consistent` — heaps whose blocks tile them, and what is checked.

Main results:

* `Malloc.inListLoop_returns`, `Malloc.listLoop_returns`, `Malloc.blockLoop_returns` — what the
  three loops decide;
* `Malloc.Tiled.consistent_iff_apart` — consistency, as the loops look for it;
* `Malloc.checkFreelist_iff` — **the check decides consistency**;
* `Malloc.checkFreelist_reach` — it succeeds after every run.
-/

import CsappLab.MallocCheck

set_option relaxedAutoImplicit false
set_option autoImplicit false

namespace Malloc

open ByteMem Tiling Linked EventLog

/-! ### `check_freelist` -/

/-- The loop of `is_in_free_list` from a block on. -/
def inListLoop (bp : ℕ) : ℕ → ℕ → Checker Bool
  | 0, current => do
      let h ← theHeap
      if current = h.dummyBlockp then return false
      else if current = bp then return true
      else outOfSteps
  | fuel + 1, current => do
      let h ← theHeap
      if current = h.dummyBlockp then return false
      else if current = bp then return true
      else
        let next ← readSucc current
        inListLoop bp fuel next

/-- `is_in_free_list`.  No block is visited twice, and there are fewer blocks than bytes. -/
def isInFreeList (bp : ℕ) : Checker Bool := do
  let h ← theHeap
  let current ← readSucc h.dummyBlockp
  inListLoop bp h.brk current

/-- The two tests of the first loop: the line that is printed about a listed block. -/
def listedFault (bp : ℕ) (lineno : ℤ) : Checker (Option String) := do
  let alloc ← readAlloc (hdrp bp)
  if alloc ≠ 0 then
    return some ("Line " ++ toString lineno ++ ": Allocated block found in free list at " ++
      hexPtr bp ++ "\n")
  else
    let alloc ← readAlloc (hdrp bp)
    if alloc ≠ 0 then return none
    else
      let prev ← readPrevBlkp bp
      let prevAlloc ← readAlloc (hdrp prev)
      if prevAlloc ≠ 0 then return none
      else
        return some ("Line " ++ toString lineno ++
          ": Contiguous free blocks that escaped coalescing found.\n")

/-- The first loop of `check_freelist` from a block on: whether it reaches the dummy block. -/
def listLoop (lineno : ℤ) : ℕ → ℕ → Checker Bool
  | fuel, bp => do
      let h ← theHeap
      if bp = h.dummyBlockp then return true
      else
        match fuel with
        | 0 => outOfSteps
        | fuel + 1 =>
            let fault ← listedFault bp lineno
            match fault with
            | some line =>
                print line
                return false
            | none =>
                let next ← readSucc bp
                listLoop lineno fuel next

/-- The test of the second loop: whether a block is free and not on the list. -/
def unlisted (bp : ℕ) : Checker Bool := do
  let alloc ← readAlloc (hdrp bp)
  if alloc ≠ 0 then return false
  else
    let found ← isInFreeList bp
    return !found

/-- The second loop of `check_freelist` from a block on: whether it reaches the end of the heap. -/
def blockLoop (lineno : ℤ) : ℕ → ℕ → Checker Bool
  | fuel, bp => do
      let size ← readSize (hdrp bp)
      if size = 0 then return true
      else
        match fuel with
        | 0 => outOfSteps
        | fuel + 1 =>
            let missing ← unlisted bp
            if missing then
              print ("Line " ++ toString lineno ++ ": Free block not in free list found at " ++
                hexPtr bp ++ "\n")
              return false
            else
              let next ← readNextBlkp bp
              blockLoop lineno fuel next

/-- `check_freelist`. -/
def checkFreelist (lineno : ℤ) : Checker ℤ := do
  let h ← theHeap
  let first ← readSucc h.dummyBlockp
  let listOk ← listLoop lineno h.brk first
  if listOk then
    let blocksOk ← blockLoop lineno h.brk h.heapListp
    if blocksOk then return 1 else return 0
  else return 0

/-! ### Heaps that need not be in order -/

/-- **A heap whose blocks tile it**: from `heap_listp` to the break each block starts where the one
before it ends, its footer is its header, and the epilogue has no size. -/
structure Tiled (h : Heap) (bs : List Block) : Prop where
  tiles : Tiles h.heapListp h.brk bs
  four_le : 4 ≤ h.heapListp
  brk_lt : h.brk < 4294967296
  size : ∀ b ∈ bs, h.getSize (hdrp b.base) = b.size ∧ 0 < b.size
  alloc : ∀ b ∈ bs, h.getAlloc (hdrp b.base) = b.alloc.toNat
  footer : ∀ b ∈ bs, h.get (h.ftrp b.base) = h.get (hdrp b.base)
  epilogue : h.getSize (hdrp h.brk) = 0

/-- **What is checked**: every listed block is free, no two neighbours are, and every free block is
listed. -/
structure Consistent (bs : List Block) (l : List ℕ) : Prop where
  listed_free : ∀ b ∈ bs, b.base ∈ l → b.alloc = false
  merged : Merged bs
  free_listed : ∀ b ∈ bs, b.alloc = false → b.base ∈ l

namespace Tiled

variable {h : Heap} {bs : List Block} {b : Block}

theorem bounds (ht : Tiled h bs) (hb : b ∈ bs) :
    4 ≤ b.base ∧ 8 ≤ b.size ∧ b.base + b.size ≤ h.brk ∧ h.brk < 4294967296 := by
  obtain ⟨hlo, hhi⟩ := ht.tiles.mem_bounds hb
  obtain ⟨hsize, hpos⟩ := ht.size b hb
  have hword : h.get (hdrp b.base) < 4294967296 := h.ram.word_lt _
  have hmult : b.size = 8 * (h.get (hdrp b.base) / 8) := by
    rw [← hsize, Heap.getSize, and_mask hword]
  have hfour := ht.four_le
  have hbrk := ht.brk_lt
  omega

theorem nextBlkp (ht : Tiled h bs) (hb : b ∈ bs) : h.nextBlkp b.base = b.base + b.size := by
  have hbounds := ht.bounds hb
  rw [nextBlkp_def, (ht.size b hb).1, addw_eq (by omega)]

/-- `PREV_BLKP` of the end of a block is the block. -/
theorem prevBlkp (ht : Tiled h bs) (hb : b ∈ bs) : h.prevBlkp (b.base + b.size) = b.base := by
  have hbounds := ht.bounds hb
  have hftrp : h.ftrp b.base = b.base + b.size - 8 := by
    rw [ftrp_def, (ht.size b hb).1, addw_eq (by omega), subw_eq (by omega) (by omega)]
  have hword : subw (b.base + b.size) 8 = b.base + b.size - 8 := subw_eq (by omega) (by omega)
  have hsize : h.getSize (h.ftrp b.base) = h.getSize (hdrp b.base) :=
    congrArg (· &&& 4294967288) (ht.footer b hb)
  rw [hftrp, (ht.size b hb).1] at hsize
  rw [prevBlkp_def, hword, hsize, subw_eq (by omega) (by omega)]
  omega

/-- In front of a block there is the one that `PREV_BLKP` finds. -/
theorem prevBlkp_next {bs₁ bs₂ : List Block} {a : Block} (ht : Tiled h (bs₁ ++ a :: b :: bs₂)) :
    h.prevBlkp b.base = a.base := by
  have hbase : b.base = a.base + a.size := (tiles_append_cons.1 ht.tiles).2.1
  rw [hbase]
  exact ht.prevBlkp (by simp)

theorem length_le (ht : Tiled h bs) : bs.length ≤ h.brk := by
  have hlen := ht.tiles.length_le fun b hb => (ht.size b hb).2
  omega

end Tiled

/-! ### What the loops decide -/

/-- A listed block is in order when it is free and the one that `PREV_BLKP` finds is not. -/
def Apart (h : Heap) (p : ℕ) : Prop :=
  h.getAlloc (hdrp p) = 0 ∧ h.getAlloc (hdrp (h.prevBlkp p)) ≠ 0

instance (h : Heap) (p : ℕ) : Decidable (Apart h p) := inferInstanceAs (Decidable (_ ∧ _))

section Loops

variable {h : Heap} {bs cs : List Block} {l l₁ l₂ : List ℕ} {p lo fuel : ℕ} {lineno : ℤ}

/-- **The search on the list**, from a position of it on. -/
theorem inListLoop_returns (hv : Visits h.getSucc h.dummyBlockp (l₁ ++ l₂))
    (hfuel : l₂.length ≤ fuel) :
    Returns h (inListLoop p fuel (headOf h.dummyBlockp l₂)) (decide (p ∈ l₂)) := by
  induction l₂ generalizing l₁ fuel with
  | nil =>
      have hstop : ∀ x : Checker Bool, Returns h (do
          let h' ← theHeap
          if headOf h.dummyBlockp [] = h'.dummyBlockp then return false else x) false := by
        intro x
        refine does_theHeap.returns.bind ?_
        rw [headOf_nil, if_pos rfl]
        exact returns_pure
      cases fuel with
      | zero => exact hstop _
      | succ fuel => exact hstop _
  | cons x l₂ ih =>
      have hx : x ≠ h.dummyBlockp := fun hx => hv.notMem (by simp [← hx])
      cases fuel with
      | zero => cases hfuel
      | succ fuel =>
          refine does_theHeap.returns.bind ?_
          rw [headOf_cons, if_neg hx]
          by_cases hp : x = p
          · rw [if_pos hp, decide_eq_true (hp ▸ List.mem_cons_self)]
            exact returns_pure
          · have hrest : Visits h.getSucc h.dummyBlockp (l₁ ++ [x] ++ l₂) := by
              rwa [List.append_assoc]
            have hmem : p ∈ x :: l₂ ↔ p ∈ l₂ := by simp [Ne.symm hp]
            rw [if_neg hp, decide_eq_decide.2 hmem]
            refine does_readSucc.returns.bind ?_
            rw [hv.next_node]
            exact ih hrest (Nat.le_of_succ_le_succ hfuel)

/-- **`is_in_free_list`.** -/
theorem isInFreeList_returns (hv : Visits h.getSucc h.dummyBlockp l) (hlen : l.length ≤ h.brk) :
    Returns h (isInFreeList p) (decide (p ∈ l)) := by
  have hall : Visits h.getSucc h.dummyBlockp ([] ++ l) := hv
  refine does_theHeap.returns.bind (does_readSucc.returns.bind ?_)
  rw [hv.next_dummy]
  exact inListLoop_returns hall hlen

/-- Nothing is wrong with a listed block in order. -/
theorem listedFault_of_apart (hp : Apart h p) : Returns h (listedFault p lineno) none := by
  refine does_readAlloc.returns.bind ?_
  rw [if_neg (not_not_intro hp.1)]
  refine does_readAlloc.returns.bind ?_
  rw [if_neg (not_not_intro hp.1)]
  refine does_readPrevBlkp.returns.bind (does_readAlloc.returns.bind ?_)
  rw [if_pos hp.2]
  exact returns_pure

theorem listedFault_of_not_apart (hp : ¬ Apart h p) :
    ∃ line, Returns h (listedFault p lineno) (some line) := by
  by_cases hfree : h.getAlloc (hdrp p) = 0
  · have hprev : h.getAlloc (hdrp (h.prevBlkp p)) = 0 := by
      by_contra hprev
      exact hp ⟨hfree, hprev⟩
    constructor
    refine does_readAlloc.returns.bind ?_
    rw [if_neg (not_not_intro hfree)]
    refine does_readAlloc.returns.bind ?_
    rw [if_neg (not_not_intro hfree)]
    refine does_readPrevBlkp.returns.bind (does_readAlloc.returns.bind ?_)
    rw [if_neg (not_not_intro hprev)]
    exact returns_pure
  · constructor
    refine does_readAlloc.returns.bind ?_
    rw [if_pos hfree]
    exact returns_pure

/-- **The loop over the list**, from a position of it on. -/
theorem listLoop_returns (hv : Visits h.getSucc h.dummyBlockp (l₁ ++ l₂))
    (hfuel : l₂.length ≤ fuel) : Returns h (listLoop lineno fuel (headOf h.dummyBlockp l₂))
      (decide (∀ p ∈ l₂, Apart h p)) := by
  induction l₂ generalizing l₁ fuel with
  | nil =>
      unfold listLoop
      refine does_theHeap.returns.bind ?_
      rw [headOf_nil, if_pos rfl, decide_eq_true fun p hp => (nomatch hp)]
      exact returns_pure
  | cons x l₂ ih =>
      have hx : x ≠ h.dummyBlockp := fun hx => hv.notMem (by simp [← hx])
      cases fuel with
      | zero => cases hfuel
      | succ fuel =>
          rw [listLoop]
          refine does_theHeap.returns.bind ?_
          rw [headOf_cons, if_neg hx]
          by_cases hok : Apart h x
          · have hrest : Visits h.getSucc h.dummyBlockp (l₁ ++ [x] ++ l₂) := by
              rwa [List.append_assoc]
            have hall : (∀ p ∈ x :: l₂, Apart h p) ↔ ∀ p ∈ l₂, Apart h p := by simp [hok]
            rw [decide_eq_decide.2 hall]
            refine (listedFault_of_apart hok).bind (does_readSucc.returns.bind ?_)
            rw [hv.next_node]
            exact ih hrest (Nat.le_of_succ_le_succ hfuel)
          · have hall : ¬ ∀ p ∈ x :: l₂, Apart h p := fun hall => hok (hall x List.mem_cons_self)
            rw [decide_eq_false hall]
            obtain ⟨line, hline⟩ := listedFault_of_not_apart hok
            exact hline.bind (does_print.returns.bind returns_pure)

/-- The test of the second loop. -/
theorem unlisted_returns (ht : Tiled h bs) (hv : Visits h.getSucc h.dummyBlockp l)
    (hlen : l.length ≤ h.brk) {b : Block} (hb : b ∈ bs) :
    Returns h (unlisted b.base) (decide ¬ (b.alloc = false → b.base ∈ l)) := by
  have halloc : Returns h (readAlloc (hdrp b.base)) b.alloc.toNat := by
    rw [← ht.alloc b hb]
    exact does_readAlloc.returns
  cases hcase : b.alloc with
  | false =>
      rw [hcase] at halloc
      refine halloc.bind ((isInFreeList_returns hv hlen).bind ?_)
      have hmissing : (!decide (b.base ∈ l)) = decide ¬ (false = false → b.base ∈ l) := by simp
      rw [← hmissing]
      exact returns_pure
  | true =>
      rw [hcase] at halloc
      refine halloc.bind ?_
      exact returns_pure

/-- **The loop over the blocks**, of which `cs` are left. -/
theorem blockLoop_returns (ht : Tiled h bs) (hv : Visits h.getSucc h.dummyBlockp l)
    (hlen : l.length ≤ h.brk) (hcs : Tiles lo h.brk cs) (hmem : ∀ c ∈ cs, c ∈ bs)
    (hfuel : cs.length ≤ fuel) : Returns h (blockLoop lineno fuel lo)
      (decide (∀ b ∈ cs, b.alloc = false → b.base ∈ l)) := by
  induction cs generalizing lo fuel with
  | nil =>
      obtain rfl : lo = h.brk := hcs
      unfold blockLoop
      refine does_readSize.returns.bind ?_
      rw [if_pos ht.epilogue, decide_eq_true fun b hb => (nomatch hb)]
      exact returns_pure
  | cons c cs ih =>
      obtain ⟨rfl, hrest⟩ := hcs
      have hc := hmem c List.mem_cons_self
      have hsize := ht.size c hc
      have hmissing := unlisted_returns ht hv hlen hc
      cases fuel with
      | zero => cases hfuel
      | succ fuel =>
          rw [blockLoop]
          refine does_readSize.returns.bind ?_
          rw [if_neg (by omega)]
          by_cases hlisted : c.alloc = false → c.base ∈ l
          · have hall : (∀ b ∈ c :: cs, b.alloc = false → b.base ∈ l) ↔
                ∀ b ∈ cs, b.alloc = false → b.base ∈ l := by
              rw [List.forall_mem_cons]
              exact and_iff_right hlisted
            rw [decide_eq_false (not_not_intro hlisted)] at hmissing
            rw [decide_eq_decide.2 hall]
            refine hmissing.bind (does_readNextBlkp.returns.bind ?_)
            rw [ht.nextBlkp hc]
            exact ih hrest (fun d hd => hmem d (List.mem_cons_of_mem _ hd))
              (Nat.le_of_succ_le_succ hfuel)
          · have hall : ¬ ∀ b ∈ c :: cs, b.alloc = false → b.base ∈ l := fun hall =>
              hlisted (hall c List.mem_cons_self)
            rw [decide_eq_true hlisted] at hmissing
            rw [decide_eq_false hall]
            exact hmissing.bind (does_print.returns.bind returns_pure)

/-- **The whole check.** -/
theorem checkFreelist_returns (ht : Tiled h bs) (hv : Visits h.getSucc h.dummyBlockp l)
    (hl : ∀ p ∈ l, ∃ b ∈ bs, b.base = p) : Returns h (checkFreelist lineno)
      (if (∀ p ∈ l, Apart h p) ∧ ∀ b ∈ bs, b.alloc = false → b.base ∈ l then 1 else 0) := by
  have hall : Visits h.getSucc h.dummyBlockp ([] ++ l) := hv
  have hlen := ht.tiles.starts_length_le (fun b hb => (ht.size b hb).2) hl hv.nodup
  refine does_theHeap.returns.bind (does_readSucc.returns.bind ?_)
  rw [hv.next_dummy]
  refine (listLoop_returns hall hlen).bind ?_
  by_cases hlist : ∀ p ∈ l, Apart h p
  · rw [decide_eq_true hlist]
    refine (blockLoop_returns ht hv hlen ht.tiles (fun c hc => hc) ht.length_le).bind ?_
    by_cases hblocks : ∀ b ∈ bs, b.alloc = false → b.base ∈ l
    · rw [decide_eq_true hblocks, if_pos (c := _ ∧ _) ⟨hlist, hblocks⟩]
      exact returns_pure
    · rw [decide_eq_false hblocks, if_neg (c := _ ∧ _) fun hok => hblocks hok.2]
      exact returns_pure
  · rw [decide_eq_false hlist, if_neg (c := _ ∧ _) fun hok => hlist hok.1]
    exact returns_pure

end Loops

/-! ### What the check decides -/

section Decides

variable {h : Heap} {bs : List Block} {l : List ℕ} {lineno : ℤ}

/-- **Consistency, as the two loops look for it.**  Of two free neighbours the second one is missing
from the list, or it is on it and has a free one in front of it. -/
theorem Tiled.consistent_iff_apart (ht : Tiled h bs) (hl : ∀ p ∈ l, ∃ b ∈ bs, b.base = p)
    (hfirst : ∀ b ∈ bs.head?, b.base ∈ l → b.alloc = true) :
    Consistent bs l ↔ (∀ p ∈ l, Apart h p) ∧ ∀ b ∈ bs, b.alloc = false → b.base ∈ l := by
  constructor
  · intro hcons
    refine ⟨fun p hp => ?_, hcons.free_listed⟩
    obtain ⟨b, hb, rfl⟩ := hl p hp
    have hfree := hcons.listed_free b hb hp
    refine ⟨by rw [ht.alloc b hb, hfree]; rfl, ?_⟩
    obtain ⟨bs₁, bs₂, rfl⟩ := List.append_of_mem hb
    rcases List.eq_nil_or_concat bs₁ with rfl | ⟨L, a, rfl⟩
    · -- the first block is not free and listed
      have hused := hfirst b rfl hp
      rw [hfree] at hused
      cases hused
    · have hsplit : L.concat a ++ b :: bs₂ = L ++ a :: b :: bs₂ := by simp
      rw [hsplit] at ht hcons
      have hab := (List.isChain_cons_cons.1 hcons.merged.right).1
      have ha : a.alloc = true := hab.resolve_right (by simp [hfree])
      rw [ht.prevBlkp_next, ht.alloc a (by simp), ha]
      exact Nat.one_ne_zero
  · rintro ⟨hlist, hblocks⟩
    refine ⟨fun b hb hp => ?_, ?_, hblocks⟩
    · have hzero := (hlist _ hp).1
      rwa [ht.alloc b hb, Bool.toNat_eq_zero] at hzero
    · refine List.isChain_iff_forall_rel_of_append_cons_cons.2 ?_
      rintro a b L R rfl
      cases hb : b.alloc with
      | true => exact .inr rfl
      | false =>
          have hprev := (hlist _ (hblocks b (by simp) hb)).2
          rw [ht.prevBlkp_next, ht.alloc a (by simp)] at hprev
          cases ha : a.alloc with
          | true => exact .inl rfl
          | false => exact absurd (by rw [ha]; rfl) hprev

/-- **`check_freelist` decides consistency** of a heap that its blocks tile and a list that comes
back to the dummy block, when the first block is not a free one on the list. -/
theorem checkFreelist_iff (ht : Tiled h bs) (hv : Visits h.getSucc h.dummyBlockp l)
    (hl : ∀ p ∈ l, ∃ b ∈ bs, b.base = p) (hfirst : ∀ b ∈ bs.head?, b.base ∈ l → b.alloc = true)
    (lineno : ℤ) :
    ∃ r es, checkFreelist lineno h [] = .ok ((r, h), es) ∧ (r = 1 ↔ Consistent bs l) := by
  obtain ⟨es, hrun⟩ := checkFreelist_returns ht hv hl
  refine ⟨_, es, hrun [], ?_⟩
  rw [ht.consistent_iff_apart hl hfirst]
  split_ifs with hok
  · exact iff_of_true rfl hok
  · exact iff_of_false (by decide) hok

/-- The heap after three calls. -/
def threeHeap : Heap :=
  (play plentiful ⟨(mmInit plentiful fresh).1, []⟩
    [.malloc 10, .malloc 20, .free 32]).elim fresh State.heap

/-- The block that was freed is followed by one that is in use and by the rest. -/
def threeBlocks : List Block :=
  [⟨8, 8, true⟩, ⟨16, 16, true⟩, ⟨32, 24, false⟩, ⟨56, 32, true⟩, ⟨88, 4040, false⟩]

theorem tiled_threeHeap : Tiled threeHeap threeBlocks where
  tiles := by
    have hend : 4128 = threeHeap.brk := by decide +kernel
    exact ⟨by decide +kernel, rfl, rfl, rfl, rfl, hend⟩
  four_le := by decide +kernel
  brk_lt := by decide +kernel
  size := by decide +kernel
  alloc := by decide +kernel
  footer := by decide +kernel
  epilogue := by decide +kernel

/-- The check accepts the heap after three calls. -/
theorem checkFreelist_three : ∃ s, play plentiful ⟨(mmInit plentiful fresh).1, []⟩
    [.malloc 10, .malloc 20, .free 32] = some s ∧
      ∃ es, checkFreelist 1 s.heap [] = .ok ((1, s.heap), es) := by
  have hsome : (play plentiful ⟨(mmInit plentiful fresh).1, []⟩
      [.malloc 10, .malloc 20, .free 32]).isSome = true := by decide +kernel
  obtain ⟨s, hs⟩ := Option.isSome_iff_exists.1 hsome
  have hheap : threeHeap = s.heap := by
    rw [threeHeap, hs]
    rfl
  have hcons : Consistent threeBlocks [32, 88] := by
    refine ⟨by decide, ?_, by decide⟩
    exact List.isChain_cons_cons.2 ⟨.inl rfl, List.isChain_cons_cons.2 ⟨.inl rfl,
      List.isChain_cons_cons.2 ⟨.inr rfl, List.isChain_cons_cons.2 ⟨.inl rfl, .singleton _⟩⟩⟩⟩
  obtain ⟨r, es, hcheck, hiff⟩ := checkFreelist_iff (l := [32, 88]) tiled_threeHeap
    ⟨by decide +kernel, by decide +kernel⟩ (by decide) (by decide) 1
  rw [hiff.2 hcons, hheap] at hcheck
  exact ⟨s, hs, es, hcheck⟩

/-- A heap without a prologue: a free block, the dummy block and the epilogue. -/
def noPrologue : Heap :=
  [(4, 16), (16, 16), (20, 17), (32, 17), (36, 1), (8, 24), (12, 24), (24, 8), (28, 8)].foldl
    (fun h w => h.put w.1 w.2)
    { ram := ⟨fun _ => 0, []⟩, brk := 40, sbrks := 0, heapListp := 8, dummyBlockp := 24 }

theorem tiled_noPrologue : Tiled noPrologue [⟨8, 16, false⟩, ⟨24, 16, true⟩] where
  tiles := ⟨rfl, rfl, rfl⟩
  four_le := by decide +kernel
  brk_lt := by decide +kernel
  size := by decide +kernel
  alloc := by decide +kernel
  footer := by decide +kernel
  epilogue := by decide +kernel

/-- A free first block is listed, and the padding word in front of it makes it its own neighbour. -/
theorem checkFreelist_rejects : ¬ ∀ (h : Heap) (bs : List Block) (l : List ℕ), Tiled h bs →
    Visits h.getSucc h.dummyBlockp l → (∀ p ∈ l, ∃ b ∈ bs, b.base = p) → ∀ lineno : ℤ,
    ∃ r es, checkFreelist lineno h [] = .ok ((r, h), es) ∧ (r = 1 ↔ Consistent bs l) := by
  intro hall
  obtain ⟨r, es, hcheck, hiff⟩ := hall _ _ [8] tiled_noPrologue
    ⟨by decide +kernel, by decide +kernel⟩ (by decide) 1
  have hzero : (checkFreelist 1 noPrologue []).map (fun x => x.1.1) = .ok 0 := by decide +kernel
  have hcons : Consistent [⟨8, 16, false⟩, ⟨24, 16, true⟩] [8] :=
    ⟨by decide, List.isChain_cons_cons.2 ⟨.inr rfl, .singleton _⟩, by decide⟩
  rw [hcheck, hiff.2 hcons] at hzero
  cases hzero

end Decides

/-! ### Heaps in order -/

section Good

variable {lib : Memlib} {h : Heap} {bs : List Block} {l : List ℕ}

/-- A heap in order is tiled by its blocks. -/
theorem Good.tiled (hg : Good lib h bs l) : Tiled h (allBlocks lib bs) := by
  have hl := hg.rep.layout
  have ht := hg.rep.tags
  have hbrk := hl.brk_bounds
  have hlistp := hg.rep.heapListp
  refine ⟨hlistp ▸ hl.tiles_all, by omega, hbrk.2.2, fun b hb => ?_, fun b hb => ht.getAlloc hl hb,
    fun b hb => ?_, ?_⟩
  · have hbounds := hl.bounds hb
    exact ⟨ht.getSize hl hb, by omega⟩
  · rw [ht.ftrp hl hb, hl.hdrp hb, (ht.tagged b hb).footer, (ht.tagged b hb).header]
  · rw [hdrp_eq (by omega) (by omega)]
    exact getSize_of_tag rfl (by omega) ht.epilogue

/-- A heap in order is consistent. -/
theorem Good.consistent (hg : Good lib h bs l) : Consistent (allBlocks lib bs) l where
  listed_free b hb hp := by
    obtain ⟨c, hc, hbase⟩ := hg.rep.listed _ hp
    have hpos := hg.rep.layout.pos hc
    rcases hg.rep.layout.apart hb (mem_allBlocks hc) with rfl | happ | happ
    · exact (hg.sync b hc).2 hp
    · have hbounds := hg.rep.layout.bounds hb
      omega
    · omega
  merged := hg.merged_all
  free_listed b hb hfree := by
    simp only [allBlocks, List.mem_cons] at hb
    rcases hb with rfl | rfl | hb
    · cases hfree
    · cases hfree
    · exact (hg.sync b hb).1 hfree

end Good

/-- **`check_freelist` succeeds after every run.** -/
theorem checkFreelist_reach {lib : Memlib} {h₀ : Heap} {s : State} (hs : Reach lib h₀ s)
    (lineno : ℤ) : ∃ es, checkFreelist lineno s.heap [] = .ok ((1, s.heap), es) := by
  obtain ⟨bs, l, hg, -⟩ := hs.inv
  have ht := hg.tiled
  have hdummy : s.heap.dummyBlockp ∉ l := (List.nodup_cons.1 hg.rep.links.nodup).1
  have hl : ∀ p ∈ l, ∃ b ∈ allBlocks lib bs, b.base = p := fun p hp => by
    obtain ⟨b, hb, hbase⟩ := hg.rep.listed p hp
    exact ⟨b, mem_allBlocks hb, hbase⟩
  have hfirst : ∀ b ∈ (allBlocks lib bs).head?, b.base ∈ l → b.alloc = true := by
    rintro b ⟨⟩ -
    rfl
  obtain ⟨es, hrun⟩ :=
    checkFreelist_returns ht (hg.rep.links.ring.visits hdummy) hl
  rw [if_pos (c := _ ∧ _) ((ht.consistent_iff_apart hl hfirst).1 hg.consistent)] at hrun
  exact ⟨es, hrun []⟩

end Malloc
