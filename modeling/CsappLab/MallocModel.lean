/-
**The memory allocator.**

`mm.c` in a build with words, pointers and `size_t` of four bytes.  The heap is a stretch of memory
that `mem_sbrk` extends; blocks carry their size and an allocated bit in a header and a footer, and
free blocks are linked through the first two words of their payload into a circular list with a
dummy block.  Addresses and sizes are natural numbers, on which the arithmetic is that of 32 bits.

`mem_sbrk` is the one of `memlib.c`, which may in addition refuse any request.

Main definitions:

* `Malloc.Memlib`, `Malloc.Heap` — what stays the same during a run, and what changes;
* `Malloc.mmInit`, `Malloc.mmMalloc`, `Malloc.mmFree`, `Malloc.mmRealloc` — the functions of the
  source, with `extendHeap`, `findFit`, `place`, `coalesce` and the functions of the free list.
-/

import CsappLab.ByteMem
import Mathlib.Data.Int.Notation

set_option relaxedAutoImplicit false
set_option autoImplicit false

namespace Malloc

open ByteMem

/-! ### Words -/

/-- Addition of unsigned words. -/
def addw (a b : ℕ) : ℕ := (a + b) % 4294967296

/-- Subtraction of unsigned words. -/
def subw (a b : ℕ) : ℕ := (a + 4294967296 - b) % 4294967296

/-- Multiplication of unsigned words. -/
def mulw (a b : ℕ) : ℕ := a * b % 4294967296

/-- `WSIZE`. -/
abbrev wsize : ℕ := 4

/-- `DSIZE`. -/
abbrev dsize : ℕ := 8

/-- `CHUNKSIZE`. -/
abbrev chunksize : ℕ := 4096

/-- `PACK`. -/
def pack (size alloc : ℕ) : ℕ := size ||| alloc

/-- `(void *)-1`. -/
def minusOne : ℕ := 4294967295

/-! ### The heap -/

/-- The memory system: where its memory starts, which is a multiple of eight, the largest legal
address, and which of the successive calls of `mem_sbrk` are granted if they are legal. -/
structure Memlib where
  start : ℕ
  maxAddr : ℕ
  grant : ℕ → Bool
  aligned : start % 8 = 0
  maxAddr_lt : maxAddr < 4294967296

/-- The memory, the break, how often `mem_sbrk` was called, and the globals of `mm.c`. -/
structure Heap where
  ram : Ram
  brk : ℕ
  sbrks : ℕ
  heapListp : ℕ
  dummyBlockp : ℕ

/-- `mem_sbrk`, whose argument is an `int`.  The sum with the break is that of two numbers: it does
not wrap at `2 ^ 32`, as a break near the end of a 32-bit address space would. -/
def memSbrk (lib : Memlib) (h : Heap) (incr : ℕ) : Heap × ℕ :=
  -- an increment of `2 ^ 31` or more is a negative `int`, and the break is not lowered
  if 2147483648 ≤ incr ∨ lib.maxAddr < h.brk + incr ∨ lib.grant h.sbrks = false then
    ({ h with sbrks := h.sbrks + 1 }, minusOne)
  else ({ h with sbrks := h.sbrks + 1, brk := h.brk + incr }, h.brk)

namespace Heap

variable (h : Heap)

/-- `GET`. -/
def get (p : ℕ) : ℕ := h.ram.word p

/-- `PUT`. -/
def put (p v : ℕ) : Heap := { h with ram := h.ram.setWord p v }

/-- `GET_SIZE`; the mask is `~0x7`. -/
def getSize (p : ℕ) : ℕ := h.get p &&& 4294967288

/-- `GET_ALLOC`. -/
def getAlloc (p : ℕ) : ℕ := h.get p &&& 1

end Heap

/-- `HDRP`. -/
def hdrp (bp : ℕ) : ℕ := subw bp wsize

namespace Heap

variable (h : Heap)

/-- `FTRP`. -/
def ftrp (bp : ℕ) : ℕ := subw (addw bp (h.getSize (hdrp bp))) dsize

/-- `NEXT_BLKP`. -/
def nextBlkp (bp : ℕ) : ℕ := addw bp (h.getSize (subw bp wsize))

/-- `PREV_BLKP`. -/
def prevBlkp (bp : ℕ) : ℕ := subw bp (h.getSize (subw bp dsize))

/-- `GET_PRED`. -/
def getPred (p : ℕ) : ℕ := h.get p

/-- `GET_SUCC`. -/
def getSucc (p : ℕ) : ℕ := h.get (addw p wsize)

/-- `SET_PRED`. -/
def setPred (p pred : ℕ) : Heap := h.put p pred

/-- `SET_SUCC`. -/
def setSucc (p succ : ℕ) : Heap := h.put (addw p wsize) succ

end Heap

/-! ### The free list -/

/-- `add_to_free_list`. -/
def addToFreeList (h : Heap) (bp : ℕ) : Heap :=
  let nextBp := h.getSucc h.dummyBlockp
  let h := h.setSucc bp nextBp
  let h := h.setPred nextBp bp
  let h := h.setPred bp h.dummyBlockp
  h.setSucc h.dummyBlockp bp

/-- `remove_from_free_list`. -/
def removeFromFreeList (h : Heap) (bp : ℕ) : Heap :=
  let prevBp := h.getPred bp
  let nextBp := h.getSucc bp
  let h := h.setSucc prevBp nextBp
  h.setPred nextBp prevBp

/-! ### Blocks -/

/-- Write the header and the footer of a block, the way every function does it. -/
def putTags (h : Heap) (bp size alloc : ℕ) : Heap :=
  let h := h.put (hdrp bp) (pack size alloc)
  h.put (h.ftrp bp) (pack size alloc)

/-- `coalesce`. -/
def coalesce (h : Heap) (bp : ℕ) : Heap × ℕ :=
  if bp = 0 then (h, 0)
  else
    let prevAlloc := h.getAlloc (h.ftrp (h.prevBlkp bp))
    let nextAlloc := h.getAlloc (hdrp (h.nextBlkp bp))
    let size := h.getSize (hdrp bp)
    -- the four cases of the source: which of the two neighbours are in use
    if prevAlloc ≠ 0 ∧ nextAlloc ≠ 0 then (addToFreeList h bp, bp)
    else if prevAlloc ≠ 0 ∧ nextAlloc = 0 then
      let size := addw size (h.getSize (hdrp (h.nextBlkp bp)))
      let h := removeFromFreeList h (h.nextBlkp bp)
      let h := putTags h bp size 0
      (addToFreeList h bp, bp)
    else if prevAlloc = 0 ∧ nextAlloc ≠ 0 then
      let size := addw size (h.getSize (hdrp (h.prevBlkp bp)))
      let bp := h.prevBlkp bp
      let h := removeFromFreeList h bp
      let h := putTags h bp size 0
      (addToFreeList h bp, bp)
    else
      let size := addw size (addw (h.getSize (hdrp (h.prevBlkp bp)))
        (h.getSize (hdrp (h.nextBlkp bp))))
      let h := removeFromFreeList h (h.prevBlkp bp)
      let h := removeFromFreeList h (h.nextBlkp bp)
      let bp := h.prevBlkp bp
      let h := putTags h bp size 0
      (addToFreeList h bp, bp)

/-- `extend_heap`: the heap afterwards and the block, `0` when there is no more memory. -/
def extendHeap (lib : Memlib) (h : Heap) (words : ℕ) : Heap × ℕ :=
  let size := if words % 2 ≠ 0 then mulw (addw words 1) wsize else mulw words wsize
  let (h, bp) := memSbrk lib h size
  if bp = minusOne then (h, 0)
  else
    let h := putTags h bp size 0
    -- the new epilogue
    let h := h.put (hdrp (h.nextBlkp bp)) (pack 0 1)
    coalesce h bp

/-- The loop of `find_fit` from a block on; no result when it does not come back to the dummy
block. -/
def fitLoop (h : Heap) (asize : ℕ) : ℕ → ℕ → Option ℕ
  | fuel, bp =>
      if bp = h.dummyBlockp then some 0
      else if asize ≤ h.getSize (hdrp bp) then some bp
      else
        match fuel with
        | 0 => none
        | fuel + 1 => fitLoop h asize fuel (h.getSucc bp)

/-- `find_fit`.  No block is visited twice, and there are fewer blocks than bytes. -/
def findFit (h : Heap) (asize : ℕ) : Option ℕ :=
  fitLoop h asize h.brk (h.getSucc h.dummyBlockp)

/-- `place`. -/
def place (h : Heap) (bp asize : ℕ) : Heap :=
  let csize := h.getSize (hdrp bp)
  -- the rest is long enough for a block of its own
  if 2 * dsize ≤ subw csize asize then
    let h := putTags h bp asize 1
    let h := removeFromFreeList h bp
    let bp := h.nextBlkp bp
    let h := putTags h bp (subw csize asize) 0
    (coalesce h bp).1
  else
    let h := putTags h bp csize 1
    removeFromFreeList h bp

/-! ### The interface -/

/-- `mm_init`, the stores: padding, prologue, dummy block and epilogue. -/
def initBlocks (h : Heap) : Heap :=
  let p := h.heapListp
  let h := h.put p 0
  let h := h.put (addw p (1 * wsize)) (pack dsize 1)
  let h := h.put (addw p (2 * wsize)) (pack dsize 1)
  let d := addw p (4 * wsize)
  let h := h.put (addw p (3 * wsize)) (pack (2 * dsize) 1)
  let h := h.put (addw p (4 * wsize)) d
  let h := h.put (addw p (5 * wsize)) d
  let h := h.put (addw p (6 * wsize)) (pack (2 * dsize) 1)
  let h := h.put (addw p (7 * wsize)) (pack 0 1)
  { h with heapListp := addw p (2 * wsize), dummyBlockp := d }

/-- `mm_init`: the heap afterwards and the return value. -/
def mmInit (lib : Memlib) (h : Heap) : Heap × ℤ :=
  let (h, p) := memSbrk lib h ((2 + 4 + 2) * wsize)
  let h := { h with heapListp := p }
  if p = minusOne then (h, -1)
  else
    let (h, bp) := extendHeap lib (initBlocks h) (chunksize / wsize)
    if bp = 0 then (h, -1) else (h, 0)

/-- `mm_malloc`, the adjusted block size. -/
def adjust (size : ℕ) : ℕ :=
  if size ≤ dsize then 2 * dsize
  else mulw dsize (addw (addw size dsize) (dsize - 1) / dsize)

/-- `mm_malloc`: the heap afterwards and the pointer, `0` for the null pointer; no result when it
does not return. -/
def mmMalloc (lib : Memlib) (h : Heap) (size : ℕ) : Option (Heap × ℕ) :=
  let h := if h.heapListp = 0 then (mmInit lib h).1 else h
  if size = 0 then some (h, 0)
  else
    let asize := adjust size
    match findFit h asize with
    | none => none
    | some bp =>
        if bp ≠ 0 then some (place h bp asize, bp)
        else
          let extendsize := max asize chunksize
          let (h, bp) := extendHeap lib h (extendsize / wsize)
          if bp = 0 then some (h, 0) else some (place h bp asize, bp)

/-- `mm_free`. -/
def mmFree (lib : Memlib) (h : Heap) (bp : ℕ) : Heap :=
  if bp = 0 then h
  else
    let size := h.getSize (hdrp bp)
    let h := if h.heapListp = 0 then (mmInit lib h).1 else h
    let h := putTags h bp size 0
    (coalesce h bp).1

/-- `memcpy`. -/
def memcpy (h : Heap) (dst src n : ℕ) : Heap := { h with ram := h.ram.copy dst src n }

/-- `mm_realloc`: the heap afterwards and the pointer. -/
def mmRealloc (lib : Memlib) (h : Heap) (ptr size : ℕ) : Option (Heap × ℕ) :=
  if size = 0 then some (mmFree lib h ptr, 0)
  else if ptr = 0 then mmMalloc lib h size
  else
    match mmMalloc lib h size with
    | none => none
    | some (h, newptr) =>
        if newptr = 0 then some (h, 0)
        else
          let oldsize := h.getSize (hdrp ptr)
          -- a block that shrinks is copied up to its new size; the old size counts its tags
          let oldsize := if size < oldsize then size else oldsize
          let h := memcpy h newptr ptr oldsize
          some (mmFree lib h ptr, newptr)

end Malloc
