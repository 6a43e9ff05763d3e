/-
**The cache simulator.**

`csim.c` simulates a set-associative cache with least-recently-used replacement on a trace of
memory accesses.  Each set is a circular doubly linked list of `E` lines through a dummy node, most
recently used first; the nodes are allocated one by one and linked in place.  This module is the
program: the nodes live in one memory of lines indexed by their address, and every assignment
through a pointer is an update of that memory.

The counters are unbounded integers.  The loop of `checkAndUpdateSet` walks the list until it is
back at the dummy; it is given as many steps as there are allocated nodes, so that it runs out of
them exactly when the walk never returns.

Main definitions:

* `Csim.CacheLine`, `Csim.Heap`, `Csim.CacheSet` — lines, the memory of lines, sets;
* `Csim.createCacheSet`, `Csim.createCache` — the initial lists;
* `Csim.getSetIndexAndTag`, `Csim.checkAndUpdateSet`, `Csim.addOrReplaceLine`,
  `Csim.accessCache` — one access;
* `Csim.parseLine`, `Csim.simulate` — one line of the trace, and the whole trace.
-/

import CsappLab.CText
import Mathlib.Logic.Function.Basic

set_option relaxedAutoImplicit false
set_option autoImplicit false

namespace Csim

/-! ### Lines and sets -/

/-- The global options: the number of set index bits, the associativity, the number of block
bits, and the verbose flag. -/
structure Opts where
  s : ℤ
  E : ℤ
  b : ℤ
  verbose : Bool

/-- A cache line. -/
structure CacheLine where
  valid : Bool
  tag : BitVec 64
  prev : ℕ
  next : ℕ

/-- The allocated lines, by address.  Addresses below `fresh` have been handed out by `malloc`. -/
structure Heap where
  lines : ℕ → CacheLine
  fresh : ℕ

/-- A cache set: its dummy node and its number of lines. -/
structure CacheSet where
  dummy : ℕ
  numLines : ℤ

namespace Heap

/-- `p->next`. -/
def next (h : Heap) (p : ℕ) : ℕ := (h.lines p).next

/-- `p->prev`. -/
def prev (h : Heap) (p : ℕ) : ℕ := (h.lines p).prev

/-- `p->next = q`. -/
def setNext (h : Heap) (p q : ℕ) : Heap :=
  { h with lines := Function.update h.lines p { h.lines p with next := q } }

/-- `p->prev = q`. -/
def setPrev (h : Heap) (p q : ℕ) : Heap :=
  { h with lines := Function.update h.lines p { h.lines p with prev := q } }

/-- `p->valid = v`. -/
def setValid (h : Heap) (p : ℕ) (v : Bool) : Heap :=
  { h with lines := Function.update h.lines p { h.lines p with valid := v } }

/-- `p->tag = t`. -/
def setTag (h : Heap) (p : ℕ) (t : BitVec 64) : Heap :=
  { h with lines := Function.update h.lines p { h.lines p with tag := t } }

/-- `malloc(sizeof(CacheLine))`: a new address, whose contents are whatever was there. -/
def malloc (h : Heap) : Heap × ℕ := ({ h with fresh := h.fresh + 1 }, h.fresh)

end Heap

/-! ### Linking lines -/

/-- The two assignments that take a line out of its list. -/
def unlinkLine (h : Heap) (line : ℕ) : Heap :=
  let h := h.setNext (h.prev line) (h.next line)
  h.setPrev (h.next line) (h.prev line)

/-- The four assignments that put a line right after the dummy. -/
def linkFront (h : Heap) (dummy line : ℕ) : Heap :=
  let h := h.setNext line (h.next dummy)
  let h := h.setPrev line dummy
  let h := h.setPrev (h.next dummy) line
  h.setNext dummy line

/-- The six assignments that make a line the first of its set.  Both `checkAndUpdateSet` and
`addOrReplaceLine` end with them. -/
def moveLineToFront (h : Heap) (dummy line : ℕ) : Heap :=
  linkFront (unlinkLine h line) dummy line

/-! ### Creating the cache -/

/-- The body of the loop of `createCacheSet`: a new invalid line right after the dummy. -/
def newLine (h : Heap) (dummy : ℕ) : Heap :=
  let (h, line) := h.malloc
  let h := h.setValid line false
  let h := h.setTag line 0
  linkFront h dummy line

/-- The loop of `createCacheSet`. -/
def newLines (h : Heap) (dummy : ℕ) : ℕ → Heap
  | 0 => h
  | n + 1 => newLine (newLines h dummy n) dummy

/-- `createCacheSet`. -/
def createCacheSet (h : Heap) (E : ℤ) : Heap × CacheSet :=
  let (h, dummy) := h.malloc
  let h := h.setPrev dummy dummy
  let h := h.setNext dummy dummy
  (newLines h dummy E.toNat, { dummy := dummy, numLines := E })

/-- The loop of `createCache`: the first `n` sets. -/
def createSets (h : Heap) (cache : ℕ → CacheSet) (E : ℤ) : ℕ → Heap × (ℕ → CacheSet)
  | 0 => (h, cache)
  | n + 1 =>
      let (h, cache) := createSets h cache E n
      let (h, set) := createCacheSet h E
      (h, Function.update cache n set)

/-- The `int` expression `1 << s`. -/
def oneShl (s : ℤ) : BitVec 32 := 1#32 <<< s.toNat

/-- `createCache`.  The array of sets is as long as `1 << s` says; its contents are whatever was
there until they are assigned. -/
def createCache (o : Opts) (h : Heap) (cache : ℕ → CacheSet) : Heap × (ℕ → CacheSet) :=
  createSets h cache o.E (oneShl o.s).toInt.toNat

/-! ### One access -/

/-- `getSetIndexAndTag`: the set index and the tag of an address. -/
def getSetIndexAndTag (o : Opts) (address : BitVec 64) : BitVec 64 × BitVec 64 :=
  let tag := address >>> (o.s + o.b).toNat
  -- the mask is an `int`, which is sign extended to the width of the address
  let setIndex := (address >>> o.b.toNat) &&& (oneShl o.s - 1#32).signExtend 64
  (setIndex, tag)

/-- The loop of `checkAndUpdateSet` from the line `current` on. -/
def checkLoop (h : Heap) (dummy : ℕ) (tag : BitVec 64) : ℕ → ℕ → Option (Heap × Bool)
  | 0, _ => none
  | fuel + 1, current =>
      if current = dummy then some (h, false)
      else if (h.lines current).valid ∧ (h.lines current).tag = tag then
        some (moveLineToFront h dummy current, true)
      else checkLoop h dummy tag fuel (h.next current)

/-- `checkAndUpdateSet`: whether the tag is in the set; on a hit its line becomes the first. -/
def checkAndUpdateSet (h : Heap) (set : CacheSet) (tag : BitVec 64) : Option (Heap × Bool) :=
  checkLoop h set.dummy tag (h.fresh + 1) (h.next set.dummy)

/-- The branch of `addOrReplaceLine`: an unused line becomes valid, a used one is overwritten. -/
def fillLine (h : Heap) (last : ℕ) (tag : BitVec 64) : Heap :=
  if !(h.lines last).valid then (h.setValid last true).setTag last tag else h.setTag last tag

/-- `addOrReplaceLine`: the last line of the set takes the tag and becomes the first. -/
def addOrReplaceLine (h : Heap) (set : CacheSet) (tag : BitVec 64) : Heap :=
  let last := h.prev set.dummy
  moveLineToFront (fillLine h last tag) set.dummy last

/-- One line of verbose output: the operation, its address and size, and its outcome. -/
structure AccessDetails where
  op : Char
  address : BitVec 64
  size : ℤ
  result : String
  deriving DecidableEq

/-- The simulator: its lines, its counters, and what it has printed, latest first. -/
structure Sim where
  heap : Heap
  hits : ℕ
  misses : ℕ
  evictions : ℕ
  out : List AccessDetails

/-- `accessCache`: one access, and its result string. -/
def accessCache (o : Opts) (cache : ℕ → CacheSet) (σ : Sim) (address : BitVec 64) :
    Option (Sim × String) := do
  let (setIndex, tag) := getSetIndexAndTag o address
  let set := cache setIndex.toNat
  let (h, hit) ← checkAndUpdateSet σ.heap set tag
  if !hit then
    -- whether a line is evicted is read before the line is overwritten
    let last := h.prev set.dummy
    let isEviction := (h.lines last).valid
    let σ := { σ with
      heap := addOrReplaceLine h set tag
      misses := σ.misses + 1
      evictions := if isEviction then σ.evictions + 1 else σ.evictions }
    return (σ, if isEviction then "miss eviction " else "miss ")
  else
    return ({ σ with heap := h, hits := σ.hits + 1 }, "hit ")

/-! ### The trace -/

/-- The local variables of `parseLine` that `sscanf` may set. -/
structure Locals where
  op : Char
  address : BitVec 64
  size : ℤ

/-- `sscanf(line, " %c %lx,%d", &op, &address, &size)`: the locals after the conversions that
succeed, in order; the others keep their contents. -/
def scanRecord (loc : Locals) (line : List Char) : Locals :=
  match CText.skipSpace line with
  | [] => loc
  | op :: rest =>
      let loc := { loc with op := op }
      match CText.scanLx (CText.skipSpace rest) with
      | none => loc
      | some (address, rest) =>
          let loc := { loc with address := address }
          match rest with
          | ',' :: rest =>
              match CText.scanD rest with
              | none => loc
              | some (size, _) => { loc with size := size }
          | _ => loc

/-- The verbose branch of `parseLine`. -/
def printAccessDetails (o : Opts) (loc : Locals) (σ : Sim) (result : String) : Sim :=
  if o.verbose then { σ with out := ⟨loc.op, loc.address, loc.size, result⟩ :: σ.out } else σ

/-- `parseLine`.  The argument `loc` is what the uninitialised locals happen to hold. -/
def parseLine (o : Opts) (cache : ℕ → CacheSet) (σ : Sim) (loc : Locals) (line : List Char) :
    Option Sim :=
  let loc := scanRecord loc line
  if loc.op ≠ 'I' then do
    let (σ, result) ← accessCache o cache σ loc.address
    -- a modification is a load followed by a store to the same address
    if loc.op = 'M' then do
      let (σ, again) ← accessCache o cache σ loc.address
      return printAccessDetails o loc σ (result ++ again)
    else return printAccessDetails o loc σ result
  else some σ

/-- The loop of `main` over the lines of the trace file, each with the contents of the locals it
finds. -/
def simulate (o : Opts) (cache : ℕ → CacheSet) (σ : Sim) :
    List (Locals × List Char) → Option Sim
  | [] => some σ
  | (loc, line) :: rest => do
      let σ ← parseLine o cache σ loc line
      simulate o cache σ rest

/-- The state in which `main` starts to read the trace. -/
def initial (o : Opts) (h : Heap) (cache : ℕ → CacheSet) : Sim :=
  { heap := (createCache o h cache).1, hits := 0, misses := 0, evictions := 0, out := [] }

end Csim
