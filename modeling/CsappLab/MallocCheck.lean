/-
**The heap checker.**

`checkheap` walks over the blocks of the heap and prints a line for everything it finds wrong.  It
only reads, and what it reads and prints is kept in a log.  On the heap of a run it finds nothing
wrong; but for a block in use it looks at the first word of the block behind it, where the header is
meant, and behind the last block there is no such word.

Main definitions:

* `Malloc.Probe`, `Malloc.Checker` — reads and lines, and functions that make them;
* `Malloc.checkblock`, `Malloc.checkheap` — the functions of the source;
* `Malloc.Harmless` — a check reads the heap only, changes nothing and reports nothing.

Main results:

* `Malloc.Tags.watched_checkblock` — `checkblock` finds nothing wrong with a block in order;
* `Malloc.Tags.watched_walkLoop` — the walk over the blocks;
* `Malloc.checkheap_harmless_iff` — exactly when `checkheap` is harmless.
-/

import CsappLab.EventLog
import CsappLab.MallocClient

set_option relaxedAutoImplicit false
set_option autoImplicit false

namespace Malloc

open ByteMem Tiling EventLog

/-! ### Functions that look at the heap -/

/-- What a checker does: read `n` bytes at an address, or print a line. -/
inductive Probe where
  | read (p n : ℕ)
  | printed (line : String)
  deriving DecidableEq, Repr

/-- A function on the heap, with its reads and lines; it may run out of steps. -/
abbrev Checker (α : Type) := StateT Heap (Logged Probe Unit) α

/-- The heap with its globals. -/
def theHeap : Checker Heap := fun h log => .ok ((h, h), log)

/-- `GET`. -/
def readWord (p : ℕ) : Checker ℕ := fun h log => .ok ((h.get p, h), log ++ [.read p 4])

/-- A byte. -/
def readByte (p : ℕ) : Checker ℕ := fun h log =>
  .ok (((h.ram.bytes p).toNat, h), log ++ [.read p 1])

/-- `printf`. -/
def print (line : String) : Checker Unit := fun h log => .ok (((), h), log ++ [.printed line])

/-- `if (c) x;`. -/
def onlyIf (c : Bool) (x : Checker Unit) : Checker Unit := if c then x else pure ()

/-- There are no more steps. -/
def outOfSteps {α : Type} : Checker α := fun _ _ => .error ()

/-- `GET_SIZE`. -/
def readSize (p : ℕ) : Checker ℕ := do
  let w ← readWord p
  return w &&& 4294967288

/-- `GET_ALLOC`. -/
def readAlloc (p : ℕ) : Checker ℕ := do
  let w ← readWord p
  return w &&& 1

/-- `FTRP`. -/
def readFtrp (bp : ℕ) : Checker ℕ := do
  let size ← readSize (hdrp bp)
  return subw (addw bp size) dsize

/-- `NEXT_BLKP`. -/
def readNextBlkp (bp : ℕ) : Checker ℕ := do
  let size ← readSize (subw bp wsize)
  return addw bp size

/-- `PREV_BLKP`. -/
def readPrevBlkp (bp : ℕ) : Checker ℕ := do
  let size ← readSize (subw bp dsize)
  return subw bp size

/-- `GET_SUCC`. -/
def readSucc (p : ℕ) : Checker ℕ := readWord (addw p wsize)

/-! ### `checkheap` -/

/-- `%p`. -/
def hexPtr (p : ℕ) : String := "0x" ++ String.ofList (Nat.toDigits 16 p)

/-- `%02x`. -/
def hexByte (b : ℕ) : String := String.ofList [Nat.digitChar (b / 16), Nat.digitChar (b % 16)]

/-- `printblock`, which has no use for its second argument. -/
def printblock (bp : ℕ) : Checker Unit := do
  let hsize ← readSize (hdrp bp)
  let halloc ← readAlloc (hdrp bp)
  if hsize = 0 ∧ halloc = 1 then print (hexPtr bp ++ ": EOL\n")
  else
    print (hexPtr bp ++ ": header: [" ++ toString hsize ++ ":" ++
      (if halloc ≠ 0 then "a" else "f") ++ "]\n")

/-- `checkblock`. -/
def checkblock (bp : ℕ) (lineno : ℤ) : Checker Unit := do
  onlyIf (bp % 8 ≠ 0) (print ("Line " ++ toString lineno ++ " Error: " ++ hexPtr bp ++
    " is not doubleword aligned\n"))
  let header ← readWord (hdrp bp)
  let p ← readFtrp bp
  let footer ← readWord p
  onlyIf (header ≠ footer) (print ("Line " ++ toString lineno ++
    " Error: header does not match footer, curr bp: " ++ hexPtr bp ++ " \n"))

/-- The loop of `printMemoryContent`, from the byte `40 - n` on. -/
def printBytes (ptr : ℕ) : ℕ → Checker Unit
  | 0 => print "\n"
  | n + 1 => do
      let i := 40 - (n + 1)
      onlyIf (0 < i ∧ i % wsize = 0) (print " ")
      let b ← readByte (addw ptr (i / wsize * wsize + wsize - 1 - i % wsize))
      print (hexByte b)
      printBytes ptr n

/-- `printMemoryContent`. -/
def printMemoryContent (ptr : ℕ) : Checker Unit := do
  print ("Memory content at [" ++ hexPtr ptr ++ "]:\n")
  printBytes ptr (wsize * 10)

/-- `FTRP(bp) > HDRP(NEXT_BLKP(bp))`. -/
def reachesNext (bp : ℕ) : Checker Bool := do
  let footer ← readFtrp bp
  let next ← readNextBlkp bp
  return decide (hdrp next < footer)

/-- The conditions of the walk: whether a block and the one behind it are in use and overlap.  The
bit of the block behind it is taken from its first word, not from its header. -/
def overlaps (bp : ℕ) : Checker Bool := do
  let alloc ← readAlloc (hdrp bp)
  if alloc = 0 then return false
  else
    let next ← readNextBlkp bp
    let nextAlloc ← readAlloc next
    if nextAlloc = 0 then return false else reachesNext bp

/-- The walk of `checkheap` from a block on: the end of the heap, or nothing when it stopped at two
blocks that overlap. -/
def walkLoop (verbose : Bool) (lineno : ℤ) : ℕ → ℕ → Checker (Option ℕ)
  | fuel, bp => do
      let size ← readSize (hdrp bp)
      if size = 0 then return some bp
      else
        match fuel with
        | 0 => outOfSteps
        | fuel + 1 =>
            onlyIf verbose (printblock bp)
            checkblock bp lineno
            let overlapping ← overlaps bp
            if overlapping then
              print ("Line " ++ toString lineno ++ ": Overlapping allocated blocks found.\n")
              return none
            else
              let next ← readNextBlkp bp
              walkLoop verbose lineno fuel next

/-- A tag that has not the size it should have, or is not allocated. -/
def badTag (p size : ℕ) : Checker Bool := do
  let size' ← readSize p
  if size' ≠ size then return true
  else
    let alloc ← readAlloc p
    return decide (alloc = 0)

/-- `checkheap`.  There are fewer blocks than bytes. -/
def checkheap (verbose : Bool) (lineno : ℤ) : Checker Unit := do
  let h ← theHeap
  onlyIf verbose (print ("[⭐] Start of The Heap (" ++ hexPtr h.heapListp ++ "):\n"))
  let bad ← badTag (hdrp h.heapListp) dsize
  onlyIf bad (print "Bad prologue header\n")
  checkblock h.heapListp lineno
  let stop ← walkLoop verbose lineno h.brk h.heapListp
  match stop with
  | none => return ()
  | some bp =>
      onlyIf verbose (printblock bp)
      let bad ← badTag (hdrp bp) 0
      if bad then
        print ("current bp: " ++ hexPtr bp ++ "\n")
        printMemoryContent (subw bp wsize)
        print ("Line " ++ toString lineno ++ ": Bad epilogue header.\n")
      else return ()

/-- **A harmless check** returns, leaves the heap as it is, reads bytes from `mem_heap_lo`, the
start of the heap, to `mem_heap_hi`, the byte below the break, and reports nothing. -/
def Harmless (lib : Memlib) (x : Checker Unit) (h : Heap) : Prop :=
  ∃ h' es, x h [] = .ok (((), h'), es) ∧ h' = h ∧
    (∀ p n, .read p n ∈ es → lib.start ≤ p ∧ p + n ≤ h.brk) ∧
    ∀ line, .printed line ∉ es

/-! ### Runs that are watched -/

section Reads

variable {h : Heap} {p : ℕ}

theorem does_theHeap : Does theHeap h h h [] := fun log =>
  congrArg (fun es => Except.ok ((h, h), es)) (List.append_nil log).symm

theorem does_readWord : Does (readWord p) h (h.get p) h [.read p 4] := fun _ => rfl

theorem does_readSize : Does (readSize p) h (h.getSize p) h [.read p 4] := fun _ => rfl

theorem does_readAlloc : Does (readAlloc p) h (h.getAlloc p) h [.read p 4] := fun _ => rfl

theorem does_readFtrp : Does (readFtrp p) h (h.ftrp p) h [.read (hdrp p) 4] := fun _ => rfl

theorem does_readNextBlkp : Does (readNextBlkp p) h (h.nextBlkp p) h [.read (hdrp p) 4] :=
  fun _ => rfl

theorem does_readPrevBlkp : Does (readPrevBlkp p) h (h.prevBlkp p) h [.read (subw p 8) 4] :=
  fun _ => rfl

theorem does_print {line : String} : Does (print line) h () h [.printed line] := fun _ => rfl

theorem does_readSucc : Does (readSucc p) h (h.getSucc p) h [.read (addw p 4) 4] := fun _ => rfl

end Reads

/-- Bytes of the heap, and no line. -/
def Probe.Within (lib : Memlib) (brk : ℕ) : Probe → Prop
  | read p n => lib.start ≤ p ∧ p + n ≤ brk
  | printed _ => False

/-- A check returns `a` and leaves the heap as it is, and when `ok` holds and only then it is silent
and stays within the heap. -/
def Watched {α : Type} (lib : Memlib) (h : Heap) (x : Checker α) (a : α) (ok : Prop) : Prop :=
  ∃ es, Does x h a h es ∧ ((∀ e ∈ es, e.Within lib h.brk) ↔ ok)

section Watched

variable {lib : Memlib} {h : Heap} {α β : Type} {a : α} {b : β} {ok ok' : Prop} {p : ℕ}

theorem Watched.congr {x : Checker α} (hx : Watched lib h x a ok) (hok : ok ↔ ok') :
    Watched lib h x a ok' := by
  obtain ⟨es, hrun, hes⟩ := hx
  exact ⟨es, hrun, hes.trans hok⟩

theorem watched_pure : Watched lib h (pure a) a True :=
  ⟨[], does_pure, by simp⟩

/-- **One check after another.** -/
theorem Watched.bind {x : Checker α} {f : α → Checker β} (hx : Watched lib h x a ok)
    (hf : Watched lib h (f a) b ok') : Watched lib h (x >>= f) b (ok ∧ ok') := by
  obtain ⟨es, hrun, hes⟩ := hx
  obtain ⟨es', hrun', hes'⟩ := hf
  refine ⟨es ++ es', hrun.bind hrun', ?_⟩
  rw [← hes, ← hes', List.forall_mem_append]

theorem watched_theHeap : Watched lib h theHeap h True := ⟨[], does_theHeap, by simp⟩

/-- A read of a word. -/
theorem watched_read {x : Checker α} (hx : Does x h a h [.read p 4]) :
    Watched lib h x a (lib.start ≤ p ∧ p + 4 ≤ h.brk) :=
  ⟨[.read p 4], hx, by simp [Probe.Within]⟩

/-- A line that is not printed. -/
theorem watched_onlyIf {c : Bool} {x : Checker Unit} (hc : c = false) :
    Watched lib h (onlyIf c x) () True := by
  rw [hc]
  exact watched_pure

/-- A watched check is harmless when it stays within the heap. -/
theorem Watched.harmless_iff {x : Checker Unit} (hx : Watched lib h x () ok) :
    Harmless lib x h ↔ ok := by
  obtain ⟨es, hrun, hes⟩ := hx
  rw [← hes]
  constructor
  · rintro ⟨h', es', hrun', rfl, hreads, hlines⟩ e he
    obtain ⟨-, -, rfl⟩ := hrun.unique hrun'
    cases e with
    | read p n => exact hreads p n he
    | printed line => exact hlines line he
  · intro hwithin
    exact ⟨h, es, hrun [], rfl, fun p n he => hwithin _ he, fun line he => hwithin _ he⟩

end Watched

/-! ### A block in order -/

section Block

variable {lib : Memlib} {h : Heap} {bs cs : List Block} {b : Block} {lineno : ℤ}

/-- The header of a block lies in the heap. -/
theorem Layout.header_within (hl : Layout lib h.brk bs) (hb : b ∈ allBlocks lib bs) :
    (lib.start ≤ Malloc.hdrp b.base ∧ Malloc.hdrp b.base + 4 ≤ h.brk) ↔ True := by
  have hbounds := hl.bounds hb
  rw [hl.hdrp hb, iff_true]
  omega

variable (ht : Tags lib h bs) (hl : Layout lib h.brk bs)
include ht hl

theorem Tags.watched_readSize (hb : b ∈ allBlocks lib bs) :
    Watched lib h (readSize (hdrp b.base)) b.size True := by
  rw [← ht.getSize hl hb]
  exact (watched_read does_readSize).congr (hl.header_within hb)

theorem Tags.watched_readAlloc (hb : b ∈ allBlocks lib bs) :
    Watched lib h (readAlloc (hdrp b.base)) b.alloc.toNat True := by
  rw [← ht.getAlloc hl hb]
  exact (watched_read does_readAlloc).congr (hl.header_within hb)

theorem Tags.watched_readFtrp (hb : b ∈ allBlocks lib bs) :
    Watched lib h (readFtrp b.base) (b.base + b.size - 8) True := by
  rw [← ht.ftrp hl hb]
  exact (watched_read does_readFtrp).congr (hl.header_within hb)

theorem Tags.watched_readNextBlkp (hb : b ∈ allBlocks lib bs) :
    Watched lib h (readNextBlkp b.base) (b.base + b.size) True := by
  rw [← ht.nextBlkp hl hb]
  exact (watched_read does_readNextBlkp).congr (hl.header_within hb)

/-- **`checkblock` finds nothing wrong with a block in order.** -/
theorem Tags.watched_checkblock (hb : b ∈ allBlocks lib bs) :
    Watched lib h (checkblock b.base lineno) () True := by
  have hbounds := hl.bounds hb
  have htagged := ht.tagged b hb
  have hsame : h.get (hdrp b.base) = h.get (b.base + b.size - 8) := by
    rw [hl.hdrp hb, htagged.header, htagged.footer]
  refine ((watched_onlyIf ?_).bind ((watched_read does_readWord).bind
    ((ht.watched_readFtrp hl hb).bind ((watched_read does_readWord).bind
      (watched_onlyIf ?_))))).congr ?_
  · exact decide_eq_false (by omega)
  · exact decide_eq_false (not_not_intro hsame)
  · rw [hl.header_within hb, true_and, true_and, true_and, and_true, iff_true]
    omega

/-- The footer of a block lies in front of the next header. -/
theorem Tags.watched_reachesNext (hb : b ∈ allBlocks lib bs) :
    Watched lib h (reachesNext b.base) false True := by
  have hbounds := hl.bounds hb
  have hbehind : decide (Malloc.hdrp (b.base + b.size) < b.base + b.size - 8) = false := by
    rw [hdrp_eq (by omega) (by omega)]
    exact decide_eq_false (by omega)
  rw [← hbehind]
  have hrun : Watched lib h (reachesNext b.base) _ (True ∧ True ∧ True) :=
    (ht.watched_readFtrp hl hb).bind ((ht.watched_readNextBlkp hl hb).bind watched_pure)
  exact hrun.congr (by simp)

/-- **What the walk looks at behind a block**: nothing when the block is free, and otherwise the
first word of the next block.  No two blocks overlap. -/
theorem Tags.watched_overlaps (hb : b ∈ allBlocks lib bs) :
    Watched lib h (overlaps b.base) false (b.alloc = true → b.base + b.size + 4 ≤ h.brk) := by
  have hbounds := hl.bounds hb
  have halloc := ht.watched_readAlloc hl hb
  cases hcase : b.alloc with
  | false =>
      rw [hcase] at halloc
      have hrun : Watched lib h (overlaps b.base) false (True ∧ True) := halloc.bind watched_pure
      exact hrun.congr (by simp)
  | true =>
      rw [hcase] at halloc
      have hrest : Watched lib h (if h.getAlloc (b.base + b.size) = 0 then pure false
          else reachesNext b.base) false True := by
        split_ifs
        · exact watched_pure
        · exact ht.watched_reachesNext hl hb
      have hread : Watched lib h (readAlloc (b.base + b.size)) _
          (lib.start ≤ b.base + b.size ∧ b.base + b.size + 4 ≤ h.brk) := watched_read does_readAlloc
      have hrun : Watched lib h (overlaps b.base) false _ :=
        halloc.bind ((ht.watched_readNextBlkp hl hb).bind (hread.bind hrest))
      refine hrun.congr ?_
      simp only [true_and, and_true, forall_const]
      omega

end Block

/-! ### The walk -/

section Walk

variable {lib : Memlib} {h : Heap} {bs cs : List Block} {l : List ℕ} {lineno : ℤ} {fuel lo : ℕ}

/-- **The walk over the blocks** is silent, and stays within the heap when the last block is free.
`lo` is where the blocks `cs` start that are left. -/
theorem Tags.watched_walkLoop (ht : Tags lib h bs) (hl : Layout lib h.brk bs)
    (hcs : Tiles lo h.brk cs) (hmem : ∀ c ∈ cs, c ∈ allBlocks lib bs) (hfuel : cs.length ≤ fuel) :
    Watched lib h (walkLoop false lineno fuel lo) (some h.brk)
      (∀ b ∈ cs.getLast?, b.alloc = false) := by
  have hbrk := hl.brk_bounds
  induction cs generalizing lo fuel with
  | nil =>
      obtain rfl : lo = h.brk := hcs
      have hhdr : Malloc.hdrp h.brk = h.brk - 4 := hdrp_eq (by omega) (by omega)
      have hsize : h.getSize (Malloc.hdrp h.brk) = 0 := by
        rw [hhdr]
        exact getSize_of_tag rfl (by omega) ht.epilogue
      have hread : Watched lib h (readSize (Malloc.hdrp h.brk)) 0 True := by
        rw [← hsize]
        refine (watched_read does_readSize).congr ?_
        rw [hhdr, iff_true]
        omega
      have hrun : Watched lib h (walkLoop false lineno fuel h.brk) (some h.brk) (True ∧ True) := by
        unfold walkLoop
        exact hread.bind watched_pure
      exact hrun.congr (by simp)
  | cons c cs ih =>
      obtain ⟨rfl, hrest⟩ := hcs
      have hc := hmem c List.mem_cons_self
      have hbounds := hl.bounds hc
      cases fuel with
      | zero => cases hfuel
      | succ fuel =>
          have htail := ih hrest (fun d hd => hmem d (List.mem_cons_of_mem _ hd))
            (Nat.le_of_succ_le_succ hfuel)
          have hsize := ht.watched_readSize hl hc
          have hrun : Watched lib h (walkLoop false lineno (fuel + 1) c.base) (some h.brk)
              (True ∧ True ∧ True ∧ (c.alloc = true → c.base + c.size + 4 ≤ h.brk) ∧ True ∧
                ∀ b ∈ cs.getLast?, b.alloc = false) := by
            rw [walkLoop]
            refine hsize.bind ?_
            rw [if_neg (by omega)]
            exact (watched_onlyIf rfl).bind ((ht.watched_checkblock hl hc).bind
              ((ht.watched_overlaps hl hc).bind ((ht.watched_readNextBlkp hl hc).bind htail)))
          refine hrun.congr ?_
          simp only [true_and]
          -- the word behind the last block is the one at the break
          cases cs with
          | nil =>
              have hend : c.base + c.size = h.brk := hrest
              have hbeyond : ¬ h.brk + 4 ≤ h.brk := by omega
              simp [hend, hbeyond]
          | cons d ds =>
              have hd := hl.bounds (hmem d (by simp))
              have hdbase := hrest.1
              rw [List.getLast?_cons_cons]
              exact and_iff_right fun _ => by omega

/-- A tag with the size it should have, that is allocated. -/
theorem watched_badTag {p size : ℕ} (hsize : h.getSize p = size) (halloc : h.getAlloc p ≠ 0)
    (hwithin : lib.start ≤ p ∧ p + 4 ≤ h.brk) : Watched lib h (badTag p size) false True := by
  have hrun : Watched lib h (badTag p size) false (True ∧ True ∧ True) := by
    refine ((watched_read does_readSize).congr (iff_true_intro hwithin)).bind ?_
    rw [if_neg (not_not_intro hsize)]
    refine ((watched_read does_readAlloc).congr (iff_true_intro hwithin)).bind ?_
    rw [decide_eq_false halloc]
    exact watched_pure
  exact hrun.congr (by simp)

/-- **The whole check** of a heap in order. -/
theorem Good.watched_checkheap (hg : Good lib h bs l) :
    Watched lib h (checkheap false lineno) ()
      (∀ b ∈ (allBlocks lib bs).getLast?, b.alloc = false) := by
  have hl := hg.rep.layout
  have ht := hg.rep.tags
  have hbrk := hl.brk_bounds
  have hp : prologue lib ∈ allBlocks lib bs := List.mem_cons_self
  have hlistp : h.heapListp = (prologue lib).base := hg.rep.heapListp
  have hlen := hl.tiles_all.length_le fun b hb => by
    have := hl.bounds hb
    omega
  have hprologue : Watched lib h (badTag (hdrp (prologue lib).base) dsize) false True :=
    watched_badTag (ht.getSize hl hp) (by rw [ht.getAlloc hl hp]; exact Nat.one_ne_zero)
      (of_iff_true (hl.header_within hp))
  have hepilogue : Watched lib h (badTag (hdrp h.brk) 0) false True := by
    have hhdr : hdrp h.brk = h.brk - 4 := hdrp_eq (by omega) (by omega)
    have halloc : h.getAlloc (hdrp h.brk) ≠ 0 := by
      rw [ht.getAlloc_brk hl]
      exact Nat.one_ne_zero
    refine watched_badTag ?_ halloc ?_
    · rw [hhdr]
      exact getSize_of_tag rfl (by omega) ht.epilogue
    · rw [hhdr]
      omega
  have hwalk : Watched lib h (walkLoop false lineno h.brk (prologue lib).base) (some h.brk)
      (∀ b ∈ (allBlocks lib bs).getLast?, b.alloc = false) :=
    ht.watched_walkLoop hl hl.tiles_all (fun _ hc => hc) (by omega)
  have hrun : Watched lib h (checkheap false lineno) () (True ∧ True ∧ True ∧ True ∧ True ∧
      (∀ b ∈ (allBlocks lib bs).getLast?, b.alloc = false) ∧ True ∧ True ∧ True) := by
    refine watched_theHeap.bind ?_
    rw [hlistp]
    exact (watched_onlyIf rfl).bind (hprologue.bind ((watched_onlyIf rfl).bind
      ((ht.watched_checkblock hl hp).bind (hwalk.bind ((watched_onlyIf rfl).bind
        (hepilogue.bind watched_pure))))))
  exact hrun.congr (by simp)

/-- The last block, as `PREV_BLKP` finds it in front of the epilogue. -/
theorem Good.last_free_iff (hg : Good lib h bs l) :
    (∀ b ∈ (allBlocks lib bs).getLast?, b.alloc = false) ↔
      h.getAlloc (hdrp (h.prevBlkp h.brk)) = 0 := by
  have hl := hg.rep.layout
  have ht := hg.rep.tags
  obtain ⟨L, b, hL⟩ : ∃ L b, allBlocks lib bs = L ++ [b] :=
    ⟨_, _, (List.dropLast_append_getLast (l := allBlocks lib bs) (List.cons_ne_nil _ _)).symm⟩
  have hb : b ∈ allBlocks lib bs := by simp [hL]
  have htiles := hl.tiles_all
  rw [hL] at htiles
  have hend : b.base + b.size = h.brk := (tiles_append_cons.1 htiles).2
  rw [← hend, ht.prevBlkp hl hb, ht.getAlloc hl hb, hL, List.getLast?_append]
  cases halloc : b.alloc <;> simp [halloc]

end Walk

/-- **When `checkheap` is harmless**: in the states of runs in which the last block is free.  When
it is in use, the word at the break is read, the first behind the heap. -/
theorem checkheap_harmless_iff {lib : Memlib} {h₀ : Heap} {s : State} (hs : Reach lib h₀ s)
    (lineno : ℤ) :
    Harmless lib (checkheap false lineno) s.heap ↔
      s.heap.getAlloc (hdrp (s.heap.prevBlkp s.heap.brk)) = 0 := by
  obtain ⟨bs, l, hg, -⟩ := hs.inv
  rw [hg.watched_checkheap.harmless_iff, hg.last_free_iff]

/-- After three calls the last block is free. -/
theorem checkheap_harmless_three : ∃ s, play plentiful ⟨(mmInit plentiful fresh).1, []⟩
    [.malloc 10, .malloc 20, .free 32] = some s ∧
      Harmless plentiful (checkheap false 1) s.heap := by
  have hplay : (play plentiful ⟨(mmInit plentiful fresh).1, []⟩
      [.malloc 10, .malloc 20, .free 32]).map
        (fun s => s.heap.getAlloc (hdrp (s.heap.prevBlkp s.heap.brk))) = some 0 := by
    decide +kernel
  obtain ⟨s, hs, hlast⟩ := Option.map_eq_some_iff.1 hplay
  exact ⟨s, hs, (checkheap_harmless_iff (reach_fresh.play hs) 1).mpr hlast⟩

/-- A request for the whole block. -/
theorem checkheap_reads_beyond : ∃ s, play plentiful ⟨(mmInit plentiful fresh).1, []⟩
    [.malloc 4088] = some s ∧ Reach plentiful fresh s ∧
      ¬ Harmless plentiful (checkheap false 1) s.heap := by
  have hplay : (play plentiful ⟨(mmInit plentiful fresh).1, []⟩ [.malloc 4088]).map
      (fun s => (s.heap.brk, match checkheap false 1 s.heap [] with
        | .ok (_, es) => decide (Probe.read 4128 4 ∈ es)
        | .error _ => false)) = some (4128, true) := by decide +kernel
  obtain ⟨s, hs, hrun⟩ := Option.map_eq_some_iff.1 hplay
  obtain ⟨hbrk, hread⟩ := Prod.mk.inj hrun
  refine ⟨s, hs, reach_fresh.play hs, ?_⟩
  rintro ⟨h', es, hcheck, -, hreads, -⟩
  rw [hcheck] at hread
  have hin := (hreads 4128 4 (of_decide_eq_true hread)).2
  rw [hbrk] at hin
  exact absurd hin (by decide)

end Malloc
