/-
**The proxy's cache of web objects.**

`cache.c` keeps its items on a doubly linked list that starts at a dummy `head` and ends at the
null pointer, most recently used first, with `tail` pointing at the last node.  The model keeps the
nodes in a memory indexed by addresses and follows every assignment.  A null pointer is `none`; a
function that would follow one, or loop forever, has no result.  Every lock operation and every
write to a list field is recorded, in order.

An item's `content` is what `strdup` made of the bytes it was given, up to and including the first
NUL; its `size` is what the caller said.

Main definitions:

* `Proxy.CacheItem`, `Proxy.Cache` — a node, and the cache with its memory;
* `Proxy.moveToFront`, `Proxy.findCacheItem`, `Proxy.removeOldestCacheItem`,
  `Proxy.addCacheItem`, `Proxy.printCache`, `Proxy.initCache` — the functions of the source.
-/

import Mathlib.Algebra.Ring.Nat
import Mathlib.Data.Int.Notation
import Mathlib.Logic.Function.Basic
import Mathlib.Tactic.Common

set_option relaxedAutoImplicit false
set_option autoImplicit false

namespace Proxy

/-! ### Memory -/

/-- `MAX_CACHE_SIZE`. -/
abbrev maxCacheSize : ℕ := 1048576

/-- `MAX_OBJECT_SIZE`. -/
abbrev maxObjectSize : ℕ := 102400

/-- The address of a node. -/
abbrev Ptr := ℕ

/-- `struct CacheItem`. -/
structure CacheItem where
  url : Option (List Char)
  content : Option (List UInt8)
  size : ℕ
  prev : Option Ptr
  next : Option Ptr

/-- The list fields the functions write to. -/
inductive Field where
  | next (p : Ptr)
  | prev (p : Ptr)
  | tail
  | totalSize
  deriving DecidableEq, Repr

/-- What a call does to the lock and to the list fields. -/
inductive Event where
  | rdlock
  | wrlock
  | unlock
  | update (field : Field)
  deriving DecidableEq, Repr

/-- The cache: its own fields, the nodes in memory, the first address `malloc` has never handed
out, and what was done so far, latest last. -/
structure Cache where
  head : Ptr
  tail : Option Ptr
  totalSize : ℕ
  items : Ptr → CacheItem
  fresh : Ptr
  log : List Event

namespace Cache

variable (c : Cache) (p : Ptr)

/-- `p->url`. -/
def url : Option (List Char) := (c.items p).url

/-- `p->content`. -/
def content : Option (List UInt8) := (c.items p).content

/-- `p->size`. -/
def size : ℕ := (c.items p).size

/-- `p->prev`. -/
def prev : Option Ptr := (c.items p).prev

/-- `p->next`. -/
def next : Option Ptr := (c.items p).next

/-- A lock operation. -/
def record (e : Event) : Cache := { c with log := c.log ++ [e] }

/-- `p->next = v`. -/
def setNext (v : Option Ptr) : Cache :=
  { c with
    items := Function.update c.items p { c.items p with next := v }
    log := c.log ++ [.update (.next p)] }

/-- `p->prev = v`. -/
def setPrev (v : Option Ptr) : Cache :=
  { c with
    items := Function.update c.items p { c.items p with prev := v }
    log := c.log ++ [.update (.prev p)] }

/-- `cache->tail = v`. -/
def setTail (v : Option Ptr) : Cache :=
  { c with tail := v, log := c.log ++ [.update .tail] }

/-- `cache->totalSize = v`. -/
def setTotalSize (v : ℕ) : Cache :=
  { c with totalSize := v, log := c.log ++ [.update .totalSize] }

/-- `free(p)`: nothing that stood there may be read again. -/
def free : Cache :=
  { c with
    items := Function.update c.items p
      { url := none, content := none, size := 0, prev := none, next := none } }

/-- `malloc` of a node that is then filled in; it is handed out at an address never used before. -/
def newItem (url : Option (List Char)) (content : Option (List UInt8)) (size : ℕ) : Cache :=
  { c with
    fresh := c.fresh + 1
    items := Function.update c.items c.fresh
      { url := url, content := content, size := size, prev := none, next := none } }

end Cache

/-- `size_t` addition. -/
def addSize (a b : ℕ) : ℕ := (a + b) % 2 ^ 64

/-- `size_t` subtraction. -/
def subSize (a b : ℕ) : ℕ := (a + 2 ^ 64 - b) % 2 ^ 64

/-! ### The functions -/

/-- `initCache`, when `malloc` succeeds. -/
def initCache : Cache where
  head := 0
  tail := some 0
  totalSize := 0
  items _ := { url := none, content := none, size := 0, prev := none, next := none }
  fresh := 1
  log := []

/-- `moveToFront`, first half: detach the item, and update `tail` if it was the last one. -/
def detach (c : Cache) (item : Ptr) : Cache :=
  let c := match c.prev item with
    | some p => c.setNext p (c.next item)
    | none => c
  let c := match c.next item with
    | some n => c.setPrev n (c.prev item)
    | none => c
  if c.tail = some item then c.setTail (c.prev item) else c

/-- `moveToFront`, second half: attach the item, and update `tail` if the list was empty. -/
def attachFront (c : Cache) (item : Ptr) : Cache :=
  let c := c.setNext item (c.next c.head)
  let c := c.setPrev item (some c.head)
  let c := match c.next c.head with
    | some n => c.setPrev n (some item)
    | none => c
  let c := c.setNext c.head (some item)
  if c.tail = some c.head then c.setTail (some item) else c

/-- `moveToFront`. -/
def moveToFront (c : Cache) (item : Ptr) : Cache :=
  if c.next c.head = some item then c else attachFront (detach c item) item

/-- The loop of `findCacheItem` from a node on: the item, the null pointer, or no result when the
list has a cycle or an item without a key. -/
def findLoop (c : Cache) (key : List Char) : ℕ → Option Ptr → Option (Option Ptr)
  | _, none => some none
  | 0, some _ => none
  | fuel + 1, some p =>
      match c.url p with
      | none => none  -- `strcmp` on a null pointer
      | some url => if url = key then some (some p) else findLoop c key fuel (c.next p)

/-- `findCacheItem`: the cache afterwards and the item.  No node is visited twice, so that the
loop needs no more iterations than there are nodes. -/
def findCacheItem (c : Cache) (key : List Char) : Option (Cache × Option Ptr) :=
  let c := c.record .rdlock
  match findLoop c key c.fresh (c.next c.head) with
  | none => none
  | some (some item) => some (moveToFront c item, some item)  -- returns without unlocking
  | some none => some (c.record .unlock, none)

/-- `removeOldestCacheItem`. -/
def removeOldestCacheItem (c : Cache) : Option Cache :=
  if c.tail = some c.head then some c
  else
    match c.tail with
    | none => none
    | some oldest =>
        match c.prev oldest with
        | none => none
        | some last =>
            let c := c.setTail (some last)
            let c := c.setNext last none
            let c := c.setTotalSize (subSize c.totalSize (c.size oldest))
            some (c.free oldest)

/-- The loop of `addCacheItem`: remove the oldest items until there is room for `size` bytes.
A turn removes a node or changes nothing, so that a loop with more turns than there are nodes
never ends. -/
def evictLoop (size : ℕ) : ℕ → Cache → Option Cache
  | fuel, c =>
      if maxCacheSize < addSize c.totalSize size then
        match fuel with
        | 0 => none
        | fuel + 1 =>
            match removeOldestCacheItem c with
            | none => none
            | some c => evictLoop size fuel c
      else some c

/-- `strdup` on the memory readable from an address on: the copy, with its terminator; no result
when no terminator is met before the end of that memory. -/
def strdup (memory : List UInt8) : Option (List UInt8) :=
  if 0 ∈ memory then some (memory.takeWhile (· ≠ 0) ++ [0]) else none

/-- Which allocations succeed: the item, the copy of the key, the copy of the content. -/
structure Alloc where
  item : Bool
  url : Bool
  content : Bool

/-- Everything succeeds. -/
def Alloc.all : Alloc := { item := true, url := true, content := true }

/-- `addCacheItem`, the insertion: link the new item in behind the dummy. -/
def linkNew (c : Cache) (newItem : Ptr) : Cache :=
  let c := c.setPrev newItem (some c.head)
  let c := c.setNext newItem (c.next c.head)
  let c := match c.next c.head with
    | some n => c.setPrev n (some newItem)
    | none => c.setTail (some newItem)
  c.setNext c.head (some newItem)

/-- `addCacheItem`; `content` is the memory readable from the pointer on. -/
def addCacheItem (alloc : Alloc) (c : Cache) (url : List Char) (content : List UInt8) (size : ℕ) :
    Option Cache :=
  let c := c.record .wrlock
  if maxObjectSize < size then some c  -- returns without unlocking
  else
    match evictLoop size c.fresh c with
    | none => none
    | some c =>
        if !alloc.item then some c  -- returns without unlocking
        else
          match strdup content with
          | none => none
          | some copy =>
              let newItem := c.fresh
              let c := c.newItem (if alloc.url then some url else none)
                (if alloc.content then some copy else none) size
              let c := linkNew c newItem
              let c := c.setTotalSize (addSize c.totalSize size)
              some (c.record .unlock)

/-- The loop of `printCache` from a node on. -/
def printLoop (c : Cache) : ℕ → Option Ptr → Option String
  | _, none => some ""
  | 0, some _ => none
  | fuel + 1, some p =>
      (printLoop c fuel (c.next p)).map fun rest =>
        "URL: " ++ ((c.url p).map String.ofList).getD "(null)" ++ "\n" ++
        "Size: " ++ toString (c.size p) ++ "\n" ++
        "-----------------------------------\n" ++ rest

/-- `printCache`: the cache afterwards and what is printed. -/
def printCache (c : Cache) : Option (Cache × String) :=
  let c := c.record .rdlock
  (printLoop c c.fresh (some c.head)).map fun text =>
    (c.record .unlock,
      "Cache Contents (Total Size: " ++ toString c.totalSize ++ "):\n" ++
      "-----------------------------------\n" ++ text)

end Proxy
