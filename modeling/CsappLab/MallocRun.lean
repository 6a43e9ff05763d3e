/-
**Runs of the allocator.**

A client calls `mm_init` and then `mm_malloc`, `mm_free` and `mm_realloc` in any order.  It gives
back only what it got, and writes only to the bytes it asked for.  The state of a run is the heap
and what the client holds: the pointers it got, each with the size it asked for.

The invariant of runs connects the two: the heap is in order, and its blocks in use are those the
client holds, each with room for what was asked for.

Main definitions:

* `Malloc.Call`, `Malloc.Reach` — the calls, and the states that runs lead to;
* `Malloc.Holds` — the client's allocations are the blocks in use.

Main results:

* `Malloc.call_spec` — **a valid call returns**, and what it does to the heap and to the client's
  allocations;
* `Malloc.Reach.inv` — **the invariant of runs**.
-/

import CsappLab.MallocCalls

set_option relaxedAutoImplicit false
set_option autoImplicit false

namespace Malloc

open ByteMem Tiling

/-! ### Runs -/

/-- A call of a client. -/
inductive Call
  | malloc (size : ℕ)
  | free (ptr : ℕ)
  | realloc (ptr size : ℕ)
  deriving DecidableEq, Repr

/-- The heap, and what the client holds: pointers with the sizes that were asked for. -/
structure State where
  heap : Heap
  live : List (ℕ × ℕ)

/-- The allocations other than one. -/
def drop (live : List (ℕ × ℕ)) (ptr : ℕ) : List (ℕ × ℕ) := live.filter fun q => q.1 ≠ ptr

namespace Call

/-- A call: the heap afterwards and what it returns. -/
def run (lib : Memlib) (h : Heap) : Call → Option (Heap × ℕ)
  | malloc size => mmMalloc lib h size
  | free ptr => some (mmFree lib h ptr, 0)
  | realloc ptr size => mmRealloc lib h ptr size

/-- The size that is asked for. -/
def size : Call → ℕ
  | malloc size => size
  | free _ => 0
  | realloc _ size => size

/-- The pointer that is given back. -/
def ptr : Call → ℕ
  | malloc _ => 0
  | free ptr => ptr
  | realloc ptr _ => ptr

/-- A valid call: the size is at most `INT_MAX`, and a pointer is null or was returned before. -/
def Valid (live : List (ℕ × ℕ)) (c : Call) : Prop :=
  c.size ≤ 2147483647 ∧ (c.ptr = 0 ∨ ∃ q ∈ live, q.1 = c.ptr)

instance (live : List (ℕ × ℕ)) (c : Call) : Decidable (c.Valid live) :=
  inferInstanceAs (Decidable (_ ∧ _))

/-- What is left of the allocations when a call has returned `p`.  When `mm_realloc` fails, the old
block is left untouched. -/
def kept (live : List (ℕ × ℕ)) (p : ℕ) : Call → List (ℕ × ℕ)
  | malloc _ => live
  | free ptr => drop live ptr
  | realloc ptr size => if size ≠ 0 ∧ p = 0 then live else drop live ptr

/-- The allocations when a call has returned `p`. -/
def after (live : List (ℕ × ℕ)) (p : ℕ) (c : Call) : List (ℕ × ℕ) :=
  if p = 0 then c.kept live p else (p, c.size) :: c.kept live p

end Call

/-- **The states that runs lead to**, from a heap with no memory. -/
inductive Reach (lib : Memlib) (h₀ : Heap) : State → Prop
  | init (hbrk : h₀.brk = lib.start) (hok : (mmInit lib h₀).2 = 0) :
      Reach lib h₀ ⟨(mmInit lib h₀).1, []⟩
  | call {s : State} {c : Call} {h : Heap} {p : ℕ} (hs : Reach lib h₀ s) (hvalid : c.Valid s.live)
      (hrun : c.run lib s.heap = some (h, p)) : Reach lib h₀ ⟨h, c.after s.live p⟩
  | write {s : State} {q : ℕ × ℕ} {a : ℕ} (v : UInt8) (hs : Reach lib h₀ s) (hq : q ∈ s.live)
      (hlo : q.1 ≤ a) (hhi : a < q.1 + q.2) :
      Reach lib h₀ ⟨{ s.heap with ram := s.heap.ram.setByte a v }, s.live⟩

/-- Some calls one after the other; no result when one of them is not valid, or does not return. -/
def play (lib : Memlib) : State → List Call → Option State
  | s, [] => some s
  | s, c :: cs =>
      if c.Valid s.live then
        match c.run lib s.heap with
        | none => none
        | some (h, p) => play lib ⟨h, c.after s.live p⟩ cs
      else none

theorem Reach.play {lib : Memlib} {h₀ : Heap} {s s' : State} {cs : List Call}
    (hs : Reach lib h₀ s) (hplay : play lib s cs = some s') : Reach lib h₀ s' := by
  induction cs generalizing s with
  | nil =>
      obtain rfl : s = s' := Option.some.inj hplay
      exact hs
  | cons c cs ih =>
      rw [Malloc.play] at hplay
      split at hplay
      · rename_i hvalid
        split at hplay
        · cases hplay
        · rename_i h p hrun
          exact ih (.call hs hvalid hrun) hplay
      · cases hplay

/-- A memory of 64 KiB, of which every request is granted that is legal. -/
def plentiful : Memlib where
  start := 0
  maxAddr := 65536
  grant _ := true
  aligned := rfl
  maxAddr_lt := by decide

/-- A heap before `mm_init`, whose memory has not been cleared. -/
def fresh : Heap where
  ram := ⟨fun _ => 170, []⟩
  brk := 0
  sbrks := 0
  heapListp := 0
  dummyBlockp := 0

theorem reach_fresh : Reach plentiful fresh ⟨(mmInit plentiful fresh).1, []⟩ :=
  .init rfl (by decide +kernel)

/-! ### The client's allocations -/

/-- **The client's allocations are the blocks in use**, which have room for what was asked for. -/
structure Holds (live : List (ℕ × ℕ)) (used : List Block) : Prop where
  pointers : (live.map Prod.fst).Perm (used.map Block.base)
  room : ∀ q ∈ live, ∃ b ∈ used, b.base = q.1 ∧ q.2 + 8 ≤ b.size

namespace Holds

variable {live : List (ℕ × ℕ)} {used used' : List Block} {b : Block} {p n m : ℕ}

theorem nil : Holds [] [] := ⟨.refl _, fun q hq => by cases hq⟩

theorem perm (hh : Holds live used) (hp : used'.Perm used) : Holds live used' where
  pointers := hh.pointers.trans (hp.symm.map _)
  room q hq := by
    obtain ⟨b, hb, hbq⟩ := hh.room q hq
    exact ⟨b, hp.mem_iff.2 hb, hbq⟩

/-- A new allocation. -/
theorem cons (hh : Holds live used) (hn : n + 8 ≤ m) :
    Holds ((p, n) :: live) (⟨p, m, true⟩ :: used) where
  pointers := hh.pointers.cons p
  room q hq := by
    rcases List.mem_cons.1 hq with rfl | hq
    · exact ⟨_, List.mem_cons_self, rfl, hn⟩
    · obtain ⟨b, hb, hbq⟩ := hh.room q hq
      exact ⟨b, List.mem_cons_of_mem _ hb, hbq⟩

/-- An allocation is given back. -/
theorem giveBack (hh : Holds live (b :: used)) (hb : ∀ c ∈ used, c.base ≠ b.base) :
    Holds (drop live b.base) used where
  pointers := by
    have hfilter : (drop live b.base).map Prod.fst =
        (live.map Prod.fst).filter fun q => q ≠ b.base := by
      rw [drop, List.filter_map]
      rfl
    have hrest : (used.map Block.base).filter (fun q => q ≠ b.base) = used.map Block.base := by
      refine List.filter_eq_self.2 fun q hq => ?_
      obtain ⟨c, hc, rfl⟩ := List.mem_map.1 hq
      exact decide_eq_true (hb c hc)
    have hperm := hh.pointers.filter fun q => q ≠ b.base
    rw [List.map_cons, List.filter_cons_of_neg (by simp), hrest] at hperm
    rw [hfilter]
    exact hperm
  room q hq := by
    obtain ⟨hq, hne⟩ := List.mem_filter.1 hq
    obtain ⟨c, hc, hcq, hroom⟩ := hh.room q hq
    rcases List.mem_cons.1 hc with rfl | hc
    · exact absurd hcq.symm (of_decide_eq_true hne)
    · exact ⟨c, hc, hcq, hroom⟩

/-- Giving back a pointer the client does not hold changes nothing. -/
theorem drop_of_ne (hh : Holds live used) (hb : ∀ c ∈ used, c.base ≠ p) :
    drop live p = live := by
  refine List.filter_eq_self.2 fun q hq => decide_eq_true ?_
  obtain ⟨c, hc, hcq, -⟩ := hh.room q hq
  rw [← hcq]
  exact hb c hc

end Holds

/-! ### Calls -/

/-- **What a call leaves** that returned `p` for a request of `size` bytes: the allocations `kept`
are still there, in the blocks `used`; a pointer that is not null is one more block in use; and
memory was only written outside of the blocks `used`. -/
structure Called (lib : Memlib) (h : Heap) (kept : List (ℕ × ℕ)) (size : ℕ) (h' : Heap) (p : ℕ)
    (bs : List Block) (l : List ℕ) (used : List Block) : Prop where
  good : Good lib h' bs l
  kept : Holds kept used
  blocks : p = 0 ∧ (allocated bs).Perm used ∨
    p ≠ 0 ∧ ∃ n, size + 8 ≤ n ∧ (allocated bs).Perm (⟨p, n, true⟩ :: used)
  wrote : Wrote (Outside lib h'.brk used) h.ram h'.ram

section Calls

variable {lib : Memlib} {h h' : Heap} {kept live : List (ℕ × ℕ)} {bs used : List Block} {l : List ℕ}
  {size ptr p : ℕ}

/-- The client's allocations after a call. -/
theorem Called.after {c : Call} (hc : Called lib h (c.kept live p) c.size h' p bs l used) :
    Holds (c.after live p) (allocated bs) := by
  rcases hc.blocks with ⟨hp, hperm⟩ | ⟨hp, n, hn, hperm⟩
  · rw [Call.after, if_pos hp]
    exact hc.kept.perm hperm
  · rw [Call.after, if_neg hp]
    exact (hc.kept.cons hn).perm hperm

/-- A request that was not served. -/
theorem Unserved.called (hu : Unserved lib h bs l h') (hh : Holds live (allocated bs)) :
    Called lib h live size h' 0 bs l (allocated bs) where
  good := hu.good
  kept := hh
  blocks := .inl ⟨rfl, .refl _⟩
  wrote := by
    rw [hu.ram]
    exact .refl _ _

theorem Served.called {n : ℕ} (hs : Served lib h used size h' p bs l n) (hh : Holds kept used) :
    Called lib h kept size h' p bs l used where
  good := hs.good
  kept := hh
  blocks := .inr ⟨hs.ne, n, hs.room, hs.perm⟩
  wrote := hs.wrote

/-- A block the client holds. -/
theorem Holds.block (hg : Good lib h bs l) (hh : Holds live (allocated bs)) {q : ℕ × ℕ}
    (hq : q ∈ live) : ∃ L b R, bs = L ++ b :: R ∧ b.alloc = true ∧ b.base = q.1 ∧
      Holds (drop live q.1) (allocated (L ++ R)) := by
  obtain ⟨b, hb, hbase, -⟩ := hh.room q hq
  obtain ⟨hb, halloc⟩ := mem_allocated.1 hb
  obtain ⟨L, R, rfl⟩ := List.append_of_mem hb
  refine ⟨L, b, R, rfl, halloc, hbase, ?_⟩
  rw [← hbase]
  exact (hh.perm (allocated_perm halloc).symm).giveBack fun c hc =>
    hg.rep.layout.base_ne (mem_allocated.1 hc).1

theorem Holds.drop_null (hg : Good lib h bs l) (hh : Holds live (allocated bs)) :
    drop live 0 = live :=
  hh.drop_of_ne fun c hc => by
    have := hg.rep.layout.bounds (mem_allBlocks (mem_allocated.1 hc).1)
    omega

/-- `mm_free` of a pointer that is null or that the client holds. -/
theorem free_called (hg : Good lib h bs l) (hh : Holds live (allocated bs))
    (hptr : ptr = 0 ∨ ∃ q ∈ live, q.1 = ptr) :
    (∃ bs' l' used, Called lib h (drop live ptr) size (mmFree lib h ptr) 0 bs' l' used) ∧
      h.brk ≤ (mmFree lib h ptr).brk := by
  rcases hptr with rfl | ⟨q, hq, rfl⟩
  · rw [hh.drop_null hg]
    exact ⟨⟨bs, l, allocated bs, Unserved.called ⟨hg, rfl, rfl⟩ hh⟩, Nat.le_refl _⟩
  · obtain ⟨L, b, R, rfl, halloc, hbase, hrest⟩ := hh.block hg hq
    obtain ⟨bs', l', hgood, hused, hsteady, -⟩ := mmFree_spec hg halloc
    rw [hbase] at hgood hsteady
    refine ⟨⟨bs', l', allocated (L ++ R), hgood, hrest, .inl ⟨rfl, ?_⟩, ?_⟩,
      Nat.le_of_eq hsteady.brk.symm⟩
    · rw [hused]
    · rw [hsteady.brk]
      exact hsteady.wrote

theorem malloc_called (hg : Good lib h bs l) (hh : Holds live (allocated bs))
    (hsize : size ≤ 2147483647) :
    ∃ h' p bs' l' used, mmMalloc lib h size = some (h', p) ∧
      Called lib h live size h' p bs' l' used ∧ h.brk ≤ h'.brk := by
  obtain ⟨h', p, hrun, ⟨rfl, hno⟩ | ⟨bs', l', n, hserved⟩⟩ := mmMalloc_spec hg hsize
  · exact ⟨h', 0, bs, l, _, hrun, hno.called hh, Nat.le_of_eq hno.brk.symm⟩
  · exact ⟨h', p, bs', l', _, hrun, hserved.called hh, hserved.brk_le⟩

/-- **A valid call returns**, and the heap does not shrink. -/
theorem call_spec (hg : Good lib h bs l) (hh : Holds live (allocated bs)) {c : Call}
    (hvalid : c.Valid live) :
    ∃ h' p bs' l' used, c.run lib h = some (h', p) ∧
      Called lib h (c.kept live p) c.size h' p bs' l' used ∧ h.brk ≤ h'.brk := by
  obtain ⟨hsize, hptr⟩ := hvalid
  cases c with
  | malloc size => exact malloc_called hg hh hsize
  | free ptr =>
      obtain ⟨⟨bs', l', used, hcalled⟩, hbrk⟩ := free_called hg hh hptr
      exact ⟨_, 0, bs', l', used, rfl, hcalled, hbrk⟩
  | realloc ptr size =>
      by_cases hzero : size = 0
      -- `realloc` to no bytes is `free`
      · subst hzero
        obtain ⟨⟨bs', l', used, hcalled⟩, hbrk⟩ := free_called hg hh hptr
        exact ⟨_, 0, bs', l', used, mmRealloc_zero lib h ptr, hcalled, hbrk⟩
      have hkept : ∀ p, (Call.realloc ptr size).kept live p =
          if p = 0 then live else drop live ptr :=
        fun p => by simp [Call.kept, hzero]
      rcases hptr with hnull | ⟨q, hq, hqp⟩
      -- `realloc` of the null pointer is `malloc`
      · obtain rfl : ptr = 0 := hnull
        obtain ⟨h', p, bs', l', used, hrun, hcalled, hbrk⟩ := malloc_called hg hh hsize
        refine ⟨h', p, bs', l', used, (mmRealloc_null lib h hzero).trans hrun, ?_, hbrk⟩
        rw [hkept, hh.drop_null hg, ite_self]
        exact hcalled
      · obtain rfl : q.1 = ptr := hqp
        obtain ⟨L, b, R, rfl, halloc, hbase, hrest⟩ := hh.block hg hq
        obtain ⟨h', p, hrun, hcases⟩ := mmRealloc_spec hg halloc hsize hzero
        rw [hbase] at hrun
        rcases hcases with ⟨rfl, hno⟩ | ⟨bs', l', n, hserved⟩
        -- refused: the old block stays
        · refine ⟨h', 0, L ++ b :: R, l, allocated (L ++ b :: R), hrun, ?_,
            Nat.le_of_eq hno.brk.symm⟩
          rw [hkept, if_pos rfl]
          exact hno.called hh
        · refine ⟨h', p, bs', l', allocated (L ++ R), hrun, ?_, hserved.brk_le⟩
          rw [hkept, if_neg hserved.ne]
          exact hserved.called hrest

end Calls

/-! ### The invariant -/

/-- **The invariant of runs.** -/
theorem Reach.inv {lib : Memlib} {h₀ : Heap} {s : State} (hs : Reach lib h₀ s) :
    ∃ bs l, Good lib s.heap bs l ∧ Holds s.live (allocated bs) := by
  induction hs with
  | init hbrk hok =>
      obtain ⟨bs, l, hg, hused, -⟩ := mmInit_spec hbrk hok
      refine ⟨bs, l, hg, ?_⟩
      rw [hused]
      exact .nil
  | call hs hvalid hrun ih =>
      obtain ⟨bs, l, hg, hh⟩ := ih
      obtain ⟨h', p, bs', l', used, hrun', hcalled, -⟩ := call_spec hg hh hvalid
      obtain ⟨rfl, rfl⟩ : h' = _ ∧ p = _ := by simpa [hrun] using hrun'.symm
      exact ⟨bs', l', hcalled.good, hcalled.after⟩
  | write v hs hq hlo hhi ih =>
      obtain ⟨bs, l, hg, hh⟩ := ih
      obtain ⟨b, hb, hbase, hroom⟩ := hh.room _ hq
      refine ⟨bs, l, hg.inside ?_, hh⟩
      exact Wrote.setByte ⟨b, hb, by omega, by omega⟩

end Malloc
