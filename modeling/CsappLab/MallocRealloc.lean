/-
**What `mm_realloc` keeps.**

`mm_realloc` takes a new block, copies the old contents to it and frees the old block.  The length
of the copy is the size of the old block, tags included, cut down to the new size: what is read goes
on behind the payload of the old block, but not behind the block, and what is written stays inside
the payload of the new one, which lies apart from the old block.

Main definitions:

* `Malloc.CopySafe` — what `memcpy` reads and writes;
* `Malloc.Moved` — what a call leaves that has moved a block.

Main results:

* `Malloc.mmRealloc_moved_spec` — a block that is moved;
* `Malloc.mmRealloc_preserves` — **`mm_realloc` preserves contents**.
-/

import CsappLab.MallocFit

set_option relaxedAutoImplicit false
set_option autoImplicit false

namespace Malloc

open ByteMem Tiling

/-! ### The copy -/

/-- **What `memcpy` reads and writes** when `n` bytes are asked for: `k` bytes of the old block at
`p`, which are in the heap and apart from the `k` bytes at `q`, and these are payload. -/
structure CopySafe (lib : Memlib) (h h₁ : Heap) (p n q k : ℕ) : Prop where
  length : k = min n (h.getSize (hdrp p))
  start_le : lib.start ≤ p
  le_brk : p + k ≤ h.brk
  apart : p + k ≤ q ∨ q + k ≤ p
  length_le : k ≤ n
  payload : q + n ≤ h₁.ftrp q

/-- **What is left of a block that was moved** from `p` to `q`, when it was asked for with `m` bytes
and then with `n`; the other allocations are `others`. -/
structure Moved (lib : Memlib) (h : Heap) (p m n : ℕ) (others : List (ℕ × ℕ)) (h' : Heap) (q : ℕ) :
    Prop where
  contents : ∀ i < min m n, h'.ram.bytes (q + i) = h.ram.bytes (p + i)
  copied : ∃ h₁ k, mmMalloc lib h n = some (h₁, q) ∧ CopySafe lib h h₁ p n q k ∧
    h' = mmFree lib (memcpy h₁ q p k) p
  released : ∃ r, FreeBlock h' r ∧ r ≤ p ∧ p + h.getSize (hdrp p) ≤ r + h'.getSize (hdrp r)
  others : ∀ r ∈ others, ∀ a, r.1 ≤ a → a < r.1 + r.2 → h'.ram.bytes a = h.ram.bytes a

section Copy

variable {lib : Memlib} {h h₁ : Heap} {L R : List Block} {b : Block} {l : List ℕ}
  {bs : List Block} {l₁ : List ℕ} {size p n k a : ℕ}

/-- The bytes of a block in use are not outside of it. -/
theorem not_outside {brk : ℕ} {used : List Block} (hb : b ∈ used) (hlo : b.base ≤ a)
    (hhi : a < b.base + b.size - 8) : ¬ Outside lib brk used a := by
  intro hout
  have := hout.2.2 b hb
  omega

theorem copy_bytes (r : Ram) {dst src i : ℕ} (hi : i < k) :
    (r.copy dst src k).bytes (dst + i) = r.bytes (src + i) := by
  show (if dst ≤ dst + i ∧ dst + i < dst + k then _ else _) = _
  rw [if_pos (by omega), Nat.add_sub_cancel_left]

/-- The copy is safe, whatever the two sizes are. -/
theorem Served.copySafe (hs : Served lib h (allocated (L ++ b :: R)) size h₁ p bs l₁ n)
    (hg : Good lib h (L ++ b :: R) l) (hb : b.alloc = true) :
    CopySafe lib h h₁ b.base size p (min size b.size) := by
  have hball : b ∈ allBlocks lib (L ++ b :: R) := mem_allBlocks (by simp)
  have hbounds := hg.rep.layout.bounds hball
  have hused : b ∈ allocated (L ++ b :: R) := mem_allocated.2 ⟨by simp, hb⟩
  have hnew : (⟨p, n, true⟩ : Block) ∈ allBlocks lib bs :=
    mem_allBlocks (mem_allocated.1 hs.new_mem).1
  have hroom := hs.room
  have happart := hs.apart hused
  have hftrp := hs.good.rep.tags.ftrp hs.good.rep.layout hnew
  simp only at hftrp
  constructor
  · rw [hg.rep.tags.getSize hg.rep.layout hball]
  · omega
  · omega
  · omega
  · exact Nat.min_le_left ..
  · omega

/-- **A block that is moved.** -/
theorem mmRealloc_moved_spec (hg : Good lib h (L ++ b :: R) l) (hb : b.alloc = true)
    (hzero : size ≠ 0) (hmalloc : mmMalloc lib h size = some (h₁, p))
    (hs : Served lib h (allocated (L ++ b :: R)) size h₁ p bs l₁ n) :
    ∃ h', mmRealloc lib h b.base size = some (h', p) ∧
      h' = mmFree lib (memcpy h₁ p b.base (min size b.size)) b.base ∧
      (∀ i, i < size → i < b.size - 8 → h'.ram.bytes (p + i) = h.ram.bytes (b.base + i)) ∧
      ∃ r, FreeBlock h' r ∧ r ≤ b.base ∧ b.base + b.size ≤ r + h'.getSize (hdrp r) := by
  have hused : b ∈ allocated (L ++ b :: R) := mem_allocated.2 ⟨by simp, hb⟩
  have hold := hs.old_mem hused
  have hbounds := hg.rep.layout.bounds (mem_allBlocks (b := b) (by simp))
  have hgetSize := hs.good.rep.tags.getSize hs.good.rep.layout
    (mem_allBlocks (mem_allocated.1 hold).1)
  have hk : (if size < b.size then size else b.size) = min size b.size := by
    split <;> omega
  obtain ⟨hgood, -⟩ := hs.copied (Nat.min_le_left size b.size) b.base
  have hmoved := mmRealloc_moved hzero (by omega : b.base ≠ 0) hs.ne hmalloc hgetSize
  rw [hk] at hmoved
  refine ⟨_, hmoved, rfl, ?_⟩
  have hnew := hs.new_mem
  have hne : (⟨p, n, true⟩ : Block) ≠ b := fun heq => hs.new_notMem (heq ▸ hused)
  have hroom := hs.room
  obtain ⟨L₁, R₁, rfl⟩ := List.append_of_mem (mem_allocated.1 hold).1
  obtain ⟨bs₂, l₂, hgood₂, hused₂, hsteady, m, hm, hfree, hlo, hhi⟩ := mmFree_spec hgood hb
  constructor
  · intro i hi hib
    -- freeing the old block keeps the new one, and growing the heap kept the old one
    have hrest : (⟨p, n, true⟩ : Block) ∈ allocated (L₁ ++ R₁) := by
      rw [(allocated_perm hb).mem_iff, List.mem_cons] at hnew
      exact hnew.resolve_left hne
    rw [hsteady.wrote.frame _ (not_outside hrest (by show p ≤ p + i; omega)
      (by show p + i < p + n - 8; omega))]
    show (h₁.ram.copy p b.base (min size b.size)).bytes (p + i) = _
    rw [copy_bytes _ (by omega)]
    exact hs.wrote.frame _ (not_outside hused (by omega) (by omega))
  · refine ⟨m.base, hgood₂.freeBlock_iff.2 ⟨m, hm, hfree, rfl⟩, hlo, ?_⟩
    rw [hgood₂.rep.tags.getSize hgood₂.rep.layout (mem_allBlocks hm)]
    exact hhi

end Copy

/-! ### Runs -/

/-- **`mm_realloc` preserves contents.** A live block that is given a new size is moved, or nothing
has changed but the number of calls of `mem_sbrk`; with a null pointer `mm_realloc` is `mm_malloc`,
and with the size zero it is `mm_free`. -/
theorem mmRealloc_preserves {lib : Memlib} {h₀ : Heap} {s : State} (hs : Reach lib h₀ s) :
    (∀ p m n, (p, m) ∈ s.live → 1 ≤ n → n ≤ 2147483647 →
      ∃ h q, mmRealloc lib s.heap p n = some (h, q) ∧
        (q ≠ 0 → Moved lib s.heap p m n (drop s.live p) h q) ∧
        (q = 0 → h = { s.heap with sbrks := s.heap.sbrks + 1 })) ∧
      (∀ n, 1 ≤ n → mmRealloc lib s.heap 0 n = mmMalloc lib s.heap n) ∧
      ∀ p, mmRealloc lib s.heap p 0 = some (mmFree lib s.heap p, 0) := by
  refine ⟨fun p m n hlive hn hmax => ?_, fun n hn => mmRealloc_null lib _ (by omega),
    mmRealloc_zero lib s.heap⟩
  obtain ⟨bs, l, hg, hh⟩ := hs.inv
  have hvalid : (Call.realloc p n).Valid s.live := ⟨hmax, .inr ⟨(p, m), hlive, rfl⟩⟩
  obtain ⟨h', q, bs', l', used, hrun, hcalled, -⟩ := call_spec hg hh hvalid
  have hothers : q ≠ 0 → ∀ r ∈ drop s.live p, ∀ a, r.1 ≤ a → a < r.1 + r.2 →
      h'.ram.bytes a = s.heap.ram.bytes a := by
    intro hq r hr a hlo hhi
    refine hcalled.bytes ?_ hlo hhi
    rwa [Call.kept, if_neg fun hand => hq hand.2]
  obtain ⟨b, hb, hbase, hroom⟩ := hh.room _ hlive
  obtain rfl : b.base = p := hbase
  obtain ⟨hmem, halloc⟩ := mem_allocated.1 hb
  obtain ⟨L, R, rfl⟩ := List.append_of_mem hmem
  have hgetSize := hg.rep.tags.getSize hg.rep.layout (mem_allBlocks hmem)
  have hbounds := hg.rep.layout.bounds (mem_allBlocks hmem)
  have hsize : n ≤ 4294967280 := by omega
  obtain ⟨h₁, p', hmalloc, hanswered⟩ := mmMalloc_answered hg hsize (by omega)
  rcases hanswered.served hg hsize with ⟨rfl, -⟩ | ⟨bs₁, l₁, k, hserved⟩
  · -- refused, and `mm_realloc` returns as well
    have hptr : b.base ≠ 0 := by omega
    exact ⟨h₁, 0, mmRealloc_refused (by omega) hptr hmalloc, fun hne => absurd rfl hne,
      fun _ => hanswered.eq_of_null hg hsize⟩
  · obtain ⟨h₂, hrun', heq, hcontents, hreleased⟩ :=
      mmRealloc_moved_spec hg halloc (by omega) hmalloc hserved
    obtain ⟨rfl, rfl⟩ : h' = h₂ ∧ q = p' := by
      simpa [show (Call.realloc b.base n).run lib s.heap = some (h₂, p') from hrun'] using
        hrun.symm
    refine ⟨h', q, hrun', fun hq => ⟨fun i hi => hcontents i (by omega) (by omega), ?_, ?_,
      hothers hq⟩, fun hnull => absurd hnull hserved.ne⟩
    · exact ⟨h₁, _, hmalloc, hserved.copySafe hg halloc, heq⟩
    · rw [hgetSize]
      exact hreleased

/-- One of two allocations is moved. -/
theorem mmRealloc_preserves_two : ∃ (s : State) (h : Heap) (q : ℕ),
    s.live = [(56, 20), (32, 10)] ∧ mmRealloc plentiful s.heap 32 100 = some (h, q) ∧
      (q ≠ 0 → ∀ i < 10, h.ram.bytes (q + i) = s.heap.ram.bytes (32 + i)) := by
  have hplay : (play plentiful ⟨(mmInit plentiful fresh).1, []⟩
      [.malloc 10, .malloc 20]).map State.live = some [(56, 20), (32, 10)] := by decide +kernel
  obtain ⟨s, hs, hlive⟩ := Option.map_eq_some_iff.1 hplay
  have hin : (32, 10) ∈ s.live := by
    rw [hlive]
    decide
  obtain ⟨h, q, hrun, hmoved, -⟩ :=
    (mmRealloc_preserves (reach_fresh.play hs)).1 32 10 100 hin (by decide) (by decide)
  exact ⟨s, h, q, hlive, hrun, fun hq i hi => (hmoved hq).contents i (by omega)⟩

end Malloc
