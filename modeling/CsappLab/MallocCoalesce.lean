/-
**Coalescing.**

A block that is marked free without being on the list is in limbo.  `coalesce` takes the free
neighbours of such a block off the list, makes them one block with it, and puts that on the list.

Main definitions:

* `Malloc.Limbo` — a heap in which one free block is in limbo;
* `Malloc.Coalesced` — a heap in order again.

Main results:

* `Malloc.Rep.absorb` — a neighbour is taken off the list;
* `Malloc.Rep.join` — several blocks are made one;
* `Malloc.coalesce_spec` — **`coalesce` brings the heap back in order**.
-/

import CsappLab.FirstFit
import CsappLab.MallocHeap

set_option relaxedAutoImplicit false
set_option autoImplicit false

namespace Malloc

open ByteMem Tiling
open FirstFit (unabsorbed)

/-! ### Neighbours -/

section Neighbours

variable {lib : Memlib} {h : Heap} {L R : List Block} {b : Block} {l : List ℕ}

/-- The bit `coalesce` reads in front of a block. -/
theorem prev_cases (hl : Layout lib h.brk (L ++ b :: R)) (ht : Tags lib h (L ++ b :: R)) :
    (h.getAlloc (h.ftrp (h.prevBlkp b.base)) = 1 ∧ ∀ a ∈ L.getLast?, a.alloc = true) ∨
      ∃ L₀ a, L = L₀ ++ [a] ∧ a.alloc = false ∧ a.base + a.size = b.base ∧
        h.prevBlkp b.base = a.base ∧ h.getAlloc (h.ftrp (h.prevBlkp b.base)) = 0 := by
  have hread : ∀ a ∈ allBlocks lib (L ++ b :: R), a.base + a.size = b.base →
      h.prevBlkp b.base = a.base ∧ h.getAlloc (h.ftrp (h.prevBlkp b.base)) = a.alloc.toNat := by
    intro a ha hend
    have hprev : h.prevBlkp b.base = a.base := by
      rw [← hend]
      exact ht.prevBlkp hl ha
    exact ⟨hprev, by rw [hprev, ht.getAlloc_ftrp hl ha]⟩
  rcases List.eq_nil_or_concat L with rfl | ⟨L₀, a, rfl⟩
  · have hend : (dummy lib).base + (dummy lib).size = b.base := hl.tiles.1.symm
    obtain ⟨-, hbit⟩ := hread _ (dummy_mem lib _) hend
    exact .inl ⟨hbit, fun a ha => by cases ha⟩
  · have hend : a.base + a.size = b.base := by
      have htiles := hl.tiles
      rw [List.concat_eq_append, List.append_assoc] at htiles
      exact (tiles_append_cons.1 htiles).2.1.symm
    rw [List.concat_eq_append] at hread ⊢
    obtain ⟨hprev, hbit⟩ := hread a (mem_allBlocks (by simp)) hend
    cases halloc : a.alloc with
    | true =>
        rw [halloc] at hbit
        refine .inl ⟨hbit, fun a' ha' => ?_⟩
        rw [List.getLast?_concat] at ha'
        cases ha'
        exact halloc
    | false =>
        rw [halloc] at hbit
        exact .inr ⟨L₀, a, rfl, halloc, hend, hprev, hbit⟩

/-- The bit `coalesce` reads behind a block. -/
theorem next_cases (hl : Layout lib h.brk (L ++ b :: R)) (ht : Tags lib h (L ++ b :: R)) :
    (h.getAlloc (hdrp (h.nextBlkp b.base)) = 1 ∧ ∀ c ∈ R.head?, c.alloc = true) ∨
      ∃ c R', R = c :: R' ∧ c.alloc = false ∧ c.base = b.base + b.size ∧
        h.nextBlkp b.base = c.base ∧ h.getAlloc (hdrp (h.nextBlkp b.base)) = 0 := by
  have hnext : h.nextBlkp b.base = b.base + b.size := ht.nextBlkp hl (mem_allBlocks (by simp))
  have htiles := (tiles_append_cons.1 hl.tiles).2
  cases R with
  | nil =>
      have hend : b.base + b.size = h.brk := htiles
      refine .inl ⟨?_, fun c hc => by cases hc⟩
      rw [hnext, hend]
      exact ht.getAlloc_brk hl
  | cons c R' =>
      obtain ⟨hbase, -⟩ := htiles
      have hbit : h.getAlloc (hdrp (h.nextBlkp b.base)) = c.alloc.toNat := by
        rw [hnext, ← hbase]
        exact ht.getAlloc hl (mem_allBlocks (by simp))
      cases halloc : c.alloc with
      | true =>
          rw [halloc] at hbit
          refine .inl ⟨hbit, fun c' hc' => ?_⟩
          cases hc'
          exact halloc
      | false =>
          rw [halloc] at hbit
          exact .inr ⟨c, R', rfl, halloc, hbase, hnext.trans hbase.symm, hbit⟩

end Neighbours

/-! ### Coalescing -/

theorem allocated_append_cons_free {L R : List Block} {b : Block} (hb : b.alloc = false) :
    allocated (L ++ b :: R) = allocated (L ++ R) := by
  simp [allocated, hb]

/-- The blocks that are left when a listed one is taken off. -/
theorem mem_rest {l₁ l₂ : List ℕ} {p x : ℕ} (hnd : (l₁ ++ p :: l₂).Nodup) :
    x ∈ l₁ ++ l₂ ↔ x ∈ l₁ ++ p :: l₂ ∧ x ≠ p := by
  have hp : p ∉ l₁ ++ l₂ := (List.nodup_cons.1 (List.perm_middle.nodup_iff.1 hnd)).1
  constructor
  · intro hx
    refine ⟨?_, fun heq => hp (heq ▸ hx)⟩
    simp only [List.mem_append, List.mem_cons] at hx ⊢
    tauto
  · rintro ⟨hx, hne⟩
    simp only [List.mem_append, List.mem_cons] at hx ⊢
    tauto

/-- What `coalesce` leaves: a heap in order, in which the free block `b` is part of a free block,
and the blocks in use are as before. -/
def Coalesced (lib : Memlib) (h : Heap) (L : List Block) (b : Block) (R : List Block)
    (r : Heap × ℕ) : Prop :=
  ∃ L' m R' l', r.2 = m.base ∧ Good lib r.1 (L' ++ m :: R') l' ∧ m.alloc = false ∧
    m.base ≤ b.base ∧ b.base + b.size ≤ m.base + m.size ∧
    allocated (L' ++ R') = allocated (L ++ R) ∧
    Steady (Outside lib h.brk (allocated (L ++ R))) h r.1

/-- **What `coalesce` leaves, list included**: the block that `b` has become part of is put in front
of the list, and its other parts are taken off. -/
def Merges (lib : Memlib) (h : Heap) (L : List Block) (b : Block) (R : List Block) (l : List ℕ)
    (r : Heap × ℕ) : Prop :=
  ∃ L' m R', r.2 = m.base ∧ Good lib r.1 (L' ++ m :: R') (m.base :: unabsorbed l m) ∧
    m.alloc = false ∧ m.base ≤ b.base ∧ b.base + b.size ≤ m.base + m.size ∧
    allocated (L' ++ R') = allocated (L ++ R) ∧
    Steady (Outside lib h.brk (allocated (L ++ R))) h r.1

theorem Merges.coalesced {lib : Memlib} {h : Heap} {L R : List Block} {b : Block} {l : List ℕ}
    {r : Heap × ℕ} (hm : Merges lib h L b R l r) : Coalesced lib h L b R r := by
  obtain ⟨L', m, R', hm⟩ := hm
  exact ⟨L', m, R', _, hm⟩

/-- Blocks of a layout start at different addresses. -/
theorem Layout.base_ne {lib : Memlib} {brk : ℕ} {L R : List Block} {x d : Block}
    (hl : Layout lib brk (L ++ x :: R)) (hd : d ∈ L ++ R) : d.base ≠ x.base := by
  have hsize := (hl.sizes x (by simp)).2
  rcases List.mem_append.1 hd with hd | hd
  · have := hl.tiles.left hd
    have := (hl.sizes d (by simp [hd])).2
    omega
  · have := hl.tiles.right hd
    omega

section Settle

variable {lib : Memlib} {h : Heap} {L R : List Block} {m : Block} {l : List ℕ}

/-- A free block between blocks in use is put on the list. -/
theorem Rep.settle (hr : Rep lib h (L ++ m :: R) l) (hm : m.alloc = false) (hnew : m.base ∉ l)
    (hsync : ∀ c ∈ L ++ R, c.alloc = false ↔ c.base ∈ l) (hL : Merged L) (hR : Merged R)
    (hlast : ∀ a ∈ L.getLast?, a.alloc = true) (hhead : ∀ c ∈ R.head?, c.alloc = true) :
    Good lib (addToFreeList h m.base) (L ++ m :: R) (m.base :: l) ∧
      Steady (Outside lib h.brk (allocated (L ++ R))) h (addToFreeList h m.base) := by
  have hmem : m ∈ L ++ m :: R := by simp
  have hne : ∀ c ∈ L ++ R, c.base ≠ m.base := fun c hc => hr.layout.base_ne hc
  refine ⟨⟨hr.add hmem hnew, fun c hc => ?_, hL.insert hR hlast hhead⟩,
    hr.steady_add hmem hnew (fun c hc => ?_) fun c hc hin => ?_⟩
  · by_cases hcm : c = m
    · subst hcm
      simp [hm]
    · have hc' : c ∈ L ++ R := by
        simp only [List.mem_append, List.mem_cons] at hc ⊢
        tauto
      rw [hsync c hc', List.mem_cons, or_iff_right (hne c hc')]
  · exact mem_append_cons_of_mem (mem_allocated.1 hc).1
  · obtain ⟨hc', halloc⟩ := mem_allocated.1 hc
    rcases List.mem_cons.1 hin with heq | hin
    · exact hne c hc' heq
    · rw [(hsync c hc').2 hin] at halloc
      cases halloc

/-- Blocks that were taken off the list are made one, which is put on the list. -/
theorem Rep.join {bs : List Block} (hr : Rep lib h bs l) (hl : Layout lib h.brk (L ++ m :: R))
    (hmem : ∀ c ∈ L ++ R, c ∈ bs) (hm : m.alloc = false) (hnew : m.base ∉ l)
    (hlisted : ∀ p ∈ l, ∃ c ∈ L ++ R, c.base = p)
    (hsync : ∀ c ∈ L ++ R, c.alloc = false ↔ c.base ∈ l) (hL : Merged L) (hR : Merged R)
    (hlast : ∀ a ∈ L.getLast?, a.alloc = true) (hhead : ∀ c ∈ R.head?, c.alloc = true) :
    Good lib (addToFreeList (putTags h m.base m.size 0) m.base) (L ++ m :: R) (m.base :: l) ∧
      Steady (Outside lib h.brk (allocated (L ++ R))) h
        (addToFreeList (putTags h m.base m.size 0) m.base) := by
  have htag := hr.retag hl hmem fun p hp => by
    obtain ⟨c, hc, hcp⟩ := hlisted p hp
    exact ⟨c, mem_append_cons_of_mem hc, hcp⟩
  have hput := Rep.steady_putTags (h := h) hl fun c hc =>
    mem_append_cons_of_mem (mem_allocated.1 hc).1
  rw [hm] at htag hput
  obtain ⟨hgood, hsteady⟩ := htag.settle hm hnew hsync hL hR hlast hhead
  rw [brk_putTags] at hsteady
  exact ⟨hgood, hput.trans hsteady⟩

end Settle

/-- Listed blocks that are not part of a block stay on the list. -/
theorem Layout.unabsorbed_self {lib : Memlib} {brk : ℕ} {L R : List Block} {m : Block} {l : List ℕ}
    (hl : Layout lib brk (L ++ m :: R)) (hlisted : ∀ p ∈ l, ∃ d ∈ L ++ R, d.base = p) :
    unabsorbed l m = l := by
  refine List.filter_eq_self.2 fun p hp => decide_eq_true ?_
  obtain ⟨d, hd, rfl⟩ := hlisted p hp
  rcases List.mem_append.1 hd with hd | hd
  · have hle := hl.tiles.left hd
    have hpos := (hl.sizes d (by simp [hd])).2
    omega
  · exact .inr (hl.tiles.right hd)

/-- What is part of a block may be taken off before. -/
theorem unabsorbed_filter {l : List ℕ} {m : Block} {x : ℕ} (hlo : m.base ≤ x)
    (hhi : x < m.base + m.size) :
    unabsorbed (l.filter fun q => q ≠ x) m = unabsorbed l m := by
  rw [unabsorbed, unabsorbed, List.filter_filter]
  refine List.filter_congr fun q _ => ?_
  by_cases hq : q < m.base ∨ m.base + m.size ≤ q
  · have hne : q ≠ x := by omega
    simp [hq, hne]
  · simp [hq]

/-- **A free block in limbo**: `b` is marked free and not on the list, and all else is in order. -/
structure Limbo (lib : Memlib) (h : Heap) (L : List Block) (b : Block) (R : List Block)
    (l : List ℕ) : Prop where
  rep : Rep lib h (L ++ b :: R) l
  free : b.alloc = false
  new : b.base ∉ l
  sync : ∀ c ∈ L ++ R, c.alloc = false ↔ c.base ∈ l
  left : Merged L
  right : Merged R

/-- Two neighbours are made one. -/
theorem Layout.join {lib : Memlib} {brk : ℕ} {L R : List Block} {b c : Block}
    (hl : Layout lib brk (L ++ b :: c :: R)) (alloc : Bool) :
    Layout lib brk (L ++ ⟨b.base, b.size + c.size, alloc⟩ :: R) where
  brk_le := hl.brk_le
  tiles := by
    obtain ⟨p, n, x⟩ := b
    obtain ⟨q, m, y⟩ := c
    obtain rfl : q = p + n := (tiles_append_cons.1 hl.tiles).2.1
    exact tiles_join.2 hl.tiles
  sizes d hd := by
    rcases List.mem_append.1 hd with hd | hd
    · exact hl.sizes d (by simp [hd])
    · rcases List.mem_cons.1 hd with rfl | hd
      · have hb := hl.sizes b (by simp)
        have hc := hl.sizes c (by simp)
        show (b.size + c.size) % 8 = 0 ∧ 16 ≤ b.size + c.size
        omega
      · exact hl.sizes d (by simp [hd])

namespace Limbo

variable {lib : Memlib} {h : Heap} {L L₀ R R' : List Block} {a b c : Block} {l : List ℕ}

/-- The list has only other blocks. -/
theorem listed (hlim : Limbo lib h L b R l) : ∀ p ∈ l, ∃ c ∈ L ++ R, c.base = p := by
  intro p hp
  obtain ⟨c, hc, rfl⟩ := hlim.rep.listed p hp
  refine ⟨c, ?_, rfl⟩
  have hcb : c ≠ b := by
    rintro rfl
    exact hlim.new hp
  simp only [List.mem_append, List.mem_cons] at hc ⊢
  tauto

/-- Neither neighbour is free. -/
theorem coalesce_none (hlim : Limbo lib h L b R l) (hlast : ∀ a ∈ L.getLast?, a.alloc = true)
    (hhead : ∀ c ∈ R.head?, c.alloc = true) :
    Merges lib h L b R l (addToFreeList h b.base, b.base) := by
  obtain ⟨hgood, hsteady⟩ := hlim.rep.settle hlim.free hlim.new hlim.sync hlim.left hlim.right
    hlast hhead
  rw [← hlim.rep.layout.unabsorbed_self hlim.listed] at hgood
  exact ⟨L, b, R, rfl, hgood, hlim.free, Nat.le_refl _, Nat.le_refl _, rfl, hsteady⟩

end Limbo

/-- A listed block is taken off by filtering. -/
theorem filter_ne_of_nodup {l₁ l₂ : List ℕ} {p : ℕ} (hnd : (l₁ ++ p :: l₂).Nodup) :
    (l₁ ++ p :: l₂).filter (fun q => q ≠ p) = l₁ ++ l₂ := by
  have hp : p ∉ l₁ ++ l₂ := (List.nodup_cons.1 (List.perm_middle.nodup_iff.1 hnd)).1
  have hkeep : ∀ q ∈ l₁ ++ l₂, decide (q ≠ p) = true := fun q hq => by
    refine decide_eq_true ?_
    rintro rfl
    exact hp hq
  rw [List.filter_append, List.filter_cons_of_neg (by simp), ← List.filter_append]
  exact List.filter_eq_self.2 hkeep

/-- **A listed block is taken off**, and what is left of the list are the free ones of the rest. -/
theorem Rep.absorb {lib : Memlib} {h : Heap} {bs rest : List Block} {x : Block} {l : List ℕ}
    (hr : Rep lib h bs l) (hx : x.alloc = false)
    (hsync : ∀ d ∈ x :: rest, d.alloc = false ↔ d.base ∈ l)
    (hlisted : ∀ p ∈ l, ∃ d ∈ x :: rest, d.base = p) (hrest : ∀ d ∈ rest, d ∈ bs)
    (hne : ∀ d ∈ rest, d.base ≠ x.base) :
    ∃ l', l' = l.filter (fun q => q ≠ x.base) ∧
      Rep lib (removeFromFreeList h x.base) bs l' ∧ (∀ p ∈ l', p ∈ l ∧ p ≠ x.base) ∧
      (∀ d ∈ rest, d.alloc = false ↔ d.base ∈ l') ∧ (∀ p ∈ l', ∃ d ∈ rest, d.base = p) ∧
      Steady (Outside lib h.brk (allocated rest)) h (removeFromFreeList h x.base) := by
  obtain ⟨l₁, l₂, rfl⟩ := List.append_of_mem ((hsync x List.mem_cons_self).1 hx)
  have hnd : (l₁ ++ x.base :: l₂).Nodup := (List.nodup_cons.1 hr.links.nodup).2
  refine ⟨l₁ ++ l₂, (filter_ne_of_nodup hnd).symm, hr.remove, fun p hp => (mem_rest hnd).1 hp,
    fun d hd => ?_, fun p hp => ?_,
    hr.steady_remove (fun d hd => hrest d (mem_allocated.1 hd).1) fun d hd hdl => ?_⟩
  · rw [hsync d (List.mem_cons_of_mem _ hd), mem_rest hnd, and_iff_left (hne d hd)]
  · obtain ⟨hp, hpx⟩ := (mem_rest hnd).1 hp
    obtain ⟨d, hd, rfl⟩ := hlisted p hp
    rcases List.mem_cons.1 hd with rfl | hd
    · exact absurd rfl hpx
    · exact ⟨d, hd, rfl⟩
  · obtain ⟨hd, halloc⟩ := mem_allocated.1 hd
    rw [(hsync d (List.mem_cons_of_mem _ hd)).2 hdl] at halloc
    cases halloc

namespace Limbo

variable {lib : Memlib} {h : Heap} {L R : List Block} {a b c : Block} {l : List ℕ}

/-- A neighbour is taken off the list. -/
theorem absorb {x : Block} {rest : List Block} (hlim : Limbo lib h L b R l) (hx : x.alloc = false)
    (hperm : ∀ d, d ∈ L ++ R ↔ d ∈ x :: rest) (hne : ∀ d ∈ rest, d.base ≠ x.base) :
    ∃ l', l' = l.filter (fun q => q ≠ x.base) ∧
      Rep lib (removeFromFreeList h x.base) (L ++ b :: R) l' ∧ (∀ p ∈ l', p ∈ l ∧ p ≠ x.base) ∧
      (∀ d ∈ rest, d.alloc = false ↔ d.base ∈ l') ∧ (∀ p ∈ l', ∃ d ∈ rest, d.base = p) ∧
      Steady (Outside lib h.brk (allocated rest)) h (removeFromFreeList h x.base) := by
  refine hlim.rep.absorb hx (fun d hd => hlim.sync d ((hperm d).2 hd)) (fun p hp => ?_)
    (fun d hd => ?_) hne
  · obtain ⟨d, hd, hdp⟩ := hlim.listed p hp
    exact ⟨d, (hperm d).1 hd, hdp⟩
  · have hmem := (hperm d).2 (List.mem_cons_of_mem _ hd)
    simp only [List.mem_append, List.mem_cons] at hmem ⊢
    tauto

/-- The next block is free. -/
theorem coalesce_next (hlim : Limbo lib h L b (c :: R) l) (hc : c.alloc = false)
    (hlast : ∀ a ∈ L.getLast?, a.alloc = true) :
    Merges lib h L b (c :: R) l (addToFreeList
      (putTags (removeFromFreeList h c.base) b.base (b.size + c.size) 0) b.base, b.base) := by
  have hlay := hlim.rep.layout
  have hperm : ∀ d, d ∈ L ++ c :: R ↔ d ∈ c :: (L ++ R) := fun d => by
    simp only [List.mem_append, List.mem_cons]
    tauto
  have hne : ∀ d ∈ L ++ R, d.base ≠ c.base := by
    have hlay' : Layout lib h.brk ((L ++ [b]) ++ c :: R) := by simpa using hlay
    intro d hd
    refine hlay'.base_ne ?_
    simp only [List.mem_append, List.mem_cons] at hd ⊢
    tauto
  obtain ⟨l', hl', hrep, hsub, hsync, hlisted, hsteady⟩ := hlim.absorb hc hperm hne
  have hcb : b.base + b.size = c.base := (tiles_append_cons.1 hlay.tiles).2.1.symm
  have hcpos := (hlay.sizes c (by simp)).2
  have hjoin : Layout lib (removeFromFreeList h c.base).brk
      (L ++ ⟨b.base, b.size + c.size, false⟩ :: R) := by
    rw [brk_removeFromFreeList]
    exact hlay.join false
  obtain ⟨hgood, hsteady'⟩ := hrep.join hjoin (fun d hd => by
      simp only [List.mem_append, List.mem_cons] at hd ⊢
      tauto) rfl (fun hb => hlim.new (hsub _ hb).1) hlisted hsync hlim.left hlim.right.tail hlast
    (hlim.right.head_of_free hc)
  rw [brk_removeFromFreeList] at hsteady'
  have hused : allocated (L ++ c :: R) = allocated (L ++ R) := allocated_append_cons_free hc
  rw [← hjoin.unabsorbed_self hlisted, hl', unabsorbed_filter (by simp only; omega)
    (by simp only; omega)] at hgood
  refine ⟨L, ⟨b.base, b.size + c.size, false⟩, R, rfl, hgood, rfl, Nat.le_refl _,
    Nat.add_le_add_left (Nat.le_add_right _ _) _, hused.symm, ?_⟩
  rw [hused]
  exact hsteady.trans hsteady'

/-- The block in front is free. -/
theorem coalesce_prev (hlim : Limbo lib h (L ++ [a]) b R l) (ha : a.alloc = false)
    (hhead : ∀ c ∈ R.head?, c.alloc = true) :
    Merges lib h (L ++ [a]) b R l (addToFreeList
      (putTags (removeFromFreeList h a.base) a.base (a.size + b.size) 0) a.base, a.base) := by
  have hlist : L ++ [a] ++ b :: R = L ++ a :: b :: R := by simp
  have hlay := hlim.rep.layout
  rw [hlist] at hlay
  have hperm : ∀ d, d ∈ L ++ [a] ++ R ↔ d ∈ a :: (L ++ R) := fun d => by
    simp only [List.mem_append, List.mem_cons, List.not_mem_nil]
    tauto
  have hne : ∀ d ∈ L ++ R, d.base ≠ a.base := by
    intro d hd
    refine hlay.base_ne ?_
    simp only [List.mem_append, List.mem_cons] at hd ⊢
    tauto
  have hend : a.base + a.size = b.base := (tiles_append_cons.1 hlay.tiles).2.1.symm
  have hapos := (hlay.sizes a (by simp)).2
  obtain ⟨l', hl', hrep, hsub, hsync, hlisted, hsteady⟩ := hlim.absorb ha hperm hne
  rw [hlist] at hrep
  have hjoin : Layout lib (removeFromFreeList h a.base).brk
      (L ++ ⟨a.base, a.size + b.size, false⟩ :: R) := by
    rw [brk_removeFromFreeList]
    exact hlay.join false
  obtain ⟨hgood, hsteady'⟩ := hrep.join hjoin (fun d hd => by
      simp only [List.mem_append, List.mem_cons] at hd ⊢
      tauto) rfl (fun hin => (hsub _ hin).2 rfl) hlisted hsync hlim.left.left hlim.right
    (hlim.left.last_of_free ha) hhead
  rw [brk_removeFromFreeList] at hsteady'
  have hused : allocated (L ++ [a] ++ R) = allocated (L ++ R) := by
    rw [List.append_assoc]
    exact allocated_append_cons_free ha
  rw [← hjoin.unabsorbed_self hlisted, hl', unabsorbed_filter (x := a.base) (by simp)
    (by simp only; omega)] at hgood
  refine ⟨L, ⟨a.base, a.size + b.size, false⟩, R, rfl, hgood, rfl, ?_, ?_, hused.symm, ?_⟩
  · show a.base ≤ b.base
    omega
  · show b.base + b.size ≤ a.base + (a.size + b.size)
    omega
  · rw [hused]
    exact hsteady.trans hsteady'

/-- Both neighbours are free. -/
theorem coalesce_both (hlim : Limbo lib h (L ++ [a]) b (c :: R) l) (ha : a.alloc = false)
    (hc : c.alloc = false) :
    Merges lib h (L ++ [a]) b (c :: R) l (addToFreeList
      (putTags (removeFromFreeList (removeFromFreeList h a.base) c.base) a.base
        (a.size + (b.size + c.size)) 0) a.base, a.base) := by
  have hlist : L ++ [a] ++ b :: c :: R = L ++ a :: b :: c :: R := by simp
  have hlay := hlim.rep.layout
  rw [hlist] at hlay
  have hperm : ∀ d, d ∈ L ++ [a] ++ c :: R ↔ d ∈ a :: c :: (L ++ R) := fun d => by
    simp only [List.mem_append, List.mem_cons, List.not_mem_nil]
    tauto
  have hlay' : Layout lib h.brk ((L ++ [a, b]) ++ c :: R) := by simpa using hlay
  have hne : ∀ d ∈ c :: (L ++ R), d.base ≠ a.base := by
    intro d hd
    refine hlay.base_ne ?_
    simp only [List.mem_append, List.mem_cons] at hd ⊢
    tauto
  have hne' : ∀ d ∈ L ++ R, d.base ≠ c.base := by
    intro d hd
    refine hlay'.base_ne ?_
    simp only [List.mem_append, List.mem_cons] at hd ⊢
    tauto
  have hend : a.base + a.size = b.base := (tiles_append_cons.1 hlay.tiles).2.1.symm
  -- both neighbours are taken off the list
  have hlay'' : Layout lib h.brk ((L ++ [a]) ++ b :: c :: R) := by simpa using hlay
  have hcb : b.base + b.size = c.base := (tiles_append_cons.1 hlay''.tiles).2.1.symm
  have hapos := (hlay.sizes a (by simp)).2
  have hcpos := (hlay.sizes c (by simp)).2
  obtain ⟨l₁, hl₁, hrep₁, hsub₁, hsync₁, hlisted₁, hsteady₁⟩ := hlim.absorb ha hperm hne
  rw [hlist] at hrep₁
  obtain ⟨l₂, hl₂, hrep₂, hsub₂, hsync₂, hlisted₂, hsteady₂⟩ := hrep₁.absorb hc hsync₁ hlisted₁
    (fun d hd => by
      simp only [List.mem_append, List.mem_cons] at hd ⊢
      tauto) hne'
  -- the three blocks are made one, from the base of the first
  have hjoin : Layout lib (removeFromFreeList (removeFromFreeList h a.base) c.base).brk
      (L ++ ⟨a.base, a.size + (b.size + c.size), false⟩ :: R) := by
    rw [brk_removeFromFreeList, brk_removeFromFreeList]
    have hbc : Layout lib h.brk (L ++ a :: ⟨b.base, b.size + c.size, false⟩ :: R) := by
      simpa using hlay''.join false
    exact hbc.join false
  obtain ⟨hgood, hsteady₃⟩ := hrep₂.join hjoin (fun d hd => by
      simp only [List.mem_append, List.mem_cons] at hd ⊢
      tauto) rfl (fun hin => (hsub₁ _ (hsub₂ _ hin).1).2 rfl) hlisted₂ hsync₂ hlim.left.left
    hlim.right.tail (hlim.left.last_of_free ha) (hlim.right.head_of_free hc)
  rw [brk_removeFromFreeList] at hsteady₂
  rw [brk_removeFromFreeList, brk_removeFromFreeList] at hsteady₃
  have hused₁ : allocated (c :: (L ++ R)) = allocated (L ++ R) := by simp [allocated, hc]
  have hused : allocated (L ++ [a] ++ c :: R) = allocated (L ++ R) := by
    rw [allocated_append_cons_free hc, List.append_assoc]
    exact allocated_append_cons_free ha
  rw [hused₁] at hsteady₁
  rw [← hjoin.unabsorbed_self hlisted₂, hl₂, unabsorbed_filter (by simp only; omega)
    (by simp only; omega), hl₁, unabsorbed_filter (x := a.base) (by simp)
    (by simp only; omega)] at hgood
  refine ⟨L, ⟨a.base, a.size + (b.size + c.size), false⟩, R, rfl, hgood, rfl, ?_, ?_,
    hused.symm, ?_⟩
  · show a.base ≤ b.base
    omega
  · show b.base + b.size ≤ a.base + (a.size + (b.size + c.size))
    omega
  · rw [hused]
    exact (hsteady₁.trans hsteady₂).trans hsteady₃

end Limbo

section Branches

variable {h : Heap} {bp : ℕ} (hbp : bp ≠ 0)
include hbp

theorem coalesce_eq_none (hprev : h.getAlloc (h.ftrp (h.prevBlkp bp)) ≠ 0)
    (hnext : h.getAlloc (hdrp (h.nextBlkp bp)) ≠ 0) :
    coalesce h bp = (addToFreeList h bp, bp) := by
  unfold coalesce
  rw [if_neg hbp]
  exact if_pos ⟨hprev, hnext⟩

theorem coalesce_eq_next (hprev : h.getAlloc (h.ftrp (h.prevBlkp bp)) ≠ 0)
    (hnext : h.getAlloc (hdrp (h.nextBlkp bp)) = 0) :
    coalesce h bp = (addToFreeList (putTags (removeFromFreeList h (h.nextBlkp bp)) bp
      (addw (h.getSize (hdrp bp)) (h.getSize (hdrp (h.nextBlkp bp)))) 0) bp, bp) := by
  unfold coalesce
  rw [if_neg hbp]
  exact (if_neg fun hand => hand.2 hnext).trans (if_pos ⟨hprev, hnext⟩)

theorem coalesce_eq_prev (hprev : h.getAlloc (h.ftrp (h.prevBlkp bp)) = 0)
    (hnext : h.getAlloc (hdrp (h.nextBlkp bp)) ≠ 0) :
    coalesce h bp = (addToFreeList (putTags (removeFromFreeList h (h.prevBlkp bp)) (h.prevBlkp bp)
      (addw (h.getSize (hdrp bp)) (h.getSize (hdrp (h.prevBlkp bp)))) 0) (h.prevBlkp bp),
      h.prevBlkp bp) := by
  unfold coalesce
  rw [if_neg hbp]
  exact (if_neg fun hand => hand.1 hprev).trans
    ((if_neg fun hand => hand.1 hprev).trans (if_pos ⟨hprev, hnext⟩))

theorem coalesce_eq_both (hprev : h.getAlloc (h.ftrp (h.prevBlkp bp)) = 0)
    (hnext : h.getAlloc (hdrp (h.nextBlkp bp)) = 0) {h₁ h₂ : Heap}
    (h₁_eq : h₁ = removeFromFreeList h (h.prevBlkp bp))
    (h₂_eq : h₂ = removeFromFreeList h₁ (h₁.nextBlkp bp)) :
    coalesce h bp = (addToFreeList (putTags h₂ (h₂.prevBlkp bp)
      (addw (h.getSize (hdrp bp)) (addw (h.getSize (hdrp (h.prevBlkp bp)))
        (h.getSize (hdrp (h.nextBlkp bp))))) 0) (h₂.prevBlkp bp), h₂.prevBlkp bp) := by
  subst h₂_eq h₁_eq
  unfold coalesce
  rw [if_neg hbp]
  exact (if_neg fun hand => hand.1 hprev).trans
    ((if_neg fun hand => hand.1 hprev).trans (if_neg fun hand => hand.2 hnext))

end Branches

/-- **`coalesce` brings the heap back in order**, and what it does to the list. -/
theorem coalesce_merges {lib : Memlib} {h : Heap} {L R : List Block} {b : Block} {l : List ℕ}
    (hlim : Limbo lib h L b R l) : Merges lib h L b R l (coalesce h b.base) := by
  have hlay := hlim.rep.layout
  have htags := hlim.rep.tags
  have hball : b ∈ allBlocks lib (L ++ b :: R) := mem_allBlocks (by simp)
  have hbounds := hlay.bounds hball
  have hbase : b.base ≠ 0 := by omega
  have hsize := htags.getSize hlay hball
  rcases prev_cases hlay htags with ⟨hprev, hlast⟩ | ⟨L₀, a, rfl, ha, hend, hprev, hprev'⟩ <;>
    rcases next_cases hlay htags with ⟨hnext, hhead⟩ | ⟨c, R', rfl, hc, hcb, hnext, hnext'⟩
  · rw [coalesce_eq_none hbase (by rw [hprev]; decide) (by rw [hnext]; decide)]
    exact hlim.coalesce_none hlast hhead
  · have hcall : c ∈ allBlocks lib (L ++ b :: c :: R') := mem_allBlocks (by simp)
    have hcbounds := hlay.bounds hcall
    rw [coalesce_eq_next hbase (by rw [hprev]; decide) hnext', hnext, hsize,
      htags.getSize hlay hcall, addw_eq (by omega)]
    exact hlim.coalesce_next hc hlast
  · have haall : a ∈ allBlocks lib (L₀ ++ [a] ++ b :: R) := mem_allBlocks (by simp)
    have habounds := hlay.bounds haall
    rw [coalesce_eq_prev hbase hprev' (by rw [hnext]; decide), hprev, hsize,
      htags.getSize hlay haall, addw_eq (by omega), Nat.add_comm b.size]
    exact hlim.coalesce_prev ha hhead
  · have haall : a ∈ allBlocks lib (L₀ ++ [a] ++ b :: c :: R') := mem_allBlocks (by simp)
    have hcall : c ∈ allBlocks lib (L₀ ++ [a] ++ b :: c :: R') := mem_allBlocks (by simp)
    have habounds := hlay.bounds haall
    have hcbounds := hlay.bounds hcall
    -- the two neighbours are where they were after a block was taken off the list
    obtain ⟨l₁, l₂, rfl⟩ := List.append_of_mem ((hlim.sync a (by simp)).1 ha)
    have hrep₁ := hlim.rep.remove
    have hnext₁ : (removeFromFreeList h a.base).nextBlkp b.base = c.base :=
      (hrep₁.tags.nextBlkp hrep₁.layout hball).trans hcb.symm
    have hca : c.base ≠ a.base := by omega
    have hnd : (l₁ ++ a.base :: l₂).Nodup := (List.nodup_cons.1 hlim.rep.links.nodup).2
    have hcl : c.base ∈ l₁ ++ l₂ := (mem_rest hnd).2 ⟨(hlim.sync c (by simp)).1 hc, hca⟩
    obtain ⟨l₃, l₄, hl⟩ := List.append_of_mem hcl
    rw [hl] at hrep₁
    have hrep₂ := hrep₁.remove
    have hprev₂ : (removeFromFreeList (removeFromFreeList h a.base) c.base).prevBlkp b.base =
        a.base := by
      rw [← hend]
      exact hrep₂.tags.prevBlkp hrep₂.layout haall
    rw [coalesce_eq_both hbase hprev' hnext' rfl rfl, hprev, hnext₁, hprev₂, hnext, hsize,
      htags.getSize hlay haall, htags.getSize hlay hcall,
      addw_eq (show a.size + c.size < 4294967296 by omega), addw_eq (by omega), Nat.add_left_comm]
    exact hlim.coalesce_both ha hc

/-- **`coalesce` brings the heap back in order.** -/
theorem coalesce_spec {lib : Memlib} {h : Heap} {L R : List Block} {b : Block} {l : List ℕ}
    (hlim : Limbo lib h L b R l) : Coalesced lib h L b R (coalesce h b.base) :=
  (coalesce_merges hlim).coalesced

end Malloc
