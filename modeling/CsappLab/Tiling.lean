/-
**Tilings of an interval by blocks.**

A block is an interval with a mark, allocated or free.  A list of blocks tiles an interval when each
block starts where the one before it ends.  This module has what any allocator with contiguous
blocks needs: where the blocks of a tiling lie, that they do not overlap, that they cover the
interval, and that cutting a block in two or joining two neighbours gives a tiling again.

Main definitions:

* `Tiling.Block`, `Tiling.Tiles` — blocks, and lists of them that tile an interval;
* `Tiling.Merged` — no two neighbouring blocks are free;
* `Tiling.allocated` — the blocks in use.

Main results:

* `Tiling.Tiles.apart`, `Tiling.Tiles.cover` — **blocks do not overlap and leave no gap**;
* `Tiling.tiles_join` — joining two neighbours, and cutting a block in two;
* `Tiling.Merged.insert` — a free block between blocks in use;
* `Tiling.Merged.unique` — **the canonical form**: a tiling without free neighbours is known from
  its blocks in use.
-/

import Mathlib.Data.List.Chain
import Mathlib.Data.List.Perm.Subperm
import Mathlib.Data.Nat.Notation
import Mathlib.Tactic.Common

set_option relaxedAutoImplicit false
set_option autoImplicit false

namespace Tiling

/-- A block: where it starts, how long it is, and whether it is in use. -/
structure Block where
  base : ℕ
  size : ℕ
  alloc : Bool
  deriving DecidableEq, Repr

/-- The blocks tile the interval from `lo` to `hi`. -/
def Tiles : ℕ → ℕ → List Block → Prop
  | lo, hi, [] => lo = hi
  | lo, hi, b :: bs => b.base = lo ∧ Tiles (lo + b.size) hi bs

/-- No two neighbouring blocks are free. -/
def Merged (bs : List Block) : Prop := bs.IsChain fun b c => b.alloc = true ∨ c.alloc = true

/-- The blocks in use. -/
def allocated (bs : List Block) : List Block := bs.filter fun b => b.alloc

variable {lo hi : ℕ} {b c : Block} {bs cs : List Block}

theorem mem_allocated : b ∈ allocated bs ↔ b ∈ bs ∧ b.alloc = true := List.mem_filter

theorem tiles_append :
    Tiles lo hi (bs ++ cs) ↔ ∃ mid, Tiles lo mid bs ∧ Tiles mid hi cs := by
  induction bs generalizing lo with
  | nil => simp [Tiles]
  | cons b bs ih =>
      simp only [List.cons_append, Tiles, ih]
      constructor
      · rintro ⟨hb, mid, h₁, h₂⟩
        exact ⟨mid, ⟨hb, h₁⟩, h₂⟩
      · rintro ⟨mid, ⟨hb, h₁⟩, h₂⟩
        exact ⟨hb, mid, h₁, h₂⟩

/-- A tiling cut around one of its blocks. -/
theorem tiles_append_cons :
    Tiles lo hi (bs ++ b :: cs) ↔ Tiles lo b.base bs ∧ Tiles (b.base + b.size) hi cs := by
  rw [tiles_append]
  constructor
  · rintro ⟨mid, h₁, rfl, h₂⟩
    exact ⟨h₁, h₂⟩
  · rintro ⟨h₁, h₂⟩
    exact ⟨b.base, h₁, rfl, h₂⟩

theorem Tiles.le (h : Tiles lo hi bs) : lo ≤ hi := by
  induction bs generalizing lo with
  | nil => exact Nat.le_of_eq h
  | cons b bs ih =>
      have := ih h.2
      omega

/-- A block lies inside the interval. -/
theorem Tiles.mem_bounds (h : Tiles lo hi bs) (hb : b ∈ bs) :
    lo ≤ b.base ∧ b.base + b.size ≤ hi := by
  obtain ⟨bs₁, bs₂, rfl⟩ := List.append_of_mem hb
  obtain ⟨h₁, h₂⟩ := tiles_append_cons.1 h
  exact ⟨h₁.le, h₂.le⟩

/-- The blocks before a block end before it starts. -/
theorem Tiles.left (h : Tiles lo hi (bs ++ b :: cs)) (hc : c ∈ bs) : c.base + c.size ≤ b.base :=
  ((tiles_append_cons.1 h).1.mem_bounds hc).2

/-- The blocks after a block start after it ends. -/
theorem Tiles.right (h : Tiles lo hi (bs ++ b :: cs)) (hc : c ∈ cs) : b.base + b.size ≤ c.base :=
  ((tiles_append_cons.1 h).2.mem_bounds hc).1

/-- **Blocks do not overlap**: two blocks are the same, or one ends before the other starts. -/
theorem Tiles.apart (h : Tiles lo hi bs) (hb : b ∈ bs) (hc : c ∈ bs) :
    b = c ∨ b.base + b.size ≤ c.base ∨ c.base + c.size ≤ b.base := by
  obtain ⟨bs₁, bs₂, rfl⟩ := List.append_of_mem hb
  obtain ⟨h₁, h₂⟩ := tiles_append_cons.1 h
  rcases List.mem_append.1 hc with hc | hc
  · exact .inr (.inr (h₁.mem_bounds hc).2)
  · rcases List.mem_cons.1 hc with rfl | hc
    · exact .inl rfl
    · exact .inr (.inl (h₂.mem_bounds hc).1)

/-- No block is listed twice. -/
theorem Tiles.nodup (h : Tiles lo hi bs) (hpos : ∀ b ∈ bs, 0 < b.size) : bs.Nodup := by
  induction bs generalizing lo with
  | nil => exact List.nodup_nil
  | cons b bs ih =>
      refine List.nodup_cons.2 ⟨fun hb => ?_, ih h.2 fun c hc => hpos c (List.mem_cons_of_mem _ hc)⟩
      obtain ⟨hbase, hrest⟩ := h
      have hlo := (hrest.mem_bounds hb).1
      have := hpos b List.mem_cons_self
      omega

/-- There are no more blocks than bytes. -/
theorem Tiles.length_le (h : Tiles lo hi bs) (hpos : ∀ b ∈ bs, 0 < b.size) :
    lo + bs.length ≤ hi := by
  induction bs generalizing lo with
  | nil => exact Nat.le_of_eq h
  | cons b bs ih =>
      have hrest := ih h.2 fun c hc => hpos c (List.mem_cons_of_mem _ hc)
      have hb := hpos b List.mem_cons_self
      simp only [List.length_cons]
      omega

/-- Nor are there more places where blocks start. -/
theorem Tiles.starts_length_le {l : List ℕ} (h : Tiles lo hi bs) (hpos : ∀ b ∈ bs, 0 < b.size)
    (hl : ∀ p ∈ l, ∃ b ∈ bs, b.base = p) (hnd : l.Nodup) : l.length ≤ hi := by
  have hsub : l ⊆ List.range hi := by
    intro p hp
    obtain ⟨b, hb, rfl⟩ := hl p hp
    have hhi := (h.mem_bounds hb).2
    have hsize := hpos b hb
    rw [List.mem_range]
    omega
  have hle := (List.subperm_of_subset hnd hsub).length_le
  rwa [List.length_range] at hle

/-- **Blocks leave no gap.** -/
theorem Tiles.cover (h : Tiles lo hi bs) {a : ℕ} (hlo : lo ≤ a) (hhi : a < hi) :
    ∃ b ∈ bs, b.base ≤ a ∧ a < b.base + b.size := by
  induction bs generalizing lo with
  | nil =>
      have : lo = hi := h
      omega
  | cons b bs ih =>
      obtain ⟨rfl, hrest⟩ := h
      rcases Nat.lt_or_ge a (b.base + b.size) with ha | ha
      · exact ⟨b, List.mem_cons_self, hlo, ha⟩
      · obtain ⟨c, hc, hin⟩ := ih hrest ha
        exact ⟨c, List.mem_cons_of_mem _ hc, hin⟩

/-- Block starts are aligned when the interval and the sizes are. -/
theorem Tiles.aligned (h : Tiles lo hi bs) {k : ℕ} (hlo : lo % k = 0)
    (hsize : ∀ b ∈ bs, b.size % k = 0) : hi % k = 0 ∧ ∀ b ∈ bs, b.base % k = 0 := by
  induction bs generalizing lo with
  | nil => exact ⟨h ▸ hlo, fun b hb => by cases hb⟩
  | cons b bs ih =>
      obtain ⟨rfl, hrest⟩ := h
      have hnext : (b.base + b.size) % k = 0 := by
        rw [Nat.add_mod, hlo, hsize b List.mem_cons_self]
        exact Nat.zero_mod k
      obtain ⟨hhi, hbs⟩ := ih hrest hnext fun c hc => hsize c (List.mem_cons_of_mem _ hc)
      refine ⟨hhi, fun c hc => ?_⟩
      rcases List.mem_cons.1 hc with rfl | hc
      · exact hlo
      · exact hbs c hc

/-- **Joining two neighbours**, and cutting a block in two. -/
theorem tiles_join {n m : ℕ} {x y z : Bool} {p : ℕ} :
    Tiles lo hi (bs ++ ⟨p, n + m, x⟩ :: cs) ↔
      Tiles lo hi (bs ++ ⟨p, n, y⟩ :: ⟨p + n, m, z⟩ :: cs) := by
  rw [tiles_append_cons, tiles_append_cons]
  simp only [Tiles, Nat.add_assoc, true_and]

/-- Marking a block. -/
theorem tiles_mark {x y : Bool} {p n : ℕ} :
    Tiles lo hi (bs ++ ⟨p, n, x⟩ :: cs) ↔ Tiles lo hi (bs ++ ⟨p, n, y⟩ :: cs) := by
  rw [tiles_append_cons, tiles_append_cons]

/-- The blocks in use, with one of them first. -/
theorem allocated_perm (hb : b.alloc = true) :
    (allocated (bs ++ b :: cs)).Perm (b :: allocated (bs ++ cs)) := by
  have hcons : allocated (b :: cs) = b :: allocated cs := by simp [allocated, hb]
  have happend : ∀ xs ys : List Block, allocated (xs ++ ys) = allocated xs ++ allocated ys :=
    fun xs ys => List.filter_append ..
  rw [happend, happend, hcons]
  exact List.perm_middle

/-- A free block between blocks in use. -/
theorem Merged.insert (hbs : Merged bs) (hcs : Merged cs)
    (hlast : ∀ a ∈ bs.getLast?, a.alloc = true)
    (hhead : ∀ c ∈ cs.head?, c.alloc = true) : Merged (bs ++ b :: cs) := by
  refine List.isChain_append.2 ⟨hbs, List.isChain_cons.2 ⟨fun c hc => .inr (hhead c hc), hcs⟩, ?_⟩
  intro a ha c _
  exact .inl (hlast a ha)

/-- A block in use between any blocks. -/
theorem Merged.insert_used (hbs : Merged bs) (hcs : Merged cs) (hb : b.alloc = true) :
    Merged (bs ++ b :: cs) := by
  refine List.isChain_append.2 ⟨hbs, List.isChain_cons.2 ⟨fun c _ => .inl hb, hcs⟩, ?_⟩
  rintro a - c hc
  cases hc
  exact .inr hb

theorem Merged.left (h : Merged (bs ++ cs)) : Merged bs := (List.isChain_append.1 h).1

theorem Merged.right (h : Merged (bs ++ cs)) : Merged cs := (List.isChain_append.1 h).2.1

theorem Merged.tail (h : Merged (b :: bs)) : Merged bs := (List.isChain_cons.1 h).2

/-- The neighbours of a free block are in use. -/
theorem Merged.head_of_free (h : Merged (b :: bs)) (hb : b.alloc = false) :
    ∀ c ∈ bs.head?, c.alloc = true := fun c hc =>
  ((List.isChain_cons.1 h).1 c hc).resolve_left (by simp [hb])

theorem Merged.last_of_free (h : Merged (bs ++ [b])) (hb : b.alloc = false) :
    ∀ a ∈ bs.getLast?, a.alloc = true := fun a ha =>
  ((List.isChain_append.1 h).2.2 a ha b rfl).resolve_right (by simp [hb])

/-! ### The canonical form -/

/-- The block behind the first one starts later. -/
theorem Tiles.base_ne (h : Tiles lo hi (b :: bs)) (hpos : 0 < b.size) (hc : c ∈ bs) : c ≠ b := by
  rintro rfl
  have := (h.2.mem_bounds hc).1
  have := h.1
  omega

/-- A block of a tiling that starts where the tiling does is its first one. -/
theorem Tiles.first (h : Tiles lo hi bs) (hpos : ∀ x ∈ bs, 0 < x.size) (hb : b ∈ bs)
    (hlo : b.base = lo) : ∃ cs, bs = b :: cs := by
  cases bs with
  | nil => cases hb
  | cons x bs =>
      rcases List.mem_cons.1 hb with rfl | hb
      · exact ⟨bs, rfl⟩
      · have := (h.2.mem_bounds hb).1
        have := hpos x List.mem_cons_self
        omega

/-- A free first block ends at a block in use or at the end, so that no first block of another
tiling with the same blocks in use goes beyond it. -/
theorem Merged.head_size_le (hbs : Tiles lo hi (b :: bs)) (hcs : Tiles lo hi (c :: cs))
    (hpos : 0 < b.size) (hm : Merged (b :: bs)) (hb : b.alloc = false)
    (hsub : ∀ x ∈ allocated (b :: bs), x ∈ c :: cs) : c.size ≤ b.size := by
  have hc := hcs.mem_bounds List.mem_cons_self
  have hcbase := hcs.1
  by_contra hlt
  cases bs with
  | nil =>
      have hend : lo + b.size = hi := hbs.2
      omega
  | cons d bs =>
      have hd : d.alloc = true := hm.head_of_free hb d rfl
      have hdbase : d.base = lo + b.size := hbs.2.1
      have hmem := hsub d (mem_allocated.2 ⟨by simp, hd⟩)
      rcases hcs.apart List.mem_cons_self hmem with rfl | hapart | hapart
      · omega
      · omega
      · omega

/-- **The canonical form**: two tilings of an interval in which no two neighbours are free are the
same when their blocks in use are. -/
theorem Merged.unique (hbs : Tiles lo hi bs) (hcs : Tiles lo hi cs) (hbpos : ∀ x ∈ bs, 0 < x.size)
    (hcpos : ∀ x ∈ cs, 0 < x.size) (hb : Merged bs) (hc : Merged cs)
    (hsame : ∀ x, x ∈ allocated bs ↔ x ∈ allocated cs) : bs = cs := by
  induction bs generalizing lo cs with
  | nil =>
      cases cs with
      | nil => rfl
      | cons c cs =>
          have := (hcs.mem_bounds List.mem_cons_self).2
          have := hcs.1
          have := hcpos c List.mem_cons_self
          have hend : lo = hi := hbs
          omega
  | cons b bs ih =>
      have hbpos₀ := hbpos b List.mem_cons_self
      have hle := (hbs.mem_bounds List.mem_cons_self).2
      have hbbase := hbs.1
      -- the other tiling starts with the same block
      obtain ⟨cs, rfl⟩ : ∃ cs', cs = b :: cs' := by
        cases hx : b.alloc with
        | true =>
            -- a block in use is in both tilings
            have hmem := (mem_allocated.1 ((hsame b).1 (mem_allocated.2 ⟨by simp, hx⟩))).1
            exact hcs.first hcpos hmem hbbase
        | false =>
            cases cs with
            | nil =>
                have hend : lo = hi := hcs
                omega
            | cons c cs =>
                have hcpos₀ := hcpos c List.mem_cons_self
                cases hy : c.alloc with
                | true =>
                    have hmem :=
                      (mem_allocated.1 ((hsame c).2 (mem_allocated.2 ⟨by simp, hy⟩))).1
                    obtain ⟨bs', hbs'⟩ := hbs.first hbpos hmem hcs.1
                    cases hbs'
                    exact ⟨cs, rfl⟩
                | false =>
                    -- two free blocks that start together: each ends where the next block in use
                    -- starts
                    have h₁ := Merged.head_size_le hbs hcs hbpos₀ hb hx fun x hx =>
                      (mem_allocated.1 ((hsame x).1 hx)).1
                    have h₂ := Merged.head_size_le hcs hbs hcpos₀ hc hy fun x hx =>
                      (mem_allocated.1 ((hsame x).2 hx)).1
                    have hbc : c = b := by
                      cases b
                      cases c
                      simp only [Block.mk.injEq] at hx hy h₁ h₂ hbbase ⊢
                      exact ⟨hcs.1.trans hbbase.symm, Nat.le_antisymm h₁ h₂, hy.trans hx.symm⟩
                    exact ⟨cs, by rw [hbc]⟩
      refine congrArg (b :: ·) (ih hbs.2 hcs.2 (fun x hx => hbpos x (List.mem_cons_of_mem _ hx))
        (fun x hx => hcpos x (List.mem_cons_of_mem _ hx)) hb.tail hc.tail fun x => ?_)
      have hmem := hsame x
      simp only [mem_allocated, List.mem_cons] at hmem ⊢
      constructor
      · rintro ⟨hx, halloc⟩
        exact ⟨(hmem.1 ⟨.inr hx, halloc⟩).1.resolve_left (hbs.base_ne hbpos₀ hx), halloc⟩
      · rintro ⟨hx, halloc⟩
        exact ⟨(hmem.2 ⟨.inr hx, halloc⟩).1.resolve_left (hcs.base_ne hbpos₀ hx), halloc⟩

/-- With no block in use there is but one block. -/
theorem Merged.single (hbs : Tiles lo hi bs) (hb : Merged bs) (hne : lo < hi)
    (hfree : allocated bs = []) : bs = [⟨lo, hi - lo, false⟩] := by
  have hall : ∀ x ∈ bs, x.alloc = false := fun x hx => by
    by_contra halloc
    have hmem := mem_allocated.2 ⟨hx, by simpa using halloc⟩
    rw [hfree] at hmem
    cases hmem
  cases bs with
  | nil =>
      have hend : lo = hi := hbs
      omega
  | cons b bs =>
      have hbfree := hall b List.mem_cons_self
      cases bs with
      | nil =>
          obtain ⟨hbase, hend⟩ := hbs
          have hend : lo + b.size = hi := hend
          cases b
          simp only [List.cons.injEq, Block.mk.injEq, and_true] at hbase hend hbfree ⊢
          exact ⟨hbase, by omega, hbfree⟩
      | cons c bs =>
          have hc := hb.head_of_free hbfree c rfl
          rw [hall c (by simp)] at hc
          cases hc

end Tiling
