/-
**First-fit allocation with immediate coalescing.**

An allocator on an interval that grows at its end, without a memory: the blocks that tile the
interval, and the list of the free ones in the order in which they are searched.  A request is
served from the first block on the list that is long enough, and what is left of it becomes a free
block.  A block that becomes free is joined with its free neighbours at once and goes to the front
of the list.

Main definitions:

* `FirstFit.join` — free neighbours are joined;
* `FirstFit.Pool` with `Pool.settle`, `Pool.release`, `Pool.place`, `Pool.fit`, `Pool.extend`,
  `Pool.alloc` — the state of the allocator and its operations.

Main results:

* `FirstFit.join_merged`, `FirstFit.allocated_join`, `FirstFit.join_tiles` — what joining keeps;
* `FirstFit.join_eq` — joining leads to the one tiling with the same blocks in use in which no two
  neighbours are free;
* `FirstFit.Pool.settle_eq` — a block becomes free, in terms of the block it becomes part of.
-/

import CsappLab.Tiling

set_option relaxedAutoImplicit false
set_option autoImplicit false

namespace FirstFit

open Tiling

/-! ### Joining neighbours -/

/-- Neighbours that are both free are joined. -/
def join : List Block → List Block
  | [] => []
  | b :: bs =>
      match join bs with
      | [] => [b]
      | c :: cs =>
          if b.alloc = false ∧ c.alloc = false then ⟨b.base, b.size + c.size, false⟩ :: cs
          else b :: c :: cs

section Join

variable {b c : Block} {bs cs : List Block} {lo hi : ℕ}

theorem join_cons_nil (h : join bs = []) : join (b :: bs) = [b] := by
  rw [join, h]

theorem join_cons_free (h : join bs = c :: cs) (hb : b.alloc = false) (hc : c.alloc = false) :
    join (b :: bs) = ⟨b.base, b.size + c.size, false⟩ :: cs := by
  rw [join, h]
  exact if_pos ⟨hb, hc⟩

theorem join_cons_used (h : join bs = c :: cs) (hbc : b.alloc = true ∨ c.alloc = true) :
    join (b :: bs) = b :: c :: cs := by
  rw [join, h]
  refine if_neg ?_
  rintro ⟨hb, hc⟩
  rcases hbc with hbc | hbc
  · rw [hb] at hbc
    cases hbc
  · rw [hc] at hbc
    cases hbc

/-- Two blocks are both free, or one of them is in use. -/
theorem both_free_or (b c : Block) :
    (b.alloc = false ∧ c.alloc = false) ∨ (b.alloc = true ∨ c.alloc = true) := by
  cases b.alloc <;> cases c.alloc <;> simp

/-- **No two neighbours are free** once they are joined. -/
theorem join_merged (bs : List Block) : Merged (join bs) := by
  induction bs with
  | nil => exact List.isChain_nil
  | cons b bs ih =>
      cases hj : join bs with
      | nil =>
          rw [join_cons_nil hj]
          exact List.isChain_singleton b
      | cons c cs =>
          rw [hj] at ih
          rcases both_free_or b c with ⟨hb, hc⟩ | hbc
          · rw [join_cons_free hj hb hc]
            exact List.isChain_cons.2 ⟨fun d hd => .inr (ih.head_of_free hc d hd), ih.tail⟩
          · rw [join_cons_used hj hbc]
            refine List.isChain_cons.2 ⟨fun d hd => ?_, ih⟩
            obtain rfl : c = d := Option.some.inj hd
            exact hbc

theorem allocated_cons_used (hb : b.alloc = true) : allocated (b :: bs) = b :: allocated bs :=
  List.filter_cons_of_pos hb

theorem allocated_cons_free (hb : b.alloc = false) : allocated (b :: bs) = allocated bs :=
  List.filter_cons_of_neg (by simp [hb])

/-- **Joining keeps the blocks in use.** -/
theorem allocated_join (bs : List Block) : allocated (join bs) = allocated bs := by
  induction bs with
  | nil => rfl
  | cons b bs ih =>
      cases hj : join bs with
      | nil =>
          rw [hj] at ih
          rw [join_cons_nil hj]
          cases hb : b.alloc with
          | true => rw [allocated_cons_used hb, allocated_cons_used hb, ih]
          | false => rw [allocated_cons_free hb, allocated_cons_free hb, ih]
      | cons c cs =>
          rw [hj] at ih
          rcases both_free_or b c with ⟨hb, hc⟩ | hbc
          · rw [join_cons_free hj hb hc, allocated_cons_free rfl, allocated_cons_free hb, ← ih,
              allocated_cons_free hc]
          · rw [join_cons_used hj hbc]
            cases hb : b.alloc with
            | true => rw [allocated_cons_used hb, allocated_cons_used hb, ih]
            | false => rw [allocated_cons_free hb, allocated_cons_free hb, ih]

/-- **Joining keeps the interval.** -/
theorem join_tiles (h : Tiles lo hi bs) : Tiles lo hi (join bs) := by
  induction bs generalizing lo with
  | nil => exact h
  | cons b bs ih =>
      obtain ⟨rfl, hrest⟩ := h
      have hjoin := ih hrest
      cases hj : join bs with
      | nil =>
          rw [join_cons_nil hj]
          rw [hj] at hjoin
          exact ⟨rfl, hjoin⟩
      | cons c cs =>
          rw [hj] at hjoin
          rcases both_free_or b c with ⟨hb, hc⟩ | hbc
          · rw [join_cons_free hj hb hc]
            refine ⟨rfl, ?_⟩
            show Tiles (b.base + (b.size + c.size)) hi cs
            rw [← Nat.add_assoc]
            exact hjoin.2
          · rw [join_cons_used hj hbc]
            exact ⟨rfl, hjoin⟩

theorem join_pos (h : ∀ b ∈ bs, 0 < b.size) : ∀ b ∈ join bs, 0 < b.size := by
  induction bs with
  | nil => exact h
  | cons b bs ih =>
      have hb := h b List.mem_cons_self
      have hrest := ih fun c hc => h c (List.mem_cons_of_mem _ hc)
      cases hj : join bs with
      | nil =>
          rw [join_cons_nil hj]
          intro d hd
          rwa [List.mem_singleton.1 hd]
      | cons c cs =>
          rw [hj] at hrest
          have hc := hrest c List.mem_cons_self
          rcases both_free_or b c with ⟨hbf, hcf⟩ | hbc
          · rw [join_cons_free hj hbf hcf]
            intro d hd
            rcases List.mem_cons.1 hd with rfl | hd
            · show 0 < b.size + c.size
              omega
            · exact hrest d (List.mem_cons_of_mem _ hd)
          · rw [join_cons_used hj hbc]
            intro d hd
            rcases List.mem_cons.1 hd with rfl | hd
            · exact hb
            · exact hrest d hd

/-- **The result of joining** is the only tiling with the same blocks in use in which no two
neighbours are free. -/
theorem join_eq (hbs : Tiles lo hi bs) (hcs : Tiles lo hi cs) (hbpos : ∀ x ∈ bs, 0 < x.size)
    (hcpos : ∀ x ∈ cs, 0 < x.size) (hc : Merged cs) (hused : allocated cs = allocated bs) :
    join bs = cs :=
  Merged.unique (join_tiles hbs) hcs (join_pos hbpos) hcpos (join_merged bs) hc fun x => by
    rw [allocated_join, hused]

end Join

/-! ### The allocator -/

/-- **The state**: where the interval ends, how often it was asked to grow, the blocks, and the
starts of the free ones in the order of the search. -/
structure Pool where
  brk : ℕ
  asked : ℕ
  blocks : List Block
  free : List ℕ
  deriving DecidableEq, Repr

/-- The block that an address lies in. -/
def blockAt (bs : List Block) (p : ℕ) : Option Block :=
  bs.find? fun b => b.base ≤ p ∧ p < b.base + b.size

/-- The block that starts at an address. -/
def blockOf (bs : List Block) (p : ℕ) : Option Block := bs.find? fun b => b.base = p

/-- Those of a list that do not lie in a block. -/
def unabsorbed (l : List ℕ) (m : Block) : List ℕ :=
  l.filter fun q => q < m.base ∨ m.base + m.size ≤ q

/-- One block is replaced by others. -/
def subst (bs : List Block) (p : ℕ) (f : Block → List Block) : List Block :=
  bs.flatMap fun b => if b.base = p then f b else [b]

namespace Pool

/-- A block that was marked free is joined with its free neighbours, which leave the list, and goes
to the front of it. -/
def settle (s : Pool) (p : ℕ) : Pool :=
  let bs := join s.blocks
  match blockAt bs p with
  | none => s
  | some m => { s with blocks := bs, free := m.base :: unabsorbed s.free m }

/-- The block at `p` becomes free. -/
def release (s : Pool) (p : ℕ) : Pool :=
  settle { s with blocks := subst s.blocks p fun b => [⟨b.base, b.size, false⟩] } p

/-- The free block at `p` is used for `n` bytes; the rest of it becomes a free block when it is at
least `least` bytes long. -/
def place (least : ℕ) (s : Pool) (p n : ℕ) : Pool :=
  let free := s.free.filter fun q => q ≠ p
  match blockOf s.blocks p with
  | none => s
  | some b =>
      if n + least ≤ b.size then
        settle
          { s with
            blocks := subst s.blocks p fun b => [⟨b.base, n, true⟩, ⟨b.base + n, b.size - n, false⟩]
            free := free }
          (p + n)
      else { s with blocks := subst s.blocks p fun b => [⟨b.base, b.size, true⟩], free := free }

/-- The first block on the list that is long enough. -/
def fit (s : Pool) (n : ℕ) : Option ℕ :=
  s.free.find? fun p => (blockOf s.blocks p).any fun b => n ≤ b.size

/-- The interval grows by a free block. -/
def extend (s : Pool) (n : ℕ) : Pool :=
  settle
    { brk := s.brk + n, asked := s.asked + 1, blocks := s.blocks ++ [⟨s.brk, n, false⟩],
      free := s.free }
    s.brk

/-- **A request for `n` bytes**: the state afterwards and the start of the block.  When no free
block is long enough, the interval grows by at least `chunk` bytes, if that is granted. -/
def alloc (least chunk : ℕ) (grants : Pool → ℕ → Bool) (s : Pool) (n : ℕ) : Pool × Option ℕ :=
  match s.fit n with
  | some p => (s.place least p n, some p)
  | none =>
      if grants s (max n chunk) then
        let s := s.extend (max n chunk)
        match s.free.head? with
        | some p => (s.place least p n, some p)
        | none => (s, none)
      else ({ s with asked := s.asked + 1 }, none)

end Pool

/-! ### Looking blocks up -/

section Blocks

variable {L R : List Block} {b m : Block} {lo hi p : ℕ} {f : Block → List Block}

/-- The block that an address lies in, in a tiling. -/
theorem blockAt_eq (ht : Tiles lo hi (L ++ m :: R)) (hlo : m.base ≤ p) (hhi : p < m.base + m.size) :
    blockAt (L ++ m :: R) p = some m := by
  rw [blockAt, List.find?_append, List.find?_cons_of_pos (by simp [hlo, hhi])]
  have hleft : (L.find? fun b => b.base ≤ p ∧ p < b.base + b.size) = none := by
    refine List.find?_eq_none.2 fun d hd => ?_
    have := ht.left hd
    rw [decide_eq_true_eq]
    omega
  rw [hleft]
  rfl

/-- The block that starts at an address, when no other does. -/
theorem blockOf_eq (hne : ∀ d ∈ L, d.base ≠ b.base) :
    blockOf (L ++ b :: R) b.base = some b := by
  have hleft : (L.find? fun d => d.base = b.base) = none :=
    List.find?_eq_none.2 fun d hd => by simpa using hne d hd
  rw [blockOf, List.find?_append, hleft, List.find?_cons_of_pos (by simp)]
  rfl

theorem subst_of_ne (hne : ∀ d ∈ L, d.base ≠ p) : subst L p f = L := by
  induction L with
  | nil => rfl
  | cons d L ih =>
      rw [subst, List.flatMap_cons, if_neg (hne d List.mem_cons_self)]
      exact congrArg (d :: ·) (ih fun e he => hne e (List.mem_cons_of_mem _ he))

/-- Replacing a block, when no other starts at its address. -/
theorem subst_eq (hne : ∀ d ∈ L ++ R, d.base ≠ b.base) :
    subst (L ++ b :: R) b.base f = L ++ (f b ++ R) := by
  have hleft := subst_of_ne (f := f) fun d hd => hne d (List.mem_append_left R hd)
  have hright := subst_of_ne (f := f) fun d hd => hne d (List.mem_append_right L hd)
  rw [subst] at hleft hright ⊢
  rw [List.flatMap_append, List.flatMap_cons, hleft, hright, if_pos rfl]

/-- **A block becomes free**: `m` is what it becomes part of. -/
theorem Pool.settle_eq {s : Pool} (hs : Tiles lo hi s.blocks) (hpos : ∀ x ∈ s.blocks, 0 < x.size)
    (ht : Tiles lo hi (L ++ m :: R)) (htpos : ∀ x ∈ L ++ m :: R, 0 < x.size)
    (hmerged : Merged (L ++ m :: R)) (hused : allocated (L ++ m :: R) = allocated s.blocks)
    (hlo : m.base ≤ p) (hhi : p < m.base + m.size) :
    s.settle p = { s with blocks := L ++ m :: R, free := m.base :: unabsorbed s.free m } := by
  rw [Pool.settle, join_eq hs ht hpos htpos hmerged hused]
  simp only [blockAt_eq ht hlo hhi]

end Blocks

/-! ### The number of requests for memory -/

namespace Pool

/-- The same blocks and the same list, with another number of requests for memory. -/
def recount (s : Pool) (n : ℕ) : Pool := { s with asked := n }

section Recount

variable {least chunk n p k : ℕ} {grants : Pool → ℕ → Bool} {s : Pool}

theorem settle_recount (s : Pool) (n p : ℕ) : (s.recount n).settle p = (s.settle p).recount n := by
  simp only [settle, recount]
  split <;> rfl

theorem settle_brk (s : Pool) (p : ℕ) : (s.settle p).brk = s.brk := by
  simp only [settle]
  split <;> rfl

theorem release_recount (s : Pool) (n p : ℕ) :
    (s.recount n).release p = (s.release p).recount n :=
  settle_recount { s with blocks := subst s.blocks p fun b => [⟨b.base, b.size, false⟩] } n p

theorem place_recount (s : Pool) (n p k : ℕ) :
    (s.recount n).place least p k = (s.place least p k).recount n := by
  simp only [place, recount]
  split
  · rfl
  · split
    · exact settle_recount
        { s with
          blocks := subst s.blocks p fun b => [⟨b.base, k, true⟩, ⟨b.base + k, b.size - k, false⟩]
          free := s.free.filter fun q => q ≠ p }
        n (p + k)
    · rfl

theorem extend_recount (s : Pool) (n k : ℕ) :
    (s.recount n).extend k = (s.extend k).recount (n + 1) :=
  settle_recount
    { brk := s.brk + k, asked := s.asked + 1, blocks := s.blocks ++ [⟨s.brk, k, false⟩],
      free := s.free }
    (n + 1) s.brk

/-- **A request does not depend on how often memory was asked for**, unless it is granted by that
number. -/
theorem alloc_recount (hgrants : ∀ k, grants (s.recount n) k = grants s k) (k : ℕ) :
    ∃ m, (s.recount n).alloc least chunk grants k =
      ((s.alloc least chunk grants k).1.recount m, (s.alloc least chunk grants k).2) := by
  have hfit : (s.recount n).fit k = s.fit k := rfl
  unfold alloc
  rw [hfit]
  cases s.fit k with
  | some p => exact ⟨n, by simp only [place_recount]⟩
  | none =>
      simp only [hgrants, extend_recount]
      have hfree : ((s.extend (max k chunk)).recount (n + 1)).free =
          (s.extend (max k chunk)).free := rfl
      split
      · rw [hfree]
        cases (s.extend (max k chunk)).free.head? with
        | some p => exact ⟨n + 1, by simp only [place_recount]⟩
        | none => exact ⟨n + 1, rfl⟩
      · exact ⟨n + 1, rfl⟩

end Recount

end Pool

end FirstFit
