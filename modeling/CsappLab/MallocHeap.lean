/-
**The heap at any time.**

Between two calls the heap is in order: its blocks tile it, the free ones are those on the free
list, and no two of them are neighbours.  Every operation leaves this state for a while.  What stays
true all the time is weaker: the blocks have their tags, and the list is a list of blocks.  Three
kinds of steps keep that: taking a block off the list, putting one on, and writing the tags of one.

Main definitions:

* `Malloc.Rep` — the blocks and the list of a heap, at any time;
* `Malloc.Good` — a heap in order;
* `Malloc.Steady` — what an operation does not touch.

Main results:

* `Malloc.Rep.remove`, `Malloc.Rep.add`, `Malloc.Rep.retag` — the three kinds of steps;
* `Malloc.Rep.steady_remove`, `Malloc.Rep.steady_add`, `Malloc.Rep.steady_putTags` — none of them
  writes to a block in use.
-/

import CsappLab.MallocList

set_option relaxedAutoImplicit false
set_option autoImplicit false

namespace Malloc

open ByteMem Tiling Linked

/-! ### The heap at any time -/

/-- **The heap at any time**: blocks with their tags, and a list of some of them. -/
structure Rep (lib : Memlib) (h : Heap) (bs : List Block) (l : List ℕ) : Prop where
  layout : Layout lib h.brk bs
  heapListp : h.heapListp = lib.start + 8
  dummyBlockp : h.dummyBlockp = lib.start + 16
  tags : Tags lib h bs
  links : Links h l
  listed : ∀ p ∈ l, ∃ b ∈ bs, b.base = p

/-- **A heap in order.** -/
structure Good (lib : Memlib) (h : Heap) (bs : List Block) (l : List ℕ) : Prop where
  rep : Rep lib h bs l
  sync : ∀ b ∈ bs, b.alloc = false ↔ b.base ∈ l
  merged : Merged bs

/-- What an operation does not touch: the break stays, and so does all memory outside of a set. -/
structure Steady (P : ℕ → Prop) (h h' : Heap) : Prop where
  brk : h'.brk = h.brk
  sbrks : h'.sbrks = h.sbrks
  wrote : Wrote P h.ram h'.ram

theorem Steady.trans {P : ℕ → Prop} {h₁ h₂ h₃ : Heap} (h₁₂ : Steady P h₁ h₂)
    (h₂₃ : Steady P h₂ h₃) : Steady P h₁ h₃ where
  brk := h₂₃.brk.trans h₁₂.brk
  sbrks := h₂₃.sbrks.trans h₁₂.sbrks
  wrote := h₁₂.wrote.trans h₂₃.wrote

theorem mem_allBlocks {lib : Memlib} {bs : List Block} {b : Block} (hb : b ∈ bs) :
    b ∈ allBlocks lib bs :=
  List.mem_cons_of_mem _ (List.mem_cons_of_mem _ hb)

theorem dummy_mem (lib : Memlib) (bs : List Block) : dummy lib ∈ allBlocks lib bs :=
  List.mem_cons_of_mem _ List.mem_cons_self

/-- A block, or the dummy block, can be a node of the list. -/
theorem Layout.node {lib : Memlib} {brk : ℕ} {bs : List Block} {b : Block}
    (hl : Layout lib brk bs) (hb : b ∈ bs) : Node b.base := by
  have := hl.bounds (mem_allBlocks hb)
  exact ⟨by omega, by omega⟩

/-- The link words of listed blocks are no tags. -/
theorem Layout.notTag_of_listed {lib : Memlib} {h : Heap} {brk : ℕ} {bs : List Block} {l : List ℕ}
    {q : ℕ} (hl : Layout lib brk bs) (hdummy : h.dummyBlockp = lib.start + 16)
    (hlisted : ∀ p ∈ l, ∃ b ∈ bs, b.base = p) (hq : ¬ NotLink h l q) : NotTag lib brk bs q := by
  simp only [NotLink, not_forall, not_and_or, not_not] at hq
  obtain ⟨p, hp, hpq⟩ := hq
  have hnode : ∃ c ∈ allBlocks lib bs, c.base = p ∧ 16 ≤ c.size := by
    rcases List.mem_cons.1 hp with rfl | hp
    · exact ⟨dummy lib, dummy_mem lib _, hdummy.symm, Nat.le_refl 16⟩
    · obtain ⟨c, hc, hcp⟩ := hlisted p hp
      exact ⟨c, mem_allBlocks hc, hcp, (hl.sizes c hc).2⟩
  obtain ⟨c, hc, rfl, hsize⟩ := hnode
  obtain ⟨h₁, h₂⟩ := hl.notTag_link hc hsize
  rcases hpq with rfl | rfl
  · exact h₁
  · exact h₂

/-- Writing tags leaves the list alone. -/
theorem Links.putTags {lib : Memlib} {h : Heap} {brk : ℕ} {bs : List Block} {b : Block}
    {l : List ℕ} (hlinks : Links h l) (hl : Layout lib brk bs)
    (hdummy : h.dummyBlockp = lib.start + 16) (hlisted : ∀ p ∈ l, ∃ b ∈ bs, b.base = p)
    (hb : b ∈ allBlocks lib bs) : Links (putTags h b.base b.size b.alloc.toNat) l :=
  hlinks.congr (dummyBlockp_putTags ..) fun _ hq hlink =>
    hl.get_putTags_of_notTag hb hq (hl.notTag_of_listed hdummy hlisted hlink)

theorem mem_append_cons_of_mem {b c : Block} {L R : List Block} (hc : c ∈ L ++ R) :
    c ∈ L ++ b :: R := by
  simp only [List.mem_append, List.mem_cons] at hc ⊢
  exact hc.imp_right .inr

namespace Rep

variable {lib : Memlib} {h : Heap} {bs : List Block} {b : Block} {l l₁ l₂ : List ℕ} {p q : ℕ}

/-- The nodes of the list are blocks with room for the links. -/
theorem node_block (hr : Rep lib h bs l) (hp : p ∈ h.dummyBlockp :: l) :
    ∃ b ∈ allBlocks lib bs, b.base = p ∧ 16 ≤ b.size ∧ (b ∈ bs ∨ b = dummy lib) := by
  rcases List.mem_cons.1 hp with rfl | hp
  · exact ⟨dummy lib, dummy_mem lib bs, hr.dummyBlockp.symm, Nat.le_refl 16, .inr rfl⟩
  · obtain ⟨b, hb, hbp⟩ := hr.listed p hp
    exact ⟨b, mem_allBlocks hb, hbp, (hr.layout.sizes b hb).2, .inl hb⟩

/-- A word is not both a tag and a link word. -/
theorem notTag_of_link (hr : Rep lib h bs l) (hq : ¬ NotLink h l q) : NotTag lib h.brk bs q :=
  hr.layout.notTag_of_listed hr.dummyBlockp hr.listed hq

theorem notLink_of_tag (hr : Rep lib h bs l) (hq : ¬ NotTag lib h.brk bs q) : NotLink h l q := by
  by_contra hlink
  exact hq (hr.notTag_of_link hlink)

/-- What is listed is still a block when one block is replaced by another with the same base. -/
theorem listed_replace {L R : List Block} {c : Block} (hr : Rep lib h (L ++ b :: R) l)
    (hbase : c.base = b.base) : ∀ p ∈ l, ∃ d ∈ L ++ c :: R, d.base = p := by
  intro p hp
  obtain ⟨d, hd, rfl⟩ := hr.listed p hp
  simp only [List.mem_append, List.mem_cons] at hd
  rcases hd with hd | rfl | hd
  · exact ⟨d, by simp [hd], rfl⟩
  · exact ⟨c, by simp, hbase⟩
  · exact ⟨d, by simp [hd], rfl⟩

/-- Link words lie outside of blocks in use that are not on the list. -/
theorem outside_link (hr : Rep lib h bs l) {used : List Block} (hused : ∀ c ∈ used, c ∈ bs)
    (hfree : ∀ c ∈ used, c.base ∉ l) (hp : p ∈ h.dummyBlockp :: l) {a : ℕ}
    (ha : p ≤ a) (ha' : a < p + 8) : Outside lib h.brk used a := by
  obtain ⟨b, hb, rfl, hsize, hmem⟩ := hr.node_block hp
  have hbounds := hr.layout.bounds hb
  refine hr.layout.outside_body hused hb (fun hin => ?_) (by omega)
  rcases List.mem_cons.1 hp with hd | hp
  · -- the dummy block lies in front of all others
    have hlo := (hr.layout.tiles.mem_bounds (hused b hin)).1
    rw [hr.dummyBlockp] at hd
    omega
  · exact hfree b hin hp

/-- **Taking a block off the list.** -/
theorem remove (hr : Rep lib h bs (l₁ ++ p :: l₂)) :
    Rep lib (removeFromFreeList h p) bs (l₁ ++ l₂) where
  layout := by
    rw [brk_removeFromFreeList]
    exact hr.layout
  heapListp := by
    rw [heapListp_removeFromFreeList]
    exact hr.heapListp
  dummyBlockp := by
    rw [dummyBlockp_removeFromFreeList]
    exact hr.dummyBlockp
  tags := hr.tags.congr hr.layout brk_removeFromFreeList fun q hq htag =>
    get_removeFromFreeList hr.links hq (hr.notLink_of_tag htag)
  links := hr.links.remove
  listed q hq := hr.listed q (by
    simp only [List.mem_append, List.mem_cons] at hq ⊢
    tauto)

/-- **Putting a block on the list.** -/
theorem add (hr : Rep lib h bs l) (hb : b ∈ bs) (hnew : b.base ∉ l) :
    Rep lib (addToFreeList h b.base) bs (b.base :: l) where
  layout := by
    rw [brk_addToFreeList]
    exact hr.layout
  heapListp := by
    rw [heapListp_addToFreeList]
    exact hr.heapListp
  dummyBlockp := by
    rw [dummyBlockp_addToFreeList]
    exact hr.dummyBlockp
  tags := by
    refine hr.tags.congr hr.layout brk_addToFreeList fun q hq htag => ?_
    refine get_addToFreeList hr.links (hr.layout.node hb) hq fun p hp => ?_
    have hlinks := hr.notLink_of_tag htag
    simp only [List.mem_cons] at hp
    rcases hp with rfl | rfl | hp
    · exact hlinks _ List.mem_cons_self
    · obtain ⟨h₁, h₂⟩ := hr.layout.notTag_link (mem_allBlocks hb) (hr.layout.sizes b hb).2
      constructor
      · rintro rfl
        exact htag h₁
      · rintro rfl
        exact htag h₂
    · exact hlinks p (List.mem_cons_of_mem _ hp)
  links := by
    refine hr.links.add (hr.layout.node hb) fun hmem => ?_
    rcases List.mem_cons.1 hmem with hd | hmem
    · have hlo := (hr.layout.tiles.mem_bounds hb).1
      rw [hr.dummyBlockp] at hd
      omega
    · exact hnew hmem
  listed q hq := by
    rcases List.mem_cons.1 hq with rfl | hq
    · exact ⟨b, hb, rfl⟩
    · exact hr.listed q hq

/-- **Writing the tags of one block**, which may replace several that are not on the list. -/
theorem retag {L R : List Block} (hr : Rep lib h bs l) (hl : Layout lib h.brk (L ++ b :: R))
    (hmem : ∀ c ∈ L ++ R, c ∈ bs) (hlisted : ∀ p ∈ l, ∃ c ∈ L ++ b :: R, c.base = p) :
    Rep lib (putTags h b.base b.size b.alloc.toNat) (L ++ b :: R) l := by
  have htags : Tags lib (putTags h b.base b.size b.alloc.toNat) (L ++ b :: R) := by
    refine Tags.mark hl (fun c hc => hr.tags.tagged c ?_) hr.tags.epilogue
    simp only [allBlocks, List.mem_cons] at hc ⊢
    exact hc.imp_right (Or.imp_right (hmem c))
  constructor
  · rw [brk_putTags]
    exact hl
  · rw [heapListp_putTags]
    exact hr.heapListp
  · rw [dummyBlockp_putTags]
    exact hr.dummyBlockp
  · exact htags
  · exact hr.links.putTags hl hr.dummyBlockp hlisted (mem_allBlocks (by simp))
  · exact hlisted

/-- The two stores of `retag` lie outside of the blocks in use. -/
theorem steady_putTags {L R used : List Block} (hl : Layout lib h.brk (L ++ b :: R))
    (hused : ∀ c ∈ used, c ∈ L ++ b :: R) :
    Steady (Outside lib h.brk used) h (putTags h b.base b.size b.alloc.toNat) := by
  have hb : b ∈ allBlocks lib (L ++ b :: R) := mem_allBlocks (by simp)
  have hbounds := hl.bounds hb
  refine ⟨brk_putTags .., sbrks_putTags .., ?_⟩
  exact wrote_putTags (by omega) (by omega) (by omega) (by omega) (by omega) fun a ha =>
    hl.outside_tags hused hb ha

theorem steady_remove {used : List Block} (hr : Rep lib h bs (l₁ ++ p :: l₂))
    (hused : ∀ c ∈ used, c ∈ bs) (hfree : ∀ c ∈ used, c.base ∉ l₁ ++ p :: l₂) :
    Steady (Outside lib h.brk used) h (removeFromFreeList h p) :=
  ⟨brk_removeFromFreeList, sbrks_removeFromFreeList,
    wrote_removeFromFreeList hr.links fun _ hx _ ha ha' => hr.outside_link hused hfree hx ha ha'⟩

theorem steady_add {used : List Block} (hr : Rep lib h bs l) (hb : b ∈ bs) (hnew : b.base ∉ l)
    (hused : ∀ c ∈ used, c ∈ bs) (hfree : ∀ c ∈ used, c.base ∉ b.base :: l) :
    Steady (Outside lib h.brk used) h (addToFreeList h b.base) := by
  refine ⟨brk_addToFreeList, sbrks_addToFreeList,
    wrote_addToFreeList hr.links (hr.layout.node hb) fun x hx a ha ha' => ?_⟩
  have := (hr.add hb hnew).outside_link hused hfree (p := x) (a := a)
  rw [brk_addToFreeList, dummyBlockp_addToFreeList] at this
  exact this hx ha ha'

end Rep

end Malloc
