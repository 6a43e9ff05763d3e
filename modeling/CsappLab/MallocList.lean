/-
**The free list in memory.**

Free blocks are linked through the first two words of their payload, so that the list lives in the
same bytes as everything else.  The two functions that change it are the two edits of a circular
list; what they write are link words, and nothing but link words.

Main definitions:

* `Malloc.Links` — the blocks on the list, with the link words that make them one.

Main results:

* `Malloc.Links.remove`, `Malloc.Links.add` — **taking a block off the list and putting one on**;
* `Malloc.get_removeFromFreeList`, `Malloc.get_addToFreeList` — all other words stay;
* `Malloc.wrote_removeFromFreeList`, `Malloc.wrote_addToFreeList` — where they write.
-/

import CsappLab.LinkedRing
import CsappLab.MallocTags

set_option relaxedAutoImplicit false
set_option autoImplicit false

namespace Malloc

open ByteMem Linked

/-! ### Link words -/

/-- An address a free block, or the dummy block, can have. -/
def Node (p : ℕ) : Prop := p % 8 = 0 ∧ p + 8 < 4294967296

theorem Node.addw {p : ℕ} (hp : Node p) : addw p 4 = p + 4 := addw_eq (by have := hp.2; omega)

theorem Node.lt {p : ℕ} (hp : Node p) : p < 4294967296 := by
  have := hp.2
  omega

section Set

variable {h : Heap} {p q v : ℕ}

theorem getSucc_eq (hp : Node p) : h.getSucc p = h.get (p + 4) := congrArg h.get hp.addw

theorem setSucc_eq (hp : Node p) : h.setSucc p v = h.put (p + 4) v :=
  congrArg (h.put · v) hp.addw

theorem getSucc_setSucc (hp : Node p) (hq : Node q) (hv : v < 4294967296) :
    (h.setSucc p v).getSucc q = if q = p then v else h.getSucc q := by
  have hp8 := hp.1
  have hq8 := hq.1
  rw [setSucc_eq hp, getSucc_eq hq, getSucc_eq hq, get_put h (by omega) (by omega) hv]
  simp

theorem getPred_setSucc (hp : Node p) (hq : Node q) : (h.setSucc p v).getPred q = h.getPred q := by
  have hp8 := hp.1
  have hq8 := hq.1
  rw [setSucc_eq hp]
  exact get_put_of_ne h (by omega) (by omega) (by omega)

theorem getPred_setPred (hp : Node p) (hq : Node q) (hv : v < 4294967296) :
    (h.setPred p v).getPred q = if q = p then v else h.getPred q := by
  have hp8 := hp.1
  have hq8 := hq.1
  exact get_put h (by omega) (by omega) hv

theorem getSucc_setPred (hp : Node p) (hq : Node q) : (h.setPred p v).getSucc q = h.getSucc q := by
  have hp8 := hp.1
  have hq8 := hq.1
  rw [getSucc_eq hq, getSucc_eq hq]
  exact get_put_of_ne h (by omega) (by omega) (by omega)

/-- A word that is not a link word of the node. -/
theorem get_setSucc (hp : Node p) (hq : q % 4 = 0) (hne : q ≠ p + 4) :
    (h.setSucc p v).get q = h.get q := by
  have hp8 := hp.1
  rw [setSucc_eq hp]
  exact get_put_of_ne h (by omega) hq hne

theorem get_setPred (hp : Node p) (hq : q % 4 = 0) (hne : q ≠ p) :
    (h.setPred p v).get q = h.get q := by
  have hp8 := hp.1
  exact get_put_of_ne h (by omega) hq hne

theorem wrote_setSucc {P : ℕ → Prop} (hp : Node p) (hP : ∀ a, p ≤ a → a < p + 8 → P a) :
    Wrote P h.ram (h.setSucc p v).ram := by
  rw [setSucc_eq hp]
  exact Wrote.setWord fun a ha ha' => hP a (by omega) (by omega)

theorem wrote_setPred {P : ℕ → Prop} (hP : ∀ a, p ≤ a → a < p + 8 → P a) :
    Wrote P h.ram (h.setPred p v).ram :=
  Wrote.setWord fun a ha ha' => hP a (by omega) (by omega)

@[simp] theorem dummyBlockp_setSucc : (h.setSucc p v).dummyBlockp = h.dummyBlockp :=
  dummyBlockp_put ..

@[simp] theorem dummyBlockp_setPred : (h.setPred p v).dummyBlockp = h.dummyBlockp :=
  dummyBlockp_put ..

end Set

/-! ### The list -/

/-- **The free list** `l`: its blocks and the dummy block form a ring through their link words. -/
structure Links (h : Heap) (l : List ℕ) : Prop where
  ring : Ring h.getSucc h.getPred h.dummyBlockp l
  nodup : (h.dummyBlockp :: l).Nodup
  node : ∀ p ∈ h.dummyBlockp :: l, Node p

/-- A word that is no link word of the list. -/
def NotLink (h : Heap) (l : List ℕ) (q : ℕ) : Prop := ∀ p ∈ h.dummyBlockp :: l, q ≠ p ∧ q ≠ p + 4

/-- The list only depends on its link words. -/
theorem Links.congr {h h' : Heap} {l : List ℕ} (hl : Links h l)
    (hdummy : h'.dummyBlockp = h.dummyBlockp)
    (hget : ∀ q, q % 4 = 0 → ¬ NotLink h l q → h'.get q = h.get q) : Links h' l where
  ring := by
    rw [hdummy]
    refine hl.ring.congr (fun p hp => ?_) fun p hp => ?_
    · have hnode := hl.node p hp
      have hp8 := hnode.1
      rw [getSucc_eq hnode, getSucc_eq hnode]
      exact hget _ (by omega) fun hno => (hno p hp).2 rfl
    · obtain ⟨hp8, -⟩ := hl.node p hp
      exact hget _ (by omega) fun hno => (hno p hp).1 rfl
  nodup := hdummy ▸ hl.nodup
  node := hdummy ▸ hl.node

/-- The neighbours of a listed block are listed, or the dummy block. -/
theorem Links.neighbours {h : Heap} {l₁ l₂ : List ℕ} {p : ℕ} (hl : Links h (l₁ ++ p :: l₂)) :
    h.getPred p ∈ h.dummyBlockp :: (l₁ ++ l₂) ∧ h.getSucc p ∈ h.dummyBlockp :: (l₁ ++ l₂) := by
  constructor
  · rw [hl.ring.prev_node]
    have := lastOf_mem h.dummyBlockp l₁
    simp only [List.mem_cons, List.mem_append] at this ⊢
    tauto
  · rw [hl.ring.next_node]
    have := headOf_mem h.dummyBlockp l₂
    simp only [List.mem_cons, List.mem_append] at this ⊢
    tauto

theorem Links.mem_of_rest {h : Heap} {l₁ l₂ : List ℕ} {p q : ℕ}
    (hq : q ∈ h.dummyBlockp :: (l₁ ++ l₂)) : q ∈ h.dummyBlockp :: (l₁ ++ p :: l₂) := by
  simp only [List.mem_cons, List.mem_append] at hq ⊢
  tauto

/-! ### Taking a block off -/

theorem removeFromFreeList_eq (h : Heap) (p : ℕ) : removeFromFreeList h p =
    (h.setSucc (h.getPred p) (h.getSucc p)).setPred (h.getSucc p) (h.getPred p) := rfl

section Remove

variable {h : Heap} {l₁ l₂ : List ℕ} {p : ℕ}

@[simp] theorem dummyBlockp_removeFromFreeList :
    (removeFromFreeList h p).dummyBlockp = h.dummyBlockp := by
  rw [removeFromFreeList_eq, dummyBlockp_setPred, dummyBlockp_setSucc]

@[simp] theorem brk_removeFromFreeList : (removeFromFreeList h p).brk = h.brk :=
  (brk_put ..).trans (brk_put ..)

@[simp] theorem sbrks_removeFromFreeList : (removeFromFreeList h p).sbrks = h.sbrks :=
  (sbrks_put ..).trans (sbrks_put ..)

@[simp] theorem heapListp_removeFromFreeList :
    (removeFromFreeList h p).heapListp = h.heapListp :=
  (heapListp_put ..).trans (heapListp_put ..)

/-- **Taking a block off the list.** -/
theorem Links.remove (hl : Links h (l₁ ++ p :: l₂)) :
    Links (removeFromFreeList h p) (l₁ ++ l₂) := by
  obtain ⟨hprev, hnext⟩ := hl.neighbours
  have hnode : ∀ q ∈ h.dummyBlockp :: (l₁ ++ l₂), Node q := fun q hq =>
    hl.node q (Links.mem_of_rest hq)
  have hpn := hnode _ hprev
  have hnn := hnode _ hnext
  have hnd : (h.dummyBlockp :: (l₁ ++ l₂)).Nodup :=
    (List.nodup_cons.1 ((perm_node h.dummyBlockp p l₁ l₂).nodup_iff.1 hl.nodup)).2
  have hsucc : ∀ q, Node q → (removeFromFreeList h p).getSucc q =
      if q = h.getPred p then h.getSucc p else h.getSucc q := by
    intro q hq
    rw [removeFromFreeList_eq, getSucc_setPred hnn hq, getSucc_setSucc hpn hq hnn.lt]
  have hpred : ∀ q, Node q → (removeFromFreeList h p).getPred q =
      if q = h.getSucc p then h.getPred p else h.getPred q := by
    intro q hq
    rw [removeFromFreeList_eq, getPred_setPred hnn hq hpn.lt, getPred_setSucc hpn hq]
  constructor
  · rw [dummyBlockp_removeFromFreeList]
    refine hl.ring.unlink hnd ?_ ?_ (fun q hq hne => ?_) fun q hq hne => ?_
    · rw [hsucc _ hpn, if_pos rfl]
    · rw [hpred _ hnn, if_pos rfl]
    · rw [hsucc _ (hnode q hq), if_neg hne]
    · rw [hpred _ (hnode q hq), if_neg hne]
  · rw [dummyBlockp_removeFromFreeList]
    exact hnd
  · rw [dummyBlockp_removeFromFreeList]
    exact hnode

/-- What is no link word of the list stays. -/
theorem get_removeFromFreeList (hl : Links h (l₁ ++ p :: l₂)) {q : ℕ} (hq : q % 4 = 0)
    (hno : NotLink h (l₁ ++ p :: l₂) q) : (removeFromFreeList h p).get q = h.get q := by
  obtain ⟨hprev, hnext⟩ := hl.neighbours
  have hprev' := Links.mem_of_rest (p := p) hprev
  have hnext' := Links.mem_of_rest (p := p) hnext
  rw [removeFromFreeList_eq, get_setPred (hl.node _ hnext') hq (hno _ hnext').1,
    get_setSucc (hl.node _ hprev') hq (hno _ hprev').2]

theorem wrote_removeFromFreeList {P : ℕ → Prop} (hl : Links h (l₁ ++ p :: l₂))
    (hP : ∀ x ∈ h.dummyBlockp :: (l₁ ++ p :: l₂), ∀ a, x ≤ a → a < x + 8 → P a) :
    Wrote P h.ram (removeFromFreeList h p).ram := by
  obtain ⟨hprev, hnext⟩ := hl.neighbours
  have hprev' := Links.mem_of_rest (p := p) hprev
  have hnext' := Links.mem_of_rest (p := p) hnext
  rw [removeFromFreeList_eq]
  exact (wrote_setSucc (hl.node _ hprev') (hP _ hprev')).trans (wrote_setPred (hP _ hnext'))

end Remove

/-! ### Putting a block on -/

theorem addToFreeList_eq (h : Heap) (p : ℕ) : addToFreeList h p =
    (((h.setSucc p (h.getSucc h.dummyBlockp)).setPred (h.getSucc h.dummyBlockp) p).setPred p
      h.dummyBlockp).setSucc h.dummyBlockp p := by
  simp only [addToFreeList, dummyBlockp_setSucc, dummyBlockp_setPred]

section Add

variable {h : Heap} {l : List ℕ} {p : ℕ}

@[simp] theorem dummyBlockp_addToFreeList : (addToFreeList h p).dummyBlockp = h.dummyBlockp := by
  rw [addToFreeList_eq, dummyBlockp_setSucc, dummyBlockp_setPred, dummyBlockp_setPred,
    dummyBlockp_setSucc]

@[simp] theorem brk_addToFreeList : (addToFreeList h p).brk = h.brk := by
  rw [addToFreeList_eq]
  exact (brk_put ..).trans ((brk_put ..).trans ((brk_put ..).trans (brk_put ..)))

@[simp] theorem sbrks_addToFreeList : (addToFreeList h p).sbrks = h.sbrks := by
  rw [addToFreeList_eq]
  exact (sbrks_put ..).trans ((sbrks_put ..).trans ((sbrks_put ..).trans (sbrks_put ..)))

@[simp] theorem heapListp_addToFreeList : (addToFreeList h p).heapListp = h.heapListp := by
  rw [addToFreeList_eq]
  exact (heapListp_put ..).trans
    ((heapListp_put ..).trans ((heapListp_put ..).trans (heapListp_put ..)))

/-- **Putting a block on the list.** -/
theorem Links.add (hl : Links h l) (hp : Node p) (hnew : p ∉ h.dummyBlockp :: l) :
    Links (addToFreeList h p) (p :: l) := by
  have hd : Node h.dummyBlockp := hl.node _ List.mem_cons_self
  have hnext : h.getSucc h.dummyBlockp ∈ h.dummyBlockp :: l := by
    rw [hl.ring.next_dummy]
    exact headOf_mem _ _
  have hn : Node (h.getSucc h.dummyBlockp) := hl.node _ hnext
  have hpd : p ≠ h.dummyBlockp := fun heq => hnew (heq ▸ List.mem_cons_self)
  have hpn : p ≠ h.getSucc h.dummyBlockp := fun heq => hnew (heq ▸ hnext)
  have hsucc : ∀ q, Node q → (addToFreeList h p).getSucc q =
      if q = h.dummyBlockp then p else if q = p then h.getSucc h.dummyBlockp else h.getSucc q := by
    intro q hq
    rw [addToFreeList_eq, getSucc_setSucc hd hq hp.lt, getSucc_setPred hp hq, getSucc_setPred hn hq,
      getSucc_setSucc hp hq hn.lt]
  have hpred : ∀ q, Node q → (addToFreeList h p).getPred q =
      if q = p then h.dummyBlockp else if q = h.getSucc h.dummyBlockp then p else h.getPred q := by
    intro q hq
    rw [addToFreeList_eq, getPred_setSucc hd hq, getPred_setPred hp hq hd.lt,
      getPred_setPred hn hq hp.lt, getPred_setSucc hp hq]
  constructor
  · rw [dummyBlockp_addToFreeList]
    refine hl.ring.insertFront hl.nodup ?_ ?_ ?_ ?_ (fun q hq => ?_) fun q hq hne => ?_
    · rw [hsucc _ hd, if_pos rfl]
    · rw [hsucc _ hp, if_neg hpd, if_pos rfl]
    · rw [hpred _ hp, if_pos rfl]
    · rw [hpred _ hn, if_neg (Ne.symm hpn), if_pos rfl]
    · have hqd : q ≠ h.dummyBlockp := fun heq => (List.nodup_cons.1 hl.nodup).1 (heq ▸ hq)
      have hqp : q ≠ p := fun heq => hnew (heq ▸ List.mem_cons_of_mem _ hq)
      rw [hsucc _ (hl.node q (List.mem_cons_of_mem _ hq)), if_neg hqd, if_neg hqp]
    · have hqp : q ≠ p := fun heq => hnew (heq ▸ hq)
      rw [hpred _ (hl.node q hq), if_neg hqp, if_neg hne]
  · rw [dummyBlockp_addToFreeList]
    have hnew' : h.dummyBlockp ∉ p :: l := by
      intro hmem
      rcases List.mem_cons.1 hmem with heq | hmem
      · exact hpd heq.symm
      · exact (List.nodup_cons.1 hl.nodup).1 hmem
    exact List.nodup_cons.2 ⟨hnew', List.nodup_cons.2
      ⟨fun hmem => hnew (List.mem_cons_of_mem _ hmem), (List.nodup_cons.1 hl.nodup).2⟩⟩
  · rw [dummyBlockp_addToFreeList]
    intro q hq
    simp only [List.mem_cons] at hq
    rcases hq with rfl | rfl | hq
    · exact hd
    · exact hp
    · exact hl.node q (List.mem_cons_of_mem _ hq)

/-- What is no link word of the list afterwards stays. -/
theorem get_addToFreeList (hl : Links h l) (hp : Node p) {q : ℕ} (hq : q % 4 = 0)
    (hno : NotLink h (p :: l) q) : (addToFreeList h p).get q = h.get q := by
  have hd : Node h.dummyBlockp := hl.node _ List.mem_cons_self
  have hnext : h.getSucc h.dummyBlockp ∈ h.dummyBlockp :: l := by
    rw [hl.ring.next_dummy]
    exact headOf_mem _ _
  have hnext' : h.getSucc h.dummyBlockp ∈ h.dummyBlockp :: p :: l := by
    simp only [List.mem_cons] at hnext ⊢
    tauto
  have hp' : p ∈ h.dummyBlockp :: p :: l := List.mem_cons_of_mem _ List.mem_cons_self
  rw [addToFreeList_eq, get_setSucc hd hq (hno _ List.mem_cons_self).2,
    get_setPred hp hq (hno p hp').1, get_setPred (hl.node _ hnext) hq (hno _ hnext').1,
    get_setSucc hp hq (hno p hp').2]

theorem wrote_addToFreeList {P : ℕ → Prop} (hl : Links h l) (hp : Node p)
    (hP : ∀ x ∈ h.dummyBlockp :: p :: l, ∀ a, x ≤ a → a < x + 8 → P a) :
    Wrote P h.ram (addToFreeList h p).ram := by
  have hd : Node h.dummyBlockp := hl.node _ List.mem_cons_self
  have hnext : h.getSucc h.dummyBlockp ∈ h.dummyBlockp :: p :: l := by
    have : h.getSucc h.dummyBlockp ∈ h.dummyBlockp :: l := by
      rw [hl.ring.next_dummy]
      exact headOf_mem _ _
    simp only [List.mem_cons] at this ⊢
    tauto
  have hp' : p ∈ h.dummyBlockp :: p :: l := List.mem_cons_of_mem _ List.mem_cons_self
  rw [addToFreeList_eq]
  exact (wrote_setSucc hp (hP p hp')).trans ((wrote_setPred (hP _ hnext)).trans
    ((wrote_setPred (hP p hp')).trans (wrote_setSucc hd (hP _ List.mem_cons_self))))

end Add

end Malloc
