/-
**The passes of the driver agree.**

The driver runs a trace more than once: `eval_mm_valid` checks the package, `eval_mm_util` measures
the heap, and `eval_mm_speed` is timed as often as `fcyc` asks for.  Every pass starts the heap
anew. Only the first fills the blocks, so that the memory is not the same; but an allocator that
decides by its blocks and its list only gives every pass the same pointers.  What was checked is
then what is measured and timed, and the calls of `app_error` in the later passes are never made.

Main definitions:

* `Mdriver.Served` — what a request does to the package in every pass;
* `Mdriver.Alike` — two passes are at the same point.

Main results:

* `Mdriver.Alike.step` — the same request leads to the same pointer;
* `Mdriver.passes_agree` — **a trace that was accepted runs through the other passes**, with the
  pointers and the heap of the check.
-/

import CsappLab.MallocFirstFit
import CsappLab.MdriverUtil

set_option relaxedAutoImplicit false
set_option autoImplicit false

namespace Mdriver

open ByteMem Tiling FirstFit
open Malloc hiding addRange

/-! ### What a request is in every pass -/

/-- The call that a request is. -/
def Traceop.call (blocks : ℕ → ℕ) : Traceop → Call
  | alloc _ size => .malloc size
  | realloc index size => .realloc (blocks index) size
  | free index => .free (blocks index)

/-- The array `blocks` when the call has returned `p`. -/
def Traceop.remember (blocks : ℕ → ℕ) (p : ℕ) : Traceop → ℕ → ℕ
  | alloc index _ => Function.update blocks index p
  | realloc index _ => Function.update blocks index p
  | free _ => blocks

/-- A null pointer is only returned for a request that asks for no block. -/
def Traceop.Answered (p : ℕ) : Traceop → Prop
  | alloc _ _ => p ≠ 0
  | realloc _ _ => p ≠ 0
  | free _ => p = 0

/-- **What a request does to the package** in every pass: the call returns, and not the null
pointer. -/
structure Served (lib : Memlib) (op : Traceop) (h : Heap) (blocks : ℕ → ℕ) (h' : Heap) (p : ℕ) :
    Prop where
  run : (op.call blocks).run lib h = some (h', p)
  answered : op.Answered p

section Served

variable {lib : Memlib} {op : Traceop} {t t' : Test Heap} {h : Heap} {p : ℕ}

/-- `eval_mm_speed` gets through a request. -/
theorem Served.speedOp (hs : Served lib op t.heap t.blocks h p) :
    speedOp (mm lib) t op = .ok { t with heap := h, blocks := op.remember t.blocks p } := by
  obtain ⟨hrun, hanswered⟩ := hs
  cases op with
  | alloc index size =>
      have hmalloc : (mm lib).mmMalloc t.heap size = some (h, p) := hrun
      simp only [Mdriver.speedOp, hmalloc]
      exact if_neg hanswered
  | realloc index size =>
      have hrealloc : (mm lib).mmRealloc t.heap (t.blocks index) size = some (h, p) := hrun
      simp only [Mdriver.speedOp, hrealloc]
      exact if_neg hanswered
  | free index =>
      obtain ⟨rfl, -⟩ := Prod.mk.inj (Option.some.inj hrun)
      rfl

/-- `eval_mm_util` gets through a request. -/
theorem Served.utilOp (hs : Served lib op t.heap t.blocks h p) (n : Totals) :
    ∃ t' n', utilOp (mm lib) t n op = .ok (t', n') ∧ t'.heap = h ∧
      t'.blocks = op.remember t.blocks p := by
  obtain ⟨hrun, hanswered⟩ := hs
  cases op with
  | alloc index size =>
      have hmalloc : (mm lib).mmMalloc t.heap size = some (h, p) := hrun
      simp only [Mdriver.utilOp, hmalloc, if_neg (show ¬ p = 0 from hanswered)]
      exact ⟨_, _, rfl, rfl, rfl⟩
  | realloc index size =>
      have hrealloc : (mm lib).mmRealloc t.heap (t.blocks index) size = some (h, p) := hrun
      simp only [Mdriver.utilOp, hrealloc, if_neg (show ¬ p = 0 from hanswered)]
      exact ⟨_, _, rfl, rfl, rfl⟩
  | free index =>
      obtain ⟨rfl, -⟩ := Prod.mk.inj (Option.some.inj hrun)
      exact ⟨_, _, rfl, rfl, rfl⟩

/-- What `eval_mm_valid` does with a block that it accepts. -/
theorem receive_ok {index size n : ℕ} (hok : receive (mm lib) t index size p n = .ok t') :
    t'.heap = memset t.heap p (filling index) size ∧
      t'.blocks = Function.update t.blocks index p := by
  unfold receive at hok
  split at hok
  · cases hok
  split at hok
  · obtain rfl := Except.ok.inj hok
    exact ⟨rfl, rfl⟩
  · cases hok

/-- **What `eval_mm_valid` has accepted**: the request was served, and then the block may have been
filled. -/
theorem served_of_validOp (hok : validOp (mm lib) t op = .ok t') :
    ∃ h p, Served lib op t.heap t.blocks h p ∧ t'.blocks = op.remember t.blocks p ∧
      (t'.heap = h ∨ p ≠ 0 ∧ ∃ v, t'.heap = memset h p v op.size) := by
  cases op with
  | alloc index size =>
      simp only [validOp] at hok
      split at hok
      · cases hok
      rename_i s p hrun
      split at hok
      · cases hok
      rename_i hnull
      obtain ⟨hheap, hblocks⟩ := receive_ok hok
      exact ⟨s, p, ⟨hrun, hnull⟩, hblocks, .inr ⟨hnull, _, hheap⟩⟩
  | realloc index size =>
      simp only [validOp] at hok
      split at hok
      · cases hok
      rename_i s p hrun
      split at hok
      · cases hok
      rename_i hnull
      obtain ⟨hheap, hblocks⟩ := receive_ok hok
      exact ⟨s, p, ⟨hrun, hnull⟩, hblocks, .inr ⟨hnull, _, hheap⟩⟩
  | free index =>
      obtain rfl := Except.ok.inj hok
      exact ⟨_, 0, ⟨rfl, rfl⟩, rfl, .inl rfl⟩

end Served

/-! ### Two passes at the same point -/

/-- The array `blocks` holds distinct pointers that the client has. -/
structure Pointers (blocks : ℕ → ℕ) (live : List (ℕ × ℕ)) (ids : List ℕ) : Prop where
  mem : ∀ i ∈ ids, blocks i ∈ live.map Prod.fst
  ne : ∀ i ∈ ids, ∀ j ∈ ids, i ≠ j → blocks i ≠ blocks j

/-- **Two passes are at the same point**: the heaps have the same blocks and the same list, and the
pointers are the same. -/
structure Alike (lib : Memlib) (h h' : Heap) (blocks blocks' : ℕ → ℕ) (live : List (ℕ × ℕ))
    (ids : List ℕ) : Prop where
  pool : ∃ s n, Refines lib h s ∧ Refines lib h' (s.recount n) ∧ Holds live (allocated s.blocks)
  same : ∀ i ∈ ids, blocks' i = blocks i
  pointers : Pointers blocks live ids

section Alike

variable {lib : Memlib} {op : Traceop} {t t' u : Test Heap} {h h' g : Heap} {blocks blocks' : ℕ → ℕ}
  {live : List (ℕ × ℕ)} {ids : List ℕ} {ops : List Traceop} {index p : ℕ}

theorem mem_drop {a : ℕ} (ha : a ∈ live.map Prod.fst) (hp : a ≠ p) :
    a ∈ (drop live p).map Prod.fst := by
  obtain ⟨q, hq, rfl⟩ := List.mem_map.1 ha
  exact List.mem_map.2 ⟨q, List.mem_filter.2 ⟨hq, decide_eq_true hp⟩, rfl⟩

/-- One more block is remembered. -/
theorem Pointers.update {kept : List (ℕ × ℕ)} {size : ℕ}
    (hne : ∀ i ∈ ids, ∀ j ∈ ids, i ≠ j → blocks i ≠ blocks j)
    (hmem : ∀ i ∈ ids, i ≠ index → blocks i ∈ kept.map Prod.fst)
    (hnodup : (((p, size) :: kept).map Prod.fst).Nodup) :
    Pointers (Function.update blocks index p) ((p, size) :: kept) (index :: ids) where
  mem i hi := by
    by_cases hii : i = index
    · rw [hii, Function.update_self]
      exact List.mem_cons_self
    · rw [Function.update_of_ne hii]
      exact List.mem_cons_of_mem _ (hmem i ((List.mem_cons.1 hi).resolve_left hii) hii)
  ne := ne_update hne fun i hi hii heq =>
    (List.nodup_cons.1 hnodup).1 (heq ▸ hmem i hi hii)

theorem Pointers.subset {ids' : List ℕ} (hp : Pointers blocks live ids)
    (hsub : ∀ i ∈ ids', i ∈ ids) : Pointers blocks live ids' where
  mem i hi := hp.mem i (hsub i hi)
  ne i hi j hj := hp.ne i (hsub i hi) j (hsub j hj)

/-- **The pointers after a request.** -/
theorem Pointers.remember (hp : Pointers blocks live ids) (hvalid : op.Valid ids)
    (hanswered : op.Answered p)
    (hnodup : (((op.call blocks).after live p).map Prod.fst).Nodup) :
    Pointers (op.remember blocks p) ((op.call blocks).after live p) (op.live ids) := by
  cases op with
  | alloc index size =>
      have hafter : ((Traceop.alloc index size).call blocks).after live p = (p, size) :: live :=
        if_neg hanswered
      rw [hafter] at hnodup ⊢
      exact .update hp.ne (fun i hi _ => hp.mem i hi) hnodup
  | realloc index size =>
      have hnull : p ≠ 0 := hanswered
      have hkept : ((Traceop.realloc index size).call blocks).kept live p =
          drop live (blocks index) := if_neg fun hand => hnull hand.2
      have hafter : ((Traceop.realloc index size).call blocks).after live p =
          (p, size) :: drop live (blocks index) := by
        rw [Call.after, if_neg hnull, hkept]
        rfl
      rw [hafter] at hnodup ⊢
      refine (Pointers.update hp.ne (fun i hi hii => ?_) hnodup).subset
        fun i hi => List.mem_cons_of_mem _ hi
      exact mem_drop (hp.mem i hi) (hp.ne i hi index hvalid hii)
  | free index =>
      obtain rfl : p = 0 := hanswered
      have hkept : ∀ i ∈ (Traceop.free index).live ids, i ∈ ids ∧ i ≠ index := fun i hi =>
        ⟨(List.mem_filter.1 hi).1, of_decide_eq_true (List.mem_filter.1 hi).2⟩
      refine ⟨fun i hi => ?_, fun i hi j hj => hp.ne i (hkept i hi).1 j (hkept j hj).1⟩
      obtain ⟨hi, hii⟩ := hkept i hi
      exact mem_drop (hp.mem i hi) (hp.ne i hi index hvalid hii)

/-- The call of a request is valid. -/
theorem Pointers.call_valid (hp : Pointers blocks live ids) (hvalid : op.Valid ids)
    (hmax : op.size ≤ 2147483647) : (op.call blocks).Valid live := by
  have hlive : ∀ i ∈ ids, ∃ q ∈ live, q.1 = blocks i := fun i hi => List.mem_map.1 (hp.mem i hi)
  cases op with
  | alloc index size => exact ⟨hmax, .inl rfl⟩
  | realloc index size => exact ⟨hmax, .inr (hlive index hvalid)⟩
  | free index => exact ⟨Nat.zero_le _, .inr (hlive index hvalid)⟩

/-- **The same request leads to the same pointer.** -/
theorem Alike.step (hgrant : ∀ k, lib.grant k = true)
    (ha : Alike lib h h' blocks blocks' live ids) (hvalid : op.Valid ids)
    (hmax : op.size ≤ 2147483647) (hs : Served lib op h blocks g p) :
    ∃ g', Served lib op h' blocks' g' p ∧ Alike lib g g' (op.remember blocks p)
      (op.remember blocks' p) ((op.call blocks).after live p) (op.live ids) := by
  obtain ⟨⟨s, n, hr, hr', hh⟩, hsame, hp⟩ := ha
  obtain ⟨hrun, hanswered⟩ := hs
  have hc := hp.call_valid hvalid hmax
  have hcall : op.call blocks' = op.call blocks := by
    cases op with
    | alloc index size => rfl
    | realloc index size => exact congrArg (Call.realloc · size) (hsame index hvalid)
    | free index => exact congrArg Call.free (hsame index hvalid)
  -- the plain description answers both calls
  obtain ⟨m, hm⟩ := answer_recount hgrant s n (op.call blocks)
  obtain ⟨g₁, hrun₁, hg⟩ := call_refines hr hh hc
  obtain ⟨g', hrun', hg'⟩ := call_refines hr' hh hc
  rw [hrun] at hrun₁
  obtain ⟨rfl, hpointer⟩ := Prod.mk.inj (Option.some.inj hrun₁)
  rw [hm] at hrun' hg'
  rw [← hpointer] at hrun'
  obtain ⟨g₂, p₂, bs, l, used, hrun₂, hcalled, -⟩ := call_spec hr.good hh hc
  rw [hrun] at hrun₂
  obtain ⟨rfl, rfl⟩ := Prod.mk.inj (Option.some.inj hrun₂)
  obtain rfl := hcalled.good.blocks_eq hg.good
  have hheld := hcalled.after
  refine ⟨g', ⟨hcall ▸ hrun', hanswered⟩, ⟨_, m, hg, hg', hheld⟩, ?_,
    hp.remember hvalid hanswered (hheld.nodup hg.good)⟩
  have hupdate : ∀ index, ∀ i ∈ index :: ids,
      Function.update blocks' index p i = Function.update blocks index p i := fun index i hi => by
    by_cases hii : i = index
    · rw [hii, Function.update_self, Function.update_self]
    · rw [Function.update_of_ne hii, Function.update_of_ne hii]
      exact hsame i ((List.mem_cons.1 hi).resolve_left hii)
  cases op with
  | alloc index size => exact hupdate index
  | realloc index size => exact fun i hi => hupdate index i (List.mem_cons_of_mem _ hi)
  | free index => exact fun i hi => hsame i (List.mem_filter.1 hi).1

/-- A block in use may be filled. -/
theorem refines_memset {s : Pool} {b : Block} {v : UInt8} {n : ℕ} (hr : Refines lib h s)
    (hb : b ∈ allocated s.blocks) (hn : n + 8 ≤ b.size) :
    Refines lib (memset h b.base v n) s := by
  induction n with
  | zero => exact hr
  | succ n ih =>
      have hrest := ih (by omega)
      exact hrest.inside (Wrote.setByte ⟨b, hb, by omega, by omega⟩)

theorem Alike.fill (ha : Alike lib h h' blocks blocks' live ids) {n : ℕ} (hmem : (p, n) ∈ live)
    (v : UInt8) : Alike lib (memset h p v n) h' blocks blocks' live ids := by
  obtain ⟨⟨s, m, hr, hr', hh⟩, hsame, hp⟩ := ha
  obtain ⟨b, hb, rfl, hroom⟩ := hh.room _ hmem
  exact ⟨⟨s, m, refines_memset hr hb hroom, hr', hh⟩, hsame, hp⟩

/-- **What `eval_mm_valid` has accepted is served in the other pass.** -/
theorem Alike.validOp (hgrant : ∀ k, lib.grant k = true)
    (ha : Alike lib t.heap h' t.blocks blocks' live ids) (hvalid : op.Valid ids)
    (hmax : op.size ≤ 2147483647) (hok : validOp (mm lib) t op = .ok t') :
    ∃ g' p live', Served lib op h' blocks' g' p ∧
      Alike lib t'.heap g' t'.blocks (op.remember blocks' p) live' (op.live ids) := by
  obtain ⟨g, p, hs, hblocks, hheap⟩ := served_of_validOp hok
  obtain ⟨g', hs', ha'⟩ := ha.step hgrant hvalid hmax hs
  rw [← hblocks] at ha'
  refine ⟨g', p, (op.call t.blocks).after live p, hs', ?_⟩
  rcases hheap with rfl | ⟨hnull, v, hheap⟩
  · exact ha'
  · rw [hheap]
    refine ha'.fill ?_ v
    have hsize : (op.call t.blocks).size = op.size := by cases op <;> rfl
    rw [Call.after, if_neg hnull, hsize]
    exact List.mem_cons_self

/-- The same trace in `eval_mm_speed`. -/
theorem Alike.speedOps (hgrant : ∀ k, lib.grant k = true) {k : ℕ}
    (ha : Alike lib t.heap u.heap t.blocks u.blocks live ids) (hvalid : Valid ids ops)
    (hmax : ∀ op ∈ ops, op.size ≤ 2147483647) (hok : validOps (mm lib) k t ops = .ok t') :
    ∃ u' live', speedOps (mm lib) u ops = .ok u' ∧
      Alike lib t'.heap u'.heap t'.blocks u'.blocks live' (ops.foldl Traceop.live ids) := by
  induction ops generalizing t u live ids k with
  | nil =>
      obtain rfl := Except.ok.inj hok
      exact ⟨u, live, rfl, ha⟩
  | cons op ops ih =>
      rw [validOps] at hok
      split at hok
      · cases hok
      · rename_i t₁ hop
        obtain ⟨g', p, live', hs, ha'⟩ :=
          ha.validOp hgrant hvalid.1 (hmax op List.mem_cons_self) hop
        have hspeed := hs.speedOp
        obtain ⟨u', live'', hrun, hend⟩ :=
          ih (u := { u with heap := g', blocks := op.remember u.blocks p }) ha' hvalid.2
            (fun o ho => hmax o (List.mem_cons_of_mem _ ho)) hok
        refine ⟨u', live'', ?_, hend⟩
        rw [Mdriver.speedOps, hspeed]
        exact hrun

/-- The same trace in `eval_mm_util`. -/
theorem Alike.utilOps (hgrant : ∀ k, lib.grant k = true) {k : ℕ} (n : Totals)
    (ha : Alike lib t.heap u.heap t.blocks u.blocks live ids) (hvalid : Valid ids ops)
    (hmax : ∀ op ∈ ops, op.size ≤ 2147483647) (hok : validOps (mm lib) k t ops = .ok t') :
    ∃ u' n' live', utilOps (mm lib) u n ops = .ok (u', n') ∧
      Alike lib t'.heap u'.heap t'.blocks u'.blocks live' (ops.foldl Traceop.live ids) := by
  induction ops generalizing t u live ids k n with
  | nil =>
      obtain rfl := Except.ok.inj hok
      exact ⟨u, n, live, rfl, ha⟩
  | cons op ops ih =>
      rw [validOps] at hok
      split at hok
      · cases hok
      · rename_i t₁ hop
        obtain ⟨g', p, live', hs, ha'⟩ :=
          ha.validOp hgrant hvalid.1 (hmax op List.mem_cons_self) hop
        obtain ⟨u₁, n₁, hutil, rfl, hblocks⟩ := hs.utilOp n
        rw [← hblocks] at ha'
        obtain ⟨u', n', live'', hrun, hend⟩ :=
          ih n₁ ha' hvalid.2 (fun o ho => hmax o (List.mem_cons_of_mem _ ho)) hok
        refine ⟨u', n', live'', ?_, hend⟩
        rw [Mdriver.utilOps, hutil]
        exact hrun

theorem Alike.brk_eq (ha : Alike lib h h' blocks blocks' live ids) : h'.brk = h.brk := by
  obtain ⟨⟨s, n, hr, hr', -⟩, -, -⟩ := ha
  rw [hr.brk, hr'.brk]
  rfl

/-- **Two passes start alike**, when the first one got through `mm_init`. -/
theorem alike_start (hgrant : ∀ k, lib.grant k = true) (hbrk : h.brk = lib.start)
    (hbrk' : h'.brk = lib.start) (hok : (mmInit lib h).2 = 0) (blocks blocks' : ℕ → ℕ) :
    (mmInit lib h').2 = 0 ∧
      Alike lib (mmInit lib h).1 (mmInit lib h').1 blocks blocks' [] [] := by
  have hr := mmInit_refines hbrk hok
  have hinit : (mmInit lib h').2 = 0 := by
    have htop := hr.good.rep.layout.brk_le
    rw [hr.brk, startPool_brk] at htop
    exact (mmInit_fits hgrant htop hbrk').1
  have hr' := mmInit_refines hbrk' hinit
  rw [startPool_recount lib _ (h.sbrks + 1)] at hr'
  obtain ⟨bs, l, hg, hh⟩ := (Reach.init hbrk hok).inv
  obtain rfl := hg.blocks_eq hr.good
  have hnone : ∀ i, i ∉ ([] : List ℕ) := fun i => List.not_mem_nil
  exact ⟨hinit, ⟨_, _, hr, hr', hh⟩, fun i hi => absurd hi (hnone i),
    fun i hi => absurd hi (hnone i), fun i hi => absurd hi (hnone i)⟩

/-- **A trace that was accepted runs through the other passes**, whatever was in the memory before
them: `eval_mm_speed` gets the pointers of the check, and `eval_mm_util` measures its heap. -/
theorem passes_agree (hgrant : ∀ k, lib.grant k = true) (hvalid : Valid [] ops)
    (hmax : ∀ op ∈ ops, op.size ≤ 2147483647) (hok : evalMmValid (mm lib) t ops = .ok t')
    (u : Test Heap) :
    (∃ u', evalMmSpeed (mm lib) u ops = .ok u' ∧ u'.heap.brk = t'.heap.brk ∧
        ∀ i ∈ ops.foldl Traceop.live [], u'.blocks i = t'.blocks i) ∧
      ∃ m, evalMmUtil (mm lib) u ops = .ok (m, t'.heap.brk - lib.start) ∧ HighWater ops m := by
  obtain ⟨h, hh⟩ : ∃ h : Heap, { t.heap with brk := lib.start } = h := ⟨_, rfl⟩
  obtain ⟨h', hh'⟩ : ∃ h' : Heap, { u.heap with brk := lib.start } = h' := ⟨_, rfl⟩
  have hvalidRun : evalMmValid (mm lib) t ops = if (mmInit lib h).2 < 0 then .error (0, .init)
      else validOps (mm lib) 0 { t with heap := (mmInit lib h).1, ranges := [] } ops := by
    rw [← hh]
    rfl
  have hspeed : evalMmSpeed (mm lib) u ops = if (mmInit lib h').2 < 0 then .error .init
      else speedOps (mm lib) { u with heap := (mmInit lib h').1 } ops := by
    rw [← hh']
    rfl
  rw [hvalidRun] at hok
  rcases mmInit_result lib h with hinit | hinit
  · rw [if_neg (by omega)] at hok
    obtain ⟨hinit', ha⟩ := alike_start hgrant (hh ▸ rfl : h.brk = lib.start)
      (hh' ▸ rfl : h'.brk = lib.start) hinit t.blocks u.blocks
    constructor
    · obtain ⟨u', live, hrun, hend⟩ :=
        Alike.speedOps (t := { t with heap := (mmInit lib h).1, ranges := [] })
          (u := { u with heap := (mmInit lib h').1 }) hgrant ha hvalid hmax hok
      rw [hspeed, if_neg (by omega)]
      exact ⟨u', hrun, hend.brk_eq, hend.same⟩
    · obtain ⟨u', n', live, hrun, hend⟩ :=
        Alike.utilOps (t := { t with heap := (mmInit lib h).1, ranges := [] })
          (u := { u with heap := (mmInit lib h').1 }) hgrant ⟨0, 0⟩ ha hvalid hmax hok
      have hcount :=
        utilOps_counted (counted_start { u with heap := (mmInit lib h').1 }) hvalid hrun
      refine ⟨n'.maxTotalSize, ?_, hcount.high⟩
      have hutil : evalMmUtil (mm lib) u ops = if (mmInit lib h').2 < 0 then .error .init
          else .ok (n'.maxTotalSize, u'.heap.brk - lib.start) := by
        unfold evalMmUtil
        rw [show (mm lib).mmInit ((mm lib).memResetBrk u.heap) = mmInit lib h' from hh' ▸ rfl]
        dsimp only
        rw [hrun]
        rfl
      rw [hutil, if_neg (by omega), hend.brk_eq]
  · rw [if_pos (by omega)] at hok
    cases hok

/-- Four requests, of which the third moves a block; the other passes start from what the check has
left. -/
theorem passes_agree_four : ∃ t' u' m,
    evalMmValid (mm plentiful) ⟨fresh, [], fun _ => 0, fun _ => 0⟩
      [.alloc 0 24, .alloc 1 100, .realloc 0 200, .free 1] = .ok t' ∧
    evalMmSpeed (mm plentiful) t' [.alloc 0 24, .alloc 1 100, .realloc 0 200, .free 1] = .ok u' ∧
    u'.heap.brk = t'.heap.brk ∧ u'.blocks 0 = t'.blocks 0 ∧
    evalMmUtil (mm plentiful) t' [.alloc 0 24, .alloc 1 100, .realloc 0 200, .free 1] =
      .ok (m, t'.heap.brk - plentiful.start) ∧
    HighWater [.alloc 0 24, .alloc 1 100, .realloc 0 200, .free 1] m := by
  have hbool : (evalMmValid (mm plentiful) ⟨fresh, [], fun _ => 0, fun _ => 0⟩
      [.alloc 0 24, .alloc 1 100, .realloc 0 200, .free 1]).toBool = true := by decide +kernel
  cases hok : evalMmValid (mm plentiful) ⟨fresh, [], fun _ => 0, fun _ => 0⟩
      [.alloc 0 24, .alloc 1 100, .realloc 0 200, .free 1] with
  | error e =>
      rw [hok] at hbool
      cases hbool
  | ok t' =>
      obtain ⟨⟨u', hspeed, hbrk, hsame⟩, m, hutil, hhigh⟩ :=
        passes_agree (fun _ => rfl) (by decide) (by decide) hok t'
      exact ⟨t', u', m, rfl, hspeed, hbrk, hsame 0 (by decide), hutil, hhigh⟩

end Alike

end Mdriver
