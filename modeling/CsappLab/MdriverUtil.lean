/-
**The utilization that the driver measures.**

`eval_mm_util` adds up the payloads that are allocated and remembers the largest total.  That number
belongs to the trace and not to the package: it is what an allocator without gaps and tags would
need.  The driver divides it by the size of the heap.

Main definitions:

* `Mdriver.liveBytes`, `Mdriver.HighWater` — the bytes that are allocated after some requests, and
  the largest number of them.

Main results:

* `Mdriver.utilOps_total` — **the total is the number of bytes allocated**, for every package;
* `Mdriver.evalMmUtil_mm` — **utilization of `mm.c`**: the high-water mark of the trace, which fits
  into the heap.
-/

import CsappLab.MdriverMm
import Mathlib.Order.Bounds.Defs

set_option relaxedAutoImplicit false
set_option autoImplicit false

namespace Mdriver

open Tiling
open Malloc hiding addRange

/-! ### The bytes that are allocated -/

/-- The ids with the sizes of their blocks after a request, latest first. -/
def Traceop.payloads (bs : List (ℕ × ℕ)) : Traceop → List (ℕ × ℕ)
  | alloc index size => (index, size) :: bs
  | realloc index size => (index, size) :: bs.eraseP fun q => q.1 = index
  | free index => bs.eraseP fun q => q.1 = index

/-- The number of bytes in some blocks. -/
def bytes (bs : List (ℕ × ℕ)) : ℕ := (bs.map Prod.snd).sum

/-- The number of bytes that are allocated after some requests. -/
def liveBytes (ops : List Traceop) : ℕ := bytes (ops.foldl Traceop.payloads [])

/-- **The high-water mark of a trace**: the largest number of bytes that are allocated at any point
of it. -/
def HighWater (ops : List Traceop) (m : ℤ) : Prop :=
  IsGreatest {b : ℤ | ∃ pre suf, ops = pre ++ suf ∧ b = liveBytes pre} m

section Payloads

variable {bs : List (ℕ × ℕ)} {i j n : ℕ}

theorem bytes_cons (q : ℕ × ℕ) (bs : List (ℕ × ℕ)) : bytes (q :: bs) = q.2 + bytes bs :=
  List.sum_cons

/-- Taking a block out of the sum. -/
theorem bytes_eraseP (hfind : bs.find? (fun q => q.1 = i) = some (i, n)) :
    bytes (bs.eraseP fun q => q.1 = i) + n = bytes bs := by
  induction bs with
  | nil => cases hfind
  | cons q bs ih =>
      by_cases hq : q.1 = i
      · rw [List.find?_cons_of_pos (by simpa using hq)] at hfind
        obtain rfl := Option.some.inj hfind
        rw [List.eraseP_cons_of_pos (by simp), bytes_cons, Nat.add_comm]
      · rw [List.find?_cons_of_neg (by simpa using hq)] at hfind
        rw [List.eraseP_cons_of_neg (by simpa using hq), bytes_cons, bytes_cons, Nat.add_assoc,
          ih hfind]

/-- The other blocks are found as before. -/
theorem find_eraseP (hij : i ≠ j) :
    (bs.eraseP fun q => q.1 = j).find? (fun q => q.1 = i) = bs.find? fun q => q.1 = i := by
  induction bs with
  | nil => rfl
  | cons q bs ih =>
      by_cases hj : q.1 = j
      · have hi : q.1 ≠ i := fun heq => hij (heq.symm.trans hj)
        rw [List.eraseP_cons_of_pos (by simpa using hj), List.find?_cons_of_neg (by simpa using hi)]
      · rw [List.eraseP_cons_of_neg (by simpa using hj)]
        by_cases hi : q.1 = i
        · rw [List.find?_cons_of_pos (by simpa using hi),
            List.find?_cons_of_pos (by simpa using hi)]
        · rw [List.find?_cons_of_neg (by simpa using hi),
            List.find?_cons_of_neg (by simpa using hi),
            ih]

end Payloads

theorem liveBytes_snoc (ops : List Traceop) (op : Traceop) :
    liveBytes (ops ++ [op]) = bytes (op.payloads (ops.foldl Traceop.payloads [])) := by
  rw [liveBytes, List.foldl_append]
  rfl

theorem highWater_nil : HighWater [] 0 := by
  constructor
  · exact ⟨[], [], rfl, rfl⟩
  · rintro b ⟨pre, suf, hops, rfl⟩
    obtain ⟨rfl, -⟩ := List.append_eq_nil_iff.1 hops.symm
    exact Int.le_refl _

/-- The high-water mark when one more request follows. -/
theorem HighWater.snoc {ops : List Traceop} {m : ℤ} (hm : HighWater ops m) (op : Traceop) :
    HighWater (ops ++ [op]) (max (liveBytes (ops ++ [op])) m) := by
  obtain ⟨⟨pre, suf, rfl, rfl⟩, hmax⟩ := hm
  constructor
  · rcases Int.le_total (liveBytes (pre ++ suf ++ [op])) (liveBytes pre) with hle | hle
    · exact ⟨pre, suf ++ [op], List.append_assoc .., Int.max_eq_right hle⟩
    · exact ⟨pre ++ suf ++ [op], [], (List.append_nil _).symm, Int.max_eq_left hle⟩
  · rintro b ⟨pre', suf', hops, rfl⟩
    rcases List.eq_nil_or_concat' suf' with rfl | ⟨suf', o, rfl⟩
    · rw [List.append_nil] at hops
      rw [← hops]
      exact Int.le_max_left _ _
    · rw [← List.append_assoc] at hops
      obtain ⟨hinit, -⟩ := List.append_inj' hops rfl
      exact Int.le_trans (hmax ⟨pre', suf', hinit, rfl⟩) (Int.le_max_right _ _)

/-! ### What the driver counts -/

/-- **What `eval_mm_util` keeps** after the requests `done`. -/
structure Counted {σ : Type} (t : Test σ) (n : Totals) (done : List Traceop) (ids : List ℕ) :
    Prop where
  sizes : ∀ i ∈ ids, (done.foldl Traceop.payloads []).find? (fun q => q.1 = i) =
    some (i, t.blockSizes i)
  total : n.totalSize = liveBytes done
  high : HighWater done n.maxTotalSize

/-- Before the first request nothing is counted. -/
theorem counted_start {σ : Type} (t : Test σ) : Counted t ⟨0, 0⟩ [] [] where
  sizes i hi := by cases hi
  total := rfl
  high := highWater_nil

section Counted

variable {σ : Type} {P : Package σ} {t t' : Test σ} {n n' : Totals} {done ops : List Traceop}
  {ids : List ℕ}

/-- **One request is counted**, whatever the package is. -/
theorem utilOp_counted {op : Traceop} (hc : Counted t n done ids) (hvalid : op.Valid ids)
    (hok : utilOp P t n op = .ok (t', n')) : Counted t' n' (done ++ [op]) (op.live ids) := by
  have hhigh := hc.high.snoc op
  have hfold : (done ++ [op]).foldl Traceop.payloads [] =
      op.payloads (done.foldl Traceop.payloads []) := List.foldl_append
  have htotal := liveBytes_snoc done op
  cases op with
  | alloc index size =>
      simp only [utilOp] at hok
      split at hok
      · cases hok
      split at hok
      · cases hok
      obtain ⟨rfl, rfl⟩ := Prod.mk.inj (Except.ok.inj hok)
      have hsum : n.totalSize + size = liveBytes (done ++ [.alloc index size]) := by
        rw [htotal, Traceop.payloads, bytes_cons, hc.total, liveBytes]
        omega
      rw [← hsum] at hhigh
      refine ⟨fun i hi => ?_, hsum, hhigh⟩
      rw [hfold, Traceop.payloads]
      by_cases hii : i = index
      · subst hii
        simp
      · rw [List.find?_cons_of_neg (by simpa using fun heq => hii heq.symm)]
        simp only [Function.update_of_ne hii]
        exact hc.sizes i ((List.mem_cons.1 hi).resolve_left hii)
  | realloc index size =>
      have hbytes := bytes_eraseP (hc.sizes index hvalid)
      simp only [utilOp] at hok
      split at hok
      · cases hok
      split at hok
      · cases hok
      obtain ⟨rfl, rfl⟩ := Prod.mk.inj (Except.ok.inj hok)
      have hsum : n.totalSize + ((size : ℤ) - t.blockSizes index) =
          liveBytes (done ++ [.realloc index size]) := by
        rw [htotal, Traceop.payloads, bytes_cons, hc.total, liveBytes]
        omega
      rw [← hsum] at hhigh
      refine ⟨fun i hi => ?_, hsum, hhigh⟩
      rw [hfold, Traceop.payloads]
      by_cases hii : i = index
      · subst hii
        simp
      · rw [List.find?_cons_of_neg (by simpa using fun heq => hii heq.symm), find_eraseP hii]
        simp only [Function.update_of_ne hii]
        exact hc.sizes i hi
  | free index =>
      have hbytes := bytes_eraseP (hc.sizes index hvalid)
      obtain ⟨rfl, rfl⟩ := Prod.mk.inj (Except.ok.inj hok)
      have hsum : n.totalSize - t.blockSizes index = liveBytes (done ++ [.free index]) := by
        rw [htotal, Traceop.payloads, hc.total, liveBytes]
        omega
      -- less is allocated than before, and the largest total stays
      have hle : (liveBytes (done ++ [.free index]) : ℤ) ≤ n.maxTotalSize := by
        have hbefore : (liveBytes done : ℤ) ≤ n.maxTotalSize :=
          hc.high.2 ⟨done, [], (List.append_nil _).symm, rfl⟩
        have := hc.total
        omega
      rw [Int.max_eq_right hle] at hhigh
      refine ⟨fun i hi => ?_, hsum, hhigh⟩
      obtain ⟨hi, hii⟩ := List.mem_filter.1 hi
      rw [hfold, Traceop.payloads, find_eraseP (of_decide_eq_true hii)]
      exact hc.sizes i hi

/-- **All requests are counted.** -/
theorem utilOps_counted (hc : Counted t n done ids) (hvalid : Valid ids ops)
    (hok : utilOps P t n ops = .ok (t', n')) :
    Counted t' n' (done ++ ops) (ops.foldl Traceop.live ids) := by
  induction ops generalizing t n done ids with
  | nil =>
      obtain ⟨rfl, rfl⟩ := Prod.mk.inj (Except.ok.inj hok)
      rw [List.append_nil]
      exact hc
  | cons op ops ih =>
      rw [utilOps] at hok
      split at hok
      · cases hok
      · rename_i hop
        have hrest := ih (utilOp_counted hc hvalid.1 hop) hvalid.2 hok
        rw [List.append_assoc] at hrest
        exact hrest

end Counted

/-! ### Utilization of `mm.c` -/

/-- The sizes of the blocks in use add up to no more than they tile. -/
theorem tiles_sum_le {lo hi : ℕ} {bs : List Block} (ht : Tiles lo hi bs) :
    lo + ((allocated bs).map Block.size).sum ≤ hi := by
  induction bs generalizing lo with
  | nil =>
      obtain rfl : lo = hi := ht
      exact Nat.le_refl _
  | cons b bs ih =>
      obtain ⟨rfl, hrest⟩ := ht
      have hle := ih hrest
      cases halloc : b.alloc with
      | true =>
          have hcons : allocated (b :: bs) = b :: allocated bs := List.filter_cons_of_pos halloc
          rw [hcons, List.map_cons, List.sum_cons]
          omega
      | false =>
          have hskip : allocated (b :: bs) = allocated bs :=
            List.filter_cons_of_neg (by simp [halloc])
          rw [hskip]
          omega

/-- The payloads add up to no more than the blocks they are in. -/
theorem bytes_le_of_holds {live : List (ℕ × ℕ)} {used : List Block} (hh : Holds live used)
    (hnd : (live.map Prod.fst).Nodup) : bytes live ≤ (used.map Block.size).sum := by
  induction live generalizing used with
  | nil => exact Nat.zero_le _
  | cons q live ih =>
      obtain ⟨hq, hnd⟩ := List.nodup_cons.1 hnd
      obtain ⟨b, hb, hbase, hroom⟩ := hh.room q List.mem_cons_self
      have hperm := List.perm_cons_erase hb
      have hpointers : (live.map Prod.fst).Perm ((used.erase b).map Block.base) := by
        have hall := hh.pointers.trans (hperm.map Block.base)
        rw [List.map_cons, List.map_cons, hbase] at hall
        exact hall.cons_inv
      have hheld : Holds live (used.erase b) := ⟨hpointers, fun r hr => ?_⟩
      · have hrest := ih hheld hnd
        rw [bytes_cons, (hperm.map Block.size).sum_eq, List.map_cons, List.sum_cons]
        omega
      · obtain ⟨c, hc, hcr, hcroom⟩ := hh.room r (List.mem_cons_of_mem _ hr)
        refine ⟨c, (List.mem_cons.1 (hperm.mem_iff.1 hc)).resolve_left ?_, hcr, hcroom⟩
        rintro rfl
        exact hq (List.mem_map.2 ⟨r, hr, hcr.symm.trans hbase⟩)

/-- **What is allocated fits into the heap**, behind the dummy block. -/
theorem bytes_le_brk {lib : Memlib} {h₀ h : Heap} {live : List (ℕ × ℕ)}
    (hs : Reach lib h₀ ⟨h, live⟩) : bytes live + (lib.start + 32) ≤ h.brk := by
  obtain ⟨bs, l, hg, hh⟩ := hs.inv
  have hsum := tiles_sum_le hg.rep.layout.tiles
  have hle : bytes live ≤ _ := bytes_le_of_holds hh (hh.nodup hg)
  simp only at hsum
  omega

/-- **The invariant of the run**: what is allocated are the payloads that were counted. -/
structure Measured (lib : Memlib) (h₀ : Heap) (t : Test Heap) (n : Totals)
    (live : List (ℕ × ℕ)) (ids : List ℕ) : Prop where
  reach : Reach lib h₀ ⟨t.heap, live⟩
  mem : ∀ i ∈ ids, (t.blocks i, t.blockSizes i) ∈ live
  ne : ∀ i ∈ ids, ∀ j ∈ ids, i ≠ j → t.blocks i ≠ t.blocks j
  total : n.totalSize = bytes live
  high : n.maxTotalSize + (lib.start + 32) ≤ t.heap.brk

section Measured

variable {lib : Memlib} {h₀ : Heap} {t t' : Test Heap} {n n' : Totals} {live : List (ℕ × ℕ)}
  {ids : List ℕ} {index size p : ℕ}

/-- Taking an allocation out of the sum. -/
theorem bytes_drop (hnd : (live.map Prod.fst).Nodup) (hmem : (p, size) ∈ live) :
    bytes (drop live p) + size = bytes live := by
  induction live with
  | nil => cases hmem
  | cons q live ih =>
      obtain ⟨hq, hnd⟩ := List.nodup_cons.1 hnd
      rcases List.mem_cons.1 hmem with rfl | hmem
      · have hrest : drop live p = live := by
          refine List.filter_eq_self.2 fun r hr => decide_eq_true ?_
          rintro rfl
          exact hq (List.mem_map.2 ⟨r, hr, rfl⟩)
        have hdrop : drop ((p, size) :: live) p = drop live p := List.filter_cons_of_neg (by simp)
        rw [hdrop, hrest, bytes_cons, Nat.add_comm]
      · have hqp : q.1 ≠ p := by
          rintro rfl
          exact hq (List.mem_map.2 ⟨_, hmem, rfl⟩)
        have hdrop : drop (q :: live) p = q :: drop live p :=
          List.filter_cons_of_pos (by simp [hqp])
        rw [hdrop, bytes_cons, bytes_cons, Nat.add_assoc, ih hnd hmem]

/-- A block was handed out. -/
theorem Measured.receive {s : Heap} {kept : List (ℕ × ℕ)} (hm : Measured lib h₀ t n live ids)
    (hreach : Reach lib h₀ ⟨s, (p, size) :: kept⟩)
    (hmem : ∀ i ∈ ids, i ≠ index → (t.blocks i, t.blockSizes i) ∈ kept)
    (htotal : n'.totalSize = bytes ((p, size) :: kept))
    (hhigh : n'.maxTotalSize = max n'.totalSize n.maxTotalSize) (hbrk : t.heap.brk ≤ s.brk) :
    Measured lib h₀
      { t with
        heap := s
        blocks := Function.update t.blocks index p
        blockSizes := Function.update t.blockSizes index size }
      n' ((p, size) :: kept) (index :: ids) where
  reach := hreach
  mem i hi := by
    by_cases hii : i = index
    · subst hii
      simp
    · simp only [Function.update_of_ne hii]
      exact List.mem_cons_of_mem _ (hmem i ((List.mem_cons.1 hi).resolve_left hii) hii)
  ne := ne_update hm.ne <| by
    -- the pointers the client holds are distinct
    obtain ⟨bs, l, hg, hh⟩ := hreach.inv
    have hnew : p ∉ kept.map Prod.fst := (List.nodup_cons.1 (hh.nodup hg)).1
    rintro i hi hii rfl
    exact hnew (List.mem_map.2 ⟨_, hmem i hi hii, rfl⟩)
  total := htotal
  high := by
    have hfits := bytes_le_brk hreach
    have := hm.high
    show n'.maxTotalSize + ((lib.start : ℤ) + 32) ≤ s.brk
    omega

theorem Measured.subset {ids' : List ℕ} (hm : Measured lib h₀ t n live ids)
    (hsub : ∀ i ∈ ids', i ∈ ids) : Measured lib h₀ t n live ids' where
  reach := hm.reach
  mem i hi := hm.mem i (hsub i hi)
  ne i hi j hj := hm.ne i (hsub i hi) j (hsub j hj)
  total := hm.total
  high := hm.high

/-- **One request keeps the invariant.** -/
theorem utilOp_measured {op : Traceop} (hm : Measured lib h₀ t n live ids)
    (hvalid : op.Valid ids) (hmax : op.size ≤ 2147483647)
    (hok : utilOp (mm lib) t n op = .ok (t', n')) :
    ∃ live', Measured lib h₀ t' n' live' (op.live ids) := by
  obtain ⟨bs, l, hg, hh⟩ := hm.reach.inv
  have hnd : (live.map Prod.fst).Nodup := hh.nodup hg
  have htotal := hm.total
  cases op with
  | alloc index size =>
      simp only [utilOp] at hok
      split at hok
      · cases hok
      rename_i s p hrun
      split at hok
      · cases hok
      rename_i hnull
      obtain ⟨rfl, rfl⟩ := Prod.mk.inj (Except.ok.inj hok)
      have hcall : (Call.malloc size).run lib t.heap = some (s, p) := hrun
      have hreach := hm.reach.call (c := .malloc size) ⟨hmax, .inl rfl⟩ hcall
      rw [Call.after, if_neg hnull] at hreach
      refine ⟨_, hm.receive hreach (fun i hi _ => hm.mem i hi) ?_ rfl (brk_le_mmMalloc hrun)⟩
      simp only [Call.kept, bytes_cons]
      omega
  | realloc index size =>
      have hold := hm.mem index hvalid
      have hdrop := bytes_drop hnd hold
      simp only [utilOp] at hok
      split at hok
      · cases hok
      rename_i s p hrun
      split at hok
      · cases hok
      rename_i hnull
      obtain ⟨rfl, rfl⟩ := Prod.mk.inj (Except.ok.inj hok)
      have hcall : (Call.realloc (t.blocks index) size).run lib t.heap = some (s, p) := hrun
      have hreach := hm.reach.call (c := .realloc (t.blocks index) size)
        ⟨hmax, .inr ⟨_, hold, rfl⟩⟩ hcall
      have hkept : (Call.realloc (t.blocks index) size).kept live p =
          drop live (t.blocks index) := if_neg fun hand => hnull hand.2
      rw [Call.after, if_neg hnull, hkept] at hreach
      refine ⟨_, (hm.receive hreach (fun i hi hii => List.mem_filter.2 ⟨hm.mem i hi,
        decide_eq_true (hm.ne i hi index hvalid hii)⟩) ?_ rfl (brk_le_mmRealloc hrun)).subset
        fun i hi => List.mem_cons_of_mem _ hi⟩
      simp only [Call.size, bytes_cons]
      omega
  | free index =>
      have hold := hm.mem index hvalid
      have hdrop := bytes_drop hnd hold
      obtain ⟨rfl, rfl⟩ := Prod.mk.inj (Except.ok.inj hok)
      have hkept : ∀ i ∈ (Traceop.free index).live ids, i ∈ ids ∧ i ≠ index := fun i hi =>
        ⟨(List.mem_filter.1 hi).1, of_decide_eq_true (List.mem_filter.1 hi).2⟩
      have hreach := hm.reach.call (c := .free (t.blocks index)) (p := 0)
        ⟨Nat.zero_le _, .inr ⟨_, hold, rfl⟩⟩ rfl
      refine ⟨drop live (t.blocks index), hreach, fun i hi => List.mem_filter.2
        ⟨hm.mem i (hkept i hi).1, decide_eq_true (hm.ne i (hkept i hi).1 index hvalid
        (hkept i hi).2)⟩, fun i hi j hj => hm.ne i (hkept i hi).1 j (hkept j hj).1, ?_, ?_⟩
      · simp only
        omega
      · have hle := brk_le_mmFree lib t.heap (t.blocks index)
        have := hm.high
        show n.maxTotalSize + ((lib.start : ℤ) + 32) ≤ (mmFree lib t.heap (t.blocks index)).brk
        omega

/-- **All requests keep the invariant.** -/
theorem utilOps_measured {ops : List Traceop} (hm : Measured lib h₀ t n live ids)
    (hvalid : Valid ids ops) (hmax : ∀ op ∈ ops, op.size ≤ 2147483647)
    (hok : utilOps (mm lib) t n ops = .ok (t', n')) :
    ∃ live' ids', Measured lib h₀ t' n' live' ids' := by
  induction ops generalizing t n live ids with
  | nil =>
      obtain ⟨rfl, rfl⟩ := Prod.mk.inj (Except.ok.inj hok)
      exact ⟨live, ids, hm⟩
  | cons op ops ih =>
      rw [utilOps] at hok
      split at hok
      · cases hok
      · rename_i hop
        obtain ⟨live₁, hm₁⟩ := utilOp_measured hm hvalid.1 (hmax op List.mem_cons_self) hop
        exact ih hm₁ hvalid.2 (fun o ho => hmax o (List.mem_cons_of_mem _ ho)) hok

/-- **The utilization of `mm.c`**: what `eval_mm_util` divides by the size of the heap is the
high-water mark of the trace, and it fits into the heap together with 32 bytes of overhead. -/
theorem evalMmUtil_mm {ops : List Traceop} {m : ℤ} {size : ℕ} (hvalid : Valid [] ops)
    (hmax : ∀ op ∈ ops, op.size ≤ 2147483647) (hok : evalMmUtil (mm lib) t ops = .ok (m, size)) :
    HighWater ops m ∧ m + 32 ≤ size := by
  obtain ⟨h, hh⟩ : ∃ h : Heap, { t.heap with brk := lib.start } = h := ⟨_, rfl⟩
  have hstart : (mm lib).mmInit ((mm lib).memResetBrk t.heap) = mmInit lib h := by
    rw [← hh]
    rfl
  unfold evalMmUtil at hok
  rw [hstart] at hok
  dsimp only at hok
  rcases mmInit_result lib h with hinit | hinit
  · rw [if_neg (by omega)] at hok
    split at hok
    · cases hok
    rename_i t' n hops
    obtain ⟨rfl, rfl⟩ := Prod.mk.inj (Except.ok.inj hok)
    have hbrk : h.brk = lib.start := hh ▸ rfl
    have hreach : Reach lib h ⟨(mmInit lib h).1, []⟩ := .init hbrk hinit
    have hfits := bytes_le_brk hreach
    have hcount := utilOps_counted (counted_start { t with heap := (mmInit lib h).1 }) hvalid hops
    have hstart : Measured lib h { t with heap := (mmInit lib h).1 } ⟨0, 0⟩ [] [] :=
      { reach := hreach
        mem := fun i hi => by cases hi
        ne := fun i hi => by cases hi
        total := rfl
        high := by
          show (0 : ℤ) + ((lib.start : ℤ) + 32) ≤ (mmInit lib h).1.brk
          omega }
    obtain ⟨live, ids, hm⟩ := utilOps_measured hstart hvalid hmax hops
    refine ⟨hcount.high, ?_⟩
    have := hm.high
    have hlow := bytes_le_brk hm.reach
    simp only [memHeapsize, mm]
    omega
  · rw [if_pos (by omega)] at hok
    cases hok

/-- Three requests, of which the second leads to the high-water mark. -/
theorem evalMmUtil_mm_three :
    evalMmUtil (mm plentiful) ⟨fresh, [], fun _ => 0, fun _ => 0⟩
      [.alloc 0 24, .alloc 1 100, .free 0] = .ok (124, 4128) ∧
      HighWater [.alloc 0 24, .alloc 1 100, .free 0] 124 := by
  have hrun : evalMmUtil (mm plentiful) ⟨fresh, [], fun _ => 0, fun _ => 0⟩
      [.alloc 0 24, .alloc 1 100, .free 0] = .ok (124, 4128) := by decide +kernel
  exact ⟨hrun, (evalMmUtil_mm (by decide) (by decide) hrun).1⟩

end Measured

end Mdriver
