/-
**The test driver of the allocator.**

`mdriver.c` runs a malloc package on traces of requests.  The first run checks the package: every
block that is handed out must be aligned, inside of the heap and apart from the other payloads, and
`realloc` must preserve contents.  A second run measures how well the package uses its memory, and a
third one is timed.  The package is a parameter here, so that what the driver accepts can be said of
any package.

The test for overlaps asks whether an end of the new payload lies in an old one.  A new payload with
an old one strictly inside of it has no such end; that is all that slips through.

Main definitions:

* `Mdriver.Traceop`, `Mdriver.Package` — the requests of a trace, and a malloc package;
* `Mdriver.addRange`, `Mdriver.evalMmValid`, `Mdriver.evalMmUtil`, `Mdriver.evalMmSpeed` — the
  functions of the source;
* `Mdriver.Sound` — what holds of the range list.

Main results:

* `Mdriver.addRange_spec` — when `add_range` accepts a payload;
* `Mdriver.evalMmValid_sound` — **what the driver's approval says about a package**.
-/

import CsappLab.MallocClient

set_option relaxedAutoImplicit false
set_option autoImplicit false

namespace Mdriver

open Malloc (removeRange)

/-! ### Traces and packages -/

/-- `traceop_t`: a request, with the id of its block and the number of bytes. -/
inductive Traceop
  | alloc (index size : ℕ)
  | realloc (index size : ℕ)
  | free (index : ℕ)
  deriving DecidableEq, Repr

/-- A malloc package, together with the memory system that it runs on.  A call that does not return
has no result.  `mem_sbrk` does not lower the break. -/
structure Package (σ : Type) where
  memHeapLo : ℕ
  memBrk : σ → ℕ
  memResetBrk : σ → σ
  byte : σ → ℕ → UInt8
  memset : σ → ℕ → UInt8 → ℕ → σ
  mmInit : σ → σ × ℤ
  mmMalloc : σ → ℕ → Option (σ × ℕ)
  mmFree : σ → ℕ → σ
  mmRealloc : σ → ℕ → ℕ → Option (σ × ℕ)
  memBrk_memset : ∀ s p v n, memBrk (memset s p v n) = memBrk s
  memBrk_mmMalloc : ∀ s n, ∀ r ∈ mmMalloc s n, memBrk s ≤ memBrk r.1
  memBrk_mmFree : ∀ s p, memBrk s ≤ memBrk (mmFree s p)
  memBrk_mmRealloc : ∀ s p n, ∀ r ∈ mmRealloc s p n, memBrk s ≤ memBrk r.1

/-- What makes a test fail. -/
inductive Failure
  | init
  | malloc
  | realloc
  | unaligned (lo : ℕ)
  | outside (lo hi : ℕ)
  | overlap (lo hi : ℕ) (other : ℕ × ℕ)
  | notPreserved
  -- the test does not come to its end: `assert` in `add_range`, or a call that does not return
  | assertion
  | diverges
  deriving DecidableEq, Repr

/-- The text that `eval_mm_valid` gives to `malloc_error`; `%p` stands for an address. -/
def Failure.msg : Failure → String
  | init => "mm_init failed."
  | malloc => "mm_malloc failed."
  | realloc => "mm_realloc failed."
  | unaligned _ => "Payload address (%p) not aligned to 8 bytes"
  | outside _ _ => "Payload (%p:%p) lies outside heap (%p:%p)"
  | overlap _ _ _ => "Payload (%p:%p) overlaps another payload (%p:%p)\n"
  | notPreserved => "mm_realloc did not preserve the data from old block"
  | assertion => "size > 0"
  | diverges => ""

/-- The state of a test: the memory and the package, the range list, and the arrays `blocks` and
`block_sizes` of the trace. -/
structure Test (σ : Type) where
  heap : σ
  ranges : List (ℕ × ℕ)
  blocks : ℕ → ℕ
  blockSizes : ℕ → ℕ

/-! ### The check -/

/-- An end of one range lies in another. -/
def Hits (lo hi : ℕ) (r : ℕ × ℕ) : Prop := (r.1 ≤ lo ∧ lo ≤ r.2) ∨ (r.1 ≤ hi ∧ hi ≤ r.2)

instance (lo hi : ℕ) (r : ℕ × ℕ) : Decidable (Hits lo hi r) := inferInstanceAs (Decidable (_ ∨ _))

/-- `add_range`; `mem_heap_hi` is the address in front of the break. -/
def addRange (heapLo brk : ℕ) (ranges : List (ℕ × ℕ)) (lo size : ℕ) :
    Except Failure (List (ℕ × ℕ)) :=
  let hi := lo + size - 1
  if size = 0 then .error .assertion
  else if lo % 8 ≠ 0 then .error (.unaligned lo)
  else if lo < heapLo ∨ brk ≤ lo ∨ hi < heapLo ∨ brk ≤ hi then .error (.outside lo hi)
  else
    match ranges.find? fun r => Hits lo hi r with
    | some r => .error (.overlap lo hi r)
    | none => .ok ((lo, hi) :: ranges)

/-- A `char` in an `int` expression; `char` is signed. -/
def signedChar (v : UInt8) : ℤ := if v.toNat < 128 then v.toNat else (v.toNat : ℤ) - 256

section Evaluation

variable {σ : Type} (P : Package σ)

/-- The loop of `eval_mm_valid` over the old contents: the first `n` bytes of the block hold the
low byte of the index. -/
def preserved (s : σ) (newp index n : ℕ) : Bool :=
  (List.range n).all fun j => signedChar (P.byte s (newp + j)) = ((index % 256 : ℕ) : ℤ)

/-- The byte that a block is filled with. -/
def filling (index : ℕ) : UInt8 := UInt8.ofNat (index % 256)

/-- What `eval_mm_valid` does when it got the block `p`: check the range, fill the block and
remember it.  `oldsize` bytes are compared, none of them after `mm_malloc`. -/
def receive (t : Test σ) (index size p oldsize : ℕ) : Except Failure (Test σ) :=
  match addRange P.memHeapLo (P.memBrk t.heap) t.ranges p size with
  | .error e => .error e
  | .ok ranges =>
      if preserved P t.heap p index oldsize then
        .ok
          { heap := P.memset t.heap p (filling index) size
            ranges := ranges
            blocks := Function.update t.blocks index p
            blockSizes := Function.update t.blockSizes index size }
      else .error .notPreserved

/-- `eval_mm_valid`, one request. -/
def validOp (t : Test σ) : Traceop → Except Failure (Test σ)
  | .alloc index size =>
      match P.mmMalloc t.heap size with
      | none => .error .diverges
      | some (s, p) =>
          if p = 0 then .error .malloc else receive P { t with heap := s } index size p 0
  | .realloc index size =>
      let oldp := t.blocks index
      match P.mmRealloc t.heap oldp size with
      | none => .error .diverges
      | some (s, newp) =>
          if newp = 0 then .error .realloc
          else
            let oldsize := min size (t.blockSizes index)
            receive P { t with heap := s, ranges := removeRange t.ranges oldp } index size newp
              oldsize
  | .free index =>
      let p := t.blocks index
      .ok { t with heap := P.mmFree t.heap p, ranges := removeRange t.ranges p }

/-- `eval_mm_valid`, the requests from number `i` on; a failure comes with the number of the
request. -/
def validOps (i : ℕ) : Test σ → List Traceop → Except (ℕ × Failure) (Test σ)
  | t, [] => .ok t
  | t, op :: ops =>
      match validOp P t op with
      | .error e => .error (i, e)
      | .ok t => validOps (i + 1) t ops

/-- `eval_mm_valid`: the state at the end, when the package has passed. -/
def evalMmValid (t : Test σ) (ops : List Traceop) : Except (ℕ × Failure) (Test σ) :=
  let (s, r) := P.mmInit (P.memResetBrk t.heap)
  if r < 0 then .error (0, .init) else validOps P 0 { t with heap := s, ranges := [] } ops

/-! ### Utilization -/

/-- The totals that `eval_mm_util` keeps. -/
structure Totals where
  totalSize : ℤ
  maxTotalSize : ℤ

/-- `eval_mm_util`, one request; `app_error` ends the program. -/
def utilOp (t : Test σ) (n : Totals) : Traceop → Except Failure (Test σ × Totals)
  | .alloc index size =>
      match P.mmMalloc t.heap size with
      | none => .error .diverges
      | some (s, p) =>
          if p = 0 then .error .malloc
          else
            let total := n.totalSize + size
            .ok ({ t with
                heap := s
                blocks := Function.update t.blocks index p
                blockSizes := Function.update t.blockSizes index size },
              ⟨total, max total n.maxTotalSize⟩)
  | .realloc index newsize =>
      let oldsize := t.blockSizes index
      match P.mmRealloc t.heap (t.blocks index) newsize with
      | none => .error .diverges
      | some (s, newp) =>
          if newp = 0 then .error .realloc
          else
            let total := n.totalSize + ((newsize : ℤ) - oldsize)
            .ok ({ t with
                heap := s
                blocks := Function.update t.blocks index newp
                blockSizes := Function.update t.blockSizes index newsize },
              ⟨total, max total n.maxTotalSize⟩)
  | .free index =>
      .ok ({ t with heap := P.mmFree t.heap (t.blocks index) },
        ⟨n.totalSize - t.blockSizes index, n.maxTotalSize⟩)

/-- `eval_mm_util`, the loop. -/
def utilOps : Test σ → Totals → List Traceop → Except Failure (Test σ × Totals)
  | t, n, [] => .ok (t, n)
  | t, n, op :: ops =>
      match utilOp P t n op with
      | .error e => .error e
      | .ok (t, n) => utilOps t n ops

/-- `mem_heapsize`. -/
def memHeapsize (s : σ) : ℕ := P.memBrk s - P.memHeapLo

/-- `eval_mm_util`: the two numbers whose quotient it returns. -/
def evalMmUtil (t : Test σ) (ops : List Traceop) : Except Failure (ℤ × ℕ) :=
  let (s, r) := P.mmInit (P.memResetBrk t.heap)
  if r < 0 then .error .init
  else
    match utilOps P { t with heap := s } ⟨0, 0⟩ ops with
    | .error e => .error e
    | .ok (t, n) => .ok (n.maxTotalSize, memHeapsize P t.heap)

/-! ### Speed -/

/-- `eval_mm_speed`, one request. -/
def speedOp (t : Test σ) : Traceop → Except Failure (Test σ)
  | .alloc index size =>
      match P.mmMalloc t.heap size with
      | none => .error .diverges
      | some (s, p) =>
          if p = 0 then .error .malloc
          else .ok { t with heap := s, blocks := Function.update t.blocks index p }
  | .realloc index newsize =>
      match P.mmRealloc t.heap (t.blocks index) newsize with
      | none => .error .diverges
      | some (s, newp) =>
          if newp = 0 then .error .realloc
          else .ok { t with heap := s, blocks := Function.update t.blocks index newp }
  | .free index => .ok { t with heap := P.mmFree t.heap (t.blocks index) }

/-- `eval_mm_speed`, the loop. -/
def speedOps : Test σ → List Traceop → Except Failure (Test σ)
  | t, [] => .ok t
  | t, op :: ops =>
      match speedOp P t op with
      | .error e => .error e
      | .ok t => speedOps t ops

/-- `eval_mm_speed`: the state at the end. -/
def evalMmSpeed (t : Test σ) (ops : List Traceop) : Except Failure (Test σ) :=
  let (s, r) := P.mmInit (P.memResetBrk t.heap)
  if r < 0 then .error .init else speedOps P { t with heap := s } ops

end Evaluation

/-! ### What the range list says -/

/-- Two ranges have no address in common. -/
def Apart (r q : ℕ × ℕ) : Prop := r.2 < q.1 ∨ q.2 < r.1

/-- **What the test for overlaps does not see**: the range `q` lies strictly inside of `r`, which is
longer by nine bytes or more. -/
structure Encloses (r q : ℕ × ℕ) : Prop where
  lo : r.1 < q.1
  hi : q.2 < r.2
  longer : q.2 - q.1 + 9 ≤ r.2 - r.1

/-- A payload: where a range that `add_range` accepts can be. -/
structure Payload (heapLo brk : ℕ) (r : ℕ × ℕ) : Prop where
  aligned : r.1 % 8 = 0
  lo : heapLo ≤ r.1
  le : r.1 ≤ r.2
  hi : r.2 < brk

/-- **What holds of the range list**: its ranges are payloads, and of two of them the one that was
added later is apart from the other, or encloses it. -/
structure Sound (heapLo brk : ℕ) (ranges : List (ℕ × ℕ)) : Prop where
  payload : ∀ r ∈ ranges, Payload heapLo brk r
  pairs : ranges.Pairwise fun r q => Apart r q ∨ Encloses r q

section Ranges

variable {heapLo brk brk' lo size : ℕ} {ranges ranges' : List (ℕ × ℕ)} {r q : ℕ × ℕ}

/-- Ranges that do not hit are apart, or one encloses the other. -/
theorem not_hits (hr : r.1 % 8 = 0) (hq : q.1 % 8 = 0) (hqle : q.1 ≤ q.2) (hrle : r.1 ≤ r.2) :
    ¬ Hits r.1 r.2 q ↔ Apart r q ∨ Encloses r q := by
  constructor
  · intro hno
    have hends : (r.1 < q.1 ∨ q.2 < r.1) ∧ (r.2 < q.1 ∨ q.2 < r.2) := by
      unfold Hits at hno
      omega
    by_cases hapart : Apart r q
    · exact .inl hapart
    · unfold Apart at hapart
      -- starts of payloads are multiples of eight
      exact .inr ⟨by omega, by omega, by omega⟩
  · rintro (hapart | ⟨hlo, hhi, -⟩)
    · unfold Apart at hapart
      unfold Hits
      omega
    · unfold Hits
      omega

/-- **When `add_range` accepts a payload**: it is one, and all that are on the list are apart from
it or enclosed by it. -/
theorem addRange_spec (hs : Sound heapLo brk ranges) :
    addRange heapLo brk ranges lo size = .ok ranges' ↔
      1 ≤ size ∧ Payload heapLo brk (lo, lo + size - 1) ∧
        (∀ q ∈ ranges, Apart (lo, lo + size - 1) q ∨ Encloses (lo, lo + size - 1) q) ∧
        ranges' = (lo, lo + size - 1) :: ranges := by
  unfold addRange
  by_cases hsize : size = 0
  · rw [if_pos hsize]
    constructor
    · rintro ⟨⟩
    · rintro ⟨hpos, -⟩
      omega
  rw [if_neg hsize]
  by_cases haligned : lo % 8 ≠ 0
  · rw [if_pos haligned]
    constructor
    · rintro ⟨⟩
    · rintro ⟨-, hp, -⟩
      exact absurd hp.aligned haligned
  rw [if_neg haligned]
  have haligned : lo % 8 = 0 := by omega
  by_cases hout : lo < heapLo ∨ brk ≤ lo ∨ lo + size - 1 < heapLo ∨ brk ≤ lo + size - 1
  · rw [if_pos hout]
    constructor
    · rintro ⟨⟩
    · rintro ⟨-, ⟨-, hlo, hle, hhi⟩, -⟩
      simp only at hlo hle hhi
      omega
  rw [if_neg hout]
  have hnone : (ranges.find? fun r => Hits lo (lo + size - 1) r) = none ↔
      ∀ q ∈ ranges, Apart (lo, lo + size - 1) q ∨ Encloses (lo, lo + size - 1) q := by
    rw [List.find?_eq_none]
    refine forall₂_congr fun q hq => ?_
    have hq' := hs.payload q hq
    rw [← not_hits haligned hq'.aligned hq'.le (by simp only; omega)]
    simp
  constructor
  · intro hok
    split at hok
    · cases hok
    · rename_i hfind
      have hpayload : Payload heapLo brk (lo, lo + size - 1) :=
        ⟨haligned, by simp only; omega, by simp only; omega, by simp only; omega⟩
      exact ⟨by omega, hpayload, hnone.1 hfind, (Except.ok.inj hok).symm⟩
  · rintro ⟨-, -, hpairs, rfl⟩
    rw [hnone.2 hpairs]

theorem Sound.nil (heapLo brk : ℕ) : Sound heapLo brk [] where
  payload r hr := by cases hr
  pairs := .nil

theorem Sound.mono (hs : Sound heapLo brk ranges) (hbrk : brk ≤ brk') :
    Sound heapLo brk' ranges where
  payload r hr := by
    obtain ⟨haligned, hlo, hle, hhi⟩ := hs.payload r hr
    exact ⟨haligned, hlo, hle, Nat.lt_of_lt_of_le hhi hbrk⟩
  pairs := hs.pairs

theorem Sound.removeRange (hs : Sound heapLo brk ranges) (lo : ℕ) :
    Sound heapLo brk (removeRange ranges lo) where
  payload r hr := hs.payload r (List.mem_of_mem_eraseP hr)
  pairs := hs.pairs.sublist List.eraseP_sublist

/-- Two ranges of the list. -/
theorem Sound.apart (hs : Sound heapLo brk ranges) (hr : r ∈ ranges) (hq : q ∈ ranges)
    (hne : r ≠ q) : Apart r q ∨ Encloses r q ∨ Encloses q r := by
  have hsymm : Std.Symm fun r q : ℕ × ℕ => Apart r q ∨ Encloses r q ∨ Encloses q r := by
    constructor
    rintro r q (hapart | hout | hin)
    · exact .inl hapart.symm
    · exact .inr (.inr hout)
    · exact .inr (.inl hin)
  have hpairs : ranges.Pairwise fun r q => Apart r q ∨ Encloses r q ∨ Encloses q r := by
    refine hs.pairs.imp ?_
    rintro r q (hapart | hout)
    · exact .inl hapart
    · exact .inr (.inl hout)
  exact hpairs.forall hr hq hne

/-- A range with another start stays on the list. -/
theorem mem_removeRange (hr : r ∈ ranges) (hne : r.1 ≠ lo) : r ∈ removeRange ranges lo :=
  (List.mem_eraseP_of_neg (by simpa using hne)).2 hr

end Ranges

/-! ### What the approval says -/

/-- The number of bytes that are asked for. -/
def Traceop.size : Traceop → ℕ
  | alloc _ size => size
  | realloc _ size => size
  | free _ => 0

/-- The ids that are allocated after a request. -/
def Traceop.live (ids : List ℕ) : Traceop → List ℕ
  | alloc index _ => index :: ids
  | realloc _ _ => ids
  | free index => ids.filter fun i => i ≠ index

/-- `realloc` and `free` are for blocks that are allocated. -/
def Traceop.Valid (ids : List ℕ) : Traceop → Prop
  | alloc _ _ => True
  | realloc index _ => index ∈ ids
  | free index => index ∈ ids

/-- A trace that only gives back what it got, when the blocks `ids` are allocated. -/
def Valid : List ℕ → List Traceop → Prop
  | _, [] => True
  | ids, op :: ops => op.Valid ids ∧ Valid (op.live ids) ops

instance (ids : List ℕ) : (op : Traceop) → Decidable (op.Valid ids)
  | .alloc _ _ => .isTrue trivial
  | .realloc index _ => inferInstanceAs (Decidable (index ∈ ids))
  | .free index => inferInstanceAs (Decidable (index ∈ ids))

instance decidableValid : (ids : List ℕ) → (ops : List Traceop) → Decidable (Valid ids ops)
  | _, [] => .isTrue trivial
  | ids, op :: ops =>
      have := decidableValid (op.live ids) ops
      inferInstanceAs (Decidable (op.Valid ids ∧ Valid (op.live ids) ops))

theorem Valid.left {ids : List ℕ} {pre suf : List Traceop} (h : Valid ids (pre ++ suf)) :
    Valid ids pre := by
  induction pre generalizing ids with
  | nil => trivial
  | cons op pre ih => exact ⟨h.1, ih h.2⟩

/-- The range of a block of the trace. -/
def Test.payload {σ : Type} (t : Test σ) (i : ℕ) : ℕ × ℕ :=
  (t.blocks i, t.blocks i + t.blockSizes i - 1)

/-- **What the check keeps**: the blocks that are allocated have their ranges on a list that is
sound, and no two of them start at the same address. -/
structure Checked {σ : Type} (P : Package σ) (t : Test σ) (ids : List ℕ) : Prop where
  sound : Sound P.memHeapLo (P.memBrk t.heap) t.ranges
  mem : ∀ i ∈ ids, t.payload i ∈ t.ranges
  ne : ∀ i ∈ ids, ∀ j ∈ ids, i ≠ j → t.blocks i ≠ t.blocks j

/-- Pointers stay distinct when one more is remembered. -/
theorem ne_update {blocks : ℕ → ℕ} {ids : List ℕ} {index p : ℕ}
    (hne : ∀ i ∈ ids, ∀ j ∈ ids, i ≠ j → blocks i ≠ blocks j)
    (hnew : ∀ i ∈ ids, i ≠ index → p ≠ blocks i) :
    ∀ i ∈ index :: ids, ∀ j ∈ index :: ids, i ≠ j →
      Function.update blocks index p i ≠ Function.update blocks index p j := by
  intro i hi j hj hij
  by_cases hii : i = index
  · subst hii
    have hji : j ≠ i := fun heq => hij heq.symm
    rw [Function.update_self, Function.update_of_ne hji]
    exact hnew j ((List.mem_cons.1 hj).resolve_left hji) hji
  · have hold := (List.mem_cons.1 hi).resolve_left hii
    by_cases hji : j = index
    · subst hji
      rw [Function.update_self, Function.update_of_ne hii]
      exact (hnew i hold hii).symm
    · rw [Function.update_of_ne hii, Function.update_of_ne hji]
      exact hne i hold j ((List.mem_cons.1 hj).resolve_left hji) hij

section Approval

variable {σ : Type} {P : Package σ} {t t' : Test σ} {ids : List ℕ} {ops : List Traceop}
  {index size p n : ℕ}

theorem Checked.subset {ids' : List ℕ} (hc : Checked P t ids) (hsub : ∀ i ∈ ids', i ∈ ids) :
    Checked P t ids' where
  sound := hc.sound
  mem i hi := hc.mem i (hsub i hi)
  ne i hi j hj := hc.ne i (hsub i hi) j (hsub j hj)

/-- A block is received, when the others are on the list. -/
theorem receive_checked (hs : Sound P.memHeapLo (P.memBrk t.heap) t.ranges)
    (hmem : ∀ i ∈ ids, i ≠ index → t.payload i ∈ t.ranges)
    (hne : ∀ i ∈ ids, ∀ j ∈ ids, i ≠ j → t.blocks i ≠ t.blocks j)
    (hok : receive P t index size p n = .ok t') : Checked P t' (index :: ids) := by
  unfold receive at hok
  split at hok
  · cases hok
  rename_i ranges hadd
  obtain ⟨hsize, hpayload, hpairs, rfl⟩ := (addRange_spec hs).1 hadd
  split at hok
  · obtain rfl := Except.ok.inj hok
    have hother : ∀ i ∈ ids, i ≠ index → p ≠ t.blocks i := by
      intro i hi hii heq
      have hle : t.blocks i ≤ t.blocks i + t.blockSizes i - 1 :=
        (hs.payload _ (hmem i hi hii)).le
      rcases hpairs _ (hmem i hi hii) with hapart | ⟨hlo, -, -⟩
      · simp only [Apart, Test.payload] at hapart
        omega
      · simp only [Test.payload] at hlo
        omega
    refine ⟨⟨?_, .cons hpairs hs.pairs⟩, fun i hi => ?_, ne_update hne hother⟩
    · simp only [P.memBrk_memset, List.mem_cons, forall_eq_or_imp]
      exact ⟨hpayload, hs.payload⟩
    · by_cases hii : i = index
      · subst hii
        simp [Test.payload]
      · have hold := hmem i ((List.mem_cons.1 hi).resolve_left hii) hii
        simp only [Test.payload, Function.update_of_ne hii]
        exact List.mem_cons_of_mem _ hold
  · cases hok

/-- The ranges of the other blocks stay on the list when one is taken off. -/
theorem Checked.mem_removeRange (hc : Checked P t ids) (hindex : index ∈ ids) {i : ℕ}
    (hi : i ∈ ids) (hii : i ≠ index) :
    t.payload i ∈ removeRange t.ranges (t.blocks index) :=
  Mdriver.mem_removeRange (hc.mem i hi) (hc.ne i hi index hindex hii)

/-- **What one request keeps.** -/
theorem validOp_checked {op : Traceop} (hc : Checked P t ids) (hvalid : op.Valid ids)
    (hok : validOp P t op = .ok t') : Checked P t' (op.live ids) := by
  cases op with
  | alloc index size =>
      simp only [validOp] at hok
      split at hok
      · cases hok
      rename_i s p hmalloc
      split at hok
      · cases hok
      · exact receive_checked (t := { t with heap := s })
          (hc.sound.mono (P.memBrk_mmMalloc _ _ _ hmalloc)) (fun i hi _ => hc.mem i hi) hc.ne hok
  | realloc index size =>
      simp only [validOp] at hok
      split at hok
      · cases hok
      rename_i s p hrealloc
      split at hok
      · cases hok
      · have hsound := hc.sound.mono (P.memBrk_mmRealloc _ _ _ _ hrealloc)
        refine (receive_checked
          (t := { t with heap := s, ranges := removeRange t.ranges (t.blocks index) })
          (hsound.removeRange _) (fun i hi hii => hc.mem_removeRange hvalid hi hii) hc.ne
          hok).subset fun i hi => ?_
        exact List.mem_cons_of_mem _ hi
  | free index =>
      obtain rfl := Except.ok.inj hok
      have hkept : ∀ i ∈ (Traceop.free index).live ids, i ∈ ids ∧ i ≠ index := fun i hi =>
        ⟨(List.mem_filter.1 hi).1, of_decide_eq_true (List.mem_filter.1 hi).2⟩
      refine ⟨(hc.sound.mono (P.memBrk_mmFree _ _)).removeRange _, fun i hi => ?_,
        fun i hi j hj => hc.ne i (hkept i hi).1 j (hkept j hj).1⟩
      exact hc.mem_removeRange hvalid (hkept i hi).1 (hkept i hi).2

/-- **What some requests keep.** -/
theorem validOps_checked {k : ℕ} (hc : Checked P t ids) (hvalid : Valid ids ops)
    (hok : validOps P k t ops = .ok t') : Checked P t' (ops.foldl Traceop.live ids) := by
  induction ops generalizing t ids k with
  | nil =>
      obtain rfl := Except.ok.inj hok
      exact hc
  | cons op ops ih =>
      rw [validOps] at hok
      split at hok
      · cases hok
      · rename_i t₁ hop
        exact ih (validOp_checked hc hvalid.1 hop) hvalid.2 hok

/-- A run that passes has passed after every number of requests. -/
theorem validOps_append {k : ℕ} {pre suf : List Traceop}
    (hok : validOps P k t (pre ++ suf) = .ok t') :
    ∃ t₁, validOps P k t pre = .ok t₁ := by
  induction pre generalizing t k with
  | nil => exact ⟨t, rfl⟩
  | cons op pre ih =>
      rw [List.cons_append, validOps] at hok
      rw [validOps]
      split at hok
      · cases hok
      · exact ih hok

/-- The state that the requests start from. -/
theorem checked_start (h : σ) (t : Test σ) : Checked P { t with heap := h, ranges := [] } [] where
  sound := .nil _ _
  mem i hi := by cases hi
  ne i hi := by cases hi

/-- **The approval of the driver**: at every point of an accepted run the payloads that are
allocated are aligned and inside of the heap, and of any two of them either they have no address in
common or one encloses the other. -/
theorem evalMmValid_sound {pre suf : List Traceop} (hvalid : Valid [] (pre ++ suf))
    (hok : evalMmValid P t (pre ++ suf) = .ok t') :
    ∃ t₁, evalMmValid P t pre = .ok t₁ ∧ ∀ i ∈ pre.foldl Traceop.live [],
      Payload P.memHeapLo (P.memBrk t₁.heap) (t₁.payload i) ∧
        ∀ j ∈ pre.foldl Traceop.live [], i ≠ j → Apart (t₁.payload i) (t₁.payload j) ∨
          Encloses (t₁.payload i) (t₁.payload j) ∨ Encloses (t₁.payload j) (t₁.payload i) := by
  unfold evalMmValid at hok ⊢
  simp only at hok ⊢
  split at hok
  · cases hok
  rename_i hinit
  obtain ⟨t₁, hpre⟩ := validOps_append hok
  have hc := validOps_checked (checked_start _ t) hvalid.left hpre
  refine ⟨t₁, ?_, fun i hi => ⟨hc.sound.payload _ (hc.mem i hi), fun j hj hij => ?_⟩⟩
  · rw [if_neg hinit]
    exact hpre
  · refine hc.sound.apart (hc.mem i hi) (hc.mem j hj) fun heq => ?_
    exact hc.ne i hi j hj hij (congrArg Prod.fst heq)

/-- A package that hands out a short block and then a long one around it. -/
def nested : Package ℕ where
  memHeapLo := 0
  memBrk _ := 64
  memResetBrk _ := 0
  byte _ _ := 0
  memset s _ _ _ := s
  mmInit s := (s, 0)
  mmMalloc s _ := some (s + 1, if s = 0 then 16 else 8)
  mmFree s _ := s
  mmRealloc s _ _ := some (s, 0)
  memBrk_memset _ _ _ _ := rfl
  memBrk_mmMalloc _ _ _ _ := Nat.le_refl _
  memBrk_mmFree _ _ := Nat.le_refl _
  memBrk_mmRealloc _ _ _ _ _ := Nat.le_refl _

/-- The driver approves of that package: its two payloads are `[16, 23]` and `[8, 39]`. -/
theorem evalMmValid_sound_nested : ∃ t₁,
    evalMmValid nested ⟨0, [], fun _ => 0, fun _ => 0⟩ [.alloc 0 8, .alloc 1 32] = .ok t₁ ∧
      t₁.payload 0 = (16, 23) ∧ t₁.payload 1 = (8, 39) ∧
      (Apart (t₁.payload 0) (t₁.payload 1) ∨ Encloses (t₁.payload 0) (t₁.payload 1) ∨
        Encloses (t₁.payload 1) (t₁.payload 0)) := by
  obtain ⟨t', hok, h₀, h₁⟩ : ∃ t', evalMmValid nested ⟨0, [], fun _ => 0, fun _ => 0⟩
      [.alloc 0 8, .alloc 1 32] = .ok t' ∧ t'.payload 0 = (16, 23) ∧ t'.payload 1 = (8, 39) :=
    ⟨_, rfl, rfl, rfl⟩
  have hvalid : Valid [] ([.alloc 0 8, .alloc 1 32] ++ []) := by decide
  obtain ⟨t₁, hpre, hlive⟩ := evalMmValid_sound hvalid hok
  obtain rfl : t₁ = t' := Except.ok.inj (hpre.symm.trans hok)
  exact ⟨t₁, hpre, h₀, h₁, (hlive 0 (by decide)).2 1 (by decide) (by decide)⟩

end Approval

end Mdriver
