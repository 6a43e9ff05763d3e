/-
**What the kernels do to the rest of memory, and what they read of `B`.**

`TransKernels` shows where the cells of the matrices end up.  Two things are left open there.
One is the rest of memory: a kernel changes a cell only by writing to it, so that two kernels that
transpose a shape leave the same memory behind, whatever the order of their writes.  The other is
the old contents of `B`: `trans_64x64` reads cells of `B`, and here it is shown that it has written
each of them before, so that what stood in `B` never reaches the result.

Main definitions:

* `Transpose.Kept` — what was not written is as it was;
* `Transpose.OwnReads` — every cell of `B` that was read had been written before;
* `Transpose.Filled` — cells that have been written, in a run that reads only such cells;
* `Transpose.isTranspose` — the check at the end of `trans.c`.

Main results:

* `Transpose.Transposes.mem_eq` — two runs that transpose leave the same memory;
* `Transpose.Transposes.isTranspose` — the check accepts what they leave;
* `Transpose.trans64x64_exact` — `trans_64x64` is an exact transpose;
* `Transpose.blocked_exact` — so are `trans_61x67` and `trans_32x32` on their shapes.
-/

import CsappLab.TransKernels

set_option relaxedAutoImplicit false
set_option autoImplicit false

namespace Transpose

open Loop

/-! ### The check -/

/-- `is_transpose`. -/
def isTranspose (L : Layout) (s : State) : Bool :=
  (List.range L.N).all fun i => (List.range L.M).all fun j => s.cellA L i j == s.cellB L j i

theorem isTranspose_iff (L : Layout) (s : State) :
    isTranspose L s = true ↔ ∀ i < L.N, ∀ j < L.M, s.cellA L i j = s.cellB L j i := by
  simp [isTranspose]

/-- The check accepts what a transpose function leaves. -/
theorem Transposes.isTranspose {L : Layout} {s s' : State} (h : Transposes L s s') :
    isTranspose L s' = true := by
  rw [isTranspose_iff]
  intro i hi j hj
  rw [h.matrixA i j hi hj, h.matrixB i j hi hj]

/-! ### What every kernel keeps -/

/-- A property of states that no access destroys. -/
structure Stable (L : Layout) (P : State → Prop) : Prop where
  readA : ∀ s i j, P s → P (readA L i j s).2
  readB : ∀ s j i, P s → P (readB L j i s).2
  writeB : ∀ s j i v, P s → P (writeB L j i v s)

namespace Stable

variable {L : Layout} {P : State → Prop} {s : State}

theorem copyCell (hP : Stable L P) (i j : ℕ) (hs : P s) : P (copyCell L i j s) :=
  hP.writeB _ _ _ _ (hP.readA _ _ _ hs)

theorem trans (hP : Stable L P) (hs : P s) : P (trans L s) :=
  forLoop_keeps (fun i _ _ _ => forLoop_keeps fun j _ _ _ => hP.copyCell i j) hs

theorem row32 (hP : Stable L P) (row col i : ℕ) (hs : P s) : P (row32 L row col i s) := by
  have hline : P (forLoop col (col + 8) 1
      (fun j s => if i ≠ j then Transpose.copyCell L i j s else s) s) := by
    refine forLoop_keeps (fun j s _ _ hs => ?_) hs
    split
    · exact hP.copyCell i j hs
    · exact hs
  rw [Transpose.row32]
  split
  · exact hP.copyCell i i hline
  · exact hline

theorem trans32x32 (hP : Stable L P) (hs : P s) : P (trans32x32 L s) :=
  forLoop_keeps (fun row _ _ _ => forLoop_keeps fun col _ _ _ =>
    forLoop_keeps fun i _ _ _ => hP.row32 row col i) hs

theorem quad61 (hP : Stable L P) (col i j : ℕ) (hs : P s) : P (quad61 L col i j s) := by
  have hcopy : ∀ (c : Prop) [Decidable c] (j : ℕ) (s : State), P s →
      P (if c then Transpose.copyCell L i j s else s) := by
    intro c _ j s hs
    split
    · exact hP.copyCell i j hs
    · exact hs
  exact hcopy _ _ _ (hcopy _ _ _ (hcopy _ _ _ (hP.copyCell i j hs)))

theorem trans61x67 (hP : Stable L P) (hs : P s) : P (trans61x67 L s) :=
  forLoop_keeps (fun _ _ _ _ => forLoop_keeps fun col _ _ _ =>
    forLoop_keeps fun i _ _ _ => forLoop_keeps fun j _ _ _ => hP.quad61 col i j) hs

theorem parkRow (hP : Stable L P) (j k : ℕ) (hs : P s) : P (parkRow L j k s) := by
  simp only [Transpose.parkRow]
  iterate 8 apply hP.writeB
  iterate 8 apply hP.readA
  exact hs

theorem moveRow (hP : Stable L P) (i k : ℕ) (hs : P s) : P (moveRow L i k s) := by
  simp only [Transpose.moveRow]
  iterate 8 apply hP.writeB
  iterate 4 apply hP.readA
  iterate 4 apply hP.readB
  exact hs

theorem lastRow (hP : Stable L P) (j k : ℕ) (hs : P s) : P (lastRow L j k s) := by
  simp only [Transpose.lastRow]
  iterate 4 apply hP.writeB
  iterate 4 apply hP.readA
  exact hs

theorem trans64x64 (hP : Stable L P) (hs : P s) : P (trans64x64 L s) :=
  forLoop_keeps (fun i _ _ _ => forLoop_keeps fun j _ _ _ hs =>
    forLoop_keeps (fun k _ _ _ => hP.lastRow j k)
      (forLoop_keeps (fun k _ _ _ => hP.moveRow i k)
        (forLoop_keeps (fun k _ _ _ => hP.parkRow j k) hs))) hs

end Stable

/-- **What was not written is as it was.** -/
def Kept (L : Layout) (s₀ s : State) : Prop :=
  ∀ p, (∀ j i, .writeB j i ∈ s.log → p ≠ L.b + (j * L.N + i)) → s.mem p = s₀.mem p

theorem kept_refl (L : Layout) (s : State) : Kept L s s := fun _ _ => rfl

theorem kept_stable (L : Layout) (s₀ : State) : Stable L (Kept L s₀) where
  readA s i j hs p hp := hs p fun j i hmem => hp j i (List.mem_cons_of_mem _ hmem)
  readB s j i hs p hp := hs p fun j i hmem => hp j i (List.mem_cons_of_mem _ hmem)
  writeB s j i v hs p hp := by
    rw [mem_writeB, Function.update_of_ne (hp j i (List.mem_cons_self ..))]
    exact hs p fun j i hmem => hp j i (List.mem_cons_of_mem _ hmem)

/-- What a transpose function leaves at any address: a cell of `B` holds its cell of `A`, and
everything else is as it was. -/
theorem Transposes.mem_of_kept {L : Layout} {s s' : State} (h : Transposes L s s')
    (hk : Kept L s s') (p : ℕ) :
    (∀ i j, i < L.N → j < L.M → p = L.b + (j * L.N + i) → s'.mem p = s.cellA L i j) ∧
      ((∀ i j, i < L.N → j < L.M → p ≠ L.b + (j * L.N + i)) → s'.mem p = s.mem p) := by
  refine ⟨?_, fun hp => hk p fun j i hmem => ?_⟩
  · rintro i j hi hj rfl
    exact h.matrixB i j hi hj
  · have hin := h.inBounds _ hmem
    exact hp i j hin.2 hin.1

/-- **Two runs that transpose leave the same memory.** -/
theorem Transposes.mem_eq {L : Layout} {s s₁ s₂ : State} (h₁ : Transposes L s s₁)
    (hk₁ : Kept L s s₁) (h₂ : Transposes L s s₂) (hk₂ : Kept L s s₂) : s₁.mem = s₂.mem := by
  funext p
  have hp₁ := h₁.mem_of_kept hk₁ p
  have hp₂ := h₂.mem_of_kept hk₂ p
  by_cases hcell : ∃ i j, i < L.N ∧ j < L.M ∧ p = L.b + (j * L.N + i)
  · obtain ⟨i, j, hi, hj, hp⟩ := hcell
    rw [hp₁.1 i j hi hj hp, hp₂.1 i j hi hj hp]
  · have hout : ∀ i j, i < L.N → j < L.M → p ≠ L.b + (j * L.N + i) :=
      fun i j hi hj hp => hcell ⟨i, j, hi, hj, hp⟩
    rw [hp₁.2 hout, hp₂.2 hout]

/-! ### Reading only what was written -/

/-- **Every cell of `B` that was read had been written before.**  The log is latest first. -/
def OwnReads : List Access → Prop
  | [] => True
  | .readA _ _ :: log => OwnReads log
  | .readB j i :: log => .writeB j i ∈ log ∧ OwnReads log
  | .writeB _ _ :: log => OwnReads log

/-- The cells in `done` have been written, in a run that read only such cells. -/
structure Filled (done : ℕ → ℕ → Prop) (s : State) : Prop where
  own : OwnReads s.log
  written : ∀ j i, done j i → .writeB j i ∈ s.log

namespace Filled

variable {L : Layout} {done done' : ℕ → ℕ → Prop} {s : State}

theorem mono (h : Filled done s) (hle : ∀ j i, done' j i → done j i) : Filled done' s where
  own := h.own
  written j i hd := h.written j i (hle j i hd)

theorem readA (h : Filled done s) (i j : ℕ) : Filled done (readA L i j s).2 where
  own := h.own
  written j' i' hd := List.mem_cons_of_mem _ (h.written j' i' hd)

/-- A cell that has been written may be read. -/
theorem readB (h : Filled done s) {j i : ℕ} (hd : done j i) : Filled done (readB L j i s).2 where
  own := ⟨h.written j i hd, h.own⟩
  written j' i' hd' := List.mem_cons_of_mem _ (h.written j' i' hd')

theorem writeB (h : Filled done s) (j i : ℕ) (v : ℤ) :
    Filled (fun j' i' => done j' i' ∨ j' = j ∧ i' = i) (writeB L j i v s) where
  own := h.own
  written j' i' hd := by
    rcases hd with hd | ⟨rfl, rfl⟩
    · exact List.mem_cons_of_mem _ (h.written j' i' hd)
    · exact List.mem_cons_self ..

/-- A write where nothing is to be remembered. -/
theorem overwrite (h : Filled done s) (j i : ℕ) (v : ℤ) :
    Filled done (Transpose.writeB L j i v s) :=
  (h.writeB j i v).mono fun _ _ => .inl

/-- `parkRow` writes the four cells that `moveRow` will look for. -/
theorem parkRow (h : Filled done s) (j k : ℕ) :
    Filled (fun r c => done r c ∨ j ≤ r ∧ r < j + 4 ∧ c = k + 4) (parkRow L j k s) := by
  simp only [Transpose.parkRow]
  have hwrites : ∀ {s : State} (v₄ v₅ v₆ v₇ : ℤ), Filled done s →
      Filled (fun r c => done r c ∨ j ≤ r ∧ r < j + 4 ∧ c = k + 4)
        (Transpose.writeB L (j + 3) (k + 4) v₇ (Transpose.writeB L (j + 2) (k + 4) v₆
          (Transpose.writeB L (j + 1) (k + 4) v₅ (Transpose.writeB L (j + 0) (k + 4) v₄ s)))) := by
    intro s v₄ v₅ v₆ v₇ hs
    refine ((((hs.writeB (j + 0) (k + 4) v₄).writeB (j + 1) (k + 4) v₅).writeB (j + 2) (k + 4)
      v₆).writeB (j + 3) (k + 4) v₇).mono fun r c hd => ?_
    rcases hd with hd | ⟨hle, hlt, rfl⟩
    · exact .inl (.inl (.inl (.inl hd)))
    · have hrow : r = j + 0 ∨ r = j + 1 ∨ r = j + 2 ∨ r = j + 3 := by omega
      tauto
  apply hwrites
  iterate 4 apply overwrite
  iterate 8 apply Filled.readA
  exact h

/-- `moveRow` reads four cells, which must have been written. -/
theorem moveRow (h : Filled done s) {i k : ℕ} (hd : ∀ c, i + 4 ≤ c → c < i + 8 → done k c) :
    Filled done (moveRow L i k s) := by
  simp only [Transpose.moveRow]
  iterate 8 apply overwrite
  iterate 4 apply Filled.readA
  have h4 := h.readB (L := L) (hd (i + 4) (by omega) (by omega))
  have h5 := h4.readB (L := L) (hd (i + 5) (by omega) (by omega))
  have h6 := h5.readB (L := L) (hd (i + 6) (by omega) (by omega))
  exact h6.readB (hd (i + 7) (by omega) (by omega))

theorem lastRow (h : Filled done s) (j k : ℕ) : Filled done (lastRow L j k s) := by
  simp only [Transpose.lastRow]
  iterate 4 apply overwrite
  iterate 4 apply Filled.readA
  exact h

/-- A block: its second loop reads the upper right quarter, which its first loop has filled. -/
theorem block64 (h : Filled done s) (i j : ℕ) : Filled done (block64 L i j s) := by
  have hpark : Filled (fun r c => done r c ∨ j ≤ r ∧ r < j + 4 ∧ i + 4 ≤ c ∧ c < i + 4 + 4)
      (forLoop i (i + 4) 1 (Transpose.parkRow L j) s) := by
    refine forLoop_inv_one
      (fun k s => Filled (fun r c => done r c ∨ j ≤ r ∧ r < j + 4 ∧ i + 4 ≤ c ∧ c < k + 4) s)
      (Nat.le_add_right i 4) (h.mono fun r c hd => ?_) fun k s hk hk4 hs => ?_
    · exact hd.resolve_right (by omega)
    · refine (hs.parkRow j k).mono fun r c hd => ?_
      rcases hd with hd | hd
      · exact .inl (.inl hd)
      · have hcol : c < k + 4 ∨ c = k + 4 := by omega
        tauto
  have hmove : Filled (fun r c => done r c ∨ j ≤ r ∧ r < j + 4 ∧ i + 4 ≤ c ∧ c < i + 4 + 4)
      (forLoop j (j + 4) 1 (Transpose.moveRow L i)
        (forLoop i (i + 4) 1 (Transpose.parkRow L j) s)) :=
    forLoop_keeps (fun k s hk hk4 hs => hs.moveRow fun c hc hc8 => .inr ⟨hk, hk4, hc, hc8⟩) hpark
  have hlast : Filled (fun r c => done r c ∨ j ≤ r ∧ r < j + 4 ∧ i + 4 ≤ c ∧ c < i + 4 + 4)
      (Transpose.block64 L i j s) :=
    forLoop_keeps (fun k s _ _ hs => hs.lastRow j k) hmove
  exact hlast.mono fun _ _ => .inl

end Filled

/-- `trans_64x64` reads no cell of `B` that it has not written, whatever the shape. -/
theorem trans64x64_ownReads (L : Layout) (mem : ℕ → ℤ) :
    OwnReads (trans64x64 L (State.start mem)).log := by
  have hstart : Filled (fun _ _ => False) (State.start mem) := ⟨trivial, fun _ _ hd => hd.elim⟩
  have hrun : Filled (fun _ _ => False) (trans64x64 L (State.start mem)) :=
    forLoop_keeps (fun i _ _ _ => forLoop_keeps fun j _ _ _ hs => hs.block64 i j) hstart
  exact hrun.own

/-- **`trans_64x64` is an exact transpose**: on a `64` by `64` matrix it transposes, reads no cell
of `B` before it has written it, and leaves what `trans` leaves. -/
theorem trans64x64_exact (L : Layout) (mem : ℕ → ℤ) (hM : L.M = 64) (hN : L.N = 64) :
    Transposes L (State.start mem) (trans64x64 L (State.start mem)) ∧
      OwnReads (trans64x64 L (State.start mem)).log ∧
      (trans64x64 L (State.start mem)).mem = (trans L (State.start mem)).mem ∧
      isTranspose L (trans64x64 L (State.start mem)) = true := by
  have h := trans64x64_transposes L mem hM hN
  have hkept := kept_stable L (State.start mem)
  have hstart := kept_refl L (State.start mem)
  exact ⟨h, trans64x64_ownReads L mem, h.mem_eq (hkept.trans64x64 hstart) (trans_transposes L mem)
    (hkept.trans hstart), h.isTranspose⟩

/-- A `64` by `64` matrix `A` right before `B`. -/
def squareLayout : Layout where
  M := 64
  N := 64
  a := 0
  b := 4096
  disjoint := .inl (by decide)

theorem trans64x64_exact_square :
    Transposes squareLayout (State.start fun p => p)
        (trans64x64 squareLayout (State.start fun p => p)) ∧
      OwnReads (trans64x64 squareLayout (State.start fun p => p)).log := by
  have h := trans64x64_exact squareLayout (fun p => p) rfl rfl
  exact ⟨h.1, h.2.1⟩

/-! ### The blocked kernels -/

/-- `trans_61x67` and `trans_32x32` transpose the shapes they accept, and do what `trans` does; no
counter overflows, since they are natural numbers here. -/
theorem blocked_exact (L : Layout) (mem : ℕ → ℤ) :
    (Transposes L (State.start mem) (trans61x67 L (State.start mem)) ∧
      (trans61x67 L (State.start mem)).mem = (trans L (State.start mem)).mem) ∧
    (L.M % 8 = 0 → L.N % 8 = 0 →
      Transposes L (State.start mem) (trans32x32 L (State.start mem)) ∧
        (trans32x32 L (State.start mem)).mem = (trans L (State.start mem)).mem) := by
  have hkept := kept_stable L (State.start mem)
  have hstart := kept_refl L (State.start mem)
  have htrans := trans_transposes L mem
  refine ⟨?_, fun hM hN => ?_⟩
  · have h := trans61x67_transposes L mem
    exact ⟨h, h.mem_eq (hkept.trans61x67 hstart) htrans (hkept.trans hstart)⟩
  · have h := trans32x32_transposes L mem hM hN
    exact ⟨h, h.mem_eq (hkept.trans32x32 hstart) htrans (hkept.trans hstart)⟩

/-- A wide matrix of `8` rows and `16` columns, in front of its transpose. -/
def wideLayout : Layout where
  M := 16
  N := 8
  a := 0
  b := 128
  disjoint := .inl (by decide)

theorem blocked_exact_wide :
    Transposes wideLayout (State.start fun p => p)
        (trans32x32 wideLayout (State.start fun p => p)) ∧
      (trans32x32 wideLayout (State.start fun p => p)).mem =
        (trans wideLayout (State.start fun p => p)).mem :=
  (blocked_exact wideLayout fun p => p).2 rfl rfl

end Transpose
