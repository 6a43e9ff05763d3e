/-
**The transpose kernels are correct on their own shapes.**

Three of the kernels only copy cells, in some order; for them it is enough to know which cells
have been copied.  `trans_64x64` parks cells of a block in the wrong quarter of `B` and moves them
later, so its proof follows every cell of `B` through the three loops of a block.

Main definitions:

* `Transpose.Copied` — a set of cells has been copied, and nothing went wrong;
* `Transpose.Placed` — what stands in `B` while `trans_64x64` works on a block.

Main results:

* `Transpose.trans_transposes` — `trans`, for every shape;
* `Transpose.trans32x32_transposes` — `trans_32x32`, for multiples of eight;
* `Transpose.trans61x67_transposes` — `trans_61x67`, for every shape;
* `Transpose.trans64x64_transposes` — `trans_64x64`, for `64` by `64`;
* `Transpose.trans64x64_leaves` — it leaves every matrix with fewer columns.
-/

import CsappLab.TransModel
import Mathlib.Tactic.IntervalCases

set_option relaxedAutoImplicit false
set_option autoImplicit false

namespace Transpose

open Loop

/-! ### Cells -/

theorem cell_lt {m n i j : ℕ} (hi : i < n) (hj : j < m) : i * m + j < n * m := by
  calc i * m + j < i * m + m := Nat.add_lt_add_left hj _
    _ = (i + 1) * m := by rw [Nat.add_mul, Nat.one_mul]
    _ ≤ n * m := Nat.mul_le_mul_right m hi

theorem cell_inj {m i j i' j' : ℕ} (hj : j < m) (hj' : j' < m) (h : i * m + j = i' * m + j') :
    i = i' ∧ j = j' := by
  have hm : 0 < m := by omega
  have hdiv := congrArg (· / m) h
  have hmod := congrArg (· % m) h
  simp only [Nat.mul_comm _ m, Nat.mul_add_div hm, Nat.div_eq_of_lt hj, Nat.div_eq_of_lt hj',
    Nat.mul_add_mod, Nat.mod_eq_of_lt hj, Nat.mod_eq_of_lt hj'] at hdiv hmod
  exact ⟨by omega, hmod⟩

theorem mem_writeB (L : Layout) (s : State) (j i : ℕ) (v : ℤ) :
    (writeB L j i v s).mem = Function.update s.mem (L.b + (j * L.N + i)) v := rfl

/-- A write changes the cell it names and no other. -/
theorem cellB_writeB {L : Layout} {s : State} {j i j' i' : ℕ} {v : ℤ} (hi : i < L.N)
    (hi' : i' < L.N) :
    (writeB L j i v s).cellB L j' i' = if j' = j ∧ i' = i then v else s.cellB L j' i' := by
  rw [State.cellB, mem_writeB, Function.update_apply]
  by_cases h : j' = j ∧ i' = i
  · rw [if_pos h, if_pos (by rw [h.1, h.2])]
  · rw [if_neg h, if_neg]
    · rfl
    · intro heq
      exact h (cell_inj hi' hi (Nat.add_left_cancel heq))

/-- A write to a cell of `B` does not reach `A`. -/
theorem cellA_writeB {L : Layout} {s : State} {j i j' i' : ℕ} {v : ℤ} (hj : j < L.M) (hi : i < L.N)
    (hi' : i' < L.N) (hj' : j' < L.M) :
    (writeB L j i v s).cellA L i' j' = s.cellA L i' j' := by
  have h1 := cell_lt hi' hj'
  have h2 := cell_lt hj hi
  have hdis := L.disjoint
  rw [State.cellA, mem_writeB, Function.update_apply, if_neg (by omega)]
  rfl

@[simp] theorem cellA_readA (L : Layout) (s : State) (i j i' j' : ℕ) :
    (readA L i j s).2.cellA L i' j' = s.cellA L i' j' := rfl

@[simp] theorem cellB_readA (L : Layout) (s : State) (i j i' j' : ℕ) :
    (readA L i j s).2.cellB L j' i' = s.cellB L j' i' := rfl

@[simp] theorem cellA_readB (L : Layout) (s : State) (i j i' j' : ℕ) :
    (readB L j i s).2.cellA L i' j' = s.cellA L i' j' := rfl

@[simp] theorem cellB_readB (L : Layout) (s : State) (i j i' j' : ℕ) :
    (readB L j i s).2.cellB L j' i' = s.cellB L j' i' := rfl

@[simp] theorem readA_fst (L : Layout) (s : State) (i j : ℕ) :
    (readA L i j s).1 = s.cellA L i j := rfl

@[simp] theorem readB_fst (L : Layout) (s : State) (i j : ℕ) :
    (readB L j i s).1 = s.cellB L j i := rfl

/-! ### The log -/

@[simp] theorem logged_readA (L : Layout) (s : State) (i j : ℕ) (ok : Access → Prop) :
    (readA L i j s).2.Logged ok ↔ ok (.readA i j) ∧ s.Logged ok := by
  simp [State.Logged, readA]

@[simp] theorem logged_readB (L : Layout) (s : State) (i j : ℕ) (ok : Access → Prop) :
    (readB L j i s).2.Logged ok ↔ ok (.readB j i) ∧ s.Logged ok := by
  simp [State.Logged, readB]

@[simp] theorem logged_writeB (L : Layout) (s : State) (i j : ℕ) (v : ℤ) (ok : Access → Prop) :
    (writeB L j i v s).Logged ok ↔ ok (.writeB j i) ∧ s.Logged ok := by
  simp [State.Logged, writeB]

/-! ### Kernels that copy -/

/-- **The cells in `done` have been copied**, from a run that started in `s₀`. -/
structure Copied (L : Layout) (s₀ : State) (done : ℕ → ℕ → Prop) (s : State) : Prop where
  inBounds : s.Logged (InBounds L)
  matrixA : ∀ i j, i < L.N → j < L.M → s.cellA L i j = s₀.cellA L i j
  matrixB : ∀ i j, i < L.N → j < L.M → done i j → s.cellB L j i = s₀.cellA L i j

theorem copied_start (L : Layout) (mem : ℕ → ℤ) (done : ℕ → ℕ → Prop) (h : ∀ i j, ¬ done i j) :
    Copied L (State.start mem) done (State.start mem) where
  inBounds x hx := by cases hx
  matrixA _ _ _ _ := rfl
  matrixB i j _ _ hd := absurd hd (h i j)

theorem Copied.mono {L : Layout} {s₀ s : State} {done done' : ℕ → ℕ → Prop}
    (h : Copied L s₀ done s) (hle : ∀ i j, i < L.N → j < L.M → done' i j → done i j) :
    Copied L s₀ done' s where
  inBounds := h.inBounds
  matrixA := h.matrixA
  matrixB i j hi hj hd := h.matrixB i j hi hj (hle i j hi hj hd)

theorem Copied.transposes {L : Layout} {s₀ s : State} {done : ℕ → ℕ → Prop}
    (h : Copied L s₀ done s) (hall : ∀ i j, i < L.N → j < L.M → done i j) :
    Transposes L s₀ s where
  inBounds := h.inBounds
  matrixA := h.matrixA
  matrixB i j hi hj := h.matrixB i j hi hj (hall i j hi hj)

/-- Copying one cell. -/
theorem Copied.copyCell {L : Layout} {s₀ s : State} {done : ℕ → ℕ → Prop} {i j : ℕ}
    (h : Copied L s₀ done s) (hi : i < L.N) (hj : j < L.M) :
    Copied L s₀ (fun i' j' => done i' j' ∨ i' = i ∧ j' = j) (copyCell L i j s) where
  inBounds := by
    simp only [Transpose.copyCell, logged_writeB, logged_readA]
    exact ⟨⟨hj, hi⟩, ⟨hi, hj⟩, h.inBounds⟩
  matrixA i' j' hi' hj' := by
    simp only [Transpose.copyCell]
    rw [cellA_writeB hj hi hi' hj', cellA_readA]
    exact h.matrixA i' j' hi' hj'
  matrixB i' j' hi' hj' hd := by
    simp only [Transpose.copyCell]
    rw [cellB_writeB hi hi', readA_fst, cellB_readA, h.matrixA i j hi hj]
    split
    · rename_i heq
      rw [heq.1, heq.2]
    · rename_i hne
      rcases hd with hd | ⟨rfl, rfl⟩
      · exact h.matrixB i' j' hi' hj' hd
      · exact absurd ⟨rfl, rfl⟩ hne

/-- `trans` transposes every shape. -/
theorem trans_transposes (L : Layout) (mem : ℕ → ℤ) :
    Transposes L (State.start mem) (trans L (State.start mem)) := by
  have hrun : Copied L (State.start mem) (fun i _ => i < L.N) (trans L (State.start mem)) := by
    refine forLoop_inv_one (fun i s => Copied L (State.start mem) (fun i' _ => i' < i) s)
      (Nat.zero_le _) (copied_start L mem _ fun _ _ => by omega) fun i s _ hi hs => ?_
    have hrow : Copied L (State.start mem) (fun i' j' => i' < i ∨ i' = i ∧ j' < L.M)
        (forLoop 0 L.M 1 (fun j s => Transpose.copyCell L i j s) s) :=
      forLoop_inv_one
        (fun j s => Copied L (State.start mem) (fun i' j' => i' < i ∨ i' = i ∧ j' < j) s)
        (Nat.zero_le _) (hs.mono fun i' j' _ _ hd => by omega) fun j s _ hj hs =>
          (hs.copyCell hi hj).mono fun i' j' _ _ hd => by omega
    exact hrow.mono fun i' j' _ hj' hd => by omega
  exact hrun.transposes fun i j hi _ => hi

/-- A row of a block of `trans_32x32`. -/
theorem Copied.row32 {L : Layout} {s₀ s : State} {done : ℕ → ℕ → Prop} {row col i : ℕ}
    (hrow : row % 8 = 0) (hcol : col % 8 = 0) (hi : row ≤ i) (hi8 : i < row + 8)
    (hN : row + 8 ≤ L.N) (hM : col + 8 ≤ L.M) (h : Copied L s₀ done s) :
    Copied L s₀ (fun i' j' => done i' j' ∨ i' = i ∧ col ≤ j' ∧ j' < col + 8)
      (row32 L row col i s) := by
  have hline : Copied L s₀ (fun i' j' => done i' j' ∨ i' = i ∧ col ≤ j' ∧ j' < col + 8 ∧ i' ≠ j')
      (forLoop col (col + 8) 1 (fun j s => if i ≠ j then Transpose.copyCell L i j s else s) s) := by
    refine forLoop_inv_one
      (fun j s => Copied L s₀ (fun i' j' => done i' j' ∨ i' = i ∧ col ≤ j' ∧ j' < j ∧ i' ≠ j') s)
      (Nat.le_add_right col 8) (h.mono fun i' j' _ _ hd => ?_) fun j s hj hj8 hs => ?_
    · rcases hd with hd | hd
      · exact hd
      · omega
    · split
      · refine (hs.copyCell (i := i) (j := j) (by omega) (by omega)).mono fun i' j' _ _ hd => ?_
        rcases hd with hd | hd
        · exact .inl (.inl hd)
        · omega
      · refine hs.mono fun i' j' _ _ hd => ?_
        rcases hd with hd | hd
        · exact .inl hd
        · omega
  rw [Transpose.row32]
  split
  · refine (hline.copyCell (i := i) (j := i) (by omega) (by omega)).mono fun i' j' _ _ hd => ?_
    rcases hd with hd | hd
    · exact .inl (.inl hd)
    · omega
  · -- off the diagonal no cell was left out
    refine hline.mono fun i' j' _ _ hd => ?_
    rcases hd with hd | hd
    · exact .inl hd
    · omega

/-- `trans_32x32` transposes the shapes that are multiples of eight. -/
theorem trans32x32_transposes (L : Layout) (mem : ℕ → ℤ) (hM : L.M % 8 = 0) (hN : L.N % 8 = 0) :
    Transposes L (State.start mem) (trans32x32 L (State.start mem)) := by
  have hrun : ∃ row, L.N ≤ row ∧ (row < L.N + 8 ∨ row = 0) ∧ row % 8 = 0 ∧
      Copied L (State.start mem) (fun i' _ => i' < row) (trans32x32 L (State.start mem)) := by
    refine forLoop_inv
      (fun row s => row % 8 = 0 ∧ Copied L (State.start mem) (fun i' _ => i' < row) s)
      (by decide) ⟨rfl, copied_start L mem _ fun _ _ => by omega⟩ ?_
    intro row s _ hlt ⟨hrow, hs⟩
    have hline : ∃ col, L.M ≤ col ∧ (col < L.M + 8 ∨ col = 0) ∧ col % 8 = 0 ∧
        Copied L (State.start mem) (fun i' j' => i' < row ∨ i' < row + 8 ∧ j' < col)
          (forLoop 0 L.M 8 (fun col => forLoop row (row + 8) 1 (row32 L row col)) s) := by
      refine forLoop_inv (fun col s => col % 8 = 0 ∧
        Copied L (State.start mem) (fun i' j' => i' < row ∨ i' < row + 8 ∧ j' < col) s)
        (by decide) ⟨rfl, hs.mono fun i' j' _ _ hd => by omega⟩ ?_
      intro col s _ hlt' ⟨hcol, hs⟩
      have hblock : Copied L (State.start mem) (fun i' j' => i' < row ∨ i' < row + 8 ∧ j' < col ∨
          i' < row + 8 ∧ col ≤ j' ∧ j' < col + 8)
          (forLoop row (row + 8) 1 (row32 L row col) s) := by
        refine forLoop_inv_one (fun i s => Copied L (State.start mem)
          (fun i' j' => i' < row ∨ i' < row + 8 ∧ j' < col ∨ i' < i ∧ col ≤ j' ∧ j' < col + 8) s)
          (Nat.le_add_right row 8) (hs.mono fun i' j' _ _ hd => by omega) fun i s hi hi8 hs => ?_
        exact (hs.row32 hrow hcol hi hi8 (by omega) (by omega)).mono fun i' j' _ _ hd => by omega
      exact ⟨by omega, hblock.mono fun i' j' _ _ hd => by omega⟩
    obtain ⟨col, hcol, -, -, hline⟩ := hline
    exact ⟨by omega, hline.mono fun i' j' _ hj' hd => by omega⟩
  obtain ⟨row, hrow, -, -, hrun⟩ := hrun
  exact hrun.transposes fun i j hi _ => by omega

/-- A guarded copy in the unrolled body of `trans_61x67`. -/
theorem Copied.copyIf {L : Layout} {s₀ s : State} {done : ℕ → ℕ → Prop} {i j : ℕ} {c : Prop}
    [Decidable c] (h : Copied L s₀ done s) (hi : i < L.N) (hj : c → j < L.M) :
    Copied L s₀ (fun i' j' => done i' j' ∨ i' = i ∧ j' = j ∧ c)
      (if c then Transpose.copyCell L i j s else s) := by
  split
  · rename_i hc
    refine (h.copyCell hi (hj hc)).mono fun i' j' _ _ hd => ?_
    rcases hd with hd | ⟨hi', hj', -⟩
    · exact .inl hd
    · exact .inr ⟨hi', hj'⟩
  · rename_i hc
    refine h.mono fun i' j' _ _ hd => ?_
    rcases hd with hd | ⟨-, -, hc'⟩
    · exact hd
    · exact absurd hc' hc

/-- Four cells of a row, as far as the block and the matrix reach. -/
theorem Copied.quad61 {L : Layout} {s₀ s : State} {done : ℕ → ℕ → Prop} {col i j : ℕ}
    (h : Copied L s₀ done s) (hi : i < L.N) (hj : j < L.M) :
    Copied L s₀ (fun i' j' => done i' j' ∨
        i' = i ∧ j ≤ j' ∧ j' < j + 4 ∧ (j' = j ∨ j' < col + 16 ∧ j' < L.M))
      (quad61 L col i j s) := by
  have h0 := h.copyCell hi hj
  have h1 := h0.copyIf (c := j + 1 < col + 16 ∧ j + 1 < L.M) (j := j + 1) hi And.right
  have h2 := h1.copyIf (c := j + 2 < col + 16 ∧ j + 2 < L.M) (j := j + 2) hi And.right
  have h3 := h2.copyIf (c := j + 3 < col + 16 ∧ j + 3 < L.M) (j := j + 3) hi And.right
  refine h3.mono fun i' j' _ _ hd => ?_
  rcases hd with hd | hd
  · exact .inl (.inl (.inl (.inl hd)))
  · have hcell : j' = j ∨ j' = j + 1 ∨ j' = j + 2 ∨ j' = j + 3 := by omega
    rcases hcell with rfl | rfl | rfl | rfl
    · exact .inl (.inl (.inl (.inr ⟨hd.1, rfl⟩)))
    · exact .inl (.inl (.inr ⟨hd.1, rfl, by omega⟩))
    · exact .inl (.inr ⟨hd.1, rfl, by omega⟩)
    · exact .inr ⟨hd.1, rfl, by omega⟩

/-- `trans_61x67` transposes every shape. -/
theorem trans61x67_transposes (L : Layout) (mem : ℕ → ℤ) :
    Transposes L (State.start mem) (trans61x67 L (State.start mem)) := by
  have hrun : ∃ row, L.N ≤ row ∧ (row < L.N + 16 ∨ row = 0) ∧
      Copied L (State.start mem) (fun i' _ => i' < row) (trans61x67 L (State.start mem)) := by
    refine forLoop_inv (fun row s => Copied L (State.start mem) (fun i' _ => i' < row) s)
      (by decide) (copied_start L mem _ fun _ _ => by omega) ?_
    intro row s _ hlt hs
    have hcols : ∃ col, L.M ≤ col ∧ (col < L.M + 16 ∨ col = 0) ∧
        Copied L (State.start mem) (fun i' j' => i' < row ∨ i' < row + 16 ∧ j' < col)
          (forLoop 0 L.M 16 (fun col => forLoop row (min (row + 16) L.N) 1 fun i =>
            forLoop col (min (col + 16) L.M) 4 (quad61 L col i)) s) := by
      refine forLoop_inv (fun col s =>
        Copied L (State.start mem) (fun i' j' => i' < row ∨ i' < row + 16 ∧ j' < col) s)
        (by decide) (hs.mono fun i' j' _ _ hd => by omega) ?_
      intro col s _ hlt' hs
      have hblock : Copied L (State.start mem) (fun i' j' => i' < row ∨ i' < row + 16 ∧ j' < col ∨
          i' < min (row + 16) L.N ∧ j' < col + 16)
          (forLoop row (min (row + 16) L.N) 1 (fun i =>
            forLoop col (min (col + 16) L.M) 4 (quad61 L col i)) s) := by
        refine forLoop_inv_one (fun i s => Copied L (State.start mem)
          (fun i' j' => i' < row ∨ i' < row + 16 ∧ j' < col ∨ i' < i ∧ j' < col + 16) s)
          (by omega) (hs.mono fun i' j' _ _ hd => by omega) fun i s hi hi16 hs => ?_
        have hline : ∃ j, min (col + 16) L.M ≤ j ∧ (j < min (col + 16) L.M + 4 ∨ j = col) ∧
            Copied L (State.start mem) (fun i' j' => i' < row ∨ i' < row + 16 ∧ j' < col ∨
              i' < i ∧ j' < col + 16 ∨ i' = i ∧ j' < j ∧ j' < col + 16)
              (forLoop col (min (col + 16) L.M) 4 (quad61 L col i) s) := by
          refine forLoop_inv (fun j s => Copied L (State.start mem)
            (fun i' j' => i' < row ∨ i' < row + 16 ∧ j' < col ∨ i' < i ∧ j' < col + 16 ∨
              i' = i ∧ j' < j ∧ j' < col + 16) s)
            (by decide) (hs.mono fun i' j' _ _ hd => by omega) fun j s hj hj16 hs => ?_
          exact (hs.quad61 (j := j) (by omega) (by omega)).mono
            fun i' j' _ _ hd => by omega
        obtain ⟨j, hj, -, hline⟩ := hline
        exact hline.mono fun i' j' _ _ hd => by omega
      exact hblock.mono fun i' j' _ _ hd => by omega
    obtain ⟨col, hcol, -, hcols⟩ := hcols
    exact hcols.mono fun i' j' _ _ hd => by omega
  obtain ⟨row, hrow, -, hrun⟩ := hrun
  exact hrun.transposes fun i j hi _ => by omega

/-! ### The rows of a 64 by 64 block -/

/-- `parkRow` fills a column of the upper half of the block, and the column four to the right of
it. -/
theorem cellB_parkRow {L : Layout} {s : State} {j k r c : ℕ} (hk : k + 4 < L.N) (hc : c < L.N) :
    (parkRow L j k s).cellB L r c =
      if j ≤ r ∧ r < j + 4 ∧ c = k + 4 then s.cellA L k (r + 4)
      else if j ≤ r ∧ r < j + 4 ∧ c = k then s.cellA L k r
      else s.cellB L r c := by
  have hk' : k < L.N := by omega
  simp only [parkRow, cellB_writeB hk hc, cellB_writeB hk' hc, cellB_readA, readA_fst, cellA_readA]
  by_cases hr : j ≤ r ∧ r < j + 4
  · obtain ⟨q, rfl⟩ := Nat.exists_eq_add_of_le hr.1
    have hq : q < 4 := by omega
    interval_cases q <;> simp +arith
  · have hne : r ≠ j + 0 ∧ r ≠ j + 1 ∧ r ≠ j + 2 ∧ r ≠ j + 3 := by omega
    simp only [hne, false_and, if_false]
    rw [if_neg (by omega), if_neg (by omega)]

/-- `moveRow` moves the right half of a row of the block four rows down and four to the left, and
fills its place. -/
theorem cellB_moveRow {L : Layout} {s : State} {i k r c : ℕ} (hi : i + 7 < L.N) (hc : c < L.N) :
    (moveRow L i k s).cellB L r c =
      if r = k + 4 ∧ i ≤ c ∧ c < i + 4 then s.cellB L k (c + 4)
      else if r = k ∧ i + 4 ≤ c ∧ c < i + 8 then s.cellA L c k
      else s.cellB L r c := by
  simp (disch := omega) only [moveRow, cellB_writeB, cellB_readA, readA_fst, cellA_readA, readB_fst,
    cellB_readB, cellA_readB]
  by_cases hr : i ≤ c ∧ c < i + 8
  · obtain ⟨q, rfl⟩ := Nat.exists_eq_add_of_le hr.1
    have hq : q < 8 := by omega
    interval_cases q <;> simp +arith
  · have hne : c ≠ i + 0 ∧ c ≠ i + 1 ∧ c ≠ i + 2 ∧ c ≠ i + 3 ∧ c ≠ i + 4 ∧ c ≠ i + 5 ∧
        c ≠ i + 6 ∧ c ≠ i + 7 := by omega
    simp only [hne, and_false, if_false]
    rw [if_neg (by omega), if_neg (by omega)]

/-- `lastRow` fills a column of the lower half of the block. -/
theorem cellB_lastRow {L : Layout} {s : State} {j k r c : ℕ} (hk : k < L.N) (hc : c < L.N) :
    (lastRow L j k s).cellB L r c =
      if j + 4 ≤ r ∧ r < j + 8 ∧ c = k then s.cellA L k r else s.cellB L r c := by
  simp only [lastRow, cellB_writeB hk hc, cellB_readA, readA_fst, cellA_readA]
  by_cases hr : j + 4 ≤ r ∧ r < j + 8
  · obtain ⟨q, rfl⟩ := Nat.exists_eq_add_of_le hr.1
    have hq : q < 4 := by omega
    interval_cases q <;> simp +arith
  · have hne : r ≠ j + 4 ∧ r ≠ j + 5 ∧ r ≠ j + 6 ∧ r ≠ j + 7 := by omega
    simp only [hne, false_and, if_false]
    rw [if_neg (by omega)]

/-- **What stands in the matrices**: no access was out of bounds, and the cells are given by two
functions. -/
structure Placed (L : Layout) (A B : ℕ → ℕ → ℤ) (s : State) : Prop where
  inBounds : s.Logged (InBounds L)
  matrixA : ∀ i j, i < L.N → j < L.M → s.cellA L i j = A i j
  matrixB : ∀ r c, r < L.M → c < L.N → s.cellB L r c = B r c

theorem Placed.congr {L : Layout} {A B B' : ℕ → ℕ → ℤ} {s : State} (h : Placed L A B s)
    (hB : ∀ r c, r < L.M → c < L.N → B r c = B' r c) : Placed L A B' s where
  inBounds := h.inBounds
  matrixA := h.matrixA
  matrixB r c hr hc := (h.matrixB r c hr hc).trans (hB r c hr hc)

theorem Placed.parkRow {L : Layout} {A B : ℕ → ℕ → ℤ} {s : State} {j k : ℕ} (h : Placed L A B s)
    (hk : k + 4 < L.N) (hj : j + 7 < L.M) :
    Placed L A (fun r c => if j ≤ r ∧ r < j + 4 ∧ c = k + 4 then A k (r + 4)
      else if j ≤ r ∧ r < j + 4 ∧ c = k then A k r else B r c) (parkRow L j k s) where
  inBounds := by
    simp only [Transpose.parkRow, logged_writeB, logged_readA, InBounds]
    refine ⟨?_, ?_, ?_, ?_, ?_, ?_, ?_, ?_, ?_, ?_, ?_, ?_, ?_, ?_, ?_, ?_, h.inBounds⟩ <;> omega
  matrixA r c hr hc := by
    simp (disch := omega) only [Transpose.parkRow, cellA_writeB, cellA_readA]
    exact h.matrixA r c hr hc
  matrixB r c hr hc := by
    rw [cellB_parkRow hk hc, h.matrixB r c hr hc]
    split
    · exact h.matrixA _ _ (by omega) (by omega)
    split
    · exact h.matrixA _ _ (by omega) hr
    · rfl

theorem Placed.moveRow {L : Layout} {A B : ℕ → ℕ → ℤ} {s : State} {i k : ℕ} (h : Placed L A B s)
    (hi : i + 7 < L.N) (hk : k + 4 < L.M) :
    Placed L A (fun r c => if r = k + 4 ∧ i ≤ c ∧ c < i + 4 then B k (c + 4)
      else if r = k ∧ i + 4 ≤ c ∧ c < i + 8 then A c k else B r c) (moveRow L i k s) where
  inBounds := by
    simp only [Transpose.moveRow, logged_writeB, logged_readA, logged_readB, InBounds]
    refine ⟨?_, ?_, ?_, ?_, ?_, ?_, ?_, ?_, ?_, ?_, ?_, ?_, ?_, ?_, ?_, ?_, h.inBounds⟩ <;> omega
  matrixA r c hr hc := by
    simp (disch := omega) only [Transpose.moveRow, cellA_writeB, cellA_readA, cellA_readB]
    exact h.matrixA r c hr hc
  matrixB r c hr hc := by
    rw [cellB_moveRow hi hc, h.matrixB r c hr hc]
    split
    · exact h.matrixB _ _ (by omega) (by omega)
    split
    · exact h.matrixA _ _ hc (by omega)
    · rfl

theorem Placed.lastRow {L : Layout} {A B : ℕ → ℕ → ℤ} {s : State} {j k : ℕ} (h : Placed L A B s)
    (hk : k < L.N) (hj : j + 7 < L.M) :
    Placed L A (fun r c => if j + 4 ≤ r ∧ r < j + 8 ∧ c = k then A k r else B r c)
      (lastRow L j k s) where
  inBounds := by
    simp only [Transpose.lastRow, logged_writeB, logged_readA, InBounds]
    refine ⟨?_, ?_, ?_, ?_, ?_, ?_, ?_, ?_, h.inBounds⟩ <;> omega
  matrixA r c hr hc := by
    simp (disch := omega) only [Transpose.lastRow, cellA_writeB, cellA_readA]
    exact h.matrixA r c hr hc
  matrixB r c hr hc := by
    rw [cellB_lastRow hk hc, h.matrixB r c hr hc]
    split
    · exact h.matrixA _ _ hk hr
    · rfl

/-! ### A 64 by 64 block -/

/-- **A block is transposed in place**, and no other cell of `B` changes. -/
theorem Placed.block64 {L : Layout} {A B : ℕ → ℕ → ℤ} {s : State} {i j : ℕ} (h : Placed L A B s)
    (hi : i + 7 < L.N) (hj : j + 7 < L.M) :
    Placed L A (fun r c => if j ≤ r ∧ r < j + 8 ∧ i ≤ c ∧ c < i + 8 then A c r else B r c)
      (block64 L i j s) := by
  -- after the first loop: the upper left quarter is done, the upper right one is parked next to it
  have hpark : Placed L A (fun r c =>
      if j ≤ r ∧ r < j + 4 ∧ i + 4 ≤ c ∧ c < i + 4 + 4 then A (c - 4) (r + 4)
      else if j ≤ r ∧ r < j + 4 ∧ i ≤ c ∧ c < i + 4 then A c r else B r c)
      (forLoop i (i + 4) 1 (Transpose.parkRow L j) s) := by
    refine forLoop_inv_one (fun k s => Placed L A (fun r c =>
      if j ≤ r ∧ r < j + 4 ∧ i + 4 ≤ c ∧ c < k + 4 then A (c - 4) (r + 4)
      else if j ≤ r ∧ r < j + 4 ∧ i ≤ c ∧ c < k then A c r else B r c) s)
      (Nat.le_add_right i 4) (h.congr fun r c _ _ => ?_) fun k s hk hk4 hs => ?_
    · rw [if_neg (by omega), if_neg (by omega)]
    · refine (hs.parkRow (j := j) (k := k) (by omega) hj).congr fun r c _ _ => ?_
      grind
  -- after the second loop: the parked cells have moved down, and their place is filled
  have hmove : Placed L A (fun r c =>
      if j ≤ r ∧ r < j + 8 ∧ i ≤ c ∧ c < i + 4 then A c r
      else if j ≤ r ∧ r < j + 4 ∧ i + 4 ≤ c ∧ c < i + 8 then A c r else B r c)
      (forLoop j (j + 4) 1 (Transpose.moveRow L i)
        (forLoop i (i + 4) 1 (Transpose.parkRow L j) s)) := by
    have hloop := forLoop_inv_one (fun k s => Placed L A (fun r c =>
      if j + 4 ≤ r ∧ r < k + 4 ∧ i ≤ c ∧ c < i + 4 then A c r
      else if j ≤ r ∧ r < k ∧ i + 4 ≤ c ∧ c < i + 8 then A c r
      else if j ≤ r ∧ r < j + 4 ∧ i + 4 ≤ c ∧ c < i + 4 + 4 then A (c - 4) (r + 4)
      else if j ≤ r ∧ r < j + 4 ∧ i ≤ c ∧ c < i + 4 then A c r else B r c) s)
      (Nat.le_add_right j 4) (hpark.congr fun r c _ _ => ?_)
      (fun k s hk hk4 hs => (hs.moveRow hi (k := k) (by omega)).congr fun r c _ _ => ?_)
    · exact hloop.congr fun r c _ _ => by grind
    · rw [if_neg (c := j + 4 ≤ r ∧ r < j + 4 ∧ i ≤ c ∧ c < i + 4) (by omega),
        if_neg (c := j ≤ r ∧ r < j ∧ i + 4 ≤ c ∧ c < i + 8) (by omega)]
    · by_cases hdown : r = k + 4 ∧ i ≤ c ∧ c < i + 4
      · -- the parked cell arrives at its place
        rw [if_pos hdown, if_neg (by omega), if_neg (by omega), if_pos (by omega),
          if_pos (by omega), hdown.1, Nat.add_sub_cancel]
      · rw [if_neg hdown]
        by_cases hright : r = k ∧ i + 4 ≤ c ∧ c < i + 8
        · rw [if_pos hright, if_neg (by omega), if_pos (by omega), hright.1]
        · have hleft : (j + 4 ≤ r ∧ r < k + 1 + 4 ∧ i ≤ c ∧ c < i + 4) ↔
              (j + 4 ≤ r ∧ r < k + 4 ∧ i ≤ c ∧ c < i + 4) := by omega
          have hfill : (j ≤ r ∧ r < k + 1 ∧ i + 4 ≤ c ∧ c < i + 8) ↔
              (j ≤ r ∧ r < k ∧ i + 4 ≤ c ∧ c < i + 8) := by omega
          simp only [hright, hleft, hfill, if_false]
  -- the third loop fills the lower right quarter
  have hlast := forLoop_inv_one (fun k s => Placed L A (fun r c =>
    if j + 4 ≤ r ∧ r < j + 8 ∧ i + 4 ≤ c ∧ c < k then A c r
    else if j ≤ r ∧ r < j + 8 ∧ i ≤ c ∧ c < i + 4 then A c r
    else if j ≤ r ∧ r < j + 4 ∧ i + 4 ≤ c ∧ c < i + 8 then A c r else B r c) s)
    (by omega : i + 4 ≤ i + 8) (hmove.congr fun r c _ _ => ?_)
    (fun k s hk hk8 hs => (hs.lastRow (k := k) (by omega) hj).congr fun r c _ _ => ?_)
  · exact hlast.congr fun r c _ _ => by grind
  · rw [if_neg (c := j + 4 ≤ r ∧ r < j + 8 ∧ i + 4 ≤ c ∧ c < i + 4) (by omega)]
  · grind

/-- `trans_64x64` transposes a `64` by `64` matrix. -/
theorem trans64x64_transposes (L : Layout) (mem : ℕ → ℤ) (hM : L.M = 64) (hN : L.N = 64) :
    Transposes L (State.start mem) (trans64x64 L (State.start mem)) := by
  have hstart : Placed L ((State.start mem).cellA L) ((State.start mem).cellB L)
      (State.start mem) :=
    ⟨fun x hx => (by cases hx), fun _ _ _ _ => rfl, fun _ _ _ _ => rfl⟩
  have hrun : ∃ i, 64 ≤ i ∧ (i < 64 + 8 ∨ i = 0) ∧ i % 8 = 0 ∧
      Placed L ((State.start mem).cellA L)
        (fun r c => if c < i then (State.start mem).cellA L c r else (State.start mem).cellB L r c)
        (trans64x64 L (State.start mem)) := by
    refine forLoop_inv (fun i s => i % 8 = 0 ∧ Placed L ((State.start mem).cellA L)
      (fun r c => if c < i then (State.start mem).cellA L c r else (State.start mem).cellB L r c) s)
      (by decide) ⟨rfl, hstart.congr fun r c _ _ => by rw [if_neg (by omega)]⟩ ?_
    intro i s _ hi ⟨hi8, hs⟩
    have hcols : ∃ j, 64 ≤ j ∧ (j < 64 + 8 ∨ j = 0) ∧ j % 8 = 0 ∧
        Placed L ((State.start mem).cellA L)
          (fun r c => if c < i ∨ c < i + 8 ∧ r < j then (State.start mem).cellA L c r
            else (State.start mem).cellB L r c)
          (forLoop 0 64 8 (Transpose.block64 L i) s) := by
      refine forLoop_inv (fun j s => j % 8 = 0 ∧ Placed L ((State.start mem).cellA L)
        (fun r c => if c < i ∨ c < i + 8 ∧ r < j then (State.start mem).cellA L c r
          else (State.start mem).cellB L r c) s)
        (by decide) ⟨rfl, hs.congr fun r c _ _ => if_congr (by omega) rfl rfl⟩ ?_
      intro j s _ hj ⟨hj8, hs⟩
      refine ⟨by omega, (hs.block64 (j := j) (by omega) (by omega)).congr fun r c _ _ => ?_⟩
      grind
    obtain ⟨j, hj, -, -, hcols⟩ := hcols
    exact ⟨by omega, hcols.congr fun r c hr _ => if_congr (by omega) rfl rfl⟩
  obtain ⟨i, hi, -, -, hrun⟩ := hrun
  exact
    { inBounds := hrun.inBounds
      matrixA := hrun.matrixA
      matrixB := fun c r hc hr => (hrun.matrixB r c hr hc).trans (if_pos (by omega)) }

/-! ### Leaving the matrix -/

theorem logged_of_parkRow {L : Layout} {ok : Access → Prop} {s : State} {j k : ℕ}
    (h : (parkRow L j k s).Logged ok) : ok (.readA k (j + 7)) ∧ s.Logged ok := by
  simp only [parkRow, logged_writeB, logged_readA] at h
  tauto

theorem logged_of_moveRow {L : Layout} {ok : Access → Prop} {s : State} {i k : ℕ}
    (h : (moveRow L i k s).Logged ok) : s.Logged ok := by
  simp only [moveRow, logged_writeB, logged_readA, logged_readB] at h
  tauto

theorem logged_of_lastRow {L : Layout} {ok : Access → Prop} {s : State} {j k : ℕ}
    (h : (lastRow L j k s).Logged ok) : s.Logged ok := by
  simp only [lastRow, logged_writeB, logged_readA] at h
  tauto

/-- A block has read the last column of the first row of its part of `A`. -/
theorem logged_of_block64 {L : Layout} {ok : Access → Prop} {s : State} {i j : ℕ}
    (h : (block64 L i j s).Logged ok) : ok (.readA i (j + 7)) ∧ s.Logged ok := by
  have hmove := (forLoop_anti (Q := fun s : State => s.Logged ok) Nat.one_pos
    (fun _ _ hs => logged_of_lastRow hs) h).1
  have hpark := (forLoop_anti (Q := fun s : State => s.Logged ok) Nat.one_pos
    (fun _ _ hs => logged_of_moveRow hs) hmove).1
  obtain ⟨hs, hrows⟩ := forLoop_anti (Q := fun s : State => s.Logged ok) Nat.one_pos
    (fun _ _ hs => (logged_of_parkRow hs).2) hpark
  obtain ⟨s', hrow⟩ := hrows 0 (by omega)
  rw [Nat.zero_mul, Nat.add_zero] at hrow
  exact ⟨(logged_of_parkRow hrow).1, hs⟩

/-- **`trans_64x64` leaves every matrix with fewer columns**: it reads `A[0][63]`. -/
theorem trans64x64_leaves {L : Layout} (hM : L.M < 64) (s : State) :
    ¬ (trans64x64 L s).Logged (InBounds L) := by
  intro h
  have hblocks : ∀ (i : ℕ) (s : State), (forLoop 0 64 8 (block64 L i) s).Logged (InBounds L) →
      s.Logged (InBounds L) ∧ ∀ n, 0 + n * 8 < 64 →
        ∃ s', (block64 L i (0 + n * 8) s').Logged (InBounds L) := fun i s hs =>
    forLoop_anti (Q := fun s : State => s.Logged (InBounds L)) (by decide : 0 < 8)
      (fun _ _ hs => (logged_of_block64 hs).2) hs
  obtain ⟨-, hrows⟩ := forLoop_anti (Q := fun s : State => s.Logged (InBounds L))
    (by decide : 0 < 8) (fun i s hs => (hblocks i s hs).1) h
  obtain ⟨s', hrow⟩ := hrows 0 (by decide)
  obtain ⟨s'', hblock⟩ := (hblocks _ _ hrow).2 7 (by decide)
  have hread := (logged_of_block64 hblock).1.2
  omega

end Transpose
