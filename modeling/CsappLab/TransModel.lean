/-
**Transposing a matrix in memory.**

The matrices of `trans.c` lie row by row in one memory of integers: `A` has `N` rows of `M` cells,
`B` has `M` rows of `N` cells, and the two do not overlap.  A cell outside its matrix is still an
address, so a kernel that runs past the end of a row or of a matrix reads or overwrites whatever
lies there.  Next to the memory the model keeps a log of the cells that were read and written,
latest first.  `__builtin_prefetch` reads and writes nothing and is left out.  The shapes, the
indices and the loop counters are natural numbers: a matrix so large that `row + 16` leaves the
range of an `int` is left out.

Main definitions:

* `Transpose.Layout`, `Transpose.State` — where the matrices lie, and the memory with its log;
* `Transpose.readA`, `Transpose.readB`, `Transpose.writeB` — the accesses;
* `Transpose.trans`, `Transpose.trans32x32`, `Transpose.trans61x67`, `Transpose.trans64x64` — the
  kernels;
* `Transpose.transposeSubmit` — the switch between them;
* `Transpose.Transposes` — a run stays inside the matrices, keeps `A` and ends with its transpose.
-/

import CsappLab.ForLoop
import Mathlib.Data.Int.Notation
import Mathlib.Logic.Function.Basic
import Mathlib.Tactic.Common

set_option relaxedAutoImplicit false
set_option autoImplicit false

namespace Transpose

open Loop

/-! ### Memory -/

/-- The shapes `M` and `N` and the addresses of `A[0][0]` and `B[0][0]`; the matrices do not
overlap. -/
structure Layout where
  M : ℕ
  N : ℕ
  a : ℕ
  b : ℕ
  disjoint : a + N * M ≤ b ∨ b + M * N ≤ a

/-- An access to a cell, by its indices. -/
inductive Access where
  | readA (i j : ℕ)
  | readB (j i : ℕ)
  | writeB (j i : ℕ)
  deriving DecidableEq, Repr

/-- The memory, and the accesses so far, latest first. -/
structure State where
  mem : ℕ → ℤ
  log : List Access

/-- A state in which nothing was accessed yet. -/
def State.start (mem : ℕ → ℤ) : State := { mem := mem, log := [] }

/-- What stands at `A[i][j]`. -/
def State.cellA (s : State) (L : Layout) (i j : ℕ) : ℤ := s.mem (L.a + (i * L.M + j))

/-- What stands at `B[j][i]`. -/
def State.cellB (s : State) (L : Layout) (j i : ℕ) : ℤ := s.mem (L.b + (j * L.N + i))

/-- Read `A[i][j]`. -/
def readA (L : Layout) (i j : ℕ) (s : State) : ℤ × State :=
  (s.cellA L i j, { s with log := .readA i j :: s.log })

/-- Read `B[j][i]`. -/
def readB (L : Layout) (j i : ℕ) (s : State) : ℤ × State :=
  (s.cellB L j i, { s with log := .readB j i :: s.log })

/-- Write `B[j][i]`. -/
def writeB (L : Layout) (j i : ℕ) (v : ℤ) (s : State) : State :=
  { mem := Function.update s.mem (L.b + (j * L.N + i)) v
    log := .writeB j i :: s.log }

/-- `B[j][i] = A[i][j]`. -/
def copyCell (L : Layout) (i j : ℕ) (s : State) : State :=
  let (v, s) := readA L i j s
  writeB L j i v s

/-! ### Kernels -/

/-- `trans`. -/
def trans (L : Layout) (s : State) : State :=
  forLoop 0 L.N 1 (fun i => forLoop 0 L.M 1 fun j s =>
    let (tmp, s) := readA L i j s
    writeB L j i tmp s) s

/-- `trans_32x32`, row `i` of a block: the diagonal cell is left out, and copied last. -/
def row32 (L : Layout) (row col i : ℕ) (s : State) : State :=
  let s := forLoop col (col + 8) 1 (fun j s => if i ≠ j then copyCell L i j s else s) s
  if row = col then copyCell L i i s else s

/-- `trans_32x32`. -/
def trans32x32 (L : Layout) (s : State) : State :=
  forLoop 0 L.N 8 (fun row => forLoop 0 L.M 8 fun col =>
    forLoop row (row + 8) 1 (row32 L row col)) s

/-- `trans_61x67`, the unrolled body of the innermost loop. -/
def quad61 (L : Layout) (col i j : ℕ) (s : State) : State :=
  let s := copyCell L i j s
  let s := if j + 1 < col + 16 ∧ j + 1 < L.M then copyCell L i (j + 1) s else s
  let s := if j + 2 < col + 16 ∧ j + 2 < L.M then copyCell L i (j + 2) s else s
  if j + 3 < col + 16 ∧ j + 3 < L.M then copyCell L i (j + 3) s else s

/-- `trans_61x67`.  A loop with two bounds runs up to the smaller one. -/
def trans61x67 (L : Layout) (s : State) : State :=
  forLoop 0 L.N 16 (fun row => forLoop 0 L.M 16 fun col =>
    forLoop row (min (row + 16) L.N) 1 fun i =>
      forLoop col (min (col + 16) L.M) 4 (quad61 L col i)) s

/-- `trans_64x64`, first loop of a block: transpose the upper left quarter, and park the upper
right quarter of `A` next to it. -/
def parkRow (L : Layout) (j k : ℕ) (s : State) : State :=
  let (a_0, s) := readA L k (j + 0) s
  let (a_1, s) := readA L k (j + 1) s
  let (a_2, s) := readA L k (j + 2) s
  let (a_3, s) := readA L k (j + 3) s
  let (a_4, s) := readA L k (j + 4) s
  let (a_5, s) := readA L k (j + 5) s
  let (a_6, s) := readA L k (j + 6) s
  let (a_7, s) := readA L k (j + 7) s
  let s := writeB L (j + 0) k a_0 s
  let s := writeB L (j + 1) k a_1 s
  let s := writeB L (j + 2) k a_2 s
  let s := writeB L (j + 3) k a_3 s
  let s := writeB L (j + 0) (k + 4) a_4 s
  let s := writeB L (j + 1) (k + 4) a_5 s
  let s := writeB L (j + 2) (k + 4) a_6 s
  writeB L (j + 3) (k + 4) a_7 s

/-- `trans_64x64`, second loop of a block: move a parked row to where it belongs and put the
column of `A` in its place. -/
def moveRow (L : Layout) (i k : ℕ) (s : State) : State :=
  let (a_0, s) := readB L k (i + 4) s
  let (a_1, s) := readB L k (i + 5) s
  let (a_2, s) := readB L k (i + 6) s
  let (a_3, s) := readB L k (i + 7) s
  let (a_4, s) := readA L (i + 4) k s
  let (a_5, s) := readA L (i + 5) k s
  let (a_6, s) := readA L (i + 6) k s
  let (a_7, s) := readA L (i + 7) k s
  let s := writeB L k (i + 4) a_4 s
  let s := writeB L k (i + 5) a_5 s
  let s := writeB L k (i + 6) a_6 s
  let s := writeB L k (i + 7) a_7 s
  let s := writeB L (k + 4) (i + 0) a_0 s
  let s := writeB L (k + 4) (i + 1) a_1 s
  let s := writeB L (k + 4) (i + 2) a_2 s
  writeB L (k + 4) (i + 3) a_3 s

/-- `trans_64x64`, third loop of a block: transpose the lower right quarter. -/
def lastRow (L : Layout) (j k : ℕ) (s : State) : State :=
  let (a_4, s) := readA L k (j + 4) s
  let (a_5, s) := readA L k (j + 5) s
  let (a_6, s) := readA L k (j + 6) s
  let (a_7, s) := readA L k (j + 7) s
  let s := writeB L (j + 4) k a_4 s
  let s := writeB L (j + 5) k a_5 s
  let s := writeB L (j + 6) k a_6 s
  writeB L (j + 7) k a_7 s

/-- `trans_64x64`, one block. -/
def block64 (L : Layout) (i j : ℕ) (s : State) : State :=
  let s := forLoop i (i + 4) 1 (parkRow L j) s
  let s := forLoop j (j + 4) 1 (moveRow L i) s
  forLoop (i + 4) (i + 8) 1 (lastRow L j) s

/-- `trans_64x64`. -/
def trans64x64 (L : Layout) (s : State) : State :=
  forLoop 0 64 8 (fun i => forLoop 0 64 8 (block64 L i)) s

/-! ### The switch -/

/-- The `switch` from `case 64` on. -/
def case64 (L : Layout) (s : State) : State :=
  if L.N = 64 then trans64x64 L s else trans L s

/-- The `switch` from `case 61` on: no `break` separates it from `case 64`. -/
def case61 (L : Layout) (s : State) : State :=
  if L.N = 67 then trans61x67 L s else case64 L s

/-- The `switch` from `case 32` on: no `break` separates it from `case 61`. -/
def case32 (L : Layout) (s : State) : State :=
  if L.N = 32 then trans32x32 L s else case61 L s

/-- `transpose_submit`. -/
def transposeSubmit (L : Layout) (s : State) : State :=
  match L.M with
  | 32 => case32 L s
  | 61 => case61 L s
  | 64 => case64 L s
  | _ => trans L s

/-! ### What a transpose function should do -/

/-- An access inside the matrices. -/
def InBounds (L : Layout) : Access → Prop
  | .readA i j => i < L.N ∧ j < L.M
  | .readB j i => j < L.M ∧ i < L.N
  | .writeB j i => j < L.M ∧ i < L.N

/-- Every access so far satisfies a property. -/
def State.Logged (s : State) (ok : Access → Prop) : Prop := ∀ x ∈ s.log, ok x

/-- **A run from `s` to `s'` transposes**: every access is inside the matrices, `A` is as it was,
and `B` is its transpose. -/
structure Transposes (L : Layout) (s s' : State) : Prop where
  inBounds : s'.Logged (InBounds L)
  matrixA : ∀ i j, i < L.N → j < L.M → s'.cellA L i j = s.cellA L i j
  matrixB : ∀ i j, i < L.N → j < L.M → s'.cellB L j i = s.cellA L i j

end Transpose
