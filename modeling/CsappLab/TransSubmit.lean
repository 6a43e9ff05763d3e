/-
**Which shapes `transpose_submit` transposes.**

The cases of the `switch` test only the second dimension and are not separated by a `break`, so
that a shape falls through to the next kernel whose test it passes.  `trans_61x67` takes any shape;
`trans_64x64` does not, and it is reached with `32` or `61` columns when there are `64` rows.

Main results:

* `Transpose.transposeSubmit_transposes_iff` — all shapes but those two are transposed;
* `Transpose.transposeSubmit_leaves_32x64` — one of the two.
-/

import CsappLab.TransKernels

set_option relaxedAutoImplicit false
set_option autoImplicit false

namespace Transpose

/-- From `case 64` on, `64` rows need `64` columns. -/
theorem case64_transposes (L : Layout) (mem : ℕ → ℤ) (h : L.N = 64 → L.M = 64) :
    Transposes L (State.start mem) (case64 L (State.start mem)) := by
  rw [case64]
  split
  · rename_i hN
    exact trans64x64_transposes L mem (h hN) hN
  · exact trans_transposes L mem

/-- From `case 61` on as well: with `67` rows any number of columns will do. -/
theorem case61_transposes (L : Layout) (mem : ℕ → ℤ) (h : L.N = 64 → L.M = 64) :
    Transposes L (State.start mem) (case61 L (State.start mem)) := by
  rw [case61]
  split
  · exact trans61x67_transposes L mem
  · exact case64_transposes L mem h

theorem case32_transposes (L : Layout) (mem : ℕ → ℤ) (hM : L.M = 32) (hN : L.N ≠ 64) :
    Transposes L (State.start mem) (case32 L (State.start mem)) := by
  rw [case32]
  split
  · rename_i h
    exact trans32x32_transposes L mem (by rw [hM]) (by rw [h])
  · exact case61_transposes L mem fun h => absurd h hN

/-- `64` rows with fewer columns end up in `trans_64x64`, by way of every case before it. -/
theorem case32_leaves {L : Layout} (hM : L.M < 64) (hN : L.N = 64) (s : State) :
    ¬ (case64 L s).Logged (InBounds L) ∧ ¬ (case61 L s).Logged (InBounds L) ∧
      ¬ (case32 L s).Logged (InBounds L) := by
  have h64 : case64 L s = trans64x64 L s := by rw [case64, if_pos hN]
  have h61 : case61 L s = case64 L s := by rw [case61, if_neg (by omega)]
  have h32 : case32 L s = case61 L s := by rw [case32, if_neg (by omega)]
  rw [h32, h61, h64]
  exact ⟨trans64x64_leaves hM s, trans64x64_leaves hM s, trans64x64_leaves hM s⟩

theorem transposeSubmit_32 {L : Layout} (hM : L.M = 32) (s : State) :
    transposeSubmit L s = case32 L s := by
  simp only [transposeSubmit, hM]

/-- **Which shapes `transpose_submit` transposes**: all but `64` rows of `32` or `61` cells. -/
theorem transposeSubmit_transposes_iff (L : Layout) (mem : ℕ → ℤ) :
    Transposes L (State.start mem) (transposeSubmit L (State.start mem)) ↔
      ¬ (L.N = 64 ∧ (L.M = 32 ∨ L.M = 61)) := by
  rw [transposeSubmit]
  split
  · rename_i hM
    constructor
    · rintro h ⟨hN, -⟩
      exact (case32_leaves (by omega) hN _).2.2 h.inBounds
    · intro h
      exact case32_transposes L mem hM (by omega)
  · rename_i hM
    constructor
    · rintro h ⟨hN, -⟩
      exact (case32_leaves (by omega) hN _).2.1 h.inBounds
    · intro h
      exact case61_transposes L mem (by omega)
  · rename_i hM
    exact iff_of_true (case64_transposes L mem fun _ => hM) (by omega)
  · rename_i h32 h61 h64
    refine iff_of_true (trans_transposes L mem) ?_
    rintro ⟨-, hM | hM⟩
    · exact h32 hM
    · exact h61 hM

/-- A `64` by `32` matrix `A` behind its transpose in memory. -/
def tallLayout : Layout where
  M := 32
  N := 64
  a := 2048
  b := 0
  disjoint := .inr (by decide)

/-- **A shape that is not transposed.** -/
theorem transposeSubmit_leaves_32x64 :
    ¬ ∀ (L : Layout) (mem : ℕ → ℤ), 1 ≤ L.M → 1 ≤ L.N →
      Transposes L (State.start mem) (transposeSubmit L (State.start mem)) := by
  intro h
  have hlog := (h tallLayout (fun _ => 0) (by decide) (by decide)).inBounds
  rw [transposeSubmit_32 (L := tallLayout) rfl] at hlog
  exact (case32_leaves (L := tallLayout) (by decide) rfl _).2.2 hlog

end Transpose
