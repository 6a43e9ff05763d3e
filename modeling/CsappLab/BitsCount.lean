/-
**Counting the bits of a two's complement number.**

`howManyBits` folds a negative number by complement and then halves the window that can hold its
top bit five times, each time with a test and a shift instead of a branch.  The tests count the
shifts until nothing is left.  Both are the size of the folded number and one more for the sign.

Main definitions:

* `howManyBits`, `testHowManyBits` — the puzzle and the reference loop of the tests;
* `folded` — the number both of them work on.

Main results:

* `size_stage` — one halving of the window;
* `toNat_howManyBits`, `testHowManyBits_eq` — the size of the folded number and one;
* `howManyBits_isLeast` — no fewer bits hold the number, and the reference loop agrees.
-/

import Mathlib.Algebra.Ring.Int.Defs
import Mathlib.Algebra.Ring.Nat
import Mathlib.Data.Nat.Size
import Mathlib.Order.Bounds.Basic
import Mathlib.Tactic.Common

set_option relaxedAutoImplicit false
set_option autoImplicit false

namespace Bits

/-! ### The puzzle and the reference loop -/

/-- `!x`. -/
def lnot (x : BitVec 32) : BitVec 32 := if x = 0#32 then 1#32 else 0#32

/-- `(sign & ~x) | (~sign & x)`, with the sign spread over the word. -/
def folded (x : BitVec 32) : BitVec 32 :=
  let sign := x.sshiftRight 31
  (sign &&& ~~~x) ||| (~~~sign &&& x)

def howManyBits (x : BitVec 32) : BitVec 32 :=
  let x := folded x
  let b16 := lnot (lnot (x.sshiftRight 16)) <<< 4
  let x := x.sshiftRight' b16
  let b8 := lnot (lnot (x.sshiftRight 8)) <<< 3
  let x := x.sshiftRight' b8
  let b4 := lnot (lnot (x.sshiftRight 4)) <<< 2
  let x := x.sshiftRight' b4
  let b2 := lnot (lnot (x.sshiftRight 2)) <<< 1
  let x := x.sshiftRight' b2
  let b1 := lnot (lnot (x.sshiftRight 1))
  let x := x.sshiftRight' b1
  let b0 := x
  b16 + b8 + b4 + b2 + b1 + b0 + 1#32

/-- `for (; a; a >>= 1, cnt++)`. -/
def countShifts (a cnt : BitVec 32) : BitVec 32 :=
  if a = 0#32 then cnt else countShifts (a >>> 1) (cnt + 1#32)
termination_by a.toNat
decreasing_by
  have hpos : a.toNat ≠ 0 := fun h => ‹¬ a = 0#32› (BitVec.eq_of_toNat_eq h)
  rw [BitVec.toNat_ushiftRight, Nat.shiftRight_eq_div_pow]
  omega

def testHowManyBits (x : BitVec 32) : BitVec 32 :=
  let x := if x.slt 0#32 then -x - 1#32 else x
  let a := x
  countShifts a 0#32 + 1#32

/-! ### Sizes -/

/-- Dropping bits below the top one lowers the size by their number. -/
theorem size_eq_add_size_shiftRight {n k : ℕ} (h : 2 ^ k ≤ n) :
    Nat.size n = k + Nat.size (n >>> k) := by
  rw [Nat.shiftRight_eq_div_pow]
  have hquot : 1 ≤ n / 2 ^ k := (Nat.one_le_div_iff (Nat.two_pow_pos k)).mpr h
  refine le_antisymm ?_ ?_
  · rw [Nat.size_le, Nat.pow_add, Nat.mul_comm, ← Nat.div_lt_iff_lt_mul (Nat.two_pow_pos k)]
    exact Nat.lt_size_self _
  · obtain ⟨s, hs⟩ := Nat.exists_eq_add_of_le' (Nat.size_pos.mpr hquot)
    have htop : 2 ^ s ≤ n / 2 ^ k := Nat.lt_size.mp (by omega)
    rw [hs, ← Nat.add_assoc, Nat.succ_le_iff, Nat.lt_size, Nat.pow_add, Nat.mul_comm]
    exact (Nat.le_div_iff_mul_le (Nat.two_pow_pos k)).mp htop

/-! ### Halving the window -/

theorem lnot_eq_zero_iff {x : BitVec 32} : lnot x = 0#32 ↔ x ≠ 0#32 := by
  unfold lnot
  split_ifs with h <;> simp [h]

/-- `!!x` is the truth value of `x`. -/
theorem lnot_lnot (x : BitVec 32) : lnot (lnot x) = if x = 0#32 then 0#32 else 1#32 := by
  rw [lnot]
  simp only [lnot_eq_zero_iff, ne_eq, ite_not]

/-- A number that is not negative shifts right without its sign. -/
theorem toNat_sshiftRight {x : BitVec 32} (hx : x.toNat < 2 ^ 31) (k : ℕ) :
    (x.sshiftRight k).toNat = x.toNat >>> k := by
  have hmsb : x.msb = false := by
    rw [BitVec.msb_eq_false_iff_two_mul_lt]
    omega
  rw [BitVec.sshiftRight_eq_of_msb_false hmsb, BitVec.toNat_ushiftRight]

/-- **One stage of the search**: with a window of `2 ^ (j + 1)` bits, the test says whether the top
bit is in the upper half, and the shift brings the half that holds it down. -/
theorem size_stage {x : BitVec 32} {j : ℕ} (hj : j ≤ 4) (hx : x.toNat < 2 ^ 2 ^ (j + 1))
    (hpos : x.toNat < 2 ^ 31) :
    let b := lnot (lnot (x.sshiftRight (2 ^ j))) <<< j
    Nat.size x.toNat = b.toNat + Nat.size (x.sshiftRight' b).toNat ∧
      (x.sshiftRight' b).toNat < 2 ^ 2 ^ j ∧ b.toNat ≤ 2 ^ j := by
  intro b
  have hwidth : 2 ^ j ≤ 2 ^ 4 := Nat.pow_le_pow_right (by decide) hj
  have hshift := toNat_sshiftRight hpos (2 ^ j)
  have hb : b.toNat = if x.toNat < 2 ^ 2 ^ j then 0 else 2 ^ j := by
    have hzero : x.sshiftRight (2 ^ j) = 0#32 ↔ x.toNat < 2 ^ 2 ^ j := by
      rw [← BitVec.toNat_inj, hshift, Nat.shiftRight_eq_div_pow]
      exact Nat.div_eq_zero_iff_lt (Nat.two_pow_pos _)
    show (lnot (lnot (x.sshiftRight (2 ^ j))) <<< j).toNat = _
    rw [lnot_lnot, BitVec.toNat_shiftLeft, Nat.shiftLeft_eq]
    by_cases h : x.toNat < 2 ^ 2 ^ j
    · rw [if_pos h, if_pos (hzero.mpr h)]
      simp
    · rw [if_neg h, if_neg (mt hzero.mp h)]
      show 1 * 2 ^ j % 2 ^ 32 = _
      rw [Nat.one_mul, Nat.mod_eq_of_lt (by omega)]
  have hdown : (x.sshiftRight' b).toNat = x.toNat >>> b.toNat := toNat_sshiftRight hpos _
  rw [hdown, hb]
  by_cases h : x.toNat < 2 ^ 2 ^ j
  · rw [if_pos h]
    simpa using h
  · rw [if_neg h]
    refine ⟨size_eq_add_size_shiftRight (Nat.le_of_not_lt h), ?_, le_rfl⟩
    rw [Nat.shiftRight_eq_div_pow, Nat.div_lt_iff_lt_mul (Nat.two_pow_pos _), ← Nat.pow_add,
      ← Nat.two_mul, ← Nat.pow_succ']
    exact hx

/-! ### The folded number -/

/-- The sign bit, spread over the word. -/
theorem sshiftRight_sign (x : BitVec 32) :
    x.sshiftRight 31 = if x.toInt < 0 then BitVec.allOnes 32 else 0#32 := by
  have hlow : -2 ^ 31 ≤ x.toInt := BitVec.le_toInt x
  have hhigh : x.toInt < 2 ^ 31 := BitVec.toInt_lt
  refine BitVec.eq_of_toInt_eq ?_
  rw [BitVec.toInt_sshiftRight, Int.shiftRight_eq_div_pow]
  split_ifs with h
  · show _ = (-1 : ℤ)
    omega
  · show _ = (0 : ℤ)
    omega

theorem folded_eq (x : BitVec 32) : folded x = if x.toInt < 0 then ~~~x else x := by
  unfold folded
  dsimp only
  rw [sshiftRight_sign]
  split_ifs
  · rw [BitVec.allOnes_and, BitVec.not_allOnes, BitVec.zero_and, BitVec.or_zero]
  · rw [BitVec.zero_and, BitVec.not_zero, BitVec.allOnes_and, BitVec.zero_or]

/-- What the folded number counts: how far the number is above zero, or below minus one. -/
theorem toNat_folded (x : BitVec 32) :
    ((folded x).toNat : ℤ) = if x.toInt < 0 then -x.toInt - 1 else x.toInt := by
  have hlt := x.isLt
  rw [folded_eq]
  split_ifs with h
  · rw [BitVec.toNat_not]
    rw [BitVec.toInt_eq_toNat_cond] at h ⊢
    split_ifs at h ⊢ <;> omega
  · rw [BitVec.toInt_eq_toNat_cond] at h ⊢
    split_ifs at h ⊢ <;> omega

theorem toNat_folded_lt (x : BitVec 32) : (folded x).toNat < 2 ^ 31 := by
  have hlow : -2 ^ 31 ≤ x.toInt := BitVec.le_toInt x
  have hhigh : x.toInt < 2 ^ 31 := BitVec.toInt_lt
  have hfold := toNat_folded x
  split_ifs at hfold <;> omega

/-- A window holds the folded number without its sign exactly when it holds the number with it. -/
theorem toNat_folded_lt_iff (x : BitVec 32) (k : ℕ) :
    (folded x).toNat < 2 ^ k ↔ -2 ^ k ≤ x.toInt ∧ x.toInt < 2 ^ k := by
  have hfold := toNat_folded x
  have hpow : (0 : ℤ) < 2 ^ k := Int.pow_pos (by decide)
  have hcast : (folded x).toNat < 2 ^ k ↔ ((folded x).toNat : ℤ) < 2 ^ k := by norm_cast
  rw [hcast, hfold]
  split_ifs <;> omega

/-! ### Both counts -/

theorem toNat_howManyBits (x : BitVec 32) :
    (howManyBits x).toNat = Nat.size (folded x).toNat + 1 := by
  unfold howManyBits
  extract_lets x0 b16 x1 b8 x2 b4 x3 b2 x4 b1 x5 b0
  have h0 : x0.toNat < 2 ^ 31 := toNat_folded_lt x
  obtain ⟨h16, hlt1, hle16⟩ : Nat.size x0.toNat = b16.toNat + Nat.size x1.toNat ∧
      x1.toNat < 2 ^ 2 ^ 4 ∧ b16.toNat ≤ 2 ^ 4 :=
    size_stage (j := 4) le_rfl (h0.trans (by decide)) h0
  obtain ⟨h8, hlt2, hle8⟩ : Nat.size x1.toNat = b8.toNat + Nat.size x2.toNat ∧
      x2.toNat < 2 ^ 2 ^ 3 ∧ b8.toNat ≤ 2 ^ 3 :=
    size_stage (j := 3) (by decide) hlt1 (hlt1.trans (by decide))
  obtain ⟨h4, hlt3, hle4⟩ : Nat.size x2.toNat = b4.toNat + Nat.size x3.toNat ∧
      x3.toNat < 2 ^ 2 ^ 2 ∧ b4.toNat ≤ 2 ^ 2 :=
    size_stage (j := 2) (by decide) hlt2 (hlt2.trans (by decide))
  obtain ⟨h2, hlt4, hle2⟩ : Nat.size x3.toNat = b2.toNat + Nat.size x4.toNat ∧
      x4.toNat < 2 ^ 2 ^ 1 ∧ b2.toNat ≤ 2 ^ 1 :=
    size_stage (j := 1) (by decide) hlt3 (hlt3.trans (by decide))
  obtain ⟨h1, hlt5, hle1⟩ : Nat.size x4.toNat = b1.toNat + Nat.size x5.toNat ∧
      x5.toNat < 2 ^ 2 ^ 0 ∧ b1.toNat ≤ 2 ^ 0 := by
    have hstage := size_stage (x := x4) (j := 0) (by decide) hlt4 (hlt4.trans (by decide))
    rw [BitVec.shiftLeft_zero] at hstage
    exact hstage
  -- what is left is one bit, which is its own size
  have hlast : Nat.size x5.toNat = b0.toNat := by
    show Nat.size x5.toNat = x5.toNat
    rcases Nat.le_one_iff_eq_zero_or_eq_one.mp (Nat.le_of_lt_succ hlt5) with h | h
    · rw [h]
      rfl
    · rw [h]
      rfl
  have hle0 : b0.toNat < 2 := hlt5
  rw [h16, h8, h4, h2, h1, hlast]
  simp only [BitVec.toNat_add]
  show (_ + 1) % 2 ^ 32 = _
  omega

/-- The loop counts the size of what it shifts out. -/
theorem countShifts_eq (a cnt : BitVec 32) :
    countShifts a cnt = cnt + BitVec.ofNat 32 (Nat.size a.toNat) := by
  induction a, cnt using countShifts.induct with
  | case1 cnt =>
      rw [countShifts, if_pos rfl]
      exact (BitVec.add_zero cnt).symm
  | case2 a cnt h ih =>
      have hne : a.toNat ≠ 0 := fun hzero => h (BitVec.eq_of_toNat_eq hzero)
      have hsize : Nat.size a.toNat = 1 + Nat.size (a.toNat >>> 1) := by
        rcases Nat.lt_or_ge a.toNat 2 with hlt | hge
        · have hone : a.toNat = 1 := by omega
          rw [hone]
          rfl
        · exact size_eq_add_size_shiftRight hge
      rw [countShifts, if_neg h, ih, BitVec.toNat_ushiftRight, hsize, BitVec.ofNat_add,
        BitVec.add_assoc]

theorem testHowManyBits_eq (x : BitVec 32) :
    testHowManyBits x = BitVec.ofNat 32 (Nat.size (folded x).toNat + 1) := by
  have hfold : (if x.slt 0#32 then -x - 1#32 else x) = folded x := by
    rw [folded_eq]
    refine if_congr ?_ ?_ rfl
    · rw [BitVec.slt_iff_toInt_lt]
      rfl
    · rw [BitVec.not_eq_neg_add]
  unfold testHowManyBits
  dsimp only
  rw [hfold, countShifts_eq, BitVec.zero_add, BitVec.ofNat_add]

/-- **`howManyBits` is minimal**: the least width whose two's complement holds the number, and what
the reference loop of the tests counts. -/
theorem howManyBits_isLeast (x : BitVec 32) :
    IsLeast {n : ℕ | 1 ≤ n ∧ -2 ^ (n - 1) ≤ x.toInt ∧ x.toInt < 2 ^ (n - 1)}
        (howManyBits x).toNat ∧
      howManyBits x = testHowManyBits x := by
  have hcount := toNat_howManyBits x
  refine ⟨⟨⟨by omega, ?_⟩, ?_⟩, ?_⟩
  · rw [hcount, Nat.add_sub_cancel, ← toNat_folded_lt_iff]
    exact Nat.lt_size_self _
  · rintro n ⟨hone, hfits⟩
    have hsize : Nat.size (folded x).toNat ≤ n - 1 :=
      Nat.size_le.mpr ((toNat_folded_lt_iff x (n - 1)).mpr hfits)
    omega
  · rw [testHowManyBits_eq, ← hcount, BitVec.ofNat_toNat, BitVec.setWidth_eq]

end Bits
