/-
**The other puzzles.**

The integer puzzles of `bits.c` are written without branches and without comparisons; the reference
functions of `tests.c` say the same with them.  Machine arithmetic wraps around, and `>>` on an
`int` spreads the sign.  `floatPower2` puts together the pattern of a power of two.

Main definitions:

* `bitXor`, `tmin`, `isTmax`, `allOddBits`, `negate`, `isAsciiDigit`, `conditional`,
  `isLessOrEqual`, `logicalNeg` — the puzzles, each with its reference function;
* `floatPower2`, `IsPower` — the pattern of a power of two, and what it has to be.

Main results:

* `puzzles_agree` — **the puzzles are their reference functions**, on all arguments;
* `floatPower2_isPower` — **every power of two that single precision has**, zero below and infinity
  above.
-/

import CsappLab.BitsCount
import CsappLab.BitsFloat

set_option relaxedAutoImplicit false
set_option autoImplicit false

namespace Bits

open BinaryFloat

/-! ### The puzzles -/

def bitXor (x y : BitVec 32) : BitVec 32 := ~~~(~~~x &&& ~~~y) &&& ~~~(x &&& y)

def tmin : BitVec 32 := 1#32 <<< 31

def isTmax (x : BitVec 32) : BitVec 32 :=
  let candidate := x + 1#32
  let candidatePlusX := candidate + x
  let isNotMinusOne := lnot (lnot candidate)
  lnot (candidatePlusX + 1#32) &&& isNotMinusOne

def allOddBits (x : BitVec 32) : BitVec 32 :=
  let mask := 0xAA#32 + (0xAA#32 <<< 8)
  let mask := mask + (mask <<< 16)
  lnot ((x &&& mask) ^^^ mask)

def negate (x : BitVec 32) : BitVec 32 := ~~~x + 1#32

def isAsciiDigit (x : BitVec 32) : BitVec 32 :=
  let lowerBound := x + ~~~0x30#32 + 1#32
  let upperBound := 0x39#32 + ~~~x + 1#32
  lnot ((lowerBound ||| upperBound).sshiftRight 31)

def conditional (x y z : BitVec 32) : BitVec 32 :=
  let x := ~~~(lnot x) + 1#32
  (x &&& z) + (~~~x &&& y)

def isLessOrEqual (x y : BitVec 32) : BitVec 32 :=
  let xSign := x.sshiftRight 31
  let ySign := y.sshiftRight 31
  let diff := y + (~~~x + 1#32)
  let diffSign := diff.sshiftRight 31
  (lnot (xSign ^^^ ySign) &&& lnot diffSign) ||| (xSign &&& lnot ySign)

def logicalNeg (x : BitVec 32) : BitVec 32 := ((~~~x + 1#32 ||| x).sshiftRight 31) + 1#32

/-! ### The reference functions -/

/-- The truth value of a comparison. -/
def truth (p : Bool) : BitVec 32 := if p then 1#32 else 0#32

def testBitXor (x y : BitVec 32) : BitVec 32 := x ^^^ y

def testTmin : BitVec 32 := 0x80000000#32

def testIsTmax (x : BitVec 32) : BitVec 32 := truth (x == 0x7FFFFFFF#32)

/-- The loop of `test_allOddBits` from `i` on. -/
def oddBitsFrom (x : BitVec 32) (i : ℕ) : BitVec 32 :=
  if i < 32 then
    if x &&& (1#32 <<< i) = 0#32 then 0#32 else oddBitsFrom x (i + 2)
  else 1#32
termination_by 32 - i

def testAllOddBits (x : BitVec 32) : BitVec 32 := oddBitsFrom x 1

def testNegate (x : BitVec 32) : BitVec 32 := -x

def testIsAsciiDigit (x : BitVec 32) : BitVec 32 :=
  truth (BitVec.sle 0x30#32 x && x.sle 0x39#32)

def testConditional (x y z : BitVec 32) : BitVec 32 := if x ≠ 0#32 then y else z

def testIsLessOrEqual (x y : BitVec 32) : BitVec 32 := truth (x.sle y)

def testLogicalNeg (x : BitVec 32) : BitVec 32 := lnot x

/-! ### Signs -/

/-- `!(x >> 31)` says that `x` is not negative. -/
theorem lnot_sign (x : BitVec 32) : lnot (x.sshiftRight 31) = truth (decide (0 ≤ x.toInt)) := by
  rw [sshiftRight_sign]
  by_cases h : x.toInt < 0
  · rw [if_pos h, decide_eq_false (by omega)]
    decide
  · rw [if_neg h, decide_eq_true (by omega)]
    decide

/-- The sign of `x | y`. -/
theorem toInt_or_nonneg_iff (x y : BitVec 32) :
    0 ≤ (x ||| y).toInt ↔ 0 ≤ x.toInt ∧ 0 ≤ y.toInt := by
  have hsign : ∀ z : BitVec 32, 0 ≤ z.toInt ↔ z.msb = false := fun z => by
    rw [BitVec.msb_eq_toInt, decide_eq_false_iff_not, not_lt]
  rw [hsign, hsign, hsign, BitVec.msb_or, Bool.or_eq_false_iff]

/-- Adding the complement and one subtracts, around the word. -/
theorem toInt_sub_cond (x y : BitVec 32) :
    (x - y).toInt =
      if x.toInt - y.toInt < -2 ^ 31 then x.toInt - y.toInt + 2 ^ 32
      else if x.toInt - y.toInt < 2 ^ 31 then x.toInt - y.toInt
      else x.toInt - y.toInt - 2 ^ 32 := by
  have hx := BitVec.le_toInt x
  have hx' := BitVec.toInt_lt (x := x)
  have hy := BitVec.le_toInt y
  have hy' := BitVec.toInt_lt (x := y)
  rw [BitVec.toInt_sub, Int.bmod_def]
  split_ifs <;> omega

/-! ### The puzzles one by one -/

theorem bitXor_eq (x y : BitVec 32) : bitXor x y = testBitXor x y := by
  refine BitVec.eq_of_getLsbD_eq fun i hi => ?_
  simp only [bitXor, testBitXor, BitVec.getLsbD_and, BitVec.getLsbD_not, BitVec.getLsbD_xor, hi,
    decide_true, Bool.true_and]
  cases x.getLsbD i <;> cases y.getLsbD i <;> rfl

theorem isTmax_eq (x : BitVec 32) : isTmax x = testIsTmax x := by
  have hlt := x.isLt
  have hnext : x + 1#32 = 0#32 ↔ x.toNat = 2 ^ 32 - 1 := by
    rw [← BitVec.toNat_inj, BitVec.toNat_add]
    simp only [BitVec.toNat_ofNat]
    omega
  -- twice `x` and two is zero for the largest number and for minus one
  have htwice : x + 1#32 + x + 1#32 = 0#32 ↔ x.toNat = 2 ^ 32 - 1 ∨ x.toNat = 2 ^ 31 - 1 := by
    rw [← BitVec.toNat_inj]
    simp only [BitVec.toNat_add, BitVec.toNat_ofNat]
    omega
  have htop : x = 0x7FFFFFFF#32 ↔ x.toNat = 2 ^ 31 - 1 := by
    rw [← BitVec.toNat_inj]
    rfl
  rw [isTmax, testIsTmax, lnot_lnot, lnot, truth]
  simp only [beq_iff_eq, hnext, htwice, htop]
  split_ifs <;> first | omega | rfl

/-- Where the mask of `allOddBits` has its bits. -/
theorem oddMask_getLsbD {i : ℕ} (hi : i < 32) :
    (0xAAAAAAAA#32).getLsbD i = decide (i % 2 = 1) := by
  have key : ∀ i < 32, (0xAAAAAAAA#32).getLsbD i = decide (i % 2 = 1) := by decide
  exact key i hi

/-- A single bit tests a bit. -/
theorem and_oneShl_eq_zero {x : BitVec 32} {i : ℕ} (hi : i < 32) :
    x &&& (1#32 <<< i) = 0#32 ↔ x.getLsbD i = false := by
  have hone : 1#32 <<< i = BitVec.twoPow 32 i := rfl
  have hne : BitVec.twoPow 32 i ≠ 0#32 := fun h => by
    have hbit := congrArg (fun w => BitVec.getLsbD w i) h
    simp [hi] at hbit
  rw [hone, BitVec.and_twoPow]
  cases x.getLsbD i <;> simp [hne]

/-- The loop returns whether all bits from `i` on, at every other place, are set. -/
theorem oddBitsFrom_cases (x : BitVec 32) (i : ℕ) :
    oddBitsFrom x i = 1#32 ∧ (∀ j < 32, i ≤ j → j % 2 = i % 2 → x.getLsbD j = true) ∨
      oddBitsFrom x i = 0#32 ∧ ∃ j < 32, i ≤ j ∧ j % 2 = i % 2 ∧ x.getLsbD j = false := by
  fun_induction oddBitsFrom x i with
  | case1 i hi hzero => exact .inr ⟨rfl, i, hi, Nat.le_refl i, rfl, (and_oneShl_eq_zero hi).1 hzero⟩
  | case2 i hi hone ih =>
      rw [and_oneShl_eq_zero hi, Bool.not_eq_false] at hone
      rcases ih with ⟨hres, hall⟩ | ⟨hres, j, hj, hij, hpar, hbit⟩
      · refine .inl ⟨hres, fun j hj hij hpar => ?_⟩
        rcases Nat.lt_or_ge j (i + 2) with hlt | hge
        · rwa [show j = i by omega]
        · exact hall j hj hge (by omega)
      · exact .inr ⟨hres, j, hj, by omega, by omega, hbit⟩
  | case3 i hi => exact .inl ⟨rfl, fun j hj hij => absurd hj (by omega)⟩

theorem allOddBits_eq (x : BitVec 32) : allOddBits x = testAllOddBits x := by
  have hmask : allOddBits x = lnot ((x &&& 0xAAAAAAAA#32) ^^^ 0xAAAAAAAA#32) := rfl
  have hiff : (x &&& 0xAAAAAAAA#32) ^^^ 0xAAAAAAAA#32 = 0#32 ↔
      ∀ j < 32, j % 2 = 1 → x.getLsbD j = true := by
    rw [BitVec.xor_eq_zero_iff]
    constructor
    · intro h j hj hodd
      have hbit := congrArg (fun w => BitVec.getLsbD w j) h
      simp only [BitVec.getLsbD_and, oddMask_getLsbD hj, hodd] at hbit
      simpa using hbit
    · intro h
      refine BitVec.eq_of_getLsbD_eq fun j hj => ?_
      rw [BitVec.getLsbD_and, oddMask_getLsbD hj]
      by_cases hodd : j % 2 = 1
      · simp [hodd, h j hj hodd]
      · simp [hodd]
  rw [hmask, testAllOddBits, lnot]
  rcases oddBitsFrom_cases x 1 with ⟨hres, hall⟩ | ⟨hres, j, hj, -, hpar, hbit⟩
  · rw [hres, if_pos (hiff.2 fun j hj hodd => hall j hj (by omega) hodd)]
  · rw [hres, if_neg fun h => by simp [hiff.1 h j hj hpar] at hbit]

theorem negate_eq (x : BitVec 32) : negate x = testNegate x := (BitVec.neg_eq_not_add x).symm

theorem isAsciiDigit_eq (x : BitVec 32) : isAsciiDigit x = testIsAsciiDigit x := by
  have hlow : x + ~~~0x30#32 + 1#32 = x - 0x30#32 := by
    rw [BitVec.sub_eq_add_neg, BitVec.neg_eq_not_add, BitVec.add_assoc]
  have hhigh : 0x39#32 + ~~~x + 1#32 = 0x39#32 - x := by
    rw [BitVec.sub_eq_add_neg, BitVec.neg_eq_not_add, BitVec.add_assoc]
  have h48 : (0x30#32).toInt = 48 := rfl
  have h57 : (0x39#32).toInt = 57 := rfl
  have hx := BitVec.le_toInt x
  have hx' := BitVec.toInt_lt (x := x)
  have hsub := toInt_sub_cond x 0x30#32
  have hsub' := toInt_sub_cond 0x39#32 x
  rw [isAsciiDigit, hlow, hhigh, lnot_sign, testIsAsciiDigit]
  congr 1
  rw [Bool.eq_iff_iff, decide_eq_true_iff, toInt_or_nonneg_iff, Bool.and_eq_true,
    BitVec.sle_iff_toInt_le, BitVec.sle_iff_toInt_le]
  omega

theorem conditional_eq (x y z : BitVec 32) : conditional x y z = testConditional x y z := by
  rw [conditional, testConditional, lnot]
  by_cases h : x = 0#32
  · rw [if_pos h, if_neg (not_not.2 h)]
    show (BitVec.allOnes 32 &&& z) + (0#32 &&& y) = z
    rw [BitVec.allOnes_and, BitVec.zero_and, BitVec.add_zero]
  · rw [if_neg h, if_pos h]
    show (0#32 &&& z) + (BitVec.allOnes 32 &&& y) = y
    rw [BitVec.allOnes_and, BitVec.zero_and, BitVec.zero_add]

theorem isLessOrEqual_eq (x y : BitVec 32) : isLessOrEqual x y = testIsLessOrEqual x y := by
  have hdiff : y + (~~~x + 1#32) = y - x := by
    rw [BitVec.sub_eq_add_neg, BitVec.neg_eq_not_add]
  have hx := BitVec.le_toInt x
  have hx' := BitVec.toInt_lt (x := x)
  have hy := BitVec.le_toInt y
  have hy' := BitVec.toInt_lt (x := y)
  have hsub := toInt_sub_cond y x
  rw [isLessOrEqual, testIsLessOrEqual, hdiff, lnot_sign, lnot_sign, sshiftRight_sign,
    sshiftRight_sign, truth, truth, truth]
  simp only [BitVec.sle_iff_toInt_le, decide_eq_true_iff]
  -- the difference is used only when the signs agree, and does not wrap around then
  split_ifs <;> first | omega | rfl

theorem logicalNeg_eq (x : BitVec 32) : logicalNeg x = testLogicalNeg x := by
  rcases eq_or_ne x 0#32 with rfl | hne
  · decide
  · have hx := BitVec.le_toInt x
    have hx' := BitVec.toInt_lt (x := x)
    have hsub := toInt_sub_cond 0#32 x
    have hneg : ~~~x + 1#32 = 0#32 - x := by
      rw [BitVec.sub_eq_add_neg, BitVec.neg_eq_not_add, BitVec.zero_add]
    have hor := toInt_or_nonneg_iff (0#32 - x) x
    have h0 : (0#32).toInt = 0 := rfl
    have hpos : x.toInt ≠ 0 := fun h => hne (BitVec.eq_of_toInt_eq h)
    -- a number and its opposite are not both nonnegative, unless they are zero
    have hsign : (0#32 - x ||| x).toInt < 0 := by
      rw [h0] at hsub
      split_ifs at hsub <;> omega
    rw [logicalNeg, testLogicalNeg, hneg, sshiftRight_sign, lnot, if_pos hsign, if_neg hne]
    decide

theorem howManyBits_eq (x : BitVec 32) : howManyBits x = testHowManyBits x := by
  rw [testHowManyBits_eq, ← toNat_howManyBits, BitVec.ofNat_toNat, BitVec.setWidth_eq]

/-- **The puzzles are their reference functions.** -/
theorem puzzles_agree (x y z : BitVec 32) :
    bitXor x y = testBitXor x y ∧ tmin = testTmin ∧ isTmax x = testIsTmax x ∧
      allOddBits x = testAllOddBits x ∧ negate x = testNegate x ∧
      isAsciiDigit x = testIsAsciiDigit x ∧ conditional x y z = testConditional x y z ∧
      isLessOrEqual x y = testIsLessOrEqual x y ∧ logicalNeg x = testLogicalNeg x ∧
      howManyBits x = testHowManyBits x :=
  ⟨bitXor_eq x y, rfl, isTmax_eq x, allOddBits_eq x, negate_eq x, isAsciiDigit_eq x,
    conditional_eq x y z, isLessOrEqual_eq x y, logicalNeg_eq x, howManyBits_eq x⟩

/-! ### Powers of two -/

/-- The puzzle, line for line. -/
def floatPower2 (x : BitVec 32) : BitVec 32 :=
  if 127 < x.toInt then 0x7F800000#32
  else if x.toInt < -126 then
    if x.toInt < -149 then 0#32
    else 1#32 <<< (x + 149#32)
  else (x + 127#32) <<< 23

/-- What a power of two is in single precision: its exact value where there is one, infinity beyond
the largest finite value, and zero below the smallest positive value. -/
structure IsPower (x : ℤ) (r : BitVec 32) : Prop where
  exact : single.Representable (2 ^ x) → u2f r = .finite (2 ^ x)
  overflow : single.maxFinite < 2 ^ x → u2f r = .infinite false
  underflow : (∀ q, single.Representable q → 0 < q → 2 ^ x < q) → r = 0#32
  total : single.Representable (2 ^ x) ∨ single.maxFinite < 2 ^ x ∨
    ∀ q, single.Representable q → 0 < q → 2 ^ x < q

/-- The sum with a small constant, as a natural number. -/
theorem toNat_add_of_nonneg {x c : BitVec 32} {n : ℕ} (hn : x.toInt + c.toInt = n)
    (hlt : n < 2 ^ 31) : (x + c).toNat = n := by
  have hcast : (x + c).toInt = n := by
    rw [BitVec.toInt_add, hn, Int.bmod_def]
    split_ifs <;> omega
  rw [BitVec.toInt_eq_toNat_cond] at hcast
  have hword := (x + c).isLt
  split_ifs at hcast <;> omega

/-- The pattern that is put together. -/
theorem toNat_floatPower2 (x : BitVec 32) :
    (floatPower2 x).toNat = single.powerPattern x.toInt := by
  have hscale : (single.scale : ℤ) = 149 := rfl
  have hbias : (single.bias : ℤ) = 127 := rfl
  rw [floatPower2, Format.powerPattern, hscale, hbias]
  by_cases hlarge : 127 < x.toInt
  · rw [if_pos hlarge, if_neg (by omega), if_neg (by omega), if_neg (by omega)]
    rfl
  rw [if_neg hlarge]
  by_cases hsub : x.toInt < -126
  · rw [if_pos hsub]
    by_cases hsmall : x.toInt < -149
    · rw [if_pos hsmall, if_pos hsmall]
      rfl
    · have hk : (x + 149#32).toNat = (x.toInt + 149).toNat :=
        toNat_add_of_nonneg (c := 149#32) (by show x.toInt + 149 = _; omega) (by omega)
      have hlt : 2 ^ (x.toInt + 149).toNat < 2 ^ 32 :=
        Nat.pow_lt_pow_right (by decide) (by omega)
      rw [if_neg hsmall, if_neg hsmall, if_pos (by omega), BitVec.shiftLeft_eq', hk,
        BitVec.toNat_shiftLeft, Nat.shiftLeft_eq]
      show 1 * _ % _ = _
      rw [Nat.one_mul, Nat.mod_eq_of_lt hlt]
  · have hk : (x + 127#32).toNat = (x.toInt + 127).toNat :=
      toNat_add_of_nonneg (c := 127#32) (by show x.toInt + 127 = _; omega) (by omega)
    have hbits : 2 ^ single.fracBits = 2 ^ 23 := rfl
    rw [if_neg hsub, if_neg (by omega), if_neg (by omega), if_pos (by omega),
      BitVec.toNat_shiftLeft, Nat.shiftLeft_eq, hk, hbits]
    omega

/-- It is that of the datum for the power. -/
theorem fields_floatPower2 (x : BitVec 32) : fields (floatPower2 x) = single.power x.toInt := by
  rw [fields, toNat_floatPower2]
  rfl

/-- **Every power of two that single precision has**, zero below them and infinity above. -/
theorem floatPower2_isPower (x : BitVec 32) : IsPower x.toInt (floatPower2 x) := by
  have hrep := single.representable_two_zpow_iff x.toInt
  have hscale : (single.scale : ℤ) = 149 := rfl
  have hbias : (single.bias : ℤ) = 127 := rfl
  rw [hscale, hbias] at hrep
  have hends : ∀ y : ℤ, -149 ≤ y → y ≤ 127 → single.Representable (2 ^ y) := fun y hlow hhigh =>
    (single.representable_two_zpow_iff y).2 ⟨by rwa [hscale], by rwa [hbias]⟩
  have hbig : 127 < x.toInt → single.maxFinite < 2 ^ x.toInt := fun h =>
    single.maxFinite_lt (by rwa [hbias])
  have hsmall : x.toInt < -149 → ∀ q, single.Representable q → 0 < q → 2 ^ x.toInt < q :=
    fun h q hq hpos => by
      have hle := hq.le_of_pos hpos
      rw [hscale] at hle
      exact (zpow_lt_zpow_right₀ one_lt_two h).trans_le hle
  have hfits : -149 ≤ x.toInt → x.toInt ≤ 127 → u2f (floatPower2 x) = .finite (2 ^ x.toInt) := by
    intro hlow hhigh
    rw [u2f, fields_floatPower2]
    exact single.decode_power (by rwa [hscale]) (by rwa [hbias])
  exact {
    exact := fun h => hfits (hrep.1 h).1 (hrep.1 h).2
    overflow := fun h => by
      have hlarge : 127 < x.toInt := by
        by_contra hle
        have hlast := (hends 127 (by decide) (by decide)).abs_le
        rw [abs_of_pos (zpow_pos two_pos _)] at hlast
        have hpow := zpow_le_zpow_right₀ (one_le_two (α := ℚ)) (not_lt.1 hle)
        exact absurd h (not_lt.2 (hpow.trans hlast))
      rw [floatPower2, if_pos hlarge]
      decide
    underflow := fun h => by
      have hlow := h _ (hends (-149) (by decide) (by decide)) (zpow_pos two_pos _)
      rw [zpow_lt_zpow_iff_right₀ one_lt_two] at hlow
      rw [floatPower2, if_neg (by omega), if_pos (by omega), if_pos hlow]
    total := by
      rcases lt_or_ge 127 x.toInt with h | h
      · exact .inr (.inl (hbig h))
      · rcases lt_or_ge x.toInt (-149) with h' | h'
        · exact .inr (.inr (hsmall h'))
        · exact .inl (hrep.2 ⟨h', h⟩) }

end Bits
