/-
**What the tests see.**

`btest` compares each puzzle with its reference function on values that `gen_vals` makes up: around
the ends of the range, around zero and at random for an `int`, and around the borders between the
kinds of floats for the pattern of a float.  A run of the loops ends at the first difference, so
that it counts none exactly when there is none on the values.

The values for floats stay below the largest power of two or are powers of two themselves, next to
it.  The patterns that `floatScale2` gets wrong are those above it, so that the tests accept it.

The reference functions of the puzzles for floats calculate with floats: `test_floatPower2` squares
and multiplies, each product rounded to single precision.

Main definitions:

* `testFloatScale2`, `testFloatFloat2Int`, `testFloatPower2` — the reference functions for floats;
* `TestRec`, `testSet` — the table of the puzzles;
* `genVals`, `testFunction` — the values, and the comparison.

Main results:

* `powerLoop_power` — squaring and multiplying adds up the exponent;
* `floatPower2_agrees` — `floatPower2` is its reference function;
* `testFunction_of_agrees` — no difference on the values, no errors;
* `floatScale2_agrees` — where `floatScale2` agrees with its reference function;
* `testFunction_testSet` — **the tests accept the table**, whatever the random numbers.
-/

import CsappLab.BitsPuzzles
import CsappLab.FloatProduct

set_option relaxedAutoImplicit false
set_option autoImplicit false

namespace Bits

open BinaryFloat

/-! ### The reference functions for floats -/

/-- `2 * f` on the bits, and a NaN as it is. -/
def testFloatScale2 (uf : BitVec 32) : BitVec 32 :=
  if u2f uf = .nan then uf else BitVec.ofNat 32 (fields uf).double.toNat

def testFloatFloat2Int (uf : BitVec 32) : BitVec 32 := castInt (u2f uf)

/-- The pattern of a float. -/
def f2u (f : Datum single) : BitVec 32 := BitVec.ofNat 32 f.toNat

/-- The loop of `test_floatPower2`. -/
def powerLoop (x : BitVec 32) (result p2 : Datum single) : Datum single :=
  if 0 < x.toInt then
    powerLoop (x.sshiftRight 1) (if x &&& 1#32 ≠ 0#32 then result.mul p2 else result) (p2.mul p2)
  else result
termination_by x.toInt.toNat
decreasing_by
  rw [BitVec.toInt_sshiftRight, Int.shiftRight_eq_div_pow]
  omega

/-- `test_floatPower2`; the constants are `1.0`, `0.5` and `2.0`. -/
def testFloatPower2 (x : BitVec 32) : BitVec 32 :=
  if x = 0x80000000#32 then 0#32
  else if x.toInt < 0 then
    f2u (powerLoop (-x) (fields 0x3f800000#32) (fields 0x3f000000#32))
  else f2u (powerLoop x (fields 0x3f800000#32) (fields 0x40000000#32))

/-! ### The table -/

/-- `test_rec`, as far as the tests read it; a function of fewer arguments ignores the others. -/
structure TestRec where
  name : String
  solutionFunct : BitVec 32 → BitVec 32 → BitVec 32 → BitVec 32
  testFunct : BitVec 32 → BitVec 32 → BitVec 32 → BitVec 32
  args : ℕ
  argRanges : ℕ → ℤ × ℤ

def TMin : ℤ := -2 ^ 31

def TMax : ℤ := 2 ^ 31 - 1

/-- `test_set`. -/
def testSet : List TestRec :=
  [⟨"bitXor", fun x y _ => bitXor x y, fun x y _ => testBitXor x y, 2, fun _ => (TMin, TMax)⟩,
    ⟨"tmin", fun _ _ _ => tmin, fun _ _ _ => testTmin, 0, fun _ => (TMin, TMax)⟩,
    ⟨"isTmax", fun x _ _ => isTmax x, fun x _ _ => testIsTmax x, 1, fun _ => (TMin, TMax)⟩,
    ⟨"allOddBits", fun x _ _ => allOddBits x, fun x _ _ => testAllOddBits x, 1,
      fun _ => (TMin, TMax)⟩,
    ⟨"negate", fun x _ _ => negate x, fun x _ _ => testNegate x, 1, fun _ => (TMin, TMax)⟩,
    ⟨"isAsciiDigit", fun x _ _ => isAsciiDigit x, fun x _ _ => testIsAsciiDigit x, 1,
      fun _ => (TMin, TMax)⟩,
    ⟨"conditional", conditional, testConditional, 3, fun _ => (TMin, TMax)⟩,
    ⟨"isLessOrEqual", fun x y _ => isLessOrEqual x y, fun x y _ => testIsLessOrEqual x y, 2,
      fun _ => (TMin, TMax)⟩,
    ⟨"logicalNeg", fun x _ _ => logicalNeg x, fun x _ _ => testLogicalNeg x, 1,
      fun _ => (TMin, TMax)⟩,
    ⟨"howManyBits", fun x _ _ => howManyBits x, fun x _ _ => testHowManyBits x, 1,
      fun _ => (TMin, TMax)⟩,
    ⟨"floatScale2", fun x _ _ => floatScale2 x, fun x _ _ => testFloatScale2 x, 1,
      fun _ => (1, 1)⟩,
    ⟨"floatFloat2Int", fun x _ _ => floatFloat2Int x, fun x _ _ => testFloatFloat2Int x, 1,
      fun _ => (1, 1)⟩,
    ⟨"floatPower2", fun x _ _ => floatPower2 x, fun x _ _ => testFloatPower2 x, 1,
      fun _ => (1, 1)⟩]

/-! ### The values -/

/-- `TEST_RANGE`. -/
def baseRange : ℕ := 500000

/-- `MAX_TEST_VALS`. -/
def maxTestVals : ℤ := 13 * 500000

/-- The values around the borders between the kinds of floats, for one `i`. -/
def floatVals (i : ℕ) : List (BitVec 32) :=
  let smallestNorm := 0x00800000#32
  let one := 0x3f800000#32
  let largestNorm := 0x7f000000#32
  let sign := 0x80000000#32
  let i := BitVec.ofNat 32 i
  [i, sign ||| i, smallestNorm + i, smallestNorm - i, sign ||| (smallestNorm + i),
    sign ||| (smallestNorm - i), one + i, one - i, sign ||| (one + i), sign ||| (one - i),
    largestNorm - i, sign ||| (largestNorm - i)]

/-- The infinities and a NaN of each sign. -/
def specialVals : List (BitVec 32) := [0x7f800000#32, 0xff800000#32, 0x7fc00000#32, 0xffc00000#32]

/-- The values of an `int` around the ends of its range, around zero and at random, for one `i`. -/
def intVals (min max : ℤ) (random : ℕ → ℤ) (i : ℕ) : List (BitVec 32) :=
  [BitVec.ofInt 32 (min + i), BitVec.ofInt 32 (max - i)] ++
    (if min ≤ i ∧ i ≤ max then [BitVec.ofInt 32 i] else []) ++
    (if min ≤ -i ∧ -i ≤ max then [BitVec.ofInt 32 (-i)] else []) ++ [BitVec.ofInt 32 (random i)]

/-- At most half the range of one exponent. -/
def floatRange (testRange : ℕ) : ℕ := if 2 ^ 23 < testRange then 2 ^ 23 else testRange

theorem floatRange_le (testRange : ℕ) : floatRange testRange ≤ 2 ^ 23 := by
  unfold floatRange
  split_ifs <;> omega

/-- `gen_vals`; `random` is what `random_val` returns, and `argval` an argument from the command
line. -/
def genVals (min max : ℤ) (testRange : ℕ) (argval : Option (BitVec 32)) (random : ℕ → ℤ) :
    List (BitVec 32) :=
  match argval with
  | some v => [v]
  | none =>
      if min = 1 ∧ max = 1 then
        (List.range (floatRange testRange)).flatMap floatVals ++ specialVals
      else if max - maxTestVals ≤ min then
        (List.range (max + 1 - min).toNat).map fun i => BitVec.ofInt 32 (min + i)
      else (List.range testRange).flatMap (intVals min max random)

/-! ### The comparison -/

/-- A loop that adds up errors and returns from the function when there are any. -/
def untilError {α : Type} (errors : α → ℕ) : List α → ℕ
  | [] => 0
  | x :: xs => if errors x ≠ 0 then errors x else untilError errors xs

/-- `test_0_arg` to `test_3_arg`, without what they print. -/
def testArgs (t : TestRec) (x y z : BitVec 32) : ℕ :=
  if t.solutionFunct x y z ≠ t.testFunct x y z then 1 else 0

/-- The ranges by the number of arguments: `TEST_RANGE`, its square root and its cube root. -/
def argTestRange (args : ℕ) : ℕ := if args = 1 then baseRange else if args = 2 then 707 else 79

/-- `test_function`, but for the time limit: the errors, of which the first ends the loops. -/
def testFunction (t : TestRec) (argval : ℕ → Option (BitVec 32)) (random : ℕ → ℕ → ℤ) : ℕ :=
  let vals := fun i => genVals (t.argRanges i).1 (t.argRanges i).2 (argTestRange t.args) (argval i)
    (random i)
  match t.args with
  | 0 => testArgs t 0#32 0#32 0#32
  | 1 => untilError (fun x => testArgs t x 0#32 0#32) (vals 0)
  | 2 => untilError (fun x => untilError (fun y => testArgs t x y 0#32) (vals 1)) (vals 0)
  | _ => untilError (fun x => untilError (fun y => untilError (fun z => testArgs t x y z) (vals 2))
      (vals 1)) (vals 0)

/-! ### No errors -/

theorem untilError_eq_zero_iff {α : Type} (errors : α → ℕ) (xs : List α) :
    untilError errors xs = 0 ↔ ∀ x ∈ xs, errors x = 0 := by
  induction xs with
  | nil => simp [untilError]
  | cons x xs ih =>
      rw [untilError, List.forall_mem_cons]
      split
      · rename_i h
        exact ⟨fun h' => absurd h' h, fun h' => absurd h'.1 h⟩
      · rename_i h
        rw [ih, not_not.1 h]
        exact ⟨fun h' => ⟨rfl, h'⟩, fun h' => h'.2⟩

theorem testArgs_eq_zero_iff (t : TestRec) (x y z : BitVec 32) :
    testArgs t x y z = 0 ↔ t.solutionFunct x y z = t.testFunct x y z := by
  rw [testArgs]
  split <;> simp_all

/-- A function of some arguments that agrees with its reference on the values made up for the first,
whatever the others are, has no errors. -/
theorem testFunction_of_agrees {t : TestRec} (hargs : t.args ≠ 0)
    {argval : ℕ → Option (BitVec 32)} {random : ℕ → ℕ → ℤ}
    (h : ∀ x ∈ genVals (t.argRanges 0).1 (t.argRanges 0).2 (argTestRange t.args) (argval 0)
      (random 0), ∀ y z, t.solutionFunct x y z = t.testFunct x y z) :
    testFunction t argval random = 0 := by
  unfold testFunction
  dsimp only
  split <;> simp only [untilError_eq_zero_iff, testArgs_eq_zero_iff]
  · rename_i hzero
    exact absurd hzero hargs
  · exact fun x hx => h x hx _ _
  · exact fun x hx y _ => h x hx y _
  · exact fun x hx y _ z _ => h x hx y z

/-- A function that is its reference has no errors. -/
theorem testFunction_of_eq {t : TestRec}
    (h : ∀ x y z, t.solutionFunct x y z = t.testFunct x y z) (argval : ℕ → Option (BitVec 32))
    (random : ℕ → ℕ → ℤ) : testFunction t argval random = 0 := by
  by_cases hargs : t.args = 0
  · unfold testFunction
    rw [hargs]
    exact (testArgs_eq_zero_iff t _ _ _).2 (h _ _ _)
  · exact testFunction_of_agrees hargs fun x _ => h x

/-! ### Patterns -/

theorem eq_of_fields {v w : BitVec 32} (h : fields v = fields w) : v = w := by
  have hnum : ∀ u : BitVec 32, (fields u).toNat = u.toNat := fun u => by
    have hlt := u.isLt
    have hsign : (fields u).negative.toNat = u.toNat / 2 ^ 31 % 2 := by
      show (decide (u.toNat / 2 ^ 31 % 2 = 1)).toNat = u.toNat / 2 ^ 31 % 2
      rcases Nat.mod_two_eq_zero_or_one (u.toNat / 2 ^ 31) with h | h <;> rw [h] <;> rfl
    show (fields u).negative.toNat * 2 ^ 31 + u.toNat / 2 ^ 23 % 2 ^ 8 * 2 ^ 23 +
      u.toNat % 2 ^ 23 = u.toNat
    rw [hsign]
    omega
  refine BitVec.eq_of_toNat_eq ?_
  rw [← hnum v, ← hnum w, h]

/-- The pattern of a datum has its fields. -/
theorem fields_ofNat (d : Datum single) : fields (BitVec.ofNat 32 d.toNat) = d := by
  have hexp : d.exponent < 2 ^ 8 := d.exponent_lt
  have hfrac : d.fraction < 2 ^ 23 := d.fraction_lt
  have hlt : d.toNat < 2 ^ 32 := by
    have hsign : d.negative.toNat ≤ 1 := Bool.toNat_le _
    show d.negative.toNat * 2 ^ 31 + d.exponent * 2 ^ 23 + d.fraction < 2 ^ 32
    omega
  rw [fields, BitVec.toNat_ofNat, Nat.mod_eq_of_lt hlt]
  exact Datum.ofNat_toNat d

/-! ### Powers of two -/

/-- The lowest bit of an `int`. -/
theorem and_one_cases (x : BitVec 32) :
    x &&& 1#32 = 0#32 ∧ x.toInt % 2 = 0 ∨ x &&& 1#32 ≠ 0#32 ∧ x.toInt % 2 = 1 := by
  have hbit : (x &&& 1#32).toNat = x.toNat % 2 := by
    rw [BitVec.toNat_and]
    exact Nat.and_one_is_mod x.toNat
  have hmod : x.toInt % 2 = (x.toNat % 2 : ℕ) := by
    rw [BitVec.toInt_eq_toNat_cond]
    split <;> omega
  rw [hmod, ne_eq, ← BitVec.toNat_inj, hbit]
  show x.toNat % 2 = 0 ∧ _ ∨ ¬ x.toNat % 2 = 0 ∧ _
  omega

/-- **Squaring and multiplying adds up the exponent.** The exponents of the two floats have the same
sign, so that no product is one of a number below one and one above. -/
theorem powerLoop_power {x : BitVec 32} (hx : 0 ≤ x.toInt) {r p : ℤ}
    (h : 0 ≤ r ∧ 0 ≤ p ∨ r ≤ 0 ∧ p ≤ 0) :
    powerLoop x (single.power r) (single.power p) = single.power (r + x.toInt * p) := by
  induction hn : x.toInt.toNat using Nat.strong_induction_on generalizing x r p with
  | _ n ih =>
      rw [powerLoop]
      by_cases hpos : 0 < x.toInt
      case neg =>
        have hzero : x.toInt = 0 := by omega
        rw [if_neg hpos, hzero, Int.zero_mul, Int.add_zero]
      have hshift : (x.sshiftRight 1).toInt = x.toInt / 2 := by
        rw [BitVec.toInt_sshiftRight, Int.shiftRight_eq_div_pow]
        rfl
      have hsquare : (single.power p).mul (single.power p) = single.power (p + p) :=
        Format.mul_power (by omega)
      have hmul : (if x &&& 1#32 ≠ 0#32 then (single.power r).mul (single.power p)
          else single.power r) = single.power (r + x.toInt % 2 * p) := by
        rcases and_one_cases x with ⟨hbit, hmod⟩ | ⟨hbit, hmod⟩
        · rw [if_neg (not_not_intro hbit), hmod, Int.zero_mul, Int.add_zero]
        · rw [if_pos hbit, hmod, Int.one_mul]
          exact Format.mul_power h
      have hsign : 0 ≤ r + x.toInt % 2 * p ∧ 0 ≤ p + p ∨ r + x.toInt % 2 * p ≤ 0 ∧ p + p ≤ 0 := by
        rcases Int.emod_two_eq_zero_or_one x.toInt with hmod | hmod <;> rw [hmod] <;> omega
      rw [if_pos hpos, hsquare, hmul, ih _ (by omega) (by omega) hsign rfl, hshift]
      congr 1
      calc r + x.toInt % 2 * p + x.toInt / 2 * (p + p)
          = r + (x.toInt % 2 + 2 * (x.toInt / 2)) * p := by ring
        _ = r + x.toInt * p := by rw [Int.emod_add_mul_ediv]

/-- **`floatPower2` is its reference function.** -/
theorem floatPower2_agrees (x : BitVec 32) : floatPower2 x = testFloatPower2 x := by
  have hone : fields 0x3f800000#32 = single.power 0 := rfl
  have hhalf : fields 0x3f000000#32 = single.power (-1) := rfl
  have htwo : fields 0x40000000#32 = single.power 1 := rfl
  have hpattern : floatPower2 x = f2u (single.power x.toInt) := by
    refine eq_of_fields ?_
    rw [f2u, fields_floatPower2, fields_ofNat]
  rw [testFloatPower2, hone, hhalf, htwo]
  by_cases hmin : x = 0x80000000#32
  · rw [if_pos hmin, hmin]
    decide
  rw [if_neg hmin, hpattern]
  split_ifs with hneg
  · have hminus : (-x).toInt = -x.toInt := by
      rw [BitVec.toInt_neg_of_ne_intMin hmin]
    rw [powerLoop_power (by omega) (.inr ⟨le_rfl, by decide⟩), hminus]
    congr 2
    ring
  · rw [powerLoop_power (by omega) (.inl ⟨le_rfl, by decide⟩)]
    congr 2
    ring

/-! ### Doubling on the values -/

/-- Where `floatScale2` agrees with its reference function: off the last finite exponent, and on the
power of two that has it. -/
theorem floatScale2_agrees {v : BitVec 32}
    (h : (fields v).exponent ≠ 254 ∨ (fields v).fraction = 0) :
    floatScale2 v = testFloatScale2 v := by
  have hfields := fields_floatScale2 h
  refine eq_of_fields ?_
  rw [testFloatScale2]
  split
  · rename_i hnan
    obtain ⟨hexp, -⟩ := Datum.decode_eq_nan_iff.1 hnan
    rw [hfields, Datum.double_of_exponent_eq hexp]
  · rw [hfields, fields_ofNat]

/-- The sign is not part of the exponent or of the fraction. -/
theorem fields_sign_or {w : BitVec 32} (hw : w.toNat < 2 ^ 31) :
    (fields (0x80000000#32 ||| w)).exponent = (fields w).exponent ∧
      (fields (0x80000000#32 ||| w)).fraction = (fields w).fraction := by
  have hor : (0x80000000#32 ||| w).toNat = 2 ^ 31 + w.toNat := by
    rw [BitVec.toNat_or]
    exact (Nat.two_pow_add_eq_or_of_lt hw 1).symm
  constructor
  · show (0x80000000#32 ||| w).toNat / 2 ^ 23 % 2 ^ 8 = w.toNat / 2 ^ 23 % 2 ^ 8
    omega
  · show (0x80000000#32 ||| w).toNat % 2 ^ 23 = w.toNat % 2 ^ 23
    omega

/-- Up to the last power of two, and with either sign. -/
theorem exponent_of_le {w : BitVec 32} (hw : w.toNat ≤ 254 * 2 ^ 23) :
    ((fields w).exponent ≠ 254 ∨ (fields w).fraction = 0) ∧
      ((fields (0x80000000#32 ||| w)).exponent ≠ 254 ∨
        (fields (0x80000000#32 ||| w)).fraction = 0) := by
  have hplain : (fields w).exponent ≠ 254 ∨ (fields w).fraction = 0 := by
    show w.toNat / 2 ^ 23 % 2 ^ 8 ≠ 254 ∨ w.toNat % 2 ^ 23 = 0
    omega
  obtain ⟨hexp, hfrac⟩ := fields_sign_or (w := w) (by omega)
  exact ⟨hplain, by rwa [hexp, hfrac]⟩

theorem toNat_add_le {c : BitVec 32} {i : ℕ} (hc : c.toNat ≤ 127 * 2 ^ 23) (hi : i < 2 ^ 23) :
    (c + BitVec.ofNat 32 i).toNat ≤ 254 * 2 ^ 23 := by
  rw [BitVec.toNat_add, BitVec.toNat_ofNat]
  omega

theorem toNat_sub_le {c : BitVec 32} {i : ℕ} (hc : 2 ^ 23 ≤ c.toNat) (hc' : c.toNat ≤ 254 * 2 ^ 23)
    (hi : i < 2 ^ 23) : (c - BitVec.ofNat 32 i).toNat ≤ 254 * 2 ^ 23 := by
  rw [BitVec.toNat_sub, BitVec.toNat_ofNat]
  omega

/-- The values made up for floats are not between the last two powers of two. -/
theorem floatVals_exponent {i : ℕ} (hi : i < 2 ^ 23) {v : BitVec 32} (hv : v ∈ floatVals i) :
    (fields v).exponent ≠ 254 ∨ (fields v).fraction = 0 := by
  have hzero := exponent_of_le (w := BitVec.ofNat 32 i) (by rw [BitVec.toNat_ofNat]; omega)
  have hnorm := exponent_of_le (toNat_add_le (c := 0x00800000#32) (by decide) hi)
  have hdenorm := exponent_of_le (toNat_sub_le (c := 0x00800000#32) (by decide) (by decide) hi)
  have hone := exponent_of_le (toNat_add_le (c := 0x3f800000#32) (by decide) hi)
  have hbelow := exponent_of_le (toNat_sub_le (c := 0x3f800000#32) (by decide) (by decide) hi)
  have hlargest := exponent_of_le (toNat_sub_le (c := 0x7f000000#32) (by decide) (by decide) hi)
  simp only [floatVals, List.mem_cons, List.not_mem_nil, or_false] at hv
  rcases hv with h | h | h | h | h | h | h | h | h | h | h | h <;> rw [h]
  · exact hzero.1
  · exact hzero.2
  · exact hnorm.1
  · exact hdenorm.1
  · exact hnorm.2
  · exact hdenorm.2
  · exact hone.1
  · exact hbelow.1
  · exact hone.2
  · exact hbelow.2
  · exact hlargest.1
  · exact hlargest.2

/-- None of the values that `gen_vals` makes up for a float shows the fault of `floatScale2`. -/
theorem genVals_float {testRange : ℕ} {random : ℕ → ℤ} {v : BitVec 32}
    (hv : v ∈ genVals 1 1 testRange none random) : floatScale2 v = testFloatScale2 v := by
  refine floatScale2_agrees ?_
  rw [genVals, if_pos ⟨rfl, rfl⟩, List.mem_append] at hv
  rcases hv with hv | hv
  · obtain ⟨i, hi, hv⟩ := List.mem_flatMap.1 hv
    have hlt := List.mem_range.1 hi
    exact floatVals_exponent (hlt.trans_le (floatRange_le testRange)) hv
  · simp only [specialVals, List.mem_cons, List.not_mem_nil, or_false] at hv
    rcases hv with rfl | rfl | rfl | rfl <;> exact .inl (by decide)

/-! ### The verdict -/

/-- **The tests accept the table**, whatever the random numbers; among the puzzles is `floatScale2`,
which does not agree with its reference function everywhere. -/
theorem testFunction_testSet (random : ℕ → ℕ → ℤ) :
    (∀ t ∈ testSet, testFunction t (fun _ => none) random = 0) ∧
      ∃ v, floatScale2 v ≠ testFloatScale2 v := by
  have hdiffer : floatScale2 0x7F000001#32 ≠ testFloatScale2 0x7F000001#32 := by
    decide +kernel
  refine ⟨fun t ht => ?_, _, hdiffer⟩
  simp only [testSet, List.mem_cons, List.not_mem_nil, or_false] at ht
  rcases ht with rfl | rfl | rfl | rfl | rfl | rfl | rfl | rfl | rfl | rfl | rfl | rfl | rfl
  · exact testFunction_of_eq (fun x y _ => bitXor_eq x y) _ _
  · exact testFunction_of_eq (fun _ _ _ => rfl) _ _
  · exact testFunction_of_eq (fun x _ _ => isTmax_eq x) _ _
  · exact testFunction_of_eq (fun x _ _ => allOddBits_eq x) _ _
  · exact testFunction_of_eq (fun x _ _ => negate_eq x) _ _
  · exact testFunction_of_eq (fun x _ _ => isAsciiDigit_eq x) _ _
  · exact testFunction_of_eq conditional_eq _ _
  · exact testFunction_of_eq (fun x y _ => isLessOrEqual_eq x y) _ _
  · exact testFunction_of_eq (fun x _ _ => logicalNeg_eq x) _ _
  · exact testFunction_of_eq (fun x _ _ => howManyBits_eq x) _ _
  · exact testFunction_of_agrees (by decide) fun x hx _ _ => genVals_float hx
  · exact testFunction_of_eq (fun x _ _ => floatFloat2Int_castInt x) _ _
  · exact testFunction_of_eq (fun x _ _ => floatPower2_agrees x) _ _

end Bits
