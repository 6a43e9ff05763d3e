/-
**Binary floating-point formats.**

A format has a number of exponent bits and a number of fraction bits.  A datum is a sign, an
exponent field and a fraction field in their ranges, and it decodes to NaN, to an infinity or to
a rational number.  Every finite value is a whole number of the smallest subnormal
(`Datum.units`), which is where the proofs work: doubling moves no bits off the end, and
truncation is a division of natural numbers.

Main definitions:

* `Format`, `Datum` — formats, and the fields of a datum;
* `Datum.ofNat` — the fields of a bit pattern;
* `Datum.decode` — what a datum stands for;
* `Format.maxFinite`, `Format.Representable` — the largest finite value, the values there are;
* `Datum.double`, `truncate` — doubling, and rounding toward zero;
* `Format.power` — the datum for a power of two.

Main results:

* `Format.isGreatest_maxFinite` — the largest finite value is what its name says;
* `Datum.decode_double_finite`, `Datum.decode_double_overflow` — doubling is exact, or leaves the
  range for the infinity of the same sign;
* `Datum.truncate_value` — rounding toward zero as a division;
* `Format.decode_power` — a power of two from the smallest subnormal on is its datum's value.
-/

import Mathlib.Data.Rat.Floor
import Mathlib.Tactic.FieldSimp
import Mathlib.Tactic.Linarith
import Mathlib.Tactic.Positivity
import Mathlib.Tactic.Ring

set_option relaxedAutoImplicit false
set_option autoImplicit false

namespace BinaryFloat

/-! ### Formats -/

/-- A binary format: how many bits the exponent field has and how many the fraction field. -/
structure Format where
  expBits : ℕ
  fracBits : ℕ
  two_le_expBits : 2 ≤ expBits

namespace Format

variable (F : Format)

/-- The exponent field with all bits set, kept for infinities and NaN. -/
def expMax : ℕ := 2 ^ F.expBits - 1

def bias : ℕ := 2 ^ (F.expBits - 1) - 1

/-- The smallest subnormal is `1 / 2 ^ scale`. -/
def scale : ℕ := F.bias + F.fracBits - 1

theorem three_le_expMax : 3 ≤ F.expMax := by
  have h : 2 ^ 2 ≤ 2 ^ F.expBits := Nat.pow_le_pow_right (by decide) F.two_le_expBits
  unfold expMax
  omega

theorem bias_pos : 0 < F.bias := by
  have hbits := F.two_le_expBits
  have h : 2 ^ 1 ≤ 2 ^ (F.expBits - 1) := Nat.pow_le_pow_right (by decide) (by omega)
  unfold bias
  omega

theorem lt_two_pow_expBits {e : ℕ} : e < 2 ^ F.expBits ↔ e ≤ F.expMax := by
  have h := Nat.two_pow_pos F.expBits
  unfold expMax
  omega

end Format

/-! ### Data -/

/-- What a datum stands for. -/
inductive Value where
  | nan
  | infinite (negative : Bool)
  | finite (v : ℚ)
  deriving DecidableEq

/-- The fields of a datum, each within its bits. -/
@[ext]
structure Datum (F : Format) where
  negative : Bool
  exponent : ℕ
  fraction : ℕ
  exponent_lt : exponent < 2 ^ F.expBits
  fraction_lt : fraction < 2 ^ F.fracBits

namespace Datum

variable {F : Format}

/-- The fields of a bit pattern: sign, exponent and fraction from the top bit down. -/
def ofNat (F : Format) (n : ℕ) : Datum F where
  negative := decide (n / 2 ^ (F.expBits + F.fracBits) % 2 = 1)
  exponent := n / 2 ^ F.fracBits % 2 ^ F.expBits
  fraction := n % 2 ^ F.fracBits
  exponent_lt := Nat.mod_lt _ (Nat.two_pow_pos _)
  fraction_lt := Nat.mod_lt _ (Nat.two_pow_pos _)

/-- The bit pattern of the fields. -/
def toNat (d : Datum F) : ℕ :=
  d.negative.toNat * 2 ^ (F.expBits + F.fracBits) + d.exponent * 2 ^ F.fracBits + d.fraction

/-- The magnitude, exponents read with the bias: below the least exponent the leading one is
missing. -/
def magnitude (d : Datum F) : ℚ :=
  if d.exponent = 0 then d.fraction / 2 ^ F.fracBits * 2 ^ (1 - (F.bias : ℤ))
  else (1 + d.fraction / 2 ^ F.fracBits) * 2 ^ ((d.exponent : ℤ) - F.bias)

def value (d : Datum F) : ℚ := if d.negative then -d.magnitude else d.magnitude

def decode (d : Datum F) : Value :=
  if d.exponent = F.expMax then if d.fraction = 0 then .infinite d.negative else .nan
  else .finite d.value

end Datum

/-! ### Bit patterns -/

namespace Datum

variable {F : Format}

theorem ofNat_toNat (d : Datum F) : ofNat F d.toNat = d := by
  have hexp := d.exponent_lt
  have hfrac := d.fraction_lt
  have hsplit : d.toNat =
      (d.negative.toNat * 2 ^ F.expBits + d.exponent) * 2 ^ F.fracBits + d.fraction := by
    rw [toNat, pow_add]
    ring
  have hlow : d.toNat % 2 ^ F.fracBits = d.fraction := by
    rw [hsplit, Nat.mul_add_mod_self_right, Nat.mod_eq_of_lt hfrac]
  have hhigh : d.toNat / 2 ^ F.fracBits = d.negative.toNat * 2 ^ F.expBits + d.exponent := by
    rw [hsplit, Nat.add_comm, Nat.add_mul_div_right _ _ (Nat.two_pow_pos _), Nat.div_eq_of_lt hfrac,
      Nat.zero_add]
  have hsign : d.toNat / 2 ^ (F.expBits + F.fracBits) = d.negative.toNat := by
    rw [pow_add, Nat.mul_comm, ← Nat.div_div_eq_div_mul, hhigh, Nat.add_comm,
      Nat.add_mul_div_right _ _ (Nat.two_pow_pos _), Nat.div_eq_of_lt hexp, Nat.zero_add]
  refine Datum.ext ?_ ?_ hlow
  · show decide (d.toNat / 2 ^ (F.expBits + F.fracBits) % 2 = 1) = d.negative
    rw [hsign]
    cases d.negative <;> rfl
  · show d.toNat / 2 ^ F.fracBits % 2 ^ F.expBits = d.exponent
    rw [hhigh, Nat.mul_add_mod_self_right, Nat.mod_eq_of_lt hexp]

/-- The fields of a positive datum are put side by side. -/
theorem ofNat_fields {e f : ℕ} (he : e < 2 ^ F.expBits) (hf : f < 2 ^ F.fracBits) :
    ofNat F (e * 2 ^ F.fracBits + f) = ⟨false, e, f, he, hf⟩ := by
  have h := ofNat_toNat (F := F) ⟨false, e, f, he, hf⟩
  rwa [toNat, Bool.toNat_false, Nat.zero_mul, Nat.zero_add] at h

end Datum

namespace Format

variable (F : Format)

/-- The values some datum of the format has. -/
def Representable (q : ℚ) : Prop := ∃ d : Datum F, d.decode = .finite q

/-- The largest finite value: the last exponent before the infinities and every fraction bit. -/
def maxFinite : ℚ := (2 ^ (F.fracBits + 1) - 1) * 2 ^ (F.expMax - 2) / 2 ^ F.scale

end Format

/-! ### Values as multiples of the smallest subnormal -/

namespace Datum

variable {F : Format}

/-- A finite magnitude counted in smallest subnormals.  The natural subtraction gives the exponent
field zero the step of the field one. -/
def units (d : Datum F) : ℕ :=
  (if d.exponent = 0 then d.fraction else 2 ^ F.fracBits + d.fraction) * 2 ^ (d.exponent - 1)

theorem units_of_exponent_zero {d : Datum F} (h : d.exponent = 0) : d.units = d.fraction := by
  simp [units, h]

theorem units_of_exponent_pos {d : Datum F} (h : d.exponent ≠ 0) :
    d.units = (2 ^ F.fracBits + d.fraction) * 2 ^ (d.exponent - 1) := by
  simp [units, h]

theorem magnitude_eq (d : Datum F) : d.magnitude = d.units / 2 ^ F.scale := by
  have hscale : (F.scale : ℤ) = F.bias + F.fracBits - 1 := by
    have h := F.bias_pos
    unfold Format.scale
    omega
  have hfracBits : (2 : ℚ) ^ F.fracBits = 2 ^ (F.fracBits : ℤ) := (zpow_natCast _ _).symm
  have hunit : (2 : ℚ) ^ F.scale * 2 ^ (1 - (F.bias : ℤ)) = 2 ^ F.fracBits := by
    rw [← zpow_natCast, hscale, hfracBits, ← zpow_add₀ two_ne_zero]
    congr 1
    ring
  rw [eq_div_iff (by positivity), magnitude]
  split_ifs with h
  · rw [units_of_exponent_zero h, mul_assoc, mul_comm (2 ^ _) (2 ^ F.scale), hunit]
    field_simp
  · -- the step of the exponent field is the unit, doubled once for every value above one
    have hstep : (2 : ℚ) ^ ((d.exponent : ℤ) - F.bias) =
        2 ^ (d.exponent - 1) * 2 ^ (1 - (F.bias : ℤ)) := by
      rw [← zpow_natCast, ← zpow_add₀ two_ne_zero]
      congr 1
      omega
    rw [units_of_exponent_pos h, hstep, mul_assoc, mul_assoc, mul_comm (2 ^ _) (2 ^ F.scale), hunit]
    push_cast
    field_simp

theorem magnitude_nonneg (d : Datum F) : 0 ≤ d.magnitude := by
  rw [magnitude_eq]
  positivity

theorem abs_value (d : Datum F) : |d.value| = d.magnitude := by
  unfold value
  split_ifs
  · rw [abs_neg, abs_of_nonneg d.magnitude_nonneg]
  · exact abs_of_nonneg d.magnitude_nonneg

theorem decode_eq_finite_iff {d : Datum F} {v : ℚ} :
    d.decode = .finite v ↔ d.exponent < F.expMax ∧ d.value = v := by
  have hle := F.lt_two_pow_expBits.mp d.exponent_lt
  unfold decode
  split_ifs with h hfrac
  · simp [h]
  · simp [h]
  · simp [lt_of_le_of_ne hle h]

theorem decode_eq_infinite_iff {d : Datum F} {s : Bool} :
    d.decode = .infinite s ↔ d.exponent = F.expMax ∧ d.fraction = 0 ∧ d.negative = s := by
  unfold decode
  split_ifs with h hfrac <;> simp [*]

theorem decode_eq_nan_iff {d : Datum F} :
    d.decode = .nan ↔ d.exponent = F.expMax ∧ d.fraction ≠ 0 := by
  unfold decode
  split_ifs with h hfrac <;> simp [*]

end Datum

/-! ### The largest finite value -/

namespace Format

variable (F : Format)

/-- The fields of the largest finite value, of either sign. -/
def maxDatum (negative : Bool) : Datum F where
  negative := negative
  exponent := F.expMax - 1
  fraction := 2 ^ F.fracBits - 1
  exponent_lt := F.lt_two_pow_expBits.mpr (Nat.sub_le _ _)
  fraction_lt := Nat.sub_one_lt (Nat.two_pow_pos _).ne'

theorem units_maxDatum (s : Bool) :
    (F.maxDatum s).units = (2 ^ (F.fracBits + 1) - 1) * 2 ^ (F.expMax - 2) := by
  have h := F.three_le_expMax
  have hexp : (F.maxDatum s).exponent = F.expMax - 1 := rfl
  have hfrac : (F.maxDatum s).fraction = 2 ^ F.fracBits - 1 := rfl
  rw [Datum.units_of_exponent_pos (by omega), hexp, hfrac]
  have hpos := Nat.two_pow_pos F.fracBits
  congr 1
  rw [pow_succ]
  omega

/-- `maxFinite`, in smallest subnormals. -/
theorem maxFinite_eq (s : Bool) : F.maxFinite = (F.maxDatum s).units / 2 ^ F.scale := by
  have hone : 1 ≤ 2 ^ (F.fracBits + 1) := Nat.one_le_two_pow
  rw [units_maxDatum, maxFinite]
  push_cast [hone]
  rfl

end Format

namespace Datum

variable {F : Format}

/-- No finite datum has a larger magnitude. -/
theorem units_le_maxDatum {d : Datum F} (h : d.exponent < F.expMax) (s : Bool) :
    d.units ≤ (F.maxDatum s).units := by
  have hfrac := d.fraction_lt
  have hmax := F.three_le_expMax
  have hpow : 2 ^ (d.exponent - 1) ≤ 2 ^ (F.expMax - 2) :=
    Nat.pow_le_pow_right (by decide) (by omega)
  rw [F.units_maxDatum, units]
  refine Nat.mul_le_mul ?_ hpow
  rw [pow_succ]
  split_ifs <;> omega

theorem magnitude_le_maxFinite {d : Datum F} (h : d.exponent < F.expMax) :
    d.magnitude ≤ F.maxFinite := by
  rw [magnitude_eq, F.maxFinite_eq false]
  have hle := units_le_maxDatum h false
  gcongr

end Datum

/-- No value of the format is farther from zero. -/
theorem Format.Representable.abs_le {F : Format} {q : ℚ} (h : F.Representable q) :
    |q| ≤ F.maxFinite := by
  obtain ⟨d, hd⟩ := h
  obtain ⟨hlt, rfl⟩ := Datum.decode_eq_finite_iff.mp hd
  exact d.abs_value.trans_le (Datum.magnitude_le_maxFinite hlt)

/-- **The largest finite value is the largest of the values the format has.** -/
theorem Format.isGreatest_maxFinite (F : Format) :
    IsGreatest {q | F.Representable q} F.maxFinite := by
  have hlt : (F.maxDatum false).exponent < F.expMax := by
    have h := F.three_le_expMax
    exact Nat.sub_one_lt (by omega)
  refine ⟨⟨F.maxDatum false, Datum.decode_eq_finite_iff.mpr ⟨hlt, ?_⟩⟩, fun q hq => ?_⟩
  · rw [F.maxFinite_eq false, ← Datum.magnitude_eq]
    rfl
  · exact (le_abs_self q).trans (Format.Representable.abs_le hq)

/-! ### Doubling -/

namespace Datum

variable {F : Format}

/-- Doubling on the fields.  A subnormal shifts its fraction, whose carry becomes the exponent one;
a normal datum counts its exponent up, and leaves the last exponent for the infinity. -/
def double (d : Datum F) : Datum F :=
  if d.exponent = F.expMax then d
  else if d.exponent = 0 then
    if h : 2 * d.fraction < 2 ^ F.fracBits then
      { d with fraction := 2 * d.fraction, fraction_lt := h }
    else
      { d with
        exponent := 1
        fraction := 2 * d.fraction - 2 ^ F.fracBits
        exponent_lt := F.lt_two_pow_expBits.mpr (by have := F.three_le_expMax; omega)
        fraction_lt := by have := d.fraction_lt; omega }
  else if h : d.exponent + 1 < F.expMax then
    { d with exponent := d.exponent + 1, exponent_lt := F.lt_two_pow_expBits.mpr h.le }
  else
    { d with
      exponent := F.expMax
      fraction := 0
      exponent_lt := F.lt_two_pow_expBits.mpr le_rfl
      fraction_lt := Nat.two_pow_pos _ }

@[simp] theorem negative_double (d : Datum F) : d.double.negative = d.negative := by
  unfold double
  split_ifs <;> rfl

theorem double_of_exponent_eq {d : Datum F} (h : d.exponent = F.expMax) : d.double = d := if_pos h

theorem double_subnormal {d : Datum F} (h : d.exponent = 0)
    (hlow : 2 * d.fraction < 2 ^ F.fracBits) :
    d.double.exponent = 0 ∧ d.double.fraction = 2 * d.fraction := by
  have hmax := F.three_le_expMax
  rw [double, if_neg (by omega), if_pos h, dif_pos hlow]
  exact ⟨h, rfl⟩

theorem double_carry {d : Datum F} (h : d.exponent = 0) (hhigh : 2 ^ F.fracBits ≤ 2 * d.fraction) :
    d.double.exponent = 1 ∧ d.double.fraction = 2 * d.fraction - 2 ^ F.fracBits := by
  have hmax := F.three_le_expMax
  rw [double, if_neg (by omega), if_pos h, dif_neg (by omega)]
  exact ⟨rfl, rfl⟩

theorem double_normal {d : Datum F} (h0 : d.exponent ≠ 0) (h : d.exponent + 1 < F.expMax) :
    d.double.exponent = d.exponent + 1 ∧ d.double.fraction = d.fraction := by
  rw [double, if_neg (by omega), if_neg h0, dif_pos h]
  exact ⟨rfl, rfl⟩

theorem double_of_exponent_last {d : Datum F} (h : d.exponent + 1 = F.expMax) :
    d.double.exponent = F.expMax ∧ d.double.fraction = 0 := by
  have hmax := F.three_le_expMax
  rw [double, if_neg (by omega), if_neg (by omega), dif_neg (by omega)]
  exact ⟨rfl, rfl⟩

/-- Below the last finite exponent doubling stays finite and doubles the number of units. -/
theorem double_of_exponent_lt {d : Datum F} (h : d.exponent + 1 < F.expMax) :
    d.double.exponent < F.expMax ∧ d.double.units = 2 * d.units := by
  by_cases h0 : d.exponent = 0
  · by_cases hlow : 2 * d.fraction < 2 ^ F.fracBits
    · obtain ⟨hexp, hfrac⟩ := double_subnormal h0 hlow
      refine ⟨by omega, ?_⟩
      rw [units_of_exponent_zero h0, units_of_exponent_zero hexp, hfrac]
    · obtain ⟨hexp, hfrac⟩ := double_carry h0 (Nat.le_of_not_lt hlow)
      refine ⟨by omega, ?_⟩
      rw [units_of_exponent_zero h0, units_of_exponent_pos (by omega), hexp, hfrac, pow_zero]
      omega
  · obtain ⟨hexp, hfrac⟩ := double_normal h0 h
    refine ⟨by omega, ?_⟩
    have hpow : 2 ^ (d.exponent + 1 - 1) = 2 * 2 ^ (d.exponent - 1) := by
      rw [← pow_succ']
      congr 1
      omega
    rw [units_of_exponent_pos h0, units_of_exponent_pos (by omega), hexp, hfrac, hpow]
    ring

/-- **Doubling is exact** below the last finite exponent. -/
theorem decode_double_finite {d : Datum F} (h : d.exponent + 1 < F.expMax) :
    d.double.decode = .finite (2 * d.value) := by
  obtain ⟨hlt, hunits⟩ := double_of_exponent_lt h
  refine decode_eq_finite_iff.mpr ⟨hlt, ?_⟩
  have hmag : d.double.magnitude = 2 * d.magnitude := by
    rw [magnitude_eq, magnitude_eq, hunits]
    push_cast
    ring
  unfold value
  rw [negative_double, hmag]
  split_ifs <;> ring

/-- **Doubling overflows** at the last finite exponent, where twice the value is out of range. -/
theorem decode_double_overflow {d : Datum F} (h : d.exponent + 1 = F.expMax) :
    d.double.decode = .infinite d.negative ∧ F.maxFinite < |2 * d.value| := by
  obtain ⟨hexp, hfrac⟩ := double_of_exponent_last h
  refine ⟨decode_eq_infinite_iff.mpr ⟨hexp, hfrac, negative_double d⟩, ?_⟩
  have hmax := F.three_le_expMax
  have hpos : d.exponent ≠ 0 := by omega
  have hunits : (F.maxDatum false).units < 2 * d.units := by
    have hstep : d.exponent - 1 = F.expMax - 2 := by omega
    rw [F.units_maxDatum, units_of_exponent_pos hpos, hstep, ← mul_assoc]
    refine Nat.mul_lt_mul_of_pos_right ?_ (Nat.two_pow_pos _)
    have hone : 0 < 2 ^ F.fracBits := Nat.two_pow_pos _
    rw [pow_succ]
    omega
  rw [abs_mul, abs_two, abs_value, magnitude_eq, F.maxFinite_eq false, ← mul_div_assoc]
  have hcast : ((F.maxDatum false).units : ℚ) < 2 * d.units := by exact_mod_cast hunits
  gcongr

/-- A finite value with its sign. -/
theorem decide_value_neg {d : Datum F} (h : d.value ≠ 0) : decide (d.value < 0) = d.negative := by
  have hmag := d.magnitude_nonneg
  unfold value at h ⊢
  cases hneg : d.negative with
  | false =>
      rw [hneg] at h
      simpa using hmag
  | true =>
      rw [hneg] at h
      have hne : d.magnitude ≠ 0 := by simpa using h
      simpa using lt_of_le_of_ne hmag hne.symm

end Datum

/-! ### Rounding toward zero -/

/-- Rounding toward zero. -/
def truncate (q : ℚ) : ℤ := if 0 ≤ q then ⌊q⌋ else ⌈q⌉

theorem truncate_neg (q : ℚ) : truncate (-q) = -truncate q := by
  unfold truncate
  rcases lt_trichotomy q 0 with hq | rfl | hq
  · rw [if_pos (by linarith), if_neg (by linarith), Int.floor_neg]
  · simp
  · rw [if_neg (by linarith), if_pos hq.le, Int.ceil_neg]

theorem truncate_div (a b : ℕ) : truncate (a / b) = (a / b : ℕ) := by
  have hnonneg : (0 : ℚ) ≤ a / b := by positivity
  rw [truncate, if_pos hnonneg]
  exact Rat.floor_natCast_div_natCast a b

/-- **Rounding toward zero is a division of the units**, with the sign of the datum. -/
theorem Datum.truncate_value {F : Format} (d : Datum F) :
    truncate d.value =
      if d.negative then -((d.units / 2 ^ F.scale : ℕ) : ℤ) else (d.units / 2 ^ F.scale : ℕ) := by
  have hmag : truncate d.magnitude = (d.units / 2 ^ F.scale : ℕ) := by
    rw [magnitude_eq, ← truncate_div]
    push_cast
    rfl
  unfold value
  split_ifs
  · rw [truncate_neg, hmag]
  · exact hmag

/-! ### Powers of two -/

section Powers

variable {F : Format} {d : Datum F}

theorem Format.scale_eq (F : Format) : (F.scale : ℤ) = F.bias + F.fracBits - 1 := by
  have h := F.bias_pos
  unfold scale
  omega

theorem Format.two_mul_bias (F : Format) : F.expMax = 2 * F.bias + 1 := by
  have hbits := F.two_le_expBits
  have hpow : 2 ^ F.expBits = 2 * 2 ^ (F.expBits - 1) := by
    rw [← pow_succ']
    congr 1
    omega
  have hpos := Nat.two_pow_pos (F.expBits - 1)
  unfold expMax bias
  omega

/-- A normal datum without a fraction is a power of two. -/
theorem Datum.decode_normal_power (hsign : d.negative = false) (hpos : d.exponent ≠ 0)
    (hlt : d.exponent < F.expMax) (hfrac : d.fraction = 0) :
    d.decode = .finite (2 ^ ((d.exponent : ℤ) - F.bias)) := by
  refine decode_eq_finite_iff.mpr ⟨hlt, ?_⟩
  simp [value, magnitude, hsign, hpos, hfrac]

/-- A subnormal datum with one bit in its fraction is a power of two. -/
theorem Datum.decode_subnormal_power (hsign : d.negative = false) (hexp : d.exponent = 0) {k : ℕ}
    (hfrac : d.fraction = 2 ^ k) : d.decode = .finite (2 ^ ((k : ℤ) - F.scale)) := by
  have hmax := F.three_le_expMax
  refine decode_eq_finite_iff.mpr ⟨by omega, ?_⟩
  have hvalue : d.value = d.magnitude := by simp [value, hsign]
  rw [hvalue, magnitude_eq, units_of_exponent_zero hexp, hfrac, zpow_sub₀ two_ne_zero,
    zpow_natCast, zpow_natCast]
  push_cast
  rfl

/-- The pattern of the power `2 ^ x`: zero below one unit, a bit of the fraction, an exponent, and
the infinity above the last exponent. -/
def Format.powerPattern (F : Format) (x : ℤ) : ℕ :=
  if x < -F.scale then 0
  else if x < 1 - F.bias then 2 ^ (x + F.scale).toNat
  else if x ≤ F.bias then (x + F.bias).toNat * 2 ^ F.fracBits
  else F.expMax * 2 ^ F.fracBits

/-- The datum for `2 ^ x`. -/
def Format.power (F : Format) (x : ℤ) : Datum F := Datum.ofNat F (F.powerPattern x)

section Power

variable {x : ℤ}

theorem Format.power_of_lt (h : x < -F.scale) :
    F.power x = ⟨false, 0, 0, Nat.two_pow_pos _, Nat.two_pow_pos _⟩ := by
  rw [power, powerPattern, if_pos h, ← Datum.ofNat_fields (F := F), Nat.zero_mul]

theorem Format.power_subnormal (hlow : -F.scale ≤ x) (hsub : x < 1 - F.bias) :
    ∃ hlt, F.power x = ⟨false, 0, 2 ^ (x + F.scale).toNat, Nat.two_pow_pos _, hlt⟩ := by
  have hscale := F.scale_eq
  have hlt : 2 ^ (x + F.scale).toNat < 2 ^ F.fracBits :=
    Nat.pow_lt_pow_right (by decide) (by omega)
  refine ⟨hlt, ?_⟩
  rw [power, powerPattern, if_neg (by omega), if_pos hsub,
    ← Datum.ofNat_fields (Nat.two_pow_pos _) hlt, Nat.zero_mul, Nat.zero_add]

theorem Format.power_normal (hlow : 1 - F.bias ≤ x) (hhigh : x ≤ F.bias) :
    ∃ hlt, F.power x = ⟨false, (x + F.bias).toNat, 0, hlt, Nat.two_pow_pos _⟩ := by
  have hscale := F.scale_eq
  have htwo := F.two_mul_bias
  have hlt : (x + F.bias).toNat < 2 ^ F.expBits := F.lt_two_pow_expBits.mpr (by omega)
  refine ⟨hlt, ?_⟩
  rw [power, powerPattern, if_neg (by omega), if_neg (by omega), if_pos hhigh,
    ← Datum.ofNat_fields hlt (Nat.two_pow_pos _), Nat.add_zero]

theorem Format.power_of_gt (h : F.bias < x) :
    ∃ hlt, F.power x = ⟨false, F.expMax, 0, hlt, Nat.two_pow_pos _⟩ := by
  have hscale := F.scale_eq
  have hpos := F.bias_pos
  have hlt : F.expMax < 2 ^ F.expBits := F.lt_two_pow_expBits.mpr le_rfl
  refine ⟨hlt, ?_⟩
  rw [power, powerPattern, if_neg (by omega), if_neg (by omega), if_neg (by omega),
    ← Datum.ofNat_fields hlt (Nat.two_pow_pos _), Nat.add_zero]

/-- **The datum of a power of two has its value**, from one unit to the last exponent. -/
theorem Format.decode_power (hlow : -F.scale ≤ x) (hhigh : x ≤ F.bias) :
    (F.power x).decode = .finite (2 ^ x) := by
  rcases lt_or_ge x (1 - F.bias) with hsub | hnormal
  · obtain ⟨hlt, hpower⟩ := power_subnormal hlow hsub
    rw [hpower, Datum.decode_subnormal_power rfl rfl rfl]
    congr 2
    omega
  · have htwo := F.two_mul_bias
    obtain ⟨hlt, hpower⟩ := power_normal hnormal hhigh
    rw [hpower, Datum.decode_normal_power rfl (by show (x + F.bias).toNat ≠ 0; omega)
      (by show (x + F.bias).toNat < F.expMax; omega) rfl]
    congr 2
    show (((x + F.bias).toNat : ℕ) : ℤ) - F.bias = x
    omega

end Power

/-- Every power of two beyond the last exponent is above the largest finite value. -/
theorem Format.maxFinite_lt (F : Format) {x : ℤ} (hx : (F.bias : ℤ) < x) :
    F.maxFinite < 2 ^ x := by
  have hmax := F.three_le_expMax
  have htwo := F.two_mul_bias
  have hscale := F.scale_eq
  have hlt : F.maxFinite < 2 ^ (F.fracBits + 1) * 2 ^ (F.expMax - 2) / 2 ^ F.scale := by
    unfold maxFinite
    gcongr
    linarith
  have hlast : (2 : ℚ) ^ (F.fracBits + 1) * 2 ^ (F.expMax - 2) / 2 ^ F.scale =
      2 ^ ((F.bias : ℤ) + 1) := by
    rw [← pow_add, ← zpow_natCast, ← zpow_natCast, ← zpow_sub₀ two_ne_zero]
    congr 1
    omega
  exact (hlt.trans_eq hlast).trans_le (zpow_le_zpow_right₀ one_le_two (by omega))

/-- The smallest positive value is one unit. -/
theorem Format.Representable.le_of_pos {q : ℚ} (h : F.Representable q) (hq : 0 < q) :
    (2 : ℚ) ^ (-(F.scale : ℤ)) ≤ q := by
  obtain ⟨d, hd⟩ := h
  obtain ⟨-, hvalue⟩ := Datum.decode_eq_finite_iff.mp hd
  have habs := d.abs_value
  rw [hvalue, abs_of_pos hq, Datum.magnitude_eq] at habs
  have hunits : 1 ≤ d.units := by
    refine Nat.one_le_iff_ne_zero.mpr fun hzero => ?_
    rw [hzero] at habs
    simp [habs] at hq
  rw [habs, zpow_neg, zpow_natCast, ← one_div]
  gcongr
  exact_mod_cast hunits

/-- **Which powers of two a format has**: from one unit to the last exponent. -/
theorem Format.representable_two_zpow_iff (F : Format) (x : ℤ) :
    F.Representable (2 ^ x) ↔ -(F.scale : ℤ) ≤ x ∧ x ≤ F.bias := by
  constructor
  · intro h
    refine ⟨?_, ?_⟩
    · exact (zpow_le_zpow_iff_right₀ one_lt_two).mp (h.le_of_pos (zpow_pos two_pos x))
    · by_contra hlt
      have hle := h.abs_le
      rw [abs_of_pos (zpow_pos two_pos x)] at hle
      exact absurd (F.maxFinite_lt (by omega : (F.bias : ℤ) < x)) (not_lt.mpr hle)
  · rintro ⟨hlow, hhigh⟩
    exact ⟨F.power x, F.decode_power hlow hhigh⟩

end Powers

end BinaryFloat
