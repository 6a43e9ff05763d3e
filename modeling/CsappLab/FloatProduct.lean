/-
**Products of floating-point numbers.**

The product of two finite data is a whole number of units over a power of two, and is rounded to a
whole number of the units that the significand of the result reaches down to, ties to even.  A
significand that is rounded up to the next power of two carries into the exponent, and an exponent
that is too large becomes that of the infinities.

Between powers of two nothing is rounded but a result below one unit, of which half a unit is the
largest: it is a tie, and becomes zero.

Main definitions:

* `roundHalfEven` — a quotient by a power of two, rounded;
* `Format.roundUnits` — the datum for a fraction of units;
* `Datum.mul` — the product.

Main results:

* `Format.roundUnits_two_pow` — rounding a power of two;
* `Format.mul_power` — **powers of two are multiplied by adding the exponents**.
-/

import CsappLab.BinaryFloat
import Mathlib.Data.Nat.Log

set_option relaxedAutoImplicit false
set_option autoImplicit false

namespace BinaryFloat

/-! ### Rounding -/

/-- `n / 2 ^ s`, rounded to the nearest whole number, and between two of them to the even one. -/
def roundHalfEven (n s : ℕ) : ℕ :=
  if 2 * (n % 2 ^ s) < 2 ^ s ∨ 2 * (n % 2 ^ s) = 2 ^ s ∧ n / 2 ^ s % 2 = 0 then n / 2 ^ s
  else n / 2 ^ s + 1

/-- What is whole is left alone. -/
theorem roundHalfEven_mul (m s : ℕ) : roundHalfEven (m * 2 ^ s) s = m := by
  have hpos := Nat.two_pow_pos s
  rw [roundHalfEven, Nat.mul_mod_left, if_pos (.inl hpos), Nat.mul_div_cancel m hpos]

/-- Up to one half is rounded to zero. -/
theorem roundHalfEven_of_le {n s : ℕ} (h : 2 * n ≤ 2 ^ s) : roundHalfEven n s = 0 := by
  have hpos := Nat.two_pow_pos s
  have hlt : n < 2 ^ s := by omega
  rw [roundHalfEven, Nat.mod_eq_of_lt hlt, Nat.div_eq_of_lt hlt]
  exact if_pos ((Nat.lt_or_eq_of_le h).imp_right fun heq => ⟨heq, rfl⟩)

/-- The datum for `n / 2 ^ k` units, rounded to the nearest.  The low `s` bits of the units are
those that the significand has no room for.  The exponent field counts them, and a significand with
its leading bit, or one that was rounded up to the next power of two, adds the rest to it. -/
def Format.roundUnits (F : Format) (negative : Bool) (n k : ℕ) : Datum F :=
  let s := (n / 2 ^ k).log2 - F.fracBits
  let pattern := s * 2 ^ F.fracBits + roundHalfEven n (k + s)
  .ofNat F (negative.toNat * 2 ^ (F.expBits + F.fracBits) +
    min pattern (F.expMax * 2 ^ F.fracBits))

/-- A datum that is not a number. -/
def Datum.IsNan {F : Format} (d : Datum F) : Prop := d.exponent = F.expMax ∧ d.fraction ≠ 0

instance {F : Format} (d : Datum F) : Decidable d.IsNan :=
  inferInstanceAs (Decidable (d.exponent = F.expMax ∧ d.fraction ≠ 0))

/-- **The product**, rounded to nearest: an operand that is not a number is the result; zero times
infinity is not a number; and infinity times anything else is infinite. -/
def Datum.mul {F : Format} (d e : Datum F) : Datum F :=
  let negative := d.negative ^^ e.negative
  if d.IsNan then d
  else if e.IsNan then e
  else if d.exponent = F.expMax ∨ e.exponent = F.expMax then
    if d.units = 0 ∨ e.units = 0 then
      .ofNat F (F.expMax * 2 ^ F.fracBits + 2 ^ (F.fracBits - 1))
    else .ofNat F (negative.toNat * 2 ^ (F.expBits + F.fracBits) + F.expMax * 2 ^ F.fracBits)
  else F.roundUnits negative (d.units * e.units) F.scale

/-! ### Powers of two -/

namespace Format

variable {F : Format} {x y : ℤ}

/-- A power of two is rounded to the datum for it. -/
theorem roundUnits_two_pow (F : Format) (t k : ℕ) :
    F.roundUnits false (2 ^ t) k = F.power (t - k - F.scale) := by
  have hscale := F.scale_eq
  have htwo := F.two_mul_bias
  have hpos := F.bias_pos
  rw [roundUnits, power, powerPattern, Bool.toNat_false, Nat.zero_mul, Nat.zero_add]
  congr 1
  rcases Nat.lt_or_ge t k with hlt | hge
  · -- half a unit, or less
    have hdiv : 2 ^ t / 2 ^ k = 0 := Nat.div_eq_of_lt (Nat.pow_lt_pow_right (by decide) hlt)
    have hhalf : 2 * 2 ^ t ≤ 2 ^ k := by
      rw [← pow_succ']
      exact Nat.pow_le_pow_right (by decide) hlt
    rw [hdiv, Nat.log2_zero, Nat.zero_sub, Nat.zero_mul, Nat.add_zero, roundHalfEven_of_le hhalf,
      if_pos (by omega), Nat.add_zero, Nat.zero_min]
  · obtain ⟨l, rfl⟩ := Nat.exists_eq_add_of_le hge
    have hdiv : 2 ^ (k + l) / 2 ^ k = 2 ^ l := by
      rw [pow_add, Nat.mul_div_cancel_left _ (Nat.two_pow_pos k)]
    have hsplit : 2 ^ (k + l) = 2 ^ (l - (l - F.fracBits)) * 2 ^ (k + (l - F.fracBits)) := by
      rw [← pow_add]
      congr 1
      omega
    rw [hdiv, Nat.log2_two_pow, hsplit, roundHalfEven_mul, if_neg (by omega)]
    split_ifs with hsub hnormal
    · -- the bit stays in the fraction
      have hone : 2 ^ F.fracBits ≤ F.expMax * 2 ^ F.fracBits :=
        Nat.le_mul_of_pos_left _ (by omega)
      have hfrac : 2 ^ l ≤ 2 ^ F.fracBits := Nat.pow_le_pow_right (by decide) (by omega)
      have hnone : l - F.fracBits = 0 := by omega
      rw [hnone, Nat.zero_mul, Nat.zero_add, Nat.sub_zero, Nat.min_eq_left (hfrac.trans hone)]
      congr 1
      omega
    · -- the leading bit counts the exponent up by one
      have hfrac : l - (l - F.fracBits) = F.fracBits := by omega
      have hexp : (↑(k + l) - (k : ℤ) - F.scale + F.bias).toNat = l - F.fracBits + 1 := by omega
      rw [hfrac, hexp, ← Nat.succ_mul, Nat.min_eq_left]
      exact Nat.mul_le_mul_right _ (by omega)
    · have hfrac : l - (l - F.fracBits) = F.fracBits := by omega
      rw [hfrac, ← Nat.succ_mul, Nat.min_eq_right]
      exact Nat.mul_le_mul_right _ (by omega)

theorem units_power (hlow : -F.scale ≤ x) (hhigh : x ≤ F.bias) :
    (F.power x).units = 2 ^ (x + F.scale).toNat := by
  have hscale := F.scale_eq
  rcases lt_or_ge x (1 - F.bias) with hsub | hnormal
  · obtain ⟨hlt, hpower⟩ := power_subnormal hlow hsub
    rw [hpower, Datum.units_of_exponent_zero rfl]
  · obtain ⟨hlt, hpower⟩ := power_normal hnormal hhigh
    have hne : (⟨false, (x + F.bias).toNat, 0, hlt, Nat.two_pow_pos _⟩ : Datum F).exponent ≠ 0 := by
      show (x + F.bias).toNat ≠ 0
      omega
    rw [hpower, Datum.units_of_exponent_pos hne]
    show (2 ^ F.fracBits + 0) * 2 ^ ((x + F.bias).toNat - 1) = _
    rw [Nat.add_zero, ← pow_add]
    congr 1
    omega

/-- The datum of a power of two is positive, and a number. -/
theorem power_plain (F : Format) (x : ℤ) :
    (F.power x).negative = false ∧ ¬ (F.power x).IsNan ∧
      ((F.power x).exponent = F.expMax ↔ F.bias < x) := by
  have hmax := F.three_le_expMax
  have htwo := F.two_mul_bias
  rcases lt_or_ge x (-F.scale) with hzero | hlow
  · rw [power_of_lt hzero]
    refine ⟨rfl, fun h => h.2 rfl, iff_of_false ?_ (by omega)⟩
    show ¬ 0 = F.expMax
    omega
  rcases lt_or_ge x (1 - F.bias) with hsub | hnormal
  · obtain ⟨hlt, hpower⟩ := power_subnormal hlow hsub
    rw [hpower]
    have hne : ¬ 0 = F.expMax := by omega
    exact ⟨rfl, fun h => hne h.1, iff_of_false hne (by omega)⟩
  rcases lt_or_ge (F.bias : ℤ) x with htop | hhigh
  · obtain ⟨hlt, hpower⟩ := power_of_gt htop
    rw [hpower]
    exact ⟨rfl, fun h => h.2 rfl, iff_of_true rfl htop⟩
  · obtain ⟨hlt, hpower⟩ := power_normal hnormal hhigh
    rw [hpower]
    refine ⟨rfl, fun h => h.2 rfl, iff_of_false ?_ (by omega)⟩
    show ¬ (x + F.bias).toNat = F.expMax
    omega

/-- It is not zero from one unit on. -/
theorem units_power_ne_zero (hlow : -F.scale ≤ x) : (F.power x).units ≠ 0 := by
  rcases lt_or_ge (F.bias : ℤ) x with htop | hhigh
  · have hmax := F.three_le_expMax
    have hexp := (F.power_plain x).2.2.2 htop
    rw [Datum.units_of_exponent_pos (by omega)]
    exact Nat.mul_ne_zero (by have := Nat.two_pow_pos F.fracBits; omega) (Nat.two_pow_pos _).ne'
  · rw [units_power hlow hhigh]
    exact (Nat.two_pow_pos _).ne'

/-- **Powers of two are multiplied by adding the exponents**, if both are at least one or both at
most one. -/
theorem mul_power (h : 0 ≤ x ∧ 0 ≤ y ∨ x ≤ 0 ∧ y ≤ 0) :
    (F.power x).mul (F.power y) = F.power (x + y) := by
  have hscale := F.scale_eq
  have hpos := F.bias_pos
  obtain ⟨hsign, hnum, htop⟩ := F.power_plain x
  obtain ⟨hsign', hnum', htop'⟩ := F.power_plain y
  have hiff := or_congr htop htop'
  rw [Datum.mul, if_neg hnum, if_neg hnum', hsign, hsign']
  by_cases hinf : (F.power x).exponent = F.expMax ∨ (F.power y).exponent = F.expMax
  · -- both are at least one
    have hbeyond := hiff.1 hinf
    have hne : ¬ ((F.power x).units = 0 ∨ (F.power y).units = 0) := fun hzero => hzero.elim
      (units_power_ne_zero (by omega)) (units_power_ne_zero (by omega))
    rw [if_pos hinf, if_neg hne, power, powerPattern, if_neg (by omega), if_neg (by omega),
      if_neg (by omega)]
    simp
  rw [if_neg hinf]
  rw [hiff] at hinf
  by_cases hlow : -(F.scale : ℤ) ≤ x ∧ -(F.scale : ℤ) ≤ y
  · rw [units_power hlow.1 (by omega), units_power hlow.2 (by omega), ← pow_add]
    refine (F.roundUnits_two_pow _ _).trans ?_
    congr 1
    omega
  · -- one of them is zero, and the other one is at most one
    have hzero : (F.power x).units * (F.power y).units = 0 := by
      have hunits {z : ℤ} (hz : z < -F.scale) : (F.power z).units = 0 := by
        rw [power_of_lt hz, Datum.units_of_exponent_zero rfl]
      rw [Nat.mul_eq_zero]
      rcases not_and_or.1 hlow with hx | hy
      · exact .inl (hunits (not_le.1 hx))
      · exact .inr (hunits (not_le.1 hy))
    rw [hzero, roundUnits, Nat.zero_div, Nat.log2_zero, Nat.zero_sub, roundHalfEven_of_le
      (Nat.zero_le _), power, powerPattern, if_pos (by omega)]
    simp

end Format

end BinaryFloat
