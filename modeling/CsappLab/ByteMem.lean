/-
**Byte memories.**

A memory of bytes in which words of four bytes are stored, lowest byte first, together with the
list of the stores that were made.  Words at addresses that are multiples of four overlap only when
they are the same word, so that on them a store is a function update.

What an operation wrote is recorded as a set of addresses: all its stores lie in the set, and no
byte outside of the set has changed.

Main definitions:

* `ByteMem.Ram` — the bytes, and the stores made so far;
* `ByteMem.Ram.word`, `ByteMem.Ram.setWord`, `ByteMem.Ram.copy` — the accesses;
* `ByteMem.Wrote` — an operation stayed within a set of addresses.

Main results:

* `ByteMem.Ram.word_setWord` — reading a word back, or another one;
* `ByteMem.Wrote.trans`, `ByteMem.Wrote.setWord`, `ByteMem.Wrote.copy` — how the sets compose.
-/

import Mathlib.Algebra.Ring.Nat
import Mathlib.Data.Nat.Notation
import Mathlib.Logic.Function.Basic
import Mathlib.Tactic.Common

set_option relaxedAutoImplicit false
set_option autoImplicit false

namespace ByteMem

/-! ### Accesses -/

/-- The bytes of a memory, and the stores made so far, as addresses and lengths, latest last. -/
structure Ram where
  bytes : ℕ → UInt8
  log : List (ℕ × ℕ)

namespace Ram

/-- The word at an address. -/
def word (r : Ram) (p : ℕ) : ℕ :=
  (r.bytes p).toNat + 256 * (r.bytes (p + 1)).toNat + 65536 * (r.bytes (p + 2)).toNat +
    16777216 * (r.bytes (p + 3)).toNat

/-- Store a word. -/
def setWord (r : Ram) (p v : ℕ) : Ram where
  bytes a := if p ≤ a ∧ a < p + 4 then UInt8.ofNat (v / 256 ^ (a - p)) else r.bytes a
  log := r.log ++ [(p, 4)]

/-- Store a byte. -/
def setByte (r : Ram) (p : ℕ) (v : UInt8) : Ram where
  bytes := Function.update r.bytes p v
  log := r.log ++ [(p, 1)]

/-- Copy `n` bytes to a place that does not overlap theirs. -/
def copy (r : Ram) (dst src n : ℕ) : Ram where
  bytes a := if dst ≤ a ∧ a < dst + n then r.bytes (src + (a - dst)) else r.bytes a
  log := r.log ++ [(dst, n)]

theorem word_lt (r : Ram) (p : ℕ) : r.word p < 4294967296 := by
  have h₀ := (r.bytes p).toNat_lt
  have h₁ := (r.bytes (p + 1)).toNat_lt
  have h₂ := (r.bytes (p + 2)).toNat_lt
  have h₃ := (r.bytes (p + 3)).toNat_lt
  unfold word
  omega

/-- A word depends on its bytes only. -/
theorem word_congr {r r' : Ram} {p : ℕ} (h : ∀ a, p ≤ a → a < p + 4 → r'.bytes a = r.bytes a) :
    r'.word p = r.word p := by
  unfold word
  rw [h p (by omega) (by omega), h (p + 1) (by omega) (by omega), h (p + 2) (by omega) (by omega),
    h (p + 3) (by omega) (by omega)]

theorem word_setWord_self (r : Ram) {p v : ℕ} (hv : v < 4294967296) :
    (r.setWord p v).word p = v := by
  have hbyte : ∀ i, i < 4 → ((r.setWord p v).bytes (p + i)).toNat = v / 256 ^ i % 256 := by
    intro i hi
    have hin : p ≤ p + i ∧ p + i < p + 4 := by omega
    simp [setWord, hin]
  have h₀ := hbyte 0 (by omega)
  have h₁ := hbyte 1 (by omega)
  have h₂ := hbyte 2 (by omega)
  have h₃ := hbyte 3 (by omega)
  rw [Nat.add_zero] at h₀
  unfold word
  rw [h₀, h₁, h₂, h₃]
  simp only [Nat.reducePow, Nat.div_one]
  omega

theorem word_setWord_of_disjoint (r : Ram) {p q v : ℕ} (h : p + 4 ≤ q ∨ q + 4 ≤ p) :
    (r.setWord p v).word q = r.word q := by
  refine word_congr fun a ha ha' => ?_
  simp only [setWord]
  rw [if_neg (by omega)]

/-- **Reading a word after a store**, at addresses that are multiples of four. -/
theorem word_setWord (r : Ram) {p q v : ℕ} (hp : p % 4 = 0) (hq : q % 4 = 0)
    (hv : v < 4294967296) : (r.setWord p v).word q = if q = p then v else r.word q := by
  split
  · rename_i heq
    rw [heq]
    exact r.word_setWord_self hv
  · exact r.word_setWord_of_disjoint (by omega)

end Ram

/-! ### What an operation wrote -/

/-- **All stores lie in a set of addresses**, and nothing outside of it has changed. -/
structure Wrote (P : ℕ → Prop) (r r' : Ram) : Prop where
  stores : ∃ ws, r'.log = r.log ++ ws ∧ ∀ w ∈ ws, ∀ a, w.1 ≤ a → a < w.1 + w.2 → P a
  frame : ∀ a, ¬ P a → r'.bytes a = r.bytes a

namespace Wrote

variable {P Q : ℕ → Prop} {r r₁ r₂ r₃ : Ram}

theorem refl (P : ℕ → Prop) (r : Ram) : Wrote P r r where
  stores := ⟨[], by simp, fun w hw => by cases hw⟩
  frame _ _ := rfl

theorem trans (h₁ : Wrote P r₁ r₂) (h₂ : Wrote P r₂ r₃) : Wrote P r₁ r₃ where
  stores := by
    obtain ⟨ws₁, hlog₁, hws₁⟩ := h₁.stores
    obtain ⟨ws₂, hlog₂, hws₂⟩ := h₂.stores
    refine ⟨ws₁ ++ ws₂, by rw [hlog₂, hlog₁, List.append_assoc], fun w hw => ?_⟩
    rcases List.mem_append.1 hw with hw | hw
    · exact hws₁ w hw
    · exact hws₂ w hw
  frame a ha := by rw [h₂.frame a ha, h₁.frame a ha]

theorem mono (h : Wrote P r₁ r₂) (hPQ : ∀ a, P a → Q a) : Wrote Q r₁ r₂ where
  stores := by
    obtain ⟨ws, hlog, hws⟩ := h.stores
    exact ⟨ws, hlog, fun w hw a ha ha' => hPQ a (hws w hw a ha ha')⟩
  frame a ha := h.frame a fun hP => ha (hPQ a hP)

/-- One store of a word. -/
theorem setWord {p v : ℕ} (hP : ∀ a, p ≤ a → a < p + 4 → P a) : Wrote P r (r.setWord p v) where
  stores := by
    refine ⟨[(p, 4)], rfl, fun w hw a ha ha' => ?_⟩
    obtain rfl := List.mem_singleton.1 hw
    exact hP a ha ha'
  frame a ha := by
    simp only [Ram.setWord]
    rw [if_neg fun hin => ha (hP a hin.1 hin.2)]

/-- One store of a byte. -/
theorem setByte {p : ℕ} {v : UInt8} (hP : P p) : Wrote P r (r.setByte p v) where
  stores := by
    refine ⟨[(p, 1)], rfl, fun w hw a ha ha' => ?_⟩
    obtain rfl := List.mem_singleton.1 hw
    obtain rfl : a = p := Nat.le_antisymm (Nat.le_of_lt_succ ha') ha
    exact hP
  frame a ha := by
    have hne : a ≠ p := by
      rintro rfl
      exact ha hP
    exact Function.update_of_ne hne v r.bytes

/-- One copy. -/
theorem copy {dst src n : ℕ} (hP : ∀ a, dst ≤ a → a < dst + n → P a) :
    Wrote P r (r.copy dst src n) where
  stores := by
    refine ⟨[(dst, n)], rfl, fun w hw a ha ha' => ?_⟩
    obtain rfl := List.mem_singleton.1 hw
    exact hP a ha ha'
  frame a ha := by
    simp only [Ram.copy]
    rw [if_neg fun hin => ha (hP a hin.1 hin.2)]

/-- A word outside of the set. -/
theorem word (h : Wrote P r₁ r₂) {p : ℕ} (hp : ∀ a, p ≤ a → a < p + 4 → ¬ P a) :
    r₂.word p = r₁.word p :=
  Ram.word_congr fun a ha ha' => h.frame a (hp a ha ha')

end Wrote

end ByteMem
