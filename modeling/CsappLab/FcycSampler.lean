/-
**The K-best scheme.**

`fcyc.c` estimates a running time by repeating the measurement until the `K` smallest of the samples
are within a tolerance of each other, or until there are too many samples.  It keeps the `K`
smallest in an array, in order, and puts each new sample in its place by exchanges.

The samples are what the counter reads, in any order and with any repetitions; the tolerance is a
test on the smallest and the greatest of the array.

Main definitions:

* `Fcyc.Params`, `Fcyc.Sampler` — the parameters, and the array with the number of samples;
* `Fcyc.addSample`, `Fcyc.hasConverged`, `Fcyc.fcyc` — the scheme;
* `Fcyc.Stops` — what ends it.

Main results:

* `Fcyc.Sampled.addSample` — the array holds the smallest samples;
* `Fcyc.fcyc_result` — **the least of the samples**, of which there are as many as it takes to
  converge or as are allowed.
-/

import CsappLab.KSmallest

set_option relaxedAutoImplicit false
set_option autoImplicit false

namespace Fcyc

open Smallest

variable {α : Type*} [LinearOrder α]

/-! ### The program -/

/-- `kbest`, `maxsamples`, and the test `(1 + epsilon) * x >= y` of `has_converged`. -/
structure Params (α : Type*) where
  kbest : ℕ
  maxsamples : ℤ
  within : α → α → Bool

/-- `values` and `samplecount`. -/
structure Sampler (α : Type*) where
  values : ℕ → α
  samplecount : ℕ

/-- `init_sampler`; `zero` is what `calloc` leaves. -/
def initSampler (zero : α) : Sampler α := ⟨fun _ => zero, 0⟩

/-- `add_sample`: where the sample goes, and the exchanges from there. -/
def addSample (p : Params α) (s : Sampler α) (val : α) : Sampler α :=
  let (values, pos) :=
    if s.samplecount < p.kbest then
      (Function.update s.values s.samplecount val, s.samplecount)
    else if val < s.values (p.kbest - 1) then
      (Function.update s.values (p.kbest - 1) val, p.kbest - 1)
    else (s.values, 0)
  ⟨sift values pos, s.samplecount + 1⟩

/-- `has_converged`. -/
def hasConverged (p : Params α) (s : Sampler α) : Bool :=
  decide (p.kbest ≤ s.samplecount) && p.within (s.values 0) (s.values (p.kbest - 1))

/-- The loop of `fcyc`; `samples` is what the counter reads, one call after the other. -/
def fcycLoop (p : Params α) (samples : ℕ → α) : ℕ → Sampler α → Option (Sampler α)
  | 0, _ => none
  | fuel + 1, s =>
      let s := addSample p s (samples s.samplecount)
      if !hasConverged p s && decide ((s.samplecount : ℤ) < p.maxsamples) then
        fcycLoop p samples fuel s
      else some s

/-- `fcyc`: the loop runs at most `maxsamples` times, and once at least. -/
def fcyc (p : Params α) (zero : α) (samples : ℕ → α) : Option α :=
  (fcycLoop p samples (p.maxsamples.toNat + 1) (initSampler zero)).map fun s => s.values 0

/-! ### The array -/

/-- The array holds the smallest of the samples taken so far. -/
structure Sampled (p : Params α) (samples : ℕ → α) (s : Sampler α) : Prop where
  row_eq : row s.values (min s.samplecount p.kbest) = smallest p.kbest (row samples s.samplecount)

section Sampling

variable {p : Params α} {samples : ℕ → α} {s : Sampler α} {zero : α}

theorem sampled_init (p : Params α) (samples : ℕ → α) (zero : α) :
    Sampled p samples (initSampler zero) := by
  refine ⟨?_⟩
  show row _ (min 0 p.kbest) = _
  rw [Nat.zero_min]
  exact (List.take_nil (i := p.kbest)).symm

/-- **The array holds the smallest samples**, one more sample. -/
theorem Sampled.addSample (h : Sampled p samples s) (hk : 0 < p.kbest) :
    Sampled p samples (Fcyc.addSample p s (samples s.samplecount)) := by
  have hsorted := sorted_smallest p.kbest (row samples s.samplecount)
  refine ⟨?_⟩
  have hcount : (Fcyc.addSample p s (samples s.samplecount)).samplecount = s.samplecount + 1 := rfl
  rw [hcount, row_succ, smallest_concat]
  rcases Nat.lt_or_ge s.samplecount p.kbest with hlt | hge
  · -- there is room for the sample
    have hrow := h.row_eq
    rw [Nat.min_eq_left hlt.le] at hrow
    have hkeep : row (Function.update s.values s.samplecount (samples s.samplecount))
        s.samplecount = smallest p.kbest (row samples s.samplecount) := by
      rw [← hrow]
      exact row_congr fun i hi => Function.update_of_ne (by omega) _ _
    have hval : (Fcyc.addSample p s (samples s.samplecount)).values =
        sift (Function.update s.values s.samplecount (samples s.samplecount)) s.samplecount := by
      simp [Fcyc.addSample, hlt]
    rw [Nat.min_eq_left hlt, hval, row_sift (by rwa [hkeep]), hkeep, Function.update_self,
      List.take_of_length_le]
    rw [List.orderedInsert_length, length_smallest, length_row]
    omega
  · -- the greatest of the array makes room, unless the sample is not below it
    obtain ⟨m, hm⟩ : ∃ m, p.kbest = m + 1 := ⟨p.kbest - 1, by omega⟩
    have hrow := h.row_eq
    rw [Nat.min_eq_right hge, hm] at hrow
    rw [hm] at hsorted
    rw [Nat.min_eq_right (by omega), hm, ← hrow]
    rw [← hrow, row_succ] at hsorted
    obtain ⟨hinit, -, hlast⟩ := List.pairwise_append.1 hsorted
    have hfull : ¬ s.samplecount < m + 1 := by omega
    by_cases hval : samples s.samplecount < s.values m
    · have hkeep : row (Function.update s.values m (samples s.samplecount)) m = row s.values m :=
        row_congr fun i hi => Function.update_of_ne (by omega) _ _
      have hnew : (Fcyc.addSample p s (samples s.samplecount)).values =
          sift (Function.update s.values m (samples s.samplecount)) m := by
        simp [Fcyc.addSample, hm, hfull, hval]
      have hfront : Sorted (row (Function.update s.values m (samples s.samplecount)) m) := by
        rwa [hkeep]
      rw [hnew, row_sift hfront, hkeep, Function.update_self, row_succ s.values,
        orderedInsert_append hsorted hval.le, List.take_left']
      rw [List.orderedInsert_length, length_row]
    · have hsame : (Fcyc.addSample p s (samples s.samplecount)).values = s.values := by
        simp [Fcyc.addSample, hm, hfull, hval, sift]
      have hbehind : ∀ y ∈ row s.values m ++ [s.values m], y ≤ samples s.samplecount := by
        intro y hy
        rcases List.mem_append.1 hy with hy | hy
        · exact (hlast y hy _ (List.mem_singleton_self _)).trans (not_lt.1 hval)
        · rw [List.mem_singleton.1 hy]
          exact not_lt.1 hval
      rw [hsame, row_succ s.values, orderedInsert_last hsorted hbehind, List.take_left']
      rw [List.length_append, length_row, List.length_singleton]

/-! ### The loop -/

/-- What ends the loop after `m` samples: the smallest are within the tolerance, or there are as
many samples as are allowed. -/
def Stops (p : Params α) (samples : ℕ → α) (m : ℕ) : Prop :=
  (p.kbest ≤ m ∧ ∃ least greatest, (smallest p.kbest (row samples m)).head? = some least ∧
    (smallest p.kbest (row samples m)).getLast? = some greatest ∧ p.within least greatest = true) ∨
    p.maxsamples ≤ m

/-- The test of the loop, on the array, is the test on the samples. -/
theorem Sampled.stops_iff (h : Sampled p samples s) (hk : 0 < p.kbest) :
    Stops p samples s.samplecount ↔
      ¬ (!hasConverged p s && decide ((s.samplecount : ℤ) < p.maxsamples)) = true := by
  have hconv : (p.kbest ≤ s.samplecount ∧ ∃ least greatest,
      (smallest p.kbest (row samples s.samplecount)).head? = some least ∧
      (smallest p.kbest (row samples s.samplecount)).getLast? = some greatest ∧
      p.within least greatest = true) ↔ hasConverged p s = true := by
    rw [hasConverged, Bool.and_eq_true, decide_eq_true_iff]
    refine and_congr_right fun hge => ?_
    have hrow := h.row_eq
    obtain ⟨m, hm⟩ : ∃ m, p.kbest = m + 1 := ⟨p.kbest - 1, by omega⟩
    rw [Nat.min_eq_right hge] at hrow
    have hfirst : (row s.values p.kbest).head? = some (s.values 0) := by
      rw [hm, row, List.range_succ_eq_map]
      rfl
    have hlast : (row s.values p.kbest).getLast? = some (s.values (p.kbest - 1)) := by
      rw [hm, row_succ, List.getLast?_concat]
      rfl
    rw [← hrow, hfirst, hlast]
    constructor
    · rintro ⟨least, greatest, hl, hg, hw⟩
      cases hl
      cases hg
      exact hw
    · exact fun hw => ⟨_, _, rfl, rfl, hw⟩
  rw [Stops, hconv]
  cases hasConverged p s <;> simp

/-- The loop stops at the first number of samples at which it may. -/
theorem Sampled.loop (hk : 0 < p.kbest) : ∀ {fuel : ℕ} {s : Sampler α}, Sampled p samples s →
    p.maxsamples ≤ s.samplecount + fuel → 0 < fuel →
      ∃ s', fcycLoop p samples fuel s = some s' ∧ Sampled p samples s' ∧
        s.samplecount < s'.samplecount ∧ Stops p samples s'.samplecount ∧
        ∀ m, s.samplecount < m → Stops p samples m → s'.samplecount ≤ m := by
  intro fuel
  induction fuel with
  | zero => exact fun _ _ h => absurd h (Nat.lt_irrefl 0)
  | succ fuel ih =>
      intro s hs hfuel _
      have hs₁ := hs.addSample hk
      have hcount : (Fcyc.addSample p s (samples s.samplecount)).samplecount =
          s.samplecount + 1 := rfl
      have hiff := hs₁.stops_iff hk
      rw [fcycLoop]
      split
      · rename_i hgo
        -- it goes on, which it does not with as many samples as are allowed
        have hmore : ¬ Stops p samples (s.samplecount + 1) := fun h => hiff.1 h hgo
        have hless : ((s.samplecount + 1 : ℕ) : ℤ) < p.maxsamples := by
          by_contra hle
          exact hmore (.inr (by push_cast at hle ⊢; omega))
        obtain ⟨s', hrun, hs', hlt, hstop, hleast⟩ := ih hs₁ (by rw [hcount]; push_cast; omega)
          (by push_cast at hless; omega)
        refine ⟨s', hrun, hs', by omega, hstop, fun m hm hstops => ?_⟩
        rcases Nat.lt_or_ge (s.samplecount + 1) m with hlt' | hge
        · exact hleast m hlt' hstops
        · rw [show m = s.samplecount + 1 by omega] at hstops
          exact absurd hstops hmore
      · rename_i hstop
        exact ⟨_, rfl, hs₁, Nat.lt_succ_self _, hiff.2 hstop, fun m hm _ => hm⟩

/-- **The least of the samples.**  `fcyc` takes samples until the `K` smallest are within the
tolerance for the first time, or until there are as many as are allowed, and returns the least of
them. -/
theorem fcyc_result (hk : 0 < p.kbest) (zero : α) (samples : ℕ → α) :
    ∃ n r, fcyc p zero samples = some r ∧ IsLeast {m | 0 < m ∧ Stops p samples m} n ∧
      IsLeast {x | ∃ i < n, x = samples i} r := by
  have hfuel : p.maxsamples ≤ ((0 : ℕ) : ℤ) + ((p.maxsamples.toNat + 1 : ℕ) : ℤ) := by
    push_cast
    omega
  obtain ⟨s, hrun, hs, hpos, hstop, hleast⟩ :=
    Sampled.loop hk (sampled_init p samples zero) hfuel (Nat.succ_pos _)
  refine ⟨s.samplecount, s.values 0, by rw [fcyc, hrun]; rfl, ⟨⟨hpos, hstop⟩, ?_⟩, ?_⟩
  · exact fun m hm => hleast m hm.1 hm.2
  · obtain ⟨m, hm⟩ : ∃ m, min s.samplecount p.kbest = m + 1 :=
      ⟨min s.samplecount p.kbest - 1, by have : 0 < s.samplecount := hpos; omega⟩
    have hrow := hs.row_eq
    rw [hm, row, List.range_succ_eq_map, List.map_cons] at hrow
    have hmin := isLeast_smallest hrow.symm
    have hset : {x | ∃ i < s.samplecount, x = samples i} = {x | x ∈ row samples s.samplecount} := by
      ext x
      simp only [row, Set.mem_ofPred_eq, List.mem_map, List.mem_range]
      exact exists_congr fun i => and_congr_right fun _ => eq_comm
    rw [hset]
    exact hmin

end Sampling

/-- Three samples within one of each other, after one that is not. -/
theorem fcyc_result_four :
    ∃ n, IsLeast {m | 0 < m ∧ Stops (⟨3, 20, fun x y => y ≤ x + 1⟩ : Params ℕ)
        (fun i => if i = 0 then 9 else 5 + i % 2) m} n ∧
      IsLeast {x | ∃ i < n, x = if i = 0 then 9 else 5 + i % 2} 5 := by
  have hval : fcyc (⟨3, 20, fun x y => y ≤ x + 1⟩ : Params ℕ) 0
      (fun i => if i = 0 then 9 else 5 + i % 2) = some 5 := by decide
  obtain ⟨n, r, hrun, hstop, hleast⟩ := fcyc_result (p := ⟨3, 20, fun x y => y ≤ x + 1⟩)
    (by decide) 0 (fun i => if i = 0 then 9 else 5 + i % 2)
  rw [hval, Option.some.injEq] at hrun
  subst hrun
  exact ⟨n, hstop, hleast⟩

end Fcyc
