/-
**The mask in the read loop.**

`eval`, `waitfg` and the handlers save the signal mask, change it and restore it.  Wherever the
shell stands there is one mask that it is on its way back to: the one the main thread has saved,
else the one that it runs under, which the outermost handler holds while handlers run.  Every
statement keeps this mask, but for the return from a `fork` that fails: `eval` leaves there with
`SIGCHLD` blocked.

Main definitions:

* `Tsh.Main.saved`, `Tsh.outermost` — the mask the main thread has saved, and the one it runs under;
* `Tsh.Shell.restored` — the mask the shell is on its way back to;
* `Tsh.MaskRestored` — the mask in the read loop and in `sigsuspend` is the one from the start;
* `Tsh.Shell.ForkReturns` — the condition: `fork` does not fail.

Main results:

* `Tsh.Shell.restored_step` — a statement keeps the mask, unless it is a `fork` that fails;
* `Tsh.maskRestored_iff` — when the mask is restored throughout a run;
* `Tsh.mask_lost` — a run after which it is not.
-/

import CsappLab.TshEffects
import CsappLab.Runs

set_option relaxedAutoImplicit false
set_option autoImplicit false

namespace Tsh

/-! ### The mask to come back to -/

/-- The mask that `eval` or `waitfg` has saved. -/
def Main.saved : Main → Option SigSet
  | .evalFork _ _ prev => some prev
  | .evalBlockAll _ _ prev _ => some prev
  | .evalAddjob _ _ prev _ => some prev
  | .evalRestore _ _ prev _ => some prev
  | .waitTest prev => some prev
  | .suspended prev => some prev
  | .waitRestore prev => some prev
  | _ => none

/-- The mask that is in force once the handlers have returned. -/
def outermost (m : SigSet) : List Frame → SigSet
  | [] => m
  | f :: rest => outermost f.mask rest

/-- The mask the main thread runs under. -/
def Shell.mainMask (s : Shell) : SigSet := outermost s.mask s.handlers

/-- The mask the shell is on its way back to. -/
def Shell.restored (s : Shell) : SigSet := s.main.saved.getD s.mainMask

/-- Between the block of `SIGCHLD` and `fork` the main thread runs under the mask that it has saved,
and `SIGCHLD`. -/
def Shell.ForkMasked (s : Shell) : Prop :=
  ∀ bg line prev, s.main = .evalFork bg line prev → s.mainMask = prev.add .chld

theorem mainMask_of_idle {s : Shell} (h : s.handlers = []) : s.mainMask = s.mask := by
  rw [Shell.mainMask, h, outermost]

/-! ### The statements of the main thread -/

/-- What a statement of the main thread does to the masks. -/
theorem stepMain_mask {s s' : Shell} (h : s.stepMain = some s') :
    s'.main.saved.getD s'.mask = s.main.saved.getD s.mask ∧
      ∀ bg line prev, s'.main = .evalFork bg line prev → s'.mask = prev.add .chld := by
  cases stepMain_some h with
  | evalBlock main =>
      rw [main]
      refine ⟨rfl, fun _ _ _ h => ?_⟩
      cases h
      rfl
  | killed kill main =>
      rw [main, (kill_some kill).2]
      exact ⟨rfl, fun _ _ _ h => nomatch h⟩
  | _ =>
      rename_i main
      rw [main]
      exact ⟨rfl, fun _ _ _ h => nomatch h⟩

/-- What a line read from the terminal does to the masks. -/
theorem read_mask {s s' : Shell} {line : List Char} (h : s.read line = some s') :
    s'.main.saved = none ∧ s.main.saved = none ∧ s'.mask = s.mask := by
  obtain ⟨hmain, main, exited, out, rfl, rfl | ⟨bg, -, rfl⟩ | ⟨i, state, -, rfl⟩⟩ := read_some h
  all_goals exact ⟨rfl, by rw [hmain]; rfl, rfl⟩

/-- What `fork` does to the masks: if it fails, `eval` returns and restores nothing. -/
theorem fork_mask {s s' : Shell} {pid : ℤ} (h : s.fork pid = some s') :
    ∃ bg line prev, s.main = .evalFork bg line prev ∧ s'.mask = s.mask ∧
      s'.handlers = s.handlers ∧
      (pid < 0 ∧ s'.main = .ready ∨ 0 ≤ pid ∧ s'.main = .evalBlockAll bg line prev pid) := by
  unfold Shell.fork at h
  cases hmain : s.main with
  | evalFork bg line prev =>
      simp only [hmain] at h
      split at h
      · rename_i hneg
        cases h
        exact ⟨bg, line, prev, rfl, rfl, rfl, .inl ⟨hneg, rfl⟩⟩
      · rename_i hneg
        split at h
        · cases h
        · cases h
          exact ⟨bg, line, prev, rfl, rfl, rfl, .inr ⟨by omega, rfl⟩⟩
  | _ => simp [hmain] at h

/-! ### One step -/

/-- The return from `fork` is one from a `fork` that has not failed, or `SIGCHLD` was blocked when
the shell started. -/
def Shell.ForkReturns (mask : SigSet) (_ : Shell) : Action → Prop
  | .fork pid => 0 ≤ pid ∨ mask .chld = true
  | _ => True

/-- A statement of a handler, and the start of one, leave the main thread where it is. -/
theorem Main.Next.of_handler {s : Shell} {a : Action} {code code' : Code} {main main' : Main}
    (hcode : Code.Next s a code code') (h : Main.Next s a main main') : main' = main := by
  cases hcode <;> cases h <;> rfl

/-- **What a step does to the mask the shell is on its way back to**: nothing, unless it is a `fork`
that fails. -/
theorem Shell.restored_step {s s' : Shell} (h : s.ForkMasked) {a : Action}
    (hfork : ∀ pid, a = .fork pid → 0 ≤ pid) (hstep : s.step a = some s') :
    s'.ForkMasked ∧ s'.restored = s.restored := by
  obtain ⟨main, main', hmain, hmain', hnext⟩ := Shell.step_next hstep
  -- the main thread stands still, and so does the mask it runs under
  have hstill : main' = main → s'.mainMask = s.mainMask →
      s'.ForkMasked ∧ s'.restored = s.restored := by
    rintro rfl hmask
    have hsame : s'.main = s.main := hmain'.trans hmain.symm
    refine ⟨fun bg line prev hat => ?_, ?_⟩
    · rw [hmask]
      exact h bg line prev (hsame ▸ hat)
    · rw [Shell.restored, Shell.restored, hsame, hmask]
  cases Shell.step_stacks hstep with
  | idle handlers handlers' executes =>
      have hmask := mainMask_of_idle handlers
      have hmask' := mainMask_of_idle handlers'
      rw [Shell.ForkMasked, Shell.restored, Shell.restored, hmask, hmask']
      cases executes with
      | read hread =>
          obtain ⟨hsaved', hsaved, hsame⟩ := read_mask hread
          rw [hsaved', hsaved, hsame]
          refine ⟨fun bg line prev hat => ?_, rfl⟩
          rw [hat] at hsaved'
          cases hsaved'
      | fork hforked =>
          obtain ⟨bg, line, prev, hat, -, -, ⟨hneg, -⟩ | ⟨-, hto⟩⟩ := fork_mask hforked
          · exact absurd (hfork _ rfl) (by omega)
          · rw [hat, hto]
            exact ⟨fun _ _ _ hat' => (nomatch hat'), rfl⟩
      | main hmain =>
          obtain ⟨hrestored, hat⟩ := stepMain_mask hmain
          exact ⟨hat, hrestored⟩
  | same a handlers mask main =>
      refine hstill (hmain'.symm.trans (main.trans hmain)) ?_
      rw [Shell.mainMask, Shell.mainMask, handlers, mask]
  | push sig main main' handlers =>
      refine hstill (hmain'.symm.trans (main'.trans hmain)) ?_
      rw [Shell.mainMask, handlers]
      rfl
  | wake sig main main' handlers =>
      refine ⟨fun _ _ _ hat => ?_, ?_⟩
      · rw [main'] at hat
        cases hat
      · rw [Shell.restored, Shell.restored, main, main']
        rfl
  | move next handlers handlers' =>
      refine hstill (hnext.of_handler next) ?_
      rw [Shell.mainMask, Shell.mainMask, handlers, handlers']
      rfl
  | pop returns handlers handlers' mask =>
      have hmain : main' = main := by
        cases hnext
        rfl
      refine hstill hmain ?_
      rw [Shell.mainMask, Shell.mainMask, handlers, handlers', mask]
      rfl

/-- A `fork` that fails adds `SIGCHLD` to it. -/
theorem Shell.restored_forkFailed {s s' : Shell} (h : s.ForkMasked) {pid : ℤ} (hneg : pid < 0)
    (hstep : s.step (.fork pid) = some s') :
    s'.handlers = [] ∧ s'.main = .ready ∧ s'.mask = s.restored.add .chld := by
  obtain ⟨hidle, hforked⟩ := step_fork hstep
  obtain ⟨bg, line, prev, hat, hsame, hhandlers, ⟨-, hready⟩ | ⟨hpos, -⟩⟩ := fork_mask hforked
  · refine ⟨hhandlers.trans hidle, hready, ?_⟩
    rw [hsame, Shell.restored, hat, ← mainMask_of_idle hidle]
    exact h bg line prev hat
  · omega

/-! ### Whole runs -/

/-- **The mask is restored**: in the read loop the mask is the one from the start, so that `SIGCHLD`
is delivered there if it was then, and `sigsuspend` waits under no other. -/
structure MaskRestored (mask : SigSet) (s : Shell) : Prop where
  ready : s.main = .ready → s.handlers = [] → s.mask = mask
  delivered : mask .chld = false → s.main = .ready → s.handlers = [] → s.mask .chld = false
  waits : ∀ prev, s.main = .suspended prev → prev = mask

/-- What holds as long as no `fork` fails. -/
structure Restoring (mask : SigSet) (s : Shell) : Prop where
  forkMasked : s.ForkMasked
  restored : s.restored = mask

theorem restoring_start (t : JobTable) (mask : SigSet) : Restoring mask (Shell.start t mask) where
  forkMasked _ _ _ h := nomatch h
  restored := rfl

theorem Restoring.maskRestored {mask : SigSet} {s : Shell} (h : Restoring mask s) :
    MaskRestored mask s := by
  have hready : s.main = .ready → s.handlers = [] → s.mask = mask := by
    intro hmain hidle
    have hrestored := h.restored
    rw [Shell.restored, hmain, mainMask_of_idle hidle] at hrestored
    exact hrestored
  refine ⟨hready, fun hmask hmain hidle => ?_, fun prev hmain => ?_⟩
  · rw [hready hmain hidle, hmask]
  · have hrestored := h.restored
    rw [Shell.restored, hmain] at hrestored
    exact hrestored

theorem add_chld_eq {mask : SigSet} : mask.add .chld = mask ↔ mask .chld = true := by
  constructor
  · intro h
    rw [← h]
    simp [SigSet.add]
  · intro h
    rw [SigSet.add, ← h]
    exact Function.update_eq_self _ _

theorem Restoring.step {mask : SigSet} {s s' : Shell} (h : Restoring mask s) {a : Action}
    (hfork : s.ForkReturns mask a) (hstep : s.step a = some s') : Restoring mask s' := by
  by_cases hfails : ∃ pid < 0, a = .fork pid
  · -- `SIGCHLD` was blocked from the start, and blocking it changes nothing
    obtain ⟨pid, hneg, rfl⟩ := hfails
    have hblocked : mask .chld = true := hfork.resolve_left (by omega)
    obtain ⟨hidle, hready, hmask⟩ := Shell.restored_forkFailed h.forkMasked hneg hstep
    refine ⟨fun _ _ _ hat => ?_, ?_⟩
    · rw [hready] at hat
      cases hat
    · rw [Shell.restored, hready, mainMask_of_idle hidle, hmask, h.restored]
      exact add_chld_eq.2 hblocked
  · push Not at hfails
    have hpos : ∀ pid, a = .fork pid → 0 ≤ pid := fun pid ha =>
      not_lt.1 fun hneg => hfails pid hneg ha
    obtain ⟨hmasked, hsame⟩ := Shell.restored_step h.forkMasked hpos hstep
    exact ⟨hmasked, hsame.trans h.restored⟩

/-- A `fork` that fails leaves `SIGCHLD` blocked in the read loop. -/
theorem Restoring.not_maskRestored {mask : SigSet} {s s' : Shell} (h : Restoring mask s)
    {a : Action} (hfork : ¬ s.ForkReturns mask a) (hstep : s.step a = some s') :
    ¬ MaskRestored mask s' := by
  intro hmask
  cases a with
  | fork pid =>
      simp only [Shell.ForkReturns, not_or, not_le, Bool.not_eq_true] at hfork
      obtain ⟨hneg, hopen⟩ := hfork
      obtain ⟨hidle, hready, hadd⟩ := Shell.restored_forkFailed h.forkMasked hneg hstep
      rw [h.restored] at hadd
      have hblocked := add_chld_eq.1 (hadd.symm.trans (hmask.ready hready hidle))
      rw [hopen] at hblocked
      cases hblocked
  | _ => exact hfork trivial

/-- **When the mask is restored** in every state of a run: iff no `fork` on the way fails, or
`SIGCHLD` was blocked when the shell started. -/
theorem maskRestored_iff (t : JobTable) (mask : SigSet) (actions : List Action) :
    Runs.Throughout Shell.step (MaskRestored mask) (Shell.start t mask) actions ↔
      Runs.Along Shell.step (Shell.ForkReturns mask) (Shell.start t mask) actions :=
  Runs.throughout_iff_along (I := Restoring mask) (fun _ h => h.maskRestored)
    (fun _ _ _ h hfork hstep => h.step hfork hstep)
    (fun _ _ _ h hfork hstep => h.not_maskRestored hfork hstep) (restoring_start t mask) actions

/-- A command is typed, and `fork` fails. -/
def forkFails : List Action := [.read ['l', 's', ' ', '&', '\n'], .main, .fork (-1)]

/-- **The mask is lost**: `eval` returns with `SIGCHLD` blocked. -/
theorem mask_lost :
    ¬ ∀ (t : JobTable) (mask : SigSet) (actions : List Action),
      Runs.Throughout Shell.step (MaskRestored mask) (Shell.start t mask) actions := by
  intro h
  have hend : ((Shell.start startTable fun _ => false).run forkFails).any (fun s =>
      s.main.isReady && s.handlers.isEmpty &&
        s.mask .chld) = true := by
    decide +kernel
  obtain ⟨s, hrun, hend⟩ := (Option.any_eq_true _ _).1 hend
  simp only [Bool.and_eq_true, List.isEmpty_iff] at hend
  obtain ⟨⟨hmain, hidle⟩, hblocked⟩ := hend
  have hmask := h startTable (fun _ => false) forkFails forkFails s (List.prefix_refl _) hrun
  cases hs : s.main with
  | ready =>
      rw [hmask.ready hs hidle] at hblocked
      cases hblocked
  | _ => simp [hs, Main.isReady] at hmain

end Tsh
