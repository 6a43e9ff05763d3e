/-
**What is tracked, and the main thread.**

A child may die before the shell has recorded it, several deaths may arrive as one signal, and the
handler may run between any two statements.  The job list keeps up because `SIGCHLD` is blocked
from before `fork` until after `addjob`, and because the handler asks `waitpid` until there is
nothing to report.  The invariant says so at every statement: the jobs and the child that is still
to be added are the children and the one that is still to be deleted.  In a run that finds the list
full when it adds a job, only the first are among the second.

Main definitions:

* `Tsh.Tracked` — the invariant;
* `Tsh.Shell.Noticed` — no change of a child is overlooked.

Main results:

* `Tsh.Tracked.fork`, `Tsh.Tracked.addjob`, `Tsh.Tracked.kill`, `Tsh.Tracked.stepMain` — the
  statements of the main thread keep it.
-/

import CsappLab.TshSteps

set_option relaxedAutoImplicit false
set_option autoImplicit false

namespace Tsh

/-! ### The invariant -/

namespace Shell

/-- `sigchld_handler` is running. -/
def HandlerRunning (s : Shell) : Prop := ∃ f ∈ s.handlers, f.code.isChld = true

/-- The pids of the children. -/
def childPids (s : Shell) : List ℤ := s.children.map Child.pid

/-- A change of a child that was not reported is pending, or will be found. -/
def Noticed (s : Shell) : Prop :=
  (∃ c ∈ s.children, c.status.reportable = true) →
    s.pending .chld = true ∨ ∃ f ∈ s.handlers, f.code.polls = true

end Shell

/-- **The invariant**: the jobs and the child still to be added are among the children and the one
still to be deleted, and are all of them if every job fitted into the list. -/
structure Tracked (fits : Prop) (s : Shell) : Prop where
  table : PidsOk s.table
  nodup : s.childPids.Nodup
  pos : ∀ p ∈ s.childPids, 1 ≤ p
  guarded : Guarded s.main s.handlers s.mask
  listed : ∀ p, p ∈ s.table.pids ∨ s.main.forked = some p →
    p ∈ s.childPids ∨ due s.handlers = some p
  recorded : fits → ∀ p, p ∈ s.childPids ∨ due s.handlers = some p →
    p ∈ s.table.pids ∨ s.main.forked = some p
  new : ∀ p, s.main.forked = some p → p ∉ s.table.pids
  gone : ∀ p, due s.handlers = some p → p ∉ s.childPids
  noticed : s.Noticed

variable {fits : Prop}

/-- A step that leaves the pids alone. -/
theorem Tracked.congr {s s' : Shell} (h : Tracked fits s) (htable : PidsOk s'.table)
    (hpids : s'.table.pids = s.table.pids) (hchildren : s'.childPids = s.childPids)
    (hforked : s'.main.forked = s.main.forked) (hdue : due s'.handlers = due s.handlers)
    (hguarded : Guarded s'.main s'.handlers s'.mask) (hnoticed : s'.Noticed) :
    Tracked fits s' where
  table := htable
  nodup := hchildren ▸ h.nodup
  pos := hchildren ▸ h.pos
  guarded := hguarded
  listed p := by
    rw [hpids, hchildren, hforked, hdue]
    exact h.listed p
  recorded hfits p := by
    rw [hpids, hchildren, hforked, hdue]
    exact h.recorded hfits p
  new p := by
    rw [hpids, hforked]
    exact h.new p
  gone p := by
    rw [hchildren, hdue]
    exact h.gone p
  noticed := hnoticed

theorem tracked_start (t : JobTable) (mask : SigSet) : Tracked fits (Shell.start t mask) where
  table := pidsOk_initjobs t
  nodup := List.nodup_nil
  pos p hp := by cases hp
  guarded hheld := by
    rcases hheld with hcritical | ⟨f, hf, -⟩
    · cases hcritical
    · cases hf
  listed p := by
    rw [show (Shell.start t mask).table = initjobs t from rfl, pids_initjobs]
    simp [Shell.start, Main.forked]
  recorded _ p hp := by
    rcases hp with hp | hp
    · cases hp
    · cases hp
  new p hp := by cases hp
  gone p hp := by cases hp
  noticed := by
    rintro ⟨c, hc, -⟩
    cases hc

/-! ### Steps of the main thread -/

/-- A step that moves the main thread and prints, and no more. -/
structure Quiet (s s' : Shell) : Prop where
  table : s'.table = s.table
  children : s'.children = s.children
  mask : s'.mask = s.mask
  pending : s'.pending = s.pending
  handlers : s'.handlers = s.handlers
  critical : s'.main.critical = s.main.critical
  forked : s'.main.forked = s.main.forked

theorem Tracked.quiet {s s' : Shell} (h : Tracked fits s) (hq : Quiet s s') : Tracked fits s' := by
  refine h.congr ?_ ?_ ?_ hq.forked ?_ ?_ ?_
  · rw [hq.table]
    exact h.table
  · rw [hq.table]
  · rw [Shell.childPids, hq.children]
    rfl
  · rw [hq.handlers]
  · rw [hq.handlers, hq.mask]
    exact h.guarded.congr hq.critical
  · rw [Shell.Noticed, hq.children, hq.pending, hq.handlers]
    exact h.noticed

theorem quiet_read {s s' : Shell} {line : List Char} (h : s.read line = some s') : Quiet s s' := by
  obtain ⟨hmain, main, exited, out, rfl, hcase⟩ := read_some h
  constructor <;> try rfl
  · rw [hmain]
    rcases hcase with rfl | ⟨bg, -, rfl⟩ | ⟨i, state, -, rfl⟩ <;> rfl
  · rw [hmain]
    rcases hcase with rfl | ⟨bg, -, rfl⟩ | ⟨i, state, -, rfl⟩ <;> rfl

theorem guarded_idle {main : Main} {m : SigSet} (h : main.critical = false) :
    Guarded main [] m := by
  rintro (hcritical | ⟨f, hf, -⟩)
  · rw [h] at hcritical
    cases hcritical
  · cases hf

/-- `fork` returns. -/
theorem Tracked.fork {s s' : Shell} (h : Tracked fits s) (hidle : s.handlers = []) {pid : ℤ}
    (hstep : s.fork pid = some s') : Tracked fits s' := by
  obtain ⟨bg, line, prev, hmain, ⟨out, rfl⟩ | ⟨hpos, hnew, rfl⟩⟩ := fork_some hstep
  · refine h.congr h.table rfl rfl ?_ rfl ?_ h.noticed
    · rw [hmain]
      rfl
    · show Guarded .ready s.handlers s.mask
      rw [hidle]
      exact guarded_idle rfl
  · have hpid : pid ∉ s.childPids := by
      intro hmem
      obtain ⟨c, hc, hcp⟩ := List.mem_map.1 hmem
      exact hnew c hc hcp
    have hdue : due s.handlers = none := by rw [hidle]; rfl
    have hlisted : ∀ p, p ∈ s.table.pids → p ∈ s.childPids := by
      intro p hp
      rcases h.listed p (.inl hp) with hp | hp
      · exact hp
      · rw [hdue] at hp
        cases hp
    constructor
    · exact h.table
    · exact List.nodup_cons.2 ⟨hpid, h.nodup⟩
    · intro p hp
      rcases List.mem_cons.1 hp with rfl | hp
      · exact hpos
      · exact h.pos p hp
    · show Guarded (.evalBlockAll bg line prev pid) s.handlers s.mask
      exact h.guarded.congr (by rw [hmain]; rfl)
    · rintro p (hp | hp)
      · exact .inl (List.mem_cons_of_mem _ (hlisted p hp))
      · cases hp
        exact .inl List.mem_cons_self
    · rintro hfits p (hp | hp)
      · rcases List.mem_cons.1 hp with rfl | hp
        · exact .inr rfl
        · rcases h.recorded hfits p (.inl hp) with hp | hp
          · exact .inl hp
          · rw [hmain] at hp
            cases hp
      · rw [show due _ = due s.handlers from rfl, hdue] at hp
        cases hp
    · intro p hp
      cases hp
      exact fun hmem => hpid (hlisted pid hmem)
    · intro p hp
      rw [show due _ = due s.handlers from rfl, hdue] at hp
      cases hp
    · rintro ⟨c, hc, hrep⟩
      rcases List.mem_cons.1 hc with rfl | hc
      · cases hrep
      · exact h.noticed ⟨c, hc, hrep⟩

/-- What `kill` leaves alone. -/
theorem kill_spec {s s' : Shell} {group : ℤ} {effect : Status → Status}
    (h : s.kill group effect = some s') :
    s'.table = s.table ∧ s'.mask = s.mask ∧ s'.main = s.main ∧ s'.handlers = s.handlers ∧
      s'.childPids = s.childPids ∧ (s.Noticed → s'.Noticed) := by
  obtain ⟨-, rfl⟩ := kill_some h
  refine ⟨rfl, rfl, rfl, rfl, ?_, fun hnoticed => ?_⟩
  · simp only [Shell.childPids, List.map_map]
    refine List.map_congr_left fun c _ => ?_
    simp only [Function.comp_apply]
    split <;> rfl
  · rintro ⟨d, hd, hrep⟩
    obtain ⟨c, hc, rfl⟩ := List.mem_map.1 hd
    by_cases hchange : ∃ c ∈ s.children, c.group = group ∧ effect c.status ≠ c.status
    · exact .inl (by simp [hchange, SigSet.add])
    · -- nobody's state has changed, so that the child was reportable before
      have hsame : ¬ (c.group = group ∧ effect c.status ≠ c.status) := fun hne =>
        hchange ⟨c, hc, hne⟩
      have hrep' : c.status.reportable = true := by
        by_cases hgroup : c.group = group
        · rw [if_pos hgroup] at hrep
          rw [← not_not.1 fun hne => hsame ⟨hgroup, hne⟩]
          exact hrep
        · rwa [if_neg hgroup] at hrep
      rcases hnoticed ⟨c, hc, hrep'⟩ with hpending | hpolls
      · exact .inl (by simp [hchange, hpending])
      · exact .inr hpolls

theorem Tracked.kill {s s' : Shell} (h : Tracked fits s) {group : ℤ} {effect : Status → Status}
    (hkill : s.kill group effect = some s') : Tracked fits s' := by
  obtain ⟨htable, hmask, hmain, hhandlers, hchildren, hnoticed⟩ := kill_spec hkill
  refine h.congr ?_ (by rw [htable]) hchildren (by rw [hmain]) (by rw [hhandlers]) ?_
    (hnoticed h.noticed)
  · rw [htable]
    exact h.table
  · rw [hmain, hhandlers, hmask]
    exact h.guarded

/-- The main thread is about to add a job. -/
def Main.adding : Main → Bool
  | .evalAddjob _ _ _ _ => true
  | _ => false

/-- `addjob`: the child gets its slot, unless the list is full. -/
theorem Tracked.addjob {s : Shell} (h : Tracked fits s) (hidle : s.handlers = [])
    (hroom : fits → ∃ i, (s.table.slots i).pid = 0) {bg pid : ℤ} {line : List Char} {prev : SigSet}
    (hmain : s.main = .evalAddjob bg line prev pid) (out : List String) :
    Tracked fits { s with
      table := (Tsh.addjob s.table pid (if bg = 0 then .fg else .bg) line).1
      main := .evalRestore bg line prev pid
      out := out } := by
  have hdue : due s.handlers = none := by rw [hidle]; rfl
  have hforked : s.main.forked = some pid := by rw [hmain]; rfl
  have hnew := h.new pid hforked
  have hlisted : ∀ p, p ∈ s.table.pids ∨ p = pid → p ∈ s.childPids := by
    intro p hp
    have := h.listed p (by rwa [hforked, Option.some.injEq, eq_comm (a := pid)])
    rw [hdue] at this
    simpa using this
  have hpid : 1 ≤ pid := h.pos pid (hlisted pid (.inr rfl))
  obtain ⟨hok, hpids⟩ : PidsOk (Tsh.addjob s.table pid (if bg = 0 then .fg else .bg) line).1 ∧
      ∀ p, (p ∈ (Tsh.addjob s.table pid (if bg = 0 then .fg else .bg) line).1.pids →
          p ∈ s.table.pids ∨ p = pid) ∧
        (fits → p ∈ s.table.pids ∨ p = pid →
          p ∈ (Tsh.addjob s.table pid (if bg = 0 then .fg else .bg) line).1.pids) := by
    by_cases hfree : ∃ i, (s.table.slots i).pid = 0
    · obtain ⟨hok, hpids⟩ := h.table.addjob hpid hnew hfree (if bg = 0 then .fg else .bg) line
      exact ⟨hok, fun p => ⟨(hpids p).1, fun _ => (hpids p).2⟩⟩
    -- the list is full, and the child is not entered
    · rcases addjob_cases s.table hpid (if bg = 0 then .fg else .bg) line with
        ⟨i, hi, -⟩ | ⟨-, hadd⟩
      · exact absurd ⟨i, hi⟩ hfree
      · rw [hadd]
        exact ⟨h.table, fun p => ⟨.inl, fun hfits => absurd (hroom hfits) hfree⟩⟩
  constructor
  · exact hok
  · exact h.nodup
  · exact h.pos
  · show Guarded (.evalRestore bg line prev pid) s.handlers s.mask
    rw [hidle]
    exact guarded_idle rfl
  · rintro p (hp | hp)
    · exact .inl (hlisted p ((hpids p).1 hp))
    · cases hp
  · rintro hfits p hp
    rcases h.recorded hfits p hp with hp | hp
    · exact .inl ((hpids p).2 hfits (.inl hp))
    · rw [hforked] at hp
      cases hp
      exact .inl ((hpids pid).2 hfits (.inr rfl))
  · intro p hp
    cases hp
  · intro p hp
    rw [show due _ = due s.handlers from rfl, hdue] at hp
    cases hp
  · exact h.noticed

/-- A statement of the main thread, if a job that is added finds a free slot. -/
theorem Tracked.stepMain {s s' : Shell} (h : Tracked fits s) (hidle : s.handlers = [])
    (hroom : fits → s.main.adding = true → ∃ i, (s.table.slots i).pid = 0)
    (hstep : s.stepMain = some s') : Tracked fits s' := by
  have hidle' : ∀ {main : Main} {m : SigSet}, main.critical = false →
      Guarded main s.handlers m := by
    intro main m hcritical
    rw [hidle]
    exact guarded_idle hcritical
  cases stepMain_some hstep with
  | evalAddjob out main =>
      exact h.addjob hidle (fun hfits => hroom hfits (by rw [main]; rfl)) main out
  | evalBlock main =>
      refine h.congr h.table rfl rfl (by rw [main]; rfl) rfl ?_ h.noticed
      show Guarded _ s.handlers _
      rw [hidle]
      intro _
      simp [SigSet.add]
  | evalBlockAll main =>
      refine h.congr h.table rfl rfl (by rw [main]; rfl) rfl ?_ h.noticed
      exact (h.guarded.congr (by rw [main]; rfl)).mono fun _ => rfl
  | killed kill main =>
      obtain ⟨-, -, main₁, hhandlers, -, -⟩ := kill_spec kill
      have h₁ := h.kill kill
      refine h₁.congr h₁.table rfl rfl (by rw [main₁, main]; rfl) rfl ?_ h₁.noticed
      show Guarded _ _ _
      rw [hhandlers]
      exact hidle' rfl
  | bgfgState main =>
      exact h.congr (h.table.setSlot rfl) (pids_setSlot rfl) rfl (by rw [main]; rfl) rfl
        (hidle' rfl) h.noticed
  -- the others move the main thread between places where it holds nothing
  | _ =>
      rename_i main
      exact h.congr h.table rfl rfl (by rw [main]; rfl) rfl (hidle' rfl) h.noticed

end Tsh
