/-
**Ctrl-c and ctrl-z.**

`sigint_handler` and `sigtstp_handler` read `fgpid` while all signals are blocked, restore the mask,
and then send the signal to the group of the job; if that fails, `unix_error` ends the shell.  A job
in the foreground was put there by `fg`, after its group was sent `SIGCONT`, so that the group is
there for as long as the child is not reaped.  There are two ways to lose the child: the handler may
run on top of a `sigchld_handler` that has reaped it and not deleted the job yet, and a
`sigchld_handler` may run on top of the handler between the mask and the signal.

Main definitions:

* `Tsh.Shell.Harmless` — the handlers do not end the shell, and signal the job in the foreground;
* `Tsh.Shell.Undisturbed` — neither of the two ways is taken;
* `Tsh.Code.target` — the group a handler is about to signal;
* `Tsh.Aimed` — the invariant: what a handler is about to signal is alive and in the foreground.

Main results:

* `Tsh.harmless_run` — **ctrl-c and ctrl-z do no harm** in every run that takes neither way;
* `Tsh.shell_killed` — a run in which ctrl-c ends the shell.
-/

import CsappLab.TshEffects
import CsappLab.TshSlots
import Mathlib.Data.List.Pairwise

set_option relaxedAutoImplicit false
set_option autoImplicit false

namespace Tsh

/-! ### Doing no harm -/

/-- The job with this pid is in the foreground, and its child has not been reaped. -/
def Shell.Live (s : Shell) (pid : ℤ) : Prop :=
  pid ∈ s.childPids ∧ ∃ i, (s.table.slots i).pid = pid ∧ (s.table.slots i).state = .fg

/-- **Ctrl-c and ctrl-z do no harm** in a statement of a handler: it does not end the shell, and a
`kill` it executes goes to the group of a child that was not reaped and is the job in the
foreground. -/
def Shell.Harmless (s : Shell) (a : Action) : Prop :=
  a = .handler →
    (∀ s', s.step a = some s' → s'.exited = false) ∧
    ∀ mask key pid rest, s.handlers = ⟨mask, .ctrl key (.kill pid)⟩ :: rest →
      s.Live pid ∧ ∃ c ∈ s.children, c.group = pid

/-- The group a handler is about to signal. -/
def Code.target : Code → Option ℤ
  | .ctrl _ (.restore _ pid) => some pid
  | .ctrl _ (.kill pid) => some pid
  | _ => none

/-- `waitpid` does not report a child that a handler is about to signal, and a handler does not look
for the job in the foreground while its child has been reaped and the job has not been deleted. -/
def Shell.Undisturbed (s : Shell) (a : Action) : Prop :=
  match a, s.handlers with
  | .waitpid (some pid), handlers => ∀ f ∈ handlers, f.code.target ≠ some pid
  | .handler, ⟨_, .ctrl _ (.look _)⟩ :: rest => due rest ≠ some (fgpid s.table)
  | _, _ => True

/-! ### The job that is signalled -/

/-- What is found in the foreground is in the list. -/
theorem fgpid_slot {t : JobTable} (h : fgpid t ≠ 0) :
    ∃ i, (t.slots i).pid = fgpid t ∧ (t.slots i).state = .fg := by
  cases hscan : t.scan fun job => job.state = .fg with
  | none => exact absurd (by rw [fgpid, hscan]) h
  | some i => exact ⟨i, by rw [fgpid, hscan], by simpa using scan_some hscan⟩

/-- A job in the foreground stays there, and its child is not reaped, unless `waitpid` reports it or
its update is executed. -/
theorem live_step {s s' : Shell} {pid : ℤ} (h : s.Live pid) (hpos : 1 ≤ pid) {a : Action}
    (hstep : s.step a = some s') (hbusy : s.handlers ≠ []) (hwait : a ≠ .waitpid (some pid))
    (hupdate : ∀ f rest, s.handlers = f :: rest → f.code.notes ≠ some pid) : s'.Live pid := by
  obtain ⟨hchild, i, hi, hfg⟩ := h
  constructor
  -- the child: only `waitpid` takes one off the list, and it does not report this one
  · obtain ⟨c, hc, rfl⟩ := List.mem_map.1 hchild
    cases Shell.step_affects hstep with
    | goOn a f goesOn children =>
        rw [Shell.childPids, children, List.map_map]
        exact List.mem_map.2 ⟨c, hc, (goesOn c).pid⟩
    | fork new children =>
        rw [Shell.childPids, children]
        exact List.mem_cons_of_mem _ hchild
    | reap children =>
        rename_i q
        have hne : c.pid ≠ q := by
          rintro rfl
          exact hwait rfl
        rw [Shell.childPids, children]
        exact List.mem_map_of_mem (List.mem_filter.2 ⟨hc, by simpa using hne⟩)
  -- the job: a handler runs, so that only the update of another child is left
  · cases Shell.step_writes hstep with
    | nothing a table => exact ⟨i, by rw [table]; exact ⟨hi, hfg⟩⟩
    | addjob idle main main' table => exact absurd idle hbusy
    | setState idle main main' table => exact absurd idle hbusy
    | deletejob handlers zombie main' table =>
        rename_i mask prev q st rest
        have hst : st ≠ .running := by
          rintro rfl
          cases zombie
        have hne : q ≠ pid := by
          rintro rfl
          exact hupdate _ _ handlers (notes_update hst)
        refine ⟨i, ?_⟩
        rcases deletejob_cases s.table q with ⟨j, hj, hdel⟩ | ⟨-, hdel⟩
        · have hij : i ≠ j := by
            rintro rfl
            exact hne ((getjobpid_some hj).2.symm.trans hi)
          rw [table, hdel]
          simpa [hij] using ⟨hi, hfg⟩
        · rw [table, hdel]
          exact ⟨hi, hfg⟩
    | stop handlers found main' table =>
        rename_i mask prev q sig reported rest j
        have hne : q ≠ pid := by
          rintro rfl
          exact hupdate _ _ handlers (notes_update (by simp))
        have hij : i ≠ j := by
          rintro rfl
          exact hne ((getjobpid_some found).2.symm.trans hi)
        rw [table]
        exact ⟨i, by simpa [hij] using ⟨hi, hfg⟩⟩

/-! ### The group of the job -/

/-- `do_bgfg` is about to set the state of slot `i`, or has put its job in the foreground. -/
def Shell.Chosen (s : Shell) (i : Fin maxJobs) : Prop :=
  (s.table.slots i).state = .fg ∨ ∃ state, s.main = .bgfgState i state

/-- A slot keeps its pid while `do_bgfg` holds a pointer to it, or is cleared. -/
theorem pid_step {s s' : Shell} {a : Action} (hstep : s.step a = some s') {i : Fin maxJobs}
    (hmain : ∀ bg line prev pid, s.main ≠ .evalAddjob bg line prev pid) :
    (s'.table.slots i).pid = (s.table.slots i).pid ∨ (s'.table.slots i).pid = 0 := by
  cases Shell.step_writes hstep with
  | nothing a table => exact .inl (by rw [table])
  | addjob idle main main' table => exact absurd main (hmain _ _ _ _)
  | setState idle main main' table => exact .inl (by rw [table]; exact pid_setSlot (by rfl) i)
  | deletejob handlers zombie main' table =>
      rename_i mask prev q st rest
      rcases deletejob_cases s.table q with ⟨j, -, hdel⟩ | ⟨-, hdel⟩
      · rw [table, hdel]
        by_cases hij : i = j
        · subst hij
          exact .inr (by simp [clearjob])
        · exact .inl (by simp [hij])
      · exact .inl (by rw [table, hdel])
  | stop handlers found main' table => exact .inl (by rw [table]; exact pid_setSlot (by rfl) i)

/-- **The invariant**: the child of a job that was chosen has its group, and what a handler is about
to signal is alive and in the foreground; no handler on top of it is about to change that. -/
structure Aimed (s : Shell) : Prop where
  tracked : Tracked False s
  proper : s.main.Proper
  grouped : ∀ i, s.Chosen i → ∀ c ∈ s.children, c.pid = (s.table.slots i).pid → c.grouped = true
  live : ∀ f ∈ s.handlers, ∀ pid, f.code.target = some pid → s.Live pid
  apart : s.handlers.Pairwise fun f g => ∀ pid, f.code.notes = some pid →
    g.code.target ≠ some pid

theorem aimed_start (t : JobTable) (mask : SigSet) : Aimed (Shell.start t mask) where
  tracked := tracked_start t mask
  proper := trivial
  grouped _ _ c hc := by cases hc
  live f hf := by cases hf
  apart := List.Pairwise.nil

/-- A child has a positive pid. -/
theorem Tracked.child_pos {fits : Prop} {s : Shell} (h : Tracked fits s) {c : Child}
    (hc : c ∈ s.children) : 1 ≤ c.pid :=
  h.pos c.pid (List.mem_map_of_mem hc)

/-- A child that goes on keeps its group; a new one has not the pid of a job. -/
theorem Aimed.grouped_step {s s' : Shell} (h : Aimed s) {a : Action} (hstep : s.step a = some s')
    {p : ℤ} (hp : p ∈ s.table.pids) (hgrouped : ∀ c ∈ s.children, c.pid = p → c.grouped = true)
    {c' : Child} (hc' : c' ∈ s'.children) (hpid : c'.pid = p) : c'.grouped = true := by
  cases Shell.step_affects hstep with
  | goOn a f goesOn children =>
      rw [children] at hc'
      obtain ⟨c, hc, rfl⟩ := List.mem_map.1 hc'
      exact (goesOn c).grouped (hgrouped c hc ((goesOn c).pid.symm.trans hpid))
  | fork new children =>
      rename_i q
      rw [children] at hc'
      rcases List.mem_cons.1 hc' with rfl | hc'
      · -- no handler runs, so that the job has a child
        have hidle := (step_fork hstep).1
        rcases h.tracked.listed p (.inl hp) with hchild | hdue
        · obtain ⟨c, hc, hcp⟩ := List.mem_map.1 hchild
          exact absurd (hcp.trans hpid.symm) (new c hc)
        · rw [hidle] at hdue
          cases hdue
      · exact hgrouped c' hc' hpid
  | reap children =>
      rw [children] at hc'
      exact hgrouped c' (List.mem_filter.1 hc').1 hpid

/-- A chosen job was chosen before, or has just been sent `SIGCONT`. -/
theorem Aimed.chosen_step {s s' : Shell} (h : Aimed s) {a : Action} (hstep : s.step a = some s')
    {i : Fin maxJobs} (hi : s'.Chosen i) (hpid : (s'.table.slots i).pid ≠ 0) :
    (s'.table.slots i).pid = (s.table.slots i).pid ∧ (s.Chosen i ∨ ∃ c ∈ s.children,
      c.pid = (s.table.slots i).pid ∧ c.grouped = true) := by
  rcases hi with hfg | ⟨state, hmain'⟩
  · rcases fg_step h.proper hstep hfg with hslot | ⟨-, hmain, hslot⟩
    · exact ⟨by rw [hslot], .inl (.inl (by rwa [hslot] at hfg))⟩
    · exact ⟨by rw [hslot], .inl (.inr ⟨.fg, hmain⟩)⟩
  -- the main thread holds a pointer to the slot: it did before, or `kill` has just succeeded
  · obtain ⟨main, main', hmain, hmain'', hnext⟩ := Shell.step_next hstep
    rw [hmain''] at hmain'
    have hsame : (∀ bg line prev pid, main ≠ .evalAddjob bg line prev pid) →
        (s'.table.slots i).pid = (s.table.slots i).pid := fun hne =>
      (pid_step hstep (by rwa [hmain])).resolve_right hpid
    cases hnext with
    | stay a main =>
        subst hmain'
        exact ⟨hsame (by simp), .inl (.inr ⟨state, hmain⟩)⟩
    | killed state hgroup =>
        cases hmain'
        have hsame := hsame (by simp)
        refine ⟨hsame, .inr ?_⟩
        rcases hgroup with hzero | ⟨c, hc, hcg⟩
        · exact absurd (hsame.trans hzero) hpid
        · unfold Child.group at hcg
          split at hcg
          · rename_i hgrouped
            exact ⟨c, hc, hcg, hgrouped⟩
          · exact absurd (hsame.trans hcg.symm) hpid
    | _ => cases hmain'

/-- What a handler is about to signal stays alive and in the foreground. -/
theorem Aimed.live_step {s s' : Shell} (h : Aimed s) {a : Action} (hundisturbed : s.Undisturbed a)
    (hstep : s.step a = some s') {f : Frame} (hf : f ∈ s.handlers) {pid : ℤ}
    (htarget : f.code.target = some pid) : s'.Live pid := by
  have hlive := h.live f hf pid htarget
  refine Tsh.live_step hlive (h.tracked.pos pid hlive.1) hstep (List.ne_nil_of_mem hf) ?_ ?_
  · rintro rfl
    exact hundisturbed f hf htarget
  · intro g rest hhandlers hnotes
    have hapart := h.apart
    rw [hhandlers] at hf hapart
    rcases List.mem_cons.1 hf with rfl | hf
    · -- a handler of one kind is not of the other
      rcases hcode : f.code with pc | ⟨key, pc⟩
      · rw [hcode] at htarget
        cases htarget
      · rw [hcode] at hnotes
        cases hnotes
    · exact (List.pairwise_cons.1 hapart).1 f hf pid hnotes htarget

/-- What a handler finds in the foreground is alive. -/
theorem Aimed.found {s : Shell} (h : Aimed s) {mask prev : SigSet} {key : Ctrl} {rest : List Frame}
    (hhandlers : s.handlers = ⟨mask, .ctrl key (.look prev)⟩ :: rest)
    (hundisturbed : s.Undisturbed .handler) (hfound : key.found (fgpid s.table) = true) :
    s.Live (fgpid s.table) := by
  have hne : fgpid s.table ≠ 0 := by
    cases key with
    | int => simpa [Ctrl.found] using hfound
    | tstp =>
        have hpos : 0 < fgpid s.table := by simpa [Ctrl.found] using hfound
        omega
  obtain ⟨i, hi, hfg⟩ := fgpid_slot hne
  refine ⟨?_, i, hi, hfg⟩
  rcases h.tracked.listed (fgpid s.table) (.inl ⟨hne, i, hi⟩) with hchild | hdue
  · exact hchild
  · rw [hhandlers, due_cons_ctrl] at hdue
    unfold Shell.Undisturbed at hundisturbed
    rw [hhandlers] at hundisturbed
    exact absurd hdue hundisturbed

/-- What a handler is about to signal after a step is alive and in the foreground. -/
theorem Aimed.targets_step {s s' : Shell} (h : Aimed s) {a : Action}
    (hundisturbed : s.Undisturbed a) (hstep : s.step a = some s') {f : Frame}
    (hf : f ∈ s'.handlers) {pid : ℤ} (htarget : f.code.target = some pid) : s'.Live pid := by
  have hkept : ∀ g ∈ s.handlers, g.code.target = some pid → s'.Live pid := fun g hg hgt =>
    h.live_step hundisturbed hstep hg hgt
  cases Shell.step_stacks hstep with
  | idle handlers handlers' executes =>
      rw [handlers'] at hf
      cases hf
  | same a handlers mask main =>
      rw [handlers] at hf
      exact hkept f hf htarget
  | push sig main main' handlers =>
      rw [handlers] at hf
      rcases List.mem_cons.1 hf with rfl | hf
      · cases sig <;> cases htarget
      · exact hkept f hf htarget
  | wake sig main main' handlers =>
      rw [handlers] at hf
      rcases List.mem_cons.1 hf with rfl | hf
      · cases sig <;> cases htarget
      · exact hkept f hf htarget
  | move next handlers handlers' =>
      rename_i mask code code' rest
      rw [handlers'] at hf
      rcases List.mem_cons.1 hf with rfl | hf
      · cases next with
        | found prev hfound =>
            -- `fgpid` is read here, and nothing else happens
            cases htarget
            have hlive := h.found handlers hundisturbed hfound
            refine Tsh.live_step hlive (h.tracked.pos _ hlive.1) hstep (by simp [handlers])
              (by simp) fun g rest' hhandlers hnotes => ?_
            rw [handlers] at hhandlers
            cases hhandlers
            cases hnotes
        | ctrlRestore key prev q =>
            refine hkept ⟨mask, .ctrl key (.restore prev q)⟩ ?_ htarget
            rw [handlers]
            exact List.mem_cons_self
        | _ => cases htarget
      · exact hkept f (by rw [handlers]; exact List.mem_cons_of_mem _ hf) htarget
  | pop returns handlers handlers' mask =>
      rw [handlers'] at hf
      exact hkept f (by rw [handlers]; exact List.mem_cons_of_mem _ hf) htarget

/-- A handler that notes a child never stands on top of one that is about to signal it. -/
theorem Aimed.apart_step {s s' : Shell} (h : Aimed s) {a : Action} (hundisturbed : s.Undisturbed a)
    (hstep : s.step a = some s') :
    s'.handlers.Pairwise fun f g => ∀ pid, f.code.notes = some pid →
      g.code.target ≠ some pid := by
  have hapart := h.apart
  cases Shell.step_stacks hstep with
  | idle handlers handlers' executes =>
      rw [handlers']
      exact List.Pairwise.nil
  | same a handlers mask main =>
      rw [handlers]
      exact hapart
  | push sig main main' handlers =>
      rw [handlers]
      refine List.pairwise_cons.2 ⟨fun g hg pid hnotes => ?_, hapart⟩
      cases sig <;> cases hnotes
  | wake sig main main' handlers =>
      rw [handlers]
      refine List.pairwise_cons.2 ⟨fun g hg pid hnotes => ?_, hapart⟩
      cases sig <;> cases hnotes
  | move next handlers handlers' =>
      rename_i mask code code' rest
      rw [handlers, List.pairwise_cons] at hapart
      rw [handlers']
      refine List.pairwise_cons.2 ⟨fun g hg pid hnotes => ?_, hapart.2⟩
      cases next with
      | report q st =>
          -- the condition: nobody below is about to signal the child that is reported
          have hq : st ≠ .running ∧ q = pid := by simpa [Code.notes] using hnotes
          obtain ⟨-, rfl⟩ := hq
          refine hundisturbed g ?_
          rw [handlers]
          exact List.mem_cons_of_mem _ hg
      | block q st => exact hapart.1 g hg pid hnotes
      | _ => cases hnotes
  | pop returns handlers handlers' mask =>
      rw [handlers, List.pairwise_cons] at hapart
      rw [handlers']
      exact hapart.2

/-- A job that is chosen after a step has a child with its group. -/
theorem Aimed.chosen_grouped {s s' : Shell} (h : Aimed s) {a : Action} (hstep : s.step a = some s')
    {i : Fin maxJobs} (hi : s'.Chosen i) {c : Child} (hc : c ∈ s'.children) (hpos : 1 ≤ c.pid)
    (hpid : c.pid = (s'.table.slots i).pid) : c.grouped = true := by
  obtain ⟨hsame, hbefore⟩ := h.chosen_step hstep hi (by omega)
  have hlisted : (s.table.slots i).pid ∈ s.table.pids := ⟨by omega, i, rfl⟩
  refine h.grouped_step hstep hlisted ?_ hc (hpid.trans hsame)
  rcases hbefore with hchosen | ⟨d, hd, hdpid, hgrouped⟩
  · exact h.grouped i hchosen
  -- pids are distinct, so that this is the child that was sent `SIGCONT`
  · intro e he hepid
    rw [List.inj_on_of_nodup_map h.tracked.nodup he hd (hepid.trans hdpid.symm)]
    exact hgrouped

/-- **One step** keeps the invariant if it does not take either way to lose the child. -/
theorem Aimed.step {s s' : Shell} (h : Aimed s) {a : Action} (hundisturbed : s.Undisturbed a)
    (hstep : s.step a = some s') : Aimed s' := by
  have htracked := h.tracked.step (fun hfits => hfits.elim) hstep
  constructor
  · exact htracked
  · exact proper_step h.proper hstep
  · intro i hi c hc hpid
    exact h.chosen_grouped hstep hi hc (htracked.child_pos hc) hpid
  · intro f hf pid htarget
    exact h.targets_step hundisturbed hstep hf htarget
  · exact h.apart_step hundisturbed hstep

/-! ### Whole runs -/

/-- A handler ends the shell only by a `kill` that fails. -/
theorem exited_step {s s' : Shell} (hlive : s.exited = false) (h : s.stepHandler = some s')
    (hkill : ∀ mask key pid rest, s.handlers = ⟨mask, .ctrl key (.kill pid)⟩ :: rest →
      ∃ c ∈ s.children, c.group = pid) : s'.exited = false := by
  cases stepHandler_some h with
  | killed effect_eq kill handlers =>
      rw [(kill_some kill).2]
      exact hlive
  | killFailed out kill handlers =>
      -- there is a member of the group, and `kill` does not fail
      unfold Shell.kill at kill
      rw [if_pos (.inr (hkill _ _ _ _ handlers))] at kill
      cases kill
  | _ => exact hlive

/-- What a handler signals is a group. -/
theorem Aimed.harmless {s s' : Shell} (h : Aimed s) {a : Action} (hstep : s.step a = some s') :
    s.Harmless a := by
  rintro rfl
  have hkill : ∀ mask key pid rest, s.handlers = ⟨mask, .ctrl key (.kill pid)⟩ :: rest →
      s.Live pid ∧ ∃ c ∈ s.children, c.group = pid := by
    intro mask key pid rest hhandlers
    have hlive : s.Live pid :=
      h.live ⟨mask, .ctrl key (.kill pid)⟩ (by rw [hhandlers]; exact List.mem_cons_self) pid rfl
    refine ⟨hlive, ?_⟩
    obtain ⟨hchild, i, hi, hfg⟩ := hlive
    obtain ⟨c, hc, rfl⟩ := List.mem_map.1 hchild
    exact ⟨c, hc, if_pos (h.grouped i (.inl hfg) c hc hi.symm)⟩
  refine ⟨fun s'' hs'' => ?_, hkill⟩
  have hlive : s.exited = false := by
    unfold Shell.step at hstep
    split at hstep
    · cases hstep
    · rename_i hexited
      simpa using hexited
  exact exited_step hlive (step_handler hs'') fun mask key pid rest hhandlers =>
    (hkill mask key pid rest hhandlers).2

/-- **Ctrl-c and ctrl-z do no harm** in any run, with any signals delivered at any statement and the
children at any point of their lives, as long as `waitpid` reports no child that a handler is about
to signal, and no handler looks for the job in the foreground between the reaping of its child and
the update of the job list. -/
theorem harmless_run (t : JobTable) (mask : SigSet) (actions : List Action)
    (h : Runs.Along Shell.step Shell.Undisturbed (Shell.start t mask) actions) :
    Runs.Along Shell.step Shell.Harmless (Shell.start t mask) actions :=
  h.of_invariant (I := Aimed) (fun _ _ _ h hundisturbed hstep => h.step hundisturbed hstep)
    (fun _ _ _ h _ hstep => h.harmless hstep) (aimed_start t mask)

instance (s : Shell) (a : Action) : Decidable (s.Undisturbed a) := by
  unfold Shell.Undisturbed
  split <;> infer_instance

/-- A job is brought to the foreground, up to the `sigsuspend`. -/
def inForeground : List Action :=
  [.read ['l', 's', ' ', '&', '\n'], .main, .fork 100, .main, .main, .main, .main,
    .child 100 .setpgid, .read ['f', 'g', ' ', '%', '1', ' ', '&', '\n'], .main, .main, .main,
    .main, .main]

/-- Then ctrl-c is typed; the child is killed after it has been sent the signal. -/
def interrupted : List Action :=
  inForeground ++ [.send .int, .deliver .int, .handler, .handler, .handler, .handler,
    .child 100 (.signal 2), .handler, .main, .deliver .chld, .waitpid (some 100), .handler]

theorem harmless_run_interrupted :
    ((Shell.start startTable fun _ => false).run interrupted).isSome = true ∧
      Runs.Along Shell.step Shell.Harmless (Shell.start startTable fun _ => false) interrupted :=
  ⟨by decide +kernel, harmless_run startTable (fun _ => false) interrupted (by decide +kernel)⟩

/-- Ctrl-c is typed, and the child ends by itself before it is sent the signal. -/
def lateInterrupt : List Action :=
  inForeground ++ [.send .int, .deliver .int, .handler, .handler, .handler, .child 100 (.exit 0),
    .deliver .chld, .waitpid (some 100), .handler, .handler, .handler, .waitpid none, .handler]

/-- **Ctrl-c ends the shell**: the group of the job is gone when it is signalled. -/
theorem shell_killed :
    ¬ ∀ (t : JobTable) (mask : SigSet) (actions : List Action),
      Runs.Along Shell.step Shell.Harmless (Shell.start t mask) actions := by
  intro h
  have hend : ((Shell.start startTable fun _ => false).run lateInterrupt).any (fun s =>
      (s.step .handler).any fun s' => s'.exited) = true := by
    decide +kernel
  obtain ⟨s, hrun, hend⟩ := (Option.any_eq_true _ _).1 hend
  obtain ⟨s', hstep, hexited⟩ := (Option.any_eq_true _ _).1 hend
  have halong := h startTable (fun _ => false) (lateInterrupt ++ [.handler])
  have hharmless := Runs.along_iff.1 halong lateInterrupt .handler s s' (List.prefix_refl _) hrun
    hstep rfl
  rw [hharmless.1 s' hstep] at hexited
  cases hexited

end Tsh
