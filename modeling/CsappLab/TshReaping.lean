/-
**Race-free job tracking.**

The statements of the handlers, the start of a handler, and what happens to the children keep the
invariant too, so that it holds all along a run.

Main definitions:

* `Tsh.RaceFree` — the jobs are the children, and no change of a child goes unnoticed;
* `Tsh.NeverFull` — `addjob` never meets a full list.

Main results:

* `Tsh.Tracked.step` — whatever happens next, the invariant is kept;
* `Tsh.raceFree_run` — **race-free job tracking** in every run that never finds the list full.
-/

import CsappLab.Runs
import CsappLab.TshTracking

set_option relaxedAutoImplicit false
set_option autoImplicit false

namespace Tsh

variable {fits : Prop}

/-! ### Steps of the handlers -/

/-- A handler starts; a `SIGCHLD` that is no longer pending is taken by one that will poll. -/
theorem Tracked.deliver {s s' : Shell} (h : Tracked fits s) {sig : Signal}
    (hstep : s.deliver sig = some s') : Tracked fits s' := by
  obtain ⟨hsig, main, mask, hcritical, hforked, hmask, rfl⟩ := deliver_spec hstep
  refine h.congr h.table rfl rfl hforked ?_ ?_ ?_
  · cases sig <;> rfl
  · exact (h.guarded.congr hcritical).push hsig hmask
  · intro hrep
    rcases h.noticed hrep with hpending | ⟨f, hf, hpolls⟩
    · cases sig with
      | chld => exact .inr ⟨_, List.mem_cons_self, rfl⟩
      | int => exact .inl (by simpa [SigSet.remove] using hpending)
      | tstp => exact .inl (by simpa [SigSet.remove] using hpending)
    · exact .inr ⟨f, List.mem_cons_of_mem _ hf, hpolls⟩

/-- Inside `sigchld_handler` nobody is waiting to be added, and nobody else to be deleted. -/
theorem Tracked.inside {s : Shell} (h : Tracked fits s) {mask : SigSet} {pc : ChldPc}
    {rest : List Frame} (hhandlers : s.handlers = ⟨mask, .chld pc⟩ :: rest) :
    s.main.forked = none ∧ ∀ code, due (⟨mask, code⟩ :: rest) = code.due := by
  have hguarded := h.guarded
  rw [hhandlers] at hguarded
  have hheld : ¬ Held s.main rest := hguarded.2.2.1 rfl
  refine ⟨?_, fun code => due_cons_of_not_held hheld⟩
  cases hmain : s.main with
  | evalBlockAll bg line prev pid => exact absurd (.inl (by rw [hmain]; rfl)) hheld
  | evalAddjob bg line prev pid => exact absurd (.inl (by rw [hmain]; rfl)) hheld
  | _ => rfl

/-- Inside `sigchld_handler`, before `waitpid`, the jobs are the children. -/
theorem Tracked.pids_at_wait {s : Shell} (h : Tracked fits s) {mask : SigSet} {rest : List Frame}
    (hhandlers : s.handlers = ⟨mask, .chld .wait⟩ :: rest) (p : ℤ) :
    (p ∈ s.table.pids → p ∈ s.childPids) ∧ (fits → p ∈ s.childPids → p ∈ s.table.pids) := by
  obtain ⟨hforked, hdue⟩ := h.inside hhandlers
  have hdue₀ : due s.handlers = none := by rw [hhandlers, hdue]; rfl
  have hlisted := h.listed p
  have hrecorded := fun hfits => h.recorded hfits p
  rw [hforked, hdue₀] at hlisted hrecorded
  exact ⟨by simpa using hlisted, by simpa using hrecorded⟩

/-- A zombie is reaped: it is due, and no child any more. -/
theorem Tracked.reaped {s : Shell} (h : Tracked fits s) {mask : SigSet} {rest : List Frame}
    (hhandlers : s.handlers = ⟨mask, .chld .wait⟩ :: rest) {pid : ℤ} (hpid : pid ∈ s.childPids)
    {st : Status} (hst : st.zombie = true) :
    Tracked fits { s with
      children := s.children.filter fun d => d.pid ≠ pid
      handlers := ⟨mask, .chld (.block pid st)⟩ :: rest } := by
  obtain ⟨hforked, hdue⟩ := h.inside hhandlers
  have hpids := h.pids_at_wait hhandlers
  have hdue' : due (⟨mask, .chld (.block pid st)⟩ :: rest) = some pid := by
    rw [hdue]
    simp [Code.due, hst]
  have hmem : ∀ p, p ∈ (s.children.filter fun d => d.pid ≠ pid).map Child.pid ↔
      p ∈ s.childPids ∧ p ≠ pid := by
    intro p
    simp only [Shell.childPids, List.mem_map, List.mem_filter, decide_eq_true_eq]
    constructor
    · rintro ⟨c, ⟨hc, hne⟩, rfl⟩
      exact ⟨⟨c, hc, rfl⟩, hne⟩
    · rintro ⟨⟨c, hc, rfl⟩, hne⟩
      exact ⟨c, ⟨hc, hne⟩, rfl⟩
  have hguarded := h.guarded
  rw [hhandlers] at hguarded
  constructor
  · exact h.table
  · exact h.nodup.sublist (List.Sublist.map _ List.filter_sublist)
  · intro p hp
    exact h.pos p ((hmem p).1 hp).1
  · exact hguarded.move rfl fun hm _ => ⟨hm, fun prev hprev => by cases hprev⟩
  · rintro p (hp | hp)
    · by_cases hpp : p = pid
      · exact .inr (by rw [hdue', hpp])
      · exact .inl ((hmem p).2 ⟨(hpids p).1 hp, hpp⟩)
    · rw [show Main.forked _ = s.main.forked from rfl, hforked] at hp
      cases hp
  · rintro hfits p (hp | hp)
    · exact .inl ((hpids p).2 hfits ((hmem p).1 hp).1)
    · rw [hdue'] at hp
      cases hp
      exact .inl ((hpids pid).2 hfits hpid)
  · exact h.new
  · intro p hp hp'
    rw [hdue', Option.some.injEq] at hp
    exact ((hmem p).1 hp').2 hp.symm
  · exact fun _ => .inr ⟨_, List.mem_cons_self, rfl⟩

/-- `waitpid` returns. -/
theorem Tracked.waitpid {s s' : Shell} (h : Tracked fits s) {pid? : Option ℤ}
    (hstep : s.waitpid pid? = some s') : Tracked fits s' := by
  cases pid? with
  | none =>
      obtain ⟨mask, rest, hhandlers, hnone, rfl⟩ := waitpid_none hstep
      obtain ⟨-, hdue⟩ := h.inside hhandlers
      have hguarded := h.guarded
      rw [hhandlers] at hguarded
      refine h.congr h.table rfl rfl rfl ?_ ?_ fun hrep => absurd hrep hnone
      · rw [hhandlers, hdue, hdue]
        rfl
      · exact hguarded.move rfl fun hm _ => ⟨hm, fun prev hprev => by cases hprev⟩
  | some pid =>
      obtain ⟨mask, rest, hhandlers, c, hc, rfl, hrep, rfl⟩ := waitpid_some hstep
      obtain ⟨-, hdue⟩ := h.inside hhandlers
      have hmem : c.pid ∈ s.childPids := List.mem_map_of_mem hc
      have hguarded := h.guarded
      rw [hhandlers] at hguarded
      cases hst : c.status with
      | running =>
          rw [hst] at hrep
          cases hrep
      | stopped sig reported =>
          refine h.congr h.table rfl ?_ rfl ?_ ?_ fun _ => .inr ⟨_, List.mem_cons_self, rfl⟩
          · simp only [Shell.childPids, List.map_map]
            refine List.map_congr_left fun d _ => ?_
            simp only [Function.comp_apply]
            split <;> rfl
          · rw [hhandlers, hdue, hdue]
            rfl
          · exact hguarded.move rfl fun hm _ => ⟨hm, fun prev hprev => by cases hprev⟩
      | exited code => exact h.reaped hhandlers hmem rfl
      | signaled sig => exact h.reaped hhandlers hmem rfl

/-- The update of the job list takes the child out of it that was reaped, if there is one. -/
theorem reap_spec {s : Shell} (hok : PidsOk s.table) (pid : ℤ) (st : Status) :
    ∃ t out, s.reap pid st = { s with table := t, out := out } ∧ PidsOk t ∧
      ∀ p, p ∈ t.pids ↔ p ∈ s.table.pids ∧ ¬ (st.zombie = true ∧ p = pid) := by
  obtain ⟨t, out, hreap, hcase⟩ := reap_eq s pid st
  refine ⟨t, out, hreap, ?_⟩
  rcases hcase with ⟨rfl, rfl⟩ | ⟨hst, rfl⟩ | ⟨sig, reported, rfl, ⟨-, rfl⟩ | ⟨i, -, rfl⟩⟩
  · exact ⟨hok, by simp [Status.zombie]⟩
  · obtain ⟨hok', hpids⟩ := hok.deletejob pid
    exact ⟨hok', by simpa [hst] using hpids⟩
  · exact ⟨hok, by simp [Status.zombie]⟩
  · refine ⟨hok.setSlot rfl, fun p => ?_⟩
    have hpids : (s.table.setSlot i { s.table.slots i with state := .st }).pids =
        s.table.pids := pids_setSlot rfl
    rw [hpids]
    simp [Status.zombie]

/-- `sigchld_handler`, the update of the job list. -/
theorem Tracked.update {s : Shell} (h : Tracked fits s) {mask prev : SigSet} {rest : List Frame}
    {pid : ℤ} {st : Status} (hhandlers : s.handlers = ⟨mask, .chld (.update pid st prev)⟩ :: rest) :
    Tracked fits { s.reap pid st with handlers := ⟨mask, .chld (.restore prev)⟩ :: rest } := by
  obtain ⟨hforked, hdue⟩ := h.inside hhandlers
  have hdue₀ : due s.handlers = if st.zombie then some pid else none := by
    rw [hhandlers, hdue]
    rfl
  have hdue₁ : due (⟨mask, .chld (.restore prev)⟩ :: rest) = none := hdue _
  have hguarded := h.guarded
  rw [hhandlers] at hguarded
  obtain ⟨t, out, hreap, hok, hpids⟩ := reap_spec h.table pid st
  rw [hreap]
  constructor
  · exact hok
  · exact h.nodup
  · exact h.pos
  · exact hguarded.move rfl fun hm hsaved => ⟨hm, hsaved⟩
  -- what is left in the list is not the child that was reaped, so that it has not been
  · rintro p (hp | hp)
    · obtain ⟨hp, hne⟩ := (hpids p).1 hp
      rcases h.listed p (.inl hp) with hchild | hp
      · exact .inl hchild
      · rw [hdue₀] at hp
        split at hp
        · rename_i hst
          exact absurd ⟨hst, (Option.some.inj hp).symm⟩ hne
        · cases hp
    · rw [show Main.forked _ = s.main.forked from rfl, hforked] at hp
      cases hp
  -- a child that has not been reaped stays in the list
  · rintro hfits p (hp | hp)
    · rcases h.recorded hfits p (.inl hp) with hlisted | hlisted
      · refine .inl ((hpids p).2 ⟨hlisted, fun hgone => ?_⟩)
        refine h.gone p ?_ hp
        rw [hdue₀, if_pos hgone.1, hgone.2]
      · rw [hforked] at hlisted
        cases hlisted
    · rw [hdue₁] at hp
      cases hp
  · intro p hp
    rw [show Main.forked _ = s.main.forked from rfl, hforked] at hp
    cases hp
  · intro p hp
    rw [hdue₁] at hp
    cases hp
  · exact fun _ => .inr ⟨_, List.mem_cons_self, rfl⟩

/-- A handler returns, or moves on without touching the job list. -/
theorem Tracked.frame {s : Shell} (h : Tracked fits s) {f : Frame} {rest fs : List Frame}
    {m : SigSet} (hhandlers : s.handlers = f :: rest) (hguarded : Guarded s.main fs m)
    (hdue : due fs = due (f :: rest))
    (hpolls : ∀ g ∈ f :: rest, g.code.polls = true → ∃ g ∈ fs, g.code.polls = true) :
    Tracked fits { s with mask := m, handlers := fs } := by
  refine h.congr h.table rfl rfl rfl ?_ hguarded fun hrep => ?_
  · rw [hhandlers]
    exact hdue
  · rcases h.noticed hrep with hpending | ⟨g, hg, hpoll⟩
    · exact .inl hpending
    · rw [hhandlers] at hg
      exact .inr (hpolls g hg hpoll)

/-- A statement of `sigchld_handler`. -/
theorem Tracked.stepChld {s s' : Shell} (h : Tracked fits s) {mask : SigSet} {pc : ChldPc}
    {rest : List Frame} (hhandlers : s.handlers = ⟨mask, .chld pc⟩ :: rest)
    (hstep : s.stepHandler = some s') : Tracked fits s' := by
  obtain ⟨-, hdue⟩ := h.inside hhandlers
  have hguarded := h.guarded
  rw [hhandlers] at hguarded
  simp only [Shell.stepHandler, hhandlers] at hstep
  cases pc with
  | wait => cases hstep
  | block pid st =>
      cases hstep
      refine h.frame hhandlers ?_ ?_ fun _ _ _ => ⟨_, List.mem_cons_self, rfl⟩
      · refine hguarded.move rfl fun hm _ => ⟨rfl, fun prev hprev => ?_⟩
        cases hprev
        exact hm
      · rw [hdue, hdue]
        rfl
  | update pid st prev =>
      cases hstep
      exact h.update hhandlers
  | restore prev =>
      cases hstep
      refine h.frame hhandlers ?_ ?_ fun _ _ _ => ⟨_, List.mem_cons_self, rfl⟩
      · exact hguarded.move rfl fun _ hsaved => ⟨hsaved prev rfl, fun prev hprev => by cases hprev⟩
      · rw [hdue, hdue]
        rfl
  | done =>
      cases hstep
      refine h.frame hhandlers hguarded.2.2.2 rfl fun g hg hpoll => ?_
      rcases List.mem_cons.1 hg with rfl | hg
      · cases hpoll
      · exact ⟨g, hg, hpoll⟩

/-- A statement of `sigint_handler` or `sigtstp_handler`. -/
theorem Tracked.stepCtrl {s s' : Shell} (h : Tracked fits s) {mask : SigSet} {key : Ctrl}
    {pc : CtrlPc} {rest : List Frame} (hhandlers : s.handlers = ⟨mask, .ctrl key pc⟩ :: rest)
    (hstep : s.stepHandler = some s') : Tracked fits s' := by
  have hguarded := h.guarded
  rw [hhandlers] at hguarded
  have hpolls : ∀ pc', ∀ g ∈ (⟨mask, .ctrl key pc⟩ : Frame) :: rest, g.code.polls = true →
      ∃ g ∈ (⟨mask, .ctrl key pc'⟩ : Frame) :: rest, g.code.polls = true := by
    intro pc' g hg hpoll
    rcases List.mem_cons.1 hg with rfl | hg
    · cases hpoll
    · exact ⟨g, List.mem_cons_of_mem _ hg, hpoll⟩
  simp only [Shell.stepHandler, hhandlers] at hstep
  cases pc with
  | block =>
      cases hstep
      refine h.frame hhandlers ?_ rfl (hpolls _)
      refine hguarded.move rfl fun hm _ => ⟨rfl, fun prev hprev => ?_⟩
      cases hprev
      exact hm
  | look prev =>
      -- whether there is a job makes no difference to what is tracked
      generalize key.found (fgpid s.table) = found at hstep
      cases hstep
      refine h.frame (m := s.mask) hhandlers ?_ rfl (hpolls _)
      refine hguarded.move rfl fun hm hsaved => ⟨hm, fun prev' hprev => ?_⟩
      cases found with
      | false => cases hprev
      | true =>
          cases hprev
          exact hsaved prev rfl
  | restore prev pid =>
      cases hstep
      refine h.frame hhandlers ?_ rfl (hpolls _)
      exact hguarded.move rfl fun _ hsaved => ⟨hsaved prev rfl, fun prev hprev => by cases hprev⟩
  | kill pid =>
      have hkill : ∀ effect s₁, s.kill pid effect = some s₁ →
          Tracked fits { s₁ with handlers := ⟨mask, .ctrl key .done⟩ :: rest } := by
        intro effect s₁ hs₁
        obtain ⟨-, hmask, hmain, hhandlers₁, -, -⟩ := kill_spec hs₁
        refine (h.kill hs₁).frame (m := s₁.mask) (hhandlers₁.trans hhandlers) ?_ rfl (hpolls _)
        rw [hmain, hmask]
        exact hguarded.move rfl fun hm _ => ⟨hm, fun prev hprev => by cases hprev⟩
      have hexit : ∀ msg, Tracked fits { s.print msg with exited := true } := fun msg =>
        h.congr h.table rfl rfl rfl rfl h.guarded h.noticed
      obtain ⟨effect, msg, -, hforward⟩ := forward_eq s pid key
      cases hs₁ : s.kill pid effect with
      | none =>
          simp only [hforward, hs₁, Option.some.injEq] at hstep
          exact hstep ▸ hexit _
      | some s₁ =>
          simp only [hforward, hs₁, Option.some.injEq] at hstep
          exact hstep ▸ hkill _ _ hs₁
  | done =>
      cases hstep
      refine h.frame hhandlers hguarded.2.2.2 rfl fun g hg hpoll => ?_
      rcases List.mem_cons.1 hg with rfl | hg
      · cases hpoll
      · exact ⟨g, hg, hpoll⟩

/-- Something happens to a child. -/
theorem Tracked.childEvent {s s' : Shell} (h : Tracked fits s) {pid : ℤ} {event : ChildEvent}
    (hstep : s.childEvent pid event = some s') : Tracked fits s' := by
  obtain ⟨c, st, hnext, rfl⟩ := childEvent_some hstep
  refine h.congr h.table rfl ?_ rfl rfl h.guarded ?_
  · simp only [Shell.childPids, List.map_map]
    refine List.map_congr_left fun d _ => ?_
    simp only [Function.comp_apply]
    split <;> rfl
  · rintro ⟨d, hd, hrep⟩
    by_cases hevent : event = .setpgid
    · obtain ⟨d', hd', rfl⟩ := List.mem_map.1 hd
      -- only a running child does `setpgid`, and it goes on running
      have hst : st = .running := by
        subst hevent
        cases hc : c.status <;> simp [hc, Status.next] at hnext
        exact hnext.symm
      have hrep' : d'.status.reportable = true := by
        split at hrep
        · rw [hst] at hrep
          cases hrep
        · exact hrep
      rcases h.noticed ⟨d', hd', hrep'⟩ with hpending | hpolls
      · exact .inl (by simp [hevent, hpending])
      · exact .inr hpolls
    · exact .inl (by simp [hevent, SigSet.add])

/-! ### Runs -/

/-- A job is only ever added to a list that has a free slot. -/
def Shell.Room (s : Shell) : Prop := s.main.adding = true → ∃ i, (s.table.slots i).pid = 0

/-- **Whatever happens next**, the invariant is kept. -/
theorem Tracked.step {s s' : Shell} (h : Tracked fits s) (hroom : fits → s.Room) {a : Action}
    (hstep : s.step a = some s') : Tracked fits s' := by
  unfold Shell.step at hstep
  split at hstep
  · cases hstep
  cases a with
  | read line =>
      obtain ⟨-, hstep⟩ := idle_some hstep
      exact h.quiet (quiet_read hstep)
  | fork pid =>
      obtain ⟨hhandlers, hstep⟩ := idle_some hstep
      exact h.fork hhandlers hstep
  | main =>
      obtain ⟨hhandlers, hstep⟩ := idle_some hstep
      exact h.stepMain hhandlers hroom hstep
  | deliver sig => exact h.deliver hstep
  | waitpid pid? => exact h.waitpid hstep
  | handler =>
      cases hhandlers : s.handlers with
      | nil => simp [Shell.stepHandler, hhandlers] at hstep
      | cons f rest =>
          obtain ⟨mask, code⟩ := f
          cases code with
          | chld pc => exact h.stepChld hhandlers hstep
          | ctrl key pc => exact h.stepCtrl hhandlers hstep
  | send sig =>
      cases hstep
      refine h.congr h.table rfl rfl rfl rfl h.guarded fun hrep => ?_
      rcases h.noticed hrep with hpending | hpolls
      -- one more pending signal; a pending `SIGCHLD` stays pending
      · by_cases hsig : sig = .chld
        · exact .inl (by simp [SigSet.add, hsig])
        · exact .inl (by simpa [SigSet.add, Function.update_apply, Ne.symm hsig] using hpending)
      · exact .inr hpolls
  | child pid event => exact h.childEvent hstep

/-- `addjob` never meets a full list. -/
def NeverFull (s : Shell) (actions : List Action) : Prop :=
  ∀ pre s', pre <+: actions → s.run pre = some s' → s'.Room

theorem tracked_run {s s' : Shell} (h : Tracked fits s) {actions : List Action}
    (hroom : fits → NeverFull s actions) (hrun : s.run actions = some s') : Tracked fits s' := by
  have halong : Runs.Along Shell.step (fun s _ => fits → s.Room) s actions := by
    refine Runs.along_iff.2 fun pre a s₁ s₂ hpre hrun _ hfits => ?_
    exact hroom hfits pre s₁ ((List.prefix_append pre [a]).trans hpre) hrun
  exact Runs.invariant (fun s a s' h hroom hstep => h.step hroom hstep) h halong hrun

/-- **Race-free tracking**: outside the handler, and outside the stretch from `fork` to `addjob`,
the jobs are the children that were not reaped; the handler reaps only what is in the list; and no
exit or stop of a child goes unnoticed. -/
structure RaceFree (s : Shell) : Prop where
  jobs : ¬ s.HandlerRunning → s.main.forked = none →
    s.table.pids = {p | ∃ c ∈ s.children, c.pid = p}
  reaps : ∀ pid s', s.step (.waitpid (some pid)) = some s' → pid ∈ s.table.pids
  noticed : (∃ c ∈ s.children, c.status.reportable = true) →
    s.pending .chld = true ∨ s.HandlerRunning

theorem Tracked.raceFree {s : Shell} (h : Tracked True s) : RaceFree s where
  jobs hhandler hforked := by
    have hdue : due s.handlers = none := due_eq_none fun f hf => by
      by_contra hne
      exact hhandler ⟨f, hf, by simpa using hne⟩
    ext p
    have hlisted := h.listed p
    have hrecorded := h.recorded trivial p
    rw [hforked, hdue] at hlisted hrecorded
    constructor
    · simpa [Shell.childPids] using hlisted
    · simpa [Shell.childPids] using hrecorded
  reaps pid s' hstep := by
    obtain ⟨mask, rest, hhandlers, c, hc, rfl, -, -⟩ := waitpid_some (step_waitpid hstep)
    exact (h.pids_at_wait hhandlers c.pid).2 trivial (List.mem_map_of_mem hc)
  noticed hrep := by
    rcases h.noticed hrep with hpending | ⟨f, hf, hpolls⟩
    · exact .inl hpending
    · refine .inr ⟨f, hf, ?_⟩
      rcases hcode : f.code with pc | ⟨key, pc⟩
      · rfl
      · rw [hcode] at hpolls
        cases hpolls

/-- **Race-free job tracking**, in every state that a run passes through. -/
theorem raceFree_run (t : JobTable) (mask : SigSet) (actions : List Action)
    (hroom : NeverFull (Shell.start t mask) actions) (s : Shell)
    (hrun : (Shell.start t mask).run actions = some s) : RaceFree s :=
  (tracked_run (tracked_start t mask) (fun _ => hroom) hrun).raceFree

instance (s : Shell) : Decidable s.Room :=
  inferInstanceAs (Decidable (_ → ∃ i : Fin maxJobs, (s.table.slots i).pid = 0))

/-- The child of the line `ls &` dies before it is recorded. -/
def earlyDeath : List Action :=
  [.read ['l', 's', ' ', '&', '\n'], .main, .fork 100, .child 100 (.exit 0), .main, .main, .main,
    .deliver .chld, .waitpid (some 100), .handler, .handler, .handler, .waitpid none, .handler,
    .main]

theorem raceFree_run_earlyDeath :
    ∃ s, (Shell.start startTable fun _ => false).run earlyDeath = some s ∧ RaceFree s := by
  have hruns : ((Shell.start startTable fun _ => false).run earlyDeath).isSome = true := by
    decide +kernel
  have hroom : ∀ pre ∈ earlyDeath.inits,
      ((Shell.start startTable fun _ => false).run pre).all (fun s => s.Room) = true := by
    decide +kernel
  obtain ⟨s, hs⟩ := Option.isSome_iff_exists.1 hruns
  refine ⟨s, hs, raceFree_run startTable (fun _ => false) earlyDeath (fun pre s' hpre hrun => ?_)
    s hs⟩
  have := hroom pre ((List.mem_inits pre earlyDeath).2 hpre)
  rw [hrun] at this
  simpa using this

end Tsh
