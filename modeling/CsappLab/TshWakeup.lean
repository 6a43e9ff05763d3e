/-
**No wake-up is lost in `waitfg`.**

`waitfg` tests for a foreground job and suspends the shell in one atomic step, so that a signal
cannot fall between the two.  What it relies on is that the job in the foreground still has
something to say: if its child was reaped, or has stopped and been reported, no signal will come for
it.  The handler sees to that, because it takes such a job out of the foreground before it returns.
But `do_bgfg` puts the job in the foreground after the `SIGCONT`, and if the child has ended or
stopped again by then, the handler has been and gone.

Main definitions:

* `Tsh.Shell.Settled` — nothing more will be heard of a child as it is;
* `Tsh.WakesUp` — `waitfg` returns only with no job in the foreground, and is never stuck;
* `Tsh.Shell.Unsettled` — `do_bgfg` puts no settled job in the foreground;
* `Tsh.Shell.Noted` — the handler is about to update the job of a child;
* `Tsh.Heard` — the invariant.

Main results:

* `Tsh.wakesUp_run` — **no wake-up is lost** if `do_bgfg` puts no settled job in the foreground;
* `Tsh.sleeps_forever` — a run on which one is.
-/

import CsappLab.TshEffects
import CsappLab.TshSlots

set_option relaxedAutoImplicit false
set_option autoImplicit false

namespace Tsh

/-! ### Waking up -/

/-- The child `pid` has been reaped, or it is stopped and its stop has been reported. -/
def Shell.Settled (s : Shell) (pid : ℤ) : Prop :=
  ∀ c ∈ s.children, c.pid = pid → c.status.isReported = true

/-- **No wake-up is lost**: `waitfg` returns only when no job is in the foreground, the shell is
never suspended for a job that is settled, and while it is suspended, under a mask that lets
`SIGCHLD` through, any change of a child is pending and not blocked. -/
structure WakesUp (s : Shell) : Prop where
  returns : ∀ prev, s.main = .waitRestore prev → ∀ i, (s.table.slots i).state ≠ .fg
  waits : ∀ prev i, s.main = .suspended prev → (s.table.slots i).state = .fg →
    ¬ s.Settled (s.table.slots i).pid
  wakes : ∀ prev, s.main = .suspended prev → prev .chld = false →
    (∃ c ∈ s.children, c.status.reportable = true) →
    s.pending .chld = true ∧ s.mask .chld = false

/-- `do_bgfg` puts a job in the foreground only if its child is not settled. -/
def Shell.Unsettled (s : Shell) (a : Action) : Prop :=
  match a, s.main with
  | .main, .bgfgState i .fg => ¬ s.Settled (s.table.slots i).pid
  | _, _ => True

/-! ### What is on its way to the job list -/

/-- The handler is about to update the job of a child. -/
def Shell.Noted (s : Shell) (pid : ℤ) : Prop := ∃ f ∈ s.handlers, f.code.notes = some pid

theorem not_noted_idle {s : Shell} (h : s.handlers = []) (pid : ℤ) : ¬ s.Noted pid := by
  rintro ⟨f, hf, -⟩
  rw [h] at hf
  cases hf

/-- A child becomes settled when `waitpid` reports it. -/
theorem settled_step {s s' : Shell} {a : Action} (hstep : s.step a = some s') {pid : ℤ}
    (h : s'.Settled pid) : s.Settled pid ∨ a = .waitpid (some pid) := by
  by_cases ha : a = .waitpid (some pid)
  · exact .inr ha
  refine .inl fun c hc hpid => ?_
  cases Shell.step_affects hstep with
  | goOn a f goesOn children =>
      have hc' : f c ∈ s'.children := by
        rw [children]
        exact List.mem_map_of_mem hc
      -- the child is the same one, and only `waitpid` marks its stop as reported
      have hrep := h (f c) hc' ((goesOn c).pid.trans hpid)
      rcases (goesOn c).reported hrep with hrep | hwait
      · exact hrep
      · rw [hpid] at hwait
        exact absurd hwait ha
  | fork new children =>
      refine h c ?_ hpid
      rw [children]
      exact List.mem_cons_of_mem _ hc
  | reap children =>
      rename_i q
      refine h c ?_ hpid
      rw [children, List.mem_filter]
      refine ⟨hc, ?_⟩
      have hne : c.pid ≠ q := by
        rintro rfl
        exact ha (by rw [hpid])
      simpa using hne

/-- `waitpid` reports a child to the handler that called it. -/
theorem noted_waitpid {s s' : Shell} {pid : ℤ} (hstep : s.step (.waitpid (some pid)) = some s') :
    s'.Noted pid := by
  obtain ⟨mask, rest, -, c, -, -, hrep, rfl⟩ := waitpid_some (step_waitpid hstep)
  refine ⟨_, List.mem_cons_self, if_neg fun hrunning => ?_⟩
  rw [hrunning] at hrep
  cases hrep

/-- What has been noted stays so until the job list is updated. -/
theorem Shell.Noted.step {s s' : Shell} {pid : ℤ} (h : s.Noted pid) {a : Action}
    (hstep : s.step a = some s') :
    s'.Noted pid ∨ a = .handler ∧ ∃ mask st prev rest, st ≠ .running ∧
      s.handlers = ⟨mask, .chld (.update pid st prev)⟩ :: rest := by
  cases Shell.step_stacks hstep with
  | idle handlers handlers' executes => exact absurd h (not_noted_idle handlers pid)
  | same a handlers mask main => exact .inl (by rwa [Shell.Noted, handlers])
  | push sig main main' handlers =>
      obtain ⟨f, hf, hnotes⟩ := h
      exact .inl ⟨f, by rw [handlers]; exact List.mem_cons_of_mem _ hf, hnotes⟩
  | wake sig main main' handlers =>
      obtain ⟨f, hf, hnotes⟩ := h
      exact .inl ⟨f, by rw [handlers]; exact List.mem_cons_of_mem _ hf, hnotes⟩
  | move next handlers handlers' =>
      rename_i mask code code' rest
      obtain ⟨f, hf, hnotes⟩ := h
      rw [handlers] at hf
      rcases List.mem_cons.1 hf with rfl | hf
      · have hmove : ∀ g : Frame, g = ⟨mask, code'⟩ → g ∈ s'.handlers := by
          rintro g rfl
          rw [handlers']
          exact List.mem_cons_self
        cases next with
        | block q st => exact .inl ⟨_, hmove _ rfl, hnotes⟩
        | update q st prev =>
            have hq : st ≠ .running ∧ q = pid := by simpa [Code.notes] using hnotes
            obtain ⟨hst, rfl⟩ := hq
            exact .inr ⟨rfl, mask, st, prev, rest, hst, handlers⟩
        | _ => cases hnotes
      · exact .inl ⟨f, by rw [handlers']; exact List.mem_cons_of_mem _ hf, hnotes⟩
  | pop returns handlers handlers' mask =>
      obtain ⟨f, hf, hnotes⟩ := h
      rw [handlers] at hf
      rcases List.mem_cons.1 hf with rfl | hf
      · rw [notes_of_returns returns] at hnotes
        cases hnotes
      · exact .inl ⟨f, by rw [handlers']; exact hf, hnotes⟩

/-- The update takes the job of the child out of the foreground. -/
theorem fg_update {s s' : Shell} (hok : PidsOk s.table) {mask prev : SigSet} {pid : ℤ} {st : Status}
    {rest : List Frame} (hhandlers : s.handlers = ⟨mask, .chld (.update pid st prev)⟩ :: rest)
    (hst : st ≠ .running) (hstep : s.step .handler = some s') {i : Fin maxJobs}
    (hi : (s.table.slots i).pid = pid) (hpid : pid ≠ 0) : (s'.table.slots i).state ≠ .fg := by
  have hstep := step_handler hstep
  obtain ⟨t, out, hreap, hcase⟩ := reap_eq s pid st
  simp only [Shell.stepHandler, hhandlers, hreap, Option.some.injEq] at hstep
  have htable : s'.table = t := by rw [← hstep]
  have hpos : 1 ≤ pid := by
    have := hok.nonneg i
    omega
  -- the slot is the one the handler finds
  have hfound : ∃ j, getjobpid s.table pid = some j := by
    cases hget : getjobpid s.table pid with
    | none => exact absurd hi ((getjobpid_none hpos).1 hget i)
    | some j => exact ⟨j, rfl⟩
  obtain ⟨j, hget⟩ := hfound
  have hji : i = j := hok.inj i j (by rw [hi]; exact hpid) (by rw [hi, (getjobpid_some hget).2])
  subst hji
  rw [htable]
  -- a zombie is deleted from the list, a stop sets the state
  rcases hcase with ⟨-, hrunning⟩ | ⟨-, rfl⟩ | ⟨sig, reported, -, ⟨hnone, -⟩ | ⟨k, hk, rfl⟩⟩
  · exact absurd hrunning hst
  · rcases deletejob_cases s.table pid with ⟨k, hk, hdel⟩ | ⟨hnone, -⟩
    · rw [hget] at hk
      cases hk
      rw [hdel]
      simp [clearjob]
    · rw [hget] at hnone
      cases hnone
  · rw [hget] at hnone
    cases hnone
  · rw [hget] at hk
    cases hk
    simp

/-! ### The invariant -/

/-- **The invariant**: when a job in the foreground is settled, the handler is about to take it out
of there; none is left when `waitfg` has left its loop. -/
structure Heard (s : Shell) : Prop where
  tracked : Tracked False s
  proper : s.main.Proper
  busy : ∀ i, (s.table.slots i).state = .fg → (s.table.slots i).pid ≠ 0
  noted : ∀ i, (s.table.slots i).state = .fg → s.Settled (s.table.slots i).pid →
    s.Noted (s.table.slots i).pid
  returned : ∀ prev, s.main = .waitRestore prev → ∀ i, (s.table.slots i).state ≠ .fg
  suspended : ∀ prev, s.main = .suspended prev → s.handlers = [] ∧ s.mask = prev

theorem heard_start (t : JobTable) (mask : SigSet) : Heard (Shell.start t mask) where
  tracked := tracked_start t mask
  proper := trivial
  busy i hi := by cases hi
  noted i hi := by cases hi
  returned prev h := by cases h
  suspended prev h := by cases h

theorem Heard.wakesUp {s : Shell} (h : Heard s) : WakesUp s where
  returns := h.returned
  waits prev i hmain hi hsettled :=
    not_noted_idle (h.suspended prev hmain).1 _ (h.noted i hi hsettled)
  wakes prev hmain hprev hrep := by
    obtain ⟨hidle, hmask⟩ := h.suspended prev hmain
    refine ⟨?_, by rw [hmask, hprev]⟩
    -- while no handler runs, a change of a child can only be pending
    rcases h.tracked.noticed hrep with hpending | ⟨f, hf, -⟩
    · exact hpending
    · rw [hidle] at hf
      cases hf

/-- A child that is not settled is there. -/
theorem Heard.pid_pos {s : Shell} (h : Heard s) {pid : ℤ} (hsettled : ¬ s.Settled pid) :
    1 ≤ pid := by
  unfold Shell.Settled at hsettled
  push Not at hsettled
  obtain ⟨c, hc, rfl, -⟩ := hsettled
  exact h.tracked.pos c.pid (List.mem_map_of_mem hc)

/-- When no handler runs, `fgpid` finds the job in the foreground. -/
theorem Heard.fgpid_pos {s : Shell} (h : Heard s) (hidle : s.handlers = []) {i : Fin maxJobs}
    (hi : (s.table.slots i).state = .fg) : 0 < fgpid s.table := by
  cases hscan : s.table.scan fun job => job.state = .fg with
  | none =>
      have := scan_none.1 hscan i
      simp [hi] at this
  | some j =>
      have hj : (s.table.slots j).state = .fg := by simpa using scan_some hscan
      have hpos := h.pid_pos fun hsettled => not_noted_idle hidle _ (h.noted j hj hsettled)
      rw [fgpid, hscan]
      show 0 < (s.table.slots j).pid
      omega

/-- The job list, after one step. -/
theorem Heard.slots_step {s s' : Shell} (h : Heard s) {a : Action} (hunsettled : s.Unsettled a)
    (hstep : s.step a = some s') {i : Fin maxJobs} (hi : (s'.table.slots i).state = .fg) :
    (s'.table.slots i).pid ≠ 0 ∧
      (s'.Settled (s'.table.slots i).pid → s'.Noted (s'.table.slots i).pid) := by
  rcases fg_step h.proper hstep hi with hslot | ⟨rfl, hmain, hslot⟩
  -- the slot was in the foreground before
  · have hbefore : (s.table.slots i).state = .fg := by rwa [hslot] at hi
    have hbusy := h.busy i hbefore
    rw [hslot]
    refine ⟨hbusy, fun hsettled => ?_⟩
    rcases settled_step hstep hsettled with hsettled | rfl
    · rcases (h.noted i hbefore hsettled).step hstep with hnoted |
        ⟨rfl, mask, st, prev, rest, hst, hhandlers⟩
      · exact hnoted
      · exact absurd hi (fg_update h.tracked.table hhandlers hst hstep rfl hbusy)
    · exact noted_waitpid hstep
  -- `do_bgfg` has just put it there, and the condition applies
  · have hnot : ¬ s.Settled (s.table.slots i).pid := by
      unfold Shell.Unsettled at hunsettled
      rwa [hmain] at hunsettled
    have hpos := h.pid_pos hnot
    rw [hslot]
    refine ⟨by show (s.table.slots i).pid ≠ 0; omega, fun hsettled => ?_⟩
    rcases settled_step hstep hsettled with hsettled | ha
    · exact absurd hsettled hnot
    · cases ha

/-- `waitfg` leaves its loop when no job is in the foreground. -/
theorem Heard.returned_step {s s' : Shell} (h : Heard s) {a : Action} (hstep : s.step a = some s')
    {prev : SigSet} (hmain' : s'.main = .waitRestore prev) (i : Fin maxJobs) :
    (s'.table.slots i).state ≠ .fg := by
  intro hi
  have hbefore : (∀ j state, s.main ≠ .bgfgState j state) → (s.table.slots i).state = .fg := by
    intro hne
    rcases fg_step h.proper hstep hi with hslot | ⟨-, hmain, -⟩
    · rwa [hslot] at hi
    · exact absurd hmain (hne i .fg)
  obtain ⟨main, main', hmain, hmain'', hnext⟩ := Shell.step_next hstep
  rw [hmain''] at hmain'
  cases hnext with
  | stay a main =>
      rw [hmain'] at hmain
      exact h.returned prev hmain i (hbefore (by simp [hmain]))
  | leave prev hnotFound =>
      refine hnotFound (h.fgpid_pos ?_ (hbefore (by simp [hmain])))
      exact (step_main hstep).1
  | _ => cases hmain'

/-- The shell is suspended while no handler runs, under the mask from before `waitfg`. -/
theorem Heard.suspended_step {s s' : Shell} (h : Heard s) {a : Action}
    (hstep : s.step a = some s') {prev : SigSet} (hmain' : s'.main = .suspended prev) :
    s'.handlers = [] ∧ s'.mask = prev := by
  obtain ⟨main, main', hmain, hmain'', hnext⟩ := Shell.step_next hstep
  rw [hmain''] at hmain'
  cases hnext with
  | stay a main =>
      rw [hmain'] at hmain
      obtain ⟨hidle, hmask⟩ := h.suspended prev hmain
      cases Shell.step_stacks hstep with
      | same a handlers mask main => exact ⟨handlers.trans hidle, mask.trans hmask⟩
      | idle handlers handlers' executes =>
          -- the main thread itself does not go on
          cases executes with
          | read h =>
              rw [(read_some h).1] at hmain
              cases hmain
          | fork h =>
              obtain ⟨bg, line, prev, hfork, -⟩ := fork_some h
              rw [hfork] at hmain
              cases hmain
          | main h => simp [Shell.stepMain, hmain] at h
      | push sig main main' handlers => exact absurd hmain (main prev)
      | wake sig main main' handlers =>
          rw [main', hmain'] at hmain''
          cases hmain''
      | move next handlers handlers' =>
          rw [hidle] at handlers
          cases handlers
      | pop returns handlers handlers' mask =>
          rw [hidle] at handlers
          cases handlers
  | suspend prev hfound =>
      cases hmain'
      obtain ⟨hidle, hrun⟩ := step_main hstep
      simp only [Shell.stepMain, hmain, if_pos hfound, Option.some.injEq] at hrun
      rw [← hrun]
      exact ⟨hidle, rfl⟩
  | _ => cases hmain'

/-- **One step** keeps the invariant if it puts no settled job in the foreground. -/
theorem Heard.step {s s' : Shell} (h : Heard s) {a : Action} (hunsettled : s.Unsettled a)
    (hstep : s.step a = some s') : Heard s' where
  tracked := h.tracked.step (fun hfits => hfits.elim) hstep
  proper := proper_step h.proper hstep
  busy _ hi := (h.slots_step hunsettled hstep hi).1
  noted _ hi := (h.slots_step hunsettled hstep hi).2
  returned _ hmain := h.returned_step hstep hmain
  suspended _ hmain := h.suspended_step hstep hmain

/-! ### Whole runs -/

/-- **No wake-up is lost**, in every state that a run passes through, if `do_bgfg` puts no settled
job in the foreground: whatever the signals are and whenever they arrive. -/
theorem wakesUp_run (t : JobTable) (mask : SigSet) (actions : List Action)
    (h : Runs.Along Shell.step Shell.Unsettled (Shell.start t mask) actions) :
    Runs.Throughout Shell.step WakesUp (Shell.start t mask) actions := by
  intro pre s hpre hrun
  exact (Runs.invariant (I := Heard) (fun s a s' h hunsettled hstep => h.step hunsettled hstep)
    (heard_start t mask) (h.of_prefix hpre) hrun).wakesUp

/-- **Nothing less will do**: once `do_bgfg` puts a settled job in the foreground, the wake-up is
lost before the next statement that reads the job list has been executed. -/
theorem lost_of_settled {s : Shell} (hidle : s.handlers = []) (hlive : s.exited = false)
    {i : Fin maxJobs} (hmain : s.main = .bgfgState i .fg)
    (hsettled : s.Settled (s.table.slots i).pid) :
    ∃ s', s.run [.main, .main, .main, .main] = some s' ∧ ¬ WakesUp s' := by
  obtain ⟨t, ht⟩ : ∃ t, t = s.table.setSlot i { s.table.slots i with state := .fg } := ⟨_, rfl⟩
  have hfg : (t.slots i).state = .fg := by simp [ht]
  have hpid : (t.slots i).pid = (s.table.slots i).pid := by simp [ht]
  -- either the test of `waitfg` finds the job, or it leaves the loop with the job in the foreground
  by_cases hfound : 0 < fgpid t
  · refine ⟨{ s with table := t, main := .suspended s.mask }, ?_, fun h => ?_⟩
    · simp [Shell.run, Shell.step, Shell.stepMain, Shell.idle, hidle, hlive, hmain, ← ht, hfound]
    · exact h.waits s.mask i rfl hfg (by rwa [← hpid] at hsettled)
  · refine ⟨{ s with table := t, mask := .full, main := .waitRestore s.mask }, ?_, fun h => ?_⟩
    · simp [Shell.run, Shell.step, Shell.stepMain, Shell.idle, hidle, hlive, hmain, ← ht, hfound]
    · exact h.returns s.mask rfl i hfg

instance (s : Shell) (pid : ℤ) : Decidable (s.Settled pid) :=
  inferInstanceAs (Decidable (∀ c ∈ s.children, _))

instance (s : Shell) (a : Action) : Decidable (s.Unsettled a) := by
  unfold Shell.Unsettled
  cases a with
  | main => split <;> infer_instance
  | _ => exact instDecidableTrue

/-- A background job is brought to the foreground, and ends while the shell is suspended. -/
def foregroundWait : List Action :=
  [.read ['l', 's', ' ', '&', '\n'], .main, .fork 100, .main, .main, .main, .main,
    .child 100 .setpgid, .read ['f', 'g', ' ', '%', '1', ' ', '&', '\n'], .main, .main, .main,
    .main, .main, .child 100 (.exit 0), .deliver .chld, .waitpid (some 100), .handler, .handler,
    .handler, .waitpid none, .handler, .main, .main]

theorem wakesUp_run_foregroundWait :
    ((Shell.start startTable fun _ => false).run foregroundWait).isSome = true ∧
      Runs.Throughout Shell.step WakesUp (Shell.start startTable fun _ => false) foregroundWait :=
  ⟨by decide +kernel, wakesUp_run startTable (fun _ => false) foregroundWait (by decide +kernel)⟩

/-- A background job is brought to the foreground, and stops between the `SIGCONT` and the update of
its state. -/
def stopsFirst : List Action :=
  [.read ['l', 's', ' ', '&', '\n'], .main, .fork 100, .main, .main, .main, .main,
    .child 100 .setpgid, .read ['f', 'g', ' ', '%', '1', ' ', '&', '\n'], .main,
    .child 100 (.stop 19), .deliver .chld, .waitpid (some 100), .handler, .handler, .handler,
    .waitpid none, .handler, .main, .main, .main, .main]

/-- **The shell sleeps** for a job that is stopped, with nothing left to wake it. -/
theorem sleeps_forever :
    ¬ ∀ (t : JobTable) (mask : SigSet), mask .chld = false → ∀ actions : List Action,
      Runs.Throughout Shell.step WakesUp (Shell.start t mask) actions := by
  intro h
  have hend : ((Shell.start startTable fun _ => false).run stopsFirst).any (fun s =>
      s.main.isSuspended &&
        (s.table.slots 0).state = .fg && s.Settled (s.table.slots 0).pid &&
        !s.pending .chld) = true := by
    decide +kernel
  obtain ⟨s, hrun, hend⟩ := (Option.any_eq_true _ _).1 hend
  simp only [Bool.and_eq_true, decide_eq_true_eq] at hend
  obtain ⟨⟨⟨hmain, hfg⟩, hsettled⟩, -⟩ := hend
  have hwakes := h startTable (fun _ => false) rfl stopsFirst stopsFirst s (List.prefix_refl _) hrun
  cases hs : s.main with
  | suspended prev => exact hwakes.waits prev 0 hs hfg hsettled
  | _ => simp [hs, Main.isSuspended] at hmain

end Tsh
