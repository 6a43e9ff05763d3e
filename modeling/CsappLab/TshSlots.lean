/-
**The slots of the job list.**

A slot says three times whether it holds a job: by its pid, its job ID and its state.  `addjob` and
`clearjob` write all three, and run while all signals are blocked.  `do_bgfg` writes the state
alone, through a pointer it looked up before it sent `SIGCONT`, and `sigchld_handler` may have
cleared the slot in between; what is left is a slot without a job that is in the foreground.
Nothing else can go wrong: the fields agree, and at most one job is in the foreground, for as long
as `do_bgfg` finds the slot in use.

Main definitions:

* `Tsh.Consistent` — the fields of every slot agree, and at most one job is in the foreground;
* `Tsh.Shell.OnJob` — `do_bgfg` does not write to a slot that was cleared;
* `Tsh.Filled` — each slot is free or holds a job, and the next job ID is not zero;
* `Tsh.Orderly` — the invariant: only one that is waited for is in the foreground.

Main results:

* `Tsh.consistent_iff` — **when the slots are consistent** all along a run;
* `Tsh.phantom_job` — a run that leaves a slot without a job in the foreground.
-/

import CsappLab.TshReaping
import Mathlib.Data.Finset.Card
import Mathlib.Data.Fintype.Card

set_option relaxedAutoImplicit false
set_option autoImplicit false

namespace Tsh

/-! ### Consistent slots -/

/-- **Consistent slots**: the fields of a slot agree on whether it holds a job, at most one job is
in the foreground, and `fgpid` finds it. -/
structure Consistent (t : JobTable) : Prop where
  pid_iff : ∀ i, (t.slots i).pid = 0 ↔ (t.slots i).jid = 0
  jid_iff : ∀ i, (t.slots i).jid = 0 ↔ (t.slots i).state = .undef
  fg_unique : ∀ i j, (t.slots i).state = .fg → (t.slots j).state = .fg → i = j
  no_fg : fgpid t = 0 → ∀ i, (t.slots i).state ≠ .fg

/-- `do_bgfg` sets the state of a slot only while the slot holds a job. -/
def Shell.OnJob (s : Shell) (a : Action) : Prop :=
  match a, s.main with
  | .main, .bgfgState i _ => (s.table.slots i).pid ≠ 0
  | _, _ => True

/-- A slot that was cleared. -/
structure Job.Free (job : Job) : Prop where
  pid : job.pid = 0
  state : job.state = .undef
  jid : job.jid = 0

/-- A slot that holds a job. -/
structure Job.Busy (job : Job) : Prop where
  pid : 1 ≤ job.pid
  state : job.state ≠ .undef
  jid : job.jid ≠ 0

/-! ### The next job ID -/

/-- The number of free slots. -/
def JobTable.free (t : JobTable) : ℕ :=
  (Finset.univ.filter fun i : Fin maxJobs => (t.slots i).pid = 0).card

theorem free_le (t : JobTable) : t.free ≤ maxJobs := by
  have := Finset.card_le_univ (Finset.univ.filter fun i : Fin maxJobs => (t.slots i).pid = 0)
  simpa [JobTable.free] using this

/-- A slot that is taken is no longer free. -/
theorem free_setSlot {t : JobTable} {i : Fin maxJobs} {job : Job} (hi : (t.slots i).pid = 0)
    (hjob : job.pid ≠ 0) : (t.setSlot i job).free + 1 = t.free := by
  have hmem : i ∈ Finset.univ.filter fun j : Fin maxJobs => (t.slots j).pid = 0 := by
    simpa using hi
  have herase : (Finset.univ.filter fun j : Fin maxJobs => ((t.setSlot i job).slots j).pid = 0) =
      (Finset.univ.filter fun j : Fin maxJobs => (t.slots j).pid = 0).erase i := by
    ext j
    rw [Finset.mem_filter, Finset.mem_erase, Finset.mem_filter]
    by_cases hj : j = i
    · subst hj
      simp [hjob]
    · simp [hj]
  rw [JobTable.free, JobTable.free, herase, Finset.card_erase_add_one hmem]

/-- An `int` that is incremented wraps at its maximum. -/
theorem incr_eq {x : ℤ} (hlower : -2 ^ 31 ≤ x) (hupper : x < 2 ^ 31) :
    incr x = if x = 2 ^ 31 - 1 then -2 ^ 31 else x + 1 := by
  split
  · rename_i hx
    rw [hx]
    decide
  · rw [incr, Int.bmod_eq_of_le] <;> omega

theorem maxjid_bounds {t : JobTable} {n : ℤ} (hn : 0 < n) (hjid : ∀ i, (t.slots i).jid < n) :
    0 ≤ maxjid t ∧ maxjid t < n := by
  have hfold : ∀ (l : List (Fin maxJobs)) (max : ℤ), 0 ≤ max → max < n →
      0 ≤ l.foldl (fun max i => if max < (t.slots i).jid then (t.slots i).jid else max) max ∧
        l.foldl (fun max i => if max < (t.slots i).jid then (t.slots i).jid else max) max < n := by
    intro l
    induction l with
    | nil => exact fun max hpos hlt => ⟨hpos, hlt⟩
    | cons i l ih =>
        intro max hpos hlt
        have hi := hjid i
        refine ih _ ?_ ?_
        · dsimp only
          split <;> omega
        · dsimp only
          split <;> omega
  exact hfold _ 0 (le_refl 0) hn

/-- **Each slot is free or holds a job**, and the next job ID is not zero.  The counter wraps at
the largest `int`; from there it never gets back to zero, because it is reset when a job ends, and
until then no more jobs can be added than there are slots. -/
structure Filled (t : JobTable) : Prop where
  slot : ∀ i, (t.slots i).Free ∨ (t.slots i).Busy
  jid_lt : ∀ i, (t.slots i).jid < 2 ^ 31
  lower : -2 ^ 31 ≤ t.nextjid
  upper : t.nextjid < 2 ^ 31
  counter : 1 ≤ t.nextjid ∨ t.nextjid + t.free ≤ maxJobs - 2 ^ 31

theorem Filled.nextjid_ne_zero {t : JobTable} (h : Filled t) : t.nextjid ≠ 0 := by
  have := h.counter
  simp only [maxJobs] at this
  omega

theorem filled_initjobs {t : JobTable} (h : t.nextjid = 1) : Filled (initjobs t) where
  slot _ := .inl ⟨rfl, rfl, rfl⟩
  jid_lt _ := by
    show (0 : ℤ) < 2 ^ 31
    omega
  lower := by
    show -2 ^ 31 ≤ t.nextjid
    omega
  upper := by
    show t.nextjid < 2 ^ 31
    omega
  counter := .inl (by show 1 ≤ t.nextjid; omega)

/-! ### The four writes -/

/-- `addjob` finds a free slot. -/
theorem Filled.addAt {t : JobTable} (h : Filled t) {i : Fin maxJobs} (hi : (t.slots i).pid = 0)
    {pid : ℤ} (hpid : 1 ≤ pid) {state : JobState} (hstate : state ≠ .undef)
    (cmdline : List Char) : Filled (t.addAt i pid state cmdline) := by
  have hfree : (t.addAt i pid state cmdline).free + 1 = t.free := by
    refine free_setSlot hi ?_
    show pid ≠ 0
    omega
  have hle := free_le (t.addAt i pid state cmdline)
  have hlower := h.lower
  have hupper := h.upper
  have hcounter := h.counter
  simp only [maxJobs] at hle hcounter
  -- the counter moves on, or wraps at one of two places
  have hnext : (t.addAt i pid state cmdline).nextjid = 1 ∨
      (t.addAt i pid state cmdline).nextjid = t.nextjid + 1 ∧ t.nextjid + 1 ≤ 16 ∨
      (t.addAt i pid state cmdline).nextjid = -2 ^ 31 := by
    have hdef : (t.addAt i pid state cmdline).nextjid =
        if (maxJobs : ℤ) < incr t.nextjid then 1 else incr t.nextjid := rfl
    rw [hdef, incr_eq hlower hupper]
    simp only [maxJobs]
    by_cases htop : t.nextjid = 2 ^ 31 - 1
    · rw [if_pos htop]
      exact .inr (.inr (if_neg (by omega)))
    · rw [if_neg htop]
      split
      · exact .inl rfl
      · exact .inr (.inl ⟨rfl, by omega⟩)
  refine ⟨fun j => ?_, fun j => ?_, by omega, by omega, ?_⟩
  · by_cases hj : j = i
    · subst hj
      exact .inr (by simpa using ⟨hpid, hstate, h.nextjid_ne_zero⟩)
    · simpa [hj] using h.slot j
  · by_cases hj : j = i
    · subst hj
      simpa using hupper
    · simpa [hj] using h.jid_lt j
  -- a counter below zero has moved on by one, and there is one free slot less
  · simp only [maxJobs]
    omega

/-- `deletejob` clears a slot and resets the counter. -/
theorem Filled.clearAt {t : JobTable} (h : Filled t) (i : Fin maxJobs) : Filled (t.clearAt i) := by
  have hjid : ∀ j, ((t.clearAt i).slots j).jid < 2 ^ 31 := by
    intro j
    by_cases hj : j = i
    · subst hj
      simp [clearjob]
    · simpa [hj] using h.jid_lt j
  obtain ⟨hpos, hlt⟩ := maxjid_bounds (t := t.setSlot i (clearjob (t.slots i))) (by omega) hjid
  have hincr := incr_eq (by omega) hlt
  have hle := free_le (t.clearAt i)
  have hnext : (t.clearAt i).nextjid = incr (maxjid (t.setSlot i (clearjob (t.slots i)))) := rfl
  simp only [maxJobs] at hle
  refine ⟨fun j => ?_, hjid, ?_, ?_, ?_⟩
  · by_cases hj : j = i
    · subst hj
      exact .inl (by simpa using ⟨rfl, rfl, rfl⟩)
    · simpa [hj] using h.slot j
  -- the counter is one more than the largest job ID, or wraps
  · rw [hnext, hincr]
    split <;> omega
  · rw [hnext, hincr]
    split <;> omega
  · rw [hnext, hincr]
    simp only [maxJobs]
    split <;> omega

/-- Setting the state of a slot that holds a job. -/
theorem Filled.setState {t : JobTable} (h : Filled t) {i : Fin maxJobs} (hi : (t.slots i).pid ≠ 0)
    {state : JobState} (hstate : state ≠ .undef) :
    Filled (t.setSlot i { t.slots i with state := state }) := by
  have hfree : (t.setSlot i { t.slots i with state := state }).free = t.free := by
    simp only [JobTable.free, pid_setSlot]
  refine ⟨fun j => ?_, fun j => ?_, h.lower, h.upper, ?_⟩
  · by_cases hj : j = i
    · subst hj
      rcases h.slot j with hfree | hbusy
      · exact absurd hfree.pid hi
      · exact .inr (by simpa using ⟨hbusy.pid, hstate, hbusy.jid⟩)
    · simpa [hj] using h.slot j
  · by_cases hj : j = i
    · subst hj
      simpa using h.jid_lt j
    · simpa [hj] using h.jid_lt j
  · rw [hfree]
    exact h.counter

/-! ### The main thread -/

/-- What `eval` and `do_bgfg` carry along: a job that is added runs in the background and has a pid,
and the state that is set is `BG` or `FG`. -/
def Main.Proper : Main → Prop
  | .evalBlock bg _ => bg ≠ 0
  | .evalFork bg _ _ => bg ≠ 0
  | .evalBlockAll bg _ _ pid => bg ≠ 0 ∧ 1 ≤ pid
  | .evalAddjob bg _ _ pid => bg ≠ 0 ∧ 1 ≤ pid
  | .evalRestore bg _ _ _ => bg ≠ 0
  | .bgfgKill _ state => state = .bg ∨ state = .fg
  | .bgfgState _ state => state = .bg ∨ state = .fg
  | .bgfgReport _ state => state = .bg ∨ state = .fg
  | _ => True

/-- A job has been put in the foreground and is waited for. -/
def Main.waits : Main → Bool
  | .bgfgReport _ state => state = .fg
  | .waitBlock => true
  | .waitTest _ => true
  | .suspended _ => true
  | _ => false

theorem proper_step {s s' : Shell} (h : s.main.Proper) {a : Action} (hstep : s.step a = some s') :
    s'.main.Proper := by
  obtain ⟨main, main', hmain, hmain', hnext⟩ := Shell.step_next hstep
  rw [hmain] at h
  rw [hmain']
  cases hnext with
  | stay a main => exact h
  | external line hbg => exact hbg
  | bgfg line i hstate => exact hstate
  | forked bg line prev hpid => exact ⟨h, hpid⟩
  | evalBlock bg line => exact h
  | evalBlockAll bg pid line prev => exact h
  | evalAddjob bg pid line prev => exact h.1
  | killed state hgroup => exact h
  | bgfgState i state => exact h
  | _ => trivial

/-- **The invariant**: the slots are in order, and a job in the foreground is waited for. -/
structure Orderly (s : Shell) : Prop where
  filled : Filled s.table
  proper : s.main.Proper
  waits : ∀ i, (s.table.slots i).state = .fg → s.main.waits = true
  unique : ∀ i j, (s.table.slots i).state = .fg → (s.table.slots j).state = .fg → i = j

theorem orderly_start (jobs : Fin maxJobs → Job) (mask : SigSet) :
    Orderly (Shell.start { slots := jobs, nextjid := 1 } mask) where
  filled := filled_initjobs rfl
  proper := trivial
  waits i hi := by cases hi
  unique i j hi := by cases hi

/-- The job in the foreground is found. -/
theorem Orderly.fgpid_pos {s : Shell} (h : Orderly s) {i : Fin maxJobs}
    (hi : (s.table.slots i).state = .fg) : 1 ≤ fgpid s.table := by
  have hscan : (s.table.scan fun job => job.state = .fg) = some i :=
    scan_unique (by simpa using hi) fun j hj => h.unique j i (by simpa using hj) hi
  rw [fgpid, hscan]
  rcases h.filled.slot i with hfree | hbusy
  · rw [hfree.state] at hi
    cases hi
  · exact hbusy.pid

theorem Orderly.consistent {s : Shell} (h : Orderly s) : Consistent s.table where
  pid_iff i := by
    rcases h.filled.slot i with hfree | hbusy
    · exact ⟨fun _ => hfree.jid, fun _ => hfree.pid⟩
    · have := hbusy.pid
      exact ⟨fun hpid => by omega, fun hjid => absurd hjid hbusy.jid⟩
  jid_iff i := by
    rcases h.filled.slot i with hfree | hbusy
    · exact ⟨fun _ => hfree.state, fun _ => hfree.jid⟩
    · exact ⟨fun hjid => absurd hjid hbusy.jid, fun hstate => absurd hstate hbusy.state⟩
  fg_unique := h.unique
  no_fg hzero i hi := by
    have := h.fgpid_pos hi
    omega

/-- While a job is in the foreground the main thread goes on waiting for it. -/
theorem Orderly.waits_step {s s' : Shell} (h : Orderly s) {i : Fin maxJobs}
    (hi : (s.table.slots i).state = .fg) {a : Action} (hstep : s.step a = some s') :
    s'.main.waits = true := by
  have hwaits := h.waits i hi
  obtain ⟨main, main', hmain, hmain', hnext⟩ := Shell.step_next hstep
  rw [hmain] at hwaits
  rw [hmain']
  cases hnext with
  | stay a main => exact hwaits
  -- the loop of `waitfg` ends only when `fgpid` finds no job
  | leave prev hnotFound =>
      have := h.fgpid_pos hi
      omega
  | bgReport j => simp [Main.waits] at hwaits
  | wake sig prev => rfl
  | fgReport j hstate => rfl
  | waitBlock => rfl
  | suspend prev hfound => rfl
  | _ => cases hwaits

/-- A slot is written, and what is written is not in the foreground. -/
theorem slot_of_update {slots : Fin maxJobs → Job} {i : Fin maxJobs} {job : Job}
    (hjob : job.state ≠ .fg) {j : Fin maxJobs} (hj : (Function.update slots i job j).state = .fg) :
    Function.update slots i job j = slots j := by
  by_cases hji : j = i
  · subst hji
    rw [Function.update_self] at hj
    exact absurd hj hjob
  · rw [Function.update_of_ne hji]

/-- **Where a job in the foreground comes from**: its slot is as it was, or `do_bgfg` has just put
it there. -/
theorem fg_step {s s' : Shell} (h : s.main.Proper) {a : Action} (hstep : s.step a = some s')
    {i : Fin maxJobs} (hi : (s'.table.slots i).state = .fg) :
    s'.table.slots i = s.table.slots i ∨ a = .main ∧ s.main = .bgfgState i .fg ∧
      s'.table.slots i = { s.table.slots i with state := .fg } := by
  cases Shell.step_writes hstep with
  | nothing a table => exact .inl (by rw [table])
  | addjob idle main main' table =>
      rename_i bg pid line prev
      obtain ⟨hbg, hpid⟩ : bg ≠ 0 ∧ 1 ≤ pid := by rwa [main] at h
      rw [if_neg hbg] at table
      -- `eval` adds a job in the background: in this shell `bg` is not zero there
      rcases addjob_cases s.table hpid .bg line with ⟨j, -, hadd⟩ | ⟨-, hadd⟩
      · rw [hadd] at table
        rw [table] at hi ⊢
        exact .inl (slot_of_update (by simp) hi)
      · rw [hadd] at table
        exact .inl (by rw [table])
  | setState idle main main' table =>
      rename_i j state
      by_cases hij : i = j
      · subst hij
        have hstate : state = .fg := by simpa [table] using hi
        subst hstate
        exact .inr ⟨rfl, main, by simp [table]⟩
      · exact .inl (by simp [table, hij])
  | deletejob handlers zombie main' table =>
      rename_i mask prev pid st rest
      rcases deletejob_cases s.table pid with ⟨j, -, hdel⟩ | ⟨-, hdel⟩
      · rw [hdel] at table
        rw [table] at hi ⊢
        exact .inl (slot_of_update (by simp [clearjob]) hi)
      · rw [hdel] at table
        exact .inl (by rw [table])
  | stop handlers found main' table =>
      rw [table] at hi ⊢
      exact .inl (slot_of_update (by simp) hi)

/-- The writes keep the slots in order if `do_bgfg` finds its slot in use. -/
theorem Filled.step {s s' : Shell} (h : Filled s.table) (hproper : s.main.Proper) {a : Action}
    (hjob : s.OnJob a) (hstep : s.step a = some s') : Filled s'.table := by
  cases Shell.step_writes hstep with
  | nothing a table =>
      rw [table]
      exact h
  | addjob idle main main' table =>
      rename_i bg pid line prev
      obtain ⟨hbg, hpid⟩ : bg ≠ 0 ∧ 1 ≤ pid := by rwa [main] at hproper
      rw [table, if_neg hbg]
      rcases addjob_cases s.table hpid .bg line with ⟨i, hi, hadd⟩ | ⟨-, hadd⟩
      · rw [hadd]
        exact h.addAt hi hpid (by simp) line
      · rw [hadd]
        exact h
  | setState idle main main' table =>
      rename_i i state
      have hstate : state = .bg ∨ state = .fg := by rwa [main] at hproper
      have hpid : (s.table.slots i).pid ≠ 0 := by
        unfold Shell.OnJob at hjob
        rwa [main] at hjob
      rw [table]
      refine h.setState hpid ?_
      rcases hstate with rfl | rfl <;> simp
  | deletejob handlers zombie main' table =>
      rename_i mask prev pid st rest
      rw [table]
      rcases deletejob_cases s.table pid with ⟨i, -, hdel⟩ | ⟨-, hdel⟩
      · rw [hdel]
        exact h.clearAt i
      · rw [hdel]
        exact h
  | stop handlers found main' table =>
      obtain ⟨hpos, hpid⟩ := getjobpid_some found
      rw [table]
      exact h.setState (by omega) (by simp)

/-- **One step**: the slots stay in order if `do_bgfg` finds its slot in use. -/
theorem Orderly.step {s s' : Shell} (h : Orderly s) {a : Action} (hjob : s.OnJob a)
    (hstep : s.step a = some s') : Orderly s' := by
  refine ⟨h.filled.step h.proper hjob hstep, proper_step h.proper hstep, fun i hi => ?_,
    fun i j hi hj => ?_⟩
  -- a job that was in the foreground, or one that `do_bgfg` has just put there
  · rcases fg_step h.proper hstep hi with hslot | ⟨rfl, hmain, -⟩
    · exact h.waits_step (by rwa [hslot] at hi) hstep
    · obtain ⟨-, hstep⟩ := step_main hstep
      simp only [Shell.stepMain, hmain, Option.some.injEq] at hstep
      rw [← hstep]
      rfl
  · -- when `do_bgfg` puts a job in the foreground, there was none
    have hnone : ∀ k l, s.main = .bgfgState k .fg → (s.table.slots l).state ≠ .fg := by
      intro k l hmain hl
      have := h.waits l hl
      rw [hmain] at this
      cases this
    rcases fg_step h.proper hstep hi with hsame | ⟨-, hmain, -⟩ <;>
      rcases fg_step h.proper hstep hj with hsame' | ⟨-, hmain', -⟩
    · exact h.unique i j (by rwa [hsame] at hi) (by rwa [hsame'] at hj)
    · exact absurd (by rwa [hsame] at hi) (hnone j i hmain')
    · exact absurd (by rwa [hsame'] at hj) (hnone i j hmain)
    · rw [hmain] at hmain'
      cases hmain'
      rfl

/-- A step of `do_bgfg` that writes to a cleared slot leaves it with a state and without a pid. -/
theorem Orderly.phantom {s s' : Shell} (h : Orderly s) {a : Action} (hjob : ¬ s.OnJob a)
    (hstep : s.step a = some s') : ¬ Consistent s'.table := by
  intro hconsistent
  unfold Shell.OnJob at hjob
  split at hjob
  · rename_i i state hmain
    have hpid : (s.table.slots i).pid = 0 := not_not.1 hjob
    have hstate : state = .bg ∨ state = .fg := by
      have := h.proper
      rwa [hmain] at this
    have hslot : s'.table.slots i = { s.table.slots i with state := state } := by
      obtain ⟨-, hstep⟩ := step_main hstep
      simp only [Shell.stepMain, hmain, Option.some.injEq] at hstep
      rw [← hstep]
      simp
    -- without a pid there is no job ID, without a job ID no state; but the state was set
    have hjid := (hconsistent.pid_iff i).1 (by rw [hslot]; exact hpid)
    have hundef := (hconsistent.jid_iff i).1 hjid
    rw [hslot] at hundef
    rcases hstate with rfl | rfl <;> cases hundef
  · exact hjob trivial

/-! ### Whole runs -/

/-- **When the slots are consistent.**  In every run from the start of the shell, with any signals
delivered at any statement, the slots are consistent in every state passed through iff `do_bgfg`
never sets the state of a slot that was cleared. -/
theorem consistent_iff (jobs : Fin maxJobs → Job) (mask : SigSet) (actions : List Action) :
    Runs.Throughout Shell.step (fun s => Consistent s.table)
        (Shell.start { slots := jobs, nextjid := 1 } mask) actions ↔
      Runs.Along Shell.step Shell.OnJob
        (Shell.start { slots := jobs, nextjid := 1 } mask) actions :=
  Runs.throughout_iff_along (I := Orderly) (fun _ h => h.consistent)
    (fun _ _ _ h hjob hstep => h.step hjob hstep) (fun _ _ _ h hjob hstep => h.phantom hjob hstep)
    (orderly_start jobs mask) actions

/-- A background job is brought to the foreground, and ends between the `SIGCONT` and the update of
its state. -/
def staleState : List Action :=
  [.read ['l', 's', ' ', '&', '\n'], .main, .fork 100, .main, .main, .main, .main,
    .child 100 .setpgid,
    .read ['f', 'g', ' ', '%', '1', ' ', '&', '\n'], .main, .child 100 (.exit 0), .deliver .chld,
    .waitpid (some 100), .handler, .handler, .handler, .waitpid none, .handler, .main]

/-- **A job that is not there**: the first slot has neither pid nor job ID and is in the foreground.
-/
theorem phantom_job :
    ¬ ∀ (jobs : Fin maxJobs → Job) (mask : SigSet) (actions : List Action),
      Runs.Throughout Shell.step (fun s => Consistent s.table)
        (Shell.start { slots := jobs, nextjid := 1 } mask) actions := by
  intro h
  have hslot : ((Shell.start startTable fun _ => false).run staleState).map
      (fun s => s.table.slots 0) = some { pid := 0, jid := 0, state := .fg, cmdline := [] } := by
    decide +kernel
  obtain ⟨s, hrun, hslot⟩ := Option.map_eq_some_iff.1 hslot
  have hconsistent := h zeroJobs (fun _ => false) staleState staleState s (List.prefix_refl _) hrun
  have hundef := (hconsistent.jid_iff 0).1 (by rw [hslot])
  rw [hslot] at hundef
  cases hundef

end Tsh
