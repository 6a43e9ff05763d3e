/-
**The job list of the tiny shell.**

`tsh.c` keeps its jobs in a fixed array of `MAXJOBS` slots; a slot is free when its `pid` is `0`.
The helpers that manipulate the list are loops over the slots that stop at the first one with a
property, so all of them are instances of one scan.  `nextjid` is the counter job IDs are taken
from: `addjob` increments it and wraps it at `MAXJOBS`, `deletejob` resets it to `maxjid + 1`.

The second half is about identity.  The two rules for `nextjid` do not keep job IDs distinct: a
long-lived job with a small ID survives the wrap, and the ID is handed out again.  What holds is
that job IDs identify jobs for as long as no job is added while `nextjid` is taken.

Main definitions:

* `Tsh.Job`, `Tsh.JobTable` — a slot, and the list with its counter;
* `Tsh.addjob`, `Tsh.deletejob`, `Tsh.getjobjid`, `Tsh.pid2jid`, … — the helpers of the source;
* `Tsh.Session` — the list together with the job IDs that were printed when jobs were added;
* `Tsh.JidsIdentify` — job IDs identify jobs;
* `Tsh.FreshJid` — the counter is not in use, or nothing will be added.

Main results:

* `Tsh.jidsIdentify_iff_freshJid` — over every history, job IDs identify jobs in every state iff
  the counter was fresh whenever a job was added;
* `Tsh.jid_one_twice` — a history on which two live jobs carry the same ID.
-/

import Mathlib.Algebra.Ring.Int.Defs
import Mathlib.Algebra.Ring.Nat
import Mathlib.Data.Int.Notation
import Mathlib.Data.List.FinRange
import Mathlib.Data.List.Induction
import Mathlib.Logic.Function.Basic
import Mathlib.Tactic.Common

set_option relaxedAutoImplicit false
set_option autoImplicit false

namespace Tsh

/-! ### The job list -/

/-- `MAXJOBS`. -/
abbrev maxJobs : ℕ := 16

/-- The states of a job: `UNDEF`, `FG`, `BG`, `ST`. -/
inductive JobState where
  | undef
  | fg
  | bg
  | st
  deriving DecidableEq, Repr

/-- `struct job_t`. -/
structure Job where
  pid : ℤ
  jid : ℤ
  state : JobState
  cmdline : List Char
  deriving DecidableEq, Repr

/-- The array `jobs` and the global `nextjid`. -/
@[ext] structure JobTable where
  slots : Fin maxJobs → Job
  nextjid : ℤ

/-- `clearjob`: reset every field of a slot. -/
def clearjob (job : Job) : Job :=
  { job with pid := 0, jid := 0, state := .undef, cmdline := [] }

/-- `initjobs`: clear every slot.  The counter is a global with its own initial value. -/
def initjobs (t : JobTable) : JobTable :=
  { t with slots := fun i => clearjob (t.slots i) }

/-- The loop all helpers share: the first slot with a property. -/
def JobTable.scan (t : JobTable) (p : Job → Bool) : Option (Fin maxJobs) :=
  (List.finRange maxJobs).find? fun i => p (t.slots i)

/-- Write one slot. -/
def JobTable.setSlot (t : JobTable) (i : Fin maxJobs) (job : Job) : JobTable :=
  { t with slots := Function.update t.slots i job }

/-- `maxjid`: the largest job ID in the list, `0` when there is none. -/
def maxjid (t : JobTable) : ℤ :=
  (List.finRange maxJobs).foldl
    (fun max i => if max < (t.slots i).jid then (t.slots i).jid else max) 0

/-- An `int` is incremented modulo `2 ^ 32`. -/
def incr (x : ℤ) : ℤ := Int.bmod (x + 1) (2 ^ 32)

/-- `addjob`: the list afterwards, the return value, and what is printed (`verbose` is off). -/
def addjob (t : JobTable) (pid : ℤ) (state : JobState) (cmdline : List Char) :
    JobTable × ℤ × String :=
  if pid < 1 then (t, 0, "")
  else
    match t.scan fun job => job.pid = 0 with
    | some i =>
        let next := incr t.nextjid
        ({ t.setSlot i { pid := pid, jid := t.nextjid, state := state, cmdline := cmdline } with
            nextjid := if (maxJobs : ℤ) < next then 1 else next }, 1, "")
    | none => (t, 0, "Tried to create too many jobs\n")

/-- `deletejob`: the list afterwards and the return value. -/
def deletejob (t : JobTable) (pid : ℤ) : JobTable × ℤ :=
  if pid < 1 then (t, 0)
  else
    match t.scan fun job => job.pid = pid with
    | some i =>
        let t' := t.setSlot i (clearjob (t.slots i))
        ({ t' with nextjid := incr (maxjid t') }, 1)
    | none => (t, 0)

/-- `fgpid`: the pid of the foreground job, `0` if there is none. -/
def fgpid (t : JobTable) : ℤ :=
  match t.scan fun job => job.state = .fg with
  | some i => (t.slots i).pid
  | none => 0

/-- `getjobpid`: the slot of a pid, nothing for the null pointer. -/
def getjobpid (t : JobTable) (pid : ℤ) : Option (Fin maxJobs) :=
  if pid < 1 then none else t.scan fun job => job.pid = pid

/-- `getjobjid`: the slot of a job ID, nothing for the null pointer. -/
def getjobjid (t : JobTable) (jid : ℤ) : Option (Fin maxJobs) :=
  if jid < 1 then none else t.scan fun job => job.jid = jid

/-- `pid2jid`: the job ID of a pid, `0` if it is not in the list. -/
def pid2jid (t : JobTable) (pid : ℤ) : ℤ :=
  if pid < 1 then 0
  else
    match t.scan fun job => job.pid = pid with
    | some i => (t.slots i).jid
    | none => 0

/-- `listjobs` prints one line for each slot in use. -/
def listjobs (t : JobTable) : String :=
  (List.finRange maxJobs).foldl (fun out i =>
    let job := t.slots i
    if job.pid = 0 then out
    else
      out ++ "[" ++ toString job.jid ++ "] (" ++ toString job.pid ++ ") " ++
        (match job.state with
          | .bg => "Running "
          | .fg => "Foreground "
          | .st => "Stopped "
          | .undef => "listjobs: Internal error: job[" ++ toString i.val ++ "].state=0 ") ++
        String.ofList job.cmdline) ""

/-! ### Scanning the slots -/

theorem scan_some {t : JobTable} {p : Job → Bool} {i : Fin maxJobs} (h : t.scan p = some i) :
    p (t.slots i) = true := by
  have := List.find?_some h
  exact this

theorem scan_none {t : JobTable} {p : Job → Bool} :
    t.scan p = none ↔ ∀ i, p (t.slots i) = false := by
  simp [JobTable.scan, List.find?_eq_none]

/-- A property that only one slot has is found there. -/
theorem scan_unique {t : JobTable} {p : Job → Bool} {i : Fin maxJobs} (hi : p (t.slots i) = true)
    (huniq : ∀ j, p (t.slots j) = true → j = i) : t.scan p = some i := by
  cases h : t.scan p with
  | none =>
      rw [scan_none] at h
      rw [h i] at hi
      cases hi
  | some j =>
      rw [huniq j (scan_some h)]

@[simp] theorem slots_setSlot (t : JobTable) (i : Fin maxJobs) (job : Job) :
    (t.setSlot i job).slots = Function.update t.slots i job := rfl

@[simp] theorem nextjid_setSlot (t : JobTable) (i : Fin maxJobs) (job : Job) :
    (t.setSlot i job).nextjid = t.nextjid := rfl

/-! ### The slot discipline -/

/-- **The slot discipline**: a slot is cleared or holds a job with a positive pid and a state,
and no two slots hold the same job. -/
structure Tidy (t : JobTable) : Prop where
  free_or_pos : ∀ i, t.slots i = clearjob (t.slots i) ∨ 1 ≤ (t.slots i).pid
  pid_inj : ∀ i j, 1 ≤ (t.slots i).pid → (t.slots i).pid = (t.slots j).pid → i = j

theorem tidy_initjobs (t : JobTable) : Tidy (initjobs t) where
  free_or_pos _ := .inl rfl
  pid_inj i j hi _ := by
    have : (1 : ℤ) ≤ 0 := hi
    omega

theorem Tidy.jid_of_free {t : JobTable} (h : Tidy t) {i : Fin maxJobs}
    (hi : (t.slots i).pid = 0) : (t.slots i).jid = 0 := by
  rcases h.free_or_pos i with h' | h'
  · rw [h']
    rfl
  · omega

theorem Tidy.occupied_iff {t : JobTable} (h : Tidy t) (i : Fin maxJobs) :
    (t.slots i).pid ≠ 0 ↔ 1 ≤ (t.slots i).pid := by
  constructor
  · intro hi
    rcases h.free_or_pos i with h' | h'
    · exact absurd (by rw [h']; rfl) hi
    · exact h'
  · intro hi
    omega

/-- In a tidy list a pid is found at its own slot. -/
theorem Tidy.getjobpid_slot {t : JobTable} (h : Tidy t) {i : Fin maxJobs}
    (hi : 1 ≤ (t.slots i).pid) : getjobpid t (t.slots i).pid = some i := by
  rw [getjobpid, if_neg (by omega)]
  refine scan_unique (by simp) fun j hj => ?_
  have hj' : (t.slots j).pid = (t.slots i).pid := by simpa using hj
  exact h.pid_inj j i (by omega) hj'

theorem getjobpid_some {t : JobTable} {pid : ℤ} {i : Fin maxJobs}
    (h : getjobpid t pid = some i) : 1 ≤ pid ∧ (t.slots i).pid = pid := by
  rw [getjobpid] at h
  split at h
  · cases h
  · have := scan_some h
    exact ⟨by omega, by simpa using this⟩

theorem getjobpid_none {t : JobTable} {pid : ℤ} (hpid : 1 ≤ pid) :
    getjobpid t pid = none ↔ ∀ i, (t.slots i).pid ≠ pid := by
  rw [getjobpid, if_neg (by omega), scan_none]
  simp

theorem getjobjid_some {t : JobTable} {jid : ℤ} {i : Fin maxJobs}
    (h : getjobjid t jid = some i) : 1 ≤ jid ∧ (t.slots i).jid = jid := by
  rw [getjobjid] at h
  split at h
  · cases h
  · have := scan_some h
    exact ⟨by omega, by simpa using this⟩

theorem getjobjid_none {t : JobTable} {jid : ℤ} (hjid : 1 ≤ jid) :
    getjobjid t jid = none ↔ ∀ i, (t.slots i).jid ≠ jid := by
  rw [getjobjid, if_neg (by omega), scan_none]
  simp

/-- `pid2jid` reads the job ID off the slot `getjobpid` finds. -/
theorem pid2jid_eq {t : JobTable} {pid : ℤ} {i : Fin maxJobs} (h : getjobpid t pid = some i) :
    pid2jid t pid = (t.slots i).jid := by
  have h1 := (getjobpid_some h).1
  rw [getjobpid, if_neg (by omega)] at h
  rw [pid2jid, if_neg (by omega), h]

/-! ### What adding and deleting do -/

/-- The list after a job was written to the free slot `i`. -/
def JobTable.addAt (t : JobTable) (i : Fin maxJobs) (pid : ℤ) (state : JobState)
    (cmdline : List Char) : JobTable :=
  { t.setSlot i { pid := pid, jid := t.nextjid, state := state, cmdline := cmdline } with
    nextjid := if (maxJobs : ℤ) < incr t.nextjid then 1 else incr t.nextjid }

/-- The list after slot `i` was cleared. -/
def JobTable.clearAt (t : JobTable) (i : Fin maxJobs) : JobTable :=
  { t.setSlot i (clearjob (t.slots i)) with
    nextjid := incr (maxjid (t.setSlot i (clearjob (t.slots i)))) }

@[simp] theorem slots_addAt (t : JobTable) (i : Fin maxJobs) (pid : ℤ) (state : JobState)
    (cmdline : List Char) :
    (t.addAt i pid state cmdline).slots = Function.update t.slots i
      { pid := pid, jid := t.nextjid, state := state, cmdline := cmdline } := rfl

@[simp] theorem slots_clearAt (t : JobTable) (i : Fin maxJobs) :
    (t.clearAt i).slots = Function.update t.slots i (clearjob (t.slots i)) := rfl

theorem addjob_cases (t : JobTable) {pid : ℤ} (hpid : 1 ≤ pid) (state : JobState)
    (cmdline : List Char) :
    (∃ i, (t.slots i).pid = 0 ∧
        addjob t pid state cmdline = (t.addAt i pid state cmdline, 1, "")) ∨
      ((∀ i, (t.slots i).pid ≠ 0) ∧
        addjob t pid state cmdline = (t, 0, "Tried to create too many jobs\n")) := by
  cases h : t.scan fun job => job.pid = 0 with
  | none =>
      refine .inr ⟨fun i => ?_, ?_⟩
      · have := scan_none.1 h i
        simpa using this
      · rw [addjob, if_neg (by omega), h]
  | some i =>
      refine .inl ⟨i, ?_, ?_⟩
      · have := scan_some h
        simpa using this
      · rw [addjob, if_neg (by omega), h]
        rfl

theorem deletejob_cases (t : JobTable) (pid : ℤ) :
    (∃ i, getjobpid t pid = some i ∧ deletejob t pid = (t.clearAt i, 1)) ∨
      (getjobpid t pid = none ∧ deletejob t pid = (t, 0)) := by
  by_cases hpid : pid < 1
  · exact .inr ⟨by rw [getjobpid, if_pos hpid], by rw [deletejob, if_pos hpid]⟩
  · cases h : t.scan fun job => job.pid = pid with
    | none => exact .inr ⟨by rw [getjobpid, if_neg hpid, h], by rw [deletejob, if_neg hpid, h]⟩
    | some i =>
        refine .inl ⟨i, by rw [getjobpid, if_neg hpid, h], ?_⟩
        rw [deletejob, if_neg hpid, h]
        rfl

theorem Tidy.addAt {t : JobTable} (h : Tidy t) {i : Fin maxJobs} {pid : ℤ} (hpid : 1 ≤ pid)
    (hnew : getjobpid t pid = none) (state : JobState) (cmdline : List Char) :
    Tidy (t.addAt i pid state cmdline) := by
  have hne := (getjobpid_none hpid).1 hnew
  constructor
  · intro j
    by_cases hj : j = i
    · subst hj
      simp [hpid]
    · simpa [Function.update_of_ne hj] using h.free_or_pos j
  · intro j k hj hjk
    by_cases hji : j = i <;> by_cases hki : k = i
    · rw [hji, hki]
    · subst hji
      simp only [slots_addAt, Function.update_self, Function.update_of_ne hki] at hjk
      exact absurd hjk.symm (hne k)
    · subst hki
      simp only [slots_addAt, Function.update_self, Function.update_of_ne hji] at hjk
      exact absurd hjk (hne j)
    · simp only [slots_addAt, Function.update_of_ne hji, Function.update_of_ne hki] at hj hjk
      exact h.pid_inj j k hj hjk

theorem Tidy.clearAt {t : JobTable} (h : Tidy t) (i : Fin maxJobs) : Tidy (t.clearAt i) := by
  have hclear : ((t.clearAt i).slots i).pid = 0 := by simp [clearjob]
  constructor
  · intro j
    by_cases hj : j = i
    · subst hj
      simp [clearjob]
    · simpa [Function.update_of_ne hj] using h.free_or_pos j
  · intro j k hj hjk
    have hji : j ≠ i := by
      rintro rfl
      omega
    have hki : k ≠ i := by
      rintro rfl
      omega
    simp only [slots_clearAt, Function.update_of_ne hji, Function.update_of_ne hki] at hj hjk
    exact h.pid_inj j k hj hjk

/-! ### Histories of the list -/

/-- The two operations that change which jobs are in the list. -/
inductive JobOp where
  | add (pid : ℤ) (state : JobState) (cmdline : List Char)
  | delete (pid : ℤ)
  deriving DecidableEq, Repr

/-- The job list together with the job ID that was printed for each live job when it was
added: `eval` prints `pid2jid(pid)` right after `addjob`. -/
structure Session where
  table : JobTable
  printed : List (ℤ × ℤ)

/-- One operation. -/
def Session.step (s : Session) : JobOp → Session
  | .add pid state cmdline =>
      let t' := (addjob s.table pid state cmdline).1
      if (addjob s.table pid state cmdline).2.1 = 0 then { s with table := t' }
      else { table := t', printed := (pid, pid2jid t' pid) :: s.printed }
  | .delete pid =>
      { table := (deletejob s.table pid).1
        printed := s.printed.filter fun entry => entry.1 ≠ pid }

/-- `initjobs` on whatever the array held, with the counter at its initial value `1`. -/
def Session.start (jobs : Fin maxJobs → Job) : Session :=
  { table := initjobs { slots := jobs, nextjid := 1 }, printed := [] }

/-- The state after a history of operations. -/
def Session.run (jobs : Fin maxJobs → Job) (ops : List JobOp) : Session :=
  ops.foldl Session.step (Session.start jobs)

/-- Every added pid is positive and not in the list at that moment. -/
def NewPids (jobs : Fin maxJobs → Job) (ops : List JobOp) : Prop :=
  ∀ pre pid state cmdline, pre ++ [JobOp.add pid state cmdline] <+: ops →
    1 ≤ pid ∧ getjobpid (Session.run jobs pre).table pid = none

/-- **Job IDs identify jobs**: no two slots in use carry the same ID, the two lookups are inverse
to each other on live jobs, and the ID printed for a job still finds that job. -/
structure JidsIdentify (s : Session) : Prop where
  distinct : ∀ i j, (s.table.slots i).pid ≠ 0 → (s.table.slots j).pid ≠ 0 →
    (s.table.slots i).jid = (s.table.slots j).jid → i = j
  getjobjid_pid2jid : ∀ i, (s.table.slots i).pid ≠ 0 →
    getjobjid s.table (pid2jid s.table (s.table.slots i).pid) = some i
  pid2jid_getjobjid : ∀ jid i, getjobjid s.table jid = some i →
    pid2jid s.table (s.table.slots i).pid = jid
  printed : ∀ entry ∈ s.printed, ∃ i,
    getjobjid s.table entry.2 = some i ∧ (s.table.slots i).pid = entry.1

/-- The counter can be given out: it is a job ID and no job has it.  With no free slot nothing
will be given out. -/
def FreshJid (t : JobTable) : Prop :=
  (∃ i, (t.slots i).pid = 0) → 1 ≤ t.nextjid ∧ getjobjid t t.nextjid = none

theorem run_concat (jobs : Fin maxJobs → Job) (ops : List JobOp) (op : JobOp) :
    Session.run jobs (ops ++ [op]) = (Session.run jobs ops).step op := by
  simp [Session.run]

/-- The property of a state that carries the induction: distinct positive IDs in a tidy list, and
a record of what was printed that agrees with the list. -/
structure Sound (s : Session) : Prop where
  tidy : Tidy s.table
  jid_pos : ∀ i, 1 ≤ (s.table.slots i).pid → 1 ≤ (s.table.slots i).jid
  jid_inj : ∀ i j, 1 ≤ (s.table.slots i).pid → 1 ≤ (s.table.slots j).pid →
    (s.table.slots i).jid = (s.table.slots j).jid → i = j
  printed : ∀ entry ∈ s.printed, ∃ i, 1 ≤ (s.table.slots i).pid ∧
    (s.table.slots i).pid = entry.1 ∧ (s.table.slots i).jid = entry.2

/-- In a sound state an ID is found at its own slot. -/
theorem Sound.getjobjid_slot {s : Session} (h : Sound s) {i : Fin maxJobs}
    (hi : 1 ≤ (s.table.slots i).pid) : getjobjid s.table (s.table.slots i).jid = some i := by
  have hpos := h.jid_pos i hi
  rw [getjobjid, if_neg (by omega)]
  refine scan_unique (by simp) fun j hj => ?_
  have hj' : (s.table.slots j).jid = (s.table.slots i).jid := by simpa using hj
  refine h.jid_inj j i ?_ hi hj'
  rcases h.tidy.free_or_pos j with hfree | hpid
  · rw [hfree] at hj'
    have : (0 : ℤ) = (s.table.slots i).jid := hj'
    omega
  · exact hpid

theorem Sound.jidsIdentify {s : Session} (h : Sound s) : JidsIdentify s where
  distinct i j hi hj := h.jid_inj i j ((h.tidy.occupied_iff i).1 hi) ((h.tidy.occupied_iff j).1 hj)
  getjobjid_pid2jid i hi := by
    have hi' := (h.tidy.occupied_iff i).1 hi
    rw [pid2jid_eq (h.tidy.getjobpid_slot hi')]
    exact h.getjobjid_slot hi'
  pid2jid_getjobjid jid i hi := by
    obtain ⟨hpos, hjid⟩ := getjobjid_some hi
    have hocc : 1 ≤ (s.table.slots i).pid := by
      refine (h.tidy.occupied_iff i).1 fun hfree => ?_
      have := h.tidy.jid_of_free hfree
      omega
    rw [pid2jid_eq (h.tidy.getjobpid_slot hocc), hjid]
  printed entry hentry := by
    obtain ⟨i, hi, hpid, hjid⟩ := h.printed entry hentry
    exact ⟨i, hjid ▸ h.getjobjid_slot hi, hpid⟩

/-! ### One operation -/

theorem sound_start (jobs : Fin maxJobs → Job) : Sound (Session.start jobs) where
  tidy := tidy_initjobs _
  jid_pos i hi := by
    have : (1 : ℤ) ≤ 0 := hi
    omega
  jid_inj i j hi _ _ := by
    have : (1 : ℤ) ≤ 0 := hi
    omega
  printed entry hentry := by cases hentry

/-- Adding a job under a fresh ID. -/
theorem Sound.step_add {s : Session} (h : Sound s) {pid : ℤ} (hpid : 1 ≤ pid)
    (hnew : getjobpid s.table pid = none) (hfresh : FreshJid s.table) (state : JobState)
    (cmdline : List Char) : Sound (s.step (.add pid state cmdline)) := by
  rcases addjob_cases s.table hpid state cmdline with ⟨i, hi, hadd⟩ | ⟨-, hadd⟩
  · obtain ⟨hpos, hnone⟩ := hfresh ⟨i, hi⟩
    have hne := (getjobjid_none hpos).1 hnone
    have htidy := h.tidy.addAt (i := i) hpid hnew state cmdline
    have hself : 1 ≤ ((s.table.addAt i pid state cmdline).slots i).pid := by simpa using hpid
    have hstep : s.step (.add pid state cmdline) =
        { table := s.table.addAt i pid state cmdline
          printed := (pid, s.table.nextjid) :: s.printed } := by
      have hjid := pid2jid_eq (htidy.getjobpid_slot hself)
      simp only [slots_addAt, Function.update_self] at hjid
      simp [Session.step, hadd, hjid]
    rw [hstep]
    refine ⟨htidy, fun j hj => ?_, fun j k hj hk hjk => ?_, fun entry hentry => ?_⟩
    · rcases eq_or_ne j i with rfl | hji
      · simpa using hpos
      · simp only [slots_addAt, Function.update_of_ne hji] at hj ⊢
        exact h.jid_pos j hj
    · rcases eq_or_ne j i with rfl | hji <;> rcases eq_or_ne k j with rfl | hkj
      · rfl
      · simp only [slots_addAt, Function.update_self, Function.update_of_ne hkj] at hjk
        exact absurd hjk.symm (hne k)
      · rfl
      · rcases eq_or_ne k i with rfl | hki
        · simp only [slots_addAt, Function.update_self, Function.update_of_ne hji] at hjk
          exact absurd hjk (hne j)
        · simp only [slots_addAt, Function.update_of_ne hji, Function.update_of_ne hki] at hj hk hjk
          exact h.jid_inj j k hj hk hjk
    · rcases List.mem_cons.1 hentry with rfl | hold
      · exact ⟨i, hself, by simp, by simp⟩
      · obtain ⟨j, hj, hjpid, hjjid⟩ := h.printed entry hold
        have hji : j ≠ i := by
          rintro rfl
          omega
        exact ⟨j, by simpa [Function.update_of_ne hji] using hj,
          by simpa [Function.update_of_ne hji] using hjpid,
          by simpa [Function.update_of_ne hji] using hjjid⟩
  · have hstep : s.step (.add pid state cmdline) = s := by simp [Session.step, hadd]
    rw [hstep]
    exact h

/-- Deleting a job never hurts: it only takes a slot away and moves the counter. -/
theorem Sound.step_delete {s : Session} (h : Sound s) (pid : ℤ) : Sound (s.step (.delete pid)) := by
  have hentry : ∀ entry ∈ (s.step (.delete pid)).printed, entry ∈ s.printed ∧ entry.1 ≠ pid := by
    intro entry he
    simpa [Session.step] using he
  rcases deletejob_cases s.table pid with ⟨i, hi, hdel⟩ | ⟨hnone, hdel⟩
  · have htable : (s.step (.delete pid)).table = s.table.clearAt i := by
      simp [Session.step, hdel]
    obtain ⟨hpos, hipid⟩ := getjobpid_some hi
    -- a slot of the new list that is in use is an old slot
    have hold : ∀ j, 1 ≤ ((s.table.clearAt i).slots j).pid → j ≠ i := by
      rintro j hj rfl
      simp [clearjob] at hj
    refine ⟨?_, fun j hj => ?_, fun j k hj hk hjk => ?_, fun entry he => ?_⟩
    · rw [htable]
      exact h.tidy.clearAt i
    · rw [htable] at hj ⊢
      have hji := hold j hj
      simp only [slots_clearAt, Function.update_of_ne hji] at hj ⊢
      exact h.jid_pos j hj
    · rw [htable] at hj hk hjk
      have hji := hold j hj
      have hki := hold k hk
      simp only [slots_clearAt, Function.update_of_ne hji, Function.update_of_ne hki] at hj hk hjk
      exact h.jid_inj j k hj hk hjk
    · obtain ⟨hmem, hne⟩ := hentry entry he
      obtain ⟨j, hj, hjpid, hjjid⟩ := h.printed entry hmem
      have hji : j ≠ i := by
        rintro rfl
        exact hne (hjpid.symm.trans hipid)
      rw [htable]
      simp only [slots_clearAt]
      exact ⟨j, by rwa [Function.update_of_ne hji], by rwa [Function.update_of_ne hji],
        by rwa [Function.update_of_ne hji]⟩
  · have htable : (s.step (.delete pid)).table = s.table := by simp [Session.step, hdel]
    refine ⟨?_, ?_, ?_, fun entry he => ?_⟩
    · rw [htable]
      exact h.tidy
    · rw [htable]
      exact h.jid_pos
    · rw [htable]
      exact h.jid_inj
    · rw [htable]
      exact h.printed entry (hentry entry he).1

/-- A job added while the counter is taken breaks identity at once. -/
theorem freshJid_of_step_add {s : Session} (htidy : Tidy s.table) {pid : ℤ} (hpid : 1 ≤ pid)
    (hnew : getjobpid s.table pid = none) {state : JobState} {cmdline : List Char}
    (hafter : JidsIdentify (s.step (.add pid state cmdline))) : FreshJid s.table := by
  intro hfree
  rcases addjob_cases s.table hpid state cmdline with ⟨i, hi, hadd⟩ | ⟨hfull, -⟩
  · have htable : (s.step (.add pid state cmdline)).table = s.table.addAt i pid state cmdline := by
      simp [Session.step, hadd]
    have htidy' := htidy.addAt (i := i) hpid hnew state cmdline
    have hself : ((s.table.addAt i pid state cmdline).slots i).pid = pid := by simp
    have hjid : ((s.table.addAt i pid state cmdline).slots i).jid = s.table.nextjid := by simp
    -- the lookup of the new job's ID finds the new job, so the ID is positive
    have hfind := hafter.getjobjid_pid2jid i (by rw [htable, hself]; omega)
    rw [htable, pid2jid_eq (htidy'.getjobpid_slot (by rw [hself]; exact hpid)), hjid] at hfind
    have hpos := (getjobjid_some hfind).1
    refine ⟨hpos, (getjobjid_none hpos).2 fun j hj => ?_⟩
    have hji : j ≠ i := by
      rintro rfl
      have := htidy.jid_of_free hi
      omega
    have hjocc : (s.table.slots j).pid ≠ 0 := by
      intro hj0
      have := htidy.jid_of_free hj0
      omega
    refine hji (hafter.distinct j i ?_ ?_ ?_)
    · simpa [htable, Function.update_of_ne hji] using hjocc
    · rw [htable, hself]
      omega
    · rw [htable, hjid]
      simpa [Function.update_of_ne hji] using hj
  · obtain ⟨i, hi⟩ := hfree
    exact absurd hi (hfull i)

/-! ### Whole histories -/

theorem sound_run {jobs : Fin maxJobs → Job} {ops : List JobOp} (hnew : NewPids jobs ops)
    (hfresh : ∀ pre pid state cmdline, pre ++ [JobOp.add pid state cmdline] <+: ops →
      FreshJid (Session.run jobs pre).table) :
    Sound (Session.run jobs ops) := by
  induction ops using List.reverseRecOn with
  | nil => exact sound_start jobs
  | append_singleton ops op ih =>
      have ih' := ih
        (fun pre pid state cmdline hpre =>
          hnew pre pid state cmdline (hpre.trans (List.prefix_append ops [op])))
        (fun pre pid state cmdline hpre =>
          hfresh pre pid state cmdline (hpre.trans (List.prefix_append ops [op])))
      rw [run_concat]
      cases op with
      | add pid state cmdline =>
          obtain ⟨hpid, hnone⟩ := hnew ops pid state cmdline (List.prefix_refl _)
          exact ih'.step_add hpid hnone (hfresh ops pid state cmdline (List.prefix_refl _))
            state cmdline
      | delete pid => exact ih'.step_delete pid

theorem tidy_run {jobs : Fin maxJobs → Job} {ops : List JobOp} (hnew : NewPids jobs ops) :
    Tidy (Session.run jobs ops).table := by
  induction ops using List.reverseRecOn with
  | nil => exact tidy_initjobs _
  | append_singleton ops op ih =>
      have ih' := ih fun pre pid state cmdline hpre =>
        hnew pre pid state cmdline (hpre.trans (List.prefix_append ops [op]))
      rw [run_concat]
      cases op with
      | add pid state cmdline =>
          obtain ⟨hpid, hnone⟩ := hnew ops pid state cmdline (List.prefix_refl _)
          rcases addjob_cases (Session.run jobs ops).table hpid state cmdline with
            ⟨i, -, hadd⟩ | ⟨-, hadd⟩
          · simpa [Session.step, hadd] using ih'.addAt (i := i) hpid hnone state cmdline
          · simpa [Session.step, hadd] using ih'
      | delete pid =>
          rcases deletejob_cases (Session.run jobs ops).table pid with ⟨i, -, hdel⟩ | ⟨-, hdel⟩
          · simpa [Session.step, hdel] using ih'.clearAt i
          · simpa [Session.step, hdel] using ih'

/-- **When job IDs identify jobs.**  Over every history from `initjobs` and `nextjid = 1` in which
added pids are new, job IDs identify jobs in every state passed through exactly when the counter
was fresh at every `addjob`. -/
theorem jidsIdentify_iff_freshJid (jobs : Fin maxJobs → Job) (ops : List JobOp)
    (hnew : NewPids jobs ops) :
    (∀ pre, pre <+: ops → JidsIdentify (Session.run jobs pre)) ↔
      ∀ pre pid state cmdline, pre ++ [JobOp.add pid state cmdline] <+: ops →
        FreshJid (Session.run jobs pre).table := by
  constructor
  · intro hid pre pid state cmdline hpre
    obtain ⟨hpid, hnone⟩ := hnew pre pid state cmdline hpre
    have hafter := hid _ hpre
    rw [run_concat] at hafter
    refine freshJid_of_step_add (tidy_run fun pre' pid' state' cmdline' h => ?_) hpid hnone hafter
    exact hnew pre' pid' state' cmdline'
      (h.trans ((List.prefix_append pre _).trans hpre))
  · intro hfresh pre hpre
    refine (sound_run (fun pre' pid state cmdline h => ?_)
      (fun pre' pid state cmdline h => ?_)).jidsIdentify
    · exact hnew pre' pid state cmdline (h.trans hpre)
    · exact hfresh pre' pid state cmdline (h.trans hpre)

/-- A property of the additions of a history, read position by position so that it can be
evaluated. -/
theorem forall_add_of_take {P : List JobOp → ℤ → Prop} {ops : List JobOp}
    (h : ∀ k : Fin ops.length, ∀ pid ∈ (match ops.get k with
      | .add pid _ _ => [pid]
      | .delete _ => []), P (ops.take k) pid) :
    ∀ pre pid state cmdline, pre ++ [JobOp.add pid state cmdline] <+: ops → P pre pid := by
  rintro pre pid state cmdline ⟨post, rfl⟩
  have hlen : pre.length < (pre ++ [JobOp.add pid state cmdline] ++ post).length := by simp
  simpa using h ⟨pre.length, hlen⟩ pid (by simp)

instance : DecidablePred FreshJid := fun t =>
  inferInstanceAs (Decidable ((∃ i, (t.slots i).pid = 0) → _))

/-- The array at start-up: a C global is zero. -/
def zeroJobs : Fin maxJobs → Job :=
  fun _ => { pid := 0, jid := 0, state := .undef, cmdline := [] }

/-- Two jobs, of which the first ends, and a third. -/
def threeJobs : List JobOp := [.add 100 .bg [], .add 101 .fg [], .delete 100, .add 102 .bg []]

theorem jidsIdentify_iff_freshJid_threeJobs : JidsIdentify (Session.run zeroJobs threeJobs) :=
  (jidsIdentify_iff_freshJid zeroJobs threeJobs (forall_add_of_take (by decide +kernel))).2
    (forall_add_of_take (by decide +kernel)) threeJobs (List.prefix_refl _)

/-- Fifteen jobs, of which the second ends, and two more. -/
def seventeenJobs : List JobOp :=
  (List.range 15).map (fun k => .add (100 + k) .bg []) ++
    [.delete 101, .add 115 .bg [], .add 116 .bg []]

/-- **Two live jobs carry the same ID**: the wrapped counter gives the ID of the first job out
again. -/
theorem jid_one_twice :
    ¬ ∀ (jobs : Fin maxJobs → Job) (ops : List JobOp), NewPids jobs ops →
      JidsIdentify (Session.run jobs ops) := by
  intro h
  have hbad := (h zeroJobs seventeenJobs (forall_add_of_take (by decide +kernel))).distinct 0 15
    (by decide +kernel) (by decide +kernel) (by decide +kernel)
  cases hbad

end Tsh
