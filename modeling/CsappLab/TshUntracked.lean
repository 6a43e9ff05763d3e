/-
**Children that the shell loses sight of.**

`addjob` fails when the list is full, but then the child has been forked already: `eval` goes on,
prints a line with the job ID `0`, and returns to the read loop.  The child runs on, and no command
and no handler can name it.  The commands that `eval` has forked are remembered beside the shell,
so that one can say of each what has become of it when `eval` returns.

Main definitions:

* `Tsh.History` — the shell with the commands that were forked;
* `Tsh.NoUntracked` — when `eval` returns every child is in the list.

Main results:

* `Tsh.noUntracked_run` — **no child is left untracked** in a run that never finds the list full;
* `Tsh.untracked_of_full` — one is left whenever the list is found full;
* `Tsh.child_untracked` — a run on which this happens.
-/

import CsappLab.TshReaping
import CsappLab.TshSlots

set_option relaxedAutoImplicit false
set_option autoImplicit false

namespace Tsh

/-! ### The commands that were forked -/

/-- The shell, and the commands that `eval` has forked, with the pid and the value of `bg`. -/
structure History where
  shell : Shell
  forked : List (ℤ × ℤ)

namespace History

/-- Nothing has been forked. -/
def start (t : JobTable) (mask : SigSet) : History where
  shell := Shell.start t mask
  forked := []

/-- The command that an action forks. -/
def forks (s : Shell) : Action → List (ℤ × ℤ)
  | .fork pid =>
      match s.main with
      | .evalFork bg _ _ => if pid < 0 then [] else [(pid, bg)]
      | _ => []
  | _ => []

/-- One action of the shell. -/
def step (h : History) (a : Action) : Option History :=
  (h.shell.step a).map fun s => { shell := s, forked := h.forked ++ forks h.shell a }

end History

/-- **No untracked child**: when `eval` has returned, the pid of a command that was forked is in the
list or has been reaped, and a foreground command is not in the foreground any more; and every child
can be seen in the list. -/
structure NoUntracked (h : History) : Prop where
  tracked : h.shell.main = .ready → ∀ c ∈ h.forked,
    c.1 ∈ h.shell.table.pids ∨ c.1 ∉ h.shell.childPids
  foreground : h.shell.main = .ready → ∀ c ∈ h.forked, c.2 = 0 →
    ∀ i, (h.shell.table.slots i).pid = c.1 → (h.shell.table.slots i).state ≠ .fg
  visible : h.shell.main = .ready → ∀ pid ∈ h.shell.childPids, pid ∈ h.shell.table.pids

/-! ### The invariant -/

/-- **The invariant**: the list keeps up with the children, and what was forked was for the
background. -/
structure Kept (h : History) : Prop where
  tracked : Tracked True h.shell
  proper : h.shell.main.Proper
  background : ∀ c ∈ h.forked, c.2 ≠ 0

theorem kept_start (t : JobTable) (mask : SigSet) : Kept (History.start t mask) where
  tracked := tracked_start t mask
  proper := trivial
  background c hc := by cases hc

theorem Kept.noUntracked {h : History} (hk : Kept h) : NoUntracked h := by
  have hvisible : h.shell.main = .ready → ∀ pid ∈ h.shell.childPids,
      pid ∈ h.shell.table.pids := by
    intro hready pid hpid
    rcases hk.tracked.recorded trivial pid (.inl hpid) with hlisted | hforked
    · exact hlisted
    · rw [hready] at hforked
      cases hforked
  refine ⟨fun hready c _ => ?_, fun _ c hc hfg => absurd hfg (hk.background c hc), hvisible⟩
  by_cases hchild : c.1 ∈ h.shell.childPids
  · exact .inl (hvisible hready c.1 hchild)
  · exact .inr hchild

/-- What is forked is for the background. -/
theorem forks_background {s : Shell} (h : s.main.Proper) (a : Action) :
    ∀ c ∈ History.forks s a, c.2 ≠ 0 := by
  intro c hc
  cases a with
  | fork pid =>
      cases hmain : s.main with
      | evalFork bg line prev =>
          rw [hmain] at h
          simp only [History.forks, hmain] at hc
          split at hc
          · cases hc
          · rw [List.mem_singleton.1 hc]
            exact h
      | _ =>
          simp only [History.forks, hmain] at hc
          cases hc
  | _ => cases hc

/-- **One step** keeps the invariant if a job that is added finds a free slot. -/
theorem Kept.step {h h' : History} (hk : Kept h) {a : Action} (hroom : h.shell.Room)
    (hstep : h.step a = some h') : Kept h' := by
  obtain ⟨s, hs, rfl⟩ := Option.map_eq_some_iff.1 hstep
  refine ⟨hk.tracked.step (fun _ => hroom) hs, proper_step hk.proper hs, fun c hc => ?_⟩
  rcases List.mem_append.1 hc with hc | hc
  · exact hk.background c hc
  · exact forks_background hk.proper a c hc

/-! ### Whole runs -/

/-- **No child is left untracked**, in every state that a run passes through, if a job is only ever
added to a list that has a free slot. -/
theorem noUntracked_run (t : JobTable) (mask : SigSet) (actions : List Action)
    (h : Runs.Along History.step (fun h _ => h.shell.Room) (History.start t mask) actions) :
    Runs.Throughout History.step NoUntracked (History.start t mask) actions := by
  intro pre h' hpre hrun
  exact (Runs.invariant (I := Kept) (fun h a h' hk hroom hstep => hk.step hroom hstep)
    (kept_start t mask) (h.of_prefix hpre) hrun).noUntracked

/-- **Nothing less will do**: a child that finds the list full is not in it when `eval` returns, if
nothing happens to it before. -/
theorem untracked_of_full {h : History} (htracked : Tracked False h.shell)
    (hproper : h.shell.main.Proper) (hidle : h.shell.handlers = []) (hlive : h.shell.exited = false)
    (hfull : ¬ h.shell.Room) :
    ∃ h', [Action.main, .main, .main].foldlM History.step h = some h' ∧ ¬ NoUntracked h' := by
  obtain ⟨s, forked⟩ := h
  dsimp only at htracked hproper hidle hlive hfull
  unfold Shell.Room at hfull
  push Not at hfull
  obtain ⟨hadding, hslots⟩ := hfull
  cases hmain : s.main with
  | evalAddjob bg line prev pid =>
      have hforked : s.main.forked = some pid := by rw [hmain]; rfl
      have hchild : pid ∈ s.childPids := by
        rcases htracked.listed pid (.inr hforked) with hchild | hdue
        · exact hchild
        · rw [hidle] at hdue
          cases hdue
      have hbg : bg ≠ 0 := by
        rw [hmain] at hproper
        exact hproper.1
      have hadd : addjob s.table pid .bg line =
          (s.table, 0, "Tried to create too many jobs\n") := by
        rcases addjob_cases s.table (htracked.pos pid hchild) .bg line with ⟨i, hi, -⟩ | ⟨-, hadd⟩
        · exact absurd hi (hslots i)
        · exact hadd
      refine ⟨⟨{ s with
        mask := prev
        main := .ready
        out := s.out ++ ["Tried to create too many jobs\n"] ++
          [jobLine (pid2jid s.table pid) pid line] }, forked⟩, ?_, fun hno => ?_⟩
      · simp [History.step, History.forks, Shell.step, Shell.stepMain, Shell.idle, Shell.print,
          hidle, hlive, hmain, hadd, hbg]
      · exact htracked.new pid hforked (hno.visible rfl pid hchild)
  | _ => simp [hmain, Main.adding] at hadding

/-- Commands for the background, with the pids from `100` on. -/
def launches (n : ℕ) : List Action :=
  (List.range n).flatMap fun k =>
    [.read ['l', 's', ' ', '&', '\n'], .main, .fork (100 + k), .main, .main, .main, .main]

theorem noUntracked_run_launches :
    ((launches 2).foldlM History.step (History.start startTable fun _ => false)).isSome = true ∧
      Runs.Throughout History.step NoUntracked (History.start startTable fun _ => false)
        (launches 2) :=
  ⟨by decide +kernel,
    noUntracked_run startTable (fun _ => false) (launches 2) (by decide +kernel)⟩

/-- **A child that nobody can see**: the seventeenth. -/
theorem child_untracked : ¬ ∀ (t : JobTable) (mask : SigSet) (actions : List Action),
    Runs.Throughout History.step NoUntracked (History.start t mask) actions := by
  intro h
  have hend : ((launches 17).foldlM History.step (History.start startTable fun _ => false)).any
      (fun h => h.shell.main.isReady &&
        (116 ∈ h.shell.childPids) && (∀ i, (h.shell.table.slots i).pid ≠ 116)) = true := by
    decide +kernel
  obtain ⟨e, hrun, hend⟩ := (Option.any_eq_true _ _).1 hend
  simp only [Bool.and_eq_true, decide_eq_true_eq] at hend
  obtain ⟨⟨hmain, hchild⟩, hslots⟩ := hend
  have hno := h startTable (fun _ => false) (launches 17) (launches 17) e (List.prefix_refl _) hrun
  cases hready : e.shell.main with
  | ready =>
      obtain ⟨-, i, hi⟩ := hno.visible hready 116 hchild
      exact hslots i hi
  | _ => simp [hready, Main.isReady] at hmain

end Tsh
