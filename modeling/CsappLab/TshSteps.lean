/-
**What one action does to the shell.**

The properties of a whole run are each about a part of the shell.  This module says once what each
action does, and then what any action can do to the main thread and to the job list, so that an
invariant need not look at every statement again.

Main definitions:

* `Tsh.Shell.Statement`, `Tsh.Shell.HandlerStatement` — the statements of the main thread and of
  the handlers, each with the state it leaves;
* `Tsh.Main.Next`, `Tsh.Shell.Executes` — where the main thread goes;
* `Tsh.Shell.Writes` — the writes to the job list.

Main results:

* `Tsh.stepMain_some`, `Tsh.stepHandler_some` — **what one statement does**;
* `Tsh.Shell.step_next` — where the main thread goes;
* `Tsh.Shell.step_writes` — the four statements that write to the job list.
-/

import CsappLab.TshMasks

set_option relaxedAutoImplicit false
set_option autoImplicit false

namespace Tsh

/-! ### Actions of the main thread -/

/-- The actions of the main thread happen only while no handler runs. -/
theorem idle_some {s s' : Shell} {x : Option Shell}
    (h : (if s.idle then x else none) = some s') : s.handlers = [] ∧ x = some s' := by
  split at h
  · rename_i hidle
    exact ⟨List.isEmpty_iff.1 hidle, h⟩
  · cases h

theorem step_waitpid {s s' : Shell} {pid? : Option ℤ} (h : s.step (.waitpid pid?) = some s') :
    s.waitpid pid? = some s' := by
  unfold Shell.step at h
  split at h
  · cases h
  · exact h

theorem step_handler {s s' : Shell} (h : s.step .handler = some s') : s.stepHandler = some s' := by
  unfold Shell.step at h
  split at h
  · cases h
  · exact h

theorem step_fork {s s' : Shell} {pid : ℤ} (h : s.step (.fork pid) = some s') :
    s.handlers = [] ∧ s.fork pid = some s' := by
  unfold Shell.step at h
  split at h
  · cases h
  · exact idle_some h

theorem step_main {s s' : Shell} (h : s.step .main = some s') :
    s.handlers = [] ∧ s.stepMain = some s' := by
  unfold Shell.step at h
  split at h
  · cases h
  · exact idle_some h

/-- What reading a line does: a built-in is run up to its first statement that takes effect. -/
theorem read_some {s s' : Shell} {line : List Char} (h : s.read line = some s') :
    s.main = .ready ∧ ∃ main exited out,
      s' = { s with main := main, exited := exited, out := out } ∧
        (main = .ready ∨ (∃ bg, bg ≠ 0 ∧ main = .evalBlock bg line) ∨
          ∃ i state, (state = .bg ∨ state = .fg) ∧ main = .bgfgKill i state) := by
  unfold Shell.read at h
  cases hmain : s.main with
  | ready =>
      have hready : ∀ exited out, { s with exited := exited, out := out } =
          { s with main := .ready, exited := exited, out := out } := fun _ _ => by rw [← hmain]
      simp only [hmain] at h
      split at h
      · cases h
      cases hparse : parseline line with
      | error fault => simp [hparse] at h
      | ok p =>
          simp only [hparse] at h
          split at h
          · cases h
            exact ⟨rfl, .ready, _, _, hready _ _, .inl rfl⟩
          rename_i hbg
          cases hargs : p.args with
          | nil => simp [hargs] at h
          | cons cmd args =>
              simp only [hargs] at h
              split at h
              · cases h
                exact ⟨rfl, .ready, _, _, rfl, .inl rfl⟩
              split at h
              · cases h
                exact ⟨rfl, .ready, _, _, hready _ _, .inl rfl⟩
              split at h
              · cases h
                exact ⟨rfl, .ready, _, _, hready _ _, .inl rfl⟩
              split at h
              · unfold Shell.startBgfg at h
                cases args with
                | nil =>
                    cases h
                    exact ⟨rfl, .ready, _, _, hready _ _, .inl rfl⟩
                | cons arg rest =>
                    cases hjob : bgfgJob s.table cmd arg with
                    | error msg =>
                        simp only [hjob, Option.some.injEq] at h
                        exact ⟨rfl, .ready, _, _, h.symm.trans (hready _ _), .inl rfl⟩
                    | ok job =>
                        cases job with
                        | none => simp [hjob] at h
                        | some i =>
                            simp only [hjob, Option.some.injEq] at h
                            refine ⟨rfl, _, _, _, h.symm, .inr (.inr ⟨i, _, ?_, rfl⟩)⟩
                            split
                            · exact .inl rfl
                            · exact .inr rfl
              · cases h
                exact ⟨rfl, _, _, _, rfl, .inr (.inl ⟨p.bg, hbg, rfl⟩)⟩
  | _ => simp [hmain] at h

/-- What `fork` does. -/
theorem fork_some {s s' : Shell} {pid : ℤ} (h : s.fork pid = some s') :
    ∃ bg line prev, s.main = .evalFork bg line prev ∧
      ((∃ out, s' = { s with main := .ready, out := out }) ∨
        1 ≤ pid ∧ (∀ c ∈ s.children, c.pid ≠ pid) ∧ s' = { s with
          children := { pid := pid, grouped := false, status := .running } :: s.children
          main := .evalBlockAll bg line prev pid }) := by
  unfold Shell.fork at h
  cases hmain : s.main with
  | evalFork bg line prev =>
      simp only [hmain] at h
      refine ⟨bg, line, prev, rfl, ?_⟩
      split at h
      · exact .inl ⟨_, (Option.some.inj h).symm⟩
      · rename_i hneg
        split at h
        · cases h
        · rename_i hnew
          push Not at hnew
          have := hnew.1
          exact .inr ⟨by omega, hnew.2, (Option.some.inj h).symm⟩
  | _ => simp [hmain] at h

/-- A successful `kill` changes nothing but the states of children. -/
theorem kill_some {s s' : Shell} {group : ℤ} {effect : Status → Status}
    (h : s.kill group effect = some s') :
    (group = 0 ∨ ∃ c ∈ s.children, c.group = group) ∧ s' = { s with
      children := s.children.map fun c =>
        if c.group = group then { c with status := effect c.status } else c
      pending :=
        if ∃ c ∈ s.children, c.group = group ∧ effect c.status ≠ c.status
        then s.pending.add .chld else s.pending } := by
  unfold Shell.kill at h
  split at h
  · rename_i hgroup
    exact ⟨hgroup, (Option.some.inj h).symm⟩
  · cases h

/-- **The statements of the main thread**, and the state each of them leaves. -/
inductive Shell.Statement (s : Shell) : Shell → Prop where
  | evalBlock {bg : ℤ} {line : List Char} (main : s.main = .evalBlock bg line) :
      Shell.Statement s { s with mask := s.mask.add .chld, main := .evalFork bg line s.mask }
  | evalBlockAll {bg pid : ℤ} {line : List Char} {prev : SigSet}
      (main : s.main = .evalBlockAll bg line prev pid) :
      Shell.Statement s { s with mask := .full, main := .evalAddjob bg line prev pid }
  | evalAddjob {bg pid : ℤ} {line : List Char} {prev : SigSet} (out : List String)
      (main : s.main = .evalAddjob bg line prev pid) :
      Shell.Statement s { s with
        table := (addjob s.table pid (if bg = 0 then .fg else .bg) line).1
        main := .evalRestore bg line prev pid
        out := out }
  | foreground {pid : ℤ} {line : List Char} {prev : SigSet}
      (main : s.main = .evalRestore 0 line prev pid) :
      Shell.Statement s { s with mask := prev, main := .waitBlock }
  | background {bg pid : ℤ} {line : List Char} {prev : SigSet} (bg_ne : bg ≠ 0)
      (main : s.main = .evalRestore bg line prev pid) :
      Shell.Statement s { s with mask := prev, main := .evalReport line pid }
  | evalReport {pid : ℤ} {line : List Char} (out : List String)
      (main : s.main = .evalReport line pid) :
      Shell.Statement s { s with main := .ready, out := out }
  | killFailed {i : Fin maxJobs} {state : JobState} (out : List String)
      (main : s.main = .bgfgKill i state) : Shell.Statement s { s with main := .ready, out := out }
  | killed {i : Fin maxJobs} {state : JobState} {s₁ : Shell}
      (kill : s.kill (s.table.slots i).pid Status.cont = some s₁)
      (main : s.main = .bgfgKill i state) :
      Shell.Statement s { s₁ with main := .bgfgState i state }
  | bgfgState {i : Fin maxJobs} {state : JobState} (main : s.main = .bgfgState i state) :
      Shell.Statement s { s with
        table := s.table.setSlot i { s.table.slots i with state := state }
        main := .bgfgReport i state }
  | bgReport {i : Fin maxJobs} (out : List String) (main : s.main = .bgfgReport i .bg) :
      Shell.Statement s { s with main := .ready, out := out }
  | fgReport {i : Fin maxJobs} {state : JobState} (state_ne : state ≠ .bg)
      (main : s.main = .bgfgReport i state) : Shell.Statement s { s with main := .waitBlock }
  | waitBlock (main : s.main = .waitBlock) :
      Shell.Statement s { s with mask := .full, main := .waitTest s.mask }
  | suspend {prev : SigSet} (found : 0 < fgpid s.table) (main : s.main = .waitTest prev) :
      Shell.Statement s { s with mask := prev, main := .suspended prev }
  | leave {prev : SigSet} (notFound : ¬ 0 < fgpid s.table) (main : s.main = .waitTest prev) :
      Shell.Statement s { s with main := .waitRestore prev }
  | waitRestore {prev : SigSet} (main : s.main = .waitRestore prev) :
      Shell.Statement s { s with mask := prev, main := .ready }

/-- **What a statement of the main thread does.** -/
theorem stepMain_some {s s' : Shell} (h : s.stepMain = some s') : s.Statement s' := by
  cases hmain : s.main with
  | ready => simp [Shell.stepMain, hmain] at h
  | evalFork bg line prev => simp [Shell.stepMain, hmain] at h
  | suspended prev => simp [Shell.stepMain, hmain] at h
  | evalBlock bg line =>
      simp only [Shell.stepMain, hmain, Option.some.injEq] at h
      exact h ▸ .evalBlock hmain
  | evalBlockAll bg line prev pid =>
      simp only [Shell.stepMain, hmain, Option.some.injEq] at h
      exact h ▸ .evalBlockAll hmain
  | evalAddjob bg line prev pid =>
      simp only [Shell.stepMain, hmain, Option.some.injEq] at h
      -- what is printed makes no difference
      obtain ⟨out, hout⟩ : ∃ out, s' = { s with
          table := (addjob s.table pid (if bg = 0 then .fg else .bg) line).1
          main := .evalRestore bg line prev pid
          out := out } := by
        generalize addjob s.table pid (if bg = 0 then .fg else .bg) line = added at h ⊢
        refine ⟨(if added.2.2 = "" then s else s.print added.2.2).out, h.symm.trans ?_⟩
        split <;> rfl
      exact hout ▸ .evalAddjob out hmain
  | evalRestore bg line prev pid =>
      simp only [Shell.stepMain, hmain, Option.some.injEq] at h
      by_cases hbg : bg = 0
      · subst hbg
        exact h ▸ .foreground hmain
      · rw [if_neg hbg] at h
        exact h ▸ .background hbg hmain
  | evalReport line pid =>
      simp only [Shell.stepMain, hmain, Option.some.injEq] at h
      exact h ▸ .evalReport _ hmain
  | bgfgKill i state =>
      cases hkill : s.kill (s.table.slots i).pid Status.cont with
      | none =>
          simp only [Shell.stepMain, hmain, hkill, Option.some.injEq] at h
          exact h ▸ .killFailed _ hmain
      | some s₁ =>
          simp only [Shell.stepMain, hmain, hkill, Option.some.injEq] at h
          exact h ▸ .killed hkill hmain
  | bgfgState i state =>
      simp only [Shell.stepMain, hmain, Option.some.injEq] at h
      exact h ▸ .bgfgState hmain
  | bgfgReport i state =>
      simp only [Shell.stepMain, hmain] at h
      split at h
      · rename_i hstate
        subst hstate
        cases h
        exact .bgReport _ hmain
      · rename_i hstate
        cases h
        exact .fgReport hstate hmain
  | waitBlock =>
      simp only [Shell.stepMain, hmain, Option.some.injEq] at h
      exact h ▸ .waitBlock hmain
  | waitTest prev =>
      simp only [Shell.stepMain, hmain] at h
      split at h
      · rename_i hfound
        cases h
        exact .suspend hfound hmain
      · rename_i hfound
        cases h
        exact .leave hfound hmain
  | waitRestore prev =>
      simp only [Shell.stepMain, hmain, Option.some.injEq] at h
      exact h ▸ .waitRestore hmain

/-! ### Signals and children -/

/-- What the start of a handler does: the main thread at most leaves `sigsuspend`. -/
theorem deliver_spec {s s' : Shell} {sig : Signal} (h : s.deliver sig = some s') :
    s.mask sig = false ∧ ∃ main mask, main.critical = s.main.critical ∧
      main.forked = s.main.forked ∧ (s.mask .chld = true → mask .chld = true) ∧
      s' = { s with
        pending := s.pending.remove sig
        mask := s.mask.add sig
        main := main
        handlers := ⟨mask, sig.handler⟩ :: s.handlers } := by
  unfold Shell.deliver at h
  split at h
  · rename_i hcan
    obtain ⟨-, hmask⟩ : s.pending sig = true ∧ s.mask sig = false := by simpa using hcan
    refine ⟨hmask, ?_⟩
    cases hmain : s.main with
    | suspended prev =>
        simp only [hmain, Option.some.injEq] at h
        exact ⟨.waitTest prev, .full, rfl, rfl, fun _ => rfl, h.symm⟩
    | _ =>
        simp only [hmain, Option.some.injEq] at h
        exact ⟨_, _, rfl, rfl, id, h.symm⟩
  · cases h

/-- What a successful `waitpid` does. -/
theorem waitpid_some {s s' : Shell} {pid : ℤ} (h : s.waitpid (some pid) = some s') :
    ∃ mask rest, s.handlers = ⟨mask, .chld .wait⟩ :: rest ∧
      ∃ c ∈ s.children, c.pid = pid ∧ c.status.reportable = true ∧
        s' = { s with
          children :=
            match c.status with
            | .stopped sig _ => s.children.map fun d =>
                if d.pid = pid then { d with status := .stopped sig true } else d
            | _ => s.children.filter fun d => d.pid ≠ pid
          handlers := ⟨mask, .chld (.block pid c.status)⟩ :: rest } := by
  unfold Shell.waitpid at h
  split at h
  · rename_i mask rest hhandlers
    cases hfind : s.children.find? fun c => c.pid = pid && c.status.reportable with
    | none => simp [hfind] at h
    | some c =>
        simp only [hfind, Option.some.injEq] at h
        have hc := List.find?_some hfind
        simp only [Bool.and_eq_true, decide_eq_true_eq] at hc
        exact ⟨mask, rest, hhandlers, c, List.mem_of_find?_eq_some hfind, hc.1, hc.2, h.symm⟩
  · cases h

/-- What a `waitpid` with nothing to report does. -/
theorem waitpid_none {s s' : Shell} (h : s.waitpid none = some s') :
    ∃ mask rest, s.handlers = ⟨mask, .chld .wait⟩ :: rest ∧
      (¬ ∃ c ∈ s.children, c.status.reportable = true) ∧
        s' = { s with handlers := ⟨mask, .chld .done⟩ :: rest } := by
  unfold Shell.waitpid at h
  split at h
  · rename_i mask rest hhandlers
    simp only at h
    split at h
    · cases h
    · rename_i hnone
      exact ⟨mask, rest, hhandlers, hnone, (Option.some.inj h).symm⟩
  · cases h

/-- Something happens to a child. -/
theorem childEvent_some {s s' : Shell} {pid : ℤ} {event : ChildEvent}
    (h : s.childEvent pid event = some s') :
    ∃ (c : Child) (st : Status), c.status.next event = some st ∧ s' = { s with
      children := s.children.map fun d =>
        if d.pid = pid then { d with grouped := d.grouped || event = .setpgid, status := st } else d
      pending := if event = .setpgid then s.pending else s.pending.add .chld } := by
  unfold Shell.childEvent at h
  cases hfind : s.children.find? fun c => c.pid = pid with
  | none => simp [hfind] at h
  | some c =>
      cases hnext : c.status.next event with
      | none => simp [hfind, hnext] at h
      | some st =>
          simp only [hfind, hnext, Option.map_some, Option.some.injEq] at h
          exact ⟨c, st, hnext, h.symm⟩

/-- `sigchld_handler` updates the job list, and does no more. -/
theorem reap_eq (s : Shell) (pid : ℤ) (st : Status) :
    ∃ t out, s.reap pid st = { s with table := t, out := out } ∧
      (t = s.table ∧ st = .running ∨
        st.zombie = true ∧ t = (deletejob s.table pid).1 ∨
        ∃ sig reported, st = .stopped sig reported ∧
          (getjobpid s.table pid = none ∧ t = s.table ∨
            ∃ i, getjobpid s.table pid = some i ∧
              t = s.table.setSlot i { s.table.slots i with state := .st })) := by
  cases st with
  | running => exact ⟨_, _, rfl, .inl ⟨rfl, rfl⟩⟩
  | exited code => exact ⟨_, _, rfl, .inr (.inl ⟨rfl, rfl⟩)⟩
  | signaled sig => exact ⟨_, _, rfl, .inr (.inl ⟨rfl, rfl⟩)⟩
  | stopped sig reported =>
      -- the job of a stopped child may be missing when the list was full
      cases hget : getjobpid s.table pid with
      | none =>
          refine ⟨s.table, (s.reap pid (.stopped sig reported)).out, ?_,
            .inr (.inr ⟨sig, reported, rfl, .inl ⟨rfl, rfl⟩⟩)⟩
          simp only [Shell.reap, Shell.print, hget]
      | some i =>
          refine ⟨_, (s.reap pid (.stopped sig reported)).out, ?_,
            .inr (.inr ⟨sig, reported, rfl, .inr ⟨i, rfl, rfl⟩⟩)⟩
          simp only [Shell.reap, Shell.print, hget]

/-- Both forwarding handlers send a signal to a group, which at most stops its members. -/
theorem forward_eq (s : Shell) (pid : ℤ) (key : Ctrl) :
    ∃ effect msg, (effect = id ∨ effect = Status.stop 19) ∧
      s.forward pid key = (s.kill pid effect, msg) := by
  cases key with
  | int => exact ⟨id, _, .inl rfl, rfl⟩
  | tstp => exact ⟨Status.stop 19, _, .inr rfl, rfl⟩

/-- **The statements of the handlers**, `waitpid` apart, and the state each of them leaves. -/
inductive Shell.HandlerStatement (s : Shell) : Shell → Prop where
  | block {mask : SigSet} {pid : ℤ} {st : Status} {rest : List Frame}
      (handlers : s.handlers = ⟨mask, .chld (.block pid st)⟩ :: rest) :
      Shell.HandlerStatement s { s with
        mask := .full, handlers := ⟨mask, .chld (.update pid st s.mask)⟩ :: rest }
  /-- What was reaped decides what becomes of the job list. -/
  | update {mask prev : SigSet} {pid : ℤ} {st : Status} {rest : List Frame} {t : JobTable}
      {out : List String} (reap : s.reap pid st = { s with table := t, out := out })
      (handlers : s.handlers = ⟨mask, .chld (.update pid st prev)⟩ :: rest) :
      Shell.HandlerStatement s { s with
        table := t, out := out, handlers := ⟨mask, .chld (.restore prev)⟩ :: rest }
  | restore {mask prev : SigSet} {rest : List Frame}
      (handlers : s.handlers = ⟨mask, .chld (.restore prev)⟩ :: rest) :
      Shell.HandlerStatement s { s with mask := prev, handlers := ⟨mask, .chld .wait⟩ :: rest }
  | done {mask : SigSet} {rest : List Frame} (handlers : s.handlers = ⟨mask, .chld .done⟩ :: rest) :
      Shell.HandlerStatement s { s with mask := mask, handlers := rest }
  | ctrlBlock {mask : SigSet} {key : Ctrl} {rest : List Frame}
      (handlers : s.handlers = ⟨mask, .ctrl key .block⟩ :: rest) :
      Shell.HandlerStatement s { s with
        mask := .full, handlers := ⟨mask, .ctrl key (.look s.mask)⟩ :: rest }
  | found {mask prev : SigSet} {key : Ctrl} {rest : List Frame}
      (found : key.found (fgpid s.table) = true)
      (handlers : s.handlers = ⟨mask, .ctrl key (.look prev)⟩ :: rest) :
      Shell.HandlerStatement s { s with
        handlers := ⟨mask, .ctrl key (.restore prev (fgpid s.table))⟩ :: rest }
  | notFound {mask prev : SigSet} {key : Ctrl} {rest : List Frame}
      (notFound : key.found (fgpid s.table) = false)
      (handlers : s.handlers = ⟨mask, .ctrl key (.look prev)⟩ :: rest) :
      Shell.HandlerStatement s { s with handlers := ⟨mask, .ctrl key .done⟩ :: rest }
  | ctrlRestore {mask prev : SigSet} {key : Ctrl} {pid : ℤ} {rest : List Frame}
      (handlers : s.handlers = ⟨mask, .ctrl key (.restore prev pid)⟩ :: rest) :
      Shell.HandlerStatement s { s with
        mask := prev, handlers := ⟨mask, .ctrl key (.kill pid)⟩ :: rest }
  | killed {mask : SigSet} {key : Ctrl} {pid : ℤ} {rest : List Frame} {effect : Status → Status}
      {s₁ : Shell} (effect_eq : effect = id ∨ effect = Status.stop 19)
      (kill : s.kill pid effect = some s₁)
      (handlers : s.handlers = ⟨mask, .ctrl key (.kill pid)⟩ :: rest) :
      Shell.HandlerStatement s { s₁ with handlers := ⟨mask, .ctrl key .done⟩ :: rest }
  /-- `unix_error` exits. -/
  | killFailed {mask : SigSet} {key : Ctrl} {pid : ℤ} {rest : List Frame}
      {effect : Status → Status} (out : List String) (kill : s.kill pid effect = none)
      (handlers : s.handlers = ⟨mask, .ctrl key (.kill pid)⟩ :: rest) :
      Shell.HandlerStatement s { s with exited := true, out := out }
  | ctrlDone {mask : SigSet} {key : Ctrl} {rest : List Frame}
      (handlers : s.handlers = ⟨mask, .ctrl key .done⟩ :: rest) :
      Shell.HandlerStatement s { s with mask := mask, handlers := rest }

/-- **What a statement of a handler does.** -/
theorem stepHandler_some {s s' : Shell} (h : s.stepHandler = some s') : s.HandlerStatement s' := by
  unfold Shell.stepHandler at h
  split at h
  · cases h
  · rename_i mask pc rest hhandlers
    cases pc with
    | wait => cases h
    | block pid st =>
        cases h
        exact .block hhandlers
    | update pid st prev =>
        obtain ⟨t, out, hreap, -⟩ := reap_eq s pid st
        simp only [hreap] at h
        cases h
        exact .update hreap hhandlers
    | restore prev =>
        cases h
        exact .restore hhandlers
    | done =>
        cases h
        exact .done hhandlers
  · rename_i mask key pc rest hhandlers
    cases pc with
    | block =>
        cases h
        exact .ctrlBlock hhandlers
    | look prev =>
        cases hfound : key.found (fgpid s.table) with
        | false =>
            simp only [hfound] at h
            cases h
            exact .notFound hfound hhandlers
        | true =>
            simp only [hfound] at h
            cases h
            exact .found hfound hhandlers
    | restore prev pid =>
        cases h
        exact .ctrlRestore hhandlers
    | kill pid =>
        obtain ⟨effect, msg, heffect, hforward⟩ := forward_eq s pid key
        cases hkill : s.kill pid effect with
        | none =>
            simp only [hforward, hkill] at h
            cases h
            exact .killFailed _ hkill hhandlers
        | some s₁ =>
            simp only [hforward, hkill] at h
            cases h
            exact .killed heffect hkill hhandlers
    | done =>
        cases h
        exact .ctrlDone hhandlers

/-! ### Where the main thread stands -/

/-- A handler leaves the main thread where it is. -/
theorem stepHandler_main {s s' : Shell} (h : s.stepHandler = some s') : s'.main = s.main := by
  cases stepHandler_some h with
  | killed effect_eq kill handlers => rw [(kill_some kill).2]
  | _ => rfl

/-- The main thread executes a statement. -/
inductive Shell.Executes (s s' : Shell) : Action → Prop where
  | read {line : List Char} (h : s.read line = some s') : Shell.Executes s s' (.read line)
  | fork {pid : ℤ} (h : s.fork pid = some s') : Shell.Executes s s' (.fork pid)
  | main (h : s.stepMain = some s') : Shell.Executes s s' .main

/-- **The statements of the main thread**: where it stands before and after. -/
inductive Main.Next (s : Shell) : Action → Main → Main → Prop where
  | stay (a : Action) (main : Main) : Main.Next s a main main
  | wake (sig : Signal) (prev : SigSet) :
      Main.Next s (.deliver sig) (.suspended prev) (.waitTest prev)
  | external {bg : ℤ} (line : List Char) (bg_ne : bg ≠ 0) :
      Main.Next s (.read line) .ready (.evalBlock bg line)
  | bgfg {state : JobState} (line : List Char) (i : Fin maxJobs)
      (state_eq : state = .bg ∨ state = .fg) :
      Main.Next s (.read line) .ready (.bgfgKill i state)
  | forkFailed (bg pid : ℤ) (line : List Char) (prev : SigSet) :
      Main.Next s (.fork pid) (.evalFork bg line prev) .ready
  | forked {pid : ℤ} (bg : ℤ) (line : List Char) (prev : SigSet) (pos : 1 ≤ pid) :
      Main.Next s (.fork pid) (.evalFork bg line prev) (.evalBlockAll bg line prev pid)
  | evalBlock (bg : ℤ) (line : List Char) :
      Main.Next s .main (.evalBlock bg line) (.evalFork bg line s.mask)
  | evalBlockAll (bg pid : ℤ) (line : List Char) (prev : SigSet) :
      Main.Next s .main (.evalBlockAll bg line prev pid) (.evalAddjob bg line prev pid)
  | evalAddjob (bg pid : ℤ) (line : List Char) (prev : SigSet) :
      Main.Next s .main (.evalAddjob bg line prev pid) (.evalRestore bg line prev pid)
  | foreground (pid : ℤ) (line : List Char) (prev : SigSet) :
      Main.Next s .main (.evalRestore 0 line prev pid) .waitBlock
  | background {bg : ℤ} (pid : ℤ) (line : List Char) (prev : SigSet) (bg_ne : bg ≠ 0) :
      Main.Next s .main (.evalRestore bg line prev pid) (.evalReport line pid)
  | evalReport (pid : ℤ) (line : List Char) : Main.Next s .main (.evalReport line pid) .ready
  | killFailed (i : Fin maxJobs) (state : JobState) :
      Main.Next s .main (.bgfgKill i state) .ready
  | killed {i : Fin maxJobs} (state : JobState)
      (group : (s.table.slots i).pid = 0 ∨ ∃ c ∈ s.children, c.group = (s.table.slots i).pid) :
      Main.Next s .main (.bgfgKill i state) (.bgfgState i state)
  | bgfgState (i : Fin maxJobs) (state : JobState) :
      Main.Next s .main (.bgfgState i state) (.bgfgReport i state)
  | bgReport (i : Fin maxJobs) : Main.Next s .main (.bgfgReport i .bg) .ready
  | fgReport {state : JobState} (i : Fin maxJobs) (state_ne : state ≠ .bg) :
      Main.Next s .main (.bgfgReport i state) .waitBlock
  | waitBlock : Main.Next s .main .waitBlock (.waitTest s.mask)
  | suspend (prev : SigSet) (found : 0 < fgpid s.table) :
      Main.Next s .main (.waitTest prev) (.suspended prev)
  | leave (prev : SigSet) (notFound : ¬ 0 < fgpid s.table) :
      Main.Next s .main (.waitTest prev) (.waitRestore prev)
  | waitRestore (prev : SigSet) : Main.Next s .main (.waitRestore prev) .ready

theorem stepMain_next {s s' : Shell} (h : s.stepMain = some s') :
    Main.Next s .main s.main s'.main := by
  cases stepMain_some h with
  | evalBlock main => exact main ▸ .evalBlock _ _
  | evalBlockAll main => exact main ▸ .evalBlockAll _ _ _ _
  | evalAddjob out main => exact main ▸ .evalAddjob _ _ _ _
  | foreground main => exact main ▸ .foreground _ _ _
  | background bg_ne main => exact main ▸ .background _ _ _ bg_ne
  | evalReport out main => exact main ▸ .evalReport _ _
  | killFailed out main => exact main ▸ .killFailed _ _
  | killed kill main => exact main ▸ .killed _ (kill_some kill).1
  | bgfgState main => exact main ▸ .bgfgState _ _
  | bgReport out main => exact main ▸ .bgReport _
  | fgReport state_ne main => exact main ▸ .fgReport _ state_ne
  | waitBlock main => exact main ▸ .waitBlock
  | suspend found main => exact main ▸ .suspend _ found
  | leave notFound main => exact main ▸ .leave _ notFound
  | waitRestore main => exact main ▸ .waitRestore _

/-- **What an action does to the main thread.** -/
theorem Shell.step_next {s s' : Shell} {a : Action} (h : s.step a = some s') :
    ∃ main main', s.main = main ∧ s'.main = main' ∧ Main.Next s a main main' := by
  refine ⟨s.main, s'.main, rfl, rfl, ?_⟩
  unfold Shell.step at h
  split at h
  · cases h
  cases a with
  | read line =>
      obtain ⟨-, h⟩ := idle_some h
      obtain ⟨hmain, main, exited, out, rfl, rfl | ⟨bg, hbg, rfl⟩ | ⟨i, state, hstate, rfl⟩⟩ :=
        read_some h
      · rw [hmain]
        exact .stay _ _
      · rw [hmain]
        exact .external line hbg
      · rw [hmain]
        exact .bgfg line i hstate
  | fork pid =>
      obtain ⟨-, h⟩ := idle_some h
      obtain ⟨bg, line, prev, hmain, ⟨out, rfl⟩ | ⟨hpid, -, rfl⟩⟩ := fork_some h
      · rw [hmain]
        exact .forkFailed bg pid line prev
      · rw [hmain]
        exact .forked bg line prev hpid
  | main =>
      obtain ⟨-, h⟩ := idle_some h
      exact stepMain_next h
  | deliver sig =>
      simp only [Shell.deliver] at h
      split at h
      -- of all signals that arrive only one that ends a `sigsuspend` moves the main thread
      · cases hmain : s.main with
        | suspended prev =>
            simp only [hmain, Option.some.injEq] at h
            exact h ▸ .wake sig prev
        | _ =>
            simp only [hmain, Option.some.injEq] at h
            exact h ▸ .stay _ _
      · cases h
  | waitpid pid? =>
      cases pid? with
      | none =>
          obtain ⟨mask, rest, -, -, rfl⟩ := waitpid_none h
          exact .stay _ _
      | some pid =>
          obtain ⟨mask, rest, -, c, -, -, -, rfl⟩ := waitpid_some h
          exact .stay _ _
  | handler =>
      rw [stepHandler_main h]
      exact .stay _ _
  | send sig =>
      cases h
      exact .stay _ _
  | child pid event =>
      obtain ⟨c, st, -, rfl⟩ := childEvent_some h
      exact .stay _ _

/-! ### The job list -/

/-- **The writes to the job list.** -/
inductive Shell.Writes (s s' : Shell) : Action → Prop where
  | nothing (a : Action) (table : s'.table = s.table) : Shell.Writes s s' a
  /-- `eval` adds a job. -/
  | addjob {bg pid : ℤ} {line : List Char} {prev : SigSet} (idle : s.handlers = [])
      (main : s.main = .evalAddjob bg line prev pid)
      (main' : s'.main = .evalRestore bg line prev pid)
      (table : s'.table = (Tsh.addjob s.table pid (if bg = 0 then .fg else .bg) line).1) :
      Shell.Writes s s' .main
  /-- `do_bgfg` sets the state of a job. -/
  | setState {i : Fin maxJobs} {state : JobState} (idle : s.handlers = [])
      (main : s.main = .bgfgState i state) (main' : s'.main = .bgfgReport i state)
      (table : s'.table = s.table.setSlot i { s.table.slots i with state := state }) :
      Shell.Writes s s' .main
  /-- `sigchld_handler` deletes a job. -/
  | deletejob {mask prev : SigSet} {pid : ℤ} {st : Status} {rest : List Frame}
      (handlers : s.handlers = ⟨mask, .chld (.update pid st prev)⟩ :: rest)
      (zombie : st.zombie = true) (main' : s'.main = s.main)
      (table : s'.table = (Tsh.deletejob s.table pid).1) : Shell.Writes s s' .handler
  /-- `sigchld_handler` marks a job as stopped. -/
  | stop {mask prev : SigSet} {pid sig : ℤ} {reported : Bool} {rest : List Frame}
      {i : Fin maxJobs}
      (handlers : s.handlers = ⟨mask, .chld (.update pid (.stopped sig reported) prev)⟩ :: rest)
      (found : getjobpid s.table pid = some i) (main' : s'.main = s.main)
      (table : s'.table = s.table.setSlot i { s.table.slots i with state := .st }) :
      Shell.Writes s s' .handler

/-- The main thread writes to the job list in two places. -/
theorem stepMain_writes {s s' : Shell} (hidle : s.handlers = []) (h : s.stepMain = some s') :
    s.Writes s' .main := by
  cases stepMain_some h with
  | evalAddjob out main => exact .addjob hidle main rfl rfl
  | bgfgState main => exact .setState hidle main rfl rfl
  | killed kill main =>
      rw [(kill_some kill).2]
      exact .nothing .main rfl
  | _ => exact .nothing .main rfl

/-- A handler writes to the job list in two places. -/
theorem stepHandler_writes {s s' : Shell} (h : s.stepHandler = some s') :
    s.Writes s' .handler := by
  cases stepHandler_some h with
  | @update mask prev pid st rest t out reap handlers =>
      obtain ⟨t', out', hreap, hcase⟩ := reap_eq s pid st
      have htable : t = t' := congrArg Shell.table (reap.symm.trans hreap)
      subst htable
      rcases hcase with ⟨rfl, -⟩ | ⟨hst, rfl⟩ | ⟨sig, reported, rfl, ⟨-, rfl⟩ | ⟨i, hi, rfl⟩⟩
      · exact .nothing .handler rfl
      · exact .deletejob handlers hst rfl rfl
      · exact .nothing .handler rfl
      · exact .stop handlers hi rfl rfl
  | killed effect_eq kill handlers =>
      rw [(kill_some kill).2]
      exact .nothing .handler rfl
  | _ => exact .nothing .handler rfl

/-- **Who writes to the job list**: `eval`, `do_bgfg`, and `sigchld_handler` in two places. -/
theorem Shell.step_writes {s s' : Shell} {a : Action} (h : s.step a = some s') :
    s.Writes s' a := by
  unfold Shell.step at h
  split at h
  · cases h
  cases a with
  | read line =>
      obtain ⟨-, h⟩ := idle_some h
      obtain ⟨-, main, exited, out, rfl, -⟩ := read_some h
      exact .nothing _ rfl
  | fork pid =>
      obtain ⟨-, h⟩ := idle_some h
      obtain ⟨bg, line, prev, -, ⟨out, rfl⟩ | ⟨-, -, rfl⟩⟩ := fork_some h
      · exact .nothing _ rfl
      · exact .nothing _ rfl
  | main =>
      obtain ⟨hidle, h⟩ := idle_some h
      exact stepMain_writes hidle h
  | deliver sig =>
      obtain ⟨-, main, mask, -, -, -, rfl⟩ := deliver_spec h
      exact .nothing _ rfl
  | waitpid pid? =>
      cases pid? with
      | none =>
          obtain ⟨mask, rest, -, -, rfl⟩ := waitpid_none h
          exact .nothing _ rfl
      | some pid =>
          obtain ⟨mask, rest, -, c, -, -, -, rfl⟩ := waitpid_some h
          exact .nothing _ rfl
  | handler => exact stepHandler_writes h
  | send sig =>
      cases h
      exact .nothing _ rfl
  | child pid event =>
      obtain ⟨c, st, -, rfl⟩ := childEvent_some h
      exact .nothing _ rfl

end Tsh
