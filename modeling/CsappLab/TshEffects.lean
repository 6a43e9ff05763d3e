/-
**Children and handlers, one action at a time.**

What any action can do to the children of the shell, and to the stack of running handlers.  A child
goes on with what it was, is forked, or is reaped; the stack grows by a handler at its start, loses
one at its end, or its innermost handler executes one statement.

Main definitions:

* `Tsh.Status.isReported` — the latest stop of a child has been reported;
* `Tsh.Shell.Affects` — the changes to the children;
* `Tsh.Code.Next`, `Tsh.Shell.Stacks` — the statements of the handlers, and the changes to the
  stack;
* `Tsh.Code.notes` — the child whose job a handler is about to update.

Main results:

* `Tsh.Shell.step_affects`, `Tsh.Shell.step_stacks` — every action makes one of these changes.
-/

import CsappLab.TshSteps

set_option relaxedAutoImplicit false
set_option autoImplicit false

namespace Tsh

/-! ### The children -/

/-- The latest stop of a child has been reported. -/
def Status.isReported : Status → Bool
  | .stopped _ reported => reported
  | _ => false

theorem isReported_next {st st' : Status} {event : ChildEvent} (h : st.next event = some st') :
    st'.isReported = false := by
  cases st <;> cases event <;> simp only [Status.next, Option.some.injEq, reduceCtorEq] at h <;>
    subst h <;> rfl

theorem isReported_cont (st : Status) : st.cont.isReported = false := by
  cases st <;> rfl

theorem isReported_stop (sig : ℤ) (st : Status) : (st.stop sig).isReported = st.isReported := by
  cases st <;> rfl

/-- A child goes on: it keeps its pid and its group, and its stop is not reported unless `waitpid`
does so. -/
structure Child.GoesOn (a : Action) (c c' : Child) : Prop where
  pid : c'.pid = c.pid
  grouped : c.grouped = true → c'.grouped = true
  reported : c'.status.isReported = true → c.status.isReported = true ∨ a = .waitpid (some c.pid)

theorem Child.goesOn_self (a : Action) (c : Child) : Child.GoesOn a c c := ⟨rfl, id, .inl⟩

/-- **The changes to the children.** -/
inductive Shell.Affects (s s' : Shell) : Action → Prop where
  /-- All children go on. -/
  | goOn (a : Action) (f : Child → Child) (goesOn : ∀ c, Child.GoesOn a c (f c))
      (children : s'.children = s.children.map f) : Shell.Affects s s' a
  /-- One is forked. -/
  | fork {pid : ℤ} (new : ∀ c ∈ s.children, c.pid ≠ pid)
      (children : s'.children =
        { pid := pid, grouped := false, status := .running } :: s.children) :
      Shell.Affects s s' (.fork pid)
  /-- One is reaped. -/
  | reap {pid : ℤ} (children : s'.children = s.children.filter fun c => c.pid ≠ pid) :
      Shell.Affects s s' (.waitpid (some pid))

/-- The children stay as they are. -/
theorem Shell.Affects.same {s s' : Shell} {a : Action} (h : s'.children = s.children) :
    s.Affects s' a :=
  .goOn a id (Child.goesOn_self a) (by rw [List.map_id, h])

/-- What happens to the rest of the shell makes no difference. -/
theorem Shell.Affects.congr {s s₁ s' : Shell} {a : Action} (h : s.Affects s₁ a)
    (hchildren : s'.children = s₁.children) : s.Affects s' a := by
  cases h with
  | goOn a f goesOn children => exact .goOn a f goesOn (hchildren.trans children)
  | fork new children => exact .fork new (hchildren.trans children)
  | reap children => exact .reap (hchildren.trans children)

/-- A signal is sent to a group. -/
theorem kill_affects {s s' : Shell} {group : ℤ} {effect : Status → Status}
    (heffect : ∀ st, (effect st).isReported = true → st.isReported = true)
    (h : s.kill group effect = some s') (a : Action) : s.Affects s' a := by
  refine .goOn a (fun c => if c.group = group then { c with status := effect c.status } else c)
    (fun c => ?_) (by rw [(kill_some h).2])
  split
  · exact ⟨rfl, id, fun hrep => .inl (heffect c.status hrep)⟩
  · exact Child.goesOn_self a c

/-- The main thread sends `SIGCONT` to a group. -/
theorem stepMain_affects {s s' : Shell} (h : s.stepMain = some s') : s.Affects s' .main := by
  cases stepMain_some h with
  | killed kill main =>
      have haffects := kill_affects (fun st hrep => by
        rw [isReported_cont] at hrep
        cases hrep) kill .main
      exact haffects.congr rfl
  | _ => exact .same rfl

/-- A handler forwards a signal to a group. -/
theorem stepHandler_affects {s s' : Shell} (h : s.stepHandler = some s') :
    s.Affects s' .handler := by
  cases stepHandler_some h with
  | killed effect_eq kill handlers =>
      have haffects := kill_affects (fun st hrep => by
        rcases effect_eq with rfl | rfl
        · exact hrep
        · rwa [isReported_stop] at hrep) kill .handler
      exact haffects.congr rfl
  | _ => exact .same rfl

/-- `waitpid` reaps a child, or marks its stop as reported. -/
theorem waitpid_affects {s s' : Shell} {pid? : Option ℤ} (h : s.waitpid pid? = some s') :
    s.Affects s' (.waitpid pid?) := by
  cases pid? with
  | none =>
      obtain ⟨mask, rest, -, -, rfl⟩ := waitpid_none h
      exact .same rfl
  | some pid =>
      obtain ⟨mask, rest, -, c, -, -, -, rfl⟩ := waitpid_some h
      -- a stopped child stays, any other one is reaped
      cases hst : c.status with
      | stopped sig reported =>
          refine .goOn _ (fun d => if d.pid = pid then
            { d with status := .stopped sig true } else d) (fun d => ?_) rfl
          split
          · rename_i hpid
            exact ⟨rfl, id, fun _ => .inr (by rw [hpid])⟩
          · exact Child.goesOn_self _ d
      | _ => exact .reap rfl

/-- **What an action does to the children.** -/
theorem Shell.step_affects {s s' : Shell} {a : Action} (h : s.step a = some s') :
    s.Affects s' a := by
  unfold Shell.step at h
  split at h
  · cases h
  cases a with
  | read line =>
      obtain ⟨-, h⟩ := idle_some h
      obtain ⟨-, main, exited, out, rfl, -⟩ := read_some h
      exact .same rfl
  | fork pid =>
      obtain ⟨-, h⟩ := idle_some h
      obtain ⟨bg, line, prev, -, ⟨out, rfl⟩ | ⟨-, hnew, rfl⟩⟩ := fork_some h
      · exact .same rfl
      · exact .fork hnew rfl
  | main => exact stepMain_affects (idle_some h).2
  | deliver sig =>
      obtain ⟨-, main, mask, -, -, -, rfl⟩ := deliver_spec h
      exact .same rfl
  | waitpid pid? => exact waitpid_affects h
  | handler => exact stepHandler_affects h
  | send sig =>
      cases h
      exact .same rfl
  | child pid event =>
      obtain ⟨c, st, hnext, rfl⟩ := childEvent_some h
      refine .goOn _ (fun d => if d.pid = pid then
        { d with grouped := d.grouped || event = .setpgid, status := st } else d) (fun d => ?_) rfl
      split
      · -- a state that is new has not been reported
        refine ⟨rfl, fun hgrouped => by simp [hgrouped], fun hrep => ?_⟩
        rw [isReported_next hnext] at hrep
        cases hrep
      · exact Child.goesOn_self _ d

/-! ### The handlers -/

/-- **The statements of the handlers**: where the innermost handler stands before and after. -/
inductive Code.Next (s : Shell) : Action → Code → Code → Prop where
  | report (pid : ℤ) (st : Status) :
      Code.Next s (.waitpid (some pid)) (.chld .wait) (.chld (.block pid st))
  | nothing : Code.Next s (.waitpid none) (.chld .wait) (.chld .done)
  | block (pid : ℤ) (st : Status) :
      Code.Next s .handler (.chld (.block pid st)) (.chld (.update pid st s.mask))
  | update (pid : ℤ) (st : Status) (prev : SigSet) :
      Code.Next s .handler (.chld (.update pid st prev)) (.chld (.restore prev))
  | restore (prev : SigSet) : Code.Next s .handler (.chld (.restore prev)) (.chld .wait)
  | ctrlBlock (key : Ctrl) : Code.Next s .handler (.ctrl key .block) (.ctrl key (.look s.mask))
  | found {key : Ctrl} (prev : SigSet) (found : key.found (fgpid s.table) = true) :
      Code.Next s .handler (.ctrl key (.look prev)) (.ctrl key (.restore prev (fgpid s.table)))
  | notFound (key : Ctrl) (prev : SigSet) :
      Code.Next s .handler (.ctrl key (.look prev)) (.ctrl key .done)
  | ctrlRestore (key : Ctrl) (prev : SigSet) (pid : ℤ) :
      Code.Next s .handler (.ctrl key (.restore prev pid)) (.ctrl key (.kill pid))
  | kill (key : Ctrl) (pid : ℤ) : Code.Next s .handler (.ctrl key (.kill pid)) (.ctrl key .done)

/-- The handler is about to return. -/
def Code.returns : Code → Bool
  | .chld .done => true
  | .ctrl _ .done => true
  | _ => false

/-- The child whose job is to be updated. -/
def Code.notes : Code → Option ℤ
  | .chld (.block pid st) => if st = .running then none else some pid
  | .chld (.update pid st _) => if st = .running then none else some pid
  | _ => none

theorem notes_update {pid : ℤ} {st : Status} {prev : SigSet} (h : st ≠ .running) :
    (Code.chld (.update pid st prev)).notes = some pid := if_neg h

theorem notes_of_returns {code : Code} (h : code.returns = true) : code.notes = none := by
  unfold Code.returns at h
  split at h
  · rfl
  · rfl
  · cases h

/-- **The changes to the stack of handlers.**  While one runs, the mask that the main thread will
see is in the outermost frame. -/
inductive Shell.Stacks (s s' : Shell) : Action → Prop where
  /-- The main thread goes on. -/
  | idle {a : Action} (handlers : s.handlers = []) (handlers' : s'.handlers = [])
      (executes : s.Executes s' a) : Shell.Stacks s s' a
  /-- Nobody goes on. -/
  | same (a : Action) (handlers : s'.handlers = s.handlers) (mask : s'.mask = s.mask)
      (main : s'.main = s.main) : Shell.Stacks s s' a
  /-- A handler starts. -/
  | push (sig : Signal) (main : ∀ prev, s.main ≠ .suspended prev) (main' : s'.main = s.main)
      (handlers : s'.handlers = ⟨s.mask, sig.handler⟩ :: s.handlers) :
      Shell.Stacks s s' (.deliver sig)
  /-- A handler starts and ends a `sigsuspend`. -/
  | wake (sig : Signal) {prev : SigSet} (main : s.main = .suspended prev)
      (main' : s'.main = .waitTest prev)
      (handlers : s'.handlers = ⟨.full, sig.handler⟩ :: s.handlers) :
      Shell.Stacks s s' (.deliver sig)
  /-- The innermost handler goes on. -/
  | move {a : Action} {mask : SigSet} {code code' : Code} {rest : List Frame}
      (next : Code.Next s a code code') (handlers : s.handlers = ⟨mask, code⟩ :: rest)
      (handlers' : s'.handlers = ⟨mask, code'⟩ :: rest) : Shell.Stacks s s' a
  /-- The innermost handler returns. -/
  | pop {f : Frame} {rest : List Frame} (returns : f.code.returns = true)
      (handlers : s.handlers = f :: rest) (handlers' : s'.handlers = rest)
      (mask : s'.mask = f.mask) : Shell.Stacks s s' .handler

/-- A statement of the main thread starts no handler. -/
theorem stepMain_handlers {s s' : Shell} (h : s.stepMain = some s') :
    s'.handlers = s.handlers := by
  cases stepMain_some h with
  | killed kill main => rw [(kill_some kill).2]
  | _ => rfl

/-- A statement of a handler moves it, or returns from it. -/
theorem stepHandler_stacks {s s' : Shell} (h : s.stepHandler = some s') :
    s.Stacks s' .handler := by
  cases stepHandler_some h with
  | block handlers => exact .move (.block _ _) handlers rfl
  | update reap handlers => exact .move (.update _ _ _) handlers rfl
  | restore handlers => exact .move (.restore _) handlers rfl
  | done handlers => exact .pop rfl handlers rfl rfl
  | ctrlBlock handlers => exact .move (.ctrlBlock _) handlers rfl
  | found found handlers => exact .move (.found _ found) handlers rfl
  | notFound notFound handlers => exact .move (.notFound _ _) handlers rfl
  | ctrlRestore handlers => exact .move (.ctrlRestore _ _ _) handlers rfl
  | killed effect_eq kill handlers => exact .move (.kill _ _) handlers rfl
  -- `unix_error` exits, and no frame is left
  | killFailed out kill handlers => exact .same .handler rfl rfl rfl
  | ctrlDone handlers => exact .pop rfl handlers rfl rfl

/-- **What an action does to the stack of handlers.** -/
theorem Shell.step_stacks {s s' : Shell} {a : Action} (h : s.step a = some s') :
    s.Stacks s' a := by
  unfold Shell.step at h
  split at h
  · cases h
  cases a with
  | read line =>
      obtain ⟨hidle, h⟩ := idle_some h
      have hexecutes := Shell.Executes.read h
      obtain ⟨-, main, exited, out, rfl, -⟩ := read_some h
      exact .idle hidle hidle hexecutes
  | fork pid =>
      obtain ⟨hidle, h⟩ := idle_some h
      have hexecutes := Shell.Executes.fork h
      obtain ⟨bg, line, prev, -, ⟨out, rfl⟩ | ⟨-, -, rfl⟩⟩ := fork_some h
      · exact .idle hidle hidle hexecutes
      · exact .idle hidle hidle hexecutes
  | main =>
      obtain ⟨hidle, h⟩ := idle_some h
      exact .idle hidle ((stepMain_handlers h).trans hidle) (.main h)
  | deliver sig =>
      simp only [Shell.deliver] at h
      split at h
      -- a delivery ends a `sigsuspend`, and pushes a frame in any case
      · cases hmain : s.main with
        | suspended prev =>
            simp only [hmain, Option.some.injEq] at h
            subst h
            exact .wake sig hmain rfl rfl
        | _ =>
            simp only [hmain, Option.some.injEq] at h
            subst h
            exact .push sig (by simp [hmain]) (by simp [hmain]) rfl
      · cases h
  | waitpid pid? =>
      cases pid? with
      | none =>
          obtain ⟨mask, rest, hhandlers, -, rfl⟩ := waitpid_none h
          exact .move .nothing hhandlers rfl
      | some pid =>
          obtain ⟨mask, rest, hhandlers, c, -, -, -, rfl⟩ := waitpid_some h
          exact .move (.report pid c.status) hhandlers rfl
  | handler => exact stepHandler_stacks h
  | send sig =>
      cases h
      exact .same _ rfl rfl rfl
  | child pid event =>
      obtain ⟨c, st, -, rfl⟩ := childEvent_some h
      exact .same _ rfl rfl rfl

end Tsh
