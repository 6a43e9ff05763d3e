/-
**Evaluating a command line.**

`eval` parses a line, runs a built-in at once, and forks a child for anything else.  The model
runs it against one answer of the system (the pid `fork` returns, whether `execve` and `kill`
succeed) and records what it does: text printed, signal masks, the child, the wait.  Signal
handlers are not part of this module; `waitfg` is recorded as a call.

The specification of a command line gives each line the effect the assignment asks for: nothing on
a blank line, the built-in, or one child and one new job, in the background iff the line ends with
the word `&`.  The code dispatches only the lines whose last word starts with `&`, because
`parseline` returns `0` for a foreground job and `eval` takes that as a blank line; for a line
without words `parseline` returns `1` and `eval` hands `builtin_cmd` a null pointer.

Main definitions:

* `Tsh.eval`, `Tsh.builtinCmd`, `Tsh.doBgfg` — the functions of the source;
* `Tsh.Dispatched` — the effect a command line should have;
* `Tsh.Dispatches` — the command lines `eval` treats so.

Main results:

* `Tsh.dispatched_iff` — a line is dispatched as specified iff it is one of those;
* `Tsh.foreground_not_dispatched` — a foreground command does nothing.
-/

import CsappLab.TshJobs
import CsappLab.TshParse

set_option relaxedAutoImplicit false
set_option autoImplicit false

namespace Tsh

open CText

/-! ### Effects -/

/-- What the system answers: the pid `fork` returns in the parent (negative when it fails), and
whether `execve` and `kill` succeed. -/
structure Env where
  forkPid : ℤ
  execOk : Bool
  killOk : Bool

/-- The calls a forked child makes. -/
inductive ChildCall where
  | setpgid (pid pgid : ℤ)
  | restoreMask
  | execve (path : List Char) (argv : List (List Char))
  | print (text : String)
  | exit (status : ℤ)
  deriving DecidableEq, Repr

/-- The calls the shell makes. -/
inductive Effect where
  | print (text : String)
  | perror (msg : String)
  | exit (status : ℤ)
  | killCont (pid : ℤ)
  | blockChld
  | blockAll
  | restoreMask
  | fork (pid : ℤ) (child : List ChildCall)
  | waitfg (pid : ℤ)
  deriving DecidableEq, Repr

/-- The outcome of a call: the job list, what was done, and the value returned, which is missing
when the process has exited. -/
structure Ran where
  table : JobTable
  effects : List Effect
  ret : Option ℤ

/-! ### The functions -/

/-- `atoi`. -/
def atoi (s : List Char) : ℤ := ((scanD s).map Prod.fst).getD 0

/-- `isdigit` on the first character. -/
def startsWithDigit (s : List Char) : Bool := (s.head?.bind decVal).isSome

/-- The first half of `do_bgfg`: the job its argument names, which is the null pointer if `%` is
followed by no number, or the message it returns with. -/
def bgfgJob (t : JobTable) (cmd arg : List Char) : Except String (Option (Fin maxJobs)) :=
  if arg.head? = some '%' then
    match scanD arg.tail with
    | none => .ok none
    | some (id, _) =>
        match getjobjid t id with
        | none => .error ("%" ++ toString id ++ ": No such job\n")
        | some i => .ok (some i)
  else if !startsWithDigit arg then
    .error (String.ofList cmd ++ ": argument must be a PID or %jobid\n")
  else
    match getjobpid t (atoi arg) with
    | none => .error ("(" ++ toString (atoi arg) ++ "): No such process\n")
    | some i => .ok (some i)

/-- The line a job is announced with. -/
def jobLine (jid pid : ℤ) (cmdline : List Char) : String :=
  "[" ++ toString jid ++ "] (" ++ toString pid ++ ") " ++ String.ofList cmdline

/-- `do_bgfg`. -/
def doBgfg (env : Env) (t : JobTable) (argv : List (List Char)) : Except Fault Ran :=
  match argv with
  | [] => .error .nullPointer
  | [cmd] =>
      .ok { table := t
            effects := [.print (String.ofList cmd ++ " command requires PID or %jobid argument\n")]
            ret := some 0 }
  | cmd :: arg :: _ =>
      let state := if cmd = ['b', 'g'] then JobState.bg else JobState.fg
      match bgfgJob t cmd arg with
      | .error msg => .ok { table := t, effects := [.print msg], ret := some 0 }
      | .ok none => .error .nullPointer  -- `job->pid`
      | .ok (some i) =>
          let job := t.slots i
          if env.killOk then
            .ok { table := t.setSlot i { job with state := state }
                  effects := [.killCont (-job.pid),
                    if state = .bg then .print (jobLine job.jid job.pid job.cmdline)
                    else .waitfg job.pid]
                  ret := some 0 }
          else
            .ok { table := t
                  effects := [.killCont (-job.pid), .perror "kill (SIGCONT)"]
                  ret := some 0 }

/-- `builtin_cmd`. -/
def builtinCmd (env : Env) (t : JobTable) (argv : List (List Char)) : Except Fault Ran :=
  match argv with
  | [] => .error .nullPointer  -- `strcmp(argv[0], "quit")`
  | cmd :: _ =>
      if cmd = ['q', 'u', 'i', 't'] then .ok { table := t, effects := [.exit 0], ret := none }
      else if cmd = ['&'] then .ok { table := t, effects := [], ret := some 1 }
      else if cmd = ['j', 'o', 'b', 's'] then
        .ok { table := t, effects := [.print (listjobs t)], ret := some 1 }
      else if cmd = ['f', 'g'] ∨ cmd = ['b', 'g'] then
        (doBgfg env t argv).map fun r => { r with ret := some 1 }
      else .ok { table := t, effects := [], ret := some 0 }

/-- What the child does after `fork`. -/
def childCalls (env : Env) (argv : List (List Char)) : List ChildCall :=
  [.setpgid 0 0, .restoreMask, .execve (argv.headD []) argv] ++
    if env.execOk then []
    else [.print (String.ofList (argv.headD []) ++ ": Command not found\n"), .exit 0]

/-- `eval` behind the built-ins: fork, record the job, wait for it if it is in the foreground. -/
def evalFork (env : Env) (t : JobTable) (cmdline : List Char) (argv : List (List Char)) (bg : ℤ) :
    Ran :=
  if env.forkPid < 0 then
    { table := t, effects := [.blockChld, .perror "fork error"], ret := some 0 }
  else
    let pid := env.forkPid
    let added := addjob t pid (if bg = 0 then .fg else .bg) cmdline
    { table := added.1
      effects := [.blockChld, .fork pid (childCalls env argv), .blockAll] ++
        (if added.2.2 = "" then [] else [.print added.2.2]) ++
        [.restoreMask,
          if bg = 0 then .waitfg pid else .print (jobLine (pid2jid added.1 pid) pid cmdline)]
      ret := some 0 }

/-- `eval` behind `parseline`. -/
def evalParsed (env : Env) (t : JobTable) (cmdline : List Char) (argv : List (List Char)) (bg : ℤ) :
    Except Fault Ran :=
  if bg = 0 then .ok { table := t, effects := [], ret := some 0 }
  else
    match builtinCmd env t argv with
    | .error fault => .error fault
    | .ok r =>
        match r.ret with
        | none => .ok r
        | some ret =>
            if ret = 0 then .ok (evalFork env r.table cmdline argv bg)
            else .ok { r with ret := some 0 }

/-- `eval`. -/
def eval (env : Env) (t : JobTable) (cmdline : List Char) : Except Fault Ran :=
  if maxLine ≤ cmdline.length then .error (.array maxLine)
  else
    match parseline cmdline with
    | .error fault => .error fault
    | .ok p => evalParsed env t cmdline p.args p.bg

/-! ### The effect a command line should have -/

/-- The children forked, with the calls each makes. -/
def forks (effects : List Effect) : List (ℤ × List ChildCall) :=
  effects.filterMap fun
    | .fork pid child => some (pid, child)
    | _ => none

/-- The pids waited for in the foreground. -/
def waits (effects : List Effect) : List ℤ :=
  effects.filterMap fun
    | .waitfg pid => some pid
    | _ => none

/-- The programs a child executes. -/
def execs (child : List ChildCall) : List (List Char × List (List Char)) :=
  child.filterMap fun
    | .execve path argv => some (path, argv)
    | _ => none

/-- A new job in a slot that was free. -/
def Added (t t' : JobTable) (pid : ℤ) (state : JobState) (cmdline : List Char) : Prop :=
  ∃ i, (t.slots i).pid = 0 ∧ t'.slots = Function.update t.slots i
    { pid := pid, jid := t.nextjid, state := state, cmdline := cmdline }

/-- An external command with its arguments: one child that executes it, one new job, and a wait
iff it runs in the foreground. -/
def Launched (env : Env) (t : JobTable) (cmdline : List Char) (argv : List (List Char))
    (bg : Bool) : Prop :=
  ∃ r child, eval env t cmdline = .ok r ∧ r.ret = some 0 ∧
    forks r.effects = [(env.forkPid, child)] ∧ execs child = [(argv.headD [], argv)] ∧
    Added t r.table env.forkPid (if bg then .bg else .fg) cmdline ∧
    waits r.effects = if bg then [] else [env.forkPid]

/-- **The effect a command line should have**, by the words of the line.  A lone `&` may do
anything. -/
def Dispatched (env : Env) (t : JobTable) (body : List Char) : Prop :=
  let line := body ++ ['\n']
  let ws := lineWords body
  match ws with
  | [] => eval env t line = .ok { table := t, effects := [], ret := some 0 }
  | w :: _ =>
      if ws = [['&']] then True
      else if w = ['q', 'u', 'i', 't'] then
        eval env t line = .ok { table := t, effects := [.exit 0], ret := none }
      else if w = ['j', 'o', 'b', 's'] then
        eval env t line = .ok { table := t, effects := [.print (listjobs t)], ret := some 0 }
      else if w = ['f', 'g'] ∨ w = ['b', 'g'] then
        ∃ argv, argv.head? = some w ∧ eval env t line = doBgfg env t argv
      else if ws.getLast? = some ['&'] then Launched env t line ws.dropLast true
      else Launched env t line ws false

/-- The names of the built-ins. -/
def isBuiltin (w : List Char) : Prop :=
  w = ['q', 'u', 'i', 't'] ∨ w = ['j', 'o', 'b', 's'] ∨ w = ['f', 'g'] ∨ w = ['b', 'g']

/-- **The command lines `eval` treats as it should**: a lone `&`, and the lines with one more word
before a last one that starts with `&`, of which there are not too many; an external command needs
a last word that is `&` and nothing else, a name that is not `&`, and a free slot. -/
def Dispatches (t : JobTable) (ws : List (List Char)) : Prop :=
  ws = [['&']] ∨
    2 ≤ ws.length ∧ ws.length < maxArgs ∧
      (∃ last, ws.getLast? = some last ∧ last.head? = some '&') ∧
      ∀ w, ws.head? = some w →
        isBuiltin w ∨ w ≠ ['&'] ∧ ws.getLast? = some ['&'] ∧ ∃ i, (t.slots i).pid = 0

/-! ### From the words to the outcome -/

theorem eval_words (env : Env) (t : JobTable) {body : List Char} (hnul : nul ∉ body)
    (hlen : body.length + 1 < maxLine) :
    eval env t (body ++ ['\n']) =
      if (lineWords body).length < maxArgs then
        evalParsed env t (body ++ ['\n']) (parseWords (lineWords body)).1
          (parseWords (lineWords body)).2
      else .error (.argv maxArgs) := by
  have hparse := parseline_words hnul hlen
  have hfit : ¬ maxLine ≤ (body ++ ['\n']).length := by simpa using hlen
  rw [eval, if_neg hfit]
  rcases Nat.lt_or_ge (lineWords body).length maxArgs with hfew | hmany
  · rw [if_pos hfew] at hparse ⊢
    obtain ⟨p, hp, hws⟩ := hparse
    simp only [hp, ← hws]
  · rw [if_neg (by omega)] at hparse ⊢
    simp only [hparse]

theorem parseWords_concat (ws : List (List Char)) (last : List Char) :
    parseWords (ws ++ [last]) =
      if last.head? = some '&' then (ws, 1) else (ws ++ [last], 0) := by
  simp [parseWords]

theorem evalParsed_zero (env : Env) (t : JobTable) (line : List Char) (argv : List (List Char)) :
    evalParsed env t line argv 0 = .ok { table := t, effects := [], ret := some 0 } := rfl

theorem evalParsed_nil (env : Env) (t : JobTable) (line : List Char) :
    evalParsed env t line [] 1 = .error .nullPointer := rfl

/-- A command that is not built in is forked. -/
theorem evalParsed_external {w : List Char} (hw : ¬ isBuiltin w) (hamp : w ≠ ['&']) (env : Env)
    (t : JobTable) (line : List Char) (rest : List (List Char)) :
    evalParsed env t line (w :: rest) 1 = .ok (evalFork env t line (w :: rest) 1) := by
  simp only [isBuiltin, not_or] at hw
  obtain ⟨hquit, hjobs, hfg, hbg⟩ := hw
  simp [evalParsed, builtinCmd, hquit, hjobs, hfg, hbg, hamp]

/-- What `do_bgfg` leaves when the signal was sent to the job of slot `i`. -/
def resumed (t : JobTable) (cmd : List Char) (i : Fin maxJobs) : Ran :=
  let state := if cmd = ['b', 'g'] then JobState.bg else JobState.fg
  let job := t.slots i
  { table := t.setSlot i { job with state := state }
    effects := [.killCont (-job.pid),
      if state = .bg then .print (jobLine job.jid job.pid job.cmdline) else .waitfg job.pid]
    ret := some 0 }

/-- What it leaves when the signal could not be sent. -/
def notResumed (t : JobTable) (i : Fin maxJobs) : Ran :=
  { table := t
    effects := [.killCont (-(t.slots i).pid), .perror "kill (SIGCONT)"]
    ret := some 0 }

/-- **How `do_bgfg` ends**, by what it makes of its argument. -/
theorem doBgfg_cons (env : Env) (t : JobTable) (cmd arg : List Char) (rest : List (List Char)) :
    (∃ msg, bgfgJob t cmd arg = .error msg ∧
        doBgfg env t (cmd :: arg :: rest) =
          .ok { table := t, effects := [.print msg], ret := some 0 }) ∨
      (bgfgJob t cmd arg = .ok none ∧ doBgfg env t (cmd :: arg :: rest) = .error .nullPointer) ∨
      ∃ i, bgfgJob t cmd arg = .ok (some i) ∧ doBgfg env t (cmd :: arg :: rest) =
        .ok (if env.killOk then resumed t cmd i else notResumed t i) := by
  rw [doBgfg]
  cases hjob : bgfgJob t cmd arg with
  | error msg => exact .inl ⟨msg, rfl, rfl⟩
  | ok job =>
      cases job with
      | none => exact .inr (.inl ⟨rfl, rfl⟩)
      | some i =>
          refine .inr (.inr ⟨i, rfl, ?_⟩)
          cases env.killOk <;> rfl

/-- `do_bgfg` always does something before it returns. -/
theorem doBgfg_ok {env : Env} {t : JobTable} {argv : List (List Char)} {r : Ran}
    (h : doBgfg env t argv = .ok r) : r.effects ≠ [] ∧ r.ret = some 0 := by
  match argv, h with
  | [_], h =>
      cases h
      simp
  | cmd :: arg :: rest, h =>
      rcases doBgfg_cons env t cmd arg rest with ⟨msg, -, hrun⟩ | ⟨-, hrun⟩ | ⟨i, -, hrun⟩
      · rw [hrun] at h
        cases h
        simp
      · rw [hrun] at h
        cases h
      · rw [hrun] at h
        cases h
        cases env.killOk <;> exact ⟨List.cons_ne_nil _ _, rfl⟩

/-- The only thing that goes wrong in `do_bgfg` is a null pointer. -/
theorem doBgfg_error {env : Env} {t : JobTable} {argv : List (List Char)} {fault : Fault}
    (h : doBgfg env t argv = .error fault) : fault = .nullPointer := by
  match argv, h with
  | [], h =>
      cases h
      rfl
  | cmd :: arg :: rest, h =>
      rcases doBgfg_cons env t cmd arg rest with ⟨msg, -, hrun⟩ | ⟨-, hrun⟩ | ⟨i, -, hrun⟩
      · rw [hrun] at h
        cases h
      · rw [hrun] at h
        cases h
        rfl
      · rw [hrun] at h
        cases h

/-- `fg` and `bg` are handed to `do_bgfg`. -/
theorem evalParsed_bgfg {w : List Char} (hw : w = ['f', 'g'] ∨ w = ['b', 'g']) (env : Env)
    (t : JobTable) (line : List Char) (rest : List (List Char)) :
    evalParsed env t line (w :: rest) 1 = doBgfg env t (w :: rest) := by
  have hquit : w ≠ ['q', 'u', 'i', 't'] := by rcases hw with rfl | rfl <;> decide
  have hamp : w ≠ ['&'] := by rcases hw with rfl | rfl <;> decide
  have hjobs : w ≠ ['j', 'o', 'b', 's'] := by rcases hw with rfl | rfl <;> decide
  cases hrun : doBgfg env t (w :: rest) with
  | error fault => simp [evalParsed, builtinCmd, hquit, hamp, hjobs, hw, hrun, Except.map]
  | ok r =>
      have hret := (doBgfg_ok hrun).2
      simp [evalParsed, builtinCmd, hquit, hamp, hjobs, hw, hrun, Except.map, ← hret]

/-- A job forked in the background: one child, no wait, and the new job if there is room. -/
theorem evalFork_background {env : Env} (hpid : 1 ≤ env.forkPid) (t : JobTable) (line : List Char)
    (argv : List (List Char)) :
    (evalFork env t line argv 1).ret = some 0 ∧
      forks (evalFork env t line argv 1).effects = [(env.forkPid, childCalls env argv)] ∧
      waits (evalFork env t line argv 1).effects = [] ∧
      (evalFork env t line argv 1).table = (addjob t env.forkPid .bg line).1 := by
  have hone : ¬ (1 : ℤ) = 0 := by decide
  rw [evalFork, if_neg (by omega)]
  simp only [if_neg hone]
  refine ⟨trivial, ?_, ?_, trivial⟩
  · split <;> rfl
  · split <;> rfl

theorem execs_childCalls (env : Env) (argv : List (List Char)) :
    execs (childCalls env argv) = [(argv.headD [], argv)] := by
  rw [childCalls]
  split <;> rfl

/-! ### Lines that are not dispatched -/

/-- Doing nothing is not the effect of a line with words. -/
theorem not_dispatched_of_idle {env : Env} {t : JobTable} {body : List Char}
    (h : eval env t (body ++ ['\n']) = .ok { table := t, effects := [], ret := some 0 })
    (hne : lineWords body ≠ []) (hamp : lineWords body ≠ [['&']]) : ¬ Dispatched env t body := by
  intro hd
  obtain ⟨w, rest, hws⟩ := List.exists_cons_of_ne_nil hne
  rw [hws] at hamp
  simp only [Dispatched, hws, if_neg hamp, h] at hd
  split at hd
  · cases hd
  split at hd
  · cases hd
  split at hd
  · obtain ⟨argv, -, hrun⟩ := hd
    exact (doBgfg_ok hrun.symm).1 rfl
  · split at hd
    all_goals
      obtain ⟨r, child, hr, -, hforks, -⟩ := hd
      rw [h] at hr
      cases hr
      cases hforks

/-- A fault is not the effect of a line, unless `do_bgfg` runs into it. -/
theorem not_dispatched_of_fault {env : Env} {t : JobTable} {body : List Char} {fault : Fault}
    (h : eval env t (body ++ ['\n']) = .error fault) (hamp : lineWords body ≠ [['&']])
    (hbgfg : ∀ w, (lineWords body).head? = some w → w = ['f', 'g'] ∨ w = ['b', 'g'] →
      ∀ argv, doBgfg env t argv ≠ .error fault) : ¬ Dispatched env t body := by
  intro hd
  cases hws : lineWords body with
  | nil =>
      simp only [Dispatched, hws, h] at hd
      cases hd
  | cons w rest =>
      rw [hws] at hamp hbgfg
      simp only [Dispatched, hws, if_neg hamp, h] at hd
      split at hd
      · cases hd
      split at hd
      · cases hd
      split at hd
      · rename_i hw
        obtain ⟨argv, -, hrun⟩ := hd
        exact hbgfg w rfl hw argv hrun.symm
      · split at hd
        all_goals
          obtain ⟨r, child, hr, -⟩ := hd
          rw [h] at hr
          cases hr

/-! ### The command lines that are dispatched -/

/-- A line whose last word starts with `&`: `eval` sees the words before it, and a background
job. -/
theorem dispatched_amp {env : Env} {t : JobTable} {body : List Char} (hpid : 1 ≤ env.forkPid)
    {w last : List Char} {rest : List (List Char)} (hws : lineWords body = w :: rest ++ [last])
    (hrun : eval env t (body ++ ['\n']) = evalParsed env t (body ++ ['\n']) (w :: rest) 1) :
    Dispatched env t body ↔
      isBuiltin w ∨ w ≠ ['&'] ∧ last = ['&'] ∧ ∃ i, (t.slots i).pid = 0 := by
  have hlone : w :: rest ++ [last] ≠ [['&']] := by
    intro h
    simpa using congrArg List.length h
  have hlast : (w :: rest ++ [last]).getLast? = some last := List.getLast?_concat ..
  have hdrop : (w :: rest ++ [last]).dropLast = w :: rest := List.dropLast_concat
  by_cases hb : isBuiltin w
  · simp only [hb, true_or, iff_true]
    rw [List.cons_append] at hws hlone
    simp only [Dispatched, hws, if_neg hlone, hrun]
    rcases hb with rfl | rfl | hb
    · rfl
    · rfl
    · have hquit : w ≠ ['q', 'u', 'i', 't'] := by rcases hb with rfl | rfl <;> decide
      have hjobs : w ≠ ['j', 'o', 'b', 's'] := by rcases hb with rfl | rfl <;> decide
      rw [if_neg hquit, if_neg hjobs, if_pos hb]
      exact ⟨w :: rest, rfl, evalParsed_bgfg hb env t _ rest⟩
  · have hb' := hb
    simp only [isBuiltin, not_or] at hb'
    obtain ⟨hquit, hjobs, hfg, hbg⟩ := hb'
    simp only [hb, false_or]
    rw [List.cons_append] at hws hlone hlast hdrop
    simp only [Dispatched, hws, if_neg hlone, if_neg hquit, if_neg hjobs, hfg, hbg, or_self,
      if_false, hlast, hdrop, Option.some.injEq]
    rcases eq_or_ne w ['&'] with rfl | hamp
    · -- a first word `&` is swallowed by `builtin_cmd`
      have hidle : eval env t (body ++ ['\n']) = .ok { table := t, effects := [], ret := some 0 } :=
        hrun
      simp only [ne_eq, not_true_eq_false, false_and, iff_false]
      split <;>
        · rintro ⟨r, child, hr, -, hforks, -⟩
          rw [hidle] at hr
          cases hr
          cases hforks
    · rw [evalParsed_external hb hamp] at hrun
      obtain ⟨hret, hforks, hwaits, htable⟩ :=
        evalFork_background hpid t (body ++ ['\n']) (w :: rest)
      split
      · rename_i hl
        simp only [hl, true_and, ne_eq, hamp, not_false_eq_true]
        constructor
        · rintro ⟨r, child, -, -, -, -, ⟨i, hi, -⟩, -⟩
          exact ⟨i, hi⟩
        · rintro ⟨i, hi⟩
          refine ⟨_, childCalls env (w :: rest), hrun, hret, hforks, execs_childCalls .., ?_,
            hwaits⟩
          rcases addjob_cases t hpid .bg (body ++ ['\n']) with ⟨j, hj, hadd⟩ | ⟨hfull, -⟩
          · exact ⟨j, hj, by rw [htable, hadd]; rfl⟩
          · exact absurd hi (hfull i)
      · rename_i hl
        simp only [hl, false_and, and_false, iff_false]
        rintro ⟨r, child, hr, -, -, -, -, hw⟩
        rw [hrun] at hr
        cases hr
        rw [hwaits] at hw
        cases hw

/-- **Which command lines are dispatched.**  `eval` gives a newline-terminated line that fits its
buffer the effect it should have iff the line is a lone `&`, or its last word starts with `&`,
some word stands before it, there are fewer than `MAXARGS` of them, and the command is built in or
is a program with a last word `&` and a free slot to go to. -/
theorem dispatched_iff (env : Env) (t : JobTable) (body : List Char) (hnul : nul ∉ body)
    (hlen : body.length + 1 < maxLine) (hpid : 1 ≤ env.forkPid) :
    Dispatched env t body ↔ Dispatches t (lineWords body) := by
  have hrun := eval_words env t hnul hlen
  rcases eq_or_ne (lineWords body) [['&']] with hlone | hlone
  · simp [Dispatched, Dispatches, hlone]
  rw [Dispatches, or_iff_right hlone]
  rcases Nat.lt_or_ge (lineWords body).length maxArgs with hfew | hmany
  · rw [if_pos hfew] at hrun
    rcases List.eq_nil_or_concat (lineWords body) with hnil | ⟨init, last, hws⟩
    · -- a line without words
      rw [hnil] at hrun hlone ⊢
      have hnot : ¬ Dispatched env t body :=
        not_dispatched_of_fault (hrun.trans (evalParsed_nil env t _)) (by rw [hnil]; exact hlone)
          (by rw [hnil]; intro w hw; cases hw)
      simp [hnot]
    · rw [List.concat_eq_append] at hws
      rw [hws, parseWords_concat] at hrun
      by_cases hamp : last.head? = some '&'
      · rw [if_pos hamp] at hrun
        cases init with
        | nil =>
            -- the only word is dropped
            have hnot : ¬ Dispatched env t body := by
              refine not_dispatched_of_fault (hrun.trans (evalParsed_nil env t _)) hlone ?_
              rw [hws]
              rintro w hw (rfl | rfl) <;> cases hw <;> cases hamp
            simp [hnot, hws]
        | cons w rest =>
            rw [hws] at hfew
            have hlast : (w :: rest ++ [last]).getLast? = some last := List.getLast?_concat ..
            rw [dispatched_amp hpid hws hrun, hws, hlast]
            constructor
            · intro h
              refine ⟨by simp, hfew, ⟨last, rfl, hamp⟩, fun w' hw' => ?_⟩
              cases hw'
              simpa using h
            · rintro ⟨-, -, -, h⟩
              simpa using h w rfl
      · -- a foreground command is taken for a blank line
        rw [if_neg hamp] at hrun
        have hnot := not_dispatched_of_idle (hrun.trans (evalParsed_zero env t _ _))
          (by simp [hws]) hlone
        simp only [hnot, false_iff]
        rintro ⟨-, -, ⟨last', hlast, hamp'⟩, -⟩
        rw [hws, List.getLast?_concat] at hlast
        cases hlast
        exact hamp hamp'
  -- more words than `argv` holds
  · rw [if_neg (by omega)] at hrun
    have hnot : ¬ Dispatched env t body := by
      refine not_dispatched_of_fault hrun hlone fun w _ _ argv hfault => ?_
      cases doBgfg_error hfault
    simp only [hnot, false_iff]
    rintro ⟨-, hfew, -⟩
    omega

/-- What the shell starts with: an empty list, and a system on which everything succeeds. -/
def startTable : JobTable := { slots := zeroJobs, nextjid := 1 }

def kindEnv (pid : ℤ) : Env := { forkPid := pid, execOk := true, killOk := true }

/-- The line `ls &`. -/
theorem dispatched_iff_ls : Dispatched (kindEnv 100) startTable ['l', 's', ' ', '&'] :=
  (dispatched_iff (kindEnv 100) startTable ['l', 's', ' ', '&'] (by decide) (by decide)
    (by decide)).2 (by
      have hws : lineWords ['l', 's', ' ', '&'] = [['l', 's'], ['&']] := by decide +kernel
      rw [Dispatches, hws]
      refine .inr ⟨by decide, by decide, ⟨_, rfl, rfl⟩, fun w hw => ?_⟩
      cases hw
      exact .inr ⟨by decide, rfl, 0, rfl⟩)

/-- **A foreground command does nothing**: the line `ls`. -/
theorem foreground_not_dispatched :
    ¬ ∀ (env : Env) (t : JobTable) (body : List Char), nul ∉ body → body.length + 1 < maxLine →
      1 ≤ env.forkPid → Dispatched env t body := by
  intro h
  have hws : lineWords ['l', 's'] = [['l', 's']] := by decide +kernel
  refine not_dispatched_of_idle ?_ (by simp [hws]) (by simp [hws])
    (h (kindEnv 100) startTable ['l', 's'] (by decide) (by decide) (by decide))
  rw [eval_words _ _ (by decide) (by decide), hws, if_pos (by decide)]
  rfl

end Tsh
