/-
**The shell under signals.**

The shell is one process: its main thread runs `eval`, `do_bgfg` and `waitfg`, and a signal handler
may run on top of it, or on top of another handler, wherever the signal mask lets a pending signal
through.  The model takes the statements one at a time.  Children change their state at any moment,
and each change makes `SIGCHLD` pending; pending signals of one kind coalesce.

A job is a single process here: its group is there for as long as the child, once in it, has not
been reaped.

Main definitions:

* `Tsh.Child`, `Tsh.Status` — the children that were forked and not reaped;
* `Tsh.Main`, `Tsh.Frame` — where the main thread and the running handlers stand;
* `Tsh.Shell`, `Tsh.Shell.step` — the process with its mask, and what can happen next.
-/

import CsappLab.TshEval

set_option relaxedAutoImplicit false
set_option autoImplicit false

namespace Tsh

/-! ### Signals -/

/-- The signals that have a handler, but for the one that ends the shell. -/
inductive Signal where
  | chld
  | int
  | tstp
  deriving DecidableEq, Repr

/-- `sigset_t`, as far as these signals go. -/
abbrev SigSet := Signal → Bool

/-- `sigfillset`. -/
def SigSet.full : SigSet := fun _ => true

/-- `sigaddset`. -/
def SigSet.add (m : SigSet) (sig : Signal) : SigSet := Function.update m sig true

/-- Take a signal out of a set. -/
def SigSet.remove (m : SigSet) (sig : Signal) : SigSet := Function.update m sig false

/-! ### Children -/

/-- The state of a child; a stop is reported to the shell once. -/
inductive Status where
  | running
  | stopped (sig : ℤ) (reported : Bool)
  | exited (code : ℤ)
  | signaled (sig : ℤ)
  deriving DecidableEq, Repr

namespace Status

/-- `waitpid` with `WNOHANG | WUNTRACED` has something to report. -/
def reportable : Status → Bool
  | .running => false
  | .stopped _ reported => !reported
  | .exited _ => true
  | .signaled _ => true

/-- The child is a zombie: reporting it reaps it. -/
def zombie : Status → Bool
  | .running => false
  | .stopped _ _ => false
  | .exited _ => true
  | .signaled _ => true

/-- `SIGCONT` arrives. -/
def cont : Status → Status
  | .stopped _ _ => .running
  | st => st

/-- `SIGSTOP` arrives. -/
def stop (sig : ℤ) : Status → Status
  | .running => .stopped sig false
  | st => st

end Status

/-- A child that was forked and not reaped; `grouped` once it has done `setpgid(0, 0)`. -/
structure Child where
  pid : ℤ
  grouped : Bool
  status : Status
  deriving DecidableEq, Repr

/-- The process group of a child, with `0` for the group of the shell. -/
def Child.group (c : Child) : ℤ := if c.grouped then c.pid else 0

/-- What a child can do, or what can happen to it. -/
inductive ChildEvent where
  | setpgid
  | exit (code : ℤ)
  | signal (sig : ℤ)
  | stop (sig : ℤ)
  | cont
  deriving DecidableEq, Repr

/-- The state of a child after an event that is possible in it. -/
def Status.next : Status → ChildEvent → Option Status
  | .running, .setpgid => some .running
  | .running, .exit code => some (.exited code)
  | .running, .signal sig => some (.signaled sig)
  | .stopped _ _, .signal sig => some (.signaled sig)
  | .running, .stop sig => some (.stopped sig false)
  | .stopped _ _, .cont => some .running
  | _, _ => none

/-! ### The process -/

/-- Where the main thread stands: the statement it executes next. -/
inductive Main where
  /-- In the read loop. -/
  | ready
  /-- `eval`, before `SIGCHLD` is blocked. -/
  | evalBlock (bg : ℤ) (cmdline : List Char)
  /-- `eval`, before `fork`. -/
  | evalFork (bg : ℤ) (cmdline : List Char) (prev : SigSet)
  /-- `eval`, before all signals are blocked. -/
  | evalBlockAll (bg : ℤ) (cmdline : List Char) (prev : SigSet) (pid : ℤ)
  /-- `eval`, before `addjob`. -/
  | evalAddjob (bg : ℤ) (cmdline : List Char) (prev : SigSet) (pid : ℤ)
  /-- `eval`, before the mask is restored. -/
  | evalRestore (bg : ℤ) (cmdline : List Char) (prev : SigSet) (pid : ℤ)
  /-- `eval`, before the job is announced. -/
  | evalReport (cmdline : List Char) (pid : ℤ)
  /-- `do_bgfg`, before `kill`. -/
  | bgfgKill (job : Fin maxJobs) (state : JobState)
  /-- `do_bgfg`, before the state of the job is set. -/
  | bgfgState (job : Fin maxJobs) (state : JobState)
  /-- `do_bgfg`, before the job is announced or waited for. -/
  | bgfgReport (job : Fin maxJobs) (state : JobState)
  /-- `waitfg`, before all signals are blocked. -/
  | waitBlock
  /-- `waitfg`, before the test of the loop. -/
  | waitTest (prev : SigSet)
  /-- `waitfg`, inside `sigsuspend`. -/
  | suspended (prev : SigSet)
  /-- `waitfg`, before the mask is restored. -/
  | waitRestore (prev : SigSet)

def Main.isReady : Main → Bool
  | .ready => true
  | _ => false

def Main.isSuspended : Main → Bool
  | .suspended _ => true
  | _ => false

/-- Where `sigchld_handler` stands. -/
inductive ChldPc where
  /-- Before `waitpid`. -/
  | wait
  /-- Before all signals are blocked. -/
  | block (pid : ℤ) (status : Status)
  /-- Before the job list is updated. -/
  | update (pid : ℤ) (status : Status) (prev : SigSet)
  /-- Before the mask is restored. -/
  | restore (prev : SigSet)
  /-- Before the return. -/
  | done

/-- Where `sigint_handler` or `sigtstp_handler` stands. -/
inductive CtrlPc where
  /-- Before all signals are blocked. -/
  | block
  /-- Before `fgpid`. -/
  | look (prev : SigSet)
  /-- Before the mask is restored. -/
  | restore (prev : SigSet) (pid : ℤ)
  /-- Before `kill`. -/
  | kill (pid : ℤ)
  /-- Before the return. -/
  | done

/-- The key that was typed: `ctrl-c` or `ctrl-z`. -/
inductive Ctrl where
  | int
  | tstp
  deriving DecidableEq, Repr

/-- How `sigint_handler` and `sigtstp_handler` test what `fgpid` returns. -/
def Ctrl.found (pid : ℤ) : Ctrl → Bool
  | .int => pid ≠ 0
  | .tstp => 0 < pid

/-- A handler and where it stands. -/
inductive Code where
  | chld (pc : ChldPc)
  | ctrl (key : Ctrl) (pc : CtrlPc)

/-- A running handler; `mask` is restored when it returns. -/
structure Frame where
  mask : SigSet
  code : Code

/-- The handler of a signal, at its start. -/
def Signal.handler : Signal → Code
  | .chld => .chld .wait
  | .int => .ctrl .int .block
  | .tstp => .ctrl .tstp .block

/-- The shell process, its children and its output; the innermost handler stands first. -/
structure Shell where
  table : JobTable
  children : List Child
  mask : SigSet
  pending : SigSet
  main : Main
  handlers : List Frame
  exited : Bool
  out : List String

namespace Shell

/-- `printf`. -/
def print (s : Shell) (text : String) : Shell := { s with out := s.out ++ [text] }

/-- `perror`; the text for `errno` is left out. -/
def perror (s : Shell) (msg : String) : Shell := s.print (msg ++ ": ")

/-- The shell after `initjobs`, with nothing pending. -/
def start (t : JobTable) (mask : SigSet) : Shell where
  table := initjobs t
  children := []
  mask := mask
  pending _ := false
  main := .ready
  handlers := []
  exited := false
  out := []

/-- `kill(-group, …)`, with what the signal does to a member of the group; it fails when there is
no such group. -/
def kill (s : Shell) (group : ℤ) (effect : Status → Status) : Option Shell :=
  if group = 0 ∨ ∃ c ∈ s.children, c.group = group then
    some { s with
      -- every member of the group gets the signal
      children := s.children.map fun c =>
        if c.group = group then { c with status := effect c.status } else c
      pending :=
        if ∃ c ∈ s.children, c.group = group ∧ effect c.status ≠ c.status
        then s.pending.add .chld else s.pending }
  else none

/-! ### The main thread -/

/-- `do_bgfg` up to the job its argument names. -/
def startBgfg (s : Shell) (cmd : List Char) : List (List Char) → Option Shell
  | [] => some (s.print (String.ofList cmd ++ " command requires PID or %jobid argument\n"))
  | arg :: _ =>
      match bgfgJob s.table cmd arg with
      | .error msg => some (s.print msg)
      | .ok none => none  -- `job->pid` through the null pointer
      | .ok (some i) =>
          some { s with main := .bgfgKill i (if cmd = ['b', 'g'] then .bg else .fg) }

/-- The main thread reads a line; `eval` parses it and looks for a built-in. -/
def read (s : Shell) (line : List Char) : Option Shell :=
  match s.main with
  | .ready =>
      if maxLine ≤ line.length then none
      else
        match parseline line with
        | .error _ => none
        | .ok p =>
            if p.bg = 0 then some s
            else
              match p.args with
              | [] => none  -- `strcmp` on the null pointer
              | cmd :: args =>
                  if cmd = ['q', 'u', 'i', 't'] then some { s with exited := true }
                  else if cmd = ['&'] then some s
                  else if cmd = ['j', 'o', 'b', 's'] then some (s.print (listjobs s.table))
                  else if cmd = ['f', 'g'] ∨ cmd = ['b', 'g'] then s.startBgfg cmd args
                  else some { s with main := .evalBlock p.bg line }
  | _ => none

/-- `fork` returns: a negative number when it fails, else the pid of a new child. -/
def fork (s : Shell) (pid : ℤ) : Option Shell :=
  match s.main with
  | .evalFork bg line prev =>
      if pid < 0 then some { s.perror "fork error" with main := .ready }
      else if pid = 0 ∨ ∃ c ∈ s.children, c.pid = pid then none
      else
        some { s with
          children := { pid := pid, grouped := false, status := .running } :: s.children
          main := .evalBlockAll bg line prev pid }
  | _ => none

/-- The next statement of the main thread, when it is neither a read nor a fork. -/
def stepMain (s : Shell) : Option Shell :=
  match s.main with
  | .ready => none
  | .evalBlock bg line =>
      some { s with mask := s.mask.add .chld, main := .evalFork bg line s.mask }
  | .evalFork _ _ _ => none
  | .evalBlockAll bg line prev pid =>
      some { s with mask := .full, main := .evalAddjob bg line prev pid }
  | .evalAddjob bg line prev pid =>
      -- `addjob` prints when there is no free slot, and the child runs without a job
      let added := addjob s.table pid (if bg = 0 then .fg else .bg) line
      let s := if added.2.2 = "" then s else s.print added.2.2
      some { s with table := added.1, main := .evalRestore bg line prev pid }
  | .evalRestore bg line prev pid =>
      some { s with mask := prev, main := if bg = 0 then .waitBlock else .evalReport line pid }
  | .evalReport line pid =>
      some { s.print (jobLine (pid2jid s.table pid) pid line) with main := .ready }
  | .bgfgKill i state =>
      match s.kill (s.table.slots i).pid Status.cont with
      | none => some { s.perror "kill (SIGCONT)" with main := .ready }
      | some s => some { s with main := .bgfgState i state }
  | .bgfgState i state =>
      some { s with
        table := s.table.setSlot i { s.table.slots i with state := state }
        main := .bgfgReport i state }
  | .bgfgReport i state =>
      if state = .bg then
        let job := s.table.slots i
        some { s.print (jobLine job.jid job.pid job.cmdline) with main := .ready }
      else some { s with main := .waitBlock }
  | .waitBlock => some { s with mask := .full, main := .waitTest s.mask }
  -- `sigsuspend` installs the mask and waits in one step
  | .waitTest prev =>
      if 0 < fgpid s.table then some { s with mask := prev, main := .suspended prev }
      else some { s with main := .waitRestore prev }
  | .suspended _ => none
  | .waitRestore prev => some { s with mask := prev, main := .ready }

/-! ### Handlers -/

/-- A pending signal that is not blocked starts its handler.  One that ends a `sigsuspend` restores
the mask from before it, under which all signals are blocked. -/
def deliver (s : Shell) (sig : Signal) : Option Shell :=
  if s.pending sig && !s.mask sig then
    let s' : Shell := { s with pending := s.pending.remove sig, mask := s.mask.add sig }
    match s.main with
    | .suspended prev =>
        some { s' with
          main := .waitTest prev
          handlers := { mask := .full, code := sig.handler } :: s.handlers }
    | _ => some { s' with handlers := { mask := s.mask, code := sig.handler } :: s.handlers }
  else none

/-- `sigchld_handler`, the update of the job list after `waitpid`. -/
def reap (s : Shell) (pid : ℤ) : Status → Shell
  | .running => s
  | .exited _ => { s with table := (deletejob s.table pid).1 }
  | .signaled sig =>
      let s := s.print ("Job [" ++ toString (pid2jid s.table pid) ++ "] (" ++ toString pid ++
        ") terminated by signal " ++ toString sig ++ "\n")
      { s with table := (deletejob s.table pid).1 }
  | .stopped sig _ =>
      let s := s.print ("Job [" ++ toString (pid2jid s.table pid) ++ "] (" ++ toString pid ++
        ") stopped by signal " ++ toString sig ++ "\n")
      match getjobpid s.table pid with
      | none => s
      | some i => { s with table := s.table.setSlot i { s.table.slots i with state := .st } }

/-- `waitpid` returns in `sigchld_handler`: the pid of a child it reports, or nothing when there is
none to report. -/
def waitpid (s : Shell) (pid? : Option ℤ) : Option Shell :=
  match s.handlers with
  | ⟨mask, .chld .wait⟩ :: rest =>
      match pid? with
      | none =>
          if ∃ c ∈ s.children, c.status.reportable then none
          else some { s with handlers := ⟨mask, .chld .done⟩ :: rest }
      | some pid =>
          match s.children.find? fun c => c.pid = pid && c.status.reportable with
          | none => none
          | some c =>
              some { s with
                children :=
                  -- a stop is reported once; a child that has ended is reaped
                  match c.status with
                  | .stopped sig _ => s.children.map fun d =>
                      if d.pid = pid then { d with status := .stopped sig true } else d
                  | _ => s.children.filter fun d => d.pid ≠ pid
                handlers := ⟨mask, .chld (.block pid c.status)⟩ :: rest }
  | _ => none

/-- What `sigint_handler` and `sigtstp_handler` send to the foreground job, and the message
`unix_error` exits with when that fails; what `SIGINT` does to the job is an event of its own. -/
def forward (s : Shell) (pid : ℤ) : Ctrl → Option Shell × String
  | .int => (s.kill pid id, "kill (SIGINT): No such process\n")
  | .tstp => (s.kill pid (Status.stop 19), "kill (SIGSTOP): No such process\n")

/-- The next statement of the innermost handler, when it is not `waitpid`. -/
def stepHandler (s : Shell) : Option Shell :=
  match s.handlers with
  | [] => none
  | ⟨mask, .chld pc⟩ :: rest =>
      match pc with
      | .wait => none
      | .block pid st =>
          some { s with mask := .full, handlers := ⟨mask, .chld (.update pid st s.mask)⟩ :: rest }
      | .update pid st prev =>
          some { s.reap pid st with handlers := ⟨mask, .chld (.restore prev)⟩ :: rest }
      | .restore prev => some { s with mask := prev, handlers := ⟨mask, .chld .wait⟩ :: rest }
      | .done => some { s with mask := mask, handlers := rest }
  | ⟨mask, .ctrl key pc⟩ :: rest =>
      match pc with
      | .block =>
          some { s with mask := .full, handlers := ⟨mask, .ctrl key (.look s.mask)⟩ :: rest }
      | .look prev =>
          -- without a job in the foreground the handler returns and does not restore the mask
          let pid := fgpid s.table
          let pc := if key.found pid then .restore prev pid else .done
          some { s with handlers := ⟨mask, .ctrl key pc⟩ :: rest }
      | .restore prev pid =>
          some { s with mask := prev, handlers := ⟨mask, .ctrl key (.kill pid)⟩ :: rest }
      | .kill pid =>
          match s.forward pid key with
          | (some s, _) => some { s with handlers := ⟨mask, .ctrl key .done⟩ :: rest }
          | (none, msg) => some { s.print msg with exited := true }  -- `unix_error`
      | .done => some { s with mask := mask, handlers := rest }

/-! ### What can happen -/

/-- Something happens to a child, and the shell is sent `SIGCHLD` if it changes its state. -/
def childEvent (s : Shell) (pid : ℤ) (event : ChildEvent) : Option Shell :=
  match s.children.find? fun c => c.pid = pid with
  | none => none
  | some c =>
      (c.status.next event).map fun st =>
        { s with
          children := s.children.map fun d =>
            if d.pid = pid then
              { d with grouped := d.grouped || event = .setpgid, status := st }
            else d
          pending := if event = .setpgid then s.pending else s.pending.add .chld }

end Shell

/-- What happens next: a line is read, a call returns, a statement is executed, a signal is sent
to the shell or delivered, or something happens to a child. -/
inductive Action where
  | read (line : List Char)
  | fork (pid : ℤ)
  | main
  | deliver (sig : Signal)
  | waitpid (pid? : Option ℤ)
  | handler
  | send (sig : Signal)
  | child (pid : ℤ) (event : ChildEvent)

/-- The main thread runs only while no handler does. -/
def Shell.idle (s : Shell) : Bool := s.handlers.isEmpty

/-- One action, if it is possible; nothing happens once the shell has exited. -/
def Shell.step (s : Shell) (a : Action) : Option Shell :=
  if s.exited then none
  else
    match a with
    | .read line => if s.idle then s.read line else none
    | .fork pid => if s.idle then s.fork pid else none
    | .main => if s.idle then s.stepMain else none
    | .deliver sig => s.deliver sig
    | .waitpid pid? => s.waitpid pid?
    | .handler => s.stepHandler
    | .send sig => some { s with pending := s.pending.add sig }
    | .child pid event => s.childEvent pid event

/-- A run; it has no result if an action is not possible. -/
def Shell.run (s : Shell) (actions : List Action) : Option Shell := actions.foldlM Shell.step s

end Tsh
