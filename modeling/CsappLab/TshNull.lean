/-
**Words that are missing.**

Two functions of the shell follow a pointer without asking whether it is null.  `eval` hands the
argument vector to `builtin_cmd` whenever `parseline` returns `1`, and this is also what it returns
for a blank line, and for a line whose only word is taken for the `&`.  `do_bgfg` looks up the job
only if a number follows the `%`, and goes on with the null pointer if none does.

Main definitions:

* `Tsh.evalCalls` — the argument vectors that reach `builtin_cmd` and `execve`;
* `Tsh.NoEmptyCommand`, `Tsh.HasCommand` — no empty one does, and the lines of which that is so;
* `Tsh.BgfgTotal`, `Tsh.GivesNumber` — `do_bgfg` resumes a job or reports an error, and the
  arguments with which it does.

Main results:

* `Tsh.noEmptyCommand_iff` — **for which lines no empty command is run**;
* `Tsh.bgfgTotal_iff` — **for which arguments `do_bgfg` is total**.
-/

import CsappLab.TshEval

set_option relaxedAutoImplicit false
set_option autoImplicit false

namespace Tsh

open CText

/-! ### Empty commands -/

/-- The calls to which `eval` hands its argument vector. -/
inductive Call where
  | builtinCmd (argv : List (List Char))
  | execve (argv : List (List Char))
  deriving DecidableEq, Repr

/-- The arguments in front of the null pointer; there are none if `argv[0]` is null. -/
def Call.argv : Call → List (List Char)
  | builtinCmd argv => argv
  | execve argv => argv

/-- The calls of `execve` that are made by the children. -/
def execCalls (effects : List Effect) : List Call :=
  (forks effects).flatMap fun child => (execs child.2).map fun e => .execve e.2

/-- The calls of `eval`. -/
def evalCalls (env : Env) (t : JobTable) (cmdline : List Char) : List Call :=
  if maxLine ≤ cmdline.length then []
  else
    match parseline cmdline with
    | .error _ => []
    | .ok p =>
        if p.bg = 0 then []
        else
          .builtinCmd p.args :: match evalParsed env t cmdline p.args p.bg with
            | .error _ => []
            | .ok r => execCalls r.effects

/-- **No empty command reaches execution**, and a line of which no word is left does nothing. -/
structure NoEmptyCommand (env : Env) (t : JobTable) (body : List Char) : Prop where
  calls : ∀ c ∈ evalCalls env t (body ++ ['\n']), c.argv ≠ []
  idle : (parseWords (lineWords body)).1 = [] → ∃ r, eval env t (body ++ ['\n']) = .ok r ∧
    r.table = t ∧ forks r.effects = []

/-- Some word of a line is left when a last word that starts with `&` is dropped. -/
def HasCommand (ws : List (List Char)) : Prop :=
  ∃ w rest, ws = w :: rest ∧ (rest ≠ [] ∨ w.head? ≠ some '&')

theorem hasCommand_iff (ws : List (List Char)) : HasCommand ws ↔ (parseWords ws).1 ≠ [] := by
  rcases List.eq_nil_or_concat ws with rfl | ⟨init, last, rfl⟩
  · refine iff_of_false ?_ fun h => h rfl
    rintro ⟨w, rest, h, -⟩
    cases h
  · rw [List.concat_eq_append, parseWords_concat]
    cases init with
    | nil =>
        rw [List.nil_append]
        by_cases hamp : last.head? = some '&'
        · rw [if_pos hamp]
          refine iff_of_false ?_ fun h => h rfl
          rintro ⟨w, rest, h, hrest | hw⟩
          · exact hrest (List.cons.inj h).2.symm
          · exact hw ((List.cons.inj h).1 ▸ hamp)
        · rw [if_neg hamp]
          exact iff_of_true ⟨last, [], rfl, .inr hamp⟩ (List.cons_ne_nil _ _)
    | cons w rest =>
        refine iff_of_true ⟨w, rest ++ [last], rfl, .inl (by simp)⟩ ?_
        split <;> simp

/-- If no word is left, `parseline` returns `1`. -/
theorem parseWords_of_nil {ws : List (List Char)} (h : (parseWords ws).1 = []) :
    ws.length ≤ 1 ∧ parseWords ws = ([], 1) := by
  rcases List.eq_nil_or_concat ws with rfl | ⟨init, last, rfl⟩
  · exact ⟨Nat.zero_le _, rfl⟩
  · rw [List.concat_eq_append] at h ⊢
    rw [parseWords_concat] at h ⊢
    by_cases hamp : last.head? = some '&'
    · rw [if_pos hamp] at h ⊢
      have hinit : init = [] := h
      rw [hinit]
      exact ⟨Nat.le_refl _, rfl⟩
    · rw [if_neg hamp] at h
      exact absurd h (by simp)

/-! ### What is executed -/

theorem forks_doBgfg {env : Env} {t : JobTable} {argv : List (List Char)} {r : Ran}
    (h : doBgfg env t argv = .ok r) : forks r.effects = [] := by
  match argv, h with
  | [_], h =>
      cases h
      rfl
  | cmd :: arg :: rest, h =>
      rcases doBgfg_cons env t cmd arg rest with ⟨msg, -, hrun⟩ | ⟨-, hrun⟩ | ⟨i, -, hrun⟩
      · rw [hrun] at h
        cases h
        rfl
      · rw [hrun] at h
        cases h
      · rw [hrun] at h
        cases h
        cases env.killOk with
        | false => rfl
        | true =>
            rw [if_pos rfl, resumed]
            dsimp only
            split <;> rfl

theorem forks_builtinCmd {env : Env} {t : JobTable} {argv : List (List Char)} {r : Ran}
    (h : builtinCmd env t argv = .ok r) : forks r.effects = [] := by
  cases argv with
  | nil => cases h
  | cons cmd rest =>
      rw [builtinCmd] at h
      split at h
      · cases h
        rfl
      split at h
      · cases h
        rfl
      split at h
      · cases h
        rfl
      split at h
      · cases hrun : doBgfg env t (cmd :: rest) with
        | error fault =>
            rw [hrun] at h
            cases h
        | ok r' =>
            rw [hrun] at h
            cases h
            exact forks_doBgfg (r := r') hrun
      · cases h
        rfl

theorem forks_evalFork (env : Env) (t : JobTable) (line : List Char) (argv : List (List Char))
    (bg : ℤ) : forks (evalFork env t line argv bg).effects =
      if env.forkPid < 0 then [] else [(env.forkPid, childCalls env argv)] := by
  rw [evalFork]
  split
  · rfl
  · dsimp only
    split <;> split <;> rfl

theorem execCalls_of_forks {effects : List Effect} (h : forks effects = []) :
    execCalls effects = [] := by
  rw [execCalls, h]
  rfl

/-- A child executes the argument vector of `eval`. -/
theorem mem_execCalls {env : Env} {t : JobTable} {line : List Char} {argv : List (List Char)}
    {bg : ℤ} {r : Ran} (h : evalParsed env t line argv bg = .ok r) {c : Call}
    (hc : c ∈ execCalls r.effects) : c.argv = argv := by
  rw [evalParsed] at h
  split at h
  · cases h
    cases hc
  cases hrun : builtinCmd env t argv with
  | error fault =>
      rw [hrun] at h
      cases h
  | ok r' =>
      -- the built-ins fork nothing
      have hnone := execCalls_of_forks (forks_builtinCmd hrun)
      obtain ⟨table, effects, ret⟩ := r'
      rw [hrun] at h
      cases ret with
      | none =>
          cases h
          rw [hnone] at hc
          cases hc
      | some ret =>
          dsimp only at h
          split at h
          · cases h
            rw [execCalls, forks_evalFork] at hc
            split at hc
            · cases hc
            · rw [List.flatMap_cons, execs_childCalls] at hc
              rw [List.mem_singleton.1 hc]
              rfl
          · cases h
            rw [hnone] at hc
            cases hc

/-! ### Lines with a command -/

/-- **For which lines no empty command is run**: those with a word that is left when a last one that
starts with `&` is dropped. -/
theorem noEmptyCommand_iff (env : Env) (t : JobTable) (body : List Char) (hnul : nul ∉ body)
    (hlen : (body ++ ['\n']).length < maxLine) :
    NoEmptyCommand env t body ↔ HasCommand (lineWords body) := by
  rw [hasCommand_iff]
  have hfit : ¬ maxLine ≤ (body ++ ['\n']).length := Nat.not_le.2 hlen
  have hparse := parseline_words hnul (by simpa using hlen)
  have heval := eval_words env t hnul (by simpa using hlen)
  constructor
  · intro h hnil
    -- one word at most, so that `argv` has room
    obtain ⟨hlength, hwords⟩ := parseWords_of_nil hnil
    have hfew : (lineWords body).length < maxArgs := Nat.lt_of_le_of_lt hlength (by decide)
    rw [if_pos hfew, hwords] at heval
    obtain ⟨r, hr, -, -⟩ := h.idle hnil
    rw [heval, evalParsed_nil] at hr
    cases hr
  · intro hne
    refine ⟨fun c hc => ?_, fun hnil => absurd hnil hne⟩
    rw [evalCalls, if_neg hfit] at hc
    split at hparse
    · obtain ⟨p, hp, hresult⟩ := hparse
      have hargs : p.args = (parseWords (lineWords body)).1 := congrArg Prod.fst hresult
      rw [hp] at hc
      dsimp only at hc
      rw [← hargs] at hne
      split at hc
      · cases hc
      rcases List.mem_cons.1 hc with rfl | hc
      · exact hne
      · cases hrun : evalParsed env t (body ++ ['\n']) p.args p.bg with
        | error fault =>
            rw [hrun] at hc
            cases hc
        | ok r =>
            rw [hrun] at hc
            rw [mem_execCalls hrun hc]
            exact hne
    · rw [hparse] at hc
      cases hc

/-- The line `ls &`. -/
theorem noEmptyCommand_iff_ls :
    NoEmptyCommand (kindEnv 100) startTable ['l', 's', ' ', '&'] :=
  (noEmptyCommand_iff (kindEnv 100) startTable ['l', 's', ' ', '&'] (by decide) (by decide)).2 (by
    have hws : lineWords ['l', 's', ' ', '&'] = [['l', 's'], ['&']] := by decide +kernel
    exact ⟨_, _, hws, .inl (List.cons_ne_nil _ _)⟩)

/-- **A blank line** makes `builtin_cmd` compare a null pointer. -/
theorem empty_command_runs : ¬ ∀ (env : Env) (t : JobTable) (body : List Char), nul ∉ body →
    (body ++ ['\n']).length < maxLine → NoEmptyCommand env t body := by
  intro h
  have hcalls := (h (kindEnv 100) startTable [] (by decide) (by decide)).calls
  have hcall : Call.builtinCmd [] ∈ evalCalls (kindEnv 100) startTable ([] ++ ['\n']) := by
    decide +kernel
  exact hcalls _ hcall rfl

/-! ### Jobs that are named -/

/-- An argument names the job of a slot. -/
def Names (t : JobTable) (arg : List Char) (i : Fin maxJobs) : Prop :=
  (∃ s jid rest, arg = '%' :: s ∧ scanD s = some (jid, rest) ∧ 1 ≤ jid ∧ (t.slots i).jid = jid) ∨
    startsWithDigit arg = true ∧ 1 ≤ atoi arg ∧ (t.slots i).pid = atoi arg

/-- A job was resumed: it is one that the argument names, its group was sent the signal, and its
state alone was set. -/
structure Resumed (t : JobTable) (cmd arg : List Char) (i : Fin maxJobs) (r : Ran) : Prop where
  names : Names t arg i
  live : Tidy t → 1 ≤ (t.slots i).pid
  signalled : r.effects.head? = some (.killCont (-(t.slots i).pid))
  table : r.table = t.setSlot i
    { t.slots i with state := if cmd = ['b', 'g'] then .bg else .fg }

/-- An error was reported, and the jobs are as they were. -/
structure Reported (t : JobTable) (r : Ran) : Prop where
  table : r.table = t
  message : (∃ text, .print text ∈ r.effects) ∨ ∃ msg, .perror msg ∈ r.effects

/-- **`do_bgfg` is total**: it returns, with a job resumed or an error reported. -/
def BgfgTotal (env : Env) (t : JobTable) (cmd : List Char) (rest : List (List Char)) : Prop :=
  ∃ r, doBgfg env t (cmd :: rest) = .ok r ∧
    (Reported t r ∨ ∃ arg i, rest.head? = some arg ∧ Resumed t cmd arg i r)

/-- A number follows if the argument starts with `%`. -/
def GivesNumber (rest : List (List Char)) : Prop :=
  ∀ s, rest.head? = some ('%' :: s) → (scanD s).isSome = true

theorem bgfgJob_none_iff (t : JobTable) (cmd arg : List Char) :
    bgfgJob t cmd arg = .ok none ↔ arg.head? = some '%' ∧ scanD arg.tail = none := by
  rw [bgfgJob]
  split
  · rename_i hpercent
    rw [and_iff_right hpercent]
    cases hscan : scanD arg.tail with
    | none => exact iff_of_true rfl rfl
    | some r =>
        refine iff_of_false (fun h => ?_) (Option.some_ne_none r)
        dsimp only at h
        cases hjob : getjobjid t r.1 <;> rw [hjob] at h <;> cases h
  · rename_i hpercent
    refine iff_of_false (fun h => ?_) fun h => hpercent h.1
    split at h
    · cases h
    · cases hjob : getjobpid t (atoi arg) <;> rw [hjob] at h <;> cases h

theorem names_of_bgfgJob {t : JobTable} {cmd arg : List Char} {i : Fin maxJobs}
    (h : bgfgJob t cmd arg = .ok (some i)) : Names t arg i := by
  rw [bgfgJob] at h
  split at h
  · rename_i hpercent
    obtain ⟨s, rfl⟩ : ∃ s, arg = '%' :: s := by
      cases arg with
      | nil => cases hpercent
      | cons c s => exact ⟨s, by rw [Option.some.inj hpercent]⟩
    rw [List.tail_cons] at h
    cases hscan : scanD s with
    | none =>
        rw [hscan] at h
        cases h
    | some r =>
        rw [hscan] at h
        dsimp only at h
        cases hjob : getjobjid t r.1 with
        | none =>
            rw [hjob] at h
            cases h
        | some j =>
            rw [hjob] at h
            cases h
            obtain ⟨hjid, hslot⟩ := getjobjid_some hjob
            exact .inl ⟨s, r.1, r.2, rfl, hscan, hjid, hslot⟩
  · split at h
    · cases h
    · rename_i hdigit
      cases hjob : getjobpid t (atoi arg) with
      | none =>
          rw [hjob] at h
          cases h
      | some j =>
          rw [hjob] at h
          cases h
          obtain ⟨hpid, hslot⟩ := getjobpid_some hjob
          exact .inr ⟨by simpa using hdigit, hpid, hslot⟩

/-- A job that is named is live. -/
theorem Names.live {t : JobTable} {arg : List Char} {i : Fin maxJobs} (h : Names t arg i)
    (ht : Tidy t) : 1 ≤ (t.slots i).pid := by
  rcases h with ⟨s, jid, rest, -, -, hjid, hslot⟩ | ⟨-, hpid, hslot⟩
  · rw [← ht.occupied_iff]
    intro hfree
    rw [ht.jid_of_free hfree] at hslot
    omega
  · rw [hslot]
    exact hpid

/-- **For which arguments `do_bgfg` is total**: a number follows a `%`. -/
theorem bgfgTotal_iff (env : Env) (t : JobTable) (cmd : List Char) (rest : List (List Char)) :
    BgfgTotal env t cmd rest ↔ GivesNumber rest := by
  cases rest with
  | nil =>
      refine iff_of_true ⟨_, rfl, .inl ⟨rfl, .inl ⟨_, List.mem_cons_self⟩⟩⟩ fun s h => ?_
      cases h
  | cons arg rest =>
      have hnumber : GivesNumber (arg :: rest) ↔ ¬ bgfgJob t cmd arg = .ok none := by
        rw [bgfgJob_none_iff, ← Option.not_isSome_iff_eq_none, not_and, not_not]
        constructor
        · intro h hpercent
          cases arg with
          | nil => cases hpercent
          | cons c s => exact h s (by rw [Option.some.inj hpercent]; rfl)
        · intro h s hs
          have harg : arg = '%' :: s := Option.some.inj hs
          rw [harg] at h
          exact h rfl
      rw [hnumber]
      rcases doBgfg_cons env t cmd arg rest with ⟨msg, hjob, hrun⟩ | ⟨hjob, hrun⟩ | ⟨i, hjob, hrun⟩
      · rw [hjob]
        exact iff_of_true ⟨_, hrun, .inl ⟨rfl, .inl ⟨msg, List.mem_cons_self⟩⟩⟩ fun h => (nomatch h)
      · rw [hjob]
        refine iff_of_false ?_ fun h => h rfl
        rintro ⟨r, hr, -⟩
        rw [hrun] at hr
        cases hr
      · rw [hjob]
        refine iff_of_true ⟨_, hrun, ?_⟩ fun h => (nomatch h)
        have hnames := names_of_bgfgJob hjob
        cases env.killOk with
        | true => exact .inr ⟨arg, i, rfl, hnames, hnames.live, rfl, rfl⟩
        | false =>
            exact .inl ⟨rfl, .inr ⟨_, List.mem_cons_of_mem _ List.mem_cons_self⟩⟩

/-- **A null pointer is followed**: `fg %`. -/
theorem null_job_followed : ¬ ∀ (env : Env) (t : JobTable) (cmd : List Char)
    (rest : List (List Char)), cmd = ['f', 'g'] ∨ cmd = ['b', 'g'] → BgfgTotal env t cmd rest := by
  intro h
  obtain ⟨r, hr, -⟩ := h (kindEnv 100) startTable ['f', 'g'] [['%']] (.inl rfl)
  cases hr

end Tsh
