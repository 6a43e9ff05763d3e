/-
**Printing a command line.**

A command line is typed as a row of arguments with blanks between them.  An argument stands there
as it is, or between single quotes if it is empty or has blanks; a word `&` behind the arguments
asks for the background.  `parseline` gets back the arguments from what was typed.

Main definitions:

* `Tsh.BareWord`, `Tsh.QuotedWord`, `Tsh.Arg` — arguments, and how they are typed;
* `Tsh.CommandLine` — a command line as it is typed.

Main results:

* `Tsh.lineWords_body` — the words of a command line are its arguments, and the `&`;
* `Tsh.parseline_commandLine` — **`parseline` gets back the arguments**.
-/

import CsappLab.TshParse

set_option relaxedAutoImplicit false
set_option autoImplicit false

namespace Tsh

open CText

/-! ### Command lines -/

/-- Characters that may stand in an argument. -/
def Typable (w : List Char) : Prop := '\n' ∉ w ∧ nul ∉ w

/-- An argument that is typed as it is. -/
structure BareWord where
  text : List Char
  ne_nil : text ≠ []
  blank_notMem : ' ' ∉ text
  head_ne : text.head? ≠ some quote
  typable : Typable text

/-- An argument that is typed between quotes. -/
structure QuotedWord where
  text : List Char
  quote_notMem : quote ∉ text
  typable : Typable text

/-- An argument. -/
inductive Arg where
  | bare (w : BareWord)
  | quoted (w : QuotedWord)

namespace Arg

/-- What an argument is. -/
def text : Arg → List Char
  | bare w => w.text
  | quoted w => w.text

/-- How it is typed. -/
def chars : Arg → List Char
  | bare w => w.text
  | quoted w => quote :: (w.text ++ [quote])

end Arg

/-- The word that asks for the background. -/
def ampersand : Arg := .bare ⟨['&'], by decide, by decide, by decide, by decide, by decide⟩

/-- Blanks. -/
def blanks (n : ℕ) : List Char := List.replicate n ' '

/-- A command line: blanks, the first argument, the others with the number of additional blanks in
front of each, the same for the `&` if there is one, and blanks. -/
structure CommandLine where
  lead : ℕ
  first : Arg
  rest : List (ℕ × Arg)
  amp : Option ℕ
  trail : ℕ

namespace CommandLine

/-- The arguments. -/
def args (l : CommandLine) : List Arg := l.first :: l.rest.map Prod.snd

/-- What stands behind the first argument: the other words, and blanks. -/
def behind (rest : List (ℕ × Arg)) (trail : ℕ) : List Char :=
  (rest.flatMap fun p => blanks (p.1 + 1) ++ p.2.chars) ++ blanks trail

/-- The words behind the first argument. -/
def others (l : CommandLine) : List (ℕ × Arg) :=
  l.rest ++ (l.amp.map (·, ampersand)).toList

/-- The line without the newline at its end. -/
def body (l : CommandLine) : List Char :=
  blanks l.lead ++ (l.first.chars ++ behind l.others l.trail)

end CommandLine

/-! ### Words that are typed -/

theorem words_blanks (n : ℕ) (s : List Char) : words (blanks n ++ s) = words s := by
  have hblank : ∀ c ∈ blanks n, decide (c = ' ') = true := fun c hc =>
    decide_eq_true (List.eq_of_mem_replicate hc)
  rw [← words_skip, List.dropWhile_append_of_pos hblank, words_skip]

theorem words_nil : words [] = [] := words_none rfl

/-- **An argument with a blank behind it is one word.** -/
theorem words_arg (a : Arg) {s : List Char} (hs : s.head? = some ' ') :
    words (a.chars ++ s) = a.text :: words s := by
  obtain ⟨r, rfl⟩ : ∃ r, s = ' ' :: r := by
    cases s with
    | nil => cases hs
    | cons c r => exact ⟨r, by rw [Option.some.inj hs]⟩
  cases a with
  | bare w =>
      obtain ⟨c, t, hct⟩ := List.exists_cons_of_ne_nil w.ne_nil
      have hblank : c ≠ ' ' := by
        rintro rfl
        exact w.blank_notMem (hct ▸ List.mem_cons_self)
      have hquote : c ≠ quote := by
        rintro rfl
        exact w.head_ne (by rw [hct]; rfl)
      have hfirst : firstWord ((w.text ++ ' ' :: r).dropWhile (· = ' ')) = some (w.text, r) := by
        rw [← cut_append w.blank_notMem r, hct, List.cons_append,
          List.dropWhile_cons_of_neg (by simpa using hblank), firstWord, if_neg hquote]
      exact (words_some hfirst).trans (by rw [← words_blanks 1 r]; rfl)
  | quoted w =>
      have hfirst : firstWord ((quote :: (w.text ++ [quote]) ++ ' ' :: r).dropWhile (· = ' ')) =
          some (w.text, ' ' :: r) := by
        rw [← cut_append w.quote_notMem (' ' :: r), List.cons_append,
          List.dropWhile_cons_of_neg (by decide), firstWord, if_pos rfl, List.append_assoc]
        rfl
      exact words_some hfirst

theorem head_behind (rest : List (ℕ × Arg)) (trail : ℕ) :
    (CommandLine.behind rest trail ++ [' ']).head? = some ' ' := by
  cases rest with
  | nil => cases trail <;> rfl
  | cons p rest => rfl

theorem words_behind (rest : List (ℕ × Arg)) (trail : ℕ) :
    words (CommandLine.behind rest trail ++ [' ']) = rest.map fun p => p.2.text := by
  induction rest with
  | nil =>
      have hblanks := words_blanks (trail + 1) []
      rw [List.append_nil, blanks, List.replicate_succ', words_nil] at hblanks
      exact hblanks
  | cons p rest ih =>
      have hcons : CommandLine.behind (p :: rest) trail ++ [' '] =
          blanks (p.1 + 1) ++ (p.2.chars ++ (CommandLine.behind rest trail ++ [' '])) := by
        simp [CommandLine.behind]
      rw [hcons, words_blanks, words_arg p.2 (head_behind rest trail), ih]
      rfl

/-- **The words of a command line.** -/
theorem lineWords_body (l : CommandLine) : lineWords l.body =
    l.args.map Arg.text ++ (if l.amp.isSome then [['&']] else []) := by
  rw [lineWords, CommandLine.body, List.append_assoc, List.append_assoc, words_blanks,
    words_arg _ (head_behind _ _), words_behind, CommandLine.others, List.map_append,
    CommandLine.args, List.map_cons, List.map_map]
  cases l.amp <;> rfl

/-! ### The line as a string -/

theorem nul_notMem_blanks (n : ℕ) : nul ∉ blanks n := fun h =>
  absurd (List.eq_of_mem_replicate h) (by decide)

theorem Arg.nul_notMem (a : Arg) : nul ∉ a.chars := by
  cases a with
  | bare w => exact w.typable.2
  | quoted w =>
      rw [Arg.chars, List.mem_cons, List.mem_append, List.mem_singleton]
      rintro (h | h | h)
      · exact absurd h (by decide)
      · exact w.typable.2 h
      · exact absurd h (by decide)

theorem nul_notMem_body (l : CommandLine) : nul ∉ l.body := by
  rw [CommandLine.body, CommandLine.behind]
  simp only [List.mem_append, List.mem_flatMap]
  rintro (h | h | ⟨p, -, h | h⟩ | h)
  · exact nul_notMem_blanks _ h
  · exact l.first.nul_notMem h
  · exact nul_notMem_blanks _ h
  · exact p.2.nul_notMem h
  · exact nul_notMem_blanks _ h

/-! ### Parsing -/

/-- A last word that does not start with `&` is kept. -/
theorem parseWords_of_head {ws : List (List Char)} (hne : ws ≠ [])
    (h : ∀ w ∈ ws, w.head? ≠ some '&') : parseWords ws = (ws, 0) := by
  rw [parseWords, List.getLast?_eq_some_getLast hne]
  exact if_neg (h _ (List.getLast_mem hne))

/-- **`parseline` gets back the arguments** of a command line: it stores a pointer to each of them,
and a null pointer behind them, and asks for the background if there is a `&`. -/
theorem parseline_commandLine (l : CommandLine) (hargs : l.args.length ≤ 126)
    (hamp : ∀ a ∈ l.args, a.text.head? ≠ some '&') (hlen : (l.body ++ ['\n']).length < maxLine) :
    ∃ p, parseline (l.body ++ ['\n']) = .ok p ∧ p.args = l.args.map Arg.text ∧
      p.argv.length < maxArgs ∧ p.bg = if l.amp.isSome then 1 else 0 := by
  have hwords := lineWords_body l
  have hfew : (lineWords l.body).length < maxArgs := by
    rw [hwords, List.length_append, List.length_map]
    cases l.amp with
    | none => exact Nat.lt_of_le_of_lt hargs (by decide)
    | some g => exact Nat.lt_of_le_of_lt (Nat.succ_le_succ hargs) (by decide)
  have hparse := parseline_words (nul_notMem_body l) (by simpa using hlen)
  rw [if_pos hfew] at hparse
  obtain ⟨p, hp, hresult⟩ := hparse
  have hparsed : parseWords (lineWords l.body) =
      (l.args.map Arg.text, if l.amp.isSome then 1 else 0) := by
    rw [hwords]
    cases l.amp with
    | none =>
        rw [if_neg (by simp), if_neg (by simp), List.append_nil]
        refine parseWords_of_head (by simp [CommandLine.args]) fun w hw => ?_
        obtain ⟨a, ha, rfl⟩ := List.mem_map.1 hw
        exact hamp a ha
    | some g =>
        rw [Option.isSome_some, if_pos rfl, if_pos rfl, parseWords, List.getLast?_concat,
          List.dropLast_concat]
        rfl
  obtain ⟨hpargs, hbg⟩ := Prod.mk.inj (hresult.trans hparsed)
  have hlength := congrArg List.length hpargs
  rw [Parse.args, List.length_map, List.length_map] at hlength
  exact ⟨p, hp, hpargs, Nat.lt_of_le_of_lt (hlength.trans_le hargs) (by decide), hbg⟩

/-- The line `'a b' ls  &`. -/
def quotedLine : CommandLine where
  lead := 0
  first := .quoted ⟨['a', ' ', 'b'], by decide, by decide, by decide⟩
  rest := [(0, .bare ⟨['l', 's'], by decide, by decide, by decide, by decide, by decide⟩)]
  amp := some 1
  trail := 0

theorem parseline_quotedLine : ∃ p, parseline (quotedLine.body ++ ['\n']) = .ok p ∧
    p.args = quotedLine.args.map Arg.text ∧ p.argv.length < maxArgs ∧ p.bg = 1 :=
  parseline_commandLine quotedLine (by decide)
    (List.forall_mem_cons.2 ⟨by decide, List.forall_mem_singleton.2 (by decide)⟩) (by decide)

end Tsh
