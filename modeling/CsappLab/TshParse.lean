/-
**Parsing a command line.**

`parseline` copies the line into a static array, replaces its last character by a blank, and cuts
the copy in place: every argument starts at a pointer into the array and ends at the delimiter
that was overwritten with the terminator.  The model keeps the array and the pointers, as
positions, and stops with a fault at the first write outside an array.

Over it stands the list of words of a line, cut off the front one after the other.  The array that
`parseline` leaves behind reads back as exactly those words.

Main definitions:

* `Tsh.parseline` — the function of the source, with `Tsh.argLoop` for its loop;
* `Tsh.words` — the words of a text.

Main results:

* `Tsh.argLoop_words` — the loop finds the words, and leaves them readable in the array;
* `Tsh.parseline_words` — `parseline` on a newline-terminated line, from the words of the line.
-/

import CsappLab.CText
import Mathlib.Data.List.DropRight

set_option relaxedAutoImplicit false
set_option autoImplicit false

namespace Tsh

open CText

/-! ### The function -/

/-- `MAXLINE`. -/
abbrev maxLine : ℕ := 1024

/-- `MAXARGS`. -/
abbrev maxArgs : ℕ := 128

/-- A single quote. -/
def quote : Char := Char.ofNat 39

/-- What the C standard leaves undefined and the code may run into. -/
inductive Fault where
  /-- a write outside a character array, at an index -/
  | array (i : ℤ)
  /-- a write outside `argv`, at an index -/
  | argv (i : ℕ)
  /-- a null pointer is dereferenced -/
  | nullPointer
  deriving DecidableEq, Repr

/-- Step over blanks. -/
def skipBlanks (array : List Char) (buf : ℕ) : ℕ :=
  buf + ((cstr array buf).takeWhile (· = ' ')).length

/-- Where the next argument starts, and its delimiter if there is one: a quoted argument starts
behind the quote and ends at the next one, any other ends at the next blank. -/
def nextArg (array : List Char) (buf : ℕ) : ℕ × Option ℕ :=
  if charAt array buf = quote then (buf + 1, strchr array (buf + 1) quote)
  else (buf, strchr array buf ' ')

theorem nextArg_delim {array : List Char} {buf delim : ℕ}
    (h : (nextArg array buf).2 = some delim) : buf ≤ delim ∧ delim < array.length := by
  unfold nextArg at h
  split at h
  · have := strchr_some h
    omega
  · exact strchr_some h

/-- The loop that builds the argument list: the array and the pointers stored in `argv`. -/
def argLoop (array : List Char) (argv : List ℕ) (buf : ℕ) : Except Fault (List Char × List ℕ) :=
  match h : (nextArg array buf).2 with
  | none => .ok (array, argv)
  | some delim =>
      if argv.length < maxArgs then
        argLoop (array.set delim nul) (argv ++ [(nextArg array buf).1])
          (skipBlanks (array.set delim nul) (delim + 1))
      else .error (.argv argv.length)
termination_by array.length - buf
decreasing_by
  have := nextArg_delim h
  simp only [skipBlanks, List.length_set]
  omega

/-- What `parseline` leaves behind: the array, the pointers before the first null pointer of
`argv`, and the return value. -/
structure Parse where
  array : List Char
  argv : List ℕ
  bg : ℤ
  deriving DecidableEq, Repr

/-- The arguments as strings. -/
def Parse.args (p : Parse) : List (List Char) := p.argv.map (cstr p.array)

/-- `parseline` behind its loop: terminate `argv` and look for the `&`. -/
def parseEnd (array : List Char) (argv : List ℕ) : Except Fault Parse :=
  if maxArgs ≤ argv.length then .error (.argv argv.length)
  else
    match argv.getLast? with
    | none => .ok { array := array, argv := argv, bg := 1 }  -- ignore blank line
    | some last =>
        if charAt array last = '&' then .ok { array := array, argv := argv.dropLast, bg := 1 }
        else .ok { array := array, argv := argv, bg := 0 }

/-- `parseline`. -/
def parseline (cmdline : List Char) : Except Fault Parse :=
  if maxLine ≤ cmdline.length then .error (.array maxLine)
  else if cmdline.length = 0 then .error (.array (-1))
  else
    let array := cmdline.set (cmdline.length - 1) ' '
    match argLoop array [] (skipBlanks array 0) with
    | .error fault => .error fault
    | .ok (array, argv) => parseEnd array argv

/-! ### Words -/

/-- The first word of a text that does not start with a blank, and what follows it. -/
def firstWord : List Char → Option (List Char × List Char)
  | [] => none
  | c :: s => if c = quote then cut quote s else cut ' ' (c :: s)

theorem firstWord_length {s w r : List Char} (h : firstWord s = some (w, r)) :
    r.length < s.length := by
  cases s with
  | nil => cases h
  | cons c s =>
      rw [firstWord] at h
      split at h
      · rw [(cut_some h).1]
        simp
        omega
      · rw [(cut_some h).1]
        simp
        omega

/-- **The words of a text**, up to the first one that is not closed. -/
def words (s : List Char) : List (List Char) :=
  match _h : firstWord (s.dropWhile (· = ' ')) with
  | none => []
  | some (w, r) => w :: words r
termination_by s.length
decreasing_by
  have h1 := firstWord_length _h
  have h2 := (List.dropWhile_sublist (fun c => decide (c = ' ')) (l := s)).length_le
  omega

theorem words_none {s : List Char} (h : firstWord (s.dropWhile (· = ' ')) = none) :
    words s = [] := by
  rw [words]
  split
  · rfl
  · rename_i heq
    rw [h] at heq
    cases heq

theorem words_some {s w r : List Char} (h : firstWord (s.dropWhile (· = ' ')) = some (w, r)) :
    words s = w :: words r := by
  rw [words]
  split
  · rename_i heq
    rw [h] at heq
    cases heq
  · rename_i heq
    rw [h] at heq
    cases heq
    rfl

/-- Blanks in front do not matter. -/
theorem words_skip (s : List Char) : words (s.dropWhile (· = ' ')) = words s := by
  have hskip : (s.dropWhile (· = ' ')).dropWhile (· = ' ') = s.dropWhile (· = ' ') :=
    List.dropWhile_idempotent _ _
  cases h : firstWord (s.dropWhile (· = ' ')) with
  | none => rw [words_none h, words_none (by rw [hskip, h])]
  | some wr =>
      obtain ⟨w, r⟩ := wr
      rw [words_some h, words_some (by rw [hskip, h])]

/-! ### The loop finds the words -/

theorem drop_skipBlanks {array : List Char} {buf : ℕ} (h : nul ∉ array.drop buf) :
    array.drop (skipBlanks array buf) = (array.drop buf).dropWhile (· = ' ') := by
  rw [skipBlanks, cstr_eq_drop h, ← List.drop_drop]
  generalize array.drop buf = s
  have hsplit := List.takeWhile_append_dropWhile (p := fun c => decide (c = ' ')) (l := s)
  calc s.drop (s.takeWhile (· = ' ')).length
      = (s.takeWhile (· = ' ') ++ s.dropWhile (· = ' ')).drop (s.takeWhile (· = ' ')).length := by
        rw [hsplit]
    _ = s.dropWhile (· = ' ') := List.drop_left

theorem nextArg_nil {array : List Char} {buf : ℕ} (h : array.drop buf = []) :
    (nextArg array buf).2 = none := by
  have hnul : nul ∉ array.drop buf := by simp [h]
  have hq : charAt array buf ≠ quote := by
    rw [charAt_eq_head, cstr_eq_drop hnul, h]
    decide
  rw [nextArg, if_neg hq, strchr_eq_cut hnul, h]
  rfl

theorem nextArg_cons {array s : List Char} {buf : ℕ} {c : Char} (hnul : nul ∉ array.drop buf)
    (h : array.drop buf = c :: s) :
    nextArg array buf =
      if c = quote then (buf + 1, (cut quote s).map fun ws => buf + 1 + ws.1.length)
      else (buf, (cut ' ' (c :: s)).map fun ws => buf + ws.1.length) := by
  have hc : charAt array buf = c := by rw [charAt_eq_head, cstr_eq_drop hnul, h]; rfl
  have hs : array.drop (buf + 1) = s := by rw [← List.drop_drop, h]; rfl
  have hnul' : nul ∉ array.drop (buf + 1) := by
    rw [hs]
    rw [h] at hnul
    exact fun hmem => hnul (List.mem_cons_of_mem c hmem)
  rw [nextArg, hc, strchr_eq_cut hnul, strchr_eq_cut hnul', h, hs]

/-- The next argument is the first word of the rest of the array. -/
theorem nextArg_none {array : List Char} {buf : ℕ} (hnul : nul ∉ array.drop buf)
    (hw : firstWord (array.drop buf) = none) : (nextArg array buf).2 = none := by
  cases hs : array.drop buf with
  | nil => exact nextArg_nil hs
  | cons c s =>
      rw [hs, firstWord] at hw
      rw [nextArg_cons hnul hs]
      split
      · rename_i hc
        rw [if_pos hc] at hw
        simp [hw]
      · rename_i hc
        rw [if_neg hc] at hw
        simp [hw]

theorem nextArg_some {array w r : List Char} {buf : ℕ} (hnul : nul ∉ array.drop buf)
    (hw : firstWord (array.drop buf) = some (w, r)) :
    buf ≤ (nextArg array buf).1 ∧ (nextArg array buf).2 = some ((nextArg array buf).1 + w.length) ∧
      ∃ c, array.drop (nextArg array buf).1 = w ++ c :: r := by
  cases hs : array.drop buf with
  | nil =>
      rw [hs] at hw
      cases hw
  | cons c s =>
      rw [hs, firstWord] at hw
      rw [nextArg_cons hnul hs]
      split
      · rename_i hc
        rw [if_pos hc] at hw
        refine ⟨by simp, by simp [hw], quote, ?_⟩
        have hs' : array.drop (buf + 1) = s := by rw [← List.drop_drop, hs]; rfl
        rw [hs', (cut_some hw).1]
      · rename_i hc
        rw [if_neg hc] at hw
        exact ⟨le_refl _, by simp [hw], ' ', by rw [hs, (cut_some hw).1]⟩

/-- Overwriting the delimiter behind a word. -/
theorem set_delim {array w r : List Char} {b : ℕ} {c : Char} (h : array.drop b = w ++ c :: r) :
    (array.set (b + w.length) nul).drop (b + w.length + 1) = r ∧
      ((array.set (b + w.length) nul).take (b + w.length + 1)).drop b = w ++ [nul] ∧
      (array.set (b + w.length) nul).take b = array.take b := by
  have hb : (array.take b).length = b := by
    rw [List.length_take, Nat.min_eq_left]
    by_contra hlt
    rw [List.drop_eq_nil_of_le (by omega)] at h
    simp at h
  have harray : array = array.take b ++ (w ++ c :: r) := by
    rw [← h, List.take_append_drop]
  have hset : array.set (b + w.length) nul = array.take b ++ (w ++ nul :: r) := by
    conv_lhs => rw [harray]
    simp [hb]
  have hassoc : array.take b ++ (w ++ nul :: r) = (array.take b ++ (w ++ [nul])) ++ r := by simp
  have hlen : (array.take b ++ (w ++ [nul])).length = b + w.length + 1 := by
    simp only [List.length_append, List.length_singleton, hb]
    omega
  refine ⟨?_, ?_, ?_⟩
  · rw [hset, hassoc, List.drop_left' hlen]
  · rw [hset, hassoc, List.take_left' hlen, List.drop_left' hb]
  · rw [hset, List.take_left' hb]

/-- The same, from the delimiter: there is a first word, and it ends there. -/
theorem nextArg_split {array : List Char} {buf delim : ℕ} (hnul : nul ∉ array.drop buf)
    (h : (nextArg array buf).2 = some delim) :
    ∃ w r, firstWord (array.drop buf) = some (w, r) ∧ buf ≤ (nextArg array buf).1 ∧
      delim = (nextArg array buf).1 + w.length ∧
      (∃ c, array.drop (nextArg array buf).1 = w ++ c :: r) ∧ nul ∉ w ∧ nul ∉ r := by
  cases hw : firstWord (array.drop buf) with
  | none =>
      rw [nextArg_none hnul hw] at h
      cases h
  | some wr =>
      obtain ⟨w, r⟩ := wr
      obtain ⟨hle, hd, c, hdrop⟩ := nextArg_some hnul hw
      rw [h] at hd
      have hsub : nul ∉ array.drop (nextArg array buf).1 := by
        intro hmem
        have hb : array.drop (nextArg array buf).1 =
            (array.drop buf).drop ((nextArg array buf).1 - buf) := by
          rw [List.drop_drop]
          congr 1
          omega
        rw [hb] at hmem
        exact hnul (List.mem_of_mem_drop hmem)
      rw [hdrop, List.mem_append, List.mem_cons, not_or, not_or] at hsub
      exact ⟨w, r, rfl, hle, Option.some.inj hd, ⟨c, hdrop⟩, hsub.1, hsub.2.2⟩

/-- One turn of the loop. -/
theorem argLoop_step {array : List Char} {argv : List ℕ} {buf delim : ℕ}
    (h : (nextArg array buf).2 = some delim) :
    argLoop array argv buf =
      if argv.length < maxArgs then
        argLoop (array.set delim nul) (argv ++ [(nextArg array buf).1])
          (skipBlanks (array.set delim nul) (delim + 1))
      else .error (.argv argv.length) := by
  rw [argLoop]
  split
  · rename_i heq
    rw [h] at heq
    cases heq
  · rename_i heq
    rw [h] at heq
    cases heq
    rfl

theorem argLoop_done {array : List Char} {argv : List ℕ} {buf : ℕ}
    (h : (nextArg array buf).2 = none) : argLoop array argv buf = .ok (array, argv) := by
  rw [argLoop]
  split
  · rfl
  · rename_i heq
    rw [h] at heq
    cases heq

/-- **The loop finds the words**: it stores a pointer for each word of the rest of the array, the
final array reads the words back there, and it faults iff there are too many of them. -/
theorem argLoop_words (array : List Char) (argv : List ℕ) (buf : ℕ)
    (hnul : nul ∉ array.drop buf) (hskip : (array.drop buf).dropWhile (· = ' ') = array.drop buf)
    (hargv : argv.length ≤ maxArgs) :
    if argv.length + (words (array.drop buf)).length ≤ maxArgs then
      ∃ array' offs, argLoop array argv buf = .ok (array', argv ++ offs) ∧
        offs.map (cstr array') = words (array.drop buf) ∧ array'.take buf = array.take buf
    else argLoop array argv buf = .error (.argv maxArgs) := by
  induction array, argv, buf using argLoop.induct with
  | case1 array argv buf hdelim =>
      -- no delimiter is left, so that no word is
      have hw : firstWord (array.drop buf) = none := by
        cases hw : firstWord (array.drop buf) with
        | none => rfl
        | some wr =>
            have := (nextArg_some hnul hw).2.1
            rw [hdelim] at this
            cases this
      rw [words_none (by rw [hskip, hw])]
      simp only [List.length_nil, Nat.add_zero, if_pos hargv]
      exact ⟨array, [], by rw [argLoop_done hdelim, List.append_nil], rfl, rfl⟩
  | case2 array argv buf delim hdelim hlt ih =>
      -- one more word: its delimiter is overwritten, and the loop goes on behind it
      obtain ⟨w, r, hw, hle, hd, ⟨c, hdrop⟩, hnulw, hnulr⟩ := nextArg_split hnul hdelim
      obtain ⟨hrest, hword, htake⟩ := set_delim hdrop
      rw [← hd] at hrest hword htake
      have hdrop' : (array.set delim nul).drop (skipBlanks (array.set delim nul) (delim + 1)) =
          ((array.set delim nul).drop (delim + 1)).dropWhile (· = ' ') :=
        drop_skipBlanks (by rw [hrest]; exact hnulr)
      rw [hrest] at hdrop'
      have ih' := ih (by rw [hdrop']; exact fun hmem => hnulr ((List.dropWhile_sublist _).mem hmem))
        (by rw [hdrop', List.dropWhile_idempotent]) (by simp; omega)
      rw [hdrop', words_skip] at ih'
      rw [words_some (by rw [hskip, hw]), List.length_cons, argLoop_step hdelim, if_pos hlt]
      simp only [List.length_append, List.length_singleton] at ih'
      have hsum : argv.length + ((words r).length + 1) = argv.length + 1 + (words r).length := by
        omega
      rw [hsum]
      split
      · rename_i hfit
        rw [if_pos hfit] at ih'
        obtain ⟨array', offs, hloop, hmap, htake'⟩ := ih'
        -- what lies before the rest of the line is not touched again
        have hstart : ∀ n, n ≤ delim + 1 → array'.take n = (array.set delim nul).take n := by
          intro n hn
          have hskip' : n ≤ skipBlanks (array.set delim nul) (delim + 1) :=
            hn.trans (Nat.le_add_right _ _)
          rw [← Nat.min_eq_left hskip', ← List.take_take, htake', List.take_take]
        refine ⟨array', (nextArg array buf).1 :: offs, by rw [hloop]; simp, ?_, ?_⟩
        · rw [List.map_cons, hmap, cstr_of_take hnulw]
          rw [← hd, hstart _ (le_refl _)]
          exact hword
        · have hb := congrArg (List.take buf) htake
          rw [List.take_take, List.take_take, Nat.min_eq_left hle] at hb
          rw [hstart buf (by omega), hb]
      · rename_i hfit
        rw [if_neg hfit] at ih'
        exact ih'
  | case3 array argv buf delim hdelim hlt =>
      obtain ⟨w, r, hw, -⟩ := nextArg_split hnul hdelim
      -- `argv` is full, and the next store is out of its bounds
      have hfull : argv.length = maxArgs := by omega
      rw [words_some (by rw [hskip, hw]), List.length_cons, if_neg (by omega),
        argLoop_step hdelim, if_neg hlt, hfull]

/-! ### A whole line -/

/-- The words of a newline-terminated line, whose newline is read as a blank. -/
def lineWords (body : List Char) : List (List Char) := words (body ++ [' '])

/-- What `parseline` makes of a list of words: a last word that starts with `&` is dropped and
asks for the background. -/
def parseWords (ws : List (List Char)) : List (List Char) × ℤ :=
  match ws.getLast? with
  | none => ([], 1)
  | some last => if last.head? = some '&' then (ws.dropLast, 1) else (ws, 0)

theorem parseEnd_words {array : List Char} {argv : List ℕ} (h : argv.length < maxArgs) :
    ∃ p, parseEnd array argv = .ok p ∧ (p.args, p.bg) = parseWords (argv.map (cstr array)) := by
  rw [parseEnd, if_neg (by omega), parseWords, List.getLast?_map]
  cases hlast : argv.getLast? with
  | none =>
      have hnil : argv = [] := List.getLast?_eq_none_iff.1 hlast
      exact ⟨_, rfl, by simp [Parse.args, hnil]⟩
  | some last =>
      have hamp : charAt array last = '&' ↔ (cstr array last).head? = some '&' := by
        rw [charAt_eq_head]
        cases cstr array last with
        | nil => exact ⟨fun h => absurd h (by decide), fun h => by cases h⟩
        | cons c s => simp
      simp only [Option.map_some]
      split
      · rename_i h
        rw [if_pos (hamp.1 h)]
        exact ⟨_, rfl, by simp [Parse.args, List.map_dropLast]⟩
      · rename_i h
        rw [if_neg fun hc => h (hamp.2 hc)]
        exact ⟨_, rfl, rfl⟩

/-- On a line that fits, `parseline` is its loop on the line with the newline blanked. -/
theorem parseline_loop {body : List Char} (hlen : body.length + 1 < maxLine) :
    parseline (body ++ ['\n']) =
      match argLoop (body ++ [' ']) [] (skipBlanks (body ++ [' ']) 0) with
      | .error fault => .error fault
      | .ok (array, argv) => parseEnd array argv := by
  have hset : (body ++ ['\n']).set ((body ++ ['\n']).length - 1) ' ' = body ++ [' '] := by simp
  have hfit : ¬ maxLine ≤ (body ++ ['\n']).length := by simpa using hlen
  rw [parseline, if_neg hfit, if_neg (by simp), hset]

/-- **`parseline` on a newline-terminated line**: it faults iff the line has too many words, and
otherwise returns the words, without a last one that starts with `&`. -/
theorem parseline_words {body : List Char} (hnul : nul ∉ body) (hlen : body.length + 1 < maxLine) :
    if (lineWords body).length < maxArgs then
      ∃ p, parseline (body ++ ['\n']) = .ok p ∧ (p.args, p.bg) = parseWords (lineWords body)
    else parseline (body ++ ['\n']) = .error (.argv maxArgs) := by
  have hnul' : nul ∉ (body ++ [' ']).drop 0 := by
    rw [List.drop_zero, List.mem_append, not_or]
    exact ⟨hnul, by decide⟩
  have hdrop := drop_skipBlanks hnul'
  rw [List.drop_zero] at hdrop
  have hloop := argLoop_words (body ++ [' ']) [] (skipBlanks (body ++ [' ']) 0)
    (by rw [hdrop]; exact fun h => hnul' ((List.dropWhile_sublist _).mem h))
    (by rw [hdrop, List.dropWhile_idempotent]) (by simp)
  rw [hdrop, words_skip, ← lineWords] at hloop
  simp only [List.length_nil, Nat.zero_add, List.nil_append] at hloop
  rw [parseline_loop hlen]
  split
  · rename_i hfew
    rw [if_pos (by omega)] at hloop
    obtain ⟨array, offs, hrun, hmap, -⟩ := hloop
    have hcount : offs.length = (lineWords body).length := by rw [← hmap, List.length_map]
    rw [← hmap]
    simp only [hrun]
    exact parseEnd_words (by omega)
  · rename_i hmany
    split at hloop
    · obtain ⟨array, offs, hrun, hmap, -⟩ := hloop
      have hcount : offs.length = (lineWords body).length := by rw [← hmap, List.length_map]
      have hfull : offs.length = maxArgs := by omega
      simp only [hrun]
      rw [parseEnd, if_pos (by omega), hfull]
    · simp only [hloop]

end Tsh
