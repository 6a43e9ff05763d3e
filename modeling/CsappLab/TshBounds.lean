/-
**Where `parseline` writes.**

`parseline` writes to two arrays: `array`, which holds a copy of the line, and `argv` of its caller.
It writes to `array` in front of the terminator of the copy, wherever that is; and nothing keeps the
words of a line from being more than `argv` has room for.

Main definitions:

* `Tsh.FgetsLine` — a line as `main` gets it from `fgets`;
* `Tsh.scanLoop`, `Tsh.parselineStores` — `parseline` with arrays that have no end, and the indices
  at which it writes;
* `Tsh.Stores.InBounds` — all of them are in the arrays.

Main results:

* `Tsh.argLoop_eq` — the loop of `parseline` stops at the first index that is outside;
* `Tsh.inBounds_iff_parseline` — so `Tsh.parseline` returns exactly if all indices are inside;
* `Tsh.stores_inBounds_iff` — **for which lines `parseline` stays in bounds**.
-/

import CsappLab.TshParse

set_option relaxedAutoImplicit false
set_option autoImplicit false

namespace Tsh

open CText

/-! ### The function with arrays that have no end -/

/-- What `fgets` has put to `cmdline`: at least one byte, and a newline only at the end. -/
structure FgetsLine where
  bytes : List Char
  ne_nil : bytes ≠ []
  length_lt : bytes.length < maxLine
  newline_notMem : '\n' ∉ bytes.dropLast

/-- The line as a string. -/
def FgetsLine.str (l : FgetsLine) : List Char := cstr l.bytes 0

/-- The loop of `parseline`: the array, the pointers in `argv`, and where a delimiter was
overwritten. -/
def scanLoop (array : List Char) (argv delims : List ℕ) (buf : ℕ) :
    List Char × List ℕ × List ℕ :=
  match h : (nextArg array buf).2 with
  | none => (array, argv, delims)
  | some delim =>
      scanLoop (array.set delim nul) (argv ++ [(nextArg array buf).1]) (delims ++ [delim])
        (skipBlanks (array.set delim nul) (delim + 1))
termination_by array.length - buf
decreasing_by
  have := nextArg_delim h
  simp only [skipBlanks, List.length_set]
  omega

/-- The indices at which the two arrays are written. -/
structure Stores where
  array : List ℤ
  argv : List ℕ

/-- All indices are in the arrays. -/
structure Stores.InBounds (s : Stores) : Prop where
  array : ∀ i ∈ s.array, 0 ≤ i ∧ i < maxLine
  argv : ∀ i ∈ s.argv, i < maxArgs

/-- Where `parseline` writes behind its loop: the null pointer behind the arguments, and another one
for a `&`. -/
def endStores (array : List Char) (argv : List ℕ) : List ℕ :=
  argv.length :: match argv.getLast? with
    | none => []
    | some last => if charAt array last = '&' then [argv.length - 1] else []

/-- `parseline`: `strcpy` writes the line and its terminator, then the last character is
overwritten. -/
def parselineStores (cmdline : List Char) : Stores :=
  let array := cmdline.set (cmdline.length - 1) ' '
  let (array, argv, delims) := scanLoop array [] [] (skipBlanks array 0)
  { array := (List.range (cmdline.length + 1)).map (↑) ++ ((cmdline.length : ℤ) - 1) ::
      delims.map (↑)
    argv := List.range argv.length ++ endStores array argv }

/-! ### The loop -/

theorem scanLoop_step {array : List Char} {argv delims : List ℕ} {buf delim : ℕ}
    (h : (nextArg array buf).2 = some delim) :
    scanLoop array argv delims buf =
      scanLoop (array.set delim nul) (argv ++ [(nextArg array buf).1]) (delims ++ [delim])
        (skipBlanks (array.set delim nul) (delim + 1)) := by
  rw [scanLoop]
  split
  · rename_i heq
    rw [h] at heq
    cases heq
  · rename_i heq
    rw [h] at heq
    cases heq
    rfl

theorem scanLoop_done {array : List Char} {argv delims : List ℕ} {buf : ℕ}
    (h : (nextArg array buf).2 = none) :
    scanLoop array argv delims buf = (array, argv, delims) := by
  rw [scanLoop]
  split
  · rfl
  · rename_i heq
    rw [h] at heq
    cases heq

/-- Delimiters are overwritten in the copy of the line, and `argv` grows. -/
theorem scanLoop_spec (array : List Char) (argv delims : List ℕ) (buf : ℕ) :
    argv.length ≤ (scanLoop array argv delims buf).2.1.length ∧
      ∀ d ∈ (scanLoop array argv delims buf).2.2, d ∈ delims ∨ d < array.length := by
  induction array, argv, delims, buf using scanLoop.induct with
  | case1 array argv delims buf hdelim =>
      rw [scanLoop_done hdelim]
      exact ⟨Nat.le_refl _, fun d hd => .inl hd⟩
  | case2 array argv delims buf delim hdelim ih =>
      rw [scanLoop_step hdelim]
      rw [List.length_append, List.length_set] at ih
      refine ⟨Nat.le_of_succ_le ih.1, fun d hd => ?_⟩
      rcases ih.2 d hd with hd | hd
      · rcases List.mem_append.1 hd with hd | hd
        · exact .inl hd
        · rw [List.mem_singleton.1 hd]
          exact .inr (nextArg_delim hdelim).2
      · exact .inr hd

/-- **The loop of `parseline` stops** at the first index outside `argv`. -/
theorem argLoop_eq (array : List Char) (argv delims : List ℕ) (buf : ℕ)
    (hargv : argv.length ≤ maxArgs) :
    argLoop array argv buf =
      if (scanLoop array argv delims buf).2.1.length ≤ maxArgs then
        .ok ((scanLoop array argv delims buf).1, (scanLoop array argv delims buf).2.1)
      else .error (.argv maxArgs) := by
  induction array, argv, delims, buf using scanLoop.induct with
  | case1 array argv delims buf hdelim =>
      rw [argLoop_done hdelim, scanLoop_done hdelim, if_pos hargv]
  | case2 array argv delims buf delim hdelim ih =>
      have hgrow := (scanLoop_spec (array.set delim nul) (argv ++ [(nextArg array buf).1])
        (delims ++ [delim]) (skipBlanks (array.set delim nul) (delim + 1))).1
      rw [List.length_append, List.length_singleton] at hgrow ih
      rw [argLoop_step hdelim, scanLoop_step hdelim]
      by_cases hroom : argv.length < maxArgs
      · rw [if_pos hroom]
        exact ih hroom
      · rw [if_neg hroom, if_neg (by omega), Nat.le_antisymm hargv (Nat.le_of_not_lt hroom)]

/-! ### All stores -/

theorem endStores_lt_iff (array : List Char) (argv : List ℕ) :
    (∀ i ∈ List.range argv.length ++ endStores array argv, i < maxArgs) ↔
      argv.length < maxArgs := by
  constructor
  · intro h
    exact h _ (List.mem_append_right _ List.mem_cons_self)
  · intro hlen i hi
    have hle : i ≤ argv.length := by
      rcases List.mem_append.1 hi with hi | hi
      · exact Nat.le_of_lt (List.mem_range.1 hi)
      · rw [endStores] at hi
        rcases List.mem_cons.1 hi with hi | hi
        · exact Nat.le_of_eq hi
        · cases hlast : argv.getLast? with
          | none =>
              rw [hlast] at hi
              cases hi
          | some last =>
              rw [hlast] at hi
              dsimp only at hi
              split at hi
              · rw [List.mem_singleton.1 hi]
                exact Nat.sub_le _ _
              · cases hi
    exact Nat.lt_of_le_of_lt hle hlen

/-- `argv` with its terminator fits if `parseEnd` returns. -/
theorem parseEnd_ok_iff (array : List Char) (argv : List ℕ) :
    (∃ p, parseEnd array argv = .ok p) ↔ argv.length < maxArgs := by
  constructor
  · rintro ⟨p, hp⟩
    by_contra hfull
    rw [parseEnd, if_pos (Nat.le_of_not_lt hfull)] at hp
    cases hp
  · intro hlen
    obtain ⟨p, hp, -⟩ := @parseEnd_words array argv hlen
    exact ⟨p, hp⟩

/-- The indices in `array` are inside if the line fits and is not empty. -/
theorem array_inBounds_iff (cmdline : List Char) :
    (∀ i ∈ (parselineStores cmdline).array, 0 ≤ i ∧ i < maxLine) ↔
      cmdline.length < maxLine ∧ cmdline.length ≠ 0 := by
  have hdelims := (scanLoop_spec (cmdline.set (cmdline.length - 1) ' ') [] []
    (skipBlanks (cmdline.set (cmdline.length - 1) ' ') 0)).2
  rw [List.length_set] at hdelims
  simp only [parselineStores, List.mem_append, List.mem_map, List.mem_range, List.mem_cons]
  constructor
  · intro h
    constructor
    · have := (h cmdline.length (.inl ⟨_, Nat.lt_succ_self _, rfl⟩)).2
      omega
    · have := (h _ (.inr (.inl rfl))).1
      omega
  · rintro ⟨hlen, hne⟩ i (⟨k, hk, rfl⟩ | rfl | ⟨d, hd, rfl⟩)
    · omega
    · omega
    · rcases hdelims d hd with hd | hd
      · cases hd
      · omega

/-- **`parseline` returns** exactly if it writes in its arrays only. -/
theorem inBounds_iff_parseline (cmdline : List Char) :
    (parselineStores cmdline).InBounds ↔ ∃ p, parseline cmdline = .ok p := by
  have hboth : (parselineStores cmdline).InBounds ↔
      (cmdline.length < maxLine ∧ cmdline.length ≠ 0) ∧
        (scanLoop (cmdline.set (cmdline.length - 1) ' ') [] []
          (skipBlanks (cmdline.set (cmdline.length - 1) ' ') 0)).2.1.length < maxArgs := by
    rw [← array_inBounds_iff, ← endStores_lt_iff]
    exact ⟨fun h => ⟨h.array, h.argv⟩, fun h => ⟨h.1, h.2⟩⟩
  rw [hboth, parseline]
  by_cases hlong : maxLine ≤ cmdline.length
  · rw [if_pos hlong]
    refine iff_of_false (fun h => Nat.not_lt.2 hlong h.1.1) ?_
    rintro ⟨p, hp⟩
    cases hp
  rw [if_neg hlong]
  by_cases hempty : cmdline.length = 0
  · rw [if_pos hempty]
    refine iff_of_false (fun h => h.1.2 hempty) ?_
    rintro ⟨p, hp⟩
    cases hp
  rw [if_neg hempty, and_iff_right ⟨Nat.lt_of_not_le hlong, hempty⟩]
  dsimp only
  rw [argLoop_eq _ [] [] _ (Nat.zero_le _)]
  by_cases hmany : (scanLoop (cmdline.set (cmdline.length - 1) ' ') [] []
      (skipBlanks (cmdline.set (cmdline.length - 1) ' ') 0)).2.1.length ≤ maxArgs
  · rw [if_pos hmany]
    exact (parseEnd_ok_iff _ _).symm
  · rw [if_neg hmany]
    refine iff_of_false (fun h => hmany (Nat.le_of_lt h)) ?_
    rintro ⟨p, hp⟩
    cases hp

/-- The last character of a line does not matter. -/
theorem parseline_concat (body : List Char) (c : Char) :
    parseline (body ++ [c]) = parseline (body ++ ['\n']) := by
  have hset (d : Char) : (body ++ [d]).set body.length ' ' = body ++ [' '] := by simp
  simp only [parseline, List.length_append, List.length_singleton, Nat.add_sub_cancel, hset]

/-- **For which lines `parseline` stays in bounds**: the first byte is not a NUL, and there are
fewer words than `argv` has room for. -/
theorem stores_inBounds_iff (l : FgetsLine) : (parselineStores l.str).InBounds ↔
    l.str ≠ [] ∧ (lineWords l.str.dropLast).length < maxArgs := by
  rw [inBounds_iff_parseline]
  have hlen : l.str.length < maxLine :=
    Nat.lt_of_le_of_lt (List.takeWhile_sublist _).length_le l.length_lt
  have hnul : nul ∉ l.str := nul_notMem_cstr _ _
  rcases List.eq_nil_or_concat l.str with hnil | ⟨body, c, hstr⟩
  · rw [hnil]
    refine iff_of_false ?_ fun h => h.1 rfl
    rintro ⟨p, hp⟩
    cases hp
  · rw [List.concat_eq_append] at hstr
    rw [hstr] at hlen hnul ⊢
    rw [List.dropLast_concat, parseline_concat, and_iff_right (by simp)]
    have hbody : nul ∉ body := fun h => hnul (List.mem_append_left _ h)
    have hparse := parseline_words hbody (by simpa using hlen)
    split at hparse
    · rename_i hfew
      obtain ⟨p, hp, -⟩ := hparse
      exact iff_of_true ⟨p, hp⟩ hfew
    · rename_i hmany
      rw [hparse]
      exact iff_of_false (fun ⟨p, hp⟩ => (nomatch hp)) hmany

/-- A line that starts with a NUL. -/
def nulLine : FgetsLine where
  bytes := [nul, '\n']
  ne_nil := List.cons_ne_nil _ _
  length_lt := by decide
  newline_notMem := by decide

/-- **A store in front of the array.** -/
theorem store_before_array : ¬ ∀ l : FgetsLine, (parselineStores l.str).InBounds := by
  intro h
  have hstr : nulLine.str = [] := by decide
  have harray := (array_inBounds_iff nulLine.str).1 (h nulLine).array
  rw [hstr] at harray
  exact harray.2 rfl

end Tsh
