/-
**Reading numbers out of C strings.**

The conversions of the C library that a `sscanf` format or `strtol` are built from, on the
contents of a C string: a list of characters without its terminating NUL.  Each conversion
consumes a prefix of the string and returns the value together with what is left, or nothing when
the input does not match.

Main definitions:

* `CText.isSpace`, `CText.skipSpace` — the white space of the C locale;
* `CText.spanDigits`, `CText.digitsVal` — a run of digits and the number it denotes;
* `CText.scanLx`, `CText.scanD` — the conversions `%lx` and `%d`;
* `CText.cstr`, `CText.strchr` — the C string at a position of an array, and a search in it;
* `CText.cut` — a string split at the first occurrence of a character;
* `CText.strcpy`, `CText.strstr`, `CText.scanS` — copying a string, searching for one, and `%s`;
* `CText.printD` — the conversion `%d` of `printf`.

Main results:

* `CText.scanLx_hex`, `CText.scanD_digits` — the two conversions on a plain numeral;
* `CText.strchr_eq_cut`, `CText.cstr_of_take` — what a search finds is where the string is cut, and
  a string is read back from its characters and its terminator;
* `CText.cstr_strcpy_inside`, `CText.cstr_strcpy_before`, `CText.cstr_strcpy_behind` — the strings
  of an array after a copy;
* `CText.scanD_printD` — a number that was printed is read back.
-/

import Mathlib.Algebra.Ring.Int.Defs
import Mathlib.Algebra.Ring.Nat
import Mathlib.Data.Int.Notation
import Mathlib.Data.List.Basic
import Mathlib.Data.List.TakeWhile
import Mathlib.Tactic.Common

set_option relaxedAutoImplicit false
set_option autoImplicit false

namespace CText

/-! ### White space -/

/-- `isspace` in the C locale: the blank and the control characters from tab to carriage
return. -/
def isSpace (c : Char) : Bool := c.toNat = 32 || (9 ≤ c.toNat && c.toNat ≤ 13)

/-- A white-space directive: skip any amount of white space, including none. -/
def skipSpace (s : List Char) : List Char := s.dropWhile isSpace

theorem skipSpace_append {w s : List Char} (hw : ∀ c ∈ w, isSpace c = true) :
    skipSpace (w ++ s) = skipSpace s := by
  induction w with
  | nil => rfl
  | cons c w ih =>
      rw [skipSpace, List.cons_append, List.dropWhile_cons_of_pos (hw c (List.mem_cons_self ..))]
      exact ih fun x hx => hw x (List.mem_cons_of_mem _ hx)

theorem skipSpace_cons {c : Char} {s : List Char} (hc : isSpace c = false) :
    skipSpace (c :: s) = c :: s :=
  List.dropWhile_cons_of_neg (by simp [hc])

/-! ### Digits -/

/-- The value of a decimal digit. -/
def decVal (c : Char) : Option ℕ :=
  if 48 ≤ c.toNat ∧ c.toNat ≤ 57 then some (c.toNat - 48) else none

/-- The value of a hexadecimal digit, in either case. -/
def hexVal (c : Char) : Option ℕ :=
  if 48 ≤ c.toNat ∧ c.toNat ≤ 57 then some (c.toNat - 48)
  else if 97 ≤ c.toNat ∧ c.toNat ≤ 102 then some (c.toNat - 87)
  else if 65 ≤ c.toNat ∧ c.toNat ≤ 70 then some (c.toNat - 55)
  else none

/-- The longest run of digits at the front, as values, and the rest. -/
def spanDigits (val : Char → Option ℕ) : List Char → List ℕ × List Char
  | [] => ([], [])
  | c :: s =>
      match val c with
      | none => ([], c :: s)
      | some d => (d :: (spanDigits val s).1, (spanDigits val s).2)

/-- The number written by a run of digits, most significant first. -/
def digitsVal (base : ℕ) (ds : List ℕ) : ℕ := ds.foldl (fun n d => n * base + d) 0

theorem spanDigits_append {val : Char → Option ℕ} {ds s : List Char}
    (hds : ∀ c ∈ ds, (val c).isSome) (hs : ∀ c ∈ s.head?, val c = none) :
    spanDigits val (ds ++ s) = (ds.filterMap val, s) := by
  induction ds with
  | nil =>
      cases s with
      | nil => rfl
      | cons c s => simp [spanDigits, hs c rfl]
  | cons c ds ih =>
      obtain ⟨d, hd⟩ := Option.isSome_iff_exists.1 (hds c (List.mem_cons_self ..))
      have ih' := ih fun x hx => hds x (List.mem_cons_of_mem _ hx)
      simp [spanDigits, hd, ih']

/-! ### The numeric conversions -/

/-- An optional sign: whether it was a minus, and the rest. -/
def optSign : List Char → Bool × List Char
  | [] => (false, [])
  | c :: s => if c = '-' then (true, s) else if c = '+' then (false, s) else (false, c :: s)

/-- An optional `0x` before hexadecimal digits. -/
def optHexPrefix : List Char → List Char
  | c :: d :: s => if c = '0' ∧ (d = 'x' ∨ d = 'X') then s else c :: d :: s
  | s => s

/-- `strtoul` clamps a number that is too large and negates modulo `2 ^ 64`. -/
def toULong (neg : Bool) (n : ℕ) : BitVec 64 :=
  if 2 ^ 64 ≤ n then BitVec.allOnes 64
  else if neg then - BitVec.ofNat 64 n else BitVec.ofNat 64 n

/-- The conversion `%lx`. -/
def scanLx (s : List Char) : Option (BitVec 64 × List Char) :=
  let sg := optSign (skipSpace s)
  let sp := spanDigits hexVal (optHexPrefix sg.2)
  if sp.1 = [] then none else some (toULong sg.1 (digitsVal 16 sp.1), sp.2)

/-- `strtol` clamps to `long`; the result is then stored in an `int`. -/
def toInt (neg : Bool) (n : ℕ) : ℤ :=
  let v : ℤ := if neg then max (-(2 : ℤ) ^ 63) (-(n : ℤ)) else min ((2 : ℤ) ^ 63 - 1) n
  Int.bmod v (2 ^ 32)

/-- The conversion `%d`, and the number `atoi` reads. -/
def scanD (s : List Char) : Option (ℤ × List Char) :=
  let sg := optSign (skipSpace s)
  let sp := spanDigits decVal sg.2
  if sp.1 = [] then none else some (toInt sg.1 (digitsVal 10 sp.1), sp.2)

/-! ### The conversions on plain numerals -/

theorem hexVal_not_space {c : Char} (h : (hexVal c).isSome) : isSpace c = false := by
  by_contra hs
  simp only [isSpace, Bool.not_eq_false, Bool.or_eq_true, decide_eq_true_eq,
    Bool.and_eq_true] at hs
  have : hexVal c = none := by
    unfold hexVal
    rw [if_neg (by omega), if_neg (by omega), if_neg (by omega)]
  simp [this] at h

theorem decVal_not_space {c : Char} (h : (decVal c).isSome) : isSpace c = false := by
  by_contra hs
  simp only [isSpace, Bool.not_eq_false, Bool.or_eq_true, decide_eq_true_eq,
    Bool.and_eq_true] at hs
  have : decVal c = none := by
    unfold decVal
    rw [if_neg (by omega)]
  simp [this] at h

/-- A hexadecimal digit is not a sign. -/
theorem optSign_of_hex {c : Char} {s : List Char} (h : (hexVal c).isSome) :
    optSign (c :: s) = (false, c :: s) := by
  have hm : c ≠ '-' := by rintro rfl; simp [hexVal] at h
  have hp : c ≠ '+' := by rintro rfl; simp [hexVal] at h
  simp [optSign, hm, hp]

/-- A decimal digit is not a sign. -/
theorem optSign_of_dec {c : Char} {s : List Char} (h : (decVal c).isSome) :
    optSign (c :: s) = (false, c :: s) := by
  have hm : c ≠ '-' := by rintro rfl; simp [decVal] at h
  have hp : c ≠ '+' := by rintro rfl; simp [decVal] at h
  simp [optSign, hm, hp]

/-- A run of hexadecimal digits does not start with `0x`. -/
theorem optHexPrefix_of_hex {ds s : List Char} (hne : ds ≠ []) (hds : ∀ c ∈ ds, (hexVal c).isSome)
    (hs : ∀ c ∈ s.head?, c ≠ 'x' ∧ c ≠ 'X') : optHexPrefix (ds ++ s) = ds ++ s := by
  have key : ∀ d ∈ (ds ++ s).tail.head?, d ≠ 'x' ∧ d ≠ 'X' := by
    intro d hd
    match ds, hne with
    | [_], _ => exact hs d (by simpa using hd)
    | _ :: e :: _, _ =>
        obtain rfl : e = d := by simpa using hd
        have he := hds e (by simp)
        constructor <;> (rintro rfl; simp [hexVal] at he)
  match h : ds ++ s with
  | [] => rfl
  | [_] => rfl
  | c :: d :: t =>
      have hd := key d (by simp [h])
      simp [optHexPrefix, hd.1, hd.2]

/-- `%lx` on white space and a plain hexadecimal numeral. -/
theorem scanLx_hex {w ds s : List Char} (hw : ∀ c ∈ w, isSpace c = true) (hne : ds ≠ [])
    (hds : ∀ c ∈ ds, (hexVal c).isSome) (hs : ∀ c ∈ s.head?, hexVal c = none ∧ c ≠ 'x' ∧ c ≠ 'X') :
    scanLx (w ++ (ds ++ s)) = some (toULong false (digitsVal 16 (ds.filterMap hexVal)), s) := by
  obtain ⟨c, t, rfl⟩ := List.exists_cons_of_ne_nil hne
  have hc := hds c (List.mem_cons_self ..)
  have hsp : skipSpace (w ++ (c :: t ++ s)) = c :: (t ++ s) := by
    rw [skipSpace_append hw, List.cons_append, skipSpace_cons (hexVal_not_space hc)]
  have hpre : optHexPrefix (c :: (t ++ s)) = c :: t ++ s :=
    optHexPrefix_of_hex hne hds fun x hx => (hs x hx).2
  have hspan := spanDigits_append hds fun x hx => (hs x hx).1
  have hnil : (c :: t).filterMap hexVal ≠ [] := by
    obtain ⟨d, hd⟩ := Option.isSome_iff_exists.1 hc
    simp [hd]
  simp only [scanLx, hsp, optSign_of_hex hc, hpre, hspan, if_neg hnil]

/-- `%d` on white space and a plain decimal numeral. -/
theorem scanD_digits {w ds s : List Char} (hw : ∀ c ∈ w, isSpace c = true) (hne : ds ≠ [])
    (hds : ∀ c ∈ ds, (decVal c).isSome) (hs : ∀ c ∈ s.head?, decVal c = none) :
    scanD (w ++ (ds ++ s)) = some (toInt false (digitsVal 10 (ds.filterMap decVal)), s) := by
  obtain ⟨c, t, rfl⟩ := List.exists_cons_of_ne_nil hne
  have hc := hds c (List.mem_cons_self ..)
  have hsp : skipSpace (w ++ (c :: t ++ s)) = c :: t ++ s := by
    rw [skipSpace_append hw, List.cons_append, skipSpace_cons (decVal_not_space hc)]
  have hsign : optSign (c :: t ++ s) = (false, c :: t ++ s) := optSign_of_dec hc
  have hspan := spanDigits_append hds hs
  have hnil : (c :: t).filterMap decVal ≠ [] := by
    obtain ⟨d, hd⟩ := Option.isSome_iff_exists.1 hc
    simp [hd]
  simp only [scanD, hsp, hsign, hspan, if_neg hnil]

/-! ### Strings in an array -/

/-- The terminator of a C string. -/
def nul : Char := Char.ofNat 0

/-- The character at a position; behind the end stands the terminator. -/
def charAt (s : List Char) (i : ℕ) : Char := s.getD i nul

/-- The C string that starts at a position: everything before the next terminator. -/
def cstr (s : List Char) (i : ℕ) : List Char := (s.drop i).takeWhile (· ≠ nul)

/-- `strchr`: the first occurrence of a character in the string that starts at a position. -/
def strchr (s : List Char) (i : ℕ) (c : Char) : Option ℕ :=
  ((cstr s i).findIdx? (· = c)).map (i + ·)

/-- A string split at the first occurrence of a character, which is dropped. -/
def cut (c : Char) : List Char → Option (List Char × List Char)
  | [] => none
  | d :: s => if d = c then some ([], s) else (cut c s).map fun ws => (d :: ws.1, ws.2)

theorem cut_some {c : Char} {s w r : List Char} (h : cut c s = some (w, r)) :
    s = w ++ c :: r ∧ c ∉ w := by
  induction s generalizing w with
  | nil => cases h
  | cons d s ih =>
      rw [cut] at h
      split at h
      · rename_i hd
        cases h
        exact ⟨by rw [hd]; rfl, by simp⟩
      · rename_i hd
        obtain ⟨⟨w', r'⟩, hcut, heq⟩ := Option.map_eq_some_iff.1 h
        cases heq
        obtain ⟨hs, hw⟩ := ih hcut
        refine ⟨by rw [hs]; rfl, ?_⟩
        simp [hw, Ne.symm hd]

/-- A character that does not occur. -/
theorem decide_ne_of_notMem {c : Char} {w : List Char} (h : c ∉ w) :
    ∀ d ∈ w, decide (d ≠ c) = true := by
  intro d hd
  have : d ≠ c := fun heq => h (heq ▸ hd)
  simpa using this

theorem cut_append {c : Char} {w : List Char} (hw : c ∉ w) (r : List Char) :
    cut c (w ++ c :: r) = some (w, r) := by
  induction w with
  | nil => simp [cut]
  | cons d w ih =>
      have hd : d ≠ c := fun heq => hw (heq ▸ List.mem_cons_self)
      rw [List.cons_append, cut, if_neg hd, ih fun h => hw (List.mem_cons_of_mem d h)]
      rfl

theorem cut_eq_none {c : Char} {s : List Char} (hs : c ∉ s) : cut c s = none := by
  cases hcut : cut c s with
  | none => rfl
  | some wr =>
      refine absurd ?_ hs
      rw [(cut_some hcut).1]
      exact List.mem_append_right _ List.mem_cons_self

theorem cstr_eq_drop {s : List Char} {i : ℕ} (h : nul ∉ s.drop i) : cstr s i = s.drop i := by
  rw [cstr, List.takeWhile_eq_self_iff]
  exact decide_ne_of_notMem h

theorem findIdx?_cut (c : Char) (s : List Char) :
    s.findIdx? (· = c) = (cut c s).map fun ws => ws.1.length := by
  induction s with
  | nil => rfl
  | cons d s ih =>
      rw [List.findIdx?_cons, cut]
      by_cases hd : d = c
      · simp [hd]
      · simp [hd, ih, Function.comp_def]

/-- A search, in terms of the string that is searched. -/
theorem strchr_eq_cut_cstr (s : List Char) (i : ℕ) (c : Char) :
    strchr s i c = (cut c (cstr s i)).map fun ws => i + ws.1.length := by
  rw [strchr, findIdx?_cut, Option.map_map]
  rfl

/-- A search succeeds exactly where the string can be cut. -/
theorem strchr_eq_cut {s : List Char} {i : ℕ} (h : nul ∉ s.drop i) (c : Char) :
    strchr s i c = (cut c (s.drop i)).map fun ws => i + ws.1.length := by
  rw [strchr_eq_cut_cstr, cstr_eq_drop h]

theorem strchr_some {s : List Char} {i d : ℕ} {c : Char} (h : strchr s i c = some d) :
    i ≤ d ∧ d < s.length := by
  obtain ⟨k, hk, rfl⟩ := Option.map_eq_some_iff.1 h
  have hlt := (List.findIdx?_eq_some_iff_getElem.1 hk).1
  have hle : (cstr s i).length ≤ (s.drop i).length := (List.takeWhile_sublist _).length_le
  rw [List.length_drop] at hle
  omega

/-- A string is read back from its characters and its terminator. -/
theorem cstr_of_take {s w : List Char} {i : ℕ} (hw : nul ∉ w)
    (h : (s.take (i + w.length + 1)).drop i = w ++ [nul]) : cstr s i = w := by
  have hsplit := List.take_append_drop (w.length + 1) (s.drop i)
  have htake : (s.drop i).take (w.length + 1) = w ++ [nul] := by
    rw [List.take_drop, ← Nat.add_assoc]
    exact h
  rw [htake, List.append_assoc] at hsplit
  rw [cstr, ← hsplit, List.takeWhile_append_of_pos (decide_ne_of_notMem hw)]
  simp

theorem charAt_eq_head (s : List Char) (i : ℕ) : charAt s i = (cstr s i).headD nul := by
  rw [charAt, cstr, List.getD_eq_getElem?_getD, ← List.head?_drop]
  cases s.drop i with
  | nil => rfl
  | cons c r =>
      by_cases hc : c = nul
      · simp [hc]
      · simp [hc]

theorem takeWhile_drop {p : Char → Bool} {t : List Char} {k : ℕ}
    (hk : k ≤ (t.takeWhile p).length) : (t.drop k).takeWhile p = (t.takeWhile p).drop k := by
  induction t generalizing k with
  | nil => simp
  | cons c t ih =>
      cases k with
      | zero => rfl
      | succ k =>
          cases hc : p c with
          | false =>
              rw [List.takeWhile_cons_of_neg (by simp [hc])] at hk
              cases hk
          | true =>
              rw [List.takeWhile_cons_of_pos hc] at hk ⊢
              exact ih (Nat.le_of_succ_le_succ hk)

theorem takeWhile_set {p : Char → Bool} {t : List Char} {k : ℕ} {d : Char} (hd : p d = false)
    (hk : k < (t.takeWhile p).length) : (t.set k d).takeWhile p = (t.takeWhile p).take k := by
  induction t generalizing k with
  | nil => cases hk
  | cons c t ih =>
      cases hc : p c with
      | false =>
          rw [List.takeWhile_cons_of_neg (by simp [hc])] at hk
          cases hk
      | true =>
          rw [List.takeWhile_cons_of_pos hc] at hk ⊢
          cases k with
          | zero => exact List.takeWhile_cons_of_neg (by simp [hd])
          | succ k =>
              rw [List.set_cons_succ, List.takeWhile_cons_of_pos hc, ih (Nat.lt_of_succ_lt_succ hk)]
              rfl

/-- The string that starts in the middle of another. -/
theorem cstr_add {s : List Char} {i k : ℕ} (hk : k ≤ (cstr s i).length) :
    cstr s (i + k) = (cstr s i).drop k := by
  rw [cstr, ← List.drop_drop]
  exact takeWhile_drop hk

/-- A string that is cut by a terminator. -/
theorem cstr_set_nul {s : List Char} {i k : ℕ} (hk : k < (cstr s i).length) :
    cstr (s.set (i + k) nul) i = (cstr s i).take k := by
  rw [cstr, List.drop_set, if_neg (by omega), Nat.add_sub_cancel_left]
  exact takeWhile_set (by simp) hk

/-! ### Copying strings -/

theorem takeWhile_nul {w r : List Char} (hw : nul ∉ w) :
    (w ++ nul :: r).takeWhile (· ≠ nul) = w := by
  rw [List.takeWhile_append_of_pos (decide_ne_of_notMem hw)]
  simp

theorem nul_notMem_cstr (s : List Char) (i : ℕ) : nul ∉ cstr s i := fun h => by
  have := List.mem_takeWhile_imp h
  simp at this

/-- A string in the middle of an array. -/
theorem cstr_append {a w r : List Char} {i : ℕ} (ha : a.length = i) (hw : nul ∉ w) :
    cstr (a ++ (w ++ nul :: r)) i = w := by
  rw [cstr, List.drop_left' ha, takeWhile_nul hw]

/-- A string that ends before the end of its array is followed by its terminator. -/
theorem split_cstr {s : List Char} {i : ℕ} (h : i + (cstr s i).length < s.length) :
    ∃ r, s = s.take i ++ (cstr s i ++ nul :: r) := by
  have hsplit : cstr s i ++ (s.drop i).dropWhile (· ≠ nul) = s.drop i :=
    List.takeWhile_append_dropWhile
  cases hrest : (s.drop i).dropWhile (· ≠ nul) with
  | nil =>
      have hlength := congrArg List.length hsplit
      rw [hrest, List.append_nil, List.length_drop] at hlength
      omega
  | cons c r =>
      have hc : c = nul := by
        have hhead := List.head?_dropWhile_not (· ≠ nul) (s.drop i)
        rw [hrest] at hhead
        simpa using hhead
      refine ⟨r, ?_⟩
      rw [← hc, ← hrest, hsplit, List.take_append_drop]

/-- `strcpy` to a position of an array; what is longer than the array extends it. -/
def strcpy (s : List Char) (i : ℕ) (w : List Char) : List Char :=
  s.take i ++ (w ++ nul :: s.drop (i + w.length + 1))

theorem length_le_strcpy {s : List Char} {i : ℕ} (hi : i ≤ s.length) (w : List Char) :
    s.length ≤ (strcpy s i w).length := by
  simp only [strcpy, List.length_append, List.length_take, List.length_cons, List.length_drop]
  omega

section Strcpy

variable {s w : List Char} {i j : ℕ}

/-- The strings that start inside of the copy. -/
theorem cstr_strcpy_inside (hi : i ≤ s.length) (hw : nul ∉ w) (hij : i ≤ j)
    (hj : j ≤ i + w.length) : cstr (strcpy s i w) j = w.drop (j - i) := by
  have hsplit : strcpy s i w = (s.take i ++ w.take (j - i)) ++
      (w.drop (j - i) ++ nul :: s.drop (i + w.length + 1)) := by
    rw [List.append_assoc, ← List.append_assoc (w.take (j - i)), List.take_append_drop]
    rfl
  rw [hsplit]
  refine cstr_append ?_ fun h => hw (List.mem_of_mem_drop h)
  rw [List.length_append, List.length_take, List.length_take]
  omega

theorem cstr_strcpy_self (hi : i ≤ s.length) (hw : nul ∉ w) : cstr (strcpy s i w) i = w := by
  rw [cstr_strcpy_inside hi hw (Nat.le_refl i) (Nat.le_add_right i _), Nat.sub_self, List.drop_zero]

/-- The strings that end before the copy. -/
theorem cstr_strcpy_before (hi : i ≤ s.length) (hj : j + (cstr s j).length < i) :
    cstr (strcpy s i w) j = cstr s j := by
  obtain ⟨r, hr⟩ := split_cstr (s := s) (i := j) (by omega)
  have hlen : (s.take j ++ (cstr s j ++ [nul])).length = j + (cstr s j).length + 1 := by
    rw [List.length_append, List.length_append, List.length_take_of_le (by omega),
      List.length_singleton]
    omega
  have hr' : s = (s.take j ++ (cstr s j ++ [nul])) ++ r := by
    rw [List.append_assoc, List.append_assoc, List.singleton_append]
    exact hr
  have htake : s.take i =
      s.take j ++ (cstr s j ++ nul :: r.take (i - (j + (cstr s j).length + 1))) := by
    conv_lhs => rw [hr']
    rw [List.take_append, List.take_of_length_le (by omega), hlen, List.append_assoc,
      List.append_assoc, List.singleton_append]
  rw [strcpy, htake, List.append_assoc, List.append_assoc, List.cons_append]
  exact cstr_append (List.length_take_of_le (by omega)) (nul_notMem_cstr s j)

/-- The strings that start behind the copy. -/
theorem cstr_strcpy_behind (hi : i ≤ s.length) (hj : i + w.length < j) :
    cstr (strcpy s i w) j = cstr s j := by
  have hlen : (s.take i ++ (w ++ [nul])).length = i + w.length + 1 := by
    rw [List.length_append, List.length_append, List.length_take_of_le hi, List.length_singleton]
    omega
  have hsplit : strcpy s i w = (s.take i ++ (w ++ [nul])) ++ s.drop (i + w.length + 1) := by
    simp [strcpy]
  rw [cstr, hsplit, List.drop_append, List.drop_of_length_le (by omega), List.nil_append,
    List.drop_drop, hlen, show i + w.length + 1 + (j - (i + w.length + 1)) = j by omega]
  rfl

end Strcpy

/-! ### Searching strings -/

/-- Where a pattern occurs first. -/
def findSub (pat : List Char) : List Char → Option ℕ
  | [] => if pat = [] then some 0 else none
  | c :: s => if pat.isPrefixOf (c :: s) then some 0 else (findSub pat s).map (· + 1)

/-- `strstr`: the first occurrence of a pattern in the string that starts at a position. -/
def strstr (s : List Char) (i : ℕ) (pat : List Char) : Option ℕ :=
  (findSub pat (cstr s i)).map (i + ·)

/-- `strncasecmp` of the first `n` characters is `0`: they agree up to the case of the letters. -/
def strncasecmp (s t : List Char) (n : ℕ) : Bool :=
  (s.take n).map Char.toLower = (t.take n).map Char.toLower

/-- `strcasecmp` is `0`. -/
def strcasecmp (s t : List Char) : Bool := s.map Char.toLower = t.map Char.toLower

/-- The conversion `%s` with a maximum field width: the word, if there is one, and the rest. -/
def scanS (width : ℕ) (s : List Char) : Option (List Char × List Char) :=
  let t := skipSpace s
  let w := (t.takeWhile fun c => !isSpace c).take width
  if w = [] then none else some (w, t.drop w.length)

theorem scanS_some {width : ℕ} {s w r : List Char} (h : scanS width s = some (w, r)) :
    w ≠ [] ∧ w.length ≤ width ∧ ∀ c ∈ w, isSpace c = false ∧ c ∈ s := by
  unfold scanS at h
  dsimp only at h
  split at h
  · cases h
  · rename_i hne
    cases h
    refine ⟨hne, List.length_take_le _ _, fun c hc => ?_⟩
    have hword := List.mem_of_mem_take hc
    refine ⟨by simpa using List.mem_takeWhile_imp hword, ?_⟩
    exact (List.dropWhile_sublist _).subset ((List.takeWhile_sublist _).subset hword)

/-- A property of all characters of a literal, as a computation. -/
theorem forall_mem_of_all {p : Char → Bool} {b : Bool} {w : List Char}
    (h : (w.all fun c => p c == b) = true) : ∀ c ∈ w, p c = b := fun c hc =>
  beq_iff_eq.1 (List.all_eq_true.1 h c hc)

/-- `%s` on white space and a word. -/
theorem scanS_word {width : ℕ} {v w s : List Char} (hv : ∀ c ∈ v, isSpace c = true) (hne : w ≠ [])
    (hw : ∀ c ∈ w, isSpace c = false) (hlen : w.length ≤ width)
    (hs : ∀ c ∈ s.head?, isSpace c = true) : scanS width (v ++ (w ++ s)) = some (w, s) := by
  have hskip : skipSpace (v ++ (w ++ s)) = w ++ s := by
    obtain ⟨c, t, rfl⟩ := List.exists_cons_of_ne_nil hne
    rw [skipSpace_append hv, List.cons_append, skipSpace_cons (hw c List.mem_cons_self)]
  have hword : ((w ++ s).takeWhile fun c => !isSpace c) = w := by
    rw [List.takeWhile_append_of_pos fun c hc => by rw [hw c hc]; rfl]
    cases s with
    | nil => simp
    | cons c s => simp [hs c rfl]
  rw [scanS, hskip]
  simp only [hword, List.take_of_length_le hlen, if_neg hne, List.drop_left]

/-- The word and what is left behind it stand at the end of the string. -/
theorem scanS_suffix {width : ℕ} {s w r : List Char} (h : scanS width s = some (w, r)) :
    w ++ r <:+ s := by
  unfold scanS at h
  dsimp only at h
  split at h
  · cases h
  · cases h
    have hword : ((skipSpace s).takeWhile fun c => !isSpace c).take width <+: skipSpace s :=
      (List.take_prefix _ _).trans (List.takeWhile_prefix _)
    rw [List.prefix_iff_eq_append.1 hword]
    exact List.dropWhile_suffix _

/-- A string that cannot be cut. -/
theorem of_cut_none {c : Char} {s : List Char} (h : cut c s = none) :
    s.takeWhile (· ≠ c) = s ∧ s.dropWhile (· ≠ c) = [] := by
  induction s with
  | nil => exact ⟨rfl, rfl⟩
  | cons d s ih =>
      rw [cut] at h
      split at h
      · cases h
      · rename_i hd
        obtain ⟨htake, hdrop⟩ := ih (Option.map_eq_none_iff.1 h)
        rw [List.takeWhile_cons_of_pos (by simpa using hd), htake,
          List.dropWhile_cons_of_pos (by simpa using hd)]
        exact ⟨rfl, hdrop⟩

/-- The two parts of a string that is cut. -/
theorem of_cut_some {c : Char} {s w r : List Char} (h : cut c s = some (w, r)) :
    s.takeWhile (· ≠ c) = w ∧ s.dropWhile (· ≠ c) = c :: r := by
  obtain ⟨rfl, hw⟩ := cut_some h
  rw [List.takeWhile_append_of_pos (decide_ne_of_notMem hw),
    List.dropWhile_append_of_pos (decide_ne_of_notMem hw)]
  simp

/-- A search that fails. -/
theorem findSub_eq_none_iff {pat s : List Char} : findSub pat s = none ↔ ¬ pat <:+: s := by
  induction s with
  | nil =>
      rw [findSub, List.infix_nil]
      split <;> simp [*]
  | cons c s ih =>
      rw [findSub, List.infix_cons_iff, ← List.isPrefixOf_iff_prefix]
      split
      · rename_i hpre
        exact iff_of_false (by simp) (by simp [hpre])
      · rename_i hpre
        rw [Option.map_eq_none_iff, ih]
        simp [hpre]

/-! ### Printing numbers -/

/-- The conversion `%d` of an `int`. -/
def printD (v : ℤ) : List Char :=
  if v < 0 then '-' :: Nat.toDigits 10 v.natAbs else Nat.toDigits 10 v.natAbs

theorem decVal_of_isDigit {c : Char} (h : c.isDigit = true) : decVal c = some (c.toNat - 48) := by
  have hrange : 48 ≤ c.toNat ∧ c.toNat ≤ 57 := by
    simpa [Char.isDigit, UInt32.le_iff_toNat_le] using h
  rw [decVal, if_pos hrange]

theorem isSome_decVal_toDigits {n : ℕ} :
    ∀ c ∈ Nat.toDigits 10 n, (decVal c).isSome := fun c hc => by
  rw [decVal_of_isDigit (Nat.isDigit_of_mem_toDigits (by decide) (by decide) hc)]
  rfl

/-- The digits of a number have its value. -/
theorem digitsVal_toDigits (n : ℕ) : digitsVal 10 ((Nat.toDigits 10 n).filterMap decVal) = n := by
  have hfold (ds : List Char) (hds : ∀ c ∈ ds, c.isDigit = true) (m : ℕ) :
      (ds.filterMap decVal).foldl (fun n d => n * 10 + d) m = Nat.ofDigitChars 10 ds m := by
    induction ds generalizing m with
    | nil => simp
    | cons c ds ih =>
        have hc := decVal_of_isDigit (hds c List.mem_cons_self)
        rw [List.filterMap_cons_some hc, List.foldl_cons,
          ih fun d hd => hds d (List.mem_cons_of_mem c hd), Nat.ofDigitChars_cons, Nat.mul_comm m]
        rfl
  rw [digitsVal, hfold _ (fun c hc => Nat.isDigit_of_mem_toDigits (by decide) (by decide) hc) 0]
  exact Nat.ofDigitChars_ten_toDigits

/-! ### Reading numbers -/

section ScanNum

variable {α : Type*}

/-- A decimal conversion: the number, if there is one, and what is left.  A sign is taken also when
no digit follows. -/
def scanNum (conv : Bool → ℕ → α) (s : List Char) : Option α × List Char :=
  let sg := optSign (skipSpace s)
  let sp := spanDigits decVal sg.2
  (if sp.1 = [] then none else some (conv sg.1 (digitsVal 10 sp.1)), sp.2)

variable {conv : Bool → ℕ → α} {n : ℕ} {w s : List Char}

/-- The digits of a number have a value. -/
theorem filterMap_toDigits_ne_nil (n : ℕ) : (Nat.toDigits 10 n).filterMap decVal ≠ [] := by
  intro hnil
  obtain ⟨c, t, hcons⟩ := List.exists_cons_of_ne_nil (Nat.toDigits_ne_nil (n := n) (b := 10))
  have hc : (decVal c).isSome := isSome_decVal_toDigits c (hcons ▸ List.mem_cons_self)
  obtain ⟨d, hd⟩ := Option.isSome_iff_exists.1 hc
  rw [hcons, List.filterMap_cons_some hd] at hnil
  cases hnil

/-- **A number that was printed is read**, behind white space. -/
theorem scanNum_digits (hw : ∀ c ∈ w, isSpace c = true) (hs : ∀ c ∈ s.head?, decVal c = none) :
    scanNum conv (w ++ (Nat.toDigits 10 n ++ s)) = (some (conv false n), s) := by
  obtain ⟨c, t, hcons⟩ := List.exists_cons_of_ne_nil (Nat.toDigits_ne_nil (n := n) (b := 10))
  have hc : (decVal c).isSome := isSome_decVal_toDigits c (hcons ▸ List.mem_cons_self)
  have hskip : skipSpace (w ++ (Nat.toDigits 10 n ++ s)) = Nat.toDigits 10 n ++ s := by
    rw [skipSpace_append hw, hcons, List.cons_append, skipSpace_cons (decVal_not_space hc)]
  have hsign : optSign (Nat.toDigits 10 n ++ s) = (false, Nat.toDigits 10 n ++ s) := by
    rw [hcons]
    exact optSign_of_dec hc
  have hspan := spanDigits_append (isSome_decVal_toDigits (n := n)) hs
  simp only [scanNum, hskip, hsign, hspan, if_neg (filterMap_toDigits_ne_nil n),
    digitsVal_toDigits]

/-- The same with a minus in front. -/
theorem scanNum_minus (hw : ∀ c ∈ w, isSpace c = true) (hs : ∀ c ∈ s.head?, decVal c = none) :
    scanNum conv (w ++ ('-' :: Nat.toDigits 10 n ++ s)) = (some (conv true n), s) := by
  have hskip : skipSpace (w ++ ('-' :: Nat.toDigits 10 n ++ s)) =
      '-' :: (Nat.toDigits 10 n ++ s) := by
    rw [skipSpace_append hw, List.cons_append, skipSpace_cons (by decide)]
  have hspan := spanDigits_append (isSome_decVal_toDigits (n := n)) hs
  simp only [scanNum, hskip, optSign, if_true, hspan, if_neg (filterMap_toDigits_ne_nil n),
    digitsVal_toDigits]

theorem length_spanDigits_le (val : Char → Option ℕ) (s : List Char) :
    (spanDigits val s).2.length ≤ s.length := by
  induction s with
  | nil => exact Nat.le_refl 0
  | cons c s ih =>
      rw [spanDigits]
      split
      · exact Nat.le_refl _
      · exact Nat.le_succ_of_le ih

/-- A conversion does not lengthen the text. -/
theorem length_scanNum_le (conv : Bool → ℕ → α) (s : List Char) :
    (scanNum conv s).2.length ≤ s.length := by
  have hsign : ∀ t : List Char, (optSign t).2.length ≤ t.length := fun t => by
    cases t with
    | nil => exact Nat.le_refl 0
    | cons c t =>
        rw [optSign]
        split
        · exact Nat.le_succ _
        · split
          · exact Nat.le_succ _
          · exact Nat.le_refl _
  have hskip : (skipSpace s).length ≤ s.length := (List.dropWhile_sublist _).length_le
  exact (length_spanDigits_le _ _).trans ((hsign _).trans hskip)

end ScanNum

theorem scanD_eq (s : List Char) :
    scanD s = (scanNum toInt s).1.map fun v => (v, (scanNum toInt s).2) := by
  simp only [scanD, scanNum]
  split <;> rfl

/-- **A number that was printed is read back.** -/
theorem scanD_printD {v : ℤ} (hlo : -(2 : ℤ) ^ 31 ≤ v) (hhi : v < (2 : ℤ) ^ 31) {w s : List Char}
    (hw : ∀ c ∈ w, isSpace c = true) (hs : ∀ c ∈ s.head?, decVal c = none) :
    scanD (w ++ (printD v ++ s)) = some (v, s) := by
  rw [scanD_eq, printD]
  by_cases hneg : v < 0
  · rw [if_pos hneg, scanNum_minus hw hs, Option.map_some, toInt]
    congr 2
    simp only [if_true]
    rw [Int.bmod_eq_of_le (by omega) (by omega)]
    omega
  · rw [if_neg hneg, scanNum_digits hw hs, Option.map_some, toInt]
    congr 2
    simp only [Bool.false_eq_true, if_false]
    rw [Int.bmod_eq_of_le (by omega) (by omega)]
    omega

end CText
