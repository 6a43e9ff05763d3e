/-
**Trace files.**

The driver reads a trace from a text file: four numbers, and a line for each request.  Nothing that
`fscanf` returns is looked at but the end of the file.  A number that is missing leaves what the
variable held before, so that also a file of another form is read as some trace; in the end the
number of requests and the largest id of a block that is allocated are compared with the header.

Main definitions:

* `Mdriver.readTrace` — the function of the source, on the text of a file;
* `Mdriver.Trace.text` — a trace as a file;
* `Mdriver.Regular` — what is checked of a trace.

Main results:

* `Mdriver.readTrace_ok_iff` — **the traces that can be read** are the regular ones, and each of
  them is read back from its text;
* `Mdriver.readTrace_inBounds` — **the arrays of a trace are long enough** for its requests, if the
  ids that are freed have been allocated.
-/

import CsappLab.CText
import CsappLab.MdriverModel

set_option relaxedAutoImplicit false
set_option autoImplicit false

namespace Mdriver

open CText

/-! ### Reading -/

/-- `strtol` clamps to `long`, which has the width of an `int` here. -/
def toInt32 (neg : Bool) (n : ℕ) : ℤ :=
  if neg then max (-(2 : ℤ) ^ 31) (-(n : ℤ)) else min ((2 : ℤ) ^ 31 - 1) n

/-- `strtoul` clamps a number that is too large, and negates modulo `2 ^ 32`. -/
def toUnsigned (neg : Bool) (n : ℕ) : ℕ :=
  if 2 ^ 32 ≤ n then 2 ^ 32 - 1 else if neg then (2 ^ 32 - n) % 2 ^ 32 else n

/-- The numbers of `trace_t`. -/
structure Header where
  suggHeapsize : ℤ
  numIds : ℤ
  numOps : ℤ
  weight : ℤ
  deriving DecidableEq, Repr

/-- `trace_t` and its requests.  An id or a size is the word that is stored; read as an `int`, a
word of `2 ^ 31` or more is negative. -/
structure Trace where
  header : Header
  ops : List Traceop
  deriving DecidableEq, Repr

/-- Why `read_trace` does not return: it exits with a message, stores behind the end of an array, or
an assertion fails. -/
inductive Stop
  | exited (msg : String)
  | overflow
  | assertion
  deriving DecidableEq, Repr

/-- `MAXLINE`. -/
def maxline : ℕ := 1024

/-- `fscanf` of one `%d`: a number that is missing leaves what was there. -/
def scanInt (old : ℤ) (s : List Char) : ℤ × List Char :=
  ((scanNum toInt32 s).1.getD old, (scanNum toInt32 s).2)

/-- The variables of `read_trace` that outlive a line. -/
structure Locals where
  index : ℕ
  size : ℕ
  maxIndex : ℕ

/-- `fscanf` of `%u %u`: the second number is only looked for behind the first. -/
def scanPair (v : Locals) (s : List Char) : Locals × List Char :=
  match scanNum toUnsigned s with
  | (none, s) => (v, s)
  | (some index, s) =>
      ({ v with index := index, size := (scanNum toUnsigned s).1.getD v.size },
        (scanNum toUnsigned s).2)

/-- `fscanf` of `%ud`: a `d` behind the number is skipped. -/
def scanFreed (v : Locals) (s : List Char) : Locals × List Char :=
  match scanNum toUnsigned s with
  | (none, s) => (v, s)
  | (some index, s) =>
      ({ v with index := index }, if s.head? = some 'd' then s.tail else s)

/-- The requests of a file: `room` bytes were allocated for them, of which each takes twelve. -/
def readOps (room : ℕ) : ℕ → Locals → List Traceop → List Char →
    Option (Except Stop (ℕ × List Traceop))
  | 0, _, _, _ => none
  | fuel + 1, v, ops, s =>
      let type := (skipSpace s).takeWhile fun c => !isSpace c
      let rest := (skipSpace s).dropWhile fun c => !isSpace c
      let store (v : Locals) (op : Traceop) (s : List Char) :=
        if room < 12 * (ops.length + 1) then some (.error .overflow)
        else readOps room fuel v (ops ++ [op]) s
      if maxline ≤ type.length then some (.error .overflow)
      else
        match type with
        | [] => some (.ok (v.maxIndex, ops))
        | 'a' :: _ =>
            let (v, s) := scanPair v rest
            store { v with maxIndex := max v.index v.maxIndex } (.alloc v.index v.size) s
        | 'r' :: _ =>
            let (v, s) := scanPair v rest
            store { v with maxIndex := max v.index v.maxIndex } (.realloc v.index v.size) s
        | 'f' :: _ =>
            let (v, s) := scanFreed v rest
            store v (.free v.index) s
        | _ :: _ => some (.error (.exited "Bogus type character (%c) in tracefile %s\n"))

/-- The number of bytes of an array, as the argument of `malloc`. -/
def arrayBytes (n : ℤ) (width : ℕ) : ℕ := (n % 2 ^ 32).toNat * width % 2 ^ 32

/-- The four calls of `malloc` in `read_trace`, with what is said when one of them fails. -/
def mallocs (h : Header) : List (ℕ × String) :=
  [(28, "malloc 1 failed in read_trance"),
    (arrayBytes h.numOps 12, "malloc 2 failed in read_trace"),
    (arrayBytes h.numIds 4, "malloc 3 failed in read_trace"),
    (arrayBytes h.numIds 4, "malloc 4 failed in read_trace")]

/-- `read_trace` on the text of a file: `malloc` returns null for the sizes that are not `granted`,
and `g` and `size` are what stands in memory that has not been written. -/
def readTrace (granted : ℕ → Bool) (g : Header) (size : ℕ) (text : List Char) :
    Option (Except Stop Trace) :=
  let (suggHeapsize, s) := scanInt g.suggHeapsize text
  let (numIds, s) := scanInt g.numIds s
  let (numOps, s) := scanInt g.numOps s
  let (weight, s) := scanInt g.weight s
  let h : Header := ⟨suggHeapsize, numIds, numOps, weight⟩
  match (mallocs h).find? fun m => !granted m.1 with
  | some m => some (.error (.exited m.2))
  | none =>
      match readOps (arrayBytes numOps 12) (s.length + 1) ⟨0, size, 0⟩ [] s with
      | none => none
      | some (.error e) => some (.error e)
      | some (.ok (maxIndex, ops)) =>
          if (maxIndex : ℤ) ≠ (numIds - 1) % 2 ^ 32 then some (.error .assertion)
          else if numOps % 2 ^ 32 ≠ ops.length then some (.error .assertion)
          else some (.ok ⟨h, ops⟩)

/-! ### What is checked -/

/-- The id of a request. -/
def Traceop.index : Traceop → ℕ
  | alloc index _ => index
  | realloc index _ => index
  | free index => index

/-- The largest id so far, when a block is allocated. -/
def Traceop.raise (m : ℕ) : Traceop → ℕ
  | alloc index _ => max index m
  | realloc index _ => max index m
  | free _ => m

/-- The largest id of a block that is allocated. -/
def maxIndex (ops : List Traceop) : ℕ := ops.foldl Traceop.raise 0

/-- The numbers are of type `int`. -/
structure Header.Ints (h : Header) : Prop where
  suggHeapsize : -(2 : ℤ) ^ 31 ≤ h.suggHeapsize ∧ h.suggHeapsize < 2 ^ 31
  numIds : -(2 : ℤ) ^ 31 ≤ h.numIds ∧ h.numIds < 2 ^ 31
  numOps : -(2 : ℤ) ^ 31 ≤ h.numOps ∧ h.numOps < 2 ^ 31
  weight : -(2 : ℤ) ^ 31 ≤ h.weight ∧ h.weight < 2 ^ 31

/-- The numbers are words. -/
def Traceop.Words (op : Traceop) : Prop := op.index < 2 ^ 32 ∧ op.size < 2 ^ 32

/-- **What is checked of a trace**: its largest id and the number of its requests are those of the
header, and there is memory for the arrays. -/
structure Regular (granted : ℕ → Bool) (t : Trace) : Prop where
  ints : t.header.Ints
  words : ∀ op ∈ t.ops, op.Words
  ids : (maxIndex t.ops : ℤ) = (t.header.numIds - 1) % 2 ^ 32
  count : t.header.numOps % 2 ^ 32 = t.ops.length
  room : 12 * t.ops.length ≤ arrayBytes t.header.numOps 12
  memory : ∀ m ∈ mallocs t.header, granted m.1 = true

theorem maxIndex_snoc (ops : List Traceop) (op : Traceop) :
    maxIndex (ops ++ [op]) = op.raise (maxIndex ops) := by
  rw [maxIndex, List.foldl_append]
  rfl

/-! ### One line -/

section Line

variable {v v' : Locals} {s s' : List Char} {op : Traceop} {ops ops' : List Traceop}
  {room fuel m : ℕ}

theorem toUnsigned_lt (neg : Bool) (n : ℕ) : toUnsigned neg n < 2 ^ 32 := by
  unfold toUnsigned
  split
  · omega
  · split <;> omega

/-- The words that a conversion stores. -/
theorem scanNum_toUnsigned_lt (s : List Char) : ∀ n ∈ (scanNum toUnsigned s).1, n < 2 ^ 32 := by
  intro n hn
  simp only [scanNum] at hn
  split at hn
  · cases hn
  · rw [← Option.some.inj hn]
    exact toUnsigned_lt _ _

/-- The variables hold words. -/
structure Locals.Words (v : Locals) : Prop where
  index : v.index < 2 ^ 32
  size : v.size < 2 ^ 32

/-- Two numbers are read, or what was there is left. -/
theorem scanPair_spec (v : Locals) (s : List Char) :
    (scanPair v s).2.length ≤ s.length ∧ (scanPair v s).1.maxIndex = v.maxIndex ∧
      (v.Words → (scanPair v s).1.Words) := by
  have hfirst := length_scanNum_le toUnsigned s
  have hword := scanNum_toUnsigned_lt s
  unfold scanPair
  split
  · rename_i s₁ hs
    rw [hs] at hfirst
    exact ⟨hfirst, rfl, fun hv => hv⟩
  · rename_i index s₁ hs
    rw [hs] at hfirst hword
    have hsecond := length_scanNum_le toUnsigned s₁
    refine ⟨hsecond.trans hfirst, rfl, fun hv => ⟨hword index rfl, ?_⟩⟩
    cases hsize : (scanNum toUnsigned s₁).1 with
    | none => exact hv.size
    | some size => exact scanNum_toUnsigned_lt s₁ size hsize

/-- One number is read, or what was there is left. -/
theorem scanFreed_spec (v : Locals) (s : List Char) :
    (scanFreed v s).2.length ≤ s.length ∧ (scanFreed v s).1.maxIndex = v.maxIndex ∧
      (v.Words → (scanFreed v s).1.Words) := by
  have hfirst := length_scanNum_le toUnsigned s
  have hword := scanNum_toUnsigned_lt s
  unfold scanFreed
  split
  · rename_i s₁ hs
    rw [hs] at hfirst
    exact ⟨hfirst, rfl, fun hv => hv⟩
  · rename_i index s₁ hs
    rw [hs] at hfirst hword
    refine ⟨?_, rfl, fun hv => ⟨hword index rfl, hv.size⟩⟩
    dsimp only
    split
    · rw [List.length_tail]
      exact (Nat.sub_le _ _).trans hfirst
    · exact hfirst

/-- **What a line leads to**: a request, and variables for the next one. -/
structure Line (v : Locals) (s : List Char) (v' : Locals) (op : Traceop) (s' : List Char) :
    Prop where
  shorter : s'.length < s.length
  maxIndex : v'.maxIndex = op.raise v.maxIndex
  words : v.Words → v'.Words ∧ op.Words

/-- **One turn of the loop**: the end of the file, a fault, or one more request. -/
theorem readOps_succ (room fuel : ℕ) (v : Locals) (ops : List Traceop) (s : List Char) :
    readOps room (fuel + 1) v ops s = some (.ok (v.maxIndex, ops)) ∨
      (∃ e, readOps room (fuel + 1) v ops s = some (.error e)) ∨
      ∃ v' op s', Line v s v' op s' ∧ 12 * (ops.length + 1) ≤ room ∧
        readOps room (fuel + 1) v ops s = readOps room fuel v' (ops ++ [op]) s' := by
  have hskip : (skipSpace s).length ≤ s.length := (List.dropWhile_sublist _).length_le
  have hlength := congrArg List.length
    (List.takeWhile_append_dropWhile (p := fun c => !isSpace c) (l := skipSpace s))
  rw [List.length_append] at hlength
  rw [readOps]
  dsimp only
  split
  · exact .inr (.inl ⟨_, rfl⟩)
  split
  · exact .inl rfl
  · rename_i htype
    rw [htype, List.length_cons] at hlength
    obtain ⟨hshort, hsame, hwords⟩ :=
      scanPair_spec v ((skipSpace s).dropWhile fun c => !isSpace c)
    split
    · exact .inr (.inl ⟨_, rfl⟩)
    · refine .inr (.inr ⟨_, _, _, ⟨by omega, by rw [Traceop.raise, hsame], fun hv => ?_⟩, by omega,
        rfl⟩)
      exact ⟨⟨(hwords hv).index, (hwords hv).size⟩, (hwords hv).index, (hwords hv).size⟩
  · rename_i htype
    rw [htype, List.length_cons] at hlength
    obtain ⟨hshort, hsame, hwords⟩ :=
      scanPair_spec v ((skipSpace s).dropWhile fun c => !isSpace c)
    split
    · exact .inr (.inl ⟨_, rfl⟩)
    · refine .inr (.inr ⟨_, _, _, ⟨by omega, by rw [Traceop.raise, hsame], fun hv => ?_⟩, by omega,
        rfl⟩)
      exact ⟨⟨(hwords hv).index, (hwords hv).size⟩, (hwords hv).index, (hwords hv).size⟩
  · rename_i htype
    rw [htype, List.length_cons] at hlength
    obtain ⟨hshort, hsame, hwords⟩ :=
      scanFreed_spec v ((skipSpace s).dropWhile fun c => !isSpace c)
    split
    · exact .inr (.inl ⟨_, rfl⟩)
    · refine .inr (.inr ⟨_, _, _, ⟨by omega, hsame, fun hv => ?_⟩, by omega, rfl⟩)
      exact ⟨hwords hv, (hwords hv).index, Nat.two_pow_pos 32⟩
  · exact .inr (.inl ⟨_, rfl⟩)

/-- **The loop comes to an end.** -/
theorem readOps_isSome (room : ℕ) (hfuel : s.length < fuel) (v : Locals) (ops : List Traceop) :
    (readOps room fuel v ops s).isSome := by
  induction fuel generalizing v ops s with
  | zero => exact absurd hfuel (Nat.not_lt_zero _)
  | succ fuel ih =>
      rcases readOps_succ room fuel v ops s with hend | ⟨e, he⟩ | ⟨v', op, s', hline, -, hnext⟩
      · rw [hend]
        rfl
      · rw [he]
        rfl
      · rw [hnext]
        have hshorter := hline.shorter
        exact ih (by omega) _ _

/-- **What the loop keeps.** -/
structure Reading (room : ℕ) (v : Locals) (ops : List Traceop) : Prop where
  locals : v.Words
  maxIndex : v.maxIndex = Mdriver.maxIndex ops
  words : ∀ op ∈ ops, op.Words
  room_le : 12 * ops.length ≤ room

theorem Reading.step (hr : Reading room v ops) (hline : Line v s v' op s')
    (hroom : 12 * (ops.length + 1) ≤ room) : Reading room v' (ops ++ [op]) where
  locals := (hline.words hr.locals).1
  maxIndex := by rw [hline.maxIndex, hr.maxIndex, maxIndex_snoc]
  words o ho := by
    rcases List.mem_append.1 ho with ho | ho
    · exact hr.words o ho
    · rw [List.mem_singleton.1 ho]
      exact (hline.words hr.locals).2
  room_le := by simpa using hroom

/-- What was read when the loop is left. -/
theorem Reading.readOps (hr : Reading room v ops)
    (hok : readOps room fuel v ops s = some (.ok (m, ops'))) :
    m = Mdriver.maxIndex ops' ∧ (∀ op ∈ ops', op.Words) ∧ 12 * ops'.length ≤ room := by
  induction fuel generalizing v ops s with
  | zero => cases hok
  | succ fuel ih =>
      rcases readOps_succ room fuel v ops s with hend | ⟨e, he⟩ |
        ⟨v', op, s', hline, hroom, hnext⟩
      · rw [hend] at hok
        obtain ⟨rfl, rfl⟩ := Prod.mk.inj (Except.ok.inj (Option.some.inj hok))
        exact ⟨hr.maxIndex, hr.words, hr.room_le⟩
      · rw [he] at hok
        cases hok
      · rw [hnext] at hok
        exact ih (hr.step hline hroom) hok

end Line

/-! ### Traces as files -/

/-- A request as a line of a file, behind the end of the line before. -/
def Traceop.text : Traceop → List Char
  | alloc index size =>
      '\n' :: 'a' :: ' ' :: (Nat.toDigits 10 index ++ ' ' :: Nat.toDigits 10 size)
  | realloc index size =>
      '\n' :: 'r' :: ' ' :: (Nat.toDigits 10 index ++ ' ' :: Nat.toDigits 10 size)
  | free index => '\n' :: 'f' :: ' ' :: Nat.toDigits 10 index

/-- The requests as lines, and the end of the last one. -/
def opsText (ops : List Traceop) : List Char := ops.flatMap Traceop.text ++ ['\n']

/-- A trace as a file. -/
def Trace.text (t : Trace) : List Char :=
  printD t.header.suggHeapsize ++ '\n' :: (printD t.header.numIds ++ '\n' ::
    (printD t.header.numOps ++ '\n' :: (printD t.header.weight ++ opsText t.ops)))

section Text

variable {v : Locals} {s w : List Char} {op : Traceop} {ops ops' : List Traceop}
  {room fuel m : ℕ} {x : ℤ}

/-- A number of the header is read back. -/
theorem scanInt_printD (old : ℤ) (hlo : -(2 : ℤ) ^ 31 ≤ x) (hhi : x < (2 : ℤ) ^ 31)
    (hw : ∀ c ∈ w, isSpace c = true) (hs : ∀ c ∈ s.head?, decVal c = none) :
    scanInt old (w ++ (printD x ++ s)) = (x, s) := by
  rw [scanInt, printD]
  by_cases hneg : x < 0
  · rw [if_pos hneg, scanNum_minus hw hs]
    congr 1
    simp only [Option.getD_some, toInt32, if_true]
    omega
  · rw [if_neg hneg, scanNum_digits hw hs]
    congr 1
    simp only [Option.getD_some, toInt32, Bool.false_eq_true, if_false]
    omega

/-- A word is read back. -/
theorem scanWord {n : ℕ} (hn : n < 2 ^ 32) (hw : ∀ c ∈ w, isSpace c = true)
    (hs : ∀ c ∈ s.head?, decVal c = none) :
    scanNum toUnsigned (w ++ (Nat.toDigits 10 n ++ s)) = (some n, s) := by
  rw [scanNum_digits hw hs, toUnsigned, if_neg (by omega), if_neg Bool.false_ne_true]

/-- Two words are read back. -/
theorem scanPair_digits {index size : ℕ} (hindex : index < 2 ^ 32) (hsize : size < 2 ^ 32)
    (hs : ∀ c ∈ s.head?, decVal c = none) :
    scanPair v (' ' :: (Nat.toDigits 10 index ++ ' ' :: (Nat.toDigits 10 size ++ s))) =
      ({ v with index := index, size := size }, s) := by
  have hblank : ∀ c ∈ [' '], isSpace c = true := forall_mem_of_all rfl
  have hfirst : scanNum toUnsigned
      (' ' :: (Nat.toDigits 10 index ++ ' ' :: (Nat.toDigits 10 size ++ s))) =
        (some index, ' ' :: (Nat.toDigits 10 size ++ s)) := by
    have hscan := scanWord hindex hblank (s := ' ' :: (Nat.toDigits 10 size ++ s)) fun c hc => by
      cases hc
      rfl
    exact hscan
  have hsecond : scanNum toUnsigned (' ' :: (Nat.toDigits 10 size ++ s)) = (some size, s) :=
    scanWord hsize hblank hs
  simp only [scanPair, hfirst, hsecond, Option.getD_some]

/-- One word is read back, if no `d` follows. -/
theorem scanFreed_digits {index : ℕ} (hindex : index < 2 ^ 32)
    (hs : ∀ c ∈ s.head?, decVal c = none) (hd : s.head? ≠ some 'd') :
    scanFreed v (' ' :: (Nat.toDigits 10 index ++ s)) = ({ v with index := index }, s) := by
  have hblank : ∀ c ∈ [' '], isSpace c = true := forall_mem_of_all rfl
  have hscan : scanNum toUnsigned (' ' :: (Nat.toDigits 10 index ++ s)) = (some index, s) :=
    scanWord hindex hblank hs
  simp only [scanFreed, hscan, if_neg hd]

/-- The first word of a line, and what is left. -/
theorem word_line {c : Char} (hc : isSpace c = false) (t : List Char) :
    ((skipSpace ('\n' :: c :: ' ' :: t)).takeWhile fun c => !isSpace c) = [c] ∧
      ((skipSpace ('\n' :: c :: ' ' :: t)).dropWhile fun c => !isSpace c) = ' ' :: t := by
  have hskip : skipSpace ('\n' :: c :: ' ' :: t) = c :: ' ' :: t := by
    rw [skipSpace, List.dropWhile_cons_of_pos (by decide), ← skipSpace, skipSpace_cons hc]
  have hblank : isSpace ' ' = true := by decide
  rw [hskip, List.takeWhile_cons_of_pos (by rw [hc]; rfl),
    List.dropWhile_cons_of_pos (by rw [hc]; rfl),
    List.takeWhile_cons_of_neg (by rw [hblank]; exact Bool.false_ne_true),
    List.dropWhile_cons_of_neg (by rw [hblank]; exact Bool.false_ne_true)]
  exact ⟨rfl, rfl⟩

/-- **A line is read back.** -/
theorem readOps_text (hwords : op.Words) (hroom : 12 * (ops.length + 1) ≤ room)
    (hs : s.head? = some '\n') (v : Locals) : ∃ v', v'.maxIndex = op.raise v.maxIndex ∧
      readOps room (fuel + 1) v ops (op.text ++ s) = readOps room fuel v' (ops ++ [op]) s := by
  have hdigit : ∀ c ∈ s.head?, decVal c = none := fun c hc => by
    rw [hs] at hc
    cases hc
    rfl
  have hfits : ¬ room < 12 * (ops.length + 1) := by omega
  have hshort : ¬ maxline ≤ 1 := by decide
  cases op with
  | alloc index size =>
      refine ⟨⟨index, size, max index v.maxIndex⟩, rfl, ?_⟩
      obtain ⟨hword, hrest⟩ := word_line (c := 'a') rfl
        (Nat.toDigits 10 index ++ ' ' :: (Nat.toDigits 10 size ++ s))
      have hpair := scanPair_digits (v := v) hwords.1 hwords.2 hdigit
      simp only [Traceop.index, Traceop.size] at hpair
      simp only [Traceop.text, List.cons_append, List.append_assoc, readOps, hword, hrest, hpair,
        List.length_singleton, if_neg hshort, if_neg hfits]
  | realloc index size =>
      refine ⟨⟨index, size, max index v.maxIndex⟩, rfl, ?_⟩
      obtain ⟨hword, hrest⟩ := word_line (c := 'r') rfl
        (Nat.toDigits 10 index ++ ' ' :: (Nat.toDigits 10 size ++ s))
      have hpair := scanPair_digits (v := v) hwords.1 hwords.2 hdigit
      simp only [Traceop.index, Traceop.size] at hpair
      simp only [Traceop.text, List.cons_append, List.append_assoc, readOps, hword, hrest, hpair,
        List.length_singleton, if_neg hshort, if_neg hfits]
  | free index =>
      refine ⟨{ v with index := index }, rfl, ?_⟩
      obtain ⟨hword, hrest⟩ := word_line (c := 'f') rfl (Nat.toDigits 10 index ++ s)
      have hfreed := scanFreed_digits (v := v) hwords.1 hdigit (by rw [hs]; decide)
      simp only [Traceop.index] at hfreed
      simp only [Traceop.text, List.cons_append, readOps, hword, hrest, hfreed,
        List.length_singleton, if_neg hshort, if_neg hfits]

theorem head_opsText (ops : List Traceop) : (opsText ops).head? = some '\n' := by
  cases ops with
  | nil => rfl
  | cons op ops => cases op <;> rfl

/-- **The requests are read back.** -/
theorem readOps_opsText (hwords : ∀ op ∈ ops', op.Words)
    (hroom : 12 * (ops.length + ops'.length) ≤ room) (hfuel : (opsText ops').length < fuel)
    (v : Locals) : readOps room fuel v ops (opsText ops') =
      some (.ok (ops'.foldl Traceop.raise v.maxIndex, ops ++ ops')) := by
  obtain ⟨fuel, rfl⟩ := Nat.exists_eq_succ_of_ne_zero (Nat.ne_of_gt (Nat.zero_lt_of_lt hfuel))
  induction ops' generalizing v ops fuel with
  | nil =>
      rw [List.append_nil]
      rfl
  | cons op ops' ih =>
      obtain ⟨hop, hwords⟩ := List.forall_mem_cons.1 hwords
      rw [List.length_cons] at hroom
      have hsplit : opsText (op :: ops') = op.text ++ opsText ops' := by
        rw [opsText, List.flatMap_cons, List.append_assoc]
        rfl
      have hlength : 0 < op.text.length := by cases op <;> exact Nat.succ_pos _
      rw [hsplit, List.length_append] at hfuel
      obtain ⟨fuel, rfl⟩ := Nat.exists_eq_succ_of_ne_zero (show fuel ≠ 0 by omega)
      have hfits : 12 * ((ops ++ [op]).length + ops'.length) ≤ room := by
        rw [List.length_append, List.length_singleton]
        omega
      have hroom' : 12 * (ops.length + 1) ≤ room := by omega
      obtain ⟨v', hmax, hline⟩ := readOps_text hop hroom' (head_opsText ops') v
      rw [hsplit, hline, ih hwords hfits v' fuel (by omega), hmax, List.append_assoc]
      rfl

end Text

/-! ### The traces that can be read -/

section Traces

variable {granted : ℕ → Bool} {g : Header} {size : ℕ} {text : List Char} {t : Trace}

/-- **A regular trace is read back.** -/
theorem Regular.readTrace_text (hr : Regular granted t) (g : Header) (size : ℕ) :
    readTrace granted g size t.text = some (.ok t) := by
  have hnewline : ∀ c ∈ ['\n'], isSpace c = true := forall_mem_of_all rfl
  have hnil : ∀ c ∈ ([] : List Char), isSpace c = true := fun c hc => absurd hc List.not_mem_nil
  have hline : ∀ s : List Char, ∀ c ∈ ('\n' :: s).head?, decVal c = none := fun s c hc => by
    cases hc
    rfl
  obtain ⟨⟨suggHeapsize, numIds, numOps, weight⟩, ops⟩ := t
  obtain ⟨hsugg, hids, hops, hweight⟩ := hr.ints
  have hend : ∀ c ∈ (opsText ops).head?, decVal c = none := fun c hc => by
    rw [head_opsText] at hc
    cases hc
    rfl
  have h₁ := fun s => scanInt_printD g.suggHeapsize hsugg.1 hsugg.2 hnil (hline s)
  have h₂ := fun s => scanInt_printD g.numIds hids.1 hids.2 hnewline (hline s)
  have h₃ := fun s => scanInt_printD g.numOps hops.1 hops.2 hnewline (hline s)
  have h₄ := scanInt_printD g.weight hweight.1 hweight.2 hnewline hend
  simp only [List.nil_append, List.cons_append] at h₁ h₂ h₃ h₄
  have hmemory : (mallocs ⟨suggHeapsize, numIds, numOps, weight⟩).find? (fun m => !granted m.1) =
      none := List.find?_eq_none.2 fun m hm => by
    rw [hr.memory m hm]
    exact Bool.false_ne_true
  have hroom := hr.room
  have hread : readOps (arrayBytes numOps 12) ((opsText ops).length + 1) ⟨0, size, 0⟩ []
      (opsText ops) = some (.ok (maxIndex ops, ops)) :=
    readOps_opsText hr.words (by simpa using hroom) (Nat.lt_succ_self _) _
  have hmax := hr.ids
  have hcount := hr.count
  simp only at hmax hcount
  simp only [readTrace, Trace.text, h₁, h₂, h₃, h₄, hmemory, hread, hmax, hcount, ne_eq,
    not_true_eq_false, if_false]

/-- A number of the header is an `int`. -/
theorem scanInt_range {old : ℤ} (hold : -(2 : ℤ) ^ 31 ≤ old ∧ old < 2 ^ 31) (s : List Char) :
    -(2 : ℤ) ^ 31 ≤ (scanInt old s).1 ∧ (scanInt old s).1 < 2 ^ 31 := by
  rw [scanInt, scanNum]
  dsimp only
  split
  · exact hold
  · rw [Option.getD_some, toInt32]
    split <;> omega

/-- **What was read is regular.** -/
theorem regular_of_readTrace (hg : g.Ints) (hsize : size < 2 ^ 32)
    (hok : readTrace granted g size text = some (.ok t)) : Regular granted t := by
  unfold readTrace at hok
  dsimp only at hok
  split at hok
  · cases hok
  rename_i hmemory
  split at hok
  · cases hok
  · cases hok
  rename_i m ops hread
  split at hok
  · cases hok
  rename_i hids
  split at hok
  · cases hok
  rename_i hcount
  obtain rfl := Except.ok.inj (Option.some.inj hok)
  have hstart : Reading (arrayBytes (scanInt g.numOps (scanInt g.numIds
      (scanInt g.suggHeapsize text).2).2).1 12) ⟨0, size, 0⟩ [] :=
    ⟨⟨Nat.two_pow_pos 32, hsize⟩, rfl, fun op hop => absurd hop List.not_mem_nil, Nat.zero_le _⟩
  obtain ⟨rfl, hwords, hroom⟩ := hstart.readOps hread
  refine ⟨⟨scanInt_range hg.suggHeapsize _, scanInt_range hg.numIds _, scanInt_range hg.numOps _,
    scanInt_range hg.weight _⟩, hwords, not_not.1 hids, not_not.1 hcount, hroom, fun m hm => ?_⟩
  have hgranted := List.find?_eq_none.1 hmemory m hm
  simpa using hgranted

/-- `read_trace` comes to an end. -/
theorem readTrace_isSome (granted : ℕ → Bool) (g : Header) (size : ℕ) (text : List Char) :
    (readTrace granted g size text).isSome := by
  unfold readTrace
  dsimp only
  split
  · rfl
  · split
    · rename_i hnone
      refine absurd hnone (Option.ne_none_iff_isSome.2 ?_)
      exact readOps_isSome _ (Nat.lt_succ_self _) _ _
    · rfl
    · split
      · rfl
      · split <;> rfl

/-- **The traces that can be read** are the regular ones, whatever stood in the memory; each of them
is read back from its text. -/
theorem readTrace_ok_iff (granted : ℕ → Bool) (g : Header) (hg : g.Ints) (size : ℕ)
    (hsize : size < 2 ^ 32) (t : Trace) :
    ((∃ text, readTrace granted g size text = some (.ok t)) ↔ Regular granted t) ∧
      (Regular granted t → readTrace granted g size t.text = some (.ok t)) :=
  ⟨⟨fun ⟨_, hok⟩ => regular_of_readTrace hg hsize hok, fun hr => ⟨_, hr.readTrace_text g size⟩⟩,
    fun hr => hr.readTrace_text g size⟩

/-! ### The arrays -/

/-- The largest id is that of a request, if it is not zero. -/
theorem maxIndex_mem (ops : List Traceop) :
    maxIndex ops = 0 ∨ ∃ op ∈ ops, op.index = maxIndex ops := by
  induction ops using List.reverseRecOn with
  | nil => exact .inl rfl
  | append_singleton ops op ih =>
      rw [maxIndex_snoc]
      have hold : maxIndex ops = 0 ∨ ∃ o ∈ ops ++ [op], o.index = maxIndex ops :=
        ih.imp_right fun ⟨o, ho, heq⟩ => ⟨o, List.mem_append_left _ ho, heq⟩
      have hnew : op ∈ ops ++ [op] := List.mem_append_right _ List.mem_cons_self
      cases op with
      | alloc index size =>
          rcases Nat.le_total index (maxIndex ops) with hle | hle
          · rwa [Traceop.raise, Nat.max_eq_right hle]
          · exact .inr ⟨_, hnew, (Nat.max_eq_left hle).symm⟩
      | realloc index size =>
          rcases Nat.le_total index (maxIndex ops) with hle | hle
          · rwa [Traceop.raise, Nat.max_eq_right hle]
          · exact .inr ⟨_, hnew, (Nat.max_eq_left hle).symm⟩
      | free index => exact hold

/-- What is freed was allocated, and has an id that is not larger. -/
theorem index_le_foldl_raise {ids : List ℕ} {ops : List Traceop} {m : ℕ} (hids : ∀ i ∈ ids, i ≤ m)
    (hvalid : Valid ids ops) :
    m ≤ ops.foldl Traceop.raise m ∧ ∀ op ∈ ops, op.index ≤ ops.foldl Traceop.raise m := by
  induction ops generalizing ids m with
  | nil => exact ⟨Nat.le_refl m, fun op hop => absurd hop List.not_mem_nil⟩
  | cons op ops ih =>
      obtain ⟨hop, hrest⟩ := hvalid
      have hraise : m ≤ op.raise m ∧ op.index ≤ op.raise m ∧ ∀ i ∈ op.live ids, i ≤ op.raise m := by
        cases op with
        | alloc index size =>
            refine ⟨Nat.le_max_right _ _, Nat.le_max_left _ _, fun i hi => ?_⟩
            rcases List.mem_cons.1 hi with rfl | hi
            · exact Nat.le_max_left _ _
            · exact (hids i hi).trans (Nat.le_max_right _ _)
        | realloc index size =>
            exact ⟨Nat.le_max_right _ _, Nat.le_max_left _ _,
              fun i hi => (hids i hi).trans (Nat.le_max_right _ _)⟩
        | free index =>
            exact ⟨Nat.le_refl m, hids index hop, fun i hi => hids i (List.mem_filter.1 hi).1⟩
      obtain ⟨hm, hindex, hlive⟩ := hraise
      obtain ⟨hle, hops⟩ := ih hlive hrest
      exact ⟨hm.trans hle, List.forall_mem_cons.2 ⟨hindex.trans hle, hops⟩⟩

/-- **The arrays of a trace are long enough** for the ids of its requests, if those that are freed
have been allocated, exactly when their length is positive and their size in bytes fits a word. -/
theorem readTrace_inBounds (hg : g.Ints) (hsize : size < 2 ^ 32)
    (hok : readTrace granted g size text = some (.ok t)) (hvalid : Valid [] t.ops) :
    (∀ op ∈ t.ops, 4 * (op.index + 1) ≤ arrayBytes t.header.numIds 4) ↔
      1 ≤ t.header.numIds ∧ t.header.numIds < 2 ^ 30 := by
  have hr := regular_of_readTrace hg hsize hok
  have hids := hr.ids
  obtain ⟨hlow, hhigh⟩ := hr.ints.numIds
  have hbytes : arrayBytes t.header.numIds 4 < 2 ^ 32 := Nat.mod_lt _ (Nat.two_pow_pos 32)
  have hnone : ∀ i ∈ ([] : List ℕ), i ≤ 0 := fun i hi => absurd hi List.not_mem_nil
  obtain ⟨-, hindex⟩ := index_le_foldl_raise hnone hvalid
  constructor
  · intro hall
    by_contra hnot
    have hbig : 2 ^ 30 - 1 ≤ maxIndex t.ops := by omega
    rcases maxIndex_mem t.ops with hzero | ⟨op, hop, heq⟩
    · omega
    · have := hall op hop
      omega
  · rintro ⟨hpos, hfits⟩ op hop
    have hle : op.index ≤ maxIndex t.ops := hindex op hop
    have harray : (arrayBytes t.header.numIds 4 : ℤ) = 4 * t.header.numIds := by
      unfold arrayBytes
      omega
    omega

/-- The ids that are freed are not checked. -/
example : readTrace (fun _ => true) ⟨0, 0, 0, 0⟩ 0 "0\n1\n1\n0\nf 99\n".toList =
    some (.ok ⟨⟨0, 1, 1, 0⟩, [.free 99]⟩) := by decide +kernel

/-- The file `short1-bal.rep`. -/
def short1 : Trace where
  header := ⟨20000, 6, 12, 1⟩
  ops := [.alloc 0 2040, .alloc 1 2040, .free 1, .alloc 2 48, .alloc 3 4072, .free 3,
    .alloc 4 4072, .free 0, .free 2, .alloc 5 4072, .free 4, .free 5]

theorem readTrace_ok_iff_short1 : short1.text =
      ("20000\n6\n12\n1\na 0 2040\na 1 2040\nf 1\na 2 48\na 3 4072\nf 3\n" ++
        "a 4 4072\nf 0\nf 2\na 5 4072\nf 4\nf 5\n").toList ∧
    Regular (fun _ => true) short1 ∧
    readTrace (fun _ => true) ⟨0, 0, 0, 0⟩ 0 short1.text = some (.ok short1) := by
  have hread : readTrace (fun _ => true) ⟨0, 0, 0, 0⟩ 0 short1.text = some (.ok short1) := by
    decide +kernel
  have hiff := readTrace_ok_iff (fun _ => true) ⟨0, 0, 0, 0⟩ (by constructor <;> decide) 0
    (by decide) short1
  have hregular := hiff.1.1 ⟨_, hread⟩
  exact ⟨by decide +kernel, hregular, hiff.2 hregular⟩

/-- Its six ids. -/
theorem readTrace_inBounds_short1 :
    readTrace (fun _ => true) ⟨0, 0, 0, 0⟩ 0 short1.text = some (.ok short1) ∧
      Valid [] short1.ops ∧ ∀ op ∈ short1.ops, 4 * (op.index + 1) ≤ 24 := by
  have hread : readTrace (fun _ => true) ⟨0, 0, 0, 0⟩ 0 short1.text = some (.ok short1) := by
    decide +kernel
  have hvalid : Valid [] short1.ops := by decide
  exact ⟨hread, hvalid, (readTrace_inBounds (by constructor <;> decide) (by decide) hread hvalid).2
    ⟨by decide, by decide⟩⟩

end Traces

end Mdriver
