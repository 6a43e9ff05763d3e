/-
**Which lines of a trace are counted.**

A trace of Valgrind holds more than the records of memory accesses: banners that start with the
process number between `==`, and lines of the traced program.  `parseLine` does not look at the
number of conversions `sscanf` made.  What a line does is therefore decided by the local variables
after the conversions that succeeded, the others being whatever they were before, and every line
makes an access whose operation is not the letter `I`.

Main definitions:

* `Csim.readRecord` — the record on a line that the whole format matches;
* `Csim.Counts`, `Csim.CountsLine` — what a line of the trace should do.

Main results:

* `Csim.scanRecord_op` — the operation that `parseLine` finds;
* `Csim.parseLine_counts_iff` — **the lines that do what they should**;
* `Csim.banner_counted` — the first line of a trace of Valgrind is counted.
-/

import CsappLab.CsimTrace

set_option relaxedAutoImplicit false
set_option autoImplicit false

namespace Csim

open Recency

/-! ### Records -/

/-- The operation of a letter. -/
def Op.ofLetter (c : Char) : Option Op :=
  if c = 'I' then some .I
  else if c = 'L' then some .L
  else if c = 'S' then some .S
  else if c = 'M' then some .M
  else none

theorem Op.eq_letter_of_ofLetter {c : Char} {op : Op} (h : Op.ofLetter c = some op) :
    c = op.letter := by
  unfold Op.ofLetter at h
  split_ifs at h with hI hL hS hM <;> cases h <;> assumption

@[simp] theorem Op.ofLetter_letter (op : Op) : Op.ofLetter op.letter = some op := by
  cases op <;> rfl

/-- The operation and the address on a line that the whole format of `parseLine` matches, when the
letter is that of an operation. -/
def readRecord (line : List Char) : Option (Op × BitVec 64) :=
  match CText.skipSpace line with
  | [] => none
  | c :: rest =>
      match Op.ofLetter c, CText.scanLx (CText.skipSpace rest) with
      | some op, some (address, ',' :: rest) => (CText.scanD rest).map fun _ => (op, address)
      | _, _ => none

example : readRecord "I  0400d7d4,8".toList = some (.I, 0x0400d7d4#64) := by decide

/-- The accesses of a record; a line without one makes none. -/
def recordAccesses : Option (Op × BitVec 64) → List (BitVec 64)
  | none => []
  | some (.I, _) => []
  | some (.L, address) => [address]
  | some (.S, address) => [address]
  | some (.M, address) => [address, address]

/-- The first character that is not white space, if there is one. -/
def firstLetter (line : List Char) : Option Char := (CText.skipSpace line).head?

/-- **The operation that `parseLine` finds**: the first character of the line, and on a blank line
what the variable held before. -/
theorem scanRecord_op (loc : Locals) (line : List Char) :
    (scanRecord loc line).op = (firstLetter line).getD loc.op := by
  unfold scanRecord firstLetter
  cases CText.skipSpace line with
  | nil => rfl
  | cons c rest =>
      dsimp only [List.head?_cons, Option.getD_some]
      split
      · rfl
      · split
        · split <;> rfl
        · rfl

/-- All three conversions of a record succeed. -/
theorem scanRecord_of_readRecord {line : List Char} {op : Op} {address : BitVec 64}
    (h : readRecord line = some (op, address)) (loc : Locals) :
    (scanRecord loc line).op = op.letter ∧ (scanRecord loc line).address = address := by
  unfold readRecord at h
  unfold scanRecord
  cases hskip : CText.skipSpace line with
  | nil => simp [hskip] at h
  | cons c rest =>
      rw [hskip] at h
      dsimp only at h ⊢
      split at h
      · rename_i op' address' rest' hop hlx
        obtain ⟨size, hd, heq⟩ := Option.map_eq_some_iff.1 h
        cases heq
        simp only [hlx, hd]
        exact ⟨Op.eq_letter_of_ofLetter hop, trivial⟩
      · cases h

/-- The text of a record is read as that record. -/
theorem readRecord_text {r : Record} {line : List Char} (hl : r.Text line) :
    readRecord line = some (r.op, r.address) := by
  obtain ⟨rest, tail, d, hop, hlx, hd⟩ := hl.conversions
  simp only [readRecord, hop, hlx, hd, Op.ofLetter_letter, Option.map_some]

/-! ### The accesses of a line -/

/-- On a record the accesses are those of the record, whatever the locals held. -/
theorem lineAccesses_of_readRecord {line : List Char} {r : Op × BitVec 64}
    (h : readRecord line = some r) (loc : Locals) :
    lineAccesses loc line = recordAccesses (some r) := by
  obtain ⟨hop, haddress⟩ := scanRecord_of_readRecord h loc
  obtain ⟨op, address⟩ := r
  simp only [lineAccesses, hop, haddress]
  cases op <;> rfl

/-- A line makes no access exactly when its operation is the letter `I`. -/
theorem lineAccesses_eq_nil_iff (loc : Locals) (line : List Char) :
    lineAccesses loc line = [] ↔ (firstLetter line).getD loc.op = 'I' := by
  rw [← scanRecord_op, lineAccesses]
  split
  · rename_i hI
    exact iff_of_true rfl hI
  · rename_i hI
    refine iff_of_false ?_ hI
    split <;> simp

theorem accesses_quiet (o : Opts) (cache : ℕ → CacheSet) (σ : Sim) (addresses : List (BitVec 64)) :
    accesses o cache σ.quiet addresses =
      (accesses o cache σ addresses).map fun x => (x.1.quiet, x.2) := by
  induction addresses generalizing σ with
  | nil => rfl
  | cons address addresses ih =>
      cases h : accessCache o cache σ address with
      | none => simp [accesses, accessCache_quiet, h]
      | some x =>
          cases h' : accesses o cache x.1 addresses <;>
            simp [accesses, accessCache_quiet, h, ih, h']

/-- Every access is counted once. -/
theorem accessCache_counts {o : Opts} {cache : ℕ → CacheSet} {σ σ' : Sim} {address : BitVec 64}
    {r : String} (h : accessCache o cache σ address = some (σ', r)) :
    σ'.hits + σ'.misses = σ.hits + σ.misses + 1 := by
  unfold accessCache at h
  cases hc : checkAndUpdateSet σ.heap (cache (getSetIndexAndTag o address).1.toNat)
      (getSetIndexAndTag o address).2 with
  | none => simp [hc] at h
  | some x =>
      obtain ⟨heap, hit⟩ := x
      cases hit <;> simp only [hc, Option.bind_eq_bind, Option.bind_some, Option.pure_def] at h <;>
        cases h <;> dsimp only <;> omega

theorem accesses_counts {o : Opts} {cache : ℕ → CacheSet} {addresses : List (BitVec 64)} :
    ∀ {σ σ' : Sim} {results : List (BitVec 64 × String)},
      accesses o cache σ addresses = some (σ', results) →
        σ'.hits + σ'.misses = σ.hits + σ.misses + addresses.length := by
  induction addresses with
  | nil =>
      intro σ σ' results h
      cases h
      rfl
  | cons address addresses ih =>
      intro σ σ' results h
      obtain ⟨⟨σ₁, r⟩, hfirst, h⟩ := Option.bind_eq_some_iff.1 h
      obtain ⟨⟨σ₂, rs⟩, hrest, h⟩ := Option.bind_eq_some_iff.1 h
      cases h
      have hone := accessCache_counts hfirst
      have hmany := ih hrest
      rw [List.length_cons]
      omega

/-! ### Every line runs to its end -/

section Lines

variable {o : Opts} {cache : ℕ → CacheSet} {original : ℕ → List ℕ} {σ σ' : Sim} {c : LruCache}

/-- What is refined does not include the output. -/
theorem RefinesOn.of_quiet (hr : RefinesOn o cache original σ c) (h : σ'.quiet = σ.quiet) :
    RefinesOn o cache original σ' c := by
  have hheap : σ'.quiet.heap = σ.quiet.heap := congrArg Sim.heap h
  refine ⟨?_, (congrArg Sim.hits h).trans hr.hits_eq, (congrArg Sim.misses h).trans hr.misses_eq,
    (congrArg Sim.evictions h).trans hr.evictions_eq⟩
  change ∃ nodes, CacheRep σ'.quiet.heap cache _ _ c.sets nodes ∧ _
  rw [hheap]
  exact hr.rep

/-- A run from a state that refines the specification. -/
theorem RefinesOn.accesses (ho : o.Valid) (hr : RefinesOn o cache original σ c)
    (addresses : List (BitVec 64)) :
    ∃ σ' results, Csim.accesses o cache σ addresses = some (σ', results) ∧
      RefinesOn o cache original σ' (c.accesses o.s.toNat o.E.toNat o.b.toNat addresses) := by
  induction addresses generalizing σ c with
  | nil => exact ⟨σ, [], rfl, hr⟩
  | cons address addresses ih =>
      obtain ⟨σ₁, r, hfirst, hr₁, -⟩ := hr.access ho address
      obtain ⟨σ₂, results, hrest, hr₂⟩ := ih hr₁
      exact ⟨σ₂, (address, r) :: results, by simp [Csim.accesses, hfirst, hrest], hr₂⟩

/-- A line makes its accesses, and nothing else. -/
theorem RefinesOn.parseLine (ho : o.Valid) (hr : RefinesOn o cache original σ c) (loc : Locals)
    (line : List Char) :
    ∃ σ' σ₁ results, Csim.parseLine o cache σ loc line = some σ' ∧
      Csim.accesses o cache σ (lineAccesses loc line) = some (σ₁, results) ∧
      σ'.quiet = σ₁.quiet ∧ ∃ c', RefinesOn o cache original σ' c' := by
  obtain ⟨σ₁, results, hrun, hr₁⟩ := hr.accesses ho (lineAccesses loc line)
  have hline := parseLine_accesses o cache σ loc line
  rw [accesses_quiet, hrun] at hline
  obtain ⟨σ', hparse, hquiet⟩ := Option.map_eq_some_iff.1 hline
  exact ⟨σ', σ₁, results, hparse, hrun, hquiet, _, hr₁.of_quiet hquiet⟩

/-- A trace of any lines is read to its end. -/
theorem RefinesOn.simulate (ho : o.Valid) (hr : RefinesOn o cache original σ c)
    (input : List (Locals × List Char)) :
    ∃ σ', Csim.simulate o cache σ input = some σ' ∧ ∃ c', RefinesOn o cache original σ' c' := by
  induction input generalizing σ c with
  | nil => exact ⟨σ, rfl, c, hr⟩
  | cons x input ih =>
      obtain ⟨σ₁, -, -, hparse, -, -, c₁, hr₁⟩ := hr.parseLine ho x.1 x.2
      obtain ⟨σ₂, hrest, hr₂⟩ := ih hr₁
      exact ⟨σ₂, by simp [Csim.simulate, hparse, hrest], hr₂⟩

/-- An access right after an access to the same address is a hit. -/
theorem RefinesOn.access_twice (ho : o.Valid) (hr : RefinesOn o cache original σ c)
    (address : BitVec 64) :
    ∃ σ₂ r, Csim.accesses o cache σ [address, address] =
      some (σ₂, [(address, r), (address, "hit ")]) := by
  obtain ⟨σ₁, r, hfirst, hr₁, -⟩ := hr.access ho address
  obtain ⟨σ₂, r', hagain, -, hhit⟩ := hr₁.access ho address
  have hr' : r' = "hit " := by
    refine hhit.2 ?_
    have hE := ho.E_pos
    simp only [LruCache.access, Function.update_self]
    exact mem_touch (by omega) _ _
  exact ⟨σ₂, r, by simp [Csim.accesses, hfirst, hagain, hr']⟩

end Lines

/-! ### Which lines do what they should -/

/-- **What a line of the trace should do**: from `σ` to `σ'` the accesses of its record are made,
the second one of a modification is a hit, and a line without accesses leaves the state as it
was. -/
structure Counts (o : Opts) (cache : ℕ → CacheSet) (line : List Char) (σ σ' : Sim) : Prop where
  effect : (accesses o cache σ (recordAccesses (readRecord line))).map (fun x => x.1.quiet) =
    some σ'.quiet
  modify : ∀ address, readRecord line = some (.M, address) →
    ∃ σ₂ r, accesses o cache σ [address, address] = some (σ₂, [(address, r), (address, "hit ")])
  idle : recordAccesses (readRecord line) = [] → σ' = σ

/-- `parseLine` does with a line what it should, for the given contents of its locals. -/
def CountsLine (o : Opts) (cache : ℕ → CacheSet) (σ : Sim) (line : List Char) (loc : Locals) :
    Prop :=
  ∃ σ', parseLine o cache σ loc line = some σ' ∧ Counts o cache line σ σ'

/-- A line that makes the accesses of its record does what it should, and no other line does. -/
theorem countsLine_iff_lineAccesses {o : Opts} (ho : o.Valid) {cache : ℕ → CacheSet}
    {original : ℕ → List ℕ} {σ : Sim} {c : LruCache} (hr : RefinesOn o cache original σ c)
    (line : List Char) (loc : Locals) :
    CountsLine o cache σ line loc ↔ lineAccesses loc line = recordAccesses (readRecord line) := by
  obtain ⟨σ', σ₁, results, hparse, hrun, hquiet, -⟩ := hr.parseLine ho loc line
  constructor
  · rintro ⟨σ'', hparse', hcounts⟩
    rw [hparse] at hparse'
    cases hparse'
    cases hrecord : readRecord line with
    | some r => exact lineAccesses_of_readRecord hrecord loc
    | none =>
        -- an access would have been counted
        have hsame := hcounts.idle (by rw [hrecord]; rfl)
        have htotal := accesses_counts hrun
        have hhits := congrArg Sim.hits hquiet
        have hmisses := congrArg Sim.misses hquiet
        simp only [Sim.quiet, hsame] at hhits hmisses
        exact List.length_eq_zero_iff.1 (by omega)
  · intro heq
    refine ⟨σ', hparse, ?_, fun address _ => hr.access_twice ho address, fun hnil => ?_⟩
    · rw [← heq, hrun, Option.map_some, hquiet]
    · rw [← heq, lineAccesses_eq_nil_iff, ← scanRecord_op] at hnil
      have hskip : parseLine o cache σ loc line = some σ := by simp [parseLine, hnil]
      rw [hparse] at hskip
      exact Option.some.inj hskip

/-- For given locals a line that is not a record is left alone if its operation is found to be the
letter `I`. -/
theorem lineAccesses_eq_iff (line : List Char) (loc : Locals) :
    lineAccesses loc line = recordAccesses (readRecord line) ↔
      (readRecord line).isSome = true ∨ (firstLetter line).getD loc.op = 'I' := by
  cases hrecord : readRecord line with
  | some r => exact iff_of_true (lineAccesses_of_readRecord hrecord loc) (.inl rfl)
  | none =>
      refine (lineAccesses_eq_nil_iff loc line).trans ⟨.inr, fun h => ?_⟩
      exact h.resolve_left (by simp)

/-- **The lines that do what they should**, at any point of a trace: for given contents of the
locals the records, and the lines whose operation is found to be the letter `I`; for any contents
the records, and the lines that start with that letter. -/
theorem parseLine_counts_iff {o : Opts} (ho : o.Valid) (h : Heap) (cache : ℕ → CacheSet)
    (input : List (Locals × List Char)) (line : List Char) :
    ∃ σ, simulate o (createCache o h cache).2 (initial o h cache) input = some σ ∧
      (∀ loc, CountsLine o (createCache o h cache).2 σ line loc ↔
        (readRecord line).isSome = true ∨ (firstLetter line).getD loc.op = 'I') ∧
      ((∀ loc, CountsLine o (createCache o h cache).2 σ line loc) ↔
        (readRecord line).isSome = true ∨ firstLetter line = some 'I') := by
  obtain ⟨original, hr⟩ := initial_refinesOn ho h cache
  obtain ⟨σ, hrun, c, hr⟩ := hr.simulate ho input
  have hloc : ∀ loc, CountsLine o (createCache o h cache).2 σ line loc ↔
      (readRecord line).isSome = true ∨ (firstLetter line).getD loc.op = 'I' := fun loc =>
    (countsLine_iff_lineAccesses ho hr line loc).trans (lineAccesses_eq_iff line loc)
  refine ⟨σ, hrun, hloc, ?_⟩
  simp only [hloc]
  constructor
  · intro hall
    cases hfirst : firstLetter line with
    | some d =>
        have hd := hall ⟨'I', 0, 0⟩
        rw [hfirst, Option.getD_some] at hd
        exact hd.imp_right (congrArg some)
    | none =>
        -- on a blank line the variable may hold any letter
        have hd := hall ⟨'L', 0, 0⟩
        rw [hfirst, Option.getD_none] at hd
        exact .inl (hd.resolve_right (by decide))
  · rintro (hrecord | hI) loc
    · exact .inl hrecord
    · exact .inr (by rw [hI, Option.getD_some])

/-- A modification, at the start of a trace. -/
theorem parseLine_counts_modify :
    ∃ σ, simulate ⟨4, 1, 4, false⟩
        (createCache ⟨4, 1, 4, false⟩ ⟨fun _ => ⟨true, 7, 3, 5⟩, 1⟩ fun _ => ⟨0, 0⟩).2
        (initial ⟨4, 1, 4, false⟩ ⟨fun _ => ⟨true, 7, 3, 5⟩, 1⟩ fun _ => ⟨0, 0⟩) [] = some σ ∧
      ∀ loc, CountsLine ⟨4, 1, 4, false⟩
        (createCache ⟨4, 1, 4, false⟩ ⟨fun _ => ⟨true, 7, 3, 5⟩, 1⟩ fun _ => ⟨0, 0⟩).2 σ
        " M 20,1".toList loc := by
  have ho : Opts.Valid ⟨4, 1, 4, false⟩ := by decide
  obtain ⟨σ, hrun, -, hall⟩ := parseLine_counts_iff ho ⟨fun _ => ⟨true, 7, 3, 5⟩, 1⟩
    (fun _ => ⟨0, 0⟩) [] " M 20,1".toList
  exact ⟨σ, hrun, hall.2 (.inl (by decide))⟩

/-- **The first line of a trace of Valgrind is counted**, at an address that no line has given. -/
theorem banner_counted :
    ¬ ∀ (o : Opts), o.Valid → ∀ (h : Heap) (cache : ℕ → CacheSet)
      (input : List (Locals × List Char)) (σ : Sim),
      simulate o (createCache o h cache).2 (initial o h cache) input = some σ →
      ∀ (line : List Char) (loc : Locals),
        CountsLine o (createCache o h cache).2 σ line loc := by
  intro hall
  have ho : Opts.Valid ⟨4, 1, 4, false⟩ := by decide
  have hcounts := hall ⟨4, 1, 4, false⟩ ho ⟨fun _ => ⟨true, 7, 3, 5⟩, 1⟩ (fun _ => ⟨0, 0⟩) []
    _ rfl "==401017== Lackey, an example Valgrind tool\n".toList ⟨'I', 0, 0⟩
  obtain ⟨original, hr⟩ := initial_refinesOn ho ⟨fun _ => ⟨true, 7, 3, 5⟩, 1⟩ fun _ => ⟨0, 0⟩
  have hcond := (lineAccesses_eq_iff _ _).1 ((countsLine_iff_lineAccesses ho hr _ _).1 hcounts)
  exact absurd hcond (by decide)

end Csim
