/-
**The geometries the simulator accepts.**

`parseArgs` reads the options one after the other, takes whatever numbers `atoi` makes of them and
refuses zeros and missing options only.  What the rest of the program needs of the geometry is
collected in `Opts.Safe`; among the accepted geometries it is `Opts.Valid`, so negative numbers
and large shifts pass the check and break the program.

Main definitions:

* `Getopt`, `Globals`, `parseArgs` — the command line;
* `Opts.Safe` — what `createCache` and `accessCache` rely on.

Main results:

* `parseArgs_nonzero` — what the check of `parseArgs` guarantees;
* `safe_of_valid` — a valid geometry is safe;
* `parseArgs_safe_iff` — exactly which accepted geometries are.
-/

import CsappLab.CsimTrace

set_option relaxedAutoImplicit false
set_option autoImplicit false

namespace Csim

open Linked Recency

/-! ### The command line -/

/-- What `getopt` returns for `"hvs:E:b:t:"`, with `optarg` where the option has one; `unknown` is
`'?'`. -/
inductive Getopt where
  | h
  | v
  | s (optarg : List Char)
  | E (optarg : List Char)
  | b (optarg : List Char)
  | t (optarg : List Char)
  | unknown

/-- The global variables that `parseArgs` sets. -/
structure Globals where
  s : ℤ := 0
  E : ℤ := 0
  b : ℤ := 0
  tracefile : Option (List Char) := none
  hflag : Bool := false
  verbose : Bool := false
  deriving DecidableEq

/-- A call of `exit`, with what has been printed before it. -/
structure Exit where
  status : ℤ
  stdout : String
  stderr : String
  deriving DecidableEq

/-- `atoi`. -/
def atoi (w : List Char) : ℤ := ((CText.scanD w).map Prod.fst).getD 0

def usage (argv0 : String) : String :=
  "Usage: " ++ argv0 ++ " [-hv] -s <s> -E <E> -b <b> -t <tracefile>\n"

/-- What `-h` prints. -/
def helpText (argv0 : String) : String :=
  usage argv0 ++ "Options:\n" ++ "  -h\t\tPrint this help message.\n" ++
    "  -v\t\tVerbose mode.\n" ++ "  -s <s>\tNumber of set index bits.\n" ++
    "  -E <E>\tAssociativity.\n" ++ "  -b <b>\tNumber of block bits.\n" ++
    "  -t <tracefile>\tValgrind trace file.\n"

/-- The loop of `parseArgs`. -/
def parseOpts (argv0 : String) (g : Globals) : List Getopt → Except Exit Globals
  | [] => .ok g
  | .h :: opts => parseOpts argv0 { g with hflag := true } opts
  | .v :: opts => parseOpts argv0 { g with verbose := true } opts
  | .s optarg :: opts => parseOpts argv0 { g with s := atoi optarg } opts
  | .E optarg :: opts => parseOpts argv0 { g with E := atoi optarg } opts
  | .b optarg :: opts => parseOpts argv0 { g with b := atoi optarg } opts
  | .t optarg :: opts => parseOpts argv0 { g with tracefile := some optarg } opts
  | .unknown :: _ => .error ⟨1, "", usage argv0⟩

/-- `parseArgs`. -/
def parseArgs (argv0 : String) (opts : List Getopt) : Except Exit Globals :=
  match parseOpts argv0 {} opts with
  | .error e => .error e
  | .ok g =>
      if g.hflag then .error ⟨0, helpText argv0, ""⟩
      else if g.s = 0 ∨ g.E = 0 ∨ g.b = 0 ∨ g.tracefile = none then
        .error ⟨1, "", "Missing required arguments\n" ++ usage argv0⟩
      else .ok g

/-- The options the rest of the program reads. -/
def Globals.opts (g : Globals) : Opts := ⟨g.s, g.E, g.b, g.verbose⟩

/-- **What the check guarantees**: a trace file, and no zero. -/
theorem parseArgs_nonzero {argv0 : String} {opts : List Getopt} {g : Globals}
    (h : parseArgs argv0 opts = .ok g) :
    g.s ≠ 0 ∧ g.E ≠ 0 ∧ g.b ≠ 0 ∧ g.tracefile.isSome := by
  unfold parseArgs at h
  split at h
  · cases h
  · split_ifs at h with hflag hzero
    cases h
    simp only [not_or] at hzero
    exact ⟨hzero.1, hzero.2.1, hzero.2.2.1, Option.isSome_iff_ne_none.mpr hzero.2.2.2⟩

/-! ### What the program needs of a geometry -/

/-- The number of sets that `createCache` computes. -/
def Opts.numSets (o : Opts) : ℤ := (oneShl o.s).toInt

/-- **What `createCache` and `accessCache` rely on.** -/
structure Opts.Safe (o : Opts) : Prop where
  /-- `1 << s` shifts an `int` by less than its width. -/
  shift_sets : 0 ≤ o.s ∧ o.s < 32
  /-- `address >> (s + b)` shifts an `unsigned long` by less than its width. -/
  shift_tag : 0 ≤ o.s + o.b ∧ o.s + o.b < 64
  /-- So does `address >> b`. -/
  shift_block : 0 ≤ o.b ∧ o.b < 64
  /-- There is a set. -/
  numSets_pos : 0 < o.numSets
  /-- Every set is created with a line behind its dummy. -/
  lines_ne_nil : ∀ h cache (i : ℕ), i < o.numSets →
    setLines (createCache o h cache).1 ((createCache o h cache).2 i) ≠ []
  /-- `cache[setIndex]` is a set of the array. -/
  index_lt : ∀ address, (getSetIndexAndTag o address).1.toNat < o.numSets
  /-- Set index and tag are those of one block. -/
  block_iff : ∀ a a', getSetIndexAndTag o a = getSetIndexAndTag o a' ↔
    a >>> o.b.toNat = a' >>> o.b.toNat

/-- The list of a new set has the lines of the loop of `createCacheSet`: none for a negative
number. -/
theorem length_setLines_createCache (o : Opts) (h : Heap) (cache : ℕ → CacheSet) {i : ℕ}
    (hi : i < o.numSets) :
    (setLines (createCache o h cache).1 ((createCache o h cache).2 i)).length = o.E.toNat := by
  obtain ⟨nodes, hrep⟩ := createSets_rep h cache o.E o.numSets.toNat
  obtain ⟨ts, hset, -⟩ := hrep.rep i (by omega)
  exact (hset.listInvariant (List.Perm.refl _)).length_eq

theorem safe_of_valid {o : Opts} (ho : o.Valid) : o.Safe := by
  have hs := ho.s_pos
  have hs' := ho.s_le
  have hb := ho.b_pos
  have hsb := ho.sb_le
  have hsets : o.numSets = 2 ^ o.s.toNat := oneShl_toInt hs'
  refine ⟨by omega, by omega, by omega, ?_, fun h cache i hi => ?_, fun address => ?_,
    getSetIndexAndTag_eq_iff ho⟩
  · rw [hsets]
    exact Int.pow_pos (by decide)
  · have hlen := length_setLines_createCache o h cache hi
    have hE := ho.E_pos
    intro hnil
    rw [hnil] at hlen
    simp only [List.length_nil] at hlen
    omega
  · rw [hsets]
    exact_mod_cast setIndex_lt ho address

/-- What is safe and has no zero is valid: the shifts bound `s` and `s + b`, the sign of `1 << 31`
excludes thirty-one, and a set without lines the other associativities. -/
theorem Opts.Safe.valid {o : Opts} (hsafe : o.Safe) (hs : o.s ≠ 0) (hb : o.b ≠ 0) : o.Valid := by
  obtain ⟨hs0, hs32⟩ := hsafe.shift_sets
  obtain ⟨-, hsb⟩ := hsafe.shift_tag
  obtain ⟨hb0, -⟩ := hsafe.shift_block
  have hs31 : o.s ≠ 31 := by
    intro heq
    have hpos := hsafe.numSets_pos
    rw [Opts.numSets, heq] at hpos
    exact absurd hpos (by decide)
  have hE : 1 ≤ o.E := by
    by_contra hneg
    have hpos := hsafe.numSets_pos
    have hlen := length_setLines_createCache o ⟨fun _ => ⟨false, 0, 0, 0⟩, 0⟩ (fun _ => ⟨0, 0⟩)
      (i := 0) hpos
    have hzero : o.E.toNat = 0 := by omega
    rw [hzero] at hlen
    exact hsafe.lines_ne_nil _ _ 0 hpos (List.eq_nil_of_length_eq_zero hlen)
  exact ⟨by omega, by omega, hE, by omega, by omega⟩

/-- **Which accepted geometries are safe**: those with at most thirty set index bits, a positive
associativity, a positive number of block bits, and a tag of at least one bit. -/
theorem parseArgs_safe_iff {argv0 : String} {opts : List Getopt} {g : Globals}
    (h : parseArgs argv0 opts = .ok g) :
    g.opts.Safe ↔ 1 ≤ g.s ∧ g.s ≤ 30 ∧ 1 ≤ g.E ∧ 1 ≤ g.b ∧ g.s + g.b ≤ 63 := by
  obtain ⟨hs, -, hb, -⟩ := parseArgs_nonzero h
  constructor
  · intro hsafe
    have hvalid := hsafe.valid hs hb
    exact ⟨hvalid.s_pos, hvalid.s_le, hvalid.E_pos, hvalid.b_pos, hvalid.sb_le⟩
  · rintro ⟨hs1, hs30, hE, hb1, hsb⟩
    exact safe_of_valid ⟨hs1, hs30, hE, hb1, hsb⟩

/-- `csim -s 4 -E 1 -b 4 -t y`. -/
theorem parseArgs_safe_four :
    parseArgs "csim" [.s ['4'], .E ['1'], .b ['4'], .t ['y']] =
        .ok ⟨4, 1, 4, some ['y'], false, false⟩ ∧
      (Globals.opts ⟨4, 1, 4, some ['y'], false, false⟩).Safe := by
  have hargs : parseArgs "csim" [.s ['4'], .E ['1'], .b ['4'], .t ['y']] =
      .ok ⟨4, 1, 4, some ['y'], false, false⟩ := by decide
  exact ⟨hargs, (parseArgs_safe_iff hargs).mpr (by decide)⟩

/-- `csim -s 32 -E 1 -b 4 -t y` is accepted, and shifts an `int` by its width. -/
theorem parseArgs_unsafe :
    parseArgs "csim" [.s ['3', '2'], .E ['1'], .b ['4'], .t ['y']] =
        .ok ⟨32, 1, 4, some ['y'], false, false⟩ ∧
      ¬ (Globals.opts ⟨32, 1, 4, some ['y'], false, false⟩).Safe := by
  refine ⟨by decide, fun hsafe => ?_⟩
  exact absurd hsafe.shift_sets.2 (by decide)

end Csim
