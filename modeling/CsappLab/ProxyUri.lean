/-
**Taking a URI apart.**

`parse_uri` cuts the token of the request line at the first `//` and, behind it, at the first `/`
and the first `:`, and copies the pieces to the three arrays of `struct Uri`, which lie next to each
other in memory.  A piece that is too long for its array goes on into what lies behind.  A token
without `//` is copied to `path` as a whole, and `host` is left as `malloc` returned it.

Main definitions:

* `Proxy.Uri`, `Proxy.parseUri`, `Proxy.cacheKey` — the structure, `parse_uri`, and the key that
  `handleRequest` makes of it;
* `Proxy.Token` — the second word of a request line;
* `Proxy.hostPart`, `Proxy.portPart`, `Proxy.pathPart` — the pieces of a token;
* `Proxy.AbsoluteUri` — the URIs of the form `scheme//host[:port][path]`.

Main results:

* `Proxy.parseUri_of_absolute` — `parse_uri` in terms of the pieces;
* `Proxy.storesFit_iff` — **for which tokens every string fits its array**;
* `Proxy.parseUri_exact` — **parsing of absolute URIs is exact, and so are their cache keys**;
* `Proxy.parseUri_determined_iff` — **for which tokens the result does not depend on what `malloc`
  returned**.
-/

import CsappLab.CText
import CsappLab.ProxyRio

set_option relaxedAutoImplicit false
set_option autoImplicit false

namespace Proxy

open CText

/-! ### The structure -/

/-- The arrays of `struct Uri`. -/
inductive UriField where
  | host
  | port
  | path
  deriving DecidableEq, Repr

namespace UriField

/-- The length of an array. -/
def size : UriField → ℕ
  | .host => 100
  | .port => 6
  | .path => 100

/-- Where an array starts. -/
def offset : UriField → ℕ
  | .host => 0
  | .port => 100
  | .path => 106

end UriField

/-- `sizeof(struct Uri)`. -/
abbrev uriSize : ℕ := 206

/-- A `struct Uri`: the memory from its start on, and the stores made to its arrays, with the number
of bytes, latest last. -/
structure Uri where
  mem : List Char
  stores : List (UriField × ℕ)
  size_le : uriSize ≤ mem.length

/-- A structure as it may come from `malloc`. -/
def Uri.filled (c : Char) : Uri where
  mem := List.replicate uriSize c
  stores := []
  size_le := Nat.le_of_eq (List.length_replicate ..).symm

namespace Uri

variable (u : Uri)

theorem offset_le (f : UriField) : f.offset ≤ u.mem.length := by
  have hsize : 206 ≤ u.mem.length := u.size_le
  cases f <;> simp only [UriField.offset] <;> omega

/-- The string in an array. -/
def str (f : UriField) : List Char := cstr u.mem f.offset

/-- `strcpy(uri_data->f, w)`. -/
def strcpy (f : UriField) (w : List Char) : Uri where
  mem := CText.strcpy u.mem f.offset w
  stores := u.stores ++ [(f, w.length + 1)]
  size_le := Nat.le_trans u.size_le (length_le_strcpy (u.offset_le f) w)

end Uri

/-- `parse_uri`; `uri` is the string without its terminator. -/
def parseUri (uri : List Char) (d : Uri) : Uri :=
  let d := d.strcpy .port ['8', '0']
  let d := d.strcpy .path []  -- `path[0] = '\0'`
  match strstr uri 0 ['/', '/'] with
  | none => d.strcpy .path (cstr uri 0)
  | some i =>
      let hostStart := i + 2
      let (uri, d) := match strchr uri hostStart '/' with
        | none => (uri, d)
        | some pathStart => (uri.set pathStart nul, d.strcpy .path (cstr uri pathStart))
      let (uri, d) := match strchr uri hostStart ':' with
        | none => (uri, d)
        | some portStart =>
            let d := match scanS 5 (cstr uri (portStart + 1)) with
              | none => d
              | some (w, _) => d.strcpy .port w
            (uri.set portStart nul, d)
      d.strcpy .host (cstr uri hostStart)

/-- The key under which `handleRequest` looks up the cache. -/
def cacheKey (d : Uri) : List Char :=
  (d.str .host ++ ':' :: d.str .port ++ d.str .path).take (maxline - 1)

/-- The URI of a request line: a word that was scanned from a line. -/
structure Token where
  chars : List Char
  ne_nil : chars ≠ []
  plain : ∀ c ∈ chars, isSpace c = false ∧ c ≠ nul
  length_lt : chars.length < maxline

/-! ### The pieces of a token -/

/-- What comes behind the first `//`. -/
def afterSlashes : List Char → Option (List Char)
  | '/' :: '/' :: r => some r
  | _ :: s => afterSlashes s
  | [] => none

/-- The text in front of the first `/`. -/
def authority (r : List Char) : List Char := r.takeWhile (· ≠ '/')

/-- The path: what comes from the first `/` on. -/
def pathPart (r : List Char) : List Char := r.dropWhile (· ≠ '/')

/-- The host: the authority up to the first `:`. -/
def hostPart (r : List Char) : List Char := (authority r).takeWhile (· ≠ ':')

/-- The port that is stored, if there is one: up to five characters behind the first `:`. -/
def portPart (r : List Char) : Option (List Char) :=
  (cut ':' (authority r)).bind fun hp => (scanS 5 hp.2).map Prod.fst

theorem afterSlashes_eq (s : List Char) :
    afterSlashes s = (findSub ['/', '/'] s).map fun i => s.drop (i + 2) := by
  fun_induction afterSlashes s with
  | case1 r => simp [findSub]
  | case2 c s hno ih =>
      have hpre : ¬ ['/', '/'].isPrefixOf (c :: s) = true := by
        intro h
        obtain ⟨t, ht⟩ := List.isPrefixOf_iff_prefix.1 h
        obtain ⟨hc, hs⟩ : c = '/' ∧ s = '/' :: t := by simpa using ht.symm
        exact hno t hc hs
      rw [findSub, if_neg hpre, ih, Option.map_map]
      rfl
  | case3 => rfl

/-- The host that is stored for a token; without `//` none is. -/
def hostOf (t : List Char) : List Char :=
  match afterSlashes t with
  | none => []
  | some r => hostPart r

/-- The path that is stored for a token. -/
def pathOf (t : List Char) : List Char :=
  match afterSlashes t with
  | none => t
  | some r => pathPart r

/-! ### `parse_uri` -/

namespace Uri

variable {u : Uri} {f g : UriField} {w : List Char}

theorem str_strcpy_self (hw : nul ∉ w) : (u.strcpy f w).str f = w :=
  cstr_strcpy_self (u.offset_le f) hw

/-- A store to one array leaves an earlier one alone, if that has its terminator. -/
theorem str_strcpy_before (h : g.offset + (u.str g).length < f.offset) :
    (u.strcpy f w).str g = u.str g := cstr_strcpy_before (u.offset_le f) h

/-- A string that ends before a later array starts leaves that alone. -/
theorem str_strcpy_behind (h : f.offset + w.length < g.offset) :
    (u.strcpy f w).str g = u.str g := cstr_strcpy_behind (u.offset_le f) h

/-- A string that goes on into a later array. -/
theorem str_strcpy_into (hw : nul ∉ w) (hfg : f.offset ≤ g.offset)
    (h : g.offset ≤ f.offset + w.length) :
    (u.strcpy f w).str g = w.drop (g.offset - f.offset) :=
  cstr_strcpy_inside (u.offset_le f) hw hfg h

/-- Store a string, if there is one. -/
def copy (u : Uri) (f : UriField) : Option (List Char) → Uri
  | none => u
  | some w => u.strcpy f w

/-- The defaults. -/
def defaults (u : Uri) : Uri := (u.strcpy .port ['8', '0']).strcpy .path []

end Uri

/-- **`parse_uri` on a token without `//`.** -/
theorem parseUri_of_path {t : List Char} (ht : nul ∉ t) (h : afterSlashes t = none) (d : Uri) :
    parseUri t d = d.defaults.strcpy .path t := by
  have hcstr : cstr t 0 = t := cstr_eq_drop (by simpa using ht)
  have hfind : findSub ['/', '/'] t = none := by
    rw [afterSlashes_eq] at h
    simpa using h
  unfold parseUri
  dsimp only
  rw [strstr, hcstr, hfind]
  rfl

/-- A search in the string `r` of an array, and what is read and written where it succeeds. -/
theorem search_spec {s r : List Char} {k : ℕ} (hr : cstr s k = r) (c : Char) :
    (cut c r = none ∧ strchr s k c = none) ∨
      ∃ h q i, cut c r = some (h, q) ∧ strchr s k c = some i ∧ cstr s i = c :: q ∧
        cstr s (i + 1) = q ∧ cstr (s.set i nul) k = h := by
  rw [strchr_eq_cut_cstr, hr]
  cases hcut : cut c r with
  | none => exact .inl ⟨rfl, rfl⟩
  | some hq =>
      obtain ⟨h, q⟩ := hq
      obtain ⟨hr', -⟩ := cut_some hcut
      subst hr
      have hlen : (cstr s k).length = h.length + (q.length + 1) := by
        rw [hr', List.length_append, List.length_cons]
      refine .inr ⟨h, q, k + h.length, rfl, rfl, ?_, ?_, ?_⟩
      · rw [cstr_add (by omega), hr', List.drop_left]
      · rw [Nat.add_assoc, cstr_add (by omega), hr', List.drop_length_add_append]
        rfl
      · rw [cstr_set_nul (by omega), hr', List.take_left]

/-- **`parse_uri` on a token with `//`.** -/
theorem parseUri_of_absolute {t r : List Char} (ht : nul ∉ t) (h : afterSlashes t = some r)
    (d : Uri) :
    parseUri t d =
      ((d.defaults.copy .path (if pathPart r = [] then none else some (pathPart r))).copy .port
        (portPart r)).strcpy .host (hostPart r) := by
  have hcstr : cstr t 0 = t := cstr_eq_drop (by simpa using ht)
  rw [afterSlashes_eq] at h
  obtain ⟨i, hfind, hdrop⟩ := Option.map_eq_some_iff.1 h
  have hr : cstr t (i + 2) = r := by
    rw [← hdrop]
    exact cstr_eq_drop fun hmem => ht (List.mem_of_mem_drop hmem)
  unfold parseUri
  dsimp only
  rw [strstr, hcstr, hfind]
  simp only [Option.map_some, Nat.zero_add]
  -- the path is cut off, and the authority is left
  obtain ⟨s, d', hfirst, hauth, hd⟩ : ∃ s d', (match strchr t (i + 2) '/' with
      | none => (t, d.defaults)
      | some p => (t.set p nul, d.defaults.strcpy .path (cstr t p))) = (s, d') ∧
      cstr s (i + 2) = authority r ∧
      d' = d.defaults.copy .path (if pathPart r = [] then none else some (pathPart r)) := by
    rcases search_spec hr '/' with ⟨hcut, hsearch⟩ | ⟨a, q, p, hcut, hsearch, hpath, -, hset⟩
    · obtain ⟨hauth, hnone⟩ := of_cut_none hcut
      rw [hsearch, authority, hauth, pathPart, if_pos hnone]
      exact ⟨t, _, rfl, hr, rfl⟩
    · obtain ⟨hauth, hsome⟩ := of_cut_some hcut
      rw [hsearch, authority, hauth, pathPart, hsome, if_neg (List.cons_ne_nil _ _)]
      dsimp only
      rw [hpath]
      exact ⟨_, _, rfl, hset, rfl⟩
  rw [show (d.strcpy .port ['8', '0']).strcpy .path [] = d.defaults from rfl, hfirst, ← hd]
  dsimp only
  rcases search_spec hauth ':' with ⟨hcut, hsearch⟩ | ⟨b, q, p, hcut, hsearch, -, hport, hset⟩
  · rw [hsearch, portPart, hcut, hostPart, (of_cut_none hcut).1]
    dsimp only
    rw [hauth]
    rfl
  · rw [hsearch, portPart, hcut, hostPart, (of_cut_some hcut).1]
    dsimp only
    rw [hset, hport]
    cases hscan : scanS 5 q with
    | none => simp [hscan, Uri.copy]
    | some wr => simp [hscan, Uri.copy]

/-! ### The strings that are left -/

theorem portPart_some {r w : List Char} (h : portPart r = some w) :
    w ≠ [] ∧ w.length ≤ 5 ∧ ∀ c ∈ w, isSpace c = false ∧ c ∈ r := by
  obtain ⟨⟨a, q⟩, hcut, hmap⟩ := Option.bind_eq_some_iff.1 h
  obtain ⟨⟨w', q'⟩, hscan, rfl⟩ := Option.map_eq_some_iff.1 hmap
  obtain ⟨hne, hlength, hw⟩ := scanS_some hscan
  refine ⟨hne, hlength, fun c hc => ⟨(hw c hc).1, ?_⟩⟩
  have hauth : c ∈ authority r := by
    rw [(cut_some hcut).1]
    exact List.mem_append_right _ (List.mem_cons_of_mem _ (hw c hc).2)
  exact (List.takeWhile_sublist _).subset hauth

theorem mem_of_mem_hostPart {r : List Char} {c : Char} (h : c ∈ hostPart r) : c ∈ r :=
  (List.takeWhile_sublist _).subset ((List.takeWhile_sublist _).subset h)

theorem mem_of_mem_pathPart {r : List Char} {c : Char} (h : c ∈ pathPart r) : c ∈ r :=
  (List.dropWhile_sublist _).subset h

theorem mem_of_afterSlashes {t r : List Char} (h : afterSlashes t = some r) {c : Char}
    (hc : c ∈ r) : c ∈ t := by
  rw [afterSlashes_eq] at h
  obtain ⟨i, -, rfl⟩ := Option.map_eq_some_iff.1 h
  exact List.mem_of_mem_drop hc

/-- **The strings after `parse_uri`** on a token with `//`; a long host goes on into the arrays
behind its own. -/
theorem str_of_absolute {t r : List Char} (ht : nul ∉ t) (h : afterSlashes t = some r) (d : Uri) :
    (parseUri t d).str .host = hostPart r ∧
      (parseUri t d).str .port = (if (hostPart r).length < 100 then (portPart r).getD ['8', '0']
        else (hostPart r).drop 100) ∧
      (parseUri t d).str .path = (if (hostPart r).length < 106 then pathPart r
        else (hostPart r).drop 106) := by
  have hr : nul ∉ r := fun hmem => ht (mem_of_afterSlashes h hmem)
  have hhost : nul ∉ hostPart r := fun hmem => hr (mem_of_mem_hostPart hmem)
  have hpath : nul ∉ pathPart r := fun hmem => hr (mem_of_mem_pathPart hmem)
  rw [parseUri_of_absolute ht h]
  -- the defaults, then the path, then the port
  have hport₀ : d.defaults.str .port = ['8', '0'] := by
    have hself : (d.strcpy .port ['8', '0']).str .port = ['8', '0'] :=
      Uri.str_strcpy_self (by decide)
    rw [Uri.defaults, Uri.str_strcpy_before (by rw [hself]; decide), hself]
  have hpath₀ : d.defaults.str .path = [] := Uri.str_strcpy_self (by simp)
  obtain ⟨d₁, hd₁⟩ : ∃ d₁, d₁ =
      d.defaults.copy .path (if pathPart r = [] then none else some (pathPart r)) := ⟨_, rfl⟩
  have hport₁ : d₁.str .port = ['8', '0'] ∧ d₁.str .path = pathPart r := by
    rw [hd₁]
    split
    · rename_i hnil
      exact ⟨hport₀, hpath₀.trans hnil.symm⟩
    · refine ⟨?_, Uri.str_strcpy_self hpath⟩
      rw [Uri.copy, Uri.str_strcpy_before (by rw [hport₀]; decide), hport₀]
  obtain ⟨d₂, hd₂⟩ : ∃ d₂, d₂ = d₁.copy .port (portPart r) := ⟨_, rfl⟩
  have hport₂ : d₂.str .port = (portPart r).getD ['8', '0'] ∧ d₂.str .path = pathPart r := by
    rw [hd₂]
    cases hport : portPart r with
    | none => exact hport₁
    | some w =>
        obtain ⟨-, hlength, hw⟩ := portPart_some hport
        refine ⟨Uri.str_strcpy_self fun hmem => hr (hw _ hmem).2, ?_⟩
        rw [Uri.copy, Uri.str_strcpy_behind (by simp only [UriField.offset]; omega), hport₁.2]
  rw [← hd₁, ← hd₂]
  refine ⟨Uri.str_strcpy_self hhost, ?_, ?_⟩
  · split
    · rename_i hshort
      rw [Uri.str_strcpy_behind (by simp only [UriField.offset]; omega), hport₂.1]
    · exact Uri.str_strcpy_into hhost (by decide) (by simp only [UriField.offset]; omega)
  · split
    · rename_i hshort
      rw [Uri.str_strcpy_behind (by simp only [UriField.offset]; omega), hport₂.2]
    · exact Uri.str_strcpy_into hhost (by decide) (by simp only [UriField.offset]; omega)

/-- The strings after `parse_uri` on a token without `//`: the path is the token, and what the other
array in front holds is read up to its first terminator. -/
theorem str_of_path {t : List Char} (ht : nul ∉ t) (h : afterSlashes t = none) (d : Uri) :
    (parseUri t d).str .path = t ∧ (parseUri t d).str .port = ['8', '0'] ∧
      ((d.str .host).length < 100 → (parseUri t d).str .host = d.str .host) := by
  rw [parseUri_of_path ht h]
  have hport : ((d.strcpy .port ['8', '0']).str .port) = ['8', '0'] :=
    Uri.str_strcpy_self (by decide)
  have hport' : d.defaults.str .port = ['8', '0'] := by
    rw [Uri.defaults, Uri.str_strcpy_before (by rw [hport]; decide), hport]
  refine ⟨Uri.str_strcpy_self ht, ?_, fun hshort => ?_⟩
  · rw [Uri.str_strcpy_before (by rw [hport']; decide), hport']
  · have hhost : (d.strcpy .port ['8', '0']).str .host = d.str .host :=
      Uri.str_strcpy_before (by simp only [UriField.offset]; omega)
    have hhost' : d.defaults.str .host = d.str .host := by
      rw [Uri.defaults, Uri.str_strcpy_before (by rw [hhost]; simp only [UriField.offset]; omega),
        hhost]
    rw [Uri.str_strcpy_before (by rw [hhost']; simp only [UriField.offset]; omega), hhost']

theorem Token.nul_notMem (t : Token) : nul ∉ t.chars := fun h => (t.plain nul h).2 rfl

/-! ### The stores -/

/-- Every string that `parse_uri` stores fits its array, terminator included. -/
def StoresFit (t : List Char) (d : Uri) : Prop :=
  ∃ new, (parseUri t d).stores = d.stores ++ new ∧ ∀ st ∈ new, st.2 ≤ st.1.size

theorem storesFit_iff_of_append {t : List Char} {d : Uri} {new : List (UriField × ℕ)}
    (h : (parseUri t d).stores = d.stores ++ new) :
    StoresFit t d ↔ ∀ st ∈ new, st.2 ≤ st.1.size := by
  constructor
  · rintro ⟨new', hnew', hfit⟩
    obtain rfl : new' = new := List.append_cancel_left (hnew'.symm.trans h)
    exact hfit
  · exact fun hfit => ⟨new, h, hfit⟩

theorem Uri.stores_copy (u : Uri) (f : UriField) (o : Option (List Char)) :
    (u.copy f o).stores = u.stores ++ (o.map fun w => (f, w.length + 1)).toList := by
  cases o with
  | none => exact (List.append_nil _).symm
  | some w => rfl

/-- The stores of `parse_uri`, and which of them fit: all, if host and path are short.  The port is
always cut. -/
theorem stores_parseUri (t : Token) (d : Uri) :
    ∃ new, (parseUri t.chars d).stores = d.stores ++ new ∧ ((∀ st ∈ new, st.2 ≤ st.1.size) ↔
      (hostOf t.chars).length < 100 ∧ (pathOf t.chars).length < 100) := by
  have hdefaults : d.defaults.stores = d.stores ++ [(.port, 3), (.path, 1)] := by
    simp [Uri.defaults, Uri.strcpy]
  cases h : afterSlashes t.chars with
  | none =>
      refine ⟨[(.port, 3), (.path, 1), (.path, t.chars.length + 1)], ?_, ?_⟩
      · rw [parseUri_of_path t.nul_notMem h, Uri.strcpy, hdefaults, List.append_assoc]
        rfl
      · rw [hostOf, pathOf, h]
        simp only [List.mem_cons, List.not_mem_nil, or_false, forall_eq_or_imp, forall_eq,
          UriField.size, List.length_nil]
        omega
  | some r =>
      have hport : ∀ w, portPart r = some w → w.length + 1 ≤ 6 := fun w hw =>
        Nat.succ_le_succ (portPart_some hw).2.1
      refine ⟨[(.port, 3), (.path, 1)] ++ ((if pathPart r = [] then none else some (pathPart r)).map
          fun w => (UriField.path, w.length + 1)).toList ++
        ((portPart r).map fun w => (UriField.port, w.length + 1)).toList ++
          [(.host, (hostPart r).length + 1)], ?_, ?_⟩
      · rw [parseUri_of_absolute t.nul_notMem h, Uri.strcpy, Uri.stores_copy, Uri.stores_copy,
          hdefaults]
        simp only [List.append_assoc]
      · rw [hostOf, pathOf, h]
        simp only [List.mem_append, List.mem_cons, List.not_mem_nil, or_false, Option.mem_toList,
          Option.map_eq_some_iff]
        constructor
        · intro hfit
          have hhost : (hostPart r).length + 1 ≤ 100 := hfit (.host, _) (.inr rfl)
          refine ⟨by omega, ?_⟩
          by_cases hnil : pathPart r = []
          · rw [hnil]
            decide
          · have hpath : (pathPart r).length + 1 ≤ 100 :=
              hfit (.path, _) (.inl (.inl (.inr ⟨_, if_neg hnil, rfl⟩)))
            omega
        · rintro ⟨hhost, hpath⟩ st (((( rfl | rfl) | ⟨w, hw, rfl⟩) | ⟨w, hw, rfl⟩) | rfl)
          · decide
          · decide
          · split at hw
            · cases hw
            · cases hw
              exact hpath
          · exact hport w hw
          · exact hhost

/-- **For which tokens every string fits its array**: those with a short host and a short path. -/
theorem storesFit_iff (t : Token) (d : Uri) :
    StoresFit t.chars d ↔ (hostOf t.chars).length < 100 ∧ (pathOf t.chars).length < 100 := by
  obtain ⟨new, hnew, hfit⟩ := stores_parseUri t d
  rw [storesFit_iff_of_append hnew, hfit]

/-- No store was longer than its array. -/
def Uri.fits (u : Uri) : Bool := u.stores.all fun st => st.2 ≤ st.1.size

/-- A structure before anything was stored. -/
def Uri.fresh (d : Uri) : Uri := { d with stores := [] }

theorem fits_parseUri (t : Token) (d : Uri) : (parseUri t.chars d.fresh).fits = true ↔
    (hostOf t.chars).length < 100 ∧ (pathOf t.chars).length < 100 := by
  obtain ⟨new, hnew, hfit⟩ := stores_parseUri t d.fresh
  rw [← hfit, Uri.fits, hnew]
  simp [Uri.fresh]

/-- A host of one hundred characters. -/
def longHost : Token where
  chars := ['/', '/'] ++ List.replicate 100 'a'
  ne_nil := by simp
  plain c hc := by
    have hc' : c = '/' ∨ c = 'a' := by
      simpa [List.mem_replicate] using hc
    rcases hc' with rfl | rfl <;> decide
  length_lt := by simp [maxline]

/-- **A string that does not fit.** -/
theorem host_overflows : ¬ ∀ (t : Token) (d : Uri), StoresFit t.chars d := by
  intro h
  obtain ⟨new, hnew, hfit⟩ := h longHost (Uri.filled nul)
  have hstores : (parseUri longHost.chars (Uri.filled nul)).stores =
      [(.port, 3), (.path, 1), (.host, 101)] := by decide +kernel
  rw [hstores] at hnew
  have hhost := hfit (.host, 101) (by rw [← List.nil_append new]; exact hnew ▸ by simp)
  exact absurd hhost (by decide)

/-! ### Absolute URIs -/

/-- **The URIs of the form** `scheme//host[:port][path]` whose parts fit their arrays. -/
structure AbsoluteUri where
  scheme : List Char
  host : List Char
  port : Option (List Char)
  path : List Char
  scheme_ok : '/' ∉ scheme
  host_ok : '/' ∉ host ∧ ':' ∉ host
  port_ok : ∀ p, port = some p → p ≠ [] ∧ p.length ≤ 5 ∧ '/' ∉ p
  path_ok : path = [] ∨ path.head? = some '/'
  plain : ∀ c ∈ scheme ++ host ++ port.getD [] ++ path, isSpace c = false ∧ c ≠ nul
  host_short : host.length < 100
  path_short : path.length < 100

namespace AbsoluteUri

/-- The authority as it is written. -/
def authorityText (a : AbsoluteUri) : List Char :=
  a.host ++ match a.port with
    | none => []
    | some p => ':' :: p

/-- The URI as it is written. -/
def text (a : AbsoluteUri) : List Char := a.scheme ++ '/' :: '/' :: (a.authorityText ++ a.path)

/-- The port that is meant. -/
def portOrDefault (a : AbsoluteUri) : List Char := a.port.getD ['8', '0']

variable (a : AbsoluteUri)

theorem slash_notMem_authorityText : '/' ∉ a.authorityText := by
  intro h
  rcases List.mem_append.1 h with h | h
  · exact a.host_ok.1 h
  · cases hport : a.port with
    | none =>
        rw [hport] at h
        cases h
    | some p =>
        rw [hport] at h
        rcases List.mem_cons.1 h with h | h
        · cases h
        · exact (a.port_ok p hport).2.2 h

theorem nul_notMem_text : nul ∉ a.text := by
  intro h
  have hparts : nul ∈ a.scheme ++ a.host ++ a.port.getD [] ++ a.path := by
    simp only [text, authorityText, List.mem_append, List.mem_cons] at h ⊢
    rcases h with h | h | h | (h | h) | h
    · exact .inl (.inl (.inl h))
    · cases h
    · cases h
    · exact .inl (.inl (.inr h))
    · cases hport : a.port with
      | none =>
          rw [hport] at h
          cases h
      | some p =>
          rw [hport] at h
          rcases List.mem_cons.1 h with h | h
          · cases h
          · exact .inl (.inr h)
    · exact .inr h
  exact (a.plain nul hparts).2 rfl

theorem afterSlashes_text : afterSlashes a.text = some (a.authorityText ++ a.path) := by
  have hscheme : ∀ s r : List Char, '/' ∉ s → afterSlashes (s ++ '/' :: '/' :: r) = some r := by
    intro s r hs
    induction s with
    | nil => rfl
    | cons c s ih =>
        rw [List.cons_append, afterSlashes, ih fun h => hs (List.mem_cons_of_mem _ h)]
        rintro _ rfl
        exact absurd List.mem_cons_self hs
  exact hscheme _ _ a.scheme_ok

/-- The first `/` behind the scheme ends the authority. -/
theorem authority_text : authority (a.authorityText ++ a.path) = a.authorityText ∧
    pathPart (a.authorityText ++ a.path) = a.path := by
  have hpos := decide_ne_of_notMem a.slash_notMem_authorityText
  rw [authority, pathPart, List.takeWhile_append_of_pos hpos, List.dropWhile_append_of_pos hpos]
  rcases a.path_ok with hpath | hpath
  · simp [hpath]
  · obtain ⟨q, hq⟩ := List.head?_eq_some_iff.1 hpath
    simp [hq]

/-- The first `:` of the authority ends the host. -/
theorem cut_authorityText : cut ':' a.authorityText = a.port.map fun p => (a.host, p) := by
  rw [authorityText]
  cases a.port with
  | none =>
      rw [List.append_nil]
      exact cut_eq_none a.host_ok.2
  | some p => exact cut_append a.host_ok.2 p

theorem scanS_port {p : List Char} (hp : a.port = some p) : scanS 5 p = some (p, []) := by
  obtain ⟨hne, hlength, -⟩ := a.port_ok p hp
  have hplain : ∀ c ∈ p, isSpace c = false := fun c hc => (a.plain c (by simp [hp, hc])).1
  have hskip : skipSpace p = p := by
    cases p with
    | nil => rfl
    | cons c p => exact skipSpace_cons (hplain c List.mem_cons_self)
  have hword : (p.takeWhile fun c => !isSpace c) = p :=
    List.takeWhile_eq_self_iff.2 fun c hc => by simp [hplain c hc]
  unfold scanS
  dsimp only
  rw [hskip, hword, List.take_of_length_le hlength, if_neg hne, List.drop_length]

/-- The pieces of an absolute URI. -/
theorem parts : hostPart (a.authorityText ++ a.path) = a.host ∧
    portPart (a.authorityText ++ a.path) = a.port := by
  rw [hostPart, portPart, a.authority_text.1, a.cut_authorityText]
  cases hport : a.port with
  | none =>
      have hcut := a.cut_authorityText
      rw [hport] at hcut
      have hauth : a.authorityText = a.host := by
        rw [authorityText, hport, List.append_nil]
      exact ⟨(of_cut_none hcut).1.trans hauth, rfl⟩
  | some p =>
      have hcut := a.cut_authorityText
      rw [hport] at hcut
      refine ⟨(of_cut_some hcut).1, ?_⟩
      simp [a.scanS_port hport]

end AbsoluteUri

/-- The three strings are the parts of the URI. -/
structure Parsed (a : AbsoluteUri) (d : Uri) : Prop where
  host : d.str .host = a.host
  port : d.str .port = a.portOrDefault
  path : d.str .path = a.path

theorem parsed_of_text (a : AbsoluteUri) (d : Uri) : Parsed a (parseUri a.text d) := by
  obtain ⟨hhost, hport, hpath⟩ := str_of_absolute a.nul_notMem_text a.afterSlashes_text d
  rw [a.parts.1] at hhost hport hpath
  have hshort := a.host_short
  constructor
  · exact hhost
  · rw [hport, if_pos hshort, a.parts.2]
    rfl
  · rw [hpath, if_pos (by omega), a.authority_text.2]

/-- The key of an absolute URI is not cut. -/
theorem Parsed.cacheKey {a : AbsoluteUri} {d : Uri} (h : Parsed a d) :
    cacheKey d = a.host ++ ':' :: (a.portOrDefault ++ a.path) := by
  have hport : a.portOrDefault.length ≤ 5 := by
    rw [AbsoluteUri.portOrDefault]
    cases hp : a.port with
    | none => decide
    | some p => exact (a.port_ok p hp).2.1
  have hhost := a.host_short
  have hpath := a.path_short
  rw [Proxy.cacheKey, h.host, h.port, h.path, List.take_of_length_le, List.append_assoc,
    List.cons_append]
  simp only [List.length_append, List.length_cons, maxline]
  omega

/-- The port and the path of an absolute URI are told apart by the first `/`. -/
theorem port_path_inj (a b : AbsoluteUri)
    (h : a.portOrDefault ++ a.path = b.portOrDefault ++ b.path) :
    a.portOrDefault = b.portOrDefault ∧ a.path = b.path := by
  have hslash : ∀ e : AbsoluteUri, '/' ∉ e.portOrDefault := by
    intro e
    rw [AbsoluteUri.portOrDefault]
    cases hp : e.port with
    | none => decide
    | some p => exact (e.port_ok p hp).2.2
  have hsplit : ∀ e : AbsoluteUri, (e.portOrDefault ++ e.path).takeWhile (· ≠ '/') =
      e.portOrDefault := by
    intro e
    rw [List.takeWhile_append_of_pos (decide_ne_of_notMem (hslash e))]
    rcases e.path_ok with hpath | hpath
    · simp [hpath]
    · obtain ⟨q, hq⟩ := List.head?_eq_some_iff.1 hpath
      simp [hq]
  have hport : a.portOrDefault = b.portOrDefault := by
    rw [← hsplit a, h, hsplit b]
  rw [hport] at h
  exact ⟨hport, List.append_cancel_left h⟩

/-- **Parsing of absolute URIs is exact, and so are their cache keys**: two URIs have the same key
iff they have the same host, port and path. -/
theorem parseUri_exact (a b : AbsoluteUri) (d e : Uri) :
    Parsed a (parseUri a.text d) ∧
      (cacheKey (parseUri a.text d) = cacheKey (parseUri b.text e) ↔
        a.host = b.host ∧ a.portOrDefault = b.portOrDefault ∧ a.path = b.path) := by
  refine ⟨parsed_of_text a d, ?_⟩
  rw [(parsed_of_text a d).cacheKey, (parsed_of_text b e).cacheKey]
  constructor
  · intro h
    -- no host contains a colon
    have hcut := congrArg (cut ':') h
    rw [cut_append a.host_ok.2, cut_append b.host_ok.2] at hcut
    obtain ⟨hhost, hrest⟩ := Prod.mk.inj (Option.some.inj hcut)
    exact ⟨hhost, port_path_inj a b hrest⟩
  · rintro ⟨hhost, hport, hpath⟩
    rw [hhost, hport, hpath]

/-- A URI with a port, and with `/`, `:` and `?` in its path. -/
def queryUri : AbsoluteUri where
  scheme := ['h', 't', 't', 'p', ':']
  host := ['h']
  port := some ['8', '0', '8', '0']
  path := ['/', 'p', '/', '/', 'q', ':', '1', '?', 'x']
  scheme_ok := by decide
  host_ok := by decide
  port_ok p hp := by
    cases hp
    decide
  path_ok := .inr rfl
  plain c hc := by
    refine ⟨forall_mem_of_all (p := isSpace) rfl c hc, ?_⟩
    exact bne_iff_ne.1 (forall_mem_of_all (p := (· != nul)) rfl c hc)
  host_short := by decide
  path_short := by decide

/-- Its parts are found, and its key does not depend on what `malloc` returned. -/
theorem parseUri_exact_query : queryUri.text = "http://h:8080/p//q:1?x".toList ∧
    Parsed queryUri (parseUri queryUri.text (Uri.filled 'a')) ∧
      cacheKey (parseUri queryUri.text (Uri.filled 'a')) =
        cacheKey (parseUri queryUri.text (Uri.filled 'b')) :=
  have hexact := parseUri_exact queryUri queryUri (Uri.filled 'a') (Uri.filled 'b')
  ⟨by decide, hexact.1, hexact.2.2 ⟨rfl, rfl, rfl⟩⟩

/-! ### What `malloc` returned -/

theorem afterSlashes_eq_none_iff (t : List Char) :
    afterSlashes t = none ↔ ¬ ['/', '/'] <:+: t := by
  fun_induction afterSlashes t with
  | case1 r => exact iff_of_false (by simp) (not_not.2 ⟨[], r, rfl⟩)
  | case2 c s hno ih =>
      rw [ih, List.infix_cons_iff, not_or]
      refine ⟨fun h => ⟨fun hpre => ?_, h⟩, And.right⟩
      obtain ⟨r, hr⟩ := hpre
      obtain ⟨hc, hs⟩ : '/' = c ∧ '/' :: r = s := by simpa using hr
      exact hno r hc.symm hs.symm
  | case3 => simp

/-- The path that is stored for a token whose parts fit. -/
theorem str_path_of_fits (t : Token) (hhost : (hostOf t.chars).length < 100) (d : Uri) :
    (parseUri t.chars d).str .path = pathOf t.chars := by
  cases h : afterSlashes t.chars with
  | none =>
      rw [pathOf, h]
      exact (str_of_path t.nul_notMem h d).1
  | some r =>
      rw [hostOf, h] at hhost
      rw [pathOf, h, (str_of_absolute t.nul_notMem h d).2.2,
        if_pos (Nat.lt_trans hhost (by decide))]

/-- The host that is stored for a token with `//`. -/
theorem str_host_of_slashes (t : Token) (h : ['/', '/'] <:+: t.chars) (d : Uri) :
    (parseUri t.chars d).str .host = hostOf t.chars := by
  cases hr : afterSlashes t.chars with
  | none => exact absurd h ((afterSlashes_eq_none_iff t.chars).1 hr)
  | some r =>
      rw [hostOf, hr]
      exact (str_of_absolute t.nul_notMem hr d).1

/-- **For which tokens the strings do not depend on what `malloc` returned**: those with `//`. -/
theorem parseUri_determined_iff (t : Token) :
    (∀ (d e : Uri) (f : UriField), (parseUri t.chars d).str f = (parseUri t.chars e).str f) ↔
      ['/', '/'] <:+: t.chars := by
  cases h : afterSlashes t.chars with
  | none =>
      refine iff_of_false (fun hsame => ?_) ((afterSlashes_eq_none_iff t.chars).1 h)
      -- two chunks of memory with different strings at their start
      obtain ⟨-, -, hempty⟩ := str_of_path t.nul_notMem h (Uri.filled nul)
      obtain ⟨-, -, hone⟩ := str_of_path t.nul_notMem h ((Uri.filled nul).strcpy .host ['a'])
      have hnil : (Uri.filled nul).str .host = [] := by decide +kernel
      have ha : ((Uri.filled nul).strcpy .host ['a']).str .host = ['a'] :=
        Uri.str_strcpy_self (by decide)
      have hstr := hsame (Uri.filled nul) ((Uri.filled nul).strcpy .host ['a']) .host
      rw [hempty (by rw [hnil]; decide), hone (by rw [ha]; decide), hnil, ha] at hstr
      cases hstr
  | some r =>
      refine iff_of_true (fun d e f => ?_) ?_
      · obtain ⟨hhost, hport, hpath⟩ := str_of_absolute t.nul_notMem h d
        obtain ⟨hhost', hport', hpath'⟩ := str_of_absolute t.nul_notMem h e
        cases f with
        | host => rw [hhost, hhost']
        | port => rw [hport, hport']
        | path => rw [hpath, hpath']
      · by_contra hno
        rw [(afterSlashes_eq_none_iff t.chars).2 hno] at h
        cases h

/-- The request for a path without a host. -/
def pathToken : Token where
  chars := ['/', 'x']
  ne_nil := by simp
  plain := List.forall_mem_cons.2 ⟨by decide, List.forall_mem_singleton.2 (by decide)⟩
  length_lt := by simp [maxline]

/-- **Leftovers in the key**: the host of a token without `//` is what `malloc` returned. -/
theorem host_leftover : ¬ ∀ (t : Token) (d e : Uri) (f : UriField),
    (parseUri t.chars d).str f = (parseUri t.chars e).str f := by
  intro h
  have hne : (parseUri pathToken.chars (Uri.filled 'a')).str .host ≠
      (parseUri pathToken.chars (Uri.filled 'b')).str .host := by decide +kernel
  exact hne (h pathToken _ _ .host)

end Proxy
