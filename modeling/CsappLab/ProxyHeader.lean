/-
**The header of the request.**

`build_header` makes the text that the proxy sends to the server: a request line, a `Host` line,
three fixed lines and a blank line.  Between them stands what the loop over the header lines of the
client has put to `other_hdr`.  The condition for that asks of one line that it starts with three
different names, so nothing ever gets there.

Main definitions:

* `Proxy.headerLoop`, `Proxy.buildHeader` — the function;
* `Proxy.request` — its text, from the path, the `Host` line and the other lines;
* `Proxy.headers`, `Proxy.clientHost` — the pieces that the loop looks at, and the last of them that
  starts with `Host`;
* `Proxy.HeaderLine`, `Proxy.forwarded` — the lines of a header block, and the text that should be
  made of them.

Main results:

* `Proxy.buildHeader_spec` — **what `build_header` does**, for every source;
* `Proxy.forwards_iff` — **for which header blocks it forwards the lines of the client**.
-/

import CsappLab.ProxyUri

set_option relaxedAutoImplicit false
set_option autoImplicit false

namespace Proxy

open CText Chunked

/-! ### The function -/

/-- `endof_hdr`. -/
def endofHdr : List Char := ['\r', '\n']

/-- `conn_hdr`. -/
def connHdr : List Char := "Connection: close\r\n".toList

/-- `prox_hdr`. -/
def proxHdr : List Char := "Proxy-Connection: close\r\n".toList

/-- `User_Agent`. -/
def userAgent : List Char :=
  "User-Agent: Mozilla/5.0 (X11; Linux x86_64; rv:10.0.3) Gecko/20120305 Firefox/10.0.3\r\n".toList

/-- `host_hdr_format` in front of its `%s`. -/
def hostLabel : List Char := "Host: ".toList

/-- `host_hdr_format`, filled in. -/
def hostHdrOf (host : List Char) : List Char := hostLabel ++ host ++ endofHdr

/-- `requestlint_hdr_format` in front of its `%s`. -/
def getLabel : List Char := "GET ".toList

/-- `requestlint_hdr_format` behind its `%s`. -/
def httpLabel : List Char := " HTTP/1.0\r\n".toList

/-- `requestlint_hdr_format`, filled in. -/
def requestHdrOf (path : List Char) : List Char := getLabel ++ path ++ httpLabel

/-- `sprintf` to an array of `MAXLINE` bytes. -/
def sprintf (s : List Char) : Except Fault (List Char) :=
  if s.length < maxline then .ok s else .error .overflow

/-- The end of a line that `rio_readlineb` looks for. -/
def newline (c : Char) : Bool := c = '\n'

/-- The name that is tested first. -/
def hostName : List Char := ['H', 'o', 's', 't']

/-- The other names that are tested. -/
def connName : List Char := "Connection".toList

@[inherit_doc connName]
def proxName : List Char := "Proxy-Connection".toList

@[inherit_doc connName]
def agentName : List Char := "User-Agent".toList

/-- The loop of `build_header`, for at most `fuel` passes; `buf` is as long as `host_hdr`. -/
def headerLoop : ℕ → Rio Char → List Char → List Char →
    Except Fault (List Char × List Char × Rio Char)
  | 0, rp, hostHdr, otherHdr => .ok (hostHdr, otherHdr, rp)
  | fuel + 1, rp, hostHdr, otherHdr =>
      match rioReadlinebOrExit newline rp maxline with
      | .error e => .error e
      | .ok ([], rp) => .ok (hostHdr, otherHdr, rp)
      | .ok (c :: cs, rp) =>
          let buf := cstr (c :: cs) 0
          if buf = endofHdr then .ok (hostHdr, otherHdr, rp)
          else if strncasecmp buf hostName hostName.length then headerLoop fuel rp buf otherHdr
          else if strncasecmp buf connName connName.length &&
              strncasecmp buf proxName proxName.length &&
              strncasecmp buf agentName agentName.length then
            match sprintf (otherHdr ++ buf) with  -- `strcat`
            | .error e => .error e
            | .ok otherHdr => headerLoop fuel rp hostHdr otherHdr
          else headerLoop fuel rp hostHdr otherHdr

/-- The last `sprintf` of `build_header`. -/
def request (path hostHdr otherHdr : List Char) : List Char :=
  requestHdrOf path ++ hostHdr ++ connHdr ++ proxHdr ++ userAgent ++ otherHdr ++ endofHdr

/-- `build_header`, for an array of `MAXLINE` bytes: the text, and what is left to read. -/
def buildHeader (u : Uri) (rp : Rio Char) : Except Fault (List Char × Rio Char) := do
  let _ ← sprintf (requestHdrOf (u.str .path))
  let (hostHdr, otherHdr, rp) ← headerLoop (rp.elems.length + 1) rp [] []
  let hostHdr ← if hostHdr.length = 0 then sprintf (hostHdrOf (u.str .host)) else pure hostHdr
  let httpHeader ← sprintf (request (u.str .path) hostHdr otherHdr)
  return (httpHeader, rp)

theorem length_requestHdrOf (path : List Char) : (requestHdrOf path).length = path.length + 15 := by
  have hget : getLabel.length = 4 := by decide
  have hhttp : httpLabel.length = 11 := by decide
  rw [requestHdrOf, List.length_append, List.length_append, hget, hhttp]
  omega

theorem length_request (path hostHdr otherHdr : List Char) :
    (request path hostHdr otherHdr).length =
      path.length + hostHdr.length + otherHdr.length + 147 := by
  have hconn : connHdr.length = 19 := by decide
  have hprox : proxHdr.length = 25 := by decide
  have hagent : userAgent.length = 86 := by decide
  have hend : endofHdr.length = 2 := by decide
  simp only [request, List.length_append, length_requestHdrOf, hconn, hprox, hagent, hend]
  omega

/-! ### The loop -/

/-- The pieces of the client's text. -/
def pieces (rp : Rio Char) : List (List Char) := lines newline (maxline - 2) rp.elems

/-- The pieces in front of the blank line. -/
def headers (rp : Rio Char) : List (List Char) := (pieces rp).takeWhile (· ≠ endofHdr)

/-- A piece starts with `Host`. -/
def isHost (piece : List Char) : Bool := strncasecmp (cstr piece 0) hostName hostName.length

/-- What `host_hdr` is when the loop ends, if it is set. -/
def clientHost (rp : Rio Char) : Option (List Char) :=
  ((headers rp).filter isHost).getLast?.map (cstr · 0)

/-- A read fails before there is a blank line. -/
def HeaderFails (rp : Rio Char) : Prop := rp.fails = true ∧ endofHdr ∉ pieces rp

theorem pieces_of_nil {rp : Rio Char} (h : rp.elems = []) : pieces rp = [] := by
  rw [pieces, h, lines_nil]

theorem mem_elems_of_mem_piece {rp : Rio Char} {l : List Char} {c : Char} (hl : l ∈ pieces rp)
    (hc : c ∈ l) : c ∈ rp.elems := by
  rw [← flatten_lines newline (maxline - 2) rp.elems]
  exact List.mem_flatten_of_mem hl hc

/-- In a piece only the last character can be a line feed. -/
theorem newline_notMem_dropLast {rp : Rio Char} {l : List Char} (h : l ∈ pieces rp) :
    '\n' ∉ l.dropLast := by
  have hline : ∀ x xs, '\n' ∉ (line newline (maxline - 2 + 1) (x :: xs)).dropLast := by
    intro x xs hmem
    have := not_stop_of_mem_dropLast hmem
    cases this
  exact forall_mem_lines (P := fun l => '\n' ∉ l.dropLast) hline h

/-- A blank line is read as such. -/
theorem cstr_eq_endofHdr {l : List Char} (h : '\n' ∉ l.dropLast) :
    cstr l 0 = endofHdr ↔ l = endofHdr := by
  constructor
  · intro hcstr
    obtain ⟨r, rfl⟩ : ∃ r, l = '\r' :: '\n' :: r := by
      have hprefix : endofHdr <+: l := hcstr ▸ List.takeWhile_prefix _
      obtain ⟨r, hr⟩ := hprefix
      exact ⟨r, hr.symm⟩
    cases r with
    | nil => rfl
    | cons c r => exact absurd (by simp) h
  · rintro rfl
    decide

/-- No line starts with all three names. -/
theorem not_all_names (s : List Char) : (strncasecmp s connName connName.length &&
    strncasecmp s proxName proxName.length &&
      strncasecmp s agentName agentName.length) = false := by
  cases s with
  | nil => decide
  | cons c s =>
      by_contra h
      simp only [Bool.not_eq_false, Bool.and_eq_true, strncasecmp, decide_eq_true_eq] at h
      have hconn : c.toLower = 'c' := (List.cons.inj h.1.1).1
      have hprox : c.toLower = 'p' := (List.cons.inj h.1.2).1
      rw [hconn] at hprox
      exact absurd hprox (by decide)

/-- The two kinds of pieces in front of the blank line. -/
theorem clientHost_cons {rp rp' : Rio Char} {l : List Char} (hpieces : pieces rp = l :: pieces rp')
    (hl : l ≠ endofHdr) : clientHost rp =
      if isHost l then some ((clientHost rp').getD (cstr l 0)) else clientHost rp' := by
  have hheaders : headers rp = l :: headers rp' := by
    rw [headers, hpieces, List.takeWhile_cons_of_pos (by simpa using hl)]
    rfl
  rw [clientHost, hheaders]
  cases hhost : isHost l with
  | true =>
      rw [List.filter_cons_of_pos hhost, List.getLast?_cons, if_pos rfl, clientHost]
      cases ((headers rp').filter isHost).getLast? <;> rfl
  | false =>
      rw [List.filter_cons_of_neg (by simp [hhost]), if_neg Bool.false_ne_true]
      rfl

/-- A piece fits `buf`. -/
theorem length_cstr_piece {rp : Rio Char} {l : List Char} (h : l ∈ pieces rp) :
    (cstr l 0).length < maxline := by
  have hpiece : ∀ x xs, (line newline (maxline - 2 + 1) (x :: xs)).length < maxline := fun x xs =>
    Nat.lt_of_le_of_lt (length_line_le newline _ (x :: xs)) (by decide)
  exact Nat.lt_of_le_of_lt (List.takeWhile_sublist _).length_le
    (forall_mem_lines (P := fun l => l.length < maxline) hpiece h)

/-- The header goes on behind a piece. -/
structure HeaderGoesOn (rp : Rio Char) (l : List Char) (rp' : Rio Char) : Prop where
  length_lt : rp'.elems.length < rp.elems.length
  fails_iff : HeaderFails rp' ↔ HeaderFails rp
  not_blank : cstr l 0 ≠ endofHdr
  fits : (cstr l 0).length < maxline
  clientHost : clientHost rp =
    if isHost l then some ((clientHost rp').getD (cstr l 0)) else clientHost rp'

/-- **What a loop over the header lines meets**: a read that fails, the end of the header, or a
piece behind which it goes on. -/
theorem readHeader_spec (rp : Rio Char) :
    (HeaderFails rp ∧
        rioReadlinebOrExit newline rp maxline = .error (.exited "Rio_readlineb error")) ∨
      (¬ HeaderFails rp ∧ clientHost rp = none ∧ ∃ buf rp',
        rioReadlinebOrExit newline rp maxline = .ok (buf, rp') ∧
          (buf = [] ∨ cstr buf 0 = endofHdr)) ∨
      ∃ c cs rp', rioReadlinebOrExit newline rp maxline = .ok (c :: cs, rp') ∧
        HeaderGoesOn rp (c :: cs) rp' := by
  rcases rioReadlinebOrExit_spec newline rp with ⟨hfails, hno, hread⟩ |
    ⟨hfails, hnil, rp', hread⟩ | ⟨c, cs, rp', hread, hpieces, hsplit, hfails⟩
  · refine .inl ⟨⟨hfails, fun hmem => ?_⟩, hread⟩
    have := hno _ (mem_elems_of_mem_piece hmem (List.mem_cons_of_mem _ List.mem_cons_self))
    cases this
  · -- the end of the file
    refine .inr (.inl ⟨fun h => ?_, ?_, [], rp', hread, .inl rfl⟩)
    · rw [HeaderFails, hfails] at h
      cases h.1
    · rw [clientHost, headers, pieces_of_nil hnil]
      rfl
  · replace hpieces : pieces rp = (c :: cs) :: pieces rp' := hpieces
    have hmem : c :: cs ∈ pieces rp := hpieces ▸ List.mem_cons_self
    have hblank := cstr_eq_endofHdr (newline_notMem_dropLast hmem)
    by_cases hend : c :: cs = endofHdr
    · refine .inr (.inl ⟨fun h => h.2 (hend ▸ hmem), ?_, _, rp', hread, .inr (hblank.2 hend)⟩)
      rw [clientHost, headers, hpieces, List.takeWhile_cons_of_neg (by simp [hend])]
      rfl
    · refine .inr (.inr ⟨c, cs, rp', hread, ?_, ?_, fun h => hend (hblank.1 h),
        length_cstr_piece hmem, clientHost_cons hpieces hend⟩)
      · rw [hsplit, List.length_append, List.length_cons]
        omega
      · rw [HeaderFails, HeaderFails, hfails, hpieces, List.mem_cons, not_or]
        exact and_congr_right fun _ => (and_iff_right (Ne.symm hend)).symm

/-- **The loop** sets `host_hdr` alone, unless a read fails. -/
theorem headerLoop_spec {fuel : ℕ} (rp : Rio Char) (hostHdr otherHdr : List Char)
    (hfuel : rp.elems.length < fuel) :
    (HeaderFails rp ∧
      headerLoop fuel rp hostHdr otherHdr = .error (.exited "Rio_readlineb error")) ∨
    ¬ HeaderFails rp ∧ ∃ rp', headerLoop fuel rp hostHdr otherHdr =
      .ok ((clientHost rp).getD hostHdr, otherHdr, rp') := by
  induction fuel generalizing rp hostHdr with
  | zero => cases hfuel
  | succ fuel ih =>
      rw [headerLoop]
      rcases readHeader_spec rp with ⟨hfails, hread⟩ | ⟨hok, hnone, buf, rp', hread, hend⟩ |
        ⟨c, cs, rp', hread, hnext⟩
      · rw [hread]
        exact .inl ⟨hfails, rfl⟩
      · rw [hread, hnone]
        refine .inr ⟨hok, rp', ?_⟩
        cases buf with
        | nil => rfl
        | cons c cs =>
            rcases hend with hend | hend
            · cases hend
            · dsimp only
              rw [if_pos hend]
              rfl
      · have hfuel' : rp'.elems.length < fuel := by
          have := hnext.length_lt
          omega
        rw [hread, hnext.clientHost, ← hnext.fails_iff, isHost]
        dsimp only
        rw [if_neg hnext.not_blank, not_all_names, if_neg Bool.false_ne_true]
        split
        · exact ih rp' _ hfuel'
        · exact ih rp' _ hfuel'

/-! ### The text -/

/-- The `Host` line of the text. -/
def hostLine (u : Uri) (rp : Rio Char) : List Char := (clientHost rp).getD (hostHdrOf (u.str .host))

theorem clientHost_ne_nil {rp : Rio Char} {h : List Char} (hh : clientHost rp = some h) :
    h ≠ [] := by
  obtain ⟨l, hlast, rfl⟩ := Option.map_eq_some_iff.1 hh
  have hl := (List.mem_filter.1 (List.mem_of_getLast? hlast)).2
  intro hnil
  rw [isHost, hnil] at hl
  exact absurd hl (by decide)

theorem buildHeader_of_long (u : Uri) (rp : Rio Char)
    (hpath : ¬ (u.str .path).length + 15 < maxline) : buildHeader u rp = .error .overflow := by
  rw [buildHeader, sprintf, if_neg (by rw [length_requestHdrOf]; exact hpath)]
  rfl

/-- **What `build_header` does**, if the request line fits its array. -/
theorem buildHeader_spec (u : Uri) (rp : Rio Char) (hpath : (u.str .path).length + 15 < maxline) :
    (HeaderFails rp ∧ buildHeader u rp = .error (.exited "Rio_readlineb error")) ∨
    ¬ HeaderFails rp ∧ (
      (maxline ≤ (u.str .path).length + (hostLine u rp).length + 147 ∧
        buildHeader u rp = .error .overflow) ∨
      (u.str .path).length + (hostLine u rp).length + 147 < maxline ∧
        ∃ rp', buildHeader u rp = .ok (request (u.str .path) (hostLine u rp) [], rp')) := by
  have hfirst : sprintf (requestHdrOf (u.str .path)) = .ok (requestHdrOf (u.str .path)) :=
    if_pos (by rw [length_requestHdrOf]; exact hpath)
  rcases headerLoop_spec rp [] [] (Nat.lt_succ_self _) with ⟨hfails, hloop⟩ | ⟨hok, rp', hloop⟩
  · refine .inl ⟨hfails, ?_⟩
    rw [buildHeader, hfirst, hloop]
    rfl
  · refine .inr ⟨hok, ?_⟩
    have hlength := length_request (u.str .path) (hostLine u rp) []
    rw [List.length_nil, Nat.add_zero] at hlength
    have hbuild : buildHeader u rp = (do
        let hostHdr ← if ((clientHost rp).getD []).length = 0 then sprintf (hostHdrOf (u.str .host))
          else pure ((clientHost rp).getD [])
        let httpHeader ← sprintf (request (u.str .path) hostHdr [])
        return (httpHeader, rp')) := by
      rw [buildHeader, hfirst, hloop]
      rfl
    have hhost : buildHeader u rp =
        (sprintf (request (u.str .path) (hostLine u rp) [])).map (·, rp') := by
      rw [hbuild]
      unfold hostLine at hlength ⊢
      cases hclient : clientHost rp with
      | some h =>
          have hlong : ¬ h.length = 0 := fun h0 =>
            clientHost_ne_nil hclient (List.eq_nil_of_length_eq_zero h0)
          rw [Option.getD_some, if_neg hlong]
          rfl
      | none =>
          rw [hclient, Option.getD_none] at hlength
          rw [Option.getD_none, Option.getD_none, List.length_nil, if_pos rfl]
          by_cases hfit : (hostHdrOf (u.str .host)).length < maxline
          · rw [sprintf, if_pos hfit]
            rfl
          · -- a line that does not fit `host_hdr` does not fit the text
            rw [sprintf, sprintf, if_neg hfit, if_neg (by omega)]
            rfl
    rw [hhost, sprintf, hlength]
    by_cases hfit : (u.str .path).length + (hostLine u rp).length + 147 < maxline
    · exact .inr ⟨hfit, rp', by rw [if_pos hfit]; rfl⟩
    · exact .inl ⟨Nat.le_of_not_lt hfit, by rw [if_neg hfit]; rfl⟩

/-! ### Header blocks -/

/-- A header line of a client, without its end: it is not blank, and short enough to be read whole.
-/
structure HeaderLine where
  text : List Char
  ne_nil : text ≠ []
  newline_notMem : '\n' ∉ text
  length_lt : text.length + 2 < maxline

namespace HeaderLine

/-- The line with its end. -/
def chars (l : HeaderLine) : List Char := l.text ++ endofHdr

/-- The name stands in front of the colon. -/
def name (l : HeaderLine) : List Char := l.text.takeWhile (· ≠ ':')

/-- The line has a certain name, in either case. -/
def isNamed (l : HeaderLine) (name : List Char) : Bool :=
  l.name.map Char.toLower = name.map Char.toLower

/-- The proxy has a line of its own for the name. -/
def isReplaced (l : HeaderLine) : Bool := [hostName, connName, proxName, agentName].any l.isNamed

end HeaderLine

/-- A header block. -/
def block (ls : List HeaderLine) : List Char := (ls.map HeaderLine.chars).flatten ++ endofHdr

/-- The `Host` line that should be sent: the last one of the client, or one made of the URI. -/
def hostLineOf (u : Uri) (ls : List HeaderLine) : List Char :=
  ((ls.filter (·.isNamed hostName)).getLast?.map HeaderLine.chars).getD (hostHdrOf (u.str .host))

/-- The lines of the client that should be sent. -/
def otherLines (ls : List HeaderLine) : List Char :=
  ((ls.filter fun l => !l.isReplaced).map HeaderLine.chars).flatten

/-- **The text that should be sent** for a header block. -/
def forwarded (u : Uri) (ls : List HeaderLine) : List Char :=
  request (u.str .path) (hostLineOf u ls) (otherLines ls)

theorem newline_eq_false {s : List Char} (h : '\n' ∉ s) : ∀ c ∈ s, newline c = false := by
  intro c hc
  have : c ≠ '\n' := fun heq => h (heq ▸ hc)
  simpa [newline] using this

namespace HeaderLine

variable (l : HeaderLine)

theorem chars_ne_endofHdr : l.chars ≠ endofHdr := fun h =>
  l.ne_nil (List.append_left_eq_self.1 h)

/-- A line is one piece. -/
theorem chars_eq : ∃ w x, l.chars = w ++ [x] ∧ (∀ y ∈ w, newline y = false) ∧ newline x = true ∧
    w.length ≤ maxline - 2 := by
  refine ⟨l.text ++ ['\r'], '\n', ?_, newline_eq_false fun h => ?_, rfl, ?_⟩
  · rw [List.append_assoc]
    rfl
  · rcases List.mem_append.1 h with h | h
    · exact l.newline_notMem h
    · exact absurd (List.mem_singleton.1 h) (by decide)
  · have := l.length_lt
    simp only [List.length_append, List.length_singleton]
    omega

end HeaderLine

section Block

variable {ls : List HeaderLine} {rp : Rio Char} {rest : List Char}

/-- The lines of a block are the pieces in front of the blank line. -/
theorem headers_of_block (h : rp.elems = block ls ++ rest) :
    headers rp = ls.map HeaderLine.chars ∧ ¬ HeaderFails rp := by
  have hls : ∀ l ∈ ls.map HeaderLine.chars, ∃ w x, l = w ++ [x] ∧ (∀ y ∈ w, newline y = false) ∧
      newline x = true ∧ w.length ≤ maxline - 2 := by
    intro l hl
    obtain ⟨l, -, rfl⟩ := List.mem_map.1 hl
    exact l.chars_eq
  have hblank : line newline (maxline - 2 + 1) (endofHdr ++ rest) = endofHdr :=
    line_eq (w := ['\r']) (x := '\n') (List.forall_mem_singleton.2 rfl) rfl (by decide)
  have hps : ∃ ps, pieces rp = ls.map HeaderLine.chars ++ endofHdr :: ps := by
    have hpieces : pieces rp =
        ls.map HeaderLine.chars ++ lines newline (maxline - 2) (endofHdr ++ rest) := by
      rw [pieces, h, block, List.append_assoc, lines_append hls]
    rw [lines_of_ne_nil (by simp [endofHdr]), hblank] at hpieces
    exact ⟨_, hpieces⟩
  obtain ⟨ps, hps⟩ := hps
  constructor
  · have hpos : ∀ l ∈ ls.map HeaderLine.chars, decide (l ≠ endofHdr) = true := by
      intro l hl
      obtain ⟨l, -, rfl⟩ := List.mem_map.1 hl
      exact decide_eq_true l.chars_ne_endofHdr
    rw [headers, hps, List.takeWhile_append_of_pos hpos, List.takeWhile_cons_of_neg (by simp),
      List.append_nil]
  · intro hfails
    exact hfails.2 (hps ▸ List.mem_append_right _ List.mem_cons_self)

theorem mem_pieces_of_mem_headers {l : List Char} (h : l ∈ headers rp) : l ∈ pieces rp :=
  (List.takeWhile_sublist _).subset h

/-- The last `Host` piece. -/
theorem clientHost_some {s : List Char} (h : clientHost rp = some s) :
    ∃ l ∈ headers rp, isHost l = true ∧ s = cstr l 0 := by
  obtain ⟨l, hlast, rfl⟩ := Option.map_eq_some_iff.1 h
  obtain ⟨hl, hhost⟩ := List.mem_filter.1 (List.mem_of_getLast? hlast)
  exact ⟨l, hl, hhost, rfl⟩

theorem clientHost_eq_none_iff : clientHost rp = none ↔ ∀ l ∈ headers rp, isHost l = false := by
  rw [clientHost, Option.map_eq_none_iff, List.getLast?_eq_none_iff, List.filter_eq_nil_iff]
  simp

end Block

/-! ### Names -/

theorem not_nul_of_toLower {c : Char} (h : c.toLower ∈ hostName.map Char.toLower) : c ≠ nul := by
  rintro rfl
  exact absurd h (by decide)

/-- A line named `Host` starts with `Host`. -/
theorem isHost_of_isNamed {l : HeaderLine} (h : l.isNamed hostName = true) :
    isHost l.chars = true := by
  have hname : l.name.map Char.toLower = hostName.map Char.toLower := by
    simpa [HeaderLine.isNamed] using h
  have hlength : l.name.length = hostName.length := by
    simpa using congrArg List.length hname
  obtain ⟨r, hr⟩ : l.name <+: l.text := List.takeWhile_prefix _
  have hpos : ∀ c ∈ l.name, decide (c ≠ nul) = true := fun c hc =>
    decide_eq_true (not_nul_of_toLower (hname ▸ List.mem_map_of_mem hc))
  have hcstr : cstr l.chars 0 = l.name ++ cstr (r ++ endofHdr) 0 := by
    rw [cstr, cstr, HeaderLine.chars, ← hr, List.append_assoc, List.drop_zero, List.drop_zero,
      List.takeWhile_append_of_pos hpos]
  rw [isHost, strncasecmp, hcstr, List.take_left' hlength, hname, List.take_length]
  exact decide_eq_true rfl

theorem head_of_isNamed {l : HeaderLine} {c : Char} {n : List Char}
    (h : l.isNamed (c :: n) = true) :
    l.text.head?.map Char.toLower = some c.toLower := by
  have hname : l.name.map Char.toLower = c.toLower :: n.map Char.toLower := by
    simpa [HeaderLine.isNamed] using h
  obtain ⟨d, m, hd, hlower, -⟩ := List.map_eq_cons_iff.1 hname
  obtain ⟨r, hr⟩ : l.name <+: l.text := List.takeWhile_prefix _
  rw [← hr, hd, List.cons_append, List.head?_cons, Option.map_some, hlower]

theorem head_of_isHost {l : HeaderLine} (h : isHost l.chars = true) :
    l.text.head?.map Char.toLower = some 'h' := by
  obtain ⟨c, t, hc⟩ := List.exists_cons_of_ne_nil l.ne_nil
  rw [isHost, HeaderLine.chars, hc, cstr, List.drop_zero, List.cons_append] at h
  by_cases hnul : c = nul
  · rw [hnul, List.takeWhile_cons_of_neg (by simp)] at h
    exact absurd h (by decide)
  · rw [List.takeWhile_cons_of_pos (by simpa using hnul)] at h
    have hlower := (List.cons.inj (of_decide_eq_true h)).1
    rw [hc, List.head?_cons, Option.map_some, hlower]
    rfl

/-- Of the names that are replaced only `Host` starts like `Host`. -/
theorem isNamed_of_isHost {l : HeaderLine} (hhost : isHost l.chars = true)
    (hreplaced : l.isReplaced = true) : l.isNamed hostName = true := by
  have hhead := head_of_isHost hhost
  simp only [HeaderLine.isReplaced, List.any_cons, List.any_nil, Bool.or_false, Bool.or_eq_true]
    at hreplaced
  rcases hreplaced with h | h | h | h
  · exact h
  · exact absurd (hhead.symm.trans (head_of_isNamed h)) (by decide)
  · exact absurd (hhead.symm.trans (head_of_isNamed h)) (by decide)
  · exact absurd (hhead.symm.trans (head_of_isNamed h)) (by decide)

/-! ### Line feeds -/

theorem count_newline_cstr_le {s : List Char} (h : '\n' ∉ s.dropLast) :
    (cstr s 0).count '\n' ≤ 1 := by
  refine Nat.le_trans (List.Sublist.count_le '\n' (List.takeWhile_sublist _)) ?_
  rw [List.drop_zero]
  rcases List.eq_nil_or_concat s with rfl | ⟨w, c, rfl⟩
  · exact Nat.zero_le 1
  · rw [List.concat_eq_append, List.dropLast_concat] at h
    rw [List.concat_eq_append, List.count_append, List.count_eq_zero_of_not_mem h, Nat.zero_add]
    exact List.count_le_length

theorem one_le_count_newline (s : List Char) : 1 ≤ (s ++ endofHdr).count '\n' :=
  List.count_pos_iff.2 (List.mem_append_right s (by decide))

theorem nul_notMem_hostHdrOf (u : Uri) (f : UriField) : nul ∉ hostHdrOf (u.str f) := by
  intro h
  rcases List.mem_append.1 h with h | h
  · rcases List.mem_append.1 h with h | h
    · exact absurd h (by decide)
    · exact nul_notMem_cstr _ _ h
  · exact absurd h (by decide)

section Forwarding

variable {u : Uri} {ls : List HeaderLine} {rp : Rio Char} {rest : List Char}

/-- If all lines are replaced, the `Host` line that is sent is the one that should be, up to its
first NUL. -/
theorem hostLine_of_replaced (h : rp.elems = block ls ++ rest) (hls : ∀ l ∈ ls, l.isReplaced = true)
    (hnul : nul ∉ hostLineOf u ls) : hostLine u rp = hostLineOf u ls := by
  have hfilter : (ls.map HeaderLine.chars).filter isHost =
      (ls.filter (·.isNamed hostName)).map HeaderLine.chars := by
    rw [List.filter_map]
    congr 1
    refine List.filter_congr fun l hl => Bool.eq_iff_iff.2 ⟨fun hhost => ?_, isHost_of_isNamed⟩
    exact isNamed_of_isHost hhost (hls l hl)
  unfold hostLineOf at hnul ⊢
  rw [hostLine, clientHost, (headers_of_block h).1, hfilter, List.getLast?_map, Option.map_map]
  cases hlast : (ls.filter (·.isNamed hostName)).getLast? with
  | none => rfl
  | some l =>
      rw [hlast] at hnul
      exact cstr_eq_drop (i := 0) hnul

/-- The text that is sent has no more line feeds in its `Host` line than it should. -/
theorem count_hostLine_le (h : rp.elems = block ls ++ rest) :
    (hostLine u rp).count '\n' ≤ (hostLineOf u ls).count '\n' := by
  cases hclient : clientHost rp with
  | none =>
      -- then the client has sent no `Host` line
      have hfilter : ls.filter (·.isNamed hostName) = [] := by
        rw [List.filter_eq_nil_iff]
        intro l hl hnamed
        have hno := clientHost_eq_none_iff.1 hclient l.chars
          ((headers_of_block h).1 ▸ List.mem_map_of_mem hl)
        rw [isHost_of_isNamed hnamed] at hno
        cases hno
      rw [hostLine, hclient, hostLineOf, hfilter]
      exact Nat.le_refl _
  | some s =>
      obtain ⟨l, hl, -, rfl⟩ := clientHost_some hclient
      have hone : 1 ≤ (hostLineOf u ls).count '\n' := by
        rw [hostLineOf]
        cases (ls.filter (·.isNamed hostName)).getLast? with
        | none => exact one_le_count_newline _
        | some l => exact one_le_count_newline _
      rw [hostLine, hclient]
      exact Nat.le_trans
        (count_newline_cstr_le (newline_notMem_dropLast (mem_pieces_of_mem_headers hl))) hone

/-- A line that is not replaced brings a line feed. -/
theorem isReplaced_of_otherLines (h : (otherLines ls).count '\n' = 0) {l : HeaderLine}
    (hl : l ∈ ls) : l.isReplaced = true := by
  by_contra hno
  refine List.count_eq_zero.1 h (List.mem_flatten.2 ⟨l.chars, List.mem_map_of_mem ?_, ?_⟩)
  · exact List.mem_filter.2 ⟨hl, by simpa using hno⟩
  · exact List.mem_append_right _ (by decide)

theorem otherLines_of_replaced (hls : ∀ l ∈ ls, l.isReplaced = true) : otherLines ls = [] := by
  rw [otherLines, List.filter_eq_nil_iff.2 fun l hl => by simp [hls l hl]]
  rfl

/-- **For which header blocks the lines of the client are forwarded**: those with nothing to
forward, where the last `Host` line has no NUL and the text fits its array. -/
theorem forwards_iff (u : Uri) (ls : List HeaderLine) {rp : Rio Char} {rest : List Char}
    (h : rp.elems = block ls ++ rest) :
    (∃ rp', buildHeader u rp = .ok (forwarded u ls, rp')) ↔
      (∀ l ∈ ls, l.isReplaced = true) ∧ nul ∉ hostLineOf u ls ∧
        (u.str .path).length + (hostLineOf u ls).length + 147 < maxline := by
  constructor
  · rintro ⟨rp', hbuild⟩
    by_cases hpath : (u.str .path).length + 15 < maxline
    case neg =>
      rw [buildHeader_of_long u rp hpath] at hbuild
      cases hbuild
    rcases buildHeader_spec u rp hpath with ⟨-, hexit⟩ | ⟨-, ⟨-, hover⟩ | ⟨hfit, rp'', hok⟩⟩
    · rw [hbuild] at hexit
      cases hexit
    · rw [hbuild] at hover
      cases hover
    · rw [hbuild] at hok
      have htext : forwarded u ls = request (u.str .path) (hostLine u rp) [] :=
        congrArg Prod.fst (Except.ok.inj hok)
      -- nothing stands behind the fixed lines, as there would be too many line feeds
      have hcount := congrArg (List.count '\n') htext
      have hle := count_hostLine_le (u := u) h
      simp only [forwarded, request, List.count_append, List.count_nil] at hcount
      have hothers : (otherLines ls).count '\n' = 0 := by omega
      have hls : ∀ l ∈ ls, l.isReplaced = true := fun l hl => isReplaced_of_otherLines hothers hl
      have hhost : hostLineOf u ls = hostLine u rp := by
        rw [forwarded, otherLines_of_replaced hls] at htext
        simp only [request, List.append_assoc] at htext
        exact List.append_cancel_right (List.append_cancel_left htext)
      refine ⟨hls, ?_, by rw [hhost]; exact hfit⟩
      rw [hhost, hostLine]
      cases hclient : clientHost rp with
      | none => exact nul_notMem_hostHdrOf u .host
      | some s =>
          obtain ⟨l, -, -, rfl⟩ := clientHost_some hclient
          exact nul_notMem_cstr l 0
  · rintro ⟨hls, hnul, hfit⟩
    have hhost := hostLine_of_replaced h hls hnul
    rcases buildHeader_spec u rp (by omega) with ⟨hfails, -⟩ |
      ⟨-, ⟨hlong, -⟩ | ⟨-, rp', hbuild⟩⟩
    · exact absurd hfails (headers_of_block h).2
    · rw [hhost] at hlong
      omega
    · refine ⟨rp', ?_⟩
      rw [hbuild, hhost, forwarded, otherLines_of_replaced hls]

end Forwarding

/-- A header line of the client that is not replaced. -/
def acceptLine : HeaderLine where
  text := ['A', 'c', 'c', 'e', 'p', 't', ':', '*']
  ne_nil := List.cons_ne_nil _ _
  newline_notMem := by decide
  length_lt := by simp [maxline]

/-- A `Host` line of the client. -/
def clientLine : HeaderLine where
  text := ['h', 'o', 's', 't', ':', 'a']
  ne_nil := List.cons_ne_nil _ _
  newline_notMem := by decide
  length_lt := by simp [maxline]

/-- A source with a block in its buffer. -/
def bufferedBlock (ls : List HeaderLine) : Rio Char := ⟨block ls, []⟩

theorem clientHost_clientLine :
    clientHost (bufferedBlock [clientLine]) = some "host:a\r\n".toList := by
  decide +kernel

/-- A `Host` line is forwarded. -/
theorem forwards_iff_clientLine : ∃ rp', buildHeader (Uri.filled nul) (bufferedBlock [clientLine]) =
    .ok (forwarded (Uri.filled nul) [clientLine], rp') :=
  (forwards_iff (Uri.filled nul) [clientLine] rfl).2 ⟨List.forall_mem_singleton.2 (by decide),
    by decide, by decide⟩

/-- **A header that is lost.** -/
theorem header_lost : ¬ ∀ (t : Token) (d : Uri) (ls : List HeaderLine) (rp : Rio Char)
    (rest : List Char), rp.elems = block ls ++ rest →
      ∃ rp', buildHeader (parseUri t.chars d) rp =
        .ok (forwarded (parseUri t.chars d) ls, rp') := by
  intro h
  obtain ⟨rp', hbuild⟩ :=
    h pathToken (Uri.filled nul) [acceptLine] (bufferedBlock [acceptLine]) [] rfl
  have hne : ((buildHeader (parseUri pathToken.chars (Uri.filled nul))
      (bufferedBlock [acceptLine])).toOption.map fun r => r.1.length) ≠
      some (forwarded (parseUri pathToken.chars (Uri.filled nul)) [acceptLine]).length := by
    decide +kernel
  rw [hbuild] at hne
  exact hne rfl

end Proxy
