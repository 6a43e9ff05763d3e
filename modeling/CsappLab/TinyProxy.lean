/-
**The proxy in front of Tiny.**

The proxy rewrites every request, so that Tiny sees a request line for the path of the URI and a
header that ends: Tiny always comes to an end with it, and answers for the path.  What the proxy
forwards it keeps under a key that is made of the host, the port and the path, and these can be read
back from the key.  A run of requests therefore shows each client what the server would have
answered, from the server or from the cache, as long as no answer that is stored has a NUL byte
before its last byte.

Main definitions:

* `Tiny.wireTarget` — the URI that Tiny finds in the request for a path;
* `Tiny.Sites` — the files of the servers, by host and port;
* `Tiny.Visit`, `Tiny.IsRun` — a request to the proxy, and a run of them.

Main results:

* `Tiny.pieces_request` — the pieces in which Tiny reads a request of the proxy;
* `Tiny.buildHeader_served` — **Tiny always comes to an end with a request of the proxy**;
* `Tiny.rep_handleRequest` — what a request leaves is a cache for the next one;
* `Tiny.run_answers` — **in every run each client is sent what the server would answer**.
-/

import CsappLab.TinyServer

set_option relaxedAutoImplicit false
set_option autoImplicit false

namespace Tiny

open CText Chunked Proxy

/-! ### The request of the proxy -/

/-- The URI that Tiny scans from the request for a path: if the path is empty, the version stands in
its place. -/
def wireTarget (path : List Char) : List Char := if path = [] then "HTTP/1.0".toList else path

/-- A path as it stands in a token. -/
structure IsPath (path : List Char) : Prop where
  plain : ∀ c ∈ path, isSpace c = false ∧ c ≠ nul
  length_lt : path.length < 100

section Request

variable {path hostHdr : List Char}

theorem newline_isSpace : isSpace '\n' = true := by decide

/-- The request line is one piece. -/
theorem requestHdrOf_eq (hpath : IsPath path) : ∃ w x, requestHdrOf path = w ++ [x] ∧
    (∀ y ∈ w, newline y = false) ∧ newline x = true ∧ w.length ≤ maxline - 2 := by
  have hlabel : httpLabel = " HTTP/1.0\r".toList ++ ['\n'] := by decide
  refine ⟨getLabel ++ path ++ " HTTP/1.0\r".toList, '\n', ?_, newline_eq_false fun hmem => ?_, rfl,
    ?_⟩
  · rw [requestHdrOf, hlabel, List.append_assoc _ _ ['\n']]
  · rcases List.mem_append.1 hmem with hmem | hmem
    · rcases List.mem_append.1 hmem with hmem | hmem
      · exact absurd hmem (by decide)
      · have hplain := (hpath.plain _ hmem).1
        rw [newline_isSpace] at hplain
        cases hplain
    · exact absurd hmem (by decide)
  · have hget : getLabel.length = 4 := by decide
    have hhttp : " HTTP/1.0\r".toList.length = 10 := by decide
    have hlen := hpath.length_lt
    rw [List.length_append, List.length_append, hget, hhttp, maxline]
    omega

/-- **The pieces in which Tiny reads a request of the proxy**: the request line is one, and a blank
line follows. -/
theorem pieces_request (hpath : IsPath path) {rp : Rio Char}
    (helems : rp.elems = request path hostHdr []) :
    ∃ ls, pieces rp = requestHdrOf path :: ls ∧ endofHdr ∈ ls := by
  have hagent : userAgent = agentLine ++ ['\r'] ++ ['\n'] := by decide
  have htext : rp.elems = [requestHdrOf path].flatten ++
      ((hostHdr ++ connHdr ++ proxHdr ++ (agentLine ++ ['\r'])) ++ '\n' :: endofHdr) := by
    rw [helems, request, hagent]
    simp only [List.flatten_cons, List.flatten_nil, List.append_nil, List.append_assoc,
      List.cons_append, List.nil_append]
  have hblank : lines newline (maxline - 2) endofHdr = [endofHdr] := by
    have hline : lines newline (maxline - 2) ([endofHdr].flatten ++ []) =
        [endofHdr] ++ lines newline (maxline - 2) [] :=
      lines_append fun l hl =>
        ⟨['\r'], '\n', List.mem_singleton.1 hl, forall_mem_of_all rfl, rfl, by decide⟩
    rw [lines_nil, List.append_nil] at hline
    exact hline
  refine ⟨lines newline (maxline - 2) ((hostHdr ++ connHdr ++ proxHdr ++ (agentLine ++ ['\r'])) ++
    ['\n']) ++ [endofHdr], ?_, List.mem_append_right _ List.mem_cons_self⟩
  · rw [pieces, htext, lines_append fun l hl => List.mem_singleton.1 hl ▸ requestHdrOf_eq hpath,
      lines_concat rfl, hblank]
    rfl

/-- **What Tiny scans** from the request line of the proxy. -/
theorem scanRequest_requestHdrOf (hpath : IsPath path) (g : Garbage) :
    scanRequest (cstr (requestHdrOf path) 0) g = (getName, wireTarget path) := by
  have hnul : nul ∉ requestHdrOf path := by
    intro hmem
    rcases List.mem_append.1 hmem with hmem | hmem
    · rcases List.mem_append.1 hmem with hmem | hmem
      · exact absurd hmem (by decide)
      · exact (hpath.plain _ hmem).2 rfl
    · exact absurd hmem (by decide)
  have hlen := hpath.length_lt
  have hget : requestHdrOf path = [] ++ (getName ++ (' ' :: (path ++ httpLabel))) := by
    have hlabel : getLabel = getName ++ [' '] := by decide
    rw [requestHdrOf, hlabel]
    simp only [List.append_assoc, List.cons_append, List.nil_append]
  have hblank : ∀ c ∈ (' ' :: (path ++ httpLabel)).head?, isSpace c = true := by
    rintro c ⟨⟩
    decide
  have hfirst : scanS maxline (requestHdrOf path) = some (getName, ' ' :: (path ++ httpLabel)) := by
    rw [hget]
    exact scanS_word (forall_mem_of_all rfl) (by decide) (forall_mem_of_all rfl) (by decide) hblank
  rw [cstr_eq_drop (s := requestHdrOf path) (i := 0) hnul, List.drop_zero, scanRequest, hfirst]
  dsimp only
  by_cases hnil : path = []
  · have hsecond : scanS maxline (' ' :: (path ++ httpLabel)) =
        some ("HTTP/1.0".toList, endofHdr) := by
      rw [hnil]
      exact scanS_word (v := [' ', ' ']) (w := "HTTP/1.0".toList) (s := endofHdr)
        (forall_mem_of_all rfl) (by decide) (forall_mem_of_all rfl) (by decide) fun c hc => by
          cases hc
          rfl
    rw [hsecond, wireTarget, if_pos hnil]
  · have hsecond : scanS maxline (' ' :: (path ++ httpLabel)) = some (path, httpLabel) := by
      refine scanS_word (v := [' ']) (forall_mem_of_all rfl) hnil
        (fun c hc => (hpath.plain c hc).1) ?_ fun c hc => ?_
      · rw [maxline]
        omega
      · cases hc
        rfl
    rw [hsecond, wireTarget, if_neg hnil]

theorem length_filenameOf_le (uri : List Char) : (filenameOf uri).length ≤ uri.length + 10 := by
  have hhome : homeHtml.length = 9 := by decide
  rw [filenameOf]
  split
  · have hle := (List.takeWhile_sublist (· ≠ '?') (l := uri)).length_le
    rw [List.length_cons]
    omega
  · split
    · rw [List.length_append, List.length_cons, hhome]
    · rw [List.length_cons]
      omega

theorem length_errorTexts_le {cause errnum shortmsg longmsg s : List Char}
    (hs : s ∈ errorTexts cause errnum shortmsg longmsg) :
    s.length ≤ cause.length + errnum.length + shortmsg.length + longmsg.length + 50 := by
  have hhttp : "HTTP/1.0 ".toList.length = 9 := by decide
  have htype : (typeLine "text/html".toList).length = 27 := by decide
  have htitle : "<html><title>Tiny Error</title>".toList.length = 31 := by decide
  have hbody : "<body bgcolor=ffffff>\r\n".toList.length = 23 := by decide
  have hpar : "<p>".toList.length = 3 := by decide
  have hrule : "<hr><em>The Tiny Web server</em>\r\n".toList.length = 34 := by decide
  have hend : endofHdr.length = 2 := by decide
  simp only [errorTexts, List.mem_cons, List.not_mem_nil, or_false] at hs
  rcases hs with rfl | rfl | rfl | rfl | rfl | rfl | rfl <;>
    simp only [List.length_append, List.length_cons, hhttp, htype, htitle, hbody, hpar, hrule,
      hend] <;>
    omega

/-- The texts in front of a file. -/
theorem length_contentTexts_lt {filename s : List Char} {file : FileInfo}
    (hs : s ∈ (Answer.content filename file).texts) : s.length < maxline := by
  have hlength : lengthLabel.length = 16 := by decide
  have htype : typeLabel.length = 14 := by decide
  have hend : endofHdr.length = 2 := by decide
  have hdigits : (printD file.filesize).length ≤ 11 :=
    length_printD (Int.le_bmod (by decide)) (Int.bmod_lt (by decide))
  have hname := (filetype_plain filename).2
  simp only [Answer.texts, List.mem_cons, List.not_mem_nil, or_false] at hs
  rcases hs with rfl | rfl | rfl | rfl
  · decide
  · decide
  · rw [lengthLine, List.length_append, List.length_append, hlength, hend, maxline]
    omega
  · rw [typeLine, List.length_append, List.length_append, List.length_append, htype, hend, maxline]
    omega

/-- The texts of an answer fit their array when the name of the file is short. -/
theorem texts_answerUri (files : Files) {uri : List Char} (h : (filenameOf uri).length ≤ 200)
    {s : List Char} (hs : s ∈ (answerUri files uri).texts) : s.length < maxline := by
  have herror {errnum shortmsg longmsg : List Char} (hlen : errnum.length + shortmsg.length +
      longmsg.length ≤ 100) (hs : s ∈ errorTexts (filenameOf uri) errnum shortmsg longmsg) :
      s.length < maxline := by
    have hle := length_errorTexts_le hs
    rw [maxline]
    omega
  rw [answerUri] at hs
  cases hfile : files (filenameOf uri) with
  | none =>
      rw [hfile] at hs
      exact herror (by decide) hs
  | some file =>
      rw [hfile] at hs
      dsimp only at hs
      split at hs <;> split at hs
      · rcases List.mem_cons.1 hs with rfl | hs
        · decide
        · rw [List.mem_singleton.1 hs]
          decide
      · exact herror (by decide) hs
      · exact length_contentTexts_lt hs
      · exact herror (by decide) hs

theorem length_wireTarget_lt (hpath : IsPath path) : (wireTarget path).length < 100 := by
  rw [wireTarget]
  split
  · decide
  · exact hpath.length_lt

theorem nameable_wireTarget (hpath : IsPath path) : Nameable (wireTarget path) := by
  have hlen := length_wireTarget_lt hpath
  have hname := length_filenameOf_le (wireTarget path)
  refine ⟨by rw [maxline]; omega, fun _ => ?_⟩
  rw [wireTarget]
  split
  · decide
  · assumption

theorem isGet_requestHdrOf (hpath : IsPath path) (c : Connection) :
    c.IsGet (requestHdrOf path) := by
  have hself : strcasecmp getName getName = true := by decide
  rw [Connection.IsGet, Connection.words, scanRequest_requestHdrOf hpath c.garbage]
  exact hself

/-- With a request of the proxy nothing but an exit can go wrong. -/
theorem exitsOnly_request (hpath : IsPath path) (files : Files) (c : Connection)
    (helems : c.rio.elems = request path hostHdr []) {fuel : ℕ} {r : Except Fault Out}
    (h : doit fuel c.garbage files c.rio c.fd = some r) : ExitsOnly r := by
  obtain ⟨ls, hpieces, -⟩ := pieces_request hpath helems
  have hwords : c.words (requestHdrOf path) = (getName, wireTarget path) :=
    scanRequest_requestHdrOf hpath c.garbage
  refine exitsOnly_doit files c hpieces (isGet_requestHdrOf hpath c) ?_ (fun s hs => ?_) h
  · rw [hwords]
    exact nameable_wireTarget hpath
  · rw [hwords] at hs
    refine texts_answerUri files ?_ hs
    have hname := length_filenameOf_le (wireTarget path)
    have hlen := length_wireTarget_lt hpath
    dsimp only
    omega

/-- A request of the proxy: Tiny does not hang, and what it should send is the answer. -/
theorem reply_request (hpath : IsPath path) (files : Files) (c : Connection)
    (helems : c.rio.elems = request path hostHdr []) :
    ¬ c.Hangs ∧ c.reply files = (answerUri files (wireTarget path)).sent ∧
      (c.Answered files ↔ (answerUri files (wireTarget path)).Sendable c.fd) := by
  obtain ⟨ls, hpieces, hends⟩ := pieces_request hpath helems
  have hwords : c.words (requestHdrOf path) = (getName, wireTarget path) :=
    scanRequest_requestHdrOf hpath c.garbage
  have hself : strcasecmp getName getName = true := by decide
  have hget := isGet_requestHdrOf hpath c
  have hanswer : c.answer files (requestHdrOf path) = answerUri files (wireTarget path) := by
    rw [Connection.answer, hwords]
    exact if_pos hself
  have hline : ¬ ReadFails newline (maxline - 1) c.rio := fun h => by
    have hmem : endofHdr ∈ pieces c.rio := hpieces ▸ List.mem_cons_of_mem _ hends
    have hno := not_stop_of_not_closed h.2 (mem_elems_of_mem_piece (c := '\n') hmem (by decide))
    cases hno
  have hname := nameable_wireTarget hpath
  refine ⟨?_, ?_, fun h => ?_, fun h => ⟨hline, fun line ls' heq => ?_⟩⟩
  · rintro ⟨line, ls', heq, -, -, hno, -⟩
    rw [hpieces] at heq
    cases heq
    exact hno (.inl hends)
  · rw [Connection.reply, hpieces]
    exact congrArg Answer.sent hanswer
  · rw [← hanswer]
    exact (h.request _ _ hpieces).sendable
  · rw [hpieces] at heq
    cases heq
    refine ⟨fun _ => .inl hends, fun _ => ?_, by rwa [hanswer]⟩
    rw [hwords]
    exact hname

end Request

theorem isPath_pathOf (t : Token) (hpath : (pathOf t.chars).length < 100) :
    IsPath (pathOf t.chars) where
  plain c hc := by
    refine ⟨not_space_of_mem_pathOf t hc, ?_⟩
    rintro rfl
    refine t.nul_notMem ?_
    cases h : afterSlashes t.chars with
    | none =>
        rw [pathOf, h] at hc
        exact hc
    | some r =>
        rw [pathOf, h] at hc
        exact mem_of_afterSlashes h (mem_of_mem_pathPart hc)
  length_lt := hpath

/-- The text of `build_header`. -/
theorem text_of_buildHeader {t : Token} {d : Uri} {rp rp' : Rio Char} {text : List Char}
    (hhost : (hostOf t.chars).length < 100) (hpath : (pathOf t.chars).length < 100)
    (hbuild : buildHeader (Proxy.parseUri t.chars d) rp = .ok (text, rp')) :
    text = request (pathOf t.chars) (hostLine (Proxy.parseUri t.chars d) rp) [] := by
  have hstr := str_path_of_fits t hhost d
  have hspec := buildHeader_spec (Proxy.parseUri t.chars d) rp (by rw [hstr, maxline]; omega)
  rw [hstr, hbuild] at hspec
  rcases hspec with ⟨-, hexit⟩ | ⟨-, ⟨-, hover⟩ | ⟨-, rp'', hok⟩⟩
  · cases hexit
  · cases hover
  · exact (Prod.mk.inj (Except.ok.inj hok)).1

/-- What Tiny sends for a text of `build_header`. -/
theorem doit_request {t : Token} {d : Uri} {rp rp' : Rio Char} {text : List Char}
    (hhost : (hostOf t.chars).length < 100) (hpath : (pathOf t.chars).length < 100)
    (hbuild : buildHeader (Proxy.parseUri t.chars d) rp = .ok (text, rp')) (files : Files)
    (g : Garbage) {rio : Rio Char} (helems : rio.elems = text) (fd : Sink) :
    ((answerUri files (wireTarget (pathOf t.chars))).Sendable fd ∧
        Settles (fun fuel => doit fuel g files rio fd) rio.elems.length fun r =>
          ∃ fd', r = .ok ⟨fd', (answerUri files (wireTarget (pathOf t.chars))).sent⟩) ∨
      ¬ (answerUri files (wireTarget (pathOf t.chars))).Sendable fd ∧
        Settles (fun fuel => doit fuel g files rio fd) rio.elems.length fun r =>
          ∃ msg, r = .error (.exited msg) := by
  have htext := helems.trans (text_of_buildHeader hhost hpath hbuild)
  have hpath' := isPath_pathOf t hpath
  obtain ⟨hno, hreply, hiff⟩ := reply_request hpath' files ⟨g, rio, fd, true⟩ htext
  rw [← hreply, ← hiff]
  rcases doit_spec files ⟨g, rio, fd, true⟩ with hyes | ⟨hnot, -, hrun⟩ | ⟨-, hhangs, -⟩
  · exact .inl hyes
  · refine .inr ⟨hnot, fun fuel => (hrun fuel).imp_right ?_⟩
    rintro ⟨r, hr, hfails⟩
    have hexits := exitsOnly_request hpath' files ⟨g, rio, fd, true⟩ htext hr
    exact ⟨r, hr, hexits.of_not_returns hfails⟩
  · exact absurd hhangs hno

/-- **Tiny always comes to an end with a request of the proxy**: it sends the answer for the path
if this can be sent, and exits otherwise. -/
theorem buildHeader_served (t : Token) (d : Uri) (rp rp' : Rio Char) (text : List Char)
    (hhost : (hostOf t.chars).length < 100) (hpath : (pathOf t.chars).length < 100)
    (hbuild : buildHeader (Proxy.parseUri t.chars d) rp = .ok (text, rp')) (files : Files)
    (g : Garbage) (rio : Rio Char) (helems : rio.elems = text) (fd : Sink) :
    ((answerUri files (wireTarget (pathOf t.chars))).Sendable fd → ∃ fuel fd',
        doit fuel g files rio fd =
          some (.ok ⟨fd', (answerUri files (wireTarget (pathOf t.chars))).sent⟩)) ∧
      (¬ (answerUri files (wireTarget (pathOf t.chars))).Sendable fd →
        ∃ fuel msg, doit fuel g files rio fd = some (.error (.exited msg))) := by
  rcases doit_request hhost hpath hbuild files g helems fd with ⟨hyes, hrun⟩ | ⟨hno, hrun⟩
  · obtain ⟨r, hsome, fd', rfl⟩ := hrun.exists
    exact ⟨fun _ => ⟨_, fd', hsome⟩, fun h => absurd hyes h⟩
  · obtain ⟨r, hsome, msg, rfl⟩ := hrun.exists
    exact ⟨fun h => absurd h hno, fun _ => ⟨_, msg, hsome⟩⟩

/-- The request for the root of a host. -/
def rootToken : Token where
  chars := ['/', '/', 'a', '/']
  ne_nil := List.cons_ne_nil _ _
  plain := by
    simp only [List.mem_cons, List.not_mem_nil, or_false]
    rintro c (rfl | rfl | rfl | rfl) <;> decide
  length_lt := by simp [maxline]

/-- The directory with the page. -/
def homeFiles : Files := fun filename =>
  if filename = "./home.html".toList then some homePage else none

/-- Arrays that hold nothing. -/
def Garbage.empty : Garbage :=
  let nothing : CString := ⟨[], List.not_mem_nil, by decide⟩
  ⟨nothing, nothing, nothing⟩

theorem answer_home : answerUri homeFiles (wireTarget (pathOf rootToken.chars)) =
    .content "./home.html".toList homePage := rfl

theorem sendable_home :
    (answerUri homeFiles (wireTarget (pathOf rootToken.chars))).Sendable ⟨0, []⟩ := by
  rw [answer_home]
  refine ⟨by decide, (fun b hb => by cases hb), fun filename file h => ?_⟩
  cases h
  exact ⟨rfl, by decide⟩

/-- A socket on which the first write fails. -/
def brokenSink : Sink := ⟨0, [.error]⟩

theorem not_sendable_home :
    ¬ (answerUri homeFiles (wireTarget (pathOf rootToken.chars))).Sendable brokenSink := by
  rw [answer_home]
  intro h
  have hzero : brokenSink.limit = some 0 := rfl
  have htaken := h.2.1 0 hzero
  exact absurd htaken (by decide)

/-- The page is sent, and a socket that fails ends Tiny. -/
theorem buildHeader_served_root : ∃ text, (∃ rp', buildHeader
      (Proxy.parseUri rootToken.chars (Uri.filled nul)) ⟨[], []⟩ = .ok (text, rp')) ∧
    (∃ fuel fd', doit fuel Garbage.empty homeFiles ⟨text, []⟩ ⟨0, []⟩ = some (.ok ⟨fd',
      (answerUri homeFiles (wireTarget (pathOf rootToken.chars))).sent⟩)) ∧
    ∃ fuel msg, doit fuel Garbage.empty homeFiles ⟨text, []⟩ brokenSink =
      some (.error (.exited msg)) := by
  have hbool : (buildHeader (Proxy.parseUri rootToken.chars (Uri.filled nul)) ⟨[], []⟩).toBool =
      true := by decide +kernel
  cases hbuild : buildHeader (Proxy.parseUri rootToken.chars (Uri.filled nul)) ⟨[], []⟩ with
  | error e =>
      rw [hbuild] at hbool
      cases hbool
  | ok r =>
      obtain ⟨text, rp'⟩ := r
      have hserved := buildHeader_served rootToken (Uri.filled nul) ⟨[], []⟩ rp' text (by decide)
        (by decide) hbuild homeFiles Garbage.empty ⟨text, []⟩ (List.append_nil _)
      exact ⟨text, ⟨rp', rfl⟩, (hserved ⟨0, []⟩).1 sendable_home,
        (hserved brokenSink).2 not_sendable_home⟩

/-! ### Keys -/

/-- The files of the servers, by host and port. -/
abbrev Sites := List Char → List Char → Files

/-- The port that is stored for a token with `//`. -/
def portOf (t : List Char) : List Char :=
  ((afterSlashes t).bind portPart).getD ['8', '0']

/-- What the server at a host and port sends for a path. -/
def siteAnswer (sites : Sites) (host port path : List Char) : List UInt8 :=
  (answerUri (sites host port) (wireTarget path)).sent

/-- The same for a URI. -/
def uriAnswer (sites : Sites) (uri : List Char) : List UInt8 :=
  siteAnswer sites (hostOf uri) (portOf uri) (pathOf uri)

/-- The same for a key: the first `:` ends the host, and the first `/` behind it the port. -/
def keyAnswer (sites : Sites) (key : List Char) : List UInt8 :=
  let rest := (key.dropWhile (· ≠ ':')).tail
  siteAnswer sites (key.takeWhile (· ≠ ':')) (rest.takeWhile (· ≠ '/')) (rest.dropWhile (· ≠ '/'))

theorem slash_notMem_port (r : List Char) : '/' ∉ (portPart r).getD ['8', '0'] := by
  cases hport : portPart r with
  | none => decide
  | some w =>
      obtain ⟨⟨a, q⟩, hcut, hmap⟩ := Option.bind_eq_some_iff.1 hport
      obtain ⟨⟨w', q'⟩, hscan, rfl⟩ := Option.map_eq_some_iff.1 hmap
      intro hmem
      have hauth : '/' ∈ authority r := by
        rw [(cut_some hcut).1]
        exact List.mem_append_right _ (List.mem_cons_of_mem _ ((scanS_some hscan).2.2 _ hmem).2)
      have hne := List.mem_takeWhile_imp hauth
      simp at hne

theorem length_port_le (r : List Char) : ((portPart r).getD ['8', '0']).length ≤ 5 := by
  cases hport : portPart r with
  | none => decide
  | some w => exact (portPart_some hport).2.1

/-- The parts of a string that are told apart by the characters between them. -/
theorem takeWhile_parts {c : Char} {w r : List Char} (hw : c ∉ w) (hr : r = [] ∨ r.head? = some c) :
    (w ++ r).takeWhile (· ≠ c) = w ∧ (w ++ r).dropWhile (· ≠ c) = r := by
  rw [List.takeWhile_append_of_pos (decide_ne_of_notMem hw),
    List.dropWhile_append_of_pos (decide_ne_of_notMem hw)]
  rcases hr with rfl | hr
  · simp
  · obtain ⟨q, rfl⟩ := List.head?_eq_some_iff.1 hr
    simp

theorem head_pathPart (r : List Char) : pathPart r = [] ∨ (pathPart r).head? = some '/' := by
  rw [pathPart]
  cases hdrop : r.dropWhile (· ≠ '/') with
  | nil => exact .inl rfl
  | cons x xs =>
      have hx := List.head?_dropWhile_not (· ≠ '/') r
      rw [hdrop] at hx
      exact .inr (by simpa using hx)

/-- **The key of a URI tells what it should be answered.** -/
theorem keyAnswer_cacheKey (sites : Sites) (t : Token) (hslashes : ['/', '/'] <:+: t.chars)
    (hhost : (hostOf t.chars).length < 100) (hpath : (pathOf t.chars).length < 100) (d : Uri) :
    keyAnswer sites (cacheKey (Proxy.parseUri t.chars d)) = uriAnswer sites t.chars := by
  obtain ⟨r, hr⟩ := Option.ne_none_iff_exists'.1 fun h =>
    (afterSlashes_eq_none_iff t.chars).1 h hslashes
  obtain ⟨hstr, hport, -⟩ := str_of_absolute t.nul_notMem hr d
  have hhost' : hostOf t.chars = hostPart r := by rw [hostOf, hr]
  have hpath' : pathOf t.chars = pathPart r := by rw [pathOf, hr]
  rw [hhost'] at hhost
  rw [if_pos hhost] at hport
  have hkey : cacheKey (Proxy.parseUri t.chars d) =
      hostPart r ++ ':' :: ((portPart r).getD ['8', '0'] ++ pathPart r) := by
    have hlen := length_port_le r
    have hstr' := str_path_of_fits t (hhost' ▸ hhost) d
    rw [hpath'] at hstr' hpath
    rw [cacheKey, hstr, hport, hstr', List.append_assoc, List.cons_append, List.take_of_length_le]
    simp only [List.length_append, List.length_cons, maxline]
    omega
  obtain ⟨hfirst, hrest⟩ := takeWhile_parts (c := ':') (w := hostPart r)
    (r := ':' :: ((portPart r).getD ['8', '0'] ++ pathPart r))
    (fun hmem => by simpa using List.mem_takeWhile_imp hmem) (.inr rfl)
  obtain ⟨hsecond, hthird⟩ := takeWhile_parts (c := '/') (w := (portPart r).getD ['8', '0'])
    (r := pathPart r) (slash_notMem_port r) (head_pathPart r)
  simp only [keyAnswer, hkey, hfirst, hrest, List.tail_cons, hsecond, hthird]
  rw [uriAnswer, portOf, hr, hhost', hpath']
  rfl

/-! ### Runs of requests -/

/-- A request to the proxy: what it finds in the process, what its sockets do, and what becomes of
it. -/
structure Visit where
  m : Resources
  io : Io
  reply : Reply

/-- The request asks for a URI; behind it stands the header, and a chunk of memory is there for the
parts of the URI. -/
def Visit.Asks (v : Visit) (uri : List Char) (rio : Rio Char) (d : Uri) : Prop :=
  ∃ buf, rioReadlineb newline v.io.fromClient maxline = some (buf, rio) ∧
    requestUri (cstr buf 0) = some uri ∧ v.m.uriBlock = some d

/-- What comes from the server is what Tiny sends when it is sent a text. -/
def FromTiny (files : Files) (text : List Char) (fromServer : Rio UInt8) : Prop :=
  ∃ fuel g rio fd out, rio.elems = text ∧ doit fuel g files rio fd = some (.ok out) ∧
    fromServer.elems = out.sent

/-- The request returns; a URI that it asks for has `//`; and if this is not in the cache, Tiny is
sent the text of `build_header`. -/
structure Visit.Genuine (sites : Sites) (v : Visit) : Prop where
  returns : handleRequest v.m v.io = .ok v.reply
  absolute : ∀ uri rio d, v.Asks uri rio d → ['/', '/'] <:+: uri
  server : ∀ uri rio d text rio' c, v.Asks uri rio d →
    findCacheItem v.m.cache (cacheKey (Proxy.parseUri uri d.fresh)) = some (c, none) →
      buildHeader (Proxy.parseUri uri d.fresh) rio = .ok (text, rio') →
        FromTiny (sites (hostOf uri) (portOf uri)) text v.io.fromServer

/-- A run: each request finds the cache as the one before left it. -/
def IsRun (sites : Sites) : Cache → List Visit → Prop
  | _, [] => True
  | c, v :: vs => v.m.cache = c ∧ v.Genuine sites ∧ IsRun sites v.reply.cache vs

/-- A response can be replayed: it is not stored, or has no NUL byte before its last byte. -/
def Replayable (r : List UInt8) : Prop := maxObjectSize < r.length ∨ 0 ∉ r.dropLast

/-! ### What is in the cache -/

/-- An item holds the answer for its key. -/
structure ItemOk (sites : Sites) (e : Entry) : Prop where
  size : ∀ key, e.url = some key → e.size = (keyAnswer sites key).length
  reply : ∀ key, e.url = some key → ∀ heap r, e.reply heap = some r → r = keyAnswer sites key

/-- All items do. -/
def Kept (sites : Sites) (c : Cache) : Prop := ∀ p ∈ c.listing, ItemOk sites (c.entry p)

section Kept

variable {sites : Sites} {c c' : Cache} {l : List Ptr}

theorem kept_initCache (sites : Sites) : Kept sites initCache := fun p hp => by
  rw [rep_initCache.listing_eq] at hp
  cases hp

/-- The items of a cache that holds fewer of them. -/
theorem Kept.of_shape (h : Kept sites c) (hl : Shape c l) {l' : List Ptr} (hl' : Shape c' l')
    (hsub : l' ⊆ l) (hentry : ∀ p ∈ l', c'.entry p = c.entry p) : Kept sites c' := by
  intro p hp
  rw [hl'.listing_eq] at hp
  rw [hentry p hp]
  exact h p (hl.listing_eq ▸ hsub hp)

/-- A lookup: the item that is found is in the cache under its key. -/
theorem Kept.findCacheItem (h : Kept sites c) (hl : Rep c l) {key : List Char} {found : Option Ptr}
    (hfind : findCacheItem c key = some (c', found)) :
    Kept sites c' ∧ (∃ l', Rep c' l') ∧ ∀ item, found = some item →
      ItemOk sites (c'.entry item) ∧ (c'.entry item).url = some key := by
  rcases hl.findCacheItem key with ⟨l₁, p, l₂, c₁, rfl, hp, -, hrun, hrep, hs⟩ |
    ⟨-, c₁, hrun, hrep, hs⟩
  · rw [hfind] at hrun
    obtain ⟨rfl, rfl⟩ := Prod.mk.inj (Option.some.inj hrun)
    have hkept : Kept sites c' :=
      h.of_shape hl.shape hrep.shape List.perm_middle.symm.subset fun q _ => congrFun hs.entry q
    refine ⟨hkept, ⟨_, hrep⟩, fun item hitem => ?_⟩
    cases hitem
    refine ⟨hkept _ ?_, ?_⟩
    · rw [hrep.listing_eq]
      exact List.mem_cons_self
    · rw [congrFun hs.entry p]
      exact hp
  · rw [hfind] at hrun
    obtain ⟨rfl, rfl⟩ := Prod.mk.inj (Option.some.inj hrun)
    refine ⟨h.of_shape hl.shape hrep.shape (List.Subset.refl l) fun q _ => congrFun hs.entry q,
      ⟨_, hrep⟩, fun item hitem => ?_⟩
    cases hitem

/-- A response that is stored under its key. -/
theorem Kept.addCacheItem (h : Kept sites c) (hl : Rep c l) {alloc : Alloc} {key : List Char}
    {garbage beyond : List UInt8} {chunks : List (List UInt8)}
    (hanswer : chunks.flatten = keyAnswer sites key)
    (hnul : Replayable chunks.flatten)
    (hadd : addCacheItem alloc c key (responseBuffer garbage chunks ++ beyond)
      chunks.flatten.length = some c') : Kept sites c' := by
  by_cases hlarge : maxObjectSize < chunks.flatten.length
  · rw [addCacheItem_large hlarge] at hadd
    cases hadd
    exact h.of_shape hl.shape (hl.shape.record .wrlock) (List.Subset.refl l) fun _ _ => rfl
  have hsize := Nat.le_of_not_lt hlarge
  cases hitem : alloc.item with
  | false =>
      obtain ⟨c₁, l', hrun, hpre, hshape, hentry⟩ := hl.shape.addCacheItem_noItem hitem key
        (responseBuffer garbage chunks ++ beyond) hsize
      rw [hadd] at hrun
      cases hrun
      exact h.of_shape hl.shape hshape hpre.subset hentry
  | true =>
      obtain ⟨copy, hcopy⟩ := addCacheItem_strdup hitem hsize hadd
      obtain ⟨c₁, l', hrun, hpre, hshape, -, -, hself, hentry, -⟩ :=
        hl.shape.addCacheItem hitem key hsize hcopy
      rw [hadd] at hrun
      cases hrun
      intro p hp
      rw [hshape.listing_eq] at hp
      rcases List.mem_cons.1 hp with rfl | hp
      case inr =>
        rw [hentry p hp]
        exact h p (hl.listing_eq ▸ hpre.subset hp)
      -- the new item
      rw [hself]
      have hkey (key' : List Char) (heq : (if alloc.url then some key else none) = some key') :
          key' = key := by
        cases hurl : alloc.url with
        | false =>
            rw [hurl] at heq
            cases heq
        | true =>
            rw [hurl] at heq
            exact (Option.some.inj heq).symm
      refine ⟨fun key' heq => ?_, fun key' heq heap r hreply => ?_⟩
      · rw [hkey key' heq, ← hanswer]
      · rw [hkey key' heq, ← hanswer]
        cases hcontent : alloc.content with
        | false =>
            rw [hcontent] at hreply
            cases hreply
        | true =>
            rw [hcontent, if_pos rfl] at hreply
            have hexact := (reply_exact_iff (if alloc.url then some key else none) hcopy
              (take_responseBuffer garbage beyond chunks)).2 (hnul.resolve_left hlarge) heap
            rw [hexact] at hreply
            exact (Option.some.inj hreply).symm

end Kept

/-! ### One request -/

theorem of_bind_ok {α β : Type} {x : Except Fault α} {f : α → Except Fault β} {b : β}
    (h : (x >>= f) = .ok b) : ∃ a, x = .ok a ∧ f a = .ok b := by
  cases x with
  | error e => cases h
  | ok a => exact ⟨a, rfl, h⟩

/-- A request that returns was refused, or is for a URI. -/
theorem handleRequest_ok {m : Resources} {io : Io} {r : Reply} (h : handleRequest m io = .ok r) :
    (r.cache = m.cache ∧ ∀ buf rio, rioReadlineb newline io.fromClient maxline = some (buf, rio) →
        requestUri (cstr buf 0) = none ∨ m.uriBlock = none) ∨
      ∃ buf rio, ∃ t : Token, ∃ d, rioReadlineb newline io.fromClient maxline = some (buf, rio) ∧
        requestUri (cstr buf 0) = some t.chars ∧ m.uriBlock = some d ∧
        Proxy.serveUri m io rio t.chars d = .ok r := by
  rw [handleRequest, rioReadlinebOrExit] at h
  rcases rioReadlineb_spec newline io.fromClient maxline with ⟨-, hread⟩ | ⟨-, rio, hread, -⟩
  · rw [hread] at h
    cases h
  have hlength := length_line_le newline (maxline - 1) io.fromClient.elems
  generalize line newline (maxline - 1) io.fromClient.elems = buf at hread hlength
  rw [hread] at h
  have hrefused {message : String} (hno : requestUri (cstr buf 0) = none ∨ m.uriBlock = none)
      (hr : refuse m message = .ok r) : r.cache = m.cache ∧ ∀ buf rio,
        rioReadlineb newline io.fromClient maxline = some (buf, rio) →
          requestUri (cstr buf 0) = none ∨ m.uriBlock = none := by
    cases hr
    refine ⟨rfl, fun buf' rio' hread' => ?_⟩
    rw [hread] at hread'
    cases hread'
    exact hno
  cases buf with
  | nil => exact .inl (hrefused (.inl (by decide)) h)
  | cons c cs =>
      dsimp only at h
      cases hscan : scanRequestLine (cstr (c :: cs) 0) with
      | none =>
          rw [hscan] at h
          exact .inl (hrefused (.inl (by rw [requestUri, hscan]; rfl)) h)
      | some words =>
          obtain ⟨method, uri, version⟩ := words
          rw [hscan] at h
          dsimp only at h
          by_cases hmethod : strcasecmp method getName = true
          case neg =>
            rw [if_neg hmethod] at h
            refine .inl (hrefused (.inl ?_) h)
            rw [requestUri, hscan, Option.bind_some, if_neg hmethod]
          rw [if_pos hmethod] at h
          cases hblock : m.uriBlock with
          | none =>
              rw [hblock] at h
              exact .inl (hblock ▸ hrefused (.inr hblock) h)
          | some d =>
              rw [hblock] at h
              have hcstr : (cstr (c :: cs) 0).length ≤ (c :: cs).length :=
                (List.takeWhile_sublist _).length_le
              obtain ⟨t, rfl⟩ := token_of_scanRequestLine
                (Nat.lt_of_le_of_lt (Nat.le_trans hcstr hlength) (by simp [maxline]))
                (nul_notMem_cstr _ _) hscan
              refine .inr ⟨_, rio, t, d, hread, ?_, rfl, h⟩
              rw [requestUri, hscan, Option.bind_some, if_pos hmethod]

/-- An addition leaves a cache of items with keys, if there is memory for the copy of the key. -/
theorem rep_addCacheItem {alloc : Alloc} (hurl : alloc.url = true) {c c' : Cache} {l : List Ptr}
    (hl : Rep c l) {key : List Char} {content : List UInt8} {size : ℕ}
    (hadd : addCacheItem alloc c key content size = some c') : ∃ l', Rep c' l' := by
  by_cases hlarge : maxObjectSize < size
  · rw [addCacheItem_large hlarge] at hadd
    cases hadd
    exact ⟨l, (hl.shape.record .wrlock).rep fun p hp => (hl.stored p hp).1⟩
  have hsize := Nat.le_of_not_lt hlarge
  -- the items that are left keep their keys
  have hkeys {c₁ : Cache} {l' : List Ptr} (hpre : l' <+: l)
      (hentry : ∀ q ∈ l', c₁.entry q = c.entry q) : ∀ q ∈ l', (c₁.url q).isSome := by
    intro q hq
    rw [url_of_entry (hentry q hq)]
    exact (hl.stored q (hpre.subset hq)).1
  cases hitem : alloc.item with
  | false =>
      obtain ⟨c₁, l', hrun, hpre, hshape, hentry⟩ :=
        hl.shape.addCacheItem_noItem hitem key content hsize
      rw [hadd] at hrun
      cases hrun
      exact ⟨l', hshape.rep (hkeys hpre hentry)⟩
  | true =>
      obtain ⟨copy, hcopy⟩ := addCacheItem_strdup hitem hsize hadd
      obtain ⟨c₁, l', hrun, hpre, hshape, -, -, hself, hentry, -⟩ :=
        hl.shape.addCacheItem hitem key hsize hcopy
      rw [hadd] at hrun
      cases hrun
      refine ⟨_, hshape.rep (List.forall_mem_cons.2 ⟨?_, hkeys hpre hentry⟩)⟩
      rw [if_pos hurl] at hself
      exact Option.isSome_iff_exists.2 ⟨key, congrArg Entry.url hself⟩

/-- A hit leaves the cache as the lookup did. -/
theorem cache_of_serveHit {m : Resources} {io : Io} {c : Cache} {item : Ptr} {r : Reply}
    (h : serveHit m io c item = .ok r) : r.cache = c := by
  have hlast {sent : List UInt8} (h : (do
      closeOrExit io.clientCloses
      return ({ cache := c, sent := sent, message := none } : Reply)) = .ok r) : r.cache = c := by
    obtain ⟨-, -, h⟩ := of_bind_ok h
    cases h
    rfl
  rw [serveHit] at h
  split at h
  · exact hlast h
  · split at h
    · cases h
    · obtain ⟨sent, -, h⟩ := of_bind_ok h
      exact hlast h

/-- **What a request leaves is a cache** for the next one, if there is memory for the copy of the
key. -/
theorem rep_handleRequest {m : Resources} {io : Io} {r : Reply} (hurl : m.alloc.url = true)
    (h : handleRequest m io = .ok r) : ∃ l, Rep r.cache l := by
  rcases handleRequest_ok h with ⟨hcache, -⟩ | ⟨buf, rio, t, d, -, -, -, hserve⟩
  · rw [hcache]
    exact ⟨m.items, m.rep⟩
  rw [Proxy.serveUri] at hserve
  split at hserve
  case isFalse => cases hserve
  split at hserve
  case isFalse => cases hserve
  obtain ⟨c, hfind, hc, -⟩ := m.rep.findCacheItem_eq (cacheKey (Proxy.parseUri t.chars d.fresh))
  rw [hfind] at hserve
  cases hitem : m.items.find? (m.cache.hasKey (cacheKey (Proxy.parseUri t.chars d.fresh))) with
  | some item =>
      rw [hitem] at hserve
      rw [cache_of_serveHit hserve]
      exact ⟨_, hc⟩
  | none =>
      rw [hitem] at hserve
      dsimp only at hserve
      rw [serveMiss] at hserve
      obtain ⟨server, -, hserve⟩ := of_bind_ok hserve
      obtain ⟨fd, -, hserve⟩ := of_bind_ok hserve
      split at hserve
      · cases hserve
        exact ⟨_, hc⟩
      obtain ⟨-, -, hserve⟩ := of_bind_ok hserve
      obtain ⟨⟨connfd, sent, response⟩, -, hserve⟩ := of_bind_ok hserve
      obtain ⟨c', hstore, hserve⟩ := of_bind_ok hserve
      obtain ⟨-, -, hserve⟩ := of_bind_ok hserve
      obtain ⟨-, -, hserve⟩ := of_bind_ok hserve
      cases hserve
      cases response with
      | none =>
          cases hstore
          exact ⟨_, hc⟩
      | some f =>
          rw [storeResponse] at hstore
          split at hstore
          · split at hstore
            · cases hstore
            · rename_i hadd
              cases hstore
              exact rep_addCacheItem hurl hc hadd
          · cases hstore

/-- A hit. -/
theorem serveHit_ok {sites : Sites} {m : Resources} {io : Io} {c : Cache} {item : Ptr} {r : Reply}
    {key : List Char} (hok : ItemOk sites (c.entry item)) (hkey : (c.entry item).url = some key)
    (h : serveHit m io c item = .ok r) : r.cache = c ∧ r.sent = keyAnswer sites key := by
  rw [serveHit] at h
  by_cases hzero : c.size item = 0
  · rw [if_pos hzero, pure_bind] at h
    obtain ⟨-, -, h⟩ := of_bind_ok h
    cases h
    have hsize := hok.size key hkey
    exact ⟨rfl, (List.eq_nil_of_length_eq_zero (hsize.symm.trans hzero)).symm⟩
  rw [if_neg hzero] at h
  cases hwrite : writeItem c item m.heap with
  | none =>
      rw [hwrite] at h
      cases h
  | some bytes =>
      rw [hwrite] at h
      obtain ⟨sent, hsent, h⟩ := of_bind_ok h
      obtain ⟨-, -, h⟩ := of_bind_ok h
      cases h
      rw [← hok.reply key hkey m.heap bytes hwrite]
      rcases rioWritenOrExit_spec io.toClient (c.size item) with ⟨-, hfail⟩ | ⟨-, fd, hfd, -⟩
      · rw [hfail] at hsent
        cases hsent
      · rw [hfd] at hsent
        cases hsent
        exact ⟨rfl, rfl⟩

/-- A miss. -/
theorem serveMiss_ok {sites : Sites} {m : Resources} {io : Io} {c : Cache} {l : List Ptr} {u : Uri}
    {rio : Rio Char} {r : Reply} (hkept : Kept sites c) (hl : Rep c l)
    (hserver : ∀ text rio', buildHeader u rio = .ok (text, rio') →
      io.fromServer.elems = keyAnswer sites (cacheKey u))
    (hnul : Replayable (keyAnswer sites (cacheKey u)))
    (h : serveMiss m io c u rio = .ok r) :
    Kept sites r.cache ∧ r.sent = keyAnswer sites (cacheKey u) := by
  rw [serveMiss] at h
  obtain ⟨⟨text, rio'⟩, hbuild, h⟩ := of_bind_ok h
  replace hserver := hserver text rio' hbuild
  obtain ⟨serverfd, hopen, h⟩ := of_bind_ok h
  have hfd : ¬ serverfd < 0 := by
    rcases openClientfdOrExit_spec io.lookup with ⟨-, hfail⟩ | ⟨-, fd, hyes, hfd⟩
    · rw [hfail] at hopen
      cases hopen
    · rw [hyes] at hopen
      cases hopen
      exact hfd
  rw [if_neg hfd] at h
  obtain ⟨-, -, h⟩ := of_bind_ok h
  rcases responseLoop_spec m.grants io.fromServer io.toClient []
      (m.response.map fun garbage => { sent := [], response := garbage, totalSize := 0 })
      (Nat.lt_succ_self _) with ⟨-, hloop⟩ | ⟨-, connfd, hloop⟩
  · obtain ⟨a, ha, -⟩ := of_bind_ok h
    exact absurd ⟨a, ha⟩ hloop
  rw [hloop, ok_bind] at h
  obtain ⟨c', hstore, h⟩ := of_bind_ok h
  obtain ⟨-, -, h⟩ := of_bind_ok h
  obtain ⟨-, -, h⟩ := of_bind_ok h
  cases h
  refine ⟨?_, hserver⟩
  dsimp only
  cases hresponse : m.response with
  | none =>
      rw [hresponse] at hstore
      cases hstore
      exact hkept
  | some garbage =>
      obtain ⟨hforward, htotal⟩ : _ ∧ _ := (forward_eq garbage
        (lines newlineByte (maxline - 2) io.fromServer.elems)).2.symm
      rw [hresponse] at hstore
      replace hstore : storeResponse m c (cacheKey u) (some (forward garbage
        (lines newlineByte (maxline - 2) io.fromServer.elems))) = .ok c' := hstore
      rw [storeResponse, hforward, htotal] at hstore
      have hflatten := flatten_lines newlineByte (maxline - 2) io.fromServer.elems
      split at hstore
      · split at hstore
        · cases hstore
        · rename_i c'' hadd
          cases hstore
          refine hkept.addCacheItem hl (hflatten.trans hserver) ?_ hadd
          rwa [hflatten, hserver]
      · cases hstore

/-- **One request** sends the answer, and stores nothing else. -/
theorem Visit.Genuine.step {sites : Sites} {v : Visit} (h : v.Genuine sites)
    (hnul : ∀ uri rio d, v.Asks uri rio d → Replayable (uriAnswer sites uri))
    (hkept : Kept sites v.m.cache) :
    Kept sites v.reply.cache ∧
      ∀ uri rio d, v.Asks uri rio d → v.reply.sent = uriAnswer sites uri := by
  rcases handleRequest_ok h.returns with ⟨hcache, hno⟩ |
    ⟨buf, rio, t, d, hread, huri, hblock, hserve⟩
  · refine ⟨hcache ▸ hkept, ?_⟩
    rintro uri rio d ⟨buf, hread, huri, hblock⟩
    rcases hno buf rio hread with hnone | hnone
    · rw [hnone] at huri
      cases huri
    · rw [hnone] at hblock
      cases hblock
  have hasks : v.Asks t.chars rio d := ⟨buf, hread, huri, hblock⟩
  have hslashes := h.absolute _ _ _ hasks
  have hall : v.reply.sent = uriAnswer sites t.chars →
      ∀ uri rio d, v.Asks uri rio d → v.reply.sent = uriAnswer sites uri := by
    rintro hsent uri rio' d' ⟨buf', hread', huri', -⟩
    rw [hread] at hread'
    cases hread'
    rw [huri] at huri'
    cases huri'
    exact hsent
  rw [Proxy.serveUri] at hserve
  split at hserve
  case isFalse => cases hserve
  rename_i hfits
  obtain ⟨hhost, hpath⟩ := (fits_parseUri t d).1 hfits
  have hanswer := keyAnswer_cacheKey sites t hslashes hhost hpath d.fresh
  split at hserve
  case isFalse => cases hserve
  cases hfind : findCacheItem v.m.cache (cacheKey (Proxy.parseUri t.chars d.fresh)) with
  | none =>
      rw [hfind] at hserve
      cases hserve
  | some found =>
      obtain ⟨c, item⟩ := found
      obtain ⟨hkept', ⟨l', hl'⟩, hitem⟩ := hkept.findCacheItem v.m.rep hfind
      rw [hfind] at hserve
      rw [← hanswer] at hall
      cases item with
      | some item =>
          obtain ⟨hok, hkey⟩ := hitem item rfl
          obtain ⟨hcache, hsent⟩ := serveHit_ok hok hkey hserve
          exact ⟨hcache ▸ hkept', hall hsent⟩
      | none =>
          have hserver : ∀ text rio', buildHeader (Proxy.parseUri t.chars d.fresh) rio =
              .ok (text, rio') → v.io.fromServer.elems =
                keyAnswer sites (cacheKey (Proxy.parseUri t.chars d.fresh)) := by
            intro text rio' hbuild
            obtain ⟨fuel, g, rioT, fd, out, helems, hdoit, hsent⟩ :=
              h.server _ _ _ _ _ _ hasks hfind hbuild
            rw [hsent, hanswer]
            rcases doit_request hhost hpath hbuild (sites (hostOf t.chars) (portOf t.chars)) g
              helems fd with ⟨-, hrun⟩ | ⟨-, hrun⟩
            · obtain ⟨fd', hout⟩ := hrun.of_some hdoit
              exact congrArg Out.sent (Except.ok.inj hout)
            · obtain ⟨msg, hexit⟩ := hrun.of_some hdoit
              cases hexit
          obtain ⟨hcache, hsent⟩ := serveMiss_ok hkept' hl' hserver
            (hanswer ▸ hnul _ _ _ hasks) hserve
          exact ⟨hcache, hall hsent⟩

theorem IsRun.answers {sites : Sites} {c : Cache} {vs : List Visit} (h : IsRun sites c vs)
    (hnul : ∀ v ∈ vs, ∀ uri rio d, v.Asks uri rio d → Replayable (uriAnswer sites uri))
    (hkept : Kept sites c) :
    ∀ v ∈ vs, ∀ uri rio d, v.Asks uri rio d → v.reply.sent = uriAnswer sites uri := by
  induction vs generalizing c with
  | nil =>
      intro v hv
      cases hv
  | cons v vs ih =>
      obtain ⟨rfl, hv, hvs⟩ := h
      obtain ⟨hfirst, hrest⟩ := List.forall_mem_cons.1 hnul
      obtain ⟨hkept', hsent⟩ := hv.step hfirst hkept
      exact List.forall_mem_cons.2 ⟨hsent, ih hvs hrest hkept'⟩

/-- **In every run each client is sent what the server would answer**, from the server or from the
cache, if the answers can be replayed. -/
theorem run_answers (sites : Sites) (vs : List Visit) (h : IsRun sites initCache vs)
    (hnul : ∀ v ∈ vs, ∀ uri rio d, v.Asks uri rio d → Replayable (uriAnswer sites uri)) :
    ∀ v ∈ vs, ∀ uri rio d, v.Asks uri rio d → v.reply.sent = uriAnswer sites uri :=
  h.answers hnul (kept_initCache sites)

/-- A client asks for the page. -/
def homeIo : Io where
  fromClient := ⟨"GET //a/ HTTP/1.0\r\n\r\n".toList, []⟩
  toClient := ⟨0, []⟩
  lookup := some [.connected 3]
  toServer := ⟨0, []⟩
  fromServer := ⟨uriAnswer (fun _ _ => homeFiles) rootToken.chars, []⟩
  serverCloses := true
  clientCloses := true

/-- A client asks for it again when the server is gone. -/
def againIo : Io := { homeIo with lookup := none, fromServer := ⟨[], []⟩ }

/-- A request with what becomes of it. -/
def Visit.of (m : Resources) (io : Io) : Visit where
  m := m
  io := io
  reply := (handleRequest m io).toOption.getD { cache := m.cache, sent := [], message := none }

theorem Visit.m_of (m : Resources) (io : Io) : (Visit.of m io).m = m := rfl

theorem Visit.returns_of {m : Resources} {io : Io} (h : (handleRequest m io).toBool = true) :
    handleRequest m io = .ok (Visit.of m io).reply := by
  rw [Visit.of]
  cases hrun : handleRequest m io with
  | error e =>
      rw [hrun] at h
      cases h
  | ok r => rfl

/-- The first request. -/
def homeVisit : Visit := .of .start homeIo

theorem homeVisit_returns : handleRequest homeVisit.m homeVisit.io = .ok homeVisit.reply :=
  Visit.returns_of (by decide +kernel)

theorem rep_homeVisit : Rep homeVisit.reply.cache homeVisit.reply.cache.listing := by
  obtain ⟨l, hl⟩ := rep_handleRequest rfl homeVisit_returns
  rwa [hl.listing_eq]

/-- The second request finds what the first one left. -/
def againVisit : Visit :=
  .of { Resources.start with
    cache := homeVisit.reply.cache
    items := homeVisit.reply.cache.listing
    rep := rep_homeVisit } againIo

theorem againVisit_returns : handleRequest againVisit.m againVisit.io = .ok againVisit.reply :=
  Visit.returns_of (by decide +kernel)

/-- Both ask for the root of the host. -/
theorem asks_root {v : Visit} (h : v.io.fromClient = homeIo.fromClient)
    (hd : v.m.uriBlock = some (Uri.filled nul)) :
    v.Asks rootToken.chars ⟨"\r\n".toList, []⟩ (Uri.filled nul) ∧
      ∀ uri rio d, v.Asks uri rio d → uri = rootToken.chars ∧ d = Uri.filled nul := by
  have hread : rioReadlineb newline homeIo.fromClient maxline =
      some ("GET //a/ HTTP/1.0\r\n".toList, ⟨"\r\n".toList, []⟩) := rfl
  have huri : requestUri (cstr "GET //a/ HTTP/1.0\r\n".toList 0) = some rootToken.chars := by decide
  rw [← h] at hread
  refine ⟨⟨_, hread, huri, hd⟩, ?_⟩
  rintro uri rio d ⟨buf, hread', huri', hd'⟩
  rw [hread] at hread'
  cases hread'
  rw [huri] at huri'
  rw [hd] at hd'
  exact ⟨(Option.some.inj huri').symm, (Option.some.inj hd').symm⟩

theorem homeVisit_genuine : homeVisit.Genuine fun _ _ => homeFiles := by
  have hasked := (asks_root (v := homeVisit) rfl rfl).2
  refine ⟨homeVisit_returns, fun uri rio d h => ?_, fun uri rio d text rio' c h _ hbuild => ?_⟩
  · rw [(hasked uri rio d h).1]
    decide
  · obtain ⟨rfl, -⟩ := hasked uri rio d h
    have helems : (⟨text, []⟩ : Rio Char).elems = text := List.append_nil _
    rcases doit_request (by decide) (by decide) hbuild homeFiles Garbage.empty helems
      ⟨0, []⟩ with ⟨-, hrun⟩ | ⟨hno, -⟩
    · obtain ⟨r, hsome, fd, rfl⟩ := hrun.exists
      exact ⟨_, _, _, _, _, List.append_nil _, hsome, List.append_nil _⟩
    · exact absurd sendable_home hno

/-- The answer is in the cache. -/
theorem againVisit_hits : (findCacheItem againVisit.m.cache
    (cacheKey (Proxy.parseUri rootToken.chars (Uri.filled nul).fresh))).map
      (fun found => found.2.isSome) = some true := by
  decide +kernel

theorem againVisit_genuine : againVisit.Genuine fun _ _ => homeFiles := by
  have hasked := (asks_root (v := againVisit) rfl rfl).2
  refine ⟨againVisit_returns, fun uri rio d h => ?_, fun uri rio d text rio' c h hmiss _ => ?_⟩
  · rw [(hasked uri rio d h).1]
    decide
  · -- the server is not asked
    obtain ⟨rfl, rfl⟩ := hasked uri rio d h
    have hhits := againVisit_hits
    rw [hmiss] at hhits
    cases hhits

/-- A miss, and then a hit when the server is gone. -/
theorem run_answers_home : againVisit.io.lookup = none ∧
    IsRun (fun _ _ => homeFiles) initCache [homeVisit, againVisit] ∧
      ∀ v ∈ [homeVisit, againVisit], v.reply.sent =
        bytes (okLine ++ serverLine ++ lengthLine 2 ++ typeLine "text/html".toList) ++
          [104, 105] := by
  have hcache : againVisit.m.cache = homeVisit.reply.cache := by rw [againVisit, Visit.m_of]
  have hrun : IsRun (fun _ _ => homeFiles) initCache [homeVisit, againVisit] :=
    ⟨rfl, homeVisit_genuine, hcache, againVisit_genuine, trivial⟩
  have hhome := asks_root (v := homeVisit) rfl rfl
  have hagain := asks_root (v := againVisit) rfl rfl
  have hreplayable : Replayable (uriAnswer (fun _ _ => homeFiles) rootToken.chars) :=
    .inr (by decide)
  have hanswers := run_answers (fun _ _ => homeFiles) [homeVisit, againVisit] hrun
    (List.forall_mem_cons.2 ⟨fun uri rio d h => (hhome.2 uri rio d h).1 ▸ hreplayable,
      List.forall_mem_singleton.2 fun uri rio d h => (hagain.2 uri rio d h).1 ▸ hreplayable⟩)
  have hpage : uriAnswer (fun _ _ => homeFiles) rootToken.chars =
      bytes (okLine ++ serverLine ++ lengthLine 2 ++ typeLine "text/html".toList) ++
        [104, 105] := by
    decide +kernel
  refine ⟨rfl, hrun, List.forall_mem_cons.2 ⟨?_, List.forall_mem_singleton.2 ?_⟩⟩
  · exact (hanswers _ List.mem_cons_self _ _ _ hhome.1).trans hpage
  · exact (hanswers _ (List.mem_cons_of_mem _ List.mem_cons_self) _ _ _ hagain.1).trans hpage

end Tiny
