/-
**The request on the wire.**

A request is a request line of three fields, some further lines, and a blank line.  What
`build_header` makes is of this form when the path of the URI starts with `/` and the `Host` line is
a line: a line of the client may come without its carriage return, or be cut by `rio_readlineb`, and
a host that was never set may be anything.

Main definitions:

* `Proxy.Request`, `Proxy.WellFormed` — requests and their texts;
* `Proxy.Framed` — every line feed stands behind a carriage return;
* `Proxy.BuildsWellFormed` — the text of `build_header` is a request, whatever `malloc` returned.

Main results:

* `Proxy.Request.framed` — the text of a request is framed;
* `Proxy.wellFormed_of_line`, `Proxy.wellFormed_of_open` — texts of `build_header` that are
  requests;
* `Proxy.buildsWellFormed_iff` — **for which request lines and header streams a request is sent**.
-/

import CsappLab.ProxyHeader
import Mathlib.Data.List.Chain

set_option relaxedAutoImplicit false
set_option autoImplicit false

namespace Proxy

open CText Chunked

/-! ### Requests -/

/-- A field of the request line. -/
def IsField (s : List Char) : Prop := s ≠ [] ∧ ' ' ∉ s ∧ '\n' ∉ s

/-- **A request**: the three fields of its first line, and the further lines without their ends. -/
structure Request where
  method : List Char
  target : List Char
  version : List Char
  lines : List (List Char)
  method_ok : IsField method
  target_ok : IsField target
  version_ok : IsField version
  target_head : target.head? = some '/'
  lines_ok : ∀ l ∈ lines, l ≠ [] ∧ '\n' ∉ l

namespace Request

/-- The request line. -/
def line (r : Request) : List Char := r.method ++ ' ' :: (r.target ++ ' ' :: r.version)

/-- A request as it is sent; a blank line ends it. -/
def text (r : Request) : List Char :=
  r.line ++ endofHdr ++ (r.lines.map (· ++ endofHdr)).flatten ++ endofHdr

end Request

/-- A text is a request. -/
def WellFormed (text : List Char) : Prop := ∃ r : Request, r.text = text

/-! ### Line feeds behind carriage returns -/

/-- Every line feed stands behind a carriage return; in front of the text stands something else. -/
def Framed (s : List Char) : Prop := List.IsChain (fun c d => d = '\n' → c = '\r') (' ' :: s)

section Framed

variable {s t w b : List Char}

theorem framed_of_notMem (h : '\n' ∉ s) : Framed s := by
  have hchain : ∀ c, List.IsChain (fun c d => d = '\n' → c = '\r') (c :: s) := by
    induction s with
    | nil => exact fun c => List.isChain_singleton c
    | cons d s ih =>
        refine fun c => List.isChain_cons_cons.2 ⟨fun heq => ?_, ih (fun hs => ?_) d⟩
        · exact absurd (heq ▸ List.mem_cons_self) h
        · exact h (List.mem_cons_of_mem d hs)
  exact hchain ' '

theorem Framed.append (hs : Framed s) (ht : Framed t) : Framed (s ++ t) := by
  obtain ⟨hhead, htail⟩ := List.isChain_cons.1 ht
  have happend : List.IsChain (fun c d => d = '\n' → c = '\r') ((' ' :: s) ++ t) := by
    refine List.isChain_append.2 ⟨hs, htail, fun c _ d hd heq => ?_⟩
    exact absurd (hhead d hd heq) (by decide)
  exact happend

/-- A line with its end. -/
theorem framed_line (h : '\n' ∉ s) : Framed (s ++ endofHdr) :=
  (framed_of_notMem h).append (by unfold Framed; decide)

theorem framed_flatten {ls : List (List Char)} (h : ∀ l ∈ ls, Framed l) : Framed ls.flatten := by
  induction ls with
  | nil => exact List.isChain_singleton ' '
  | cons l ls ih =>
      exact (h l List.mem_cons_self).append (ih fun l' hl' => h l' (List.mem_cons_of_mem l hl'))

/-- What stands in front of a line feed. -/
theorem Framed.before (h : Framed (s ++ (w ++ '\n' :: b))) (hw : w ≠ []) :
    ∃ v, w = v ++ ['\r'] := by
  have hwhole : List.IsChain (fun c d => d = '\n' → c = '\r') ((' ' :: s) ++ (w ++ '\n' :: b)) := h
  have hinfix := hwhole.right_of_append
  obtain ⟨-, -, hboundary⟩ := List.isChain_append.1 hinfix
  refine ⟨w.dropLast, ?_⟩
  rw [← hboundary (w.getLast hw) (List.getLast?_eq_some_getLast hw) '\n' rfl rfl]
  exact (List.dropLast_append_getLast hw).symm

end Framed

/-- **The text of a request is framed.** -/
theorem Request.framed (r : Request) : Framed r.text := by
  have hline : '\n' ∉ r.line := by
    intro h
    rcases List.mem_append.1 h with h | h
    · exact r.method_ok.2.2 h
    · rcases List.mem_cons.1 h with h | h
      · cases h
      · rcases List.mem_append.1 h with h | h
        · exact r.target_ok.2.2 h
        · rcases List.mem_cons.1 h with h | h
          · cases h
          · exact r.version_ok.2.2 h
  refine ((framed_line hline).append (framed_flatten fun l hl => ?_)).append
    (framed_line (s := []) ?_)
  · obtain ⟨l, hmem, rfl⟩ := List.mem_map.1 hl
    exact framed_line (r.lines_ok l hmem).2
  · exact List.not_mem_nil

/-! ### The text of `build_header` -/

section Text

variable {p h w : List Char}

/-- A path that can stand in a request line. -/
def IsTarget (p : List Char) : Prop := IsField p ∧ p.head? = some '/'

/-- The request whose further lines are `ls` and the fixed ones. -/
def requestOf (p : List Char) (hp : IsTarget p) (ls : List (List Char))
    (hls : ∀ l ∈ ls, l ≠ [] ∧ '\n' ∉ l) : Request where
  method := "GET".toList
  target := p
  version := "HTTP/1.0".toList
  lines := ls
  method_ok := by unfold IsField; decide
  target_ok := hp.1
  version_ok := by unfold IsField; decide
  target_head := hp.2
  lines_ok := hls

/-- The end of the text in terms of its lines. -/
theorem request_eq (p h : List Char) :
    request p h [] = ("GET".toList ++ ' ' :: (p ++ ' ' :: "HTTP/1.0".toList)) ++ endofHdr ++
      (h ++ (connHdr ++ (proxHdr ++ (userAgent ++ endofHdr)))) := by
  have hfirst : getLabel = "GET".toList ++ [' '] := by decide
  have hlast : httpLabel = ' ' :: "HTTP/1.0".toList ++ endofHdr := by decide
  rw [request, requestHdrOf, hfirst, hlast]
  simp only [List.append_assoc, List.append_nil, List.nil_append, List.cons_append]

/-- A fixed line without its end. -/
def connLine : List Char := "Connection: close".toList

@[inherit_doc connLine]
def proxLine : List Char := "Proxy-Connection: close".toList

@[inherit_doc connLine]
def agentLine : List Char :=
  "User-Agent: Mozilla/5.0 (X11; Linux x86_64; rv:10.0.3) Gecko/20120305 Firefox/10.0.3".toList

theorem connHdr_eq : connHdr = connLine ++ endofHdr := by decide

theorem proxHdr_eq : proxHdr = proxLine ++ endofHdr := by decide

theorem userAgent_eq : userAgent = agentLine ++ endofHdr := by decide

theorem connLine_ok : connLine ≠ [] ∧ '\n' ∉ connLine := by decide

theorem proxLine_ok : proxLine ≠ [] ∧ '\n' ∉ proxLine := by decide

theorem agentLine_ok : agentLine ≠ [] ∧ '\n' ∉ agentLine := by decide

/-- **A `Host` line that is a line.** -/
theorem wellFormed_of_line (hp : IsTarget p) (hw : w ≠ []) (hn : '\n' ∉ w) :
    WellFormed (request p (w ++ endofHdr) []) := by
  refine ⟨requestOf p hp [w, connLine, proxLine, agentLine] fun l hl => ?_, ?_⟩
  · simp only [List.mem_cons, List.not_mem_nil, or_false] at hl
    rcases hl with rfl | rfl | rfl | rfl
    · exact ⟨hw, hn⟩
    · exact connLine_ok
    · exact proxLine_ok
    · exact agentLine_ok
  · rw [request_eq, connHdr_eq, proxHdr_eq, userAgent_eq]
    simp only [Request.text, Request.line, requestOf, List.map_cons, List.map_nil,
      List.flatten_cons, List.flatten_nil, List.append_assoc, List.nil_append, List.cons_append]

/-- **A `Host` line without an end** takes in the line behind it. -/
theorem wellFormed_of_open (hp : IsTarget p) (hn : '\n' ∉ h) : WellFormed (request p h []) := by
  refine ⟨requestOf p hp [h ++ connLine, proxLine, agentLine] fun l hl => ?_, ?_⟩
  · simp only [List.mem_cons, List.not_mem_nil, or_false] at hl
    rcases hl with rfl | rfl | rfl
    · refine ⟨fun hnil => connLine_ok.1 (List.append_eq_nil_iff.1 hnil).2, fun hmem => ?_⟩
      rcases List.mem_append.1 hmem with hmem | hmem
      · exact hn hmem
      · exact connLine_ok.2 hmem
    · exact proxLine_ok
    · exact agentLine_ok
  · rw [request_eq, connHdr_eq, proxHdr_eq, userAgent_eq]
    simp only [Request.text, Request.line, requestOf, List.map_cons, List.map_nil,
      List.flatten_cons, List.flatten_nil, List.append_assoc, List.nil_append, List.cons_append]

/-- The second field of a request is its path. -/
theorem head_of_wellFormed (hp : ' ' ∉ p) (hwf : WellFormed (request p h [])) :
    p.head? = some '/' := by
  obtain ⟨r, hr⟩ := hwf
  rw [request_eq, Request.text, Request.line] at hr
  simp only [List.append_assoc, List.cons_append] at hr
  have hfirst := congrArg (cut ' ') hr
  rw [cut_append r.method_ok.2.1, cut_append (by decide)] at hfirst
  have hsecond := congrArg (cut ' ') (Prod.mk.inj (Option.some.inj hfirst)).2
  rw [cut_append r.target_ok.2.1, cut_append hp] at hsecond
  rw [← (Prod.mk.inj (Option.some.inj hsecond)).1]
  exact r.target_head

/-- A line feed of the `Host` line stands behind a carriage return. -/
theorem before_of_wellFormed {b : List Char} (hwf : WellFormed (request p (w ++ '\n' :: b) []))
    (hw : w ≠ []) : ∃ v, w = v ++ ['\r'] := by
  obtain ⟨r, hr⟩ := hwf
  have hframed := r.framed
  rw [hr, request_eq, List.append_assoc w, List.cons_append] at hframed
  exact hframed.before hw

end Text

/-! ### The `Host` line of the client -/

theorem isHost_cstr {rp : Rio Char} {s : List Char} (h : clientHost rp = some s) :
    strncasecmp s hostName hostName.length = true := by
  obtain ⟨l, -, hhost, rfl⟩ := clientHost_some h
  exact hhost

/-- Only the last character of the `Host` line can be a line feed. -/
theorem clientHost_dropLast {rp : Rio Char} {s : List Char} (h : clientHost rp = some s) :
    '\n' ∉ s.dropLast := by
  obtain ⟨l, hl, -, rfl⟩ := clientHost_some h
  intro hmem
  refine newline_notMem_dropLast (mem_pieces_of_mem_headers hl) ?_
  obtain ⟨r, hr⟩ : cstr l 0 <+: l := List.takeWhile_prefix _
  rw [← hr]
  cases r with
  | nil =>
      rw [List.append_nil]
      exact hmem
  | cons c r =>
      rw [List.dropLast_append_of_ne_nil (List.cons_ne_nil c r)]
      exact List.mem_append_left _ ((List.dropLast_sublist _).subset hmem)

/-- The `Host` line up to its line feed. -/
theorem clientHost_split {rp : Rio Char} {s : List Char} (h : clientHost rp = some s)
    (hn : '\n' ∈ s) : ∃ w, s = w ++ ['\n'] ∧ w ≠ [] ∧ '\n' ∉ w := by
  have hne := clientHost_ne_nil h
  have hsplit := List.dropLast_append_getLast hne
  have hlast : s.getLast hne = '\n' := by
    rw [← hsplit] at hn
    rcases List.mem_append.1 hn with hn | hn
    · exact absurd hn (clientHost_dropLast h)
    · exact (List.mem_singleton.1 hn).symm
  rw [hlast] at hsplit
  refine ⟨s.dropLast, hsplit.symm, fun hnil => ?_, clientHost_dropLast h⟩
  have hhost := isHost_cstr h
  rw [← hsplit, hnil] at hhost
  exact absurd hhost (by decide)

/-! ### Requests for the tokens of request lines -/

section Token

variable (t : Token)

theorem not_space_of_mem_pathOf {c : Char} (hc : c ∈ pathOf t.chars) : isSpace c = false := by
  cases h : afterSlashes t.chars with
  | none =>
      rw [pathOf, h] at hc
      exact (t.plain c hc).1
  | some r =>
      rw [pathOf, h] at hc
      exact (t.plain c (mem_of_afterSlashes h (mem_of_mem_pathPart hc))).1

theorem not_space_of_mem_hostOf {c : Char} (hc : c ∈ hostOf t.chars) : isSpace c = false := by
  cases h : afterSlashes t.chars with
  | none =>
      rw [hostOf, h] at hc
      cases hc
  | some r =>
      rw [hostOf, h] at hc
      exact (t.plain c (mem_of_afterSlashes h (mem_of_mem_hostPart hc))).1

theorem isTarget_pathOf (h : (pathOf t.chars).head? = some '/') : IsTarget (pathOf t.chars) := by
  refine ⟨⟨fun hnil => ?_, fun hmem => ?_, fun hmem => ?_⟩, h⟩
  · rw [hnil] at h
    cases h
  · exact absurd (not_space_of_mem_pathOf t hmem) (by decide)
  · exact absurd (not_space_of_mem_pathOf t hmem) (by decide)

end Token

/-- Whatever `malloc` returned for the structure, the process ends with a message, or the text that
`build_header` makes of a token and a header stream is a request. -/
def BuildsWellFormed (t : Token) (rp : Rio Char) : Prop :=
  ∀ d : Uri, (∃ msg, buildHeader (parseUri t.chars d) rp = .error (.exited msg)) ∨
    ∃ text rp', buildHeader (parseUri t.chars d) rp = .ok (text, rp') ∧ WellFormed text

/-- The `Host` line that the client sent, if it did, has an end or no line feed, and fits the text.
-/
structure HostLineOk (path s : List Char) : Prop where
  ends : '\n' ∈ s → endofHdr <:+ s
  fits : path.length + s.length + 147 < maxline

/-- The text that is made with a structure as it came from `malloc` fits its array, and is a
request. -/
structure Sendable (t : Token) (rp : Rio Char) (d : Uri) : Prop where
  fits : (pathOf t.chars).length + (hostLine (parseUri t.chars d) rp).length + 147 < maxline
  wellFormed : WellFormed (request (pathOf t.chars) (hostLine (parseUri t.chars d) rp) [])

section Sendable

variable {t : Token} {rp : Rio Char}

/-- What `build_header` does is a matter of its text, unless a read fails. -/
theorem buildsWellFormed_iff_sendable (hhost : (hostOf t.chars).length < 100)
    (hpath : (pathOf t.chars).length < 100) :
    BuildsWellFormed t rp ↔ HeaderFails rp ∨ ∀ d, Sendable t rp d := by
  have hspec : ∀ d : Uri, _ := fun d => buildHeader_spec (parseUri t.chars d) rp (by
    rw [str_path_of_fits t hhost d]
    simp only [maxline]
    omega)
  simp only [str_path_of_fits t hhost] at hspec
  by_cases hfails : HeaderFails rp
  case pos =>
    refine iff_of_true (fun d => ?_) (.inl hfails)
    rcases hspec d with ⟨-, hexit⟩ | ⟨hok, -⟩
    · exact .inl ⟨_, hexit⟩
    · exact absurd hfails hok
  refine Iff.trans (forall_congr' fun d => ?_) (or_iff_right hfails).symm
  rcases hspec d with ⟨hfails', -⟩ | ⟨-, ⟨hlong, hover⟩ | ⟨hfit, rp', hok⟩⟩
  · exact absurd hfails' hfails
  · rw [hover]
    refine iff_of_false ?_ fun h => Nat.not_lt.2 hlong h.fits
    rintro (⟨msg, hexit⟩ | ⟨text, rp', hok, -⟩)
    · cases hexit
    · cases hok
  · rw [hok]
    constructor
    · rintro (⟨msg, hexit⟩ | ⟨text, rp'', hok', htext⟩)
      · cases hexit
      · obtain ⟨rfl, -⟩ := Prod.mk.inj (Except.ok.inj hok')
        exact ⟨hfit, htext⟩
    · exact fun h => .inr ⟨_, rp', rfl, h.wellFormed⟩

theorem Sendable.head {d : Uri} (h : Sendable t rp d) : (pathOf t.chars).head? = some '/' :=
  head_of_wellFormed (fun hmem => absurd (not_space_of_mem_pathOf t hmem) (by decide)) h.wellFormed

/-- With a `Host` line of the client. -/
theorem sendable_of_client {s : List Char} (hclient : clientHost rp = some s) (d : Uri) :
    Sendable t rp d ↔ (pathOf t.chars).head? = some '/' ∧ HostLineOk (pathOf t.chars) s := by
  have hline : hostLine (parseUri t.chars d) rp = s := by
    rw [hostLine, hclient, Option.getD_some]
  constructor
  · intro h
    have hfit := h.fits
    have htext := h.wellFormed
    rw [hline] at hfit htext
    refine ⟨h.head, fun hn => ?_, hfit⟩
    obtain ⟨w, rfl, hw, -⟩ := clientHost_split hclient hn
    obtain ⟨v, rfl⟩ := before_of_wellFormed htext hw
    exact ⟨v, by rw [List.append_assoc]; rfl⟩
  · rintro ⟨hhead, hends, hfit⟩
    refine ⟨by rw [hline]; exact hfit, ?_⟩
    rw [hline]
    have htarget := isTarget_pathOf t hhead
    by_cases hn : '\n' ∈ s
    case neg => exact wellFormed_of_open htarget hn
    obtain ⟨v, rfl⟩ := hends hn
    refine wellFormed_of_line htarget (fun hnil => ?_) fun hmem => ?_
    · have hhost := isHost_cstr hclient
      rw [hnil] at hhost
      exact absurd hhost (by decide)
    · refine clientHost_dropLast hclient ?_
      rw [List.dropLast_append_of_ne_nil (by decide)]
      exact List.mem_append_left _ hmem

/-- With the host of the URI: this must have been set, or it may hold a line feed. -/
theorem sendable_of_default (hclient : clientHost rp = none) (hhost : (hostOf t.chars).length < 100)
    (hpath : (pathOf t.chars).length < 100) : (∀ d, Sendable t rp d) ↔
      (pathOf t.chars).head? = some '/' ∧ ['/', '/'] <:+: t.chars := by
  constructor
  · intro h
    refine ⟨(h (Uri.filled nul)).head, ?_⟩
    by_contra hno
    have hstr : ((Uri.filled nul).strcpy .host ['\n']).str .host = ['\n'] :=
      Uri.str_strcpy_self (by decide)
    obtain ⟨-, -, hleft⟩ := str_of_path t.nul_notMem ((afterSlashes_eq_none_iff t.chars).2 hno)
      ((Uri.filled nul).strcpy .host ['\n'])
    rw [hstr] at hleft
    have htext := (h ((Uri.filled nul).strcpy .host ['\n'])).wellFormed
    rw [hostLine, hclient, Option.getD_none, hleft (by decide), hostHdrOf, List.append_assoc,
      List.singleton_append] at htext
    obtain ⟨v, hv⟩ := before_of_wellFormed htext (by decide)
    have hmem : '\r' ∈ hostLabel := by
      rw [hv]
      exact List.mem_append_right v (List.mem_singleton_self _)
    exact absurd hmem (by decide)
  · rintro ⟨hhead, hslashes⟩ d
    have hline : hostLine (parseUri t.chars d) rp = hostHdrOf (hostOf t.chars) := by
      rw [hostLine, hclient, Option.getD_none, str_host_of_slashes t hslashes]
    constructor
    · have hlabel : hostLabel.length = 6 := by decide
      have hend : endofHdr.length = 2 := by decide
      simp only [hline, hostHdrOf, List.length_append, hlabel, hend, maxline]
      omega
    · rw [hline]
      refine wellFormed_of_line (isTarget_pathOf t hhead) (fun hnil => ?_) fun hmem => ?_
      · exact absurd (List.append_eq_nil_iff.1 hnil).1 (by decide)
      · rcases List.mem_append.1 hmem with hmem | hmem
        · exact absurd hmem (by decide)
        · exact absurd (not_space_of_mem_hostOf t hmem) (by decide)

end Sendable

/-- **For which request lines and header streams a request is sent**: the path has to start with
`/`; the last `Host` line of the client has to be a line; and if there is none, the token has to
contain `//`. -/
theorem buildsWellFormed_iff (t : Token) (rp : Rio Char) (hhost : (hostOf t.chars).length < 100)
    (hpath : (pathOf t.chars).length < 100) :
    BuildsWellFormed t rp ↔ HeaderFails rp ∨
      ((pathOf t.chars).head? = some '/' ∧
        (∀ s, clientHost rp = some s → HostLineOk (pathOf t.chars) s) ∧
        (clientHost rp = none → ['/', '/'] <:+: t.chars)) := by
  rw [buildsWellFormed_iff_sendable hhost hpath]
  refine or_congr_right ?_
  cases hclient : clientHost rp with
  | some s =>
      simp only [sendable_of_client hclient]
      constructor
      · intro h
        obtain ⟨hhead, hok⟩ := h (Uri.filled nul)
        refine ⟨hhead, fun s' hs' => ?_, fun hnone => ?_⟩
        · cases hs'
          exact hok
        · cases hnone
      · rintro ⟨hhead, hok, -⟩ d
        exact ⟨hhead, hok s rfl⟩
  | none =>
      rw [sendable_of_default hclient hhost hpath]
      constructor
      · rintro ⟨hhead, hslashes⟩
        refine ⟨hhead, fun s hs => ?_, fun _ => hslashes⟩
        cases hs
      · rintro ⟨hhead, -, hslashes⟩
        exact ⟨hhead, hslashes rfl⟩

/-- A path, with a `Host` line of the client. -/
theorem buildsWellFormed_iff_pathToken : BuildsWellFormed pathToken (bufferedBlock [clientLine]) :=
  (buildsWellFormed_iff pathToken (bufferedBlock [clientLine]) (by decide) (by decide)).2 (by
    rw [clientHost_clientLine]
    refine .inr ⟨by decide, fun s hs => ?_, fun hnone => ?_⟩
    · cases hs
      exact ⟨fun _ => by decide, by decide⟩
    · cases hnone)

/-- The request for a host without a path. -/
def hostToken : Token where
  chars := ['/', '/', 'a']
  ne_nil := List.cons_ne_nil _ _
  plain := List.forall_mem_cons.2 ⟨by decide, List.forall_mem_cons.2
    ⟨by decide, List.forall_mem_singleton.2 (by decide)⟩⟩
  length_lt := by simp [maxline]

/-- **A request line with an empty field.** -/
theorem target_empty : ¬ ∀ (t : Token) (rp : Rio Char), (hostOf t.chars).length < 100 →
    (pathOf t.chars).length < 100 → BuildsWellFormed t rp := by
  intro h
  have hpath : (parseUri hostToken.chars (Uri.filled nul)).str .path = [] :=
    str_path_of_fits hostToken (by decide) (Uri.filled nul)
  have hbuilds := h hostToken ⟨[], []⟩ (by decide) (by decide) (Uri.filled nul)
  rcases buildHeader_spec (parseUri hostToken.chars (Uri.filled nul)) ⟨[], []⟩
      (by rw [hpath]; decide) with ⟨⟨hfails, -⟩, -⟩ | ⟨-, ⟨-, hover⟩ | ⟨-, rp', hok⟩⟩
  · cases hfails
  · rw [hover] at hbuilds
    rcases hbuilds with ⟨msg, hexit⟩ | ⟨text, rp', hok, -⟩
    · cases hexit
    · cases hok
  · rw [hok, hpath] at hbuilds
    rcases hbuilds with ⟨msg, hexit⟩ | ⟨text, rp'', hok', hwf⟩
    · cases hexit
    · obtain ⟨rfl, -⟩ := Prod.mk.inj (Except.ok.inj hok')
      exact absurd (head_of_wellFormed List.not_mem_nil hwf) (by decide)

end Proxy
