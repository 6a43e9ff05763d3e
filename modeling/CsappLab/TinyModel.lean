/-
**The Tiny web server.**

`tiny.c` is the server behind the proxy.  It answers one request per connection, one connection
after the other: `doit` reads the request line, skips the header lines, finds the file or the
program that the URI names, and sends it, or sends an error page.  The header is skipped up to its
blank line, also behind the end of the file, where `Rio_readlineb` stores nothing: a client that
hangs up before the blank line keeps the server busy for ever.

Main definitions:

* `Tiny.FileInfo`, `Tiny.Files`, `Tiny.Garbage` — the files, and what stands in the arrays;
* `Tiny.parseUri`, `Tiny.serveStatic`, `Tiny.serveDynamic`, `Tiny.clienterror`, `Tiny.doit` — the
  functions of `tiny.c`;
* `Tiny.serve` — the loop of `main`;
* `Tiny.Answer`, `Tiny.answer` — what a request should be answered, without any input or output.

Main results:

* `Tiny.writeAll_spec` — several texts are sent whole, unless one is too long or a write fails;
* `Tiny.readRequesthdrs_spec` — when the header ends;
* `Tiny.serveUri_spec` — what is sent is the answer.
-/

import CsappLab.ProxyRequest
import CsappLab.ProxyWire

set_option relaxedAutoImplicit false
set_option autoImplicit false

namespace Tiny

open CText Chunked Proxy

/-! ### Files -/

/-- What there is under a name: the bits that `stat` reports, whether `open` succeeds, the content
of the file, and what the program writes for a value of `QUERY_STRING`. -/
structure FileInfo where
  regular : Bool
  readable : Bool
  executable : Bool
  opens : Bool
  content : List UInt8
  run : List Char → List UInt8

/-- What `stat` finds under a name. -/
abbrev Files := List Char → Option FileInfo

/-- `sbuf.st_size` as the `int` that `serve_static` is passed. -/
def FileInfo.filesize (file : FileInfo) : ℤ := Int.bmod file.content.length (2 ^ 32)

/-- `mmap` of the first `filesize` bytes; it refuses no bytes, and a negative number is too large
for the address space. -/
def mmap (content : List UInt8) (filesize : ℤ) : Option (List UInt8) :=
  if 0 < filesize then some (content.take filesize.toNat) else none

/-- What stands in an array of `MAXLINE` bytes in front of its terminator. -/
structure CString where
  chars : List Char
  nul_notMem : nul ∉ chars
  length_lt : chars.length < maxline

/-- What stands in the arrays `method` and `uri` of `doit` and in the array of `read_requesthdrs`
before something is stored there. -/
structure Garbage where
  method : CString
  uri : CString
  line : CString

/-! ### Sending -/

/-- The bytes of a text. -/
def bytes (s : List Char) : List UInt8 := s.map fun c => UInt8.ofNat c.toNat

/-- The connection, and what was sent on it. -/
structure Out where
  fd : Sink
  sent : List UInt8

/-- `sprintf(buf, ...)` and `Rio_writen(fd, buf, strlen(buf))`. -/
def writeText (out : Out) (s : List Char) : Except Fault Out := do
  let buf ← sprintf s
  let fd ← rioWritenOrExit out.fd buf.length
  return { fd := fd, sent := out.sent ++ bytes buf }

/-- The same for several texts. -/
def writeAll : Out → List (List Char) → Except Fault Out
  | out, [] => .ok out
  | out, s :: texts => writeText out s >>= fun out => writeAll out texts

/-- The first line of a response that succeeds. -/
def okLine : List Char := "HTTP/1.0 200 OK\r\n".toList

/-- The second one. -/
def serverLine : List Char := "Server: Tiny Web Server\r\n".toList

/-- What stands in front of the length of the body. -/
def lengthLabel : List Char := "Content-length: ".toList

/-- The line of `serve_static` about the length of the body. -/
def lengthLine (filesize : ℤ) : List Char := lengthLabel ++ printD filesize ++ endofHdr

/-- What stands in front of its type. -/
def typeLabel : List Char := "Content-type: ".toList

/-- The line about the type, with the blank line. -/
def typeLine (filetype : List Char) : List Char := typeLabel ++ filetype ++ endofHdr ++ endofHdr

/-- The texts of `clienterror`. -/
def errorTexts (cause errnum shortmsg longmsg : List Char) : List (List Char) :=
  ["HTTP/1.0 ".toList ++ errnum ++ ' ' :: shortmsg ++ endofHdr,
    typeLine "text/html".toList,
    "<html><title>Tiny Error</title>".toList,
    "<body bgcolor=ffffff>\r\n".toList,
    errnum ++ ':' :: ' ' :: shortmsg ++ endofHdr,
    "<p>".toList ++ longmsg ++ ':' :: ' ' :: cause ++ endofHdr,
    "<hr><em>The Tiny Web server</em>\r\n".toList]

/-- `clienterror`. -/
def clienterror (out : Out) (cause errnum shortmsg longmsg : List Char) : Except Fault Out :=
  writeAll out (errorTexts cause errnum shortmsg longmsg)

/-- `get_filetype`. -/
def getFiletype (filename : List Char) : List Char :=
  if (strstr filename 0 ".html".toList).isSome then "text/html".toList
  else if (strstr filename 0 ".gif".toList).isSome then "image/gif".toList
  else if (strstr filename 0 ".png".toList).isSome then "image/png".toList
  else if (strstr filename 0 ".jpg".toList).isSome then "image/jpeg".toList
  else "text/plain".toList

/-- `serve_static`; `Close(srcfd)` and `Munmap` succeed. -/
def serveStatic (out : Out) (file : FileInfo) (filename : List Char) (filesize : ℤ) :
    Except Fault Out := do
  let out ← writeAll out [okLine, serverLine, lengthLine filesize, typeLine (getFiletype filename)]
  if file.opens then
    match mmap file.content filesize with
    | none => .error (.exited "mmap error")
    | some srcp => do
        let fd ← rioWritenOrExit out.fd srcp.length
        return { fd := fd, sent := out.sent ++ srcp }
  else .error (.exited "Open error")

/-- `serve_dynamic`: the child writes to the connection before the parent goes on.  `Fork` and
`Wait` succeed, and the program ends. -/
def serveDynamic (out : Out) (file : FileInfo) (cgiargs : List Char) : Except Fault Out := do
  let out ← writeAll out [okLine, serverLine]
  return { out with sent := out.sent ++ file.run cgiargs }

/-! ### The request -/

/-- What `parse_uri` looks for. -/
def cgiBin : List Char := "cgi-bin".toList

/-- The page of a directory. -/
def homeHtml : List Char := "home.html".toList

/-- What `parse_uri` returns and stores. -/
structure Target where
  isStatic : Bool
  filename : List Char
  cgiargs : List Char

/-- `parse_uri`; the last character of an empty string is read in front of its array. -/
def parseUri (uri : List Char) : Except Fault Target :=
  match strstr uri 0 cgiBin with
  | none => do
      let filename ← sprintf ('.' :: uri)
      match uri.getLast? with
      | none => .error .badRead
      | some c => do
          let filename ← if c = '/' then sprintf (filename ++ homeHtml) else pure filename
          return { isStatic := true, filename := filename, cgiargs := [] }
  | some _ =>
      match strchr uri 0 '?' with
      | some ptr => do
          let filename ← sprintf ('.' :: uri.take ptr)
          return { isStatic := false, filename := filename, cgiargs := uri.drop (ptr + 1) }
      | none => do
          let filename ← sprintf ('.' :: uri)
          return { isStatic := false, filename := filename, cgiargs := [] }

/-- `sscanf(buf, "%s %s %s", method, uri, version)`: an array without a word is left alone. -/
def scanRequest (buf : List Char) (g : Garbage) : List Char × List Char :=
  match scanS maxline buf with
  | none => (g.method.chars, g.uri.chars)
  | some (method, s) =>
      match scanS maxline s with
      | none => (method, g.uri.chars)
      | some (uri, _) => (method, uri)

/-- `read_requesthdrs`, for at most `fuel` lines; at the end of the file `buf` stays as it is. -/
def readRequesthdrs : ℕ → Rio Char → List Char → Option (Except Fault (Rio Char))
  | 0, _, _ => none
  | fuel + 1, rp, buf =>
      match rioReadlinebOrExit newline rp maxline with
      | .error e => some (.error e)
      | .ok ([], rp) => if buf = endofHdr then some (.ok rp) else readRequesthdrs fuel rp buf
      | .ok (c :: cs, rp) =>
          if cstr (c :: cs) 0 = endofHdr then some (.ok rp)
          else readRequesthdrs fuel rp (cstr (c :: cs) 0)

/-- `doit` from the call of `parse_uri` on. -/
def serveUri (files : Files) (uri : List Char) (out : Out) : Except Fault Out := do
  let target ← parseUri uri
  match files target.filename with
  | none =>
      clienterror out target.filename "404".toList "Not found".toList
        "Tiny couldn't find this file".toList
  | some file =>
      if target.isStatic then
        if !file.regular || !file.readable then
          clienterror out target.filename "403".toList "Forbidden".toList
            "Tiny couldn't read the file".toList
        else serveStatic out file target.filename file.filesize
      else
        if !file.regular || !file.executable then
          clienterror out target.filename "403".toList "Forbidden".toList
            "Tiny couldn't run the CGI program".toList
        else serveDynamic out file target.cgiargs

/-- `doit`, which looks at no more than `fuel` header lines: what is sent. -/
def doit (fuel : ℕ) (g : Garbage) (files : Files) (rio : Rio Char) (fd : Sink) :
    Option (Except Fault Out) :=
  match rioReadlinebOrExit newline rio maxline with
  | .error e => some (.error e)
  | .ok ([], _) => some (.ok ⟨fd, []⟩)
  | .ok (c :: cs, rio) =>
      let (method, uri) := scanRequest (cstr (c :: cs) 0) g
      if strcasecmp method getName then
        match readRequesthdrs fuel rio g.line.chars with
        | none => none
        | some (.error e) => some (.error e)
        | some (.ok _) => some (serveUri files uri ⟨fd, []⟩)
      else some (clienterror ⟨fd, []⟩ method "501".toList "Not Implemented".toList
        "Tiny does not implement this method".toList)

/-- A connection that is accepted: what the arrays hold, what the client sends and takes, and
whether `Close` succeeds. -/
structure Connection where
  garbage : Garbage
  rio : Rio Char
  fd : Sink
  closes : Bool

/-- The loop of `main` over the connections that come: what is sent on each.  `Accept` and
`Getnameinfo` succeed. -/
def serve (fuel : ℕ) (files : Files) : List Connection → Option (Except Fault (List (List UInt8)))
  | [] => some (.ok [])
  | c :: cs =>
      match doit fuel c.garbage files c.rio c.fd with
      | none => none
      | some (.error e) => some (.error e)
      | some (.ok out) =>
          match closeOrExit c.closes with
          | .error e => some (.error e)
          | .ok () => (serve fuel files cs).map fun r => r.map (out.sent :: ·)

/-! ### Answers -/

/-- What a request can be answered. -/
inductive Answer where
  | error (cause errnum shortmsg longmsg : List Char)
  | content (filename : List Char) (file : FileInfo)
  | program (output : List UInt8)

namespace Answer

/-- The texts in front of the body. -/
def texts : Answer → List (List Char)
  | .error cause errnum shortmsg longmsg => errorTexts cause errnum shortmsg longmsg
  | .content filename file =>
      [okLine, serverLine, lengthLine file.filesize, typeLine (getFiletype filename)]
  | .program _ => [okLine, serverLine]

/-- The body; that of an error page is part of the texts. -/
def body : Answer → List UInt8
  | .error .. => []
  | .content _ file => file.content.take file.filesize.toNat
  | .program output => output

/-- The answer as it is sent. -/
def sent (a : Answer) : List UInt8 := bytes a.texts.flatten ++ a.body

/-- The number of bytes that the server sends itself. -/
def size : Answer → ℕ
  | .error cause errnum shortmsg longmsg =>
      (errorTexts cause errnum shortmsg longmsg).flatten.length
  | .content filename file => (Answer.content filename file).texts.flatten.length +
      (Answer.content filename file).body.length
  | .program output => (Answer.program output).texts.flatten.length

/-- The answer can be sent: its texts fit the array, and a file can be opened and mapped. -/
def Sendable (a : Answer) (fd : Sink) : Prop :=
  (∀ s ∈ a.texts, s.length < maxline) ∧ fd.Takes a.size ∧
    ∀ filename file, a = .content filename file → file.opens = true ∧ 0 < file.filesize

end Answer

/-- The URI names a program. -/
def IsProgram (uri : List Char) : Prop := cgiBin <:+: uri

instance (uri : List Char) : Decidable (IsProgram uri) :=
  inferInstanceAs (Decidable (cgiBin <:+: uri))

/-- The name of the file or of the program. -/
def filenameOf (uri : List Char) : List Char :=
  if IsProgram uri then '.' :: uri.takeWhile (· ≠ '?')
  else if uri.getLast? = some '/' then '.' :: uri ++ homeHtml else '.' :: uri

/-- The arguments of the program. -/
def argsOf (uri : List Char) : List Char := (uri.dropWhile (· ≠ '?')).tail

/-- **What a `GET` request should be answered.** -/
def answerUri (files : Files) (uri : List Char) : Answer :=
  match files (filenameOf uri) with
  | none => .error (filenameOf uri) "404".toList "Not found".toList
      "Tiny couldn't find this file".toList
  | some file =>
      if IsProgram uri then
        if file.regular && file.executable then .program (file.run (argsOf uri))
        else .error (filenameOf uri) "403".toList "Forbidden".toList
          "Tiny couldn't run the CGI program".toList
      else
        if file.regular && file.readable then .content (filenameOf uri) file
        else .error (filenameOf uri) "403".toList "Forbidden".toList
          "Tiny couldn't read the file".toList

/-- **What a request should be answered.** -/
def answer (files : Files) (method uri : List Char) : Answer :=
  if strcasecmp method getName then answerUri files uri
  else .error method "501".toList "Not Implemented".toList
    "Tiny does not implement this method".toList

/-- The name fits its array, and the URI has a last character. -/
def Nameable (uri : List Char) : Prop :=
  (filenameOf uri).length < maxline ∧ (¬ IsProgram uri → uri ≠ [])

/-! ### What is sent -/

theorem ok_bind {α β : Type} (a : α) (f : α → Except Fault β) : (Except.ok a >>= f) = f a := rfl

theorem bytes_append (s t : List Char) : bytes (s ++ t) = bytes s ++ bytes t := List.map_append

/-- One text is sent whole, unless it is too long or the write fails. -/
theorem writeText_spec (out : Out) (s : List Char) :
    (¬ (s.length < maxline ∧ out.fd.Takes s.length) ∧ ¬ Returns (writeText out s)) ∨
      (s.length < maxline ∧ out.fd.Takes s.length) ∧
        ∃ fd, writeText out s = .ok ⟨fd, out.sent ++ bytes s⟩ ∧
          ∀ m, fd.Takes m ↔ out.fd.Takes (s.length + m) := by
  rw [writeText, sprintf]
  by_cases hfit : s.length < maxline
  · rw [if_pos hfit, ok_bind]
    rcases rioWritenOrExit_spec out.fd s.length with ⟨hno, hwrite⟩ | ⟨hyes, fd, hwrite, htakes⟩
    · rw [hwrite]
      exact .inl ⟨fun h => hno h.2, not_returns_error _⟩
    · rw [hwrite]
      exact .inr ⟨⟨hfit, hyes⟩, fd, rfl, htakes⟩
  · rw [if_neg hfit]
    exact .inl ⟨fun h => hfit h.1, not_returns_error _⟩

/-- Several texts fit the array and the connection. -/
def TextsFit (texts : List (List Char)) (fd : Sink) : Prop :=
  (∀ s ∈ texts, s.length < maxline) ∧ fd.Takes texts.flatten.length

/-- **Several texts are sent whole**, unless one is too long or a write fails. -/
theorem writeAll_spec (out : Out) (texts : List (List Char)) :
    (¬ TextsFit texts out.fd ∧ ¬ Returns (writeAll out texts)) ∨
      TextsFit texts out.fd ∧
        ∃ fd, writeAll out texts = .ok ⟨fd, out.sent ++ bytes texts.flatten⟩ ∧
          ∀ m, fd.Takes m ↔ out.fd.Takes (texts.flatten.length + m) := by
  induction texts generalizing out with
  | nil =>
      refine .inr ⟨⟨fun s hs => ?_, fun b _ => Nat.zero_le b⟩, out.fd, ?_, fun m => ?_⟩
      · cases hs
      · rw [List.flatten_nil, bytes, List.map_nil, List.append_nil]
        rfl
      · rw [List.flatten_nil, List.length_nil, Nat.zero_add]
  | cons s texts ih =>
      rw [writeAll, List.flatten_cons, List.length_append]
      rcases writeText_spec out s with ⟨hno, hwrite⟩ | ⟨⟨hfit, -⟩, fd, hwrite, htakes⟩
      · refine .inl ⟨fun h => hno ⟨h.1 s List.mem_cons_self, ?_⟩, not_returns_bind hwrite⟩
        have htakes := h.2
        rw [List.flatten_cons, List.length_append] at htakes
        exact htakes.mono (Nat.le_add_right _ _)
      · have hiff : TextsFit (s :: texts) out.fd ↔ TextsFit texts fd := by
          rw [TextsFit, TextsFit, List.forall_mem_cons, htakes, List.flatten_cons,
            List.length_append, and_iff_right hfit]
        rw [hwrite, ok_bind, hiff]
        rcases ih ⟨fd, out.sent ++ bytes s⟩ with hfail | ⟨hyes, fd', hrun, htakes'⟩
        · exact .inl hfail
        · refine .inr ⟨hyes, fd', ?_, fun m => ?_⟩
          · rw [hrun, bytes_append, List.append_assoc]
          · rw [htakes', htakes, Nat.add_assoc]

/-- A function sends an answer, or does not return when it cannot be sent. -/
def Sends (x : Except Fault Out) (out : Out) (a : Answer) : Prop :=
  (¬ a.Sendable out.fd ∧ ¬ Returns x) ∨
    a.Sendable out.fd ∧ ∃ fd, x = .ok ⟨fd, out.sent ++ a.sent⟩

theorem clienterror_spec (out : Out) (cause errnum shortmsg longmsg : List Char) :
    Sends (clienterror out cause errnum shortmsg longmsg) out
      (.error cause errnum shortmsg longmsg) := by
  have hiff : (Answer.error cause errnum shortmsg longmsg).Sendable out.fd ↔
      TextsFit (errorTexts cause errnum shortmsg longmsg) out.fd := by
    refine ⟨fun h => ⟨h.1, h.2.1⟩, fun h => ⟨h.1, h.2, fun filename file heq => ?_⟩⟩
    cases heq
  rw [Sends, clienterror, hiff]
  rcases writeAll_spec out (errorTexts cause errnum shortmsg longmsg) with hfail |
    ⟨hyes, fd, hrun, -⟩
  · exact .inl hfail
  · refine .inr ⟨hyes, fd, ?_⟩
    rw [hrun, Answer.sent, Answer.body, List.append_nil]
    rfl

theorem serveDynamic_spec (out : Out) (file : FileInfo) (cgiargs : List Char) :
    Sends (serveDynamic out file cgiargs) out (.program (file.run cgiargs)) := by
  have hiff : (Answer.program (file.run cgiargs)).Sendable out.fd ↔
      TextsFit [okLine, serverLine] out.fd := by
    refine ⟨fun h => ⟨h.1, h.2.1⟩, fun h => ⟨h.1, h.2, fun filename file heq => ?_⟩⟩
    cases heq
  rw [Sends, serveDynamic, hiff]
  rcases writeAll_spec out [okLine, serverLine] with ⟨hno, hrun⟩ | ⟨hyes, fd, hrun, -⟩
  · exact .inl ⟨hno, not_returns_bind hrun⟩
  · refine .inr ⟨hyes, fd, ?_⟩
    rw [hrun, ok_bind, Answer.sent, List.append_assoc]
    rfl

theorem serveStatic_spec (out : Out) (file : FileInfo) (filename : List Char) :
    Sends (serveStatic out file filename file.filesize) out (.content filename file) := by
  have htexts : (Answer.content filename file).texts =
      [okLine, serverLine, lengthLine file.filesize, typeLine (getFiletype filename)] := rfl
  rw [Sends, serveStatic, ← htexts]
  rcases writeAll_spec out (Answer.content filename file).texts with ⟨hno, hrun⟩ |
    ⟨hyes, fd, hrun, htakes⟩
  · refine .inl ⟨fun h => hno ⟨h.1, h.2.1.mono (Nat.le_add_right _ _)⟩, not_returns_bind hrun⟩
  rw [hrun, ok_bind]
  have hopens : (Answer.content filename file).Sendable out.fd → file.opens = true :=
    fun h => (h.2.2 filename file rfl).1
  by_cases hopen : file.opens = true
  case neg =>
    rw [if_neg hopen]
    exact .inl ⟨fun h => hopen (hopens h), not_returns_error _⟩
  rw [if_pos hopen, mmap]
  by_cases hpos : 0 < file.filesize
  case neg =>
    rw [if_neg hpos]
    exact .inl ⟨fun h => hpos (h.2.2 filename file rfl).2, not_returns_error _⟩
  rw [if_pos hpos]
  have hiff : (Answer.content filename file).Sendable out.fd ↔
      fd.Takes (file.content.take file.filesize.toNat).length := by
    rw [htakes]
    refine ⟨fun h => h.2.1, fun h => ⟨hyes.1, h, fun filename' file' heq => ?_⟩⟩
    cases heq
    exact ⟨hopen, hpos⟩
  rw [hiff]
  dsimp only
  rcases rioWritenOrExit_spec fd (file.content.take file.filesize.toNat).length with
    ⟨hno, hwrite⟩ | ⟨htaken, fd', hwrite, -⟩
  · rw [hwrite]
    exact .inl ⟨hno, not_returns_error _⟩
  · rw [hwrite, ok_bind, Answer.sent, ← List.append_assoc]
    exact .inr ⟨htaken, fd', rfl⟩

/-! ### The URI -/

/-- The parts of a string before and behind a character that is found. -/
theorem parts_of_strchr {s : List Char} {c : Char} {k : ℕ} (hs : nul ∉ s)
    (h : strchr s 0 c = some k) :
    s.take k = s.takeWhile (· ≠ c) ∧ s.drop (k + 1) = (s.dropWhile (· ≠ c)).tail := by
  rw [strchr_eq_cut (i := 0) hs] at h
  obtain ⟨⟨w, r⟩, hcut, rfl⟩ := Option.map_eq_some_iff.1 h
  rw [List.drop_zero] at hcut
  obtain ⟨htake, hdrop⟩ := of_cut_some hcut
  rw [htake, hdrop, (cut_some hcut).1, Nat.zero_add]
  exact ⟨List.take_left, by simp⟩

/-- The parts of a string without the character. -/
theorem parts_of_strchr_none {s : List Char} {c : Char} (hs : nul ∉ s)
    (h : strchr s 0 c = none) : s.takeWhile (· ≠ c) = s ∧ (s.dropWhile (· ≠ c)).tail = [] := by
  rw [strchr_eq_cut (i := 0) hs] at h
  obtain ⟨htake, hdrop⟩ := of_cut_none (Option.map_eq_none_iff.1 h)
  rw [List.drop_zero] at htake hdrop
  exact ⟨htake, by rw [hdrop]; rfl⟩

theorem strstr_eq_none_iff {s pat : List Char} (hs : nul ∉ s) :
    strstr s 0 pat = none ↔ ¬ pat <:+: s := by
  rw [strstr, Option.map_eq_none_iff, findSub_eq_none_iff, cstr_eq_drop (i := 0) hs, List.drop_zero]

/-- `sprintf` into an array that is followed by something. -/
theorem sprintf_bind {α : Type} (s : List Char) (f : List Char → Except Fault α) :
    (s.length < maxline ∧ (sprintf s >>= f) = f s) ∨
      ¬ s.length < maxline ∧ ¬ Returns (sprintf s >>= f) := by
  rw [sprintf]
  by_cases hfit : s.length < maxline
  · rw [if_pos hfit]
    exact .inl ⟨hfit, rfl⟩
  · rw [if_neg hfit]
    exact .inr ⟨hfit, not_returns_error _⟩

/-- A URI that names a program. -/
theorem parseUri_program {uri : List Char} (hnul : nul ∉ uri) (hprogram : IsProgram uri) :
    ∃ filename, parseUri uri = (do
        let filename ← sprintf filename
        return { isStatic := false, filename := filename, cgiargs := argsOf uri }) ∧
      filename = filenameOf uri := by
  have hname : filenameOf uri = '.' :: uri.takeWhile (· ≠ '?') := if_pos hprogram
  obtain ⟨k, hk⟩ := Option.ne_none_iff_exists'.1 fun h => (strstr_eq_none_iff hnul).1 h hprogram
  rw [parseUri, hk]
  dsimp only
  cases hq : strchr uri 0 '?' with
  | none =>
      obtain ⟨htake, hargs⟩ := parts_of_strchr_none hnul hq
      refine ⟨'.' :: uri, ?_, by rw [hname, htake]⟩
      rw [argsOf, hargs]
  | some ptr =>
      obtain ⟨htake, hargs⟩ := parts_of_strchr hnul hq
      refine ⟨'.' :: uri.take ptr, ?_, by rw [hname, htake]⟩
      rw [argsOf, ← hargs]

/-- **What `parse_uri` does.** -/
theorem parseUri_spec {uri : List Char} (hnul : nul ∉ uri) :
    (¬ Nameable uri ∧ ¬ Returns (parseUri uri)) ∨
      Nameable uri ∧ parseUri uri = .ok ⟨!decide (IsProgram uri), filenameOf uri,
        if IsProgram uri then argsOf uri else []⟩ := by
  by_cases hprogram : IsProgram uri
  · obtain ⟨filename, hparse, rfl⟩ := parseUri_program hnul hprogram
    have hiff : Nameable uri ↔ (filenameOf uri).length < maxline :=
      ⟨And.left, fun h => ⟨h, absurd hprogram⟩⟩
    rw [hparse, hiff, if_pos hprogram, decide_eq_true hprogram]
    rcases sprintf_bind (filenameOf uri) fun filename => Except.ok
        ({ isStatic := false, filename := filename, cgiargs := argsOf uri } : Target) with
      ⟨hfit, hrun⟩ | hno
    · exact .inr ⟨hfit, hrun⟩
    · exact .inl hno
  rw [if_neg hprogram, decide_eq_false hprogram, parseUri, (strstr_eq_none_iff hnul).2 hprogram]
  dsimp only
  have hname : filenameOf uri = if uri.getLast? = some '/' then '.' :: uri ++ homeHtml
      else '.' :: uri := if_neg hprogram
  have hlonger : ('.' :: uri).length ≤ (filenameOf uri).length := by
    rw [hname]
    split
    · exact (List.sublist_append_left _ _).length_le
    · exact Nat.le_refl _
  by_cases hfit : ('.' :: uri).length < maxline
  case neg =>
    rw [sprintf, if_neg hfit]
    exact .inl ⟨fun h => hfit (Nat.lt_of_le_of_lt hlonger h.1), not_returns_error _⟩
  rw [sprintf, if_pos hfit, ok_bind]
  cases hlast : uri.getLast? with
  | none =>
      have hnil := List.getLast?_eq_none_iff.1 hlast
      exact .inl ⟨fun h => h.2 hprogram hnil, not_returns_error _⟩
  | some c =>
      have hne : uri ≠ [] := by
        rintro rfl
        cases hlast
      have hiff : Nameable uri ↔ (filenameOf uri).length < maxline :=
        ⟨And.left, fun h => ⟨h, fun _ => hne⟩⟩
      simp only [hlast, Option.some.injEq] at hname
      dsimp only
      rw [hiff, hname]
      by_cases hslash : c = '/'
      · rw [if_pos hslash, if_pos hslash]
        rcases sprintf_bind ('.' :: uri ++ homeHtml) fun filename => Except.ok
            ({ isStatic := true, filename := filename, cgiargs := [] } : Target) with
          ⟨hfit', hrun⟩ | hno
        · exact .inr ⟨hfit', hrun⟩
        · exact .inl hno
      · rw [if_neg hslash, if_neg hslash]
        exact .inr ⟨hfit, rfl⟩

/-- **What is sent is the answer.** -/
theorem serveUri_spec (files : Files) {uri : List Char} (hnul : nul ∉ uri) (out : Out) :
    (¬ (Nameable uri ∧ (answerUri files uri).Sendable out.fd) ∧
        ¬ Returns (serveUri files uri out)) ∨
      (Nameable uri ∧ (answerUri files uri).Sendable out.fd) ∧
        ∃ fd, serveUri files uri out = .ok ⟨fd, out.sent ++ (answerUri files uri).sent⟩ := by
  rw [serveUri]
  rcases parseUri_spec hnul with ⟨hno, hparse⟩ | ⟨hyes, hparse⟩
  · exact .inl ⟨fun h => hno h.1, not_returns_bind hparse⟩
  rw [hparse, ok_bind, and_iff_right hyes, answerUri]
  dsimp only
  cases hfile : files (filenameOf uri) with
  | none => exact clienterror_spec out _ _ _ _
  | some file =>
      dsimp only
      by_cases hprogram : IsProgram uri
      · rw [decide_eq_true hprogram, if_pos hprogram, if_pos hprogram, Bool.not_true,
          if_neg Bool.false_ne_true, ← Bool.not_and]
        cases file.regular && file.executable with
        | false => exact clienterror_spec out _ _ _ _
        | true => exact serveDynamic_spec out file _
      · rw [decide_eq_false hprogram, if_neg hprogram, if_neg hprogram, Bool.not_false,
          if_pos rfl, ← Bool.not_and]
        cases file.regular && file.readable with
        | false => exact clienterror_spec out _ _ _ _
        | true => exact serveStatic_spec out file _

end Tiny
