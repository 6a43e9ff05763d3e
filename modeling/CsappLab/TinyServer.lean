/-
**The Tiny web server, connection after connection.**

What `doit` does with a connection depends on the pieces in which `rio_readlineb` delivers the
client's text, and on nothing else: the first piece is the request line, and the header ends with
the first blank line behind it.  With it the call sends the answer of the request.  Without it the
call ends the process if a read fails, and never returns if the client just stops sending; then no
other client is served any more.

Main definitions:

* `Tiny.Settles` — a loop ends, for a bound that is large enough, and with a certain result;
* `Tiny.Connection.Answered`, `Tiny.Connection.Hangs` — what has to hold for an answer, and when
  there is no end;
* `Tiny.Connection.reply` — what should be sent.

Main results:

* `Tiny.readRequesthdrs_spec` — when the header ends;
* `Tiny.doit_spec` — what comes of a connection;
* `Tiny.serve_outcome` — **what the loop of `main` sends, and when it goes on for ever**;
* `Tiny.exitsOnly_doit` — the requests with which nothing but an exit can go wrong;
* `Tiny.content_framed` — a client that reads what was sent of a file.
-/

import CsappLab.TinyModel

set_option relaxedAutoImplicit false
set_option autoImplicit false

namespace Tiny

open CText Chunked Proxy

/-! ### The header -/

/-- A computation ends with a result that satisfies `P`: it does when it is granted more than `n`
turns, and with fewer it does or has no result yet. -/
def Settles {α : Type} (x : ℕ → Option α) (n : ℕ) (P : α → Prop) : Prop :=
  ∀ fuel, (x fuel = none ∧ fuel ≤ n) ∨ ∃ r, x fuel = some r ∧ P r

section Settles

variable {α β : Type} {x y : ℕ → Option α} {m n fuel : ℕ} {P : α → Prop} {r : α}

theorem Settles.exists (h : Settles x n P) : ∃ r, x (n + 1) = some r ∧ P r := by
  rcases h (n + 1) with ⟨-, hle⟩ | hr
  · exact absurd hle (Nat.not_succ_le_self n)
  · exact hr

theorem Settles.of_some (h : Settles x n P) (hr : x fuel = some r) : P r := by
  rcases h fuel with ⟨hnone, -⟩ | ⟨r', hr', hP⟩
  · rw [hnone] at hr
    cases hr
  · rw [hr'] at hr
    cases hr
    exact hP

/-- A loop that ends in its first turn. -/
theorem settles_at_once (hzero : x 0 = none) (hsucc : ∀ fuel, x (fuel + 1) = some r) (hP : P r) :
    Settles x n P := by
  intro fuel
  cases fuel with
  | zero => exact .inl ⟨hzero, Nat.zero_le n⟩
  | succ fuel => exact .inr ⟨r, hsucc fuel, hP⟩

/-- One more turn. -/
theorem Settles.succ (h : Settles y m P) (hmn : m < n) (hzero : x 0 = none)
    (hsucc : ∀ fuel, x (fuel + 1) = y fuel) : Settles x n P := by
  intro fuel
  cases fuel with
  | zero => exact .inl ⟨hzero, Nat.zero_le n⟩
  | succ fuel =>
      rw [hsucc]
      refine (h fuel).imp_left fun hnone => ⟨hnone.1, ?_⟩
      omega

/-- What is made of the result. -/
theorem Settles.map {Q : β → Prop} (h : Settles x m P) (hmn : m ≤ n) {f : α → β}
    (hf : ∀ r, P r → Q (f r)) : Settles (fun fuel => (x fuel).map f) n Q := by
  intro fuel
  rcases h fuel with ⟨hnone, hle⟩ | ⟨r, hr, hP⟩
  · exact .inl ⟨congrArg (Option.map f) hnone, Nat.le_trans hle hmn⟩
  · exact .inr ⟨f r, congrArg (Option.map f) hr, hf r hP⟩

end Settles

/-- The header ends: a blank line comes, or nothing does and the array held one. -/
def HeaderEnds (rp : Rio Char) (buf : List Char) : Prop :=
  endofHdr ∈ pieces rp ∨ rp.elems = [] ∧ rp.fails = false ∧ buf = endofHdr

/-- Behind the end of the file there is nothing, as often as one looks. -/
theorem readlineb_eof {rp : Rio Char} (hnil : rp.elems = []) (hfails : rp.fails = false) :
    ∃ rp', rioReadlinebOrExit newline rp maxline = .ok ([], rp') ∧ rp'.elems = [] ∧
      rp'.fails = false := by
  rcases rioReadlineb_spec newline rp maxline with ⟨⟨hfails', -⟩, -⟩ | ⟨-, rp', hread, hafter⟩
  · rw [hfails] at hfails'
    cases hfails'
  · rw [hnil] at hread
    have helems := hafter.elems
    rw [hnil, List.drop_nil] at helems
    refine ⟨rp', ?_, helems, hafter.fails.trans hfails⟩
    rw [rioReadlinebOrExit, hread]
    rfl

theorem readRequesthdrs_eof {rp : Rio Char} (hnil : rp.elems = []) (hfails : rp.fails = false)
    {buf : List Char} (hbuf : buf ≠ endofHdr) (fuel : ℕ) : readRequesthdrs fuel rp buf = none := by
  induction fuel generalizing rp with
  | zero => rfl
  | succ fuel ih =>
      obtain ⟨rp', hread, hnil', hfails'⟩ := readlineb_eof hnil hfails
      rw [readRequesthdrs, hread]
      dsimp only
      rw [if_neg hbuf]
      exact ih hnil' hfails'

/-- **When the header ends.** -/
theorem readRequesthdrs_spec (rp : Rio Char) (buf : List Char) :
    (HeaderEnds rp buf ∧ Settles (readRequesthdrs · rp buf) rp.elems.length Returns) ∨
      (¬ HeaderEnds rp buf ∧ rp.fails = true ∧
        Settles (readRequesthdrs · rp buf) rp.elems.length (¬ Returns ·)) ∨
      ¬ HeaderEnds rp buf ∧ rp.fails = false ∧ ∀ fuel, readRequesthdrs fuel rp buf = none := by
  induction hn : rp.elems.length using Nat.strong_induction_on generalizing rp buf with
  | _ n ih =>
      rcases rioReadlinebOrExit_spec newline rp with ⟨hfails, hno, hread⟩ |
        ⟨hfails, hnil, rp', hread⟩ | ⟨c, cs, rp', hread, hpieces, hsplit, hfails⟩
      · -- a read fails before the line is complete
        refine .inr (.inl ⟨?_, hfails, settles_at_once rfl (fun fuel => ?_)
          (not_returns_error (.exited "Rio_readlineb error"))⟩)
        · rintro (hmem | ⟨-, hok, -⟩)
          · have hline := hno '\n' (mem_elems_of_mem_piece hmem (by decide))
            cases hline
          · rw [hfails] at hok
            cases hok
        · rw [readRequesthdrs, hread]
      · by_cases hbuf : buf = endofHdr
        · refine .inl ⟨.inr ⟨hnil, hfails, hbuf⟩,
            settles_at_once rfl (fun fuel => ?_) (returns_ok rp')⟩
          rw [readRequesthdrs, hread]
          exact if_pos hbuf
        · refine .inr (.inr ⟨?_, hfails, readRequesthdrs_eof hnil hfails hbuf⟩)
          rintro (hmem | ⟨-, -, hline⟩)
          · rw [pieces_of_nil hnil] at hmem
            cases hmem
          · exact hbuf hline
      · replace hpieces : pieces rp = (c :: cs) :: pieces rp' := hpieces
        have hmem : c :: cs ∈ pieces rp := hpieces ▸ List.mem_cons_self
        have hblank := cstr_eq_endofHdr (newline_notMem_dropLast hmem)
        have hne : rp.elems ≠ [] := by
          rw [hsplit]
          exact List.cons_ne_nil _ _
        by_cases hend : c :: cs = endofHdr
        · refine .inl ⟨.inl (hend ▸ hmem), settles_at_once rfl (fun fuel => ?_) (returns_ok rp')⟩
          rw [readRequesthdrs, hread]
          exact if_pos (hblank.2 hend)
        · have hbuf : cstr (c :: cs) 0 ≠ endofHdr := fun h => hend (hblank.1 h)
          have hlt : rp'.elems.length < n := by
            rw [← hn, hsplit, List.length_append, List.length_cons]
            omega
          have hnext (fuel : ℕ) : readRequesthdrs (fuel + 1) rp buf =
              readRequesthdrs fuel rp' (cstr (c :: cs) 0) := by
            rw [readRequesthdrs, hread]
            exact if_neg hbuf
          have hiff : HeaderEnds rp buf ↔ HeaderEnds rp' (cstr (c :: cs) 0) := by
            rw [HeaderEnds, HeaderEnds, hpieces, List.mem_cons]
            constructor
            · rintro ((heq | hmem) | ⟨hnil, -, -⟩)
              · exact absurd heq.symm hend
              · exact .inl hmem
              · exact absurd hnil hne
            · rintro (hmem | ⟨-, -, heq⟩)
              · exact .inl (.inr hmem)
              · exact absurd heq hbuf
          rw [hiff, ← hfails]
          rcases ih _ hlt rp' (cstr (c :: cs) 0) rfl with ⟨hends, hrun⟩ | ⟨hno, hfails', hrun⟩ |
            ⟨hno, hfails', hrun⟩
          · exact .inl ⟨hends, hrun.succ hlt rfl hnext⟩
          · exact .inr (.inl ⟨hno, hfails', hrun.succ hlt rfl hnext⟩)
          · refine .inr (.inr ⟨hno, hfails', fun fuel => ?_⟩)
            cases fuel with
            | zero => rfl
            | succ fuel => exact (hnext fuel).trans (hrun fuel)

/-! ### One connection -/

namespace Connection

variable (files : Files) (c : Connection)

/-- The method and the URI of a request line. -/
def words (line : List Char) : List Char × List Char := scanRequest (cstr line 0) c.garbage

/-- A request line asks for `GET`. -/
def IsGet (line : List Char) : Prop := strcasecmp (c.words line).1 getName = true

/-- The header behind the request line ends. -/
def HeaderComes (ls : List (List Char)) : Prop :=
  endofHdr ∈ ls ∨ ls = [] ∧ c.rio.fails = false ∧ c.garbage.line.chars = endofHdr

/-- The answer of a request line. -/
def answer (line : List Char) : Answer := Tiny.answer files (c.words line).1 (c.words line).2

/-- **What should be sent** on the connection. -/
def reply : List UInt8 :=
  match pieces c.rio with
  | [] => []
  | line :: _ => (c.answer files line).sent

/-- What has to hold for a request line that is read. -/
structure LineAnswered (line : List Char) (ls : List (List Char)) : Prop where
  header : c.IsGet line → c.HeaderComes ls
  name : c.IsGet line → Nameable (c.words line).2
  sendable : (c.answer files line).Sendable c.fd

/-- **What has to hold for an answer.** -/
structure Answered : Prop where
  line : ¬ ReadFails newline (maxline - 1) c.rio
  request : ∀ line ls, pieces c.rio = line :: ls → c.LineAnswered files line ls

/-- **The call never returns**: the client asks for `GET` and stops before a blank line. -/
def Hangs : Prop :=
  ∃ line ls, pieces c.rio = line :: ls ∧ ¬ ReadFails newline (maxline - 1) c.rio ∧ c.IsGet line ∧
    ¬ c.HeaderComes ls ∧ c.rio.fails = false

end Connection

theorem pieces_eq_nil_iff {rp : Rio Char} : pieces rp = [] ↔ rp.elems = [] := by
  refine ⟨fun h => ?_, pieces_of_nil⟩
  rw [← flatten_lines newline (maxline - 2) rp.elems]
  exact congrArg List.flatten h

/-- **What the reading of the request line meets**: a failure, no client, or the first piece. -/
theorem readLine_spec (rp : Rio Char) :
    (ReadFails newline (maxline - 1) rp ∧
        rioReadlinebOrExit newline rp maxline = .error (.exited "Rio_readlineb error")) ∨
      (¬ ReadFails newline (maxline - 1) rp ∧ pieces rp = [] ∧
        ∃ rp', rioReadlinebOrExit newline rp maxline = .ok ([], rp')) ∨
      ¬ ReadFails newline (maxline - 1) rp ∧ ∃ c cs rp',
        rioReadlinebOrExit newline rp maxline = .ok (c :: cs, rp') ∧
          pieces rp = (c :: cs) :: pieces rp' ∧ rp'.elems.length ≤ rp.elems.length ∧
          rp'.fails = rp.fails := by
  rcases rioReadlineb_spec newline rp maxline with ⟨hfails, hread⟩ | ⟨hok, rp₁, hread, -⟩
  · exact .inl ⟨hfails, by rw [rioReadlinebOrExit, hread]⟩
  rcases rioReadlinebOrExit_spec newline rp with ⟨-, -, hread'⟩ | ⟨-, hnil, rp', hread'⟩ |
    ⟨c, cs, rp', hread', hpieces, hsplit, hfails⟩
  · rw [rioReadlinebOrExit, hread] at hread'
    cases hread'
  · exact .inr (.inl ⟨hok, pieces_of_nil hnil, rp', hread'⟩)
  · refine .inr (.inr ⟨hok, c, cs, rp', hread', hpieces, ?_, hfails⟩)
    rw [hsplit, List.length_append]
    omega

/-- The words of a request line are C strings. -/
theorem nul_notMem_uri (line : List Char) (g : Garbage) :
    nul ∉ (scanRequest (cstr line 0) g).2 := by
  have hline := nul_notMem_cstr line 0
  rw [scanRequest]
  cases hfirst : scanS maxline (cstr line 0) with
  | none => exact g.uri.nul_notMem
  | some words =>
      obtain ⟨method, s⟩ := words
      dsimp only
      cases hsecond : scanS maxline s with
      | none => exact g.uri.nul_notMem
      | some words =>
          obtain ⟨uri, r⟩ := words
          intro hmem
          have hs := ((scanS_some hsecond).2.2 nul hmem).2
          exact hline ((scanS_suffix hfirst).subset (List.mem_append_right method hs))

/-- **What comes of a connection**: the answer, the end of the process, or nothing ever. -/
theorem doit_spec (files : Files) (c : Connection) :
    (c.Answered files ∧ Settles (fun fuel => doit fuel c.garbage files c.rio c.fd)
        c.rio.elems.length fun r => ∃ fd, r = .ok ⟨fd, c.reply files⟩) ∨
      (¬ c.Answered files ∧ ¬ c.Hangs ∧ Settles (fun fuel => doit fuel c.garbage files c.rio c.fd)
        c.rio.elems.length (¬ Returns ·)) ∨
      ¬ c.Answered files ∧ c.Hangs ∧ ∀ fuel, doit fuel c.garbage files c.rio c.fd = none := by
  rcases readLine_spec c.rio with ⟨hfails, hread⟩ | ⟨hok, hpieces, rp', hread⟩ |
    ⟨hok, x, xs, rio, hread, hpieces, hlen, hfails⟩
  · refine .inr (.inl ⟨fun h => h.line hfails, ?_, fun fuel => .inr ⟨_, ?_, not_returns_error
      (.exited "Rio_readlineb error")⟩⟩)
    · rintro ⟨line, ls, -, hno, -⟩
      exact hno hfails
    · simp only [doit, hread]
  · refine .inl ⟨⟨hok, fun line ls h => ?_⟩, fun fuel => .inr ⟨_, ?_, c.fd, rfl⟩⟩
    · rw [hpieces] at h
      cases h
    · simp only [doit, hread, Connection.reply, hpieces]
  -- the rest is about the first piece
  have hanswered : c.Answered files ↔ c.LineAnswered files (x :: xs) (pieces rio) := by
    refine ⟨fun h => h.request _ _ hpieces, fun h => ⟨hok, fun line ls heq => ?_⟩⟩
    rw [hpieces] at heq
    cases heq
    exact h
  have hhangs : c.Hangs ↔ c.IsGet (x :: xs) ∧ ¬ c.HeaderComes (pieces rio) ∧
      c.rio.fails = false := by
    constructor
    · rintro ⟨line, ls, heq, -, h⟩
      rw [hpieces] at heq
      cases heq
      exact h
    · exact fun h => ⟨_, _, hpieces, hok, h⟩
  have hreply : c.reply files = (c.answer files (x :: xs)).sent := by
    rw [Connection.reply, hpieces]
  have hheader : HeaderEnds rio c.garbage.line.chars ↔ c.HeaderComes (pieces rio) := by
    rw [HeaderEnds, Connection.HeaderComes, pieces_eq_nil_iff, hfails]
  rw [hanswered, hhangs, hreply]
  by_cases hget : c.IsGet (x :: xs)
  case neg =>
    -- the error page is all there is
    have hanswer : c.answer files (x :: xs) = .error (c.words (x :: xs)).1 "501".toList
        "Not Implemented".toList "Tiny does not implement this method".toList := if_neg hget
    have hdoit (fuel : ℕ) : doit fuel c.garbage files c.rio c.fd = some (clienterror ⟨c.fd, []⟩
        (c.words (x :: xs)).1 "501".toList "Not Implemented".toList
        "Tiny does not implement this method".toList) := by
      simp only [doit, hread]
      exact if_neg hget
    have hiff : c.LineAnswered files (x :: xs) (pieces rio) ↔
        (c.answer files (x :: xs)).Sendable c.fd :=
      ⟨fun h => h.sendable, fun h =>
          ⟨fun hyes => absurd hyes hget, fun hyes => absurd hyes hget, h⟩⟩
    rw [hiff, hanswer]
    rcases clienterror_spec ⟨c.fd, []⟩ (c.words (x :: xs)).1 "501".toList "Not Implemented".toList
      "Tiny does not implement this method".toList with ⟨hno, hrun⟩ | ⟨hyes, fd, hrun⟩
    · exact .inr (.inl ⟨hno, fun h => hget h.1, fun fuel => .inr ⟨_, hdoit fuel, hrun⟩⟩)
    · exact .inl ⟨hyes, fun fuel => .inr ⟨_, hdoit fuel, fd, hrun⟩⟩
  have hanswer : c.answer files (x :: xs) = answerUri files (c.words (x :: xs)).2 := if_pos hget
  have hdoit : (fun fuel => doit fuel c.garbage files c.rio c.fd) = fun fuel =>
      (readRequesthdrs fuel rio c.garbage.line.chars).map fun r =>
        r >>= fun _ => serveUri files (c.words (x :: xs)).2 ⟨c.fd, []⟩ := by
    funext fuel
    simp only [doit, hread]
    refine (if_pos hget).trans ?_
    cases readRequesthdrs fuel rio c.garbage.line.chars with
    | none => rfl
    | some r => cases r <;> rfl
  rcases readRequesthdrs_spec rio c.garbage.line.chars with ⟨hends, hrun⟩ | ⟨hno, hfails', hrun⟩ |
    ⟨hno, hfails', hrun⟩
  · have hcomes := hheader.1 hends
    have hiff : c.LineAnswered files (x :: xs) (pieces rio) ↔
        Nameable (c.words (x :: xs)).2 ∧ (answerUri files (c.words (x :: xs)).2).Sendable c.fd := by
      rw [← hanswer]
      exact ⟨fun h => ⟨h.name hget, h.sendable⟩, fun h => ⟨fun _ => hcomes, fun _ => h.1, h.2⟩⟩
    rw [hiff, hanswer, hdoit]
    rcases serveUri_spec files (nul_notMem_uri (x :: xs) c.garbage) ⟨c.fd, []⟩ with
      ⟨hno, hserve⟩ | ⟨hyes, fd, hserve⟩
    · refine .inr (.inl ⟨hno, fun h => h.2.1 hcomes, hrun.map hlen ?_⟩)
      rintro r ⟨rio', rfl⟩
      exact hserve
    · refine .inl ⟨hyes, hrun.map hlen ?_⟩
      rintro r ⟨rio', rfl⟩
      exact ⟨fd, hserve⟩
  · refine .inr (.inl ⟨fun h => hno (hheader.2 (h.header hget)), fun h => ?_, ?_⟩)
    · rw [← hfails, hfails'] at h
      cases h.2.2
    · rw [hdoit]
      exact hrun.map hlen fun r hr => not_returns_bind hr
  · refine .inr (.inr ⟨fun h => hno (hheader.2 (h.header hget)), ⟨hget, ?_, ?_⟩, fun fuel => ?_⟩)
    · exact fun h => hno (hheader.2 h)
    · exact hfails ▸ hfails'
    · refine (congrFun hdoit fuel).trans ?_
      rw [hrun fuel]
      rfl

/-! ### The loop of `main` -/

/-- A connection that is answered and closed. -/
def Connection.Done (files : Files) (c : Connection) : Prop :=
  c.Answered files ∧ c.closes = true

theorem Connection.Hangs.not_answered {files : Files} {c : Connection} (h : c.Hangs) :
    ¬ c.Answered files := by
  obtain ⟨line, ls, hpieces, -, hget, hno, -⟩ := h
  exact fun hc => hno ((hc.request line ls hpieces).header hget)

section Loop

variable {files : Files} {c : Connection} {cs post : List Connection}

/-- The turn for a connection that is done. -/
theorem serve_cons (cs : List Connection) (hc : c.Done files) (fuel : ℕ) :
    (serve fuel files (c :: cs) = none ∧ fuel ≤ c.rio.elems.length) ∨
      serve fuel files (c :: cs) =
        (serve fuel files cs).map fun r => r.map (c.reply files :: ·) := by
  rcases doit_spec files c with ⟨-, hrun⟩ | ⟨hno, -⟩ | ⟨hno, -⟩
  · rcases hrun fuel with ⟨hnone, hle⟩ | ⟨r, hsome, fd, rfl⟩
    · refine .inl ⟨?_, hle⟩
      simp only [serve, hnone]
    · refine .inr ?_
      simp only [serve, hsome, closeOrExit, if_pos hc.2]
  · exact absurd hc.1 hno
  · exact absurd hc.1 hno

/-- The loop behind a connection that is done. -/
theorem settles_cons (hc : c.Done files) {n : ℕ} {P Q : Except Fault (List (List UInt8)) → Prop}
    (h : Settles (serve · files cs) n P) (hPQ : ∀ r, P r → Q (r.map (c.reply files :: ·))) :
    Settles (serve · files (c :: cs)) (max n c.rio.elems.length) Q := by
  intro fuel
  rcases serve_cons cs hc fuel with ⟨hnone, hle⟩ | hserve
  · exact .inl ⟨hnone, Nat.le_trans hle (Nat.le_max_right _ _)⟩
  · dsimp only
    rw [hserve]
    exact h.map (Nat.le_max_left _ _) hPQ fuel

/-- All connections are done. -/
theorem serve_done (h : ∀ c ∈ cs, c.Done files) :
    ∃ n, Settles (serve · files cs) n (· = .ok (cs.map (·.reply files))) := by
  induction cs with
  | nil => exact ⟨0, fun fuel => .inr ⟨_, rfl, rfl⟩⟩
  | cons c cs ih =>
      obtain ⟨hc, hcs⟩ := List.forall_mem_cons.1 h
      obtain ⟨n, hrun⟩ := ih hcs
      refine ⟨_, settles_cons hc hrun fun r hr => ?_⟩
      rw [hr]
      rfl

/-- A client hangs up in its header. -/
theorem serve_hangs {pre : List Connection} (post : List Connection)
    (h : ∀ c ∈ pre, c.Done files) (hc : c.Hangs) (fuel : ℕ) :
    serve fuel files (pre ++ c :: post) = none := by
  induction pre with
  | nil =>
      rcases doit_spec files c with ⟨hyes, -⟩ | ⟨-, hno, -⟩ | ⟨-, -, hnone⟩
      · exact absurd hyes hc.not_answered
      · exact absurd hc hno
      · simp only [List.nil_append, serve, hnone fuel]
  | cons c' pre ih =>
      obtain ⟨hc', hpre⟩ := List.forall_mem_cons.1 h
      rcases serve_cons (pre ++ c :: post) hc' fuel with ⟨hnone, -⟩ | hserve
      · exact hnone
      · rw [List.cons_append, hserve, ih hpre]
        rfl

/-- Something goes wrong with a connection. -/
theorem serve_fails {pre : List Connection} (post : List Connection)
    (h : ∀ c ∈ pre, c.Done files) (hc : ¬ c.Done files) (hno : ¬ c.Hangs) :
    ∃ n, Settles (serve · files (pre ++ c :: post)) n (¬ Returns ·) := by
  induction pre with
  | nil =>
      refine ⟨c.rio.elems.length, fun fuel => ?_⟩
      rcases doit_spec files c with ⟨hyes, hrun⟩ | ⟨-, -, hrun⟩ | ⟨-, hyes, -⟩
      · rcases hrun fuel with ⟨hnone, hle⟩ | ⟨r, hsome, fd, rfl⟩
        · exact .inl ⟨by simp only [List.nil_append, serve, hnone], hle⟩
        · refine .inr ⟨.error (.exited "Close error"), ?_, not_returns_error _⟩
          simp only [List.nil_append, serve, hsome, closeOrExit, if_neg fun h => hc ⟨hyes, h⟩]
      · rcases hrun fuel with ⟨hnone, hle⟩ | ⟨r, hsome, hr⟩
        · exact .inl ⟨by simp only [List.nil_append, serve, hnone], hle⟩
        · cases r with
          | ok out => exact absurd (returns_ok out) hr
          | error e =>
              exact .inr ⟨.error e, by simp only [List.nil_append, serve, hsome],
                not_returns_error e⟩
      · exact absurd hyes hno
  | cons c' pre ih =>
      obtain ⟨hc', hpre⟩ := List.forall_mem_cons.1 h
      obtain ⟨n, hrun⟩ := ih hpre
      refine ⟨_, settles_cons hc' hrun fun r hr => ?_⟩
      cases r with
      | ok out => exact absurd (returns_ok out) hr
      | error e => exact not_returns_error e

/-- The first connection that is not done. -/
theorem exists_first_not_done (files : Files) (cs : List Connection) :
    (∀ c ∈ cs, c.Done files) ∨ ∃ pre c post, cs = pre ++ c :: post ∧
      (∀ c' ∈ pre, c'.Done files) ∧ ¬ c.Done files := by
  induction cs with
  | nil => exact .inl fun c hc => by cases hc
  | cons c cs ih =>
      by_cases hc : c.Done files
      · rcases ih with hall | ⟨pre, c', post, rfl, hpre, hc'⟩
        · exact .inl (List.forall_mem_cons.2 ⟨hc, hall⟩)
        · exact .inr ⟨c :: pre, c', post, rfl, List.forall_mem_cons.2 ⟨hc, hpre⟩, hc'⟩
      · exact .inr ⟨[], c, cs, rfl, (fun c' hc' => by cases hc'), hc⟩

end Loop

/-- **What the loop of `main` sends, and when it goes on for ever.**  The clients are answered if
nothing goes wrong with any of them; and the loop gets stuck at the first client that hangs up in
its header, if nothing went wrong before. -/
theorem serve_outcome (files : Files) (cs : List Connection) :
    (∀ sent, (∃ fuel, serve fuel files cs = some (.ok sent)) ↔
      (∀ c ∈ cs, c.Done files) ∧ sent = cs.map (·.reply files)) ∧
    ((∀ fuel, serve fuel files cs = none) ↔ ∃ pre c post, cs = pre ++ c :: post ∧
      (∀ c' ∈ pre, c'.Done files) ∧ c.Hangs) := by
  rcases exists_first_not_done files cs with hall | ⟨pre, c, post, hcs, hpre, hc⟩
  · obtain ⟨n, hrun⟩ := serve_done hall
    obtain ⟨r, hsome, rfl⟩ := hrun.exists
    refine ⟨fun sent => ⟨?_, ?_⟩, iff_of_false (fun hnone => ?_) ?_⟩
    · rintro ⟨fuel, hfuel⟩
      exact ⟨hall, Except.ok.inj (hrun.of_some hfuel)⟩
    · rintro ⟨-, rfl⟩
      exact ⟨_, hsome⟩
    · rw [hnone] at hsome
      cases hsome
    · rintro ⟨pre, c, post, rfl, -, hhangs⟩
      exact hhangs.not_answered (hall c (List.mem_append_right pre List.mem_cons_self)).1
  · have hnot : ¬ ∀ c ∈ cs, c.Done files := fun h =>
      hc (h c (hcs ▸ List.mem_append_right pre List.mem_cons_self))
    by_cases hhangs : c.Hangs
    · have hnone := serve_hangs post hpre hhangs
      rw [← hcs] at hnone
      refine ⟨fun sent => iff_of_false ?_ fun h => hnot h.1,
        iff_of_true hnone ⟨pre, c, post, hcs, hpre, hhangs⟩⟩
      rintro ⟨fuel, hfuel⟩
      rw [hnone] at hfuel
      cases hfuel
    · obtain ⟨n, hrun⟩ := serve_fails post hpre hc hhangs
      rw [← hcs] at hrun
      obtain ⟨r, hsome, hr⟩ := hrun.exists
      refine ⟨fun sent => iff_of_false ?_ fun h => hnot h.1, iff_of_false (fun hnone => ?_) ?_⟩
      · rintro ⟨fuel, hfuel⟩
        exact hrun.of_some hfuel (returns_ok sent)
      · rw [hnone] at hsome
        cases hsome
      · rintro ⟨pre', c', post', hcs', hpre', hhangs'⟩
        have hnone := serve_hangs post' hpre' hhangs' (n + 1)
        rw [← hcs'] at hnone
        rw [hnone] at hsome
        cases hsome

/-! ### Failures -/

/-- What fails here ends the process with a message. -/
def ExitsOnly {α : Type} (x : Except Fault α) : Prop :=
  ∀ e, x = .error e → ∃ msg, e = .exited msg

section Failures

variable {α β : Type}

theorem exitsOnly_ok (a : α) : ExitsOnly (.ok a) := by
  intro e h
  cases h

theorem exitsOnly_exited (msg : String) : ExitsOnly (.error (.exited msg) : Except Fault α) := by
  intro e h
  cases h
  exact ⟨msg, rfl⟩

/-- What fails is passed on by the caller. -/
theorem ExitsOnly.pass {e : Fault} (h : ExitsOnly (.error e : Except Fault α)) :
    ExitsOnly (.error e : Except Fault β) := by
  intro e' he
  cases he
  exact h e rfl

theorem ExitsOnly.bind {x : Except Fault α} {f : α → Except Fault β} (hx : ExitsOnly x)
    (hf : ∀ a, x = .ok a → ExitsOnly (f a)) : ExitsOnly (x >>= f) := by
  cases x with
  | ok a => exact hf a rfl
  | error e => exact hx.pass

/-- A computation that only exits, and does not return. -/
theorem ExitsOnly.of_not_returns {x : Except Fault α} (hx : ExitsOnly x) (h : ¬ Returns x) :
    ∃ msg, x = .error (.exited msg) := by
  cases x with
  | ok a => exact absurd (returns_ok a) h
  | error e =>
      obtain ⟨msg, rfl⟩ := hx e rfl
      exact ⟨msg, rfl⟩

theorem exitsOnly_rioReadlineb (rp : Rio Char) :
    ExitsOnly (rioReadlinebOrExit newline rp maxline) := by
  rw [rioReadlinebOrExit]
  cases rioReadlineb newline rp maxline with
  | none => exact exitsOnly_exited _
  | some r => exact exitsOnly_ok r

theorem exitsOnly_rioWriten (fd : Sink) (n : ℕ) : ExitsOnly (rioWritenOrExit fd n) := by
  rw [rioWritenOrExit]
  cases rioWriten fd n with
  | none => exact exitsOnly_exited _
  | some fd => exact exitsOnly_ok fd

/-- Texts that fit the array are sent, or a write fails. -/
theorem exitsOnly_writeAll (out : Out) {texts : List (List Char)}
    (h : ∀ s ∈ texts, s.length < maxline) : ExitsOnly (writeAll out texts) := by
  induction texts generalizing out with
  | nil => exact exitsOnly_ok out
  | cons s texts ih =>
      obtain ⟨hs, hrest⟩ := List.forall_mem_cons.1 h
      have htext : ExitsOnly (writeText out s) := by
        rw [writeText, sprintf, if_pos hs, ok_bind]
        exact (exitsOnly_rioWriten out.fd s.length).bind fun fd _ => exitsOnly_ok _
      exact htext.bind fun out _ => ih out hrest

theorem exitsOnly_serveStatic (out : Out) (file : FileInfo) (filename : List Char)
    (h : ∀ s ∈ (Answer.content filename file).texts, s.length < maxline) :
    ExitsOnly (serveStatic out file filename file.filesize) := by
  refine (exitsOnly_writeAll out h).bind fun out _ => ?_
  split
  · cases mmap file.content file.filesize with
    | none => exact exitsOnly_exited _
    | some srcp => exact (exitsOnly_rioWriten out.fd srcp.length).bind fun fd _ => exitsOnly_ok _
  · exact exitsOnly_exited _

/-- A URI that can be named is served, or the process exits, when the texts of its answer fit. -/
theorem exitsOnly_serveUri (files : Files) {uri : List Char} (hnul : nul ∉ uri)
    (hname : Nameable uri) (h : ∀ s ∈ (answerUri files uri).texts, s.length < maxline)
    (out : Out) : ExitsOnly (serveUri files uri out) := by
  rcases parseUri_spec hnul with ⟨hno, -⟩ | ⟨-, hparse⟩
  · exact absurd hname hno
  rw [serveUri, hparse, ok_bind]
  dsimp only
  cases hfile : files (filenameOf uri) with
  | none =>
      simp only [answerUri, hfile] at h
      exact exitsOnly_writeAll out h
  | some file =>
      simp only [answerUri, hfile] at h
      dsimp only
      by_cases hprogram : IsProgram uri
      · rw [if_pos hprogram] at h
        rw [decide_eq_true hprogram, Bool.not_true, if_neg Bool.false_ne_true, ← Bool.not_and]
        cases hrun : file.regular && file.executable with
        | false =>
            rw [hrun] at h
            exact exitsOnly_writeAll out h
        | true =>
            rw [hrun] at h
            exact (exitsOnly_writeAll out h).bind fun out _ => exitsOnly_ok _
      · rw [if_neg hprogram] at h
        rw [decide_eq_false hprogram, Bool.not_false, if_pos rfl, ← Bool.not_and]
        cases hread : file.regular && file.readable with
        | false =>
            rw [hread] at h
            exact exitsOnly_writeAll out h
        | true =>
            rw [hread] at h
            exact exitsOnly_serveStatic out file _ h

theorem exitsOnly_readRequesthdrs {fuel : ℕ} {rp : Rio Char} {buf : List Char}
    {r : Except Fault (Rio Char)} (h : readRequesthdrs fuel rp buf = some r) : ExitsOnly r := by
  induction fuel generalizing rp buf with
  | zero => cases h
  | succ fuel ih =>
      rw [readRequesthdrs] at h
      cases hread : rioReadlinebOrExit newline rp maxline with
      | error e =>
          have hexits := exitsOnly_rioReadlineb rp
          rw [hread] at h hexits
          cases h
          exact hexits.pass
      | ok read =>
          rw [hread] at h
          obtain ⟨_ | ⟨c, cs⟩, rp'⟩ := read <;> dsimp only at h <;> split at h
          · cases h
            exact exitsOnly_ok _
          · exact ih h
          · cases h
            exact exitsOnly_ok _
          · exact ih h

/-- **A `GET` request for a URI that can be named** is answered, or the process exits, or the header
does not end. -/
theorem exitsOnly_doit (files : Files) (c : Connection) {line : List Char} {ls : List (List Char)}
    (hpieces : pieces c.rio = line :: ls) (hget : c.IsGet line)
    (hname : Nameable (c.words line).2)
    (htexts : ∀ s ∈ (answerUri files (c.words line).2).texts, s.length < maxline) {fuel : ℕ}
    {r : Except Fault Out} (h : doit fuel c.garbage files c.rio c.fd = some r) : ExitsOnly r := by
  rcases readLine_spec c.rio with ⟨-, hread⟩ | ⟨-, hnil, -⟩ | ⟨-, x, xs, rio, hread, hcons, -⟩
  · simp only [doit, hread] at h
    cases h
    exact exitsOnly_exited _
  · rw [hnil] at hpieces
    cases hpieces
  · rw [hcons] at hpieces
    cases hpieces
    simp only [doit, hread] at h
    replace h := (if_pos hget).symm.trans h
    cases hhdrs : readRequesthdrs fuel rio c.garbage.line.chars with
    | none =>
        rw [hhdrs] at h
        cases h
    | some hdrs =>
        rw [hhdrs] at h
        cases hdrs with
        | error e =>
            cases h
            exact (exitsOnly_readRequesthdrs hhdrs).pass
        | ok rio' =>
            cases h
            exact exitsOnly_serveUri files (nul_notMem_uri _ c.garbage) hname htexts _

end Failures

/-! ### Files as a client reads them -/

theorem filetype_plain (filename : List Char) :
    '\n' ∉ getFiletype filename ∧ (getFiletype filename).length ≤ 10 := by
  unfold getFiletype
  split_ifs <;> decide

theorem decimal_plain (v : ℤ) : '\n' ∉ printD v := by
  have hdigits : '\n' ∉ Nat.toDigits 10 v.natAbs := fun hmem => by
    have := Nat.isDigit_of_mem_toDigits (by decide) (by decide) hmem
    cases this
  rw [printD]
  split
  · simpa using hdigits
  · exact hdigits

/-- An `int` has at most ten digits and a sign. -/
theorem length_printD {v : ℤ} (hlo : -2 ^ 31 ≤ v) (hhi : v < 2 ^ 31) : (printD v).length ≤ 11 := by
  have hdigits : (Nat.toDigits 10 v.natAbs).length ≤ 10 := by
    rw [Nat.length_toDigits_le_iff (by decide) (by decide)]
    omega
  rw [printD]
  split
  · exact Nat.succ_le_succ hdigits
  · exact Nat.le_succ_of_le hdigits

theorem line_ne_endofHdr {l : List Char} (hl : l ≠ []) : l ++ endofHdr ≠ endofHdr := fun h =>
  hl (List.append_left_eq_self.1 h)

/-- A short line is a piece. -/
theorem isPiece_of_short {l : List Char} (hl : '\n' ∉ l) (hlen : l.length < 100) :
    ∃ w x, l ++ endofHdr = w ++ [x] ∧ (∀ y ∈ w, newline y = false) ∧ newline x = true ∧
      w.length ≤ maxline - 2 := by
  refine ⟨l ++ ['\r'], '\n', by simp [endofHdr], newline_eq_false fun hmem => ?_, rfl, ?_⟩
  · rcases List.mem_append.1 hmem with hmem | hmem
    · exact hl hmem
    · exact absurd hmem (by decide)
  · rw [List.length_append, List.length_singleton, maxline]
    omega

/-- A length as an `int`. -/
theorem bmod_spec (n : ℕ) (hpos : 0 < Int.bmod n (2 ^ 32)) :
    (Int.bmod n (2 ^ 32)).toNat ≤ n ∧ Int.bmod n (2 ^ 32) < 2 ^ 31 ∧
      ((Int.bmod n (2 ^ 32)).toNat = n ↔ n < 2 ^ 31) := by
  have hbmod := Int.bmod_def (n : ℤ) (2 ^ 32)
  generalize Int.bmod n (2 ^ 32) = v at *
  split at hbmod <;> omega

theorem filesize_spec {file : FileInfo} (hpos : 0 < file.filesize) :
    file.filesize.toNat ≤ file.content.length ∧ file.filesize < 2 ^ 31 ∧
      (file.filesize.toNat = file.content.length ↔ file.content.length < 2 ^ 31) :=
  bmod_spec file.content.length hpos

/-- **A client reads what was sent of a file**: in front of the blank line stand the four lines of
the header; the number in the third is that of the bytes behind it; and these are the file, unless
its size does not fit an `int`. -/
theorem content_framed (filename : List Char) (file : FileInfo) (hpos : 0 < file.filesize)
    (rp : Rio Char) (rest : List Char)
    (helems : rp.elems = (Answer.content filename file).texts.flatten ++ rest) :
    headers rp = [okLine, serverLine, lengthLine file.filesize,
        typeLabel ++ getFiletype filename ++ endofHdr] ∧
      scanD ((lengthLine file.filesize).drop lengthLabel.length) =
        some (((Answer.content filename file).body.length : ℤ), endofHdr) ∧
      ((Answer.content filename file).body = file.content ↔ file.content.length < 2 ^ 31) := by
  obtain ⟨hle, hhi, hiff⟩ := filesize_spec hpos
  have hbody : (Answer.content filename file).body.length = file.filesize.toNat := by
    rw [Answer.body, List.length_take, Nat.min_eq_left hle]
  refine ⟨?_, ?_, ?_⟩
  · obtain ⟨hplain, hshort⟩ := filetype_plain filename
    have htype : typeLabel.length = 14 := by decide
    have hlabel : lengthLabel.length = 16 := by decide
    have hdigits := length_printD (by omega) hhi
    have hpieces : lines newline (maxline - 2) ([okLine, serverLine, lengthLine file.filesize,
        typeLabel ++ getFiletype filename ++ endofHdr, endofHdr].flatten ++ rest) =
        [okLine, serverLine, lengthLine file.filesize,
          typeLabel ++ getFiletype filename ++ endofHdr, endofHdr] ++
        lines newline (maxline - 2) rest := lines_append (by
        intro l hl
        simp only [List.mem_cons, List.not_mem_nil, or_false] at hl
        rcases hl with rfl | rfl | rfl | rfl | rfl
        · exact isPiece_of_short (l := "HTTP/1.0 200 OK".toList) (by decide) (by decide)
        · exact isPiece_of_short (l := "Server: Tiny Web Server".toList) (by decide) (by decide)
        · refine isPiece_of_short (fun hmem => ?_) ?_
          · rcases List.mem_append.1 hmem with hmem | hmem
            · exact absurd hmem (by decide)
            · exact decimal_plain _ hmem
          · rw [List.length_append]
            omega
        · refine isPiece_of_short (fun hmem => ?_) ?_
          · rcases List.mem_append.1 hmem with hmem | hmem
            · exact absurd hmem (by decide)
            · exact hplain hmem
          · rw [List.length_append]
            omega
        · exact isPiece_of_short (l := []) (by decide) (by decide))
    have htext : rp.elems = [okLine, serverLine, lengthLine file.filesize,
        typeLabel ++ getFiletype filename ++ endofHdr, endofHdr].flatten ++ rest := by
      rw [helems]
      simp only [Answer.texts, typeLine, List.flatten_cons, List.flatten_nil, List.append_assoc]
    have hlines : ∀ l ∈ [okLine, serverLine, lengthLine file.filesize,
        typeLabel ++ getFiletype filename ++ endofHdr], decide (l ≠ endofHdr) = true := by
      intro l hl
      simp only [List.mem_cons, List.not_mem_nil, or_false] at hl
      rcases hl with rfl | rfl | rfl | rfl
      · decide
      · decide
      · exact decide_eq_true (line_ne_endofHdr (List.append_ne_nil_of_left_ne_nil (by decide) _))
      · exact decide_eq_true (line_ne_endofHdr (List.append_ne_nil_of_left_ne_nil (by decide) _))
    have hsplit : [okLine, serverLine, lengthLine file.filesize,
        typeLabel ++ getFiletype filename ++ endofHdr, endofHdr] ++
          lines newline (maxline - 2) rest = [okLine, serverLine, lengthLine file.filesize,
            typeLabel ++ getFiletype filename ++ endofHdr] ++
              endofHdr :: lines newline (maxline - 2) rest := rfl
    rw [headers, pieces, htext, hpieces, hsplit, List.takeWhile_append_of_pos hlines,
      List.takeWhile_cons_of_neg (by simp), List.append_nil]
  · have hscan := scanD_printD (v := file.filesize) (w := []) (s := endofHdr) (by omega) hhi
      (forall_mem_of_all rfl) fun c hc => by
        cases hc
        rfl
    rw [List.nil_append] at hscan
    rw [hbody, Int.toNat_of_nonneg hpos.le, lengthLine, List.append_assoc, List.drop_left, hscan]
  · rw [← hiff]
    constructor
    · intro h
      rw [← hbody, h]
    · intro h
      exact List.take_of_length_le h.ge

/-- A small page. -/
def homePage : FileInfo where
  regular := true
  readable := true
  executable := false
  opens := true
  content := [104, 105]
  run _ := []

theorem content_framed_home : 0 < homePage.filesize ∧
    scanD ((lengthLine homePage.filesize).drop lengthLabel.length) =
        some (((Answer.content "./home.html".toList homePage).body.length : ℤ), endofHdr) ∧
      ((Answer.content "./home.html".toList homePage).body = homePage.content ↔
        homePage.content.length < 2 ^ 31) :=
  ⟨by decide, (content_framed "./home.html".toList homePage (by decide)
    ⟨(Answer.content "./home.html".toList homePage).texts.flatten, []⟩ [] (by
      rw [Source.elems, ahead])).2⟩

end Tiny
