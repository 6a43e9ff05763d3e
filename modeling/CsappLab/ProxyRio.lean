/-
**Robust reading and writing.**

The functions of `csapp.c` through which the proxy talks to its sockets.  A `rio_t` is a buffer in
front of the calls of `read`, each of which brings some bytes, is interrupted or fails; behind them
is the end of the file.  `rio_readlineb` reads a text line, `rio_writen` writes all bytes of a
buffer, and `open_clientfd` tries the addresses of a host one after the other.  The wrappers with a
capital letter exit when a function reports an error.

Main definitions:

* `Proxy.Fault` — the ways in which a thread does not return;
* `Proxy.Rio`, `Proxy.rioRead`, `Proxy.rioReadlineb` — reading;
* `Proxy.Returns` — a function returns;
* `Proxy.Sink`, `Proxy.rioWriten` — writing;
* `Proxy.Attempt`, `Proxy.openClientfd` — connecting.

Main results:

* `Proxy.rioReadlineb_spec` — **a line is read** from the elements of the source, whatever the
  pieces and the interruptions, unless a failure comes before its end;
* `Proxy.rioReadlinebOrExit_spec` — what a loop over the lines of a source meets;
* `Proxy.rioWriten_spec` — **all bytes are written**, unless an error comes first;
* `Proxy.openClientfd_nonneg_iff` — when a connection succeeds.
-/

import CsappLab.ChunkedLines
import Mathlib.Data.Int.Notation

set_option relaxedAutoImplicit false
set_option autoImplicit false

namespace Proxy

open Chunked

/-- `MAXLINE`. -/
abbrev maxline : ℕ := 8192

/-- Why a thread does not return: the process exits with a message, a store goes behind the end of
an array or follows a null pointer, a read follows one or runs off the heap, or a lock is not
granted. -/
inductive Fault where
  | exited (msg : String)
  | overflow
  | badWrite
  | badRead
  | blocked
  deriving DecidableEq, Repr

/-! ### Reading -/

section Read

variable {α : Type*} {isNewline : α → Bool} {k maxlen : ℕ}

/-- `rio_t`: the unread bytes of the buffer, and what the calls of `read` will bring. -/
abbrev Rio (α : Type*) := Source α

/-- `rio_read`: up to `n` bytes, none at the end of the file; no result is `-1`. -/
def rioRead (rp : Rio α) (n : ℕ) : Option (List α × Rio α) :=
  match rp.refill with
  | none => none
  | some rp => some (rp.buffered.take n, { rp with buffered := rp.buffered.drop n })

/-- The loop of `rio_readlineb` when `k` more bytes may be stored behind those in `usrbuf`. -/
def readlineLoop (isNewline : α → Bool) : ℕ → Rio α → List α → Option (List α × Rio α)
  | 0, rp, usrbuf => some (usrbuf, rp)
  | k + 1, rp, usrbuf =>
      match rioRead rp 1 with
      | none => none
      | some ([], rp) => some (usrbuf, rp)
      | some (c :: _, rp) =>
          if isNewline c then some (usrbuf ++ [c], rp)
          else readlineLoop isNewline k rp (usrbuf ++ [c])

/-- `rio_readlineb`: the bytes that are stored, without the terminator, of which it returns the
number; no result is `-1`. -/
def rioReadlineb (isNewline : α → Bool) (rp : Rio α) (maxlen : ℕ) : Option (List α × Rio α) :=
  readlineLoop isNewline (maxlen - 1) rp []

/-- `Rio_readlineb`. -/
def rioReadlinebOrExit (isNewline : α → Bool) (rp : Rio α) (maxlen : ℕ) :
    Except Fault (List α × Rio α) :=
  match rioReadlineb isNewline rp maxlen with
  | none => .error (.exited "Rio_readlineb error")
  | some r => .ok r

/-- **One byte is read**, at the end of the file none, unless a failure is next. -/
theorem rioRead_one (rp : Rio α) :
    (rp.elems = [] ∧ rp.fails = true ∧ rioRead rp 1 = none) ∨
      (rp.elems = [] ∧ rp.fails = false ∧ ∃ rp', rioRead rp 1 = some ([], rp') ∧
        rp'.elems = [] ∧ rp'.fails = false) ∨
      ∃ c rp', rioRead rp 1 = some ([c], rp') ∧ rp.elems = c :: rp'.elems ∧
        rp'.fails = rp.fails := by
  unfold rioRead
  rcases rp.refill_spec with ⟨hrefill, helems, hfails⟩ | ⟨t, hrefill, helems, hfails, hend⟩
  · rw [hrefill]
    exact .inl ⟨helems, hfails, rfl⟩
  · rw [hrefill]
    obtain ⟨buffered, pulls⟩ := t
    cases buffered with
    | nil =>
        obtain ⟨hnil, hno⟩ := hend rfl
        exact .inr (.inl ⟨hnil, hno, _, rfl, helems.trans hnil, hfails.trans hno⟩)
    | cons c rest => exact .inr (.inr ⟨c, ⟨rest, pulls⟩, rfl, helems.symm, hfails⟩)

/-- A failure comes before the line that is read next is complete. -/
def ReadFails (isNewline : α → Bool) (k : ℕ) (rp : Rio α) : Prop :=
  rp.fails = true ∧ closed isNewline k rp.elems = false

/-- What is left of a source when a line of `k` elements at most has been read. -/
structure After (isNewline : α → Bool) (k : ℕ) (rp rp' : Rio α) : Prop where
  elems : rp'.elems = rp.elems.drop (line isNewline k rp.elems).length
  fails : rp'.fails = rp.fails

theorem readlineLoop_spec (rp : Rio α) (usrbuf : List α) :
    (ReadFails isNewline k rp ∧ readlineLoop isNewline k rp usrbuf = none) ∨
      ¬ ReadFails isNewline k rp ∧ ∃ rp', readlineLoop isNewline k rp usrbuf =
        some (usrbuf ++ line isNewline k rp.elems, rp') ∧ After isNewline k rp rp' := by
  induction k generalizing rp usrbuf with
  | zero =>
      refine .inr ⟨fun h => ?_, rp, ?_, rfl, rfl⟩
      · cases h.2
      · rw [readlineLoop, line, List.append_nil]
  | succ k ih =>
      rcases rioRead_one rp with ⟨hnil, hfails, hread⟩ |
        ⟨hnil, hfails, rp', hread, hnil', hfails'⟩ | ⟨c, rp', hread, hcons, hfails'⟩
      · refine .inl ⟨⟨hfails, by rw [hnil]; rfl⟩, ?_⟩
        simp only [readlineLoop, hread]
      · -- the end of the file
        refine .inr ⟨fun h => ?_, rp', ?_, ?_, hfails'.trans hfails.symm⟩
        · have := hfails.symm.trans h.1
          cases this
        · simp only [readlineLoop, hread, hnil, line, List.append_nil]
        · rw [hnil', hnil]
          rfl
      · simp only [readlineLoop, hread, ReadFails, hcons, line, closed]
        cases hc : isNewline c with
        | true =>
            rw [if_pos rfl, if_pos rfl, Bool.true_or]
            refine .inr ⟨fun h => ?_, rp', rfl, ?_, hfails'⟩
            · cases h.2
            · rw [hcons, line, if_pos hc]
              rfl
        | false =>
            rw [if_neg Bool.false_ne_true, if_neg Bool.false_ne_true, Bool.false_or, ← hfails']
            rcases ih rp' (usrbuf ++ [c]) with hfail | ⟨hok, rp'', hsome, hafter⟩
            · exact .inl hfail
            · refine .inr ⟨hok, rp'', ?_, ?_, hafter.fails.trans hfails'⟩
              · rw [hsome, List.append_assoc]
                rfl
              · rw [hafter.elems, hcons, line, if_neg (by rw [hc]; exact Bool.false_ne_true)]
                rfl

/-- **A line is read** from the elements of the source, unless a failure comes before its end. -/
theorem rioReadlineb_spec (isNewline : α → Bool) (rp : Rio α) (maxlen : ℕ) :
    (ReadFails isNewline (maxlen - 1) rp ∧ rioReadlineb isNewline rp maxlen = none) ∨
      ¬ ReadFails isNewline (maxlen - 1) rp ∧ ∃ rp', rioReadlineb isNewline rp maxlen =
        some (line isNewline (maxlen - 1) rp.elems, rp') ∧ After isNewline (maxlen - 1) rp rp' :=
  readlineLoop_spec rp []

/-- **What a loop over the lines of a source meets**: a failure before any end of a line, the end of
the file, or the first of the lines. -/
theorem rioReadlinebOrExit_spec (isNewline : α → Bool) (rp : Rio α) :
    (rp.fails = true ∧ (∀ c ∈ rp.elems, isNewline c = false) ∧
        rioReadlinebOrExit isNewline rp maxline = .error (.exited "Rio_readlineb error")) ∨
      (rp.fails = false ∧ rp.elems = [] ∧
        ∃ rp', rioReadlinebOrExit isNewline rp maxline = .ok ([], rp')) ∨
      ∃ c cs rp', rioReadlinebOrExit isNewline rp maxline = .ok (c :: cs, rp') ∧
        lines isNewline (maxline - 2) rp.elems =
          (c :: cs) :: lines isNewline (maxline - 2) rp'.elems ∧
        rp.elems = c :: cs ++ rp'.elems ∧ rp'.fails = rp.fails := by
  rw [rioReadlinebOrExit]
  rcases rioReadlineb_spec isNewline rp maxline with ⟨⟨hfails, hclosed⟩, hread⟩ |
    ⟨hok, rp', hread, hafter⟩
  · rw [hread]
    exact .inl ⟨hfails, fun c hc => not_stop_of_not_closed hclosed hc, rfl⟩
  rw [hread]
  cases helems : rp.elems with
  | nil =>
      have hfails : rp.fails = false := by
        cases hfails : rp.fails with
        | false => rfl
        | true => exact absurd ⟨hfails, by rw [helems]; rfl⟩ hok
      exact .inr (.inl ⟨hfails, rfl, rp', rfl⟩)
  | cons x xs =>
      have hlines : lines isNewline (maxline - 2) (x :: xs) =
          line isNewline (maxline - 1) (x :: xs) :: lines isNewline (maxline - 2)
            ((x :: xs).drop (line isNewline (maxline - 1) (x :: xs)).length) :=
        lines_of_ne_nil (List.cons_ne_nil x xs)
      have hsplit := List.prefix_iff_eq_append.1 (line_isPrefix isNewline (maxline - 1) (x :: xs))
      have hrest := hafter.elems
      obtain ⟨c, cs, hcons⟩ :=
        List.exists_cons_of_ne_nil (line_cons_ne_nil isNewline (maxline - 2) x xs)
      replace hcons : line isNewline (maxline - 1) (x :: xs) = c :: cs := hcons
      rw [helems, hcons] at hrest
      rw [hcons, ← hrest] at hsplit
      refine .inr (.inr ⟨c, cs, rp', by rw [hcons], ?_, hsplit.symm, hafter.fails⟩)
      rw [hlines, hcons, hrest]

end Read

/-! ### Results -/

/-- A function returns. -/
def Returns {α : Type} (x : Except Fault α) : Prop := ∃ r, x = .ok r

section Returns

variable {α β : Type} {x : Except Fault α} {f : α → Except Fault β}

theorem returns_ok (r : α) : Returns (.ok r) := ⟨r, rfl⟩

theorem not_returns_error (e : Fault) : ¬ Returns (.error e : Except Fault α) := by
  rintro ⟨r, h⟩
  cases h

theorem returns_ok_bind (a : α) : Returns (Except.ok a >>= f) ↔ Returns (f a) := Iff.rfl

/-- A function does not return if one that it calls does not. -/
theorem not_returns_bind (h : ¬ Returns x) : ¬ Returns (x >>= f) := by
  cases x with
  | error e => exact not_returns_error e
  | ok a => exact absurd (returns_ok a) h

theorem returns_ite {p : Prop} [Decidable p] {y : Except Fault α} {e : Fault} :
    Returns (if p then y else .error e) ↔ p ∧ Returns y := by
  by_cases hp : p
  · rw [if_pos hp]
    exact (and_iff_right hp).symm
  · rw [if_neg hp]
    exact iff_of_false (not_returns_error e) fun h => hp h.1

end Returns

/-! ### Writing -/

/-- What comes back from a call of `write` when there is no room left: room for `n + 1` more bytes,
an interruption or an error. -/
inductive Write where
  | room (n : ℕ)
  | intr
  | error
  deriving DecidableEq, Repr

/-- What a socket takes: the bytes there is room for, and what the next calls of `write` will find;
behind them is room for everything. -/
structure Sink where
  room : ℕ
  writes : List Write

/-- The loop of `rio_writen` when `nleft` bytes are left and there is no room; no result is `-1`. -/
def writenLoop : List Write → ℕ → Option Sink
  | ws, 0 => some ⟨0, ws⟩
  | [], _ + 1 => some ⟨0, []⟩
  | .room k :: ws, nleft + 1 =>
      if nleft ≤ k then some ⟨k - nleft, ws⟩ else writenLoop ws (nleft - k)
  | .intr :: ws, nleft + 1 => writenLoop ws (nleft + 1)
  | .error :: _, _ + 1 => none

/-- `rio_writen` of `n` bytes: a call of `write` takes as many as there is room for. -/
def rioWriten (fd : Sink) (n : ℕ) : Option Sink :=
  if n ≤ fd.room then some { fd with room := fd.room - n } else writenLoop fd.writes (n - fd.room)

/-- `Rio_writen`; on a socket that the peer has closed `SIGPIPE` ends the process already. -/
def rioWritenOrExit (fd : Sink) (n : ℕ) : Except Fault Sink :=
  match rioWriten fd n with
  | none => .error (.exited "Rio_writen error")
  | some fd => .ok fd

/-- The bytes that are taken before an error comes; no result when none does. -/
def limitFrom : List Write → Option ℕ
  | [] => none
  | .room k :: ws => (limitFrom ws).map (k + 1 + ·)
  | .intr :: ws => limitFrom ws
  | .error :: _ => some 0

/-- The same with the room that is left. -/
def Sink.limit (fd : Sink) : Option ℕ := (limitFrom fd.writes).map (fd.room + ·)

/-- A socket takes `n` bytes. -/
def Sink.Takes (fd : Sink) (n : ℕ) : Prop := ∀ b ∈ fd.limit, n ≤ b

theorem Sink.Takes.mono {fd : Sink} {m n : ℕ} (h : fd.Takes n) (hmn : m ≤ n) : fd.Takes m :=
  fun b hb => Nat.le_trans hmn (h b hb)

theorem takes_iff (fd : Sink) (n : ℕ) :
    fd.Takes n ↔ ∀ b ∈ limitFrom fd.writes, n - fd.room ≤ b := by
  rw [Sink.Takes, Sink.limit]
  cases limitFrom fd.writes with
  | none => exact iff_of_true (fun b hb => by cases hb) fun b hb => by cases hb
  | some b =>
      rw [Option.map_some]
      simp only [Option.mem_some_iff, forall_eq']
      omega

theorem writenLoop_spec (ws : List Write) (n : ℕ) :
    (¬ (∀ b ∈ limitFrom ws, n ≤ b) ∧ writenLoop ws n = none) ∨
      (∀ b ∈ limitFrom ws, n ≤ b) ∧ ∃ fd, writenLoop ws n = some fd ∧
        ∀ m, fd.Takes m ↔ ∀ b ∈ limitFrom ws, n + m ≤ b := by
  induction ws generalizing n with
  | nil =>
      have hnone : ∀ m, ∀ b ∈ limitFrom [], m ≤ b := fun m b hb => by cases hb
      refine .inr ⟨hnone n, ⟨0, []⟩, by cases n <;> rfl, fun m => ?_⟩
      exact iff_of_true ((takes_iff _ _).2 (hnone _)) (hnone _)
  | cons w ws ih =>
      cases n with
      | zero =>
          refine .inr ⟨fun b _ => Nat.zero_le b, ⟨0, w :: ws⟩, by cases w <;> rfl, fun m => ?_⟩
          rw [takes_iff, Nat.zero_add]
          rfl
      | succ n =>
          cases w with
          | room k =>
              have hlimit : ∀ m, (∀ b ∈ limitFrom (.room k :: ws), m ≤ b) ↔
                  ∀ b ∈ limitFrom ws, m - (k + 1) ≤ b := by
                intro m
                rw [limitFrom]
                cases limitFrom ws with
                | none => exact iff_of_true (fun b hb => by cases hb) fun b hb => by cases hb
                | some b =>
                    rw [Option.map_some]
                    simp only [Option.mem_some_iff, forall_eq']
                    omega
              rw [writenLoop, hlimit]
              simp only [hlimit]
              by_cases hroom : n ≤ k
              · rw [if_pos hroom]
                refine .inr ⟨fun b _ => ?_, _, rfl, fun m => ?_⟩
                · omega
                · rw [takes_iff, show n + 1 + m - (k + 1) = m - (k - n) by omega]
              · rw [if_neg hroom, show n + 1 - (k + 1) = n - k by omega]
                rcases ih (n - k) with hfail | ⟨hok, fd, hrun, htakes⟩
                · exact .inl hfail
                · refine .inr ⟨hok, fd, hrun, fun m => ?_⟩
                  rw [htakes, show n + 1 + m - (k + 1) = n - k + m by omega]
          | intr => exact ih (n + 1)
          | error =>
              refine .inl ⟨fun h => ?_, rfl⟩
              exact absurd (h 0 rfl) (Nat.not_succ_le_zero n)

/-- **All bytes are written**, unless an error comes first. -/
theorem rioWriten_spec (fd : Sink) (n : ℕ) : (¬ fd.Takes n ∧ rioWriten fd n = none) ∨
    fd.Takes n ∧ ∃ fd', rioWriten fd n = some fd' ∧ ∀ m, fd'.Takes m ↔ fd.Takes (n + m) := by
  rw [takes_iff, rioWriten]
  by_cases hroom : n ≤ fd.room
  · rw [if_pos hroom]
    refine .inr ⟨fun b _ => ?_, _, rfl, fun m => ?_⟩
    · omega
    · rw [takes_iff, takes_iff, show n + m - fd.room = m - (fd.room - n) by omega]
  · rw [if_neg hroom]
    rcases writenLoop_spec fd.writes (n - fd.room) with hfail | ⟨hok, fd', hrun, htakes⟩
    · exact .inl hfail
    · refine .inr ⟨hok, fd', hrun, fun m => ?_⟩
      rw [htakes, takes_iff, show n + m - fd.room = n - fd.room + m by omega]

/-- `Rio_writen` returns if the socket takes all bytes. -/
theorem rioWritenOrExit_spec (fd : Sink) (n : ℕ) :
    (¬ fd.Takes n ∧ rioWritenOrExit fd n = .error (.exited "Rio_writen error")) ∨
      fd.Takes n ∧ ∃ fd', rioWritenOrExit fd n = .ok fd' ∧
        ∀ m, fd'.Takes m ↔ fd.Takes (n + m) := by
  rw [rioWritenOrExit]
  rcases rioWriten_spec fd n with ⟨hno, hrun⟩ | ⟨hyes, fd', hrun, htakes⟩
  · rw [hrun]
    exact .inl ⟨hno, rfl⟩
  · rw [hrun]
    exact .inr ⟨hyes, fd', rfl, htakes⟩

/-! ### Connecting -/

/-- What comes of an address: no socket; a connection that is refused, and whether `close` succeeds;
or a connected descriptor. -/
inductive Attempt where
  | noSocket
  | refused (closed : Bool)
  | connected (fd : ℕ)
  deriving DecidableEq, Repr

/-- The walk of `open_clientfd` over the addresses. -/
def connectLoop : List Attempt → ℤ
  | [] => -1
  | .noSocket :: ps => connectLoop ps
  | .refused closed :: ps => if closed then connectLoop ps else -1
  | .connected fd :: _ => fd

/-- `open_clientfd`; there are no addresses when `getaddrinfo` fails. -/
def openClientfd : Option (List Attempt) → ℤ
  | none => -2
  | some listp => connectLoop listp

/-- `Open_clientfd`. -/
def openClientfdOrExit (listp : Option (List Attempt)) : Except Fault ℤ :=
  if openClientfd listp < 0 then .error (.exited "Open_clientfd error")
  else .ok (openClientfd listp)

/-- The name is resolved, and a connection succeeds before `close` fails. -/
def Connects (listp : Option (List Attempt)) : Prop :=
  ∃ before fd after, listp = some (before ++ .connected fd :: after) ∧
    ∀ a ∈ before, a = .noSocket ∨ a = .refused true

theorem connectLoop_nonneg_iff (ps : List Attempt) : 0 ≤ connectLoop ps ↔
    ∃ before fd after, ps = before ++ .connected fd :: after ∧
      ∀ a ∈ before, a = .noSocket ∨ a = .refused true := by
  induction ps with
  | nil =>
      refine iff_of_false (by rw [connectLoop]; omega) ?_
      rintro ⟨before, fd, after, h, -⟩
      cases before <;> cases h
  | cons p ps ih =>
      -- an address that is skipped
      have hskip (hp : p = .noSocket ∨ p = .refused true) : 0 ≤ connectLoop ps ↔
          ∃ before fd after, p :: ps = before ++ .connected fd :: after ∧
            ∀ a ∈ before, a = .noSocket ∨ a = .refused true := by
        rw [ih]
        constructor
        · rintro ⟨before, fd, after, rfl, hbefore⟩
          exact ⟨p :: before, fd, after, rfl, List.forall_mem_cons.2 ⟨hp, hbefore⟩⟩
        · rintro ⟨before, fd, after, heq, hbefore⟩
          cases before with
          | nil =>
              rw [(List.cons.inj heq).1] at hp
              rcases hp with hp | hp <;> cases hp
          | cons b before =>
              exact ⟨before, fd, after, (List.cons.inj heq).2, (List.forall_mem_cons.1 hbefore).2⟩
      cases p with
      | noSocket => exact hskip (.inl rfl)
      | refused closed =>
          cases closed with
          | true => exact hskip (.inr rfl)
          | false =>
              refine iff_of_false (by rw [connectLoop, if_neg Bool.false_ne_true]; omega) ?_
              rintro ⟨before, fd, after, heq, hbefore⟩
              cases before with
              | nil => cases (List.cons.inj heq).1
              | cons b before =>
                  obtain ⟨rfl, -⟩ := List.cons.inj heq
                  rcases hbefore _ List.mem_cons_self with hb | hb <;> cases hb
      | connected fd =>
          refine iff_of_true (Int.natCast_nonneg fd) ⟨[], fd, ps, rfl, fun a ha => ?_⟩
          cases ha

/-- **When `open_clientfd` succeeds.** -/
theorem openClientfd_nonneg_iff (listp : Option (List Attempt)) :
    0 ≤ openClientfd listp ↔ Connects listp := by
  cases listp with
  | none =>
      refine iff_of_false (by rw [openClientfd]; omega) ?_
      rintro ⟨before, fd, after, h, -⟩
      cases h
  | some ps =>
      rw [openClientfd, connectLoop_nonneg_iff, Connects]
      simp only [Option.some.injEq]

/-- `Open_clientfd` returns if there is a connection. -/
theorem openClientfdOrExit_spec (listp : Option (List Attempt)) :
    (¬ Connects listp ∧
        openClientfdOrExit listp = .error (.exited "Open_clientfd error")) ∨
      Connects listp ∧ ∃ fd, openClientfdOrExit listp = .ok fd ∧ ¬ fd < 0 := by
  rw [← openClientfd_nonneg_iff, openClientfdOrExit]
  by_cases hneg : openClientfd listp < 0
  · rw [if_pos hneg]
    exact .inl ⟨Int.not_le.2 hneg, rfl⟩
  · rw [if_neg hneg]
    exact .inr ⟨Int.not_lt.1 hneg, _, rfl, hneg⟩

/-- `Close`. -/
def closeOrExit (closed : Bool) : Except Fault Unit :=
  if closed then .ok () else .error (.exited "Close error")

theorem closeOrExit_spec (closed : Bool) :
    (¬ closed = true ∧ closeOrExit closed = .error (.exited "Close error")) ∨
      closed = true ∧ closeOrExit closed = .ok () := by
  cases closed with
  | false => exact .inl ⟨Bool.false_ne_true, rfl⟩
  | true => exact .inr ⟨rfl, rfl⟩

end Proxy
