/-
**The arrays of `build_header`.**

`build_header` puts its text together in three arrays of `MAXLINE` bytes and writes it to a fourth
one of its caller, with `sprintf` and `strcpy`, which ask for no length.  Each piece that the client
sends fits an array of its own; the text that is made of them has to fit an array of the same
length.

Main definitions:

* `Proxy.Arrays` — what the four arrays hold;
* `Proxy.arrayStates` — what they hold after each store of `build_header`, if they had no end;
* `Proxy.HostFits` — the client's `Host` line leaves room for the rest of the text.

Main results:

* `Proxy.loopStates_spec` — what the loop over the header lines does to the arrays;
* `Proxy.fits_iff_no_overflow` — the strings fit exactly if `Proxy.buildHeader` stays in its arrays;
* `Proxy.arrays_fit_iff` — **for which clients every string fits its array**.
-/

import CsappLab.ProxyHeader

set_option relaxedAutoImplicit false
set_option autoImplicit false

namespace Proxy

open CText Chunked

/-! ### The function with arrays that have no end -/

/-- What the arrays hold: three of `build_header`, and `server` of its caller. -/
structure Arrays where
  requestHdr : List Char
  hostHdr : List Char
  otherHdr : List Char
  server : List Char

/-- Every string fits its array, with its terminator. -/
structure Arrays.Fits (a : Arrays) : Prop where
  requestHdr : a.requestHdr.length < maxline
  hostHdr : a.hostHdr.length < maxline
  otherHdr : a.otherHdr.length < maxline
  server : a.server.length < maxline

/-- The loop of `build_header`, for at most `fuel` passes: the arrays after each store, and the
arrays at its end, unless a read fails. -/
def loopStates : ℕ → Rio Char → Arrays → List Arrays × Option Arrays
  | 0, _, a => ([], some a)
  | fuel + 1, rp, a =>
      match rioReadlinebOrExit newline rp maxline with
      | .error _ => ([], none)
      | .ok ([], _) => ([], some a)
      | .ok (c :: cs, rp) =>
          let buf := cstr (c :: cs) 0
          if buf = endofHdr then ([], some a)
          else if strncasecmp buf hostName hostName.length then
            let a := { a with hostHdr := buf }  -- `strcpy`
            let (states, last) := loopStates fuel rp a
            (a :: states, last)
          else if strncasecmp buf connName connName.length &&
              strncasecmp buf proxName proxName.length &&
              strncasecmp buf agentName agentName.length then
            let a := { a with otherHdr := a.otherHdr ++ buf }  -- `strcat`
            let (states, last) := loopStates fuel rp a
            (a :: states, last)
          else loopStates fuel rp a

/-- The arrays when the request line has been written. -/
def firstArrays (u : Uri) : Arrays where
  requestHdr := requestHdrOf (u.str .path)
  hostHdr := []
  otherHdr := []
  server := []

/-- The two stores behind the loop. -/
def lastStates (u : Uri) (a : Arrays) : List Arrays :=
  let a := if a.hostHdr.length = 0 then { a with hostHdr := hostHdrOf (u.str .host) } else a
  [a, { a with server := request (u.str .path) a.hostHdr a.otherHdr }]

/-- `build_header`: the arrays after each store. -/
def arrayStates (u : Uri) (rp : Rio Char) : List Arrays :=
  let (states, last) := loopStates (rp.elems.length + 1) rp (firstArrays u)
  firstArrays u :: states ++ (last.map (lastStates u)).getD []

/-! ### The loop -/

/-- What the loop leaves of the arrays: all but `host_hdr`, which fits. -/
structure LoopKeeps (a b : Arrays) : Prop where
  requestHdr : b.requestHdr = a.requestHdr
  otherHdr : b.otherHdr = a.otherHdr
  server : b.server = a.server
  hostHdr : b.hostHdr.length < maxline

/-- **What the loop does to the arrays.** -/
theorem loopStates_spec {fuel : ℕ} (rp : Rio Char) (a : Arrays) (hfuel : rp.elems.length < fuel) :
    (∀ b ∈ (loopStates fuel rp a).1, LoopKeeps a b) ∧
      ((HeaderFails rp ∧ (loopStates fuel rp a).2 = none) ∨
        ¬ HeaderFails rp ∧ (loopStates fuel rp a).2 =
          some { a with hostHdr := (clientHost rp).getD a.hostHdr }) := by
  induction fuel generalizing rp a with
  | zero => cases hfuel
  | succ fuel ih =>
      rw [loopStates]
      rcases readHeader_spec rp with ⟨hfails, hread⟩ | ⟨hok, hnone, buf, rp', hread, hend⟩ |
        ⟨c, cs, rp', hread, hnext⟩
      · rw [hread]
        exact ⟨fun b hb => (nomatch hb), .inl ⟨hfails, rfl⟩⟩
      · rw [hread, hnone]
        cases buf with
        | nil => exact ⟨fun b hb => (nomatch hb), .inr ⟨hok, rfl⟩⟩
        | cons c cs =>
            rcases hend with hend | hend
            · cases hend
            · dsimp only
              rw [if_pos hend]
              exact ⟨fun b hb => (nomatch hb), .inr ⟨hok, rfl⟩⟩
      · have hfuel' : rp'.elems.length < fuel := by
          have := hnext.length_lt
          omega
        rw [hread, hnext.clientHost, ← hnext.fails_iff, isHost]
        dsimp only
        rw [if_neg hnext.not_blank, not_all_names, if_neg Bool.false_ne_true]
        split
        · obtain ⟨hstates, hlast⟩ := ih rp' { a with hostHdr := cstr (c :: cs) 0 } hfuel'
          refine ⟨List.forall_mem_cons.2 ⟨⟨rfl, rfl, rfl, hnext.fits⟩, fun b hb => ?_⟩, hlast⟩
          obtain ⟨hrequest, hother, hserver, hfits⟩ := hstates b hb
          exact ⟨hrequest, hother, hserver, hfits⟩
        · exact ih rp' a hfuel'

/-! ### All stores -/

section Stores

variable {u : Uri} {rp : Rio Char}

/-- The arrays behind the loop. -/
theorem lastStates_eq (u : Uri) (rp : Rio Char) :
    lastStates u { firstArrays u with hostHdr := (clientHost rp).getD [] } =
      [{ firstArrays u with hostHdr := hostLine u rp },
        { firstArrays u with
          hostHdr := hostLine u rp, server := request (u.str .path) (hostLine u rp) [] }] := by
  rw [hostLine]
  cases hclient : clientHost rp with
  | none => rfl
  | some s =>
      have hlong : ¬ s.length = 0 := fun h0 =>
        clientHost_ne_nil hclient (List.eq_nil_of_length_eq_zero h0)
      simp only [lastStates, Option.getD_some, if_neg hlong]
      rfl

theorem firstArrays_fit_iff (u : Uri) :
    (firstArrays u).Fits ↔ (u.str .path).length + 15 < maxline := by
  have hnil : ([] : List Char).length < maxline := by decide
  rw [← length_requestHdrOf]
  exact ⟨fun h => h.requestHdr, fun h => ⟨h, hnil, hnil, hnil⟩⟩

theorem LoopKeeps.fits {a b : Arrays} (h : LoopKeeps a b) (ha : a.Fits) : b.Fits where
  requestHdr := h.requestHdr ▸ ha.requestHdr
  hostHdr := h.hostHdr
  otherHdr := h.otherHdr ▸ ha.otherHdr
  server := h.server ▸ ha.server

/-- Behind the loop the text is what may be too long. -/
theorem lastStates_fit_iff (hfirst : (firstArrays u).Fits) :
    (∀ a ∈ lastStates u { firstArrays u with hostHdr := (clientHost rp).getD [] }, a.Fits) ↔
      (u.str .path).length + (hostLine u rp).length + 147 < maxline := by
  have hlength := length_request (u.str .path) (hostLine u rp) []
  rw [List.length_nil, Nat.add_zero] at hlength
  rw [lastStates_eq, List.forall_mem_cons, List.forall_mem_singleton, ← hlength]
  constructor
  · rintro ⟨-, h⟩
    exact h.server
  · intro h
    have hhdr : (hostLine u rp).length < maxline := by omega
    exact ⟨⟨hfirst.requestHdr, hhdr, hfirst.otherHdr, hfirst.server⟩,
      hfirst.requestHdr, hhdr, hfirst.otherHdr, h⟩

/-- **When all strings fit**: the request line does, and unless a read fails so does the text. -/
theorem arrayStates_fit_iff (u : Uri) (rp : Rio Char) : (∀ a ∈ arrayStates u rp, a.Fits) ↔
    (u.str .path).length + 15 < maxline ∧ (HeaderFails rp ∨
      (u.str .path).length + (hostLine u rp).length + 147 < maxline) := by
  obtain ⟨hloop, hlast⟩ := loopStates_spec rp (firstArrays u) (Nat.lt_succ_self _)
  simp only [arrayStates, List.forall_mem_cons, List.forall_mem_append]
  rw [← firstArrays_fit_iff, and_assoc]
  refine and_congr_right fun hfirst => ?_
  rw [and_iff_right fun b hb => (hloop b hb).fits hfirst]
  rcases hlast with ⟨hfails, hlast⟩ | ⟨hok, hlast⟩
  · rw [hlast]
    exact iff_of_true (fun a ha => (nomatch ha)) (.inl hfails)
  · rw [hlast, or_iff_right hok]
    exact lastStates_fit_iff hfirst

/-- The strings fit exactly if `build_header` stays in its arrays. -/
theorem fits_iff_no_overflow (u : Uri) (rp : Rio Char) :
    (∀ a ∈ arrayStates u rp, a.Fits) ↔ buildHeader u rp ≠ .error .overflow := by
  rw [arrayStates_fit_iff]
  by_cases hpath : (u.str .path).length + 15 < maxline
  case neg => exact iff_of_false (fun h => hpath h.1) fun h => h (buildHeader_of_long u rp hpath)
  rw [and_iff_right hpath]
  rcases buildHeader_spec u rp hpath with ⟨hfails, hbuild⟩ | ⟨hok, ⟨hlong, hbuild⟩ |
    ⟨hfit, rp', hbuild⟩⟩
  · rw [hbuild]
    exact iff_of_true (.inl hfails) fun h => (nomatch h)
  · rw [hbuild]
    refine iff_of_false (fun h => ?_) fun h => h rfl
    rcases h with h | h
    · exact hok h
    · omega
  · rw [hbuild]
    exact iff_of_true (.inr hfit) fun h => (nomatch h)

/-- The client's `Host` line, if there is one, leaves room for the rest of the text. -/
def HostFits (u : Uri) (rp : Rio Char) : Prop :=
  ∀ s, clientHost rp = some s → (u.str .path).length + s.length + 147 < maxline

/-- A line that is made of the URI leaves room. -/
theorem text_fits_iff (hhost : (u.str .host).length < 100) (hpath : (u.str .path).length < 100) :
    (u.str .path).length + (hostLine u rp).length + 147 < maxline ↔ HostFits u rp := by
  rw [hostLine, HostFits]
  cases clientHost rp with
  | some s => simp only [Option.getD_some, Option.some.injEq, forall_eq']
  | none =>
      refine iff_of_true ?_ ?_
      · have hlabel : hostLabel.length = 6 := by decide
        have hend : endofHdr.length = 2 := by decide
        rw [Option.getD_none, hostHdrOf, List.length_append, List.length_append, hlabel, hend]
        simp only [maxline]
        omega
      · intro s hs
        cases hs

/-- **For which clients every string fits its array**: the header breaks off, or its last `Host`
line leaves room for the rest of the text. -/
theorem arrays_fit_iff (u : Uri) (rp : Rio Char) (hhost : (u.str .host).length < 100)
    (hpath : (u.str .path).length < 100) :
    (∀ a ∈ arrayStates u rp, a.Fits) ↔ HeaderFails rp ∨ HostFits u rp := by
  rw [arrayStates_fit_iff, text_fits_iff hhost hpath]
  exact and_iff_right (by simp only [maxline]; omega)

/-- A short `Host` line: after each of the four stores. -/
theorem arrays_fit_iff_clientLine :
    (arrayStates (Uri.filled nul) (bufferedBlock [clientLine])).length = 4 ∧
      ∀ a ∈ arrayStates (Uri.filled nul) (bufferedBlock [clientLine]), a.Fits :=
  ⟨by decide +kernel,
    (arrays_fit_iff (Uri.filled nul) (bufferedBlock [clientLine]) (by decide) (by decide)).2
      (.inr fun s hs => by
        rw [clientHost_clientLine] at hs
        cases hs
        decide)⟩

/-- A `Host` line of a client that fits `host_hdr`, but leaves no room. -/
def longHostLine : HeaderLine where
  text := hostName ++ ':' :: List.replicate 8100 'a'
  ne_nil := List.cons_ne_nil _ _
  newline_notMem := by
    rw [List.mem_append, List.mem_cons, List.mem_replicate]
    decide
  length_lt := by
    have hname : hostName.length = 4 := rfl
    rw [List.length_append, List.length_cons, List.length_replicate, hname]
    decide

/-- **A text that is too long.** -/
theorem text_overflows : ¬ ∀ (u : Uri) (rp : Rio Char), (u.str .host).length < 100 →
    (u.str .path).length < 100 → ∀ a ∈ arrayStates u rp, a.Fits := by
  intro h
  have hblock : (bufferedBlock [longHostLine]).elems = block [longHostLine] ++ [] := rfl
  have hnamed : longHostLine.isNamed hostName = true := by decide
  have hline : hostLineOf (Uri.filled nul) [longHostLine] = longHostLine.chars := by
    rw [hostLineOf, List.filter_singleton, hnamed]
    rfl
  have hnul : nul ∉ longHostLine.chars := by
    rw [HeaderLine.chars, longHostLine, List.mem_append, List.mem_append, List.mem_cons,
      List.mem_replicate]
    decide
  have hhost := hostLine_of_replaced hblock
    (List.forall_mem_singleton.2 (by decide)) (hline.symm ▸ hnul)
  have hlength : longHostLine.chars.length = 8107 := by
    have hname : hostName.length = 4 := rfl
    rw [HeaderLine.chars, longHostLine, List.length_append, List.length_append, List.length_cons,
      List.length_replicate, hname]
    rfl
  obtain ⟨-, hfails | hfits⟩ := (arrayStates_fit_iff _ _).1
    (h (Uri.filled nul) (bufferedBlock [longHostLine]) (by decide) (by decide))
  · exact (headers_of_block hblock).2 hfails
  · rw [hhost, hline, hlength] at hfits
    simp only [maxline] at hfits
    omega

end Stores

end Proxy
