/-
**What a request gives back.**

`handleRequest` is handed a descriptor that it has to close, opens another one, and gets a
structure from `malloc`.  It returns from seven places, and gives back at each of them what is
written there.  Only the last place, behind a response that was forwarded, gives back everything: a
refused request leaves the connection open, and a hit leaves the structure.

Main definitions:

* `Proxy.Resource`, `Proxy.ResourceEvent` — what a request acquires and releases;
* `Proxy.handleRequestLog` — `handleRequest` with a log of this;
* `Proxy.Balanced` — everything is released once;
* `Proxy.Misses` — the request asks for a URI that is not in the cache.

Main results:

* `Proxy.erases_handleRequestLog` — the log changes nothing;
* `Proxy.ensures_handleRequestLog` — what stands in the log;
* `Proxy.balanced_iff` — **for which requests everything is released once**.
-/

import CsappLab.EventLog
import CsappLab.ProxyRequest

set_option relaxedAutoImplicit false
set_option autoImplicit false

namespace Proxy

open CText Chunked EventLog

/-! ### The function with a log -/

/-- What a request has to give back: the connection, the sockets for the addresses of the server,
and the structure of its URI. -/
inductive Resource where
  | connfd
  | clientfd (address : ℕ)
  | uriData
  deriving DecidableEq, Repr

/-- `socket` and `malloc`; `close` and `free`. -/
inductive ResourceEvent where
  | acquired (r : Resource)
  | released (r : Resource)
  deriving DecidableEq, Repr

/-- A function of a request, with its events. -/
abbrev Logging (α : Type) := Logged ResourceEvent Fault α

/-- `Close`. -/
def closeLog (r : Resource) (closed : Bool) : Logging Unit := do
  silent (closeOrExit closed)
  record (.released r)

/-- The walk of `open_clientfd` over the addresses from the `i`-th on: the descriptor, and its
address. -/
def connectLog : ℕ → List Attempt → Logging (ℤ × ℕ)
  | i, [] => pure (-1, i)
  | i, .noSocket :: ps => connectLog (i + 1) ps
  | i, .refused closed :: ps => do
      record (.acquired (.clientfd i))
      if closed then
        record (.released (.clientfd i))
        connectLog (i + 1) ps
      else pure (-1, i)
  | i, .connected fd :: _ => do
      record (.acquired (.clientfd i))
      pure (fd, i)

/-- `open_clientfd`. -/
def openClientfdLog : Option (List Attempt) → Logging (ℤ × ℕ)
  | none => pure (-2, 0)
  | some listp => connectLog 0 listp

/-- `Open_clientfd`. -/
def openClientfdOrExitLog (listp : Option (List Attempt)) : Logging (ℤ × ℕ) := do
  let (fd, address) ← openClientfdLog listp
  if fd < 0 then silent (.error (.exited "Open_clientfd error")) else pure (fd, address)

variable (m : Resources) (io : Io)

/-- The rest of `handleRequest` when the item is in the cache. -/
def serveHitLog (c : Cache) (item : Ptr) : Logging Reply := do
  let sent ← if c.size item = 0 then pure [] else
    match writeItem c item m.heap with
    | none => silent (.error (.exited "Rio_writen error"))
    | some bytes => silent ((rioWritenOrExit io.toClient (c.size item)).map fun _ => bytes)
  closeLog .connfd io.clientCloses
  return { cache := c, sent := sent, message := none }

/-- The rest of `handleRequest` when the item is not in the cache. -/
def serveMissLog (c : Cache) (u : Uri) (rio : Rio Char) : Logging Reply := do
  let (server, _) ← silent (buildHeader u rio)
  let (serverfd, address) ← openClientfdOrExitLog io.lookup
  if serverfd < 0 then
    record (.released .uriData)
    return { cache := c, sent := [], message := some "Connection to server failed\n" }
  let _ ← silent (rioWritenOrExit io.toServer server.length)
  let (_, sent, response) ← silent (responseLoop m.grants (io.fromServer.elems.length + 1)
    io.fromServer io.toClient [] (m.response.map fun garbage =>
      { sent := [], response := garbage, totalSize := 0 }))
  let c ← silent (storeResponse m c (cacheKey u) response)
  closeLog (.clientfd address) io.serverCloses
  record (.released .uriData)
  closeLog .connfd io.clientCloses
  return { cache := c, sent := sent, message := none }

/-- `handleRequest` from the call of `parse_uri` on. -/
def serveUriLog (rio : Rio Char) (uri : List Char) (d : Uri) : Logging Reply :=
  let u := parseUri uri d.fresh
  if u.fits then
    if m.rdGranted then
      match findCacheItem m.cache (cacheKey u) with
      | none => silent (.error .badRead)
      | some (c, some item) => serveHitLog m io c item
      | some (c, none) => serveMissLog m io c u rio
    else silent (.error .blocked)
  else silent (.error .overflow)

/-- `handleRequest`. -/
def handleRequestLog : Logging Reply :=
  match rioReadlinebOrExit newline io.fromClient maxline with
  | .error e => silent (.error e)
  | .ok ([], _) => silent (refuse m "Error reading request line\n")
  | .ok (c :: cs, rio) =>
      match scanRequestLine (cstr (c :: cs) 0) with
      | none => silent (refuse m "Invalid request line\n")
      | some (method, uri, _) =>
          if strcasecmp method getName then
            match m.uriBlock with
            | none => silent (refuse m "Memory allocation failed\n")
            | some d => do
                record (.acquired .uriData)
                serveUriLog m io rio uri d
          else silent (refuse m "Proxy does not implement the method\n")

/-! ### The log changes nothing -/

theorem erases_closeLog (r : Resource) (closed : Bool) :
    Erases id (closeLog r closed) (closeOrExit closed) := by
  cases closed
  · exact fun _ => rfl
  · exact fun _ => rfl

theorem erases_connectLog (i : ℕ) (ps : List Attempt) :
    Erases Prod.fst (connectLog i ps) (.ok (connectLoop ps)) := by
  induction ps generalizing i with
  | nil => exact erases_pure _ _
  | cons p ps ih =>
      cases p with
      | noSocket => exact ih (i + 1)
      | refused closed =>
          rw [connectLog, connectLoop]
          cases closed with
          | true => exact ((ih (i + 1)).record_bind _).record_bind _
          | false => exact (erases_pure _ _).record_bind _
      | connected fd => exact (erases_pure _ _).record_bind _

theorem erases_openClientfdLog (listp : Option (List Attempt)) :
    Erases Prod.fst (openClientfdLog listp) (.ok (openClientfd listp)) := by
  cases listp with
  | none => exact erases_pure _ _
  | some ps => exact erases_connectLog 0 ps

theorem erases_openClientfdOrExitLog (listp : Option (List Attempt)) :
    Erases Prod.fst (openClientfdOrExitLog listp) (openClientfdOrExit listp) := by
  refine Erases.bind (g := fun fd => if fd < 0 then .error (.exited "Open_clientfd error")
    else .ok fd) (erases_openClientfdLog listp) fun r _ => ?_
  exact Erases.ite (fun _ _ => rfl) fun _ => erases_pure _ _

theorem erases_serveHitLog (c : Cache) (item : Ptr) :
    Erases id (serveHitLog m io c item) (serveHit m io c item) := by
  -- behind the item that was written
  have hlast (sent : List UInt8) : Erases id (do
      closeLog .connfd io.clientCloses
      return ({ cache := c, sent := sent, message := none } : Reply) : Logging Reply) (do
        closeOrExit io.clientCloses
        return { cache := c, sent := sent, message := none }) :=
    (erases_closeLog _ _).bind fun _ _ => erases_pure _ _
  rw [serveHitLog, serveHit]
  refine Erases.ite (fun _ => (erases_pure id []).bind fun _ _ => hlast _) fun _ => ?_
  cases writeItem c item m.heap with
  | none => exact (erases_silent _).bind fun _ _ => hlast _
  | some bytes => exact (erases_silent _).bind fun _ _ => hlast _

theorem erases_serveMissLog (c : Cache) (u : Uri) (rio : Rio Char) :
    Erases id (serveMissLog m io c u rio) (serveMiss m io c u rio) := by
  refine (erases_silent _).bind fun server _ => ?_
  refine (erases_openClientfdOrExitLog _).bind fun fd _ => ?_
  refine Erases.ite (fun _ => (erases_pure _ _).record_bind _) fun _ => ?_
  refine (erases_silent _).bind fun _ _ => ?_
  refine (erases_silent _).bind fun _ _ => ?_
  refine (erases_silent _).bind fun _ _ => ?_
  refine (erases_closeLog _ _).bind fun _ _ => ?_
  refine Erases.record_bind _ ?_
  exact (erases_closeLog _ _).bind fun _ _ => erases_pure _ _

theorem erases_serveUriLog (rio : Rio Char) (uri : List Char) (d : Uri) :
    Erases id (serveUriLog m io rio uri d) (serveUri m io rio uri d) := by
  refine Erases.ite (fun _ => ?_) fun _ => erases_silent _
  refine Erases.ite (fun _ => ?_) fun _ => erases_silent _
  cases findCacheItem m.cache (cacheKey (parseUri uri d.fresh)) with
  | none => exact erases_silent _
  | some r =>
      obtain ⟨c, item | item⟩ := r
      · exact erases_serveMissLog m io _ _ _
      · exact erases_serveHitLog m io _ _

/-- **The log changes nothing.** -/
theorem erases_handleRequestLog : Erases id (handleRequestLog m io) (handleRequest m io) := by
  rw [handleRequestLog, handleRequest]
  cases rioReadlinebOrExit newline io.fromClient maxline with
  | error e => exact erases_silent _
  | ok r =>
      obtain ⟨_ | ⟨c, cs⟩, rio⟩ := r
      · exact erases_silent _
      dsimp only
      cases scanRequestLine (cstr (c :: cs) 0) with
      | none => exact erases_silent _
      | some words =>
          refine Erases.ite (fun _ => ?_) fun _ => erases_silent _
          cases m.uriBlock with
          | none => exact erases_silent _
          | some d => exact (erases_serveUriLog m io _ _ _).record_bind _

/-! ### The events -/

/-- The events of addresses that refuse the connection. -/
def refusedEvents (is : List ℕ) : List ResourceEvent :=
  is.flatMap fun i => [.acquired (.clientfd i), .released (.clientfd i)]

/-- The walk leaves the socket of one address open. -/
def Walked (i : ℕ) (r : ℤ × ℕ) (es : List ResourceEvent) : Prop :=
  0 ≤ r.1 → ∃ is, is.Nodup ∧ (∀ k ∈ is, i ≤ k ∧ k < r.2) ∧ i ≤ r.2 ∧
    es = refusedEvents is ++ [.acquired (.clientfd r.2)]

theorem ensures_connectLog (i : ℕ) (ps : List Attempt) :
    Ensures (connectLog i ps) (Walked i) := by
  have hfailed (j : ℕ) : Walked j (-1, j) [] := fun h => absurd h (by decide : ¬ (0 : ℤ) ≤ -1)
  induction ps generalizing i with
  | nil => exact ensures_pure (hfailed i)
  | cons p ps ih =>
      cases p with
      | noSocket =>
          intro log r log' hrun
          obtain ⟨es, hes, hwalk⟩ := ih (i + 1) log r log' hrun
          refine ⟨es, hes, fun h => ?_⟩
          obtain ⟨is, hnodup, his, hlt, hevents⟩ := hwalk h
          exact ⟨is, hnodup, fun k hk => ⟨Nat.le_of_succ_le (his k hk).1, (his k hk).2⟩,
            Nat.le_of_succ_le hlt, hevents⟩
      | refused closed =>
          refine (ensures_record _).bind ?_
          rintro - es rfl
          cases closed with
          | false => exact ensures_pure fun h => absurd h (by decide : ¬ (0 : ℤ) ≤ -1)
          | true =>
              refine (ensures_record _).bind ?_
              rintro - es rfl
              intro log r log' hrun
              obtain ⟨es, hes, hwalk⟩ := ih (i + 1) log r log' hrun
              refine ⟨es, hes, fun h => ?_⟩
              obtain ⟨is, hnodup, his, hlt, hevents⟩ := hwalk h
              refine ⟨i :: is, List.nodup_cons.2 ⟨fun hi => ?_, hnodup⟩,
                List.forall_mem_cons.2 ⟨⟨Nat.le_refl i, hlt⟩, fun k hk => ?_⟩,
                Nat.le_of_succ_le hlt, by rw [hevents]; rfl⟩
              · exact Nat.not_succ_le_self i (his i hi).1
              · exact ⟨Nat.le_of_succ_le (his k hk).1, (his k hk).2⟩
      | connected fd =>
          refine (ensures_record _).bind ?_
          rintro - es rfl
          exact ensures_pure fun _ => ⟨[], List.nodup_nil, fun k hk => (nomatch hk), Nat.le_refl i,
            rfl⟩

/-- What stands in the log behind a connection. -/
def Connected (address : ℕ) (es : List ResourceEvent) : Prop :=
  ∃ is, is.Nodup ∧ address ∉ is ∧ es = refusedEvents is ++ [.acquired (.clientfd address)]

theorem ensures_openClientfdOrExitLog (listp : Option (List Attempt)) :
    Ensures (openClientfdOrExitLog listp) fun r es => ¬ r.1 < 0 ∧ Connected r.2 es := by
  have hopen : Ensures (openClientfdLog listp) (Walked 0) := by
    cases listp with
    | none => exact ensures_pure fun h => absurd h (by decide : ¬ (0 : ℤ) ≤ -2)
    | some ps => exact ensures_connectLog 0 ps
  refine hopen.bind fun r es hwalk => ?_
  refine Ensures.ite (fun _ => ensures_error _ _) fun hfd => ensures_pure ⟨hfd, ?_⟩
  obtain ⟨is, hnodup, his, -, hevents⟩ := hwalk (Int.not_lt.1 hfd)
  exact ⟨is, hnodup, fun h => Nat.lt_irrefl _ (his _ h).2, by rw [List.append_nil]; exact hevents⟩

theorem ensures_closeLog (r : Resource) (closed : Bool) :
    Ensures (closeLog r closed) fun _ es => es = [.released r] := by
  refine (ensures_silent _).bind ?_
  rintro - - ⟨-, rfl⟩
  exact ensures_record _

/-- Events of a hit. -/
theorem ensures_serveHitLog (c : Cache) (item : Ptr) :
    Ensures (serveHitLog m io c item) fun _ es => es = [.released .connfd] := by
  have hlast (sent : List UInt8) : Ensures (do
      closeLog .connfd io.clientCloses
      return ({ cache := c, sent := sent, message := none } : Reply) : Logging Reply)
        fun _ es => es = [.released .connfd] :=
    (ensures_closeLog _ _).bind fun _ es hes => ensures_pure (by rw [hes]; rfl)
  rw [serveHitLog]
  refine Ensures.ite (fun _ => hlast []) fun _ => ?_
  cases writeItem c item m.heap with
  | none => exact (ensures_error _ fun _ _ => False).bind fun _ _ h => h.elim
  | some bytes =>
      refine (ensures_silent _).bind ?_
      rintro sent - ⟨-, rfl⟩
      exact hlast sent

/-- Events of a miss. -/
theorem ensures_serveMissLog (c : Cache) (u : Uri) (rio : Rio Char) :
    Ensures (serveMissLog m io c u rio) fun _ es => ∃ address, ∃ es', Connected address es' ∧
      es = es' ++ [.released (.clientfd address), .released .uriData, .released .connfd] := by
  refine (ensures_silent _).bind ?_
  rintro server - ⟨-, rfl⟩
  refine (ensures_openClientfdOrExitLog _).bind ?_
  rintro ⟨fd, address⟩ es ⟨hfd, hconnected⟩
  refine Ensures.ite (fun h => absurd h hfd) fun _ => ?_
  refine (ensures_silent _).bind ?_
  rintro - - ⟨-, rfl⟩
  refine (ensures_silent _).bind ?_
  rintro response - ⟨-, rfl⟩
  refine (ensures_silent _).bind ?_
  rintro c - ⟨-, rfl⟩
  refine (ensures_closeLog _ _).bind ?_
  rintro - - rfl
  refine (ensures_record _).bind ?_
  rintro - - rfl
  refine (ensures_closeLog _ _).bind ?_
  rintro - - rfl
  exact ensures_pure ⟨address, es, hconnected, by simp⟩

/-- The request asks for a URI that is not in the cache, and there is memory for it. -/
def Misses : Prop :=
  ∃ uri d, requestUri (cstr (line newline (maxline - 1) io.fromClient.elems) 0) = some uri ∧
    m.uriBlock = some d ∧
      m.items.find? (m.cache.hasKey (cacheKey (parseUri uri d.fresh))) = none

/-- The events of a request. -/
def RequestEvents (es : List ResourceEvent) : Prop :=
  (¬ Misses m io ∧ (es = [] ∨ es = [.acquired .uriData, .released .connfd])) ∨
    Misses m io ∧ ∃ address, ∃ es', Connected address es' ∧ es = .acquired .uriData ::
      (es' ++ [.released (.clientfd address), .released .uriData, .released .connfd])

theorem ensures_serveUriLog (rio : Rio Char) (uri : List Char) (d : Uri)
    (huri : requestUri (cstr (line newline (maxline - 1) io.fromClient.elems) 0) = some uri)
    (hd : m.uriBlock = some d) :
    Ensures (serveUriLog m io rio uri d) fun _ es =>
      RequestEvents m io (.acquired .uriData :: es) := by
  have hmisses : Misses m io ↔
      m.items.find? (m.cache.hasKey (cacheKey (parseUri uri d.fresh))) = none := by
    constructor
    · rintro ⟨uri', d', huri', hd', hnone⟩
      rw [huri] at huri'
      rw [hd] at hd'
      cases huri'
      cases hd'
      exact hnone
    · intro hnone
      exact ⟨uri, d, huri, hd, hnone⟩
  refine Ensures.ite (fun _ => ?_) fun _ => ensures_error _ _
  refine Ensures.ite (fun _ => ?_) fun _ => ensures_error _ _
  obtain ⟨c, hfind, -, -⟩ := m.rep.findCacheItem_eq (cacheKey (parseUri uri d.fresh))
  rw [hfind]
  cases hitem : m.items.find? (m.cache.hasKey (cacheKey (parseUri uri d.fresh))) with
  | some item =>
      refine (ensures_serveHitLog m io c item).mono fun _ es hes => .inl ⟨?_, .inr (by rw [hes])⟩
      rw [hmisses, hitem]
      exact Option.some_ne_none item
  | none =>
      refine (ensures_serveMissLog m io c _ rio).mono fun _ es => ?_
      rintro ⟨address, es', hconnected, rfl⟩
      exact .inr ⟨hmisses.2 hitem, address, es', hconnected, rfl⟩

/-- **What stands in the log.** -/
theorem ensures_handleRequestLog :
    Ensures (handleRequestLog m io) fun _ es => RequestEvents m io es := by
  have hrefused (message : String) (h : ∀ uri d,
      requestUri (cstr (line newline (maxline - 1) io.fromClient.elems) 0) = some uri →
        m.uriBlock ≠ some d) :
      Ensures (silent (refuse m message) : Logging Reply) fun _ es => RequestEvents m io es := by
    refine (ensures_silent _).mono ?_
    rintro - - ⟨-, rfl⟩
    refine .inl ⟨?_, .inl rfl⟩
    rintro ⟨uri, d, huri, hd, -⟩
    exact h uri d huri hd
  rw [handleRequestLog, rioReadlinebOrExit]
  rcases rioReadlineb_spec newline io.fromClient maxline with ⟨-, hread⟩ | ⟨-, rio, hread, -⟩
  · rw [hread]
    exact ensures_error _ _
  rw [hread]
  obtain ⟨buf, hbuf⟩ : ∃ buf, buf = line newline (maxline - 1) io.fromClient.elems := ⟨_, rfl⟩
  rw [← hbuf] at hrefused ⊢
  cases buf with
  | nil =>
      refine hrefused _ fun uri d huri => ?_
      have hnone : requestUri (cstr [] 0) = none := by decide
      rw [hnone] at huri
      cases huri
  | cons c cs =>
      dsimp only
      cases hscan : scanRequestLine (cstr (c :: cs) 0) with
      | none =>
          refine hrefused _ fun uri d huri => ?_
          rw [requestUri, hscan] at huri
          cases huri
      | some words =>
          obtain ⟨method, uri, version⟩ := words
          refine Ensures.ite (fun hmethod => ?_) fun hmethod => hrefused _ fun uri' d huri => ?_
          · cases hd : m.uriBlock with
            | none =>
                refine hrefused _ fun uri' d _ hd' => ?_
                rw [hd] at hd'
                cases hd'
            | some d =>
                refine (ensures_record _).bind ?_
                rintro - - rfl
                refine ensures_serveUriLog m io rio uri d ?_ hd
                rw [← hbuf, requestUri, hscan, Option.bind_some, if_pos hmethod]
          · rw [requestUri, hscan, Option.bind_some, if_neg hmethod] at huri
            cases huri

/-! ### Balance -/

/-- Everything is released once: the connection, each socket that was opened, and the structure if
there is one. -/
structure Balanced (log : List ResourceEvent) : Prop where
  connfd : log.count (.released .connfd) = 1
  clientfd : ∀ i, log.count (.acquired (.clientfd i)) ≤ 1 ∧
    log.count (.released (.clientfd i)) = log.count (.acquired (.clientfd i))
  uriData : log.count (.acquired .uriData) ≤ 1 ∧
    log.count (.released .uriData) = log.count (.acquired .uriData)

section Balance

variable {m io}

theorem count_refusedEvents (is : List ℕ) (i : ℕ) :
    (refusedEvents is).count (.acquired (.clientfd i)) = is.count i ∧
      (refusedEvents is).count (.released (.clientfd i)) = is.count i := by
  induction is with
  | nil => exact ⟨rfl, rfl⟩
  | cons k is ih =>
      rw [refusedEvents, List.flatMap_cons, List.count_append, List.count_append,
        ← refusedEvents, ih.1, ih.2]
      by_cases hk : k = i
      · subst hk
        simp [Nat.add_comm]
      · simp [hk]

theorem notMem_refusedEvents {e : ResourceEvent} (is : List ℕ)
    (h : ∀ i, e ≠ .acquired (.clientfd i) ∧ e ≠ .released (.clientfd i)) :
    (refusedEvents is).count e = 0 := by
  rw [List.count_eq_zero, refusedEvents, List.mem_flatMap]
  rintro ⟨i, -, hi⟩
  rcases List.mem_cons.1 hi with hi | hi
  · exact (h i).1 hi
  · exact (h i).2 (List.mem_singleton.1 hi)

/-- A miss gives everything back. -/
theorem balanced_of_miss {address : ℕ} {es : List ResourceEvent} (h : Connected address es) :
    Balanced (.acquired .uriData ::
      (es ++ [.released (.clientfd address), .released .uriData, .released .connfd])) := by
  obtain ⟨is, hnodup, haddress, rfl⟩ := h
  have hother (e : ResourceEvent)
      (he : ∀ i, e ≠ .acquired (.clientfd i) ∧ e ≠ .released (.clientfd i)) :=
    notMem_refusedEvents is he
  refine ⟨?_, fun i => ?_, ?_⟩
  · simp [hother]
  · have hle : is.count i ≤ 1 := List.nodup_iff_count_le_one.1 hnodup i
    have hzero : is.count address = 0 := List.count_eq_zero.2 haddress
    by_cases hi : i = address
    · subst hi
      simp [count_refusedEvents, hzero]
    · have hi' : ¬ address = i := fun h => hi h.symm
      simp [count_refusedEvents, hi', hle]
  · simp [hother]

/-- **For which requests everything is released once**: those that return behind a response that was
forwarded. -/
theorem balanced_iff (m : Resources) (io : Io) {r : Reply} {log : List ResourceEvent}
    (h : handleRequestLog m io [] = .ok (r, log)) : Balanced log ↔ Misses m io := by
  obtain ⟨es, hes, hevents⟩ := ensures_handleRequestLog m io [] r log h
  rw [hes, List.nil_append]
  rcases hevents with ⟨hno, rfl | rfl⟩ | ⟨hmiss, address, es', hconnected, rfl⟩
  · exact iff_of_false (fun h => absurd h.connfd (by decide)) hno
  · exact iff_of_false (fun h => absurd h.uriData.2 (by decide)) hno
  · exact iff_of_true (balanced_of_miss hconnected) hmiss

end Balance

/-- A request whose response is forwarded. -/
def Io.forwarded : Io where
  fromClient := ⟨"GET http://a/ HTTP/1.0\r\n\r\n".toList, []⟩
  toClient := ⟨0, []⟩
  lookup := some [.refused true, .connected 5]
  toServer := ⟨0, []⟩
  fromServer := ⟨[10], []⟩
  serverCloses := true
  clientCloses := true

/-- It gives back everything. -/
theorem balanced_iff_forwarded : ∃ r log,
    handleRequestLog Resources.start Io.forwarded [] = .ok (r, log) ∧ Balanced log := by
  have hmisses : Misses Resources.start Io.forwarded :=
    ⟨"http://a/".toList, Uri.filled nul, by decide +kernel, rfl, rfl⟩
  have hbool : (handleRequestLog Resources.start Io.forwarded []).toBool = true := by
    decide +kernel
  cases hrun : handleRequestLog Resources.start Io.forwarded [] with
  | error e =>
      rw [hrun] at hbool
      cases hbool
  | ok r => exact ⟨r.1, r.2, rfl, (balanced_iff _ _ hrun).2 hmisses⟩

/-- A client that hangs up without a word. -/
def Io.empty : Io := { Io.forwarded with fromClient := ⟨[], []⟩ }

/-- **A connection that is left open.** -/
theorem connection_leaks : ¬ ∀ (m : Resources) (io : Io) (r : Reply) (log : List ResourceEvent),
    handleRequestLog m io [] = .ok (r, log) → Balanced log := by
  intro h
  have hbalanced := h Resources.start Io.empty _ [] rfl
  exact absurd hbalanced.connfd (by decide)

end Proxy
