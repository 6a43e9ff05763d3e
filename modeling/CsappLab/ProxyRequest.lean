/-
**One request from beginning to end.**

`handleRequest` reads the request line, looks up the cache, and sends what it found, or forwards the
request and the response.  It reports some refusals on `stderr` and returns; but every function with
a capital letter ends the process when it fails, and so one name that cannot be resolved, or one
client that hangs up, ends the proxy.

Main definitions:

* `Proxy.Resources`, `Proxy.Io` — what the request finds in the process, and what its sockets do;
* `Proxy.handleRequest` — the function, with `Proxy.serveHit` and `Proxy.serveMiss`;
* `Proxy.Survives` — the conditions on both under which nothing goes wrong.

Main results:

* `Proxy.responseLoop_spec` — the response is forwarded whole, unless a read or a write fails or
  there is no memory for the copy of it;
* `Proxy.returns_serveHit`, `Proxy.returns_serveMiss` — when the two halves return;
* `Proxy.handleRequest_returns_iff` — **for which requests and outcomes `handleRequest` returns**.
-/

import CsappLab.ProxyHeader
import CsappLab.ProxyLru
import CsappLab.ProxyReplay

set_option relaxedAutoImplicit false
set_option autoImplicit false

namespace Proxy

open CText Chunked

/-! ### What a request depends on -/

/-- What a request finds in the process: the cache with its items; whether the locks are granted;
what `malloc` returns for the URI, for the response and for a new item; the sizes for which
`realloc` has memory, which it is asked for no size twice; and the memory behind the response and
behind the content of an item. -/
structure Resources where
  cache : Cache
  items : List Ptr
  rep : Rep cache items
  rdGranted : Bool
  wrGranted : Bool
  uriBlock : Option Uri
  response : Option (List UInt8)
  grants : ℕ → Bool
  alloc : Alloc
  beyond : List UInt8
  heap : ℕ → UInt8

/-- What the sockets do: what the client sends and takes, what comes of the server's name, what the
server takes and sends, and whether the two calls of `Close` succeed. -/
structure Io where
  fromClient : Rio Char
  toClient : Sink
  lookup : Option (List Attempt)
  toServer : Sink
  fromServer : Rio UInt8
  serverCloses : Bool
  clientCloses : Bool

/-- What a request leaves behind: the cache, the bytes that were sent to the client, and the message
on `stderr`. -/
structure Reply where
  cache : Cache
  sent : List UInt8
  message : Option String

/-! ### The function -/

/-- `sscanf(buf, "%s %s %s", method, uri, version)`; the arrays are as long as `buf`. -/
def scanRequestLine (buf : List Char) : Option (List Char × List Char × List Char) := do
  let (method, s) ← scanS maxline buf
  let (uri, s) ← scanS maxline s
  let (version, _) ← scanS maxline s
  return (method, uri, version)

/-- The only method that is served. -/
def getName : List Char := ['G', 'E', 'T']

/-- The end of a line of the response. -/
def newlineByte (b : UInt8) : Bool := b = 10

/-- `response = realloc(response, total_size + n)` and the `memcpy` behind it, if there is a buffer;
a null pointer that `realloc` returns is copied to as well. -/
def appendResponse (grants : ℕ → Bool) (buf : List UInt8) :
    Option Forward → Except Fault (Option Forward)
  | none => .ok none
  | some f =>
      match realloc grants f.response (f.totalSize + buf.length) with
      | none => .error .badWrite
      | some response => .ok (some
          { sent := f.sent ++ buf
            response := memcpy response f.totalSize buf
            totalSize := f.totalSize + buf.length })

/-- The loop that forwards the response, for at most `fuel` passes: what the client still takes,
what it was sent, and the response buffer, if there is one. -/
def responseLoop (grants : ℕ → Bool) : ℕ → Rio UInt8 → Sink → List UInt8 → Option Forward →
    Except Fault (Sink × List UInt8 × Option Forward)
  | 0, _, connfd, sent, response => .ok (connfd, sent, response)
  | fuel + 1, serverRio, connfd, sent, response =>
      match rioReadlinebOrExit newlineByte serverRio maxline with
      | .error e => .error e
      | .ok ([], _) => .ok (connfd, sent, response)
      | .ok (b :: bs, serverRio) =>
          match rioWritenOrExit connfd (b :: bs).length with
          | .error e => .error e
          | .ok connfd =>
              match appendResponse grants (b :: bs) response with
              | .error e => .error e
              | .ok response =>
                  responseLoop grants fuel serverRio connfd (sent ++ b :: bs) response

variable (m : Resources) (io : Io)

/-- `addCacheItem(&cache, cache_key, response, total_size)`, if there is a response. -/
def storeResponse (c : Cache) (key : List Char) : Option Forward → Except Fault Cache
  | none => .ok c
  | some f =>
      if m.wrGranted then
        match addCacheItem m.alloc c key (f.response ++ m.beyond) f.totalSize with
        | none => .error .badRead
        | some c => .ok c
      else .error .blocked

/-- The rest of `handleRequest` when the item is in the cache. -/
def serveHit (c : Cache) (item : Ptr) : Except Fault Reply := do
  let sent ← if c.size item = 0 then pure [] else
    match writeItem c item m.heap with
    | none => .error (.exited "Rio_writen error")  -- a null pointer
    | some bytes => (rioWritenOrExit io.toClient (c.size item)).map fun _ => bytes
  closeOrExit io.clientCloses
  return { cache := c, sent := sent, message := none }

/-- The rest of `handleRequest` when the item is not in the cache. -/
def serveMiss (c : Cache) (u : Uri) (rio : Rio Char) : Except Fault Reply := do
  let (server, _) ← buildHeader u rio
  let serverfd ← openClientfdOrExit io.lookup
  if serverfd < 0 then
    return { cache := c, sent := [], message := some "Connection to server failed\n" }
  let _ ← rioWritenOrExit io.toServer server.length
  let (_, sent, response) ← responseLoop m.grants (io.fromServer.elems.length + 1) io.fromServer
    io.toClient [] (m.response.map fun garbage =>
      { sent := [], response := garbage, totalSize := 0 })
  let c ← storeResponse m c (cacheKey u) response
  closeOrExit io.serverCloses
  closeOrExit io.clientCloses
  return { cache := c, sent := sent, message := none }

/-- A request that is not served. -/
def refuse (message : String) : Except Fault Reply :=
  .ok { cache := m.cache, sent := [], message := some message }

/-- `handleRequest` from the call of `parse_uri` on. -/
def serveUri (rio : Rio Char) (uri : List Char) (d : Uri) : Except Fault Reply :=
  let u := parseUri uri d.fresh
  if u.fits then
    if m.rdGranted then
      match findCacheItem m.cache (cacheKey u) with
      | none => .error .badRead
      | some (c, some item) => serveHit m io c item
      | some (c, none) => serveMiss m io c u rio
    else .error .blocked
  else .error .overflow

/-- `handleRequest`. -/
def handleRequest : Except Fault Reply :=
  match rioReadlinebOrExit newline io.fromClient maxline with
  | .error e => .error e
  | .ok ([], _) => refuse m "Error reading request line\n"
  | .ok (c :: cs, rio) =>
      match scanRequestLine (cstr (c :: cs) 0) with
      | none => refuse m "Invalid request line\n"
      | some (method, uri, _) =>
          if strcasecmp method getName then
            match m.uriBlock with
            | none => refuse m "Memory allocation failed\n"
            | some d => serveUri m io rio uri d
          else refuse m "Proxy does not implement the method\n"

/-! ### Forwarding the response -/

/-- There is memory for a buffer that holds `size` bytes and to which the pieces of a response are
appended one after the other. -/
def Grown (grants : ℕ → Bool) (size : ℕ) (chunks : List (List UInt8)) : Prop :=
  ∀ read, read <+: chunks → read ≠ [] → grants (size + read.flatten.length) = true

theorem grown_nil (grants : ℕ → Bool) (size : ℕ) : Grown grants size [] :=
  fun _ hread hne => absurd (List.prefix_nil.1 hread) hne

theorem grown_cons {grants : ℕ → Bool} {size : ℕ} {buf : List UInt8} {chunks : List (List UInt8)} :
    Grown grants size (buf :: chunks) ↔
      grants (size + buf.length) = true ∧ Grown grants (size + buf.length) chunks := by
  constructor
  · intro h
    refine ⟨?_, fun read hread _ => ?_⟩
    · have hfirst := h [buf] (List.prefix_iff_eq_take.2 rfl) (List.cons_ne_nil _ _)
      rwa [List.flatten_cons, List.flatten_nil, List.append_nil] at hfirst
    · have hnext := h (buf :: read) ((List.prefix_cons_inj buf).2 hread) (List.cons_ne_nil _ _)
      rwa [List.flatten_cons, List.length_append, ← Nat.add_assoc] at hnext
  · rintro ⟨hfirst, hrest⟩ read hread hne
    obtain ⟨read, rfl, hrest'⟩ := (List.prefix_cons_iff.1 hread).resolve_left hne
    rw [List.flatten_cons, List.length_append, ← Nat.add_assoc]
    by_cases hnil : read = []
    · rw [hnil, List.flatten_nil, List.length_nil, Nat.add_zero]
      exact hfirst
    · exact hrest read hrest' hnil

/-- A piece is appended, or there is no memory for it. -/
theorem appendResponse_spec (grants : ℕ → Bool) (buf : List UInt8) (response : Option Forward) :
    (¬ (∀ f, response = some f → grants (f.totalSize + buf.length) = true) ∧
      appendResponse grants buf response = .error .badWrite) ∨
    (∀ f, response = some f → grants (f.totalSize + buf.length) = true) ∧
      appendResponse grants buf response = .ok (response.map (forwardChunk · buf)) := by
  cases response with
  | none =>
      refine .inr ⟨fun f hf => ?_, rfl⟩
      cases hf
  | some f =>
      simp only [Option.some.injEq, forall_eq', appendResponse, realloc]
      by_cases hgrant : grants (f.totalSize + buf.length) = true
      · rw [if_pos hgrant]
        exact .inr ⟨hgrant, rfl⟩
      · rw [if_neg hgrant]
        exact .inl ⟨hgrant, rfl⟩

/-- A response is forwarded whole: no read fails and no write, and there is memory for the buffer,
if there is one. -/
structure Forwards (grants : ℕ → Bool) (serverRio : Rio UInt8) (connfd : Sink)
    (response : Option Forward) : Prop where
  read : serverRio.fails = false
  taken : connfd.Takes serverRio.elems.length
  grown : ∀ f, response = some f →
    Grown grants f.totalSize (lines newlineByte (maxline - 2) serverRio.elems)

/-- The response is forwarded whole, and every piece of it is accumulated, unless something
fails. -/
theorem responseLoop_spec (grants : ℕ → Bool) {fuel : ℕ} (serverRio : Rio UInt8) (connfd : Sink)
    (sent : List UInt8) (response : Option Forward) (hfuel : serverRio.elems.length < fuel) :
    (¬ Forwards grants serverRio connfd response ∧
      ¬ Returns (responseLoop grants fuel serverRio connfd sent response)) ∨
    Forwards grants serverRio connfd response ∧
      ∃ connfd', responseLoop grants fuel serverRio connfd sent response =
        .ok (connfd', sent ++ serverRio.elems, response.map fun f =>
          (lines newlineByte (maxline - 2) serverRio.elems).foldl forwardChunk f) := by
  induction fuel generalizing serverRio connfd sent response with
  | zero => cases hfuel
  | succ fuel ih =>
      rw [responseLoop]
      rcases rioReadlinebOrExit_spec newlineByte serverRio with ⟨hfails, -, hread⟩ |
        ⟨hfails, hnil, serverRio', hread⟩ | ⟨b, bs, serverRio', hread, hlines, hsplit, hfails⟩
      · rw [hread]
        refine .inl ⟨fun h => ?_, not_returns_error _⟩
        have hok := h.read
        rw [hfails] at hok
        cases hok
      · -- the end of the response
        rw [hread]
        refine .inr ⟨⟨hfails, fun b _ => ?_, fun f _ => ?_⟩, connfd, ?_⟩
        · rw [hnil]
          exact Nat.zero_le b
        · rw [hnil, lines_nil]
          exact grown_nil _ _
        · rw [hnil, lines_nil, List.append_nil]
          simp
      rw [hread]
      dsimp only
      rcases rioWritenOrExit_spec connfd (b :: bs).length with ⟨hno, hwrite⟩ |
        ⟨-, connfd', hwrite, htakes⟩
      · rw [hwrite]
        refine .inl ⟨fun h => hno (h.taken.mono ?_), not_returns_error _⟩
        rw [hsplit, List.length_append]
        exact Nat.le_add_right _ _
      rw [hwrite]
      dsimp only
      rcases appendResponse_spec grants (b :: bs) response with ⟨hno, happend⟩ | ⟨hgrants, happend⟩
      · rw [happend]
        refine .inl ⟨fun h => hno fun f hf => ?_, not_returns_error _⟩
        have hgrown := h.grown f hf
        rw [hlines] at hgrown
        exact (grown_cons.1 hgrown).1
      rw [happend]
      have hiff : Forwards grants serverRio connfd response ↔
          Forwards grants serverRio' connfd' (response.map (forwardChunk · (b :: bs))) := by
        have htaken : connfd.Takes serverRio.elems.length ↔
            connfd'.Takes serverRio'.elems.length := by
          rw [htakes, hsplit, List.length_append]
        constructor
        · intro h
          refine ⟨hfails ▸ h.read, htaken.1 h.taken, fun f' hf' => ?_⟩
          obtain ⟨f, hf, rfl⟩ := Option.map_eq_some_iff.1 hf'
          have hgrown := h.grown f hf
          rw [hlines] at hgrown
          exact (grown_cons.1 hgrown).2
        · intro h
          refine ⟨hfails ▸ h.read, htaken.2 h.taken, fun f hf => ?_⟩
          rw [hlines]
          exact grown_cons.2 ⟨hgrants f hf, h.grown _ (Option.map_eq_some_iff.2 ⟨f, hf, rfl⟩)⟩
      have hfuel' : serverRio'.elems.length < fuel := by
        rw [hsplit, List.length_append, List.length_cons] at hfuel
        omega
      rw [hiff]
      rcases ih serverRio' connfd' (sent ++ b :: bs) (response.map (forwardChunk · (b :: bs)))
        hfuel' with hfail | ⟨hyes, connfd'', hrun⟩
      · exact .inl hfail
      · refine .inr ⟨hyes, connfd'', ?_⟩
        dsimp only
        rw [hrun, hlines, hsplit, List.append_assoc, Option.map_map]
        rfl

/-! ### The two halves -/

section Serve

variable {m io}

/-- What has to hold for a hit. -/
structure HitSurvives (m : Resources) (io : Io) (item : Ptr) : Prop where
  content : m.cache.size item ≠ 0 → (m.cache.content item).isSome = true
  taken : io.toClient.Takes (m.cache.size item)
  clientCloses : io.clientCloses = true

/-- **When a hit returns.** -/
theorem returns_serveHit {c : Cache} (hc : SameStore m.cache c) (item : Ptr) :
    Returns (serveHit m io c item) ↔ HitSurvives m io item := by
  have hentry : c.entry item = m.cache.entry item := congrFun hc.entry item
  have hsize : c.size item = m.cache.size item := congrArg Entry.size hentry
  have hcontent : c.content item = m.cache.content item := congrArg Entry.content hentry
  -- what is left when the item was written
  have hlast (sent : List UInt8) : Returns (do
      closeOrExit io.clientCloses
      return ({ cache := c, sent := sent, message := none } : Reply)) ↔ io.clientCloses = true := by
    rcases closeOrExit_spec io.clientCloses with ⟨hno, hclose⟩ | ⟨hyes, hclose⟩
    · rw [hclose]
      exact iff_of_false (not_returns_error _) hno
    · rw [hclose]
      exact iff_of_true (returns_ok _) hyes
  rw [serveHit, hsize]
  by_cases hzero : m.cache.size item = 0
  · rw [if_pos hzero]
    refine (hlast []).trans ⟨fun h => ⟨absurd hzero, fun b _ => ?_, h⟩, HitSurvives.clientCloses⟩
    rw [hzero]
    exact Nat.zero_le b
  · rw [if_neg hzero, writeItem, Entry.reply]
    cases hblock : m.cache.content item with
    | none =>
        have hnone : (c.entry item).content = none := hcontent.trans hblock
        rw [hnone]
        refine iff_of_false (not_returns_error _) fun h => ?_
        have hsome := h.content hzero
        rw [hblock] at hsome
        cases hsome
    | some block =>
        have hsome : (c.entry item).content = some block := hcontent.trans hblock
        rw [hsome, Option.map_some]
        dsimp only
        rcases rioWritenOrExit_spec io.toClient (m.cache.size item) with ⟨hno, hwrite⟩ |
          ⟨hyes, connfd, hwrite, -⟩
        · rw [hwrite]
          exact iff_of_false (not_returns_error _) fun h => hno h.taken
        · rw [hwrite]
          refine (hlast _).trans ⟨fun h => ⟨fun _ => ?_, hyes, h⟩, HitSurvives.clientCloses⟩
          rw [hblock]
          rfl

/-- The response can be stored: it is too large, or there is no memory for an item, or `strdup`
meets a terminator. -/
def Storable (m : Resources) (memory : List UInt8) (size : ℕ) : Prop :=
  maxObjectSize < size ∨ m.alloc.item = false ∨ 0 ∈ memory

theorem returns_storeResponse {c : Cache} {l : List Ptr} (hc : Rep c l) (key : List Char)
    (f : Forward) : Returns (storeResponse m c key (some f)) ↔
      m.wrGranted = true ∧ Storable m (f.response ++ m.beyond) f.totalSize := by
  rw [storeResponse, returns_ite]
  refine and_congr_right fun _ => ?_
  by_cases hlarge : maxObjectSize < f.totalSize
  · rw [addCacheItem_large hlarge]
    exact iff_of_true (returns_ok _) (.inl hlarge)
  · have hsize := Nat.le_of_not_lt hlarge
    cases hitem : m.alloc.item with
    | false =>
        obtain ⟨c', l', hrun, -⟩ :=
          hc.shape.addCacheItem_noItem hitem key (f.response ++ m.beyond) hsize
        rw [hrun]
        exact iff_of_true (returns_ok _) (.inr (.inl hitem))
    | true =>
        by_cases hnul : 0 ∈ f.response ++ m.beyond
        · obtain ⟨c', l', hrun, -⟩ := hc.shape.addCacheItem hitem key hsize (if_pos hnul)
          rw [hrun]
          exact iff_of_true (returns_ok _) (.inr (.inr hnul))
        · refine iff_of_false (fun hreturns => ?_) ?_
          · cases hrun : addCacheItem m.alloc c key (f.response ++ m.beyond) f.totalSize with
            | none =>
                rw [hrun] at hreturns
                exact not_returns_error _ hreturns
            | some c' =>
                obtain ⟨copy, hcopy⟩ := addCacheItem_strdup hitem hsize hrun
                rw [strdup, if_neg hnul] at hcopy
                cases hcopy
          · rintro (h | h | h)
            · exact hlarge h
            · rw [hitem] at h
              cases h
            · exact hnul h

/-- The response buffer when all of the response was read. -/
def received (garbage : List UInt8) (serverRio : Rio UInt8) : List UInt8 :=
  if serverRio.elems = [] then garbage else serverRio.elems

theorem forward_lines (garbage : List UInt8) (serverRio : Rio UInt8) :
    (forward garbage (lines newlineByte (maxline - 2) serverRio.elems)).response =
        received garbage serverRio ∧
      (forward garbage (lines newlineByte (maxline - 2) serverRio.elems)).totalSize =
        serverRio.elems.length := by
  obtain ⟨-, htotal, hresponse⟩ :=
    forward_eq garbage (lines newlineByte (maxline - 2) serverRio.elems)
  rw [htotal, hresponse, responseBuffer, received, flatten_lines]
  refine ⟨?_, rfl⟩
  cases helems : serverRio.elems with
  | nil => rw [lines_nil, if_pos rfl, if_pos rfl]
  | cons x xs =>
      rw [if_neg (List.cons_ne_nil x xs), if_neg]
      rw [lines]
      exact List.cons_ne_nil _ _

/-- The response is stored as it was received, if there is a buffer. -/
theorem returns_storeForwarded {c : Cache} {l : List Ptr} (hc : Rep c l) (key : List Char)
    (serverRio : Rio UInt8) : Returns (storeResponse m c key ((m.response.map fun garbage =>
      ({ sent := [], response := garbage, totalSize := 0 } : Forward)).map fun f =>
        (lines newlineByte (maxline - 2) serverRio.elems).foldl forwardChunk f)) ↔
      ∀ garbage, m.response = some garbage → m.wrGranted = true ∧
        Storable m (received garbage serverRio ++ m.beyond) serverRio.elems.length := by
  cases hresponse : m.response with
  | none => exact iff_of_true (returns_ok _) fun garbage h => by cases h
  | some garbage =>
      obtain ⟨hbuffer, htotal⟩ := forward_lines garbage serverRio
      refine (returns_storeResponse hc key
        (forward garbage (lines newlineByte (maxline - 2) serverRio.elems))).trans ?_
      rw [hbuffer, htotal]
      simp only [Option.some.injEq, forall_eq']

/-- What has to hold for a miss. -/
structure MissSurvives (m : Resources) (io : Io) (u : Uri) (rio : Rio Char) : Prop where
  header : ¬ HeaderFails rio
  text : (u.str .path).length + (hostLine u rio).length + 147 < maxline
  connects : Connects io.lookup
  request : io.toServer.Takes ((u.str .path).length + (hostLine u rio).length + 147)
  read : io.fromServer.fails = false
  forwarded : io.toClient.Takes io.fromServer.elems.length
  grown : ∀ garbage, m.response = some garbage →
    Grown m.grants 0 (lines newlineByte (maxline - 2) io.fromServer.elems)
  stored : ∀ garbage, m.response = some garbage → m.wrGranted = true ∧
    Storable m (received garbage io.fromServer ++ m.beyond) io.fromServer.elems.length
  serverCloses : io.serverCloses = true
  clientCloses : io.clientCloses = true

/-- The loop that forwards the response, from the buffer that `malloc` returned. -/
theorem forwards_iff_grown : Forwards m.grants io.fromServer io.toClient
      (m.response.map fun garbage => { sent := [], response := garbage, totalSize := 0 }) ↔
    io.fromServer.fails = false ∧ io.toClient.Takes io.fromServer.elems.length ∧
      ∀ garbage, m.response = some garbage →
        Grown m.grants 0 (lines newlineByte (maxline - 2) io.fromServer.elems) := by
  constructor
  · intro h
    refine ⟨h.read, h.taken, fun garbage hg => ?_⟩
    exact h.grown _ (Option.map_eq_some_iff.2 ⟨garbage, hg, rfl⟩)
  · rintro ⟨hread, htaken, hgrown⟩
    refine ⟨hread, htaken, fun f hf => ?_⟩
    obtain ⟨garbage, hg, rfl⟩ := Option.map_eq_some_iff.1 hf
    exact hgrown garbage hg

/-- **When a miss returns.** -/
theorem returns_serveMiss {c : Cache} {l : List Ptr} (hc : Rep c l) {u : Uri} (rio : Rio Char)
    (hpath : (u.str .path).length < 100) :
    Returns (serveMiss m io c u rio) ↔ MissSurvives m io u rio := by
  rw [serveMiss]
  rcases buildHeader_spec u rio (by simp only [maxline]; omega) with ⟨hfails, hbuild⟩ |
    ⟨hheader, ⟨hlong, hbuild⟩ | ⟨htext, rio', hbuild⟩⟩
  · rw [hbuild]
    exact iff_of_false (not_returns_error _) fun h => h.header hfails
  · rw [hbuild]
    exact iff_of_false (not_returns_error _) fun h => Nat.not_le.2 h.text hlong
  rw [hbuild, returns_ok_bind]
  dsimp only
  rcases openClientfdOrExit_spec io.lookup with ⟨hno, hopen⟩ | ⟨hconnects, fd, hopen, hfd⟩
  · rw [hopen]
    exact iff_of_false (not_returns_error _) fun h => hno h.connects
  rw [hopen, returns_ok_bind, if_neg hfd, length_request, List.length_nil, Nat.add_zero]
  rcases rioWritenOrExit_spec io.toServer ((u.str .path).length + (hostLine u rio).length + 147)
    with ⟨hno, hwrite⟩ | ⟨hrequest, fd', hwrite, -⟩
  · rw [hwrite]
    exact iff_of_false (not_returns_error _) fun h => hno h.request
  rw [hwrite, returns_ok_bind]
  rcases responseLoop_spec m.grants io.fromServer io.toClient []
      (m.response.map fun garbage => { sent := [], response := garbage, totalSize := 0 })
      (Nat.lt_succ_self _) with ⟨hno, hloop⟩ | ⟨hyes, connfd, hloop⟩
  · exact iff_of_false (not_returns_bind hloop) fun h =>
      hno (forwards_iff_grown.2 ⟨h.read, h.forwarded, h.grown⟩)
  obtain ⟨hread, hforwarded, hgrown⟩ := forwards_iff_grown.1 hyes
  rw [hloop, returns_ok_bind]
  dsimp only
  by_cases hstored : ∀ garbage, m.response = some garbage → m.wrGranted = true ∧
      Storable m (received garbage io.fromServer ++ m.beyond) io.fromServer.elems.length
  case neg =>
    exact iff_of_false (not_returns_bind fun h => hstored ((returns_storeForwarded hc _ _).1 h))
      fun h => hstored h.stored
  obtain ⟨c', hstore⟩ := (returns_storeForwarded hc (cacheKey u) io.fromServer).2 hstored
  rw [hstore, returns_ok_bind]
  rcases closeOrExit_spec io.serverCloses with ⟨hno, hclose⟩ | ⟨hserver, hclose⟩
  · rw [hclose]
    exact iff_of_false (not_returns_error _) fun h => hno h.serverCloses
  rw [hclose, returns_ok_bind]
  rcases closeOrExit_spec io.clientCloses with ⟨hno, hclose'⟩ | ⟨hclient, hclose'⟩
  · rw [hclose']
    exact iff_of_false (not_returns_error _) fun h => hno h.clientCloses
  rw [hclose', returns_ok_bind]
  exact iff_of_true (returns_ok _)
    ⟨hheader, htext, hconnects, hrequest, hread, hforwarded, hgrown, hstored, hserver, hclient⟩

/-- What has to hold for the URI of a request that is served. -/
structure UriSurvives (m : Resources) (io : Io) (uri : List Char) (d : Uri) (rio : Rio Char) :
    Prop where
  host_short : (hostOf uri).length < 100
  path_short : (pathOf uri).length < 100
  rdGranted : m.rdGranted = true
  hit : ∀ item, m.items.find? (m.cache.hasKey (cacheKey (parseUri uri d.fresh))) = some item →
    HitSurvives m io item
  miss : m.items.find? (m.cache.hasKey (cacheKey (parseUri uri d.fresh))) = none →
    MissSurvives m io (parseUri uri d.fresh) rio

/-- **When a request for a URI returns.** -/
theorem returns_serveUri (t : Token) (d : Uri) (rio : Rio Char) :
    Returns (serveUri m io rio t.chars d) ↔ UriSurvives m io t.chars d rio := by
  rw [serveUri, returns_ite, returns_ite, fits_parseUri]
  obtain ⟨c, hfind, hc, hsame⟩ := m.rep.findCacheItem_eq (cacheKey (parseUri t.chars d.fresh))
  rw [hfind]
  constructor
  · rintro ⟨⟨hhost, hpath⟩, hgranted, hreturns⟩
    refine ⟨hhost, hpath, hgranted, fun item hitem => ?_, fun hnone => ?_⟩
    · rw [hitem] at hreturns
      exact (returns_serveHit hsame item).1 hreturns
    · rw [hnone] at hreturns
      refine (returns_serveMiss hc rio ?_).1 hreturns
      rw [str_path_of_fits t hhost]
      exact hpath
  · intro h
    refine ⟨⟨h.host_short, h.path_short⟩, h.rdGranted, ?_⟩
    cases hitem : m.items.find? (m.cache.hasKey (cacheKey (parseUri t.chars d.fresh))) with
    | some item => exact (returns_serveHit hsame item).2 (h.hit item hitem)
    | none =>
        refine (returns_serveMiss hc rio ?_).2 (h.miss hitem)
        rw [str_path_of_fits t h.host_short]
        exact h.path_short

end Serve

/-! ### The request line -/

/-- The URI of a request line that is served. -/
def requestUri (buf : List Char) : Option (List Char) :=
  (scanRequestLine buf).bind fun words =>
    if strcasecmp words.1 getName then some words.2.1 else none

/-- The second word of a request line is a token. -/
theorem token_of_scanRequestLine {buf method uri version : List Char}
    (hlength : buf.length < maxline) (hnul : nul ∉ buf)
    (h : scanRequestLine buf = some (method, uri, version)) : ∃ t : Token, t.chars = uri := by
  obtain ⟨⟨w, s⟩, hfirst, h⟩ := Option.bind_eq_some_iff.1 h
  obtain ⟨⟨w', s'⟩, hsecond, h⟩ := Option.bind_eq_some_iff.1 h
  obtain ⟨⟨w'', s''⟩, -, h⟩ := Option.bind_eq_some_iff.1 h
  cases h
  have hrest : s <:+ buf := (List.suffix_append method s).trans (scanS_suffix hfirst)
  have hword : uri <:+: buf :=
    ((List.prefix_append uri s').isInfix.trans (scanS_suffix hsecond).isInfix).trans hrest.isInfix
  obtain ⟨hne, -, hplain⟩ := scanS_some hsecond
  refine ⟨⟨uri, hne, fun c hc => ⟨(hplain c hc).1, ?_⟩, ?_⟩, rfl⟩
  · rintro rfl
    exact hnul (hword.subset hc)
  · exact Nat.lt_of_le_of_lt hword.length_le hlength

/-- **The conditions under which nothing goes wrong**: the request line is read, and if it asks for
a URI, this is served. -/
structure Survives (m : Resources) (io : Io) : Prop where
  line : ¬ ReadFails newline (maxline - 1) io.fromClient
  served : ∀ buf rio uri d, rioReadlineb newline io.fromClient maxline = some (buf, rio) →
    requestUri (cstr buf 0) = some uri → m.uriBlock = some d → UriSurvives m io uri d rio

/-- A request that is refused. -/
theorem survives_of_refused {m : Resources} {io : Io} {buf : List Char} {rio : Rio Char}
    (hok : ¬ ReadFails newline (maxline - 1) io.fromClient)
    (hread : rioReadlineb newline io.fromClient maxline = some (buf, rio))
    (h : requestUri (cstr buf 0) = none ∨ m.uriBlock = none) : Survives m io where
  line := hok
  served buf' rio' uri d hread' huri hd := by
    rw [hread] at hread'
    cases hread'
    rcases h with h | h
    · rw [h] at huri
      cases huri
    · rw [h] at hd
      cases hd

/-- **For which requests and outcomes `handleRequest` returns.** -/
theorem handleRequest_returns_iff (m : Resources) (io : Io) :
    Returns (handleRequest m io) ↔ Survives m io := by
  rw [handleRequest, rioReadlinebOrExit]
  rcases rioReadlineb_spec newline io.fromClient maxline with ⟨hfails, hread⟩ |
    ⟨hok, rio, hread, -⟩
  · rw [hread]
    exact iff_of_false (not_returns_error _) fun h => h.line hfails
  rw [hread]
  have hlength := length_line_le newline (maxline - 1) io.fromClient.elems
  obtain ⟨buf, hbuf⟩ : ∃ buf, buf = line newline (maxline - 1) io.fromClient.elems := ⟨_, rfl⟩
  rw [← hbuf] at hread hlength ⊢
  have hrefused (message : String) (h : requestUri (cstr buf 0) = none ∨ m.uriBlock = none) :
      Returns (refuse m message) ↔ Survives m io :=
    iff_of_true (returns_ok _) (survives_of_refused hok hread h)
  cases buf with
  | nil => exact hrefused _ (.inl (by decide))
  | cons c cs =>
      dsimp only
      cases hscan : scanRequestLine (cstr (c :: cs) 0) with
      | none => exact hrefused _ (.inl (by rw [requestUri, hscan]; rfl))
      | some words =>
          obtain ⟨method, uri, version⟩ := words
          dsimp only
          by_cases hmethod : strcasecmp method getName = true
          case neg =>
            rw [if_neg hmethod]
            exact hrefused _ (.inl (by rw [requestUri, hscan, Option.bind_some, if_neg hmethod]))
          rw [if_pos hmethod]
          have huri : requestUri (cstr (c :: cs) 0) = some uri := by
            rw [requestUri, hscan, Option.bind_some, if_pos hmethod]
          cases hblock : m.uriBlock with
          | none => exact hrefused _ (.inr hblock)
          | some d =>
              have hcstr : (cstr (c :: cs) 0).length ≤ (c :: cs).length :=
                (List.takeWhile_sublist _).length_le
              obtain ⟨t, rfl⟩ := token_of_scanRequestLine
                (Nat.lt_of_le_of_lt (Nat.le_trans hcstr hlength) (by simp [maxline]))
                (nul_notMem_cstr _ _) hscan
              refine (returns_serveUri t d rio).trans ⟨fun h => ⟨hok, ?_⟩, fun h =>
                h.served _ rio _ d hread huri hblock⟩
              intro buf' rio' uri' d' hread' huri' hd'
              rw [hread] at hread'
              cases hread'
              rw [huri] at huri'
              rw [hblock] at hd'
              cases huri'
              cases hd'
              exact h

/-- The process when the first request comes. -/
def Resources.start : Resources where
  cache := initCache
  items := []
  rep := rep_initCache
  rdGranted := true
  wrGranted := true
  uriBlock := some (Uri.filled nul)
  response := some []
  grants _ := true
  alloc := .all
  beyond := [0]
  heap _ := 0

/-- A request for a host that has no address. -/
def Io.unresolved : Io where
  fromClient := ⟨"GET http://a/ HTTP/1.0\r\n\r\n".toList, []⟩
  toClient := ⟨0, []⟩
  lookup := none
  toServer := ⟨0, []⟩
  fromServer := ⟨[], []⟩
  serverCloses := true
  clientCloses := true

/-- **A name that is not resolved** ends the proxy. -/
theorem resolution_exits : ¬ ∀ io : Io, Returns (handleRequest Resources.start io) := by
  intro h
  obtain ⟨r, hr⟩ := h Io.unresolved
  have hbool : (handleRequest Resources.start Io.unresolved).toBool = false := by decide +kernel
  rw [hr] at hbool
  cases hbool

end Proxy
