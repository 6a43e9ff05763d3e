/-
**What the proxy sends on a hit.**

`handleRequest` forwards the origin's response chunk by chunk and accumulates it in a counted
buffer; `addCacheItem` copies that buffer with `strdup`, and a hit writes `item->size` bytes from
the copy.  A response with a NUL byte before its last byte is cut there, and what follows the copy
in the heap is sent in its place.  A response without a NUL byte is copied together with whatever
follows the buffer up to the next NUL byte; if there is none, `strdup` runs off the heap.

A run is a sequence of lookups and additions, in the order in which their calls are granted the
lock.

Main definitions:

* `Proxy.forward` — the loop that forwards a response and accumulates it;
* `Proxy.writeItem` — what a hit sends, given the heap behind the copy;
* `Proxy.Op`, `Proxy.Session.run` — lookups and additions, with the latest response stored under
  each key;
* `Proxy.Exact` — the client that missed was sent the response, and a hit sends it again.

Main results:

* `Proxy.reply_exact_iff` — which copies are sent back unchanged;
* `Proxy.exact_iff_copyable` — a run is exact throughout iff every stored response can be copied;
* `Proxy.replay_cut` — a response that is not.
-/

import CsappLab.ProxyList
import CsappLab.Runs
import Mathlib.Data.List.Find

set_option relaxedAutoImplicit false
set_option autoImplicit false

namespace Proxy

/-! ### Forwarding a response -/

/-- The block that `realloc` returns when there is memory: it is cut, or extended by bytes that are
overwritten before they are read. -/
def resized (block : List UInt8) (n : ℕ) : List UInt8 :=
  block.take n ++ List.replicate (n - block.length) 0

/-- `realloc`, given the sizes for which there is memory. -/
def realloc (grants : ℕ → Bool) (block : List UInt8) (n : ℕ) : Option (List UInt8) :=
  if grants n then some (resized block n) else none

/-- `memcpy` into a block at an offset. -/
def memcpy (block : List UInt8) (offset : ℕ) (buf : List UInt8) : List UInt8 :=
  block.take offset ++ buf ++ block.drop (offset + buf.length)

/-- The state of the loop in `handleRequest`: the bytes written to the client, the response buffer
and `total_size`. -/
structure Forward where
  sent : List UInt8
  response : List UInt8
  totalSize : ℕ
  deriving DecidableEq

/-- One turn, when there is memory for what `Rio_readlineb` read into `buf`. -/
def forwardChunk (f : Forward) (buf : List UInt8) : Forward where
  sent := f.sent ++ buf
  response := memcpy (resized f.response (f.totalSize + buf.length)) f.totalSize buf
  totalSize := f.totalSize + buf.length

/-- The loop, from a buffer fresh from `malloc`. -/
def forward (garbage : List UInt8) (chunks : List (List UInt8)) : Forward :=
  chunks.foldl forwardChunk { sent := [], response := garbage, totalSize := 0 }

/-- The response buffer after the loop: without a single chunk it is as `malloc` returned it. -/
def responseBuffer (garbage : List UInt8) (chunks : List (List UInt8)) : List UInt8 :=
  if chunks = [] then garbage else chunks.flatten

/-- A turn appends to the part of the buffer that counts, and cuts the rest. -/
theorem response_forwardChunk {f : Forward} {buf : List UInt8}
    (h : f.totalSize ≤ f.response.length) :
    (forwardChunk f buf).response = f.response.take f.totalSize ++ buf := by
  have htake : (resized f.response (f.totalSize + buf.length)).take f.totalSize =
      f.response.take f.totalSize := by
    rw [resized, List.take_append_of_le_length (by rw [List.length_take]; omega), List.take_take,
      Nat.min_eq_left (by omega)]
  have hdrop : (resized f.response (f.totalSize + buf.length)).drop (f.totalSize + buf.length) =
      [] := by
    refine List.drop_eq_nil_of_le ?_
    simp only [resized, List.length_append, List.length_take, List.length_replicate]
    omega
  simp only [forwardChunk, memcpy, htake, hdrop, List.append_nil]

/-- **The loop is a faithful copy**: everything is sent, and counted, and accumulated. -/
theorem forward_eq (garbage : List UInt8) (chunks : List (List UInt8)) :
    (forward garbage chunks).sent = chunks.flatten ∧
      (forward garbage chunks).totalSize = chunks.flatten.length ∧
      (forward garbage chunks).response = responseBuffer garbage chunks := by
  induction chunks using List.reverseRecOn with
  | nil => exact ⟨rfl, rfl, rfl⟩
  | append_singleton chunks buf ih =>
      obtain ⟨hsent, htotal, hresponse⟩ := ih
      have hstep : forward garbage (chunks ++ [buf]) =
          forwardChunk (forward garbage chunks) buf := by
        simp [forward]
      have htake : (forward garbage chunks).totalSize ≤ (forward garbage chunks).response.length ∧
          (forward garbage chunks).response.take (forward garbage chunks).totalSize =
            chunks.flatten := by
        rw [htotal, hresponse, responseBuffer]
        split
        · rename_i hnil
          simp [hnil]
        · simp
      rw [hstep, response_forwardChunk htake.1, htake.2]
      refine ⟨?_, ?_, ?_⟩
      · simp [forwardChunk, hsent]
      · simp [forwardChunk, htotal]
      · simp [responseBuffer]

/-! ### Replaying a copy -/

/-- What is sent for an entry: `size` bytes from the start of its content.  Behind the content
lies the rest of the heap. -/
def Entry.reply (e : Entry) (heap : ℕ → UInt8) : Option (List UInt8) :=
  e.content.map fun block =>
    (block ++ (List.range (e.size - block.length)).map heap).take e.size

/-- `Rio_writen(connfd, item->content, item->size)`. -/
def writeItem (c : Cache) (item : Ptr) (heap : ℕ → UInt8) : Option (List UInt8) :=
  (c.entry item).reply heap

/-- `strdup` cuts its source behind the first NUL byte. -/
theorem strdup_some {memory copy : List UInt8} (h : strdup memory = some copy) :
    ∃ w rest, memory = w ++ 0 :: rest ∧ 0 ∉ w ∧ copy = w ++ [0] := by
  rw [strdup] at h
  split at h
  · rename_i hmem
    obtain ⟨w, rest, rfl, hw⟩ := List.eq_append_cons_of_mem hmem
    refine ⟨w, rest, rfl, hw, ?_⟩
    have htake : (w ++ 0 :: rest).takeWhile (fun x => decide (x ≠ 0)) = w := by
      rw [List.takeWhile_append_of_pos]
      · simp
      · intro x hx
        have : x ≠ 0 := fun h0 => hw (h0 ▸ hx)
        simpa using this
    rw [htake] at h
    exact (Option.some.inj h).symm
  · cases h

/-- Only the empty list is read from every heap. -/
theorem map_heap_eq {t : List UInt8} (h : ∀ heap : ℕ → UInt8, (List.range t.length).map heap = t) :
    t = [] := by
  cases t with
  | nil => rfl
  | cons x t =>
      have h0 := h fun _ => x + 1
      simp [List.range_succ_eq_map] at h0

/-- **Which copies are sent back unchanged**: those of responses with no NUL byte before the last
byte. -/
theorem reply_exact_iff (url : Option (List Char)) {memory copy r : List UInt8}
    (hcopy : strdup memory = some copy) (hr : memory.take r.length = r) :
    (∀ heap, Entry.reply { url := url, content := some copy, size := r.length } heap = some r) ↔
      0 ∉ r.dropLast := by
  obtain ⟨w, rest, rfl, hw, rfl⟩ := strdup_some hcopy
  simp only [Entry.reply, Option.map_some, Option.some.injEq, List.length_append,
    List.length_singleton]
  rcases Nat.lt_or_ge w.length r.length with hlong | hshort
  · -- the response goes on behind the first NUL byte
    obtain ⟨t, ht⟩ : ∃ t, r = w ++ 0 :: t := by
      refine ⟨rest.take (r.length - w.length - 1), ?_⟩
      conv_lhs => rw [← hr]
      rw [List.take_append, List.take_of_length_le hlong.le,
        show r.length - w.length = (r.length - w.length - 1) + 1 by omega, List.take_succ_cons]
      rfl
    subst ht
    have hlen : (w ++ 0 :: t).length - (w.length + 1) = t.length := by
      simp only [List.length_append, List.length_cons]
      omega
    have hreply : ∀ heap : ℕ → UInt8,
        (w ++ [0] ++ (List.range ((w ++ 0 :: t).length - (w.length + 1))).map heap).take
          (w ++ 0 :: t).length = w ++ 0 :: (List.range t.length).map heap := by
      intro heap
      rw [hlen, List.take_of_length_le (by simp)]
      simp
    simp only [hreply, List.append_cancel_left_eq, List.cons.injEq, true_and]
    cases t with
    | nil => simpa using hw
    | cons x t =>
        refine iff_of_false (fun h => ?_) fun h => h ?_
        · cases map_heap_eq h
        · rw [List.dropLast_append_of_ne_nil (by simp), List.dropLast_cons_of_ne_nil (by simp)]
          simp
  · -- the first NUL byte lies behind the response
    have hpre : r = w.take r.length := by
      conv_lhs => rw [← hr]
      exact List.take_append_of_le_length hshort
    refine iff_of_true (fun heap => ?_) fun h => ?_
    · rw [List.append_assoc, List.take_append_of_le_length hshort]
      exact hpre.symm
    · have hmem : (0 : UInt8) ∈ r := List.dropLast_subset _ h
      rw [hpre] at hmem
      exact hw (List.mem_of_mem_take hmem)

/-! ### Runs -/

/-- A lookup, or an addition of a response: what `malloc` returned for the buffer, the chunks
`Rio_readlineb` delivered, and the memory behind the buffer when it is copied. -/
inductive Op where
  | get (key : List Char)
  | put (key : List Char) (garbage : List UInt8) (chunks : List (List UInt8)) (beyond : List UInt8)

/-- The cache, the response stored last under each key, and for each client that missed the
response the origin delivered together with what the client was sent. -/
structure Session where
  cache : Cache
  latest : List Char → Option (List UInt8)
  delivered : List (List UInt8 × List UInt8)

/-- One call that is granted the lock. -/
def Session.step (s : Session) : Op → Option Session
  | .get key => (findCacheItem s.cache key).map fun found => { s with cache := found.1 }
  | .put key garbage chunks beyond =>
      let f := forward garbage chunks
      (addCacheItem Alloc.all s.cache key (f.response ++ beyond) f.totalSize).map fun c =>
        { cache := c
          latest := if f.totalSize ≤ maxObjectSize
            then Function.update s.latest key (some chunks.flatten) else s.latest
          delivered := s.delivered ++ [(chunks.flatten, f.sent)] }

/-- The proxy at start-up. -/
def Session.start : Session := { cache := initCache, latest := fun _ => none, delivered := [] }

/-- A run; it has no result if a call does not return. -/
def Session.run (ops : List Op) : Option Session := ops.foldlM Session.step Session.start

/-- **Exact**: every client that missed was sent the response, and a request that hits now is sent
the response stored last under its key. -/
structure Exact (s : Session) : Prop where
  delivered : ∀ d ∈ s.delivered, d.2 = d.1
  replayed : ∀ key c' item, findCacheItem s.cache key = some (c', some item) →
    ∃ r, s.latest key = some r ∧ ∀ heap, writeItem c' item heap = some r

/-- The response can be copied: no NUL byte stands before its last byte, and there is one in the
memory `strdup` reads. -/
def Copyable (r memory : List UInt8) : Prop := 0 ∉ r.dropLast ∧ 0 ∈ memory

/-! ### What a run preserves -/

/-- The first item with a key holds a copy that is sent back as the response stored last under
that key. -/
def Faithful (c : Cache) (latest : List Char → Option (List UInt8)) (l : List Ptr) : Prop :=
  ∀ key p, (l.find? fun q => c.url q = some key) = some p →
    ∃ r, latest key = some r ∧ ∀ heap, (c.entry p).reply heap = some r

/-- The property of a state that carries the induction over a run. -/
structure Sound (s : Session) (l : List Ptr) : Prop where
  rep : Rep s.cache l
  delivered : ∀ d ∈ s.delivered, d.2 = d.1
  faithful : Faithful s.cache s.latest l

theorem sound_start : Sound Session.start [] where
  rep := rep_initCache
  delivered d hd := by cases hd
  faithful key p hp := by cases hp

/-- What a lookup returns is the first item with its key. -/
theorem Rep.find?_of_found {c c' : Cache} {l : List Ptr} (h : Rep c l) {key : List Char}
    {item : Ptr} (hfound : Proxy.findCacheItem c key = some (c', some item)) :
    (l.find? fun q => c.url q = some key) = some item ∧ c'.entry item = c.entry item := by
  rcases h.findCacheItem key with ⟨l₁, p, l₂, c₁, rfl, hp, hl₁, hrun, -, hs⟩ | ⟨-, c₁, hrun, -⟩
  · rw [hfound] at hrun
    cases hrun
    refine ⟨List.find?_eq_some_iff_append.2 ⟨by simpa using hp, l₁, l₂, rfl, ?_⟩,
      congrFun hs.entry item⟩
    intro q hq
    simpa using hl₁ q hq
  · rw [hfound] at hrun
    cases hrun

theorem Sound.exact {s : Session} {l : List Ptr} (h : Sound s l) : Exact s where
  delivered := h.delivered
  replayed key c' item hfound := by
    obtain ⟨hfind, hentry⟩ := h.rep.find?_of_found hfound
    rw [show writeItem c' item = (s.cache.entry item).reply by rw [← hentry]; rfl]
    exact h.faithful key item hfind

/-- A lookup. -/
theorem Sound.step_get {s : Session} {l : List Ptr} (h : Sound s l) (key : List Char) :
    ∃ s' l', s.step (.get key) = some s' ∧ Sound s' l' := by
  rcases h.rep.findCacheItem key with ⟨l₁, p, l₂, c', rfl, hp, hl₁, hrun, hrep, hs⟩ |
    ⟨-, c', hrun, hrep, hs⟩
  · have hurl : c'.url = s.cache.url := funext fun q => url_of_entry (congrFun hs.entry q)
    refine ⟨{ s with cache := c' }, _, by simp only [Session.step, hrun, Option.map_some], hrep,
      h.delivered, ?_⟩
    intro key' q hq
    rw [hs.entry]
    refine h.faithful key' q ?_
    simp only [hurl, List.find?_cons] at hq
    -- the item in front is the first one with its key before as well as after the move
    by_cases hkey : s.cache.url p = some key'
    · simp only [hkey, decide_true] at hq
      obtain rfl : p = q := Option.some.inj hq
      rw [hp] at hkey
      cases hkey
      exact List.find?_eq_some_iff_append.2 ⟨by simpa using hp, l₁, l₂, rfl, fun q hq => by
        simpa using hl₁ q hq⟩
    · simp only [hkey, decide_false] at hq
      rw [List.find?_append] at hq ⊢
      simpa [List.find?_cons, hkey] using hq
  · have hurl : c'.url = s.cache.url := funext fun q => url_of_entry (congrFun hs.entry q)
    refine ⟨{ s with cache := c' }, l, by simp only [Session.step, hrun, Option.map_some], hrep,
      h.delivered, ?_⟩
    intro key' q hq
    rw [hs.entry]
    exact h.faithful key' q (by simpa only [hurl] using hq)

theorem take_responseBuffer (garbage beyond : List UInt8) (chunks : List (List UInt8)) :
    (responseBuffer garbage chunks ++ beyond).take chunks.flatten.length = chunks.flatten := by
  rw [responseBuffer]
  split
  · rename_i hnil
    simp [hnil]
  · simp

theorem step_put_eq (s : Session) (key : List Char) (garbage : List UInt8)
    (chunks : List (List UInt8)) (beyond : List UInt8) :
    s.step (.put key garbage chunks beyond) =
      (addCacheItem Alloc.all s.cache key (responseBuffer garbage chunks ++ beyond)
        chunks.flatten.length).map fun c =>
          { cache := c
            latest := if chunks.flatten.length ≤ maxObjectSize
              then Function.update s.latest key (some chunks.flatten) else s.latest
            delivered := s.delivered ++ [(chunks.flatten, chunks.flatten)] } := by
  obtain ⟨hsent, htotal, hresponse⟩ := forward_eq garbage chunks
  simp only [Session.step, hsent, htotal, hresponse]

/-- An addition of a response that can be copied, or that is too large to be stored. -/
theorem Sound.step_put {s : Session} {l : List Ptr} (h : Sound s l) {key : List Char}
    {garbage beyond : List UInt8} {chunks : List (List UInt8)}
    (hcopy : chunks.flatten.length ≤ maxObjectSize →
      Copyable chunks.flatten (responseBuffer garbage chunks ++ beyond)) :
    ∃ s' l', s.step (.put key garbage chunks beyond) = some s' ∧ Sound s' l' := by
  have hdelivered : ∀ d ∈ s.delivered ++ [(chunks.flatten, chunks.flatten)], d.2 = d.1 := by
    intro d hd
    rcases List.mem_append.1 hd with hd | hd
    · exact h.delivered d hd
    · rw [List.mem_singleton.1 hd]
  rw [step_put_eq]
  rcases Nat.lt_or_ge maxObjectSize chunks.flatten.length with hlarge | hsize
  · rw [addCacheItem_large hlarge, if_neg (Nat.not_le.2 hlarge)]
    exact ⟨_, l, rfl, h.rep.record .wrlock, hdelivered, h.faithful⟩
  · obtain ⟨hnul, hmem⟩ := hcopy hsize
    have hdup : strdup (responseBuffer garbage chunks ++ beyond) =
        some ((responseBuffer garbage chunks ++ beyond).takeWhile (· ≠ 0) ++ [0]) := if_pos hmem
    obtain ⟨c', l', hrun, hpre, hrep, -, -, hself, hold, -⟩ :=
      h.rep.addCacheItem key hsize hdup
    rw [hrun, if_pos hsize]
    refine ⟨_, _, rfl, hrep, hdelivered, ?_⟩
    intro key' q hq
    have hself_url : c'.url s.cache.fresh = some key := congrArg Entry.url hself
    simp only [List.find?_cons, hself_url, Option.some.injEq] at hq
    rcases eq_or_ne key key' with rfl | hkey
    · -- the new item
      simp only [decide_true] at hq
      obtain rfl : s.cache.fresh = q := Option.some.inj hq
      refine ⟨chunks.flatten, Function.update_self .., ?_⟩
      rw [hself]
      exact (reply_exact_iff (some key) hdup (take_responseBuffer garbage beyond chunks)).2 hnul
    · -- an old item, which was the first one with its key before
      simp only [hkey, decide_false] at hq
      have hq' : (l'.find? fun q => s.cache.url q = some key') = some q := by
        rw [← hq]
        refine List.find?_congr fun x hx => ?_
        rw [url_of_entry (hold x hx)]
      have hmem' : q ∈ l' := List.mem_of_find?_eq_some hq'
      obtain ⟨t, rfl⟩ := hpre
      obtain ⟨r, hr, hreply⟩ := h.faithful key' q (by rw [List.find?_append, hq']; rfl)
      refine ⟨r, ?_, ?_⟩
      · show Function.update s.latest key (some chunks.flatten) key' = some r
        rw [Function.update_of_ne hkey.symm]
        exact hr
      · rw [hold q hmem']
        exact hreply

/-- An addition after which the cache is exact was one of a response that can be copied. -/
theorem Sound.copyable {s s' : Session} {l : List Ptr} (h : Sound s l) {key : List Char}
    {garbage beyond : List UInt8} {chunks : List (List UInt8)}
    (hrun : s.step (.put key garbage chunks beyond) = some s') (hexact : Exact s')
    (hsize : chunks.flatten.length ≤ maxObjectSize) :
    Copyable chunks.flatten (responseBuffer garbage chunks ++ beyond) := by
  rw [step_put_eq, if_pos hsize] at hrun
  obtain ⟨c₁, hadd, hs'⟩ := Option.map_eq_some_iff.1 hrun
  obtain ⟨copy, hdup⟩ := addCacheItem_strdup rfl hsize hadd
  obtain ⟨c', l', hrun', -, hrep, -, -, hself, -⟩ := h.rep.addCacheItem key hsize hdup
  rw [hadd] at hrun'
  cases hrun'
  subst hs'
  refine ⟨?_, ?_⟩
  · -- the new item is found under its key, and sent back as the response
    have hself_url : c₁.url s.cache.fresh = some key := congrArg Entry.url hself
    rcases hrep.findCacheItem key with ⟨l₁, p, l₂, c₂, hl, hp, hl₁, hfound, -, hs₂⟩ | ⟨hnone, -⟩
    · have hfirst : p = s.cache.fresh := by
        cases l₁ with
        | nil =>
            rw [List.nil_append] at hl
            cases hl
            rfl
        | cons q l₁ =>
            rw [List.cons_append] at hl
            cases hl
            exact absurd hself_url (hl₁ _ (List.mem_cons_self ..))
      subst hfirst
      obtain ⟨r, hr, hreply⟩ := hexact.replayed key c₂ _ hfound
      have hr' : Function.update s.latest key (some chunks.flatten) key = some r := hr
      rw [Function.update_self] at hr'
      cases hr'
      refine (reply_exact_iff (some key) hdup (take_responseBuffer garbage beyond chunks)).1
        fun heap => ?_
      have := hreply heap
      rwa [writeItem, congrFun hs₂.entry, hself] at this
    · exact absurd hself_url (hnone _ (List.mem_cons_self ..))
  · obtain ⟨w, rest, hmem, -⟩ := strdup_some hdup
    rw [hmem]
    simp

/-! ### Whole runs -/

theorem Session.run_concat (ops : List Op) (op : Op) :
    Session.run (ops ++ [op]) = (Session.run ops).bind fun s => s.step op :=
  Runs.foldlM_concat Session.start ops op

/-- Every stored response of a history can be copied. -/
def AllCopyable (ops : List Op) : Prop :=
  ∀ pre key garbage chunks beyond, pre ++ [Op.put key garbage chunks beyond] <+: ops →
    chunks.flatten.length ≤ maxObjectSize →
      Copyable chunks.flatten (responseBuffer garbage chunks ++ beyond)

theorem sound_run {ops : List Op} (h : AllCopyable ops) :
    ∃ s l, Session.run ops = some s ∧ Sound s l := by
  induction ops using List.reverseRecOn with
  | nil => exact ⟨_, _, rfl, sound_start⟩
  | append_singleton ops op ih =>
      obtain ⟨s, l, hrun, hs⟩ := ih fun pre key garbage chunks beyond hpre =>
        h pre key garbage chunks beyond (hpre.trans (List.prefix_append ops [op]))
      rw [Session.run_concat, hrun]
      cases op with
      | get key => exact hs.step_get key
      | put key garbage chunks beyond =>
          exact hs.step_put (h ops key garbage chunks beyond (List.prefix_refl _))

/-- **When the proxy replays what it received.**  In every run each client that missed is sent the
response and each request that hits is sent it again, iff every response that is stored has no NUL
byte before its last byte, and `strdup` meets one in the memory it reads. -/
theorem exact_iff_copyable (ops : List Op) :
    (∀ pre, pre <+: ops → ∃ s, Session.run pre = some s ∧ Exact s) ↔ AllCopyable ops := by
  constructor
  · intro h
    induction ops using List.reverseRecOn with
    | nil =>
        intro pre key garbage chunks beyond hpre
        simp at hpre
    | append_singleton ops op ih =>
        have hops := ih fun pre hpre => h pre (hpre.trans (List.prefix_append ops [op]))
        intro pre key garbage chunks beyond hpre hsize
        rcases List.prefix_concat_iff.1 hpre with heq | hpre
        · obtain ⟨rfl, hop⟩ := List.append_inj' heq rfl
          obtain ⟨s, l, hrun, hs⟩ := sound_run hops
          obtain ⟨s', hrun', hexact⟩ := h _ hpre
          rw [Session.run_concat, hrun] at hrun'
          exact hs.copyable hrun' hexact hsize
        · exact hops pre key garbage chunks beyond hpre hsize
  · intro h pre hpre
    obtain ⟨s, l, hrun, hs⟩ := sound_run fun pre' key garbage chunks beyond hpre' =>
      h pre' key garbage chunks beyond (hpre'.trans hpre)
    exact ⟨s, hrun, hs.exact⟩

/-- **A response that is cut**: three bytes with a NUL byte in the middle. -/
theorem replay_cut :
    ¬ ∀ ops : List Op, ∀ pre, pre <+: ops → ∃ s, Session.run pre = some s ∧ Exact s := by
  intro h
  obtain ⟨s, hrun, hs⟩ := h [.put ['k'] [] [[97, 0, 98]] [0]] _ (List.prefix_refl _)
  have hstep : Session.start.step (.put ['k'] [] [[97, 0, 98]] [0]) = some s := by
    rw [← hrun, Session.run]
    simp
  exact (sound_start.copyable hstep hs (by decide)).1 (by decide)

end Proxy
