/-
**Who writes the list.**

A call is what it does to the lock and to the list fields, in order.  Of the three functions only
the addition takes the lock for writing; a lookup takes it for reading, and still moves the item it
finds to the front.  Its writes are therefore made under the write lock exactly when there is
nothing to move, and two lookups that are inside at the same time may both be writing.

Main definitions:

* `Proxy.Cache.eventsTo`, `Proxy.writesLocked` — the events of a call, and whether each of its
  writes is made under the write lock;
* `Proxy.Call.LeavesOrder` — the calls that leave the order of the list alone;
* `Proxy.MayOverlap`, `Proxy.Writes` — calls that may be inside together, and calls that write.

Main results:

* `Proxy.writes_iff` — which calls that take the lock for reading write;
* `Proxy.writesLocked_iff` — **when the writes of a call are made under the write lock**, and when
  two calls that overlap do not both write;
* `Proxy.lookup_writes` — a lookup that writes.
-/

import CsappLab.ProxyLock

set_option relaxedAutoImplicit false
set_option autoImplicit false

namespace Proxy

open RwLock

/-! ### The writes of a call -/

/-- What was done from one state of the cache to a later one. -/
def Cache.eventsTo (c c' : Cache) : List Event := c'.log.drop c.log.length

theorem eventsTo_of_log {c c' : Cache} {events : List Event} (h : c'.log = c.log ++ events) :
    c.eventsTo c' = events := by
  rw [Cache.eventsTo, h, List.drop_left]

/-- Every write to a list field is made while the thread holds the write lock; `held` is what it
holds before. -/
def writesLocked : Option Mode → List Event → Bool
  | _, [] => true
  | held, .update _ :: events => held = some .write && writesLocked held events
  | _, .rdlock :: events => writesLocked (some .read) events
  | _, .wrlock :: events => writesLocked (some .write) events
  | _, .unlock :: events => writesLocked none events

/-- Some list field is written. -/
def Writes (c c' : Cache) : Prop := ∃ field, Event.update field ∈ c.eventsTo c'

/-- Two threads may be inside these calls at the same time. -/
def MayOverlap (a b : Call) : Prop := Grantable [((), a.mode)] b.mode

/-- The call leaves the order of the list alone: it is not a lookup that finds an item behind the
first one. -/
def Call.LeavesOrder (c : Cache) : Call → Prop
  | .find key => Cached c key → ∃ p, c.next c.head = some p ∧ c.url p = some key
  | .add _ _ _ _ => True
  | .print => True

theorem writesLocked_updates (held : Option Mode) (fields : List Field) :
    writesLocked held (fields.map .update) = true ↔ held = some .write ∨ fields = [] := by
  induction fields with
  | nil => simp [writesLocked]
  | cons field fields ih =>
      rw [List.map_cons, writesLocked, Bool.and_eq_true, ih]
      simp only [decide_eq_true_eq, List.cons_ne_nil, or_false]
      exact ⟨And.left, fun h => ⟨h, .inl h⟩⟩

theorem writesLocked_updates_unlock (held : Option Mode) (fields : List Field) :
    writesLocked held (fields.map .update ++ [.unlock]) =
      writesLocked held (fields.map .update) := by
  induction fields with
  | nil => rfl
  | cons field fields ih =>
      rw [List.map_cons, List.cons_append, writesLocked, writesLocked, ih]

/-- The lock a call takes, as an event. -/
theorem Call.writesLocked_lockEvent (call : Call) (held : Option Mode) (events : List Event) :
    writesLocked held (call.lockEvent :: events) = writesLocked (some call.mode) events := by
  cases call <;> rfl

/-- The events of a call that writes the fields `fields`. -/
def Logged (c c' : Cache) (call : Call) (fields : List Field) : Prop :=
  c.eventsTo c' = call.lockEvent :: fields.map .update ∨
    c.eventsTo c' = call.lockEvent :: (fields.map .update ++ [.unlock])

section Logs

variable {c c' : Cache} {call : Call} {fields : List Field}

theorem Logged.locked_iff (h : Logged c c' call fields) :
    writesLocked none (c.eventsTo c') = true ↔ call.mode = .write ∨ fields = [] := by
  rcases h with h | h
  · rw [h, call.writesLocked_lockEvent, writesLocked_updates, Option.some.injEq]
  · rw [h, call.writesLocked_lockEvent, writesLocked_updates_unlock, writesLocked_updates,
      Option.some.injEq]

theorem Logged.writes_iff (h : Logged c c' call fields) : Writes c c' ↔ fields ≠ [] := by
  have hlock : ∀ field, call.lockEvent ≠ .update field := by
    intro field
    cases call <;> simp [Call.lockEvent]
  have hmem : ∀ field, Event.update field ∈ c.eventsTo c' ↔ field ∈ fields := by
    intro field
    rcases h with h | h
    · simp [h, (hlock field).symm]
    · simp [h, (hlock field).symm]
  simp only [Writes, hmem]
  cases fields <;> simp

theorem Call.Logs.logged {released : Prop} (h : Call.Logs c c' call released) :
    ∃ fields, Logged c c' call fields := by
  obtain ⟨fields, ⟨-, hlog⟩ | ⟨-, hlog⟩⟩ := h
  · exact ⟨fields, .inr (eventsTo_of_log hlog)⟩
  · exact ⟨fields, .inl (eventsTo_of_log hlog)⟩

/-! ### Lookups -/

/-- A search that starts at an item with the key stops there. -/
theorem findLoop_front {key : List Char} {fuel : ℕ} {p : Ptr} {found : Option Ptr}
    (hp : c.url p = some key) (h : findLoop c key fuel (some p) = some found) : found = some p := by
  cases fuel with
  | zero => simp [findLoop] at h
  | succ fuel => simpa [findLoop, hp] using h.symm

/-- **The writes of a lookup**: none, exactly when there is nothing to move. -/
theorem find_logged {key : List Char} (h : (Call.find key).run c = some c') :
    ∃ fields, Logged c c' (.find key) fields ∧
      (fields = [] ↔ (Call.find key).LeavesOrder c) := by
  rcases Call.find_run h with ⟨hmiss, rfl⟩ | ⟨p, hloop, hlead, hp, rfl⟩
  · -- a miss writes nothing, and there is no item to move
    refine ⟨[], .inr (eventsTo_of_log ?_), iff_of_true rfl fun hcached => absurd hcached hmiss⟩
    simp [Cache.record, Call.lockEvent]
  · by_cases hfirst : c.next c.head = some p
    · -- the item is the first one already
      have hmove : moveToFront (c.record .rdlock) p = c.record .rdlock := if_pos hfirst
      refine ⟨[], .inl (eventsTo_of_log ?_), iff_of_true rfl fun _ => ⟨p, hfirst, hp⟩⟩
      rw [hmove]
      rfl
    -- the item is detached and attached: its own `next` is written in any case
    · have hmove : moveToFront (c.record .rdlock) p =
          attachFront (detach (c.record .rdlock) p) p := if_neg hfirst
      obtain ⟨fields₁, hfields₁⟩ := updates_detach (c.record .rdlock) p
      obtain ⟨fields₂, hfields₂⟩ := updates_attachFront_next (detach (c.record .rdlock) p) p
      refine ⟨fields₁ ++ .next p :: fields₂, .inl (eventsTo_of_log ?_),
        iff_of_false (by simp) fun hleaves => ?_⟩
      · have hnext : ∀ (d : Cache) (v : Option Ptr),
            (d.setNext p v).log = d.log ++ [.update (.next p)] := fun _ _ => rfl
        rw [hmove, hfields₂, hnext, hfields₁]
        simp [Cache.record, Call.lockEvent]
      · obtain ⟨q, hq, hqk⟩ := hleaves ⟨p, hlead, hp⟩
        rw [hq] at hloop
        have hpq : some p = some q := findLoop_front (c := c.record .rdlock) hqk hloop
        exact hfirst (hq.trans hpq.symm)

/-- The writes of a call that takes the lock for reading. -/
theorem reader_logged (h : call.run c = some c') (hmode : call.mode = .read) :
    ∃ fields, Logged c c' call fields ∧ (fields = [] ↔ call.LeavesOrder c) := by
  cases call with
  | find key => exact find_logged h
  | add => cases hmode
  | print =>
      simp only [Call.run, printCache, Option.map_map, Option.map_eq_some_iff] at h
      obtain ⟨text, -, rfl⟩ := h
      refine ⟨[], .inr (eventsTo_of_log ?_), iff_of_true rfl trivial⟩
      simp [Cache.record, Call.lockEvent]

/-- **Which readers write**: the ones that do not leave the order alone. -/
theorem writes_iff (h : call.run c = some c') (hmode : call.mode = .read) :
    Writes c c' ↔ ¬ call.LeavesOrder c := by
  obtain ⟨fields, hlog, hleaves⟩ := reader_logged h hmode
  rw [hlog.writes_iff, ne_eq, hleaves]

/-- Only readers overlap. -/
theorem MayOverlap.modes {a b : Call} (h : MayOverlap a b) : a.mode = .read ∧ b.mode = .read := by
  unfold MayOverlap at h
  cases hb : b.mode with
  | read =>
      rw [hb] at h
      exact ⟨h _ (List.mem_singleton_self _), rfl⟩
  | write =>
      rw [hb] at h
      cases h

/-- **When the writes of a call are made under the write lock**, in every state of the cache: iff
the call is not a lookup that finds an item behind the first one.  Of two calls that overlap, at
most one writes the list iff one of them is no such lookup. -/
theorem writesLocked_iff (h : call.run c = some c') :
    (writesLocked none (c.eventsTo c') = true ↔ call.LeavesOrder c) ∧
      ∀ (other : Call) (d d' : Cache), other.run d = some d' → MayOverlap call other →
        (¬ (Writes c c' ∧ Writes d d') ↔ call.LeavesOrder c ∨ other.LeavesOrder d) := by
  constructor
  · cases hmode : call.mode with
    | read =>
        obtain ⟨fields, hlog, hleaves⟩ := reader_logged h hmode
        rw [hlog.locked_iff, hmode, hleaves]
        simp
    | write =>
        obtain ⟨fields, hlog⟩ := (Call.run_log h).logged
        rw [hlog.locked_iff]
        refine iff_of_true (.inl hmode) ?_
        cases call with
        | find => cases hmode
        | add => trivial
        | print => cases hmode
  · intro other d d' hother hoverlap
    obtain ⟨hcall, hread⟩ := hoverlap.modes
    rw [writes_iff h hcall, writes_iff hother hread, not_and_or, not_not, not_not]

end Logs

/-- A cache with two items; the one with the key `a` is the second. -/
def twoItems : Option Cache :=
  ((Call.add .all ['a'] [97, 0] 1).run initCache).bind
    fun c => (Call.add .all ['b'] [98, 0] 1).run c

/-- The lookup of the first item leaves the order alone, and writes nothing. -/
theorem writesLocked_iff_front :
    (twoItems.bind fun c => ((Call.find ['b']).run c).map fun c' =>
      writesLocked none (c.eventsTo c')) = some true ∧
    ∃ c c', twoItems = some c ∧ (Call.find ['b']).run c = some c' ∧
      (writesLocked none (c.eventsTo c') = true ↔ (Call.find ['b']).LeavesOrder c) := by
  have hval : (twoItems.bind fun c => ((Call.find ['b']).run c).map fun c' =>
      writesLocked none (c.eventsTo c')) = some true := by decide +kernel
  refine ⟨hval, ?_⟩
  obtain ⟨c, hc, hmap⟩ := Option.bind_eq_some_iff.1 hval
  obtain ⟨c', hc', -⟩ := Option.map_eq_some_iff.1 hmap
  exact ⟨c, c', hc, hc', (writesLocked_iff hc').1⟩

/-- **A lookup that writes**: the item found is the second one, and is moved to the front under the
read lock. -/
theorem lookup_writes : ¬ ∀ (c c' : Cache) (call : Call), call.run c = some c' →
    writesLocked none (c.eventsTo c') = true := by
  intro h
  have hval : (twoItems.bind fun c => ((Call.find ['a']).run c).map fun c' =>
      writesLocked none (c.eventsTo c')) = some false := by decide +kernel
  obtain ⟨c, hc, hmap⟩ := Option.bind_eq_some_iff.1 hval
  obtain ⟨c', hc', hfalse⟩ := Option.map_eq_some_iff.1 hmap
  rw [h c c' _ hc'] at hfalse
  cases hfalse

end Proxy
