/-
**The balance of the cache's lock.**

Any number of threads call the three functions of the cache.  A thread enters a function by taking
the lock and leaves it by returning; what the call does in between happens under the lock and is
one step.  Which lock operations it makes is read off the events the call records.

Main definitions:

* `Proxy.Call`, `Proxy.System`, `Proxy.System.step` — the calls and the threads that make them;
* `Proxy.Call.Releases` — the calls that return by way of `pthread_rwlock_unlock`;
* `Proxy.LockBalanced` — every call gives its hold back, and a lock nobody uses is free.

Main results:

* `Proxy.Call.run_log` — what a call does to the lock and to the list, in order;
* `Proxy.lockBalanced_iff` — **the lock is balanced** along a run iff no lookup hits and no
  addition is refused;
* `Proxy.lookup_keeps_lock` — a run after which no writer ever gets in.
-/

import CsappLab.ProxyCache
import CsappLab.Runs
import CsappLab.RwLock

set_option relaxedAutoImplicit false
set_option autoImplicit false

namespace Proxy

open RwLock

/-! ### The events of a call -/

/-- Between two points of a call only list fields were written. -/
def Updates (c c' : Cache) : Prop := ∃ fields : List Field, c'.log = c.log ++ fields.map .update

namespace Updates

theorem of_log {c c' : Cache} (h : c'.log = c.log) : Updates c c' := ⟨[], by simpa using h⟩

theorem single {c c' : Cache} {field : Field} (h : c'.log = c.log ++ [.update field]) :
    Updates c c' := ⟨[field], h⟩

theorem trans {c₁ c₂ c₃ : Cache} (h₁ : Updates c₁ c₂) (h₂ : Updates c₂ c₃) : Updates c₁ c₃ := by
  obtain ⟨fs₁, h₁⟩ := h₁
  obtain ⟨fs₂, h₂⟩ := h₂
  exact ⟨fs₁ ++ fs₂, by rw [h₂, h₁, List.map_append, List.append_assoc]⟩

theorem setNext (c : Cache) (p : Ptr) (v : Option Ptr) : Updates c (c.setNext p v) := single rfl

theorem setPrev (c : Cache) (p : Ptr) (v : Option Ptr) : Updates c (c.setPrev p v) := single rfl

theorem setTail (c : Cache) (v : Option Ptr) : Updates c (c.setTail v) := single rfl

theorem setTotalSize (c : Cache) (n : ℕ) : Updates c (c.setTotalSize n) := single rfl

end Updates

theorem updates_detach (c : Cache) (item : Ptr) : Updates c (detach c item) := by
  unfold detach
  extract_lets c₁ c₂
  have h₁ : Updates c c₁ := by
    subst c₁
    cases c.prev item with
    | none => exact .of_log rfl
    | some p => exact .setNext ..
  have h₂ : Updates c₁ c₂ := by
    subst c₂
    cases c₁.next item with
    | none => exact .of_log rfl
    | some n => exact .setPrev ..
  refine (h₁.trans h₂).trans ?_
  split
  · exact .setTail ..
  · exact .of_log rfl

/-- Attaching an item starts with its `next`. -/
theorem updates_attachFront_next (c : Cache) (item : Ptr) :
    Updates (c.setNext item (c.next c.head)) (attachFront c item) := by
  unfold attachFront
  extract_lets c₁ c₂ c₃ c₄
  have h₂ : Updates c₁ c₂ := .setPrev ..
  have h₃ : Updates c₂ c₃ := by
    subst c₃
    cases c₂.next c₂.head with
    | none => exact .of_log rfl
    | some n => exact .setPrev ..
  have h₄ : Updates c₃ c₄ := .setNext ..
  refine (h₂.trans (h₃.trans h₄)).trans ?_
  split
  · exact .setTail ..
  · exact .of_log rfl

theorem updates_attachFront (c : Cache) (item : Ptr) : Updates c (attachFront c item) :=
  (Updates.setNext ..).trans (updates_attachFront_next c item)

theorem updates_moveToFront (c : Cache) (item : Ptr) : Updates c (moveToFront c item) := by
  unfold moveToFront
  split
  · exact .of_log rfl
  · exact (updates_detach c item).trans (updates_attachFront _ item)

theorem updates_linkNew (c : Cache) (newItem : Ptr) : Updates c (linkNew c newItem) := by
  unfold linkNew
  extract_lets c₁ c₂ c₃
  have h₁ : Updates c c₁ := .setPrev ..
  have h₂ : Updates c₁ c₂ := .setNext ..
  have h₃ : Updates c₂ c₃ := by
    subst c₃
    cases c₂.next c₂.head with
    | none => exact .setTail ..
    | some n => exact .setPrev ..
  exact (h₁.trans h₂).trans (h₃.trans (.setNext ..))

theorem updates_removeOldest {c c' : Cache} (h : removeOldestCacheItem c = some c') :
    Updates c c' := by
  unfold removeOldestCacheItem at h
  split at h
  · cases h
    exact .of_log rfl
  · cases htail : c.tail with
    | none => simp [htail] at h
    | some oldest =>
        cases hprev : c.prev oldest with
        | none => simp [htail, hprev] at h
        | some last =>
            simp only [htail, hprev, Option.some.injEq] at h
            subst h
            -- `free` writes no list field
            exact ⟨[.tail, .next last, .totalSize], by
              simp [Cache.free, Cache.setTotalSize, Cache.setNext, Cache.setTail]⟩

theorem updates_evictLoop {size fuel : ℕ} {c c' : Cache} (h : evictLoop size fuel c = some c') :
    Updates c c' := by
  induction fuel generalizing c with
  | zero =>
      unfold evictLoop at h
      split at h
      · cases h
      · cases h
        exact .of_log rfl
  | succ fuel ih =>
      unfold evictLoop at h
      split at h
      · cases hremove : removeOldestCacheItem c with
        | none => simp [hremove] at h
        | some c₁ =>
            simp only [hremove] at h
            exact (updates_removeOldest hremove).trans (ih h)
      · cases h
        exact .of_log rfl

/-! ### Keys -/

/-- Following `next` from an address leads to a node. -/
inductive LeadsTo (c : Cache) : Option Ptr → Ptr → Prop where
  | here (p : Ptr) : LeadsTo c (some p) p
  | next (p q : Ptr) (h : LeadsTo c (c.next p) q) : LeadsTo c (some p) q

/-- An item of the list has the key. -/
def Cached (c : Cache) (key : List Char) : Prop :=
  ∃ p, LeadsTo c (c.next c.head) p ∧ c.url p = some key

/-- Recording an event moves no link. -/
theorem LeadsTo.record {c : Cache} {e : Event} {from? : Option Ptr} {p : Ptr} :
    LeadsTo (c.record e) from? p ↔ LeadsTo c from? p := by
  constructor
  · intro h
    induction h with
    | here p => exact .here p
    | next p q _ ih => exact .next p q ih
  · intro h
    induction h with
    | here p => exact .here p
    | next p q _ ih => exact .next p q ih

/-- The loop stops at an item with the key. -/
theorem findLoop_found {c : Cache} {key : List Char} {fuel : ℕ} {from? : Option Ptr} {p : Ptr}
    (h : findLoop c key fuel from? = some (some p)) : LeadsTo c from? p ∧ c.url p = some key := by
  induction fuel generalizing from? with
  | zero => cases from? <;> simp [findLoop] at h
  | succ fuel ih =>
      cases from? with
      | none => simp [findLoop] at h
      | some q =>
          cases hurl : c.url q with
          | none => simp [findLoop, hurl] at h
          | some url =>
              simp only [findLoop, hurl] at h
              split at h
              · rename_i hkey
                cases h
                exact ⟨.here p, hkey ▸ hurl⟩
              · obtain ⟨hlead, hp⟩ := ih h
                exact ⟨.next q p hlead, hp⟩

/-- The loop reaches the null pointer only past items with other keys. -/
theorem findLoop_missing {c : Cache} {key : List Char} {fuel : ℕ} {from? : Option Ptr}
    (h : findLoop c key fuel from? = some none) {p : Ptr} (hp : LeadsTo c from? p) :
    c.url p ≠ some key := by
  induction fuel generalizing from? with
  | zero =>
      cases hp with
      | here => simp [findLoop] at h
      | next q _ _ => simp [findLoop] at h
  | succ fuel ih =>
      cases from? with
      | none => cases hp
      | some q =>
          cases hurl : c.url q with
          | none => simp [findLoop, hurl] at h
          | some url =>
              simp only [findLoop, hurl] at h
              split at h
              · cases h
              · rename_i hkey
                cases hp with
                | here =>
                    rw [hurl]
                    intro heq
                    exact hkey (Option.some.inj heq)
                | next _ _ hlead => exact ih h hlead

/-! ### Calls -/

/-- A call of one of the functions, with the allocations that will succeed. -/
inductive Call where
  | find (key : List Char)
  | add (alloc : Alloc) (url : List Char) (content : List UInt8) (size : ℕ)
  | print

namespace Call

/-- The first thing the call does. -/
def lockEvent : Call → Event
  | .find _ => .rdlock
  | .add _ _ _ _ => .wrlock
  | .print => .rdlock

/-- The hold the call asks for. -/
def mode : Call → Mode
  | .find _ => .read
  | .add _ _ _ _ => .write
  | .print => .read

/-- What the call makes of the cache, if it returns. -/
def run (c : Cache) : Call → Option Cache
  | .find key => (findCacheItem c key).map (·.1)
  | .add alloc url content size => addCacheItem alloc c url content size
  | .print => (printCache c).map (·.1)

/-- The call returns by way of `pthread_rwlock_unlock`: a lookup that misses, and an addition of
an object that is not too large and gets its memory. -/
def Releases (c : Cache) : Call → Prop
  | .find key => ¬ Cached c key
  | .add alloc _ _ size => size ≤ maxObjectSize ∧ alloc.item = true
  | .print => True

/-- The events of a call: the lock is taken, list fields are written, and the lock is given back
if the call gets that far. -/
def Logs (c c' : Cache) (call : Call) (released : Prop) : Prop :=
  ∃ fields : List Field,
    (released ∧ c'.log = c.log ++ call.lockEvent :: (fields.map .update ++ [.unlock])) ∨
    (¬ released ∧ c'.log = c.log ++ call.lockEvent :: fields.map .update)

/-- **The two ways a lookup goes**: it misses and gives the lock back, or it moves an item with the
key to the front. -/
theorem find_run {c c' : Cache} {key : List Char} (h : (find key).run c = some c') :
    (¬ Cached c key ∧ c' = (c.record .rdlock).record .unlock) ∨
      ∃ p, findLoop (c.record .rdlock) key c.fresh (c.next c.head) = some (some p) ∧
        LeadsTo c (c.next c.head) p ∧ c.url p = some key ∧
        c' = moveToFront (c.record .rdlock) p := by
  simp only [run, findCacheItem] at h
  cases hloop : findLoop (c.record .rdlock) key (c.record .rdlock).fresh
      ((c.record .rdlock).next (c.record .rdlock).head) with
  | none => simp [hloop] at h
  | some found =>
      cases found with
      | none =>
          simp only [hloop, Option.map_some, Option.some.injEq] at h
          refine .inl ⟨?_, h.symm⟩
          intro ⟨p, hlead, hp⟩
          exact findLoop_missing hloop (LeadsTo.record.2 hlead) hp
      | some p =>
          simp only [hloop, Option.map_some, Option.some.injEq] at h
          obtain ⟨hlead, hp⟩ := findLoop_found hloop
          exact .inr ⟨p, hloop, LeadsTo.record.1 hlead, hp, h.symm⟩

theorem find_log {c c' : Cache} {key : List Char} (h : (find key).run c = some c') :
    Logs c c' (find key) ((find key).Releases c) := by
  rcases find_run h with ⟨hmiss, rfl⟩ | ⟨p, -, hlead, hp, rfl⟩
  · exact ⟨[], .inl ⟨hmiss, by simp [Cache.record, lockEvent]⟩⟩
  · obtain ⟨fields, hfields⟩ := updates_moveToFront (c.record .rdlock) p
    exact ⟨fields, .inr ⟨not_not.2 ⟨p, hlead, hp⟩, by rw [hfields]; simp [Cache.record, lockEvent]⟩⟩

theorem add_log {c c' : Cache} {alloc : Alloc} {url : List Char} {content : List UInt8}
    {size : ℕ} (h : (add alloc url content size).run c = some c') :
    Logs c c' (add alloc url content size) ((add alloc url content size).Releases c) := by
  simp only [run, addCacheItem] at h
  split at h
  · rename_i hsize
    cases h
    refine ⟨[], .inr ⟨fun hrel => absurd hrel.1 (Nat.not_le_of_lt hsize), ?_⟩⟩
    simp [Cache.record, lockEvent]
  · rename_i hsize
    cases hevict : evictLoop size (c.record .wrlock).fresh (c.record .wrlock) with
    | none => simp [hevict] at h
    | some c₁ =>
        obtain ⟨fields₁, hfields₁⟩ := updates_evictLoop hevict
        cases hitem : alloc.item with
        | false =>
            simp only [hevict, hitem, Bool.not_false, if_true, Option.some.injEq] at h
            subst h
            refine ⟨fields₁, .inr ⟨fun hrel => ?_, by simp [hfields₁, Cache.record, lockEvent]⟩⟩
            rw [hrel.2] at hitem
            cases hitem
        | true =>
            cases hdup : strdup content with
            | none => simp [hevict, hitem, hdup] at h
            | some copy =>
                simp only [hevict, hitem, hdup, Bool.not_true, Bool.false_eq_true, if_false,
                  Option.some.injEq] at h
                subst h
                generalize hnew : c₁.newItem (if alloc.url then some url else none)
                  (if alloc.content then some copy else none) size = c₂
                have h₂ : c₂.log = c₁.log := by rw [← hnew]; rfl
                obtain ⟨fields₃, hfields₃⟩ := updates_linkNew c₂ c₁.fresh
                refine ⟨fields₁ ++ fields₃ ++ [.totalSize],
                  .inl ⟨⟨Nat.le_of_not_lt hsize, hitem⟩, ?_⟩⟩
                simp [Cache.record, Cache.setTotalSize, lockEvent, hfields₃, h₂, hfields₁]

theorem print_log {c c' : Cache} (h : print.run c = some c') :
    Logs c c' print (print.Releases c) := by
  simp only [run, printCache, Option.map_map, Option.map_eq_some_iff] at h
  obtain ⟨text, -, rfl⟩ := h
  exact ⟨[], .inl ⟨trivial, by simp [Cache.record, lockEvent]⟩⟩

/-- **The events of a call**, of whichever kind. -/
theorem run_log {c c' : Cache} {call : Call} (h : call.run c = some c') :
    Logs c c' call (call.Releases c) := by
  cases call with
  | find key => exact find_log h
  | add alloc url content size => exact add_log h
  | print => exact print_log h

end Call

/-! ### Threads -/

/-- The cache, the threads that are inside a function of it, and the holds of its lock. -/
structure System where
  cache : Cache
  inside : List (ℕ × Call)
  lock : List (ℕ × Mode)

/-- A thread enters a function, or returns from the one it is inside. -/
inductive Action where
  | enter (t : ℕ) (call : Call)
  | leave (t : ℕ)

/-- What an event makes of the lock once the thread is inside. -/
def lockAfter (t : ℕ) (lock : List (ℕ × Mode)) : Event → List (ℕ × Mode)
  | .rdlock => (t, .read) :: lock
  | .wrlock => (t, .write) :: lock
  | .unlock => release t lock
  | .update _ => lock

namespace System

/-- The call a thread is inside. -/
def call (s : System) (t : ℕ) : Option Call := (s.inside.find? fun x => x.1 = t).map (·.2)

/-- A thread enters when the lock is granted to it; it leaves by running the rest of the call.  A
thread that still holds the lock for writing waits for itself: the standard leaves open what happens
then, and here it blocks. -/
def step (s : System) : Action → Option System
  | .enter t call =>
      match s.call t with
      | some _ => none
      | none =>
          (acquire t call.mode s.lock).map fun lock =>
            { s with inside := (t, call) :: s.inside, lock := lock }
  | .leave t =>
      match s.call t with
      | none => none
      | some call =>
          (call.run s.cache).map fun c =>
            { cache := c
              inside := s.inside.eraseP fun x => x.1 = t
              lock := (c.log.drop (s.cache.log.length + 1)).foldl (lockAfter t) s.lock }

/-- An empty cache that no thread uses. -/
def start : System := { cache := initCache, inside := [], lock := [] }

/-- A run; it has no result if an action is not possible. -/
def run (actions : List Action) : Option System := actions.foldlM step start

/-- The holds of the threads that are inside. -/
def holds (s : System) : List (ℕ × Mode) := s.inside.map fun x => (x.1, x.2.mode)

end System

theorem foldl_lockAfter_updates (t : ℕ) (lock : List (ℕ × Mode)) (fields : List Field) :
    (fields.map Event.update).foldl (lockAfter t) lock = lock := by
  induction fields with
  | nil => rfl
  | cons field fields ih => exact ih

/-- **Returning**: the thread is outside, and its latest hold is gone iff the call releases. -/
theorem step_leave {s s' : System} {t : ℕ} (h : s.step (.leave t) = some s') :
    ∃ call, s.call t = some call ∧ (s'.inside = s.inside.eraseP fun x => x.1 = t) ∧
      (call.Releases s.cache ∧ s'.lock = release t s.lock ∨
        ¬ call.Releases s.cache ∧ s'.lock = s.lock) := by
  cases hcall : s.call t with
  | none => simp [System.step, hcall] at h
  | some call =>
      cases hrun : call.run s.cache with
      | none => simp [System.step, hcall, hrun] at h
      | some c =>
          simp only [System.step, hcall, hrun, Option.map_some, Option.some.injEq] at h
          subst h
          refine ⟨call, rfl, rfl, ?_⟩
          obtain ⟨fields, ⟨hrel, hlog⟩ | ⟨hrel, hlog⟩⟩ := Call.run_log hrun
          · refine .inl ⟨hrel, ?_⟩
            simp [hlog, List.drop_length_add_append, foldl_lockAfter_updates, lockAfter]
          · refine .inr ⟨hrel, ?_⟩
            simp [hlog, List.drop_length_add_append, foldl_lockAfter_updates]

theorem step_enter {s s' : System} {t : ℕ} {call : Call} (h : s.step (.enter t call) = some s') :
    acquire t call.mode s.lock = some s'.lock ∧ s'.inside = (t, call) :: s.inside := by
  cases hcall : s.call t with
  | some _ => simp [System.step, hcall] at h
  | none =>
      simp only [System.step, hcall, Option.map_eq_some_iff] at h
      obtain ⟨lock, hlock, rfl⟩ := h
      exact ⟨hlock, rfl⟩

/-- **A writer is alone** in every state that a run reaches. -/
theorem exclusive_run {actions : List Action} {s : System} (h : System.run actions = some s) :
    Exclusive s.lock := by
  refine Runs.kept (I := fun s => Exclusive s.lock) ?_ (fun x hx => by cases hx) h
  intro s₁ a s₂ hs₁ hstep
  cases a with
  | enter t call => exact exclusive_acquire (step_enter hstep).1
  | leave t =>
      obtain ⟨call, -, -, ⟨-, hlock⟩ | ⟨-, hlock⟩⟩ := step_leave hstep
      · rw [hlock]
        exact exclusive_release hs₁ t
      · rw [hlock]
        exact hs₁

/-! ### Balance -/

/-- **The lock is balanced** along a run: every call that returns gives back the hold it took, and
whenever no thread is inside, nobody holds the lock and the next one to ask gets it. -/
structure LockBalanced (actions : List Action) : Prop where
  released : ∀ pre t s s', pre ++ [.leave t] <+: actions → System.run pre = some s →
    s.step (.leave t) = some s' → count t s'.lock + 1 = count t s.lock
  free : ∀ pre s, pre <+: actions → System.run pre = some s → s.inside = [] →
    s.lock = [] ∧ ∀ mode, Grantable s.lock mode

/-- Every call of the run that returns is one that releases. -/
def AllRelease (actions : List Action) : Prop :=
  ∀ pre t call s s', pre ++ [.leave t] <+: actions → System.run pre = some s →
    s.call t = some call → s.step (.leave t) = some s' → call.Releases s.cache

/-- Along such a run the lock is held by the threads that are inside, once each. -/
theorem lock_eq_holds {actions : List Action} (hall : AllRelease actions) {s : System}
    (h : System.run actions = some s) : s.lock = s.holds := by
  have halong : Runs.Along System.step
      (fun s a => ∀ t call, a = .leave t → s.call t = some call → call.Releases s.cache)
      System.start actions := by
    refine Runs.along_iff.2 fun pre a s₁ s₂ hpre hrun hstep t call ha hcall => ?_
    subst ha
    exact hall pre t call s₁ s₂ hpre hrun hcall hstep
  refine Runs.invariant (I := fun s => s.lock = s.holds) ?_ rfl halong h
  intro s₁ a s₂ hs₁ hrel hstep
  cases a with
  | enter t call =>
      obtain ⟨hlock, hinside⟩ := step_enter hstep
      rw [(acquire_eq_some hlock).2, hs₁, System.holds, System.holds, hinside]
      rfl
  | leave t =>
      obtain ⟨call, hcall, hinside, hlock⟩ := step_leave hstep
      rcases hlock with ⟨-, hlock⟩ | ⟨hno, -⟩
      · rw [hlock, hs₁, System.holds, System.holds, hinside, release_map]
      · exact absurd (hrel t call rfl hcall) hno

/-- A thread that is inside has a hold. -/
theorem count_holds_pos {s : System} {t : ℕ} {call : Call} (h : s.call t = some call) :
    0 < count t s.holds := by
  obtain ⟨x, hx, -⟩ := Option.map_eq_some_iff.1 h
  have hxt := List.find?_some hx
  refine List.countP_pos_iff.2 ⟨(x.1, x.2.mode), ?_, hxt⟩
  exact List.mem_map_of_mem (List.mem_of_find?_eq_some hx)

/-- **When the lock is balanced**: in every run, iff every lookup that returns misses, and every
addition that returns is of an object that is not too large and gets its memory. -/
theorem lockBalanced_iff (actions : List Action) :
    LockBalanced actions ↔ AllRelease actions := by
  constructor
  · intro h pre t call s s' hpre hrun hcall hstep
    have hcount := h.released pre t s s' hpre hrun hstep
    obtain ⟨call', hcall', -, ⟨hrel, -⟩ | ⟨-, hlock⟩⟩ := step_leave hstep
    · rw [hcall] at hcall'
      cases hcall'
      exact hrel
    · rw [hlock] at hcount
      omega
  · intro hall
    have hmono : ∀ pre, pre <+: actions → AllRelease pre := fun pre hpre pre' t call s s' hpre' =>
      hall pre' t call s s' (hpre'.trans hpre)
    constructor
    · intro pre t s s' hpre hrun hstep
      have hholds := lock_eq_holds (hmono pre ((List.prefix_append ..).trans hpre)) hrun
      obtain ⟨call, hcall, -, ⟨-, hlock⟩ | ⟨hno, -⟩⟩ := step_leave hstep
      · rw [hlock]
        exact count_release_self (by rw [hholds]; exact count_holds_pos hcall)
      · exact absurd (hall pre t call s s' hpre hrun hcall hstep) hno
    · intro pre s hpre hrun hinside
      have hlock : s.lock = [] := by
        rw [lock_eq_holds (hmono pre hpre) hrun, System.holds, hinside]
        rfl
      refine ⟨hlock, fun mode => ?_⟩
      rw [hlock]
      exact grantable_nil mode

/-- An object is added, and then found. -/
def addThenFind : List Action :=
  [.enter 0 (.add .all ['k'] [120, 0] 1), .leave 0, .enter 0 (.find ['k']), .leave 0]

/-- **A lookup keeps the lock**: after it nobody is inside any more, and no writer gets in. -/
theorem lookup_keeps_lock : ¬ ∀ actions : List Action, LockBalanced actions := by
  intro h
  have hrun : (System.run addThenFind).map (fun s => (s.inside.length, s.lock)) =
      some (0, [(0, .read)]) := by
    decide
  obtain ⟨s, hs, hval⟩ := Option.map_eq_some_iff.1 hrun
  obtain ⟨hinside, hlock⟩ := Prod.mk.inj hval
  have hfree := (h addThenFind).free addThenFind s (List.prefix_refl _) hs
    (List.length_eq_zero_iff.1 hinside)
  rw [hlock] at hfree
  cases hfree.1

end Proxy
