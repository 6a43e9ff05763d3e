/-
**What a hold that is kept does to the cache.**

A lookup that hits returns with its read hold, and an addition that is refused returns with its
write hold.  `pthread_rwlock_unlock` gives back a hold of the calling thread, so that nobody else
can help: from the first hit on no thread is granted the lock for writing, and the cache keeps the
items it has; from the first refusal on no thread is granted the lock at all.

Main definitions:

* `Proxy.Covered` — whoever is inside has a hold, and the lock is with readers or with one writer;
* `Proxy.Frozen` — a thread has a hold that none of its calls will give back.

Main results:

* `Proxy.covered_run` — what holds of the lock in every state that a run reaches;
* `Proxy.Frozen.step` — what every step keeps once a read hold was kept;
* `Proxy.frozen_after_leak` — **after a call that keeps its hold nothing is added any more**.
-/

import CsappLab.ProxyThreads

set_option relaxedAutoImplicit false
set_option autoImplicit false

namespace Proxy

open RwLock

/-! ### Calls and the items -/

section Calls

variable {c c' : Cache} {l : List Ptr} {call : Call}

/-- A call that takes the lock for reading keeps the items, and may change their order. -/
theorem Shape.reader (h : Shape c l) (hread : call.mode = .read) (hrun : call.run c = some c') :
    SameStore c c' ∧ ∃ l', Shape c' l' ∧ l'.Perm l := by
  cases call with
  | add alloc url content size => cases hread
  | print =>
      obtain ⟨found, hprint, rfl⟩ := Option.map_eq_some_iff.1 hrun
      obtain ⟨text, -, rfl⟩ := Option.map_eq_some_iff.1 hprint
      exact ⟨⟨rfl, rfl, rfl, rfl⟩, l, (h.record .rdlock).record .unlock, List.Perm.refl l⟩
  | find key =>
      rcases Call.find_run hrun with ⟨-, rfl⟩ | ⟨p, -, hlead, -, rfl⟩
      · exact ⟨⟨rfl, rfl, rfl, rfl⟩, l, (h.record .rdlock).record .unlock, List.Perm.refl l⟩
      · have hfollows := Listed.follows [] h.listed
        rw [← h.listed.next_head] at hfollows
        obtain ⟨l₁, l₂, rfl⟩ := List.append_of_mem (hlead.mem hfollows)
        obtain ⟨hmove, hs⟩ := (h.record .rdlock).moveToFront
        exact ⟨⟨hs.head, hs.fresh, hs.totalSize, hs.entry⟩, _, hmove, List.perm_middle.symm⟩

/-- The list stays sound in every call. -/
theorem Shape.called (h : Shape c l) (hrun : call.run c = some c') : ∃ l', Shape c' l' := by
  cases call with
  | find key =>
      obtain ⟨-, l', hl', -⟩ := h.reader rfl hrun
      exact ⟨l', hl'⟩
  | print =>
      obtain ⟨-, l', hl', -⟩ := h.reader rfl hrun
      exact ⟨l', hl'⟩
  | add alloc url content size =>
      obtain ⟨l', hl', -⟩ := h.addCacheItem_keys hrun
      exact ⟨l', hl'⟩

end Calls

/-! ### The lock -/

/-- The lock is with readers only, or with one writer that no thread is inside besides. -/
inductive Phases (s : System) : Prop where
  | readers (holds : ∀ h ∈ s.lock, h.2 = .read) (inside : ∀ x ∈ s.inside, x.2.mode = .read)
  | writer (t : ℕ) (lock : s.lock = [(t, .write)]) (inside : ∀ x ∈ s.inside, x.1 = t)
      (alone : s.inside.length ≤ 1)

/-- What holds of the lock along a run: whoever is inside has a hold. -/
structure Covered (s : System) : Prop where
  counted : ∀ u, count u s.holds ≤ count u s.lock
  phases : Phases s
  shape : ∃ l, Shape s.cache l

section Steps

variable {s s' : System} {t u : ℕ} {call : Call}

/-- The holds of the threads inside, when one enters. -/
theorem holds_enter (h : s.step (.enter t call) = some s') :
    s'.holds = (t, call.mode) :: s.holds ∧ s'.cache = s.cache := by
  obtain ⟨-, hinside⟩ := step_enter h
  refine ⟨by rw [System.holds, System.holds, hinside]; rfl, ?_⟩
  simp only [System.step] at h
  split at h
  · cases h
  · obtain ⟨lock, -, rfl⟩ := Option.map_eq_some_iff.1 h
    rfl

/-- The holds of the threads inside, when one returns. -/
theorem holds_leave (h : s.step (.leave t) = some s') :
    s'.holds = release t s.holds ∧ ∃ call, s.call t = some call ∧
      call.run s.cache = some s'.cache ∧ s'.inside ⊆ s.inside := by
  obtain ⟨call, hcall, hinside, -⟩ := step_leave h
  refine ⟨by rw [System.holds, System.holds, hinside, release_map], call, hcall, ?_, ?_⟩
  · simp only [System.step, hcall] at h
    obtain ⟨c, hrun, rfl⟩ := Option.map_eq_some_iff.1 h
    exact hrun
  · rw [hinside]
    exact List.eraseP_subset

theorem mem_inside_of_call (h : s.call t = some call) : (t, call) ∈ s.inside := by
  obtain ⟨x, hx, rfl⟩ := Option.map_eq_some_iff.1 h
  have hxt : x.1 = t := by simpa using List.find?_some hx
  rw [← hxt]
  exact List.mem_of_find?_eq_some hx

/-- The threads inside, when one returns from a call for writing. -/
theorem Phases.inside_eq {w : ℕ} (h : ∀ x ∈ s.inside, x.1 = w) (hone : s.inside.length ≤ 1)
    (hcall : s.call t = some call) : t = w ∧ s.inside = [(t, call)] := by
  have hmem := mem_inside_of_call hcall
  refine ⟨h _ hmem, ?_⟩
  obtain ⟨x, hx⟩ := List.length_eq_one_iff.1
    (Nat.le_antisymm hone (List.length_pos_of_mem hmem))
  rw [hx, List.mem_singleton] at hmem
  rw [hx, hmem]

/-- A thread enters. -/
theorem Covered.enter (hs : Covered s) (h : s.step (.enter t call) = some s') : Covered s' := by
  obtain ⟨hacquire, hinside⟩ := step_enter h
  obtain ⟨hgrant, hlock⟩ := acquire_eq_some hacquire
  obtain ⟨hholds, hcache⟩ := holds_enter h
  refine ⟨fun u => ?_, ?_, hcache ▸ hs.shape⟩
  · rw [hholds, hlock, count_cons, count_cons]
    exact Nat.add_le_add_right (hs.counted u) _
  cases hmode : call.mode with
  | read =>
      rw [hmode] at hgrant hlock
      cases hs.phases with
      | readers hread hin =>
          refine .readers ?_ ?_
          · rw [hlock]
            exact List.forall_mem_cons.2 ⟨rfl, hread⟩
          · rw [hinside]
            exact List.forall_mem_cons.2 ⟨hmode, hin⟩
      | writer w hwrite _ _ =>
          have hread := hgrant (w, .write) (hwrite ▸ List.mem_singleton_self _)
          cases hread
  | write =>
      rw [hmode] at hgrant hlock
      have hnil : s.lock = [] := hgrant
      -- nobody is inside, because whoever is has a hold
      have hempty : s.inside = [] := by
        cases hin : s.inside with
        | nil => rfl
        | cons x xs =>
            have hpos : 0 < count x.1 s.holds := by
              rw [System.holds, hin, List.map_cons, count_cons, if_pos rfl]
              exact Nat.succ_pos _
            have hle := hs.counted x.1
            rw [hnil] at hle
            exact absurd (Nat.lt_of_lt_of_le hpos hle) (Nat.lt_irrefl 0)
      refine .writer t (by rw [hlock, hnil]) ?_ ?_
      · rw [hinside, hempty]
        exact List.forall_mem_singleton.2 rfl
      · rw [hinside, hempty]
        exact Nat.le_refl 1

/-- A thread returns. -/
theorem Covered.leave (hs : Covered s) (h : s.step (.leave t) = some s') : Covered s' := by
  obtain ⟨hholds, call, hcall, hrun, hsub⟩ := holds_leave h
  obtain ⟨call', -, hinside, hlock⟩ := step_leave h
  have hpos := count_holds_pos hcall
  have hheld : 0 < count t s.lock := Nat.lt_of_lt_of_le hpos (hs.counted t)
  obtain ⟨l, hl⟩ := hs.shape
  refine ⟨fun u => ?_, ?_, hl.called hrun⟩
  · have hle := hs.counted u
    rw [hholds]
    by_cases hut : u = t
    · subst hut
      have hless := count_release_self hpos
      rcases hlock with ⟨-, hlock⟩ | ⟨-, hlock⟩
      · have hless' := count_release_self hheld
        rw [hlock]
        omega
      · rw [hlock]
        omega
    · rw [count_release_of_ne hut]
      rcases hlock with ⟨-, hlock⟩ | ⟨-, hlock⟩
      · rw [hlock, count_release_of_ne hut]
        exact hle
      · rw [hlock]
        exact hle
  · cases hs.phases with
    | readers hread hin =>
        refine .readers (fun x hx => hread x ?_) fun x hx => hin x (hsub hx)
        rcases hlock with ⟨-, hlock⟩ | ⟨-, hlock⟩
        · exact mem_of_mem_release (hlock ▸ hx)
        · exact hlock ▸ hx
    | writer w hwrite hin hone =>
        obtain ⟨rfl, hsingle⟩ := Phases.inside_eq hin hone hcall
        have hempty : s'.inside = [] := by
          rw [hinside, hsingle]
          simp
        rcases hlock with ⟨-, hlock⟩ | ⟨-, hlock⟩
        · refine .readers (fun x hx => ?_) fun x hx => ?_
          · rw [hlock, hwrite, release] at hx
            simp at hx
          · rw [hempty] at hx
            cases hx
        · refine .writer t (hlock.trans hwrite) (fun x hx => ?_) ?_
          · rw [hempty] at hx
            cases hx
          · rw [hempty]
            exact Nat.zero_le 1

end Steps

/-- **What holds of the lock in every state that a run reaches.** -/
theorem covered_run {actions : List Action} {s : System} (h : System.run actions = some s) :
    Covered s := by
  refine Runs.kept (I := Covered) ?_ ⟨fun u => Nat.le_refl _, ?_, [], rep_initCache.shape⟩ h
  · intro s₁ a s₂ hs₁ hstep
    cases a with
    | enter t call => exact hs₁.enter hstep
    | leave t => exact hs₁.leave hstep
  · exact .readers (fun x hx => by cases hx) fun x hx => by cases hx

/-! ### A hold that is kept -/

/-- A thread has one hold more than the calls that it is inside will give back; the lock is with
readers, and the items are those of an earlier cache. -/
structure Frozen (t : ℕ) (c : Cache) (l : List Ptr) (s : System) : Prop where
  counted : ∀ u, count u s.holds + (if u = t then 1 else 0) ≤ count u s.lock
  holds : ∀ h ∈ s.lock, h.2 = .read
  inside : ∀ x ∈ s.inside, x.2.mode = .read
  store : SameStore c s.cache
  items : ∃ l', Shape s.cache l' ∧ l'.Perm l

section Frozen

variable {s s' : System} {t : ℕ} {c : Cache} {l : List Ptr}

/-- The lock is granted for reading only. -/
theorem Frozen.reads (hs : Frozen t c l s) {u : ℕ} {call : Call}
    (h : s.step (.enter u call) = some s') : call.mode = .read := by
  obtain ⟨hgrant, -⟩ := acquire_eq_some (step_enter h).1
  cases hmode : call.mode with
  | read => rfl
  | write =>
      rw [hmode] at hgrant
      have hnil : s.lock = [] := hgrant
      have hle := hs.counted t
      rw [hnil, if_pos rfl] at hle
      exact absurd hle (Nat.not_succ_le_zero _)

theorem SameStore.trans {c₁ c₂ c₃ : Cache} (h : SameStore c₁ c₂) (h' : SameStore c₂ c₃) :
    SameStore c₁ c₃ :=
  ⟨h'.head.trans h.head, h'.fresh.trans h.fresh, h'.totalSize.trans h.totalSize,
    h'.entry.trans h.entry⟩

/-- **What every step keeps.** -/
theorem Frozen.step (hs : Frozen t c l s) {a : Action} (h : s.step a = some s') :
    Frozen t c l s' := by
  cases a with
  | enter u call =>
      have hread := hs.reads h
      obtain ⟨hacquire, hinside⟩ := step_enter h
      obtain ⟨hholds, hcache⟩ := holds_enter h
      have hlock := (acquire_eq_some hacquire).2
      refine ⟨fun v => ?_, ?_, ?_, hcache ▸ hs.store, hcache ▸ hs.items⟩
      · have hle := hs.counted v
        rw [hholds, hlock, count_cons, count_cons]
        omega
      · rw [hlock]
        exact List.forall_mem_cons.2 ⟨hread, hs.holds⟩
      · rw [hinside]
        exact List.forall_mem_cons.2 ⟨hread, hs.inside⟩
  | leave u =>
      obtain ⟨hholds, call, hcall, hrun, hsub⟩ := holds_leave h
      obtain ⟨call', -, -, hlock⟩ := step_leave h
      obtain ⟨l', hl', hperm⟩ := hs.items
      obtain ⟨hsame, l'', hl'', hperm'⟩ := hl'.reader (hs.inside _ (mem_inside_of_call hcall)) hrun
      have hpos := count_holds_pos hcall
      refine ⟨fun v => ?_, fun x hx => hs.holds x ?_, fun x hx => hs.inside x (hsub hx),
        hs.store.trans hsame, l'', hl'', hperm'.trans hperm⟩
      · have hle := hs.counted v
        rw [hholds]
        by_cases hvu : v = u
        · subst hvu
          have hless := count_release_self hpos
          rcases hlock with ⟨-, hlock⟩ | ⟨-, hlock⟩
          · have hheld : 0 < count v s.lock := by omega
            have hless' := count_release_self hheld
            rw [hlock]
            omega
          · rw [hlock]
            omega
        · rw [count_release_of_ne hvu]
          rcases hlock with ⟨-, hlock⟩ | ⟨-, hlock⟩
          · rw [hlock, count_release_of_ne hvu]
            exact hle
          · rw [hlock]
            exact hle
      · rcases hlock with ⟨-, hlock⟩ | ⟨-, hlock⟩
        · exact mem_of_mem_release (hlock ▸ hx)
        · exact hlock ▸ hx

/-- What a whole run keeps. -/
theorem Frozen.run (hs : Frozen t c l s) {post : List Action}
    (h : post.foldlM System.step s = some s') :
    Frozen t c l s' ∧ ∀ u call, .enter u call ∈ post → call.mode = .read := by
  induction post generalizing s with
  | nil =>
      cases h
      exact ⟨hs, fun u call hmem => by cases hmem⟩
  | cons a post ih =>
      obtain ⟨s₁, hstep, hrun⟩ : ∃ s₁, s.step a = some s₁ ∧
          post.foldlM System.step s₁ = some s' := by
        simpa [Option.bind_eq_some_iff] using h
      obtain ⟨hfrozen, hreads⟩ := ih (hs.step hstep) hrun
      refine ⟨hfrozen, fun u call hmem => ?_⟩
      rcases List.mem_cons.1 hmem with rfl | hmem
      · exact hs.reads hstep
      · exact hreads u call hmem

/-- Behind a writer that has left nobody comes in. -/
theorem stuck_of_writer {w : ℕ} (hlock : s.lock = [(w, .write)]) (hinside : s.inside = [])
    (a : Action) : s.step a = none := by
  cases hstep : s.step a with
  | none => rfl
  | some s' =>
      cases a with
      | enter u call =>
          have hgrant := (acquire_eq_some (step_enter hstep).1).1
          rw [hlock] at hgrant
          cases hmode : call.mode with
          | read =>
              rw [hmode] at hgrant
              have hread := hgrant (w, .write) (List.mem_singleton_self _)
              cases hread
          | write =>
              rw [hmode] at hgrant
              cases hgrant
      | leave u =>
          obtain ⟨-, call, hcall, -⟩ := holds_leave hstep
          have hmem := mem_inside_of_call hcall
          rw [hinside] at hmem
          cases hmem

end Frozen

/-- **After a call that keeps its hold nothing is added any more**, whatever the threads do: the
lock is granted for reading only, the items stay what they are, and only their order changes; and if
the call was an addition, no thread takes a step any more. -/
theorem frozen_after_leak (pre post : List Action) (t : ℕ) (call : Call) (s₀ s₁ s₂ : System)
    (hpre : System.run pre = some s₀) (hcall : s₀.call t = some call)
    (hleak : ¬ call.Releases s₀.cache) (hleave : s₀.step (.leave t) = some s₁)
    (hpost : post.foldlM System.step s₁ = some s₂) :
    (∀ u call', .enter u call' ∈ post → call'.mode = .read) ∧ SameStore s₁.cache s₂.cache ∧
      s₂.cache.listing.Perm s₁.cache.listing ∧ (call.mode = .write → post = []) := by
  have hs := covered_run hpre
  obtain ⟨hholds, call', hcall', hrun, hsub⟩ := holds_leave hleave
  obtain ⟨call'', hcall'', hinside, hlock⟩ := step_leave hleave
  rw [hcall] at hcall' hcall''
  cases hcall'
  cases hcall''
  replace hlock : s₁.lock = s₀.lock := by
    rcases hlock with ⟨hyes, -⟩ | ⟨-, hlock⟩
    · exact absurd hyes hleak
    · exact hlock
  obtain ⟨l, hl⟩ := (hs.leave hleave).shape
  cases hs.phases with
  | readers hread hin =>
      have hmode : call.mode = .read := hin _ (mem_inside_of_call hcall)
      have hpos := count_holds_pos hcall
      -- the hold that was kept is one too many
      have hfrozen : Frozen t s₁.cache l s₁ := by
        refine ⟨fun u => ?_, hlock ▸ hread, fun x hx => hin x (hsub hx), ⟨rfl, rfl, rfl, rfl⟩, l,
          hl, List.Perm.refl l⟩
        have hle := hs.counted u
        rw [hholds, hlock]
        by_cases hut : u = t
        · subst hut
          have hless := count_release_self hpos
          rw [if_pos rfl]
          omega
        · rw [count_release_of_ne hut, if_neg hut]
          exact hle
      obtain ⟨hfinal, hreads⟩ := hfrozen.run hpost
      obtain ⟨l', hl', hperm⟩ := hfinal.items
      refine ⟨hreads, hfinal.store, ?_, fun hwrite => ?_⟩
      · rw [hl'.listing_eq, hl.listing_eq]
        exact hperm
      · rw [hmode] at hwrite
        cases hwrite
  | writer w hwrite hin hone =>
      obtain ⟨rfl, hsingle⟩ := Phases.inside_eq hin hone hcall
      have hempty : s₁.inside = [] := by
        rw [hinside, hsingle]
        simp
      have hnil : post = [] := by
        cases post with
        | nil => rfl
        | cons a post =>
            have hstuck := stuck_of_writer (hlock.trans hwrite) hempty a
            rw [List.foldlM_cons, hstuck] at hpost
            cases hpost
      rw [hnil] at hpost ⊢
      cases hpost
      exact ⟨(fun u call' hmem => by cases hmem), ⟨rfl, rfl, rfl, rfl⟩, List.Perm.refl _,
        fun _ => rfl⟩

/-- A thread is about to return from a lookup that hits. -/
def hitting : System := (System.run addThenFind.dropLast).get (by decide)

/-- It has returned. -/
def afterHit : System := (hitting.step (.leave 0)).get (by decide)

/-- Another thread has looked something else up. -/
def later : System :=
  ([Action.enter 1 (.find ['z']), .leave 1].foldlM System.step afterHit).get (by decide)

theorem frozen_after_leak_hit : afterHit.lock = [(0, .read)] ∧
    SameStore afterHit.cache later.cache ∧ later.cache.listing.Perm afterHit.cache.listing := by
  have hleave : hitting.step (.leave 0) = some afterHit := (Option.some_get _).symm
  have hleak : ¬ (Call.find ['k']).Releases hitting.cache := by
    obtain ⟨call, hcall, -, ⟨-, hlock⟩ | ⟨hno, -⟩⟩ := step_leave hleave
    · exact absurd hlock (by decide)
    · cases hcall
      exact hno
  obtain ⟨-, hstore, hperm, -⟩ := frozen_after_leak addThenFind.dropLast
    [.enter 1 (.find ['z']), .leave 1] 0 (.find ['k']) hitting afterHit later
    (Option.some_get _).symm rfl hleak hleave (Option.some_get _).symm
  exact ⟨by decide, hstore, hperm⟩

end Proxy
