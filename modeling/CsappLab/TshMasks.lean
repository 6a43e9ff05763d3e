/-
**Pids and masks.**

What the job list, the main thread and the handlers say about `SIGCHLD`: which pids are in the
list, which child is still to be added to it or deleted from it, and during which stretches the
signal must be blocked.

Main definitions:

* `Tsh.JobTable.pids`, `Tsh.PidsOk` — the pids in the list;
* `Tsh.Main.forked`, `Tsh.due` — the child still to be added, and the one still to be deleted;
* `Tsh.Held`, `Tsh.Guarded` — the stretches during which `SIGCHLD` must be blocked, and the masks
  that see to it.

Main results:

* `Tsh.PidsOk.addjob`, `Tsh.PidsOk.deletejob` — the pids after the two updates of the list;
* `Tsh.Guarded.push`, `Tsh.Guarded.move` — the masks when a handler starts, and when it moves.
-/

import CsappLab.TshSignals

set_option relaxedAutoImplicit false
set_option autoImplicit false

namespace Tsh

/-! ### The pids in the list -/

/-- The non-zero pids in the list. -/
def JobTable.pids (t : JobTable) : Set ℤ := {p | p ≠ 0 ∧ ∃ i, (t.slots i).pid = p}

/-- The pids of a list are pids, and no two slots have the same. -/
structure PidsOk (t : JobTable) : Prop where
  nonneg : ∀ i, 0 ≤ (t.slots i).pid
  inj : ∀ i j, (t.slots i).pid ≠ 0 → (t.slots i).pid = (t.slots j).pid → i = j

theorem pidsOk_initjobs (t : JobTable) : PidsOk (initjobs t) where
  nonneg _ := Int.le_refl 0
  inj _ _ hi _ := absurd rfl hi

theorem pids_initjobs (t : JobTable) : (initjobs t).pids = ∅ := by
  refine Set.eq_empty_iff_forall_notMem.2 ?_
  rintro p ⟨hp, i, hi⟩
  exact hp hi.symm

theorem PidsOk.pos {t : JobTable} (h : PidsOk t) {p : ℤ} (hp : p ∈ t.pids) : 1 ≤ p := by
  obtain ⟨hne, i, hi⟩ := hp
  have := h.nonneg i
  omega

/-- Writing to a slot without touching its pid. -/
theorem pid_setSlot {t : JobTable} {i : Fin maxJobs} {job : Job}
    (hpid : job.pid = (t.slots i).pid) (j : Fin maxJobs) :
    ((t.setSlot i job).slots j).pid = (t.slots j).pid := by
  by_cases hj : j = i
  · subst hj
    simpa using hpid
  · simp [hj]

theorem pids_setSlot {t : JobTable} {i : Fin maxJobs} {job : Job}
    (hpid : job.pid = (t.slots i).pid) : (t.setSlot i job).pids = t.pids := by
  unfold JobTable.pids
  simp only [pid_setSlot hpid]

theorem PidsOk.setSlot {t : JobTable} (h : PidsOk t) {i : Fin maxJobs} {job : Job}
    (hpid : job.pid = (t.slots i).pid) : PidsOk (t.setSlot i job) where
  nonneg j := by
    rw [pid_setSlot hpid]
    exact h.nonneg j
  inj j k hj hjk := by
    rw [pid_setSlot hpid] at hj
    rw [pid_setSlot hpid, pid_setSlot hpid] at hjk
    exact h.inj j k hj hjk

/-- Adding a new pid to a list with a free slot. -/
theorem PidsOk.addjob {t : JobTable} (h : PidsOk t) {pid : ℤ} (hpid : 1 ≤ pid)
    (hnew : pid ∉ t.pids) (hfree : ∃ i, (t.slots i).pid = 0) (state : JobState)
    (cmdline : List Char) :
    PidsOk (addjob t pid state cmdline).1 ∧
      ∀ q, q ∈ (Tsh.addjob t pid state cmdline).1.pids ↔ q ∈ t.pids ∨ q = pid := by
  rcases addjob_cases t hpid state cmdline with ⟨i, hi, hadd⟩ | ⟨hfull, -⟩
  · have hself : (((t.addAt i pid state cmdline).slots) i).pid = pid := by simp
    have hother : ∀ j, j ≠ i → ((t.addAt i pid state cmdline).slots j).pid = (t.slots j).pid := by
      intro j hj
      simp [hj]
    have hne : ∀ j, (t.slots j).pid ≠ pid := fun j hj => hnew ⟨by omega, j, hj⟩
    rw [hadd]
    refine ⟨⟨fun j => ?_, fun j k hj hjk => ?_⟩, fun q => ⟨?_, ?_⟩⟩
    · by_cases hj : j = i
      · rw [hj, hself]
        omega
      · rw [hother j hj]
        exact h.nonneg j
    · by_cases hji : j = i <;> by_cases hki : k = i
      · rw [hji, hki]
      · rw [hji, hself, hother k hki] at hjk
        exact absurd hjk.symm (hne k)
      · rw [hki, hself, hother j hji] at hjk
        exact absurd hjk (hne j)
      · rw [hother j hji] at hj
        rw [hother j hji, hother k hki] at hjk
        exact h.inj j k hj hjk
    · rintro ⟨hq, j, hj⟩
      by_cases hji : j = i
      · rw [hji, hself] at hj
        exact .inr hj.symm
      · rw [hother j hji] at hj
        exact .inl ⟨hq, j, hj⟩
    · rintro (⟨hq, j, hj⟩ | rfl)
      · have hji : j ≠ i := by
          rintro rfl
          omega
        exact ⟨hq, j, by rw [hother j hji, hj]⟩
      · exact ⟨by omega, i, hself⟩
  · obtain ⟨i, hi⟩ := hfree
    exact absurd hi (hfull i)

/-- Deleting a pid. -/
theorem PidsOk.deletejob {t : JobTable} (h : PidsOk t) (pid : ℤ) :
    PidsOk (deletejob t pid).1 ∧
      ∀ q, q ∈ (Tsh.deletejob t pid).1.pids ↔ q ∈ t.pids ∧ q ≠ pid := by
  rcases deletejob_cases t pid with ⟨i, hget, hdel⟩ | ⟨hget, hdel⟩
  · obtain ⟨-, hi⟩ := getjobpid_some hget
    have hself : ((t.clearAt i).slots i).pid = 0 := by simp [clearjob]
    have hother : ∀ j, j ≠ i → ((t.clearAt i).slots j).pid = (t.slots j).pid := by
      intro j hj
      simp [hj]
    rw [hdel]
    refine ⟨⟨fun j => ?_, fun j k hj hjk => ?_⟩, fun q => ⟨?_, ?_⟩⟩
    · by_cases hj : j = i
      · rw [hj, hself]
      · rw [hother j hj]
        exact h.nonneg j
    · have hji : j ≠ i := by
        rintro rfl
        exact hj hself
      have hki : k ≠ i := by
        rintro rfl
        exact hj (hjk.trans hself)
      rw [hother j hji] at hj
      rw [hother j hji, hother k hki] at hjk
      exact h.inj j k hj hjk
    · rintro ⟨hq, j, hj⟩
      have hji : j ≠ i := by
        rintro rfl
        exact hq (hj.symm.trans hself)
      rw [hother j hji] at hj
      refine ⟨⟨hq, j, hj⟩, ?_⟩
      rintro rfl
      exact hji (h.inj j i (by omega) (hj.trans hi.symm))
    · rintro ⟨⟨hq, j, hj⟩, hne⟩
      have hji : j ≠ i := by
        rintro rfl
        exact hne (hj.symm.trans hi)
      exact ⟨hq, j, by rw [hother j hji, hj]⟩
  · rw [hdel]
    refine ⟨h, fun q => ⟨fun hq => ⟨hq, ?_⟩, And.left⟩⟩
    rintro rfl
    have hpos := h.pos hq
    obtain ⟨-, i, hi⟩ := hq
    exact (getjobpid_none hpos).1 hget i hi

/-! ### Masks -/

/-- Between the block of `SIGCHLD` and `addjob`. -/
def Main.critical : Main → Bool
  | .evalFork _ _ _ => true
  | .evalBlockAll _ _ _ _ => true
  | .evalAddjob _ _ _ _ => true
  | _ => false

/-- The child that was forked and is not in the list yet. -/
def Main.forked : Main → Option ℤ
  | .evalBlockAll _ _ _ pid => some pid
  | .evalAddjob _ _ _ pid => some pid
  | _ => none

namespace Code

/-- The code of `sigchld_handler`. -/
def isChld : Code → Bool
  | .chld _ => true
  | .ctrl _ _ => false

/-- `waitpid` will be called again. -/
def polls : Code → Bool
  | .chld .done => false
  | .chld _ => true
  | .ctrl _ _ => false

/-- The child that was reaped and is still in the list. -/
def due : Code → Option ℤ
  | .chld (.block pid st) => if st.zombie then some pid else none
  | .chld (.update pid st _) => if st.zombie then some pid else none
  | _ => none

/-- The mask the handler has saved. -/
def saved : Code → Option SigSet
  | .chld (.update _ _ prev) => some prev
  | .chld (.restore prev) => some prev
  | .ctrl _ (.look prev) => some prev
  | .ctrl _ (.restore prev _) => some prev
  | _ => none

end Code

theorem handler_isChld (sig : Signal) : sig.handler.isChld = true ↔ sig = .chld := by
  cases sig <;> simp [Signal.handler, Code.isChld]

/-- `SIGCHLD` must not be delivered: the main thread is between the block and `addjob`, or
`sigchld_handler` is running. -/
def Held (main : Main) (handlers : List Frame) : Prop :=
  main.critical = true ∨ ∃ f ∈ handlers, f.code.isChld = true

/-- `SIGCHLD` is in the mask, and in every mask that will be restored, for as long as it must not be
delivered; so `sigchld_handler` never runs inside such a stretch. -/
def Guarded (main : Main) : List Frame → SigSet → Prop
  | [], m => Held main [] → m .chld = true
  | f :: rest, m =>
      (Held main (f :: rest) → m .chld = true) ∧
      (Held main (f :: rest) → ∀ prev, f.code.saved = some prev → prev .chld = true) ∧
      (f.code.isChld = true → ¬ Held main rest) ∧ Guarded main rest f.mask

theorem held_cons {main : Main} {f : Frame} {rest : List Frame} :
    Held main (f :: rest) ↔ f.code.isChld = true ∨ Held main rest := by
  simp only [Held, List.mem_cons, exists_eq_or_imp]
  exact or_left_comm

theorem Guarded.blocked {main : Main} {handlers : List Frame} {m : SigSet}
    (h : Guarded main handlers m) (hheld : Held main handlers) : m .chld = true := by
  cases handlers with
  | nil => exact h hheld
  | cons f rest => exact h.1 hheld

/-- A mask with more in it. -/
theorem Guarded.mono {main : Main} {handlers : List Frame} {m m' : SigSet}
    (h : Guarded main handlers m) (hm : m .chld = true → m' .chld = true) :
    Guarded main handlers m' := by
  cases handlers with
  | nil => exact fun hheld => hm (h hheld)
  | cons f rest => exact ⟨fun hheld => hm (h.1 hheld), h.2⟩

/-- The main thread moves without entering or leaving the stretch. -/
theorem Guarded.congr {main main' : Main} {handlers : List Frame} {m : SigSet}
    (h : Guarded main handlers m) (hmain : main'.critical = main.critical) :
    Guarded main' handlers m := by
  have hheld : ∀ fs, Held main' fs ↔ Held main fs := fun fs => by rw [Held, Held, hmain]
  induction handlers generalizing m with
  | nil => exact fun h' => h ((hheld []).1 h')
  | cons f rest ih =>
      exact ⟨fun h' => h.1 ((hheld _).1 h'), fun h' => h.2.1 ((hheld _).1 h'),
        fun hf h' => h.2.2.1 hf ((hheld _).1 h'), ih h.2.2.2⟩

/-- The innermost handler moves. -/
theorem Guarded.move {main : Main} {mask : SigSet} {code code' : Code} {rest : List Frame}
    {m m' : SigSet} (h : Guarded main (⟨mask, code⟩ :: rest) m) (hcode : code'.isChld = code.isChld)
    (hm : m .chld = true → (∀ prev, code.saved = some prev → prev .chld = true) →
      m' .chld = true ∧ ∀ prev, code'.saved = some prev → prev .chld = true) :
    Guarded main (⟨mask, code'⟩ :: rest) m' := by
  have hheld : Held main (⟨mask, code'⟩ :: rest) ↔ Held main (⟨mask, code⟩ :: rest) := by
    rw [held_cons, held_cons, hcode]
  obtain ⟨h₁, h₂, h₃, h₄⟩ := h
  exact ⟨fun h' => (hm (h₁ (hheld.1 h')) (h₂ (hheld.1 h'))).1,
    fun h' => (hm (h₁ (hheld.1 h')) (h₂ (hheld.1 h'))).2, fun hf => h₃ (hcode ▸ hf), h₄⟩

/-- A handler starts. -/
theorem Guarded.push {main : Main} {handlers : List Frame} {m : SigSet}
    (h : Guarded main handlers m) {sig : Signal} (hsig : m sig = false) {mask : SigSet}
    (hmask : m .chld = true → mask .chld = true) :
    Guarded main (⟨mask, sig.handler⟩ :: handlers) (m.add sig) := by
  have hadd : m .chld = true → m.add sig .chld = true := by
    intro hm
    by_cases hs : sig = .chld
    · simp [SigSet.add, hs]
    · simpa [SigSet.add, Function.update_apply, Ne.symm hs] using hm
  refine ⟨fun hheld => ?_, fun _ prev hprev => ?_, fun hchld hheld => ?_, h.mono hmask⟩
  · rcases held_cons.1 hheld with hchld | hheld
    · rw [(handler_isChld sig).1 hchld]
      simp [SigSet.add]
    · exact hadd (h.blocked hheld)
  · cases sig <;> simp [Signal.handler, Code.saved] at hprev
  · rw [(handler_isChld sig).1 hchld, h.blocked hheld] at hsig
    cases hsig

/-- What is due when `sigchld_handler` is not running. -/
def due (handlers : List Frame) : Option ℤ := handlers.findSome? fun f => f.code.due

theorem due_eq_none {handlers : List Frame} (h : ∀ f ∈ handlers, f.code.isChld = false) :
    due handlers = none := by
  refine List.findSome?_eq_none_iff.2 fun f hf => ?_
  have hchld := h f hf
  rcases hcode : f.code with pc | ⟨key, pc⟩
  · rw [hcode] at hchld
    cases hchld
  · rfl

theorem due_cons_of_not_held {main : Main} {f : Frame} {rest : List Frame}
    (h : ¬ Held main rest) : due (f :: rest) = f.code.due := by
  have hrest : due rest = none := due_eq_none fun g hg => by
    by_contra hne
    exact h (.inr ⟨g, hg, by simpa using hne⟩)
  cases hf : f.code.due with
  | none => simpa [due, hf] using hrest
  | some p => simp [due, hf]

theorem due_cons_ctrl {mask : SigSet} {key : Ctrl} {pc : CtrlPc} {rest : List Frame} :
    due (⟨mask, .ctrl key pc⟩ :: rest) = due rest := rfl

end Tsh
