import HardenedMinix.Libmthread.ThreadSteps

/-!
# Mutexes and conditions of the thread library

What a call does, one lemma each. A call that returns leaves the same thread running; a call
that suspends the thread needs somebody else who can run.
-/

open Function

namespace HardenedMinix.Mthread

open Lib Relation

variable {s s' s₁ : State} {L L' L₁ : QName → List Tid} {q q' : QName} {t t' j : Tid}
  {l : List Tid} {cur cur' lv : Option Tid} {m m' : MutexId} {c : CondId} {x : Tcb}
  {st : TState} {p : Point} {o : Option CondId} {k : Locker} {b : Caller} {r : Ret}

/-! ## Threads are woken -/

/-- Threads have been woken; mutexes and queues aside, nothing else has changed. -/
structure Wakes (s s' : State) : Prop where
  state : ∀ t, (s'.tcb t).state = (s.tcb t).state ∨
    ((s.tcb t).state = .condition ∨ (s.tcb t).state = .mutex) ∧ (s'.tcb t).state = .runnable
  rest : ∀ t, s'.tcb t = { s.tcb t with state := (s'.tcb t).state, next := (s'.tcb t).next }
  cond : s'.cond = s.cond
  current : s'.current = s.current
  runningMain : s'.runningMain = s.runningMain
  noThreads : s'.noThreads = s.noThreads

theorem Wakes.refl (s : State) : Wakes s s := ⟨fun _ => .inl rfl, fun _ => rfl, rfl, rfl, rfl, rfl⟩

theorem Wakes.trans (h : Wakes s s₁) (h' : Wakes s₁ s') : Wakes s s' := by
  refine ⟨fun t => ?_, fun t => ?_, h'.cond.trans h.cond, h'.current.trans h.current,
    h'.runningMain.trans h.runningMain, h'.noThreads.trans h.noThreads⟩
  · obtain hs | ⟨hs, hr⟩ := h.state t
    · rw [← hs]
      exact h'.state t
    · obtain hs' | ⟨-, hr'⟩ := h'.state t
      · exact .inr ⟨hs, hs'.trans hr⟩
      · exact .inr ⟨hs, hr'⟩
  · rw [h'.rest t, h.rest t]

theorem Wakes.point (h : Wakes s s') (t : Tid) : (s'.tcb t).point = (s.tcb t).point := by
  rw [h.rest t]

theorem Wakes.exited (h : Wakes s s') (t : Tid) : (s'.tcb t).exited = (s.tcb t).exited := by
  rw [h.rest t]

theorem Wakes.alive (h : Wakes s s') (t : Tid) :
    Alive (s'.tcb t).state ↔ Alive (s.tcb t).state := by
  obtain hs | ⟨hs, hr⟩ := h.state t
  · rw [hs]
  rw [hr]
  refine ⟨fun _ => ?_, fun _ => by decide⟩
  obtain hs | hs := hs
  · rw [hs]
    decide
  · rw [hs]
    decide

theorem Wakes.exiting (h : Wakes s s') (t : Tid) :
    (s'.tcb t).state = .exiting ↔ (s.tcb t).state = .exiting := by
  obtain hs | ⟨hs, hr⟩ := h.state t
  · rw [hs]
  · rw [hr]
    refine ⟨fun hbad => (by cases hbad), fun hbad => ?_⟩
    rw [hbad] at hs
    simp at hs

theorem SameFields.wakes (h : SameFields s s') : Wakes s s' := by
  refine ⟨fun t => .inl (h.state t), fun t => ?_, h.cond, h.current, h.runningMain, h.noThreads⟩
  rw [h.state]
  exact h.tcb t

theorem unsuspend_wakes (hs : (s.tcb t).state = .condition ∨ (s.tcb t).state = .mutex) :
    Wakes s (unsuspend s t) := by
  have hset : Wakes s (s.setTcb t { s.tcb t with state := .runnable }) := by
    refine ⟨fun t' => ?_, fun t' => ?_, rfl, rfl, rfl, rfl⟩
    · by_cases ht : t' = t
      · rw [ht, setTcb_self]
        exact .inr ⟨hs, rfl⟩
      · rw [setTcb_ne _ ht]
        exact .inl rfl
    · by_cases ht : t' = t
      · rw [ht, setTcb_self]
      · rw [setTcb_ne _ ht]
  exact hset.trans unsuspend_fields.wakes

theorem setMutex_wakes (o : Option (Option Tid)) : Wakes s (s.setMutex m o) :=
  ⟨fun _ => .inl rfl, fun _ => rfl, rfl, rfl, rfl, rfl⟩

theorem Going.woken (h : Going s L) (hw : Wakes s s') (hi : Inv s' L' (some s.current) none)
    (hs : (s'.tcb s.current).state = (s.tcb s.current).state) (hm : Moves s L s' L') :
    Goes s L s' :=
  ⟨L', h.stay hi hw.current hw.runningMain hs (hw.point _), hm, hw.current⟩

theorem unsuspend_ne_state (ht : t' ≠ t) : ((unsuspend s t).tcb t').state = (s.tcb t').state :=
  unsuspend_moved.others.state t' ht

/-! ## Unlocking -/

theorem Going.unlock_ok (h : Going s L) (ho : s.mutex m = some (some s.current)) :
    (mutexUnlock s m).1 = .ok ∧ Goes s L (mutexUnlock s m).2 ∧ Wakes s (mutexUnlock s m).2 ∧
      ((s.queue .run).head ≠ none ∨ (s.queue (.mutex m)).head ≠ none →
        ((mutexUnlock s m).2.queue .run).head ≠ none) ∧
      ((mutexUnlock s m).2.tcb s.current).state = (s.tcb s.current).state := by
  have hno : ∀ t k, (s.tcb t).point = .locking m k → s.mutex m ≠ some (some t) := by
    intro t k hp hbad
    rw [ho] at hbad
    cases hbad
    rw [h.user] at hp
    cases hp
  cases hl : L (.mutex m) with
  | nil =>
    have hrun : mutexUnlock s m = (.ok, s.setMutex m (some none)) := by
      simp only [mutexUnlock, ho, ne_eq, not_true_eq_false, if_false, h.inv.rep.remove_nil hl]
    rw [hrun]
    refine ⟨rfl, ?_, setMutex_wakes _, fun hr => ?_, rfl⟩
    · refine h.woken (setMutex_wakes _) (h.inv.setMutex hl hno _) rfl (.setMutex hl ?_)
      rw [ho]
      exact .unlock s.current
    · exact hr.resolve_right fun hbad => hbad (h.inv.rep.head_none.mpr hl)
  | cons t l =>
    have hmem : t ∈ L (.mutex m) := by
      rw [hl]
      exact List.mem_cons_self
    have hne : s.current ≠ t := fun hbad => h.not_queued (.mutex m) (hbad ▸ hmem)
    have hst : (s.tcb t).state = .mutex := ((h.inv.placed.mutex t m).mp hmem).1
    obtain ⟨s₁, hrem, hi, hm, hothers⟩ := h.inv.handOver hl ho h.user (by simpa using hne)
    have hrun : mutexUnlock s m = (.ok, unsuspend (s₁.setMutex m (some (some t))) t) := by
      simp only [mutexUnlock, ho, ne_eq, not_true_eq_false, if_false, hrem]
    rw [hrun]
    have hsame : SameFields s s₁ := by
      have hs1 := queueRemove_same (s := s) (q := .mutex m)
      rwa [hrem] at hs1
    have hst1 : ((s₁.setMutex m (some (some t))).tcb t).state = .mutex := (hsame.state t).trans hst
    have hwakes : Wakes s (unsuspend (s₁.setMutex m (some (some t))) t) :=
      hsame.wakes.trans ((setMutex_wakes _).trans (unsuspend_wakes (.inr hst1)))
    have hrunq : ((unsuspend (s₁.setMutex m (some (some t))) t).queue .run).head ≠ none := by
      intro hbad
      rw [hi.rep.head_none, push_self] at hbad
      simp at hbad
    exact ⟨rfl, h.woken hwakes hi (hothers.state _ hne) hm, hwakes, fun _ => hrunq,
      hothers.state _ hne⟩

theorem mutexUnlock_err (ho : s.mutex m ≠ some (some s.current)) :
    (mutexUnlock s m).1 ≠ .ok ∧ (mutexUnlock s m).2 = s := by
  unfold mutexUnlock
  cases hm : s.mutex m with
  | none => exact ⟨by simp, rfl⟩
  | some o =>
    have hne : o ≠ some s.current := fun hbad => ho (by rw [hm, hbad])
    simp only [ne_eq, hne, not_false_eq_true, if_true]
    exact ⟨by simp, trivial⟩

theorem Going.unlock (h : Going s L) (m : MutexId) : Goes s L (mutexUnlock s m).2 := by
  by_cases ho : s.mutex m = some (some s.current)
  · exact (h.unlock_ok ho).2.1
  · rw [(mutexUnlock_err ho).2]
    exact h.goes

/-! ## Locking -/

def Contended (s : State) (m : MutexId) : Prop :=
  ∃ o, s.mutex m = some (some o) ∧ o ≠ s.current

/-- Another thread can run when this one does not. -/
def Spare (s : State) : Prop :=
  (s.queue .run).head ≠ none ∨ s.current ≠ mainThread ∧ mainIdle s

/-- The running thread may wait at the point. -/
def MayWait (s : State) (p : Point) : Prop :=
  ∀ j, joining p = some j → j ≠ s.current ∧ (s.tcb j).state = .exiting ∧
    ∀ t, t ≠ s.current → joining (s.tcb t).point ≠ some j

theorem mayWait_user : MayWait s (.locking m .user) := fun _ hj => by cases hj

theorem mainIdle_of_ne (hm : OneMoved s s' s.current) (hne : s.current ≠ mainThread)
    (h : mainIdle s) : mainIdle s' := by
  unfold mainIdle
  rw [hm.others.state _ hne.symm, hm.others.point _ hne.symm]
  exact h

theorem Going.parkMutex (h : Going s L) (ho : s.mutex m = some (some t))
    (hk : MayWait s (.locking m k)) (hspare : Spare s) :
    Stops s L (suspend (queueAdd s (.mutex m) s.current) .mutex (.locking m k)) := by
  have hsame : SameFields s (queueAdd s (.mutex m) s.current) := queueAdd_same
  have hrep := h.inv.rep.add (q := .mutex m) h.not_queued
  unfold suspend
  generalize queueAdd s (.mutex m) s.current = s₁ at hsame hrep
  rw [hsame.current]
  have hself : (s₁.setTcb s.current { s₁.tcb s.current with
      state := .mutex, point := .locking m k }).tcb s.current =
      { s₁.tcb s.current with state := .mutex, point := .locking m k } := setTcb_self _
  have hmoved : OneMoved s (s₁.setTcb s.current { s₁.tcb s.current with
      state := .mutex, point := .locking m k }) s.current :=
    hsame.oneMoved.trans (.setTcb rfl)
  have hrep1 : Rep (s₁.setTcb s.current { s₁.tcb s.current with
      state := .mutex, point := .locking m k }) (push L (.mutex m) s.current) := hrep.setTcb rfl
  have hmutex : (s₁.setTcb s.current { s₁.tcb s.current with
      state := .mutex, point := .locking m k }).mutex = s.mutex := hsame.mutex
  have hmain : (s₁.setTcb s.current { s₁.tcb s.current with
      state := .mutex, point := .locking m k }).runningMain = decide (s.current = mainThread) :=
    hsame.runningMain.trans h.main
  have hcurrent : (s₁.setTcb s.current { s₁.tcb s.current with
      state := .mutex, point := .locking m k }).current = s.current := hsame.current
  generalize s₁.setTcb s.current { s₁.tcb s.current with
      state := .mutex, point := .locking m k } = s2 at *
  have hcore : Core s2 (push L (.mutex m) s.current) none none := by
    refine h.inv.toCore.go hmoved h.alive (by rw [hself]; exact .inr (.inl rfl)) ?_
      (fun t' ht => ?_) (fun q t' ht => by rw [mem_push]; simp [ht]) ?_ ?_ (fun m' => ?_) ?_
    · rw [hself]
      refine ⟨fun hbad => (by cases hbad), fun _ _ hbad => (by cases hbad),
        fun _ _ _ hbad => (by cases hbad), fun j _ hj => ?_, fun t' j ht hj => ?_⟩
      · exact ⟨(hk j hj).1, (hk j hj).2.1⟩
      · exact (hk j hj).2.2 t' ht
    · simp [Ne.symm ht]
    · rw [mem_push, hself]
      simp [h.not_queued]
    · rw [mem_push]
      simp [h.not_queued]
    · rw [mem_push, hself]
      simp [h.not_queued, eq_comm]
    refine h.inv.locks.move hmoved.others (fun m' k' hbad _ => ?_) (fun _ _ _ _ _ hm => ?_)
      fun m' hm => ?_
    · rw [hself] at hbad
      cases hbad
    · rw [hmutex]
      exact hm
    rw [hmutex] at hm
    have hne : m' ≠ m := by
      rintro rfl
      rw [ho] at hm
      simp at hm
    rw [push_mutex (by simpa using hne.symm)]
    exact h.inv.locks.unowned m' hm
  have hmoves : Moves s L s2 (push L (.mutex m) s.current) := by
    refine .one (m := m) ?_ fun m' hne => ⟨by rw [hmutex], push_mutex (by simpa using hne.symm)⟩
    rw [hmutex, ho, push_self]
    exact .wait t s.current _
  have hspare' : push L (.mutex m) s.current .run ≠ [] ∨ mainIdle s2 := by
    obtain hrun | ⟨hne, hidle⟩ := hspare
    · left
      have hrun' : push L (.mutex m) s.current .run = L .run := update_of_ne (by simp) _ _
      rw [hrun']
      exact fun hnil => hrun (h.inv.rep.head_none.mpr hnil)
    · exact .inr (mainIdle_of_ne hmoved hne hidle)
  obtain ⟨L', hfit, hm'⟩ := Inv.schedule ⟨hcore, hrep1⟩ (by rw [hmain, hcurrent]) hspare'
  exact ⟨L', hfit, hmoves.trans hm'⟩

theorem mutexLock_free (hm : s.mutex m = some none) :
    mutexLock s m k = (some .ok, s.setMutex m (some (some s.current))) := by
  simp only [mutexLock, hm]

theorem Going.acquire (h : Going s L) (hm : s.mutex m = some none) :
    Goes s L (s.setMutex m (some (some s.current))) := by
  have hl := h.inv.locks.unowned m (.inr hm)
  have hno : ∀ t k, (s.tcb t).point = .locking m k → s.mutex m ≠ some (some t) := by
    intro t k _ hbad
    rw [hm] at hbad
    simp at hbad
  refine h.woken (setMutex_wakes _) (h.inv.setMutex hl hno _) rfl (.setMutex hl ?_)
  rw [hm]
  exact .lock s.current

theorem Going.lock (h : Going s L) (hk : MayWait s (.locking m k))
    (hspare : Contended s m → Spare s) :
    (∃ r s', mutexLock s m k = (some r, s') ∧ Goes s L s' ∧ Wakes s s' ∧ s'.tcb = s.tcb ∧
      (r = .ok → s'.mutex m = some (some s.current))) ∨
    ∃ s', mutexLock s m k = (none, s') ∧ Stops s L s' := by
  unfold mutexLock
  cases hm : s.mutex m with
  | none => exact .inl ⟨_, _, rfl, h.goes, .refl s, rfl, fun hbad => by cases hbad⟩
  | some a =>
    cases a with
    | none =>
      exact .inl ⟨_, _, rfl, h.acquire hm, setMutex_wakes _, rfl, fun _ => update_self _ _ _⟩
    | some o =>
      by_cases ho : o = s.current
      · simp only [ho, if_true]
        exact .inl ⟨_, _, rfl, h.goes, .refl s, rfl, fun hbad => by cases hbad⟩
      · simp only [ho, if_false]
        exact .inr ⟨_, rfl, h.parkMutex hm hk (hspare ⟨o, hm, ho⟩)⟩

theorem Going.trylock (h : Going s L) (m : MutexId) : Goes s L (mutexTrylock s m).2 ∧
      ((mutexTrylock s m).1 = .ok → (mutexTrylock s m).2.mutex m = some (some s.current)) := by
  unfold mutexTrylock
  cases hm : s.mutex m with
  | none => exact ⟨h.goes, fun hbad => by cases hbad⟩
  | some a =>
    cases a with
    | none => exact ⟨h.acquire hm, fun _ => update_self _ _ _⟩
    | some o =>
      by_cases ho : o = s.current
      · simp only [ho, if_true]
        exact ⟨h.goes, fun hbad => by cases hbad⟩
      · simp only [ho, if_false]
        exact ⟨h.goes, fun hbad => by cases hbad⟩

theorem Going.mutexInit (h : Going s L) {a : Option MutexId}
    (ha : ∀ m, a = some m → s.mutex m = none) : Goes s L (mutexInit s a).2 := by
  unfold Mthread.mutexInit
  cases a with
  | none => exact h.goes
  | some m =>
    have hm := ha m rfl
    have hl := h.inv.locks.unowned m (.inl hm)
    have hno : ∀ t k, (s.tcb t).point = .locking m k → s.mutex m ≠ some (some t) := by
      intro t k _ hbad
      rw [hm] at hbad
      cases hbad
    have hi := h.inv.setMutex hl hno (some none)
    -- the queue was empty already; what may be different is its other pointer
    have hrep : Rep ((s.setQueue (.mutex m) ⟨none, none⟩).setMutex m (some none)) L := by
      refine ⟨fun q => ?_, hi.rep.one, hi.rep.link⟩
      by_cases hq : q = .mutex m
      · subst hq
        have hself : ((s.setQueue (.mutex m) ⟨none, none⟩).setMutex m (some none)).queue
            (.mutex m) = ⟨none, none⟩ := update_self _ _ _
        rw [hself, hl]
        exact ⟨.nil, rfl⟩
      · have hother : ((s.setQueue (.mutex m) ⟨none, none⟩).setMutex m (some none)).queue q =
            s.queue q := update_of_ne hq _ _
        rw [hother]
        exact h.inv.rep.queue q
    have hmoves : Moves s L (s.setMutex m (some none)) L := by
      refine .setMutex hl ?_
      rw [hm]
      exact .make
    refine ⟨L, h.stay ⟨⟨?_, ?_, ?_, ?_⟩, hrep⟩ rfl rfl rfl rfl, hmoves, rfl⟩
    · exact hi.placed.congr rfl (fun _ => rfl) fun _ _ _ _ => Iff.rfl
    · exact hi.locks.congr rfl fun _ hs _ _ hp => ⟨hs, hp⟩
    · exact hi.waits.congr (fun _ x hx => ⟨x, hx, rfl⟩) (fun _ => rfl) (fun _ => rfl)
        (fun _ _ => rfl) fun _ => rfl
    · exact ⟨hi.counts.used, hi.counts.needReset⟩

end HardenedMinix.Mthread
