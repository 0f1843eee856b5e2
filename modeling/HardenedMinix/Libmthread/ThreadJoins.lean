import HardenedMinix.Libmthread.ThreadLives

/-!
# Joins, detaching and yielding

The thread that joins another one, or detaches one that has ended, cleans it up; a thread that
yields cleans up the detached ones.
-/

namespace HardenedMinix.Mthread

open Lib

variable {s s' s₁ : State} {L L' L₁ : QName → List Tid} {q : QName} {t t' j : Tid}
  {cur lv : Option Tid} {m : MutexId} {c : CondId} {x : Tcb} {b : Caller} {r : Ret}
  {o : Option Ret}

/-! ## Joining -/

theorem Going.detach (h : Going s L) (hno : Unjoined s j) (hs : detach s j = some (r, s')) :
    Goes s L s' := by
  unfold Mthread.detach at hs
  split_ifs at hs with hok hdead hdet hend
  · cases hs
    exact h.goes
  · cases hs
    exact h.goes
  · cases hs
    exact h.goes
  · obtain ⟨s2, hstop, heq⟩ := Option.map_eq_some_iff.mp hs
    cases heq
    exact h.threadStop hend hno hstop
  · cases hs
    exact h.alike (setTcb_alike rfl rfl rfl rfl rfl)

theorem Going.joinEnd (h : Going s L) (hj : (s.tcb j).state = .exiting) (hno : Unjoined s j)
    (hs : joinEnd s j = some (o, s')) : o = some .ok ∧ Goes s L s' := by
  obtain ⟨s2, hstop, heq⟩ := Option.map_eq_some_iff.mp hs
  cases heq
  exact ⟨rfl, h.threadStop hj hno hstop⟩

theorem Going.mutexDestroy (h : Going s L) (hs : mutexDestroy s m = (.ok, s')) :
    Goes s L s' ∧ s'.tcb = s.tcb ∧ s'.current = s.current := by
  unfold Mthread.mutexDestroy at hs
  cases hm : s.mutex m with
  | none =>
    rw [hm] at hs
    cases hs
  | some o =>
    rw [hm] at hs
    dsimp only at hs
    split_ifs at hs with ho hused
    · cases hs
    · cases hs
    cases hs
    rw [ne_eq, not_not] at ho
    subst ho
    have hl := h.inv.locks.unowned m (.inr hm)
    have hno : ∀ t k, (s.tcb t).point = .locking m k → s.mutex m ≠ some (some t) := by
      intro t k _ hbad
      rw [hm] at hbad
      simp at hbad
    refine ⟨h.woken (setMutex_wakes _) (h.inv.setMutex hl hno _) rfl (.setMutex hl ?_), rfl, rfl⟩
    rw [hm]
    exact .destroy

theorem Going.joinResume (h : Going s L) (hj : (s.tcb j).state = .exiting) (hno : Unjoined s j)
    (hs : joinResume s j = some (o, s')) : o = some .ok ∧ Goes s L s' := by
  unfold Mthread.joinResume at hs
  cases hm : (s.tcb j).exitm with
  | none =>
    rw [hm] at hs
    cases hs
  | some m =>
    rw [hm] at hs
    dsimp only at hs
    by_cases ho : s.mutex m = some (some s.current)
    · obtain ⟨hok, hgoes, hwakes, -, -⟩ := h.unlock_ok ho
      generalize mutexUnlock s m = p at *
      obtain ⟨r, s₁⟩ := p
      dsimp only at hok
      subst hok
      dsimp only at hs hgoes hwakes
      obtain ⟨L₁, h1, hm1, hc1⟩ := hgoes
      generalize hd : Mthread.mutexDestroy s₁ m = p at hs
      obtain ⟨r, s2⟩ := p
      cases r
      case ok =>
        dsimp only at hs
        obtain ⟨hgoes2, htcb, -⟩ := h1.mutexDestroy hd
        obtain ⟨L2, h2, hm2, hc2⟩ := hgoes2
        have halike : Alike s2 (s2.setTcb j { s2.tcb j with exitm := none }) :=
          setTcb_alike rfl rfl rfl rfl rfl
        obtain ⟨L3, h3, hm3, hc3⟩ := h2.alike halike
        have hj3 : ((s2.setTcb j { s2.tcb j with exitm := none }).tcb j).state = .exiting := by
          rw [halike.state, htcb]
          exact (hwakes.exiting j).mpr hj
        have hno3 : Unjoined (s2.setTcb j { s2.tcb j with exitm := none }) j := by
          intro t
          rw [halike.point, htcb, hwakes.point]
          exact hno t
        obtain ⟨ho, L', h', hm', hc'⟩ := h3.joinEnd hj3 hno3 hs
        exact ⟨ho, L', h', hm1.trans (hm2.trans (hm3.trans hm')),
          hc'.trans (hc3.trans (hc2.trans hc1))⟩
      all_goals cases hs
    · obtain ⟨herr, -⟩ := mutexUnlock_err ho
      generalize mutexUnlock s m = p at *
      obtain ⟨r, s₁⟩ := p
      cases r
      case ok => exact absurd rfl herr
      all_goals cases hs

theorem Going.join (h : Going s L) {a : Option MutexId}
    (ha : ∀ m, a = some m → s.mutex m = none) (hno : Unjoined s j)
    (hspare : j ≠ s.current → (s.tcb j).detached = false → Alive (s.tcb j).state → Spare s)
    (hs : join s j a = some (o, s')) :
    (∃ r, o = some r ∧ Goes s L s') ∨ o = none ∧ Stops s L s' := by
  unfold Mthread.join at hs
  split_ifs at hs with hok hcur hdead hdet hend
  · cases hs
    exact .inl ⟨_, rfl, h.goes⟩
  · cases hs
    exact .inl ⟨_, rfl, h.goes⟩
  · cases hs
    exact .inl ⟨_, rfl, h.goes⟩
  · cases hs
    exact .inl ⟨_, rfl, h.goes⟩
  · obtain ⟨rfl, hgoes⟩ := h.joinEnd hend hno hs
    exact .inl ⟨_, rfl, hgoes⟩
  cases a with
  | none => cases hs
  | some m =>
    cases hc : (s.tcb j).exited with
    | none =>
      rw [hc] at hs
      cases hs
    | some c =>
      rw [hc] at hs
      dsimp only at hs
      have halive : Alive (s.tcb j).state := by
        cases hst : (s.tcb j).state with
        | condition => exact .inl rfl
        | dead => exact absurd hst hdead
        | exiting => exact absurd hst hend
        | mutex => exact .inr (.inl rfl)
        | runnable => exact .inr (.inr rfl)
        | needReset =>
          rw [h.inv.waits.reset j hst] at hc
          cases hc
      obtain ⟨L₁, h1, hm1, hc1⟩ := h.mutexInit ha
      have hfree1 : (Mthread.mutexInit s (some m)).2.mutex m = some none :=
        Function.update_self _ _ _
      have hne : QName.run ≠ .mutex m := by simp
      have hrun1 : (Mthread.mutexInit s (some m)).2.queue .run = s.queue .run :=
        Function.update_of_ne hne (⟨none, none⟩ : Queue) s.queue
      have htcb1 : (Mthread.mutexInit s (some m)).2.tcb = s.tcb := rfl
      generalize (Mthread.mutexInit s (some m)).2 = s₁ at *
      have halike : Alike s₁ (s₁.setTcb j { s₁.tcb j with exitm := some m }) :=
        setTcb_alike rfl rfl rfl rfl rfl
      obtain ⟨L2, h2, hm2, hc2⟩ := h1.alike halike
      generalize s₁.setTcb j { s₁.tcb j with exitm := some m } = s2 at *
      have hfree2 : s2.mutex m = some none := by
        rw [halike.mutex]
        exact hfree1
      obtain ⟨L3, h3, hm3, hc3⟩ := h2.acquire hfree2
      rw [mutexLock_free hfree2] at hs
      dsimp only at hs
      have hcur2 : s2.current = s.current := hc2.trans hc1
      have hpoint : ∀ t, ((s2.setMutex m (some (some s2.current))).tcb t).point =
          (s.tcb t).point := fun t => (halike.point t).trans (by rw [htcb1])
      have hmay : MayWaitFor (s2.setMutex m (some (some s2.current))) c (.join j) := by
        refine ⟨?_, ?_, ?_, fun t _ => ?_⟩
        · exact fun hbad => hcur (hbad.trans hcur2)
        · exact (halike.exited j).trans (by rw [htcb1]; exact hc)
        · have hst : ((s2.setMutex m (some (some s2.current))).tcb j).state = (s.tcb j).state :=
            (halike.state j).trans (by rw [htcb1])
          rw [hst]
          exact halive
        · rw [hpoint]
          exact hno t
      have hidle : (((s2.setMutex m (some (some s2.current))).queue .run).head ≠ none ∨
          ((s2.setMutex m (some (some s2.current))).queue (.mutex m)).head ≠ none) ∨
            Idles (s2.setMutex m (some (some s2.current))) (.join j) := by
        have hdet' : (s.tcb j).detached = false := Bool.eq_false_iff.mpr hdet
        obtain hr | ⟨hne, hi⟩ := hspare hcur hdet' halive
        · left
          left
          have hq : (s2.setMutex m (some (some s2.current))).queue .run = s.queue .run := by
            rw [← hrun1, ← halike.queue]
            rfl
          rw [hq]
          exact hr
        right
        have hne2 : (s2.setMutex m (some (some s2.current))).current ≠ mainThread := by
          rw [hcur2.symm] at hne
          exact hne
        unfold Idles
        rw [if_neg hne2]
        unfold mainIdle
        rw [hpoint]
        have hst : ((s2.setMutex m (some (some s2.current))).tcb mainThread).state =
            (s.tcb mainThread).state := (halike.state _).trans (by rw [htcb1])
        rw [hst]
        exact hi
      have hmoves := hm1.trans (hm2.trans hm3)
      obtain ⟨r, s4, hrun, hr, -⟩ | ⟨s4, hrun, L', hfit, hm'⟩ := h3.wait hmay fun _ _ => hidle
      · rw [hrun] at hs
        cases hs
      · rw [hrun] at hs
        cases hs
        exact .inr ⟨rfl, L', hfit, hmoves.trans hm'⟩

/-! ## Yielding -/

theorem Waits.unjoined (h : Waits s none) (hs : (s.tcb t).state = .needReset) : Unjoined s t := by
  intro t' hj
  by_cases hst : (s.tcb t').state = .condition
  · obtain ⟨-, huser, -⟩ | ⟨c, m, b, hp, -⟩ := h.cond t' hst
    · rw [huser] at hj
      cases hj
    rw [hp] at hj
    cases b with
    | user => cases hj
    | join j =>
      cases hj
      obtain ⟨-, halive | hbad⟩ := h.join t' c m t hst hp
      · exact halive.not_needReset hs
      · cases hbad
  · rw [h.ended t' t hst hj] at hs
    cases hs

theorem Going.resets (h : Going s L) (l : List Tid) : Goes s L (l.foldl (fun s t =>
      if s.needReset > 0 ∧ (s.tcb t).state = .needReset then
        let s := threadReset s t
        queueAdd { s with usedThreads := s.usedThreads - 1, needReset := s.needReset - 1 } .free t
      else s) s) := by
  induction l generalizing s L with
  | nil => exact h.goes
  | cons t l ih =>
    rw [List.foldl_cons]
    split_ifs with hreset
    · have hmain : t ≠ mainThread := by
        rintro rfl
        exact h.inv.placed.main.2 hreset.2
      have hbury : Goes s L (queueAdd (counted (threadReset s t) (s.usedThreads - 1)
          (s.needReset - 1)) .free t) :=
        h.bury (.inr hreset.2) hmain (h.inv.waits.unjoined hreset.2) rfl (if_pos hreset.2).symm
      exact hbury.trans fun L₁ h1 => ih h1
    · exact ih h

theorem Going.parkYield (h : Going s L) :
    Stops s L (suspend (queueAdd s .run s.current) .runnable .yielding) := by
  have hsame : SameFields s (queueAdd s .run s.current) := queueAdd_same
  have hrep := h.inv.rep.add (q := .run) h.not_queued
  unfold suspend
  generalize queueAdd s .run s.current = s₁ at hsame hrep
  rw [hsame.current]
  have hself : (s₁.setTcb s.current { s₁.tcb s.current with
      state := .runnable, point := .yielding }).tcb s.current =
      { s₁.tcb s.current with state := .runnable, point := .yielding } := setTcb_self _
  have hmoved : OneMoved s (s₁.setTcb s.current { s₁.tcb s.current with
      state := .runnable, point := .yielding }) s.current :=
    hsame.oneMoved.trans (.setTcb rfl)
  have hrep1 : Rep (s₁.setTcb s.current { s₁.tcb s.current with
      state := .runnable, point := .yielding }) (push L .run s.current) := hrep.setTcb rfl
  have hmutex : (s₁.setTcb s.current { s₁.tcb s.current with
      state := .runnable, point := .yielding }).mutex = s.mutex := hsame.mutex
  have hmain : (s₁.setTcb s.current { s₁.tcb s.current with
      state := .runnable, point := .yielding }).runningMain = decide (s.current = mainThread) :=
    hsame.runningMain.trans h.main
  have hcurrent : (s₁.setTcb s.current { s₁.tcb s.current with
      state := .runnable, point := .yielding }).current = s.current := hsame.current
  generalize s₁.setTcb s.current { s₁.tcb s.current with
      state := .runnable, point := .yielding } = s2 at *
  have hcore : Core s2 (push L .run s.current) none none := by
    refine h.inv.toCore.go hmoved h.alive (by rw [hself]; exact .inr (.inr rfl)) ?_
      (fun t' ht => ?_) (fun q t' ht => by rw [mem_push]; simp [ht]) ?_ ?_ (fun m' => ?_) ?_
    · rw [hself]
      exact .alone (by simp) rfl
    · simp [Ne.symm ht]
    · rw [mem_push, hself]
      simp
    · rw [mem_push]
      simp [h.not_queued]
    · rw [mem_push, hself]
      simp [h.not_queued]
    refine h.inv.locks.move hmoved.others (fun m' k' _ hbad => ?_) (fun _ _ _ _ _ hm => ?_)
      fun m' hm => ?_
    · rw [hself] at hbad
      cases hbad
    · rw [hmutex]
      exact hm
    · rw [hmutex] at hm
      rw [push_mutex (by simp)]
      exact h.inv.locks.unowned m' hm
  have hne : push L .run s.current .run ≠ [] := by
    rw [push_self]
    simp
  obtain ⟨L', hfit, hm'⟩ := Inv.schedule ⟨hcore, hrep1⟩ (by rw [hmain, hcurrent]) (.inl hne)
  exact ⟨L', hfit, Moves.trans (.refl hmutex fun m => push_mutex (by simp)) hm'⟩

theorem Going.yield (h : Going s L) : (∃ r, (yield s).1 = some r ∧ Goes s L (yield s).2) ∨
      (yield s).1 = none ∧ Stops s L (yield s).2 := by
  have hresets : Goes s L (resetThreads s) := h.resets (pool s)
  unfold Mthread.yield
  generalize resetThreads s = s₁ at hresets
  dsimp only
  split_ifs
  · exact .inl ⟨_, rfl, hresets⟩
  · exact .inr ⟨rfl, hresets.then_stops fun L₁ h1 => h1.parkYield⟩

end HardenedMinix.Mthread
