import HardenedMinix.Libmthread.ThreadMutexes

/-!
# Conditions of the thread library

Signals, broadcasts and waits. A condition of the program is only waited for by
`mthread_cond_wait`, and the one of a thread that ends only by the thread that joins it.
-/

open List

namespace HardenedMinix.Mthread

open Lib

variable {s s' s₁ : State} {L L' L₁ : QName → List Tid} {q : QName} {t t' j : Tid}
  {cur lv : Option Tid} {m : MutexId} {c : CondId} {x : Cond} {b : Caller} {r : Ret}

/-! ## Who waits for a condition -/

theorem waitsFor_iff : waitsFor s c t = true ↔
    (s.tcb t).state = .condition ∧ (s.tcb t).cond = some c := by
  unfold waitsFor
  rw [Bool.and_eq_true, decide_eq_true_eq, decide_eq_true_eq]

theorem mem_pool : t ∈ pool s ↔ t.val < s.noThreads := by
  unfold pool
  rw [mem_filter, decide_eq_true_eq]
  exact and_iff_right (mem_finRange t)

theorem main_not_pool (h : Placed s L cur) : mainThread ∉ pool s := by
  rw [mem_pool]
  exact h.size.not_gt

theorem waitsFor_pool (h : Placed s L cur) (hw : waitsFor s c t = true) (ht : t ≠ mainThread) :
    t ∈ pool s := by
  rw [mem_pool]
  by_contra hle
  have hdead := h.fresh t (Nat.le_of_not_lt hle) ht
  rw [(waitsFor_iff.mp hw).1] at hdead
  cases hdead

theorem waitsFor_unsuspend (ht : t' ≠ t) : waitsFor (unsuspend s t) c t' = waitsFor s c t' := by
  unfold waitsFor
  rw [unsuspend_moved.others.state t' ht, unsuspend_moved.others.cond t' ht]

theorem Waits.point (h : Waits s lv) (hw : waitsFor s c t = true) :
    ∃ m b, (s.tcb t).point = .waiting c m b := by
  obtain ⟨hs, hc⟩ := waitsFor_iff.mp hw
  obtain ⟨-, -, hnone⟩ | ⟨c', m, b, hp, hc'⟩ := h.cond t hs
  · rw [hc] at hnone
    cases hnone
  · rw [hc] at hc'
    cases hc'
    exact ⟨m, b, hp⟩

theorem Waits.not_joining (h : Waits s lv) (hc : s.cond c = some x) (hx : x.user = true)
    (hw : waitsFor s c t = true) : joining (s.tcb t).point = none := by
  obtain ⟨m, b, hp⟩ := h.point hw
  rw [hp]
  cases b with
  | user => rfl
  | join j =>
    obtain ⟨he, -⟩ := h.join t c m j (waitsFor_iff.mp hw).1 hp
    obtain ⟨y, hy, hyu⟩ := h.exited j c he
    rw [hc] at hy
    cases hy
    rw [hx] at hyu
    cases hyu

theorem Going.not_waiting (h : Going s L) (hw : waitsFor s c t = true) : s.current ≠ t := by
  rintro rfl
  obtain ⟨m, b, hp⟩ := h.inv.waits.point hw
  rw [h.user] at hp
  cases hp

/-! ## Signals -/

/-- The main thread and another one do not both wait for the condition. -/
def Alone (s : State) (c : CondId) : Prop :=
  waitsFor s c mainThread = true → ∀ t, t ≠ mainThread → waitsFor s c t = false

theorem condSignal_alone (h : Placed s L cur) (hc : s.cond c = some x) (ha : Alone s c) :
    (∀ t, waitsFor s c t = false) ∧ condSignal s c = (.ok, s) ∨
      ∃ t, waitsFor s c t = true ∧ condSignal s c = (.ok, unsuspend s t) := by
  unfold condSignal
  rw [hc]
  dsimp only
  by_cases hmain : waitsFor s c mainThread = true
  · rw [if_pos hmain]
    have hnone : (pool (unsuspend s mainThread)).find? (waitsFor (unsuspend s mainThread) c) =
        none := by
      rw [List.find?_eq_none]
      intro t ht
      have hpool : t ∈ pool s := by
        rw [mem_pool] at ht ⊢
        rwa [unsuspend_moved.noThreads] at ht
      have hne : t ≠ mainThread := by
        rintro rfl
        exact main_not_pool h hpool
      rw [waitsFor_unsuspend hne, ha hmain t hne]
      simp
    rw [hnone]
    exact .inr ⟨mainThread, hmain, rfl⟩
  rw [if_neg hmain]
  cases hfind : (pool s).find? (waitsFor s c) with
  | none =>
    refine .inl ⟨fun t => ?_, rfl⟩
    by_contra hw
    rw [Bool.not_eq_false] at hw
    have hne : t ≠ mainThread := by
      rintro rfl
      exact hmain hw
    exact List.find?_eq_none.mp hfind t (waitsFor_pool h hw hne) hw
  | some t => exact .inr ⟨t, List.find?_some hfind, rfl⟩

/-- A thread that waited for a condition can run. -/
def Woken (s s' : State) (t : Tid) : Prop :=
  (s.tcb t).state = .condition ∧ (s'.tcb t).state = .runnable

theorem Woken.eq (h : Woken s (unsuspend s t) t') : t' = t := by
  by_contra hne
  obtain ⟨hs, hr⟩ := h
  rw [unsuspend_ne_state hne, hs] at hr
  cases hr

/-- At most one thread has been woken, and it waited for the condition. -/
def WokeOne (s s' : State) (c : CondId) : Prop :=
  ∀ t, Woken s s' t → waitsFor s c t = true ∧ ∀ t', Woken s s' t' → t' = t

theorem wokeOne_refl (s : State) (c : CondId) : WokeOne s s c := by
  intro t h
  obtain ⟨hs, hr⟩ := h
  rw [hs] at hr
  cases hr

theorem wokeOne_unsuspend (hw : waitsFor s c t = true) : WokeOne s (unsuspend s t) c := by
  intro t1 h1
  obtain rfl := h1.eq
  exact ⟨hw, fun t2 h2 => h2.eq⟩

theorem Going.signal (h : Going s L) (hu : ∀ x, s.cond c = some x → x.user = true)
    (ha : Alone s c) :
    Goes s L (condSignal s c).2 ∧ WokeOne s (condSignal s c).2 c := by
  cases hc : s.cond c with
  | none =>
    have hrun : condSignal s c = (.einval, s) := by simp only [condSignal, hc]
    rw [hrun]
    exact ⟨h.goes, wokeOne_refl s c⟩
  | some x =>
    obtain ⟨-, hrun⟩ | ⟨t, hw, hrun⟩ := condSignal_alone h.inv.placed hc ha
    · rw [hrun]
      exact ⟨h.goes, wokeOne_refl s c⟩
    rw [hrun]
    have hne := h.not_waiting hw
    have hs := (waitsFor_iff.mp hw).1
    obtain ⟨hi, hm⟩ := h.inv.wake hs (by simpa using hne) fun j hj => by
      rw [h.inv.waits.not_joining hc (hu x hc) hw] at hj
      cases hj
    exact ⟨h.woken (unsuspend_wakes (.inl hs)) hi (unsuspend_ne_state hne) hm, wokeOne_unsuspend hw⟩

theorem Going.wakeAll (h : Going s L) (hc : s.cond c = some x) (hx : x.user = true) (l : List Tid) :
    Goes s L (l.foldl (fun s t => if waitsFor s c t = true then unsuspend s t else s) s) := by
  induction l generalizing s L with
  | nil => exact h.goes
  | cons t l ih =>
    rw [foldl_cons]
    split_ifs with hw
    · have hne := h.not_waiting hw
      have hs := (waitsFor_iff.mp hw).1
      have hwakes : Wakes s (unsuspend s t) := unsuspend_wakes (.inl hs)
      obtain ⟨hi, hm⟩ := h.inv.wake hs (by simpa using hne) fun j hj => by
        rw [h.inv.waits.not_joining hc hx hw] at hj
        cases hj
      have hgoes := h.woken hwakes hi (unsuspend_ne_state hne) hm
      refine hgoes.trans fun L₁ h1 => ih h1 ?_
      rw [hwakes.cond]
      exact hc
    · exact ih h hc

theorem Going.broadcast (h : Going s L) (hu : ∀ x, s.cond c = some x → x.user = true) :
    Goes s L (condBroadcast s c).2 := by
  unfold condBroadcast
  cases hc : s.cond c with
  | none => exact h.goes
  | some x =>
    have hmain := h.wakeAll hc (hu x hc) [mainThread]
    rw [foldl_cons, foldl_nil] at hmain
    have hcond : (if waitsFor s c mainThread = true then unsuspend s mainThread else s).cond c =
        some x := by
      split_ifs with hw
      · rw [(unsuspend_wakes (.inl (waitsFor_iff.mp hw).1)).cond]
        exact hc
      · exact hc
    dsimp only
    generalize (if waitsFor s c mainThread = true then unsuspend s mainThread else s) = s₁
      at hmain hcond ⊢
    exact hmain.trans fun L₁ h1 => h1.wakeAll hcond (hu x hc) (pool s₁)

theorem Going.condInit (h : Going s L) {a : Option CondId}
    (ha : ∀ c, a = some c → s.cond c = none) (user : Bool) : Goes s L (condInit s a user).2 := by
  unfold Mthread.condInit
  cases a with
  | none => exact h.goes
  | some c =>
    refine h.alike (setCond_alike fun x hx => ?_)
    rw [ha c rfl] at hx
    cases hx

/-! ## Waiting -/

/-- The running thread may wait for the condition on behalf of the caller. -/
def MayWaitFor (s : State) (c : CondId) : Caller → Prop
  | .user => ∀ x, s.cond c = some x → x.user = true
  | .join j => j ≠ s.current ∧ (s.tcb j).exited = some c ∧ Alive (s.tcb j).state ∧
      ∀ t, t ≠ s.current → joining (s.tcb t).point ≠ some j

/-- Another thread can run when this one waits for a condition; the main thread goes on itself. -/
def Idles (s : State) (b : Caller) : Prop :=
  if s.current = mainThread then b = .user else mainIdle s

theorem Going.parkCondition (h : Going s L) (hc : ∃ x, s.cond c = some x)
    (hb : MayWaitFor s c b) (hspare : (s.queue .run).head ≠ none ∨ Idles s b) :
    Stops s L (suspend (s.setTcb s.current { s.tcb s.current with cond := some c }) .condition
      (.waiting c m b)) := by
  unfold suspend
  have hcur : (s.setTcb s.current { s.tcb s.current with cond := some c }).current = s.current :=
    rfl
  rw [hcur, setTcb_self]
  have hmoved1 : OneMoved s (s.setTcb s.current { s.tcb s.current with cond := some c })
      s.current := .setTcb rfl
  have hrep1 : Rep (s.setTcb s.current { s.tcb s.current with cond := some c }) L :=
    h.inv.rep.setTcb rfl
  have hself1 : (s.setTcb s.current { s.tcb s.current with cond := some c }).tcb s.current =
      { s.tcb s.current with cond := some c } := setTcb_self _
  have hsame1 : (s.setTcb s.current { s.tcb s.current with cond := some c }).mutex = s.mutex ∧
      (s.setTcb s.current { s.tcb s.current with cond := some c }).runningMain =
        s.runningMain := ⟨rfl, rfl⟩
  generalize s.setTcb s.current { s.tcb s.current with cond := some c } = s₁ at *
  have hmoved : OneMoved s (s₁.setTcb s.current { s.tcb s.current with
      state := .condition, point := .waiting c m b, cond := some c }) s.current :=
    hmoved1.trans (.setTcb (by rw [hself1]))
  have hrep : Rep (s₁.setTcb s.current { s.tcb s.current with
      state := .condition, point := .waiting c m b, cond := some c }) L :=
    hrep1.setTcb (by rw [hself1])
  have hself : (s₁.setTcb s.current { s.tcb s.current with
      state := .condition, point := .waiting c m b, cond := some c }).tcb s.current =
      { s.tcb s.current with state := .condition, point := .waiting c m b, cond := some c } :=
    setTcb_self _
  have hmutex : (s₁.setTcb s.current { s.tcb s.current with
      state := .condition, point := .waiting c m b, cond := some c }).mutex = s.mutex := hsame1.1
  have hmain : (s₁.setTcb s.current { s.tcb s.current with
      state := .condition, point := .waiting c m b, cond := some c }).runningMain =
      decide (s.current = mainThread) := hsame1.2.trans h.main
  have hcurrent : (s₁.setTcb s.current { s.tcb s.current with
      state := .condition, point := .waiting c m b, cond := some c }).current = s.current := hcur
  generalize s₁.setTcb s.current { s.tcb s.current with
      state := .condition, point := .waiting c m b, cond := some c } = s2 at *
  obtain ⟨x, hx⟩ := hc
  have hcore : Core s2 L none none := by
    refine h.inv.toCore.go hmoved h.alive (by rw [hself]; exact .inl rfl) ?_ (fun t' ht => ?_)
      (fun _ _ _ => Iff.rfl) ?_ (h.not_queued _) (fun m' => ?_) ?_
    · rw [hself]
      refine ⟨fun _ => .inr ⟨c, m, b, rfl, rfl⟩, fun c' m' _ hp => ?_, fun c' m' j _ hp => ?_,
        fun _ hbad => absurd rfl hbad, fun t' j ht hj => ?_⟩
      · cases hp
        exact ⟨x, hx, hb x hx⟩
      · cases hp
        exact ⟨hb.1, hb.2.1, hb.2.2.1⟩
      cases b with
      | user => cases hj
      | join j' =>
        cases hj
        exact hb.2.2.2 t' ht
    · simp [Ne.symm ht]
    · rw [hself]
      simp [h.not_queued]
    · rw [hself]
      simp [h.not_queued]
    refine h.inv.locks.move hmoved.others (fun m' k' hbad _ => ?_) (fun _ _ _ _ _ hm => ?_)
      fun m' hm => ?_
    · rw [hself] at hbad
      cases hbad
    · rw [hmutex]
      exact hm
    · rw [hmutex] at hm
      exact h.inv.locks.unowned m' hm
  have hspare' : L .run ≠ [] ∨ mainIdle s2 := by
    obtain hrun | hidle := hspare
    · exact .inl fun hnil => hrun (h.inv.rep.head_none.mpr hnil)
    right
    unfold Idles at hidle
    split_ifs at hidle with hcm
    · subst hidle
      unfold mainIdle
      rw [← hcm, hself]
      exact ⟨rfl, rfl⟩
    · exact mainIdle_of_ne hmoved hcm hidle
  obtain ⟨L', hfit, hm'⟩ := Inv.schedule ⟨hcore, hrep⟩ (by rw [hmain, hcurrent]) hspare'
  exact ⟨L', hfit, Moves.trans (.refl hmutex fun _ => rfl) hm'⟩

theorem Going.idles (h : Going s' L') (hw : Wakes s s') (hi : Idles s b) :
    (s'.queue .run).head ≠ none ∨ Idles s' b := by
  unfold Idles at hi ⊢
  rw [hw.current]
  split_ifs at hi ⊢ with hm
  · exact .inr hi
  obtain hs | ⟨-, hr⟩ := hw.state mainThread
  · right
    unfold mainIdle
    rw [hs, hw.point]
    exact hi
  left
  intro hnone
  have hmem : mainThread ∈ L' .run := by
    refine (h.inv.placed.run mainThread).mpr ⟨hr, ?_⟩
    rw [hw.current]
    simpa using hm
  rw [h.inv.rep.head_none.mp hnone] at hmem
  exact not_mem_nil hmem

theorem Wakes.mayWaitFor (hw : Wakes s s') (hb : MayWaitFor s c b) : MayWaitFor s' c b := by
  cases b with
  | user =>
    intro x hx
    rw [hw.cond] at hx
    exact hb x hx
  | join j =>
    refine ⟨?_, ?_, (hw.alive j).mpr hb.2.2.1, fun t ht => ?_⟩
    · rw [hw.current]
      exact hb.1
    · rw [hw.exited]
      exact hb.2.1
    · rw [hw.current] at ht
      rw [hw.point]
      exact hb.2.2.2 t ht

theorem Going.wait (h : Going s L) (hb : MayWaitFor s c b)
    (hspare : s.cond c ≠ none → s.mutex m = some (some s.current) →
      ((s.queue .run).head ≠ none ∨ (s.queue (.mutex m)).head ≠ none) ∨ Idles s b) :
    (∃ r s', condWait s c m b = (some r, s') ∧ r ≠ .ok ∧ Goes s L s') ∨
      ∃ s', condWait s c m b = (none, s') ∧ Stops s L s' := by
  unfold condWait
  cases hc : s.cond c with
  | none => exact .inl ⟨_, _, rfl, by simp, h.goes⟩
  | some x =>
    cases hm : s.mutex m with
    | none => exact .inl ⟨_, _, rfl, by simp, h.goes⟩
    | some o =>
      dsimp only
      have halike : Alike s (s.setCond c (some { x with mutex := some m })) :=
        setCond_alike fun y hy => by
          rw [hc] at hy
          cases hy
          rfl
      have hgoes := h.alike halike
      by_cases ho : s.mutex m = some (some s.current)
      · obtain ⟨L₁, hg1, hm1, hc1⟩ := hgoes
        obtain ⟨hok, hgoes2, hwakes, hrun, hst⟩ := hg1.unlock_ok ho
        have hpair : mutexUnlock (s.setCond c (some { x with mutex := some m })) m =
            (.ok, (mutexUnlock (s.setCond c (some { x with mutex := some m })) m).2) :=
          Prod.ext hok rfl
        rw [hpair]
        refine .inr ⟨_, rfl, ?_⟩
        -- the running thread has unlocked the mutex, and someone may have been woken
        have hb1 : MayWaitFor (s.setCond c (some { x with mutex := some m })) c b := by
          cases b with
          | user =>
            intro y hy
            have hself : (s.setCond c (some { x with mutex := some m })).cond c =
                some { x with mutex := some m } := Function.update_self _ _ _
            rw [hself] at hy
            cases hy
            exact hb x hc
          | join j => exact hb
        have hc2 : ∃ y, (mutexUnlock (s.setCond c (some { x with mutex := some m })) m).2.cond c =
            some y := by
          rw [hwakes.cond]
          exact ⟨_, Function.update_self _ _ _⟩
        have hb2 := hwakes.mayWaitFor hb1
        have hstops := hgoes2.then_stops fun L2 hg2 => hg2.parkCondition (m := m) hc2 hb2 ?_
        · obtain ⟨L', hfit, hm2⟩ := hstops
          exact ⟨L', hfit, hm1.trans hm2⟩
        · obtain hhead | hidle := hspare (by rw [hc]; simp) ho
          · exact .inl (hrun hhead)
          · exact hg2.idles hwakes hidle
      · obtain ⟨herr, hs⟩ := mutexUnlock_err (s := s.setCond c (some { x with mutex := some m }))
          (m := m) ho
        generalize mutexUnlock (s.setCond c (some { x with mutex := some m })) m = p at herr hs
        obtain ⟨r, s'⟩ := p
        dsimp only at herr hs
        subst hs
        refine .inl ⟨.failed, _, ?_, by simp, hgoes⟩
        cases r
        · exact absurd rfl herr
        all_goals rfl

end HardenedMinix.Mthread
