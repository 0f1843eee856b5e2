import HardenedMinix.Libmthread.ThreadQueues

/-!
# Where threads are

Which queue a thread is on follows from its state; each part of the invariant is kept apart.
-/

namespace HardenedMinix.Mthread

open Lib

variable {s s' s₁ : State} {L L' : QName → List Tid} {q q' : QName} {t t' j : Tid} {l : List Tid}
  {cur : Option Tid} {m : MutexId} {c : CondId} {x : Tcb}

/-! ## The parts of the invariant -/

/-- Each thread is on the queue of its state; `cur` is the thread that runs, if one does. -/
structure Placed (s : State) (L : QName → List Tid) (cur : Option Tid) : Prop where
  run : ∀ t, t ∈ L .run ↔ (s.tcb t).state = .runnable ∧ cur ≠ some t
  free : ∀ t, t ∈ L .free ↔ t.val < s.noThreads ∧ (s.tcb t).state = .dead
  mutex : ∀ t m, t ∈ L (.mutex m) ↔
    (s.tcb t).state = .mutex ∧ ∃ k, (s.tcb t).point = .locking m k
  fresh : ∀ t, s.noThreads ≤ t.val → t ≠ mainThread → (s.tcb t).state = .dead
  main : (s.tcb mainThread).state ≠ .dead ∧ (s.tcb mainThread).state ≠ .needReset
  size : s.noThreads ≤ 1024

/-- A thread that has been handed a mutex owns it, and nobody waits for a mutex without an owner. -/
structure Locks (s : State) (L : QName → List Tid) : Prop where
  owner : ∀ t m k, (s.tcb t).state = .runnable → (s.tcb t).point = .locking m k →
    s.mutex m = some (some t)
  unowned : ∀ m, s.mutex m = none ∨ s.mutex m = some none → L (.mutex m) = []

/-- The thread that is waited for at a point of `mthread_join`. -/
def joining : Point → Option Tid
  | .waiting _ _ (.join j) => some j
  | .locking _ (.wait (.join j)) => some j
  | _ => none

/-- The thread has neither ended nor been cleaned up. -/
def Alive (state : TState) : Prop := state = .condition ∨ state = .mutex ∨ state = .runnable

instance (state : TState) : Decidable (Alive state) := inferInstanceAs (Decidable (_ ∨ _ ∨ _))

/-- Who waits for what; `leaving` is a thread that ends and has not told so yet. -/
structure Waits (s : State) (leaving : Option Tid) : Prop where
  cond : ∀ t, (s.tcb t).state = .condition →
    (t = mainThread ∧ (s.tcb t).point = .user ∧ (s.tcb t).cond = none) ∨
      ∃ c m b, (s.tcb t).point = .waiting c m b ∧ (s.tcb t).cond = some c
  user : ∀ t c m, (s.tcb t).state = .condition → (s.tcb t).point = .waiting c m .user →
    ∃ x, s.cond c = some x ∧ x.user = true
  join : ∀ t c m j, (s.tcb t).state = .condition → (s.tcb t).point = .waiting c m (.join j) →
    (s.tcb j).exited = some c ∧ (Alive (s.tcb j).state ∨ leaving = some j)
  ended : ∀ t j, (s.tcb t).state ≠ .condition → joining (s.tcb t).point = some j →
    (s.tcb j).state = .exiting
  one : ∀ t t' j, joining (s.tcb t).point = some j → joining (s.tcb t').point = some j → t = t'
  exited : ∀ t c, (s.tcb t).exited = some c → ∃ x, s.cond c = some x ∧ x.user = false
  exitedOne : ∀ t t' c, (s.tcb t).exited = some c → (s.tcb t').exited = some c → t = t'
  main : (s.tcb mainThread).exited = none
  reset : ∀ t, (s.tcb t).state = .needReset → (s.tcb t).exited = none

/-- The counters count what their names say. -/
structure Counts (s : State) : Prop where
  used : s.usedThreads =
    ((Finset.univ.filter fun t : Tid => t.val < s.noThreads ∧ (s.tcb t).state ≠ .dead).card : Int)
  needReset : s.needReset =
    ((Finset.univ.filter fun t : Tid => (s.tcb t).state = .needReset).card : Int)

/-! ## What each part reads -/

theorem Placed.congr (h : Placed s L cur) (hn : s'.noThreads = s.noThreads)
    (ht : ∀ t, (s'.tcb t).state = (s.tcb t).state)
    (hp : ∀ t m k, (s.tcb t).state = .mutex →
      ((s'.tcb t).point = .locking m k ↔ (s.tcb t).point = .locking m k)) : Placed s' L cur := by
  refine ⟨fun t => ?_, fun t => ?_, fun t m => ?_, fun t hle hne => ?_, ?_, ?_⟩
  · rw [ht]
    exact h.run t
  · rw [ht, hn]
    exact h.free t
  · rw [ht, h.mutex t m]
    constructor
    · rintro ⟨hs, k, hk⟩
      exact ⟨hs, k, (hp t m k hs).mpr hk⟩
    · rintro ⟨hs, k, hk⟩
      exact ⟨hs, k, (hp t m k hs).mp hk⟩
  · rw [hn] at hle
    rw [ht]
    exact h.fresh t hle hne
  · rw [ht]
    exact h.main
  · rw [hn]
    exact h.size

theorem Locks.congr (h : Locks s L) (hm : s'.mutex = s.mutex)
    (ht : ∀ t, (s'.tcb t).state = .runnable → ∀ m k, (s'.tcb t).point = .locking m k →
      (s.tcb t).state = .runnable ∧ (s.tcb t).point = .locking m k) : Locks s' L := by
  refine ⟨fun t m k hs hp => ?_, fun m hm' => ?_⟩
  · obtain ⟨hs', hp'⟩ := ht t hs m k hp
    rw [hm]
    exact h.owner t m k hs' hp'
  · rw [hm] at hm'
    exact h.unowned m hm'

theorem Waits.congr {leaving : Option Tid} (h : Waits s leaving)
    (hc : ∀ c x, s.cond c = some x → ∃ y, s'.cond c = some y ∧ y.user = x.user)
    (ht : ∀ t, (s'.tcb t).state = (s.tcb t).state) (hp : ∀ t, (s'.tcb t).point = (s.tcb t).point)
    (hcond : ∀ t, (s.tcb t).state = .condition → (s'.tcb t).cond = (s.tcb t).cond)
    (he : ∀ t, (s'.tcb t).exited = (s.tcb t).exited) : Waits s' leaving := by
  refine ⟨fun t hs => ?_, fun t c m hs hpt => ?_, fun t c m j hs hpt => ?_, fun t j hs hpt => ?_,
    fun t t' j h1 h2 => ?_, fun t c hex => ?_, fun t t' c h1 h2 => ?_, ?_, fun t hs => ?_⟩
  · rw [ht] at hs
    rw [hp, hcond t hs]
    exact h.cond t hs
  · rw [ht] at hs
    rw [hp] at hpt
    obtain ⟨x, hx, hu⟩ := h.user t c m hs hpt
    obtain ⟨y, hy, hyu⟩ := hc c x hx
    exact ⟨y, hy, hyu.trans hu⟩
  · rw [ht] at hs
    rw [hp] at hpt
    rw [he, ht]
    exact h.join t c m j hs hpt
  · rw [ht] at hs ⊢
    rw [hp] at hpt
    exact h.ended t j hs hpt
  · rw [hp] at h1 h2
    exact h.one t t' j h1 h2
  · rw [he] at hex
    obtain ⟨x, hx, hu⟩ := h.exited t c hex
    obtain ⟨y, hy, hyu⟩ := hc c x hx
    exact ⟨y, hy, hyu.trans hu⟩
  · rw [he] at h1 h2
    exact h.exitedOne t t' c h1 h2
  · rw [he]
    exact h.main
  · rw [ht] at hs
    rw [he]
    exact h.reset t hs

theorem Counts.congr (h : Counts s) (hn : s'.noThreads = s.noThreads)
    (hu : s'.usedThreads = s.usedThreads) (hr : s'.needReset = s.needReset)
    (hd : ∀ t, (s'.tcb t).state = .dead ↔ (s.tcb t).state = .dead)
    (hr' : ∀ t, (s'.tcb t).state = .needReset ↔ (s.tcb t).state = .needReset) : Counts s' := by
  have hused : (Finset.univ.filter fun t : Tid => t.val < s'.noThreads ∧ (s'.tcb t).state ≠ .dead) =
      Finset.univ.filter fun t : Tid => t.val < s.noThreads ∧ (s.tcb t).state ≠ .dead :=
    Finset.filter_congr fun t _ => by rw [hn, ne_eq, ne_eq, hd]
  have hneed : (Finset.univ.filter fun t : Tid => (s'.tcb t).state = .needReset) =
      Finset.univ.filter fun t : Tid => (s.tcb t).state = .needReset :=
    Finset.filter_congr fun t _ => by rw [hr']
  refine ⟨?_, ?_⟩
  · rw [hu, h.used, hused]
  · rw [hr, h.needReset, hneed]

/-! ### Links do not matter -/

theorem SameFields.state (h : SameFields s s') (t : Tid) : (s'.tcb t).state = (s.tcb t).state := by
  rw [h.tcb t]

theorem SameFields.point (h : SameFields s s') (t : Tid) : (s'.tcb t).point = (s.tcb t).point := by
  rw [h.tcb t]

theorem SameFields.tcbCond (h : SameFields s s') (t : Tid) : (s'.tcb t).cond = (s.tcb t).cond := by
  rw [h.tcb t]

theorem SameFields.exited (h : SameFields s s') (t : Tid) :
    (s'.tcb t).exited = (s.tcb t).exited := by
  rw [h.tcb t]

theorem SameFields.placed (h : SameFields s s') (hs : Placed s L cur) : Placed s' L cur :=
  hs.congr h.noThreads h.state fun t m k _ => by rw [h.point]

theorem SameFields.locks (h : SameFields s s') (hs : Locks s L) : Locks s' L :=
  hs.congr h.mutex fun t hst m k hp => by
    rw [h.state] at hst
    rw [h.point] at hp
    exact ⟨hst, hp⟩

theorem SameFields.waits {leaving : Option Tid} (h : SameFields s s') (hs : Waits s leaving) :
    Waits s' leaving :=
  hs.congr (fun c x hx => ⟨x, by rw [h.cond]; exact hx, rfl⟩) h.state h.point
    (fun t _ => h.tcbCond t) h.exited

theorem SameFields.counts (h : SameFields s s') (hs : Counts s) : Counts s' :=
  hs.congr h.noThreads h.usedThreads h.needReset (fun t => by rw [h.state])
    fun t => by rw [h.state]

/-! ## One control block is changed -/

theorem setTcb_self (x : Tcb) : (s.setTcb t x).tcb t = x := Function.update_self _ _ _

theorem setTcb_ne (x : Tcb) (h : t' ≠ t) : (s.setTcb t x).tcb t' = s.tcb t' :=
  Function.update_of_ne h _ _

theorem Counts.setTcb (h : Counts s) (hd : x.state = .dead ↔ (s.tcb t).state = .dead)
    (hr : x.state = .needReset ↔ (s.tcb t).state = .needReset) : Counts (s.setTcb t x) := by
  refine h.congr rfl rfl rfl (fun t' => ?_) fun t' => ?_
  · by_cases ht : t' = t
    · rw [ht, setTcb_self]
      exact hd
    · rw [setTcb_ne x ht]
  · by_cases ht : t' = t
    · rw [ht, setTcb_self]
      exact hr
    · rw [setTcb_ne x ht]

/-! ## One thread goes somewhere else -/

/-- All other threads are in the same state, at the same point. -/
structure SameOthers (s s' : State) (t : Tid) : Prop where
  state : ∀ t', t' ≠ t → (s'.tcb t').state = (s.tcb t').state
  point : ∀ t', t' ≠ t → (s'.tcb t').point = (s.tcb t').point
  cond : ∀ t', t' ≠ t → (s'.tcb t').cond = (s.tcb t').cond
  exited : ∀ t', t' ≠ t → (s'.tcb t').exited = (s.tcb t').exited

theorem setTcb_others (x : Tcb) : SameOthers s (s.setTcb t x) t :=
  ⟨fun _ h => by rw [setTcb_ne x h], fun _ h => by rw [setTcb_ne x h],
    fun _ h => by rw [setTcb_ne x h], fun _ h => by rw [setTcb_ne x h]⟩

theorem Placed.move {cur' : Option Tid} (h : Placed s L cur) (hn : s'.noThreads = s.noThreads)
    (ho : SameOthers s s' t) (hL : ∀ q t', t' ≠ t → (t' ∈ L' q ↔ t' ∈ L q))
    (hcur : ∀ t', t' ≠ t → (cur' = some t' ↔ cur = some t'))
    (hrun : t ∈ L' .run ↔ (s'.tcb t).state = .runnable ∧ cur' ≠ some t)
    (hfree : t ∈ L' .free ↔ t.val < s.noThreads ∧ (s'.tcb t).state = .dead)
    (hmutex : ∀ m, t ∈ L' (.mutex m) ↔
      (s'.tcb t).state = .mutex ∧ ∃ k, (s'.tcb t).point = .locking m k)
    (hfresh : s.noThreads ≤ t.val → t ≠ mainThread → (s'.tcb t).state = .dead)
    (hmain : t = mainThread → (s'.tcb t).state ≠ .dead ∧ (s'.tcb t).state ≠ .needReset) :
    Placed s' L' cur' := by
  refine ⟨fun t' => ?_, fun t' => ?_, fun t' m => ?_, fun t' hle hne => ?_, ?_, ?_⟩
  · by_cases ht : t' = t
    · rw [ht]
      exact hrun
    · rw [hL _ t' ht, ho.state t' ht, ne_eq, hcur t' ht]
      exact h.run t'
  · rw [hn]
    by_cases ht : t' = t
    · rw [ht]
      exact hfree
    · rw [hL _ t' ht, ho.state t' ht]
      exact h.free t'
  · by_cases ht : t' = t
    · rw [ht]
      exact hmutex m
    · rw [hL _ t' ht, ho.state t' ht, ho.point t' ht]
      exact h.mutex t' m
  · rw [hn] at hle
    by_cases ht : t' = t
    · subst ht
      exact hfresh hle hne
    · rw [ho.state t' ht]
      exact h.fresh t' hle hne
  · by_cases ht : mainThread = t
    · rw [ht]
      exact hmain ht.symm
    · rw [ho.state _ ht]
      exact h.main
  · rw [hn]
    exact h.size

theorem Locks.move (h : Locks s L) (ho : SameOthers s s' t)
    (ht : ∀ m k, (s'.tcb t).state = .runnable → (s'.tcb t).point = .locking m k →
      s'.mutex m = some (some t))
    (hm : ∀ t' m k, t' ≠ t → (s.tcb t').point = .locking m k →
      s.mutex m = some (some t') → s'.mutex m = some (some t'))
    (hL : ∀ m, s'.mutex m = none ∨ s'.mutex m = some none → L' (.mutex m) = []) :
    Locks s' L' := by
  refine ⟨fun t' m k hs hp => ?_, hL⟩
  by_cases htt : t' = t
  · subst htt
    exact ht m k hs hp
  · rw [ho.state t' htt] at hs
    rw [ho.point t' htt] at hp
    exact hm t' m k htt hp (h.owner t' m k hs hp)

theorem Waits.move {lv lv' : Option Tid} (h : Waits s lv) (ho : SameOthers s s' t)
    (hc : ∀ c x, s.cond c = some x → ∃ y, s'.cond c = some y ∧ y.user = x.user)
    (hex : (s'.tcb t).exited = (s.tcb t).exited)
    (hcond : (s'.tcb t).state = .condition →
      (t = mainThread ∧ (s'.tcb t).point = .user ∧ (s'.tcb t).cond = none) ∨
        ∃ c m b, (s'.tcb t).point = .waiting c m b ∧ (s'.tcb t).cond = some c)
    (huser : ∀ c m, (s'.tcb t).state = .condition → (s'.tcb t).point = .waiting c m .user →
      ∃ x, s.cond c = some x ∧ x.user = true)
    (hjoin : ∀ c m j, (s'.tcb t).state = .condition → (s'.tcb t).point = .waiting c m (.join j) →
      j ≠ t ∧ (s.tcb j).exited = some c ∧ Alive (s.tcb j).state)
    (hended : ∀ j, (s'.tcb t).state ≠ .condition → joining (s'.tcb t).point = some j →
      j ≠ t ∧ (s.tcb j).state = .exiting)
    (hone : ∀ t' j, t' ≠ t → joining (s'.tcb t).point = some j → joining (s.tcb t').point ≠ some j)
    (hof : ∀ t' c m, t' ≠ t → (s.tcb t').state = .condition →
      (s.tcb t').point = .waiting c m (.join t) → Alive (s'.tcb t).state ∨ lv' = some t)
    (hof' : ∀ t', t' ≠ t → (s.tcb t').state ≠ .condition →
      joining (s.tcb t').point = some t → (s'.tcb t).state = .exiting)
    (hreset : (s'.tcb t).state = .needReset → (s'.tcb t).exited = none)
    (hlv : ∀ j, j ≠ t → lv = some j → lv' = some j) : Waits s' lv' := by
  have hexall : ∀ t', (s'.tcb t').exited = (s.tcb t').exited := by
    intro t'
    by_cases htt : t' = t
    · rw [htt]
      exact hex
    · exact ho.exited t' htt
  refine ⟨fun t' hs => ?_, fun t' c m hs hp => ?_, fun t' c m j hs hp => ?_,
    fun t' j hs hp => ?_, fun t1 t2 j h1 h2 => ?_, fun t' c he => ?_, fun t1 t2 c h1 h2 => ?_, ?_,
    fun t' hs => ?_⟩
  · by_cases htt : t' = t
    · subst htt
      exact hcond hs
    · rw [ho.state t' htt] at hs
      rw [ho.point t' htt, ho.cond t' htt]
      exact h.cond t' hs
  · have hbefore : ∃ x, s.cond c = some x ∧ x.user = true := by
      by_cases htt : t' = t
      · subst htt
        exact huser c m hs hp
      · rw [ho.state t' htt] at hs
        rw [ho.point t' htt] at hp
        exact h.user t' c m hs hp
    obtain ⟨x, hx, hu⟩ := hbefore
    obtain ⟨y, hy, hyu⟩ := hc c x hx
    exact ⟨y, hy, hyu.trans hu⟩
  · rw [hexall]
    by_cases htt : t' = t
    · subst htt
      obtain ⟨hne, he, halive⟩ := hjoin c m j hs hp
      rw [ho.state j hne]
      exact ⟨he, .inl halive⟩
    rw [ho.state t' htt] at hs
    rw [ho.point t' htt] at hp
    obtain ⟨he, halive⟩ := h.join t' c m j hs hp
    refine ⟨he, ?_⟩
    by_cases hj : j = t
    · subst hj
      exact hof t' c m htt hs hp
    · rw [ho.state j hj]
      exact halive.imp_right (hlv j hj)
  · by_cases htt : t' = t
    · subst htt
      obtain ⟨hne, hst⟩ := hended j hs hp
      rw [ho.state j hne]
      exact hst
    rw [ho.state t' htt] at hs
    rw [ho.point t' htt] at hp
    by_cases hj : j = t
    · subst hj
      exact hof' t' htt hs hp
    · rw [ho.state j hj]
      exact h.ended t' j hs hp
  · by_cases ht1 : t1 = t
    · by_cases ht2 : t2 = t
      · rw [ht1, ht2]
      · subst ht1
        rw [ho.point t2 ht2] at h2
        exact absurd h2 (hone t2 j ht2 h1)
    by_cases ht2 : t2 = t
    · subst ht2
      rw [ho.point t1 ht1] at h1
      exact absurd h1 (hone t1 j ht1 h2)
    · rw [ho.point t1 ht1] at h1
      rw [ho.point t2 ht2] at h2
      exact h.one t1 t2 j h1 h2
  · rw [hexall] at he
    obtain ⟨x, hx, hu⟩ := h.exited t' c he
    obtain ⟨y, hy, hyu⟩ := hc c x hx
    exact ⟨y, hy, hyu.trans hu⟩
  · rw [hexall] at h1 h2
    exact h.exitedOne t1 t2 c h1 h2
  · rw [hexall]
    exact h.main
  by_cases htt : t' = t
  · subst htt
    exact hreset hs
  · rw [ho.state t' htt] at hs
    rw [hexall]
    exact h.reset t' hs

end HardenedMinix.Mthread
