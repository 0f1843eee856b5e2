import HardenedMinix.Libmthread.ThreadStates

/-!
# What the parts of a call do

Each part of a call keeps the invariant, and moves each mutex only as a lock with a queue does:
first come, first served.
-/

open Function

namespace HardenedMinix.Mthread

open Lib Relation

variable {s s' s₁ : State} {L L' L₁ : QName → List Tid} {q q' : QName} {t t' j : Tid}
  {l : List Tid} {cur cur' lv : Option Tid} {m m' : MutexId} {c : CondId} {x : Tcb}
  {st : TState} {p : Point} {o : Option CondId} {k : Locker}

/-! ## Locks with a queue -/

/-- A mutex: whether it is in use, its owner, and those who wait for it. -/
abbrev View := Option (Option Tid) × List Tid

inductive LockStep : View → View → Prop
  | make : LockStep (none, []) (some none, [])
  | destroy : LockStep (some none, []) (none, [])
  | lock (t : Tid) : LockStep (some none, []) (some (some t), [])
  | wait (o t : Tid) (l : List Tid) : LockStep (some (some o), l) (some (some o), l ++ [t])
  | handOver (o t : Tid) (l : List Tid) : LockStep (some (some o), t :: l) (some (some t), l)
  | unlock (o : Tid) : LockStep (some (some o), []) (some none, [])

/-- Every mutex moves as a lock does. -/
def Moves (s : State) (L : QName → List Tid) (s' : State) (L' : QName → List Tid) : Prop :=
  ∀ m, ReflTransGen LockStep (s.mutex m, L (.mutex m)) (s'.mutex m, L' (.mutex m))

theorem Moves.refl (hm : s'.mutex = s.mutex) (hL : ∀ m, L' (.mutex m) = L (.mutex m)) :
    Moves s L s' L' := by
  intro m
  rw [hm, hL]

theorem Moves.trans (h : Moves s L s₁ L₁) (h' : Moves s₁ L₁ s' L') : Moves s L s' L' :=
  fun m => (h m).trans (h' m)

theorem Moves.one (h : LockStep (s.mutex m, L (.mutex m)) (s'.mutex m, L' (.mutex m)))
    (ho : ∀ m', m' ≠ m → s'.mutex m' = s.mutex m' ∧ L' (.mutex m') = L (.mutex m')) :
    Moves s L s' L' := by
  intro m'
  by_cases hm : m' = m
  · rw [hm]
    exact .single h
  · rw [(ho m' hm).1, (ho m' hm).2]

theorem push_mutex (h : q ≠ .mutex m) : push L q t (.mutex m) = L (.mutex m) :=
  update_of_ne (Ne.symm h) _ _

theorem pop_mutex (h : q ≠ .mutex m) : pop L q (.mutex m) = L (.mutex m) :=
  update_of_ne (Ne.symm h) _ _

theorem push_self : push L q t q = L q ++ [t] := update_self _ _ _

theorem pop_self : pop L q q = (L q).tail := update_self _ _ _

/-! ## The invariant -/

/-- The parts that do not read links. -/
structure Core (s : State) (L : QName → List Tid) (cur lv : Option Tid) : Prop where
  placed : Placed s L cur
  locks : Locks s L
  waits : Waits s lv
  counts : Counts s

structure Inv (s : State) (L : QName → List Tid) (cur lv : Option Tid) : Prop
    extends Core s L cur lv where
  rep : Rep s L

theorem Core.not_queued (h : Core s L cur lv) (hs : (s.tcb t).state = .condition ∨
    (s.tcb t).state = .exiting ∨ (s.tcb t).state = .needReset ∨
      (s.tcb t).state = .runnable ∧ cur = some t) (q : QName) : t ∉ L q := by
  intro hmem
  cases q with
  | run =>
    obtain ⟨hrun, hcur⟩ := (h.placed.run t).mp hmem
    simp [hrun, hcur] at hs
  | free =>
    obtain ⟨-, hdead⟩ := (h.placed.free t).mp hmem
    simp [hdead] at hs
  | mutex m =>
    obtain ⟨hmutex, -⟩ := (h.placed.mutex t m).mp hmem
    simp [hmutex] at hs

theorem SameFields.core (h : SameFields s s') (hs : Core s L cur lv) : Core s' L cur lv :=
  ⟨h.placed hs.placed, h.locks hs.locks, h.waits hs.waits, h.counts hs.counts⟩

/-! ## One thread goes somewhere else -/

/-- Besides the state, point and condition of one thread, mutexes and queues, all is the same. -/
structure OneMoved (s s' : State) (t : Tid) : Prop where
  others : SameOthers s s' t
  exited : (s'.tcb t).exited = (s.tcb t).exited
  noThreads : s'.noThreads = s.noThreads
  usedThreads : s'.usedThreads = s.usedThreads
  needReset : s'.needReset = s.needReset
  cond : ∀ c x, s.cond c = some x → ∃ y, s'.cond c = some y ∧ y.user = x.user

theorem SameOthers.trans (h : SameOthers s s₁ t) (h' : SameOthers s₁ s' t) : SameOthers s s' t :=
  ⟨fun t' ht => (h'.state t' ht).trans (h.state t' ht),
    fun t' ht => (h'.point t' ht).trans (h.point t' ht),
    fun t' ht => (h'.cond t' ht).trans (h.cond t' ht),
    fun t' ht => (h'.exited t' ht).trans (h.exited t' ht)⟩

theorem OneMoved.trans (h : OneMoved s s₁ t) (h' : OneMoved s₁ s' t) : OneMoved s s' t := by
  refine ⟨h.others.trans h'.others, h'.exited.trans h.exited, h'.noThreads.trans h.noThreads,
    h'.usedThreads.trans h.usedThreads, h'.needReset.trans h.needReset, fun c x hx => ?_⟩
  obtain ⟨y, hy, hyx⟩ := h.cond c x hx
  obtain ⟨z, hz, hzy⟩ := h'.cond c y hy
  exact ⟨z, hz, hzy.trans hyx⟩

theorem SameFields.oneMoved (h : SameFields s s') : OneMoved s s' t :=
  ⟨⟨fun _ _ => h.state _, fun _ _ => h.point _, fun _ _ => h.tcbCond _, fun _ _ => h.exited _⟩,
    h.exited t, h.noThreads, h.usedThreads, h.needReset, fun _ x hx => ⟨x, by rw [h.cond, hx], rfl⟩⟩

theorem OneMoved.setTcb (hx : x.exited = (s.tcb t).exited) : OneMoved s (s.setTcb t x) t :=
  ⟨setTcb_others x, by rw [setTcb_self, hx], rfl, rfl, rfl, fun _ y hy => ⟨y, hy, rfl⟩⟩

theorem OneMoved.setMutex (o : Option (Option Tid)) : OneMoved s (s.setMutex m o) t :=
  ⟨⟨fun _ _ => rfl, fun _ _ => rfl, fun _ _ => rfl, fun _ _ => rfl⟩, rfl, rfl, rfl, rfl,
    fun _ y hy => ⟨y, hy, rfl⟩⟩

/-- A thread may be in the state `st` at the point `p`, with the condition `o`. -/
structure Suits (s : State) (t : Tid) (st : TState) (p : Point) (o : Option CondId) : Prop where
  cond : st = .condition → (t = mainThread ∧ p = .user ∧ o = none) ∨
    ∃ c m b, p = .waiting c m b ∧ o = some c
  user : ∀ c m, st = .condition → p = .waiting c m .user → ∃ x, s.cond c = some x ∧ x.user = true
  join : ∀ c m j, st = .condition → p = .waiting c m (.join j) →
    j ≠ t ∧ (s.tcb j).exited = some c ∧ Alive (s.tcb j).state
  ended : ∀ j, st ≠ .condition → joining p = some j → j ≠ t ∧ (s.tcb j).state = .exiting
  one : ∀ t' j, t' ≠ t → joining p = some j → joining (s.tcb t').point ≠ some j

theorem Suits.alone (hst : st ≠ .condition) (hp : joining p = none) : Suits s t st p o := by
  refine ⟨fun h => absurd h hst, fun _ _ h => absurd h hst, fun _ _ _ h => absurd h hst,
    fun j _ h => ?_, fun _ j _ h => ?_⟩
  · rw [hp] at h
    cases h
  · rw [hp] at h
    cases h

theorem Suits.same (h : Waits s lv) (hst : st ≠ .condition) (ht : (s.tcb t).state ≠ .exiting)
    (hj : ∀ j, joining (s.tcb t).point = some j → (s.tcb j).state = .exiting) :
    Suits s t st (s.tcb t).point o := by
  refine ⟨fun h => absurd h hst, fun _ _ h => absurd h hst, fun _ _ _ h => absurd h hst,
    fun j _ hp => ⟨?_, hj j hp⟩, fun t' j hne hp hp' => hne (h.one t' t j hp' hp)⟩
  rintro rfl
  exact ht (hj j hp)

theorem Alive.not_dead (h : Alive st) : st ≠ .dead := by
  rintro rfl
  revert h
  decide

theorem Alive.not_needReset (h : Alive st) : st ≠ .needReset := by
  rintro rfl
  revert h
  decide

theorem Alive.not_exiting (h : Alive st) : st ≠ .exiting := by
  rintro rfl
  revert h
  decide

theorem Core.go (h : Core s L cur lv) (hm : OneMoved s s' t)
    (hold : Alive (s.tcb t).state) (hnew : Alive (s'.tcb t).state)
    (hsuits : Suits s t (s'.tcb t).state (s'.tcb t).point (s'.tcb t).cond)
    (hcur : ∀ t', t' ≠ t → (cur' = some t' ↔ cur = some t'))
    (hL : ∀ q t', t' ≠ t → (t' ∈ L' q ↔ t' ∈ L q))
    (hrun : t ∈ L' .run ↔ (s'.tcb t).state = .runnable ∧ cur' ≠ some t) (hfree : t ∉ L' .free)
    (hmutex : ∀ m, t ∈ L' (.mutex m) ↔
      (s'.tcb t).state = .mutex ∧ ∃ k, (s'.tcb t).point = .locking m k)
    (hlocks : Locks s' L') : Core s' L' cur' lv := by
  refine ⟨?_, hlocks, ?_, ?_⟩
  · refine h.placed.move hm.noThreads hm.others hL hcur hrun ?_ hmutex (fun hle hne => ?_)
      fun _ => ⟨hnew.not_dead, hnew.not_needReset⟩
    · exact ⟨fun hmem => absurd hmem hfree, fun hdead => absurd hdead.2 hnew.not_dead⟩
    · exact absurd (h.placed.fresh t hle hne) hold.not_dead
  · refine h.waits.move hm.others hm.cond hm.exited hsuits.cond hsuits.user hsuits.join
      hsuits.ended hsuits.one (fun _ _ _ _ _ _ => .inl hnew) (fun t' _ hst hp => ?_)
      (fun hr => absurd hr hnew.not_needReset) fun _ _ hj => hj
    exact absurd (h.waits.ended t' t hst hp) hold.not_exiting
  refine h.counts.congr hm.noThreads hm.usedThreads hm.needReset (fun t' => ?_) fun t' => ?_
  · by_cases ht : t' = t
    · rw [ht]
      exact ⟨fun hd => absurd hd hnew.not_dead, fun hd => absurd hd hold.not_dead⟩
    · rw [hm.others.state t' ht]
  · by_cases ht : t' = t
    · rw [ht]
      exact ⟨fun hr => absurd hr hnew.not_needReset, fun hr => absurd hr hold.not_needReset⟩
    · rw [hm.others.state t' ht]

/-! ## Waking and handing over -/

theorem unsuspend_fields : SameFields (s.setTcb t { s.tcb t with state := .runnable })
    (unsuspend s t) := queueAdd_same

theorem unsuspend_moved : OneMoved s (unsuspend s t) t :=
  (OneMoved.setTcb (x := { s.tcb t with state := .runnable }) rfl).trans
    unsuspend_fields.oneMoved

theorem unsuspend_state : ((unsuspend s t).tcb t).state = .runnable := by
  rw [unsuspend_fields.state, setTcb_self]

theorem unsuspend_point (t' : Tid) : ((unsuspend s t).tcb t').point = (s.tcb t').point := by
  by_cases ht : t' = t
  · rw [ht, unsuspend_fields.point, setTcb_self]
  · exact unsuspend_moved.others.point t' ht

theorem unsuspend_mutex : (unsuspend s t).mutex = s.mutex := unsuspend_fields.mutex

theorem Rep.unsuspend (h : Rep s L) (ht : ∀ q, t ∉ L q) : Rep (unsuspend s t) (push L .run t) :=
  (h.setTcb (x := { s.tcb t with state := .runnable }) rfl).add ht

theorem Inv.wake (h : Inv s L cur lv) (hs : (s.tcb t).state = .condition) (hcur : cur ≠ some t)
    (hj : ∀ j, joining (s.tcb t).point = some j → (s.tcb j).state = .exiting) :
    Inv (unsuspend s t) (push L .run t) cur lv ∧ Moves s L (unsuspend s t) (push L .run t) := by
  have hout := h.not_queued (.inl hs)
  have hnotlock : ∀ m k, (s.tcb t).point ≠ .locking m k := by
    intro m k hp
    obtain ⟨-, huser, -⟩ | ⟨c, m', b, hw, -⟩ := h.waits.cond t hs
    · rw [hp] at huser
      cases huser
    · rw [hp] at hw
      cases hw
  have hnew : ((Mthread.unsuspend s t).tcb t).state = .runnable := unsuspend_state
  have hpt := unsuspend_point (s := s) (t := t) t
  refine ⟨⟨?_, h.rep.unsuspend hout⟩, .refl unsuspend_mutex fun m => push_mutex (by simp)⟩
  refine h.toCore.go unsuspend_moved (by rw [hs]; decide) (by rw [hnew]; decide) ?_
    (fun _ _ => Iff.rfl) (fun q t' ht => by rw [mem_push]; simp [ht]) ?_ ?_ (fun m => ?_) ?_
  · rw [hnew, hpt]
    exact .same h.waits (by simp) (by simp [hs]) hj
  · rw [mem_push, hnew]
    simp [hcur]
  · rw [mem_push]
    simp [hout]
  · rw [mem_push, hnew]
    simp [hout]
  refine h.locks.move unsuspend_moved.others (fun m k _ hp => ?_)
    (fun _ _ _ _ _ hm => by rw [unsuspend_mutex]; exact hm) fun m hm => ?_
  · rw [hpt] at hp
    exact absurd hp (hnotlock m k)
  · rw [unsuspend_mutex] at hm
    rw [push_mutex (by simp)]
    exact h.locks.unowned m hm

theorem Inv.handOver (h : Inv s L cur lv) (hl : L (.mutex m) = t :: l)
    (ho : s.mutex m = some (some t')) (huser : (s.tcb t').point = .user) (hcur : cur ≠ some t) :
    ∃ s₁, queueRemove s (.mutex m) = (some t, s₁) ∧
      Inv (unsuspend (s₁.setMutex m (some (some t))) t) (push (pop L (.mutex m)) .run t) cur lv ∧
      Moves s L (unsuspend (s₁.setMutex m (some (some t))) t) (push (pop L (.mutex m)) .run t) ∧
      SameOthers s (unsuspend (s₁.setMutex m (some (some t))) t) t := by
  obtain ⟨hsome, hrep⟩ := h.rep.remove hl
  have hsame : SameFields s (queueRemove s (.mutex m)).2 := queueRemove_same
  refine ⟨(queueRemove s (.mutex m)).2, Prod.ext hsome rfl, ?_⟩
  generalize (queueRemove s (.mutex m)).2 = s₁ at hsame hrep ⊢
  have hmem : t ∈ L (.mutex m) := by
    rw [hl]
    exact List.mem_cons_self
  obtain ⟨hs, k, hpt⟩ := (h.placed.mutex t m).mp hmem
  have hpop : ∀ q t'', t'' ∈ pop L (.mutex m) q ↔ t'' ∈ L q ∧ t'' ≠ t := fun q t'' =>
    mem_pop h.rep hl
  have hout : ∀ q, t ∉ pop L (.mutex m) q := fun q hbad => ((hpop q t).mp hbad).2 rfl
  have hmoved : OneMoved s (unsuspend (s₁.setMutex m (some (some t))) t) t :=
    hsame.oneMoved.trans ((OneMoved.setMutex _).trans unsuspend_moved)
  have hmutex : (unsuspend (s₁.setMutex m (some (some t))) t).mutex =
      update s.mutex m (some (some t)) := by
    rw [unsuspend_mutex, ← hsame.mutex]
    rfl
  have hnew : ((unsuspend (s₁.setMutex m (some (some t))) t).tcb t).state = .runnable :=
    unsuspend_state
  have hpt' : ((unsuspend (s₁.setMutex m (some (some t))) t).tcb t).point = (s.tcb t).point :=
    (unsuspend_point t).trans (hsame.point t)
  refine ⟨⟨?_, Rep.unsuspend (hrep.congr rfl fun _ => rfl) hout⟩, ?_, hmoved.others⟩
  · refine h.toCore.go hmoved (by rw [hs]; decide) (by rw [hnew]; decide) ?_
      (fun _ _ => Iff.rfl) (fun q t'' ht => ?_) ?_ ?_ (fun m' => ?_) ?_
    · rw [hnew, hpt']
      refine .same h.waits (by simp) (by simp [hs]) fun j hj => ?_
      exact h.waits.ended t j (by simp [hs]) hj
    · rw [mem_push, hpop]
      simp [ht]
    · rw [mem_push, hnew]
      simp [hcur]
    · rw [mem_push]
      simp [hout]
    · rw [mem_push, hnew]
      simp [hout]
    refine h.locks.move hmoved.others (fun m' k' _ hp => ?_) (fun t'' m' k' ht hp hm => ?_)
      fun m' hm => ?_
    · rw [hpt', hpt] at hp
      cases hp
      rw [hmutex, update_self]
    · rw [hmutex]
      by_cases hmm : m' = m
      · -- it has been the mutex of the caller, which is not in `mthread_mutex_lock`
        rw [hmm, ho] at hm
        cases hm
        rw [huser] at hp
        cases hp
      · rw [update_of_ne hmm]
        exact hm
    rw [hmutex] at hm
    by_cases hmm : m' = m
    · rw [hmm, update_self] at hm
      simp at hm
    · rw [update_of_ne hmm] at hm
      rw [push_mutex (by simp), pop_mutex (by simpa using Ne.symm hmm)]
      exact h.locks.unowned m' hm
  · refine .one (m := m) ?_ fun m' hmm => ⟨?_, ?_⟩
    · rw [hmutex, update_self, push_mutex (by simp), pop_self, ho, hl]
      exact .handOver t' t l
    · rw [hmutex, update_of_ne hmm]
    · rw [push_mutex (by simp), pop_mutex (by simpa using Ne.symm hmm)]

/-! ## What nobody waits for -/

/-- No queue, state or owner is different, and no point. -/
structure Alike (s s' : State) : Prop where
  state : ∀ t, (s'.tcb t).state = (s.tcb t).state
  point : ∀ t, (s'.tcb t).point = (s.tcb t).point
  tcbCond : ∀ t, (s'.tcb t).cond = (s.tcb t).cond
  exited : ∀ t, (s'.tcb t).exited = (s.tcb t).exited
  next : ∀ t, (s'.tcb t).next = (s.tcb t).next
  queue : s'.queue = s.queue
  mutex : s'.mutex = s.mutex
  current : s'.current = s.current
  runningMain : s'.runningMain = s.runningMain
  noThreads : s'.noThreads = s.noThreads
  usedThreads : s'.usedThreads = s.usedThreads
  needReset : s'.needReset = s.needReset
  cond : ∀ c x, s.cond c = some x → ∃ y, s'.cond c = some y ∧ y.user = x.user

theorem Alike.inv (h : Alike s s') (hs : Inv s L cur lv) : Inv s' L cur lv :=
  ⟨⟨hs.placed.congr h.noThreads h.state fun t _ _ _ => by rw [h.point t],
    hs.locks.congr h.mutex fun t hst _ _ hp =>
      ⟨(h.state t).symm.trans hst, (h.point t).symm.trans hp⟩,
    hs.waits.congr h.cond h.state h.point (fun t _ => h.tcbCond t) h.exited,
    hs.counts.congr h.noThreads h.usedThreads h.needReset (fun t => by rw [h.state t])
      fun t => by rw [h.state t]⟩, hs.rep.congr h.queue h.next⟩

theorem setCond_alike {y : Cond} (hx : ∀ x, s.cond c = some x → y.user = x.user) :
    Alike s (s.setCond c (some y)) := by
  refine ⟨fun _ => rfl, fun _ => rfl, fun _ => rfl, fun _ => rfl, fun _ => rfl, rfl, rfl, rfl, rfl,
    rfl, rfl, rfl, fun c' x hc => ?_⟩
  by_cases hcc : c' = c
  · subst hcc
    exact ⟨y, update_self _ _ _, hx x hc⟩
  · exact ⟨x, (update_of_ne hcc _ _).trans hc, rfl⟩

theorem setTcb_alike (hst : x.state = (s.tcb t).state) (hp : x.point = (s.tcb t).point)
    (hc : x.cond = (s.tcb t).cond) (he : x.exited = (s.tcb t).exited)
    (hn : x.next = (s.tcb t).next) : Alike s (s.setTcb t x) := by
  have hall : ∀ {α : Type} (g : Tcb → α), g x = g (s.tcb t) →
      ∀ t', g ((s.setTcb t x).tcb t') = g (s.tcb t') := by
    intro α g hg t'
    by_cases ht : t' = t
    · rw [ht, setTcb_self, hg]
    · rw [setTcb_ne x ht]
  exact ⟨hall Tcb.state hst, hall Tcb.point hp, hall Tcb.cond hc, hall Tcb.exited he,
    hall Tcb.next hn, rfl, rfl, rfl, rfl, rfl, rfl, rfl, fun _ y hy => ⟨y, hy, rfl⟩⟩

theorem Inv.setMutex (h : Inv s L cur lv) (hL : L (.mutex m) = [])
    (hno : ∀ t k, (s.tcb t).point = .locking m k → s.mutex m ≠ some (some t))
    (o : Option (Option Tid)) : Inv (s.setMutex m o) L cur lv := by
  have hother : ∀ m', m' ≠ m → (s.setMutex m o).mutex m' = s.mutex m' :=
    fun m' hm => update_of_ne hm _ _
  refine ⟨⟨h.placed.congr rfl (fun _ => rfl) fun _ _ _ _ => Iff.rfl, ⟨fun t m' k hs hp => ?_,
    fun m' hm => ?_⟩, h.waits.congr (fun _ x hx => ⟨x, hx, rfl⟩) (fun _ => rfl) (fun _ => rfl)
      (fun _ _ => rfl) fun _ => rfl, ⟨h.counts.used, h.counts.needReset⟩⟩,
    h.rep.congr rfl fun _ => rfl⟩
  · have howner := h.locks.owner t m' k hs hp
    by_cases hmm : m' = m
    · subst hmm
      exact absurd howner (hno t k hp)
    · rw [hother m' hmm]
      exact howner
  by_cases hmm : m' = m
  · rw [hmm]
    exact hL
  · rw [hother m' hmm] at hm
    exact h.locks.unowned m' hm

theorem Moves.setMutex (hL : L (.mutex m) = []) {o : Option (Option Tid)}
    (h : LockStep (s.mutex m, []) (o, [])) : Moves s L (s.setMutex m o) L := by
  refine .one (m := m) ?_ fun m' hm => ⟨update_of_ne hm _ _, rfl⟩
  have hself : (s.setMutex m o).mutex m = o := update_self _ _ _
  rw [hself, hL]
  exact h

/-! ## The running thread -/

/-- The thread `s.current` runs; it may have been suspended in a call. -/
structure Fit (s : State) (L : QName → List Tid) : Prop where
  inv : Inv s L (some s.current) none
  main : s.runningMain = decide (s.current = mainThread)
  state : (s.tcb s.current).state = .runnable ∨ s.current = mainThread ∧
    (s.tcb s.current).state = .condition ∧ joining (s.tcb s.current).point = none

/-- It is in its own code, or in a call in which it has not been suspended. -/
structure Going (s : State) (L : QName → List Tid) : Prop extends Fit s L where
  user : (s.tcb s.current).point = .user

theorem Fit.alive (h : Fit s L) : Alive (s.tcb s.current).state := by
  obtain hs | ⟨-, hs, -⟩ := h.state
  · exact .inr (.inr hs)
  · exact .inl hs

theorem Fit.not_queued (h : Fit s L) (q : QName) : s.current ∉ L q := by
  apply h.inv.not_queued
  obtain hs | ⟨-, hs, -⟩ := h.state
  · exact .inr (.inr (.inr ⟨hs, rfl⟩))
  · exact .inl hs

theorem Going.stay (h : Going s L) (hi : Inv s' L' (some s.current) none)
    (hc : s'.current = s.current) (hm : s'.runningMain = s.runningMain)
    (hs : (s'.tcb s.current).state = (s.tcb s.current).state)
    (hp : (s'.tcb s.current).point = (s.tcb s.current).point) : Going s' L' := by
  refine ⟨⟨?_, ?_, ?_⟩, ?_⟩
  · rw [hc]
    exact hi
  · rw [hm, hc]
    exact h.main
  · rw [hc, hs, hp]
    exact h.state
  · rw [hc, hp]
    exact h.user

def Goes (s : State) (L : QName → List Tid) (s' : State) : Prop :=
  ∃ L', Going s' L' ∧ Moves s L s' L' ∧ s'.current = s.current

/-- After a call in which the thread has been suspended. -/
def Stops (s : State) (L : QName → List Tid) (s' : State) : Prop :=
  ∃ L', Fit s' L' ∧ Moves s L s' L'

theorem Going.goes (h : Going s L) : Goes s L s := ⟨L, h, .refl rfl fun _ => rfl, rfl⟩

theorem Goes.trans (h : Goes s L s₁) (h' : ∀ L₁, Going s₁ L₁ → Goes s₁ L₁ s') : Goes s L s' := by
  obtain ⟨L₁, hg, hm, hc⟩ := h
  obtain ⟨L', hg', hm', hc'⟩ := h' L₁ hg
  exact ⟨L', hg', hm.trans hm', hc'.trans hc⟩

theorem Goes.stops (h : Goes s L s') : Stops s L s' := by
  obtain ⟨L', hg, hm, -⟩ := h
  exact ⟨L', hg.toFit, hm⟩

theorem Goes.then_stops (h : Goes s L s₁) (h' : ∀ L₁, Going s₁ L₁ → Stops s₁ L₁ s') :
    Stops s L s' := by
  obtain ⟨L₁, hg, hm, -⟩ := h
  obtain ⟨L', hf, hm'⟩ := h' L₁ hg
  exact ⟨L', hf, hm.trans hm'⟩

theorem Going.alike (h : Going s L) (ha : Alike s s') : Goes s L s' :=
  ⟨L, h.stay (ha.inv h.inv) ha.current ha.runningMain (ha.state _) (ha.point _),
    .refl ha.mutex fun _ => rfl, ha.current⟩

theorem Fit.settle (h : Fit s L) (hm : OneMoved s s' s.current) (hrep : Rep s' L)
    (hmutex : s'.mutex = s.mutex) (hc : s'.current = s.current)
    (hmain : s'.runningMain = s.runningMain)
    (hs : (s'.tcb s.current).state = (s.tcb s.current).state)
    (hp : (s'.tcb s.current).point = .user)
    (hcond : (s.tcb s.current).state = .condition → (s'.tcb s.current).cond = none) :
    Goes s L s' := by
  have hout := h.not_queued
  have hmainstate : (s.tcb s.current).state = .condition → s.current = mainThread := by
    intro hst
    obtain hr | ⟨hr, -, -⟩ := h.state
    · rw [hst] at hr
      cases hr
    · exact hr
  have hcore : Core s' L (some s.current) none := by
    refine h.inv.toCore.go hm h.alive (by rw [hs]; exact h.alive) ?_ (fun _ _ => Iff.rfl)
      (fun _ _ _ => Iff.rfl) ?_ (hout _) (fun m => ?_) ?_
    · rw [hp]
      refine ⟨fun hst => .inl ?_, fun _ _ _ hbad => (by cases hbad), fun _ _ _ _ hbad =>
        (by cases hbad), fun _ _ hbad => (by cases hbad), fun _ _ _ hbad => (by cases hbad)⟩
      rw [hs] at hst
      exact ⟨hmainstate hst, rfl, hcond hst⟩
    · simp [hout]
    · rw [hp]
      simp [hout]
    refine h.inv.locks.move hm.others (fun m k _ hbad => ?_) (fun _ _ _ _ _ ho => ?_)
      fun m hm' => ?_
    · rw [hp] at hbad
      cases hbad
    · rw [hmutex]
      exact ho
    · rw [hmutex] at hm'
      exact h.inv.locks.unowned m hm'
  refine ⟨L, ⟨⟨?_, ?_, ?_⟩, ?_⟩, .refl hmutex fun _ => rfl, hc⟩
  · rw [hc]
    exact ⟨hcore, hrep⟩
  · rw [hmain, hc]
    exact h.main
  · rw [hc, hs, hp]
    obtain hr | ⟨hr, hst, -⟩ := h.state
    · exact .inl hr
    · exact .inr ⟨hr, hst, rfl⟩
  · rw [hc]
    exact hp

/-- The main thread waits for a condition of the program: it can go on at any time. -/
def mainIdle (s : State) : Prop :=
  (s.tcb mainThread).state = .condition ∧ joining (s.tcb mainThread).point = none

theorem Inv.schedule (h : Inv s L none none)
    (hmain : s.runningMain = decide (s.current = mainThread))
    (hspare : L .run ≠ [] ∨ mainIdle s) : Stops s L (schedule s) := by
  unfold Mthread.schedule
  cases hl : L .run with
  | nil =>
    obtain ⟨hst, hj⟩ := hspare.resolve_left fun hne => hne hl
    rw [h.rep.remove_nil hl]
    dsimp only
    have hplaced : Placed s L (some mainThread) := by
      refine ⟨fun t => ?_, h.placed.free, h.placed.mutex, h.placed.fresh, h.placed.main,
        h.placed.size⟩
      rw [h.placed.run t]
      refine and_congr_right fun hr => ⟨fun _ hbad => ?_, fun _ hbad => by cases hbad⟩
      cases hbad
      rw [hst] at hr
      cases hr
    have hinv : Inv s L (some mainThread) none := ⟨⟨hplaced, h.locks, h.waits, h.counts⟩, h.rep⟩
    split_ifs with hrun
    · rw [hmain, decide_eq_true_eq] at hrun
      refine ⟨L, ⟨?_, hmain, .inr ⟨hrun, ?_, ?_⟩⟩, .refl rfl fun _ => rfl⟩
      · rw [hrun]
        exact hinv
      · rw [hrun]
        exact hst
      · rw [hrun]
        exact hj
    refine ⟨L, ⟨?_, rfl, .inr ⟨rfl, hst, hj⟩⟩, .refl rfl fun _ => rfl⟩
    exact ⟨⟨⟨hplaced.run, hplaced.free, hplaced.mutex, hplaced.fresh, hplaced.main,
      hplaced.size⟩, ⟨h.locks.owner, h.locks.unowned⟩,
      h.waits.congr (fun _ x hx => ⟨x, hx, rfl⟩) (fun _ => rfl) (fun _ => rfl) (fun _ _ => rfl)
        fun _ => rfl, ⟨h.counts.used, h.counts.needReset⟩⟩, h.rep.congr rfl fun _ => rfl⟩
  | cons t l =>
    obtain ⟨hsome, hrep⟩ := h.rep.remove hl
    have hsame : SameFields s (queueRemove s .run).2 := queueRemove_same
    have hrem : queueRemove s .run = (some t, (queueRemove s .run).2) := Prod.ext hsome rfl
    rw [hrem]
    dsimp only
    generalize (queueRemove s .run).2 = s₁ at hsame hrep
    have hrun : (s.tcb t).state = .runnable := by
      have hmem : t ∈ L .run := by
        rw [hl]
        exact List.mem_cons_self
      exact ((h.placed.run t).mp hmem).1
    have hpop : ∀ q t', t' ∈ pop L .run q ↔ t' ∈ L q ∧ t' ≠ t := fun q t' => mem_pop h.rep hl
    have hcore := hsame.core h.toCore
    have hne : ∀ q, q ≠ .run → pop L .run q = L q := fun q hq => update_of_ne hq _ _
    have hplaced : Placed s₁ (pop L .run) (some t) := by
      refine ⟨fun t' => ?_, fun t' => ?_, fun t' m => ?_, hcore.placed.fresh, hcore.placed.main,
        hcore.placed.size⟩
      · rw [hpop, hcore.placed.run t']
        simp [eq_comm]
      · rw [hne _ (by simp)]
        exact hcore.placed.free t'
      · rw [hne _ (by simp)]
        exact hcore.placed.mutex t' m
    have hlocks : Locks s₁ (pop L .run) := by
      refine ⟨hcore.locks.owner, fun m hm => ?_⟩
      rw [hne _ (by simp)]
      exact hcore.locks.unowned m hm
    refine ⟨pop L .run, ⟨?_, rfl, .inl ?_⟩, .refl hsame.mutex fun m => hne _ (by simp)⟩
    · exact ⟨⟨⟨hplaced.run, hplaced.free, hplaced.mutex, hplaced.fresh, hplaced.main,
        hplaced.size⟩, ⟨hlocks.owner, hlocks.unowned⟩,
        hcore.waits.congr (fun _ x hx => ⟨x, hx, rfl⟩) (fun _ => rfl) (fun _ => rfl)
          (fun _ _ => rfl) fun _ => rfl, ⟨hcore.counts.used, hcore.counts.needReset⟩⟩,
        hrep.congr rfl fun _ => rfl⟩
    · exact (hsame.state t).trans hrun

end HardenedMinix.Mthread
