import HardenedMinix.Lib.Runs
import HardenedMinix.Libmthread.ThreadCreate

/-!
# Mutual exclusion of threads

Every run of a program of threads keeps the queues in order, as long as somebody can always run,
no signal finds the main thread and another one waiting, and no thread is joined or detached while
it is being joined.
-/

open Option

namespace HardenedMinix.Mthread

open Lib

variable {s s' s₁ : State} {L L' L₁ : QName → List Tid} {q : QName} {t t' j : Tid}
  {m : MutexId} {c : CondId} {b : Caller} {r : Ret} {ret : Return} {i : Input} {is : List Input}

/-! ## Conditions -/

/-- `malloc` returns memory that is not in use, and the program uses the conditions it has made. -/
def Proper (s : State) : Input → Prop
  | .call (.mutexInit a) => a.bind s.mutex = none
  | .call (.condInit a) => a.bind s.cond = none
  | .call (.wait c _) => (s.cond c).all Cond.user = true
  | .call (.signal c) => (s.cond c).all Cond.user = true
  | .call (.broadcast c) => (s.cond c).all Cond.user = true
  | .call (.create _ a _) => a.bind s.cond = none
  | .call (.join _ a) => a.bind s.mutex = none
  | _ => True

instance (s : State) : (i : Input) → Decidable (Proper s i)
  | .call (.mutexInit a) => inferInstanceAs (Decidable (a.bind s.mutex = none))
  | .call (.condInit a) => inferInstanceAs (Decidable (a.bind s.cond = none))
  | .call (.wait c _) => inferInstanceAs (Decidable ((s.cond c).all Cond.user = true))
  | .call (.signal c) => inferInstanceAs (Decidable ((s.cond c).all Cond.user = true))
  | .call (.broadcast c) => inferInstanceAs (Decidable ((s.cond c).all Cond.user = true))
  | .call (.create _ a _) => inferInstanceAs (Decidable (a.bind s.cond = none))
  | .call (.join _ a) => inferInstanceAs (Decidable (a.bind s.mutex = none))
  | .call (.lock _) => inferInstanceAs (Decidable True)
  | .call (.trylock _) => inferInstanceAs (Decidable True)
  | .call (.unlock _) => inferInstanceAs (Decidable True)
  | .call .yield => inferInstanceAs (Decidable True)
  | .call (.detach _) => inferInstanceAs (Decidable True)
  | .call (.exit _) => inferInstanceAs (Decidable True)
  | .resume => inferInstanceAs (Decidable True)

/-- If the running thread has to wait for the mutex of its condition then another one can run. -/
def Relocks (s : State) : Point → Prop
  | .waiting _ m b => ∀ m', mutexOf s m b = some m' → Contended s m' → Spare s
  | _ => True

/-- Who blocks or ends leaves somebody who can run, a signal finds the main thread alone, and a
thread being joined is neither joined nor detached. -/
def Careful (s : State) : Input → Prop
  | .call (.lock m) => Contended s m → Spare s
  | .call (.wait c m) => s.cond c ≠ none → s.mutex m = some (some s.current) →
      ((s.queue .run).head ≠ none ∨ (s.queue (.mutex m)).head ≠ none) ∨ Idles s .user
  | .call (.signal c) => Alone s c
  | .call (.join j _) => Unjoined s j ∧
      (j ≠ s.current → (s.tcb j).detached = false → Alive (s.tcb j).state → Spare s)
  | .call (.detach j) => Unjoined s j
  | .call (.exit _) => Leaves s
  | .resume => Relocks s (s.tcb s.current).point
  | _ => True

/-! ## What a step promises -/

/-- `mthread_mutex_lock`, `mthread_mutex_trylock` or `mthread_cond_wait` has returned 0 only to
the owner of the mutex. -/
def Answers (s : State) : Return → State → Prop
  | .lock m .ok, s' => s'.mutex m = some (some s.current)
  | .wait m .ok, s' => s'.mutex m = some (some s.current)
  | _, _ => True

/-- A call of `mthread_cond_signal` has woken one thread at most, one that waited for the condition.
-/
def Signals (s : State) : Input → State → Prop
  | .call (.signal c), s' => WokeOne s s' c
  | .call (.exit _), s' => ∀ c, (s.tcb s.current).exited = some c → WokeOne s s' c
  | _, _ => True

theorem bind_none {α β : Type} {a : Option α} {f : α → Option β} (h : a.bind f = none) :
    ∀ x, a = some x → f x = none := by
  rintro x rfl
  exact h

theorem all_user (h : (s.cond c).all Cond.user = true) :
    ∀ x, s.cond c = some x → x.user = true := by
  intro x hx
  rw [hx] at h
  exact h

theorem Going.call (h : Going s L) {f : Call} (hp : Proper s (.call f)) (hc : Careful s (.call f))
    (hs : doCall s f = some (ret, s')) :
    Stops s L s' ∧ Answers s ret s' ∧ Signals s (.call f) s' := by
  cases f with
  | mutexInit a =>
    cases hs
    exact ⟨(h.mutexInit (bind_none hp)).stops, trivial, trivial⟩
  | condInit a =>
    cases hs
    exact ⟨(h.condInit (bind_none hp) true).stops, trivial, trivial⟩
  | lock m =>
    obtain ⟨r, s₁, hrun, hgoes, -, -, hown⟩ | ⟨s₁, hrun, hstops⟩ := h.lock mayWait_user hc
    · simp only [doCall, hrun, returned] at hs
      cases hs
      refine ⟨hgoes.stops, ?_, trivial⟩
      cases r
      case ok => exact hown rfl
      all_goals trivial
    · simp only [doCall, hrun, returned] at hs
      cases hs
      exact ⟨hstops, trivial, trivial⟩
  | trylock m =>
    cases hs
    obtain ⟨hgoes, hown⟩ := h.trylock m
    refine ⟨hgoes.stops, ?_, trivial⟩
    cases hr : (mutexTrylock s m).1
    case ok => exact hown hr
    all_goals trivial
  | unlock m =>
    cases hs
    exact ⟨(h.unlock m).stops, trivial, trivial⟩
  | wait c m =>
    obtain ⟨r, s₁, hrun, hr, hgoes⟩ | ⟨s₁, hrun, hstops⟩ := h.wait (b := .user) (all_user hp) hc
    · simp only [doCall, hrun, returned] at hs
      cases hs
      refine ⟨hgoes.stops, ?_, trivial⟩
      cases r
      case ok => exact absurd rfl hr
      all_goals trivial
    · simp only [doCall, hrun, returned] at hs
      cases hs
      exact ⟨hstops, trivial, trivial⟩
  | signal c =>
    cases hs
    obtain ⟨hgoes, hone⟩ := h.signal (all_user hp) hc
    exact ⟨hgoes.stops, trivial, hone⟩
  | broadcast c =>
    cases hs
    exact ⟨(h.broadcast (all_user hp)).stops, trivial, trivial⟩
  | create detached a p =>
    obtain ⟨⟨r, s₁⟩, hrun, heq⟩ := map_eq_some_iff.mp hs
    cases heq
    exact ⟨(h.create (bind_none hp) hrun).stops, trivial, trivial⟩
  | yield =>
    obtain ⟨r, hr, hgoes⟩ | ⟨hr, hstops⟩ := h.yield
    · simp only [doCall, returned, hr] at hs
      cases hs
      exact ⟨hgoes.stops, trivial, trivial⟩
    · simp only [doCall, returned, hr] at hs
      cases hs
      exact ⟨hstops, trivial, trivial⟩
  | join j a =>
    obtain ⟨⟨o, s₁⟩, hrun, heq⟩ := map_eq_some_iff.mp hs
    obtain ⟨r, rfl, hgoes⟩ | ⟨rfl, hstops⟩ := h.join (bind_none hp) hc.1 hc.2 hrun
    · cases heq
      exact ⟨hgoes.stops, trivial, trivial⟩
    · cases heq
      exact ⟨hstops, trivial, trivial⟩
  | detach j =>
    obtain ⟨⟨r, s₁⟩, hrun, heq⟩ := map_eq_some_iff.mp hs
    cases heq
    exact ⟨(h.detach hc hrun).stops, trivial, trivial⟩
  | exit value =>
    obtain ⟨s₁, hrun, heq⟩ := map_eq_some_iff.mp hs
    cases heq
    obtain ⟨hstops, hone⟩ := h.exit hc hrun
    exact ⟨hstops, trivial, hone⟩

/-! ## Going on after a suspension -/

theorem Fit.runnable (h : Fit s L) (hu : (s.tcb s.current).point ≠ .user)
    (hw : ∀ c m b, (s.tcb s.current).point ≠ .waiting c m b) :
    (s.tcb s.current).state = .runnable := by
  obtain hr | ⟨-, hst, -⟩ := h.state
  · exact hr
  · obtain ⟨-, huser, -⟩ | ⟨c, m, b, hp, -⟩ := h.inv.waits.cond _ hst
    · exact absurd huser hu
    · exact absurd hp (hw c m b)

theorem Fit.joined (h : Fit s L) (hj : joining (s.tcb s.current).point = some j) :
    (s.tcb j).state = .exiting ∧ j ≠ s.current ∧
      ∀ t, t ≠ s.current → joining (s.tcb t).point ≠ some j := by
  have hst : (s.tcb s.current).state ≠ .condition := by
    obtain hr | ⟨-, -, hnone⟩ := h.state
    · rw [hr]
      simp
    · rw [hj] at hnone
      cases hnone
  have hend := h.inv.waits.ended s.current j hst hj
  refine ⟨hend, ?_, fun t ht hj' => ht (h.inv.waits.one t s.current j hj' hj)⟩
  rintro rfl
  exact h.alive.not_exiting hend

theorem back_self (s : State) :
    (back s).tcb s.current = { s.tcb s.current with point := .user } := setTcb_self _

theorem back_ne (h : t ≠ s.current) : (back s).tcb t = s.tcb t := setTcb_ne _ h

theorem Fit.goesBack (h : Fit s L) (hst : (s.tcb s.current).state = .runnable) :
    Goes s L (back s) := by
  have hself := back_self s
  refine h.settle (.setTcb rfl) (h.inv.rep.setTcb rfl) rfl rfl rfl ?_ ?_ fun hbad => ?_
  · rw [hself]
  · rw [hself]
  · rw [hst] at hbad
    cases hbad

theorem Going.waitReturns (h : Going s L) (hown : s.mutex m = some (some s.current))
    (hj : ∀ j, b = .join j → (s.tcb j).state = .exiting ∧ Unjoined s j)
    (hs : condWaitReturns s m b .ok = some (ret, s')) : Stops s L s' ∧ Answers s ret s' := by
  cases b with
  | user =>
    cases hs
    exact ⟨h.goes.stops, hown⟩
  | join j =>
    obtain ⟨hend, hno⟩ := hj j rfl
    unfold condWaitReturns at hs
    dsimp only at hs
    rw [if_pos rfl] at hs
    obtain ⟨⟨o, s₁⟩, hrun, heq⟩ := map_eq_some_iff.mp hs
    obtain ⟨rfl, hgoes⟩ := h.joinResume hend hno hrun
    cases heq
    exact ⟨hgoes.stops, trivial⟩

/-- The state in which a thread that has waited for a condition locks the mutex again. -/
def relocking (s : State) (c : CondId) (x : Cond) : State :=
  (s.setCond c (some { x with mutex := none })).setTcb s.current
    { s.tcb s.current with point := .user, cond := none }

theorem relocking_eq (s : State) (c : CondId) (x : Cond) :
    ((back s).setCond c (some { x with mutex := none })).setTcb s.current
      { (back s).tcb s.current with cond := none } = relocking s c x := by
  rw [back_self]
  unfold relocking back State.setTcb State.setCond
  dsimp only
  rw [Function.update_idem]

theorem relocking_self (s : State) (c : CondId) (x : Cond) :
    (relocking s c x).tcb s.current = { s.tcb s.current with point := .user, cond := none } :=
  setTcb_self _

theorem relocking_ne {x : Cond} (h : t ≠ s.current) : (relocking s c x).tcb t = s.tcb t :=
  setTcb_ne _ h

theorem Fit.relocks (h : Fit s L) {x : Cond} (hc : s.cond c = some x) :
    Goes s L (relocking s c x) := by
  have hself := relocking_self s c x
  have hcond : Alike s (s.setCond c (some { x with mutex := none })) := setCond_alike fun y hy => by
      rw [hc] at hy
      cases hy
      rfl
  have hmoved : OneMoved s (relocking s c x) s.current := by
    have hfirst : OneMoved s (s.setCond c (some { x with mutex := none })) s.current :=
      ⟨⟨fun _ _ => rfl, fun _ _ => rfl, fun _ _ => rfl, fun _ _ => rfl⟩, rfl, rfl, rfl, rfl,
        hcond.cond⟩
    exact hfirst.trans (.setTcb rfl)
  have hrep : Rep (relocking s c x) L :=
    Rep.setTcb (s := s.setCond c (some { x with mutex := none })) (h.inv.rep.congr rfl fun _ => rfl)
      rfl
  refine h.settle hmoved hrep rfl rfl rfl ?_ ?_ fun _ => ?_
  · rw [hself]
  · rw [hself]
  · rw [hself]

theorem Fit.resume (h : Fit s L) (hc : Careful s .resume) (hs : doResume s = some (ret, s')) :
    Stops s L s' ∧ Answers s ret s' := by
  unfold doResume at hs
  cases hp : (s.tcb s.current).point with
  | user =>
    rw [hp] at hs
    cases hs
  | gone =>
    rw [hp] at hs
    cases hs
  | yielding =>
    rw [hp] at hs
    cases hs
    have hst := h.runnable (by rw [hp]; simp) fun c m b => by rw [hp]; simp
    exact ⟨(h.goesBack hst).stops, trivial⟩
  | locking m k =>
    have hst := h.runnable (by rw [hp]; simp) fun c m b => by rw [hp]; simp
    have hown : (back s).mutex m = some (some (back s).current) :=
      h.inv.locks.owner s.current m k hst hp
    have hback := h.goesBack hst
    rw [hp] at hs
    cases k with
    | user =>
      cases hs
      exact ⟨hback.stops, hown⟩
    | wait b =>
      dsimp only at hs
      obtain ⟨L₁, h1, hm1, hc1⟩ := hback
      obtain ⟨⟨L', hfit, hm'⟩, hans⟩ := h1.waitReturns hown (fun j hj => by
        subst hj
        obtain ⟨hend, hne, hno⟩ := h.joined (j := j) (by rw [hp]; rfl)
        refine ⟨?_, fun t => ?_⟩
        · rw [back_ne hne]
          exact hend
        by_cases ht : t = s.current
        · rw [ht, back_self]
          simp [joining]
        · rw [back_ne ht]
          exact hno t ht) hs
      refine ⟨⟨L', hfit, hm1.trans hm'⟩, ?_⟩
      exact hans
  | waiting c m b =>
    rw [hp] at hs
    have hjoined : ∀ j, b = .join j → (s.tcb j).state = .exiting ∧ j ≠ s.current ∧
        ∀ t, t ≠ s.current → joining (s.tcb t).point ≠ some j := by
      rintro j rfl
      exact h.joined (by rw [hp]; rfl)
    unfold Careful Relocks at hc
    rw [hp] at hc
    dsimp only at hs hc
    unfold condWaitEnd at hs
    have hcond : (back s).cond c = s.cond c := rfl
    rw [hcond] at hs
    cases hx : s.cond c with
    | none =>
      rw [hx] at hs
      cases hs
    | some x =>
      rw [hx] at hs
      dsimp only at hs
      have heq := relocking_eq s c x
      have hcur : ((back s).setCond c (some { x with mutex := none })).current = s.current := rfl
      have htcb : ((back s).setCond c (some { x with mutex := none })).tcb = (back s).tcb := rfl
      rw [hcur, htcb, heq] at hs
      obtain ⟨L₁, h1, hm1, hc1⟩ := h.relocks hx
      have hmutexOf : mutexOf (relocking s c x) m b = mutexOf s m b := by
        cases b with
        | user => rfl
        | join j =>
          show ((relocking s c x).tcb j).exitm = (s.tcb j).exitm
          rw [relocking_ne (hjoined j rfl).2.1]
      rw [hmutexOf] at hs
      cases hm' : mutexOf s m b with
      | none =>
        rw [hm'] at hs
        cases hs
      | some m' =>
        rw [hm'] at hs
        dsimp only at hs
        have hj1 : ∀ j, b = .join j → ((relocking s c x).tcb j).state = .exiting ∧
            Unjoined (relocking s c x) j := by
          intro j hj
          obtain ⟨hend, hne, hno⟩ := hjoined j hj
          refine ⟨by rw [relocking_ne hne]; exact hend, fun t => ?_⟩
          by_cases ht : t = s.current
          · rw [ht, relocking_self]
            simp [joining]
          · rw [relocking_ne ht]
            exact hno t ht
        have hmay : MayWait (relocking s c x) (.locking m' (.wait b)) := by
          intro j hj
          cases b with
          | user => cases hj
          | join j' =>
            cases hj
            obtain ⟨hend, hno⟩ := hj1 j rfl
            refine ⟨?_, hend, fun t _ => hno t⟩
            rw [hc1]
            exact (hjoined j rfl).2.1
        have hspare : Contended (relocking s c x) m' → Spare (relocking s c x) := by
          rintro ⟨o, ho, hne⟩
          obtain hrun | ⟨hcm, hidle⟩ := hc m' hm' ⟨o, ho, hne⟩
          · exact .inl hrun
          · refine .inr ⟨hcm, ?_⟩
            unfold mainIdle
            rw [relocking_ne (Ne.symm hcm)]
            exact hidle
        obtain ⟨r, s2, hrun, ⟨L2, h2, hm2, hc2⟩, -, htcb2, hown⟩ | ⟨s2, hrun, hstops⟩ :=
          h1.lock hmay hspare
        · rw [hrun] at hs
          by_cases hr : r = .ok
          · subst hr
            dsimp only at hs
            have hown2 : s2.mutex m' = some (some s2.current) := by
              rw [hown rfl, hc2]
            obtain ⟨⟨L', hfit, hm3⟩, hans⟩ := h2.waitReturns hown2 (fun j hj => by
              obtain ⟨hend, hno⟩ := hj1 j hj
              exact ⟨by rw [htcb2]; exact hend, fun t => by rw [htcb2]; exact hno t⟩) hs
            refine ⟨⟨L', hfit, hm1.trans (hm2.trans hm3)⟩, ?_⟩
            have hcur2 : s2.current = s.current := hc2.trans hc1
            unfold Answers at hans ⊢
            rw [hcur2] at hans
            exact hans
          -- the mutex has not been locked again
          have hs' : condWaitReturns s2 m' b .failed = some (ret, s') := by
            cases r
            case ok => exact absurd rfl hr
            all_goals exact hs
          cases b with
          | user =>
            cases hs'
            exact ⟨⟨L2, h2.toFit, hm1.trans hm2⟩, trivial⟩
          | join j => cases hs'
        · rw [hrun] at hs
          cases hs
          obtain ⟨L', hfit, hm2⟩ := hstops
          exact ⟨⟨L', hfit, hm1.trans hm2⟩, trivial⟩

/-! ## Steps and runs -/

theorem Fit.step (h : Fit s L) (hp : Proper s i) (hc : Careful s i)
    (hs : step? s i = some (ret, s')) : Stops s L s' ∧ Answers s ret s' ∧ Signals s i s' := by
  cases i with
  | call f =>
    unfold step? at hs
    dsimp only at hs
    split_ifs at hs with hu
    exact Going.call ⟨h, hu⟩ hp hc hs
  | resume =>
    obtain ⟨hstops, hans⟩ := h.resume hc hs
    exact ⟨hstops, hans, trivial⟩

/-- Which threads the queues hold, and what the counters count. -/
structure Orderly (s : State) (L : QName → List Tid) : Prop where
  queue : ∀ q, TailQueue s.tcb (s.queue q).head (s.queue q).tail (L q)
  one : ∀ q q' t, t ∈ L q → t ∈ L q' → q = q'
  run : ∀ t, t ∈ L .run ↔ (s.tcb t).state = .runnable ∧ t ≠ s.current
  free : ∀ t, t ∈ L .free ↔ t.val < s.noThreads ∧ (s.tcb t).state = .dead
  mutex : ∀ t m, t ∈ L (.mutex m) ↔
    (s.tcb t).state = .mutex ∧ ∃ k, (s.tcb t).point = .locking m k
  unowned : ∀ m, s.mutex m = none ∨ s.mutex m = some none → L (.mutex m) = []
  counts : Counts s

theorem Fit.orderly (h : Fit s L) : Orderly s L := by
  refine ⟨h.inv.rep.queue, h.inv.rep.one, fun t => ?_, h.inv.placed.free, h.inv.placed.mutex,
    h.inv.locks.unowned, h.inv.counts⟩
  rw [h.inv.placed.run t, ne_eq, some.injEq, ne_eq, @eq_comm _ s.current]

/-- Without a panic: the queues stay in order, each mutex is handed on first come, first served, and
what is returned is true. -/
def Sound (s : State) (i : Input) : Prop :=
  ∀ ret s', step? s i = some (ret, s') → Answers s ret s' ∧ Signals s i s' ∧
    ∃ L L', Orderly s L ∧ Orderly s' L' ∧ Moves s L s' L'

theorem initial_tcb (ht : t ≠ mainThread) : (initial.tcb t).state = .dead := by
  have hself : initial.tcb t = { zeroTcb with state := .dead } := if_neg ht
  rw [hself]

theorem initial_point (t : Tid) :
    (initial.tcb t).point = .user ∨ (initial.tcb t).point = .gone := by
  by_cases ht : t = mainThread
  · left
    rw [ht]
    rfl
  · right
    have hself : initial.tcb t = { zeroTcb with state := .dead } := if_neg ht
    rw [hself]
    rfl

theorem initial_exited (t : Tid) : (initial.tcb t).exited = none := by
  by_cases ht : t = mainThread
  · rw [ht]
    rfl
  · have hself : initial.tcb t = { zeroTcb with state := .dead } := if_neg ht
    rw [hself]
    rfl

theorem initial_fit : Fit initial fun _ => [] := by
  have hmain : (initial.tcb mainThread).state = .condition := rfl
  have hrun : ∀ t, (initial.tcb t).state = .condition ∨ (initial.tcb t).state = .dead := by
    intro t
    by_cases ht : t = mainThread
    · rw [ht]
      exact .inl hmain
    · exact .inr (initial_tcb ht)
  have hnot : ∀ t st, st ≠ .condition → st ≠ .dead → (initial.tcb t).state ≠ st := by
    rintro t st hc hd rfl
    obtain h | h := hrun t
    · exact hc h
    · exact hd h
  have hjoining : ∀ t, joining (initial.tcb t).point = none := by
    intro t
    obtain h | h := initial_point t
    · rw [h]
      rfl
    · rw [h]
      rfl
  have hnext : ∀ t, (initial.tcb t).next = none := by
    intro t
    by_cases ht : t = mainThread
    · rw [ht]
      rfl
    · have hself : initial.tcb t = { zeroTcb with state := .dead } := if_neg ht
      rw [hself]
      rfl
  have hwait : ∀ t c m b, (initial.tcb t).point ≠ .waiting c m b := by
    intro t c m b hp
    obtain h | h := initial_point t
    · rw [h] at hp
      cases hp
    · rw [h] at hp
      cases hp
  have hplaced : Placed initial (fun _ => []) (some mainThread) := by
    refine ⟨fun t => ?_, fun t => ?_, fun t m => ?_, fun t _ hne => initial_tcb hne, ?_, ?_⟩
    · simp [hnot t .runnable]
    · simp [initial]
    · simp [hnot t .mutex]
    · rw [hmain]
      simp
    · exact Nat.zero_le _
  have hwaits : Waits initial none := by
    refine ⟨fun t hs => .inl ?_, fun t c m _ hp => absurd hp (hwait t c m _),
      fun t c m j _ hp => absurd hp (hwait t c m _), fun t j _ hj => ?_, fun t t' j hj _ => ?_,
      fun t c he => ?_, fun t t' c he _ => ?_, initial_exited _, fun t _ => initial_exited t⟩
    · by_cases ht : t = mainThread
      · subst ht
        exact ⟨rfl, rfl, rfl⟩
      · rw [initial_tcb ht] at hs
        cases hs
    · rw [hjoining] at hj
      cases hj
    · rw [hjoining] at hj
      cases hj
    · rw [initial_exited] at he
      cases he
    · rw [initial_exited] at he
      cases he
  have hcounts : Counts initial := by
    constructor
    · have hempty : (Finset.univ.filter fun t : Tid =>
          t.val < initial.noThreads ∧ (initial.tcb t).state ≠ .dead) = ∅ :=
        Finset.filter_eq_empty_iff.mpr fun t _ hbad => Nat.not_lt_zero _ hbad.1
      rw [hempty]
      rfl
    · have hempty : (Finset.univ.filter fun t : Tid => (initial.tcb t).state = .needReset) = ∅ :=
        Finset.filter_eq_empty_iff.mpr fun t _ => hnot t .needReset (by simp) (by simp)
      rw [hempty]
      rfl
  refine ⟨⟨⟨hplaced, ⟨fun t m k hs => ?_, fun _ _ => rfl⟩, hwaits, hcounts⟩,
    ⟨fun q => ⟨.nil, rfl⟩, fun q q' t hbad => ?_, fun t _ => hnext t⟩⟩, rfl,
    .inr ⟨rfl, hmain, hjoining _⟩⟩
  · exact absurd hs (hnot t .runnable (by simp) (by simp))
  · exact absurd hbad List.not_mem_nil

theorem step_none (h : step? s i = none) : step s i = s := by
  unfold step
  rw [h]
  rfl

theorem step_some (h : step? s i = some (ret, s')) : step s i = s' := by
  unfold step
  rw [h]
  rfl

theorem sound_step (h : ∃ L, Fit s L) (hi : Proper s i ∧ Careful s i) :
    Sound s i ∧ ∃ L, Fit (step s i) L := by
  obtain ⟨L, hfit⟩ := h
  cases hstep : step? s i with
  | none =>
    rw [step_none hstep]
    refine ⟨fun ret s' hbad => ?_, L, hfit⟩
    rw [hstep] at hbad
    cases hbad
  | some p =>
    obtain ⟨ret, s'⟩ := p
    obtain ⟨⟨L', hfit', hmoves⟩, hans, hsig⟩ := hfit.step hi.1 hi.2 hstep
    rw [step_some hstep]
    refine ⟨fun ret' s'' heq => ?_, L', hfit'⟩
    rw [hstep] at heq
    cases heq
    exact ⟨hans, hsig, L, L', hfit.orderly, hfit'.orderly, hmoves⟩

/-- Mutual exclusion and the queues: every run of a program that meets the conditions. -/
theorem threads_exclusive (h : Along step (fun s i => Proper s i ∧ Careful s i) initial is) :
    Along step Sound initial is ∧ ∃ L, Orderly (is.foldl step initial) L := by
  have hrun := Along.run (fun s i => sound_step (s := s) (i := i)) ⟨_, initial_fit⟩ h
  obtain ⟨hsound, L, hfit⟩ := hrun
  exact ⟨hsound, L, hfit.orderly⟩

/-- A thread waits for the mutex of the main thread. -/
def contend : List Input :=
  [.call (.mutexInit (some 0)), .call (.lock 0), .call (.create false (some 0) .ok), .call .yield,
    .call (.lock 0)]

theorem threads_exclusive_contend :
    Along step Sound initial contend ∧ ∃ L, Orderly (contend.foldl step initial) L := by
  refine threads_exclusive ⟨⟨rfl, trivial⟩, ⟨trivial, ?_⟩, ⟨rfl, trivial⟩, ⟨trivial, trivial⟩,
    ⟨trivial, fun _ => .inl ?_⟩, trivial⟩
  · rintro ⟨o, ho, -⟩
    cases ho
  · decide +kernel

/-- A thread waits for a condition with the mutex 0 locked, and the main thread locks it. -/
def stuck : List Input :=
  [.call (.mutexInit (some 0)), .call (.mutexInit (some 1)), .call (.condInit (some 0)),
    .call (.create false (some 1) .ok), .call .yield, .call (.lock 0), .call (.lock 1),
    .call (.wait 0 1), .resume, .call (.lock 0)]

/-- `mthread_mutex_lock` returns 0 to the main thread while another thread owns the mutex. -/
theorem lock_without_owner : ¬ ∀ is : List Input, Along step Proper initial is →
    ∀ i ret s', Proper (is.foldl step initial) i →
      step? (is.foldl step initial) i = some (ret, s') →
        Answers (is.foldl step initial) ret s' := by
  intro hclaim
  have hproper : Along step Proper initial stuck := by decide +kernel
  have hlast : (step? (stuck.foldl step initial) .resume).map (fun p => (p.1, p.2.mutex 0)) =
      some (.lock 0 .ok, some (some 0)) := by decide +kernel
  have hcurrent : (stuck.foldl step initial).current = mainThread := by decide +kernel
  obtain ⟨⟨ret, s'⟩, hstep, heq⟩ := map_eq_some_iff.mp hlast
  obtain ⟨rfl, hmutex⟩ := Prod.mk.inj heq
  have howner : s'.mutex 0 = some (some (stuck.foldl step initial).current) :=
    hclaim stuck hproper .resume _ s' trivial hstep
  dsimp only at hmutex
  rw [hmutex, hcurrent] at howner
  revert howner
  decide

end HardenedMinix.Mthread
