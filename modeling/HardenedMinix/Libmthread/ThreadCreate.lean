import HardenedMinix.Libmthread.ThreadJoins

/-!
# Making threads

The pool of control blocks grows by doubling; a new thread takes the first one that is free.
-/

open Function List

namespace HardenedMinix.Mthread

open Lib

variable {s s' s₁ : State} {L L' L₁ : QName → List Tid} {q : QName} {t t' j : Tid}
  {cur lv : Option Tid} {m : MutexId} {c : CondId} {x : Tcb} {r : Ret}

/-! ## A new thread -/

theorem Waits.start (h : Waits s none) (ho : SameOthers s s' t) (hdead : (s.tcb t).state = .dead)
    (hnew : s.cond c = none) (hst : (s'.tcb t).state = .runnable)
    (hpt : (s'.tcb t).point = .user) (hex : (s'.tcb t).exited = some c)
    (hc : s'.cond = update s.cond c (some ⟨none, false⟩)) (hmain : t ≠ mainThread) :
    Waits s' none := by
  have hcond : ∀ c' x, s.cond c' = some x → s'.cond c' = some x := by
    intro c' x hx
    have hne : c' ≠ c := by
      rintro rfl
      rw [hnew] at hx
      cases hx
    rw [hc, update_of_ne hne]
    exact hx
  have hself : s'.cond c = some ⟨none, false⟩ := by
    rw [hc]
    exact update_self _ _ _
  refine ⟨fun t' hs => ?_, fun t' c' m hs hp => ?_, fun t' c' m j hs hp => ?_,
    fun t' j hs hp => ?_, fun t1 t2 j h1 h2 => ?_, fun t' c' he => ?_, fun t1 t2 c' h1 h2 => ?_, ?_,
    fun t' hs => ?_⟩
  · by_cases ht : t' = t
    · rw [ht, hst] at hs
      cases hs
    · rw [ho.state t' ht] at hs
      rw [ho.point t' ht, ho.cond t' ht]
      exact h.cond t' hs
  · by_cases ht : t' = t
    · rw [ht, hst] at hs
      cases hs
    · rw [ho.state t' ht] at hs
      rw [ho.point t' ht] at hp
      obtain ⟨x, hx, hu⟩ := h.user t' c' m hs hp
      exact ⟨x, hcond c' x hx, hu⟩
  · by_cases ht : t' = t
    · rw [ht, hst] at hs
      cases hs
    rw [ho.state t' ht] at hs
    rw [ho.point t' ht] at hp
    obtain ⟨he, halive | hbad⟩ := h.join t' c' m j hs hp
    · have hj : j ≠ t := by
        rintro rfl
        exact halive.not_dead hdead
      rw [ho.exited j hj, ho.state j hj]
      exact ⟨he, .inl halive⟩
    · cases hbad
  · by_cases ht : t' = t
    · rw [ht, hpt] at hp
      cases hp
    rw [ho.state t' ht] at hs
    rw [ho.point t' ht] at hp
    have hend := h.ended t' j hs hp
    have hj : j ≠ t := by
      rintro rfl
      rw [hdead] at hend
      cases hend
    rw [ho.state j hj]
    exact hend
  · have hjoin : ∀ t', joining (s'.tcb t').point = some j → joining (s.tcb t').point = some j := by
      intro t' hp
      by_cases ht : t' = t
      · rw [ht, hpt] at hp
        cases hp
      · rwa [ho.point t' ht] at hp
    exact h.one t1 t2 j (hjoin t1 h1) (hjoin t2 h2)
  · by_cases ht : t' = t
    · rw [ht, hex] at he
      cases he
      exact ⟨_, hself, rfl⟩
    · rw [ho.exited t' ht] at he
      obtain ⟨x, hx, hu⟩ := h.exited t' c' he
      exact ⟨x, hcond c' x hx, hu⟩
  · -- the condition of the new thread is nobody else's
    have hfresh : ∀ t', t' ≠ t → (s'.tcb t').exited = some c' → c' ≠ c := by
      intro t' ht he
      rw [ho.exited t' ht] at he
      obtain ⟨x, hx, -⟩ := h.exited t' c' he
      rintro rfl
      rw [hnew] at hx
      cases hx
    by_cases ht1 : t1 = t
    · by_cases ht2 : t2 = t
      · rw [ht1, ht2]
      · rw [ht1, hex] at h1
        cases h1
        exact absurd rfl (hfresh t2 ht2 h2)
    by_cases ht2 : t2 = t
    · rw [ht2, hex] at h2
      cases h2
      exact absurd rfl (hfresh t1 ht1 h1)
    · rw [ho.exited t1 ht1] at h1
      rw [ho.exited t2 ht2] at h2
      exact h.exitedOne t1 t2 c' h1 h2
  · rw [ho.exited _ hmain.symm]
    exact h.main
  by_cases ht : t' = t
  · rw [ht, hst] at hs
    cases hs
  · rw [ho.state t' ht] at hs
    rw [ho.exited t' ht]
    exact h.reset t' hs

/-- The control block of a new thread, before the thread can run. -/
def prepared (s : State) (t : Tid) (detached : Bool) (c : CondId) : State :=
  (s.setCond c (some ⟨none, false⟩)).setTcb t { s.tcb t with
    next := none, state := .dead, detached := detached, exited := some c, point := .user }

theorem threadInit_eq (s : State) (t : Tid) (detached : Bool) (c : CondId) :
    threadInit s t detached (some c) = some (unsuspend (prepared s t detached c) t) := by
  have htwice : ((s.setTcb t { s.tcb t with
      next := none, state := .dead, detached := detached }).setCond c (some ⟨none, false⟩)).setTcb
        t { s.tcb t with
            next := none, state := .dead, detached := detached, exited := some c, point := .user } =
      prepared s t detached c := by
    simp only [State.setTcb, State.setCond, prepared, update_idem]
  have hself : ((s.setTcb t { s.tcb t with
      next := none, state := .dead, detached := detached }).setCond c
        (some ⟨none, false⟩)).tcb t = { s.tcb t with
          next := none, state := .dead, detached := detached } := setTcb_self _
  simp only [threadInit, condInit, hself, htwice]

theorem prepared_self (s : State) (t : Tid) (detached : Bool) (c : CondId) :
    (prepared s t detached c).tcb t = { s.tcb t with
      next := none, state := .dead, detached := detached, exited := some c, point := .user } :=
  setTcb_self _

theorem prepared_others (s : State) (t : Tid) (detached : Bool) (c : CondId) :
    SameOthers s (prepared s t detached c) t := by
  have hcond : SameOthers s (s.setCond c (some ⟨none, false⟩)) t :=
    ⟨fun _ _ => rfl, fun _ _ => rfl, fun _ _ => rfl, fun _ _ => rfl⟩
  exact hcond.trans (setTcb_others _)

theorem Going.start (h : Going s L) {detached : Bool} {a : Option CondId}
    (ha : ∀ c, a = some c → s.cond c = none) (hs : start s detached a = some (r, s')) :
    Goes s L s' := by
  unfold Mthread.start at hs
  cases hl : L .free with
  | nil =>
    rw [h.inv.rep.remove_nil hl] at hs
    cases hs
    exact h.goes
  | cons t l =>
    obtain ⟨hsome, hrep⟩ := h.inv.rep.remove hl
    have hsame : SameFields s (queueRemove s .free).2 := queueRemove_same
    have hrem : queueRemove s .free = (some t, (queueRemove s .free).2) := Prod.ext hsome rfl
    rw [hrem] at hs
    dsimp only at hs
    have hmem : t ∈ L .free := by
      rw [hl]
      exact mem_cons_self
    obtain ⟨hpool, hdead⟩ := (h.inv.placed.free t).mp hmem
    have hmain : t ≠ mainThread := by
      rintro rfl
      exact h.inv.placed.main.1 hdead
    have hcur : s.current ≠ t := by
      rintro rfl
      exact h.alive.not_dead hdead
    have hpop : ∀ q t', t' ∈ pop L .free q ↔ t' ∈ L q ∧ t' ≠ t := fun q t' => mem_pop h.inv.rep hl
    have hout : ∀ q, t ∉ pop L .free q := fun q hbad => ((hpop q t).mp hbad).2 rfl
    have hlink : ((queueRemove s .free).2.tcb t).next = none := hrep.link t hout
    generalize (queueRemove s .free).2 = s₁ at *
    cases a with
    | none => simp [threadInit] at hs
    | some c =>
      rw [threadInit_eq] at hs
      cases hs
      have hself := prepared_self s₁ t detached c
      have ho : SameOthers s (prepared s₁ t detached c) t :=
        hsame.oneMoved.others.trans (prepared_others s₁ t detached c)
      have hrep2 : Rep (prepared s₁ t detached c) (pop L .free) := by
        refine hrep.congr rfl fun t' => ?_
        by_cases ht : t' = t
        · rw [ht, hself, hlink]
        · exact congrArg Tcb.next (setTcb_ne _ ht)
      have hmutex2 : (prepared s₁ t detached c).mutex = s.mutex := hsame.mutex
      have hcond2 : (prepared s₁ t detached c).cond = update s.cond c (some ⟨none, false⟩) := by
        rw [← hsame.cond]
        rfl
      have hrest2 : (prepared s₁ t detached c).current = s.current ∧
          (prepared s₁ t detached c).runningMain = s.runningMain ∧
          (prepared s₁ t detached c).noThreads = s.noThreads ∧
          (prepared s₁ t detached c).usedThreads = s.usedThreads ∧
          (prepared s₁ t detached c).needReset = s.needReset :=
        ⟨hsame.current, hsame.runningMain, hsame.noThreads, hsame.usedThreads, hsame.needReset⟩
      generalize prepared s₁ t detached c = s2 at *
      obtain ⟨hcur2, hrun2, hno2, hused2, hneed2⟩ := hrest2
      have hrep3 := hrep2.unsuspend hout
      have hfields := unsuspend_fields (s := s2) (t := t)
      have hst : ((unsuspend s2 t).tcb t).state = .runnable := unsuspend_state
      have hpt : ((unsuspend s2 t).tcb t).point = .user := by
        rw [unsuspend_point, hself]
      have hex : ((unsuspend s2 t).tcb t).exited = some c := by
        rw [unsuspend_moved.exited, hself]
      have ho3 : SameOthers s (unsuspend s2 t) t := ho.trans unsuspend_moved.others
      have hmutex3 : (unsuspend s2 t).mutex = s.mutex := unsuspend_mutex.trans hmutex2
      have hcond3 := hfields.cond.trans hcond2
      have hno3 : (unsuspend s2 t).noThreads = s.noThreads := hfields.noThreads.trans hno2
      have hused3 : (unsuspend s2 t).usedThreads = s.usedThreads := hfields.usedThreads.trans hused2
      have hneed3 : (unsuspend s2 t).needReset = s.needReset := hfields.needReset.trans hneed2
      have hcur3 : (unsuspend s2 t).current = s.current := hfields.current.trans hcur2
      have hrun3 : (unsuspend s2 t).runningMain = s.runningMain := hfields.runningMain.trans hrun2
      generalize unsuspend s2 t = s3 at *
      have hplaced : Placed s3 (push (pop L .free) .run t) (some s.current) := by
        refine h.inv.placed.move hno3 ho3 (fun q t' ht => ?_) (fun _ _ => Iff.rfl) ?_ ?_
          (fun m => ?_) (fun hle _ => ?_) fun hbad => absurd hbad hmain
        · rw [mem_push, hpop]
          simp [ht]
        · rw [mem_push, hst]
          simp [hcur]
        · rw [mem_push, hst]
          simp [hout]
        · rw [mem_push, hst]
          simp [hout]
        · exact absurd hpool hle.not_gt
      have hlocks : Locks s3 (push (pop L .free) .run t) := by
        refine h.inv.locks.move ho3 (fun m k _ hbad => ?_) (fun _ _ _ _ _ hm => ?_) fun m hm => ?_
        · rw [hpt] at hbad
          cases hbad
        · rw [hmutex3]
          exact hm
        · rw [hmutex3] at hm
          rw [push_mutex (by simp), pop_mutex (by simp)]
          exact h.inv.locks.unowned m hm
      have hwaits : Waits s3 none := h.inv.waits.start ho3 hdead (ha c rfl) hst hpt hex hcond3 hmain
      have hcounts : Counts { s3 with usedThreads := s3.usedThreads + 1 } := by
        constructor
        · have hgain := card_filter_gain
            (P := fun t' : Tid => t'.val < s.noThreads ∧ (s.tcb t').state ≠ .dead)
            (Q := fun t' : Tid => t'.val < s3.noThreads ∧ (s3.tcb t').state ≠ .dead) (a := t)
            (by simp [hdead]) ⟨by rw [hno3]; exact hpool, by rw [hst]; simp⟩
            fun t' ht => by rw [hno3, ho3.state t' ht]
          have hcount : s3.usedThreads + 1 = ((Finset.univ.filter fun t' : Tid =>
              t'.val < s3.noThreads ∧ (s3.tcb t').state ≠ .dead).card : Int) := by
            rw [hgain, hused3, h.inv.counts.used]
            push_cast
            ring
          exact hcount
        have hsame' : (Finset.univ.filter fun t' : Tid => (s3.tcb t').state = .needReset) =
            Finset.univ.filter fun t' : Tid => (s.tcb t').state = .needReset := by
          refine Finset.filter_congr fun t' _ => ?_
          by_cases ht : t' = t
          · rw [ht, hst, hdead]
            simp
          · rw [ho3.state t' ht]
        have hcount : s3.needReset = ((Finset.univ.filter fun t' : Tid =>
            (s3.tcb t').state = .needReset).card : Int) := by
          rw [hsame', hneed3, h.inv.counts.needReset]
        exact hcount
      refine ⟨push (pop L .free) .run t, h.stay ⟨⟨?_, ?_, ?_, hcounts⟩, ?_⟩ hcur3 hrun3
        (ho3.state _ hcur) (ho3.point _ hcur), ?_, hcur3⟩
      · exact hplaced.congr rfl (fun _ => rfl) fun _ _ _ _ => Iff.rfl
      · exact hlocks.congr rfl fun _ hs' _ _ hp => ⟨hs', hp⟩
      · exact hwaits.congr (fun _ x hx => ⟨x, hx, rfl⟩) (fun _ => rfl) (fun _ => rfl)
          (fun _ _ => rfl) fun _ => rfl
      · exact hrep3.congr rfl fun _ => rfl
      · refine .refl hmutex3 fun m => ?_
        rw [push_mutex (by simp), pop_mutex (by simp)]

/-! ## A larger pool -/

theorem queueAdd_next (h : Rep s L) (ht : ∀ q, t ∉ L q) : ((queueAdd s q t).tcb t).next = none := by
  have hlink := h.link t ht
  unfold queueAdd
  split
  next => exact hlink
  next => exact hlink
  rename_i i j hi hj
  have hne : t ≠ j := by
    rintro rfl
    have hlast := (h.queue q).last
    rw [hj] at hlast
    exact ht q (mem_of_getLast? hlast.symm)
  exact (congrArg Tcb.next (setTcb_ne _ hne)).trans hlink

/-- The threads of the list are dead and free; nothing else has changed but links. -/
structure Freed (s : State) (l : List Tid) (s' : State) : Prop where
  others : ∀ t, t ∉ l → s'.tcb t = { s.tcb t with next := (s'.tcb t).next }
  state : ∀ t, t ∈ l → (s'.tcb t).state = .dead
  point : ∀ t, t ∈ l → (s'.tcb t).point = .gone
  exited : ∀ t, (s'.tcb t).exited = (s.tcb t).exited
  mutex : s'.mutex = s.mutex
  cond : s'.cond = s.cond
  current : s'.current = s.current
  runningMain : s'.runningMain = s.runningMain
  noThreads : s'.noThreads = s.noThreads
  usedThreads : s'.usedThreads = s.usedThreads
  needReset : s'.needReset = s.needReset

theorem freed_all (l : List Tid) (h : Rep s L) (hl : l.Nodup) (hout : ∀ t, t ∈ l → ∀ q, t ∉ L q) :
    ∃ L', Rep (l.foldl (fun s t => threadReset (queueAdd s .free t) t) s) L' ∧
      (∀ q t, t ∈ L' q ↔ t ∈ L q ∨ q = .free ∧ t ∈ l) ∧
      (∀ m, L' (.mutex m) = L (.mutex m)) ∧
      Freed s l (l.foldl (fun s t => threadReset (queueAdd s .free t) t) s) := by
  induction l generalizing s L with
  | nil =>
    refine ⟨L, h, by simp, fun _ => rfl, ⟨fun t _ => rfl, ?_, ?_, fun _ => rfl, rfl, rfl, rfl, rfl,
      rfl, rfl, rfl⟩⟩
    · exact fun t ht => absurd ht not_mem_nil
    · exact fun t ht => absurd ht not_mem_nil
  | cons t l ih =>
    obtain ⟨htl, hl⟩ := nodup_cons.mp hl
    have hout_t := hout t mem_cons_self
    have hsame : SameFields s (queueAdd s .free t) := queueAdd_same
    have hnext : ((queueAdd s .free t).tcb t).next = none := queueAdd_next h hout_t
    have hrep : Rep (threadReset (queueAdd s .free t) t) (push L .free t) :=
      (h.add hout_t).setTcb hnext.symm
    have hself : (threadReset (queueAdd s .free t) t).tcb t = { (queueAdd s .free t).tcb t with
        next := none, state := .dead, result := 0, cond := none, point := .gone } := setTcb_self _
    have hother : ∀ t', t' ≠ t → (threadReset (queueAdd s .free t) t).tcb t' =
        (queueAdd s .free t).tcb t' := fun t' ht => setTcb_ne _ ht
    have hrest : (threadReset (queueAdd s .free t) t).mutex = s.mutex ∧
        (threadReset (queueAdd s .free t) t).cond = s.cond ∧
        (threadReset (queueAdd s .free t) t).current = s.current ∧
        (threadReset (queueAdd s .free t) t).runningMain = s.runningMain ∧
        (threadReset (queueAdd s .free t) t).noThreads = s.noThreads ∧
        (threadReset (queueAdd s .free t) t).usedThreads = s.usedThreads ∧
        (threadReset (queueAdd s .free t) t).needReset = s.needReset :=
      ⟨hsame.mutex, hsame.cond, hsame.current, hsame.runningMain, hsame.noThreads,
        hsame.usedThreads, hsame.needReset⟩
    rw [foldl_cons]
    generalize threadReset (queueAdd s .free t) t = s₁ at *
    obtain ⟨L', hrep', hmem, hmutex, hfreed⟩ := ih hrep hl fun t' ht' q hbad => by
      obtain hbad | ⟨-, rfl⟩ := mem_push.mp hbad
      · exact hout t' (mem_cons_of_mem _ ht') q hbad
      · exact htl ht'
    obtain ⟨h1, h2, h3, h4, h5, h6, h7⟩ := hrest
    refine ⟨L', hrep', fun q t' => ?_, fun m => ?_, ⟨fun t' ht' => ?_, fun t' ht' => ?_,
      fun t' ht' => ?_, fun t' => ?_, hfreed.mutex.trans h1, hfreed.cond.trans h2,
      hfreed.current.trans h3, hfreed.runningMain.trans h4, hfreed.noThreads.trans h5,
      hfreed.usedThreads.trans h6, hfreed.needReset.trans h7⟩⟩
    · rw [hmem, mem_push, mem_cons, and_or_left, or_assoc]
    · rw [hmutex, push_mutex (by simp)]
    · obtain ⟨hne, hnl⟩ := not_or.mp (fun hbad => ht' (mem_cons.mpr hbad))
      rw [hfreed.others t' hnl, hother t' hne, hsame.tcb t']
    · by_cases htl' : t' ∈ l
      · exact hfreed.state t' htl'
      · obtain rfl := (mem_cons.mp ht').resolve_right htl'
        rw [hfreed.others t' htl', hself]
    · by_cases htl' : t' ∈ l
      · exact hfreed.point t' htl'
      · obtain rfl := (mem_cons.mp ht').resolve_right htl'
        rw [hfreed.others t' htl', hself]
    rw [hfreed.exited]
    by_cases ht : t' = t
    · rw [ht, hself]
      exact hsame.exited t
    · rw [hother t' ht]
      exact hsame.exited t'

/-- The pool with `new` control blocks, the new ones cleared. -/
def enlarged (s : State) (new : Nat) : State :=
  { s with
    tcb := fun t => if s.noThreads ≤ t.val ∧ t.val < new then zeroTcb else s.tcb t
    noThreads := new }

theorem mem_newThreads {old new : Nat} : t ∈ newThreads old new ↔ old ≤ t.val ∧ t.val < new := by
  unfold newThreads
  rw [mem_filter, decide_eq_true_eq]
  exact and_iff_right (mem_finRange t)

theorem Going.enlarge (h : Going s L) {new : Nat} (hnew : s.noThreads ≤ new)
    (hmax : new < maxThreadPool) :
    Goes s L ((newThreads s.noThreads new).foldl
      (fun s t => threadReset (queueAdd s .free t) t) (enlarged s new)) := by
  have hmain : ∀ t, t ∈ newThreads s.noThreads new → t ≠ mainThread := by
    rintro t ht rfl
    have hlt := (mem_newThreads.mp ht).2
    exact absurd (hlt.trans hmax) (lt_irrefl _)
  have hdead : ∀ t, t ∈ newThreads s.noThreads new → (s.tcb t).state = .dead :=
    fun t ht => h.inv.placed.fresh t (mem_newThreads.mp ht).1 (hmain t ht)
  have hout : ∀ t, t ∈ newThreads s.noThreads new → ∀ q, t ∉ L q := by
    intro t ht q hbad
    have hd := hdead t ht
    cases q with
    | run =>
      rw [((h.inv.placed.run t).mp hbad).1] at hd
      cases hd
    | free => exact absurd ((h.inv.placed.free t).mp hbad).1 (mem_newThreads.mp ht).1.not_gt
    | mutex m =>
      rw [((h.inv.placed.mutex t m).mp hbad).1] at hd
      cases hd
  have hin : ∀ t, t ∈ newThreads s.noThreads new → (enlarged s new).tcb t = zeroTcb :=
    fun t ht => if_pos (mem_newThreads.mp ht)
  have hold : ∀ t, t ∉ newThreads s.noThreads new → (enlarged s new).tcb t = s.tcb t :=
    fun t ht => if_neg fun hbad => ht (mem_newThreads.mpr hbad)
  have hrep0 : Rep (enlarged s new) L := by
    refine h.inv.rep.congr rfl fun t => ?_
    by_cases ht : t ∈ newThreads s.noThreads new
    · rw [hin t ht, h.inv.rep.link t (hout t ht)]
      rfl
    · rw [hold t ht]
  have hnodup : (newThreads s.noThreads new).Nodup := (nodup_finRange 1025).filter _
  obtain ⟨L', hrep, hmem, hmutexL, hfreed⟩ := freed_all _ hrep0 hnodup hout
  have hno : (enlarged s new).noThreads = new := rfl
  have hrest : (enlarged s new).mutex = s.mutex ∧ (enlarged s new).cond = s.cond ∧
      (enlarged s new).current = s.current ∧ (enlarged s new).runningMain = s.runningMain ∧
      (enlarged s new).usedThreads = s.usedThreads ∧
      (enlarged s new).needReset = s.needReset := ⟨rfl, rfl, rfl, rfl, rfl, rfl⟩
  generalize (newThreads s.noThreads new).foldl
    (fun s t => threadReset (queueAdd s .free t) t) (enlarged s new) = s' at *
  generalize enlarged s new = s0 at *
  obtain ⟨h1, h2, h3, h4, h5, h6⟩ := hrest
  have hst : ∀ t, (s'.tcb t).state = (s.tcb t).state := by
    intro t
    by_cases ht : t ∈ newThreads s.noThreads new
    · rw [hfreed.state t ht, hdead t ht]
    · rw [hfreed.others t ht, hold t ht]
  have hkeep : ∀ t, (s.tcb t).state ≠ .dead → t ∉ newThreads s.noThreads new :=
    fun t hne ht => hne (hdead t ht)
  have hpt : ∀ t, (s.tcb t).state ≠ .dead → (s'.tcb t).point = (s.tcb t).point := by
    intro t hne
    rw [hfreed.others t (hkeep t hne), hold t (hkeep t hne)]
  have hcd : ∀ t, (s.tcb t).state ≠ .dead → (s'.tcb t).cond = (s.tcb t).cond := by
    intro t hne
    rw [hfreed.others t (hkeep t hne), hold t (hkeep t hne)]
  have hjoin : ∀ t j, joining (s'.tcb t).point = some j → joining (s.tcb t).point = some j := by
    intro t j hp
    by_cases ht : t ∈ newThreads s.noThreads new
    · rw [hfreed.point t ht] at hp
      cases hp
    · rwa [hfreed.others t ht, hold t ht] at hp
  have hex : ∀ t c, (s'.tcb t).exited = some c → (s.tcb t).exited = some c := by
    intro t c he
    rw [hfreed.exited] at he
    by_cases ht : t ∈ newThreads s.noThreads new
    · rw [hin t ht] at he
      cases he
    · rwa [hold t ht] at he
  have hex' : ∀ t, (s.tcb t).state ≠ .dead → (s'.tcb t).exited = (s.tcb t).exited := by
    intro t hne
    rw [hfreed.exited, hold t (hkeep t hne)]
  have hno' : s'.noThreads = new := hfreed.noThreads.trans hno
  have hmutex : s'.mutex = s.mutex := hfreed.mutex.trans h1
  have hcond : s'.cond = s.cond := hfreed.cond.trans h2
  have hnever : ∀ q t, q ≠ .free → (t ∈ L' q ↔ t ∈ L q) := by
    intro q t hq
    rw [hmem]
    simp [hq]
  have hcore : Core s' L' (some s.current) none := by
    refine ⟨⟨fun t => ?_, fun t => ?_, fun t m => ?_, fun t hle hne => ?_, ?_, ?_⟩,
      ⟨fun t m k hs hp => ?_, fun m hm => ?_⟩, ⟨fun t hs => ?_, fun t c m hs hp => ?_,
        fun t c m j hs hp => ?_, fun t j hs hp => ?_, fun t t' j hp hp' => ?_, fun t c he => ?_,
        fun t t' c he he' => ?_, ?_, fun t hs => ?_⟩, ⟨?_, ?_⟩⟩
    · rw [hnever _ _ (by simp), hst]
      exact h.inv.placed.run t
    · rw [hmem, hno', hst, h.inv.placed.free t, mem_newThreads]
      constructor
      · rintro (⟨hlt, hd⟩ | ⟨-, hle, hlt⟩)
        · exact ⟨hlt.trans_le hnew, hd⟩
        · exact ⟨hlt, hdead t (mem_newThreads.mpr ⟨hle, hlt⟩)⟩
      · rintro ⟨hlt, hd⟩
        by_cases hle : s.noThreads ≤ t.val
        · exact .inr ⟨rfl, hle, hlt⟩
        · exact .inl ⟨Nat.lt_of_not_le hle, hd⟩
    · rw [hnever _ _ (by simp), hst, h.inv.placed.mutex t m]
      refine and_congr_right fun hs => ?_
      rw [hpt t (by simp [hs])]
    · rw [hno'] at hle
      rw [hst]
      exact h.inv.placed.fresh t (hnew.trans hle) hne
    · rw [hst]
      exact h.inv.placed.main
    · rw [hno']
      exact hmax.le
    · rw [hst] at hs
      rw [hpt t (by simp [hs])] at hp
      rw [hmutex]
      exact h.inv.locks.owner t m k hs hp
    · rw [hmutex] at hm
      rw [hmutexL]
      exact h.inv.locks.unowned m hm
    · rw [hst] at hs
      rw [hpt t (by simp [hs]), hcd t (by simp [hs])]
      exact h.inv.waits.cond t hs
    · rw [hst] at hs
      rw [hpt t (by simp [hs])] at hp
      rw [hcond]
      exact h.inv.waits.user t c m hs hp
    · rw [hst] at hs
      rw [hpt t (by simp [hs])] at hp
      obtain ⟨he, halive | hbad⟩ := h.inv.waits.join t c m j hs hp
      · rw [hex' j halive.not_dead, hst]
        exact ⟨he, .inl halive⟩
      · cases hbad
    · rw [hst] at hs ⊢
      exact h.inv.waits.ended t j hs (hjoin t j hp)
    · exact h.inv.waits.one t t' j (hjoin t j hp) (hjoin t' j hp')
    · rw [hcond]
      exact h.inv.waits.exited t c (hex t c he)
    · exact h.inv.waits.exitedOne t t' c (hex t c he) (hex t' c he')
    · rw [hex' _ h.inv.placed.main.1]
      exact h.inv.waits.main
    · rw [hst] at hs
      rw [hex' t (by simp [hs])]
      exact h.inv.waits.reset t hs
    · have hsame : (Finset.univ.filter fun t : Tid =>
          t.val < s'.noThreads ∧ (s'.tcb t).state ≠ .dead) =
          Finset.univ.filter fun t : Tid => t.val < s.noThreads ∧ (s.tcb t).state ≠ .dead := by
        refine Finset.filter_congr fun t _ => ?_
        rw [hno', hst]
        refine and_congr_left fun hne => ⟨fun hlt => ?_, fun hlt => hlt.trans_le hnew⟩
        by_contra hle
        exact hne (hdead t (mem_newThreads.mpr ⟨Nat.le_of_not_lt hle, hlt⟩))
      rw [hsame, hfreed.usedThreads, h5, h.inv.counts.used]
    · have hsame : (Finset.univ.filter fun t : Tid => (s'.tcb t).state = .needReset) =
          Finset.univ.filter fun t : Tid => (s.tcb t).state = .needReset :=
        Finset.filter_congr fun t _ => by rw [hst]
      rw [hsame, hfreed.needReset, h6, h.inv.counts.needReset]
  exact ⟨L', h.stay ⟨hcore, hrep⟩ (hfreed.current.trans h3) (hfreed.runningMain.trans h4)
    (hst _) (hpt _ h.alive.not_dead), .refl hmutex hmutexL, hfreed.current.trans h3⟩

theorem freed_cond (l : List Tid) (s : State) :
    (l.foldl (fun s t => threadReset (queueAdd s .free t) t) s).cond = s.cond := by
  induction l generalizing s with
  | nil => rfl
  | cons t l ih =>
    rw [foldl_cons, ih]
    exact (queueAdd_same (s := s) (q := .free) (t := t)).cond

theorem Going.create (h : Going s L) {detached : Bool} {a : Option CondId} {p : PoolAlloc}
    (ha : ∀ c, a = some c → s.cond c = none) (hs : create s detached a p = some (r, s')) :
    Goes s L s' := by
  unfold Mthread.create at hs
  split_ifs at hs with hfree
  · obtain ⟨⟨ok, s₁⟩, hinc, hrest⟩ := Option.bind_eq_some_iff.mp hs
    dsimp only at hrest
    unfold increaseThreadPool at hinc
    dsimp only at hinc
    generalize hn : (if s.noThreads = 0 then noThreadsFirst else 2 * s.noThreads) = new at hinc
    have hnew : s.noThreads ≤ new := by
      rw [← hn]
      split_ifs with hzero
      · rw [hzero]
        exact Nat.zero_le _
      · omega
    by_cases hmax : new ≥ maxThreadPool
    · rw [if_pos hmax] at hinc
      cases hinc
      rw [if_neg (by simp)] at hrest
      cases hrest
      exact h.goes
    rw [if_neg hmax] at hinc
    cases p with
    | noTable =>
      cases hinc
      rw [if_neg (by simp)] at hrest
      cases hrest
      exact h.goes
    | noTcb =>
      dsimp only at hinc
      split_ifs at hinc
      cases hinc
      rw [if_neg (by simp)] at hrest
      cases hrest
      exact h.goes
    | ok =>
      cases hinc
      rw [if_pos rfl] at hrest
      have hgrow := h.enlarge hnew (Nat.lt_of_not_le hmax)
      refine hgrow.trans fun L₁ h1 => h1.start (fun c hc => ?_) hrest
      exact (congrFun (freed_cond _ (enlarged s new)) c).trans (ha c hc)
  · exact h.start ha hs

end HardenedMinix.Mthread
