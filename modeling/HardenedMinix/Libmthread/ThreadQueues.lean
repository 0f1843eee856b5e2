import HardenedMinix.Libmthread.Threads

/-!
# The queues of the thread library

All queues share the one link of a control block. `Rep` says which list of threads each queue
holds, and that no thread is on two of them.
-/

open Function List

namespace HardenedMinix.Mthread

open Lib

variable {s s' s₁ : State} {L : QName → List Tid} {q q' : QName} {t t' : Tid} {l : List Tid}

/-! ## The representation -/

/-- The queue `q` holds the threads `L q`; no thread is on two, and one on none has a clear link. -/
structure Rep (s : State) (L : QName → List Tid) : Prop where
  queue : ∀ q, TailQueue s.tcb (s.queue q).head (s.queue q).tail (L q)
  one : ∀ q q' t, t ∈ L q → t ∈ L q' → q = q'
  link : ∀ t, (∀ q, t ∉ L q) → (s.tcb t).next = none

structure SameFields (s s' : State) : Prop where
  tcb : ∀ t, s'.tcb t = { s.tcb t with next := (s'.tcb t).next }
  mutex : s'.mutex = s.mutex
  cond : s'.cond = s.cond
  current : s'.current = s.current
  runningMain : s'.runningMain = s.runningMain
  noThreads : s'.noThreads = s.noThreads
  usedThreads : s'.usedThreads = s.usedThreads
  needReset : s'.needReset = s.needReset

theorem SameFields.refl (s : State) : SameFields s s :=
  ⟨fun _ => rfl, rfl, rfl, rfl, rfl, rfl, rfl, rfl⟩

theorem SameFields.trans (h : SameFields s s₁) (h' : SameFields s₁ s') : SameFields s s' := by
  refine ⟨fun t => ?_, h'.mutex.trans h.mutex, h'.cond.trans h.cond, h'.current.trans h.current,
    h'.runningMain.trans h.runningMain, h'.noThreads.trans h.noThreads,
    h'.usedThreads.trans h.usedThreads, h'.needReset.trans h.needReset⟩
  rw [h'.tcb t, h.tcb t]

theorem Rep.congr (h : Rep s L) (hq : s'.queue = s.queue)
    (hn : ∀ t, (s'.tcb t).next = (s.tcb t).next) : Rep s' L := by
  refine ⟨fun q => ?_, h.one, fun t ht => ?_⟩
  · rw [hq]
    exact ⟨(h.queue q).chain.congr fun i _ => hn i, (h.queue q).last⟩
  · rw [hn]
    exact h.link t ht

theorem Rep.setTcb {x : Tcb} (h : Rep s L) (hx : x.next = (s.tcb t).next) :
    Rep (s.setTcb t x) L := by
  refine h.congr rfl fun t' => ?_
  by_cases ht : t' = t
  · rw [ht, State.setTcb]
    dsimp only
    rw [update_self, hx]
  · rw [State.setTcb]
    dsimp only
    rw [update_of_ne ht]

theorem Rep.head_none (h : Rep s L) : (s.queue q).head = none ↔ L q = [] := by
  constructor
  · intro hnone
    have hc := (h.queue q).chain
    rw [hnone] at hc
    exact hc.nil_inv
  · intro hnil
    have hc := (h.queue q).chain
    rw [hnil] at hc
    exact hc.eq_none_of_nil

theorem setTcb_link (o : Option Tid) : SameFields s (s.setTcb t { s.tcb t with next := o }) := by
  refine ⟨fun t' => ?_, rfl, rfl, rfl, rfl, rfl, rfl, rfl⟩
  by_cases ht : t' = t
  · subst ht
    have hself : (s.setTcb t' { s.tcb t' with next := o }).tcb t' = { s.tcb t' with next := o } :=
      update_self _ _ _
    rw [hself]
  · have hother : (s.setTcb t { s.tcb t with next := o }).tcb t' = s.tcb t' := update_of_ne ht _ _
    rw [hother]

theorem setQueue_same (x : Queue) : SameFields s (s.setQueue q x) :=
  ⟨fun _ => rfl, rfl, rfl, rfl, rfl, rfl, rfl, rfl⟩

theorem queueAdd_same : SameFields s (queueAdd s q t) := by
  unfold queueAdd
  split
  next => exact setQueue_same _
  next => exact setQueue_same _
  next => exact (setTcb_link _).trans (setQueue_same _)

theorem queueRemove_same : SameFields s (queueRemove s q).2 := by
  unfold queueRemove
  split
  next => exact .refl s
  next => exact (setQueue_same _).trans (setTcb_link _)

/-! ## Adding and removing -/

def push (L : QName → List Tid) (q : QName) (t : Tid) : QName → List Tid :=
  update L q (L q ++ [t])

theorem mem_push : t' ∈ push L q t q' ↔ t' ∈ L q' ∨ q' = q ∧ t' = t := by
  unfold push
  by_cases hq : q' = q
  · subst hq
    simp
  · rw [update_of_ne hq]
    simp [hq]

theorem Rep.add (h : Rep s L) (ht : ∀ q, t ∉ L q) : Rep (queueAdd s q t) (push L q t) := by
  have hlink := h.link t ht
  obtain ⟨tcb', head', tail', hpush, hq, hsame, hothers⟩ := pushLast_spec (h.queue q) (ht q)
  -- the link of the thread is clear, so `pushLast` clears nothing
  have hadd : (queueAdd s q t).tcb = tcb' ∧ (queueAdd s q t).queue =
      update s.queue q ⟨head', tail'⟩ := by
    have hclear : ∀ tcb : Table Tcb 1025, (tcb t).next = none →
        update tcb t (Linked.setNext (tcb t) none) = tcb := by
      intro tcb hnone
      have hset : Linked.setNext (tcb t) none = tcb t := by
        show ({ tcb t with next := none } : Tcb) = tcb t
        rw [← hnone]
      rw [hset, update_eq_self]
    unfold queueAdd
    unfold pushLast at hpush
    split at hpush
    next hnone =>
      cases hpush
      rw [hnone, hclear _ hlink]
      exact ⟨rfl, rfl⟩
    next => cases hpush
    rename_i i j hi hj
    cases hpush
    rw [hi, hj]
    have hjt : t ≠ j := by
      rintro rfl
      have hlast := (h.queue q).last
      rw [hj] at hlast
      exact ht q (mem_of_getLast? hlast.symm)
    refine ⟨(hclear (update s.tcb j (Linked.setNext (s.tcb j) (some t))) ?_).symm, rfl⟩
    rw [update_of_ne hjt]
    exact hlink
  refine ⟨fun q' => ?_, fun q1 q2 t' h1 h2 => ?_, fun t' ht' => ?_⟩
  · rw [hadd.1, hadd.2]
    by_cases hqq : q' = q
    · subst hqq
      unfold push
      rw [update_self, update_self]
      exact hq
    unfold push
    rw [update_of_ne hqq, update_of_ne hqq]
    refine ⟨(h.queue q').chain.congr fun i hi => ?_, (h.queue q').last⟩
    have hiq : i ∉ L q := fun hbad => hqq (h.one q' q i hi hbad)
    have hit : i ≠ t := fun heq => ht q' (heq ▸ hi)
    rw [hothers i hiq hit]
  · rw [mem_push] at h1 h2
    obtain h1 | ⟨rfl, rfl⟩ := h1
    · obtain h2 | ⟨rfl, rfl⟩ := h2
      · exact h.one q1 q2 t' h1 h2
      · exact absurd h1 (ht q1)
    · obtain h2 | ⟨rfl, -⟩ := h2
      · exact absurd h2 (ht q2)
      · rfl
  rw [hadd.1]
  have hnot : ∀ q', t' ∉ L q' := fun q' hbad => ht' q' (mem_push.mpr (.inl hbad))
  have hne : t' ≠ t := by
    rintro rfl
    exact ht' q (mem_push.mpr (.inr ⟨rfl, rfl⟩))
  rw [hothers t' (hnot q) hne]
  exact h.link t' hnot

def pop (L : QName → List Tid) (q : QName) : QName → List Tid :=
  update L q (L q).tail

theorem Rep.remove (h : Rep s L) (hl : L q = t :: l) :
    (queueRemove s q).1 = some t ∧ Rep (queueRemove s q).2 (pop L q) := by
  have hqueue := h.queue q
  rw [hl] at hqueue
  obtain ⟨hhead, hrest⟩ := hqueue.chain.start_of_cons
  have hnodup := hqueue.chain.nodup
  obtain ⟨htl, hnd⟩ := nodup_cons.mp hnodup
  have hcond : (s.queue q).head = (s.queue q).tail ↔ l = [] := by
    rw [hhead, hqueue.last]
    constructor
    · intro heq
      by_contra hne
      obtain ⟨i, l', rfl⟩ := exists_cons_of_ne_nil hne
      rw [List.getLast?_cons_cons] at heq
      exact htl (mem_of_getLast? heq.symm)
    · rintro rfl
      rfl
  -- what is left of the queue, and its two pointers
  have hq : TailQueue s.tcb (if (s.queue q).head = (s.queue q).tail then none else (s.tcb t).next)
      (if (s.queue q).head = (s.queue q).tail then none else (s.queue q).tail) l := by
    split_ifs with heq
    · rw [hcond.mp heq]
      exact ⟨.nil, rfl⟩
    · refine ⟨hrest, ?_⟩
      obtain ⟨i, l', rfl⟩ := exists_cons_of_ne_nil fun hnil => heq (hcond.mpr hnil)
      rw [hqueue.last, List.getLast?_cons_cons]
  have hrun : queueRemove s q = (some t, (s.setQueue q
      (if (s.queue q).head = (s.queue q).tail then ⟨none, none⟩
        else ⟨(s.tcb t).next, (s.queue q).tail⟩)).setTcb t { s.tcb t with next := none }) := by
    unfold queueRemove
    split
    next hnone =>
      rw [hhead] at hnone
      cases hnone
    rename_i i hi
    rw [hhead] at hi
    cases hi
    rfl
  rw [hrun]
  refine ⟨rfl, fun q' => ?_, fun q1 q2 t' h1 h2 => ?_, fun t' ht' => ?_⟩
  · have hqueue' : ((s.setQueue q (if (s.queue q).head = (s.queue q).tail then ⟨none, none⟩
        else ⟨(s.tcb t).next, (s.queue q).tail⟩)).setTcb t { s.tcb t with next := none }).queue q' =
        if q' = q then ⟨if (s.queue q).head = (s.queue q).tail then none else (s.tcb t).next,
          if (s.queue q).head = (s.queue q).tail then none else (s.queue q).tail⟩
        else s.queue q' := by
      by_cases hqq : q' = q
      · subst hqq
        rw [if_pos rfl]
        refine (update_self _ _ _).trans ?_
        split_ifs
        · rfl
        · rfl
      · rw [if_neg hqq]
        exact update_of_ne hqq _ _
    rw [hqueue']
    unfold pop
    by_cases hqq : q' = q
    · subst hqq
      rw [if_pos rfl, update_self, hl]
      exact ⟨hq.chain.of_update htl, hq.last⟩
    · rw [if_neg hqq, update_of_ne hqq]
      have htq : t ∉ L q' := fun hbad =>
        hqq (h.one q' q t hbad (by rw [hl]; exact mem_cons_self))
      exact ⟨(h.queue q').chain.of_update htq, (h.queue q').last⟩
  · have hsub : ∀ q', t' ∈ pop L q q' → t' ∈ L q' := by
      intro q' hmem
      unfold pop at hmem
      by_cases hqq : q' = q
      · subst hqq
        rw [update_self] at hmem
        exact mem_of_mem_tail hmem
      · rwa [update_of_ne hqq] at hmem
    exact h.one q1 q2 t' (hsub q1 h1) (hsub q2 h2)
  by_cases htt : t' = t
  · subst htt
    have hself : ((s.setQueue q (if (s.queue q).head = (s.queue q).tail then ⟨none, none⟩
        else ⟨(s.tcb t').next, (s.queue q).tail⟩)).setTcb t'
          { s.tcb t' with next := none }).tcb t' = { s.tcb t' with next := none } :=
      update_self _ _ _
    rw [hself]
  have hother : ((s.setQueue q (if (s.queue q).head = (s.queue q).tail then ⟨none, none⟩
    else ⟨(s.tcb t).next, (s.queue q).tail⟩)).setTcb t { s.tcb t with next := none }).tcb t' =
      s.tcb t' := update_of_ne htt _ _
  rw [hother]
  refine h.link t' fun q' hmem => ht' q' ?_
  unfold pop
  by_cases hqq : q' = q
  · subst hqq
    rw [update_self, hl]
    rw [hl] at hmem
    exact (mem_cons.mp hmem).resolve_left htt
  · rwa [update_of_ne hqq]

theorem Rep.remove_nil (h : Rep s L) (hl : L q = []) : queueRemove s q = (none, s) := by
  unfold queueRemove
  split
  next => rfl
  next t hhead =>
    rw [h.head_none.mpr hl] at hhead
    cases hhead

theorem mem_pop (h : Rep s L) (hl : L q = t :: l) : t' ∈ pop L q q' ↔ t' ∈ L q' ∧ t' ≠ t := by
  have hnodup := (h.queue q).chain.nodup
  rw [hl] at hnodup
  obtain ⟨htl, -⟩ := nodup_cons.mp hnodup
  unfold pop
  by_cases hqq : q' = q
  · subst hqq
    rw [update_self, hl, tail_cons, mem_cons]
    constructor
    · intro hmem
      exact ⟨.inr hmem, fun heq => htl (heq ▸ hmem)⟩
    · rintro ⟨rfl | hmem, hne⟩
      · exact absurd rfl hne
      · exact hmem
  rw [update_of_ne hqq]
  constructor
  · intro hmem
    refine ⟨hmem, ?_⟩
    rintro rfl
    exact hqq (h.one q' q t' hmem (by rw [hl]; exact mem_cons_self))
  · exact fun hmem => hmem.1

end HardenedMinix.Mthread
