import HardenedMinix.Lib.Loop
import HardenedMinix.Kernel.ReadyQueues

/-!
# The queues list the runnable processes

Between the assignment to the flags and the call that follows, the queues are out of step by
one process. So the lemmas are about any set of processes that the queues list; the invariant
is that this set is the runnable ones.
-/

open Function List Option

namespace HardenedMinix.Sched

open Lib

variable {s s' : State} {rp p : ProcNr} {f : Flags}

/-! ## Queues of a set of processes -/

def IsQueue (q : Int) : Prop := 0 ≤ q ∧ q < nrSchedQueues

/-- The queues list the processes in `R`, each on the queue of its priority. -/
def Queued (s : State) (R : ProcNr → Prop) : Prop :=
  ∀ q, IsQueue q → ∃ l, TailQueue s.procs (s.runQHead q) (s.runQTail q) l ∧
    ∀ p, p ∈ l ↔ R p ∧ (s.procs p).priority = q

/-- A table of processes in which only flags and links differ. -/
def SameButFlags (t t' : Table Proc nrSlots) : Prop :=
  ∀ p, (t' p).priority = (t p).priority ∧ (t' p).cpuTimeLeft = (t p).cpuTimeLeft ∧
    (t' p).preemptible = (t p).preemptible ∧ (t' p).toHard = (t p).toHard

/-- A state in which only flags, links and the pointers of the queues differ. -/
def Requeued (s s' : State) : Prop :=
  ∃ t head tail, s' = { s with procs := t, runQHead := head, runQTail := tail } ∧
    SameButFlags s.procs t

theorem Requeued.refl (s : State) : Requeued s s := ⟨_, _, _, rfl, fun _ => ⟨rfl, rfl, rfl, rfl⟩⟩

theorem Requeued.trans {s'' : State} (h : Requeued s s') (h' : Requeued s' s'') :
    Requeued s s'' := by
  obtain ⟨t, head, tail, rfl, hsame⟩ := h
  obtain ⟨t', head', tail', rfl, hsame'⟩ := h'
  refine ⟨t', head', tail', rfl, fun p => ?_⟩
  obtain ⟨h1, h2, h3, h4⟩ := hsame p
  obtain ⟨h1', h2', h3', h4'⟩ := hsame' p
  exact ⟨h1'.trans h1, h2'.trans h2, h3'.trans h3, h4'.trans h4⟩

theorem Requeued.priority (h : Requeued s s') (p : ProcNr) :
    (s'.procs p).priority = (s.procs p).priority := by
  obtain ⟨t, head, tail, rfl, hsame⟩ := h
  exact (hsame p).1

theorem Requeued.fields (h : Requeued s s') :
    s'.procPtr = s.procPtr ∧ s'.inUser = s.inUser ∧ s'.hEnable = s.hEnable ∧
      s'.hProcNr = s.hProcNr ∧ s'.hStep = s.hStep ∧ s'.hStepBack = s.hStepBack ∧
      s'.hRestore = s.hRestore ∧ s'.copyRtsFlags = s.copyRtsFlags := by
  obtain ⟨t, head, tail, rfl, -⟩ := h
  exact ⟨rfl, rfl, rfl, rfl, rfl, rfl, rfl, rfl⟩

theorem setFlags_procs (s : State) (rp : ProcNr) (f : Flags) (p : ProcNr) :
    (s.setFlags rp f).procs p =
      if p = rp then { s.procs rp with rtsFlags := f } else s.procs p := by
  unfold State.setFlags State.setProc
  exact update_apply _ _ _ _

theorem setFlags_requeued (s : State) (rp : ProcNr) (f : Flags) : Requeued s (s.setFlags rp f) := by
  refine ⟨_, _, _, rfl, fun p => ?_⟩
  by_cases hp : p = rp
  · subst hp
    simp only [update_self, and_self]
  · simp only [update_of_ne hp, and_self]

theorem setFlags_runnable (s : State) (rp : ProcNr) (f : Flags) (p : ProcNr) :
    (s.setFlags rp f).Runnable p ↔ if p = rp then f = 0 else s.Runnable p := by
  unfold State.Runnable Proc.Runnable
  rw [setFlags_procs]
  split <;> rfl

variable {R : ProcNr → Prop} {w : Table Proc nrSlots × Option ProcNr × Option ProcNr}

theorem Queued.setProc {x : Proc} (h : Queued s R) (hnext : x.nextready = (s.procs rp).nextready)
    (hprio : R rp → x.priority = (s.procs rp).priority) : Queued (s.setProc rp x) R := by
  intro q hq
  obtain ⟨l, hl, hmem⟩ := h q hq
  refine ⟨l, ⟨hl.chain.congr fun p _ => ?_, hl.last⟩, fun p => ?_⟩
  · by_cases hp : p = rp
    · subst hp
      simp only [State.setProc, update_self]
      exact hnext
    · simp only [State.setProc, update_of_ne hp]
  by_cases hp : p = rp
  · subst hp
    simp only [State.setProc, update_self]
    rw [hmem]
    exact and_congr_right fun hR => by rw [hprio hR]
  · simp only [State.setProc, update_of_ne hp]
    exact hmem p

theorem Queued.setFlags (h : Queued s R) (rp : ProcNr) (f : Flags) : Queued (s.setFlags rp f) R :=
  h.setProc rfl fun _ => rfl

theorem Queued.congr {R R' : ProcNr → Prop} (h : Queued s R) (hR : ∀ p, R p ↔ R' p) :
    Queued s R' := by
  intro q hq
  obtain ⟨l, hl, hmem⟩ := h q hq
  exact ⟨l, hl, fun p => (hmem p).trans (and_congr_left' (hR p))⟩

/-! ## One queue changes -/

theorem setQueue_requeued (hsame : SameButLinks s.procs w.1) (q : Int) :
    Requeued s (s.setQueue q w) ∧ ∀ p, ((s.setQueue q w).procs p).rtsFlags =
      (s.procs p).rtsFlags := by
  refine ⟨⟨_, _, _, rfl, fun p => ?_⟩, fun p => ?_⟩
  · obtain ⟨o, ho⟩ := hsame p
    rw [ho]
    exact ⟨rfl, rfl, rfl, rfl⟩
  · obtain ⟨o, ho⟩ := hsame p
    change (w.1 p).rtsFlags = _
    rw [ho]
    rfl

theorem Queued.setQueue {R R' : ProcNr → Prop} {l l' : List ProcNr} {q : Int}
    (h : Queued s R) (hmem : ∀ p, p ∈ l ↔ R p ∧ (s.procs p).priority = q)
    (hsame : SameButLinks s.procs w.1) (hq' : TailQueue w.1 w.2.1 w.2.2 l')
    (hmem' : ∀ p, p ∈ l' ↔ R' p ∧ (s.procs p).priority = q)
    (hframe : ∀ p, p ∉ l → p ∉ l' → w.1 p = s.procs p)
    (hR : ∀ p, (s.procs p).priority ≠ q → (R' p ↔ R p)) :
    Queued (s.setQueue q w) R' := by
  intro q' hq
  have hprio := (setQueue_requeued hsame q).1.priority
  by_cases heq : q' = q
  case pos =>
    subst heq
    refine ⟨l', ?_, fun p => ?_⟩
    · simpa only [State.setQueue, update_self] using hq'
    · rw [hprio]
      exact hmem' p
  case neg =>
    obtain ⟨m, hm, hmemm⟩ := h q' hq
    -- a record of another queue has another priority
    have hother : ∀ p, p ∈ m → (s.procs p).priority ≠ q := by
      intro p hp hpq
      exact heq (((hmemm p).mp hp).2.symm.trans hpq)
    refine ⟨m, ⟨?_, ?_⟩, fun p => ?_⟩
    · simp only [State.setQueue, update_of_ne heq]
      apply hm.chain.congr
      intro p hp
      have hne := hother p hp
      rw [hframe p (fun hpl => hne ((hmem p).mp hpl).2) (fun hpl => hne ((hmem' p).mp hpl).2)]
    · simp only [State.setQueue, update_of_ne heq]
      exact hm.last
    rw [hprio, hmemm]
    constructor
    · rintro ⟨hp, rfl⟩
      exact ⟨(hR p heq).mpr hp, rfl⟩
    · rintro ⟨hp, rfl⟩
      exact ⟨(hR p heq).mp hp, rfl⟩

theorem dequeue_spec (h : Queued s R) (hrp : ¬ s.Runnable rp) (hq : IsQueue (s.procs rp).priority) :
    ∃ s', dequeue s rp = some s' ∧ Requeued s s' ∧
      (∀ p, (s'.procs p).rtsFlags = (s.procs p).rtsFlags) ∧
      Queued s' (fun p => R p ∧ p ≠ rp) := by
  obtain ⟨l, hl, hmem⟩ := h _ hq
  obtain ⟨t, head, tail, hrun, hl', hsame, hframe⟩ := removeFrom_spec hl rp
  obtain ⟨hre, hflags⟩ := setQueue_requeued (w := (t, head, tail)) hsame (s.procs rp).priority
  refine ⟨_, ?_, hre, hflags, h.setQueue hmem hsame hl' ?_ ?_ ?_⟩
  · unfold dequeue
    rw [if_neg hrp]
    dsimp only
    rw [hrun]
    rfl
  · intro p
    rw [hl.chain.nodup.mem_erase_iff, hmem]
    tauto
  · intro p hp _
    exact hframe p hp
  · intro p hp
    refine and_iff_left ?_
    rintro rfl
    exact hp rfl

theorem Queued.insert (h : Queued s R) (hrp : ¬ R rp) (hq : IsQueue (s.procs rp).priority)
    (hw : ∀ l, TailQueue s.procs (s.runQHead (s.procs rp).priority)
        (s.runQTail (s.procs rp).priority) l → rp ∉ l →
      ∃ l', TailQueue w.1 w.2.1 w.2.2 l' ∧ (∀ p, p ∈ l' ↔ p ∈ l ∨ p = rp) ∧
        SameButLinks s.procs w.1 ∧ ∀ p, p ∉ l → p ≠ rp → w.1 p = s.procs p) :
    Requeued s (s.setQueue (s.procs rp).priority w) ∧
      (∀ p, ((s.setQueue (s.procs rp).priority w).procs p).rtsFlags = (s.procs p).rtsFlags) ∧
      Queued (s.setQueue (s.procs rp).priority w) (fun p => R p ∨ p = rp) := by
  obtain ⟨l, hl, hmem⟩ := h _ hq
  have hno : rp ∉ l := fun hp => hrp ((hmem rp).mp hp).1
  obtain ⟨l', hl', hmem', hsame, hframe⟩ := hw l hl hno
  obtain ⟨hre, hflags⟩ := setQueue_requeued hsame (s.procs rp).priority
  refine ⟨hre, hflags, h.setQueue hmem hsame hl' ?_ ?_ ?_⟩
  · intro p
    rw [hmem', hmem]
    constructor
    · rintro (⟨hp, hprio⟩ | rfl)
      · exact ⟨.inl hp, hprio⟩
      · exact ⟨.inr rfl, rfl⟩
    · rintro ⟨hp | rfl, hprio⟩
      · exact .inl ⟨hp, hprio⟩
      · exact .inr rfl
  · intro p hp hp'
    have hne : p ≠ rp := fun heq => hp' ((hmem' p).mpr (.inr heq))
    exact hframe p hp hne
  · intro p hp
    refine or_iff_left ?_
    rintro rfl
    exact hp rfl

/-! ## The macros -/

/-- The priority of every process is the index of a queue. -/
def InRange (s : State) : Prop := ∀ p, IsQueue (s.procs p).priority

theorem Requeued.inRange (h : Requeued s s') (hr : InRange s) : InRange s' := by
  intro p
  rw [h.priority]
  exact hr p

theorem runnable_congr (h : (s'.procs p).rtsFlags = (s.procs p).rtsFlags) :
    s'.Runnable p ↔ s.Runnable p := by
  unfold State.Runnable Proc.Runnable
  rw [h]

theorem rtsSet_spec (h : Queued s s.Runnable) (hr : InRange s) (rp : ProcNr) (f : Flags) :
    ∃ s', rtsSet s rp f = some s' ∧ Requeued s s' ∧ Queued s' s'.Runnable ∧
      ∀ p, (s'.procs p).rtsFlags =
        ((s.setFlags rp ((s.procs rp).rtsFlags ||| f)).procs p).rtsFlags := by
  have hre := setFlags_requeued s rp ((s.procs rp).rtsFlags ||| f)
  have hset := h.setFlags rp ((s.procs rp).rtsFlags ||| f)
  have hrun := setFlags_runnable s rp ((s.procs rp).rtsFlags ||| f)
  unfold rtsSet
  dsimp only
  generalize s.setFlags rp ((s.procs rp).rtsFlags ||| f) = s1 at hre hset hrun ⊢
  by_cases hleave : s.Runnable rp ∧ ¬ s1.Runnable rp
  case pos =>
    obtain ⟨s', hdeq, hre', hflags, hq⟩ := dequeue_spec hset hleave.2 (hre.inRange hr rp)
    refine ⟨s', ?_, hre.trans hre', hq.congr fun p => ?_, hflags⟩
    · rw [if_pos hleave]
      exact hdeq
    rw [runnable_congr (hflags p)]
    by_cases hp : p = rp
    · subst hp
      simp only [ne_eq, not_true_eq_false, and_false, hleave.2]
    · rw [hrun p, if_neg hp]
      exact and_iff_left hp
  case neg =>
    refine ⟨s1, if_neg hleave, hre, hset.congr fun p => ?_, fun _ => rfl⟩
    by_cases hp : p = rp
    · -- runnable before and after, or neither
      subst hp
      rw [hrun p, if_pos rfl] at hleave ⊢
      constructor
      · intro hrunnable
        exact not_not.mp fun hne => hleave ⟨hrunnable, hne⟩
      · intro hzero
        have hzero' : (s.procs p).rtsFlags ||| f = 0 := hzero
        exact (BitVec.or_eq_zero_iff.mp hzero').1
    · rw [hrun p, if_neg hp]

theorem preemptCurrent_spec (h : Queued s s.Runnable) (hr : InRange s) (rp : ProcNr) :
    ∃ s', preemptCurrent s rp = some s' ∧ Requeued s s' ∧ Queued s' s'.Runnable := by
  unfold preemptCurrent
  cases s.procPtr with
  | none => exact ⟨s, rfl, .refl s, h⟩
  | some p =>
    dsimp only
    split
    case isTrue =>
      obtain ⟨s', hrun, hre, hq, -⟩ := rtsSet_spec h hr p rtsPreempted
      exact ⟨s', hrun, hre, hq⟩
    case isFalse => exact ⟨s, rfl, .refl s, h⟩

/-- A process that has become runnable and is on no queue yet. -/
structure Pending (s : State) (rp : ProcNr) : Prop where
  queued : Queued s (fun p => s.Runnable p ∧ p ≠ rp)
  runnable : s.Runnable rp
  range : InRange s

theorem Pending.all (h : Pending s rp) (p : ProcNr) :
    (s.Runnable p ∧ p ≠ rp) ∨ p = rp ↔ s.Runnable p := by
  constructor
  · rintro (⟨hp, -⟩ | rfl)
    · exact hp
    · exact h.runnable
  · intro hp
    by_cases heq : p = rp
    · exact .inr heq
    · exact .inl ⟨hp, heq⟩

theorem enqueue_spec (h : Pending s rp) :
    ∃ s', enqueue s rp = some s' ∧ Requeued s s' ∧ Queued s' s'.Runnable := by
  have hq := h.range rp
  obtain ⟨l, hl, hmem⟩ := h.queued _ hq
  have hno : rp ∉ l := fun hp => ((hmem rp).mp hp).1.2 rfl
  obtain ⟨t, head, tail, hpush, -⟩ := pushLast_spec hl hno
  obtain ⟨hre, hflags, hins⟩ := h.queued.insert (fun hp => hp.2 rfl) hq (w := (t, head, tail))
    (fun m hm hrm => by
      obtain ⟨t', head', tail', hpush', hm', hsame, hframe⟩ := pushLast_spec hm hrm
      rw [hpush] at hpush'
      cases hpush'
      refine ⟨m ++ [rp], hm', fun p => ?_, hsame, hframe⟩
      rw [mem_append, mem_singleton])
  have hall : Queued _ _ := hins.congr fun p =>
    (h.all p).trans (runnable_congr (hflags p)).symm
  obtain ⟨s', hpre, hre', hq'⟩ := preemptCurrent_spec hall (hre.inRange h.range) rp
  refine ⟨s', ?_, hre.trans hre', hq'⟩
  unfold enqueue
  rw [if_neg (not_not.mpr ⟨h.runnable, hq.1⟩), hpush]
  exact hpre

theorem enqueueHead_spec (h : Pending s rp) (hleft : (s.procs rp).cpuTimeLeft ≠ 0) :
    ∃ s', enqueueHead s rp = some s' ∧ Requeued s s' ∧ Queued s' s'.Runnable := by
  have hq := h.range rp
  obtain ⟨hre, hflags, hins⟩ := h.queued.insert (fun hp => hp.2 rfl) hq
    (w := pushFirst s.procs (s.runQHead (s.procs rp).priority)
      (s.runQTail (s.procs rp).priority) rp)
    (fun m hm hrm => by
      obtain ⟨hm', hsame, hframe⟩ := pushFirst_spec hm hrm
      refine ⟨rp :: m, hm', fun p => ?_, hsame, fun p _ => hframe p⟩
      rw [mem_cons]
      exact or_comm)
  refine ⟨_, if_neg (not_not.mpr ⟨h.runnable, hleft, hq.1⟩), hre, hins.congr fun p => ?_⟩
  exact (h.all p).trans (runnable_congr (hflags p)).symm

theorem Pending.of_setFlags (h : Queued s s.Runnable) (hr : InRange s)
    (hrp : ¬ s.Runnable rp) (hzero : (s.setFlags rp f).Runnable rp) :
    Pending (s.setFlags rp f) rp := by
  refine ⟨(h.setFlags rp f).congr fun p => ?_, hzero, (setFlags_requeued s rp f).inRange hr⟩
  rw [setFlags_runnable]
  by_cases hp : p = rp
  · subst hp
    simp only [hrp, ne_eq, not_true_eq_false, and_false]
  · rw [if_neg hp]
    exact (and_iff_left hp).symm

theorem Queued.setFlags_blocked (h : Queued s s.Runnable) (hrp : ¬ s.Runnable rp)
    (hne : ¬ (s.setFlags rp f).Runnable rp) :
    Queued (s.setFlags rp f) (s.setFlags rp f).Runnable := by
  apply (h.setFlags rp f).congr
  intro p
  by_cases hp : p = rp
  · subst hp
    exact iff_of_false hrp hne
  · rw [setFlags_runnable, if_neg hp]

theorem rtsUnset_spec (h : Queued s s.Runnable) (hr : InRange s) (rp : ProcNr) (f : Flags) :
    ∃ s', rtsUnset s rp f = some s' ∧ Requeued s s' ∧ Queued s' s'.Runnable := by
  have hre := setFlags_requeued s rp ((s.procs rp).rtsFlags &&& ~~~f)
  unfold rtsUnset
  dsimp only
  by_cases hrp : s.Runnable rp
  case pos =>
    -- no flag was set
    have hzero : (s.procs rp).rtsFlags = 0 := hrp
    refine ⟨_, if_neg fun hn => hn.1 hrp, hre, (h.setFlags _ _).congr fun p => ?_⟩
    rw [setFlags_runnable, hzero]
    split
    case isTrue hp =>
      subst hp
      exact iff_of_true hrp (BitVec.zero_and)
    case isFalse => rfl
  case neg =>
    by_cases hnow : (s.setFlags rp ((s.procs rp).rtsFlags &&& ~~~f)).Runnable rp
    case pos =>
      rw [if_pos ⟨hrp, hnow⟩]
      obtain ⟨s', hrun, hre', hq⟩ := enqueue_spec (Pending.of_setFlags h hr hrp hnow)
      exact ⟨s', hrun, hre.trans hre', hq⟩
    case neg =>
      exact ⟨_, if_neg fun hn => hnow hn.2, hre, h.setFlags_blocked hrp hnow⟩

/-! ## The invariant -/

/-- The queues list the runnable processes; the flags saved at the start of an element are zero;
outside the kernel the current process is runnable. -/
structure Inv (s : State) : Prop where
  queued : Queued s s.Runnable
  range : InRange s
  copy : s.hEnable = true → s.copyRtsFlags = 0
  noRestore : s.hRestore = .none
  user : s.inUser = true → s.CurrentRunnable

theorem Initial.inv (h : Initial s) : Inv s where
  queued := by
    intro q _
    obtain ⟨hhead, htail⟩ := h.empty q
    refine ⟨[], ⟨?_, htail⟩, fun p => ?_⟩
    · rw [hhead]
      exact .nil
    · simp only [not_mem_nil, h.notRunnable p, false_and]
  range := h.priority
  copy := by simp [h.disabled]
  noRestore := h.noRestore
  user := by simp [h.kernel]

theorem Inv.of_requeued (h : Inv s) (hkernel : s.inUser = false) (hre : Requeued s s')
    (hq : Queued s' s'.Runnable) : Inv s' := by
  obtain ⟨-, huser, henable, -, -, -, hrestore, hcopy⟩ := hre.fields
  refine ⟨hq, hre.inRange h.range, ?_, hrestore.trans h.noRestore, ?_⟩
  · rw [henable, hcopy]
    exact h.copy
  · rw [huser, hkernel]
    exact nofun

theorem clear_inv (h : Inv s) (hkernel : s.inUser = false)
    (hrun : rtsSetflags s rp rtsSlotFree = some s') : Inv s' := by
  have hne : rtsSlotFree ≠ 0 := by decide
  unfold rtsSetflags at hrun
  by_cases hrp : s.Runnable rp
  case pos =>
    -- `dequeue` finds the process still runnable
    rw [if_pos ⟨hrp, hne⟩, dequeue, if_pos hrp] at hrun
    cases hrun
  case neg =>
    rw [if_neg fun hn => hrp hn.1] at hrun
    obtain rfl := some.inj hrun
    apply h.of_requeued hkernel (setFlags_requeued s rp rtsSlotFree)
    apply h.queued.setFlags_blocked hrp
    rw [setFlags_runnable, if_pos rfl]
    exact hne

theorem Inv.on_queue (h : Inv s) (hp : s.Runnable p) :
    ∃ l, Chain s.procs (s.runQHead (s.procs p).priority) l ∧ p ∈ l := by
  obtain ⟨l, hl, hmem⟩ := h.queued _ (h.range p)
  exact ⟨l, hl.chain, (hmem p).mpr ⟨hp, rfl⟩⟩

theorem dequeue_inv (h : Inv s) (hkernel : s.inUser = false)
    (hrun : dequeue s rp = some s') : Inv s' := by
  by_cases hrp : s.Runnable rp
  case pos =>
    rw [dequeue, if_pos hrp] at hrun
    cases hrun
  case neg =>
    obtain ⟨s1, hrun1, hre, hflags, hq⟩ := dequeue_spec h.queued hrp (h.range rp)
    rw [hrun] at hrun1
    obtain rfl := some.inj hrun1
    apply h.of_requeued hkernel hre
    apply hq.congr
    intro p
    rw [runnable_congr (hflags p)]
    refine and_iff_left_of_imp ?_
    rintro hp rfl
    exact hrp hp

theorem Inv.setProc {x : Proc} (h : Inv s) (hkernel : s.inUser = false)
    (hflags : x.rtsFlags = (s.procs p).rtsFlags) (hnext : x.nextready = (s.procs p).nextready)
    (hprio : s.Runnable p → x.priority = (s.procs p).priority) (hq : IsQueue x.priority) :
    Inv (s.setProc p x) := by
  refine ⟨(h.queued.setProc hnext hprio).congr fun q => ?_, ?_, h.copy, h.noRestore, ?_⟩
  · refine (runnable_congr ?_).symm
    by_cases hp : q = p
    · subst hp
      simp only [State.setProc, update_self, hflags]
    · simp only [State.setProc, update_of_ne hp]
  · intro q
    by_cases hp : q = p
    · subst hp
      simpa only [State.setProc, update_self] using hq
    · simpa only [State.setProc, update_of_ne hp] using h.range q
  · intro huser
    have hk : s.inUser = true := huser
    rw [hkernel] at hk
    cases hk

theorem schedOff_spec (h : Inv s) (hkernel : s.inUser = false) (p : ProcNr) :
    ∃ s₁, (if s.Runnable p then rtsSet s p rtsNoQuantum else some s) = some s₁ ∧
      Inv s₁ ∧ s₁.inUser = false ∧ ¬ s₁.Runnable p := by
  by_cases hp : s.Runnable p
  case pos =>
    obtain ⟨s₁, hrun, hre, hq, hflags⟩ := rtsSet_spec h.queued h.range p rtsNoQuantum
    refine ⟨s₁, (if_pos hp).trans hrun, h.of_requeued hkernel hre hq,
      hre.fields.2.1.trans hkernel, ?_⟩
    rw [runnable_congr (hflags p), setFlags_runnable, if_pos rfl]
    intro hzero
    exact absurd (BitVec.or_eq_zero_iff.mp hzero).2 (by decide)
  case neg => exact ⟨s, if_neg hp, h, hkernel, hp⟩

theorem schedProc_inv {priority quantum : Int} (h : Inv s) (hkernel : s.inUser = false)
    (hgood : priority ≠ nrSchedQueues)
    (hrun : schedProc s p priority quantum = some s') : Inv s' := by
  unfold schedProc at hrun
  split at hrun
  case isTrue =>
    obtain rfl := some.inj hrun
    exact h
  rename_i hprio
  split at hrun
  case isTrue =>
    obtain rfl := some.inj hrun
    exact h
  obtain ⟨s1, hoff, h1, hkernel1, hp⟩ := schedOff_spec h hkernel p
  rw [hoff] at hrun
  dsimp only at hrun
  -- the new priority is -1, which leaves the old one, or that of a queue
  have hq : IsQueue (if priority ≠ -1 then priority else (s1.procs p).priority) := by
    split
    case isTrue hne =>
      unfold taskQ at hprio
      exact ⟨by omega, by omega⟩
    case isFalse => exact h1.range p
  have h2 := h1.setProc (p := p) (x := { s1.procs p with
    priority := if priority ≠ -1 then priority else (s1.procs p).priority })
    hkernel1 rfl rfl (fun hr => absurd hr hp) hq
  generalize hs2 : s1.setProc p { s1.procs p with
    priority := if priority ≠ -1 then priority else (s1.procs p).priority } = s2 at hrun h2
  have hkernel2 : s2.inUser = false := by
    rw [← hs2]
    exact hkernel1
  -- the quantum is neither here nor there
  have h3 : ∀ s3, (if quantum ≠ -1 then s2.setProc p { s2.procs p with
      quantumSizeMs := quantum, cpuTimeLeft := ms2CpuTime s2 quantum } else s2) = s3 →
      Inv s3 ∧ s3.inUser = false := by
    rintro s3 rfl
    split
    case isTrue => exact ⟨h2.setProc hkernel2 rfl rfl (fun _ => rfl) (h2.range p), hkernel2⟩
    case isFalse => exact ⟨h2, hkernel2⟩
  obtain ⟨h3, hkernel3⟩ := h3 _ rfl
  obtain ⟨s4, hunset, hre, hq4⟩ := rtsUnset_spec h3.queued h3.range p rtsNoQuantum
  rw [hunset] at hrun
  obtain rfl := some.inj hrun
  exact h3.of_requeued hkernel3 hre hq4

/-! ## Processing elements -/

theorem startPe_cases (hrun : startPe s p = some s') : s' = s ∨ s.hEnable = false ∧
      s' = { saveCopy0 s p with hProcNr := p, hStep := .firstRun, hEnable := true } := by
  unfold startPe at hrun
  split at hrun
  case isTrue hstart =>
    split at hrun
    case isTrue => cases hrun
    case isFalse =>
      right
      exact ⟨hstart.1, (some.inj hrun).symm⟩
  case isFalse =>
    left
    exact (some.inj hrun).symm

theorem restorePe_cases (hrun : restorePe s p = some s') :
    s' = s ∧ ¬ (s.hEnable = true ∧ s.hRestore ≠ .none) ∨ s.hEnable = true ∧ s.hRestore ≠ .none ∧
        ∃ step, s' = { restoreCopy0 s p with hStep := step, hRestore := .none } := by
  unfold restorePe at hrun
  split at hrun
  case isTrue hrestore =>
    split at hrun
    case isTrue => cases hrun
    dsimp only at hrun
    generalize (if s.hRestore = .forSecondRun then RunStep.secondRun else .firstRun) = step
      at hrun
    split at hrun
    case isTrue =>
      right
      exact ⟨hrestore.1, hrestore.2, step, (some.inj hrun).symm⟩
    case isFalse => cases hrun
  case isFalse hno =>
    left
    exact ⟨(some.inj hrun).symm, hno⟩

theorem startDwc_cases (hrun : startDwc s p = some s') :
    ∃ s₁ s₂, startPe s p = some s₁ ∧ restorePe s₁ p = some s₂ ∧
      s' = { s₂ with inUser := true } := by
  unfold startDwc at hrun
  split at hrun
  case h_1 => cases hrun
  case h_2 s₁ h1 =>
    split at hrun
    case h_1 => cases hrun
    case h_2 s₂ h2 =>
      split at hrun
      case isTrue => exact ⟨s₁, s₂, h1, h2, (some.inj hrun).symm⟩
      case isFalse => cases hrun

theorem restoreCopy0_queued (hq : Queued s (fun q => s.Runnable q ∨ q = p))
    (hcopy : s.copyRtsFlags = 0) :
    Queued (restoreCopy0 s p) (restoreCopy0 s p).Runnable ∧ (restoreCopy0 s p).Runnable p ∧
      ∀ q, ((restoreCopy0 s p).procs q).priority = (s.procs q).priority := by
  have hrun : ∀ q, (restoreCopy0 s p).Runnable q ↔ s.Runnable q ∨ q = p := by
    intro q
    unfold State.Runnable Proc.Runnable restoreCopy0 State.setProc
    by_cases hqp : q = p
    · subst hqp
      simp only [update_self, hcopy, or_true]
    · simp only [update_of_ne hqp, hqp, or_false]
  refine ⟨?_, (hrun p).mpr (.inr rfl), fun q => ?_⟩
  · have hset : Queued (restoreCopy0 s p) (fun q => s.Runnable q ∨ q = p) :=
      hq.setProc rfl fun _ => rfl
    exact hset.congr fun q => (hrun q).symm
  unfold restoreCopy0 State.setProc
  by_cases hqp : q = p
  · subst hqp
    simp only [update_self]
  · simp only [update_of_ne hqp]

theorem startDwc_inv (hq : Queued s (fun q => s.Runnable q ∨ q = p)) (hr : InRange s)
    (hcopy : s.hEnable = true → s.copyRtsFlags = 0) (hptr : s.procPtr = some p)
    (hp : s.Runnable p ∧ s.hRestore = .none ∨ s.hEnable = true ∧ s.hRestore ≠ .none)
    (hrun : startDwc s p = some s') : Inv s' := by
  obtain ⟨s1, s2, hstart, hrestore, rfl⟩ := startDwc_cases hrun
  rcases hp with ⟨hp, hnone⟩ | ⟨henable, hsome⟩
  case inl =>
    have hall : Queued s s.Runnable := by
      apply hq.congr
      intro q
      refine or_iff_left_of_imp ?_
      rintro rfl
      exact hp
    have hs2 : s2 = s1 := by
      obtain ⟨heq, -⟩ | ⟨-, hne, -⟩ := restorePe_cases hrestore
      · exact heq
      · obtain rfl | ⟨-, rfl⟩ := startPe_cases hstart
        · exact absurd hnone hne
        · exact absurd hnone hne
    subst hs2
    obtain rfl | ⟨-, rfl⟩ := startPe_cases hstart
    · exact ⟨hall, hr, hcopy, hnone, fun _ => ⟨p, hptr, hp⟩⟩
    · exact ⟨hall, hr, fun _ => hp, hnone, fun _ => ⟨p, hptr, hp⟩⟩
  case inr =>
    have hs1 : s1 = s := by
      obtain heq | ⟨hdis, -⟩ := startPe_cases hstart
      · exact heq
      · rw [henable] at hdis
        cases hdis
    subst hs1
    obtain ⟨-, hno⟩ | ⟨-, -, step, rfl⟩ := restorePe_cases hrestore
    · exact absurd ⟨henable, hsome⟩ hno
    · obtain ⟨hq', hp', hprio⟩ := restoreCopy0_queued hq (hcopy henable)
      refine ⟨hq', fun q => ?_, hcopy, rfl, fun _ => ⟨p, hptr, hp'⟩⟩
      exact (hprio q).symm ▸ hr q

theorem resume_inv (h : Inv s) (hrun : resume s = some s') : Inv s' := by
  unfold resume at hrun
  split at hrun
  case h_1 => cases hrun
  case h_2 p hptr =>
    split at hrun
    case isTrue hp =>
      refine startDwc_inv (h.queued.congr fun q => ?_) h.range h.copy hptr
        (.inl ⟨hp.1, h.noRestore⟩) hrun
      refine (or_iff_left_of_imp ?_).symm
      rintro rfl
      exact hp.1
    case isFalse => cases hrun

theorem runProc2_inv (hrun : runProc2 s p = some s')
    (hq : Queued s (fun q => s.Runnable q ∨ q = p)) (hr : InRange s)
    (henable : s.hEnable = true) (hcopy : s.copyRtsFlags = 0) (hsome : s.hRestore ≠ .none) :
    Inv s' := by
  have hq' : Queued { s with procPtr := some p } (fun q => s.Runnable q ∨ q = p) := hq
  exact startDwc_inv hq' hr (fun _ => hcopy) rfl (.inr ⟨henable, hsome⟩) hrun

theorem hardeningTask_inv {c : Compared} (h : Inv s) (huser : s.inUser = true)
    (hrun : hardeningTask { s with inUser := false } c = some s') : Inv s' := by
  obtain ⟨p, hptr, hp⟩ := h.user huser
  have hall : Queued s (fun q => s.Runnable q ∨ q = p) := by
    apply h.queued.congr
    intro q
    refine (or_iff_left_of_imp ?_).symm
    rintro rfl
    exact hp
  unfold hardeningTask at hrun
  dsimp only at hrun
  rw [hptr] at hrun
  dsimp only at hrun
  split at hrun
  case isTrue => cases hrun
  rename_i hpe
  obtain ⟨henable, -, -⟩ := not_not.mp hpe
  split at hrun
  case isTrue =>
    -- to the second run
    split at hrun
    case isTrue => cases hrun
    case isFalse => exact runProc2_inv hrun hall h.range henable (h.copy henable) (by simp)
  cases c with
  | elsewhere =>
    dsimp only at hrun
    split at hrun
    case isTrue =>
      obtain rfl := some.inj hrun
      exact ⟨h.queued, h.range, h.copy, h.noRestore, nofun⟩
    case isFalse => cases hrun
  | different =>
    -- the flag keeps the process on its queue until the flags are restored
    have hset := hall.setFlags p ((s.procs p).rtsFlags ||| rtsUnstableState)
    have hr := (setFlags_requeued s p ((s.procs p).rtsFlags ||| rtsUnstableState)).inRange
      h.range
    refine runProc2_inv hrun (hset.congr fun q => ?_) hr henable (h.copy henable) (by simp)
    have hsame : State.Runnable _ q ↔ _ :=
      setFlags_runnable s p ((s.procs p).rtsFlags ||| rtsUnstableState) q
    by_cases hq : q = p
    · exact iff_of_true (.inr hq) (.inr hq)
    · rw [if_neg hq] at hsame
      exact or_congr_left hsame.symm
  | same =>
    obtain rfl := some.inj hrun
    exact ⟨h.queued, h.range, nofun, rfl, nofun⟩

theorem pagefault_inv (h : Inv s) (hkernel : s.inUser = false)
    (hrun : pagefault s = some s') : Inv s' := by
  unfold pagefault at hrun
  split at hrun
  case h_1 => cases hrun
  case h_2 p _ =>
    split at hrun
    case isTrue =>
      have hv : Inv { s with hStepBack := s.hStep, hStep := .vmRun } :=
        ⟨h.queued, h.range, h.copy, h.noRestore, h.user⟩
      obtain ⟨s1, hset, hre, hq, -⟩ := rtsSet_spec hv.queued hv.range p rtsPagefault
      rw [hset] at hrun
      obtain rfl := some.inj hrun
      exact hv.of_requeued hkernel hre hq
    case isFalse => cases hrun

/-! ## The choice of the next process -/

theorem has_not_runnable (hhas : (s.procs p).Has f) : ¬ s.Runnable p := by
  intro hp
  have hzero : (s.procs p).rtsFlags = 0 := hp
  apply hhas
  rw [hzero]
  exact BitVec.zero_and

theorem resumePreempted_spec (h : Queued s s.Runnable) (hr : InRange s) (p : ProcNr) :
    ∃ s', resumePreempted s p = some s' ∧ Requeued s s' ∧ Queued s' s'.Runnable := by
  unfold resumePreempted
  by_cases hpre : (s.procs p).Has rtsPreempted
  case neg => exact ⟨s, if_neg hpre, .refl s, h⟩
  case pos =>
    have hp := has_not_runnable hpre
    have hre := setFlags_requeued s p ((s.procs p).rtsFlags &&& ~~~rtsPreempted)
    rw [if_pos hpre]
    dsimp only
    by_cases hnow : (s.setFlags p ((s.procs p).rtsFlags &&& ~~~rtsPreempted)).Runnable p
    case neg => exact ⟨_, if_neg hnow, hre, h.setFlags_blocked hp hnow⟩
    case pos =>
      have hpend := Pending.of_setFlags h hr hp hnow
      rw [if_pos hnow]
      split
      case isTrue hleft =>
        obtain ⟨s', hrun, hre', hq⟩ := enqueueHead_spec hpend hleft
        exact ⟨s', hrun, hre.trans hre', hq⟩
      case isFalse =>
        obtain ⟨s', hrun, hre', hq⟩ := enqueue_spec hpend
        exact ⟨s', hrun, hre.trans hre', hq⟩

theorem hpickProc_cases (h : Inv s) (hkernel : s.inUser = false) (hno : ¬ Aborts s)
    {r : Option ProcNr} (hrun : hpickProc s = some (s', r)) :
    (s.hEnable = false ∧ s' = s ∧ r = none) ∨
    (s.hEnable = true ∧ Inv s' ∧
      ∃ p, r = some p ∧ s'.Runnable p ∧ (p = s.hProcNr ∨ p = vmProcNr)) := by
  unfold hpickProc at hrun
  dsimp only at hrun
  split at hrun
  case isTrue hdis =>
    cases hrun
    exact .inl ⟨hdis, rfl, rfl⟩
  rename_i hdis
  have henable : s.hEnable = true := by simpa using hdis
  right
  refine ⟨henable, ?_⟩
  split at hrun
  case isTrue =>
    split at hrun
    case isTrue =>
      split at hrun
      case isTrue hvm =>
        cases hrun
        exact ⟨h, _, rfl, hvm, .inr rfl⟩
      case isFalse => cases hrun
    split at hrun
    case isTrue hp =>
      cases hrun
      exact ⟨⟨h.queued, h.range, h.copy, h.noRestore, h.user⟩, _, rfl, hp.1, .inl rfl⟩
    case isFalse => cases hrun
  rename_i hstep
  rw [if_neg fun hq => hno ⟨henable, hstep, hq⟩] at hrun
  split at hrun
  case isTrue =>
    obtain ⟨s1, hunset, hre, hq⟩ := rtsUnset_spec h.queued h.range s.hProcNr rtsInsCounter
    rw [hunset] at hrun
    dsimp only at hrun
    split at hrun
    case isTrue hp =>
      cases hrun
      exact ⟨h.of_requeued hkernel hre hq, _, rfl, hp, .inl rfl⟩
    case isFalse => cases hrun
  split at hrun
  case isTrue hp =>
    cases hrun
    exact ⟨h, _, rfl, hp, .inl rfl⟩
  case isFalse => cases hrun

theorem firstReady_spec (h : Inv s) : (∀ p, firstReady s = some p → s.Runnable p ∧
      ∀ p', s.Runnable p' → (s.procs p).priority ≤ (s.procs p').priority) ∧
    (firstReady s = none → ∀ p, ¬ s.Runnable p) := by
  unfold firstReady
  refine ⟨fun p hp => ?_, fun hnone p hp => ?_⟩
  · obtain ⟨pre, q, suf, hrange, hhead, hbefore⟩ := List.findSome?_eq_some_iff.mp hp
    -- the queues before are those of a smaller number
    rw [range_eq_range', range'_eq_append_iff] at hrange
    obtain ⟨k, hk, rfl, hsuf⟩ := hrange
    obtain ⟨rfl, hlt⟩ : q = k ∧ k < nrSchedQueues := by
      cases hn : nrSchedQueues - k with
      | zero => rw [hn] at hsuf; cases hsuf
      | succ m =>
        rw [hn, range'_succ] at hsuf
        refine ⟨?_, by omega⟩
        simpa using (List.cons.inj hsuf).1
    obtain ⟨l, hl, hmem⟩ := h.queued q ⟨by omega, by omega⟩
    rw [hhead] at hl
    obtain ⟨l', rfl, -⟩ := hl.chain.cons_inv
    obtain ⟨hrunnable, hprio⟩ := (hmem p).mp mem_cons_self
    refine ⟨hrunnable, fun p' hp' => ?_⟩
    rw [hprio]
    by_contra hlt
    -- a runnable process of a smaller number has a queue that is not empty
    obtain ⟨m, hm, hpm⟩ := h.on_queue hp'
    have hlow := (h.range p').1
    have hempty := hbefore (s.procs p').priority.toNat (by
      rw [mem_range'_1]
      omega)
    rw [Int.toNat_of_nonneg hlow] at hempty
    rw [hempty] at hm
    rw [hm.nil_inv] at hpm
    cases hpm
  · obtain ⟨l, hl, hmem⟩ := h.on_queue hp
    obtain ⟨hlow, hhigh⟩ := h.range p
    have hempty := List.findSome?_eq_none_iff.mp hnone (s.procs p).priority.toNat
      (mem_range.mpr (by omega))
    rw [Int.toNat_of_nonneg hlow] at hempty
    rw [hempty] at hl
    rw [hl.nil_inv] at hmem
    cases hmem

theorem pickProc_of_disabled (h : Inv s) (hdis : s.hEnable = false) :
    pickProc s = some (s, firstReady s) := by
  have hpick : hpickProc s = some (s, none) := if_pos hdis
  unfold pickProc
  rw [hpick]
  dsimp only
  split
  case h_1 hnone => rw [hnone]
  case h_2 p hsome =>
    rw [hsome, if_pos ((firstReady_spec h).1 p hsome).1]

theorem picksFirst_of_disabled (h : Inv s) (hdis : s.hEnable = false) : PicksFirst s := by
  obtain ⟨hfirst, hnone⟩ := firstReady_spec h
  exact ⟨s, firstReady s, pickProc_of_disabled h hdis, hfirst, hnone⟩

theorem pickProc_of_enabled (h : Inv s) (hkernel : s.inUser = false) (hno : ¬ Aborts s)
    (henable : s.hEnable = true) {r : Option ProcNr} (hrun : pickProc s = some (s', r)) :
    Inv s' ∧ ∃ p, r = some p ∧ s'.Runnable p ∧ (p = s.hProcNr ∨ p = vmProcNr) := by
  unfold pickProc at hrun
  split at hrun
  case h_1 => cases hrun
  case h_2 s1 p hpick =>
    cases hrun
    obtain ⟨hdis, -⟩ | ⟨-, hinv, hp⟩ := hpickProc_cases h hkernel hno hpick
    · rw [henable] at hdis
      cases hdis
    · exact ⟨hinv, hp⟩
  case h_3 s1 hpick =>
    obtain ⟨hdis, -⟩ | ⟨-, -, p, hp, -⟩ := hpickProc_cases h hkernel hno hpick
    · rw [henable] at hdis
      cases hdis
    · cases hp

theorem resumeCurrent_spec (h : Inv s) (hkernel : s.inUser = false) :
    ∃ s', resumeCurrent s = some s' ∧ Inv s' ∧ Requeued s s' := by
  unfold resumeCurrent
  split
  case h_1 => exact ⟨s, rfl, h, .refl s⟩
  case h_2 p _ =>
    obtain ⟨s', hrun, hre, hq⟩ := resumePreempted_spec h.queued h.range p
    exact ⟨s', hrun, h.of_requeued hkernel hre hq, hre⟩

theorem pickNew_inv (h : Inv s) (hkernel : s.inUser = false)
    (hgood : ∀ s', resumeCurrent s = some s' → ¬ Aborts s')
    (hrun : pickNew s = some s') : Inv s' := by
  unfold pickNew at hrun
  split at hrun
  case isTrue =>
    obtain rfl := some.inj hrun
    exact h
  obtain ⟨s1, hcurrent, h1, hre⟩ := resumeCurrent_spec h hkernel
  have hkernel1 : s1.inUser = false := hre.fields.2.1.trans hkernel
  rw [hcurrent] at hrun
  dsimp only at hrun
  cases henable : s1.hEnable with
  | false =>
    rw [pickProc_of_disabled h1 henable] at hrun
    obtain rfl := some.inj hrun
    refine ⟨h1.queued, h1.range, h1.copy, h1.noRestore, fun huser => ?_⟩
    have hk : s1.inUser = true := huser
    rw [hkernel1] at hk
    cases hk
  | true =>
    cases hpick : pickProc s1 with
    | none =>
      rw [hpick] at hrun
      cases hrun
    | some w =>
      obtain ⟨h2, p, hp, hrunnable, -⟩ :=
        pickProc_of_enabled h1 hkernel1 (hgood s1 hcurrent) henable hpick
      rw [hpick] at hrun
      obtain rfl := some.inj hrun
      exact ⟨h2.queued, h2.range, h2.copy, h2.noRestore, fun _ => ⟨p, hp, hrunnable⟩⟩

/-! ## Runs -/

theorem Op.run_inv {op : Op} (h : Inv s) (henabled : op.Enabled s) (hgood : Good s op)
    (hrun : op.run s = some s') : Inv s' := by
  cases op with
  | rtsSet p f =>
    obtain ⟨s1, hset, hre, hq, -⟩ := rtsSet_spec h.queued h.range p f
    obtain rfl := some.inj (hset.symm.trans hrun)
    exact h.of_requeued henabled hre hq
  | rtsUnset p f =>
    obtain ⟨s1, hunset, hre, hq⟩ := rtsUnset_spec h.queued h.range p f
    obtain rfl := some.inj (hunset.symm.trans hrun)
    exact h.of_requeued henabled hre hq
  | clear p => exact clear_inv h henabled hrun
  | enqueue p =>
    -- a process that is on no queue is not runnable
    by_cases hp : s.Runnable p
    · obtain ⟨l, hl, hmem⟩ := h.on_queue hp
      exact absurd hmem (hgood _ l (h.range p).1 (h.range p).2 hl)
    · have hnone : Sched.enqueue s p = none := if_pos fun hn => hp hn.1
      cases hnone.symm.trans hrun
  | enqueueHead p =>
    by_cases hp : s.Runnable p
    · obtain ⟨l, hl, hmem⟩ := h.on_queue hp
      exact absurd hmem (hgood _ l (h.range p).1 (h.range p).2 hl)
    · have hnone : Sched.enqueueHead s p = none := if_pos fun hn => hp hn.1
      cases hnone.symm.trans hrun
  | dequeue p => exact dequeue_inv h henabled hrun
  | schedProc p priority quantum => exact schedProc_inv h henabled hgood hrun
  | account p left =>
    obtain rfl := some.inj hrun
    exact h.setProc henabled rfl rfl (fun _ => rfl) (h.range p)
  | pickNew => exact pickNew_inv h henabled hgood hrun
  | resume => exact resume_inv h hrun
  | enter task =>
    cases task with
    | none =>
      obtain rfl := some.inj hrun
      exact ⟨h.queued, h.range, h.copy, h.noRestore, nofun⟩
    | some c => exact hardeningTask_inv h henabled hrun
  | pagefault => exact pagefault_inv h henabled hrun
  | stepped =>
    by_cases hstep : s.hStep = .firstStepping
    · obtain rfl := some.inj ((if_pos hstep).symm.trans hrun)
      exact ⟨h.queued, h.range, h.copy, h.noRestore, h.user⟩
    · cases (if_neg hstep).symm.trans hrun

theorem Reachable.inv (h : Reachable Good s) : Inv s := by
  induction h with
  | init h => exact h.inv
  | step op _ henabled hgood hrun ih => exact Op.run_inv ih henabled hgood hrun

theorem Inv.readyQueues (h : Inv s) : ReadyQueues s := by
  refine ⟨fun q hlow hhigh => ?_, fun p _ => h.range p⟩
  obtain ⟨l, hl, hmem⟩ := h.queued q ⟨hlow, hhigh⟩
  exact ⟨l, hl.chain, hl.chain.nodup, hl.last, hmem⟩

/-- In every state after good operations the queues list the runnable processes, and `pick_proc`
returns the first of them or, during an element, its process or VM. -/
theorem reachable_readyQueues (h : Reachable Good s) :
    ReadyQueues s ∧ (s.hEnable = false → PicksFirst s) ∧
      (s.hEnable = true → s.inUser = false → ¬ Aborts s → PicksElement s) := by
  have hinv := h.inv
  refine ⟨hinv.readyQueues, picksFirst_of_disabled hinv, ?_⟩
  intro henable hkernel hno s' r hrun
  exact (pickProc_of_enabled hinv hkernel hno henable hrun).2

/-! ## A run with a page fault -/

/-- Two processes and VM, which wait: one in slot 20, hardened, and a server of higher priority. -/
def blocked : State where
  procs p :=
    ⟨if p = 20 ∨ p = 21 ∨ p = vmProcNr then 0x08 else rtsSlotFree,
      if p = 21 then 5 else 7, 200, 1000, none, false, decide (p = 20)⟩
  runQHead _ := none
  runQTail _ := none
  procPtr := none
  inUser := false
  tscPerMs := 1
  hEnable := false
  hProcNr := 5
  hStep := .noHardRun
  hStepBack := .noHardRun
  hRestore := .none
  copyRtsFlags := 0
  copyCpuTimeLeft := 0

theorem blocked_initial : Initial blocked where
  notRunnable := by decide +kernel
  empty _ := ⟨rfl, rfl⟩
  priority := by decide +kernel
  kernel := rfl
  disabled := rfl
  noRestore := rfl

/-- A test of the condition on operations, for those it can decide. -/
def goodTest (s : State) : Op → Bool
  | .schedProc _ priority _ => decide (priority ≠ nrSchedQueues)
  | .enqueue _ | .enqueueHead _ => false
  | .pickNew => (resumeCurrent s).all fun s' => decide (¬ Aborts s')
  | _ => true

theorem goodTest_sound (s : State) (op : Op) (h : goodTest s op = true) : Good s op := by
  cases op with
  | schedProc p priority quantum =>
    have hne : priority ≠ nrSchedQueues := of_decide_eq_true h
    exact hne
  | enqueue p => cases h
  | enqueueHead p => cases h
  | pickNew =>
    intro s' hs'
    have hall : (resumeCurrent s).all (fun s' => decide (¬ Aborts s')) = true := h
    rw [hs'] at hall
    exact of_decide_eq_true hall
  | _ => trivial

/-- Carry out an operation that is enabled and passes the test. -/
def tryOp (test : State → Op → Bool) (s : State) (op : Op) : Option State :=
  if op.Enabled s ∧ test s op = true then op.run s else none

theorem Reachable.tryAll {test : State → Op → Bool} {good : State → Op → Prop} {ops : List Op}
    (h : Reachable good s) (htest : ∀ s op, test s op = true → good s op)
    (hrun : ops.foldlM (tryOp test) s = some s') : Reachable good s' := by
  refine foldlM_inv (fun op _ s1 s2 h hstep => ?_) h hrun
  unfold tryOp at hstep
  split at hstep
  case isTrue hop => exact .step op h hop.1 (htest s1 op hop.2) hstep
  case isFalse => cases hstep

/-- The hardened process faults, VM handles the fault, and replies to the server before it
waits again. -/
def faultOps : List Op :=
  [.rtsUnset 20 0x08, .pickNew, .resume, .enter none, .pagefault, .rtsUnset 13 0x08, .pickNew,
    .resume, .enter none, .rtsUnset 20 rtsPagefault, .rtsUnset 21 0x08, .rtsSet 13 0x08]

/-- After the fault the hardened process and the server are runnable. -/
theorem reachable_readyQueues_fault : ∃ s, Reachable Good s ∧ s.Runnable 20 ∧ s.Runnable 21 ∧
    ReadyQueues s ∧ PicksElement s := by
  have hrun : (faultOps.foldlM (tryOp goodTest) blocked).any (fun s =>
      decide (s.hEnable = true ∧ s.inUser = false ∧ ¬ Aborts s ∧ s.Runnable 20 ∧
        s.Runnable 21)) = true := by
    decide +kernel
  obtain ⟨s, hs, hdec⟩ := (Option.any_eq_true _ _).mp hrun
  obtain ⟨henable, hkernel, hno, h20, h21⟩ := of_decide_eq_true hdec
  have hreach : Reachable Good s := .tryAll (.init blocked_initial) goodTest_sound hs
  obtain ⟨hready, -, helement⟩ := reachable_readyQueues hreach
  exact ⟨s, hreach, h20, h21, hready, helement henable hkernel hno⟩

/-- `pick_proc` returns the hardened process, and the server has the higher priority. -/
theorem hardened_before_server :
    ¬ ∀ s, Reachable (fun _ _ => True) s → ReadyQueues s ∧ PicksFirst s := by
  intro h
  have hrun : (faultOps.foldlM (tryOp fun _ _ => true) blocked).any (fun s =>
      decide ((pickProc s).map (·.2) = some (some 20) ∧ s.Runnable 21 ∧
        (s.procs 21).priority < (s.procs 20).priority)) = true := by
    decide +kernel
  obtain ⟨s, hs, hdec⟩ := (Option.any_eq_true _ _).mp hrun
  obtain ⟨hpick, h21, hlt⟩ := of_decide_eq_true hdec
  have hreach : Reachable (fun _ _ => True) s :=
    .tryAll (.init blocked_initial) (fun _ _ _ => trivial) hs
  obtain ⟨s', r, hpick', hfirst, -⟩ := (h s hreach).2
  rw [hpick'] at hpick
  have hr : r = some 20 := by simpa using hpick
  have hle := (hfirst 20 hr).2 21 h21
  omega

end HardenedMinix.Sched
