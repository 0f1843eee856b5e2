import HardenedMinix.Lib.Escrow
import HardenedMinix.Kernel.Types

/-!
# Virtual timers

While a processing element runs, the signal of its process waits in `p_sig_delay`. Each execution
of an element is a transaction of the books, in which each timer that runs out is owed a signal.
-/

namespace HardenedMinix.Timers

open Lib

/-! ## Data -/

/-- `VT_VIRTUAL` and `VT_PROF`. -/
inductive Timer where
  | virtual
  | prof
  deriving DecidableEq, Repr

/-- `SIGVTALRM` and `SIGPROF`. -/
def Timer.sig : Timer → Nat
  | .virtual => 24
  | .prof => 25

/-- The part of `struct proc` and of its privileges for timers and signals. -/
structure Proc where
  /-- `MF_VIRT_TIMER` and `MF_PROF_TIMER` -/
  running : Timer → Bool
  /-- `p_virt_left` and `p_prof_left` -/
  left : Timer → Int
  /-- `p_sig_delay`; `none` is -1 -/
  sigDelay : Option Nat
  /-- `PROC_TO_HARD` -/
  toHard : Bool
  billable : Bool
  /-- The signal manager is the process itself. -/
  ownSigMgr : Bool
  /-- `p_pending` -/
  pending : List Nat
  /-- `RTS_SIGNALED` -/
  signaled : Bool
  /-- `RTS_SIG_PENDING` -/
  sigPending : Bool

structure State where
  procs : ProcNr → Proc
  hEnable : Bool
  hProcNr : ProcNr
  hStep : HStep
  /-- `h_can_start_hardening` -/
  canStart : Bool
  /-- the number of executions of elements that have ended -/
  execution : Nat
  /-- the signals the timers owe, the calls of `cause_sig`, and how the executions ended -/
  log : List (Booking (ProcNr × Nat))

variable {s s' : State} {p q : ProcNr} {t : Timer} {sig : Nat}

def State.set (s : State) (p : ProcNr) (x : Proc) : State :=
  { s with procs := Function.update s.procs p x }

def State.note (s : State) (e : Booking (ProcNr × Nat)) : State :=
  { s with log := s.log ++ [e] }

/-! ## The functions of the source -/

/-- `cause_sig`; `h_unstable_state` is never `H_UNSTABLE`. -/
def causeSig (s : State) (p : ProcNr) (sig : Nat) : State :=
  let s := s.note (.paid (p, sig))
  let x := s.procs p
  -- the own manager gets the signal as a notification
  if x.ownSigMgr then s
  else if sig ∈ x.pending then s
  else
    let x := { x with pending := sig :: x.pending }
    if x.signaled then s.set p x
    else s.set p { x with signaled := true, sigPending := true }

/-- The timer of a process has run out, and nobody has noticed. -/
def Expired (x : Proc) (t : Timer) : Prop := x.running t = true ∧ x.left t ≤ 0

instance (x : Proc) (t : Timer) : Decidable (Expired x t) := inferInstanceAs (Decidable (_ ∧ _))

/-- A timer that has run out is switched off. -/
def Proc.stop (x : Proc) (t : Timer) : Proc :=
  { x with running := Function.update x.running t false, left := Function.update x.left t 0 }

/-- `vtimer_check`, for one of the timers. -/
def checkTimer (s : State) (p : ProcNr) (t : Timer) : State :=
  let x := s.procs p
  if Expired x t then
    let s := s.set p (x.stop t)
    if s.hEnable ∧ s.hProcNr = p then
      (s.note (.owed (p, t.sig) (some s.execution))).set p
        { s.procs p with sigDelay := some t.sig }
    else causeSig (s.note (.owed (p, t.sig) none)) p t.sig
  else s

def vtimerCheck (s : State) (p : ProcNr) : State :=
  checkTimer (checkTimer s p .virtual) p .prof

/-- The ticks `timer_int_handler` takes off. -/
def charge (s : State) (cur bill : ProcNr) : State :=
  let x := s.procs cur
  let s := s.set cur
    { x with left := fun t => if x.running t then x.left t - 1 else x.left t }
  let b := s.procs bill
  if x.billable = false ∧ b.running .prof = true then
    s.set bill { b with left := Function.update b.left .prof (b.left .prof - 1) }
  else s

/-- `timer_int_handler`, while `cur` runs and `bill` is billed. -/
def timerIntHandler (s : State) (cur bill : ProcNr) : State :=
  let s := charge s cur bill
  let s := vtimerCheck s cur
  if cur ≠ bill then vtimerCheck s bill else s

/-- The ticks left on a timer, as `do_vtimer` returns them. -/
def Proc.oldValue (x : Proc) (t : Timer) : Int :=
  if x.running t then (if x.left t < 0 then 0 else x.left t) else 0

def doVtimer (s : State) (p : ProcNr) (t : Timer) (set : Bool) (value : Int) : State × Int :=
  let x := s.procs p
  if !set then (s, x.oldValue t)
  else if 0 < value then
    (s.set p { x with
      running := Function.update x.running t true
      left := Function.update x.left t value }, x.oldValue t)
  else (s.set p (x.stop t), x.oldValue t)

/-- The child has the privileges of its parent, or those of a user process. -/
def doFork (s : State) (parent child : ProcNr) (billable ownSigMgr : Bool) : State :=
  s.set child { s.procs parent with
    running := fun _ => false
    left := fun _ => 0
    sigDelay := none
    toHard := s.canStart
    billable := billable
    ownSigMgr := ownSigMgr
    pending := []
    signaled := false
    sigPending := false }

/-- `do_getksig`, for the process it finds. -/
def doGetksig (s : State) (p : ProcNr) : State :=
  s.set p { s.procs p with pending := [], signaled := false }

def doEndksig (s : State) (p : ProcNr) : State :=
  let x := s.procs p
  if x.sigPending && !x.signaled then s.set p { x with sigPending := false } else s

def resetHardenedRun (s : State) (p : ProcNr) : State :=
  let s := { s with hEnable := false, hProcNr := 0, hStep := .noHardRun }
  match (s.procs p).sigDelay with
  | none => s
  | some sig =>
    let s := causeSig s p sig
    s.set p { s.procs p with sigDelay := none }

/-- The execution ends, committed or not. -/
def endExecution (s : State) (e : Nat → Booking (ProcNr × Nat)) : State :=
  { s.note (e s.execution) with execution := s.execution + 1 }

/-! ## Runs -/

inductive Op where
  /-- `timer_int_handler` -/
  | tick (cur bill : ProcNr)
  | vtimer (p : ProcNr) (t : Timer) (set : Bool) (value : Int)
  | fork (parent child : ProcNr) (billable ownSigMgr : Bool)
  | getksig (p : ProcNr)
  | endksig (p : ProcNr)
  /-- hardening is switched for one process, or for all that will be forked -/
  | harden (p : ProcNr) (on : Bool)
  | hardenForks (on : Bool)
  /-- `start_dwc` begins an element -/
  | start (p : ProcNr)
  /-- the first run is at its end -/
  | secondRun
  /-- the comparison fails, and the element is repeated -/
  | failed
  | commit
  /-- `abort_pe` -/
  | abort

/-- While the window is open only the process of the element and VM run. -/
def Op.Enabled (s : State) : Op → Prop
  | .tick _ _ => True
  | .vtimer _ _ _ _ => s.hEnable = false
  | .fork _ _ _ _ => s.hEnable = false
  | .getksig p => s.hEnable = false ∧ (s.procs p).signaled = true
  | .endksig _ => s.hEnable = false
  | .harden _ _ => True
  | .hardenForks _ => True
  | .start p => s.hEnable = false ∧ p ≠ vmProcNr ∧ (s.procs p).toHard = true
  | .secondRun => s.hEnable = true ∧ s.hStep = .firstRun
  | .failed => s.hEnable = true ∧ s.hStep = .secondRun
  | .commit => s.hEnable = true ∧ s.hStep = .secondRun
  | .abort => s.hEnable = true

instance (s : State) (op : Op) : Decidable (op.Enabled s) := by
  cases op <;> unfold Op.Enabled <;> infer_instance

def step (s : State) : Op → State
  | .tick cur bill => timerIntHandler s cur bill
  | .vtimer p t set value => (doVtimer s p t set value).1
  | .fork parent child billable ownSigMgr => doFork s parent child billable ownSigMgr
  | .getksig p => doGetksig s p
  | .endksig p => doEndksig s p
  | .harden p on => s.set p { s.procs p with toHard := on }
  | .hardenForks on => { s with canStart := on }
  | .start p => { s with hEnable := true, hProcNr := p, hStep := .firstRun }
  | .secondRun => { s with hStep := .secondRun }
  -- neither the timers nor `p_sig_delay` are in what `restore_copy_0` restores
  | .failed => { endExecution s .aborted with hStep := .firstRun }
  | .commit => resetHardenedRun (endExecution s .committed) s.hProcNr
  | .abort => resetHardenedRun (endExecution s .aborted) s.hProcNr

/-- The process table after `proc_init`; `p_sig_delay` is 0, which is no timer's signal. -/
structure Boot (s : State) : Prop where
  running : ∀ p t, (s.procs p).running t = false
  sigDelay : ∀ p, (s.procs p).sigDelay = some 0
  hEnable : s.hEnable = false
  log : s.log = []

/-- The states of the runs whose operations all meet `Cond` in the state they start from. -/
inductive Reachable (Cond : State → Op → Prop) : State → Prop where
  | boot {s : State} : Boot s → Reachable Cond s
  | step {s : State} {op : Op} : Reachable Cond s → op.Enabled s → Cond s op →
      Reachable Cond (Timers.step s op)

/-- No timer's signal waits in `p_sig_delay`. -/
def Proc.Vacant (x : Proc) : Prop := ∀ t : Timer, x.sigDelay ≠ some t.sig

/-- No signal waits if a timer runs out, and only one timer does. -/
def Proc.Single (x : Proc) : Prop :=
  (∀ t, Expired x t → x.Vacant) ∧ ¬ (Expired x .virtual ∧ Expired x .prof)

/-- What the single field for the signal can deal with. -/
def Spared (s : State) : Op → Prop
  | .tick cur bill =>
    s.hEnable = true → s.hProcNr = cur ∨ s.hProcNr = bill →
      ((charge s cur bill).procs s.hProcNr).Single
  | .failed => (s.procs s.hProcNr).Vacant
  | .abort => (s.procs s.hProcNr).Vacant
  | _ => True

/-! ## What the functions change -/

theorem Timer.sig_inj {t t' : Timer} (h : t.sig = t'.sig) : t = t' := by
  cases t <;> cases t' <;> first | rfl | simp [Timer.sig] at h

@[simp] theorem set_procs_self (s : State) (p : ProcNr) (x : Proc) :
    (s.set p x).procs p = x := Function.update_self ..

theorem set_procs_ne (s : State) (x : Proc) (h : q ≠ p) :
    (s.set p x).procs q = s.procs q := Function.update_of_ne h ..

/-- Same window, same timers and same waiting signals. -/
structure SameTimers (s s' : State) : Prop where
  hEnable : s'.hEnable = s.hEnable
  hProcNr : s'.hProcNr = s.hProcNr
  execution : s'.execution = s.execution
  running : ∀ q, (s'.procs q).running = (s.procs q).running
  left : ∀ q, (s'.procs q).left = (s.procs q).left
  sigDelay : ∀ q, (s'.procs q).sigDelay = (s.procs q).sigDelay

theorem sameTimers_set {x : Proc} (hrunning : x.running = (s.procs p).running)
    (hleft : x.left = (s.procs p).left) (hdelay : x.sigDelay = (s.procs p).sigDelay) :
    SameTimers s (s.set p x) := by
  have hsplit : ∀ {α : Type} (f : Proc → α), f x = f (s.procs p) →
      ∀ q, f ((s.set p x).procs q) = f (s.procs q) := by
    intro α f hf q
    by_cases hq : q = p
    · rw [hq, set_procs_self, hf]
    · rw [set_procs_ne s x hq]
  exact ⟨rfl, rfl, rfl, hsplit _ hrunning, hsplit _ hleft, hsplit _ hdelay⟩

theorem causeSig_log (s : State) (p : ProcNr) (sig : Nat) :
    (causeSig s p sig).log = s.log ++ [.paid (p, sig)] := by
  unfold causeSig
  dsimp only
  split_ifs <;> rfl

theorem causeSig_same (s : State) (p : ProcNr) (sig : Nat) : SameTimers s (causeSig s p sig) := by
  have hnote : SameTimers s (s.note (.paid (p, sig))) :=
    ⟨rfl, rfl, rfl, fun _ => rfl, fun _ => rfl, fun _ => rfl⟩
  have hset : ∀ x : Proc, x.running = (s.procs p).running → x.left = (s.procs p).left →
      x.sigDelay = (s.procs p).sigDelay →
      SameTimers s ((s.note (.paid (p, sig))).set p x) := by
    intro x hrunning hleft hdelay
    obtain ⟨h1, h2, h3, h4, h5, h6⟩ :=
      sameTimers_set (s := s.note (.paid (p, sig))) hrunning hleft hdelay
    exact ⟨h1, h2, h3, h4, h5, h6⟩
  unfold causeSig
  dsimp only
  split_ifs
  · exact hnote
  · exact hnote
  · exact hset _ rfl rfl rfl
  · exact hset _ rfl rfl rfl

theorem causeSig_procs_ne (h : q ≠ p) : (causeSig s p sig).procs q = s.procs q := by
  unfold causeSig
  dsimp only
  split_ifs
  · rfl
  · rfl
  · exact set_procs_ne _ _ h
  · exact set_procs_ne _ _ h

theorem checkTimer_cases (s : State) (p : ProcNr) (t : Timer) :
    (¬ Expired (s.procs p) t ∧ checkTimer s p t = s) ∨
    (Expired (s.procs p) t ∧ (s.hEnable = true ∧ s.hProcNr = p) ∧
      checkTimer s p t = (s.note (.owed (p, t.sig) (some s.execution))).set p
        { (s.procs p).stop t with sigDelay := some t.sig }) ∨
    (Expired (s.procs p) t ∧ ¬ (s.hEnable = true ∧ s.hProcNr = p) ∧ checkTimer s p t =
        causeSig ((s.note (.owed (p, t.sig) none)).set p ((s.procs p).stop t)) p t.sig) := by
  unfold checkTimer
  dsimp only
  split_ifs with hexp hwin
  · apply Or.inr
    apply Or.inl
    refine ⟨hexp, hwin, ?_⟩
    simp [State.set, State.note]
  · exact Or.inr (Or.inr ⟨hexp, hwin, rfl⟩)
  · exact Or.inl ⟨hexp, rfl⟩

theorem checkTimer_window (s : State) (p : ProcNr) (t : Timer) :
    (checkTimer s p t).hEnable = s.hEnable ∧ (checkTimer s p t).hProcNr = s.hProcNr := by
  obtain ⟨-, h⟩ | ⟨-, -, h⟩ | ⟨-, -, h⟩ := checkTimer_cases s p t
  · rw [h]
    exact ⟨rfl, rfl⟩
  · rw [h]
    exact ⟨rfl, rfl⟩
  · rw [h, (causeSig_same _ p t.sig).hEnable, (causeSig_same _ p t.sig).hProcNr]
    exact ⟨rfl, rfl⟩

theorem checkTimer_procs_ne (h : q ≠ p) : (checkTimer s p t).procs q = s.procs q := by
  obtain ⟨-, heq⟩ | ⟨-, -, heq⟩ | ⟨-, -, heq⟩ := checkTimer_cases s p t
  · rw [heq]
  · rw [heq, set_procs_ne _ _ h]
    rfl
  · rw [heq, causeSig_procs_ne h, set_procs_ne _ _ h]
    rfl

theorem checkTimer_expired_ne {t' : Timer} (h : t' ≠ t) :
    Expired ((checkTimer s p t).procs p) t' ↔ Expired (s.procs p) t' := by
  have hstop : ∀ x : Proc, x.running = ((s.procs p).stop t).running →
      x.left = ((s.procs p).stop t).left → (Expired x t' ↔ Expired (s.procs p) t') := by
    intro x hrunning hleft
    unfold Expired
    rw [hrunning, hleft]
    simp [Proc.stop, h]
  obtain ⟨-, heq⟩ | ⟨-, -, heq⟩ | ⟨-, -, heq⟩ := checkTimer_cases s p t
  · rw [heq]
  · rw [heq]
    apply hstop
    · rw [set_procs_self]
    · rw [set_procs_self]
  have hsame := causeSig_same ((s.note (.owed (p, t.sig) none)).set p ((s.procs p).stop t)) p t.sig
  rw [heq]
  apply hstop
  · rw [hsame.running, set_procs_self]
  · rw [hsame.left, set_procs_self]

/-! ## The invariant -/

/-- What has to be kept for a process and a timer. -/
def kept (s : State) (p : ProcNr) (t : Timer) : Nat :=
  if (s.procs p).sigDelay = some t.sig then 1 else 0

/-- The books are right, with the signal in `p_sig_delay` owed in the open execution, and only that
process has one there. -/
structure Inv (s : State) : Prop where
  vacant : ∀ p, ¬ (s.hEnable = true ∧ s.hProcNr = p) → (s.procs p).Vacant
  books : ∀ p t, Books s.log s.execution (kept s p t) (p, t.sig)

theorem kept_vacant (h : (s.procs p).Vacant) (t : Timer) : kept s p t = 0 := if_neg (h t)

theorem Inv.of_delay (h : Inv s) (hen : s'.hEnable = s.hEnable) (hp : s'.hProcNr = s.hProcNr)
    (hexec : s'.execution = s.execution) (hlog : s'.log = s.log)
    (hdelay : ∀ q, (s'.procs q).sigDelay = (s.procs q).sigDelay) : Inv s' := by
  constructor
  · intro q hq t
    rw [hen, hp] at hq
    rw [hdelay]
    exact h.vacant q hq t
  intro q t
  have hkept : kept s' q t = kept s q t := by
    unfold kept
    rw [hdelay]
  rw [hlog, hexec, hkept]
  exact h.books q t

theorem Inv.set {x : Proc} (h : Inv s) (hx : x.sigDelay = (s.procs p).sigDelay) :
    Inv (s.set p x) := by
  have hdelay : ∀ q, ((s.set p x).procs q).sigDelay = (s.procs q).sigDelay := by
    intro q
    by_cases hq : q = p
    · subst hq
      rw [set_procs_self, hx]
    · rw [set_procs_ne _ _ hq]
  exact h.of_delay rfl rfl rfl rfl hdelay

theorem inv_boot (h : Boot s) : Inv s := by
  have hvacant : ∀ p, (s.procs p).Vacant := by
    intro p t
    rw [h.sigDelay]
    cases t <;> simp [Timer.sig]
  constructor
  · intro p _
    exact hvacant p
  · intro p t
    rw [h.log, kept_vacant (hvacant p)]
    exact Books.nil _ _

/-! ## Ticks -/

theorem Inv.checkTimer (h : Inv s)
    (hroom : s.hEnable = true → s.hProcNr = p → Expired (s.procs p) t → (s.procs p).Vacant) :
    Inv (checkTimer s p t) := by
  obtain ⟨-, heq⟩ | ⟨hexp, hwin, heq⟩ | ⟨-, hwin, heq⟩ := checkTimer_cases s p t
  · rw [heq]
    exact h
  · -- the signal is kept
    have hvacant := hroom hwin.1 hwin.2 hexp
    rw [heq]
    constructor
    · intro q hq
      have hne : q ≠ p := fun hqp => hq ⟨hwin.1, hqp ▸ hwin.2⟩
      rw [set_procs_ne _ _ hne]
      exact h.vacant q hq
    intro q t'
    show Books (s.log ++ [.owed (p, t.sig) (some s.execution)]) s.execution _ (q, t'.sig)
    have hbooks := h.books q t'
    by_cases hq : q = p
    · subst hq
      rw [kept_vacant hvacant] at hbooks
      by_cases ht : t' = t
      · subst ht
        have hkept : kept ((s.note (.owed (q, t'.sig) (some s.execution))).set q
            { (s.procs q).stop t' with sigDelay := some t'.sig }) q t' = 1 := by
          simp [kept]
        rw [hkept]
        exact hbooks.hold
      have hsig : t.sig ≠ t'.sig := fun hsig => ht (Timer.sig_inj hsig).symm
      have hkept : kept ((s.note (.owed (q, t.sig) (some s.execution))).set q
          { (s.procs q).stop t with sigDelay := some t.sig }) q t' = 0 := by
        simp [kept, hsig]
      rw [hkept]
      exact hbooks.snoc_owed_ne (by simpa using hsig) _
    have hkept : kept ((s.note (.owed (p, t.sig) (some s.execution))).set p
        { (s.procs p).stop t with sigDelay := some t.sig }) q t' = kept s q t' := by
      unfold kept
      rw [set_procs_ne _ _ hq]
      rfl
    rw [hkept]
    exact hbooks.snoc_owed_ne (by simp [Ne.symm hq]) _
  · -- the signal is caused
    have hsame := causeSig_same ((s.note (.owed (p, t.sig) none)).set p ((s.procs p).stop t)) p t.sig
    have hdelay : ∀ q, ((Timers.checkTimer s p t).procs q).sigDelay = (s.procs q).sigDelay := by
      intro q
      rw [heq, hsame.sigDelay]
      by_cases hq : q = p
      · subst hq
        rw [set_procs_self]
        rfl
      · rw [set_procs_ne _ _ hq]
        rfl
    have hlog : (Timers.checkTimer s p t).log =
        s.log ++ [.owed (p, t.sig) none, .paid (p, t.sig)] := by
      rw [heq, causeSig_log]
      exact List.append_assoc _ _ _
    have hexec : (Timers.checkTimer s p t).execution = s.execution := by
      rw [heq]
      exact hsame.execution
    have hwindow := checkTimer_window s p t
    constructor
    · intro q hq t'
      rw [hwindow.1, hwindow.2] at hq
      rw [hdelay]
      exact h.vacant q hq t'
    intro q t'
    have hkept : kept (Timers.checkTimer s p t) q t' = kept s q t' := by
      unfold kept
      rw [hdelay]
    have hbooks := h.books q t'
    rw [hlog, hexec, hkept]
    by_cases hx : (p, t.sig) = (q, t'.sig)
    · rw [hx]
      exact hbooks.now
    have hlist : s.log ++ [.owed (p, t.sig) none, .paid (p, t.sig)] =
        (s.log ++ [.owed (p, t.sig) none]) ++ [.paid (p, t.sig)] := by
      simp
    rw [hlist]
    exact (hbooks.snoc_owed_ne hx none).snoc_paid_ne hx

theorem Inv.vtimerCheck (h : Inv s)
    (hsingle : s.hEnable = true → s.hProcNr = p → (s.procs p).Single) :
    Inv (vtimerCheck s p) := by
  have hfirst : Inv (Timers.checkTimer s p .virtual) := by
    apply h.checkTimer
    intro hen hp hexp
    exact (hsingle hen hp).1 _ hexp
  have hwindow := checkTimer_window s p .virtual
  apply hfirst.checkTimer
  intro hen hp hexp
  rw [hwindow.1] at hen
  rw [hwindow.2] at hp
  have hprof : Expired (s.procs p) .prof := (checkTimer_expired_ne (by simp)).mp hexp
  obtain ⟨hvacant, hboth⟩ := hsingle hen hp
  -- the virtual timer has not run out as well, so nothing has been kept since
  obtain ⟨-, heq⟩ | ⟨hvirt, -⟩ | ⟨hvirt, -⟩ := checkTimer_cases s p .virtual
  · rw [heq]
    exact hvacant _ hprof
  · exact absurd ⟨hvirt, hprof⟩ hboth
  · exact absurd ⟨hvirt, hprof⟩ hboth

theorem charge_window (s : State) (cur bill : ProcNr) :
    (charge s cur bill).hEnable = s.hEnable ∧ (charge s cur bill).hProcNr = s.hProcNr := by
  unfold charge
  dsimp only
  split_ifs
  · exact ⟨rfl, rfl⟩
  · exact ⟨rfl, rfl⟩

theorem Inv.charge (h : Inv s) (cur bill : ProcNr) : Inv (charge s cur bill) := by
  unfold Timers.charge
  dsimp only
  split_ifs
  · apply Inv.set
    · exact h.set rfl
    · rfl
  · exact h.set rfl

theorem Inv.tick {cur bill : ProcNr} (h : Inv s) (hspared : Spared s (.tick cur bill)) :
    Inv (timerIntHandler s cur bill) := by
  obtain ⟨hen, hp⟩ := charge_window s cur bill
  have hsingle : ∀ q, q = cur ∨ q = bill → (Timers.charge s cur bill).hEnable = true →
      (Timers.charge s cur bill).hProcNr = q → ((Timers.charge s cur bill).procs q).Single := by
    intro q hq henq hpq
    rw [hen] at henq
    rw [hp] at hpq
    subst hpq
    exact hspared henq hq
  have hcur : Inv (Timers.vtimerCheck (Timers.charge s cur bill) cur) :=
    (h.charge cur bill).vtimerCheck (hsingle cur (.inl rfl))
  unfold timerIntHandler
  dsimp only
  split_ifs with hne
  · apply hcur.vtimerCheck
    intro henb hpb
    have hrecord : (Timers.vtimerCheck (Timers.charge s cur bill) cur).procs bill =
        (Timers.charge s cur bill).procs bill := by
      unfold Timers.vtimerCheck
      rw [checkTimer_procs_ne (Ne.symm hne), checkTimer_procs_ne (Ne.symm hne)]
    have hwindow : (Timers.vtimerCheck (Timers.charge s cur bill) cur).hEnable =
          (Timers.charge s cur bill).hEnable ∧
        (Timers.vtimerCheck (Timers.charge s cur bill) cur).hProcNr =
          (Timers.charge s cur bill).hProcNr := by
      unfold Timers.vtimerCheck
      rw [(checkTimer_window _ cur .prof).1, (checkTimer_window _ cur .prof).2]
      exact checkTimer_window _ cur .virtual
    rw [hwindow.1] at henb
    rw [hwindow.2] at hpb
    rw [hrecord]
    exact hsingle bill (.inr rfl) henb hpb
  · exact hcur

/-! ## The ends of an execution -/

theorem inv_resetHardenedRun (hvacant : ∀ q, q ≠ p → (s.procs q).Vacant)
    (hkept : ∀ t : Timer, (s.procs p).sigDelay = some t.sig →
      Books (s.log ++ [.paid (p, t.sig)]) s.execution 0 (p, t.sig))
    (hrest : ∀ q (t : Timer), ¬ (q = p ∧ (s.procs p).sigDelay = some t.sig) →
      Books s.log s.execution 0 (q, t.sig)) : Inv (resetHardenedRun s p) := by
  cases hdelay : (s.procs p).sigDelay with
  | none =>
    have heq : resetHardenedRun s p =
        { s with hEnable := false, hProcNr := 0, hStep := .noHardRun } := by
      unfold resetHardenedRun
      simp only [hdelay]
    have hall : ∀ q, (s.procs q).Vacant := by
      intro q
      by_cases hq : q = p
      · subst hq
        intro t
        rw [hdelay]
        simp
      · exact hvacant q hq
    rw [heq]
    constructor
    · intro q _
      exact hall q
    intro q t
    show Books s.log s.execution (kept s q t) (q, t.sig)
    rw [kept_vacant (hall q)]
    apply hrest
    rw [hdelay]
    simp
  | some sig =>
    have heq : resetHardenedRun s p =
        (causeSig { s with hEnable := false, hProcNr := 0, hStep := .noHardRun } p sig).set p
          { (causeSig { s with hEnable := false, hProcNr := 0, hStep := .noHardRun } p sig).procs p
            with sigDelay := none } := by
      unfold resetHardenedRun
      simp only [hdelay]
    have hsame := causeSig_same
      { s with hEnable := false, hProcNr := 0, hStep := .noHardRun } p sig
    have hlog := causeSig_log { s with hEnable := false, hProcNr := 0, hStep := .noHardRun } p sig
    have hall : ∀ q, ((resetHardenedRun s p).procs q).Vacant := by
      intro q t
      rw [heq]
      by_cases hq : q = p
      · subst hq
        rw [set_procs_self]
        simp
      · rw [set_procs_ne _ _ hq, hsame.sigDelay]
        exact hvacant q hq t
    constructor
    · intro q _
      exact hall q
    intro q t
    have hexec : (resetHardenedRun s p).execution = s.execution := by
      rw [heq]
      exact hsame.execution
    have hlog' : (resetHardenedRun s p).log = s.log ++ [.paid (p, sig)] := by
      rw [heq]
      exact hlog
    rw [kept_vacant (hall q), hexec, hlog']
    by_cases hx : q = p ∧ sig = t.sig
    · obtain ⟨rfl, rfl⟩ := hx
      exact hkept t hdelay
    apply (hrest q t ?_).snoc_paid_ne
    · intro hpair
      simp only [Prod.mk.injEq] at hpair
      exact hx ⟨hpair.1.symm, hpair.2⟩
    · rw [hdelay]
      intro hpair
      exact hx ⟨hpair.1, Option.some.inj hpair.2⟩

theorem Inv.commit (h : Inv s) : Inv (resetHardenedRun (endExecution s .committed) s.hProcNr) := by
  have hvacant : ∀ q, q ≠ s.hProcNr → (s.procs q).Vacant := by
    intro q hq
    exact h.vacant q (fun hwin => hq hwin.2.symm)
  apply inv_resetHardenedRun
  · exact hvacant
  · intro t hdelay
    have hbooks := h.books s.hProcNr t
    have hone : kept s s.hProcNr t = 1 := if_pos hdelay
    rw [hone] at hbooks
    have hlist : (endExecution s .committed).log ++ [.paid (s.hProcNr, t.sig)] =
        s.log ++ [.committed s.execution, .paid (s.hProcNr, t.sig)] :=
      List.append_assoc _ _ _
    rw [hlist]
    exact hbooks.commit_pay
  intro q t hq
  have hbooks := h.books q t
  have hzero : kept s q t = 0 := by
    by_cases hqp : q = s.hProcNr
    · subst hqp
      exact if_neg (fun hdelay => hq ⟨rfl, hdelay⟩)
    · exact kept_vacant (hvacant q hqp) t
  rw [hzero] at hbooks
  exact hbooks.commit

theorem Inv.rolledBack (h : Inv s) (hspared : (s.procs s.hProcNr).Vacant) :
    (∀ q, (s.procs q).Vacant) ∧
    ∀ q (t : Timer), Books (s.log ++ [.aborted s.execution]) (s.execution + 1) 0 (q, t.sig) := by
  constructor
  · intro q
    by_cases hq : q = s.hProcNr
    · rw [hq]
      exact hspared
    · exact h.vacant q (fun hwin => hq hwin.2.symm)
  · intro q t
    exact (h.books q t).abort

theorem Inv.abort (h : Inv s) (hspared : (s.procs s.hProcNr).Vacant) :
    Inv (resetHardenedRun (endExecution s .aborted) s.hProcNr) := by
  obtain ⟨hvacant, hbooks⟩ := h.rolledBack hspared
  apply inv_resetHardenedRun
  · intro q _
    exact hvacant q
  · intro t hdelay
    exact absurd hdelay (hspared t)
  · intro q t _
    exact hbooks q t

theorem Inv.failed (h : Inv s) (hspared : (s.procs s.hProcNr).Vacant) :
    Inv { endExecution s .aborted with hStep := .firstRun } := by
  obtain ⟨hvacant, hbooks⟩ := h.rolledBack hspared
  constructor
  · intro q _
    exact hvacant q
  · intro q t
    show Books (s.log ++ [.aborted s.execution]) (s.execution + 1) (kept s q t) (q, t.sig)
    rw [kept_vacant (hvacant q)]
    exact hbooks q t

/-! ## All operations -/

theorem Inv.fork (h : Inv s) (hen : s.hEnable = false) (parent child : ProcNr) (b m : Bool) :
    Inv (doFork s parent child b m) := by
  have hvacant : ∀ q, (s.procs q).Vacant := by
    intro q
    apply h.vacant
    rw [hen]
    simp
  have hvacant' : ∀ q, ((doFork s parent child b m).procs q).Vacant := by
    intro q t
    unfold doFork
    by_cases hq : q = child
    · subst hq
      rw [set_procs_self]
      simp
    · rw [set_procs_ne _ _ hq]
      exact hvacant q t
  constructor
  · intro q _
    exact hvacant' q
  intro q t
  have hbooks := h.books q t
  rw [kept_vacant (hvacant q)] at hbooks
  rw [kept_vacant (hvacant' q)]
  exact hbooks

theorem Inv.vtimer (h : Inv s) (p : ProcNr) (t : Timer) (set : Bool) (value : Int) :
    Inv (doVtimer s p t set value).1 := by
  unfold doVtimer
  dsimp only
  split_ifs
  · exact h
  · exact h.set rfl
  · exact h.set rfl

theorem Inv.step {op : Op} (h : Inv s) (hen : op.Enabled s) (hspared : Spared s op) :
    Inv (Timers.step s op) := by
  cases op with
  | tick cur bill => exact h.tick hspared
  | vtimer p t set value => exact h.vtimer p t set value
  | fork parent child b m => exact h.fork hen parent child b m
  | getksig p => exact h.set rfl
  | endksig p =>
    show Inv (doEndksig s p)
    unfold doEndksig
    dsimp only
    split_ifs
    · exact h.set rfl
    · exact h
  | harden p on => exact h.set rfl
  | hardenForks on => exact ⟨h.vacant, h.books⟩
  | start p =>
    constructor
    · intro q _
      apply h.vacant q
      rw [hen.1]
      simp
    · exact h.books
  | secondRun => exact ⟨h.vacant, h.books⟩
  | failed => exact h.failed hspared
  | commit => exact h.commit
  | abort => exact h.abort hspared

theorem Reachable.inv (h : Reachable Spared s) : Inv s := by
  induction h with
  | boot hboot => exact inv_boot hboot
  | step _ hen hspared ih => exact ih.step hen hspared

/-! ## Main result -/

/-- Every timer that ran out has been answered by one signal if that was outside an element or in a
committed execution, else by none; none came early. -/
theorem vtimer_signals_once (h : Reachable Spared s) (p : ProcNr) (t : Timer) :
    Settled s.log (p, t.sig) :=
  (h.inv.books p t).settled

/-! ## Runs on fixed inputs -/

def bootState : State where
  procs := fun _ => ⟨fun _ => false, fun _ => 0, some 0, false, true, false, [], false, false⟩
  hEnable := false
  hProcNr := 0
  hStep := .noHardRun
  canStart := false
  execution := 0
  log := []

theorem boot_bootState : Boot bootState := ⟨fun _ _ => rfl, fun _ => rfl, rfl, rfl⟩

theorem Timer.forall_iff {P : Timer → Prop} : (∀ t, P t) ↔ P .virtual ∧ P .prof :=
  ⟨fun h => ⟨h _, h _⟩, fun h t => by cases t; exacts [h.1, h.2]⟩

instance Timer.decidableForall (P : Timer → Prop) [∀ t, Decidable (P t)] : Decidable (∀ t, P t) :=
  decidable_of_iff _ Timer.forall_iff.symm

instance (x : Proc) : Decidable x.Vacant := inferInstanceAs (Decidable (∀ t : Timer, _ ≠ some t.sig))

instance (x : Proc) : Decidable x.Single :=
  inferInstanceAs (Decidable ((∀ t, Expired x t → x.Vacant) ∧ ¬ _))

instance (s : State) (op : Op) : Decidable (Spared s op) := by
  cases op <;> unfold Spared <;> infer_instance

/-- Perform a list of operations, as long as they are enabled and meet `Cond`. -/
def runOps (Cond : State → Op → Prop) [∀ s op, Decidable (Cond s op)] :
    State → List Op → Option State
  | s, [] => some s
  | s, op :: ops =>
    if op.Enabled s ∧ Cond s op then runOps Cond (step s op) ops else none

theorem Reachable.runOps {Cond : State → Op → Prop} [∀ s op, Decidable (Cond s op)]
    {ops : List Op} (hs : Reachable Cond s) (h : runOps Cond s ops = some s') :
    Reachable Cond s' := by
  induction ops generalizing s with
  | nil =>
    cases h
    exact hs
  | cons op ops ih =>
    unfold Timers.runOps at h
    split at h
    case isTrue hop => exact ih (.step hs hop.1 hop.2) h
    case isFalse => cases h

/-- Process 20 is hardened, its timers are set to one tick, and an element begins. -/
def tickInElement (timers : List Timer) : List Op :=
  .harden 20 true :: timers.map (fun t => .vtimer 20 t true 1) ++ [.start 20, .tick 20 20]

/-- The virtual timer runs out in an element that is committed. -/
theorem vtimer_signals_once_committed :
    ∃ s, Reachable Spared s ∧ paid s.log (20, Timer.virtual.sig) = 1 ∧
      Settled s.log (20, Timer.virtual.sig) := by
  have hrun : (runOps Spared bootState (tickInElement [.virtual] ++ [.secondRun, .commit])).any
      (fun s => decide (paid s.log (20, Timer.virtual.sig) = 1)) = true := by
    decide +kernel
  obtain ⟨s, hs, hpaid⟩ := (Option.any_eq_true _ _).mp hrun
  have hreach := Reachable.runOps (.boot boot_bootState) hs
  exact ⟨s, hreach, of_decide_eq_true hpaid, vtimer_signals_once hreach 20 .virtual⟩

/-- Both timers run out in an element and `SIGVTALRM` is lost; or it is sent though the element is
aborted. -/
theorem both_timers_in_one_element :
    (∃ s, Reachable (fun _ _ => True) s ∧ paid s.log (20, Timer.virtual.sig) = 0 ∧
      ¬ Settled s.log (20, Timer.virtual.sig)) ∧
    (∃ s, Reachable (fun _ _ => True) s ∧ paid s.log (20, Timer.virtual.sig) = 1 ∧
      ¬ Settled s.log (20, Timer.virtual.sig)) := by
  have hcex : ∀ (ops : List Op) (n m : Nat), n ≠ m →
      (runOps (fun _ _ => True) bootState ops).any (fun s =>
        decide (paid s.log (20, Timer.virtual.sig) = n ∧
          due s.log (20, Timer.virtual.sig) = m)) = true →
      ∃ s, Reachable (fun _ _ => True) s ∧ paid s.log (20, Timer.virtual.sig) = n ∧
        ¬ Settled s.log (20, Timer.virtual.sig) := by
    intro ops n m hne hrun
    obtain ⟨s, hs, hcount⟩ := (Option.any_eq_true _ _).mp hrun
    obtain ⟨hpaid, hdue⟩ := of_decide_eq_true hcount
    refine ⟨s, Reachable.runOps (.boot boot_bootState) hs, hpaid, ?_⟩
    intro hsettled
    have hexact := hsettled.exact
    omega
  constructor
  · exact hcex (tickInElement [.virtual, .prof] ++ [.secondRun, .commit]) 0 1 (by decide)
      (by decide +kernel)
  · exact hcex (tickInElement [.virtual] ++ [.abort]) 1 0 (by decide) (by decide +kernel)

end HardenedMinix.Timers
