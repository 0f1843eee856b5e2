import HardenedMinix.Kernel.Types
import HardenedMinix.Lib.TailQueue

/-!
# The queues of runnable processes

The queues and the macros that keep them in step with `p_rts_flags`, for one processor. `none` is
a panic, a failed assertion or a walk that does not end. The priority is the index of the queue.
-/

namespace HardenedMinix.Sched

open Lib

/-! ## Data -/

abbrev Flags := BitVec 32

def rtsSlotFree : Flags := 0x01
def rtsPagefault : Flags := 0x400
def rtsPreempted : Flags := 0x4000
def rtsNoQuantum : Flags := 0x8000
def rtsUnstableState : Flags := 0x20000
def rtsInsCounter : Flags := 0x20000

def nrSchedQueues : Nat := 16

def taskQ : Int := 0

/-- `h_step` and `h_step_back`. -/
inductive RunStep where
  | noHardRun
  | firstRun
  | secondRun
  | vmRun
  | firstStepping
  deriving DecidableEq, Repr

/-- The fields of `struct proc` that scheduling reads or writes. -/
structure Proc where
  rtsFlags : Flags
  priority : Int
  quantumSizeMs : Int
  cpuTimeLeft : Nat
  nextready : Option ProcNr
  /-- `priv(p)->s_flags & PREEMPTIBLE` -/
  preemptible : Bool
  /-- `p_hflags & PROC_TO_HARD` -/
  toHard : Bool
  deriving DecidableEq, Repr

/-- `proc_is_runnable`. -/
def Proc.Runnable (p : Proc) : Prop := p.rtsFlags = 0

instance (p : Proc) : Decidable p.Runnable := inferInstanceAs (Decidable (p.rtsFlags = 0))

/-- `p_rts_flags & f`. -/
def Proc.Has (p : Proc) (f : Flags) : Prop := p.rtsFlags &&& f ≠ 0

instance (p : Proc) (f : Flags) : Decidable (p.Has f) :=
  inferInstanceAs (Decidable (p.rtsFlags &&& f ≠ 0))

instance linkedProc : Linked Proc nrSlots where
  next p := p.nextready
  setNext p o := { p with nextready := o }
  free p := decide (p.Has rtsSlotFree)
  next_setNext _ _ := rfl
  free_setNext _ _ := rfl
  setNext_next _ := rfl

structure State where
  procs : Table Proc nrSlots
  runQHead : Int → Option ProcNr
  runQTail : Int → Option ProcNr
  /-- `proc_ptr`; `none` is `idle_proc`, which is never runnable and has priority 0. -/
  procPtr : Option ProcNr
  /-- The processor is not in the kernel. -/
  inUser : Bool
  tscPerMs : Nat
  hEnable : Bool
  hProcNr : ProcNr
  hStep : RunStep
  hStepBack : RunStep
  hRestore : HRestore
  /-- The `p_rts_flags` that `save_copy_0` saves to. -/
  copyRtsFlags : Flags
  /-- The `p_cpu_time_left` that `save_copy_0` saves to. -/
  copyCpuTimeLeft : Nat

def State.Runnable (s : State) (p : ProcNr) : Prop := (s.procs p).Runnable

instance (s : State) (p : ProcNr) : Decidable (s.Runnable p) :=
  inferInstanceAs (Decidable (s.procs p).Runnable)

def State.setProc (s : State) (r : ProcNr) (p : Proc) : State :=
  { s with procs := Function.update s.procs r p }

/-- `rp->p_rts_flags = f`, without a look at the queues. -/
def State.setFlags (s : State) (rp : ProcNr) (f : Flags) : State :=
  s.setProc rp { s.procs rp with rtsFlags := f }

/-- Write back the links and the two pointers of queue `q`. -/
def State.setQueue (s : State) (q : Int)
    (w : Table Proc nrSlots × Option ProcNr × Option ProcNr) : State :=
  { s with
    procs := w.1
    runQHead := Function.update s.runQHead q w.2.1
    runQTail := Function.update s.runQTail q w.2.2 }

/-! ## Queues -/

def dequeue (s : State) (rp : ProcNr) : Option State :=
  if s.Runnable rp then none
  else
    let q := (s.procs rp).priority
    (removeFrom s.procs (s.runQHead q) (s.runQTail q) rp).map (s.setQueue q)

def rtsSet (s : State) (rp : ProcNr) (f : Flags) : Option State :=
  let s' := s.setFlags rp ((s.procs rp).rtsFlags ||| f)
  if s.Runnable rp ∧ ¬ s'.Runnable rp then dequeue s' rp else some s'

/-- The end of `enqueue`: the current process gives way to one of higher priority. -/
def preemptCurrent (s : State) (rp : ProcNr) : Option State :=
  match s.procPtr with
  | none => some s
  | some p =>
    if (s.procs rp).priority < (s.procs p).priority ∧ (s.procs p).preemptible = true then
      rtsSet s p rtsPreempted
    else some s

def enqueue (s : State) (rp : ProcNr) : Option State :=
  let q := (s.procs rp).priority
  if ¬ (s.Runnable rp ∧ 0 ≤ q) then none
  else
    match pushLast s.procs (s.runQHead q) (s.runQTail q) rp with
    | none => none
    | some w => preemptCurrent (s.setQueue q w) rp

def enqueueHead (s : State) (rp : ProcNr) : Option State :=
  let q := (s.procs rp).priority
  if ¬ (s.Runnable rp ∧ (s.procs rp).cpuTimeLeft ≠ 0 ∧ 0 ≤ q) then none
  else some (s.setQueue q (pushFirst s.procs (s.runQHead q) (s.runQTail q) rp))

def rtsUnset (s : State) (rp : ProcNr) (f : Flags) : Option State :=
  let s' := s.setFlags rp ((s.procs rp).rtsFlags &&& ~~~f)
  if ¬ s.Runnable rp ∧ s'.Runnable rp then enqueue s' rp else some s'

def rtsSetflags (s : State) (rp : ProcNr) (f : Flags) : Option State :=
  if s.Runnable rp ∧ f ≠ 0 then (dequeue s rp).map (·.setFlags rp f)
  else some (s.setFlags rp f)

def ms2CpuTime (s : State) (ms : Int) : Nat := ms.toNat * s.tscPerMs % 2 ^ 64

/-- `sched_proc`; `EINVAL` changes nothing. -/
def schedProc (s : State) (p : ProcNr) (priority quantum : Int) : Option State :=
  if (priority < taskQ ∧ priority ≠ -1) ∨ nrSchedQueues < priority then some s
  else if quantum < 1 ∧ quantum ≠ -1 then some s
  else
    match (if s.Runnable p then rtsSet s p rtsNoQuantum else some s) with
    | none => none
    | some s =>
      let q := if priority ≠ -1 then priority else (s.procs p).priority
      let s := s.setProc p { s.procs p with priority := q }
      let s := if quantum ≠ -1 then
        s.setProc p { s.procs p with
          quantumSizeMs := quantum, cpuTimeLeft := ms2CpuTime s quantum } else s
      rtsUnset s p rtsNoQuantum

/-! ## Processing elements -/

def saveCopy0 (s : State) (p : ProcNr) : State :=
  { s with copyRtsFlags := (s.procs p).rtsFlags, copyCpuTimeLeft := (s.procs p).cpuTimeLeft }

def restoreCopy0 (s : State) (p : ProcNr) : State :=
  s.setProc p { s.procs p with rtsFlags := s.copyRtsFlags, cpuTimeLeft := s.copyCpuTimeLeft }

def resetHardenedRun (s : State) : State :=
  { s with
    hEnable := false
    hProcNr := 5
    hStepBack := .noHardRun
    hStep := .noHardRun
    hRestore := .none }

def abortPe (s : State) (p : ProcNr) : State := resetHardenedRun (restoreCopy0 s p)

/-- The part of `start_dwc` that starts a processing element. -/
def startPe (s : State) (p : ProcNr) : Option State :=
  if s.hEnable = false ∧ p ≠ vmProcNr ∧ (s.procs p).toHard = true then
    if s.hStep ≠ .noHardRun then none
    else some { saveCopy0 s p with hProcNr := p, hStep := .firstRun, hEnable := true }
  else some s

/-- The part of `start_dwc` that starts a run again. -/
def restorePe (s : State) (p : ProcNr) : Option State :=
  if s.hEnable = true ∧ s.hRestore ≠ .none then
    if s.hProcNr ≠ p then none
    else
      let step := if s.hRestore = .forSecondRun then RunStep.secondRun else .firstRun
      let s := { restoreCopy0 s p with hStep := step, hRestore := .none }
      if s.Runnable p then some s else none
  else some s

/-- The tests at the end of `start_dwc`. -/
abbrev MayRun (s : State) (p : ProcNr) : Prop :=
  s.hEnable = true →
    (s.hProcNr = p ∨ p = vmProcNr) ∧
    (p = vmProcNr → (s.procs s.hProcNr).Has rtsPagefault ∨ s.hStep = .vmRun) ∧
    (s.hStep = .firstRun ∨ s.hStep = .secondRun → s.hProcNr = p) ∧
    (s.hStep = .vmRun → p = vmProcNr)

/-- `start_dwc`, and the return to the process. -/
def startDwc (s : State) (p : ProcNr) : Option State :=
  match startPe s p with
  | none => none
  | some s =>
    match restorePe s p with
    | none => none
    | some s => if MayRun s p then some { s with inUser := true } else none

def runProc2 (s : State) (p : ProcNr) : Option State := startDwc { s with procPtr := some p } p

/-- What `hardening_task` finds after the second run. -/
inductive Compared where
  | same
  | different
  /-- An NMI came at another instruction, and the registers differ. -/
  | elsewhere
  deriving DecidableEq, Repr

def hardeningTask (s : State) (c : Compared) : Option State :=
  match s.procPtr with
  | none => none
  | some p =>
    if ¬ (s.hEnable = true ∧ s.hProcNr = p ∧ p ≠ vmProcNr) then none
    else if s.hStep = .firstRun then
      if s.hRestore ≠ .none then none
      else runProc2 { s with hRestore := .forSecondRun } p
    else
      match c with
      | .elsewhere =>
        -- `ssh_init`
        if s.hStep = .secondRun then some { s with hStep := .firstStepping } else none
      | .different =>
        let s := s.setFlags p ((s.procs p).rtsFlags ||| rtsUnstableState)
        runProc2 { s with hRestore := .forFirstRun } p
      | .same => some (resetHardenedRun s)

/-! ## Choice of the next process -/

/-- `hpick_proc`, with `GIVE_QUANTUM` 0. -/
def hpickProc (s : State) : Option (State × Option ProcNr) :=
  if s.hEnable = false then some (s, none)
  else
    let hp := s.hProcNr
    if s.hStep = .vmRun then
      if (s.procs hp).Has rtsPagefault then
        if s.Runnable vmProcNr then some (s, some vmProcNr) else none
      else if s.Runnable hp ∧ (s.hStepBack = .firstRun ∨ s.hStepBack = .secondRun) then
        some ({ s with hStep := s.hStepBack, hStepBack := .noHardRun }, some hp)
      else none
    else if (s.procs hp).Has rtsNoQuantum then some (abortPe s hp, none)
    else if (s.procs hp).Has rtsInsCounter then
      match rtsUnset s hp rtsInsCounter with
      | none => none
      | some s => if s.Runnable hp then some (s, some hp) else none
    else if s.Runnable hp then some (s, some hp)
    else none

/-- `for (q = 0; q < NR_SCHED_QUEUES; q++) if (rdy_head[q]) return rdy_head[q];` -/
def firstReady (s : State) : Option ProcNr :=
  (List.range nrSchedQueues).findSome? fun q : Nat => s.runQHead q

def pickProc (s : State) : Option (State × Option ProcNr) :=
  match hpickProc s with
  | none => none
  | some (s, some rp) => some (s, some rp)
  | some (s, none) =>
    match firstReady s with
    | none => some (s, none)
    | some rp => if s.Runnable rp then some (s, some rp) else none

/-- `if (proc_is_preempted(p)) { ... }` of `switch_to_user`. -/
def resumePreempted (s : State) (p : ProcNr) : Option State :=
  if (s.procs p).Has rtsPreempted then
    let s := s.setFlags p ((s.procs p).rtsFlags &&& ~~~rtsPreempted)
    if s.Runnable p then
      if (s.procs p).cpuTimeLeft ≠ 0 then enqueueHead s p else enqueue s p
    else some s
  else some s

/-- The preempted process, if it is the current one, goes back on its queue. -/
def resumeCurrent (s : State) : Option State :=
  match s.procPtr with
  | none => some s
  | some p => resumePreempted s p

/-- The process `switch_to_user` is called for can go on. -/
def State.CurrentRunnable (s : State) : Prop := ∃ p, s.procPtr = some p ∧ s.Runnable p

instance (s : State) : Decidable s.CurrentRunnable :=
  inferInstanceAs (Decidable (∃ p, s.procPtr = some p ∧ s.Runnable p))

/-- `switch_to_user`, up to `check_misc_flags`. If there is nothing to run the processor
idles. -/
def pickNew (s : State) : Option State :=
  if s.CurrentRunnable then some s
  else
    match resumeCurrent s with
    | none => none
    | some s => (pickProc s).map fun w => { w.1 with procPtr := w.2 }

/-- The end of `switch_to_user`. -/
def resume (s : State) : Option State :=
  match s.procPtr with
  | none => none
  | some p =>
    if s.Runnable p ∧ (s.procs p).cpuTimeLeft ≠ 0 then startDwc s p else none

/-! ## Runs -/

/-- A page fault that VM has to handle, up to the message to VM. -/
def pagefault (s : State) : Option State :=
  match s.procPtr with
  | none => none
  | some p =>
    if s.hEnable = true ∧ s.hProcNr = p ∧ s.hStepBack = .noHardRun then
      rtsSet { s with hStepBack := s.hStep, hStep := .vmRun } p rtsPagefault
    else none

/-- What happens to the flags, the priorities and the queues. -/
inductive Op where
  | rtsSet (p : ProcNr) (f : Flags)
  | rtsUnset (p : ProcNr) (f : Flags)
  /-- `RTS_SETFLAGS`, which `do_clear` uses to free the slot. -/
  | clear (p : ProcNr)
  | enqueue (p : ProcNr)
  | enqueueHead (p : ProcNr)
  | dequeue (p : ProcNr)
  | schedProc (p : ProcNr) (priority quantum : Int)
  /-- `context_stop` counts down the time a process has left. -/
  | account (p : ProcNr) (left : Nat)
  | pickNew
  | resume
  /-- The running process enters the kernel, for `hardening_task` or for anything else. -/
  | enter (task : Option Compared)
  | pagefault
  /-- `ssh` at the end of the stepping of the first run. -/
  | stepped
  deriving DecidableEq, Repr

def Op.run (s : State) : Op → Option State
  | .rtsSet p f => Sched.rtsSet s p f
  | .rtsUnset p f => Sched.rtsUnset s p f
  | .clear p => rtsSetflags s p rtsSlotFree
  | .enqueue p => Sched.enqueue s p
  | .enqueueHead p => Sched.enqueueHead s p
  | .dequeue p => Sched.dequeue s p
  | .schedProc p priority quantum => Sched.schedProc s p priority quantum
  | .account p left => some (s.setProc p { s.procs p with cpuTimeLeft := left })
  | .pickNew => Sched.pickNew s
  | .resume => Sched.resume s
  | .enter none => some { s with inUser := false }
  | .enter (some c) => hardeningTask { s with inUser := false } c
  | .pagefault => Sched.pagefault s
  | .stepped => if s.hStep = .firstStepping then some { s with hStep := .secondRun } else none

/-- The kernel is entered from a process, and works otherwise. -/
def Op.Enabled (s : State) : Op → Prop
  | .enter _ => s.inUser = true
  | _ => s.inUser = false

instance (s : State) (op : Op) : Decidable (op.Enabled s) := by
  cases op <;> exact inferInstanceAs (Decidable (_ = _))

/-- The tables when the first process is about to be made runnable. -/
structure Initial (s : State) : Prop where
  notRunnable : ∀ p, ¬ s.Runnable p
  empty : ∀ q, s.runQHead q = none ∧ s.runQTail q = none
  priority : ∀ p, 0 ≤ (s.procs p).priority ∧ (s.procs p).priority < nrSchedQueues
  kernel : s.inUser = false
  disabled : s.hEnable = false
  noRestore : s.hRestore = .none

/-- The states after operations that all satisfy `good` where they are carried out. -/
inductive Reachable (good : State → Op → Prop) : State → Prop where
  | init {s : State} : Initial s → Reachable good s
  | step {s s' : State} (op : Op) :
      Reachable good s → op.Enabled s → good s op → op.run s = some s' → Reachable good s'

/-! ## What is claimed of the queues -/

/-- Each queue is a chain from its head to its tail of the runnable processes of its priority, each
once. -/
def ReadyQueues (s : State) : Prop :=
  (∀ q : Int, 0 ≤ q → q < nrSchedQueues → ∃ l,
    Chain s.procs (s.runQHead q) l ∧ l.Nodup ∧ s.runQTail q = l.getLast? ∧
      ∀ p, p ∈ l ↔ s.Runnable p ∧ (s.procs p).priority = q) ∧
  ∀ p, s.Runnable p → 0 ≤ (s.procs p).priority ∧ (s.procs p).priority < nrSchedQueues

/-- `pick_proc` returns a runnable process of the first priority that has one. -/
def PicksFirst (s : State) : Prop :=
  ∃ s' r, pickProc s = some (s', r) ∧
    (∀ p, r = some p → s.Runnable p ∧
      ∀ p', s.Runnable p' → (s.procs p).priority ≤ (s.procs p').priority) ∧
    (r = none → ∀ p, ¬ s.Runnable p)

/-- `hpick_proc` finds that the quantum is used up, and aborts the processing element. -/
def Aborts (s : State) : Prop :=
  s.hEnable = true ∧ s.hStep ≠ .vmRun ∧ (s.procs s.hProcNr).Has rtsNoQuantum

instance (s : State) : Decidable (Aborts s) :=
  inferInstanceAs (Decidable (s.hEnable = true ∧ s.hStep ≠ .vmRun ∧ _))

/-- `pick_proc` while a processing element runs: its process or VM, or a panic. -/
def PicksElement (s : State) : Prop :=
  ∀ s' r, pickProc s = some (s', r) →
    ∃ p, r = some p ∧ s'.Runnable p ∧ (p = s.hProcNr ∨ p = vmProcNr)

/-- Not the priority past the last queue, which `sched_proc` lets through; no process is queued
twice; no element is aborted. -/
def Good (s : State) : Op → Prop
  | .schedProc _ priority _ => priority ≠ nrSchedQueues
  | .enqueue p | .enqueueHead p =>
    ∀ (q : Int) (l : List ProcNr), 0 ≤ q → q < nrSchedQueues → Chain s.procs (s.runQHead q) l → p ∉ l
  | .pickNew => ∀ s', resumeCurrent s = some s' → ¬ Aborts s'
  | _ => True

end HardenedMinix.Sched
