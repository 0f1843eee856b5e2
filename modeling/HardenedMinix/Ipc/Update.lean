import HardenedMinix.Ipc.Model

/-!
# Live update

`do_update` exchanges the slots of two system processes, and puts back what belongs to the slot.
-/

namespace HardenedMinix.Update

open Lib
open HardenedMinix.Ipc (Endpoint SysId)

/-! ## Data -/

/-- `struct proc`: the fields `do_update` reads or puts back, and the caller queue. -/
structure Proc (ρ : Type) where
  /-- `RTS_SLOT_FREE` -/
  slotFree : Bool
  /-- `RTS_NO_PRIV` -/
  noPriv : Bool
  /-- `RTS_SIG_PENDING` -/
  sigPending : Bool
  /-- `RTS_SENDING` -/
  sending : Bool
  /-- `RTS_RECEIVING` -/
  receiving : Bool
  /-- the other bits of `p_rts_flags` -/
  otherRts : Nat
  endpoint : Endpoint
  nr : ProcNr
  priv : SysId
  callerQ : Option ProcNr
  qLink : Option ProcNr
  getfromE : Endpoint
  sendtoE : Endpoint
  scheduler : Option ProcNr
  rest : ρ

instance {ρ : Type} : Linked (Proc ρ) nrSlots where
  next x := x.qLink
  setNext x o := { x with qLink := o }
  free x := x.slotFree
  next_setNext _ _ := rfl
  free_setNext _ _ := rfl
  setNext_next _ := rfl

structure Priv (π : Type) where
  procNr : Option ProcNr
  id : SysId
  /-- `SYS_PROC` in `s_flags` -/
  sysProc : Bool
  trapMask : BitVec 16
  ipcTo : SysId → Bool
  notifyPending : SysId → Bool
  asynPending : SysId → Bool
  intPending : Nat
  sigPending : Nat
  alarmTimer : Option Nat
  rest : π

structure State (ρ π : Type) where
  proc : ProcNr → Proc ρ
  priv : SysId → Priv π
  ptproc : Option ProcNr

variable {ρ π : Type}

namespace State

def setProc (s : State ρ π) (p : ProcNr) (x : Proc ρ) : State ρ π :=
  { s with proc := Function.update s.proc p x }

def setPriv (s : State ρ π) (i : SysId) (x : Priv π) : State ρ π :=
  { s with priv := Function.update s.priv i x }

/-- `priv(rp)`. -/
def privOf (s : State ρ π) (p : ProcNr) : Priv π := s.priv (s.proc p).priv

end State

/-! ## Send masks -/

/-- A process that has other traps than `RECEIVE` can reply. -/
def Priv.canReply (x : Priv π) : Bool := x.trapMask &&& ~~~(1#16 <<< 2) ≠ 0#16

def setSysBit (x : Priv π) (i : SysId) (b : Bool) : Priv π :=
  { x with ipcTo := Function.update x.ipcTo i b }

def setSendtoBit (s : State ρ π) (rp : ProcNr) (id : SysId) : State ρ π :=
  let i := (s.proc rp).priv
  if (s.priv id).procNr = none ∨ (s.priv i).id = id then
    s.setPriv i (setSysBit (s.priv i) id false)
  else
    let s := s.setPriv i (setSysBit (s.priv i) id true)
    if (s.priv id).canReply = true then
      s.setPriv id (setSysBit (s.priv id) (s.priv i).id true)
    else s

/-- The destination inherits the target mask of the source. -/
def inheritMask (s : State ρ π) (src dst : ProcNr) : State ρ π :=
  (List.finRange 64).foldl
    (fun s i => if (s.privOf src).ipcTo i = true then setSendtoBit s dst i else s) s

/-! ## The call -/

inductive Result where
  | ok
  | einval
  | eperm
  | ebusy
  deriving DecidableEq

/-- `isemptyp`. -/
def isEmpty (x : Proc ρ) : Bool :=
  x.slotFree && !x.noPriv && !x.sigPending && !x.sending && !x.receiving && x.otherRts == 0

def isokendpt (s : State ρ π) : Endpoint → Option ProcNr
  | .any => none
  | .none => none
  | .proc g p => if !isEmpty (s.proc p) && (s.proc p).endpoint == .proc g p then some p else none

/-- `proc_is_runnable`. -/
def isRunnable (x : Proc ρ) : Bool :=
  !x.slotFree && !x.noPriv && !x.sigPending && !x.sending && !x.receiving && x.otherRts == 0

/-- `proc_is_updatable`. -/
def isUpdatable (x : Proc ρ) : Bool := x.noPriv || x.sigPending || (x.receiving && !x.sending)

def adjustProcSlot (s : State ρ π) (rp : ProcNr) (fromRp : Proc ρ) : State ρ π :=
  let s := s.setProc rp { s.proc rp with
    endpoint := fromRp.endpoint
    nr := fromRp.nr
    priv := fromRp.priv }
  let s := s.setPriv (s.proc rp).priv { s.privOf rp with procNr := some fromRp.nr }
  s.setProc rp { s.proc rp with
    callerQ := fromRp.callerQ
    scheduler := fromRp.scheduler }

def adjustPrivSlot (s : State ρ π) (i : SysId) (fromPriv : Priv π) : State ρ π :=
  s.setPriv i { s.priv i with
    id := fromPriv.id
    notifyPending := fromPriv.notifyPending
    intPending := fromPriv.intPending
    sigPending := fromPriv.sigPending
    alarmTimer := fromPriv.alarmTimer }

def swapProcSlotPointer (rpp : Option ProcNr) (src dst : ProcNr) : Option ProcNr :=
  if rpp = some src then some dst
  else if rpp = some dst then some src
  else rpp

def swapSlots (s : State ρ π) (src dst : ProcNr) : State ρ π :=
  let srcPriv := (s.proc src).priv
  let dstPriv := (s.proc dst).priv
  let origSrcProc := s.proc src
  let origSrcPriv := s.priv srcPriv
  let origDstProc := s.proc dst
  let origDstPriv := s.priv dstPriv
  let s := s.setProc src origDstProc
  let s := s.setPriv srcPriv origDstPriv
  let s := s.setProc dst origSrcProc
  let s := s.setPriv dstPriv origSrcPriv
  let s := adjustProcSlot s src origSrcProc
  let s := adjustProcSlot s dst origDstProc
  let s := adjustPrivSlot s (s.proc src).priv origSrcPriv
  let s := adjustPrivSlot s (s.proc dst).priv origDstPriv
  { s with ptproc := swapProcSlotPointer s.ptproc src dst }

/-- `do_update`; `none` is the assertion that neither process is runnable. -/
def doUpdate (s : State ρ π) (srcE dstE : Endpoint) : Option (Result × State ρ π) :=
  match isokendpt s srcE with
  | none => some (.einval, s)
  | some src =>
    if (s.privOf src).sysProc = false then some (.eperm, s)
    else
      match isokendpt s dstE with
      | none => some (.einval, s)
      | some dst =>
        if (s.privOf dst).sysProc = false then some (.eperm, s)
        else if isRunnable (s.proc src) ∨ isRunnable (s.proc dst) then none
        else if ¬ isUpdatable (s.proc src) ∨ ¬ isUpdatable (s.proc dst) then some (.ebusy, s)
        else some (.ok, swapSlots (inheritMask s src dst) src dst)

/-! ## What is kept -/

/-- The queue of each process `d` is `Q d`, the processes blocked sending to `d`. -/
structure Queues (s : State ρ π) (Q : ProcNr → List ProcNr) : Prop where
  chain : ∀ d, Chain s.proc (s.proc d).callerQ (Q d)
  mem : ∀ p d, p ∈ Q d ↔ (s.proc p).sending = true ∧ (s.proc p).sendtoE = (s.proc d).endpoint
  target : ∀ p, (s.proc p).sending = true →
    ∃ d, (s.proc p).sendtoE = (s.proc d).endpoint ∧ (s.proc d).slotFree = false
  free : ∀ p, (s.proc p).slotFree = true → (s.proc p).sending = false

/-- Processes and privilege structures refer to each other. -/
structure Refs (s : State ρ π) : Prop where
  nr : ∀ p, (s.proc p).nr = p
  id : ∀ i, (s.priv i).id = i
  endpoint : ∀ p, ∃ g, (s.proc p).endpoint = .proc g p
  procNr : ∀ p, (s.proc p).slotFree = false → (s.privOf p).sysProc = true →
    (s.privOf p).procNr = some p
  priv : ∀ i p, (s.priv i).procNr = some p → (s.proc p).priv = i

/-- Of two processes one of which may send to the other, the other may reply, and none may send
to itself. -/
def Closed (s : State ρ π) : Prop :=
  ∀ i j, (s.priv i).procNr ≠ none → (s.priv j).procNr ≠ none → (s.priv i).ipcTo j = true →
    i ≠ j ∧ ((s.priv j).canReply = true → (s.priv j).ipcTo i = true)

structure Sound (s : State ρ π) : Prop where
  queues : ∃ Q, Queues s Q
  refs : Refs s
  closed : Closed s
  free : ∀ p, (s.proc p).slotFree = true → isEmpty (s.proc p) = true

/-- A process after it has got the slot of another one. -/
def Proc.inSlot (x slot : Proc ρ) : Proc ρ :=
  { x with
    endpoint := slot.endpoint, nr := slot.nr, priv := slot.priv, callerQ := slot.callerQ
    scheduler := slot.scheduler }

/-- A privilege structure after it has got the place of another one, apart from its masks. -/
def Priv.inSlot (x slot : Priv π) (ipcTo asynPending : SysId → Bool) : Priv π :=
  { x with
    procNr := slot.procNr, id := slot.id, notifyPending := slot.notifyPending
    intPending := slot.intPending, sigPending := slot.sigPending, alarmTimer := slot.alarmTimer
    ipcTo := ipcTo, asynPending := asynPending }

/-- The contents of two slots are exchanged and all others are as they were, apart from masks. -/
structure Exchanged (s t : State ρ π) (src dst : ProcNr) : Prop where
  srcProc : t.proc src = (s.proc dst).inSlot (s.proc src)
  dstProc : t.proc dst = (s.proc src).inSlot (s.proc dst)
  proc : ∀ p, p ≠ src → p ≠ dst → t.proc p = s.proc p
  srcPriv : t.privOf src =
    (s.privOf dst).inSlot (s.privOf src) (t.privOf src).ipcTo (t.privOf src).asynPending
  dstPriv : t.privOf dst =
    (s.privOf src).inSlot (s.privOf dst) (t.privOf dst).ipcTo (t.privOf dst).asynPending
  priv : ∀ i, i ≠ (s.proc src).priv → i ≠ (s.proc dst).priv →
    t.priv i = { s.priv i with ipcTo := (t.priv i).ipcTo }

/-- What is pending for an endpoint is what has been pending for it. -/
structure SamePending (s t : State ρ π) : Prop where
  endpoint : ∀ p, (t.proc p).endpoint = (s.proc p).endpoint
  priv : ∀ p, (t.proc p).priv = (s.proc p).priv
  notify : ∀ i, (t.priv i).notifyPending = (s.priv i).notifyPending
  int : ∀ i, (t.priv i).intPending = (s.priv i).intPending
  sig : ∀ i, (t.priv i).sigPending = (s.priv i).sigPending
  asyn : ∀ i, (t.priv i).asynPending = (s.priv i).asynPending

/-- Only send masks are different. -/
structure SameButMasks (s t : State ρ π) : Prop where
  proc : t.proc = s.proc
  priv : ∀ i, t.priv i = { s.priv i with ipcTo := (t.priv i).ipcTo }
  ptproc : t.ptproc = s.ptproc

/-- An update disturbs nothing, and a second one undoes it. -/
structure Undisturbed (s t : State ρ π) (src dst : ProcNr) (srcE dstE : Endpoint) : Prop where
  queues : ∃ Q, Queues t Q
  pending : SamePending s t
  refs : Refs t
  exchanged : Exchanged s t src dst
  closed : Closed t
  again : ∃ u, doUpdate t srcE dstE = some (.ok, u) ∧ SameButMasks s u

end HardenedMinix.Update
