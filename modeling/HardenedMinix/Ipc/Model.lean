import HardenedMinix.Kernel.Types
import HardenedMinix.Lib.Queue
import HardenedMinix.Lib.Loop

/-!
# Message passing

`proc.c` on the fields of `struct proc` and `struct priv` it reads and writes, with `clear_ipc`,
`clear_endpoint` and `clear_ipc_refs`. Run queues, hooks and accounting are left out. An assertion
that fails, a `panic` and a loop that does not end are values of `Fault`.
-/

open Function

namespace HardenedMinix.Ipc

open Lib

/-! ## Data -/

/-- An index of the table of privilege structures, `NR_SYS_PROCS` of them. -/
abbrev SysId := Fin 64

/-- `endpoint_t`. A number that is no process's behaves like an old generation of some slot. -/
inductive Endpoint where
  | any
  | none
  | proc (gen : Nat) (slot : ProcNr)
  deriving DecidableEq, Repr

/-- The traps of `do_sync_ipc`. -/
inductive Call where
  | send
  | receive
  | sendrec
  | notify
  | sendnb
  deriving DecidableEq, Repr

def Call.nr : Call → Nat
  | .send => 1
  | .receive => 2
  | .sendrec => 3
  | .notify => 4
  | .sendnb => 5

/-- `SENDA`. -/
def sendaNr : Nat := 16

inductive Errno where
  | ok
  | eperm
  | esrch
  | eagain
  | efault
  | einval
  | edom
  | ecalldenied
  | etrapdenied
  | edeadsrcdst
  | enotready
  | elocked
  deriving DecidableEq, Repr

inductive Fault where
  /-- `assert(caller_ptr->p_q_link == NULL)` -/
  | qLink
  /-- `assert(!(... & MF_DELIVERMSG))` -/
  | delivermsg
  /-- `okendpt` on an endpoint of no process -/
  | endpoint
  /-- the assertions on the source of a pending notification -/
  | notifySrc
  /-- the assertions on a queued sender -/
  | sender
  /-- `panic("clear_proc: empty process")` -/
  | emptyProc
  /-- the callers of `mini_send` for a process panic on an error -/
  | sendFailed
  /-- a loop that does not end -/
  | hang
  deriving DecidableEq, Repr

/-- What a message holds besides `m_source`. -/
inductive Content (β : Type) where
  | body (b : β)
  /-- `NOTIFY_FROM`, with `NOTIFY_ARG` -/
  | notify (arg : Nat)
  deriving DecidableEq, Repr

structure Message (β : Type) where
  mSource : Endpoint
  content : Content β
  deriving DecidableEq, Repr

/-- The fields of `struct proc` the message passing code uses. -/
structure IpcProc (β : Type) where
  /-- `RTS_SLOT_FREE` -/
  slotFree : Bool
  /-- `RTS_NO_ENDPOINT` -/
  noEndpoint : Bool
  /-- `RTS_SENDING` -/
  sending : Bool
  /-- `RTS_RECEIVING` -/
  receiving : Bool
  /-- `MF_REPLY_PEND` -/
  replyPend : Bool
  /-- `MF_DELIVERMSG` -/
  deliverMsg : Bool
  /-- `MF_SENDING_FROM_KERNEL` -/
  sendingFromKernel : Bool
  callerQ : Option ProcNr
  qLink : Option ProcNr
  getfromE : Endpoint
  sendtoE : Endpoint
  sendmsg : Option β
  delivermsg : Option (Message β)
  /-- `IPC_STATUS_REG` -/
  ipcStatus : Nat
  retreg : Errno
  deriving DecidableEq, Repr

instance {β : Type} : Linked (IpcProc β) nrSlots where
  next x := x.qLink
  setNext x o := { x with qLink := o }
  free x := x.slotFree
  next_setNext _ _ := rfl
  free_setNext _ _ := rfl
  setNext_next _ := rfl

/-- What happened so far; a record for the proofs, which no function reads. -/
inductive Event (β : Type) where
  /-- `mini_send` for `src` returned `OK` -/
  | sent (src dst : ProcNr) (b : β)
  /-- the message of `src` went to the `p_delivermsg` of `dst`, which accepts `frm` -/
  | placed (src dst : ProcNr) (b : β) (frm : Endpoint)
  /-- the message of `src` was taken back when `by` was cleared -/
  | dropped (cleared src dst : ProcNr) (b : β)
  /-- the bit of `src` in the map of `dst` was set and had been clear -/
  | raised (src dst : SysId)
  /-- a notification made of that bit went to the `p_delivermsg` of `p` -/
  | notified (src dst : SysId) (p : ProcNr)
  /-- the bit was taken back -/
  | lowered (src dst : SysId)
  deriving DecidableEq, Repr

/-- The process table and what changes in the privilege structures. -/
structure State (β : Type) where
  proc : ProcNr → IpcProc β
  /-- `s_notify_pending` -/
  notifyPending : SysId → SysId → Bool
  /-- `s_asyn_pending` -/
  asynPending : SysId → SysId → Bool
  /-- `s_asynsize` -/
  asynsize : SysId → Nat
  sProcNr : SysId → Option ProcNr
  /-- `s_int_pending` -/
  intPending : SysId → Nat
  /-- `s_sig_pending` -/
  sigPending : SysId → Nat
  trace : List (Event β)

/-- `HARDWARE`, `SYSTEM` and `ASYNCM`: the process numbers -1, -2 and -5. -/
def hardware : ProcNr := 4
def system : ProcNr := 3
def asyncm : ProcNr := 0

/-- `iskerneln`. -/
def isKernel (p : ProcNr) : Bool := p.val < 5

/-- What the system processes' privileges fix: endpoints, privilege structures and masks. -/
structure Conf where
  gen : ProcNr → Nat
  /-- `p_priv` -/
  priv : ProcNr → SysId
  /-- `s_ipc_to` -/
  ipcTo : SysId → SysId → Bool
  /-- `s_trap_mask` -/
  trapMask : SysId → Call → Bool
  sysProc : SysId → Bool
  /-- `set_sendto_bit`: a process does not send to itself -/
  ipcTo_self : ∀ i, ipcTo i i = false
  /-- `USR_T`: who shares a privilege structure has `SENDREC` only -/
  shared : ∀ p q, p ≠ q → priv p = priv q → ∀ t, trapMask (priv p) t = true → t = .sendrec
  /-- a kernel task has a privilege structure of its own -/
  task_priv : ∀ p q, isKernel p = true → priv p = priv q → p = q

variable {β : Type}

/-- `p_endpoint`. -/
def Conf.endpoint (c : Conf) (p : ProcNr) : Endpoint := .proc (c.gen p) p

theorem Conf.endpoint_inj (c : Conf) {p q : ProcNr} : c.endpoint p = c.endpoint q ↔ p = q := by
  constructor
  · intro h
    simp only [Conf.endpoint, Endpoint.proc.injEq] at h
    exact h.2
  · intro h
    rw [h]

@[simp] theorem Conf.endpoint_ne_any (c : Conf) (p : ProcNr) : c.endpoint p ≠ .any := by
  simp [Conf.endpoint]

@[simp] theorem Conf.endpoint_ne_none (c : Conf) (p : ProcNr) : c.endpoint p ≠ .none := by
  simp [Conf.endpoint]

def Conf.maySendTo (c : Conf) (p q : ProcNr) : Bool := c.ipcTo (c.priv p) (c.priv q)

def State.set (s : State β) (p : ProcNr) (x : IpcProc β) : State β :=
  { s with proc := update s.proc p x }

def State.log (s : State β) (es : List (Event β)) : State β :=
  { s with trace := s.trace ++ es }

def isokendpt (c : Conf) (s : State β) : Endpoint → Option ProcNr
  | .any => none
  | .none => none
  | .proc g p => if !(s.proc p).slotFree && g == c.gen p then some p else none

def willReceive (x : IpcProc β) (src : Endpoint) : Bool :=
  x.receiving && !x.sending && (x.getfromE == .any || x.getfromE == src)

/-- `P_BLOCKEDON`. -/
def blockedOn (x : IpcProc β) : Endpoint :=
  if x.sending then x.sendtoE else if x.receiving then x.getfromE else .none

/-- The bits of `p_rts_flags` as a number. -/
def rtsFlags (x : IpcProc β) : Nat :=
  (if x.slotFree then 0x01 else 0) ||| (if x.sending then 0x04 else 0) |||
    (if x.receiving then 0x08 else 0) ||| (if x.noEndpoint then 0x100 else 0)

/-- `IPC_STATUS_ADD`. -/
def addStatus (x : IpcProc β) (m : Nat) : IpcProc β :=
  if x.replyPend then x else { x with ipcStatus := x.ipcStatus ||| m }

/-- `IPC_STATUS_ADD_FLAGS(p, IPC_FLG_MSG_FROM_KERNEL)`. -/
def addFromKernel (x : IpcProc β) : IpcProc β := addStatus x (1 <<< 16)

/-- The loop of `deadlock`, from the endpoint `e` with `groupSize` processes so far. -/
def deadlockFrom (c : Conf) (s : State β) (function : Call) (cp : ProcNr) :
    Nat → Endpoint → Nat → Except Fault Nat
  | _, .any, _ => .ok 0
  | 0, _, _ => .error .hang
  | fuel + 1, e, groupSize =>
    match isokendpt c s e with
    | none => .error .endpoint
    | some x =>
      let xp := s.proc x
      let groupSize := groupSize + 1
      let e := blockedOn xp
      if e = .none then .ok 0
      else if e = c.endpoint cp then
        -- "The function number is magically converted to flags."
        if groupSize = 2 ∧ (rtsFlags xp ^^^ (function.nr <<< 2)) &&& 0x04 ≠ 0 then .ok 0
        else .ok groupSize
      else deadlockFrom c s function cp fuel e groupSize

def deadlock (c : Conf) (s : State β) (function : Call) (cp : ProcNr) (e : Endpoint) :
    Except Fault Nat :=
  deadlockFrom c s function cp (nrSlots + 1) e 1

/-! ## Sending -/

structure SendFlags where
  nonBlocking : Bool
  fromKernel : Bool
  deriving DecidableEq, Repr

/-- The destination is waiting: the message goes to it at once. -/
def directSend (c : Conf) (s : State β) (caller d : ProcNr) (b : β) (flags : SendFlags) :
    State β :=
  let call := if (s.proc caller).replyPend then Call.sendrec
    else if flags.nonBlocking then Call.sendnb else Call.send
  let x := s.proc d
  let x₁ := if flags.fromKernel then addFromKernel x else x
  let x₂ := addStatus { x₁ with
    delivermsg := some ⟨c.endpoint caller, .body b⟩
    deliverMsg := true } call.nr
  (s.set d { x₂ with replyPend := false, receiving := false }).log
    [.sent caller d b, .placed caller d b x.getfromE]

/-- The destination is not waiting: the caller is blocked and put on its queue. -/
def queueSend (s : State β) (caller d : ProcNr) (dstE : Endpoint) (b : β) (flags : SendFlags) :
    Except Fault (State β) :=
  let x := s.proc caller
  let s₁ := s.set caller { x with
    sendmsg := some b
    sendingFromKernel := x.sendingFromKernel || flags.fromKernel
    sending := true
    sendtoE := dstE }
  if (s₁.proc caller).qLink ≠ none then .error .qLink
  else
    match enqueueLast s₁.proc (s₁.proc d).callerQ caller with
    | none => .error .hang
    | some (t, q) =>
      .ok ({ s₁ with proc := update t d { t d with callerQ := q } }.log
        [.sent caller d b])

/-- `mini_send`. `m` is what `copy_msg_from_user` finds, `none` if it faults. -/
def miniSend (c : Conf) (s : State β) (caller : ProcNr) (dstE : Endpoint) (m : Option β)
    (flags : SendFlags) : Except Fault (State β × Errno) :=
  match dstE with
  | .any => .error .endpoint
  | .none => .error .endpoint
  | .proc _ d =>
    if (s.proc d).noEndpoint then .ok (s, .edeadsrcdst)
    else if willReceive (s.proc d) (c.endpoint caller) then
      if (s.proc d).deliverMsg then .error .delivermsg
      else
        match m with
        | none => .ok (s, .efault)
        | some b => .ok (directSend c s caller d b flags, .ok)
    else if flags.nonBlocking then .ok (s, .enotready)
    else do
      let group ← deadlock c s .send caller dstE
      if group ≠ 0 then return (s, .elocked)
      match m with
      | none => return (s, .efault)
      | some b =>
        let s' ← queueSend s caller d dstE b flags
        return (s', .ok)

/-! ## Notifications -/

/-- `BuildNotifyMessage`: `NOTIFY_ARG`, and what is left pending in the structure of the
destination. -/
def buildNotify (s : State β) (src : ProcNr) (dst : SysId) : Nat × State β :=
  if src = hardware then
    (s.intPending dst, { s with intPending := update s.intPending dst 0 })
  else if src = system then
    (s.sigPending dst, { s with sigPending := update s.sigPending dst 0 })
  else (0, s)

/-- A notification of `src` goes to the `p_delivermsg` of `p`. -/
def deliverNotify (c : Conf) (s : State β) (src p : ProcNr) : State β :=
  let (arg, s₁) := buildNotify s src (c.priv p)
  s₁.set p (addStatus { s₁.proc p with
    delivermsg := some ⟨c.endpoint src, .notify arg⟩
    deliverMsg := true } Call.notify.nr)

/-- `set_sys_bit` on `s_notify_pending`. -/
def raiseNotify (s : State β) (src dst : SysId) : State β :=
  { s with
    notifyPending := update s.notifyPending dst
      (update (s.notifyPending dst) src true)
    trace := s.trace ++ (if s.notifyPending dst src then [] else [.raised src dst]) }

/-- `unset_sys_bit` on `s_notify_pending`. -/
def lowerNotify (s : State β) (src dst : SysId) : State β :=
  { s with
    notifyPending := update s.notifyPending dst
      (update (s.notifyPending dst) src false) }

def miniNotify (c : Conf) (s : State β) (src : ProcNr) (dstE : Endpoint) :
    Except Fault (State β × Errno) :=
  match isokendpt c s dstE with
  | none => .ok (s, .edeadsrcdst)
  | some d =>
    if willReceive (s.proc d) (c.endpoint src) && !(s.proc d).replyPend then
      if (s.proc d).deliverMsg then .error .delivermsg
      else
        let s₁ := deliverNotify c s src d
        .ok (s₁.set d { s₁.proc d with receiving := false }, .ok)
    else .ok (raiseNotify s (c.priv src) (c.priv d), .ok)

/-- `has_pending` on the map of one privilege structure. -/
def hasPending (c : Conf) (map : SysId → Bool) : Option ProcNr → Option SysId
  | some src => if map (c.priv src) then some (c.priv src) else none
  | none => (List.finRange 64).find? map

/-! ## Asynchronous messages -/

/-- The flags of an entry of an asynchronous send table. -/
structure AmFlags where
  valid : Bool
  done : Bool
  notify : Bool
  noreply : Bool
  notifyErr : Bool
  /-- any other bit -/
  unknown : Bool
  deriving DecidableEq, Repr

def AmFlags.isEmpty (f : AmFlags) : Bool :=
  !(f.valid || f.done || f.notify || f.noreply || f.notifyErr || f.unknown)

structure AsynMsg (β : Type) where
  flags : AmFlags
  dst : Endpoint
  msg : β

/-- The send tables during one call: memory of their processes, which may rewrite them between
calls. -/
structure Tables (β : Type) where
  /-- `A_RETR`; `none` is a fault -/
  retr : ProcNr → Nat → Option (AsynMsg β)
  /-- `A_INSRT` succeeds -/
  insrt : ProcNr → Nat → Bool

/-- An asynchronous message goes to the `p_delivermsg` of `d`. -/
def deliverAsyn (c : Conf) (s : State β) (src d : ProcNr) (b : β) : State β :=
  s.set d { s.proc d with delivermsg := some ⟨c.endpoint src, .body b⟩, deliverMsg := true }

/-- Set or clear the bit of `src` in `s_asyn_pending` of `dst`. -/
def setAsyn (s : State β) (src dst : SysId) (v : Bool) : State β :=
  { s with
    asynPending := update s.asynPending dst
      (update (s.asynPending dst) src v) }

/-- `s_asynsize`. -/
def setAsynsize (s : State β) (i : SysId) (size : Nat) : State β :=
  { s with asynsize := update s.asynsize i size }

/-- The checks of `try_deliver_senda` on the destination of an entry. -/
def asynDest (c : Conf) (s : State β) (caller : ProcNr) (dst : Endpoint) : Errno × ProcNr :=
  match isokendpt c s dst with
  | none => (.edeadsrcdst, caller)
  | some d =>
    if isKernel d then (.ecalldenied, d)
    else if !c.maySendTo caller d then (.ecalldenied, d)
    else if (s.proc d).noEndpoint then (.edeadsrcdst, d)
    else (.ok, d)

/-- `do_notify` after the result `r` of an entry has been stored. -/
def storeNotify (doNotify : Bool) (flags : AmFlags) (r : Errno) : Bool :=
  doNotify || flags.notify || (r != .ok && flags.notifyErr)

/-- One turn of the loop of `try_deliver_senda`, on the state, `do_notify` and `done`. -/
def sendaEntry (c : Conf) (tabs : Tables β) (caller : ProcNr) (a : State β × Bool × Bool)
    (i : Nat) : State β × Bool × Bool :=
  let (s, doNotify, done) := a
  match tabs.retr caller i with
  | none => a
  | some ent =>
    if ent.flags.isEmpty || ent.flags.unknown || !ent.flags.valid || ent.flags.done then a
    else
      let (r, d) := asynDest c s caller ent.dst
      if r = .ok && willReceive (s.proc d) (c.endpoint caller) &&
          (!ent.flags.noreply || !(s.proc d).replyPend) then
        let s₁ := deliverAsyn c s caller d ent.msg
        let s₂ := s₁.set d { addStatus (s₁.proc d) sendaNr with receiving := false }
        (s₂, storeNotify doNotify ent.flags r, done)
      else if r = .ok then
        (setAsyn s (c.priv caller) (c.priv d) true, doNotify, false)
      else (s, storeNotify doNotify ent.flags r, done)

/-- `mini_notify(proc_addr(ASYNCM), p->p_endpoint)` if `do_notify`. -/
def notifyAsyncm (c : Conf) (s : State β) (doNotify : Bool) (p : ProcNr) :
    Except Fault (State β) :=
  if doNotify then do
    let (s, _) ← miniNotify c s asyncm (c.endpoint p)
    return s
  else .ok s

def tryDeliverSenda (c : Conf) (s : State β) (caller : ProcNr) (size : Nat) (tabs : Tables β) :
    Except Fault (State β × Errno) :=
  let s := setAsynsize s (c.priv caller) 0
  if size = 0 then .ok (s, .ok)
  else if size > 16 * nrSlots then .ok (s, .edom)
  else
    let (s, doNotify, done) := (List.range size).foldl (sendaEntry c tabs caller) (s, false, true)
    do
      let s ← notifyAsyncm c s doNotify caller
      return (if done then s else setAsynsize s (c.priv caller) size, .ok)

def miniSenda (c : Conf) (s : State β) (caller : ProcNr) (size : Nat) (tabs : Tables β) :
    Except Fault (State β × Errno) :=
  if !c.sysProc (c.priv caller) then .ok (s, .eperm)
  else tryDeliverSenda c s caller size tabs

/-- How the loop of `try_one` ends. -/
inductive Scan (β : Type) where
  /-- `goto asyn_error` -/
  | error (s : State β)
  /-- the loop ran to its end or to the `break` -/
  | finished (s : State β) (r : Errno) (doNotify done : Bool)

/-- The loop of `try_one` from the entry `i`, `left` entries before the end. -/
def tryOneLoop (c : Conf) (s : State β) (src dst : ProcNr) (tabs : Tables β) :
    Nat → Nat → Bool → Scan β
  | 0, _, done => .finished s .eagain false done
  | left + 1, i, done =>
    match tabs.retr src i with
    | none => .error s
    | some ent =>
      if ent.flags.isEmpty then tryOneLoop c s src dst tabs left (i + 1) done
      else if ent.flags.unknown || !ent.flags.valid then
        -- `store_result` with `EINVAL`
        if tabs.insrt src i then
          .finished s .einval (storeNotify false ent.flags .einval) false
        else .error s
      else if ent.flags.done then tryOneLoop c s src dst tabs left (i + 1) done
      else if ent.dst ≠ c.endpoint dst then tryOneLoop c s src dst tabs left (i + 1) false
      else if ent.flags.noreply && (s.proc dst).replyPend then
        tryOneLoop c s src dst tabs left (i + 1) false
      else
        let s₁ := deliverAsyn c s src dst ent.msg
        if tabs.insrt src i then .finished s₁ .ok (storeNotify false ent.flags .ok) false
        else .error s₁

def tryOne (c : Conf) (s : State β) (src dst : ProcNr) (tabs : Tables β) :
    Except Fault (State β × Errno) :=
  if !c.sysProc (c.priv src) then .ok (s, .eperm)
  else
    let size := s.asynsize (c.priv src)
    let s := setAsyn s (c.priv src) (c.priv dst) false
    if size = 0 then .ok (s, .eagain)
    else if !c.maySendTo src dst then .ok (s, .ecalldenied)
    else
      match tryOneLoop c s src dst tabs size 0 true with
      | .error s => .ok (s, .efault)
      | .finished s r doNotify done => do
        let s ← notifyAsyncm c s doNotify src
        if done then return (setAsynsize s (c.priv src) 0, r)
        else return (setAsyn s (c.priv src) (c.priv dst) true, r)

/-- The privilege structures `ids` in turn. -/
def tryAsync (c : Conf) (dst : ProcNr) (tabs : Tables β) :
    List SysId → State β → Except Fault (State β × Errno)
  | [], s => .ok (s, .esrch)
  | i :: ids, s =>
    match s.sProcNr i with
    | none => tryAsync c dst tabs ids s
    | some src =>
      if !s.asynPending (c.priv dst) i then tryAsync c dst tabs ids s
      else if (s.proc dst).deliverMsg then .error .delivermsg
      else do
        let (s, r) ← tryOne c s src dst tabs
        if r = .ok then return (s, .ok)
        else tryAsync c dst tabs ids s

/-- The loop of `cancel_async` from the entry `i`: `do_notify` and `done`, `none` at
`goto asyn_error`. -/
def cancelLoop (c : Conf) (src dst : ProcNr) (tabs : Tables β) :
    Nat → Nat → Bool → Bool → Option (Bool × Bool)
  | 0, _, doNotify, done => some (doNotify, done)
  | left + 1, i, doNotify, done =>
    match tabs.retr src i with
    | none => none
    | some ent =>
      let bad := ent.flags.unknown || !ent.flags.valid
      if ent.flags.isEmpty || (!bad && ent.flags.done) then
        cancelLoop c src dst tabs left (i + 1) doNotify done
      else if ent.dst ≠ c.endpoint dst then cancelLoop c src dst tabs left (i + 1) doNotify false
      else
        let r := if bad then Errno.einval else .edeadsrcdst
        if tabs.insrt src i then
          cancelLoop c src dst tabs left (i + 1) (storeNotify doNotify ent.flags r) done
        else none

def cancelAsync (c : Conf) (s : State β) (src dst : ProcNr) (tabs : Tables β) :
    Except Fault (State β) :=
  if !c.sysProc (c.priv src) then .ok s
  else
    let size := s.asynsize (c.priv src)
    let s := setAsyn (setAsynsize s (c.priv src) 0) (c.priv src) (c.priv dst) false
    if size = 0 then .ok s
    else if !c.maySendTo src dst then .ok s
    else
      match cancelLoop c src dst tabs size 0 false true with
      | none => .ok s
      | some (doNotify, done) => do
        let s ← notifyAsyncm c s doNotify src
        return (if done then s else setAsynsize s (c.priv src) size)

/-! ## Receiving -/

/-- `q` is taken off the queue of `caller`: its message is copied and it is freed. -/
def takeQueued (c : Conf) (s : State β) (caller q : ProcNr) (frm : Endpoint) (b : β)
    (t : ProcNr → IpcProc β) (head : Option ProcNr) : State β :=
  let x := s.proc q
  let call := if x.replyPend then Call.sendrec else Call.send
  let t₁ := update t caller { t caller with callerQ := head }
  let t₂ := update t₁ q { t₁ q with
    sending := false, sendingFromKernel := false, qLink := none }
  let y := addStatus { t₂ caller with
    delivermsg := some ⟨c.endpoint q, .body b⟩
    deliverMsg := true } call.nr
  let y₁ := if x.sendingFromKernel then addFromKernel y else y
  { s with
    proc := update t₂ caller y₁
    trace := s.trace ++ [.placed q caller b frm] }

def receiveDone (s : State β) (caller : ProcNr) : State β :=
  s.set caller { s.proc caller with replyPend := false }

/-- The caller blocks, unless that is a deadlock. -/
def blockReceive (c : Conf) (s : State β) (caller : ProcNr) (srcE : Endpoint)
    (nonBlocking : Bool) : Except Fault (State β × Errno) :=
  if nonBlocking then .ok (s, .enotready)
  else do
    let group ← deadlock c s .receive caller srcE
    if group ≠ 0 then return (s, .elocked)
    return (s.set caller { s.proc caller with getfromE := srcE, receiving := true }, .ok)

/-- The pending notification of the structure `i` is delivered to `caller`. -/
def takeNotify (c : Conf) (s : State β) (caller : ProcNr) (srcE : Endpoint) (i : SysId) :
    Except Fault (State β) :=
  match s.sProcNr i with
  | none => .error .notifySrc
  | some q =>
    if (s.proc caller).deliverMsg then .error .delivermsg
    else if srcE ≠ .any ∧ c.endpoint q ≠ srcE then .error .notifySrc
    else
      let s₁ := deliverNotify c (lowerNotify s i (c.priv caller)) q caller
      .ok (s₁.log [.notified i (c.priv caller) caller])

/-- `src_e == ANY || src_p == proc_nr(sender)`. -/
def accepts (src : Option ProcNr) (sender : ProcNr) : Bool := src.isNone || src == some sender

/-- The caller queue: the first acceptable sender, or the caller blocks. -/
def receiveQueued (c : Conf) (s : State β) (caller : ProcNr) (srcE : Endpoint)
    (src : Option ProcNr) (nonBlocking : Bool) : Except Fault (State β × Errno) :=
  match unlinkFirst s.proc (accepts src) (s.proc caller).callerQ with
  | none => .error .hang
  | some none => blockReceive c s caller srcE nonBlocking
  | some (some (q, t, head)) =>
    if (s.proc q).slotFree || (s.proc q).noEndpoint then .error .sender
    else if (s.proc caller).deliverMsg then .error .delivermsg
    else
      match (s.proc q).sendmsg with
      | none => .error .sender
      | some b => .ok (receiveDone (takeQueued c s caller q srcE b t head) caller, .ok)

/-- `try_one` for a given source, else `try_async`. -/
def tryPending (c : Conf) (s : State β) (caller : ProcNr) (src : Option ProcNr)
    (tabs : Tables β) : Except Fault (State β × Errno) :=
  match src with
  | some q => tryOne c s q caller tabs
  | none => tryAsync c caller tabs (List.finRange 64) s

/-- The pending asynchronous messages, then the caller queue. -/
def receiveAsyn (c : Conf) (s : State β) (caller : ProcNr) (srcE : Endpoint)
    (src : Option ProcNr) (nonBlocking : Bool) (tabs : Tables β) :
    Except Fault (State β × Errno) :=
  match hasPending c (s.asynPending (c.priv caller)) src with
  | none => receiveQueued c s caller srcE src nonBlocking
  | some _ => do
    let (s₁, r) ← tryPending c s caller src tabs
    if r = .ok then
      let s₂ := s₁.set caller (addStatus (s₁.proc caller) sendaNr)
      return (receiveDone s₂ caller, .ok)
    else receiveQueued c s₁ caller srcE src nonBlocking

/-- `mini_receive` once the source is known to be a process, or is `ANY`. -/
def receiveFrom (c : Conf) (s : State β) (caller : ProcNr) (srcE : Endpoint)
    (src : Option ProcNr) (nonBlocking : Bool) (tabs : Tables β) :
    Except Fault (State β × Errno) :=
  -- `RTS_SENDING` is set if `SENDREC` could not send
  if (s.proc caller).sending then blockReceive c s caller srcE nonBlocking
  else if (s.proc caller).replyPend then receiveAsyn c s caller srcE src nonBlocking tabs
  else
    match hasPending c (s.notifyPending (c.priv caller)) src with
    | none => receiveAsyn c s caller srcE src nonBlocking tabs
    | some i => do
      let s₁ ← takeNotify c s caller srcE i
      return (receiveDone s₁ caller, .ok)

def miniReceive (c : Conf) (s : State β) (caller : ProcNr) (srcE : Endpoint)
    (nonBlocking : Bool) (tabs : Tables β) : Except Fault (State β × Errno) :=
  if (s.proc caller).deliverMsg then .error .delivermsg
  else if srcE = .any then receiveFrom c s caller srcE none nonBlocking tabs
  else
    match isokendpt c s srcE with
    | none => .error .endpoint
    | some q =>
      if (s.proc q).noEndpoint then .ok (s, .edeadsrcdst)
      else receiveFrom c s caller srcE (some q) nonBlocking tabs

/-! ## The traps -/

/-- The `switch` of `do_sync_ipc`. -/
def syncCall (c : Conf) (s : State β) (caller : ProcNr) (call : Call) (e : Endpoint)
    (m : Option β) (tabs : Tables β) : Except Fault (State β × Errno) :=
  match call with
  | .send => miniSend c s caller e m ⟨false, false⟩
  | .sendnb => miniSend c s caller e m ⟨true, false⟩
  | .notify => miniNotify c s caller e
  | .receive =>
    miniReceive c (s.set caller { s.proc caller with replyPend := false, ipcStatus := 0 })
      caller e false tabs
  | .sendrec => do
    let (s₁, r) ← miniSend c (s.set caller { s.proc caller with replyPend := true })
      caller e m ⟨false, false⟩
    if r ≠ .ok then return (s₁, r)
    miniReceive c s₁ caller e false tabs

def doSyncIpc (c : Conf) (s : State β) (caller : ProcNr) (call : Call) (e : Endpoint)
    (m : Option β) (tabs : Tables β) : Except Fault (State β × Errno) :=
  if e = .any then
    if call ≠ .receive then .ok (s, .einval)
    else if !c.trapMask (c.priv caller) call then .ok (s, .etrapdenied)
    else syncCall c s caller call e m tabs
  else
    match isokendpt c s e with
    | none => .ok (s, .edeadsrcdst)
    | some d =>
      if call ≠ .receive ∧ !c.maySendTo caller d then .ok (s, .ecalldenied)
      else if !c.trapMask (c.priv caller) call then .ok (s, .etrapdenied)
      else if call ≠ .sendrec ∧ call ≠ .receive ∧ isKernel d then .ok (s, .etrapdenied)
      else syncCall c s caller call e m tabs

/-- The branch of `do_ipc` for `SENDA`. -/
def doSenda (c : Conf) (s : State β) (caller : ProcNr) (size : Nat) (tabs : Tables β) :
    Except Fault (State β × Errno) :=
  if size > 16 * nrSlots then .ok (s, .edom) else miniSenda c s caller size tabs

/-! ## Clearing -/

/-- `clear_ipc(rc)`, while the references to `cleared` are cleared. -/
def clearIpc (c : Conf) (s : State β) (cleared rc : ProcNr) : Except Fault (State β) :=
  if (s.proc rc).sending then
    match isokendpt c s (s.proc rc).sendtoE with
    | none => .error .endpoint
    | some d =>
      match unlinkFirst s.proc (· == rc) (s.proc d).callerQ with
      | none => .error .hang
      | some none =>
        .ok (s.set rc { s.proc rc with sending := false, receiving := false })
      | some (some (_, t, head)) =>
        let t₁ := update t d { t d with callerQ := head }
        .ok { s with
          proc := update t₁ rc { t₁ rc with sending := false, receiving := false }
          trace := s.trace ++
            ((s.proc rc).sendmsg.toList.map (Event.dropped cleared rc d)) }
  else .ok (s.set rc { s.proc rc with receiving := false })

/-- The loop of `clear_ipc_refs` that cancels the asynchronous messages to `rc`. -/
def cancelAll (c : Conf) (rc : ProcNr) (tabs : Tables β) :
    Nat → State β → Except Fault (State β)
  | 0, _ => .error .hang
  | fuel + 1, s =>
    match hasPending c (s.asynPending (c.priv rc)) none with
    | none => .ok s
    | some i =>
      match s.sProcNr i with
      | none => .error .endpoint
      | some src => do
        let s ← cancelAsync c s src rc tabs
        cancelAll c rc tabs fuel s

/-- The bits of `rc` in the maps of `rp` are cleared. -/
def unsetPending (c : Conf) (s : State β) (rc rp : ProcNr) : State β :=
  let lowered := s.notifyPending (c.priv rp) (c.priv rc)
  let s₁ := lowerNotify s (c.priv rc) (c.priv rp)
  let s₂ := s₁.log (if lowered then [.lowered (c.priv rc) (c.priv rp)] else [])
  setAsyn s₂ (c.priv rc) (c.priv rp) false

/-- One turn of the loop of `clear_ipc_refs` over the process table. -/
def clearRef (c : Conf) (rc : ProcNr) (callerRet : Errno) (s : State β) (rp : ProcNr) :
    Except Fault (State β) :=
  if (s.proc rp).slotFree then .ok s
  else
    let s₁ := unsetPending c s rc rp
    if blockedOn (s₁.proc rp) = c.endpoint rc then
      clearIpc c (s₁.set rp { s₁.proc rp with retreg := callerRet }) rc rp
    else .ok s₁

def clearIpcRefs (c : Conf) (s : State β) (rc : ProcNr) (callerRet : Errno)
    (tabs : Tables β) : Except Fault (State β) := do
  let s₁ ← cancelAll c rc tabs 65 s
  (List.finRange nrSlots).foldlM (clearRef c rc callerRet) s₁

def clearEndpoint (c : Conf) (s : State β) (rc : ProcNr) (tabs : Tables β) :
    Except Fault (State β) :=
  if (s.proc rc).slotFree then .error .emptyProc
  else do
    let s₁ := s.set rc { s.proc rc with noEndpoint := true }
    let s₂ := if c.sysProc (c.priv rc) then setAsynsize s₁ (c.priv rc) 0 else s₁
    let s₃ ← clearIpc c s₂ rc rc
    clearIpcRefs c s₃ rc .edeadsrcdst tabs

/-- The message passing part of `do_clear`. -/
def doClear (c : Conf) (s : State β) (rc : ProcNr) (tabs : Tables β) :
    Except Fault (State β) :=
  if (s.proc rc).slotFree then .ok s
  else do
    let s₁ ← clearEndpoint c s rc tabs
    -- `RTS_SETFLAGS(rc, RTS_SLOT_FREE)`
    let s₂ := s₁.set rc { s₁.proc rc with
      slotFree := true, noEndpoint := false, sending := false, receiving := false }
    return (if c.sysProc (c.priv rc) then
      { s₂ with sProcNr := update s₂.sProcNr (c.priv rc) none } else s₂)

/-! ## Runs -/

/-- The process is in user mode or about to return to it. -/
def State.running (s : State β) (p : ProcNr) : Prop :=
  (s.proc p).slotFree = false ∧ (s.proc p).noEndpoint = false ∧ (s.proc p).sending = false ∧
    (s.proc p).receiving = false

instance (s : State β) (p : ProcNr) : Decidable (s.running p) :=
  inferInstanceAs (Decidable (_ ∧ _ ∧ _ ∧ _))

inductive Op (β : Type) where
  /-- a synchronous trap -/
  | ipc (p : ProcNr) (call : Call) (e : Endpoint) (m : Option β) (tabs : Tables β)
  | senda (p : ProcNr) (size : Nat) (tabs : Tables β)
  /-- `mini_send(p, d, m, FROM_KERNEL)`: page faults, quanta, `do_hardening` -/
  | kernelSend (p d : ProcNr) (b : β)
  /-- `mini_notify` by a kernel task: interrupts, alarms, signals -/
  | kernelNotify (task : ProcNr) (e : Endpoint)
  /-- `delivermsg`, on the way back to user mode -/
  | delivermsg (p : ProcNr)
  | clearEndpoint (p : ProcNr) (tabs : Tables β)
  /-- the call of `do_statectl` -/
  | clearIpcRefs (p : ProcNr) (tabs : Tables β)
  | doClear (p : ProcNr) (tabs : Tables β)

def Op.Enabled (s : State β) : Op β → Prop
  -- `switch_to_user` delivers a message before the process runs on
  | .ipc p _ _ _ _ => s.running p ∧ (s.proc p).deliverMsg = false
  | .senda p _ _ => s.running p ∧ (s.proc p).deliverMsg = false
  | .kernelSend p d _ => (s.proc p).slotFree = false ∧ (s.proc d).slotFree = false
  | .kernelNotify t _ => isKernel t = true
  | .delivermsg p => s.running p
  | .clearEndpoint p _ => (s.proc p).slotFree = false
  | .clearIpcRefs p _ => (s.proc p).slotFree = false
  | .doClear _ _ => True

/-- The result of a trap goes to the return register. -/
def setRetreg (s : State β) (p : ProcNr) (r : Errno) : State β :=
  s.set p { s.proc p with retreg := r }

def step (c : Conf) (s : State β) : Op β → Except Fault (State β)
  | .ipc p call e m tabs => do
    let (s, r) ← doSyncIpc c s p call e m tabs
    return setRetreg s p r
  | .senda p size tabs => do
    let (s, r) ← doSenda c s p size tabs
    return setRetreg s p r
  | .kernelSend p d b => do
    let (s, r) ← miniSend c s p (c.endpoint d) (some b) ⟨false, true⟩
    if r ≠ .ok then .error .sendFailed else return s
  | .kernelNotify t e => do
    let (s, _) ← miniNotify c s t e
    return s
  | .delivermsg p => .ok (s.set p { s.proc p with deliverMsg := false })
  | .clearEndpoint p tabs => clearEndpoint c s p tabs
  | .clearIpcRefs p tabs => clearIpcRefs c s p .edeadsrcdst tabs
  | .doClear p tabs => doClear c s p tabs

structure Boot (s : State β) : Prop where
  sending : ∀ p, (s.proc p).sending = false
  receiving : ∀ p, (s.proc p).receiving = false
  callerQ : ∀ p, (s.proc p).callerQ = none
  qLink : ∀ p, (s.proc p).qLink = none
  notifyPending : ∀ i j, s.notifyPending i j = false
  trace : s.trace = []

/-- The states of the runs whose operations all meet `Cond` in the state they start from. -/
inductive Reachable (c : Conf) (Cond : State β → Op β → Prop) : State β → Prop where
  | boot {s : State β} : Boot s → Reachable c Cond s
  | step {s s' : State β} {op : Op β} : Reachable c Cond s → op.Enabled s → Cond s op →
      step c s op = .ok s' → Reachable c Cond s'

instance (s : State β) : (op : Op β) → Decidable (op.Enabled s)
  | .ipc p _ _ _ _ => inferInstanceAs (Decidable (s.running p ∧ (s.proc p).deliverMsg = false))
  | .senda p _ _ => inferInstanceAs (Decidable (s.running p ∧ (s.proc p).deliverMsg = false))
  | .kernelSend p d _ =>
    inferInstanceAs (Decidable ((s.proc p).slotFree = false ∧ (s.proc d).slotFree = false))
  | .kernelNotify t _ => inferInstanceAs (Decidable (isKernel t = true))
  | .delivermsg p => inferInstanceAs (Decidable (s.running p))
  | .clearEndpoint p _ => inferInstanceAs (Decidable ((s.proc p).slotFree = false))
  | .clearIpcRefs p _ => inferInstanceAs (Decidable ((s.proc p).slotFree = false))
  | .doClear _ _ => inferInstanceAs (Decidable True)

/-- A sequence of operations; `none` if one of them cannot take place, does not meet `Cond` or
stops the kernel. -/
def runOps (c : Conf) (Cond : State β → Op β → Prop) [∀ s op, Decidable (Cond s op)] :
    State β → List (Op β) → Option (State β)
  | s, [] => some s
  | s, op :: ops =>
    if op.Enabled s ∧ Cond s op then
      match step c s op with
      | .ok s' => runOps c Cond s' ops
      | .error _ => none
    else none

theorem Reachable.runOps {c : Conf} {Cond : State β → Op β → Prop}
    [∀ s op, Decidable (Cond s op)] {s s' : State β} {ops : List (Op β)}
    (hs : Reachable c Cond s) (h : runOps c Cond s ops = some s') : Reachable c Cond s' := by
  induction ops generalizing s with
  | nil =>
    cases h
    exact hs
  | cons op ops ih =>
    unfold Ipc.runOps at h
    split at h
    case isTrue hop =>
      split at h
      case h_1 s1 hstep => exact ih (.step hs hop.1 hop.2 hstep) h
      case h_2 => cases h
    case isFalse => cases h

end HardenedMinix.Ipc
