import HardenedMinix.Lib.Runs

/-!
# Pipes

`pipe_check`, `suspend`, `release` and `revive`, `rw_pipe` with restarts, `close_filp` and the
part of `select` about pipes. A call works on a pipe under its exclusive lock, so it is one step.
-/

open Function

namespace HardenedMinix.Pipe

open Lib

/-! ## Data -/

/-- `NR_PROCS`, `NR_FILPS` and `MAXSELECTS`. -/
def nrProcs : Nat := 256
def nrFilps : Nat := 512
def maxSelects : Nat := 25

instance : NeZero nrProcs := ⟨by decide⟩

instance : NeZero nrFilps := ⟨by decide⟩

abbrev Slot := Fin nrProcs
abbrev FilpPtr := Fin nrFilps
abbrev SelSlot := Fin maxSelects
abbrev VnodePtr := Nat
abbrev Byte := UInt8

/-- `PIPE_BUF` and `SSIZE_MAX`. -/
def pipeBuf : Int := 32768
def ssizeMax : Nat := 2147483647

/-- A sum of type `int`. -/
def int32 (x : Int) : Int := (x + 2147483648) % 4294967296 - 2147483648

/-- `READING` and `WRITING`. -/
inductive Rw where
  | reading
  | writing
  deriving DecidableEq

/-- The call number, as far as `release` tells them apart. -/
inductive CallNr where
  | read
  | write
  | open
  | creat
  | other
  deriving DecidableEq

def Rw.callNr : Rw → CallNr
  | .reading => .read
  | .writing => .write

/-- `SEL_RD`, `SEL_WR` and `SEL_ERR`. -/
structure Ops where
  rd : Bool
  wr : Bool
  err : Bool
  deriving DecidableEq

namespace Ops

def none : Ops := ⟨false, false, false⟩

def inter (a b : Ops) : Ops := ⟨a.rd && b.rd, a.wr && b.wr, a.err && b.err⟩

def union (a b : Ops) : Ops := ⟨a.rd || b.rd, a.wr || b.wr, a.err || b.err⟩

def diff (a b : Ops) : Ops := ⟨a.rd && !b.rd, a.wr && !b.wr, a.err && !b.err⟩

def card (a : Ops) : Nat := a.rd.toNat + a.wr.toNat + a.err.toNat

end Ops

/-- The operation of a select that a reader or a writer waits for. -/
def CallNr.selop : CallNr → Ops
  | .read => ⟨true, false, false⟩
  | .write => ⟨false, true, false⟩
  | _ => Ops.none

inductive Err where
  | eagain
  | epipe
  | einval
  | ebadf
  | enospc
  deriving DecidableEq, Repr

inductive Result where
  | suspend
  | val (n : Int)
  | err (e : Err)
  deriving DecidableEq

/-- `fp_blocked_on`. -/
inductive BlockedOn where
  | none
  | pipe
  | lock
  | popen
  | select
  | dopen
  | other
  deriving DecidableEq

/-- `struct filp` of a pipe. -/
structure Filp where
  count : Int
  vno : VnodePtr
  rBit : Bool
  wBit : Bool
  nonblock : Bool
  selectors : Int
  selectOps : Ops
  pipeSelectOps : Ops

/-- The pipe's vnode, and what the pipe file server holds for it. -/
structure Vnode where
  size : Int
  content : List Byte

/-- `scratch(fp).file`: a descriptor, and the filp it stands for, or a filp. -/
inductive Scratch where
  | fd (nr : Nat) (f : Option FilpPtr)
  | filp (f : Option FilpPtr)

/-- `struct fproc` and `scratch(fp)`; the buffer is what is still to be written. -/
structure Fproc where
  used : Bool
  blockedOn : BlockedOn
  revived : Bool
  blockCallnr : CallNr
  cumIoPartial : Int
  file : Scratch
  ioBuffer : List Byte
  ioNbytes : Nat

structure SelFd where
  filp : Option FilpPtr
  want : Ops
  ready : Ops

structure SelectEntry where
  requestor : Option Slot
  fds : List SelFd
  nreadyfds : Nat
  block : Bool

/-- What happens, in its order; a record for the proofs. -/
inductive Event where
  | reads (p : Slot) (v : VnodePtr)
  | writes (p : Slot) (v : VnodePtr) (data : List Byte)
  /-- the file server has appended bytes for a writer -/
  | accepted (p : Slot) (v : VnodePtr) (bytes : List Byte)
  /-- the file server has given bytes to a reader -/
  | consumed (p : Slot) (v : VnodePtr) (bytes : List Byte)
  | replied (p : Slot) (r : Result)
  | sigpipe (p : Slot)

structure State where
  filp : FilpPtr → Filp
  vnode : VnodePtr → Vnode
  fproc : Slot → Fproc
  /-- how many descriptors of the process are the filp -/
  fds : Slot → FilpPtr → Nat
  suspCount : Int
  reviving : Int
  selecttab : SelSlot → SelectEntry
  log : List Event

namespace State

def note (s : State) (e : Event) : State := { s with log := s.log ++ [e] }

def setFilp (s : State) (f : FilpPtr) (x : Filp) : State :=
  { s with filp := update s.filp f x }

def setVnode (s : State) (v : VnodePtr) (x : Vnode) : State :=
  { s with vnode := update s.vnode v x }

def setProc (s : State) (p : Slot) (x : Fproc) : State :=
  { s with fproc := update s.fproc p x }

def setSel (s : State) (k : SelSlot) (x : SelectEntry) : State :=
  { s with selecttab := update s.selecttab k x }

end State

def FindFilp (s : State) (v : VnodePtr) (rw : Rw) : Prop :=
  ∃ f, (s.filp f).count ≠ 0 ∧ (s.filp f).vno = v ∧
    (match rw with
      | .reading => (s.filp f).rBit
      | .writing => (s.filp f).wBit) = true

instance (s : State) (v : VnodePtr) (rw : Rw) : Decidable (FindFilp s v rw) :=
  inferInstanceAs (Decidable (∃ _ : FilpPtr, _))

/-! ## Suspending and reviving -/

def reply (s : State) (p : Slot) (r : Result) : State := s.note (.replied p r)

def suspend (s : State) (p : Slot) (why : BlockedOn) (callnr : CallNr) : State :=
  { s.setProc p { s.fproc p with blockedOn := why, blockCallnr := callnr } with
    suspCount := if why = .popen ∨ why = .pipe then s.suspCount + 1 else s.suspCount }

def pipeSuspend (s : State) (p : Slot) (f : FilpPtr) (buf : List Byte) (size : Nat)
    (callnr : CallNr) : State :=
  suspend (s.setProc p { s.fproc p with file := .filp (some f), ioBuffer := buf, ioNbytes := size })
    p .pipe callnr

/-- The descriptor number in `scratch(fp)`. -/
def Fproc.fdNr (x : Fproc) : Nat :=
  match x.file with
  | .fd nr _ => nr
  | .filp _ => 0

def revive (s : State) (p : Slot) (returned : Result) : State :=
  let x := s.fproc p
  if x.used = false ∨ x.blockedOn = .none ∨ x.revived = true then s
  else
    match x.blockedOn with
    | .pipe | .lock =>
      { s.setProc p { x with revived := true } with reviving := s.reviving + 1 }
    | .dopen | .popen =>
      reply (s.setProc p { x with blockedOn := .none, file := .fd 0 none }) p (.val x.fdNr)
    | _ => reply (s.setProc p { x with blockedOn := .none, file := .fd 0 none }) p returned

/-! ## Select -/

def selectCancelFilp (s : State) (f : FilpPtr) : State :=
  let x := s.filp f
  if x.selectors = 0 ∨ x.count = 0 then s
  else if x.selectors - 1 = 0 then
    s.setFilp f { x with selectors := 0, selectOps := Ops.none, pipeSelectOps := Ops.none }
  else s.setFilp f { x with selectors := x.selectors - 1 }

def selectCancelAll (s : State) (k : SelSlot) : State :=
  let e := s.selecttab k
  let s := (e.fds.filterMap (·.filp)).foldl selectCancelFilp s
  s.setSel k { e with
    requestor := none
    fds := e.fds.map fun d => { d with filp := none } }

def selectReturn (s : State) (k : SelSlot) : State :=
  let e := s.selecttab k
  match e.requestor with
  | none => s
  | some p => revive (selectCancelAll s k) p (.val e.nreadyfds)

/-- A filp of a pipe is never waiting for a driver. -/
def restartProc (s : State) (k : SelSlot) : State :=
  let e := s.selecttab k
  if e.nreadyfds > 0 ∨ e.block = false then selectReturn s k else s

/-- `ops2tab`, for descriptor `n`. -/
def ops2tab (ops : Ops) (n : Nat) (e : SelectEntry) : SelectEntry :=
  match e.fds[n]? with
  | none => e
  | some d =>
    let new := (ops.inter d.want).diff d.ready
    { e with
      fds := e.fds.set n { d with ready := d.ready.union new }
      nreadyfds := e.nreadyfds + new.card }

/-- `filp_status`: the loop over the descriptors of an entry. -/
def statusFds (f : FilpPtr) (ops : Ops) (k : SelSlot) (s : State) : State :=
  (List.range (s.selecttab k).fds.length).foldl
    (fun s n =>
      if ((s.selecttab k).fds[n]?.bind (·.filp)) = some f then
        restartProc (s.setSel k (ops2tab ops n (s.selecttab k))) k
      else s) s

/-- `filp_status`, called by `select_callback`. -/
def filpStatus (s : State) (f : FilpPtr) (ops : Ops) : State :=
  (List.finRange maxSelects).foldl
    (fun s k => if (s.selecttab k).requestor = none then s else statusFds f ops k s) s

/-! ## Releasing -/

/-- The part of `release` for selects. -/
def releaseSelects (s : State) (v : VnodePtr) (op : CallNr) : State :=
  (List.finRange nrFilps).foldl
    (fun s f =>
      if (s.filp f).count < 1 ∨ (s.filp f).pipeSelectOps.inter op.selop = Ops.none ∨
        (s.filp f).vno ≠ v then s
      else
        let s := filpStatus s f op.selop
        s.setFilp f { s.filp f with pipeSelectOps := (s.filp f).pipeSelectOps.diff op.selop }) s

def HangsOn (s : State) (v : VnodePtr) (x : Fproc) : Prop :=
  match x.blockedOn, x.file with
  | .pipe, .filp (some f) => (s.filp f).vno = v
  | .popen, .fd _ (some f) => (s.filp f).vno = v
  | .dopen, .fd _ (some f) => (s.filp f).vno = v
  | .lock, .fd _ (some f) => (s.filp f).vno = v
  | .other, .fd _ (some f) => (s.filp f).vno = v
  | _, _ => False

instance (s : State) (v : VnodePtr) (x : Fproc) : Decidable (HangsOn s v x) := by
  unfold HangsOn
  split <;> infer_instance

/-- The part of `release` for suspended calls; `none` is the panic. -/
def releaseProcs (v : VnodePtr) (op : CallNr) : List Slot → Int → State → Option State
  | [], _, s => some s
  | p :: ps, count, s =>
    if count ≤ 0 then some s
    else
      let x := s.fproc p
      if x.used = true ∧ x.blockedOn ≠ .none ∧ x.revived = false ∧ x.blockCallnr = op ∧
          HangsOn s v x then
        let s := revive s p (.val 0)
        let s := { s with suspCount := s.suspCount - 1 }
        if s.suspCount < 0 then none
        else releaseProcs v op ps (count - 1) s
      else releaseProcs v op ps count s

def release (s : State) (v : VnodePtr) (op : CallNr) (count : Int) : Option State :=
  releaseProcs v op (List.finRange nrProcs) count
    (if op = .read ∨ op = .write then releaseSelects s v op else s)

/-! ## Reading and writing -/

/-- What `pipe_check` returns. -/
inductive Check where
  | suspend
  | err (e : Err)
  | bytes (n : Int)

/-- `pipe_check`, for process `p`. -/
def pipeCheck (s : State) (p : Slot) (v : VnodePtr) (rw : Rw) (nonblock : Bool) (bytes : Int)
    (notouch : Bool) : Option (State × Check) :=
  let size := (s.vnode v).size
  match rw with
  | .reading =>
    if size = 0 then
      if FindFilp s v .writing then
        let r := if nonblock = true then Check.err .eagain else Check.suspend
        if s.suspCount > 0 then (release s v .write s.suspCount).map fun s => (s, r)
        else some (s, r)
      else some (s, .bytes 0)
    else some (s, .bytes bytes)
  | .writing =>
    let pos := if notouch = true then 0 else size
    if ¬ FindFilp s v .reading then
      some (if notouch = true then s else s.note (.sigpipe p), .err .epipe)
    else if int32 (pos + bytes) > pipeBuf then
      if nonblock = true then
        if bytes ≤ pipeBuf then some (s, .err .eagain)
        else if pipeBuf - pos > 0 then
          if notouch = true then some (s, .bytes (pipeBuf - pos))
          else (release s v .read s.suspCount).map fun s => (s, .bytes (pipeBuf - pos))
        else some (s, .err .eagain)
      else if bytes > pipeBuf ∧ pipeBuf - pos > 0 then
        if notouch = true then some (s, .bytes (pipeBuf - pos))
        else (release s v .read s.suspCount).map fun s => (s, .bytes (pipeBuf - pos))
      else some (s, .suspend)
    else if pos = 0 ∧ notouch = false then
      (release s v .read s.suspCount).map fun s => (s, .bytes bytes)
    else some (s, .bytes bytes)

/-- The file server appends or takes exactly the bytes asked for. -/
def reqReadwrite (s : State) (p : Slot) (v : VnodePtr) (rw : Rw) (buf : List Byte) (size : Nat) :
    State :=
  let x := s.vnode v
  match rw with
  | .reading =>
    (s.setVnode v ⟨int32 (x.content.drop size).length, x.content.drop size⟩).note
      (.consumed p v (x.content.take size))
  | .writing =>
    (s.setVnode v ⟨int32 (x.content ++ buf.take size).length, x.content ++ buf.take size⟩).note
      (.accepted p v (buf.take size))

def rwPipe (s : State) (rw : Rw) (p : Slot) (f : FilpPtr) (buf : List Byte) (reqSize : Nat) :
    Option (State × Result) :=
  let x := s.filp f
  (pipeCheck s p x.vno rw x.nonblock reqSize false).map fun r =>
    let s := r.1
    match r.2 with
    | .suspend => (pipeSuspend s p f buf reqSize rw.callNr, .suspend)
    | .err e => (s, .err e)
    | .bytes n =>
      if n ≤ 0 then (s, .val n)
      else
        let v := (s.vnode x.vno).size
        let size := if rw = .reading ∧ n > v then v.toNat else n.toNat
        let cumIo := (s.fproc p).cumIoPartial + size
        let s := reqReadwrite s p x.vno rw buf size
        if n < reqSize ∧ x.nonblock = false then
          -- a part is written, and the process waits for room for the rest
          (pipeSuspend (s.setProc p { s.fproc p with cumIoPartial := cumIo }) p f (buf.drop size)
            (reqSize - size) rw.callNr, .suspend)
        else (s.setProc p { s.fproc p with cumIoPartial := 0 }, .val cumIo)

/-- The reply of a worker, unless the call is suspended. -/
def finish (p : Slot) (r : State × Result) : State :=
  if r.2 = .suspend then r.1 else reply r.1 p r.2

/-- `do_read_write` and `read_write` for a pipe. -/
def doReadWrite (s : State) (rw : Rw) (p : Slot) (f : FilpPtr) (buf : List Byte) (nbytes : Nat) :
    Option State :=
  if s.fds p f = 0 ∨ (match rw with
      | .reading => (s.filp f).rBit
      | .writing => (s.filp f).wBit) = false then some (reply s p (.err .ebadf))
  else if nbytes = 0 then some (reply s p (.val 0))
  else if nbytes > ssizeMax then some (reply s p (.err .einval))
  -- "fp_cum_io_partial not clear"
  else if (s.fproc p).cumIoPartial ≠ 0 then none
  else
    let e := match rw with
      | .reading => Event.reads p (s.filp f).vno
      | .writing => Event.writes p (s.filp f).vno buf
    (rwPipe (s.note e) rw p f buf nbytes).map (finish p)

def doPendingPipe (s : State) (p : Slot) : Option State :=
  let x := s.fproc p
  match x.file with
  | .filp (some f) =>
    let s := s.setProc p { x with file := .filp none }
    if (s.filp f).count ≤ 0 then none
    else
      let rw := if x.blockCallnr = .read then Rw.reading else Rw.writing
      (rwPipe s rw p f x.ioBuffer x.ioNbytes).map (finish p)
  | _ => none

/-- `unblock`, for a process suspended on a pipe. -/
def unblock (s : State) (p : Slot) : Option State :=
  if s.reviving - 1 < 0 then none
  else
    doPendingPipe { s.setProc p { s.fproc p with blockedOn := .none, revived := false } with
      reviving := s.reviving - 1 } p

/-! ## Closing and selecting -/

/-- `close_filp` for a pipe, and the descriptor is given up. -/
def closeFilp (s : State) (p : Slot) (f : FilpPtr) : Option State :=
  let x := s.filp f
  (release s x.vno (if x.rBit = true then .write else .read) s.suspCount).bind fun s =>
    let y := s.filp f
    if y.count - 1 < 0 then none
    else
      let s := if y.count - 1 = 0 then
          s.setFilp f { y with count := 0, rBit := false, wBit := false }
        else s.setFilp f { y with count := y.count - 1 }
      some { s with
        fds := update s.fds p (update (s.fds p) f (s.fds p f - 1)) }

/-- `do_dup`, or a descriptor that process `q` gets by `fork`. -/
def dup (s : State) (q : Slot) (f : FilpPtr) : State :=
  { s.setFilp f { s.filp f with count := (s.filp f).count + 1 } with
    fds := update s.fds q (update (s.fds q) f (s.fds q f + 1)) }

def selectRequestPipe (s : State) (p : Slot) (f : FilpPtr) (ops : Ops) (block : Bool) :
    Option (State × Ops) :=
  let x := s.filp f
  let reading := ops.rd || ops.err
  let writing := ops.wr || ops.err
  (if reading = true then pipeCheck s p x.vno .reading false 1 true
    else some (s, .suspend)).bind fun r₁ =>
  (if writing = true then pipeCheck r₁.1 p x.vno .writing false 1 true
    else some (r₁.1, .suspend)).map fun r₂ =>
  let rd := reading && match r₁.2 with
    | .suspend => !x.rBit
    | _ => true
  let wr := writing && match r₂.2 with
    | .suspend => !x.wBit
    | _ => true
  let err := (reading && match r₁.2 with
      | .err _ => true
      | _ => false) && !(writing && (match r₂.2 with
      | .suspend => !x.wBit
      | _ => false)) ||
    (writing && match r₂.2 with
      | .err _ => true
      | _ => false)
  let got := (Ops.mk rd wr err).inter ops
  let s := r₂.1
  if got = Ops.none ∧ block = true then
    (s.setFilp f { s.filp f with pipeSelectOps := (s.filp f).pipeSelectOps.union ops }, got)
  else (s, got)

/-- The first loop of `do_select`: every descriptor asked about is open. -/
def selectOpen (p : Slot) : List (FilpPtr × Ops) → State → State × Bool
  | [], s => (s, true)
  | (f, _) :: fds, s =>
    if s.fds p f = 0 then (s, false)
    else selectOpen p fds (s.setFilp f { s.filp f with selectors := (s.filp f).selectors + 1 })

/-- The second loop of `do_select`, over the descriptors from `n` on. -/
def selectCheck (p : Slot) (k : SelSlot) (block : Bool) :
    List (FilpPtr × Ops) → Nat → State → Option State
  | [], _, s => some s
  | (f, ops) :: fds, n, s =>
    let x := s.filp f
    if x.selectOps.inter ops = ops then selectCheck p k block fds (n + 1) s
    else
      let wantops := x.selectOps.union ops
      (selectRequestPipe (s.setFilp f { x with selectOps := wantops }) p f wantops block).bind
        fun r =>
          selectCheck p k block fds (n + 1)
            (if r.2.inter ops = Ops.none then r.1
            else r.1.setSel k (ops2tab r.2 n (r.1.selecttab k)))

/-- `do_select`, for descriptors of pipes. -/
def doSelect (s : State) (p : Slot) (fds : List (FilpPtr × Ops)) (block : Bool) : Option State :=
  match (List.finRange maxSelects).find? fun k => (s.selecttab k).requestor = none with
  | none => some (reply s p (.err .enospc))
  | some k =>
    let r := selectOpen p fds s
    if r.2 = false then some (reply r.1 p (.err .ebadf))
    else
      let e : SelectEntry := ⟨some p, fds.map fun d => ⟨some d.1, d.2, Ops.none⟩, 0, block⟩
      (selectCheck p k block fds 0 (r.1.setSel k e)).map fun s =>
        let e := s.selecttab k
        if e.nreadyfds > 0 ∨ block = false then
          reply (selectCancelAll s k) p (.val e.nreadyfds)
        else suspend s p .select .other

/-! ## Requests -/

inductive Request where
  | read (p : Slot) (f : FilpPtr) (nbytes : Nat)
  | write (p : Slot) (f : FilpPtr) (data : List Byte)
  | select (p : Slot) (fds : List (FilpPtr × Ops)) (block : Bool)
  | close (p : Slot) (f : FilpPtr)
  | dup (p q : Slot) (f : FilpPtr)
  /-- a process that has been revived goes on -/
  | resume (p : Slot)

/-- A call is made by a process that is not blocked in another one; only a revived one goes on. -/
def Request.Enabled (s : State) : Request → Prop
  | .read p _ _ => (s.fproc p).used = true ∧ (s.fproc p).blockedOn = .none
  | .write p _ _ => (s.fproc p).used = true ∧ (s.fproc p).blockedOn = .none
  | .select p _ _ => (s.fproc p).used = true ∧ (s.fproc p).blockedOn = .none
  | .close p f => (s.fproc p).used = true ∧ (s.fproc p).blockedOn = .none ∧ s.fds p f ≠ 0
  | .dup p q f => (s.fproc p).used = true ∧ (s.fproc p).blockedOn = .none ∧
      (s.fproc q).used = true ∧ (s.fproc q).blockedOn = .none ∧ s.fds p f ≠ 0
  | .resume p => (s.fproc p).used = true ∧ (s.fproc p).blockedOn = .pipe ∧
      (s.fproc p).revived = true

def Request.run (s : State) : Request → Option State
  | .read p f n => doReadWrite s .reading p f [] n
  | .write p f data => doReadWrite s .writing p f data data.length
  | .select p fds block => doSelect s p fds block
  | .close p f => closeFilp s p f
  | .dup _ q f => some (Pipe.dup s q f)
  | .resume p => unblock s p

/-- The pipes are empty and nobody is blocked. A filp is one end of a pipe: `pipe_open` refuses to
open both. -/
structure Boot (s : State) : Prop where
  vnode : ∀ v, s.vnode v = ⟨0, []⟩
  blocked : ∀ p, (s.fproc p).blockedOn = .none ∧ (s.fproc p).revived = false
  partialIo : ∀ p, (s.fproc p).cumIoPartial = 0
  count : ∀ f, (s.filp f).count = ∑ p, (s.fds p f : Int)
  ends : ∀ f, ((s.filp f).rBit && (s.filp f).wBit) = false
  selects : ∀ f, (s.filp f).selectors = 0 ∧ (s.filp f).selectOps = Ops.none ∧
    (s.filp f).pipeSelectOps = Ops.none
  selecttab : ∀ k, (s.selecttab k).requestor = none
  suspCount : s.suspCount = 0
  reviving : s.reviving = 0
  log : s.log = []

end HardenedMinix.Pipe
