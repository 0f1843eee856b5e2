import HardenedMinix.Lib.Runs

/-!
# System V semaphores

A call of `semop` is applied operation by operation; a process that has to wait is put on a
waiting list, and after each call at most two processes of each semaphore are woken.
-/

open Function

namespace HardenedMinix.Sem

open Lib

/-! ## Data -/

def nrProcs : Nat := 256

/-- A process, by its slot; it can be on a waiting list only until its slot is given up. -/
abbrev Proc := Fin nrProcs

/-- `SEMMNI`, `SEMMSL`, `SEMOPM` and `SEMVMX`. -/
def semMni : Nat := 128
def semMsl : Nat := 250
def semOpm : Nat := 32
def semVmx : Nat := 32767

/-- A value stored in an `unsigned short`. -/
def ushort (x : Int) : Nat := (x % 65536).toNat

structure Waiting where
  who : Proc
  val : Int
  deriving DecidableEq

/-- `struct semaphore`. A list is `none` while its pointer is null; its entries are those put there
and not taken away. -/
structure Semaphore where
  semval : Nat
  semzcnt : Nat
  semncnt : Nat
  zlist : Option (List Waiting)
  nlist : Option (List Waiting)
  sempid : Option Proc
  deriving DecidableEq

/-- `struct sem_struct`; the permissions are with the requests. -/
structure SemStruct where
  /-- `none` is `IPC_PRIVATE` -/
  key : Option Nat
  id : Nat
  nsems : Nat
  sems : Nat → Semaphore

/-- `struct sembuf`, and whether the waiting list can be made longer for it. -/
structure SemBuf where
  num : Nat
  op : Int
  nowait : Bool
  grows : Bool
  deriving DecidableEq

/-- A call of `semop` that has not been answered. -/
structure Call where
  id : Nat
  ops : List SemBuf
  deriving DecidableEq

inductive Err where
  | ok
  | einval
  | e2big
  | eacces
  | enomem
  | efbig
  | eagain
  | eintr
  | eidrm
  | eexist
  | enoent
  | enospc
  | erange
  | eperm
  | efault
  deriving DecidableEq, Repr

/-- What happens, in its order; a record for the proofs. -/
inductive Event where
  | called (p : Proc) (c : Call)
  /-- `OK` for the call `c` -/
  | took (p : Proc) (c : Call)
  /-- an error for the call `c` -/
  | refused (p : Proc) (c : Call) (e : Err)
  /-- a message to a process that waits for none -/
  | stray (p : Proc)
  /-- the reply to a `semget` or a `semctl` -/
  | answered (p : Proc) (e : Err)
  /-- a value is set by `SETVAL` or `SETALL` -/
  | valued (id num v : Nat)
  | created (id : Nat)
  | exited (p : Proc)

structure State where
  semList : Nat → SemStruct
  semListNr : Nat
  identifier : Nat
  /-- the calls of the processes that are blocked in one -/
  call : Proc → Option Call
  log : List Event

def State.note (s : State) (e : Event) : State := { s with log := s.log ++ [e] }

def State.sem (s : State) (i j : Nat) : Semaphore := (s.semList i).sems j

def State.setSem (s : State) (i j : Nat) (x : Semaphore) : State :=
  { s with
    semList := update s.semList i
      { s.semList i with sems := update (s.semList i).sems j x } }

/-! ## Messages and waiting lists -/

/-- `sendnb`: only a process that is blocked in a call gets the message. -/
def State.send (s : State) (p : Proc) (e : Err) : State :=
  match s.call p with
  | none => s.note (.stray p)
  | some c =>
    { s with
      call := update s.call p none
      log := s.log ++ [if e = .ok then Event.took p c else Event.refused p c e] }

/-- The first entry with `pred`, and the other ones. -/
def takeFirst (pred : Waiting → Bool) : List Waiting → Option (Waiting × List Waiting)
  | [] => none
  | e :: l => if pred e then some (e, l) else (takeFirst pred l).map fun r => (r.1, e :: r.2)

/-- `remove_process` for `zlist`. `none`: a list is read or shifted beyond its entries. -/
def removeZero (s : State) (p : Proc) (i j : Nat) : Option State :=
  let x := s.sem i j
  if x.semzcnt ≠ (x.zlist.getD []).length then none
  else
    match takeFirst (fun e => e.who = p) (x.zlist.getD []) with
    | none => some s
    | some (e, l) =>
      some ((s.setSem i j { x with zlist := some l, semzcnt := x.semzcnt - 1 }).send e.who .eintr)

/-- The part of `remove_process` for `nlist`. -/
def removeIncr (s : State) (p : Proc) (i j : Nat) : Option State :=
  let x := s.sem i j
  if x.semncnt ≠ (x.nlist.getD []).length then none
  else
    match takeFirst (fun e => e.who = p) (x.nlist.getD []) with
    | none => some s
    | some (e, l) =>
      some ((s.setSem i j { x with nlist := some l, semncnt := x.semncnt - 1 }).send e.who .eintr)

def forSems (body : State → Nat → Nat → Option State) (s : State) (i : Nat) : Option State :=
  (List.range (s.semList i).nsems).foldlM (fun s j => body s i j) s

def forSets (body : State → Nat → Option State) (s : State) : Option State :=
  (List.range s.semListNr).foldlM (fun s i => body s i) s

def removeProcess (s : State) (p : Proc) : Option State :=
  forSets (forSems fun s i j => (removeZero s p i j).bind fun s => removeIncr s p i j) s

/-- `update_one_semaphore`: one process that waits for zero. -/
def wakeZero (s : State) (i j : Nat) : Option State :=
  let x := s.sem i j
  match x.zlist with
  | none => some s
  | some l =>
    if x.semval ≠ 0 then some s
    else
      match l, x.semzcnt with
      | e :: l, n + 1 =>
        some ((s.setSem i j { x with zlist := some l, semzcnt := n }).send e.who .ok)
      -- `zlist[0]` is read and the list shifted though there is no entry
      | _, _ => none

/-- `update_one_semaphore`: one process that waits for an increase. -/
def wakeIncr (s : State) (i j : Nat) : Option State :=
  let x := s.sem i j
  match x.nlist with
  | none => some s
  | some l =>
    if x.semncnt ≠ l.length then none
    else
      match takeFirst (fun e => e.val ≤ x.semval) l with
      | none => some s
      | some (e, l) =>
        some ((s.setSem i j { x with
          semval := ushort (x.semval - e.val), nlist := some l
          semncnt := x.semncnt - 1 }).send e.who .ok)

/-- `update_one_semaphore`, for a set that is not removed. -/
def updateOneSemaphore (s : State) (i : Nat) : Option State :=
  forSems (fun s i j => (wakeZero s i j).bind fun s => wakeIncr s i j) s i

def updateSemaphores (s : State) : Option State := forSets updateOneSemaphore s

/-- The messages of `update_one_semaphore` for a set that is removed. -/
def dismiss (s : State) (i j : Nat) : Option State :=
  let x := s.sem i j
  if x.semzcnt ≠ (x.zlist.getD []).length ∨ x.semncnt ≠ (x.nlist.getD []).length then none
  else
    let s := (x.zlist.getD []).foldl (fun s e => s.send e.who .eidrm) s
    some ((x.nlist.getD []).foldl (fun s e => s.send e.who .eidrm) s)

/-- The last set takes the place. -/
def removeSemaphore (s : State) (i : Nat) : State :=
  { s with
    semListNr := s.semListNr - 1
    semList := if s.semListNr - 1 ≠ i then
      update s.semList i (s.semList (s.semListNr - 1)) else s.semList }

/-! ## Requests -/

def semFindId (s : State) (id : Nat) : Option Nat :=
  (List.range s.semListNr).find? fun i => (s.semList i).id = id

def semFindKey (s : State) (key : Option Nat) : Option Nat :=
  if key = none then none else (List.range s.semListNr).find? fun i => (s.semList i).key = key

/-- A semaphore after `memset`. -/
def zeroSem : Semaphore := ⟨0, 0, 0, none, none, none⟩

def State.answer (s : State) (p : Proc) (e : Err) : State := s.note (.answered p e)

structure SemGet where
  who : Proc
  key : Option Nat
  nsems : Int
  /-- `IPC_CREAT` and `IPC_EXCL` -/
  creat : Bool
  excl : Bool
  /-- `check_perm` lets the caller in -/
  permitted : Bool

def doSemget (s : State) (m : SemGet) : State :=
  match semFindKey s m.key with
  | some i =>
    if m.creat = true ∧ m.excl = true then s.answer m.who .eexist
    else if m.permitted = false then s.answer m.who .eacces
    else if m.nsems > (s.semList i).nsems then s.answer m.who .einval
    else s.answer m.who .ok
  | none =>
    if m.creat = false then s.answer m.who .enoent
    else if m.nsems < 0 ∨ m.nsems ≥ semMsl then s.answer m.who .einval
    else if s.semListNr = semMni then s.answer m.who .enospc
    else
      let s := { s with
        semList := update s.semList s.semListNr
          ⟨m.key, s.identifier, m.nsems.toNat, fun _ => zeroSem⟩
        identifier := s.identifier + 1
        semListNr := s.semListNr + 1
        log := s.log ++ [Event.created s.identifier] }
      s.answer m.who .ok

/-- The commands of `semctl`; those that touch no semaphore are one. -/
inductive Ctl where
  | rmid
  | setall (buf : Option (List Nat))
  | setval (num : Nat) (val : Int)
  | other

structure SemCtl where
  who : Proc
  id : Nat
  cmd : Ctl
  /-- `check_perm` for reading and for changing -/
  mayRead : Bool
  mayAlter : Bool
  /-- the caller is the owner, the creator or the superuser -/
  owner : Bool
  /-- what a command that touches no semaphore returns -/
  result : Err

/-- The loop of `SETALL`, from semaphore `j` on. -/
def setAll (s : State) (i : Nat) : Nat → List Nat → State × Err
  | _, [] => (s, .ok)
  | j, v :: vs =>
    if v > semVmx then (s, .erange)
    else
      let s := s.setSem i j { s.sem i j with semval := v }
      setAll (s.note (.valued (s.semList i).id j v)) i (j + 1) vs

/-- `do_semctl`, and the reply of the main loop. -/
def doSemctl (s : State) (m : SemCtl) : Option State :=
  match semFindId s m.id with
  | none => some (s.answer m.who .einval)
  | some i =>
    match m.cmd with
    | .rmid =>
      if m.owner = false then some (s.answer m.who .eperm)
      else (forSems dismiss s i).map fun s => (removeSemaphore s i).answer m.who .ok
    | .setall buf =>
      if m.mayRead = false then some (s.answer m.who .eacces)
      else
        match buf with
        | none => some (s.answer m.who .einval)
        | some buf =>
          let r := setAll s i 0 (buf.take (s.semList i).nsems)
          (updateSemaphores r.1).map fun s => s.answer m.who r.2
    | .setval num val =>
      if m.mayRead = false ∨ m.mayAlter = false then some (s.answer m.who .eacces)
      else if num ≥ (s.semList i).nsems then some (s.answer m.who .einval)
      else if val < 0 ∨ val > semVmx then some (s.answer m.who .erange)
      else
        let s := (s.setSem i num { s.sem i num with semval := val.toNat }).note
          (.valued m.id num val.toNat)
        (updateSemaphores s).map fun s => s.answer m.who .ok
    | .other => some (s.answer m.who m.result)

structure SemOp where
  who : Proc
  id : Nat
  /-- `SEMOP_SIZE`, and the array of the caller unless it cannot be fetched -/
  nsops : Nat
  sops : Option (List SemBuf)
  mayRead : Bool
  mayAlter : Bool
  gotMem : Bool

/-- The loop of `do_semop`. The number counts the waiting lists the caller is on. -/
def applyOps (p : Proc) (i : Nat) (mayAlter : Bool) : List SemBuf → State → Nat → State × Nat × Err
  | [], s, n => (s, n, .ok)
  | o :: ops, s, n =>
    let x := { s.sem i o.num with sempid := some p }
    if o.op > 0 then
      if mayAlter = false then (s.setSem i o.num x, n, .eacces)
      else applyOps p i mayAlter ops
        (s.setSem i o.num { x with semval := ushort (x.semval + o.op) }) n
    else if o.op = 0 then
      if x.semval ≠ 0 then
        let x := { x with semzcnt := ushort (x.semzcnt + 1) }
        if o.grows = true then
          applyOps p i mayAlter ops
            (s.setSem i o.num { x with zlist := some (x.zlist.getD [] ++ [⟨p, 0⟩]) }) (n + 1)
        -- the list is lost, and the loop left
        else (s.setSem i o.num { x with zlist := none }, n, .ok)
      else applyOps p i mayAlter ops (s.setSem i o.num x) n
    else if mayAlter = false then (s.setSem i o.num x, n, .eacces)
    else if (x.semval : Int) ≥ -o.op then
      applyOps p i mayAlter ops
        (s.setSem i o.num { x with semval := ushort (x.semval + o.op) }) n
    else
      let x := { x with semncnt := ushort (x.semncnt + 1) }
      if o.grows = true then
        applyOps p i mayAlter ops
          (s.setSem i o.num { x with nlist := some (x.nlist.getD [] ++ [⟨p, -o.op⟩]) }) (n + 1)
      else (s.setSem i o.num { x with nlist := none }, n, .ok)

def CanProceed (v : Nat) (o : SemBuf) : Prop := (o.op = 0 → v = 0) ∧ (o.op < 0 → -o.op ≤ v)

instance (v : Nat) (o : SemBuf) : Decidable (CanProceed v o) :=
  inferInstanceAs (Decidable (_ ∧ _))

/-- The checks of `do_semop`, from `sem_find_id` to the check for `EAGAIN`. -/
def checkOps (s : State) (m : SemOp) : Except Err (Nat × List SemBuf) :=
  match semFindId s m.id with
  | none => .error .einval
  | some i =>
    if m.nsops = 0 then .error .einval
    else if m.nsops > semOpm then .error .e2big
    else if m.mayRead = false then .error .eacces
    else if m.gotMem = false then .error .enomem
    else
      match m.sops with
      | none => .error .einval
      | some sops =>
        if ∃ o ∈ sops, o.num ≥ (s.semList i).nsems then .error .efbig
        else if ¬ (sops.map (·.num)).Nodup then .error .einval
        else if ∃ o ∈ sops, o.nowait = true ∧ ¬ CanProceed (s.sem i o.num).semval o then
          .error .eagain
        else .ok (i, sops)

def doSemop (s : State) (m : SemOp) : Option State :=
  let c : Call := ⟨m.id, m.sops.getD []⟩
  let s := { s with
    call := update s.call m.who (some c), log := s.log ++ [Event.called m.who c] }
  match checkOps s m with
  | .error e => updateSemaphores (s.send m.who e)
  | .ok (i, sops) =>
    let r := applyOps m.who i m.mayAlter sops s 0
    if r.2.2 ≠ .ok ∨ r.2.1 = 0 then updateSemaphores (r.1.send m.who r.2.2)
    else updateSemaphores r.1

/-- `sem_process_vm_notify`, for one process; its slot is free after that. -/
def doExit (s : State) (p : Proc) : Option State :=
  (removeProcess s p).map fun s =>
    { s with call := update s.call p none, log := s.log ++ [Event.exited p] }

inductive Request where
  | semget (m : SemGet)
  | semctl (m : SemCtl)
  | semop (m : SemOp)
  | exit (p : Proc)

def Request.who : Request → Proc
  | .semget m => m.who
  | .semctl m => m.who
  | .semop m => m.who
  | .exit p => p

/-- A process that is blocked in a call makes no other one; it may exit. -/
def Request.Enabled (s : State) : Request → Prop
  | .exit _ => True
  | r => s.call r.who = none

def Request.run (s : State) : Request → Option State
  | .semget m => some (doSemget s m)
  | .semctl m => doSemctl s m
  | .semop m => doSemop s m
  | .exit p => doExit s p

/-- No set exists, and nobody has called. -/
structure Boot (s : State) : Prop where
  semListNr : s.semListNr = 0
  call : ∀ p, s.call p = none
  log : s.log = []

end HardenedMinix.Sem
