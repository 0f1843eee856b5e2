import HardenedMinix.Lib.TailQueue

/-!
# The thread library

Threads give up the processor in calls of the library only. What a suspended thread does next is
kept beside its control block. A panic and the use of foreign memory are `none`.
-/

open Function

namespace HardenedMinix.Mthread

open Lib

/-! ## Data -/

/-- `MAX_THREAD_POOL` and `NO_THREADS`. -/
def maxThreadPool : Nat := 1024
def noThreadsFirst : Nat := 4

/-- A thread control block: those of the pool, and the one of the main thread. -/
abbrev Tid := Fin 1025

def mainThread : Tid := Fin.last 1024

abbrev MutexId := Nat
abbrev CondId := Nat

/-- `mthread_state_t`. -/
inductive TState where
  | condition
  | dead
  | exiting
  | mutex
  | runnable
  | needReset
  deriving DecidableEq

/-- Who has called `mthread_cond_wait`. -/
inductive Caller where
  | user
  | join (j : Tid)
  deriving DecidableEq

/-- Who has called `mthread_mutex_lock`. -/
inductive Locker where
  | user
  | wait (b : Caller)
  deriving DecidableEq

inductive Point where
  /-- in its own code -/
  | user
  /-- suspended in `mthread_yield` -/
  | yielding
  /-- suspended in `mthread_mutex_lock` -/
  | locking (m : MutexId) (k : Locker)
  /-- suspended in `mthread_cond_wait` -/
  | waiting (c : CondId) (m : MutexId) (b : Caller)
  /-- ended, or not there yet -/
  | gone
  deriving DecidableEq

/-- `struct __mthread_tcb`. -/
structure Tcb where
  state : TState
  /-- `ma_detachstate` is `MTHREAD_CREATE_DETACHED` -/
  detached : Bool
  cond : Option CondId
  result : Nat
  exited : Option CondId
  exitm : Option MutexId
  next : Option Tid
  point : Point

instance : Linked Tcb 1025 where
  next x := x.next
  setNext x o := { x with next := o }
  free x := x.state == .dead
  next_setNext _ _ := rfl
  free_setNext _ _ := rfl
  setNext_next _ := rfl

/-- The queues: `run_queue`, `free_threads` and the queue of each mutex. -/
inductive QName where
  | run
  | free
  | mutex (m : MutexId)
  deriving DecidableEq

/-- `mthread_queue_t`. -/
structure Queue where
  head : Option Tid
  tail : Option Tid

structure Cond where
  /-- `mc_mutex` -/
  mutex : Option MutexId
  /-- made by the program, and not by the library -/
  user : Bool

structure State where
  tcb : Table Tcb 1025
  queue : QName → Queue
  /-- the owner of each mutex that is in use -/
  mutex : MutexId → Option (Option Tid)
  cond : CondId → Option Cond
  current : Tid
  runningMain : Bool
  noThreads : Nat
  usedThreads : Int
  needReset : Int

inductive Ret where
  | ok
  | einval
  | eperm
  | edeadlk
  | ebusy
  | esrch
  | eagain
  | enomem
  /-- -1 -/
  | failed
  deriving DecidableEq

namespace State

def setTcb (s : State) (t : Tid) (x : Tcb) : State :=
  { s with tcb := update s.tcb t x }

def setQueue (s : State) (q : QName) (x : Queue) : State :=
  { s with queue := update s.queue q x }

def setMutex (s : State) (m : MutexId) (x : Option (Option Tid)) : State :=
  { s with mutex := update s.mutex m x }

def setCond (s : State) (c : CondId) (x : Option Cond) : State :=
  { s with cond := update s.cond c x }

end State

def isokthreadid (s : State) (t : Tid) : Bool := t = mainThread || t.val < s.noThreads

/-- `mthread_queue_add`. -/
def queueAdd (s : State) (q : QName) (t : Tid) : State :=
  match (s.queue q).head, (s.queue q).tail with
  | none, _ => s.setQueue q ⟨some t, some t⟩
  | some i, none => s.setQueue q ⟨some i, some t⟩
  | some i, some j =>
    (s.setTcb j { s.tcb j with next := some t }).setQueue q ⟨some i, some t⟩

/-- `mthread_queue_remove`; `none` is `NO_THREAD`. -/
def queueRemove (s : State) (q : QName) : Option Tid × State :=
  match (s.queue q).head with
  | none => (none, s)
  | some t =>
    let x := if (s.queue q).head = (s.queue q).tail then ⟨none, none⟩
      else ⟨(s.tcb t).next, (s.queue q).tail⟩
    (some t, (s.setQueue q x).setTcb t { s.tcb t with next := none })

/-! ## The scheduler -/

/-- `mthread_schedule`. -/
def schedule (s : State) : State :=
  match queueRemove s .run with
  | (none, s) =>
    if s.runningMain = true then s
    else { s with current := mainThread, runningMain := true }
  | (some t, s) => { s with current := t, runningMain := t = mainThread }

/-- `mthread_suspend`; the thread goes on at `p`. -/
def suspend (s : State) (state : TState) (p : Point) : State :=
  schedule (s.setTcb s.current { s.tcb s.current with state := state, point := p })

/-- `mthread_unsuspend`. -/
def unsuspend (s : State) (t : Tid) : State :=
  queueAdd (s.setTcb t { s.tcb t with state := .runnable }) .run t

/-! ## Mutexes -/

/-- `mthread_mutex_init`; `a` is what `malloc` returns. -/
def mutexInit (s : State) (a : Option MutexId) : Ret × State :=
  match a with
  | none => (.enomem, s)
  | some m => (.ok, (s.setQueue (.mutex m) ⟨none, none⟩).setMutex m (some none))

/-- `mthread_mutex_lock`; the result is `none` if the thread has been suspended. -/
def mutexLock (s : State) (m : MutexId) (k : Locker) : Option Ret × State :=
  match s.mutex m with
  | none => (some .einval, s)
  | some none => (some .ok, s.setMutex m (some (some s.current)))
  | some (some o) =>
    if o = s.current then (some .edeadlk, s)
    else (none, suspend (queueAdd s (.mutex m) s.current) .mutex (.locking m k))

/-- `mthread_mutex_trylock`. -/
def mutexTrylock (s : State) (m : MutexId) : Ret × State :=
  match s.mutex m with
  | none => (.einval, s)
  | some none => (.ok, s.setMutex m (some (some s.current)))
  | some (some o) => if o = s.current then (.edeadlk, s) else (.ebusy, s)

/-- `mthread_mutex_unlock`. -/
def mutexUnlock (s : State) (m : MutexId) : Ret × State :=
  match s.mutex m with
  | none => (.einval, s)
  | some o =>
    if o ≠ some s.current then (.eperm, s)
    else
      match queueRemove s (.mutex m) with
      | (none, s) => (.ok, s.setMutex m (some none))
      | (some t, s) => (.ok, unsuspend (s.setMutex m (some (some t))) t)

/-- A thread of the pool, in the order of the numbers. -/
def pool (s : State) : List Tid := (List.finRange 1025).filter fun t => t.val < s.noThreads

def waitsFor (s : State) (c : CondId) (t : Tid) : Bool :=
  (s.tcb t).state = .condition && (s.tcb t).cond = some c

/-- `mthread_mutex_destroy`. -/
def mutexDestroy (s : State) (m : MutexId) : Ret × State :=
  match s.mutex m with
  | none => (.einval, s)
  | some o =>
    if o ≠ none then (.ebusy, s)
    else if (pool s).any fun t => (s.tcb t).state = .condition &&
        (((s.tcb t).cond.bind s.cond).bind Cond.mutex) = some m then (.ebusy, s)
    else (.ok, s.setMutex m none)

/-! ## Conditions -/

/-- `mthread_cond_init`. -/
def condInit (s : State) (a : Option CondId) (user : Bool) : Ret × State :=
  match a with
  | none => (.enomem, s)
  | some c => (.ok, s.setCond c (some ⟨none, user⟩))

/-- `mthread_cond_signal`. -/
def condSignal (s : State) (c : CondId) : Ret × State :=
  match s.cond c with
  | none => (.einval, s)
  | some _ =>
    let s := if waitsFor s c mainThread = true then unsuspend s mainThread else s
    match (pool s).find? (waitsFor s c) with
    | none => (.ok, s)
    | some t => (.ok, unsuspend s t)

/-- `mthread_cond_broadcast`. -/
def condBroadcast (s : State) (c : CondId) : Ret × State :=
  match s.cond c with
  | none => (.einval, s)
  | some _ =>
    let s := if waitsFor s c mainThread = true then unsuspend s mainThread else s
    (.ok, (pool s).foldl (fun s t => if waitsFor s c t = true then unsuspend s t else s) s)

/-- `mthread_cond_destroy`. -/
def condDestroy (s : State) (c : CondId) : Ret × State :=
  match s.cond c with
  | none => (.einval, s)
  | some _ =>
    if waitsFor s c mainThread = true ∨ (pool s).any (waitsFor s c) = true then (.ebusy, s)
    else (.ok, s.setCond c none)

/-- `mthread_cond_wait`, up to the suspension. -/
def condWait (s : State) (c : CondId) (m : MutexId) (b : Caller) : Option Ret × State :=
  match s.cond c, s.mutex m with
  | some x, some _ =>
    let s := s.setCond c (some { x with mutex := some m })
    match mutexUnlock s m with
    | (.ok, s) =>
      let s := s.setTcb s.current { s.tcb s.current with cond := some c }
      (none, suspend s .condition (.waiting c m b))
    | (_, s) => (some .failed, s)
  | _, _ => (some .einval, s)

/-! ## Threads -/

/-- What the allocations for a larger pool do: all succeed, the table cannot be made, or a control
block cannot be. -/
inductive PoolAlloc where
  | ok
  | noTable
  | noTcb

def zeroTcb : Tcb := ⟨.condition, false, none, 0, none, none, none, .gone⟩

/-- `mthread_thread_reset`. -/
def threadReset (s : State) (t : Tid) : State :=
  s.setTcb t { s.tcb t with
    next := none, state := .dead, result := 0, cond := none, point := .gone }

/-- The threads from `old` on that are new in the pool. -/
def newThreads (old new : Nat) : List Tid :=
  (List.finRange 1025).filter fun t => old ≤ t.val ∧ t.val < new

/-- `mthread_increase_thread_pool`. -/
def increaseThreadPool (s : State) (a : PoolAlloc) : Option (Bool × State) :=
  let old := s.noThreads
  let new := if old = 0 then noThreadsFirst else 2 * old
  if new ≥ maxThreadPool then some (false, s)
  else
    match a with
    | .noTable => some (false, s)
    -- the table has been reallocated, and the old one is still used
    | .noTcb => if old = 0 then some (false, s) else none
    | .ok =>
      let s := { s with
        tcb := fun t => if old ≤ t.val ∧ t.val < new then zeroTcb else s.tcb t
        noThreads := new }
      some (true, (newThreads old new).foldl
        (fun s t => threadReset (queueAdd s .free t) t) s)

/-- `mthread_thread_init`. -/
def threadInit (s : State) (t : Tid) (detached : Bool) (a : Option CondId) : Option State :=
  let s := s.setTcb t { s.tcb t with next := none, state := .dead, detached := detached }
  match a with
  | none => none
  | some c =>
    let (_, s) := condInit s (some c) false
    some (unsuspend (s.setTcb t { s.tcb t with exited := some c, point := .user }) t)

/-- `mthread_create`, with a free thread. -/
def start (s : State) (detached : Bool) (a : Option CondId) : Option (Ret × State) :=
  match queueRemove s .free with
  | (none, s) => some (.eagain, s)
  | (some t, s) => (threadInit s t detached a).map fun s =>
      (.ok, { s with usedThreads := s.usedThreads + 1 })

/-- `mthread_create`. -/
def create (s : State) (detached : Bool) (a : Option CondId) (p : PoolAlloc) :
    Option (Ret × State) :=
  if (s.queue .free).head = none then
    (increaseThreadPool s p).bind fun r =>
      if r.1 = true then start r.2 detached a else some (.eagain, r.2)
  else start s detached a

/-- `mthread_thread_stop`. -/
def threadStop (s : State) (t : Tid) : Option State :=
  if (s.tcb t).state = .dead then some s
  else
    match (s.tcb t).exited with
    | none => none
    | some c =>
      match condDestroy s c with
      | (.ok, s) =>
        let s := s.setTcb t { s.tcb t with exited := none }
        if t = s.current then
          some { s.setTcb t { s.tcb t with state := .needReset } with
            needReset := s.needReset + 1 }
        else
          let s := threadReset s t
          some (queueAdd { s with usedThreads := s.usedThreads - 1 } .free t)
      | _ => none

/-- `mthread_detach`. -/
def detach (s : State) (j : Tid) : Option (Ret × State) :=
  if isokthreadid s j = false then some (.esrch, s)
  else if (s.tcb j).state = .dead then some (.esrch, s)
  else if (s.tcb j).detached = true then some (.ok, s)
  else if (s.tcb j).state = .exiting then (threadStop s j).map fun s => (.ok, s)
  else some (.ok, s.setTcb j { s.tcb j with detached := true })

/-- `mthread_exit`. -/
def exit (s : State) (value : Nat) : Option State :=
  let t := s.current
  if (s.tcb t).state = .exiting then some s
  else
    let s := s.setTcb t { s.tcb t with result := value, state := .exiting, point := .gone }
    let ended : Option State :=
      if (s.tcb t).detached = true then threadStop s t
      else
        match (s.tcb t).exited with
        | none => none
        | some c =>
          match condSignal s c with
          | (.ok, s) => some s
          | _ => none
    ended.map schedule

/-- The end of `mthread_join`. -/
def joinEnd (s : State) (j : Tid) : Option (Option Ret × State) :=
  (threadStop s j).map fun s => (some .ok, s)

/-- `mthread_join`, up to the suspension. -/
def join (s : State) (j : Tid) (a : Option MutexId) : Option (Option Ret × State) :=
  if isokthreadid s j = false then some (some .esrch, s)
  else if j = s.current then some (some .edeadlk, s)
  else if (s.tcb j).state = .dead then some (some .esrch, s)
  else if (s.tcb j).detached = true then some (some .einval, s)
  else if (s.tcb j).state = .exiting then joinEnd s j
  else
    match a, (s.tcb j).exited with
    | some m, some c =>
      let (_, s) := mutexInit s (some m)
      let s := s.setTcb j { s.tcb j with exitm := some m }
      match mutexLock s m .user with
      | (some .ok, s) =>
        match condWait s c m (.join j) with
        | (none, s) => some (none, s)
        | _ => none
      | _ => none
    | _, _ => none

/-- `mthread_join`, after `mthread_cond_wait` has returned. -/
def joinResume (s : State) (j : Tid) : Option (Option Ret × State) :=
  match (s.tcb j).exitm with
  | none => none
  | some m =>
    match mutexUnlock s m with
    | (.ok, s) =>
      match mutexDestroy s m with
      | (.ok, s) => joinEnd (s.setTcb j { s.tcb j with exitm := none }) j
      | _ => none
    | _ => none

/-- `mthread_yield`: the threads that could not clean themselves up. -/
def resetThreads (s : State) : State :=
  (pool s).foldl (fun s t =>
    if s.needReset > 0 ∧ (s.tcb t).state = .needReset then
      let s := threadReset s t
      queueAdd { s with usedThreads := s.usedThreads - 1, needReset := s.needReset - 1 } .free t
    else s) s

/-- `mthread_yield`. -/
def yield (s : State) : Option Ret × State :=
  let s := resetThreads s
  if (s.queue .run).head = none then (some .failed, s)
  else (none, suspend (queueAdd s .run s.current) .runnable .yielding)

/-! ## Steps -/

/-- A call that a thread makes, with what `malloc` returns. -/
inductive Call where
  | mutexInit (a : Option MutexId)
  | condInit (a : Option CondId)
  | lock (m : MutexId)
  | trylock (m : MutexId)
  | unlock (m : MutexId)
  | wait (c : CondId) (m : MutexId)
  | signal (c : CondId)
  | broadcast (c : CondId)
  | create (detached : Bool) (a : Option CondId) (p : PoolAlloc)
  | yield
  | join (j : Tid) (a : Option MutexId)
  | detach (j : Tid)
  | exit (value : Nat)

/-- The running thread makes a call, or goes on where it has been suspended. -/
inductive Input where
  | call (f : Call)
  | resume

/-- What a step returns to the program of the thread that has been running. -/
inductive Return where
  | nothing
  | lock (m : MutexId) (r : Ret)
  | wait (m : MutexId) (r : Ret)
  | other (r : Ret)
  deriving DecidableEq

/-- A call returns, or the thread has been suspended. -/
def returned (f : Ret → Return) (r : Option Ret × State) : Return × State :=
  (match r.1 with
    | none => .nothing
    | some r => f r, r.2)

/-- The running thread is in its own code again. -/
def back (s : State) : State :=
  s.setTcb s.current { s.tcb s.current with point := .user }

def doCall (s : State) : Call → Option (Return × State)
  | .mutexInit a => some (.other (mutexInit s a).1, (mutexInit s a).2)
  | .condInit a => some (.other (condInit s a true).1, (condInit s a true).2)
  | .lock m => some (returned (.lock m) (mutexLock s m .user))
  | .trylock m => some (.lock m (mutexTrylock s m).1, (mutexTrylock s m).2)
  | .unlock m => some (.other (mutexUnlock s m).1, (mutexUnlock s m).2)
  | .wait c m => some (returned (.wait m) (condWait s c m .user))
  | .signal c => some (.other (condSignal s c).1, (condSignal s c).2)
  | .broadcast c => some (.other (condBroadcast s c).1, (condBroadcast s c).2)
  | .create detached a p => (create s detached a p).map fun r => (.other r.1, r.2)
  | .yield => some (returned .other (yield s))
  | .join j a => (join s j a).map (returned .other)
  | .detach j => (detach s j).map fun r => (.other r.1, r.2)
  | .exit value => (exit s value).map fun s => (.nothing, s)

/-- `mthread_cond_wait` returns to its caller. -/
def condWaitReturns (s : State) (m : MutexId) (b : Caller) (r : Ret) : Option (Return × State) :=
  match b with
  | .user => some (.wait m r, s)
  | .join j => if r = .ok then (joinResume s j).map (returned .other) else none

/-- The mutex that `mthread_cond_wait` locks again; the one of a join is looked up again. -/
def mutexOf (s : State) (m : MutexId) : Caller → Option MutexId
  | .user => some m
  | .join j => (s.tcb j).exitm

/-- `mthread_cond_wait`, after the suspension. -/
def condWaitEnd (s : State) (c : CondId) (m : MutexId) (b : Caller) : Option (Return × State) :=
  match s.cond c with
  | none => none
  | some x =>
    let s := s.setCond c (some { x with mutex := none })
    let s := s.setTcb s.current { s.tcb s.current with cond := none }
    match mutexOf s m b with
    | none => none
    | some m =>
      match mutexLock s m (.wait b) with
      | (none, s) => some (.nothing, s)
      | (some .ok, s) => condWaitReturns s m b .ok
      | (some _, s) => condWaitReturns s m b .failed

/-- The running thread goes on after its suspension. -/
def doResume (s : State) : Option (Return × State) :=
  match (s.tcb s.current).point with
  | .user => none
  | .gone => none
  | .yielding => some (.other .ok, back s)
  | .locking m .user => some (.lock m .ok, back s)
  | .locking m (.wait b) => condWaitReturns (back s) m b .ok
  | .waiting c m b => condWaitEnd (back s) c m b

/-- A step; `none` is a panic, or nothing that can happen. -/
def step? (s : State) : Input → Option (Return × State)
  | .call f => if (s.tcb s.current).point = .user then doCall s f else none
  | .resume => doResume s

/-- The state after a step; a program whose library has panicked does nothing any more. -/
def step (s : State) (i : Input) : State := ((step? s i).map Prod.snd).getD s

/-- The state after `mthread_init`. -/
def initial : State where
  tcb t :=
    if t = mainThread then { zeroTcb with point := .user } else { zeroTcb with state := .dead }
  queue _ := ⟨none, none⟩
  mutex _ := none
  cond _ := none
  current := mainThread
  runningMain := true
  noThreads := 0
  usedThreads := 0
  needReset := 0

end HardenedMinix.Mthread
