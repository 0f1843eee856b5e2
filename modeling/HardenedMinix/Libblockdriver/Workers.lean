import HardenedMinix.Libblockdriver.Mq

/-!
# The multithreaded block driver

`driver_mt.c` of libblockdriver: the master thread queues requests, and workers take them, acquire
the barrier of the device, have the driver handle them, and reply. Threads are scheduled
cooperatively; which one is next or is woken, and what a handler does, are not known.
`blockdriver_mt_terminate` is not modelled.
-/

namespace HardenedMinix.Libblockdriver

def maxWorkers : Nat := 32

/-- How far a worker is with the request it has taken. -/
inductive Stage
  /-- in the queue of the mutex of the barrier -/
  | locking
  /-- it owns the mutex, and has not gone on yet -/
  | granted
  /-- a writer that waits for the `drain` event -/
  | draining
  /-- the event has been fired, and the writer has not gone on yet -/
  | drained
  /-- in the handler of the driver -/
  | handling
  /-- in `blockdriver_mt_sleep` -/
  | sleeping
  deriving DecidableEq, Repr

inductive Place
  | dead
  /-- `mthread_create` has made it runnable, and it has not run yet -/
  | created
  /-- in `mthread_event_wait` for the queue event -/
  | waiting
  /-- the event has been fired for it, and it has not run yet -/
  | woken
  /-- at the head of the loop, in the middle of its run -/
  | looking
  | busy (stage : Stage) (m : Request)
  | exited
  deriving DecidableEq, Repr

inductive WorkerState
  | dead | running | busy | exited
  deriving DecidableEq, Repr

namespace Place

/-- The field `state` of a worker in this place. -/
def state : Place → WorkerState
  | .dead => .dead
  | .created | .waiting | .woken | .looking => .running
  | .busy .. => .busy
  | .exited => .exited

/-- The thread of the worker is on the run queue, or running. -/
def runnable : Place → Bool
  | .created | .woken | .looking => true
  | .busy .granted _ | .busy .drained _ | .busy .handling _ => true
  | _ => false

/-- The worker is in the handler of the driver, and has not been put to sleep. -/
def handling : Place → Bool
  | .busy .handling _ => true
  | _ => false

/-- The worker is in the handler of the driver. -/
def inHandler : Place → Bool
  | .busy .handling _ | .busy .sleeping _ => true
  | _ => false

end Place

/-- `device_t` with its workers and the barrier; `arrived`, `started` and `answered` record
requests, starts and replies. -/
structure Device where
  workers : Nat
  place : Nat → Place
  /-- `barrier.queue`: who owns the mutex, and who waits for it -/
  owner : Option Nat
  lockQueue : List Nat
  readers : Nat
  writer : Option Nat
  arrived : List Request
  started : List (Nat × Request)
  answered : List (Nat × Request × Int)

namespace Device

variable (x : Device)

def setPlace (w : Nat) (p : Place) : Device := { x with place := Function.update x.place w p }

/-! ## The barrier -/

/-- `mthread_mutex_unlock`: the thread at the head of the queue owns the mutex now. -/
def mutexUnlock : Device :=
  match x.lockQueue with
  | [] => { x with owner := none }
  | w :: rest =>
    match x.place w with
    | .busy _ m => { x with owner := some w, lockQueue := rest }.setPlace w (.busy .granted m)
    | _ => { x with owner := some w, lockQueue := rest }

/-- The call of `blockdriver_handle_request`. -/
def handleRequest (w : Nat) (m : Request) : Device :=
  { x.setPlace w (.busy .handling m) with started := x.started ++ [(w, m)] }

/-- The rest of `mthread_rwlock_rdlock` or `mthread_rwlock_wrlock`, once the thread owns the
mutex. -/
def locked (w : Nat) (m : Request) : Device :=
  if m.isTransferReq then
    { x.mutexUnlock with readers := x.mutexUnlock.readers + 1 }.handleRequest w m
  else if x.readers > 0 then
    { x with writer := some w }.setPlace w (.busy .draining m)
  else
    { x with writer := some w }.handleRequest w m

/-- The worker acquires the barrier. A thread that owns the mutex gets `EDEADLK`, which is not
looked at. -/
def lockBarrier (w : Nat) (m : Request) : Device :=
  match x.owner with
  | none => ({ x with owner := some w }.setPlace w (.busy .granted m)).locked w m
  | some o =>
    if o = w then x.handleRequest w m
    else { x with lockQueue := x.lockQueue ++ [w] }.setPlace w (.busy .locking m)

/-- `mthread_event_fire(&rwlock->drain)`: only the writer waits for this event. -/
def fireDrain : Device :=
  match x.writer with
  | none => x
  | some w =>
    match x.place w with
    | .busy .draining m => x.setPlace w (.busy .drained m)
    | _ => x

/-- `mthread_rwlock_unlock`; nothing when the assertion on `readers` fails. -/
def unlockBarrier (w : Nat) : Option Device :=
  if x.writer = some w then some { x with writer := none }.mutexUnlock
  else if x.readers = 0 then none
  else if x.readers - 1 = 0 ∧ x.writer ≠ none then some { x with readers := x.readers - 1 }.fireDrain
  else some { x with readers := x.readers - 1 }

/-- `blockdriver_reply`: the worker is at the head of its loop when it has released the barrier. -/
def reply (w : Nat) (m : Request) (r : Int) : Device :=
  { x.setPlace w .looking with answered := x.answered ++ [(w, m, r)] }

/-! ## The workers -/

/-- The first worker of `master_handle_request` that is not busy. -/
def firstFree : Option Nat :=
  (List.range x.workers).find? fun w => (x.place w).state ≠ .busy

/-- `mthread_event_fire(&dp->queue_event)`, with the waiting worker that the library picks. -/
def fireQueue : Option Nat → Device
  | none => x
  | some w => x.setPlace w .woken

/-- The library picks a worker that waits, if there is one. -/
def Picks : Option Nat → Prop
  | none => ∀ w < maxWorkers, x.place w ≠ .waiting
  | some w => x.place w = .waiting

instance : DecidablePred x.Picks
  | none => inferInstanceAs (Decidable (∀ w < maxWorkers, x.place w ≠ .waiting))
  | some w => inferInstanceAs (Decidable (x.place w = .waiting))

/-- `mthread_event_fire_all(&dp->queue_event)` -/
def fireAll : Device :=
  { x with place := fun w => if x.place w = .waiting then .woken else x.place w }

/-- `blockdriver_mt_set_workers` -/
def setWorkers (workers : Nat) : Device :=
  let workers := if workers > maxWorkers then maxWorkers else workers
  let y := if workers = 1 ∧ x.workers > workers then x.fireAll else x
  { y with workers := workers }

end Device

/-! ## The driver -/

inductive Phase
  /-- it waits for a message -/
  | receive
  /-- it is in the handler of a notification, or of a message that is no block request -/
  | notified
  /-- it is in `mthread_yield_all` -/
  | yielding
  deriving DecidableEq, Repr

inductive Halt
  /-- an assertion has failed -/
  | assertion
  /-- "enqueue failed (message queue full)" -/
  | queueFull
  /-- "could not start thread" -/
  | noThread
  deriving DecidableEq, Repr

/-- The state of the driver, with the exited threads in the order in which they have exited. -/
structure Driver where
  device : Fin maxDevices → Device
  mq : Mq
  phase : Phase
  exited : List (Fin maxDevices × Nat)
  halted : Option Halt

namespace Driver

variable (s : Driver)

/-- `master_init` and `mq_init` -/
def init : Driver where
  device _ := {
    workers := 1, place := fun _ => .dead, owner := none, lockQueue := [], readers := 0
    writer := none, arrived := [], started := [], answered := [] }
  mq := .init
  phase := .receive
  exited := []
  halted := none

def setDevice (d : Fin maxDevices) (x : Device) : Driver :=
  { s with device := Function.update s.device d x }

def halt (h : Halt) : Driver := { s with halted := some h }

def enqueue (d : Fin maxDevices) (m : Request) (pick : Option Nat) : Driver :=
  match s.mq.enqueue d m with
  | none => s.halt .queueFull
  | some mq =>
    let x := (s.device d).fireQueue pick
    { s with mq := mq, phase := .yielding }.setDevice d { x with arrived := x.arrived ++ [m] }

/-- `master_handle_request` for a block request; `thread` says whether `mthread_create` has a
thread to give. -/
def handleRequest (d : Fin maxDevices) (m : Request) (thread : Bool) (pick : Option Nat) :
    Driver :=
  match (s.device d).firstFree with
  | none => s.enqueue d m pick
  | some w =>
    match ((s.device d).place w).state with
    | .exited => s.halt .assertion
    | .dead =>
      if thread then
        (s.setDevice d ((s.device d).setPlace w .created)).enqueue d m pick
      else s.halt .noThread
    | .running | .busy => s.enqueue d m pick

/-- `worker_thread` from the head of its loop, and `dequeue` from `mthread_event_wait` on. -/
def look (d : Fin maxDevices) (w : Nat) : Driver :=
  let x := s.device d
  if w ≥ x.workers then
    { s with exited := s.exited ++ [(d, w)] }.setDevice d (x.setPlace w .exited)
  else
    match s.mq.dequeue d with
    | none => s.setDevice d (x.setPlace w .waiting)
    | some (m, mq) => { s with mq := mq }.setDevice d (x.lockBarrier w m)

def run (d : Fin maxDevices) (w : Nat) : Driver :=
  let x := s.device d
  match x.place w with
  | .created | .woken | .looking => s.look d w
  | .busy .granted m => s.setDevice d (x.locked w m)
  | .busy .drained m =>
    -- the assertion at the end of `mthread_rwlock_wrlock`
    if x.readers = 0 then s.setDevice d (x.handleRequest w m) else s.halt .assertion
  | _ => s

/-- The handler has returned: the worker replies, releases the barrier, and goes on with its
loop. -/
def finish (d : Fin maxDevices) (w : Nat) (r : Int) : Driver :=
  match (s.device d).place w with
  | .busy .handling m =>
    match ((s.device d).reply w m r).unlockBarrier w with
    | none => s.halt .assertion
    | some x => (s.setDevice d x).look d w
  | _ => s

/-- `blockdriver_mt_sleep` -/
def sleep (d : Fin maxDevices) (w : Nat) : Driver :=
  match (s.device d).place w with
  | .busy .handling m => s.setDevice d ((s.device d).setPlace w (.busy .sleeping m))
  | _ => s

/-- `blockdriver_mt_wakeup`: the event wakes the worker if it sleeps. -/
def wakeup (d : Fin maxDevices) (w : Nat) : Driver :=
  let x := s.device d
  match x.place w with
  | .busy .sleeping m => s.setDevice d (x.setPlace w (.busy .handling m))
  | p => if p.state = .running ∨ p.state = .busy then s else s.halt .assertion

/-- `master_destroy_worker` -/
def destroyWorker (dw : Fin maxDevices × Nat) : Driver :=
  let x := s.device dw.1
  if (x.place dw.2).state = .exited then s.setDevice dw.1 (x.setPlace dw.2 .dead)
  else s.halt .assertion

/-- `master_handle_exits` -/
def handleExits : Driver :=
  { s.exited.foldl destroyWorker s with exited := [], phase := .receive }

end Driver

inductive Event
  /-- a request arrives for a device -/
  | request (d : Fin maxDevices) (m : Request) (thread : Bool) (pick : Option Nat)
  /-- a notification arrives, or a request that the master thread handles itself -/
  | notify
  /-- the master thread is done with it -/
  | notified
  /-- the handler of the notification calls `blockdriver_mt_wakeup` -/
  | wakeup (d : Fin maxDevices) (w : Nat)
  /-- the handler of the notification, or that of a request, calls `blockdriver_mt_set_workers` -/
  | setWorkers (d : Fin maxDevices) (workers : Nat)
  /-- a worker thread runs -/
  | run (d : Fin maxDevices) (w : Nat)
  /-- the handler of a request calls `blockdriver_mt_sleep` -/
  | sleep (d : Fin maxDevices) (w : Nat)
  /-- the handler of a request returns with a result -/
  | finish (d : Fin maxDevices) (w : Nat) (r : Int)
  /-- no worker can run any more, and `mthread_yield_all` returns -/
  | yielded

namespace Driver

variable (s : Driver)

/-- The handler of some request, of any device, is running. -/
def InHandler : Prop := ∃ d, ∃ w < maxWorkers, ((s.device d).place w).handling

def Quiet : Prop := ∀ d, ∀ w < maxWorkers, ((s.device d).place w).runnable = false

instance : Decidable s.InHandler :=
  inferInstanceAs (Decidable (∃ d, ∃ w < maxWorkers, ((s.device d).place w).handling))

instance : Decidable s.Quiet :=
  inferInstanceAs (Decidable (∀ d, ∀ w < maxWorkers, ((s.device d).place w).runnable = false))

/-- The steps while the driver runs. `blockdriver_mt_wakeup` is called for a thread in a handler,
with at least one worker. -/
def Enabled : Event → Prop
  | .request d _ _ pick => s.halted = none ∧ s.phase = .receive ∧ (s.device d).Picks pick
  | .notify => s.halted = none ∧ s.phase = .receive
  | .notified => s.halted = none ∧ s.phase = .notified
  | .wakeup d w => s.halted = none ∧ s.phase = .notified ∧ ((s.device d).place w).inHandler
  | .setWorkers _ workers =>
    s.halted = none ∧ (s.phase = .notified ∨ s.phase = .yielding ∧ s.InHandler) ∧ 0 < workers
  | .run d w => s.halted = none ∧ s.phase = .yielding ∧ ((s.device d).place w).runnable
  | .sleep d w | .finish d w _ =>
    s.halted = none ∧ s.phase = .yielding ∧ ((s.device d).place w).handling
  | .yielded => s.halted = none ∧ s.phase = .yielding ∧ s.Quiet

instance : DecidablePred s.Enabled := fun e => by
  cases e <;> exact inferInstanceAs (Decidable (_ ∧ _))

def step : Event → Driver
  | .request d m thread pick => s.handleRequest d m thread pick
  | .notify => { s with phase := .notified }
  | .notified => { s with phase := .yielding }
  | .wakeup d w => s.wakeup d w
  | .setWorkers d workers => s.setDevice d ((s.device d).setWorkers workers)
  | .run d w => s.run d w
  | .sleep d w => s.sleep d w
  | .finish d w r => s.finish d w r
  | .yielded => s.handleExits

end Driver

end HardenedMinix.Libblockdriver
