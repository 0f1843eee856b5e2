import Mathlib.Algebra.BigOperators.Group.Finset.Basic
import Mathlib.Algebra.Order.BigOperators.Group.Finset
import Mathlib.Data.Fintype.BigOperators

/-!
# The message queues of a block driver

`mq.c` of libblockdriver: each device has a queue of messages, and the queues of all devices
take their cells from one pool.
-/

open Function

namespace HardenedMinix.Libblockdriver

abbrev maxDevices : Nat := 32

def mqSize : Nat := 128

inductive RequestType
  | open | close | read | write | gather | scatter | ioctl
  deriving DecidableEq, Repr

/-- A request: its sender, its type, the `BDEV_ID` that the reply repeats, and the IPC status
it has come with. -/
structure Request where
  source : Int
  type : RequestType
  id : Int
  ipcStatus : Nat
  deriving DecidableEq, Repr

def Request.isTransferReq (m : Request) : Bool :=
  match m.type with
  | .read | .write | .gather | .scatter => true
  | .open | .close | .ioctl => false

/-- `queue` and the number of cells on `free_list`. -/
structure Mq where
  free : Nat
  queue : Fin maxDevices → List Request

namespace Mq

variable {q q' : Mq} {d : Fin maxDevices} {m : Request}

/-- `mq_init` -/
def init : Mq := ⟨mqSize, fun _ => []⟩

/-- `mq_enqueue`: nothing when there is no free cell. -/
def enqueue (q : Mq) (d : Fin maxDevices) (m : Request) : Option Mq :=
  if q.free = 0 then none
  else some ⟨q.free - 1, update q.queue d (q.queue d ++ [m])⟩

/-- `mq_dequeue`: nothing when the queue of the device is empty. -/
def dequeue (q : Mq) (d : Fin maxDevices) : Option (Request × Mq) :=
  match q.queue d with
  | [] => none
  | m :: rest => some (m, ⟨q.free + 1, update q.queue d rest⟩)

theorem enqueue_eq_none : q.enqueue d m = none ↔ q.free = 0 := by
  unfold enqueue
  split_ifs with h <;> simp [h]

theorem enqueue_spec (h : q.enqueue d m = some q') : q.free = q'.free + 1 ∧
    q'.queue d = q.queue d ++ [m] ∧ ∀ e, e ≠ d → q'.queue e = q.queue e := by
  unfold enqueue at h
  split_ifs at h with hfree
  obtain rfl := Option.some.inj h
  refine ⟨?_, update_self .., fun e he => update_of_ne he ..⟩
  have hpos : q.free - 1 + 1 = q.free := Nat.sub_add_cancel (Nat.pos_of_ne_zero hfree)
  exact hpos.symm

theorem dequeue_eq_none : q.dequeue d = none ↔ q.queue d = [] := by
  unfold dequeue
  split
  · next h => simp [h]
  · next h => simp [h]

theorem dequeue_spec (h : q.dequeue d = some (m, q')) : q'.free = q.free + 1 ∧
    q.queue d = m :: q'.queue d ∧ ∀ e, e ≠ d → q'.queue e = q.queue e := by
  unfold dequeue at h
  split at h
  · cases h
  next m' rest hq =>
  obtain ⟨rfl, rfl⟩ := Prod.mk.inj (Option.some.inj h)
  refine ⟨rfl, ?_, fun e he => update_of_ne he ..⟩
  change q.queue d = m' :: update q.queue d rest d
  rw [hq, update_self]

def queued (q : Mq) : Nat := ∑ d, (q.queue d).length

theorem queued_change (h : ∀ e, e ≠ d → q'.queue e = q.queue e) :
    q'.queued + (q.queue d).length = q.queued + (q'.queue d).length := by
  have hrest : ∑ e ∈ Finset.univ.erase d, (q'.queue e).length =
      ∑ e ∈ Finset.univ.erase d, (q.queue e).length :=
    Finset.sum_congr rfl fun e he => by rw [h e (Finset.ne_of_mem_erase he)]
  unfold queued
  rw [← Finset.add_sum_erase _ _ (Finset.mem_univ d), ← Finset.add_sum_erase _ _ (Finset.mem_univ d),
    hrest]
  omega

theorem init_conserved : init.free + init.queued = mqSize := by
  simp [init, queued]

theorem enqueue_conserved (h : q.enqueue d m = some q') :
    q'.free + q'.queued = q.free + q.queued := by
  obtain ⟨hfree, hd, hrest⟩ := enqueue_spec h
  have hsum := queued_change hrest
  rw [hd, List.length_append, List.length_singleton] at hsum
  omega

theorem dequeue_conserved (h : q.dequeue d = some (m, q')) :
    q'.free + q'.queued = q.free + q.queued := by
  obtain ⟨hfree, hd, hrest⟩ := dequeue_spec h
  have hsum := queued_change hrest
  rw [hd, List.length_cons] at hsum
  omega

end Mq

end HardenedMinix.Libblockdriver
