import HardenedMinix.Kernel.WorkingSet

/-!
# Memory events

When the kernel writes into the memory of a hardened process it records the range as an event
(`sch.c`). At the next first run the private frames of these pages are brought up to date
(`us0h.c`).
-/

open Function

namespace HardenedMinix

open Lib Linked

namespace Kernel

/-- Replace the event table and the event list head and size of one process. -/
def setHmes (k : Kernel) (t : Table HardeningMemEvent hardeningMemEventsSize) (p : ProcNr)
    (first : Option (Fin hardeningMemEventsSize)) (nb : Nat) : Kernel :=
  { k with
    hardeningMemEvents := t
    procs := update k.procs p
      { k.procs p with hardeningMemEvents := first, nbHardeningMemEvents := nb } }

/-- `hme->next_hme`. -/
def nextHme (k : Kernel) (i : Fin hardeningMemEventsSize) :
    Option (Fin hardeningMemEventsSize) :=
  (k.hardeningMemEvents i).nextHme

end Kernel

def lookUpHme (k : Kernel) (rp : ProcNr) (offset : VirBytes) :
    Option (Fin hardeningMemEventsSize) :=
  if (k.procs rp).nbHardeningMemEvents ≤ 0 then none
  else
    search k.hardeningMemEvents (fun e => samePage e.addrBase offset) hardeningMemEventsSize
      (k.procs rp).hardeningMemEvents

def addHmeEvent (k : Kernel) (rp : ProcNr) (offset size : Nat) : Option Kernel :=
  let npages := nPagesCovered offset size
  match lookUpHme k rp offset with
  | none =>
    match getHme k.hardeningMemEvents with
    | none => none
    | some (t, i) =>
      let t := update t i
        { t i with addrBase := offset, nbytes := size, npages := npages }
      match insertLast t (k.procs rp).hardeningMemEvents (k.procs rp).nbHardeningMemEvents i with
      | none => none
      | some (t, first) =>
        let t := update t i { t i with id := (k.procs rp).nbHardeningMemEvents }
        some (k.setHmes t rp first ((k.procs rp).nbHardeningMemEvents + 1))
  | some i =>
    let e := k.hardeningMemEvents i
    if e.npages < npages then
      some { k with
        hardeningMemEvents := update k.hardeningMemEvents i
          { e with addrBase := offset, nbytes := size, npages := npages } }
    else some k

/-! ## Handling -/

/-- The block is read before the test for `NULL`: `none` is a page outside the working set. -/
def updateWsUs1Us2DataVaddr (rp : ProcNr) (k : Kernel) (vaddr : VirBytes) : Option Kernel :=
  match lookUpPte k rp vaddr with
  | none => none
  | some i =>
    let b := k.workingSet i
    if b.flags.hExec then some k
    else
      match b.us0, b.us1, b.us2 with
      | some us0, some us1, some us2 =>
        let k := (k.cpyFrames us0 us1).cpyFrames us0 us2
        some (k.setPmb i { b with flags := { b.flags with iwsModKernel := true } })
      | _, _, _ => some k

def updateRangeWsUs1Us2Data (k : Kernel) (rp : ProcNr) (offset nPages : Nat) : Option Kernel :=
  ((List.range nPages).map (fun i => (pageBase offset + i * 4096) % 2 ^ 32)).foldlM
    (updateWsUs1Us2DataVaddr rp) k

def handleHmeEvents (k : Kernel) (rp : ProcNr) : Option Kernel :=
  if (k.procs rp).nbHardeningMemEvents ≤ 0 then some k
  else
    whileNext Kernel.nextHme
      (fun k i =>
        let e := k.hardeningMemEvents i
        updateRangeWsUs1Us2Data k rp e.addrBase e.npages)
      hardeningMemEventsSize k (k.procs rp).hardeningMemEvents

def freeHardeningMemEvent (k : Kernel) (rp : ProcNr) (id : Nat) : Kernel :=
  if (k.procs rp).nbHardeningMemEvents ≤ 0 then k
  else
    match unlink k.hardeningMemEvents (fun e => e.id == id) hmePool.clear
      (k.procs rp).hardeningMemEvents with
    | none => k
    | some (t, first) => k.setHmes t rp first ((k.procs rp).nbHardeningMemEvents - 1)

def freeHardeningMemEvents (k : Kernel) (rp : ProcNr) : Option Kernel :=
  if (k.procs rp).nbHardeningMemEvents ≤ 0 then some k
  else
    match
      whileNext Kernel.nextHme
        (fun k i => some (freeHardeningMemEvent k rp (k.hardeningMemEvents i).id))
        hardeningMemEventsSize k (k.procs rp).hardeningMemEvents with
    | none => none
    | some k =>
      if (k.procs rp).nbHardeningMemEvents == 0 && (k.procs rp).hardeningMemEvents == none then
        some k
      else none

end HardenedMinix
