import HardenedMinix.Lib.Loop
import HardenedMinix.Lib.Owned
import HardenedMinix.Kernel.Pools

/-!
# The working set lists

The operations of `pram.c` on the list `p_lus1_us2` of a process: look-up, insertion and
the three ways to free blocks, with the kernel calls that lead to them.
-/

namespace HardenedMinix

open Lib Linked

namespace Kernel

/-- Replace the table and the list head and size of one process. -/
def setWs (k : Kernel) (t : Table PramMemBlock workingSetSize) (p : ProcNr)
    (first : Option (Fin workingSetSize)) (size : Nat) : Kernel :=
  { k with
    workingSet := t
    procs := Function.update k.procs p { k.procs p with lus1Us2 := first, lus1Us2Size := size } }

/-- `pmb->next_pmb`. -/
def nextPmb (k : Kernel) (i : Fin workingSetSize) : Option (Fin workingSetSize) :=
  (k.workingSet i).nextPmb

/-- `while (pmb) { ...; pmb = pmb->next_pmb; }` over the list of `p`. -/
def forPmbs (k : Kernel) (p : ProcNr) (body : Kernel → Fin workingSetSize → Option Kernel) :
    Option Kernel :=
  whileNext nextPmb body workingSetSize k (k.procs p).lus1Us2

end Kernel

def lookUpPte (k : Kernel) (p : ProcNr) (v : VirBytes) : Option (Fin workingSetSize) :=
  if 0 < (k.procs p).lus1Us2Size then
    search k.workingSet (fun b => samePage b.vaddr v) workingSetSize (k.procs p).lus1Us2
  else none

/-! ## Insertion -/

def addPmbVaddr (k : Kernel) (p : ProcNr) (pfa : Frame) (vaddr : VirBytes)
    (us1 us2 : Option Frame) : Option (Kernel × Fin workingSetSize) :=
  match getPmb k.workingSet with
  | none => none
  | some (t, i) =>
    let t := Function.update t i
      { t i with us0 := some pfa, vaddr := vaddr, us1 := us1, us2 := us2 }
    match insertLast t (k.procs p).lus1Us2 (k.procs p).lus1Us2Size i with
    | none => none
    | some (t, first) =>
      let t := Function.update t i { t i with id := (k.procs p).lus1Us2Size }
      some (k.setWs t p first ((k.procs p).lus1Us2Size + 1), i)

/-- The flags `add_region_to_ws` leaves on a block it found or made. -/
def regionFlags (b : PramMemBlock) : PmbFlags :=
  let f := if b.flags.hFork then { b.iflags with hFork := false } else b.flags
  let f := if f.hExec then { b.iflags with hExec := false } else f
  { f with hToUpdate := true }

/-- One turn of `add_region_to_ws`. -/
def addPageToWs (p : ProcNr) (us1 us2 : Option Frame) (k : Kernel) (vaddr : VirBytes) :
    Option Kernel :=
  let pfa := (k.getPte p vaddr).pfa
  match
    (match lookUpPte k p vaddr with
      | none => addPmbVaddr k p pfa vaddr us1 us2
      | some i => some (k.setPmb i { k.workingSet i with us0 := some pfa }, i)) with
  | none => none
  | some (k, i) =>
    some (k.setPmb i { k.workingSet i with flags := regionFlags (k.workingSet i) })

def addRegionToWs (k : Kernel) (p : ProcNr) (rBaseAddr length : Nat) (us1 us2 : Option Frame) :
    Option Kernel :=
  (pagesCovered rBaseAddr length).foldlM (addPageToWs p us1 us2) k

def doAddregiontoWs (k : Kernel) (p : ProcNr) (raddr rlength : Nat) (us1 us2 : Option Frame) :
    Option Kernel :=
  if (k.procs p).inUse && (k.procs p).procToHard then addRegionToWs k p raddr rlength us1 us2
  else some k

/-! ## Freeing -/

def freePramMemBlock (k : Kernel) (p : ProcNr) (vaddr : VirBytes) : Kernel :=
  if (k.procs p).lus1Us2Size ≤ 0 then k
  else
    match unlink k.workingSet (fun b => samePage b.vaddr vaddr) pmbPool.clear
      (k.procs p).lus1Us2 with
    | none => k
    | some (t, first) => k.setWs t p first ((k.procs p).lus1Us2Size - 1)

/-- The assertions at the end are not made for `FROM_EXEC`. -/
def freePramMemBlocks (k : Kernel) (p : ProcNr) (fromExec : Bool) : Option Kernel :=
  if (k.procs p).lus1Us2Size ≤ 0 then some k
  else
    match k.forPmbs p (fun k i =>
      if (k.workingSet i).flags.hToUpdate && fromExec then some k
      else some (freePramMemBlock k p (k.workingSet i).vaddr)) with
    | none => none
    | some k =>
      if fromExec || ((k.procs p).lus1Us2Size == 0 && (k.procs p).lus1Us2 == none) then some k
      else none

/-- One turn of `free_pram_mem_block_vaddr`. -/
def freePage (p : ProcNr) (k : Kernel) (vaddr : VirBytes) : Kernel :=
  match lookUpPte k p vaddr with
  | none => k
  | some i => freePramMemBlock k p (k.workingSet i).vaddr

def freePramMemBlockVaddr (k : Kernel) (p : ProcNr) (raddr len : Nat) : Kernel :=
  if (k.procs p).lus1Us2Size ≤ 0 then k
  else (pagesCovered raddr len).foldl (freePage p) k

def doFreePmbs (k : Kernel) (p : ProcNr) (raddr len : Nat) : Kernel :=
  if (k.procs p).inUse && (k.procs p).procToHard then freePramMemBlockVaddr k p raddr len
  else k

/-- `do_exec`, as far as the working set goes. -/
def doExec (k : Kernel) (p : ProcNr) : Option Kernel :=
  if (k.procs p).inUse && (k.procs p).procToHard then freePramMemBlocks k p true
  else some k

def setForkLabel (k : Kernel) (p : ProcNr) : Option Kernel :=
  if (k.procs p).lus1Us2Size ≤ 0 then some k
  else
    k.forPmbs p (fun k i =>
      some (k.setPmb i { k.workingSet i with
        iflags := (k.workingSet i).flags
        flags := { PmbFlags.zero with hFork := true } }))

end HardenedMinix
