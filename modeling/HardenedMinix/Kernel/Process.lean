import HardenedMinix.Kernel.Pram

/-!
# Processes

The kernel calls that create, end, harden and un-harden processes, as far as they touch the
hardening code: `do_fork`, `do_clear` and `do_hardening`.
-/

namespace HardenedMinix

open Lib

/-- `_ENDPOINT(gen, nr)` with the number of the slot counted from 0. -/
def endpointOf (gen : Nat) (p : ProcNr) : Nat := gen * 36558 + p.val

/-- `_ENDPOINT_G`. -/
def endpointGen (e : Nat) : Nat := e / 36558

/-- `++gen`, back to 1 at `_ENDPOINT_MAX_GENERATION`. -/
def nextGen (gen : Nat) : Nat := if gen + 1 ≥ 58740 then 1 else gen + 1

/-- The child `do_fork` makes of a parent in the slot `rpc`. -/
def forkedProc (k : Kernel) (rpp rpc : ProcNr) : Proc :=
  { k.procs rpp with
    endpoint := endpointOf (nextGen (endpointGen (k.procs rpc).endpoint)) rpc
    reg := { (k.procs rpp).reg with retreg := 0 }
    cpuTimeLeft := 0
    procToHard := k.hCanStartHardening
    procSharingMem := false
    lus1Us2 := none
    lus1Us2Size := 0
    hardeningMemEvents := none
    nbHardeningMemEvents := 0
    hardeningSharedRegions := none
    nbHardeningSharedRegions := 0
    -- `p_seg.p_cr3 = 0`; VM sets the page table of the child later
    pt := default }

def doFork (k : Kernel) (rpp rpc : ProcNr) : Option Kernel :=
  if !(k.procs rpp).inUse || (k.procs rpc).inUse then some k
  else
    let k := k.setProc rpc (forkedProc k rpp rpc)
    if (k.procs rpp).procToHard then setForkLabel k rpp else some k

def resetHardeningAttri (x : Proc) : Proc :=
  { x with
    procToHard := false
    procSharingMem := false
    lus1Us2 := none
    lus1Us2Size := 0
    hardeningMemEvents := none
    nbHardeningMemEvents := 0
    hardeningSharedRegions := none
    nbHardeningSharedRegions := 0 }

/-- The part of `do_clear` under `PROC_TO_HARD`. -/
def clearHardened (k : Kernel) (rc : ProcNr) : Option Kernel :=
  match freePramMemBlocks k rc false with
  | none => none
  | some k =>
    match freeHsrs k rc with
    | none => none
    | some k => some (k.setProc rc (resetHardeningAttri (k.procs rc)))

def doClear (k : Kernel) (rc : ProcNr) : Option Kernel :=
  if !(k.procs rc).inUse then some k
  else
    match (if (k.procs rc).procToHard then clearHardened k rc else some k) with
    | none => none
    | some k => some (k.setProc rc { k.procs rc with inUse := false })

/-- `do_hardening` with `HTASK_EN_HARDENING_PID` or `HTASK_DIS_HARDENING_PID`. -/
def doHardeningPid (k : Kernel) (hp : ProcNr) (enable : Bool) : Kernel :=
  if (k.procs hp).inUse then k.setProc hp { k.procs hp with procToHard := enable } else k

theorem doHardeningPid_of_ne (k : Kernel) {hp q : ProcNr} (enable : Bool) (hq : q ≠ hp) :
    (doHardeningPid k hp enable).procs q = k.procs q := by
  unfold doHardeningPid
  split
  · simp [Kernel.setProc, hq]
  · rfl

/-- `do_hardening` with `HTASK_EN_HARDENING_ALL_F` or `HTASK_DIS_HARDENING_ALL_F`. -/
def doHardeningAllF (k : Kernel) (enable : Bool) : Kernel :=
  { k with hCanStartHardening := enable }

end HardenedMinix
