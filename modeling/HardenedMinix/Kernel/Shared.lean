import HardenedMinix.Kernel.Events

/-!
# Shared regions

The regions a process shares with others (`smh.c`), on several lists always through one link
field. Lists can thus run into each other; `none` is a null dereference, a failed assertion or a
walk that does not end.
-/

open Function

namespace HardenedMinix

open Lib Linked

namespace Kernel

def setHsr (k : Kernel) (i : Fin hardeningSharedRegionsSize) (r : HardeningSharedRegion) :
    Kernel :=
  { k with hardeningSharedRegions := update k.hardeningSharedRegions i r }

/-- Replace the region list head and size of one process. -/
def setHsrs (k : Kernel) (p : ProcNr) (first : Option (Fin hardeningSharedRegionsSize))
    (nb : Int) : Kernel :=
  k.setProc p
    { k.procs p with hardeningSharedRegions := first, nbHardeningSharedRegions := nb }

end Kernel

/-! ## Look-up -/

/-- The walk through the regions of a process. -/
def findHsr (k : Kernel) (first : Option (Fin hardeningSharedRegionsSize))
    (pred : HardeningSharedRegion → Bool) : Option (Fin hardeningSharedRegionsSize) :=
  search k.hardeningSharedRegions pred hardeningSharedRegionsSize first

def lookUpHsr (k : Kernel) (rp : ProcNr) (offset length rId : Nat) :
    Option (Fin hardeningSharedRegionsSize) :=
  if (k.procs rp).nbHardeningSharedRegions ≤ 0 then none
  else
    findHsr k (k.procs rp).hardeningSharedRegions
      (fun r => r.vaddr == offset && length == r.length && r.rId == rId)

def lookUpUniqueHsr (k : Kernel) (rId : Nat) : Option (Fin hardeningSharedRegionsSize) :=
  if k.nHsrs ≤ 0 then none else findHsr k k.allHsrS (fun r => r.rId == rId)

/-- `look_up_page_in_hsr` returns `OK`. The upper bound of a region counts as inside. -/
def lookUpPageInHsr (k : Kernel) (rp : ProcNr) (vaddr : VirBytes) : Bool :=
  if (k.procs rp).nbHardeningSharedRegions ≤ 0 then false
  else if !(k.procs rp).procSharingMem then false
  else
    (findHsr k (k.procs rp).hardeningSharedRegions
      (fun r => r.vaddr ≤ vaddr && vaddr ≤ (r.vaddr + r.length) % 2 ^ 32)).isSome

def lookUpHsrVaddr (k : Kernel) (rp : ProcNr) (vaddr size : Nat) :
    Option (Fin hardeningSharedRegionsSize) :=
  if (k.procs rp).nbHardeningSharedRegions ≤ 0 then none
  else
    findHsr k (k.procs rp).hardeningSharedRegions
      (fun r => r.vaddr ≤ (vaddr + size) % 2 ^ 32 &&
        (vaddr + size) % 2 ^ 32 ≤ (r.vaddr + r.length) % 2 ^ 32)

/-- `look_up_hsp` and `look_up_unique_hsp`: the walk through a list of process entries. -/
def findHsp (k : Kernel) (first : Option (Fin hardeningSharedProcsSize)) (n : Int)
    (endpoint : Nat) :
    Option (Fin hardeningSharedProcsSize) :=
  if n ≤ 0 then none
  else
    search k.hardeningSharedProcs (fun s => s.hspEndpoint == endpoint) hardeningSharedProcsSize
      first

/-! ## Insertion -/

/-- `if (all == NULL) all = r; else { walk to the last one; last->next = r; r->next = NULL; }` -/
def addAll {α : Type} {n : Nat} [Linked α n] (t : Table α n) (all : Option (Fin n)) (r : Fin n) :
    Table α n × Option (Fin n) :=
  match all with
  | none => (t, some r)
  | some i =>
    let last := lastFrom t n i
    let t := update t last (setNext (t last) (some r))
    (update t r (setNext (t r) none), some i)

def addHsp (k : Kernel) (rp : ProcNr) (h : Fin hardeningSharedRegionsSize) : Option Kernel :=
  let endpoint := (k.procs rp).endpoint
  let r := k.hardeningSharedRegions h
  match findHsp k r.rHsp r.nHsp endpoint with
  | some _ => some k
  | none =>
    match
      (match findHsp k k.allHspS k.nHsps endpoint with
        | some s => some (k, s)
        | none =>
          match getHsp k.hardeningSharedProcs with
          | none => none
          | some (t, s) =>
            let t := update t s { t s with hspEndpoint := endpoint, id := r.nHsp }
            let (t, all) := addAll t k.allHspS s
            some ({ k with hardeningSharedProcs := t, allHspS := all, nHsps := k.nHsps + 1 }, s)) with
    | none => none
    | some (k, s) =>
      match insertLast k.hardeningSharedProcs r.rHsp r.nHsp.natAbs s with
      | none => none
      | some (t, first) =>
        some ({ k with hardeningSharedProcs := t }.setHsr h
          { r with rHsp := first, nHsp := r.nHsp + 1 })

def addHsr (k : Kernel) (rp : ProcNr) (offset size rId : Nat) : Option Kernel :=
  match lookUpHsr k rp offset size rId with
  | some _ => some k
  | none =>
    match
      (match lookUpUniqueHsr k rId with
        | some h => some (k, h)
        | none =>
          match getHsr k.hardeningSharedRegions with
          | none => none
          | some (t, h) =>
            let t := update t h { t h with
              vaddr := offset, length := size, rId := rId
              id := (k.procs rp).nbHardeningSharedRegions }
            let (t, all) := addAll t k.allHsrS h
            some ({ k with hardeningSharedRegions := t, allHsrS := all, nHsrs := k.nHsrs + 1 }, h)) with
    | none => none
    | some (k, h) =>
      match insertLast k.hardeningSharedRegions (k.procs rp).hardeningSharedRegions
        (k.procs rp).nbHardeningSharedRegions.natAbs h with
      | none => none
      | some (t, first) =>
        let k := { k with hardeningSharedRegions := t }.setHsrs rp first
          (k.procs rp).nbHardeningSharedRegions
        match addHsp k rp h with
        | none => none
        | some k =>
          some (k.setHsrs rp (k.procs rp).hardeningSharedRegions
            ((k.procs rp).nbHardeningSharedRegions + 1))

/-- `do_hmem_map` with `HMEM_MAP_PRAM2_ADDR == -10L`. -/
def doHmemMapShared (k : Kernel) (p : ProcNr) (offset size rId : Nat) : Option Kernel :=
  if (k.procs p).inUse && (k.procs p).procToHard then
    match addHsr k p offset size rId with
    | none => none
    | some k => some (k.setProc p { k.procs p with procSharingMem := true })
  else some k

/-! ## Freeing -/

/-- The entry is taken off the list of the region but not freed. -/
def freeHspFromHsr (k : Kernel) (rp : ProcNr) (h : Fin hardeningSharedRegionsSize) : Kernel :=
  let r := k.hardeningSharedRegions h
  match unlink k.hardeningSharedProcs (fun s => s.hspEndpoint == (k.procs rp).endpoint) id
    r.rHsp with
  | none => k
  | some (t, first) =>
    { k with hardeningSharedProcs := t }.setHsr h { r with rHsp := first, nHsp := r.nHsp - 1 }

def freeHsrFromAllHsrS (k : Kernel) (h : Fin hardeningSharedRegionsSize) : Kernel :=
  match unlink k.hardeningSharedRegions
    (fun r => r.rId == (k.hardeningSharedRegions h).rId) id k.allHsrS with
  | none => k
  | some (t, all) => { k with hardeningSharedRegions := t, allHsrS := all, nHsrs := k.nHsrs - 1 }

def freeHspFromAllHspS (k : Kernel) (rp : ProcNr) : Kernel :=
  match unlink k.hardeningSharedProcs (fun s => s.hspEndpoint == (k.procs rp).endpoint)
    hspPool.clear k.allHspS with
  | none => k
  | some (t, all) => { k with hardeningSharedProcs := t, allHspS := all, nHsps := k.nHsps - 1 }

/-- The previous region is kept: the lists of all regions and of the process share their links. -/
def freeHsr (k : Kernel) (rp : ProcNr) (id : Int) : Kernel :=
  match searchPrev k.hardeningSharedRegions (fun r => r.id == id) hardeningSharedRegionsSize
    none (k.procs rp).hardeningSharedRegions with
  | none => k
  | some (prev, h) =>
    let k := freeHspFromHsr k rp h
    let k :=
      if (k.hardeningSharedRegions h).rHsp = none then
        freeHsrFromAllHsrS (k.setHsr h (hsrPool.clear (k.hardeningSharedRegions h))) h
      else k
    let nb := (k.procs rp).nbHardeningSharedRegions - 1
    let rest := (k.hardeningSharedRegions h).nextHsr
    match prev with
    | some j =>
      (k.setHsr j { k.hardeningSharedRegions j with nextHsr := rest }).setHsrs rp
        (k.procs rp).hardeningSharedRegions nb
    | none => k.setHsrs rp rest nb

def freeHsrs (k : Kernel) (rp : ProcNr) : Option Kernel :=
  if (k.procs rp).nbHardeningSharedRegions ≤ 0 then some k
  else
    match
      whileNext (fun (k : Kernel) h => (k.hardeningSharedRegions h).nextHsr)
        (fun k h => some (freeHsr k rp (k.hardeningSharedRegions h).id))
        hardeningSharedRegionsSize k (k.procs rp).hardeningSharedRegions with
    | none => none
    | some k =>
      if (k.procs rp).nbHardeningSharedRegions == 0 &&
          (k.procs rp).hardeningSharedRegions == none then
        some (freeHspFromAllHspS k rp)
      else none

/-- The event is recorded once for each process of the region, but always on `rp`. `none`: no
region. -/
def enableHmeEventInProcs (k : Kernel) (rp : ProcNr) (vaddr size : Nat) : Option Kernel :=
  if (k.procs rp).nbHardeningSharedRegions ≤ 0 then some k
  else
    match lookUpHsrVaddr k rp vaddr size with
    | none => none
    | some h =>
      whileNext (fun (k : Kernel) s => (k.hardeningSharedProcs s).nextHsp)
        (fun k _ => addHmeEvent k rp vaddr size) hardeningSharedProcsSize k
        (k.hardeningSharedRegions h).rHsp

end HardenedMinix
