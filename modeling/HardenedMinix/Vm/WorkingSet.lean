import HardenedMinix.Lib.Ledger
import HardenedMinix.Lib.Loop
import HardenedMinix.Lib.Owned
import HardenedMinix.Kernel.Types

/-!
# The working sets of VM

The list `vm_lus1_us2` of each process, as `vmpram.c`, `vmcow.c`, fork, exec and exit change it,
with a ledger of the frames that `alloc_mem` handed out and `free_mem` got back.
-/

namespace HardenedMinix.Vm

open Lib Linked

/-! ## Data -/

/-- `VM_FIRST_RUN` and `VM_SECOND_RUN`. -/
inductive Run where
  | first
  | second
  deriving DecidableEq, Repr

def Run.other : Run → Run
  | .first => .second
  | .second => .first

/-- `struct pram_mem_block` of VM; `MAP_NONE` is `none`. -/
structure Pmb where
  id : Nat
  slotFree : Bool
  vaddr : VirBytes
  us0 : Option Frame
  us1 : Option Frame
  us2 : Option Frame
  nextPmb : Option (Fin workingSetSize)
  deriving DecidableEq

instance : Linked Pmb workingSetSize where
  next b := b.nextPmb
  setNext b o := { b with nextPmb := o }
  free b := b.slotFree
  next_setNext _ _ := rfl
  free_setNext _ _ := rfl
  setNext_next _ := rfl

/-- `us1` or `us2`. -/
def Pmb.frame (b : Pmb) : Run → Option Frame
  | .first => b.us1
  | .second => b.us2

def Pmb.setFrame (b : Pmb) (r : Run) (f : Frame) : Pmb :=
  match r with
  | .first => { b with us1 := some f }
  | .second => { b with us2 := some f }

def Pmb.Paired (b : Pmb) : Prop := b.us1 ≠ none ∧ b.us2 ≠ none

instance (b : Pmb) : Decidable b.Paired := inferInstanceAs (Decidable (_ ∧ _))

/-- `working_set` of VM, with `get_pmb` and what `free_pram_mem_block` writes. -/
def pmbPool : Pool Pmb workingSetSize where
  reset b := { b with
    slotFree := false, vaddr := mapNone, us0 := none, us1 := none, us2 := none, nextPmb := none }
  clear b := { b with
    id := 0, slotFree := true, vaddr := mapNone, us0 := none, us1 := none, us2 := none }
  init b := { b with slotFree := true, vaddr := 0, us0 := some 0, us1 := some 0, us2 := some 0 }
  zero := ⟨0, false, 0, some 0, some 0, some 0, none⟩
  free_reset _ := rfl
  free_clear _ := rfl
  free_init _ := rfl
  free_zero := rfl
  two_le := two_le_workingSetSize

/-- The part of `struct vmproc` for hardening. -/
structure VmProc where
  /-- `VMF_INUSE` -/
  inuse : Bool
  /-- `vm_endpoint` is not `NONE`. -/
  hasEndpoint : Bool
  /-- `VM_PROC_TO_HARD` -/
  toHard : Bool
  lus1Us2 : Option (Fin workingSetSize)
  lus1Us2Size : Nat

structure State where
  workingSet : Table Pmb workingSetSize
  vmproc : ProcNr → VmProc
  hardeningEnabled : Bool
  /-- the frames the next calls of `alloc_mem` return -/
  mem : List Frame
  /-- the frames allocated for hardening and those passed to `free_mem`, by process -/
  ledger : List (Posting ProcNr Frame)

variable {s s' : State} {p : ProcNr}

namespace State

def setVmproc (s : State) (p : ProcNr) (x : VmProc) : State :=
  { s with vmproc := Function.update s.vmproc p x }

def setPmb (s : State) (i : Fin workingSetSize) (b : Pmb) : State :=
  { s with workingSet := Function.update s.workingSet i b }

/-- Replace the table and the list head and size of one process. -/
def setWs (s : State) (t : Table Pmb workingSetSize) (p : ProcNr)
    (first : Option (Fin workingSetSize)) (size : Nat) : State :=
  { s with
    workingSet := t
    vmproc := Function.update s.vmproc p
      { s.vmproc p with lus1Us2 := first, lus1Us2Size := size } }

end State

/-- `alloc_mem(1, ...)` for `p`; `none` is `NO_MEM`, at which all callers panic. -/
def allocMem (s : State) (p : ProcNr) : Option (State × Frame) :=
  match s.mem with
  | [] => none
  | f :: mem => some ({ s with mem := mem, ledger := s.ledger ++ [.out p f] }, f)

/-! ## `vmpram.c` -/

def lookUpPte (s : State) (p : ProcNr) (v : VirBytes) : Option (Fin workingSetSize) :=
  if 0 < (s.vmproc p).lus1Us2Size then
    search s.workingSet (fun b => samePage b.vaddr v) workingSetSize (s.vmproc p).lus1Us2
  else none

def addPmb (s : State) (p : ProcNr) (v : VirBytes) (pfa : Frame) (us1 us2 : Option Frame) :
    Option State :=
  match pmbPool.getSlot s.workingSet with
  | none => none
  | some (t, i) =>
    let t := Function.update t i
      { t i with us0 := some pfa, vaddr := v, us1 := us1, us2 := us2 }
    match insertLast t (s.vmproc p).lus1Us2 (s.vmproc p).lus1Us2Size i with
    | none => none
    | some (t, first) =>
      let t := Function.update t i { t i with id := (s.vmproc p).lus1Us2Size }
      some (s.setWs t p first ((s.vmproc p).lus1Us2Size + 1))

/-- A turn of `tell_kernel_for_us1_us2`, for a page and its frame. After any answer but `OK` the
caller panics. -/
def tellPage (p : ProcNr) (s : State) (page : VirBytes × Frame) : Option State :=
  match lookUpPte s p page.1 with
  | some i => some (s.setPmb i { s.workingSet i with us0 := some page.2 })
  | none => do
    let (s, us1) ← allocMem s p
    let (s, us2) ← allocMem s p
    addPmb s p page.1 page.2 (some us1) (some us2)

/-- The pages from `v` on and their frames from `phys` on. -/
def pagesFrom (v : VirBytes) (phys : Frame) (bytes : Nat) : List (VirBytes × Frame) :=
  (List.range (bytes / 4096)).map (fun k => ((v + k * 4096) % 2 ^ 32, phys + k))

def tellKernelForUs1Us2 (s : State) (p : ProcNr) (v : VirBytes) (phys : Frame) (bytes : Nat) :
    Option State :=
  (pagesFrom v phys bytes).foldlM (tellPage p) s

/-- `free_pram_mem_block`; `none` is the assertion that the list is not empty. -/
def freePramMemBlock (s : State) (p : ProcNr) (v : VirBytes) : Option State :=
  if (s.vmproc p).lus1Us2Size = 0 then none
  else
    let here := fun b : Pmb => samePage b.vaddr v
    match search s.workingSet here workingSetSize (s.vmproc p).lus1Us2,
      unlink s.workingSet here pmbPool.clear (s.vmproc p).lus1Us2 with
    | some i, some (t, first) =>
      some { s.setWs t p first ((s.vmproc p).lus1Us2Size - 1) with
        -- both are freed, whether they are frames or not
        ledger := s.ledger ++
          [.back p (s.workingSet i).us1, .back p (s.workingSet i).us2] }
    | _, _ => some s

/-- A turn of `free_region_pmbs`. -/
def freePage (p : ProcNr) (s : State) (v : VirBytes) : Option State :=
  match lookUpPte s p v with
  | none => some s
  | some i => freePramMemBlock s p (s.workingSet i).vaddr

def freeRegionPmbs (s : State) (p : ProcNr) (raddr length : Nat) : Option State :=
  if (s.vmproc p).lus1Us2Size ≤ 0 then some s
  else (pagesCovered raddr length).foldlM (freePage p) s

/-- `free_pram_mem_blocks`, with the assertions at its end. -/
def freePramMemBlocks (s : State) (p : ProcNr) : Option State :=
  if (s.vmproc p).lus1Us2Size ≤ 0 then some s
  else
    match whileNext (fun s i => (s.workingSet i).nextPmb)
      (fun s i => freePramMemBlock s p (s.workingSet i).vaddr) workingSetSize s
      (s.vmproc p).lus1Us2 with
    | none => none
    | some s =>
      if (s.vmproc p).lus1Us2Size = 0 ∧ (s.vmproc p).lus1Us2 = none then some s else none

/-- The branch of `allocate_mem_4_hardening` for a page that has a block. -/
def allocateForBlock (s : State) (p : ProcNr) (i : Fin workingSetSize) (phys : Frame)
    (what : Run) : Option State :=
  let b := s.workingSet i
  let s := if b.us1 ≠ none ∧ b.us2 ≠ none then s.setPmb i { b with us0 := some phys } else s
  if b.us1 = none ∨ b.us2 = none then
    -- a frame is allocated, and used only if that of the run is the one that is missing
    match allocMem s p with
    | none => none
    | some (s, new) =>
      if b.frame what = none then some (s.setPmb i ((s.workingSet i).setFrame what new))
      else some s
  else some s

/-- `allocate_mem_4_hardening` for the page at `v` in the frame `phys`. -/
def allocateMem4Hardening (s : State) (p : ProcNr) (v : VirBytes) (phys : Frame) (what : Run) :
    Option State :=
  let s := s.setVmproc p { s.vmproc p with toHard := true }
  match lookUpPte s p v with
  | some i => allocateForBlock s p i phys what
  | none => do
    let (s, new) ← allocMem s p
    match what with
    | .first => addPmb s p v phys (some new) none
    | .second => addPmb s p v phys none (some new)

/-! ## Fork, exec and exit -/

def Live (s : State) (p : ProcNr) : Prop :=
  (s.vmproc p).inuse = true ∧ (s.vmproc p).hasEndpoint = true

instance (s : State) (p : ProcNr) : Decidable (Live s p) := inferInstanceAs (Decidable (_ ∧ _))

/-- `do_fork`. `copied`: page table and regions could be copied; `writes`: the calls of
`tell_kernel_for_us1_us2` when the pages are mapped again. -/
def doFork (s : State) (parent child : ProcNr) (copied : Bool)
    (writes : List (VirBytes × Frame × Nat)) : Option State :=
  let s := s.setVmproc child { s.vmproc parent with hasEndpoint := false }
  if !copied then some s
  else
    match
      (if (s.vmproc parent).toHard then
        writes.foldlM (fun s w => tellKernelForUs1Us2 s parent w.1 w.2.1 w.2.2) s
      else some s) with
    | none => none
    | some s =>
      let vmc := { s.vmproc child with hasEndpoint := true }
      some (s.setVmproc child
        (if s.hardeningEnabled then { vmc with toHard := true, lus1Us2 := none, lus1Us2Size := 0 }
        else vmc))

def freeProc (s : State) (p : ProcNr) (pages : List VirBytes) : Option State :=
  if (s.vmproc p).toHard && (s.vmproc p).hasEndpoint && p != vmProcNr then
    pages.foldlM (fun s v => freeRegionPmbs s p v 4096) s
  else some s

def clearProc (s : State) (p : ProcNr) : Option State :=
  (freePramMemBlocks s p).map (fun s => s.setVmproc p { s.vmproc p with inuse := false })

def doExit (s : State) (p : ProcNr) (pages : List VirBytes) : Option State :=
  (freeProc s p pages).bind (fun s => clearProc s p)

/-! ## Runs -/

inductive Op where
  /-- `tell_kernel_for_us1_us2`, as `pt_writemap` calls it -/
  | tellKernel (p : ProcNr) (v : VirBytes) (phys : Frame) (bytes : Nat)
  /-- `allocate_mem_4_hardening`, on a fault of a run -/
  | pagefault (p : ProcNr) (v : VirBytes) (phys : Frame) (what : Run)
  /-- `free_region_pmbs`, when a page is given up -/
  | freeRegion (p : ProcNr) (raddr length : Nat)
  /-- `do_memconf` -/
  | memconf (p : ProcNr)
  | fork (parent child : ProcNr) (copied : Bool) (writes : List (VirBytes × Frame × Nat))
  /-- `do_procctl`, `VMPPARAM_CLEAR` -/
  | exec (p : ProcNr) (pages : List VirBytes)
  | exit (p : ProcNr) (pages : List VirBytes)
  /-- `do_hardening`: all forks, or one process -/
  | hardening (on : Bool)
  | hardeningP (p : ProcNr) (on : Bool)

/-- The processes named are those the operation needs. -/
def Op.Enabled (s : State) : Op → Prop
  | .tellKernel p _ _ _ => Live s p
  | .pagefault p _ _ _ => Live s p
  | .freeRegion p _ _ => Live s p
  | .memconf p => Live s p
  -- PM names a slot that no process has
  | .fork parent child _ _ => Live s parent ∧ ¬ Live s child
  | .exec p _ => Live s p
  | .exit p _ => Live s p
  | .hardening _ => True
  | .hardeningP p _ => Live s p

/-- One operation; `none` is a panic or an assertion. -/
def step (s : State) : Op → Option State
  | .tellKernel p v phys bytes => tellKernelForUs1Us2 s p v phys bytes
  | .pagefault p v phys what => allocateMem4Hardening s p v phys what
  | .freeRegion p raddr length => freeRegionPmbs s p raddr length
  | .memconf p => freePramMemBlocks s p
  | .fork parent child copied writes => doFork s parent child copied writes
  | .exec p pages => freeProc s p pages
  | .exit p pages => doExit s p pages
  | .hardening on => some { s with hardeningEnabled := on }
  | .hardeningP p on => some (s.setVmproc p { s.vmproc p with toHard := on })

structure Boot (s : State) : Prop where
  workingSet : s.workingSet = pmbPool.initTable
  lus1Us2 : ∀ p, (s.vmproc p).lus1Us2 = none
  lus1Us2Size : ∀ p, (s.vmproc p).lus1Us2Size = 0
  ledger : s.ledger = []

/-- What `alloc_mem` may return: frames that are not out, each once. -/
def Fresh (s : State) (mem : List Frame) : Prop :=
  mem.Nodup ∧ ∀ f ∈ mem, holder s.ledger f = none

/-- The states of the runs whose operations all meet `Cond` in the state they start from. -/
inductive Reachable (Cond : State → Op → Prop) : State → Prop where
  | boot {s : State} : Boot s → Reachable Cond s
  | step {s s' : State} {op : Op} {mem : List Frame} : Reachable Cond s → op.Enabled s →
      Fresh s mem → Cond s op → Vm.step { s with mem := mem } op = some s' → Reachable Cond s'

end HardenedMinix.Vm
