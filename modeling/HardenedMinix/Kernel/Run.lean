import HardenedMinix.Kernel.Frames

/-!
# Runs of the kernel

The requests that reach the hardening code, in any order. What happens to page tables and frames
between two requests is free.
-/

namespace HardenedMinix

open Lib

/-- A request to the kernel, or a write to a page table or a frame. -/
inductive Op where
  /-- `do_addregionto_ws` -/
  | addRegionToWs (p : ProcNr) (raddr rlength : Nat) (us1 us2 : Option Frame)
  | freePramMemBlock (p : ProcNr) (vaddr : VirBytes)
  /-- `do_free_pmbs`, which leads to `free_pram_mem_block_vaddr` -/
  | freePmbs (p : ProcNr) (raddr len : Nat)
  /-- `do_exec`, which leads to `free_pram_mem_blocks` with `FROM_EXEC` -/
  | exec (p : ProcNr)
  | setPeMemToRo (p : ProcNr) (step : HStep)
  | setForkLabel (p : ProcNr)
  /-- `do_fork` -/
  | fork (rpp rpc : ProcNr)
  /-- `do_clear`, which leads to `free_pram_mem_blocks` without `FROM_EXEC` -/
  | clear (rc : ProcNr)
  /-- `do_hardening` for one process -/
  | hardeningPid (hp : ProcNr) (enable : Bool)
  /-- `do_hardening` for forked processes -/
  | hardeningAllF (enable : Bool)
  /-- `add_hme_event` -/
  | hmeEvent (p : ProcNr) (offset size : Nat)
  /-- `do_hmem_map` with a shared region -/
  | shareRegion (p : ProcNr) (offset size rId : Nat)
  /-- `check_vaddr_2` -/
  | checkVaddr (p : ProcNr) (step : HStep) (vaddr : VirBytes)
  /-- `do_hmem_map` with a private frame -/
  | hmemMap (p : ProcNr) (step : HStep)
  /-- `vm_reset_pram` -/
  | resetPram (p : ProcNr) (step : HStep) (endcmp : EndCmp)
  | cmpMem (p : ProcNr)
  /-- The page table of a process changes. -/
  | pageTable (p : ProcNr) (pt : PageTable)
  /-- The content of frames changes. -/
  | memory (mem : Frame → PageData)

/-- A request about a process that is not in use is turned down. -/
def onLive (k : Kernel) (p : ProcNr) (k' : Option Kernel) : Option Kernel :=
  if (k.procs p).inUse then k' else some k

/-- Carry out a request; `none` is a panic. -/
def Op.run (k : Kernel) : Op → Option Kernel
  | .addRegionToWs p raddr rlength us1 us2 => doAddregiontoWs k p raddr rlength us1 us2
  | .freePramMemBlock p vaddr => onLive k p (some (HardenedMinix.freePramMemBlock k p vaddr))
  | .freePmbs p raddr len => some (doFreePmbs k p raddr len)
  | .exec p => doExec k p
  | .setPeMemToRo p step => onLive k p (HardenedMinix.setPeMemToRo { k with hStep := step } p)
  | .setForkLabel p => onLive k p (HardenedMinix.setForkLabel k p)
  | .fork rpp rpc => doFork k rpp rpc
  | .clear rc => doClear k rc
  | .hardeningPid hp enable => some (doHardeningPid k hp enable)
  | .hardeningAllF enable => some (doHardeningAllF k enable)
  | .hmeEvent p offset size => onLive k p (addHmeEvent k p offset size)
  | .shareRegion p offset size rId => doHmemMapShared k p offset size rId
  | .checkVaddr p step vaddr =>
    onLive k p ((checkVaddr2 { k with hStep := step } p vaddr).map (·.1))
  | .hmemMap p step => onLive k p (vmHpagefault { k with hStep := step } p)
  | .resetPram p step endcmp => onLive k p (vmResetPram { k with hStep := step } p endcmp)
  | .cmpMem p => onLive k p ((HardenedMinix.cmpMem k p).map (·.1))
  | .pageTable p pt => some (k.setProc p { k.procs p with pt := pt })
  | .memory mem => some { k with mem := mem }

/-- A kernel fresh from `init_hardening`: the four tables are initialised and no process
has anything on its lists. -/
structure Initial (k : Kernel) : Prop where
  workingSet : k.workingSet = pmbPool.initTable
  hardeningMemEvents : k.hardeningMemEvents = hmePool.initTable
  hardeningSharedRegions : k.hardeningSharedRegions = hsrPool.initTable
  hardeningSharedProcs : k.hardeningSharedProcs = hspPool.initTable
  lus1Us2 : ∀ p, (k.procs p).lus1Us2 = none ∧ (k.procs p).lus1Us2Size = 0
  events : ∀ p, (k.procs p).hardeningMemEvents = none ∧ (k.procs p).nbHardeningMemEvents = 0

/-- The states of a kernel after requests that all satisfy `good` where they are made. -/
inductive Reachable (good : Kernel → Op → Prop) : Kernel → Prop where
  | init {k : Kernel} : Initial k → Reachable good k
  | step {k k' : Kernel} (op : Op) :
      Reachable good k → good k op → op.run k = some k' → Reachable good k'

theorem Reachable.invariant {good : Kernel → Op → Prop} {I : Kernel → Prop}
    (hinit : ∀ k, Initial k → I k)
    (hstep : ∀ k op k', I k → good k op → op.run k = some k' → I k') {k : Kernel}
    (h : Reachable good k) : I k := by
  induction h with
  | init h => exact hinit _ h
  | step _ _ hgood hrun ih => exact hstep _ _ _ ih hgood hrun

def runAll (k : Kernel) (ops : List Op) : Option Kernel := ops.foldlM Op.run k

theorem Reachable.runAll {k k' : Kernel} {ops : List Op} (h : Reachable (fun _ _ => True) k)
    (hrun : runAll k ops = some k') : Reachable (fun _ _ => True) k' :=
  foldlM_inv (fun op _ _ _ h hstep => .step op h trivial hstep) h hrun

/-! ## A kernel after boot -/

/-- A process of the boot image, with nothing on its lists. -/
def bootProc (p : ProcNr) : Proc where
  inUse := p.val < 20
  endpoint := p.val
  reg := default
  kernTrapStyle := .none
  rtsFlags := 0
  cpuTimeLeft := 0
  procToHard := false
  procSharingMem := false
  lus1Us2 := none
  lus1Us2Size := 0
  hardeningMemEvents := none
  nbHardeningMemEvents := 0
  hardeningSharedRegions := none
  nbHardeningSharedRegions := 0
  pt := default

/-- A kernel as `init_hardening` leaves it. -/
def bootKernel : Kernel where
  workingSet := pmbPool.initTable
  hardeningMemEvents := hmePool.initTable
  hardeningSharedRegions := hsrPool.initTable
  hardeningSharedProcs := hspPool.initTable
  allHsrS := none
  nHsrs := 0
  allHspS := none
  nHsps := 0
  procs := bootProc
  mem := fun _ _ => 0
  freeMem := []
  hCanStartHardening := false
  hEnable := false
  hProcNr := 0
  hStep := .noHardRun
  hRestore := .none
  pagefaultAddr1 := 0
  pagefaultAddr2 := 0
  cr := default
  copy0 := default
  ctx1 := default
  ctx2 := default

theorem bootKernel_initial : Initial bootKernel :=
  ⟨rfl, rfl, rfl, rfl, fun _ => ⟨rfl, rfl⟩, fun _ => ⟨rfl, rfl⟩⟩

end HardenedMinix
