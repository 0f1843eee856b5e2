import HardenedMinix.Lib.Chain
import HardenedMinix.Kernel.Registers

/-!
# Data model of the hardening code

The tables of `htype.h` and the fields of `struct proc` the hardening code uses. An `int` of flags
is a record of the bits the code tests. A physical address is the number of its frame; `MAP_NONE`
is `none`. Virtual addresses are reduced modulo `2 ^ 32` where they can wrap.
-/

open Function

namespace HardenedMinix

open Lib

/-! ## Sizes and addresses -/

abbrev workingSetSize : Nat := 32768

theorem two_le_workingSetSize : 2 ≤ workingSetSize := by decide
abbrev hardeningMemEventsSize : Nat := 10000
abbrev hardeningSharedRegionsSize : Nat := 50
abbrev hardeningSharedProcsSize : Nat := 100

/-- `NR_TASKS + NR_PROCS`. -/
abbrev nrSlots : Nat := 261

instance neZero_nrSlots : NeZero nrSlots := ⟨by decide⟩

abbrev ProcNr := Fin nrSlots

/-- The slot of VM: process number 8, behind the 5 kernel tasks. -/
def vmProcNr : ProcNr := 13

abbrev Frame := Nat

abbrev VirBytes := Nat

/-- `MAP_NONE`, as a virtual address. -/
def mapNone : VirBytes := 0xFFFFFFFE

/-- `I386_VM_PDE`. -/
def pdeOf (v : VirBytes) : Nat := v / 2 ^ 22 % 1024

/-- `I386_VM_PTE`. -/
def pteOf (v : VirBytes) : Nat := v / 2 ^ 12 % 1024

/-- The number of the page that holds `v`. -/
def pageOf (v : VirBytes) : Nat := pdeOf v * 1024 + pteOf v

/-- `(__pte == pte) && (__pde == pde)`. -/
def samePage (v w : VirBytes) : Bool := pteOf v == pteOf w && pdeOf v == pdeOf w

/-- `pde * I386_VM_PT_ENTRIES * I386_PAGE_SIZE + pte * I386_PAGE_SIZE`. -/
def pageBase (v : VirBytes) : VirBytes := pageOf v * 4096

/-- `(length + (base - page_base) - 1) / (4 * 1024) + 1`, in 32-bit unsigned arithmetic. -/
def nPagesCovered (base length : Nat) : Nat :=
  (length + (base - pageBase base) + (2 ^ 32 - 1)) % 2 ^ 32 / 4096 + 1

/-- The addresses `page_base + i * 4 * 1024` of the pages a range covers. -/
def pagesCovered (base length : Nat) : List VirBytes :=
  (List.range (nPagesCovered base length)).map (fun i => (pageBase base + i * 4096) % 2 ^ 32)

theorem pageOf_eq (v : VirBytes) : pageOf v = v / 4096 % 2 ^ 20 := by
  unfold pageOf pdeOf pteOf
  omega

theorem samePage_iff {v w : VirBytes} : samePage v w = true ↔ pageOf v = pageOf w := by
  unfold samePage pageOf
  have hv : pteOf v < 1024 := Nat.mod_lt _ (by decide)
  have hw : pteOf w < 1024 := Nat.mod_lt _ (by decide)
  simp only [Bool.and_eq_true, beq_iff_eq]
  omega

theorem samePage_false_iff {v w : VirBytes} : samePage v w = false ↔ pageOf v ≠ pageOf w := by
  rw [← Bool.not_eq_true, samePage_iff]

/-! ## Page tables and frames -/

structure Pte where
  pfa : Frame
  present : Bool
  write : Bool
  user : Bool
  global : Bool
  bigpage : Bool
  dirty : Bool
  deriving DecidableEq, Repr, Inhabited

/-- The page directory, by `pde`, and the page tables it leads to, by page number. -/
structure PageTable where
  pde : Nat → Pte
  pte : Nat → Pte

instance : Inhabited PageTable := ⟨⟨fun _ => default, fun _ => default⟩⟩

abbrev PageData := Fin 4096 → UInt8

/-! ## Tables of the hardening code -/

/-- The bits of `pram_mem_block.flags`. -/
structure PmbFlags where
  /-- `PRAM_SLOT_FREE` -/
  slotFree : Bool
  /-- `PRAM_LAST_PF` -/
  lastPf : Bool
  hgetPf : Bool
  iwsPfFirst : Bool
  iwsPfSecond : Bool
  iwsModKernel : Bool
  fws : Bool
  wsShared : Bool
  hToUpdate : Bool
  hFork : Bool
  hExec : Bool
  deriving DecidableEq, Repr

def PmbFlags.zero : PmbFlags :=
  ⟨false, false, false, false, false, false, false, false, false, false, false⟩

instance : Inhabited PmbFlags := ⟨.zero⟩

structure PramMemBlock where
  id : Nat
  flags : PmbFlags
  iflags : PmbFlags
  vaddr : VirBytes
  us0 : Option Frame
  us1 : Option Frame
  us2 : Option Frame
  nextPmb : Option (Fin workingSetSize)
  deriving DecidableEq, Inhabited

structure HardeningMemEvent where
  id : Nat
  slotFree : Bool
  addrBase : VirBytes
  nbytes : Nat
  npages : Nat
  nextHme : Option (Fin hardeningMemEventsSize)
  deriving DecidableEq, Inhabited

structure HardeningSharedProc where
  hspEndpoint : Nat
  slotFree : Bool
  id : Int
  nextHsp : Option (Fin hardeningSharedProcsSize)
  deriving DecidableEq, Inhabited

structure HardeningSharedRegion where
  id : Int
  slotFree : Bool
  rId : Nat
  vaddr : VirBytes
  length : Nat
  nextHsr : Option (Fin hardeningSharedRegionsSize)
  rHsp : Option (Fin hardeningSharedProcsSize)
  nHsp : Int
  deriving DecidableEq, Inhabited

instance : Linked PramMemBlock workingSetSize where
  next b := b.nextPmb
  setNext b o := { b with nextPmb := o }
  free b := b.flags.slotFree
  next_setNext _ _ := rfl
  free_setNext _ _ := rfl
  setNext_next _ := rfl

instance : Linked HardeningMemEvent hardeningMemEventsSize where
  next b := b.nextHme
  setNext b o := { b with nextHme := o }
  free b := b.slotFree
  next_setNext _ _ := rfl
  free_setNext _ _ := rfl
  setNext_next _ := rfl

instance : Linked HardeningSharedProc hardeningSharedProcsSize where
  next b := b.nextHsp
  setNext b o := { b with nextHsp := o }
  free b := b.slotFree
  next_setNext _ _ := rfl
  free_setNext _ _ := rfl
  setNext_next _ := rfl

instance : Linked HardeningSharedRegion hardeningSharedRegionsSize where
  next b := b.nextHsr
  setNext b o := { b with nextHsr := o }
  free b := b.slotFree
  next_setNext _ _ := rfl
  free_setNext _ _ := rfl
  setNext_next _ := rfl

/-! ## Processes and the kernel -/

/-- The fields of `struct proc` that the hardening code uses. -/
structure Proc where
  /-- Not `RTS_SLOT_FREE`. -/
  inUse : Bool
  endpoint : Nat
  reg : StackFrame
  kernTrapStyle : TrapStyle
  rtsFlags : Nat
  cpuTimeLeft : Nat
  /-- `PROC_TO_HARD` and `PROC_SHARING_MEM` in `p_hflags`. -/
  procToHard : Bool
  procSharingMem : Bool
  /-- `p_lus1_us2` and `p_lus1_us2_size`. -/
  lus1Us2 : Option (Fin workingSetSize)
  lus1Us2Size : Nat
  hardeningMemEvents : Option (Fin hardeningMemEventsSize)
  nbHardeningMemEvents : Nat
  hardeningSharedRegions : Option (Fin hardeningSharedRegionsSize)
  nbHardeningSharedRegions : Int
  /-- The address space behind `p_seg.p_cr3`. -/
  pt : PageTable
  deriving Inhabited

inductive HStep where
  | noHardRun
  | firstRun
  | secondRun
  deriving DecidableEq, Repr, Inhabited

inductive HRestore where
  | none
  | forSecondRun
  | forFirstRun
  deriving DecidableEq, Repr, Inhabited

/-- What `save_copy_0` saves (`gs`, ..., `p_cpu_time_left`, `cr0`, ..., `cr4`). -/
structure Copy0 where
  reg : StackFrame
  kernTrapStyle : TrapStyle
  rtsFlags : Nat
  cpuTimeLeft : Nat
  cr : ControlRegs
  deriving DecidableEq, Inhabited

/-- The state of the kernel, with the physical memory. -/
structure Kernel where
  workingSet : Table PramMemBlock workingSetSize
  hardeningMemEvents : Table HardeningMemEvent hardeningMemEventsSize
  hardeningSharedRegions : Table HardeningSharedRegion hardeningSharedRegionsSize
  hardeningSharedProcs : Table HardeningSharedProc hardeningSharedProcsSize
  allHsrS : Option (Fin hardeningSharedRegionsSize)
  nHsrs : Int
  allHspS : Option (Fin hardeningSharedProcsSize)
  nHsps : Int
  procs : ProcNr → Proc
  mem : Frame → PageData
  /-- The frames VM's allocator would hand out, in order. -/
  freeMem : List Frame
  hCanStartHardening : Bool
  hEnable : Bool
  hProcNr : ProcNr
  hStep : HStep
  hRestore : HRestore
  pagefaultAddr1 : VirBytes
  pagefaultAddr2 : VirBytes
  /-- The control registers of the CPU. -/
  cr : ControlRegs
  copy0 : Copy0
  ctx1 : RunCtx
  ctx2 : RunCtx

namespace Kernel

def setProc (k : Kernel) (p : ProcNr) (x : Proc) : Kernel :=
  { k with procs := update k.procs p x }

def setPmb (k : Kernel) (i : Fin workingSetSize) (b : PramMemBlock) : Kernel :=
  { k with workingSet := update k.workingSet i b }

/-- `pte_a[pte]` of the page of `v`. -/
def getPte (k : Kernel) (p : ProcNr) (v : VirBytes) : Pte :=
  (k.procs p).pt.pte (pageOf v)

/-- `root[pde]` of the page of `v`. -/
def getPde (k : Kernel) (p : ProcNr) (v : VirBytes) : Pte :=
  (k.procs p).pt.pde (pdeOf v)

/-- `phys_set32(pte_a + pte, ...)`. -/
def setPte (k : Kernel) (p : ProcNr) (v : VirBytes) (e : Pte) : Kernel :=
  k.setProc p { k.procs p with
    pt := { (k.procs p).pt with pte := update (k.procs p).pt.pte (pageOf v) e } }

def cpyFrames (k : Kernel) (src dst : Frame) : Kernel :=
  { k with mem := update k.mem dst (k.mem src) }

def cmpFrames (k : Kernel) (f g : Frame) : Bool := k.mem f == k.mem g

end Kernel

end HardenedMinix
