import HardenedMinix.Kernel.Process

/-!
# Processing elements

A processing element runs twice (`dwc.c`), and the two runs are compared before the second is
committed. User code is the list of its loads and stores; one that the page table does not allow
is a fault, which `check_vaddr_2` handles, hands to VM or leaves alone. In the last case the run
ends.
-/

namespace HardenedMinix

open Lib

/-! ## Memory accesses of user code -/

inductive UserOp where
  | load (v : VirBytes)
  | store (v : VirBytes) (b : UInt8)
  deriving DecidableEq, Repr

def UserOp.addr : UserOp → VirBytes
  | .load v => v
  | .store v _ => v

def pageOffset (v : VirBytes) : Fin 4096 := ⟨v % 4096, Nat.mod_lt v (by decide)⟩

namespace Kernel

/-- What the MMU asks of the entries for a load in user mode. -/
def canLoad (k : Kernel) (p : ProcNr) (v : VirBytes) : Bool :=
  (k.getPde p v).present && (k.getPde p v).user && (k.getPte p v).present && (k.getPte p v).user

/-- What the MMU asks of the entries for a store in user mode. -/
def canStore (k : Kernel) (p : ProcNr) (v : VirBytes) : Bool :=
  k.canLoad p v && (k.getPde p v).write && (k.getPte p v).write

def loadByte (k : Kernel) (p : ProcNr) (v : VirBytes) : UInt8 :=
  k.mem (k.getPte p v).pfa (pageOffset v)

/-- Write a byte at `v`; the MMU sets the dirty bit of the entry. -/
def storeByte (k : Kernel) (p : ProcNr) (v : VirBytes) (b : UInt8) : Kernel :=
  let e := k.getPte p v
  { k with mem := Function.update k.mem e.pfa (Function.update (k.mem e.pfa) (pageOffset v) b) }.setPte
    p v { e with dirty := true }

end Kernel

def UserOp.allowed (k : Kernel) (p : ProcNr) : UserOp → Bool
  | .load v => k.canLoad p v
  | .store v _ => k.canStore p v

/-- Make the access; what a load reads is returned. -/
def UserOp.exec (k : Kernel) (p : ProcNr) : UserOp → Kernel × List UInt8
  | .load v => (k, [k.loadByte p v])
  | .store v b => (k.storeByte p v b, [])

/-- A page fault at `v` that does not end the run. -/
def pageFault (k : Kernel) (p : ProcNr) (v : VirBytes) : Option Kernel :=
  match checkVaddr2 { k with cr := { k.cr with cr2 := UInt32.ofNat v } } p v with
  | some (k, .handled) => some k
  | some (k, .toVm) => vmHpagefault k p
  | _ => none

/-- One access of the run, tried again after a page fault. -/
def perform (k : Kernel) (p : ProcNr) (op : UserOp) : Option (Kernel × List UInt8) :=
  if op.allowed k p then some (op.exec k p)
  else
    match pageFault k p op.addr with
    | none => none
    | some k => if op.allowed k p then some (op.exec k p) else none

/-- The accesses of a run, with the bytes the loads return. -/
def userRun (k : Kernel) (p : ProcNr) : List UserOp → Option (Kernel × List UInt8)
  | [] => some (k, [])
  | op :: ops =>
    match perform k p op with
    | none => none
    | some (k, r) =>
      match userRun k p ops with
      | none => none
      | some (k, rs) => some (k, r ++ rs)

/-! ## Saving and restoring the registers -/

/-- The registers of `p`, as `save_copy_0` reads them. -/
def contextOf (k : Kernel) (p : ProcNr) : Copy0 where
  reg := (k.procs p).reg
  kernTrapStyle := (k.procs p).kernTrapStyle
  rtsFlags := (k.procs p).rtsFlags
  cpuTimeLeft := (k.procs p).cpuTimeLeft
  cr := k.cr

/-- The registers of `p` after user code and a trap: any values. -/
def withContext (k : Kernel) (p : ProcNr) (c : Copy0) : Kernel :=
  { k.setProc p { k.procs p with
      reg := c.reg
      kernTrapStyle := c.kernTrapStyle
      rtsFlags := c.rtsFlags
      cpuTimeLeft := c.cpuTimeLeft } with
    cr := c.cr }

def saveCopy0 (k : Kernel) (p : ProcNr) : Kernel := { k with copy0 := contextOf k p }

/-- `restore_copy_0`. `st` is not saved, and `cr2` is saved but not restored. -/
def restoreCopy0 (k : Kernel) (p : ProcNr) : Kernel :=
  { k.setProc p { k.procs p with
      reg := { k.copy0.reg with st := (k.procs p).reg.st }
      kernTrapStyle := k.copy0.kernTrapStyle
      rtsFlags := k.copy0.rtsFlags
      cpuTimeLeft := k.copy0.cpuTimeLeft } with
    cr := { k.copy0.cr with cr2 := k.cr.cr2 } }

/-! ## Start of a run -/

/-- The part of `start_dwc` that starts a processing element. `none` is an assertion. -/
def startPe (k : Kernel) (p : ProcNr) : Option Kernel :=
  if k.hEnable = false ∧ p ≠ vmProcNr ∧ (k.procs p).procToHard = true then
    if k.hStep ≠ .noHardRun then none
    else
      match setPeMemToRo { k with hProcNr := p, hStep := .firstRun } p with
      | none => none
      | some k => some { saveCopy0 k p with hEnable := true }
  else some k

/-- The part of `start_dwc` that starts a run again from the saved registers. -/
def restorePe (k : Kernel) (p : ProcNr) : Option Kernel :=
  if k.hEnable = true ∧ k.hRestore ≠ .none then
    if k.hProcNr ≠ p then none
    else
      let step := if k.hRestore = .forSecondRun then HStep.secondRun else HStep.firstRun
      match setPeMemToRo { restoreCopy0 k p with hStep := step } p with
      | none => none
      | some k => if (k.procs p).rtsFlags ≠ 0 then none else some { k with hRestore := .none }
  else some k

def startDwc (k : Kernel) (p : ProcNr) : Option Kernel :=
  match startPe k p with
  | none => none
  | some k =>
    match restorePe k p with
    | none => none
    | some k =>
      -- "Interference in the hardening task"
      if k.hEnable = true ∧ k.hProcNr ≠ p ∧ p ≠ vmProcNr then none else some k

/-! ## End of a run -/

def resetHardenedRun (k : Kernel) : Kernel :=
  { k with
    hEnable := false
    hProcNr := 5
    hStep := .noHardRun
    hRestore := .none
    pagefaultAddr1 := 0
    pagefaultAddr2 := 0 }

def rtsUnstableState : Nat := 0x20000

inductive TaskEnd where
  /-- To the second run. -/
  | secondRun
  /-- To single stepping, after an NMI that came at another instruction. -/
  | stepping
  /-- Back to the start of the processing element. -/
  | failed
  | committed
  deriving DecidableEq, Repr

/-- `cmp_step` of `hardening_task`. -/
def cmpStep (k : Kernel) (p : ProcNr) (origin : Nat) : Option (Kernel × TaskEnd) :=
  match (if cmpReg origin k.ctx1 k.ctx2 then cmpMem k p else some (k, false)) with
  | none => none
  | some (k, true) =>
    match vmResetPram k p .cpyRamPram with
    | none => none
    | some k => some (resetHardenedRun k, .committed)
  | some (k, false) =>
    match vmResetPram k p .cmpFailed with
    | none => none
    | some k =>
      some ({ k.setProc p { k.procs p with
        rtsFlags := (k.procs p).rtsFlags ||| rtsUnstableState } with hRestore := .forFirstRun },
        .failed)

/-- `hardening_task`, after the trap `t`. `sameIns` is `secnd_run_ins == first_run_ins`. -/
def hardeningTask (k : Kernel) (p : ProcNr) (t : Trap) (sameIns : Bool) :
    Option (Kernel × TaskEnd) :=
  if ¬ (k.hEnable = true ∧ k.hProcNr = p ∧ p ≠ vmProcNr) then none
  else
    match k.hStep with
    | .firstRun =>
      if k.hRestore ≠ .none then none
      else
        match vmResetPram { k with ctx1 := saveCopy1 t, hRestore := .forSecondRun } p
          .cpyRamFirst with
        | none => none
        | some k => some (k, .secondRun)
    | .secondRun =>
      let k := { k with ctx2 := saveCopy2 t }
      if t.entry = .nmi ∧ sameIns = false ∧ cmpReg t.entry.origin k.ctx1 k.ctx2 = false then
        some (k, .stepping)
      else cmpStep k p t.entry.origin
    | .noHardRun => cmpStep k p t.entry.origin

def abortPe (k : Kernel) (p : ProcNr) : Option Kernel :=
  match vmResetPram k p .abortPe with
  | none => none
  | some k => some (resetHardenedRun (restoreCopy0 k p))

def runFirst (k : Kernel) (p : ProcNr) (ops : List UserOp) : Option (Kernel × List UInt8) :=
  match startDwc k p with
  | none => none
  | some k => userRun k p ops

/-- The end of the first run in the trap `t`, and the second run up to its trap. -/
def runSecond (k : Kernel) (p : ProcNr) (t : Trap) (ops : List UserOp) :
    Option (Kernel × List UInt8) :=
  match hardeningTask k p t true with
  | some (k, .secondRun) =>
    match startDwc k p with
    | none => none
    | some k => userRun k p ops
  | _ => none

end HardenedMinix
