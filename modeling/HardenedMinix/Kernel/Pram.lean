import HardenedMinix.Kernel.Shared

/-!
# The memory of a processing element

The three frames of a page (`pram.c`): `set_pe_mem_to_ro` maps the private frames, `check_vaddr_2`
opens them to writes, and `vm_reset_pram` brings the page table back.
-/

namespace HardenedMinix

open Lib Linked

/-- `check_pt_entry` returns `OK`. -/
def checkPtEntry (e : Pte) : Bool :=
  e.present && e.user && !e.global && !e.bigpage && e.write

/-- An address made of the flags of an entry and a frame that may be `MAP_NONE`. -/
def frameOr (f : Option Frame) : Frame := f.getD (mapNone / 4096)

/-! ## Start of a run -/

/-- The entry `set_pe_mem_to_ro` writes for a block, from the entry it found. -/
def roPte (step : HStep) (b : PramMemBlock) (e : Pte) : Pte :=
  let e :=
    if step = .firstRun then
      match b.us1 with
      | some us1 =>
        { e with pfa := us1, write := e.write && (b.flags.iwsPfFirst || b.flags.iwsModKernel) }
      | none => { e with write := false }
    else
      match b.us2 with
      | some us2 =>
        { e with pfa := us2, write := e.write && (b.flags.iwsPfSecond || b.flags.iwsModKernel) }
      | none => { e with write := false }
  let e := if b.us1 ≠ none ∧ b.us2 = none then { e with pfa := frameOr b.us0 } else e
  { e with dirty := false }

/-- The part of a turn of `set_pe_mem_to_ro` that labels a page of a shared region. -/
def markShared (k : Kernel) (p : ProcNr) (i : Fin workingSetSize) : Kernel :=
  let b := k.workingSet i
  if (k.procs p).procSharingMem && !b.flags.wsShared && lookUpPageInHsr k p b.vaddr then
    k.setPmb i { b with flags := { b.flags with wsShared := true } }
  else k

/-- What a turn of `set_pe_mem_to_ro` does to the private frames of a block labelled `H_TO_UPDATE`.
`none`: a copy fails. -/
def updatePrivate (k : Kernel) (i : Fin workingSetSize) : Option Kernel :=
  let b := k.workingSet i
  match b.flags.hToUpdate, b.us1, b.us2 with
  | true, some us1, some us2 =>
    match b.us0 with
    | none => none
    | some us0 =>
      some (((k.cpyFrames us0 us1).cpyFrames us0 us2).setPmb i
        { b with flags := { b.flags with hToUpdate := false } })
  | _, _, _ => some k

/-- One turn of `set_pe_mem_to_ro`. -/
def setPmbToRo (p : ProcNr) (k : Kernel) (i : Fin workingSetSize) : Option Kernel :=
  let vaddr := (k.workingSet i).vaddr
  let pte := k.getPte p vaddr
  if !checkPtEntry (k.getPde p vaddr) || !checkPtEntry pte then some k
  else
    match updatePrivate (markShared k p i) i with
    | none => none
    | some k =>
      if k.hStep = .firstRun ∧ pte.pfa = 0 then some (freePramMemBlock k p vaddr)
      else some (k.setPte p vaddr (roPte k.hStep (k.workingSet i) pte))

def setPeMemToRo (k : Kernel) (p : ProcNr) : Option Kernel :=
  if (k.procs p).lus1Us2Size ≤ 0 then some k
  else
    match
      (if k.hStep = .firstRun then
        match handleHmeEvents k p with
        | none => none
        | some k => freeHardeningMemEvents k p
      else some k) with
    | none => none
    | some k => k.forPmbs p (setPmbToRo p)

/-! ## Page faults -/

/-- What `hardening_exception_handler` makes of a page fault. -/
inductive PfResult where
  /-- `K_HANDLE_PF`: the page is open now. -/
  | handled
  /-- `RO_PAGE_FIRST_RUN` or `RO_PAGE_SECOND_RUN`: VM has to supply a frame. -/
  | toVm
  /-- Not `OK`: an ordinary page fault, which ends the run. -/
  | normal
  deriving DecidableEq, Repr

def lookUpUniquePte (k : Kernel) (p : ProcNr) (v : VirBytes) : Nat :=
  (follow k.workingSet workingSetSize (k.procs p).lus1Us2).countP
    (fun i => samePage (k.workingSet i).vaddr v)

/-- `pagefault_addr_1 = vaddr` or `pagefault_addr_2 = vaddr`. -/
def Kernel.recordFault (k : Kernel) (vaddr : VirBytes) : Kernel :=
  if k.hStep = .firstRun then { k with pagefaultAddr1 := vaddr }
  else { k with pagefaultAddr2 := vaddr }

/-- The flags of a block on which a fault was taken. -/
def PmbFlags.fault (step : HStep) (f : PmbFlags) : PmbFlags :=
  if step = .firstRun then { f with iwsPfFirst := true, hgetPf := true }
  else { f with iwsPfSecond := true, hgetPf := true }

/-- `check_vaddr_2` after the look-up of the block. `none`: the assertion that a page has one block
at most. -/
def faultPmb (k : Kernel) (p : ProcNr) (vaddr : VirBytes) (i : Fin workingSetSize) :
    Option (Kernel × PfResult) :=
  let b := k.workingSet i
  let f := b.flags.fault k.hStep
  match b.us1, b.us2 with
  | some us1, some us2 =>
    if b.flags.hFork then some (k, .normal)
    else
      let frame := if k.hStep = .firstRun then us1 else us2
      some ((k.setPte p vaddr { k.getPte p vaddr with write := true, pfa := frame }).setPmb i
        { b with flags := f }, .handled)
  | _, _ =>
    if lookUpUniquePte k p vaddr ≤ 1 then
      some (k.setPmb i { b with flags := { f with lastPf := true } }, .toVm)
    else none

def checkVaddr2 (k : Kernel) (p : ProcNr) (vaddr : VirBytes) : Option (Kernel × PfResult) :=
  let k := k.recordFault vaddr
  if !checkPtEntry (k.getPde p vaddr) || !(k.getPte p vaddr).present then some (k, .normal)
  else
    match lookUpPte k p vaddr with
    | none => some (k, .normal)
    | some i => faultPmb k p vaddr i

/-- `look_up_lastpf_pte`, which also takes the label away. -/
def lookUpLastpfPte (k : Kernel) (p : ProcNr) : Option (Fin workingSetSize) :=
  if 0 < (k.procs p).lus1Us2Size then
    search k.workingSet (fun b => b.flags.lastPf) workingSetSize (k.procs p).lus1Us2
  else none

/-- The private frame of the run, or a new one where the page has none. -/
def runFrame (step : HStep) (b : PramMemBlock) (new : Frame) : Frame :=
  (if step = .firstRun then b.us1 else b.us2).getD new

/-- The block after `do_hmem_map` recorded the frame of the run. -/
def withRunFrame (step : HStep) (b : PramMemBlock) (frame : Frame) : PramMemBlock :=
  let b := { b with flags := { b.flags with lastPf := false } }
  if step = .firstRun then { b with us1 := some frame } else { b with us2 := some frame }

/-- The answer to a fault sent to VM: `do_hpagefaults` takes the private frame of the page or a new
one, copies `us0` to it, and `do_hmem_map` maps it. `none` is a panic. -/
def vmHpagefault (k : Kernel) (p : ProcNr) : Option Kernel :=
  match k.freeMem, lookUpLastpfPte k p with
  | new :: rest, some i =>
    let b := k.workingSet i
    let frame := runFrame k.hStep b new
    let k := { k with freeMem := rest }.cpyFrames (frameOr b.us0) frame
    some ((k.setPmb i (withRunFrame k.hStep b frame)).setPte p b.vaddr
      { k.getPte p b.vaddr with write := true, pfa := frame })
  | _, _ => none

/-! ## End of a run -/

/-- The last argument of `vm_reset_pram`. -/
inductive EndCmp where
  | cpyRamFirst
  | cpyRamPram
  | cmpFailed
  | abortPe
  deriving DecidableEq, Repr

def PmbFlags.clearRun (f : PmbFlags) : PmbFlags :=
  { f with iwsPfSecond := false, iwsPfFirst := false, hgetPf := false, iwsModKernel := false }

/-- Copy a frame to a private frame, if there is one. -/
def Kernel.cpyTo (k : Kernel) (src : Frame) (dst : Option Frame) : Kernel :=
  match dst with
  | some f => k.cpyFrames src f
  | none => k

/-- A turn of `vm_reset_pram` for `CMP_FAILED` and for `ABORT_PE`. -/
def resetPmb (p : ProcNr) (k : Kernel) (i : Fin workingSetSize) : Kernel :=
  let b := { k.workingSet i with flags := (k.workingSet i).flags.clearRun }
  let pte := k.getPte p b.vaddr
  let k := k.setPmb i b
  match b.us0 with
  | none => k
  | some us0 =>
    if b.us1 = none ∧ b.us2 = none then k
    else
      ((k.cpyTo us0 b.us1).cpyTo us0 b.us2).setPte p b.vaddr
        { pte with write := true, pfa := us0 }

/-- A turn of `vm_reset_pram` for `CPY_RAM_FIRST`. -/
def endFirstPmb (p : ProcNr) (k : Kernel) (i : Fin workingSetSize) : Kernel :=
  let b := k.workingSet i
  let pte := k.getPte p b.vaddr
  if b.us1 ≠ none ∧ b.us0 ≠ none ∧ (b.flags.hgetPf || pte.dirty) then
    (k.setPte p b.vaddr { pte with dirty := false }).setPmb i { b with
      flags := { b.flags with
        iwsPfFirst := b.flags.iwsPfFirst || (b.flags.iwsModKernel && pte.dirty)
        hgetPf := false
        fws := true } }
  else k

/-- What a turn for `CPY_RAM_PRAM` copies from `us2` to `us0`, with what is left of the old entry.
-/
def commitFrame (p : ProcNr) (k : Kernel) (i : Fin workingSetSize) : Option (Kernel × Pte) :=
  let b := k.workingSet i
  let pte := k.getPte p b.vaddr
  match b.us2, b.us0, b.flags.hgetPf || pte.dirty with
  | some us2, some us0, true =>
    let k := (k.cpyFrames us2 us0).setPmb i { b with
      flags := { b.flags with
        iwsPfSecond := b.flags.iwsPfSecond || (b.flags.iwsModKernel && pte.dirty)
        hgetPf := false } }
    match (if b.flags.wsShared then enableHmeEventInProcs k p b.vaddr 4096 else some k) with
    | none => none
    | some k => some (k, { pte with dirty := false })
  | _, _, _ => some (k, pte)

/-- A turn of `vm_reset_pram` for `CPY_RAM_PRAM`. -/
def commitPmb (p : ProcNr) (k : Kernel) (i : Fin workingSetSize) : Option Kernel :=
  match commitFrame p k i with
  | none => none
  | some (k, pte) =>
    let b := k.workingSet i
    some ((k.setPte p b.vaddr { pte with write := true, pfa := frameOr b.us0 }).setPmb i
      { b with flags := { b.flags with iwsModKernel := false } })

/-- A turn of `vm_reset_pram`. -/
def resetTurn (p : ProcNr) (endcmp : EndCmp) (k : Kernel) (i : Fin workingSetSize) :
    Option Kernel :=
  match endcmp, k.hStep with
  | .abortPe, _ => some (resetPmb p k i)
  | .cpyRamFirst, .firstRun => some (endFirstPmb p k i)
  | .cpyRamPram, .secondRun => commitPmb p k i
  | .cmpFailed, .secondRun => some (resetPmb p k i)
  | _, .secondRun => none
  | _, _ => some k

def vmResetPram (k : Kernel) (p : ProcNr) (endcmp : EndCmp) : Option Kernel :=
  if p = vmProcNr then none
  else if (k.procs p).lus1Us2Size ≤ 0 then some k
  else k.forPmbs p (resetTurn p endcmp)

/-- A turn of `cmp_mem`; after a difference, `false`, the loop has returned. -/
def cmpPmb (s : Kernel × Bool) (i : Fin workingSetSize) : Option (Kernel × Bool) :=
  let b := s.1.workingSet i
  if !s.2 then some s
  else
    match b.us1, b.us2 with
    | some us1, some us2 =>
      if !b.flags.fws then some s
      else if s.1.cmpFrames us2 us1 then
        some (s.1.setPmb i { b with flags := { b.flags with fws := false } }, true)
      else some (s.1, false)
    | _, _ => some s

/-- `cmp_mem`, with whether it returns `OK`. -/
def cmpMem (k : Kernel) (p : ProcNr) : Option (Kernel × Bool) :=
  if (k.procs p).lus1Us2Size ≤ 0 then some (k, true)
  else whileNext (fun s => s.1.nextPmb) cmpPmb workingSetSize (k, true) (k.procs p).lus1Us2

end HardenedMinix
