import HardenedMinix.Vm.Regions

/-!
# The operations of VM on regions

`map_page_region`, `do_remap`, `do_fork` with `map_proc_copy`, `map_unmap_region`, `do_exit`,
the yielded blocks, and the runs of VM that they make up.
-/

namespace HardenedMinix.Region

/-! ## Regions of a process -/

/-- `vmp->vm_regions_avl` is changed. -/
def setRegions (s : State) (p : ProcNr) (l : List VirRegion) : State :=
  s.setVmproc p { s.vmproc p with regions := l }

/-- `region_insert`, which leaves the tree alone if it holds the address already. -/
def regionInsert (s : State) (p : ProcNr) (r : VirRegion) : State :=
  if ∃ r' ∈ (s.vmproc p).regions, r'.vaddr = r.vaddr then s
  else setRegions s p ((s.vmproc p).regions.orderedInsert (fun a b => a.vaddr ≤ b.vaddr) r)

/-- `region_remove`, by the address of the region. -/
def regionRemove (s : State) (p : ProcNr) (vaddr : Page) : State :=
  setRegions s p ((s.vmproc p).regions.filter fun r => decide (r.vaddr ≠ vaddr))

def modifyRegion (s : State) (p : ProcNr) (vaddr : Page) (f : VirRegion → VirRegion) : State :=
  setRegions s p ((s.vmproc p).regions.map fun r => if r.vaddr = vaddr then f r else r)

/-- `map_subfree`, for `n` pages from `offset` on. -/
def mapSubfree (s : State) (parent p : ProcNr) (r : VirRegion) : Nat → Nat → Option State
  | _, 0 => some s
  | offset, n + 1 =>
    match physblockGet s p r offset with
    | none => none
    | some none => mapSubfree s parent p r (offset + 1) n
    | some (some _) =>
      match pbUnreferenced s parent r.memtype (p, r.vaddr + offset) with
      | none => none
      | some s => mapSubfree s parent p r (offset + 1) n

def sharedDelete (s : State) (r : VirRegion) : Option State :=
  match getsrc s r with
  | none => some s
  | some (q, src) =>
    if src.remaps = 0 then none
    else some (modifyRegion s q src.vaddr fun src => { src with remaps := src.remaps - 1 })

def mapFree (s : State) (parent p : ProcNr) (r : VirRegion) : Option State :=
  match mapSubfree s parent p r 0 r.length with
  | none => none
  | some s => if r.memtype = .shared then sharedDelete s r else some s

/-- `map_handle_memory`, for `n` pages from `offset` on. -/
def mapHandleMemory (s : State) (p : ProcNr) (r : VirRegion) (write : Bool) :
    Nat → Nat → Option (Status × State)
  | _, 0 => some (.ok, s)
  | offset, n + 1 =>
    match mapPf s p r offset write with
    | none => none
    | some (.ok, s) => mapHandleMemory s p r write (offset + 1) n
    | some (e, s) => some (e, s)

def regionNew (s : State) (r : VirRegion) : Option (Option VirRegion × State) :=
  match slabAlloc s with
  | none => none
  | some (none, s) => some (none, s)
  | some (some _, s) =>
    let r := { r with remaps := 0, id := s.nextId, source := none }
    match slabAlloc { s with nextId := s.nextId + 1 } with
    | none => none
    | some (none, s) => some (none, s)
    | some (some _, s) => some (some r, s)

/-! ## Mapping -/

/-- The loops of `anon_contig_new` that make the blocks and set their pages. -/
def contigBlocks (s : State) (p : ProcNr) (r : VirRegion) : Nat → Nat → Option (Bool × State)
  | _, 0 => some (true, s)
  | offset, n + 1 =>
    match pbNew s none with
    | none => none
    | some (none, s) => some (false, s)
    | some (some b, s) =>
      match pbReference s (p, r.vaddr + offset) b offset with
      | none => none
      | some (false, s) => (pbFree s b).map fun s => (false, s)
      | some (true, s) => contigBlocks s p r (offset + 1) n

def contigSet (s : State) (p : ProcNr) (r : VirRegion) (base : Frame) :
    Nat → Nat → Option State
  | _, 0 => some s
  | offset, n + 1 =>
    match s.physblocks (p, r.vaddr + offset) with
    | none => none
    | some pr =>
      match s.blocks pr.ph with
      | some ⟨none, refcount, regions⟩ =>
        contigSet (s.setBlock pr.ph (some ⟨some (base + offset), refcount, regions⟩)) p r base
          (offset + 1) n
      | _ => none

/-- If it fails it has freed the region. -/
def anonContigNew (s : State) (p : ProcNr) (r : VirRegion) : Option (Bool × State) :=
  match contigBlocks s p r 0 r.length with
  | none => none
  | some (false, s) => (mapFree s p p r).map fun s => (false, s)
  | some (true, s) =>
    match allocMem s r.length (!r.uninitialized) r.phys64k with
    | none => none
    | some (none, s) => (mapFree s p p r).map fun s => (false, s)
    | some (some base, s) => (contigSet s p r base 0 r.length).map fun s => (true, s)

/-- `ev_new` of the memory type. -/
def evNew (s : State) (p : ProcNr) (r : VirRegion) : Option (Bool × State) :=
  if r.memtype = .anonContig then anonContigNew s p r else some (true, s)

/-- `region_find_slot` finds a range that overlaps no region. -/
def RangeFree (s : State) (p : ProcNr) (vaddr : Page) (length : Nat) : Prop :=
  ∀ r ∈ (s.vmproc p).regions, r.vaddr + r.length ≤ vaddr ∨ vaddr + length ≤ r.vaddr

instance (s : State) (p : ProcNr) (vaddr : Page) (length : Nat) :
    Decidable (RangeFree s p vaddr length) :=
  inferInstanceAs (Decidable (∀ _ ∈ _, _))

/-- The `physblocks` of a region are given back, and nothing else. -/
def dropSlots (s : State) (p : ProcNr) (r : VirRegion) : State :=
  { s with
    physblocks := fun x => if x.1 = p ∧ r.Contains x.2 then none else s.physblocks x }

/-- `map_page_region`, where `region_find_slot` returned the address of `r`. -/
def mapPageRegion (s : State) (p : ProcNr) (r : VirRegion) (prealloc : Bool) :
    Option (Option VirRegion × State) :=
  if ¬ (0 < r.length ∧ r.vaddr + r.length ≤ vmDatatop ∧ RangeFree s p r.vaddr r.length) then none
  else
    match regionNew s r with
    | none => none
    | some (none, s) => some (none, s)
    | some (some r, s) =>
      match evNew s p r with
      | none => none
      | some (false, s) => some (none, s)
      | some (true, s) =>
        match (if prealloc then mapHandleMemory s p r true 0 r.length else some (.ok, s)) with
        | none => none
        | some (.ok, s) =>
          let r := { r with uninitialized := false }
          some (some r, regionInsert s p r)
        | some (_, s) => some (none, dropSlots s p r)

/-- An endpoint, address or id that is zero. -/
def Source.HasZero (src : Source) : Prop :=
  (src.ep.slot = 5 ∧ src.ep.gen = 0) ∨ src.vaddr = 0 ∨ src.id = 0

instance (src : Source) : Decidable src.HasZero := inferInstanceAs (Decidable (_ ∨ _ ∨ _))

/-- `shared_setsource`, for a region whose `param.shared` can be set. -/
def sharedSetsource (s : State) (r : VirRegion) (ep : Endpoint) (src : VirRegion) :
    Option (VirRegion × State) :=
  let param : Source := ⟨ep, src.vaddr, src.id⟩
  if param.HasZero then some (r, s)
  else
    let r := { r with source := some param }
    match getsrc s r with
    | none => none
    | some (q, src') =>
      some (r, modifyRegion s q src'.vaddr fun src => { src with remaps := src.remaps + 1 })

/-- `do_remap`, from the process `q` at `sa` to the process `p` at `da`. -/
def doRemap (s : State) (q p : ProcNr) (sa da : Page) (length : Nat) (readonly : Bool) :
    Option (Status × State) :=
  match mapLookup s q sa, (s.vmproc q).endpoint with
  | some src, some ep =>
    if src.vaddr ≠ sa ∨ length ≠ src.length then some (.efault, s)
    else
      match mapPageRegion s p ⟨da, length, !readonly, false, false, .shared, 0, 0, 0, none⟩ false with
      | none => none
      | some (none, s) => some (.enomem, s)
      | some (some r, s) =>
        match sharedSetsource s r ep src with
        | none => none
        | some (r, s) => some (.ok, modifyRegion s p r.vaddr fun r' => { r' with source := r.source })
  | _, _ => some (.einval, s)

/-! ## Fork -/

/-- The loop of `map_copy_region` over the pages. -/
def copyPages (s : State) (src dst : ProcNr) (r : VirRegion) : Nat → Nat → Option (Bool × State)
  | _, 0 => some (true, s)
  | offset, n + 1 =>
    match physblockGet s src r offset with
    | none => none
    | some none => copyPages s src dst r (offset + 1) n
    | some (some pr) =>
      match pbReference s (dst, r.vaddr + pr.offset) pr.ph pr.offset with
      | none => none
      | some (false, s) => some (false, s)
      | some (true, s) => copyPages s src dst r (offset + 1) n

/-- `ev_copy` of the memory type. -/
def evCopy (s : State) (r newr : VirRegion) : Option (VirRegion × State) :=
  match r.memtype with
  | .shared =>
    match getsrc s r, r.source with
    | some (_, src), some param => sharedSetsource s newr param.ep src
    | _, _ => none
  | .directphys => some ({ newr with phys := r.phys }, s)
  | _ => some (newr, s)

def mapCopyRegion (s : State) (src dst : ProcNr) (r : VirRegion) :
    Option (Option VirRegion × State) :=
  match regionNew s r with
  | none => none
  | some (none, s) => some (none, s)
  | some (some newr, s) =>
    match evCopy s r newr with
    | none => none
    | some (newr, s) =>
      match copyPages s src dst r 0 r.length with
      | none => none
      | some (true, s) => some (some newr, s)
      | some (false, s) => (mapFree s src dst newr).map fun s => (none, s)

/-- The loop of `map_proc_copy_from` over the regions. -/
def copyRegions (s : State) (src dst : ProcNr) : List VirRegion → Option (Bool × State)
  | [] => some (true, s)
  | r :: l =>
    match mapCopyRegion s src dst r with
    | none => none
    | some (none, s) => some (false, s)
    | some (some newr, s) => copyRegions (regionInsert s dst newr) src dst l

/-- `map_writept` for the pages of a region. -/
def writeptPages (s : State) (p : ProcNr) (r : VirRegion) :
    Nat → Nat → Option (Status × State)
  | _, 0 => some (.ok, s)
  | offset, n + 1 =>
    match physblockGet s p r offset with
    | none => none
    | some none => writeptPages s p r (offset + 1) n
    | some (some pr) =>
      match mapPhWritept s p r (r.vaddr + offset) pr with
      | none => none
      | some (.ok, s) => writeptPages s p r (offset + 1) n
      | some (e, s) => some (e, s)

def mapWritept (s : State) (p : ProcNr) : List VirRegion → Option (Status × State)
  | [] => some (.ok, s)
  | r :: l =>
    match writeptPages s p r 0 r.length with
    | none => none
    | some (.ok, s) => mapWritept s p l
    | some (e, s) => some (e, s)

/-- The loop of `free_yielded_proc` over the nodes of a tree. -/
def freeYieldedTree (s : State) (p : ProcNr) : List YieldedPtr → Option State
  | [] => some s
  | n :: l =>
    match s.cache.node n with
    | none => none
    | some y =>
      if (s.vmproc p).endpoint = some y.id.owner then
        match freeyieldednode s n true with
        | none => none
        | some s => freeYieldedTree s p l
      else freeYieldedTree s p l

/-- The loop of `free_yielded_proc` over the trees, `k` of them from the tree `h` on. -/
def freeYieldedTrees (s : State) (p : ProcNr) : Nat → Nat → Option State
  | _, 0 => some s
  | h, k + 1 =>
    if (s.vmproc p).yielded = 0 then some s
    else
      match freeYieldedTree s p (s.cache.yieldedBlocks h) with
      | none => none
      | some s => freeYieldedTrees s p (h + 1) k

def freeYieldedProc (s : State) (p : ProcNr) : Option State :=
  freeYieldedTrees s p 0 yieldHashsize

/-- The loop of `map_free_proc`. -/
def mapFreeRegions (s : State) (p : ProcNr) : List VirRegion → Option State
  | [] => some s
  | r :: l =>
    match mapFree (regionRemove s p r.vaddr) p p r with
    | none => none
    | some s => mapFreeRegions s p l

def mapFreeProc (s : State) (p : ProcNr) : Option State :=
  match mapFreeRegions s p (s.vmproc p).regions with
  | none => none
  | some s => freeYieldedProc (setRegions s p []) p

/-- The entries go with the page tables. -/
def ptFree (s : State) (p : ProcNr) : State :=
  { s with
    freePages := fun f => decide (∃ i, s.ptPages (p, i) = some f) || s.freePages f
    ptPages := fun x => if x.1 = p then none else s.ptPages x
    pt := fun x => if x.1 = p then none else s.pt x }

def clearPtDir (s : State) (p : ProcNr) : State :=
  { s with
    ptPages := fun x => if x.1 = p then none else s.ptPages x
    pt := fun x => if x.1 = p then none else s.pt x }

/-- The page directory of a slot stays for good. -/
def ptNew (s : State) (p : ProcNr) : Option (Status × State) :=
  if (s.ptDir p).isSome then some (.ok, clearPtDir s p)
  else
    match allocMem s 1 false false with
    | none => none
    | some (none, s) => some (.enomem, s)
    | some (some f, s) =>
      some (.ok, clearPtDir { s with ptDir := Function.update s.ptDir p (some f) } p)

def mapProcCopy (s : State) (dst src : ProcNr) : Option (Status × State) :=
  if (s.vmproc src).regions = [] then none
  else
    match copyRegions s src dst (s.vmproc src).regions with
    | none => none
    | some (false, s) => (mapFreeProc s dst).map fun s => (.enomem, s)
    | some (true, s) =>
      -- what `map_writept` returns is not looked at
      match mapWritept s src (s.vmproc src).regions with
      | none => none
      | some (_, s) =>
        match mapWritept s dst (s.vmproc dst).regions with
        | none => none
        | some (_, s) => some (.ok, s)

/-- The child starts as a copy of the parent. -/
def forkVmproc (s : State) (src dst : ProcNr) : State :=
  s.setVmproc dst { s.vmproc src with regions := [], endpoint := none }

/-- The end of `do_fork`: the child has an endpoint, and a hardening state of its own if
hardening is enabled. -/
def bindChild (s : State) (dst : ProcNr) (ep : Endpoint) : State :=
  let x := { s.vmproc dst with endpoint := some ep }
  s.setVmproc dst (if s.hardeningEnabled then { x with toHard := true, lus1Us2 := [] } else x)

/-- `do_fork`, up to the two messages it makes writable; `ep` is the endpoint that the kernel
gives the child. -/
def doFork (s : State) (src dst : ProcNr) (ep : Endpoint) : Option (Status × State) :=
  match ptNew (forkVmproc s src dst) dst with
  | none => none
  | some (.ok, s) =>
    match mapProcCopy s dst src with
    | none => none
    | some (.ok, s) => some (.ok, bindChild s dst ep)
    | some (_, s) => some (.enomem, ptFree s dst)
  | some (_, s) => some (.enomem, s)

/-! ## Unmapping -/

/-- The loop of `map_unmap_region` that moves the offsets. -/
def shiftOffsets (s : State) (p : ProcNr) (vaddr : Page) (len : Nat) :
    Nat → Nat → Option State
  | _, 0 => some s
  | offset, n + 1 =>
    match s.physblocks (p, vaddr + offset) with
    | none => shiftOffsets s p vaddr len (offset + 1) n
    | some pr =>
      if pr.offset = offset then
        shiftOffsets (s.setSlot (p, vaddr + offset) (some { pr with offset := offset - len }))
          p vaddr len (offset + 1) n
      else none

/-- `pt_writemap` with `MAP_NONE`, for `n` pages from `v` on. -/
def ptClear (s : State) (p : ProcNr) : Page → Nat → Option (Status × State)
  | _, 0 => some (.ok, s)
  | v, n + 1 =>
    match ptPtalloc s p v with
    | none => none
    | some (.ok, s) => ptClear { s with pt := Function.update s.pt (p, v) none } p (v + 1) n
    | some (e, s) => some (e, s)

/-- The region shrinks, if the range was at one of its ends. -/
def shrinkRegion (s : State) (p : ProcNr) (r : VirRegion) (offset len : Nat) :
    Option (VirRegion × State) :=
  if offset = 0 then
    let r' := { r with vaddr := r.vaddr + len, length := r.length - len }
    (shiftOffsets (regionInsert (regionRemove s p r.vaddr) p r') p r.vaddr len 0 r'.length).map
      fun s => (r', s)
  else if offset + len = r.length then
    some ({ r with length := r.length - len },
      modifyRegion s p r.vaddr fun r => { r with length := r.length - len })
  else some (r, s)

/-- `map_unmap_region`; `do_munmap` panics if it cannot clear the entries. -/
def mapUnmapRegion (s : State) (p : ProcNr) (r : VirRegion) (offset len : Nat) :
    Option (Status × State) :=
  if r.length < offset + len then some (.einval, s)
  else
    match mapSubfree s p p r offset len with
    | none => none
    | some s =>
      match shrinkRegion s p r offset len with
      | none => none
      | some (r', s) =>
        match (if r'.length = 0 then mapFree (regionRemove s p r'.vaddr) p p r' else some s) with
        | none => none
        | some s =>
          match ptClear s p (r.vaddr + offset) len with
          | some (.ok, s) => some (.ok, s)
          | _ => none

def doMunmap (s : State) (p : ProcNr) (v : Page) (len : Nat) : Option (Status × State) :=
  match mapLookup s p v with
  | none => some (.efault, s)
  | some r =>
    if r.length < v - r.vaddr + len then some (.efault, s)
    else mapUnmapRegion s p r (v - r.vaddr) len

def freePramMemBlocks (s : State) (p : ProcNr) : State :=
  (freePmbFrames s (s.vmproc p).lus1Us2).setVmproc p { s.vmproc p with lus1Us2 := [] }

def clearProc (s : State) (p : ProcNr) : State :=
  let s := freePramMemBlocks s p
  s.setVmproc p { s.vmproc p with inuse := false, regions := [], yielded := 0 }

def doExit (s : State) (p : ProcNr) : Option (Status × State) :=
  match mapFreeProc s p with
  | none => none
  | some s => some (.ok, clearProc (ptFree s p) p)

/-! ## Hardening -/

/-- `us1` or `us2` is set. -/
def Pmb.setUs (b : Pmb) (what : HRun) (f : Frame) : Pmb :=
  match what with
  | .first => { b with us1 := some f }
  | .second => { b with us2 := some f }

def lookUpPte (s : State) (p : ProcNr) (v : Page) : Option Pmb :=
  (s.vmproc p).lus1Us2.find? fun b => decide (b.vaddr = v)

/-- The list of hardening blocks of a process is replaced. -/
def setPmbs (s : State) (p : ProcNr) (l : List Pmb) : State :=
  s.setVmproc p { s.vmproc p with lus1Us2 := l }

/-- `allocate_mem_4_hardening`, for the frame `us0` of the page. -/
def allocateMem4Hardening (s : State) (p : ProcNr) (r : VirRegion) (v : Page) (us0 : Frame)
    (what : HRun) : Option State :=
  let s := s.setVmproc p { s.vmproc p with toHard := true }
  match lookUpPte s p v with
  | none =>
    match allocMem s 1 true r.phys64k with
    | some (some new, s) =>
      let b := (⟨v, none, none⟩ : Pmb).setUs what new
      some (setPmbs (absCopy s us0 new) p ((s.vmproc p).lus1Us2 ++ [b]))
    | _ => none
  | some b =>
    if b.us1 = none ∨ b.us2 = none then
      match allocMem s 1 true r.phys64k with
      | some (some new, s) =>
        match b.us what with
        | none =>
          some (setPmbs (absCopy s us0 new) p
            ((s.vmproc p).lus1Us2.map fun b' => if b'.vaddr = v then b'.setUs what new else b'))
        | some f => some (absCopy s us0 f)
      | _ => none
    else
      match b.us what with
      | none => none
      | some f => some (absCopy s us0 f)

/-- `do_hpagefaults`, with `hmap_pf`. -/
def doHpagefaults (s : State) (p : ProcNr) (v : Page) (what : HRun) : Option (Status × State) :=
  match mapLookup s p v with
  | none => none
  | some r =>
    match physblockGet s p r (v - r.vaddr) with
    | some (some pr) =>
      match s.blocks pr.ph with
      | some ⟨some us0, _, _⟩ =>
        (allocateMem4Hardening s p r v us0 what).map fun s => (.ok, s)
      | _ => none
    | _ => none

def doHardening (s : State) (p : ProcNr) (all on : Bool) : State :=
  if all then { s with hardeningEnabled := on }
  else s.setVmproc p { s.vmproc p with toHard := on }

/-! ## Yielded blocks -/

def mapClonePhBlock (s : State) (p : ProcNr) (r : VirRegion) (pr : PhysRegion) :
    Option (Option PhysRegion × State) :=
  match s.blocks pr.ph with
  | none => none
  | some pb =>
    match pbUnreferenced s p r.memtype (p, r.vaddr + pr.offset) with
    | none => none
    | some s =>
      match mapPf s p r pr.offset true with
      | none => none
      | some (.ok, s) =>
        -- `copy_abs2region`
        match physblockGet s p r pr.offset with
        | some (some pr') =>
          match s.blocks pr'.ph, pb.phys with
          | some ⟨some new, 1, _⟩, some old => some (some pr', absCopy s old new)
          | _, _ => none
        | _ => none
      | some (_, s) => some (none, s)

def getCleanPhysRegion (s : State) (p : ProcNr) (v : Page) :
    Option (Option (VirRegion × PhysRegion) × State) :=
  match mapLookup s p v with
  | none => some (none, s)
  | some r =>
    match physblockGet s p r (v - r.vaddr) with
    | none => none
    | some none => some (none, s)
    | some (some pr) =>
      match s.blocks pr.ph with
      | none => none
      | some pb =>
        if pb.refcount = 0 then none
        else if pb.refcount = 1 then some (some (r, pr), s)
        else
          match mapClonePhBlock s p r pr with
          | none => none
          | some (none, s) => some (none, s)
          | some (some pr, s) => some (some (r, pr), s)

/-- The frame of a block is replaced and the page table follows; it is a panic if it cannot. -/
def replacePhys (s : State) (p : ProcNr) (r : VirRegion) (v : Page) (pr : PhysRegion)
    (f : Frame) : Option State :=
  match s.blocks pr.ph with
  | none => none
  | some pb =>
    match mapPhWritept (s.setBlock pr.ph (some { pb with phys := some f })) p r v pr with
    | some (.ok, s) => some s
    | _ => none

/-- The loop of `getblock`, for `n` pages from `v` on. -/
def getPages (s : State) (p : ProcNr) : Page → Frame → Nat → Option (Status × State)
  | _, _, 0 => some (.ok, s)
  | v, phaddr, n + 1 =>
    match getCleanPhysRegion s p v with
    | none => none
    | some (none, s) => some (.einval, s)
    | some (some (r, pr), s) =>
      match s.blocks pr.ph with
      | some ⟨some f, _, _⟩ =>
        match replacePhys (freeMem s f 1) p r v pr phaddr with
        | none => none
        | some s => getPages s p (v + 1) (phaddr + 1) n
      | _ => none

def getblock (s : State) (p : ProcNr) (id : BlockId) (v : Page) (pages : Nat) :
    Option (Status × State) :=
  match s.cache.yieldedSearch id with
  | none => some (.esrch, s)
  | some n =>
    match s.cache.node n with
    | none => none
    | some y =>
      if y.pages ≠ pages then some (.efault, s)
      else
        match getPages s p v y.physaddr pages with
        | none => none
        | some (.ok, s) => (freeyieldednode s n false).map fun s => (.ok, s)
        | some (e, s) => some (e, s)

/-- The first loop of `yieldblock`: the frame of the first of `n` pages, if each is anonymous,
mapped once, and next to the one before. -/
def yieldCheck (s : State) (p : ProcNr) : Page → Option Frame → Nat → Option (Option Frame)
  | _, _, 0 => some none
  | v, prev, n + 1 =>
    match mapLookup s p v with
    | none => some none
    | some r =>
      match physblockGet s p r (v - r.vaddr) with
      | none => none
      | some none => some none
      | some (some pr) =>
        match s.blocks pr.ph with
        | some ⟨some f, refcount, _⟩ =>
          if r.anon = false ∨ refcount ≠ 1 ∨ ¬ prev.all (fun g => decide (f = g + 1)) then some none
          else if n = 0 then some (some f)
          else
            match yieldCheck s p (v + 1) (some f) n with
            | none => none
            | some none => some none
            | some (some _) => some (some f)
        | _ => none

/-- The second loop of `yieldblock`. -/
def yieldPages (s : State) (p : ProcNr) : Page → Frame → Nat → Option State
  | _, _, 0 => some s
  | v, phaddr, n + 1 =>
    match mapLookup s p v with
    | none => none
    | some r =>
      match physblockGet s p r (v - r.vaddr) with
      | some (some pr) =>
        match replacePhys s p r v pr phaddr with
        | none => none
        | some s => yieldPages s p (v + 1) (phaddr + 1) n
      | _ => none

def yieldblock (s : State) (p : ProcNr) (id : BlockId) (v : Page) (pages : Nat) :
    Option (Status × State) :=
  match s.cache.yieldedSearch id with
  | some _ => some (.einval, s)
  | none =>
    match yieldCheck s p v none pages with
    | none => none
    | some none => some (.efault, s)
    | some (some first) =>
      match slabAlloc s with
      | none => none
      | some (none, s) => some (.enomem, s)
      | some (some n, s) =>
        if (s.cache.node n).isSome then none
        else
          match allocMem s pages true false with
          | none => none
          | some (none, s) => some (.enomem, s)
          | some (some new, s) =>
            match yieldPages s p v new pages with
            | none => none
            | some s =>
              (s.cache.addNode n id first pages).map fun cache =>
                let s := { s with cache := cache }
                (.ok, s.setVmproc p { s.vmproc p with yielded := (s.vmproc p).yielded + 1 })

def vmBlockidNone : UInt64 := 0xFFFFFFFFFFFFFFFF

/-- `do_yieldblockgetblock`, which does not look at what `yieldblock` returns. -/
def doYieldblockgetblock (s : State) (p : ProcNr) (yieldid getid : UInt64) (v : Page)
    (pages : Nat) : Option (Status × State) :=
  match (s.vmproc p).endpoint with
  | none => none
  | some owner =>
    if pages = 0 then some (.efault, s)
    else
      match (if yieldid ≠ vmBlockidNone then yieldblock s p ⟨yieldid, owner⟩ v pages
        else some (.ok, s)) with
      | none => none
      | some (_, s) =>
        if getid ≠ vmBlockidNone then getblock s p ⟨getid, owner⟩ v pages else some (.esrch, s)

def doForgetblock (s : State) (p : ProcNr) (id : UInt64) : Option (Status × State) :=
  match (s.vmproc p).endpoint with
  | none => none
  | some owner =>
    match s.cache.yieldedSearch ⟨id, owner⟩ with
    | none => some (.ok, s)
    | some n => (freeyieldednode s n true).map fun s => (.ok, s)

def doForgetblocks (s : State) (p : ProcNr) : Option (Status × State) :=
  (freeYieldedProc s p).map fun s => (.ok, s)

/-! ## Runs -/

/-- The region of `do_mmap`. -/
def mmapRegion (vaddr : Page) (length : Nat) (contig align64k uninitialized : Bool) :
    VirRegion :=
  ⟨vaddr, length, true, align64k, uninitialized, if contig then .anonContig else .anon, 0, 0, 0,
    none⟩

/-- `do_mmap`, for the address that `region_find_slot` found. -/
def doMmap (s : State) (p : ProcNr) (r : VirRegion) (prealloc : Bool) :
    Option (Status × State) :=
  -- contiguous memory has to be preallocated
  if r.memtype = .anonContig ∧ prealloc = false then some (.einval, s)
  else
    (mapPageRegion s p r prealloc).map fun w =>
      (if w.1.isSome then Status.ok else Status.enomem, w.2)

def doMapPhys (s : State) (p : ProcNr) (vaddr : Page) (length : Nat) (phys : Frame) :
    Option (Status × State) :=
  match mapPageRegion s p ⟨vaddr, length, true, false, false, .directphys, 0, 0, 0, none⟩
    false with
  | none => none
  | some (none, s) => some (.enomem, s)
  | some (some r, s) => some (.ok, modifyRegion s p r.vaddr fun r => { r with phys := phys })

/-- `do_pagefaults`, which sends a signal where it does not call `map_pf`. -/
def doPagefaults (s : State) (p : ProcNr) (v : Page) (write : Bool) : Option (Status × State) :=
  match mapLookup s p v with
  | none => some (.efault, s)
  | some r =>
    if r.writable = false ∧ write = true then some (.efault, s)
    else mapPf s p r (v - r.vaddr) write

inductive Op where
  | mmap (p : ProcNr) (vaddr : Page) (length : Nat) (contig align64k uninitialized : Bool)
      (prealloc : Bool)
  | mapPhys (p : ProcNr) (vaddr : Page) (length : Nat) (phys : Frame)
  | remap (q p : ProcNr) (sa da : Page) (length : Nat) (readonly : Bool)
  /-- `map_pf`, for a page fault or for a page of a range that the kernel asks for. -/
  | pagefault (p : ProcNr) (v : Page) (write : Bool)
  | hpagefault (p : ProcNr) (v : Page) (what : HRun)
  | hardening (p : ProcNr) (all on : Bool)
  | fork (src dst : ProcNr) (ep : Endpoint)
  | munmap (p : ProcNr) (v : Page) (len : Nat)
  | exit (p : ProcNr)
  | yieldget (p : ProcNr) (yieldid getid : UInt64) (v : Page) (pages : Nat)
  | forget (p : ProcNr) (id : UInt64)
  | forgetAll (p : ProcNr)
  deriving DecidableEq, Repr

def Op.run (s : State) : Op → Option (Status × State)
  | .mmap p vaddr length contig align64k uninitialized prealloc =>
    doMmap s p (mmapRegion vaddr length contig align64k uninitialized) prealloc
  | .mapPhys p vaddr length phys => doMapPhys s p vaddr length phys
  | .remap q p sa da length readonly => doRemap s q p sa da length readonly
  | .pagefault p v write => doPagefaults s p v write
  | .hpagefault p v what => doHpagefaults s p v what
  | .hardening p all on => some (.ok, doHardening s p all on)
  | .fork src dst ep => doFork s src dst ep
  | .munmap p v len => doMunmap s p v len
  | .exit p => doExit s p
  | .yieldget p yieldid getid v pages => doYieldblockgetblock s p yieldid getid v pages
  | .forget p id => doForgetblock s p id
  | .forgetAll p => doForgetblocks s p

/-- The process is in use, and the kernel knows it. -/
def Live (s : State) (p : ProcNr) : Prop :=
  (s.vmproc p).inuse = true ∧ (s.vmproc p).endpoint.isSome

instance (s : State) (p : ProcNr) : Decidable (Live s p) := inferInstanceAs (Decidable (_ ∧ _))

/-- The processes are there; PM names an unused child slot, and the kernel a new endpoint. -/
def Op.Enabled (s : State) : Op → Prop
  | .fork src dst ep =>
    Live s src ∧ ¬ Live s dst ∧ ep.slot = dst ∧ ∀ p, (s.vmproc p).endpoint ≠ some ep
  | .remap q p _ _ _ _ => Live s q ∧ Live s p
  | .mmap p .. | .mapPhys p .. | .pagefault p .. | .hpagefault p .. | .hardening p .. |
    .munmap p .. | .exit p | .yieldget p .. | .forget p _ | .forgetAll p => Live s p

instance (s : State) (op : Op) : Decidable (op.Enabled s) := by
  cases op <;> unfold Op.Enabled <;> infer_instance

end HardenedMinix.Region
