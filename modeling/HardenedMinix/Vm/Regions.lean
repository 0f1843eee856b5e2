import HardenedMinix.Vm.YieldedCache

/-!
# Regions, physical blocks and page tables of VM

`pb.c`, the memory types, `map_pf` and what they call. The `physblocks` of the regions of a
process are one map from its pages. The allocators take what they return from a tape. `none` is a
panic, a failed assertion, the use of a freed block, or a tape that does not fit.
-/

open Function

namespace HardenedMinix.Region

/-! ## Data -/

/-- The number of a virtual page. -/
abbrev Page := Nat

/-- A pointer to a `phys_block`. -/
abbrev PbPtr := Nat

/-- A page of a process, and the `phys_region` that stands for it. -/
abbrev Slot := ProcNr × Page

inductive Status where
  | ok
  | enomem
  | einval
  | efault
  | esrch
  deriving DecidableEq, Repr

inductive MemType where
  | anon
  | anonContig
  | directphys
  | shared
  deriving DecidableEq, Repr

/-- `param.shared`. -/
structure Source where
  ep : Endpoint
  vaddr : Page
  id : Nat
  deriving DecidableEq, Repr

structure VirRegion where
  vaddr : Page
  length : Nat
  /-- `VR_WRITABLE` -/
  writable : Bool
  /-- `VR_PHYS64K` -/
  phys64k : Bool
  /-- `VR_UNINITIALIZED` -/
  uninitialized : Bool
  memtype : MemType
  remaps : Nat
  id : Nat
  /-- `param.phys` -/
  phys : Frame
  /-- `param.shared`, once `shared_setsource` has set it. -/
  source : Option Source
  deriving DecidableEq, Repr

structure PhysRegion where
  ph : PbPtr
  offset : Nat
  deriving DecidableEq, Repr

/-- `struct phys_block`; the list that begins at `firstregion` is a field. -/
structure PhysBlock where
  phys : Option Frame
  /-- A `u8_t`. -/
  refcount : Nat
  regions : List Slot
  deriving DecidableEq, Repr

structure Entry where
  pfa : Frame
  write : Bool
  deriving DecidableEq, Repr

/-- `VR_ANON`, which is set for these memory types. -/
def VirRegion.anon (r : VirRegion) : Bool :=
  decide (r.memtype = .anon ∨ r.memtype = .anonContig)

inductive HRun where
  | first
  | second
  deriving DecidableEq, Repr

/-- `struct pram_mem_block`, for a page. -/
structure Pmb where
  vaddr : Page
  us1 : Option Frame
  us2 : Option Frame
  deriving DecidableEq, Repr

/-- `us1` or `us2`. -/
def Pmb.us (b : Pmb) : HRun → Option Frame
  | .first => b.us1
  | .second => b.us2

/-- `VM_DATATOP`, as a page. -/
def vmDatatop : Page := 0xF0000

structure VmProc where
  /-- `VMF_INUSE` -/
  inuse : Bool
  /-- `none` is `NONE`. -/
  endpoint : Option Endpoint
  regions : List VirRegion
  yielded : Nat
  /-- `VM_PROC_TO_HARD` -/
  toHard : Bool
  /-- `vm_lus1_us2` -/
  lus1Us2 : List Pmb

/-- What an allocator does when it is called. -/
inductive Choice where
  /-- `alloc_pages` finds pages from here on. -/
  | frame (f : Frame)
  /-- It finds none until yielded blocks were freed. -/
  | evict (f : Frame)
  /-- It finds none. -/
  | noMem
  | slab (n : Nat)
  | noSlab
  deriving DecidableEq, Repr

structure State where
  vmproc : ProcNr → VmProc
  physblocks : Slot → Option PhysRegion
  blocks : PbPtr → Option PhysBlock
  pt : Slot → Option Entry
  /-- The page tables of a process, by the number of the directory entry. -/
  ptPages : ProcNr × Fin 1024 → Option Frame
  ptDir : ProcNr → Option Frame
  /-- `free_pages_bitmap` -/
  freePages : Frame → Bool
  mem : Frame → PageData
  cache : Cache
  /-- `id` of `region_new`. -/
  nextId : Nat
  hardeningEnabled : Bool
  tape : List Choice

def State.setVmproc (s : State) (p : ProcNr) (x : VmProc) : State :=
  { s with vmproc := update s.vmproc p x }

def State.setBlock (s : State) (b : PbPtr) (pb : Option PhysBlock) : State :=
  { s with blocks := update s.blocks b pb }

def State.setSlot (s : State) (x : Slot) (pr : Option PhysRegion) : State :=
  { s with physblocks := update s.physblocks x pr }

/-! ## Allocation -/

def vmIsokendpt (s : State) (ep : Endpoint) : Option ProcNr :=
  if (s.vmproc ep.slot).inuse = true ∧ (s.vmproc ep.slot).endpoint = some ep then some ep.slot
  else none

def freeMem (s : State) (base : Frame) (clicks : Nat) : State :=
  { s with freePages := fun f => decide (base ≤ f ∧ f < base + clicks) || s.freePages f }

def freeyieldednode (s : State) (n : YieldedPtr) (freemem : Bool) : Option State :=
  match s.cache.removeNode n with
  | none => none
  | some (y, cache) =>
    match vmIsokendpt s y.id.owner with
    | none => none
    | some p =>
      if (s.vmproc p).yielded = 0 then none
      else
        let s := { s with cache := cache }
        let s := s.setVmproc p { s.vmproc p with yielded := (s.vmproc p).yielded - 1 }
        some (if freemem then freeMem s y.physaddr y.pages else s)

/-- Each block counts as one page. -/
def freeYielded (s : State) : Nat → Option State
  | 0 => some s
  | k + 1 =>
    match s.cache.lruOldest with
    | none => some s
    | some n =>
      match freeyieldednode s n true with
      | none => none
      | some s => freeYielded s k

/-- `alloc_pages`, from the page `f` on. -/
def allocPages (s : State) (f : Frame) (pages : Nat) (clear : Bool) : Option State :=
  if ∀ i < pages, s.freePages (f + i) = true then
    some { s with
      freePages := fun g => s.freePages g && !decide (f ≤ g ∧ g < f + pages)
      mem := fun g => if clear = true ∧ f ≤ g ∧ g < f + pages then fun _ => 0 else s.mem g }
  else none

/-- The pages in front of the first one aligned to 64 kB are given back. -/
def alignMem (s : State) (f : Frame) (align : Bool) : Frame × State :=
  if align = true ∧ f % 16 ≠ 0 then (f + (16 - f % 16), freeMem s f (16 - f % 16)) else (f, s)

def allocMem (s : State) (pages : Nat) (clear align : Bool) : Option (Option Frame × State) :=
  let clicks := if align then pages + 16 else pages
  match s.tape with
  | .frame f :: tape =>
    (allocPages { s with tape := tape } f clicks clear).map fun s =>
      (some (alignMem s f align).1, (alignMem s f align).2)
  | .evict f :: tape =>
    match freeYielded { s with tape := tape } clicks with
    | none => none
    | some s =>
      (allocPages s f clicks clear).map fun s =>
        (some (alignMem s f align).1, (alignMem s f align).2)
  | .noMem :: tape => (freeYielded { s with tape := tape } clicks).map fun s => (none, s)
  | _ => none

def slabAlloc (s : State) : Option (Option Nat × State) :=
  match s.tape with
  | .slab n :: tape => some (some n, { s with tape := tape })
  | .noSlab :: tape => some (none, { s with tape := tape })
  | _ => none

/-! ## Physical blocks -/

def pbNew (s : State) (phys : Option Frame) : Option (Option PbPtr × State) :=
  match slabAlloc s with
  | none => none
  | some (none, s) => some (none, s)
  | some (some b, s) =>
    if s.blocks b = none then some (some b, s.setBlock b (some ⟨phys, 0, []⟩)) else none

def pbFree (s : State) (b : PbPtr) : Option State :=
  match s.blocks b with
  | none => none
  | some ⟨some f, _, _⟩ => some ((freeMem s f 1).setBlock b none)
  | some ⟨none, _, _⟩ => some (s.setBlock b none)

def pbLink (s : State) (x : Slot) (b : PbPtr) (offset : Nat) : Option State :=
  match s.blocks b with
  | none => none
  | some pb =>
    some ((s.setSlot x (some ⟨b, offset⟩)).setBlock b
      (some { pb with refcount := (pb.refcount + 1) % 256, regions := x :: pb.regions }))

def pbReference (s : State) (x : Slot) (b : PbPtr) (offset : Nat) :
    Option (Bool × State) :=
  match slabAlloc s with
  | none => none
  | some (none, s) => some (false, s)
  | some (some _, s) =>
    if s.physblocks x = none then (pbLink s x b offset).map fun s => (true, s) else none

/-- The frames of hardening blocks are freed. -/
def freePmbFrames (s : State) (l : List Pmb) : State :=
  { s with freePages := fun f => decide (∃ b ∈ l, b.us1 = some f ∨ b.us2 = some f) ||
      s.freePages f }

/-- `free_region_pmbs` for one page, if its process is hardened and has an endpoint. -/
def freeRegionPmbs (s : State) (p : ProcNr) (v : Page) : State :=
  if (s.vmproc p).toHard = true ∧ (s.vmproc p).endpoint.isSome ∧ p ≠ vmProcNr then
    (freePmbFrames s ((s.vmproc p).lus1Us2.filter fun b => decide (b.vaddr = v))).setVmproc p
      { s.vmproc p with
        lus1Us2 := (s.vmproc p).lus1Us2.filter fun b => decide (b.vaddr ≠ v) }
  else s

/-- `ev_unreference` of the memory type: the frame is freed, unless VM does not manage it. -/
def evUnreference (s : State) (mt : MemType) (phys : Option Frame) : State :=
  match mt, phys with
  | .directphys, _ => s
  | _, none => s
  | _, some f => freeMem s f 1

/-- `pb_unreferenced`, without the end that empties the slot. `parent` is not the slot's process
while a region is copied. -/
def pbUnlink (s : State) (parent : ProcNr) (mt : MemType) (x : Slot) : Option State :=
  match s.physblocks x with
  | none => none
  | some pr =>
    match s.blocks pr.ph with
    | none => none
    | some pb =>
      if pb.refcount = 0 ∨ x ∉ pb.regions then none
      else if pb.refcount = 1 then
        -- the last reference
        if pb.regions ≠ [x] then none
        else
          some (freeRegionPmbs ((evUnreference s mt pb.phys).setBlock pr.ph none) parent x.2)
      else
        some (freeRegionPmbs (s.setBlock pr.ph (some { pb with
          refcount := pb.refcount - 1, regions := pb.regions.erase x })) parent x.2)

/-- `pb_unreferenced`, with `rm` set. -/
def pbUnreferenced (s : State) (parent : ProcNr) (mt : MemType) (x : Slot) : Option State :=
  (pbUnlink s parent mt x).map fun s => s.setSlot x none

/-! ## Lookups -/

def VirRegion.Contains (r : VirRegion) (v : Page) : Prop := r.vaddr ≤ v ∧ v < r.vaddr + r.length

instance (r : VirRegion) (v : Page) : Decidable (r.Contains v) :=
  inferInstanceAs (Decidable (_ ∧ _))

def mapLookup (s : State) (p : ProcNr) (v : Page) : Option VirRegion :=
  (s.vmproc p).regions.find? fun r => decide (r.Contains v)

/-- The outer `none` is a failed assertion. -/
def physblockGet (s : State) (p : ProcNr) (r : VirRegion) (offset : Nat) :
    Option (Option PhysRegion) :=
  if offset < r.length then
    match s.physblocks (p, r.vaddr + offset) with
    | none => some none
    | some pr => if pr.offset = offset then some (some pr) else none
  else none

def getsrc (s : State) (r : VirRegion) : Option (ProcNr × VirRegion) :=
  match r.memtype, r.source with
  | .shared, some src =>
    match vmIsokendpt s src.ep with
    | none => none
    | some p =>
      match mapLookup s p src.vaddr with
      | none => none
      | some r' => if r'.memtype = .anon ∧ src.id = r'.id then some (p, r') else none
  | _, _ => none

/-- `memtype->writable`; a block without a reference fails the assertion. -/
def blockWritable (r : VirRegion) (pb : PhysBlock) : Option Bool :=
  if pb.refcount = 0 then none
  else
    match r.memtype with
    | .anon | .anonContig =>
      some (decide (0 < r.remaps) || (pb.phys.isSome && decide (pb.refcount = 1)))
    | .directphys | .shared => some pb.phys.isSome

/-! ## Page tables -/

/-- `I386_VM_PDE`. -/
def pdeOfPage (v : Page) : Fin 1024 := Fin.ofNat 1024 (v / 1024)

/-- `pt_ptalloc`, unless the page table is there. -/
def ptPtalloc (s : State) (p : ProcNr) (v : Page) : Option (Status × State) :=
  if (s.ptPages (p, pdeOfPage v)).isSome then some (.ok, s)
  else
    match allocMem s 1 true false with
    | none => none
    | some (none, s) => some (.enomem, s)
    | some (some f, s) =>
      some (.ok, { s with ptPages := update s.ptPages (p, pdeOfPage v) (some f) })

def mapPhWritept (s : State) (p : ProcNr) (r : VirRegion) (v : Page) (pr : PhysRegion) :
    Option (Status × State) :=
  match s.blocks pr.ph with
  | none => none
  | some pb =>
    match blockWritable r pb, pb.phys with
    | some w, some f =>
      match ptPtalloc s p v with
      | none => none
      | some (.ok, s) =>
        let e : Entry := ⟨f, r.writable && w⟩
        some (.ok, { s with pt := update s.pt (p, v) (some e) })
      | some (_, s) => some (.enomem, s)
    | _, _ => none

/-! ## Page faults -/

/-- `sys_abscopy` of a page. -/
def absCopy (s : State) (src dst : Frame) : State :=
  { s with mem := update s.mem dst (s.mem src) }

def anonPagefault (s : State) (p : ProcNr) (r : VirRegion) (v : Page) (pr : PhysRegion)
    (write : Bool) : Option (Status × State) :=
  match s.blocks pr.ph with
  | none => none
  | some pb =>
    if pb.refcount = 0 then none
    else
      match allocMem s 1 (!r.uninitialized) r.phys64k with
      | none => none
      | some (none, s) => some (.enomem, s)
      | some (some new, s) =>
        match pb.phys with
        | none => some (.ok, s.setBlock pr.ph (some { pb with phys := some new }))
        | some old =>
          -- "not handling pagefault"
          if pb.refcount < 2 ∨ write = false then some (.ok, s)
          else if r.writable = false then none
          else
            match pbNew (absCopy s old new) (some new) with
            | none => none
            | some (none, s) => some (.enomem, freeMem s new 1)
            | some (some b, s) =>
              match pbUnlink s p r.memtype (p, v) with
              | none => none
              | some s => (pbLink s (p, v) b pr.offset).map fun s => (.ok, s)

def physPagefault (s : State) (r : VirRegion) (pr : PhysRegion) : Option (Status × State) :=
  match s.blocks pr.ph with
  | some ⟨none, refcount, regions⟩ =>
    some (.ok, s.setBlock pr.ph (some ⟨some (r.phys + pr.offset), refcount, regions⟩))
  | _ => none

/-- The `phys_region` that `map_pf` works on: that of the page, or a new one of a new block. -/
def mapPfBlock (s : State) (p : ProcNr) (r : VirRegion) (offset : Nat) :
    Option (Option PhysRegion × State) :=
  match physblockGet s p r offset with
  | none => none
  | some (some pr) => some (some pr, s)
  | some none =>
    match pbNew s none with
    | none => none
    | some (none, s) => some (none, s)
    | some (some b, s) =>
      match pbReference s (p, r.vaddr + offset) b offset with
      | none => none
      | some (false, s) => (pbFree s b).map fun s => (none, s)
      | some (true, s) => some (some ⟨b, offset⟩, s)

/-- `map_pf`, with the `ev_pagefault` of the memory type. -/
def mapPfWith (evPagefault : State → PhysRegion → Option (Status × State)) (s : State)
    (p : ProcNr) (r : VirRegion) (offset : Nat) (write : Bool) : Option (Status × State) :=
  if write = true ∧ r.writable = false then none
  else
    match mapPfBlock s p r offset with
    | none => none
    | some (none, s) => some (.enomem, s)
    | some (some pr, s) =>
      match s.blocks pr.ph with
      | none => none
      | some pb =>
        match blockWritable r pb with
        | none => none
        | some w =>
          match (if write = true ∧ w = true then some (.ok, s) else evPagefault s pr) with
          | none => none
          | some (.ok, s) =>
            match s.physblocks (p, r.vaddr + offset) with
            | none => none
            | some pr => mapPhWritept s p r (r.vaddr + offset) pr
          | some (e, s) =>
            (pbUnreferenced s p r.memtype (p, r.vaddr + offset)).map fun s => (e, s)

/-- `map_pf` of an anonymous region. -/
def mapPfAnon (s : State) (p : ProcNr) (r : VirRegion) (offset : Nat) (write : Bool) :
    Option (Status × State) :=
  mapPfWith (fun s pr => anonPagefault s p r (r.vaddr + offset) pr write) s p r offset write

def sharedPagefault (s : State) (p : ProcNr) (r : VirRegion) (v : Page) (pr : PhysRegion)
    (write : Bool) : Option (Status × State) :=
  match getsrc s r with
  | none => some (.einval, s)
  | some (q, src) =>
    match s.blocks pr.ph with
    | some ⟨none, _, _⟩ =>
      match pbFree s pr.ph with
      | none => none
      | some s =>
        match physblockGet s q src pr.offset with
        | none => none
        | some (some pr') => (pbLink s (p, v) pr'.ph pr.offset).map fun s => (.ok, s)
        | some none =>
          match mapPfAnon s q src pr.offset write with
          | none => none
          | some (.ok, s) =>
            match physblockGet s q src pr.offset with
            | some (some pr') => (pbLink s (p, v) pr'.ph pr.offset).map fun s => (.ok, s)
            | _ => none
          | some (e, s) => some (e, s)
    | _ => none

/-- `ev_pagefault` of the memory type. -/
def evPagefault (s : State) (p : ProcNr) (r : VirRegion) (v : Page) (pr : PhysRegion)
    (write : Bool) : Option (Status × State) :=
  match r.memtype with
  | .anon => anonPagefault s p r v pr write
  | .anonContig => none
  | .directphys => physPagefault s r pr
  | .shared => sharedPagefault s p r v pr write

def mapPf (s : State) (p : ProcNr) (r : VirRegion) (offset : Nat) (write : Bool) :
    Option (Status × State) :=
  mapPfWith (fun s pr => evPagefault s p r (r.vaddr + offset) pr write) s p r offset write

end HardenedMinix.Region
