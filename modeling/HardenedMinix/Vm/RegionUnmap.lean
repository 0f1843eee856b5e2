import HardenedMinix.Vm.RegionTree

/-!
# Unmapping a part of a region

`do_munmap`, `map_unmap_region` and `map_subfree`. `none` is a failed assertion or a panic. The
blocks of the pages that are freed are left out.
-/

open Function List

namespace HardenedMinix.RegionTree

/-! ## The code -/

inductive Status
  | ok
  | einval
  | enomem
  | efault
  deriving DecidableEq, Repr

/-- A page directory entry: none, a page table, or a page of 4 MB. -/
inductive Pde
  | absent
  | table
  | bigpage
  deriving DecidableEq, Repr

/-- The part of the address space that one page table is for. -/
def pdeSize : Nat := 0x400000

/-- The regions and the page table of a process; an entry of the page table is known by the number
of its page. -/
structure Process where
  regions : Tree
  pde : Nat → Pde
  pte : Nat → Option Nat

/-- The loop of `pt_ptalloc_in_range`; `alloc` is whether there is memory for a page table. -/
def Process.ptallocs (p : Process) (alloc : Nat → Bool) : List Nat → Option (Status × Process)
  | [] => some (.ok, p)
  | k :: ks =>
    match p.pde k with
    | .bigpage => none
    | .table => p.ptallocs alloc ks
    | .absent =>
      if alloc k then { p with pde := update p.pde k .table }.ptallocs alloc ks
      else some (.enomem, p)

/-- The entries that `pt_ptalloc_in_range` looks at, from the one of `start` to the one of
`end - 1`. -/
def pdesOf (start stop : Nat) : List Nat :=
  List.range' (start / pdeSize) (sub stop 1 / pdeSize + 1 - start / pdeSize)

/-- The loop of `pt_writemap` for `MAP_NONE`, from the address on. -/
def Process.clearPtes (p : Process) : Nat → Nat → Option Process
  | 0, _ => some p
  | n + 1, v =>
    if v % vmPageSize ≠ 0 ∨ p.pde (v / pdeSize) ≠ .table then none
    else { p with pte := update p.pte (v / vmPageSize) none }.clearPtes n (add v vmPageSize)

/-- `pt_writemap(vmp, &vmp->vm_pt, v, MAP_NONE, bytes, 0, WMF_OVERWRITE)`. -/
def Process.ptWritemap (p : Process) (alloc : Nat → Bool) (v bytes : Nat) :
    Option (Status × Process) :=
  if bytes % vmPageSize ≠ 0 then none
  else
    match p.ptallocs alloc (pdesOf v (add v bytes)) with
    | none => none
    | some (.ok, p) => (p.clearPtes (bytes / vmPageSize) v).map fun p => (.ok, p)
    | some (e, p) => some (e, p)

namespace VirRegion

/-- `physblock_set(region, offset, NULL)`. -/
def clearSlot (r : VirRegion) (i : Nat) : VirRegion :=
  { r with physblocks := r.physblocks.set i none }

/-- The loop of `map_subfree` over these slots. -/
def freeSlots (r : VirRegion) : List Nat → Option VirRegion
  | [] => some r
  | i :: is =>
    match r.physblockGet (i * vmPageSize) with
    | none => none
    | some none => r.freeSlots is
    | some (some _) => (r.clearSlot i).freeSlots is

/-- The offset it starts from is that of a page. -/
def mapSubfree (r : VirRegion) (start len : Nat) : Option VirRegion :=
  let stop := add start len
  r.freeSlots (List.range' (start / vmPageSize) ((stop + vmPageSize - 1) / vmPageSize - start / vmPageSize))

/-- The loop that makes the offsets smaller, through the slots of the region before they are moved.
`physblock_get` checks the offsets. -/
def shiftOffsets (r : VirRegion) (len : Nat) : Option VirRegion :=
  if ∀ i < r.slots, ∀ ph ∈ r.slot i, ph.offset = i * vmPageSize then
    some { r with
      physblocks := r.physblocks.mapIdx fun i s =>
        if i < r.slots then s.map fun ph => { ph with offset := sub ph.offset len } else s }
  else none

/-- `memmove` of the slots behind the freed ones; what it leaves behind them is not looked at any
more. -/
def moveSlots (r : VirRegion) (freeslots : Nat) : VirRegion :=
  { r with physblocks := (r.physblocks.drop freeslots).take r.slots }

/-- The region after a part at its start has gone. -/
def shrinkStart (r : VirRegion) (len : Nat) : Option VirRegion :=
  let r := { r with vaddr := add r.vaddr len, length := r.length - len }
  (r.shiftOffsets len).map fun r => if r.slots = 0 then r else r.moveSlots (len / vmPageSize)

/-- The region after a part at its end has gone. -/
def shrinkEnd (r : VirRegion) (len : Nat) : VirRegion :=
  let r := { r with length := r.length - len }
  { r with physblocks := r.physblocks.take r.slots }

end VirRegion

/-- The node whose key is that of `r` becomes `r'`. -/
def Tree.replace (t : Tree) (r r' : VirRegion) : Tree :=
  t.map fun x => if x.vaddr = r.vaddr then r' else x

/-- The tree and the region once the memory of the range has been freed. -/
def Tree.shrink (t : Tree) (r r₁ : VirRegion) (offset len : Nat) : Option (Tree × VirRegion) :=
  if offset = 0 then
    (r₁.shrinkStart len).map fun r' => ((t.remove r.vaddr).insert r', r')
  else if add offset len = r.length then
    if len ≤ r.length then some (t.replace r (r₁.shrinkEnd len), r₁.shrinkEnd len) else none
  else some (t.replace r r₁, r₁)

def Process.mapUnmapRegion (p : Process) (alloc : Nat → Bool) (r : VirRegion) (offset len : Nat) :
    Option (Status × Process) :=
  if r.length < add offset len ∨ len % vmPageSize ≠ 0 then some (.einval, p)
  else
    match r.mapSubfree offset len with
    | none => none
    | some r₁ =>
      match p.regions.shrink r r₁ offset len with
      | none => none
      | some (t, r') =>
        -- a region that has become empty is unlinked by its new key
        let t := if r'.length = 0 then t.remove r'.vaddr else t
        { p with regions := t }.ptWritemap alloc (add r.vaddr offset) len

def Tree.mapLookup (t : Tree) (v : Nat) : Option VirRegion :=
  match (t.filter fun r => r.vaddr ≤ v).getLast? with
  | none => none
  | some r => if v < add r.vaddr r.length then some r else none

/-- `roundup(len, VM_PAGE_SIZE)` on an `int`. -/
def roundup (len : Int) : Nat :=
  ((Int.bmod (len + (vmPageSize - 1)) addrSize).tdiv vmPageSize * vmPageSize % addrSize).toNat

/-- `munmap` of a number of bytes, an `int` of the message, or `VM_UNMAP_PHYS` and `VM_SHM_UNMAP`,
for the rest of the region. -/
inductive Request
  | munmap (addr : Nat) (len : Int)
  | whole (addr : Nat)
  deriving DecidableEq, Repr

def Request.addr : Request → Nat
  | .munmap addr _ | .whole addr => addr

/-- The length that `do_munmap` goes on with. -/
def Request.len (r : VirRegion) : Request → Nat
  | .munmap _ len => roundup len
  | .whole _ => r.length

def Process.doMunmap (p : Process) (alloc : Nat → Bool) (req : Request) :
    Option (Status × Process) :=
  match p.regions.mapLookup req.addr with
  | none => some (.efault, p)
  | some r =>
    if req.addr % vmPageSize ≠ 0 then some (.efault, p)
    else
      let len := req.len r
      let offset := req.addr - r.vaddr
      if r.length < add offset len then some (.efault, p)
      else
        match p.mapUnmapRegion alloc r offset len with
        | some (.ok, p) => some (.ok, p)
        | _ => none -- do_munmap panics

/-! ## What a request should do -/

def Tree.Mapped (t : Tree) (v : Nat) : Prop := ∃ r ∈ t, r.vaddr ≤ v ∧ v < r.stop

/-- The page at an address has this frame. -/
def Tree.Frame (t : Tree) (v f : Nat) : Prop :=
  ∃ r ∈ t, r.vaddr ≤ v ∧ v < r.stop ∧ ∃ ph, r.slot ((v - r.vaddr) / vmPageSize) = some ph ∧ ph.phys = f

/-- The number of bytes that the request is for: its 32-bit length, in whole pages. -/
def Request.size (r : VirRegion) : Request → Nat
  | .munmap _ len => ((len % addrSize).toNat + (vmPageSize - 1)) / vmPageSize * vmPageSize
  | .whole _ => r.length

/-- The range `[lo, lo + n)` of the region has been unmapped. -/
structure Unmapped (p p' : Process) (r : VirRegion) (lo n : Nat) : Prop where
  /-- the pages go at the start or the end of the region, and stay otherwise -/
  mapped : ∀ v, p'.regions.Mapped v ↔
    p.regions.Mapped v ∧ ¬ ((lo = r.vaddr ∨ lo + n = r.stop) ∧ lo ≤ v ∧ v < lo + n)
  other : ∀ x ∈ p.regions, x ≠ r → x ∈ p'.regions
  frame : ∀ v f, p'.regions.Frame v f ↔ p.regions.Frame v f ∧ ¬ (lo ≤ v ∧ v < lo + n)
  offset : ∀ x ∈ p'.regions, ∀ i ph, x.slot i = some ph → ph.offset = i * vmPageSize
  pte : ∀ k, p'.pte k = if lo / vmPageSize ≤ k ∧ k < (lo + n) / vmPageSize then none else p.pte k

/-- The request removes exactly what it is for, if that lies within one region, or is rejected
without any change. -/
def Process.Unmaps (p : Process) (alloc : Nat → Bool) (req : Request) : Prop :=
  match p.doMunmap alloc req with
  | none => False
  | some (.ok, p') => ∃ r, p.regions.mapLookup req.addr = some r ∧
      req.addr + req.size r ≤ r.stop ∧ Unmapped p p' r req.addr (req.size r)
  | some (_, p') => p' = p

/-- The request passes the checks of `do_munmap`, for this region. -/
structure Process.Accepts (p : Process) (req : Request) (r : VirRegion) : Prop where
  lookup : p.regions.mapLookup req.addr = some r
  aligned : req.addr % vmPageSize = 0
  fits : add (req.addr - r.vaddr) (req.len r) ≤ r.length

/-- The length is rounded right; or the pages too many hold nothing, and the region begins before
the range and goes on behind them. -/
def Process.Rounds (p : Process) (req : Request) (r : VirRegion) : Prop :=
  req.len r = req.size r ∨
    req.addr ≠ r.vaddr ∧ req.addr + req.len r < r.stop ∧
      ∀ v, req.addr + req.size r ≤ v → v < req.addr + req.len r →
        p.pte (v / vmPageSize) = none ∧ ∀ f, ¬ p.regions.Frame v f

/-- No region begins where a whole region ends, no page is there whose offset stays, and the missing
page tables can be allocated. -/
structure Process.Room (p : Process) (alloc : Nat → Bool) (r : VirRegion) (lo n : Nat) : Prop where
  alone : lo = r.vaddr → n = r.length → ∀ x ∈ p.regions, x.vaddr ≠ r.stop
  shifted : lo = r.vaddr → ∀ i, n / vmPageSize ≤ i → r.slots - n / vmPageSize ≤ i → r.slot i = none
  tables : ∀ k ∈ pdesOf lo (add lo n), p.pde k ≠ .bigpage ∧ (p.pde k = .absent → alloc k)

/-- The range lies within the region, its length is rounded right, and there is room for it. -/
structure Process.Clean (p : Process) (alloc : Nat → Bool) (req : Request) (r : VirRegion) : Prop where
  inside : req.addr + req.size r ≤ r.stop
  rounds : p.Rounds req r
  room : p.Room alloc r req.addr (req.len r)

/-- The regions are as the assertions rely on, and begin at the addresses of pages. -/
structure Process.Ok (p : Process) : Prop where
  regions : p.regions.Ok
  aligned : ∀ r ∈ p.regions, r.vaddr % vmPageSize = 0

/-! ## Slots -/

namespace VirRegion

variable {r r' : VirRegion} {i j : Nat}

theorem slot_eq_none (h : r.physblocks.length ≤ i) : r.slot i = none := by
  simp [slot, List.getElem?_eq_none h]

theorem slot_clearSlot : (r.clearSlot i).slot j = if j = i then none else r.slot j := by
  unfold slot clearSlot
  simp only [List.getElem?_set]
  by_cases hj : j = i
  · subst hj
    simp only [if_true]
    split <;> rfl
  · rw [if_neg (Ne.symm hj), if_neg hj]

theorem Ok.clearSlot (h : r.Ok) : (r.clearSlot i).Ok := by
  refine ⟨h.pos, h.pages, ?_, fun j ph hj => ?_, h.top⟩
  · exact length_set.trans h.slots
  · rw [slot_clearSlot] at hj
    split at hj
    · cases hj
    · exact h.offset j ph hj

/-- The region has the same place and size as another one. -/
structure SameArea (r r' : VirRegion) : Prop where
  vaddr : r'.vaddr = r.vaddr
  length : r'.length = r.length
  physblocks : r'.physblocks.length = r.physblocks.length

theorem Ok.freeSlots (h : r.Ok) (is : List Nat) (his : ∀ i ∈ is, i < r.slots) :
    ∃ r', r.freeSlots is = some r' ∧ SameArea r r' ∧
      ∀ j, r'.slot j = if j ∈ is then none else r.slot j := by
  induction is generalizing r with
  | nil => exact ⟨r, rfl, ⟨rfl, rfl, rfl⟩, fun j => by simp⟩
  | cons i is ih =>
    simp only [VirRegion.freeSlots, h.physblockGet (his i (.head _))]
    cases hs : r.slot i with
    | none =>
      obtain ⟨r', hfree, harea, hslot⟩ := ih h fun j hj => his j (.tail _ hj)
      refine ⟨r', hfree, harea, fun j => ?_⟩
      rw [hslot]
      by_cases hj : j = i
      · subst hj
        simp [hs]
      · simp [hj]
    | some ph =>
      obtain ⟨r', hfree, harea, hslot⟩ := ih (h.clearSlot (i := i)) fun j hj => his j (.tail _ hj)
      have hlen : (r.clearSlot i).physblocks.length = r.physblocks.length := length_set
      refine ⟨r', hfree, ⟨harea.vaddr, harea.length, harea.physblocks.trans hlen⟩, fun j => ?_⟩
      rw [hslot, slot_clearSlot]
      by_cases hj : j = i <;> simp [hj]

theorem Ok.mapSubfree (h : r.Ok) {a n : Nat} (hle : a + n ≤ r.slots) :
    ∃ r', r.mapSubfree (a * vmPageSize) (n * vmPageSize) = some r' ∧ SameArea r r' ∧
      ∀ j, r'.slot j = if a ≤ j ∧ j < a + n then none else r.slot j := by
  have hpage : 0 < vmPageSize := by decide
  have hlength := h.length_eq
  have htop := h.top
  have hsize : vmDatatop < addrSize := by decide
  have hmul : (a + n) * vmPageSize ≤ r.slots * vmPageSize := Nat.mul_le_mul_right _ hle
  have hadd : add (a * vmPageSize) (n * vmPageSize) = (a + n) * vmPageSize := by
    rw [add_eq, Nat.add_mul]
    unfold stop at htop
    rw [← Nat.add_mul]
    omega
  have hstop : ((a + n) * vmPageSize + vmPageSize - 1) / vmPageSize = a + n := by
    rw [Nat.add_sub_assoc hpage, Nat.mul_comm, Nat.mul_add_div hpage]
    rfl
  obtain ⟨r', hfree, harea, hslot⟩ := h.freeSlots (List.range' a n) fun i hi => by
    rw [mem_range'_1] at hi
    omega
  refine ⟨r', ?_, harea, fun j => ?_⟩
  · unfold VirRegion.mapSubfree
    dsimp only
    rw [hadd, hstop, Nat.mul_div_cancel a hpage, Nat.add_sub_cancel_left]
    exact hfree
  · rw [hslot]
    simp only [mem_range'_1]

theorem shiftOffsets_of_check (hcheck : ∀ i < r.slots, ∀ ph ∈ r.slot i, ph.offset = i * vmPageSize)
    (len : Nat) : ∃ r', r.shiftOffsets len = some r' ∧ r'.vaddr = r.vaddr ∧ r'.length = r.length ∧
      ∀ j, r'.slot j = if j < r.slots then (r.slot j).map fun ph => { ph with offset := sub ph.offset len }
        else r.slot j := by
  refine ⟨_, if_pos hcheck, rfl, rfl, fun j => ?_⟩
  unfold slot
  simp only [List.getElem?_mapIdx]
  cases r.physblocks[j]? with
  | none => simp
  | some s => split <;> simp [*]

theorem slot_moveSlots (r : VirRegion) (k j : Nat) :
    (r.moveSlots k).slot j = if j < r.slots then r.slot (k + j) else none := by
  unfold slot moveSlots
  simp only [List.getElem?_take, List.getElem?_drop]
  split <;> rfl

/-- A part of `k` pages at the start goes. The slots move down; an offset is made smaller only if its slot was among the first ones. -/
theorem Ok.shrinkStart {r₁ : VirRegion} (h : r.Ok) (harea : SameArea r r₁) {k : Nat} (hk : k ≤ r.slots)
    (hslot : ∀ j, r₁.slot j = if j < k then none else r.slot j) :
    ∃ r', r₁.shrinkStart (k * vmPageSize) = some r' ∧ r'.vaddr = r.vaddr + k * vmPageSize ∧
      r'.length = (r.slots - k) * vmPageSize ∧ (k < r.slots → ∀ j, r'.slot j =
        if j < r.slots - k then
          if k + j < r.slots - k then
            (r.slot (k + j)).map fun ph => { ph with offset := j * vmPageSize }
          else r.slot (k + j)
        else none) := by
  have hpage : 0 < vmPageSize := by decide
  have hlength := h.length_eq
  have htop := h.top
  have hsize : vmDatatop < addrSize := by decide
  have hmul : k * vmPageSize ≤ r.slots * vmPageSize := Nat.mul_le_mul_right _ hk
  set q : VirRegion := { r₁ with
    vaddr := add r₁.vaddr (k * vmPageSize), length := r₁.length - k * vmPageSize } with hq
  have hlen : q.length = (r.slots - k) * vmPageSize := by
    rw [Nat.sub_mul, ← hlength, ← harea.length]
  have hslots : q.slots = r.slots - k := by
    rw [VirRegion.slots, hlen, Nat.mul_div_cancel _ hpage]
  have hvaddr : q.vaddr = r.vaddr + k * vmPageSize := by
    unfold stop at htop
    rw [← harea.vaddr]
    refine add_eq ?_
    rw [harea.vaddr]
    omega
  have hqslot (j : Nat) : q.slot j = if j < k then none else r.slot j := hslot j
  have hoffset (j : Nat) (ph : PhysRegion) (hph : r.slot (k + j) = some ph) :
      sub ph.offset (k * vmPageSize) = j * vmPageSize := by
    have hj : k + j < r.slots := by
      by_contra hlt
      rw [slot_eq_none (h.slots ▸ not_lt.mp hlt)] at hph
      cases hph
    have hle : (k + j) * vmPageSize ≤ r.slots * vmPageSize := Nat.mul_le_mul_right _ hj.le
    unfold stop at htop
    rw [h.offset _ ph hph, sub_eq (Nat.mul_le_mul_right _ (Nat.le_add_right ..)) (by omega), ← Nat.sub_mul,
      Nat.add_sub_cancel_left]
  -- the assertion of physblock_get holds of each slot that is looked at
  have hcheck : ∀ i < q.slots, ∀ ph ∈ q.slot i, ph.offset = i * vmPageSize := by
    intro i _ ph hph
    rw [hqslot] at hph
    split at hph
    · cases hph
    · exact h.offset i ph hph
  obtain ⟨q', hshift, hvaddr', hlength', hslot'⟩ := shiftOffsets_of_check hcheck (k * vmPageSize)
  have hslots' : q'.slots = r.slots - k := by
    rw [VirRegion.slots, hlength']
    exact hslots
  refine ⟨if q'.slots = 0 then q' else q'.moveSlots k, ?_, ?_, ?_, fun hlt j => ?_⟩
  · unfold VirRegion.shrinkStart
    dsimp only
    rw [← hq, hshift, Nat.mul_div_cancel k hpage]
    rfl
  · split <;> exact hvaddr'.trans hvaddr
  · split <;> exact hlength'.trans hlen
  rw [if_neg (by omega), slot_moveSlots, hslots']
  by_cases hj : j < r.slots - k
  · have hmoved : q.slot (k + j) = r.slot (k + j) := by
      rw [hqslot, if_neg (Nat.not_lt.mpr (Nat.le_add_right ..))]
    rw [if_pos hj, if_pos hj, hslot', hslots, hmoved]
    by_cases hfirst : k + j < r.slots - k
    · rw [if_pos hfirst, if_pos hfirst]
      cases hs : r.slot (k + j) with
      | none => rfl
      | some ph => simp only [Option.map_some, hoffset j ph hs]
    · rw [if_neg hfirst, if_neg hfirst]
  · rw [if_neg hj, if_neg hj]

theorem Ok.shrinkEnd {r₁ : VirRegion} (h : r.Ok) (harea : SameArea r r₁) {a k : Nat} (hk : a + k = r.slots)
    (hslot : ∀ j, r₁.slot j = if a ≤ j ∧ j < a + k then none else r.slot j) :
    (r₁.shrinkEnd (k * vmPageSize)).vaddr = r.vaddr ∧
      (r₁.shrinkEnd (k * vmPageSize)).length = a * vmPageSize ∧
      ∀ j, (r₁.shrinkEnd (k * vmPageSize)).slot j = if j < a then r.slot j else none := by
  have hpage : 0 < vmPageSize := by decide
  have hlength := h.length_eq
  have hlen : r₁.length - k * vmPageSize = a * vmPageSize := by
    rw [harea.length, hlength, ← hk, Nat.add_mul, Nat.add_sub_cancel]
  refine ⟨harea.vaddr, hlen, fun j => ?_⟩
  unfold VirRegion.shrinkEnd slot VirRegion.slots
  dsimp only
  rw [hlen, Nat.mul_div_cancel a hpage, List.getElem?_take]
  split
  · next hj =>
    have hrest := hslot j
    rwa [if_neg (by omega)] at hrest
  · rfl

end VirRegion

/-! ## Page table entries -/

namespace Process

variable {p p' : Process} {alloc : Nat → Bool}

/-- The page tables that these entries are for are there, or can be allocated. -/
def Tables (p : Process) (alloc : Nat → Bool) (ks : List Nat) : Prop :=
  ∀ k ∈ ks, p.pde k ≠ .bigpage ∧ (p.pde k = .absent → alloc k)

theorem ptallocs_of_tables (ks : List Nat) (h : p.Tables alloc ks) :
    ∃ p', p.ptallocs alloc ks = some (.ok, p') ∧ p'.regions = p.regions ∧ p'.pte = p.pte ∧
      (∀ k ∈ ks, p'.pde k = .table) ∧ ∀ k, p.pde k = .table → p'.pde k = .table := by
  induction ks generalizing p with
  | nil => exact ⟨p, rfl, rfl, rfl, fun k hk => absurd hk not_mem_nil, fun k hk => hk⟩
  | cons k ks ih =>
    obtain ⟨hbig, habsent⟩ := h k (.head _)
    cases hk : p.pde k with
    | bigpage => exact absurd hk hbig
    | table =>
      obtain ⟨p', hrun, hregions, hpte, hdone, hkeep⟩ := ih fun j hj => h j (.tail _ hj)
      refine ⟨p', by simpa [ptallocs, hk] using hrun, hregions, hpte, fun j hj => ?_, hkeep⟩
      obtain rfl | hj := mem_cons.mp hj
      · exact hkeep j hk
      · exact hdone j hj
    | absent =>
      set q : Process := { p with pde := update p.pde k .table } with hq
      have hqpde (j : Nat) : q.pde j = if j = k then .table else p.pde j := by
        rw [hq]
        exact update_apply ..
      have htables : q.Tables alloc ks := by
        intro j hj
        rw [hqpde]
        split
        · exact ⟨by simp, by simp⟩
        · exact h j (.tail _ hj)
      obtain ⟨p', hrun, hregions, hpte, hdone, hkeep⟩ := ih htables
      refine ⟨p', ?_, hregions, hpte, fun j hj => ?_, fun j hj => hkeep j ?_⟩
      · simp only [ptallocs, hk]
        rw [if_pos (habsent hk)]
        exact hrun
      · obtain rfl | hj := mem_cons.mp hj
        · exact hkeep j (by rw [hqpde, if_pos rfl])
        · exact hdone j hj
      · rw [hqpde, hj, ite_self]

theorem tables_of_ptallocs (ks : List Nat) (h : p.ptallocs alloc ks = some (.ok, p')) :
    p.Tables alloc ks := by
  induction ks generalizing p with
  | nil =>
    intro k hk
    cases hk
  | cons k ks ih =>
    simp only [ptallocs] at h
    cases hk : p.pde k with
    | bigpage => simp [hk] at h
    | table =>
      rw [hk] at h
      intro j hj
      obtain rfl | hj := mem_cons.mp hj
      · simp [hk]
      · exact ih h j hj
    | absent =>
      rw [hk] at h
      by_cases ha : alloc k
      · dsimp only at h
        rw [if_pos ha] at h
        intro j hj
        obtain rfl | hj := mem_cons.mp hj
        · simp [hk, ha]
        by_cases hjk : j = k
        · subst hjk
          simp [hk, ha]
        · have htail := ih h j hj
          simpa [update_of_ne hjk] using htail
      · simp [ha] at h

theorem clearPtes_of_tables {n v : Nat} (hv : v % vmPageSize = 0) (htop : v + n * vmPageSize < addrSize)
    (h : ∀ i < n, p.pde ((v + i * vmPageSize) / pdeSize) = .table) :
    ∃ p', p.clearPtes n v = some p' ∧ p'.regions = p.regions ∧
      ∀ k, p'.pte k = if v / vmPageSize ≤ k ∧ k < v / vmPageSize + n then none else p.pte k := by
  have hpage : 0 < vmPageSize := by decide
  induction n generalizing p v with
  | zero => exact ⟨p, rfl, rfl, fun k => by rw [if_neg]; omega⟩
  | succ n ih =>
    have hnext : v + vmPageSize + n * vmPageSize = v + (n + 1) * vmPageSize := by
      rw [Nat.succ_mul]
      omega
    have hadd : add v vmPageSize = v + vmPageSize := add_eq (by omega)
    set q : Process := { p with pte := update p.pte (v / vmPageSize) none } with hq
    have htables : ∀ i < n, q.pde ((v + vmPageSize + i * vmPageSize) / pdeSize) = .table := by
      intro i hi
      have heq : v + vmPageSize + i * vmPageSize = v + (i + 1) * vmPageSize := by
        rw [Nat.succ_mul]
        omega
      rw [heq]
      exact h (i + 1) (Nat.succ_lt_succ hi)
    obtain ⟨p', hrun, hregions, hpte⟩ := ih (p := q) (v := v + vmPageSize)
      (by rw [Nat.add_mod_right, hv]) (by rw [hnext]; exact htop) htables
    refine ⟨p', ?_, hregions, fun k => ?_⟩
    · have hfirst := h 0 (Nat.succ_pos n)
      rw [Nat.zero_mul, Nat.add_zero] at hfirst
      rw [clearPtes, if_neg (by simp [hv, hfirst]), hadd]
      exact hrun
    rw [hpte, hq, Nat.add_div_right _ hpage]
    dsimp only
    rw [update_apply]
    by_cases hk : k = v / vmPageSize
    · rw [if_neg (by omega), if_pos hk, if_pos (by omega)]
    · rw [if_neg hk]
      by_cases hin : v / vmPageSize ≤ k ∧ k < v / vmPageSize + (n + 1)
      · rw [if_pos hin, if_pos (by omega)]
      · rw [if_neg hin, if_neg (by omega)]

theorem mem_pdesOf {v n i : Nat} (hi : i < n) (htop : v + n * vmPageSize < addrSize) :
    (v + i * vmPageSize) / pdeSize ∈ pdesOf v (v + n * vmPageSize) := by
  have hpage : 0 < vmPageSize := by decide
  have hmul : (i + 1) * vmPageSize ≤ n * vmPageSize := Nat.mul_le_mul_right _ hi
  rw [Nat.succ_mul] at hmul
  have hsub : sub (v + n * vmPageSize) 1 = v + n * vmPageSize - 1 := sub_eq (by omega) htop
  unfold pdesOf
  rw [hsub, mem_range'_1]
  have hle : v / pdeSize ≤ (v + i * vmPageSize) / pdeSize := Nat.div_le_div_right (by omega)
  have hle' : (v + i * vmPageSize) / pdeSize ≤ (v + n * vmPageSize - 1) / pdeSize :=
    Nat.div_le_div_right (by omega)
  omega

theorem ptWritemap_of_tables {v n : Nat} (hv : v % vmPageSize = 0) (htop : v + n * vmPageSize < addrSize)
    (h : p.Tables alloc (pdesOf v (v + n * vmPageSize))) :
    ∃ p', p.ptWritemap alloc v (n * vmPageSize) = some (.ok, p') ∧ p'.regions = p.regions ∧
      ∀ k, p'.pte k = if v / vmPageSize ≤ k ∧ k < v / vmPageSize + n then none else p.pte k := by
  obtain ⟨q, halloc, hregions, hpte, hdone, -⟩ := ptallocs_of_tables _ h
  obtain ⟨p', hclear, hregions', hpte'⟩ := clearPtes_of_tables hv htop
    (fun i hi => hdone _ (mem_pdesOf hi htop))
  refine ⟨p', ?_, hregions'.trans hregions, fun k => ?_⟩
  · unfold ptWritemap
    rw [if_neg (by simp), add_eq htop, halloc]
    dsimp only
    rw [Nat.mul_div_cancel n (by decide), hclear]
    rfl
  · rw [hpte', hpte]

theorem tables_of_ptWritemap {v bytes : Nat} (h : p.ptWritemap alloc v bytes = some (.ok, p')) :
    p.Tables alloc (pdesOf v (add v bytes)) := by
  unfold ptWritemap at h
  split at h
  · cases h
  split at h
  · cases h
  · next q halloc => exact tables_of_ptallocs _ halloc
  · next e q hne halloc =>
    cases h
    exact (hne rfl).elim

theorem regions_of_ptallocs (ks : List Nat) {e : Status} (h : p.ptallocs alloc ks = some (e, p')) :
    p'.regions = p.regions := by
  induction ks generalizing p with
  | nil =>
    cases h
    rfl
  | cons k ks ih =>
    simp only [ptallocs] at h
    split at h
    · cases h
    · exact ih h
    split at h
    · have hrest := ih h
      exact hrest
    · cases h
      rfl

theorem regions_of_clearPtes {n v : Nat} (h : p.clearPtes n v = some p') : p'.regions = p.regions := by
  induction n generalizing p v with
  | zero =>
    cases h
    rfl
  | succ n ih =>
    rw [clearPtes] at h
    split at h
    · cases h
    · have hrest := ih h
      exact hrest

theorem regions_of_ptWritemap {v bytes : Nat} {e : Status} (h : p.ptWritemap alloc v bytes = some (e, p')) :
    p'.regions = p.regions := by
  unfold ptWritemap at h
  split at h
  · cases h
  split at h
  · cases h
  · next q halloc =>
    obtain ⟨q', hclear, hq'⟩ := Option.map_eq_some_iff.mp h
    cases hq'
    exact (regions_of_clearPtes hclear).trans (regions_of_ptallocs _ halloc)
  · next e q hne halloc =>
    cases h
    exact regions_of_ptallocs _ halloc

end Process

end HardenedMinix.RegionTree
