import HardenedMinix.Lib.Doubly

/-!
# The slab allocator

Objects of one size lie side by side in pages, with a bit for each place. Pages that have objects
and free places are on a doubly linked list; a full page is on none, and keeps its links. The
build is one without `SANITYCHECKS`; `none` is a failed assertion.
-/

open Function

namespace HardenedMinix.Slab

open Lib

/-! ## Sizes -/

def vmPageSize : Nat := 4096

/-- `sizeof(struct sdh)`. -/
def sizeofSdh : Nat := 88

def dataBytes : Nat := vmPageSize - sizeofSdh

def itemsPerPage (bytes : Nat) : Nat := dataBytes / bytes

def objalign : Nat := 8

def minsize : Nat := 8

def slabsizes : Nat := 60

/-- The number of bits of `elements_t`. -/
def useBits : Nat := (1 + vmPageSize / minsize / 8) * 8

/-- `roundup(bytes, OBJALIGN)` -/
def roundupAlign (bytes : Nat) : Nat := (bytes + (objalign - 1)) / objalign * objalign

/-- `GETSLAB`, as an index of `slabs`. -/
def getslab (bytes : Nat) : Option Nat :=
  if minsize ≤ bytes ∧ bytes - minsize < slabsizes then some (bytes - minsize) else none

/-! ## Pages and lists -/

/-- The header of a page: `struct sdh`. -/
structure Sdh where
  freeguess : Nat
  next : Option Nat
  prev : Option Nat
  usebits : Nat → Bool
  nused : Nat

def Sdh.setbit (f : Sdh) (i : Nat) : Option Sdh :=
  if f.usebits i then none
  else some { f with usebits := update f.usebits i true, nused := f.nused + 1 }

def Sdh.clearbit (f : Sdh) (i : Nat) : Option Sdh :=
  if f.usebits i then
    some { f with usebits := update f.usebits i false, nused := f.nused - 1, freeguess := i }
  else none

def Sdh.bits (f : Sdh) : Finset Nat := (Finset.range useBits).filter fun i => f.usebits i

/-- The search for a free place, with the places that are left to look at. -/
def Sdh.findFree (f : Sdh) (items : Nat) : Nat → Nat → Option Nat
  | 0, _ => none
  | count + 1, i => if f.usebits (i % items) then f.findFree items count (i % items + 1) else some (i % items)

/-- `slabs`, the headers of all pages, and which pages have come from `vm_allocpage` and not gone
back. -/
structure Slabs where
  listHead : Nat → Option Nat
  page : Nat → Sdh
  owned : Nat → Bool

namespace Slabs

def links (s : Slabs) : Links Nat := ⟨fun p => (s.page p).next, fun p => (s.page p).prev⟩

def setLinks (s : Slabs) (L : Links Nat) : Slabs :=
  { s with page := fun p => { s.page p with next := L.next p, prev := L.prev p } }

def setHead (s : Slabs) (sl : Nat) (head : Option Nat) : Slabs :=
  { s with listHead := update s.listHead sl head }

def setPage (s : Slabs) (p : Nat) (f : Sdh) : Slabs := { s with page := update s.page p f }

def setOwned (s : Slabs) (p : Nat) (b : Bool) : Slabs := { s with owned := update s.owned p b }

def addhead (s : Slabs) (nw sl : Nat) : Slabs :=
  (s.setLinks (s.links.addHead (s.listHead sl) nw)).setHead sl (some nw)

def unlinknode (s : Slabs) (node : Nat) : Slabs := s.setLinks (s.links.unlink node)

/-! ## The code -/

/-- `newslabdata`, with the page that `vm_allocpage` returns. -/
def newslabdata (s : Slabs) (p : Nat) : Slabs :=
  (s.setPage p { s.page p with usebits := fun _ => false, nused := 0, freeguess := 0 }).setOwned p true

/-- `slaballoc`, from the point where there is a page at the head of the list. -/
def take (s : Slabs) (p sl bytes : Nat) : Option (Slabs × Option Nat) :=
  let items := itemsPerPage bytes
  if items ≤ (s.page p).nused then none
  else
    match (s.page p).findFree items items (s.page p).freeguess with
    | none => none
    | some i =>
      match (s.page p).setbit i with
      | none => none
      | some f =>
        let s := s.setPage p f
        let s :=
          if (s.page p).nused = items then
            let s := s.unlinknode p
            s.setHead sl (s.page p).next
          else s
        let ret := p * vmPageSize + i * bytes
        let s := s.setPage p { s.page p with freeguess := i + 1 }
        if ret % objalign = 0 then some (s, some ret) else none

/-- `slaballoc`. `allocpage` is `vm_allocpage`, which may come back to `slabfree` when memory is
short. -/
def slaballoc (s : Slabs) (bytes : Nat) (allocpage : Slabs → Option (Slabs × Option Nat)) :
    Option (Slabs × Option Nat) :=
  let bytes := roundupAlign bytes
  match getslab bytes with
  | none => none
  | some sl =>
    match s.listHead sl with
    | some p => if 0 < (s.page p).nused then s.take p sl bytes else none
    | none =>
      match allocpage s with
      | none => none
      | some (s, none) => some (s, none)
      | some (s, some p) =>
        let s := (s.newslabdata p).addhead p sl
        if (s.page p).nused = 0 then s.take p sl bytes else none

/-- `slabfree`, with `objstats`. -/
def slabfree (s : Slabs) (mem bytes : Nat) : Option Slabs :=
  let bytes := roundupAlign bytes
  match if bytes % objalign = 0 then getslab bytes else none with
  | none => none
  | some sl =>
    let f := mem / vmPageSize
    let i := mem % vmPageSize / bytes
    match (s.page f).clearbit i with
    | none => none
    | some sdh =>
      let s := s.setPage f sdh
      if (s.page f).nused = 0 then
        let s := s.unlinknode f
        let s := if s.listHead sl = some f then s.setHead sl (s.page f).next else s
        some (s.setOwned f false)
      else if (s.page f).nused = itemsPerPage bytes - 1 then some (s.addhead f sl)
      else some s

end Slabs

/-! ## Runs -/

/-- The allocator, and the objects handed out and not freed, each with its rounded size. -/
structure Heap where
  slabs : Slabs
  live : Nat → Option Nat

inductive Event
  /-- If there is no page on the list, `meanwhile` is what `vm_allocpage` frees, and `page` the
  page that it finds. -/
  | alloc (bytes : Nat) (meanwhile : List (Nat × Nat)) (page : Option Nat)
  | free (mem bytes : Nat)

namespace Heap

def free (h : Heap) (mem bytes : Nat) : Option Heap :=
  (h.slabs.slabfree mem bytes).map fun s => ⟨s, update h.live mem none⟩

def frees (h : Heap) : List (Nat × Nat) → Option Heap
  | [] => some h
  | (mem, bytes) :: rest =>
    match h.free mem bytes with
    | none => none
    | some h => h.frees rest

/-- The heap when the page at the head of the list is taken, or a page has been found. -/
def waited (h : Heap) (bytes : Nat) (meanwhile : List (Nat × Nat)) : Option Heap :=
  match (getslab (roundupAlign bytes)).bind h.slabs.listHead with
  | some _ => some h
  | none => h.frees meanwhile

/-- The objects that `meanwhile` frees are gone, and the new one is there. -/
def alloc (h : Heap) (bytes : Nat) (meanwhile : List (Nat × Nat)) (page : Option Nat) : Option Heap :=
  let allocpage (s : Slabs) := (Heap.frees ⟨s, h.live⟩ meanwhile).map fun h => (h.slabs, page)
  match h.slabs.slaballoc bytes allocpage, h.waited bytes meanwhile with
  | some (s, ret), some w =>
    some ⟨s, match ret with
      | none => w.live
      | some mem => update w.live mem (some (roundupAlign bytes))⟩
  | _, _ => none

def step (h : Heap) : Event → Option Heap
  | .alloc bytes meanwhile page => h.alloc bytes meanwhile page
  | .free mem bytes => h.free mem bytes

/-- What is freed has been handed out, with that size. -/
def AllowsFrees (h : Heap) : List (Nat × Nat) → Prop
  | [] => True
  | (mem, bytes) :: rest =>
    h.live mem = some (roundupAlign bytes) ∧ ∀ h', h.free mem bytes = some h' → h'.AllowsFrees rest

/-- The sizes are admitted; what is freed has been handed out; and `vm_allocpage` returns a new
page. -/
def Allows (h : Heap) : Event → Prop
  | .alloc bytes meanwhile page =>
    0 < bytes ∧ roundupAlign bytes < minsize + slabsizes ∧
      ((getslab (roundupAlign bytes)).bind h.slabs.listHead = none →
        h.AllowsFrees meanwhile ∧
        ∀ h', h.frees meanwhile = some h' → ∀ p, page = some p → h'.slabs.owned p = false)
  | .free mem bytes => h.live mem = some (roundupAlign bytes)

inductive Reach (h₀ : Heap) : Heap → Prop
  | start : Reach h₀ h₀
  | step {h h' : Heap} {e : Event} (hreach : Reach h₀ h) (hallowed : h.Allows e) (hstep : h.step e = some h') :
      Reach h₀ h'

/-- At first there is nothing; in the headers there may be anything. -/
structure Start (h : Heap) : Prop where
  listHead : ∀ sl, h.slabs.listHead sl = none
  owned : ∀ p, h.slabs.owned p = false
  live : ∀ mem, h.live mem = none

/-- The pages with objects of a size. -/
def Holds (h : Heap) (p bytes : Nat) : Prop := ∃ mem, h.live mem = some bytes ∧ mem / vmPageSize = p

end Heap

end HardenedMinix.Slab
