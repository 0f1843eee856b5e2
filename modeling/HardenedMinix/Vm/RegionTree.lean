import Mathlib

/-!
# The regions of a process

The AVL tree of the regions is the list of its nodes in the order of their keys; the search and
the iterators of `cavl_impl.h` are parts of it. Addresses are taken modulo `2 ^ 32` where they can
wrap.
-/

open List

namespace HardenedMinix.RegionTree

def vmPageSize : Nat := 0x1000

/-- `VM_DATATOP`, which is `user_end` of the boot information. -/
def vmDatatop : Nat := 0xF0000000

def addrSize : Nat := 0x100000000

/-- `a + b` on `vir_bytes`. -/
def add (a b : Nat) : Nat := (a + b) % addrSize

/-- `a - b` on `vir_bytes`. -/
def sub (a b : Nat) : Nat := (a + (addrSize - b)) % addrSize

theorem add_eq {a b : Nat} (h : a + b < addrSize) : add a b = a + b := Nat.mod_eq_of_lt h

theorem sub_eq {a b : Nat} (hab : b ≤ a) (ha : a < addrSize) : sub a b = a - b := by
  unfold sub
  have heq : a + (addrSize - b) = a - b + addrSize := by omega
  rw [heq, Nat.add_mod_right, Nat.mod_eq_of_lt (by omega)]

/-! ## Regions -/

/-- `struct phys_region`, with the frame of its block. -/
structure PhysRegion where
  offset : Nat
  phys : Nat
  deriving DecidableEq, Repr

/-- `struct vir_region`, as far as its place, its pages and its protection go. -/
structure VirRegion where
  vaddr : Nat
  length : Nat
  physblocks : List (Option PhysRegion)
  /-- `VR_WRITABLE` -/
  writable : Bool
  deriving DecidableEq, Repr

namespace VirRegion

def stop (r : VirRegion) : Nat := r.vaddr + r.length

/-- `phys_slot(length)`. -/
def slots (r : VirRegion) : Nat := r.length / vmPageSize

/-- The slot `i` of `physblocks`. -/
def slot (r : VirRegion) (i : Nat) : Option PhysRegion := r.physblocks[i]?.join

/-- `physblock_get`. `none` is a failed assertion. -/
def physblockGet (r : VirRegion) (offset : Nat) : Option (Option PhysRegion) :=
  if offset % vmPageSize ≠ 0 ∨ r.length ≤ offset then none
  else
    match r.slot (offset / vmPageSize) with
    | none => some none
    | some ph => if ph.offset = offset then some (some ph) else none

/-- Whole pages, one slot for each, each `phys_region` in the slot of its offset; and the region
lies in the memory of the process. -/
structure Ok (r : VirRegion) : Prop where
  pos : 0 < r.length
  pages : r.length % vmPageSize = 0
  slots : r.physblocks.length = r.slots
  offset : ∀ i ph, r.slot i = some ph → ph.offset = i * vmPageSize
  top : r.stop ≤ vmDatatop

variable {r : VirRegion} {i : Nat}

theorem ok_iff : r.Ok ↔ 0 < r.length ∧ r.length % vmPageSize = 0 ∧ r.physblocks.length = r.slots ∧
    (∀ i < r.physblocks.length, ∀ ph ∈ r.slot i, ph.offset = i * vmPageSize) ∧
    r.stop ≤ vmDatatop := by
  refine ⟨fun h => ⟨h.pos, h.pages, h.slots, fun i _ ph hph => h.offset i ph hph, h.top⟩,
    fun h => ⟨h.1, h.2.1, h.2.2.1, fun i ph hph => h.2.2.2.1 i ?_ ph hph, h.2.2.2.2⟩⟩
  by_contra hlen
  simp [slot, List.getElem?_eq_none (not_lt.mp hlen)] at hph

instance (r : VirRegion) : Decidable r.Ok := decidable_of_iff _ ok_iff.symm

theorem Ok.length_eq (h : r.Ok) : r.length = r.slots * vmPageSize :=
  (Nat.div_mul_cancel (Nat.dvd_of_mod_eq_zero h.pages)).symm

theorem Ok.physblockGet (h : r.Ok) (hi : i < r.slots) :
    r.physblockGet (i * vmPageSize) = some (r.slot i) := by
  have hpage : 0 < vmPageSize := by decide
  have hlt : i * vmPageSize < r.length := by
    rw [h.length_eq]
    exact Nat.mul_lt_mul_of_pos_right hi hpage
  unfold VirRegion.physblockGet
  rw [if_neg (by simp [hlt]), Nat.mul_div_cancel i hpage]
  cases hs : r.slot i with
  | none => rfl
  | some ph => exact if_pos (h.offset i ph hs)

end VirRegion

/-! ## The tree -/

/-- The nodes of `vm_regions_avl`, in the order of their keys. -/
abbrev Tree := List VirRegion

namespace Tree

def Disjoint (t : Tree) : Prop := t.Pairwise fun r r' => r.stop ≤ r'.vaddr

/-- The regions are in order, and what the assertions rely on holds of each of them. -/
structure Ok (t : Tree) : Prop where
  disjoint : t.Disjoint
  region : ∀ r ∈ t, r.Ok

instance (t : Tree) : Decidable t.Disjoint :=
  inferInstanceAs (Decidable (t.Pairwise fun r r' => r.stop ≤ r'.vaddr))

instance (t : Tree) : Decidable t.Ok :=
  decidable_of_iff (t.Disjoint ∧ ∀ r ∈ t, r.Ok) ⟨fun h => ⟨h.1, h.2⟩, fun h => ⟨h.disjoint, h.region⟩⟩

/-- `region_insert`: a node whose key is in the tree is not linked. -/
def insert (t : Tree) (r : VirRegion) : Tree :=
  if t.any fun r' => r'.vaddr = r.vaddr then t
  else (t.takeWhile fun r' => r'.vaddr < r.vaddr) ++ r :: t.dropWhile fun r' => r'.vaddr < r.vaddr

/-- `region_remove`. -/
def remove (t : Tree) (key : Nat) : Tree := t.filter fun r => r.vaddr ≠ key

/-- `AVL_GREATER_EQUAL`, and what `region_incr_iter` gives from there. -/
def onFrom (t : Tree) (key : Nat) : List VirRegion := t.dropWhile fun r => r.vaddr < key

/-- `AVL_LESS`, and what `region_decr_iter` gives from there. -/
def downFrom (t : Tree) (key : Nat) : List VirRegion := (t.takeWhile fun r => r.vaddr < key).reverse

variable {t : Tree} {key : Nat} {r : VirRegion}

theorem takeWhile_append_onFrom (t : Tree) (key : Nat) :
    (t.takeWhile fun r => r.vaddr < key) ++ t.onFrom key = t := takeWhile_append_dropWhile

theorem onFrom_sublist (t : Tree) (key : Nat) : (t.onFrom key).Sublist t := dropWhile_sublist _

theorem mem_onFrom_iff (hpos : ∀ r ∈ t, 0 < r.length) (hd : t.Disjoint) :
    r ∈ t.onFrom key ↔ r ∈ t ∧ key ≤ r.vaddr := by
  induction t with
  | nil => simp [onFrom]
  | cons x t ih =>
    obtain ⟨hx, hrest⟩ := pairwise_cons.mp hd
    have ih' := ih (fun r hr => hpos r (.tail _ hr)) hrest
    unfold onFrom at ih' ⊢
    by_cases hkey : x.vaddr < key
    · rw [dropWhile_cons_of_pos (by simpa using hkey), ih', mem_cons]
      refine ⟨fun h => ⟨.inr h.1, h.2⟩, fun h => ⟨h.1.resolve_left ?_, h.2⟩⟩
      rintro rfl
      omega
    rw [dropWhile_cons_of_neg (by simpa using hkey)]
    refine ⟨fun h => ⟨h, ?_⟩, fun h => h.1⟩
    obtain rfl | h := mem_cons.mp h
    · omega
    · have hlt := hx r h
      have hstop : x.vaddr ≤ x.stop := Nat.le_add_right ..
      omega

theorem onFrom_stop {before after : Tree} (hpos : ∀ x ∈ before ++ r :: after, 0 < x.length)
    (hd : Tree.Disjoint (before ++ r :: after)) : Tree.onFrom (before ++ r :: after) r.stop = after := by
  have hpair := pairwise_append.mp hd
  have hr : ∀ x ∈ before ++ [r], x.vaddr < r.stop := by
    intro x hx
    obtain hx | hx := mem_append.mp hx
    · have hle := hpair.2.2 x hx r (.head _)
      have hxpos := hpos x (mem_append_left _ hx)
      unfold VirRegion.stop at *
      omega
    · obtain rfl := mem_singleton.mp hx
      have hxpos := hpos x (mem_append_right _ (.head _))
      unfold VirRegion.stop
      omega
  have hsplit : before ++ r :: after = (before ++ [r]) ++ after := by simp
  unfold onFrom
  rw [hsplit, dropWhile_append_of_pos (by simpa using hr)]
  cases after with
  | nil => rfl
  | cons y after =>
    refine dropWhile_cons_of_neg ?_
    have hle := (pairwise_cons.mp hpair.2.1).1 y (.head _)
    simpa using hle

end Tree

end HardenedMinix.RegionTree
