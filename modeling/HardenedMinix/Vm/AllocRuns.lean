import HardenedMinix.Vm.Alloc

/-!
# Runs of the allocator

Sequences of `alloc_mem` and `free_mem`, with the blocks that are out kept beside the state.
-/

open List

namespace HardenedMinix.PhysAlloc

/-- The allocator, and the blocks that are allocated. -/
structure System where
  mem : State
  held : List Block

/-- A call. `yielded` are the allocated blocks that `free_yielded` frees, if it is called. -/
inductive Event
  | alloc (clicks : Nat) (flags : Flags) (yielded : List Block)
  | free (b : Block)

namespace System

/-- The blocks that are still allocated when `alloc_mem` has called `free_yielded`, or not. -/
def heldFor (s : System) (clicks : Nat) (flags : Flags) (yielded : List Block) : List Block :=
  if s.mem.yields clicks flags then s.held.diff yielded else s.held

def step (s : System) : Event → Option System
  | .alloc clicks flags yielded =>
    match s.mem.allocMem clicks flags yielded with
    | none => none
    | some (none, mem) => some ⟨mem, s.heldFor clicks flags yielded⟩
    | some (some base, mem) => some ⟨mem, ⟨base, clicks⟩ :: s.heldFor clicks flags yielded⟩
  | .free b => some ⟨s.mem.freeMem b.base b.clicks, s.held.erase b⟩

def Allowed (s : System) : Event → Prop
  | .alloc _ _ yielded => yielded.Subperm s.held
  | .free b => b ∈ s.held

def Careful (s : System) : Event → Prop
  | .alloc clicks flags yielded => Clean s.mem clicks flags yielded
  | .free _ => True

def Does (s : System) : Event → Prop
  | .alloc clicks flags yielded => ∃ res mem, s.mem.allocMem clicks flags yielded = some (res, mem) ∧
      Served (s.mem.freeFor clicks flags yielded) mem.free clicks flags res
  | .free b => ∀ i, (s.mem.freeMem b.base b.clicks).free i = (s.mem.free i || b.has i)

/-- What can be reached from a state of the allocator by calls that are allowed and careful. -/
inductive Reach (s₀ : State) : System → Prop
  | start : Reach s₀ ⟨s₀, []⟩
  | step {s s' : System} {e : Event} (h : Reach s₀ s) (hallowed : s.Allowed e) (hcareful : s.Careful e)
      (hstep : s.step e = some s') : Reach s₀ s'

/-! ## The books -/

/-- How often a page is free or in an allocated block. -/
def owners (free : Nat → Bool) (held : List Block) (i : Nat) : Nat :=
  (free i).toNat + held.countP fun b => b.has i

/-- Each page that was free at first is free or in one allocated block, and the others are not. -/
structure Books (s₀ : State) (s : System) : Prop where
  bounded : s.mem.Bounded
  owned : ∀ i, owners s.mem.free s.held i = (s₀.free i).toNat

variable {s₀ : State} {s s' : System} {bs : List Block}

theorem owners_freeBlocks (h : ∀ i, owners s.mem.free s.held i ≤ 1) (hsub : bs.Subperm s.held) (i : Nat) :
    owners (s.mem.freeBlocks bs).free (s.held.diff bs) i = owners s.mem.free s.held i := by
  have hperm : s.held.Perm (bs ++ s.held.diff bs) :=
    (subperm_append_diff_self_of_count_le (subperm_ext_iff.mp hsub)).symm
  have hcount := hperm.countP_eq fun b => b.has i
  rw [countP_append] at hcount
  have hi := h i
  unfold owners at *
  rw [free_freeBlocks, hcount]
  by_cases hany : bs.any fun b => b.has i
  · have hpos : 0 < bs.countP fun b => b.has i := by
      rw [countP_pos_iff]
      simpa using hany
    have hbusy : s.mem.free i = false := by
      by_contra hfree
      rw [Bool.not_eq_false] at hfree
      rw [hfree, Bool.toNat_true] at hi
      omega
    rw [hany, hbusy, Bool.or_true, Bool.toNat_true, Bool.toNat_false] at *
    omega
  have hzero : (bs.countP fun b => b.has i) = 0 := by
    rw [countP_eq_zero]
    simpa using hany
  rw [Bool.not_eq_true] at hany
  rw [hany, Bool.or_false, hzero, Nat.zero_add]

theorem Books.le_one (h : Books s₀ s) (i : Nat) : owners s.mem.free s.held i ≤ 1 := by
  rw [h.owned]
  exact Bool.toNat_le _

theorem bounded_of_owners (h₀ : s₀.Bounded) {mem : State} {held : List Block}
    (h : ∀ i, owners mem.free held i = (s₀.free i).toNat) : mem.Bounded := by
  intro i hi
  refine h₀ i ?_
  have hcount := h i
  unfold owners at hcount
  rw [hi, Bool.toNat_true] at hcount
  cases hfree : s₀.free i with
  | true => rfl
  | false =>
    rw [hfree, Bool.toNat_false] at hcount
    omega

theorem owners_for (h : Books s₀ s) (clicks : Nat) (flags : Flags) {yielded : List Block} (hsub : yielded.Subperm s.held) (i : Nat) :
    owners (s.mem.freeFor clicks flags yielded) (s.heldFor clicks flags yielded) i = (s₀.free i).toNat := by
  rw [← h.owned i]
  unfold State.freeFor heldFor
  split
  · exact owners_freeBlocks h.le_one hsub i
  · rfl

theorem bounded_freeBlocks (h₀ : s₀.Bounded) (h : Books s₀ s) (hsub : bs.Subperm s.held) :
    (s.mem.freeBlocks bs).Bounded :=
  bounded_of_owners h₀ fun i => (owners_freeBlocks h.le_one hsub i).trans (h.owned i)

theorem Books.does (h₀ : s₀.Bounded) (h : Books s₀ s) {e : Event} (hallowed : s.Allowed e)
    (hcareful : s.Careful e) : s.Does e := by
  cases e with
  | alloc clicks flags yielded => exact allocMem_spec h.bounded (bounded_freeBlocks h₀ h hallowed) hcareful
  | free b => exact free_freeMem s.mem b

theorem Books.step (h₀ : s₀.Bounded) (h : Books s₀ s) {e : Event} (hallowed : s.Allowed e)
    (hcareful : s.Careful e) (hstep : s.step e = some s') : Books s₀ s' := by
  suffices howned : ∀ i, owners s'.mem.free s'.held i = (s₀.free i).toNat from
    ⟨bounded_of_owners h₀ howned, howned⟩
  intro i
  cases e with
  | free b =>
    cases hstep
    have hone := owners_freeBlocks h.le_one (singleton_subperm_iff.mpr hallowed) i
    rw [diff_cons, diff_nil] at hone
    rw [← h.owned i, ← hone]
    rfl
  | alloc clicks flags yielded =>
    obtain ⟨res, mem, hrun, hserved⟩ := h.does h₀ hallowed hcareful
    have howners := owners_for h clicks flags hallowed i
    simp only [System.step, hrun] at hstep
    cases res with
    | none =>
      cases hstep
      rw [← howners]
      unfold owners
      dsimp only
      rw [hserved.1 i]
    | some base =>
      cases hstep
      obtain ⟨hsuitable, hfree⟩ := hserved
      rw [← howners]
      unfold owners
      dsimp only
      rw [countP_cons, hfree i]
      by_cases hin : base ≤ i ∧ i < base + clicks
      · have hwas := hsuitable.run i hin.1 hin.2
        have hhas : Block.has ⟨base, clicks⟩ i := by
          unfold Block.has
          exact decide_eq_true hin
        rw [if_pos hin, hwas, if_pos hhas, Bool.toNat_true, Bool.toNat_false]
        omega
      have hhas : ¬ Block.has ⟨base, clicks⟩ i := by
        unfold Block.has
        simpa using hin
      rw [if_neg hin, if_neg hhas]
      rfl

theorem Reach.books (h₀ : s₀.Bounded) (h : Reach s₀ s) : Books s₀ s := by
  induction h with
  | start => exact ⟨h₀, fun i => rfl⟩
  | step _ hallowed hcareful hstep ih => exact ih.step h₀ hallowed hcareful hstep

/-- Each call does what is asked of it, and once every block is freed the pages free at first are
free again. -/
theorem allocator_restores (h₀ : s₀.Bounded) (h : Reach s₀ s) :
    (∀ e, s.Allowed e → s.Careful e → s.Does e) ∧ ∀ i, (s.mem.freeBlocks s.held).free i = s₀.free i := by
  have hbooks := h.books h₀
  refine ⟨fun e hallowed hcareful => hbooks.does h₀ hallowed hcareful, fun i => ?_⟩
  have hall := owners_freeBlocks hbooks.le_one (List.Subperm.refl s.held) i
  have hnil : s.held.diff s.held = [] := by
    have hlen := (subperm_append_diff_self_of_count_le fun x (_ : x ∈ s.held) => le_rfl).length_eq
    rw [length_append] at hlen
    exact length_eq_zero_iff.mp (by omega)
  rw [hbooks.owned i, hnil] at hall
  unfold owners at hall
  rw [countP_nil, Nat.add_zero] at hall
  have hinj : ∀ a b : Bool, a.toNat = b.toNat → a = b := by decide
  exact hinj _ _ hall

end System

def smallMemory : State where
  free := fun i => i < 32
  cache := [3, 3]
  lastscan := 31

theorem smallMemory_bounded : smallMemory.Bounded := by
  intro i hi
  have hlt : i < 32 := by simpa [smallMemory] using hi
  exact hlt.trans (by decide)

def anywhere : Flags := ⟨false, false, false, false⟩

/-- Three pages are taken, and come back. -/
theorem smallMemory_restored : ∃ s : System, System.Reach smallMemory s ∧ s.held = [⟨29, 3⟩] ∧
    ∀ i, (s.mem.freeBlocks s.held).free i = smallMemory.free i := by
  obtain ⟨s, hstep, hheld⟩ : ∃ s, (⟨smallMemory, []⟩ : System).step (.alloc 3 anywhere []) = some s ∧
      s.held = [⟨29, 3⟩] := ⟨_, rfl, rfl⟩
  have hreach : System.Reach smallMemory s := .step (e := .alloc 3 anywhere []) .start nil_subperm
      ⟨by decide, by decide, by decide, fun h => absurd rfl h⟩ hstep
  exact ⟨s, hreach, hheld, (System.allocator_restores smallMemory_bounded hreach).2⟩

/-- A page aligned at 16 KB: the four pages behind the block are lost. -/
theorem aligned_pages_lost : ∃ s, (⟨smallMemory, []⟩ : System).step
      (.alloc 1 { anywhere with align16k := true } []) = some s ∧ s.held = [⟨28, 1⟩] ∧
    (s.mem.freeBlocks s.held).free 31 = false ∧ smallMemory.free 31 = true :=
  ⟨_, rfl, by decide +kernel, by decide +kernel, by decide +kernel⟩

end HardenedMinix.PhysAlloc
