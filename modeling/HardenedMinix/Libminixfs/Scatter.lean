import Mathlib

/-!
# Scattered I/O

`lmfs_rw_scattered`: the queue of buffers is sorted by block, and the driver is called for one run
of consecutive blocks after the other. The results of the driver are arbitrary.
-/

open Function List

namespace HardenedMinix.Scatter

/-! ## The sort -/

section Order

variable {ι : Type*} (blk : ι → Nat)

def swap (q : Nat → ι) (i k : Nat) : Nat → ι := q ∘ Equiv.swap i k

def sift (gap : Nat) (q : Nat → ι) (i : Nat) : Nat → ι :=
  if blk (q (i + gap)) < blk (q i) then
    if gap = 0 ∨ i < gap then swap q i (i + gap)
    else sift gap (swap q i (i + gap)) (i - gap)
  else q
termination_by i

def pass (gap n : Nat) (q : Nat → ι) : Nat → ι :=
  (range' gap (n - gap)).foldl (fun q j => sift blk gap q (j - gap)) q

def growGap (n gap : Nat) : Nat := if 3 * gap + 1 ≤ n then growGap n (3 * gap + 1) else 3 * gap + 1
termination_by n - gap

def shrinkGap (n gap : Nat) (q : Nat → ι) : Nat → ι :=
  if gap ≤ 1 then q else shrinkGap n (gap / 3) (pass blk (gap / 3) n q)
termination_by gap

variable {blk} {gap n i j k : Nat} {q : Nat → ι}

def SortedTo (blk : ι → Nat) (q : Nat → ι) (m : Nat) : Prop :=
  ∀ a b, a < b → b < m → blk (q a) ≤ blk (q b)

theorem swap_apply (a : Nat) :
    swap q i k a = if a = i then q k else if a = k then q i else q a := by
  simp only [swap, comp_apply, Equiv.swap_apply_def]
  split_ifs <;> rfl

theorem sift_sorted {m : Nat} (hi : i + 1 < m)
    (hrest : ∀ a b, a < b → b < m → b ≠ i + 1 → blk (q a) ≤ blk (q b)) :
    SortedTo blk (sift blk 1 q i) m := by
  induction i generalizing q with
  | zero =>
    unfold sift
    split_ifs with hlt hend
    · intro a b hab hb
      have hfirst := hrest 0 b
      have hsecond := hrest 1 b
      have hboth := hrest a b hab hb
      simp only [swap_apply]
      split_ifs <;> grind
    · exact absurd (.inr Nat.one_pos) hend
    · intro a b hab hb
      by_cases hone : b = 1
      · grind
      · exact hrest a b hab hb hone
  | succ i ih =>
    unfold sift
    split_ifs with hlt hend
    · simp at hend
    · refine ih (by omega) fun a b hab hb hne => ?_
      have hboth := hrest a b hab hb
      have hfirst := hrest (i + 1) b
      have hsecond := hrest (i + 2) b
      have hthird := hrest a (i + 1)
      simp only [swap_apply]
      split_ifs <;> grind
    · intro a b hab hb
      by_cases hlast : b = i + 1 + 1
      · have := hrest a (i + 1)
        grind
      · exact hrest a b hab hb hlast

theorem pass_sorted : SortedTo blk (pass blk 1 n q) n := by
  have hfold : ∀ (c m : Nat) (q : Nat → ι), 1 ≤ m → SortedTo blk q m →
      SortedTo blk ((range' m c).foldl (fun q j => sift blk 1 q (j - 1)) q) (m + c) := by
    intro c
    induction c with
    | zero => exact fun m q _ h => h
    | succ c ih =>
      intro m q hm h
      rw [range'_succ, foldl_cons, show m + (c + 1) = m + 1 + c by omega]
      refine ih (m + 1) _ (by omega) (sift_sorted (by omega) fun a b hab hb hne => ?_)
      exact h a b hab (by omega)
  intro a b hab hb
  exact hfold (n - 1) 1 q le_rfl (fun a b _ _ => by omega) a b hab (by omega)

/-- The gaps are 1, 4, 13 and so on. -/
inductive Gap : Nat → Prop where
  | one : Gap 1
  | next {g : Nat} (h : Gap g) : Gap (3 * g + 1)

theorem Gap.grow (h : Gap gap) : ∃ g, Gap g ∧ growGap n gap = 3 * g + 1 := by
  induction hd : n - gap using Nat.strong_induction_on generalizing gap with
  | _ d ih =>
    unfold growGap
    split_ifs with hle
    · exact ih (n - (3 * gap + 1)) (by omega) h.next rfl
    · exact ⟨gap, h, rfl⟩

theorem Gap.pos (h : Gap gap) : 0 < gap := by cases h <;> omega

theorem Gap.sorted (h : Gap gap) : SortedTo blk (shrinkGap blk n (3 * gap + 1) q) n := by
  have hdiv : (3 * gap + 1) / 3 = gap := by omega
  have hpos := h.pos
  induction h generalizing q with
  | one =>
    unfold shrinkGap
    rw [if_neg (by decide)]
    unfold shrinkGap
    rw [if_pos (by decide)]
    exact pass_sorted
  | next h ih =>
    unfold shrinkGap
    rw [if_neg (by omega), hdiv]
    exact ih (by omega) h.pos

end Order

/-! ## The buffers and the driver -/

abbrev noDev : Nat := 0

structure Buf where
  blocknr : BitVec 32
  dev : Nat
  dirt : Bool
  deriving DecidableEq

inductive RwFlag where
  | reading
  | writing
  deriving DecidableEq

/-- A call of `bdev_gather` or `bdev_scatter`. -/
structure Transfer (ι : Type*) where
  pos : Nat
  vec : List ι
  result : Int

variable {ι : Type*} {bufs : ι → Buf} {first : BitVec 32} {left j n : Nat} {r : Int} {q vec : List ι}
  {bp : ι}

/-- The buffers at the head of the queue that go to consecutive blocks. -/
def run (bufs : ι → Buf) (first : BitVec 32) : Nat → Nat → List ι → List ι
  | 0, _, _ => []
  | _, _, [] => []
  | left + 1, j, bp :: q =>
    if (bufs bp).blocknr = first + BitVec.ofNat 32 j then bp :: run bufs first left (j + 1) q else []

variable [DecidableEq ι] (blockSize dev : Nat) (rwFlag : RwFlag)

/-- The block is validated or marked clean. -/
def Buf.finish (b : Buf) : Buf :=
  match rwFlag with
  | .reading => { b with dev := dev }
  | .writing => { b with dirt := false }

/-- The block of the buffer has been transferred completely. -/
def Transfer.Done (x : Transfer ι) (bp : ι) : Prop :=
  ∃ k, x.vec[k]? = some bp ∧ ((k + 1) * blockSize : Nat) ≤ x.result

/-- Not even the block of the buffer, which is the first one, has been. -/
def Transfer.Fails (x : Transfer ι) (bp : ι) : Prop :=
  x.vec[0]? = some bp ∧ x.result < blockSize

variable {blockSize dev rwFlag} {driver : Nat → Int}

end HardenedMinix.Scatter
