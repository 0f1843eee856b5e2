import Mathlib.Data.Finset.Card
import Mathlib.Data.Finset.Image
import Mathlib.Data.Finset.Range
import Mathlib.Logic.Relation

/-!
# Forests given by parent links

Nodes have ranks that go up by one from a parent to its child, so that the links have no cycle.
-/

namespace HardenedMinix.Lib

variable {parent : Nat → Option Nat} {rank : Nat → Nat} {n i p : Nat}

/-- The ranks go up along the links, which stay in the table; a parent without a parent is the root.
-/
structure Forest (n : Nat) (parent : Nat → Option Nat) (rank : Nat → Nat) : Prop where
  child_lt : ∀ {i p}, parent i = some p → i < n
  parent_lt : ∀ {i p}, parent i = some p → p < n
  rank_succ : ∀ {i p}, parent i = some p → rank i = rank p + 1
  root : ∀ {i p}, parent i = some p → parent p = none → p = 0
  rank_root : rank 0 = 0

namespace Forest

theorem ranks (h : Forest n parent rank) {r : Nat} (hi : parent i = some p) (hr : rank i = r) :
    ∀ k ≤ r, ∃ j < n, rank j = k := by
  induction r generalizing i p with
  | zero =>
    have hsucc := h.rank_succ hi
    omega
  | succ r ih =>
    intro k hk
    have hsucc := h.rank_succ hi
    obtain rfl | hlt := Nat.eq_or_lt_of_le hk
    · exact ⟨i, h.child_lt hi, hr⟩
    cases hp : parent p with
    | none =>
      have hzero := h.root hi hp
      subst hzero
      have hroot := h.rank_root
      exact ⟨0, h.parent_lt hi, by omega⟩
    | some q => exact ih hp (by omega) k (by omega)

theorem rank_lt (h : Forest n parent rank) (hi : parent i = some p) : rank i < n := by
  have hsub : Finset.range (rank i + 1) ⊆ (Finset.range n).image rank := by
    intro k hk
    obtain ⟨j, hj, hjk⟩ := h.ranks hi rfl k (Nat.lt_succ_iff.mp (Finset.mem_range.mp hk))
    exact Finset.mem_image.mpr ⟨j, Finset.mem_range.mpr hj, hjk⟩
  have hcard := (Finset.card_le_card hsub).trans Finset.card_image_le
  rw [Finset.card_range, Finset.card_range] at hcard
  omega

theorem reaches_root (h : Forest n parent rank) {r : Nat} (hi : parent i = some p) (hr : rank i = r) :
    Relation.ReflTransGen (fun a b => parent a = some b) i 0 := by
  induction r generalizing i p with
  | zero =>
    have hsucc := h.rank_succ hi
    omega
  | succ r ih =>
    have hsucc := h.rank_succ hi
    cases hp : parent p with
    | none =>
      have hzero := h.root hi hp
      subst hzero
      exact Relation.ReflTransGen.single hi
    | some q => exact Relation.ReflTransGen.head hi (ih hp (by omega))

end Forest

end HardenedMinix.Lib
