import Mathlib.Logic.Relation
import Mathlib.Data.Fintype.Card

/-!
# Graphs with at most one edge out of each node

`succ a = some b` is the edge from `a` to `b`. A cycle is closed by an added edge exactly if
its end leads back to its start; in a finite graph without cycles every walk ends.
-/

namespace HardenedMinix.Lib

open Relation

variable {α : Type} {succ succ' : α → Option α} {a b x y : α}

def Leads (succ : α → Option α) (a b : α) : Prop := succ a = some b

def Acyclic (succ : α → Option α) : Prop := ∀ a, ¬ TransGen (Leads succ) a a

theorem Acyclic.mono (h : Acyclic succ) (hsub : ∀ a b, succ' a = some b → succ a = some b) :
    Acyclic succ' := fun a hcycle =>
  h a (TransGen.mono hsub _ _ hcycle)

theorem reach_of_added (hback : ¬ ReflTransGen (Leads succ) b a)
    (hself : ∀ y, succ' a = some y → y = b)
    (hother : ∀ z y, z ≠ a → succ' z = some y → succ z = some y)
    (h : ReflTransGen (Leads succ') x y) :
    ReflTransGen (Leads succ) x y ∨
      (ReflTransGen (Leads succ) x a ∧ ReflTransGen (Leads succ) b y) := by
  induction h with
  | refl => exact .inl .refl
  | @tail v w _ hvw ih =>
    by_cases hv : v = a
    · subst hv
      obtain rfl := hself w hvw
      rcases ih with hx | ⟨_, hb⟩
      · exact .inr ⟨hx, .refl⟩
      · exact absurd hb hback
    · have hold : Leads succ v w := hother v w hv hvw
      rcases ih with hx | ⟨hx, hb⟩
      · exact .inl (hx.tail hold)
      · exact .inr ⟨hx, hb.tail hold⟩

theorem Acyclic.add (h : Acyclic succ) (hback : ¬ ReflTransGen (Leads succ) b a)
    (hself : ∀ y, succ' a = some y → y = b)
    (hother : ∀ z y, z ≠ a → succ' z = some y → succ z = some y) : Acyclic succ' := by
  intro x hcycle
  obtain ⟨y, hxy, hyx⟩ := TransGen.head'_iff.mp hcycle
  have hreach := reach_of_added hback hself hother hyx
  by_cases hx : x = a
  · subst hx
    obtain rfl := hself y hxy
    rcases hreach with hb | ⟨_, hb⟩
    · exact hback hb
    · exact hback hb
  · have hold : Leads succ x y := hother x y hx hxy
    rcases hreach with hyx' | ⟨hya, hbx⟩
    · exact h x (TransGen.head' hold hyx')
    · exact hback (hbx.trans (ReflTransGen.head hold hya))

/-- The number of nodes a node leads to, itself not counted. -/
noncomputable def rank [Fintype α] (succ : α → Option α) (a : α) : Nat := by
  classical
  exact (Finset.univ.filter (fun b => TransGen (Leads succ) a b)).card

theorem Acyclic.rank_lt [Fintype α] (h : Acyclic succ) (hab : succ a = some b) :
    rank succ b < rank succ a := by
  classical
  unfold rank
  apply Finset.card_lt_card
  rw [Finset.ssubset_iff_of_subset]
  · refine ⟨b, ?_, ?_⟩
    · simp only [Finset.mem_filter, Finset.mem_univ, true_and]
      exact .single hab
    · simp only [Finset.mem_filter, Finset.mem_univ, true_and]
      exact h b
  · intro x hx
    simp only [Finset.mem_filter, Finset.mem_univ, true_and] at hx ⊢
    exact TransGen.head hab hx

theorem rank_le [Fintype α] (succ : α → Option α) (a : α) : rank succ a ≤ Fintype.card α := by
  classical
  unfold rank
  exact Finset.card_le_univ _

end HardenedMinix.Lib
