import Mathlib.Data.Set.Card
import Mathlib.Logic.Function.Basic

/-!
# Counted references

`Counted`: the counter of an object is the number of places that hold it.
-/

open Function

namespace HardenedMinix.Lib

variable {X B : Type*}

/-- The counter of each object is the number of places that hold it. -/
structure Counted (held : X → Option B) (count : B → Int) : Prop where
  finite : ∀ b, {x | held x = some b}.Finite
  count_eq : ∀ b, count b = {x | held x = some b}.ncard

namespace Counted

variable {held held' : X → Option B} {count count' : B → Int} {x : X} {b : B}

theorem pos (h : Counted held count) (hx : held x = some b) : 0 < count b := by
  rw [h.count_eq b]
  have hmem : x ∈ {y | held y = some b} := hx
  exact_mod_cast (Set.ncard_pos (h.finite b)).mpr ⟨x, hmem⟩

variable [DecidableEq X] [DecidableEq B]

theorem fill (h : Counted held count) (hx : held x = none) :
    Counted (update held x (some b)) (update count b (count b + 1)) := by
  have hset : {y | update held x (some b) y = some b} = insert x {y | held y = some b} := by
    ext y
    by_cases hy : y = x
    · subst hy
      simp
    · simp [hy]
  have hother : ∀ c, c ≠ b → {y | update held x (some b) y = some c} = {y | held y = some c} := by
    intro c hc
    ext y
    by_cases hy : y = x
    · subst hy
      simp [hx, Ne.symm hc]
    · simp [update_of_ne hy]
  have hnot : x ∉ {y | held y = some b} := by simp [hx]
  constructor
  · intro c
    by_cases hc : c = b
    · subst hc
      rw [hset]
      exact (h.finite c).insert x
    · rw [hother c hc]
      exact h.finite c
  intro c
  by_cases hc : c = b
  · subst hc
    rw [hset, update_self, Set.ncard_insert_of_notMem hnot (h.finite c), h.count_eq c]
    push_cast
    rfl
  · rw [hother c hc, update_of_ne hc]
    exact h.count_eq c

theorem empty (h : Counted held count) (hx : held x = some b) :
    Counted (update held x none) (update count b (count b - 1)) := by
  have hset : {y | update held x none y = some b} = {y | held y = some b} \ {x} := by
    ext y
    by_cases hy : y = x
    · subst hy
      simp
    · simp [hy]
  have hother : ∀ c, c ≠ b → {y | update held x none y = some c} = {y | held y = some c} := by
    intro c hc
    ext y
    by_cases hy : y = x
    · subst hy
      simp [hx, Ne.symm hc]
    · simp [update_of_ne hy]
  have hmem : x ∈ {y | held y = some b} := hx
  constructor
  · intro c
    by_cases hc : c = b
    · subst hc
      rw [hset]
      exact (h.finite c).sdiff
    · rw [hother c hc]
      exact h.finite c
  intro c
  by_cases hc : c = b
  · subst hc
    have hcard := Set.ncard_sdiff_singleton_add_one hmem (h.finite c)
    rw [hset, update_self, h.count_eq c]
    omega
  · rw [hother c hc, update_of_ne hc]
    exact h.count_eq c

end Counted

end HardenedMinix.Lib
