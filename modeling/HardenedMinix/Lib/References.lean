import Mathlib.Data.List.Basic
import Mathlib.Data.List.Nodup
import Mathlib.Data.Set.Card
import Mathlib.Logic.Function.Basic

/-!
# Shared objects and the lists of their references

`Referenced`: each object has the list of the names that refer to it, so that the length of the
list is the number of references.
-/

open Function Option

namespace HardenedMinix.Lib

variable {X B : Type}

/-- The object a name refers to, and the names of each object. -/
structure Referenced (target : X → Option B) (names : B → Option (List X)) : Prop where
  nodup : ∀ {b l}, names b = some l → l.Nodup
  mem_iff : ∀ {b l}, names b = some l → ∀ x, x ∈ l ↔ target x = some b
  isSome : ∀ {x b}, target x = some b → ∃ l, names b = some l

namespace Referenced

variable {target target' : X → Option B} {names names' : B → Option (List X)} {x : X} {b : B}
  {l : List X}

theorem congr (h : Referenced target names) (ht : ∀ x, target' x = target x)
    (hn : ∀ b, names' b = names b) : Referenced target' names' := by
  rwa [funext ht, funext hn]

variable [DecidableEq B]

theorem create (h : Referenced target names) (hb : names b = none) :
    Referenced target (update names b (some [])) := by
  have hno : ∀ x, target x ≠ some b := by
    intro x hx
    obtain ⟨l, hl⟩ := h.isSome hx
    rw [hb] at hl
    cases hl
  constructor
  · intro c l hl
    by_cases hc : c = b
    · subst hc
      rw [update_self, some.injEq] at hl
      rw [← hl]
      exact List.nodup_nil
    · rw [update_of_ne hc] at hl
      exact h.nodup hl
  · intro c l hl x
    by_cases hc : c = b
    · subst hc
      rw [update_self, some.injEq] at hl
      rw [← hl]
      simp [hno x]
    · rw [update_of_ne hc] at hl
      exact h.mem_iff hl x
  · intro x c hx
    have hc : c ≠ b := fun hc => hno x (hc ▸ hx)
    rw [update_of_ne hc]
    exact h.isSome hx

theorem free (h : Referenced target names) (hb : names b = some []) :
    Referenced target (update names b none) := by
  have hold : ∀ {c l}, update names b none c = some l → names c = some l := by
    intro c l hl
    by_cases hc : c = b
    · subst hc
      rw [update_self] at hl
      cases hl
    · rwa [update_of_ne hc] at hl
  refine ⟨fun hl => h.nodup (hold hl), fun hl => h.mem_iff (hold hl), fun {x c} hx => ?_⟩
  have hc : c ≠ b := by
    rintro rfl
    exact absurd ((h.mem_iff hb x).mpr hx) (by simp)
  rw [update_of_ne hc]
  exact h.isSome hx

variable [DecidableEq X]

theorem link (h : Referenced target names) (hx : target x = none) (hb : names b = some l) :
    Referenced (update target x (some b))
      (update names b (some (x :: l))) := by
  constructor
  · intro c m hm
    by_cases hc : c = b
    · subst hc
      rw [update_self, some.injEq] at hm
      rw [← hm, List.nodup_cons]
      refine ⟨fun hmem => ?_, h.nodup hb⟩
      rw [h.mem_iff hb, hx] at hmem
      cases hmem
    · rw [update_of_ne hc] at hm
      exact h.nodup hm
  · intro c m hm y
    by_cases hc : c = b
    · subst hc
      rw [update_self, some.injEq] at hm
      rw [← hm, List.mem_cons, h.mem_iff hb]
      by_cases hy : y = x
      · subst hy
        simp
      · simp [hy]
    rw [update_of_ne hc] at hm
    rw [h.mem_iff hm]
    by_cases hy : y = x
    · subst hy
      simp [hx, Ne.symm hc]
    · rw [update_of_ne hy]
  intro y c hy
  by_cases hc : c = b
  · subst hc
    exact ⟨x :: l, update_self ..⟩
  rw [update_of_ne hc]
  by_cases hyx : y = x
  · subst hyx
    rw [update_self, some.injEq] at hy
    exact absurd hy.symm hc
  · rw [update_of_ne hyx] at hy
    exact h.isSome hy

theorem unlink [BEq X] [LawfulBEq X] (h : Referenced target names) (hx : target x = some b) (hb : names b = some l) :
    Referenced (update target x none)
      (update names b (some (l.erase x))) := by
  constructor
  · intro c m hm
    by_cases hc : c = b
    · subst hc
      rw [update_self, some.injEq] at hm
      rw [← hm]
      exact (h.nodup hb).erase x
    · rw [update_of_ne hc] at hm
      exact h.nodup hm
  · intro c m hm y
    by_cases hc : c = b
    · subst hc
      rw [update_self, some.injEq] at hm
      rw [← hm, (h.nodup hb).mem_erase_iff, h.mem_iff hb]
      by_cases hy : y = x
      · subst hy
        simp
      · simp [hy]
    rw [update_of_ne hc] at hm
    rw [h.mem_iff hm]
    by_cases hy : y = x
    · subst hy
      simp [hx, Ne.symm hc]
    · rw [update_of_ne hy]
  intro y c hy
  have hyx : y ≠ x := by
    rintro rfl
    simp at hy
  rw [update_of_ne hyx] at hy
  by_cases hc : c = b
  · subst hc
    exact ⟨l.erase x, update_self ..⟩
  · rw [update_of_ne hc]
    exact h.isSome hy

end Referenced

end HardenedMinix.Lib
