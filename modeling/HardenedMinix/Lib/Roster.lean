import Mathlib.Data.List.Perm.Basic
import Mathlib.Data.List.Nodup
import Mathlib.Data.List.Range

/-!
# The entries of a numbered table

A table gives each number at most one entry. When one number gets or loses its entry, the
list of all entries does, up to order.
-/

open List

namespace HardenedMinix.Lib

variable {α β : Type*} {f g : α → Option β} {a : α} {b : β} {l : List α}

theorem filterMap_perm_cons (hl : l.Nodup) (ha : a ∈ l) (hsame : ∀ x, x ≠ a → g x = f x)
    (hf : f a = none) (hg : g a = some b) : (l.filterMap g).Perm (b :: l.filterMap f) := by
  induction l with
  | nil => cases ha
  | cons x l ih =>
    obtain ⟨hx, hl⟩ := nodup_cons.mp hl
    by_cases hxa : x = a
    · subst hxa
      have hrest : l.filterMap g = l.filterMap f :=
        filterMap_congr fun y hy => hsame y fun h => hx (h ▸ hy)
      rw [filterMap_cons_some hg, filterMap_cons_none hf, hrest]
    have ih := ih hl ((mem_cons.mp ha).resolve_left fun h => hxa h.symm)
    cases hfx : f x with
    | none => rwa [filterMap_cons_none hfx, filterMap_cons_none ((hsame x hxa).trans hfx)]
    | some c =>
      rw [filterMap_cons_some hfx, filterMap_cons_some ((hsame x hxa).trans hfx)]
      exact (ih.cons c).trans (List.Perm.swap b c _)

theorem mem_filterMap_range {f : Nat → Option β} {n k : Nat} (hk : k < n) (h : f k = some b) :
    b ∈ (List.range n).filterMap f :=
  mem_filterMap.mpr ⟨k, mem_range.mpr hk, h⟩

end HardenedMinix.Lib
