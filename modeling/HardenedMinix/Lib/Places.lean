import Mathlib.Logic.Function.Basic
import Mathlib.Data.Set.Basic

/-!
# One place for each item

Items are free, in hand, or held by one owner. An operation that passes items on is a sequence of
the four moves below.
-/

namespace HardenedMinix.Lib

variable {F O : Type}

/-- One item: whether it is managed, free and in hand, and who holds it. -/
inductive Located (managed free hand : Prop) (holds : O → Prop) : Prop where
  | outside : ¬ managed → ¬ free → ¬ hand → (∀ o, ¬ holds o) → Located managed free hand holds
  | free : managed → free → ¬ hand → (∀ o, ¬ holds o) → Located managed free hand holds
  | hand : managed → ¬ free → hand → (∀ o, ¬ holds o) → Located managed free hand holds
  | held (o : O) : managed → ¬ free → ¬ hand → (∀ o', holds o' ↔ o' = o) →
      Located managed free hand holds

namespace Located

variable {managed free free' hand hand' : Prop} {holds holds' : O → Prop}

theorem congr (h : Located managed free hand holds) (hfree : free' ↔ free)
    (hhand : hand' ↔ hand) (hholds : ∀ o, holds' o ↔ holds o) :
    Located managed free' hand' holds' := by
  have heq : holds' = holds := funext fun o => propext (hholds o)
  subst heq
  rwa [propext hfree, propext hhand]

theorem of_free (h : Located managed free hand holds) (hf : free) :
    managed ∧ ¬ hand ∧ ∀ o, ¬ holds o := by
  cases h with
  | outside _ hfree => exact absurd hf hfree
  | free hm _ hhand hno => exact ⟨hm, hhand, hno⟩
  | hand _ hfree => exact absurd hf hfree
  | held _ _ hfree => exact absurd hf hfree

theorem of_hand (h : Located managed free hand holds) (hh : hand) :
    managed ∧ ¬ free ∧ ∀ o, ¬ holds o := by
  cases h with
  | outside _ _ hhand => exact absurd hh hhand
  | free _ _ hhand => exact absurd hh hhand
  | hand hm hfree _ hno => exact ⟨hm, hfree, hno⟩
  | held _ _ _ hhand => exact absurd hh hhand

theorem of_holds (h : Located managed free hand holds) {o : O} (ho : holds o) :
    managed ∧ ¬ free ∧ ¬ hand ∧ ∀ o', holds o' ↔ o' = o := by
  cases h with
  | outside _ _ _ hno => exact absurd ho (hno o)
  | free _ _ _ hno => exact absurd ho (hno o)
  | hand _ _ _ hno => exact absurd ho (hno o)
  | held o1 hm hfree hhand hone =>
    have heq : o = o1 := (hone o).mp ho
    subst heq
    exact ⟨hm, hfree, hhand, hone⟩

end Located

def Placed (managed free hand : F → Prop) (holds : O → F → Prop) : Prop :=
  ∀ f, Located (managed f) (free f) (hand f) fun o => holds o f

namespace Placed

variable {managed free free' hand hand' S : F → Prop} {holds holds' : O → F → Prop} {o : O}

theorem congr (h : Placed managed free hand holds) (hfree : ∀ f, free' f ↔ free f)
    (hhand : ∀ f, hand' f ↔ hand f) (hholds : ∀ o f, holds' o f ↔ holds o f) :
    Placed managed free' hand' holds' :=
  fun f => (h f).congr (hfree f) (hhand f) (fun o => hholds o f)

theorem unique (h : Placed managed free hand holds) {o' : O} {f : F} (ho : holds o f)
    (ho' : holds o' f) : o' = o := (((h f).of_holds ho).2.2.2 o').mp ho'

theorem take (h : Placed managed free hand holds) (hS : ∀ f, S f → free f)
    (hfree : ∀ f, free' f ↔ free f ∧ ¬ S f) (hhand : ∀ f, hand' f ↔ hand f ∨ S f) :
    Placed managed free' hand' holds := by
  intro f
  by_cases hf : S f
  · obtain ⟨hm, _, hno⟩ := (h f).of_free (hS f hf)
    apply Located.hand hm _ ((hhand f).mpr (.inr hf)) hno
    intro hfr
    exact ((hfree f).mp hfr).2 hf
  apply (h f).congr _ _ (fun _ => Iff.rfl)
  · rw [hfree f]
    exact and_iff_left hf
  · rw [hhand f]
    exact or_iff_left hf

theorem give (h : Placed managed free hand holds) (hS : ∀ f, S f → hand f)
    (hhand : ∀ f, hand' f ↔ hand f ∧ ¬ S f)
    (hholds : ∀ o' f, holds' o' f ↔ holds o' f ∨ (o' = o ∧ S f)) :
    Placed managed free hand' holds' := by
  intro f
  by_cases hf : S f
  · obtain ⟨hm, hfree, hno⟩ := (h f).of_hand (hS f hf)
    apply Located.held o hm hfree
    · intro hh
      exact ((hhand f).mp hh).2 hf
    intro o'
    rw [hholds o' f]
    constructor
    · rintro (ho | ⟨ho, _⟩)
      · exact absurd ho (hno o')
      · exact ho
    · intro ho
      exact .inr ⟨ho, hf⟩
  apply (h f).congr Iff.rfl
  · rw [hhand f]
    exact and_iff_left hf
  · intro o'
    rw [hholds o' f]
    exact or_iff_left (fun ho => hf ho.2)

theorem lift (h : Placed managed free hand holds) (hS : ∀ f, S f → holds o f)
    (hhand : ∀ f, hand' f ↔ hand f ∨ S f)
    (hholds : ∀ o' f, holds' o' f ↔ holds o' f ∧ ¬ (o' = o ∧ S f)) :
    Placed managed free hand' holds' := by
  intro f
  by_cases hf : S f
  · obtain ⟨hm, hfree, _, hone⟩ := (h f).of_holds (hS f hf)
    apply Located.hand hm hfree ((hhand f).mpr (.inr hf))
    intro o' ho'
    obtain ⟨ho, hnot⟩ := (hholds o' f).mp ho'
    exact hnot ⟨(hone o').mp ho, hf⟩
  apply (h f).congr Iff.rfl
  · rw [hhand f]
    exact or_iff_left hf
  · intro o'
    rw [hholds o' f]
    exact and_iff_left (fun ho => hf ho.2)

theorem release (h : Placed managed free hand holds) (hS : ∀ f, S f → hand f)
    (hfree : ∀ f, free' f ↔ free f ∨ S f) (hhand : ∀ f, hand' f ↔ hand f ∧ ¬ S f) :
    Placed managed free' hand' holds := by
  intro f
  by_cases hf : S f
  · obtain ⟨hm, _, hno⟩ := (h f).of_hand (hS f hf)
    apply Located.free hm ((hfree f).mpr (.inr hf)) _ hno
    intro hh
    exact ((hhand f).mp hh).2 hf
  apply (h f).congr _ _ (fun _ => Iff.rfl)
  · rw [hfree f]
    exact or_iff_left hf
  · rw [hhand f]
    exact and_iff_left hf

theorem drop (h : Placed managed free hand holds) (hS : ∀ f, S f → holds o f)
    (hfree : ∀ f, free' f ↔ free f ∨ S f)
    (hholds : ∀ o' f, holds' o' f ↔ holds o' f ∧ ¬ (o' = o ∧ S f)) :
    Placed managed free' hand holds' := by
  have hlift : Placed managed free (fun f => hand f ∨ S f) holds' :=
    h.lift hS (fun _ => Iff.rfl) hholds
  refine hlift.release (fun f hf => .inr hf) hfree (fun f => ?_)
  constructor
  · intro hh
    refine ⟨.inl hh, fun hf => ?_⟩
    exact ((h f).of_holds (hS f hf)).2.2.1 hh
  · rintro ⟨hh | hf, hnot⟩
    · exact hh
    · exact absurd hf hnot

theorem dropAll (h : Placed managed free hand holds) (P : O → Prop)
    (hfree : ∀ f, free' f ↔ free f ∨ ∃ o, P o ∧ holds o f)
    (hholds : ∀ o f, holds' o f ↔ holds o f ∧ ¬ P o) : Placed managed free' hand holds' := by
  intro f
  by_cases hf : ∃ o, P o ∧ holds o f
  · obtain ⟨o, hP, ho⟩ := hf
    obtain ⟨hm, _, hhand, hone⟩ := (h f).of_holds ho
    apply Located.free hm ((hfree f).mpr (.inr ⟨o, hP, ho⟩)) hhand
    intro o' ho'
    obtain ⟨hold, hnot⟩ := (hholds o' f).mp ho'
    exact hnot ((hone o').mp hold ▸ hP)
  apply (h f).congr _ Iff.rfl
  · intro o
    rw [hholds o f]
    exact and_iff_left_of_imp (fun ho hP => hf ⟨o, hP, ho⟩)
  · rw [hfree f]
    exact or_iff_left hf

theorem passOn (h : Placed managed free hand holds) (next : F → O) (hS : ∀ f, S f → holds o f)
    (hholds : ∀ o' f, holds' o' f ↔ (holds o' f ∧ ¬ (o' = o ∧ S f)) ∨ (S f ∧ o' = next f)) :
    Placed managed free hand holds' := by
  intro f
  by_cases hf : S f
  · obtain ⟨hm, hfree, hhand, hone⟩ := (h f).of_holds (hS f hf)
    apply Located.held (next f) hm hfree hhand
    intro o'
    rw [hholds o' f]
    constructor
    · rintro (⟨ho, hnot⟩ | ⟨_, ho⟩)
      · exact absurd ⟨(hone o').mp ho, hf⟩ hnot
      · exact ho
    · intro ho
      exact .inr ⟨hf, ho⟩
  · apply (h f).congr Iff.rfl Iff.rfl
    intro o'
    rw [hholds o' f]
    simp [hf]

end Placed

end HardenedMinix.Lib
