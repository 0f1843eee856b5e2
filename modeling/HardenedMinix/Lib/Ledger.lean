import Mathlib.Data.List.Basic
import Mathlib.Data.List.Count
import Mathlib.Data.List.Induction
import Mathlib.Logic.Function.Basic

/-!
# Ledgers

Items are lent to owners and come back. In a proper ledger no item is lent that is out, and what
comes back comes from the owner it was lent to. Owners may note their items in the fields of
records.
-/

open Function List

namespace HardenedMinix.Lib

variable {ι κ ρ X : Type}

/-- A posting: an item is lent, or something comes back (`none` if it is no item at all). -/
inductive Posting (ι X : Type) where
  | out (o : ι) (x : X)
  | back (o : ι) (x : Option X)
  deriving DecidableEq, Repr

variable [DecidableEq X]

def Posting.apply (h : X → Option ι) : Posting ι X → X → Option ι
  | .out o x => update h x (some o)
  | .back _ (some x) => update h x none
  | .back _ none => h

/-- Who holds what after a list of postings, if nobody held anything before. -/
def holder (es : List (Posting ι X)) : X → Option ι :=
  es.foldl Posting.apply (fun _ => none)

omit [DecidableEq X] in
def Posting.Proper (h : X → Option ι) : Posting ι X → Prop
  | .out _ x => h x = none
  | .back o x => ∃ y, x = some y ∧ h y = some o

def ProperLedger (es : List (Posting ι X)) : Prop :=
  ∀ pre e post, es = pre ++ e :: post → e.Proper (holder pre)

theorem holder_snoc (es : List (Posting ι X)) (e : Posting ι X) :
    holder (es ++ [e]) = e.apply (holder es) := by
  simp [holder, foldl_append]

theorem properLedger_nil : ProperLedger ([] : List (Posting ι X)) := by
  intro pre e post h
  simp at h

theorem ProperLedger.snoc {es : List (Posting ι X)} {e : Posting ι X} (h : ProperLedger es)
    (he : e.Proper (holder es)) : ProperLedger (es ++ [e]) := by
  intro pre e' post heq
  rcases eq_nil_or_concat post with rfl | ⟨post', a, rfl⟩
  · obtain ⟨rfl, hlast⟩ := append_inj' heq rfl
    cases hlast
    exact he
  · rw [concat_eq_append, ← cons_append, ← append_assoc] at heq
    obtain ⟨rfl, -⟩ := append_inj' heq rfl
    exact h pre e' post' rfl

theorem ProperLedger.of_append {es es' : List (Posting ι X)} (h : ProperLedger (es ++ es')) :
    ProperLedger es := by
  intro pre e post heq
  refine h pre e (post ++ es') ?_
  rw [heq, append_assoc, cons_append]

theorem ProperLedger.count [DecidableEq ι] {es : List (Posting ι X)} (h : ProperLedger es)
    (o : ι) (x : X) :
    es.count (.out o x) = es.count (.back o (some x)) + if holder es x = some o then 1 else 0 := by
  induction es using List.reverseRecOn with
  | nil => simp [holder]
  | append_singleton es e ih =>
    have hih := ih h.of_append
    have he := h es e [] rfl
    rw [holder_snoc, count_append, count_append, count_singleton, count_singleton]
    cases e with
    | out o' y =>
      simp only [Posting.Proper] at he
      by_cases hx : y = x
      · subst hx
        rw [he] at hih
        by_cases ho : o' = o <;> simp_all [Posting.apply]
      · simp [Posting.apply, hx, update_of_ne (Ne.symm hx), hih]
    | back o' y =>
      obtain ⟨z, rfl, hz⟩ := he
      by_cases hx : z = x
      · subst hx
        rw [hz] at hih
        by_cases ho : o' = o <;> simp_all [Posting.apply]
      · simp [Posting.apply, hx, update_of_ne (Ne.symm hx), hih]

/-! ## Items noted in records -/

omit [DecidableEq X] in
/-- The records `L` note in their fields `fr` who holds what: an item that is out stands in one
field of one record. -/
structure Recorded (h : X → Option ι) (L : ι → List κ) (fr : κ → ρ → Option X) : Prop where
  held : ∀ x o, h x = some o ↔ ∃ k ∈ L o, ∃ r, fr k r = some x
  once : ∀ {o o' k k' r r' x}, k ∈ L o → fr k r = some x → k' ∈ L o' → fr k' r' = some x →
    k = k' ∧ r = r'

namespace Recorded

variable {h : X → Option ι} {L L' : ι → List κ} {fr fr' : κ → ρ → Option X} {o : ι} {k : κ}
  {r : ρ} {x : X}

omit [DecidableEq X] in
theorem nil (fr : κ → ρ → Option X) : Recorded (fun _ => none) (fun _ : ι => []) fr :=
  ⟨fun x o => by simp, fun hk => by simp at hk⟩

omit [DecidableEq X] in
theorem congr (hrec : Recorded h L fr) (hfr : ∀ o, ∀ k ∈ L o, ∀ r, fr' k r = fr k r) :
    Recorded h L fr' := by
  constructor
  · intro x o
    rw [hrec.held x o]
    constructor
    · rintro ⟨k, hk, r, hr⟩
      exact ⟨k, hk, r, (hfr o k hk r).trans hr⟩
    · rintro ⟨k, hk, r, hr⟩
      exact ⟨k, hk, r, (hfr o k hk r).symm.trans hr⟩
  · intro o o' k k' r r' x hk hr hk' hr'
    rw [hfr o k hk r] at hr
    rw [hfr o' k' hk' r'] at hr'
    exact hrec.once hk hr hk' hr'

omit [DecidableEq X] in
theorem relist (hrec : Recorded h L fr) (hk : ∀ r, fr k r = none)
    (hL : ∀ o j, j ≠ k → (j ∈ L' o ↔ j ∈ L o)) : Recorded h L' fr := by
  have hne : ∀ {j r x}, fr j r = some x → j ≠ k := by
    rintro j r x hr rfl
    rw [hk r] at hr
    cases hr
  constructor
  · intro x o
    rw [hrec.held x o]
    constructor
    · rintro ⟨j, hj, r, hr⟩
      exact ⟨j, (hL o j (hne hr)).mpr hj, r, hr⟩
    · rintro ⟨j, hj, r, hr⟩
      exact ⟨j, (hL o j (hne hr)).mp hj, r, hr⟩
  · intro o o' j j' r r' x hj hr hj' hr'
    exact hrec.once ((hL o j (hne hr)).mp hj) hr ((hL o' j' (hne hr')).mp hj') hr'

theorem note (hrec : Recorded h L fr) (hk : k ∈ L o) (honly : ∀ o', o' ≠ o → k ∉ L o')
    (hempty : fr k r = none) (hin : h x = none) (hnew : fr' k r = some x)
    (hsame : ∀ k' r', k' ≠ k ∨ r' ≠ r → fr' k' r' = fr k' r') :
    Recorded (update h x (some o)) L fr' := by
  -- the new item stood nowhere before
  have hnowhere : ∀ {o' k' r'}, k' ∈ L o' → fr k' r' ≠ some x := by
    intro o' k' r' hk' hr'
    have hout := (hrec.held x o').mpr ⟨k', hk', r', hr'⟩
    rw [hin] at hout
    cases hout
  have hold : ∀ {o' k' r' y}, k' ∈ L o' → fr' k' r' = some y →
      (k' = k ∧ r' = r ∧ y = x) ∨ (fr k' r' = some y ∧ y ≠ x ∧ (k' ≠ k ∨ r' ≠ r)) := by
    intro o' k' r' y hk' hr'
    by_cases hkr : k' = k ∧ r' = r
    · obtain ⟨rfl, rfl⟩ := hkr
      rw [hnew, Option.some.injEq] at hr'
      exact .inl ⟨rfl, rfl, hr'.symm⟩
    have hdiff : k' ≠ k ∨ r' ≠ r := by
      rwa [not_and_or] at hkr
    rw [hsame k' r' hdiff] at hr'
    refine .inr ⟨hr', ?_, hdiff⟩
    rintro rfl
    exact hnowhere hk' hr'
  constructor
  · intro y o'
    by_cases hy : y = x
    · subst hy
      rw [update_self, Option.some.injEq]
      constructor
      · rintro rfl
        exact ⟨k, hk, r, hnew⟩
      rintro ⟨k', hk', r', hr'⟩
      rcases hold hk' hr' with ⟨rfl, _, _⟩ | ⟨_, hne, _⟩
      · by_contra hne
        exact honly o' (Ne.symm hne) hk'
      · exact absurd rfl hne
    rw [update_of_ne hy, hrec.held y o']
    constructor
    · rintro ⟨k', hk', r', hr'⟩
      refine ⟨k', hk', r', ?_⟩
      rw [hsame k' r' ?_]
      · exact hr'
      by_contra hboth
      rw [not_or, not_not, not_not] at hboth
      obtain ⟨rfl, rfl⟩ := hboth
      rw [hempty] at hr'
      cases hr'
    · rintro ⟨k', hk', r', hr'⟩
      rcases hold hk' hr' with ⟨_, _, rfl⟩ | ⟨hr, _, _⟩
      · exact absurd rfl hy
      · exact ⟨k', hk', r', hr⟩
  · intro o1 o2 k1 k2 r1 r2 y hk1 hr1 hk2 hr2
    rcases hold hk1 hr1 with ⟨rfl, rfl, rfl⟩ | ⟨hf1, hne1, _⟩
    · rcases hold hk2 hr2 with ⟨rfl, rfl, _⟩ | ⟨_, hne2, _⟩
      · exact ⟨rfl, rfl⟩
      · exact absurd rfl hne2
    · rcases hold hk2 hr2 with ⟨_, _, rfl⟩ | ⟨hf2, _, _⟩
      · exact absurd rfl hne1
      · exact hrec.once hk1 hf1 hk2 hf2

theorem strike (hrec : Recorded h L fr) (hk : k ∈ L o) (hfull : fr k r = some x)
    (hnew : fr' k r = none) (hsame : ∀ k' r', k' ≠ k ∨ r' ≠ r → fr' k' r' = fr k' r') :
    Recorded (update h x none) L fr' := by
  have hold : ∀ {k' r' y}, fr' k' r' = some y → fr k' r' = some y ∧ (k' ≠ k ∨ r' ≠ r) := by
    intro k' r' y hr'
    have hdiff : k' ≠ k ∨ r' ≠ r := by
      by_contra hboth
      rw [not_or, not_not, not_not] at hboth
      obtain ⟨rfl, rfl⟩ := hboth
      rw [hnew] at hr'
      cases hr'
    exact ⟨(hsame k' r' hdiff).symm.trans hr', hdiff⟩
  have hgone : ∀ {o' k' r'}, k' ∈ L o' → fr' k' r' ≠ some x := by
    intro o' k' r' hk' hr'
    obtain ⟨hr, hdiff⟩ := hold hr'
    obtain ⟨rfl, rfl⟩ := hrec.once hk' hr hk hfull
    exact hdiff.elim (fun hne => hne rfl) (fun hne => hne rfl)
  constructor
  · intro y o'
    by_cases hy : y = x
    · subst hy
      rw [update_self]
      constructor
      · intro hnone
        cases hnone
      · rintro ⟨k', hk', r', hr'⟩
        exact absurd hr' (hgone hk')
    rw [update_of_ne hy, hrec.held y o']
    constructor
    · rintro ⟨k', hk', r', hr'⟩
      refine ⟨k', hk', r', ?_⟩
      rw [hsame k' r' ?_]
      · exact hr'
      by_contra hboth
      rw [not_or, not_not, not_not] at hboth
      obtain ⟨rfl, rfl⟩ := hboth
      rw [hfull, Option.some.injEq] at hr'
      exact hy hr'.symm
    · rintro ⟨k', hk', r', hr'⟩
      exact ⟨k', hk', r', (hold hr').1⟩
  · intro o1 o2 k1 k2 r1 r2 y hk1 hr1 hk2 hr2
    exact hrec.once hk1 (hold hr1).1 hk2 (hold hr2).1

end Recorded

end HardenedMinix.Lib
