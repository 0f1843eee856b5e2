import Mathlib

/-!
# Runs of a server

A server handles one request after the other; each request finds the state the last one has
left. The condition of a run and what is promised of it are both predicates on a request and
the state it finds.
-/

namespace HardenedMinix.Lib

variable {σ α : Type*} {step : σ → α → σ} {P Q : σ → α → Prop} {Inv : σ → Prop}
  {s : σ} {as bs : List α}

/-- Each request of the list meets `P` in the state it finds. -/
def Along (step : σ → α → σ) (P : σ → α → Prop) : σ → List α → Prop
  | _, [] => True
  | s, a :: as => P s a ∧ Along step P (step s a) as

instance instDecidableAlong [∀ s a, Decidable (P s a)] : (s : σ) → (as : List α) → Decidable (Along step P s as)
  | _, [] => inferInstanceAs (Decidable True)
  | s, a :: as =>
    have : Decidable (Along step P (step s a) as) := instDecidableAlong (step s a) as
    inferInstanceAs (Decidable (P s a ∧ Along step P (step s a) as))

theorem Along.run (hstep : ∀ s a, Inv s → P s a → Q s a ∧ Inv (step s a)) (hs : Inv s)
    (h : Along step P s as) : Along step Q s as ∧ Inv (as.foldl step s) := by
  induction as generalizing s with
  | nil => exact ⟨trivial, hs⟩
  | cons a as ih =>
    obtain ⟨hP, hrest⟩ := h
    obtain ⟨hQ, hnext⟩ := hstep s a hs hP
    obtain ⟨hQs, hlast⟩ := ih hnext hrest
    exact ⟨⟨hQ, hQs⟩, hlast⟩

theorem Along.of_append (h : Along step P s (as ++ bs)) : Along step P s as := by
  induction as generalizing s with
  | nil => trivial
  | cons a as ih => exact ⟨h.1, ih h.2⟩

theorem Along.append_right (h : Along step P s (as ++ bs)) : Along step P (as.foldl step s) bs := by
  induction as generalizing s with
  | nil => exact h
  | cons a as ih => exact ih h.2

theorem Along.until {Due : σ → Prop} {E : σ → α → Prop}
    (hstep : ∀ s a, Inv s → P s a → Inv (step s a) ∧ (Due s → Due (step s a) ∨ E s a))
    (hs : Inv s) (h : Along step P s as) (hdue : Due s) :
    Due (as.foldl step s) ∨ ∃ bs a cs, as = bs ++ a :: cs ∧ E (bs.foldl step s) a := by
  induction as generalizing s with
  | nil => exact .inl hdue
  | cons a as ih =>
    obtain ⟨hinv, hnext⟩ := hstep s a hs h.1
    obtain hdue' | hE := hnext hdue
    · obtain hlast | ⟨bs, b, cs, rfl, hE⟩ := ih hinv h.2 hdue'
      · exact .inl hlast
      · exact .inr ⟨a :: bs, b, cs, rfl, hE⟩
    · exact .inr ⟨[], a, as, rfl, hE⟩

theorem foldlM_range {body : σ → Nat → Option σ} {J : Nat → σ → Prop} {n : Nat}
    (hbody : ∀ k s, k < n → J k s → ∃ s', body s k = some s' ∧ J (k + 1) s') (hs : J 0 s) :
    ∃ s', (List.range n).foldlM body s = some s' ∧ J n s' := by
  induction n with
  | zero => exact ⟨s, rfl, hs⟩
  | succ n ih =>
    obtain ⟨s1, hrun, hJ⟩ := ih fun k s hk => hbody k s (Nat.lt_succ_of_lt hk)
    obtain ⟨s2, hlast, hJ'⟩ := hbody n s1 (Nat.lt_succ_self n) hJ
    refine ⟨s2, ?_, hJ'⟩
    rw [List.range_succ, List.foldlM_append, hrun]
    simpa using hlast

end HardenedMinix.Lib
