import Mathlib

/-!
# Loops over a linked list

`while (r) { body(r); r = r->next; }` on an explicit state. The link is read after the
body has run, so a body may unlink the record it is at.
-/

namespace HardenedMinix.Lib

variable {σ ι : Type}

/-- The loop, for at most `fuel` turns. `none` is a body that fails or a walk that has not
ended by then. -/
def whileNext (next : σ → ι → Option ι) (body : σ → ι → Option σ) :
    Nat → σ → Option ι → Option σ
  | _, s, none => some s
  | 0, _, some _ => none
  | fuel + 1, s, some i =>
    match body s i with
    | none => none
    | some s' => whileNext next body fuel s' (next s' i)

variable {next : σ → ι → Option ι} {body : σ → ι → Option σ} {P : List ι → σ → Prop}

theorem whileNext_inv (hstep : ∀ i rest s s', P (i :: rest) s → body s i = some s' →
      P rest s' ∧ next s' i = rest.head?) :
    ∀ {l : List ι} {fuel : Nat} {s s' : σ}, P l s →
      whileNext next body fuel s l.head? = some s' → P [] s' := by
  intro l
  induction l with
  | nil =>
    intro fuel s s' hP hrun
    have hs : s = s' := by
      cases fuel <;> simpa [whileNext] using hrun
    exact hs ▸ hP
  | cons i rest ih =>
    intro fuel s s' hP hrun
    cases fuel with
    | zero => simp [whileNext] at hrun
    | succ fuel =>
      cases hb : body s i with
      | none => simp [whileNext, hb] at hrun
      | some s1 =>
        obtain ⟨hrest, hnext⟩ := hstep i rest s s1 hP hb
        simp only [List.head?_cons, whileNext, hb, hnext] at hrun
        exact ih hrest hrun

theorem whileNext_total (next : σ → ι → Option ι) (body : σ → ι → Option σ) {P : List ι → σ → Prop}
    (hstep : ∀ i rest s, P (i :: rest) s →
      ∃ s', body s i = some s' ∧ P rest s' ∧ next s' i = rest.head?) :
    ∀ {l : List ι} {fuel : Nat} {s : σ}, P l s → l.length ≤ fuel →
      ∃ s', whileNext next body fuel s l.head? = some s' ∧ P [] s' := by
  intro l
  induction l with
  | nil =>
    intro fuel s hP _
    refine ⟨s, ?_, hP⟩
    cases fuel <;> rfl
  | cons i rest ih =>
    intro fuel s hP hf
    obtain ⟨s1, hb, hrest, hnext⟩ := hstep i rest s hP
    cases fuel with
    | zero => simp at hf
    | succ fuel =>
      obtain ⟨s', hrun, hP'⟩ := ih hrest (Nat.le_of_succ_le_succ hf)
      refine ⟨s', ?_, hP'⟩
      simp only [List.head?_cons, whileNext, hb, hnext, hrun]

theorem whileNext_rel {R : σ → σ → Prop} (hrefl : ∀ s, R s s)
    (htrans : ∀ s₁ s₂ s₃, R s₁ s₂ → R s₂ s₃ → R s₁ s₃)
    (hstep : ∀ s i s', body s i = some s' → R s s') :
    ∀ {fuel : Nat} {s s' : σ} {o : Option ι}, whileNext next body fuel s o = some s' → R s s' := by
  intro fuel
  induction fuel with
  | zero =>
    intro s s' o hrun
    cases o with
    | none =>
      have heq : s = s' := by simpa [whileNext] using hrun
      exact heq ▸ hrefl s
    | some i => simp [whileNext] at hrun
  | succ fuel ih =>
    intro s s' o hrun
    cases o with
    | none =>
      have heq : s = s' := by simpa [whileNext] using hrun
      exact heq ▸ hrefl s
    | some i =>
      cases hb : body s i with
      | none => simp [whileNext, hb] at hrun
      | some s₁ =>
        simp only [whileNext, hb] at hrun
        exact htrans _ _ _ (hstep s i s₁ hb) (ih hrun)

theorem whileNext_reach {I : σ → Prop} {A : σ → ι → Prop}
    (hstep : ∀ s i s', I s → A s i → body s i = some s' → I s' ∧ ∀ j, next s' i = some j → A s' j) :
    ∀ {fuel : Nat} {s s' : σ} {o : Option ι}, I s → (∀ i, o = some i → A s i) →
      whileNext next body fuel s o = some s' → I s' := by
  intro fuel
  induction fuel with
  | zero =>
    intro s s' o hs _ hrun
    cases o with
    | none =>
      have heq : s = s' := by simpa [whileNext] using hrun
      exact heq ▸ hs
    | some i => simp [whileNext] at hrun
  | succ fuel ih =>
    intro s s' o hs ho hrun
    cases o with
    | none =>
      have heq : s = s' := by simpa [whileNext] using hrun
      exact heq ▸ hs
    | some i =>
      cases hb : body s i with
      | none => simp [whileNext, hb] at hrun
      | some s1 =>
        simp only [whileNext, hb] at hrun
        obtain ⟨hI, hnext⟩ := hstep s i s1 hs (ho i rfl) hb
        exact ih hI hnext hrun

theorem foldlM_inv {τ : Type} {f : σ → τ → Option σ} {I : σ → Prop} {l : List τ} {s s' : σ}
    (hstep : ∀ x ∈ l, ∀ s s', I s → f s x = some s' → I s') (hs : I s)
    (hrun : l.foldlM f s = some s') : I s' := by
  induction l generalizing s with
  | nil =>
    have heq : s = s' := by simpa using hrun
    exact heq ▸ hs
  | cons x l ih =>
    simp only [List.foldlM_cons, Option.bind_eq_bind, Option.bind_eq_some_iff] at hrun
    obtain ⟨s1, hx, hrest⟩ := hrun
    exact ih (fun y hy => hstep y (List.mem_cons_of_mem _ hy))
      (hstep x List.mem_cons_self s s1 hs hx) hrest

theorem foldl_inv {τ : Type} {f : σ → τ → σ} {I : σ → Prop} {l : List τ} {s : σ}
    (hstep : ∀ x ∈ l, ∀ s, I s → I (f s x)) (hs : I s) : I (l.foldl f s) := by
  induction l generalizing s with
  | nil => exact hs
  | cons x l ih =>
    exact ih (fun y hy => hstep y (List.mem_cons_of_mem _ hy)) (hstep x List.mem_cons_self s hs)

end HardenedMinix.Lib
