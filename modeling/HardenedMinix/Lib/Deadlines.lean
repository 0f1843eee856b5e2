import Mathlib

/-!
# Deadlines

Timers are armed for a deadline and cancelled, and those whose deadline has come are called. The
rules are about the log: who is armed can be read off it, only due timers are called, and an
expiry ends when none is due.
-/

open List

namespace HardenedMinix.Lib.Deadlines

variable {ι T ω : Type*}

inductive Event (ι T ω : Type*) where
  | armed (i : ι) (t : T) (f : ω)
  | cancelled (i : ι)
  /-- an expiry begins: all timers with a deadline up to `now` are due -/
  | began (now : T)
  | called (i : ι) (f : ω)
  /-- the expiry has ended -/
  | ended
  deriving DecidableEq

variable [DecidableEq ι]

def armedAfter (i : ι) (a : Option (T × ω)) : Event ι T ω → Option (T × ω)
  | .armed j t f => if j = i then some (t, f) else a
  | .cancelled j => if j = i then none else a
  | .called j _ => if j = i then none else a
  | _ => a

def expiryAfter (e : Option T) : Event ι T ω → Option T
  | .began now => some now
  | .ended => none
  | _ => e

def armedOf (i : ι) (l : List (Event ι T ω)) : Option (T × ω) := l.foldl (armedAfter i) none

def expiryOf (l : List (Event ι T ω)) : Option T := l.foldl expiryAfter none

variable {l l₁ l₂ l₃ l₄ m : List (Event ι T ω)} {e : Event ι T ω} {i j : ι} {t now : T} {f g : ω}

@[simp] theorem armedOf_nil : armedOf i ([] : List (Event ι T ω)) = none := rfl

@[simp] theorem armedOf_snoc : armedOf i (l ++ [e]) = armedAfter i (armedOf i l) e := by
  simp [armedOf]

omit [DecidableEq ι] in
@[simp] theorem expiryOf_nil : expiryOf ([] : List (Event ι T ω)) = none := rfl

omit [DecidableEq ι] in
@[simp] theorem expiryOf_snoc : expiryOf (l ++ [e]) = expiryAfter (expiryOf l) e := by
  simp [expiryOf]

/-- The timer is neither armed again nor cancelled. -/
def Untouched (i : ι) (l : List (Event ι T ω)) : Prop :=
  ∀ e ∈ l, e ≠ .cancelled i ∧ ∀ t f, e ≠ .armed i t f

omit [DecidableEq ι] in
theorem Untouched.left (h : Untouched i (l ++ m)) : Untouched i l :=
  fun e he => h e (mem_append_left m he)

omit [DecidableEq ι] in
theorem Untouched.right (h : Untouched i (l ++ m)) : Untouched i m :=
  fun e he => h e (mem_append_right l he)

def callOf (i : ι) : Event ι T ω → Option ω
  | .called j f => if j = i then some f else none
  | _ => none

def callsOf (i : ι) (l : List (Event ι T ω)) : List ω := l.filterMap (callOf i)

@[simp] theorem callsOf_append : callsOf i (l ++ m) = callsOf i l ++ callsOf i m := filterMap_append

@[simp] theorem callsOf_singleton : callsOf i [e] = (callOf i e).toList := by
  cases h : callOf i e <;> simp [callsOf, h]

section Rules

variable [LinearOrder T]

/-- What may happen after `l`. -/
def Allowed (l : List (Event ι T ω)) : Event ι T ω → Prop
  | .armed _ t _ => ∀ now, expiryOf l = some now → now < t
  | .cancelled _ => True
  | .began _ => expiryOf l = none
  | .called i f => ∃ t now, armedOf i l = some (t, f) ∧ expiryOf l = some now ∧ t ≤ now
  | .ended => ∃ now, expiryOf l = some now ∧ ∀ i t f, armedOf i l = some (t, f) → now < t

/-- Everything in the log was allowed when it happened. -/
inductive Legal : List (Event ι T ω) → Prop
  | nil : Legal []
  | snoc {l : List (Event ι T ω)} {e : Event ι T ω} (h : Legal l) (he : Allowed l e) :
      Legal (l ++ [e])

theorem Legal.of_append (h : Legal (l ++ m)) : Legal l := by
  induction m using List.reverseRecOn with
  | nil => simpa using h
  | append_singleton m e ih =>
    rw [← append_assoc] at h
    generalize hl : (l ++ m) ++ [e] = k at h
    cases h with
    | nil => simp at hl
    | snoc h he =>
      obtain ⟨rfl, -⟩ := append_inj' hl rfl
      exact ih h

theorem Legal.allowed (h : Legal (l ++ e :: m)) : Allowed l e := by
  have h' : Legal (l ++ [e]) := by
    apply Legal.of_append (m := m)
    simpa using h
  generalize hl : l ++ [e] = k at h'
  cases h' with
  | nil => simp at hl
  | snoc h he =>
    obtain ⟨rfl, hone⟩ := append_inj' hl rfl
    cases hone
    exact he

theorem Legal.waits (h : Legal (l ++ m)) (harmed : armedOf i l = some (t, f))
    (hexp : ∀ now, expiryOf l = some now → now < t) (hm : Untouched i m)
    (hearly : ∀ now, .began now ∈ m → now < t) :
    callsOf i m = [] ∧ armedOf i (l ++ m) = some (t, f) ∧
      ∀ now, expiryOf (l ++ m) = some now → now < t := by
  induction m using List.reverseRecOn with
  | nil => simpa using ⟨rfl, harmed, hexp⟩
  | append_singleton m e ih =>
    have hsplit : l ++ (m ++ [e]) = (l ++ m) ++ [e] := (append_assoc _ _ _).symm
    rw [hsplit] at h ⊢
    obtain ⟨hcalls, hstill, hbefore⟩ := ih h.of_append hm.left
      fun now hnow => hearly now (mem_append_left _ hnow)
    have hallowed : Allowed (l ++ m) e := h.allowed (m := [])
    have hlast := hm.right e (mem_singleton_self e)
    rw [callsOf_append, hcalls, armedOf_snoc, expiryOf_snoc, hstill]
    cases e with
    | armed j t' g =>
      have hj : j ≠ i := by
        rintro rfl
        exact hlast.2 t' g rfl
      exact ⟨rfl, if_neg hj, hbefore⟩
    | cancelled j =>
      have hj : j ≠ i := by
        rintro rfl
        exact hlast.1 rfl
      exact ⟨rfl, if_neg hj, hbefore⟩
    | began now =>
      refine ⟨rfl, rfl, fun now' hnow => ?_⟩
      cases hnow
      exact hearly _ (by simp)
    | called j g =>
      have hj : j ≠ i := by
        rintro rfl
        obtain ⟨t', now, harm, hnow, hle⟩ := hallowed
        rw [hstill] at harm
        cases harm
        exact absurd (hbefore now hnow) (not_lt.mpr hle)
      exact ⟨by simp [callOf, hj], if_neg hj, hbefore⟩
    | ended =>
      refine ⟨rfl, rfl, fun now' hnow => ?_⟩
      cases hnow

theorem Legal.during (h : Legal (l ++ m)) (harmed : armedOf i l = some (t, f))
    (hexp : expiryOf l = some now) (hm : Untouched i m) (hrun : .ended ∉ m) :
    expiryOf (l ++ m) = some now ∧ (callsOf i m = [] ∧ armedOf i (l ++ m) = some (t, f) ∨
        callsOf i m = [f] ∧ armedOf i (l ++ m) = none) := by
  induction m using List.reverseRecOn with
  | nil => simpa using ⟨hexp, .inl ⟨rfl, harmed⟩⟩
  | append_singleton m e ih =>
    have hsplit : l ++ (m ++ [e]) = (l ++ m) ++ [e] := (append_assoc _ _ _).symm
    rw [hsplit] at h ⊢
    obtain ⟨hnow, hstate⟩ := ih h.of_append hm.left fun he => hrun (mem_append_left _ he)
    have hallowed : Allowed (l ++ m) e := h.allowed (m := [])
    have hlast := hm.right e (mem_singleton_self e)
    rw [callsOf_append, armedOf_snoc, expiryOf_snoc]
    cases e with
    | armed j t' g =>
      have hj : j ≠ i := by
        rintro rfl
        exact hlast.2 t' g rfl
      simpa [expiryAfter, armedAfter, hj, callOf] using ⟨hnow, hstate⟩
    | cancelled j =>
      have hj : j ≠ i := by
        rintro rfl
        exact hlast.1 rfl
      simpa [expiryAfter, armedAfter, hj, callOf] using ⟨hnow, hstate⟩
    | began now' =>
      have hnone : expiryOf (l ++ m) = none := hallowed
      rw [hnow] at hnone
      cases hnone
    | called j g =>
      by_cases hj : j = i
      · subst hj
        obtain ⟨t', now', harm, -, -⟩ := hallowed
        obtain ⟨hcalls, hstill⟩ | ⟨-, hgone⟩ := hstate
        · rw [hstill] at harm
          cases harm
          exact ⟨hnow, .inr ⟨by simp [callOf, hcalls], if_pos rfl⟩⟩
        · rw [hgone] at harm
          cases harm
      · simpa [expiryAfter, armedAfter, hj, callOf] using ⟨hnow, hstate⟩
    | ended => exact absurd (mem_append_right _ (mem_singleton_self _)) hrun

theorem Legal.called_once (h : Legal (l₁ ++ .armed i t f :: (l₂ ++ .began now :: (l₃ ++ .ended :: l₄))))
    (htouched : Untouched i (l₂ ++ l₃)) (hrun : .ended ∉ l₃) (hdue : t ≤ now)
    (hfirst : ∀ now', .began now' ∈ l₂ → now' < t) :
    callsOf i l₂ = [] ∧ callsOf i l₃ = [f] := by
  have harming : Allowed l₁ (.armed i t f) := h.allowed
  have hbegin : Legal (((l₁ ++ [.armed i t f]) ++ l₂) ++ .began now :: (l₃ ++ .ended :: l₄)) := by
    simpa using h
  obtain ⟨hquiet, harmed, -⟩ := hbegin.of_append.waits (t := t) (f := f)
    (by simp [armedAfter]) (fun now' hnow => harming now' (by simpa [expiryAfter] using hnow))
    htouched.left hfirst
  have hend : Legal (((l₁ ++ [.armed i t f]) ++ l₂ ++ [.began now] ++ l₃) ++ .ended :: l₄) := by
    simpa using h
  obtain ⟨hnow, hstate⟩ := hend.of_append.during (l := (l₁ ++ [.armed i t f]) ++ l₂ ++ [.began now])
    (by rw [armedOf_snoc, harmed]; rfl) (by rw [expiryOf_snoc]; rfl) htouched.right hrun
  refine ⟨hquiet, ?_⟩
  obtain ⟨-, hstill⟩ | ⟨hcalls, -⟩ := hstate
  · obtain ⟨now', hnow', hnone⟩ := hend.allowed
    rw [hnow] at hnow'
    cases hnow'
    exact absurd (hnone i t f hstill) (not_lt.mpr hdue)
  · exact hcalls

omit [LinearOrder T] in
theorem armed_since (h : armedOf i l = some (t, f)) :
    ∃ l₁ l₂, l = l₁ ++ .armed i t f :: l₂ ∧ Untouched i l₂ ∧ callsOf i l₂ = [] := by
  induction l using List.reverseRecOn with
  | nil => cases h
  | append_singleton l e ih =>
    rw [armedOf_snoc] at h
    have hkeep : armedOf i l = some (t, f) → (e ≠ .cancelled i ∧ ∀ t f, e ≠ .armed i t f) →
        callsOf i [e] = [] →
        ∃ l₁ l₂, l ++ [e] = l₁ ++ .armed i t f :: l₂ ∧ Untouched i l₂ ∧ callsOf i l₂ = [] := by
      intro hl he hcall
      obtain ⟨l₁, l₂, rfl, htouched, hcalls⟩ := ih hl
      refine ⟨l₁, l₂ ++ [e], by simp, fun d hd => ?_, by simp [hcalls, hcall]⟩
      obtain hd | hd := mem_append.mp hd
      · exact htouched d hd
      · rw [mem_singleton.mp hd]
        exact he
    cases e with
    | armed j t' g =>
      by_cases hj : j = i
      · subst hj
        simp only [armedAfter, if_true] at h
        cases h
        exact ⟨l, [], rfl, fun d hd => absurd hd not_mem_nil, rfl⟩
      · exact hkeep (by simpa [armedAfter, hj] using h) (by simp [hj]) rfl
    | cancelled j =>
      by_cases hj : j = i
      · simp [armedAfter, hj] at h
      · exact hkeep (by simpa [armedAfter, hj] using h) (by simp [hj]) rfl
    | began now => exact hkeep h (by simp) rfl
    | called j g =>
      by_cases hj : j = i
      · simp [armedAfter, hj] at h
      · exact hkeep (by simpa [armedAfter, hj] using h) (by simp) (by simp [callOf, hj])
    | ended => exact hkeep h (by simp) rfl

theorem Legal.call_due (h : Legal (l ++ .called i f :: m)) :
    ∃ l₁ t l₂ now, l = l₁ ++ .armed i t f :: l₂ ∧ Untouched i l₂ ∧ callsOf i l₂ = [] ∧
      expiryOf l = some now ∧ t ≤ now := by
  obtain ⟨t, now, harmed, hnow, hle⟩ := h.allowed
  obtain ⟨l₁, l₂, hl, htouched, hcalls⟩ := armed_since harmed
  exact ⟨l₁, t, l₂, now, hl, htouched, hcalls, hnow, hle⟩

end Rules

end HardenedMinix.Lib.Deadlines
