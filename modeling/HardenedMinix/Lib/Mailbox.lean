import Mathlib.Data.List.Basic
import Mathlib.Data.List.Count
import Mathlib.Logic.Function.Basic

/-!
# Mailboxes

Messages that wait in boxes, as a list of events. A list that can be replayed loses no message,
doubles none and lets none overtake another that would have been taken as well.
-/

open Function List Option

namespace HardenedMinix.Lib

variable {ι κ β : Type}

/-- Something that happens to the message `m` of `k` in the box `o`. -/
inductive Mail (ι κ β : Type) where
  | put (o : ι) (k : κ) (m : β)
  /-- the first message from somebody `accepts` holds of is taken -/
  | take (o : ι) (accepts : κ → Bool) (k : κ) (m : β)
  | withdraw (o : ι) (k : κ) (m : β)

variable [DecidableEq ι] [DecidableEq κ] [DecidableEq β]

/-- The boxes after one event, if it can happen. -/
def Mail.step (L : ι → List (κ × β)) : Mail ι κ β → Option (ι → List (κ × β))
  | .put o k m => some (update L o (L o ++ [(k, m)]))
  | .take o accepts k m =>
    if (L o).find? (fun x => accepts x.1) = some (k, m) then
      some (update L o ((L o).erase (k, m)))
    else none
  | .withdraw o k m =>
    if (k, m) ∈ L o then some (update L o ((L o).erase (k, m))) else none

def replay (L : ι → List (κ × β)) (es : List (Mail ι κ β)) : Option (ι → List (κ × β)) :=
  es.foldlM Mail.step L

theorem replay_append (L : ι → List (κ × β)) (es es' : List (Mail ι κ β)) :
    replay L (es ++ es') = (replay L es).bind (fun L' => replay L' es') :=
  foldlM_append

variable {L L' : ι → List (κ × β)}

theorem replay_of_append {es es' : List (Mail ι κ β)} (h : replay L (es ++ es') = some L') :
    ∃ L₁, replay L es = some L₁ ∧ replay L₁ es' = some L' := by
  rw [replay_append] at h
  exact bind_eq_some_iff.mp h

/-- The event puts `m` of `k` into `o`. -/
def Mail.isPut (o : ι) (k : κ) (m : β) : Mail ι κ β → Bool
  | .put o' k' m' => decide (o' = o ∧ k' = k ∧ m' = m)
  | _ => false

/-- The event takes `m` of `k` out of `o`. -/
def Mail.isTake (o : ι) (k : κ) (m : β) : Mail ι κ β → Bool
  | .take o' _ k' m' => decide (o' = o ∧ k' = k ∧ m' = m)
  | _ => false

/-- The event withdraws `m` of `k` from `o`. -/
def Mail.isWithdraw (o : ι) (k : κ) (m : β) : Mail ι κ β → Bool
  | .withdraw o' k' m' => decide (o' = o ∧ k' = k ∧ m' = m)
  | _ => false

theorem count_update_erase {L : ι → List (κ × β)} {o o' : ι} {k k' : κ} {m m' : β}
    (hmem : (k', m') ∈ L o') :
    (L o).count (k, m) = (update L o' ((L o').erase (k', m')) o).count (k, m) +
      if o' = o ∧ k' = k ∧ m' = m then 1 else 0 := by
  by_cases ho : o' = o
  · subst ho
    rw [update_self, count_erase]
    by_cases hkm : k' = k ∧ m' = m
    · obtain ⟨rfl, rfl⟩ := hkm
      have := count_pos_iff.mpr hmem
      simp
      omega
    · have hne : ((k', m') == (k, m)) = false := by
        simpa using fun h1 h2 => hkm ⟨h1, h2⟩
      simp [hne, hkm]
  · rw [update_of_ne (Ne.symm ho)]
    simp [ho]

theorem Mail.step_count {ev : Mail ι κ β} (h : ev.step L = some L') (o : ι) (k : κ) (m : β) :
    (L o).count (k, m) + (if ev.isPut o k m then 1 else 0) =
      (L' o).count (k, m) + (if ev.isTake o k m then 1 else 0) +
        if ev.isWithdraw o k m then 1 else 0 := by
  cases ev with
  | put o' k' m' =>
    simp only [Mail.step, some.injEq] at h
    subst h
    simp only [isPut, isTake, isWithdraw, decide_eq_true_eq, Bool.false_eq_true, ↓reduceIte]
    by_cases ho : o' = o
    · subst ho
      rw [update_self, count_append, count_singleton]
      simp
    · rw [update_of_ne (Ne.symm ho)]
      simp [ho]
  | take o' accepts k' m' =>
    simp only [Mail.step, ite_none_right_eq_some, some.injEq] at h
    obtain ⟨hfind, rfl⟩ := h
    have hmem : (k', m') ∈ L o' := mem_of_find?_eq_some hfind
    have := count_update_erase (o := o) (k := k) (m := m) hmem
    simp only [isPut, isTake, isWithdraw, decide_eq_true_eq, Bool.false_eq_true, ↓reduceIte]
    omega
  | withdraw o' k' m' =>
    simp only [Mail.step, ite_none_right_eq_some, some.injEq] at h
    obtain ⟨hmem, rfl⟩ := h
    have := count_update_erase (o := o) (k := k) (m := m) hmem
    simp only [isPut, isTake, isWithdraw, decide_eq_true_eq, Bool.false_eq_true, ↓reduceIte]
    omega

theorem replay_count {es : List (Mail ι κ β)} (h : replay L es = some L') (o : ι) (k : κ) (m : β) :
    (L o).count (k, m) + es.countP (Mail.isPut o k m) =
      (L' o).count (k, m) + es.countP (Mail.isTake o k m) + es.countP (Mail.isWithdraw o k m) := by
  induction es generalizing L with
  | nil =>
    have heq : L = L' := by simpa [replay] using h
    simp [heq]
  | cons ev es ih =>
    obtain ⟨L1, hev, hrest⟩ := bind_eq_some_iff.mp h
    have hstep := Mail.step_count hev o k m
    have hih := ih hrest
    simp only [countP_cons]
    omega

theorem map_fst_erase {l : List (κ × β)} {k : κ} {m : β} (hnd : (l.map Prod.fst).Nodup)
    (hmem : (k, m) ∈ l) : (l.erase (k, m)).map Prod.fst = (l.map Prod.fst).erase k := by
  induction l with
  | nil => simp at hmem
  | cons x l ih =>
    rw [map_cons, nodup_cons] at hnd
    by_cases hx : x = (k, m)
    · subst hx
      simp
    have htail : (k, m) ∈ l := (mem_cons.mp hmem).resolve_left (Ne.symm hx)
    -- the sender of `x` is another one, as that of the message sought comes later
    have hne : x.1 ≠ k := by
      rintro rfl
      exact hnd.1 (List.mem_map.mpr ⟨(x.1, m), htail, rfl⟩)
    rw [erase_cons_tail (by simpa using hx), map_cons, ih hnd.2 htail, map_cons,
      erase_cons_tail (by simpa using hne)]

omit [DecidableEq κ] [DecidableEq β] in
theorem find?_of_keys {l : List (κ × β)} {pre suf : List κ} {k : κ} {accepts : κ → Bool}
    (hl : l.map Prod.fst = pre ++ k :: suf) (hpre : ∀ a ∈ pre, accepts a = false)
    (hk : accepts k = true) : ∃ m, (k, m) ∈ l ∧ l.find? (fun x => accepts x.1) = some (k, m) := by
  have hfind : (l.map Prod.fst).find? accepts = some k := by
    rw [hl]
    refine List.find?_eq_some_iff_append.mpr ⟨hk, pre, suf, rfl, fun a ha => ?_⟩
    simp [hpre a ha]
  rw [List.find?_map, map_eq_some_iff] at hfind
  obtain ⟨⟨k', m⟩, hx, rfl⟩ := hfind
  exact ⟨m, mem_of_find?_eq_some hx, hx⟩

end HardenedMinix.Lib
