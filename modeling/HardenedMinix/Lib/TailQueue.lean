import HardenedMinix.Lib.Queue

/-!
# Queues with a pointer to the last record

A queue kept by two pointers. A record is put at either end without a walk; taking one off walks
from the first record to it.
-/

open Function List

namespace HardenedMinix.Lib

open Linked

variable {α : Type} {n : Nat} [Linked α n]

/-- `l` is what lies between the two pointers. -/
structure TailQueue (t : Table α n) (head tail : Option (Fin n)) (l : List (Fin n)) : Prop where
  chain : Chain t head l
  last : tail = l.getLast?

/-- `if (!head) head = tail = r; else { tail->link = r; tail = r; } r->link = NULL;`, where
`none` is the use of a null `tail`. -/
def pushLast (t : Table α n) (head tail : Option (Fin n)) (r : Fin n) :
    Option (Table α n × Option (Fin n) × Option (Fin n)) :=
  match head, tail with
  | none, _ => some (update t r (setNext (t r) none), some r, some r)
  | some _, none => none
  | some i, some j =>
    let t₁ := update t j (setNext (t j) (some r))
    some (update t₁ r (setNext (t₁ r) none), some i, some r)

/-- `if (!head) { head = tail = r; r->link = NULL; } else { r->link = head; head = r; }` -/
def pushFirst (t : Table α n) (head tail : Option (Fin n)) (r : Fin n) :
    Table α n × Option (Fin n) × Option (Fin n) :=
  match head with
  | none => (update t r (setNext (t r) none), some r, some r)
  | some i => (update t r (setNext (t r) (some i)), some r, tail)

/-- `while (*xpp) { if (*xpp == r) { *xpp = (*xpp)->link; if (r == tail) tail = prev; break; }
prev = *xpp; xpp = &(*xpp)->link; }` -/
def removeFrom (t : Table α n) (head tail : Option (Fin n)) (r : Fin n) :
    Option (Table α n × Option (Fin n) × Option (Fin n)) :=
  match walkTo t (fun i => decide (i = r)) n none head with
  | none => none
  | some none => some (t, head, tail)
  | some (some (none, i)) => some (t, next (t i), if some i = tail then none else tail)
  | some (some (some j, i)) =>
    some (update t j (setNext (t j) (next (t i))), head,
      if some i = tail then some j else tail)

/-! ## Specifications -/

def SameButLinks (t t' : Table α n) : Prop := ∀ j, ∃ o, t' j = setNext (t j) o

theorem SameButLinks.refl (t : Table α n) : SameButLinks t t :=
  fun j => ⟨next (t j), (setNext_next _).symm⟩

theorem SameButLinks.update (t : Table α n) (i : Fin n) (o : Option (Fin n)) :
    SameButLinks t (update t i (setNext (t i) o)) := by
  intro j
  by_cases hj : j = i
  · subst hj
    exact ⟨o, update_self _ _ _⟩
  · refine ⟨next (t j), ?_⟩
    rw [update_of_ne hj, setNext_next]

variable {t : Table α n} {head tail : Option (Fin n)} {l : List (Fin n)} {r : Fin n}

theorem Chain.of_update {a : α} {o : Option (Fin n)} (h : Chain t o l) (hr : r ∉ l) :
    Chain (update t r a) o l := by
  apply h.congr
  intro j hj
  have hne : j ≠ r := fun heq => hr (heq ▸ hj)
  rw [update_of_ne hne]

theorem pushLast_spec (h : TailQueue t head tail l) (hr : r ∉ l) :
    ∃ t' head' tail', pushLast t head tail r = some (t', head', tail') ∧
      TailQueue t' head' tail' (l ++ [r]) ∧ SameButLinks t t' ∧
      ∀ j, j ∉ l → j ≠ r → t' j = t j := by
  cases l with
  | nil =>
    obtain rfl := h.chain.eq_none_of_nil
    refine ⟨_, _, _, rfl, ⟨.cons ?_, rfl⟩, .update t r none, ?_⟩
    · rw [update_self, next_setNext]
      exact .nil
    · intro j _ hj
      exact update_of_ne hj _ _
  | cons i l =>
    obtain ⟨rfl, _⟩ := h.chain.start_of_cons
    have hne : i :: l ≠ [] := cons_ne_nil i l
    have htail : tail = some ((i :: l).getLast hne) := by
      rw [h.last]
      exact List.getLast?_eq_some_getLast hne
    have hmem : (i :: l).getLast hne ∈ i :: l := getLast_mem hne
    generalize hlast : (i :: l).getLast hne = last at htail hmem
    have hrl : r ≠ last := fun heq => hr (heq ▸ hmem)
    subst htail
    -- first the link of `r` is cleared, then the last record is made to point at it
    have hclear := h.chain.of_update (a := setNext (t r) none) hr
    have hsnoc := hclear.snoc hne hr (by rw [update_self, next_setNext])
    rw [hlast, update_of_ne (Ne.symm hrl), update_comm hrl] at hsnoc
    refine ⟨_, _, _, rfl, ⟨?_, ?_⟩, ?_, ?_⟩
    · simpa only [update_of_ne hrl] using hsnoc
    · rw [List.getLast?_concat]
    · intro j
      by_cases hj : j = r
      · subst hj
        exact ⟨none, by simp only [update_self, update_of_ne hrl]⟩
      · obtain ⟨o, ho⟩ := SameButLinks.update t last (some r) j
        exact ⟨o, by rw [update_of_ne hj, ho]⟩
    · intro j hj hjr
      have hjl : j ≠ last := fun heq => hj (heq ▸ hmem)
      rw [update_of_ne hjr, update_of_ne hjl]

theorem pushFirst_spec (h : TailQueue t head tail l) (hr : r ∉ l) :
    TailQueue (pushFirst t head tail r).1 (pushFirst t head tail r).2.1
        (pushFirst t head tail r).2.2 (r :: l) ∧
      SameButLinks t (pushFirst t head tail r).1 ∧
      ∀ j, j ≠ r → (pushFirst t head tail r).1 j = t j := by
  cases l with
  | nil =>
    obtain rfl := h.chain.eq_none_of_nil
    refine ⟨⟨.cons ?_, rfl⟩, .update t r none, ?_⟩
    · simp only [pushFirst, update_self, next_setNext]
      exact .nil
    · intro j hj
      exact update_of_ne hj _ _
  | cons i l =>
    obtain ⟨rfl, _⟩ := h.chain.start_of_cons
    refine ⟨⟨.cons ?_, ?_⟩, .update t r (some i), ?_⟩
    · simp only [pushFirst, update_self, next_setNext]
      exact h.chain.of_update hr
    · simpa [pushFirst, List.getLast?_cons_cons] using h.last
    · intro j hj
      exact update_of_ne hj _ _

theorem removeFrom_spec (h : TailQueue t head tail l) (r : Fin n) :
    ∃ t' head' tail', removeFrom t head tail r = some (t', head', tail') ∧
      TailQueue t' head' tail' (l.erase r) ∧ SameButLinks t t' ∧
      ∀ j, j ∉ l → t' j = t j := by
  by_cases hmem : r ∈ l
  case neg =>
    have hwalk : walkTo t (fun i => decide (i = r)) n none head = some none := by
      apply walkTo_none_of_chain h.chain h.chain.length_le
      intro i hi
      exact decide_eq_false fun heq => hmem (heq ▸ hi)
    refine ⟨t, head, tail, ?_, ?_, .refl t, fun _ _ => rfl⟩
    · simp only [removeFrom, hwalk]
    · rw [erase_of_not_mem hmem]
      exact h
  case pos =>
    obtain ⟨pre, suf, rfl⟩ := append_of_mem hmem
    have hnd := h.chain.nodup
    have hpre : r ∉ pre := by
      intro hr
      exact disjoint_of_nodup_append hnd hr mem_cons_self
    have hsuf : r ∉ suf := by
      have := (nodup_append.mp hnd).2.1
      exact (nodup_cons.mp this).1
    have herase : (pre ++ r :: suf).erase r = pre ++ suf := by
      rw [erase_append_right _ hpre, erase_cons_head]
    have hlen : pre.length < n := by
      have := h.chain.length_le
      simp only [length_append, length_cons] at this
      omega
    have hwalk : walkTo t (fun i => decide (i = r)) n none head =
        some (some (pre.getLast?.or none, r)) := by
      apply walkTo_of_chain none h.chain _ (decide_eq_true rfl) hlen
      intro i hi
      exact decide_eq_false fun heq => hpre (heq ▸ hi)
    -- `r` is the last record exactly if nothing comes after it
    have htail : ∀ prev, pre.getLast? = prev →
        (if some r = tail then prev else tail) = (pre ++ suf).getLast? := by
      intro prev hprev
      rw [h.last]
      cases suf with
      | nil => simp [hprev]
      | cons k suf =>
        have hk : (k :: suf).getLast (cons_ne_nil k suf) ≠ r :=
          fun heq => hsuf (heq ▸ getLast_mem _)
        simp only [List.getLast?_append, List.getLast?_cons_cons]
        rw [List.getLast?_eq_some_getLast (cons_ne_nil k suf)]
        simp only [Option.some_or, Option.some.injEq]
        exact if_neg (Ne.symm hk)
    rw [herase]
    cases hlast : pre.getLast? with
    | none =>
      obtain rfl := List.getLast?_eq_none_iff.mp hlast
      refine ⟨t, next (t r), _, ?_, ⟨h.chain.start_of_cons.2, htail none hlast⟩, .refl t,
        fun _ _ => rfl⟩
      rw [removeFrom, hwalk]
      rfl
    | some j =>
      have hne : pre ≠ [] := by
        intro hnil
        rw [hnil] at hlast
        cases hlast
      have hj : pre.getLast hne = j := by
        rw [List.getLast?_eq_some_getLast hne] at hlast
        exact Option.some.inj hlast
      have hbypass := h.chain.bypass (t r) hne
      rw [update_eq_self, hj] at hbypass
      refine ⟨_, head, _, ?_, ⟨hbypass, htail (some j) hlast⟩, .update t j _, ?_⟩
      · rw [removeFrom, hwalk, hlast]
        rfl
      intro k hk
      have hkj : k ≠ j := by
        rintro rfl
        exact hk (mem_append_left _ (hj ▸ getLast_mem hne))
      exact update_of_ne hkj _ _

end HardenedMinix.Lib
