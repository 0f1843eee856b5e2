import HardenedMinix.Lib.Pool

/-!
# Lists of several owners in one table

Each owner has a list of records of a shared table, and the records on no list are the free ones.
`Owned` ties first pointers and marks to the lists.
-/

open List

namespace HardenedMinix.Lib

open Linked

variable {α ι : Type} {n : Nat} [Linked α n]

/-- Each first pointer starts a chain along its list, no record is on two, and a record is marked
free if it is on none (the last slot apart) and only then. -/
structure Owned (t : Table α n) (first : ι → Option (Fin n)) (L : ι → List (Fin n)) : Prop where
  chain : ∀ o, Chain t (first o) (L o)
  disjoint : ∀ {o o' : ι}, o ≠ o' → ∀ i ∈ L o, i ∉ L o'
  used : ∀ o, ∀ i ∈ L o, free (t i) = false
  marked : ∀ i : Fin n, i.val + 1 < n → (∀ o, i ∉ L o) → free (t i) = true

def freeCount (t : Table α n) : Nat := (Finset.univ.filter (fun i => free (t i) = true)).card

/-- The last slot, which the end mark of the search names, is marked free or on a list. -/
def LastKnown (t : Table α n) (L : ι → List (Fin n)) : Prop :=
  ∃ i : Fin n, i.val + 1 = n ∧ (free (t i) = true ∨ ∃ o, i ∈ L o)

namespace Owned

variable {t t' : Table α n} {first : ι → Option (Fin n)} {L : ι → List (Fin n)} {o : ι}
  {i : Fin n}

theorem congr (h : Owned t first L) (hnext : ∀ i, next (t' i) = next (t i))
    (hfree : ∀ i, free (t' i) = free (t i)) : Owned t' first L where
  chain o := (h.chain o).congr (fun i _ => hnext i)
  disjoint := h.disjoint
  used o i hi := by rw [hfree i]; exact h.used o i hi
  marked i hi hnot := by rw [hfree i]; exact h.marked i hi hnot

theorem update (h : Owned t first L) {a : α} (hnext : next a = next (t i))
    (hfree : free a = free (t i)) : Owned (Function.update t i a) first L := by
  refine h.congr (fun j => ?_) (fun j => ?_) <;> by_cases hj : j = i
  · rw [hj, Function.update_self, hnext]
  · rw [Function.update_of_ne hj]
  · rw [hj, Function.update_self, hfree]
  · rw [Function.update_of_ne hj]

theorem first_eq (h : Owned t first L) (o : ι) : first o = (L o).head? := (h.chain o).start_eq_head?

theorem nodup (h : Owned t first L) (o : ι) : (L o).Nodup := (h.chain o).nodup

theorem next_eq (h : Owned t first L) (pre : List (Fin n)) {suf : List (Fin n)}
    (hl : L o = pre ++ i :: suf) :
    next (t i) = suf.head? := by
  have hc := h.chain o
  rw [hl] at hc
  obtain ⟨o', hc'⟩ := hc.of_append
  exact hc'.start_of_cons.2.start_eq_head?

/-! ## Allocation -/

theorem getSlot_unlisted (h : Owned t first L) (P : Pool α n) (hex : ∃ j, ∀ o, j ∉ L o) :
    ∃ i, P.getSlot t = some (Function.update t i (P.reset (t i)), i) ∧ ∀ o, i ∉ L o := by
  obtain ⟨j, hj⟩ := hex
  by_cases hmark : ∃ k, free (t k) = true
  · obtain ⟨k, hk⟩ := hmark
    obtain ⟨i, hget, hi⟩ := P.getSlot_free hk
    refine ⟨i, hget, fun o hmem => ?_⟩
    rw [h.used o i hmem] at hi
    exact absurd hi (by simp)
  -- nothing is marked, so `j` is the last slot, which is what the search ends with
  push Not at hmark
  obtain ⟨i, hget, hi⟩ := P.getSlot_last (t := t) (by simpa using hmark)
  have hlast : ¬ j.val + 1 < n := fun hlt => hmark j (h.marked j hlt hj)
  have hij : i = j := Fin.ext (by have := j.isLt; have := P.two_le; omega)
  exact ⟨i, hget, hij ▸ hj⟩

theorem exists_unlisted [Fintype ι] (hlt : ∑ o, (L o).length < n) : ∃ j, ∀ o, j ∉ L o := by
  by_contra hall
  push Not at hall
  have hsub : (Finset.univ : Finset (Fin n)) ⊆
      Finset.univ.biUnion (fun o => (L o).toFinset) := by
    intro j _
    obtain ⟨o, ho⟩ := hall j
    simp only [Finset.mem_biUnion, Finset.mem_univ, true_and, List.mem_toFinset]
    exact ⟨o, ho⟩
  have hcard := Finset.card_le_card hsub
  have hsum : (Finset.univ.biUnion (fun o => (L o).toFinset)).card ≤ ∑ o, (L o).length :=
    Finset.card_biUnion_le.trans
      (Finset.sum_le_sum (fun o _ => toFinset_card_le (L o)))
  rw [Finset.card_univ, Fintype.card_fin] at hcard
  omega

theorem card_listed [Fintype ι] [DecidableEq ι] (h : Owned t first L) :
    (Finset.univ.biUnion (fun o => (L o).toFinset)).card = ∑ o, (L o).length := by
  rw [Finset.card_biUnion]
  · exact Finset.sum_congr rfl (fun o _ => toFinset_card_of_nodup (h.nodup o))
  intro o _ o' _ hne
  rw [Function.onFun, Finset.disjoint_left]
  intro i hi hi'
  rw [List.mem_toFinset] at hi hi'
  exact h.disjoint hne i hi hi'

theorem freeCount_add_length_eq_iff [Fintype ι] [DecidableEq ι] (h : Owned t first L)
    (hn : 0 < n) : freeCount t + ∑ o, (L o).length = n ↔ LastKnown t L := by
  have hdisj : Disjoint (Finset.univ.filter (fun i => free (t i) = true))
      (Finset.univ.biUnion (fun o => (L o).toFinset)) := by
    rw [Finset.disjoint_left]
    intro i hi hi'
    simp only [Finset.mem_filter, Finset.mem_univ, true_and, Finset.mem_biUnion,
      List.mem_toFinset] at hi hi'
    obtain ⟨o, ho⟩ := hi'
    rw [h.used o i ho] at hi
    exact absurd hi (by simp)
  rw [freeCount, ← h.card_listed, ← Finset.card_union_of_disjoint hdisj]
  constructor
  · intro hcard
    have huniv : Finset.univ.filter (fun i => free (t i) = true) ∪
        Finset.univ.biUnion (fun o => (L o).toFinset) = Finset.univ :=
      Finset.eq_univ_of_card _ (by rw [hcard, Fintype.card_fin])
    have hlast := Finset.mem_univ (⟨n - 1, by omega⟩ : Fin n)
    rw [← huniv] at hlast
    refine ⟨⟨n - 1, by omega⟩, by simp only; omega, ?_⟩
    simpa using hlast
  rintro ⟨l, hl, hknown⟩
  have huniv : Finset.univ.filter (fun i => free (t i) = true) ∪
      Finset.univ.biUnion (fun o => (L o).toFinset) = Finset.univ := by
    refine Finset.eq_univ_iff_forall.mpr (fun i => ?_)
    simp only [Finset.mem_union, Finset.mem_filter, Finset.mem_univ, true_and,
      Finset.mem_biUnion, List.mem_toFinset]
    by_cases hi : i.val + 1 < n
    · by_cases hlist : ∃ o, i ∈ L o
      · exact .inr hlist
      · exact .inl (h.marked i hi (fun o ho => hlist ⟨o, ho⟩))
    · have heq : i = l := Fin.ext (by have := i.isLt; omega)
      rw [heq]
      exact hknown
  rw [huniv, Finset.card_univ, Fintype.card_fin]

variable [DecidableEq ι]

theorem lastKnown_release (hfreed : ∀ i ∈ L o, free (t' i) = true)
    (hkept : ∀ i, i ∉ L o → free (t' i) = free (t i)) :
    LastKnown t' (Function.update L o []) ↔ LastKnown t L := by
  constructor
  · rintro ⟨l, hl, hknown⟩
    refine ⟨l, hl, ?_⟩
    by_cases hmem : l ∈ L o
    · exact .inr ⟨o, hmem⟩
    rcases hknown with hfree | ⟨o', ho'⟩
    · exact .inl (by rw [← hkept l hmem]; exact hfree)
    by_cases heq : o' = o
    · subst heq
      simp at ho'
    · rw [Function.update_of_ne heq] at ho'
      exact .inr ⟨o', ho'⟩
  rintro ⟨l, hl, hknown⟩
  refine ⟨l, hl, ?_⟩
  by_cases hmem : l ∈ L o
  · exact .inl (hfreed l hmem)
  · rcases hknown with hfree | ⟨o', ho'⟩
    · exact .inl (by rw [hkept l hmem]; exact hfree)
    · have hne : o' ≠ o := fun heq => hmem (heq ▸ ho')
      exact .inr ⟨o', by rwa [Function.update_of_ne hne]⟩

theorem sum_length_update [Fintype ι] (L : ι → List (Fin n)) (o : ι) (l : List (Fin n)) :
    ∑ o', (Function.update L o l o').length + (L o).length = ∑ o', (L o').length + l.length := by
  have hfun : (fun o' => (Function.update L o l o').length) =
      Function.update (fun o' => (L o').length) o l.length := by
    funext o'
    by_cases ho : o' = o
    · subst ho
      simp
    · simp [ho]
  rw [hfun, Finset.sum_update_of_mem (Finset.mem_univ o),
    Finset.sum_eq_add_sum_sdiff_singleton_of_mem (Finset.mem_univ o) (fun o' => (L o').length)]
  omega

/-- A record on no list, written with a null link and unmarked, is appended to the list of
one owner. -/
theorem insert (h : Owned t first L) {a : α} (hi : ∀ o, i ∉ L o) (hnext : next a = none)
    (hfree : free a = false) :
    ∃ t' f', insertLast (Function.update t i a) (first o) (L o).length i = some (t', f') ∧
      Owned t' (Function.update first o f') (Function.update L o (L o ++ [i])) ∧
      ∀ j, ∃ x, t' j = setNext (Function.update t i a j) x := by
  have hne : ∀ o, ∀ j ∈ L o, j ≠ i := fun o j hj heq => hi o (heq ▸ hj)
  have hchain : ∀ o, Chain (Function.update t i a) (first o) (L o) := fun o =>
    (h.chain o).congr (fun j hj => by rw [Function.update_of_ne (hne o j hj)])
  obtain ⟨t', f', hins, hc', hframe, hset⟩ :=
    insertLast_spec (hchain o) (hi o) (by rw [Function.update_self]; exact hnext)
  have hfree' : ∀ j, free (t' j) = free (Function.update t i a j) := by
    intro j
    obtain ⟨x, hx⟩ := hset j
    rw [hx, free_setNext]
  refine ⟨t', f', hins, ⟨?_, ?_, ?_, ?_⟩, hset⟩
  · intro o'
    by_cases ho : o' = o
    · subst ho
      simpa using hc'
    · simp only [Function.update_of_ne ho]
      refine (hchain o').congr (fun j hj => ?_)
      rw [hframe j (h.disjoint ho j hj)]
  · intro o1 o2 hne' j hj
    by_cases ho1 : o1 = o
    · subst ho1
      rw [Function.update_of_ne (Ne.symm hne')]
      simp only [Function.update_self, mem_append, mem_singleton] at hj
      rcases hj with hj | rfl
      · exact h.disjoint hne' j hj
      · exact hi o2
    rw [Function.update_of_ne ho1] at hj
    by_cases ho2 : o2 = o
    · subst ho2
      simp only [Function.update_self, mem_append, mem_singleton, not_or]
      exact ⟨h.disjoint hne' j hj, hne o1 j hj⟩
    · rw [Function.update_of_ne ho2]
      exact h.disjoint hne' j hj
  · intro o' j hj
    rw [hfree' j]
    by_cases hji : j = i
    · subst hji
      simpa using hfree
    rw [Function.update_of_ne hji]
    by_cases ho : o' = o
    · subst ho
      simp only [Function.update_self, mem_append, mem_singleton, hji, or_false] at hj
      exact h.used o' j hj
    · rw [Function.update_of_ne ho] at hj
      exact h.used o' j hj
  intro j hj hnot
  have hji : j ≠ i := by
    rintro rfl
    exact hnot o (by simp)
  rw [hfree' j, Function.update_of_ne hji]
  refine h.marked j hj (fun o' hmem => hnot o' ?_)
  by_cases ho : o' = o
  · subst ho
    simp [hmem]
  · rwa [Function.update_of_ne ho]

theorem unlink_first (h : Owned t first L) (pred : α → Bool) (clear : α → α)
    {pre suf : List (Fin n)} (hl : L o = pre ++ i :: suf)
    (hpre : ∀ k ∈ pre, pred (t k) = false) (hi : pred (t i) = true)
    (hnext : ∀ a, next (clear a) = next a) (hfree : ∀ a, free (clear a) = true) :
    ∃ t' f', unlink t pred clear (first o) = some (t', f') ∧
      Owned t' (Function.update first o f') (Function.update L o (pre ++ suf)) ∧
      t' i = clear (t i) ∧ (∀ j, j ≠ i → ∃ x, t' j = setNext (t j) x) := by
  have hc := h.chain o
  rw [hl] at hc
  have hnd := hc.nodup
  have hmem : ∀ j, j ∈ pre ++ suf → j ∈ L o ∧ j ≠ i := by
    intro j hj
    refine ⟨by rw [hl]; simp only [mem_append, mem_cons] at hj ⊢; tauto, ?_⟩
    rintro rfl
    have := (nodup_middle.mp hnd)
    exact (nodup_cons.mp this).1 hj
  obtain ⟨t', f', hun, hc', hti, hframe, hset⟩ := unlink_spec hc hpre hi hnext
  rw [← hl] at hframe
  refine ⟨t', f', hun, ⟨?_, ?_, ?_, ?_⟩, hti, hset⟩
  · intro o'
    by_cases ho : o' = o
    · subst ho
      simpa using hc'
    · simp only [Function.update_of_ne ho]
      refine (h.chain o').congr (fun j hj => ?_)
      rw [hframe j (h.disjoint ho j hj)]
  · intro o1 o2 hne j hj
    have hj' : j ∈ L o1 := by
      by_cases ho1 : o1 = o
      · subst ho1
        rw [Function.update_self] at hj
        exact (hmem j hj).1
      · rwa [Function.update_of_ne ho1] at hj
    have hnot := h.disjoint hne j hj'
    by_cases ho2 : o2 = o
    · subst ho2
      rw [Function.update_self]
      exact fun hj2 => hnot (hmem j hj2).1
    · rwa [Function.update_of_ne ho2]
  · intro o' j hj
    have hj' : j ∈ L o' ∧ j ≠ i := by
      by_cases ho : o' = o
      · subst ho
        rw [Function.update_self] at hj
        exact hmem j hj
      · rw [Function.update_of_ne ho] at hj
        refine ⟨hj, ?_⟩
        rintro rfl
        exact h.disjoint ho j hj (by rw [hl]; simp)
    obtain ⟨x, hx⟩ := hset j hj'.2
    rw [hx, free_setNext]
    exact h.used o' j hj'.1
  intro j hj hnot
  by_cases hji : j = i
  · subst hji
    rw [hti, hfree]
  obtain ⟨x, hx⟩ := hset j hji
  rw [hx, free_setNext]
  refine h.marked j hj (fun o' hmem' => hnot o' ?_)
  by_cases ho : o' = o
  · subst ho
    rw [hl] at hmem'
    simp only [Function.update_self]
    simp only [mem_append, mem_cons, hji, false_or] at hmem' ⊢
    exact hmem'
  · rwa [Function.update_of_ne ho]

end Owned

end HardenedMinix.Lib
