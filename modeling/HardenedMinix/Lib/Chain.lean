import Mathlib

/-!
# Linked chains in a fixed table

Records of a table of fixed size carry a free mark and the index of the next record of their list.
The walks (follow, search, append, unlink) are related to the list of indices a chain visits.
-/

open Function List

namespace HardenedMinix.Lib

/-- A table of `n` records. -/
abbrev Table (α : Type) (n : Nat) := Fin n → α

/-- A record that can be linked into lists of a table of size `n`. -/
class Linked (α : Type) (n : outParam Nat) where
  /-- The successor on the list. -/
  next : α → Option (Fin n)
  /-- Overwrite the successor. -/
  setNext : α → Option (Fin n) → α
  /-- The record is marked free. -/
  free : α → Bool
  next_setNext : ∀ a o, next (setNext a o) = o
  free_setNext : ∀ a o, free (setNext a o) = free a
  setNext_next : ∀ a, setNext a (next a) = a

attribute [simp] Linked.next_setNext Linked.free_setNext Linked.setNext_next

open Linked

variable {α : Type} {n : Nat} [Linked α n]

/-! ## Chains -/

/-- Starting from `o` and following `next`, the records visited are `l`, and the walk ends at a null
link. -/
inductive Chain (t : Table α n) : Option (Fin n) → List (Fin n) → Prop where
  | nil : Chain t none []
  | cons {i : Fin n} {l : List (Fin n)} :
      Chain t (next (t i)) l → Chain t (some i) (i :: l)

namespace Chain

variable {t t' : Table α n} {o : Option (Fin n)} {l l' : List (Fin n)} {i j : Fin n}

theorem nil_inv (h : Chain t none l) : l = [] := by
  cases h; rfl

theorem cons_inv (h : Chain t (some i) l) : ∃ l', l = i :: l' ∧ Chain t (next (t i)) l' := by
  cases h with
  | cons h' => exact ⟨_, rfl, h'⟩

theorem eq_none_of_nil (h : Chain t o []) : o = none := by
  cases h; rfl

theorem start_of_cons (h : Chain t o (i :: l)) : o = some i ∧ Chain t (next (t i)) l := by
  cases h with
  | cons h' => exact ⟨rfl, h'⟩

theorem unique (h : Chain t o l) (h' : Chain t o l') : l = l' := by
  induction h generalizing l' with
  | nil => exact (nil_inv h').symm
  | cons _ ih =>
    obtain ⟨m, rfl, hm⟩ := cons_inv h'
    rw [ih hm]

theorem suffix_of_mem (h : Chain t o l) (hi : i ∈ l) :
    ∃ pre suf, l = pre ++ i :: suf ∧ Chain t (some i) (i :: suf) := by
  induction h with
  | nil => simp at hi
  | @cons k l hk ih =>
    rcases mem_cons.mp hi with rfl | hmem
    · exact ⟨[], l, rfl, .cons hk⟩
    · obtain ⟨pre, suf, rfl, hsuf⟩ := ih hmem
      exact ⟨k :: pre, suf, rfl, hsuf⟩

theorem of_append : ∀ {pre : List (Fin n)} {o : Option (Fin n)}, Chain t o (pre ++ l) →
    ∃ o', Chain t o' l := by
  intro pre
  induction pre with
  | nil => intro o h; exact ⟨o, h⟩
  | cons k pre ih => intro o h; exact ih h.start_of_cons.2

theorem start_eq_head? (h : Chain t o l) : o = l.head? := by
  cases h <;> rfl

theorem nodup (h : Chain t o l) : l.Nodup := by
  induction h with
  | nil => exact nodup_nil
  | @cons k l hk ih =>
    refine nodup_cons.mpr ⟨fun hmem => ?_, ih⟩
    -- a second visit would start a chain both as long as and longer than this one
    obtain ⟨pre, suf, hl, hsuf⟩ := suffix_of_mem hk hmem
    have heq : k :: suf = k :: l := unique hsuf (.cons hk)
    have hlen := congrArg List.length heq
    rw [hl] at hlen
    simp at hlen
    omega

theorem length_le (h : Chain t o l) : l.length ≤ n := by
  have := h.nodup.length_le_card
  simpa using this

theorem same_start {pre suf : List (Fin n)} (h : Chain t o (pre ++ i :: suf)) (h' : Chain t' o l)
    (hn : ∀ k ∈ pre, next (t' k) = next (t k)) :
    ∃ suf', l = pre ++ i :: suf' ∧ Chain t' (next (t' i)) suf' := by
  induction pre generalizing o l with
  | nil =>
    obtain ⟨rfl, -⟩ := h.start_of_cons
    obtain ⟨suf', rfl, hrest⟩ := cons_inv h'
    exact ⟨suf', rfl, hrest⟩
  | cons k pre ih =>
    obtain ⟨rfl, hrest⟩ := h.start_of_cons
    obtain ⟨l', rfl, hl'⟩ := cons_inv h'
    rw [hn k mem_cons_self] at hl'
    obtain ⟨suf', rfl, hsuf⟩ := ih hrest hl' fun j hj => hn j (mem_cons_of_mem _ hj)
    exact ⟨suf', rfl, hsuf⟩

theorem congr (h : Chain t o l) (hn : ∀ i ∈ l, next (t' i) = next (t i)) : Chain t' o l := by
  induction h with
  | nil => exact .nil
  | @cons k l _ ih =>
    refine .cons ?_
    rw [hn k mem_cons_self]
    exact ih (fun i hi => hn i (mem_cons_of_mem _ hi))

end Chain

/-! ## Walking a chain -/

/-- The records visited by `while (r) { ...; r = r->next; }`, with a bound on the number
of turns. -/
def follow (t : Table α n) : Nat → Option (Fin n) → List (Fin n)
  | 0, _ => []
  | _ + 1, none => []
  | fuel + 1, some i => i :: follow t fuel (next (t i))

variable {t : Table α n} {o : Option (Fin n)} {l : List (Fin n)} {first : Option (Fin n)}
  {pred : α → Bool}

theorem follow_eq_of_chain
    (h : Chain t o l) : ∀ {fuel : Nat}, l.length ≤ fuel → follow t fuel o = l := by
  induction h with
  | nil =>
    intro fuel _
    cases fuel <;> rfl
  | @cons i l _ ih =>
    intro fuel hf
    cases fuel with
    | zero => simp at hf
    | succ fuel =>
      simp only [length_cons, Nat.add_le_add_iff_right] at hf
      simp only [follow, ih hf]

theorem Chain.follow_eq (h : Chain t o l) : follow t n o = l := follow_eq_of_chain h h.length_le

/-- `while (r) { if (pred(r)) return r; r = r->next; }`. -/
def search (t : Table α n) (pred : α → Bool) (fuel : Nat) (o : Option (Fin n)) :
    Option (Fin n) :=
  (follow t fuel o).find? (fun i => pred (t i))

theorem search_eq_of_chain (h : Chain t o l) (pred : α → Bool) :
    search t pred n o = l.find? (fun i => pred (t i)) := by
  rw [search, h.follow_eq]

/-! ## Appending a record -/

/-- `while (r->next) r = r->next;`. -/
def lastFrom (t : Table α n) : Nat → Fin n → Fin n
  | 0, i => i
  | fuel + 1, i =>
    match next (t i) with
    | none => i
    | some j => lastFrom t fuel j

theorem lastFrom_of_chain :
    ∀ {fuel : Nat} {i : Fin n}, Chain t (some i) (i :: l) → l.length ≤ fuel →
      lastFrom t fuel i = (i :: l).getLast (cons_ne_nil i l) := by
  induction l with
  | nil =>
    intro fuel i h _
    have hnone : next (t i) = none := h.start_of_cons.2.eq_none_of_nil
    cases fuel <;> simp [lastFrom, hnone]
  | cons j l ih =>
    intro fuel i h hf
    have htail := h.start_of_cons.2
    have hnext : next (t i) = some j := htail.start_of_cons.1
    cases fuel with
    | zero => simp at hf
    | succ fuel =>
      have hrec := ih (hnext ▸ htail) (by simpa using hf)
      simpa [lastFrom, hnext] using hrec

/-- `if (!size) first = r; else { walk to the last record; last->next = r; r->next = NULL; }`.
`none` is the dereference of a null `first`. -/
def insertLast (t : Table α n) (first : Option (Fin n)) (size : Nat) (r : Fin n) :
    Option (Table α n × Option (Fin n)) :=
  if size = 0 then some (t, some r)
  else
    match first with
    | none => none
    | some i =>
      let last := lastFrom t n i
      let t₁ := update t last (setNext (t last) (some r))
      some (update t₁ r (setNext (t₁ r) none), some i)

theorem Chain.snoc {r : Fin n} :
    ∀ {o : Option (Fin n)} (_ : Chain t o l) (hne : l ≠ []), r ∉ l → next (t r) = none →
      Chain (update t (l.getLast hne) (setNext (t (l.getLast hne)) (some r)))
        o (l ++ [r]) := by
  induction l with
  | nil =>
    intro o _ hne
    exact absurd rfl hne
  | cons i l ih =>
    intro o h hne hr hnone
    obtain ⟨rfl, htail⟩ := h.start_of_cons
    have hri : r ≠ i := fun hri => hr (hri ▸ mem_cons_self)
    cases l with
    | nil =>
      refine .cons ?_
      simp only [getLast_singleton, update_self, next_setNext]
      refine .cons ?_
      rw [update_of_ne hri, hnone]
      exact .nil
    | cons j l =>
      have hlast : (i :: j :: l).getLast hne = (j :: l).getLast (cons_ne_nil j l) :=
        getLast_cons (cons_ne_nil j l)
      have hnd : i ∉ j :: l := (nodup_cons.mp h.nodup).1
      have hil : i ≠ (j :: l).getLast (cons_ne_nil j l) := fun heq => hnd (heq ▸ getLast_mem _)
      refine .cons ?_
      rw [hlast, update_of_ne hil]
      exact ih htail (cons_ne_nil j l) (fun hmem => hr (mem_cons_of_mem _ hmem)) hnone

theorem insertLast_spec {r : Fin n} (h : Chain t first l) (hr : r ∉ l) (hnone : next (t r) = none) :
    ∃ t' first', insertLast t first l.length r = some (t', first') ∧ Chain t' first' (l ++ [r]) ∧
      (∀ j, j ∉ l → t' j = t j) ∧
      (∀ j, ∃ o, t' j = setNext (t j) o) := by
  cases l with
  | nil =>
    refine ⟨t, some r, by simp [insertLast], ?_, fun _ _ => rfl,
      fun j => ⟨next (t j), (setNext_next _).symm⟩⟩
    refine .cons ?_
    rw [hnone]
    exact .nil
  | cons i l =>
    obtain ⟨rfl, htail⟩ := h.start_of_cons
    have hlen : l.length ≤ n := Nat.le_of_succ_le h.length_le
    have hlast := lastFrom_of_chain h hlen
    have hmem : (i :: l).getLast (cons_ne_nil i l) ∈ i :: l := getLast_mem _
    have hrl : r ≠ (i :: l).getLast (cons_ne_nil i l) := fun heq => hr (heq ▸ hmem)
    -- the second write restores the null link `r` already had
    have hsecond : setNext (t r) none = t r := by
      rw [← hnone]
      exact setNext_next _
    refine ⟨update t ((i :: l).getLast (cons_ne_nil i l))
      (setNext (t ((i :: l).getLast (cons_ne_nil i l))) (some r)), some i, ?_,
      h.snoc (cons_ne_nil i l) hr hnone, ?_, ?_⟩
    · simp only [insertLast, length_cons, Nat.add_eq_zero_iff, one_ne_zero, and_false,
        ↓reduceIte, hlast, update_of_ne hrl, hsecond, Option.some.injEq, Prod.mk.injEq,
        and_true]
      rw [update_eq_self_iff, update_of_ne hrl]
    · intro j hj
      have hjl : j ≠ (i :: l).getLast (cons_ne_nil i l) := fun heq => hj (heq ▸ hmem)
      exact update_of_ne hjl _ _
    intro j
    by_cases hj : j = (i :: l).getLast (cons_ne_nil i l)
    · subst hj
      exact ⟨some r, update_self _ _ _⟩
    · refine ⟨next (t j), ?_⟩
      rw [update_of_ne hj, setNext_next]

/-! ## Unlinking a record -/

/-- The first record that satisfies `pred`, with the record visited just before it. -/
def searchPrev (t : Table α n) (pred : α → Bool) :
    Nat → Option (Fin n) → Option (Fin n) → Option (Option (Fin n) × Fin n)
  | 0, _, _ => none
  | _ + 1, _, none => none
  | fuel + 1, prev, some i =>
    if pred (t i) then some (prev, i)
    else searchPrev t pred fuel (some i) (next (t i))

/-- Clear the first record that satisfies `pred` and take it off its list:
`if (prev) prev->next = r->next; else first = r->next;`. -/
def unlink (t : Table α n) (pred : α → Bool) (clear : α → α) (first : Option (Fin n)) :
    Option (Table α n × Option (Fin n)) :=
  match searchPrev t pred n none first with
  | none => none
  | some (prev, i) =>
    let t₁ := update t i (clear (t i))
    match prev with
    | none => some (t₁, next (t₁ i))
    | some j => some (update t₁ j (setNext (t₁ j) (next (t₁ i))), first)

theorem searchPrev_none_of_chain : ∀ {fuel : Nat} {prev o : Option (Fin n)}, Chain t o l →
      (∀ i ∈ l, pred (t i) = false) → searchPrev t pred fuel prev o = none := by
  induction l with
  | nil =>
    intro fuel prev o h _
    rw [h.eq_none_of_nil]
    cases fuel <;> rfl
  | cons i l ih =>
    intro fuel prev o h hp
    obtain ⟨rfl, htail⟩ := h.start_of_cons
    cases fuel with
    | zero => rfl
    | succ fuel =>
      rw [searchPrev, hp i mem_cons_self]
      exact ih htail (fun k hk => hp k (mem_cons_of_mem _ hk))

theorem searchPrev_of_chain {i : Fin n} {pre suf : List (Fin n)} :
    ∀ {fuel : Nat} (prev : Option (Fin n)) {o : Option (Fin n)}, Chain t o (pre ++ i :: suf) →
      (∀ k ∈ pre, pred (t k) = false) → pred (t i) = true → pre.length < fuel →
      searchPrev t pred fuel prev o = some (pre.getLast?.or prev, i) := by
  induction pre with
  | nil =>
    intro fuel prev o h _ hi hf
    obtain ⟨rfl, _⟩ := h.start_of_cons
    cases fuel with
    | zero => simp at hf
    | succ fuel => simp [searchPrev, hi]
  | cons k pre ih =>
    intro fuel prev o h hp hi hf
    obtain ⟨rfl, htail⟩ := h.start_of_cons
    cases fuel with
    | zero => simp at hf
    | succ fuel =>
      rw [searchPrev, hp k mem_cons_self]
      have hrec := ih (some k) htail (fun j hj => hp j (mem_cons_of_mem _ hj)) hi
        (by simpa using hf)
      simp only [Bool.false_eq_true, ↓reduceIte, hrec, Option.some.injEq, Prod.mk.injEq, and_true]
      cases pre with
      | nil => rfl
      | cons j pre => simp [List.getLast?_cons]

theorem Chain.bypass {i : Fin n} {suf : List (Fin n)} (a : α) :
    ∀ {pre : List (Fin n)} {o : Option (Fin n)} (hne : pre ≠ []), Chain t o (pre ++ i :: suf) →
      Chain (update (update t i a) (pre.getLast hne)
        (setNext (t (pre.getLast hne)) (next (t i)))) o (pre ++ suf) := by
  intro pre
  induction pre with
  | nil =>
    intro o hne
    exact absurd rfl hne
  | cons k pre ih =>
    intro o hne h
    have hnd := h.nodup
    obtain ⟨rfl, htail⟩ := h.start_of_cons
    cases pre with
    | nil =>
      have hsuf : Chain t (next (t i)) suf := htail.start_of_cons.2
      have hk : k ∉ i :: suf := by simpa using (nodup_cons.mp hnd).1
      have hi : i ∉ suf := by
        have := (nodup_cons.mp (nodup_cons.mp hnd).2).1
        simpa using this
      refine .cons ?_
      simp only [getLast_singleton, update_self, next_setNext]
      refine hsuf.congr (fun j hj => ?_)
      have hjk : j ≠ k := fun heq => hk (heq ▸ mem_cons_of_mem _ hj)
      have hji : j ≠ i := fun heq => hi (heq ▸ hj)
      rw [update_of_ne hjk, update_of_ne hji]
    | cons j pre =>
      have hlast : (k :: j :: pre).getLast hne = (j :: pre).getLast (cons_ne_nil j pre) :=
        getLast_cons (cons_ne_nil j pre)
      have hk := (nodup_cons.mp hnd).1
      have hkl : k ≠ (j :: pre).getLast (cons_ne_nil j pre) := by
        intro heq
        refine hk (mem_append_left _ ?_)
        rw [heq]
        exact getLast_mem _
      have hki : k ≠ i := by
        rintro rfl
        exact hk (by simp)
      refine .cons ?_
      rw [hlast, update_of_ne hkl, update_of_ne hki]
      exact ih (cons_ne_nil j pre) htail

theorem unlink_spec {clear : α → α}
    {i : Fin n} {pre suf : List (Fin n)} (h : Chain t first (pre ++ i :: suf))
    (hpre : ∀ k ∈ pre, pred (t k) = false) (hi : pred (t i) = true)
    (hclear : ∀ a, next (clear a) = next a) :
    ∃ t' first', unlink t pred clear first = some (t', first') ∧
      Chain t' first' (pre ++ suf) ∧ t' i = clear (t i) ∧
      (∀ j, j ∉ pre ++ i :: suf → t' j = t j) ∧
      (∀ j, j ≠ i → ∃ o, t' j = setNext (t j) o) := by
  have hnd := h.nodup
  have hlen : pre.length < n := by
    have := h.length_le
    simp only [length_append, length_cons] at this
    omega
  have hsearch := searchPrev_of_chain none h hpre hi hlen
  cases pre with
  | nil =>
    obtain ⟨rfl, htail⟩ := h.start_of_cons
    have hisuf : i ∉ suf := (nodup_cons.mp hnd).1
    refine ⟨update t i (clear (t i)), next (t i), ?_, ?_, update_self _ _ _, ?_, ?_⟩
    · simp [unlink, hsearch, hclear]
    · refine htail.congr (fun j hj => ?_)
      have hji : j ≠ i := fun heq => hisuf (heq ▸ hj)
      rw [update_of_ne hji]
    · intro j hj
      have hji : j ≠ i := fun heq => hj (heq ▸ mem_cons_self)
      exact update_of_ne hji _ _
    · intro j hj
      refine ⟨next (t j), ?_⟩
      rw [update_of_ne hj, setNext_next]
  | cons k pre =>
    have hne : k :: pre ≠ [] := cons_ne_nil k pre
    have hlastmem : (k :: pre).getLast hne ∈ k :: pre := getLast_mem _
    have hli : (k :: pre).getLast hne ≠ i := by
      intro heq
      have hdis := (nodup_append.mp hnd).2.2
      exact hdis _ hlastmem i mem_cons_self heq
    refine ⟨update (update t i (clear (t i))) ((k :: pre).getLast hne)
      (setNext (t ((k :: pre).getLast hne)) (next (t i))), first, ?_, h.bypass (clear (t i)) hne,
      ?_, ?_, ?_⟩
    · have hgl : (k :: pre).getLast?.or none = some ((k :: pre).getLast hne) := by
        rw [Option.or_none, List.getLast?_eq_some_getLast hne]
      simp only [unlink, hsearch, hgl, update_self, hclear, update_of_ne hli]
    · rw [update_of_ne (Ne.symm hli), update_self]
    · intro j hj
      have hjl : j ≠ (k :: pre).getLast hne := fun heq => hj (mem_append_left _ (heq ▸ hlastmem))
      have hji : j ≠ i := fun heq => hj (by simp [heq])
      rw [update_of_ne hjl, update_of_ne hji]
    intro j hj
    by_cases hjl : j = (k :: pre).getLast hne
    · subst hjl
      exact ⟨next (t i), update_self _ _ _⟩
    · refine ⟨next (t j), ?_⟩
      rw [update_of_ne hjl, update_of_ne hj, setNext_next]

theorem unlink_none {clear : α → α} (h : Chain t first l) (hl : ∀ i ∈ l, pred (t i) = false) :
    unlink t pred clear first = none := by
  simp [unlink, searchPrev_none_of_chain h hl]

end HardenedMinix.Lib
