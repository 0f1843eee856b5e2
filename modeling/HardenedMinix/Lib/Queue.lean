import HardenedMinix.Lib.Chain

/-!
# Queues edited through a pointer to a link

The idiom `xpp = &head; while (*xpp) xpp = &(*xpp)->link; *xpp = r;` and its unlinking
counterpart. A walk gets as many turns as the table has records; `none` is a walk that has not
ended by then.
-/

open Function List

namespace HardenedMinix.Lib

open Linked

variable {α : Type} {n : Nat} [Linked α n]

/-! ## Appending -/

/-- The record whose link is null, walking on from `i`. -/
def endOf (t : Table α n) : Nat → Fin n → Option (Fin n)
  | 0, _ => none
  | fuel + 1, i =>
    match next (t i) with
    | none => some i
    | some j => endOf t fuel j

/-- `xpp = &head; while (*xpp) xpp = &(*xpp)->link; *xpp = r;` -/
def enqueueLast (t : Table α n) (head : Option (Fin n)) (r : Fin n) :
    Option (Table α n × Option (Fin n)) :=
  match head with
  | none => some (t, some r)
  | some i =>
    match endOf t n i with
    | none => none
    | some last => some (update t last (setNext (t last) (some r)), some i)

variable {t : Table α n} {l : List (Fin n)} {head : Option (Fin n)} {pred : Fin n → Bool}

theorem endOf_of_chain : ∀ {fuel : Nat} {i : Fin n}, Chain t (some i) (i :: l) → l.length < fuel →
      endOf t fuel i = some ((i :: l).getLast (cons_ne_nil i l)) := by
  induction l with
  | nil =>
    intro fuel i h hf
    have hnone : next (t i) = none := h.start_of_cons.2.eq_none_of_nil
    cases fuel with
    | zero => simp at hf
    | succ fuel => simp [endOf, hnone]
  | cons j l ih =>
    intro fuel i h hf
    have htail := h.start_of_cons.2
    have hnext : next (t i) = some j := htail.start_of_cons.1
    cases fuel with
    | zero => simp at hf
    | succ fuel =>
      have hrec := ih (hnext ▸ htail) (by simpa using hf)
      simpa [endOf, hnext] using hrec

theorem enqueueLast_sets {t t' : Table α n} {head head' : Option (Fin n)} {r : Fin n}
    (h : enqueueLast t head r = some (t', head')) (j : Fin n) : ∃ o, t' j = setNext (t j) o := by
  unfold enqueueLast at h
  split at h
  case h_1 =>
    cases h
    exact ⟨next (t j), (setNext_next _).symm⟩
  case h_2 i =>
    split at h
    case h_1 => cases h
    case h_2 last _ =>
      cases h
      by_cases hj : j = last
      · subst hj
        exact ⟨some r, update_self _ _ _⟩
      · refine ⟨next (t j), ?_⟩
        rw [update_of_ne hj, setNext_next]

theorem enqueueLast_spec {r : Fin n} (h : Chain t head l) (hr : r ∉ l) (hnone : next (t r) = none) :
    ∃ t' head', enqueueLast t head r = some (t', head') ∧ Chain t' head' (l ++ [r]) ∧
      (∀ j, j ∉ l → t' j = t j) := by
  cases l with
  | nil =>
    obtain rfl := h.eq_none_of_nil
    refine ⟨t, some r, rfl, ?_, fun _ _ => rfl⟩
    apply Chain.cons
    rw [hnone]
    exact .nil
  | cons i l =>
    obtain ⟨rfl, _⟩ := h.start_of_cons
    have hlen : l.length < n := h.length_le
    have hend := endOf_of_chain h hlen
    have hmem : (i :: l).getLast (cons_ne_nil i l) ∈ i :: l := getLast_mem _
    refine ⟨_, some i, by simp only [enqueueLast, hend], h.snoc (cons_ne_nil i l) hr hnone, ?_⟩
    intro j hj
    have hne : j ≠ (i :: l).getLast (cons_ne_nil i l) := fun heq => hj (heq ▸ hmem)
    exact update_of_ne hne _ _

/-! ## Unlinking -/

/-- The first record that satisfies `pred`, with the one before. `some none`: there is no such
record. -/
def walkTo (t : Table α n) (pred : Fin n → Bool) :
    Nat → Option (Fin n) → Option (Fin n) → Option (Option (Option (Fin n) × Fin n))
  | _, _, none => some none
  | 0, _, some _ => none
  | fuel + 1, prev, some i =>
    if pred i then some (some (prev, i)) else walkTo t pred fuel (some i) (next (t i))

/-- `while (*xpp) { if (pred(*xpp)) { *xpp = (*xpp)->link; break; } xpp = &(*xpp)->link; }` -/
def unlinkFirst (t : Table α n) (pred : Fin n → Bool) (head : Option (Fin n)) :
    Option (Option (Fin n × Table α n × Option (Fin n))) :=
  match walkTo t pred n none head with
  | none => none
  | some none => some none
  | some (some (none, i)) => some (some (i, t, next (t i)))
  | some (some (some j, i)) =>
    some (some (i, update t j (setNext (t j) (next (t i))), head))

theorem walkTo_none_of_chain :
    ∀ {fuel : Nat} {prev o : Option (Fin n)}, Chain t o l → l.length ≤ fuel →
      (∀ i ∈ l, pred i = false) → walkTo t pred fuel prev o = some none := by
  induction l with
  | nil =>
    intro fuel prev o h _ _
    rw [h.eq_none_of_nil]
    cases fuel <;> rfl
  | cons i l ih =>
    intro fuel prev o h hf hp
    obtain ⟨rfl, htail⟩ := h.start_of_cons
    cases fuel with
    | zero => simp at hf
    | succ fuel =>
      rw [walkTo, hp i mem_cons_self]
      apply ih htail (by simpa using hf)
      intro k hk
      exact hp k (mem_cons_of_mem _ hk)

theorem walkTo_of_chain {i : Fin n} {pre suf : List (Fin n)} :
    ∀ {fuel : Nat} (prev : Option (Fin n)) {o : Option (Fin n)}, Chain t o (pre ++ i :: suf) →
      (∀ k ∈ pre, pred k = false) → pred i = true → pre.length < fuel →
      walkTo t pred fuel prev o = some (some (pre.getLast?.or prev, i)) := by
  induction pre with
  | nil =>
    intro fuel prev o h _ hi hf
    obtain ⟨rfl, _⟩ := h.start_of_cons
    cases fuel with
    | zero => simp at hf
    | succ fuel => simp [walkTo, hi]
  | cons k pre ih =>
    intro fuel prev o h hp hi hf
    obtain ⟨rfl, htail⟩ := h.start_of_cons
    cases fuel with
    | zero => simp at hf
    | succ fuel =>
      rw [walkTo, hp k mem_cons_self]
      have hrec := ih (some k) htail (fun j hj => hp j (mem_cons_of_mem _ hj)) hi
        (by simpa using hf)
      simp only [Bool.false_eq_true, ↓reduceIte, hrec, Option.some.injEq, Prod.mk.injEq, and_true]
      cases pre with
      | nil => rfl
      | cons j pre => simp [List.getLast?_cons]

theorem unlinkFirst_none (h : Chain t head l) (hp : ∀ i ∈ l, pred i = false) :
    unlinkFirst t pred head = some none := by
  rw [unlinkFirst, walkTo_none_of_chain h h.length_le hp]

theorem unlinkFirst_some {pre suf : List (Fin n)} {i : Fin n} (h : Chain t head (pre ++ i :: suf))
    (hp : ∀ k ∈ pre, pred k = false) (hi : pred i = true) :
    ∃ t' head', unlinkFirst t pred head = some (some (i, t', head')) ∧
      Chain t' head' (pre ++ suf) ∧ (∀ j, j ∉ pre → t' j = t j) ∧
      (∀ j, ∃ o, t' j = setNext (t j) o) := by
  have hlen : pre.length < n := by
    have := h.length_le
    simp only [length_append, length_cons] at this
    omega
  have hwalk := walkTo_of_chain none h hp hi hlen
  cases hpre : pre with
  | nil =>
    subst hpre
    refine ⟨t, next (t i), ?_, ?_, fun _ _ => rfl, fun j => ⟨next (t j), (setNext_next _).symm⟩⟩
    · rw [unlinkFirst, hwalk]
      rfl
    · exact h.start_of_cons.2
  | cons k rest =>
    have hne : pre ≠ [] := by rw [hpre]; exact cons_ne_nil k rest
    have hlast : pre.getLast? = some (pre.getLast hne) := List.getLast?_eq_some_getLast hne
    have hbypass := h.bypass (t i) hne
    rw [update_eq_self] at hbypass
    rw [← hpre]
    refine ⟨update t (pre.getLast hne) (setNext (t (pre.getLast hne)) (next (t i))), head,
      ?_, hbypass, ?_, ?_⟩
    · rw [unlinkFirst, hwalk, hlast]
      rfl
    · intro j hj
      have hjl : j ≠ pre.getLast hne := fun heq => hj (heq ▸ getLast_mem hne)
      exact update_of_ne hjl _ _
    intro j
    by_cases hj : j = pre.getLast hne
    · subst hj
      exact ⟨_, update_self _ _ _⟩
    · refine ⟨next (t j), ?_⟩
      rw [update_of_ne hj, setNext_next]

theorem unlinkFirst_inv {t t' : Table α n} {head head' : Option (Fin n)} {i : Fin n} (h : Chain t head l)
    (hun : unlinkFirst t pred head = some (some (i, t', head'))) :
    ∃ pre suf, l = pre ++ i :: suf ∧ (∀ k ∈ pre, pred k = false) ∧ pred i = true ∧
      Chain t' head' (pre ++ suf) ∧ (∀ j, j ∉ pre → t' j = t j) ∧
      (∀ j, ∃ o, t' j = setNext (t j) o) := by
  cases hfind : l.find? pred with
  | none =>
    have hnone : ∀ k ∈ l, pred k = false := by
      simpa using hfind
    rw [unlinkFirst_none h hnone] at hun
    exact absurd hun (by simp)
  | some k =>
    obtain ⟨hk, pre, suf, rfl, hpre⟩ := List.find?_eq_some_iff_append.mp hfind
    have hpre' : ∀ a ∈ pre, pred a = false := fun a ha => by simpa using hpre a ha
    obtain ⟨t1, head1, hun1, hc, hframe, hset⟩ := unlinkFirst_some h hpre' hk
    rw [hun1] at hun
    simp only [Option.some.injEq, Prod.mk.injEq] at hun
    obtain ⟨rfl, rfl, rfl⟩ := hun
    exact ⟨pre, suf, rfl, hpre', hk, hc, hframe, hset⟩

theorem unlinkFirst_none_inv (h : Chain t head l) (hun : unlinkFirst t pred head = some none) :
    ∀ k ∈ l, pred k = false := by
  cases hfind : l.find? pred with
  | none => simpa using hfind
  | some k =>
    obtain ⟨hk, pre, suf, rfl, hpre⟩ := List.find?_eq_some_iff_append.mp hfind
    have hpre' : ∀ a ∈ pre, pred a = false := fun a ha => by simpa using hpre a ha
    obtain ⟨t1, head1, hun1, _⟩ := unlinkFirst_some h hpre' hk
    rw [hun1] at hun
    exact absurd hun (by simp)

end HardenedMinix.Lib
