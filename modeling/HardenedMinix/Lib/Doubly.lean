import Mathlib

/-!
# Doubly linked lists

Several lists share the nodes, and a node on no list keeps whatever links it has. A segment is
described with what lies at both of its ends.
-/

open Function List Option

namespace HardenedMinix.Lib

structure Links (ν : Type*) where
  next : ν → Option ν
  prev : ν → Option ν

namespace Links

variable {ν : Type*}

/-- From `first` one comes through the nodes to `after`; the first has `before` behind it, the last
is `last`. -/
def Seg (L : Links ν) : Option ν → Option ν → List ν → Option ν → Option ν → Prop
  | before, first, [], last, after => before = last ∧ first = after
  | before, first, x :: l, last, after =>
    first = some x ∧ L.prev x = before ∧ L.Seg (some x) (L.next x) l last after

/-- A list without repetitions that begins at `head`. -/
structure IsList (L : Links ν) (head : Option ν) (l : List ν) : Prop where
  seg : ∃ last, L.Seg none head l last none
  nodup : l.Nodup

/-! ## Segments -/

section Segments

variable {L L' : Links ν} {head before first last after : Option ν} {l l₁ l₂ : List ν} {x : ν}

theorem seg_append : L.Seg before first (l₁ ++ l₂) last after ↔
    ∃ p m, L.Seg before first l₁ p m ∧ L.Seg p m l₂ last after := by
  induction l₁ generalizing before first with
  | nil =>
    constructor
    · intro h
      exact ⟨before, first, ⟨rfl, rfl⟩, h⟩
    · rintro ⟨p, m, ⟨rfl, rfl⟩, h⟩
      exact h
  | cons x l₁ ih =>
    constructor
    · rintro ⟨hfirst, hprev, hrest⟩
      obtain ⟨p, m, h1, h2⟩ := ih.mp hrest
      exact ⟨p, m, ⟨hfirst, hprev, h1⟩, h2⟩
    · rintro ⟨p, m, ⟨hfirst, hprev, h1⟩, h2⟩
      exact ⟨hfirst, hprev, ih.mpr ⟨p, m, h1, h2⟩⟩

theorem Seg.congr (h : L.Seg before first l last after) (hnext : ∀ x ∈ l, L'.next x = L.next x)
    (hprev : ∀ x ∈ l, L'.prev x = L.prev x) : L'.Seg before first l last after := by
  induction l generalizing before first with
  | nil => exact h
  | cons x l ih =>
    obtain ⟨hfirst, hbefore, hrest⟩ := h
    refine ⟨hfirst, (hprev x (.head l)).trans hbefore, ?_⟩
    rw [hnext x (.head l)]
    exact ih hrest (fun y hy => hnext y (.tail x hy)) fun y hy => hprev y (.tail x hy)

theorem Seg.last_eq (h : L.Seg before first l last after) : last = l.getLast?.or before := by
  induction l generalizing before first with
  | nil => exact h.1.symm
  | cons x l ih =>
    rw [ih h.2.2]
    cases l with
    | nil => rfl
    | cons y l =>
      rw [List.getLast?_cons_cons, List.getLast?_eq_some_getLast (cons_ne_nil y l)]
      rfl

theorem Seg.first_eq (h : L.Seg before first l last after) : first = l.head?.or after := by
  cases l with
  | nil => exact h.2
  | cons x l => exact h.1

theorem IsList.congr (h : L.IsList head l) (hnext : ∀ x ∈ l, L'.next x = L.next x)
    (hprev : ∀ x ∈ l, L'.prev x = L.prev x) : L'.IsList head l := by
  obtain ⟨last, hseg⟩ := h.seg
  exact ⟨⟨last, hseg.congr hnext hprev⟩, h.nodup⟩

theorem IsList.head_eq (h : L.IsList head l) : head = l.head? := by
  obtain ⟨last, hseg⟩ := h.seg
  rw [hseg.first_eq, or_none]

theorem isList_nil (L : Links ν) : L.IsList none [] := ⟨⟨none, rfl, rfl⟩, nodup_nil⟩

theorem IsList.around {a b : List ν} (h : L.IsList head (a ++ x :: b)) :
    L.prev x = a.getLast? ∧ L.next x = b.head? ∧
      ∃ last, L.Seg none head a a.getLast? (some x) ∧ L.Seg (some x) b.head? b last none := by
  obtain ⟨last, hseg⟩ := h.seg
  obtain ⟨p, m, ha, hfirst, hprev, hb⟩ := seg_append.mp hseg
  have hp := ha.last_eq
  rw [or_none] at hp
  have hn := hb.first_eq
  rw [or_none] at hn
  subst hfirst hp
  rw [hn] at hb
  exact ⟨hprev, hn, last, ha, hb⟩

variable [DecidableEq ν]

theorem Seg.setAfter (h : L.Seg before first l last after) (hnodup : l.Nodup) {after' : Option ν}
    (hnext : ∀ x ∈ l, L'.next x = if l.getLast? = some x then after' else L.next x)
    (hprev : ∀ x ∈ l, L'.prev x = L.prev x) : L'.Seg before (l.head?.or after') l last after' := by
  induction l generalizing before first with
  | nil => exact ⟨h.1, rfl⟩
  | cons x l ih =>
    obtain ⟨hfirst, hbefore, hrest⟩ := h
    obtain ⟨hx, hl⟩ := nodup_cons.mp hnodup
    refine ⟨rfl, (hprev x (.head l)).trans hbefore, ?_⟩
    have hrest' : L'.Seg (some x) (l.head?.or after') l last after' := by
      refine ih hrest hl (fun y hy => ?_) fun y hy => hprev y (.tail x hy)
      rw [hnext y (.tail x hy), List.getLast?_cons, List.getLast?_eq_some_getLast (ne_nil_of_mem hy)]
      rfl
    have heq : L'.next x = l.head?.or after' := by
      rw [hnext x (.head l)]
      cases l with
      | nil => exact if_pos rfl
      | cons y l =>
        rw [if_neg ?_, hrest.1]
        · rfl
        · intro hlast
          refine hx (mem_of_getLast? ?_)
          simpa using hlast
    rw [heq]
    exact hrest'

theorem Seg.setBefore (h : L.Seg before first l last after) (hnodup : l.Nodup) {before' : Option ν}
    (hnext : ∀ x ∈ l, L'.next x = L.next x)
    (hprev : ∀ x ∈ l, L'.prev x = if l.head? = some x then before' else L.prev x) :
    L'.Seg before' first l (l.getLast?.or before') after := by
  cases l with
  | nil => exact ⟨rfl, h.2⟩
  | cons x l =>
    obtain ⟨hfirst, hbefore, hrest⟩ := h
    obtain ⟨hx, hl⟩ := nodup_cons.mp hnodup
    have hlast := hrest.last_eq
    refine ⟨hfirst, (hprev x (.head l)).trans (if_pos rfl), ?_⟩
    rw [hnext x (.head l)]
    have hcongr : L'.Seg (some x) (L.next x) l last after := by
      refine hrest.congr (fun y hy => hnext y (.tail x hy)) fun y hy => ?_
      refine (hprev y (.tail x hy)).trans (if_neg fun heq => hx ?_)
      obtain rfl := some.inj heq
      exact hy
    have heq : (x :: l).getLast?.or before' = last := by
      rw [hlast]
      cases l with
      | nil => rfl
      | cons y l =>
        rw [List.getLast?_cons_cons, List.getLast?_eq_some_getLast (cons_ne_nil y l)]
        rfl
    rw [heq]
    exact hcongr

end Segments

/-! ## Insertion and removal -/

variable [DecidableEq ν]

/-- `x->next = head; x->prev = NULL; if (x->next) x->next->prev = x;` -/
def addHead (L : Links ν) (head : Option ν) (x : ν) : Links ν :=
  let L : Links ν := ⟨update L.next x head, update L.prev x none⟩
  match L.next x with
  | none => L
  | some y => { L with prev := update L.prev y (some x) }

/-- `if (prev) prev->next = next; if (next) next->prev = prev;`, with the links that `x` has. -/
def unlink (L : Links ν) (x : ν) : Links ν :=
  let prev := L.prev x
  let next := L.next x
  let L := match prev with
    | none => L
    | some p => { L with next := update L.next p next }
  match next with
  | none => L
  | some n => { L with prev := update L.prev n prev }

section Operations

variable {L L' : Links ν} {head : Option ν} {l : List ν} {x y : ν}

theorem next_addHead (L : Links ν) (head : Option ν) (x y : ν) :
    (L.addHead head x).next y = if y = x then head else L.next y := by
  unfold addHead
  dsimp only
  split <;> exact update_apply ..

theorem prev_addHead (L : Links ν) (head : Option ν) (x y : ν) :
    (L.addHead head x).prev y = if head = some y then some x else if y = x then none else L.prev y := by
  unfold addHead
  dsimp only
  rw [update_self]
  cases head with
  | none => simp [update_apply]
  | some h => simp [update_apply, eq_comm]

theorem next_unlink (L : Links ν) (x y : ν) :
    (L.unlink x).next y = if L.prev x = some y then L.next x else L.next y := by
  unfold unlink
  cases hp : L.prev x with
  | none => cases hn : L.next x <;> simp
  | some p => cases hn : L.next x <;> simp [update_apply, eq_comm]

theorem prev_unlink (L : Links ν) (x y : ν) :
    (L.unlink x).prev y = if L.next x = some y then L.prev x else L.prev y := by
  unfold unlink
  cases hn : L.next x with
  | none => cases hp : L.prev x <;> simp
  | some n => cases hp : L.prev x <;> simp [update_apply, eq_comm]

theorem IsList.addHead (h : L.IsList head l) (hx : x ∉ l) : (L.addHead head x).IsList (some x) (x :: l) := by
  obtain ⟨last, hseg⟩ := h.seg
  have hne : ∀ y ∈ l, y ≠ x := fun y hy heq => hx (heq ▸ hy)
  have hhead := h.head_eq
  have hprevx : (L.addHead head x).prev x = none := by
    rw [prev_addHead, if_neg, if_pos rfl]
    intro heq
    exact hx (mem_of_mem_head? (hhead ▸ heq))
  have hnextx : (L.addHead head x).next x = head := by rw [next_addHead, if_pos rfl]
  have hrest : (L.addHead head x).Seg (some x) head l (l.getLast?.or (some x)) none := by
    refine hseg.setBefore h.nodup (fun y hy => ?_) fun y hy => ?_
    · rw [next_addHead, if_neg (hne y hy)]
    · rw [prev_addHead, hhead, if_neg (hne y hy)]
  exact ⟨⟨_, rfl, hprevx, by rw [hnextx]; exact hrest⟩, nodup_cons.mpr ⟨hx, h.nodup⟩⟩

theorem IsList.addHead_of_disjoint {head' : Option ν} {l' : List ν} (h : L.IsList head l)
    (h' : L.IsList head' l') (hx : x ∉ l') (hdisjoint : l.Disjoint l') :
    (L.addHead head x).IsList head' l' := by
  refine h'.congr (fun y hy => ?_) fun y hy => ?_
  · rw [next_addHead, if_neg]
    rintro rfl
    exact hx hy
  rw [prev_addHead, if_neg, if_neg]
  · rintro rfl
    exact hx hy
  intro heq
  exact hdisjoint (mem_of_mem_head? (h.head_eq ▸ heq)) hy

theorem IsList.unlink (h : L.IsList head l) (hx : x ∈ l) :
    (L.unlink x).IsList (if head = some x then (L.unlink x).next x else head) (l.erase x) := by
  obtain ⟨a, b, rfl⟩ := append_of_mem hx
  obtain ⟨hprev, hnext, last, ha, hb⟩ := h.around
  obtain ⟨hna, hnxb, hdisjoint⟩ := nodup_append.mp h.nodup
  obtain ⟨hxb, hnb⟩ := nodup_cons.mp hnxb
  have hxa : x ∉ a := fun hmem => hdisjoint x hmem x (.head b) rfl
  have herase : (a ++ x :: b).erase x = a ++ b := by
    rw [erase_append_right _ hxa, erase_cons_head]
  have hlast (y : ν) (hy : y ∈ b) : a.getLast? ≠ some y := fun heq =>
    hdisjoint y (mem_of_getLast? heq) y (.tail x hy) rfl
  have hfirst (y : ν) (hy : y ∈ a) : b.head? ≠ some y := fun heq =>
    hdisjoint y hy y (.tail x (mem_of_mem_head? heq)) rfl
  have hnextx : (L.unlink x).next x = b.head? := by
    rw [next_unlink, hprev, if_neg, hnext]
    exact fun heq => hxa (mem_of_getLast? heq)
  have hhead : (if head = some x then (L.unlink x).next x else head) = a.head?.or b.head? := by
    rw [hnextx, ha.first_eq]
    cases a with
    | nil => exact if_pos rfl
    | cons y a =>
      refine if_neg fun heq => hxa ?_
      obtain rfl := some.inj heq
      exact .head a
  have hsegA : (L.unlink x).Seg none (a.head?.or b.head?) a a.getLast? b.head? := by
    refine ha.setAfter hna (fun y _ => ?_) fun y hy => ?_
    · rw [next_unlink, hprev, hnext]
    · rw [prev_unlink, hnext, if_neg (hfirst y hy)]
  have hsegB : (L.unlink x).Seg a.getLast? b.head? b (b.getLast?.or a.getLast?) none := by
    refine hb.setBefore hnb (fun y hy => ?_) fun y _ => ?_
    · rw [next_unlink, hprev, if_neg (hlast y hy)]
    · rw [prev_unlink, hnext, hprev]
  rw [hhead, herase]
  exact ⟨⟨_, seg_append.mpr ⟨_, _, hsegA, hsegB⟩⟩, herase ▸ h.nodup.erase x⟩

theorem IsList.unlink_of_disjoint {head' : Option ν} {l' : List ν} (h : L.IsList head l)
    (h' : L.IsList head' l') (hx : x ∈ l) (hdisjoint : l.Disjoint l') : (L.unlink x).IsList head' l' := by
  obtain ⟨a, b, rfl⟩ := append_of_mem hx
  obtain ⟨hprev, hnext, -⟩ := h.around
  refine h'.congr (fun y hy => ?_) fun y hy => ?_
  · rw [next_unlink, hprev, if_neg]
    intro heq
    exact hdisjoint (mem_append_left _ (mem_of_getLast? heq)) hy
  · rw [prev_unlink, hnext, if_neg]
    intro heq
    exact hdisjoint (mem_append_right _ (.tail x (mem_of_mem_head? heq))) hy

end Operations

end Links

end HardenedMinix.Lib
