import HardenedMinix.Lib.Chain

/-!
# First-fit pools

A first-fit search for a marked slot. The end mark is the last slot of the table: the search stops
at it without looking at its mark.
-/

open Function

namespace HardenedMinix.Lib

open Linked

/-- A table with what is written to a slot when it is handed out and when it is freed. -/
structure Pool (α : Type) (n : Nat) [Linked α n] where
  /-- What allocation writes. -/
  reset : α → α
  /-- What freeing writes. -/
  clear : α → α
  /-- What initialisation writes. -/
  init : α → α
  /-- A slot before initialisation. -/
  zero : α
  free_reset : ∀ a, free (reset a) = false
  free_clear : ∀ a, free (clear a) = true
  free_init : ∀ a, free (init a) = true
  free_zero : free zero = false
  two_le : 2 ≤ n

variable {α : Type} {n : Nat} [Linked α n]

/-! ## Initialisation and search -/

/-- `for (r = BEG; r < END; r++) init(r);`, where `END` is the last slot. -/
def Pool.initTable (P : Pool α n) : Table α n :=
  fun i => if i.val < n - 1 then P.init P.zero else P.zero

/-- `do { offset++; r++; } while (!(r->flags & SLOT_FREE) && r < END);` -/
def scan (t : Table α n) : Nat → Nat → Nat
  | 0, offset => offset
  | fuel + 1, offset =>
    let offset := offset + 1
    if h : offset < n then
      if !free (t ⟨offset, h⟩) && decide (offset < n - 1) then scan t fuel offset else offset
    else offset

/-- Take the first slot if it is marked free, else scan for one. `none` is the panic at
`offset >= SIZE`. -/
def Pool.getSlot (P : Pool α n) (t : Table α n) : Option (Table α n × Fin n) :=
  let first : Fin n := ⟨0, by have := P.two_le; omega⟩
  if free (t first) then some (update t first (P.reset (t first)), first)
  else
    let offset := scan t n 0
    if h : offset < n then
      some (update t ⟨offset, h⟩ (P.reset (t ⟨offset, h⟩)), ⟨offset, h⟩)
    else none

theorem scan_spec {t : Table α n} : ∀ (fuel offset : Nat), offset + 1 < n → n ≤ fuel + offset + 1 →
      ∃ h : scan t fuel offset < n, offset < scan t fuel offset ∧
        (∀ j : Fin n, offset < j.val → j.val < scan t fuel offset → free (t j) = false) ∧
        (free (t ⟨scan t fuel offset, h⟩) = true ∨ scan t fuel offset = n - 1) := by
  intro fuel
  induction fuel with
  | zero => intro offset h hf; omega
  | succ fuel ih =>
    intro offset h hf
    by_cases hgo : (!free (t ⟨offset + 1, h⟩) && decide (offset + 1 < n - 1)) = true
    · -- the loop goes on: the slot at `offset + 1` is not marked
      have hstep : scan t (fuel + 1) offset = scan t fuel (offset + 1) := by
        simp only [scan, h, ↓reduceDIte, hgo, ↓reduceIte]
      simp only [Bool.and_eq_true, Bool.not_eq_true', decide_eq_true_eq] at hgo
      obtain ⟨hlt, hgt, hbefore, hstop⟩ := ih (offset + 1) (by omega) (by omega)
      simp only [hstep]
      refine ⟨hlt, by omega, fun j hj hjlt => ?_, hstop⟩
      by_cases hj' : j.val = offset + 1
      · have hjeq : j = ⟨offset + 1, h⟩ := Fin.ext hj'
        rw [hjeq]
        exact hgo.1
      · exact hbefore j (by omega) hjlt
    have hstep : scan t (fuel + 1) offset = offset + 1 := by
      simp only [scan, h, ↓reduceDIte, hgo, Bool.false_eq_true, ↓reduceIte]
    simp only [hstep]
    refine ⟨h, by omega, fun j hj hjlt => by omega, ?_⟩
    simp only [Bool.and_eq_true, Bool.not_eq_true', decide_eq_true_eq, not_and_or,
      Bool.not_eq_false] at hgo
    rcases hgo with hfree | hend
    · exact .inl hfree
    · exact .inr (by omega)

theorem Pool.getSlot_spec (P : Pool α n) (t : Table α n) :
    ∃ i, P.getSlot t = some (update t i (P.reset (t i)), i) ∧
      (∀ j < i, free (t j) = false) ∧ (free (t i) = true ∨ i.val = n - 1) := by
  have hn := P.two_le
  by_cases h0 : free (t ⟨0, by omega⟩) = true
  · refine ⟨⟨0, by omega⟩, by simp [Pool.getSlot, h0], fun j hj => ?_, .inl h0⟩
    exact absurd hj (by simp [Fin.lt_def])
  obtain ⟨hlt, hgt, hbefore, hstop⟩ := scan_spec (t := t) n 0 (by omega) (by omega)
  refine ⟨⟨scan t n 0, hlt⟩, ?_, fun j hj => ?_, hstop⟩
  · simp only [Pool.getSlot, h0, Bool.false_eq_true, ↓reduceIte, hlt, ↓reduceDIte]
  by_cases hj0 : j.val = 0
  · have hjeq : j = ⟨0, by omega⟩ := Fin.ext hj0
    rw [hjeq]
    simpa using h0
  · exact hbefore j (by omega) hj

theorem Pool.getSlot_free (P : Pool α n) {t : Table α n} {i : Fin n} (hi : free (t i) = true) :
    ∃ j, P.getSlot t = some (update t j (P.reset (t j)), j) ∧ free (t j) = true := by
  obtain ⟨j, hget, hbefore, hstop⟩ := P.getSlot_spec t
  refine ⟨j, hget, hstop.elim id fun hlast => ?_⟩
  rcases Nat.lt_trichotomy i.val j.val with hlt | heq | hgt
  · rw [hbefore i hlt] at hi
    exact absurd hi (by simp)
  · rwa [Fin.ext heq] at hi
  · have := i.isLt
    omega

theorem Pool.getSlot_last (P : Pool α n) {t : Table α n} (h : ∀ i, free (t i) = false) :
    ∃ j : Fin n, P.getSlot t = some (update t j (P.reset (t j)), j) ∧ j.val = n - 1 := by
  obtain ⟨j, hget, -, hstop⟩ := P.getSlot_spec t
  refine ⟨j, hget, hstop.resolve_left ?_⟩
  simp [h j]

/-! ## Runs of allocations and frees -/

/-- A table with the slots handed out and not freed since. -/
structure PoolState (α : Type) (n : Nat) where
  table : Table α n
  out : List (Fin n)

/-- The states of a pool. Between allocations and frees the owners of slots write whatever they like
but the mark. -/
inductive PoolReachable (P : Pool α n) : PoolState α n → Prop where
  | init : PoolReachable P ⟨P.initTable, []⟩
  | get {s : PoolState α n} {t : Table α n} {i : Fin n} :
      PoolReachable P s → P.getSlot s.table = some (t, i) → PoolReachable P ⟨t, i :: s.out⟩
  | free {s : PoolState α n} {i : Fin n} : PoolReachable P s → i ∈ s.out →
      PoolReachable P
        ⟨update s.table i (P.clear (s.table i)), s.out.filter (fun j => j ≠ i)⟩
  | use {s : PoolState α n} {t : Table α n} :
      PoolReachable P s → (∀ i, Linked.free (t i) = Linked.free (s.table i)) →
      PoolReachable P ⟨t, s.out⟩

/-- It hands out a slot that is marked free and in use by nobody, or panics because there is none.
-/
def GetOk (P : Pool α n) (s : PoolState α n) : Prop :=
  match P.getSlot s.table with
  | some (_, i) => free (s.table i) = true ∧ i ∉ s.out
  | none => ∀ i, free (s.table i) = false

theorem PoolReachable.out_not_free {P : Pool α n} {s : PoolState α n} (h : PoolReachable P s) :
    ∀ i ∈ s.out, Linked.free (s.table i) = false := by
  induction h with
  | init => intro i hi; simp at hi
  | @get s t i _ hget ih =>
    obtain ⟨j, hspec, -, -⟩ := P.getSlot_spec s.table
    obtain ⟨rfl, rfl⟩ : update s.table j (P.reset (s.table j)) = t ∧ j = i := by
      simpa [hspec] using hget
    intro k hk
    by_cases hkj : k = j
    · subst hkj
      simp [P.free_reset]
    · have hmem : k ∈ s.out := by simpa [hkj] using hk
      simpa [update_of_ne hkj] using ih k hmem
  | @free s i _ _ ih =>
    intro k hk
    simp only [ne_eq, decide_not, List.mem_filter, Bool.not_eq_true', decide_eq_false_iff_not]
      at hk
    simpa [update_of_ne hk.2] using ih k hk.1
  | use _ hsame ih =>
    intro k hk
    rw [hsame k]
    exact ih k hk

theorem PoolReachable.getOk_iff {P : Pool α n} {s : PoolState α n} (h : PoolReachable P s) :
    GetOk P s ↔ ∃ i, Linked.free (s.table i) = true := by
  constructor
  · intro hok
    obtain ⟨i, hget, -, -⟩ := P.getSlot_spec s.table
    simp only [GetOk, hget] at hok
    exact ⟨i, hok.1⟩
  rintro ⟨i, hi⟩
  obtain ⟨j, hget, hfree⟩ := P.getSlot_free hi
  simp only [GetOk, hget]
  refine ⟨hfree, fun hmem => ?_⟩
  rw [h.out_not_free j hmem] at hfree
  exact absurd hfree (by simp)

theorem PoolReachable.after_gets (P : Pool α n) : ∀ {m : Nat}, m ≤ n - 1 → ∃ s, PoolReachable P s ∧
      ∀ i : Fin n, Linked.free (s.table i) = true ↔ m ≤ i.val ∧ i.val < n - 1 := by
  intro m
  induction m with
  | zero =>
    intro _
    refine ⟨_, .init, fun i => ?_⟩
    by_cases hi : i.val < n - 1
    · simp [Pool.initTable, hi, P.free_init]
    · simp [Pool.initTable, hi, P.free_zero]
  | succ m ih =>
    intro hm
    obtain ⟨s, hs, hfree⟩ := ih (by omega)
    have hmn : m < n := by omega
    obtain ⟨j, hget, hj⟩ := P.getSlot_free (t := s.table) (i := ⟨m, hmn⟩)
      ((hfree _).mpr ⟨le_rfl, by simp only; omega⟩)
    have hjm : j.val = m := by
      -- first fit: nothing below `m` is marked, and `m` itself is
      obtain ⟨j', hget', hbefore, -⟩ := P.getSlot_spec s.table
      obtain rfl : j' = j := by
        have := hget'.symm.trans hget
        simp only [Option.some.injEq, Prod.mk.injEq] at this
        exact this.2
      have hle := ((hfree j').mp hj).1
      by_contra hne
      have hlt : (⟨m, hmn⟩ : Fin n) < j' := Fin.lt_def.mpr (by simp only; omega)
      have hmark := (hfree ⟨m, hmn⟩).mpr ⟨le_rfl, by simp only; omega⟩
      rw [hbefore _ hlt] at hmark
      exact absurd hmark (by simp)
    refine ⟨_, .get hs hget, fun i => ?_⟩
    by_cases hij : i = j
    · subst hij
      simp only [update_self, P.free_reset, Bool.false_eq_true, false_iff]
      omega
    · have hne : i.val ≠ m := fun heq => hij (Fin.ext (heq.trans hjm.symm))
      simp only [update_of_ne hij, hfree i]
      omega

theorem PoolReachable.hands_out_twice (P : Pool α n) :
    ∃ s, PoolReachable P s ∧ ∃ t i, P.getSlot s.table = some (t, i) ∧ i ∈ s.out := by
  have hn := P.two_le
  obtain ⟨s, hs, hfree⟩ := PoolReachable.after_gets P (m := n - 1) le_rfl
  have hnone : ∀ i, Linked.free (s.table i) = false := by
    intro i
    rw [← Bool.not_eq_true, hfree i]
    omega
  obtain ⟨j, hget, hj⟩ := P.getSlot_last hnone
  have hnone' : ∀ i, Linked.free (update s.table j (P.reset (s.table j)) i) = false := by
    intro i
    by_cases hij : i = j
    · subst hij
      simp [P.free_reset]
    · rw [update_of_ne hij, hnone i]
  obtain ⟨j', hget', hj'⟩ := P.getSlot_last hnone'
  obtain rfl : j' = j := Fin.ext (hj'.trans hj.symm)
  exact ⟨_, .get hs hget, _, j', hget', List.mem_cons_self⟩

end HardenedMinix.Lib
