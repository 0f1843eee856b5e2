import Mathlib

/-!
# Queues of timers

`tmrs_settimer`, `tmrs_clrtimer` and the loop of `tmrs_exptimers`, on a queue whose first timer is
the next to expire.
-/

open Function List

namespace HardenedMinix.Tmrs

/-- `clock_t`, below the wrap-around. -/
abbrev Clock := Int

def tmrNever : Clock := 2147483647

variable {ι ω : Type*}

/-- The timers that can be reached from `*tmrs`, and the fields of all timers. -/
structure Queue (ι ω : Type*) where
  timers : List ι
  expTime : ι → Clock
  func : ι → ω

/-- The time of the first timer, and zero if there is none. -/
def Queue.headTime (q : Queue ι ω) : Clock :=
  match q.timers with
  | [] => 0
  | tp :: _ => q.expTime tp

variable [DecidableEq ι]

/-- `tmrs_clrtimer`, with the previous and the new head. -/
def clrtimer (q : Queue ι ω) (tp : ι) : Queue ι ω × Clock × Clock :=
  let q' := { q with
    timers := q.timers.erase tp
    expTime := update q.expTime tp tmrNever }
  (q', q.headTime, q'.headTime)

/-- The timer is put before the first one that expires later. -/
def place (e : ι → Clock) (tp : ι) (t : Clock) : List ι → List ι
  | [] => [tp]
  | a :: l => if t < e a then tp :: a :: l else a :: place e tp t l

/-- `tmrs_settimer`, with the previous and the new head. -/
def settimer (q : Queue ι ω) (tp : ι) (t : Clock) (f : ω) : Queue ι ω × Clock × Clock :=
  let old := q.headTime
  let q := (clrtimer q tp).1
  let q := { q with
    expTime := update q.expTime tp t
    func := update q.func tp f }
  let q := { q with timers := place q.expTime tp t q.timers }
  (q, old, q.headTime)

/-- One turn of `tmrs_exptimers`: the timer whose watchdog is run, if there is one that has
expired. -/
def pop (q : Queue ι ω) (now : Clock) : Option (ι × Queue ι ω) :=
  match q.timers with
  | [] => none
  | tp :: l =>
    if q.expTime tp ≤ now then
      some (tp, { q with timers := l, expTime := update q.expTime tp tmrNever })
    else none

/-- `tmrs_exptimers`, for watchdogs that leave the queue alone: who has expired, and the queue. -/
def exptimers (now : Clock) (func : ι → ω) : List ι → (ι → Clock) → List ι × Queue ι ω
  | [], e => ([], ⟨[], e, func⟩)
  | tp :: l, e =>
    if e tp ≤ now then
      let (expired, q) := exptimers now func l (update e tp tmrNever)
      (tp :: expired, q)
    else ([], ⟨tp :: l, e, func⟩)

/-! ## Sorted queues -/

variable {q q' : Queue ι ω} {tp a : ι} {t now prev next : Clock} {f : ω} {l : List ι}
  {e : ι → Clock}

/-- The queue is sorted, and no timer is in it twice. -/
structure Queue.Good (q : Queue ι ω) : Prop where
  nodup : q.timers.Nodup
  sorted : q.timers.Pairwise fun a b => q.expTime a ≤ q.expTime b

omit [DecidableEq ι] in
theorem place_perm : (place e tp t l).Perm (tp :: l) := by
  induction l with
  | nil => exact .refl _
  | cons a l ih =>
    unfold place
    split_ifs
    · exact .refl _
    · exact (ih.cons a).trans (.swap tp a l)

omit [DecidableEq ι] in
theorem place_sorted (hself : e tp = t) (hl : l.Pairwise fun a b => e a ≤ e b) :
    (place e tp t l).Pairwise fun a b => e a ≤ e b := by
  induction l with
  | nil => exact pairwise_singleton _ _
  | cons a l ih =>
    have hfirst : ∀ b, b ∈ l → e a ≤ e b := fun b hb => rel_of_pairwise_cons hl hb
    have hrest := List.Pairwise.of_cons hl
    unfold place
    split_ifs with hlt
    · refine hl.cons fun b hb => ?_
      rw [hself]
      obtain rfl | hb := mem_cons.mp hb
      · exact hlt.le
      · exact hlt.le.trans (hfirst b hb)
    refine (ih hrest).cons fun b hb => ?_
    obtain rfl | hb := mem_cons.mp (place_perm.mem_iff.mp hb)
    · rw [hself]
      exact not_lt.mp hlt
    · exact hfirst b hb

theorem sorted_update (hl : l.Pairwise fun a b => e a ≤ e b) (htp : tp ∉ l) (x : Clock) :
    l.Pairwise fun a b => update e tp x a ≤ update e tp x b := by
  apply hl.imp_of_mem
  intro a b ha hb hle
  have hne : ∀ c, c ∈ l → c ≠ tp := by
    rintro c hc rfl
    exact htp hc
  rwa [update_of_ne (hne a ha), update_of_ne (hne b hb)]

omit [DecidableEq ι] in
theorem Queue.Good.headTime_le (h : q.Good) (htp : tp ∈ q.timers) : q.headTime ≤ q.expTime tp := by
  have hsorted := h.sorted
  unfold Queue.headTime
  cases hq : q.timers with
  | nil =>
    rw [hq] at htp
    cases htp
  | cons a l =>
    rw [hq] at htp hsorted
    obtain rfl | htp := mem_cons.mp htp
    · exact le_refl _
    · exact rel_of_pairwise_cons hsorted htp

omit [DecidableEq ι] in
theorem Queue.headTime_mem (h : q.timers ≠ []) :
    ∃ tp, tp ∈ q.timers ∧ q.headTime = q.expTime tp := by
  unfold Queue.headTime
  cases hq : q.timers with
  | nil => exact absurd hq h
  | cons a l => exact ⟨a, mem_cons_self, rfl⟩

theorem Queue.Good.clrtimer (h : q.Good) : (clrtimer q tp).1.Good where
  nodup := h.nodup.erase tp
  sorted := sorted_update (h.sorted.sublist erase_sublist)
    (fun hmem => (h.nodup.mem_erase_iff.mp hmem).1 rfl) _

theorem Queue.Good.mem_clrtimer (h : q.Good) :
    a ∈ (Tmrs.clrtimer q tp).1.timers ↔ a ≠ tp ∧ a ∈ q.timers := h.nodup.mem_erase_iff

theorem clrtimer_expTime (ha : a ≠ tp) : (clrtimer q tp).1.expTime a = q.expTime a :=
  update_of_ne ha _ _

theorem Queue.Good.settimer (h : q.Good) : (settimer q tp t f).1.Good := by
  have hout : tp ∉ (Tmrs.clrtimer q tp).1.timers := fun hmem => (h.mem_clrtimer.mp hmem).1 rfl
  constructor
  · exact place_perm.nodup_iff.mpr (nodup_cons.mpr ⟨hout, h.clrtimer.nodup⟩)
  · exact place_sorted (update_self _ _ _) (sorted_update h.clrtimer.sorted hout _)

theorem Queue.Good.mem_settimer (h : q.Good) :
    a ∈ (Tmrs.settimer q tp t f).1.timers ↔ a = tp ∨ a ∈ q.timers := by
  have hperm : (Tmrs.settimer q tp t f).1.timers.Perm (tp :: (Tmrs.clrtimer q tp).1.timers) :=
    place_perm
  rw [hperm.mem_iff, mem_cons, h.mem_clrtimer]
  tauto

theorem settimer_expTime_self : (settimer q tp t f).1.expTime tp = t := update_self _ _ _

theorem settimer_expTime (ha : a ≠ tp) : (settimer q tp t f).1.expTime a = q.expTime a := by
  show update (update q.expTime tp tmrNever) tp t a = _
  rw [update_of_ne ha, update_of_ne ha]

theorem settimer_func_self : (settimer q tp t f).1.func tp = f := update_self _ _ _

theorem settimer_func (ha : a ≠ tp) : (settimer q tp t f).1.func a = q.func a := update_of_ne ha _ _

theorem settimer_update (x : Clock) :
    (settimer { q with expTime := update q.expTime tp x } tp t f).1 = (settimer q tp t f).1 := by
  simp [settimer, Tmrs.clrtimer]

theorem pop_some (h : pop q now = some (tp, q')) : ∃ l, q.timers = tp :: l ∧ q.expTime tp ≤ now ∧
    q' = { q with timers := l, expTime := update q.expTime tp tmrNever } := by
  unfold pop at h
  split at h
  next => cases h
  rename_i a l hq
  split_ifs at h with hle
  cases h
  exact ⟨l, hq, hle, rfl⟩

theorem Queue.Good.pop_none (h : q.Good) (hpop : pop q now = none) (htp : tp ∈ q.timers) :
    now < q.expTime tp := by
  unfold pop at hpop
  have hhead := h.headTime_le htp
  unfold Queue.headTime at hhead
  split at hpop
  next hq =>
    rw [hq] at htp
    cases htp
  rename_i a l hq
  split_ifs at hpop with hle
  rw [hq] at hhead
  exact (not_le.mp hle).trans_le hhead

theorem Queue.Good.pop (h : q.Good) (hpop : pop q now = some (tp, q')) :
    q'.Good ∧ (∀ a, a ∈ q'.timers ↔ a ≠ tp ∧ a ∈ q.timers) ∧
      ∀ a, a ≠ tp → q'.expTime a = q.expTime a := by
  obtain ⟨l, hq, -, rfl⟩ := pop_some hpop
  have hnodup := h.nodup
  have hsorted := h.sorted
  rw [hq] at hnodup hsorted
  obtain ⟨hout, hl⟩ := nodup_cons.mp hnodup
  refine ⟨⟨hl, sorted_update (List.Pairwise.of_cons hsorted) hout _⟩, fun a => ?_,
    fun a ha => update_of_ne ha _ _⟩
  show a ∈ l ↔ _
  rw [hq, mem_cons]
  constructor
  · intro ha
    refine ⟨?_, .inr ha⟩
    rintro rfl
    exact hout ha
  · rintro ⟨hne, rfl | ha⟩
    · exact absurd rfl hne
    · exact ha

theorem exptimers_spec {func : ι → ω} (now : Clock) (h : (Queue.mk l e func).Good) :
    (exptimers now func l e).2.Good ∧
      (∀ a, a ∈ (exptimers now func l e).2.timers ↔ a ∈ l ∧ now < e a) ∧
      (∀ a, a ∈ l → now < e a → (exptimers now func l e).2.expTime a = e a) ∧
      ∀ a, a ∈ (exptimers now func l e).1 ↔ a ∈ l ∧ e a ≤ now := by
  induction l generalizing e with
  | nil => exact ⟨h, by simp [exptimers], by simp, by simp [exptimers]⟩
  | cons tp l ih =>
    obtain ⟨hout, hl⟩ := nodup_cons.mp h.nodup
    have hfirst : ∀ b, b ∈ l → e tp ≤ e b := fun b hb => rel_of_pairwise_cons h.sorted hb
    by_cases hle : e tp ≤ now
    · have hrec := ih (e := update e tp tmrNever)
        ⟨hl, sorted_update (List.Pairwise.of_cons h.sorted) hout _⟩
      have heq : exptimers now func (tp :: l) e =
          (tp :: (exptimers now func l (update e tp tmrNever)).1,
            (exptimers now func l (update e tp tmrNever)).2) := by
        rw [exptimers, if_pos hle]
      have hsame : ∀ a, a ∈ l → update e tp tmrNever a = e a := by
        rintro a ha
        apply update_of_ne
        rintro rfl
        exact hout ha
      obtain ⟨hgood, hleft, htime, hgone⟩ := hrec
      rw [heq]
      refine ⟨hgood, fun a => ?_, fun a ha hlt => ?_, fun a => ?_⟩
      · rw [hleft a, mem_cons]
        constructor
        · rintro ⟨ha, hlt⟩
          rw [hsame a ha] at hlt
          exact ⟨.inr ha, hlt⟩
        · rintro ⟨rfl | ha, hlt⟩
          · exact absurd hle (not_le.mpr hlt)
          · exact ⟨ha, by rwa [hsame a ha]⟩
      · obtain rfl | ha := mem_cons.mp ha
        · exact absurd hle (not_le.mpr hlt)
        · rw [htime a ha (by rwa [hsame a ha]), hsame a ha]
      rw [mem_cons, mem_cons, hgone a]
      constructor
      · rintro (rfl | ⟨ha, hdue⟩)
        · exact ⟨.inl rfl, hle⟩
        · exact ⟨.inr ha, by rwa [hsame a ha] at hdue⟩
      · rintro ⟨rfl | ha, hdue⟩
        · exact .inl rfl
        · exact .inr ⟨ha, by rwa [hsame a ha]⟩
    · have heq : exptimers now func (tp :: l) e = ([], ⟨tp :: l, e, func⟩) := by
        rw [exptimers, if_neg hle]
      have hall : ∀ a ∈ tp :: l, now < e a := by
        intro a ha
        obtain rfl | ha := mem_cons.mp ha
        · exact not_le.mp hle
        · exact (not_le.mp hle).trans_le (hfirst a ha)
      rw [heq]
      refine ⟨h, fun a => ⟨fun ha => ⟨ha, hall a ha⟩, fun ha => ha.1⟩, fun _ _ _ => rfl, fun a => ?_⟩
      simp only [not_mem_nil, false_iff]
      rintro ⟨ha, hdue⟩
      exact absurd hdue (not_le.mpr (hall a ha))

end HardenedMinix.Tmrs
