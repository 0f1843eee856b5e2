import HardenedMinix.Libsys.Timers

/-!
# The timers of a service are exact

The queue and the log of what has happened agree on who is armed, and an alarm is on its way for
the head of the queue between expiries.
-/

open List

namespace HardenedMinix.Watchdog

open Lib Tmrs
open Lib.Deadlines (Legal armedOf expiryOf armedAfter expiryAfter Untouched callsOf)

variable {ι ω : Type*} [DecidableEq ι] {s s' : State ι ω} {c : Clk} {p q : PrivId}
  {t now next : Clock} {tp a : ι} {ticks : Int} {f : ω} {op : Op ι ω} {ops : List (Op ι ω)}

/-! ## The clock of the kernel -/

/-- `next_timeout` is the head of the queue; before the first tick an empty queue has a zero. -/
structure Clk.Good (c : Clk) : Prop where
  queue : c.timers.Good
  head : c.timers.timers ≠ [] → c.nextTimeout = c.timers.headTime
  idle : c.timers.timers = [] → c.nextTimeout = tmrNever ∨ c.nextTimeout = 0

theorem Clk.good_renew (h : c.timers.Good) : c.renew.Good where
  queue := h
  head hne := if_neg hne
  idle hnil := .inl (if_pos hnil)

theorem Clk.Good.setalarm (h : c.Good) :
    (c.setalarm p t).Good ∧ (c.setalarm p t).realtime = c.realtime ∧
      (∀ q, q ≠ p → q ∈ c.timers.timers → q ∈ (c.setalarm p t).timers.timers ∧
        (c.setalarm p t).timers.expTime q = c.timers.expTime q) ∧
      (t ≠ 0 → p ∈ (c.setalarm p t).timers.timers ∧ (c.setalarm p t).timers.expTime p = t) := by
  by_cases ht : t = 0
  · have heq : c.setalarm p t = c.resetTimer p := if_pos ht
    rw [heq]
    refine ⟨good_renew h.queue.clrtimer, rfl, fun q hq hmem => ?_, fun hne => absurd ht hne⟩
    exact ⟨h.queue.mem_clrtimer.mpr ⟨hq, hmem⟩, clrtimer_expTime hq⟩
  have heq : c.setalarm p t = c.setTimer p t := by
    rw [Clk.setalarm, if_neg ht]
    simp only [Clk.setTimer, settimer_update]
  rw [heq]
  have hmem : p ∈ (settimer c.timers p t ()).1.timers := h.queue.mem_settimer.mpr (.inl rfl)
  refine ⟨⟨h.queue.settimer, fun _ => rfl, fun hnil => ?_⟩, rfl, fun q hq hold => ?_,
    fun _ => ⟨hmem, settimer_expTime_self⟩⟩
  · have hnil' : (settimer c.timers p t ()).1.timers = [] := hnil
    rw [hnil'] at hmem
    cases hmem
  · exact ⟨h.queue.mem_settimer.mpr (.inr hold), settimer_expTime hq⟩

theorem Clk.Good.tick (h : c.Good) : c.tick.2.Good ∧ c.tick.2.realtime = c.realtime + 1 ∧
      ∀ q, q ∈ c.timers.timers → q ∈ c.tick.1 ∨
        q ∈ c.tick.2.timers.timers ∧ c.tick.2.timers.expTime q = c.timers.expTime q := by
  obtain ⟨hgood, hleft, htime, hgone⟩ := exptimers_spec (c.realtime + 1) h.queue
  unfold Clk.tick
  simp only
  split_ifs
  · refine ⟨good_renew hgood, rfl, fun q hq => ?_⟩
    by_cases hdue : c.timers.expTime q ≤ c.realtime + 1
    · exact .inl ((hgone q).mpr ⟨hq, hdue⟩)
    · rw [not_le] at hdue
      exact .inr ⟨(hleft q).mpr ⟨hq, hdue⟩, htime q hq hdue⟩
  · exact ⟨⟨h.queue, h.head, h.idle⟩, rfl, fun q hq => .inr ⟨hq, rfl⟩⟩

/-! ## The invariant -/

/-- An alarm is on its way, for a time not later than `t`. -/
def Alarmed (s : State ι ω) (t : Clock) : Prop :=
  s.notified = true ∨
    s.self ∈ s.clk.timers.timers ∧ s.clk.timers.expTime s.self ≤ t

structure Core (s : State ι ω) : Prop where
  timers : s.timers.Good
  clk : s.clk.Good
  nonzero : ∀ tp, tp ∈ s.timers.timers → s.timers.expTime tp ≠ 0
  realtime : 0 ≤ s.clk.realtime
  past : ∀ now, s.expiring = some now → 0 ≤ now ∧ now ≤ s.clk.realtime
  legal : Legal s.log
  armed : ∀ tp, armedOf tp s.log =
    if tp ∈ s.timers.timers then some (s.timers.expTime tp, s.timers.func tp) else none
  expiry : expiryOf s.log = s.expiring

structure Inv (s : State ι ω) : Prop where
  core : Core s
  alarm : s.expiring = none → s.timers.timers ≠ [] → Alarmed s s.timers.headTime

theorem Core.sysSetalarm (h : Core s) :
    Core (s.sysSetalarm t) ∧ (t ≠ 0 → Alarmed (s.sysSetalarm t) t) := by
  obtain ⟨hgood, hreal, -, hself⟩ := h.clk.setalarm (p := s.self) (t := t)
  refine ⟨⟨h.timers, hgood, h.nonzero, ?_, fun now hnow => ?_, h.legal, h.armed, h.expiry⟩,
    fun ht => .inr ⟨(hself ht).1, (hself ht).2.le⟩⟩
  · show 0 ≤ (s.clk.setalarm s.self t).realtime
    rw [hreal]
    exact h.realtime
  · show 0 ≤ now ∧ now ≤ (s.clk.setalarm s.self t).realtime
    rw [hreal]
    exact h.past now hnow

theorem Core.renew (s' : State ι ω) {C : Prop} [Decidable C] (h : Core s')
    (hne : s'.expiring = none → s'.timers.timers ≠ [] → ¬ C → Alarmed s' s'.timers.headTime) :
    Inv (if s'.expiring = none ∧ C then s'.sysSetalarm s'.timers.headTime else s') := by
  split_ifs with hc
  · obtain ⟨hcore, halarm⟩ := h.sysSetalarm (t := s'.timers.headTime)
    refine ⟨hcore, fun _ hqueue => halarm ?_⟩
    obtain ⟨tp, htp, heq⟩ := Queue.headTime_mem (q := s'.timers) hqueue
    rw [heq]
    exact h.nonzero tp htp
  · refine ⟨h, fun hexp hqueue => hne hexp hqueue fun hC => hc ⟨hexp, hC⟩⟩

theorem Inv.setTimer (h : Inv s) (hdelay : s.expiring ≠ none → 0 < ticks)
    (hzero : s.clk.realtime + ticks ≠ 0) : Inv (s.setTimer tp ticks f) := by
  have hcore := h.core
  have hgood : (settimer s.timers tp (s.clk.realtime + ticks) f).1.Good := hcore.timers.settimer
  refine Core.renew
    ({ s with timers := (settimer s.timers tp (s.clk.realtime + ticks) f).1 }.note
      (.armed tp (s.clk.realtime + ticks) f))
    (C := s.timers.headTime = 0 ∨ s.timers.headTime >
      (settimer s.timers tp (s.clk.realtime + ticks) f).1.headTime) ?_ ?_
  · refine ⟨hgood, hcore.clk, fun a ha => ?_, hcore.realtime, hcore.past,
      hcore.legal.snoc fun now hnow => ?_, fun a => ?_, ?_⟩
    · show (settimer s.timers tp (s.clk.realtime + ticks) f).1.expTime a ≠ 0
      by_cases hatp : a = tp
      · subst hatp
        rw [settimer_expTime_self]
        exact hzero
      · rw [settimer_expTime hatp]
        obtain heq | ha := hcore.timers.mem_settimer.mp ha
        · exact absurd heq hatp
        · exact hcore.nonzero a ha
    · -- a watchdog sets it for a time after the one that is expired
      rw [hcore.expiry] at hnow
      have hpast := (hcore.past now hnow).2
      exact lt_of_le_of_lt hpast (lt_add_of_pos_right _ (hdelay (by rw [hnow]; simp)))
    · show armedOf a (s.log ++ [_]) =
        if a ∈ (settimer s.timers tp (s.clk.realtime + ticks) f).1.timers then
          some ((settimer s.timers tp (s.clk.realtime + ticks) f).1.expTime a,
            (settimer s.timers tp (s.clk.realtime + ticks) f).1.func a) else none
      rw [Deadlines.armedOf_snoc, hcore.armed]
      by_cases hatp : a = tp
      · subst hatp
        rw [if_pos (hcore.timers.mem_settimer.mpr (.inl rfl)), settimer_expTime_self,
          settimer_func_self]
        exact if_pos rfl
      have hmem : a ∈ (settimer s.timers tp (s.clk.realtime + ticks) f).1.timers ↔
          a ∈ s.timers.timers := by
        rw [hcore.timers.mem_settimer]
        simp [hatp]
      simp only [hmem, settimer_expTime hatp, settimer_func hatp]
      exact if_neg (Ne.symm hatp)
    · show expiryOf (s.log ++ [_]) = s.expiring
      rw [Deadlines.expiryOf_snoc, hcore.expiry]
      rfl
  · -- the old head was not later
    intro hexp hqueue hnot
    have hnot' : ¬ (s.timers.headTime = 0 ∨ s.timers.headTime >
        (settimer s.timers tp (s.clk.realtime + ticks) f).1.headTime) := hnot
    rw [not_or, not_lt] at hnot'
    have hold : s.timers.timers ≠ [] := by
      intro hnil
      apply hnot'.1
      unfold Queue.headTime
      rw [hnil]
    obtain hnote | ⟨hreg, hle⟩ := h.alarm hexp hold
    · exact .inl hnote
    · exact .inr ⟨hreg, hle.trans hnot'.2⟩

theorem Inv.cancelTimer (h : Inv s) : Inv (s.cancelTimer tp) := by
  have hcore := h.core
  have hgood : (clrtimer s.timers tp).1.Good := hcore.timers.clrtimer
  refine Core.renew ({ s with timers := (clrtimer s.timers tp).1 }.note (.cancelled tp))
    (C := s.timers.headTime < (clrtimer s.timers tp).1.headTime ∨
      (clrtimer s.timers tp).1.headTime = 0) ?_ ?_
  · refine ⟨hgood, hcore.clk, fun a ha => ?_, hcore.realtime, hcore.past,
      hcore.legal.snoc trivial, fun a => ?_, ?_⟩
    · obtain ⟨hne, ha⟩ := hcore.timers.mem_clrtimer.mp ha
      show (clrtimer s.timers tp).1.expTime a ≠ 0
      rw [clrtimer_expTime hne]
      exact hcore.nonzero a ha
    · show armedOf a (s.log ++ [_]) = if a ∈ (clrtimer s.timers tp).1.timers then
          some ((clrtimer s.timers tp).1.expTime a, s.timers.func a) else none
      rw [Deadlines.armedOf_snoc, hcore.armed]
      by_cases hatp : a = tp
      · subst hatp
        rw [if_neg fun hmem => (hcore.timers.mem_clrtimer.mp hmem).1 rfl]
        exact if_pos rfl
      have hmem : a ∈ (clrtimer s.timers tp).1.timers ↔ a ∈ s.timers.timers := by
        rw [hcore.timers.mem_clrtimer]
        simp [hatp]
      simp only [hmem, clrtimer_expTime hatp]
      exact if_neg (Ne.symm hatp)
    · show expiryOf (s.log ++ [_]) = s.expiring
      rw [Deadlines.expiryOf_snoc, hcore.expiry]
      rfl
  -- the head is still due at the same time
  intro hexp hqueue hnot
  have hnot' : ¬ (s.timers.headTime < (clrtimer s.timers tp).1.headTime ∨
      (clrtimer s.timers tp).1.headTime = 0) := hnot
  rw [not_or, not_lt] at hnot'
  obtain ⟨a, ha, heq⟩ := Queue.headTime_mem (q := (clrtimer s.timers tp).1) hqueue
  obtain ⟨hne, hmem⟩ := hcore.timers.mem_clrtimer.mp ha
  have hle : s.timers.headTime ≤ (clrtimer s.timers tp).1.headTime := by
    rw [heq, clrtimer_expTime hne]
    exact hcore.timers.headTime_le hmem
  obtain hnote | ⟨hreg, hearly⟩ := h.alarm hexp (ne_nil_of_mem hmem)
  · exact .inl hnote
  · exact .inr ⟨hreg, hearly.trans hle⟩

theorem Inv.expireTimers {b : Bool} (h : Inv s) (hfree : s.expiring = none) (hzero : 0 ≤ now)
    (hnow : now ≤ s.clk.realtime) :
    Inv ({ s with notified := b }.expireTimers now) := by
  have hcore := h.core
  refine ⟨⟨hcore.timers, hcore.clk, hcore.nonzero, hcore.realtime, fun t ht => ?_,
    hcore.legal.snoc ?_, fun a => ?_, ?_⟩, fun hexp => ?_⟩
  · cases ht
    exact ⟨hzero, hnow⟩
  · show expiryOf s.log = none
    rw [hcore.expiry]
    exact hfree
  · show armedOf a (s.log ++ [_]) = _
    rw [Deadlines.armedOf_snoc, hcore.armed]
    rfl
  · show expiryOf (s.log ++ [_]) = some now
    rw [Deadlines.expiryOf_snoc]
    rfl
  · cases hexp

theorem Inv.callWatchdog (h : Inv s) (hexp : s.expiring = some now) : Inv (s.callWatchdog now) := by
  have hcore := h.core
  unfold State.callWatchdog
  split
  next => exact h
  rename_i tp q hpop
  obtain ⟨hgood, hmem, htime⟩ := hcore.timers.pop hpop
  obtain ⟨l, hl, hdue, hq⟩ := pop_some hpop
  have hfunc : q.func = s.timers.func := by rw [hq]
  have htp : tp ∈ s.timers.timers := by
    rw [hl]
    exact mem_cons_self
  refine ⟨⟨hgood, hcore.clk, fun a ha => ?_, hcore.realtime, hcore.past,
    hcore.legal.snoc ⟨s.timers.expTime tp, now, ?_, ?_, hdue⟩, fun a => ?_, ?_⟩,
    fun hnone => ?_⟩
  · obtain ⟨hne, ha⟩ := (hmem a).mp ha
    show q.expTime a ≠ 0
    rw [htime a hne]
    exact hcore.nonzero a ha
  · rw [hcore.armed, if_pos htp]
  · rw [hcore.expiry]
    exact hexp
  · show armedOf a (s.log ++ [_]) = if a ∈ q.timers then some (q.expTime a, q.func a) else none
    rw [Deadlines.armedOf_snoc, hcore.armed]
    by_cases hatp : a = tp
    · subst hatp
      rw [if_neg fun ha => ((hmem a).mp ha).1 rfl]
      exact if_pos rfl
    have hiff : a ∈ q.timers ↔ a ∈ s.timers.timers := by
      rw [hmem]
      simp [hatp]
    simp only [hiff, htime a hatp, hfunc]
    exact if_neg (Ne.symm hatp)
  · show expiryOf (s.log ++ [_]) = s.expiring
    rw [Deadlines.expiryOf_snoc, hcore.expiry]
    rfl
  · have hnone' : s.expiring = none := hnone
    rw [hexp] at hnone'
    cases hnone'

theorem Inv.expired (h : Inv s) (hexp : s.expiring = some now) (hpop : pop s.timers now = none) :
    Inv s.expired := by
  have hcore := h.core
  have hlate : ∀ a, a ∈ s.timers.timers → now < s.timers.expTime a :=
    fun a ha => hcore.timers.pop_none hpop ha
  have hended : Core ({ s with expiring := none }.note .ended) := by
    refine ⟨hcore.timers, hcore.clk, hcore.nonzero, hcore.realtime, fun t ht => ?_,
      hcore.legal.snoc ⟨now, ?_, fun a t f harmed => ?_⟩, fun a => ?_, ?_⟩
    · cases ht
    · rw [hcore.expiry]
      exact hexp
    · rw [hcore.armed] at harmed
      split_ifs at harmed with hmem
      cases harmed
      exact hlate a hmem
    · show armedOf a (s.log ++ [_]) = _
      rw [Deadlines.armedOf_snoc, hcore.armed]
      rfl
    · show expiryOf (s.log ++ [_]) = none
      rw [Deadlines.expiryOf_snoc]
      rfl
  have hpos : s.timers.timers ≠ [] → s.timers.headTime > 0 := by
    intro hne
    obtain ⟨a, ha, heq⟩ := Queue.headTime_mem (q := s.timers) hne
    rw [heq]
    exact lt_of_le_of_lt (hcore.past now hexp).1 (hlate a ha)
  unfold State.expired
  simp only
  split_ifs with hset
  · obtain ⟨hnew, halarm⟩ := hended.sysSetalarm (t := s.timers.headTime)
    exact ⟨hnew, fun _ _ => halarm (ne_of_gt hset)⟩
  · exact ⟨hended, fun _ hne => absurd (hpos hne) hset⟩

theorem Inv.tick (h : Inv s) : Inv s.tick := by
  have hcore := h.core
  obtain ⟨hgood, hreal, hstays⟩ := hcore.clk.tick
  refine ⟨⟨hcore.timers, hgood, hcore.nonzero, ?_, fun now hnow => ?_, hcore.legal, hcore.armed,
    hcore.expiry⟩, fun hexp hne => ?_⟩
  · show 0 ≤ s.clk.tick.2.realtime
    rw [hreal]
    exact add_nonneg hcore.realtime zero_le_one
  · show 0 ≤ now ∧ now ≤ s.clk.tick.2.realtime
    obtain ⟨hzero, hle⟩ := hcore.past now hnow
    rw [hreal]
    exact ⟨hzero, hle.trans (le_add_of_nonneg_right zero_le_one)⟩
  · -- the alarm goes off, or it stays
    obtain hnote | ⟨hreg, hle⟩ := h.alarm hexp hne
    · apply Or.inl
      show (s.notified || s.clk.tick.1.contains s.self) = true
      rw [hnote]
      rfl
    · obtain hoff | ⟨hin, hsame⟩ := hstays s.self hreg
      · apply Or.inl
        show (s.notified || s.clk.tick.1.contains s.self) = true
        simp [hoff]
      · refine Or.inr ⟨hin, ?_⟩
        show s.clk.tick.2.timers.expTime s.self ≤ s.timers.headTime
        rw [hsame]
        exact hle

theorem Inv.setalarm (h : Inv s) (hp : p ≠ s.self) : Inv { s with clk := s.clk.setalarm p t } := by
  have hcore := h.core
  obtain ⟨hgood, hreal, hothers, -⟩ := hcore.clk.setalarm (p := p) (t := t)
  refine ⟨⟨hcore.timers, hgood, hcore.nonzero, ?_, fun now hnow => ?_, hcore.legal, hcore.armed,
    hcore.expiry⟩, fun hexp hne => ?_⟩
  · show 0 ≤ (s.clk.setalarm p t).realtime
    rw [hreal]
    exact hcore.realtime
  · show 0 ≤ now ∧ now ≤ (s.clk.setalarm p t).realtime
    rw [hreal]
    exact hcore.past now hnow
  obtain hnote | ⟨hreg, hle⟩ := h.alarm hexp hne
  · exact .inl hnote
  obtain ⟨hin, hsame⟩ := hothers s.self (Ne.symm hp) hreg
  refine .inr ⟨hin, ?_⟩
  show (s.clk.setalarm p t).timers.expTime s.self ≤ s.timers.headTime
  rw [hsame]
  exact hle

theorem Inv.step (h : Inv s) (hen : op.Enabled s) (hcond : NotZero s op) : Inv (step s op) := by
  cases op with
  | tick => exact h.tick
  | setalarm p t => exact h.setalarm hen
  | setTimer tp ticks f => exact h.setTimer hen hcond
  | cancelTimer tp => exact h.cancelTimer
  | expireTimers now notification => exact h.expireTimers hen.1 hen.2.1 hen.2.2.1
  | callWatchdog now => exact h.callWatchdog hen.1
  | expired now => exact h.expired hen.1 hen.2

omit [DecidableEq ι] in
theorem boot_clk (h : Boot s) : s.clk.Good where
  queue := ⟨by rw [h.clkTimers]; exact nodup_nil, by rw [h.clkTimers]; exact .nil⟩
  head hne := absurd h.clkTimers hne
  idle _ := .inr h.nextTimeout

theorem inv_boot (h : Boot s) : Inv s := by
  refine ⟨⟨⟨?_, ?_⟩, boot_clk h, ?_, h.realtime.ge, ?_, ?_, ?_, ?_⟩, fun _ hne => absurd h.timers hne⟩
  · rw [h.timers]
    exact nodup_nil
  · rw [h.timers]
    exact .nil
  · rw [h.timers]
    simp
  · rw [h.expiring]
    simp
  · rw [h.log]
    exact .nil
  · rw [h.log, h.timers]
    simp
  · rw [h.log, h.expiring]
    rfl

theorem Runs.inv (h : Runs NotZero s ops s') (hs : Inv s) : Inv s' := by
  induction h with
  | refl => exact hs
  | step _ hen hcond ih => exact ih.step hen hcond

/-! ## An expiry ends -/

def dueCount (s : State ι ω) (now : Clock) : Nat :=
  s.timers.timers.countP fun a => s.timers.expTime a ≤ now

omit [DecidableEq ι] in
theorem countP_due {l : List ι} {e e' : ι → Clock} (h : ∀ a, a ∈ l → e' a = e a) :
    l.countP (fun a => decide (e' a ≤ now)) = l.countP fun a => decide (e a ≤ now) := by
  apply countP_congr
  intro a ha
  rw [h a ha]

theorem dueCount_clrtimer (tp : ι) (now : Clock) (h : s.timers.Good) :
    (clrtimer s.timers tp).1.timers.countP
      (fun a => decide ((clrtimer s.timers tp).1.expTime a ≤ now)) ≤ dueCount s now := by
  rw [countP_due (e := s.timers.expTime) fun a ha =>
    clrtimer_expTime (h.mem_clrtimer.mp ha).1]
  exact List.Sublist.countP_le erase_sublist

theorem dueCount_setTimer (h : Inv s) (hexp : s.expiring = some now) (hdelay : 0 < ticks) :
    dueCount (s.setTimer tp ticks f) now ≤ dueCount s now := by
  have hgood := h.core.timers
  have hlate : now < s.clk.realtime + ticks :=
    lt_of_le_of_lt (h.core.past now hexp).2 (lt_add_of_pos_right _ hdelay)
  have heq : (s.setTimer tp ticks f).timers =
      (settimer s.timers tp (s.clk.realtime + ticks) f).1 := by
    simp [State.setTimer, State.note, hexp]
  unfold dueCount
  rw [heq]
  have hperm : (settimer s.timers tp (s.clk.realtime + ticks) f).1.timers.Perm
      (tp :: (clrtimer s.timers tp).1.timers) := place_perm
  rw [hperm.countP_eq, countP_cons, settimer_expTime_self, decide_eq_false (not_le.mpr hlate)]
  simp only [Bool.false_eq_true, if_false, add_zero]
  rw [countP_due (e := (clrtimer s.timers tp).1.expTime) fun a ha => ?_]
  · exact dueCount_clrtimer tp now hgood
  · have hne := (hgood.mem_clrtimer.mp ha).1
    rw [settimer_expTime hne, clrtimer_expTime hne]

theorem dueCount_callWatchdog (h : Inv s) (hpop : pop s.timers now ≠ none) :
    dueCount (s.callWatchdog now) now + 1 = dueCount s now := by
  unfold State.callWatchdog
  split
  next hnone => exact absurd hnone hpop
  rename_i tp q hpop
  obtain ⟨-, hmem, htime⟩ := h.core.timers.pop hpop
  obtain ⟨l, hl, hdue, hq⟩ := pop_some hpop
  have hql : q.timers = l := by rw [hq]
  unfold dueCount
  rw [hl, countP_cons, decide_eq_true hdue, if_pos rfl]
  show q.timers.countP (fun a => decide (q.expTime a ≤ now)) + 1 = _
  rw [countP_due (e := s.timers.expTime) fun a ha => htime a ((hmem a).mp ha).1, hql]

def Op.calls : Op ι ω → Nat
  | .callWatchdog _ => 1
  | _ => 0

theorem dueCount_step (h : Inv s) (hexp : s.expiring = some now) (hen : op.Enabled s)
    (hend : (step s op).expiring = some now) :
    op.calls + dueCount (step s op) now ≤ dueCount s now := by
  cases op with
  | tick => exact (Nat.zero_add _).le
  | setalarm p t => exact (Nat.zero_add _).le
  | setTimer tp ticks f =>
    have hle : dueCount (s.setTimer tp ticks f) now ≤ dueCount s now :=
      dueCount_setTimer h hexp (hen (by rw [hexp]; simp))
    exact (Nat.zero_add _).le.trans hle
  | cancelTimer tp =>
    have heq : (s.cancelTimer tp).timers = (clrtimer s.timers tp).1 := by
      simp [State.cancelTimer, State.note, hexp]
    have hle := dueCount_clrtimer tp now h.core.timers
    rw [← heq] at hle
    exact (Nat.zero_add _).le.trans hle
  | expireTimers t notification =>
    rw [hen.1] at hexp
    cases hexp
  | callWatchdog t =>
    obtain ⟨ht, hpop⟩ := hen
    rw [hexp] at ht
    cases ht
    exact (Nat.add_comm _ _).le.trans (dueCount_callWatchdog h hpop).le
  | expired t =>
    have hnone : (State.expired s).expiring = none := by
      simp only [State.expired, State.note, State.sysSetalarm]
      split_ifs <;> rfl
    have hend' : (State.expired s).expiring = some now := hend
    rw [hnone] at hend'
    cases hend'

/-- The expiry for `now` goes on all the time. -/
inductive Expiring (now : Clock) : State ι ω → List (Op ι ω) → State ι ω → Prop
  | refl {s : State ι ω} (hexp : s.expiring = some now) : Expiring now s [] s
  | step {s s' : State ι ω} {ops : List (Op ι ω)} {op : Op ι ω} (h : Expiring now s ops s')
      (hen : op.Enabled s') (hcond : NotZero s' op)
      (hexp : (Watchdog.step s' op).expiring = some now) :
      Expiring now s (ops ++ [op]) (Watchdog.step s' op)

theorem Expiring.expiring (h : Expiring now s ops s') : s'.expiring = some now := by
  cases h with
  | refl hexp => exact hexp
  | step h hen hcond hexp => exact hexp

theorem Expiring.bounded (h : Expiring now s ops s') (hs : Inv s) :
    Inv s' ∧ (ops.map Op.calls).sum + dueCount s' now ≤ dueCount s now := by
  induction h with
  | refl hexp => exact ⟨hs, (Nat.zero_add _).le⟩
  | @step s' ops op h hen hcond hexp ih =>
    obtain ⟨hinv, hle⟩ := ih
    refine ⟨hinv.step hen hcond, ?_⟩
    have hstep := dueCount_step hinv h.expiring hen hexp
    rw [map_append, sum_append, map_singleton, sum_singleton]
    omega

/-! ## Main result -/

structure Exact (s : State ι ω) : Prop where
  nodup : s.timers.timers.Nodup
  sorted : s.timers.timers.Pairwise fun a b => s.timers.expTime a ≤ s.timers.expTime b
  /-- a timer that is armed is called exactly once, by the first expiry that it is due for -/
  once : ∀ l₁ l₂ l₃ l₄ tp t now f,
    s.log = l₁ ++ .armed tp t f :: (l₂ ++ .began now :: (l₃ ++ .ended :: l₄)) →
    Untouched tp (l₂ ++ l₃) → .ended ∉ l₃ → t ≤ now → (∀ now', .began now' ∈ l₂ → now' < t) →
    callsOf tp l₂ = [] ∧ callsOf tp l₃ = [f]
  /-- and nothing else is called -/
  only : ∀ l m tp f, s.log = l ++ .called tp f :: m →
    ∃ l₁ t l₂ now, l = l₁ ++ .armed tp t f :: l₂ ∧ Untouched tp l₂ ∧ callsOf tp l₂ = [] ∧
      expiryOf l = some now ∧ t ≤ now
  /-- an expiry comes to its end -/
  ends : ∀ now, s.expiring = some now →
    ∀ ops s', Expiring now s ops s' → (ops.map Op.calls).sum ≤ dueCount s now
  /-- the alarm has been set for the head of the queue or earlier, or it has just gone off -/
  alarm : s.expiring = none → s.timers.timers ≠ [] → s.notified = true ∨
    s.self ∈ s.clk.timers.timers ∧ s.clk.timers.expTime s.self ≤ s.timers.headTime
  clkNodup : s.clk.timers.timers.Nodup
  clkSorted : s.clk.timers.timers.Pairwise fun a b =>
    s.clk.timers.expTime a ≤ s.clk.timers.expTime b
  nextTimeout : s.clk.timers.timers ≠ [] → s.clk.nextTimeout = s.clk.timers.headTime

/-- In every run in which no timer is set for the time 0 the timers are exact. -/
theorem timers_exact {s₀ : State ι ω} (hboot : Boot s₀) (h : Runs NotZero s₀ ops s) : Exact s := by
  have hinv := h.inv (inv_boot hboot)
  have hcore := hinv.core
  refine ⟨hcore.timers.nodup, hcore.timers.sorted, ?_, ?_, ?_, hinv.alarm, hcore.clk.queue.nodup,
    hcore.clk.queue.sorted, hcore.clk.head⟩
  · intro l1 l2 l3 l4 tp t now f hlog htouched hrun hdue hfirst
    have hlegal := hcore.legal
    rw [hlog] at hlegal
    exact hlegal.called_once htouched hrun hdue hfirst
  · intro l m tp f hlog
    have hlegal := hcore.legal
    rw [hlog] at hlegal
    exact hlegal.call_due
  · intro now _ ops s' hexpiring
    have hle := (hexpiring.bounded hinv).2
    omega

def bootState : State Nat Nat where
  self := 0
  timers := ⟨[], fun _ => tmrNever, fun _ => 0⟩
  expiring := none
  notified := false
  clk := ⟨0, ⟨[], fun _ => tmrNever, fun _ => ()⟩, 0⟩
  log := []

theorem boot_bootState : Boot bootState := ⟨rfl, rfl, rfl, rfl, rfl, rfl⟩

instance (s : State ι ω) (op : Op ι ω) : Decidable (op.Enabled s) := by
  cases op <;> unfold Op.Enabled <;> infer_instance

instance (s : State ι ω) (op : Op ι ω) : Decidable (NotZero s op) := by
  cases op <;> unfold NotZero <;> infer_instance

/-- Perform a list of operations, as long as they are enabled and meet `Cond`. -/
def runOps (Cond : State ι ω → Op ι ω → Prop) [∀ s op, Decidable (Cond s op)] :
    State ι ω → List (Op ι ω) → Option (State ι ω)
  | s, [] => some s
  | s, op :: ops => if op.Enabled s ∧ Cond s op then runOps Cond (step s op) ops else none

theorem Runs.runOps {Cond : State ι ω → Op ι ω → Prop} [∀ s op, Decidable (Cond s op)]
    {s₀ : State ι ω} {done : List (Op ι ω)} (hs : Runs Cond s₀ done s)
    (h : runOps Cond s ops = some s') : Runs Cond s₀ (done ++ ops) s' := by
  induction ops generalizing s done with
  | nil =>
    cases h
    rwa [append_nil]
  | cons op ops ih =>
    unfold Watchdog.runOps at h
    split_ifs at h with hop
    have hrest := ih (hs.step hop.1 hop.2) h
    rwa [append_assoc] at hrest

/-- A timer is set for one tick, its alarm goes off, and its watchdog sets it again. -/
def setAndExpire : List (Op Nat Nat) :=
  [.setTimer 7 1 5, .tick, .expireTimers 1 true, .callWatchdog 1, .setTimer 7 2 6, .expired 1]

/-- The watchdog has been called, and the alarm is set for the new time. -/
theorem timers_exact_again : ∃ s, Runs NotZero bootState setAndExpire s ∧
    callsOf 7 s.log = [5] ∧ s.clk.timers.expTime 0 = 3 ∧ Exact s := by
  have hrun : (runOps NotZero bootState setAndExpire).any (fun s =>
      decide (callsOf 7 s.log = [5] ∧ s.clk.timers.expTime 0 = 3)) = true := by
    decide +kernel
  obtain ⟨s, hs, hcalls⟩ := (Option.any_eq_true _ _).mp hrun
  obtain ⟨hcall, htime⟩ := of_decide_eq_true hcalls
  have hruns : Runs NotZero bootState setAndExpire s := (Runs.refl bootState).runOps hs
  exact ⟨s, hruns, hcall, htime, timers_exact boot_bootState hruns⟩

/-- A timer is set without delay before the first tick, and no alarm is set for it. -/
theorem zero_is_no_timer : ∃ ops s, Runs (fun _ _ => True) bootState ops s ∧
    s.expiring = none ∧ s.timers.timers = [7] ∧ ¬ Exact s := by
  have hrun : (runOps (fun _ _ => True) bootState [.setTimer 7 0 5]).any (fun s =>
      decide ((s.expiring = none ∧ s.timers.timers = [7]) ∧ s.notified = false ∧
        s.clk.timers.timers = [])) = true := by
    decide +kernel
  obtain ⟨s, hs, hcheck⟩ := (Option.any_eq_true _ _).mp hrun
  obtain ⟨⟨hexp, hqueue⟩, hnote, hnone⟩ := of_decide_eq_true hcheck
  refine ⟨[.setTimer 7 0 5], s, (Runs.refl bootState).runOps hs, hexp, hqueue, fun hexact => ?_⟩
  obtain hyes | ⟨hreg, -⟩ := hexact.alarm hexp (by rw [hqueue]; simp)
  · rw [hnote] at hyes
    cases hyes
  · rw [hnone] at hreg
    cases hreg

end HardenedMinix.Watchdog
