import HardenedMinix.Libblockdriver.Turns

/-!
# The workers and the queue of a device

A worker that may still run does not wait for the queue event while there are requests, unless
another one has been woken or created for the one request there is.
-/

open List

namespace HardenedMinix.Libblockdriver

open Lib

namespace Device

variable {x y : Device} {w v n : Nat} {m : Request} {r : Int} {p : Place} {q took : List Request}

/-- The worker has been made runnable, to look at the queue. -/
def Awake (x : Device) (w : Nat) : Prop := x.view w = some .woken ∨ x.view w = some .created

/-- What holds of a device with this queue. -/
structure Ok (x : Device) (q : List Request) : Prop where
  barrier : x.BarrierOk
  idle : x.Idle
  balanced : x.Balanced
  order : x.arrived = x.taken ++ q
  positive : 0 < x.workers
  max : x.workers ≤ maxWorkers
  dead : ∀ w, maxWorkers ≤ w → x.view w = some .dead
  first : x.arrived ≠ [] → x.view 0 ≠ some .dead ∧ x.view 0 ≠ some .exited
  allowed : ∀ w, x.view w = some .waiting → w < x.workers
  served : ∀ w, x.view w = some .waiting → q ≠ [] → q.length = 1 ∧ ∃ v < x.workers, x.Awake v
  created : ∀ c w, x.view c = some .created → x.view w = some .waiting → w < c → q = []

theorem Ok.lt_max (h : x.Ok q) (hw : x.view w ≠ some .dead) : w < maxWorkers := by
  by_contra hlt
  exact hw (h.dead w (Nat.not_lt.mp hlt))

/-! ## The steps of a worker -/

theorem Ok.turn (h : x.Ok (took ++ q)) (ht : Turn x y w took) (hmax : w < maxWorkers)
    (hfirst : w = 0 → x.arrived ≠ [] → y.view w ≠ some .dead ∧ y.view w ≠ some .exited)
    (hwait : y.view w = some .waiting → w < x.workers ∧ q = [])
    (hcreated : y.view w ≠ some .created)
    (hawake : took = [] → w < x.workers → ¬ x.Awake w ∨ q = []) : y.Ok q := by
  have hwaiting {u : Nat} (hu : y.view u = some .waiting) (hq : q ≠ []) :
      u ≠ w ∧ x.view u = some .waiting := by
    have huw : u ≠ w := by
      rintro rfl
      exact hq (hwait hu).2
    exact ⟨huw, (ht.view u huw).symm.trans hu⟩
  refine ⟨ht.barrier, ht.idle, ht.balanced h.balanced, ?_, ht.workers ▸ h.positive, ht.workers ▸ h.max,
    fun u hu => ?_, fun hne => ?_, fun u hu => ?_, fun u hu hq => ?_, fun c u hc hu hlt => ?_⟩
  · rw [ht.arrived, ht.taken, h.order, append_assoc]
  · rw [ht.view u (by omega)]
    exact h.dead u hu
  · rw [ht.arrived] at hne
    by_cases hw : w = 0
    · subst hw
      exact hfirst rfl hne
    · rw [ht.view 0 (Ne.symm hw)]
      exact h.first hne
  · rw [ht.workers]
    by_cases huw : u = w
    · subst huw
      exact (hwait hu).1
    · exact h.allowed u ((ht.view u huw).symm.trans hu)
  · obtain ⟨hlen, v, hv, hav⟩ := h.served u (hwaiting hu hq).2 (by simp [hq])
    have hpos := length_pos_iff.mpr hq
    rw [length_append] at hlen
    have htook : took = [] := length_eq_zero_iff.mp (by omega)
    have hvw : v ≠ w := by
      rintro rfl
      obtain hno | hnil := hawake htook hv
      · exact hno hav
      · exact hq hnil
    refine ⟨by omega, v, ht.workers ▸ hv, ?_⟩
    unfold Awake
    rw [ht.view v hvw]
    exact hav
  by_contra hq
  have hcw : c ≠ w := by
    rintro rfl
    exact hcreated hc
  have hnil := h.created c u ((ht.view c hcw).symm.trans hc) (hwaiting hu hq).2 hlt
  exact hq (append_eq_nil_iff.mp hnil).2

theorem turn_setPlace (hx : x.BarrierOk) (hidle : x.Idle) (hp : p.hold = x.hold w) :
    Turn x (x.setPlace w p) w [] := by
  have hhold (v : Nat) : (x.setPlace w p).hold v = x.hold v := by
    rw [hold_setPlace]
    split_ifs with hv
    · rw [hp, hv]
    · rfl
  refine ⟨hx.congr hhold rfl rfl rfl rfl, hidle, ?_, fun hb => ?_, rfl, rfl, fun v hv =>
    view_setPlace_of_ne hv⟩
  · have hpending : (x.setPlace w p).pending = x.pending :=
      pending_congr rfl rfl fun v => entering_congr (hhold v)
    unfold taken
    rw [hpending, append_nil]
    rfl
  · exact hb.congr rfl rfl (inside_congr fun v => insideOf_congr (hhold v))

theorem Ok.take (h : x.Ok (m :: q)) (hw : w < maxWorkers) (hhold : x.hold w = none) :
    (x.lockBarrier w m).Ok q := by
  refine Ok.turn h (turn_lockBarrier h.barrier h.idle hw hhold) hw (fun _ _ => ?_)
    (fun hwait => ?_) ?_ (fun hnil => ?_)
  · simp [lockBarrier_view]
  · simp [lockBarrier_view] at hwait
  · simp [lockBarrier_view]
  · cases hnil

theorem Ok.wait (h : x.Ok []) (hw : w < x.workers) (hhold : x.hold w = none) :
    (x.setPlace w .waiting).Ok [] := by
  refine Ok.turn h (turn_setPlace h.barrier h.idle hhold.symm)
    (Nat.lt_of_lt_of_le hw h.max) (fun _ _ => ?_) (fun _ => ⟨hw, rfl⟩) ?_ (fun _ _ => .inr rfl)
  · simp [view_setPlace_self, Place.view]
  · simp [view_setPlace_self, Place.view]

theorem Ok.exit (h : x.Ok q) (hmax : w < maxWorkers) (hw : x.workers ≤ w) (hhold : x.hold w = none) :
    (x.setPlace w .exited).Ok q := by
  refine Ok.turn h (turn_setPlace h.barrier h.idle hhold.symm) hmax (fun h0 _ => ?_)
    (fun hwait => ?_) ?_ (fun _ hlt => absurd hlt (Nat.not_lt.mpr hw))
  · have hpos := h.positive
    omega
  · simp [view_setPlace_self, Place.view] at hwait
  · simp [view_setPlace_self, Place.view]

theorem Ok.destroy (h : x.Ok q) (hw : x.view w = some .exited) : (x.setPlace w .dead).Ok q := by
  have hhold : x.hold w = none := hold_eq_none_iff.mpr (by simp [hw])
  refine Ok.turn h (turn_setPlace h.barrier h.idle hhold.symm)
    (h.lt_max (by simp [hw])) (fun h0 hne => ?_) (fun hwait => ?_) ?_ (fun _ _ => .inl ?_)
  · exact absurd (h0 ▸ hw) (h.first hne).2
  · simp [view_setPlace_self, Place.view] at hwait
  · simp [view_setPlace_self, Place.view]
  · simp [Awake, hw]

theorem Ok.goOn (h : x.Ok q) (ht : Turn x y w []) (hw : x.view w = none)
    (hy : y.view w = none ∨ y.view w = some .looking) : y.Ok q := by
  refine Ok.turn h ht (h.lt_max (by simp [hw])) (fun _ _ => ?_) (fun hwait => ?_) ?_
    (fun _ _ => .inl ?_)
  · obtain hy | hy := hy <;> simp [hy]
  · obtain hy | hy := hy <;> simp [hy] at hwait
  · obtain hy | hy := hy <;> simp [hy]
  · simp [Awake, hw]

/-! ## The number of workers -/

theorem view_fireAll : x.fireAll.view w =
    if x.view w = some .waiting then some .woken else x.view w := by
  change (if x.place w = .waiting then Place.woken else x.place w).view = _
  unfold view
  cases x.place w <;> simp [Place.view]

theorem hold_fireAll : x.fireAll.hold w = x.hold w := by
  change (if x.place w = .waiting then Place.woken else x.place w).hold = _
  unfold hold
  cases x.place w <;> simp [Place.hold]

theorem Ok.fireAll (h : x.Ok q) : x.fireAll.Ok q := by
  have hno (u : Nat) : x.fireAll.view u ≠ some .waiting := by
    rw [view_fireAll]
    split_ifs with hu
    · simp
    · exact hu
  refine ⟨h.barrier.congr (fun _ => hold_fireAll) rfl rfl rfl rfl, h.idle,
    h.balanced.congr rfl rfl (inside_congr fun _ => insideOf_congr hold_fireAll), ?_, h.positive, h.max,
    fun u hu => ?_, fun hne => ?_, fun u hu => absurd hu (hno u), fun u hu => absurd hu (hno u),
    fun _ u _ hu => absurd hu (hno u)⟩
  · have hpending : x.fireAll.pending = x.pending :=
      pending_congr rfl rfl fun _ => entering_congr hold_fireAll
    unfold taken
    rw [hpending]
    exact h.order
  · rw [view_fireAll, h.dead u hu]
    rfl
  · rw [view_fireAll]
    split_ifs
    · simp
    · exact h.first hne

/-- No worker that is to stop waits for the queue event, or has just been woken; setting the number
to one wakes all. -/
def NoneToStop (x : Device) (n : Nat) : Prop :=
  n < x.workers → n ≠ 1 → ∀ w < maxWorkers, x.place w = .waiting ∨ x.place w = .woken → w < n

instance (x : Device) (n : Nat) : Decidable (x.NoneToStop n) :=
  inferInstanceAs (Decidable (_ → _ → _))

theorem view_eq_some (hp : p.view = some p) : x.view w = some p ↔ x.place w = p := by
  unfold view
  cases hx : x.place w <;> cases p <;> simp_all [Place.view]

theorem Ok.setWorkers (h : x.Ok q) (hpos : 0 < n) (hstop : x.NoneToStop n) :
    (x.setWorkers n).Ok q := by
  have hplace {w : Nat} (hw : x.view w = some .waiting ∨ x.view w = some .woken) :
      w < maxWorkers ∧ (x.place w = .waiting ∨ x.place w = .woken) := by
    refine ⟨h.lt_max ?_, hw.imp (view_eq_some rfl).mp (view_eq_some rfl).mp⟩
    obtain hw | hw := hw <;> simp [hw]
  have hmax := h.max
  unfold Device.setWorkers
  generalize hk : (if n > maxWorkers then maxWorkers else n) = k
  have hkpos : 0 < k := by
    split_ifs at hk with hn
    · rw [← hk]
      decide
    · omega
  have hkmax : k ≤ maxWorkers := by split_ifs at hk <;> omega
  have hkn : k < x.workers → k = n := by
    intro hlt
    split_ifs at hk <;> omega
  by_cases hone : k = 1 ∧ x.workers > k
  · simp only [if_pos hone]
    have hf := h.fireAll
    have hno (u : Nat) : x.fireAll.view u ≠ some .waiting := by
      rw [view_fireAll]
      split_ifs with hu
      · simp
      · exact hu
    exact ⟨hf.barrier.congr (fun _ => rfl) rfl rfl rfl rfl, hf.idle, hf.balanced, hf.order, hkpos, hkmax,
      hf.dead, hf.first, fun u hu => absurd hu (hno u), fun u hu => absurd hu (hno u),
      fun _ u _ hu => absurd hu (hno u)⟩
  simp only [if_neg hone]
  -- nobody who waits or has been woken is to stop
  have hstays {w : Nat} (hw : x.view w = some .waiting ∨ x.view w = some .woken)
      (hlt : w < x.workers) : w < k := by
    by_cases hless : k < x.workers
    · have hkn := hkn hless
      obtain ⟨hwmax, hw⟩ := hplace hw
      have := hstop (by omega) (by omega) w hwmax hw
      omega
    · omega
  refine ⟨h.barrier.congr (fun _ => rfl) rfl rfl rfl rfl, h.idle, h.balanced, h.order, hkpos, hkmax,
    h.dead, h.first, fun u hu => hstays (.inl hu) (h.allowed u hu), fun u hu hq => ?_, h.created⟩
  obtain ⟨hlen, v, hv, hawake⟩ := h.served u hu hq
  refine ⟨hlen, v, ?_, hawake⟩
  obtain hwoken | hcreated := hawake
  · exact hstays (.inr hwoken) hv
  · by_contra hkv
    have huk := hstays (.inl hu) (h.allowed u hu)
    exact hq (h.created v u hcreated hu (Nat.lt_of_lt_of_le huk (Nat.not_lt.mp hkv)))

/-! ## A new request -/

/-- No worker thread of the device can run, and none has exited. -/
def Still (x : Device) : Prop := ∀ w, x.view w ≠ some .created ∧ x.view w ≠ some .woken ∧
  x.view w ≠ some .looking ∧ x.view w ≠ some .exited

theorem Ok.queue_eq_nil (h : x.Ok q) (hstill : x.Still) (hw : x.view w = some .waiting) : q = [] := by
  by_contra hq
  obtain ⟨-, v, -, hv | hv⟩ := h.served w hw hq
  · exact (hstill v).2.1 hv
  · exact (hstill v).1 hv

theorem state_eq_busy (w : Nat) : (x.place w).state = .busy ↔ x.view w = none := by
  unfold view
  cases x.place w <;> simp [Place.state, Place.view]

theorem firstFree_some (h : x.firstFree = some w) :
    w < x.workers ∧ x.view w ≠ none ∧ ∀ u < w, x.view u = none := by
  obtain ⟨hw, hlt, hmin⟩ := List.find?_range_eq_some.mp h
  refine ⟨mem_range.mp hlt, fun hnone => ?_, fun u hu => ?_⟩
  · simp [(state_eq_busy w).mpr hnone] at hw
  · have hbusy := hmin u hu
    simp only [ne_eq, decide_not, Bool.not_not, decide_eq_true_eq] at hbusy
    exact (state_eq_busy u).mp hbusy

theorem firstFree_none (h : x.firstFree = none) (hw : w < x.workers) : x.view w = none := by
  have hbusy := List.find?_eq_none.mp h w (mem_range.mpr hw)
  simp only [ne_eq, decide_not, Bool.not_eq_true', decide_eq_false_iff_not, Decidable.not_not] at hbusy
  exact (state_eq_busy w).mp hbusy

def create (x : Device) : Option Nat → Device
  | none => x
  | some w => x.setPlace w .created

theorem view_create {c : Option Nat} :
    (x.create c).view v = if c = some v then some .created else x.view v := by
  cases c with
  | none => rfl
  | some w => simp [create, view_setPlace, Place.view, eq_comm]

theorem view_fireQueue {pick : Option Nat} :
    (x.fireQueue pick).view v = if pick = some v then some .woken else x.view v := by
  cases pick with
  | none => rfl
  | some w => simp [fireQueue, view_setPlace, Place.view, eq_comm]

theorem hold_create {c : Option Nat} (hc : ∀ w, c = some w → x.hold w = none) :
    (x.create c).hold v = x.hold v := by
  cases c with
  | none => rfl
  | some w =>
    unfold create
    rw [hold_setPlace]
    split_ifs with hv
    · rw [hv, hc w rfl]
      rfl
    · rfl

theorem hold_fireQueue {pick : Option Nat} (hpick : ∀ w, pick = some w → x.hold w = none) :
    (x.fireQueue pick).hold v = x.hold v := by
  cases pick with
  | none => rfl
  | some w =>
    unfold fireQueue
    rw [hold_setPlace]
    split_ifs with hv
    · rw [hv, hpick w rfl]
      rfl
    · rfl

theorem Ok.create {c : Option Nat} (h : x.Ok q) (hstill : x.Still)
    (hc : ∀ w, c = some w → x.view w = some .dead ∧ w < x.workers ∧ ∀ u < w, x.view u = none) :
    (x.create c).Ok q := by
  cases c with
  | none => exact h
  | some w =>
    obtain ⟨hdead, hw, hbusy⟩ := hc w rfl
    have hhold : x.hold w = none := hold_eq_none_iff.mpr (by simp [hdead])
    have hturn := turn_setPlace (p := .created) h.barrier h.idle hhold.symm
    have hwaiting {u : Nat} (hu : (x.setPlace w .created).view u = some .waiting) :
        x.view u = some .waiting := by
      rw [view_setPlace] at hu
      split_ifs at hu with huw
      · cases hu
      · exact hu
    refine ⟨hturn.barrier, hturn.idle, hturn.balanced h.balanced, ?_, h.positive, h.max, fun u hu => ?_,
      fun hne => ?_, fun u hu => h.allowed u (hwaiting hu), fun u hu hq => ?_, fun d u hd hu hlt => ?_⟩
    · have htaken := hturn.taken
      rw [append_nil] at htaken
      change _ = (x.setPlace w .created).taken ++ q
      rw [htaken]
      exact h.order
    · have hmax := h.max
      change (x.setPlace w .created).view u = _
      rw [view_setPlace_of_ne (by omega)]
      exact h.dead u hu
    · change (x.setPlace w .created).view 0 ≠ _ ∧ (x.setPlace w .created).view 0 ≠ _
      rw [view_setPlace]
      split_ifs with hw0
      · simp [Place.view]
      · exact h.first hne
    · exact absurd (h.queue_eq_nil hstill (hwaiting hu)) hq
    · exact h.queue_eq_nil hstill (hwaiting hu)

theorem fireQueue_create {c pick : Option Nat} : (x.create c).fireQueue pick =
    { x with place := ((x.create c).fireQueue pick).place } := by
  cases c <;> cases pick <;> rfl

theorem Ok.arrive {c pick : Option Nat} (h : x.Ok q) (hstill : x.Still) (hpick : x.Picks pick)
    (hc : ∀ w, c = some w → x.view w = some .dead ∧ w < x.workers ∧ ∀ u < w, x.view u = none)
    (hfirst : x.view 0 = some .dead → c = some 0) (m : Request) :
    ({ (x.create c).fireQueue pick with arrived := x.arrived ++ [m] } : Device).Ok (q ++ [m]) := by
  have hpick' (w : Nat) (hw : pick = some w) : x.view w = some .waiting := by
    subst hw
    exact (view_eq_some rfl).mpr hpick
  rw [fireQueue_create]
  generalize hplace : ((x.create c).fireQueue pick).place = place
  set y : Device := { x with place := place, arrived := x.arrived ++ [m] } with hy
  have hview (v : Nat) : y.view v =
      if pick = some v then some .woken else if c = some v then some .created else x.view v := by
    rw [← view_create, ← view_fireQueue]
    unfold view
    rw [hplace]
  have hhold (v : Nat) : y.hold v = x.hold v := by
    have hcnone (w : Nat) (hw : c = some w) : x.hold w = none :=
      hold_eq_none_iff.mpr (by simp [(hc w hw).1])
    have hpnone (w : Nat) (hw : pick = some w) : (x.create c).hold w = none := by
      rw [hold_create hcnone]
      exact hold_eq_none_iff.mpr (by simp [hpick' w hw])
    rw [← hold_create hcnone, ← hold_fireQueue hpnone]
    unfold hold
    rw [hplace]
  -- who waits has waited before, and then there has been nothing in the queue
  have hwaiting {u : Nat} (hu : y.view u = some .waiting) :
      pick ≠ some u ∧ x.view u = some .waiting := by
    rw [hview] at hu
    split_ifs at hu with hp hcu
    · cases hu
    · cases hu
    · exact ⟨hp, hu⟩
  have hpending : y.pending = x.pending := pending_congr rfl rfl fun v => entering_congr (hhold v)
  refine ⟨h.barrier.congr hhold rfl rfl rfl rfl, h.idle,
    h.balanced.congr rfl rfl (inside_congr fun v => insideOf_congr (hhold v)), ?_, h.positive, h.max,
    fun u hu => ?_, fun _ => ?_, fun u hu => h.allowed u (hwaiting hu).2, fun u hu _ => ?_,
    fun d u hd hu hlt => ?_⟩
  · have htaken : y.taken = x.taken := congrArg (x.started.map (·.2) ++ ·) hpending
    change x.arrived ++ [m] = _
    rw [h.order, htaken, append_assoc]
  · have hdead := h.dead u hu
    have hp : pick ≠ some u := fun hp => by simp [hpick' u hp] at hdead
    have hcu : c ≠ some u := by
      intro hcu
      have hlt := (hc u hcu).2.1
      have hmax := h.max
      omega
    rw [hview, if_neg hp, if_neg hcu]
    exact hdead
  · rw [hview]
    split_ifs with hp hc0
    · simp
    · simp
    · exact ⟨fun hdead => hc0 (hfirst hdead), (hstill 0).2.2.2⟩
  · obtain ⟨hpu, hxu⟩ := hwaiting hu
    have hq := h.queue_eq_nil hstill hxu
    refine ⟨by simp [hq], ?_⟩
    cases hp : pick with
    | none =>
      subst hp
      exact absurd ((view_eq_some rfl).mp hxu) (hpick u (h.lt_max (by simp [hxu])))
    | some p =>
      refine ⟨p, h.allowed p (hpick' p hp), .inl ?_⟩
      rw [hview, if_pos hp]
  rw [hview] at hd
  split_ifs at hd with hp hcd
  · cases hd
  · have hbusy := (hc d hcd).2.2 u hlt
    rw [(hwaiting hu).2] at hbusy
    cases hbusy
  · exact absurd hd (hstill d).1

end Device

end HardenedMinix.Libblockdriver
