import HardenedMinix.Libblockdriver.Barrier

/-!
# What a worker does with the barrier

Each operation of a worker keeps the barrier, the order of the requests and the accounts of the
handler.
-/

open List

namespace HardenedMinix.Libblockdriver

open Lib

/-- The place of a worker that has taken no request. -/
def Place.view : Place → Option Place
  | .busy .. => none
  | p => some p

namespace Device

variable (x : Device)

def view (w : Nat) : Option Place := (x.place w).view

/-- The requests that the workers have taken, in their order. -/
def taken : List Request := x.started.map (·.2) ++ x.pending

/-- A request whose handling has begun has been answered by the same worker, or is still being
handled by it. -/
def Balanced : Prop := x.started.Perm (x.answered.map (fun a => (a.1, a.2.1)) ++ x.inside)

/-- The worker has gone on, and has taken these requests. -/
structure Turn (y : Device) (w : Nat) (took : List Request) : Prop where
  barrier : y.BarrierOk
  idle : y.Idle
  taken : y.taken = x.taken ++ took
  balanced : x.Balanced → y.Balanced
  workers : y.workers = x.workers
  arrived : y.arrived = x.arrived
  view : ∀ v, v ≠ w → y.view v = x.view v

variable {x} {y z : Device} {w v : Nat} {m : Request} {r : Int} {p : Place}

theorem view_setPlace : (x.setPlace w p).view v = if v = w then p.view else x.view v := by
  unfold view setPlace
  by_cases h : v = w
  · simp [h]
  · simp [h]

theorem view_setPlace_self : (x.setPlace w p).view w = p.view := by
  rw [view_setPlace, if_pos rfl]

theorem view_setPlace_of_ne (h : v ≠ w) : (x.setPlace w p).view v = x.view v := by
  rw [view_setPlace, if_neg h]

theorem hold_eq_none_iff : x.hold w = none ↔ x.view w ≠ none := by
  unfold hold view
  cases x.place w <;> simp [Place.hold, Place.view]

theorem view_eq_none (h : x.hold w = some q) : x.view w = none := by
  by_contra hv
  rw [hold_eq_none_iff.mpr hv] at h
  cases h

/-! ## The accounts -/

theorem Balanced.congr (hx : x.Balanced) (hstarted : y.started = x.started)
    (hanswered : y.answered = x.answered) (hinside : y.inside = x.inside) : y.Balanced := by
  unfold Balanced
  rw [hstarted, hanswered, hinside]
  exact hx

theorem Balanced.enter (hx : x.Balanced) (hstarted : y.started = x.started ++ [(w, m)])
    (hanswered : y.answered = x.answered) (hinside : y.inside.Perm ((w, m) :: x.inside)) :
    y.Balanced := by
  unfold Balanced
  rw [hstarted, hanswered]
  refine ((hx.append_right [(w, m)]).trans ?_).trans (hinside.symm.append_left _)
  rw [append_assoc]
  exact (perm_append_singleton _ _).append_left _

theorem Balanced.leave (hx : x.Balanced) (hstarted : y.started = x.started)
    (hanswered : y.answered = x.answered ++ [(w, m, r)])
    (hinside : x.inside.Perm ((w, m) :: y.inside)) : y.Balanced := by
  unfold Balanced
  rw [hstarted, hanswered, map_append, append_assoc]
  exact hx.trans (hinside.append_left _)

/-! ## Going into the handler -/

theorem handleRequest_hold : (x.handleRequest w m).hold w = some (.inside, m) := hold_setPlace_self

theorem locked_view : (x.locked w m).view w = none := by
  unfold locked
  split_ifs
  · exact view_setPlace_self
  · exact view_setPlace_self
  · exact view_setPlace_self

theorem lockBarrier_view : (x.lockBarrier w m).view w = none := by
  unfold lockBarrier
  split
  · exact locked_view
  · split_ifs
    · exact view_setPlace_self
    · exact view_setPlace_self

theorem turn_write {h : Hold} (hx : x.BarrierOk) (hm : m.isTransferReq = false)
    (hzero : x.readers = 0) (hh : h = .granted ∨ h = .drained) (hw : x.hold w = some (h, m)) :
    Turn x ({ x with writer := some w }.handleRequest w m) w [] := by
  have hmove : Moves x ({ x with writer := some w }.handleRequest w m) w (some (h, m))
      (some (.inside, m)) := ⟨hw, handleRequest_hold, fun v hv => hold_setPlace_of_ne hv⟩
  have hown : h.owns m := by obtain rfl | rfl := hh <;> rfl
  have hin : h ≠ .inside := by obtain rfl | rfl := hh <;> simp
  have howner : x.owner = some w := hx.owner_eq hw hown
  have hpending := hx.pending_enter hown hin hmove (.inr howner) rfl
  refine ⟨hx.write hm hzero hh hmove rfl rfl rfl rfl, fun hnone => ?_, ?_, fun hb => ?_, rfl, rfl,
    fun v hv => view_setPlace_of_ne hv⟩
  · cases howner.symm.trans hnone
  · unfold taken
    rw [hpending]
    simp [handleRequest, setPlace]
  · exact hb.enter rfl rfl (hmove.inside_enter (hx.bound w _ hw) (by grind))

theorem turn_read (hx : x.BarrierOk) (hm : m.isTransferReq) (hw : x.hold w = some (.granted, m))
    (hreleased : Released ({ x with owner := none, readers := x.readers + 1 }.handleRequest w m) y)
    (hreaders : y.readers = x.readers + 1) (hwriter : y.writer = x.writer)
    (hstarted : y.started = x.started ++ [(w, m)]) (hanswered : y.answered = x.answered)
    (hworkers : y.workers = x.workers) (harrived : y.arrived = x.arrived)
    (hview : ∀ v, v ≠ w → y.view v = x.view v) : Turn x y w [] := by
  have hmove : Moves x ({ x with owner := none, readers := x.readers + 1 }.handleRequest w m) w
      (some (.granted, m)) (some (.inside, m)) :=
    ⟨hw, handleRequest_hold, fun v hv => hold_setPlace_of_ne hv⟩
  obtain ⟨hok, hidle, hp, hi⟩ :=
    hreleased.ok (hx.read hm hmove rfl rfl rfl rfl) rfl hreaders hwriter
  have hinside := hmove.inside_enter (hx.bound w _ hw) (by simp)
  refine ⟨hok, hidle, ?_, fun hb => hb.enter hstarted hanswered (hi ▸ hinside), hworkers, harrived,
    hview⟩
  unfold taken
  rw [hx.pending_enter rfl (by simp) hmove (.inl rfl) rfl, ← hp, hstarted]
  simp

theorem turn_locked (hx : x.BarrierOk) (hw : x.hold w = some (.granted, m)) :
    Turn x (x.locked w m) w [] := by
  have howner : x.owner = some w := hx.owner_eq hw rfl
  unfold locked
  by_cases hm : m.isTransferReq
  · rw [if_pos hm]
    obtain ⟨hnil, hunlock⟩ | ⟨v, rest, m', hqueue, hv, hunlock⟩ :=
      mutexUnlock_cases fun v hv => (hx.queued v).mp hv
    · rw [hunlock]
      exact turn_read hx hm hw (.inl ⟨hnil, rfl, hnil, fun _ => rfl⟩) rfl rfl rfl rfl rfl rfl
        fun v hv => view_setPlace_of_ne hv
    rw [hunlock]
    have hvw : v ≠ w := hx.ne_of_queued (hqueue ▸ mem_cons_self) (by simp [hw])
    refine turn_read hx hm hw (.inr ⟨v, m', rfl, hqueue, ?_, ?_, fun u hu => ?_⟩)
      rfl rfl rfl rfl rfl rfl fun u hu => ?_
    · exact (hold_setPlace_of_ne hvw).trans hv
    · exact (hold_setPlace_of_ne hvw).trans hold_setPlace_self
    · by_cases huw : u = w
      · subst huw
        exact hold_setPlace_self.trans hold_setPlace_self.symm
      · exact ((hold_setPlace_of_ne huw).trans (hold_setPlace_of_ne hu)).trans
          (hold_setPlace_of_ne huw).symm
    by_cases huv : u = v
    · subst huv
      rw [view_eq_none hv]
      exact (view_setPlace_of_ne hu).trans view_setPlace_self
    · exact (view_setPlace_of_ne hu).trans (view_setPlace_of_ne huv)
  rw [if_neg hm]
  have hm' : m.isTransferReq = false := Bool.eq_false_of_not_eq_true hm
  by_cases hpos : x.readers > 0
  · rw [if_pos hpos]
    have hmove : Moves x ({ x with writer := some w }.setPlace w (.busy .draining m)) w
        (some (.granted, m)) (some (.draining, m)) :=
      ⟨hw, hold_setPlace_self, fun v hv => hold_setPlace_of_ne hv⟩
    refine ⟨hx.drain hm' hpos hmove rfl rfl rfl rfl, fun hnone => ?_, ?_, fun hb => ?_, rfl, rfl,
      fun v hv => view_setPlace_of_ne hv⟩
    · cases howner.symm.trans hnone
    · have hsame := (entering_eq hmove.after (by simp)).trans (entering_eq hw (by simp)).symm
      unfold taken
      rw [hmove.pending_eq hsame rfl rfl, append_nil]
      rfl
    · exact hb.congr rfl rfl (hmove.inside_eq (by simp) (by simp))
  · rw [if_neg hpos]
    exact turn_write hx hm' (by omega) (.inl rfl) hw

theorem turn_lockBarrier (hx : x.BarrierOk) (hidle : x.Idle) (hmax : w < maxWorkers)
    (hw : x.hold w = none) : Turn x (x.lockBarrier w m) w [m] := by
  unfold lockBarrier
  cases howner : x.owner with
  | none =>
    set y := { x with owner := some w }.setPlace w (.busy .granted m) with hy
    have hmove : Moves x y w none (some (.granted, m)) :=
      ⟨hw, hold_setPlace_self, fun v hv => hold_setPlace_of_ne hv⟩
    have hyok : y.BarrierOk := hx.grab hmax howner hmove rfl rfl rfl rfl
    have hturn := turn_locked hyok hmove.after
    have hxp : x.pending = [] := by
      unfold pending
      rw [howner, hidle howner]
      rfl
    have hyp : y.pending = [m] := by
      have hyq : y.lockQueue = [] := hidle howner
      unfold pending
      rw [hyq, append_nil]
      exact filterMap_cons_some (entering_eq hmove.after (by simp))
    refine ⟨hturn.barrier, hturn.idle, ?_, fun hb => hturn.balanced ?_, hturn.workers,
      hturn.arrived, fun v hv => (hturn.view v hv).trans (view_setPlace_of_ne hv)⟩
    · rw [hturn.taken, append_nil]
      unfold taken
      rw [hxp, hyp, append_nil]
      rfl
    · exact hb.congr rfl rfl (hmove.inside_eq (by simp) (by simp))
  | some o =>
    have hne : o ≠ w := hx.ne_of_owner howner hw
    simp only [if_neg hne]
    set y := { x with owner := some o, lockQueue := x.lockQueue ++ [w] }.setPlace w (.busy .locking m)
    have hmove : Moves x y w none (some (.locking, m)) :=
      ⟨hw, hold_setPlace_self, fun v hv => hold_setPlace_of_ne hv⟩
    have howner' : y.owner = x.owner := howner.symm
    refine ⟨hx.queue hmax hmove howner' rfl rfl rfl, fun hnone => ?_, ?_, fun hb => ?_, rfl, rfl,
      fun v hv => view_setPlace_of_ne hv⟩
    · cases hnone
    · unfold taken
      rw [hx.pending_queue hmove howner' rfl, append_assoc]
      rfl
    · exact hb.congr rfl rfl (hmove.inside_eq (by simp) (by simp))

/-! ## Leaving the handler -/

theorem turn_unwrite (hx : x.BarrierOk) (hm : m.isTransferReq = false)
    (hw : x.hold w = some (.inside, m))
    (hreleased : Released ({ x with owner := none, writer := none }.reply w m r) y)
    (hreaders : y.readers = x.readers) (hwriter : y.writer = none) (hstarted : y.started = x.started)
    (hanswered : y.answered = x.answered ++ [(w, m, r)]) (hworkers : y.workers = x.workers)
    (harrived : y.arrived = x.arrived) (hview : ∀ v, v ≠ w → y.view v = x.view v) :
    Turn x y w [] := by
  have hmove : Moves x ({ x with owner := none, writer := none }.reply w m r) w
      (some (.inside, m)) none :=
    ⟨hw, hold_setPlace_self, fun v hv => hold_setPlace_of_ne hv⟩
  obtain ⟨hok, hidle, hp, hi⟩ :=
    hreleased.ok (hx.unwrite hm hmove rfl rfl rfl rfl) rfl hreaders hwriter
  have hinside := hmove.inside_leave (hx.bound w _ hw) (by simp)
  refine ⟨hok, hidle, ?_, fun hb => hb.leave hstarted hanswered (hi ▸ hinside), hworkers, harrived,
    hview⟩
  unfold taken
  rw [hp, hx.pending_unwrite hm hmove rfl rfl, hstarted, append_nil]

theorem BarrierOk.draining_of_writer (hx : x.BarrierOk) (hpos : 0 < x.readers)
    (hv : x.writer = some v) : ∃ m, x.hold v = some (.draining, m) := by
  obtain ⟨h, m, hm, hh⟩ := (hx.writer v).mp hv
  cases h with
  | locking => cases hh
  | granted => cases hh
  | draining => exact ⟨m, hm⟩
  | drained => exact absurd (hx.drained v m hm).2 (Nat.pos_iff_ne_zero.mp hpos)
  | inside =>
    have hzero := hx.writing v m hm (by simpa [Hold.writes] using hh)
    exact absurd hzero (Nat.pos_iff_ne_zero.mp hpos)

theorem turn_unlockBarrier (hx : x.BarrierOk) (hidle : x.Idle) (hw : x.hold w = some (.inside, m)) :
    ∃ y, (x.reply w m r).unlockBarrier w = some y ∧ Turn x y w [] ∧ y.view w = some .looking := by
  unfold unlockBarrier
  by_cases hm : m.isTransferReq
  · -- a reader
    have hnot : x.writer ≠ some w := by
      intro hwriter
      obtain ⟨h, m', hw', hh⟩ := (hx.writer w).mp hwriter
      obtain ⟨rfl, rfl⟩ := Prod.mk.inj (Option.some.inj (hw.symm.trans hw'))
      simp [Hold.writes, hm] at hh
    have hpos : 0 < x.readers := by
      rw [hx.readers]
      exact countP_pos_iff.mpr ⟨(w, m), (mem_inside_iff hx).mpr hw, hm⟩
    have hwriter' : (x.reply w m r).writer ≠ some w := hnot
    have hreaders' : (x.reply w m r).readers ≠ 0 := Nat.pos_iff_ne_zero.mp hpos
    rw [if_neg hwriter', if_neg hreaders']
    set z := { x.reply w m r with readers := x.readers - 1 } with hz
    have hmove : Moves x z w (some (.inside, m)) none :=
      ⟨hw, hold_setPlace_self, fun v hv => hold_setPlace_of_ne hv⟩
    have hinside := hmove.inside_leave (hx.bound w _ hw) (by simp)
    have hentering : z.entering w = x.entering w :=
      (entering_eq_none (m := m) (.inl hmove.after)).trans (entering_eq_none (.inr hw)).symm
    have hzp : z.pending = x.pending := hmove.pending_eq hentering rfl rfl
    by_cases hlast : x.readers - 1 = 0 ∧ x.writer ≠ none
    · have hlast' : (x.reply w m r).readers - 1 = 0 ∧ (x.reply w m r).writer ≠ none := hlast
      rw [if_pos hlast']
      obtain ⟨v, hv⟩ := Option.ne_none_iff_exists'.mp hlast.2
      obtain ⟨m', hv'⟩ := hx.draining_of_writer hpos hv
      have hvw : v ≠ w := fun h => hnot (h ▸ hv)
      have hplace : z.place v = .busy .draining m' :=
        (Function.update_of_ne hvw ..).trans (place_of_hold (by simp [Stage.hold]) hv')
      have hzv : z.writer = some v := hv
      have hfire : z.fireDrain = z.setPlace v (.busy .drained m') := by
        unfold fireDrain
        simp only [hzv, hplace]
      change ∃ y, some z.fireDrain = some y ∧ _
      rw [hfire]
      have hdrain : Moves z (z.setPlace v (.busy .drained m')) v (some (.draining, m'))
          (some (.drained, m')) :=
        ⟨(hmove.rest v hvw).trans hv', hold_setPlace_self, fun u hu => hold_setPlace_of_ne hu⟩
      have hsame := (entering_eq hdrain.after (by simp)).trans (entering_eq hdrain.before (by simp)).symm
      have hyi := hdrain.inside_eq (by simp) (by simp)
      have hreaders := (Nat.sub_add_cancel hpos).symm
      refine ⟨_, rfl, ⟨hx.unreadLast hm hmove hdrain rfl rfl hreaders rfl hlast.1, hidle, ?_,
        fun hb => hb.leave rfl rfl (hyi ▸ hinside), rfl, rfl, fun u hu => ?_⟩, ?_⟩
      · unfold taken
        rw [hdrain.pending_eq hsame rfl rfl, hzp, append_nil]
        rfl
      · by_cases huv : u = v
        · subst huv
          rw [view_eq_none hdrain.after, view_eq_none hv']
        · exact (view_setPlace_of_ne huv).trans (view_setPlace_of_ne hu)
      · exact (view_setPlace_of_ne (Ne.symm hvw)).trans view_setPlace_self
    · have hlast' : ¬ ((x.reply w m r).readers - 1 = 0 ∧ (x.reply w m r).writer ≠ none) := hlast
      rw [if_neg hlast']
      refine ⟨z, rfl, ⟨?_, hidle, ?_, fun hb => hb.leave rfl rfl hinside, rfl, rfl,
        fun v hv => view_setPlace_of_ne hv⟩, view_setPlace_self⟩
      · refine hx.unread hm hmove rfl rfl (Nat.sub_add_cancel hpos).symm rfl fun hzero => ?_
        by_contra hsome
        exact hlast ⟨hzero, hsome⟩
      · unfold taken
        rw [hzp, append_nil]
        rfl
  · -- a writer
    have hm' : m.isTransferReq = false := Bool.eq_false_of_not_eq_true hm
    have hwriter : (x.reply w m r).writer = some w := hx.writer_eq hw (by simp [Hold.writes, hm'])
    rw [if_pos hwriter]
    have hqueue {v : Nat} (hv : v ∈ x.lockQueue) : v ≠ w := hx.ne_of_queued hv (by simp [hw])
    obtain ⟨hnil, hunlock⟩ | ⟨v, rest, m', hrest, hv, hunlock⟩ :=
      mutexUnlock_cases (x := { x.reply w m r with writer := none }) fun v hv => by
        obtain ⟨m', hm'⟩ := (hx.queued v).mp hv
        exact ⟨m', (hold_setPlace_of_ne (hqueue hv)).trans hm'⟩
    · rw [hunlock]
      refine ⟨_, rfl, turn_unwrite hx hm' hw (.inl ⟨hnil, rfl, hnil, fun _ => rfl⟩) rfl rfl rfl rfl
        rfl rfl fun v hv => view_setPlace_of_ne hv, view_setPlace_self⟩
    rw [hunlock]
    have hvw : v ≠ w := hqueue (hrest ▸ mem_cons_self)
    refine ⟨_, rfl, turn_unwrite hx hm' hw (.inr ⟨v, m', rfl, hrest, hv, hold_setPlace_self,
      fun u hu => hold_setPlace_of_ne hu⟩) rfl rfl rfl rfl rfl rfl fun u hu => ?_, ?_⟩
    · by_cases huv : u = v
      · subst huv
        have hu' : x.hold u = some (.locking, m') := (hold_setPlace_of_ne hu).symm.trans hv
        rw [view_eq_none hu']
        exact view_setPlace_self
      · exact (view_setPlace_of_ne huv).trans (view_setPlace_of_ne hu)
    · exact (view_setPlace_of_ne (Ne.symm hvw)).trans view_setPlace_self

end Device

end HardenedMinix.Libblockdriver
