import HardenedMinix.Lib.Runs
import HardenedMinix.Libblockdriver.DeviceSteps

/-!
# Runs of the multithreaded block driver

Each request is taken, handled and answered by one worker, in the order of arrival, in every run
in which no worker that is to stop waits for the queue event or has just been woken by it. Such a
worker uses up the event.
-/

open Function List

namespace HardenedMinix.Libblockdriver

open Lib Device

namespace Driver

/-! ## What is promised -/

/-- What holds whenever the driver has made a step. -/
structure Promised (s : Driver) : Prop where
  /-- the requests start in order of arrival; the others have been taken, or are in the queue, in this
  order -/
  order : ∀ d, (s.device d).arrived =
    (s.device d).started.map (·.2) ++ (s.device d).pending ++ s.mq.queue d
  /-- each start is answered once, by the same worker, or the worker is in the handler -/
  once : ∀ d, (s.device d).started.Perm
    ((s.device d).answered.map (fun a => (a.1, a.2.1)) ++ (s.device d).inside)
  /-- a request that is no transfer is handled alone -/
  alone : ∀ d w v m m', (w, m) ∈ (s.device d).inside → m.isTransferReq = false →
    (v, m') ∈ (s.device d).inside → v = w
  /-- a worker that may run waits only if there is no request, or another one is about to take it -/
  served : ∀ d w, (s.device d).place w = .waiting → w < (s.device d).workers →
    s.mq.queue d ≠ [] → ∃ v < (s.device d).workers, ((s.device d).place v).runnable
  /-- none is, when the driver waits for a message -/
  quiet : s.halted = none → s.phase = .receive → s.Quiet
  /-- then all requests that have not been answered wait for one that sleeps in the handler -/
  sleeping : s.halted = none → s.phase = .receive → ∀ d,
    (s.device d).answered.length < (s.device d).arrived.length →
    ∃ w m, (s.device d).place w = .busy .sleeping m
  /-- the driver stops only when there is no cell for a request; no assertion fails -/
  running : s.halted = none ∨ s.halted = some .queueFull ∧ s.mq.free = 0
  cells : s.mq.free + s.mq.queued = mqSize

/-- `mthread_create` has a thread; and no worker that is to stop waits for the queue event or has
just been woken. -/
def Careful (s : Driver) : Event → Prop
  | .request _ _ thread _ => thread
  | .setWorkers d workers => (s.device d).NoneToStop workers
  | _ => True

instance (s : Driver) : DecidablePred s.Careful
  | .request _ _ thread _ => instDecidableEqBool thread true
  | .setWorkers d workers => instDecidableNoneToStop (s.device d) workers
  | .notify | .notified | .wakeup .. | .run .. | .sleep .. | .finish .. | .yielded => instDecidableTrue

/-! ## The invariant -/

/-- What holds of the devices, the queues and these exited workers. -/
structure Sound (s : Driver) (exited : List (Fin maxDevices × Nat)) : Prop where
  device : ∀ d, (s.device d).Ok (s.mq.queue d)
  cells : s.mq.free + s.mq.queued = mqSize
  exited_iff : ∀ d w, (d, w) ∈ exited ↔ (s.device d).view w = some .exited
  nodup : exited.Nodup
  halted : s.halted = none ∨ s.halted = some .queueFull ∧ s.mq.free = 0

/-- No worker can run, and no exited worker is left, when the driver waits for a message. -/
structure Inv (s : Driver) : Prop where
  sound : s.Sound s.exited
  quiet : s.halted = none → s.phase = .receive → s.Quiet ∧ s.exited = []

variable {s : Driver} {d : Fin maxDevices} {w : Nat} {x : Device}
  {exited : List (Fin maxDevices × Nat)}

theorem device_setDevice (e : Fin maxDevices) :
    (s.setDevice d x).device e = if e = d then x else s.device e := by
  unfold setDevice
  by_cases h : e = d
  · subst h
    simp
  · simp [h]

theorem device_setDevice_self : (s.setDevice d x).device d = x := by
  rw [device_setDevice, if_pos rfl]

theorem Sound.set {s' : Driver} {exited' : List (Fin maxDevices × Nat)} (h : s.Sound exited)
    (hdevice : s'.device = (s.setDevice d x).device) (hok : x.Ok (s'.mq.queue d))
    (hrest : ∀ e, e ≠ d → s'.mq.queue e = s.mq.queue e)
    (hcells : s'.mq.free + s'.mq.queued = s.mq.free + s.mq.queued)
    (hexited : ∀ e w, (e, w) ∈ exited' ↔ ((s.setDevice d x).device e).view w = some .exited)
    (hnodup : exited'.Nodup) (hhalted : s'.halted = none) : s'.Sound exited' := by
  refine ⟨fun e => ?_, hcells.trans h.cells, fun e w => hdevice ▸ hexited e w, hnodup, .inl hhalted⟩
  rw [hdevice, device_setDevice]
  split_ifs with he
  · rw [he]
    exact hok
  · rw [hrest e he]
    exact h.device e

theorem Sound.exited_of_view (h : s.Sound exited)
    (hview : ∀ w, x.view w = some .exited ↔ (s.device d).view w = some .exited) (e : Fin maxDevices)
    (w : Nat) : (e, w) ∈ exited ↔ ((s.setDevice d x).device e).view w = some .exited := by
  rw [h.exited_iff, device_setDevice]
  split_ifs with he
  · rw [he, hview]
  · rfl

theorem Sound.setDevice (h : s.Sound exited) (hrun : s.halted = none) (hok : x.Ok (s.mq.queue d))
    (hview : ∀ w, x.view w = some .exited ↔ (s.device d).view w = some .exited) :
    (s.setDevice d x).Sound exited :=
  h.set rfl hok (fun _ _ => rfl) rfl (h.exited_of_view hview) h.nodup hrun

theorem view_exited_turn {y : Device} {took : List Request} (ht : Turn x y w took)
    (hx : x.view w ≠ some .exited) (hy : y.view w ≠ some .exited) (v : Nat) :
    y.view v = some .exited ↔ x.view v = some .exited := by
  by_cases hv : v = w
  · subst hv
    simp [hx, hy]
  · rw [ht.view v hv]

/-! ## The steps of a worker -/

theorem Sound.look (h : s.Sound s.exited) (hrun : s.halted = none)
    (hhold : (s.device d).hold w = none)
    (hview : (s.device d).view w ≠ some .dead ∧ (s.device d).view w ≠ some .exited) :
    (s.look d w).Sound (s.look d w).exited := by
  have hok := h.device d
  have hmax : w < maxWorkers := hok.lt_max hview.1
  unfold Driver.look
  by_cases hw : w ≥ (s.device d).workers
  · simp only [if_pos hw]
    have hnot : (d, w) ∉ s.exited := fun hin => hview.2 ((h.exited_iff d w).mp hin)
    refine h.set rfl (hok.exit hmax hw hhold) (fun _ _ => rfl) rfl (fun e v => ?_) ?_ hrun
    · change (e, v) ∈ s.exited ++ [(d, w)] ↔ _
      rw [mem_append, h.exited_iff, mem_singleton, device_setDevice]
      by_cases he : e = d
      · subst he
        rw [if_pos rfl, view_setPlace]
        by_cases hv : v = w
        · simp [hv, Place.view]
        · simp [hv]
      · simp [he]
    · refine nodup_append.mpr ⟨h.nodup, nodup_singleton _, fun p hp q hq hpq => hnot ?_⟩
      rwa [← mem_singleton.mp hq, ← hpq]
  simp only [if_neg hw]
  cases hdequeue : s.mq.dequeue d with
  | none =>
    have hnil := Mq.dequeue_eq_none.mp hdequeue
    refine h.setDevice hrun ?_ fun v => ?_
    · rw [hnil] at hok ⊢
      exact hok.wait (Nat.not_le.mp hw) hhold
    · have hturn := turn_setPlace (p := .waiting) hok.barrier hok.idle hhold.symm
      refine view_exited_turn hturn hview.2 ?_ v
      simp [view_setPlace_self, Place.view]
  | some p =>
    obtain ⟨m, mq⟩ := p
    obtain ⟨-, hqueue, hrest⟩ := Mq.dequeue_spec hdequeue
    have hturn := turn_lockBarrier (m := m) hok.barrier hok.idle hmax hhold
    refine h.set rfl (Ok.take (hqueue ▸ hok) hmax hhold) hrest (Mq.dequeue_conserved hdequeue)
      (h.exited_of_view fun v => ?_) h.nodup hrun
    exact view_exited_turn hturn hview.2 (by simp [lockBarrier_view]) v

theorem Sound.goOn (h : s.Sound exited) (hrun : s.halted = none) (ht : Turn (s.device d) x w [])
    (hw : (s.device d).view w = none) (hx : x.view w = none ∨ x.view w = some .looking) :
    (s.setDevice d x).Sound exited := by
  refine h.setDevice hrun ((h.device d).goOn ht hw hx) (view_exited_turn ht (by simp [hw]) ?_)
  obtain hx | hx := hx <;> simp [hx]

variable {m : Request} {pick : Option Nat}

theorem view_busy {stage : Stage} (h : x.place w = .busy stage m) : x.view w = none := by
  unfold view
  rw [h]
  rfl

theorem hold_busy {stage : Stage} (h : x.place w = .busy stage m) :
    x.hold w = some (stage.hold, m) := by
  unfold hold
  rw [h]
  rfl

theorem Sound.run (h : s.Sound s.exited) (hrun : s.halted = none)
    (hrunnable : ((s.device d).place w).runnable) :
    (s.run d w).Sound (s.run d w).exited := by
  have hok := h.device d
  have hlook {p : Place} (hp : p.view = some p) (hplace : (s.device d).place w = p)
      (hne : p ≠ .dead ∧ p ≠ .exited) : (s.look d w).Sound (s.look d w).exited := by
    have hview : (s.device d).view w = some p := (view_eq_some hp).mpr hplace
    refine h.look hrun (hold_eq_none_iff.mpr (by simp [hview])) ?_
    simpa [hview] using hne
  unfold Driver.run
  cases hplace : (s.device d).place w with
  | created => simpa only [hplace] using hlook rfl hplace (by simp)
  | woken => simpa only [hplace] using hlook rfl hplace (by simp)
  | looking => simpa only [hplace] using hlook rfl hplace (by simp)
  | dead => simp [hplace, Place.runnable] at hrunnable
  | waiting => simp [hplace, Place.runnable] at hrunnable
  | exited => simp [hplace, Place.runnable] at hrunnable
  | busy stage m =>
    have hview := view_busy hplace
    have hhold := hold_busy hplace
    cases stage with
    | granted =>
      simp only [hplace]
      exact h.goOn hrun (turn_locked hok.barrier hhold) hview (.inl locked_view)
    | drained =>
      obtain ⟨hm, hzero⟩ := hok.barrier.drained w m hhold
      have hwriter : (s.device d).writer = some w := hok.barrier.writer_eq hhold rfl
      have hturn := turn_write hok.barrier hm hzero (.inr rfl) hhold
      have hsame : { s.device d with writer := some w } = s.device d := by rw [← hwriter]
      rw [hsame] at hturn
      simp only [hplace, if_pos hzero]
      exact h.goOn hrun hturn hview (.inl view_setPlace_self)
    | handling => simpa only [hplace] using h
    | locking => simp [hplace, Place.runnable] at hrunnable
    | draining => simp [hplace, Place.runnable] at hrunnable
    | sleeping => simp [hplace, Place.runnable] at hrunnable

theorem Sound.finish (h : s.Sound s.exited) (hrun : s.halted = none)
    (hin : ((s.device d).place w).handling) (r : Int) :
    (s.finish d w r).Sound (s.finish d w r).exited := by
  have hok := h.device d
  unfold Driver.finish
  cases hplace : (s.device d).place w with
  | busy stage m =>
    cases stage with
    | handling =>
      obtain ⟨x, hunlock, hturn, hview⟩ :=
        turn_unlockBarrier (r := r) hok.barrier hok.idle (hold_busy hplace)
      simp only [hunlock]
      have hs : (s.setDevice d x).Sound s.exited := h.goOn hrun hturn (view_busy hplace) (.inr hview)
      refine Sound.look (s := s.setDevice d x) hs hrun (hold_eq_none_iff.mpr ?_) ?_
      · simp [device_setDevice_self, hview]
      · simp [device_setDevice_self, hview]
    | _ => simp [hplace, Place.handling] at hin
  | _ => simp [hplace, Place.handling] at hin

theorem Sound.nap {stage stage' : Stage} (h : s.Sound exited) (hrun : s.halted = none)
    (hplace : (s.device d).place w = .busy stage m) (hstage : stage'.hold = stage.hold) :
    (s.setDevice d ((s.device d).setPlace w (.busy stage' m))).Sound exited := by
  have hok := h.device d
  refine h.goOn hrun (turn_setPlace hok.barrier hok.idle ?_) (view_busy hplace) (.inl view_setPlace_self)
  rw [hold_busy hplace, ← hstage]
  rfl

theorem Sound.sleep (h : s.Sound s.exited) (hrun : s.halted = none)
    (hin : ((s.device d).place w).handling) :
    (s.sleep d w).Sound (s.sleep d w).exited := by
  unfold Driver.sleep
  cases hplace : (s.device d).place w with
  | busy stage m =>
    cases stage with
    | handling =>
      simp only
      exact h.nap hrun hplace rfl
    | _ => simp [hplace, Place.handling] at hin
  | _ => simp [hplace, Place.handling] at hin

theorem Sound.wakeup (h : s.Sound s.exited) (hrun : s.halted = none)
    (hin : ((s.device d).place w).inHandler) :
    (s.wakeup d w).Sound (s.wakeup d w).exited := by
  unfold Driver.wakeup
  cases hplace : (s.device d).place w with
  | busy stage m =>
    cases stage with
    | sleeping =>
      simp only [hplace]
      exact h.nap hrun hplace rfl
    | handling =>
      simp only [hplace, Place.state]
      exact h
    | _ => simp [hplace, Place.inHandler] at hin
  | _ => simp [hplace, Place.inHandler] at hin

/-! ## The steps of the master thread -/

theorem view_setWorkers {n : Nat} :
    (x.setWorkers n).view w = some .exited ↔ x.view w = some .exited := by
  unfold Device.setWorkers
  simp only
  generalize (if n > maxWorkers then maxWorkers else n) = k
  by_cases hone : k = 1 ∧ x.workers > k
  · rw [if_pos hone]
    change x.fireAll.view w = _ ↔ _
    rw [view_fireAll]
    split_ifs with hw
    · simp [hw]
    · rfl
  · rw [if_neg hone]
    rfl

theorem Sound.setWorkers {n : Nat} (h : s.Sound exited) (hrun : s.halted = none) (hpos : 0 < n)
    (hstop : (s.device d).NoneToStop n) :
    (s.setDevice d ((s.device d).setWorkers n)).Sound exited :=
  h.setDevice hrun ((h.device d).setWorkers hpos hstop) fun _ => view_setWorkers

theorem Sound.enqueue {c pick : Option Nat} (h : s.Sound exited) (hrun : s.halted = none)
    (hstill : (s.device d).Still)
    (hpick : (s.device d).Picks pick)
    (hc : ∀ w, c = some w → (s.device d).view w = some .dead ∧ w < (s.device d).workers ∧
      ∀ u < w, (s.device d).view u = none)
    (hfirst : (s.device d).view 0 = some .dead → c = some 0) (m : Request) :
    ((s.setDevice d ((s.device d).create c)).enqueue d m pick).Sound exited := by
  have hok := h.device d
  have hcreate : (s.setDevice d ((s.device d).create c)).Sound exited := by
    refine h.setDevice hrun (hok.create hstill hc) fun v => ?_
    rw [view_create]
    split_ifs with hv
    · simp [(hc v hv).1]
    · rfl
  unfold Driver.enqueue
  cases henqueue : (s.setDevice d ((s.device d).create c)).mq.enqueue d m with
  | none =>
    exact ⟨hcreate.device, hcreate.cells, hcreate.exited_iff, hcreate.nodup,
      .inr ⟨rfl, Mq.enqueue_eq_none.mp henqueue⟩⟩
  | some mq =>
    obtain ⟨-, hqueue, hrest⟩ := Mq.enqueue_spec henqueue
    simp only [device_setDevice_self]
    set y : Device := { ((s.device d).create c).fireQueue pick with
      arrived := (((s.device d).create c).fireQueue pick).arrived ++ [m] } with hy
    have hyok : y.Ok (mq.queue d) := by
      have harrive := hok.arrive hstill hpick hc hfirst m
      have harrived : (((s.device d).create c).fireQueue pick).arrived = (s.device d).arrived := by
        rw [fireQueue_create]
      rw [hqueue, hy, harrived]
      exact harrive
    refine h.set ?_ hyok hrest (Mq.enqueue_conserved henqueue) (h.exited_of_view fun v => ?_) h.nodup hrun
    · funext e
      change (update (update s.device d _) d y) e = update s.device d y e
      rw [update_idem]
    change (((s.device d).create c).fireQueue pick).view v = _ ↔ _
    rw [view_fireQueue, view_create]
    split_ifs with hp hv
    · subst hp
      simp [(view_eq_some rfl).mpr hpick]
    · simp [(hc v hv).1]
    · rfl

theorem Sound.handleRequest (h : s.Sound s.exited) (hrun : s.halted = none)
    (hstill : (s.device d).Still) (hpick : (s.device d).Picks pick) (m : Request) :
    (s.handleRequest d m true pick).Sound s.exited := by
  have hok := h.device d
  have hnone (hfirst : (s.device d).view 0 ≠ some .dead) : (s.enqueue d m pick).Sound s.exited := by
    have henqueue := h.enqueue (c := none) hrun hstill hpick (fun _ hw => by cases hw)
      (fun hdead => absurd hdead hfirst) m
    have hsame : s.setDevice d ((s.device d).create none) = s := by
      unfold Driver.setDevice Device.create
      rw [update_eq_self]
    rwa [hsame] at henqueue
  unfold Driver.handleRequest
  cases hfree : (s.device d).firstFree with
  | none => exact hnone (by simp [firstFree_none hfree hok.positive])
  | some w =>
    obtain ⟨hw, hview, hbusy⟩ := firstFree_some hfree
    simp only
    -- the first worker is dead only if it is the one
    have hfirst (hdead : (s.device d).view 0 = some .dead) : w = 0 := by
      by_contra hw0
      simp [hbusy 0 (Nat.pos_of_ne_zero hw0)] at hdead
    cases hplace : (s.device d).place w with
    | dead =>
      simp only [Place.state, if_true]
      refine h.enqueue (c := some w) hrun hstill hpick (fun u hu => ?_) (fun hdead => ?_) m
      · obtain rfl := Option.some.inj hu
        exact ⟨(view_eq_some rfl).mpr hplace, hw, hbusy⟩
      · rw [hfirst hdead]
    | exited => exact absurd ((view_eq_some rfl).mpr hplace) (hstill w).2.2.2
    | _ =>
      simp only [Place.state]
      refine hnone fun hdead => ?_
      have hplace' := (view_eq_some rfl).mp (hfirst hdead ▸ hdead)
      rw [hplace] at hplace'
      cases hplace'

theorem Sound.destroyWorker {rest : List (Fin maxDevices × Nat)} (h : s.Sound ((d, w) :: rest))
    (hrun : s.halted = none) :
    s.destroyWorker (d, w) = s.setDevice d ((s.device d).setPlace w .dead) ∧
      (s.destroyWorker (d, w)).Sound rest := by
  have hview := (h.exited_iff d w).mp mem_cons_self
  have hplace := (view_eq_some rfl).mp hview
  have heq : s.destroyWorker (d, w) = s.setDevice d ((s.device d).setPlace w .dead) := by
    unfold Driver.destroyWorker
    simp [hplace, Place.state]
  obtain ⟨hnot, hnodup⟩ := nodup_cons.mp h.nodup
  refine ⟨heq, heq ▸ h.set rfl ((h.device d).destroy hview) (fun _ _ => rfl) rfl (fun e v => ?_) hnodup
    hrun⟩
  rw [device_setDevice]
  by_cases he : e = d
  · subst he
    rw [if_pos rfl, view_setPlace]
    by_cases hv : v = w
    · subst hv
      simp [hnot, Place.view]
    · rw [if_neg hv, ← h.exited_iff, mem_cons]
      simp [hv]
  · rw [if_neg he, ← h.exited_iff, mem_cons]
    simp [he]

theorem Sound.destroyWorkers (h : s.Sound exited) (hrun : s.halted = none) :
    (exited.foldl Driver.destroyWorker s).Sound [] ∧
      ∀ d w, ((exited.foldl Driver.destroyWorker s).device d).place w = (s.device d).place w ∨
        ((exited.foldl Driver.destroyWorker s).device d).place w = .dead := by
  induction exited generalizing s with
  | nil => exact ⟨h, fun _ _ => .inl rfl⟩
  | cons dw rest ih =>
    obtain ⟨d, w⟩ := dw
    obtain ⟨heq, hrest⟩ := h.destroyWorker hrun
    obtain ⟨hsound, hplace⟩ := ih hrest (heq ▸ hrun)
    refine ⟨hsound, fun e v => ?_⟩
    rw [foldl_cons]
    obtain hsame | hdead := hplace e v
    · rw [hsame, heq, device_setDevice]
      split_ifs with he
      · subst he
        by_cases hv : v = w
        · subst hv
          exact .inr (update_self ..)
        · exact .inl (update_of_ne hv ..)
      · exact .inl rfl
    · exact .inr hdead

theorem still_of_quiet (h : x.Ok q) (hquiet : ∀ w < maxWorkers, (x.place w).runnable = false)
    (hexited : ∀ w, x.view w ≠ some .exited) : x.Still := by
  have hno {w : Nat} {p : Place} (hp : p.view = some p) (hrun : p.runnable) (hne : p ≠ .dead) :
      x.view w ≠ some p := by
    intro hw
    have hplace := (view_eq_some hp).mp hw
    have hlt : w < maxWorkers := h.lt_max (by simpa [hw] using hne)
    have hq := hquiet w hlt
    rw [hplace, hrun] at hq
    cases hq
  exact fun w => ⟨hno rfl rfl (by simp), hno rfl rfl (by simp), hno rfl rfl (by simp), hexited w⟩

theorem Inv.still (h : Inv s) (hrun : s.halted = none) (hphase : s.phase = .receive)
    (d : Fin maxDevices) : (s.device d).Still := by
  obtain ⟨hquiet, hnil⟩ := h.quiet hrun hphase
  refine still_of_quiet (h.sound.device d) (hquiet d) fun w hw => ?_
  have hin := (h.sound.exited_iff d w).mpr hw
  rw [hnil] at hin
  cases hin

/-! ## Runs -/

theorem exited_handleRequest (m : Request) (thread : Bool) (pick : Option Nat) :
    (s.handleRequest d m thread pick).exited = s.exited := by
  unfold Driver.handleRequest Driver.enqueue
  repeat' split
  all_goals rfl

theorem phase_enqueue (h : (s.enqueue d m pick).halted = none) :
    (s.enqueue d m pick).phase = .yielding := by
  unfold Driver.enqueue at h ⊢
  split at h
  · cases h
  · rfl

theorem phase_handleRequest {thread : Bool} (h : (s.handleRequest d m thread pick).halted = none) :
    (s.handleRequest d m thread pick).phase = .yielding := by
  unfold Driver.handleRequest at h ⊢
  split at h
  · exact phase_enqueue h
  split at h
  · cases h
  · split_ifs at h ⊢
    · exact phase_enqueue h
    · cases h
  · exact phase_enqueue h
  · exact phase_enqueue h

theorem phase_look : (s.look d w).phase = s.phase := by
  unfold Driver.look
  simp only
  split_ifs
  · rfl
  · split <;> rfl

theorem phase_run : (s.run d w).phase = s.phase := by
  unfold Driver.run
  simp only
  split
  · exact phase_look
  · exact phase_look
  · exact phase_look
  · rfl
  · split_ifs <;> rfl
  · rfl

theorem phase_finish {r : Int} : (s.finish d w r).phase = s.phase := by
  unfold Driver.finish
  split
  · split
    · rfl
    · exact phase_look
  · rfl

theorem phase_sleep : (s.sleep d w).phase = s.phase := by
  unfold Driver.sleep
  split <;> rfl

theorem phase_wakeup : (s.wakeup d w).phase = s.phase := by
  unfold Driver.wakeup
  simp only
  split
  · rfl
  · split_ifs <;> rfl

theorem Sound.inv (h : s.Sound s.exited) (hphase : s.phase ≠ .receive) : Inv s :=
  ⟨h, fun _ hreceive => absurd hreceive hphase⟩

theorem Inv.step {e : Event} (h : Inv s) (he : s.Enabled e) (hcareful : s.Careful e) :
    Inv (s.step e) := by
  have hs := h.sound
  cases e with
  | request d m thread pick =>
    obtain ⟨hrun, hphase, hpick⟩ := he
    obtain rfl : thread = true := hcareful
    have hnext := hs.handleRequest hrun (h.still hrun hphase d) hpick m
    rw [← exited_handleRequest m true pick] at hnext
    refine ⟨hnext, fun hrun' hphase' => ?_⟩
    cases (phase_handleRequest hrun').symm.trans hphase'
  | notify =>
    exact Sound.inv ⟨hs.device, hs.cells, hs.exited_iff, hs.nodup, hs.halted⟩ (by simp [Driver.step])
  | notified =>
    exact Sound.inv ⟨hs.device, hs.cells, hs.exited_iff, hs.nodup, hs.halted⟩ (by simp [Driver.step])
  | wakeup d w =>
    obtain ⟨hrun, hphase, hin⟩ := he
    exact (hs.wakeup hrun hin).inv (by simp [phase_wakeup, hphase])
  | setWorkers d workers =>
    obtain ⟨hrun, hphase, hpos⟩ := he
    refine (hs.setWorkers hrun hpos hcareful).inv ?_
    change s.phase ≠ _
    obtain hphase | ⟨hphase, -⟩ := hphase <;> simp [hphase]
  | run d w =>
    obtain ⟨hrun, hphase, hrunnable⟩ := he
    exact (hs.run hrun hrunnable).inv (by simp [phase_run, hphase])
  | sleep d w =>
    obtain ⟨hrun, hphase, hin⟩ := he
    exact (hs.sleep hrun hin).inv (by simp [phase_sleep, hphase])
  | finish d w r =>
    obtain ⟨hrun, hphase, hin⟩ := he
    exact (hs.finish hrun hin r).inv (by simp [phase_finish, hphase])
  | yielded =>
    obtain ⟨hrun, -, hquiet⟩ := he
    obtain ⟨hsound, hplace⟩ := hs.destroyWorkers hrun
    refine ⟨⟨hsound.device, hsound.cells, hsound.exited_iff, hsound.nodup, hsound.halted⟩,
      fun _ _ => ⟨fun d w hw => ?_, rfl⟩⟩
    change (((s.exited.foldl Driver.destroyWorker s).device d).place w).runnable = false
    obtain hsame | hdead := hplace d w
    · rw [hsame]
      exact hquiet d w hw
    · rw [hdead]
      rfl

theorem init_ok : (init.device d).Ok [] := by
  have hhold (w : Nat) : (init.device d).hold w = none := rfl
  have hview (w : Nat) : (init.device d).view w = some .dead := rfl
  have hinside : (init.device d).inside = [] :=
    filterMap_eq_nil_iff.mpr fun w _ => insideOf_eq_none fun m => by simp [hhold]
  have hbarrier : (init.device d).BarrierOk := by
    refine ⟨fun w p h => ?_, fun w => ?_, nodup_nil, fun w => ?_, fun w => ?_, ?_, fun w m h => ?_,
      fun w m h => ?_, fun w m h => ?_⟩
    · cases h
    · exact iff_of_false not_mem_nil fun h => by simp [hhold] at h
    · exact iff_of_false (Option.not_mem_none w) fun h => by simp [hhold] at h
    · exact iff_of_false (Option.not_mem_none w) fun h => by simp [hhold] at h
    · rw [hinside]
      rfl
    · cases h
    · cases h
    · cases h
  refine ⟨hbarrier, fun _ => rfl, ?_, rfl, Nat.one_pos, Nat.one_le_two_pow (n := 5), fun w _ => hview w,
    fun hne => absurd rfl hne, fun w hw => ?_, fun w hw => ?_, fun c w hc => ?_⟩
  · unfold Device.Balanced
    rw [hinside]
    rfl
  · cases hw
  · cases hw
  · cases hc

theorem init_inv : Inv init := by
  refine ⟨⟨fun _ => init_ok, Mq.init_conserved, fun d w => ?_, nodup_nil, .inl rfl⟩,
    fun _ _ => ⟨fun d w _ => rfl, rfl⟩⟩
  refine ⟨fun h => ?_, fun h => ?_⟩
  · cases h
  · cases h

/-! ## What follows from the invariant -/

theorem exists_sleeping (h : x.BarrierOk) (hidle : x.Idle)
    (hquiet : ∀ w < maxWorkers, (x.place w).runnable = false) {p : Hold × Request}
    (hw : x.hold w = some p) : ∃ v m, x.place v = .busy .sleeping m := by
  have hinside {v : Nat} {m : Request} (hv : x.hold v = some (.inside, m)) :
      ∃ v m, x.place v = .busy .sleeping m := by
    have hrun := hquiet v (h.bound v _ hv)
    unfold hold Place.hold at hv
    split at hv
    · next stage m' hplace =>
      cases stage with
      | sleeping => exact ⟨v, m', hplace⟩
      | handling => simp [hplace, Place.runnable] at hrun
      | _ => simp [Stage.hold] at hv
    · cases hv
  have hreader (hpos : 0 < x.readers) : ∃ v m, x.place v = .busy .sleeping m := by
    rw [h.readers] at hpos
    obtain ⟨⟨v, m⟩, hv, -⟩ := countP_pos_iff.mp hpos
    exact hinside ((mem_inside_iff h).mp hv)
  have howner {v : Nat} {h' : Hold} {m : Request} (hv : x.hold v = some (h', m)) (ho : h'.owns m) :
      ∃ v m, x.place v = .busy .sleeping m := by
    have hrun := hquiet v (h.bound v _ hv)
    cases h' with
    | locking => cases ho
    | granted =>
      have hne : Stage.granted.hold ≠ .inside := by simp [Stage.hold]
      rw [place_of_hold hne hv] at hrun
      cases hrun
    | draining => exact hreader (h.draining v m hv).2
    | drained =>
      have hne : Stage.drained.hold ≠ .inside := by simp [Stage.hold]
      rw [place_of_hold hne hv] at hrun
      cases hrun
    | inside => exact hinside hv
  obtain ⟨h', m⟩ := p
  cases h' with
  | locking =>
    have hin := (h.queued w).mpr ⟨m, hw⟩
    cases ho : x.owner with
    | none =>
      rw [hidle ho] at hin
      cases hin
    | some v =>
      obtain ⟨h', m', hv, howns⟩ := (h.owner v).mp ho
      exact howner hv howns
  | granted => exact howner hw rfl
  | draining => exact howner hw rfl
  | drained => exact howner hw rfl
  | inside => exact hinside hw

theorem inside_alone (h : x.BarrierOk) {v : Nat} {m m' : Request} (hw : (w, m) ∈ x.inside)
    (hm : m.isTransferReq = false) (hv : (v, m') ∈ x.inside) : v = w := by
  have hw' := (mem_inside_iff h).mp hw
  have hv' := (mem_inside_iff h).mp hv
  have howner : x.owner = some w := h.owner_eq hw' (by simp [Hold.owns, hm])
  refine h.only_owner howner v _ m' hv' ?_
  have hzero := h.writing w m hw' hm
  rw [h.readers] at hzero
  have hnot := countP_eq_zero.mp hzero (v, m') hv
  simpa [Hold.owns] using hnot

theorem view_waiting (hstill : x.Still) (hhold : x.hold w = none) (hdead : x.view w ≠ some .dead) :
    x.view w = some .waiting := by
  obtain ⟨hcreated, hwoken, hlooking, hexited⟩ := hstill w
  have hview := hold_eq_none_iff.mp hhold
  unfold view at *
  cases hp : x.place w <;> simp_all [Place.view]

theorem Inv.promised (h : Inv s) : s.Promised := by
  have hok (d : Fin maxDevices) := h.sound.device d
  have hserved : ∀ d w, (s.device d).place w = .waiting → s.mq.queue d ≠ [] →
      ∃ v < (s.device d).workers, ((s.device d).place v).runnable := by
    intro d w hw hq
    obtain ⟨-, v, hv, hawake⟩ := (hok d).served w ((view_eq_some rfl).mpr hw) hq
    refine ⟨v, hv, ?_⟩
    obtain hawake | hawake := hawake
    · rw [(view_eq_some rfl).mp hawake]
      rfl
    · rw [(view_eq_some rfl).mp hawake]
      rfl
  refine ⟨fun d => (hok d).order, fun d => (hok d).balanced, fun d w v m m' hw hm hv =>
    inside_alone (hok d).barrier hw hm hv, fun d w hw _ hq => hserved d w hw hq,
    fun hrun hphase => (h.quiet hrun hphase).1, fun hrun hphase d hlt => ?_, h.sound.halted, h.sound.cells⟩
  have hquiet := (h.quiet hrun hphase).1 d
  have hstill := h.still hrun hphase d
  obtain ⟨hb, hidle⟩ := And.intro (hok d).barrier (hok d).idle
  by_cases hbusy : ∃ w p, (s.device d).hold w = some p
  · obtain ⟨w, p, hp⟩ := hbusy
    exact exists_sleeping hb hidle hquiet hp
  -- all workers are idle, so that nothing has been taken that has not been answered
  have hnone (w : Nat) : (s.device d).hold w = none :=
    Option.eq_none_iff_forall_ne_some.mpr fun p hp => hbusy ⟨w, p, hp⟩
  have hpending : (s.device d).pending = [] :=
    filterMap_eq_nil_iff.mpr fun w _ => entering_eq_none (m := ⟨0, .open, 0, 0⟩) (.inl (hnone w))
  have hinside : (s.device d).inside = [] :=
    filterMap_eq_nil_iff.mpr fun w _ => insideOf_eq_none fun m => by simp [hnone]
  have hstarted := (hok d).balanced.length_eq
  have horder := congrArg List.length (hok d).order
  rw [hinside, append_nil, length_map] at hstarted
  rw [taken, hpending, append_nil, length_append, length_map] at horder
  have hq : s.mq.queue d ≠ [] := by
    intro hq
    rw [hq, length_nil] at horder
    omega
  -- but then the first worker waits although there are requests
  have hne : (s.device d).arrived ≠ [] := by
    intro hnil
    rw [hnil, length_nil] at hlt
    omega
  obtain ⟨hdead, hexited⟩ := (hok d).first hne
  exact absurd ((hok d).queue_eq_nil hstill (view_waiting hstill (hnone 0) hdead)) hq

/-- In every run in which each step is careful, every request is handled once, in order, by a
worker of its device. -/
theorem requests_handled_once (es : List Event)
    (h : Along Driver.step (fun s e => s.Enabled e ∧ s.Careful e) init es) :
    (es.foldl Driver.step init).Promised :=
  have hstep (s : Driver) (e : Event) (hinv : Inv s) (he : s.Enabled e ∧ s.Careful e) :
      True ∧ Inv (s.step e) := ⟨trivial, hinv.step he.1 he.2⟩
  (Along.run (Q := fun _ _ => True) hstep init_inv h).2.promised

end Driver

/-! ## A worker that is to stop -/

def readRequest (id : Int) : Request := ⟨5, .read, id, 0⟩

/-- A request comes, sleeps in the handler, is woken, and is answered. -/
def oneRequest : List Event := [
  .request 0 (readRequest 0) true none, .run 0 0, .sleep 0 0, .yielded,
  .notify, .wakeup 0 0, .notified, .finish 0 0 0, .yielded]

theorem one_request_handled : (oneRequest.foldl Driver.step .init).Promised :=
  Driver.requests_handled_once oneRequest (by decide +kernel)

/-- Of three workers the third waits while the number is set to two, and the second comes to wait as
well: the next event wakes the third, which exits. -/
def stoppedWorkerWoken : List Event := [
  .request 0 (readRequest 0) true none, .run 0 0, .setWorkers 0 3, .sleep 0 0, .yielded,
  .request 0 (readRequest 1) true none, .run 0 1, .sleep 0 1, .yielded,
  .request 0 (readRequest 2) true none, .run 0 2, .finish 0 2 0, .yielded,
  .notify, .wakeup 0 1, .notified, .setWorkers 0 2, .finish 0 1 0, .yielded,
  .request 0 (readRequest 3) true (some 2), .run 0 2, .yielded]

/-- The request stays in the queue, and the second worker goes on waiting. -/
theorem stopped_worker_uses_up_event : ¬ ∀ es : List Event,
    Along Driver.step Driver.Enabled .init es → (es.foldl Driver.step .init).Promised := by
  intro h
  have hrun := h stoppedWorkerWoken (by decide +kernel)
  set s := stoppedWorkerWoken.foldl Driver.step .init with hs
  have hwaits : (s.device 0).place 1 = .waiting ∧ 1 < (s.device 0).workers ∧ s.mq.queue 0 ≠ [] := by
    decide +kernel
  have hreceives : s.halted = none ∧ s.phase = .receive := by decide +kernel
  have hmax : ∀ v < (s.device 0).workers, v < maxWorkers := by decide +kernel
  obtain ⟨v, hv, hrunnable⟩ := hrun.served 0 1 hwaits.1 hwaits.2.1 hwaits.2.2
  have hquiet := hrun.quiet hreceives.1 hreceives.2 0 v (hmax v hv)
  rw [hrunnable] at hquiet
  cases hquiet

end HardenedMinix.Libblockdriver
