import HardenedMinix.Lib.Roster
import HardenedMinix.Libblockdriver.Workers

/-!
# The barrier of a device

A worker is in the handler with a request that is no transfer only when no other is, and the
requests enter the handler in the order in which they have been taken.
-/

open List Option

namespace HardenedMinix.Libblockdriver

open Lib

inductive Hold
  | locking | granted | draining | drained | inside
  deriving DecidableEq, Repr

namespace Hold

/-- It owns the mutex: a writer releases it at the end only. -/
def owns (m : Request) : Hold → Bool
  | .locking => false
  | .granted | .draining | .drained => true
  | .inside => !m.isTransferReq

/-- It is the `writer`. -/
def writes (m : Request) : Hold → Bool
  | .locking | .granted => false
  | .draining | .drained => true
  | .inside => !m.isTransferReq

end Hold

def Stage.hold : Stage → Hold
  | .locking => .locking
  | .granted => .granted
  | .draining => .draining
  | .drained => .drained
  | .handling | .sleeping => .inside

theorem Stage.eq_of_hold {stage stage' : Stage} (hstage : stage.hold ≠ .inside)
    (h : stage'.hold = stage.hold) : stage' = stage := by
  cases stage <;> cases stage' <;> simp_all [Stage.hold]

def Place.hold : Place → Option (Hold × Request)
  | .busy stage m => some (stage.hold, m)
  | _ => none

namespace Device

variable (x : Device)

/-- What the worker has of the barrier, and for which request. -/
def hold (w : Nat) : Option (Hold × Request) := (x.place w).hold

/-- The request with which the worker is on its way into the handler. -/
def entering (w : Nat) : Option Request :=
  match x.hold w with
  | some (.inside, _) => none
  | some (_, m) => some m
  | none => none

/-- The requests that have been taken and have not entered the handler, in their order. -/
def pending : List Request := (x.owner.toList ++ x.lockQueue).filterMap x.entering

/-- The worker with its request, when it is in the handler. -/
def insideOf (w : Nat) : Option (Nat × Request) :=
  match x.hold w with
  | some (.inside, m) => some (w, m)
  | _ => none

def inside : List (Nat × Request) := (List.range maxWorkers).filterMap x.insideOf

/-- The fields of the barrier say where the workers are. -/
structure BarrierOk : Prop where
  bound : ∀ w p, x.hold w = some p → w < maxWorkers
  queued : ∀ w, w ∈ x.lockQueue ↔ ∃ m, x.hold w = some (.locking, m)
  nodup : x.lockQueue.Nodup
  owner : ∀ w, x.owner = some w ↔ ∃ h m, x.hold w = some (h, m) ∧ h.owns m
  writer : ∀ w, x.writer = some w ↔ ∃ h m, x.hold w = some (h, m) ∧ h.writes m
  readers : x.readers = x.inside.countP (·.2.isTransferReq)
  draining : ∀ w m, x.hold w = some (.draining, m) → m.isTransferReq = false ∧ 0 < x.readers
  drained : ∀ w m, x.hold w = some (.drained, m) → m.isTransferReq = false ∧ x.readers = 0
  writing : ∀ w m, x.hold w = some (.inside, m) → m.isTransferReq = false → x.readers = 0

/-- Nobody waits for a mutex that nobody owns. -/
def Idle : Prop := x.owner = none → x.lockQueue = []

variable {x} {y : Device} {w v : Nat} {m m' : Request} {p : Place}

theorem hold_setPlace : (x.setPlace w p).hold v = if v = w then p.hold else x.hold v := by
  unfold hold setPlace
  by_cases h : v = w
  · simp [h]
  · simp [h]

theorem hold_setPlace_self : (x.setPlace w p).hold w = p.hold := by
  rw [hold_setPlace, if_pos rfl]

theorem hold_setPlace_of_ne (h : v ≠ w) : (x.setPlace w p).hold v = x.hold v := by
  rw [hold_setPlace, if_neg h]

theorem place_of_hold {stage : Stage} (hstage : stage.hold ≠ .inside)
    (h : x.hold w = some (stage.hold, m)) : x.place w = .busy stage m := by
  unfold hold Place.hold at h
  split at h
  · next stage' m' hp =>
    obtain ⟨hs, rfl⟩ := Prod.mk.inj (some.inj h)
    rw [hp, Stage.eq_of_hold hstage hs]
  · cases h

/-! ## What depends on the places -/

theorem entering_congr (h : y.hold w = x.hold w) : y.entering w = x.entering w := by
  unfold entering
  rw [h]

theorem insideOf_congr (h : y.hold w = x.hold w) : y.insideOf w = x.insideOf w := by
  unfold insideOf
  rw [h]

theorem insideOf_eq (h : x.hold w = some (.inside, m)) : x.insideOf w = some (w, m) := by
  unfold insideOf
  rw [h]

theorem insideOf_eq_none (h : ∀ m, x.hold w ≠ some (.inside, m)) : x.insideOf w = none := by
  unfold insideOf
  split
  · next m hm => exact absurd hm (h m)
  · rfl

theorem mem_inside_iff (hx : x.BarrierOk) : (w, m) ∈ x.inside ↔ x.hold w = some (.inside, m) := by
  refine ⟨fun h => ?_, fun h => ?_⟩
  · obtain ⟨v, -, hv⟩ := mem_filterMap.mp h
    unfold insideOf at hv
    split at hv
    · next m' hm =>
      obtain ⟨rfl, rfl⟩ := Prod.mk.inj (some.inj hv)
      exact hm
    · cases hv
  · exact mem_filterMap_range (hx.bound w _ h) (insideOf_eq h)

theorem inside_enter (hw : w < maxWorkers) (hout : ∀ m, x.hold w ≠ some (.inside, m))
    (hin : y.hold w = some (.inside, m)) (hrest : ∀ v, v ≠ w → y.insideOf v = x.insideOf v) :
    y.inside.Perm ((w, m) :: x.inside) :=
  filterMap_perm_cons nodup_range (mem_range.mpr hw) hrest (insideOf_eq_none hout)
    (insideOf_eq hin)

theorem inside_congr (h : ∀ v, y.insideOf v = x.insideOf v) : y.inside = x.inside :=
  filterMap_congr fun v _ => h v

theorem pending_congr (howner : y.owner = x.owner) (hqueue : y.lockQueue = x.lockQueue)
    (h : ∀ v, y.entering v = x.entering v) : y.pending = x.pending := by
  unfold pending
  rw [howner, hqueue]
  exact filterMap_congr fun v _ => h v

theorem BarrierOk.congr (hx : x.BarrierOk) (hhold : ∀ v, y.hold v = x.hold v)
    (howner : y.owner = x.owner) (hqueue : y.lockQueue = x.lockQueue)
    (hreaders : y.readers = x.readers) (hwriter : y.writer = x.writer) : y.BarrierOk := by
  have hinside : y.inside = x.inside := inside_congr fun v => insideOf_congr (hhold v)
  refine ⟨fun v p hp => ?_, fun v => ?_, ?_, fun v => ?_, fun v => ?_, ?_, fun v m hm => ?_,
    fun v m hm => ?_, fun v m hm => ?_⟩
  · exact hx.bound v p (hhold v ▸ hp)
  · rw [hqueue, hhold]
    exact hx.queued v
  · rw [hqueue]
    exact hx.nodup
  · rw [howner, hhold]
    exact hx.owner v
  · rw [hwriter, hhold]
    exact hx.writer v
  · rw [hreaders, hinside]
    exact hx.readers
  · rw [hreaders]
    exact hx.draining v m (hhold v ▸ hm)
  · rw [hreaders]
    exact hx.drained v m (hhold v ▸ hm)
  · rw [hreaders]
    exact hx.writing v m (hhold v ▸ hm)

/-! ## One worker moves -/

/-- A worker comes to have something else of the barrier. -/
structure Moves (x y : Device) (w : Nat) (h h' : Option (Hold × Request)) : Prop where
  before : x.hold w = h
  after : y.hold w = h'
  rest : ∀ v, v ≠ w → y.hold v = x.hold v

section Moves

variable {h h' : Hold}

theorem Moves.inside_eq {p p' : Option (Hold × Request)} (hmove : Moves x y w p p')
    (hp : ∀ m, p ≠ some (.inside, m)) (hp' : ∀ m, p' ≠ some (.inside, m)) :
    y.inside = x.inside := by
  refine inside_congr fun v => ?_
  by_cases hv : v = w
  · subst hv
    rw [insideOf_eq_none fun m' hm => hp' m' (hmove.after.symm.trans hm),
      insideOf_eq_none fun m' hm => hp m' (hmove.before.symm.trans hm)]
  · exact insideOf_congr (hmove.rest v hv)

theorem Moves.inside_enter {p : Option (Hold × Request)} (hmove : Moves x y w p (some (.inside, m)))
    (hw : w < maxWorkers) (hp : ∀ m, p ≠ some (.inside, m)) :
    y.inside.Perm ((w, m) :: x.inside) :=
  Device.inside_enter hw (fun m' hm => hp m' (hmove.before.symm.trans hm)) hmove.after
    fun v hv => insideOf_congr (hmove.rest v hv)

theorem Moves.inside_leave {p : Option (Hold × Request)} (hmove : Moves x y w (some (.inside, m)) p)
    (hw : w < maxWorkers) (hp : ∀ m, p ≠ some (.inside, m)) :
    x.inside.Perm ((w, m) :: y.inside) :=
  Device.inside_enter hw (fun m' hm => hp m' (hmove.after.symm.trans hm)) hmove.before
    fun v hv => (insideOf_congr (hmove.rest v hv)).symm

theorem BarrierOk.owner_eq (hx : x.BarrierOk) (hw : x.hold w = some (h, m)) (ho : h.owns m) :
    x.owner = some w :=
  (hx.owner w).mpr ⟨h, m, hw, ho⟩

theorem BarrierOk.writer_eq (hx : x.BarrierOk) (hw : x.hold w = some (h, m)) (ho : h.writes m) :
    x.writer = some w :=
  (hx.writer w).mpr ⟨h, m, hw, ho⟩

theorem BarrierOk.only_owner (hx : x.BarrierOk) (howner : x.owner = some w) (v : Nat) (h : Hold)
    (m : Request) (hv : x.hold v = some (h, m)) (ho : h.owns m) : v = w :=
  some.inj ((hx.owner_eq hv ho).symm.trans howner)

theorem owns_of_writes (hw : h.writes m) : h.owns m := by
  cases h <;> simp_all [Hold.owns, Hold.writes]

theorem BarrierOk.queue (hx : x.BarrierOk) (hw : w < maxWorkers)
    (hmove : Moves x y w none (some (.locking, m))) (howner : y.owner = x.owner)
    (hqueue : y.lockQueue = x.lockQueue ++ [w]) (hreaders : y.readers = x.readers)
    (hwriter : y.writer = x.writer) : y.BarrierOk := by
  have hinside : y.inside = x.inside := hmove.inside_eq (by simp) (by simp)
  obtain ⟨hb, hq, hn, ho, hwr, hr, hd, hd', hi⟩ := hx
  obtain ⟨hbefore, hafter, hrest⟩ := hmove
  refine ⟨?_, ?_, ?_, ?_, ?_, ?_, ?_, ?_, ?_⟩
  · grind
  · grind
  · grind
  · grind [Hold.owns]
  · grind [Hold.writes]
  · grind
  · grind
  · grind
  · grind

theorem BarrierOk.grab (hx : x.BarrierOk) (hw : w < maxWorkers) (hfree : x.owner = none)
    (hmove : Moves x y w none (some (.granted, m))) (howner : y.owner = some w)
    (hqueue : y.lockQueue = x.lockQueue) (hreaders : y.readers = x.readers)
    (hwriter : y.writer = x.writer) : y.BarrierOk := by
  have hinside : y.inside = x.inside := hmove.inside_eq (by simp) (by simp)
  obtain ⟨hb, hq, hn, ho, hwr, hr, hd, hd', hi⟩ := hx
  obtain ⟨hbefore, hafter, hrest⟩ := hmove
  refine ⟨?_, ?_, ?_, ?_, ?_, ?_, ?_, ?_, ?_⟩
  · grind
  · grind
  · grind
  · grind [Hold.owns]
  · grind [Hold.writes]
  · grind
  · grind
  · grind
  · grind

theorem BarrierOk.handOver (hx : x.BarrierOk) (hfree : x.owner = none)
    (hmove : Moves x y w (some (.locking, m)) (some (.granted, m))) (howner : y.owner = some w)
    (hqueue : x.lockQueue = w :: y.lockQueue) (hreaders : y.readers = x.readers)
    (hwriter : y.writer = x.writer) : y.BarrierOk := by
  have hinside : y.inside = x.inside := hmove.inside_eq (by simp) (by simp)
  obtain ⟨hb, hq, hn, ho, hwr, hr, hd, hd', hi⟩ := hx
  obtain ⟨hbefore, hafter, hrest⟩ := hmove
  refine ⟨?_, ?_, ?_, ?_, ?_, ?_, ?_, ?_, ?_⟩
  · grind
  · grind
  · grind
  · grind [Hold.owns]
  · grind [Hold.writes]
  · grind
  · grind
  · grind
  · grind

theorem BarrierOk.read (hx : x.BarrierOk) (hm : m.isTransferReq)
    (hmove : Moves x y w (some (.granted, m)) (some (.inside, m))) (howner : y.owner = none)
    (hqueue : y.lockQueue = x.lockQueue) (hreaders : y.readers = x.readers + 1)
    (hwriter : y.writer = x.writer) : y.BarrierOk := by
  have hinside := hmove.inside_enter (hx.bound w _ hmove.before) (by simp)
  have hown : x.owner = some w := hx.owner_eq hmove.before rfl
  have hone := hx.only_owner hown
  obtain ⟨hb, hq, hn, ho, hwr, hr, hd, hd', hi⟩ := hx
  obtain ⟨hbefore, hafter, hrest⟩ := hmove
  refine ⟨?_, ?_, ?_, ?_, ?_, ?_, ?_, ?_, ?_⟩
  · grind
  · grind
  · grind
  · grind [Hold.owns]
  · grind [Hold.writes]
  · rw [hreaders, hr, hinside.countP_eq, countP_cons_of_pos (by simpa using hm)]
  · grind [Hold.owns]
  · grind [Hold.owns]
  · grind [Hold.owns]

theorem BarrierOk.drain (hx : x.BarrierOk) (hm : m.isTransferReq = false) (hpos : 0 < x.readers)
    (hmove : Moves x y w (some (.granted, m)) (some (.draining, m))) (howner : y.owner = x.owner)
    (hqueue : y.lockQueue = x.lockQueue) (hreaders : y.readers = x.readers)
    (hwriter : y.writer = some w) : y.BarrierOk := by
  have hinside : y.inside = x.inside := hmove.inside_eq (by simp) (by simp)
  have hown : x.owner = some w := hx.owner_eq hmove.before rfl
  have hone := hx.only_owner hown
  obtain ⟨hb, hq, hn, ho, hwr, hr, hd, hd', hi⟩ := hx
  obtain ⟨hbefore, hafter, hrest⟩ := hmove
  refine ⟨?_, ?_, ?_, ?_, ?_, ?_, ?_, ?_, ?_⟩
  · grind
  · grind
  · grind
  · grind [Hold.owns]
  · grind [Hold.writes, owns_of_writes]
  · grind
  · grind
  · grind
  · grind

theorem BarrierOk.write (hx : x.BarrierOk) (hm : m.isTransferReq = false) (hzero : x.readers = 0)
    (hh : h = .granted ∨ h = .drained)
    (hmove : Moves x y w (some (h, m)) (some (.inside, m))) (howner : y.owner = x.owner)
    (hqueue : y.lockQueue = x.lockQueue) (hreaders : y.readers = x.readers)
    (hwriter : y.writer = some w) : y.BarrierOk := by
  have hinside := hmove.inside_enter (hx.bound w _ hmove.before) (by grind)
  have hown : x.owner = some w := hx.owner_eq hmove.before (by obtain rfl | rfl := hh <;> rfl)
  have hone := hx.only_owner hown
  obtain ⟨hb, hq, hn, ho, hwr, hr, hd, hd', hi⟩ := hx
  obtain ⟨hbefore, hafter, hrest⟩ := hmove
  refine ⟨?_, ?_, ?_, ?_, ?_, ?_, ?_, ?_, ?_⟩
  · grind
  · grind
  · grind
  · grind [Hold.owns]
  · grind [Hold.writes, owns_of_writes]
  · rw [hreaders, hr, hinside.countP_eq, countP_cons_of_neg (by simp [hm])]
  · grind
  · grind
  · grind

theorem BarrierOk.unwrite (hx : x.BarrierOk) (hm : m.isTransferReq = false)
    (hmove : Moves x y w (some (.inside, m)) none) (howner : y.owner = none)
    (hqueue : y.lockQueue = x.lockQueue) (hreaders : y.readers = x.readers)
    (hwriter : y.writer = none) : y.BarrierOk := by
  have hinside := hmove.inside_leave (hx.bound w _ hmove.before) (by simp)
  have hown : x.owner = some w := hx.owner_eq hmove.before (by simp [Hold.owns, hm])
  have hone := hx.only_owner hown
  have hwri : x.writer = some w := hx.writer_eq hmove.before (by simp [Hold.writes, hm])
  obtain ⟨hb, hq, hn, ho, hwr, hr, hd, hd', hi⟩ := hx
  obtain ⟨hbefore, hafter, hrest⟩ := hmove
  refine ⟨?_, ?_, ?_, ?_, ?_, ?_, ?_, ?_, ?_⟩
  · grind
  · grind
  · grind
  · grind [Hold.owns]
  · grind [Hold.writes, owns_of_writes]
  · rw [hreaders, hr, hinside.countP_eq, countP_cons_of_neg (by simp [hm])]
  · grind
  · grind
  · grind

theorem BarrierOk.unread (hx : x.BarrierOk) (hm : m.isTransferReq)
    (hmove : Moves x y w (some (.inside, m)) none) (howner : y.owner = x.owner)
    (hqueue : y.lockQueue = x.lockQueue) (hreaders : x.readers = y.readers + 1)
    (hwriter : y.writer = x.writer) (hlast : y.readers = 0 → y.writer = none) : y.BarrierOk := by
  have hinside := hmove.inside_leave (hx.bound w _ hmove.before) (by simp)
  obtain ⟨hb, hq, hn, ho, hwr, hr, hd, hd', hi⟩ := hx
  obtain ⟨hbefore, hafter, hrest⟩ := hmove
  refine ⟨?_, ?_, ?_, ?_, ?_, ?_, ?_, ?_, ?_⟩
  · grind
  · grind
  · grind
  · grind [Hold.owns]
  · grind [Hold.writes, owns_of_writes]
  · rw [hinside.countP_eq, countP_cons_of_pos (by simpa using hm)] at hr
    omega
  · intro v m' hv
    have hvw : v ≠ w := fun h => by simp [h, hafter] at hv
    rw [hrest v hvw] at hv
    refine ⟨(hd v m' hv).1, Nat.pos_of_ne_zero fun hzero => ?_⟩
    have hnone := hwriter.symm.trans (hlast hzero)
    rw [(hwr v).mpr ⟨_, _, hv, rfl⟩] at hnone
    cases hnone
  · grind
  · grind

theorem BarrierOk.unreadLast {z : Device} (hx : x.BarrierOk) (hm : m.isTransferReq)
    (hmove : Moves x z w (some (.inside, m)) none)
    (hdrain : Moves z y v (some (.draining, m')) (some (.drained, m'))) (howner : y.owner = x.owner)
    (hqueue : y.lockQueue = x.lockQueue) (hreaders : x.readers = y.readers + 1)
    (hwriter : y.writer = x.writer) (hlast : y.readers = 0) : y.BarrierOk := by
  have hinside := hmove.inside_leave (hx.bound w _ hmove.before) (by simp)
  have hinside' : y.inside = z.inside := hdrain.inside_eq (by simp) (by simp)
  have hvw : v ≠ w := fun h => by
    have hbefore := hdrain.before
    simp [h, hmove.after] at hbefore
  have hv : x.hold v = some (.draining, m') := (hmove.rest v hvw).symm.trans hdrain.before
  have hown : x.owner = some v := hx.owner_eq hv rfl
  have hone := hx.only_owner hown
  obtain ⟨hb, hq, hn, ho, hwr, hr, hd, hd', hi⟩ := hx
  obtain ⟨hbefore, hafter, hrest⟩ := hmove
  obtain ⟨hbefore', hafter', hrest'⟩ := hdrain
  refine ⟨?_, ?_, ?_, ?_, ?_, ?_, ?_, ?_, ?_⟩
  · grind
  · grind
  · grind
  · grind [Hold.owns]
  · grind [Hold.writes, owns_of_writes]
  · rw [hinside.countP_eq, countP_cons_of_pos (by simpa using hm)] at hr
    rw [hinside']
    omega
  · grind [Hold.owns]
  · grind
  · grind

end Moves

/-! ## The order of the requests -/

theorem BarrierOk.ne_of_queued (hx : x.BarrierOk) (hv : v ∈ x.lockQueue)
    (hw : ∀ m, x.hold w ≠ some (.locking, m)) : v ≠ w := by
  rintro rfl
  obtain ⟨m, hm⟩ := (hx.queued v).mp hv
  exact hw m hm

theorem BarrierOk.ne_of_owner (hx : x.BarrierOk) (hv : x.owner = some v) (hw : x.hold w = none) :
    v ≠ w := by
  rintro rfl
  obtain ⟨h, m, hm, -⟩ := (hx.owner v).mp hv
  rw [hw] at hm
  cases hm

theorem entering_eq {h : Hold} (hw : x.hold w = some (h, m)) (hh : h ≠ .inside) :
    x.entering w = some m := by
  unfold entering
  rw [hw]
  cases h <;> simp_all

theorem entering_eq_none (hw : x.hold w = none ∨ x.hold w = some (.inside, m)) :
    x.entering w = none := by
  unfold entering
  obtain hw | hw := hw <;> rw [hw]

theorem Moves.pending_eq {p p' : Option (Hold × Request)} (hmove : Moves x y w p p')
    (hsame : y.entering w = x.entering w) (howner : y.owner = x.owner)
    (hqueue : y.lockQueue = x.lockQueue) : y.pending = x.pending := by
  refine pending_congr howner hqueue fun v => ?_
  by_cases hv : v = w
  · rw [hv, hsame]
  · exact entering_congr (hmove.rest v hv)

theorem BarrierOk.pending_queue (hx : x.BarrierOk) (hmove : Moves x y w none (some (.locking, m)))
    (howner : y.owner = x.owner) (hqueue : y.lockQueue = x.lockQueue ++ [w]) :
    y.pending = x.pending ++ [m] := by
  have hrest : ∀ v ∈ x.owner.toList ++ x.lockQueue, y.entering v = x.entering v := by
    refine fun v hv => entering_congr (hmove.rest v ?_)
    obtain hv | hv := mem_append.mp hv
    · exact hx.ne_of_owner (mem_toList.mp hv) hmove.before
    · exact hx.ne_of_queued hv fun m' hm' => by simp [hmove.before] at hm'
  unfold pending
  rw [howner, hqueue, ← append_assoc, filterMap_append, filterMap_congr hrest,
    filterMap_cons_some (entering_eq hmove.after (by simp)), filterMap_nil]

theorem BarrierOk.pending_enter {h : Hold} (hx : x.BarrierOk) (hh : h.owns m) (hin : h ≠ .inside)
    (hmove : Moves x y w (some (h, m)) (some (.inside, m)))
    (howner : y.owner = none ∨ y.owner = some w) (hqueue : y.lockQueue = x.lockQueue) :
    x.pending = m :: y.pending := by
  have hrest : ∀ v ∈ x.lockQueue, y.entering v = x.entering v := by
    refine fun v hv => entering_congr (hmove.rest v (hx.ne_of_queued hv fun m' hm' => ?_))
    obtain ⟨rfl, rfl⟩ := Prod.mk.inj (some.inj (hmove.before.symm.trans hm'))
    cases hh
  have hy : y.pending = x.lockQueue.filterMap x.entering := by
    unfold pending
    rw [hqueue, filterMap_append, filterMap_congr hrest]
    obtain howner | howner := howner
    · rw [howner]
      rfl
    · rw [howner, toList_some, filterMap_cons_none (entering_eq_none (.inr hmove.after)),
        filterMap_nil, nil_append]
  rw [hy, pending, hx.owner_eq hmove.before hh, toList_some, singleton_append,
    filterMap_cons_some (entering_eq hmove.before hin)]

theorem BarrierOk.pending_unwrite (hx : x.BarrierOk) (hm : m.isTransferReq = false)
    (hmove : Moves x y w (some (.inside, m)) none) (howner : y.owner = none)
    (hqueue : y.lockQueue = x.lockQueue) : y.pending = x.pending := by
  have hrest : ∀ v ∈ x.lockQueue, y.entering v = x.entering v := by
    refine fun v hv => entering_congr (hmove.rest v (hx.ne_of_queued hv fun m' hm' => ?_))
    cases hmove.before.symm.trans hm'
  have hown : x.owner = some w := hx.owner_eq hmove.before (by simp [Hold.owns, hm])
  unfold pending
  rw [howner, hqueue, hown, toList_none, nil_append, toList_some,
    singleton_append, filterMap_cons_none (entering_eq_none (.inr hmove.before)),
    filterMap_congr hrest]

/-! ## `mthread_mutex_unlock` -/

/-- The mutex that nobody owns goes to the worker at the head of the queue. -/
def Released (x y : Device) : Prop :=
  (x.lockQueue = [] ∧ y.owner = none ∧ y.lockQueue = [] ∧ ∀ v, y.hold v = x.hold v) ∨
  ∃ v m, y.owner = some v ∧ x.lockQueue = v :: y.lockQueue ∧
    Moves x y v (some (.locking, m)) (some (.granted, m))

theorem mutexUnlock_cases (hx : ∀ v ∈ x.lockQueue, ∃ m, x.hold v = some (.locking, m)) :
    (x.lockQueue = [] ∧ x.mutexUnlock = { x with owner := none }) ∨
    ∃ v rest m, x.lockQueue = v :: rest ∧ x.hold v = some (.locking, m) ∧
      x.mutexUnlock = { x with owner := some v, lockQueue := rest }.setPlace v (.busy .granted m) := by
  unfold mutexUnlock
  cases hqueue : x.lockQueue with
  | nil => exact .inl ⟨rfl, rfl⟩
  | cons v rest =>
    obtain ⟨m, hm⟩ := hx v (hqueue ▸ mem_cons_self)
    refine .inr ⟨v, rest, m, rfl, hm, ?_⟩
    have hplace : x.place v = .busy .locking m := place_of_hold (by simp [Stage.hold]) hm
    simp only [hplace]

theorem Released.ok (h : Released x y) (hx : x.BarrierOk) (hfree : x.owner = none)
    (hreaders : y.readers = x.readers) (hwriter : y.writer = x.writer) :
    y.BarrierOk ∧ y.Idle ∧ y.pending = x.pending ∧ y.inside = x.inside := by
  obtain ⟨hnil, howner, hqueue, hhold⟩ | ⟨v, m, howner, hqueue, hmove⟩ := h
  · have howner' : y.owner = x.owner := howner.trans hfree.symm
    have hqueue' : y.lockQueue = x.lockQueue := hqueue.trans hnil.symm
    exact ⟨hx.congr hhold howner' hqueue' hreaders hwriter, fun _ => hqueue,
      pending_congr howner' hqueue' fun v => entering_congr (hhold v),
      inside_congr fun v => insideOf_congr (hhold v)⟩
  refine ⟨hx.handOver hfree hmove howner hqueue hreaders hwriter, fun hnone => ?_, ?_,
    hmove.inside_eq (by simp) (by simp)⟩
  · rw [howner] at hnone
    cases hnone
  unfold pending
  rw [howner, hfree, hqueue]
  refine filterMap_congr fun u _ => ?_
  by_cases hu : u = v
  · rw [hu, entering_eq hmove.after (by simp), entering_eq hmove.before (by simp)]
  · exact entering_congr (hmove.rest u hu)

end Device

end HardenedMinix.Libblockdriver
