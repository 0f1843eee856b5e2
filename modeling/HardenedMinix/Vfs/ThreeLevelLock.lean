import HardenedMinix.Lib.TailQueue

/-!
# The three-level lock

`tll.c` of VFS. Threads are switched only inside `worker_wait`; one that has to wait is queued
through its `w_next`, and becomes the owner before it runs again.
-/

open Function List

namespace HardenedMinix.Tll

open Lib Linked

/-! ## Data -/

/-- `tll_access_t`. -/
inductive Access where
  | none
  | read
  | readser
  | write
  deriving DecidableEq, Repr

/-- What a thread does with the lock; the code has no record of it. -/
inductive Phase where
  | idle
  | reading
  | serial
  | writing
  /-- in `worker_wait` of `tll_append` -/
  | waiting (k : Access)
  /-- in `worker_wait` of `tll_upgrade` -/
  | upgrading
  deriving DecidableEq, Repr

/-- `struct worker_thread`, as far as the queues need it. -/
structure Worker (n : Nat) where
  wNext : Option (Fin n)

instance {n : Nat} : Linked (Worker n) n where
  next w := w.wNext
  setNext _ o := ⟨o⟩
  free _ := false
  next_setNext _ _ := rfl
  free_setNext _ _ := rfl
  setNext_next _ := rfl

/-- A lock, and the threads that use it. -/
structure State (n : Nat) where
  tCurrent : Access
  tOwner : Option (Fin n)
  tReadonly : Int
  /-- `TLL_UPGR` -/
  upgr : Bool
  /-- `TLL_PEND` -/
  pend : Bool
  tWrite : Option (Fin n)
  tSerial : Option (Fin n)
  workers : Lib.Table (Worker n) n
  phase : Fin n → Phase
  /-- the thread has been signalled and has not run yet -/
  woken : Fin n → Bool

variable {n : Nat}

def State.enter (s : State n) (self : Fin n) (x : Phase) : State n :=
  { s with phase := update s.phase self x }

def State.link (s : State n) (t : Fin n) (o : Option (Fin n)) : State n :=
  { s with workers := update s.workers t ⟨o⟩ }

/-- The thread is in `worker_wait`. -/
def Phase.waits : Phase → Bool
  | .waiting _ => true
  | .upgrading => true
  | _ => false

/-- The phase of a thread that has got the lock. -/
def Access.phase : Access → Phase
  | .none => .idle
  | .read => .reading
  | .readser => .serial
  | .write => .writing

/-! ## The functions of the source

`none` is an assertion that fails, or a panic. -/

/-- `TLL_PEND` is set and the owner is signalled; `worker_signal` of a thread that does not wait
is lost. -/
def signalOwner (s : State n) : Option (State n) :=
  if s.pend = true then none
  else
    match s.tOwner with
    | none => none
    | some t =>
      some { s with
        pend := true
        woken := update s.woken t (s.woken t || (s.phase t).waits) }

/-- The head `t` of the read-serialized queue becomes the owner. -/
def grantSerial (s : State n) (t : Fin n) : Option (State n) :=
  signalOwner ({ s with tOwner := some t, tSerial := (s.workers t).wNext }.link t none)

/-- `tll_append`, up to `worker_wait`. -/
def tllAppend (s : State n) (self : Fin n) (k : Access) : Option (State n) :=
  if k = .read ∨ k = .write then
    match enqueueLast s.workers s.tWrite self with
    | none => none
    | some (workers, head) =>
      some (({ s with workers := workers, tWrite := head }.link self none).enter self (.waiting k))
  else
    match enqueueLast s.workers s.tSerial self with
    | none => none
    | some (workers, head) =>
      some (({ s with workers := workers, tSerial := head }.link self none).enter self (.waiting k))

/-- `tll_append`, after `worker_wait`. -/
def tllAppended (s : State n) (self : Fin n) (k : Access) : Option (State n) :=
  -- the assertion at the end of `worker_wait`
  if (s.workers self).wNext ≠ none then none
  else
    let s := { s with
      tCurrent := k, pend := false, tOwner := some self
      woken := update s.woken self false }.enter self k.phase
    match k with
    | .read =>
      let s := { s with tReadonly := s.tReadonly + 1, tOwner := none }
      match s.tSerial with
      | none => some s
      | some t => grantSerial s t
    | .write => if s.tReadonly = 0 then some s else none
    | _ => some s

def tllLock (s : State n) (self : Fin n) (k : Access) : Option (State n) :=
  if k = .none then none
  else
    let s := s.link self none
    if s.pend = true then tllAppend s self k
    -- the lock is the caller's own: `EBUSY`
    else if s.tOwner = some self then (if s.upgr = true then none else some s)
    else if s.tCurrent = .none then
      let s := { s with tCurrent := k }.enter self k.phase
      if k = .read then some { s with tReadonly := 1 }
      else if k = .write ∧ s.tReadonly ≠ 0 then none
      else some { s with tOwner := some self }
    else if s.tCurrent = .write then tllAppend s self k
    else if k = .write then tllAppend s self k
    -- write bias, and a lock that is being upgraded
    else if s.tWrite ≠ none ∨ s.upgr = true then tllAppend s self k
    else if s.tCurrent = .readser then
      if k = .read then some ({ s with tReadonly := s.tReadonly + 1 }.enter self .reading)
      else tllAppend s self k
    else
      let s := { s with tCurrent := k }.enter self k.phase
      if k = .read then some { s with tReadonly := s.tReadonly + 1, tOwner := none }
      else some { s with tOwner := some self }

/-- The part of `tll_unlock` that looks for a new owner. -/
def passOn (s : State n) (self : Fin n) : Option (State n × Bool) :=
  let s := { s with tOwner := none }
  match s.tWrite, s.tSerial with
  | some t, _ =>
    if s.tReadonly = 0 then
      if t = self then none
      else some ({ s with tOwner := some t, tWrite := (s.workers t).wNext }.link t none, true)
    else some (s, false)
  | none, some t =>
    if t = self then none
    else some ({ s with tOwner := some t, tSerial := (s.workers t).wNext }.link t none, true)
  | none, none => some (s, false)

/-- The end of `tll_unlock`: an unused lock is marked, and an owner is signalled. -/
def unlockEnd (s : State n) (signal : Bool) : Option (State n) :=
  let s := if s.tOwner = none then
    { s with tCurrent := if s.tReadonly = 0 then .none else .read } else s
  let s := if (s.tCurrent = .none ∨ s.tCurrent = .read) ∧ signal = false then
    { s with tOwner := none } else s
  if signal = true then signalOwner s else some s

def tllUnlock (s : State n) (self : Fin n) : Option (State n) :=
  let s := s.enter self .idle
  if s.tOwner ≠ some self then
    let s := { s with tReadonly := s.tReadonly - 1 }
    if s.tReadonly < 0 ∨ ¬ (s.tCurrent = .read ∨ s.tCurrent = .readser) then none
    else
      let signal := s.upgr && decide (s.tReadonly = 0)
      if s.tOwner = none ∧ s.tReadonly = 0 then
        match passOn s self with
        | none => none
        | some (s, handed) => unlockEnd s (signal || handed)
      else unlockEnd s signal
  else if s.tCurrent = .write ∧ s.tReadonly ≠ 0 then none
  else
    match passOn s self with
    | none => none
    | some (s, handed) => unlockEnd s handed

/-- `tll_upgrade`, up to `worker_wait`. -/
def tllUpgrade (s : State n) (self : Fin n) : Option (State n) :=
  if s.tOwner ≠ some self ∨ s.tCurrent = .read then none
  else if s.tCurrent = .write then some s
  else if s.tReadonly ≠ 0 then
    if s.upgr = true then none else some ({ s with upgr := true }.enter self .upgrading)
  else some ({ s with tCurrent := .write }.enter self .writing)

/-- `tll_upgrade`, after `worker_wait`. -/
def tllUpgraded (s : State n) (self : Fin n) : Option (State n) :=
  if (s.workers self).wNext ≠ none ∨ s.tReadonly ≠ 0 then none
  else
    some ({ s with
      upgr := false, pend := false, tCurrent := .write
      woken := update s.woken self false }.enter self .writing)

def tllDowngrade (s : State n) (self : Fin n) : Option (State n) :=
  if s.tOwner ≠ some self then none
  else
    match s.tCurrent with
    | .write => some ({ s with tCurrent := .readser }.enter self .serial)
    | .readser =>
      let s := { s with tReadonly := s.tReadonly + 1 }.enter self .reading
      match s.tWrite, s.tSerial with
      | none, some t => grantSerial s t
      | _, _ => some { s with tCurrent := .read, tOwner := none }
    | _ => none

/-! ## Threads -/

inductive Act (n : Nat) where
  | lock (self : Fin n) (k : Access)
  | unlock (self : Fin n)
  | upgrade (self : Fin n)
  | downgrade (self : Fin n)
  /-- it runs on in `worker_wait` -/
  | resume (self : Fin n)

/-- The thread holds the lock as its owner, and runs. -/
def Phase.Owning (x : Phase) : Prop := x = .serial ∨ x = .writing

/-- A lock that is held is not asked for again, except by its owner, and only a holder gives it back
or changes its mode. -/
def Act.Allowed (s : State n) : Act n → Prop
  | .lock t k => k ≠ .none ∧ (s.phase t = .idle ∨ (s.phase t).Owning)
  | .unlock t => s.phase t = .reading ∨ (s.phase t).Owning
  | .upgrade t => (s.phase t).Owning
  | .downgrade t => (s.phase t).Owning
  | .resume t => s.woken t = true

def Act.run (s : State n) : Act n → Option (State n)
  | .lock t k => tllLock s t k
  | .unlock t => tllUnlock s t
  | .upgrade t => tllUpgrade s t
  | .downgrade t => tllDowngrade s t
  | .resume t =>
    match s.phase t with
    | .waiting k => tllAppended s t k
    | .upgrading => tllUpgraded s t
    | _ => none

/-- `tll_init`, with threads that are on no queue. -/
def tllInit (n : Nat) : State n where
  tCurrent := .none
  tOwner := none
  tReadonly := 0
  upgr := false
  pend := false
  tWrite := none
  tSerial := none
  workers _ := ⟨none⟩
  phase _ := .idle
  woken _ := false

/-- The states that some interleaving of the threads reaches. -/
inductive Reachable : State n → Prop where
  | init : Reachable (tllInit n)
  | step {s s' : State n} {a : Act n} : Reachable s → a.Allowed s → a.run s = some s' → Reachable s'

/-! ## The invariant -/

variable {s s' : State n} {t u : Fin n} {k : Access} {qw qs : List (Fin n)}

/-- The thread has the lock read-serialized or for writing, maybe waiting to upgrade. -/
def Phase.Exclusive (x : Phase) : Prop := x.Owning ∨ x = .upgrading

def readers (s : State n) : Nat := (Finset.univ.filter fun t => s.phase t = .reading).card

/-- The threads that hold the lock other than for reading, and those that have been signalled. -/
structure Marks (s : State n) (owner signalled : Option (Fin n)) : Prop where
  exclusive : ∀ u, (s.phase u).Exclusive → owner = some u
  woken : ∀ u, s.woken u = true → signalled = some u

inductive Mode (s : State n) : Prop where
  | free (hc : s.tCurrent = .none) (ho : s.tOwner = none) (hr : readers s = 0)
      (hp : s.pend = false) (hu : s.upgr = false) (hm : Marks s none none)
  | reading (hc : s.tCurrent = .read) (ho : s.tOwner = none) (hr : readers s ≠ 0)
      (hp : s.pend = false) (hu : s.upgr = false) (hm : Marks s none none)
  | serial (t : Fin n) (hc : s.tCurrent = .readser) (ho : s.tOwner = some t)
      (ht : s.phase t = .serial) (hp : s.pend = false) (hu : s.upgr = false)
      (hm : Marks s (some t) none)
  | writing (t : Fin n) (hc : s.tCurrent = .write) (ho : s.tOwner = some t)
      (ht : s.phase t = .writing) (hr : readers s = 0) (hp : s.pend = false)
      (hu : s.upgr = false) (hm : Marks s (some t) none)
  | upgrading (t : Fin n) (hc : s.tCurrent = .readser) (ho : s.tOwner = some t)
      (ht : s.phase t = .upgrading) (hr : readers s ≠ 0) (hp : s.pend = false)
      (hu : s.upgr = true) (hm : Marks s (some t) none)
  /-- the last reader has left, and the owner has been told -/
  | upgraded (t : Fin n) (hc : s.tCurrent = .readser) (ho : s.tOwner = some t)
      (ht : s.phase t = .upgrading) (hr : readers s = 0) (hp : s.pend = true)
      (hu : s.upgr = true) (hw : s.woken t = true) (hm : Marks s (some t) (some t))
  /-- the lock has been handed to a thread that has not run since -/
  | handed (t : Fin n) (k : Access) (ht : s.phase t = .waiting k) (hw : s.woken t = true)
      (hn : s.tCurrent ≠ .none)
      (hr : readers s ≠ 0 → k = .readser ∧ s.tOwner = some t ∧
        (s.tCurrent = .readser ∨ s.tCurrent = .read ∧ readers s = 1))
      (ho : s.tOwner = some t ∨ s.tOwner = none) (hp : s.pend = true) (hu : s.upgr = false)
      (hm : Marks s none (some t))

/-- The queues `qw` and `qs` hold the threads that wait and have not been signalled. -/
structure Waiting (s : State n) (qw qs : List (Fin n)) : Prop where
  write : Chain s.workers s.tWrite qw
  serial : Chain s.workers s.tSerial qs
  onWrite : ∀ t, t ∈ qw ↔ s.woken t = false ∧
    (s.phase t = .waiting .read ∨ s.phase t = .waiting .write)
  onSerial : ∀ t, t ∈ qs ↔ s.woken t = false ∧ s.phase t = .waiting .readser
  access : ∀ t, s.phase t ≠ .waiting .none
  off : ∀ t, t ∉ qw → t ∉ qs → (s.workers t).wNext = none

structure Inv (s : State n) : Prop where
  queues : ∃ qw qs, Waiting s qw qs ∧ (s.tCurrent = .none → qw = [] ∧ qs = [])
  counted : s.tReadonly = readers s
  mode : Mode s

/-! ## Counting the readers -/

theorem readers_congr {x : Fin n → Phase} (h : ∀ u, x u = .reading ↔ s.phase u = .reading) :
    readers { s with phase := x } = readers s := by
  unfold readers
  simp only [h]

variable {x : Phase}

theorem readers_enter_other (hold : s.phase t ≠ .reading) (hnew : x ≠ .reading) :
    readers (s.enter t x) = readers s := by
  apply readers_congr
  intro u
  by_cases hu : u = t
  · subst hu
    simp [hold, hnew]
  · rw [update_of_ne hu]

theorem readers_enter_reading (hold : s.phase t ≠ .reading) :
    readers (s.enter t .reading) = readers s + 1 := by
  unfold readers
  rw [← Finset.card_insert_of_notMem (a := t)
    (s := Finset.univ.filter fun t => s.phase t = .reading) (by simp [hold])]
  congr 1
  ext u
  by_cases hu : u = t <;> simp [State.enter, hu, update_apply]

theorem readers_leave (hold : s.phase t = .reading) (hnew : x ≠ .reading) :
    readers (s.enter t x) + 1 = readers s := by
  unfold readers
  rw [← Finset.card_erase_add_one (a := t)
    (s := Finset.univ.filter fun t => s.phase t = .reading) (by simp [hold])]
  congr 2
  ext u
  by_cases hu : u = t <;> simp [State.enter, hu, update_apply, hnew]

/-! ## The queues -/

theorem Waiting.congr (h : Waiting s qw qs) (hworkers : s'.workers = s.workers)
    (hw : s'.tWrite = s.tWrite) (hs : s'.tSerial = s.tSerial)
    (hphase : ∀ u k, (s'.woken u = false ∧ s'.phase u = .waiting k) ↔
      (s.woken u = false ∧ s.phase u = .waiting k))
    (hacc : ∀ u, s'.phase u ≠ .waiting .none) : Waiting s' qw qs where
  write := by
    rw [hworkers, hw]
    exact h.write
  serial := by
    rw [hworkers, hs]
    exact h.serial
  onWrite u := by
    have h1 := hphase u .read
    have h2 := hphase u .write
    rw [h.onWrite]
    tauto
  onSerial u := (h.onSerial u).trans (hphase u .readser).symm
  access := hacc
  off u hu1 hu2 := by
    rw [hworkers]
    exact h.off u hu1 hu2

theorem Waiting.same (h : Waiting s qw qs) (hworkers : s'.workers = s.workers)
    (hw : s'.tWrite = s.tWrite) (hs : s'.tSerial = s.tSerial) (hwoken : s'.woken = s.woken)
    (hphase : s'.phase = s.phase) : Waiting s' qw qs := by
  refine h.congr hworkers hw hs (fun u k => ?_) ?_
  · rw [hwoken, hphase]
  · rw [hphase]
    exact h.access

theorem Waiting.notMem (h : Waiting s qw qs) (ht : ∀ k, s.phase t ≠ .waiting k) :
    t ∉ qw ∧ t ∉ qs := by
  constructor
  · intro hmem
    obtain ⟨-, hp | hp⟩ := (h.onWrite t).mp hmem
    · exact ht _ hp
    · exact ht _ hp
  · intro hmem
    exact ht _ ((h.onSerial t).mp hmem).2

theorem Waiting.disjoint (h : Waiting s qw qs) (ht : t ∈ qw) : t ∉ qs := by
  intro hmem
  have hs := ((h.onSerial t).mp hmem).2
  obtain ⟨-, hp | hp⟩ := (h.onWrite t).mp ht
  · rw [hp] at hs
    cases hs
  · rw [hp] at hs
    cases hs

theorem Waiting.link_self (h : Waiting s qw qs) (ht : ∀ k, s.phase t ≠ .waiting k) :
    s.link t none = s := by
  obtain ⟨h1, h2⟩ := h.notMem ht
  have hoff := h.off t h1 h2
  have hself : s.workers t = ⟨none⟩ := congrArg Worker.mk hoff
  unfold State.link
  rw [← hself, update_eq_self]

/-- What `tll_append` leaves of the state. -/
structure Appended (s s' : State n) (t : Fin n) (k : Access) : Prop where
  tCurrent : s'.tCurrent = s.tCurrent
  tOwner : s'.tOwner = s.tOwner
  tReadonly : s'.tReadonly = s.tReadonly
  upgr : s'.upgr = s.upgr
  pend : s'.pend = s.pend
  woken : s'.woken = s.woken
  phase : s'.phase = update s.phase t (.waiting k)
  queues : ∃ qw qs, Waiting s' qw qs

theorem tllAppend_spec (h : Waiting s qw qs) (ht : ∀ k, s.phase t ≠ .waiting k)
    (hw : s.woken t = false) (hk : k ≠ .none) :
    ∃ s', tllAppend s t k = some s' ∧ Appended s s' t k := by
  obtain ⟨h1, h2⟩ := h.notMem ht
  have hnone := h.off t h1 h2
  have hself : s.workers t = ⟨none⟩ := congrArg Worker.mk hnone
  unfold tllAppend
  by_cases hq : k = .read ∨ k = .write
  · obtain ⟨w', head, hrun, hchain, hsame⟩ := enqueueLast_spec h.write h1 hnone
    have hupd : update w' t ⟨none⟩ = w' := by
      rw [← hself, ← hsame t h1, update_eq_self]
    rw [if_pos hq, hrun]
    refine ⟨_, rfl, ⟨rfl, rfl, rfl, rfl, rfl, rfl, rfl, qw ++ [t], qs, ?_, ?_, ?_, ?_, ?_, ?_⟩⟩
    · simp only [State.enter, State.link, hupd]
      exact hchain
    · simp only [State.enter, State.link, hupd]
      apply h.serial.congr
      intro u hu
      rw [hsame u fun hmem => h.disjoint hmem hu]
    · intro u
      by_cases hu : u = t
      · subst hu
        simpa [State.enter, State.link, hw] using hq
      · simp only [State.enter, State.link, mem_append, mem_singleton, hu, or_false,
          update_of_ne hu]
        exact h.onWrite u
    · intro u
      by_cases hu : u = t
      · subst hu
        simp only [State.enter, State.link, update_self, h2, false_iff, not_and]
        intro _ hser
        cases hser
        simp at hq
      · simp only [State.enter, State.link, update_of_ne hu]
        exact h.onSerial u
    · intro u
      by_cases hu : u = t
      · subst hu
        simpa [State.enter, State.link] using hk
      · simp only [State.enter, State.link, update_of_ne hu]
        exact h.access u
    intro u hu1 hu2
    simp only [mem_append, not_or] at hu1
    simp only [State.enter, State.link, hupd]
    rw [hsame u hu1.1]
    exact h.off u hu1.1 hu2
  · obtain ⟨w', head, hrun, hchain, hsame⟩ := enqueueLast_spec h.serial h2 hnone
    have hupd : update w' t ⟨none⟩ = w' := by
      rw [← hself, ← hsame t h2, update_eq_self]
    have hser : k = .readser := by
      cases k <;> simp_all
    subst hser
    rw [if_neg hq, hrun]
    refine ⟨_, rfl, ⟨rfl, rfl, rfl, rfl, rfl, rfl, rfl, qw, qs ++ [t], ?_, ?_, ?_, ?_, ?_, ?_⟩⟩
    · simp only [State.enter, State.link, hupd]
      apply h.write.congr
      intro u hu
      rw [hsame u (h.disjoint hu)]
    · simp only [State.enter, State.link, hupd]
      exact hchain
    · intro u
      by_cases hu : u = t
      · subst hu
        simp [State.enter, State.link, h1]
      · simp only [State.enter, State.link, update_of_ne hu]
        exact h.onWrite u
    · intro u
      by_cases hu : u = t
      · subst hu
        simp [State.enter, State.link, hw]
      · simp only [State.enter, State.link, mem_append, mem_singleton, hu, or_false,
          update_of_ne hu]
        exact h.onSerial u
    · intro u
      by_cases hu : u = t
      · subst hu
        simp [State.enter, State.link]
      · simp only [State.enter, State.link, update_of_ne hu]
        exact h.access u
    intro u hu1 hu2
    simp only [mem_append, not_or] at hu2
    simp only [State.enter, State.link, hupd]
    rw [hsame u hu2.1]
    exact h.off u hu1 hu2.1

/-- Thread `t` has been made the owner and signalled. -/
structure HandedTo (s s' : State n) (t : Fin n) : Prop where
  tCurrent : s'.tCurrent = s.tCurrent
  tOwner : s'.tOwner = some t
  tReadonly : s'.tReadonly = s.tReadonly
  upgr : s'.upgr = s.upgr
  pend : s'.pend = true
  woken : s'.woken = update s.woken t true
  phase : s'.phase = s.phase

theorem handWrite (h : Waiting s (t :: qw) qs) (hp : s.pend = false) :
    ∃ s', signalOwner ({ s with tOwner := some t, tWrite := (s.workers t).wNext }.link t none) =
      some s' ∧ HandedTo s s' t ∧ Waiting s' qw qs := by
  have hmem : t ∈ t :: qw := mem_cons_self
  obtain ⟨hnotw, hphase⟩ := (h.onWrite t).mp hmem
  have hwaits : (s.phase t).waits = true := by
    obtain hp | hp := hphase <;> rw [hp] <;> rfl
  have hnodup := nodup_cons.mp h.write.nodup
  unfold signalOwner
  simp only [State.link, hp]
  refine ⟨_, rfl, ⟨rfl, rfl, rfl, rfl, rfl, by simp only [hwaits, Bool.or_true], rfl⟩, ?_, ?_, ?_, ?_, h.access, ?_⟩
  · exact Chain.of_update h.write.start_of_cons.2 hnodup.1
  · exact Chain.of_update h.serial (h.disjoint hmem)
  · intro u
    by_cases hu : u = t
    · subst hu
      simp [hnodup.1, hwaits]
    · simp only [update_of_ne hu]
      rw [← h.onWrite u, mem_cons]
      simp [hu]
  · intro u
    by_cases hu : u = t
    · subst hu
      simp [h.disjoint hmem, hwaits]
    · simp only [update_of_ne hu]
      exact h.onSerial u
  intro u hu1 hu2
  by_cases hu : u = t
  · subst hu
    simp only [update_self]
  · simp only [update_of_ne hu]
    apply h.off u
    · simp [hu, hu1]
    · exact hu2

theorem handSerial (h : Waiting s qw (t :: qs)) (hp : s.pend = false) :
    ∃ s', grantSerial s t = some s' ∧ HandedTo s s' t ∧ Waiting s' qw qs := by
  have hmem : t ∈ t :: qs := mem_cons_self
  obtain ⟨hnotw, hphase⟩ := (h.onSerial t).mp hmem
  have hwaits : (s.phase t).waits = true := by
    rw [hphase]
    rfl
  have hoffw : t ∉ qw := fun hw => h.disjoint hw hmem
  have hnodup := nodup_cons.mp h.serial.nodup
  unfold grantSerial signalOwner
  simp only [State.link, hp]
  refine ⟨_, rfl, ⟨rfl, rfl, rfl, rfl, rfl, by simp only [hwaits, Bool.or_true], rfl⟩, ?_, ?_, ?_, ?_, h.access, ?_⟩
  · exact Chain.of_update h.write hoffw
  · exact Chain.of_update h.serial.start_of_cons.2 hnodup.1
  · intro u
    by_cases hu : u = t
    · subst hu
      simp [hoffw, hwaits]
    · simp only [update_of_ne hu]
      exact h.onWrite u
  · intro u
    by_cases hu : u = t
    · subst hu
      simp [hnodup.1, hwaits]
    · simp only [update_of_ne hu]
      rw [← h.onSerial u, mem_cons]
      simp [hu]
  intro u hu1 hu2
  by_cases hu : u = t
  · subst hu
    simp only [update_self]
  · simp only [update_of_ne hu]
    apply h.off u hu1
    simp [hu, hu2]

/-! ## The modes -/

theorem ne_of_phase {x y : Phase} (hu : s.phase u = x) (ht : s.phase t = y) (hne : x ≠ y) :
    u ≠ t := by
  rintro rfl
  exact hne (hu.symm.trans ht)

theorem readers_of_phase (h : s'.phase = s.phase) : readers s' = readers s := by
  unfold readers
  rw [h]

theorem readers_ne_zero (h : s.phase t = .reading) : readers s ≠ 0 := by
  unfold readers
  exact Finset.card_ne_zero.mpr ⟨t, by simp [h]⟩

theorem Mode.of_woken (h : Mode s) (hw : s.woken t = true) : s.pend = true ∧
    ((s.tOwner = some t ∧ s.phase t = .upgrading ∧ readers s = 0 ∧ Marks s (some t) (some t)) ∨
      ∃ k, s.phase t = .waiting k ∧ (readers s ≠ 0 → k = .readser) ∧ s.upgr = false ∧
        Marks s none (some t)) := by
  cases h with
  | free hc ho hr hp hu hm => exact absurd (hm.woken t hw) (by simp)
  | reading hc ho hr hp hu hm => exact absurd (hm.woken t hw) (by simp)
  | serial u hc ho hu' hp hu hm => exact absurd (hm.woken t hw) (by simp)
  | writing u hc ho hu' hr hp hu hm => exact absurd (hm.woken t hw) (by simp)
  | upgrading u hc ho hu' hr hp hu hm => exact absurd (hm.woken t hw) (by simp)
  | upgraded u hc ho hu' hr hp hu _ hm =>
    cases hm.woken t hw
    exact ⟨hp, .inl ⟨ho, hu', hr, hm⟩⟩
  | handed u k hu' _ hn hr ho hp hu hm =>
    cases hm.woken t hw
    exact ⟨hp, .inr ⟨k, hu', fun hne => (hr hne).1, hu, hm⟩⟩

theorem Mode.woken_waits (h : Mode s) (hw : s.woken t = true) : (s.phase t).waits = true := by
  obtain ⟨-, ⟨-, ht, -⟩ | ⟨k, ht, -⟩⟩ := h.of_woken hw
  · rw [ht]
    rfl
  · rw [ht]
    rfl

theorem Mode.not_woken (h : Mode s) (hx : (s.phase u).waits = false) : s.woken u = false := by
  cases hw : s.woken u with
  | false => rfl
  | true =>
    rw [h.woken_waits hw] at hx
    cases hx

theorem Mode.congr (h : Mode s) (hc : s'.tCurrent = s.tCurrent) (ho : s'.tOwner = s.tOwner)
    (hp : s'.pend = s.pend) (hu : s'.upgr = s.upgr) (hr : readers s' = readers s)
    (hw : s'.woken = s.woken)
    (hphase : ∀ u, (s.phase u).Exclusive ∨ s.woken u = true → s'.phase u = s.phase u)
    (hex : ∀ u, (s'.phase u).Exclusive → (s.phase u).Exclusive) : Mode s' := by
  have hmarks : ∀ {o w}, Marks s o w → Marks s' o w := fun hm =>
    ⟨fun u hx => hm.exclusive u (hex u hx), fun u hx => hm.woken u (hw ▸ hx)⟩
  cases h with
  | free hc' ho' hr' hp' hu' hm =>
    exact .free (hc.trans hc') (ho.trans ho') (hr.trans hr') (hp.trans hp') (hu.trans hu')
      (hmarks hm)
  | reading hc' ho' hr' hp' hu' hm =>
    exact .reading (hc.trans hc') (ho.trans ho') (hr ▸ hr') (hp.trans hp') (hu.trans hu')
      (hmarks hm)
  | serial t hc' ho' ht hp' hu' hm =>
    have hsame := hphase t (.inl (.inl (.inl ht)))
    exact .serial t (hc.trans hc') (ho.trans ho') (hsame.trans ht) (hp.trans hp') (hu.trans hu')
      (hmarks hm)
  | writing t hc' ho' ht hr' hp' hu' hm =>
    have hsame := hphase t (.inl (.inl (.inr ht)))
    exact .writing t (hc.trans hc') (ho.trans ho') (hsame.trans ht) (hr.trans hr') (hp.trans hp')
      (hu.trans hu') (hmarks hm)
  | upgrading t hc' ho' ht hr' hp' hu' hm =>
    have hsame := hphase t (.inl (.inr ht))
    exact .upgrading t (hc.trans hc') (ho.trans ho') (hsame.trans ht) (hr ▸ hr') (hp.trans hp')
      (hu.trans hu') (hmarks hm)
  | upgraded t hc' ho' ht hr' hp' hu' hw' hm =>
    have hsame := hphase t (.inr hw')
    exact .upgraded t (hc.trans hc') (ho.trans ho') (hsame.trans ht) (hr.trans hr')
      (hp.trans hp') (hu.trans hu') (hw ▸ hw') (hmarks hm)
  | handed t k ht hw' hn hr' ho' hp' hu' hm =>
    have hsame := hphase t (.inr hw')
    refine .handed t k (hsame.trans ht) (hw ▸ hw') (hc ▸ hn) ?_ (ho ▸ ho') (hp.trans hp')
      (hu.trans hu') (hmarks hm)
    rw [hr, hc, ho]
    exact hr'

theorem Inv.append (h : Inv s) (ht : s.phase t = .idle) (hk : k ≠ .none)
    (hn : s.tCurrent ≠ .none) : ∃ s', tllAppend s t k = some s' ∧ Inv s' := by
  obtain ⟨qw, qs, hwait, -⟩ := h.queues
  have hw := h.mode.not_woken (u := t) (by rw [ht]; rfl)
  obtain ⟨s', hrun, ha⟩ := tllAppend_spec hwait (by simp [ht]) hw hk
  have hreaders : readers s' = readers s := by
    refine (readers_of_phase (s := s.enter t (.waiting k)) ha.phase).trans ?_
    exact readers_enter_other (by simp [ht]) (by simp)
  refine ⟨s', hrun, ?_, ?_, ?_⟩
  · obtain ⟨qw', qs', hwait'⟩ := ha.queues
    exact ⟨qw', qs', hwait', fun hc => absurd (ha.tCurrent.symm.trans hc) hn⟩
  · rw [ha.tReadonly, hreaders, h.counted]
  refine h.mode.congr ha.tCurrent ha.tOwner ha.pend ha.upgr hreaders ha.woken ?_ ?_
  · intro u hu
    have hne : u ≠ t := by
      rintro rfl
      obtain hx | hx := hu
      · simp [Phase.Exclusive, Phase.Owning, ht] at hx
      · rw [hw] at hx
        cases hx
    rw [ha.phase, update_of_ne hne]
  intro u hx
  by_cases hne : u = t
  · subst hne
    simp [ha.phase, Phase.Exclusive, Phase.Owning] at hx
  · rwa [ha.phase, update_of_ne hne] at hx

theorem Mode.of_exclusive (h : Mode s) (hex : (s.phase t).Exclusive) : s.tOwner = some t ∧
    ((s.pend = false ∧ s.upgr = false ∧
      ((s.tCurrent = .readser ∧ s.phase t = .serial ∧ Marks s (some t) none) ∨
        (s.tCurrent = .write ∧ s.phase t = .writing ∧ readers s = 0 ∧ Marks s (some t) none))) ∨
      (s.phase t = .upgrading ∧ s.upgr = true ∧ (s.woken t = false → readers s ≠ 0))) := by
  cases h with
  | free hc ho hr hp hu hm => exact absurd (hm.exclusive t hex) (by simp)
  | reading hc ho hr hp hu hm => exact absurd (hm.exclusive t hex) (by simp)
  | serial u hc ho hu' hp hu hm =>
    cases hm.exclusive t hex
    exact ⟨ho, .inl ⟨hp, hu, .inl ⟨hc, hu', hm⟩⟩⟩
  | writing u hc ho hu' hr hp hu hm =>
    cases hm.exclusive t hex
    exact ⟨ho, .inl ⟨hp, hu, .inr ⟨hc, hu', hr, hm⟩⟩⟩
  | upgrading u hc ho hu' hr hp hu hm =>
    cases hm.exclusive t hex
    exact ⟨ho, .inr ⟨hu', hu, fun _ => hr⟩⟩
  | upgraded u hc ho hu' hr hp hu hw hm =>
    cases hm.exclusive t hex
    exact ⟨ho, .inr ⟨hu', hu, fun hno => absurd hno (by simp [hw])⟩⟩
  | handed u k hu' hw hn hr ho hp hu hm => exact absurd (hm.exclusive t hex) (by simp)

theorem Mode.of_owning (h : Mode s) (ht : (s.phase t).Owning) :
    s.tOwner = some t ∧ s.pend = false ∧ s.upgr = false ∧
      ((s.tCurrent = .readser ∧ s.phase t = .serial ∧ Marks s (some t) none) ∨
        (s.tCurrent = .write ∧ s.phase t = .writing ∧ readers s = 0 ∧ Marks s (some t) none)) := by
  obtain ⟨ho, hmode | ⟨hup, -⟩⟩ := h.of_exclusive (.inl ht)
  · exact ⟨ho, hmode⟩
  · simp [Phase.Owning, hup] at ht

/-! ## Handing over -/

theorem HandedTo.inv (h : HandedTo s s' t) (hwait : Waiting s' qw qs) (hn : s.tCurrent ≠ .none)
    (hcount : s.tReadonly = readers s) (hu : s.upgr = false) (hm : Marks s none none)
    (ht : s.phase t = .waiting k)
    (hr : readers s ≠ 0 → k = .readser ∧
      (s.tCurrent = .readser ∨ s.tCurrent = .read ∧ readers s = 1)) : Inv s' := by
  have hreaders := readers_of_phase h.phase
  refine ⟨⟨qw, qs, hwait, fun hc => absurd (h.tCurrent.symm.trans hc) hn⟩, ?_, ?_⟩
  · rw [h.tReadonly, hreaders, hcount]
  refine .handed t k (h.phase ▸ ht) ?_ (h.tCurrent ▸ hn) ?_ (.inl h.tOwner) h.pend
    (h.upgr.trans hu) ⟨fun u hx => hm.exclusive u (h.phase ▸ hx), fun u hx => ?_⟩
  · rw [h.woken, update_self]
  · rw [hreaders, h.tCurrent]
    exact fun hne => ⟨(hr hne).1, h.tOwner, (hr hne).2⟩
  · by_cases hut : u = t
    · rw [hut]
    · rw [h.woken, update_of_ne hut] at hx
      exact absurd (hm.woken u hx) (by simp)

theorem unlockEnd_true (ho : s.tOwner = some t) : unlockEnd s true = signalOwner s := by
  simp [unlockEnd, ho]

/-- The lock is passed on, and `tll_unlock` signals the new owner, or marks the lock as unused or
read-only. -/
theorem passOn_spec (hwait : Waiting s qw qs) (ht : s.phase t = .idle) (hp : s.pend = false)
    (hu : s.upgr = false) (hn : s.tCurrent ≠ .none) (hcount : s.tReadonly = readers s)
    (hm : Marks s none none) (hr : readers s ≠ 0 → s.tCurrent = .readser) :
    ∃ s₁ b, passOn s t = some (s₁, b) ∧ ∃ s', unlockEnd s₁ b = some s' ∧ Inv s' := by
  have hself : ∀ u ∈ qw, u ≠ t := by
    rintro u hmem rfl
    exact (hwait.notMem (by simp [ht])).1 hmem
  have hself' : ∀ u ∈ qs, u ≠ t := by
    rintro u hmem rfl
    exact (hwait.notMem (by simp [ht])).2 hmem
  have hwait0 : Waiting { s with tOwner := none } qw qs :=
    hwait.same rfl rfl rfl rfl rfl
  -- nobody is told: the lock is marked
  have hmark : (s.tReadonly = 0 → qw = [] ∧ qs = []) →
      ∃ s', unlockEnd { s with tOwner := none } false = some s' ∧ Inv s' := by
    intro hempty
    by_cases hzero : s.tReadonly = 0
    · refine ⟨{ s with tOwner := none, tCurrent := .none }, by simp [unlockEnd, hzero], ?_, hcount,
        ?_⟩
      · exact ⟨qw, qs, hwait.same rfl rfl rfl rfl rfl,
          fun _ => hempty hzero⟩
      · refine Mode.free rfl rfl ?_ hp hu ⟨hm.exclusive, hm.woken⟩
        have : (readers s : Int) = 0 := hcount ▸ hzero
        exact_mod_cast this
    refine ⟨{ s with tOwner := none, tCurrent := .read }, by simp [unlockEnd, hzero], ?_, hcount,
      ?_⟩
    · exact ⟨qw, qs, hwait.same rfl rfl rfl rfl rfl, nofun⟩
    · refine Mode.reading rfl rfl (fun hz => ?_) hp hu ⟨hm.exclusive, hm.woken⟩
      have hz' : readers s = 0 := hz
      rw [hcount, hz'] at hzero
      exact hzero rfl
  cases qw with
  | cons w qw =>
    have hhead := hwait.write.start_of_cons.1
    unfold passOn
    simp only [hhead]
    by_cases hzero : s.tReadonly = 0
    · rw [if_pos hzero, if_neg (hself w mem_cons_self)]
      obtain ⟨s', hrun, hhand, hwait'⟩ := handWrite hwait0 hp
      refine ⟨_, _, rfl, s', (unlockEnd_true (t := w) rfl).trans hrun, ?_⟩
      have hz : readers s = 0 := by
        have : (readers s : Int) = 0 := hcount ▸ hzero
        exact_mod_cast this
      obtain ⟨k, hk⟩ : ∃ k, s.phase w = .waiting k := by
        obtain ⟨-, hk | hk⟩ := (hwait.onWrite w).mp mem_cons_self
        · exact ⟨_, hk⟩
        · exact ⟨_, hk⟩
      exact hhand.inv hwait' hn hcount hu ⟨hm.exclusive, hm.woken⟩ hk fun hne => absurd hz hne
    · rw [if_neg hzero]
      exact ⟨_, _, rfl, by simpa only [hhead] using hmark fun hz => absurd hz hzero⟩
  | nil =>
    have hnone := hwait.write.eq_none_of_nil
    cases qs with
    | cons w qs =>
      have hhead := hwait.serial.start_of_cons.1
      unfold passOn
      simp only [hnone, hhead]
      rw [if_neg (hself' w mem_cons_self)]
      obtain ⟨s', hrun, hhand, hwait'⟩ := handSerial hwait0 hp
      refine ⟨_, _, rfl, s', (unlockEnd_true (t := w) rfl).trans ?_, ?_⟩
      · unfold grantSerial at hrun
        simpa only [hnone] using hrun
      · exact hhand.inv hwait' hn hcount hu ⟨hm.exclusive, hm.woken⟩
          ((hwait.onSerial w).mp mem_cons_self).2 fun hne => ⟨rfl, .inl (hr hne)⟩
    | nil =>
      have hnone' := hwait.serial.eq_none_of_nil
      unfold passOn
      simp only [hnone, hnone']
      exact ⟨_, _, rfl, by simpa only [hnone, hnone'] using hmark fun _ => ⟨rfl, rfl⟩⟩

/-! ## One lemma for each operation -/

theorem Waiting.enter (h : Waiting s qw qs) (ht : ∀ k, s.phase t ≠ .waiting k)
    (hx : ∀ k, x ≠ .waiting k) : Waiting (s.enter t x) qw qs := by
  refine h.congr rfl rfl rfl (fun u k => ?_) fun u => ?_
  · by_cases hu : u = t
    · subst hu
      simp [State.enter, ht, hx]
    · simp only [State.enter, update_of_ne hu]
  by_cases hu : u = t
  · subst hu
    simp [State.enter, hx]
  · simp only [State.enter, update_of_ne hu]
    exact h.access u

theorem Marks.enter {o w : Option (Fin n)} (h : Marks s o w)
    (hx : x.Exclusive → o = some t) : Marks (s.enter t x) o w where
  exclusive u hu := by
    by_cases hut : u = t
    · subst hut
      simp only [State.enter, update_self] at hu
      exact hx hu
    · simp only [State.enter, update_of_ne hut] at hu
      exact h.exclusive u hu
  woken := h.woken

theorem Marks.leave {w : Option (Fin n)} (h : Marks s (some t) w)
    (hx : ¬ x.Exclusive) : Marks (s.enter t x) none w where
  exclusive u hu := by
    by_cases hut : u = t
    · subst hut
      simp only [State.enter, update_self] at hu
      exact absurd hu hx
    · simp only [State.enter, update_of_ne hut] at hu
      have := h.exclusive u hu
      exact absurd (Option.some.inj this).symm hut
  woken := h.woken

theorem Marks.own {w : Option (Fin n)} (h : Marks s none w) : Marks (s.enter t x) (some t) w where
  exclusive u hu := by
    by_cases hut : u = t
    · rw [hut]
    · simp only [State.enter, update_of_ne hut] at hu
      exact absurd (h.exclusive u hu) (by simp)
  woken := h.woken

theorem idle_not_exclusive : ¬ Phase.idle.Exclusive := by
  simp [Phase.Exclusive, Phase.Owning]

theorem reading_not_exclusive : ¬ Phase.reading.Exclusive := by
  simp [Phase.Exclusive, Phase.Owning]

theorem Phase.Owning.ne_waiting (h : x.Owning) (k : Access) : x ≠ .waiting k := by
  obtain rfl | rfl := h <;> simp

theorem Phase.Owning.ne_reading (h : x.Owning) : x ≠ .reading := by
  obtain rfl | rfl := h <;> simp

theorem Inv.unlock_owner (h : Inv s) (ht : (s.phase t).Owning) :
    ∃ s', tllUnlock s t = some s' ∧ Inv s' := by
  obtain ⟨qw, qs, hwait, -⟩ := h.queues
  obtain ⟨ho, hp, hu, hmode⟩ := h.mode.of_owning ht
  have hwait0 := hwait.enter (x := .idle) ht.ne_waiting (by simp)
  have hreaders : readers (s.enter t .idle) = readers s :=
    readers_enter_other ht.ne_reading (by simp)
  have hm : Marks (s.enter t .idle) none none := by
    obtain ⟨-, -, hm⟩ | ⟨-, -, -, hm⟩ := hmode
    · exact hm.leave idle_not_exclusive
    · exact hm.leave idle_not_exclusive
  have hn : s.tCurrent ≠ .none := by
    obtain ⟨hc, -⟩ | ⟨hc, -⟩ := hmode <;> rw [hc] <;> simp
  have hcur : readers s ≠ 0 → s.tCurrent = .readser := by
    intro hne
    obtain ⟨hc, -⟩ | ⟨-, -, hz, -⟩ := hmode
    · exact hc
    · exact absurd hz hne
  obtain ⟨s1, b, hpass, s', hend, hinv⟩ := passOn_spec (t := t) hwait0
    (by simp [State.enter]) hp hu hn (hreaders ▸ h.counted) hm (hreaders ▸ hcur)
  refine ⟨s', ?_, hinv⟩
  unfold tllUnlock
  simp only [show (s.enter t .idle).tOwner = some t from ho, ne_eq, not_true_eq_false, if_false]
  rw [if_neg, hpass]
  · exact hend
  rintro ⟨hc, hne⟩
  obtain ⟨hc', -⟩ | ⟨-, -, hz, -⟩ := hmode
  · rw [show (s.enter t .idle).tCurrent = s.tCurrent from rfl, hc'] at hc
    cases hc
  · apply hne
    rw [show (s.enter t .idle).tReadonly = s.tReadonly from rfl, h.counted, hz]
    rfl

/-- The state after a reader has left, before the lock is passed on. -/
def left (s : State n) (t : Fin n) : State n :=
  { s.enter t .idle with tReadonly := s.tReadonly - 1 }

theorem readers_left (ht : s.phase t = .reading) : readers (left s t) + 1 = readers s :=
  readers_leave ht (by simp)

theorem Waiting.left (h : Waiting s qw qs) (ht : s.phase t = .reading) : Waiting (left s t) qw qs :=
  (h.enter (x := .idle) (by simp [ht]) (by simp)).same rfl rfl rfl rfl rfl

theorem Marks.left {o w : Option (Fin n)} (h : Marks s o w) : Marks (left s t) o w := by
  have := h.enter (t := t) (x := .idle) fun hx => absurd hx idle_not_exclusive
  exact ⟨this.exclusive, this.woken⟩

theorem tllUnlock_reader (ho : s.tOwner ≠ some t) (hpos : 0 ≤ s.tReadonly - 1)
    (hc : s.tCurrent = .read ∨ s.tCurrent = .readser) :
    (¬ (s.tOwner = none ∧ s.tReadonly - 1 = 0) → tllUnlock s t =
      unlockEnd (left s t) (s.upgr && decide (s.tReadonly - 1 = 0))) ∧
    (s.tOwner = none ∧ s.tReadonly - 1 = 0 → s.upgr = false →
      ∀ s₁ b s', passOn (left s t) t = some (s₁, b) → unlockEnd s₁ b = some s' →
        tllUnlock s t = some s') := by
  have hnot : ¬ (s.tReadonly - 1 < 0 ∨ ¬ (s.tCurrent = .read ∨ s.tCurrent = .readser)) := by
    rw [not_or, not_lt, not_not]
    exact ⟨hpos, hc⟩
  constructor
  · intro hno
    exact (if_pos ho).trans ((if_neg hnot).trans (if_neg hno))
  intro hyes hu s₁ b s' hpass hend
  refine (if_pos ho).trans ((if_neg hnot).trans ((if_pos hyes).trans ?_))
  have hpass' : passOn { s.enter t .idle with tReadonly := (s.enter t .idle).tReadonly - 1 } t =
      some (s₁, b) := hpass
  have hsig : ((s.enter t .idle).upgr && decide ((s.enter t .idle).tReadonly - 1 = 0)) = false := by
    rw [show (s.enter t .idle).upgr = false from hu, Bool.false_and]
  simp only [hpass', hsig, Bool.false_or, hend]

theorem Inv.unlock_reader (h : Inv s) (ht : s.phase t = .reading) :
    ∃ s', tllUnlock s t = some s' ∧ Inv s' := by
  obtain ⟨qw, qs, hwait, -⟩ := h.queues
  have hne := readers_ne_zero ht
  have hleft := readers_left ht
  have hcount := h.counted
  have hpos : 0 ≤ s.tReadonly - 1 := by omega
  have hwait' := hwait.left ht
  have hcount' : (left s t).tReadonly = readers (left s t) := by
    show s.tReadonly - 1 = _
    omega
  have hzero : s.tReadonly - 1 = 0 ↔ readers (left s t) = 0 := by omega
  have hother : ∀ {u x}, s.phase u = x → x ≠ .reading → (left s t).phase u = x := by
    rintro u x hu hx
    have hut : u ≠ t := by
      rintro rfl
      exact hx (hu.symm.trans ht)
    exact (update_of_ne hut ..).trans hu
  -- the lock stays with its owner, and nobody is told
  have hkeep : s.tOwner ≠ none → s.tOwner ≠ some t → s.tCurrent = .readser →
      (s.upgr = true → readers (left s t) ≠ 0) → Mode (left s t) →
        ∃ s', tllUnlock s t = some s' ∧ Inv s' := by
    intro hnn hnt hc hup hmode
    refine ⟨left s t, ?_, ⟨qw, qs, hwait', fun hcn => ?_⟩, hcount', hmode⟩
    · rw [(tllUnlock_reader hnt hpos (.inr hc)).1 fun hno => hnn hno.1]
      have hsig : (s.upgr && decide (s.tReadonly - 1 = 0)) = false := by
        cases hup' : s.upgr with
        | false => rfl
        | true => simp [hzero, hup hup']
      rw [hsig]
      unfold unlockEnd
      simp [left, State.enter, hnn, hc]
    · exact absurd (hc.symm.trans hcn) (by simp)
  cases h.mode with
  | free hc ho hr hp hu hm => exact absurd hr hne
  | reading hc ho hr hp hu hm =>
    have hnt : s.tOwner ≠ some t := by simp [ho]
    obtain ⟨hstay, hlast⟩ := tllUnlock_reader hnt hpos (.inl hc)
    by_cases hz : s.tReadonly - 1 = 0
    · obtain ⟨s1, b, hpass, s', hend, hinv⟩ := passOn_spec (s := left s t) (t := t) hwait'
        (by simp [left, State.enter]) hp hu
        (by rw [show (left s t).tCurrent = s.tCurrent from rfl, hc]; simp) hcount' hm.left
        fun hnz => absurd (hzero.mp hz) hnz
      exact ⟨s', hlast ⟨ho, hz⟩ hu s1 b s' hpass hend, hinv⟩
    refine ⟨left s t, ?_, ⟨qw, qs, hwait', fun hcn => ?_⟩, hcount', ?_⟩
    · rw [hstay fun hno => hz hno.2, hu]
      simp [unlockEnd, left, State.enter, ho, hz, hc]
    · exact absurd (hc.symm.trans hcn) (by simp)
    · exact .reading hc ho (fun h0 => hz (hzero.mpr h0)) hp hu hm.left
  | serial u hc ho hu' hp hu hm =>
    have hnt : s.tOwner ≠ some t := by simpa [ho] using ne_of_phase hu' ht (by simp)
    apply hkeep (by simp [ho]) hnt hc
    · simp [hu]
    · exact .serial u hc ho (hother hu' (by simp)) hp hu hm.left
  | writing u hc ho hu' hr hp hu hm => exact absurd hr hne
  | upgrading u hc ho hu' hr hp hu hm =>
    have hnt : s.tOwner ≠ some t := by simpa [ho] using ne_of_phase hu' ht (by simp)
    by_cases hz : readers (left s t) = 0
    · -- the last reader tells the owner
      have hwaits : ((left s t).phase u).waits = true := by
        rw [hother hu' (by simp)]
        rfl
      refine ⟨{ left s t with pend := true, woken := update s.woken u true }, ?_,
        ⟨qw, qs, ?_, fun hcn => ?_⟩, hcount', ?_⟩
      · rw [(tllUnlock_reader hnt hpos (.inr hc)).1 fun hno => by simp [ho] at hno]
        have hsig : (s.upgr && decide (s.tReadonly - 1 = 0)) = true := by
          simp [hu, hzero, hz]
        rw [hsig, unlockEnd_true (s := left s t) (t := u) ho]
        unfold signalOwner
        simp only [show (left s t).pend = s.pend from rfl, hp,
          show (left s t).tOwner = s.tOwner from rfl, ho, hwaits, Bool.or_true]
        rfl
      · refine hwait'.congr rfl rfl rfl (fun x k => ?_) hwait'.access
        by_cases hx : x = u
        · subst hx
          simp only [update_self, hother hu' (by simp)]
          simp
        · simp only [update_of_ne hx]
          rfl
      · exact absurd (hc.symm.trans hcn) (by simp)
      refine .upgraded u hc ho (hother hu' (by simp)) hz rfl hu (update_self ..)
        ⟨hm.left.exclusive, fun x hx => ?_⟩
      by_cases hxu : x = u
      · rw [hxu]
      · simp only [update_of_ne hxu] at hx
        exact absurd (hm.woken x hx) (by simp)
    · apply hkeep (by simp [ho]) hnt hc
      · exact fun _ => hz
      · exact .upgrading u hc ho (hother hu' (by simp)) hz hp hu hm.left
  | upgraded u hc ho hu' hr hp hu hw hm => exact absurd hr hne
  | handed u k hu' hw hn hr ho hp hu hm =>
    obtain ⟨rfl, ho, hcur⟩ := hr hne
    have hnt : s.tOwner ≠ some t := by simpa [ho] using ne_of_phase hu' ht (by simp)
    obtain hc | ⟨hc, hone⟩ := hcur
    · apply hkeep (by simp [ho]) hnt hc
      · simp [hu]
      · exact .handed u _ (hother hu' (by simp)) hw hn
          (fun _ => ⟨rfl, ho, .inl hc⟩) (.inl ho) hp hu hm.left
    -- the branch that clears the owner
    have hz : readers (left s t) = 0 := by omega
    refine ⟨{ left s t with tOwner := none }, ?_, ⟨qw, qs, ?_, fun hcn => ?_⟩, hcount', ?_⟩
    · rw [(tllUnlock_reader hnt hpos (.inl hc)).1 fun hno => by simp [ho] at hno, hu]
      simp [unlockEnd, left, State.enter, ho, hc]
    · exact hwait'.same rfl rfl rfl rfl rfl
    · exact absurd (hc.symm.trans hcn) (by simp)
    · refine .handed u _ (hother hu' (by simp)) hw hn (fun hnz => absurd hz hnz) (.inr rfl) hp hu
        ⟨hm.left.exclusive, hm.woken⟩

theorem Inv.lock (h : Inv s) (ht : s.phase t = .idle) (hk : k ≠ .none) :
    ∃ s', tllLock s t k = some s' ∧ Inv s' := by
  obtain ⟨qw, qs, hwait, hempty⟩ := h.queues
  have hidle : ∀ k, s.phase t ≠ .waiting k := by simp [ht]
  have hlink := hwait.link_self hidle
  have hnr : s.phase t ≠ .reading := by simp [ht]
  have hread : readers (s.enter t .reading) = readers s + 1 := readers_enter_reading hnr
  have hcount := h.counted
  have hgrow : ∀ {o}, Marks s o none → Marks (s.enter t .reading) o none := fun hm =>
    hm.enter fun hx => absurd hx reading_not_exclusive
  have hwait1 : ∀ {x}, (∀ k, x ≠ .waiting k) → Waiting (s.enter t x) qw qs := fun hx =>
    hwait.enter hidle hx
  have happend : s.tCurrent ≠ .none → ∃ s', tllAppend s t k = some s' ∧ Inv s' := h.append ht hk
  unfold tllLock
  simp only [hlink]
  rw [if_neg hk]
  by_cases hp : s.pend = true
  · rw [if_pos hp]
    apply happend
    cases h.mode with
    | free hc ho hr hp' hu hm => simp [hp'] at hp
    | reading hc ho hr hp' hu hm => simp [hp'] at hp
    | serial u hc ho hu' hp' hu hm => simp [hp'] at hp
    | writing u hc ho hu' hr hp' hu hm => simp [hp'] at hp
    | upgrading u hc ho hu' hr hp' hu hm => simp [hp'] at hp
    | upgraded u hc ho hu' hr hp' hu hw hm => simp [hc]
    | handed u k hu' hw hn hr ho hp' hu hm => exact hn
  rw [if_neg hp]
  cases h.mode with
  | free hc ho hr hp' hu hm =>
    obtain ⟨rfl, rfl⟩ := hempty hc
    rw [if_neg (by simp [ho]), if_pos hc]
    cases k with
    | none => exact absurd rfl hk
    | read =>
      refine ⟨_, rfl, ⟨[], [], ?_, fun _ => ⟨rfl, rfl⟩⟩, ?_, ?_⟩
      · exact (hwait1 (x := .reading) (by simp)).same rfl rfl rfl rfl rfl
      · show (1 : Int) = (readers (s.enter t .reading) : Int)
        omega
      · refine .reading rfl ho (fun hz => ?_) hp' hu ⟨(hgrow hm).exclusive, hm.woken⟩
        have : readers (s.enter t .reading) = 0 := hz
        omega
    | readser =>
      have hother : readers (s.enter t .serial) = readers s := readers_enter_other hnr (by simp)
      refine ⟨_, rfl, ⟨[], [], ?_, fun _ => ⟨rfl, rfl⟩⟩, ?_, ?_⟩
      · exact (hwait1 (x := .serial) (by simp)).same rfl rfl rfl rfl rfl
      · exact hcount.trans (congrArg Nat.cast hother.symm)
      · exact .serial t rfl rfl (update_self ..) hp' hu ⟨hm.own.exclusive, hm.woken⟩
    | write =>
      have hother : readers (s.enter t .writing) = readers s := readers_enter_other hnr (by simp)
      have hzero : s.tReadonly = 0 := by omega
      simp only [State.enter, hzero, ne_eq, not_true_eq_false, and_false, if_false]
      refine ⟨_, rfl, ⟨[], [], ?_, fun _ => ⟨rfl, rfl⟩⟩, ?_, ?_⟩
      · exact (hwait1 (x := .writing) (by simp)).same rfl rfl rfl rfl rfl
      · exact (hzero.symm.trans hcount).trans (congrArg Nat.cast hother.symm)
      · exact .writing t rfl rfl (update_self ..) (hother.trans hr) hp' hu
          ⟨hm.own.exclusive, hm.woken⟩
  | reading hc ho hr hp' hu hm =>
    have hn : s.tCurrent ≠ .none := by simp [hc]
    rw [if_neg (by simp [ho]), if_neg hn, if_neg (by simp [hc])]
    split
    · exact happend hn
    rename_i hkw
    split
    · exact happend hn
    rename_i hq
    rw [if_neg (by simp [hc])]
    cases k with
    | none => exact absurd rfl hk
    | write => exact absurd rfl hkw
    | read =>
      refine ⟨_, rfl, ⟨qw, qs, ?_, nofun⟩, ?_, ?_⟩
      · exact (hwait1 (x := .reading) (by simp)).same rfl rfl rfl rfl rfl
      · show s.tReadonly + 1 = (readers (s.enter t .reading) : Int)
        omega
      · refine .reading rfl rfl (fun hz => ?_) hp' hu ⟨(hgrow hm).exclusive, hm.woken⟩
        have : readers (s.enter t .reading) = 0 := hz
        omega
    | readser =>
      have hother : readers (s.enter t .serial) = readers s := readers_enter_other hnr (by simp)
      refine ⟨_, rfl, ⟨qw, qs, ?_, nofun⟩, ?_, ?_⟩
      · exact (hwait1 (x := .serial) (by simp)).same rfl rfl rfl rfl rfl
      · exact hcount.trans (congrArg Nat.cast hother.symm)
      · exact .serial t rfl rfl (update_self ..) hp' hu
          ⟨hm.own.exclusive, hm.woken⟩
  | serial u hc ho hu' hp' hu hm =>
    have hn : s.tCurrent ≠ .none := by simp [hc]
    have hut : u ≠ t := ne_of_phase hu' ht (by simp)
    rw [if_neg (by simp [ho, hut]), if_neg hn, if_neg (by simp [hc])]
    split
    · exact happend hn
    split
    · exact happend hn
    split
    next hkr =>
      refine ⟨_, rfl, ⟨qw, qs, ?_, fun hcn => absurd hcn hn⟩, ?_, ?_⟩
      · exact (hwait1 (x := .reading) (by simp)).same rfl rfl rfl rfl rfl
      · show s.tReadonly + 1 = (readers (s.enter t .reading) : Int)
        omega
      · exact .serial u hc ho ((update_of_ne hut ..).trans hu') hp' hu
          ⟨(hgrow hm).exclusive, hm.woken⟩
    next => exact happend hn
  | writing u hc ho hu' hr hp' hu hm =>
    have hn : s.tCurrent ≠ .none := by simp [hc]
    have hut : u ≠ t := ne_of_phase hu' ht (by simp)
    rw [if_neg (by simp [ho, hut]), if_neg hn, if_pos hc]
    exact happend hn
  | upgrading u hc ho hu' hr hp' hu hm =>
    have hn : s.tCurrent ≠ .none := by simp [hc]
    have hut : u ≠ t := ne_of_phase hu' ht (by simp)
    rw [if_neg (by simp [ho, hut]), if_neg hn, if_neg (by simp [hc])]
    split
    · exact happend hn
    · rw [if_pos (.inr hu)]
      exact happend hn
  | upgraded u hc ho hu' hr hp' hu hw hm => exact absurd hp' hp
  | handed u k hu' hw hn hr ho hp' hu hm => exact absurd hp' hp

theorem Inv.relock (h : Inv s) (ht : (s.phase t).Owning) (hk : k ≠ .none) :
    tllLock s t k = some s := by
  obtain ⟨qw, qs, hwait, -⟩ := h.queues
  obtain ⟨ho, hp, hu, -⟩ := h.mode.of_owning ht
  unfold tllLock
  simp only [hwait.link_self ht.ne_waiting]
  rw [if_neg hk, if_neg (by simp [hp]), if_pos ho, if_neg (by simp [hu])]

theorem Inv.upgrade (h : Inv s) (ht : (s.phase t).Owning) :
    ∃ s', tllUpgrade s t = some s' ∧ Inv s' := by
  obtain ⟨qw, qs, hwait, hempty⟩ := h.queues
  obtain ⟨ho, hp, hu, hmode⟩ := h.mode.of_owning ht
  have hcount := h.counted
  have hreaders : ∀ {x}, x ≠ .reading → readers (s.enter t x) = readers s := fun hx =>
    readers_enter_other ht.ne_reading hx
  obtain ⟨hc, hx, hm⟩ | ⟨hc, hx, hr, hm⟩ := hmode
  · unfold tllUpgrade
    rw [if_neg (by simp [ho, hc]), if_neg (by simp [hc])]
    by_cases hz : s.tReadonly ≠ 0
    · -- the owner waits for the readers to leave
      rw [if_pos hz, if_neg (by simp [hu])]
      have hwait1 := hwait.enter (x := .upgrading) ht.ne_waiting (by simp)
      refine ⟨_, rfl, ⟨qw, qs, ?_, fun hcn => ?_⟩, ?_, ?_⟩
      · exact hwait1.same rfl rfl rfl rfl rfl
      · exact hempty hcn
      · exact hcount.trans (congrArg Nat.cast (hreaders (x := .upgrading) (by simp)).symm)
      · have hnz : readers s ≠ 0 := fun h0 => hz (by rw [hcount, h0]; rfl)
        refine .upgrading t hc ho (update_self ..) ?_ hp rfl
          ⟨(hm.enter (x := .upgrading) fun _ => rfl).exclusive, hm.woken⟩
        exact fun h0 => hnz ((hreaders (x := .upgrading) (by simp)).symm.trans h0)
    rw [if_neg hz]
    have hwait1 := hwait.enter (x := .writing) ht.ne_waiting (by simp)
    have hzero : readers s = 0 := by omega
    refine ⟨_, rfl, ⟨qw, qs, ?_, nofun⟩, ?_, ?_⟩
    · exact hwait1.same rfl rfl rfl rfl rfl
    · exact hcount.trans (congrArg Nat.cast (hreaders (x := .writing) (by simp)).symm)
    · exact .writing t rfl ho (update_self ..)
        ((hreaders (x := .writing) (by simp)).trans hzero) hp hu
        ⟨(hm.enter (x := .writing) fun _ => rfl).exclusive, hm.woken⟩
  · refine ⟨s, ?_, h⟩
    unfold tllUpgrade
    rw [if_neg (by simp [ho, hc]), if_pos hc]

theorem Inv.downgrade (h : Inv s) (ht : (s.phase t).Owning) :
    ∃ s', tllDowngrade s t = some s' ∧ Inv s' := by
  obtain ⟨qw, qs, hwait, hempty⟩ := h.queues
  obtain ⟨ho, hp, hu, hmode⟩ := h.mode.of_owning ht
  have hcount := h.counted
  unfold tllDowngrade
  rw [if_neg (by simp [ho])]
  obtain ⟨hc, hx, hm⟩ | ⟨hc, hx, hr, hm⟩ := hmode
  · simp only [hc]
    have hread : readers (s.enter t .reading) = readers s + 1 := readers_enter_reading ht.ne_reading
    have hwait1 := hwait.enter (x := .reading) ht.ne_waiting (by simp)
    have hleave : Marks (s.enter t .reading) none none := hm.leave reading_not_exclusive
    have hcount' : s.tReadonly + 1 = (readers (s.enter t .reading) : Int) := by omega
    -- nobody to hand the lock to
    have hmark : ∃ s', some { { s with tReadonly := s.tReadonly + 1 }.enter t .reading with
        tCurrent := .read, tOwner := none } = some s' ∧ Inv s' := by
      refine ⟨_, rfl, ⟨qw, qs, ?_, nofun⟩, hcount', ?_⟩
      · exact hwait1.same rfl rfl rfl rfl rfl
      · refine .reading rfl rfl (fun h0 => ?_) hp hu ⟨hleave.exclusive, hm.woken⟩
        have : readers (s.enter t .reading) = 0 := h0
        omega
    cases qw with
    | cons w qw =>
      have hhead := hwait.write.start_of_cons.1
      simp only [State.enter, hhead] at hmark ⊢
      exact hmark
    | nil =>
      have hnone := hwait.write.eq_none_of_nil
      cases qs with
      | nil =>
        have hnone' := hwait.serial.eq_none_of_nil
        simp only [State.enter, hnone, hnone'] at hmark ⊢
        exact hmark
      | cons w qs =>
        have hhead := hwait.serial.start_of_cons.1
        simp only [State.enter, hnone, hhead]
        have hwait2 : Waiting ({ s with tReadonly := s.tReadonly + 1 }.enter t .reading) []
            (w :: qs) := hwait1.same rfl rfl rfl rfl rfl
        obtain ⟨s', hrun, hhand, hwait'⟩ := handSerial hwait2 hp
        refine ⟨s', ?_, ?_⟩
        · simpa only [State.enter, hc, hnone, hhead] using hrun
        · refine hhand.inv hwait' ?_ hcount' hu ⟨hleave.exclusive, hm.woken⟩
            ((hwait2.onSerial w).mp mem_cons_self).2 fun _ => ⟨rfl, .inl hc⟩
          show s.tCurrent ≠ .none
          simp [hc]
  · simp only [hc]
    have hwait1 := hwait.enter (x := .serial) ht.ne_waiting (by simp)
    have hreaders : readers (s.enter t .serial) = readers s :=
      readers_enter_other ht.ne_reading (by simp)
    refine ⟨_, rfl, ⟨qw, qs, ?_, nofun⟩, ?_, ?_⟩
    · exact hwait1.same rfl rfl rfl rfl rfl
    · exact hcount.trans (congrArg Nat.cast hreaders.symm)
    · exact .serial t rfl ho (update_self ..) hp hu
        ⟨(hm.enter (x := .serial) fun _ => rfl).exclusive, hm.woken⟩

theorem Inv.appended (h : Inv s) (ht : s.phase t = .waiting k) (hw : s.woken t = true) :
    ∃ s', tllAppended s t k = some s' ∧ Inv s' := by
  obtain ⟨qw, qs, hwait, -⟩ := h.queues
  have hcount := h.counted
  have hoffw : t ∉ qw := fun hmem => by
    have := ((hwait.onWrite t).mp hmem).1
    simp [hw] at this
  have hoffs : t ∉ qs := fun hmem => by
    have := ((hwait.onSerial t).mp hmem).1
    simp [hw] at this
  have hnull := hwait.off t hoffw hoffs
  -- the thread is off the queues before and after
  have hwait1 : ∀ s1 : State n, s1.workers = s.workers → s1.tWrite = s.tWrite →
      s1.tSerial = s.tSerial → s1.woken = update s.woken t false →
      s1.phase = update s.phase t k.phase → Waiting s1 qw qs := by
    intro s1 h1 h2 h3 h4 h5
    have hphase : ∀ j, k.phase ≠ .waiting j := by cases k <;> simp [Access.phase]
    refine hwait.congr h1 h2 h3 (fun u j => ?_) fun u => ?_
    · by_cases hu : u = t
      · subst hu
        simp [h4, h5, hw, hphase]
      · rw [h4, h5, update_of_ne hu, update_of_ne hu]
    by_cases hu : u = t
    · subst hu
      simp [h5, hphase]
    · rw [h5, update_of_ne hu]
      exact hwait.access u
  have hnr : s.phase t ≠ .reading := by simp [ht]
  obtain ⟨-, ⟨-, hup, -⟩ | ⟨k', hk', hr, hu, hm⟩⟩ := h.mode.of_woken hw
  · rw [hup] at ht
    cases ht
  cases hk'.symm.trans ht
  have hwoken : ∀ x, update s.woken t false x = true → (none : Option (Fin n)) = some x := by
    intro x hx
    by_cases hxt : x = t
    · subst hxt
      simp at hx
    · rw [update_of_ne hxt] at hx
      exact absurd (hm.woken x hx) (by simpa using fun h => hxt h.symm)
  unfold tllAppended
  rw [if_neg (not_not.mpr hnull)]
  cases k with
  | none => exact absurd ht (hwait.access t)
  | readser =>
    have hreaders : readers (s.enter t .serial) = readers s := readers_enter_other hnr (by simp)
    refine ⟨_, rfl, ⟨qw, qs, hwait1 _ rfl rfl rfl rfl rfl, nofun⟩, ?_, ?_⟩
    · exact hcount.trans (congrArg Nat.cast hreaders.symm)
    · exact .serial t rfl rfl (update_self ..) rfl hu ⟨hm.own.exclusive, hwoken⟩
  | write =>
    have hzero : readers s = 0 := by
      by_contra hne
      cases hr hne
    have hz : s.tReadonly = 0 := by omega
    have hreaders : readers (s.enter t .writing) = readers s := readers_enter_other hnr (by simp)
    simp only [State.enter, hz, if_true]
    refine ⟨_, rfl, ⟨qw, qs, hwait1 _ rfl rfl rfl rfl rfl, nofun⟩, ?_, ?_⟩
    · exact (hz.symm.trans hcount).trans (congrArg Nat.cast hreaders.symm)
    · exact .writing t rfl rfl (update_self ..) (hreaders.trans hzero) rfl hu
        ⟨hm.own.exclusive, hwoken⟩
  | read =>
    have hzero : readers s = 0 := by
      by_contra hne
      cases hr hne
    have hone : readers (s.enter t .reading) = 1 := by
      have := readers_enter_reading hnr
      omega
    have hmarks : Marks (s.enter t .reading) none (some t) :=
      hm.enter fun hx => absurd hx reading_not_exclusive
    have hcount' : s.tReadonly + 1 = (readers (s.enter t .reading) : Int) := by omega
    cases hq : s.tSerial with
    | none =>
      simp only [State.enter]
      refine ⟨_, rfl, ⟨qw, qs, hwait1 _ rfl rfl hq.symm rfl rfl, nofun⟩, hcount', ?_⟩
      refine .reading rfl rfl (fun h0 => ?_) rfl hu ⟨hmarks.exclusive, hwoken⟩
      have : readers (s.enter t .reading) = 0 := h0
      omega
    | some w =>
      -- a read-serialized request could run together with this reader
      obtain ⟨qs', rfl, -⟩ := (hq ▸ hwait.serial).cons_inv
      simp only [State.enter]
      obtain ⟨s', hrun, hhand, hwait'⟩ := handSerial (s := { s with
        tCurrent := .read, pend := false, tOwner := none, tReadonly := s.tReadonly + 1
        woken := update s.woken t false
        phase := update s.phase t .reading }) (hwait1 _ rfl rfl rfl rfl rfl) rfl
      refine ⟨s', ?_, ?_⟩
      · simpa only [hq, Access.phase] using hrun
      have hw' := (hwait1 { s with
        woken := update s.woken t false
        phase := update s.phase t .reading } rfl rfl rfl rfl rfl).onSerial w
      refine hhand.inv hwait' (by simp) hcount' hu ⟨hmarks.exclusive, hwoken⟩
        (hw'.mp mem_cons_self).2 fun _ => ⟨rfl, .inr ⟨rfl, hone⟩⟩

theorem Inv.upgraded (h : Inv s) (ht : s.phase t = .upgrading) (hw : s.woken t = true) :
    ∃ s', tllUpgraded s t = some s' ∧ Inv s' := by
  obtain ⟨qw, qs, hwait, -⟩ := h.queues
  have hcount := h.counted
  obtain ⟨hoffw, hoffs⟩ := hwait.notMem (t := t) (by simp [ht])
  have hnull := hwait.off t hoffw hoffs
  obtain ⟨-, ⟨ho, -, hr, hm⟩ | ⟨k, hk, -⟩⟩ := h.mode.of_woken hw
  case inr =>
    rw [ht] at hk
    cases hk
  have hz : s.tReadonly = 0 := by omega
  have hreaders : readers (s.enter t .writing) = readers s :=
    readers_enter_other (by simp [ht]) (by simp)
  have hwait1 := hwait.enter (x := .writing) (t := t) (by simp [ht]) (by simp)
  unfold tllUpgraded
  rw [if_neg (by simp [hnull, hz])]
  refine ⟨_, rfl, ⟨qw, qs, ?_, nofun⟩, hcount.trans (congrArg Nat.cast hreaders.symm), ?_⟩
  · refine hwait1.congr rfl rfl rfl (fun u k => ?_) hwait1.access
    by_cases hut : u = t
    · subst hut
      simp [State.enter]
    · simp [State.enter, update_of_ne hut]
  refine .writing t rfl ho (update_self ..) (hreaders.trans hr) rfl rfl
    ⟨(hm.enter (x := .writing) fun _ => rfl).exclusive, fun x hx => ?_⟩
  by_cases hxt : x = t
  · subst hxt
    simp [State.enter] at hx
  · simp only [State.enter, update_of_ne hxt] at hx
    exact absurd (hm.woken x hx) (by simpa using fun h => hxt h.symm)

theorem Inv.step {a : Act n} (h : Inv s) (ha : a.Allowed s) : ∃ s', a.run s = some s' ∧ Inv s' := by
  cases a with
  | lock t k =>
    obtain ⟨hk, ht | ht⟩ := ha
    · exact h.lock ht hk
    · exact ⟨s, h.relock ht hk, h⟩
  | unlock t =>
    obtain ht | ht := ha
    · exact h.unlock_reader ht
    · exact h.unlock_owner ht
  | upgrade t => exact h.upgrade ha
  | downgrade t => exact h.downgrade ha
  | resume t =>
    have hwaits := h.mode.woken_waits ha
    cases hp : s.phase t with
    | waiting k => simpa only [Act.run, hp] using h.appended hp ha
    | upgrading => simpa only [Act.run, hp] using h.upgraded hp ha
    | idle => simp [hp, Phase.waits] at hwaits
    | reading => simp [hp, Phase.waits] at hwaits
    | serial => simp [hp, Phase.waits] at hwaits
    | writing => simp [hp, Phase.waits] at hwaits

theorem inv_init : Inv (tllInit n) where
  queues := by
    refine ⟨[], [], ⟨.nil, .nil, ?_, ?_, ?_, fun _ _ _ => rfl⟩, fun _ => ⟨rfl, rfl⟩⟩
    · simp [tllInit]
    · simp [tllInit]
    · simp [tllInit]
  counted := by simp [tllInit, readers]
  mode := by
    refine .free rfl rfl (by simp [tllInit, readers]) rfl rfl ⟨fun u hx => ?_, nofun⟩
    exact absurd hx idle_not_exclusive

theorem Reachable.inv (h : Reachable s) : Inv s := by
  induction h with
  | init => exact inv_init
  | step _ ha hrun ih =>
    obtain ⟨s', hrun', hinv⟩ := ih.step ha
    rw [hrun, Option.some.injEq] at hrun'
    exact hrun' ▸ hinv

/-! ## Safety -/

/-- The thread holds the lock in some mode. -/
def Phase.Holds (x : Phase) : Prop := x = .reading ∨ x.Exclusive

/-- The thread is met on the way from the head of a queue. -/
def OnQueue (s : State n) (head : Option (Fin n)) (t : Fin n) : Prop :=
  ∃ l, Chain s.workers head l ∧ t ∈ l

/-- The thread is on exactly one of the queues, or it has been signalled. -/
def QueuedOrSignalled (s : State n) (t : Fin n) : Prop :=
  (OnQueue s s.tWrite t ∧ ¬ OnQueue s s.tSerial t ∧ s.woken t = false) ∨
    (¬ OnQueue s s.tWrite t ∧ OnQueue s s.tSerial t ∧ s.woken t = false) ∨
    (¬ OnQueue s s.tWrite t ∧ ¬ OnQueue s s.tSerial t ∧ s.woken t = true ∧ s.pend = true)

/-- The thread is the owner, and waits for the readers to leave. -/
def WaitsToUpgrade (s : State n) (t : Fin n) : Prop :=
  s.phase t = .upgrading ∧ s.tOwner = some t ∧ s.upgr = true ∧ 0 < s.tReadonly

structure Safe (s : State n) : Prop where
  /-- a writer excludes all others -/
  writer : ∀ t u, s.phase t = .writing → (s.phase u).Holds → u = t
  /-- one thread at most holds the lock read-serialized -/
  serial : ∀ t u, (s.phase t).Exclusive → (s.phase u).Exclusive → t = u
  counted : s.tReadonly = readers s
  waiting : ∀ t, (s.phase t).waits = true → QueuedOrSignalled s t ∨ WaitsToUpgrade s t
  /-- an unused lock has nobody waiting -/
  unused : (∀ t, ¬ (s.phase t).Holds) → s.pend = false → s.tWrite = none ∧ s.tSerial = none

theorem Waiting.onQueue_write (h : Waiting s qw qs) : OnQueue s s.tWrite t ↔ t ∈ qw := by
  constructor
  · rintro ⟨l, hl, hmem⟩
    exact h.write.unique hl ▸ hmem
  · exact fun hmem => ⟨qw, h.write, hmem⟩

theorem Waiting.onQueue_serial (h : Waiting s qw qs) : OnQueue s s.tSerial t ↔ t ∈ qs := by
  constructor
  · rintro ⟨l, hl, hmem⟩
    exact h.serial.unique hl ▸ hmem
  · exact fun hmem => ⟨qs, h.serial, hmem⟩

theorem Mode.marks (h : Mode s) : ∃ o w, Marks s o w := by
  cases h with
  | free _ _ _ _ _ hm => exact ⟨_, _, hm⟩
  | reading _ _ _ _ _ hm => exact ⟨_, _, hm⟩
  | serial t _ _ _ _ _ hm => exact ⟨_, _, hm⟩
  | writing t _ _ _ _ _ _ hm => exact ⟨_, _, hm⟩
  | upgrading t _ _ _ _ _ _ hm => exact ⟨_, _, hm⟩
  | upgraded t _ _ _ _ _ _ _ hm => exact ⟨_, _, hm⟩
  | handed t k _ _ _ _ _ _ _ hm => exact ⟨_, _, hm⟩

theorem Inv.waiting (h : Inv s) (ht : (s.phase t).waits = true) :
    QueuedOrSignalled s t ∨ WaitsToUpgrade s t := by
  obtain ⟨qw, qs, hwait, -⟩ := h.queues
  unfold QueuedOrSignalled
  rw [hwait.onQueue_write, hwait.onQueue_serial, hwait.onWrite, hwait.onSerial]
  cases hw : s.woken t with
  | true => simp [(h.mode.of_woken hw).1]
  | false =>
    cases hp : s.phase t with
    | waiting k =>
      have hacc := hwait.access t
      cases k <;> simp_all
    | upgrading =>
      obtain ⟨ho, ⟨-, -, ⟨-, hx, -⟩ | ⟨-, hx, -⟩⟩ | ⟨-, hup, hr⟩⟩ :=
        h.mode.of_exclusive (t := t) (.inr hp)
      · simp [hp] at hx
      · simp [hp] at hx
      have hne := hr hw
      have hcount := h.counted
      exact .inr ⟨hp, ho, hup, by omega⟩
    | idle => simp [hp, Phase.waits] at ht
    | reading => simp [hp, Phase.waits] at ht
    | serial => simp [hp, Phase.waits] at ht
    | writing => simp [hp, Phase.waits] at ht

theorem Inv.safe (h : Inv s) : Safe s where
  writer := by
    intro t u ht hu
    obtain ⟨o, w, hm⟩ := h.mode.marks
    have hown : (s.phase t).Owning := .inr ht
    obtain hread | hex := hu
    · obtain ⟨-, -, -, ⟨-, hser, -⟩ | ⟨-, -, hz, -⟩⟩ := h.mode.of_owning hown
      · rw [ht] at hser
        cases hser
      · exact absurd hz (readers_ne_zero hread)
    · have h1 := hm.exclusive t (.inl hown)
      have h2 := hm.exclusive u hex
      exact Option.some.inj (h2.symm.trans h1)
  serial := by
    intro t u ht hu
    obtain ⟨o, w, hm⟩ := h.mode.marks
    exact Option.some.inj ((hm.exclusive t ht).symm.trans (hm.exclusive u hu))
  counted := h.counted
  waiting _ ht := h.waiting ht
  unused := by
    intro hnone hp
    obtain ⟨qw, qs, hwait, hempty⟩ := h.queues
    have hfree : s.tCurrent = .none := by
      cases h.mode with
      | free hc _ _ _ _ _ => exact hc
      | reading _ _ hr _ _ _ =>
        obtain ⟨t, ht⟩ := Finset.card_ne_zero.mp hr
        exact absurd (.inl (Finset.mem_filter.mp ht).2) (hnone t)
      | serial t _ _ ht _ _ _ => exact absurd (.inr (.inl (.inl ht))) (hnone t)
      | writing t _ _ ht _ _ _ _ => exact absurd (.inr (.inl (.inr ht))) (hnone t)
      | upgrading t _ _ ht _ _ _ _ => exact absurd (.inr (.inr ht)) (hnone t)
      | upgraded t _ _ ht _ _ _ _ _ => exact absurd (.inr (.inr ht)) (hnone t)
      | handed t k _ _ _ _ _ hp' _ _ =>
        rw [hp] at hp'
        cases hp'
    obtain ⟨rfl, rfl⟩ := hempty hfree
    exact ⟨hwait.write.eq_none_of_nil, hwait.serial.eq_none_of_nil⟩

/-- In every reachable state the lock is safe, and no next step fails an assertion. -/
theorem tll_safe (h : Reachable s) :
    Safe s ∧ ∀ a : Act n, a.Allowed s → ∃ s', a.run s = some s' := by
  refine ⟨h.inv.safe, fun a ha => ?_⟩
  obtain ⟨s', hrun, -⟩ := h.inv.step ha
  exact ⟨s', hrun⟩

/-- A read-serialized holder and a reader; the holder wants to upgrade. -/
def upgradeActs : List (Act 2) := [.lock 0 .readser, .lock 1 .read, .upgrade 0]

def runActs (s : State n) : List (Act n) → Option (State n)
  | [] => some s
  | a :: l => (a.run s).bind fun s => runActs s l

theorem reachable_upgrade : ∃ s, runActs (tllInit 2) upgradeActs = some s ∧ Reachable s := by
  refine ⟨_, rfl, ?_⟩
  apply Reachable.step (a := .upgrade 0)
  · apply Reachable.step (a := .lock 1 .read)
    · apply Reachable.step (a := .lock 0 .readser) .init
      · exact ⟨by decide, .inl rfl⟩
      · rfl
    · exact ⟨by decide, .inl rfl⟩
    · rfl
  · exact .inl rfl
  · rfl

theorem tll_safe_upgrade : ∃ s, runActs (tllInit 2) upgradeActs = some s ∧ Safe s := by
  obtain ⟨s, hrun, hs⟩ := reachable_upgrade
  exact ⟨s, hrun, (tll_safe hs).1⟩

/-- The thread that waits to upgrade is on no queue, and it has not been signalled. -/
theorem upgrade_waits_on_no_queue :
    ¬ ∀ (n : Nat) (s : State n), Reachable s → ∀ t, (s.phase t).waits = true →
      QueuedOrSignalled s t := by
  intro h
  obtain ⟨s, hrun, hs⟩ := reachable_upgrade
  cases hrun
  obtain ⟨⟨l, hl, hmem⟩, -⟩ | ⟨-, ⟨l, hl, hmem⟩, -⟩ | ⟨-, -, hw, -⟩ := h 2 _ hs 0 rfl
  · rw [hl.nil_inv] at hmem
    exact not_mem_nil hmem
  · rw [hl.nil_inv] at hmem
    exact not_mem_nil hmem
  · cases hw

end HardenedMinix.Tll
