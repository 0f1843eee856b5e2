import HardenedMinix.Lib.Runs

/-!
# Advisory record locks

One pass over the table of locks looks for those that overlap the range, and trims, deletes and
splits them when it is to be unlocked.
-/

open Function List Option

namespace HardenedMinix.Locks

open Lib

/-! ## Data -/

abbrev Pid := Int
abbrev VnodePtr := Nat
abbrev ProcSlot := Nat

/-- `NR_LOCKS`. -/
def tableSize : Nat := 8

def maxFilePos : Int := 2 ^ 31 - 1

/-- `F_RDLCK` and `F_WRLCK`. -/
inductive LockType where
  | rdlck
  | wrlck
  deriving DecidableEq, Repr

/-- The lock type of a request; `F_UNLCK` is never the type of a slot. -/
inductive ReqType where
  | lock (k : LockType)
  | unlck
  deriving DecidableEq, Repr

/-- `F_GETLK`, `F_SETLK` and `F_SETLKW`. -/
inductive Req where
  | getlk
  | setlk
  | setlkw
  deriving DecidableEq, Repr

inductive Whence where
  | set
  | cur
  | fin
  deriving DecidableEq, Repr

/-- `struct flock`. `lType` and `lWhence` are `none` for any other value. -/
structure Flock where
  lType : Option ReqType
  lWhence : Option Whence
  lStart : Int
  lLen : Int
  lPid : Pid
  deriving DecidableEq, Repr

/-- A used slot of `file_lock`. -/
structure FileLock where
  lockType : LockType
  lockPid : Pid
  lockVnode : VnodePtr
  lockFirst : Int
  lockLast : Int
  deriving DecidableEq, Repr

abbrev Slot := Fin tableSize
abbrev Table := Slot → Option FileLock

structure State where
  fileLock : Table
  nrLocks : Int
  /-- `fp_blocked_on` is `FP_BLOCKED_ON_LOCK` -/
  blocked : ProcSlot → Bool
  /-- `FP_REVIVED` -/
  revived : ProcSlot → Bool

/-- The arguments of `lock_op`, and what it finds in the filp, in its vnode and in the memory of
the caller. -/
structure Request where
  req : Req
  fp : ProcSlot
  /-- `fp->fp_pid` -/
  pid : Pid
  /-- `f->filp_vno` -/
  vno : VnodePtr
  /-- the vnode is a regular file or a block device -/
  lockable : Bool
  /-- `R_BIT` and `W_BIT` of `filp_mode` -/
  canRead : Bool
  canWrite : Bool
  filpPos : Nat
  vSize : Int
  /-- the structure of the caller, unless it cannot be fetched -/
  flock : Option Flock
  /-- it can be copied back -/
  copiesBack : Bool

inductive Result where
  | ok
  | einval
  | ebadf
  | eagain
  | enolck
  | efault
  | suspend
  | panic
  /-- the search for a free slot has run past the table -/
  | overrun
  /-- `OK` of an `F_GETLK`, with what has been copied back -/
  | report (flock : Flock)
  deriving DecidableEq, Repr

/-! ## The functions of the source -/

/-- A value stored in an `off_t`. -/
def offT (x : Int) : Int := x.bmod (2 ^ 32)

/-- The access that a lock of a type needs. -/
def Request.modeOk (r : Request) : ReqType → Bool
  | .lock .rdlck => r.canRead
  | .lock .wrlck => r.canWrite
  | .unlck => true

/-- The byte that `l_start` is relative to. -/
def lockBase (r : Request) (flock : Flock) : Except Result Int :=
  match flock.lWhence with
  | some .set => .ok 0
  | some .cur => if r.filpPos / 2 ^ 32 ≠ 0 then .error .panic else .ok (offT r.filpPos)
  | some .fin => .ok r.vSize
  | none => .error .einval

def lockRegion (r : Request) (flock : Flock) : Except Result (Int × Int) :=
  match lockBase r flock with
  | .error e => .error e
  | .ok base =>
    if flock.lStart > 0 ∧ offT (base + flock.lStart) < base then .error .einval
    else if flock.lStart < 0 ∧ offT (base + flock.lStart) > base then .error .einval
    else
      let first := offT (base + flock.lStart)
      let last := if flock.lLen = 0 then maxFilePos else offT (offT (first + flock.lLen) - 1)
      if last < first then .error .einval else .ok (first, last)

/-- What a request that passes the checks asks for. -/
structure Wanted where
  flock : Flock
  ltype : ReqType
  first : Int
  last : Int

/-- The error checks of `lock_op`. -/
def checkRequest (r : Request) : Except Result Wanted :=
  match r.flock with
  | none => .error .einval
  | some flock =>
    match flock.lType with
    | none => .error .einval
    | some ltype =>
      if r.req = .getlk ∧ ltype = .unlck then .error .einval
      else if r.lockable = false then .error .einval
      else if r.req ≠ .getlk ∧ r.modeOk ltype = false then .error .ebadf
      else
        match lockRegion r flock with
        | .error e => .error e
        | .ok (first, last) => .ok ⟨flock, ltype, first, last⟩

def FileLock.Overlaps (l : FileLock) (vno : VnodePtr) (w : Wanted) : Prop :=
  l.lockVnode = vno ∧ l.lockFirst ≤ w.last ∧ w.first ≤ l.lockLast

/-- The loop does not pass the slot over: there might be a conflict. -/
def FileLock.Hits (l : FileLock) (r : Request) (w : Wanted) : Prop :=
  l.Overlaps r.vno w ∧ ¬ (w.ltype = .lock .rdlck ∧ l.lockType = .rdlck) ∧
    ¬ (w.ltype ≠ .unlck ∧ l.lockPid = r.pid)

instance (l : FileLock) (vno : VnodePtr) (w : Wanted) : Decidable (l.Overlaps vno w) :=
  inferInstanceAs (Decidable (_ ∧ _))

instance (l : FileLock) (r : Request) (w : Wanted) : Decidable (l.Hits r w) :=
  inferInstanceAs (Decidable (_ ∧ _))

structure Pass where
  fileLock : Table
  nrLocks : Int
  empty : Option Slot
  unlocking : Bool

/-- How the pass is left before its end. -/
inductive Exit where
  | conflict (l : FileLock)
  | full (c : Pass)
  | overrun

def unusedSlot (t : Table) : Option Slot := (List.finRange tableSize).find? fun i => (t i).isNone

/-- The region is cleared from the lock in slot `i`. -/
def unlockSlot (w : Wanted) (c : Pass) (i : Slot) (l : FileLock) : Except Exit Pass :=
  let c := { c with unlocking := true }
  if w.first ≤ l.lockFirst ∧ w.last ≥ l.lockLast then
    .ok { c with fileLock := update c.fileLock i none, nrLocks := c.nrLocks - 1 }
  -- part of a locked region has been unlocked
  else if w.first ≤ l.lockFirst then
    .ok { c with fileLock := update c.fileLock i (some { l with lockFirst := w.last + 1 }) }
  else if w.last ≥ l.lockLast then
    .ok { c with fileLock := update c.fileLock i (some { l with lockLast := w.first - 1 }) }
  -- the lock is split in two
  else if c.nrLocks = (tableSize : Int) then .error (.full c)
  else
    match unusedSlot c.fileLock with
    | none => .error .overrun
    | some j =>
      let t := update c.fileLock j (some { l with lockFirst := w.last + 1 })
      .ok { c with
        fileLock := update t i (some { l with lockLast := w.first - 1 })
        nrLocks := c.nrLocks + 1 }

/-- The loop over the table, from the slots that are left. -/
def scanTable (r : Request) (w : Wanted) : List Slot → Pass → Except Exit Pass
  | [], c => .ok c
  | i :: is, c =>
    match c.fileLock i with
    | none => scanTable r w is { c with empty := if c.empty = none then some i else c.empty }
    | some l =>
      if l.Hits r w then
        if w.ltype = .unlck then
          match unlockSlot w c i l with
          | .error e => .error e
          | .ok c => scanTable r w is c
        else .error (.conflict l)
      else scanTable r w is c

/-- `suspend(FP_BLOCKED_ON_LOCK)`. -/
def suspend (s : State) (p : ProcSlot) : State :=
  { s with
    blocked := update s.blocked p true
    revived := update s.revived p false }

def lockRevive (s : State) : State := { s with revived := fun p => s.blocked p || s.revived p }

/-- The end of an `F_GETLK`. -/
def copyBack (s : State) (r : Request) (flock : Flock) : State × Result :=
  (s, if r.copiesBack then .report flock else .efault)

/-- `lock_op`, for a request that has passed the checks. -/
def lockWanted (s : State) (r : Request) (w : Wanted) : State × Result :=
  match scanTable r w (List.finRange tableSize) ⟨s.fileLock, s.nrLocks, none, false⟩ with
  | .error (.conflict l) =>
    match r.req with
    | .getlk =>
      copyBack s r ⟨some (.lock l.lockType), some .set, l.lockFirst,
        offT (offT (l.lockLast - l.lockFirst) + 1), l.lockPid⟩
    | .setlk => (s, .eagain)
    | .setlkw => (suspend s r.fp, .suspend)
  | .error (.full c) => ({ s with fileLock := c.fileLock, nrLocks := c.nrLocks }, .enolck)
  | .error .overrun => (s, .overrun)
  | .ok c =>
    let s := { s with fileLock := c.fileLock, nrLocks := c.nrLocks }
    let s := if c.unlocking then lockRevive s else s
    match r.req, w.ltype with
    | .getlk, _ => copyBack s r { w.flock with lType := some .unlck }
    | _, .unlck => (s, .ok)
    | _, .lock k =>
      match c.empty with
      | none => (s, .enolck)
      | some i =>
        ({ s with
          fileLock := update s.fileLock i (some ⟨k, r.pid, r.vno, w.first, w.last⟩)
          nrLocks := s.nrLocks + 1 }, .ok)

def lockOp (s : State) (r : Request) : State × Result :=
  match checkRequest r with
  | .error e => (s, e)
  | .ok w => lockWanted s r w

/-- A request is handled, and the next one finds the state. -/
def step (s : State) (r : Request) : State := (lockOp s r).1

/-! ## What the table says -/

/-- Process `p` has byte `b` of file `v` locked. -/
def Holds (t : Table) (v : VnodePtr) (b : Int) (p : Pid) (k : LockType) : Prop :=
  ∃ i l, t i = some l ∧ l.lockVnode = v ∧ l.lockPid = p ∧ l.lockType = k ∧
    l.lockFirst ≤ b ∧ b ≤ l.lockLast

/-- No byte is write-locked by one process and locked by another. -/
def Exclusive (t : Table) : Prop :=
  ∀ v b p q k, Holds t v b p .wrlck → Holds t v b q k → p = q

def usedSlots (t : Table) : Nat := (Finset.univ.filter fun i => (t i).isSome).card

/-- The position that `l_whence` names. -/
def Request.base (r : Request) (flock : Flock) : Int :=
  match flock.lWhence with
  | some .cur => r.filpPos
  | some .fin => r.vSize
  | _ => 0

/-- Byte `b` is one of those the caller gives; a length of zero reaches to the largest
position. -/
def Request.Given (r : Request) (flock : Flock) (b : Int) : Prop :=
  r.base flock + flock.lStart ≤ b ∧
    b ≤ if flock.lLen = 0 then maxFilePos else r.base flock + flock.lStart + flock.lLen - 1

/-- The request is answered with an error, or it waits. -/
def Result.Fails : Result → Prop
  | .ok => False
  | .report _ => False
  | _ => True

/-- What POSIX asks of one request. -/
structure Conforms (s : State) (r : Request) : Prop where
  exclusive : Exclusive (step s r).fileLock
  counted : (step s r).nrLocks = usedSlots (step s r).fileLock
  /-- a request that fails has changed nothing -/
  unchanged : (lockOp s r).2.Fails →
    (step s r).fileLock = s.fileLock ∧ (step s r).nrLocks = s.nrLocks
  /-- an unlock takes the locks of the caller off the region, and no others -/
  unlocks : ∀ flock, r.flock = some flock → flock.lType = some .unlck → (lockOp s r).2 = .ok →
    ∀ v b p k, Holds (step s r).fileLock v b p k ↔
      Holds s.fileLock v b p k ∧ ¬ (v = r.vno ∧ p = r.pid ∧ r.Given flock b)
  /-- a new lock replaces those the caller had on the region -/
  sets : ∀ flock k, r.flock = some flock → flock.lType = some (.lock k) →
    (lockOp s r).2 = .ok → ∀ v b p k', Holds (step s r).fileLock v b p k' ↔
      (v = r.vno ∧ p = r.pid ∧ r.Given flock b ∧ k' = k) ∨
        (Holds s.fileLock v b p k' ∧ ¬ (v = r.vno ∧ p = r.pid ∧ r.Given flock b))
  /-- a test finds no conflict exactly when the lock could be set -/
  tells : r.req = .getlk → r.copiesBack = true →
    ((∃ flock, (lockOp s r).2 = .report flock ∧ flock.lType = some .unlck) ↔
      (lockOp s { r with req := .setlk }).2 = .ok)

/-! ## When a request does that -/

/-- The numbers are those of an `off_t`, and so is the end of the region. -/
def Request.InRange (r : Request) (flock : Flock) : Prop :=
  (-2 ^ 31 ≤ flock.lStart ∧ flock.lStart < 2 ^ 31) ∧
    (-2 ^ 31 ≤ flock.lLen ∧ flock.lLen < 2 ^ 31) ∧
    (-2 ^ 31 ≤ r.base flock ∧ r.base flock < 2 ^ 31) ∧
    (flock.lLen < 0 → -2 ^ 31 < r.base flock + flock.lStart + flock.lLen)

/-- The lock has bytes on both sides of the region. -/
def FileLock.Around (l : FileLock) (w : Wanted) : Prop :=
  l.lockFirst < w.first ∧ w.last < l.lockLast

def FileLock.Inside (l : FileLock) (w : Wanted) : Prop :=
  w.first ≤ l.lockFirst ∧ l.lockLast ≤ w.last

instance (l : FileLock) (w : Wanted) : Decidable (l.Around w) :=
  inferInstanceAs (Decidable (_ ∧ _))

instance (l : FileLock) (w : Wanted) : Decidable (l.Inside w) :=
  inferInstanceAs (Decidable (_ ∧ _))

/-- With `n` slots in use, each lock that has to be split still finds an unused one. -/
def Room (t : Table) (vno : VnodePtr) (w : Wanted) : List Slot → Int → Prop
  | [], _ => True
  | i :: is, n =>
    match t i with
    | none => Room t vno w is n
    | some l =>
      if l.Overlaps vno w then
        if l.Inside w then Room t vno w is (n - 1)
        else if l.Around w then n < tableSize ∧ Room t vno w is (n + 1)
        else Room t vno w is n
      else Room t vno w is n

def Clear (s : State) (r : Request) (w : Wanted) : Prop :=
  ∀ i l, s.fileLock i = some l → ¬ l.Hits r w

/-- Every lock on the region is one of the caller, and there are slots to split them. -/
def OwnRegion (s : State) (r : Request) (w : Wanted) : Prop :=
  r.InRange w.flock ∧
    (∀ i l, s.fileLock i = some l → l.Overlaps r.vno w → l.lockPid = r.pid) ∧
    Room s.fileLock r.vno w (List.finRange tableSize) s.nrLocks

/-- The first lock on the region has to be split, and there is no slot left. -/
def FullAtFirst (s : State) (r : Request) (w : Wanted) : Prop :=
  s.nrLocks = tableSize ∧ ∃ i l, s.fileLock i = some l ∧ l.Overlaps r.vno w ∧ l.Around w ∧
    ∀ j < i, ∀ l', s.fileLock j = some l' → ¬ l'.Overlaps r.vno w

def Meets (s : State) (r : Request) : Prop :=
  (r.req = .getlk → ∀ flock, r.flock = some flock → flock.lType ≠ some .unlck) ∧
  ∀ w, checkRequest r = .ok w →
    (r.req = .getlk → Clear s r w →
      r.modeOk w.ltype = true ∧ usedSlots s.fileLock < tableSize) ∧
    (w.ltype = .unlck → OwnRegion s r w ∨ FullAtFirst s r w) ∧
    (r.req ≠ .getlk → ∀ k, w.ltype = .lock k → Clear s r w → usedSlots s.fileLock < tableSize →
      r.InRange w.flock ∧ ∀ i l, s.fileLock i = some l → l.Overlaps r.vno w →
        l.lockPid = r.pid → l.lockType = k)

/-! ## Counting the slots -/

variable {t : Table} {i j : Slot} {l : FileLock} {v : VnodePtr} {b : Int} {p : Pid}
  {k : LockType} {s : State} {r : Request} {w : Wanted} {c c' : Pass}

theorem usedSlots_free (h : t i = some l) : usedSlots (update t i none) + 1 = usedSlots t := by
  unfold usedSlots
  rw [← Finset.card_erase_add_one (a := i) (s := Finset.univ.filter fun i => (t i).isSome)
    (by simp [h])]
  congr 2
  ext j
  by_cases hj : j = i <;> simp [hj, update_apply]

theorem usedSlots_take (h : t i = none) : usedSlots (update t i (some l)) = usedSlots t + 1 := by
  unfold usedSlots
  rw [← Finset.card_insert_of_notMem (a := i) (s := Finset.univ.filter fun i => (t i).isSome)
    (by simp [h])]
  congr 1
  ext j
  by_cases hj : j = i <;> simp [hj, update_apply]

theorem usedSlots_trim (l' : FileLock) (h : t i = some l) :
    usedSlots (update t i (some l')) = usedSlots t := by
  unfold usedSlots
  congr 1
  ext j
  by_cases hj : j = i <;> simp [hj, update_apply, h]

theorem unusedSlot_some (h : unusedSlot t = some j) : t j = none := by
  have := List.find?_some h
  simpa using this

theorem unusedSlot_none (h : unusedSlot t = none) : usedSlots t = tableSize := by
  have hall : ∀ i, (t i).isSome := by
    intro i
    have := List.find?_eq_none.mp h i (mem_finRange i)
    simpa [isSome_iff_ne_none] using this
  unfold usedSlots
  simp [hall]

theorem usedSlots_lt_iff : usedSlots t < tableSize ↔ ∃ i, t i = none := by
  constructor
  · intro h
    cases hu : unusedSlot t with
    | none => exact absurd (unusedSlot_none hu) h.ne
    | some j => exact ⟨j, unusedSlot_some hu⟩
  · rintro ⟨i, hi⟩
    have hlt := Finset.card_lt_univ_of_notMem (x := i)
      (s := Finset.univ.filter fun i => (t i).isSome) (by simp [hi])
    rwa [Fintype.card_fin] at hlt

/-! ## Unlocking -/

/-- Clearing the region from the lock in slot `i` takes bytes of the region only, and slot `i` is
not on it afterwards. -/
structure Cleared (vno : VnodePtr) (w : Wanted) (i : Slot) (t t' : Table) : Prop where
  holds : ∀ {v b p k}, Holds t' v b p k → Holds t v b p k
  keeps : ∀ {v b p k}, Holds t v b p k → ¬ (v = vno ∧ w.first ≤ b ∧ b ≤ w.last) →
    Holds t' v b p k
  self : ∀ {l}, t' i = some l → ¬ l.Overlaps vno w
  others : ∀ {j}, j ≠ i → t' j = t j ∨
    (t j = none ∧ ∀ l, t' j = some l → ¬ l.Overlaps vno w)

theorem Cleared.replace {o : Option FileLock} (hi : t i = some l) (hl : l.Overlaps v w)
    (hsub : ∀ l', o = some l' → l'.lockVnode = l.lockVnode ∧ l'.lockPid = l.lockPid ∧
      l'.lockType = l.lockType ∧ l.lockFirst ≤ l'.lockFirst ∧ l'.lockLast ≤ l.lockLast ∧
      ¬ (l'.lockFirst ≤ w.last ∧ w.first ≤ l'.lockLast))
    (hrest : ∀ b, l.lockFirst ≤ b → b ≤ l.lockLast → ¬ (w.first ≤ b ∧ b ≤ w.last) →
      ∃ l', o = some l' ∧ l'.lockFirst ≤ b ∧ b ≤ l'.lockLast) :
    Cleared v w i t (update t i o) where
  holds := by
    rintro v' b p k ⟨j, l', hj, hv, hp, hk, hf, hb⟩
    by_cases hji : j = i
    · subst hji
      rw [update_self] at hj
      obtain ⟨h1, h2, h3, h4, h5, _⟩ := hsub l' hj
      exact ⟨j, l, hi, h1 ▸ hv, h2 ▸ hp, h3 ▸ hk, h4.trans hf, hb.trans h5⟩
    · rw [update_of_ne hji] at hj
      exact ⟨j, l', hj, hv, hp, hk, hf, hb⟩
  keeps := by
    rintro v' b p k ⟨j, l', hj, hv, hp, hk, hf, hb⟩ hout
    by_cases hji : j = i
    · subst hji
      rw [hi, some.injEq] at hj
      subst hj
      have hvno : v' = v := hv.symm.trans hl.1
      obtain ⟨l1, ho, hf1, hb1⟩ := hrest b hf hb fun h => hout ⟨hvno, h⟩
      obtain ⟨h1, h2, h3, _⟩ := hsub l1 ho
      refine ⟨j, l1, ?_, h1.trans hv, h2.trans hp, h3.trans hk, hf1, hb1⟩
      rw [update_self, ho]
    · exact ⟨j, l', by rw [update_of_ne hji, hj], hv, hp, hk, hf, hb⟩
  self := by
    intro l' hl' hov
    rw [update_self] at hl'
    exact (hsub l' hl').2.2.2.2.2 hov.2
  others := by
    intro j hji
    exact .inl (update_of_ne hji ..)

theorem Cleared.split (hw : w.first ≤ w.last) (hi : t i = some l) (hl : l.Overlaps v w)
    (ha : l.Around w) (hj : t j = none) :
    Cleared v w i t (update (update t j (some { l with lockFirst := w.last + 1 }))
      i (some { l with lockLast := w.first - 1 })) := by
  have hij : j ≠ i := by
    rintro rfl
    rw [hi] at hj
    cases hj
  obtain ⟨ha1, ha2⟩ := ha
  have hcases : ∀ {m l'}, update (update t j
      (some { l with lockFirst := w.last + 1 })) i (some { l with lockLast := w.first - 1 }) m =
        some l' → (m = i ∧ l' = { l with lockLast := w.first - 1 }) ∨
          (m = j ∧ l' = { l with lockFirst := w.last + 1 }) ∨ (m ≠ i ∧ m ≠ j ∧ t m = some l') := by
    intro m l' hm
    by_cases hmi : m = i
    · subst hmi
      rw [update_self, some.injEq] at hm
      exact .inl ⟨rfl, hm.symm⟩
    rw [update_of_ne hmi] at hm
    by_cases hmj : m = j
    · subst hmj
      rw [update_self, some.injEq] at hm
      exact .inr (.inl ⟨rfl, hm.symm⟩)
    · rw [update_of_ne hmj] at hm
      exact .inr (.inr ⟨hmi, hmj, hm⟩)
  refine ⟨?_, ?_, ?_, ?_⟩
  · rintro v' b p k ⟨m, l', hm, hv, hp, hk, hf, hb⟩
    obtain ⟨-, rfl⟩ | ⟨-, rfl⟩ | ⟨-, -, hm⟩ := hcases hm
    · exact ⟨i, l, hi, hv, hp, hk, hf, by simp only at hb; omega⟩
    · exact ⟨i, l, hi, hv, hp, hk, by simp only at hf; omega, hb⟩
    · exact ⟨m, l', hm, hv, hp, hk, hf, hb⟩
  · rintro v' b p k ⟨m, l', hm, hv, hp, hk, hf, hb⟩ hout
    by_cases hmi : m = i
    · subst hmi
      rw [hi, some.injEq] at hm
      subst hm
      have hside : b < w.first ∨ w.last < b := by
        by_contra hin
        exact hout ⟨hv.symm.trans hl.1, by omega, by omega⟩
      -- the byte is in the part before the region or in the part after it
      obtain hb1 | hb1 := hside
      · exact ⟨m, _, update_self .., hv, hp, hk, hf, by simp only; omega⟩
      · refine ⟨j, { l with lockFirst := w.last + 1 }, ?_, hv, hp, hk, by simp only; omega, hb⟩
        rw [update_of_ne hij, update_self]
    have hmj : m ≠ j := by
      rintro rfl
      rw [hj] at hm
      cases hm
    exact ⟨m, l', by rw [update_of_ne hmi, update_of_ne hmj, hm], hv, hp, hk, hf, hb⟩
  · intro l' hl' hov
    rw [update_self, some.injEq] at hl'
    subst hl'
    obtain ⟨_, _, hov⟩ := hov
    simp only at hov
    omega
  intro m hmi
  rw [update_of_ne hmi]
  by_cases hmj : m = j
  · subst hmj
    right
    refine ⟨hj, fun l' hl' hov => ?_⟩
    rw [update_self, some.injEq] at hl'
    subst hl'
    obtain ⟨_, hov, _⟩ := hov
    simp only at hov
    omega
  · exact .inl (update_of_ne hmj ..)

theorem unlockSlot_spec (hw : w.first ≤ w.last) (hi : c.fileLock i = some l)
    (hl : l.Overlaps v w) (hn : c.nrLocks = usedSlots c.fileLock) :
    (∃ c', unlockSlot w c i l = .ok c' ∧ Cleared v w i c.fileLock c'.fileLock ∧
      c'.nrLocks = usedSlots c'.fileLock ∧
      c'.nrLocks = c.nrLocks - (if l.Inside w then 1 else 0) + (if l.Around w then 1 else 0) ∧
      (l.Around w → c.nrLocks < tableSize)) ∨
    (unlockSlot w c i l = .error (.full { c with unlocking := true }) ∧ l.Around w ∧
      c.nrLocks = tableSize) := by
  obtain ⟨hvno, hov1, hov2⟩ := hl
  unfold unlockSlot
  simp only
  by_cases hin : w.first ≤ l.lockFirst ∧ w.last ≥ l.lockLast
  · left
    have hna : ¬ l.Around w := fun ha => by
      obtain ⟨ha, _⟩ := ha
      omega
    have hfree := usedSlots_free (t := c.fileLock) hi
    refine ⟨_, if_pos hin, ?_, ?_, ?_, fun ha => absurd ha hna⟩
    · refine Cleared.replace hi ⟨hvno, hov1, hov2⟩ (fun l' h => by cases h) fun b hb1 hb2 hout => ?_
      omega
    · simp only
      omega
    · rw [if_pos (show l.Inside w from ⟨hin.1, hin.2⟩), if_neg hna]
      simp only
      omega
  rw [if_neg hin]
  have hni : ¬ l.Inside w := fun h => hin ⟨h.1, h.2⟩
  by_cases hf : w.first ≤ l.lockFirst
  · left
    have hna : ¬ l.Around w := fun ha => by
      obtain ⟨ha, _⟩ := ha
      omega
    refine ⟨_, if_pos hf, ?_, ?_, ?_, fun ha => absurd ha hna⟩
    · refine Cleared.replace hi ⟨hvno, hov1, hov2⟩ (fun l' h => ?_) fun b hb1 hb2 hout => ?_
      · cases h
        exact ⟨rfl, rfl, rfl, by simp only; omega, le_refl _, fun h => by simp only at h; omega⟩
      · exact ⟨_, rfl, by simp only; omega, by simp only; omega⟩
    · simp only [usedSlots_trim _ hi]
      exact hn
    · rw [if_neg hni, if_neg hna]
      simp
  rw [if_neg hf]
  by_cases hg : w.last ≥ l.lockLast
  · left
    have hna : ¬ l.Around w := fun ha => by
      obtain ⟨_, ha⟩ := ha
      omega
    refine ⟨_, if_pos hg, ?_, ?_, ?_, fun ha => absurd ha hna⟩
    · refine Cleared.replace hi ⟨hvno, hov1, hov2⟩ (fun l' h => ?_) fun b hb1 hb2 hout => ?_
      · cases h
        exact ⟨rfl, rfl, rfl, le_refl _, by simp only; omega, fun h => by simp only at h; omega⟩
      · exact ⟨_, rfl, by simp only; omega, by simp only; omega⟩
    · simp only [usedSlots_trim _ hi]
      exact hn
    · rw [if_neg hni, if_neg hna]
      simp
  rw [if_neg hg]
  have ha : l.Around w := ⟨by omega, by omega⟩
  by_cases hfull : c.nrLocks = (tableSize : Int)
  · exact .inr ⟨if_pos hfull, ha, hfull⟩
  left
  rw [if_neg hfull]
  cases hu : unusedSlot c.fileLock with
  | none =>
    have := unusedSlot_none hu
    omega
  | some j =>
    have hj := unusedSlot_some hu
    have hlt := usedSlots_lt_iff.mpr ⟨j, hj⟩
    have htake := usedSlots_take (l := { l with lockFirst := w.last + 1 }) hj
    have hij : i ≠ j := by
      rintro rfl
      rw [hi] at hj
      cases hj
    have htrim := usedSlots_trim (i := i) { l with lockLast := w.first - 1 }
      (show update c.fileLock j (some { l with lockFirst := w.last + 1 }) i = some l
        by rw [update_of_ne hij, hi])
    refine ⟨_, rfl, Cleared.split hw hi ⟨hvno, hov1, hov2⟩ ha hj, ?_, ?_, fun _ => ?_⟩
    · simp only
      omega
    · rw [if_neg hni, if_pos ha]
      simp only
      omega
    · omega

theorem hits_unlck (hu : w.ltype = .unlck) : l.Hits r w ↔ l.Overlaps r.vno w := by
  simp [FileLock.Hits, hu]

/-- The pass over `is` clears the region, when all locks on it are in these slots and there is room
to split them. -/
theorem scanTable_unlck (is : List Slot) (hu : w.ltype = .unlck) (hw : w.first ≤ w.last)
    (hnodup : is.Nodup) (hn : c.nrLocks = usedSlots c.fileLock)
    (hleft : ∀ j l, c.fileLock j = some l → l.Overlaps r.vno w → j ∈ is)
    (hsame : ∀ j ∈ is, c.fileLock j = t j ∨
      (t j = none ∧ ∀ l, c.fileLock j = some l → ¬ l.Overlaps r.vno w))
    (hroom : Room t r.vno w is c.nrLocks) :
    ∃ c', scanTable r w is c = .ok c' ∧ c'.nrLocks = usedSlots c'.fileLock ∧
      ∀ v b p k, Holds c'.fileLock v b p k ↔
        Holds c.fileLock v b p k ∧ ¬ (v = r.vno ∧ w.first ≤ b ∧ b ≤ w.last) := by
  induction is generalizing c with
  | nil =>
    refine ⟨c, rfl, hn, fun v b p k => ⟨fun h => ⟨h, ?_⟩, fun h => h.1⟩⟩
    rintro ⟨hv, hb1, hb2⟩
    obtain ⟨j, l, hj, hlv, _, _, hf, hb⟩ := h
    exact absurd (hleft j l hj ⟨hlv.trans hv, hf.trans hb2, hb1.trans hb⟩) not_mem_nil
  | cons i is ih =>
    obtain ⟨hi, hnodup⟩ := nodup_cons.mp hnodup
    have htail : ∀ j ∈ is, c.fileLock j = t j ∨
        (t j = none ∧ ∀ l, c.fileLock j = some l → ¬ l.Overlaps r.vno w) :=
      fun j hj => hsame j (mem_cons_of_mem i hj)
    -- a slot that is not on the region is passed over
    have hpass : (∀ l, c.fileLock i = some l → ¬ l.Overlaps r.vno w) →
        (∀ j l, c.fileLock j = some l → l.Overlaps r.vno w → j ∈ is) ∧
          Room t r.vno w is c.nrLocks := by
      intro hnot
      refine ⟨fun j l hj hl => ?_, ?_⟩
      · refine (mem_cons.mp (hleft j l hj hl)).resolve_left ?_
        rintro rfl
        exact hnot l hj hl
      unfold Room at hroom
      split at hroom
      · exact hroom
      rename_i l hl
      rw [if_neg ?_] at hroom
      · exact hroom
      · obtain heq | ⟨hnone, _⟩ := hsame i mem_cons_self
        · exact hnot l (heq.trans hl)
        · rw [hnone] at hl
          cases hl
    unfold scanTable
    split
    next hnone =>
      obtain ⟨hleft', hroom'⟩ := hpass fun l hl => by
        rw [hnone] at hl
        cases hl
      apply ih hnodup
      · exact hn
      · exact hleft'
      · exact htail
      · exact hroom'
    rename_i l hl
    by_cases hov : l.Overlaps r.vno w
    · rw [if_pos ((hits_unlck hu).mpr hov), if_pos hu]
      have ht : t i = some l := by
        obtain heq | ⟨_, hno⟩ := hsame i mem_cons_self
        · exact heq.symm.trans hl
        · exact absurd hov (hno l hl)
      unfold Room at hroom
      simp only [ht, if_pos hov] at hroom
      obtain ⟨c1, hstep, hclear, hn1, hnr, -⟩ | ⟨-, ha, hfull⟩ := unlockSlot_spec hw hl hov hn
      · simp only [hstep]
        have hroom1 : Room t r.vno w is c1.nrLocks := by
          rw [hnr]
          by_cases hin : l.Inside w
          · have hna : ¬ l.Around w := fun ha => by
              obtain ⟨ha, _⟩ := ha
              obtain ⟨hin, _⟩ := hin
              omega
            simpa [hin, hna] using hroom
          by_cases ha : l.Around w
          · simp only [if_neg hin, if_pos ha] at hroom ⊢
            rw [Int.sub_zero]
            exact hroom.2
          · simpa [hin, ha] using hroom
        obtain ⟨c', hrun, hn', hholds⟩ := ih hnodup hn1
          (fun j l' hj hl' => by
            have hji : j ≠ i := by
              rintro rfl
              exact hclear.self hj hl'
            obtain heq | ⟨_, hno⟩ := hclear.others hji
            · have := hleft j l' (heq.symm.trans hj) hl'
              exact (mem_cons.mp this).resolve_left hji
            · exact absurd hl' (hno l' hj))
          (fun j hj => by
            have hji : j ≠ i := fun h => hi (h ▸ hj)
            obtain heq | ⟨hnone, hno⟩ := hclear.others hji
            · rw [heq]
              exact htail j hj
            · obtain heq' | ⟨hnone', _⟩ := htail j hj
              · exact .inr ⟨heq' ▸ hnone, hno⟩
              · exact .inr ⟨hnone', hno⟩)
          hroom1
        refine ⟨c', hrun, hn', fun v b p k => (hholds v b p k).trans ⟨?_, ?_⟩⟩
        · exact fun h => ⟨hclear.holds h.1, h.2⟩
        · exact fun h => ⟨hclear.keeps h.1 h.2, h.2⟩
      · -- the lock has to be split, and `Room` has a slot for it
        have hni : ¬ l.Inside w := fun hin => by
          obtain ⟨ha, _⟩ := ha
          obtain ⟨hin, _⟩ := hin
          omega
        rw [if_neg hni, if_pos ha] at hroom
        omega
    · rw [if_neg fun h => hov ((hits_unlck hu).mp h)]
      obtain ⟨hleft', hroom'⟩ := hpass fun l' hl' => by
        rw [hl, some.injEq] at hl'
        exact hl' ▸ hov
      apply ih hnodup hn
      · exact hleft'
      · exact htail
      · exact hroom'

theorem scanTable_append (is js : List Slot)
    (hno : ∀ j ∈ is, ∀ l, c.fileLock j = some l → ¬ l.Hits r w) :
    ∃ e, scanTable r w (is ++ js) c = scanTable r w js { c with empty := e } ∧
      (e = none ↔ c.empty = none ∧ ∀ j ∈ is, c.fileLock j ≠ none) ∧
      ∀ j, e = some j → c.empty = some j ∨ c.fileLock j = none := by
  induction is generalizing c with
  | nil => exact ⟨c.empty, rfl, by simp, fun j h => .inl h⟩
  | cons i is ih =>
    rw [cons_append, scanTable.eq_2]
    split
    next hnone =>
      obtain ⟨e, hrun, he, hsome⟩ := ih (c := { c with
        empty := if c.empty = none then some i else c.empty })
        fun j hj => hno j (mem_cons_of_mem i hj)
      refine ⟨e, hrun, ?_, fun j hj => ?_⟩
      · rw [he]
        constructor
        · intro ⟨h, _⟩
          split at h
          · cases h
          · contradiction
        · intro ⟨_, h⟩
          exact absurd hnone (h i mem_cons_self)
      obtain h | h := hsome j hj
      · simp only at h
        split at h
        · cases h
          exact .inr hnone
        · exact .inl h
      · exact .inr h
    rename_i l hl
    rw [if_neg (hno i mem_cons_self l hl)]
    obtain ⟨e, hrun, he, hsome⟩ := ih fun j hj => hno j (mem_cons_of_mem i hj)
    refine ⟨e, hrun, he.trans ?_, hsome⟩
    simp [hl]

/-! ## Setting and testing -/

theorem scanTable_lock (is : List Slot) (hk : w.ltype = .lock k) :
    (∃ i ∈ is, ∃ l, c.fileLock i = some l ∧ l.Hits r w ∧
      scanTable r w is c = .error (.conflict l)) ∨
    ∀ i ∈ is, ∀ l, c.fileLock i = some l → ¬ l.Hits r w := by
  induction is generalizing c with
  | nil => exact .inr fun i hi => absurd hi not_mem_nil
  | cons i is ih =>
    unfold scanTable
    split
    next hnone =>
      obtain ⟨j, hj, l, hl, hhit, hrun⟩ | hno := ih (c := { c with
        empty := if c.empty = none then some i else c.empty })
      · exact .inl ⟨j, mem_cons_of_mem i hj, l, hl, hhit, hrun⟩
      refine .inr fun j hj l hl => ?_
      obtain rfl | hj := mem_cons.mp hj
      · rw [hnone] at hl
        cases hl
      · exact hno j hj l hl
    rename_i l hl
    by_cases hhit : l.Hits r w
    · refine .inl ⟨i, mem_cons_self, l, hl, hhit, ?_⟩
      rw [if_pos hhit, if_neg (by rw [hk]; exact fun h => by cases h)]
    rw [if_neg hhit]
    obtain ⟨j, hj, l', hl', hhit', hrun⟩ | hno := ih
    · exact .inl ⟨j, mem_cons_of_mem i hj, l', hl', hhit', hrun⟩
    refine .inr fun j hj l' hl' => ?_
    obtain rfl | hj := mem_cons.mp hj
    · rw [hl, some.injEq] at hl'
      exact hl' ▸ hhit
    · exact hno j hj l' hl'

theorem lockWanted_conflict (hk : w.ltype = .lock k) (h : ¬ Clear s r w) :
    (r.req = .getlk → ∃ flock, flock.lType ≠ some .unlck ∧ lockWanted s r w = copyBack s r flock) ∧
    (r.req = .setlk → lockWanted s r w = (s, .eagain)) ∧
    (r.req = .setlkw → lockWanted s r w = (suspend s r.fp, .suspend)) := by
  obtain ⟨i, hi, l, hl, hhit, hrun⟩ | hno := scanTable_lock (r := r)
    (List.finRange tableSize) hk (c := ⟨s.fileLock, s.nrLocks, none, false⟩)
  · unfold lockWanted
    rw [hrun]
    refine ⟨fun hreq => ?_, fun hreq => ?_, fun hreq => ?_⟩
    · rw [hreq]
      exact ⟨_, by simp, rfl⟩
    · rw [hreq]
    · rw [hreq]
  · exact absurd (fun i l hl => hno i (mem_finRange i) l hl) h

theorem lockWanted_clear (hk : w.ltype = .lock k) (h : Clear s r w) :
    (r.req = .getlk → lockWanted s r w = copyBack s r { w.flock with lType := some .unlck }) ∧
    (r.req ≠ .getlk → ¬ usedSlots s.fileLock < tableSize → lockWanted s r w = (s, .enolck)) ∧
    (r.req ≠ .getlk → usedSlots s.fileLock < tableSize → ∃ i, s.fileLock i = none ∧
      lockWanted s r w = ({ s with
        fileLock := update s.fileLock i (some ⟨k, r.pid, r.vno, w.first, w.last⟩)
        nrLocks := s.nrLocks + 1 }, .ok)) := by
  obtain ⟨e, hrun, hnone, hsome⟩ := scanTable_append (r := r) (w := w)
    (c := ⟨s.fileLock, s.nrLocks, none, false⟩) (List.finRange tableSize) [] fun j _ l hl => h j l hl
  rw [append_nil] at hrun
  have hfull : e = none ↔ ¬ usedSlots s.fileLock < tableSize := by
    rw [hnone, usedSlots_lt_iff]
    simp
  unfold lockWanted
  rw [hrun, hk]
  refine ⟨fun hreq => ?_, fun hreq huse => ?_, fun hreq huse => ?_⟩
  · rw [hreq]
    rfl
  · rw [hfull.mpr huse]
    cases hr : r.req with
    | getlk => exact absurd hr hreq
    | setlk => rfl
    | setlkw => rfl
  cases he : e with
  | none => exact absurd huse (hfull.mp he)
  | some i =>
    have hi : s.fileLock i = none := by
      obtain h | h := hsome i he
      · cases h
      · exact h
    refine ⟨i, hi, ?_⟩
    cases hr : r.req with
    | getlk => exact absurd hr hreq
    | setlk => rfl
    | setlkw => rfl

/-! ## The checks -/

theorem offT_spec (x : Int) :
    -2 ^ 31 ≤ offT x ∧ offT x < 2 ^ 31 ∧ ∃ q, x = offT x + 2 ^ 32 * q := by
  unfold offT
  refine ⟨?_, ?_, Int.bdiv x (2 ^ 32), ?_⟩
  · exact Int.le_bmod (by decide)
  · exact Int.bmod_lt (by decide)
  · rw [Int.bmod_eq_self_sub_mul_bdiv]
    simp

variable {flock : Flock} {e : Result}

theorem lockRegion_error (h : lockRegion r flock = .error e) : e.Fails := by
  unfold lockRegion at h
  split at h
  next e' hbase =>
    cases h
    unfold lockBase at hbase
    split at hbase
    · cases hbase
    · split at hbase <;> cases hbase
      trivial
    · cases hbase
    · cases hbase
      trivial
  split at h
  · cases h
    trivial
  split at h
  · cases h
    trivial
  · simp only at h
    generalize (if flock.lLen = 0 then maxFilePos else _) = last at h
    split at h <;> cases h
    trivial

theorem lockRegion_ok {first last : Int} (h : lockRegion r flock = .ok (first, last))
    (hin : r.InRange flock) :
    first = r.base flock + flock.lStart ∧ last = if flock.lLen = 0 then maxFilePos
        else r.base flock + flock.lStart + flock.lLen - 1 := by
  obtain ⟨⟨hs1, hs2⟩, ⟨hl1, hl2⟩, ⟨hb1, hb2⟩, hneg⟩ := hin
  have hbase : lockBase r flock = .ok (r.base flock) := by
    have hfits : offT (r.base flock) = r.base flock := by
      have := offT_spec (r.base flock)
      omega
    cases hw : flock.lWhence with
    | none =>
      unfold lockRegion lockBase at h
      rw [hw] at h
      cases h
    | some wh =>
      cases wh with
      | set => simp only [lockBase, Request.base, hw]
      | cur =>
        simp only [Request.base, hw] at hfits hb1 hb2
        simp only [lockBase, Request.base, hw, hfits]
        rw [if_neg (by omega)]
      | fin => simp only [lockBase, Request.base, hw]
  unfold lockRegion at h
  simp only [hbase] at h
  have h1 := offT_spec (r.base flock + flock.lStart)
  split at h
  · cases h
  split at h
  · cases h
  -- the sum has not wrapped, since it would then be on the other side of the base
  have hfirst : offT (r.base flock + flock.lStart) = r.base flock + flock.lStart := by omega
  rw [hfirst] at h
  have h2 := offT_spec (r.base flock + flock.lStart + flock.lLen)
  have h3 := offT_spec (offT (r.base flock + flock.lStart + flock.lLen) - 1)
  by_cases hzero : flock.lLen = 0
  · simp only [if_pos hzero] at h ⊢
    split at h <;> cases h
    exact ⟨rfl, rfl⟩
  · simp only [if_neg hzero] at h ⊢
    split at h <;> cases h
    exact ⟨rfl, by omega⟩

theorem checkRequest_ok (h : checkRequest r = .ok w) :
    r.flock = some w.flock ∧ w.flock.lType = some w.ltype ∧ ¬ (r.req = .getlk ∧ w.ltype = .unlck) ∧
      r.lockable = true ∧ (r.req ≠ .getlk → r.modeOk w.ltype = true) ∧
      lockRegion r w.flock = .ok (w.first, w.last) := by
  unfold checkRequest at h
  split at h
  · cases h
  rename_i flock hflock
  split at h
  · cases h
  rename_i ltype htype
  split at h
  · cases h
  rename_i hget
  split at h
  · cases h
  rename_i hlock
  split at h
  · cases h
  rename_i hmode
  split at h
  · cases h
  rename_i first last hreg
  cases h
  refine ⟨hflock, htype, hget, by simpa using hlock, fun hne => ?_, hreg⟩
  simpa [hne] using hmode

theorem checkRequest_error (h : checkRequest r = .error e) : e.Fails := by
  unfold checkRequest at h
  split at h
  · cases h
    trivial
  split at h
  · cases h
    trivial
  split at h
  · cases h
    trivial
  split at h
  · cases h
    trivial
  split at h
  · cases h
    trivial
  split at h
  next hreg =>
    cases h
    exact lockRegion_error hreg
  next => cases h

theorem lockRegion_le {first last : Int}
    (h : lockRegion r flock = .ok (first, last)) : first ≤ last := by
  unfold lockRegion at h
  split at h
  · cases h
  split at h
  · cases h
  split at h
  · cases h
  · simp only at h
    generalize (if flock.lLen = 0 then maxFilePos else _) = last' at h
    split at h <;> cases h
    omega

theorem checkRequest_setlk {q : Request} (hreq : r.req = .getlk) (hq : q = { r with req := .setlk })
    (hne : ∀ flock, r.flock = some flock → flock.lType ≠ some .unlck) :
    (∃ e e', checkRequest r = .error e ∧ checkRequest q = .error e') ∨
    ∃ w, checkRequest r = .ok w ∧
      checkRequest q = if r.modeOk w.ltype = true then .ok w else .error .ebadf := by
  have hmode : ∀ k, q.modeOk k = r.modeOk k := by
    intro k
    subst hq
    obtain ⟨⟨⟩⟩ | _ := k <;> rfl
  have hregion : ∀ flock, lockRegion q flock = lockRegion r flock := fun flock => by subst hq; rfl
  have hflock : q.flock = r.flock := by subst hq; rfl
  have hlockable : q.lockable = r.lockable := by subst hq; rfl
  have hset : q.req = .setlk := by subst hq; rfl
  clear hq
  unfold checkRequest
  rw [hflock, hlockable]
  cases hf : r.flock with
  | none => exact .inl ⟨.einval, .einval, rfl, rfl⟩
  | some flock =>
    cases hlt : flock.lType with
    | none => exact .inl ⟨.einval, .einval, by simp only [hlt], by simp only [hlt]⟩
    | some ltype =>
      have hun : ltype ≠ .unlck := fun h => hne flock hf (h ▸ hlt)
      simp only [hlt, hreq, hset, hmode, hregion]
      by_cases hlock : r.lockable = false
      · exact .inl ⟨.einval, .einval, by simp [hun, hlock], by simp [hlock]⟩
      cases hreg : lockRegion r flock with
      | error e =>
        by_cases hm : r.modeOk ltype = false
        · exact .inl ⟨e, .ebadf, by simp [hun, hlock], by simp [hlock, hm]⟩
        · exact .inl ⟨e, e, by simp [hun, hlock], by simp [hlock, hm]⟩
      | ok ends =>
        refine .inr ⟨⟨flock, ltype, ends.1, ends.2⟩, by simp [hun, hlock], ?_⟩
        cases hm : r.modeOk ltype <;> simp [hlock]

/-! ## One request -/

/-- The locks of the table exclude each other, and they are counted. -/
structure Inv (s : State) : Prop where
  exclusive : Exclusive s.fileLock
  counted : s.nrLocks = usedSlots s.fileLock

theorem Exclusive.of_holds {t' : Table} (h : Exclusive t)
    (hsub : ∀ {v b p k}, Holds t' v b p k → Holds t v b p k) : Exclusive t' :=
  fun v b p q k hp hq => h v b p q k (hsub hp) (hsub hq)

theorem holds_set (hi : t i = none) (v' : VnodePtr) (b : Int) (q : Pid) (k' : LockType) :
    Holds (update t i (some l)) v' b q k' ↔
      Holds t v' b q k' ∨ (l.lockVnode = v' ∧ l.lockPid = q ∧ l.lockType = k' ∧
        l.lockFirst ≤ b ∧ b ≤ l.lockLast) := by
  constructor
  · rintro ⟨j, l', hj, hrest⟩
    by_cases hji : j = i
    · subst hji
      rw [update_self, some.injEq] at hj
      exact .inr (hj ▸ hrest)
    · rw [update_of_ne hji] at hj
      exact .inl ⟨j, l', hj, hrest⟩
  rintro (⟨j, l', hj, hrest⟩ | hrest)
  · have hji : j ≠ i := by
      rintro rfl
      rw [hi] at hj
      cases hj
    exact ⟨j, l', by rw [update_of_ne hji, hj], hrest⟩
  · exact ⟨i, l, update_self .., hrest⟩

theorem Exclusive.set (h : Exclusive s.fileLock) (hk : w.ltype = .lock k) (hclear : Clear s r w)
    (hi : s.fileLock i = none) :
    Exclusive (update s.fileLock i (some ⟨k, r.pid, r.vno, w.first, w.last⟩)) := by
  -- a lock of another process on the region is no write lock, and neither is the new one
  have hother : ∀ {v b q k'}, Holds s.fileLock v b q k' → v = r.vno → w.first ≤ b → b ≤ w.last →
      q = r.pid ∨ (k = .rdlck ∧ k' = .rdlck) := by
    rintro v b q k' ⟨j, l, hj, hv, hq, hk', hf, hb⟩ hvno h1 h2
    have hno := hclear j l hj
    by_contra hcon
    rw [not_or] at hcon
    apply hno
    refine ⟨⟨hv.trans hvno, hf.trans h2, h1.trans hb⟩, ?_, ?_⟩
    · rintro ⟨hw, hl⟩
      rw [hk] at hw
      cases hw
      exact hcon.2 ⟨rfl, hk' ▸ hl⟩
    · exact fun h => hcon.1 (hq ▸ h.2)
  intro v b p q k' hp hq
  rw [holds_set hi] at hp hq
  obtain hp | ⟨hv, hpp, hkw, h1, h2⟩ := hp
  · obtain hq | ⟨hv, hqq, -, h1, h2⟩ := hq
    · exact h v b p q k' hp hq
    · obtain heq | ⟨_, hw⟩ := hother hp hv.symm h1 h2
      · exact heq.trans hqq
      · cases hw
  obtain hq | ⟨-, hqq, -⟩ := hq
  · obtain heq | ⟨hr, _⟩ := hother hq hv.symm h1 h2
    · exact hpp.symm.trans heq.symm
    · simp only at hkw
      rw [hkw] at hr
      cases hr
  · exact hpp.symm.trans hqq

theorem lockWanted_own (h : Inv s) (hu : w.ltype = .unlck) (hreq : r.req ≠ .getlk)
    (hw : w.first ≤ w.last) (hown : OwnRegion s r w) :
    ∃ s', lockWanted s r w = (s', .ok) ∧ s'.nrLocks = usedSlots s'.fileLock ∧
      ∀ v b p k, Holds s'.fileLock v b p k ↔
        Holds s.fileLock v b p k ∧ ¬ (v = r.vno ∧ w.first ≤ b ∧ b ≤ w.last) := by
  obtain ⟨c', hrun, hn, hholds⟩ := scanTable_unlck (r := r)
    (c := ⟨s.fileLock, s.nrLocks, none, false⟩) (t := s.fileLock) (List.finRange tableSize) hu hw (nodup_finRange _)
    h.counted (fun j _ _ _ => mem_finRange j) (fun j _ => .inl rfl) hown.2.2
  have hsplit : ∃ s', lockWanted s r w = (s', .ok) ∧ s'.fileLock = c'.fileLock ∧
      s'.nrLocks = c'.nrLocks := by
    unfold lockWanted
    rw [hrun, hu]
    cases hr : r.req with
    | getlk => exact absurd hr hreq
    | setlk => refine ⟨_, rfl, ?_, ?_⟩ <;> cases c'.unlocking <;> rfl
    | setlkw => refine ⟨_, rfl, ?_, ?_⟩ <;> cases c'.unlocking <;> rfl
  obtain ⟨s', hs', htable, hnr⟩ := hsplit
  refine ⟨s', hs', ?_, ?_⟩
  · rw [hnr, htable, hn]
  · rw [htable]
    exact hholds

theorem lockWanted_full (h : Inv s) (hu : w.ltype = .unlck) (hw : w.first ≤ w.last)
    (hfull : FullAtFirst s r w) : lockWanted s r w = (s, .enolck) := by
  obtain ⟨hn, i, l, hi, hl, ha, hbefore⟩ := hfull
  obtain ⟨pre, post, hsplit⟩ := append_of_mem (mem_finRange i)
  have hpre : ∀ j ∈ pre, j < i := by
    intro j hj
    have hsorted := pairwise_lt_finRange tableSize
    rw [hsplit] at hsorted
    exact (pairwise_append.mp hsorted).2.2 j hj i mem_cons_self
  obtain ⟨e, hrun, -⟩ := scanTable_append (r := r) (w := w)
    (c := ⟨s.fileLock, s.nrLocks, none, false⟩) pre (i :: post) fun j hj l' hl' hhit =>
      hbefore j (hpre j hj) l' hl' ((hits_unlck hu).mp hhit)
  obtain ⟨c', -, -, -, -, hlt⟩ | ⟨hslot, -⟩ := unlockSlot_spec
    (c := ⟨s.fileLock, s.nrLocks, e, false⟩) hw hi hl h.counted
  · have := hlt ha
    simp only at this
    omega
  · unfold lockWanted
    rw [hsplit, hrun, scanTable.eq_2]
    simp only [hi, if_pos ((hits_unlck hu).mpr hl), if_pos hu, hslot]

theorem Inv.conforms_error (h : Inv s) (hs : Meets s r)
    (hc : checkRequest r = .error e) : Conforms s r := by
  have hop : lockOp s r = (s, e) := by
    unfold lockOp
    rw [hc]
  have hstep : step s r = s := congrArg Prod.fst hop
  have hfail := checkRequest_error hc
  constructor
  · rw [hstep]
    exact h.exclusive
  · rw [hstep]
    exact h.counted
  · intro _
    rw [hstep]
    exact ⟨rfl, rfl⟩
  · intro flock _ _ hok
    rw [hop] at hok
    cases hok
    exact hfail.elim
  · intro flock k _ _ hok
    rw [hop] at hok
    cases hok
    exact hfail.elim
  intro hreq _
  obtain ⟨_, e', _, hq⟩ | ⟨w, hw, _⟩ := checkRequest_setlk hreq rfl (hs.1 hreq)
  · have hq' : lockOp s { r with req := .setlk } = (s, e') := by
      unfold lockOp
      rw [hq]
    have hfail' := checkRequest_error hq
    rw [hop, hq']
    constructor
    · rintro ⟨flock, heq, _⟩
      simp only at heq
      subst heq
      exact hfail.elim
    · intro heq
      simp only at heq
      subst heq
      exact hfail'.elim
  · rw [hc] at hw
    cases hw

theorem Inv.conforms_fails {s' : State} (h : Inv s) (hop : lockOp s r = (s', e))
    (hfail : e.Fails) (htable : s'.fileLock = s.fileLock) (hn : s'.nrLocks = s.nrLocks)
    (hreq : r.req ≠ .getlk) : Conforms s r := by
  have hstep : step s r = s' := congrArg Prod.fst hop
  have hres : (lockOp s r).2 = e := congrArg Prod.snd hop
  constructor
  · rw [hstep, htable]
    exact h.exclusive
  · rw [hstep, htable, hn]
    exact h.counted
  · intro _
    rw [hstep]
    exact ⟨htable, hn⟩
  · intro flock _ _ hok
    rw [hres] at hok
    exact (hok ▸ hfail).elim
  · intro flock k _ _ hok
    rw [hres] at hok
    exact (hok ▸ hfail).elim
  · exact fun hget => absurd hget hreq

theorem Inv.conforms_unlck (h : Inv s) (hs : Meets s r) (hc : checkRequest r = .ok w)
    (hu : w.ltype = .unlck) : Conforms s r := by
  obtain ⟨hflock, htype, hget, -, -, hreg⟩ := checkRequest_ok hc
  have hreq : r.req ≠ .getlk := fun hr => hget ⟨hr, hu⟩
  have hw := lockRegion_le hreg
  have hop : lockOp s r = lockWanted s r w := by
    unfold lockOp
    rw [hc]
  obtain hown | hfull := (hs.2 w hc).2.1 hu
  · obtain ⟨s', hrun, hn, hholds⟩ := lockWanted_own h hu hreq hw hown
    rw [hrun] at hop
    have hstep : step s r = s' := congrArg Prod.fst hop
    have hres : (lockOp s r).2 = .ok := congrArg Prod.snd hop
    obtain ⟨hfirst, hlast⟩ := lockRegion_ok hreg hown.1
    constructor
    · rw [hstep]
      exact h.exclusive.of_holds fun hh => ((hholds ..).mp hh).1
    · rw [hstep]
      exact hn
    · intro hfail
      rw [hres] at hfail
      exact hfail.elim
    · intro flock hf _ _ v b p k
      rw [hflock, some.injEq] at hf
      subst hf
      rw [hstep, hholds]
      refine and_congr_right fun hh => not_congr ?_
      unfold Request.Given
      rw [← hlast, ← hfirst]
      -- all locks on the region are the caller's
      constructor
      · rintro ⟨hv, hb1, hb2⟩
        obtain ⟨i, l, hi, hlv, hlp, _, hf, hb⟩ := hh
        have hov : l.Overlaps r.vno w := ⟨hlv.trans hv, hf.trans hb2, hb1.trans hb⟩
        exact ⟨hv, hlp.symm.trans (hown.2.1 i l hi hov), hb1, hb2⟩
      · exact fun ⟨hv, _, hb⟩ => ⟨hv, hb⟩
    · intro flock k hf hk
      rw [hflock, some.injEq] at hf
      rw [← hf, htype, hu] at hk
      cases hk
    · exact fun hr => absurd hr hreq
  · rw [lockWanted_full h hu hw hfull] at hop
    exact h.conforms_fails hop trivial rfl rfl hreq

theorem Inv.conforms_getlk (h : Inv s) (hs : Meets s r) (hc : checkRequest r = .ok w)
    (hk : w.ltype = .lock k) (hreq : r.req = .getlk) : Conforms s r := by
  have hop : lockOp s r = lockWanted s r w := by
    unfold lockOp
    rw [hc]
  have hback : ∃ flock, lockOp s r = copyBack s r flock ∧
      (flock.lType = some .unlck ↔ Clear s r w) := by
    by_cases hclear : Clear s r w
    · exact ⟨_, hop.trans ((lockWanted_clear hk hclear).1 hreq), by simp [hclear]⟩
    · obtain ⟨flock, hne, hrun⟩ := (lockWanted_conflict hk hclear).1 hreq
      exact ⟨flock, hop.trans hrun, by simp [hclear, hne]⟩
  obtain ⟨flock, hback, hiff⟩ := hback
  have hstep : step s r = s := congrArg Prod.fst hback
  have hres : (lockOp s r).2 = if r.copiesBack then .report flock else .efault :=
    congrArg Prod.snd hback
  have hnok : (lockOp s r).2 ≠ .ok := by
    rw [hres]
    cases r.copiesBack <;> simp
  constructor
  · rw [hstep]
    exact h.exclusive
  · rw [hstep]
    exact h.counted
  · intro _
    rw [hstep]
    exact ⟨rfl, rfl⟩
  · exact fun flock _ _ hok => absurd hok hnok
  · exact fun flock k _ _ hok => absurd hok hnok
  intro _ hcopies
  obtain ⟨_, _, he, _⟩ | ⟨w', hw', hq⟩ := checkRequest_setlk hreq rfl (hs.1 hreq)
  · rw [hc] at he
    cases he
  rw [hc] at hw'
  cases hw'
  have hset : (lockOp s { r with req := .setlk }).2 = .ok ↔ Clear s r w := by
    unfold lockOp
    rw [hq]
    by_cases hclear : Clear s r w
    · -- the access and the room in the table are those of `Meets`
      obtain ⟨hmode, huse⟩ := (hs.2 w hc).1 hreq hclear
      obtain ⟨i, _, hrun⟩ := (lockWanted_clear (r := { r with req := .setlk }) hk hclear).2.2
        (by simp) huse
      simp only [if_pos hmode, hrun, hclear]
    · have hrun := (lockWanted_conflict (r := { r with req := .setlk }) hk hclear).2.1 rfl
      cases hm : r.modeOk w.ltype <;> simp [hrun, hclear]
  rw [hset, hres, ← hiff]
  simp [hcopies]

theorem Inv.conforms_set (h : Inv s) (hs : Meets s r) (hc : checkRequest r = .ok w)
    (hk : w.ltype = .lock k) (hreq : r.req ≠ .getlk) : Conforms s r := by
  obtain ⟨hflock, htype, -, -, -, hreg⟩ := checkRequest_ok hc
  have hop : lockOp s r = lockWanted s r w := by
    unfold lockOp
    rw [hc]
  by_cases hclear : Clear s r w
  · by_cases huse : usedSlots s.fileLock < tableSize
    · obtain ⟨hin, hown⟩ := (hs.2 w hc).2.2 hreq k hk hclear huse
      obtain ⟨hfirst, hlast⟩ := lockRegion_ok hreg hin
      obtain ⟨i, hi, hrun⟩ := (lockWanted_clear hk hclear).2.2 hreq huse
      rw [hrun] at hop
      have hstep : step s r = _ := congrArg Prod.fst hop
      have hres : (lockOp s r).2 = .ok := congrArg Prod.snd hop
      constructor
      · rw [hstep]
        exact h.exclusive.set hk hclear hi
      · rw [hstep]
        simp only [usedSlots_take hi, h.counted]
        omega
      · intro hfail
        rw [hres] at hfail
        exact hfail.elim
      · intro flock hf hlt
        rw [hflock, some.injEq] at hf
        rw [← hf, htype, hk] at hlt
        cases hlt
      · intro flock k' hf hlt _ v b p k2
        rw [hflock, some.injEq] at hf
        subst hf
        rw [htype, hk] at hlt
        cases hlt
        rw [hstep, holds_set hi]
        unfold Request.Given
        rw [← hlast, ← hfirst]
        constructor
        · rintro (hh | ⟨hv, hp, hkk, hb⟩)
          · by_cases hin' : v = r.vno ∧ p = r.pid ∧ w.first ≤ b ∧ b ≤ w.last
            · -- what the caller had there was of the same type
              obtain ⟨j, l, hj, hlv, hlp, hlk, hf, hb⟩ := hh
              obtain ⟨hv, hp, hb1, hb2⟩ := hin'
              have hov : l.Overlaps r.vno w := ⟨hlv.trans hv, hf.trans hb2, hb1.trans hb⟩
              have hsame := hown j l hj hov (hlp.trans hp)
              exact .inl ⟨hv, hp, ⟨hb1, hb2⟩, hlk.symm.trans hsame⟩
            · exact .inr ⟨hh, hin'⟩
          · exact .inl ⟨hv.symm, hp.symm, hb, hkk.symm⟩
        · rintro (⟨hv, hp, hb, hkk⟩ | ⟨hh, _⟩)
          · exact .inr ⟨hv.symm, hp.symm, hkk.symm, hb⟩
          · exact .inl hh
      · exact fun hr => absurd hr hreq
    · rw [(lockWanted_clear hk hclear).2.1 hreq huse] at hop
      exact h.conforms_fails hop trivial rfl rfl hreq
  · obtain ⟨-, hsetlk, hsetlkw⟩ := lockWanted_conflict (r := r) hk hclear
    cases hr : r.req with
    | getlk => exact absurd hr hreq
    | setlk => exact h.conforms_fails (hop.trans (hsetlk hr)) trivial rfl rfl hreq
    | setlkw => exact h.conforms_fails (hop.trans (hsetlkw hr)) trivial rfl rfl hreq

theorem Inv.conforms (h : Inv s) (hs : Meets s r) : Conforms s r := by
  cases hc : checkRequest r with
  | error e => exact h.conforms_error hs hc
  | ok w =>
    cases hk : w.ltype with
    | unlck => exact h.conforms_unlck hs hc hk
    | lock k =>
      by_cases hreq : r.req = .getlk
      · exact h.conforms_getlk hs hc hk hreq
      · exact h.conforms_set hs hc hk hreq

/-! ## Runs -/

structure Boot (s : State) : Prop where
  fileLock : ∀ i, s.fileLock i = none
  nrLocks : s.nrLocks = 0

theorem Boot.inv (h : Boot s) : Inv s where
  exclusive := by
    rintro v b p q k ⟨i, l, hi, _⟩
    rw [h.fileLock i] at hi
    cases hi
  counted := by
    have hnone : usedSlots s.fileLock = 0 := by
      unfold usedSlots
      simp [h.fileLock]
    rw [h.nrLocks, hnone]
    rfl

/-- As long as each request meets the condition, the locks are those of POSIX. -/
theorem locks_follow_posix {rs : List Request} (h : Boot s) (hrun : Along step Meets s rs) :
    Along step Conforms s rs := by
  suffices hall : Along step Conforms s rs ∧ Inv (rs.foldl step s) from hall.1
  refine hrun.run (fun s r hinv hmeets => ?_) h.inv
  have hc := hinv.conforms hmeets
  exact ⟨hc, hc.exclusive, hc.counted⟩

def bootState : State := ⟨fun _ => none, 0, fun _ => false, fun _ => false⟩

theorem bootState_boot : Boot bootState := ⟨fun _ => rfl, rfl⟩

/-- Bytes `start` to `start + len - 1` of file 1, by process `pid`. -/
def simpleRequest (req : Req) (pid : Pid) (ltype : ReqType) (start len : Int) : Request where
  req := req
  fp := pid.toNat
  pid := pid
  vno := 1
  lockable := true
  canRead := true
  canWrite := true
  filpPos := 0
  vSize := 0
  flock := some ⟨some ltype, some .set, start, len, 0⟩
  copiesBack := true

def setAndTest : List Request :=
  [simpleRequest .setlk 1 (.lock .wrlck) 0 10, simpleRequest .getlk 2 (.lock .rdlck) 20 5]

theorem setAndTest_meets : Along step Meets bootState setAndTest := by
  have h1 : checkRequest (simpleRequest .setlk 1 (.lock .wrlck) 0 10) =
      .ok ⟨⟨some (.lock .wrlck), some .set, 0, 10, 0⟩, .lock .wrlck, 0, 9⟩ := rfl
  have h2 : checkRequest (simpleRequest .getlk 2 (.lock .rdlck) 20 5) =
      .ok ⟨⟨some (.lock .rdlck), some .set, 20, 5, 0⟩, .lock .rdlck, 20, 24⟩ := rfl
  refine ⟨⟨(fun h => by cases h), fun w hw => ?_⟩, ⟨fun _ flock hf => ?_, fun w hw => ?_⟩, trivial⟩
  · rw [h1] at hw
    cases hw
    refine ⟨(fun h => by cases h), (fun h => by cases h), fun _ k _ _ _ => ⟨?_, fun i l hi => ?_⟩⟩
    · unfold Request.InRange
      decide
    · cases hi
  · cases hf
    simp
  · rw [h2] at hw
    cases hw
    refine ⟨fun _ _ => ⟨rfl, by decide⟩, (fun h => by cases h), fun h => absurd rfl h⟩

theorem locks_follow_posix_setAndTest : Along step Conforms bootState setAndTest :=
  locks_follow_posix bootState_boot setAndTest_meets

/-- A process sets a lock, and another one clears the region. -/
def clearedByOther : List Request :=
  [simpleRequest .setlk 1 (.lock .wrlck) 0 10, simpleRequest .setlk 2 .unlck 0 10]

/-- The second process has removed the lock of the first. -/
theorem unlock_removes_lock_of_other : ¬ ∀ rs s, Boot s → Along step Conforms s rs := by
  intro h
  obtain ⟨-, hsecond, -⟩ := h clearedByOther bootState bootState_boot
  have hbefore : Holds (step bootState (simpleRequest .setlk 1 (.lock .wrlck) 0 10)).fileLock
      1 0 1 .wrlck := ⟨⟨0, by decide⟩, ⟨.wrlck, 1, 1, 0, 9⟩, rfl, rfl, rfl, rfl, by decide, by decide⟩
  have hafter := (hsecond.unlocks _ rfl rfl rfl 1 0 1 .wrlck).mpr
    ⟨hbefore, fun hother => by
      have hpid : (1 : Int) = 2 := hother.2.1
      omega⟩
  obtain ⟨i, l, hi, -⟩ := hafter
  have hnone : ∀ i, (step (step bootState (simpleRequest .setlk 1 (.lock .wrlck) 0 10))
      (simpleRequest .setlk 2 .unlck 0 10)).fileLock i = none := by decide
  rw [hnone i] at hi
  cases hi

end HardenedMinix.Locks
