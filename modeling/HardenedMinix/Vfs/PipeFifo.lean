import HardenedMinix.Vfs.Pipe

/-!
# A pipe is a bounded FIFO

Bytes come out in the order in which they were accepted, at most `PIPE_BUF` are in between, and a
write is told how many were. The log of VFS is a history of such FIFOs.
-/

open Function List Option

namespace HardenedMinix.Pipe

open Lib Event

variable {s s' s₁ s₂ t : State} {p q : Slot} {f : FilpPtr} {v : VnodePtr} {x y : Fproc}
  {rw : Rw} {buf : List Byte} {n : Nat} {r : Result}

/-! ## Bounded FIFOs -/

/-- A call that has not been answered: what a reader has got, or what has been accepted of the
data of a writer. -/
inductive PCall where
  | read (v : VnodePtr) (got : List Byte)
  | write (v : VnodePtr) (data taken : List Byte)

/-- The number of bytes the call has moved. -/
def PCall.count : PCall → Nat
  | .read _ got => got.length
  | .write _ _ taken => taken.length

structure Fifo where
  queue : VnodePtr → List Byte
  pending : Slot → Option PCall

inductive Fifo.Step (a : Fifo) : Event → Fifo → Prop
  | reads {p : Slot} {v : VnodePtr} (h : a.pending p = none) :
      Fifo.Step a (.reads p v) ⟨a.queue, update a.pending p (some (.read v []))⟩
  | writes {p : Slot} {v : VnodePtr} {data : List Byte} (h : a.pending p = none) :
      Fifo.Step a (.writes p v data)
        ⟨a.queue, update a.pending p (some (.write v data []))⟩
  /-- there is room for the bytes, and data that can be written at once is -/
  | accepted {p : Slot} {v : VnodePtr} {data taken bytes : List Byte}
      (h : a.pending p = some (.write v data taken)) (hdata : taken ++ bytes <+: data)
      (hroom : ((a.queue v ++ bytes).length : Int) ≤ pipeBuf)
      (hwhole : (data.length : Int) ≤ pipeBuf → taken = [] ∧ bytes = data) :
      Fifo.Step a (.accepted p v bytes)
        ⟨update a.queue v (a.queue v ++ bytes),
          update a.pending p (some (.write v data (taken ++ bytes)))⟩
  | consumed {p : Slot} {v : VnodePtr} {bytes rest : List Byte}
      (h : a.pending p = some (.read v [])) (hqueue : a.queue v = bytes ++ rest) :
      Fifo.Step a (.consumed p v bytes)
        ⟨update a.queue v rest, update a.pending p (some (.read v bytes))⟩
  /-- the answer to a call that succeeds is the number of bytes it has moved -/
  | replied {p : Slot} {c : PCall} {r : Result} (h : a.pending p = some c)
      (hr : ∀ n, r = .val n → n = c.count) :
      Fifo.Step a (.replied p r) ⟨a.queue, update a.pending p none⟩
  /-- an answer to a call on nothing or of another kind -/
  | idle {p : Slot} {r : Result} (h : a.pending p = none) : Fifo.Step a (.replied p r) a
  | sigpipe {p : Slot} : Fifo.Step a (.sigpipe p) a

/-- The events have happened one after the other. -/
inductive History : List Event → Fifo → Prop
  | nil : History [] ⟨fun _ => [], fun _ => none⟩
  | snoc {l : List Event} {a b : Fifo} {e : Event} (h : History l a) (hstep : a.Step e b) :
      History (l ++ [e]) b

/-- The bytes accepted and the bytes given out by an event. -/
def Event.bytesIn (v : VnodePtr) : Event → List Byte
  | .accepted _ w bytes => if w = v then bytes else []
  | _ => []

def Event.bytesOut (v : VnodePtr) : Event → List Byte
  | .consumed _ w bytes => if w = v then bytes else []
  | _ => []

theorem Fifo.Step.bytes {a b : Fifo} {e : Event} {l m : List Byte} (h : a.Step e b)
    (hl : l = m ++ a.queue v) : l ++ e.bytesIn v = m ++ e.bytesOut v ++ b.queue v := by
  cases h with
  | reads h => simpa [bytesIn, bytesOut] using hl
  | writes h => simpa [bytesIn, bytesOut] using hl
  | @accepted p w data taken bytes h hdata hroom hwhole =>
    by_cases hw : w = v
    · subst hw
      simp [bytesIn, bytesOut, hl]
    · simp [bytesIn, bytesOut, hl, hw, update_of_ne (Ne.symm hw)]
  | @consumed p w bytes rest h hqueue =>
    by_cases hw : w = v
    · subst hw
      simp [bytesIn, bytesOut, hl, hqueue]
    · simp [bytesIn, bytesOut, hl, hw, update_of_ne (Ne.symm hw)]
  | replied h hr => simpa [bytesIn, bytesOut] using hl
  | idle h => simpa [bytesIn, bytesOut] using hl
  | sigpipe => simpa [bytesIn, bytesOut] using hl

theorem History.bytes {l : List Event} {a : Fifo} (h : History l a) (v : VnodePtr) :
    l.flatMap (bytesIn v) = l.flatMap (bytesOut v) ++ a.queue v := by
  induction h with
  | nil => rfl
  | snoc h hstep ih =>
    rw [flatMap_append, flatMap_append, flatMap_singleton, flatMap_singleton]
    exact hstep.bytes ih

/-! ## What others notice -/

/-- The fields of a filp that are not about select. -/
structure SameFilp (a b : Filp) : Prop where
  count : b.count = a.count
  vno : b.vno = a.vno
  rBit : b.rBit = a.rBit
  wBit : b.wBit = a.wBit
  nonblock : b.nonblock = a.nonblock

/-- A process is as it was, but for being revived or answered while it is not on a pipe. -/
structure Stays (x y : Fproc) : Prop where
  used : y.used = x.used
  blockCallnr : y.blockCallnr = x.blockCallnr
  cumIoPartial : y.cumIoPartial = x.cumIoPartial
  ioBuffer : y.ioBuffer = x.ioBuffer
  ioNbytes : y.ioNbytes = x.ioNbytes
  file : x.blockedOn = .pipe → y.file = x.file
  blockedOn : y.blockedOn = x.blockedOn ∨
    (x.blockedOn ≠ .pipe ∧ x.blockedOn ≠ .none ∧ y.blockedOn = .none)

theorem Stays.refl (x : Fproc) : Stays x x := ⟨rfl, rfl, rfl, rfl, rfl, fun _ => rfl, .inl rfl⟩

theorem Stays.trans {z : Fproc} (h : Stays x y) (h' : Stays y z) : Stays x z where
  used := h'.used.trans h.used
  blockCallnr := h'.blockCallnr.trans h.blockCallnr
  cumIoPartial := h'.cumIoPartial.trans h.cumIoPartial
  ioBuffer := h'.ioBuffer.trans h.ioBuffer
  ioNbytes := h'.ioNbytes.trans h.ioNbytes
  file hp := by
    obtain hb | ⟨hb, -⟩ := h.blockedOn
    · exact (h'.file (hb.trans hp)).trans (h.file hp)
    · exact absurd hp hb
  blockedOn := by
    obtain hb | ⟨hp, hn, hb⟩ := h.blockedOn
    · rw [← hb]
      exact h'.blockedOn
    · obtain hb' | ⟨-, hn', -⟩ := h'.blockedOn
      · exact .inr ⟨hp, hn, hb'.trans hb⟩
      · exact absurd hb hn'

/-- An event that is none of a pipe call's. -/
def Aside (s : State) (e : Event) : Prop :=
  (∃ p, e = .sigpipe p) ∨
    ∃ p r, e = .replied p r ∧ (s.fproc p).blockedOn ≠ .pipe ∧ (s.fproc p).blockedOn ≠ .none

/-- Processes have been revived or answered; pipes and calls on pipes are as they were. -/
structure Eased (s s' : State) : Prop where
  vnode : s'.vnode = s.vnode
  fds : s'.fds = s.fds
  filp : ∀ f, SameFilp (s.filp f) (s'.filp f)
  fproc : ∀ p, Stays (s.fproc p) (s'.fproc p)
  log : ∃ evs, s'.log = s.log ++ evs ∧ ∀ e ∈ evs, Aside s e

theorem SameFilp.refl (a : Filp) : SameFilp a a := ⟨rfl, rfl, rfl, rfl, rfl⟩

theorem SameFilp.trans {a b c : Filp} (h : SameFilp a b) (h' : SameFilp b c) : SameFilp a c :=
  ⟨h'.count.trans h.count, h'.vno.trans h.vno, h'.rBit.trans h.rBit, h'.wBit.trans h.wBit,
    h'.nonblock.trans h.nonblock⟩

theorem Eased.refl (s : State) : Eased s s where
  vnode := rfl
  fds := rfl
  filp _ := .refl _
  fproc _ := .refl _
  log := ⟨[], (append_nil _).symm, fun _ he => absurd he not_mem_nil⟩

theorem Eased.trans (h : Eased s s₁) (h' : Eased s₁ s₂) : Eased s s₂ where
  vnode := h'.vnode.trans h.vnode
  fds := h'.fds.trans h.fds
  filp f := (h.filp f).trans (h'.filp f)
  fproc p := (h.fproc p).trans (h'.fproc p)
  log := by
    obtain ⟨evs, hlog, haside⟩ := h.log
    obtain ⟨evs', hlog', haside'⟩ := h'.log
    refine ⟨evs ++ evs', by rw [hlog', hlog, append_assoc], fun e he => ?_⟩
    obtain he | he := mem_append.mp he
    · exact haside e he
    obtain hsig | ⟨p, r, heq, hp, hn⟩ := haside' e he
    · exact .inl hsig
    · -- the process was not on a pipe before either
      obtain hb | ⟨-, -, hb⟩ := (h.fproc p).blockedOn
      · exact .inr ⟨p, r, heq, hb ▸ hp, hb ▸ hn⟩
      · exact absurd hb hn

variable {k : Int} {nonblock : Bool} {block : Bool} {fds : List (FilpPtr × Ops)}

theorem Eased.of_select {filp : FilpPtr → Filp} {tab : SelSlot → SelectEntry}
    (h : ∀ f, SameFilp (s.filp f) (filp f)) :
    Eased s { s with filp := filp, selecttab := tab, suspCount := k } where
  vnode := rfl
  fds := rfl
  filp := h
  fproc _ := .refl _
  log := ⟨[], (append_nil _).symm, fun _ he => absurd he not_mem_nil⟩

theorem foldl_eased {α : Type} {body : State → α → State} (h : ∀ s a, Eased s (body s a))
    (l : List α) (s : State) : Eased s (l.foldl body s) := by
  induction l generalizing s with
  | nil => exact .refl s
  | cons a l ih => exact (h s a).trans (ih (body s a))

theorem revive_eased : Eased s (revive s p r) := by
  have hset : ∀ x, Stays (s.fproc p) x → ∀ q, Stays (s.fproc q) (update s.fproc p x q) := by
    intro x hx q
    by_cases hq : q = p
    · subst hq
      rw [update_self]
      exact hx
    · rw [update_of_ne hq]
      exact .refl _
  have hanswer : ∀ r', (s.fproc p).blockedOn ≠ .pipe → (s.fproc p).blockedOn ≠ .none →
      Eased s (reply (s.setProc p { s.fproc p with blockedOn := .none, file := .fd 0 none }) p r') :=
    fun r' hp hn => ⟨rfl, rfl, fun _ => .refl _,
      hset _ ⟨rfl, rfl, rfl, rfl, rfl, fun h => absurd h hp, .inr ⟨hp, hn, rfl⟩⟩,
      [.replied p r'], rfl, fun e he =>
        .inr ⟨p, r', mem_singleton.mp he, hp, hn⟩⟩
  unfold revive
  simp only
  split
  next => exact .refl s
  rename_i hno
  rw [not_or, not_or] at hno
  have hflag : Eased s { s.setProc p { s.fproc p with revived := true } with
      reviving := s.reviving + 1 } :=
    ⟨rfl, rfl, fun _ => .refl _, hset _ ⟨rfl, rfl, rfl, rfl, rfl, fun _ => rfl, .inl rfl⟩,
      [], (append_nil _).symm, fun _ he => absurd he not_mem_nil⟩
  split
  next => exact hflag
  next => exact hflag
  next hb => exact hanswer _ (by rw [hb]; decide) (by rw [hb]; decide)
  next hb => exact hanswer _ (by rw [hb]; decide) (by rw [hb]; decide)
  next hp _ _ _ => exact hanswer _ hp hno.2.1

theorem setFilp_same {a : Filp} (h : SameFilp (s.filp f) a) (g : FilpPtr) :
    SameFilp (s.filp g) (update s.filp f a g) := by
  by_cases hg : g = f
  · subst hg
    rw [update_self]
    exact h
  · rw [update_of_ne hg]
    exact .refl _

theorem selectCancelFilp_eased : Eased s (selectCancelFilp s f) := by
  unfold selectCancelFilp
  simp only
  split_ifs
  · exact .refl s
  · exact .of_select (setFilp_same ⟨rfl, rfl, rfl, rfl, rfl⟩)
  · exact .of_select (setFilp_same ⟨rfl, rfl, rfl, rfl, rfl⟩)

theorem setSel_eased {k : SelSlot} {e : SelectEntry} : Eased s (s.setSel k e) :=
  .of_select fun _ => .refl _

theorem selectCancelAll_eased {k : SelSlot} : Eased s (selectCancelAll s k) :=
  (foldl_eased (fun _ _ => selectCancelFilp_eased) _ s).trans setSel_eased

theorem selectReturn_eased {k : SelSlot} : Eased s (selectReturn s k) := by
  unfold selectReturn
  simp only
  split
  · exact .refl s
  · exact selectCancelAll_eased.trans revive_eased

theorem restartProc_eased {k : SelSlot} : Eased s (restartProc s k) := by
  unfold restartProc
  simp only
  split_ifs
  · exact selectReturn_eased
  · exact .refl s

theorem filpStatus_eased {ops : Ops} : Eased s (filpStatus s f ops) := by
  apply foldl_eased
  intro s k
  split_ifs
  · exact .refl s
  apply foldl_eased
  intro s n
  split_ifs
  · exact setSel_eased.trans restartProc_eased
  · exact .refl s

theorem releaseSelects_eased {op : CallNr} : Eased s (releaseSelects s v op) := by
  apply foldl_eased
  intro s f
  simp only
  split_ifs
  · exact .refl s
  · exact filpStatus_eased.trans (.of_select (setFilp_same ⟨rfl, rfl, rfl, rfl, rfl⟩))

theorem releaseProcs_eased {op : CallNr} {ps : List Slot} {count : Int}
    (h : releaseProcs v op ps count s = some s') : Eased s s' := by
  induction ps generalizing s count with
  | nil =>
    cases h
    exact .refl _
  | cons p ps ih =>
    rw [releaseProcs.eq_2] at h
    simp only at h
    split_ifs at h
    · cases h
      exact .refl _
    · exact (revive_eased.trans (.of_select fun _ => .refl _)).trans (ih h)
    · exact ih h

theorem release_eased {op : CallNr} {count : Int} (h : release s v op count = some s') :
    Eased s s' := by
  unfold release at h
  split_ifs at h
  · exact releaseSelects_eased.trans (releaseProcs_eased h)
  · exact releaseProcs_eased h

theorem eased_sigpipe : Eased s (s.note (.sigpipe p)) :=
  ⟨rfl, rfl, fun _ => .refl _, fun _ => .refl _, [.sigpipe p], rfl, fun _ he =>
    .inl ⟨p, mem_singleton.mp he⟩⟩

theorem pipeCheck_eased {nonblock notouch : Bool} {c : Check}
    (h : pipeCheck s p v rw nonblock k notouch = some (s', c)) : Eased s s' := by
  have hsame : ∀ c', some (s, c') = some (s', c) → Eased s s' := by
    intro c' heq
    cases heq
    exact .refl _
  have hreleased : ∀ op count c',
      (release s v op count).map (fun t => (t, c')) = some (s', c) → Eased s s' := by
    intro op count c' hrel
    obtain ⟨t, hrun, heq⟩ := map_eq_some_iff.mp hrel
    cases heq
    exact release_eased hrun
  unfold pipeCheck at h
  cases rw with
  | reading =>
    simp only at h
    split_ifs at h
    all_goals first
      | exact hsame _ h
      | exact hreleased _ _ _ h
  | writing =>
    simp only at h
    split_ifs at h
    all_goals first
      | exact hsame _ h
      | exact hreleased _ _ _ h
      | skip
    all_goals
      cases h
      exact eased_sigpipe

theorem pipeCheck_reading {nonblock notouch : Bool} {c : Check}
    (h : pipeCheck s p v .reading nonblock k notouch = some (s', c)) :
    Eased s s' ∧ ((s.vnode v).size ≠ 0 ∧ c = .bytes k ∨
      (s.vnode v).size = 0 ∧ (c = .suspend ∨ (∃ e, c = .err e) ∨ c = .bytes 0)) := by
  unfold pipeCheck at h
  simp only at h
  split_ifs at h with hsize hw hsusp hnb hnb
  · obtain ⟨t, hrun, heq⟩ := map_eq_some_iff.mp h
    obtain ⟨rfl, rfl⟩ := Prod.mk.inj heq
    exact ⟨release_eased hrun, .inr ⟨hsize, .inr (.inl ⟨_, rfl⟩)⟩⟩
  · obtain ⟨t, hrun, heq⟩ := map_eq_some_iff.mp h
    obtain ⟨rfl, rfl⟩ := Prod.mk.inj heq
    exact ⟨release_eased hrun, .inr ⟨hsize, .inl rfl⟩⟩
  · obtain ⟨rfl, rfl⟩ := Prod.mk.inj (some.inj h)
    exact ⟨.refl _, .inr ⟨hsize, .inr (.inl ⟨_, rfl⟩)⟩⟩
  · obtain ⟨rfl, rfl⟩ := Prod.mk.inj (some.inj h)
    exact ⟨.refl _, .inr ⟨hsize, .inl rfl⟩⟩
  · obtain ⟨rfl, rfl⟩ := Prod.mk.inj (some.inj h)
    exact ⟨.refl _, .inr ⟨hsize, .inr (.inr rfl)⟩⟩
  · obtain ⟨rfl, rfl⟩ := Prod.mk.inj (some.inj h)
    exact ⟨.refl _, .inl ⟨hsize, rfl⟩⟩

theorem pipeCheck_writing {c : Check}
    (h : pipeCheck s p v .writing nonblock k false = some (s', c)) :
    Eased s s' ∧ ((c = .suspend ∧ (k ≤ pipeBuf ∨ pipeBuf ≤ (s.vnode v).size)) ∨
      (∃ e, c = .err e) ∨ (c = .bytes k ∧ int32 ((s.vnode v).size + k) ≤ pipeBuf) ∨
      (c = .bytes (pipeBuf - (s.vnode v).size) ∧ 0 < pipeBuf - (s.vnode v).size ∧ pipeBuf < k)) := by
  unfold pipeCheck at h
  simp only [Bool.false_eq_true, if_false, and_true] at h
  split_ifs at h with hr hover hnb hsmall hroom hroom hzero
  · obtain ⟨rfl, rfl⟩ := Prod.mk.inj (some.inj h)
    exact ⟨.refl _, .inr (.inl ⟨_, rfl⟩)⟩
  · obtain ⟨t, hrun, heq⟩ := map_eq_some_iff.mp h
    obtain ⟨rfl, rfl⟩ := Prod.mk.inj heq
    exact ⟨release_eased hrun, .inr (.inr (.inr ⟨rfl, hroom, lt_of_not_ge hsmall⟩))⟩
  · obtain ⟨rfl, rfl⟩ := Prod.mk.inj (some.inj h)
    exact ⟨.refl _, .inr (.inl ⟨_, rfl⟩)⟩
  · obtain ⟨t, hrun, heq⟩ := map_eq_some_iff.mp h
    obtain ⟨rfl, rfl⟩ := Prod.mk.inj heq
    exact ⟨release_eased hrun, .inr (.inr (.inr ⟨rfl, hroom.2, hroom.1⟩))⟩
  · obtain ⟨rfl, rfl⟩ := Prod.mk.inj (some.inj h)
    refine ⟨.refl _, .inl ⟨rfl, ?_⟩⟩
    rw [not_and_or] at hroom
    omega
  · obtain ⟨t, hrun, heq⟩ := map_eq_some_iff.mp h
    obtain ⟨rfl, rfl⟩ := Prod.mk.inj heq
    exact ⟨release_eased hrun, .inr (.inr (.inl ⟨rfl, le_of_not_gt hover⟩))⟩
  · obtain ⟨rfl, rfl⟩ := Prod.mk.inj (some.inj h)
    exact ⟨.refl _, .inr (.inr (.inl ⟨rfl, le_of_not_gt hover⟩))⟩
  · obtain ⟨rfl, rfl⟩ := Prod.mk.inj (some.inj h)
    exact ⟨eased_sigpipe, .inr (.inl ⟨_, rfl⟩)⟩

theorem pipeCheck_room (hsize : 0 ≤ (s.vnode v).size) (hn : 0 < n)
    (hover : (s.vnode v).size + n ≤ 2147483647)
    (h : pipeCheck s p v .writing nonblock n false = some (s', .bytes k)) :
    0 < k ∧ k ≤ n ∧ (s.vnode v).size + k ≤ pipeBuf ∧
      (k = n ∨ pipeBuf < n ∧ (s.vnode v).size + k = pipeBuf) := by
  have hexact : int32 ((s.vnode v).size + n) = (s.vnode v).size + n := by
    unfold int32
    omega
  obtain ⟨-, ⟨heq, -⟩ | ⟨e, heq⟩ | ⟨heq, hfit⟩ | ⟨heq, hpos, hlarge⟩⟩ := pipeCheck_writing h
  · cases heq
  · cases heq
  · cases heq
    rw [hexact] at hfit
    exact ⟨by omega, le_refl _, hfit, .inl rfl⟩
  · cases heq
    exact ⟨hpos, by omega, by omega, .inr ⟨hlarge, by omega⟩⟩

/-! ## The pipes and the FIFOs -/

/-- What is left of a call: a read that has got nothing, or a write whose buffer is what has not
been accepted. -/
inductive Fits (cumIo : Int) (v : VnodePtr) (buf : List Byte) (n : Nat) : Rw → PCall → Prop
  | read (hcum : cumIo = 0) (hn : 0 < n) (hmax : n ≤ ssizeMax) :
      Fits cumIo v buf n .reading (.read v [])
  | write {taken : List Byte} (hcum : cumIo = taken.length) (hbuf : n = buf.length) (hn : 0 < n)
      (hmax : n ≤ ssizeMax) (hwhole : ((taken ++ buf).length : Int) ≤ pipeBuf → taken = []) :
      Fits cumIo v buf n .writing (.write v (taken ++ buf) taken)

/-- The sums that `pipe_check` forms for the call are no larger than `INT_MAX`, however full the
pipe is. -/
def Small (rw : Rw) (n : Nat) : Prop := rw = .writing → (n : Int) + pipeBuf ≤ 2147483647

/-- A suspended process has the rest of its call in the process table. -/
def Waits (s : State) (x : Fproc) (c : PCall) : Prop :=
  ∃ f rw, x.file = .filp (some f) ∧ x.blockCallnr = Rw.callNr rw ∧ Small rw x.ioNbytes ∧
    Fits x.cumIoPartial (s.filp f).vno x.ioBuffer x.ioNbytes rw c

/-- VFS is in a state of the FIFOs, while it works on the call of `run`. -/
structure Agree (run : Option Slot) (a : Fifo) (s : State) : Prop where
  size : ∀ v, (s.vnode v).size = (s.vnode v).content.length
  queue : ∀ v, a.queue v = (s.vnode v).content
  room : ∀ v, ((s.vnode v).content.length : Int) ≤ pipeBuf
  waits : ∀ q, run ≠ some q → (s.fproc q).blockedOn = .pipe →
    ∃ c, a.pending q = some c ∧ Waits s (s.fproc q) c
  idle : ∀ q, run ≠ some q → (s.fproc q).blockedOn ≠ .pipe → a.pending q = none

variable {run : Option Slot} {a : Fifo} {c : PCall}

theorem Waits.congr (h : Waits s x c) (hfilp : ∀ f, (s'.filp f).vno = (s.filp f).vno)
    (hx : Stays x y) (hb : x.blockedOn = .pipe) : Waits s' y c := by
  obtain ⟨f, rw, hfile, hnr, hsmall, hfits⟩ := h
  refine ⟨f, rw, (hx.file hb).trans hfile, hx.blockCallnr.trans hnr, hx.ioNbytes ▸ hsmall, ?_⟩
  rw [hx.cumIoPartial, hfilp, hx.ioBuffer, hx.ioNbytes]
  exact hfits

theorem Eased.agree (h : Eased s s') (ha : Agree run a s) : Agree run a s' where
  size v := by
    rw [h.vnode]
    exact ha.size v
  queue v := by
    rw [h.vnode]
    exact ha.queue v
  room v := by
    rw [h.vnode]
    exact ha.room v
  waits q hq hb := by
    have hold : (s.fproc q).blockedOn = .pipe := by
      obtain hsame | ⟨-, -, hnone⟩ := (h.fproc q).blockedOn
      · exact hsame.symm.trans hb
      · rw [hnone] at hb
        cases hb
    obtain ⟨c, hc, hw⟩ := ha.waits q hq hold
    exact ⟨c, hc, hw.congr (fun f => (h.filp f).vno) (h.fproc q) hold⟩
  idle q hq hb := by
    apply ha.idle q hq
    intro hold
    obtain hsame | ⟨hp, -⟩ := (h.fproc q).blockedOn
    · exact hb (hsame.trans hold)
    · exact hp hold

theorem Eased.history (h : Eased s s') (ha : Agree run a s) (hist : History s.log a)
    (hrun : ∀ p, run = some p → (s.fproc p).blockedOn = .none) : History s'.log a := by
  obtain ⟨evs, hlog, haside⟩ := h.log
  rw [hlog]
  clear hlog
  induction evs using List.reverseRecOn with
  | nil =>
    rw [append_nil]
    exact hist
  | append_singleton evs e ih =>
    rw [← append_assoc]
    refine (ih fun e' he' => haside e' (mem_append_left _ he')).snoc ?_
    obtain ⟨p, rfl⟩ | ⟨p, r, rfl, hp, hn⟩ := haside e (mem_append_right _ (mem_singleton.mpr rfl))
    · exact .sigpipe
    · exact .idle (ha.idle p (fun h => hn (hrun p h)) hp)

theorem Agree.setProc (h : Agree (some p) a s) : Agree (some p) a (s.setProc p x) where
  size := h.size
  queue := h.queue
  room := h.room
  waits q hq hb := by
    have hne : q ≠ p := fun heq => hq (congrArg some heq.symm)
    have hsame : (s.setProc p x).fproc q = s.fproc q := update_of_ne hne _ _
    rw [hsame] at hb ⊢
    exact h.waits q hq hb
  idle q hq hb := by
    have hne : q ≠ p := fun heq => hq (congrArg some heq.symm)
    have hsame : (s.setProc p x).fproc q = s.fproc q := update_of_ne hne _ _
    rw [hsame] at hb
    exact h.idle q hq hb

theorem pipeSuspend_self : (pipeSuspend s p f buf n rw.callNr).fproc p = { s.fproc p with
    file := .filp (some f), ioBuffer := buf, ioNbytes := n, blockedOn := .pipe
    blockCallnr := rw.callNr } := by
  simp [pipeSuspend, suspend, State.setProc]

theorem pipeSuspend_of_ne (hq : q ≠ p) :
    (pipeSuspend s p f buf n rw.callNr).fproc q = s.fproc q := by
  show update (update s.fproc p _) p _ q = _
  rw [update_of_ne hq, update_of_ne hq]

theorem Agree.pipeSuspend (h : Agree (some p) a s) (hc : a.pending p = some c)
    (hsmall : Small rw n) (hfits : Fits (s.fproc p).cumIoPartial (s.filp f).vno buf n rw c) :
    Agree none a (pipeSuspend s p f buf n rw.callNr) := by
  refine ⟨h.size, h.queue, h.room, fun q _ hb => ?_, fun q _ hb => ?_⟩
  · by_cases hq : q = p
    · subst hq
      refine ⟨c, hc, f, rw, ?_⟩
      rw [pipeSuspend_self]
      exact ⟨rfl, rfl, hsmall, hfits⟩
    · rw [pipeSuspend_of_ne hq] at hb ⊢
      exact h.waits q (fun heq => hq (some.inj heq).symm) hb
  by_cases hq : q = p
  · subst hq
    rw [pipeSuspend_self] at hb
    exact absurd rfl hb
  · rw [pipeSuspend_of_ne hq] at hb
    exact h.idle q (fun heq => hq (some.inj heq).symm) hb

theorem Agree.reply (h : Agree (some p) a s) (hist : History s.log a)
    (hb : (s.fproc p).blockedOn = .none) (hc : a.pending p = some c)
    (hr : ∀ n, r = .val n → n = c.count) :
    ∃ b, History (reply s p r).log b ∧ Agree none b (reply s p r) := by
  refine ⟨_, hist.snoc (.replied hc hr), h.size, h.queue, h.room, fun q _ hq => ?_,
    fun q _ hq => ?_⟩
  · have hne : q ≠ p := by
      rintro rfl
      rw [show (Pipe.reply s q r).fproc q = s.fproc q from rfl, hb] at hq
      cases hq
    obtain ⟨c', hc', hw⟩ := h.waits q (fun heq => hne (some.inj heq).symm) hq
    exact ⟨c', (update_of_ne hne _ _).trans hc', hw⟩
  by_cases hne : q = p
  · subst hne
    exact update_self _ _ _
  · refine (update_of_ne hne _ _).trans ?_
    exact h.idle q (fun heq => hne (some.inj heq).symm) hq

theorem Agree.finished (h : Agree (some p) a s) (hist : History s.log a)
    (hb : x.blockedOn = .none) (hc : a.pending p = some c) (hk : k = c.count) :
    ∃ b, History (Pipe.reply (s.setProc p x) p (.val k)).log b ∧
      Agree none b (Pipe.reply (s.setProc p x) p (.val k)) := by
  have hself : (s.setProc p x).fproc p = x := update_self _ _ _
  have hset : Agree (some p) a (s.setProc p x) := h.setProc
  refine hset.reply hist (by rw [hself]; exact hb) hc fun n hn => ?_
  rw [← hk]
  exact (Result.val.inj hn).symm

theorem int32_of_le (h : 0 ≤ k) (hle : k ≤ pipeBuf) : int32 k = k := by
  unfold pipeBuf at hle
  unfold int32
  omega

theorem Agree.moved (h : Agree (some p) a s) {l : List Byte} {e : Event} {o : Option PCall}
    (hroom : (l.length : Int) ≤ pipeBuf) :
    Agree (some p) ⟨update a.queue v l, update a.pending p o⟩
      ((s.setVnode v ⟨int32 l.length, l⟩).note e) := by
  have hvnode : ∀ w, ((s.setVnode v ⟨int32 l.length, l⟩).note e).vnode w =
      update s.vnode v ⟨l.length, l⟩ w := by
    intro w
    show update s.vnode v ⟨int32 _, _⟩ w = _
    rw [int32_of_le (by omega) hroom]
  refine ⟨fun w => ?_, fun w => ?_, fun w => ?_, fun q hq hb => ?_, fun q hq hb => ?_⟩
  · rw [hvnode]
    by_cases hw : w = v
    · subst hw
      rw [update_self]
    · rw [update_of_ne hw]
      exact h.size w
  · rw [hvnode]
    show update a.queue v _ w = _
    by_cases hw : w = v
    · subst hw
      rw [update_self, update_self]
    · rw [update_of_ne hw, update_of_ne hw]
      exact h.queue w
  · rw [hvnode]
    by_cases hw : w = v
    · subst hw
      rw [update_self]
      exact hroom
    · rw [update_of_ne hw]
      exact h.room w
  · have hne : q ≠ p := fun heq => hq (congrArg some heq.symm)
    obtain ⟨c, hc, hw⟩ := h.waits q hq hb
    exact ⟨c, (update_of_ne hne _ _).trans hc, hw⟩
  · have hne : q ≠ p := fun heq => hq (congrArg some heq.symm)
    exact (update_of_ne hne _ _).trans (h.idle q hq hb)

theorem Agree.consumed (buf : List Byte) (h : Agree (some p) a s) (hist : History s.log a)
    (hc : a.pending p = some (.read v [])) :
    History (reqReadwrite s p v .reading buf n).log
      ⟨update a.queue v ((s.vnode v).content.drop n),
        update a.pending p (some (.read v ((s.vnode v).content.take n)))⟩ ∧
    Agree (some p) ⟨update a.queue v ((s.vnode v).content.drop n),
        update a.pending p (some (.read v ((s.vnode v).content.take n)))⟩
      (reqReadwrite s p v .reading buf n) := by
  have hroom := h.room v
  have hlen : ((s.vnode v).content.drop n).length ≤ (s.vnode v).content.length := by
    rw [length_drop]
    omega
  refine ⟨hist.snoc (.consumed hc ?_), h.moved (by omega)⟩
  rw [h.queue v, take_append_drop]

theorem Agree.accepted (buf : List Byte) {data taken : List Byte} (h : Agree (some p) a s)
    (hist : History s.log a) (hc : a.pending p = some (.write v data taken))
    (hdata : taken ++ buf.take n <+: data)
    (hroom : (((s.vnode v).content ++ buf.take n).length : Int) ≤ pipeBuf)
    (hwhole : (data.length : Int) ≤ pipeBuf → taken = [] ∧ buf.take n = data) :
    History (reqReadwrite s p v .writing buf n).log
      ⟨update a.queue v (a.queue v ++ buf.take n),
        update a.pending p (some (.write v data (taken ++ buf.take n)))⟩ ∧
    Agree (some p) ⟨update a.queue v (a.queue v ++ buf.take n),
        update a.pending p (some (.write v data (taken ++ buf.take n)))⟩
      (reqReadwrite s p v .writing buf n) := by
  refine ⟨hist.snoc (.accepted hc hdata ?_ hwhole), ?_⟩
  · rw [h.queue v]
    exact hroom
  · rw [h.queue v]
    exact h.moved hroom

/-! ## A call on a pipe -/

theorem finish_val : finish p (s, .val k) = reply s p (.val k) := if_neg (by simp)

theorem finish_suspend : finish p (s, .suspend) = s := if_pos rfl

theorem rwPipe_agree {d : State × Result} (ha : Agree (some p) a s) (hist : History s.log a)
    (hb : (s.fproc p).blockedOn = .none) (hc : a.pending p = some c)
    (hfits : Fits (s.fproc p).cumIoPartial (s.filp f).vno buf n rw c)
    (hover : rw = .writing → (s.vnode (s.filp f).vno).size + n ≤ 2147483647)
    (hrun : rwPipe s rw p f buf n = some d) :
    ∃ b, History (finish p d).log b ∧ Agree none b (finish p d) := by
  obtain ⟨⟨t, chk⟩, hcheck, rfl⟩ := map_eq_some_iff.mp hrun
  -- the check may have revived others
  have heased : Eased s t := by
    cases rw with
    | reading => exact (pipeCheck_reading hcheck).1
    | writing => exact (pipeCheck_writing hcheck).1
  have ha' := heased.agree ha
  have hist' := heased.history ha hist fun q hq => by
    rw [← some.inj hq]
    exact hb
  have hb' : (t.fproc p).blockedOn = .none := by
    obtain hsame | ⟨-, hn, -⟩ := (heased.fproc p).blockedOn
    · exact hsame.trans hb
    · exact absurd hb hn
  have hfits' : Fits (t.fproc p).cumIoPartial (t.filp f).vno buf n rw c := by
    rw [(heased.fproc p).cumIoPartial, (heased.filp f).vno]
    exact hfits
  have hvnode : t.vnode (s.filp f).vno = s.vnode (s.filp f).vno := by rw [heased.vnode]
  cases chk with
  | suspend =>
    refine ⟨a, hist', ha'.pipeSuspend hc (fun hw => ?_) hfits'⟩
    -- either the pipe is full, or the write is one that must not be split
    subst hw
    have := hover rfl
    obtain ⟨-, ⟨-, hle⟩ | ⟨e, heq⟩ | ⟨heq, -⟩ | ⟨heq, -⟩⟩ := pipeCheck_writing hcheck
    · unfold pipeBuf at hle ⊢
      omega
    · cases heq
    · cases heq
    · cases heq
  | err e => exact ha'.reply hist' hb' hc (by simp)
  | bytes k =>
    cases hfits' with
    | read hcum hn hmax =>
      by_cases hk : k ≤ 0
      · -- the pipe is empty and has no writer
        obtain ⟨-, ⟨-, heq⟩ | ⟨-, heq⟩⟩ := pipeCheck_reading hcheck
        · cases heq
          omega
        obtain heq | ⟨e, heq⟩ | heq := heq
        · cases heq
        · cases heq
        cases heq
        exact ha'.reply hist' hb' hc (by
          intro m hm
          cases hm
          rfl)
      have hkn : k = n := by
        obtain ⟨-, ⟨-, heq⟩ | ⟨-, heq⟩⟩ := pipeCheck_reading hcheck
        · cases heq
          rfl
        obtain heq | ⟨e, heq⟩ | heq := heq
        · cases heq
        · cases heq
        · cases heq
          exact absurd (le_refl 0) hk
      subst hkn
      simp only [if_neg hk, lt_irrefl, false_and, if_false, true_and]
      rw [(heased.filp f).vno] at hc
      generalize hm : (if (n : Int) > (t.vnode (s.filp f).vno).size then
        (t.vnode (s.filp f).vno).size.toNat else (n : Int).toNat) = m
      have hmle : m ≤ (t.vnode (s.filp f).vno).content.length := by
        have hsize := ha'.size (s.filp f).vno
        rw [← hm]
        split_ifs with hbig
        · omega
        · omega
      obtain ⟨hist2, ha2⟩ := ha'.consumed buf (n := m) hist' hc
      rw [finish_val]
      apply ha2.finished hist2
      · exact hb'
      · exact update_self _ _ _
      · show _ = (((t.vnode (s.filp f).vno).content.take m).length : Int)
        rw [length_take, hcum]
        omega
    | @write taken hcum hbuf hn hmax hwhole =>
      rw [(heased.filp f).vno] at hc
      have hsize := ha'.size (s.filp f).vno
      have hroom := ha'.room (s.filp f).vno
      have hlen : ((taken ++ buf).length : Int) = taken.length + n := by
        rw [length_append, hbuf]
        rfl
      -- either all of the rest fits, or a part of a large write
      have hk : 0 < k ∧ k ≤ n ∧ ((t.vnode (s.filp f).vno).content.length : Int) + k ≤ pipeBuf ∧
          (((taken ++ buf).length : Int) ≤ pipeBuf → k = n) ∧
          (k < n → pipeBuf < n ∧
            ((t.vnode (s.filp f).vno).content.length : Int) + k = pipeBuf) := by
        rw [hvnode] at hsize hroom ⊢
        obtain ⟨hpos, hle, hfit, hwhich⟩ := pipeCheck_room (by omega) hn (hover rfl) hcheck
        refine ⟨hpos, hle, by omega, fun hsmall => ?_, fun hlt => ?_⟩
        · obtain heq | ⟨hlarge, -⟩ := hwhich
          · exact heq
          · omega
        · obtain heq | ⟨hlarge, hfull⟩ := hwhich
          · omega
          · exact ⟨hlarge, by omega⟩
      obtain ⟨hpos, hkn, hfit, hall, hpart⟩ := hk
      have hm : (k.toNat : Int) = k := by omega
      have htake : (buf.take k.toNat).length = k.toNat := by
        rw [length_take]
        omega
      obtain ⟨hist2, ha2⟩ := ha'.accepted buf (n := k.toNat) hist' hc
        ((prefix_append_right_inj taken).mpr ( take_prefix _ _))
        (by
          rw [length_append, htake]
          push_cast
          omega)
        fun hsmall => by
          have heq := hall hsmall
          have hnil := hwhole hsmall
          rw [hnil, nil_append]
          refine ⟨rfl, take_of_length_le ?_⟩
          omega
      simp only [if_neg (not_le.mpr hpos), reduceCtorEq, false_and, if_false]
      split
      next hpartial =>
        rw [finish_suspend]
        have hover := hover rfl
        have hrest : Small .writing (n - k.toNat) := fun _ => by
          have hfull := (hpart hpartial.1).2
          rw [hvnode] at hfull hsize
          omega
        refine ⟨_, hist2, ha2.setProc.pipeSuspend (update_self _ _ _) hrest ?_⟩
        have hself : ((reqReadwrite t p (s.filp f).vno .writing buf k.toNat).setProc p
            { (reqReadwrite t p (s.filp f).vno .writing buf k.toNat).fproc p with
              cumIoPartial := (t.fproc p).cumIoPartial + k.toNat }).fproc p =
            { (reqReadwrite t p (s.filp f).vno .writing buf k.toNat).fproc p with
              cumIoPartial := (t.fproc p).cumIoPartial + k.toNat } := update_self _ _ _
        have hvno : (t.filp f).vno = (s.filp f).vno := (heased.filp f).vno
        rw [hself]
        show Fits ((t.fproc p).cumIoPartial + k.toNat) (t.filp f).vno _ _ .writing _
        rw [hvno]
        have hsplit : taken ++ buf = (taken ++ buf.take k.toNat) ++ buf.drop k.toNat := by
          rw [append_assoc, take_append_drop]
        rw [hsplit]
        apply Fits.write
        · rw [hcum, length_append, htake]
          push_cast
          rfl
        · rw [length_drop, hbuf]
        · omega
        · omega
        · intro hsmall
          have hlarge := (hpart hpartial.1).1
          rw [← hsplit] at hsmall
          omega
      next =>
        rw [finish_val]
        apply ha2.finished hist2
        · exact hb'
        · exact update_self _ _ _
        · show _ = ((taken ++ buf.take k.toNat).length : Int)
          rw [length_append, htake, hcum]
          push_cast
          rfl

/-! ## Requests -/

theorem Agree.working (h : Agree none a s) : Agree (some p) a s :=
  ⟨h.size, h.queue, h.room, fun q _ => h.waits q (by simp), fun q _ => h.idle q (by simp)⟩

theorem Agree.answer (h : Agree none a s) (hist : History s.log a)
    (hb : (s.fproc p).blockedOn ≠ .pipe) :
    ∃ b, History (Pipe.reply s p r).log b ∧ Agree none b (Pipe.reply s p r) :=
  ⟨a, hist.snoc (.idle (h.idle p (by simp) hb)), h.size, h.queue, h.room, h.waits, h.idle⟩

theorem doReadWrite_agree (ha : Agree none a s) (hist : History s.log a)
    (hb : (s.fproc p).blockedOn = .none) (hbuf : rw = .writing → n = buf.length)
    (hover : rw = .writing → n ≤ ssizeMax → (s.vnode (s.filp f).vno).size + n ≤ 2147483647)
    (hrun : doReadWrite s rw p f buf n = some s') : ∃ b, History s'.log b ∧ Agree none b s' := by
  have hnot : (s.fproc p).blockedOn ≠ .pipe := by
    rw [hb]
    decide
  unfold doReadWrite at hrun
  split_ifs at hrun with hopen hzero hmax hcum
  · cases hrun
    exact ha.answer hist hnot
  · cases hrun
    exact ha.answer hist hnot
  · cases hrun
    exact ha.answer hist hnot
  have hidle := ha.idle p (by simp) hnot
  rw [not_not] at hcum
  obtain ⟨d, hrw, rfl⟩ := map_eq_some_iff.mp hrun
  have hle : n ≤ ssizeMax := Nat.le_of_not_lt hmax
  -- the call is noted before it is worked on
  have hnoted : ∀ e c, Agree (some p) ⟨a.queue, update a.pending p c⟩ (s.note e) := by
    intro e c
    refine ⟨ha.size, ha.queue, ha.room, fun q hq hbq => ?_, fun q hq hbq => ?_⟩
    · obtain ⟨c', hc', hw⟩ := ha.waits q (by simp) hbq
      have hne : q ≠ p := fun heq => hq (congrArg some heq.symm)
      exact ⟨c', (update_of_ne hne _ _).trans hc', hw⟩
    · have hne : q ≠ p := fun heq => hq (congrArg some heq.symm)
      exact (update_of_ne hne _ _).trans (ha.idle q (by simp) hbq)
  cases rw with
  | reading =>
    apply rwPipe_agree (hnoted (.reads p (s.filp f).vno) (some (.read (s.filp f).vno [])))
      (hist.snoc (.reads hidle)) hb (update_self _ _ _) _ (by simp) hrw
    exact .read hcum (Nat.pos_of_ne_zero hzero) hle
  | writing =>
    apply rwPipe_agree
      (hnoted (.writes p (s.filp f).vno buf) (some (.write (s.filp f).vno buf [])))
      (hist.snoc (.writes hidle)) hb (update_self _ _ _) _ (fun _ => hover rfl hle) hrw
    have hfits : Fits (s.fproc p).cumIoPartial (s.filp f).vno buf n .writing
        (.write (s.filp f).vno ([] ++ buf) []) :=
      .write hcum (hbuf rfl) (Nat.pos_of_ne_zero hzero) hle fun _ => rfl
    exact hfits

theorem resume_agree {d : State × Result} (ha : Agree none a s) (hist : History s.log a)
    (hb : x.blockedOn = .none) (hc : a.pending p = some c)
    (hfits : Fits x.cumIoPartial (s.filp f).vno buf n rw c)
    (hover : rw = .writing → (s.vnode (s.filp f).vno).size + n ≤ 2147483647)
    (hrun : rwPipe (s.setProc p x) rw p f buf n = some d) :
    ∃ b, History (finish p d).log b ∧ Agree none b (finish p d) := by
  have hself : (s.setProc p x).fproc p = x := update_self _ _ _
  apply rwPipe_agree (ha.working.setProc (x := x)) hist _ hc _ hover hrun
  · rw [hself]
    exact hb
  · rw [hself]
    exact hfits

theorem setProc_setProc : (s.setProc p x).setProc p y = s.setProc p y := by
  unfold State.setProc
  rw [update_idem]

theorem doPendingPipe_some (hx : s.fproc p = x) (hfile : x.file = .filp (some f))
    (hnr : x.blockCallnr = Rw.callNr rw) (hrun : doPendingPipe s p = some s') :
    ∃ d, rwPipe (s.setProc p { x with file := .filp none }) rw p f x.ioBuffer x.ioNbytes = some d ∧
      finish p d = s' := by
  unfold doPendingPipe at hrun
  rw [hx] at hrun
  dsimp only at hrun
  rw [hfile] at hrun
  dsimp only at hrun
  have hcall : (if x.blockCallnr = .read then Rw.reading else Rw.writing) = rw := by
    rw [hnr]
    cases rw <;> rfl
  rw [hcall] at hrun
  split_ifs at hrun with hclosed
  exact map_eq_some_iff.mp hrun

theorem doPendingPipe_agree (ha : Agree none a s) (hist : History s.log a)
    (hb : x.blockedOn = .none) (hc : a.pending p = some c) (hw : Waits s x c)
    (hrun : doPendingPipe (s.setProc p x) p = some s') :
    ∃ b, History s'.log b ∧ Agree none b s' := by
  obtain ⟨f, rw, hfile, hnr, hsmall, hfits⟩ := hw
  have hself : (s.setProc p x).fproc p = x := update_self _ _ _
  obtain ⟨d, hrw, rfl⟩ := doPendingPipe_some hself hfile hnr hrun
  rw [setProc_setProc] at hrw
  apply resume_agree (x := { x with file := .filp none }) ha hist hb hc hfits _ hrw
  intro hwriting
  have hroom := ha.room (s.filp f).vno
  have hle := hsmall hwriting
  rw [ha.size]
  omega

theorem Agree.withReviving (h : Agree run a s) : Agree run a { s with reviving := k } :=
  ⟨h.size, h.queue, h.room, h.waits, h.idle⟩

theorem unblock_agree (ha : Agree none a s) (hist : History s.log a)
    (hb : (s.fproc p).blockedOn = .pipe)
    (hrun : unblock s p = some s') : ∃ b, History s'.log b ∧ Agree none b s' := by
  obtain ⟨c, hc, hw⟩ := ha.waits p (by simp) hb
  unfold unblock at hrun
  split_ifs at hrun with hrev
  -- the process is taken off the pipe before its call is taken up
  exact doPendingPipe_agree (x := { s.fproc p with blockedOn := .none, revived := false })
    (ha.withReviving (k := s.reviving - 1)) hist rfl hc hw hrun

theorem Agree.setFilp {g : Filp} {fds : Slot → FilpPtr → Nat} (h : Agree run a s)
    (hvno : g.vno = (s.filp f).vno) : Agree run a { s.setFilp f g with fds := fds } := by
  refine ⟨h.size, h.queue, h.room, fun q hq hb => ?_, h.idle⟩
  obtain ⟨c, hc, hw⟩ := h.waits q hq hb
  refine ⟨c, hc, hw.congr (fun f' => ?_) (.refl _) hb⟩
  show (update s.filp f g f').vno = _
  by_cases hf : f' = f
  · subst hf
    rw [update_self]
    exact hvno
  · rw [update_of_ne hf]

theorem closeFilp_agree (ha : Agree none a s) (hist : History s.log a)
    (hrun : closeFilp s p f = some s') : ∃ b, History s'.log b ∧ Agree none b s' := by
  unfold closeFilp at hrun
  obtain ⟨t, hrel, hrun⟩ := bind_eq_some_iff.mp hrun
  have heased := release_eased hrel
  have ha' := heased.agree ha
  have hist' := heased.history ha hist (by simp)
  dsimp only at hrun
  split_ifs at hrun
  · cases hrun
    exact ⟨a, hist', ha'.setFilp rfl⟩
  · cases hrun
    exact ⟨a, hist', ha'.setFilp rfl⟩

theorem selectRequestPipe_eased {ops got : Ops}
    (h : selectRequestPipe s p f ops block = some (s', got)) : Eased s s' := by
  unfold selectRequestPipe at h
  obtain ⟨⟨s₁, c1⟩, h1, h⟩ := bind_eq_some_iff.mp h
  obtain ⟨⟨s₂, c2⟩, h2, h⟩ := map_eq_some_iff.mp h
  have heased1 : Eased s s₁ := by
    split_ifs at h1
    · exact pipeCheck_eased h1
    · cases h1
      exact .refl _
  have heased2 : Eased s₁ s₂ := by
    split_ifs at h2
    · exact pipeCheck_eased h2
    · cases h2
      exact .refl _
  apply (heased1.trans heased2).trans
  simp only at h
  split_ifs at h
  · cases h
    exact .of_select (setFilp_same ⟨rfl, rfl, rfl, rfl, rfl⟩)
  · cases h
    exact .refl _

theorem selectOpen_eased : Eased s (selectOpen p fds s).1 := by
  induction fds generalizing s with
  | nil => exact .refl s
  | cons d fds ih =>
    obtain ⟨f, ops⟩ := d
    unfold selectOpen
    split_ifs
    · exact .refl s
    · have hcount : Eased s
          (s.setFilp f { s.filp f with selectors := (s.filp f).selectors + 1 }) :=
        .of_select (setFilp_same ⟨rfl, rfl, rfl, rfl, rfl⟩)
      exact hcount.trans ih

theorem selectCheck_eased {k : SelSlot}
    (h : selectCheck p k block fds n s = some s') : Eased s s' := by
  induction fds generalizing s n with
  | nil =>
    cases h
    exact .refl _
  | cons d fds ih =>
    obtain ⟨f, ops⟩ := d
    rw [selectCheck.eq_2] at h
    simp only at h
    split_ifs at h
    · exact ih h
    obtain ⟨⟨t, got⟩, hreq, h⟩ := bind_eq_some_iff.mp h
    have hwant : Eased s (s.setFilp f
        { s.filp f with selectOps := (s.filp f).selectOps.union ops }) :=
      .of_select (setFilp_same ⟨rfl, rfl, rfl, rfl, rfl⟩)
    apply (hwant.trans (selectRequestPipe_eased hreq)).trans
    split_ifs at h
    · exact ih h
    · exact setSel_eased.trans (ih h)

theorem Agree.suspend {why : BlockedOn} {nr : CallNr} (h : Agree none a s)
    (hb : (s.fproc p).blockedOn ≠ .pipe) (hwhy : why ≠ .pipe) :
    Agree none a (Pipe.suspend s p why nr) := by
  have hidle := h.idle p (by simp) hb
  have hset : Agree (some p) a
      (s.setProc p { s.fproc p with blockedOn := why, blockCallnr := nr }) := h.working.setProc
  have hself : ((Pipe.suspend s p why nr).fproc p).blockedOn = why := by
    simp [Pipe.suspend, State.setProc]
  refine ⟨hset.size, hset.queue, hset.room, fun q _ hq => ?_, fun q _ hq => ?_⟩
  · apply hset.waits q _ hq
    intro heq
    rw [← some.inj heq, hself] at hq
    exact hwhy hq
  · by_cases heq : p = q
    · exact heq ▸ hidle
    · exact hset.idle q (fun h => heq (some.inj h)) hq

theorem doSelect_agree (ha : Agree none a s)
    (hist : History s.log a) (hb : (s.fproc p).blockedOn = .none)
    (hrun : doSelect s p fds block = some s') : ∃ b, History s'.log b ∧ Agree none b s' := by
  have hstays : ∀ t, Eased s t → (t.fproc p).blockedOn ≠ .pipe := by
    intro t heased
    obtain hsame | ⟨-, -, hnone⟩ := (heased.fproc p).blockedOn
    · rw [hsame, hb]
      decide
    · rw [hnone]
      decide
  unfold doSelect at hrun
  split at hrun
  next =>
    cases hrun
    exact ha.answer hist (hstays s (.refl s))
  rename_i k hk
  dsimp only at hrun
  have hopened : Eased s (selectOpen p fds s).1 := selectOpen_eased
  split_ifs at hrun with hopen
  · cases hrun
    exact (hopened.agree ha).answer (hopened.history ha hist (by simp)) (hstays _ hopened)
  obtain ⟨t, hcheck, hfin⟩ := map_eq_some_iff.mp hrun
  have heased := (hopened.trans setSel_eased).trans (selectCheck_eased hcheck)
  split_ifs at hfin
  · subst hfin
    have hcancel := heased.trans (selectCancelAll_eased (k := k))
    exact (hcancel.agree ha).answer (hcancel.history ha hist (by simp)) (hstays _ hcancel)
  · subst hfin
    exact ⟨a, heased.history ha hist (by simp),
      (heased.agree ha).suspend (hstays _ heased) (by decide)⟩

/-! ## Runs -/

/-- The states that VFS can be in when the requests meet `P`. -/
inductive Runs (P : State → Request → Prop) : State → Prop
  | boot {s : State} (h : Boot s) : Runs P s
  | step {s s' : State} {r : Request} (h : Runs P s) (hen : r.Enabled s) (hP : P s r)
      (hrun : r.run s = some s') : Runs P s'

/-- The bytes in the pipe and those to be written are no more than an `int` can count. -/
def InRange (s : State) : Request → Prop
  | .write _ f data => data.length ≤ ssizeMax →
      (s.vnode (s.filp f).vno).size + data.length ≤ 2147483647
  | _ => True

/-- The pipes have been bounded FIFOs, and `v_size` is the number of bytes in them. -/
def IsFifo (s : State) : Prop :=
  (∃ a, History s.log a) ∧
    ∀ v, s.log.flatMap (bytesOut v) <+: s.log.flatMap (bytesIn v) ∧
      (s.vnode v).size = ((s.log.flatMap (bytesIn v)).length : Int) -
        (s.log.flatMap (bytesOut v)).length ∧
      (s.vnode v).size ≤ pipeBuf

theorem Boot.agree (h : Boot s) : Agree none ⟨fun _ => [], fun _ => none⟩ s where
  size v := by rw [h.vnode]; rfl
  queue v := by rw [h.vnode]
  room v := by rw [h.vnode]; decide
  waits q _ hb := by
    rw [(h.blocked q).1] at hb
    cases hb
  idle _ _ _ := rfl

theorem run_agree {r : Request} (ha : Agree none a s) (hist : History s.log a)
    (hen : r.Enabled s) (hrange : InRange s r) (hrun : r.run s = some s') :
    ∃ b, History s'.log b ∧ Agree none b s' := by
  cases r with
  | read p f n =>
    have hread : doReadWrite s .reading p f [] n = some s' := hrun
    exact doReadWrite_agree ha hist hen.2 (by simp) (by simp) hread
  | write p f data =>
    have hwrite : doReadWrite s .writing p f data data.length = some s' := hrun
    exact doReadWrite_agree ha hist hen.2 (fun _ => rfl) (fun _ => hrange) hwrite
  | select p fds block => exact doSelect_agree ha hist hen.2 hrun
  | close p f => exact closeFilp_agree ha hist hrun
  | dup p q f =>
    cases hrun
    exact ⟨a, hist, ha.setFilp rfl⟩
  | resume p => exact unblock_agree ha hist hen.2.1 hrun

theorem Runs.agree (h : Runs InRange s) : ∃ a, History s.log a ∧ Agree none a s := by
  induction h with
  | boot h =>
    refine ⟨_, ?_, h.agree⟩
    rw [h.log]
    exact .nil
  | step h hen hP hrun ih =>
    obtain ⟨a, hist, ha⟩ := ih
    exact run_agree ha hist hen hP hrun

/-- What is read is a prefix of what was accepted, `v_size` is the difference and at most
`PIPE_BUF`, a small write is accepted in one piece, and each write is told its number. -/
theorem pipe_is_fifo (h : Runs InRange s) : IsFifo s := by
  obtain ⟨a, hist, ha⟩ := h.agree
  refine ⟨⟨a, hist⟩, fun v => ?_⟩
  have hbytes := hist.bytes v
  have hsize := ha.size v
  have hroom := ha.room v
  have hlen := congrArg List.length hbytes
  rw [length_append, ha.queue] at hlen
  refine ⟨?_, by omega, by omega⟩
  rw [hbytes]
  exact prefix_append _ _

/-! ## Concrete runs -/

instance (s : State) (r : Request) : Decidable (r.Enabled s) := by
  cases r <;> unfold Request.Enabled <;> infer_instance

instance (s : State) (r : Request) : Decidable (InRange s r) := by
  cases r <;> unfold InRange <;> infer_instance

/-- The requests one after the other, as long as they meet the condition. -/
def runAll : State → List Request → Option State
  | s, [] => some s
  | s, r :: rs =>
    if r.Enabled s ∧ InRange s r then (r.run s).bind fun s => runAll s rs else none

theorem Runs.runAll {P : State → Request → Prop} {rs : List Request} (h : Runs P s)
    (hP : ∀ s r, InRange s r → P s r) (hrun : runAll s rs = some s') : Runs P s' := by
  induction rs generalizing s with
  | nil =>
    cases hrun
    exact h
  | cons r rs ih =>
    rw [Pipe.runAll.eq_2] at hrun
    split at hrun
    next hen =>
      obtain ⟨s₁, hone, hrest⟩ := bind_eq_some_iff.mp hrun
      exact ih (h.step hen.1 (hP s r hen.2) hone) hrest
    next => cases hrun

/-- One pipe: process 0 has its read end, process 1 its write end. -/
def bootState : State where
  filp f := ⟨if f = 0 ∨ f = 1 then 1 else 0, 0, f = 0, f = 1, false, 0, Ops.none, Ops.none⟩
  vnode _ := ⟨0, []⟩
  fproc p := ⟨p = 0 ∨ p = 1, .none, false, .other, 0, .fd 0 none, [], 0⟩
  fds p f := if f = 0 ∧ p = 0 ∨ f = 1 ∧ p = 1 then 1 else 0
  suspCount := 0
  reviving := 0
  selecttab _ := ⟨none, [], 0, false⟩
  log := []

theorem boot_bootState : Boot bootState where
  vnode _ := rfl
  blocked _ := ⟨rfl, rfl⟩
  partialIo _ := rfl
  count f := by
    have hone : (1 : FilpPtr) ≠ 0 := by decide
    by_cases hf : f = 0
    · subst hf
      simp [bootState, hone.symm]
    · by_cases hf' : f = 1
      · subst hf'
        simp [bootState, hone]
      · simp [bootState, hf, hf']
  ends f := by
    by_cases hf : f = 0
    · subst hf
      decide
    · simp [bootState, hf]
  selects _ := ⟨rfl, rfl, rfl⟩
  selecttab _ := rfl
  suspCount := rfl
  reviving := rfl
  log := rfl

set_option maxRecDepth 100000 in
/-- A reader waits for the writer and takes the first byte. -/
theorem pipe_is_fifo_two : ∃ s, s.log.flatMap (bytesIn 0) = [1, 2] ∧
    s.log.flatMap (bytesOut 0) = [1] ∧ IsFifo s := by
  have h : (runAll bootState [.read 0 0 1, .write 1 1 [1, 2], .resume 0]).any (fun s =>
      decide (s.log.flatMap (bytesIn 0) = [1, 2] ∧
        s.log.flatMap (bytesOut 0) = [1])) = true := by
    decide +kernel
  obtain ⟨s, hrun, hs⟩ := (Option.any_eq_true _ _).mp h
  obtain ⟨hin, hout⟩ := of_decide_eq_true hs
  exact ⟨s, hin, hout, pipe_is_fifo (Runs.runAll (.boot boot_bootState) (fun _ _ h => h) hrun)⟩

theorem pipeCheck_wraps (hr : FindFilp s v .reading) (hsize : (s.vnode v).size = 1) :
    pipeCheck s p v .writing nonblock ssizeMax false = some (s, .bytes ssizeMax) := by
  have hover : ¬ int32 (1 + (ssizeMax : Int)) > pipeBuf := by decide
  unfold pipeCheck
  simp only [hsize, hr, not_true_eq_false, Bool.false_eq_true, if_false, hover, one_ne_zero,
    false_and]

theorem rwPipe_whole (buf : List Byte) (hn : 0 < n)
    (hcheck : pipeCheck s p (s.filp f).vno .writing (s.filp f).nonblock n false =
      some (s, .bytes n)) :
    ∃ x r, rwPipe s .writing p f buf n =
      some ((reqReadwrite s p (s.filp f).vno .writing buf n).setProc p x, .val r) := by
  have hpos : ¬ (n : Int) ≤ 0 := by omega
  unfold rwPipe
  simp only [hcheck, map_some, hpos, if_false, reduceCtorEq, false_and, lt_irrefl, Int.toNat_natCast]
  exact ⟨_, _, rfl⟩

theorem doReadWrite_wraps (data : List Byte) (hlen : data.length = ssizeMax)
    (hopen : s.fds p f ≠ 0 ∧ (s.filp f).wBit = true) (hcum : (s.fproc p).cumIoPartial = 0)
    (hr : FindFilp s (s.filp f).vno .reading) (hsize : (s.vnode (s.filp f).vno).size = 1)
    (hcontent : (s.vnode (s.filp f).vno).content.length = 1) :
    ∃ s', doReadWrite s .writing p f data data.length = some s' ∧
      (s'.vnode (s.filp f).vno).size < 0 := by
  unfold doReadWrite
  rw [if_neg (by simp [hopen]), if_neg (by rw [hlen]; decide), if_neg (by rw [hlen]; decide),
    if_neg (not_not.mpr hcum)]
  have hcheck : pipeCheck (s.note (.writes p (s.filp f).vno data)) p (s.filp f).vno .writing
      (s.filp f).nonblock data.length false =
      some (s.note (.writes p (s.filp f).vno data), .bytes data.length) := by
    rw [hlen]
    exact pipeCheck_wraps hr hsize
  have hpos : 0 < data.length := by
    rw [hlen]
    decide
  obtain ⟨x, r, hrun⟩ := rwPipe_whole (s := s.note (.writes p (s.filp f).vno data)) data
    hpos hcheck
  refine ⟨_, congrArg (Option.map (finish p)) hrun, ?_⟩
  rw [finish_val]
  show (update s.vnode (s.filp f).vno ⟨int32 (((s.vnode (s.filp f).vno).content ++
    data.take data.length).length : Int), _⟩ (s.filp f).vno).size < 0
  rw [update_self, take_length, length_append]
  show int32 (((s.vnode (s.filp f).vno).content.length + data.length : Nat) : Int) < 0
  rw [hcontent, hlen]
  decide

set_option maxRecDepth 100000 in
/-- A byte is written, and then `SSIZE_MAX` bytes. -/
theorem size_wraps : ∃ s s', Runs (fun _ _ => True) s ∧
    (Request.write 1 1 (List.replicate ssizeMax 0)).Enabled s ∧
    (Request.write 1 1 (List.replicate ssizeMax 0)).run s = some s' ∧ ¬ IsFifo s' := by
  have h : (runAll bootState [.write 1 1 [1]]).any (fun s =>
      decide (((s.fproc 1).used = true ∧ (s.fproc 1).blockedOn = .none) ∧
        (s.fds 1 1 ≠ 0 ∧ (s.filp 1).wBit = true) ∧ (s.fproc 1).cumIoPartial = 0 ∧
        FindFilp s (s.filp 1).vno .reading ∧ (s.vnode (s.filp 1).vno).size = 1 ∧
        (s.vnode (s.filp 1).vno).content.length = 1)) = true := by
    decide +kernel
  obtain ⟨s, hrun, hs⟩ := (Option.any_eq_true _ _).mp h
  obtain ⟨hen, hopen, hcum, hr, hsize, hcontent⟩ := of_decide_eq_true hs
  obtain ⟨s', hwrite, hneg⟩ := doReadWrite_wraps (List.replicate ssizeMax 0)
    length_replicate hopen hcum hr hsize hcontent
  refine ⟨s, s', Runs.runAll (.boot boot_bootState) (fun _ _ _ => trivial) hrun, hen, hwrite, ?_⟩
  rintro ⟨-, hfifo⟩
  obtain ⟨hpre, heq, -⟩ := hfifo (s.filp 1).vno
  have hle := hpre.length_le
  omega

end HardenedMinix.Pipe
