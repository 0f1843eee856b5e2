import HardenedMinix.Ipc.Model

/-!
# What the message passing functions can do

Most of them block nobody and leave the caller queues alone, which `Quiet` says once. Left are the
four places that change a queue or block a process.
-/

open Function

namespace HardenedMinix.Ipc

open Lib

variable {β : Type} {c : Conf} {s s' s₁ s₂ s₃ : State β} {p q d rc : ProcNr} {e : Endpoint}
  {r : Errno} {tabs : Tables β}

/-! ## State updates -/

@[simp] theorem State.set_proc_self (s : State β) (p : ProcNr) (x : IpcProc β) :
    (s.set p x).proc p = x := update_self _ _ _

theorem State.set_proc_of_ne (s : State β) (x : IpcProc β) (h : q ≠ p) :
    (s.set p x).proc q = s.proc q := update_of_ne h _ _

@[simp] theorem State.log_proc (s : State β) (es : List (Event β)) : (s.log es).proc = s.proc := rfl

@[simp] theorem lowerNotify_proc (s : State β) (i j : SysId) :
    (lowerNotify s i j).proc = s.proc := rfl

@[simp] theorem buildNotify_proc (s : State β) (src : ProcNr) (dst : SysId) :
    (buildNotify s src dst).2.proc = s.proc := by
  unfold buildNotify
  split
  · rfl
  · split <;> rfl

/-! ## Steps that block nobody -/

/-- What decides about the queues and about who waits for whom. -/
def IpcProc.core (x : IpcProc β) :
    Bool × Bool × Option ProcNr × Option ProcNr × Endpoint × Endpoint × Option β :=
  (x.slotFree, x.sending, x.callerQ, x.qLink, x.getfromE, x.sendtoE, x.sendmsg)

/-- Nobody is blocked, the queues stay, and who goes on receiving has its `MF_REPLY_PEND` as
before. -/
structure Quiet (s s' : State β) : Prop where
  core : ∀ p, (s'.proc p).core = (s.proc p).core
  receiving : ∀ p, (s'.proc p).receiving = true → (s.proc p).receiving = true
  replyPend : ∀ p, (s'.proc p).receiving = true → (s'.proc p).replyPend = (s.proc p).replyPend

namespace Quiet

theorem refl (s : State β) : Quiet s s := ⟨fun _ => rfl, fun _ h => h, fun _ _ => rfl⟩

theorem of_proc (h : s'.proc = s.proc) : Quiet s s' := by
  constructor
  · intro p
    rw [h]
  · intro p hp
    rwa [h] at hp
  · intro p _
    rw [h]

theorem trans (h₁ : Quiet s₁ s₂) (h₂ : Quiet s₂ s₃) : Quiet s₁ s₃ := by
  constructor
  · intro p
    rw [h₂.core p, h₁.core p]
  · intro p hp
    exact h₁.receiving p (h₂.receiving p hp)
  · intro p hp
    rw [h₂.replyPend p hp, h₁.replyPend p (h₂.receiving p hp)]

theorem set {x : IpcProc β} (hcore : x.core = (s.proc p).core)
    (hrecv : x.receiving = true → (s.proc p).receiving = true ∧
      x.replyPend = (s.proc p).replyPend) : Quiet s (s.set p x) := by
  constructor
  · intro q
    by_cases hq : q = p
    · subst hq
      rw [State.set_proc_self, hcore]
    · rw [State.set_proc_of_ne _ _ hq]
  · intro q hq'
    by_cases hq : q = p
    · subst hq
      rw [State.set_proc_self] at hq'
      exact (hrecv hq').1
    · rwa [State.set_proc_of_ne _ _ hq] at hq'
  intro q hq'
  by_cases hq : q = p
  · subst hq
    rw [State.set_proc_self] at hq' ⊢
    exact (hrecv hq').2
  · rw [State.set_proc_of_ne _ _ hq]

variable (h : Quiet s s')
include h

theorem slotFree (p : ProcNr) : (s'.proc p).slotFree = (s.proc p).slotFree :=
  congrArg (fun x => x.1) (h.core p)

theorem sending (p : ProcNr) : (s'.proc p).sending = (s.proc p).sending :=
  congrArg (fun x => x.2.1) (h.core p)

theorem callerQ (p : ProcNr) : (s'.proc p).callerQ = (s.proc p).callerQ :=
  congrArg (fun x => x.2.2.1) (h.core p)

theorem qLink (p : ProcNr) : (s'.proc p).qLink = (s.proc p).qLink :=
  congrArg (fun x => x.2.2.2.1) (h.core p)

theorem getfromE (p : ProcNr) : (s'.proc p).getfromE = (s.proc p).getfromE :=
  congrArg (fun x => x.2.2.2.2.1) (h.core p)

theorem sendtoE (p : ProcNr) : (s'.proc p).sendtoE = (s.proc p).sendtoE :=
  congrArg (fun x => x.2.2.2.2.2.1) (h.core p)

theorem sendmsg (p : ProcNr) : (s'.proc p).sendmsg = (s.proc p).sendmsg :=
  congrArg (fun x => x.2.2.2.2.2.2) (h.core p)

end Quiet

/-! ### The record updates -/

@[simp] theorem addStatus_core (x : IpcProc β) (m : Nat) : (addStatus x m).core = x.core := by
  unfold addStatus
  split <;> rfl

@[simp] theorem addStatus_receiving (x : IpcProc β) (m : Nat) :
    (addStatus x m).receiving = x.receiving := by
  unfold addStatus
  split <;> rfl

@[simp] theorem addStatus_replyPend (x : IpcProc β) (m : Nat) :
    (addStatus x m).replyPend = x.replyPend := by
  unfold addStatus
  split <;> rfl

@[simp] theorem addFromKernel_core (x : IpcProc β) : (addFromKernel x).core = x.core :=
  addStatus_core x _

theorem IpcProc.core_received (x : IpcProc β) :
    ({ x with replyPend := false, receiving := false } : IpcProc β).core = x.core := rfl

theorem IpcProc.core_deliver (x : IpcProc β) (m : Option (Message β)) :
    ({ x with delivermsg := m, deliverMsg := true } : IpcProc β).core = x.core := rfl

/-! ## Soft steps -/

/-- Nobody else uses the privilege structure of `p`. -/
def Conf.Unshared (c : Conf) (p : ProcNr) : Prop := ∀ q, c.priv p = c.priv q → p = q

/-- The elementary steps of asynchronous messages and notifications. Bits are raised only in the
maps of `K`. -/
inductive Soft (c : Conf) (K : SysId → Prop) : State β → State β → Prop where
  /-- bits and sizes no synchronous call reads -/
  | bits {s s' : State β} : s'.proc = s.proc → s'.notifyPending = s.notifyPending →
      s'.trace = s.trace → Soft c K s s'
  /-- a message goes to `d`, which is woken if it was waiting -/
  | write {s : State β} (d : ProcNr) (x : IpcProc β) : x.core = (s.proc d).core →
      (x.receiving = true → (s.proc d).receiving = true) →
      x.replyPend = (s.proc d).replyPend → Soft c K s (s.set d x)
  /-- the notification of `src` has to wait -/
  | raise {s : State β} (src d : ProcNr) : c.Unshared src → K (c.priv d) →
      (willReceive (s.proc d) (c.endpoint src) && !(s.proc d).replyPend) = false →
      Soft c K s (raiseNotify s (c.priv src) (c.priv d))

abbrev Softs (c : Conf) (K : SysId → Prop) : State β → State β → Prop :=
  Relation.ReflTransGen (Soft c K)

variable {K : SysId → Prop}

theorem Soft.quiet (h : Soft c K s s') : Quiet s s' := by
  cases h with
  | bits hproc => exact Quiet.of_proc hproc
  | write d x hcore hrecv hreply => exact Quiet.set hcore (fun hx => ⟨hrecv hx, hreply⟩)
  | raise src d => exact Quiet.of_proc rfl

theorem Softs.quiet (h : Softs c K s s') : Quiet s s' := by
  induction h with
  | refl => exact Quiet.refl _
  | tail _ hstep ih => exact ih.trans hstep.quiet

theorem Softs.keeps {P : State β → Prop} (hstep : ∀ s s', Soft c K s s' → P s → P s')
    (h : Softs c K s s') (hs : P s) : P s' := by
  induction h with
  | refl => exact hs
  | tail _ hs' ih => exact hstep _ _ hs' ih

theorem Softs.bits (hproc : s'.proc = s.proc) (hbits : s'.notifyPending = s.notifyPending)
    (htrace : s'.trace = s.trace) : Softs c K s s' :=
  .single (.bits hproc hbits htrace)

theorem buildNotify_soft (s : State β) (src : ProcNr) (dst : SysId) :
    Softs c K s (buildNotify s src dst).2 := by
  unfold buildNotify
  split
  · exact Softs.bits rfl rfl rfl
  · split
    · exact Softs.bits rfl rfl rfl
    · exact .refl

theorem deliverNotify_eq (c : Conf) (s : State β) (src p : ProcNr) :
    deliverNotify c s src p = (buildNotify s src (c.priv p)).2.set p
      (addStatus { s.proc p with
        delivermsg := some ⟨c.endpoint src, .notify (buildNotify s src (c.priv p)).1⟩
        deliverMsg := true } Call.notify.nr) := by
  rw [← buildNotify_proc s src (c.priv p)]
  rfl

theorem deliverNotify_soft (c : Conf) (s : State β) (src p : ProcNr) :
    Softs c K s (deliverNotify c s src p) := by
  have hproc := buildNotify_proc s src (c.priv p)
  rw [deliverNotify_eq, ← hproc]
  apply (buildNotify_soft s src (c.priv p)).tail
  apply Soft.write
  · rw [addStatus_core, IpcProc.core_deliver]
  · intro hrecv
    simpa using hrecv
  · rw [addStatus_replyPend]

theorem wake_soft (s : State β) (d : ProcNr) :
    Soft c K s (s.set d { s.proc d with receiving := false }) := by
  apply Soft.write
  · rfl
  · intro hrecv
    exact absurd hrecv (by simp)
  · rfl

theorem miniNotify_soft (hsrc : c.Unshared p) (hK : ∀ d, isokendpt c s e = some d → K (c.priv d))
    (h : miniNotify c s p e = .ok (s', r)) : Softs c K s s' := by
  unfold miniNotify at h
  split at h
  case h_1 =>
    cases h
    exact .refl
  case h_2 d hd =>
    split at h
    case isTrue =>
      split at h
      case isTrue => cases h
      case isFalse =>
        cases h
        exact (deliverNotify_soft c s p d).tail (wake_soft _ d)
    case isFalse hnot =>
      cases h
      exact .single (.raise p d hsrc (hK d hd) (by simpa using hnot))

theorem isokendpt_eq_some {x : ProcNr} (h : isokendpt c s e = some x) :
    e = c.endpoint x ∧ (s.proc x).slotFree = false := by
  cases e with
  | any => cases h
  | none => cases h
  | proc g y =>
    simp only [isokendpt, Option.ite_none_right_eq_some, Bool.and_eq_true, Bool.not_eq_true',
      beq_iff_eq, Option.some.injEq] at h
    obtain ⟨⟨hfree, rfl⟩, rfl⟩ := h
    exact ⟨rfl, hfree⟩

theorem isokendpt_endpoint (hfree : (s.proc p).slotFree = false) :
    isokendpt c s (c.endpoint p) = some p := by
  simp [isokendpt, Conf.endpoint, hfree]

theorem deliverAsyn_soft (c : Conf) (s : State β) (src d : ProcNr) (b : β) :
    Soft c K s (deliverAsyn c s src d b) := by
  apply Soft.write
  · rfl
  · exact id
  · rfl

theorem sendaEntry_soft (c : Conf) (tabs : Tables β) (caller : ProcNr)
    (a : State β × Bool × Bool) (i : Nat) :
    Softs c K a.1 (sendaEntry c tabs caller a i).1 := by
  obtain ⟨s, doNotify, done⟩ := a
  unfold sendaEntry
  simp only
  split
  case h_1 => exact .refl
  case h_2 ent _ =>
    split
    case isTrue => exact .refl
    generalize asynDest c s caller ent.dst = rd
    split
    case isTrue =>
      apply (Relation.ReflTransGen.single (deliverAsyn_soft c s caller rd.2 ent.msg)).tail
      apply Soft.write
      · show (addStatus _ _).core = _
        exact addStatus_core _ _
      · intro hrecv
        exact absurd hrecv (by simp)
      · exact addStatus_replyPend _ _
    split
    · exact Softs.bits rfl rfl rfl
    · exact .refl

theorem foldl_sendaEntry_soft (c : Conf) (tabs : Tables β) (caller : ProcNr)
    (a : State β × Bool × Bool) (l : List Nat) :
    Softs c K a.1 (l.foldl (sendaEntry c tabs caller) a).1 :=
  foldl_inv (I := fun b => Softs c K a.1 b.1)
    (fun i _ b hb => hb.trans (sendaEntry_soft c tabs caller b i)) .refl

/-! ### Reading `Except` computations apart -/

theorem bind_ok {α γ : Type} {x : Except Fault α} {f : α → Except Fault γ} {v : γ}
    (h : (x >>= f) = .ok v) : ∃ a, x = .ok a ∧ f a = .ok v := by
  cases x with
  | error e => exact absurd h (by simp [bind, Except.bind])
  | ok a => exact ⟨a, rfl, h⟩

theorem asyncm_unshared (c : Conf) : c.Unshared asyncm := fun q hq => c.task_priv asyncm q rfl hq

theorem notifyAsyncm_soft {b : Bool} (hK : K (c.priv p)) (h : notifyAsyncm c s b p = .ok s') :
    Softs c K s s' := by
  unfold notifyAsyncm at h
  split at h
  case isTrue =>
    obtain ⟨⟨s₁, r⟩, hn, hr⟩ := bind_ok h
    cases hr
    refine miniNotify_soft (asyncm_unshared c) (fun d hd => ?_) hn
    rw [← (c.endpoint_inj).mp (isokendpt_eq_some hd).1]
    exact hK
  case isFalse =>
    cases h
    exact .refl

theorem tryDeliverSenda_soft {size : Nat} (hK : K (c.priv p))
    (h : tryDeliverSenda c s p size tabs = .ok (s', r)) : Softs c K s s' := by
  unfold tryDeliverSenda at h
  simp only at h
  have hstart : Softs c K s (setAsynsize s (c.priv p) 0) := Softs.bits rfl rfl rfl
  split at h
  case isTrue =>
    cases h
    exact hstart
  split at h
  case isTrue =>
    cases h
    exact hstart
  have hloop := foldl_sendaEntry_soft (K := K) c tabs p
    (setAsynsize s (c.priv p) 0, false, true) (List.range size)
  obtain ⟨s₁, hn, hr⟩ := bind_ok h
  cases hr
  have hq := (hstart.trans hloop).trans (notifyAsyncm_soft hK hn)
  split
  · exact hq
  · exact hq.trans (Softs.bits rfl rfl rfl)

theorem miniSenda_soft {size : Nat} (hK : K (c.priv p))
    (h : miniSenda c s p size tabs = .ok (s', r)) : Softs c K s s' := by
  unfold miniSenda at h
  split at h
  · cases h
    exact .refl
  · exact tryDeliverSenda_soft hK h

/-- The state the loop of `try_one` leaves. -/
def Scan.state : Scan β → State β
  | .error s => s
  | .finished s _ _ _ => s

theorem tryOneLoop_soft (c : Conf) (s : State β) (src dst : ProcNr) (tabs : Tables β) :
    ∀ (left i : Nat) (done : Bool),
      Softs c K s (tryOneLoop c s src dst tabs left i done).state := by
  intro left
  induction left with
  | zero =>
    intro i done
    exact .refl
  | succ left ih =>
    intro i done
    unfold tryOneLoop
    split
    case h_1 => exact .refl
    case h_2 ent _ =>
      -- every entry but the one delivered leaves the state alone
      split
      · exact ih _ _
      split
      · split <;> exact .refl
      split
      · exact ih _ _
      split
      · exact ih _ _
      · split
        · exact ih _ _
        · simp only
          split <;> exact .single (deliverAsyn_soft c s src dst ent.msg)

theorem tryOne_soft {src dst : ProcNr} (h : tryOne c s src dst tabs = .ok (s', r)) :
    Softs c (· ≠ c.priv dst) s s' := by
  unfold tryOne at h
  split at h
  case isTrue =>
    cases h
    exact .refl
  simp only at h
  have hstart : Softs c (· ≠ c.priv dst) s (setAsyn s (c.priv src) (c.priv dst) false) :=
    Softs.bits rfl rfl rfl
  split at h
  case isTrue =>
    cases h
    exact hstart
  split at h
  case isTrue =>
    cases h
    exact hstart
  rename_i hmay
  have hne : c.priv src ≠ c.priv dst := by
    intro heq
    simp [Conf.maySendTo, heq, c.ipcTo_self] at hmay
  have hloop := tryOneLoop_soft (K := (· ≠ c.priv dst)) c
    (setAsyn s (c.priv src) (c.priv dst) false) src dst tabs
    (s.asynsize (c.priv src)) 0 true
  split at h
  case h_1 s₁ hscan =>
    cases h
    rw [hscan] at hloop
    exact hstart.trans hloop
  case h_2 s₁ r1 doNotify done hscan =>
    rw [hscan] at hloop
    obtain ⟨s₂, hn, hr⟩ := bind_ok h
    have hq := (hstart.trans hloop).trans (notifyAsyncm_soft hne hn)
    split at hr
    · cases hr
      exact hq.trans (Softs.bits rfl rfl rfl)
    · cases hr
      exact hq.trans (Softs.bits rfl rfl rfl)

theorem tryAsync_soft {dst : ProcNr} {ids : List SysId}
    (h : tryAsync c dst tabs ids s = .ok (s', r)) : Softs c (· ≠ c.priv dst) s s' := by
  induction ids generalizing s with
  | nil =>
    cases h
    exact .refl
  | cons i ids ih =>
    unfold tryAsync at h
    split at h
    case h_1 => exact ih h
    case h_2 src _ =>
      split at h
      case isTrue => exact ih h
      split at h
      case isTrue => cases h
      obtain ⟨⟨s₁, r1⟩, hone, hr⟩ := bind_ok h
      have hq := tryOne_soft hone
      simp only at hr
      split at hr
      · cases hr
        exact hq
      · exact hq.trans (ih hr)

theorem cancelAsync_soft {src dst : ProcNr} (hK : K (c.priv src))
    (h : cancelAsync c s src dst tabs = .ok s') : Softs c K s s' := by
  unfold cancelAsync at h
  split at h
  case isTrue =>
    cases h
    exact .refl
  simp only at h
  have hstart : Softs c K s
      (setAsyn (setAsynsize s (c.priv src) 0) (c.priv src) (c.priv dst) false) :=
    Softs.bits rfl rfl rfl
  split at h
  case isTrue =>
    cases h
    exact hstart
  split at h
  case isTrue =>
    cases h
    exact hstart
  split at h
  case h_1 =>
    cases h
    exact hstart
  case h_2 doNotify done _ =>
    obtain ⟨s₂, hn, hr⟩ := bind_ok h
    cases hr
    have hq := hstart.trans (notifyAsyncm_soft hK hn)
    split
    · exact hq
    · exact hq.trans (Softs.bits rfl rfl rfl)

theorem cancelAll_soft {fuel : Nat} (h : cancelAll c rc tabs fuel s = .ok s') :
    Softs c (fun _ => True) s s' := by
  induction fuel generalizing s with
  | zero => cases h
  | succ fuel ih =>
    unfold cancelAll at h
    split at h
    case h_1 =>
      cases h
      exact .refl
    case h_2 i _ =>
      split at h
      case h_1 => cases h
      case h_2 src _ =>
        obtain ⟨s₁, hone, hr⟩ := bind_ok h
        exact (cancelAsync_soft trivial hone).trans (ih hr)

/-! ## The other steps that block nobody -/

theorem directSend_quiet (c : Conf) (s : State β) (caller d : ProcNr) (b : β)
    (flags : SendFlags) : Quiet s (directSend c s caller d b flags) := by
  unfold directSend
  apply Quiet.trans _ (Quiet.of_proc (State.log_proc _ _))
  apply Quiet.set
  · rw [IpcProc.core_received, addStatus_core, IpcProc.core_deliver]
    split
    · exact addFromKernel_core _
    · rfl
  · intro hrecv
    exact absurd hrecv (by simp)

theorem takeNotify_quiet {i : SysId} (h : takeNotify c s p e i = .ok s') : Quiet s s' := by
  unfold takeNotify at h
  split at h
  case h_1 => cases h
  case h_2 q _ =>
    split at h
    case isTrue => cases h
    split at h
    case isTrue => cases h
    cases h
    apply Quiet.trans (Quiet.of_proc (lowerNotify_proc s i (c.priv p)))
    have hsoft := deliverNotify_soft (K := fun _ => True) c
      (lowerNotify s i (c.priv p)) q p
    exact hsoft.quiet.trans (Quiet.of_proc rfl)

theorem set_flags_quiet {x : IpcProc β} (hcore : x.core = (s.proc p).core)
    (hrecv : x.receiving = false) : Quiet s (s.set p x) := by
  apply Quiet.set hcore
  intro hx
  rw [hrecv] at hx
  exact absurd hx (by simp)

theorem receiveDone_quiet (hrecv : (s.proc p).receiving = false) :
    Quiet s (receiveDone s p) := set_flags_quiet rfl hrecv

theorem setRetreg_soft (s : State β) (p : ProcNr) (r : Errno) : Soft c K s (setRetreg s p r) := by
  apply Soft.write
  · rfl
  · exact id
  · rfl

/-! ## Queueing a sender -/

/-- What decides who waits for whom is as before. -/
structure SameWait (x y : IpcProc β) : Prop where
  slotFree : x.slotFree = y.slotFree
  noEndpoint : x.noEndpoint = y.noEndpoint
  sending : x.sending = y.sending
  receiving : x.receiving = y.receiving
  replyPend : x.replyPend = y.replyPend
  getfromE : x.getfromE = y.getfromE
  sendtoE : x.sendtoE = y.sendtoE
  sendmsg : x.sendmsg = y.sendmsg

theorem SameWait.refl (x : IpcProc β) : SameWait x x := ⟨rfl, rfl, rfl, rfl, rfl, rfl, rfl, rfl⟩

theorem SameWait.trans {x y z : IpcProc β} (h₁ : SameWait x y) (h₂ : SameWait y z) :
    SameWait x z where
  slotFree := h₁.slotFree.trans h₂.slotFree
  noEndpoint := h₁.noEndpoint.trans h₂.noEndpoint
  sending := h₁.sending.trans h₂.sending
  receiving := h₁.receiving.trans h₂.receiving
  replyPend := h₁.replyPend.trans h₂.replyPend
  getfromE := h₁.getfromE.trans h₂.getfromE
  sendtoE := h₁.sendtoE.trans h₂.sendtoE
  sendmsg := h₁.sendmsg.trans h₂.sendmsg

theorem SameWait.relink (x : IpcProc β) (o h : Option ProcNr) :
    SameWait { x with qLink := o, callerQ := h } x := ⟨rfl, rfl, rfl, rfl, rfl, rfl, rfl, rfl⟩

/-- What `queueSend` leaves, links apart. -/
structure Queued (s s' : State β) (p : ProcNr) (e : Endpoint) (d : ProcNr) (b : β) : Prop where
  others : ∀ j, j ≠ p → SameWait (s'.proc j) (s.proc j)
  sender : SameWait (s'.proc p)
    { s.proc p with sending := true, sendtoE := e, sendmsg := some b }
  notifyPending : s'.notifyPending = s.notifyPending
  trace : s'.trace = s.trace ++ [.sent p d b]

theorem Queued.slotFree {b : β} (h : Queued s s' p e d b) (j : ProcNr) :
    (s'.proc j).slotFree = (s.proc j).slotFree := by
  by_cases hj : j = p
  · subst hj
    exact h.sender.slotFree
  · exact (h.others j hj).slotFree

theorem queueSend_queued {b : β} {flags : SendFlags} (h : queueSend s p d e b flags = .ok s') :
    Queued s s' p e d b := by
  unfold queueSend at h
  simp only at h
  generalize hs1 : s.set p { s.proc p with
    sendmsg := some b
    sendingFromKernel := (s.proc p).sendingFromKernel || flags.fromKernel
    sending := true
    sendtoE := e } = s₁ at h
  have hself : SameWait (s₁.proc p)
      { s.proc p with sending := true, sendtoE := e, sendmsg := some b } := by
    rw [← hs1, State.set_proc_self]
    exact ⟨rfl, rfl, rfl, rfl, rfl, rfl, rfl, rfl⟩
  split at h
  case isTrue => cases h
  split at h
  case h_1 => cases h
  case h_2 t head henq =>
    cases h
    have hset : ∀ j, ∃ o, t j = { s₁.proc j with qLink := o } := enqueueLast_sets henq
    have hwait : ∀ j, SameWait (update t d { t d with callerQ := head } j)
        (s₁.proc j) := by
      intro j
      obtain ⟨o, ho⟩ := hset j
      by_cases hj : j = d
      · subst hj
        rw [update_self, ho]
        exact SameWait.relink (s₁.proc j) o head
      · rw [update_of_ne hj, ho]
        exact SameWait.relink (s₁.proc j) o (s₁.proc j).callerQ
    refine ⟨?_, (hwait p).trans hself, by rw [← hs1]; rfl, by rw [← hs1]; rfl⟩
    intro j hj
    have hother : s₁.proc j = s.proc j := by rw [← hs1, State.set_proc_of_ne _ _ hj]
    exact hother ▸ hwait j

/-! ## What the calls can do -/

section Deadlock

variable {fn : Call} {fuel size : Nat}

theorem deadlockFrom_any : deadlockFrom c s fn p fuel .any size = .ok 0 := by
  cases fuel <;> rfl

theorem deadlockFrom_zero (h : e ≠ .any) : deadlockFrom c s fn p 0 e size = .error .hang := by
  cases e with
  | any => exact absurd rfl h
  | none => rfl
  | proc g x => rfl

theorem deadlockFrom_succ (h : e ≠ .any) : deadlockFrom c s fn p (fuel + 1) e size =
      match isokendpt c s e with
      | none => .error .endpoint
      | some x =>
        if blockedOn (s.proc x) = .none then .ok 0
        else if blockedOn (s.proc x) = c.endpoint p then
          if size + 1 = 2 ∧ (rtsFlags (s.proc x) ^^^ (fn.nr <<< 2)) &&& 0x04 ≠ 0 then .ok 0
          else .ok (size + 1)
        else deadlockFrom c s fn p fuel (blockedOn (s.proc x)) (size + 1) := by
  cases e with
  | any => exact absurd rfl h
  | none => rfl
  | proc g x => rfl

end Deadlock

theorem miniSend_cases {m : Option β} {flags : SendFlags}
    (h : miniSend c s p e m flags = .ok (s', r)) :
    (s' = s ∧ r ≠ .ok) ∨
    ∃ g d b, e = .proc g d ∧ m = some b ∧ r = .ok ∧ (s.proc d).noEndpoint = false ∧
      ((willReceive (s.proc d) (c.endpoint p) = true ∧ s' = directSend c s p d b flags) ∨
        (willReceive (s.proc d) (c.endpoint p) = false ∧ deadlock c s .send p e = .ok 0 ∧
          queueSend s p d e b flags = .ok s')) := by
  cases e with
  | any => cases h
  | none => cases h
  | proc g d =>
    unfold miniSend at h
    dsimp only at h
    split at h
    case isTrue =>
      cases h
      exact .inl ⟨rfl, by decide⟩
    rename_i hend
    have hend' : (s.proc d).noEndpoint = false := by simpa using hend
    split at h
    case isTrue hwill =>
      split at h
      case isTrue => cases h
      cases m with
      | none =>
        cases h
        exact .inl ⟨rfl, by decide⟩
      | some b =>
        cases h
        exact .inr ⟨g, d, b, rfl, rfl, rfl, hend', .inl ⟨hwill, rfl⟩⟩
    rename_i hwill
    split at h
    case isTrue =>
      cases h
      exact .inl ⟨rfl, by decide⟩
    obtain ⟨group, hdl, h1⟩ := bind_ok h
    split at h1
    case isTrue =>
      cases h1
      exact .inl ⟨rfl, by decide⟩
    rename_i hgroup
    have hzero : group = 0 := by simpa using hgroup
    subst hzero
    cases m with
    | none =>
      cases h1
      exact .inl ⟨rfl, by decide⟩
    | some b =>
      obtain ⟨s₁, hq, h2⟩ := bind_ok h1
      cases h2
      exact .inr ⟨g, d, b, rfl, rfl, rfl, hend', .inr ⟨by simpa using hwill, hdl, hq⟩⟩

/-- The source of a receive: `ANY`, or a process with an endpoint. -/
def SrcOf (c : Conf) (s : State β) (e : Endpoint) (src : Option ProcNr) : Prop :=
  (e = .any ∧ src = none) ∨
    ∃ q, src = some q ∧ e = c.endpoint q ∧ (s.proc q).slotFree = false ∧
      (s.proc q).noEndpoint = false

/-- What `mini_receive` by `p` can do. -/
inductive Received (c : Conf) (s : State β) (p : ProcNr) (e : Endpoint) : State β → Prop where
  /-- an error -/
  | soft {s' : State β} : Softs c (· ≠ c.priv p) s s' → Received c s p e s'
  /-- an asynchronous message -/
  | asyn {s₁ : State β} : Softs c (· ≠ c.priv p) s s₁ → Received c s p e (receiveDone s₁ p)
  /-- a pending notification -/
  | notified {src : Option ProcNr} {i : SysId} {s₁ : State β} : SrcOf c s e src →
      (s.proc p).replyPend = false → hasPending c (s.notifyPending (c.priv p)) src = some i →
      takeNotify c s p e i = .ok s₁ → Received c s p e (receiveDone s₁ p)
  /-- a queued sender -/
  | queued {src : Option ProcNr} {s₁ : State β} {q : ProcNr} {t : ProcNr → IpcProc β}
      {head : Option ProcNr} {b : β} : SrcOf c s e src → Softs c (· ≠ c.priv p) s s₁ →
      (s.proc p).sending = false →
      unlinkFirst s₁.proc (accepts src) (s₁.proc p).callerQ = some (some (q, t, head)) →
      (s₁.proc q).sendmsg = some b → (s₁.proc q).noEndpoint = false →
      Received c s p e (receiveDone (takeQueued c s₁ p q e b t head) p)
  /-- nothing is there -/
  | blocked {src : Option ProcNr} {s₁ : State β} : SrcOf c s e src →
      Softs c (· ≠ c.priv p) s s₁ → deadlock c s₁ .receive p e = .ok 0 →
      ((s.proc p).sending = true ∨
        ((s.proc p).replyPend = true ∨
          hasPending c (s.notifyPending (c.priv p)) src = none) ∧
        unlinkFirst s₁.proc (accepts src) (s₁.proc p).callerQ = some none) →
      Received c s p e (s₁.set p { s₁.proc p with getfromE := e, receiving := true })

section Receive

variable {src : Option ProcNr} {nb : Bool}

theorem blockReceive_cases (h : blockReceive c s p e nb = .ok (s', r)) :
    s' = s ∨ (deadlock c s .receive p e = .ok 0 ∧
      s' = s.set p { s.proc p with getfromE := e, receiving := true }) := by
  unfold blockReceive at h
  split at h
  case isTrue =>
    cases h
    exact .inl rfl
  obtain ⟨group, hdl, h1⟩ := bind_ok h
  split at h1
  case isTrue =>
    cases h1
    exact .inl rfl
  rename_i hgroup
  have hzero : group = 0 := by simpa using hgroup
  subst hzero
  cases h1
  exact .inr ⟨hdl, rfl⟩

theorem receiveQueued_cases (hsrc : SrcOf c s e src) (hsend : (s.proc p).sending = false)
    (hbits : (s.proc p).replyPend = true ∨ hasPending c (s.notifyPending (c.priv p)) src = none)
    (hsoft : Softs c (· ≠ c.priv p) s s₁)
    (h : receiveQueued c s₁ p e src nb = .ok (s', r)) : Received c s p e s' := by
  unfold receiveQueued at h
  split at h
  case h_1 => cases h
  case h_2 hun =>
    rcases blockReceive_cases h with rfl | ⟨hdl, rfl⟩
    · exact .soft hsoft
    · exact .blocked hsrc hsoft hdl (.inr ⟨hbits, hun⟩)
  case h_3 q t head hun =>
    split at h
    case isTrue => cases h
    rename_i hlive
    simp only [Bool.or_eq_true, not_or, Bool.not_eq_true] at hlive
    split at h
    case isTrue => cases h
    split at h
    case h_1 => cases h
    case h_2 b hb =>
      cases h
      exact .queued hsrc hsoft hsend hun hb hlive.2

theorem receiveAsyn_cases (hsrc : SrcOf c s e src) (hsend : (s.proc p).sending = false)
    (hbits : (s.proc p).replyPend = true ∨ hasPending c (s.notifyPending (c.priv p)) src = none)
    (h : receiveAsyn c s p e src nb tabs = .ok (s', r)) : Received c s p e s' := by
  unfold receiveAsyn at h
  split at h
  case h_1 => exact receiveQueued_cases hsrc hsend hbits .refl h
  case h_2 i _ =>
    obtain ⟨⟨s₁, r1⟩, htry, h1⟩ := bind_ok h
    have hsoft : Softs c (· ≠ c.priv p) s s₁ := by
      cases src with
      | none => exact tryAsync_soft htry
      | some q => exact tryOne_soft htry
    simp only at h1
    split at h1
    case isTrue =>
      cases h1
      apply Received.asyn
      apply hsoft.tail
      apply Soft.write
      · exact addStatus_core _ _
      · intro hx
        rwa [addStatus_receiving] at hx
      · exact addStatus_replyPend _ _
    case isFalse => exact receiveQueued_cases hsrc hsend hbits hsoft h1

theorem receiveFrom_cases (hsrc : SrcOf c s e src)
    (h : receiveFrom c s p e src nb tabs = .ok (s', r)) : Received c s p e s' := by
  unfold receiveFrom at h
  split at h
  case isTrue hsend =>
    rcases blockReceive_cases h with rfl | ⟨hdl, rfl⟩
    · exact .soft .refl
    · exact .blocked hsrc .refl hdl (.inl hsend)
  rename_i hsend
  have hsend' : (s.proc p).sending = false := by simpa using hsend
  split at h
  case isTrue hreply => exact receiveAsyn_cases hsrc hsend' (.inl hreply) h
  rename_i hreply
  split at h
  case h_1 hpend => exact receiveAsyn_cases hsrc hsend' (.inr hpend) h
  case h_2 i hpend =>
    obtain ⟨s₁, htake, h1⟩ := bind_ok h
    cases h1
    exact .notified hsrc (by simpa using hreply) hpend htake

theorem miniReceive_cases
    (h : miniReceive c s p e nb tabs = .ok (s', r)) : Received c s p e s' := by
  unfold miniReceive at h
  split at h
  case isTrue => cases h
  split at h
  case isTrue hany => exact receiveFrom_cases (.inl ⟨hany, rfl⟩) h
  split at h
  case h_1 => cases h
  case h_2 q hq =>
    obtain ⟨he, hfree⟩ := isokendpt_eq_some hq
    split at h
    case isTrue =>
      cases h
      exact .soft .refl
    case isFalse hend =>
      exact receiveFrom_cases (.inr ⟨q, rfl, he, hfree, by simpa using hend⟩) h

end Receive

theorem doSyncIpc_cases {call : Call} {m : Option β}
    (h : doSyncIpc c s p call e m tabs = .ok (s', r)) :
    s' = s ∨ (c.trapMask (c.priv p) call = true ∧
      ((call = .receive ∧ e = .any) ∨ ∃ d, e = c.endpoint d ∧ (s.proc d).slotFree = false ∧
        (call ≠ .receive → c.maySendTo p d = true)) ∧
      syncCall c s p call e m tabs = .ok (s', r)) := by
  unfold doSyncIpc at h
  split at h
  case isTrue hany =>
    split at h
    case isTrue =>
      cases h
      exact .inl rfl
    rename_i hcall
    split at h
    case isTrue =>
      cases h
      exact .inl rfl
    case isFalse hmask =>
      exact .inr ⟨by simpa using hmask, .inl ⟨by simpa using hcall, hany⟩, h⟩
  split at h
  case h_1 =>
    cases h
    exact .inl rfl
  case h_2 d hd =>
    obtain ⟨he, hfree⟩ := isokendpt_eq_some hd
    split at h
    case isTrue =>
      cases h
      exact .inl rfl
    rename_i hmay
    split at h
    case isTrue =>
      cases h
      exact .inl rfl
    rename_i hmask
    split at h
    case isTrue =>
      cases h
      exact .inl rfl
    refine .inr ⟨by simpa using hmask, .inr ⟨d, he, hfree, fun hcall => ?_⟩, h⟩
    by_contra hnot
    exact hmay ⟨hcall, by simpa using hnot⟩

theorem Conf.ne_of_maySendTo (c : Conf) (h : c.maySendTo p d = true) : d ≠ p := by
  rintro rfl
  rw [Conf.maySendTo, c.ipcTo_self] at h
  exact absurd h (by simp)

/-! ## A rule for invariants -/

variable {Cond : State β → Op β → Prop}

/-- Who calls `mini_send`: the kernel for a process, or a process that runs. -/
structure Sends (c : Conf) (Cond : State β → Op β → Prop) (s : State β) (p d : ProcNr)
    (flags : SendFlags) : Prop where
  live : (s.proc p).slotFree = false
  dst : (s.proc d).slotFree = false
  who : (flags.fromKernel = true ∧ ∃ b, Cond s (.kernelSend p d b)) ∨
    ((s.proc p).sending = false ∧ (s.proc p).receiving = false ∧
      (s.proc p).noEndpoint = false ∧ d ≠ p)

/-- Who calls `mini_receive`: a process that runs, or one whose `SENDREC` has just sent. -/
structure Receives (c : Conf) (Cond : State β → Op β → Prop) (s : State β) (p : ProcNr)
    (e : Endpoint) : Prop where
  live : (s.proc p).slotFree = false
  endpoint : (s.proc p).noEndpoint = false
  notReceiving : (s.proc p).receiving = false
  sendrec : (s.proc p).sending = true → (s.proc p).sendtoE = e ∧ (s.proc p).replyPend = true
  trap : (s.proc p).replyPend = true ∨ c.trapMask (c.priv p) .receive = true
  own : e ≠ c.endpoint p ∨ ∃ s₀ m tabs, Cond s₀ (.ipc p .receive e m tabs)

theorem directSend_proc_of_ne {b : β} {flags : SendFlags} (h : q ≠ d) :
    (directSend c s p d b flags).proc q = s.proc q := State.set_proc_of_ne _ _ h

theorem miniSend_caller {m : Option β} {flags : SendFlags} (hsend : (s.proc p).sending = false)
    (hne : d ≠ p) (h : miniSend c s p (c.endpoint d) m flags = .ok (s', r)) :
    (s'.proc p).slotFree = (s.proc p).slotFree ∧ (s'.proc p).noEndpoint = (s.proc p).noEndpoint ∧
      (s'.proc p).receiving = (s.proc p).receiving ∧
      (s'.proc p).replyPend = (s.proc p).replyPend ∧
      ((s'.proc p).sending = true → (s'.proc p).sendtoE = c.endpoint d) := by
  have hnot : (s.proc p).sending = true → (s.proc p).sendtoE = c.endpoint d := by
    intro hs
    rw [hsend] at hs
    exact absurd hs (by simp)
  rcases miniSend_cases h with ⟨rfl, _⟩ | ⟨g, d', b, he, _, _, _, ⟨_, rfl⟩ | ⟨_, _, hq⟩⟩
  · exact ⟨rfl, rfl, rfl, rfl, hnot⟩
  · simp only [Conf.endpoint, Endpoint.proc.injEq] at he
    obtain ⟨_, rfl⟩ := he
    rw [directSend_proc_of_ne (Ne.symm hne)]
    exact ⟨rfl, rfl, rfl, rfl, hnot⟩
  · have hsender := (queueSend_queued hq).sender
    exact ⟨hsender.slotFree, hsender.noEndpoint, hsender.receiving, hsender.replyPend,
      fun _ => hsender.sendtoE⟩

/-- What a synchronous trap keeps: anything the elementary steps, changes of flags, `mini_send`
and `mini_receive` keep. -/
theorem syncCall_keeps {I : State β → Prop}
    (hsoft : ∀ s s', Soft c (fun _ => True) s s' → I s → I s')
    (hset : ∀ s p (x : IpcProc β), I s → x.core = (s.proc p).core →
      (s.proc p).receiving = false → x.receiving = false → I (s.set p x))
    (hsend : ∀ s s' p d m flags r, I s → Sends c Cond s p d flags →
      miniSend c s p (c.endpoint d) m flags = .ok (s', r) → I s')
    (hrecv : ∀ s s' p e, I s → Receives c Cond s p e → Received c s p e s' → I s')
    {call : Call} {m : Option β} (hs : I s) (hrun : s.running p)
    (hmask : c.trapMask (c.priv p) call = true)
    (hdst : (call = .receive ∧ e = .any) ∨ ∃ d, e = c.endpoint d ∧
      (s.proc d).slotFree = false ∧ (call ≠ .receive → c.maySendTo p d = true))
    (hcond : Cond s (.ipc p call e m tabs))
    (h : syncCall c s p call e m tabs = .ok (s', r)) : I s' := by
  obtain ⟨hfree, hend, hsending, hreceiving⟩ := hrun
  -- the flags a trap sets before it starts
  have hflags : ∀ x : IpcProc β, x.core = (s.proc p).core →
      x.receiving = (s.proc p).receiving → I (s.set p x) := fun x hcore hx =>
    hset _ _ _ hs hcore hreceiving (hx.trans hreceiving)
  unfold syncCall at h
  cases call with
  | send =>
    obtain ⟨d, rfl, hd, hmay⟩ := hdst.resolve_left (by simp)
    exact hsend _ _ _ _ _ _ _ hs ⟨hfree, hd,
      .inr ⟨hsending, hreceiving, hend, c.ne_of_maySendTo (hmay (by simp))⟩⟩ h
  | sendnb =>
    obtain ⟨d, rfl, hd, hmay⟩ := hdst.resolve_left (by simp)
    exact hsend _ _ _ _ _ _ _ hs ⟨hfree, hd,
      .inr ⟨hsending, hreceiving, hend, c.ne_of_maySendTo (hmay (by simp))⟩⟩ h
  | notify =>
    -- who may notify has a privilege structure of its own
    have hun : c.Unshared p := by
      intro q hq
      by_contra hne
      exact absurd (c.shared p q hne hq _ hmask) (by simp)
    have hsofts := miniNotify_soft (K := fun _ => True) hun (fun _ _ => trivial) h
    exact hsofts.keeps hsoft hs
  | receive =>
    have hself := State.set_proc_self s p { s.proc p with replyPend := false, ipcStatus := 0 }
    have hI0 := hflags { s.proc p with replyPend := false, ipcStatus := 0 } rfl rfl
    have h0 : miniReceive c (s.set p { s.proc p with replyPend := false, ipcStatus := 0 })
        p e false tabs = .ok (s', r) := h
    generalize s.set p { s.proc p with replyPend := false, ipcStatus := 0 } = s0 at *
    apply hrecv _ _ _ _ hI0 _ (miniReceive_cases h0)
    constructor
    case live => rw [hself]; exact hfree
    case endpoint => rw [hself]; exact hend
    case notReceiving => rw [hself]; exact hreceiving
    case sendrec =>
      intro hx
      rw [hself] at hx
      exact absurd (hx.symm.trans hsending) (by simp)
    case trap => exact .inr hmask
    case own => exact .inr ⟨s, m, tabs, hcond⟩
  | sendrec =>
    obtain ⟨d, rfl, hd, hmay⟩ := hdst.resolve_left (by simp)
    have hne := c.ne_of_maySendTo (hmay (by simp))
    obtain ⟨⟨s₁, r1⟩, hms, hr⟩ := bind_ok h
    have hI0 := hflags { s.proc p with replyPend := true } rfl rfl
    have hself := State.set_proc_self s p { s.proc p with replyPend := true }
    have hd0 : ((s.set p { s.proc p with replyPend := true }).proc d).slotFree = false := by
      rw [State.set_proc_of_ne _ _ hne]
      exact hd
    generalize s.set p { s.proc p with replyPend := true } = s0 at hms hI0 hself hd0
    have hsending0 : (s0.proc p).sending = false := by rw [hself]; exact hsending
    have hI1 : I s₁ := hsend _ _ _ _ _ _ _ hI0 ⟨by rw [hself]; exact hfree, hd0,
      .inr ⟨hsending0, by rw [hself]; exact hreceiving, by rw [hself]; exact hend, hne⟩⟩ hms
    simp only at hr
    split at hr
    case isTrue =>
      cases hr
      exact hI1
    obtain ⟨hfree1, hend1, hrecv1, hreply1, hsend1⟩ := miniSend_caller hsending0 hne hms
    rw [hself] at hfree1 hend1 hrecv1 hreply1
    have hnot : (s₁.proc p).receiving = false := hrecv1.trans hreceiving
    apply hrecv _ _ _ _ hI1 _ (miniReceive_cases hr)
    constructor
    case live => exact hfree1.trans hfree
    case endpoint => exact hend1.trans hend
    case notReceiving => exact hnot
    case sendrec => exact fun hx => ⟨hsend1 hx, hreply1⟩
    case trap => exact .inl hreply1
    case own => exact .inl (fun heq => hne (c.endpoint_inj.mp heq))

/-- An invariant of the steps, of sends and receives, of flags and of the ways to clear a process is
one of every operation. -/
theorem step_keeps {I : State β → Prop} (hsoft : ∀ s s', Soft c (fun _ => True) s s' → I s → I s')
    (hset : ∀ s p (x : IpcProc β), I s → x.core = (s.proc p).core →
      (s.proc p).receiving = false → x.receiving = false → I (s.set p x))
    (hsend : ∀ s s' p d m flags r, I s → Sends c Cond s p d flags →
      miniSend c s p (c.endpoint d) m flags = .ok (s', r) → I s')
    (hrecv : ∀ s s' p e, I s → Receives c Cond s p e → Received c s p e s' → I s')
    (hclear : ∀ s s' p tabs, I s → (s.proc p).slotFree = false →
      Cond s (.clearEndpoint p tabs) → clearEndpoint c s p tabs = .ok s' → I s')
    (hrefs : ∀ s s' p tabs, I s → (s.proc p).slotFree = false →
      Cond s (.clearIpcRefs p tabs) → clearIpcRefs c s p .edeadsrcdst tabs = .ok s' → I s')
    (hdone : ∀ s s' p tabs, I s → Cond s (.doClear p tabs) → doClear c s p tabs = .ok s' → I s')
    {op : Op β} (hs : I s) (hen : op.Enabled s) (hcond : Cond s op)
    (h : step c s op = .ok s') : I s' := by
  have hsofts : ∀ s s', Softs c (fun _ => True) s s' → I s → I s' := fun _ _ h1 => h1.keeps hsoft
  cases op with
  | ipc p call e m tabs =>
    obtain ⟨⟨s₁, r⟩, hdo, hr⟩ := bind_ok h
    cases hr
    apply hsoft _ _ (setRetreg_soft s₁ p r)
    rcases doSyncIpc_cases hdo with rfl | ⟨hmask, hdst, hcall⟩
    · exact hs
    · exact syncCall_keeps hsoft hset hsend hrecv hs hen.1 hmask hdst hcond hcall
  | senda p size tabs =>
    obtain ⟨⟨s₁, r⟩, hdo, hr⟩ := bind_ok h
    cases hr
    apply hsoft _ _ (setRetreg_soft s₁ p r)
    unfold doSenda at hdo
    split at hdo
    · cases hdo
      exact hs
    · exact hsofts _ _ (miniSenda_soft trivial hdo) hs
  | kernelSend p d b =>
    obtain ⟨⟨s₁, r⟩, hms, hr⟩ := bind_ok h
    have hI : I s₁ := hsend _ _ _ _ _ _ _ hs ⟨hen.1, hen.2, .inl ⟨rfl, b, hcond⟩⟩ hms
    simp only at hr
    split at hr
    · cases hr
    · cases hr
      exact hI
  | kernelNotify t e =>
    obtain ⟨⟨s₁, r⟩, hn, hr⟩ := bind_ok h
    cases hr
    have hun : c.Unshared t := fun q hq => c.task_priv t q hen hq
    exact hsofts _ _ (miniNotify_soft hun (fun _ _ => trivial) hn) hs
  | delivermsg p =>
    cases h
    apply hsoft _ _ _ hs
    apply Soft.write
    · rfl
    · exact id
    · rfl
  | clearEndpoint p tabs => exact hclear _ _ _ _ hs hen hcond h
  | clearIpcRefs p tabs => exact hrefs _ _ _ _ hs hen hcond h
  | doClear p tabs => exact hdone _ _ _ _ hs hcond h

end HardenedMinix.Ipc
