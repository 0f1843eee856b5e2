import HardenedMinix.Kernel.Types

/-!
# Who is hardened

The flag is kept twice, in the kernel and in VM, and so is the switch for the children of forks.
The kernel changes its copies on request (`do_hardening.c`) and has VM told by a message.
-/

open List Option

namespace HardenedMinix.Hardened

/-! ## The state of the two programs -/

inductive HtaskType where
  | enHardeningAllF
  | disHardeningAllF
  | enHardeningPid
  | disHardeningPid
  | displayHardening
  | enInject
  | disInject
  | other
  deriving DecidableEq, Repr

/-- `_ENDPOINT(gen, nr)`. -/
structure Endpoint where
  gen : Nat
  nr : ProcNr
  deriving DecidableEq, Repr

inductive Msg where
  /-- `VM_TELL_VM_H_ENABLE` and `VM_TELL_VM_H_DISABLE` -/
  | tellAll (on : Bool)
  /-- `VM_TELL_VM_H_ENABLE_P` and `VM_TELL_VM_H_DISABLE_P` -/
  | tellP (on : Bool)
  | fork (parent : Endpoint) (child : ProcNr)
  | willexit (e : Endpoint)
  | exit (e : Endpoint)
  deriving DecidableEq, Repr

structure KProc where
  slotFree : Bool
  gen : Nat
  /-- `PROC_TO_HARD` -/
  toHard : Bool
  /-- `p_sendmsg` -/
  sendmsg : Msg

structure VmProc where
  /-- `VMF_INUSE` -/
  inuse : Bool
  /-- `VMF_EXITING` -/
  exiting : Bool
  /-- `vm_endpoint`; `NONE` is `none` -/
  endpoint : Option Endpoint
  /-- `VM_PROC_TO_HARD` -/
  toHard : Bool

structure System where
  hCanStartHardening : Bool
  hInjectFault : Bool
  proc : ProcNr → KProc
  /-- what `display_hardened_proc` printed -/
  console : List (List ProcNr)
  /-- the caller queue of VM -/
  callerQ : List ProcNr
  hardeningEnabled : Bool
  vmproc : ProcNr → VmProc

def endpointMaxGeneration : Nat := 58740

/-- The slot of PM: process number 0, behind the 5 kernel tasks. -/
def pmProcNr : ProcNr := 5

variable {s s' : System} {p q : ProcNr}

def System.setProc (s : System) (p : ProcNr) (x : KProc) : System :=
  { s with proc := Function.update s.proc p x }

def System.setVmproc (s : System) (p : ProcNr) (x : VmProc) : System :=
  { s with vmproc := Function.update s.vmproc p x }

/-- `p_endpoint`. -/
def System.endpoint (s : System) (p : ProcNr) : Endpoint := ⟨(s.proc p).gen, p⟩

def isokendpt (s : System) (e : Endpoint) : Option ProcNr :=
  if (s.proc e.nr).slotFree = false ∧ (s.proc e.nr).gen = e.gen then some e.nr else none

def vmIsokendpt (s : System) (e : Endpoint) : Option ProcNr :=
  if (s.vmproc e.nr).endpoint = some e ∧ (s.vmproc e.nr).inuse = true then some e.nr else none

/-! ## The kernel -/

/-- `mini_send(p, VM_PROC_NR, m, FROM_KERNEL)`, VM not waiting: `p` is appended to its queue. -/
def tellVm (s : System) (p : ProcNr) (m : Msg) : System :=
  { s.setProc p { s.proc p with sendmsg := m } with callerQ := s.callerQ ++ [p] }

def displayHardenedProc (s : System) : System :=
  { s with console := s.console ++ [(List.finRange nrSlots).filter (fun p => (s.proc p).toHard)] }

/-- The cases of `do_hardening` for one process, up to the `break` that the second one
lacks. -/
def hardenPid (s : System) (he : Endpoint) (on : Bool) : Option System :=
  (isokendpt s he).map (fun hp => tellVm (s.setProc hp { s.proc hp with toHard := on }) hp (.tellP on))

/-- The `switch` of `do_hardening`; `none` is `EINVAL`. -/
def hardeningSwitch (s : System) (p : ProcNr) (he : Endpoint) : HtaskType → Option System
  | .enHardeningAllF => some (tellVm { s with hCanStartHardening := true } p (.tellAll true))
  | .disHardeningAllF => some (tellVm { s with hCanStartHardening := false } p (.tellAll false))
  | .enHardeningPid => hardenPid s he true
  -- there is no `break` in front of `HTASK_DISPLAY_HARDENIG`
  | .disHardeningPid => (hardenPid s he false).map displayHardenedProc
  | .displayHardening => some (displayHardenedProc s)
  | .enInject => some { s with hInjectFault := true }
  | .disInject => some { s with hInjectFault := false }
  | .other => some s

/-- `do_hardening` in the kernel, with whether it returns `OK`. -/
def doHardening (s : System) (type : HtaskType) (e he : Endpoint) : System × Bool :=
  match (isokendpt s e).bind (fun p => hardeningSwitch s p he type) with
  | some s' => (s', true)
  | none => (s, false)

/-- The hardening part of `do_fork`: the child starts with no flags, and is hardened if all
children are. -/
def kernelFork (s : System) (parent : Endpoint) (child : ProcNr) : Option System :=
  match isokendpt s parent with
  | none => none
  | some _ =>
    if (s.proc child).slotFree then
      let gen := (s.proc child).gen + 1
      some (s.setProc child { s.proc child with
        slotFree := false
        gen := if gen ≥ endpointMaxGeneration then 1 else gen
        toHard := s.hCanStartHardening })
    else none

/-- The hardening part of `do_clear`, and `clear_endpoint`, which takes the process off the
queue of VM. -/
def doClear (s : System) (e : Endpoint) : System :=
  match isokendpt s e with
  | none => s
  | some p =>
    { s.setProc p { s.proc p with slotFree := true, toHard := false } with
      callerQ := s.callerQ.filter (fun q => q ≠ p) }

/-! ## VM -/

/-- `do_hardening` of VM; `none` is a panic. -/
def vmDoHardening (s : System) (src : Endpoint) (m : Msg) : Option System :=
  match vmIsokendpt s src with
  | none => none
  | some p =>
    match m with
    | .tellAll on => some { s with hardeningEnabled := on }
    | .tellP on => some (s.setVmproc p { s.vmproc p with toHard := on })
    | _ => some s

/-- The hardening part of `do_fork` of VM. `mem`: page table and regions could be copied; `none`:
the kernel refuses. -/
def vmDoFork (s : System) (parent : Endpoint) (child : ProcNr) (mem : Bool) : Option System :=
  match vmIsokendpt s parent with
  | none => some s
  | some p =>
    -- the child is a copy of the parent
    let s₁ := s.setVmproc child { s.vmproc p with endpoint := none }
    if !mem then some s₁
    else
      match kernelFork s₁ parent child with
      | none => none
      | some s₂ =>
        let vmc := s₂.vmproc child
        some (s₂.setVmproc child { vmc with
          exiting := false
          endpoint := some (s₂.endpoint child)
          toHard := vmc.toHard || s₂.hardeningEnabled })

/-- `do_willexit`. -/
def vmDoWillexit (s : System) (e : Endpoint) : System :=
  match vmIsokendpt s e with
  | none => s
  | some p => s.setVmproc p { s.vmproc p with exiting := true }

/-- `do_exit` of VM: `clear_proc` leaves the hardening flags. -/
def vmDoExit (s : System) (e : Endpoint) : System :=
  match vmIsokendpt s e with
  | none => s
  | some p =>
    if (s.vmproc p).exiting then
      s.setVmproc p { s.vmproc p with inuse := false, exiting := false }
    else s

/-- One turn of the loop of `main`: VM takes the first message of its queue. -/
def vmMain (s : System) (mem : Bool) : Option System :=
  match s.callerQ with
  | [] => none
  | q :: rest =>
    let s₁ := { s with callerQ := rest }
    match (s.proc q).sendmsg with
    | .tellAll on => vmDoHardening s₁ (s.endpoint q) (.tellAll on)
    | .tellP on => vmDoHardening s₁ (s.endpoint q) (.tellP on)
    | .fork parent child => vmDoFork s₁ parent child mem
    | .willexit e => some (vmDoWillexit s₁ e)
    | .exit e => some (vmDoExit s₁ e)

/-! ## Runs -/

inductive Op where
  /-- PM calls `sys_hardening` -/
  | request (type : HtaskType) (he : Endpoint)
  /-- PM sends VM a request and waits for the reply -/
  | vmFork (parent : Endpoint) (child : ProcNr)
  | vmWillexit (e : Endpoint)
  | vmExit (e : Endpoint)
  /-- PM calls `sys_clear` -/
  | clear (e : Endpoint)
  /-- VM takes a message -/
  | vmMain (mem : Bool)

/-- PM acts only when VM has taken its last message, and does not clear itself. -/
def Op.Enabled (s : System) : Op → Prop
  | .vmMain _ => True
  | .clear e => pmProcNr ∉ s.callerQ ∧ e.nr ≠ pmProcNr
  | _ => pmProcNr ∉ s.callerQ

/-- One operation; `none` is a panic, or no operation at all. -/
def step (s : System) : Op → Option System
  -- every `sys_hardening` of PM carries `PM_PROC_NR`
  | .request type he => some (doHardening s type (s.endpoint pmProcNr) he).1
  | .vmFork parent child => some (tellVm s pmProcNr (.fork parent child))
  | .vmWillexit e => some (tellVm s pmProcNr (.willexit e))
  | .vmExit e => some (tellVm s pmProcNr (.exit e))
  | .clear e => some (doClear s e)
  | .vmMain mem => vmMain s mem

/-- Nothing is hardened, and no message waits. -/
structure Boot (s : System) : Prop where
  hCanStartHardening : s.hCanStartHardening = false
  hardeningEnabled : s.hardeningEnabled = false
  toHard : ∀ p, (s.proc p).toHard = false
  vmToHard : ∀ p, (s.vmproc p).toHard = false
  callerQ : s.callerQ = []
  pm : (s.proc pmProcNr).slotFree = false

/-- The states of the runs whose operations all meet `Cond` in the state they start from. -/
inductive Reachable (Cond : System → Op → Prop) : System → Prop where
  | boot {s : System} : Boot s → Reachable Cond s
  | step {s s' : System} {op : Op} : Reachable Cond s → op.Enabled s → Cond s op →
      Hardened.step s op = some s' → Reachable Cond s'

/-- The process runs as far as the kernel and VM are concerned. -/
def Live (s : System) (p : ProcNr) : Prop :=
  (s.proc p).slotFree = false ∧ (s.vmproc p).inuse = true ∧
    (s.vmproc p).endpoint = some (s.endpoint p)

/-! ## Notifications under way -/

/-- What the message says about the children of all forks. -/
def Msg.all? : Msg → Option Bool
  | .tellAll on => some on
  | _ => none

/-- What the message says about its sender. -/
def Msg.one? : Msg → Option Bool
  | .tellP on => some on
  | _ => none

/-- The notification of `q` that VM has not taken yet, of the kind `f`. -/
def pending (f : Msg → Option Bool) (s : System) (q : ProcNr) : Option Bool :=
  if q ∈ s.callerQ then f (s.proc q).sendmsg else none

/-- No notification of `do_hardening` is in flight. -/
def Settled (s : System) : Prop :=
  ∀ q, pending Msg.all? s q = none ∧ pending Msg.one? s q = none

/-- The kernel's flags are those VM has or is about to have. -/
structure Agree (s : System) : Prop where
  nodup : s.callerQ.Nodup
  pm : (s.proc pmProcNr).slotFree = false
  alive : ∀ q ∈ s.callerQ, (s.proc q).slotFree = false
  fromPm : ∀ q ∈ s.callerQ, q ≠ pmProcNr → ∃ on, (s.proc q).sendmsg = .tellP on
  all : s.hCanStartHardening = (pending Msg.all? s pmProcNr).getD s.hardeningEnabled
  one : ∀ p, Live s p → (s.proc p).toHard = (pending Msg.one? s p).getD (s.vmproc p).toHard

/-- The message `m` of `p` joins the queue of VM, and the flags it speaks of are set as it
says. -/
structure Told (s s' : System) (p : ProcNr) (m : Msg) : Prop where
  callerQ : s'.callerQ = s.callerQ ++ [p]
  other : ∀ q, q ≠ p → s'.proc q = s.proc q
  slotFree : (s'.proc p).slotFree = (s.proc p).slotFree
  gen : (s'.proc p).gen = (s.proc p).gen
  sendmsg : (s'.proc p).sendmsg = m
  toHard : (s'.proc p).toHard = m.one?.getD (s.proc p).toHard
  hCanStartHardening : s'.hCanStartHardening = m.all?.getD s.hCanStartHardening
  hardeningEnabled : s'.hardeningEnabled = s.hardeningEnabled
  vmproc : s'.vmproc = s.vmproc

variable {m : Msg}

theorem Told.pending (h : Told s s' p m) (hp : p ∉ s.callerQ) (f : Msg → Option Bool)
    (q : ProcNr) : pending f s' q = if q = p then f m else pending f s q := by
  unfold Hardened.pending
  rw [h.callerQ]
  by_cases hq : q = p
  · subst hq
    simp [h.sendmsg]
  · simp [hq, h.other q hq]

theorem Told.slots (h : Told s s' p m) (q : ProcNr) :
    (s'.proc q).slotFree = (s.proc q).slotFree ∧ (s'.proc q).gen = (s.proc q).gen := by
  by_cases hq : q = p
  · subst hq
    exact ⟨h.slotFree, h.gen⟩
  · rw [h.other q hq]
    exact ⟨rfl, rfl⟩

theorem Told.live (h : Told s s' p m) (q : ProcNr) : Live s' q ↔ Live s q := by
  unfold Live System.endpoint
  rw [(h.slots q).1, (h.slots q).2, h.vmproc]

theorem Agree.told (h : Agree s) (htold : Told s s' p m) (hp : p ∉ s.callerQ)
    (halive : (s.proc p).slotFree = false)
    (hfrom : p = pmProcNr ∨ m.all? = none ∧ ∃ on, m = .tellP on) : Agree s' where
  nodup := by
    rw [htold.callerQ]
    exact nodup_append.mpr ⟨h.nodup, nodup_singleton p, fun a ha b hb heq => by
      rw [mem_singleton] at hb
      exact hp (hb ▸ heq ▸ ha)⟩
  pm := (htold.slots pmProcNr).1.trans h.pm
  alive q hq := by
    rw [(htold.slots q).1]
    rw [htold.callerQ, mem_append, mem_singleton] at hq
    rcases hq with hq | rfl
    · exact h.alive q hq
    · exact halive
  fromPm q hq hne := by
    rw [htold.callerQ, mem_append, mem_singleton] at hq
    by_cases hqp : q = p
    · subst hqp
      rw [htold.sendmsg]
      exact (hfrom.resolve_left hne).2
    · rw [htold.other q hqp]
      exact h.fromPm q (hq.resolve_right hqp) hne
  all := by
    rw [htold.hCanStartHardening, htold.pending hp, htold.hardeningEnabled]
    by_cases hpm : pmProcNr = p
    · have hnone : pending Msg.all? s pmProcNr = none := if_neg (hpm ▸ hp)
      rw [if_pos hpm, h.all, hnone]
      cases m.all? <;> rfl
    · have hm := (hfrom.resolve_left (Ne.symm hpm)).1
      rw [if_neg hpm, hm, h.all]
      rfl
  one q hq := by
    rw [htold.live] at hq
    rw [htold.pending hp, htold.vmproc]
    by_cases hqp : q = p
    · subst hqp
      have hnone : pending Msg.one? s q = none := if_neg hp
      have hone := h.one q hq
      rw [hnone] at hone
      rw [if_pos rfl, htold.toHard, hone]
      cases m.one? <;> rfl
    · rw [if_neg hqp, htold.other q hqp]
      exact h.one q hq

theorem Agree.congr (h : Agree s) (hproc : s'.proc = s.proc) (hq : s'.callerQ = s.callerQ)
    (hvm : s'.vmproc = s.vmproc) (hall : s'.hCanStartHardening = s.hCanStartHardening)
    (hen : s'.hardeningEnabled = s.hardeningEnabled) : Agree s' := by
  obtain ⟨can, inject, proc, console, callerQ, enabled, vmproc⟩ := s
  obtain ⟨can', inject', proc', console', callerQ', enabled', vmproc'⟩ := s'
  simp only at hproc hq hvm hall hen
  subst hproc hq hvm hall hen
  exact ⟨h.nodup, h.pm, h.alive, h.fromPm, h.all, h.one⟩

/-- VM makes no child hardened by copying its parent while the children of forks are not, and a
process is told about only when no message of it is under way. -/
def Undivided (s : System) : Op → Prop
  | .request .enHardeningPid he => he.nr ∉ s.callerQ
  | .request .disHardeningPid he => he.nr ∉ s.callerQ
  | .vmMain _ =>
    match s.callerQ with
    | [] => True
    | q :: _ =>
      match (s.proc q).sendmsg with
      | .fork parent _ => (s.vmproc parent.nr).toHard = true → s.hardeningEnabled = true
      | _ => True
  | _ => True

variable {e : Endpoint} {he : Endpoint} {type : HtaskType} {parent : Endpoint} {child : ProcNr}

theorem isokendpt_eq_some (h : isokendpt s e = some p) :
    e.nr = p ∧ (s.proc p).slotFree = false ∧ s.endpoint p = e := by
  unfold isokendpt at h
  split at h
  case isTrue hok =>
    cases h
    exact ⟨rfl, hok.1, by rw [System.endpoint, hok.2]⟩
  case isFalse => cases h

theorem vmIsokendpt_eq_some (h : vmIsokendpt s e = some p) :
    e.nr = p ∧ (s.vmproc p).endpoint = some e ∧ (s.vmproc p).inuse = true := by
  unfold vmIsokendpt at h
  split at h
  case isTrue hok =>
    cases h
    exact ⟨rfl, hok⟩
  case isFalse => cases h

theorem isokendpt_endpoint (h : (s.proc p).slotFree = false) :
    isokendpt s (s.endpoint p) = some p :=
  if_pos ⟨h, rfl⟩

theorem Agree.setVmproc (h : Agree s) {x : VmProc} (hx : Live (s.setVmproc p x) p →
      (s.proc p).toHard = (pending Msg.one? s p).getD x.toHard) : Agree (s.setVmproc p x) where
  nodup := h.nodup
  pm := h.pm
  alive := h.alive
  fromPm := h.fromPm
  all := h.all
  one q hq := by
    show (s.proc q).toHard = (pending Msg.one? s q).getD ((s.setVmproc p x).vmproc q).toHard
    by_cases hqp : q = p
    · subst hqp
      simp only [System.setVmproc, Function.update_self]
      exact hx hq
    have hsame : (s.setVmproc p x).vmproc q = s.vmproc q := Function.update_of_ne hqp _ _
    rw [hsame]
    refine h.one q ⟨hq.1, ?_, ?_⟩
    · rw [← hsame]
      exact hq.2.1
    · rw [← hsame]
      exact hq.2.2

theorem vmDoWillexit_agree (h : Agree s) (e : Endpoint) : Agree (vmDoWillexit s e) := by
  unfold vmDoWillexit
  split
  case h_1 => exact h
  case h_2 p _ =>
    apply h.setVmproc
    intro hlive
    simp only [Live, System.setVmproc, Function.update_self] at hlive
    exact h.one p hlive

theorem vmDoExit_agree (h : Agree s) (e : Endpoint) : Agree (vmDoExit s e) := by
  unfold vmDoExit
  split
  case h_1 => exact h
  case h_2 p _ =>
    split
    case isTrue =>
      apply h.setVmproc
      rintro ⟨_, hin, _⟩
      simp [System.setVmproc] at hin
    case isFalse => exact h

/-- A child in the slot `child`, which was free. -/
structure Forked (s s' : System) (parent child : ProcNr) : Prop where
  free : (s.proc child).slotFree = true
  callerQ : s'.callerQ = s.callerQ
  hCanStartHardening : s'.hCanStartHardening = s.hCanStartHardening
  hardeningEnabled : s'.hardeningEnabled = s.hardeningEnabled
  other : ∀ q, q ≠ child → s'.proc q = s.proc q ∧ s'.vmproc q = s.vmproc q
  toHard : (s'.proc child).toHard = s.hCanStartHardening
  vmToHard : (s'.vmproc child).toHard = ((s.vmproc parent).toHard || s.hardeningEnabled)

theorem kernelFork_eq_some
    (h : kernelFork s parent child = some s') : (s.proc child).slotFree = true ∧
      ∃ x : KProc, x.toHard = s.hCanStartHardening ∧ s' = s.setProc child x := by
  unfold kernelFork at h
  split at h
  case h_1 => cases h
  case h_2 =>
    split at h
    case isTrue hfree => exact ⟨hfree, _, rfl, (some.inj h).symm⟩
    case isFalse => cases h

theorem vmDoFork_cases {mem : Bool} (h : vmDoFork s parent child mem = some s') :
    s' = s ∨ s' = s.setVmproc child { s.vmproc parent.nr with endpoint := none } ∨
      Forked s s' parent.nr child := by
  unfold vmDoFork at h
  split at h
  case h_1 => exact .inl (some.inj h).symm
  case h_2 p hok =>
    obtain ⟨rfl, _, _⟩ := vmIsokendpt_eq_some hok
    split at h
    case isTrue => exact .inr (.inl (some.inj h).symm)
    simp only at h
    split at h
    case h_1 => cases h
    case h_2 s2 hk =>
      obtain ⟨hfree, x, hx, rfl⟩ := kernelFork_eq_some hk
      cases h
      refine .inr (.inr ⟨hfree, rfl, rfl, rfl, fun q hq => ⟨?_, ?_⟩, ?_, ?_⟩)
      · exact Function.update_of_ne hq _ _
      · simp only [System.setVmproc, System.setProc, Function.update_of_ne hq]
      · simp only [System.setVmproc, System.setProc, Function.update_self] at hx ⊢
        exact hx
      · simp only [System.setVmproc, System.setProc, Function.update_self]

theorem Agree.forked {parent child : ProcNr} (h : Agree s) (hf : Forked s s' parent child)
    (hall : pending Msg.all? s pmProcNr = none)
    (hcond : (s.vmproc parent).toHard = true → s.hardeningEnabled = true) : Agree s' := by
  -- the slot of the child was free, so nothing of it waits for VM
  have hne : ∀ q, (s.proc q).slotFree = false → q ≠ child := by
    rintro q hq rfl
    rw [hf.free] at hq
    exact absurd hq (by simp)
  have hpend : ∀ (f : Msg → Option Bool) q, pending f s' q = pending f s q := by
    intro f q
    unfold pending
    rw [hf.callerQ]
    split
    case isTrue hq => rw [(hf.other q (hne q (h.alive q hq))).1]
    case isFalse => rfl
  constructor
  · rw [hf.callerQ]
    exact h.nodup
  · rw [(hf.other _ (hne _ h.pm)).1]
    exact h.pm
  · intro q hq
    rw [hf.callerQ] at hq
    rw [(hf.other q (hne q (h.alive q hq))).1]
    exact h.alive q hq
  · intro q hq
    rw [hf.callerQ] at hq
    rw [(hf.other q (hne q (h.alive q hq))).1]
    exact h.fromPm q hq
  · rw [hf.hCanStartHardening, hpend, hf.hardeningEnabled]
    exact h.all
  intro q hq
  rw [hpend]
  by_cases hqc : q = child
  · subst hqc
    have hnot : q ∉ s.callerQ := fun hmem => hne q (h.alive q hmem) rfl
    have hall' := h.all
    rw [hall] at hall'
    unfold pending
    rw [if_neg hnot, hf.toHard, hf.vmToHard, hall']
    cases hpar : (s.vmproc parent).toHard with
    | true => exact hcond hpar
    | false => rfl
  · rw [(hf.other q hqc).1, (hf.other q hqc).2]
    apply h.one q
    simpa [Live, System.endpoint, hf.other q hqc] using hq

theorem vmDoFork_agree {mem : Bool} (h : Agree s) (hall : pending Msg.all? s pmProcNr = none)
    (hcond : (s.vmproc parent.nr).toHard = true → s.hardeningEnabled = true)
    (hfork : vmDoFork s parent child mem = some s') : Agree s' := by
  rcases vmDoFork_cases hfork with rfl | rfl | hf
  · exact h
  · apply h.setVmproc
    rintro ⟨_, _, hep⟩
    simp [System.setVmproc] at hep
  · exact h.forked hf hall hcond

theorem vmDoHardening_eq_some {src : Endpoint} (h : vmDoHardening s src m = some s') :
    vmIsokendpt s src = some src.nr ∧
      ((∃ on, m = .tellAll on ∧ s' = { s with hardeningEnabled := on }) ∨ (∃ on, m = .tellP on ∧
          s' = s.setVmproc src.nr { s.vmproc src.nr with toHard := on }) ∨
        m.all? = none ∧ m.one? = none) := by
  unfold vmDoHardening at h
  cases hok : vmIsokendpt s src with
  | none =>
    rw [hok] at h
    cases h
  | some p =>
    obtain ⟨rfl, _, _⟩ := vmIsokendpt_eq_some hok
    rw [hok] at h
    refine ⟨rfl, ?_⟩
    cases m with
    | tellAll on => exact .inl ⟨on, rfl, (some.inj h).symm⟩
    | tellP on => exact .inr (.inl ⟨on, rfl, (some.inj h).symm⟩)
    | fork parent child => exact .inr (.inr ⟨rfl, rfl⟩)
    | willexit e => exact .inr (.inr ⟨rfl, rfl⟩)
    | exit e => exact .inr (.inr ⟨rfl, rfl⟩)

theorem Agree.vmMain {mem : Bool} (h : Agree s) (hcond : Undivided s (.vmMain mem))
    (hmain : vmMain s mem = some s') : Agree s' := by
  unfold Hardened.vmMain at hmain
  unfold Undivided at hcond
  split at hmain
  case h_1 => cases hmain
  case h_2 q rest hq =>
    rw [hq] at hcond
    simp only at hcond
    have hnd := nodup_cons.mp (hq ▸ h.nodup)
    have hmem : ∀ r ∈ rest, r ∈ s.callerQ := fun r hr => hq ▸ mem_cons_of_mem q hr
    have hpend : ∀ (f : Msg → Option Bool) r, pending f { s with callerQ := rest } r =
        if r = q then none else pending f s r := by
      intro f r
      unfold pending
      rw [hq]
      by_cases hr : r = q
      · subst hr
        simp [hnd.1]
      · simp [hr]
    have hqpend : ∀ f : Msg → Option Bool, pending f s q = f (s.proc q).sendmsg := by
      intro f
      exact if_pos (hq ▸ mem_cons_self)
    have hpm : (∀ on, (s.proc q).sendmsg ≠ .tellP on) → q = pmProcNr := by
      intro hne
      by_contra hqpm
      obtain ⟨on, hon⟩ := h.fromPm q (hq ▸ mem_cons_self) hqpm
      exact hne on hon
    -- a message that is no notification leaves the flags to be told about as they are
    have hrest : (s.proc q).sendmsg.all? = none → (s.proc q).sendmsg.one? = none →
        Agree { s with callerQ := rest } := by
      intro hall hone
      refine ⟨hnd.2, h.pm, fun r hr => h.alive r (hmem r hr),
        fun r hr => h.fromPm r (hmem r hr), ?_, fun r hr => ?_⟩
      · rw [hpend]
        have hs := h.all
        by_cases hqpm : pmProcNr = q
        · rw [hqpm, hqpend, hall] at hs
          rw [if_pos hqpm]
          exact hs
        · rw [if_neg hqpm]
          exact hs
      rw [hpend]
      have hs := h.one r hr
      by_cases hrq : r = q
      · subst hrq
        rw [hqpend, hone] at hs
        rw [if_pos rfl]
        exact hs
      · rw [if_neg hrq]
        exact hs
    split at hmain
    case h_1 on hmsg =>
      -- the children of all forks
      have hqpm := hpm (by simp [hmsg])
      subst hqpm
      obtain ⟨_, ⟨_, hon, rfl⟩ | ⟨_, hon, _⟩ | ⟨hon, _⟩⟩ := vmDoHardening_eq_some hmain
      case inr.inl => cases hon
      case inr.inr => cases hon
      cases hon
      refine ⟨hnd.2, h.pm, fun r hr => h.alive r (hmem r hr),
        fun r hr => h.fromPm r (hmem r hr), ?_, fun r hr => ?_⟩
      · have hs := h.all
        rw [hqpend, hmsg] at hs
        show s.hCanStartHardening = (pending Msg.all? { s with callerQ := rest } pmProcNr).getD on
        rw [hpend, if_pos rfl]
        exact hs
      show (s.proc r).toHard =
        (pending Msg.one? { s with callerQ := rest } r).getD (s.vmproc r).toHard
      have hs := h.one r hr
      rw [hpend]
      by_cases hrq : r = pmProcNr
      · subst hrq
        rw [hqpend, hmsg] at hs
        rw [if_pos rfl]
        exact hs
      · rw [if_neg hrq]
        exact hs
    case h_2 on hmsg =>
      -- one process
      obtain ⟨hok, ⟨_, hon, _⟩ | ⟨_, hon, rfl⟩ | ⟨_, hon⟩⟩ := vmDoHardening_eq_some hmain
      case inl => cases hon
      case inr.inr => cases hon
      cases hon
      obtain ⟨_, hep, hin⟩ := vmIsokendpt_eq_some hok
      refine ⟨hnd.2, h.pm, fun r hr => h.alive r (hmem r hr),
        fun r hr => h.fromPm r (hmem r hr), ?_, fun r hr => ?_⟩
      · show s.hCanStartHardening =
          (pending Msg.all? { s with callerQ := rest } pmProcNr).getD s.hardeningEnabled
        have hs := h.all
        rw [hpend]
        by_cases hqpm : pmProcNr = q
        · rw [hqpm, hqpend, hmsg] at hs
          rw [if_pos hqpm]
          exact hs
        · rw [if_neg hqpm]
          exact hs
      show (s.proc r).toHard = (pending Msg.one? { s with callerQ := rest } r).getD
        (Function.update s.vmproc q { s.vmproc q with toHard := on } r).toHard
      rw [hpend]
      by_cases hrq : r = q
      · subst hrq
        have hs := h.one r ⟨h.alive r (hq ▸ mem_cons_self), hin, hep⟩
        rw [hqpend, hmsg] at hs
        rw [if_pos rfl, Function.update_self]
        exact hs
      · rw [if_neg hrq, Function.update_of_ne hrq]
        apply h.one r
        simpa [Live, System.setVmproc, System.endpoint, hrq] using hr
    case h_3 parent child hmsg =>
      have hqpm := hpm (by simp [hmsg])
      subst hqpm
      rw [hmsg] at hcond hrest
      have hall : pending Msg.all? { s with callerQ := rest } pmProcNr = none := by
        rw [hpend, if_pos rfl]
      exact vmDoFork_agree (hrest rfl rfl) hall hcond hmain
    case h_4 e hmsg =>
      cases hmain
      rw [hmsg] at hrest
      exact vmDoWillexit_agree (hrest rfl rfl) e
    case h_5 e hmsg =>
      cases hmain
      rw [hmsg] at hrest
      exact vmDoExit_agree (hrest rfl rfl) e

/-! ## Runs -/

instance (s : System) : (op : Op) → Decidable (op.Enabled s)
  | .request _ _ => inferInstanceAs (Decidable (pmProcNr ∉ s.callerQ))
  | .vmFork _ _ => inferInstanceAs (Decidable (pmProcNr ∉ s.callerQ))
  | .vmWillexit _ => inferInstanceAs (Decidable (pmProcNr ∉ s.callerQ))
  | .vmExit _ => inferInstanceAs (Decidable (pmProcNr ∉ s.callerQ))
  | .clear e => inferInstanceAs (Decidable (pmProcNr ∉ s.callerQ ∧ e.nr ≠ pmProcNr))
  | .vmMain _ => inferInstanceAs (Decidable True)

instance (s : System) (op : Op) : Decidable (Undivided s op) := by
  unfold Undivided
  split
  · infer_instance
  · infer_instance
  · split
    · infer_instance
    · split <;> infer_instance
  · infer_instance

instance (s : System) : Decidable (Settled s) :=
  inferInstanceAs (Decidable (∀ q, pending Msg.all? s q = none ∧ pending Msg.one? s q = none))

instance (s : System) (p : ProcNr) : Decidable (Live s p) :=
  inferInstanceAs (Decidable (_ ∧ _ ∧ _))

/-- A sequence of operations; `none` if one of them cannot take place or does not meet
`Cond`. -/
def runOps (Cond : System → Op → Prop) [∀ s op, Decidable (Cond s op)] :
    System → List Op → Option System
  | s, [] => some s
  | s, op :: ops =>
    if op.Enabled s ∧ Cond s op then (step s op).bind (fun s' => runOps Cond s' ops) else none

theorem Reachable.runOps {Cond : System → Op → Prop} [∀ s op, Decidable (Cond s op)]
    {ops : List Op} (hs : Reachable Cond s) (h : runOps Cond s ops = some s') :
    Reachable Cond s' := by
  induction ops generalizing s with
  | nil =>
    cases h
    exact hs
  | cons op ops ih =>
    unfold Hardened.runOps at h
    split at h
    case isTrue hop =>
      obtain ⟨s1, hstep, hrest⟩ := bind_eq_some_iff.mp h
      exact ih (.step hs hop.1 hop.2 hstep) hrest
    case isFalse => cases h

end HardenedMinix.Hardened
