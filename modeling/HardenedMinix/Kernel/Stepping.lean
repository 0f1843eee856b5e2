import HardenedMinix.Kernel.Dwc
import HardenedMinix.Kernel.ReadyQueues

/-!
# Catching up by single steps

When the second run has ended at another instruction than the first (`ssh.c`), the shorter run
goes on one instruction at a time. The program is any function on the registers and the memory;
both runs start from the same.
-/

namespace HardenedMinix.Stepping

open Sched (RunStep)

/-- A fault an instruction takes on a page that is closed to stores, before it is executed. -/
structure Fault where
  addr : VirBytes
  /-- `none` if the page has both private frames and `check_vaddr_2` opens it; else `eax_s`, ... after
  VM has supplied the frame. -/
  vm : Option SavedRegs

/-- The program of a processing element. `M` is the memory of a run, with what is open. -/
structure Program (M : Type) where
  /-- One instruction. -/
  exec : CpuRegs → M → CpuRegs × M
  fault : CpuRegs → M → Option Fault
  /-- `cmp_mem` on the memories of the two runs. -/
  cmpMem : M → M → Bool
  cmpMem_self : ∀ m, cmpMem m m = true
  /-- The kernel stack and the process pointer at a trap. -/
  kernelEsp : UInt32
  procPtr : UInt32

/-! ## State -/

inductive Frames where
  | us0
  | us1
  | us2
  deriving DecidableEq, Repr

/-- The state of the kernel during a processing element. -/
structure State (M : Type) where
  hStep : RunStep
  hSsMode : Bool
  /-- `h_unstable_state == H_STEPPING`. -/
  hStepping : Bool
  firstRunIns : UInt32
  secndRunIns : UInt32
  mfStep : Bool
  /-- `p_reg`. -/
  reg : StackFrame
  mapped : Frames
  us0 : M
  us1 : M
  us2 : M
  /-- What `save_copy_0` saved. -/
  copy0 : StackFrame × ControlRegs
  ctx1 : RunCtx
  ctx2 : RunCtx
  /-- `eax_s`, ... -/
  saved : SavedRegs
  cr : ControlRegs
  pagefaultAddr1 : VirBytes
  pagefaultAddr2 : VirBytes

variable {M : Type}

namespace State

variable (P : Program M) (s : State M)

def memory : M :=
  match s.mapped with
  | .us0 => s.us0
  | .us1 => s.us1
  | .us2 => s.us2

def setMemory (m : M) : State M :=
  match s.mapped with
  | .us0 => { s with us0 := m }
  | .us1 => { s with us1 := m }
  | .us2 => { s with us2 := m }

/-- The registers `restore_user_context_int` loads. -/
def userRegs (r : StackFrame) : CpuRegs where
  eax := r.retreg
  ebx := r.bx
  ecx := r.cx
  edx := r.dx
  esi := r.si
  edi := r.di
  ebp := r.fp
  esp := r.sp
  eip := r.pc
  cs := r.cs
  eflags := r.psw

/-- The trap that has ended a run or a single step; `ssh` sets `origin_syscall` as `irh` does, and
clears the trace bit. -/
def trap (addr : VirBytes) : Trap where
  entry := .nmi
  cpu := userRegs s.reg
  usermappedOffset := 0
  kernelEsp := P.kernelEsp
  procPtr := P.procPtr
  preg := s.reg
  saved := s.saved
  cr := s.cr
  pagefaultAddr := addr

/-- `save_copy_1`. -/
def copy1 : RunCtx := saveCopy1 (s.trap P s.pagefaultAddr1)

/-- `save_copy_2`. -/
def copy2 : RunCtx := saveCopy2 (s.trap P s.pagefaultAddr2)

def saveContext : State M :=
  if s.hStep = .firstRun then { s with ctx1 := s.copy1 P }
  else if s.hStep = .secondRun then { s with ctx2 := s.copy2 P }
  else s

/-- `cmp_reg`, after an NMI or a debug trap. -/
def cmpReg : Bool := HardenedMinix.cmpReg 7 s.ctx1 s.ctx2

/-! ## Instructions -/

/-- What a fault changes by the time the instruction is executed. -/
def faulted (f : Fault) : State M :=
  { s with
    saved := f.vm.getD s.saved
    cr := { s.cr with cr2 := UInt32.ofNat f.addr }
    pagefaultAddr1 := if s.hStep = .firstRun then f.addr else s.pagefaultAddr1
    pagefaultAddr2 := if s.hStep = .secondRun then f.addr else s.pagefaultAddr2 }

def nextFault : Option Fault := P.fault (userRegs s.reg) s.memory

def execute : State M :=
  let s' := match s.nextFault P with
    | none => s
    | some f => s.faulted f
  let next := P.exec (userRegs s.reg) s.memory
  { s'.setMemory next.2 with reg := saveProcessCtx s.reg next.1 }

/-- The next debug trap. While `h_unstable_state` is `H_STEPPING`, `exception_handler` returns at
once, and in the step `FIRST_STEPPING` no page is opened: the instruction faults for ever. -/
def Traps : Prop :=
  s.mfStep = true ∧ ∀ f, s.nextFault P = some f → f.vm = none ∧ s.hStep ≠ .firstStepping

/-! ## The end of a run -/

/-- The retirement counter overflows after `INS_2_EXEC` instructions. -/
def insStart : Nat := 0xFFFFFFFF - 0x7270E00 + 1

/-- `p_ins_last` after `n` instructions, as a `u32_t`. -/
def insCount (n : Nat) : UInt32 := UInt32.ofNat (insStart + n)

/-- `irh`, after `n` instructions. -/
def irh (n : Nat) : State M :=
  if s.hStep = .firstRun then { s with firstRunIns := insCount n }
  else if s.hStep = .secondRun then { s with secndRunIns := insCount n }
  else s

/-- `restore_copy_1`. `st` and `cr2` are not restored. -/
def restoreCopy1 : State M :=
  { s with
    reg := { s.ctx1.reg with st := s.reg.st }
    cr := { s.ctx1.cr with cr2 := s.cr.cr2 } }

/-- `restore_copy_0` and the rest of `start_dwc`, for the second run. -/
def startSecond : State M :=
  { s with
    reg := { s.copy0.1 with st := s.reg.st }
    cr := { s.copy0.2 with cr2 := s.cr.cr2 }
    hStep := .secondRun
    mapped := .us2 }

/-- `ssh_init`. `CPY_RAM_FIRST_STEPPING` maps the frames of the first run. -/
def sshInit : State M :=
  let s := { s with hSsMode := true }
  if s.secndRunIns < s.firstRunIns then { s with mfStep := true, hStepping := true }
  else if s.firstRunIns < s.secndRunIns then
    { { s with mapped := .us1 }.restoreCopy1 with
      mfStep := true
      hStepping := true
      hStep := .firstStepping }
  else s

/-- `cmp_step` of `hardening_task`. -/
def cmpStep : State M × TaskEnd :=
  if s.cmpReg = false ∨ P.cmpMem s.us1 s.us2 = false then
    ({ s with us1 := s.us0, us2 := s.us0, mapped := .us0 }, .failed)
  else
    ({ s with us0 := s.us2, mapped := .us0, hStep := .noHardRun, hStepping := false, mfStep := false },
      .committed)

/-- `hardening_task`, after an NMI or the last debug trap. -/
def hardeningTask : State M × TaskEnd :=
  let s := s.saveContext P
  match s.hStep with
  | .firstRun => (s.startSecond, .secondRun)
  | .secondRun =>
    if s.secndRunIns ≠ s.firstRunIns ∧ s.cmpReg = false then (s.sshInit, .stepping)
    else s.cmpStep P
  | _ => s.cmpStep P

/-- `ssh`, with whether it returns `OK`. -/
def ssh : State M × Bool :=
  if s.hSsMode = false then (s, true)
  else
    let s := s.saveContext P
    let s :=
      if s.hStep = .firstStepping then { s with firstRunIns := s.firstRunIns + 1 }
      else { s with secndRunIns := s.secndRunIns + 1 }
    if s.secndRunIns ≠ s.firstRunIns ∧ s.cmpReg = false then
      ({ s with mfStep := true, hStepping := true }, false)
    else
      ({ s with
          mfStep := false
          hStepping := true
          hStep := if s.hStep = .firstStepping then .secondRun else s.hStep }, true)

end State

/-- Stepping from the first state ends in the second, after that many instructions. -/
inductive Steps (P : Program M) : State M → Nat → State M → Prop where
  | last {s s' : State M} : s.Traps P → (s.execute P).ssh P = (s', true) → Steps P s 1 s'
  | more {s s₁ s' : State M} {j : Nat} : s.Traps P → (s.execute P).ssh P = (s₁, false) →
      Steps P s₁ j s' → Steps P s (j + 1) s'

/-! ## A processing element whose runs end apart -/

inductive RunNr where
  | first
  | second
  deriving DecidableEq, Repr

def RunNr.frames : RunNr → Frames
  | .first => .us1
  | .second => .us2

/-- A processing element one of whose runs ends after `n` instructions, the other after
`n + k`. -/
structure Divergence (M : Type) where
  program : Program M
  start : StackFrame
  memory : M
  saved : SavedRegs
  cr : ControlRegs
  shorter : RunNr
  n : Nat
  k : Nat
  k_pos : 0 < k

namespace Divergence

open State

variable (x : Divergence M)

def length (r : RunNr) : Nat := if r = x.shorter then x.n else x.n + x.k

def begun : State M where
  hStep := .firstRun
  hSsMode := false
  hStepping := false
  firstRunIns := 0
  secndRunIns := 0
  mfStep := false
  reg := x.start
  mapped := .us1
  us0 := x.memory
  us1 := x.memory
  us2 := x.memory
  copy0 := (x.start, x.cr)
  ctx1 := default
  ctx2 := default
  saved := x.saved
  cr := x.cr
  pagefaultAddr1 := 0
  pagefaultAddr2 := 0

/-- The first run after `i` instructions. -/
def first (i : Nat) : State M := (execute x.program)^[i] x.begun

def again : State M :=
  (((x.first (x.length .first)).irh (x.length .first)).hardeningTask x.program).1

/-- The second run after `i` instructions. -/
def second (i : Nat) : State M := (execute x.program)^[i] x.again

def ended : State M × TaskEnd :=
  ((x.second (x.length .second)).irh (x.length .second)).hardeningTask x.program

/-- It executes the `k` instructions and ends with equal counts; the contexts compared are those of
both runs after `n + k` instructions, and the element is committed. -/
def CatchesUp : Prop :=
  ∃ s₀ s s' : State M,
    x.ended = (s₀, .stepping) ∧ Steps x.program s₀ x.k s ∧ s.mapped = x.shorter.frames ∧
      s.firstRunIns = s.secndRunIns ∧ s.hardeningTask x.program = (s', .committed) ∧
      s'.ctx1 = (x.first (x.n + x.k)).copy1 x.program ∧
      s'.ctx2 = (x.second (x.n + x.k)).copy2 x.program ∧ s'.cmpReg = true

/-- The second run is shorter, the counts do not wrap, and none of the `k` instructions starts in a
context like the end of the first run or needs a frame. -/
structure Behind : Prop where
  second : x.shorter = .second
  noWrap : (insStart + x.n) % 2 ^ 32 + x.k < 2 ^ 32
  apart : ∀ j < x.k, cmpReg 7 ((x.first (x.n + x.k)).copy1 x.program)
    ((x.second (x.n + j)).copy2 x.program) = false
  noFrame : ∀ j < x.k, ∀ f, (x.second (x.n + j)).nextFault x.program = some f → f.vm = none

end Divergence

/-! ## What an instruction changes -/

namespace State

variable {P : Program M} {s s' a b : State M}

theorem execute_eq (P : Program M) (s : State M) :
    ∃ reg us0 us1 us2 saved cr addr1 addr2, s.execute P = { s with
        reg := reg
        us0 := us0
        us1 := us1
        us2 := us2
        saved := saved
        cr := cr
        pagefaultAddr1 := addr1
        pagefaultAddr2 := addr2 } := by
  unfold execute setMemory faulted
  cases s.nextFault P <;> cases hmapped : s.mapped <;> simp only [hmapped] <;>
    exact ⟨_, _, _, _, _, _, _, _, rfl⟩

@[simp] theorem execute_hStep : (s.execute P).hStep = s.hStep := by
  obtain ⟨_, _, _, _, _, _, _, _, h⟩ := execute_eq P s
  rw [h]

@[simp] theorem execute_hSsMode : (s.execute P).hSsMode = s.hSsMode := by
  obtain ⟨_, _, _, _, _, _, _, _, h⟩ := execute_eq P s
  rw [h]

@[simp] theorem execute_mapped : (s.execute P).mapped = s.mapped := by
  obtain ⟨_, _, _, _, _, _, _, _, h⟩ := execute_eq P s
  rw [h]

@[simp] theorem execute_firstRunIns : (s.execute P).firstRunIns = s.firstRunIns := by
  obtain ⟨_, _, _, _, _, _, _, _, h⟩ := execute_eq P s
  rw [h]

@[simp] theorem execute_secndRunIns : (s.execute P).secndRunIns = s.secndRunIns := by
  obtain ⟨_, _, _, _, _, _, _, _, h⟩ := execute_eq P s
  rw [h]

@[simp] theorem execute_ctx1 : (s.execute P).ctx1 = s.ctx1 := by
  obtain ⟨_, _, _, _, _, _, _, _, h⟩ := execute_eq P s
  rw [h]

@[simp] theorem execute_copy0 : (s.execute P).copy0 = s.copy0 := by
  obtain ⟨_, _, _, _, _, _, _, _, h⟩ := execute_eq P s
  rw [h]

/-- The two states differ in nothing the program or a context depends on. -/
structure SameUser (a b : State M) : Prop where
  hStep : a.hStep = b.hStep
  reg : a.reg = b.reg
  mapped : a.mapped = b.mapped
  us0 : a.us0 = b.us0
  us1 : a.us1 = b.us1
  us2 : a.us2 = b.us2
  saved : a.saved = b.saved
  cr : a.cr = b.cr
  addr1 : a.pagefaultAddr1 = b.pagefaultAddr1
  addr2 : a.pagefaultAddr2 = b.pagefaultAddr2

namespace SameUser

theorem copy2 (h : SameUser a b) : a.copy2 P = b.copy2 P := by
  unfold State.copy2 trap
  rw [h.reg, h.saved, h.cr, h.addr2]

theorem memory (h : SameUser a b) : a.memory = b.memory := by
  unfold State.memory
  rw [h.mapped, h.us0, h.us1, h.us2]

theorem nextFault (h : SameUser a b) : a.nextFault P = b.nextFault P := by
  unfold State.nextFault
  rw [h.reg, h.memory]

theorem execute (h : SameUser a b) : SameUser (a.execute P) (b.execute P) := by
  have hm := h.memory
  have hf := h.nextFault (P := P)
  obtain ⟨hstep, hreg, hmapped, h0, h1, h2, hsaved, hcr, ha1, ha2⟩ := h
  unfold State.execute
  rw [hf, hreg, hm]
  cases hfault : b.nextFault P <;> cases hframes : b.mapped <;>
    constructor <;> simp [setMemory, faulted, *]

end SameUser

theorem execute_us1 (h : s.mapped = .us2) : (s.execute P).us1 = s.us1 := by
  unfold State.execute setMemory
  cases s.nextFault P <;> simp [h, faulted]

end State

/-! ## The two runs -/

namespace Divergence

open State

variable {x : Divergence M}

theorem first_succ (i : Nat) : x.first (i + 1) = (x.first i).execute x.program :=
  Function.iterate_succ_apply' _ _ _

theorem second_succ (i : Nat) : x.second (i + 1) = (x.second i).execute x.program :=
  Function.iterate_succ_apply' _ _ _

/-- What stays as it is during the first run. -/
structure InFirst (x : Divergence M) (s : State M) : Prop where
  hStep : s.hStep = .firstRun
  mapped : s.mapped = .us1
  copy0 : s.copy0 = (x.start, x.cr)
  us2 : s.us2 = x.memory
  addr2 : s.pagefaultAddr2 = 0

theorem inFirst (i : Nat) : InFirst x (x.first i) := by
  induction i with
  | zero => exact ⟨rfl, rfl, rfl, rfl, rfl⟩
  | succ i ih =>
    rw [first_succ]
    refine ⟨by simp [ih.hStep], by simp [ih.mapped], by simp [ih.copy0], ?_, ?_⟩
    · rw [← ih.us2]
      unfold execute setMemory
      cases (x.first i).nextFault x.program <;> simp [ih.mapped, faulted]
    · rw [← ih.addr2]
      unfold execute setMemory
      cases (x.first i).nextFault x.program <;> simp [ih.mapped, ih.hStep, faulted]

theorem again_eq : x.again = { x.first (x.length .first) with
      firstRunIns := insCount (x.length .first)
      ctx1 := (x.first (x.length .first)).copy1 x.program }.startSecond := by
  have hstep := (inFirst (x := x) (x.length .first)).hStep
  unfold again irh
  rw [if_pos hstep]
  simp only [State.hardeningTask, saveContext, hstep, if_true]
  rfl

/-- What stays as it is during the second run. -/
structure InSecond (x : Divergence M) (s : State M) : Prop where
  hStep : s.hStep = .secondRun
  mapped : s.mapped = .us2
  count : s.firstRunIns = insCount (x.length .first)
  ctx1 : s.ctx1 = (x.first (x.length .first)).copy1 x.program
  us1 : s.us1 = (x.first (x.length .first)).us1

theorem inSecond (i : Nat) : InSecond x (x.second i) := by
  induction i with
  | zero =>
    show InSecond x x.again
    rw [again_eq]
    exact ⟨rfl, rfl, rfl, rfl, rfl⟩
  | succ i ih =>
    rw [second_succ]
    exact ⟨by simp [ih.hStep], by simp [ih.mapped], by simp [ih.count], by simp [ih.ctx1],
      (execute_us1 ih.mapped).trans ih.us1⟩

/-- Both runs have executed the same instructions. What only a fault sets is as at the start until
the first fault. -/
structure Mirrors (x : Divergence M) (a b : State M) : Prop where
  regs : { a.reg with st := 0 } = { b.reg with st := 0 }
  memory : a.us1 = b.us2
  fault : a.pagefaultAddr1 = b.pagefaultAddr2
  cr : { a.cr with cr2 := 0 } = { b.cr with cr2 := 0 }
  cr2 : a.cr.cr2 = b.cr.cr2 ∨ a.cr.cr2 = x.begun.cr.cr2 ∧ b.cr.cr2 = x.again.cr.cr2
  saved : a.saved = b.saved ∨ a.saved = x.begun.saved ∧ b.saved = x.again.saved

theorem userRegs_congr {r r' : StackFrame} (h : { r with st := 0 } = { r' with st := 0 }) :
    userRegs r = userRegs r' := by
  simp only [StackFrame.mk.injEq] at h
  simp [userRegs, h]

theorem saveProcessCtx_congr {r r' : StackFrame} (c : CpuRegs)
    (h : { r with st := 0 } = { r' with st := 0 }) : saveProcessCtx r c = saveProcessCtx r' c := by
  simp only [StackFrame.mk.injEq] at h
  simp [saveProcessCtx, h]

theorem Mirrors.execute {a b : State M} (h : Mirrors x a b) (ha : InFirst x a)
    (hb : InSecond x b) : Mirrors x (a.execute x.program) (b.execute x.program) := by
  have hregs := userRegs_congr h.regs
  have hmem : a.memory = b.memory := by
    unfold State.memory
    rw [ha.mapped, hb.mapped]
    exact h.memory
  have hfault : a.nextFault x.program = b.nextFault x.program := by
    unfold nextFault
    rw [hregs, hmem]
  unfold State.execute
  rw [hfault, hregs, hmem]
  cases hf : b.nextFault x.program with
  | none =>
    constructor <;>
      simp [setMemory, ha.mapped, hb.mapped, saveProcessCtx_congr _ h.regs, h.fault, h.cr, h.cr2, h.saved]
  | some f =>
    have hcr := h.cr
    simp only [ControlRegs.mk.injEq] at hcr
    constructor <;>
      simp [setMemory, faulted, ha.mapped, hb.mapped, ha.hStep, hb.hStep,
        saveProcessCtx_congr _ h.regs, hcr]
    cases f.vm with
    | none => exact h.saved
    | some r => exact .inl rfl

theorem mirrors (i : Nat) : Mirrors x (x.first i) (x.second i) := by
  induction i with
  | zero =>
    show Mirrors x x.begun x.again
    have hfirst := inFirst (x := x) (x.length .first)
    have hagain := again_eq (x := x)
    refine ⟨?_, ?_, ?_, ?_, .inr ⟨rfl, rfl⟩, .inr ⟨rfl, rfl⟩⟩
    · rw [hagain]
      simp [startSecond, hfirst.copy0, begun]
    · rw [hagain]
      exact hfirst.us2.symm
    · rw [hagain]
      exact hfirst.addr2.symm
    · rw [hagain]
      simp [startSecond, hfirst.copy0, begun]
  | succ i ih =>
    rw [first_succ, second_succ]
    exact ih.execute (inFirst i) (inSecond i)

theorem cmpReg_same : cmpReg 7 ((x.first (x.length .first)).copy1 x.program)
    ((x.second (x.length .first)).copy2 x.program) = true := by
  obtain ⟨hregs, -, hfault, hcr, hcr2, hsaved⟩ := mirrors (x := x) (x.length .first)
  have hcr2' : (x.first (x.length .first)).cr.cr2 = (x.second (x.length .first)).cr.cr2 := by
    obtain heq | ⟨-, hsecond⟩ := hcr2
    · exact heq
    · rw [hsecond, again_eq]
      rfl
  have hsaved' : (x.first (x.length .first)).saved = (x.second (x.length .first)).saved := by
    obtain heq | ⟨-, hsecond⟩ := hsaved
    · exact heq
    · rw [hsecond, again_eq]
      rfl
  generalize x.first (x.length .first) = a at *
  generalize x.second (x.length .first) = b at *
  simp only [StackFrame.mk.injEq] at hregs
  simp only [ControlRegs.mk.injEq] at hcr
  have hcrs : a.cr = b.cr := by
    obtain ⟨h0, -, h3, h4⟩ := hcr
    cases ha : a.cr
    cases hb : b.cr
    simp_all
  unfold cmpReg cmpRegDefault
  simp [State.copy1, State.copy2, saveCopy1, saveCopy2, State.trap, Trap.enter, saveProcessCtx, userRegs,
    hregs, hfault, hcrs, hsaved']

/-! ## The end of the second run -/

/-- The state in which the NMI of the second run is compared. -/
def compared (x : Divergence M) : State M :=
  { x.second (x.length .second) with
    secndRunIns := insCount (x.length .second)
    ctx2 := (x.second (x.length .second)).copy2 x.program }

theorem ended_eq : x.ended = if insCount (x.length .second) ≠ insCount (x.length .first) ∧
        cmpReg 7 ((x.first (x.length .first)).copy1 x.program)
          ((x.second (x.length .second)).copy2 x.program) = false then
      (x.compared.sshInit, .stepping)
    else x.compared.cmpStep x.program := by
  have hs := inSecond (x := x) (x.length .second)
  unfold ended irh
  rw [if_neg (by simp [hs.hStep]), if_pos hs.hStep]
  rw [← hs.count, ← hs.ctx1]
  simp only [State.hardeningTask, saveContext, hs.hStep, reduceCtorEq, if_false, if_true]
  rw [compared, ← hs.hStep]
  rfl

theorem cmpStep_ne_stepping (P : Program M) (s : State M) : (s.cmpStep P).2 ≠ .stepping := by
  unfold State.cmpStep
  split <;> simp

theorem ended_stepping {s₀ : State M} (h : x.ended = (s₀, .stepping)) :
    insCount (x.length .second) ≠ insCount (x.length .first) ∧
      cmpReg 7 ((x.first (x.length .first)).copy1 x.program)
        ((x.second (x.length .second)).copy2 x.program) = false ∧
      s₀ = x.compared.sshInit := by
  rw [ended_eq] at h
  split_ifs at h with hdiffer
  · exact ⟨hdiffer.1, hdiffer.2, (Prod.mk.inj h).1.symm⟩
  · exact absurd (congrArg Prod.snd h) (cmpStep_ne_stepping _ _)

/-! ## Stepping the second run -/

variable {s s' : State M} {m j : Nat}

/-- The second run has not met the end of the first after `m` instructions. -/
def Apart (x : Divergence M) (m : Nat) : Prop :=
  insCount m ≠ insCount (x.length .first) ∧
    cmpReg 7 ((x.first (x.length .first)).copy1 x.program)
      ((x.second m).copy2 x.program) = false

/-- Instruction `m` of the second run needs no frame of VM. -/
def NoFrame (x : Divergence M) (m : Nat) : Prop :=
  ∀ f, (x.second m).nextFault x.program = some f → f.vm = none

/-- The second run is stepped and has executed `m` instructions. -/
structure Catching (x : Divergence M) (s : State M) (m : Nat) : Prop where
  user : SameUser s (x.second m)
  ctx1 : s.ctx1 = (x.first (x.length .first)).copy1 x.program
  mode : s.hSsMode = true
  first : s.firstRunIns = insCount (x.length .first)
  second : s.secndRunIns = insCount m

theorem insCount_succ (m : Nat) : insCount m + 1 = insCount (m + 1) :=
  (UInt32.ofNat_add (insStart + m) 1).symm

theorem Catching.hStep (h : Catching x s m) : s.hStep = .secondRun :=
  h.user.hStep.trans (inSecond m).hStep

theorem Catching.ssh (h : Catching x s m) :
    (Apart x (m + 1) ∧ ∃ t, (s.execute x.program).ssh x.program = (t, false) ∧
        Catching x t (m + 1) ∧ t.mfStep = true) ∨
      (¬ Apart x (m + 1) ∧ ∃ t, (s.execute x.program).ssh x.program = (t, true) ∧
        Catching x t (m + 1)) := by
  have huser : SameUser (s.execute x.program) (x.second (m + 1)) := by
    rw [second_succ]
    exact h.user.execute
  have hctx2 := huser.copy2 (P := x.program)
  have hstep : (s.execute x.program).hStep = .secondRun := by simp [h.hStep]
  have hcount : (s.execute x.program).secndRunIns + 1 = insCount (m + 1) := by
    rw [execute_secndRunIns, h.second, insCount_succ]
  have hmode : (s.execute x.program).hSsMode = true := by simp [h.mode]
  have hctx1 : (s.execute x.program).ctx1 = _ := execute_ctx1.trans h.ctx1
  have hfirst : (s.execute x.program).firstRunIns = _ := execute_firstRunIns.trans h.first
  generalize s.execute x.program = t at *
  unfold State.ssh saveContext State.cmpReg Apart
  simp only [hmode, hstep, hctx1, hctx2, hfirst, hcount, Bool.true_eq_false, reduceCtorEq, if_false,
    if_true]
  by_cases happart : insCount (m + 1) ≠ insCount (x.length .first) ∧
      cmpReg 7 ((x.first (x.length .first)).copy1 x.program)
        ((x.second (m + 1)).copy2 x.program) = false
  · rw [if_pos happart]
    refine .inl ⟨happart, _, rfl, ⟨?_, rfl, rfl, rfl, rfl⟩, rfl⟩
    exact ⟨(inSecond (m + 1)).hStep.symm, huser.reg, huser.mapped, huser.us0, huser.us1, huser.us2,
      huser.saved, huser.cr, huser.addr1, huser.addr2⟩
  · rw [if_neg happart]
    refine .inr ⟨happart, _, rfl, ⟨?_, rfl, rfl, rfl, rfl⟩⟩
    exact ⟨(inSecond (m + 1)).hStep.symm, huser.reg, huser.mapped, huser.us0, huser.us1, huser.us2,
      huser.saved, huser.cr, huser.addr1, huser.addr2⟩

theorem Catching.traps (h : Catching x s m) :
    s.Traps x.program ↔ s.mfStep = true ∧ NoFrame x m := by
  unfold Traps NoFrame
  rw [h.user.nextFault, h.hStep]
  simp

theorem Catching.of_steps (hrun : Steps x.program s j s') (h : Catching x s m) :
    (∀ i < j, NoFrame x (m + i)) ∧ (∀ i, 0 < i → i < j → Apart x (m + i)) ∧
      Catching x s' (m + j) := by
  induction hrun generalizing m with
  | last htraps hssh =>
    obtain ⟨-, t, hrun, -⟩ | ⟨-, t, hrun, ht⟩ := h.ssh
    · simp [hrun] at hssh
    · obtain rfl := (Prod.mk.inj (hrun.symm.trans hssh)).1
      refine ⟨fun i hi => ?_, fun i hpos hi => absurd hi (by omega), ht⟩
      obtain rfl : i = 0 := by omega
      exact (h.traps.mp htraps).2
  | @more _ _ _ j htraps hssh hrest ih =>
    obtain ⟨happart, t, hrun, ht, -⟩ | ⟨-, t, hrun, -⟩ := h.ssh
    · obtain rfl := (Prod.mk.inj (hrun.symm.trans hssh)).1
      obtain ⟨hframes, haparts, hlast⟩ := ih ht
      refine ⟨fun i hi => ?_, fun i hpos hi => ?_, ?_⟩
      · cases i with
        | zero => exact (h.traps.mp htraps).2
        | succ i =>
          rw [show m + (i + 1) = m + 1 + i by omega]
          exact hframes i (by omega)
      · cases i with
        | zero => omega
        | succ i =>
          rw [show m + (i + 1) = m + 1 + i by omega]
          obtain rfl | hi' := Nat.eq_zero_or_pos i
          · exact happart
          · exact haparts i hi' (by omega)
      · rw [show m + (j + 1) = m + 1 + j by omega]
        exact hlast
    · simp [hrun] at hssh

theorem Catching.steps (h : Catching x s m) (hstep : s.mfStep = true)
    (hframes : ∀ i ≤ j, NoFrame x (m + i)) (haparts : ∀ i < j, Apart x (m + i + 1))
    (hmeet : ¬ Apart x (m + j + 1)) : ∃ s', Steps x.program s (j + 1) s' ∧ Catching x s' (m + j + 1) := by
  induction j generalizing s m with
  | zero =>
    have htraps := h.traps.mpr ⟨hstep, hframes 0 le_rfl⟩
    obtain ⟨happart, -⟩ | ⟨-, t, hrun, ht⟩ := h.ssh
    · exact absurd happart hmeet
    · exact ⟨t, .last htraps hrun, ht⟩
  | succ j ih =>
    have htraps := h.traps.mpr ⟨hstep, hframes 0 (Nat.zero_le _)⟩
    obtain ⟨-, t, hrun, ht, hmf⟩ | ⟨hmet, -⟩ := h.ssh
    · have hmove (i : Nat) : m + 1 + i = m + (i + 1) := by omega
      obtain ⟨s', hsteps, hs'⟩ := ih ht hmf
        (fun i hi => hmove i ▸ hframes (i + 1) (by omega))
        (fun i hi => by rw [hmove]; exact haparts (i + 1) (by omega))
        (by rw [hmove]; exact hmeet)
      exact ⟨s', .more htraps hrun hsteps, by rw [← hmove]; exact hs'⟩
    · exact absurd (haparts 0 (by omega)) hmet

theorem saveContext_firstStepping (P : Program M) (h : s.hStep = .firstStepping) :
    s.saveContext P = s := by
  unfold saveContext
  simp [h]

theorem steps_firstStepping {P : Program M} (hrun : Steps P s j s')
    (hstep : s.hStep = .firstStepping) (hmode : s.hSsMode = true) :
    s'.mapped = s.mapped ∧ s'.ctx1 = s.ctx1 ∧ s'.hStep = .secondRun := by
  have hssh (t : State M) (ht : t.hStep = .firstStepping) (hm : t.hSsMode = true) :
      (t.ssh P).1.mapped = t.mapped ∧ (t.ssh P).1.ctx1 = t.ctx1 ∧ (t.ssh P).1.hSsMode = true ∧
        (t.ssh P).1.hStep = if (t.ssh P).2 then .secondRun else .firstStepping := by
    unfold State.ssh
    rw [saveContext_firstStepping P ht]
    simp only [hm, ht, Bool.true_eq_false, if_false, if_true]
    split <;> simp
  induction hrun with
  | @last s s' _ hlast =>
    have h := hssh (s.execute P) (by simp [hstep]) (by simp [hmode])
    rw [hlast] at h
    simp only [execute_mapped, execute_ctx1, if_true] at h
    exact ⟨h.1, h.2.1, h.2.2.2⟩
  | @more s s1 s' _ _ hmore _ ih =>
    have h := hssh (s.execute P) (by simp [hstep]) (by simp [hmode])
    rw [hmore] at h
    obtain ⟨hmapped, hctx1, hlast⟩ := ih (by simpa using h.2.2.2) h.2.2.1
    exact ⟨hmapped.trans (by simpa using h.1), hctx1.trans (by simpa using h.2.1), hlast⟩

/-! ## The end of stepping -/

theorem cmpStep_committed {P : Program M} (h : s.cmpStep P = (s', .committed)) :
    s'.ctx1 = s.ctx1 ∧ s'.ctx2 = s.ctx2 := by
  unfold State.cmpStep at h
  split at h
  · simp at h
  · obtain rfl := (Prod.mk.inj h).1
    exact ⟨rfl, rfl⟩

theorem hardeningTask_committed {P : Program M} (hstep : s.hStep = .secondRun)
    (h : s.hardeningTask P = (s', .committed)) : s'.ctx1 = s.ctx1 ∧ s'.ctx2 = s.copy2 P := by
  unfold State.hardeningTask saveContext at h
  simp only [hstep, reduceCtorEq, if_false, if_true] at h
  split at h
  · simp at h
  · exact cmpStep_committed h

theorem insCount_eq_iff {a b : Nat} :
    insCount a = insCount b ↔ (insStart + a) % 2 ^ 32 = (insStart + b) % 2 ^ 32 := by
  rw [insCount, insCount, ← UInt32.toNat_inj, UInt32.toNat_ofNat', UInt32.toNat_ofNat']

theorem insCount_lt_iff {a b : Nat} :
    insCount a < insCount b ↔ (insStart + a) % 2 ^ 32 < (insStart + b) % 2 ^ 32 := by
  rw [insCount, insCount, UInt32.lt_iff_toNat_lt, UInt32.toNat_ofNat', UInt32.toNat_ofNat']

theorem catching_sshInit (h : insCount (x.length .second) < insCount (x.length .first)) :
    Catching x x.compared.sshInit (x.length .second) ∧ x.compared.sshInit.mfStep = true := by
  have hs := inSecond (x := x) (x.length .second)
  have hlt : x.compared.secndRunIns < x.compared.firstRunIns := by
    show insCount _ < (x.second _).firstRunIns
    rw [hs.count]
    exact h
  unfold sshInit
  simp only [hlt, if_true]
  exact ⟨⟨⟨rfl, rfl, rfl, rfl, rfl, rfl, rfl, rfl, rfl, rfl⟩, hs.ctx1, rfl, hs.count, rfl⟩, trivial⟩

theorem firstStepping_sshInit (h : insCount (x.length .first) < insCount (x.length .second)) :
    x.compared.sshInit.hStep = .firstStepping ∧ x.compared.sshInit.hSsMode = true ∧
      x.compared.sshInit.mapped = .us1 ∧
      x.compared.sshInit.ctx1 = (x.first (x.length .first)).copy1 x.program := by
  have hs := inSecond (x := x) (x.length .second)
  have hlt : x.compared.firstRunIns < x.compared.secndRunIns := by
    show (x.second _).firstRunIns < insCount _
    rw [hs.count]
    exact h
  unfold sshInit
  simp only [hlt, UInt32.lt_asymm hlt, if_true, if_false]
  exact ⟨trivial, rfl, rfl, hs.ctx1⟩

theorem Catching.committed (h : Catching x s (x.length .first)) :
    ∃ s', s.hardeningTask x.program = (s', .committed) ∧ s'.ctx1 = s.ctx1 ∧
      s'.ctx2 = (x.second (x.length .first)).copy2 x.program ∧ s'.cmpReg = true := by
  have hctx2 := h.user.copy2 (P := x.program)
  have hmem : x.program.cmpMem s.us1 s.us2 = true := by
    rw [h.user.us1, h.user.us2, (inSecond _).us1, (mirrors _).memory]
    exact x.program.cmpMem_self _
  unfold State.hardeningTask saveContext State.cmpStep State.cmpReg
  simp only [h.hStep, h.first, h.second, h.ctx1, hctx2, hmem, cmpReg_same, reduceCtorEq, if_false,
    if_true, ne_eq, not_true_eq_false, false_and, Bool.true_eq_false, or_self]
  exact ⟨_, rfl, rfl, rfl, cmpReg_same⟩

/-- It brings the runs together exactly if the second is behind, its count does not wrap, it does
not look finished early, and VM is not needed. -/
theorem catchesUp_iff_behind (x : Divergence M) : x.CatchesUp ↔ x.Behind := by
  constructor
  · rintro ⟨s0, s, s', hended, hsteps, hmapped, -, htask, hctx1, hctx2, hcmp⟩
    obtain ⟨hne, hdiffer, rfl⟩ := ended_stepping hended
    obtain hlt | hgt := (UInt32.lt_or_lt_of_ne hne)
    · obtain ⟨hcatch, -⟩ := catching_sshInit hlt
      obtain ⟨hframes, haparts, hlast⟩ := hcatch.of_steps hsteps
      have hsecond : x.shorter = .second := by
        rw [hlast.user.mapped, (inSecond _).mapped] at hmapped
        cases hr : x.shorter with
        | first => simp [hr, RunNr.frames] at hmapped
        | second => rfl
      have hfirst : x.length .first = x.n + x.k := by simp [length, hsecond]
      have hlength : x.length .second = x.n := by simp [length, hsecond]
      simp only [hlength, hfirst, Apart] at hlt hdiffer hframes haparts
      refine ⟨hsecond, ?_, fun j hj => ?_, hframes⟩
      · -- if the counts wrapped around, they would have met before
        have hearly := haparts (x.k - 2 ^ 32)
        rw [Ne, insCount_eq_iff] at hearly
        rw [insCount_lt_iff] at hlt
        omega
      · obtain rfl | hpos := Nat.eq_zero_or_pos j
        · exact hdiffer
        · exact (haparts j hpos hj).2
    -- the first run is stepped, and compared with the context it began with
    obtain ⟨hstep, hmode, hus1, hbegan⟩ := firstStepping_sshInit hgt
    obtain ⟨hkept, hctx, hlast⟩ := steps_firstStepping hsteps hstep hmode
    have hfirst : x.shorter = .first := by
      rw [hkept, hus1] at hmapped
      cases hr : x.shorter with
      | first => rfl
      | second => simp [hr, RunNr.frames] at hmapped
    have hlength : x.length .second = x.n + x.k := by simp [length, hfirst]
    obtain ⟨hctx', -⟩ := hardeningTask_committed hlast htask
    unfold State.cmpReg at hcmp
    rw [hctx', hctx, hbegan, hctx2, ← hlength, hdiffer] at hcmp
    cases hcmp
  · rintro ⟨hsecond, hwrap, happart, hframe⟩
    have hk := x.k_pos
    have hfirst : x.length .first = x.n + x.k := by simp [length, hsecond]
    have hlength : x.length .second = x.n := by simp [length, hsecond]
    have hcounts (j : Nat) (hj : j < x.k) : insCount (x.n + j) ≠ insCount (x.n + x.k) := by
      rw [Ne, insCount_eq_iff]
      omega
    have haparts (j : Nat) (hj : j < x.k) : Apart x (x.n + j) := by
      unfold Apart
      rw [hfirst]
      exact ⟨hcounts j hj, happart j hj⟩
    have hlt : insCount (x.length .second) < insCount (x.length .first) := by
      rw [hfirst, hlength, insCount_lt_iff]
      omega
    obtain ⟨hcatch, hmf⟩ := catching_sshInit hlt
    have hended : x.ended = (x.compared.sshInit, .stepping) := by
      rw [ended_eq, if_pos]
      rw [hlength]
      exact haparts 0 hk
    rw [hlength] at hcatch
    have hend : x.n + (x.k - 1) + 1 = x.n + x.k := by omega
    obtain ⟨s, hsteps, hs⟩ := hcatch.steps (j := x.k - 1) hmf
      (fun i hi => hframe i (by omega))
      (fun i hi => by rw [Nat.add_assoc]; exact haparts (i + 1) (by omega))
      (by
        unfold Apart
        rw [hend, hfirst]
        simp)
    rw [hend] at hs
    rw [Nat.sub_add_cancel hk] at hsteps
    obtain ⟨s', htask, hctx1, hctx2, hcmp⟩ := (hfirst ▸ hs : Catching x s (x.length .first)).committed
    rw [hfirst] at hctx2
    refine ⟨_, s, s', hended, hsteps, ?_, ?_, htask, ?_, hctx2, hcmp⟩
    · rw [hs.user.mapped, (inSecond _).mapped, hsecond]
      rfl
    · rw [hs.first, hs.second, hfirst]
    · rw [hctx1, hs.ctx1, hfirst]

/-! ## A first run that ends early -/

def counting : Program Unit where
  exec c _ := ({ c with eip := c.eip + 1 }, ())
  fault _ _ := none
  cmpMem _ _ := true
  cmpMem_self _ := rfl
  kernelEsp := 0
  procPtr := 0

/-- The first run ends at the instruction at which the counter overflows, the second one
instruction later. -/
def firstEarly : Divergence Unit where
  program := counting
  start := default
  memory := ()
  saved := default
  cr := default
  shorter := .first
  n := 0x7270E00
  k := 1
  k_pos := Nat.one_pos

/-- The copy of the first run is not brought up to date while that run is stepped. -/
theorem first_run_not_caught_up : ¬ ∀ x : Divergence Unit, x.CatchesUp := by
  intro h
  have hbehind := (catchesUp_iff_behind firstEarly).mp (h firstEarly)
  exact absurd hbehind.second (by decide)

end Divergence

end HardenedMinix.Stepping
