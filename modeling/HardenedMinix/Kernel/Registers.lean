import Mathlib

/-!
# Register contexts of a processing element

The trap that ends a run saves some user registers in `p_reg` and some in the globals `eax_s` to
`esp_s`. `save_copy_1` and `save_copy_2` (`dwc.c`) copy both, `cmp_reg` compares the copies, and
the entry code goes on with those of the second run.
-/

namespace HardenedMinix

/-! ## Saved registers -/

/-- `struct stackframe_s`, without the unused `retadr`. -/
structure StackFrame where
  gs : UInt16
  fs : UInt16
  es : UInt16
  ds : UInt16
  di : UInt32
  si : UInt32
  fp : UInt32
  st : UInt32
  bx : UInt32
  dx : UInt32
  cx : UInt32
  retreg : UInt32
  pc : UInt32
  cs : UInt32
  psw : UInt32
  sp : UInt32
  ss : UInt32
  deriving DecidableEq, Repr, Inhabited

/-- The globals `eax_s`, `ebx_s`, ..., `esp_s` of `mpx.S`. -/
structure SavedRegs where
  eax : UInt32
  ebx : UInt32
  ecx : UInt32
  edx : UInt32
  esi : UInt32
  edi : UInt32
  ebp : UInt32
  esp : UInt32
  deriving DecidableEq, Repr, Inhabited

structure ControlRegs where
  cr0 : UInt32
  cr2 : UInt32
  cr3 : UInt32
  cr4 : UInt32
  deriving DecidableEq, Repr, Inhabited

/-- The registers of the CPU when user code traps. -/
structure CpuRegs where
  eax : UInt32
  ebx : UInt32
  ecx : UInt32
  edx : UInt32
  esi : UInt32
  edi : UInt32
  ebp : UInt32
  esp : UInt32
  eip : UInt32
  cs : UInt32
  eflags : UInt32
  deriving DecidableEq, Repr, Inhabited

/-- `p_kern_trap_style`. -/
inductive TrapStyle where
  | none
  | intHard
  | intOrig
  | intUm
  | fullContext
  | sysenter
  | syscall
  deriving DecidableEq, Repr, Inhabited

/-! ## Entry points -/

/-- The entry points through which a run of a processing element can end. -/
inductive Entry where
  | ipcEntrySysenter
  | ipcEntrySyscall
  | ipcEntrySoftintOrig
  | ipcEntrySoftintUm
  | kernelCallEntryOrig
  | kernelCallEntryUm
  | exceptionEntry
  | nmi
  | coprNotAvailable
  deriving DecidableEq, Repr, Inhabited

/-- `origin_syscall` as the entry point (for the NMI, `irh`) sets it. -/
def Entry.origin : Entry → Nat
  | .ipcEntrySysenter => 1
  | .ipcEntrySyscall => 1
  | .ipcEntrySoftintOrig => 2
  | .ipcEntrySoftintUm => 3
  | .kernelCallEntryOrig => 4
  | .kernelCallEntryUm => 5
  | .exceptionEntry => 6
  | .nmi => 7
  | .coprNotAvailable => 8

/-- The trap style the entry point records in the process. -/
def Entry.trapStyle : Entry → TrapStyle
  | .ipcEntrySysenter => .sysenter
  | .ipcEntrySyscall => .syscall
  | .ipcEntrySoftintOrig => .intOrig
  | .ipcEntrySoftintUm => .intUm
  | .kernelCallEntryOrig => .intOrig
  | .kernelCallEntryUm => .intUm
  | .exceptionEntry => .intHard
  | .nmi => .intHard
  | .coprNotAvailable => .intHard

/-- A trap: its entry point, the registers of the CPU, and what the entry code overwrites. -/
structure Trap where
  entry : Entry
  cpu : CpuRegs
  usermappedOffset : UInt32
  /-- The kernel stack pointer and the process pointer at the moment of saving. -/
  kernelEsp : UInt32
  procPtr : UInt32
  /-- `p_reg` before the trap. -/
  preg : StackFrame
  /-- The globals `eax_s`, ... before the trap. -/
  saved : SavedRegs
  cr : ControlRegs
  /-- `pagefault_addr_1` or `pagefault_addr_2`. -/
  pagefaultAddr : Nat
  deriving DecidableEq, Repr, Inhabited

/-- The general registers, the frame pointer and the trap frame go to `p_reg`. -/
def saveProcessCtx (r : StackFrame) (c : CpuRegs) : StackFrame :=
  { r with
    retreg := c.eax
    cx := c.ecx
    dx := c.edx
    bx := c.ebx
    si := c.esi
    di := c.edi
    fp := c.ebp
    pc := c.eip
    cs := c.cs
    psw := c.eflags
    sp := c.esp
    st := c.esp }

/-- `SYSENTER` leaves the return address in `%edx` and the stack in `%esi`; after `SYSCALL` the
entry code makes it so. -/
def Trap.common (t : Trap) : CpuRegs :=
  match t.entry with
  | .ipcEntrySyscall => { t.cpu with ecx := t.cpu.edx, edx := t.cpu.ecx, esi := t.cpu.esp }
  | _ => { t.cpu with edx := t.cpu.edx + t.usermappedOffset }

/-- `p_reg` and the `*_s` globals as the entry code leaves them. -/
def Trap.enter (t : Trap) : StackFrame × SavedRegs :=
  match t.entry with
  | .ipcEntrySysenter | .ipcEntrySyscall =>
    let c := t.common
    -- `%edx` is overwritten by the flags before the globals are written
    ({ t.preg with sp := c.esi, pc := c.edx, psw := c.eflags },
      { eax := c.eax, ebx := c.ebx, ecx := c.ecx, edx := c.eflags, esi := c.esi, edi := c.edi,
        ebp := t.procPtr, esp := t.kernelEsp })
  | .ipcEntrySoftintOrig | .ipcEntrySoftintUm | .kernelCallEntryOrig | .kernelCallEntryUm =>
    -- `SAVE_PROCESS_CTX` leaves the user stack pointer in `%esi`
    (saveProcessCtx t.preg t.cpu,
      { eax := t.cpu.eax, ebx := t.cpu.ebx, ecx := t.cpu.ecx, edx := t.cpu.edx,
        esi := t.cpu.esp, edi := t.cpu.edi, ebp := t.procPtr, esp := t.kernelEsp })
  | .exceptionEntry | .nmi | .coprNotAvailable =>
    -- only `esp_s` and `ebp_s` are written; the raw registers `save_reg_1` and `save_reg_2`
    -- put in `eax_s1`, ... are overwritten by `save_copy_1` and `save_copy_2`
    (saveProcessCtx t.preg t.cpu, { t.saved with ebp := t.procPtr, esp := t.kernelEsp })

/-! ## The two copies and their comparison -/

/-- The copy of a context taken at the end of a run (`gs_1`, ..., `cr4_1`). -/
structure RunCtx where
  reg : StackFrame
  origin : Nat
  s : SavedRegs
  cr : ControlRegs
  pagefaultAddr : Nat
  deriving DecidableEq, Repr, Inhabited

/-- The copy of `st` is taken from `ss`. -/
def saveCopy1 (t : Trap) : RunCtx :=
  { reg := { t.enter.1 with st := t.enter.1.ss }
    origin := t.entry.origin
    s := t.enter.2
    cr := t.cr
    pagefaultAddr := t.pagefaultAddr }

def saveCopy2 (t : Trap) : RunCtx :=
  { reg := t.enter.1
    origin := t.entry.origin
    s := t.enter.2
    cr := t.cr
    pagefaultAddr := t.pagefaultAddr }

/-- `case 1` of `cmp_reg`. -/
def cmpRegSysenter (c₁ c₂ : RunCtx) : Bool :=
  c₁.reg.pc == c₂.reg.pc && c₁.reg.psw == c₂.reg.psw && c₁.reg.sp == c₂.reg.sp &&
    c₁.origin == c₂.origin

/-- `case 2` of `cmp_reg`. -/
def cmpRegSoftint (c₁ c₂ : RunCtx) : Bool :=
  c₁.reg.di == c₂.reg.di && c₁.reg.si == c₂.reg.si && c₁.reg.fp == c₂.reg.fp &&
    c₁.reg.bx == c₂.reg.bx && c₁.reg.dx == c₂.reg.dx && c₁.reg.cx == c₂.reg.cx &&
    c₁.reg.retreg == c₂.reg.retreg && c₁.reg.pc == c₂.reg.pc && c₁.reg.cs == c₂.reg.cs &&
    c₁.reg.psw == c₂.reg.psw && c₁.reg.sp == c₂.reg.sp && c₁.origin == c₂.origin

/-- `default` of `cmp_reg`. -/
def cmpRegDefault (c₁ c₂ : RunCtx) : Bool :=
  c₁.reg.gs == c₂.reg.gs && c₁.reg.fs == c₂.reg.fs && c₁.reg.es == c₂.reg.es &&
    c₁.reg.ds == c₂.reg.ds && c₁.reg.di == c₂.reg.di && c₁.reg.si == c₂.reg.si &&
    c₁.reg.fp == c₂.reg.fp && c₁.reg.bx == c₂.reg.bx && c₁.reg.dx == c₂.reg.dx &&
    c₁.reg.cx == c₂.reg.cx && c₁.reg.retreg == c₂.reg.retreg && c₁.reg.pc == c₂.reg.pc &&
    c₁.reg.cs == c₂.reg.cs && c₁.reg.psw == c₂.reg.psw && c₁.reg.sp == c₂.reg.sp &&
    c₁.reg.ss == c₂.reg.ss && c₁.origin == c₂.origin && c₁.s.eax == c₂.s.eax &&
    c₁.s.ebx == c₂.s.ebx && c₁.s.ecx == c₂.s.ecx && c₁.s.edx == c₂.s.edx &&
    c₁.s.esi == c₂.s.esi && c₁.s.edi == c₂.s.edi && c₁.s.esp == c₂.s.esp &&
    c₁.s.ebp == c₂.s.ebp && c₁.pagefaultAddr == c₂.pagefaultAddr && c₁.cr == c₂.cr

/-- `cmp_reg`, with `origin_syscall` as the second trap left it. -/
def cmpReg (originSyscall : Nat) (c₁ c₂ : RunCtx) : Bool :=
  if originSyscall = 1 then cmpRegSysenter c₁ c₂
  else if originSyscall = 2 then cmpRegSoftint c₁ c₂
  else cmpRegDefault c₁ c₂

/-- `cmp_reg` at the end of a processing element whose runs ended in `t₁` and `t₂`. -/
def cmpTraps (t₁ t₂ : Trap) : Bool :=
  cmpReg t₂.entry.origin (saveCopy1 t₁) (saveCopy2 t₂)

/-! ## What the comparison covers -/

/-- What the entry code goes on with after the commit (`p_reg` and the registers reloaded at
`hardening_task_2_entry`) is that of the first run. -/
def SameCommitted (t₁ t₂ : Trap) : Prop :=
  t₁.enter.1 = t₂.enter.1 ∧
    t₁.enter.2.eax = t₂.enter.2.eax ∧ t₁.enter.2.ebx = t₂.enter.2.ebx ∧
    t₁.enter.2.ecx = t₂.enter.2.ecx ∧ t₁.enter.2.edx = t₂.enter.2.edx ∧
    t₁.enter.2.esi = t₂.enter.2.esi ∧ t₁.enter.2.edi = t₂.enter.2.edi

/-- The segment fields of `p_reg`, which no entry point writes. -/
def SameSegments (r₁ r₂ : StackFrame) : Prop :=
  r₁.gs = r₂.gs ∧ r₁.fs = r₂.fs ∧ r₁.es = r₂.es ∧ r₁.ds = r₂.ds ∧ r₁.ss = r₂.ss

/-- The fields of `p_reg` that a `SYSENTER` or `SYSCALL` entry leaves alone. -/
def SameUntouched (r₁ r₂ : StackFrame) : Prop :=
  SameSegments r₁ r₂ ∧ r₁.di = r₂.di ∧ r₁.si = r₂.si ∧ r₁.fp = r₂.fp ∧ r₁.st = r₂.st ∧
    r₁.bx = r₂.bx ∧ r₁.dx = r₂.dx ∧ r₁.cx = r₂.cx ∧ r₁.retreg = r₂.retreg ∧ r₁.cs = r₂.cs

/-- What `cmp_reg` leaves to chance: for `SYSENTER` the call and all of `p_reg` but `pc`, `psw` and
`sp`, for a software interrupt the segments. -/
def UncheckedAgree (t₁ t₂ : Trap) : Prop :=
  match t₂.entry.origin with
  | 1 =>
    t₁.common.eax = t₂.common.eax ∧ t₁.common.ebx = t₂.common.ebx ∧
      t₁.common.ecx = t₂.common.ecx ∧ t₁.common.edi = t₂.common.edi ∧
      SameUntouched t₁.preg t₂.preg
  | 2 => SameSegments t₁.preg t₂.preg
  | _ => True

variable {t₁ t₂ : Trap}

theorem cmpTraps_origin (h : cmpTraps t₁ t₂ = true) : t₁.entry.origin = t₂.entry.origin := by
  unfold cmpTraps cmpReg at h
  split_ifs at h
  · simp only [cmpRegSysenter, Bool.and_eq_true, beq_iff_eq] at h
    exact h.2
  · simp only [cmpRegSoftint, Bool.and_eq_true, beq_iff_eq] at h
    exact h.2
  · simp only [cmpRegDefault, Bool.and_eq_true, beq_iff_eq] at h
    exact h.1.1.1.1.1.1.1.1.1.1.2

private theorem sameCommitted_of_origin_one (h₂ : t₂.entry.origin = 1)
    (h : cmpTraps t₁ t₂ = true) : SameCommitted t₁ t₂ ↔ UncheckedAgree t₁ t₂ := by
  have h1 : t₁.entry.origin = 1 := (cmpTraps_origin h).trans h₂
  have ent (t : Trap) (ht : t.entry.origin = 1) :
      t.enter = ({ t.preg with sp := t.common.esi, pc := t.common.edx, psw := t.common.eflags },
        { eax := t.common.eax, ebx := t.common.ebx, ecx := t.common.ecx, edx := t.common.eflags,
          esi := t.common.esi, edi := t.common.edi, ebp := t.procPtr, esp := t.kernelEsp }) := by
    cases he : t.entry <;> simp [he, Entry.origin] at ht <;> simp [Trap.enter, he]
  rw [cmpTraps, cmpReg, if_pos h₂] at h
  simp only [cmpRegSysenter, saveCopy1, saveCopy2, ent t₁ h1, ent t₂ h₂, Bool.and_eq_true,
    beq_iff_eq] at h
  obtain ⟨⟨⟨hpc, hpsw⟩, hsp⟩, -⟩ := h
  simp only [SameCommitted, UncheckedAgree, SameUntouched, SameSegments, h₂, ent t₁ h1, ent t₂ h₂,
    StackFrame.mk.injEq, hpc, hpsw, hsp, true_and]
  constructor
  · rintro ⟨⟨hgs, hfs, hes, hds, hdi, hsi, hfp, hst, hbx, hdx, hcx, hret, hcs, hss⟩,
      heax, hebx, hecx, hedi⟩
    exact ⟨heax, hebx, hecx, hedi, ⟨hgs, hfs, hes, hds, hss⟩, hdi, hsi, hfp, hst, hbx, hdx, hcx,
      hret, hcs⟩
  · rintro ⟨heax, hebx, hecx, hedi, ⟨hgs, hfs, hes, hds, hss⟩, hdi, hsi, hfp, hst, hbx, hdx, hcx,
      hret, hcs⟩
    exact ⟨⟨hgs, hfs, hes, hds, hdi, hsi, hfp, hst, hbx, hdx, hcx, hret, hcs, hss⟩,
      heax, hebx, hecx, hedi⟩

private theorem saveProcessCtx_eq_iff {r₁ r₂ : StackFrame} {c₁ c₂ : CpuRegs} :
    saveProcessCtx r₁ c₁ = saveProcessCtx r₂ c₂ ↔
      SameSegments r₁ r₂ ∧ c₁.edi = c₂.edi ∧ c₁.esi = c₂.esi ∧ c₁.ebp = c₂.ebp ∧
        c₁.esp = c₂.esp ∧ c₁.ebx = c₂.ebx ∧ c₁.edx = c₂.edx ∧ c₁.ecx = c₂.ecx ∧
        c₁.eax = c₂.eax ∧ c₁.eip = c₂.eip ∧ c₁.cs = c₂.cs ∧ c₁.eflags = c₂.eflags := by
  simp only [saveProcessCtx, StackFrame.mk.injEq, SameSegments]
  constructor
  · rintro ⟨hgs, hfs, hes, hds, hdi, hsi, hfp, -, hbx, hdx, hcx, hret, hpc, hcs, hpsw, hsp, hss⟩
    exact ⟨⟨hgs, hfs, hes, hds, hss⟩, hdi, hsi, hfp, hsp, hbx, hdx, hcx, hret, hpc, hcs, hpsw⟩
  · rintro ⟨⟨hgs, hfs, hes, hds, hss⟩, hdi, hsi, hfp, hsp, hbx, hdx, hcx, hret, hpc, hcs, hpsw⟩
    exact ⟨hgs, hfs, hes, hds, hdi, hsi, hfp, hsp, hbx, hdx, hcx, hret, hpc, hcs, hpsw, hsp, hss⟩

private theorem sameCommitted_of_origin_two (h₂ : t₂.entry.origin = 2)
    (h : cmpTraps t₁ t₂ = true) : SameCommitted t₁ t₂ ↔ UncheckedAgree t₁ t₂ := by
  have ent (t : Trap) (ht : t.entry.origin = 2) : t.entry = .ipcEntrySoftintOrig := by
    cases he : t.entry <;> simp [he, Entry.origin] at ht ⊢
  have he1 := ent t₁ ((cmpTraps_origin h).trans h₂)
  have he2 := ent t₂ h₂
  rw [cmpTraps, cmpReg, h₂, if_neg (by decide), if_pos rfl] at h
  simp only [cmpRegSoftint, saveCopy1, saveCopy2, Trap.enter, he1, he2, Bool.and_eq_true,
    beq_iff_eq] at h
  simp only [saveProcessCtx] at h
  obtain ⟨⟨⟨⟨⟨⟨⟨⟨⟨⟨⟨hdi, hsi⟩, hfp⟩, hbx⟩, hdx⟩, hcx⟩, hret⟩, hpc⟩, hcs⟩, hpsw⟩, hsp⟩, -⟩ := h
  simp only [SameCommitted, UncheckedAgree, Entry.origin, Trap.enter, he1, he2, saveProcessCtx_eq_iff,
    hdi, hsi, hfp, hbx, hdx, hcx, hret, hpc, hcs, hpsw, hsp, and_self, and_true]

private theorem sameCommitted_of_origin_ge_three (h₂ : 3 ≤ t₂.entry.origin)
    (h : cmpTraps t₁ t₂ = true) : SameCommitted t₁ t₂ := by
  have horigin := cmpTraps_origin h
  have h1 : t₂.entry.origin ≠ 1 := by omega
  have h2 : t₂.entry.origin ≠ 2 := by omega
  have ent (t : Trap) (ht : 3 ≤ t.entry.origin) :
      t.enter.1 = saveProcessCtx t.preg t.cpu := by
    cases he : t.entry <;> simp [he, Entry.origin] at ht <;> simp [Trap.enter, he]
  rw [cmpTraps, cmpReg, if_neg h1, if_neg h2] at h
  simp only [cmpRegDefault, saveCopy1, saveCopy2, ent t₁ (horigin ▸ h₂), ent t₂ h₂,
    Bool.and_eq_true, beq_iff_eq] at h
  simp only [saveProcessCtx] at h
  obtain ⟨⟨⟨⟨⟨⟨⟨⟨⟨⟨⟨⟨⟨⟨⟨⟨⟨⟨⟨⟨⟨⟨⟨⟨⟨⟨hgs, hfs⟩, hes⟩, hds⟩, hdi⟩, hsi⟩, hfp⟩, hbx⟩, hdx⟩, hcx⟩, hret⟩,
    hpc⟩, hcs⟩, hpsw⟩, hsp⟩, hss⟩, -⟩, heax⟩, hebx⟩, hecx⟩, hedx⟩, hesi⟩, hedi⟩, -⟩, -⟩, -⟩, -⟩ := h
  simp only [SameCommitted, ent t₁ (horigin ▸ h₂), ent t₂ h₂, saveProcessCtx_eq_iff, SameSegments]
  exact ⟨⟨⟨hgs, hfs, hes, hds, hss⟩, hdi, hsi, hfp, hsp, hbx, hdx, hcx, hret, hpc, hcs, hpsw⟩,
    heax, hebx, hecx, hedx, hesi, hedi⟩

/-- When `cmp_reg` is true, the values taken are those of the first run exactly if those it does not
look at agree. -/
theorem sameCommitted_iff_uncheckedAgree {t₁ t₂ : Trap} (h : cmpTraps t₁ t₂ = true) :
    SameCommitted t₁ t₂ ↔ UncheckedAgree t₁ t₂ := by
  by_cases h1 : t₂.entry.origin = 1
  · exact sameCommitted_of_origin_one h1 h
  by_cases h2 : t₂.entry.origin = 2
  · exact sameCommitted_of_origin_two h2 h
  have hpos : 3 ≤ t₂.entry.origin := by
    cases he : t₂.entry <;> simp [he, Entry.origin] at h1 h2 ⊢
  have hun : UncheckedAgree t₁ t₂ := by
    unfold UncheckedAgree
    split <;> first | contradiction | trivial
  exact iff_of_true (sameCommitted_of_origin_ge_three hpos h) hun

/-- A page fault at the same place in both runs. -/
theorem sameCommitted_exception : cmpTraps { (default : Trap) with entry := .exceptionEntry }
        { (default : Trap) with entry := .exceptionEntry } = true ∧
      SameCommitted { (default : Trap) with entry := .exceptionEntry }
        { (default : Trap) with entry := .exceptionEntry } :=
  ⟨by decide, (sameCommitted_iff_uncheckedAgree (by decide)).mpr trivial⟩

/-- Two `SYSENTER` traps for different calls (`%ecx`) on different messages (`%ebx`): the second one
is carried out. -/
theorem cmpTraps_misses_call_arguments :
    ¬ ∀ t₁ t₂ : Trap, cmpTraps t₁ t₂ = true → SameCommitted t₁ t₂ := by
  intro h
  have hcommit := h { (default : Trap) with entry := .ipcEntrySysenter }
    { (default : Trap) with
      entry := .ipcEntrySysenter
      cpu := { (default : CpuRegs) with ebx := 0x8000, ecx := 3 } } (by decide)
  have hebx := hcommit.2.2.1
  revert hebx
  decide

end HardenedMinix
