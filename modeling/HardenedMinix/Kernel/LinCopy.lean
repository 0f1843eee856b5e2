import HardenedMinix.Kernel.Vumap

/-!
# Copying through windows

`createpde`, `lin_lin_copy` and `lin_lin_cmp` of `memory.c`. The page tables are in physical
memory; the kernel may not write to a page that is not writable (`CR0_WP` is set). A process that
is not current is seen through a window of 4 MB.
-/

open List

namespace HardenedMinix.LinCopy

open Vumap (wrap wrap_wrap_add i386PageSize i386VmPresent i386VmBigpage i386VmAddrMask4mb
  i386VmOffsetMask4mb)

/-! ## Memory and page tables -/

abbrev Memory := Nat → UInt8

namespace Memory

def word (a : Nat) : List Nat := [a, a + 1, a + 2, a + 3]

def get32 (m : Memory) (a : Nat) : Nat :=
  (m a).toNat + 2 ^ 8 * (m (a + 1)).toNat + 2 ^ 16 * (m (a + 2)).toNat + 2 ^ 24 * (m (a + 3)).toNat

def put32 (m : Memory) (a v : Nat) : Memory := fun b =>
  if a ≤ b ∧ b < a + 4 then UInt8.ofNat (v / 2 ^ (8 * (b - a))) else m b

/-- Where the entry `pde` of a page directory leads, with the `offset` in the 4 MB, and whether it
can be written. -/
def walkEntry (m : Memory) (pde offset : Nat) : Option (Nat × Bool) :=
  if pde.testBit 0 = false then none
  else if pde.testBit 7 then some (pde / 2 ^ 22 * 2 ^ 22 + offset, pde.testBit 1)
  else
    let pte := m.get32 (pde / 2 ^ 12 * 2 ^ 12 + 4 * (offset / 2 ^ 12))
    if pte.testBit 0 = false then none
    else some (pte / 2 ^ 12 * 2 ^ 12 + offset % 2 ^ 12, pde.testBit 1 && pte.testBit 1)

/-- The translation of an address by the page directory at `dir`. -/
def walk (m : Memory) (dir lin : Nat) : Option (Nat × Bool) :=
  m.walkEntry (m.get32 (dir + 4 * (lin / 2 ^ 22))) (lin % 2 ^ 22)

end Memory

/-- What an access finds: none is a page fault. -/
def reach (write : Bool) : Option (Nat × Bool) → Option Nat
  | none => none
  | some (p, writable) => if write && !writable then none else some p

/-- `struct proc *`: `NULL` for physical memory, a kernel task, or a process with page tables. -/
inductive Space
  | phys
  | kernel
  | proc (p : Nat)
  deriving DecidableEq, Repr

/-- The page directories (`p_cr3`), the process whose directory is loaded, and the two `freepdes`.
-/
structure Cpu where
  cr3 : Nat → Nat
  ptproc : Nat
  freepde : Nat
  freepde_pos : 0 < freepde
  freepde_lt : freepde + 2 < 1024

namespace Cpu

variable (c : Cpu)

def dir : Nat := c.cr3 c.ptproc

/-- The address of an entry of the current page directory. -/
def entry (pde : Nat) : Nat := c.dir + 4 * pde

/-- `pr == ptproc || iskernelp(pr)`. -/
def direct : Space → Bool
  | .phys => false
  | .kernel => true
  | .proc p => p == c.ptproc

/-- The page directory of a space; the kernel is in every one. -/
def dirOf : Space → Nat
  | .phys => 0
  | .kernel => c.dir
  | .proc p => c.cr3 p

/-! ## The code -/

def i386BigPageSize : Nat := 0x400000
def i386VmWrite : Nat := 0x002
def i386VmUser : Nat := 0x004

/-- The memory after `createpde`, `*bytes` and the address that is returned. -/
structure Window where
  mem : Memory
  bytes : Nat
  ptr : Nat

/-- The entry that shows the 4 MB at `linaddr`. -/
def pdeval (m : Memory) (linaddr : Nat) : Space → Nat
  | .phys => (linaddr &&& i386VmAddrMask4mb) ||| i386VmBigpage ||| i386VmPresent ||| i386VmWrite ||| i386VmUser
  | pr => m.get32 (c.dirOf pr + 4 * (linaddr >>> 22))

def createpde (m : Memory) (pr : Space) (linaddr bytes pde : Nat) : Window :=
  if c.direct pr then ⟨m, bytes, linaddr⟩
  else
    let pdeval := c.pdeval m linaddr pr
    let offset := linaddr &&& i386VmOffsetMask4mb
    { mem := if m.get32 (c.entry pde) ≠ pdeval then m.put32 (c.entry pde) pdeval else m
      bytes := min bytes (i386BigPageSize - offset)
      ptr := i386BigPageSize * pde + offset }

end Cpu

/-- The physical addresses of an access to `n` bytes, or the address of a page fault. -/
def Memory.locate (m : Memory) (dir : Nat) (write : Bool) : Nat → Nat → Except Nat (List Nat)
  | _, 0 => .ok []
  | a, n + 1 =>
    match reach write (m.walk dir (wrap a)) with
    | none => .error (wrap a)
    | some p => (m.locate dir write (a + 1) n).map (p :: ·)

def Memory.store (m : Memory) : List (Nat × UInt8) → Memory
  | [] => m
  | (p, b) :: rest => Memory.store (Function.update m p b) rest

/-- One step of `rep movsb` or `rep movsl`. -/
def Memory.movs (m : Memory) (dir src dst n : Nat) : Except Nat Memory :=
  match m.locate dir false src n with
  | .error a => .error a
  | .ok from' =>
    match m.locate dir true dst n with
    | .error a => .error a
    | .ok to' => .ok (m.store (to'.zip (from'.map m)))

/-- The steps of `phys_copy`, by their sizes: the source is aligned, unless there are few bytes. -/
def movsSizes (src count : Nat) : List Nat :=
  if count < 10 then List.replicate count 1
  else
    let align := (2 ^ 32 - wrap src) % 4
    List.replicate align 1 ++ (List.replicate ((count - align) / 4) 4 ++ List.replicate ((count - align) % 4) 1)

/-- The steps one after the other, until the first page fault; 0 means: no fault. -/
def Memory.movsAll (m : Memory) (dir : Nat) : Nat → Nat → List Nat → Memory × Nat
  | _, _, [] => (m, 0)
  | src, dst, n :: rest =>
    match m.movs dir src dst n with
    | .error a => (m, a)
    | .ok m' => m'.movsAll dir (src + n) (dst + n) rest

/-- `phys_copy`, with the page faults caught. -/
def Memory.physCopy (m : Memory) (dir src dst count : Nat) : Memory × Nat :=
  m.movsAll dir src dst (movsSizes src count)

/-- Whether the bytes differ; none is a page fault, which nothing catches. -/
def Memory.physCmp (m : Memory) (dir : Nat) : Nat → Nat → Nat → Option Bool
  | _, _, 0 => some false
  | a, b, n + 1 =>
    match reach false (m.walk dir (wrap a)), reach false (m.walk dir (wrap b)) with
    | some p, some q => if m p ≠ m q then some true else m.physCmp dir (a + 1) (b + 1) n
    | _, _ => none

inductive Status
  | ok
  | efault
  | efaultSrc
  | efaultDst
  | panic
  deriving DecidableEq, Repr

/-- The range check of a fault at `addr`. -/
def faultStatus (addr srcptr dstptr chunk : Nat) : Status :=
  if srcptr ≤ addr ∧ addr < wrap (srcptr + chunk) then .efaultSrc
  else if dstptr ≤ addr ∧ addr < wrap (dstptr + chunk) then .efaultDst
  else .panic

namespace Cpu

variable (c : Cpu)

theorem bytes_createpde (m : Memory) (pr : Space) (linaddr bytes pde : Nat) :
    (c.createpde m pr linaddr bytes pde).bytes =
      if c.direct pr then bytes else min bytes (2 ^ 22 - linaddr % 2 ^ 22) := by
  have hoffset : linaddr &&& i386VmOffsetMask4mb = linaddr % 2 ^ 22 := Nat.and_two_pow_sub_one_eq_mod linaddr 22
  unfold createpde
  split
  · rfl
  · dsimp only
    rw [hoffset]
    rfl

theorem bytes_createpde_bounds (m : Memory) (pr : Space) (linaddr pde : Nat) {bytes : Nat} (hbytes : 0 < bytes) :
    0 < (c.createpde m pr linaddr bytes pde).bytes ∧ (c.createpde m pr linaddr bytes pde).bytes ≤ bytes := by
  have hlt := Nat.mod_lt linaddr (Nat.two_pow_pos 22)
  rw [bytes_createpde]
  split <;> omega

def windows (m : Memory) (srcproc : Space) (src : Nat) (dstproc : Space) (dst bytes : Nat) : Window × Window :=
  let s := c.createpde m srcproc src bytes c.freepde
  (s, c.createpde s.mem dstproc dst s.bytes (c.freepde + 1))

theorem windows_bounds (m : Memory) (srcproc : Space) (src : Nat) (dstproc : Space) (dst : Nat) {bytes : Nat}
    (hbytes : 0 < bytes) :
    0 < (c.windows m srcproc src dstproc dst bytes).2.bytes ∧
      (c.windows m srcproc src dstproc dst bytes).2.bytes ≤ (c.windows m srcproc src dstproc dst bytes).1.bytes ∧
      (c.windows m srcproc src dstproc dst bytes).1.bytes ≤ bytes := by
  obtain ⟨hpos, hle⟩ := c.bytes_createpde_bounds m srcproc src c.freepde hbytes
  obtain ⟨hpos', hle'⟩ := c.bytes_createpde_bounds (c.createpde m srcproc src bytes c.freepde).mem dstproc dst
    (c.freepde + 1) hpos
  exact ⟨hpos', hle', hle⟩

def linLinCopy (m : Memory) (srcproc : Space) (src : Nat) (dstproc : Space) (dst bytes : Nat) : Memory × Status :=
  if bytes = 0 then (m, .ok)
  else
    let w := c.windows m srcproc src dstproc dst bytes
    let chunk := w.2.bytes
    let res := w.2.mem.physCopy c.dir w.1.ptr w.2.ptr chunk
    if res.2 ≠ 0 then (res.1, faultStatus res.2 w.1.ptr w.2.ptr chunk)
    else linLinCopy res.1 srcproc (wrap (src + chunk)) dstproc (wrap (dst + chunk)) (bytes - chunk)
termination_by bytes
decreasing_by
  have hbounds := c.windows_bounds m srcproc src dstproc dst (Nat.pos_of_ne_zero ‹_›)
  omega

/-- None is a page fault in the kernel. -/
def linLinCmp (m : Memory) (srcproc : Space) (src : Nat) (dstproc : Space) (dst bytes : Nat) (r : Status) :
    Option (Memory × Status) :=
  if bytes = 0 then some (m, r)
  else
    let w := c.windows m srcproc src dstproc dst bytes
    let chunk := w.2.bytes
    match w.2.mem.physCmp c.dir w.1.ptr w.2.ptr chunk with
    | none => none
    | some differ =>
      linLinCmp w.2.mem srcproc (wrap (src + chunk)) dstproc (wrap (dst + chunk)) (bytes - chunk)
        (if differ then .efault else r)
termination_by bytes
decreasing_by
  have hbounds := c.windows_bounds m srcproc src dstproc dst (Nat.pos_of_ne_zero ‹_›)
  omega

def cmpFrames (m : Memory) (frame1 frame2 : Nat) : Option (Memory × Status) :=
  (c.linLinCmp m .phys frame1 .phys frame2 i386PageSize .ok).map fun r =>
    (r.1, if r.2 ≠ .ok then .efault else .ok)

def cpyFrames (m : Memory) (src dst : Nat) : Memory × Status :=
  let r := c.linLinCopy m .phys src .phys dst i386PageSize
  (r.1, if r.2 ≠ .ok then .efault else .ok)

end Cpu

/-! ## Words and translations -/

namespace Memory

variable {m m' : Memory} {a v pde offset dir lin : Nat}

theorem get32_congr (h : ∀ b ∈ word a, m' b = m b) : m'.get32 a = m.get32 a := by
  unfold word at h
  unfold get32
  rw [h a (by simp), h (a + 1) (by simp), h (a + 2) (by simp), h (a + 3) (by simp)]

/-- The bytes of the page table in which `walkEntry` looks. -/
def entryReads (pde offset : Nat) : List Nat :=
  if pde.testBit 0 && !pde.testBit 7 then word (pde / 2 ^ 12 * 2 ^ 12 + 4 * (offset / 2 ^ 12)) else []

theorem walkEntry_congr (h : ∀ b ∈ entryReads pde offset, m' b = m b) :
    m'.walkEntry pde offset = m.walkEntry pde offset := by
  unfold entryReads at h
  unfold walkEntry
  cases hpresent : pde.testBit 0 with
  | false => rfl
  | true =>
    cases hbig : pde.testBit 7 with
    | true => rfl
    | false =>
      rw [hpresent, hbig] at h
      rw [get32_congr h]

end Memory

namespace Cpu

variable {c : Cpu} {m m' : Memory} {lin : Nat} {pr : Space}

/-- The translation of an address of a space. -/
def translate (c : Cpu) (m : Memory) (lin : Nat) : Space → Option (Nat × Bool)
  | .phys => some (lin, true)
  | pr => m.walk (c.dirOf pr) lin

/-- The bytes of page directories and page tables that a translation depends on. -/
def reads (c : Cpu) (m : Memory) (lin : Nat) : Space → List Nat
  | .phys => []
  | pr =>
    Memory.word (c.dirOf pr + 4 * (lin / 2 ^ 22)) ++
      Memory.entryReads (m.get32 (c.dirOf pr + 4 * (lin / 2 ^ 22))) (lin % 2 ^ 22)

theorem pdeval_phys (c : Cpu) (m : Memory) (hlin : lin < 2 ^ 32) :
    (c.pdeval m lin .phys).testBit 0 = true ∧ (c.pdeval m lin .phys).testBit 1 = true ∧
      (c.pdeval m lin .phys).testBit 7 = true ∧ c.pdeval m lin .phys / 2 ^ 22 = lin / 2 ^ 22 ∧
      c.pdeval m lin .phys < 2 ^ 32 := by
  unfold pdeval
  refine ⟨?_, ?_, ?_, ?_, ?_⟩
  · rw [Nat.testBit_or, Nat.testBit_or, Nat.testBit_or]
    simp [i386VmPresent]
  · rw [Nat.testBit_or, Nat.testBit_or]
    have hbit : Nat.testBit i386VmWrite 1 = true := by decide
    simp [hbit]
  · rw [Nat.testBit_or, Nat.testBit_or, Nat.testBit_or, Nat.testBit_or]
    have hbit : Nat.testBit i386VmBigpage 7 = true := by decide
    simp [hbit]
  · have hhigh : lin >>> 22 < 2 ^ 10 := by
      rw [Nat.shiftRight_eq_div_pow]
      omega
    rw [← Nat.shiftRight_eq_div_pow, ← Nat.shiftRight_eq_div_pow]
    simp only [Nat.shiftRight_or_distrib, Nat.shiftRight_and_distrib]
    have hmask : i386VmAddrMask4mb >>> 22 = 2 ^ 10 - 1 := by decide
    have hlow : i386VmBigpage >>> 22 = 0 ∧ i386VmPresent >>> 22 = 0 ∧ i386VmWrite >>> 22 = 0 ∧ i386VmUser >>> 22 = 0 := by
      decide
    rw [hmask, Nat.and_two_pow_sub_one_eq_mod, Nat.mod_eq_of_lt hhigh]
    simp [hlow]
  · refine Nat.or_lt_two_pow (Nat.or_lt_two_pow (Nat.or_lt_two_pow (Nat.or_lt_two_pow ?_ ?_) ?_) ?_) ?_
    · exact lt_of_le_of_lt Nat.and_le_left hlin
    all_goals decide

theorem walkEntry_pdeval {lin' : Nat} (hlin : lin < 2 ^ 32) (hdiv : lin' / 2 ^ 22 = lin / 2 ^ 22) :
    m.walkEntry (c.pdeval m lin pr) (lin' % 2 ^ 22) = c.translate m lin' pr := by
  have hwalk (dir : Nat) : m.walkEntry (m.get32 (dir + 4 * (lin >>> 22))) (lin' % 2 ^ 22) = m.walk dir lin' := by
    rw [Nat.shiftRight_eq_div_pow, ← hdiv]
    rfl
  cases pr with
  | phys =>
    obtain ⟨hpresent, hwrite, hbig, hdiv', -⟩ := pdeval_phys c m hlin
    unfold Memory.walkEntry translate
    rw [if_neg (by rw [hpresent]; decide), if_pos hbig, hwrite, hdiv', ← hdiv, Nat.div_add_mod']
  | kernel => exact hwalk _
  | proc p => exact hwalk _

theorem entryReads_pdeval {lin' : Nat} (hlin : lin < 2 ^ 32) (hdiv : lin' / 2 ^ 22 = lin / 2 ^ 22) {a : Nat}
    (ha : a ∈ Memory.entryReads (c.pdeval m lin pr) (lin' % 2 ^ 22)) : a ∈ c.reads m lin' pr := by
  cases pr with
  | phys =>
    obtain ⟨-, -, hbig, -⟩ := pdeval_phys c m hlin
    unfold Memory.entryReads at ha
    rw [hbig, Bool.not_true, Bool.and_false] at ha
    exact absurd ha (not_mem_nil)
  | kernel =>
    unfold pdeval at ha
    rw [Nat.shiftRight_eq_div_pow, ← hdiv] at ha
    exact mem_append_right _ ha
  | proc p =>
    unfold pdeval at ha
    rw [Nat.shiftRight_eq_div_pow, ← hdiv] at ha
    exact mem_append_right _ ha

theorem translate_congr (h : ∀ a ∈ c.reads m lin pr, m' a = m a) :
    c.translate m' lin pr = c.translate m lin pr := by
  have hwalk (dir : Nat) (h : ∀ a ∈ Memory.word (dir + 4 * (lin / 2 ^ 22)) ++
      Memory.entryReads (m.get32 (dir + 4 * (lin / 2 ^ 22))) (lin % 2 ^ 22), m' a = m a) :
      m'.walk dir lin = m.walk dir lin := by
    unfold Memory.walk
    rw [Memory.get32_congr fun a ha => h a (mem_append_left _ ha),
      Memory.walkEntry_congr fun a ha => h a (mem_append_right _ ha)]
  cases pr with
  | phys => rfl
  | kernel => exact hwalk _ h
  | proc p => exact hwalk _ h

end Cpu

end HardenedMinix.LinCopy
