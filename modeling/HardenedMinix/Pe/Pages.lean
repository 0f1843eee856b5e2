import HardenedMinix.Pe.View
import HardenedMinix.Kernel.EventLists

/-!
# The pages of a kernel

`view` shows one page of the working set. `PeInv`: no two pages share a frame. A `PageStep` leaves
the views of the other pages alone.
-/

namespace HardenedMinix

open Lib Linked

variable {k k' : Kernel} {p : ProcNr} {i j : Fin workingSetSize}
  {L : List (Fin workingSetSize)}

/-! ## Views -/

def framesOf (b : PramMemBlock) : List Frame := b.us0.toList ++ b.us1.toList ++ b.us2.toList

/-- What a block, a page table entry and the memory show of a page. -/
def viewOf (b : PramMemBlock) (e : Pte) (m : Frame → PageData) : View where
  flags := { b.flags with wsShared := false, lastPf := false }
  slot := if b.us1 = some e.pfa then .us1 else if b.us2 = some e.pfa then .us2 else .us0
  write := e.write
  dirty := e.dirty
  c0 := m (frameOr b.us0)
  c1 := b.us1.map m
  c2 := b.us2.map m

/-- The page of the block `i` of `p`. -/
def view (k : Kernel) (p : ProcNr) (i : Fin workingSetSize) : View :=
  viewOf (k.workingSet i) (k.getPte p (k.workingSet i).vaddr) k.mem

/-- What `p` reads in the page of `v`. -/
def visible (k : Kernel) (p : ProcNr) (v : VirBytes) : PageData := k.mem (k.getPte p v).pfa

/-- What is in the frame `us0` of a block. -/
def us0Data (k : Kernel) (i : Fin workingSetSize) : PageData := k.mem (frameOr (k.workingSet i).us0)

/-! ## The invariant -/

/-- An entry a page of user memory has, apart from its write bit. -/
def pteUser (e : Pte) : Bool := e.present && e.user && !e.global && !e.bigpage

theorem checkPtEntry_eq {e : Pte} (h : pteUser e = true) : checkPtEntry e = e.write := by
  unfold pteUser at h
  unfold checkPtEntry
  rw [h, Bool.true_and]

/-- A page of the working set: its block has a frame `us0` and different frames, and its entry
maps one of them. -/
structure PageOk (k : Kernel) (p : ProcNr) (i : Fin workingSetSize) : Prop where
  us0 : ∃ f, (k.workingSet i).us0 = some f
  lastPf : (k.workingSet i).flags.lastPf = false
  hExec : (k.workingSet i).flags.hExec = false
  pde : checkPtEntry (k.getPde p (k.workingSet i).vaddr) = true
  pte : pteUser (k.getPte p (k.workingSet i).vaddr) = true
  mapped : (k.getPte p (k.workingSet i).vaddr).pfa ∈ framesOf (k.workingSet i)
  distinct : (framesOf (k.workingSet i)).Nodup

/-- The working set of `p` is `L`, and its pages are kept apart. -/
structure PeInv (k : Kernel) (p : ProcNr) (L : List (Fin workingSetSize)) : Prop where
  lists : ∃ A, WsOk k A ∧ A p = L
  inUse : (k.procs p).inUse = true
  pages : ∀ i ∈ L, PageOk k p i
  disjoint : ∀ i ∈ L, ∀ j ∈ L, i ≠ j →
    ∀ f ∈ framesOf (k.workingSet i), f ∉ framesOf (k.workingSet j)
  nonzero : ∀ i ∈ L, 0 ∉ framesOf (k.workingSet i)
  fresh : ∀ i ∈ L, ∀ f ∈ framesOf (k.workingSet i), f ∉ k.freeMem
  free : k.freeMem.Nodup ∧ 0 ∉ k.freeMem
  outside : ∀ v, (∀ i ∈ L, pageOf (k.workingSet i).vaddr ≠ pageOf v) →
    (k.getPte p v).present = true →
    (∀ i ∈ L, (k.getPte p v).pfa ∉ framesOf (k.workingSet i)) ∧ (k.getPte p v).pfa ∉ k.freeMem

namespace PeInv

theorem eq_of_page (h : PeInv k p L) (hi : i ∈ L) (hj : j ∈ L)
    (hpage : pageOf (k.workingSet i).vaddr = pageOf (k.workingSet j).vaddr) : i = j := by
  obtain ⟨A, hws, rfl⟩ := h.lists
  exact hws.eq_of_page hi hj hpage

theorem lookUpPte_eq (h : PeInv k p L) (hi : i ∈ L) {v : VirBytes}
    (hv : pageOf (k.workingSet i).vaddr = pageOf v) : lookUpPte k p v = some i := by
  obtain ⟨A, hws, rfl⟩ := h.lists
  exact lookUpPte_of_mem hws h.inUse hi hv

theorem size_eq (h : PeInv k p L) : (k.procs p).lus1Us2Size = L.length := by
  obtain ⟨A, hws, rfl⟩ := h.lists
  exact hws.size p h.inUse

theorem chain (h : PeInv k p L) : Chain k.workingSet (k.procs p).lus1Us2 L := by
  obtain ⟨A, hws, rfl⟩ := h.lists
  exact hws.chain h.inUse

theorem nodup (h : PeInv k p L) : L.Nodup := h.chain.nodup

end PeInv

/-! ## Changes that do not show in the pages -/

/-- The blocks, the memory and the page table of `p` are the same in both states. -/
structure SamePages (p : ProcNr) (k k' : Kernel) : Prop where
  blocks : k'.workingSet = k.workingSet
  mem : k'.mem = k.mem
  freeMem : k'.freeMem = k.freeMem
  pt : (k'.procs p).pt = (k.procs p).pt
  same : WsSame k k'

namespace SamePages

theorem pte (h : SamePages p k k') (v : VirBytes) : k'.getPte p v = k.getPte p v := by
  simp only [Kernel.getPte, h.pt]

theorem pde (h : SamePages p k k') (v : VirBytes) : k'.getPde p v = k.getPde p v := by
  simp only [Kernel.getPde, h.pt]

theorem view_eq (h : SamePages p k k') (i : Fin workingSetSize) : view k' p i = view k p i := by
  simp only [view, h.blocks, h.pte, h.mem]

theorem visible_eq (h : SamePages p k k') (v : VirBytes) : visible k' p v = visible k p v := by
  simp only [visible, h.pte, h.mem]

theorem pageOk (h : SamePages p k k') (hok : PageOk k p i) : PageOk k' p i :=
  ⟨by rw [h.blocks]; exact hok.us0, by rw [h.blocks]; exact hok.lastPf,
    by rw [h.blocks]; exact hok.hExec, by rw [h.blocks, h.pde]; exact hok.pde,
    by rw [h.blocks, h.pte]; exact hok.pte, by rw [h.blocks, h.pte]; exact hok.mapped,
    by rw [h.blocks]; exact hok.distinct⟩

theorem peInv (h : SamePages p k k') (hinv : PeInv k p L) : PeInv k' p L where
  lists := by
    obtain ⟨A, hws, hA⟩ := hinv.lists
    exact ⟨A, h.same.wsOk hws, hA⟩
  inUse := by rw [h.same.inUse p]; exact hinv.inUse
  pages i hi := h.pageOk (hinv.pages i hi)
  disjoint := by rw [h.blocks]; exact hinv.disjoint
  nonzero := by rw [h.blocks]; exact hinv.nonzero
  fresh := by rw [h.blocks, h.freeMem]; exact hinv.fresh
  free := by rw [h.freeMem]; exact hinv.free
  outside v hv hpres := by
    simp only [h.blocks, h.pte, h.freeMem] at hv hpres ⊢
    exact hinv.outside v hv hpres

end SamePages

/-! ## Steps on one page -/

/-- What the memory side of a processing element does not change. -/
structure Rest where
  hEnable : Bool
  hProcNr : ProcNr
  hStep : HStep
  hRestore : HRestore
  copy0 : Copy0
  ctx1 : RunCtx
  ctx2 : RunCtx
  reg : StackFrame
  kernTrapStyle : TrapStyle
  rtsFlags : Nat
  cpuTimeLeft : Nat
  procToHard : Bool
  nbHardeningSharedRegions : Int
  cr0 : UInt32
  cr3 : UInt32
  cr4 : UInt32

/-- The part of the kernel that page steps leave alone. -/
def restOf (p : ProcNr) (k : Kernel) : Rest where
  hEnable := k.hEnable
  hProcNr := k.hProcNr
  hStep := k.hStep
  hRestore := k.hRestore
  copy0 := k.copy0
  ctx1 := k.ctx1
  ctx2 := k.ctx2
  reg := (k.procs p).reg
  kernTrapStyle := (k.procs p).kernTrapStyle
  rtsFlags := (k.procs p).rtsFlags
  cpuTimeLeft := (k.procs p).cpuTimeLeft
  procToHard := (k.procs p).procToHard
  nbHardeningSharedRegions := (k.procs p).nbHardeningSharedRegions
  cr0 := k.cr.cr0
  cr3 := k.cr.cr3
  cr4 := k.cr.cr4

/-- A step that touches the block `i`, its entry and its frames only. -/
structure PageStep (p : ProcNr) (i : Fin workingSetSize) (k k' : Kernel) : Prop where
  same : WsSame k k'
  rest : restOf p k' = restOf p k
  blocks : ∀ j, j ≠ i → k'.workingSet j = k.workingSet j
  ptes : ∀ v, pageOf v ≠ pageOf (k.workingSet i).vaddr → k'.getPte p v = k.getPte p v
  pdes : ∀ v, k'.getPde p v = k.getPde p v
  mem : ∀ f, f ∉ framesOf (k'.workingSet i) → k'.mem f = k.mem f
  freeMem : k'.freeMem <:+ k.freeMem
  frames : ∀ f ∈ framesOf (k'.workingSet i),
    f ∈ framesOf (k.workingSet i) ∨ f ∈ k.freeMem ∧ f ∉ k'.freeMem
  page : PageOk k' p i

namespace PageStep

theorem frames_disjoint (hs : PageStep p i k k') (h : PeInv k p L) (hi : i ∈ L) (hj : j ∈ L)
    (hne : j ≠ i) {f : Frame} (hf : f ∈ framesOf (k'.workingSet i)) :
    f ∉ framesOf (k.workingSet j) := by
  rcases hs.frames f hf with hold | ⟨hnew, -⟩
  · exact h.disjoint i hi j hj (Ne.symm hne) f hold
  · exact fun hmem => h.fresh j hj f hmem hnew

theorem visible_eq (hs : PageStep p i k k') (h : PeInv k p L) (hi : i ∈ L) {v : VirBytes}
    (hv : pageOf v ≠ pageOf (k.workingSet i).vaddr) (hpres : (k.getPte p v).present = true) :
    visible k' p v = visible k p v := by
  unfold visible
  rw [hs.ptes v hv]
  refine hs.mem _ (fun hmem => ?_)
  by_cases hin : ∃ j ∈ L, pageOf (k.workingSet j).vaddr = pageOf v
  · obtain ⟨j, hj, hjv⟩ := hin
    have hne : j ≠ i := by
      rintro rfl
      exact hv hjv.symm
    have hpte : k.getPte p (k.workingSet j).vaddr = k.getPte p v := by
      simp only [Kernel.getPte, hjv]
    have hmapped := (h.pages j hj).mapped
    rw [hpte] at hmapped
    exact hs.frames_disjoint h hi hj hne hmem hmapped
  · have hout := h.outside v (fun j hj hjv => hin ⟨j, hj, hjv⟩) hpres
    rcases hs.frames _ hmem with hold | ⟨hnew, -⟩
    · exact hout.1 i hi hold
    · exact hout.2 hnew

theorem view_eq (hs : PageStep p i k k') (h : PeInv k p L) (hi : i ∈ L) (hj : j ∈ L)
    (hne : j ≠ i) : view k' p j = view k p j := by
  have hpage : pageOf (k.workingSet j).vaddr ≠ pageOf (k.workingSet i).vaddr :=
    fun heq => hne (h.eq_of_page hj hi heq)
  have hmem : ∀ f ∈ framesOf (k.workingSet j), k'.mem f = k.mem f := fun f hf =>
    hs.mem f (fun hf' => hs.frames_disjoint h hi hj hne hf' hf)
  obtain ⟨f0, hf0⟩ := (h.pages j hj).us0
  unfold view
  rw [hs.blocks j hne, hs.ptes _ hpage]
  unfold viewOf
  congr 1
  · refine hmem _ ?_
    simp [framesOf, hf0, frameOr]
  · refine Option.map_congr (fun f hf => hmem f ?_)
    simp [framesOf, hf]
  · refine Option.map_congr (fun f hf => hmem f ?_)
    simp [framesOf, hf]

theorem peInv (hs : PageStep p i k k') (h : PeInv k p L) (hi : i ∈ L) : PeInv k' p L where
  lists := by
    obtain ⟨A, hws, hA⟩ := h.lists
    exact ⟨A, hs.same.wsOk hws, hA⟩
  inUse := by rw [hs.same.inUse p]; exact h.inUse
  pages j hj := by
    by_cases hne : j = i
    · rw [hne]
      exact hs.page
    have hpage : pageOf (k.workingSet j).vaddr ≠ pageOf (k.workingSet i).vaddr :=
      fun heq => hne (h.eq_of_page hj hi heq)
    have hold := h.pages j hj
    have hb := hs.blocks j hne
    have hpte := hs.ptes _ hpage
    exact ⟨by rw [hb]; exact hold.us0, by rw [hb]; exact hold.lastPf,
      by rw [hb]; exact hold.hExec, by rw [hb, hs.pdes]; exact hold.pde,
      by rw [hb, hpte]; exact hold.pte, by rw [hb, hpte]; exact hold.mapped,
      by rw [hb]; exact hold.distinct⟩
  disjoint a ha b hb hne f hf := by
    by_cases hai : a = i
    · have hbi : b ≠ i := fun heq => hne (hai.trans heq.symm)
      rw [hs.blocks b hbi]
      rw [hai] at hf
      exact hs.frames_disjoint h hi hb hbi hf
    rw [hs.blocks a hai] at hf
    by_cases hbi : b = i
    · rw [hbi]
      exact fun hf' => hs.frames_disjoint h hi ha hai hf' hf
    · rw [hs.blocks b hbi]
      exact h.disjoint a ha b hb hne f hf
  nonzero a ha := by
    by_cases hai : a = i
    · rw [hai]
      intro hz
      rcases hs.frames 0 hz with hold | ⟨hnew, -⟩
      · exact h.nonzero i hi hold
      · exact h.free.2 hnew
    · rw [hs.blocks a hai]
      exact h.nonzero a ha
  fresh a ha f hf := by
    by_cases hai : a = i
    · rw [hai] at hf
      rcases hs.frames f hf with hold | ⟨-, hnew⟩
      · exact fun hmem => h.fresh i hi f hold (hs.freeMem.subset hmem)
      · exact hnew
    · rw [hs.blocks a hai] at hf
      exact fun hmem => h.fresh a ha f hf (hs.freeMem.subset hmem)
  free := ⟨hs.freeMem.sublist.nodup h.free.1, fun hz => h.free.2 (hs.freeMem.subset hz)⟩
  outside v hv hpres := by
    simp only [hs.same.vaddr] at hv
    have hpage := hv i hi
    rw [hs.ptes v (Ne.symm hpage)] at hpres ⊢
    have hout := h.outside v hv hpres
    refine ⟨fun a ha => ?_, fun hmem => hout.2 (hs.freeMem.subset hmem)⟩
    by_cases hai : a = i
    · rw [hai]
      intro hf
      rcases hs.frames _ hf with hold | ⟨hnew, -⟩
      · exact hout.1 i hi hold
      · exact hout.2 hnew
    · rw [hs.blocks a hai]
      exact hout.1 a ha

end PageStep

end HardenedMinix
