import HardenedMinix.Pe.Runs
import HardenedMinix.Kernel.Lifecycle

/-!
# The phases of a processing element

From the state in which `start_dwc` begins to the commit, the failed comparison or the abort.
-/

open List

namespace HardenedMinix

open Lib Linked

variable {k k' k₀ k₁ k₂ : Kernel} {p : ProcNr} {i : Fin workingSetSize}
  {L : List (Fin workingSetSize)} {step : HStep}

/-! ## States -/

/-- No element is under way, `p` is hardened and runnable, and its pages map `us0` and have no fault
or store pending. -/
structure PeReady (k : Kernel) (p : ProcNr) (L : List (Fin workingSetSize)) : Prop where
  off : k.hEnable = false
  idle : k.hStep = .noHardRun
  noRestore : k.hRestore = .none
  user : p ≠ vmProcNr
  hardened : (k.procs p).procToHard = true
  runnable : (k.procs p).rtsFlags = 0
  events : HmeInv k
  inv : PeInv k p L
  mapsUs0 : ∀ i ∈ L, (view k p i).slot = .us0
  noFault : ∀ i ∈ L, (view k p i).flags.hgetPf = false
  clean : ∀ i ∈ L, (view k p i).write = false → (view k p i).dirty = false

/-- A state in the run `step` of the processing element of `p`. -/
structure InRun (k : Kernel) (p : ProcNr) (L : List (Fin workingSetSize)) (step : HStep) :
    Prop where
  inv : PeInv k p L
  enabled : k.hEnable = true
  proc : k.hProcNr = p
  user : p ≠ vmProcNr
  step : k.hStep = step
  restore : k.hRestore = .none

/-- The page of the block `i` after the events of the process were handled. -/
def startView (k : Kernel) (p : ProcNr) (i : Fin workingSetSize) : View :=
  (view k p i).eventIf (onPages (pendingPages k p) (k.workingSet i).vaddr)

/-- The stores to the page of the block `i`. -/
def pageStores (k : Kernel) (i : Fin workingSetSize) (ops : List UserOp) : List PageStore :=
  storesOn (pageOf (k.workingSet i).vaddr) ops

theorem WsSame.pageStores_eq (h : WsSame k k') (i : Fin workingSetSize) (ops : List UserOp) :
    pageStores k' i ops = pageStores k i ops := by
  simp only [pageStores, h.vaddr]

theorem startView_c0 (k : Kernel) (p : ProcNr) (i : Fin workingSetSize) :
    (startView k p i).c0 = (view k p i).c0 := by
  unfold startView View.eventIf View.event
  split_ifs <;> rfl

theorem startView_clean (h : PeReady k p L) (hi : i ∈ L) :
    (startView k p i).slot = .us0 ∧ (startView k p i).flags.hgetPf = false ∧
      ((startView k p i).write = false → (startView k p i).dirty = false) := by
  have hmaps := h.mapsUs0 i hi
  have hfault := h.noFault i hi
  have hclean := h.clean i hi
  unfold startView View.eventIf View.event
  split_ifs <;> exact ⟨hmaps, hfault, hclean⟩

theorem InRun.of_rest (h : InRun k p L step) (hinv : PeInv k' p L)
    (hrest : restOf p k' = restOf p k) : InRun k' p L step := by
  have he := congrArg Rest.hEnable hrest
  have hp := congrArg Rest.hProcNr hrest
  have hs := congrArg Rest.hStep hrest
  have hr := congrArg Rest.hRestore hrest
  exact ⟨hinv, he.trans h.enabled, hp.trans h.proc, h.user, hs.trans h.step, hr.trans h.restore⟩

theorem samePages_withContext (k : Kernel) (p : ProcNr) (c : Copy0) :
    SamePages p k (withContext k p c) := by
  refine ⟨rfl, rfl, rfl, ?_, ?_⟩
  · simp [withContext, Kernel.setProc]
  have hset := WsSame.setProc k p (x := ((withContext k p c).procs p))
    (by simp [withContext, Kernel.setProc]) (by simp [withContext, Kernel.setProc])
    (by simp [withContext, Kernel.setProc])
  refine hset.trans (WsSame.of_procs rfl (fun q => ?_))
  by_cases hq : q = p
  · subst hq
    simp [withContext, Kernel.setProc]
  · simp [withContext, Kernel.setProc, hq]

theorem restoreCopy0_eq (k : Kernel) (p : ProcNr) :
    restoreCopy0 k p = withContext k p { k.copy0 with
      reg := { k.copy0.reg with st := (k.procs p).reg.st }
      cr := { k.copy0.cr with cr2 := k.cr.cr2 } } := rfl

theorem samePages_restoreCopy0 (k : Kernel) (p : ProcNr) : SamePages p k (restoreCopy0 k p) := by
  rw [restoreCopy0_eq]
  exact samePages_withContext k p _

/-! ## First run -/

/-- The state behind `set_pe_mem_to_ro`, with the registers saved. -/
def begun (k : Kernel) (p : ProcNr) : Kernel := { saveCopy0 k p with hEnable := true }

theorem samePages_begun (k : Kernel) (p : ProcNr) : SamePages p k (begun k p) :=
  ⟨rfl, rfl, rfl, rfl, WsSame.of_procs rfl (fun _ => ⟨rfl, rfl, rfl⟩)⟩

structure Begun (k : Kernel) (p : ProcNr) (L : List (Fin workingSetSize)) (k₀ : Kernel) :
    Prop where
  inRun : InRun k₀ p L .firstRun
  outer : Outer p L k k₀
  saved : k₀.copy0 = contextOf k₀ p
  rts : k₀.copy0.rtsFlags = 0
  sharing : (k₀.procs p).nbHardeningSharedRegions = (k.procs p).nbHardeningSharedRegions
  views : ∀ i ∈ L, view k₀ p i = (startView k p i).ro .firstRun

theorem startDwc_first (h : PeReady k p L) :
    (startDwc k p = none ∧ ∃ w ∈ pendingPages k p, Outside k L w) ∨
      ∃ k₀, startDwc k p = some k₀ ∧ Begun k p L k₀ := by
  have hpages : SamePages p k { k with hProcNr := p, hStep := .firstRun } :=
    ⟨rfl, rfl, rfl, rfl, WsSame.of_procs rfl (fun _ => ⟨rfl, rfl, rfl⟩)⟩
  have hcond : k.hEnable = false ∧ p ≠ vmProcNr ∧ (k.procs p).procToHard = true :=
    ⟨h.off, h.user, h.hardened⟩
  unfold startDwc startPe
  rw [if_pos hcond, if_neg (not_not.mpr h.idle)]
  have hevents : HmeInv { k with hProcNr := p, hStep := .firstRun } :=
    HmeInv.of_view (k := k) rfl h.events
  rcases setPeMemToRo_first (hpages.peInv h.inv) hevents rfl with
    ⟨hnone, hout⟩ | ⟨k₁, hsome, hinv, haround, hviews⟩
  · left
    rw [hnone]
    exact ⟨rfl, hout⟩
  right
  have hrest := haround.rest
  have hproc : k₁.hProcNr = p := by
    have := congrArg Rest.hProcNr hrest
    exact this
  have hrestore : k₁.hRestore = .none := by
    have := congrArg Rest.hRestore hrest
    exact this.trans h.noRestore
  have hrts : (k₁.procs p).rtsFlags = 0 := by
    have := congrArg Rest.rtsFlags hrest
    exact this.trans h.runnable
  have hshare := congrArg Rest.nbHardeningSharedRegions hrest
  have hb := samePages_begun k₁ p
  refine ⟨begun k₁ p, ?_, ⟨hb.peInv hinv, rfl, hproc, h.user, haround.hStep_eq, hrestore⟩,
    ((hpages.outer L).trans haround.toOuter).trans (hb.outer L), rfl, hrts, hshare, ?_⟩
  · rw [hsome]
    have hrestorePe : restorePe (begun k₁ p) p = some (begun k₁ p) := by
      unfold restorePe
      rw [if_neg]
      simp [begun, saveCopy0, hrestore]
    have hrestored : restorePe { saveCopy0 k₁ p with hEnable := true } p = some (begun k₁ p) :=
      hrestorePe
    simp only [hrestored]
    simp [begun, saveCopy0, hproc]
  · intro i hi
    rw [hb.view_eq, hviews i hi]
    rfl

theorem runFirst_view {ops : List UserOp} {rs : List UInt8} (h : PeReady k p L)
    (hrun : runFirst k p ops = some (k₁, rs)) :
    ∃ k₀, startDwc k p = some k₀ ∧ Begun k p L k₀ ∧ userRun k₀ p ops = some (k₁, rs) ∧
      InRun k₁ p L .firstRun ∧ UserAround p L k₀ k₁ ∧
      ∀ i ∈ L, ((startView k p i).ro .firstRun).stores .firstRun (pageStores k i ops) =
        some (view k₁ p i) := by
  unfold runFirst at hrun
  rcases startDwc_first h with ⟨hnone, -⟩ | ⟨k₀, hstart, hb⟩
  · rw [hnone] at hrun
    simp at hrun
  rw [hstart] at hrun
  obtain ⟨hinv, haround, hviews⟩ := userRun_view hb.inRun.inv hrun
  refine ⟨k₀, hstart, hb, hrun, hb.inRun.of_rest hinv haround.rest, haround, fun i hi => ?_⟩
  rw [← hb.views i hi, ← hviews i hi, hb.inRun.step, ← hb.outer.same.pageStores_eq]
  rfl

/-! ## Second run -/

/-- The start of the second run, from the end of the first. -/
structure Again (k : Kernel) (p : ProcNr) (L : List (Fin workingSetSize)) (t : Trap)
    (k' : Kernel) : Prop where
  inRun : InRun k' p L .secondRun
  outer : Outer p L k k'
  copy0 : k'.copy0 = k.copy0
  ctx1 : k'.ctx1 = saveCopy1 t
  sharing : (k'.procs p).nbHardeningSharedRegions = (k.procs p).nbHardeningSharedRegions
  views : ∀ i ∈ L, view k' p i = (view k p i).endFirst.ro .secondRun

/-- The end of the first run and the start of the second go through, if the process was
runnable when its registers were saved. -/
theorem startDwc_second (h : InRun k p L .firstRun) (t : Trap) :
    ∃ k₁, hardeningTask k p t true = some (k₁, .secondRun) ∧
      ((startDwc k₁ p = none ∧ k.copy0.rtsFlags ≠ 0) ∨
        ∃ k', startDwc k₁ p = some k' ∧ k.copy0.rtsFlags = 0 ∧ Again k p L t k') := by
  have hpages : SamePages p k { k with ctx1 := saveCopy1 t, hRestore := .forSecondRun } :=
    ⟨rfl, rfl, rfl, rfl, WsSame.of_procs rfl (fun _ => ⟨rfl, rfl, rfl⟩)⟩
  obtain ⟨k₁, hreset, hinv1, ha1, hv1⟩ := vmResetPram_endFirst (hpages.peInv h.inv) h.user h.step
  have hr1 := ha1.rest
  have henabled : k₁.hEnable = true := by
    have := congrArg Rest.hEnable hr1
    exact this.trans h.enabled
  have hproc : k₁.hProcNr = p := by
    have := congrArg Rest.hProcNr hr1
    exact this.trans h.proc
  have hrestore : k₁.hRestore = .forSecondRun := by
    have := congrArg Rest.hRestore hr1
    exact this
  have hcopy : k₁.copy0 = k.copy0 := by
    have := congrArg Rest.copy0 hr1
    exact this
  have hctx : k₁.ctx1 = saveCopy1 t := by
    have := congrArg Rest.ctx1 hr1
    exact this
  have hshare1 : (k₁.procs p).nbHardeningSharedRegions = (k.procs p).nbHardeningSharedRegions := by
    have := congrArg Rest.nbHardeningSharedRegions hr1
    exact this
  refine ⟨k₁, ?_, ?_⟩
  · unfold hardeningTask
    have hon : k.hEnable = true ∧ k.hProcNr = p ∧ p ≠ vmProcNr := ⟨h.enabled, h.proc, h.user⟩
    rw [if_neg (not_not.mpr hon)]
    split
    · rw [if_neg (not_not.mpr h.restore), hreset]
    all_goals
      rename_i hstep
      rw [h.step] at hstep
      simp at hstep
  have hstartPe : startPe k₁ p = some k₁ := by
    unfold startPe
    rw [if_neg]
    simp [henabled]
  have hp2 : SamePages p k₁ { restoreCopy0 k₁ p with hStep := .secondRun } := by
    have hw := samePages_restoreCopy0 k₁ p
    exact ⟨hw.blocks, hw.mem, hw.freeMem, hw.pt, ⟨hw.same.next, hw.same.free, hw.same.vaddr,
      hw.same.iflags, hw.same.inUse, hw.same.first, hw.same.size⟩⟩
  obtain ⟨k3, hro, hinv3, ha3, hv3⟩ := setPeMemToRo_second (hp2.peInv hinv1) (by simp)
  have hrestorePe : restorePe k₁ p =
      if (k3.procs p).rtsFlags ≠ 0 then none else some { k3 with hRestore := .none } := by
    unfold restorePe
    rw [if_pos ⟨henabled, by simp [hrestore]⟩, if_neg (not_not.mpr hproc)]
    simp only [hrestore, ↓reduceIte]
    rw [hro]
  have hr3 := ha3.rest
  have hrts : (k3.procs p).rtsFlags = k.copy0.rtsFlags := by
    have := congrArg Rest.rtsFlags hr3
    refine this.trans ?_
    simp [restOf, restoreCopy0, Kernel.setProc, hcopy]
  have hproc3 : k3.hProcNr = p := by
    have := congrArg Rest.hProcNr hr3
    exact this.trans hproc
  unfold startDwc
  rw [hstartPe]
  simp only
  rw [hrestorePe, hrts]
  by_cases hz : k.copy0.rtsFlags = 0
  · right
    have hp4 : SamePages p k3 { k3 with hRestore := .none } :=
      ⟨rfl, rfl, rfl, rfl, WsSame.of_procs rfl (fun _ => ⟨rfl, rfl, rfl⟩)⟩
    refine ⟨{ k3 with hRestore := .none }, ?_, hz, ⟨hp4.peInv hinv3, ?_, hproc3, h.user, ?_, rfl⟩,
      ?_, ?_, ?_, ?_, fun i hi => ?_⟩
    · simp [hz, hproc3]
    · have := congrArg Rest.hEnable hr3
      exact this.trans henabled
    · exact ha3.hStep_eq
    · exact ((((hpages.outer L).trans ha1.toOuter).trans (hp2.outer L)).trans
        ha3.toOuter).trans (hp4.outer L)
    · have := congrArg Rest.copy0 hr3
      exact this.trans hcopy
    · have := congrArg Rest.ctx1 hr3
      exact this.trans hctx
    · have := congrArg Rest.nbHardeningSharedRegions hr3
      refine this.trans (Eq.trans ?_ hshare1)
      simp [restOf, restoreCopy0, Kernel.setProc]
    · rw [hp4.view_eq, hv3 i hi, hp2.view_eq, hv1 i hi, hpages.view_eq]
  · left
    simp [hz]

theorem runSecond_view {t : Trap} {ops : List UserOp} {rs : List UInt8}
    (h : InRun k p L .firstRun) (hrun : runSecond k p t ops = some (k₂, rs)) :
    ∃ k', Again k p L t k' ∧ userRun k' p ops = some (k₂, rs) ∧ InRun k₂ p L .secondRun ∧
      UserAround p L k' k₂ ∧
      ∀ i ∈ L, ((view k p i).endFirst.ro .secondRun).stores .secondRun (pageStores k i ops) =
        some (view k₂ p i) := by
  unfold runSecond at hrun
  obtain ⟨k₁, htask, ⟨hnone, -⟩ | ⟨k', hstart, -, hagain⟩⟩ := startDwc_second h t
  · rw [htask] at hrun
    simp only [hnone] at hrun
    simp at hrun
  rw [htask] at hrun
  simp only [hstart] at hrun
  obtain ⟨hinv, haround, hviews⟩ := userRun_view hagain.inRun.inv hrun
  refine ⟨k', hagain, hrun, hagain.inRun.of_rest hinv haround.rest, haround, fun i hi => ?_⟩
  rw [← hagain.views i hi, ← hviews i hi, hagain.inRun.step, ← hagain.outer.same.pageStores_eq]
  rfl

/-! ## End of the element -/

theorem samePages_ctx2 (k : Kernel) (p : ProcNr) (t : Trap) :
    SamePages p k { k with ctx2 := saveCopy2 t } :=
  ⟨rfl, rfl, rfl, rfl, WsSame.of_procs rfl (fun _ => ⟨rfl, rfl, rfl⟩)⟩

theorem hardeningTask_second (h : InRun k p L .secondRun) (t : Trap) (sameIns : Bool) :
    hardeningTask k p t sameIns = if t.entry = .nmi ∧ sameIns = false ∧
        cmpReg t.entry.origin k.ctx1 (saveCopy2 t) = false then
        some ({ k with ctx2 := saveCopy2 t }, .stepping)
      else cmpStep { k with ctx2 := saveCopy2 t } p t.entry.origin := by
  have hon : k.hEnable = true ∧ k.hProcNr = p ∧ p ≠ vmProcNr := ⟨h.enabled, h.proc, h.user⟩
  unfold hardeningTask
  rw [if_neg (not_not.mpr hon)]
  split
  · rename_i hstep
    rw [h.step] at hstep
    simp at hstep
  · rfl
  · rename_i hstep
    rw [h.step] at hstep
    simp at hstep

theorem samePages_resetHardenedRun (k : Kernel) (p : ProcNr) : SamePages p k (resetHardenedRun k) :=
  ⟨rfl, rfl, rfl, rfl, WsSame.of_procs rfl (fun _ => ⟨rfl, rfl, rfl⟩)⟩

theorem hardeningTask_committed {t : Trap} {sameIns : Bool} (h : InRun k p L .secondRun)
    (hrun : hardeningTask k p t sameIns = some (k', .committed)) :
    PeInv k' p L ∧ Outer p L k k' ∧ ∀ i ∈ L,
      (view k p i).agrees = true ∧ view k' p i = (view k p i).cmp.commit := by
  have hpages := samePages_ctx2 k p t
  have hinv := hpages.peInv h.inv
  rw [hardeningTask_second h] at hrun
  split_ifs at hrun
  · simp at hrun
  unfold cmpStep at hrun
  obtain ⟨k₁, r, hcmp, hinv1, ha1, hr, hviews, -⟩ := cmpMem_view hinv
  split_ifs at hrun with hreg
  · rw [hcmp] at hrun
    cases r with
    | false =>
      simp only at hrun
      split at hrun
      · simp at hrun
      · simp at hrun
    | true =>
      simp only at hrun
      split at hrun
      · simp at hrun
      rename_i k₂ hreset
      obtain ⟨rfl, -⟩ := Prod.mk.inj (Option.some.inj hrun)
      have hs1 : k₁.hStep = .secondRun := ha1.hStep_eq.trans h.step
      obtain ⟨hinv2, ha2, hv2⟩ := vmResetPram_commit hinv1 hs1 hreset
      have hr2 := samePages_resetHardenedRun k₂ p
      refine ⟨hr2.peInv hinv2, (((hpages.outer L).trans ha1.toOuter).trans ha2.toOuter).trans
        (hr2.outer L), fun i hi => ⟨?_, ?_⟩⟩
      · rw [← hpages.view_eq]
        exact hr.mp rfl i hi
      · rw [hr2.view_eq, hv2 i hi, hviews rfl i hi, hpages.view_eq]
  · simp only at hrun
    split at hrun
    · simp at hrun
    · simp at hrun

theorem hardeningTask_failed {t : Trap} {sameIns : Bool} (h : InRun k p L .secondRun)
    (hrun : hardeningTask k p t sameIns = some (k', .failed)) :
    PeInv k' p L ∧ Outer p L k k' ∧ k'.copy0 = k.copy0 ∧ ∀ i ∈ L,
      view k' p i = (view k p i).reset ∨ view k' p i = (view k p i).cmp.reset := by
  have hpages := samePages_ctx2 k p t
  have hinv := hpages.peInv h.inv
  rw [hardeningTask_second h] at hrun
  split_ifs at hrun
  · simp at hrun
  unfold cmpStep at hrun
  -- the loop that brings the pages back, from wherever the comparison stopped
  have hback : ∀ k₁, PeInv k₁ p L → Around p L { k with ctx2 := saveCopy2 t } k₁ →
      (∀ i ∈ L, view k₁ p i = view k p i ∨ view k₁ p i = (view k p i).cmp) →
      (∀ k₂, vmResetPram k₁ p .cmpFailed = some k₂ → k' = { k₂.setProc p { k₂.procs p with
        rtsFlags := (k₂.procs p).rtsFlags ||| rtsUnstableState } with hRestore := .forFirstRun }) →
      PeInv k' p L ∧ Outer p L k k' ∧ k'.copy0 = k.copy0 ∧ ∀ i ∈ L,
        view k' p i = (view k p i).reset ∨ view k' p i = (view k p i).cmp.reset := by
    intro k₁ hinv1 ha1 hv1 hfail
    have hs1 : k₁.hStep = .secondRun := ha1.hStep_eq.trans h.step
    obtain ⟨k₂, hreset, hinv2, ha2, hv2⟩ := vmResetPram_failed hinv1 h.user hs1
    obtain rfl := hfail k₂ hreset
    have hlast : SamePages p k₂ { k₂.setProc p { k₂.procs p with
        rtsFlags := (k₂.procs p).rtsFlags ||| rtsUnstableState } with hRestore := .forFirstRun } := by
      have hset := WsSame.setProc k₂ p (x := { k₂.procs p with
        rtsFlags := (k₂.procs p).rtsFlags ||| rtsUnstableState }) rfl rfl rfl
      refine ⟨rfl, rfl, rfl, by simp [Kernel.setProc], ⟨hset.next, hset.free, hset.vaddr, hset.iflags,
        hset.inUse, hset.first, hset.size⟩⟩
    refine ⟨hlast.peInv hinv2, (((hpages.outer L).trans ha1.toOuter).trans ha2.toOuter).trans
      (hlast.outer L), ?_, fun i hi => ?_⟩
    · have hc1 := congrArg Rest.copy0 ha1.rest
      have hc2 := congrArg Rest.copy0 ha2.rest
      exact hc2.trans hc1
    · rw [hlast.view_eq, hv2 i hi]
      rcases hv1 i hi with hv | hv
      · exact .inl (by rw [hv])
      · exact .inr (by rw [hv])
  obtain ⟨k₁, r, hcmp, hinv1, ha1, -, -, heither⟩ := cmpMem_view hinv
  split_ifs at hrun with hreg
  · rw [hcmp] at hrun
    cases r with
    | true =>
      simp only at hrun
      split at hrun
      · simp at hrun
      · simp at hrun
    | false =>
      apply hback k₁ hinv1 ha1
      · intro i hi
        rw [← hpages.view_eq]
        exact heither i hi
      · intro k₂ hreset
        simp only [hreset] at hrun
        exact (Prod.mk.inj (Option.some.inj hrun)).1.symm
  · apply hback _ hinv (Around.refl p L _) (fun i _ => .inl (hpages.view_eq i))
    intro k₂ hreset
    simp only [hreset] at hrun
    exact (Prod.mk.inj (Option.some.inj hrun)).1.symm

theorem abortPe_view (h : InRun k p L step) (c : Copy0) :
    ∃ k', abortPe (withContext k p c) p = some k' ∧ PeInv k' p L ∧ Outer p L k k' ∧
      (∃ st cr2, contextOf k' p = { k.copy0 with
        reg := { k.copy0.reg with st := st }, cr := { k.copy0.cr with cr2 := cr2 } }) ∧
      ∀ i ∈ L, view k' p i = (view k p i).reset := by
  have hpages := samePages_withContext k p c
  obtain ⟨k₁, hreset, hinv1, ha1, hv1⟩ := vmResetPram_abort (hpages.peInv h.inv) h.user
  have hcopy : k₁.copy0 = k.copy0 := by
    have := congrArg Rest.copy0 ha1.rest
    exact this
  have hrestore := samePages_restoreCopy0 k₁ p
  have hr := samePages_resetHardenedRun (restoreCopy0 k₁ p) p
  refine ⟨resetHardenedRun (restoreCopy0 k₁ p), by simp [abortPe, hreset],
    hr.peInv (hrestore.peInv hinv1), (((hpages.outer L).trans ha1.toOuter).trans
      (hrestore.outer L)).trans (hr.outer L), ⟨(k₁.procs p).reg.st, k₁.cr.cr2, ?_⟩, fun i hi => ?_⟩
  · rw [← hcopy]
    simp [contextOf, resetHardenedRun, restoreCopy0, Kernel.setProc]
  · rw [hr.view_eq, hrestore.view_eq, hv1 i hi, hpages.view_eq]

/-! ## A process with one page -/

def userEntry (f : Frame) : Pte := ⟨f, true, true, true, false, false, false⟩

/-- An address space with one page, at 4096. -/
def onePage : PageTable := ⟨fun _ => userEntry 0, fun n => if n = 1 then userEntry 5 else default⟩

/-- After boot, process 15 with that address space. -/
def onePageKernel : Kernel := bootKernel.setProc 15 { bootProc 15 with pt := onePage }

/-- The process is hardened while it runs: its page is not in the working set. -/
def bareKernel : Kernel := doHardeningPid onePageKernel 15 true

/-- Then VM maps the page again and supplies the private frames. -/
def blockKernel : Kernel :=
  (doAddregiontoWs bareKernel 15 4096 1 (some 7) (some 8)).getD bareKernel

theorem bareKernel_procs (q : ProcNr) (hq : q ≠ 15) : bareKernel.procs q = bootProc q := by
  unfold bareKernel
  rw [doHardeningPid_of_ne _ _ hq]
  simp [onePageKernel, Kernel.setProc, hq, bootKernel]

theorem bareKernel_reachable : Reachable LifeGood bareKernel :=
  .step (.hardeningPid 15 true) (.step (.pageTable 15 onePage)
    (.init bootKernel_initial) trivial rfl) trivial rfl

theorem blockKernel_reachable : Reachable LifeGood blockKernel := by
  refine .step (.addRegionToWs 15 4096 1 (some 7) (some 8)) bareKernel_reachable ?_ rfl
  refine room_of_empty (fun p => ?_) 15
  by_cases hp : p = 15
  · subst hp
    rfl
  · rw [bareKernel_procs p hp]
    rfl

theorem onePage_absent {v : VirBytes} (hv : pageOf v ≠ 1) : (onePage.pte (pageOf v)).present = false := by
  simp only [onePage, hv, ↓reduceIte]
  rfl

theorem bareKernel_ready : PeReady bareKernel 15 [] := by
  obtain ⟨⟨A, hws⟩, hm⟩ := reachable_lists bareKernel_reachable
  refine ⟨rfl, rfl, rfl, by decide, rfl, rfl, hm, ⟨⟨A, hws, ?_⟩, rfl, by simp, by simp, by simp,
    by simp, ⟨nodup_nil, not_mem_nil⟩, fun v _ _ => ⟨by simp, not_mem_nil⟩⟩,
    by simp, by simp, by simp⟩
  rw [← hws.liveBlocks_eq]
  rfl

theorem blockKernel_ready : PeReady blockKernel 15 [0] := by
  obtain ⟨⟨A, hws⟩, hm⟩ := reachable_lists blockKernel_reachable
  refine ⟨rfl, rfl, rfl, by decide, rfl, rfl, hm, ⟨⟨A, hws, ?_⟩, rfl, fun i hi => ?_, ?_, ?_, ?_,
    ⟨nodup_nil, not_mem_nil⟩, fun v hv hpres => ?_⟩, fun i hi => ?_, fun i hi => ?_,
    fun i hi => ?_⟩
  · rw [← hws.liveBlocks_eq]
    rfl
  · obtain rfl := mem_singleton.mp hi
    exact ⟨⟨5, rfl⟩, rfl, rfl, rfl, rfl, by decide, by decide⟩
  · intro i hi j hj hne
    exact absurd ((mem_singleton.mp hi).trans (mem_singleton.mp hj).symm) hne
  · intro i hi
    obtain rfl := mem_singleton.mp hi
    decide
  · exact fun i hi f _ => not_mem_nil
  · have hpage : pageOf v ≠ 1 := fun heq => hv 0 mem_cons_self (by rw [heq]; rfl)
    have habsent := onePage_absent hpage
    rw [show blockKernel.getPte 15 v = onePage.pte (pageOf v) from rfl, habsent] at hpres
    simp at hpres
  all_goals
    obtain rfl := mem_singleton.mp hi
    first | rfl | exact fun _ => rfl

end HardenedMinix
