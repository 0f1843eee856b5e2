import HardenedMinix.Pe.Pages

/-!
# The hardening code, page by page

Each turn of the loops of `pram.c`, each fault and each store is a step on one page.
-/

open Function

namespace HardenedMinix

open Lib Linked Kernel View PramMemBlock

variable {k k' : Kernel} {p : ProcNr} {i j : Fin workingSetSize}
  {L : List (Fin workingSetSize)}

/-! ## Writing a page -/

/-- A page step that does `f` to the view. -/
structure PageTo (p : ProcNr) (i : Fin workingSetSize) (f : View → View) (k k' : Kernel) :
    Prop where
  step : PageStep p i k k'
  view : HardenedMinix.view k' p i = f (HardenedMinix.view k p i)

/-- Overwrite the block, the entry, the memory and the free frames. -/
def Kernel.setPage (k : Kernel) (p : ProcNr) (i : Fin workingSetSize) (b : PramMemBlock) (e : Pte)
    (m : Frame → PageData) (fm : List Frame) : Kernel :=
  { (k.setPmb i b).setPte p b.vaddr e with mem := m, freeMem := fm }

theorem Kernel.getPte_setPage (k : Kernel) (p : ProcNr) (i : Fin workingSetSize)
    (b : PramMemBlock) (e : Pte) (m : Frame → PageData) (fm : List Frame) (v : VirBytes) :
    (k.setPage p i b e m fm).getPte p v = if pageOf v = pageOf b.vaddr then e else k.getPte p v := by
  simp only [getPte, setPage, setPte, setProc, setPmb,
    update_self]
  by_cases hv : pageOf v = pageOf b.vaddr
  · simp [hv]
  · simp [hv]

theorem Kernel.getPde_setPage (k : Kernel) (p : ProcNr) (i : Fin workingSetSize)
    (b : PramMemBlock) (e : Pte) (m : Frame → PageData) (fm : List Frame) (v : VirBytes) :
    (k.setPage p i b e m fm).getPde p v = k.getPde p v := by
  simp [getPde, setPage, setPte, setProc, setPmb]

theorem view_setPage (k : Kernel) (p : ProcNr) (i : Fin workingSetSize) (b : PramMemBlock)
    (e : Pte) (m : Frame → PageData) (fm : List Frame) :
    view (k.setPage p i b e m fm) p i = viewOf b e m := by
  have hb : (k.setPage p i b e m fm).workingSet i = b := by
    simp [setPage, setPte, setProc, setPmb]
  unfold view
  rw [hb, k.getPte_setPage, if_pos rfl]
  rfl

/-- The links, marks and page of a block are kept. -/
structure SameBlock (b b' : PramMemBlock) : Prop where
  next : b'.nextPmb = b.nextPmb
  slotFree : b'.flags.slotFree = b.flags.slotFree
  vaddr : b'.vaddr = b.vaddr
  iflags : IflagsOk b → IflagsOk b'
  us0 : b'.us0 = b.us0
  lastPf : b.flags.lastPf = false → b'.flags.lastPf = false
  hExec : b.flags.hExec = false → b'.flags.hExec = false

variable {b : PramMemBlock} {e : Pte} {m : Frame → PageData} {f0 : Frame} {v : VirBytes}

theorem pageStep_setPage {fm : List Frame} (hok : PageOk k p i) (hb : SameBlock (k.workingSet i) b)
    (hmem : ∀ f, f ∉ framesOf b → m f = k.mem f) (hfm : fm <:+ k.freeMem)
    (hframes : ∀ f ∈ framesOf b, f ∈ framesOf (k.workingSet i) ∨ f ∈ k.freeMem ∧ f ∉ fm)
    (hpte : pteUser e = true) (hmapped : e.pfa ∈ framesOf b) (hdistinct : (framesOf b).Nodup) :
    PageStep p i k (k.setPage p i b e m fm) := by
  have hblock : (k.setPage p i b e m fm).workingSet i = b := by
    simp [setPage, setPte, setProc, setPmb]
  refine ⟨?_, ?_, ?_, ?_, k.getPde_setPage p i b e m fm, ?_, hfm, ?_, ?_⟩
  · have hpmb := WsSame.setPmb (b := b) k i hb.next hb.slotFree hb.vaddr hb.iflags
    refine hpmb.trans ((WsSame.setPte (k.setPmb i b) p b.vaddr e).trans ?_)
    exact WsSame.of_procs rfl (fun _ => ⟨rfl, rfl, rfl⟩)
  · simp [restOf, setPage, setPte, setProc, setPmb]
  · intro j hj
    simp [setPage, setPte, setProc, setPmb, hj]
  · intro v hv
    rw [k.getPte_setPage, hb.vaddr, if_neg hv]
  · rw [hblock]
    exact hmem
  · rw [hblock]
    exact hframes
  have hget : (k.setPage p i b e m fm).getPte p b.vaddr = e := by
    rw [k.getPte_setPage, if_pos rfl]
  exact ⟨by rw [hblock, hb.us0]; exact hok.us0, by rw [hblock]; exact hb.lastPf hok.lastPf,
    by rw [hblock]; exact hb.hExec hok.hExec,
    by rw [hblock, k.getPde_setPage, hb.vaddr]; exact hok.pde, by rw [hblock, hget]; exact hpte,
    by rw [hblock, hget]; exact hmapped, by rw [hblock]; exact hdistinct⟩

theorem pageTo_setPage {f : View → View} (hok : PageOk k p i) (hb : SameBlock (k.workingSet i) b)
    (hus1 : b.us1 = (k.workingSet i).us1) (hus2 : b.us2 = (k.workingSet i).us2)
    (hmem : ∀ f, f ∉ framesOf b → m f = k.mem f) (hpte : pteUser e = true)
    (hmapped : e.pfa ∈ framesOf b) (hview : viewOf b e m = f (view k p i)) :
    PageTo p i f k (k.setPage p i b e m k.freeMem) := by
  have hframes : framesOf b = framesOf (k.workingSet i) := by
    simp only [framesOf, hb.us0, hus1, hus2]
  refine ⟨pageStep_setPage hok hb hmem (List.suffix_refl _)
    (fun f hf => .inl (by rwa [← hframes])) hpte hmapped (by rw [hframes]; exact hok.distinct), ?_⟩
  rw [view_setPage, hview]

theorem PageStep.refl (hok : PageOk k p i) : PageStep p i k k :=
  ⟨WsSame.refl k, rfl, fun _ _ => rfl, fun _ _ => rfl, fun _ => rfl, fun _ _ => rfl,
    List.suffix_refl _, fun _ hf => .inl hf, hok⟩

theorem framesOf_nodup_iff (h0 : b.us0 = some f0) :
    (framesOf b).Nodup ↔ b.us1 ≠ some f0 ∧ b.us2 ≠ some f0 ∧ ∀ f, b.us1 = some f → b.us2 ≠ some f := by
  unfold framesOf
  rw [h0]
  cases h1 : b.us1 <;> cases h2 : b.us2 <;> simp [eq_comm]
  tauto

/-! ## End of a run -/

theorem endFirstPmb_view (hok : PageOk k p i) : PageTo p i endFirst k (endFirstPmb p k i) := by
  obtain ⟨f0, h0⟩ := hok.us0
  unfold endFirstPmb
  simp only
  by_cases hcond : (k.workingSet i).us1 ≠ none ∧ (k.workingSet i).us0 ≠ none ∧
      ((k.workingSet i).flags.hgetPf || (k.getPte p (k.workingSet i).vaddr).dirty) = true
  · rw [if_pos hcond]
    refine pageTo_setPage (m := k.mem) hok ⟨rfl, rfl, rfl, fun h => h, rfl, fun h => h, fun h => h⟩
      rfl rfl (fun _ _ => rfl) hok.pte hok.mapped ?_
    obtain ⟨f1, h1⟩ := Option.ne_none_iff_exists'.mp hcond.1
    simp [endFirst, view, viewOf, h1, hcond.2.2]
  rw [if_neg hcond]
  refine ⟨PageStep.refl hok, ?_⟩
  have hno : ((k.workingSet i).us1.isSome &&
      ((k.workingSet i).flags.hgetPf || (k.getPte p (k.workingSet i).vaddr).dirty)) = false := by
    cases h1 : (k.workingSet i).us1 <;> simp_all
  simp [endFirst, view, viewOf, hno]

theorem cpyTo_mem (k : Kernel) (f : Frame) (o : Option Frame) (g : Frame) :
    (k.cpyTo f o).mem g = if o = some g then k.mem f else k.mem g := by
  unfold cpyTo cpyFrames
  cases o with
  | none => simp
  | some d =>
    by_cases hg : g = d
    · simp [hg]
    · simp [hg, Ne.symm hg]

theorem setPage_cpyTo (k : Kernel) (p : ProcNr) (i : Fin workingSetSize) (b : PramMemBlock)
    (e : Pte) (f : Frame) (o o' : Option Frame) :
    (((k.setPmb i b).cpyTo f o).cpyTo f o').setPte p b.vaddr e =
      k.setPage p i b e ((k.cpyTo f o).cpyTo f o').mem k.freeMem := by
  cases o <;> cases o' <;> rfl

theorem viewOf_copies {b : PramMemBlock} {f0 : Frame} (h0 : b.us0 = some f0)
    (hd : (framesOf b).Nodup) (e : Pte) :
    viewOf b e ((k.cpyTo f0 b.us1).cpyTo f0 b.us2).mem = { viewOf b e k.mem with
        c1 := b.us1.map (fun _ => k.mem f0), c2 := b.us2.map (fun _ => k.mem f0) } := by
  obtain ⟨h01, h02, h12⟩ := (framesOf_nodup_iff h0).mp hd
  have hmem : ∀ g, ((k.cpyTo f0 b.us1).cpyTo f0 b.us2).mem g =
      if b.us1 = some g ∨ b.us2 = some g then k.mem f0 else k.mem g := by
    intro g
    rw [cpyTo_mem, cpyTo_mem, cpyTo_mem, if_neg h01]
    by_cases h1 : b.us1 = some g <;> by_cases h2 : b.us2 = some g <;> simp [h1, h2]
  unfold viewOf
  simp only [hmem, h0, frameOr, Option.getD_some, h01, h02, or_self, ↓reduceIte]
  congr 1
  · exact Option.map_congr (fun g hg => by rw [hmem, if_pos (Or.inl hg)])
  · exact Option.map_congr (fun g hg => by rw [hmem, if_pos (Or.inr hg)])

theorem copies_outside {f0 g : Frame} (hg : g ∉ framesOf b) :
    ((k.cpyTo f0 b.us1).cpyTo f0 b.us2).mem g = k.mem g := by
  have h1 : b.us1 ≠ some g := fun h => hg (by simp [framesOf, h])
  have h2 : b.us2 ≠ some g := fun h => hg (by simp [framesOf, h])
  rw [cpyTo_mem, if_neg h2, cpyTo_mem, if_neg h1]

theorem resetPmb_view (hok : PageOk k p i) : PageTo p i reset k (resetPmb p k i) := by
  obtain ⟨f0, h0⟩ := hok.us0
  have hb : SameBlock (k.workingSet i)
      { k.workingSet i with flags := (k.workingSet i).flags.clearRun } :=
    ⟨rfl, rfl, rfl, fun h => h, rfl, fun h => h, fun h => h⟩
  unfold resetPmb
  simp only
  split
  · rename_i hus0
    rw [h0] at hus0
    exact absurd hus0 (by simp)
  rename_i us0 hus0
  rw [h0] at hus0
  obtain rfl := Option.some.inj hus0
  by_cases hnone : (k.workingSet i).us1 = none ∧ (k.workingSet i).us2 = none
  · rw [if_pos hnone]
    have heq : k.setPmb i { k.workingSet i with flags := (k.workingSet i).flags.clearRun } =
        k.setPage p i { k.workingSet i with flags := (k.workingSet i).flags.clearRun }
          (k.getPte p (k.workingSet i).vaddr) k.mem k.freeMem := by
      simp [setPage, setPte, setProc, setPmb, getPte]
    rw [heq]
    refine pageTo_setPage hok hb rfl rfl (fun _ _ => rfl) hok.pte hok.mapped ?_
    simp [reset, view, viewOf, hnone, PmbFlags.clearRun]
  rw [if_neg hnone, setPage_cpyTo k p i
    { k.workingSet i with flags := (k.workingSet i).flags.clearRun }]
  refine pageTo_setPage hok hb rfl rfl (fun g hg => copies_outside hg) hok.pte
    (by simp [framesOf, h0]) ?_
  obtain ⟨h01, h02, -⟩ := (framesOf_nodup_iff h0).mp hok.distinct
  have hsome : ((k.workingSet i).us1.isNone && (k.workingSet i).us2.isNone) = false := by
    cases h1 : (k.workingSet i).us1 <;> cases h2 : (k.workingSet i).us2 <;> simp_all
  have hcopies := viewOf_copies (k := k)
    (b := { k.workingSet i with flags := (k.workingSet i).flags.clearRun }) h0 hok.distinct
    { k.getPte p (k.workingSet i).vaddr with write := true, pfa := f0 }
  rw [hcopies]
  simp [reset, view, viewOf, h0, h01, h02, hsome, frameOr, PmbFlags.clearRun, comp_def]

/-! ## Commit -/

theorem SamePages.of_eraseHmes (p : ProcNr) (h : eraseHmes k' = eraseHmes k) :
    SamePages p k k' := by
  have hws := congrArg workingSet h
  have hmem := congrArg Kernel.mem h
  have hfree := congrArg Kernel.freeMem h
  have hpt := congrArg (fun k : Kernel => (k.procs p).pt) h
  exact ⟨hws, hmem, hfree, hpt, WsSame.of_eraseHmes h⟩

theorem restOf_of_eraseHmes (p : ProcNr) (h : eraseHmes k' = eraseHmes k) :
    restOf p k' = restOf p k := by
  have hrest := congrArg (restOf p) h
  exact hrest

theorem PageTo.of_eraseHmes {f : View → View} {k₁ : Kernel} (h : PageTo p i f k k₁)
    (herase : eraseHmes k' = eraseHmes k₁) : PageTo p i f k k' := by
  have hpages := SamePages.of_eraseHmes p herase
  obtain ⟨hs, hv⟩ := h
  refine ⟨⟨hs.same.trans hpages.same, (restOf_of_eraseHmes p herase).trans hs.rest,
    fun j hj => by rw [hpages.blocks]; exact hs.blocks j hj,
    fun v hv => by rw [hpages.pte]; exact hs.ptes v hv,
    fun v => by rw [hpages.pde]; exact hs.pdes v, by rw [hpages.blocks, hpages.mem]; exact hs.mem,
    by rw [hpages.freeMem]; exact hs.freeMem,
    by rw [hpages.blocks, hpages.freeMem]; exact hs.frames, hpages.pageOk hs.page⟩, ?_⟩
  rw [hpages.view_eq, hv]

theorem eraseHmes_write {k₀ k₁ : Kernel} (h : eraseHmes k₁ = eraseHmes k₀) (v : VirBytes) (e : Pte)
    (b : PramMemBlock) :
    eraseHmes ((k₁.setPte p v e).setPmb i b) = eraseHmes ((k₀.setPte p v e).setPmb i b) := by
  have hcomm (k : Kernel) : eraseHmes ((k.setPte p v e).setPmb i b) =
      ((eraseHmes k).setPte p v e).setPmb i b := by
    unfold eraseHmes setPmb setPte setProc
    congr 1
    funext q
    by_cases hq : q = p
    · subst hq
      simp
    · simp [hq]
  rw [hcomm, hcomm, h]

theorem commitPmb_view (hok : PageOk k p i) (hrun : commitPmb p k i = some k') :
    PageTo p i commit k k' := by
  obtain ⟨f0, h0⟩ := hok.us0
  obtain ⟨h01, h02, h12⟩ := (framesOf_nodup_iff h0).mp hok.distinct
  unfold commitPmb at hrun
  split at hrun
  · simp at hrun
  rename_i k1 e hframe
  obtain rfl := Option.some.inj hrun
  unfold commitFrame at hframe
  simp only at hframe
  split at hframe
  · rename_i us2 us0 hus2 hus0 hcond
    rw [h0] at hus0
    obtain rfl := Option.some.inj hus0
    split at hframe
    · simp at hframe
    rename_i k2 hev
    obtain ⟨rfl, rfl⟩ := Prod.mk.inj (Option.some.inj hframe)
    generalize hk0 : (k.cpyFrames us2 f0).setPmb i { k.workingSet i with
      flags := { (k.workingSet i).flags with
        iwsPfSecond := (k.workingSet i).flags.iwsPfSecond ||
          ((k.workingSet i).flags.iwsModKernel && (k.getPte p (k.workingSet i).vaddr).dirty)
        hgetPf := false } } = k0 at hev
    have herase : eraseHmes k2 = eraseHmes k0 := by
      split_ifs at hev
      · exact eraseHmes_enableHmeEventInProcs hev
      · rw [Option.some.inj hev]
    have hblock : k2.workingSet i = k0.workingSet i := by
      have := congrArg (fun k : Kernel => k.workingSet i) herase
      exact this
    refine PageTo.of_eraseHmes ?_ (eraseHmes_write herase _ _ _)
    have heq : (k0.setPte p (k2.workingSet i).vaddr
        { k.getPte p (k.workingSet i).vaddr with
          dirty := false, write := true, pfa := frameOr (k2.workingSet i).us0 }).setPmb i
        { k2.workingSet i with flags := { (k2.workingSet i).flags with iwsModKernel := false } } =
        k.setPage p i
          { k.workingSet i with
            flags := { (k.workingSet i).flags with
              iwsPfSecond := (k.workingSet i).flags.iwsPfSecond ||
                ((k.workingSet i).flags.iwsModKernel && (k.getPte p (k.workingSet i).vaddr).dirty)
              hgetPf := false
              iwsModKernel := false } }
          { k.getPte p (k.workingSet i).vaddr with dirty := false, write := true, pfa := f0 }
          (update k.mem f0 (k.mem us2)) k.freeMem := by
      rw [hblock, ← hk0]
      simp [setPage, setPte, setProc, setPmb, cpyFrames,
        frameOr, h0]
    rw [heq]
    refine pageTo_setPage hok ⟨rfl, rfl, rfl, fun h => h, rfl, fun h => h, fun h => h⟩ rfl rfl
      (fun g hg => ?_) hok.pte (by simp [framesOf, h0]) ?_
    · have hne : g ≠ f0 := by
        rintro rfl
        exact hg (by simp [framesOf, h0])
      rw [update_of_ne hne]
    have hne1 : ∀ g, (k.workingSet i).us1 = some g → g ≠ f0 := fun g hg heq => h01 (heq ▸ hg)
    have hne2 : us2 ≠ f0 := fun heq => h02 (heq ▸ hus2)
    have hc1 : (k.workingSet i).us1.map (update k.mem f0 (k.mem us2)) =
        (k.workingSet i).us1.map k.mem :=
      Option.map_congr (fun g hg => update_of_ne (hne1 g hg) _ _)
    simp [commit, commitCopy, view, viewOf, hcond, hus2, h0, h01, hc1, frameOr, hne2]
  · rename_i hno
    obtain ⟨rfl, rfl⟩ := Prod.mk.inj (Option.some.inj hframe)
    have hskip : ((k.workingSet i).us2.isSome &&
        ((k.workingSet i).flags.hgetPf || (k.getPte p (k.workingSet i).vaddr).dirty)) = false := by
      cases h2 : (k.workingSet i).us2 with
      | none => rfl
      | some us2 =>
        rw [Option.isSome_some, Bool.true_and, ← Bool.not_eq_true]
        exact fun hcond => hno us2 f0 h2 h0 hcond
    refine pageTo_setPage (m := k.mem) hok ⟨rfl, rfl, rfl, fun h => h, rfl, fun h => h, fun h => h⟩
      rfl rfl (fun _ _ => rfl) hok.pte (by simp [framesOf, h0, frameOr]) ?_
    simp [commit, commitCopy, view, viewOf, hskip, h0, h01, h02, frameOr]

/-! ## Start of a run -/

theorem updateWsUs1Us2DataVaddr_view (h : PeInv k p L)
    (hi : i ∈ L) (hv : pageOf (k.workingSet i).vaddr = pageOf v)
    (hrun : updateWsUs1Us2DataVaddr p k v = some k') : PageTo p i event k k' := by
  have hok := h.pages i hi
  obtain ⟨f0, h0⟩ := hok.us0
  unfold updateWsUs1Us2DataVaddr at hrun
  rw [h.lookUpPte_eq hi hv] at hrun
  simp only at hrun
  rw [if_neg (by simp [hok.hExec])] at hrun
  split at hrun
  · rename_i us0 us1 us2 hus0 hus1 hus2
    rw [h0] at hus0
    obtain rfl := Option.some.inj hus0
    obtain rfl := Option.some.inj hrun
    have heq : ((k.cpyFrames f0 us1).cpyFrames f0 us2).setPmb i { k.workingSet i with
        flags := { (k.workingSet i).flags with iwsModKernel := true } } =
        k.setPage p i { k.workingSet i with
          flags := { (k.workingSet i).flags with iwsModKernel := true } }
          (k.getPte p (k.workingSet i).vaddr)
          ((k.cpyTo f0 (k.workingSet i).us1).cpyTo f0 (k.workingSet i).us2).mem k.freeMem := by
      rw [hus1, hus2]
      simp [setPage, setPte, setProc, setPmb, getPte,
        cpyTo, cpyFrames]
    rw [heq]
    refine pageTo_setPage hok ⟨rfl, rfl, rfl, fun h => h, rfl, fun h => h, fun h => h⟩ rfl rfl
      (fun g hg => copies_outside hg) hok.pte hok.mapped ?_
    have hcopies := viewOf_copies (k := k) (b := { k.workingSet i with
      flags := { (k.workingSet i).flags with iwsModKernel := true } }) h0 hok.distinct
      (k.getPte p (k.workingSet i).vaddr)
    rw [hcopies]
    simp [event, both, synced, view, viewOf, hus1, hus2, h0, frameOr]
  rename_i hno
  obtain rfl := Option.some.inj hrun
  refine ⟨PageStep.refl hok, ?_⟩
  have hboth : ((k.workingSet i).us1.isSome && (k.workingSet i).us2.isSome) = false := by
    cases h1 : (k.workingSet i).us1 <;> cases h2 : (k.workingSet i).us2 <;> simp
    exact hno _ _ _ h0 h1 h2
  simp [event, both, view, viewOf, hboth]

theorem markShared_eq (k : Kernel) (p : ProcNr) (i : Fin workingSetSize) :
    ∃ sh, markShared k p i = k.setPmb i { k.workingSet i with
      flags := { (k.workingSet i).flags with wsShared := sh } } := by
  unfold markShared
  simp only
  split
  · exact ⟨true, rfl⟩
  · refine ⟨(k.workingSet i).flags.wsShared, ?_⟩
    simp [setPmb]

theorem viewOf_roPte (step : HStep)
    (h0 : b.us0 = some f0) (hd : (framesOf b).Nodup) (hmapped : e.pfa ∈ framesOf b)
    (m : Frame → PageData) : viewOf b (roPte step b e) m = (viewOf b e m).protect step := by
  obtain ⟨h01, h02, h12⟩ := (framesOf_nodup_iff h0).mp hd
  simp only [framesOf, h0, Option.toList_some, List.cons_append, List.nil_append, List.mem_cons,
    List.mem_append, Option.mem_toList] at hmapped
  by_cases hstep : step = .firstRun <;> cases h1 : b.us1 <;> cases h2 : b.us2 <;>
    simp_all [roPte, protect, startSlot, kept, viewOf, frameOr, runSlot,
      Bool.and_or_distrib_left]
  exact Ne.symm h12

theorem roPte_ok (step : HStep) (h0 : b.us0 = some f0)
    (hmapped : e.pfa ∈ framesOf b) (hpte : pteUser e = true) :
    (roPte step b e).pfa ∈ framesOf b ∧ pteUser (roPte step b e) = true := by
  unfold pteUser at hpte
  by_cases hstep : step = .firstRun <;> cases h1 : b.us1 <;> cases h2 : b.us2 <;>
    simp_all [roPte, framesOf, frameOr, pteUser]

def PramMemBlock.withFlags (b : PramMemBlock) (f : PmbFlags) : PramMemBlock := { b with flags := f }

theorem setPage_roPte_view {f : PmbFlags} (hok : PageOk k p i)
    (hb : SameBlock (k.workingSet i) ((k.workingSet i).withFlags f))
    (hmem : ∀ g, g ∉ framesOf (k.workingSet i) → m g = k.mem g)
    (hview : viewOf ((k.workingSet i).withFlags f) (k.getPte p (k.workingSet i).vaddr) m =
      (view k p i).update) (hw : (k.getPte p (k.workingSet i).vaddr).write = true) (step : HStep) :
    PageTo p i (View.ro step) k (k.setPage p i ((k.workingSet i).withFlags f)
      (roPte step ((k.workingSet i).withFlags f) (k.getPte p (k.workingSet i).vaddr)) m
      k.freeMem) := by
  obtain ⟨f0, h0⟩ := hok.us0
  obtain ⟨hm, hu⟩ := roPte_ok (b := (k.workingSet i).withFlags f) step h0 hok.mapped hok.pte
  refine pageTo_setPage hok hb rfl rfl hmem hu hm ?_
  have hw' : (view k p i).write = true := hw
  have hprotect := viewOf_roPte (b := (k.workingSet i).withFlags f) step h0 hok.distinct hok.mapped m
  rw [hprotect, hview, View.ro, if_pos hw']

theorem setPmbToRo_view (h : PeInv k p L) (hi : i ∈ L) :
    ∃ k', setPmbToRo p k i = some k' ∧ PageTo p i (View.ro k.hStep) k k' := by
  have hok := h.pages i hi
  obtain ⟨f0, h0⟩ := hok.us0
  have hpfa : (k.getPte p (k.workingSet i).vaddr).pfa ≠ 0 := fun hz =>
    h.nonzero i hi (hz ▸ hok.mapped)
  unfold setPmbToRo
  simp only [hok.pde, checkPtEntry_eq hok.pte, Bool.not_true, Bool.false_or, Bool.not_eq_eq_eq_not]
  cases hw : (k.getPte p (k.workingSet i).vaddr).write with
  | false =>
    refine ⟨k, by simp, PageStep.refl hok, ?_⟩
    have hro : (view k p i).write = false := hw
    simp [View.ro, hro]
  | true =>
    obtain ⟨sh, hmark⟩ := markShared_eq k p i
    rw [hmark]
    have hblock : ∀ b : PramMemBlock, (k.setPmb i b).workingSet i = b := fun b => by
      simp [setPmb]
    by_cases hup : (k.workingSet i).flags.hToUpdate = true ∧ (k.workingSet i).us1.isSome = true ∧
        (k.workingSet i).us2.isSome = true
    · obtain ⟨hflag, hs1, hs2⟩ := hup
      obtain ⟨f1, h1⟩ := Option.isSome_iff_exists.mp hs1
      obtain ⟨f2, h2⟩ := Option.isSome_iff_exists.mp hs2
      have hrun : updatePrivate (k.setPmb i ((k.workingSet i).withFlags
          { (k.workingSet i).flags with wsShared := sh })) i =
          some { k.setPmb i ((k.workingSet i).withFlags
            { (k.workingSet i).flags with wsShared := sh, hToUpdate := false }) with
            mem := ((k.cpyTo f0 (k.workingSet i).us1).cpyTo f0 (k.workingSet i).us2).mem } := by
        unfold updatePrivate
        simp only [hblock, withFlags, hflag, h1, h2, h0]
        simp [setPmb, cpyTo, cpyFrames]
      have hturn := setPage_roPte_view hok (f := { (k.workingSet i).flags with
        wsShared := sh, hToUpdate := false })
        (m := ((k.cpyTo f0 (k.workingSet i).us1).cpyTo f0 (k.workingSet i).us2).mem)
        ⟨rfl, rfl, rfl, fun h => h, rfl, fun h => h, fun h => h⟩ (fun g hg => copies_outside hg)
        (by
          have hcopies := viewOf_copies (k := k) (b := (k.workingSet i).withFlags
            { (k.workingSet i).flags with wsShared := sh, hToUpdate := false }) h0 hok.distinct
            (k.getPte p (k.workingSet i).vaddr)
          refine hcopies.trans ?_
          simp [View.update, both, synced, view, viewOf, withFlags, hflag,
            h0, h1, h2, frameOr])
        hw k.hStep
      refine ⟨_, ?_, hturn⟩
      unfold withFlags at hrun
      rw [hrun]
      simp [hpfa, setPage, setPte, setProc, setPmb,
        withFlags]
    · have hrun : updatePrivate (k.setPmb i ((k.workingSet i).withFlags
          { (k.workingSet i).flags with wsShared := sh })) i =
          some (k.setPmb i ((k.workingSet i).withFlags
            { (k.workingSet i).flags with wsShared := sh })) := by
        unfold updatePrivate
        simp only [hblock]
        split
        · rename_i hf h1 h2
          refine absurd ⟨hf, ?_, ?_⟩ hup
          · exact Option.isSome_iff_exists.mpr ⟨_, h1⟩
          · exact Option.isSome_iff_exists.mpr ⟨_, h2⟩
        · rfl
      have hno : ¬ ((view k p i).flags.hToUpdate && (view k p i).both) = true := by
        simpa [view, viewOf, both] using hup
      have hturn := setPage_roPte_view hok (f := { (k.workingSet i).flags with wsShared := sh })
        (m := k.mem) ⟨rfl, rfl, rfl, fun h => h, rfl, fun h => h, fun h => h⟩ (fun _ _ => rfl)
        (by rw [View.update, if_neg hno]; rfl) hw k.hStep
      refine ⟨_, ?_, hturn⟩
      unfold withFlags at hrun
      rw [hrun]
      simp [hpfa, setPage, setPte, setProc, setPmb,
        withFlags]

/-! ## Stores -/

theorem Kernel.getPte_congr (k : Kernel) (p : ProcNr) {v w : VirBytes} (h : pageOf v = pageOf w) :
    k.getPte p v = k.getPte p w := by
  simp only [getPte, h]

theorem pdeOf_eq_of_pageOf {v w : VirBytes} (h : pageOf v = pageOf w) : pdeOf v = pdeOf w := by
  unfold pageOf at h
  have hv : pteOf v < 1024 := Nat.mod_lt _ (by decide)
  have hw : pteOf w < 1024 := Nat.mod_lt _ (by decide)
  omega

theorem Kernel.getPde_congr (k : Kernel) (p : ProcNr) {v w : VirBytes} (h : pageOf v = pageOf w) :
    k.getPde p v = k.getPde p w := by
  simp only [getPde, pdeOf_eq_of_pageOf h]

theorem PageOk.allowed (hok : PageOk k p i) (hv : pageOf (k.workingSet i).vaddr = pageOf v) :
    k.canLoad p v = true ∧ k.canStore p v = (view k p i).write := by
  have hpde := hok.pde
  have hpte := hok.pte
  rw [k.getPde_congr p hv] at hpde
  rw [k.getPte_congr p hv] at hpte
  simp only [checkPtEntry, pteUser, Bool.and_eq_true] at hpde hpte
  have hload : k.canLoad p v = true := by
    simp [canLoad, hpde, hpte]
  refine ⟨hload, ?_⟩
  simp [canStore, hload, hpde, view, viewOf, k.getPte_congr p hv]

theorem PageOk.slot_cases (hok : PageOk k p i) (h0 : (k.workingSet i).us0 = some f0) :
    ((k.getPte p (k.workingSet i).vaddr).pfa = f0 ∧ (view k p i).slot = .us0) ∨
      ((k.workingSet i).us1 = some (k.getPte p (k.workingSet i).vaddr).pfa ∧
        (view k p i).slot = .us1) ∨
      ((k.workingSet i).us2 = some (k.getPte p (k.workingSet i).vaddr).pfa ∧
        (view k p i).slot = .us2) := by
  obtain ⟨h01, h02, h12⟩ := (framesOf_nodup_iff h0).mp hok.distinct
  have hmapped := hok.mapped
  simp only [framesOf, h0, Option.toList_some, List.cons_append, List.nil_append, List.mem_cons,
    List.mem_append, Option.mem_toList] at hmapped
  unfold view viewOf
  rcases hmapped with h | h | h
  · exact .inl ⟨h, by simp [h, h01, h02]⟩
  · exact .inr (.inl ⟨h, by simp [h]⟩)
  · refine .inr (.inr ⟨h, ?_⟩)
    have h1 : (k.workingSet i).us1 ≠ some (k.getPte p (k.workingSet i).vaddr).pfa :=
      fun h1 => h12 _ h1 h
    simp [h, h1]

theorem PageOk.visible_eq (hok : PageOk k p i)
    (hv : pageOf (k.workingSet i).vaddr = pageOf v) : visible k p v = (view k p i).content := by
  obtain ⟨f0, h0⟩ := hok.us0
  unfold visible
  rw [← k.getPte_congr p hv]
  unfold content
  rcases hok.slot_cases h0 with ⟨h, hs⟩ | ⟨h, hs⟩ | ⟨h, hs⟩ <;> rw [hs] <;>
    simp [view, viewOf, h, h0, frameOr]

theorem view_mapped (k : Kernel) (p : ProcNr) (i : Fin workingSetSize) : (view k p i).Mapped := by
  unfold View.Mapped view viewOf
  by_cases h1 : (k.workingSet i).us1 = some (k.getPte p (k.workingSet i).vaddr).pfa
  · simp [h1]
  · by_cases h2 : (k.workingSet i).us2 = some (k.getPte p (k.workingSet i).vaddr).pfa
    · simp [h1, h2]
    · simp [h1, h2]

theorem storeByte_view (hok : PageOk k p i)
    (hv : pageOf (k.workingSet i).vaddr = pageOf v) (b : UInt8) :
    PageTo p i (written [(pageOffset v, b)]) k (k.storeByte p v b) := by
  obtain ⟨f0, h0⟩ := hok.us0
  obtain ⟨h01, h02, h12⟩ := (framesOf_nodup_iff h0).mp hok.distinct
  have hpte := k.getPte_congr p hv
  have heq : k.storeByte p v b = k.setPage p i (k.workingSet i)
      { k.getPte p (k.workingSet i).vaddr with dirty := true }
      (update k.mem (k.getPte p (k.workingSet i).vaddr).pfa
        (update (k.mem (k.getPte p (k.workingSet i).vaddr).pfa) (pageOffset v) b))
      k.freeMem := by
    simp [storeByte, setPage, setPte, setProc, setPmb, hpte, hv]
  rw [heq]
  refine pageTo_setPage hok ⟨rfl, rfl, rfl, fun h => h, rfl, fun h => h, fun h => h⟩ rfl rfl
    (fun g hg => ?_) hok.pte hok.mapped ?_
  · have hne : g ≠ (k.getPte p (k.workingSet i).vaddr).pfa := fun heq => hg (heq ▸ hok.mapped)
    rw [update_of_ne hne]
  have hcontent := hok.visible_eq (v := (k.workingSet i).vaddr) rfl
  unfold visible at hcontent
  unfold written
  rw [← hcontent, applyStores_cons, applyStores_nil]
  generalize update (k.mem (k.getPte p (k.workingSet i).vaddr).pfa) (pageOffset v) b = c
  -- a private frame that is not mapped keeps its content
  have hother : ∀ o : Option Frame, o ≠ some (k.getPte p (k.workingSet i).vaddr).pfa →
      o.map (update k.mem (k.getPte p (k.workingSet i).vaddr).pfa c) = o.map k.mem := by
    intro o ho
    refine Option.map_congr (fun g hg => update_of_ne (fun heq => ho ?_) _ _)
    rw [hg, heq]
  unfold setContent
  rcases hok.slot_cases h0 with ⟨h, hs⟩ | ⟨h, hs⟩ | ⟨h, hs⟩ <;> rw [hs]
  · have h1 : (k.workingSet i).us1 ≠ some (k.getPte p (k.workingSet i).vaddr).pfa := h ▸ h01
    have h2 : (k.workingSet i).us2 ≠ some (k.getPte p (k.workingSet i).vaddr).pfa := h ▸ h02
    simp only [view, viewOf, hother _ h1, hother _ h2, h0, frameOr, Option.getD_some]
    rw [← h, update_self]
    simp [h1, h2]
  · have h2 := h12 _ h
    have h0' : f0 ≠ (k.getPte p (k.workingSet i).vaddr).pfa := fun heq => h01 (heq ▸ h)
    simp only [view, viewOf, hother _ h2, h0, frameOr, Option.getD_some, update_of_ne h0']
    simp [h]
  have h1 : (k.workingSet i).us1 ≠ some (k.getPte p (k.workingSet i).vaddr).pfa :=
    fun h1 => h12 _ h1 h
  have h0' : f0 ≠ (k.getPte p (k.workingSet i).vaddr).pfa := fun heq => h02 (heq ▸ h)
  simp only [view, viewOf, hother _ h1, h0, frameOr, Option.getD_some, update_of_ne h0']
  simp [h, h1]

/-! ## Page faults -/

/-- The state in which `check_vaddr_2` looks for the block: the fault is recorded. -/
def faulted (k : Kernel) (v : VirBytes) : Kernel :=
  { k with cr := { k.cr with cr2 := UInt32.ofNat v } }.recordFault v

theorem faulted_eq (k : Kernel) (v : VirBytes) : ∃ a b, faulted k v = { k with
      cr := { k.cr with cr2 := UInt32.ofNat v }, pagefaultAddr1 := a, pagefaultAddr2 := b } := by
  unfold faulted recordFault
  split
  · exact ⟨v, k.pagefaultAddr2, rfl⟩
  · exact ⟨k.pagefaultAddr1, v, rfl⟩

theorem samePages_faulted (k : Kernel) (p : ProcNr) (v : VirBytes) :
    SamePages p k (faulted k v) := by
  obtain ⟨a, b, heq⟩ := faulted_eq k v
  rw [heq]
  exact ⟨rfl, rfl, rfl, rfl, WsSame.of_procs rfl (fun _ => ⟨rfl, rfl, rfl⟩)⟩

theorem PeInv.faulted (h : PeInv k p L) (v : VirBytes) : PeInv (faulted k v) p L :=
  (samePages_faulted k p v).peInv h

theorem PageStep.of_faulted (hs : PageStep p i (faulted k v) k') : PageStep p i k k' := by
  obtain ⟨a, b, heq⟩ := faulted_eq k v
  rw [heq] at hs
  exact ⟨⟨hs.same.next, hs.same.free, hs.same.vaddr, hs.same.iflags, hs.same.inUse, hs.same.first,
    hs.same.size⟩, hs.rest, hs.blocks, hs.ptes, hs.pdes, hs.mem, hs.freeMem, hs.frames, hs.page⟩

theorem checkVaddr2_eq (h : PeInv k p L) (hi : i ∈ L)
    (hv : pageOf (k.workingSet i).vaddr = pageOf v) :
    checkVaddr2 { k with cr := { k.cr with cr2 := UInt32.ofNat v } } p v =
      faultPmb (faulted k v) p v i := by
  have hinv := h.faulted v
  obtain ⟨a, b, heq⟩ := faulted_eq k v
  have hblock : (faulted k v).workingSet i = k.workingSet i := by rw [heq]
  have hok := hinv.pages i hi
  have hpde := hok.pde
  have hpte := hok.pte
  rw [hblock, (faulted k v).getPde_congr p hv] at hpde
  rw [hblock, (faulted k v).getPte_congr p hv] at hpte
  simp only [pteUser, Bool.and_eq_true] at hpte
  have hlook := hinv.lookUpPte_eq hi (v := v) (by rw [hblock]; exact hv)
  unfold checkVaddr2
  simp only
  rw [show ({ k with cr := { k.cr with cr2 := UInt32.ofNat v } } : Kernel).recordFault v =
    faulted k v from rfl]
  rw [hpde, hpte.1.1.1, hlook]
  rfl

theorem PmbFlags.fault_lastPf (step : HStep) (f : PmbFlags) : (f.fault step).lastPf = f.lastPf := by
  unfold PmbFlags.fault
  split <;> rfl

theorem sameBlock_fault (b : PramMemBlock) (step : HStep) :
    SameBlock b (b.withFlags (b.flags.fault step)) :=
  ⟨rfl, PmbFlags.fault_slotFree _ _, rfl, fun h => by simpa [IflagsOk, withFlags] using h,
    rfl, fun h => by simpa [withFlags, PmbFlags.fault_lastPf] using h,
    fun h => by simpa [withFlags] using h⟩

theorem faultPmb_both (hok : PageOk k p i)
    (hv : pageOf (k.workingSet i).vaddr = pageOf v) {f1 f2 : Frame}
    (h1 : (k.workingSet i).us1 = some f1) (h2 : (k.workingSet i).us2 = some f2) :
    (faultPmb k p v i = some (k, .normal) ∧ (view k p i).fault k.hStep = none) ∨
      ∃ k' v', faultPmb k p v i = some (k', .handled) ∧ (view k p i).fault k.hStep = some v' ∧
        PageTo p i (fun _ => v') k k' := by
  obtain ⟨f0, h0⟩ := hok.us0
  obtain ⟨-, -, h12⟩ := (framesOf_nodup_iff h0).mp hok.distinct
  have hboth : (view k p i).both = true := by simp [View.both, view, viewOf, h1, h2]
  unfold faultPmb View.fault
  simp only [h1, h2, hboth, ↓reduceIte]
  by_cases hfork : (k.workingSet i).flags.hFork = true
  · left
    have hfork' : (view k p i).flags.hFork = true := hfork
    simp [hfork, hfork']
  right
  have hfork' : ¬ (view k p i).flags.hFork = true := hfork
  rw [if_neg hfork, if_neg hfork']
  refine ⟨_, _, rfl, rfl, ?_⟩
  have heq : (k.setPte p v { k.getPte p v with
      write := true, pfa := if k.hStep = .firstRun then f1 else f2 }).setPmb i
      ((k.workingSet i).withFlags ((k.workingSet i).flags.fault k.hStep)) =
      k.setPage p i ((k.workingSet i).withFlags ((k.workingSet i).flags.fault k.hStep))
        { k.getPte p (k.workingSet i).vaddr with
          write := true, pfa := if k.hStep = .firstRun then f1 else f2 } k.mem k.freeMem := by
    simp [Kernel.setPage, Kernel.setPte, Kernel.setProc, Kernel.setPmb, PramMemBlock.withFlags,
      hv, k.getPte_congr p hv]
  have hto := pageTo_setPage (m := k.mem) (f := fun _ => { view k p i with
      flags := (view k p i).flags.fault k.hStep, slot := runSlot k.hStep, write := true })
    (e := { k.getPte p (k.workingSet i).vaddr with
      write := true, pfa := if k.hStep = .firstRun then f1 else f2 }) hok
    (sameBlock_fault (k.workingSet i) k.hStep) rfl rfl (fun _ _ => rfl) hok.pte
    (by by_cases hs : k.hStep = .firstRun <;> simp [framesOf, PramMemBlock.withFlags, h1, h2, hs])
    (by
      have hne : f1 ≠ f2 := fun heq => h12 f1 h1 (heq ▸ h2)
      by_cases hs : k.hStep = .firstRun <;>
        simp [view, viewOf, PramMemBlock.withFlags, h1, h2, hs, runSlot, hne, PmbFlags.fault])
  rw [← heq] at hto
  simpa [PramMemBlock.withFlags, h1, h2] using hto

theorem PeInv.lookUpUniquePte_le (h : PeInv k p L) (v : VirBytes) : lookUpUniquePte k p v ≤ 1 := by
  obtain ⟨A, hws, rfl⟩ := h.lists
  unfold lookUpUniquePte
  rw [(hws.chain h.inUse).follow_eq]
  have hcount : (A p).countP (fun i => samePage (k.workingSet i).vaddr v) =
      ((A p).map (fun i => pageOf (k.workingSet i).vaddr)).count (pageOf v) := by
    rw [List.count, List.countP_map]
    refine List.countP_congr (fun i _ => ?_)
    simp [samePage_iff]
  rw [hcount]
  exact List.nodup_iff_count_le_one.mp (hws.unique p) _

theorem lookUpLastpfPte_eq (h : PeInv k p L) (hi : i ∈ L) {f : PmbFlags}
    (hb : SameBlock (k.workingSet i) ((k.workingSet i).withFlags { f with lastPf := false }))
    (hlast : f.lastPf = true) :
    lookUpLastpfPte (k.setPmb i ((k.workingSet i).withFlags f)) p = some i := by
  obtain ⟨A, hws, rfl⟩ := h.lists
  have hsame := WsSame.setPmb (b := (k.workingSet i).withFlags f) k i hb.next hb.slotFree hb.vaddr
    hb.iflags
  have hws' := hsame.wsOk hws
  have hlive : ((k.setPmb i ((k.workingSet i).withFlags f)).procs p).inUse = true := h.inUse
  have hsize := hws'.size p hlive
  have hpos : 0 < ((k.setPmb i ((k.workingSet i).withFlags f)).procs p).lus1Us2Size := by
    rw [hsize]
    exact List.length_pos_of_mem hi
  unfold lookUpLastpfPte
  rw [if_pos hpos, search_eq_of_chain (hws'.chain hlive)]
  cases hfind : (A p).find? (fun j =>
      ((k.setPmb i ((k.workingSet i).withFlags f)).workingSet j).flags.lastPf) with
  | none =>
    rw [List.find?_eq_none] at hfind
    have hno := hfind i hi
    simp [setPmb, withFlags, hlast] at hno
  | some j =>
    have hj := List.mem_of_find?_eq_some hfind
    have hlabel := List.find?_some hfind
    by_cases hji : j = i
    · rw [hji]
    · have hclean := (h.pages j hj).lastPf
      simp only [setPmb, update_of_ne hji] at hlabel
      rw [hclean] at hlabel
      simp at hlabel

/-- The block after VM supplied the frame of the run. -/
def suppliedPmb (step : HStep) (b : PramMemBlock) (frame : Frame) : PramMemBlock :=
  withRunFrame step (b.withFlags { b.flags.fault step with lastPf := true }) frame

theorem suppliedPmb_vaddr (step : HStep) (b : PramMemBlock) (frame : Frame) :
    (suppliedPmb step b frame).vaddr = b.vaddr := by
  unfold suppliedPmb withRunFrame
  split <;> rfl

theorem setPage_supplied (h : PeInv k p L) (hi : i ∈ L) {new : Frame} {rest : List Frame}
    (hfree : k.freeMem = new :: rest)
    (hmiss : (k.workingSet i).us1 = none ∨ (k.workingSet i).us2 = none) {frame : Frame}
    (hframe : frame = runFrame k.hStep (k.workingSet i) new)
    (h0 : (k.workingSet i).us0 = some f0) :
    ∃ v', (view k p i).fault k.hStep = some v' ∧
      PageTo p i (fun _ => v') k (k.setPage p i (suppliedPmb k.hStep (k.workingSet i) frame)
        { k.getPte p (k.workingSet i).vaddr with write := true, pfa := frame }
        (update k.mem frame (k.mem f0)) rest) := by
  have hok := h.pages i hi
  obtain ⟨h01, h02, h12⟩ := (framesOf_nodup_iff h0).mp hok.distinct
  have hnew : ∀ f ∈ framesOf (k.workingSet i), f ≠ new := by
    rintro f hf rfl
    exact h.fresh i hi f hf (by simp [hfree])
  have hrest : new ∉ rest := by
    have hnd := h.free.1
    rw [hfree] at hnd
    exact (List.nodup_cons.mp hnd).1
  have hsub : rest <:+ k.freeMem := by
    rw [hfree]
    exact List.suffix_cons new rest
  have hnboth : (view k p i).both = false := by
    rcases hmiss with hm | hm <;> simp [View.both, view, viewOf, hm]
  have hb : SameBlock (k.workingSet i) (suppliedPmb k.hStep (k.workingSet i) frame) := by
    unfold suppliedPmb withRunFrame
    refine ⟨?_, ?_, ?_, ?_, ?_, ?_, ?_⟩ <;> split <;> simp [PramMemBlock.withFlags, IflagsOk]
  -- the frame is the old private frame of the run or a new one, and no other frame of the page
  have hin : frame ∈ framesOf (k.workingSet i) ∨ frame = new := by
    rw [hframe]
    unfold runFrame
    by_cases hs : k.hStep = .firstRun
    · cases h1 : (k.workingSet i).us1 <;> simp [hs, framesOf, h1]
    · cases h2 : (k.workingSet i).us2 <;> simp [hs, framesOf, h2]
  have hne0 : frame ≠ f0 := by
    have hf0 := hnew f0 (by simp [framesOf, h0])
    rw [hframe]
    unfold runFrame
    by_cases hs : k.hStep = .firstRun
    · cases h1 : (k.workingSet i).us1 <;> simp_all [Ne.symm hf0]
    · cases h2 : (k.workingSet i).us2 <;> simp_all [Ne.symm hf0]
  have hnew1 : ∀ f, (k.workingSet i).us1 = some f → f ≠ new := fun f hf =>
    hnew f (by simp [framesOf, hf])
  have hnew2 : ∀ f, (k.workingSet i).us2 = some f → f ≠ new := fun f hf =>
    hnew f (by simp [framesOf, hf])
  have hframes : ∀ f, f = frame ∨ f ∈ framesOf (k.workingSet i) →
      f ∈ framesOf (k.workingSet i) ∨ f ∈ k.freeMem ∧ f ∉ rest := by
    rintro f (rfl | hf)
    · rcases hin with hold | rfl
      · exact .inl hold
      · exact .inr ⟨by simp [hfree], hrest⟩
    · exact .inl hf
  by_cases hs : k.hStep = .firstRun
  · have hother : (k.workingSet i).us2 ≠ some frame := by
      rw [hframe]
      intro h2
      cases h1 : (k.workingSet i).us1 with
      | none =>
        simp only [runFrame, hs, ↓reduceIte, h1, Option.getD_none] at h2
        exact hnew2 new h2 rfl
      | some f1 =>
        simp only [runFrame, hs, ↓reduceIte, h1, Option.getD_some] at h2
        exact h12 f1 h1 h2
    refine ⟨{ view k p i with
      flags := (view k p i).flags.fault k.hStep, slot := .us1, write := true,
      c1 := some (view k p i).c0 }, ?_, ?_⟩
    · simp [View.fault, hnboth, hs]
    have hB : framesOf (suppliedPmb k.hStep (k.workingSet i) frame) =
        f0 :: frame :: (k.workingSet i).us2.toList := by
      simp [suppliedPmb, withRunFrame, hs, framesOf, PramMemBlock.withFlags, h0]
    refine ⟨pageStep_setPage hok hb (fun g hg => ?_) hsub (fun f hf => hframes f ?_) hok.pte
      (by simp [hB]) ?_, ?_⟩
    · rw [hB] at hg
      rw [update_of_ne (fun heq => hg (by simp [heq]))]
    · rw [hB] at hf
      simp only [List.mem_cons] at hf
      rcases hf with rfl | rfl | hf
      · exact .inr (by simp [framesOf, h0])
      · exact .inl rfl
      · exact .inr (by simp [framesOf, hf])
    · rw [framesOf_nodup_iff (b := suppliedPmb k.hStep (k.workingSet i) frame) (hb.us0.trans h0)]
      simp only [suppliedPmb, withRunFrame, hs, ↓reduceIte, PramMemBlock.withFlags]
      refine ⟨by simp [hne0], h02, fun f hf => ?_⟩
      rw [← hf]
      exact hother
    rw [view_setPage]
    have hc2 : (k.workingSet i).us2.map (update k.mem frame (k.mem f0)) =
        (k.workingSet i).us2.map k.mem := by
      refine Option.map_congr (fun g hg => update_of_ne (fun heq => hother ?_) _ _)
      rw [hg, heq]
    simp [viewOf, view, suppliedPmb, withRunFrame, hs, PramMemBlock.withFlags, h0, frameOr,
      PmbFlags.fault, hc2, Ne.symm hne0]
  · have hother : (k.workingSet i).us1 ≠ some frame := by
      rw [hframe]
      intro h1
      cases h2 : (k.workingSet i).us2 with
      | none =>
        simp only [runFrame, hs, ↓reduceIte, h2, Option.getD_none] at h1
        exact hnew1 new h1 rfl
      | some f2 =>
        simp only [runFrame, hs, ↓reduceIte, h2, Option.getD_some] at h1
        exact h12 f2 h1 h2
    refine ⟨{ view k p i with
      flags := (view k p i).flags.fault k.hStep, slot := .us2, write := true,
      c2 := some (view k p i).c0 }, ?_, ?_⟩
    · simp [View.fault, hnboth, hs]
    have hB : framesOf (suppliedPmb k.hStep (k.workingSet i) frame) =
        f0 :: ((k.workingSet i).us1.toList ++ [frame]) := by
      simp [suppliedPmb, withRunFrame, hs, framesOf, PramMemBlock.withFlags, h0]
    refine ⟨pageStep_setPage hok hb (fun g hg => ?_) hsub (fun f hf => hframes f ?_) hok.pte
      (by simp [hB]) ?_, ?_⟩
    · rw [hB] at hg
      rw [update_of_ne (fun heq => hg (by simp [heq]))]
    · rw [hB] at hf
      simp only [List.mem_cons, List.mem_append, List.not_mem_nil, or_false] at hf
      rcases hf with rfl | hf | rfl
      · exact .inr (by simp [framesOf, h0])
      · exact .inr (by simp [framesOf, hf])
      · exact .inl rfl
    · rw [framesOf_nodup_iff (b := suppliedPmb k.hStep (k.workingSet i) frame) (hb.us0.trans h0)]
      simp only [suppliedPmb, withRunFrame, hs, ↓reduceIte, PramMemBlock.withFlags]
      refine ⟨h01, by simp [hne0], fun f hf heq => hother ?_⟩
      rw [hf, heq]
    rw [view_setPage]
    have hc1 : (k.workingSet i).us1.map (update k.mem frame (k.mem f0)) =
        (k.workingSet i).us1.map k.mem := by
      refine Option.map_congr (fun g hg => update_of_ne (fun heq => hother ?_) _ _)
      rw [hg, heq]
    simp [viewOf, view, suppliedPmb, withRunFrame, hs, PramMemBlock.withFlags, h0, frameOr,
      PmbFlags.fault, hc1, hother, Ne.symm hne0]

theorem pageFault_view (h : PeInv k p L) (hi : i ∈ L)
    (hv : pageOf (k.workingSet i).vaddr = pageOf v) :
    (pageFault k p v = none ∧ ((view k p i).fault k.hStep = none ∨
        k.freeMem = [] ∧ (view k p i).both = false)) ∨
      ∃ k' v', pageFault k p v = some k' ∧ (view k p i).fault k.hStep = some v' ∧
        ((view k p i).both = false → k.freeMem ≠ []) ∧ PageTo p i (fun _ => v') k k' := by
  have hinv := h.faulted v
  obtain ⟨a, b, heq⟩ := faulted_eq k v
  have hws : (faulted k v).workingSet = k.workingSet := by rw [heq]
  have hstep : (faulted k v).hStep = k.hStep := by rw [heq]
  have hfm : (faulted k v).freeMem = k.freeMem := by rw [heq]
  have hv' : pageOf ((faulted k v).workingSet i).vaddr = pageOf v := by rw [hws]; exact hv
  have hok := hinv.pages i hi
  -- what holds of the state in which the fault was recorded holds of `k`
  have hback {k' : Kernel} {v' : View} (hto : PageTo p i (fun _ => v') (faulted k v) k') :
      PageTo p i (fun _ => v') k k' := ⟨hto.step.of_faulted, hto.view⟩
  unfold pageFault
  rw [checkVaddr2_eq h hi hv]
  rw [← (samePages_faulted k p v).view_eq i, ← hstep, ← hfm]
  generalize faulted k v = k1 at *
  by_cases hboth : (k1.workingSet i).us1 = none ∨ (k1.workingSet i).us2 = none
  · have hnot : (view k1 p i).both = false := by
      rcases hboth with h1 | h2
      · simp [both, view, viewOf, h1]
      · simp [both, view, viewOf, h2]
    have hfault : faultPmb k1 p v i = some (k1.setPmb i ((k1.workingSet i).withFlags
        { (k1.workingSet i).flags.fault k1.hStep with lastPf := true }), .toVm) := by
      have huniq := hinv.lookUpUniquePte_le v
      unfold faultPmb
      simp only [huniq, ↓reduceIte]
      split
      · rename_i h1 h2
        rcases hboth with hm | hm
        · exact absurd h1 (by simp [hm])
        · exact absurd h2 (by simp [hm])
      · rfl
    have hlook := lookUpLastpfPte_eq hinv hi (f := { (k1.workingSet i).flags.fault k1.hStep with
      lastPf := true }) ⟨rfl, PmbFlags.fault_slotFree _ _, rfl,
        fun h => by simpa [IflagsOk, withFlags] using h, rfl, fun _ => rfl,
        fun h => by simpa [withFlags] using h⟩ rfl
    rw [hfault]
    simp only [vmHpagefault, hlook]
    cases hfree : k1.freeMem with
    | nil =>
      left
      simp [setPmb, hfree, hnot]
    | cons new rest =>
      right
      obtain ⟨f0, h0⟩ := hok.us0
      obtain ⟨v', hv', hto⟩ := setPage_supplied hinv hi hfree hboth rfl h0
      refine ⟨_, v', ?_, hv', by simp, hback hto⟩
      have hus0 : ∀ f : PmbFlags, ((k1.workingSet i).withFlags f).us0 = some f0 := fun _ => h0
      have hvaddr : ∀ f : PmbFlags,
          ((k1.workingSet i).withFlags f).vaddr = (k1.workingSet i).vaddr := fun _ => rfl
      have hrun : ∀ f : PmbFlags, runFrame k1.hStep ((k1.workingSet i).withFlags f) new =
          runFrame k1.hStep (k1.workingSet i) new := fun _ => rfl
      simp [setPmb, hfree, setPage, setPte, setProc, cpyFrames,
        hus0, hvaddr, hrun, frameOr, getPte, suppliedPmb_vaddr]
      simp [suppliedPmb]
  · push Not at hboth
    obtain ⟨f1, h1⟩ := Option.ne_none_iff_exists'.mp hboth.1
    obtain ⟨f2, h2⟩ := Option.ne_none_iff_exists'.mp hboth.2
    rcases faultPmb_both hok hv' h1 h2 with ⟨hrun, hnone⟩ | ⟨k', v', hrun, hsome, hto⟩
    · left
      rw [hrun]
      exact ⟨rfl, .inl hnone⟩
    · right
      have hnot : (view k1 p i).both = true := by simp [both, view, viewOf, h1, h2]
      rw [hrun]
      exact ⟨k', v', rfl, hsome, by simp [hnot], hback hto⟩

/-! ## Accesses -/

theorem PageStep.trans {k'' : Kernel} (hs : PageStep p i k k') (hs' : PageStep p i k' k'')
    (hsub : ∀ f ∈ framesOf (k'.workingSet i), f ∈ framesOf (k''.workingSet i)) :
    PageStep p i k k'' where
  same := hs.same.trans hs'.same
  rest := hs'.rest.trans hs.rest
  blocks j hj := (hs'.blocks j hj).trans (hs.blocks j hj)
  ptes v hv := (hs'.ptes v (by rw [hs.same.vaddr]; exact hv)).trans (hs.ptes v hv)
  pdes v := (hs'.pdes v).trans (hs.pdes v)
  mem f hf := (hs'.mem f hf).trans (hs.mem f (fun hmem => hf (hsub f hmem)))
  freeMem := hs'.freeMem.trans hs.freeMem
  frames f hf := by
    rcases hs'.frames f hf with hold | ⟨hin, hout⟩
    · rcases hs.frames f hold with hold | ⟨hin, hout⟩
      · exact .inl hold
      · exact .inr ⟨hin, fun hmem => hout (hs'.freeMem.subset hmem)⟩
    · exact .inr ⟨hs.freeMem.subset hin, hout⟩
  page := hs'.page

theorem perform_load (hok : PageOk k p i) (hv : pageOf (k.workingSet i).vaddr = pageOf v) :
    perform k p (.load v) = some (k, [(view k p i).content (pageOffset v)]) := by
  have hload := (hok.allowed hv).1
  have hvis := hok.visible_eq hv
  unfold visible at hvis
  simp [perform, UserOp.allowed, UserOp.exec, hload, loadByte, hvis]

theorem perform_store (h : PeInv k p L) (hi : i ∈ L)
    (hv : pageOf (k.workingSet i).vaddr = pageOf v) (b : UInt8) :
    (perform k p (.store v b) = none ∧ ((view k p i).store k.hStep (pageOffset v, b) = none ∨
          k.freeMem = [] ∧ (view k p i).both = false)) ∨
      ∃ k' v', perform k p (.store v b) = some (k', []) ∧
        (view k p i).store k.hStep (pageOffset v, b) = some v' ∧
        ((view k p i).write = false → (view k p i).both = false → k.freeMem ≠ []) ∧
        PageTo p i (fun _ => v') k k' := by
  have hok := h.pages i hi
  have hcan := (hok.allowed hv).2
  unfold perform
  simp only [UserOp.allowed, UserOp.exec, UserOp.addr, hcan, store_eq]
  cases hw : (view k p i).write with
  | true =>
    right
    have hto := storeByte_view hok hv b
    refine ⟨_, _, by simp, by simp [opened, hw], by simp, ⟨hto.step, hto.view⟩⟩
  | false =>
    have hopen : (view k p i).opened k.hStep = (view k p i).fault k.hStep := by
      simp [opened, hw]
    rw [hopen]
    rcases pageFault_view h hi hv with ⟨hnone, hwhy⟩ | ⟨k1, v1, hsome, hfault, hsupply, hto⟩
    · left
      rw [hnone]
      refine ⟨by simp, ?_⟩
      rcases hwhy with hno | hmem
      · exact .inl (by rw [hno]; rfl)
      · exact .inr hmem
    right
    have hinv := hto.step.peInv h hi
    have hok1 := hinv.pages i hi
    have hv1 : pageOf (k1.workingSet i).vaddr = pageOf v := by rw [hto.step.same.vaddr]; exact hv
    have hopened : (view k p i).opened k.hStep = some v1 := hopen.trans hfault
    have hcan1 : k1.canStore p v = true := by
      rw [(hok1.allowed hv1).2, hto.view]
      exact opened_write hopened
    have hst := storeByte_view hok1 hv1 b
    refine ⟨k1.storeByte p v b, v1.written [(pageOffset v, b)], ?_, ?_, fun _ => hsupply,
      hto.step.trans hst.step (fun f hf => hf), ?_⟩
    · simp [hsome, hcan1]
    · simp [hfault]
    · rw [hst.view, hto.view]

end HardenedMinix
