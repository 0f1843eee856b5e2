import HardenedMinix.Lib.Runs
import HardenedMinix.Pe.Phases

/-!
# Fork labels

`set_fork_label` puts the flags of each block of the parent aside; `add_region_to_ws` gives them
back when VM maps the page again. In between the private frames belong to a shared `us0`.
-/

open Function List Option

namespace HardenedMinix.ForkLabel

open HardenedMinix Lib Linked

variable {k k' k₁ k₂ : Kernel} {p : ProcNr} {i j : Fin workingSetSize}
  {L : ProcNr → List (Fin workingSetSize)}

/-! ## Runs -/

/-- The flags that each block had before the first fork after which it was not mapped again. -/
abbrev Saved := Fin workingSetSize → PmbFlags

/-- What happens to the working set of a process. -/
inductive Op where
  /-- `set_fork_label` -/
  | fork
  /-- VM writes an entry of the page table. -/
  | map (vaddr : VirBytes) (e : Pte)
  /-- `add_region_to_ws` -/
  | addRegion (rBaseAddr length : Nat) (us1 us2 : Option Frame)
  /-- `set_pe_mem_to_ro` -/
  | start (step : HStep)
  /-- An access of the run that the page table allows. -/
  | access (op : UserOp)
  /-- `check_vaddr_2` -/
  | fault (vaddr : VirBytes)
  /-- VM supplies a private frame. -/
  | supply
  /-- `vm_reset_pram` with `CPY_RAM_FIRST` -/
  | endFirst
  /-- `cmp_mem` -/
  | compare
  /-- `vm_reset_pram` with `CPY_RAM_PRAM` -/
  | commit
  /-- `vm_reset_pram` with `CMP_FAILED` -/
  | fail
  /-- `vm_reset_pram` with `ABORT_PE` -/
  | abort

/-- `none` is a panic or a null pointer. -/
def Op.run (k : Kernel) (p : ProcNr) : Op → Option Kernel
  | .fork => setForkLabel k p
  | .map v e => some (k.setPte p v e)
  | .addRegion base len us1 us2 => addRegionToWs k p base len us1 us2
  | .start step => setPeMemToRo { k with hStep := step } p
  | .access op => if op.allowed k p then some (op.exec k p).1 else none
  | .fault v => (checkVaddr2 k p v).map (·.1)
  | .supply => vmHpagefault k p
  | .endFirst => vmResetPram k p .cpyRamFirst
  | .compare => (cmpMem k p).map (·.1)
  | .commit => vmResetPram k p .cpyRamPram
  | .fail => vmResetPram k p .cmpFailed
  | .abort => vmResetPram k p .abortPe

/-- The fork notes the flags of the blocks that are not labelled yet. -/
def Op.save (k : Kernel) (saved : Saved) : Op → Saved
  | .fork => fun i => if (k.workingSet i).flags.hFork then saved i else (k.workingSet i).flags
  | _ => saved

/-- The kernel, as long as it has not panicked, and what is to be given back. -/
structure State where
  kernel : Option Kernel
  saved : Saved

def State.step (p : ProcNr) (s : State) (op : Op) : State :=
  match s.kernel with
  | none => s
  | some k => ⟨op.run k p, op.save k s.saved⟩

/-! ## What is promised -/

/-- A block of the working set is labelled `H_FORK`. -/
def Labelled (k : Kernel) (p : ProcNr) (i : Fin workingSetSize) : Prop :=
  i ∈ liveBlocks k p ∧ (k.workingSet i).flags.hFork = true

/-- Flags without `H_FORK` and, as `add_region_to_ws` leaves them, with `H_TO_UPDATE`. -/
def unlabelled (f : PmbFlags) : PmbFlags := { f with hFork := false, hToUpdate := true }

/-- `cmp_mem` compares the private frames of a block. -/
def Compared (b : PramMemBlock) : Prop := b.us1 ≠ none ∧ b.us2 ≠ none ∧ b.flags.fws = true

/-- The entry of the page of a block is left alone, or it maps a private frame. -/
def EntryKept (p : ProcNr) (i : Fin workingSetSize) (k k' : Kernel) : Prop :=
  let b := k.workingSet i
  k'.getPte p b.vaddr = k.getPte p b.vaddr ∨ some (k'.getPte p b.vaddr).pfa = b.us1 ∨
    some (k'.getPte p b.vaddr).pfa = b.us2

/-- The flags of pages mapped again are given back; a labelled block is not compared, committed or
mapped from `us0`. -/
def Undone (p : ProcNr) (k : Kernel) (saved : Saved) (k' : Kernel) : Op → Prop
  | .addRegion base len _ _ => ∀ i, Labelled k p i →
      (∃ v ∈ pagesCovered base len, pageOf v = pageOf (k.workingSet i).vaddr) →
      (k'.workingSet i).flags = unlabelled (saved i)
  | .start _ | .fault _ | .supply | .endFirst => ∀ i, Labelled k p i → i ∈ liveBlocks k' p →
      EntryKept p i k k'
  | .compare => ∀ i, Labelled k p i → ¬ Compared (k.workingSet i)
  | .commit | .fail | .abort => ∀ i, Labelled k p i → EntryKept p i k k' ∧
      ∀ f, (k.workingSet i).us0 = some f → k'.mem f = k.mem f
  | _ => True

/-- It forks only while all blocks have private frames and those still labelled have the flags put
aside; no labelled block is stored to; no element ends while one is labelled. -/
def Good (p : ProcNr) (k : Kernel) : Op → Prop
  | .fork => ∀ i ∈ liveBlocks k p, (k.workingSet i).us1 ≠ none ∧ (k.workingSet i).us2 ≠ none ∧
      ((k.workingSet i).flags.hFork = true →
        unlabelled (k.workingSet i).flags = unlabelled (k.workingSet i).iflags)
  | .addRegion base len _ _ => missing k p (pagesCovered base len) + totalSize k ≤ workingSetSize
  | .endFirst => ∀ i, Labelled k p i → (k.getPte p (k.workingSet i).vaddr).dirty = false
  | .commit | .fail | .abort => ∀ i, ¬ Labelled k p i
  | _ => True

/-! ## The invariant -/

/-- No block has `H_EXEC`: `set_exec_label` is not called. -/
def NoExec (k : Kernel) : Prop :=
  ∀ i, (k.workingSet i).flags.hExec = false ∧ (k.workingSet i).iflags.hExec = false

/-- A labelled block has both private frames, has not been written to, and has the flags to be given
back. -/
structure LabelOk (b : PramMemBlock) (f : PmbFlags) : Prop where
  us1 : b.us1 ≠ none
  us2 : b.us2 ≠ none
  lastPf : b.flags.lastPf = false
  hgetPf : b.flags.hgetPf = false
  fws : b.flags.fws = false
  aside : unlabelled b.iflags = unlabelled f

structure Inv (p : ProcNr) (k : Kernel) (saved : Saved) : Prop where
  lists : WsInv k
  inUse : (k.procs p).inUse = true
  noExec : NoExec k
  labels : ∀ i, Labelled k p i → LabelOk (k.workingSet i) (saved i)

/-- A block after a step that does not concern its label. -/
structure SameLabel (b b' : PramMemBlock) : Prop where
  hFork : b'.flags.hFork = b.flags.hFork
  hExec : b'.flags.hExec = b.flags.hExec
  iflags : b'.iflags = b.iflags

/-- A labelled block after a step that leaves it alone. -/
structure Quiet (b b' : PramMemBlock) : Prop extends SameLabel b b' where
  us1 : b'.us1 = b.us1
  us2 : b'.us2 = b.us2
  vaddr : b'.vaddr = b.vaddr
  lastPf : b'.flags.lastPf = b.flags.lastPf
  hgetPf : b'.flags.hgetPf = b.flags.hgetPf
  fws : b.flags.fws = false → b'.flags.fws = false

theorem SameLabel.refl (b : PramMemBlock) : SameLabel b b := ⟨rfl, rfl, rfl⟩

theorem SameLabel.trans {b b' b'' : PramMemBlock} (h : SameLabel b b') (h' : SameLabel b' b'') :
    SameLabel b b'' :=
  ⟨h'.hFork.trans h.hFork, h'.hExec.trans h.hExec, h'.iflags.trans h.iflags⟩

theorem Quiet.refl (b : PramMemBlock) : Quiet b b := ⟨.refl b, rfl, rfl, rfl, rfl, rfl, id⟩

theorem Quiet.trans {b b' b'' : PramMemBlock} (h : Quiet b b') (h' : Quiet b' b'') : Quiet b b'' :=
  ⟨h.toSameLabel.trans h'.toSameLabel, h'.us1.trans h.us1, h'.us2.trans h.us2,
    h'.vaddr.trans h.vaddr, h'.lastPf.trans h.lastPf, h'.hgetPf.trans h.hgetPf,
    fun hfws => h'.fws (h.fws hfws)⟩

theorem Quiet.setNext (b : PramMemBlock) (x : Option (Fin workingSetSize)) :
    Quiet b (Linked.setNext b x) := ⟨⟨rfl, rfl, rfl⟩, rfl, rfl, rfl, rfl, rfl, id⟩

theorem LabelOk.of_quiet {b b' : PramMemBlock} {f : PmbFlags} (h : LabelOk b f) (hq : Quiet b b') :
    LabelOk b' f where
  us1 := by rw [hq.us1]; exact h.us1
  us2 := by rw [hq.us2]; exact h.us2
  lastPf := hq.lastPf.trans h.lastPf
  hgetPf := hq.hgetPf.trans h.hgetPf
  fws := hq.fws h.fws
  aside := by rw [hq.iflags]; exact h.aside

theorem liveBlocks_of_same (hw : WsInv k) (hsame : WsSame k k') : liveBlocks k' = liveBlocks k := by
  obtain ⟨L, hw⟩ := hw
  rw [hw.liveBlocks_eq, (hsame.wsOk hw).liveBlocks_eq]

variable {saved : Saved} {v : VirBytes} {endcmp : EndCmp} {b : PramMemBlock}

theorem Inv.of_quiet (h : Inv p k saved) (hsame : WsSame k k')
    (hlabel : ∀ i, SameLabel (k.workingSet i) (k'.workingSet i))
    (hquiet : ∀ i, Labelled k p i → Quiet (k.workingSet i) (k'.workingSet i)) : Inv p k' saved where
  lists := hsame.wsInv h.lists
  inUse := by rw [hsame.inUse p]; exact h.inUse
  noExec i := by
    rw [(hlabel i).hExec, (hlabel i).iflags]
    exact h.noExec i
  labels i hi := by
    have hold : Labelled k p i := by
      rw [Labelled, liveBlocks_of_same h.lists hsame, (hlabel i).hFork] at hi
      exact hi
    exact (h.labels i hold).of_quiet (hquiet i hold)

/-! ## Pages of other blocks -/

theorem page_ne (hw : WsInv k) (hi : i ∈ liveBlocks k p) (hj : j ∈ liveBlocks k p) (hne : i ≠ j) :
    pageOf (k.workingSet i).vaddr ≠ pageOf (k.workingSet j).vaddr := by
  obtain ⟨L, hw⟩ := hw
  rw [hw.liveBlocks_eq] at hi hj
  exact fun heq => hne (hw.eq_of_page hi hj heq)

theorem getPte_setPte_of_ne {v w : VirBytes} (e : Pte) (hne : pageOf w ≠ pageOf v) :
    (k.setPte p v e).getPte p w = k.getPte p w := by
  simp [Kernel.setPte, Kernel.setProc, Kernel.getPte, hne]

theorem getPte_setPmb (b : PramMemBlock) (v : VirBytes) : (k.setPmb i b).getPte p v = k.getPte p v := rfl

theorem setPmb_self (b : PramMemBlock) : (k.setPmb i b).workingSet i = b := by simp [Kernel.setPmb]

theorem setPmb_of_ne (hne : j ≠ i) (b : PramMemBlock) :
    (k.setPmb i b).workingSet j = k.workingSet j := by simp [Kernel.setPmb, hne]

theorem setPte_workingSet (v : VirBytes) (e : Pte) : (k.setPte p v e).workingSet = k.workingSet := rfl

theorem lookUpPte_live (hw : WsInv k) (hp : (k.procs p).inUse = true)
    (hl : lookUpPte k p v = some i) :
    i ∈ liveBlocks k p ∧ pageOf (k.workingSet i).vaddr = pageOf v := by
  obtain ⟨L, hw⟩ := hw
  rw [hw.liveBlocks_eq]
  exact lookUpPte_some hw hp hl

theorem fault_kept (h : Inv p k saved) {r : PfResult} (hrun : checkVaddr2 k p v = some (k', r)) :
    Inv p k' saved ∧ ∀ i, Labelled k p i → EntryKept p i k k' := by
  have hsame := WsSame.checkVaddr2 hrun
  have hrecord : (k.recordFault v).workingSet = k.workingSet ∧
      ∀ w, (k.recordFault v).getPte p w = k.getPte p w := by
    unfold Kernel.recordFault
    split
    · exact ⟨rfl, fun _ => rfl⟩
    · exact ⟨rfl, fun _ => rfl⟩
  have hlook : lookUpPte (k.recordFault v) p v = lookUpPte k p v := by
    unfold Kernel.recordFault
    split
    · rfl
    · rfl
  suffices hblocks : (∀ j, SameLabel (k.workingSet j) (k'.workingSet j)) ∧
      ∀ j, Labelled k p j → k'.workingSet j = k.workingSet j ∧
        k'.getPte p (k.workingSet j).vaddr = k.getPte p (k.workingSet j).vaddr by
    refine ⟨h.of_quiet hsame hblocks.1 fun j hj => ?_, fun j hj => .inl (hblocks.2 j hj).2⟩
    rw [(hblocks.2 j hj).1]
    exact .refl _
  have hsteady : k' = k.recordFault v → (∀ j, SameLabel (k.workingSet j) (k'.workingSet j)) ∧
      ∀ j, Labelled k p j → k'.workingSet j = k.workingSet j ∧
        k'.getPte p (k.workingSet j).vaddr = k.getPte p (k.workingSet j).vaddr := by
    rintro rfl
    rw [hrecord.1]
    exact ⟨fun j => .refl _, fun j _ => ⟨rfl, hrecord.2 _⟩⟩
  unfold checkVaddr2 at hrun
  dsimp only at hrun
  split at hrun
  · exact hsteady (Prod.mk.inj (some.inj hrun)).1.symm
  split at hrun
  · exact hsteady (Prod.mk.inj (some.inj hrun)).1.symm
  rename_i i hl
  rw [hlook] at hl
  obtain ⟨hi, hpage⟩ := lookUpPte_live h.lists h.inUse hl
  have hother : ∀ j, Labelled k p j → j ≠ i → pageOf (k.workingSet j).vaddr ≠ pageOf v := by
    intro j hj hne
    rw [← hpage]
    exact page_ne h.lists hj.1 hi hne
  unfold faultPmb at hrun
  dsimp only at hrun
  rw [hrecord.1] at hrun
  split at hrun
  · split at hrun
    · exact hsteady (Prod.mk.inj (some.inj hrun)).1.symm
    rename_i hfork
    obtain ⟨rfl, -⟩ := Prod.mk.inj (some.inj hrun)
    constructor
    · intro j
      by_cases hj : j = i
      · rw [hj]
        refine ⟨?_, ?_, ?_⟩
        · rw [setPmb_self, PmbFlags.fault_hFork]
        · rw [setPmb_self, PmbFlags.fault_hExec]
        · rw [setPmb_self]
      · rw [setPmb_of_ne hj, setPte_workingSet, hrecord.1]
        exact .refl _
    intro j hj
    have hne : j ≠ i := fun heq => hfork (heq ▸ hj.2)
    constructor
    · rw [setPmb_of_ne hne, setPte_workingSet, hrecord.1]
    · rw [getPte_setPmb, getPte_setPte_of_ne _ (hother j hj hne), hrecord.2]
  rename_i hframes
  split at hrun
  · obtain ⟨rfl, -⟩ := Prod.mk.inj (some.inj hrun)
    -- a labelled block has both frames
    have hnot : ¬ Labelled k p i := by
      intro hlabel
      have hok := h.labels i hlabel
      obtain ⟨us1, h1⟩ := ne_none_iff_exists'.mp hok.us1
      obtain ⟨us2, h2⟩ := ne_none_iff_exists'.mp hok.us2
      exact hframes us1 us2 h1 h2
    constructor
    · intro j
      by_cases hj : j = i
      · rw [hj]
        refine ⟨?_, ?_, ?_⟩
        · rw [setPmb_self]
          exact PmbFlags.fault_hFork ..
        · rw [setPmb_self]
          exact PmbFlags.fault_hExec ..
        · rw [setPmb_self]
      · rw [setPmb_of_ne hj, hrecord.1]
        exact .refl _
    intro j hj
    have hne : j ≠ i := fun heq => hnot (heq ▸ hj)
    constructor
    · rw [setPmb_of_ne hne, hrecord.1]
    · rw [getPte_setPmb, hrecord.2]
  · simp at hrun

theorem supply_kept (h : Inv p k saved) (hrun : vmHpagefault k p = some k') :
    Inv p k' saved ∧ ∀ i, Labelled k p i → EntryKept p i k k' := by
  have hsame := WsSame.vmHpagefault hrun
  unfold vmHpagefault at hrun
  split at hrun
  · rename_i new rest i hmem hl
    obtain rfl := some.inj hrun
    obtain ⟨hi, hwait⟩ : i ∈ liveBlocks k p ∧ (k.workingSet i).flags.lastPf = true := by
      obtain ⟨L, hw⟩ := h.lists
      rw [hw.liveBlocks_eq]
      unfold lookUpLastpfPte at hl
      split_ifs at hl
      rw [search_eq_of_chain (hw.chain h.inUse)] at hl
      have hwait := List.find?_some hl
      exact ⟨mem_of_find?_eq_some hl, hwait⟩
    have hne : ∀ j, Labelled k p j → j ≠ i := by
      intro j hj heq
      have hlast := (h.labels j hj).lastPf
      rw [heq, hwait] at hlast
      cases hlast
    constructor
    · apply h.of_quiet hsame
      · intro j
        by_cases hj : j = i
        · rw [hj]
          rw [setPte_workingSet, setPmb_self]
          unfold withRunFrame
          split
          · exact ⟨rfl, rfl, rfl⟩
          · exact ⟨rfl, rfl, rfl⟩
        · rw [setPte_workingSet, setPmb_of_ne hj]
          exact .refl _
      · intro j hj
        rw [setPte_workingSet, setPmb_of_ne (hne j hj)]
        exact .refl _
    · intro j hj
      left
      rw [getPte_setPte_of_ne _ (page_ne h.lists hj.1 hi (hne j hj))]
      rfl
  · simp at hrun

/-! ## The end of a run -/

theorem resetTurn_label (hrun : resetTurn p endcmp k i = some k') (j) :
    SameLabel (k.workingSet j) (k'.workingSet j) := by
  have hset : ∀ {k₁ : Kernel} {b : PramMemBlock}, k₁.workingSet = k.workingSet →
      SameLabel (k.workingSet i) b → SameLabel (k.workingSet j) ((k₁.setPmb i b).workingSet j) := by
    intro k₁ b hws hb
    by_cases hj : j = i
    · rw [hj, setPmb_self]
      exact hb
    · rw [setPmb_of_ne hj, hws]
      exact .refl _
  have hreset : SameLabel (k.workingSet j) ((resetPmb p k i).workingSet j) := by
    have hflags : SameLabel (k.workingSet j) ((k.setPmb i
        { k.workingSet i with flags := (k.workingSet i).flags.clearRun }).workingSet j) :=
      hset rfl ⟨rfl, rfl, rfl⟩
    have hcpy : ∀ (k₁ : Kernel) (f : Frame) (o : Option Frame),
        (k₁.cpyTo f o).workingSet = k₁.workingSet := by
      intro k₁ f o
      cases o with
      | none => rfl
      | some g => rfl
    unfold resetPmb
    dsimp only
    split
    · exact hflags
    · split
      · exact hflags
      · simp only [Kernel.setPte, Kernel.setProc, hcpy]
        exact hflags
  have hcommit' : ∀ {k₁ : Kernel}, commitPmb p k i = some k₁ →
      SameLabel (k.workingSet j) (k₁.workingSet j) := by
    intro k₁ hcommit
    unfold commitPmb at hcommit
    split at hcommit
    · simp at hcommit
    rename_i k₂ e hframe
    obtain rfl := some.inj hcommit
    have hframes : ∀ j, SameLabel (k.workingSet j) (k₂.workingSet j) := by
      intro j
      unfold commitFrame at hframe
      dsimp only at hframe
      split at hframe
      · split at hframe
        · simp at hframe
        rename_i k3 hevents
        obtain ⟨rfl, -⟩ := Prod.mk.inj (some.inj hframe)
        obtain ⟨x, hx, hws⟩ : ∃ x, SameLabel (k.workingSet i) x ∧
            k3.workingSet = update k.workingSet i x := by
          refine ⟨{ k.workingSet i with
            flags := { (k.workingSet i).flags with
              iwsPfSecond := (k.workingSet i).flags.iwsPfSecond ||
                ((k.workingSet i).flags.iwsModKernel &&
                  (k.getPte p (k.workingSet i).vaddr).dirty)
              hgetPf := false } }, ⟨rfl, rfl, rfl⟩, ?_⟩
          split at hevents
          · have herase := congrArg Kernel.workingSet
              (eraseHmes_enableHmeEventInProcs hevents)
            exact herase
          · rw [← some.inj hevents]
            rfl
        rw [hws]
        by_cases hj : j = i
        · rw [hj, update_self]
          exact hx
        · rw [update_of_ne hj]
          exact .refl _
      · obtain ⟨rfl, -⟩ := Prod.mk.inj (some.inj hframe)
        exact .refl _
    by_cases hj : j = i
    · rw [hj, setPmb_self]
      exact (hframes i).trans ⟨rfl, rfl, rfl⟩
    · rw [setPmb_of_ne hj]
      exact hframes j
  have hfirst : SameLabel (k.workingSet j) ((endFirstPmb p k i).workingSet j) := by
    unfold endFirstPmb
    dsimp only
    split
    · exact hset rfl ⟨rfl, rfl, rfl⟩
    · exact .refl _
  unfold resetTurn at hrun
  split at hrun
  · exact some.inj hrun ▸ hreset
  · exact some.inj hrun ▸ hfirst
  · exact hcommit' hrun
  · exact some.inj hrun ▸ hreset
  · simp at hrun
  · exact some.inj hrun ▸ .refl _

theorem vmResetPram_label (hrun : vmResetPram k p endcmp = some k') (j) :
    SameLabel (k.workingSet j) (k'.workingSet j) := by
  unfold vmResetPram at hrun
  split_ifs at hrun
  · obtain rfl := some.inj hrun
    exact .refl _
  · exact whileNext_rel (R := fun k₁ k₂ : Kernel =>
        ∀ j, SameLabel (k₁.workingSet j) (k₂.workingSet j))
      (fun _ _ => .refl _) (fun _ _ _ h1 h2 j => (h1 j).trans (h2 j))
      (fun _ _ _ hbody => resetTurn_label hbody) hrun j

theorem end_kept (h : Inv p k saved) (hno : ∀ i, ¬ Labelled k p i)
    (hrun : vmResetPram k p endcmp = some k') : Inv p k' saved :=
  h.of_quiet (WsSame.vmResetPram hrun) (vmResetPram_label hrun) fun i hi => absurd hi (hno i)

theorem endFirst_kept (h : Inv p k saved)
    (hclean : ∀ i, Labelled k p i → (k.getPte p (k.workingSet i).vaddr).dirty = false)
    (hrun : vmResetPram k p .cpyRamFirst = some k') :
    Inv p k' saved ∧ ∀ i, Labelled k p i → EntryKept p i k k' := by
  suffices hkeep : ∀ i, Labelled k p i → k'.workingSet i = k.workingSet i ∧
      k'.getPte p (k.workingSet i).vaddr = k.getPte p (k.workingSet i).vaddr by
    refine ⟨h.of_quiet (WsSame.vmResetPram hrun) (vmResetPram_label hrun) fun i hi => ?_,
      fun i hi => .inl (hkeep i hi).2⟩
    rw [(hkeep i hi).1]
    exact .refl _
  unfold vmResetPram at hrun
  split_ifs at hrun
  · obtain rfl := some.inj hrun
    exact fun i _ => ⟨rfl, rfl⟩
  obtain ⟨L, hw⟩ := h.lists
  have hlive : liveBlocks k = L := hw.liveBlocks_eq
  -- a turn leaves a labelled block as it is, as its page is clean and has had no fault
  refine (forPmbs_inv (I := fun k₁ => (∀ j, (k₁.workingSet j).vaddr = (k.workingSet j).vaddr) ∧
    (∀ j, SameLabel (k.workingSet j) (k₁.workingSet j)) ∧ ∀ j, Labelled k p j →
      k₁.workingSet j = k.workingSet j ∧
        k₁.getPte p (k.workingSet j).vaddr = k.getPte p (k.workingSet j).vaddr)
    hw ⟨fun _ => rfl, fun _ => .refl _, fun _ _ => ⟨rfl, rfl⟩⟩ h.inUse
    (fun k₁ i k₂ ⟨hv, hlab, hkeep⟩ hw1 hi hbody => ?_) hrun).1.2.2
  have hsame := WsSame.resetTurn hbody
  have hlab2 := resetTurn_label hbody
  refine ⟨⟨fun j => (hsame.vaddr j).trans (hv j), fun j => (hlab j).trans (hlab2 j), ?_⟩,
    hsame.wsOk hw1⟩
  intro j hj
  have hturn : k₂ = endFirstPmb p k₁ i ∨ k₂ = k₁ := by
    unfold resetTurn at hbody
    cases hs : k₁.hStep with
    | noHardRun =>
      rw [hs] at hbody
      exact .inr (some.inj hbody).symm
    | firstRun =>
      rw [hs] at hbody
      exact .inl (some.inj hbody).symm
    | secondRun =>
      rw [hs] at hbody
      cases hbody
  rcases hturn with rfl | rfl
  · by_cases hji : j = i
    · rw [← hji]
      have hsteady : endFirstPmb p k₁ j = k₁ := by
        obtain ⟨hblock, hentry⟩ := hkeep j hj
        unfold endFirstPmb
        dsimp only
        rw [hblock, hentry, hclean j hj, (h.labels j hj).hgetPf]
        simp
      rw [hsteady]
      exact hkeep j hj
    have hpage : pageOf (k.workingSet j).vaddr ≠ pageOf (k₁.workingSet i).vaddr := by
      rw [hv i]
      exact page_ne ⟨L, hw⟩ hj.1 (hlive ▸ hi) hji
    unfold endFirstPmb
    dsimp only
    split
    · constructor
      · rw [setPmb_of_ne hji]
        exact (hkeep j hj).1
      · rw [getPte_setPmb, getPte_setPte_of_ne _ hpage]
        exact (hkeep j hj).2
    · exact hkeep j hj
  · exact hkeep j hj

theorem compare_kept {b : Bool} (h : Inv p k saved) (hrun : cmpMem k p = some (k', b)) :
    Inv p k' saved ∧ ∀ i, Labelled k p i → ¬ Compared (k.workingSet i) := by
  constructor
  · have hquiet : ∀ j, Quiet (k.workingSet j) (k'.workingSet j) := by
      unfold cmpMem at hrun
      split_ifs at hrun
      · obtain ⟨rfl, -⟩ := Prod.mk.inj (some.inj hrun)
        exact fun j => .refl _
      refine whileNext_rel (R := fun s s' : Kernel × Bool =>
        ∀ j, Quiet (s.1.workingSet j) (s'.1.workingSet j)) (fun _ _ => .refl _)
        (fun _ _ _ h1 h2 j => (h1 j).trans (h2 j)) (fun s i s' hbody j => ?_) hrun
      unfold cmpPmb at hbody
      dsimp only at hbody
      split at hbody
      · exact some.inj hbody ▸ .refl _
      split at hbody
      · split at hbody
        · exact some.inj hbody ▸ .refl _
        split at hbody
        · rw [← some.inj hbody]
          by_cases hj : j = i
          · rw [hj, setPmb_self]
            exact ⟨⟨rfl, rfl, rfl⟩, rfl, rfl, rfl, rfl, rfl, fun _ => rfl⟩
          · rw [setPmb_of_ne hj]
            exact .refl _
        · rw [← some.inj hbody]
          exact .refl _
      · exact some.inj hbody ▸ .refl _
    exact h.of_quiet (WsSame.cmpMem hrun) (fun j => (hquiet j).toSameLabel) fun j _ => hquiet j
  · intro i hi hcompared
    have hfws := (h.labels i hi).fws
    rw [hcompared.2.2] at hfws
    cases hfws

/-! ## Forks -/

/-- A block that `set_fork_label` has labelled. -/
def labelBlock (b : PramMemBlock) : PramMemBlock :=
  { b with iflags := b.flags, flags := { PmbFlags.zero with hFork := true } }

theorem setForkLabel_blocks (hw : WsOk k L) (hp : (k.procs p).inUse = true)
    (hrun : setForkLabel k p = some k') : WsOk k' L ∧ k'.procs = k.procs ∧
      ∀ j, k'.workingSet j = if j ∈ L p then labelBlock (k.workingSet j) else k.workingSet j := by
  unfold setForkLabel at hrun
  split_ifs at hrun with hsize
  · obtain rfl := some.inj hrun
    have hlen := hw.size p hp
    have hnil : L p = [] := length_eq_zero_iff.mp (by omega)
    exact ⟨hw, rfl, fun j => by simp [hnil]⟩
  unfold Kernel.forPmbs at hrun
  rw [(hw.chain hp).start_eq_head?] at hrun
  -- the blocks behind the loop are labelled, those before it are as they were
  have hend := whileNext_inv
    (P := fun rest k₁ => WsOk k₁ L ∧ k₁.procs = k.procs ∧ ∃ pre, L p = pre ++ rest ∧
      ∀ j, k₁.workingSet j = if j ∈ pre then labelBlock (k.workingSet j) else k.workingSet j)
    (fun i rest k₁ k₂ ⟨hw1, hprocs, pre, hpre, hblocks⟩ hbody => by
      obtain rfl := some.inj hbody
      have hi : i ∈ L p := by
        rw [hpre]
        simp
      have hnd := hw.owned.nodup p
      rw [hpre, nodup_append] at hnd
      have hnot : i ∉ pre := fun hmem => hnd.2.2 i hmem i mem_cons_self rfl
      have hused : (k₁.workingSet i).flags.slotFree = false := hw1.owned.used p i hi
      have hsame : WsSame k₁ (k₁.setPmb i (labelBlock (k₁.workingSet i))) := by
        refine WsSame.setPmb k₁ i rfl ?_ rfl ?_
        · rw [hused]
          rfl
        · exact fun _ _ => hused
      have hw2 := hsame.wsOk hw1
      refine ⟨⟨hw2, hprocs, pre ++ [i], by simp [hpre], fun j => ?_⟩, ?_⟩
      · by_cases hj : j = i
        · rw [hj]
          have hself : (k₁.setPmb i (labelBlock (k₁.workingSet i))).workingSet i =
              labelBlock (k₁.workingSet i) := setPmb_self _
          have hold : k₁.workingSet i = k.workingSet i := by
            rw [hblocks i, if_neg hnot]
          rw [if_pos (by simp), ← hold]
          exact hself
        · have hkeep : (k₁.setPmb i (labelBlock (k₁.workingSet i))).workingSet j =
              k₁.workingSet j := setPmb_of_ne hj _
          simp only [mem_append, mem_singleton, hj, or_false]
          exact hkeep.trans (hblocks j)
      · exact hw2.owned.next_eq (o := p) pre hpre)
    ⟨hw, rfl, [], rfl, by simp⟩ hrun
  obtain ⟨hw', hprocs, pre, hpre, hblocks⟩ := hend
  rw [append_nil] at hpre
  rw [hpre]
  exact ⟨hw', hprocs, hblocks⟩

theorem fork_kept (h : Inv p k saved) (hgood : Good p k .fork)
    (hrun : setForkLabel k p = some k') : Inv p k' (Op.save k saved .fork) := by
  obtain ⟨L, hw⟩ := h.lists
  obtain ⟨hw', hprocs, hblocks⟩ := setForkLabel_blocks hw h.inUse hrun
  refine ⟨⟨L, hw'⟩, by rw [hprocs]; exact h.inUse, fun j => ?_, fun i hi => ?_⟩
  · rw [hblocks j]
    split
    · exact ⟨rfl, (h.noExec j).1⟩
    · exact h.noExec j
  have hmem : i ∈ L p := by
    have := hi.1
    rwa [hw'.liveBlocks_eq] at this
  have hlive : i ∈ liveBlocks k p := by
    rw [hw.liveBlocks_eq]
    exact hmem
  obtain ⟨hus1, hus2, hagain⟩ := hgood i hlive
  rw [hblocks i, if_pos hmem]
  refine ⟨hus1, hus2, rfl, rfl, rfl, ?_⟩
  simp only [labelBlock, Op.save]
  split
  · rename_i hfork
    exact (hagain hfork).trans (h.labels i ⟨hlive, hfork⟩).aside
  · rfl

/-! ## Mapping pages again -/

theorem regionFlags_labelled (hfork : b.flags.hFork = true)
    (hexec : b.iflags.hExec = false) : regionFlags b = unlabelled b.iflags := by
  simp [regionFlags, unlabelled, hfork, hexec]

theorem regionFlags_plain (hfork : b.flags.hFork = false)
    (hexec : b.flags.hExec = false) : regionFlags b = unlabelled b.flags := by
  simp [regionFlags, unlabelled, hfork, hexec]

theorem regionFlags_clear (hexec : b.flags.hExec = false) (haside : b.iflags.hExec = false) :
    (regionFlags b).hFork = false ∧ (regionFlags b).hExec = false := by
  cases hfork : b.flags.hFork with
  | true =>
    rw [regionFlags_labelled hfork haside]
    exact ⟨rfl, haside⟩
  | false =>
    rw [regionFlags_plain hfork hexec]
    exact ⟨rfl, hexec⟩

theorem addPage_blocks {pages : List VirBytes} {us1 us2 : Option Frame}
    (hw : WsOk k L) (hp : (k.procs p).inUse = true) (hx : NoExec k)
    (hroom : missing k p (v :: pages) + totalSize k ≤ workingSetSize)
    (hrun : addPageToWs p us1 us2 k v = some k') :
    NoExec k' ∧ (∀ i ∈ L p, i ∈ liveBlocks k' p ∧ (k'.workingSet i).vaddr = (k.workingSet i).vaddr ∧
      (k'.workingSet i).flags = if pageOf (k.workingSet i).vaddr = pageOf v
        then regionFlags (k.workingSet i) else (k.workingSet i).flags) ∧
      ∀ i, Labelled k' p i → i ∈ L p ∧ Quiet (k.workingSet i) (k'.workingSet i) := by
  obtain ⟨k₁, L', hrun1, hw', -, -⟩ := addPageToWs_spec hw hp us1 us2 hroom
  obtain rfl := some.inj (hrun.symm.trans hrun1)
  cases hl : lookUpPte k p v with
  | some i0 =>
    obtain ⟨hi0, hpage⟩ := lookUpPte_some hw hp hl
    simp only [addPageToWs, hl] at hrun
    have hself : k'.workingSet i0 = { k.workingSet i0 with
        us0 := some (k.getPte p v).pfa
        flags := regionFlags { k.workingSet i0 with us0 := some (k.getPte p v).pfa } } := by
      rw [← some.inj hrun, setPmb_self, setPmb_self]
    have hother : ∀ j, j ≠ i0 → k'.workingSet j = k.workingSet j := by
      intro j hj
      rw [← some.inj hrun, setPmb_of_ne hj, setPmb_of_ne hj]
    have hflags : (k'.workingSet i0).flags = regionFlags (k.workingSet i0) := by
      rw [hself]
      rfl
    have hsame : WsSame k k' := by
      have hused : (k.workingSet i0).flags.slotFree = false := hw.owned.used p i0 hi0
      rw [← some.inj hrun]
      refine (WsSame.setPmb (b := { k.workingSet i0 with us0 := some (k.getPte p v).pfa }) k i0
        rfl rfl rfl (fun hif => hif)).trans (WsSame.setPmb _ i0 rfl ?_ rfl regionFlags_iflagsOk)
      rw [setPmb_self]
      have hfree := regionFlags_slotFree (b := { k.workingSet i0 with
        us0 := some (k.getPte p v).pfa }) (hw.iflags i0) hused
      exact hfree.trans hused.symm
    have hlive : liveBlocks k' = L := (hsame.wsOk hw).liveBlocks_eq
    have hclear := regionFlags_clear (hx i0).1 (hx i0).2
    refine ⟨fun j => ?_, fun i hi => ⟨?_, hsame.vaddr i, ?_⟩, fun i hi => ?_⟩
    · by_cases hj : j = i0
      · rw [hj, hflags]
        refine ⟨hclear.2, ?_⟩
        rw [hself]
        exact (hx i0).2
      · rw [hother j hj]
        exact hx j
    · rw [hlive]
      exact hi
    · by_cases hj : i = i0
      · rw [hj, hflags, if_pos hpage]
      · have hne : pageOf (k.workingSet i).vaddr ≠ pageOf v := fun heq =>
          hj (hw.eq_of_page hi hi0 (heq.trans hpage.symm))
        rw [if_neg hne, hother i hj]
    have hj : i ≠ i0 := by
      intro heq
      have hfork := hi.2
      rw [heq, hflags, hclear.1] at hfork
      cases hfork
    have hmem := hi.1
    rw [hlive] at hmem
    rw [hother i hj]
    exact ⟨hmem, .refl _⟩
  | none =>
    have hex : ∃ j, ∀ q, j ∉ L q := by
      have hcons : missing k p (v :: pages) = missing k p pages + 1 := by simp [missing, hl]
      apply Owned.exists_unlisted
      rw [← hw.totalSize_eq]
      omega
    have hnew := lookUpPte_none hw hp hl
    obtain ⟨t, first, i0, hadd, hw1, hi0, hother, x, id, hself⟩ :=
      addPmbVaddr_spec hw hp hex hnew (k.getPte p v).pfa us1 us2
    simp only [addPageToWs, hl, hadd] at hrun
    have himem : i0 ∈ update L p (L p ++ [i0]) p := by simp
    have hw2 := setPmb_regionFlags_wsOk hw1 himem
    rw [some.inj hrun] at hw2
    have hlive : liveBlocks k' p = L p ++ [i0] := by
      rw [hw2.liveBlocks_eq, update_self]
    have hblock : ∀ j, j ≠ i0 → ∃ y, k'.workingSet j = setNext (k.workingSet j) y := by
      intro j hj
      obtain ⟨y, hy⟩ := hother j hj
      refine ⟨y, ?_⟩
      rw [← some.inj hrun, setPmb_of_ne hj]
      exact hy
    have hlast : k'.workingSet i0 = { t i0 with flags := regionFlags (t i0) } := by
      rw [← some.inj hrun, setPmb_self]
      rfl
    -- a free slot may have any flags but `H_EXEC`
    have hclear : (t i0).flags.hExec = false ∧ (t i0).iflags.hExec = false := by
      rw [hself]
      exact hx i0
    refine ⟨fun j => ?_, fun i hi => ?_, fun i hi => ?_⟩
    · by_cases hj : j = i0
      · rw [hj, hlast]
        exact ⟨(regionFlags_clear hclear.1 hclear.2).2, hclear.2⟩
      · obtain ⟨y, hy⟩ := hblock j hj
        rw [hy]
        exact hx j
    · have hj : i ≠ i0 := fun heq => hi0 p (heq ▸ hi)
      obtain ⟨y, hy⟩ := hblock i hj
      rw [hlive, hy, if_neg (hnew i hi)]
      exact ⟨mem_append_left _ hi, rfl, rfl⟩
    have hj : i ≠ i0 := by
      intro heq
      have hfork := hi.2
      rw [heq, hlast] at hfork
      rw [(regionFlags_clear hclear.1 hclear.2).1] at hfork
      cases hfork
    have hmem := hi.1
    rw [hlive, mem_append, mem_singleton] at hmem
    obtain ⟨y, hy⟩ := hblock i hj
    rw [hy]
    exact ⟨hmem.resolve_right hj, .setNext _ y⟩

theorem foldlM_addPage_kept {us1 us2 : Option Frame} (pages : List VirBytes)
    (h : Inv p k saved) (hroom : missing k p pages + totalSize k ≤ workingSetSize)
    (hrun : pages.foldlM (addPageToWs p us1 us2) k = some k') : Inv p k' saved ∧
      ∀ i ∈ liveBlocks k p, (k.workingSet i).flags = unlabelled (saved i) ∨
        (k.workingSet i).flags.hFork = true ∧
          (∃ v ∈ pages, pageOf v = pageOf (k.workingSet i).vaddr) →
        (k'.workingSet i).flags = unlabelled (saved i) := by
  induction pages generalizing k with
  | nil =>
    obtain rfl : k = k' := by simpa using hrun
    refine ⟨h, fun i _ hi => ?_⟩
    rcases hi with hdone | ⟨-, v, hv, -⟩
    · exact hdone
    · cases hv
  | cons v pages ih =>
    simp only [foldlM_cons, bind_eq_bind, bind_eq_some_iff] at hrun
    obtain ⟨k₁, hpage, hrest⟩ := hrun
    obtain ⟨L, hw⟩ := h.lists
    obtain ⟨hx1, hold, hlabel⟩ := addPage_blocks hw h.inUse h.noExec hroom hpage
    obtain ⟨k₂, L1, hpage2, hw1, hp1, hroom1⟩ := addPageToWs_spec hw h.inUse us1 us2 hroom
    obtain rfl := some.inj (hpage.symm.trans hpage2)
    have hlive : liveBlocks k = L := hw.liveBlocks_eq
    have h1 : Inv p k₁ saved := by
      refine ⟨⟨L1, hw1⟩, hp1, hx1, fun i hi => ?_⟩
      obtain ⟨hmem, hquiet⟩ := hlabel i hi
      refine (h.labels i ⟨hlive ▸ hmem, ?_⟩).of_quiet hquiet
      rw [← hquiet.hFork]
      exact hi.2
    obtain ⟨h', hdone⟩ := ih h1 hroom1 hrest
    refine ⟨h', fun i hi hcases => ?_⟩
    rw [hlive] at hi
    obtain ⟨hi1, hvaddr, hflags⟩ := hold i hi
    apply hdone i hi1
    rw [hvaddr, hflags]
    by_cases hv : pageOf (k.workingSet i).vaddr = pageOf v
    · left
      rw [if_pos hv]
      rcases hcases with hsaved | ⟨hfork, -⟩
      · rw [regionFlags_plain (by rw [hsaved]; rfl) (h.noExec i).1, hsaved]
        rfl
      · rw [regionFlags_labelled hfork (h.noExec i).2]
        exact (h.labels i ⟨hlive ▸ hi, hfork⟩).aside
    rw [if_neg hv]
    rcases hcases with hsaved | ⟨hfork, w, hw', hpage'⟩
    · exact .inl hsaved
    · rcases mem_cons.mp hw' with rfl | hmem
      · exact absurd hpage'.symm hv
      · exact .inr ⟨hfork, w, hmem, hpage'⟩

/-! ## The start of a run -/

theorem updateWsUs1Us2DataVaddr_quiet (hrun : updateWsUs1Us2DataVaddr p k v = some k') (j) :
    Quiet (k.workingSet j) (k'.workingSet j) := by
  unfold updateWsUs1Us2DataVaddr at hrun
  split at hrun
  · simp at hrun
  rename_i i _
  dsimp only at hrun
  split at hrun
  · exact some.inj hrun ▸ .refl _
  split at hrun
  · rw [← some.inj hrun]
    by_cases hj : j = i
    · rw [hj, setPmb_self]
      exact ⟨⟨rfl, rfl, rfl⟩, rfl, rfl, rfl, rfl, rfl, id⟩
    · rw [setPmb_of_ne hj]
      exact .refl _
  · exact some.inj hrun ▸ .refl _

theorem procs_updateWsUs1Us2DataVaddr
    (hrun : updateWsUs1Us2DataVaddr p k v = some k') : k'.procs = k.procs := by
  unfold updateWsUs1Us2DataVaddr at hrun
  split at hrun
  · simp at hrun
  dsimp only at hrun
  split at hrun
  · exact some.inj hrun ▸ rfl
  · split at hrun
    · exact some.inj hrun ▸ rfl
    · exact some.inj hrun ▸ rfl

theorem events_kept (h : Inv p k saved) (hrun : (match handleHmeEvents k p with
      | none => none
      | some k => freeHardeningMemEvents k p) = some k') :
    Inv p k' saved ∧ (∀ j, Quiet (k.workingSet j) (k'.workingSet j)) ∧
      liveBlocks k' = liveBlocks k ∧ ∀ v, k'.getPte p v = k.getPte p v := by
  split at hrun
  · cases hrun
  rename_i k₁ hhandle
  have herase := eraseHmes_freeHardeningMemEvents hrun
  have hblocks : k'.workingSet = k₁.workingSet := by
    have := congrArg Kernel.workingSet herase
    exact this
  have hpt : ∀ q, (k'.procs q).pt = (k₁.procs q).pt := by
    intro q
    have := congrArg Proc.pt (congrFun (congrArg Kernel.procs herase) q)
    exact this
  have hsame := (WsSame.handleHmeEvents hhandle).trans (WsSame.of_eraseHmes herase)
  have hturns : (∀ j, Quiet (k.workingSet j) (k₁.workingSet j)) ∧ k₁.procs = k.procs := by
    unfold handleHmeEvents at hhandle
    split_ifs at hhandle
    · obtain rfl := some.inj hhandle
      exact ⟨fun _ => .refl _, rfl⟩
    refine whileNext_rel (R := fun k₁ k₂ : Kernel =>
        (∀ j, Quiet (k₁.workingSet j) (k₂.workingSet j)) ∧ k₂.procs = k₁.procs)
      (fun _ => ⟨fun _ => .refl _, rfl⟩)
      (fun _ _ _ h1 h2 => ⟨fun j => (h1.1 j).trans (h2.1 j), h2.2.trans h1.2⟩)
      (fun k₁ i k₂ hbody => ?_) hhandle
    exact foldlM_inv (I := fun k3 : Kernel =>
        (∀ j, Quiet (k₁.workingSet j) (k3.workingSet j)) ∧ k3.procs = k₁.procs)
      (fun v _ k3 k4 h3 hv => ⟨fun j => (h3.1 j).trans (updateWsUs1Us2DataVaddr_quiet hv j),
        (procs_updateWsUs1Us2DataVaddr hv).trans h3.2⟩)
      ⟨fun _ => .refl _, rfl⟩ hbody
  have hquiet : ∀ j, Quiet (k.workingSet j) (k'.workingSet j) := by
    intro j
    rw [hblocks]
    exact hturns.1 j
  refine ⟨h.of_quiet hsame (fun j => (hquiet j).toSameLabel) fun j _ => hquiet j, hquiet,
    liveBlocks_of_same h.lists hsame, fun v => ?_⟩
  unfold Kernel.getPte
  rw [hpt p, hturns.2]

theorem prepare_quiet (hrun : updatePrivate (markShared k p i) i = some k') :
    WsSame k k' ∧ (∀ j, Quiet (k.workingSet j) (k'.workingSet j)) ∧ k'.procs = k.procs ∧
      k'.hStep = k.hStep := by
  refine ⟨(WsSame.markShared k p i).trans (WsSame.updatePrivate hrun), ?_⟩
  have hshared : (∀ j, Quiet (k.workingSet j) ((markShared k p i).workingSet j)) ∧
      (markShared k p i).procs = k.procs ∧ (markShared k p i).hStep = k.hStep := by
    unfold markShared
    dsimp only
    split
    · refine ⟨fun j => ?_, rfl, rfl⟩
      by_cases hj : j = i
      · rw [hj, setPmb_self]
        exact ⟨⟨rfl, rfl, rfl⟩, rfl, rfl, rfl, rfl, rfl, id⟩
      · rw [setPmb_of_ne hj]
        exact .refl _
    · exact ⟨fun _ => .refl _, rfl, rfl⟩
  obtain ⟨hquiet, hprocs, hstep⟩ := hshared
  unfold updatePrivate at hrun
  dsimp only at hrun
  split at hrun
  · split at hrun
    · cases hrun
    obtain rfl := some.inj hrun
    refine ⟨fun j => (hquiet j).trans ?_, hprocs, hstep⟩
    by_cases hj : j = i
    · rw [hj, setPmb_self]
      exact ⟨⟨rfl, rfl, rfl⟩, rfl, rfl, rfl, rfl, rfl, id⟩
    · rw [setPmb_of_ne hj]
      exact .refl _
  · obtain rfl := some.inj hrun
    exact ⟨hquiet, hprocs, hstep⟩

theorem roPte_private (step : HStep) (e : Pte) (h1 : b.us1 ≠ none)
    (h2 : b.us2 ≠ none) : some (roPte step b e).pfa = b.us1 ∨ some (roPte step b e).pfa = b.us2 := by
  obtain ⟨us1, h1⟩ := ne_none_iff_exists'.mp h1
  obtain ⟨us2, h2⟩ := ne_none_iff_exists'.mp h2
  unfold roPte
  by_cases hstep : step = .firstRun
  · left
    simp [h1, h2, hstep]
  · right
    simp [h1, h2, hstep]

/-- What the start of a run has done so far to the labelled blocks that are still there. -/
structure Started (p : ProcNr) (k : Kernel) (saved : Saved) (k₁ : Kernel) : Prop where
  inv : Inv p k₁ saved
  live : ∀ i ∈ liveBlocks k₁ p, i ∈ liveBlocks k p ∧
    (k₁.workingSet i).flags.hFork = (k.workingSet i).flags.hFork
  quiet : ∀ i, Labelled k₁ p i → Quiet (k.workingSet i) (k₁.workingSet i)
  entry : ∀ i, Labelled k₁ p i → EntryKept p i k k₁

theorem Started.of_same (h : Started p k saved k₁) (hsame : WsSame k₁ k₂)
    (hquiet : ∀ j, Quiet (k₁.workingSet j) (k₂.workingSet j))
    (hentry : ∀ j, Labelled k₁ p j →
      k₂.getPte p (k₁.workingSet j).vaddr = k₁.getPte p (k₁.workingSet j).vaddr ∨
      some (k₂.getPte p (k₁.workingSet j).vaddr).pfa = (k₁.workingSet j).us1 ∨
      some (k₂.getPte p (k₁.workingSet j).vaddr).pfa = (k₁.workingSet j).us2) :
    Started p k saved k₂ := by
  have hlive := liveBlocks_of_same h.inv.lists hsame
  have hold : ∀ j, Labelled k₂ p j → Labelled k₁ p j := by
    intro j hj
    refine ⟨hlive ▸ hj.1, ?_⟩
    rw [← (hquiet j).hFork]
    exact hj.2
  refine ⟨h.inv.of_quiet hsame (fun j => (hquiet j).toSameLabel) fun j _ => hquiet j,
    fun j hj => ?_, fun j hj => (h.quiet j (hold j hj)).trans (hquiet j), fun j hj => ?_⟩
  · obtain ⟨hlist, hfork⟩ := h.live j (hlive ▸ hj)
    exact ⟨hlist, (hquiet j).hFork.trans hfork⟩
  have hq := h.quiet j (hold j hj)
  have hnew := hentry j (hold j hj)
  rw [hq.vaddr, hq.us1, hq.us2] at hnew
  rcases hnew with heq | hframe
  · unfold EntryKept
    dsimp only
    rw [heq]
    exact h.entry j (hold j hj)
  · exact .inr hframe

theorem Started.of_free (h : Started p k saved k₁) (hi : i ∈ liveBlocks k₁ p) :
    Started p k saved (freePramMemBlock k₁ p (k₁.workingSet i).vaddr) ∧
      ∀ j, (freePramMemBlock k₁ p (k₁.workingSet i).vaddr).nextPmb i = some j →
        j ∈ liveBlocks (freePramMemBlock k₁ p (k₁.workingSet i).vaddr) p := by
  obtain ⟨L, hw⟩ := h.inv.lists
  have hlive : liveBlocks k₁ = L := hw.liveBlocks_eq
  have hmem : i ∈ L p := hlive ▸ hi
  rcases freePramMemBlock_spec hw h.inv.inUse (k₁.workingSet i).vaddr with
    ⟨-, hnot⟩ | ⟨pre, i', suf, hL, hpage, hw', hcleared, hother⟩
  · exact absurd rfl (hnot i hmem)
  have hi' : i' = i := hw.eq_of_page (by rw [hL]; simp) hmem hpage
  rw [hi'] at hL hcleared hother
  have hlive' : liveBlocks (freePramMemBlock k₁ p (k₁.workingSet i).vaddr) p = pre ++ suf := by
    rw [hw'.liveBlocks_eq, update_self]
  have hnd := hw.owned.nodup p
  rw [hL] at hnd
  have hne : ∀ j ∈ pre ++ suf, j ≠ i := by
    rintro j hj rfl
    exact (nodup_cons.mp (nodup_middle.mp hnd)).1 hj
  have hpt : ∀ v, (freePramMemBlock k₁ p (k₁.workingSet i).vaddr).getPte p v = k₁.getPte p v := by
    intro v
    unfold freePramMemBlock
    split
    · rfl
    · split
      · rfl
      · simp [Kernel.getPte, Kernel.setWs]
  have hrest : ∀ j ∈ liveBlocks (freePramMemBlock k₁ p (k₁.workingSet i).vaddr) p,
      j ∈ liveBlocks k₁ p ∧ Quiet (k₁.workingSet j)
        ((freePramMemBlock k₁ p (k₁.workingSet i).vaddr).workingSet j) := by
    intro j hj
    rw [hlive'] at hj
    obtain ⟨x, hx⟩ := hother j (hne j hj)
    rw [hx]
    refine ⟨?_, .setNext _ x⟩
    rw [hlive, hL]
    rw [mem_append] at hj
    rw [mem_append, mem_cons]
    tauto
  have hold : ∀ j, Labelled (freePramMemBlock k₁ p (k₁.workingSet i).vaddr) p j →
      Labelled k₁ p j ∧ Quiet (k₁.workingSet j)
        ((freePramMemBlock k₁ p (k₁.workingSet i).vaddr).workingSet j) := by
    intro j hj
    obtain ⟨hlist, hq⟩ := hrest j hj.1
    refine ⟨⟨hlist, ?_⟩, hq⟩
    rw [← hq.hFork]
    exact hj.2
  refine ⟨⟨⟨⟨_, hw'⟩, ?_, fun j => ?_, fun j hj => ?_⟩, fun j hj => ?_, fun j hj => ?_,
    fun j hj => ?_⟩, fun j hj => ?_⟩
  · rw [inUse_freePramMemBlock]
    exact h.inv.inUse
  · by_cases hj : j = i
    · rw [hj, hcleared]
      exact ⟨rfl, (h.inv.noExec i).2⟩
    · obtain ⟨x, hx⟩ := hother j hj
      rw [hx]
      exact h.inv.noExec j
  · obtain ⟨hlabel, hq⟩ := hold j hj
    exact (h.inv.labels j hlabel).of_quiet hq
  · obtain ⟨hlist, hq⟩ := hrest j hj
    obtain ⟨hlist0, hfork⟩ := h.live j hlist
    exact ⟨hlist0, hq.hFork.trans hfork⟩
  · obtain ⟨hlabel, hq⟩ := hold j hj
    exact (h.quiet j hlabel).trans hq
  · have hkept := h.entry j (hold j hj).1
    unfold EntryKept at hkept ⊢
    dsimp only at hkept ⊢
    rw [hpt]
    exact hkept
  -- the link of a freed block still leads to the block behind it
  have hnext : next ((freePramMemBlock k₁ p (k₁.workingSet i).vaddr).workingSet i) = suf.head? := by
    rw [hcleared]
    exact hw.owned.next_eq (o := p) pre hL
  have hhead : suf.head? = some j := hnext.symm.trans hj
  rw [hlive', mem_append]
  exact .inr (mem_of_head? hhead)

theorem setPmbToRo_started (h : Started p k saved k₁) (hi : i ∈ liveBlocks k₁ p)
    (hrun : setPmbToRo p k₁ i = some k₂) :
    Started p k saved k₂ ∧ ∀ j, k₂.nextPmb i = some j → j ∈ liveBlocks k₂ p := by
  have hnext : ∀ {k3 : Kernel}, WsInv k3 → i ∈ liveBlocks k3 p → ∀ j, k3.nextPmb i = some j →
      j ∈ liveBlocks k3 p := by
    intro k3 hinv hlist j hj
    obtain ⟨L, hw⟩ := hinv
    rw [hw.liveBlocks_eq] at hlist ⊢
    obtain ⟨pre, suf, hL⟩ := append_of_mem hlist
    have hhead : suf.head? = some j := (hw.owned.next_eq (o := p) pre hL).symm.trans hj
    rw [hL]
    exact mem_append_right _ (mem_cons_of_mem _ (mem_of_head? hhead))
  unfold setPmbToRo at hrun
  dsimp only at hrun
  split at hrun
  · obtain rfl := some.inj hrun
    exact ⟨h, hnext h.inv.lists hi⟩
  split at hrun
  · cases hrun
  rename_i k3 hprepare
  obtain ⟨hsame, hquiet, hprocs, hstep⟩ := prepare_quiet hprepare
  have hpte : ∀ v, k3.getPte p v = k₁.getPte p v := by
    intro v
    unfold Kernel.getPte
    rw [hprocs]
  have h3 : Started p k saved k3 := h.of_same hsame hquiet fun j _ => .inl (hpte _)
  have hi3 : i ∈ liveBlocks k3 p := by
    rw [liveBlocks_of_same h.inv.lists hsame]
    exact hi
  have hvaddr := (hquiet i).vaddr
  rw [← hvaddr] at hrun
  split at hrun
  · obtain rfl := some.inj hrun
    exact h3.of_free hi3
  obtain rfl := some.inj hrun
  have hset := WsSame.setPte k3 p (k3.workingSet i).vaddr
    (roPte k3.hStep (k3.workingSet i) (k₁.getPte p (k3.workingSet i).vaddr))
  have h4 := h3.of_same hset (fun j => .refl _) fun j hj => by
    by_cases hji : j = i
    · right
      rw [hji] at hj ⊢
      have hok := h3.inv.labels i hj
      have hentry : ∀ e : Pte, (k3.setPte p (k3.workingSet i).vaddr e).getPte p
          (k3.workingSet i).vaddr = e := by
        intro e
        simp [Kernel.setPte, Kernel.setProc, Kernel.getPte]
      rw [hentry]
      exact roPte_private _ _ hok.us1 hok.us2
    · left
      exact getPte_setPte_of_ne _ (page_ne h3.inv.lists hj.1 hi3 hji)
  refine ⟨h4, hnext h4.inv.lists ?_⟩
  rw [liveBlocks_of_same h3.inv.lists hset]
  exact hi3

theorem start_kept (h : Inv p k saved) (step : HStep)
    (hrun : setPeMemToRo { k with hStep := step } p = some k') :
    Inv p k' saved ∧ ∀ i, Labelled k p i → i ∈ liveBlocks k' p → EntryKept p i k k' := by
  have hstep : WsSame k { k with hStep := step } := WsSame.of_procs rfl fun _ => ⟨rfl, rfl, rfl⟩
  have h0 : Inv p { k with hStep := step } saved :=
    h.of_quiet hstep (fun _ => .refl _) fun _ _ => .refl _
  suffices hstarted : Started p k saved k' by
    refine ⟨hstarted.inv, fun i hi hlist => hstarted.entry i ⟨hlist, ?_⟩⟩
    rw [(hstarted.live i hlist).2]
    exact hi.2
  have hbegin : Started p k saved { k with hStep := step } :=
    ⟨h0, fun i hi => ⟨hi, rfl⟩, fun _ _ => .refl _, fun _ _ => .inl rfl⟩
  unfold setPeMemToRo at hrun
  split at hrun
  · obtain rfl := some.inj hrun
    exact hbegin
  split at hrun
  · cases hrun
  rename_i k₁ hevents
  have h1 : Started p k saved k₁ := by
    split at hevents
    · obtain ⟨-, hquiet, hlive, hpte⟩ := events_kept h0 hevents
      have hsame : WsSame { k with hStep := step } k₁ := by
        split at hevents
        · cases hevents
        · rename_i hhandle
          exact (WsSame.handleHmeEvents hhandle).trans
            (WsSame.of_eraseHmes (eraseHmes_freeHardeningMemEvents hevents))
      exact hbegin.of_same hsame hquiet fun j _ => .inl (hpte _)
    · obtain rfl := some.inj hevents
      exact hbegin
  -- the loop is only ever at a block that is on the list
  refine whileNext_reach (I := Started p k saved) (A := fun k₂ i => i ∈ liveBlocks k₂ p)
    (fun k₂ i k3 h2 hi hbody => setPmbToRo_started h2 hi hbody) h1 (fun i hi => ?_) hrun
  obtain ⟨L, hw⟩ := h1.inv.lists
  have hfirst := (hw.chain h1.inv.inUse).start_eq_head?
  rw [hw.liveBlocks_eq]
  exact mem_of_head? (hfirst.symm.trans hi)

/-! ## Runs that keep the promise -/

theorem Inv.of_blocks (h : Inv p k saved) (hsame : WsSame k k')
    (hblocks : k'.workingSet = k.workingSet) : Inv p k' saved := by
  refine h.of_quiet hsame (fun j => ?_) fun j _ => ?_
  · rw [hblocks]
    exact .refl _
  · rw [hblocks]
    exact .refl _

theorem step_kept (h : Inv p k saved) {op : Op} (hgood : Good p k op)
    (hrun : op.run k p = some k') : Inv p k' (op.save k saved) ∧ Undone p k saved k' op := by
  cases op with
  | fork => exact ⟨fork_kept h hgood hrun, trivial⟩
  | map v e =>
    obtain rfl := some.inj hrun
    exact ⟨h.of_blocks (WsSame.setPte k p v e) rfl, trivial⟩
  | addRegion base len us1 us2 =>
    obtain ⟨h', hdone⟩ := foldlM_addPage_kept (pagesCovered base len) h hgood hrun
    exact ⟨h', fun i hi hpage => hdone i hi.1 (.inr ⟨hi.2, hpage⟩)⟩
  | start step => exact start_kept h step hrun
  | access op =>
    simp only [Op.run] at hrun
    split at hrun
    · obtain rfl := some.inj hrun
      cases op with
      | load v => exact ⟨h, trivial⟩
      | store v b =>
        refine ⟨h.of_blocks ?_ rfl, trivial⟩
        exact WsSame.of_procs rfl fun q => by
          by_cases hq : q = p
          · rw [hq]
            simp [UserOp.exec, Kernel.storeByte, Kernel.setPte, Kernel.setProc]
          · simp [UserOp.exec, Kernel.storeByte, Kernel.setPte, Kernel.setProc, hq]
    · cases hrun
  | fault v =>
    obtain ⟨⟨k₁, r⟩, hcheck, rfl⟩ := map_eq_some_iff.mp hrun
    obtain ⟨h', hentry⟩ := fault_kept h hcheck
    exact ⟨h', fun i hi _ => hentry i hi⟩
  | supply =>
    obtain ⟨h', hentry⟩ := supply_kept h hrun
    exact ⟨h', fun i hi _ => hentry i hi⟩
  | endFirst =>
    obtain ⟨h', hentry⟩ := endFirst_kept h hgood hrun
    exact ⟨h', fun i hi _ => hentry i hi⟩
  | compare =>
    obtain ⟨⟨k₁, r⟩, hcmp, rfl⟩ := map_eq_some_iff.mp hrun
    exact compare_kept h hcmp
  | commit => exact ⟨end_kept h hgood hrun, fun i hi => absurd hi (hgood i)⟩
  | fail => exact ⟨end_kept h hgood hrun, fun i hi => absurd hi (hgood i)⟩
  | abort => exact ⟨end_kept h hgood hrun, fun i hi => absurd hi (hgood i)⟩

/-- A predicate of a request, as long as the kernel has not panicked. -/
def Running (P : Kernel → Saved → Op → Prop) (s : State) (op : Op) : Prop :=
  ∀ k, s.kernel = some k → P k s.saved op

/-- In every run of forks, mappings and processing elements that meet the condition, the labels are
undone exactly. -/
theorem fork_labels_undone (hlists : WsInv k) (hlive : (k.procs p).inUse = true) (hexec : NoExec k)
    (hfirst : ∀ i, ¬ Labelled k p i) (ops : List Op) (saved : Saved)
    (hgood : Along (State.step p) (Running fun k _ => Good p k) ⟨some k, saved⟩ ops) :
    Along (State.step p) (Running fun k saved op => ∀ k', op.run k p = some k' →
      Undone p k saved k' op) ⟨some k, saved⟩ ops := by
  have hkept : ∀ s op, (∀ k₁, s.kernel = some k₁ → Inv p k₁ s.saved) →
      Running (fun k _ => Good p k) s op →
      Running (fun k saved op => ∀ k', op.run k p = some k' → Undone p k saved k' op) s op ∧
        ∀ k₁, (s.step p op).kernel = some k₁ → Inv p k₁ (s.step p op).saved := by
    intro s op hs hop
    constructor
    · intro k₁ hk k₂ hrun
      exact (step_kept (hs k₁ hk) (hop k₁ hk) hrun).2
    intro k₂ hk2
    unfold State.step at hk2 ⊢
    split at hk2
    · rename_i hnone
      rw [hnone] at hk2
      cases hk2
    · rename_i k₁ hk
      simp only at hk2
      exact (step_kept (hs k₁ hk) (hop k₁ hk) hk2).1
  have hstart : ∀ k₁, some k = some k₁ → Inv p k₁ saved := by
    rintro k₁ ⟨⟩
    exact ⟨hlists, hlive, hexec, fun i hi => absurd hi (hfirst i)⟩
  exact (Along.run hkept hstart hgood).1

theorem room_of_found (hw : WsOk k L) {pages : List VirBytes} (hpages : pages = [v])
    (hl : lookUpPte k p v = some i) : missing k p pages + totalSize k ≤ workingSetSize := by
  have hfull : totalSize k ≤ workingSetSize := by
    rw [hw.totalSize_eq, ← hw.owned.card_listed]
    exact (Finset.card_le_univ _).trans (Fintype.card_fin _).le
  rw [hpages]
  simpa [missing, hl] using hfull

theorem bareKernel_noExec : NoExec bareKernel := by
  intro j
  have hboot : bareKernel.workingSet j = pmbPool.initTable j := rfl
  rw [hboot]
  unfold Pool.initTable
  split
  · exact ⟨rfl, rfl⟩
  · exact ⟨rfl, rfl⟩

theorem blockKernel_noExec : NoExec blockKernel := by
  obtain ⟨L, hw⟩ := (reachable_lists bareKernel_reachable).1
  have hroom : missing bareKernel 15 (pagesCovered 4096 1) + totalSize bareKernel ≤
      workingSetSize := by
    refine room_of_empty (fun p => ?_) 15
    by_cases hp : p = 15
    · rw [hp]
      rfl
    · rw [bareKernel_procs p hp]
      rfl
  have hpages : pagesCovered 4096 1 = [4096] := rfl
  rw [hpages] at hroom
  obtain ⟨k, -, hrun, -⟩ := addPageToWs_spec hw rfl (some 7) (some 8) hroom
  have hblock : blockKernel = k := by
    have hon : ((bareKernel.procs 15).inUse && (bareKernel.procs 15).procToHard) = true := rfl
    unfold blockKernel doAddregiontoWs addRegionToWs
    rw [if_pos hon, hpages, foldlM_cons, hrun]
    rfl
  rw [hblock]
  exact (addPage_blocks hw rfl bareKernel_noExec hroom hrun).1

theorem fork_labels_undone_block : Along (State.step 15)
    (Running fun k saved op => ∀ k', op.run k 15 = some k' → Undone 15 k saved k' op)
    ⟨some blockKernel, fun _ => .zero⟩ [.fork, .addRegion 4096 1 none none] := by
  obtain ⟨A, hw, -⟩ := blockKernel_ready.inv.lists
  have hblocks : liveBlocks blockKernel 15 = [0] := rfl
  refine fork_labels_undone ⟨A, hw⟩ rfl blockKernel_noExec (fun i hi => ?_) _ _ ⟨?_, ?_, trivial⟩
  · obtain ⟨hlist, hfork⟩ := hi
    rw [hblocks] at hlist
    obtain rfl := mem_singleton.mp hlist
    cases hfork
  · intro k hk i hi
    obtain rfl := some.inj hk
    rw [hblocks] at hi
    obtain rfl := mem_singleton.mp hi
    exact ⟨by decide, by decide, fun hfork => by cases hfork⟩
  intro k hk
  have hrun : setForkLabel blockKernel 15 = some k := hk
  obtain ⟨hw', -, -⟩ := setForkLabel_blocks hw rfl hrun
  refine room_of_found hw' (v := 4096) (i := 0) rfl ?_
  obtain rfl := some.inj hk
  rfl

/-- The block of `blockKernel` has had a fault in a first run. -/
def faultedKernel : Kernel :=
  blockKernel.setPmb 0 { blockKernel.workingSet 0 with
    flags := { (blockKernel.workingSet 0).flags with iwsPfFirst := true } }

/-- A second fork loses the flags of the first; and a commit opens a page protected for the child.
-/
theorem fork_labels_lost : ¬ Along (State.step 15)
      (Running fun k saved op => ∀ k', op.run k 15 = some k' → Undone 15 k saved k' op)
      ⟨some faultedKernel, fun _ => .zero⟩ [.fork, .fork, .addRegion 4096 1 none none] ∧
    ¬ Along (State.step 15)
      (Running fun k saved op => ∀ k', op.run k 15 = some k' → Undone 15 k saved k' op)
      ⟨some { faultedKernel with hStep := .secondRun }, fun _ => .zero⟩
      [.map 4096 { userEntry 5 with write := false }, .fork, .commit] := by
  constructor
  · obtain ⟨k, k', hforks, hrun, hlabel, hvaddr, hflag⟩ : ∃ k k',
        (State.step 15 (State.step 15 ⟨some faultedKernel, fun _ => .zero⟩ .fork) .fork).kernel =
          some k ∧
        addRegionToWs k 15 4096 1 none none = some k' ∧ Labelled k 15 0 ∧
        (k.workingSet 0).vaddr = 4096 ∧ (k'.workingSet 0).flags.iwsPfFirst = false :=
      ⟨_, _, rfl, rfl, ⟨mem_singleton_self 0, rfl⟩, rfl, by decide +kernel⟩
    have hsaved : ((State.step 15 (State.step 15 ⟨some faultedKernel, fun _ => .zero⟩ .fork)
        .fork).saved 0).iwsPfFirst = true := by decide +kernel
    intro h
    have hlost := h.2.2.1 k hforks k' hrun 0 hlabel ⟨4096, by decide, by rw [hvaddr]⟩
    rw [hlost] at hflag
    exact absurd (hsaved.symm.trans hflag) (by decide)
  obtain ⟨k, k', hforks, hrun, hlabel, hold, hnew⟩ : ∃ k k',
      (State.step 15 (State.step 15 ⟨some { faultedKernel with hStep := .secondRun },
        fun _ => .zero⟩ (.map 4096 { userEntry 5 with write := false })) .fork).kernel = some k ∧
      vmResetPram k 15 .cpyRamPram = some k' ∧ Labelled k 15 0 ∧
      k.getPte 15 (k.workingSet 0).vaddr = { userEntry 5 with write := false } ∧
      k'.getPte 15 (k.workingSet 0).vaddr = userEntry 5 ∧
      (k.workingSet 0).us1 = some 7 ∧ (k.workingSet 0).us2 = some 8 :=
    ⟨_, _, rfl, rfl, ⟨mem_singleton_self 0, rfl⟩, by decide +kernel, by decide +kernel, rfl, rfl⟩
  intro h
  have hmapped := (h.2.2.1 k hforks k' hrun 0 hlabel).1
  obtain ⟨hnew, hus1, hus2⟩ := hnew
  unfold EntryKept at hmapped
  dsimp only at hmapped
  rw [hold, hnew, hus1, hus2] at hmapped
  exact absurd hmapped (by decide)

end HardenedMinix.ForkLabel
