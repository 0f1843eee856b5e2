import HardenedMinix.Pe.Phases
import HardenedMinix.Pe.PageRuns

/-!
# Plain execution

What loads and stores do to a memory that is not hardened, and the simulation of it by one run. A
run is completed only if VM has frames for the pages it opens.
-/

open Option

namespace HardenedMinix

open Lib Linked

variable {k k' k₁ k₂ : Kernel} {p : ProcNr} {i : Fin workingSetSize}
  {L : List (Fin workingSetSize)} {step : HStep}

/-! ## Execution without hardening -/

abbrev PlainMemory := Nat → PageData

def UserOp.plain (m : PlainMemory) : UserOp → PlainMemory × List UInt8
  | .load v => (m, [m (pageOf v) (pageOffset v)])
  | .store v b =>
    (Function.update m (pageOf v) (Function.update (m (pageOf v)) (pageOffset v) b), [])

/-- The accesses of a plain execution, with the bytes the loads return. -/
def plainRun (m : PlainMemory) : List UserOp → PlainMemory × List UInt8
  | [] => (m, [])
  | op :: ops =>
    ((plainRun (op.plain m).1 ops).1, (op.plain m).2 ++ (plainRun (op.plain m).1 ops).2)

theorem UserOp.plain_page (m : PlainMemory) (op : UserOp) (pg : Nat) :
    (op.plain m).1 pg = applyStores (m pg) (storesOn pg [op]) := by
  cases op with
  | load v => rfl
  | store v b =>
    by_cases hv : pageOf v = pg
    · subst hv
      simp [UserOp.plain, storesOn]
    · simp [UserOp.plain, storesOn, hv, Function.update_of_ne (Ne.symm hv)]

theorem plainRun_page (m : PlainMemory) (ops : List UserOp) (pg : Nat) :
    (plainRun m ops).1 pg = applyStores (m pg) (storesOn pg ops) := by
  induction ops generalizing m with
  | nil => rfl
  | cons op ops ih =>
    rw [storesOn_cons]
    simp only [plainRun, ih, op.plain_page, applyStores, List.foldl_append]

/-! ## The simulation -/

/-- Opening the page does not change what it shows. -/
def View.Steady (step : HStep) (v : View) : Prop :=
  ∀ v', v.opened step = some v' → v'.content = v.content

/-- What `p` reads is the memory `m`. -/
structure Shows (k : Kernel) (p : ProcNr) (L : List (Fin workingSetSize)) (m : PlainMemory) :
    Prop where
  pages : ∀ i ∈ L, (view k p i).content = m (pageOf (k.workingSet i).vaddr)
  outside : ∀ v, Outside k L v → (k.getPte p v).present = true → visible k p v = m (pageOf v)

theorem View.steady_of_write {v : View} (hw : v.write = true) : v.Steady step := by
  intro v' hopen
  simp only [opened, hw, ↓reduceIte, some.injEq] at hopen
  rw [hopen]

theorem View.Steady.stores {v v' : View} {s : List PageStore} (h : v.Steady step) (hm : v.Mapped)
    (hrun : v.stores step s = some v') :
    v'.content = applyStores v.content s ∧ v'.Steady step := by
  rcases View.stores_cases hm hrun with ⟨rfl, rfl⟩ | ⟨-, w, hopen, rfl⟩
  · exact ⟨rfl, h⟩
  · refine ⟨?_, steady_of_write ?_⟩
    · rw [content_written (hm.opened hopen), h w hopen]
    · have hw := opened_write hopen
      simpa [written] using hw

theorem perform_load_plain {m : PlainMemory} {v : VirBytes} {r : List UInt8} (h : PeInv k p L)
    (hshows : Shows k p L m) (hrun : perform k p (.load v) = some (k', r)) :
    k' = k ∧ r = [m (pageOf v) (pageOffset v)] := by
  rcases mem_or_outside k L v with ⟨i, hi, hiv⟩ | hout
  · rw [perform_load (h.pages i hi) hiv, hshows.pages i hi, hiv] at hrun
    obtain ⟨rfl, rfl⟩ := Prod.mk.inj (some.inj hrun)
    exact ⟨rfl, rfl⟩
  have hv : Outside k L (UserOp.load v).addr := hout
  obtain ⟨hallowed, hexec⟩ := perform_outside h hv hrun
  obtain ⟨rfl, rfl⟩ := Prod.mk.inj hexec
  have hpres : (k.getPte p v).present = true := by
    simp only [UserOp.allowed, Kernel.canLoad, Bool.and_eq_true] at hallowed
    exact hallowed.1.2
  have hvis := hshows.outside v hout hpres
  unfold visible at hvis
  exact ⟨rfl, by rw [Kernel.loadByte, hvis]⟩

theorem perform_plain {m : PlainMemory} {op : UserOp} {r : List UInt8} (h : PeInv k p L)
    (hclosed : ∀ v, Outside k L v → k.canStore p v = false)
    (hsteady : ∀ i ∈ L, (view k p i).Steady k.hStep) (hshows : Shows k p L m)
    (hrun : perform k p op = some (k', r)) :
    r = (op.plain m).2 ∧ Shows k' p L (op.plain m).1 ∧ ∀ i ∈ L, (view k' p i).Steady k'.hStep := by
  obtain ⟨-, ha, hviews⟩ := perform_view h hrun
  have haround := perform_around h hclosed hrun
  refine ⟨?_, ⟨fun i hi => ?_, fun v hv hpres => ?_⟩, fun i hi => ?_⟩
  · cases op with
    | load v => exact (perform_load_plain h hshows hrun).2
    | store v b =>
      -- a store returns no bytes, wherever it goes
      rcases mem_or_outside k L v with ⟨i, hi, hiv⟩ | hout
      · rcases perform_store h hi hiv b with ⟨hnone, -⟩ | ⟨k₁, v', hsome, -⟩
        · rw [hnone] at hrun
          simp at hrun
        · rw [hsome] at hrun
          exact (Prod.mk.inj (some.inj hrun)).2.symm
      · have hv : Outside k L (UserOp.store v b).addr := hout
        obtain ⟨-, hexec⟩ := perform_outside h hv hrun
        exact (Prod.mk.inj hexec).2.symm
  · rw [ha.same.vaddr, op.plain_page, ← hshows.pages i hi]
    exact ((hsteady i hi).stores (view_mapped k p i) (hviews i hi)).1
  · rw [haround.outside_iff] at hv
    rw [haround.outPte v hv] at hpres
    rw [haround.outVisible v hv hpres, hshows.outside v hv hpres, op.plain_page]
    have hquiet : storesOn (pageOf v) [op] = [] := by
      cases op with
      | load w => rfl
      | store w b =>
        -- a store to this page is not made
        by_cases hwv : pageOf w = pageOf v
        · have hw : Outside k L (UserOp.store w b).addr := fun i hi heq =>
            hv i hi (heq.trans hwv)
          have hallowed := (perform_outside h hw hrun).1
          simp [UserOp.allowed, hclosed w hw] at hallowed
        · simp [storesOn, hwv]
    rw [hquiet]
    rfl
  · rw [ha.hStep_eq]
    exact ((hsteady i hi).stores (view_mapped k p i) (hviews i hi)).2

theorem userRun_plain {ops : List UserOp} : ∀ {k : Kernel} {m : PlainMemory} {rs : List UInt8},
    PeInv k p L → (∀ v, Outside k L v → k.canStore p v = false) →
    (∀ i ∈ L, (view k p i).Steady k.hStep) → Shows k p L m →
    userRun k p ops = some (k', rs) → rs = (plainRun m ops).2 := by
  induction ops with
  | nil =>
    intro k m rs _ _ _ _ hrun
    exact (Prod.mk.inj (some.inj hrun)).2.symm
  | cons op ops ih =>
    intro k m rs h hclosed hsteady hshows hrun
    unfold userRun at hrun
    split at hrun
    · simp at hrun
    rename_i k₁ r hop
    split at hrun
    · simp at hrun
    rename_i k₂ rs' hops
    obtain ⟨rfl, rfl⟩ := Prod.mk.inj (some.inj hrun)
    obtain ⟨hr, hshows1, hsteady1⟩ := perform_plain h hclosed hsteady hshows hop
    have haround := perform_around h hclosed hop
    have hclosed1 : ∀ v, Outside k₁ L v → k₁.canStore p v = false := by
      intro v hv
      rw [haround.outside_iff] at hv
      rw [haround.canStore_eq hv]
      exact hclosed v hv
    rw [hr, ih (perform_view h hop).1 hclosed1 hsteady1 hshows1 hops]
    rfl

/-! ## The frames that are left -/

theorem freeMem_updateWsUs1Us2DataVaddr {v : VirBytes}
    (hrun : updateWsUs1Us2DataVaddr p k v = some k') : k'.freeMem = k.freeMem := by
  unfold updateWsUs1Us2DataVaddr at hrun
  split at hrun
  · simp at hrun
  simp only at hrun
  split at hrun
  · rw [← some.inj hrun]
  · split at hrun
    all_goals
      obtain rfl := some.inj hrun
      rfl

theorem freeMem_handleHmeEvents (hrun : handleHmeEvents k p = some k') :
    k'.freeMem = k.freeMem := by
  unfold handleHmeEvents at hrun
  split at hrun
  · rw [← some.inj hrun]
  · refine whileNext_rel (R := fun k k' : Kernel => k'.freeMem = k.freeMem) (fun _ => rfl)
      (fun _ _ _ h1 h2 => h2.trans h1) (fun s e s' hbody => ?_) hrun
    exact foldlM_inv (I := fun k₁ : Kernel => k₁.freeMem = s.freeMem)
      (fun _ _ s1 s2 h1 h2 => (freeMem_updateWsUs1Us2DataVaddr h2).trans h1) rfl hbody

theorem freeMem_setPmbToRo (hrun : setPmbToRo p k i = some k') : k'.freeMem = k.freeMem := by
  have hmark : (markShared k p i).freeMem = k.freeMem := by
    unfold markShared
    simp only
    split <;> rfl
  have hupdate : ∀ k₁, updatePrivate (markShared k p i) i = some k₁ → k₁.freeMem = k.freeMem := by
    intro k₁ h1
    unfold updatePrivate at h1
    simp only at h1
    split at h1
    · split at h1
      · simp at h1
      · rw [← some.inj h1, ← hmark]
        rfl
    · rw [← some.inj h1, hmark]
  unfold setPmbToRo at hrun
  simp only at hrun
  split at hrun
  · rw [← some.inj hrun]
  split at hrun
  · simp at hrun
  rename_i k₁ h1
  split at hrun
  · rw [← some.inj hrun, ← hupdate k₁ h1]
    unfold freePramMemBlock
    split
    · rfl
    · split <;> rfl
  · rw [← some.inj hrun, ← hupdate k₁ h1]
    rfl

theorem freeMem_setPeMemToRo (hrun : setPeMemToRo k p = some k') : k'.freeMem = k.freeMem := by
  have hloop : ∀ k₁ k₂ : Kernel, k₁.forPmbs p (setPmbToRo p) = some k₂ → k₂.freeMem = k₁.freeMem := by
    intro k₁ k₂ h1
    exact whileNext_rel (R := fun k k' : Kernel => k'.freeMem = k.freeMem) (fun _ => rfl)
      (fun _ _ _ h1 h2 => h2.trans h1) (fun _ _ _ hbody => freeMem_setPmbToRo hbody) h1
  unfold setPeMemToRo at hrun
  split at hrun
  · rw [← some.inj hrun]
  split at hrun
  · simp at hrun
  rename_i k₁ h1
  rw [hloop k₁ k' hrun]
  split at h1
  · split at h1
    · simp at h1
    rename_i k₂ h2
    have herase : k₁.freeMem = k₂.freeMem := by
      have := congrArg Kernel.freeMem (eraseHmes_freeHardeningMemEvents h1)
      exact this
    exact herase.trans (freeMem_handleHmeEvents h2)
  · rw [← some.inj h1]

theorem freeMem_startDwc (hrun : startDwc k p = some k') : k'.freeMem = k.freeMem := by
  have hfirst : ∀ k₁, startPe k p = some k₁ → k₁.freeMem = k.freeMem := by
    intro k₁ h1
    unfold startPe at h1
    split at h1
    · split at h1
      · simp at h1
      split at h1
      · simp at h1
      rename_i k₂ hro
      have hmem := freeMem_setPeMemToRo hro
      rw [← some.inj h1]
      exact hmem
    · rw [← some.inj h1]
  have hagain : ∀ k₁ k₂, restorePe k₁ p = some k₂ → k₂.freeMem = k₁.freeMem := by
    intro k₁ k₂ h1
    unfold restorePe at h1
    split at h1
    · split at h1
      · simp at h1
      simp only at h1
      split at h1
      · simp at h1
      rename_i k3 hro
      split at h1
      · simp at h1
      have hmem := freeMem_setPeMemToRo hro
      rw [← some.inj h1]
      exact hmem
    · rw [← some.inj h1]
  unfold startDwc at hrun
  split at hrun
  · simp at hrun
  rename_i k₁ h1
  split at hrun
  · simp at hrun
  rename_i k₂ h2
  split at hrun
  · simp at hrun
  rw [← some.inj hrun, hagain k₁ k₂ h2, hfirst k₁ h1]

theorem freeMem_endFirst {t : Trap} (hs : k.hStep = .firstRun)
    (hrun : hardeningTask k p t true = some (k', .secondRun)) : k'.freeMem = k.freeMem := by
  have hturn : ∀ (k₁ : Kernel) (i : Fin workingSetSize) (k₂ : Kernel),
      resetTurn p .cpyRamFirst k₁ i = some k₂ → k₂.freeMem = k₁.freeMem := by
    intro k₁ i k₂ h1
    unfold resetTurn at h1
    cases hstep : k₁.hStep with
    | noHardRun =>
      simp only [hstep, some.injEq] at h1
      rw [h1]
    | firstRun =>
      simp only [hstep, some.injEq] at h1
      rw [← h1]
      unfold endFirstPmb
      simp only
      split <;> rfl
    | secondRun => simp [hstep] at h1
  unfold hardeningTask at hrun
  split at hrun
  · simp at hrun
  rw [hs] at hrun
  simp only at hrun
  split at hrun
  · simp at hrun
  split at hrun
  · simp at hrun
  rename_i k₁ hreset
  obtain ⟨rfl, -⟩ := Prod.mk.inj (some.inj hrun)
  unfold vmResetPram at hreset
  split at hreset
  · simp at hreset
  split at hreset
  · rw [← some.inj hreset]
  · have hrel := whileNext_rel (R := fun k k' : Kernel => k'.freeMem = k.freeMem) (fun _ => rfl)
      (fun _ _ _ h1 h2 => h2.trans h1) hturn hreset
    exact hrel

theorem storesOn_eq_nil {ops : List UserOp} : ∀ {k : Kernel} {rs : List UInt8}, PeInv k p L →
    i ∈ L → k.freeMem = [] → (view k p i).write = false → (view k p i).both = false →
    userRun k p ops = some (k', rs) → pageStores k i ops = [] := by
  induction ops with
  | nil => exact fun _ _ _ _ _ _ => rfl
  | cons op ops ih =>
    intro k rs h hi hmem hw hboth hrun
    unfold userRun at hrun
    split at hrun
    · simp at hrun
    rename_i k₁ r hop
    split at hrun
    · simp at hrun
    rename_i k₂ rs' hops
    obtain ⟨rfl, -⟩ := Prod.mk.inj (some.inj hrun)
    obtain ⟨h1, ha, hviews⟩ := perform_view h hop
    have hquiet : storesOn (pageOf (k.workingSet i).vaddr) [op] = [] := by
      cases op with
      | load v => rfl
      | store v b =>
        by_cases hv : pageOf v = pageOf (k.workingSet i).vaddr
        · -- the page would have to be opened
          rcases perform_store h hi hv.symm b with ⟨hnone, -⟩ | ⟨-, -, -, -, hsupply, -⟩
          · rw [hnone] at hop
            simp at hop
          · exact absurd hmem (hsupply hw hboth)
        · simp [storesOn, hv]
    have hview := hviews i hi
    rw [hquiet] at hview
    have hsame : view k p i = view k₁ p i := some.inj hview
    have hmem1 : k₁.freeMem = [] := by
      have hsuffix := ha.freeMem
      rw [hmem] at hsuffix
      exact List.suffix_nil.mp hsuffix
    have hrest := ih h1 hi hmem1 (by rw [← hsame]; exact hw) (by rw [← hsame]; exact hboth) hops
    rw [pageStores, storesOn_cons, hquiet, List.nil_append, ← hrest, ha.same.pageStores_eq]
    rfl

end HardenedMinix
