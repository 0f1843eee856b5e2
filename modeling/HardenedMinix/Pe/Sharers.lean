import HardenedMinix.Pe.Phases

/-!
# Writes to shared memory

The commit records an event for every modified page of a region. It is recorded for the process
that commits; the other processes of the region get none.
-/

open Function

namespace HardenedMinix

open Lib Linked Kernel

variable {k k' k'' : Kernel} {p q : ProcNr} {i j : Fin workingSetSize}
  {L : List (Fin workingSetSize)}

/-! ## What a commit should do -/

/-- The page of a block was written in the second run, so that the commit copies it. -/
def modifiedPage (k : Kernel) (p : ProcNr) (i : Fin workingSetSize) : Bool :=
  let b := k.workingSet i
  b.us2.isSome && b.us0.isSome && (b.flags.hgetPf || (k.getPte p b.vaddr).dirty)

/-- `q` is on the list of a region of `p` that holds the address `v`. -/
def SharesPage (k : Kernel) (p q : ProcNr) (v : VirBytes) : Prop :=
  ∃ h ∈ follow k.hardeningSharedRegions hardeningSharedRegionsSize
      (k.procs p).hardeningSharedRegions,
    (k.hardeningSharedRegions h).vaddr ≤ v ∧
    v < (k.hardeningSharedRegions h).vaddr + (k.hardeningSharedRegions h).length ∧
    ∃ s ∈ follow k.hardeningSharedProcs hardeningSharedProcsSize (k.hardeningSharedRegions h).rHsp,
      (k.hardeningSharedProcs s).hspEndpoint = (k.procs q).endpoint

/-- At the start of the next first run of `q`, both private frames of its page at `v` hold
what `us0` held in `k`. -/
def NextRunSynced (k : Kernel) (q : ProcNr) (v : VirBytes) : Prop :=
  ∀ k', setPeMemToRo { k with hStep := .firstRun } q = some k' → ∀ j us1 us2,
    lookUpPte k' q v = some j → (k'.workingSet j).us1 = some us1 →
    (k'.workingSet j).us2 = some us2 → k'.mem us1 = us0Data k j ∧ k'.mem us2 = us0Data k j

/-- The commit goes through, and for every modified page taken for shared `look_up_hsr_vaddr` finds
the region, and every other process of it has an event for the page (`place q i`), and up-to-date
copies in its next first run. -/
def CommitReaches (k : Kernel) (p : ProcNr) (L : List (Fin workingSetSize))
    (place : ProcNr → Fin workingSetSize → VirBytes) : Prop :=
  ∃ k', vmResetPram k p .cpyRamPram = some k' ∧
    ∀ i ∈ L, modifiedPage k p i = true → lookUpPageInHsr k p (k.workingSet i).vaddr = true →
      (lookUpHsrVaddr k p (k.workingSet i).vaddr 4096).isSome = true ∧
      ∀ q, q ≠ p → SharesPage k p q (k.workingSet i).vaddr →
        onPages (pendingPages k' q) (place q i) = true ∧ NextRunSynced k' q (place q i)

/-- The end of the page of `v` lies in a region of `p`. -/
def EndsInRegion (k : Kernel) (p : ProcNr) (v : VirBytes) : Prop :=
  ∃ h ∈ follow k.hardeningSharedRegions hardeningSharedRegionsSize
      (k.procs p).hardeningSharedRegions,
    (k.hardeningSharedRegions h).vaddr ≤ (v + 4096) % 2 ^ 32 ∧
    (v + 4096) % 2 ^ 32 ≤
      ((k.hardeningSharedRegions h).vaddr + (k.hardeningSharedRegions h).length) % 2 ^ 32

/-- A modified page that is shared ends in a region whose other processes have an event for it
already. -/
def CommitQuiet (k : Kernel) (p : ProcNr) (L : List (Fin workingSetSize))
    (place : ProcNr → Fin workingSetSize → VirBytes) : Prop :=
  ∀ i ∈ L, modifiedPage k p i = true →
    (0 < (k.procs p).nbHardeningSharedRegions → (k.workingSet i).flags.wsShared = true →
      EndsInRegion k p (k.workingSet i).vaddr) ∧
    (lookUpPageInHsr k p (k.workingSet i).vaddr = true →
      EndsInRegion k p (k.workingSet i).vaddr ∧
      ∀ q, q ≠ p → SharesPage k p q (k.workingSet i).vaddr →
        onPages (pendingPages k q) (place q i) = true)

/-! ## Two processes that share a page -/

/-- The state after a request that does not panic. -/
def after (k : Kernel) (op : Op) : Kernel := (op.run k).getD k

theorem Reachable.after {good : Kernel → Op → Prop} (op : Op) (h : Reachable good k)
    (hgood : good k op) (hsome : (op.run k).isSome = true) : Reachable good (after k op) := by
  obtain ⟨k', hrun⟩ := Option.isSome_iff_exists.mp hsome
  have heq : HardenedMinix.after k op = k' := by rw [HardenedMinix.after, hrun, Option.getD_some]
  exact heq ▸ .step op h hgood hrun

/-- Process 16 gets the page of process 15 too. -/
def secondKernel : Kernel :=
  after (after (after blockKernel (.pageTable 16 onePage)) (.hardeningPid 16 true))
    (.addRegionToWs 16 4096 1 (some 9) (some 10))

/-- Both share the region the page starts. -/
def sharingKernel : Kernel :=
  after (after secondKernel (.shareRegion 15 4096 8192 7)) (.shareRegion 16 4096 8192 7)

def noticedKernel : Kernel := after sharingKernel (.hmeEvent 16 4096 1)

/-- In the second run process 15 stores to the page. -/
def storingKernel (k : Kernel) : Kernel :=
  after (after k (.setPeMemToRo 15 .secondRun)) (.checkVaddr 15 .secondRun 4096)

set_option maxRecDepth 4000 in
theorem sharingKernel_reachable : Reachable LifeGood sharingKernel := by
  have h1 := blockKernel_reachable.after (.pageTable 16 onePage) trivial rfl
  have h2 := h1.after (.hardeningPid 16 true) trivial rfl
  have hroom : missing (after (after blockKernel (.pageTable 16 onePage)) (.hardeningPid 16 true))
      16 (pagesCovered 4096 1) + totalSize (after (after blockKernel (.pageTable 16 onePage))
        (.hardeningPid 16 true)) ≤ workingSetSize := by
    decide +kernel
  have h3 := h2.after (.addRegionToWs 16 4096 1 (some 9) (some 10)) hroom (by decide +kernel)
  have h4 := h3.after (.shareRegion 15 4096 8192 7) trivial (by decide +kernel)
  exact h4.after (.shareRegion 16 4096 8192 7) trivial (by decide +kernel)

set_option maxRecDepth 4000 in
theorem noticedKernel_reachable : Reachable LifeGood noticedKernel := by
  have hroom : eventsWith sharingKernel 16 4096 ≤ hardeningMemEventsSize := by decide +kernel
  exact sharingKernel_reachable.after (.hmeEvent 16 4096 1) (fun _ => hroom) (by decide +kernel)

theorem storingKernel_reachable (h : Reachable LifeGood k)
    (hro : ((Op.setPeMemToRo 15 .secondRun).run k).isSome = true)
    (hfault : ((Op.checkVaddr 15 .secondRun 4096).run
      (after k (.setPeMemToRo 15 .secondRun))).isSome = true) :
    Reachable LifeGood (storingKernel k) :=
  (h.after (.setPeMemToRo 15 .secondRun) trivial hro).after (.checkVaddr 15 .secondRun 4096) trivial
    hfault

/-! ## Events of other processes -/

/-- What belongs to other processes, and the shared regions, are the same in both states. -/
structure OthersKept (p : ProcNr) (k k' : Kernel) : Prop where
  procs : ∀ q, q ≠ p → k'.procs q = k.procs q
  events : ∀ q, q ≠ p → (k.procs q).inUse = true → pendingPages k' q = pendingPages k q
  regions : k'.hardeningSharedRegions = k.hardeningSharedRegions
  sharers : k'.hardeningSharedProcs = k.hardeningSharedProcs
  own : (k'.procs p).hardeningSharedRegions = (k.procs p).hardeningSharedRegions ∧
    (k'.procs p).nbHardeningSharedRegions = (k.procs p).nbHardeningSharedRegions

theorem OthersKept.refl (p : ProcNr) (k : Kernel) : OthersKept p k k :=
  ⟨fun _ _ => rfl, fun _ _ _ => rfl, rfl, rfl, rfl, rfl⟩

theorem OthersKept.trans (h : OthersKept p k k') (h' : OthersKept p k' k'') :
    OthersKept p k k'' where
  procs q hq := (h'.procs q hq).trans (h.procs q hq)
  events q hq hlive := by
    have hlive' : (k'.procs q).inUse = true := by
      rw [h.procs q hq]
      exact hlive
    exact (h'.events q hq hlive').trans (h.events q hq hlive)
  regions := h'.regions.trans h.regions
  sharers := h'.sharers.trans h.sharers
  own := ⟨h'.own.1.trans h.own.1, h'.own.2.trans h.own.2⟩

theorem HmeOk.pendingPages_eq {M : ProcNr → List (Fin hardeningMemEventsSize)} (h : HmeOk k M)
    (hq : (k.procs q).inUse = true) :
    pendingPages k q = (M q).flatMap (fun e => eventPages (k.hardeningMemEvents e)) := by
  unfold pendingPages
  rw [(h.chain hq).follow_eq]

theorem OthersKept.addHmeEvent (h : HmeInv k) (hp : (k.procs p).inUse = true) {offset : Nat}
    (hroom : eventsWith k p offset ≤ hardeningMemEventsSize) {size : Nat}
    (hrun : addHmeEvent k p offset size = some k') : OthersKept p k k' := by
  obtain ⟨M, h⟩ := h
  cases hl : lookUpHme k p offset with
  | none =>
    have hlt : totalEvents k < hardeningMemEventsSize := by
      unfold eventsWith at hroom
      rw [hl] at hroom
      simp only [↓reduceIte] at hroom
      omega
    have hex : ∃ j, ∀ q, j ∉ M q := Owned.exists_unlisted (by rw [← h.totalEvents_eq]; exact hlt)
    obtain ⟨t, first, i, hadd, h', hi, htj, -⟩ := addHmeEvent_new h hp hl hex size
    obtain rfl := Option.some.inj (hrun.symm.trans hadd)
    refine ⟨fun q hq => ?_, fun q hq hlive => ?_, rfl, rfl, ?_⟩
    · simp [setHmes, hq]
    · have hlive' : ((k.setHmes t p first ((k.procs p).nbHardeningMemEvents + 1)).procs q).inUse =
          true := by
        rw [inUse_setHmes]
        exact hlive
      rw [h.pendingPages_eq hlive, h'.pendingPages_eq hlive', update_of_ne hq]
      apply List.flatMap_congr
      intro j hj
      have hji : j ≠ i := fun heq => hi q (heq ▸ hj)
      obtain ⟨x, hx⟩ := htj j hji
      show eventPages (t j) = _
      rw [hx]
      rfl
    · simp [setHmes]
  | some i =>
    obtain ⟨hi, -⟩ := lookUpHme_some h hp hl
    obtain ⟨e, hadd, hcases⟩ := addHmeEvent_found size hl
    obtain rfl := Option.some.inj (hrun.symm.trans hadd)
    refine ⟨fun _ _ => rfl, fun q hq hlive => ?_, rfl, rfl, rfl, rfl⟩
    have hnext : e.nextHme = (k.hardeningMemEvents i).nextHme ∧
        e.slotFree = (k.hardeningMemEvents i).slotFree := by
      rcases hcases with ⟨-, rfl⟩ | ⟨-, rfl⟩
      · exact ⟨rfl, rfl⟩
      · exact ⟨rfl, rfl⟩
    have h' : HmeOk { k with hardeningMemEvents := update k.hardeningMemEvents i e } M :=
      ⟨h.owned.update hnext.1 hnext.2, h.size⟩
    rw [h.pendingPages_eq hlive, h'.pendingPages_eq hlive]
    apply List.flatMap_congr
    intro j hj
    have hji : j ≠ i := by
      rintro rfl
      exact h.owned.disjoint hq j hj hi
    simp [hji]

/-! ## The region of a page -/

variable {v : VirBytes}

theorem lookUpHsrVaddr_isSome_iff : (lookUpHsrVaddr k p v 4096).isSome = true ↔
      0 < (k.procs p).nbHardeningSharedRegions ∧ EndsInRegion k p v := by
  unfold lookUpHsrVaddr EndsInRegion
  split
  · rename_i hnb
    simp only [Option.isSome_none, Bool.false_eq_true, false_iff, not_and]
    intro hpos
    omega
  rename_i hnb
  rw [findHsr, search, List.find?_isSome]
  simp only [Bool.and_eq_true, decide_eq_true_eq]
  constructor
  · intro hfound
    exact ⟨by omega, hfound⟩
  · intro hfound
    exact hfound.2

theorem nb_pos_of_lookUpPageInHsr (hin : lookUpPageInHsr k p v = true) :
    0 < (k.procs p).nbHardeningSharedRegions := by
  by_contra hnb
  simp [lookUpPageInHsr, not_lt.mp hnb] at hin

theorem OthersKept.endsInRegion_iff (h : OthersKept p k k') (v : VirBytes) :
    EndsInRegion k' p v ↔ EndsInRegion k p v := by
  unfold EndsInRegion
  rw [h.regions, h.own.1]

/-- The lists of sharers of the regions of `p` end. -/
def SharersEnd (k : Kernel) (p : ProcNr) : Prop :=
  ∀ h ∈ follow k.hardeningSharedRegions hardeningSharedRegionsSize
      (k.procs p).hardeningSharedRegions,
    ∃ P, Chain k.hardeningSharedProcs (k.hardeningSharedRegions h).rHsp P

theorem enableHmeEventInProcs_total (h : HmeInv k)
    (hp : (k.procs p).inUse = true) (hroom : eventsWith k p v ≤ hardeningMemEventsSize)
    (hends : SharersEnd k p)
    (hregion : 0 < (k.procs p).nbHardeningSharedRegions → EndsInRegion k p v) :
    ∃ k', enableHmeEventInProcs k p v 4096 = some k' := by
  unfold enableHmeEventInProcs
  split
  · exact ⟨k, rfl⟩
  rename_i hnb
  obtain ⟨h', hfound⟩ := Option.isSome_iff_exists.mp
    (lookUpHsrVaddr_isSome_iff.mpr ⟨by omega, hregion (by omega)⟩)
  rw [hfound]
  have hmem : h' ∈ follow k.hardeningSharedRegions hardeningSharedRegionsSize
      (k.procs p).hardeningSharedRegions := by
    unfold lookUpHsrVaddr at hfound
    rw [if_neg hnb] at hfound
    exact List.mem_of_find?_eq_some hfound
  obtain ⟨P, hchain⟩ := hends h' hmem
  -- every turn records the same event and leaves the entries alone
  obtain ⟨k₁, hrun, -⟩ := whileNext_total
    (fun (k : Kernel) s => (k.hardeningSharedProcs s).nextHsp)
    (fun k _ => addHmeEvent k p v 4096)
    (P := fun rest k₁ => HmeInv k₁ ∧ (k₁.procs p).inUse = true ∧
      eventsWith k₁ p v ≤ hardeningMemEventsSize ∧
      k₁.hardeningSharedProcs = k.hardeningSharedProcs ∧
      ∃ o, Chain k.hardeningSharedProcs o rest)
    (fun s rest k₁ ⟨h1, hp1, hroom1, hsame, o, hc⟩ => by
      obtain ⟨k₂, hadd, h2, hp2, heq, -⟩ := addHmeEvent_spec h1 hp1 hroom1 4096
      have hkept := OthersKept.addHmeEvent h1 hp1 hroom1 hadd
      have hnext := hc.start_of_cons.2
      refine ⟨k₂, hadd, ⟨h2, hp2, heq.trans_le hroom1, hkept.sharers.trans hsame, _, hnext⟩, ?_⟩
      rw [hkept.sharers, hsame]
      exact hnext.start_eq_head?)
    (l := P) (s := k) ⟨h, hp, hroom, rfl, _, hchain⟩ hchain.length_le
  refine ⟨k₁, ?_⟩
  simp only
  rw [hchain.start_eq_head?]
  exact hrun

theorem OthersKept.enableHmeEventInProcs (h : HmeInv k)
    (hp : (k.procs p).inUse = true) (hroom : eventsWith k p v ≤ hardeningMemEventsSize)
    (hrun : enableHmeEventInProcs k p v 4096 = some k') : OthersKept p k k' := by
  unfold HardenedMinix.enableHmeEventInProcs at hrun
  split_ifs at hrun
  · rw [← Option.some.inj hrun]
    exact OthersKept.refl p k
  split at hrun
  · simp at hrun
  refine (whileNext_rel (R := fun k₁ k₂ : Kernel => HmeInv k₁ → (k₁.procs p).inUse = true →
      eventsWith k₁ p v ≤ hardeningMemEventsSize →
      OthersKept p k₁ k₂ ∧ HmeInv k₂ ∧ (k₂.procs p).inUse = true ∧
        eventsWith k₂ p v ≤ hardeningMemEventsSize)
    (fun k₁ h1 hp1 hroom1 => ⟨OthersKept.refl p k₁, h1, hp1, hroom1⟩)
    (fun k₁ k₂ k3 hr1 hr2 h1 hp1 hroom1 => ?_)
    (fun k₁ s k₂ hbody h1 hp1 hroom1 => ?_) hrun h hp hroom).1
  · obtain ⟨hk2, h2, hp2, hroom2⟩ := hr1 h1 hp1 hroom1
    obtain ⟨hk3, h3, hp3, hroom3⟩ := hr2 h2 hp2 hroom2
    exact ⟨hk2.trans hk3, h3, hp3, hroom3⟩
  · obtain ⟨k3, hadd, hinv, hlive, heq, -⟩ := addHmeEvent_spec h1 hp1 hroom1 4096
    obtain rfl := Option.some.inj (hbody.symm.trans hadd)
    exact ⟨OthersKept.addHmeEvent h1 hp1 hroom1 hbody, hinv, hlive, heq.trans_le hroom1⟩

/-! ## The sharers of the page -/

theorem storing_region (hk : k = sharingKernel ∨ k = noticedKernel) :
    follow (storingKernel k).hardeningSharedRegions hardeningSharedRegionsSize
        ((storingKernel k).procs 15).hardeningSharedRegions = [0] ∧
      Chain (storingKernel k).hardeningSharedProcs
        ((storingKernel k).hardeningSharedRegions 0).rHsp [0, 1] ∧
      ((storingKernel k).hardeningSharedProcs 0).hspEndpoint = 15 ∧
      ((storingKernel k).hardeningSharedProcs 1).hspEndpoint = 16 := by
  have hregion : follow (storingKernel k).hardeningSharedRegions hardeningSharedRegionsSize
      ((storingKernel k).procs 15).hardeningSharedRegions = [0] := by
    rcases hk with rfl | rfl <;> decide +kernel
  have hentries : ((storingKernel k).hardeningSharedRegions 0).rHsp = some 0 ∧
      ((storingKernel k).hardeningSharedProcs 0).nextHsp = some 1 ∧
      ((storingKernel k).hardeningSharedProcs 1).nextHsp = none ∧
      ((storingKernel k).hardeningSharedProcs 0).hspEndpoint = 15 ∧
      ((storingKernel k).hardeningSharedProcs 1).hspEndpoint = 16 := by
    rcases hk with rfl | rfl <;> decide +kernel
  have hchain : Chain (storingKernel k).hardeningSharedProcs
      ((storingKernel k).hardeningSharedRegions 0).rHsp [0, 1] := by
    rw [hentries.1]
    apply Chain.cons
    show Chain _ ((storingKernel k).hardeningSharedProcs 0).nextHsp [1]
    rw [hentries.2.1]
    apply Chain.cons
    show Chain _ ((storingKernel k).hardeningSharedProcs 1).nextHsp []
    rw [hentries.2.2.1]
    exact .nil
  exact ⟨hregion, hchain, hentries.2.2.2⟩

theorem storing_sharer (hk : k = sharingKernel ∨ k = noticedKernel) (hq : q ≠ 15)
    (hshares : SharesPage (storingKernel k) 15 q v) : q = 16 := by
  obtain ⟨hregion, hchain, hfirst, hsecond⟩ := storing_region hk
  have hend : ∀ q, ((storingKernel k).procs q).endpoint = q.val := by
    rcases hk with rfl | rfl <;> decide +kernel
  obtain ⟨h, hh, -, -, s, hs, hname⟩ := hshares
  rw [hregion, List.mem_singleton] at hh
  rw [hh, hchain.follow_eq] at hs
  rw [hend] at hname
  rcases List.mem_cons.mp hs with rfl | hs
  · rw [hfirst] at hname
    exact absurd (Fin.ext hname.symm) hq
  · rw [List.mem_singleton.mp hs, hsecond] at hname
    exact Fin.ext hname.symm

/-! ## A turn of the commit -/

/-- The commit of a block can record the events it has to. -/
def Recordable (k : Kernel) (p : ProcNr) (i : Fin workingSetSize) : Prop :=
  modifiedPage k p i = true → 0 < (k.procs p).nbHardeningSharedRegions →
    (k.workingSet i).flags.wsShared = true → EndsInRegion k p (k.workingSet i).vaddr

theorem commitFrame_clean (hmod : modifiedPage k p i = false) :
    commitFrame p k i = some (k, k.getPte p (k.workingSet i).vaddr) := by
  unfold commitFrame
  simp only
  split
  · rename_i us2 us0 h2 h0 hcond
    simp [modifiedPage, h2, h0, hcond] at hmod
  · rfl

theorem commitFrame_modified (hmod : modifiedPage k p i = true) :
    ∃ k₁ : Kernel, hmeView k₁ = hmeView k ∧ k₁.procs = k.procs ∧
      k₁.hardeningSharedRegions = k.hardeningSharedRegions ∧
      k₁.hardeningSharedProcs = k.hardeningSharedProcs ∧
      k₁.hardeningMemEvents = k.hardeningMemEvents ∧ k₁.freeMem = k.freeMem ∧
      k₁.hStep = k.hStep ∧ (∀ j, j ≠ i → k₁.workingSet j = k.workingSet j) ∧
      commitFrame p k i = (if (k.workingSet i).flags.wsShared then
          enableHmeEventInProcs k₁ p (k.workingSet i).vaddr 4096
        else some k₁).map
          (fun k₂ => (k₂, { k.getPte p (k.workingSet i).vaddr with dirty := false })) := by
  unfold modifiedPage at hmod
  simp only [Bool.and_eq_true] at hmod
  obtain ⟨⟨h2, h0⟩, hcond⟩ := hmod
  obtain ⟨us2, h2⟩ := Option.isSome_iff_exists.mp h2
  obtain ⟨us0, h0⟩ := Option.isSome_iff_exists.mp h0
  refine ⟨(k.cpyFrames us2 us0).setPmb i { k.workingSet i with
    flags := { (k.workingSet i).flags with
      iwsPfSecond := (k.workingSet i).flags.iwsPfSecond ||
        ((k.workingSet i).flags.iwsModKernel && (k.getPte p (k.workingSet i).vaddr).dirty)
      hgetPf := false } }, rfl, rfl, rfl, rfl, rfl, rfl, rfl, fun j hj => ?_, ?_⟩
  · simp [setPmb, cpyFrames, hj]
  · unfold commitFrame
    simp only [h2, h0, hcond]
    generalize (if (k.workingSet i).flags.wsShared then _ else _ : Option Kernel) = o
    cases o <;> rfl

theorem eventsWith_modified {k₁ : Kernel} (hview : hmeView k₁ = hmeView k)
    (hmod : modifiedPage k p i = true) (hshared : (k.workingSet i).flags.wsShared = true) :
    eventsWith k₁ p (k.workingSet i).vaddr = eventsNeeded k p i + totalEvents k := by
  unfold modifiedPage at hmod
  simp only [Bool.and_eq_true] at hmod
  unfold eventsWith eventsNeeded needsEvent
  rw [totalEvents_of_view hview, lookUpHme_of_view hview]
  cases hl : lookUpHme k p (k.workingSet i).vaddr <;>
    simp [hshared, hmod.1.1, hmod.1.2, hmod.2, hl, Nat.add_comm]

theorem OthersKept.of_tables (hprocs : k'.procs = k.procs)
    (hevents : k'.hardeningMemEvents = k.hardeningMemEvents)
    (hregions : k'.hardeningSharedRegions = k.hardeningSharedRegions)
    (hsharers : k'.hardeningSharedProcs = k.hardeningSharedProcs) : OthersKept p k k' where
  procs q _ := by rw [hprocs]
  events q _ _ := by rw [pendingPages, pendingPages, hprocs, hevents]
  regions := hregions
  sharers := hsharers
  own := by rw [hprocs]; exact ⟨rfl, rfl⟩

theorem commitFrame_kept {e : Pte} (h : HmeInv k) (hp : (k.procs p).inUse = true)
    (hroom : eventsNeeded k p i + totalEvents k ≤ hardeningMemEventsSize)
    (hrun : commitFrame p k i = some (k', e)) :
    OthersKept p k k' ∧ k'.freeMem = k.freeMem ∧ k'.hStep = k.hStep ∧ Recordable k p i := by
  cases hmod : modifiedPage k p i with
  | false =>
    rw [commitFrame_clean hmod] at hrun
    obtain ⟨rfl, -⟩ := Prod.mk.inj (Option.some.inj hrun)
    exact ⟨OthersKept.refl p k, rfl, rfl, fun h => by simp [hmod] at h⟩
  | true =>
    obtain ⟨k₁, hview, hprocs, hregions, hsharers, hevents, hfree, hstep, -, heq⟩ :=
      commitFrame_modified hmod
    have hk1 : OthersKept p k k₁ := .of_tables hprocs hevents hregions hsharers
    rw [heq] at hrun
    obtain ⟨k₂, hev, hk2⟩ := Option.map_eq_some_iff.mp hrun
    obtain ⟨rfl, -⟩ := Prod.mk.inj hk2
    split_ifs at hev with hshared
    · have hp1 : (k₁.procs p).inUse = true := by rw [hprocs]; exact hp
      have hroom1 : eventsWith k₁ p (k.workingSet i).vaddr ≤ hardeningMemEventsSize := by
        rw [eventsWith_modified hview hmod hshared]
        exact hroom
      have hkept := OthersKept.enableHmeEventInProcs (h.of_view hview) hp1 hroom1 hev
      have herase := eraseHmes_enableHmeEventInProcs hev
      refine ⟨hk1.trans hkept, (congrArg Kernel.freeMem herase).trans hfree,
        (congrArg Kernel.hStep herase).trans hstep, fun _ hnb _ => ?_⟩
      -- the call returned, so it did not dereference a missing region
      rw [← hk1.endsInRegion_iff]
      have hnb1 : ¬ (k₁.procs p).nbHardeningSharedRegions ≤ 0 := by
        rw [hprocs]
        omega
      unfold HardenedMinix.enableHmeEventInProcs at hev
      rw [if_neg hnb1] at hev
      split at hev
      · simp at hev
      · rename_i r hfound
        exact (lookUpHsrVaddr_isSome_iff.mp (by rw [hfound]; rfl)).2
    · obtain rfl := Option.some.inj hev
      exact ⟨hk1, hfree, hstep, fun _ _ hs => absurd hs hshared⟩

theorem commitFrame_total (h : HmeInv k) (hp : (k.procs p).inUse = true)
    (hroom : eventsNeeded k p i + totalEvents k ≤ hardeningMemEventsSize)
    (hends : SharersEnd k p) (hrec : Recordable k p i) : ∃ s, commitFrame p k i = some s := by
  cases hmod : modifiedPage k p i with
  | false => exact ⟨_, commitFrame_clean hmod⟩
  | true =>
    obtain ⟨k₁, hview, hprocs, hregions, hsharers, hevents, -, -, -, heq⟩ :=
      commitFrame_modified hmod
    have hk1 : OthersKept p k k₁ := .of_tables hprocs hevents hregions hsharers
    rw [heq]
    by_cases hshared : (k.workingSet i).flags.wsShared = true
    · have hp1 : (k₁.procs p).inUse = true := by rw [hprocs]; exact hp
      have hroom1 : eventsWith k₁ p (k.workingSet i).vaddr ≤ hardeningMemEventsSize := by
        rw [eventsWith_modified hview hmod hshared]
        exact hroom
      have hends1 : SharersEnd k₁ p := by
        unfold SharersEnd
        rw [hregions, hsharers, hprocs]
        exact hends
      obtain ⟨k₂, hrun⟩ := enableHmeEventInProcs_total (h.of_view hview) hp1 hroom1 hends1
        (fun hnb => (hk1.endsInRegion_iff _).mpr
          (hrec hmod (by rw [← hk1.own.2]; exact hnb) hshared))
      rw [if_pos hshared, hrun]
      exact ⟨_, rfl⟩
    · rw [if_neg hshared]
      exact ⟨_, rfl⟩

/-! ## The commit of the working set -/

/-- Where the loop of the commit stands: `rest` is still to be visited. -/
structure CommitAt (p : ProcNr) (A : ProcNr → List (Fin workingSetSize)) (k : Kernel)
    (rest : List (Fin workingSetSize)) (k₁ : Kernel) : Prop where
  events : HmeInv k₁
  ws : WsOk k₁ A
  kept : OthersKept p k k₁
  live : (k₁.procs p).inUse = true
  room : (rest.map (eventsNeeded k₁ p)).sum + totalEvents k₁ ≤ hardeningMemEventsSize
  split : ∃ done, A p = done ++ rest ∧ ∀ j ∈ done, Recordable k p j
  blocks : ∀ j, j ∉ A p ∨ j ∈ rest → k₁.workingSet j = k.workingSet j
  ptes : ∀ j ∈ rest, k₁.getPte p (k.workingSet j).vaddr = k.getPte p (k.workingSet j).vaddr
  freeMem : k₁.freeMem = k.freeMem
  step : k₁.hStep = k.hStep

variable {A : ProcNr → List (Fin workingSetSize)} {rest : List (Fin workingSetSize)} {k₁ k₂ : Kernel}

theorem CommitAt.recordable_iff (h : CommitAt p A k (i :: rest) k₁) :
    Recordable k₁ p i ↔ Recordable k p i := by
  have hi : i ∈ i :: rest := List.mem_cons_self
  unfold Recordable modifiedPage
  simp only [h.blocks i (.inr hi), h.ptes i hi, h.kept.own.2, h.kept.endsInRegion_iff]

theorem CommitAt.turn (h : CommitAt p A k (i :: rest) k₁) (hrun : commitPmb p k₁ i = some k₂) :
    CommitAt p A k rest k₂ ∧ k₂.nextPmb i = rest.head? := by
  obtain ⟨done, hA, hdone⟩ := h.split
  have hi : i ∈ A p := by rw [hA]; simp
  have hnd : (done ++ i :: rest).Nodup := hA ▸ h.ws.owned.nodup p
  have hirest : i ∉ rest := (List.nodup_cons.mp (List.nodup_append.mp hnd).2.1).1
  have hroom := h.room
  rw [List.map_cons, List.sum_cons] at hroom
  obtain ⟨hmore, hle, hothers⟩ := commitPmb_events h.ws hi h.events h.live (by omega) hrun
  have hsame := WsSame.commitPmb hrun
  have hws2 := hsame.wsOk h.ws
  have hsum : (rest.map (eventsNeeded k₂ p)).sum ≤ (rest.map (eventsNeeded k₁ p)).sum := by
    refine List.sum_le_sum (fun j hj => hothers j (by rw [hA]; simp [hj]) ?_)
    rintro rfl
    exact hirest hj
  unfold commitPmb at hrun
  split at hrun
  · simp at hrun
  rename_i k3 e hframe
  obtain ⟨hkept, hfree, hstep, hrec⟩ := commitFrame_kept h.events h.live (by omega) hframe
  obtain ⟨-, -, hblocks, hptes⟩ := commitFrame_events h.events h.live (by omega) hframe
  have hvaddr := (WsSame.commitFrame hframe).vaddr i
  have hk2 := Option.some.inj hrun
  have hlast : OthersKept p k3 k₂ := by
    rw [← hk2]
    refine ⟨fun q hq => ?_, fun q hq _ => ?_, rfl, rfl, ?_⟩
    · simp [setPmb, setPte, setProc, hq]
    · simp [pendingPages, setPmb, setPte, setProc, hq]
    · simp [setPmb, setPte, setProc]
  constructor
  · constructor
    case events => exact hmore.inv
    case ws => exact hws2
    case kept => exact (h.kept.trans hkept).trans hlast
    case live =>
      rw [hsame.inUse p]
      exact h.live
    case room => omega
    case split =>
      refine ⟨done ++ [i], by simp [hA], fun j hj => ?_⟩
      rcases List.mem_append.mp hj with hj | hj
      · exact hdone j hj
      · rw [List.mem_singleton.mp hj]
        exact h.recordable_iff.mp hrec
    case blocks =>
      intro j hj
      have hji : j ≠ i := by
        rintro rfl
        exact hj.elim (fun hnot => hnot hi) hirest
      rw [← h.blocks j (hj.imp_right (List.mem_cons_of_mem _)), ← hblocks j hji, ← hk2]
      simp [setPmb, setPte, setProc, hji]
    case ptes =>
      intro j hj
      have hji : j ≠ i := by
        rintro rfl
        exact hirest hj
      have hj' : j ∈ i :: rest := List.mem_cons_of_mem _ hj
      have hpage : pageOf (k.workingSet j).vaddr ≠ pageOf (k₁.workingSet i).vaddr := by
        rw [← h.blocks j (.inr hj')]
        exact fun heq => hji (h.ws.eq_of_page (by rw [hA]; simp [hj]) hi heq)
      rw [← h.ptes j hj', ← hptes, ← hk2]
      simp [getPte, setPmb, setPte, setProc, hvaddr, hpage]
    case freeMem =>
      rw [← hk2]
      exact hfree.trans h.freeMem
    case step =>
      rw [← hk2]
      exact hstep.trans h.step
  · exact hws2.owned.next_eq done hA

theorem CommitAt.total (h : CommitAt p A k (i :: rest) k₁) (hends : SharersEnd k p)
    (hrec : Recordable k p i) : ∃ k₂, commitPmb p k₁ i = some k₂ := by
  have hroom := h.room
  rw [List.map_cons, List.sum_cons] at hroom
  have hends1 : SharersEnd k₁ p := by
    unfold SharersEnd
    rw [h.kept.regions, h.kept.sharers, h.kept.own.1]
    exact hends
  obtain ⟨s, hs⟩ := commitFrame_total h.events h.live (by omega) hends1 (h.recordable_iff.mpr hrec)
  rw [commitPmb, hs]
  exact ⟨_, rfl⟩

theorem vmResetPram_commitAt (hws : WsOk k A) (hm : HmeInv k) (hp : (k.procs p).inUse = true)
    (hs : k.hStep = .secondRun)
    (hroom : commitEvents k p + totalEvents k ≤ hardeningMemEventsSize)
    (hrun : vmResetPram k p .cpyRamPram = some k') : CommitAt p A k [] k' := by
  have hsum : commitEvents k p = ((A p).map (eventsNeeded k p)).sum := by
    rw [commitEvents, (hws.chain hp).follow_eq]
  have hstart : CommitAt p A k (A p) k :=
    ⟨hm, hws, OthersKept.refl p k, hp, by rw [← hsum]; exact hroom, ⟨[], by simp⟩,
      fun _ _ => rfl, fun _ _ => rfl, rfl, rfl⟩
  unfold vmResetPram at hrun
  split_ifs at hrun with hvm hsize
  · have hnil : A p = [] := List.length_eq_zero_iff.mp (by rw [← hws.size p hp]; omega)
    obtain rfl := Option.some.inj hrun
    rwa [hnil] at hstart
  unfold forPmbs at hrun
  rw [(hws.chain hp).start_eq_head?] at hrun
  refine whileNext_inv (P := CommitAt p A k) (fun i rest k₁ k₂ h1 hbody => ?_) hstart hrun
  have hs1 : k₁.hStep = .secondRun := h1.step.trans hs
  simp only [resetTurn, hs1] at hbody
  exact h1.turn hbody

theorem vmResetPram_commit_returns (hws : WsOk k A) (hm : HmeInv k)
    (hp : (k.procs p).inUse = true) (hvm : p ≠ vmProcNr) (hs : k.hStep = .secondRun)
    (hroom : commitEvents k p + totalEvents k ≤ hardeningMemEventsSize) (hends : SharersEnd k p)
    (hrec : ∀ i ∈ A p, Recordable k p i) : ∃ k', vmResetPram k p .cpyRamPram = some k' := by
  have hsum : commitEvents k p = ((A p).map (eventsNeeded k p)).sum := by
    rw [commitEvents, (hws.chain hp).follow_eq]
  have hstart : CommitAt p A k (A p) k :=
    ⟨hm, hws, OthersKept.refl p k, hp, by rw [← hsum]; exact hroom, ⟨[], by simp⟩,
      fun _ _ => rfl, fun _ _ => rfl, rfl, rfl⟩
  unfold vmResetPram
  rw [if_neg hvm]
  split
  · exact ⟨k, rfl⟩
  unfold forPmbs
  rw [(hws.chain hp).start_eq_head?]
  obtain ⟨k', hrun, -⟩ := whileNext_total nextPmb (resetTurn p .cpyRamPram)
    (P := CommitAt p A k) (fun i rest k₁ h1 => by
      have hi : i ∈ A p := by
        obtain ⟨done, hA, -⟩ := h1.split
        rw [hA]
        simp
      have hs1 : k₁.hStep = .secondRun := h1.step.trans hs
      obtain ⟨k₂, hbody⟩ := h1.total hends (hrec i hi)
      obtain ⟨h2, hnext⟩ := h1.turn hbody
      exact ⟨k₂, by simp only [resetTurn, hs1]; exact hbody, h2, hnext⟩)
    hstart (hws.chain hp).length_le
  exact ⟨k', hrun⟩

/-! ## The other processes after the commit -/

theorem CommitAt.peInv {Lq : List (Fin workingSetSize)} (h : CommitAt p A k [] k')
    (hws : WsOk k A) (hq : q ≠ p) (hinv : PeInv k q Lq) : PeInv k' q Lq := by
  have hA : A q = Lq := (hws.chain hinv.inUse).unique hinv.chain
  have hproc := h.kept.procs q hq
  have hpt : ∀ v, k'.getPte q v = k.getPte q v := fun v => by simp only [getPte, hproc]
  have hpd : ∀ v, k'.getPde q v = k.getPde q v := fun v => by simp only [getPde, hproc]
  have hblock : ∀ j ∈ Lq, k'.workingSet j = k.workingSet j := by
    intro j hj
    apply h.blocks j (.inl _)
    exact hws.owned.disjoint hq j (hA ▸ hj)
  constructor
  case lists => exact ⟨A, h.ws, hA⟩
  case inUse =>
    rw [hproc]
    exact hinv.inUse
  case pages =>
    intro j hj
    have hok := hinv.pages j hj
    constructor
    all_goals rw [hblock j hj]
    case us0 => exact hok.us0
    case lastPf => exact hok.lastPf
    case hExec => exact hok.hExec
    case pde => rw [hpd]; exact hok.pde
    case pte => rw [hpt]; exact hok.pte
    case mapped => rw [hpt]; exact hok.mapped
    case distinct => exact hok.distinct
  case disjoint =>
    intro i hi j hj
    rw [hblock i hi, hblock j hj]
    exact hinv.disjoint i hi j hj
  case nonzero =>
    intro i hi
    rw [hblock i hi]
    exact hinv.nonzero i hi
  case fresh =>
    intro i hi
    rw [hblock i hi, h.freeMem]
    exact hinv.fresh i hi
  case free =>
    rw [h.freeMem]
    exact hinv.free
  case outside =>
    intro v hv
    rw [hpt, h.freeMem]
    intro hpres
    have hv' : ∀ i ∈ Lq, pageOf (k.workingSet i).vaddr ≠ pageOf v := by
      intro i hi
      rw [← hblock i hi]
      exact hv i hi
    obtain ⟨hout, hfree⟩ := hinv.outside v hv' hpres
    refine ⟨fun i hi => ?_, hfree⟩
    rw [hblock i hi]
    exact hout i hi

theorem View.ro_event_synced {w : View} (h : (w.event.ro .firstRun).both = true) :
    (w.event.ro .firstRun).c1 = some w.c0 ∧ (w.event.ro .firstRun).c2 = some w.c0 := by
  have hboth : w.both = true := by
    by_contra hnot
    have hev : w.event = w := by simp [View.event, hnot]
    have hup : w.update = w := by simp [View.update, hnot]
    rw [hev] at h
    unfold View.ro at h
    rw [hup] at h
    split at h
    · exact hnot h
    · exact hnot h
  have hev : w.event = { w.synced with flags := { w.flags with iwsModKernel := true } } := by
    simp [View.event, hboth]
  rw [hev]
  unfold View.ro View.protect View.update View.synced
  split
  · split
    · exact ⟨rfl, rfl⟩
    · exact ⟨rfl, rfl⟩
  · exact ⟨rfl, rfl⟩

theorem nextRunSynced_of_event (h : PeInv k q L) (hm : HmeInv k)
    (hev : onPages (pendingPages k q) v = true) : NextRunSynced k q v := by
  intro k' hrun j us1 us2 hj h1 h2
  have hpages : SamePages q k { k with hStep := .firstRun } :=
    ⟨rfl, rfl, rfl, rfl, WsSame.of_procs rfl (fun _ => ⟨rfl, rfl, rfl⟩)⟩
  have hsame : hmeView { k with hStep := .firstRun } = hmeView k := rfl
  rcases setPeMemToRo_first (hpages.peInv h) (hm.of_view hsame) rfl with
    ⟨hnone, -⟩ | ⟨k₁, hrun1, h₁, haround, hview⟩
  · rw [hnone] at hrun
    simp at hrun
  obtain rfl := Option.some.inj (hrun.symm.trans hrun1)
  obtain ⟨A, hws, rfl⟩ := h₁.lists
  obtain ⟨hmem, hpage⟩ := lookUpPte_some hws h₁.inUse hj
  have hv := hview j hmem
  -- the event is on the page of the block
  have hvaddr : (k'.workingSet j).vaddr = (k.workingSet j).vaddr := haround.same.vaddr j
  have hon : onPages (pendingPages k q) (k.workingSet j).vaddr = true := by
    rw [hvaddr] at hpage
    simpa only [onPages, hpage] using hev
  have hview' : view k' q j = ((view k q j).event).ro .firstRun := by
    rw [hv]
    show ((view k q j).eventIf (onPages (pendingPages k q) (k.workingSet j).vaddr)).ro _ = _
    rw [hon]
    rfl
  have hboth : (((view k q j).event).ro .firstRun).both = true := by
    rw [← hview']
    simp [View.both, view, viewOf, h1, h2]
  obtain ⟨hc1, hc2⟩ := View.ro_event_synced hboth
  rw [← hview'] at hc1 hc2
  simp only [view, viewOf, h1, h2, Option.map_some, Option.some.injEq] at hc1 hc2
  exact ⟨hc1, hc2⟩

/-! ## When a commit reaches the other processes -/

/-- The second run of `p` is about to be committed: lists are in order, the other sharers are
hardened, and there is room for the events. -/
structure Committing (k : Kernel) (p : ProcNr) (L : List (Fin workingSetSize)) : Prop where
  inv : PeInv k p L
  user : p ≠ vmProcNr
  step : k.hStep = .secondRun
  events : HmeInv k
  room : commitEvents k p + totalEvents k ≤ hardeningMemEventsSize
  sharersEnd : SharersEnd k p
  sharers : ∀ q v, q ≠ p → SharesPage k p q v → ∃ Lq, PeInv k q Lq

theorem CommitReaches.quiet {place : ProcNr → Fin workingSetSize → VirBytes}
    (hreach : CommitReaches k p L place) (h : Committing k p L) : CommitQuiet k p L place := by
  obtain ⟨A, hws, rfl⟩ := h.inv.lists
  obtain ⟨k', hrun, hall⟩ := hreach
  intro i hi hmod
  have hat := vmResetPram_commitAt hws h.events h.inv.inUse h.step h.room hrun
  obtain ⟨done, hA, hrec⟩ := hat.split
  rw [List.append_nil] at hA
  refine ⟨hrec i (hA ▸ hi) hmod, fun hin => ?_⟩
  obtain ⟨hfound, hevents⟩ := hall i hi hmod hin
  refine ⟨(lookUpHsrVaddr_isSome_iff.mp hfound).2, fun q hq hshares => ?_⟩
  obtain ⟨Lq, hinv⟩ := h.sharers q _ hq hshares
  rw [← hat.kept.events q hq hinv.inUse]
  exact (hevents q hq hshares).1

theorem CommitQuiet.reaches {place : ProcNr → Fin workingSetSize → VirBytes}
    (hquiet : CommitQuiet k p L place) (h : Committing k p L) : CommitReaches k p L place := by
  obtain ⟨A, hws, rfl⟩ := h.inv.lists
  obtain ⟨k', hrun⟩ := vmResetPram_commit_returns hws h.events h.inv.inUse h.user h.step h.room
    h.sharersEnd (fun i hi hmod => (hquiet i hi hmod).1)
  have hat := vmResetPram_commitAt hws h.events h.inv.inUse h.step h.room hrun
  refine ⟨k', hrun, fun i hi hmod hin => ?_⟩
  obtain ⟨hends, hevents⟩ := (hquiet i hi hmod).2 hin
  have hnb := nb_pos_of_lookUpPageInHsr hin
  refine ⟨lookUpHsrVaddr_isSome_iff.mpr ⟨hnb, hends⟩, fun q hq hshares => ?_⟩
  obtain ⟨Lq, hinv⟩ := h.sharers q _ hq hshares
  have hev : onPages (pendingPages k' q) (place q i) = true := by
    rw [hat.kept.events q hq hinv.inUse]
    exact hevents q hq hshares
  exact ⟨hev, nextRunSynced_of_event (hat.peInv hws hq hinv) hat.events hev⟩

/-- A commit reaches the others exactly if they had the events before, and the pages
`look_up_page_in_hsr` takes for shared end in a region. -/
theorem commitReaches_iff_quiet (h : Committing k p L)
    (place : ProcNr → Fin workingSetSize → VirBytes) :
    (CommitReaches k p L place ↔ CommitQuiet k p L place) ∧ ∀ v, lookUpPageInHsr k p v = true →
        ((lookUpHsrVaddr k p v 4096).isSome = true ↔ EndsInRegion k p v) := by
  refine ⟨⟨fun hreach => hreach.quiet h, fun hquiet => hquiet.reaches h⟩, fun v hin => ?_⟩
  rw [lookUpHsrVaddr_isSome_iff]
  have hnb : 0 < (k.procs p).nbHardeningSharedRegions := nb_pos_of_lookUpPageInHsr hin
  exact ⟨fun hfound => hfound.2, fun hends => ⟨hnb, hends⟩⟩

/-! ## A store to the shared page -/

theorem peInv_single (hws : WsInv k) (hlive : (k.procs p).inUse = true)
    (hlist : follow k.workingSet workingSetSize (k.procs p).lus1Us2 = [i]) (hok : PageOk k p i)
    (hzero : 0 ∉ framesOf (k.workingSet i)) (hfree : k.freeMem = [])
    (habsent : ∀ v, pageOf v ≠ pageOf (k.workingSet i).vaddr → (k.getPte p v).present = false) :
    PeInv k p [i] := by
  obtain ⟨A, hws⟩ := hws
  constructor
  case lists =>
    refine ⟨A, hws, ?_⟩
    rw [← hlist, (hws.chain hlive).follow_eq]
  case inUse => exact hlive
  case pages =>
    intro j hj
    rw [List.mem_singleton.mp hj]
    exact hok
  case disjoint =>
    intro j hj j' hj' hne
    exact absurd ((List.mem_singleton.mp hj).trans (List.mem_singleton.mp hj').symm) hne
  case nonzero =>
    intro j hj
    rw [List.mem_singleton.mp hj]
    exact hzero
  case fresh => simp [hfree]
  case free => simp [hfree]
  case outside =>
    intro v hv hpres
    have hpage := (hv i List.mem_cons_self).symm
    rw [habsent v hpage] at hpres
    simp at hpres

theorem storing_committing (hk : k = sharingKernel ∨ k = noticedKernel) :
    Committing (storingKernel k) 15 [0] := by
  have hreach : Reachable LifeGood (storingKernel k) := by
    rcases hk with rfl | rfl
    · exact storingKernel_reachable sharingKernel_reachable (by decide +kernel) (by decide +kernel)
    · exact storingKernel_reachable noticedKernel_reachable (by decide +kernel) (by decide +kernel)
  obtain ⟨hws, hm⟩ := reachable_lists hreach
  have hpt : ∃ a b, ((storingKernel k).procs 15).pt.pte = update (update onePage.pte 1 a) 1 b := by
    rcases hk with rfl | rfl <;> exact ⟨_, _, rfl⟩
  have hpt' : ((storingKernel k).procs 16).pt.pte = onePage.pte := by
    rcases hk with rfl | rfl <;> rfl
  have hvaddr : ((storingKernel k).workingSet 0).vaddr = 4096 ∧
      ((storingKernel k).workingSet 1).vaddr = 4096 := by
    rcases hk with rfl | rfl <;> decide +kernel
  constructor
  case inv =>
    apply peInv_single hws
    · rcases hk with rfl | rfl <;> decide +kernel
    · rcases hk with rfl | rfl <;> decide +kernel
    · constructor <;> rcases hk with rfl | rfl <;> first | exact ⟨5, rfl⟩ | decide +kernel
    · rcases hk with rfl | rfl <;> decide +kernel
    · rcases hk with rfl | rfl <;> rfl
    intro v hv
    rw [hvaddr.1] at hv
    obtain ⟨a, b, hab⟩ := hpt
    have hne : pageOf v ≠ 1 := hv
    rw [getPte, hab, update_of_ne hne, update_of_ne hne]
    exact onePage_absent hne
  case user => decide
  case step => rcases hk with rfl | rfl <;> rfl
  case events => exact hm
  case room => rcases hk with rfl | rfl <;> decide +kernel
  case sharersEnd =>
    intro h hh
    obtain ⟨hregion, hchain, -⟩ := storing_region hk
    rw [hregion, List.mem_singleton] at hh
    rw [hh]
    exact ⟨[0, 1], hchain⟩
  case sharers =>
    intro q v hq hshares
    obtain rfl := storing_sharer hk hq hshares
    refine ⟨[1], ?_⟩
    apply peInv_single hws
    · rcases hk with rfl | rfl <;> decide +kernel
    · rcases hk with rfl | rfl <;> decide +kernel
    · constructor <;> rcases hk with rfl | rfl <;> first | exact ⟨5, rfl⟩ | decide +kernel
    · rcases hk with rfl | rfl <;> decide +kernel
    · rcases hk with rfl | rfl <;> rfl
    · intro v hv
      rw [hvaddr.2] at hv
      rw [getPte, hpt']
      exact onePage_absent hv

/-- Process 16 has an event for the page, so the store of process 15 reaches it. -/
theorem commitReaches_noticed : Committing (storingKernel noticedKernel) 15 [0] ∧
      CommitReaches (storingKernel noticedKernel) 15 [0] (fun _ _ => 4096) := by
  have h := storing_committing (.inr rfl)
  refine ⟨h, (commitReaches_iff_quiet h _).1.mpr ?_⟩
  have hends : EndsInRegion (storingKernel noticedKernel) 15 4096 :=
    (lookUpHsrVaddr_isSome_iff.mp (by decide +kernel)).2
  have hvaddr : ((storingKernel noticedKernel).workingSet 0).vaddr = 4096 := by decide +kernel
  intro i hi _
  rw [List.mem_singleton.mp hi, hvaddr]
  refine ⟨fun _ _ => hends, fun _ => ⟨hends, fun q hq hshares => ?_⟩⟩
  obtain rfl := storing_sharer (.inr rfl) hq hshares
  decide +kernel

/-- Process 16 gets no event for the page process 15 stored to; and the page behind the region is
taken for shared. -/
theorem commit_records_event_on_itself :
    (¬ ∀ k p L place, Committing k p L → CommitReaches k p L place) ∧
      ¬ ∀ k p L v, Committing k p L → lookUpPageInHsr k p v = true →
        (lookUpHsrVaddr k p v 4096).isSome = true := by
  have h := storing_committing (.inl rfl)
  constructor
  · intro hall
    have hquiet := (hall _ _ _ (fun _ _ => 4096) h).quiet h 0 List.mem_cons_self
      (by decide +kernel)
    have hshares : SharesPage (storingKernel sharingKernel) 15 16
        ((storingKernel sharingKernel).workingSet 0).vaddr :=
      ⟨0, by decide +kernel, by decide +kernel, by decide +kernel, 1, by decide +kernel,
        by decide +kernel⟩
    have hevent := (hquiet.2 (by decide +kernel)).2 16 (by decide) hshares
    exact absurd hevent (by decide +kernel)
  · intro hall
    have hfound := hall _ _ _ 12288 h (by decide +kernel)
    exact absurd hfound (by decide +kernel)

end HardenedMinix
