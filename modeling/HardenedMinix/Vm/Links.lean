import HardenedMinix.Vm.OwnershipOps

/-!
# What does not touch the regions

Pages, blocks, page tables, frames and yielded blocks come and go while the regions of the processes
stay as they are, with their ids and their counts.
-/

open Option

namespace HardenedMinix.Region

/-- What a `getsrc` looks at, and who is hardened. -/
def VmProc.link (x : VmProc) : Bool × Option Endpoint × List VirRegion × Bool :=
  (x.inuse, x.endpoint, x.regions, x.toHard)

/-- The regions are the same, and so are the processes that have them. -/
structure SameLinks (s s' : State) : Prop where
  proc : ∀ p, (s'.vmproc p).link = (s.vmproc p).link
  nextId : s'.nextId = s.nextId
  hardeningEnabled : s'.hardeningEnabled = s.hardeningEnabled

section Same

variable {s s₁ s' : State} {p : ProcNr}

theorem SameLinks.refl (s : State) : SameLinks s s := ⟨fun _ => rfl, rfl, rfl⟩

theorem SameLinks.trans (h : SameLinks s s₁) (h' : SameLinks s₁ s') : SameLinks s s' :=
  ⟨fun p => (h'.proc p).trans (h.proc p), h'.nextId.trans h.nextId,
    h'.hardeningEnabled.trans h.hardeningEnabled⟩

theorem SameLinks.inuse (h : SameLinks s s') (p : ProcNr) : (s'.vmproc p).inuse = (s.vmproc p).inuse :=
  congrArg (·.1) (h.proc p)

theorem SameLinks.endpoint (h : SameLinks s s') (p : ProcNr) : (s'.vmproc p).endpoint = (s.vmproc p).endpoint :=
  congrArg (·.2.1) (h.proc p)

theorem SameLinks.toHard (h : SameLinks s s') (p : ProcNr) : (s'.vmproc p).toHard = (s.vmproc p).toHard :=
  congrArg (·.2.2.2) (h.proc p)

theorem SameRest.sameLinks (h : SameRest s s') : SameLinks s s' :=
  ⟨fun p => by rw [h.vmproc p]; rfl, h.nextId, h.hardeningEnabled⟩

theorem SameLinks.of_vmproc (h : s'.vmproc = s.vmproc) (hid : s'.nextId = s.nextId)
    (hon : s'.hardeningEnabled = s.hardeningEnabled) : SameLinks s s' :=
  ⟨fun p => by rw [h], hid, hon⟩

theorem SameLinks.after (h : SameLinks s₁ s') (hv : s₁.vmproc = s.vmproc) (hid : s₁.nextId = s.nextId)
    (hon : s₁.hardeningEnabled = s.hardeningEnabled) : SameLinks s s' :=
  (SameLinks.of_vmproc hv hid hon).trans h

theorem sameLinks_setVmproc {x : VmProc} (hx : x.link = (s.vmproc p).link) : SameLinks s (s.setVmproc p x) := by
  refine ⟨fun q => ?_, rfl, rfl⟩
  by_cases hq : q = p
  · subst hq
    exact (congrArg VmProc.link (Function.update_self ..)).trans hx
  · exact congrArg VmProc.link (Function.update_of_ne hq ..)

end Same

/-! ## Allocation and blocks -/

section Blocks

variable {s s' : State} {p q parent : ProcNr} {x : Slot} {b : PbPtr} {r src : VirRegion} {offset n : Nat}

theorem slabAlloc_links {o : Option Nat} (h : slabAlloc s = some (o, s')) : SameLinks s s' := by
  unfold slabAlloc at h
  split at h <;> cases h <;> exact .of_vmproc rfl rfl rfl

theorem alignMem_links (s : State) (f : Frame) (align : Bool) : SameLinks s (alignMem s f align).2 := by
  unfold alignMem
  split <;> exact .of_vmproc rfl rfl rfl

theorem allocMem_links {pages : Nat} {clear align : Bool} {o : Option Frame}
    (h : allocMem s pages clear align = some (o, s')) : SameLinks s s' := by
  unfold allocMem at h
  dsimp only at h
  split at h
  · obtain ⟨s₁, h1, heq⟩ := map_eq_some_iff.mp h
    cases heq
    exact (allocPages_rest h1).of_tape.sameLinks.trans (alignMem_links ..)
  · split at h
    · cases h
    · next s2 h2 =>
      obtain ⟨s₁, h1, heq⟩ := map_eq_some_iff.mp h
      cases heq
      exact ((freeYielded_rest h2).trans (allocPages_rest h1)).of_tape.sameLinks.trans (alignMem_links ..)
  · obtain ⟨s2, h2, heq⟩ := map_eq_some_iff.mp h
    cases heq
    exact (freeYielded_rest h2).of_tape.sameLinks
  · cases h

theorem pbLink_links (h : pbLink s x b offset = some s') : SameLinks s s' := by
  unfold pbLink at h
  split at h
  · cases h
  · cases h
    exact .of_vmproc rfl rfl rfl

theorem pbReference_links {w : Bool} (h : pbReference s x b offset = some (w, s')) : SameLinks s s' := by
  unfold pbReference at h
  split at h
  · cases h
  · next h1 =>
    cases h
    exact slabAlloc_links h1
  next h1 =>
  split at h
  · obtain ⟨s2, h2, heq⟩ := map_eq_some_iff.mp h
    cases heq
    exact (slabAlloc_links h1).trans (pbLink_links h2)
  · cases h

theorem freeRegionPmbs_links (s : State) (p : ProcNr) (v : Page) : SameLinks s (freeRegionPmbs s p v) := by
  unfold freeRegionPmbs
  split
  · exact (sameLinks_setVmproc (p := p) (by rfl)).after rfl rfl rfl
  · exact .refl _

theorem evUnreference_links (s : State) (mt : MemType) (phys : Option Frame) : SameLinks s (evUnreference s mt phys) := by
  unfold evUnreference
  split <;> exact .of_vmproc rfl rfl rfl

theorem pbUnlink_links {mt : MemType} (h : pbUnlink s parent mt x = some s') : SameLinks s s' := by
  obtain ⟨pr, pb, -, -, -, ⟨-, -, rfl⟩ | ⟨-, rfl⟩⟩ := pbUnlink_cases h
  · exact (evUnreference_links s mt pb.phys).trans ((freeRegionPmbs_links ..).after rfl rfl rfl)
  · exact (freeRegionPmbs_links ..).after rfl rfl rfl

theorem pbUnreferenced_links {mt : MemType} (h : pbUnreferenced s parent mt x = some s') : SameLinks s s' := by
  obtain ⟨s₁, h1, rfl⟩ := map_eq_some_iff.mp h
  exact (pbUnlink_links h1).trans (.of_vmproc rfl rfl rfl)

theorem mapSubfree_links (h : mapSubfree s parent p r offset n = some s') : SameLinks s s' := by
  induction n generalizing s offset with
  | zero =>
    cases h
    exact .refl _
  | succ n ih =>
    unfold mapSubfree at h
    split at h
    · cases h
    · exact ih h
    · split at h
      · cases h
      · next s₁ h1 => exact (pbUnreferenced_links h1).trans (ih h)

theorem copyPages_links {w : Bool} (h : copyPages s q p r offset n = some (w, s')) : SameLinks s s' := by
  induction n generalizing s offset with
  | zero =>
    cases h
    exact .refl _
  | succ n ih =>
    unfold copyPages at h
    split at h
    · cases h
    · exact ih h
    split at h
    · cases h
    · next s₁ h1 =>
      cases h
      exact pbReference_links h1
    · next s₁ h1 => exact (pbReference_links h1).trans (ih h)

end Blocks

/-! ## Page tables -/

section Tables

variable {s s' : State} {p : ProcNr} {v : Page} {r : VirRegion} {pr : PhysRegion} {offset n : Nat} {e : Status}

theorem ptPtalloc_links (h : ptPtalloc s p v = some (e, s')) : SameLinks s s' := by
  unfold ptPtalloc at h
  split at h
  · cases h
    exact .refl _
  split at h
  · cases h
  · next h1 =>
    cases h
    exact allocMem_links h1
  · next h1 =>
    cases h
    exact (allocMem_links h1).trans (.of_vmproc rfl rfl rfl)

theorem mapPhWritept_links (h : mapPhWritept s p r v pr = some (e, s')) : SameLinks s s' := by
  unfold mapPhWritept at h
  split at h
  · cases h
  split at h
  · split at h
    · cases h
    · next h1 =>
      cases h
      exact (ptPtalloc_links h1).trans (.of_vmproc rfl rfl rfl)
    · next h1 =>
      cases h
      exact ptPtalloc_links h1
  · cases h

theorem writeptPages_links (h : writeptPages s p r offset n = some (e, s')) : SameLinks s s' := by
  induction n generalizing s offset with
  | zero =>
    cases h
    exact .refl _
  | succ n ih =>
    unfold writeptPages at h
    split at h
    · cases h
    · exact ih h
    split at h
    · cases h
    · next s₁ h1 => exact (mapPhWritept_links h1).trans (ih h)
    · next s₁ h1 =>
      cases h
      exact mapPhWritept_links h1

theorem mapWritept_links {l : List VirRegion} (h : mapWritept s p l = some (e, s')) : SameLinks s s' := by
  induction l generalizing s with
  | nil =>
    cases h
    exact .refl _
  | cons r l ih =>
    unfold mapWritept at h
    split at h
    · cases h
    · next s₁ h1 => exact (writeptPages_links h1).trans (ih h)
    · next s₁ h1 =>
      cases h
      exact writeptPages_links h1

theorem ptNew_links (h : ptNew s p = some (e, s')) : SameLinks s s' := by
  unfold ptNew at h
  split at h
  · cases h
    exact .of_vmproc rfl rfl rfl
  split at h
  · cases h
  · next h1 =>
    cases h
    exact allocMem_links h1
  · next h1 =>
    cases h
    exact (allocMem_links h1).trans (.of_vmproc rfl rfl rfl)

theorem ptFree_links (s : State) (p : ProcNr) : SameLinks s (ptFree s p) := .of_vmproc rfl rfl rfl

end Tables

/-! ## Yielded blocks -/

section Yielded

variable {s s' : State} {p : ProcNr}

theorem freeYieldedTree_links {l : List YieldedPtr} (h : freeYieldedTree s p l = some s') : SameLinks s s' := by
  induction l generalizing s with
  | nil =>
    cases h
    exact .refl _
  | cons n l ih =>
    unfold freeYieldedTree at h
    split at h
    · cases h
    split at h
    · split at h
      · cases h
      · next s₁ h1 => exact (freeyieldednode_rest h1).sameLinks.trans (ih h)
    · exact ih h

theorem freeYieldedTrees_links {i k : Nat} (h : freeYieldedTrees s p i k = some s') : SameLinks s s' := by
  induction k generalizing s i with
  | zero =>
    cases h
    exact .refl _
  | succ k ih =>
    unfold freeYieldedTrees at h
    split at h
    · cases h
      exact .refl _
    · split at h
      · cases h
      · next s₁ h1 => exact (freeYieldedTree_links h1).trans (ih h)

theorem freeYieldedProc_links (h : freeYieldedProc s p = some s') : SameLinks s s' := freeYieldedTrees_links h

end Yielded

section Faults

variable {s s' : State} {p : ProcNr} {v : Page} {r : VirRegion} {pr : PhysRegion} {offset n : Nat} {write : Bool}
  {e : Status}

end Faults

/-! ## Who is there -/

/-- The processes are in use as before, with their endpoints and hardened or not. -/
structure SameParties (s s' : State) : Prop where
  inuse : ∀ p, (s'.vmproc p).inuse = (s.vmproc p).inuse
  endpoint : ∀ p, (s'.vmproc p).endpoint = (s.vmproc p).endpoint
  toHard : ∀ p, (s'.vmproc p).toHard = (s.vmproc p).toHard
  hardeningEnabled : s'.hardeningEnabled = s.hardeningEnabled

section Parties

variable {s s₁ s' : State} {p q parent : ProcNr} {r newr src : VirRegion} {ep : Endpoint}

theorem SameParties.refl (s : State) : SameParties s s := ⟨fun _ => rfl, fun _ => rfl, fun _ => rfl, rfl⟩

theorem SameParties.trans (h : SameParties s s₁) (h' : SameParties s₁ s') : SameParties s s' :=
  ⟨fun p => (h'.inuse p).trans (h.inuse p), fun p => (h'.endpoint p).trans (h.endpoint p),
    fun p => (h'.toHard p).trans (h.toHard p), h'.hardeningEnabled.trans h.hardeningEnabled⟩

theorem SameLinks.parties (h : SameLinks s s') : SameParties s s' :=
  ⟨h.inuse, h.endpoint, h.toHard, h.hardeningEnabled⟩

theorem setRegions_parties (s : State) (p : ProcNr) (l : List VirRegion) : SameParties s (setRegions s p l) := by
  have hproc (q : ProcNr) : (setRegions s p l).vmproc q = { s.vmproc q with
      regions := ((setRegions s p l).vmproc q).regions } := by
    by_cases hq : q = p
    · subst hq
      rw [setRegions_self]
      exact Function.update_self ..
    · rw [setRegions_of_ne s hq]
  exact ⟨fun q => by rw [hproc], fun q => by rw [hproc], fun q => by rw [hproc], rfl⟩

theorem regionInsert_parties (s : State) (p : ProcNr) (r : VirRegion) : SameParties s (regionInsert s p r) := by
  unfold regionInsert
  split
  · exact .refl s
  · exact setRegions_parties ..

theorem sharedDelete_parties (h : sharedDelete s r = some s') : SameParties s s' := by
  unfold sharedDelete at h
  split at h
  · cases h
    exact .refl _
  · split at h
    · cases h
    · cases h
      exact setRegions_parties ..

theorem sharedSetsource_parties (h : sharedSetsource s r ep src = some (newr, s')) : SameParties s s' := by
  unfold sharedSetsource at h
  dsimp only at h
  split at h
  · cases h
    exact .refl _
  · split at h
    · cases h
    · cases h
      exact setRegions_parties ..

theorem mapFree_parties (h : mapFree s parent p r = some s') : SameParties s s' := by
  unfold mapFree at h
  split at h
  · cases h
  next s₁ h1 =>
  refine (mapSubfree_links h1).parties.trans ?_
  split at h
  · exact sharedDelete_parties h
  · cases h
    exact .refl _

theorem regionNew_parties {o : Option VirRegion} (h : regionNew s r = some (o, s')) : SameParties s s' := by
  unfold regionNew at h
  split at h
  · cases h
  · next h1 =>
    cases h
    exact (slabAlloc_links h1).parties
  next s₁ h1 =>
  refine (slabAlloc_links h1).parties.trans ?_
  dsimp only at h
  split at h
  · cases h
  · next h2 =>
    cases h
    have hsame := (slabAlloc_links h2).parties
    exact ⟨hsame.inuse, hsame.endpoint, hsame.toHard, hsame.hardeningEnabled⟩
  · next h2 =>
    cases h
    have hsame := (slabAlloc_links h2).parties
    exact ⟨hsame.inuse, hsame.endpoint, hsame.toHard, hsame.hardeningEnabled⟩

theorem evCopy_parties {newr' : VirRegion} (h : evCopy s r newr = some (newr', s')) : SameParties s s' := by
  unfold evCopy at h
  split at h
  · split at h
    · exact sharedSetsource_parties h
    · cases h
  · cases h
    exact .refl _
  · cases h
    exact .refl _

theorem mapCopyRegion_parties {o : Option VirRegion} (h : mapCopyRegion s q p r = some (o, s')) : SameParties s s' := by
  unfold mapCopyRegion at h
  split at h
  · cases h
  · next h1 =>
    cases h
    exact regionNew_parties h1
  next h1 =>
  refine (regionNew_parties h1).trans ?_
  split at h
  · cases h
  next h2 =>
  refine (evCopy_parties h2).trans ?_
  split at h
  · cases h
  · next h3 =>
    cases h
    exact (copyPages_links h3).parties
  · next h3 =>
    obtain ⟨s4, h4, heq⟩ := map_eq_some_iff.mp h
    cases heq
    exact (copyPages_links h3).parties.trans (mapFree_parties h4)

theorem copyRegions_parties {l : List VirRegion} {w : Bool} (h : copyRegions s q p l = some (w, s')) :
    SameParties s s' := by
  induction l generalizing s with
  | nil =>
    cases h
    exact .refl _
  | cons r l ih =>
    unfold copyRegions at h
    split at h
    · cases h
    · next h1 =>
      cases h
      exact mapCopyRegion_parties h1
    · next h1 => exact (mapCopyRegion_parties h1).trans ((regionInsert_parties ..).trans (ih h))

theorem mapFreeRegions_parties {l : List VirRegion} (h : mapFreeRegions s p l = some s') : SameParties s s' := by
  induction l generalizing s with
  | nil =>
    cases h
    exact .refl _
  | cons r l ih =>
    unfold mapFreeRegions at h
    split at h
    · cases h
    · next h1 => exact (setRegions_parties ..).trans ((mapFree_parties h1).trans (ih h))

theorem mapFreeProc_parties (h : mapFreeProc s p = some s') : SameParties s s' := by
  unfold mapFreeProc at h
  split at h
  · cases h
  · next h1 =>
    exact (mapFreeRegions_parties h1).trans ((setRegions_parties ..).trans (freeYieldedProc_links h).parties)

theorem mapProcCopy_parties {e : Status} (h : mapProcCopy s p q = some (e, s')) : SameParties s s' := by
  unfold mapProcCopy at h
  split at h
  · cases h
  split at h
  · cases h
  · next h1 =>
    obtain ⟨s2, h2, heq⟩ := map_eq_some_iff.mp h
    cases heq
    exact (copyRegions_parties h1).trans (mapFreeProc_parties h2)
  next h1 =>
  refine (copyRegions_parties h1).trans ?_
  split at h
  · cases h
  next h2 =>
  refine (mapWritept_links h2).parties.trans ?_
  split at h
  · cases h
  · next h3 =>
    cases h
    exact (mapWritept_links h3).parties

end Parties

end HardenedMinix.Region
