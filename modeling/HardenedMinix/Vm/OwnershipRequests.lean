import HardenedMinix.Vm.OwnershipOps

/-!
# Each request of VM keeps the owners of frames

A request that takes none of the paths that lose a frame or a reference ends between requests
again.
-/

open List Option

namespace HardenedMinix.Region

open Lib VirRegion State

variable {g g' : Ghost} {s s' s₁ s₂ : State} {p q parent : ProcNr} {x y : Slot} {b c : PbPtr}
  {f : Frame} {pb : PhysBlock} {pr : PhysRegion} {r r' src : VirRegion} {v : Page} {e : Status}
  {offset n : Nat} {write : Bool} {M : Frame → Prop} {kind kind' : Slot → Option MemType}
  {child : Option ProcNr} {mt : MemType}

/-! ## Between requests -/

theorem Arranged.kindAt_eq_some (h : Arranged s p) : kindAt s (p, v) = some mt ↔
      ∃ r ∈ (s.vmproc p).regions, r.Contains v ∧ r.memtype = mt := by
  constructor
  · intro hk
    obtain ⟨r, hr, hmt⟩ := map_eq_some_iff.mp hk
    obtain ⟨hmem, hv⟩ := mapLookup_eq_some hr
    exact ⟨r, hmem, hv, hmt⟩
  · rintro ⟨r, hr, hv, hmt⟩
    rw [h.kindAt_eq hr hv, hmt]

namespace Sound

theorem exists_region (hs : Sound M s) (hx : (s.physblocks (p, v)).isSome) :
    ∃ r ∈ (s.vmproc p).regions, r.Contains v := by
  obtain ⟨pr, hpr⟩ := isSome_iff_exists.mp hx
  have hkind : (kindAt s (p, v)).isSome := by
    apply hs.kept.kinds (b := pr.ph)
    rw [target_idle, hpr]
    rfl
  obtain ⟨mt, hmt⟩ := isSome_iff_exists.mp hkind
  obtain ⟨r, hr, hv, _⟩ := (hs.arranged p).kindAt_eq_some.mp hmt
  exact ⟨r, hr, hv⟩

theorem empty_of_rangeFree (hs : Sound M s) (hfree : RangeFree s p r.vaddr r.length)
    (hv : r.Contains v) : s.physblocks (p, v) = none := by
  by_contra hne
  obtain ⟨r', hr', hv'⟩ := hs.exists_region (isSome_iff_ne_none.mpr hne)
  have := hfree r' hr'
  unfold VirRegion.Contains at hv hv'
  lia

theorem empty_of_dead (hs : Sound M s) (hp : ¬ Live s p) : s.physblocks (p, v) = none := by
  by_contra hne
  obtain ⟨r, hr, _⟩ := hs.exists_region (isSome_iff_ne_none.mpr hne)
  rw [hs.dead p hp] at hr
  cases hr

theorem ptPages_of_dead (hs : Sound M s) (hp : ¬ Live s p) (pde : Fin 1024) :
    s.ptPages (p, pde) = none := by
  by_contra hne
  rcases hs.kept.tables hne with hlive | hchild
  · exact hp hlive
  · cases hchild

theorem steady (hs : Sound M s) (h : Steady s (.idle M (kindAt s) none) s') : Sound M s' where
  kept := h.shapes.kindAt ▸ h.kept
  arranged p := (hs.arranged p).congr (h.shapes p)
  dead p hp := by
    have hmap := h.shapes p
    rw [hs.dead p fun hlive => hp (h.evicted.live.mpr hlive)] at hmap
    exact map_eq_nil_iff.mp hmap

end Sound

/-- What a request leaves behind that starts and ends no process. -/
structure Settles (M : Frame → Prop) (s s' : State) : Prop where
  sound : Sound M s'
  evicted : Evicted s s'
  bytes : ∀ {n f}, s'.cache.Frames n f → s'.mem f = s.mem f

theorem Sound.settles (hs : Sound M s) (h : Steady s (.idle M (kindAt s) none) s') :
    Settles M s s' :=
  ⟨hs.steady h, h.evicted, h.bytes⟩

theorem Settles.trans (h : Settles M s s₁) (h' : Settles M s₁ s') : Settles M s s' :=
  ⟨h'.sound, h.evicted.trans h'.evicted,
    fun hf => (h'.bytes hf).trans (h.bytes (h'.evicted.frames hf))⟩

/-! ## A new region -/

/-- The memory types once a region is inserted. -/
def extendKind (kind : Slot → Option MemType) (p : ProcNr) (r : VirRegion) (x : Slot) :
    Option MemType :=
  if x.1 = p ∧ r.Contains x.2 then some r.memtype else kind x

theorem extendKind_self (hv : r.Contains v) : extendKind kind p r (p, v) = some r.memtype :=
  if_pos ⟨rfl, hv⟩

theorem extendKind_congr (h : r'.shape = r.shape) : extendKind kind p r' = extendKind kind p r := by
  obtain ⟨hv, hl, hm⟩ := by simpa only [shape, Prod.mk.injEq] using h
  have hcontains : ∀ v, r'.Contains v ↔ r.Contains v := fun v => by
    unfold VirRegion.Contains
    rw [hv, hl]
  funext x
  simp only [extendKind, hcontains, hm]

theorem RangeFree.vaddr_ne (hfree : RangeFree s p r.vaddr r.length) (hs : Arranged s p)
    (hpos : 0 < r.length) : ¬ ∃ r' ∈ (s.vmproc p).regions, r'.vaddr = r.vaddr := by
  rintro ⟨r', hr', hv⟩
  have hpos' := (hs.bounds r' hr').1
  have := hfree r' hr'
  lia

theorem RangeFree.congr (hfree : RangeFree s p v n)
    (hs : (s'.vmproc p).regions.map shape = (s.vmproc p).regions.map shape) :
    RangeFree s' p v n := by
  intro r hr
  have hmem : r.shape ∈ (s.vmproc p).regions.map shape := hs ▸ List.mem_map_of_mem hr
  obtain ⟨r', hr', heq⟩ := List.mem_map.mp hmem
  have hapart := hfree r' hr'
  simp only [shape, Prod.mk.injEq] at heq
  rwa [← heq.1, ← heq.2.1]

theorem regionInsert_regions (hnew : ¬ ∃ r' ∈ (s.vmproc p).regions, r'.vaddr = r.vaddr) :
    regionInsert s p r = setRegions s p
      ((s.vmproc p).regions.orderedInsert (fun a b => a.vaddr ≤ b.vaddr) r) :=
  if_neg hnew

theorem Arranged.insert (h : Arranged s p) (hfree : RangeFree s p r.vaddr r.length)
    (hpos : 0 < r.length) (htop : r.vaddr + r.length ≤ vmDatatop) :
    Arranged (regionInsert s p r) p := by
  rw [regionInsert_regions (hfree.vaddr_ne h hpos)]
  have hperm := perm_orderedInsert (fun a b : VirRegion => a.vaddr ≤ b.vaddr) r
    (s.vmproc p).regions
  constructor
  · rw [setRegions_self, (hperm.map _).pairwise_iff fun h => h.symm, map_cons, pairwise_cons]
    refine ⟨fun w hw => ?_, h.apart⟩
    obtain ⟨r', hr', rfl⟩ := List.mem_map.mp hw
    exact (hfree r' hr').symm
  intro r' hr'
  rw [setRegions_self, hperm.mem_iff, mem_cons] at hr'
  rcases hr' with rfl | hr'
  · exact ⟨hpos, htop⟩
  · exact h.bounds r' hr'

theorem kindAt_insert (h : Arranged s p) (hfree : RangeFree s p r.vaddr r.length)
    (hpos : 0 < r.length) (htop : r.vaddr + r.length ≤ vmDatatop) :
    kindAt (regionInsert s p r) = extendKind (kindAt s) p r := by
  have harr := h.insert hfree hpos htop
  rw [regionInsert_regions (hfree.vaddr_ne h hpos)] at harr ⊢
  funext ⟨q, v⟩
  by_cases hq : q = p
  · subst hq
    apply Option.ext
    intro mt
    rw [harr.kindAt_eq_some, setRegions_self]
    simp only [mem_orderedInsert, extendKind, true_and]
    by_cases hv : r.Contains v
    · rw [if_pos hv, some.injEq]
      constructor
      · rintro ⟨r', rfl | hr', hv', hmt⟩
        · exact hmt
        · have := hfree r' hr'
          unfold VirRegion.Contains at hv hv'
          lia
      · intro hmt
        exact ⟨r, .inl rfl, hv, hmt⟩
    rw [if_neg hv, h.kindAt_eq_some]
    constructor
    · rintro ⟨r', rfl | hr', hv', hmt⟩
      · exact absurd hv' hv
      · exact ⟨r', hr', hv', hmt⟩
    · rintro ⟨r', hr', hv', hmt⟩
      exact ⟨r', .inr hr', hv', hmt⟩
  · simp only [kindAt, mapLookup, setRegions_of_ne s hq, extendKind, hq, false_and, if_false]

theorem Sound.insert (hs : Sound M s) (h : Steady s (.idle M (extendKind (kindAt s) p r) none) s₁)
    (hp : Live s p) (hfree : RangeFree s p r.vaddr r.length) (hpos : 0 < r.length)
    (htop : r.vaddr + r.length ≤ vmDatatop) : Settles M s (regionInsert s₁ p r) := by
  have harr : Arranged s₁ p := (hs.arranged p).congr (h.shapes p)
  have hfree1 : RangeFree s₁ p r.vaddr r.length := hfree.congr (h.shapes p)
  have hkind := kindAt_insert harr hfree1 hpos htop
  have harr' := harr.insert hfree1 hpos htop
  rw [regionInsert_regions (hfree1.vaddr_ne harr hpos)] at hkind harr' ⊢
  have hl := setRegions_leaves h.kept p
    ((s₁.vmproc p).regions.orderedInsert (fun a b => a.vaddr ≤ b.vaddr) r)
  have hall := h.toLeaves.trans hl
  refine ⟨⟨?_, fun q => ?_, fun q hq => ?_⟩, hall.evicted, hall.bytes⟩
  · rw [hkind, h.shapes.kindAt]
    exact hl.kept
  · by_cases hqp : q = p
    · exact hqp ▸ harr'
    · exact (hs.arranged q).congr (by rw [setRegions_of_ne s₁ hqp, h.shapes q])
  have hqp : q ≠ p := by
    rintro rfl
    exact hq (hall.evicted.live.mpr hp)
  have hmap := h.shapes q
  rw [hs.dead q fun hlive => hq (hall.evicted.live.mpr hlive)] at hmap
  rw [setRegions_of_ne s₁ hqp]
  exact map_eq_nil_iff.mp hmap

theorem Sound.abandon (hs : Sound M s) (h : Steady s (.idle M (extendKind (kindAt s) p r) none) s₁)
    (hnone : ∀ v, r.Contains v → s₁.physblocks (p, v) = none) : Settles M s s₁ := by
  have hk : Kept (.idle M (kindAt s) none) s₁ := by
    refine h.kept.retarget fun x hx => ?_
    unfold extendKind
    rw [if_neg]
    rintro ⟨hp, hv⟩
    obtain ⟨q, v⟩ := x
    cases hp
    rw [hnone v hv] at hx
    cases hx
  exact hs.settles ⟨⟨hk, h.evicted, h.bytes⟩, h.shapes⟩

theorem dropSlots_eq (hnone : ∀ v, r.Contains v → s.physblocks (p, v) = none) :
    dropSlots s p r = s := by
  unfold dropSlots
  have heq : (fun x : Slot => if x.1 = p ∧ r.Contains x.2 then none else s.physblocks x) =
      s.physblocks := by
    funext ⟨q, v⟩
    split
    next hx =>
      obtain ⟨rfl, hv⟩ := hx
      exact (hnone v hv).symm
    next => rfl
  rw [heq]

/-! ## `map_page_region` -/

/-- Once a page of the region is there, `map_handle_memory` does not fail. -/
def PreallocCompletes (s : State) (p : ProcNr) (r : VirRegion) : Prop :=
  ∀ r' s₁ s₂ e s₃, regionNew s r = some (some r', s₁) → evNew s₁ p r' = some (true, s₂) →
    mapHandleMemory s₂ p r' true 0 r'.length = some (e, s₃) →
      e = .ok ∨ ∀ v, r'.Contains v → s₃.physblocks (p, v) = none

structure CanMap (s : State) (p : ProcNr) (r : VirRegion) (prealloc : Bool) : Prop where
  contig : r.memtype = .anonContig → prealloc = true
  noAlign : prealloc = true → r.phys64k = false ∧ r.memtype ≠ .shared
  completes : prealloc = true → PreallocCompletes s p r

theorem mapPageRegion_settles {prealloc : Bool} {o : Option VirRegion}
    (h : mapPageRegion s p r prealloc = some (o, s')) (hs : Sound M s) (hp : Live s p)
    (hcan : CanMap s p r prealloc) : Settles M s s' := by
  unfold mapPageRegion at h
  split at h
  · cases h
  rename_i hrange
  rw [not_not] at hrange
  obtain ⟨hpos, htop, hfree⟩ := hrange
  -- the slots of the new region are empty
  have hempty : ∀ v, r.Contains v → s.physblocks (p, v) = none :=
    fun v hv => hs.empty_of_rangeFree hfree hv
  have hk : Kept (.idle M (extendKind (kindAt s) p r) none) s := by
    refine hs.kept.retarget fun x hx => ?_
    unfold extendKind
    rw [if_neg]
    rintro ⟨hxp, hv⟩
    obtain ⟨q, v⟩ := x
    cases hxp
    rw [hempty v hv] at hx
    cases hx
  split at h
  · cases h
  next s₁ hnew =>
    cases h
    obtain ⟨hq, hphys, _⟩ := regionNew_spec hnew hk
    exact hs.abandon hq.steady fun v hv => hphys ▸ hempty v hv
  rename_i r1 s₁ hnew
  obtain ⟨hq, hphys, _, hr⟩ := regionNew_spec hnew hk
  have hr1 := hr r1 rfl
  have hshape : r1.shape = r.shape := by
    rw [hr1]
    rfl
  have hmt : r1.memtype = r.memtype := by rw [hr1]
  have h64 : r1.phys64k = r.phys64k := by rw [hr1]
  have hcont : ∀ v, r1.Contains v ↔ r.Contains v := fun v => by
    rw [hr1]
    exact Iff.rfl
  rw [← extendKind_congr hshape] at hq
  have hp1 : Live s₁ p := hq.evicted.live.mpr hp
  -- the memory type may make the pages
  have hev : ∀ {w : Bool} {s₂ : State}, evNew s₁ p r1 = some (w, s₂) →
      Steady s (.idle M (extendKind (kindAt s) p r1) none) s₂ ∧
        (w = false → ∀ v, r1.Contains v → s₂.physblocks (p, v) = none) := by
    intro w s₂ h2
    unfold evNew at h2
    split at h2
    next hcontig =>
      have hpre := hcan.contig (hmt ▸ hcontig)
      obtain ⟨hs2, _, hgone⟩ := anonContigNew_steady h2 hq.kept
        (fun v hv => hcontig ▸ extendKind_self hv) hcontig
        (fun v hv => hphys ▸ hempty v ((hcont v).mp hv)) (h64 ▸ (hcan.noAlign hpre).1) hp1
      exact ⟨hq.steady.trans hs2, hgone⟩
    next =>
      cases h2
      exact ⟨hq.steady, nofun⟩
  split at h
  · cases h
  next s₂ h2 =>
    cases h
    obtain ⟨hst, hgone⟩ := hev h2
    exact hs.abandon hst (hgone rfl)
  rename_i s₂ h2
  obtain ⟨hst, _⟩ := hev h2
  -- the pages may be asked for now
  have hpre : ∀ {e : Status} {s3 : State}, (if prealloc then
      mapHandleMemory s₂ p r1 true 0 r1.length else some (.ok, s₂)) = some (e, s3) →
      Steady s (.idle M (extendKind (kindAt s) p r1) none) s3 ∧
        (e = .ok ∨ ∀ v, r1.Contains v → s3.physblocks (p, v) = none) := by
    intro e s3 h3
    split at h3
    next hpre =>
      have hcov : Covers (.idle M (extendKind (kindAt s) p r1) none) s₂ := by
        intro q r' hr' v hv
        have harr : Arranged s₂ q := (hs.arranged q).congr (hst.shapes q)
        have hkq : kindAt s (q, v) = some r'.memtype := hst.shapes.kindAt ▸ harr.kindAt_eq hr' hv
        by_cases hq' : q = p
        · subst hq'
          have hapart := hfree.congr (hst.shapes q) r' hr'
          show extendKind _ _ _ _ = _
          unfold extendKind
          rw [if_neg, hkq]
          rintro ⟨_, hv1⟩
          rw [hcont] at hv1
          unfold VirRegion.Contains at hv hv1
          lia
        · show extendKind _ _ _ _ = _
          unfold extendKind
          rw [if_neg (fun hx => hq' hx.1), hkq]
      obtain ⟨hna, hns⟩ := hcan.noAlign hpre
      have hq3 := mapHandleMemory_quiet h3 hst.kept hcov
        (fun v hv => extendKind_self hv) (by omega) (hst.evicted.live.mpr hp).known
        (h64 ▸ hna) (hmt ▸ hns) rfl
      exact ⟨hst.trans hq3.steady, hcan.completes hpre _ _ _ _ _ hnew h2 h3⟩
    next =>
      cases h3
      exact ⟨hst, .inl rfl⟩
  split at h
  · cases h
  next s3 h3 =>
    cases h
    obtain ⟨hst3, _⟩ := hpre h3
    have hshape' : ({ r1 with uninitialized := false } : VirRegion).shape = r1.shape := rfl
    rw [← extendKind_congr hshape'] at hst3
    apply hs.insert hst3 hp <;> simp only [hr1]
    · exact hfree
    · exact hpos
    · exact htop
  rename_i e s3 hne h3
  cases h
  obtain ⟨hst3, hcase⟩ := hpre h3
  rcases hcase with rfl | hnone
  · exact (hne rfl).elim
  · rw [dropSlots_eq hnone]
    exact hs.abandon hst3 hnone

theorem doMmap_settles {prealloc : Bool} (h : doMmap s p r prealloc = some (e, s'))
    (hs : Sound M s) (hp : Live s p)
    (hcan : (r.memtype = .anonContig → prealloc = true) → CanMap s p r prealloc) :
    Settles M s s' := by
  unfold doMmap at h
  split at h
  · cases h
    exact hs.settles hs.kept.quiet.steady
  rename_i hcontig
  obtain ⟨w, hw, heq⟩ := map_eq_some_iff.mp h
  cases heq
  refine mapPageRegion_settles hw hs hp (hcan fun hmt => ?_)
  by_contra hne
  exact hcontig ⟨hmt, Bool.eq_false_iff.mpr hne⟩

theorem modifyRegion_settles (hs : Sound M s) (p : ProcNr) (vaddr : Page)
    {f : VirRegion → VirRegion} (hf : ∀ r, (f r).shape = r.shape) :
    Settles M s (modifyRegion s p vaddr f) :=
  hs.settles (modifyRegion_steady hs.kept p vaddr hf)

theorem doMapPhys_settles {vaddr : Page} {length : Nat} {phys : Frame}
    (h : doMapPhys s p vaddr length phys = some (e, s')) (hs : Sound M s) (hp : Live s p) :
    Settles M s s' := by
  unfold doMapPhys at h
  split at h
  · cases h
  next s₁ h1 =>
    cases h
    exact mapPageRegion_settles h1 hs hp ⟨nofun, nofun, nofun⟩
  rename_i r s₁ h1
  cases h
  have hs1 := mapPageRegion_settles h1 hs hp ⟨nofun, nofun, nofun⟩
  exact hs1.trans (modifyRegion_settles hs1.sound _ _ fun _ => rfl)

theorem doRemap_settles {sa da : Page} {length : Nat} {readonly : Bool}
    (h : doRemap s q p sa da length readonly = some (e, s')) (hs : Sound M s) (hp : Live s p) :
    Settles M s s' := by
  unfold doRemap at h
  split at h
  next src ep _ _ =>
    split at h
    · cases h
      exact hs.settles hs.kept.quiet.steady
    split at h
    · cases h
    next s₁ h1 =>
      cases h
      exact mapPageRegion_settles h1 hs hp ⟨nofun, nofun, nofun⟩
    rename_i r s₁ h1
    have hs1 := mapPageRegion_settles h1 hs hp ⟨nofun, nofun, nofun⟩
    split at h
    · cases h
    rename_i r' s₂ h2
    cases h
    have hs2 := hs1.sound.settles (sharedSetsource_steady h2 hs1.sound.kept).1
    exact (hs1.trans hs2).trans (modifyRegion_settles hs2.sound _ _ fun _ => rfl)
  next =>
    cases h
    exact hs.settles hs.kept.quiet.steady

theorem mapPf_settles (h : mapPf s p r offset write = some (e, s')) (hs : Sound M s)
    (hp : Live s p) (hr : r ∈ (s.vmproc p).regions) (hlt : offset < r.length)
    (hcan : CanFault s p r offset write) : Settles M s s' :=
  hs.settles (mapPf_quiet h hs.kept (fun _ => id) rfl (fun _ => id) hs.covers
    ((hs.arranged p).kindAt_eq hr (contains_add hlt)) hp.known (fun _ _ => id) hcan).steady

theorem doPagefaults_settles (h : doPagefaults s p v write = some (e, s')) (hs : Sound M s)
    (hp : Live s p)
    (hcan : ∀ r, mapLookup s p v = some r → (write = true → r.writable = true) →
      CanFault s p r (v - r.vaddr) write) :
    Settles M s s' := by
  unfold doPagefaults at h
  split at h
  · cases h
    exact hs.settles hs.kept.quiet.steady
  rename_i r hr
  obtain ⟨hmem, hv⟩ := mapLookup_eq_some hr
  split at h
  · cases h
    exact hs.settles hs.kept.quiet.steady
  rename_i hwr
  apply mapPf_settles h hs hp hmem _ (hcan r hr fun hw => ?_)
  · unfold VirRegion.Contains at hv
    lia
  · rw [not_and'] at hwr
    exact Bool.not_eq_false _ ▸ hwr hw

/-! ## Unmapping -/

theorem Kept.reoffset (hk : Kept g s)
    (hpb : ∀ x, (s'.physblocks x).map (·.ph) = (s.physblocks x).map (·.ph))
    (hs : s' = { s with physblocks := s'.physblocks }) : Quiet s g s' := by
  rw [hs] at hpb ⊢
  refine hk.of_target (funext fun x => ?_)
  simp only [target, hpb x]

variable {len : Nat} {l : List Pmb} {what : HRun}

theorem shiftOffsets_spec {vaddr : Page} (h : shiftOffsets s p vaddr len offset n = some s') :
    (∀ x, (s'.physblocks x).map (·.ph) = (s.physblocks x).map (·.ph)) ∧
      s' = { s with physblocks := s'.physblocks } := by
  induction n generalizing s offset with
  | zero =>
    cases h
    exact ⟨fun _ => rfl, rfl⟩
  | succ n ih =>
    unfold shiftOffsets at h
    split at h
    · exact ih h
    rename_i pr hpr
    split at h
    next =>
      obtain ⟨hpb, hs'⟩ := ih h
      refine ⟨fun x => ?_, hs'⟩
      rw [hpb x]
      by_cases hx : x = (p, vaddr + offset)
      · subst hx
        simp [setSlot, hpr]
      · simp [setSlot, hx]
    next => cases h

theorem ptClear_quiet (h : ptClear s p v n = some (e, s')) (hk : Kept g s)
    (hp : Known g s p) : Quiet s g s' ∧ s'.physblocks = s.physblocks := by
  induction n generalizing s v with
  | zero =>
    cases h
    exact ⟨hk.quiet, rfl⟩
  | succ n ih =>
    unfold ptClear at h
    split at h
    · cases h
    next s₁ h1 =>
      have hq := ptPtalloc_quiet h1 hk hp
      have hphys := (ptPtalloc_same h1).2.1
      have hq1 := hq.trans (setPt_quiet hq.kept (Function.update s₁.pt (p, v) none))
      obtain ⟨hq2, hphys2⟩ := ih h hq1.kept (hq1.evicted.known hp)
      exact ⟨hq1.trans hq2, hphys2.trans hphys⟩
    next e' s₁ _ h1 =>
      cases h
      exact ⟨ptPtalloc_quiet h1 hk hp, (ptPtalloc_same h1).2.1⟩

theorem Sound.rearrange (hs : Sound M s) (h : Leaves s (.idle M (kindAt s) none) s')
    (hp : Live s p) (harr : Arranged s' p)
    (hother : ∀ q, q ≠ p → (s'.vmproc q).regions.map shape =
      (s.vmproc q).regions.map shape)
    (hkind : ∀ x, (s'.physblocks x).isSome → kindAt s' x = kindAt s x) : Settles M s s' := by
  refine ⟨⟨h.kept.retarget hkind, fun q => ?_, fun q hq => ?_⟩, h.evicted, h.bytes⟩
  · by_cases hqp : q = p
    · exact hqp ▸ harr
    · exact (hs.arranged q).congr (hother q hqp)
  have hqp : q ≠ p := by
    rintro rfl
    exact hq (h.evicted.live.mpr hp)
  have hmap := hother q hqp
  rw [hs.dead q fun hlive => hq (h.evicted.live.mpr hlive)] at hmap
  exact map_eq_nil_iff.mp hmap

theorem regionRemove_regions (s : State) (p : ProcNr) (vaddr : Page) :
    ((regionRemove s p vaddr).vmproc p).regions =
      (s.vmproc p).regions.filter fun r => decide (r.vaddr ≠ vaddr) := setRegions_self _ _ _

theorem Arranged.remove (h : Arranged s p) (vaddr : Page) :
    Arranged (regionRemove s p vaddr) p := by
  constructor
  · rw [regionRemove_regions]
    exact h.apart.sublist (filter_sublist.map _)
  · intro r hr
    rw [regionRemove_regions] at hr
    exact h.bounds r (mem_of_mem_filter hr)

theorem Arranged.eq_of_vaddr (h : Arranged s p) (hr : r ∈ (s.vmproc p).regions)
    (hr' : r' ∈ (s.vmproc p).regions) (hv : r'.vaddr = r.vaddr) : r' = r := by
  have hpos := (h.bounds r hr).1
  have hpos' := (h.bounds r' hr').1
  apply h.unique hr' hr (v := r.vaddr) <;> unfold VirRegion.Contains <;> lia

/-- The pages of a process from `lo` up to `hi` may have lost their region. -/
structure Trimmed (s s' : State) (p : ProcNr) (lo hi : Page) : Prop where
  arranged : Arranged s' p
  other : ∀ q, q ≠ p → (s'.vmproc q).regions.map shape =
    (s.vmproc q).regions.map shape
  kind : ∀ v, ¬ (lo ≤ v ∧ v < hi) → kindAt s' (p, v) = kindAt s (p, v)

variable {lo hi : Page}

theorem Trimmed.of_mem (h : Arranged s p) (h' : Arranged s' p)
    (hother : ∀ q, q ≠ p → (s'.vmproc q).regions.map shape =
      (s.vmproc q).regions.map shape)
    (hsub : ∀ r' ∈ (s'.vmproc p).regions, ∃ r ∈ (s.vmproc p).regions,
      r'.memtype = r.memtype ∧ ∀ v, r'.Contains v → r.Contains v)
    (hsup : ∀ r ∈ (s.vmproc p).regions, ∀ v, r.Contains v → ¬ (lo ≤ v ∧ v < hi) →
      ∃ r' ∈ (s'.vmproc p).regions, r'.Contains v) : Trimmed s s' p lo hi := by
  refine ⟨h', hother, fun v hv => Option.ext fun mt => ?_⟩
  rw [h'.kindAt_eq_some, h.kindAt_eq_some]
  constructor
  · rintro ⟨r', hr', hc, rfl⟩
    obtain ⟨r, hr, hmt, hsub'⟩ := hsub r' hr'
    exact ⟨r, hr, hsub' v hc, hmt.symm⟩
  rintro ⟨r, hr, hc, rfl⟩
  obtain ⟨r', hr', hc'⟩ := hsup r hr v hc hv
  obtain ⟨r0, hr0, hmt, hsub'⟩ := hsub r' hr'
  refine ⟨r', hr', hc', ?_⟩
  rw [hmt, h.unique hr0 hr (hsub' v hc') hc]

theorem trimmed_remove (h : Arranged s p) (hr : r ∈ (s.vmproc p).regions) :
    Trimmed s (regionRemove s p r.vaddr) p r.vaddr (r.vaddr + r.length) := by
  apply Trimmed.of_mem h (h.remove _) (fun q hq => by rw [regionRemove, setRegions_of_ne s hq])
  · intro r' hr'
    rw [regionRemove_regions] at hr'
    exact ⟨r', mem_of_mem_filter hr', rfl, fun _ => id⟩
  intro r0 hr0 v hv hnot
  refine ⟨r0, ?_, hv⟩
  rw [regionRemove_regions, mem_filter, decide_eq_true_eq]
  refine ⟨hr0, fun heq => hnot ?_⟩
  rw [h.eq_of_vaddr hr hr0 heq] at hv
  exact hv

theorem trimmed_front (h : Arranged s p) (hr : r ∈ (s.vmproc p).regions) (hlen : len < r.length)
    (hr' : r' = { r with vaddr := r.vaddr + len, length := r.length - len }) :
    Trimmed s (regionInsert (regionRemove s p r.vaddr) p r') p r.vaddr (r.vaddr + len) := by
  have hrem := h.remove r.vaddr
  obtain ⟨_, htop⟩ := h.bounds r hr
  have hfree : RangeFree (regionRemove s p r.vaddr) p r'.vaddr r'.length := by
    intro r0 hr0
    rw [regionRemove_regions, mem_filter, decide_eq_true_eq] at hr0
    have hsymm : Std.Symm fun a b : VirRegion => Apart a.shape b.shape := ⟨fun _ _ => Apart.symm⟩
    have hap := (pairwise_map.mp h.apart).forall hr0.1 hr (by
      rintro rfl
      exact hr0.2 rfl)
    simp only [Apart, shape] at hap
    simp only [hr']
    lia
  have hpos' : 0 < r'.length := by
    rw [hr']
    exact Nat.sub_pos_of_lt hlen
  have htop' : r'.vaddr + r'.length ≤ vmDatatop := by
    simp only [hr']
    lia
  have hins := hrem.insert hfree hpos' htop'
  rw [regionInsert_regions (hfree.vaddr_ne hrem hpos')] at hins ⊢
  apply Trimmed.of_mem h hins
  · intro q hq
    rw [setRegions_of_ne _ hq, regionRemove, setRegions_of_ne s hq]
  · intro r1 hr1
    rw [setRegions_self, mem_orderedInsert] at hr1
    rcases hr1 with rfl | hr1
    · refine ⟨r, hr, by rw [hr'], fun v hv => ?_⟩
      unfold VirRegion.Contains at hv ⊢
      simp only [hr'] at hv
      lia
    · rw [regionRemove_regions] at hr1
      exact ⟨r1, mem_of_mem_filter hr1, rfl, fun _ => id⟩
  intro r0 hr0 v hv hnot
  simp only [setRegions_self, mem_orderedInsert]
  by_cases heq : r0.vaddr = r.vaddr
  · refine ⟨r', .inl rfl, ?_⟩
    rw [h.eq_of_vaddr hr hr0 heq] at hv
    unfold VirRegion.Contains at hv ⊢
    simp only [hr']
    lia
  · refine ⟨r0, .inr ?_, hv⟩
    rw [regionRemove_regions, mem_filter, decide_eq_true_eq]
    exact ⟨hr0, heq⟩

theorem trimmed_back (len : Nat) (h : Arranged s p) (hr : r ∈ (s.vmproc p).regions)
    (hlen : len < r.length) :
    Trimmed s (modifyRegion s p r.vaddr fun r => { r with length := r.length - len }) p
      (r.vaddr + (r.length - len)) (r.vaddr + r.length) := by
  have hmem : ∀ r' ∈ (s.vmproc p).regions.map (fun r0 => if r0.vaddr = r.vaddr then
      { r0 with length := r0.length - len } else r0), ∃ r0 ∈ (s.vmproc p).regions,
      r'.vaddr = r0.vaddr ∧ r'.memtype = r0.memtype ∧ r'.length ≤ r0.length ∧ 0 < r'.length := by
    intro r' hr'
    obtain ⟨r0, hr0, rfl⟩ := List.mem_map.mp hr'
    refine ⟨r0, hr0, ?_⟩
    split
    next heq =>
      rw [h.eq_of_vaddr hr hr0 heq]
      exact ⟨rfl, rfl, Nat.sub_le _ _, Nat.sub_pos_of_lt hlen⟩
    next => exact ⟨rfl, rfl, Nat.le_refl _, (h.bounds r0 hr0).1⟩
  have hreg : ((modifyRegion s p r.vaddr fun r => { r with length := r.length - len }).vmproc
      p).regions = (s.vmproc p).regions.map (fun r0 => if r0.vaddr = r.vaddr then
        { r0 with length := r0.length - len } else r0) := setRegions_self _ _ _
  apply Trimmed.of_mem h
  · constructor
    · rw [hreg, List.map_map, pairwise_map]
      refine (pairwise_map.mp h.apart).imp fun {a b} hab => ?_
      simp only [Apart, shape, Function.comp] at hab ⊢
      split <;> split <;> lia
    intro r' hr'
    rw [hreg] at hr'
    obtain ⟨r0, hr0, hv, _, hle, hpos⟩ := hmem r' hr'
    refine ⟨hpos, ?_⟩
    have := (h.bounds r0 hr0).2
    lia
  · intro q hq
    rw [modifyRegion, setRegions_of_ne s hq]
  · intro r' hr'
    rw [hreg] at hr'
    obtain ⟨r0, hr0, hv, hmt, hle, _⟩ := hmem r' hr'
    refine ⟨r0, hr0, hmt, fun v hc => ?_⟩
    unfold VirRegion.Contains at hc ⊢
    lia
  intro r0 hr0 v hv hnot
  rw [hreg]
  refine ⟨_, List.mem_map_of_mem hr0, ?_⟩
  split
  next heq =>
    rw [h.eq_of_vaddr hr hr0 heq] at hv ⊢
    unfold VirRegion.Contains at hv ⊢
    simp only
    lia
  next => exact hv

theorem regionRemove_insert (hnew : ∀ r' ∈ (s.vmproc p).regions, r'.vaddr ≠ r.vaddr) :
    regionRemove (regionInsert s p r) p r.vaddr = s := by
  rw [regionInsert_regions fun ⟨r', hr', hv⟩ => hnew r' hr' hv, regionRemove, setRegions_self]
  have hfilter : ((s.vmproc p).regions.orderedInsert (fun a b => a.vaddr ≤ b.vaddr) r).filter
      (fun r' => decide (r'.vaddr ≠ r.vaddr)) = (s.vmproc p).regions := by
    rw [orderedInsert_eq_take_drop, filter_append, filter_cons_of_neg (by simp),
      ← filter_append, takeWhile_append_dropWhile, filter_eq_self]
    intro r' hr'
    simpa using hnew r' hr'
  rw [hfilter]
  simp [setRegions, setVmproc]

theorem regionInsert_leaves (hk : Kept g s) (p : ProcNr) (r : VirRegion) :
    Leaves s g (regionInsert s p r) := by
  unfold regionInsert
  split
  · exact hk.leaves
  · exact setRegions_leaves hk p _

theorem regionInsert_physblocks (s : State) (p : ProcNr) (r : VirRegion) :
    (regionInsert s p r).physblocks = s.physblocks := by
  unfold regionInsert
  split <;> rfl

theorem Trimmed.congr (h : Trimmed s s₁ p lo hi) (hs : SameShapes s₁ s') :
    Trimmed s s' p lo hi where
  arranged := h.arranged.congr (hs p)
  other q hq := (hs q).trans (h.other q hq)
  kind v hv := (congrFun hs.kindAt (p, v)).trans (h.kind v hv)

theorem shrinkRegion_trimmed (h : shrinkRegion s p r offset len = some (r', s₁))
    (h' : (if r'.length = 0 then mapFree (regionRemove s₁ p r'.vaddr) p p r' else some s₁) =
      some s')
    (hk : Kept g s) (harr : Arranged s p) (hr : r ∈ (s.vmproc p).regions)
    (hlen : offset + len ≤ r.length)
    (hnext : offset = 0 → len = r.length → ∀ r₀ ∈ (s.vmproc p).regions,
      r₀.vaddr ≠ r.vaddr + r.length) :
    Leaves s g s' ∧ Trimmed s s' p (r.vaddr + offset) (r.vaddr + offset + len) ∧
      ∀ x, (s'.physblocks x).map (·.ph) = (s.physblocks x).map (·.ph) := by
  have hpos := (harr.bounds r hr).1
  unfold shrinkRegion at h
  split at h
  next hzero =>
    subst hzero
    simp only at h
    obtain ⟨s₂, hshift, heq⟩ := map_eq_some_iff.mp h
    cases heq
    rw [Nat.add_zero]
    have hrem := setRegions_leaves hk p ((s.vmproc p).regions.filter fun r₀ =>
      decide (r₀.vaddr ≠ r.vaddr))
    rcases Nat.lt_or_ge len r.length with hlt | hge
    · -- some of the region is left
      rw [if_neg (by show ¬ r.length - len = 0; omega), some.injEq] at h'
      subst h'
      obtain ⟨hpb, hsame⟩ := shiftOffsets_spec hshift
      have hins := regionInsert_leaves hrem.kept p
        { r with vaddr := r.vaddr + len, length := r.length - len }
      have hq := hins.kept.reoffset hpb hsame
      refine ⟨(hrem.trans hins).trans hq.toLeaves, (trimmed_front harr hr hlt rfl).congr
        (SameShapes.of_eq hq.regions), fun x => ?_⟩
      rw [hpb x, regionInsert_physblocks]
      rfl
    -- the whole region goes
    have hlen' : len = r.length := by omega
    subst hlen'
    rw [if_pos (Nat.sub_self _)] at h'
    simp only [Nat.sub_self, shiftOffsets, some.injEq] at hshift
    subst hshift
    have hback := regionRemove_insert (s := regionRemove s p r.vaddr) (p := p)
      (r := { r with vaddr := r.vaddr + r.length, length := 0 }) fun r₀ hr0 => by
        rw [regionRemove_regions] at hr0
        exact hnext rfl rfl r₀ (mem_of_mem_filter hr0)
    simp only [Nat.sub_self] at h'
    rw [hback] at h'
    unfold mapFree mapSubfree at h'
    have hlast : Steady (regionRemove s p r.vaddr) g s' ∧
        s'.physblocks = (regionRemove s p r.vaddr).physblocks := by
      simp only at h'
      split at h'
      · obtain ⟨hst, hphys, _⟩ := sharedDelete_steady h' hrem.kept
        exact ⟨hst, hphys⟩
      · cases h'
        exact ⟨hrem.kept.quiet.steady, rfl⟩
    obtain ⟨hst, hphys⟩ := hlast
    exact ⟨hrem.trans hst.toLeaves, (trimmed_remove harr hr).congr hst.shapes,
      fun x => by rw [hphys]; rfl⟩
  next hzero =>
    split at h
    next hend =>
      cases h
      rw [if_neg (by show ¬ r.length - len = 0; omega), some.injEq] at h'
      subst h'
      have hst := modifyRegion_leaves hk p r.vaddr fun r => { r with length := r.length - len }
      have htrim := trimmed_back len harr hr (by omega)
      rw [show r.vaddr + (r.length - len) = r.vaddr + offset by rw [← hend, Nat.add_sub_cancel],
        show r.vaddr + r.length = r.vaddr + offset + len by rw [← hend, Nat.add_assoc]] at htrim
      exact ⟨hst, htrim, fun _ => rfl⟩
    cases h
    rw [if_neg (by omega), some.injEq] at h'
    subst h'
    exact ⟨hk.leaves, ⟨harr, fun _ _ => rfl, fun _ _ => rfl⟩, fun _ => rfl⟩

/-- The region that follows a region that goes as a whole is not next to it. -/
def UnmapApart (s : State) (p : ProcNr) (r : VirRegion) (offset len : Nat) : Prop :=
  offset = 0 → len = r.length → ∀ r₀ ∈ (s.vmproc p).regions, r₀.vaddr ≠ r.vaddr + r.length

theorem mapUnmapRegion_settles (h : mapUnmapRegion s p r offset len = some (e, s'))
    (hs : Sound M s) (hp : Live s p) (hr : r ∈ (s.vmproc p).regions)
    (hnext : UnmapApart s p r offset len) : Settles M s s' := by
  unfold mapUnmapRegion at h
  split at h
  · cases h
    exact hs.settles hs.kept.quiet.steady
  rename_i hlen
  split at h
  · cases h
  rename_i s₁ hfree
  obtain ⟨hq, hgone, hrest⟩ := mapSubfree_quiet hfree hs.kept Ghost.idle_plain
    (fun v hv _ => (hs.arranged p).kindAt_eq hr hv) hp.known
  split at h
  · cases h
  rename_i r' s₂ hshrink
  split at h
  · cases h
  rename_i s3 hend
  have hreg := hq.regions p
  have harr1 : Arranged s₁ p := (hs.arranged p).congr (by rw [hreg])
  obtain ⟨hl, htrim, hpb⟩ := shrinkRegion_trimmed hshrink hend hq.kept harr1
    (hreg ▸ hr) (by omega) (by rwa [hreg])
  have hp3 : Live s3 p := (hq.evicted.trans hl.evicted).live.mpr hp
  split at h
  next s4 hclear =>
    cases h
    obtain ⟨hq4, hphys4⟩ := ptClear_quiet hclear hl.kept hp3.known
    have hall := (hq.toLeaves.trans hl).trans hq4.toLeaves
    have htrim4 := htrim.congr (SameShapes.of_eq hq4.regions)
    refine hs.rearrange hall hp htrim4.arranged (fun q hqp => ?_) fun ⟨q, v⟩ hx => ?_
    · rw [htrim4.other q hqp, hq.regions q]
    have hkind1 : kindAt s₁ = kindAt s := (SameShapes.of_eq hq.regions).kindAt
    by_cases hqp : q = p
    · subst hqp
      rw [htrim4.kind v, hkind1]
      -- the pages that go are empty
      rintro ⟨hlo, hhi⟩
      have hnone := hgone (v - r.vaddr) (by lia) (by lia)
      rw [show r.vaddr + (v - r.vaddr) = v by lia] at hnone
      have hsome : ((s3.physblocks (q, v)).map (·.ph)).isSome := by
        rw [isSome_map]
        exact hphys4 ▸ hx
      rw [hpb, hnone] at hsome
      cases hsome
    · rw [← hkind1, kindAt_eq, kindAt_eq, htrim4.other q hqp]
  next => cases h

theorem doMunmap_settles (h : doMunmap s p v len = some (e, s')) (hs : Sound M s) (hp : Live s p)
    (hnext : ∀ r, mapLookup s p v = some r → UnmapApart s p r (v - r.vaddr) len) :
    Settles M s s' := by
  unfold doMunmap at h
  split at h
  · cases h
    exact hs.settles hs.kept.quiet.steady
  rename_i r hr
  split at h
  · cases h
    exact hs.settles hs.kept.quiet.steady
  · exact mapUnmapRegion_settles h hs hp (mapLookup_eq_some hr).1 (hnext r hr)

/-! ## Forgetting yielded blocks -/

theorem freeYieldedTree_quiet {l : List YieldedPtr} (h : freeYieldedTree s p l = some s')
    (hk : Kept g s) : Quiet s g s' ∧ SameRest s s' := by
  induction l generalizing s with
  | nil =>
    cases h
    exact ⟨hk.quiet, SameRest.refl _⟩
  | cons n l ih =>
    unfold freeYieldedTree at h
    split at h
    · cases h
    split at h
    · split at h
      · cases h
      rename_i s₁ h1
      have hq := freeyieldednode_quiet h1 hk
      obtain ⟨hq', hr'⟩ := ih h hq.kept
      exact ⟨hq.trans hq', (freeyieldednode_rest h1).trans hr'⟩
    · exact ih h hk

theorem freeYieldedTrees_quiet {k t : Nat} (h : freeYieldedTrees s p t k = some s')
    (hk : Kept g s) : Quiet s g s' ∧ SameRest s s' := by
  induction k generalizing s t with
  | zero =>
    cases h
    exact ⟨hk.quiet, SameRest.refl _⟩
  | succ k ih =>
    unfold freeYieldedTrees at h
    split at h
    · cases h
      exact ⟨hk.quiet, SameRest.refl _⟩
    split at h
    · cases h
    rename_i s₁ h1
    obtain ⟨hq, hr⟩ := freeYieldedTree_quiet h1 hk
    obtain ⟨hq', hr'⟩ := ih h hq.kept
    exact ⟨hq.trans hq', hr.trans hr'⟩

theorem doForgetblock_settles {id : UInt64} (h : doForgetblock s p id = some (e, s'))
    (hs : Sound M s) : Settles M s s' := by
  unfold doForgetblock at h
  split at h
  · cases h
  split at h
  · cases h
    exact hs.settles hs.kept.quiet.steady
  · obtain ⟨s₁, h1, heq⟩ := map_eq_some_iff.mp h
    cases heq
    exact hs.settles (freeyieldednode_quiet h1 hs.kept).steady

theorem doForgetblocks_settles (h : doForgetblocks s p = some (e, s')) (hs : Sound M s) :
    Settles M s s' := by
  obtain ⟨s₁, h1, heq⟩ := map_eq_some_iff.mp h
  cases heq
  exact hs.settles (freeYieldedTrees_quiet h1 hs.kept).1.steady

/-! ## Hardening -/

theorem setToHard_quiet (hk : Kept g s) (p : ProcNr) (on : Bool) :
    Quiet s g (s.setVmproc p { s.vmproc p with toHard := on }) := by
  have hsame : ∀ q, (s.setVmproc p { s.vmproc p with toHard := on }).vmproc q =
      { s.vmproc q with toHard := ((s.setVmproc p { s.vmproc p with toHard := on }).vmproc
        q).toHard } := by
    intro q
    by_cases hq : q = p
    · subst hq
      simp [setVmproc]
    · simp [setVmproc, hq]
  refine ⟨Leaves.of_same (hk.congr ⟨rfl, rfl, SameNodes.refl _, rfl, rfl, fun q => ?_⟩
    fun _ => Iff.rfl) ⟨rfl, fun q => ?_, fun q => ?_, fun q => ?_, rfl, fun q _ => ?_⟩ rfl,
    fun q => ?_⟩
  · rw [hsame q]
    exact ⟨rfl, rfl, rfl⟩
  all_goals rw [hsame q]

theorem doHardening_sound {all on : Bool} (hs : Sound M s) : Sound M (doHardening s p all on) := by
  unfold doHardening
  split
  · exact ⟨hs.kept.congr ⟨rfl, rfl, SameNodes.refl _, rfl, rfl, fun _ => ⟨rfl, rfl, rfl⟩⟩
      fun _ => Iff.rfl, fun q => (hs.arranged q).congr rfl, hs.dead⟩
  · exact hs.steady (setToHard_quiet hs.kept p on).steady

/-- The frames of a list of hardening blocks. -/
def PmbHas (l : List Pmb) (v : Page) (what : HRun) (f : Frame) : Prop :=
  ∃ b ∈ l, b.vaddr = v ∧ b.us what = some f

theorem setPmbs_quiet (v : Page) (what : HRun) (hk : Kept (g.take f 1) s) (hf : ¬ g.hand f)
    (hp : Live s p) (hl : (l.map (·.vaddr)).Nodup)
    (hhas : ∀ v' w k, PmbHas l v' w k ↔
      PmbHas (s.vmproc p).lus1Us2 v' w k ∨ (v' = v ∧ w = what ∧ k = f)) :
    Quiet s g (setPmbs s p l) := by
  have hlive : ∀ q, Live (setPmbs s p l) q ↔ Live s q := by
    intro q
    by_cases hq : q = p
    · subst hq
      simp [Live, setPmbs, setVmproc]
    · simp [Live, setPmbs, setVmproc, hq]
  have hsame : ∀ q, (setPmbs s p l).vmproc q =
      { s.vmproc q with lus1Us2 := ((setPmbs s p l).vmproc q).lus1Us2 } := by
    intro q
    by_cases hq : q = p
    · subst hq
      simp [setPmbs, setVmproc]
    · simp [setPmbs, setVmproc, hq]
  refine ⟨Leaves.of_same ?_ ⟨rfl, fun q => ?_, fun q => ?_, fun q => ?_, rfl, fun q hq => ?_⟩ rfl,
    fun q => ?_⟩
  case refine_5 =>
    have hqp : q ≠ p := by
      rintro rfl
      have := hp.2
      rw [hq] at this
      cases this
    simp [setPmbs, setVmproc, hqp]
  · refine hk.moved g.hand rfl rfl (fun q hq => ?_) (fun {q i} hpt => ?_) ?_
    · by_cases hqp : q = p
      · subst hqp
        simpa [setPmbs, setVmproc] using hl
      · simpa [setPmbs, setVmproc, hqp] using hk.pages q ((hlive q).mp hq)
    · rw [hlive q]
      exact hk.tables hpt
    apply hk.frames.give (o := .hardening p v what) (S := fun k => k = f)
    · rintro k rfl
      exact .inr ⟨Nat.le_refl _, Nat.lt_succ_self _⟩
    · exact fun k => (Ghost.take_one_hand hf k).symm
    intro o k
    cases o with
    | hardening q v' w =>
      simp only [Holds, hlive, Owner.hardening.injEq]
      by_cases hqp : q = p
      · subst hqp
        have := hhas v' w k
        unfold PmbHas at this
        simp only [setPmbs, setVmproc, Function.update_self, this, true_and, hp]
        simp only [and_assoc]
      · simp [setPmbs, setVmproc, hqp]
    | _ => simp [Holds, setPmbs, setVmproc, Ghost.take]
  all_goals rw [hsame q]

theorem absCopy_owned_quiet {o : Owner} (old : Frame) {new : Frame} (hk : Kept g s)
    (ho : Holds g s o new) (hne : ∀ n, o ≠ .yielded n) : Quiet s g (absCopy s old new) := by
  refine ⟨⟨?_, .same (.of_eq rfl rfl rfl), fun {n k} hk' => ?_⟩,
    fun _ => rfl⟩
  · exact hk.congr ⟨rfl, rfl, SameNodes.refl _, rfl, rfl, fun _ => ⟨rfl, rfl, rfl⟩⟩ fun _ => Iff.rfl
  · apply Function.update_of_ne
    rintro rfl
    have hheld : Holds g s (.yielded n) k := hk'
    exact hne n (hk.frames.unique hheld ho)

theorem Pmb.setUs_vaddr (b : Pmb) (what : HRun) (f : Frame) : (b.setUs what f).vaddr = b.vaddr := by
  cases what <;> rfl

theorem Pmb.setUs_us (b : Pmb) (what w : HRun) (f : Frame) :
    (b.setUs what f).us w = if w = what then some f else b.us w := by
  cases what <;> cases w <;> rfl

theorem lookUpPte_eq_some {b : Pmb} (h : lookUpPte s p v = some b) :
    b ∈ (s.vmproc p).lus1Us2 ∧ b.vaddr = v :=
  ⟨mem_of_find?_eq_some h, by simpa using List.find?_some h⟩

theorem pmbHas_append (v' : Page) (w : HRun) (k : Frame) :
    PmbHas (l ++ [(⟨v, none, none⟩ : Pmb).setUs what f]) v' w k ↔
      PmbHas l v' w k ∨ (v' = v ∧ w = what ∧ k = f) := by
  unfold PmbHas
  simp only [mem_append, mem_singleton, or_and_right, exists_or, exists_eq_left,
    Pmb.setUs_vaddr, Pmb.setUs_us]
  apply or_congr_right
  constructor
  · rintro ⟨rfl, hus⟩
    split at hus
    next hw =>
      cases hus
      exact ⟨rfl, hw, rfl⟩
    next => cases w <;> cases hus
  · rintro ⟨rfl, rfl, rfl⟩
    exact ⟨rfl, if_pos rfl⟩

theorem pmbHas_setUs {b : Pmb} (hl : (l.map (·.vaddr)).Nodup)
    (hb : b ∈ l) (hnone : b.us what = none) (v' : Page) (w : HRun) (k : Frame) :
    PmbHas (l.map fun b' => if b'.vaddr = b.vaddr then b'.setUs what f else b') v' w k ↔
      PmbHas l v' w k ∨ (v' = b.vaddr ∧ w = what ∧ k = f) := by
  have huniq : ∀ {b'}, b' ∈ l → b'.vaddr = b.vaddr → b' = b := fun hb' hv =>
    inj_on_of_nodup_map hl hb' hb hv
  unfold PmbHas
  constructor
  · rintro ⟨_, hmem, hv, hus⟩
    obtain ⟨b', hb', rfl⟩ := List.mem_map.mp hmem
    split at hv
    next heq =>
      rw [if_pos heq] at hus
      rw [Pmb.setUs_vaddr] at hv
      rw [Pmb.setUs_us] at hus
      split at hus
      next hw =>
        cases hus
        exact .inr ⟨hv.symm.trans heq, hw, rfl⟩
      next => exact .inl ⟨b', hb', hv, hus⟩
    next heq =>
      rw [if_neg heq] at hus
      exact .inl ⟨b', hb', hv, hus⟩
  rintro (⟨b', hb', hv, hus⟩ | ⟨rfl, rfl, rfl⟩)
  · refine ⟨_, List.mem_map_of_mem hb', ?_⟩
    split
    next heq =>
      rw [Pmb.setUs_vaddr, Pmb.setUs_us]
      refine ⟨hv, ?_⟩
      rw [if_neg, hus]
      rintro rfl
      rw [huniq hb' heq, hnone] at hus
      cases hus
    next => exact ⟨hv, hus⟩
  · refine ⟨_, List.mem_map_of_mem hb, ?_⟩
    rw [if_pos rfl, Pmb.setUs_vaddr, Pmb.setUs_us, if_pos rfl]
    exact ⟨rfl, rfl⟩

/-- The hardening block of a page has both frames. -/
def HardenedPage (s : State) (p : ProcNr) (v : Page) : Prop :=
  ∃ b, lookUpPte s p v = some b ∧ b.us1.isSome ∧ b.us2.isSome

/-- No aligned frame, and a page that was copied for this run was copied for both. -/
structure CanHarden (s : State) (p : ProcNr) (r : VirRegion) (v : Page) (what : HRun) : Prop where
  noAlign : r.phys64k = false ∨ HardenedPage s p v
  both : ∀ b, lookUpPte s p v = some b → (b.us what).isSome → b.us1.isSome ∧ b.us2.isSome

theorem allocateMem4Hardening_quiet {us0 : Frame}
    (h : allocateMem4Hardening s p r v us0 what = some s') (hk : Kept g s) (hp : Live s p)
    (hcan : CanHarden s p r v what) : Quiet s g s' := by
  unfold allocateMem4Hardening at h
  simp only at h
  have hq0 := setToHard_quiet hk p true
  have hlook : lookUpPte (s.setVmproc p { s.vmproc p with toHard := true }) p v =
      lookUpPte s p v := by
    simp [lookUpPte, setVmproc]
  have hboth := hcan.both
  have halign := hcan.noAlign
  unfold HardenedPage at halign
  rw [← hlook] at hboth halign
  have hp0 : Live (s.setVmproc p { s.vmproc p with toHard := true }) p := hq0.evicted.live.mpr hp
  generalize s.setVmproc p { s.vmproc p with toHard := true } = s0 at h hq0 hboth halign hp0
  have hnodup := hq0.kept.pages p hp0
  -- the frame that is allocated is in no list
  have hnew : ∀ {new : Frame} {s₁ : State}, allocMem s0 1 true false = some (some new, s₁) →
      Quiet s (g.take new 1) (absCopy s₁ us0 new) ∧ ¬ g.hand new ∧ Live (absCopy s₁ us0 new) p ∧
          ((absCopy s₁ us0 new).vmproc p).lus1Us2 = (s0.vmproc p).lus1Us2 := by
    intro new s₁ h₁
    obtain ⟨hrest, hq1, hfresh⟩ := allocMem_quiet h₁ hq0.kept
    have hq2 := absCopy_quiet us0 hq1.kept (.inr ⟨Nat.le_refl new, Nat.lt_succ_self _⟩)
    exact ⟨(hq0.trans hq1).trans hq2, hfresh new (Nat.le_refl _) (Nat.lt_succ_self _),
      (hq1.trans hq2).evicted.live.mpr hp0, (hrest.sameHolder p).2.2⟩
  split at h
  next hnone =>
    have h64 : r.phys64k = false := halign.resolve_right fun hex => by
      obtain ⟨b, hb, _⟩ := hex
      rw [hnone] at hb
      cases hb
    rw [h64] at h
    split at h
    next new s₁ h₁ =>
      cases h
      obtain ⟨hq2, hhand, hlive, hl⟩ := hnew h₁
      refine hq2.trans (setPmbs_quiet v what hq2.kept hhand hlive ?_ fun v' w k => ?_)
      · rw [← hl] at hnodup
        rw [map_append, nodup_append]
        refine ⟨hnodup, nodup_singleton _, ?_⟩
        rintro a ha _ hb rfl
        rw [map_singleton, mem_singleton, Pmb.setUs_vaddr] at hb
        subst hb
        obtain ⟨b, hb, hv⟩ := List.mem_map.mp ha
        have := List.find?_eq_none.mp hnone b (hl ▸ hb)
        simp [hv] at this
      · exact pmbHas_append v' w k
    next => cases h
  rename_i b hb
  obtain ⟨hmem, hv⟩ := lookUpPte_eq_some hb
  split at h
  next hhalf =>
    have h64 : r.phys64k = false := halign.resolve_right fun hex => by
      obtain ⟨b', hb', h1, h2⟩ := hex
      rw [hb, some.injEq] at hb'
      subst hb'
      rcases hhalf with hh | hh <;> simp [hh] at h1 h2
    rw [h64] at h
    split at h
    next new s₁ h₁ =>
      split at h
      next hus =>
        cases h
        obtain ⟨hq2, hhand, hlive, hl⟩ := hnew h₁
        rw [← hl] at hmem hnodup
        refine hq2.trans (setPmbs_quiet v what hq2.kept hhand hlive ?_ fun v' w k => ?_)
        · rw [List.map_map]
          have hsame : ((fun b' : Pmb => b'.vaddr) ∘ fun b' : Pmb =>
              if b'.vaddr = v then b'.setUs what new else b') = fun b' => b'.vaddr := by
            funext b'
            simp only [Function.comp]
            split
            · rw [Pmb.setUs_vaddr]
            · rfl
          rw [hsame]
          exact hnodup
        · rw [← hv]
          exact pmbHas_setUs hnodup hmem hus v' w k
      rename_i k hus
      -- the frame that was allocated would be lost
      have := hboth b hb (by rw [hus]; rfl)
      rw [isSome_iff_ne_none, isSome_iff_ne_none] at this
      rcases hhalf with h1 | h2
      · exact absurd h1 this.1
      · exact absurd h2 this.2
    next => cases h
  next =>
    split at h
    · cases h
    rename_i k hus
    cases h
    exact hq0.trans (absCopy_owned_quiet (o := .hardening p v what) _ hq0.kept
      ⟨hp0, b, hmem, hv, hus⟩ (fun n h => by cases h))

theorem doHpagefaults_settles (h : doHpagefaults s p v what = some (e, s'))
    (hs : Sound M s) (hp : Live s p)
    (hcan : ∀ r, mapLookup s p v = some r → CanHarden s p r v what) : Settles M s s' := by
  unfold doHpagefaults at h
  split at h
  · cases h
  rename_i r hr
  split at h
  next pr _ =>
    split at h
    next us0 _ _ _ =>
      obtain ⟨s₁, h1, heq⟩ := map_eq_some_iff.mp h
      cases heq
      exact hs.settles (allocateMem4Hardening_quiet h1 hs.kept hp (hcan r hr)).steady
    next => cases h
  next => cases h

end HardenedMinix.Region
