import HardenedMinix.Vm.OwnershipFaults

/-!
# The requests of VM and the owners of frames

`Sound` adds that the regions of a process do not overlap, that every slot in use is in a region,
and that a process that is not live has none.
-/

open Function Option

namespace HardenedMinix.Region

open Lib VirRegion Ghost

variable {g g' : Ghost} {s s' s₁ s₂ : State} {p q parent : ProcNr} {x y : Slot} {b c : PbPtr}
  {f : Frame} {pb : PhysBlock} {pr : PhysRegion} {r src : VirRegion} {v : Page} {e : Status}
  {offset n : Nat} {write : Bool} {M : Frame → Prop} {kind kind' : Slot → Option MemType} {child : Option ProcNr}

/-! ## Between requests -/

def Ghost.idle (M : Frame → Prop) (kind : Slot → Option MemType) (child : Option ProcNr) :
    Ghost where
  managed := M
  kind := kind
  limbo := fun _ => False
  fresh := none
  borrowed := fun _ => False
  bare := fun _ => False
  hand := fun _ => False
  child := child

theorem target_idle : target (.idle M kind child) s x = (s.physblocks x).map (·.ph) := target_eq id

theorem Kept.retarget (hk : Kept (.idle M kind child) s)
    (h : ∀ x, (s.physblocks x).isSome → kind' x = kind x) : Kept (.idle M kind' child) s := by
  have hkind : ∀ {b pb x}, s.blocks b = some pb → x ∈ pb.regions → kind' x = kind x := by
    intro b pb x hb hx
    have := (hk.mem_regions hb).mp hx
    rw [target_idle, map_eq_some_iff] at this
    obtain ⟨pr, hpr, _⟩ := this
    exact h x (by rw [hpr]; rfl)
  have hdirect : ∀ {b pb}, s.blocks b = some pb →
      (Direct kind' pb.regions ↔ Direct kind pb.regions) := by
    intro b pb hb
    unfold Direct
    constructor
    · rintro ⟨x, hx, hkx⟩
      exact ⟨x, hx, (hkind hb hx).symm.trans hkx⟩
    · rintro ⟨x, hx, hkx⟩
      exact ⟨x, hx, (hkind hb hx).trans hkx⟩
  exact {
    refs := hk.refs
    count := hk.count
    used := hk.used
    bare := hk.bare
    lent := hk.lent
    kinds := by
      intro x b hx
      have hsome : (s.physblocks x).isSome := by
        rw [target_idle, map_eq_some_iff] at hx
        obtain ⟨pr, hpr, _⟩ := hx
        rw [hpr]
        rfl
      show (kind' x).isSome
      rw [h x hsome]
      exact hk.kinds hx
    uniform := by
      intro b pb x y hb hx hy hkx
      show kind' y = _
      rw [hkind hb hy]
      exact hk.uniform hb hx hy ((hkind hb hx).symm.trans hkx)
    pages := hk.pages
    tables := hk.tables
    frames := hk.frames.congr (fun _ => Iff.rfl) (fun _ => Iff.rfl) fun o f => by
      cases o with
      | block b =>
        simp only [Holds]
        apply and_congr_right fun _ => exists_congr fun pb => ?_
        exact and_congr_right fun hb => and_congr_right fun _ => not_congr (hdirect hb)
      | _ => exact Iff.rfl }

/-- Where a region is, and what memory it has. -/
def VirRegion.shape (r : VirRegion) : Page × Nat × MemType := (r.vaddr, r.length, r.memtype)

/-- The memory type of the region of a slot. -/
def kindAt (s : State) (x : Slot) : Option MemType := (mapLookup s x.1 x.2).map (·.memtype)

def SameShapes (s s' : State) : Prop :=
  ∀ p, (s'.vmproc p).regions.map shape = (s.vmproc p).regions.map shape

theorem SameShapes.of_eq (h : ∀ p, (s'.vmproc p).regions = (s.vmproc p).regions) :
    SameShapes s s' := fun p => by rw [h p]

theorem SameShapes.trans (h : SameShapes s s₁) (h' : SameShapes s₁ s') : SameShapes s s' :=
  fun p => (h' p).trans (h p)

theorem kindAt_eq (s : State) (x : Slot) :
    kindAt s x = (((s.vmproc x.1).regions.map shape).find? fun w =>
      decide (w.1 ≤ x.2 ∧ x.2 < w.1 + w.2.1)).map (·.2.2) := by
  unfold kindAt mapLookup
  rw [List.find?_map, Option.map_map]
  rfl

theorem SameShapes.kindAt (h : SameShapes s s') : kindAt s' = kindAt s := by
  funext x
  rw [kindAt_eq, kindAt_eq, h x.1]

def Apart (a b : Page × Nat × MemType) : Prop := a.1 + a.2.1 ≤ b.1 ∨ b.1 + b.2.1 ≤ a.1

theorem Apart.symm {a b : Page × Nat × MemType} (h : Apart a b) : Apart b a := Or.symm h

/-- The regions of a process do not overlap. -/
structure Arranged (s : State) (p : ProcNr) : Prop where
  apart : ((s.vmproc p).regions.map shape).Pairwise Apart
  bounds : ∀ r ∈ (s.vmproc p).regions, 0 < r.length ∧ r.vaddr + r.length ≤ vmDatatop

theorem Arranged.congr (h : Arranged s p)
    (hs : (s'.vmproc p).regions.map shape = (s.vmproc p).regions.map shape) :
    Arranged s' p where
  apart := hs ▸ h.apart
  bounds r hr := by
    have hmem : r.shape ∈ (s.vmproc p).regions.map shape := hs ▸ List.mem_map_of_mem hr
    obtain ⟨r', hr', heq⟩ := List.mem_map.mp hmem
    have hb := h.bounds r' hr'
    simp only [shape, Prod.mk.injEq] at heq
    rw [← heq.1, ← heq.2.1]
    exact hb

theorem Arranged.unique (h : Arranged s p) {r r' : VirRegion} (hr : r ∈ (s.vmproc p).regions)
    (hr' : r' ∈ (s.vmproc p).regions) (hv : r.Contains v) (hv' : r'.Contains v) : r = r' := by
  by_contra hne
  have hsymm : Std.Symm fun a b : VirRegion => Apart a.shape b.shape := ⟨fun _ _ => Apart.symm⟩
  have hap := (List.pairwise_map.mp h.apart).forall hr hr' hne
  simp only [Apart, shape, VirRegion.Contains] at hap hv hv'
  lia

theorem Arranged.mapLookup_eq (h : Arranged s p) (hr : r ∈ (s.vmproc p).regions)
    (hv : r.Contains v) : mapLookup s p v = some r := by
  have hsome : (mapLookup s p v).isSome := List.find?_isSome.mpr ⟨r, hr, by simpa using hv⟩
  obtain ⟨r', hr'⟩ := isSome_iff_exists.mp hsome
  obtain ⟨hmem, hcont⟩ := mapLookup_eq_some hr'
  rw [hr', h.unique hmem hr hcont hv]

theorem Arranged.kindAt_eq (h : Arranged s p) (hr : r ∈ (s.vmproc p).regions)
    (hv : r.Contains v) : kindAt s (p, v) = some r.memtype := by
  rw [Region.kindAt, h.mapLookup_eq hr hv]
  rfl

structure Sound (M : Frame → Prop) (s : State) : Prop where
  kept : Kept (.idle M (kindAt s) none) s
  arranged : ∀ p, Arranged s p
  dead : ∀ p, ¬ Live s p → (s.vmproc p).regions = []

theorem Sound.covers (h : Sound M s) : Covers (.idle M (kindAt s) none) s :=
  fun p _ hr _ hv => (h.arranged p).kindAt_eq hr hv

/-- The slots of a region that is not inserted yet have its memory type. -/
def Extends (kind' kind : Slot → Option MemType) (p : ProcNr) (r : VirRegion) : Prop :=
  ∀ x, kind' x = if x.1 = p ∧ r.Contains x.2 then some r.memtype else kind x

/-! ## Loops over the pages of a region -/

theorem pbUnreferenced_physblocks {mt : MemType} (h : pbUnreferenced s parent mt x = some s') :
    s'.physblocks = update s.physblocks x none := by
  obtain ⟨s₁, h1, rfl⟩ := map_eq_some_iff.mp h
  simp only [State.setSlot, pbUnlink_physblocks h1]

/-- Nothing is on loan and no slot is in limbo. -/
structure Ghost.Plain (g : Ghost) : Prop where
  limbo : ∀ x, ¬ g.limbo x
  borrowed : ∀ b, ¬ g.borrowed b
  fresh : g.fresh = none

theorem Ghost.idle_plain : (idle M kind child).Plain := ⟨fun _ => id, fun _ => id, rfl⟩

theorem mapSubfree_quiet (h : mapSubfree s parent p r offset n = some s') (hk : Kept g s)
    (hg : g.Plain)
    (hkind : ∀ v, r.Contains v → (s.physblocks (p, v)).isSome → g.kind (p, v) = some r.memtype)
    (hp : Known g s parent) :
    Quiet s g s' ∧ (∀ k, offset ≤ k → k < offset + n → s'.physblocks (p, r.vaddr + k) = none) ∧
      ∀ y, (∀ k, offset ≤ k → k < offset + n → y ≠ (p, r.vaddr + k)) →
        s'.physblocks y = s.physblocks y := by
  induction n generalizing s offset with
  | zero =>
    cases h
    exact ⟨hk.quiet, fun k hlo hhi => by omega, fun _ _ => rfl⟩
  | succ n ih =>
    unfold mapSubfree at h
    split at h
    · cases h
    next hget =>
      obtain ⟨_, hnone, _⟩ := physblockGet_eq_some hget
      obtain ⟨hq, hgone, hrest⟩ := ih h hk hkind hp
      refine ⟨hq, fun k hlo hhi => ?_, fun y hy => hrest y fun k hlo hhi => hy k (by omega) (by omega)⟩
      by_cases hko : k = offset
      · subst hko
        rw [hrest _ fun k hlo hhi heq => ?_, hnone]
        simp only [Prod.mk.injEq, true_and] at heq
        lia
      · exact hgone k (by omega) (by omega)
    rename_i pr hget
    obtain ⟨hlt, hsome, _⟩ := physblockGet_eq_some hget
    split at h
    · cases h
    rename_i s₁ hun
    have hphys := pbUnreferenced_physblocks hun
    have hq1 := pbUnreferenced_quiet hun hk (hg.limbo _) hp
      (hkind _ (contains_add hlt) (by rw [hsome]; rfl)) (fun b _ => hg.borrowed b)
    obtain ⟨hq, hgone, hrest⟩ := ih h hq1.kept
      (fun v hv hv' => hkind v hv (by
        rw [hphys] at hv'
        by_cases hx : ((p, v) : Slot) = (p, r.vaddr + offset)
        · rw [hx, update_self] at hv'
          cases hv'
        · rwa [update_of_ne hx] at hv'))
      (hq1.evicted.known hp)
    refine ⟨hq1.trans hq, fun k hlo hhi => ?_, fun y hy => ?_⟩
    · by_cases hko : k = offset
      · subst hko
        rw [hrest _ fun k hlo hhi heq => ?_, hphys, update_self]
        simp only [Prod.mk.injEq, true_and] at heq
        lia
      · exact hgone k (by omega) (by omega)
    · rw [hrest y fun k hlo hhi => hy k (by omega) (by omega), hphys,
        update_of_ne (hy offset (Nat.le_refl _) (by omega))]

/-- The blocks without a frame are of pages of `r` from `lo` on. -/
def BareFrom (s : State) (p : ProcNr) (r : VirRegion) (lo : Nat) : Prop :=
  ∀ b pb, s.blocks b = some pb → pb.phys = none →
    ∃ k, lo ≤ k ∧ k < r.length ∧ (p, r.vaddr + k) ∈ pb.regions

theorem mapSubfree_bare (h : mapSubfree s parent p r offset n = some s') (hk : Kept g s)
    (hg : g.Plain)
    (hkind : ∀ v, r.Contains v → (s.physblocks (p, v)).isSome → g.kind (p, v) = some r.memtype)
    (hp : Known g s parent) (hbare : BareFrom s p r offset) : BareFrom s' p r (offset + n) := by
  induction n generalizing s offset with
  | zero =>
    cases h
    exact hbare
  | succ n ih =>
    rw [show offset + (n + 1) = offset + 1 + n by omega]
    unfold mapSubfree at h
    split at h
    · cases h
    next hget =>
      obtain ⟨_, hnone, _⟩ := physblockGet_eq_some hget
      refine ih h hk hkind hp fun b pb hb hphys => ?_
      obtain ⟨k, hlo, hhi, hmem⟩ := hbare b pb hb hphys
      refine ⟨k, ?_, hhi, hmem⟩
      rcases Nat.eq_or_lt_of_le hlo with rfl | hlt
      · have htarget := (hk.mem_regions hb).mp hmem
        rw [target_eq (hg.limbo _), hnone] at htarget
        cases htarget
      · exact hlt
    rename_i pr hget
    obtain ⟨hlt, hsome, _⟩ := physblockGet_eq_some hget
    split at h
    · cases h
    rename_i s₁ hun
    have hphys := pbUnreferenced_physblocks hun
    have hq1 := pbUnreferenced_quiet hun hk (hg.limbo _) hp
      (hkind _ (contains_add hlt) (by rw [hsome]; rfl)) (fun b _ => hg.borrowed b)
    refine ih h hq1.kept (fun v hv hv' => hkind v hv (by
        rw [hphys] at hv'
        by_cases hx : ((p, v) : Slot) = (p, r.vaddr + offset)
        · rw [hx, update_self] at hv'
          cases hv'
        · rwa [update_of_ne hx] at hv'))
      (hq1.evicted.known hp) fun b pb hb hnone => ?_
    have hne : b ≠ pr.ph := by
      rintro rfl
      exact pbUnreferenced_forget hun hk hsome pb hb hnone
    have hb' : s.blocks b = some pb := by
      obtain ⟨s₂, h2, rfl⟩ := map_eq_some_iff.mp hun
      obtain ⟨pr', pb', hpr', hpb', _⟩ := pbUnlink_cases h2
      rw [hsome, some.injEq] at hpr'
      subst hpr'
      rw [State.setSlot, pbUnlink_blocks h2 hsome hpb', update_of_ne hne] at hb
      exact hb
    obtain ⟨k, hlo, hhi, hmem⟩ := hbare b pb hb' hnone
    refine ⟨k, ?_, hhi, hmem⟩
    rcases Nat.eq_or_lt_of_le hlo with rfl | hlt'
    · have htarget := (hk.mem_regions hb').mp hmem
      rw [target_eq (hg.limbo _), hsome] at htarget
      cases htarget
      exact absurd rfl hne
    · exact hlt'

theorem mapHandleMemory_quiet (h : mapHandleMemory s p r write offset n = some (e, s'))
    (hk : Kept (.idle M kind child) s) (hcov : Covers (.idle M kind child) s)
    (hkind : ∀ v, r.Contains v → kind (p, v) = some r.memtype) (hlen : offset + n ≤ r.length)
    (hp : Known (.idle M kind child) s p) (h64 : r.phys64k = false) (hshared : r.memtype ≠ .shared)
    (hwrite : write = true) : Quiet s (.idle M kind child) s' := by
  induction n generalizing s offset with
  | zero =>
    cases h
    exact hk.quiet
  | succ n ih =>
    have hpf : ∀ {e' : Status} {s₁ : State}, mapPf s p r offset write = some (e', s₁) →
        Quiet s (.idle M kind child) s₁ := by
      intro e' s₁ h1
      refine mapPf_quiet h1 hk (fun _ => id) rfl (fun _ => id) hcov
        (hkind _ (contains_add (by omega))) hp (fun _ _ => id)
        ⟨fun _ => .inl h64, fun _ => .inl hwrite, ?_⟩
      intro _ q src hget
      exact absurd (getsrc_spec hget).1 hshared
    unfold mapHandleMemory at h
    split at h
    · cases h
    next s₁ h1 =>
      have hq := hpf h1
      have hcov1 : Covers (.idle M kind child) s₁ := fun q r' hr' => hcov q r' (hq.regions q ▸ hr')
      exact hq.trans (ih h hq.kept hcov1 (by omega) (hq.evicted.known hp))
    next e' s₁ hne h1 =>
      cases h
      exact hpf h1

/-! ## Regions -/

/-- What a part of a request leaves behind, if it moves no region. -/
structure Steady (s : State) (g : Ghost) (s' : State) : Prop extends Leaves s g s' where
  shapes : SameShapes s s'

theorem Quiet.steady (h : Quiet s g s') : Steady s g s' := ⟨h.toLeaves, SameShapes.of_eq h.regions⟩

theorem Steady.trans (h : Steady s g s₁) (h' : Steady s₁ g' s') : Steady s g' s' :=
  ⟨h.toLeaves.trans h'.toLeaves, h.shapes.trans h'.shapes⟩

theorem setRegions_leaves (hk : Kept g s) (p : ProcNr) (l : List VirRegion) :
    Leaves s g (setRegions s p l) := by
  have hsame : ∀ q, (setRegions s p l).vmproc q =
      { s.vmproc q with regions := ((setRegions s p l).vmproc q).regions } := by
    intro q
    by_cases hq : q = p
    · subst hq
      simp [setRegions, State.setVmproc]
    · simp [setRegions, State.setVmproc, hq]
  refine Leaves.of_same (hk.congr ⟨rfl, rfl, SameNodes.refl _, rfl, rfl, fun q => ?_⟩
    fun _ => Iff.rfl) ⟨rfl, fun q => ?_, fun q => ?_, fun q => ?_, rfl, fun q _ => ?_⟩ rfl
  · rw [hsame q]
    exact ⟨rfl, rfl, rfl⟩
  all_goals rw [hsame q]

theorem setRegions_self (s : State) (p : ProcNr) (l : List VirRegion) :
    ((setRegions s p l).vmproc p).regions = l := by
  simp [setRegions, State.setVmproc]

theorem setRegions_of_ne (s : State) (h : q ≠ p) (l : List VirRegion) :
    (setRegions s p l).vmproc q = s.vmproc q := by
  simp [setRegions, State.setVmproc, h]

theorem modifyRegion_leaves (hk : Kept g s) (p : ProcNr) (vaddr : Page)
    (f : VirRegion → VirRegion) : Leaves s g (modifyRegion s p vaddr f) :=
  setRegions_leaves hk p _

theorem modifyRegion_steady (hk : Kept g s) (p : ProcNr) (vaddr : Page)
    {f : VirRegion → VirRegion} (hf : ∀ r, (f r).shape = r.shape) :
    Steady s g (modifyRegion s p vaddr f) := by
  refine ⟨modifyRegion_leaves hk p vaddr f, fun q => ?_⟩
  by_cases hq : q = p
  · subst hq
    unfold modifyRegion
    rw [setRegions_self, List.map_map]
    refine List.map_congr_left fun r _ => ?_
    simp only [comp]
    split
    · exact hf r
    · rfl
  · unfold modifyRegion
    rw [setRegions_of_ne s hq]

theorem regionNew_spec {o : Option VirRegion} (h : regionNew s r = some (o, s')) (hk : Kept g s) :
    Quiet s g s' ∧ s'.physblocks = s.physblocks ∧ s'.blocks = s.blocks ∧
      ∀ r', o = some r' → r' = { r with remaps := 0, id := s.nextId, source := none } := by
  have hsame : ∀ (tape : List Choice) (id : Nat), Quiet s g { s with tape := tape, nextId := id } :=
    fun tape id => Kept.quiet_of (hk.congr ⟨rfl, rfl, SameNodes.refl _, rfl, rfl,
      fun _ => ⟨rfl, rfl, rfl⟩⟩ fun _ => Iff.rfl) rfl rfl rfl rfl
  unfold regionNew slabAlloc at h
  split at h
  · cases h
  next s₁ h1 =>
    split at h1 <;> cases h1
    cases h
    exact ⟨hsame _ _, rfl, rfl, nofun⟩
  rename_i s₁ h1
  split at h1 <;> cases h1
  simp only at h
  split at h
  · cases h
  next s₂ h2 =>
    split at h2 <;> cases h2
    cases h
    exact ⟨hsame _ _, rfl, rfl, nofun⟩
  rename_i s₂ h2
  split at h2 <;> cases h2
  cases h
  exact ⟨hsame _ _, rfl, rfl, fun r' hr' => (some.inj hr').symm⟩

theorem sharedDelete_steady (h : sharedDelete s r = some s') (hk : Kept g s) :
    Steady s g s' ∧ s'.physblocks = s.physblocks ∧ s'.blocks = s.blocks := by
  unfold sharedDelete at h
  split at h
  · cases h
    exact ⟨hk.quiet.steady, rfl, rfl⟩
  · split at h
    · cases h
    · cases h
      exact ⟨modifyRegion_steady hk _ _ fun _ => rfl, rfl, rfl⟩

theorem sharedSetsource_steady {ep : Endpoint} {r' : VirRegion}
    (h : sharedSetsource s r ep src = some (r', s')) (hk : Kept g s) :
    Steady s g s' ∧ s'.physblocks = s.physblocks ∧ s'.blocks = s.blocks ∧ r'.shape = r.shape := by
  unfold sharedSetsource at h
  simp only at h
  split at h
  · cases h
    exact ⟨hk.quiet.steady, rfl, rfl, rfl⟩
  · split at h
    · cases h
    · cases h
      exact ⟨modifyRegion_steady hk _ _ fun _ => rfl, rfl, rfl, rfl⟩

theorem mapFree_steady (h : mapFree s parent p r = some s') (hk : Kept g s) (hg : g.Plain)
    (hkind : ∀ v, r.Contains v → (s.physblocks (p, v)).isSome → g.kind (p, v) = some r.memtype)
    (hp : Known g s parent) :
    Steady s g s' ∧ (∀ v, r.Contains v → s'.physblocks (p, v) = none) ∧
      (∀ y, (y.1 = p → ¬ r.Contains y.2) → s'.physblocks y = s.physblocks y) ∧
      (BareFrom s p r 0 → ∀ b pb, s'.blocks b = some pb → pb.phys ≠ none) := by
  unfold mapFree at h
  split at h
  · cases h
  rename_i s₁ h1
  obtain ⟨hq, hgone, hrest⟩ := mapSubfree_quiet h1 hk hg hkind hp
  have hlast : Steady s₁ g s' ∧ s'.physblocks = s₁.physblocks ∧ s'.blocks = s₁.blocks := by
    split at h
    · exact sharedDelete_steady h hq.kept
    · cases h
      exact ⟨hq.kept.quiet.steady, rfl, rfl⟩
  obtain ⟨hs, hphys, hblocks⟩ := hlast
  refine ⟨hq.steady.trans hs, fun v hv => ?_, fun y hy => ?_, fun hbare b pb hb hnone => ?_⟩
  · have := hgone (v - r.vaddr) (Nat.zero_le _) (by unfold VirRegion.Contains at hv; lia)
    rwa [show r.vaddr + (v - r.vaddr) = v by unfold VirRegion.Contains at hv; lia, ← hphys] at this
  · rw [hphys]
    refine hrest y fun k _ hk' => ?_
    rintro rfl
    exact hy rfl (contains_add (by omega))
  · obtain ⟨k, hlo, hhi, _⟩ := mapSubfree_bare h1 hk hg hkind hp hbare b pb (hblocks ▸ hb) hnone
    omega

/-! ## Contiguous memory -/

/-- Blocks are made before the memory is there, and `hand` is the memory that is left. -/
def Ghost.contig (M : Frame → Prop) (kind : Slot → Option MemType) (hand : Frame → Prop) :
    Ghost :=
  { idle M kind none with bare := fun _ => True, hand := hand }

theorem Ghost.contig_plain {hand : Frame → Prop} : (contig M kind hand).Plain :=
  ⟨fun _ => id, fun _ => id, rfl⟩

theorem Ghost.contig_noteBare {hand : Frame → Prop} :
    (contig M kind hand).noteBare b = contig M kind hand := by
  ext <;> simp [contig, noteBare]

theorem Kept.of_contig (hk : Kept (.contig M kind fun _ => False) s)
    (hb : ∀ b pb, s.blocks b = some pb → pb.phys ≠ none) : Kept (.idle M kind none) s :=
  hk.settle (fun _ => False) fun b pb hpb hnone => hb b pb hpb hnone

theorem Kept.contig (hk : Kept (.idle M kind none) s) : Kept (.contig M kind fun _ => False) s :=
  hk.settle _ fun _ _ _ _ => trivial

theorem contigBlocks_succ (hnone : s.physblocks (p, r.vaddr + offset) = none)
    (hlt : offset < r.length) :
    contigBlocks s p r offset (n + 1) = match mapPfBlock s p r offset with
      | none => none
      | some (none, s) => some (false, s)
      | some (some _, s) => contigBlocks s p r (offset + 1) n := by
  have hget : physblockGet s p r offset = some none := by
    unfold physblockGet
    rw [if_pos hlt, hnone]
  conv_lhs => unfold contigBlocks
  unfold mapPfBlock
  rw [hget]
  simp only
  cases pbNew s none with
  | none => rfl
  | some w =>
    obtain ⟨o, s₁⟩ := w
    cases o with
    | none => rfl
    | some b =>
      simp only
      cases pbReference s₁ (p, r.vaddr + offset) b offset with
      | none => rfl
      | some w =>
        obtain ⟨t, s₂⟩ := w
        cases t with
        | true => rfl
        | false =>
          simp only
          cases pbFree s₂ b <;> rfl

theorem contigBlocks_quiet {w : Bool} (h : contigBlocks s p r offset n = some (w, s'))
    (hk : Kept (.contig M kind fun _ => False) s)
    (hkind : ∀ v, r.Contains v → kind (p, v) = some r.memtype)
    (hslots : ∀ k, offset ≤ k → k < offset + n → s.physblocks (p, r.vaddr + k) = none)
    (hlen : offset + n ≤ r.length) (hbare : BareFrom s p r 0) :
    Quiet s (.contig M kind fun _ => False) s' ∧ BareFrom s' p r 0 ∧
      ∀ y, (y.1 = p → ¬ r.Contains y.2) → s'.physblocks y = s.physblocks y := by
  induction n generalizing s offset with
  | zero =>
    cases h
    exact ⟨hk.quiet, hbare, fun _ _ => rfl⟩
  | succ n ih =>
    have hlt : offset < r.length := by omega
    have hnone := hslots offset (Nat.le_refl _) (by omega)
    rw [contigBlocks_succ hnone hlt] at h
    have hmem : r.Contains (r.vaddr + offset) := contains_add hlt
    split at h
    · cases h
    next s₁ hblock =>
      cases h
      obtain ⟨hfail, _⟩ := mapPfBlock_quiet hblock hk id rfl
        (by rw [show (contig M kind _).kind = kind from rfl, hkind _ hmem]; rfl)
      obtain ⟨hq, hphys, hblocks, _⟩ := hfail rfl
      exact ⟨hq, fun c pc hc hn => hbare c pc (hblocks ▸ hc) hn, fun y _ => congrFun hphys y⟩
    rename_i pr s₁ hblock
    obtain ⟨_, hok⟩ := mapPfBlock_quiet hblock hk id rfl
      (by rw [show (contig M kind _).kind = kind from rfl, hkind _ hmem]; rfl)
    obtain ⟨hq, _, _, hcase⟩ := hok pr rfl
    rw [contig_noteBare] at hq
    rcases hcase with ⟨_, hsome⟩ | ⟨_, hb, _, hphys, hblocks, _⟩
    · rw [hnone] at hsome
      cases hsome
    obtain ⟨hq', hbare', hrest⟩ := ih h hq.kept (fun k hlo hhi => by
        rw [hphys, update_of_ne fun heq => ?_]
        · exact hslots k (by omega) (by omega)
        · simp only [Prod.mk.injEq, true_and] at heq
          lia) (by omega) (fun c pc hc hn => by
        by_cases hcb : c = pr.ph
        · subst hcb
          rw [hb, some.injEq] at hc
          exact ⟨offset, Nat.zero_le _, hlt, by rw [← hc]; exact List.mem_singleton_self _⟩
        · exact hbare c pc (hblocks c hcb ▸ hc) hn)
    refine ⟨hq.trans hq', hbare', fun y hy => ?_⟩
    rw [hrest y hy, hphys, update_of_ne]
    rintro rfl
    exact hy rfl hmem

theorem contigSet_quiet {base : Frame} (h : contigSet s p r base offset n = some s')
    (hk : Kept (.contig M kind fun f => base + offset ≤ f ∧ f < base + r.length) s)
    (hkind : ∀ v, r.Contains v → kind (p, v) = some .anonContig)
    (hlen : offset + n = r.length) (hbare : BareFrom s p r offset) :
    Quiet s (.idle M kind none) s' ∧ s'.physblocks = s.physblocks := by
  induction n generalizing s offset with
  | zero =>
    cases h
    have hhand : (fun f => base + offset ≤ f ∧ f < base + r.length) = fun _ => False := by
      funext f
      apply propext
      simp only [iff_false, not_and]
      lia
    rw [hhand] at hk
    refine ⟨hk.quiet.settled (hk.of_contig fun b pb hb hn => ?_), rfl⟩
    obtain ⟨k, hlo, hhi, _⟩ := hbare b pb hb hn
    omega
  | succ n ih =>
    unfold contigSet at h
    split at h
    · cases h
    rename_i pr hpr
    split at h
    next refcount regions hb =>
      have htarget : target (.contig M kind fun f => base + offset ≤ f ∧ f < base + r.length) s
          (p, r.vaddr + offset) = some pr.ph := by
        rw [target_eq (by exact id), hpr]
        rfl
      have hmem : (p, r.vaddr + offset) ∈ regions := (hk.mem_regions hb).mpr htarget
      have hnd : ¬ Direct kind regions := by
        intro hd
        have hkd : kind (p, r.vaddr + offset) = some .directphys := (hk.direct_iff hb hmem).mp hd
        rw [hkind _ (contains_add (by omega))] at hkd
        cases hkd
      have hq := setPhys_hand_quiet (f := base + offset) hk hb rfl
        ⟨Nat.le_refl _, Nat.add_lt_add_left (by omega) base⟩ hnd
      have hghost : Kept (.contig M kind fun f => base + (offset + 1) ≤ f ∧ f < base + r.length)
          (s.setBlock pr.ph (some ⟨some (base + offset), refcount, regions⟩)) := by
        have hkept := hq.kept.settle (fun _ => True) fun _ _ _ _ => trivial
        have heq : (fun f => (base + offset ≤ f ∧ f < base + r.length) ∧ f ≠ base + offset) =
            fun f => base + (offset + 1) ≤ f ∧ f < base + r.length := by
          funext f
          apply propext
          lia
        unfold contig at hkept ⊢
        rw [← heq]
        exact hkept
      have hq' := hq.settled hghost
      obtain ⟨hq'', hphys⟩ := ih h hghost (by omega) fun c pc hc hn => by
        by_cases hcb : c = pr.ph
        · subst hcb
          rw [setBlock_self, some.injEq] at hc
          rw [← hc] at hn
          cases hn
        rw [setBlock_of_ne _ hcb] at hc
        obtain ⟨k, hlo, hhi, hin⟩ := hbare c pc hc hn
        refine ⟨k, ?_, hhi, hin⟩
        rcases Nat.eq_or_lt_of_le hlo with rfl | hlt
        · have hother := (hk.mem_regions hc).mp hin
          rw [htarget, some.injEq] at hother
          exact absurd hother.symm hcb
        · exact hlt
      exact ⟨hq'.trans hq'', hphys⟩
    next => cases h

theorem anonContigNew_steady {w : Bool} (h : anonContigNew s p r = some (w, s'))
    (hk : Kept (.idle M kind none) s)
    (hkind : ∀ v, r.Contains v → kind (p, v) = some .anonContig) (hmt : r.memtype = .anonContig)
    (hslots : ∀ v, r.Contains v → s.physblocks (p, v) = none) (h64 : r.phys64k = false)
    (hp : Live s p) :
    Steady s (.idle M kind none) s' ∧
      (∀ y, (y.1 = p → ¬ r.Contains y.2) → s'.physblocks y = s.physblocks y) ∧
      (w = false → ∀ v, r.Contains v → s'.physblocks (p, v) = none) := by
  have hkind' : ∀ v, r.Contains v → kind (p, v) = some r.memtype := fun v hv => hmt ▸ hkind v hv
  have hbare : BareFrom s p r 0 := fun b pb hb hn => absurd (hk.bare hb hn).1 id
  -- the region is freed again
  have hfree : ∀ {s₁ s₂ : State}, Quiet s (.contig M kind fun _ => False) s₁ → BareFrom s₁ p r 0 →
      (∀ y, (y.1 = p → ¬ r.Contains y.2) → s₁.physblocks y = s.physblocks y) →
      mapFree s₁ p p r = some s₂ → Steady s (.idle M kind none) s₂ ∧
        (∀ y, (y.1 = p → ¬ r.Contains y.2) → s₂.physblocks y = s.physblocks y) ∧
        ∀ v, r.Contains v → s₂.physblocks (p, v) = none := by
    intro s₁ s₂ hq hbare1 hrest h2
    obtain ⟨hs, hgone, hrest', hnobare⟩ := mapFree_steady h2 hq.kept contig_plain
      (fun v hv _ => hkind' v hv) (hq.evicted.live.mpr hp).known
    have hs' := hq.steady.trans hs
    exact ⟨⟨⟨hs.kept.of_contig (hnobare hbare1), hs'.evicted, hs'.bytes⟩, hs'.shapes⟩,
      fun y hy => (hrest' y hy).trans (hrest y hy), hgone⟩
  unfold anonContigNew at h
  split at h
  · cases h
  next s₁ h1 =>
    obtain ⟨s₂, h2, heq⟩ := map_eq_some_iff.mp h
    cases heq
    obtain ⟨hq, hbare1, hrest⟩ := contigBlocks_quiet h1 hk.contig hkind'
      (fun k _ hk' => hslots _ (contains_add (by omega))) (by omega) hbare
    obtain ⟨hs, hrest2, hgone⟩ := hfree (hq.settled hq.kept) hbare1 hrest h2
    exact ⟨hs, hrest2, fun _ => hgone⟩
  rename_i s₁ h1
  obtain ⟨hq, hbare1, hrest⟩ := contigBlocks_quiet h1 hk.contig hkind'
    (fun k _ hk' => hslots _ (contains_add (by omega))) (by omega) hbare
  rw [h64] at h
  split at h
  · cases h
  next s₂ halloc =>
    obtain ⟨s3, h3, heq⟩ := map_eq_some_iff.mp h
    cases heq
    obtain ⟨hsame, hq2⟩ := allocMem_quiet halloc hq.kept
    obtain ⟨hs, hrest2, hgone⟩ := hfree (hq.trans hq2)
      (fun b pb hb => hbare1 b pb (hsame.blocks ▸ hb))
      (fun y hy => (congrFun hsame.physblocks y).trans (hrest y hy)) h3
    exact ⟨hs, hrest2, fun _ => hgone⟩
  rename_i base s₂ halloc
  obtain ⟨s3, h3, heq⟩ := map_eq_some_iff.mp h
  cases heq
  obtain ⟨hsame, hq2, _⟩ := allocMem_quiet halloc hq.kept
  have hghost : Kept (.contig M kind fun f => base + 0 ≤ f ∧ f < base + r.length) s₂ := by
    have heq : (fun f => False ∨ (base ≤ f ∧ f < base + r.length)) =
        fun f => base + 0 ≤ f ∧ f < base + r.length := by
      funext f
      simp
    rw [← heq]
    exact hq2.kept
  obtain ⟨hq3, hphys⟩ := contigSet_quiet h3 hghost hkind (by omega)
    fun b pb hb => hbare1 b pb (hsame.blocks ▸ hb)
  refine ⟨(hq.trans (hq2.trans hq3)).steady, fun y hy => ?_, nofun⟩
  rw [hphys, hsame.physblocks]
  exact hrest y hy

end HardenedMinix.Region
