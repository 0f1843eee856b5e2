import HardenedMinix.Vm.OwnershipRequests

/-!
# Fork and exit keep the owners of frames

A process that is being forked has page tables and pages before the kernel knows it; one that
exits gives back all it has.
-/

open Function List Option

namespace HardenedMinix.Region

open Lib VirRegion State

variable {g g' : Ghost} {s s' s₁ s₂ : State} {p q src dst : ProcNr} {x y : Slot} {b c : PbPtr}
  {f : Frame} {pb : PhysBlock} {pr : PhysRegion} {r r' : VirRegion} {v : Page} {e : Status}
  {offset n : Nat} {M : Frame → Prop} {kind : Slot → Option MemType} {child : Option ProcNr}

/-! ## All regions of a process are freed -/

/-- The regions of other processes stay where they are. -/
def SameShapesBut (p : ProcNr) (s s' : State) : Prop :=
  ∀ q, q ≠ p → (s'.vmproc q).regions.map shape =
    (s.vmproc q).regions.map shape

theorem SameShapes.but (h : SameShapes s s') : SameShapesBut p s s' := fun q _ => h q

theorem SameShapesBut.trans (h : SameShapesBut p s s₁) (h' : SameShapesBut p s₁ s') :
    SameShapesBut p s s' := fun q hq => (h' q hq).trans (h q hq)

theorem sameShapesBut_setRegions (s : State) (p : ProcNr) (l : List VirRegion) :
    SameShapesBut p s (setRegions s p l) := fun q hq => by rw [setRegions_of_ne s hq]

theorem mapFreeRegions_leaves {l : List VirRegion} (h : mapFreeRegions s p l = some s')
    (hk : Kept g s) (hg : g.Plain)
    (hkind : ∀ r ∈ l, ∀ v, r.Contains v → g.kind (p, v) = some r.memtype) (hp : Known g s p) :
    Leaves s g s' ∧ SameShapesBut p s s' ∧
      (∀ r ∈ l, ∀ v, r.Contains v → s'.physblocks (p, v) = none) ∧
      (∀ y, y.1 ≠ p → s'.physblocks y = s.physblocks y) ∧
      ∀ y, s.physblocks y = none → s'.physblocks y = none := by
  induction l generalizing s with
  | nil =>
    cases h
    exact ⟨hk.leaves, fun _ _ => rfl, nofun, fun _ _ => rfl, fun _ => id⟩
  | cons r l ih =>
    unfold mapFreeRegions at h
    split at h
    · cases h
    rename_i s₁ h1
    have hrem := setRegions_leaves hk p ((s.vmproc p).regions.filter fun r0 =>
      decide (r0.vaddr ≠ r.vaddr))
    obtain ⟨hst, hgone, hrest, _⟩ := mapFree_steady h1 hrem.kept hg
      (fun v hv _ => hkind r (mem_cons_self ..) v hv) (hrem.evicted.known hp)
    have hl := hrem.trans hst.toLeaves
    obtain ⟨hl', hsh, hgone', hrest', hnone⟩ := ih h hst.kept
      (fun r' hr' => hkind r' (mem_cons_of_mem _ hr')) (hl.evicted.known hp)
    have hphys : ∀ y, (regionRemove s p r.vaddr).physblocks y = s.physblocks y := fun _ => rfl
    refine ⟨hl.trans hl', ((sameShapesBut_setRegions s p _).trans hst.shapes.but).trans hsh,
      fun r' hr' v hv => ?_, fun y hy => ?_, fun y hy => ?_⟩
    · rcases mem_cons.mp hr' with rfl | hr'
      · exact hnone _ (hgone v hv)
      · exact hgone' r' hr' v hv
    · rw [hrest' y hy, hrest y fun hp' => absurd hp' hy, hphys]
    apply hnone
    by_cases hy' : y.1 = p ∧ r.Contains y.2
    · obtain ⟨q, v⟩ := y
      obtain ⟨rfl, hv⟩ := hy'
      exact hgone v hv
    · rw [hrest y fun hp' hv => hy' ⟨hp', hv⟩, hphys, hy]

theorem mapFreeProc_leaves (h : mapFreeProc s p = some s') (hk : Kept g s) (hg : g.Plain)
    (hkind : ∀ r ∈ (s.vmproc p).regions, ∀ v, r.Contains v → g.kind (p, v) = some r.memtype)
    (hin : ∀ v, (s.physblocks (p, v)).isSome → ∃ r ∈ (s.vmproc p).regions, r.Contains v)
    (hp : Known g s p) :
    Leaves s g s' ∧ SameShapesBut p s s' ∧ (s'.vmproc p).regions = [] ∧
      (∀ v, s'.physblocks (p, v) = none) ∧ ∀ y, y.1 ≠ p → s'.physblocks y = s.physblocks y := by
  unfold mapFreeProc at h
  split at h
  · cases h
  rename_i s₁ h1
  obtain ⟨hl, hsh, hgone, hrest, hnone⟩ := mapFreeRegions_leaves h1 hk hg hkind hp
  have hset := setRegions_leaves hl.kept p []
  obtain ⟨hq, hsame⟩ := freeYieldedTrees_quiet h hset.kept
  refine ⟨(hl.trans hset).trans hq.toLeaves,
    (hsh.trans (sameShapesBut_setRegions s₁ p [])).trans (SameShapes.of_eq hq.regions).but, ?_,
    fun v => ?_, fun y hy => ?_⟩
  · rw [hq.regions p, setRegions_self]
  · rw [hsame.physblocks]
    show s₁.physblocks (p, v) = none
    by_cases hsome : (s.physblocks (p, v)).isSome
    · obtain ⟨r, hr, hv⟩ := hin v hsome
      exact hgone r hr v hv
    · exact hnone _ (by simpa using hsome)
  · rw [hsame.physblocks]
    exact hrest y hy

theorem ptFree_leaves (hk : Kept g s) (hchild : ∀ q, g.child = some q → q = p) :
    Leaves s { g with child := none } (ptFree s p) ∧
      ∀ pde, (ptFree s p).ptPages (p, pde) = none := by
  refine ⟨Leaves.of_same ?_ (.of_eq rfl rfl rfl) rfl, fun pde => if_pos rfl⟩
  exact {
    refs := hk.refs
    count := hk.count
    used := hk.used
    bare := hk.bare
    lent := hk.lent
    kinds := hk.kinds
    uniform := hk.uniform
    pages := hk.pages
    tables := by
      intro q pde hpt
      by_cases hq : q = p
      · exact absurd (if_pos hq) hpt
      have hold : s.ptPages (q, pde) ≠ none := by
        simpa [ptFree, hq] using hpt
      rcases hk.tables hold with hlive | hc
      · exact .inl hlive
      · exact absurd (hchild q hc) hq
    frames := by
      apply hk.frames.dropAll (fun o => ∃ pde, o = .pageTable p pde)
      · intro f
        simp only [ptFree, Bool.or_eq_true, decide_eq_true_eq]
        rw [or_comm]
        apply or_congr_right
        constructor
        · rintro ⟨i, hi⟩
          exact ⟨_, ⟨i, rfl⟩, hi⟩
        · rintro ⟨_, ⟨i, rfl⟩, hi⟩
          exact ⟨i, hi⟩
      intro o f
      cases o with
      | pageTable q pde =>
        by_cases hq : q = p
        · subst hq
          simp [Holds, ptFree]
        · simp [Holds, ptFree, hq]
      | _ => simp [Holds, ptFree, Live] }

/-! ## Exit -/

theorem Kept.setDead (hk : Kept g s) {x : VmProc} (hx : x.inuse = false ∨ x.endpoint = none)
    (hpt : ∀ pde, s.ptPages (p, pde) = none) (hl : Live s p → (s.vmproc p).lus1Us2 = []) :
    Kept g (s.setVmproc p x) := by
  have hlive : ∀ q, Live (s.setVmproc p x) q ↔ Live s q ∧ q ≠ p := by
    intro q
    by_cases hq : q = p
    · subst hq
      simp only [Live, setVmproc, update_self, ne_eq, not_true_eq_false, and_false,
        iff_false, not_and]
      intro hu
      rcases hx with hx | hx
      · rw [hx] at hu
        cases hu
      · simp [hx]
    · simp [Live, setVmproc, hq]
  exact {
    refs := hk.refs
    count := hk.count
    used := hk.used
    bare := hk.bare
    lent := hk.lent
    kinds := hk.kinds
    uniform := hk.uniform
    pages := fun q hq => by
      obtain ⟨hlive', hqp⟩ := (hlive q).mp hq
      simpa [setVmproc, hqp] using hk.pages q hlive'
    tables := by
      intro q pde hne
      have hqp : q ≠ p := by
        rintro rfl
        exact hne (hpt pde)
      rw [hlive q]
      exact (hk.tables hne).imp_left fun h => ⟨h, hqp⟩
    frames := by
      apply hk.frames.congr (fun _ => Iff.rfl) (fun _ => Iff.rfl)
      intro o f
      cases o with
      | hardening q v what =>
        simp only [Holds, hlive]
        by_cases hqp : q = p
        · subst hqp
          simp only [ne_eq, not_true_eq_false, and_false, false_and, false_iff, not_and]
          intro hq
          rw [hl hq]
          simp
        · simp [setVmproc, hqp]
      | _ => exact Iff.rfl }

theorem freePramMemBlocks_quiet (hk : Kept g s) (hp : Live s p) :
    Quiet s g (freePramMemBlocks s p) := by
  have h := freePmbs_quiet (x := { s.vmproc p with lus1Us2 := [] }) hk hp (fun _ => True)
    ⟨rfl, rfl, rfl, rfl⟩ (by simp)
  have hall : ((s.vmproc p).lus1Us2.filter fun _ => decide True) = (s.vmproc p).lus1Us2 := by
    simp
  rw [hall] at h
  exact h

theorem doExit_cases (h : doExit s p = some (e, s')) (hs : Sound M s) (hp : Live s p) :
    ∃ s₁, s' = clearProc s₁ p ∧ Leaves s (.idle M (kindAt s) none) s₁ ∧ SameShapesBut p s s₁ ∧
      (∀ v, s₁.physblocks (p, v) = none) ∧
      (∀ y, y.1 ≠ p → s₁.physblocks y = s.physblocks y) ∧ ∀ pde, s₁.ptPages (p, pde) = none := by
  unfold doExit at h
  split at h
  · cases h
  rename_i s₂ h2
  cases h
  obtain ⟨hl, hsh, _, hgone, hrest⟩ := mapFreeProc_leaves h2 hs.kept Ghost.idle_plain
    (fun r hr v hv => (hs.arranged p).kindAt_eq hr hv) (fun v => hs.exists_region) hp.known
  obtain ⟨hpt, hnone⟩ := ptFree_leaves (p := p) hl.kept nofun
  exact ⟨ptFree s₂ p, rfl, hl.trans hpt, hsh, hgone, hrest, hnone⟩

theorem doExit_sound (h : doExit s p = some (e, s')) (hs : Sound M s) (hp : Live s p) :
    Sound M s' := by
  obtain ⟨s₁, rfl, hl, hsh, hgone, hrest, hpt⟩ := doExit_cases h hs hp
  have hp1 : Live s₁ p := hl.evicted.live.mpr hp
  have hq := freePramMemBlocks_quiet hl.kept hp1
  have hk := hq.kept.setDead (p := p) (x := { (freePramMemBlocks s₁ p).vmproc p with
    inuse := false, regions := [], yielded := 0 }) (.inl rfl) hpt
    (fun _ => by simp [freePramMemBlocks, setVmproc])
  have hreg : ∀ q, q ≠ p → ((clearProc s₁ p).vmproc q).regions.map shape =
      (s.vmproc q).regions.map shape := by
    intro q hq'
    rw [← hsh q hq', ← hq.regions q]
    simp [clearProc, setVmproc, hq']
  have hnil : ((clearProc s₁ p).vmproc p).regions = [] := by simp [clearProc, setVmproc]
  have hkept : Kept (.idle M (kindAt s) none) (clearProc s₁ p) := hk
  refine ⟨hkept.retarget fun x hx => ?_, fun q => ?_, fun q hq' => ?_⟩
  · obtain ⟨q, v⟩ := x
    have hqp : q ≠ p := by
      rintro rfl
      rw [show (clearProc s₁ q).physblocks (q, v) = none from hgone v] at hx
      cases hx
    rw [kindAt_eq, kindAt_eq, hreg q hqp]
  · by_cases hqp : q = p
    · subst hqp
      refine ⟨?_, ?_⟩ <;> rw [hnil]
      · exact List.Pairwise.nil
      · intro x h
        cases h
    · exact (hs.arranged q).congr (hreg q hqp)
  by_cases hqp : q = p
  · exact hqp ▸ hnil
  have hdead : ¬ Live s q := by
    intro hlive
    apply hq'
    have := (hl.trans hq.toLeaves).evicted.live.mpr hlive
    simpa [clearProc, setVmproc, Live, hqp] using this
  have := hreg q hqp
  rw [hs.dead q hdead] at this
  exact map_eq_nil_iff.mp this

/-! ## The page directory of a child -/

theorem Kept.adopt (hk : Kept (.idle M kind none) s) (p : ProcNr) :
    Kept (.idle M kind (some p)) s :=
  { hk with
    tables := fun hpt => (hk.tables hpt).imp_right nofun
    frames := hk.frames.congr (fun _ => Iff.rfl) (fun _ => Iff.rfl) fun o f => by
      cases o <;> exact Iff.rfl }

theorem Kept.disown (hk : Kept (.idle M kind (some p)) s)
    (hpt : Live s p ∨ ∀ pde, s.ptPages (p, pde) = none) : Kept (.idle M kind none) s :=
  { hk with
    tables := by
      intro q pde hne
      rcases hk.tables hne with hlive | hc
      · exact .inl hlive
      · cases some.inj hc
        exact .inl (hpt.resolve_right fun hnone => hne (hnone pde))
    frames := hk.frames.congr (fun _ => Iff.rfl) (fun _ => Iff.rfl) fun o f => by
      cases o <;> exact Iff.rfl }

theorem clearPtDir_quiet (hk : Kept g s) (hpt : ∀ pde, s.ptPages (p, pde) = none) :
    Quiet s g (clearPtDir s p) := by
  have heq : (fun x : ProcNr × Fin 1024 => if x.1 = p then none else s.ptPages x) = s.ptPages := by
    funext ⟨q, pde⟩
    split
    next hq =>
      have hqp : q = p := hq
      rw [hqp, hpt pde]
    next => rfl
  unfold clearPtDir
  rw [heq]
  exact setPt_quiet hk _

theorem setPtDir_quiet (hk : Kept (g.take f 1) s) (hf : ¬ g.hand f) (hnone : s.ptDir p = none) :
    Quiet s g { s with ptDir := update s.ptDir p (some f) } := by
  refine Kept.quiet_of ?_ rfl rfl rfl rfl
  refine hk.moved g.hand rfl rfl hk.pages hk.tables ?_
  apply hk.frames.give (o := .pageDir p) (S := fun k => k = f)
  · rintro k rfl
    exact .inr ⟨Nat.le_refl _, Nat.lt_succ_self _⟩
  · exact fun k => (Ghost.take_one_hand hf k).symm
  intro o k
  cases o with
  | pageDir q =>
    simp only [Holds, Owner.pageDir.injEq]
    by_cases hqp : q = p
    · subst hqp
      simp [hnone, eq_comm]
    · rw [update_of_ne hqp]
      simp [hqp]
  | _ => simp [Holds, Ghost.take, Live]

theorem ptNew_quiet (h : ptNew s p = some (e, s')) (hk : Kept g s)
    (hpt : ∀ pde, s.ptPages (p, pde) = none) :
    Quiet s g s' ∧ s'.physblocks = s.physblocks ∧ s'.blocks = s.blocks ∧
      ∀ pde, s'.ptPages (p, pde) = none := by
  unfold ptNew at h
  split at h
  · cases h
    exact ⟨clearPtDir_quiet hk hpt, rfl, rfl, fun _ => if_pos rfl⟩
  rename_i hnone
  split at h
  · cases h
  next s₁ h1 =>
    cases h
    obtain ⟨hrest, hq⟩ := allocMem_quiet h1 hk
    exact ⟨hq, hrest.physblocks, hrest.blocks, fun pde => hrest.ptPages ▸ hpt pde⟩
  rename_i f s₁ h1
  cases h
  obtain ⟨hrest, hq, hfresh⟩ := allocMem_quiet h1 hk
  have hq2 := setPtDir_quiet (p := p) hq.kept (hfresh f (Nat.le_refl _) (Nat.lt_succ_self _))
    (by rw [hrest.ptDir]; simpa using hnone)
  have hq3 := clearPtDir_quiet (p := p) hq2.kept fun pde => hrest.ptPages ▸ hpt pde
  exact ⟨(hq.trans hq2).trans hq3, hrest.physblocks, hrest.blocks, fun _ => if_pos rfl⟩

/-! ## Copying the regions -/

/-- Every block has room for one more reference from each slot of the process. -/
def ForkRoom (s : State) (p : ProcNr) : Prop :=
  ∀ b pb, s.blocks b = some pb →
    pb.refcount + (pb.regions.filter fun x => decide (x.1 = p)).length ≤ 255

/-- The child has copies of some slots of the parent, and no other slot changed. -/
structure Mirror (s₀ s : State) (src dst : ProcNr) : Prop where
  copies : ∀ {v pr}, s.physblocks (dst, v) = some pr → s.physblocks (src, v) = some pr
  rest : ∀ {y}, y.1 ≠ dst → s.physblocks y = s₀.physblocks y

theorem Mirror.refcount_lt {g₀ : Ghost} {s₀ : State} (h : Mirror s₀ s src dst) (hk₀ : Kept g₀ s₀)
    (hg₀ : g₀.Plain) (hk : Kept g s) (hg : g.Plain) (hne : src ≠ dst) (hroom : ForkRoom s₀ src)
    (hempty : ∀ v, s₀.physblocks (dst, v) = none) (hsrc : s.physblocks (src, v) = some pr)
    (hdst : s.physblocks (dst, v) = none) (hb : s.blocks pr.ph = some pb) :
    pb.refcount < 255 := by
  have hold : s₀.physblocks (src, v) = some pr := by
    rw [← h.rest hne]
    exact hsrc
  obtain ⟨pb0, hb0, hmem0⟩ := hk₀.block_of_target (x := (src, v)) (b := pr.ph)
    (by rw [target_eq (hg₀.limbo _), hold]; rfl)
  have hin : ∀ x, x ∈ pb.regions ↔ (s.physblocks x).map (·.ph) = some pr.ph := fun x => by
    rw [hk.mem_regions hb, target_eq (hg.limbo _)]
  have hin0 : ∀ x, x ∈ pb0.regions ↔ (s₀.physblocks x).map (·.ph) = some pr.ph := fun x => by
    rw [hk₀.mem_regions hb0, target_eq (hg₀.limbo _)]
  -- the slots of other processes are those there were
  have hothers : (pb.regions.filter fun x => decide (x.1 ≠ dst)).length = pb0.regions.length := by
    apply List.Perm.length_eq
    apply (perm_ext_iff_of_nodup ((hk.nodup hb).filter _) (hk₀.nodup hb0)).mpr
    intro x
    rw [mem_filter, decide_eq_true_eq, hin, hin0]
    by_cases hx : x.1 = dst
    · obtain ⟨q, w⟩ := x
      cases hx
      simp [hempty]
    · rw [h.rest hx]
      exact and_iff_left hx
  -- those of the child stand for slots of the parent, and this page is not among them
  have hchild : ((src, v) :: (pb.regions.filter fun x => decide (x.1 = dst)).map
      fun x => (src, x.2)).length ≤ (pb0.regions.filter fun x => decide (x.1 = src)).length := by
    apply List.Nodup.length_le_of_subset
    · rw [nodup_cons]
      constructor
      · intro hmem
        obtain ⟨⟨q, w⟩, hx, heq⟩ := List.mem_map.mp hmem
        rw [mem_filter, decide_eq_true_eq, hin] at hx
        cases heq
        obtain ⟨hx, rfl⟩ := hx
        rw [hdst] at hx
        cases hx
      apply List.Nodup.map_on _ ((hk.nodup hb).filter _)
      intro x hx y hy heq
      rw [mem_filter, decide_eq_true_eq] at hx hy
      rw [Prod.mk.injEq] at heq
      exact Prod.ext (hx.2.trans hy.2.symm) heq.2
    intro x hx
    rw [mem_filter, decide_eq_true_eq, hin0]
    rcases mem_cons.mp hx with rfl | hx
    · exact ⟨by rw [hold]; rfl, rfl⟩
    obtain ⟨⟨q, w⟩, hy, rfl⟩ := List.mem_map.mp hx
    rw [mem_filter, decide_eq_true_eq, hin] at hy
    obtain ⟨hy, rfl⟩ := hy
    obtain ⟨pr', hpr', heq⟩ := map_eq_some_iff.mp hy
    refine ⟨?_, rfl⟩
    show (s₀.physblocks (src, w)).map (·.ph) = _
    rw [← h.rest (y := (src, w)) hne, h.copies hpr', map_some, heq]
  rw [length_cons, length_map] at hchild
  have hsplit := length_eq_length_filter_add (l := pb.regions) fun x => decide (x.1 = dst)
  have hneg : (pb.regions.filter fun x => !decide (x.1 = dst)) =
      pb.regions.filter fun x => decide (x.1 ≠ dst) := by
    congr 1
    funext x
    simp
  rw [hneg, hothers] at hsplit
  have hroom' := hroom pr.ph pb0 hb0
  rw [hk₀.count hb0] at hroom'
  rw [hk.count hb]
  omega

/-- What holds while the regions of a process are copied to its child. -/
structure Copying (g₀ g : Ghost) (s₀ : State) (src dst : ProcNr) : Prop where
  kept : Kept g₀ s₀
  plain₀ : g₀.Plain
  plain : g.Plain
  bare : ∀ b, ¬ g.bare b
  ne : src ≠ dst
  room : ForkRoom s₀ src
  empty : ∀ v, s₀.physblocks (dst, v) = none
  kind : ∀ v, g.kind (dst, v) = g.kind (src, v)

variable {g₀ : Ghost} {s₀ : State}

theorem copyPages_quiet {w : Bool} (h : copyPages s src dst r offset n = some (w, s'))
    (hc : Copying g₀ g s₀ src dst) (hk : Kept g s) (hm : Mirror s₀ s src dst) :
    Quiet s g s' ∧ Mirror s₀ s' src dst ∧
      ∀ y, (y.1 = dst → ¬ r.Contains y.2) → s'.physblocks y = s.physblocks y := by
  induction n generalizing s offset with
  | zero =>
    cases h
    exact ⟨hk.quiet, hm, fun _ _ => rfl⟩
  | succ n ih =>
    unfold copyPages at h
    split at h
    · cases h
    · exact ih h hk hm
    rename_i pr hget
    obtain ⟨hlt, hpr, hoff⟩ := physblockGet_eq_some hget
    have hoff' := hoff pr rfl
    split at h
    · cases h
    next s₁ href =>
      cases h
      obtain ⟨tape, ⟨_, rfl⟩ | ⟨hw, _⟩⟩ := pbReference_cases href
      · exact ⟨hk.readTape tape, ⟨hm.copies, hm.rest⟩, fun _ _ => rfl⟩
      · cases hw
    rename_i s₁ href
    obtain ⟨tape, ⟨hw, _⟩ | ⟨_, hnone, hlink⟩⟩ := pbReference_cases href
    · cases hw
    rw [hoff'] at hnone
    have hq1 := hk.readTape tape
    have hsrc : target g s (src, r.vaddr + offset) = some pr.ph := by
      rw [target_eq (hc.plain.limbo _), hpr]
      rfl
    have hq2 := pbLink_quiet hlink hq1.kept
      (by
        rw [target_eq (hc.plain.limbo _), hoff']
        show (s.physblocks _).map _ = _
        rw [hnone]
        rfl)
      (by
        rw [hoff', hc.kind]
        exact hk.kinds hsrc)
      (fun pb hb => by
        have hb' : s.blocks pr.ph = some pb := hb
        refine ⟨hm.refcount_lt hc.kept hc.plain₀ hk hc.plain hc.ne hc.room hc.empty hpr hnone hb',
          .inr ⟨fun hphys => hc.bare _ (hk.bare hb' hphys).1, ?_⟩⟩
        rw [hoff', hc.kind, hk.direct_iff hb' ((hk.mem_regions hb').mpr hsrc)])
      (fun c hfresh => by
        rw [hc.plain.fresh] at hfresh
        cases hfresh)
    rw [Ghost.link_eq (hc.plain.limbo _) hc.plain.fresh] at hq2
    have hphys : s₁.physblocks = update s.physblocks (dst, r.vaddr + offset)
        (some pr) := by
      obtain ⟨pb, _, rfl⟩ := pbLink_eq hlink
      simp only [setBlock, setSlot, hoff']
      rw [← hoff']
    have hm1 : Mirror s₀ s₁ src dst := by
      constructor
      · intro v pr' hpr'
        have hsame : s₁.physblocks (src, v) = s.physblocks (src, v) := by
          rw [hphys, update_of_ne]
          exact fun heq => hc.ne (Prod.mk.inj heq).1
        rw [hsame]
        by_cases hv : v = r.vaddr + offset
        · subst hv
          rw [hphys, update_self, some.injEq] at hpr'
          rw [hpr, hpr']
        · rw [hphys, update_of_ne fun heq => hv (Prod.mk.inj heq).2] at hpr'
          exact hm.copies hpr'
      intro y hy
      rw [hphys, update_of_ne]
      · exact hm.rest hy
      · rintro rfl
        exact hy rfl
    obtain ⟨hq, hm', hrest⟩ := ih h hq2.kept hm1
    refine ⟨(hq1.trans hq2).trans hq, hm', fun y hy => ?_⟩
    rw [hrest y hy, hphys, update_of_ne]
    rintro rfl
    exact hy rfl (contains_add hlt)

theorem evCopy_steady {newr : VirRegion} (h : evCopy s r newr = some (r', s')) (hk : Kept g s) :
    Steady s g s' ∧ s'.physblocks = s.physblocks ∧ s'.blocks = s.blocks ∧
      r'.shape = newr.shape := by
  unfold evCopy at h
  split at h
  · split at h
    · exact sharedSetsource_steady h hk
    · cases h
  · cases h
    exact ⟨hk.quiet.steady, rfl, rfl, rfl⟩
  · cases h
    exact ⟨hk.quiet.steady, rfl, rfl, rfl⟩

theorem contains_iff_of_shape (h : r'.shape = r.shape) (v : Page) :
    r'.Contains v ↔ r.Contains v := by
  obtain ⟨hv, hl, _⟩ := by simpa only [shape, Prod.mk.injEq] using h
  unfold VirRegion.Contains
  rw [hv, hl]

theorem mapCopyRegion_steady {o : Option VirRegion}
    (h : mapCopyRegion s src dst r = some (o, s')) (hc : Copying g₀ g s₀ src dst)
    (hk : Kept g s) (hm : Mirror s₀ s src dst)
    (hkind : ∀ v, r.Contains v → g.kind (dst, v) = some r.memtype) (hp : Known g s src)
    (hnone : ∀ v, r.Contains v → s.physblocks (dst, v) = none) :
    Steady s g s' ∧ Mirror s₀ s' src dst ∧
      (∀ y, (y.1 = dst → ¬ r.Contains y.2) → s'.physblocks y = s.physblocks y) ∧
      (o = none → ∀ v, r.Contains v → s'.physblocks (dst, v) = none) ∧
      ∀ r', o = some r' → r'.shape = r.shape := by
  unfold mapCopyRegion at h
  split at h
  · cases h
  next s₁ hnew =>
    cases h
    obtain ⟨hq, hphys, _⟩ := regionNew_spec hnew hk
    exact ⟨hq.steady, ⟨hphys ▸ hm.copies, hphys ▸ hm.rest⟩, fun y _ => congrFun hphys y,
      fun _ v hv => hphys ▸ hnone v hv, nofun⟩
  rename_i r1 s₁ hnew
  obtain ⟨hq, hphys, _, hr⟩ := regionNew_spec hnew hk
  have hshape1 : r1.shape = r.shape := by
    rw [hr r1 rfl]
    rfl
  split at h
  · cases h
  rename_i r2 s₂ hev
  obtain ⟨hst, hphys2, _, hshape⟩ := evCopy_steady hev hq.kept
  have hshape2 : r2.shape = r.shape := hshape.trans hshape1
  have hsame : s₂.physblocks = s.physblocks := hphys2.trans hphys
  have hm2 : Mirror s₀ s₂ src dst := ⟨hsame ▸ hm.copies, hsame ▸ hm.rest⟩
  have hst2 := hq.steady.trans hst
  split at h
  · cases h
  next s3 hcopy =>
    cases h
    obtain ⟨hq3, hm3, hrest⟩ := copyPages_quiet hcopy hc hst.kept hm2
    refine ⟨hst2.trans hq3.steady, hm3, fun y hy => (hrest y hy).trans (congrFun hsame y),
      nofun, fun r' hr' => ?_⟩
    cases hr'
    exact hshape2
  rename_i s3 hcopy
  obtain ⟨s4, hfree, heq⟩ := map_eq_some_iff.mp h
  cases heq
  obtain ⟨hq3, hm3, hrest⟩ := copyPages_quiet hcopy hc hst.kept hm2
  have hst3 := hst2.trans hq3.steady
  have hmt : r2.memtype = r.memtype := congrArg (fun w => w.2.2) hshape2
  obtain ⟨hst4, hgone, hrest4, _⟩ := mapFree_steady hfree hq3.kept hc.plain
    (fun v hv _ => hmt ▸ hkind v ((contains_iff_of_shape hshape2 v).mp hv))
    (hst3.evicted.known hp)
  have hother : ∀ y, (y.1 = dst → ¬ r.Contains y.2) → s'.physblocks y = s.physblocks y := by
    intro y hy
    rw [hrest4 y fun hd hv => hy hd ((contains_iff_of_shape hshape2 _).mp hv), hrest y hy, hsame]
  refine ⟨hst3.trans hst4, ⟨fun {v pr} hv => ?_, fun {y} hy => ?_⟩, hother,
    fun _ v hv => hgone v ((contains_iff_of_shape hshape2 v).mpr hv), nofun⟩
  · by_cases hin : r.Contains v
    · rw [hgone v ((contains_iff_of_shape hshape2 v).mpr hin)] at hv
      cases hv
    · rw [hother (dst, v) fun _ => hin] at hv
      rw [hother (src, v) fun hd => absurd hd hc.ne]
      exact hm.copies hv
  · rw [hother y fun hd => absurd hd hy]
    exact hm.rest hy

/-- The regions that the child has so far, and those of `l` are still to come. -/
structure Growing (g : Ghost) (s : State) (p : ProcNr) (l : List VirRegion) : Prop where
  arranged : Arranged s p
  kinds : ∀ r ∈ (s.vmproc p).regions, ∀ v, r.Contains v → g.kind (p, v) = some r.memtype
  apart : ∀ r ∈ (s.vmproc p).regions, ∀ r' ∈ l, Apart r.shape r'.shape

def SlotsIn (s : State) (p : ProcNr) : Prop :=
  ∀ v, (s.physblocks (p, v)).isSome → ∃ r ∈ (s.vmproc p).regions, r.Contains v

theorem SameShapes.exists_region (hs : SameShapes s s')
    (hr : r ∈ (s.vmproc p).regions) : ∃ r' ∈ (s'.vmproc p).regions, r'.shape = r.shape := by
  have hmem : r.shape ∈ (s'.vmproc p).regions.map shape :=
    (hs p).symm ▸ List.mem_map_of_mem hr
  exact List.mem_map.mp hmem

theorem SameShapes.symm (hs : SameShapes s s') : SameShapes s' s := fun p => (hs p).symm

namespace Growing

variable {l : List VirRegion}

theorem congr (h : Growing g s p l) (hs : SameShapes s s') : Growing g s' p l := by
  refine ⟨h.arranged.congr (hs p), fun r' hr' v hv => ?_, fun r' hr' r0 hr0 => ?_⟩
  · obtain ⟨r, hr, hshape⟩ := hs.symm.exists_region hr'
    have hmt : r.memtype = r'.memtype := congrArg (fun w => w.2.2) hshape
    rw [← hmt]
    exact h.kinds r hr v ((contains_iff_of_shape hshape v).mpr hv)
  · obtain ⟨r, hr, hshape⟩ := hs.symm.exists_region hr'
    rw [← hshape]
    exact h.apart r hr r0 hr0

theorem nil (h : Growing g s p l) : Growing g s p [] := ⟨h.arranged, h.kinds, fun _ _ => nofun⟩

theorem rangeFree (h : Growing g s p (r :: l)) : RangeFree s p r.vaddr r.length :=
  fun r0 hr0 => h.apart r0 hr0 r (mem_cons_self ..)

theorem insert (h : Growing g s p (r :: l)) (hshape : r'.shape = r.shape)
    (hpos : 0 < r.length) (htop : r.vaddr + r.length ≤ vmDatatop)
    (hkind : ∀ v, r.Contains v → g.kind (p, v) = some r.memtype)
    (hl : ∀ r' ∈ l, Apart r.shape r'.shape) :
    Growing g (regionInsert s p r') p l ∧ ∀ r₀, r₀ ∈ ((regionInsert s p r').vmproc p).regions ↔
        r₀ = r' ∨ r₀ ∈ (s.vmproc p).regions := by
  obtain ⟨hv, hlen, hmt⟩ := by simpa only [shape, Prod.mk.injEq] using hshape
  have hfree : RangeFree s p r'.vaddr r'.length := by
    rw [hv, hlen]
    exact h.rangeFree
  have hins := h.arranged.insert hfree (by omega) (by lia)
  have hmem : ∀ r₀, r₀ ∈ ((regionInsert s p r').vmproc p).regions ↔
      r₀ = r' ∨ r₀ ∈ (s.vmproc p).regions := by
    intro r₀
    rw [regionInsert_regions (hfree.vaddr_ne h.arranged (by omega)), setRegions_self,
      mem_orderedInsert]
  refine ⟨⟨hins, fun r₀ hr0 v hc => ?_, fun r₀ hr0 r1 hr1 => ?_⟩, hmem⟩
  · rcases (hmem r₀).mp hr0 with rfl | hr0
    · rw [hmt]
      exact hkind v ((contains_iff_of_shape hshape v).mp hc)
    · exact h.kinds r₀ hr0 v hc
  · rcases (hmem r₀).mp hr0 with rfl | hr0
    · rw [hshape]
      exact hl r1 hr1
    · exact h.apart r₀ hr0 r1 (mem_cons_of_mem _ hr1)

end Growing

theorem copyRegions_leaves {l : List VirRegion} {w : Bool}
    (h : copyRegions s src dst l = some (w, s')) (hc : Copying g₀ g s₀ src dst) (hk : Kept g s)
    (hm : Mirror s₀ s src dst) (hp : Known g s src) (hgrow : Growing g s dst l)
    (hin : SlotsIn s dst) (hl : (l.map shape).Pairwise Apart)
    (hbounds : ∀ r ∈ l, 0 < r.length ∧ r.vaddr + r.length ≤ vmDatatop)
    (hkind : ∀ r ∈ l, ∀ v, r.Contains v → g.kind (dst, v) = some r.memtype) :
    Leaves s g s' ∧ Mirror s₀ s' src dst ∧ SameShapesBut dst s s' ∧ Growing g s' dst [] ∧
      SlotsIn s' dst := by
  induction l generalizing s with
  | nil =>
    cases h
    exact ⟨hk.leaves, hm, fun _ _ => rfl, hgrow, hin⟩
  | cons r l ih =>
    unfold copyRegions at h
    obtain ⟨hpos, htop⟩ := hbounds r (mem_cons_self ..)
    have hkr := hkind r (mem_cons_self ..)
    rw [map_cons, pairwise_cons] at hl
    have hnone : ∀ v, r.Contains v → s.physblocks (dst, v) = none := by
      intro v hv
      by_contra hne
      obtain ⟨r0, hr0, hv0⟩ := hin v (isSome_iff_ne_none.mpr hne)
      have := hgrow.rangeFree r0 hr0
      unfold VirRegion.Contains at hv hv0
      lia
    split at h
    · cases h
    next s₁ hcopy =>
      cases h
      obtain ⟨hst, hm1, hrest, hgone, _⟩ := mapCopyRegion_steady hcopy hc hk hm hkr hp hnone
      refine ⟨hst.toLeaves, hm1, hst.shapes.but, (hgrow.congr hst.shapes).nil, fun v hv => ?_⟩
      have hnot : ¬ r.Contains v := fun hc' => by
        rw [hgone rfl v hc'] at hv
        cases hv
      rw [hrest (dst, v) fun _ => hnot] at hv
      obtain ⟨r0, hr0, hc0⟩ := hin v hv
      obtain ⟨r1, hr1, hshape⟩ := hst.shapes.exists_region hr0
      exact ⟨r1, hr1, (contains_iff_of_shape hshape v).mpr hc0⟩
    rename_i newr s₁ hcopy
    obtain ⟨hst, hm1, hrest, _, hshape⟩ := mapCopyRegion_steady hcopy hc hk hm hkr hp hnone
    have hnewr := hshape newr rfl
    have hins := regionInsert_leaves hst.kept dst newr
    have hphys := regionInsert_physblocks s₁ dst newr
    obtain ⟨hgrow', hmem⟩ := (hgrow.congr hst.shapes).insert hnewr hpos htop hkr
      fun r' hr' => hl.1 _ (List.mem_map_of_mem hr')
    have hin' : SlotsIn (regionInsert s₁ dst newr) dst := by
      intro v hv
      rw [hphys] at hv
      by_cases hcv : r.Contains v
      · exact ⟨newr, (hmem newr).mpr (.inl rfl), (contains_iff_of_shape hnewr v).mpr hcv⟩
      · rw [hrest (dst, v) fun _ => hcv] at hv
        obtain ⟨r0, hr0, hc0⟩ := hin v hv
        obtain ⟨r1, hr1, hsh⟩ := hst.shapes.exists_region hr0
        exact ⟨r1, (hmem r1).mpr (.inr hr1), (contains_iff_of_shape hsh v).mpr hc0⟩
    have hbut : SameShapesBut dst s₁ (regionInsert s₁ dst newr) := by
      unfold regionInsert
      split
      · exact fun _ _ => rfl
      · exact sameShapesBut_setRegions s₁ dst _
    have hl1 := hst.toLeaves.trans hins
    obtain ⟨hl2, hm2, hbut2, hgrow2, hin2⟩ := ih h hins.kept
      ⟨hphys ▸ hm1.copies, hphys ▸ hm1.rest⟩ (hl1.evicted.known hp) hgrow' hin' hl.2
      (fun r' hr' => hbounds r' (mem_cons_of_mem _ hr'))
      (fun r' hr' => hkind r' (mem_cons_of_mem _ hr'))
    exact ⟨hl1.trans hl2, hm2, (hst.shapes.but.trans hbut).trans hbut2, hgrow2, hin2⟩

theorem writeptPages_quiet (h : writeptPages s p r offset n = some (e, s')) (hk : Kept g s)
    (hp : Known g s p) : Quiet s g s' ∧ s'.physblocks = s.physblocks := by
  induction n generalizing s offset with
  | zero =>
    cases h
    exact ⟨hk.quiet, rfl⟩
  | succ n ih =>
    unfold writeptPages at h
    split at h
    · cases h
    · exact ih h hk hp
    split at h
    · cases h
    next s₁ h1 =>
      obtain ⟨hq, _, hphys⟩ := mapPhWritept_quiet h1 hk hp
      obtain ⟨hq', hphys'⟩ := ih h hq.kept (hq.evicted.known hp)
      exact ⟨hq.trans hq', hphys'.trans hphys⟩
    rename_i e' s₁ _ h1
    cases h
    obtain ⟨hq, _, hphys⟩ := mapPhWritept_quiet h1 hk hp
    exact ⟨hq, hphys⟩

theorem mapWritept_quiet {l : List VirRegion} (h : mapWritept s p l = some (e, s'))
    (hk : Kept g s) (hp : Known g s p) : Quiet s g s' ∧ s'.physblocks = s.physblocks := by
  induction l generalizing s with
  | nil =>
    cases h
    exact ⟨hk.quiet, rfl⟩
  | cons r l ih =>
    unfold mapWritept at h
    split at h
    · cases h
    next s₁ h1 =>
      obtain ⟨hq, hphys⟩ := writeptPages_quiet h1 hk hp
      obtain ⟨hq', hphys'⟩ := ih h hq.kept (hq.evicted.known hp)
      exact ⟨hq.trans hq', hphys'.trans hphys⟩
    next e' s₁ _ h1 =>
      cases h
      exact writeptPages_quiet h1 hk hp

structure Copied (g : Ghost) (s s' : State) (dst : ProcNr) (e : Status) : Prop
    extends Leaves s g s' where
  but : SameShapesBut dst s s'
  grown : e = .ok → Growing g s' dst [] ∧ SlotsIn s' dst
  gone : e ≠ .ok → (s'.vmproc dst).regions = [] ∧ ∀ v, s'.physblocks (dst, v) = none

theorem mapProcCopy_copied (h : mapProcCopy s dst src = some (e, s'))
    (hc : Copying g g s src dst) (hsrc : Known g s src) (hdst : Known g s dst)
    (hnil : (s.vmproc dst).regions = []) (hempty : ∀ v, s.physblocks (dst, v) = none)
    (harr : Arranged s src)
    (hkind : ∀ r ∈ (s.vmproc src).regions, ∀ v, r.Contains v → g.kind (src, v) = some r.memtype) :
    Copied g s s' dst e := by
  unfold mapProcCopy at h
  split at h
  · cases h
  have hgrow : Growing g s dst (s.vmproc src).regions := by
    refine ⟨⟨?_, ?_⟩, ?_, ?_⟩ <;> rw [hnil]
    · exact List.Pairwise.nil
    · exact nofun
    · exact nofun
    · exact nofun
  have hin : SlotsIn s dst := fun v hv => by
    rw [hempty v] at hv
    cases hv
  have hm : Mirror s s src dst := by
    refine ⟨fun {v pr} hv => ?_, fun _ => rfl⟩
    rw [hempty v] at hv
    cases hv
  have hcopy : ∀ {w : Bool} {s₁ : State},
      copyRegions s src dst (s.vmproc src).regions = some (w, s₁) →
      Leaves s g s₁ ∧ SameShapesBut dst s s₁ ∧ Growing g s₁ dst [] ∧ SlotsIn s₁ dst := by
    intro w s₁ h1
    obtain ⟨hl, _, hbut, hgrow', hin'⟩ := copyRegions_leaves h1 hc hc.kept hm hsrc hgrow hin
      harr.apart harr.bounds fun r hr v hv => (hc.kind v).trans (hkind r hr v hv)
    exact ⟨hl, hbut, hgrow', hin'⟩
  split at h
  · cases h
  next s₁ h1 =>
    obtain ⟨s₂, h2, heq⟩ := map_eq_some_iff.mp h
    cases heq
    obtain ⟨hl, hbut, hgrow', hin'⟩ := hcopy h1
    obtain ⟨hl2, hbut2, hnil2, hgone, _⟩ := mapFreeProc_leaves h2 hl.kept hc.plain hgrow'.kinds
      hin' (hl.evicted.known hdst)
    exact ⟨hl.trans hl2, hbut.trans hbut2, nofun, fun _ => ⟨hnil2, hgone⟩⟩
  rename_i s₁ h1
  obtain ⟨hl, hbut, hgrow', hin'⟩ := hcopy h1
  split at h
  · cases h
  rename_i e2 s₂ h2
  obtain ⟨hq2, hphys2⟩ := mapWritept_quiet h2 hl.kept (hl.evicted.known hsrc)
  have hl2 := hl.trans hq2.toLeaves
  split at h
  · cases h
  rename_i e3 s3 h3
  cases h
  obtain ⟨hq3, hphys3⟩ := mapWritept_quiet h3 hq2.kept (hl2.evicted.known hdst)
  have hq := hq2.trans hq3
  refine ⟨hl2.trans hq3.toLeaves, hbut.trans (SameShapes.of_eq hq.regions).but,
    fun _ => ⟨hgrow'.congr (SameShapes.of_eq hq.regions), fun v hv => ?_⟩, nofun⟩
  rw [hphys3, hphys2] at hv
  rw [hq.regions dst]
  exact hin' v hv

/-! ## Fork -/

theorem Kept.bind (hk : Kept (.idle M kind (some p)) s) (hp : ¬ Live s p) {x : VmProc}
    (hx : x.inuse = true ∧ x.endpoint.isSome) (hl : x.lus1Us2 = []) :
    Kept (.idle M kind none) (s.setVmproc p x) := by
  have hlive : ∀ q, Live (s.setVmproc p x) q ↔ Live s q ∨ q = p := by
    intro q
    by_cases hq : q = p
    · subst hq
      simp [Live, setVmproc, hx]
    · simp [Live, setVmproc, hq]
  exact {
    refs := hk.refs
    count := hk.count
    used := hk.used
    bare := hk.bare
    lent := hk.lent
    kinds := hk.kinds
    uniform := hk.uniform
    pages := fun q hq => by
      by_cases hqp : q = p
      · subst hqp
        simp [setVmproc, hl]
      · simpa [setVmproc, hqp] using hk.pages q (((hlive q).mp hq).resolve_right hqp)
    tables := by
      intro q pde hne
      rw [hlive q]
      exact .inl ((hk.tables hne).imp_right fun hc => (some.inj hc).symm)
    frames := by
      apply hk.frames.congr (fun _ => Iff.rfl) (fun _ => Iff.rfl)
      intro o f
      cases o with
      | hardening q v what =>
        simp only [Holds, hlive]
        by_cases hqp : q = p
        · subst hqp
          simp [setVmproc, hl, hp]
        · simp [setVmproc, hqp]
      | _ => exact Iff.rfl }

/-- The memory types of the slots of a child. -/
def forkKind (s : State) (src dst : ProcNr) (x : Slot) : Option MemType :=
  if x.1 = dst then kindAt s (src, x.2) else kindAt s x

/-- What a fork needs; a child without a list of its own must not get that of its parent. -/
structure CanFork (s : State) (src dst : ProcNr) (ep : Endpoint) : Prop where
  room : ForkRoom s src
  hardening : ∀ s', doFork s src dst ep = some (.ok, s') →
    s.hardeningEnabled = true ∨ (s.vmproc src).lus1Us2 = []

theorem forkVmproc_kept (hs : Sound M s) (hsrc : Live s src) (hdst : ¬ Live s dst) :
    Kept (.idle M (forkKind s src dst) (some dst)) (forkVmproc s src dst) ∧
      Live (forkVmproc s src dst) src ∧ ((forkVmproc s src dst).vmproc dst).endpoint = none := by
  have hne : src ≠ dst := by
    rintro rfl
    exact hdst hsrc
  have hk : Kept (.idle M (forkKind s src dst) none) s := by
    refine hs.kept.retarget fun x hx => ?_
    unfold forkKind
    rw [if_neg]
    rintro rfl
    rw [show s.physblocks x = none from hs.empty_of_dead hdst] at hx
    cases hx
  have hk1 : Kept (.idle M (forkKind s src dst) none) (forkVmproc s src dst) :=
    hk.setDead (p := dst) (x := { s.vmproc src with regions := [], endpoint := none })
      (.inr rfl) (hs.ptPages_of_dead hdst) fun hlive => absurd hlive hdst
  refine ⟨hk1.adopt dst, ?_, by simp [forkVmproc, setVmproc]⟩
  simpa [forkVmproc, setVmproc, Live, hne] using hsrc

theorem forkKind_of_ne (h : x.1 ≠ dst) : forkKind s src dst x = kindAt s x := if_neg h

theorem forkVmproc_of_ne (h : q ≠ dst) : (forkVmproc s src dst).vmproc q = s.vmproc q := by
  simp [forkVmproc, setVmproc, h]

theorem doFork_cases {ep : Endpoint} (h : doFork s src dst ep = some (e, s')) (hs : Sound M s)
    (hsrc : Live s src) (hdst : ¬ Live s dst) (hroom : ForkRoom s src) :
    (e ≠ .ok ∧ Leaves (forkVmproc s src dst) (.idle M (forkKind s src dst) none) s' ∧
      SameShapesBut dst (forkVmproc s src dst) s' ∧ (s'.vmproc dst).regions = [] ∧
      ∀ v, s'.physblocks (dst, v) = none) ∨
    (e = .ok ∧ ∃ s₂, s' = bindChild s₂ dst ep ∧
      Leaves (forkVmproc s src dst) (.idle M (forkKind s src dst) (some dst)) s₂ ∧
      SameShapesBut dst (forkVmproc s src dst) s₂ ∧ Arranged s₂ dst ∧
      (∀ r ∈ (s₂.vmproc dst).regions, ∀ v, r.Contains v →
        forkKind s src dst (dst, v) = some r.memtype) ∧ SlotsIn s₂ dst) := by
  have hne : src ≠ dst := by
    rintro rfl
    exact hdst hsrc
  obtain ⟨hk1, hsrc1, hend1⟩ := forkVmproc_kept hs hsrc hdst
  have hnil1 : ((forkVmproc s src dst).vmproc dst).regions = [] := by
    simp [forkVmproc, setVmproc]
  have hempty : ∀ v, s.physblocks (dst, v) = none := fun v => hs.empty_of_dead hdst
  unfold doFork at h
  split at h
  · cases h
  next s₂ h2 =>
    obtain ⟨hq2, hphys2, hblocks2, _⟩ := ptNew_quiet h2 hk1 (hs.ptPages_of_dead hdst)
    have hreg : (s₂.vmproc src).regions = (s.vmproc src).regions := by
      rw [hq2.regions src, forkVmproc_of_ne hne]
    have hkind : ∀ v, forkKind s src dst (dst, v) = forkKind s src dst (src, v) := fun v => by
      rw [forkKind_of_ne (x := (src, v)) hne]
      exact if_pos rfl
    have hc : Copying (.idle M (forkKind s src dst) (some dst))
        (.idle M (forkKind s src dst) (some dst)) s₂ src dst :=
      ⟨hq2.kept, Ghost.idle_plain, Ghost.idle_plain, fun _ => id, hne,
        fun b pb hb => hroom b pb (hblocks2 ▸ hb), fun v => hphys2 ▸ hempty v, hkind⟩
    have hdst2 : Known (.idle M (forkKind s src dst) (some dst)) s₂ dst :=
      .inr ⟨rfl, (hq2.evicted.vmproc dst).2.trans hend1⟩
    have hcopied : ∀ {e' : Status} {s3 : State}, mapProcCopy s₂ dst src = some (e', s3) →
        Copied (.idle M (forkKind s src dst) (some dst)) s₂ s3 dst e' := by
      intro e' s3 h3
      refine mapProcCopy_copied h3 hc (hq2.evicted.live.mpr hsrc1).known hdst2
        ((hq2.regions dst).trans hnil1) (fun v => hphys2 ▸ hempty v)
        ((hs.arranged src).congr (by rw [hreg])) fun r hr v hv => ?_
      show forkKind s src dst (src, v) = _
      rw [forkKind_of_ne (x := (src, v)) hne]
      exact (hs.arranged src).kindAt_eq (hreg ▸ hr) hv
    have hbut2 : SameShapesBut dst (forkVmproc s src dst) s₂ := (SameShapes.of_eq hq2.regions).but
    split at h
    · cases h
    next s3 h3 =>
      cases h
      have hcp := hcopied h3
      obtain ⟨hgrow, hin⟩ := hcp.grown rfl
      exact .inr ⟨rfl, s3, rfl, hq2.toLeaves.trans hcp.toLeaves, hbut2.trans hcp.but,
        hgrow.arranged, hgrow.kinds, hin⟩
    rename_i e3 s3 hne3 h3
    cases h
    have hcp := hcopied h3
    obtain ⟨hnil3, hgone3⟩ := hcp.gone fun he => hne3 (he ▸ rfl)
    obtain ⟨hl4, _⟩ := ptFree_leaves (p := dst) hcp.kept fun q hq => (some.inj hq).symm
    exact .inl ⟨(fun h => by cases h), (hq2.toLeaves.trans hcp.toLeaves).trans hl4, hbut2.trans hcp.but,
      hnil3, hgone3⟩
  next e2 s₂ hne2 h2 =>
    cases h
    obtain ⟨hq2, hphys2, _, hpt2⟩ := ptNew_quiet h2 hk1 (hs.ptPages_of_dead hdst)
    exact .inl ⟨(fun h => by cases h), ⟨hq2.kept.disown (.inr hpt2), hq2.evicted, hq2.bytes⟩,
      (SameShapes.of_eq hq2.regions).but, (hq2.regions dst).trans hnil1,
      fun v => hphys2 ▸ hempty v⟩

theorem doFork_sound {ep : Endpoint} (h : doFork s src dst ep = some (e, s')) (hs : Sound M s)
    (hsrc : Live s src) (hdst : ¬ Live s dst) (hcan : CanFork s src dst ep) : Sound M s' := by
  obtain ⟨hk1, hsrc1, hend1⟩ := forkVmproc_kept hs hsrc hdst
  have hlive1 : ∀ q, Live (forkVmproc s src dst) q ↔ Live s q := by
    intro q
    by_cases hq : q = dst
    · subst hq
      exact iff_of_false (fun hl => by simp [Live, hend1] at hl) hdst
    · unfold Live
      rw [forkVmproc_of_ne hq]
  have hshape : ∀ {s₂ : State}, SameShapesBut dst (forkVmproc s src dst) s₂ → ∀ q, q ≠ dst →
      (s₂.vmproc q).regions.map shape = (s.vmproc q).regions.map shape := by
    intro s₂ hbut q hq
    rw [hbut q hq, forkVmproc_of_ne hq]
  rcases doFork_cases h hs hsrc hdst hcan.room with
    ⟨_, hl, hbut, hnil, hgone⟩ | ⟨rfl, s₂, rfl, hl, hbut, harr, hkinds, hin⟩
  · refine ⟨hl.kept.retarget fun x hx => ?_, fun q => ?_, fun q hq => ?_⟩
    · obtain ⟨q, v⟩ := x
      have hqd : q ≠ dst := by
        rintro rfl
        rw [hgone v] at hx
        cases hx
      rw [forkKind_of_ne (x := (q, v)) hqd, kindAt_eq, kindAt_eq, hshape hbut q hqd]
    · by_cases hqd : q = dst
      · subst hqd
        refine ⟨?_, ?_⟩ <;> rw [hnil]
        · exact List.Pairwise.nil
        · intro x h
          cases h
      · exact (hs.arranged q).congr (hshape hbut q hqd)
    by_cases hqd : q = dst
    · exact hqd ▸ hnil
    · have := hshape hbut q hqd
      rw [hs.dead q fun hlive => hq (hl.evicted.live.mpr ((hlive1 q).mpr hlive))] at this
      exact map_eq_nil_iff.mp this
  have hinuse : (s₂.vmproc dst).inuse = true := by
    rw [(hl.evicted.vmproc dst).1]
    simpa [forkVmproc, setVmproc] using hsrc.1
  have hend : (s₂.vmproc dst).endpoint = none := (hl.evicted.vmproc dst).2.trans hend1
  -- the child has no hardening block
  have hlus : ((bindChild s₂ dst ep).vmproc dst).lus1Us2 = [] := by
    obtain ⟨hen, hunborn⟩ := hl.evicted.hardening
    unfold bindChild
    simp only [setVmproc, update_self]
    split
    · rfl
    rename_i hoff
    simp only
    rw [hunborn dst hend1]
    rcases hcan.hardening _ h with hon | hempty
    · rw [hen] at hoff
      exact absurd hon hoff
    · simpa [forkVmproc, setVmproc] using hempty
  have hx : ((bindChild s₂ dst ep).vmproc dst).inuse = true ∧
      ((bindChild s₂ dst ep).vmproc dst).endpoint.isSome ∧
      ((bindChild s₂ dst ep).vmproc dst).regions = (s₂.vmproc dst).regions := by
    unfold bindChild
    simp only [setVmproc, update_self]
    split
    · exact ⟨hinuse, rfl, rfl⟩
    · exact ⟨hinuse, rfl, rfl⟩
  have hother : ∀ q, q ≠ dst → (bindChild s₂ dst ep).vmproc q = s₂.vmproc q := by
    intro q hq
    simp [bindChild, setVmproc, hq]
  have heq : bindChild s₂ dst ep = s₂.setVmproc dst ((bindChild s₂ dst ep).vmproc dst) := by
    unfold bindChild
    simp [setVmproc]
  have hk : Kept (.idle M (forkKind s src dst) none) (bindChild s₂ dst ep) := by
    rw [heq]
    exact hl.kept.bind (fun hlive => by simp [Live, hend] at hlive) ⟨hx.1, hx.2.1⟩ hlus
  have harr' : Arranged (bindChild s₂ dst ep) dst := harr.congr (by rw [hx.2.2])
  refine ⟨hk.retarget fun x hx' => ?_, fun q => ?_, fun q hq => ?_⟩
  · obtain ⟨q, v⟩ := x
    by_cases hqd : q = dst
    · subst hqd
      obtain ⟨r, hr, hv⟩ := hin v hx'
      rw [hkinds r hr v hv, harr'.kindAt_eq (hx.2.2 ▸ hr) hv]
    · rw [forkKind_of_ne (x := (q, v)) hqd, kindAt_eq, kindAt_eq, hother q hqd, hshape hbut q hqd]
  · by_cases hqd : q = dst
    · exact hqd ▸ harr'
    · exact (hs.arranged q).congr (by rw [hother q hqd, hshape hbut q hqd])
  by_cases hqd : q = dst
  · subst hqd
    exact absurd ⟨hx.1, hx.2.1⟩ hq
  rw [hother q hqd]
  have := hshape hbut q hqd
  rw [hs.dead q fun hlive => hq ?_] at this
  · exact map_eq_nil_iff.mp this
  · unfold Live
    rw [hother q hqd]
    exact hl.evicted.live.mpr ((hlive1 q).mpr hlive)

end HardenedMinix.Region
