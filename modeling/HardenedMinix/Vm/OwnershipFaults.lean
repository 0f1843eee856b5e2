import HardenedMinix.Vm.OwnershipSteps

/-!
# Page faults and the owners of frames

`map_pf` and the page fault handlers of the memory types leave every frame with one owner,
unless a page that is present is asked for again without writing.
-/

open Function Option

namespace HardenedMinix.Region

open Lib State Ghost

variable {g g' : Ghost} {s s' s₁ s₂ : State} {p q : ProcNr} {x y : Slot} {b c : PbPtr} {f : Frame}
  {pb : PhysBlock} {pr : PhysRegion} {r src : VirRegion} {v : Page} {e : Status} {offset : Nat}
  {write : Bool}

/-! ## The parts of a fault -/

theorem pbReference_cases {w : Bool} (h : pbReference s x b offset = some (w, s')) :
    ∃ tape, (w = false ∧ s' = { s with tape := tape }) ∨
      (w = true ∧ s.physblocks x = none ∧ pbLink { s with tape := tape } x b offset = some s') := by
  unfold pbReference slabAlloc at h
  split at h
  · cases h
  next s₁ hs =>
    split at hs <;> cases hs
    cases h
    exact ⟨_, .inl ⟨rfl, rfl⟩⟩
  rename_i s₁ hs
  split at hs <;> cases hs
  split at h
  next hnone =>
    obtain ⟨s₂, h2, heq⟩ := map_eq_some_iff.mp h
    cases heq
    exact ⟨_, .inr ⟨rfl, hnone, h2⟩⟩
  next => cases h

theorem pbLink_eq {w : State} (h : pbLink s x b offset = some w) :
    ∃ pb, s.blocks b = some pb ∧ w = (s.setSlot x (some ⟨b, offset⟩)).setBlock b
      (some { pb with refcount := (pb.refcount + 1) % 256, regions := x :: pb.regions }) := by
  unfold pbLink at h
  split at h
  · cases h
  next pb hb => exact ⟨pb, hb, (some.inj h).symm⟩

theorem absCopy_quiet (old : Frame) {new : Frame} (hk : Kept g s) (hf : g.hand new) :
    Quiet s g (absCopy s old new) := by
  refine ⟨⟨?_, .same (.of_eq rfl rfl rfl), fun {n k} hk' => ?_⟩,
    fun _ => rfl⟩
  · exact hk.congr ⟨rfl, rfl, SameNodes.refl _, rfl, rfl, fun _ => ⟨rfl, rfl, rfl⟩⟩ fun _ => Iff.rfl
  · apply update_of_ne
    rintro rfl
    exact ((hk.frames k).of_holds (o := .yielded n) hk').2.2.1 hf

/-- `g` with a block that may have no frame. -/
def Ghost.noteBare (g : Ghost) (b : PbPtr) : Ghost :=
  { g with bare := fun c => g.bare c ∨ c = b }

theorem Kept.forgetBare (hk : Kept (g.noteBare b) s)
    (hb : ∀ pb, s.blocks b = some pb → pb.phys ≠ none) : Kept g s := by
  refine hk.settle g.bare (fun c pc hc hnone => ?_)
  rcases (hk.bare hc hnone).1 with hbare | hcb
  · exact hbare
  · subst hcb
    exact absurd hnone (hb pc hc)

theorem Quiet.forgetBare (hq : Quiet s (g.noteBare b) s')
    (hb : ∀ pb, s'.blocks b = some pb → pb.phys ≠ none) : Quiet s g s' :=
  ⟨⟨hq.kept.forgetBare hb, hq.evicted, hq.bytes⟩, hq.regions⟩

theorem Kept.noteBare (hk : Kept g s) (b : PbPtr) : Kept (g.noteBare b) s :=
  hk.settle _ fun _ _ hc hnone => .inl (hk.bare hc hnone).1

theorem mapPfBlock_quiet {o : Option PhysRegion} (h : mapPfBlock s p r offset = some (o, s'))
    (hk : Kept g s) (hx : ¬ g.limbo (p, r.vaddr + offset)) (hfresh : g.fresh = none)
    (hkind : (g.kind (p, r.vaddr + offset)).isSome) :
    (o = none → Quiet s g s' ∧ s'.physblocks = s.physblocks ∧ s'.blocks = s.blocks ∧
      s'.pt = s.pt) ∧ ∀ pr, o = some pr → Quiet s (g.noteBare pr.ph) s' ∧
      s'.physblocks (p, r.vaddr + offset) = some pr ∧ pr.offset = offset ∧
      ((s' = s ∧ s.physblocks (p, r.vaddr + offset) = some pr) ∨
        (s.physblocks (p, r.vaddr + offset) = none ∧
          s'.blocks pr.ph = some ⟨none, 1, [(p, r.vaddr + offset)]⟩ ∧ s.blocks pr.ph = none ∧
          s'.physblocks = update s.physblocks (p, r.vaddr + offset) (some pr) ∧
          (∀ c, c ≠ pr.ph → s'.blocks c = s.blocks c) ∧ s'.pt = s.pt)) := by
  unfold mapPfBlock at h
  split at h
  · cases h
  next pr hpr =>
    cases h
    unfold physblockGet at hpr
    split at hpr
    · split at hpr
      · cases hpr
      rename_i pr' hpr'
      split at hpr <;> cases hpr
      refine ⟨(fun h => by cases h), fun pr hpr => ?_⟩
      cases hpr
      exact ⟨(hk.noteBare _).quiet, hpr', by assumption, .inl ⟨rfl, hpr'⟩⟩
    · cases hpr
  rename_i hnone
  have hslot : s.physblocks (p, r.vaddr + offset) = none := by
    unfold physblockGet at hnone
    split at hnone
    · split at hnone
      next hn => exact hn
      next => split at hnone <;> cases hnone
    · cases hnone
  split at h
  · cases h
  next s₁ hnew =>
    cases h
    obtain ⟨tape, ⟨_, rfl⟩ | ⟨b, hb, _⟩⟩ := pbNew_cases hnew
    · exact ⟨fun _ => ⟨hk.readTape tape, rfl, rfl, rfl⟩, fun _ h => by cases h⟩
    · cases hb
  rename_i b s₁ hnew
  obtain ⟨tape, ⟨hb, _⟩ | ⟨b', hb', hbnone, rfl⟩⟩ := pbNew_cases hnew
  · cases hb
  cases hb'
  have hq1 := hk.readTape tape
  have hq2 := create_quiet none hq1.kept hfresh hbnone (fun _ h => by cases h)
  split at h
  · cases h
  next s₂ href =>
    obtain ⟨s3, hfree, heq⟩ := map_eq_some_iff.mp h
    cases heq
    refine ⟨fun _ => ?_, fun _ h => by cases h⟩
    obtain ⟨tape', ⟨_, rfl⟩ | ⟨hw, _⟩⟩ := pbReference_cases href
    · have hq3 := hq2.kept.readTape tape'
      have hblock : ({ ({ s with tape := tape }.setBlock b (some ⟨none, 0, []⟩)) with
          tape := tape' } : State).blocks b = some ⟨none, 0, []⟩ := setBlock_self ..
      unfold pbFree at hfree
      rw [hblock] at hfree
      cases hfree
      have hq4 := free_fresh_quiet hq3.kept hblock rfl rfl
      have hq := ((hq1.trans hq2).trans hq3).trans hq4
      refine ⟨⟨⟨?_, hq.evicted, hq.bytes⟩, hq.regions⟩, rfl, ?_, rfl⟩
      case refine_2 =>
        simp only [setBlock, update_idem]
        exact update_eq_self_iff.mpr hbnone.symm
      have hgh : ({ g.create b none with fresh := none } : Ghost) = g.noteBare b := by
        ext <;> simp [create, noteBare, hfresh]
      have hkept := hq.kept
      rw [hgh] at hkept
      apply hkept.forgetBare
      intro pb hpb
      rw [setBlock_self] at hpb
      cases hpb
    · cases hw
  next s₂ href =>
    cases h
    refine ⟨(fun h => by cases h), fun pr hpr => ?_⟩
    cases hpr
    obtain ⟨tape', ⟨hw, _⟩ | ⟨_, _, hlink⟩⟩ := pbReference_cases href
    · cases hw
    have hq3 := hq2.kept.readTape tape'
    have hblock : ({ ({ s with tape := tape }.setBlock b (some ⟨none, 0, []⟩)) with
        tape := tape' } : State).blocks b = some ⟨none, 0, []⟩ := setBlock_self ..
    have htarget : target (g.create b none) ({ ({ s with tape := tape }.setBlock b
        (some ⟨none, 0, []⟩)) with tape := tape' } : State) (p, r.vaddr + offset) = none := by
      rw [target_eq (by exact hx)]
      simp [setBlock, hslot]
    have hq4 := pbLink_quiet hlink hq3.kept htarget hkind
      (fun pb hpb => by
        rw [hblock, some.injEq] at hpb
        subst hpb
        exact ⟨by decide, .inl ⟨rfl, rfl⟩⟩)
      (fun c hc => (some.inj hc).symm)
    have hgh : (g.create b none).link (p, r.vaddr + offset) = g.noteBare b := by
      rw [← link_eq hx hfresh]
      ext <;> simp [create, noteBare, link]
    rw [hgh] at hq4
    obtain ⟨pb, hpb, rfl⟩ := pbLink_eq hlink
    rw [hblock, some.injEq] at hpb
    subst hpb
    refine ⟨((hq1.trans hq2).trans hq3).trans hq4, ?_, rfl, .inr ⟨hslot, setBlock_self ..,
      hbnone, rfl, fun c hc => ?_, rfl⟩⟩
    · simp [setBlock, setSlot]
    · rw [setBlock_of_ne _ hc]
      exact setBlock_of_ne _ hc _

/-! ## The page fault handlers -/

/-- What a handler leaves behind: its page has a frame, or it has none and the fault failed. -/
def Handled (g : Ghost) (s : State) (x : Slot) (pr : PhysRegion) (e : Status) (s' : State) : Prop :=
  (e = .ok → Quiet s g s') ∧ (e ≠ .ok →
    (Quiet s (g.noteBare pr.ph) s' ∧ s'.physblocks x = s.physblocks x) ∨
      Quiet s ((g.noteBare pr.ph).unlink x) s')

theorem Quiet.settled (hq : Quiet s g' s') (hk : Kept g s') : Quiet s g s' :=
  ⟨⟨hk, hq.evicted, hq.bytes⟩, hq.regions⟩

theorem cow_quiet {new old : Frame} {tape : List Choice} {mt : MemType} {parent : ProcNr}
    (hk : Kept (g.take new 1) s) (hnew : ¬ g.hand new) (hx : ¬ g.limbo x)
    (hfresh : g.fresh = none) (hslot : s.physblocks x = some pr) (hb : s.blocks pr.ph = some pb)
    (hone : pb.refcount ≠ 1) (hkind : g.kind x = some mt) (hmt : mt ≠ .directphys)
    (hp : Known g s parent) (hbor : ¬ g.borrowed pr.ph) (hbnone : s.blocks b = none)
    (hunlink : pbUnlink ({ absCopy s old new with tape := tape }.setBlock b
      (some ⟨some new, 0, []⟩)) parent mt x = some s₁)
    (hlink : pbLink s₁ x b offset = some s') :
    Quiet s g s' ∧ s'.physblocks = update s.physblocks x (some ⟨b, offset⟩) ∧
      s'.blocks = update (update s.blocks pr.ph (some { pb with
        refcount := pb.refcount - 1, regions := pb.regions.erase x })) b
          (some ⟨some new, 1, [x]⟩) := by
  have hne : b ≠ pr.ph := by
    rintro rfl
    rw [hb] at hbnone
    cases hbnone
  have hcopy := absCopy_quiet old hk (.inr ⟨Nat.le_refl new, Nat.lt_succ_self _⟩)
  have hq2 := hcopy.kept.readTape tape
  have hq3 := create_quiet (some new) hq2.kept hfresh hbnone (by
    intro f hf
    cases hf
    exact .inr ⟨Nat.le_refl _, Nat.lt_succ_self _⟩)
  have hq03 := (hcopy.trans hq2).trans hq3
  have hq4 := pbUnlink_quiet hunlink hq3.kept (hq03.evicted.known hp) hkind (by
    intro c hc
    rw [target_eq (by exact hx)] at hc
    simp only [State.setBlock, absCopy, hslot, map_some, some.injEq] at hc
    exact hc ▸ hbor)
  have hphys1 : s₁.physblocks = s.physblocks := (pbUnlink_physblocks hunlink).trans rfl
  have hblocks1 : s₁.blocks = update (update s.blocks b
      (some ⟨some new, 0, []⟩)) pr.ph (some { pb with
        refcount := pb.refcount - 1, regions := pb.regions.erase x }) := by
    have := pbUnlink_blocks hunlink hslot ((setBlock_of_ne _ hne.symm _).trans hb)
    rwa [if_neg hone] at this
  have hbb : s₁.blocks b = some ⟨some new, 0, []⟩ := by
    rw [hblocks1, update_of_ne hne, update_self]
  have hq5 := pbLink_quiet hlink hq4.kept (by simp [target, Ghost.unlink])
    (by
      show (g.kind x).isSome
      rw [hkind]
      rfl)
    (by
      intro pc hpc
      rw [hbb, some.injEq] at hpc
      rw [← hpc]
      refine ⟨Nat.zero_lt_succ 254, .inr ⟨by simp, ?_⟩⟩
      show g.kind x = _ ↔ _
      simp [hkind, hmt, Direct])
    (fun c hc => (some.inj hc).symm)
  have hgh : (((g.take new 1).create b (some new)).unlink x).link x = g := by
    have hcreate : (((g.take new 1).create b (some new)).unlink x).link x =
        (g.unlink x).link x := by
      ext k
      case hand =>
        refine Iff.trans ?_ (take_one_hand hnew k)
        simp [Ghost.link, Ghost.unlink, Ghost.create, Ghost.take, eq_comm]
      all_goals simp [Ghost.link, Ghost.unlink, Ghost.create, Ghost.take]
    rw [hcreate, Ghost.unlink_link hx hfresh]
  rw [hgh] at hq5
  refine ⟨(hq03.trans hq4).trans hq5, ?_, ?_⟩
  · obtain ⟨_, _, rfl⟩ := pbLink_eq hlink
    simp only [State.setBlock, State.setSlot, hphys1]
  obtain ⟨pc, hpc, rfl⟩ := pbLink_eq hlink
  rw [hbb, some.injEq] at hpc
  rw [← hpc]
  simp only [State.setBlock, State.setSlot, hblocks1]
  rw [update_comm hne, update_idem]

theorem anonPagefault_quiet (h : anonPagefault s p r v pr write = some (e, s'))
    (hk : Kept (g.noteBare pr.ph) s) (hx : ¬ g.limbo (p, v)) (hfresh : g.fresh = none)
    (hslot : s.physblocks (p, v) = some pr) (hkind : g.kind (p, v) = some .anon)
    (hmt : r.memtype = .anon) (h64 : r.phys64k = false) (hp : Known g s p)
    (hbor : ¬ g.borrowed pr.ph)
    (hwrite : ∀ pb, s.blocks pr.ph = some pb → pb.phys ≠ none → write = true ∧ pb.refcount ≠ 1) :
    Handled g s (p, v) pr e s' := by
  have htarget : target (g.noteBare pr.ph) s (p, v) = some pr.ph := by
    rw [target_eq (by exact hx), hslot]
    rfl
  unfold anonPagefault at h
  split at h
  · cases h
  rename_i pb hb
  have hmem : (p, v) ∈ pb.regions := (hk.mem_regions hb).mpr htarget
  have hnd : ¬ Direct g.kind pb.regions := by
    intro hd
    have hkd : g.kind (p, v) = some .directphys := (hk.direct_iff hb hmem).mp hd
    rw [hkind] at hkd
    cases hkd
  split at h
  · cases h
  rename_i hpos
  rw [h64] at h
  split at h
  · cases h
  next s₁ halloc =>
    cases h
    obtain ⟨hrest, hq⟩ := allocMem_quiet halloc hk
    exact ⟨nofun, fun _ => .inl ⟨hq, congrFun hrest.physblocks _⟩⟩
  rename_i new s₁ halloc
  obtain ⟨hrest, hq, hnew⟩ := allocMem_quiet halloc hk
  have hhand : ¬ g.hand new := hnew new (Nat.le_refl _) (Nat.lt_succ_self _)
  have hb1 : s₁.blocks pr.ph = some pb := hrest.blocks ▸ hb
  split at h
  next hnone =>
    -- a new block gets its frame
    cases h
    refine ⟨fun _ => ?_, nofun⟩
    have hq' := setPhys_hand_quiet (f := new) hq.kept hb1 hnone
      (.inr ⟨Nat.le_refl _, Nat.lt_succ_self _⟩) hnd
    refine (hq.trans hq').settled ?_
    have hkept := hq'.kept.settle g.bare fun c pc hc hn =>
      (hq'.kept.bare hc hn).1.1.resolve_right (hq'.kept.bare hc hn).1.2
    have hgh : ({ (g.noteBare pr.ph).take new 1 with
        hand := fun k => ((g.noteBare pr.ph).take new 1).hand k ∧ k ≠ new
        bare := g.bare } : Ghost) = g := by
      ext k
      case hand => exact take_one_hand hhand k
      all_goals simp [take, noteBare]
    exact hgh ▸ hkept
  rename_i old hold
  -- a copy is made for a write to a block that is shared
  obtain ⟨hw, hone⟩ := hwrite pb hb (by simp [hold])
  split at h
  next hnot =>
    simp only [hw, Bool.true_eq_false, or_false] at hnot
    omega
  split at h
  · cases h
  split at h
  · cases h
  next s₂ hpb =>
    cases h
    refine ⟨nofun, fun _ => .inl ?_⟩
    obtain ⟨tape, ⟨_, rfl⟩ | ⟨b, hb', _⟩⟩ := pbNew_cases hpb
    · have hcopy := absCopy_quiet old hq.kept
        (.inr ⟨Nat.le_refl new, Nat.lt_succ_self _⟩)
      have hq2 := hcopy.kept.readTape tape
      exact ⟨((hq.trans hcopy).trans hq2).trans (freeMem_take_quiet hq2.kept hhand),
        congrFun hrest.physblocks _⟩
    · cases hb'
  rename_i b s₂ hpb
  obtain ⟨tape, ⟨hb', _⟩ | ⟨b', hb', hbnone, rfl⟩⟩ := pbNew_cases hpb
  · cases hb'
  cases hb'
  split at h
  · cases h
  rename_i s3 hunlink
  obtain ⟨s4, hlink, heq⟩ := map_eq_some_iff.mp h
  cases heq
  refine ⟨fun _ => ?_, nofun⟩
  obtain ⟨hq', _, hblocks⟩ := cow_quiet hq.kept hhand hx hfresh
    (hrest.physblocks ▸ hslot) hb1 hone (by exact hmt ▸ hkind)
    (by simp [hmt]) (hq.evicted.known hp) hbor hbnone hunlink hlink
  refine (hq.trans hq').forgetBare fun pc hpc => ?_
  rw [hblocks] at hpc
  by_cases hbp : pr.ph = b
  · rw [hbp, update_self, some.injEq] at hpc
    simp [← hpc]
  · rw [update_of_ne hbp, update_self, some.injEq] at hpc
    simp [← hpc, hold]

/-! ## `map_pf` -/

theorem pbUnreferenced_forget {mt : MemType} {parent : ProcNr}
    (h : pbUnreferenced s parent mt x = some s') (hk : Kept g s)
    (hslot : s.physblocks x = some pr) :
    ∀ pb, s'.blocks pr.ph = some pb → pb.phys ≠ none := by
  obtain ⟨s₁, h1, rfl⟩ := map_eq_some_iff.mp h
  obtain ⟨pr', pb', hpr', hb', hmem, _⟩ := pbUnlink_cases h1
  rw [hslot, some.injEq] at hpr'
  subst hpr'
  intro pb hpb hnone
  rw [setSlot, pbUnlink_blocks h1 hslot hb', update_self] at hpb
  split at hpb
  · cases hpb
  rename_i hone
  rw [some.injEq] at hpb
  subst hpb
  have hlen := (hk.bare hb' hnone).2
  have hcount := hk.count hb'
  have := List.length_pos_of_mem hmem
  omega

/-- How `map_pf` calls the handler. -/
structure Faulting (g : Ghost) (s : State) (p : ProcNr) (r : VirRegion) (offset : Nat)
    (write : Bool) (s₁ : State) (pr : PhysRegion) : Prop where
  quiet : Quiet s (g.noteBare pr.ph) s₁
  slot : s₁.physblocks (p, r.vaddr + offset) = some pr
  offset_eq : pr.offset = offset
  block : (s₁ = s ∧ s.physblocks (p, r.vaddr + offset) = some pr) ∨
    (s.physblocks (p, r.vaddr + offset) = none ∧
      s₁.blocks pr.ph = some ⟨none, 1, [(p, r.vaddr + offset)]⟩ ∧ s.blocks pr.ph = none ∧
      s₁.physblocks = update s.physblocks (p, r.vaddr + offset) (some pr) ∧
      (∀ c, c ≠ pr.ph → s₁.blocks c = s.blocks c) ∧ s₁.pt = s.pt)
  notWritable : ∃ pb w, s₁.blocks pr.ph = some pb ∧ blockWritable r pb = some w ∧
    ¬ (write = true ∧ w = true)

theorem Faulting.not_borrowed {s₁ : State} (h : Faulting g s p r offset write s₁ pr)
    (hk : Kept g s) (hx : ¬ g.limbo (p, r.vaddr + offset))
    (hbor : ∀ b, target g s (p, r.vaddr + offset) = some b → ¬ g.borrowed b) :
    ¬ g.borrowed pr.ph := by
  rcases h.block with ⟨_, hslot⟩ | ⟨_, _, hnone, _⟩
  · apply hbor
    rw [target_eq hx, hslot]
    rfl
  · intro hb
    obtain ⟨pb, hpb, _⟩ := hk.lent hb
    rw [hnone] at hpb
    cases hpb

theorem mapPfWith_quiet {ev : State → PhysRegion → Option (Status × State)}
    (h : mapPfWith ev s p r offset write = some (e, s')) (hk : Kept g s)
    (hx : ¬ g.limbo (p, r.vaddr + offset)) (hfresh : g.fresh = none)
    (hkind : g.kind (p, r.vaddr + offset) = some r.memtype) (hp : Known g s p)
    (hbor : ∀ b, target g s (p, r.vaddr + offset) = some b → ¬ g.borrowed b)
    (hev : ∀ s₁ pr e s₂, Faulting g s p r offset write s₁ pr → ev s₁ pr = some (e, s₂) →
      Handled g s₁ (p, r.vaddr + offset) pr e s₂) : Quiet s g s' := by
  unfold mapPfWith at h
  split at h
  · cases h
  split at h
  · cases h
  next s₁ hblock =>
    cases h
    exact ((mapPfBlock_quiet hblock hk hx hfresh (by simp [hkind])).1 rfl).1
  rename_i pr s₁ hblock
  obtain ⟨hq, hslot, hoff, hcase⟩ :=
    (mapPfBlock_quiet hblock hk hx hfresh (by simp [hkind])).2 pr rfl
  split at h
  · cases h
  rename_i pb hb
  split at h
  · cases h
  rename_i w hw
  split at h
  · cases h
  next s₂ hfault =>
    -- the page has a frame now
    have hq2 : Quiet s₁ (g.noteBare pr.ph) s₂ ∧ (¬ (write = true ∧ w = true) → Quiet s₁ g s₂) := by
      split at hfault
      next hwr =>
        cases hfault
        exact ⟨hq.kept.quiet, fun hnot => absurd hwr hnot⟩
      rename_i hwr
      have hq' := (hev s₁ pr _ s₂ ⟨hq, hslot, hoff, hcase, pb, w, hb, hw, hwr⟩
        hfault).1 rfl
      exact ⟨hq'.settled (hq'.kept.noteBare _), fun _ => hq'⟩
    split at h
    · cases h
    rename_i pr' hslot'
    by_cases hwr : write = true ∧ w = true
    · rw [if_pos hwr, some.injEq, Prod.mk.injEq] at hfault
      obtain ⟨_, rfl⟩ := hfault
      rw [hslot, some.injEq] at hslot'
      subst hslot'
      obtain ⟨hq', hblocks, _⟩ := mapPhWritept_quiet h hq.kept (hq.evicted.known hp)
      refine (hq.trans hq').forgetBare fun pc hpc => ?_
      -- without a frame the entry could not have been written
      rw [hblocks, hb, some.injEq] at hpc
      subst hpc
      intro hnone
      unfold mapPhWritept at h
      simp only [hb, hw, hnone] at h
      cases h
    · obtain ⟨hq', _⟩ := mapPhWritept_quiet h (hq2.2 hwr).kept
        ((hq.trans (hq2.2 hwr)).evicted.known hp)
      exact (hq.trans (hq2.2 hwr)).trans hq'
  next e' s₂ hne hfault =>
    obtain ⟨s3, hunref, heq⟩ := map_eq_some_iff.mp h
    cases heq
    split at hfault
    · cases hfault
      exact absurd rfl hne
    rename_i hwr
    have hne' : e ≠ .ok := fun he => hne (he ▸ rfl)
    have hf : Faulting g s p r offset write s₁ pr := ⟨hq, hslot, hoff, hcase, pb, w, hb, hw, hwr⟩
    have hh := (hev s₁ pr _ s₂ hf hfault).2 hne'
    rcases hh with ⟨hq2, hsame⟩ | hq2
    · rw [hslot] at hsame
      have hq3 := pbUnreferenced_quiet hunref hq2.kept hx
        ((hq.trans hq2).evicted.known hp) hkind (by
          intro c hc
          rw [target_eq (by exact hx), hsame, map_some, some.injEq] at hc
          exact hc ▸ hf.not_borrowed hk hx hbor)
      exact ((hq.trans hq2).trans hq3).forgetBare
        (pbUnreferenced_forget hunref hq2.kept hsame)
    · obtain ⟨s4, h4, _⟩ := map_eq_some_iff.mp hunref
      rw [pbUnlink_limbo hq2.kept (.inr rfl)] at h4
      cases h4

/-- The page is there and a write to it needs no other frame. -/
def Writable (s : State) (p : ProcNr) (r : VirRegion) (offset : Nat) : Prop :=
  ∃ pr pb, s.physblocks (p, r.vaddr + offset) = some pr ∧ s.blocks pr.ph = some pb ∧
    blockWritable r pb = some true

theorem mapPfAnon_quiet (h : mapPfAnon s p r offset write = some (e, s')) (hk : Kept g s)
    (hx : ¬ g.limbo (p, r.vaddr + offset)) (hfresh : g.fresh = none)
    (hkind : g.kind (p, r.vaddr + offset) = some .anon) (hmt : r.memtype = .anon)
    (h64 : r.phys64k = false ∨ (write = true ∧ Writable s p r offset)) (hp : Known g s p)
    (hbor : ∀ b, target g s (p, r.vaddr + offset) = some b → ¬ g.borrowed b)
    (hread : write = true ∨ s.physblocks (p, r.vaddr + offset) = none) : Quiet s g s' := by
  refine mapPfWith_quiet h hk hx hfresh (hmt ▸ hkind) hp hbor fun s₁ pr e s₂ hf h' => ?_
  obtain ⟨pb', w, hb', hw, hnot⟩ := hf.notWritable
  have hno : r.phys64k = false := by
    rcases h64 with h64 | ⟨hwr, pr0, pb0, hpr0, hpb0, hw0⟩
    · exact h64
    rcases hf.block with ⟨rfl, hslot⟩ | ⟨hnone, _⟩
    · rw [hslot, some.injEq] at hpr0
      subst hpr0
      rw [hb', some.injEq] at hpb0
      subst hpb0
      rw [hw, some.injEq] at hw0
      exact absurd ⟨hwr, hw0⟩ hnot
    · rw [hnone] at hpr0
      cases hpr0
  refine anonPagefault_quiet h' hf.quiet.kept hx hfresh hf.slot hkind hmt hno
    (hf.quiet.evicted.known hp) (hf.not_borrowed hk hx hbor) fun pb hb hphys => ?_
  rw [hb, some.injEq] at hb'
  subst hb'
  have hwrite : write = true := by
    rcases hread with hw' | hnone
    · exact hw'
    rcases hf.block with ⟨rfl, hslot⟩ | ⟨_, hb'', _⟩
    · rw [hnone] at hslot
      cases hslot
    · rw [hb, some.injEq] at hb''
      exact absurd (by rw [hb'']) hphys
  refine ⟨hwrite, fun hone => hnot ⟨hwrite, ?_⟩⟩
  unfold blockWritable at hw
  obtain ⟨k, hk'⟩ := ne_none_iff_exists'.mp hphys
  simp only [hone, hmt, hk', isSome_some, decide_true, Bool.and_self, Bool.or_true,
    Nat.one_ne_zero, ↓reduceIte, some.injEq] at hw
  exact hw.symm

theorem physPagefault_quiet (h : physPagefault s r pr = some (e, s'))
    (hk : Kept (g.noteBare pr.ph) s) (hx : ¬ g.limbo (p, v))
    (hslot : s.physblocks (p, v) = some pr) (hkind : g.kind (p, v) = some .directphys) :
    Handled g s (p, v) pr e s' := by
  unfold physPagefault at h
  split at h
  next refcount regions hb =>
    cases h
    refine ⟨fun _ => ?_, nofun⟩
    have hmem : (p, v) ∈ regions := by
      apply (hk.mem_regions hb).mpr
      rw [target_eq (by exact hx), hslot]
      rfl
    have hq := setPhys_direct_quiet (f := r.phys + pr.offset) hk hb rfl ⟨(p, v), hmem, hkind⟩
    refine hq.settled ?_
    have hkept := hq.kept.settle g.bare fun c pc hc hn =>
      (hq.kept.bare hc hn).1.1.resolve_right (hq.kept.bare hc hn).1.2
    exact hkept
  next => cases h

def Covers (g : Ghost) (s : State) : Prop :=
  ∀ p, ∀ r ∈ (s.vmproc p).regions, ∀ v, r.Contains v → g.kind (p, v) = some r.memtype

theorem mapLookup_eq_some (h : mapLookup s p v = some r) :
    r ∈ (s.vmproc p).regions ∧ r.Contains v :=
  ⟨List.mem_of_find?_eq_some h, by simpa using List.find?_some h⟩

theorem getsrc_spec (h : getsrc s r = some (q, src)) :
    r.memtype = .shared ∧ src ∈ (s.vmproc q).regions ∧ src.memtype = .anon ∧ Live s q ∧
      ∃ param, r.source = some param ∧ src.Contains param.vaddr ∧ param.id = src.id ∧
        (s.vmproc q).endpoint = some param.ep ∧ param.ep.slot = q := by
  unfold getsrc at h
  split at h
  next param hmt hsource =>
    split at h
    · cases h
    rename_i q' hok
    split at h
    · cases h
    rename_i src' hl
    split at h
    next hcond =>
      cases h
      obtain ⟨hmem, hcont⟩ := mapLookup_eq_some hl
      unfold vmIsokendpt at hok
      split at hok
      next hlive =>
        cases hok
        exact ⟨hmt, hmem, hcond.1, ⟨hlive.1, by rw [hlive.2]; rfl⟩, param, hsource, hcont,
          hcond.2, hlive.2, rfl⟩
      next => cases hok
    next => cases h
  next => cases h

theorem physblockGet_eq_some {o : Option PhysRegion} (h : physblockGet s p r offset = some o) :
    offset < r.length ∧ s.physblocks (p, r.vaddr + offset) = o ∧
      ∀ pr, o = some pr → pr.offset = offset := by
  unfold physblockGet at h
  split at h
  next hlt =>
    split at h
    next hnone =>
      cases h
      exact ⟨hlt, hnone, nofun⟩
    rename_i pr hpr
    split at h
    next hoff =>
      cases h
      refine ⟨hlt, hpr, fun pr' hpr' => ?_⟩
      cases hpr'
      exact hoff
    next => cases h
  next => cases h

theorem contains_add {k : Nat} (h : k < r.length) : r.Contains (r.vaddr + k) :=
  ⟨Nat.le_add_right _ _, Nat.add_lt_add_left h _⟩

/-! ## Shared memory -/

theorem mapPhWritept_ok (h : mapPhWritept s p r v pr = some (.ok, s')) :
    ∃ pb w f, s.blocks pr.ph = some pb ∧ blockWritable r pb = some w ∧ pb.phys = some f ∧
      s'.pt = update s.pt (p, v) (some ⟨f, r.writable && w⟩) := by
  unfold mapPhWritept at h
  split at h
  · cases h
  rename_i pb hb
  split at h
  next w f hw hf =>
    split at h
    · cases h
    next s₁ h1 =>
      cases h
      exact ⟨pb, w, f, hb, hw, hf, by simp only [(ptPtalloc_same h1).2.2]⟩
    next e' s₁ hne h1 =>
      cases h
  next => cases h

theorem anonPagefault_bare (h : anonPagefault s p r v pr write = some (.ok, s'))
    (h64 : r.phys64k = false) (hb : s.blocks pr.ph = some pb)
    (hnone : pb.phys = none) :
    ∃ f, s'.blocks = update s.blocks pr.ph (some { pb with phys := some f }) ∧
      s'.physblocks = s.physblocks ∧ s'.pt = s.pt := by
  unfold anonPagefault at h
  rw [hb] at h
  simp only [h64] at h
  split at h
  · cases h
  split at h
  · cases h
  · cases h
  rename_i new s₁ halloc
  have hrest := allocMem_rest halloc
  rw [hnone] at h
  cases h
  refine ⟨new, ?_, hrest.physblocks, hrest.pt⟩
  simp only [setBlock, hrest.blocks]

theorem mapPfWith_absent {ev : State → PhysRegion → Option (Status × State)}
    (h : mapPfWith ev s p r offset write = some (.ok, s')) (hk : Kept g s)
    (hx : ¬ g.limbo (p, r.vaddr + offset)) (hfresh : g.fresh = none)
    (hkind : (g.kind (p, r.vaddr + offset)).isSome)
    (hnone : s.physblocks (p, r.vaddr + offset) = none) :
    ∃ pr s₁ s₂ pr', Faulting g s p r offset write s₁ pr ∧
      s.blocks pr.ph = none ∧ s₁.blocks pr.ph = some ⟨none, 1, [(p, r.vaddr + offset)]⟩ ∧
      s₁.physblocks = update s.physblocks (p, r.vaddr + offset) (some pr) ∧
      (∀ c, c ≠ pr.ph → s₁.blocks c = s.blocks c) ∧ s₁.pt = s.pt ∧
      ev s₁ pr = some (.ok, s₂) ∧ s₂.physblocks (p, r.vaddr + offset) = some pr' ∧
      mapPhWritept s₂ p r (r.vaddr + offset) pr' = some (.ok, s') := by
  unfold mapPfWith at h
  split at h
  · cases h
  split at h
  · cases h
  next s₁ hblock => cases h
  rename_i pr s₁ hblock
  obtain ⟨hq, hslot, hoff, hcase⟩ := (mapPfBlock_quiet hblock hk hx hfresh hkind).2 pr rfl
  have hcase' := hcase
  rcases hcase with ⟨_, hsome⟩ | ⟨_, hb, hbnone, hphys, hblocks, hpt⟩
  · rw [hnone] at hsome
    cases hsome
  rw [hb] at h
  split at h
  next pb' hb' => cases hb'
  rename_i pb' hb'
  cases hb'
  split at h
  · cases h
  rename_i w hw
  split at h
  · cases h
  next s₂ hfault =>
    split at h
    · cases h
    rename_i pr' hslot'
    split at hfault
    next =>
      -- the block has no frame to write into the page table
      cases hfault
      rw [hslot, some.injEq] at hslot'
      subst hslot'
      obtain ⟨pb, _, f, hpb, _, hf, _⟩ := mapPhWritept_ok h
      rw [hb, some.injEq] at hpb
      rw [← hpb] at hf
      cases hf
    next hwr =>
      exact ⟨pr, s₁, s₂, pr', ⟨hq, hslot, hoff, hcase', _, w, hb, hw, hwr⟩, hbnone, hb,
        hphys, hblocks, hpt, hfault, hslot', h⟩
  rename_i e' s₂ hne hfault
  obtain ⟨s3, _, heq⟩ := map_eq_some_iff.mp h
  cases heq
  exact absurd rfl hne

theorem mapPfAnon_absent (h : mapPfAnon s p r offset write = some (.ok, s')) (hk : Kept g s)
    (hx : ¬ g.limbo (p, r.vaddr + offset)) (hfresh : g.fresh = none)
    (hkind : g.kind (p, r.vaddr + offset) = some .anon) (hmt : r.memtype = .anon)
    (h64 : r.phys64k = false) (hp : Known g s p)
    (hnone : s.physblocks (p, r.vaddr + offset) = none) :
    ∃ b f, s.blocks b = none ∧
      s'.physblocks = update s.physblocks (p, r.vaddr + offset) (some ⟨b, offset⟩) ∧
      s'.blocks = update s.blocks b (some ⟨some f, 1, [(p, r.vaddr + offset)]⟩) ∧
      ∃ w, blockWritable r ⟨some f, 1, [(p, r.vaddr + offset)]⟩ = some w ∧
      s'.pt = update s.pt (p, r.vaddr + offset) (some ⟨f, r.writable && w⟩) := by
  obtain ⟨pr, s₁, s₂, pr', hf, hbnone, hb, hphys, hblocks, hpt, hfault, hslot', hwr⟩ :=
    mapPfWith_absent h hk hx hfresh (by simp [hkind]) hnone
  have hq := hf.quiet
  obtain ⟨f, hblocks2, hphys2, hpt2⟩ := anonPagefault_bare hfault h64 hb rfl
  have hbor : ¬ g.borrowed pr.ph := by
    intro hbor
    obtain ⟨pb, hpb, _⟩ := hk.lent hbor
    rw [hbnone] at hpb
    cases hpb
  have hq2 : Quiet s₁ g s₂ := (anonPagefault_quiet hfault hq.kept hx hfresh hf.slot
    hkind hmt h64 (hq.evicted.known hp) hbor (fun pb hpb hne => by
      rw [hb, some.injEq] at hpb
      exact absurd (by rw [← hpb]) hne)).1 rfl
  rw [hphys2, hf.slot, some.injEq] at hslot'
  subst hslot'
  obtain ⟨_, hblocks', hphys'⟩ := mapPhWritept_quiet hwr hq2.kept
    ((hq.trans hq2).evicted.known hp)
  obtain ⟨pb, w', k, hpb, hw', hk', hpt'⟩ := mapPhWritept_ok hwr
  rw [hblocks2, update_self, some.injEq] at hpb
  subst hpb
  cases hk'
  have hpr : pr = ⟨pr.ph, offset⟩ := by rw [← hf.offset_eq]
  refine ⟨pr.ph, f, hbnone, ?_, ?_, w', hw', ?_⟩
  · rw [hphys', hphys2, hphys, ← hpr]
  · rw [hblocks', hblocks2]
    funext c
    by_cases hc : c = pr.ph
    · subst hc
      simp
    · rw [update_of_ne hc, update_of_ne hc, hblocks c hc]
  · rw [hpt', hpt2, hpt]

/-- The block of the source has room for another reference, or it can be made. -/
def SourceLinkable (s : State) (r : VirRegion) (offset : Nat) : Prop :=
  ∀ q src, getsrc s r = some (q, src) →
    (s.physblocks (q, src.vaddr + offset) = none → src.phys64k = false) ∧
    ∀ pr pb, s.physblocks (q, src.vaddr + offset) = some pr → s.blocks pr.ph = some pb →
      pb.refcount < 255

theorem getsrc_congr (h : Evicted s s') (hreg : ∀ p, (s'.vmproc p).regions = (s.vmproc p).regions)
    (r : VirRegion) : getsrc s' r = getsrc s r := by
  have hlook : ∀ p v, mapLookup s' p v = mapLookup s p v := fun p v => by
    unfold mapLookup
    rw [hreg p]
  have hok : ∀ ep, vmIsokendpt s' ep = vmIsokendpt s ep := fun ep => by
    unfold vmIsokendpt
    rw [(h.vmproc ep.slot).1, (h.vmproc ep.slot).2]
  unfold getsrc
  simp only [hlook, hok]

theorem sharedPagefault_quiet (h : sharedPagefault s p r v pr write = some (e, s'))
    (hk : Kept (g.noteBare pr.ph) s) (hx : ∀ y, ¬ g.limbo y) (hfresh : g.fresh = none)
    (hbare : ∀ c, ¬ g.bare c) (hcov : Covers g s)
    (hslot : s.physblocks (p, v) = some pr) (hkind : g.kind (p, v) = some .shared)
    (hbor : ¬ g.borrowed pr.ph)
    (hsrc : ∀ pb, s.blocks pr.ph = some pb → pb.phys = none → SourceLinkable s r pr.offset) :
    Handled g s (p, v) pr e s' := by
  have htarget : target (g.noteBare pr.ph) s (p, v) = some pr.ph := by
    rw [target_eq (by exact hx _), hslot]
    rfl
  unfold sharedPagefault at h
  split at h
  · cases h
    exact ⟨(fun h => by cases h), fun _ => .inl ⟨hk.quiet, rfl⟩⟩
  rename_i q src hget
  obtain ⟨_, hmem, hanon, hlive, _⟩ := getsrc_spec hget
  split at h
  next refcount regions hb =>
    obtain ⟨halign, hroom⟩ := hsrc _ hb rfl q src hget
    have hreg : regions = [(p, v)] := by
      have hlen : regions.length ≤ 1 := (hk.bare hb rfl).2
      have hin : (p, v) ∈ regions := (hk.mem_regions hb).mpr htarget
      obtain ⟨y, hy⟩ := List.length_eq_one_iff.mp
        (Nat.le_antisymm hlen (List.length_pos_of_mem hin))
      rw [hy, List.mem_singleton] at hin
      rw [hy, hin]
    have hq2 : Quiet s ((g.noteBare pr.ph).unlink (p, v)) (s.setBlock pr.ph none) :=
      unlinkLast_quiet hk hb hreg hkind hbor
    have hnote : Kept ((g.unlink (p, v)).noteBare pr.ph) (s.setBlock pr.ph none) := hq2.kept
    have hk2 : Kept (g.unlink (p, v)) (s.setBlock pr.ph none) := hnote.forgetBare fun pb hpb => by
        rw [setBlock_self] at hpb
        cases hpb
    have hq2' : Quiet s (g.unlink (p, v)) (s.setBlock pr.ph none) := hq2.settled hk2
    split at h
    · cases h
    rename_i s₂ hfree
    have hs2 : s₂ = s.setBlock pr.ph none := by
      unfold pbFree at hfree
      rw [hb] at hfree
      exact (some.inj hfree).symm
    subst hs2
    -- the page of the source is another slot
    have hother : ∀ {k}, k < src.length → g.kind (q, src.vaddr + k) = some .anon ∧
        (q, src.vaddr + k) ≠ (p, v) := by
      intro k hlt
      have hkd := hcov q src hmem _ (contains_add hlt)
      rw [hanon] at hkd
      refine ⟨hkd, ?_⟩
      intro heq
      rw [heq, hkind] at hkd
      cases hkd
    -- linking the page to the block of the source ends the fault
    have hlink : ∀ {s₁ s4 : State} {pr' : PhysRegion}, Kept (g.unlink (p, v)) s₁ →
        pr.offset < src.length →
        s₁.physblocks (q, src.vaddr + pr.offset) = some pr' →
        (∀ pb, s₁.blocks pr'.ph = some pb → pb.refcount < 255) →
        pbLink s₁ (p, v) pr'.ph pr.offset = some s4 → Quiet s₁ g s4 := by
      intro s₁ s4 pr' hk1 hlt hpr' hlt' hl
      obtain ⟨hkd, hne⟩ := hother hlt
      have hq := pbLink_quiet hl hk1 (by simp [target, Ghost.unlink])
        (by
          show (g.kind (p, v)).isSome
          rw [hkind]
          rfl)
        (fun pb hpb => by
          have hin : (q, src.vaddr + pr.offset) ∈ pb.regions := by
            apply (hk1.mem_regions hpb).mpr
            rw [target_eq (by
              rintro (hl | hl)
              · exact hx _ hl
              · exact hne hl), hpr']
            rfl
          refine ⟨hlt' pb hpb, .inr ⟨fun hnone => ?_, ?_⟩⟩
          · exact hbare _ (hk1.bare hpb hnone).1
          · rw [hk1.direct_iff hpb hin]
            show g.kind (p, v) = _ ↔ g.kind (q, src.vaddr + pr.offset) = _
            simp [hkind, hkd])
        (fun c hc => by
          have hc' : g.fresh = some c := hc
          rw [hfresh] at hc'
          cases hc')
      rwa [Ghost.unlink_link (hx _) hfresh] at hq
    split at h
    · cases h
    next pr' hget' =>
      obtain ⟨s4, hl, heq⟩ := map_eq_some_iff.mp h
      cases heq
      obtain ⟨hlt, hpr', _⟩ := physblockGet_eq_some hget'
      refine ⟨fun _ => hq2'.trans (hlink hk2 hlt hpr' (fun pb hpb => ?_) hl), fun h => absurd rfl h⟩
      have hne : pr'.ph ≠ pr.ph := by
        intro heq
        rw [heq, setBlock_self] at hpb
        cases hpb
      rw [setBlock_of_ne _ hne] at hpb
      exact hroom pr' pb hpr' hpb
    rename_i hget'
    obtain ⟨hlt, hnone, _⟩ := physblockGet_eq_some hget'
    obtain ⟨hkd, hne⟩ := hother hlt
    have h64 := halign hnone
    have hy : ¬ (g.unlink (p, v)).limbo (q, src.vaddr + pr.offset) := by
      rintro (hl | hl)
      · exact hx _ hl
      · exact hne hl
    have hpf : ∀ {e' : Status} {s₁ : State}, mapPfAnon (s.setBlock pr.ph none) q src
        pr.offset write = some (e', s₁) → Quiet (s.setBlock pr.ph none) (g.unlink (p, v)) s₁ := by
      intro e' s₁ hpf
      refine mapPfAnon_quiet hpf hk2 hy hfresh hkd hanon (.inl h64)
        (hq2.evicted.known hlive.known) (fun b hb' => ?_) (.inr hnone)
      rw [target_eq hy, hnone] at hb'
      cases hb'
    split at h
    · cases h
    next s3 hok =>
      have hq3 := hpf hok
      split at h
      next pr' hget3 =>
        obtain ⟨s4, hl, heq⟩ := map_eq_some_iff.mp h
        cases heq
        obtain ⟨_, hpr', _⟩ := physblockGet_eq_some hget3
        obtain ⟨b, f, _, hphys, hblocks, _⟩ := mapPfAnon_absent hok hk2 hy hfresh hkd hanon
          h64 (hq2.evicted.known hlive.known) hnone
        rw [hphys, update_self, some.injEq] at hpr'
        subst hpr'
        refine ⟨fun _ => (hq2'.trans hq3).trans (hlink hq3.kept hlt ?_ (fun pb hpb => ?_) hl),
          fun h => absurd rfl h⟩
        · rw [hphys, update_self]
        · rw [hblocks, update_self, some.injEq] at hpb
          rw [← hpb]
          exact Nat.lt_of_lt_of_le Nat.one_lt_two (by decide)
      next => cases h
    rename_i e' s3 hne' hok
    cases h
    have hq3 := hpf hok
    exact ⟨fun he => absurd he (by rintro rfl; exact hne' rfl), fun _ =>
      .inr ((hq2'.trans hq3).settled (hq3.kept.noteBare _))⟩
  next => cases h

/-- No aligned frame, a page that is not there or is written, and a source page with room for a
reference. -/
structure CanFault (s : State) (p : ProcNr) (r : VirRegion) (offset : Nat) (write : Bool) :
    Prop where
  noAlign : r.memtype = .anon → r.phys64k = false ∨ (write = true ∧ Writable s p r offset)
  read : r.memtype = .anon → write = true ∨ s.physblocks (p, r.vaddr + offset) = none
  source : s.physblocks (p, r.vaddr + offset) = none → SourceLinkable s r offset

theorem CanFault.phys64k (h : CanFault s p r offset write) (hmt : r.memtype = .anon)
    (hnone : s.physblocks (p, r.vaddr + offset) = none) : r.phys64k = false := by
  rcases h.noAlign hmt with h64 | ⟨_, pr, pb, hpr, _⟩
  · exact h64
  · rw [hnone] at hpr
    cases hpr

theorem mapPf_anon (hmt : r.memtype = .anon) :
    mapPf s p r offset write = mapPfAnon s p r offset write := by
  unfold mapPf mapPfAnon evPagefault
  simp only [hmt]

theorem mapPf_quiet (h : mapPf s p r offset write = some (e, s')) (hk : Kept g s)
    (hx : ∀ y, ¬ g.limbo y) (hfresh : g.fresh = none) (hbare : ∀ c, ¬ g.bare c)
    (hcov : Covers g s) (hkind : g.kind (p, r.vaddr + offset) = some r.memtype)
    (hp : Known g s p) (hbor : ∀ b, target g s (p, r.vaddr + offset) = some b → ¬ g.borrowed b)
    (hcan : CanFault s p r offset write) : Quiet s g s' := by
  cases hmt : r.memtype with
  | anon =>
    rw [mapPf_anon hmt] at h
    exact mapPfAnon_quiet h hk (hx _) hfresh (hmt ▸ hkind) hmt (hcan.noAlign hmt) hp hbor
      (hcan.read hmt)
  | anonContig =>
    refine mapPfWith_quiet h hk (hx _) hfresh hkind hp hbor fun s₁ pr e s₂ hf h' => ?_
    simp [evPagefault, hmt] at h'
  | directphys =>
    refine mapPfWith_quiet h hk (hx _) hfresh hkind hp hbor fun s₁ pr e s₂ hf h' => ?_
    simp only [evPagefault, hmt] at h'
    exact physPagefault_quiet h' hf.quiet.kept (hx _) hf.slot (hmt ▸ hkind)
  | shared =>
    refine mapPfWith_quiet h hk (hx _) hfresh hkind hp hbor fun s₁ pr e s₂ hf h' => ?_
    simp only [evPagefault, hmt] at h'
    have hcov1 : Covers g s₁ := fun q r' hr' => hcov q r' (hf.quiet.regions q ▸ hr')
    refine sharedPagefault_quiet h' hf.quiet.kept hx hfresh hbare hcov1 hf.slot (hmt ▸ hkind)
      (hf.not_borrowed hk (hx _) hbor) ?_
    intro pb0 hpb0 hbare0 q src hget
    rw [getsrc_congr hf.quiet.evicted hf.quiet.regions] at hget
    rw [hf.offset_eq]
    rcases hf.block with ⟨rfl, _⟩ | ⟨hnone, hb, hbnone, hphys, hblocks, _⟩
    · -- a page that is there has a frame
      exact absurd (hk.bare hpb0 hbare0).1 (hbare _)
    obtain ⟨h64, hroom⟩ := hcan.source hnone q src hget
    refine ⟨fun hn => h64 ?_, fun pr' pb hpr' hpb => ?_⟩
    · by_contra hne
      rw [hphys] at hn
      by_cases hy : (q, src.vaddr + offset) = (p, r.vaddr + offset)
      · rw [hy, update_self] at hn
        cases hn
      · rw [update_of_ne hy] at hn
        exact hne hn
    rw [hphys] at hpr'
    by_cases hy : (q, src.vaddr + offset) = (p, r.vaddr + offset)
    · rw [hy, update_self, some.injEq] at hpr'
      subst hpr'
      rw [hb, some.injEq] at hpb
      rw [← hpb]
      exact Nat.lt_of_lt_of_le Nat.one_lt_two (by decide)
    rw [update_of_ne hy] at hpr'
    by_cases hc : pr'.ph = pr.ph
    · rw [hc, hb, some.injEq] at hpb
      rw [← hpb]
      exact Nat.lt_of_lt_of_le Nat.one_lt_two (by decide)
    · rw [hblocks _ hc] at hpb
      exact hroom pr' pb hpr' hpb

theorem sharedPagefault_ok (h : sharedPagefault s p r v pr write = some (.ok, s')) :
    ∃ q src pr', getsrc s r = some (q, src) ∧ s'.physblocks (p, v) = some ⟨pr'.ph, pr.offset⟩ ∧
      pr.offset < src.length ∧ ((q, src.vaddr + pr.offset) ≠ (p, v) →
        s'.physblocks (q, src.vaddr + pr.offset) = some pr') := by
  have hlink : ∀ {s₁ s₂ : State} {q : ProcNr} {src : VirRegion} {pr' : PhysRegion},
      physblockGet s₁ q src pr.offset = some (some pr') →
      pbLink s₁ (p, v) pr'.ph pr.offset = some s₂ →
      s₂.physblocks (p, v) = some ⟨pr'.ph, pr.offset⟩ ∧ pr.offset < src.length ∧
        ((q, src.vaddr + pr.offset) ≠ (p, v) →
          s₂.physblocks (q, src.vaddr + pr.offset) = some pr') := by
    intro s₁ s₂ q src pr' hget hl
    obtain ⟨hlt, hslot, _⟩ := physblockGet_eq_some hget
    obtain ⟨pb, _, rfl⟩ := pbLink_eq hl
    refine ⟨by simp [setBlock, setSlot], hlt, fun hne => ?_⟩
    simp only [setBlock, setSlot, update_of_ne hne]
    exact hslot
  unfold sharedPagefault at h
  split at h
  · cases h
  rename_i q src hget
  split at h
  · split at h
    · cases h
    split at h
    · cases h
    next pr' hget' =>
      obtain ⟨s4, hl, heq⟩ := map_eq_some_iff.mp h
      cases heq
      exact ⟨q, src, pr', hget, hlink hget' hl⟩
    split at h
    · cases h
    next s3 _ =>
      split at h
      next pr' hget' =>
        obtain ⟨s4, hl, heq⟩ := map_eq_some_iff.mp h
        cases heq
        exact ⟨q, src, pr', hget, hlink hget' hl⟩
      next => cases h
    next e' s3 hne _ =>
      cases h
      exact absurd rfl hne
  next => cases h

end HardenedMinix.Region
