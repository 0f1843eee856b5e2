import HardenedMinix.Vm.Ownership

/-!
# Blocks, slots and page tables change hands

What `pb.c` and the page table code do to the owners of frames.
-/

open Function List Option

namespace HardenedMinix.Region

open Lib State

variable {g g' : Ghost} {s s' s₁ s₂ : State} {p q : ProcNr} {x y : Slot} {b c : PbPtr} {f : Frame}
  {pb : PhysBlock}

/-! ## Frames in hand -/

/-- `g` with these frames no longer in hand. -/
def Ghost.drop (g : Ghost) (base clicks : Nat) : Ghost :=
  { g with hand := fun f => g.hand f ∧ ¬ (base ≤ f ∧ f < base + clicks) }

theorem freeMem_quiet (base clicks : Nat) (hk : Kept g s)
    (hS : ∀ f, base ≤ f ∧ f < base + clicks → g.hand f) :
    Quiet s (g.drop base clicks) (freeMem s base clicks) := by
  refine Kept.quiet_of ?_ rfl rfl rfl rfl
  refine hk.moved _ rfl rfl hk.pages hk.tables ?_
  exact hk.frames.release hS (fun f => freeMem_iff) (fun f => Iff.rfl)

theorem freeMem_take_quiet (hk : Kept (g.take f 1) s) (hf : ¬ g.hand f) :
    Quiet s g (freeMem s f 1) := by
  have hg : (g.take f 1).drop f 1 = g := by
    unfold Ghost.drop Ghost.take
    congr 1
    funext k
    apply propext
    constructor
    · rintro ⟨hh | hk, hnot⟩
      · exact hh
      · exact absurd hk hnot
    · intro hh
      refine ⟨.inl hh, fun hk => hf ?_⟩
      rwa [show f = k by lia]
  have := freeMem_quiet f 1 hk (fun k hk => .inr hk)
  rwa [hg] at this

/-! ## Blocks -/

theorem names_setBlock (s : State) (b : PbPtr) (pb : Option PhysBlock) :
    names (s.setBlock b pb) = update (names s) b (pb.map (·.regions)) := by
  funext c
  by_cases hc : c = b
  · subst hc
    simp [names, setBlock]
  · simp [names, setBlock, hc]

theorem setBlock_self (s : State) (b : PbPtr) (pb : Option PhysBlock) :
    (s.setBlock b pb).blocks b = pb := update_self ..

theorem setBlock_of_ne (s : State) (h : c ≠ b) (pb : Option PhysBlock) :
    (s.setBlock b pb).blocks c = s.blocks c := update_of_ne h _ _

theorem holds_setBlock {o : Owner} (h : o ≠ .block b) (pb : Option PhysBlock) :
    Holds g (s.setBlock b pb) o f ↔ Holds g s o f := by
  cases o with
  | block c =>
    have hc : c ≠ b := fun hc => h (hc ▸ rfl)
    simp only [Holds, setBlock_of_ne s hc]
  | _ => rfl

theorem holds_setBlock_self {pb : Option PhysBlock} : Holds g (s.setBlock b pb) (.block b) f ↔
      ¬ g.borrowed b ∧ ∃ a, pb = some a ∧ a.phys = some f ∧ ¬ Direct g.kind a.regions := by
  simp only [Holds, setBlock_self]

theorem setBlock_quiet {pb : Option PhysBlock} (hk : Kept g' (s.setBlock b pb)) :
    Quiet s g' (s.setBlock b pb) :=
  hk.quiet_of rfl rfl rfl rfl

theorem pbNew_cases {phys : Option Frame} {r : Option PbPtr} (h : pbNew s phys = some (r, s')) :
    ∃ tape, (r = none ∧ s' = { s with tape := tape }) ∨ ∃ b, r = some b ∧ s.blocks b = none ∧
        s' = { s with tape := tape }.setBlock b (some ⟨phys, 0, []⟩) := by
  unfold pbNew slabAlloc at h
  split at h
  · cases h
  next s₁ hs =>
    split at hs <;> cases hs
    cases h
    exact ⟨_, .inl ⟨rfl, rfl⟩⟩
  rename_i b s₁ hs
  split at hs <;> cases hs
  split at h
  next hb =>
    cases h
    exact ⟨_, .inr ⟨_, rfl, hb, rfl⟩⟩
  next => cases h

/-- `g` with a new block that has no slot yet. -/
def Ghost.create (g : Ghost) (b : PbPtr) (phys : Option Frame) : Ghost :=
  { g with
    fresh := some b
    bare := fun c => g.bare c ∨ (c = b ∧ phys = none)
    hand := fun f => g.hand f ∧ phys ≠ some f }

theorem blocks_setBlock {pc : PhysBlock} (h : (s.setBlock b (some pb)).blocks c = some pc) :
    (c = b ∧ pc = pb) ∨ (c ≠ b ∧ s.blocks c = some pc) := by
  by_cases hcb : c = b
  · subst hcb
    rw [setBlock_self, some.injEq] at h
    exact .inl ⟨rfl, h.symm⟩
  · rw [setBlock_of_ne s hcb] at h
    exact .inr ⟨hcb, h⟩

theorem blocks_setBlock_none {pc : PhysBlock} (h : (s.setBlock b none).blocks c = some pc) :
    c ≠ b ∧ s.blocks c = some pc := by
  by_cases hcb : c = b
  · subst hcb
    rw [setBlock_self] at h
    cases h
  · exact ⟨hcb, (setBlock_of_ne s hcb none).symm.trans h⟩

theorem create_quiet (phys : Option Frame) (hk : Kept g s) (hfresh : g.fresh = none)
    (hb : s.blocks b = none) (hf : ∀ f, phys = some f → g.hand f) :
    Quiet s (g.create b phys) (s.setBlock b (some ⟨phys, 0, []⟩)) := by
  have hlent : ¬ g.borrowed b := by
    intro hbor
    obtain ⟨pb, hpb, _⟩ := hk.lent hbor
    rw [hb] at hpb
    cases hpb
  apply setBlock_quiet
  constructor
  case refs =>
    rw [names_setBlock]
    exact hk.refs.create (by simp [names, hb])
  case count =>
    intro c pb hc
    rcases blocks_setBlock hc with ⟨_, rfl⟩ | ⟨_, hc⟩
    · rfl
    · exact hk.count hc
  case used =>
    intro c pb hc hnil
    rcases blocks_setBlock hc with ⟨rfl, _⟩ | ⟨_, hc⟩
    · rfl
    · have := hk.used hc hnil
      rw [hfresh] at this
      cases this
  case bare =>
    intro c pb hc hnone
    rcases blocks_setBlock hc with ⟨rfl, rfl⟩ | ⟨_, hc⟩
    · exact ⟨.inr ⟨rfl, hnone⟩, Nat.zero_le 1⟩
    · exact (hk.bare hc hnone).imp_left .inl
  case lent =>
    intro c hc
    obtain ⟨pb, hpb, hne⟩ := hk.lent hc
    have hcb : c ≠ b := by
      rintro rfl
      exact hlent hc
    exact ⟨pb, (setBlock_of_ne s hcb _).trans hpb, hne⟩
  case kinds => exact hk.kinds
  case uniform =>
    intro c pb x y hc hx
    rcases blocks_setBlock hc with ⟨_, rfl⟩ | ⟨_, hc⟩
    · cases hx
    · exact hk.uniform hc hx
  case pages => exact hk.pages
  case tables => exact hk.tables
  case frames =>
    apply hk.frames.give (o := .block b) (S := fun f => phys = some f) hf (fun f => Iff.rfl)
    intro o f
    by_cases ho : o = .block b
    · subst ho
      have hno : ¬ Holds g s (.block b) f := by
        rintro ⟨_, pb, hpb, _⟩
        rw [hb] at hpb
        cases hpb
      refine holds_setBlock_self.trans ?_
      simp [Ghost.create, hlent, hno, Direct]
    · refine (holds_setBlock ho _).trans ?_
      simp only [ho, false_and, or_false]
      exact Iff.rfl

theorem free_fresh_quiet (hk : Kept g s) (hb : s.blocks b = some pb) (hphys : pb.phys = none)
    (hnil : pb.regions = []) : Quiet s { g with fresh := none } (s.setBlock b none) := by
  have hfresh := hk.used hb hnil
  apply setBlock_quiet
  constructor
  case refs =>
    rw [names_setBlock]
    exact hk.refs.free (names_eq_some.mpr ⟨pb, hb, hnil⟩)
  case count => exact fun hc => hk.count (blocks_setBlock_none hc).2
  case used =>
    intro c pc hc hcnil
    have := hk.used (blocks_setBlock_none hc).2 hcnil
    rw [hfresh, some.injEq] at this
    exact absurd this.symm (blocks_setBlock_none hc).1
  case bare => exact fun hc => hk.bare (blocks_setBlock_none hc).2
  case lent =>
    intro c hc
    obtain ⟨pc, hpc, hne⟩ := hk.lent hc
    have hcb : c ≠ b := by
      rintro rfl
      rw [hb, some.injEq] at hpc
      exact hne (hpc ▸ hphys)
    exact ⟨pc, (setBlock_of_ne s hcb _).trans hpc, hne⟩
  case kinds => exact hk.kinds
  case uniform => exact fun hc => hk.uniform (blocks_setBlock_none hc).2
  case pages => exact hk.pages
  case tables => exact hk.tables
  case frames =>
    apply hk.frames.congr (fun f => Iff.rfl) (fun f => Iff.rfl)
    intro o f
    by_cases ho : o = .block b
    · subst ho
      refine holds_setBlock_self.trans ?_
      simp [Holds, hb, hphys]
    · exact holds_setBlock ho _

/-! ## Links -/

def Ghost.link (g : Ghost) (x : Slot) : Ghost :=
  { g with limbo := fun y => g.limbo y ∧ y ≠ x, fresh := none }

def Ghost.unlink (g : Ghost) (x : Slot) : Ghost :=
  { g with limbo := fun y => g.limbo y ∨ y = x }

theorem Ghost.link_eq (hx : ¬ g.limbo x) (hfresh : g.fresh = none) : g.link x = g := by
  unfold Ghost.link
  rw [← hfresh]
  congr 1
  funext y
  apply propext
  constructor
  · exact And.left
  · intro hy
    refine ⟨hy, ?_⟩
    rintro rfl
    exact hx hy

theorem Ghost.unlink_link (hx : ¬ g.limbo x) (hfresh : g.fresh = none) :
    (g.unlink x).link x = g := by
  have hlink : (g.unlink x).link x = g.link x := by
    unfold Ghost.link Ghost.unlink
    congr 1
    funext y
    apply propext
    constructor
    · rintro ⟨hy | hy, hne⟩
      · exact ⟨hy, hne⟩
      · exact absurd hy hne
    · rintro ⟨hy, hne⟩
      exact ⟨.inl hy, hne⟩
  rw [hlink, Ghost.link_eq hx hfresh]

theorem target_setSlot (pr : PhysRegion) : target (g.link x) (s.setSlot x (some pr)) =
      update (target g s) x (some pr.ph) := by
  funext y
  by_cases hy : y = x
  · subst hy
    simp [target, setSlot, Ghost.link]
  · by_cases hl : g.limbo y <;> simp [target, setSlot, Ghost.link, hy, hl]

theorem target_unlink : target (g.unlink x) s = update (target g s) x none := by
  funext y
  by_cases hy : y = x
  · subst hy
    simp [target, Ghost.unlink]
  · by_cases hl : g.limbo y <;> simp [target, Ghost.unlink, hy, hl]

/-- Linking a slot to a block makes it one of the same memory. -/
def Linkable (g : Ghost) (x : Slot) (pb : PhysBlock) : Prop :=
  pb.refcount < 255 ∧ ((pb.regions = [] ∧ pb.phys = none) ∨
    (pb.phys ≠ none ∧ (g.kind x = some .directphys ↔ Direct g.kind pb.regions)))

theorem pbLink_quiet {offset : Nat} (h : pbLink s x b offset = some s') (hk : Kept g s)
    (hx : target g s x = none) (hkx : (g.kind x).isSome)
    (hlink : ∀ pb, s.blocks b = some pb → Linkable g x pb)
    (hfresh : ∀ c, g.fresh = some c → c = b) : Quiet s (g.link x) s' := by
  unfold pbLink at h
  split at h
  · cases h
  rename_i pb hb
  cases h
  obtain ⟨hlt, hmem⟩ := hlink pb hb
  have hcount := hk.count hb
  have hold : ∀ {c pc}, ((s.setSlot x (some ⟨b, offset⟩)).setBlock b (some { pb with
      refcount := (pb.refcount + 1) % 256, regions := x :: pb.regions })).blocks c = some pc →
      (c = b ∧ pc = { pb with refcount := pb.refcount + 1, regions := x :: pb.regions }) ∨
        (c ≠ b ∧ s.blocks c = some pc) := by
    intro c pc hc
    rw [Nat.mod_eq_of_lt (by omega)] at hc
    exact blocks_setBlock hc
  have hdirect : pb.phys ≠ none → (Direct g.kind (x :: pb.regions) ↔ Direct g.kind pb.regions) := by
    intro hne
    rcases hmem with ⟨_, hnone⟩ | ⟨_, hiff⟩
    · exact absurd hnone hne
    · unfold Direct at hiff ⊢
      simp only [mem_cons, exists_eq_or_imp]
      exact or_iff_right_of_imp hiff.mp
  refine Kept.quiet_of ?_ rfl rfl rfl rfl
  constructor
  case refs =>
    rw [names_setBlock]
    exact (target_setSlot ⟨b, offset⟩) ▸ hk.refs.link hx (names_eq_some.mpr ⟨pb, hb, rfl⟩)
  case count =>
    intro c pc hc
    rcases hold hc with ⟨_, rfl⟩ | ⟨_, hc⟩
    · simp [hcount]
    · exact hk.count hc
  case used =>
    intro c pc hc hnil
    rcases hold hc with ⟨_, rfl⟩ | ⟨hcb, hc⟩
    · cases hnil
    · exact absurd (hfresh c (hk.used hc hnil)) hcb
  case bare =>
    intro c pc hc hnone
    rcases hold hc with ⟨rfl, rfl⟩ | ⟨_, hc⟩
    · rcases hmem with ⟨hnil, _⟩ | ⟨hne, _⟩
      · exact ⟨(hk.bare hb hnone).1, by simp [hnil]⟩
      · exact absurd hnone hne
    · exact hk.bare hc hnone
  case lent =>
    intro c hc
    obtain ⟨pc, hpc, hne⟩ := hk.lent hc
    by_cases hcb : c = b
    · subst hcb
      rw [hb, some.injEq] at hpc
      exact ⟨_, setBlock_self .., hpc ▸ hne⟩
    · exact ⟨pc, (setBlock_of_ne _ hcb _).trans hpc, hne⟩
  case kinds =>
    intro y c hy
    replace hy := (congrFun (target_setSlot ⟨b, offset⟩) y).symm.trans hy
    by_cases hyx : y = x
    · rw [hyx]
      exact hkx
    · rw [update_of_ne hyx] at hy
      exact hk.kinds hy
  case uniform =>
    intro c pc y z hc hy hz hky
    rcases hold hc with ⟨_, rfl⟩ | ⟨_, hc⟩
    · rcases hmem with ⟨hnil, _⟩ | ⟨_, hiff⟩
      · rw [hnil, mem_singleton] at hy hz
        rwa [hz, ← hy]
      have hd : Direct g.kind pb.regions := by
        rcases mem_cons.mp hy with rfl | hy
        · exact hiff.mp hky
        · exact ⟨y, hy, hky⟩
      rcases mem_cons.mp hz with rfl | hz
      · exact hiff.mpr hd
      · exact (hk.direct_iff hb hz).mp hd
    · exact hk.uniform hc hy hz hky
  case pages => exact hk.pages
  case tables => exact hk.tables
  case frames =>
    apply hk.frames.congr (fun f => Iff.rfl) (fun f => Iff.rfl)
    intro o f
    by_cases ho : o = .block b
    · subst ho
      refine holds_setBlock_self.trans ?_
      simp only [Holds, hb, some.injEq, exists_eq_left']
      refine and_congr_right fun _ => and_congr_right fun hf => not_congr (hdirect ?_)
      simp [hf]
    · exact (holds_setBlock ho _).trans Iff.rfl

theorem freePmbs_quiet (hk : Kept g s) (hp : Live s p) (P : Page → Prop) [DecidablePred P]
    {x : VmProc} (hx : x.inuse = (s.vmproc p).inuse ∧ x.endpoint = (s.vmproc p).endpoint ∧
      x.yielded = (s.vmproc p).yielded ∧ x.regions = (s.vmproc p).regions)
    (hl : x.lus1Us2 = (s.vmproc p).lus1Us2.filter fun b => decide (¬ P b.vaddr)) :
    Quiet s g ((freePmbFrames s ((s.vmproc p).lus1Us2.filter fun b =>
      decide (P b.vaddr))).setVmproc p x) := by
  have hlive : ∀ q, Live ((freePmbFrames s ((s.vmproc p).lus1Us2.filter fun b =>
      decide (P b.vaddr))).setVmproc p x) q ↔ Live s q := by
    intro q
    by_cases hq : q = p
    · subst hq
      simp [Live, setVmproc, hx.1, hx.2.1]
    · simp [Live, setVmproc, freePmbFrames, hq]
  refine ⟨Leaves.of_same ?_ ⟨rfl, ?_, ?_, ?_, rfl, fun q hq => ?_⟩ rfl, ?_⟩
  case refine_5 =>
    have hqp : q ≠ p := by
      rintro rfl
      have := hp.2
      rw [hq] at this
      cases this
    simp [setVmproc, freePmbFrames, hqp]
  · refine hk.moved _ rfl rfl ?_ ?_ ?_
    · intro q hq
      by_cases hqp : q = p
      · subst hqp
        simp only [setVmproc, update_self, hl]
        exact (hk.pages q hp).sublist (filter_sublist.map _)
      · simpa [setVmproc, freePmbFrames, hqp] using hk.pages q ((hlive q).mp hq)
    · intro q pde hpt
      rw [hlive q]
      exact hk.tables hpt
    apply hk.frames.dropAll (fun o => ∃ v what, o = .hardening p v what ∧ P v)
    · intro f
      simp only [freePmbFrames, setVmproc, Bool.or_eq_true, decide_eq_true_eq]
      rw [or_comm]
      apply or_congr_right
      constructor
      · rintro ⟨b, hb, hf⟩
        simp only [mem_filter, decide_eq_true_eq] at hb
        rcases hf with hf | hf
        · exact ⟨.hardening p b.vaddr .first, ⟨_, _, rfl, hb.2⟩, hp, b, hb.1, rfl, hf⟩
        · exact ⟨.hardening p b.vaddr .second, ⟨_, _, rfl, hb.2⟩, hp, b, hb.1, rfl, hf⟩
      rintro ⟨_, ⟨v, what, rfl, hv⟩, _, b, hb, rfl, hf⟩
      refine ⟨b, by simpa only [mem_filter, decide_eq_true_eq] using ⟨hb, hv⟩, ?_⟩
      cases what with
      | first => exact .inl hf
      | second => exact .inr hf
    intro o f
    cases o with
    | hardening q v what =>
      simp only [Holds, hlive]
      by_cases hq : q = p
      · subst hq
        simp only [setVmproc, update_self, hl, mem_filter,
          decide_eq_true_eq, Owner.hardening.injEq, true_and]
        constructor
        · rintro ⟨_, b, ⟨hb, hnot⟩, rfl, hf⟩
          refine ⟨⟨hp, b, hb, rfl, hf⟩, ?_⟩
          rintro ⟨v, w, ⟨rfl, rfl⟩, hv⟩
          exact hnot hv
        · rintro ⟨⟨_, b, hb, rfl, hf⟩, hnot⟩
          exact ⟨hp, b, ⟨hb, fun hv => hnot ⟨_, _, ⟨rfl, rfl⟩, hv⟩⟩, rfl, hf⟩
      · simp [setVmproc, freePmbFrames, hq]
    | _ => simp [Holds, setVmproc, freePmbFrames]
  · intro q
    by_cases hq : q = p
    · subst hq
      simpa [setVmproc] using hx.1
    · simp [setVmproc, freePmbFrames, hq]
  · intro q
    by_cases hq : q = p
    · subst hq
      simpa [setVmproc] using hx.2.1
    · simp [setVmproc, freePmbFrames, hq]
  · intro q
    by_cases hq : q = p
    · subst hq
      simpa [setVmproc] using hx.2.2.1
    · simp [setVmproc, freePmbFrames, hq]
  · intro q
    by_cases hq : q = p
    · subst hq
      simpa [setVmproc] using hx.2.2.2
    · simp [setVmproc, freePmbFrames, hq]

theorem freeRegionPmbs_quiet (hk : Kept g s) (hp : Known g s p) (v : Page) :
    Quiet s g (freeRegionPmbs s p v) := by
  unfold freeRegionPmbs
  split
  next h => exact freePmbs_quiet hk (hp.live h.2.1) (fun w => w = v) ⟨rfl, rfl, rfl, rfl⟩ rfl
  next => exact hk.quiet

/-! ## Unlinking -/

theorem unlink_quiet (hk : Kept g s) (hb : s.blocks b = some pb) (hx : x ∈ pb.regions)
    (hone : pb.refcount ≠ 1) : Quiet s (g.unlink x) (s.setBlock b (some { pb with
      refcount := pb.refcount - 1, regions := pb.regions.erase x })) := by
  have hcount := hk.count hb
  have hnodup := hk.nodup hb
  have hlen : (pb.regions.erase x).length = pb.regions.length - 1 := length_erase_of_mem hx
  have hpos : 0 < pb.regions.length := length_pos_of_mem hx
  -- another slot is left, and it is of the same memory
  have hdirect : Direct g.kind (pb.regions.erase x) ↔ Direct g.kind pb.regions := by
    constructor
    · rintro ⟨y, hy, hky⟩
      exact ⟨y, mem_of_mem_erase hy, hky⟩
    · rintro ⟨y, hy, hky⟩
      obtain ⟨z, hz⟩ := exists_mem_of_length_pos (l := pb.regions.erase x) (by omega)
      exact ⟨z, hz, hk.uniform hb hy (mem_of_mem_erase hz) hky⟩
  have htarget : target g s x = some b := (hk.mem_regions hb).mp hx
  apply setBlock_quiet
  constructor
  case refs =>
    have hunlink := hk.refs.unlink htarget (names_eq_some.mpr ⟨pb, hb, rfl⟩)
    rw [← target_unlink] at hunlink
    rw [names_setBlock]
    exact hunlink
  case count =>
    intro c pc hc
    rcases blocks_setBlock hc with ⟨_, rfl⟩ | ⟨_, hc⟩
    · simp only [hlen, hcount]
    · exact hk.count hc
  case used =>
    intro c pc hc hnil
    rcases blocks_setBlock hc with ⟨_, rfl⟩ | ⟨_, hc⟩
    · simp only at hnil
      rw [hnil, length_nil] at hlen
      omega
    · exact hk.used hc hnil
  case bare =>
    intro c pc hc hnone
    rcases blocks_setBlock hc with ⟨rfl, rfl⟩ | ⟨_, hc⟩
    · have := hk.bare hb hnone
      exact ⟨this.1, hlen ▸ Nat.le_trans (Nat.sub_le _ _) this.2⟩
    · exact hk.bare hc hnone
  case lent =>
    intro c hc
    obtain ⟨pc, hpc, hne⟩ := hk.lent hc
    by_cases hcb : c = b
    · subst hcb
      rw [hb, some.injEq] at hpc
      exact ⟨_, setBlock_self .., hpc ▸ hne⟩
    · exact ⟨pc, (setBlock_of_ne _ hcb _).trans hpc, hne⟩
  case kinds =>
    intro y c hy
    replace hy := (congrFun (target_unlink (s := s)) y).symm.trans hy
    by_cases hyx : y = x
    · subst hyx
      simp at hy
    · rw [update_of_ne hyx] at hy
      exact hk.kinds hy
  case uniform =>
    intro c pc y z hc hy hz
    rcases blocks_setBlock hc with ⟨_, rfl⟩ | ⟨_, hc⟩
    · exact hk.uniform hb (mem_of_mem_erase hy) (mem_of_mem_erase hz)
    · exact hk.uniform hc hy hz
  case pages => exact hk.pages
  case tables => exact hk.tables
  case frames =>
    apply hk.frames.congr (fun f => Iff.rfl) (fun f => Iff.rfl)
    intro o f
    by_cases ho : o = .block b
    · subst ho
      refine holds_setBlock_self.trans ?_
      simp only [Holds, hb, some.injEq, exists_eq_left']
      exact and_congr_right fun _ => and_congr_right fun _ => not_congr hdirect
    · exact (holds_setBlock ho _).trans Iff.rfl

theorem evUnreference_free {mt : MemType} {phys : Option Frame} :
    (evUnreference s mt phys).freePages f = true ↔
      s.freePages f = true ∨ (mt ≠ .directphys ∧ phys = some f) := by
  have hone : ∀ k : Frame, k ≤ f ∧ f ≤ k ↔ k = f := fun k => by lia
  cases mt <;> cases phys <;> simp [evUnreference, freeMem_iff, hone]

theorem unlinkLast_quiet {mt : MemType} (hk : Kept g s) (hb : s.blocks b = some pb)
    (hx : pb.regions = [x]) (hmt : g.kind x = some mt) (hbor : ¬ g.borrowed b) :
    Quiet s (g.unlink x) ((evUnreference s mt pb.phys).setBlock b none) := by
  have hev : (evUnreference s mt pb.phys).blocks = s.blocks ∧
      (evUnreference s mt pb.phys).physblocks = s.physblocks ∧
      SameCache s ((evUnreference s mt pb.phys).setBlock b none) ∧
      (evUnreference s mt pb.phys).mem = s.mem ∧
      (evUnreference s mt pb.phys).vmproc = s.vmproc ∧
      (evUnreference s mt pb.phys).ptPages = s.ptPages ∧
      (evUnreference s mt pb.phys).ptDir = s.ptDir := by
    unfold evUnreference
    split <;> exact ⟨rfl, rfl, .of_eq rfl rfl rfl, rfl, rfl, rfl, rfl⟩
  obtain ⟨hblocks, hphys, hcache, hmem, hvm, hpt, hdir⟩ := hev
  have hold : ∀ {c pc}, ((evUnreference s mt pb.phys).setBlock b none).blocks c = some pc →
      c ≠ b ∧ s.blocks c = some pc := by
    intro c pc hc
    rw [← hblocks]
    exact blocks_setBlock_none hc
  have htarget : target g s x = some b := (hk.mem_regions hb).mp (by simp [hx])
  have hdirect : Direct g.kind pb.regions ↔ mt = .directphys := by
    rw [hk.direct_iff hb (x := x) (by simp [hx]), hmt, some.injEq]
  have hlive : ∀ q, Live ((evUnreference s mt pb.phys).setBlock b none) q ↔ Live s q := by
    intro q
    unfold Live
    rw [hcache.inuse q, hcache.endpoint q]
  refine ⟨Leaves.of_same ?_ hcache hmem, fun q => by rw [setBlock, hvm]⟩
  constructor
  case refs =>
    have hunlink := hk.refs.unlink htarget (names_eq_some.mpr ⟨pb, hb, hx⟩)
    rw [erase_cons_head] at hunlink
    have hfree := hunlink.free (b := b) (update_self ..)
    rw [update_idem] at hfree
    refine hfree.congr (fun y => ?_) (fun c => ?_)
    · rw [← target_unlink]
      simp only [target, setBlock, hphys]
    have hnames : names (evUnreference s mt pb.phys) = names s := by
      funext d
      simp only [names, hblocks]
    rw [names_setBlock, hnames]
    rfl
  case count => exact fun hc => hk.count (hold hc).2
  case used => exact fun hc => hk.used (hold hc).2
  case bare => exact fun hc => hk.bare (hold hc).2
  case lent =>
    intro c hc
    obtain ⟨pc, hpc, hne⟩ := hk.lent hc
    have hcb : c ≠ b := by
      rintro rfl
      exact hbor hc
    exact ⟨pc, (setBlock_of_ne _ hcb _).trans (hblocks ▸ hpc), hne⟩
  case kinds =>
    intro y c hy
    have hsame : target (g.unlink x) ((evUnreference s mt pb.phys).setBlock b none) y =
        target (g.unlink x) s y := by
      simp only [target, setBlock, hphys]
    rw [hsame, target_unlink] at hy
    by_cases hyx : y = x
    · subst hyx
      simp at hy
    · rw [update_of_ne hyx] at hy
      exact hk.kinds hy
  case uniform => exact fun hc => hk.uniform (hold hc).2
  case pages =>
    intro q hq
    simp only [setBlock, hvm]
    exact hk.pages q ((hlive q).mp hq)
  case tables =>
    intro q pde hpq
    rw [hlive q]
    exact hk.tables (hpt ▸ hpq)
  case frames =>
    apply hk.frames.drop (o := .block b) (S := fun f => mt ≠ .directphys ∧ pb.phys = some f)
    · rintro f ⟨hne, hf⟩
      exact ⟨hbor, pb, hb, hf, fun hd => hne (hdirect.mp hd)⟩
    · intro f
      exact evUnreference_free
    intro o f
    by_cases ho : o = .block b
    · subst ho
      have hno : ¬ Holds (g.unlink x)
          ((evUnreference s mt pb.phys).setBlock b none) (.block b) f := by
        rw [holds_setBlock_self]
        rintro ⟨_, a, ha, _⟩
        cases ha
      apply iff_of_false hno
      rintro ⟨⟨_, pb', hpb', hf, hd⟩, hnot⟩
      rw [hb, some.injEq] at hpb'
      subst hpb'
      exact hnot ⟨rfl, fun hmt' => hd (hdirect.mpr hmt'), hf⟩
    have hsame : Holds (g.unlink x)
        ((evUnreference s mt pb.phys).setBlock b none) o f ↔ Holds g s o f := by
      refine (holds_setBlock ho _).trans ?_
      have hso : SameOwners s (evUnreference s mt pb.phys) := ⟨hblocks, hphys, by
          rw [show (evUnreference s mt pb.phys).cache = s.cache from hcache.cache]
          exact SameNodes.refl _, hpt, hdir,
          fun q => by rw [hvm]; exact ⟨rfl, rfl, rfl⟩⟩
      exact (hso.holds (g := g.unlink x) o f).trans Iff.rfl
    rw [hsame]
    simp [ho]

theorem freeRegionPmbs_physblocks (s : State) (p : ProcNr) (v : Page) :
    (freeRegionPmbs s p v).physblocks = s.physblocks := by
  unfold freeRegionPmbs
  split <;> rfl

theorem freeRegionPmbs_blocks (s : State) (p : ProcNr) (v : Page) :
    (freeRegionPmbs s p v).blocks = s.blocks := by
  unfold freeRegionPmbs
  split <;> rfl

theorem evUnreference_rest (s : State) (mt : MemType) (phys : Option Frame) :
    (evUnreference s mt phys).physblocks = s.physblocks ∧ (evUnreference s mt phys).pt = s.pt ∧
      (evUnreference s mt phys).blocks = s.blocks := by
  unfold evUnreference
  split <;> exact ⟨rfl, rfl, rfl⟩

variable {parent : ProcNr} {mt : MemType}

theorem pbUnlink_cases (h : pbUnlink s parent mt x = some s') :
    ∃ pr pb, s.physblocks x = some pr ∧ s.blocks pr.ph = some pb ∧ x ∈ pb.regions ∧
      ((pb.refcount = 1 ∧ pb.regions = [x] ∧
        s' = freeRegionPmbs ((evUnreference s mt pb.phys).setBlock pr.ph none) parent x.2) ∨
      (pb.refcount ≠ 1 ∧ s' = freeRegionPmbs (s.setBlock pr.ph (some { pb with
        refcount := pb.refcount - 1, regions := pb.regions.erase x })) parent x.2)) := by
  unfold pbUnlink at h
  split at h
  · cases h
  rename_i pr hpr
  split at h
  · cases h
  rename_i pb hb
  split at h
  · cases h
  rename_i hnot
  rw [not_or, not_not] at hnot
  refine ⟨pr, pb, hpr, hb, hnot.2, ?_⟩
  split at h
  next hone =>
    split at h
    · cases h
    next hreg =>
      rw [not_not] at hreg
      exact .inl ⟨hone, hreg, (some.inj h).symm⟩
  next hone => exact .inr ⟨hone, (some.inj h).symm⟩

theorem pbUnlink_physblocks (h : pbUnlink s parent mt x = some s') :
    s'.physblocks = s.physblocks := by
  obtain ⟨pr, pb, _, _, _, ⟨_, _, rfl⟩ | ⟨_, rfl⟩⟩ := pbUnlink_cases h
  · rw [freeRegionPmbs_physblocks]
    exact (evUnreference_rest s mt pb.phys).1
  · rw [freeRegionPmbs_physblocks]
    rfl

variable {pr : PhysRegion} {v : Page} {e : Status}

theorem pbUnlink_blocks (h : pbUnlink s parent mt x = some s')
    (hx : s.physblocks x = some pr) (hb : s.blocks pr.ph = some pb) :
    s'.blocks = update s.blocks pr.ph (if pb.refcount = 1 then none else some { pb with
      refcount := pb.refcount - 1, regions := pb.regions.erase x }) := by
  obtain ⟨pr', pb', hpr', hb', _, hcase⟩ := pbUnlink_cases h
  rw [hx, some.injEq] at hpr'
  subst hpr'
  rw [hb, some.injEq] at hb'
  subst hb'
  rcases hcase with ⟨hone, _, rfl⟩ | ⟨hone, rfl⟩
  · rw [freeRegionPmbs_blocks, if_pos hone, setBlock]
    simp only [(evUnreference_rest s mt pb.phys).2.2]
  · rw [freeRegionPmbs_blocks, if_neg hone]
    rfl

theorem pbUnlink_limbo (hk : Kept g s) (hx : g.limbo x) : pbUnlink s parent mt x = none := by
  rw [eq_none_iff_forall_ne_some]
  intro s' h
  obtain ⟨pr, pb, _, hb, hmem, _⟩ := pbUnlink_cases h
  rw [hk.mem_regions hb] at hmem
  simp [target, hx] at hmem

theorem pbUnlink_quiet (h : pbUnlink s parent mt x = some s') (hk : Kept g s)
    (hp : Known g s parent) (hmt : g.kind x = some mt)
    (hbor : ∀ b, target g s x = some b → ¬ g.borrowed b) : Quiet s (g.unlink x) s' := by
  obtain ⟨pr, pb, hpr, hb, hmem, ⟨_, hreg, rfl⟩ | ⟨hone, rfl⟩⟩ := pbUnlink_cases h
  · have hq := unlinkLast_quiet hk hb hreg hmt (hbor _ ((hk.mem_regions hb).mp hmem))
    exact hq.trans (freeRegionPmbs_quiet hq.kept (hq.evicted.known hp) x.2)
  · have hq := unlink_quiet hk hb hmem hone
    exact hq.trans (freeRegionPmbs_quiet hq.kept (hq.evicted.known hp) x.2)

theorem Kept.of_target {limbo : Slot → Prop} {physblocks : Slot → Option PhysRegion}
    (hk : Kept { g with limbo := limbo } s)
    (htarget : target g { s with physblocks := physblocks } = target { g with limbo := limbo } s) :
    Quiet s g { s with physblocks := physblocks } := by
  refine Kept.quiet_of ?_ rfl rfl rfl rfl
  exact {
    refs := htarget ▸ hk.refs
    count := hk.count
    used := hk.used
    bare := hk.bare
    lent := hk.lent
    kinds := fun hx => hk.kinds (htarget ▸ hx)
    uniform := hk.uniform
    pages := hk.pages
    tables := hk.tables
    frames := hk.frames.congr (fun _ => Iff.rfl) (fun _ => Iff.rfl) fun o f => by
      cases o <;> exact Iff.rfl }

theorem clearSlot_quiet (hk : Kept (g.unlink x) s) (hx : ¬ g.limbo x) :
    Quiet s g (s.setSlot x none) := by
  refine hk.of_target (funext fun y => ?_)
  by_cases hy : y = x
  · subst hy
    simp [target]
  · by_cases hl : g.limbo y <;> simp [target, hy, hl]

theorem pbUnreferenced_quiet (h : pbUnreferenced s parent mt x = some s') (hk : Kept g s)
    (hx : ¬ g.limbo x) (hp : Known g s parent) (hmt : g.kind x = some mt)
    (hbor : ∀ b, target g s x = some b → ¬ g.borrowed b) : Quiet s g s' := by
  obtain ⟨s₁, h1, rfl⟩ := map_eq_some_iff.mp h
  have hq := pbUnlink_quiet h1 hk hp hmt hbor
  exact hq.trans (clearSlot_quiet hq.kept hx)

/-! ## Frames of blocks -/

theorem Kept.settle (hk : Kept g s) (bare : PbPtr → Prop)
    (h : ∀ b pb, s.blocks b = some pb → pb.phys = none → bare b) :
    Kept { g with bare := bare } s :=
  { hk with
    bare := fun hb hnone => ⟨h _ _ hb hnone, (hk.bare hb hnone).2⟩
    frames := hk.frames.congr (fun _ => Iff.rfl) (fun _ => Iff.rfl) fun o f => by
      cases o <;> exact Iff.rfl }

theorem setPhys_quiet (hand : Frame → Prop) (borrowed : PbPtr → Prop) (hk : Kept g s)
    (hb : s.blocks b = some pb) (hbor : ∀ c, borrowed c → c = b ∨ g.borrowed c)
    (hframes : Placed g.managed (fun f => s.freePages f = true) hand
      (Holds { g with hand := hand, borrowed := borrowed }
        (s.setBlock b (some { pb with phys := some f })))) :
    Quiet s { g with hand := hand, borrowed := borrowed, bare := fun c => g.bare c ∧ c ≠ b }
      (s.setBlock b (some { pb with phys := some f })) := by
  apply setBlock_quiet
  constructor
  case refs =>
    apply hk.refs.congr (fun _ => rfl)
    intro c
    rw [names_setBlock]
    by_cases hcb : c = b
    · subst hcb
      simp [names, hb]
    · rw [update_of_ne hcb]
  case count =>
    intro c pc hc
    rcases blocks_setBlock hc with ⟨_, rfl⟩ | ⟨_, hc⟩
    · have hcount := hk.count hb
      exact hcount
    · exact hk.count hc
  case used =>
    intro c pc hc hnil
    rcases blocks_setBlock hc with ⟨rfl, rfl⟩ | ⟨_, hc⟩
    · exact hk.used hb hnil
    · exact hk.used hc hnil
  case bare =>
    intro c pc hc hnone
    rcases blocks_setBlock hc with ⟨_, rfl⟩ | ⟨hcb, hc⟩
    · cases hnone
    · exact ⟨⟨(hk.bare hc hnone).1, hcb⟩, (hk.bare hc hnone).2⟩
  case lent =>
    intro c hc
    by_cases hcb : c = b
    · subst hcb
      exact ⟨_, setBlock_self .., by simp⟩
    · obtain ⟨pc, hpc, hne⟩ := hk.lent ((hbor c hc).resolve_left hcb)
      exact ⟨pc, (setBlock_of_ne _ hcb _).trans hpc, hne⟩
  case kinds => exact hk.kinds
  case uniform =>
    intro c pc y z hc
    rcases blocks_setBlock hc with ⟨_, rfl⟩ | ⟨_, hc⟩
    · have huniform := @Kept.uniform _ _ hk b pb y z hb
      exact huniform
    · exact hk.uniform hc
  case pages => exact hk.pages
  case tables => exact hk.tables
  case frames =>
    exact hframes.congr (fun _ => Iff.rfl) (fun _ => Iff.rfl) fun o f => by
      cases o <;> exact Iff.rfl

theorem holds_setPhys {hand : Frame → Prop} {borrowed : PbPtr → Prop} {k : Frame} :
    Holds { g with hand := hand, borrowed := borrowed }
      (s.setBlock b (some { pb with phys := some f })) (.block b) k ↔
      ¬ borrowed b ∧ k = f ∧ ¬ Direct g.kind pb.regions := by
  refine holds_setBlock_self.trans ?_
  simp [eq_comm]

theorem holds_setPhys_of_ne {o : Owner} {hand : Frame → Prop} {k : Frame} (ho : o ≠ .block b) :
    Holds { g with hand := hand } (s.setBlock b (some { pb with phys := some f })) o k ↔
      Holds g s o k := by
  refine (holds_setBlock ho _).trans ?_
  cases o <;> exact Iff.rfl

theorem setPhys_hand_quiet (hk : Kept g s) (hb : s.blocks b = some pb) (hnone : pb.phys = none)
    (hf : g.hand f) (hnd : ¬ Direct g.kind pb.regions) :
    Quiet s { g with hand := fun k => g.hand k ∧ k ≠ f, bare := fun c => g.bare c ∧ c ≠ b }
      (s.setBlock b (some { pb with phys := some f })) := by
  have hbor : ¬ g.borrowed b := by
    intro hbor
    obtain ⟨pc, hpc, hne⟩ := hk.lent hbor
    rw [hb, some.injEq] at hpc
    exact hne (hpc ▸ hnone)
  apply setPhys_quiet _ g.borrowed hk hb (fun c hc => .inr hc)
  apply hk.frames.give (o := .block b) (S := fun k => k = f)
  · rintro k rfl
    exact hf
  · exact fun k => Iff.rfl
  intro o k
  by_cases ho : o = .block b
  · subst ho
    refine holds_setPhys.trans ?_
    simp [Holds, hb, hnone, hbor, hnd]
  · refine (holds_setPhys_of_ne ho).trans ?_
    simp [ho]

theorem setPhys_direct_quiet (hk : Kept g s) (hb : s.blocks b = some pb) (hnone : pb.phys = none)
    (hd : Direct g.kind pb.regions) :
    Quiet s { g with bare := fun c => g.bare c ∧ c ≠ b }
      (s.setBlock b (some { pb with phys := some f })) := by
  apply setPhys_quiet _ g.borrowed hk hb (fun c hc => .inr hc)
  apply hk.frames.congr (fun k => Iff.rfl) (fun k => Iff.rfl)
  intro o k
  by_cases ho : o = .block b
  · subst ho
    refine holds_setPhys.trans ?_
    simp [Holds, hb, hnone, hd]
  · exact holds_setPhys_of_ne ho

theorem setPtPages_quiet {pde : Fin 1024} (hk : Kept (g.take f 1) s) (hf : ¬ g.hand f)
    (hnone : s.ptPages (p, pde) = none) (hp : Known g s p) :
    Quiet s g { s with ptPages := update s.ptPages (p, pde) (some f) } := by
  refine Kept.quiet_of ?_ rfl rfl rfl rfl
  refine hk.moved g.hand rfl rfl hk.pages (fun {q i} hpt => ?_) ?_
  · by_cases hqi : (q, i) = (p, pde)
    · obtain ⟨rfl, rfl⟩ := Prod.mk.injEq .. ▸ hqi
      exact hp.imp id And.left
    · refine @Kept.tables _ _ hk q i ?_
      simpa only [update_of_ne hqi] using hpt
  apply hk.frames.give (o := .pageTable p pde) (S := fun k => k = f)
  · rintro k rfl
    exact .inr ⟨Nat.le_refl _, Nat.lt_succ_self _⟩
  · exact fun k => (Ghost.take_one_hand hf k).symm
  intro o k
  cases o with
  | pageTable q i =>
    simp only [Holds, Owner.pageTable.injEq]
    by_cases hqi : (q, i) = (p, pde)
    · obtain ⟨rfl, rfl⟩ := Prod.mk.injEq .. ▸ hqi
      simp [hnone, eq_comm]
    · rw [update_of_ne hqi]
      rw [Prod.mk.injEq] at hqi
      simp [hqi]
  | _ => simp [Holds, Ghost.take, Live]

/-! ## `pt_ptalloc` and `map_ph_writept` -/

theorem ptPtalloc_same (h : ptPtalloc s p v = some (e, s')) :
    s'.blocks = s.blocks ∧ s'.physblocks = s.physblocks ∧ s'.pt = s.pt := by
  unfold ptPtalloc at h
  split at h
  · cases h
    exact ⟨rfl, rfl, rfl⟩
  split at h
  · cases h
  next s₁ h1 =>
    cases h
    exact ⟨(allocMem_rest h1).blocks, (allocMem_rest h1).physblocks, (allocMem_rest h1).pt⟩
  next f s₁ h1 =>
    cases h
    exact ⟨(allocMem_rest h1).blocks, (allocMem_rest h1).physblocks, (allocMem_rest h1).pt⟩

theorem mapPhWritept_same {r : VirRegion} (h : mapPhWritept s p r v pr = some (e, s')) :
    s'.blocks = s.blocks ∧ s'.physblocks = s.physblocks := by
  unfold mapPhWritept at h
  split at h
  · cases h
  split at h
  · split at h
    · cases h
    next s₁ h1 =>
      cases h
      exact ⟨(ptPtalloc_same h1).1, (ptPtalloc_same h1).2.1⟩
    next h1 =>
      cases h
      exact ⟨(ptPtalloc_same h1).1, (ptPtalloc_same h1).2.1⟩
  · cases h

theorem ptPtalloc_quiet (h : ptPtalloc s p v = some (e, s'))
    (hk : Kept g s) (hp : Known g s p) : Quiet s g s' := by
  unfold ptPtalloc at h
  split at h
  · cases h
    exact hk.quiet
  rename_i hnone
  split at h
  · cases h
  · next s₁ h1 =>
    cases h
    exact (allocMem_quiet h1 hk).2
  next f s₁ h1 =>
  cases h
  obtain ⟨hr, hq, hfresh⟩ := allocMem_quiet h1 hk
  refine hq.trans (setPtPages_quiet hq.kept
    (hfresh f (Nat.le_refl _) (Nat.lt_succ_self _)) ?_ (hq.evicted.known hp))
  rw [hr.ptPages]
  simpa using hnone

theorem setPt_quiet (hk : Kept g s) (pt : Slot → Option Entry) : Quiet s g { s with pt := pt } :=
  Kept.quiet_of (hk.congr ⟨rfl, rfl, SameNodes.refl _, rfl, rfl, fun _ => ⟨rfl, rfl, rfl⟩⟩
    fun _ => Iff.rfl) rfl rfl rfl rfl

theorem mapPhWritept_quiet {r : VirRegion}
    (h : mapPhWritept s p r v pr = some (e, s')) (hk : Kept g s) (hp : Known g s p) :
    Quiet s g s' ∧ s'.blocks = s.blocks ∧ s'.physblocks = s.physblocks := by
  refine ⟨?_, mapPhWritept_same h⟩
  unfold mapPhWritept at h
  split at h
  · cases h
  split at h
  · split at h
    · cases h
    · next s₁ h1 =>
      cases h
      have hq := ptPtalloc_quiet h1 hk hp
      exact hq.trans (setPt_quiet hq.kept _)
    · next h1 =>
      cases h
      exact ptPtalloc_quiet h1 hk hp
  · cases h

end HardenedMinix.Region
