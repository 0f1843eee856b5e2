import HardenedMinix.Lib.Places
import HardenedMinix.Lib.References
import HardenedMinix.Vm.RegionOps

/-!
# The owners of the frames of VM

A frame is free, in the hands of VM, or held by one owner, and each physical block lists the slots
that refer to it.
-/

open Option

namespace HardenedMinix.Region

open Lib

/-! ## The invariant -/

inductive Owner where
  | block (b : PbPtr)
  | yielded (n : YieldedPtr)
  | pageTable (p : ProcNr) (pde : Fin 1024)
  | pageDir (p : ProcNr)
  | hardening (p : ProcNr) (v : Page) (what : HRun)
  deriving DecidableEq

/-- Where VM is within a request. -/
@[ext]
structure Ghost where
  /-- The frames that were free at boot. -/
  managed : Frame → Prop
  /-- The memory types of the regions, those that are not inserted yet included. -/
  kind : Slot → Option MemType
  /-- The slots whose blocks were taken from them. -/
  limbo : Slot → Prop
  /-- A block that has no slot yet. -/
  fresh : Option PbPtr
  /-- The blocks that have a frame of the yielded block that is being fetched. -/
  borrowed : PbPtr → Prop
  /-- The blocks that may have no frame yet. -/
  bare : PbPtr → Prop
  /-- The frames that are allocated and not yet used, or used no longer and not yet freed. -/
  hand : Frame → Prop
  /-- The process that is being forked. -/
  child : Option ProcNr

open Classical in
/-- The block of a slot. -/
noncomputable def target (g : Ghost) (s : State) (x : Slot) : Option PbPtr :=
  if g.limbo x then none else (s.physblocks x).map (·.ph)

def names (s : State) (b : PbPtr) : Option (List Slot) := (s.blocks b).map (·.regions)

/-- A block of memory that VM does not manage. -/
def Direct (kind : Slot → Option MemType) (l : List Slot) : Prop :=
  ∃ x ∈ l, kind x = some .directphys

def Cache.Frames (c : Cache) (n : YieldedPtr) (f : Frame) : Prop :=
  ∃ y, c.node n = some y ∧ y.physaddr ≤ f ∧ f < y.physaddr + y.pages

def Holds (g : Ghost) (s : State) : Owner → Frame → Prop
  | .block b, f => ¬ g.borrowed b ∧
      ∃ pb, s.blocks b = some pb ∧ pb.phys = some f ∧ ¬ Direct g.kind pb.regions
  | .yielded n, f => s.cache.Frames n f
  | .pageTable p pde, f => s.ptPages (p, pde) = some f
  | .pageDir p, f => s.ptDir p = some f
  | .hardening p v what, f => Live s p ∧
      ∃ b ∈ (s.vmproc p).lus1Us2, b.vaddr = v ∧ b.us what = some f

/-- Every frame is in one place and every block lists its slots. -/
structure Kept (g : Ghost) (s : State) : Prop where
  refs : Referenced (target g s) (names s)
  count : ∀ {b pb}, s.blocks b = some pb → pb.refcount = pb.regions.length
  used : ∀ {b pb}, s.blocks b = some pb → pb.regions = [] → g.fresh = some b
  bare : ∀ {b pb}, s.blocks b = some pb → pb.phys = none → g.bare b ∧ pb.regions.length ≤ 1
  lent : ∀ {b}, g.borrowed b → ∃ pb, s.blocks b = some pb ∧ pb.phys ≠ none
  kinds : ∀ {x b}, target g s x = some b → (g.kind x).isSome
  uniform : ∀ {b pb x y}, s.blocks b = some pb → x ∈ pb.regions → y ∈ pb.regions →
    g.kind x = some .directphys → g.kind y = some .directphys
  pages : ∀ p, Live s p → ((s.vmproc p).lus1Us2.map (·.vaddr)).Nodup
  tables : ∀ {p pde}, s.ptPages (p, pde) ≠ none → Live s p ∨ g.child = some p
  frames : Placed g.managed (fun f => s.freePages f = true) g.hand (Holds g s)

variable {g g' : Ghost} {s s' s₁ s₂ : State} {p q : ProcNr} {x y : Slot} {b : PbPtr} {f : Frame}

theorem target_eq (h : ¬ g.limbo x) : target g s x = (s.physblocks x).map (·.ph) := if_neg h

theorem names_eq_some {l : List Slot} :
    names s b = some l ↔ ∃ pb, s.blocks b = some pb ∧ pb.regions = l := by
  simp [names, map_eq_some_iff]

namespace Kept

theorem mem_regions (h : Kept g s) {pb : PhysBlock} (hb : s.blocks b = some pb) :
    x ∈ pb.regions ↔ target g s x = some b :=
  h.refs.mem_iff (names_eq_some.mpr ⟨pb, hb, rfl⟩) x

theorem nodup (h : Kept g s) {pb : PhysBlock} (hb : s.blocks b = some pb) : pb.regions.Nodup :=
  h.refs.nodup (names_eq_some.mpr ⟨pb, hb, rfl⟩)

theorem block_of_target (h : Kept g s) (hx : target g s x = some b) :
    ∃ pb, s.blocks b = some pb ∧ x ∈ pb.regions := by
  obtain ⟨l, hl⟩ := h.refs.isSome hx
  obtain ⟨pb, hb, -⟩ := names_eq_some.mp hl
  exact ⟨pb, hb, (h.mem_regions hb).mpr hx⟩

theorem direct_iff (h : Kept g s) {pb : PhysBlock} (hb : s.blocks b = some pb)
    (hx : x ∈ pb.regions) : Direct g.kind pb.regions ↔ g.kind x = some .directphys := by
  constructor
  · rintro ⟨y, hy, hk⟩
    exact h.uniform hb hy hx hk
  · intro hk
    exact ⟨x, hx, hk⟩

end Kept

/-- The parts of the record of a process that say what it holds. -/
def SameHolder (x x' : VmProc) : Prop :=
  x'.inuse = x.inuse ∧ x'.endpoint = x.endpoint ∧ x'.lus1Us2 = x.lus1Us2

theorem SameHolder.live (h : SameHolder (s.vmproc p) (s'.vmproc p)) : Live s' p ↔ Live s p := by
  unfold Live
  rw [h.1, h.2.1]

def SameNodes (c c' : Cache) : Prop :=
  ∀ n, (c'.node n).map (fun y => (y.id, y.physaddr, y.pages)) =
    (c.node n).map (fun y => (y.id, y.physaddr, y.pages))

theorem SameNodes.refl (c : Cache) : SameNodes c c := fun _ => rfl

theorem node_of_map_eq {o o' : Option Yielded} {y : Yielded}
    (h : o'.map (fun y => (y.id, y.physaddr, y.pages)) =
      o.map (fun y => (y.id, y.physaddr, y.pages))) (hy : o' = some y) :
    ∃ z, o = some z ∧ z.id = y.id ∧ z.physaddr = y.physaddr ∧ z.pages = y.pages := by
  subst hy
  cases o with
  | none => simp at h
  | some z =>
    simp only [map_some, some.injEq, Prod.mk.injEq] at h
    exact ⟨z, rfl, h.1.symm, h.2.1.symm, h.2.2.symm⟩

theorem Cache.Frames.congr {c c' : Cache} {n : YieldedPtr}
    (h : (c'.node n).map (fun y => (y.id, y.physaddr, y.pages)) =
      (c.node n).map (fun y => (y.id, y.physaddr, y.pages))) :
    c'.Frames n f ↔ c.Frames n f := by
  constructor
  · rintro ⟨y, hy, hlo, hhi⟩
    obtain ⟨z, hz, _, hp, hn⟩ := node_of_map_eq h hy
    exact ⟨z, hz, by lia, by lia⟩
  · rintro ⟨y, hy, hlo, hhi⟩
    obtain ⟨z, hz, _, hp, hn⟩ := node_of_map_eq h.symm hy
    exact ⟨z, hz, by lia, by lia⟩

structure SameOwners (s s' : State) : Prop where
  blocks : s'.blocks = s.blocks
  physblocks : s'.physblocks = s.physblocks
  cache : SameNodes s.cache s'.cache
  ptPages : s'.ptPages = s.ptPages
  ptDir : s'.ptDir = s.ptDir
  vmproc : ∀ p, SameHolder (s.vmproc p) (s'.vmproc p)

theorem SameOwners.target (h : SameOwners s s') : target g s' x = target g s x := by
  unfold Region.target
  rw [h.physblocks]

theorem SameOwners.names (h : SameOwners s s') : names s' = names s := by
  unfold Region.names
  rw [h.blocks]

theorem SameOwners.holds (h : SameOwners s s') (o : Owner) (f : Frame) :
    Holds g s' o f ↔ Holds g s o f := by
  cases o with
  | block b => simp only [Holds, h.blocks]
  | yielded n => exact Cache.Frames.congr (h.cache n)
  | pageTable p pde => simp only [Holds, h.ptPages]
  | pageDir p => simp only [Holds, h.ptDir]
  | hardening p v what => simp only [Holds, (h.vmproc p).live, (h.vmproc p).2.2]

theorem Kept.congr (h : Kept g s) (hs : SameOwners s s')
    (hfree : ∀ f, s'.freePages f = true ↔ s.freePages f = true) : Kept g s' where
  refs := h.refs.congr (fun _ => hs.target) (fun b => congrFun hs.names b)
  count hb := h.count (hs.blocks ▸ hb)
  used hb := h.used (hs.blocks ▸ hb)
  bare hb := h.bare (hs.blocks ▸ hb)
  lent hb := hs.blocks ▸ h.lent hb
  kinds hx := h.kinds (hs.target ▸ hx)
  uniform hb := h.uniform (hs.blocks ▸ hb)
  pages p hp := by
    rw [(hs.vmproc p).2.2]
    exact h.pages p ((hs.vmproc p).live.mp hp)
  tables hpt := by
    rw [(hs.vmproc _).live]
    exact h.tables (hs.ptPages ▸ hpt)
  frames := h.frames.congr hfree (fun _ => Iff.rfl) hs.holds

/-! ## Eviction -/

namespace Cache

variable {c c' : Cache} {n m : YieldedPtr} {z : Yielded}

variable {y : Yielded}

theorem setNode_same (hm : c.node m = some z)
    (hy : (y.id, y.physaddr, y.pages) = (z.id, z.physaddr, z.pages)) :
    SameNodes c (c.setNode m (some y)) := by
  intro k
  by_cases hk : k = m
  · subst hk
    simpa [setNode, hm] using hy
  · simp [setNode, hk]

theorem unlinkYounger_same (h : c.unlinkYounger n y = some c') : SameNodes c c' := by
  unfold unlinkYounger at h
  split at h
  · split at h
    · cases h
    rename_i ym hm
    split at h
    · cases h
      exact setNode_same hm rfl
    · cases h
  · split at h
    · cases h
      exact SameNodes.refl _
    · cases h

theorem unlinkOlder_same (h : c.unlinkOlder n y = some c') : SameNodes c c' := by
  unfold unlinkOlder at h
  split at h
  · split at h
    · cases h
    rename_i ym hm
    split at h
    · cases h
      exact setNode_same hm rfl
    · cases h
  · split at h
    · cases h
      exact SameNodes.refl _
    · cases h

theorem yieldedRemove_node {id : BlockId} (h : c.yieldedRemove n id = some c') :
    c'.node = c.node := by
  unfold yieldedRemove at h
  split at h
  · cases h
    rfl
  · cases h

theorem removeNode_spec (h : c.removeNode n = some (y, c')) :
    c.node n = some y ∧ c'.node n = none ∧ ∀ m, m ≠ n →
      (c'.node m).map (fun y => (y.id, y.physaddr, y.pages)) =
        (c.node m).map (fun y => (y.id, y.physaddr, y.pages)) := by
  unfold removeNode at h
  split at h
  · cases h
  rename_i y' hy
  split at h
  · cases h
  rename_i c1 h1
  split at h
  · cases h
  rename_i c2 h2
  obtain ⟨c3, h3, heq⟩ := map_eq_some_iff.mp h
  cases heq
  refine ⟨hy, Function.update_self .., fun m hm => ?_⟩
  have hnode : (c3.setNode n none).node m = c2.node m := by
    rw [← congrFun (yieldedRemove_node h3) m]
    exact Function.update_of_ne hm _ _
  rw [hnode, unlinkOlder_same h2 m, unlinkYounger_same h1 m]

theorem removeNode_frames (h : c.removeNode n = some (y, c')) (m : YieldedPtr)
    (f : Frame) : c'.Frames m f ↔ m ≠ n ∧ c.Frames m f := by
  obtain ⟨_, hn, hrest⟩ := removeNode_spec h
  by_cases hm : m = n
  · subst hm
    simp [Frames, hn]
  · rw [Frames.congr (hrest m hm)]
    exact (and_iff_right hm).symm

end Cache

/-- The cache and the counters of its blocks, and the hardening blocks of a process the kernel does
not know yet, are the same. -/
structure SameCache (s s' : State) : Prop where
  cache : s'.cache = s.cache
  inuse : ∀ p, (s'.vmproc p).inuse = (s.vmproc p).inuse
  endpoint : ∀ p, (s'.vmproc p).endpoint = (s.vmproc p).endpoint
  yielded : ∀ p, (s'.vmproc p).yielded = (s.vmproc p).yielded
  hardeningEnabled : s'.hardeningEnabled = s.hardeningEnabled
  unborn : ∀ p, (s.vmproc p).endpoint = none → (s'.vmproc p).lus1Us2 = (s.vmproc p).lus1Us2

theorem SameCache.of_eq (hcache : s'.cache = s.cache) (hvm : s'.vmproc = s.vmproc)
    (hh : s'.hardeningEnabled = s.hardeningEnabled) : SameCache s s' := by
  refine ⟨hcache, fun p => ?_, fun p => ?_, fun p => ?_, hh, fun p _ => ?_⟩
  all_goals rw [hvm]

theorem SameCache.refl (s : State) : SameCache s s := .of_eq rfl rfl rfl

theorem SameCache.trans (h : SameCache s s₁) (h' : SameCache s₁ s') : SameCache s s' :=
  ⟨h'.cache.trans h.cache, fun p => (h'.inuse p).trans (h.inuse p),
    fun p => (h'.endpoint p).trans (h.endpoint p), fun p => (h'.yielded p).trans (h.yielded p),
    h'.hardeningEnabled.trans h.hardeningEnabled,
    fun p hp => (h'.unborn p ((h.endpoint p).trans hp)).trans (h.unborn p hp)⟩

/-- Nothing happened to the cache but that blocks were freed. -/
inductive Evicted : State → State → Prop where
  | same {s s' : State} : SameCache s s' → Evicted s s'
  | evict {s s₁ s₂ s' : State} {n : YieldedPtr} : Evicted s s₁ →
      freeyieldednode s₁ n true = some s₂ → SameCache s₂ s' → Evicted s s'

theorem Evicted.refl (s : State) : Evicted s s := .same (SameCache.refl s)

theorem Evicted.then_same (h : Evicted s s₁) (h' : SameCache s₁ s') : Evicted s s' := by
  cases h with
  | same h1 => exact .same (h1.trans h')
  | evict h1 h2 h3 => exact .evict h1 h2 (h3.trans h')

theorem Evicted.trans (h : Evicted s s₁) (h' : Evicted s₁ s') : Evicted s s' := by
  induction h' with
  | same h1 => exact h.then_same h1
  | evict _ h2 h3 ih => exact .evict ih h2 h3

variable {base clicks : Nat} {n : YieldedPtr} {clear : Bool}

theorem freeMem_iff : (freeMem s base clicks).freePages f = true ↔
      s.freePages f = true ∨ (base ≤ f ∧ f < base + clicks) := by
  simp [freeMem, or_comm]

theorem freeyieldednode_spec {freemem : Bool} (h : freeyieldednode s n freemem = some s') :
    ∃ y k, s.cache.removeNode n = some (y, s'.cache) ∧ vmIsokendpt s y.id.owner = some k ∧
      (s.vmproc k).yielded ≠ 0 ∧
      s'.vmproc = Function.update s.vmproc k
        { s.vmproc k with yielded := (s.vmproc k).yielded - 1 } ∧
      s'.mem = s.mem ∧ ∀ f, s'.freePages f = true ↔
        s.freePages f = true ∨ (freemem = true ∧ y.physaddr ≤ f ∧ f < y.physaddr + y.pages) := by
  unfold freeyieldednode at h
  split at h
  · cases h
  rename_i y cache hy
  split at h
  · cases h
  rename_i k hk
  split at h
  · cases h
  rename_i hpos
  cases freemem <;> cases h <;> refine ⟨y, k, hy, hk, hpos, rfl, rfl, fun f => ?_⟩
  · simp [State.setVmproc]
  · exact freeMem_iff.trans (by simp [State.setVmproc])

/-- What stays when blocks are freed from the cache. -/
structure SameRest (s s' : State) : Prop where
  physblocks : s'.physblocks = s.physblocks
  blocks : s'.blocks = s.blocks
  pt : s'.pt = s.pt
  ptPages : s'.ptPages = s.ptPages
  ptDir : s'.ptDir = s.ptDir
  nextId : s'.nextId = s.nextId
  hardeningEnabled : s'.hardeningEnabled = s.hardeningEnabled
  vmproc : ∀ p, s'.vmproc p = { s.vmproc p with yielded := (s'.vmproc p).yielded }

theorem SameRest.refl (s : State) : SameRest s s :=
  ⟨rfl, rfl, rfl, rfl, rfl, rfl, rfl, fun _ => rfl⟩

theorem SameRest.trans (h : SameRest s s₁) (h' : SameRest s₁ s') : SameRest s s' where
  physblocks := h'.physblocks.trans h.physblocks
  blocks := h'.blocks.trans h.blocks
  pt := h'.pt.trans h.pt
  ptPages := h'.ptPages.trans h.ptPages
  ptDir := h'.ptDir.trans h.ptDir
  nextId := h'.nextId.trans h.nextId
  hardeningEnabled := h'.hardeningEnabled.trans h.hardeningEnabled
  vmproc p := by
    rw [h'.vmproc p, h.vmproc p]

theorem freeyieldednode_rest {freemem : Bool}
    (h : freeyieldednode s n freemem = some s') : SameRest s s' := by
  have hv : ∀ p, s'.vmproc p = { s.vmproc p with yielded := (s'.vmproc p).yielded } := by
    obtain ⟨y, k, _, _, _, hv, _⟩ := freeyieldednode_spec h
    intro p
    rw [hv]
    by_cases hp : p = k
    · subst hp
      simp
    · simp [hp]
  unfold freeyieldednode at h
  split at h
  · cases h
  split at h
  · cases h
  · split at h
    · cases h
    · cases freemem <;> cases h <;> exact ⟨rfl, rfl, rfl, rfl, rfl, rfl, rfl, hv⟩

theorem Evicted.frames (h : Evicted s s') (hn : s'.cache.Frames n f) : s.cache.Frames n f := by
  induction h with
  | same h1 => rwa [h1.cache] at hn
  | evict _ h2 h3 ih =>
    obtain ⟨y, k, hrem, _⟩ := freeyieldednode_spec h2
    rw [h3.cache] at hn
    exact ih ((Cache.removeNode_frames hrem n f).mp hn).2

theorem Evicted.isSome (h : Evicted s s')
    (hn : (s'.cache.node n).isSome) : (s.cache.node n).isSome := by
  induction h with
  | same h1 => rwa [h1.cache] at hn
  | @evict s₁ s₂ s' m _ h2 h3 ih =>
    obtain ⟨y, k, hrem, _⟩ := freeyieldednode_spec h2
    obtain ⟨_, hgone, hrest⟩ := Cache.removeNode_spec hrem
    rw [h3.cache] at hn
    by_cases hm : n = m
    · rw [hm, hgone] at hn
      cases hn
    · have hsame := congrArg Option.isSome (hrest n hm)
      simp only [isSome_map] at hsame
      exact ih (hsame ▸ hn)

theorem Evicted.vmproc (h : Evicted s s') (p : ProcNr) :
    (s'.vmproc p).inuse = (s.vmproc p).inuse ∧ (s'.vmproc p).endpoint = (s.vmproc p).endpoint := by
  induction h with
  | same h1 => exact ⟨h1.inuse p, h1.endpoint p⟩
  | evict _ h2 h3 ih =>
    have hrest := freeyieldednode_rest h2
    rw [h3.inuse p, h3.endpoint p, hrest.vmproc p]
    exact ih

theorem Evicted.hardening (h : Evicted s s') : s'.hardeningEnabled = s.hardeningEnabled ∧
      ∀ p, (s.vmproc p).endpoint = none → (s'.vmproc p).lus1Us2 = (s.vmproc p).lus1Us2 := by
  induction h with
  | same h1 => exact ⟨h1.hardeningEnabled, h1.unborn⟩
  | @evict s₁ s₂ s' n h1 h2 h3 ih =>
    have hrest := freeyieldednode_rest h2
    refine ⟨h3.hardeningEnabled.trans (hrest.hardeningEnabled.trans ih.1), fun p hp => ?_⟩
    have hp2 : (s₂.vmproc p).endpoint = none := by
      rw [hrest.vmproc p]
      exact (h1.vmproc p).2.trans hp
    rw [h3.unborn p hp2, hrest.vmproc p]
    exact ih.2 p hp

/-- The process is live, or it is being forked and the kernel does not know it yet. -/
def Known (g : Ghost) (s : State) (p : ProcNr) : Prop :=
  Live s p ∨ (g.child = some p ∧ (s.vmproc p).endpoint = none)

theorem Live.known (h : Live s p) : Known g s p := .inl h

theorem Known.live (h : Known g s p) (he : (s.vmproc p).endpoint.isSome) : Live s p := by
  rcases h with hlive | ⟨_, hnone⟩
  · exact hlive
  · rw [hnone] at he
    cases he

theorem Evicted.live (h : Evicted s s') : Live s' p ↔ Live s p := by
  unfold Live
  rw [(h.vmproc p).1, (h.vmproc p).2]

theorem Evicted.known (h : Evicted s s') (hp : Known g s p) : Known g s' p := by
  unfold Known
  rwa [h.live, (h.vmproc p).2]

/-- An invariant, a cache from which only blocks were freed, and the bytes of the blocks that are
left. -/
structure Leaves (s : State) (g : Ghost) (s' : State) : Prop where
  kept : Kept g s'
  evicted : Evicted s s'
  bytes : ∀ {n f}, s'.cache.Frames n f → s'.mem f = s.mem f

theorem Kept.leaves (h : Kept g s) : Leaves s g s := ⟨h, Evicted.refl s, fun _ => rfl⟩

theorem Leaves.trans (h : Leaves s g s₁) (h' : Leaves s₁ g' s') : Leaves s g' s' where
  kept := h'.kept
  evicted := h.evicted.trans h'.evicted
  bytes hf := (h'.bytes hf).trans (h.bytes (h'.evicted.frames hf))

/-- The same, and the regions are what they were. -/
structure Quiet (s : State) (g : Ghost) (s' : State) : Prop extends Leaves s g s' where
  regions : ∀ p, (s'.vmproc p).regions = (s.vmproc p).regions

theorem Kept.quiet (h : Kept g s) : Quiet s g s := ⟨h.leaves, fun _ => rfl⟩

theorem Quiet.trans (h : Quiet s g s₁) (h' : Quiet s₁ g' s') : Quiet s g' s' :=
  ⟨h.toLeaves.trans h'.toLeaves, fun p => (h'.regions p).trans (h.regions p)⟩

theorem Leaves.of_same (h : Kept g s') (hc : SameCache s s') (hm : s'.mem = s.mem) :
    Leaves s g s' :=
  ⟨h, .same hc, fun _ => congrFun hm _⟩

theorem Kept.quiet_of (hk : Kept g s') (hcache : s'.cache = s.cache) (hvm : s'.vmproc = s.vmproc)
    (hh : s'.hardeningEnabled = s.hardeningEnabled) (hm : s'.mem = s.mem) : Quiet s g s' :=
  ⟨Leaves.of_same hk (.of_eq hcache hvm hh) hm, fun _ => by rw [hvm]⟩

theorem Kept.moved (h : Kept g s) (hand : Frame → Prop) (hb : s'.blocks = s.blocks)
    (hpb : s'.physblocks = s.physblocks)
    (hpages : ∀ p, Live s' p → ((s'.vmproc p).lus1Us2.map (·.vaddr)).Nodup)
    (htables : ∀ {p pde}, s'.ptPages (p, pde) ≠ none → Live s' p ∨ g.child = some p)
    (hframes : Placed g.managed (fun f => s'.freePages f = true) hand
      (Holds { g with hand := hand } s')) : Kept { g with hand := hand } s' where
  refs := h.refs.congr (fun x => by simp only [target, hpb]) (fun b => by simp only [names, hb])
  count hb' := h.count (hb ▸ hb')
  used hb' := h.used (hb ▸ hb')
  bare hb' := h.bare (hb ▸ hb')
  lent hb' := hb ▸ h.lent hb'
  kinds hx := h.kinds (by simpa only [target, hpb] using hx)
  uniform hb' := h.uniform (hb ▸ hb')
  pages := hpages
  tables := htables
  frames := hframes

theorem SameRest.sameHolder (h : SameRest s s') (p : ProcNr) :
    SameHolder (s.vmproc p) (s'.vmproc p) := by
  rw [h.vmproc p]
  exact ⟨rfl, rfl, rfl⟩

theorem SameRest.pages (h : SameRest s s') (hk : Kept g s) (p : ProcNr) (hp : Live s' p) :
    ((s'.vmproc p).lus1Us2.map (·.vaddr)).Nodup := by
  rw [(h.sameHolder p).2.2]
  exact hk.pages p ((h.sameHolder p).live.mp hp)

theorem SameRest.tables (h : SameRest s s') (hk : Kept g s) {pde : Fin 1024}
    (hpt : s'.ptPages (p, pde) ≠ none) : Live s' p ∨ g.child = some p := by
  rw [(h.sameHolder p).live]
  exact hk.tables (h.ptPages ▸ hpt)

theorem SameRest.holds (h : SameRest s s') {o : Owner} (ho : ∀ n, o ≠ .yielded n) (f : Frame) :
    Holds g s' o f ↔ Holds g s o f := by
  cases o with
  | block b => simp only [Holds, h.blocks]
  | yielded n => exact absurd rfl (ho n)
  | pageTable p pde => simp only [Holds, h.ptPages]
  | pageDir p => simp only [Holds, h.ptDir]
  | hardening p v what =>
    simp only [Holds, (h.sameHolder p).live, (h.sameHolder p).2.2]

theorem SameRest.regions (h : SameRest s s') (p : ProcNr) :
    (s'.vmproc p).regions = (s.vmproc p).regions := by
  rw [h.vmproc p]

theorem freeyieldednode_quiet (h : freeyieldednode s n true = some s')
    (hk : Kept g s) : Quiet s g s' := by
  have hrest := freeyieldednode_rest h
  have hev : Evicted s s' := .evict (Evicted.refl s) h (SameCache.refl s')
  obtain ⟨y, k, hrem, _, _, _, hmem, hfree⟩ := freeyieldednode_spec h
  have hy : s.cache.node n = some y := (Cache.removeNode_spec hrem).1
  refine ⟨⟨?_, hev, fun _ => congrFun hmem _⟩, hrest.regions⟩
  refine hk.moved _ hrest.blocks hrest.physblocks (fun p => hrest.pages hk p) (hrest.tables hk) ?_
  refine hk.frames.drop (o := .yielded n) (S := fun f => y.physaddr ≤ f ∧ f < y.physaddr + y.pages)
    (fun f hf => ⟨y, hy, hf⟩) (fun f => (hfree f).trans (by simp)) (fun o f => ?_)
  cases o with
  | yielded m =>
    show s'.cache.Frames m f ↔ _
    rw [Cache.removeNode_frames hrem]
    by_cases hm : m = n
    · subst hm
      simp [Holds, Cache.Frames, hy]
    · simp [hm, Holds]
  | _ =>
    rw [hrest.holds (by simp)]
    simp

/-! ## Allocation -/

theorem freeYielded_rest {k : Nat} (h : freeYielded s k = some s') : SameRest s s' := by
  induction k generalizing s with
  | zero =>
    cases h
    exact SameRest.refl _
  | succ k ih =>
    unfold freeYielded at h
    split at h
    · cases h
      exact SameRest.refl _
    rename_i n _
    split at h
    · cases h
    next s₁ h1 => exact (freeyieldednode_rest h1).trans (ih h)

theorem freeYielded_quiet {k : Nat} (h : freeYielded s k = some s') (hk : Kept g s) :
    Quiet s g s' := by
  induction k generalizing s with
  | zero =>
    cases h
    exact hk.quiet
  | succ k ih =>
    unfold freeYielded at h
    split at h
    · cases h
      exact hk.quiet
    rename_i n _
    split at h
    · cases h
    next s₁ h1 =>
      have hq := freeyieldednode_quiet h1 hk
      exact hq.trans (ih h hq.kept)

theorem Kept.readTape (h : Kept g s) (tape : List Choice) : Quiet s g { s with tape := tape } :=
  Kept.quiet_of (h.congr ⟨rfl, rfl, SameNodes.refl _, rfl, rfl, fun _ => ⟨rfl, rfl, rfl⟩⟩
    fun _ => Iff.rfl) rfl rfl rfl rfl

def Ghost.take (g : Ghost) (base clicks : Nat) : Ghost :=
  { g with hand := fun f => g.hand f ∨ (base ≤ f ∧ f < base + clicks) }

theorem Ghost.take_one_hand (hf : ¬ g.hand f) (k : Frame) :
    (g.take f 1).hand k ∧ k ≠ f ↔ g.hand k := by
  constructor
  · rintro ⟨hh | hk, hne⟩
    · exact hh
    · exact absurd (by lia : k = f) hne
  · intro hh
    refine ⟨.inl hh, ?_⟩
    rintro rfl
    exact hf hh

theorem allocPages_quiet (h : allocPages s base clicks clear = some s') (hk : Kept g s) :
    Quiet s (g.take base clicks) s' ∧ ∀ f, base ≤ f → f < base + clicks → ¬ g.hand f := by
  unfold allocPages at h
  split at h
  next hfree =>
    cases h
    have hS : ∀ f, base ≤ f ∧ f < base + clicks → s.freePages f = true := by
      rintro f ⟨hlo, hhi⟩
      have := hfree (f - base) (by lia)
      rwa [show base + (f - base) = f by lia] at this
    refine ⟨⟨⟨?_, .same (.of_eq rfl rfl rfl), fun {n f} hf => ?_⟩,
      fun _ => rfl⟩, fun f hlo hhi => ((hk.frames f).of_free (hS f ⟨hlo, hhi⟩)).2.1⟩
    · refine hk.moved _ rfl rfl hk.pages hk.tables ?_
      apply hk.frames.take hS (fun f => ?_) (fun f => Iff.rfl)
      simp only [Bool.and_eq_true, Bool.not_eq_true', decide_eq_false_iff_not]
    · -- the frames of a yielded block were not free
      have hused := ((hk.frames f).of_holds (o := .yielded n) hf).2.1
      refine if_neg (fun hc => hused (hS f hc.2))
  next => cases h

theorem allocPages_rest (h : allocPages s base clicks clear = some s') : SameRest s s' := by
  unfold allocPages at h
  split at h
  · cases h
    exact ⟨rfl, rfl, rfl, rfl, rfl, rfl, rfl, fun _ => rfl⟩
  · cases h

theorem SameRest.of_tape {tape : List Choice} (h : SameRest { s with tape := tape } s') :
    SameRest s s' := ⟨h.1, h.2, h.3, h.4, h.5, h.6, h.7, h.8⟩

theorem allocMem_rest {pages : Nat} {r : Option Frame}
    (h : allocMem s pages clear false = some (r, s')) : SameRest s s' := by
  simp only [allocMem, alignMem, Bool.false_eq_true, false_and, ↓reduceIte] at h
  split at h
  · obtain ⟨s₁, h1, heq⟩ := map_eq_some_iff.mp h
    cases heq
    exact (allocPages_rest h1).of_tape
  · split at h
    · cases h
    rename_i s₂ h2
    obtain ⟨s₁, h1, heq⟩ := map_eq_some_iff.mp h
    cases heq
    exact ((freeYielded_rest h2).trans (allocPages_rest h1)).of_tape
  · obtain ⟨s₂, h2, heq⟩ := map_eq_some_iff.mp h
    cases heq
    exact (freeYielded_rest h2).of_tape
  · cases h

theorem allocMem_quiet {pages : Nat} {r : Option Frame}
    (h : allocMem s pages clear false = some (r, s')) (hk : Kept g s) :
    SameRest s s' ∧ match r with
      | none => Quiet s g s'
      | some f => Quiet s (g.take f pages) s' ∧ ∀ k, f ≤ k → k < f + pages → ¬ g.hand k := by
  refine ⟨allocMem_rest h, ?_⟩
  simp only [allocMem, alignMem, Bool.false_eq_true, false_and, ↓reduceIte] at h
  split at h
  · next base tape _ =>
    obtain ⟨s₁, h1, heq⟩ := map_eq_some_iff.mp h
    cases heq
    have htape := hk.readTape tape
    obtain ⟨hq, hfresh⟩ := allocPages_quiet h1 htape.kept
    exact ⟨htape.trans hq, hfresh⟩
  · next base tape _ =>
    split at h
    · cases h
    next s₂ h2 =>
    obtain ⟨s₁, h1, heq⟩ := map_eq_some_iff.mp h
    cases heq
    have htape := hk.readTape tape
    have hq2 := freeYielded_quiet h2 htape.kept
    obtain ⟨hq, hfresh⟩ := allocPages_quiet h1 hq2.kept
    exact ⟨(htape.trans hq2).trans hq, hfresh⟩
  · next tape _ =>
    obtain ⟨s₂, h2, heq⟩ := map_eq_some_iff.mp h
    cases heq
    have htape := hk.readTape tape
    exact htape.trans (freeYielded_quiet h2 htape.kept)
  · cases h

end HardenedMinix.Region
