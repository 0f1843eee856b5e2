import HardenedMinix.Vm.OwnershipYields

/-!
# Runs of VM and the owners of frames

From boot on every frame is free or has one owner, as long as no request takes a path that loses a
frame or a reference.
-/

namespace HardenedMinix.Region

open Lib

variable {s s' s₁ s₂ : State} {p q src dst : ProcNr} {x : Slot} {b : PbPtr} {f : Frame}
  {pb : PhysBlock} {r : VirRegion} {v : Page} {e : Status} {M : Frame → Prop} {op : Op}

/-! ## Frames and their owners -/

def Owns (s : State) : Owner → Frame → Prop
  | .block b, f => ∃ pb, s.blocks b = some pb ∧ pb.phys = some f ∧
      ∀ x ∈ pb.regions, kindAt s x ≠ some .directphys
  | .yielded n, f => ∃ y, s.cache.node n = some y ∧ y.physaddr ≤ f ∧ f < y.physaddr + y.pages
  | .pageTable p pde, f => s.ptPages (p, pde) = some f
  | .pageDir p, f => s.ptDir p = some f
  | .hardening p v what, f => Live s p ∧
      ∃ b ∈ (s.vmproc p).lus1Us2, b.vaddr = v ∧ b.us what = some f

theorem holds_idle (o : Owner) (f : Frame) :
    Holds (.idle M (kindAt s) none) s o f ↔ Owns s o f := by
  cases o with
  | block b =>
    simp only [Holds, Owns, Direct, Ghost.idle, not_false_eq_true, true_and, not_exists, not_and]
  | _ => exact Iff.rfl

/-- The request takes no path that loses a frame or a reference. -/
def Op.KeepsFrames (s : State) : Op → Prop
  | .mmap p vaddr length contig align64k uninitialized prealloc =>
    (contig = true → prealloc = true) →
      CanMap s p (mmapRegion vaddr length contig align64k uninitialized) prealloc
  | .pagefault p v write => ∀ r, mapLookup s p v = some r → (write = true → r.writable = true) →
    CanFault s p r (v - r.vaddr) write
  | .hpagefault p v what => ∀ r, mapLookup s p v = some r → CanHarden s p r v what
  | .fork src dst ep => CanFork s src dst ep
  | .munmap p v len => ∀ r, mapLookup s p v = some r → UnmapApart s p r (v - r.vaddr) len
  | .yieldget p yieldid getid v pages => CanYieldget s p yieldid getid v pages
  | .mapPhys .. | .remap .. | .hardening .. | .exit _ | .forget .. | .forgetAll _ => True

theorem Op.run_sound (h : op.run s = some (e, s')) (hs : Sound M s) (hen : op.Enabled s)
    (hgood : op.KeepsFrames s) : Sound M s' := by
  cases op with
  | mmap p vaddr length contig align64k uninitialized prealloc =>
    refine (doMmap_settles h hs hen fun hcontig => hgood fun hc => hcontig ?_).sound
    simp [mmapRegion, hc]
  | mapPhys p vaddr length phys => exact (doMapPhys_settles h hs hen).sound
  | remap q p sa da length readonly => exact (doRemap_settles h hs hen.2).sound
  | pagefault p v write => exact (doPagefaults_settles h hs hen hgood).sound
  | hpagefault p v what => exact (doHpagefaults_settles h hs hen hgood).sound
  | hardening p all on =>
    cases h
    exact doHardening_sound hs
  | fork src dst ep => exact doFork_sound h hs hen.1 hen.2.1 hgood
  | munmap p v len => exact (doMunmap_settles h hs hen hgood).sound
  | exit p => exact doExit_sound h hs hen
  | yieldget p yieldid getid v pages => exact doYieldblockgetblock_sound h hs hen hgood
  | forget p id => exact (doForgetblock_settles h hs).sound
  | forgetAll p => exact (doForgetblocks_settles h hs).sound

/-! ## Runs -/

/-- VM is up, has given nothing away, and manages the pages of `M`. -/
structure Booted (M : Frame → Prop) (s : State) : Prop where
  freePages : ∀ f, s.freePages f = true ↔ M f
  physblocks : ∀ x, s.physblocks x = none
  blocks : ∀ b, s.blocks b = none
  pt : ∀ x, s.pt x = none
  ptPages : ∀ x, s.ptPages x = none
  ptDir : ∀ p, s.ptDir p = none
  node : ∀ n, s.cache.node n = none
  yieldedBlocks : ∀ h, s.cache.yieldedBlocks h = []
  lru : s.cache.lruYoungest = none ∧ s.cache.lruOldest = none
  regions : ∀ p, (s.vmproc p).regions = []
  yielded : ∀ p, (s.vmproc p).yielded = 0
  lus1Us2 : ∀ p, (s.vmproc p).lus1Us2 = []

/-- Requests are carried out one after the other, each in a state that meets the condition. -/
inductive Runs (P : State → Op → Prop) (s : State) : State → Prop where
  | refl : Runs P s s
  | step {s₁ s' : State} {op : Op} {e : Status} : Runs P s s₁ → op.Enabled s₁ → P s₁ op →
      op.run s₁ = some (e, s') → Runs P s s'

theorem Booted.sound (h : Booted M s) : Sound M s := by
  have harr : ∀ p, Arranged s p := by
    intro p
    refine ⟨?_, ?_⟩ <;> rw [h.regions p]
    · exact List.Pairwise.nil
    · exact nofun
  refine ⟨?_, harr, fun p _ => h.regions p⟩
  exact {
    refs := by
      refine ⟨fun {b l} hl => ?_, fun {b l} hl => ?_, fun {x b} hx => ?_⟩
      · simp [names, h.blocks] at hl
      · simp [names, h.blocks] at hl
      · simp [target_idle, h.physblocks] at hx
    count := fun hb => by simp [h.blocks] at hb
    used := fun hb => by simp [h.blocks] at hb
    bare := fun hb => by simp [h.blocks] at hb
    lent := nofun
    kinds := fun hx => by simp [target_idle, h.physblocks] at hx
    uniform := fun hb => by simp [h.blocks] at hb
    pages := fun p _ => by simp [h.lus1Us2]
    tables := fun hpt => absurd (h.ptPages _) hpt
    frames := by
      intro f
      have hno : ∀ o, ¬ Holds (.idle M (kindAt s) none) s o f := by
        intro o
        rw [holds_idle]
        cases o <;> simp [Owns, h.blocks, h.node, h.ptPages, h.ptDir, h.lus1Us2]
      by_cases hf : M f
      · exact .free hf ((h.freePages f).mpr hf) id hno
      · exact .outside hf (fun hfree => hf ((h.freePages f).mp hfree)) id hno }

theorem Runs.sound {P : State → Op → Prop} (h : Runs P s s') (hs : Sound M s)
    (hP : ∀ s op, P s op → op.KeepsFrames s) : Sound M s' := by
  induction h with
  | refl => exact hs
  | step _ hen hgood hrun ih => exact Op.run_sound hrun ih hen (hP _ _ hgood)

def runOps (s : State) : List Op → Option State
  | [] => some s
  | op :: l =>
    match op.run s with
    | none => none
    | some (_, s) => runOps s l

/-- The requests of a list are made in states that meet the condition. -/
def Along (P : State → Op → Prop) (s : State) : List Op → Prop
  | [] => True
  | op :: l => op.Enabled s ∧ P s op ∧ match op.run s with
    | none => True
    | some (_, s) => Along P s l

/-- A single process, with an endpoint, and what the allocators will do. -/
def bootState (tape : List Choice) : State where
  vmproc p := ⟨decide (p = 0), if p = 0 then some ⟨0, 0⟩ else none, [], 0, false, []⟩
  physblocks _ := none
  blocks _ := none
  pt _ := none
  ptPages _ := none
  ptDir _ := none
  freePages f := decide (f < 8)
  mem _ := fun _ => 0
  cache := ⟨fun _ => none, fun _ => [], none, none⟩
  nextId := 0
  hardeningEnabled := false
  tape := tape

end HardenedMinix.Region
