import HardenedMinix.Pe.Phases
import HardenedMinix.Pe.PageRuns

/-!
# Rollback

`CMP_FAILED` and `abort_pe` map `us0` again and copy it over the private frames: a page is as
before if `us0` was and no store went to it.
-/

open Option

namespace HardenedMinix

open Lib Linked

namespace View

variable {u v w : View} {s : List PageStore} {step : HStep}

/-! ## One page -/

/-- The page can be brought back: a page that shows `us1` has `us0` there, and no page is open
to stores on `us0`. -/
structure Restorable (u : View) : Prop where
  inStep : u.write = true → u.both = true → u.flags.hToUpdate = false → u.c1 = some u.c0
  notOpen : u.c2 = none → (u.write && u.kept .firstRun) = false

theorem written_c0 (hslot : v.slot ≠ .us0) (s : List PageStore) : (v.written s).c0 = v.c0 := by
  unfold written setContent
  cases hs : v.slot with
  | us0 => exact absurd hs hslot
  | us1 => rfl
  | us2 => rfl

theorem opened_c0 (h : w.opened step = some v) : v.c0 = w.c0 := by
  unfold opened fault at h
  split at h
  · rw [← some.inj h]
  · simp only at h
    split_ifs at h <;> rw [← some.inj h]

theorem opened_first_slot (hr : u.Restorable) (h : (u.ro .firstRun).opened .firstRun = some v) :
    v.slot = .us1 := by
  unfold opened fault at h
  split at h
  · rename_i hw
    rw [← some.inj h]
    unfold ro at hw ⊢
    split_ifs at hw ⊢ with hopen
    swap
    · exact absurd hw hopen
    have hc1 : u.update.c1.isSome = true := by
      simp only [protect, kept, Bool.and_eq_true, Bool.or_eq_true, ↓reduceIte] at hw
      tauto
    have hc2 : u.update.c2.isSome = true := by
      by_contra hnone
      rw [Bool.not_eq_true, isSome_eq_false_iff, isNone_iff_eq_none] at hnone
      -- a page without `us2` is not changed by the copies
      have hsame : u.update = u := by
        unfold update at hnone ⊢
        split_ifs at hnone ⊢ with hcond
        · simp [synced] at hnone
        · rfl
      rw [hsame] at hnone hw
      have hclosed := hr.notOpen hnone
      rw [show (u.protect .firstRun).write = (u.write && u.kept .firstRun) from rfl, hclosed] at hw
      simp at hw
    have hc2' : u.update.c2.isNone = false := by rw [← not_isSome, hc2, Bool.not_true]
    simp [protect, startSlot, runSlot, hc1, hc2']
  · simp only [↓reduceIte, runSlot] at h
    split_ifs at h <;> rw [← some.inj h]

theorem first_c0 (hm : u.Mapped) (hr : u.Restorable)
    (hrun : (u.ro .firstRun).stores .firstRun s = some v) : v.c0 = u.c0 := by
  have hro : (u.ro .firstRun).c0 = u.c0 := by
    unfold ro
    split
    · exact update_c0 u
    · rfl
  rcases stores_cases hm.ro hrun with ⟨-, rfl⟩ | ⟨-, w', hopen, rfl⟩
  · exact hro
  · have hslot := opened_first_slot hr hopen
    rw [written_c0 (by rw [hslot]; simp), opened_c0 hopen, hro]

theorem second_c0 (hm : w.Mapped) (hrun : (w.ro .secondRun).stores .secondRun s = some v) :
    v.c0 = w.c0 := by
  have hro : (w.ro .secondRun).c0 = w.c0 := by
    unfold ro
    split
    · exact update_c0 w
    · rfl
  rcases stores_cases hm.ro hrun with ⟨-, rfl⟩ | ⟨-, w', hopen, rfl⟩
  · exact hro
  · have hslot := (opened_second hopen).1
    rw [written_c0 (by rw [hslot]; simp), opened_c0 hopen, hro]

theorem endFirst_c0 (v : View) : v.endFirst.c0 = v.c0 := by
  unfold endFirst
  split <;> rfl

theorem Mapped.endFirst (hm : v.Mapped) : v.endFirst.Mapped := by
  unfold View.endFirst
  split <;> exact hm

theorem start_content_iff (hs : u.slot = .us0) : (u.ro .firstRun).content = u.c0 ↔
      (u.write = true → u.both = true → u.flags.hToUpdate = false → u.c1 = some u.c0) := by
  obtain ⟨f, slot, write, dirty, c0, c1, c2⟩ := u
  simp only at hs
  subst hs
  cases write with
  | false => simp [ro, content]
  | true =>
    cases c1 <;> cases c2 <;> cases hup : f.hToUpdate <;>
      simp [ro, protect, update, both, synced, startSlot, runSlot, content, hup]

structure Restored (c0 : PageData) (v : View) : Prop where
  content : v.content = c0
  us1 : v.c1 = v.c1.map (fun _ => v.c0)
  us2 : v.c2 = v.c2.map (fun _ => v.c0)
  flags : v.flags.clearRun = v.flags

theorem reset_restored (hm : v.Mapped) : v.reset.Restored v.c0 := by
  obtain ⟨f, slot, write, dirty, c0, c1, c2⟩ := v
  obtain ⟨h1, h2⟩ := hm
  cases c1 <;> cases c2 <;> cases slot <;>
    simp_all [reset, PmbFlags.clearRun] <;> exact ⟨rfl, rfl, rfl, rfl⟩

theorem cmp_reset_restored (hm : v.Mapped) : v.cmp.reset.Restored v.c0 := by
  obtain ⟨b, hcmp⟩ := cmp_eq v
  rw [hcmp]
  have hm' : View.Mapped { v with flags := { v.flags with fws := b } } := hm
  exact reset_restored hm'

end View

/-! ## The process -/

variable {k k' k₀ k₁ k₂ : Kernel} {p : ProcNr} {i : Fin workingSetSize}
  {L : List (Fin workingSetSize)} {step : HStep}

/-- What the process reads, its private frames, the run flags and the registers (without `st` and
`cr2`) are as they were in `k₀`. -/
structure RolledBack (k₀ : Kernel) (p : ProcNr) (L : List (Fin workingSetSize)) (k' : Kernel) :
    Prop where
  pages : ∀ v, (k₀.getPte p v).present = true →
    (k'.getPte p v).present = true ∧ visible k' p v = visible k₀ p v
  us1 : ∀ i ∈ L, ∀ f, (k'.workingSet i).us1 = some f →
    k'.mem f = k'.mem (frameOr (k'.workingSet i).us0)
  us2 : ∀ i ∈ L, ∀ f, (k'.workingSet i).us2 = some f →
    k'.mem f = k'.mem (frameOr (k'.workingSet i).us0)
  flags : ∀ i ∈ L, (k'.workingSet i).flags.iwsPfFirst = false ∧
    (k'.workingSet i).flags.iwsPfSecond = false ∧ (k'.workingSet i).flags.hgetPf = false ∧
    (k'.workingSet i).flags.iwsModKernel = false
  context : ∃ st cr2, contextOf k' p = { contextOf k₀ p with
    reg := { (contextOf k₀ p).reg with st := st }
    cr := { (contextOf k₀ p).cr with cr2 := cr2 } }

/-- Rollback is exact, wherever the element that began in `k` is given up: an abort in either run,
or a failed comparison. -/
def RollbackExact (k : Kernel) (p : ProcNr) (L : List (Fin workingSetSize)) (k₀ : Kernel) : Prop :=
  ∀ ops₁ k₁ rs₁, runFirst k p ops₁ = some (k₁, rs₁) →
    (∀ c, ∃ k', abortPe (withContext k₁ p c) p = some k' ∧ RolledBack k₀ p L k') ∧
    ∀ t₁ ops₂ k₂ rs₂, runSecond k₁ p t₁ ops₂ = some (k₂, rs₂) →
      (∀ c, ∃ k', abortPe (withContext k₂ p c) p = some k' ∧ RolledBack k₀ p L k') ∧
      ∀ c t₂ sameIns k₃, hardeningTask (withContext k₂ p c) p t₂ sameIns = some (k₃, .failed) →
        RolledBack k₀ p L (restoreCopy0 k₃ p)

theorem rolledBack_of_views (hinv₀ : PeInv k₀ p L) (hinv : PeInv k' p L) (hout : Outer p L k₀ k')
    (hviews : ∀ i ∈ L, (view k' p i).Restored (view k₀ p i).content)
    (hcontext : ∃ st cr2, contextOf k' p = { contextOf k₀ p with
      reg := { (contextOf k₀ p).reg with st := st }
      cr := { (contextOf k₀ p).cr with cr2 := cr2 } }) : RolledBack k₀ p L k' where
  pages v hpres := by
    rcases mem_or_outside k₀ L v with ⟨i, hi, hiv⟩ | hv
    · have hiv' : pageOf (k'.workingSet i).vaddr = pageOf v := by rw [hout.same.vaddr]; exact hiv
      have hpte := (hinv.pages i hi).pte
      rw [k'.getPte_congr p hiv'] at hpte
      simp only [pteUser, Bool.and_eq_true] at hpte
      refine ⟨hpte.1.1.1, ?_⟩
      rw [(hinv.pages i hi).visible_eq hiv', (hinv₀.pages i hi).visible_eq hiv,
        (hviews i hi).content]
    · exact ⟨by rw [hout.outPte v hv]; exact hpres, hout.outVisible v hv hpres⟩
  us1 i hi f hf := by
    have hus1 := (hviews i hi).us1
    simp only [view, viewOf, hf, map_some, some.injEq] at hus1
    exact hus1
  us2 i hi f hf := by
    have hus2 := (hviews i hi).us2
    simp only [view, viewOf, hf, map_some, some.injEq] at hus2
    exact hus2
  flags i hi := by
    have hflags := (hviews i hi).flags
    simp only [view, viewOf, PmbFlags.clearRun, PmbFlags.mk.injEq] at hflags
    obtain ⟨-, -, hgetPf, hfirst, hsecond, hmod, -⟩ := hflags
    exact ⟨hfirst.symm, hsecond.symm, hgetPf.symm, hmod.symm⟩
  context := hcontext

theorem InRun.withContext (h : InRun k p L step) (c : Copy0) : InRun (withContext k p c) p L step :=
  ⟨(samePages_withContext k p c).peInv h.inv, h.enabled, h.proc, h.user, h.step, h.restore⟩

section

variable (h : PeReady k p L) (hb : Begun k p L k₀)
  (hrest : ∀ i ∈ L, (startView k p i).Restorable)

include h hb hrest

theorem begun_content (hi : i ∈ L) : (view k₀ p i).content = (startView k p i).c0 := by
  rw [hb.views i hi]
  exact (View.start_content_iff (startView_clean h hi).1).mpr (hrest i hi).inStep

theorem abortPe_rolledBack (hin : InRun k₁ p L step) (hout : Outer p L k₀ k₁)
    (hcopy : k₁.copy0 = k₀.copy0) (hc0 : ∀ i ∈ L, (view k₁ p i).c0 = (startView k p i).c0)
    (c : Copy0) : ∃ k', abortPe (withContext k₁ p c) p = some k' ∧ RolledBack k₀ p L k' := by
  obtain ⟨k', habort, hinv, hout', ⟨st, cr2, hctx⟩, hviews⟩ := abortPe_view hin c
  refine ⟨k', habort, rolledBack_of_views hb.inRun.inv hinv (hout.trans hout') (fun i hi => ?_)
    ⟨st, cr2, ?_⟩⟩
  · rw [hviews i hi, begun_content h hb hrest hi, ← hc0 i hi]
    exact View.reset_restored (view_mapped k₁ p i)
  · rw [hctx, hcopy, hb.saved]

theorem failed_rolledBack {t : Trap} {sameIns : Bool} (hin : InRun k₂ p L .secondRun)
    (hout : Outer p L k₀ k₂) (hcopy : k₂.copy0 = k₀.copy0)
    (hc0 : ∀ i ∈ L, (view k₂ p i).c0 = (startView k p i).c0) (c : Copy0)
    (hrun : hardeningTask (withContext k₂ p c) p t sameIns = some (k', .failed)) :
    RolledBack k₀ p L (restoreCopy0 k' p) := by
  have hctx := samePages_withContext k₂ p c
  obtain ⟨hinv, hout', hcopy', hviews⟩ := hardeningTask_failed (hin.withContext c) hrun
  have hback := samePages_restoreCopy0 k' p
  have hcopy0 : k'.copy0 = k₀.copy0 := hcopy'.trans hcopy
  refine rolledBack_of_views hb.inRun.inv (hback.peInv hinv)
    ((hout.trans (hctx.outer L)).trans (hout'.trans (hback.outer L))) (fun i hi => ?_)
    ⟨(k'.procs p).reg.st, k'.cr.cr2, ?_⟩
  · rw [hback.view_eq, begun_content h hb hrest hi, ← hc0 i hi, ← hctx.view_eq]
    have hm := view_mapped (withContext k₂ p c) p i
    rcases hviews i hi with hv | hv
    · rw [hv]
      exact View.reset_restored hm
    · rw [hv]
      exact View.cmp_reset_restored hm
  · rw [← hb.saved, ← hcopy0]
    simp [contextOf, restoreCopy0, Kernel.setProc]

end

theorem startView_mapped (h : PeReady k p L) (hi : i ∈ L) : (startView k p i).Mapped := by
  have hslot := (startView_clean h hi).1
  exact ⟨fun h => by simp [hslot] at h, fun h => by simp [hslot] at h⟩

theorem rollbackExact_of_restorable (h : PeReady k p L) (hstart : startDwc k p = some k₀)
    (hb : Begun k p L k₀) (hrest : ∀ i ∈ L, (startView k p i).Restorable)
    (hclosed : ∀ v, Outside k L v → k.canStore p v = false) : RollbackExact k p L k₀ := by
  -- no page outside the working set becomes writable on the way
  have hshut : ∀ k', Outer p L k k' → ∀ v, Outside k' L v → k'.canStore p v = false := by
    intro k' hout v hv
    rw [hout.outside_iff] at hv
    rw [hout.canStore_eq hv]
    exact hclosed v hv
  intro ops1 k₁ rs1 hrun1
  obtain ⟨k0', hstart', -, huser1, hin1, -, hv1⟩ := runFirst_view h hrun1
  rw [hstart] at hstart'
  obtain rfl := some.inj hstart'
  have ha1 := userRun_around hb.inRun.inv (hshut k₀ hb.outer) huser1
  have hcopy1 : k₁.copy0 = k₀.copy0 := by
    have hcopy := congrArg Rest.copy0 ha1.rest
    exact hcopy
  have hc1 : ∀ i ∈ L, (view k₁ p i).c0 = (startView k p i).c0 := fun i hi =>
    View.first_c0 (startView_mapped h hi) (hrest i hi) (hv1 i hi)
  refine ⟨abortPe_rolledBack h hb hrest hin1 ha1.toOuter hcopy1 hc1, ?_⟩
  intro t1 ops2 k₂ rs2 hrun2
  obtain ⟨k', hagain, huser2, hin2, -, hv2⟩ := runSecond_view hin1 hrun2
  have hout' := (hb.outer.trans ha1.toOuter).trans hagain.outer
  have ha2 := userRun_around hagain.inRun.inv (hshut k' hout') huser2
  have hcopy2 : k₂.copy0 = k₀.copy0 := by
    have hcopy := congrArg Rest.copy0 ha2.rest
    exact (hcopy.trans hagain.copy0).trans hcopy1
  have hout2 : Outer p L k₀ k₂ := (ha1.toOuter.trans hagain.outer).trans ha2.toOuter
  have hc2 : ∀ i ∈ L, (view k₂ p i).c0 = (startView k p i).c0 := fun i hi => by
    rw [View.second_c0 (view_mapped k₁ p i).endFirst (hv2 i hi), View.endFirst_c0, hc1 i hi]
  exact ⟨abortPe_rolledBack h hb hrest hin2 hout2 hcopy2 hc2,
    fun c t2 sameIns k3 hfail => failed_rolledBack h hb hrest hin2 hout2 hcopy2 hc2 c hfail⟩

theorem runFirst_store (hstart : startDwc k p = some k₀) {v : VirBytes}
    (hcan : k₀.canStore p v = true) (b : UInt8) :
    runFirst k p [.store v b] = some (k₀.storeByte p v b, []) := by
  simp [runFirst, hstart, userRun, perform, UserOp.allowed, UserOp.exec, hcan]

theorem exists_other_byte (c : PageData) (o : Fin 4096) :
    ∃ b : UInt8, Function.update c o b ≠ c := by
  have hne : c o + 1 ≠ c o := by
    intro heq
    simp at heq
  refine ⟨c o + 1, fun heq => hne ?_⟩
  have happly := congrFun heq o
  rwa [Function.update_self] at happly

/-- The condition is necessary: a page that does not meet it is not brought back after one
store, or after none. -/
theorem restorable_of_rollbackExact (h : PeReady k p L) (hstart : startDwc k p = some k₀)
    (hb : Begun k p L k₀) (hexact : RollbackExact k p L k₀) :
    (∀ i ∈ L, (startView k p i).Restorable) ∧ ∀ v, Outside k L v → k.canStore p v = false := by
  refine ⟨fun i hi => ⟨?_, ?_⟩, fun v hv => ?_⟩
  · -- an abort right at the start
    have hrun : runFirst k p [] = some (k₀, []) := by simp [runFirst, hstart, userRun]
    obtain ⟨k', habort, hback⟩ := (hexact [] k₀ [] hrun).1 default
    obtain ⟨k'', habort', hinv, hout, -, hviews⟩ := abortPe_view hb.inRun default
    rw [habort] at habort'
    obtain rfl := some.inj habort'
    have hok := hb.inRun.inv.pages i hi
    have hpres : (k₀.getPte p (k₀.workingSet i).vaddr).present = true := by
      have hpte := hok.pte
      simp only [pteUser, Bool.and_eq_true] at hpte
      exact hpte.1.1.1
    have hvis := (hback.pages _ hpres).2
    rw [(hinv.pages i hi).visible_eq (by rw [hout.same.vaddr]), hok.visible_eq rfl, hviews i hi,
      (View.reset_restored (view_mapped k₀ p i)).content, hb.views i hi] at hvis
    have hclean := startView_clean h hi
    rw [(View.ro_clean .firstRun hclean.2.1 hclean.2.2).2.2] at hvis
    exact (View.start_content_iff hclean.1).mp hvis.symm
  · intro hc2
    by_contra hkept
    rw [Bool.not_eq_false] at hkept
    have hclean := startView_clean h hi
    have hok := hb.inRun.inv.pages i hi
    -- the page is open to stores on `us0`
    have hview : view k₀ p i = { startView k p i with write := true, dirty := false } := by
      rw [hb.views i hi, View.ro_kept hclean.1 hc2 hkept]
    have hcan : k₀.canStore p (k₀.workingSet i).vaddr = true := by
      rw [(hok.allowed rfl).2, hview]
    obtain ⟨b, hb'⟩ := exists_other_byte (startView k p i).c0 (pageOffset (k₀.workingSet i).vaddr)
    obtain ⟨k', habort, hback⟩ := (hexact _ _ _ (runFirst_store hstart hcan b)).1 default
    have hto := storeByte_view hok (v := (k₀.workingSet i).vaddr) rfl b
    have hinv1 := hto.step.peInv hb.inRun.inv hi
    obtain ⟨k'', habort', hinv, hout, -, hviews⟩ :=
      abortPe_view (hb.inRun.of_rest hinv1 hto.step.rest) default
    rw [habort] at habort'
    obtain rfl := some.inj habort'
    have hpres : (k₀.getPte p (k₀.workingSet i).vaddr).present = true := by
      have hpte := hok.pte
      simp only [pteUser, Bool.and_eq_true] at hpte
      exact hpte.1.1.1
    have hvis := (hback.pages _ hpres).2
    rw [(hinv.pages i hi).visible_eq (by rw [hout.same.vaddr, hto.step.same.vaddr]),
      hok.visible_eq rfl, hviews i hi,
      (View.reset_restored (view_mapped _ p i)).content, hto.view, hview] at hvis
    simp only [View.written, View.setContent, View.content, hclean.1, applyStores_cons,
      applyStores_nil] at hvis
    exact hb' hvis
  · by_contra hopen
    rw [Bool.not_eq_false] at hopen
    have hv0 : Outside k₀ L v := (hb.outer.outside_iff v).mpr hv
    have hcan : k₀.canStore p v = true := by
      rw [hb.outer.canStore_eq hv]
      exact hopen
    obtain ⟨b, hb'⟩ := exists_other_byte (visible k₀ p v) (pageOffset v)
    obtain ⟨k', habort, hback⟩ := (hexact _ _ _ (runFirst_store hstart hcan b)).1 default
    obtain ⟨hinv1, ha1, -⟩ := storeByte_outside hb.inRun.inv hv0 hcan b
    obtain ⟨k'', habort', hinv, hout, -, -⟩ :=
      abortPe_view (hb.inRun.of_rest hinv1 ha1.rest) default
    rw [habort] at habort'
    obtain rfl := some.inj habort'
    have hpres : (k₀.getPte p v).present = true := by
      simp only [Kernel.canStore, Kernel.canLoad, Bool.and_eq_true] at hcan
      exact hcan.1.1.1.2
    have hvis := (hback.pages v hpres).2
    have hpres1 : ((k₀.storeByte p v b).getPte p v).present = true := by
      obtain ⟨d, hd⟩ := ha1.outPte v hv0
      rw [hd]
      exact hpres
    rw [hout.outVisible v ((ha1.outside_iff v).mpr hv0) hpres1] at hvis
    have hstored : visible (k₀.storeByte p v b) p v =
        Function.update (visible k₀ p v) (pageOffset v) b := by
      simp [visible, Kernel.storeByte, Kernel.getPte, Kernel.setPte, Kernel.setProc]
    rw [hstored] at hvis
    exact hb' hvis

/-- For every state in which an element begins: rollback is exact exactly if every page of the
working set can be brought back and no other page is writable. -/
theorem rollback_exact_iff (h : PeReady k p L) (hstart : startDwc k p = some k₀) :
    RollbackExact k p L k₀ ↔ (∀ i ∈ L, (startView k p i).Restorable) ∧
        ∀ v, Outside k L v → k.canStore p v = false := by
  have hb : Begun k p L k₀ := by
    rcases startDwc_first h with ⟨hnone, -⟩ | ⟨k₁, hsome, hb⟩
    · rw [hnone] at hstart
      simp at hstart
    · rw [hsome] at hstart
      exact some.inj hstart ▸ hb
  constructor
  · exact restorable_of_rollbackExact h hstart hb
  · rintro ⟨hrest, hclosed⟩
    exact rollbackExact_of_restorable h hstart hb hrest hclosed

/-- A process whose page is in the working set. -/
theorem rollback_exact_block : ∃ k₀, startDwc blockKernel 15 = some k₀ ∧
    RollbackExact blockKernel 15 [0] k₀ := by
  refine ⟨_, rfl, (rollback_exact_iff blockKernel_ready rfl).mpr ⟨fun i hi => ?_, fun v hv => ?_⟩⟩
  · obtain rfl := List.mem_singleton.mp hi
    exact ⟨fun _ _ hno => absurd hno (by decide), fun hno => absurd hno (by decide)⟩
  have hpage : pageOf v ≠ 1 := fun heq => hv 0 List.mem_cons_self (by rw [heq]; rfl)
  have habsent := onePage_absent hpage
  rw [Kernel.canStore, Kernel.canLoad,
    show blockKernel.getPte 15 v = onePage.pte (pageOf v) from rfl, habsent]
  simp

/-- A process that is hardened while it runs stores to a page outside its working set. -/
theorem rollback_misses_page_outside :
    ¬ ∀ (k : Kernel) (p : ProcNr) (L : List (Fin workingSetSize)) (k₀ : Kernel),
      PeReady k p L → startDwc k p = some k₀ → RollbackExact k p L k₀ := by
  intro hall
  obtain ⟨k₀, k₁, k', hstart, hrun, habort, hpres, hold, hnew⟩ :
      ∃ k₀ k₁ k', startDwc bareKernel 15 = some k₀ ∧
        runFirst bareKernel 15 [.store 4096 1] = some (k₁, []) ∧
        abortPe (withContext k₁ 15 default) 15 = some k' ∧
        (k₀.getPte 15 4096).present = true ∧
        visible k₀ 15 4096 0 = 0 ∧ visible k' 15 4096 0 = 1 :=
    ⟨_, _, _, rfl, rfl, rfl, rfl, by decide +kernel, by decide +kernel⟩
  obtain ⟨k'', habort', hback⟩ :=
    (hall bareKernel 15 [] k₀ bareKernel_ready hstart _ _ _ hrun).1 default
  rw [habort] at habort'
  obtain rfl := some.inj habort'
  have hbyte := congrFun (hback.pages 4096 hpres).2 0
  rw [hold, hnew] at hbyte
  exact absurd hbyte (by decide)

end HardenedMinix
