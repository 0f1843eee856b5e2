import HardenedMinix.Pe.KernelWrites
import HardenedMinix.Pe.Transparency

/-!
# Elements in a row

A process executes one element after the other. An element whose comparison fails, or that is
aborted, is executed again, and the kernel writes to the memory of the process in between. The
process does what the accesses of the committed elements do when they are executed once, among the
writes of the kernel.
-/

open List Option

namespace HardenedMinix

open Lib Linked View Kernel KernelWrites

namespace View

variable {v w : View} {s : List PageStore} {step : HStep}

/-! ## Private frames -/

theorem both_ro (h : v.both = true) : (v.ro step).both = true := by
  unfold ro protect update
  split_ifs
  · rfl
  · exact h
  · exact h

theorem both_stores (hm : w.Mapped) (h : w.both = true) (hrun : w.stores step s = some v) :
    v.both = true := by
  rcases stores_cases hm hrun with ⟨-, rfl⟩ | ⟨-, w', hopen, rfl⟩
  · exact h
  have hw : w'.both = true := by
    unfold opened fault at hopen
    split at hopen
    · exact some.inj hopen ▸ h
    · dsimp only at hopen
      split at hopen
      · cases hopen
      · exact some.inj hopen ▸ h
  unfold written setContent
  cases w'.slot <;> simpa [both] using hw

theorem both_endFirst (v : View) : v.endFirst.both = v.both := by
  unfold endFirst
  split <;> rfl

theorem both_commit (v : View) : v.cmp.commit.both = v.both := by
  obtain ⟨b, hcmp⟩ := cmp_eq v
  rw [hcmp]
  unfold commit commitCopy
  split <;> rfl

theorem reset_both (h : v.both = true) : v.reset = { v with
    flags := v.flags.clearRun, slot := .us0, write := true, c1 := some v.c0, c2 := some v.c0 } := by
  obtain ⟨f, slot, write, dirty, c0, c1, c2⟩ := v
  cases c1 <;> cases c2 <;> simp_all [both, reset]

/-- A first run can begin with the page; `us0` is `c`. -/
structure Begins (c : PageData) (u : View) : Prop where
  us0 : u.c0 = c
  slot : u.slot = .us0
  noFault : u.flags.hgetPf = false
  both : u.both = true
  write : u.write = true
  inStep : u.InStep

namespace Begins

variable {u : View} {c : PageData}

theorem lossless (h : u.Begins c) (noMem : Prop) : u.Lossless noMem := by
  have hboth := h.both
  refine ⟨fun _ hno => ?_, fun hno => ?_, fun hno => ?_⟩
  · rw [h.write] at hno
    cases hno
  · simp [View.both, hno] at hboth
  · simp [View.both, hno] at hboth

theorem restorable (h : u.Begins c) : u.Restorable := by
  have hboth := h.both
  refine ⟨fun _ _ hno => ?_, fun hno => ?_⟩
  · obtain hup | ⟨h1, -⟩ := h.inStep hboth
    · rw [hno] at hup
      cases hup
    · exact h1
  · simp [View.both, hno] at hboth

theorem mapped (h : u.Begins c) : u.Mapped :=
  ⟨fun h1 => by simp [h.slot] at h1, fun h2 => by simp [h.slot] at h2⟩

theorem eventIf (h : u.Begins c) (b : Bool) : (u.eventIf b).Begins c := by
  unfold View.eventIf event
  split_ifs
  · exact ⟨h.us0, h.slot, h.noFault, rfl, h.write, fun _ => .inr ⟨rfl, rfl⟩⟩
  · exact h
  · exact h

theorem reset (h : u.both = true) (hc : u.c0 = c) : u.reset.Begins c := by
  rw [reset_both h]
  exact ⟨hc, rfl, rfl, rfl, rfl, fun _ => .inr ⟨rfl, rfl⟩⟩

end Begins

end View

/-! ## Between elements -/

/-- Every page has both private frames, in step when the next element runs, and no other page is
writable. -/
structure Complete (k : Kernel) (p : ProcNr) (L : List (Fin workingSetSize)) : Prop where
  both : ∀ i ∈ L, (view k p i).both = true
  writable : ∀ i ∈ L, (view k p i).write = true
  fine : Fine k p L
  closed : ∀ v, Outside k L v → k.canStore p v = false

/-- What the process reads outside its elements is the memory `m`. -/
structure Holds (k : Kernel) (p : ProcNr) (L : List (Fin workingSetSize)) (m : PlainMemory) :
    Prop where
  pages : ∀ i ∈ L, us0Data k i = m (pageOf (k.workingSet i).vaddr)
  outside : ∀ v, Outside k L v → (k.getPte p v).present = true → visible k p v = m (pageOf v)

/-- The page directory of `p` and what is outside `L` stay as they are. -/
structure Stays (p : ProcNr) (L : List (Fin workingSetSize)) (k k' : Kernel) : Prop where
  vaddr : ∀ i ∈ L, (k'.workingSet i).vaddr = (k.workingSet i).vaddr
  pdes : ∀ v, k'.getPde p v = k.getPde p v
  outPte : ∀ v, Outside k L v → k'.getPte p v = k.getPte p v
  outVisible : ∀ v, Outside k L v → (k.getPte p v).present = true → visible k' p v = visible k p v

/-- What happens between two elements leaves the pages of `p` alone. -/
structure Between (p : ProcNr) (L : List (Fin workingSetSize)) (k k' : Kernel) : Prop
    extends Stays p L k k' where
  views : ∀ i ∈ L, view k' p i = view k p i
  events : ∀ page, Pending k p page → Pending k' p page

/-- The first run of an element begins in `k₀`, for the first time or after a failed comparison. The
accesses may be any. -/
inductive Start (p : ProcNr) (L : List (Fin workingSetSize)) (k : Kernel) : Kernel → Prop where
  | new {k₀} : PeReady k p L → startDwc k p = some k₀ → Start p L k k₀
  | again {k₀ k₁ k₂ k₃ k₄ ops₁ ops₂ rs₁ rs₂ t₁ t₂ sameIns c} : Start p L k k₀ →
      userRun k₀ p ops₁ = some (k₁, rs₁) → runSecond k₁ p t₁ ops₂ = some (k₂, rs₂) →
      hardeningTask (withContext k₂ p c) p t₂ sameIns = some (k₃, .failed) → HmeInv k₃ →
      startDwc k₃ p = some k₄ → Start p L k k₄

/-- The element has come to `k₁`, in the run `step`. -/
inductive Under (p : ProcNr) (L : List (Fin workingSetSize)) (k : Kernel) :
    Kernel → HStep → Prop where
  | first {k₀ k₁ ops rs} : Start p L k k₀ → userRun k₀ p ops = some (k₁, rs) →
      Under p L k k₁ .firstRun
  | second {k₁ k₂ t ops rs} : Under p L k k₁ .firstRun → runSecond k₁ p t ops = some (k₂, rs) →
      Under p L k k₂ .secondRun

def KernelWrites.KernelWrite.stores (w : KernelWrite) : List UserOp :=
  w.bytes.map fun x => .store x.1 x.2

variable {k k' k₀ k₁ k₂ k₃ : Kernel} {p : ProcNr} {i : Fin workingSetSize}
  {L : List (Fin workingSetSize)} {ops : List UserOp} {t₁ t₂ : Trap} {rs rs₁ rs₂ : List UInt8}
  {m : PlainMemory} {c : Copy0} {sameIns : Bool} {step : HStep}

theorem Stays.outside_iff (h : Stays p L k k') (v : VirBytes) : Outside k' L v ↔ Outside k L v :=
  forall₂_congr fun i hi => by rw [h.vaddr i hi]

theorem Outer.stays (h : Outer p L k k') : Stays p L k k' :=
  ⟨fun i _ => h.same.vaddr i, h.pdes, h.outPte, h.outVisible⟩

namespace Complete

theorem start (h : Complete k p L) (hr : PeReady k p L) (hi : i ∈ L) :
    (startView k p i).Begins (us0Data k i) := by
  obtain ⟨hslot, hpf, -⟩ := startView_clean hr hi
  have hstart : (startView k p i).both = true ∧ (startView k p i).write = true ∧
      (startView k p i).InStep := by
    unfold startView eventIf event
    split_ifs with hon hb
    · exact ⟨rfl, h.writable i hi, fun _ => .inr ⟨rfl, rfl⟩⟩
    · exact absurd (h.both i hi) hb
    · refine ⟨h.both i hi, h.writable i hi, fun hboth => ?_⟩
      obtain (hset | ⟨-, hup⟩) | ⟨w, hw, hpage⟩ := h.fine i hi
      · exact .inr (hset hboth)
      · exact .inl hup
      · exact (hon (any_eq_true.mpr ⟨w, hw, beq_iff_eq.mpr hpage⟩)).elim
  exact ⟨startView_c0 k p i, hslot, hpf, hstart.1, hstart.2.1, hstart.2.2⟩

theorem shut (hc : Complete k p L) (h : Stays p L k k') :
    ∀ v, Outside k' L v → k'.canStore p v = false := by
  intro v hv
  rw [h.outside_iff] at hv
  have hno := hc.closed v hv
  rwa [canStore, canLoad, ← h.pdes, ← h.outPte v hv] at hno

end Complete

theorem Stays.holds (h : Stays p L k k') {m' : PlainMemory} (hm : Holds k p L m)
    (hpages : ∀ i ∈ L, us0Data k' i = m' (pageOf (k.workingSet i).vaddr))
    (hrest : ∀ v, Outside k L v → (k.getPte p v).present = true → m' (pageOf v) = m (pageOf v)) :
    Holds k' p L m' := by
  refine ⟨fun i hi => ?_, fun v hv hpres => ?_⟩
  · rw [h.vaddr i hi]
    exact hpages i hi
  · rw [h.outside_iff] at hv
    rw [h.outPte v hv] at hpres
    rw [h.outVisible v hv hpres, hm.outside v hv hpres, hrest v hv hpres]

theorem Between.kept (h : Between p L k k') (hc : Complete k p L) (hm : Holds k p L m) :
    Complete k' p L ∧ Holds k' p L m := by
  have hview := h.views
  refine ⟨⟨fun i hi => ?_, fun i hi => ?_, fun i hi => ?_, hc.shut h.toStays⟩,
    h.toStays.holds hm (fun i hi => ?_) fun _ _ _ => rfl⟩
  · rw [hview i hi]
    exact hc.both i hi
  · rw [hview i hi]
    exact hc.writable i hi
  · rw [hview i hi, h.vaddr i hi]
    exact (hc.fine i hi).imp_right (h.events _)
  · rw [← hm.pages i hi]
    exact congrArg View.c0 (hview i hi)

/-! ## One element -/

/-- A first run begins, of an element that began in `k`. -/
structure Started (k : Kernel) (p : ProcNr) (L : List (Fin workingSetSize)) (k₀ : Kernel) :
    Prop where
  inRun : InRun k₀ p L .firstRun
  outer : Outer p L k k₀
  begins : ∀ i ∈ L, ∃ u : View, view k₀ p i = u.ro .firstRun ∧ u.Begins (us0Data k i)

/-- An element under way. -/
structure UnderWay (k : Kernel) (p : ProcNr) (L : List (Fin workingSetSize)) (k₁ : Kernel)
    (step : HStep) : Prop where
  inRun : InRun k₁ p L step
  outer : Outer p L k k₁
  both : ∀ i ∈ L, (view k₁ p i).both = true
  us0 : ∀ i ∈ L, us0Data k₁ i = us0Data k i

theorem Started.run (h : Started k p L k₀) (hc : Complete k p L)
    (hrun : userRun k₀ p ops = some (k₁, rs)) : UnderWay k p L k₁ .firstRun ∧
      ∀ i ∈ L, (view k₀ p i).stores .firstRun (pageStores k i ops) = some (view k₁ p i) := by
  obtain ⟨hinv, -, hviews⟩ := userRun_view h.inRun.inv hrun
  have ha := userRun_around h.inRun.inv (hc.shut h.outer.stays) hrun
  have hv (i) (hi : i ∈ L) :
      (view k₀ p i).stores .firstRun (pageStores k i ops) = some (view k₁ p i) := by
    rw [← hviews i hi, h.inRun.step, ← h.outer.same.pageStores_eq]
    rfl
  refine ⟨⟨h.inRun.of_rest hinv ha.rest, h.outer.trans ha.toOuter, fun i hi => ?_,
    fun i hi => ?_⟩, hv⟩
  all_goals
    obtain ⟨u, hu, hb⟩ := h.begins i hi
    have hstores := hv i hi
    rw [hu] at hstores
  · exact both_stores hb.mapped.ro (both_ro hb.both) hstores
  · exact (first_c0 hb.mapped hb.restorable hstores).trans hb.us0

theorem UnderWay.second (h : UnderWay k p L k₁ .firstRun) (hc : Complete k p L)
    (hrun : runSecond k₁ p t₁ ops = some (k₂, rs)) : UnderWay k p L k₂ .secondRun := by
  obtain ⟨k', hagain, huser, hin, -, hv⟩ := runSecond_view h.inRun hrun
  have hout := h.outer.trans hagain.outer
  have ha := userRun_around hagain.inRun.inv (hc.shut hout.stays) huser
  refine ⟨hin, hout.trans ha.toOuter, fun i hi => ?_, fun i hi => ?_⟩
  · exact both_stores (view_mapped _ p i).endFirst.ro
      (both_ro ((both_endFirst _).trans (h.both i hi))) (hv i hi)
  · have h0 := second_c0 (view_mapped _ p i).endFirst (hv i hi)
    rw [endFirst_c0] at h0
    exact h0.trans (h.us0 i hi)

theorem failed_flags {t : Trap} (h : InRun k p L .secondRun)
    (hrun : hardeningTask k p t sameIns = some (k', .failed)) :
    k'.hEnable = true ∧ k'.hProcNr = p ∧ k'.hRestore = .forFirstRun := by
  have hinv := (samePages_ctx2 k p t).peInv h.inv
  have hback (k₁) (hinv₁ : PeInv k₁ p L) (hr : restOf p k₁ = restOf p { k with ctx2 := saveCopy2 t })
      (k₂) (hreset : vmResetPram k₁ p .cmpFailed = some k₂) :
      k₂.hEnable = true ∧ k₂.hProcNr = p := by
    obtain ⟨k', hreset', -, ha, -⟩ :=
      vmResetPram_failed hinv₁ h.user ((congrArg Rest.hStep hr).trans h.step)
    rw [hreset] at hreset'
    obtain rfl := some.inj hreset'
    have hr' := ha.rest.trans hr
    exact ⟨(congrArg Rest.hEnable hr').trans h.enabled, (congrArg Rest.hProcNr hr').trans h.proc⟩
  obtain ⟨k₁, r, hcmp, hinv₁, ha₁, -⟩ := cmpMem_view hinv
  rw [hardeningTask_second h] at hrun
  unfold cmpStep at hrun
  split_ifs at hrun
  · cases hrun
  · rw [hcmp] at hrun
    cases r <;> dsimp only at hrun <;> split at hrun <;> cases hrun
    obtain ⟨hon, hproc⟩ := hback k₁ hinv₁ ha₁.rest _ ‹_›
    exact ⟨hon, hproc, rfl⟩
  · dsimp only at hrun
    split at hrun <;> cases hrun
    obtain ⟨hon, hproc⟩ := hback _ hinv rfl _ ‹_›
    exact ⟨hon, hproc, rfl⟩

theorem startDwc_again (h : PeInv k p L) (hm : HmeInv k) (hp : p ≠ vmProcNr)
    (hflags : k.hEnable = true ∧ k.hProcNr = p ∧ k.hRestore = .forFirstRun)
    (hrun : startDwc k p = some k') : InRun k' p L .firstRun ∧ Outer p L k k' ∧
      ∀ i ∈ L, view k' p i = (startView k p i).ro .firstRun := by
  obtain ⟨hon, hproc, hrestore⟩ := hflags
  have hw := samePages_restoreCopy0 k p
  have hpages : SamePages p k { restoreCopy0 k p with hStep := .firstRun } :=
    ⟨hw.blocks, hw.mem, hw.freeMem, hw.pt, ⟨hw.same.next, hw.same.free, hw.same.vaddr,
      hw.same.iflags, hw.same.inUse, hw.same.first, hw.same.size⟩⟩
  have hevents : hmeView { restoreCopy0 k p with hStep := .firstRun } = hmeView k :=
    hmeView_setProc k p rfl rfl rfl
  unfold startDwc startPe restorePe at hrun
  rw [if_neg (by simp [hon])] at hrun
  simp only [hon, hproc, hrestore, ne_eq, reduceCtorEq, not_false_eq_true, and_self, ↓reduceIte,
    not_true_eq_false] at hrun
  obtain ⟨hnone, -⟩ | ⟨k₁, hro, hinv, ha, hv⟩ :=
    setPeMemToRo_first (hpages.peInv h) (hm.of_view hevents) rfl
  · rw [hnone] at hrun
    cases hrun
  rw [hro] at hrun
  dsimp only at hrun
  have hrest := ha.rest
  have hproc₁ : k₁.hProcNr = p := (congrArg Rest.hProcNr hrest).trans hproc
  split at hrun
  · cases hrun
  rename_i k₂ hk₂
  split_ifs at hk₂
  split_ifs at hrun
  cases hk₂
  cases hrun
  have hlast : SamePages p k₁ { k₁ with hRestore := .none } :=
    ⟨rfl, rfl, rfl, rfl, WsSame.of_procs rfl fun _ => ⟨rfl, rfl, rfl⟩⟩
  refine ⟨⟨hlast.peInv hinv, (congrArg Rest.hEnable hrest).trans hon, hproc₁, hp, ha.hStep_eq, rfl⟩,
    ((hpages.outer L).trans ha.toOuter).trans (hlast.outer L), fun i hi => ?_⟩
  rw [hlast.view_eq, hv i hi, hpages.view_eq]
  simp [startView, pendingPages, restoreCopy0, Kernel.setProc]

/-- After a failed comparison the element begins as it did at first. -/
theorem UnderWay.restart {t : Trap} (h : UnderWay k p L k₂ .secondRun)
    (htask : hardeningTask (withContext k₂ p c) p t sameIns = some (k₃, .failed)) (hm : HmeInv k₃)
    (hstart : startDwc k₃ p = some k₀) : Started k p L k₀ := by
  have hin := h.inRun.withContext c
  have hpages := samePages_withContext k₂ p c
  obtain ⟨hinv₃, hout₃, -, hviews⟩ := hardeningTask_failed hin htask
  obtain ⟨hin₀, hout₀, hv⟩ := startDwc_again hinv₃ hm h.inRun.user (failed_flags hin htask) hstart
  have hout := (h.outer.trans (hpages.outer L)).trans hout₃
  refine ⟨hin₀, hout.trans hout₀, fun i hi => ⟨_, hv i hi, ?_⟩⟩
  have hback : (view k₃ p i).Begins (us0Data k i) := by
    obtain ⟨b, hcmp⟩ := cmp_eq (view k₂ p i)
    obtain hv₃ | hv₃ := hviews i hi
    all_goals rw [hv₃, hpages.view_eq]
    · exact .reset (h.both i hi) (h.us0 i hi)
    · rw [hcmp]
      exact .reset (h.both i hi) (h.us0 i hi)
  exact hback.eventIf _

theorem Start.spec (h : Start p L k k₀) (hc : Complete k p L) : Started k p L k₀ := by
  induction h with
  | new hr hstart =>
    obtain ⟨hnone, -⟩ | ⟨k', hstart', hb⟩ := startDwc_first hr
    · rw [hnone] at hstart
      cases hstart
    · rw [hstart] at hstart'
      obtain rfl := some.inj hstart'
      exact ⟨hb.inRun, hb.outer, fun i hi => ⟨_, hb.views i hi, hc.start hr hi⟩⟩
  | again _ hrun₁ hrun₂ htask hm hstart ih =>
    exact ((ih.run hc hrun₁).1.second hc hrun₂).restart htask hm hstart

theorem Under.spec (h : Under p L k k₁ step) (hc : Complete k p L) : UnderWay k p L k₁ step := by
  induction h with
  | first hstart hrun => exact ((hstart.spec hc).run hc hrun).1
  | second _ hrun ih => exact ih.second hc hrun

/-- What an element that is aborted leaves. -/
theorem Complete.abort (hc : Complete k p L) (hm : Holds k p L m) (h : UnderWay k p L k₁ step)
    (habort : abortPe (withContext k₁ p c) p = some k₂) : Complete k₂ p L ∧ Holds k₂ p L m := by
  obtain ⟨k', habort', -, hout', -, hviews⟩ := abortPe_view h.inRun c
  rw [habort] at habort'
  obtain rfl := some.inj habort'
  have hout := h.outer.trans hout'
  have hback (i) (hi : i ∈ L) := (hviews i hi).trans (reset_both (h.both i hi))
  refine ⟨⟨fun i hi => ?_, fun i hi => ?_, fun i hi => ?_, hc.shut hout.stays⟩,
    hout.stays.holds hm (fun i hi => ?_) fun _ _ _ => rfl⟩
  · rw [hback i hi]
    rfl
  · rw [hback i hi]
  · rw [hback i hi]
    exact .inl (.inl fun _ => ⟨rfl, rfl⟩)
  · rw [← hm.pages i hi, ← h.us0 i hi]
    exact congrArg View.c0 (hback i hi)

theorem userRun_shows {ops : List UserOp} : ∀ {k : Kernel} {m : PlainMemory} {rs : List UInt8},
    PeInv k p L → (∀ v, Outside k L v → k.canStore p v = false) →
    (∀ i ∈ L, (view k p i).Steady k.hStep) → Shows k p L m →
    userRun k p ops = some (k', rs) → Shows k' p L (plainRun m ops).1 := by
  induction ops with
  | nil =>
    intro k m rs _ _ _ hs hrun
    obtain ⟨rfl, -⟩ := Prod.mk.inj (some.inj hrun)
    exact hs
  | cons op ops ih =>
    intro k m rs h hclosed hsteady hs hrun
    unfold userRun at hrun
    split at hrun
    · cases hrun
    rename_i k₁ r hop
    split at hrun
    · cases hrun
    rename_i k₂ rs' hops
    obtain ⟨rfl, rfl⟩ := Prod.mk.inj (some.inj hrun)
    obtain ⟨-, hs₁, hsteady₁⟩ := perform_plain h hclosed hsteady hs hop
    have ha := perform_around h hclosed hop
    refine ih (perform_view h hop).1 (fun v hv => ?_) hsteady₁ hs₁ hops
    rw [ha.outside_iff] at hv
    rw [ha.canStore_eq hv]
    exact hclosed v hv

/-- An element whose runs are alike is committed. -/
theorem Complete.commit (hc : Complete k p L) (hstart : Start p L k k₀) (hm : Holds k p L m)
    (hrun₁ : userRun k₀ p ops = some (k₁, rs₁)) (hrun₂ : runSecond k₁ p t₁ ops = some (k₂, rs₂))
    (htask : hardeningTask (withContext k₂ p c) p t₂ sameIns = some (k₃, .committed)) :
    Complete k₃ p L ∧ Holds k₃ p L (plainRun m ops).1 ∧ rs₁ = (plainRun m ops).2 := by
  have hbegun := hstart.spec hc
  obtain ⟨hfirst, hv₁⟩ := hbegun.run hc hrun₁
  have hsecond := hfirst.second hc hrun₂
  have hpages := samePages_withContext k₂ p c
  obtain ⟨-, hout₃, hv₃⟩ := hardeningTask_committed (hsecond.inRun.withContext c) htask
  simp only [hpages.view_eq] at hv₃
  have hout := (hsecond.outer.trans (hpages.outer L)).trans hout₃
  obtain ⟨-, -, -, -, -, hv₂⟩ := runSecond_view hfirst.inRun hrun₂
  have hdone (i) (hi : i ∈ L) :
      (view k₃ p i).Still (applyStores (us0Data k i) (pageStores k i ops)) := by
    obtain ⟨u, hu, hb⟩ := hbegun.begins i hi
    have hstores₁ := hv₁ i hi
    have hstores₂ := hv₂ i hi
    rw [hu] at hstores₁
    rw [hfirst.outer.same.pageStores_eq] at hstores₂
    have hruns := lossless_runs hb.slot hb.noFault (fun hno => by simp [hb.write] at hno) hb.inStep
      (hb.lossless False) False.elim hstores₁ hstores₂
    rw [hb.us0] at hruns
    rw [(hv₃ i hi).2]
    exact hruns.2.2.2
  -- what the first run shows
  have hstill (i) (hi : i ∈ L) : (view k₀ p i).Still (us0Data k i) := by
    obtain ⟨u, hu, hb⟩ := hbegun.begins i hi
    have hstill := still_first hb.slot hb.inStep (hb.lossless False)
    rw [hb.us0] at hstill
    rw [hu]
    exact hstill
  have hshows : Shows k₀ p L m := by
    refine ⟨fun i hi => ?_, (hbegun.outer.stays.holds hm (fun i hi => ?_) fun _ _ _ => rfl).outside⟩
    · rw [hbegun.outer.same.vaddr, (hstill i hi).content, hm.pages i hi]
    · rw [← hm.pages i hi]
      exact (hstill i hi).us0
  have hsteady (i) (hi : i ∈ L) : (view k₀ p i).Steady k₀.hStep := (hstill i hi).steady
  have hclosed := hc.shut hbegun.outer.stays
  have hplain := userRun_shows hbegun.inRun.inv hclosed hsteady hshows hrun₁
  refine ⟨⟨fun i hi => ?_, fun i hi => ?_, fun i hi => .inl (.inl fun hboth => ?_),
      hc.shut hout.stays⟩, hout.stays.holds hm (fun i hi => ?_) fun v hv hpres => ?_,
    userRun_plain hbegun.inRun.inv hclosed hsteady hshows hrun₁⟩
  · rw [(hv₃ i hi).2, both_commit]
    exact hsecond.both i hi
  · rw [(hv₃ i hi).2]
    rfl
  · have hframes := (hdone i hi).frames hboth
    rw [← (hdone i hi).us0] at hframes
    exact hframes
  · rw [plainRun_page, ← hm.pages i hi]
    exact (hdone i hi).us0
  · have hpres₁ := hpres
    rw [← hfirst.outer.outPte v hv] at hpres₁
    rw [← hplain.outside v ((hfirst.outer.outside_iff v).mpr hv) hpres₁,
      hfirst.outer.outVisible v hv hpres, hm.outside v hv hpres]

/-- What a careful write of the kernel leaves. -/
theorem Complete.write {w : KernelWrite} (hc : Complete k p L) (hr : PeReady k p L)
    (hm : Holds k p L m) (hroom : w.HasRoom k p) (hcareful : Careful p L k w)
    (hrun : w.run k p = some k₁) :
    Complete k₁ p L ∧ Holds k₁ p L (plainRun m w.stores).1 := by
  have hfine := (hc.fine.write hr hroom hcareful hrun).2
  obtain ⟨k', hbytes, hrun⟩ := bind_eq_some_iff.mp hrun
  have huser : userRun k p w.stores = some (k', []) := userRun_stores hbytes
  have hst := storeBytes_stored hbytes
  obtain ⟨hready, hpages⟩ := stored_pages hr hbytes
  have ha := userRun_around hr.inv hc.closed huser
  have hshown {k} (h : PeReady k p L) (i) (hi : i ∈ L) : (view k p i).content = us0Data k i := by
    rw [content, h.mapsUs0 i hi]
    rfl
  have hplain := userRun_shows hr.inv hc.closed
    (fun i hi => steady_of_write (hc.writable i hi))
    ⟨fun i hi => (hshown hr i hi).trans (hm.pages i hi), hm.outside⟩ huser
  -- the event
  obtain ⟨hout, hview⟩ : Outer p L k' k₁ ∧ ∀ i, view k₁ p i = view k' p i := by
    split_ifs at hrun with hreg
    · have hsame := SamePages.of_eraseHmes p (eraseHmes_addHmeEvent hrun)
      exact ⟨hsame.outer L, hsame.view_eq⟩
    · cases hrun
      exact ⟨(Around.refl p L _).toOuter, fun _ => rfl⟩
  have hm' : Holds k' p L (plainRun m w.stores).1 :=
    ⟨fun i hi => (hshown hready i hi).symm.trans (hplain.pages i hi), hplain.outside⟩
  refine ⟨⟨fun i hi => ?_, fun i hi => ?_, hfine, hc.shut (ha.toOuter.trans hout).stays⟩,
    hout.stays.holds hm' (fun i hi => ?_) fun _ _ _ => rfl⟩
  · rw [hview i]
    simpa [View.both, view, viewOf, hst.blocks] using hc.both i hi
  · rw [hview i]
    obtain heq | ⟨-, hw⟩ := hpages i hi
    · rw [heq]
      exact hc.writable i hi
    · exact hw
  · rw [← hm'.pages i hi]
    exact congrArg View.c0 (hview i)

/-! ## Any number of elements -/

end HardenedMinix
