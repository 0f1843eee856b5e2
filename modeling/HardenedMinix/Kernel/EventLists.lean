import HardenedMinix.Kernel.RepresentationRun

/-!
# The event lists

What most requests read of the kernel is kept in `hmeView`; a request that leaves the view alone
leaves the event lists alone.
-/

open Function List Option

namespace HardenedMinix

open Lib Linked

variable {k k' : Kernel} {M : ProcNr → List (Fin hardeningMemEventsSize)} {p : ProcNr}

/-! ## The invariant -/

def hmeFirst (k : Kernel) (p : ProcNr) : Option (Fin hardeningMemEventsSize) :=
  if (k.procs p).inUse then (k.procs p).hardeningMemEvents else none

structure HmeOk (k : Kernel) (M : ProcNr → List (Fin hardeningMemEventsSize)) : Prop where
  owned : Owned k.hardeningMemEvents (hmeFirst k) M
  size : ∀ p, (k.procs p).inUse = true → (k.procs p).nbHardeningMemEvents = (M p).length

def HmeInv (k : Kernel) : Prop := ∃ M, HmeOk k M

namespace HmeOk

theorem dead (h : HmeOk k M) (hp : (k.procs p).inUse = false) : M p = [] := by
  have hc := h.owned.chain p
  simp only [hmeFirst, hp, Bool.false_eq_true, ↓reduceIte] at hc
  exact hc.nil_inv

theorem chain (h : HmeOk k M) (hp : (k.procs p).inUse = true) :
    Chain k.hardeningMemEvents (k.procs p).hardeningMemEvents (M p) := by
  have hc := h.owned.chain p
  simpa only [hmeFirst, hp, ↓reduceIte] using hc

end HmeOk

/-- The part of the kernel the event lists live in. -/
def hmeView (k : Kernel) :
    Table HardeningMemEvent hardeningMemEventsSize ×
      (ProcNr → Bool × Option (Fin hardeningMemEventsSize) × Nat) :=
  (k.hardeningMemEvents, fun p =>
    ((k.procs p).inUse, (k.procs p).hardeningMemEvents, (k.procs p).nbHardeningMemEvents))

theorem HmeOk.of_view (hview : hmeView k' = hmeView k) (h : HmeOk k M) : HmeOk k' M := by
  obtain ⟨ht, hprocs⟩ := Prod.mk.inj hview
  have hp : ∀ p, (k'.procs p).inUse = (k.procs p).inUse ∧
      (k'.procs p).hardeningMemEvents = (k.procs p).hardeningMemEvents ∧
      (k'.procs p).nbHardeningMemEvents = (k.procs p).nbHardeningMemEvents := by
    intro p
    have hpair := congrFun hprocs p
    simpa only [Prod.mk.injEq] using hpair
  refine ⟨?_, fun p hlive => ?_⟩
  · have hfirst : hmeFirst k' = hmeFirst k := by
      funext p
      simp only [hmeFirst, (hp p).1, (hp p).2.1]
    rw [hfirst, ht]
    exact h.owned
  · rw [(hp p).2.2]
    exact h.size p (by rw [← (hp p).1]; exact hlive)

theorem HmeInv.of_view (hview : hmeView k' = hmeView k) : HmeInv k → HmeInv k' :=
  fun ⟨M, h⟩ => ⟨M, h.of_view hview⟩

/-! ## Requests that leave the view alone -/

theorem hmeView_setProc (k : Kernel) (p : ProcNr) {x : Proc} (hu : x.inUse = (k.procs p).inUse)
    (hf : x.hardeningMemEvents = (k.procs p).hardeningMemEvents)
    (hn : x.nbHardeningMemEvents = (k.procs p).nbHardeningMemEvents) :
    hmeView (k.setProc p x) = hmeView k := by
  unfold hmeView Kernel.setProc
  refine Prod.mk.injEq _ _ _ _ ▸ ⟨rfl, ?_⟩
  funext q
  by_cases hq : q = p
  · subst hq
    simp [hu, hf, hn]
  · simp [hq]

@[simp] theorem hmeView_setPte (k : Kernel) (p : ProcNr) (v : VirBytes) (e : Pte) :
    hmeView (k.setPte p v e) = hmeView k :=
  hmeView_setProc k p rfl rfl rfl

@[simp] theorem hmeView_setPmb (k : Kernel) (i : Fin workingSetSize) (b : PramMemBlock) :
    hmeView (k.setPmb i b) = hmeView k := rfl

@[simp] theorem hmeView_cpyFrames (k : Kernel) (f g : Frame) :
    hmeView (k.cpyFrames f g) = hmeView k := rfl

@[simp] theorem hmeView_setWs (k : Kernel) (t : Table PramMemBlock workingSetSize) (p : ProcNr)
    (first : Option (Fin workingSetSize)) (size : Nat) :
    hmeView (k.setWs t p first size) = hmeView k := by
  unfold hmeView Kernel.setWs
  refine Prod.mk.injEq _ _ _ _ ▸ ⟨rfl, ?_⟩
  funext q
  by_cases hq : q = p
  · subst hq
    simp
  · simp [hq]

theorem hmeView_of_eraseShared (h : eraseShared k' = eraseShared k) : hmeView k' = hmeView k := by
  have hview := congrArg hmeView h
  exact hview

@[simp] theorem hmeView_freePramMemBlock (k : Kernel) (p : ProcNr) (v : VirBytes) :
    hmeView (freePramMemBlock k p v) = hmeView k := by
  unfold freePramMemBlock
  split
  · rfl
  · split
    · rfl
    · exact hmeView_setWs _ _ _ _ _

theorem hmeView_freePramMemBlocks {fromExec : Bool}
    (hrun : freePramMemBlocks k p fromExec = some k') : hmeView k' = hmeView k := by
  unfold freePramMemBlocks at hrun
  split at hrun
  · rw [← some.inj hrun]
  split at hrun
  · simp at hrun
  rename_i k1 hloop
  have h1 := whileNext_rel (R := fun k1 k2 : Kernel => hmeView k2 = hmeView k1)
    (fun _ => rfl) (fun _ _ _ h1 h2 => h2.trans h1)
    (fun k1 i k2 hbody => by
      split at hbody <;> rw [← some.inj hbody]
      exact hmeView_freePramMemBlock _ _ _) hloop
  split at hrun
  · rw [← some.inj hrun]
    exact h1
  · simp at hrun

theorem hmeView_freePramMemBlockVaddr (k : Kernel) (p : ProcNr) (raddr len : Nat) :
    hmeView (freePramMemBlockVaddr k p raddr len) = hmeView k := by
  unfold freePramMemBlockVaddr
  split
  · rfl
  refine foldl_inv (I := fun k1 => hmeView k1 = hmeView k) (fun v _ k1 h1 => ?_) rfl
  unfold freePage
  split
  · exact h1
  · rw [hmeView_freePramMemBlock, h1]

variable {v : VirBytes} {i : Fin hardeningMemEventsSize} {offset : Nat}

theorem hmeView_addPageToWs {us1 us2 : Option Frame}
    (hrun : addPageToWs p us1 us2 k v = some k') : hmeView k' = hmeView k := by
  unfold addPageToWs at hrun
  simp only at hrun
  split at hrun
  · simp at hrun
  rename_i k1 i hblock
  have h1 : hmeView k1 = hmeView k := by
    split at hblock
    · unfold addPmbVaddr at hblock
      split at hblock
      · simp at hblock
      simp only at hblock
      split at hblock
      · simp at hblock
      · rw [← (Prod.mk.inj (some.inj hblock)).1]
        exact hmeView_setWs _ _ _ _ _
    · rw [← (Prod.mk.inj (some.inj hblock)).1]
      rfl
  rw [← some.inj hrun, hmeView_setPmb, h1]

theorem hmeView_setForkLabel (hrun : setForkLabel k p = some k') : hmeView k' = hmeView k := by
  unfold setForkLabel at hrun
  split at hrun
  · rw [← some.inj hrun]
  · exact whileNext_rel (R := fun k1 k2 : Kernel => hmeView k2 = hmeView k1)
      (fun _ => rfl) (fun _ _ _ h1 h2 => h2.trans h1)
      (fun k1 i k2 hbody => by rw [← some.inj hbody]; rfl) hrun

theorem hmeView_updateWsUs1Us2DataVaddr
    (hrun : updateWsUs1Us2DataVaddr p k v = some k') : hmeView k' = hmeView k := by
  unfold updateWsUs1Us2DataVaddr at hrun
  split at hrun
  · simp at hrun
  simp only at hrun
  split at hrun
  · rw [← some.inj hrun]
  · split at hrun <;> rw [← some.inj hrun]
    rfl

theorem hmeView_updateRange {pages : List VirBytes}
    (hrun : pages.foldlM (updateWsUs1Us2DataVaddr p) k = some k') : hmeView k' = hmeView k :=
  foldlM_inv (I := fun k2 => hmeView k2 = hmeView k)
    (fun _ _ _ _ h2 hv => (hmeView_updateWsUs1Us2DataVaddr hv).trans h2) rfl hrun

theorem hmeView_handleHmeEvents (hrun : handleHmeEvents k p = some k') :
    hmeView k' = hmeView k := by
  unfold handleHmeEvents at hrun
  split at hrun
  · rw [← some.inj hrun]
  · exact whileNext_rel (R := fun k1 k2 : Kernel => hmeView k2 = hmeView k1)
      (fun _ => rfl) (fun _ _ _ h1 h2 => h2.trans h1)
      (fun k1 i k2 hbody => hmeView_updateRange hbody) hrun

theorem hmeView_setPmbToRo {i : Fin workingSetSize} (hrun : setPmbToRo p k i = some k') :
    hmeView k' = hmeView k := by
  unfold setPmbToRo at hrun
  simp only at hrun
  split at hrun
  · rw [← some.inj hrun]
  split at hrun
  · simp at hrun
  rename_i k1 hup
  have h1 : hmeView k1 = hmeView k := by
    have hmark : hmeView (markShared k p i) = hmeView k := by
      unfold markShared
      simp only
      split <;> rfl
    rw [← hmark]
    unfold updatePrivate at hup
    simp only at hup
    split at hup
    · split at hup
      · simp at hup
      · rw [← some.inj hup]
        rfl
    · rw [← some.inj hup]
  split at hrun
  · rw [← some.inj hrun, hmeView_freePramMemBlock, h1]
  · rw [← some.inj hrun, hmeView_setPte, h1]

theorem hmeView_checkVaddr2 {r : PfResult}
    (hrun : checkVaddr2 k p v = some (k', r)) : hmeView k' = hmeView k := by
  have hrec : hmeView (k.recordFault v) = hmeView k := by
    unfold Kernel.recordFault
    split <;> rfl
  rw [← hrec]
  unfold checkVaddr2 at hrun
  simp only at hrun
  split at hrun
  · rw [← (Prod.mk.inj (some.inj hrun)).1]
  split at hrun
  · rw [← (Prod.mk.inj (some.inj hrun)).1]
  unfold faultPmb at hrun
  simp only at hrun
  split at hrun
  · split at hrun
    · rw [← (Prod.mk.inj (some.inj hrun)).1]
    · rw [← (Prod.mk.inj (some.inj hrun)).1, hmeView_setPmb, hmeView_setPte]
  · split at hrun
    · rw [← (Prod.mk.inj (some.inj hrun)).1, hmeView_setPmb]
    · simp at hrun

theorem hmeView_vmHpagefault (hrun : vmHpagefault k p = some k') : hmeView k' = hmeView k := by
  unfold vmHpagefault at hrun
  split at hrun
  · rw [← some.inj hrun, hmeView_setPte, hmeView_setPmb, hmeView_cpyFrames]
    rfl
  · simp at hrun

@[simp] theorem hmeView_cpyTo (k : Kernel) (f : Frame) (g : Option Frame) :
    hmeView (k.cpyTo f g) = hmeView k := by
  unfold Kernel.cpyTo
  split <;> rfl

theorem hmeView_resetPmb (p : ProcNr) (k : Kernel) (i : Fin workingSetSize) :
    hmeView (resetPmb p k i) = hmeView k := by
  unfold resetPmb
  simp only
  split
  · rfl
  · split
    · rfl
    · rw [hmeView_setPte, hmeView_cpyTo, hmeView_cpyTo, hmeView_setPmb]

theorem hmeView_endFirstPmb (p : ProcNr) (k : Kernel) (i : Fin workingSetSize) :
    hmeView (endFirstPmb p k i) = hmeView k := by
  unfold endFirstPmb
  simp only
  split
  · rw [hmeView_setPmb, hmeView_setPte]
  · rfl

theorem hmeView_cmpMem {b : Bool} (hrun : cmpMem k p = some (k', b)) : hmeView k' = hmeView k := by
  unfold cmpMem at hrun
  split at hrun
  · rw [← (Prod.mk.inj (some.inj hrun)).1]
  refine whileNext_rel (R := fun s s' : Kernel × Bool => hmeView s'.1 = hmeView s.1)
    (fun _ => rfl) (fun _ _ _ h1 h2 => h2.trans h1) (fun s i s' hbody => ?_) hrun
  unfold cmpPmb at hbody
  simp only at hbody
  split at hbody
  · rw [← some.inj hbody]
  split at hbody
  · split at hbody
    · rw [← some.inj hbody]
    · split at hbody <;> rw [← some.inj hbody]
      exact hmeView_setPmb _ _ _
  · rw [← some.inj hbody]

/-! ## Recording an event -/

theorem inUse_setHmes (k : Kernel) (t : Table HardeningMemEvent hardeningMemEventsSize)
    (p q : ProcNr) (first : Option (Fin hardeningMemEventsSize)) (nb : Nat) :
    ((k.setHmes t p first nb).procs q).inUse = (k.procs q).inUse := by
  by_cases hq : q = p
  · subst hq
    simp [Kernel.setHmes]
  · simp [Kernel.setHmes, hq]

theorem setHmes_hmeOk (h : HmeOk k M) (hp : (k.procs p).inUse = true)
    {t : Table HardeningMemEvent hardeningMemEventsSize}
    {first : Option (Fin hardeningMemEventsSize)} {l : List (Fin hardeningMemEventsSize)}
    {nb : Nat} (ho : Owned t (update (hmeFirst k) p first) (update M p l))
    (hnb : nb = l.length) : HmeOk (k.setHmes t p first nb) (update M p l) where
  owned := by
    have hfirst : hmeFirst (k.setHmes t p first nb) = update (hmeFirst k) p first := by
      funext q
      by_cases hq : q = p
      · subst hq
        simp [hmeFirst, Kernel.setHmes, hp]
      · simp [hmeFirst, Kernel.setHmes, hq]
    rw [hfirst]
    exact ho
  size q hq := by
    by_cases hqp : q = p
    · subst hqp
      simp [Kernel.setHmes, hnb]
    · simp only [Kernel.setHmes, update_of_ne hqp] at hq ⊢
      exact h.size q hq

theorem lookUpHme_some (h : HmeOk k M) (hp : (k.procs p).inUse = true) (hl : lookUpHme k p v = some i) :
    i ∈ M p ∧ pageOf (k.hardeningMemEvents i).addrBase = pageOf v := by
  unfold lookUpHme at hl
  split_ifs at hl
  rw [search_eq_of_chain (h.chain hp)] at hl
  have hpage := List.find?_some hl
  exact ⟨mem_of_find?_eq_some hl, samePage_iff.mp hpage⟩

theorem lookUpHme_eq_none_iff (h : HmeOk k M) (hp : (k.procs p).inUse = true) :
    lookUpHme k p v = none ↔ ∀ i ∈ M p, pageOf (k.hardeningMemEvents i).addrBase ≠ pageOf v := by
  unfold lookUpHme
  split
  · have hnil : M p = [] := length_eq_zero_iff.mp (by rw [← h.size p hp]; omega)
    simp [hnil]
  · rw [search_eq_of_chain (h.chain hp), List.find?_eq_none]
    simp only [samePage_iff, ne_eq]

/-- The entry `add_hme_event` makes of a slot, but for its link and number. -/
def newHme (e : HardeningMemEvent) (offset size : Nat) : HardeningMemEvent :=
  { hmePool.reset e with
    addrBase := offset, nbytes := size, npages := nPagesCovered offset size }

theorem addHmeEvent_new (h : HmeOk k M) (hp : (k.procs p).inUse = true)
    (hl : lookUpHme k p offset = none) (hroom : ∃ j, ∀ q, j ∉ M q) (size : Nat) :
    ∃ t first i, addHmeEvent k p offset size =
        some (k.setHmes t p first ((k.procs p).nbHardeningMemEvents + 1)) ∧
      HmeOk (k.setHmes t p first ((k.procs p).nbHardeningMemEvents + 1))
        (update M p (M p ++ [i])) ∧
      (∀ q, i ∉ M q) ∧
      (∀ j, j ≠ i → ∃ x, t j = setNext (k.hardeningMemEvents j) x) ∧
      ∃ x id, t i = { setNext (newHme (k.hardeningMemEvents i) offset size) x with id := id } := by
  obtain ⟨i, hget, hi⟩ := h.owned.getSlot_unlisted hmePool hroom
  have hlen := h.size p hp
  obtain ⟨t, first, hins, ho, hset⟩ := h.owned.insert (o := p) (i := i)
    (a := newHme (k.hardeningMemEvents i) offset size) hi rfl rfl
  have hfirst : hmeFirst k p = (k.procs p).hardeningMemEvents := by simp [hmeFirst, hp]
  rw [hfirst, ← hlen] at hins
  obtain ⟨x, hx⟩ := hset i
  rw [update_self] at hx
  have htj : ∀ j, j ≠ i → ∃ x, t j = setNext (k.hardeningMemEvents j) x := by
    intro j hj
    obtain ⟨y, hy⟩ := hset j
    exact ⟨y, by simpa [hj] using hy⟩
  have ho' := ho.update (i := i) (a := { t i with id := (k.procs p).nbHardeningMemEvents }) rfl rfl
  refine ⟨update t i { t i with id := (k.procs p).nbHardeningMemEvents }, first, i, ?_,
    setHmes_hmeOk h hp ho' (by simp [hlen]), hi, ?_, x, (k.procs p).nbHardeningMemEvents, ?_⟩
  · simp only [addHmeEvent, hl, getHme, hget]
    simp only [update_self, update_idem]
    rw [show (update k.hardeningMemEvents i
      { hmePool.reset (k.hardeningMemEvents i) with
        addrBase := offset, nbytes := size, npages := nPagesCovered offset size }) =
      update k.hardeningMemEvents i (newHme (k.hardeningMemEvents i) offset size)
      from rfl, hins]
  · intro j hj
    rw [update_of_ne hj]
    exact htj j hj
  · rw [update_self, hx]

theorem addHmeEvent_found (size : Nat) (hl : lookUpHme k p offset = some i) :
    ∃ e, addHmeEvent k p offset size =
        some { k with hardeningMemEvents := update k.hardeningMemEvents i e } ∧
      ((nPagesCovered offset size ≤ (k.hardeningMemEvents i).npages ∧ e = k.hardeningMemEvents i) ∨
        ((k.hardeningMemEvents i).npages < nPagesCovered offset size ∧
          e = { k.hardeningMemEvents i with
            addrBase := offset, nbytes := size, npages := nPagesCovered offset size })) := by
  by_cases hlt : (k.hardeningMemEvents i).npages < nPagesCovered offset size
  · refine ⟨_, ?_, .inr ⟨hlt, rfl⟩⟩
    simp only [addHmeEvent, hl, hlt, ↓reduceIte]
  · refine ⟨_, ?_, .inl ⟨Nat.le_of_not_lt hlt, rfl⟩⟩
    simp only [addHmeEvent, hl, hlt, ↓reduceIte, update_eq_self]

/-- The events on the lists of live processes, as the counters have it. -/
def totalEvents (k : Kernel) : Nat :=
  ∑ p, if (k.procs p).inUse then (k.procs p).nbHardeningMemEvents else 0

theorem HmeOk.totalEvents_eq (h : HmeOk k M) : totalEvents k = ∑ p, (M p).length := by
  refine Finset.sum_congr rfl (fun p _ => ?_)
  cases hp : (k.procs p).inUse with
  | true => simp [h.size p hp]
  | false => simp [h.dead hp]

/-- The events there are, with the one the page of `v` still lacks. -/
def eventsWith (k : Kernel) (p : ProcNr) (v : VirBytes) : Nat :=
  totalEvents k + if lookUpHme k p v = none then 1 else 0

/-- As long as a slot is left for a page without an event, the page has one afterwards, and no page
has lost its own. -/
theorem addHmeEvent_spec (h : HmeInv k) (hp : (k.procs p).inUse = true)
    (hroom : eventsWith k p offset ≤ hardeningMemEventsSize) (size : Nat) :
    ∃ k', addHmeEvent k p offset size = some k' ∧ HmeInv k' ∧ (k'.procs p).inUse = true ∧
      eventsWith k' p offset = eventsWith k p offset ∧
      ∀ w, lookUpHme k' p w = none → lookUpHme k p w = none := by
  obtain ⟨M, h⟩ := h
  unfold eventsWith at hroom ⊢
  cases hl : lookUpHme k p offset with
  | none =>
    have hlt : totalEvents k < hardeningMemEventsSize := by
      rw [hl] at hroom
      simp only [↓reduceIte] at hroom
      omega
    have hex : ∃ j, ∀ q, j ∉ M q := Owned.exists_unlisted (by rw [← h.totalEvents_eq]; exact hlt)
    obtain ⟨t, first, i, hadd, h', hi, htj, x, id, hti⟩ := addHmeEvent_new h hp hl hex size
    have hp' : ((k.setHmes t p first ((k.procs p).nbHardeningMemEvents + 1)).procs p).inUse =
        true := by
      rw [inUse_setHmes]
      exact hp
    have hfound : lookUpHme (k.setHmes t p first ((k.procs p).nbHardeningMemEvents + 1)) p offset ≠
        none := by
      rw [ne_eq, lookUpHme_eq_none_iff h' hp']
      intro hnot
      refine hnot i (by simp) ?_
      simp only [Kernel.setHmes, hti]
      rfl
    refine ⟨_, hadd, ⟨_, h'⟩, hp', ?_, fun w hw => ?_⟩
    · have hsum := Owned.sum_length_update M p (M p ++ [i])
      simp only [length_append, length_singleton] at hsum
      rw [if_neg hfound, if_pos rfl, h'.totalEvents_eq, h.totalEvents_eq]
      omega
    rw [lookUpHme_eq_none_iff h' hp'] at hw
    rw [lookUpHme_eq_none_iff h hp]
    intro j hj
    have hji : j ≠ i := fun heq => hi p (heq ▸ hj)
    obtain ⟨y, hy⟩ := htj j hji
    have hpage := hw j (by simp [hj])
    simp only [Kernel.setHmes, hy] at hpage
    exact hpage
  | some i =>
    obtain ⟨hi, hiv⟩ := lookUpHme_some h hp hl
    obtain ⟨e, hadd, hcases⟩ := addHmeEvent_found size hl
    have hsame : e.nextHme = (k.hardeningMemEvents i).nextHme ∧
        e.slotFree = (k.hardeningMemEvents i).slotFree ∧
        pageOf e.addrBase = pageOf (k.hardeningMemEvents i).addrBase := by
      rcases hcases with ⟨-, rfl⟩ | ⟨-, rfl⟩
      · exact ⟨rfl, rfl, rfl⟩
      · exact ⟨rfl, rfl, hiv.symm⟩
    have h' : HmeOk { k with hardeningMemEvents := update k.hardeningMemEvents i e } M :=
      ⟨h.owned.update hsame.1 hsame.2.1, h.size⟩
    have hpages : ∀ j, pageOf (update k.hardeningMemEvents i e j).addrBase =
        pageOf (k.hardeningMemEvents j).addrBase := by
      intro j
      by_cases hj : j = i
      · rw [hj, update_self, hsame.2.2]
      · rw [update_of_ne hj]
    have hlook : ∀ w, lookUpHme
        { k with hardeningMemEvents := update k.hardeningMemEvents i e } p w = none ↔
        lookUpHme k p w = none := by
      intro w
      rw [lookUpHme_eq_none_iff h' hp, lookUpHme_eq_none_iff h hp]
      simp only [hpages]
    refine ⟨_, hadd, ⟨M, h'⟩, hp, ?_, fun w => (hlook w).mp⟩
    have hfound : lookUpHme
        { k with hardeningMemEvents := update k.hardeningMemEvents i e } p offset ≠ none :=
      fun hnone => by
        rw [(hlook offset).mp hnone] at hl
        exact absurd hl (by simp)
    rw [if_neg hfound, if_neg (some_ne_none i)]
    rfl

/-! ## Freeing the events -/

theorem freeHardeningMemEvent_head (h : HmeOk k M) (hp : (k.procs p).inUse = true) {rest : List (Fin hardeningMemEventsSize)}
    (hl : M p = i :: rest) :
    HmeOk (freeHardeningMemEvent k p (k.hardeningMemEvents i).id) (update M p rest) ∧
      (freeHardeningMemEvent k p (k.hardeningMemEvents i).id).hardeningMemEvents i =
        hmePool.clear (k.hardeningMemEvents i) ∧
      ∀ j, j ≠ i → ∃ x, (freeHardeningMemEvent k p
        (k.hardeningMemEvents i).id).hardeningMemEvents j = setNext (k.hardeningMemEvents j) x := by
  have hlen := h.size p hp
  rw [hl, length_cons] at hlen
  have hl' : M p = [] ++ i :: rest := hl
  obtain ⟨t, first, hun, ho, hti, hset⟩ := h.owned.unlink_first (o := p) (i := i)
    (fun e => e.id == (k.hardeningMemEvents i).id) hmePool.clear hl' (by simp) (by simp) (fun _ => rfl) (fun _ => rfl)
  have hfirst : hmeFirst k p = (k.procs p).hardeningMemEvents := by simp [hmeFirst, hp]
  rw [hfirst] at hun
  have hpos : ¬ (k.procs p).nbHardeningMemEvents ≤ 0 := by omega
  have heq : freeHardeningMemEvent k p (k.hardeningMemEvents i).id =
      k.setHmes t p first ((k.procs p).nbHardeningMemEvents - 1) := by
    simp only [freeHardeningMemEvent, hpos, ↓reduceIte, hun]
  rw [heq]
  exact ⟨setHmes_hmeOk (l := rest) h hp ho (by omega), hti, hset⟩

theorem inUse_freeHardeningMemEvent (k : Kernel) (p q : ProcNr) (id : Nat) :
    ((freeHardeningMemEvent k p id).procs q).inUse = (k.procs q).inUse := by
  unfold freeHardeningMemEvent
  split
  · rfl
  · split
    · rfl
    · exact inUse_setHmes _ _ _ _ _ _

theorem freeHardeningMemEvents_spec (h : HmeOk k M) (hp : (k.procs p).inUse = true) :
    ∃ k', freeHardeningMemEvents k p = some k' ∧ HmeOk k' (update M p []) := by
  have hlen := h.size p hp
  unfold freeHardeningMemEvents
  split
  · have hnil : M p = [] := length_eq_zero_iff.mp (by omega)
    refine ⟨k, rfl, ?_⟩
    rw [← hnil, update_eq_self]
    exact h
  have hfirst := (h.chain hp).start_eq_head?
  rw [hfirst]
  -- the list of the process is what is left to visit
  obtain ⟨k', hloop, h', hp'⟩ := whileNext_total Kernel.nextHme
    (fun k i => some (freeHardeningMemEvent k p (k.hardeningMemEvents i).id))
    (P := fun rest k1 => HmeOk k1 (update M p rest) ∧ (k1.procs p).inUse = true)
    (fun i rest k1 ⟨h1, hp1⟩ => by
      have hl : update M p (i :: rest) p = i :: rest := update_self _ _ _
      obtain ⟨h2, hclear, -⟩ := freeHardeningMemEvent_head h1 hp1 hl
      rw [update_idem] at h2
      refine ⟨_, rfl, ⟨h2, by rw [inUse_freeHardeningMemEvent]; exact hp1⟩, ?_⟩
      have hnext := h1.owned.next_eq (o := p) [] hl
      rw [Kernel.nextHme, hclear]
      exact hnext)
    (l := M p) (s := k)
    ⟨by rw [update_eq_self]; exact h, hp⟩ (h.chain hp).length_le
  rw [hloop]
  have hnb := h'.size p hp'
  have hc := h'.chain hp'
  rw [update_self] at hnb hc
  refine ⟨k', ?_, h'⟩
  simp [hnb, hc.eq_none_of_nil]

end HardenedMinix
