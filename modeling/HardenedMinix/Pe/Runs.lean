import HardenedMinix.Pe.Steps

/-!
# Loops and runs over the working set

A loop over the working set does the same to every page. A run of user code does to each
page the stores it makes there.
-/

open List Option

namespace HardenedMinix

open Lib Linked Kernel View

variable {k k' k'' : Kernel} {p : ProcNr} {i j : Fin workingSetSize}
  {L : List (Fin workingSetSize)}

/-- No block of `L` is for the page of `v`. -/
def Outside (k : Kernel) (L : List (Fin workingSetSize)) (v : VirBytes) : Prop :=
  ∀ i ∈ L, pageOf (k.workingSet i).vaddr ≠ pageOf v

/-- Nothing happens outside the pages of `L`. -/
structure Outer (p : ProcNr) (L : List (Fin workingSetSize)) (k k' : Kernel) : Prop where
  same : WsSame k k'
  pdes : ∀ v, k'.getPde p v = k.getPde p v
  freeMem : k'.freeMem <:+ k.freeMem
  outPte : ∀ v, Outside k L v → k'.getPte p v = k.getPte p v
  outVisible : ∀ v, Outside k L v → (k.getPte p v).present = true →
    visible k' p v = visible k p v

namespace Outer

theorem outside_iff (h : Outer p L k k') (v : VirBytes) : Outside k' L v ↔ Outside k L v := by
  simp only [Outside, h.same.vaddr]

theorem trans (h : Outer p L k k') (h' : Outer p L k' k'') : Outer p L k k'' where
  same := h.same.trans h'.same
  pdes v := (h'.pdes v).trans (h.pdes v)
  freeMem := h'.freeMem.trans h.freeMem
  outPte _ hv := (h'.outPte _ ((h.outside_iff _).mpr hv)).trans (h.outPte _ hv)
  outVisible v hv hpres :=
    (h'.outVisible v ((h.outside_iff v).mpr hv) (by rw [h.outPte v hv]; exact hpres)).trans
      (h.outVisible v hv hpres)

theorem canStore_eq (h : Outer p L k k') {v : VirBytes} (hv : Outside k L v) :
    k'.canStore p v = k.canStore p v := by
  simp [canStore, canLoad, h.pdes, h.outPte v hv]

end Outer

/-- What the hardening code does not change when it works on the pages of `L`. -/
structure Around (p : ProcNr) (L : List (Fin workingSetSize)) (k k' : Kernel) : Prop
    extends Outer p L k k' where
  rest : restOf p k' = restOf p k

namespace Around

theorem refl (p : ProcNr) (L : List (Fin workingSetSize)) (k : Kernel) : Around p L k k :=
  ⟨⟨WsSame.refl k, fun _ => rfl, suffix_refl _, fun _ _ => rfl, fun _ _ _ => rfl⟩, rfl⟩

theorem outside_iff (h : Around p L k k') (v : VirBytes) : Outside k' L v ↔ Outside k L v :=
  h.toOuter.outside_iff v

theorem trans (h : Around p L k k') (h' : Around p L k' k'') : Around p L k k'' :=
  ⟨h.toOuter.trans h'.toOuter, h'.rest.trans h.rest⟩

theorem hStep_eq (h : Around p L k k') : k'.hStep = k.hStep := by
  have := congrArg Rest.hStep h.rest
  exact this

end Around

theorem PageStep.around (hs : PageStep p i k k') (h : PeInv k p L) (hi : i ∈ L) : Around p L k k' :=
  ⟨⟨hs.same, hs.pdes, hs.freeMem, fun v hv => hs.ptes v (Ne.symm (hv i hi)),
    fun _ hv hpres => hs.visible_eq h hi (Ne.symm (hv i hi)) hpres⟩, hs.rest⟩

/-! ## Loops -/

/-- Where a loop over `L` stands: the pages behind it are done. -/
structure LoopAt (p : ProcNr) (L : List (Fin workingSetSize)) (f : View → View) (k : Kernel)
    (rest : List (Fin workingSetSize)) (k₁ : Kernel) : Prop where
  inv : PeInv k₁ p L
  around : Around p L k k₁
  split : ∃ done, L = done ++ rest ∧ ∀ i ∈ done, view k₁ p i = f (view k p i)
  todo : ∀ i ∈ rest, view k₁ p i = view k p i

theorem LoopAt.start (h : PeInv k p L) (f : View → View) : LoopAt p L f k L k :=
  ⟨h, Around.refl p L k, ⟨[], rfl, by simp⟩, fun _ _ => rfl⟩

variable {f : View → View}

theorem LoopAt.turn {rest : List (Fin workingSetSize)} {k₁ k₂ : Kernel}
    (hl : LoopAt p L f k (i :: rest) k₁) (hto : PageTo p i f k₁ k₂) :
    LoopAt p L f k rest k₂ ∧ k₂.nextPmb i = rest.head? := by
  obtain ⟨done, hL, hdone⟩ := hl.split
  have hi : i ∈ L := by rw [hL]; simp
  have hnd := hl.inv.nodup
  rw [hL, nodup_append] at hnd
  have hinv := hto.step.peInv hl.inv hi
  have hother : ∀ j ∈ L, j ≠ i → view k₂ p j = view k₁ p j := fun j hj hne =>
    hto.step.view_eq hl.inv hi hj hne
  refine ⟨⟨hinv, hl.around.trans (hto.step.around hl.inv hi), ⟨done ++ [i], by simp [hL], ?_⟩, ?_⟩, ?_⟩
  · intro j hj
    rcases mem_append.mp hj with hj | hj
    · have hne : j ≠ i := hnd.2.2 j hj i mem_cons_self
      rw [hother j (by rw [hL]; simp [hj]) hne, hdone j hj]
    · rw [mem_singleton.mp hj, hto.view, hl.todo i mem_cons_self]
  · intro j hj
    have hne : j ≠ i := by
      rintro rfl
      exact (nodup_cons.mp hnd.2.1).1 hj
    rw [hother j (by rw [hL]; simp [hj]) hne, hl.todo j (mem_cons_of_mem i hj)]
  · obtain ⟨A, hws, hA⟩ := hinv.lists
    exact hws.owned.next_eq (o := p) _ (hA.trans hL)

theorem LoopAt.done {k₁ : Kernel} (hl : LoopAt p L f k [] k₁) :
    PeInv k₁ p L ∧ Around p L k k₁ ∧ ∀ i ∈ L, view k₁ p i = f (view k p i) := by
  obtain ⟨done, hL, hdone⟩ := hl.split
  rw [append_nil] at hL
  exact ⟨hl.inv, hl.around, hL ▸ hdone⟩

theorem forPmbs_view {body : Kernel → Fin workingSetSize → Option Kernel} (h : PeInv k p L)
    (hbody : ∀ k₁ i k₂, PeInv k₁ p L → Around p L k k₁ → i ∈ L → body k₁ i = some k₂ →
      PageTo p i f k₁ k₂)
    (hrun : k.forPmbs p body = some k') :
    PeInv k' p L ∧ Around p L k k' ∧ ∀ i ∈ L, view k' p i = f (view k p i) := by
  unfold forPmbs at hrun
  rw [h.chain.start_eq_head?] at hrun
  refine LoopAt.done (whileNext_inv (P := LoopAt p L f k) (fun i rest k₁ k₂ hl hb => ?_)
    (LoopAt.start h f) hrun)
  obtain ⟨done, hL, -⟩ := hl.split
  exact hl.turn (hbody k₁ i k₂ hl.inv hl.around (by rw [hL]; simp) hb)

theorem forPmbs_view_total {body : Kernel → Fin workingSetSize → Option Kernel} (h : PeInv k p L)
    (hbody : ∀ k₁ i, PeInv k₁ p L → Around p L k k₁ → i ∈ L → view k₁ p i = view k p i →
      ∃ k₂, body k₁ i = some k₂ ∧ PageTo p i f k₁ k₂) :
    ∃ k', k.forPmbs p body = some k' ∧ PeInv k' p L ∧ Around p L k k' ∧
      ∀ i ∈ L, view k' p i = f (view k p i) := by
  unfold forPmbs
  rw [h.chain.start_eq_head?]
  obtain ⟨k', hrun, hl⟩ := whileNext_total nextPmb body
    (P := LoopAt p L f k) (fun i rest k₁ hl => by
      obtain ⟨done, hL, -⟩ := hl.split
      obtain ⟨k₂, hb, hto⟩ := hbody k₁ i hl.inv hl.around (by rw [hL]; simp)
        (hl.todo i mem_cons_self)
      exact ⟨k₂, hb, hl.turn hto⟩) (LoopAt.start h f) h.chain.length_le
  exact ⟨k', hrun, hl.done⟩

/-! ## Start of a run -/

def eventPages (e : HardeningMemEvent) : List VirBytes :=
  (List.range e.npages).map (fun i => (pageBase e.addrBase + i * 4096) % 2 ^ 32)

def pendingPages (k : Kernel) (p : ProcNr) : List VirBytes :=
  (follow k.hardeningMemEvents hardeningMemEventsSize (k.procs p).hardeningMemEvents).flatMap
    (fun e => eventPages (k.hardeningMemEvents e))

def onPages (pages : List VirBytes) (v : VirBytes) : Bool :=
  pages.any (fun w => pageOf w == pageOf v)

theorem foldlM_event_view (pages : List VirBytes) : ∀ {k : Kernel}, PeInv k p L →
    (∀ w ∈ pages, ¬ Outside k L w) →
    ∃ k', pages.foldlM (updateWsUs1Us2DataVaddr p) k = some k' ∧ PeInv k' p L ∧ Around p L k k' ∧
      ∀ i ∈ L, view k' p i = (view k p i).eventIf (onPages pages (k.workingSet i).vaddr) := by
  induction pages with
  | nil => exact fun {k} h _ => ⟨k, rfl, h, Around.refl p L k, fun i _ => rfl⟩
  | cons w pages ih =>
    intro k h hin
    have hw := hin w mem_cons_self
    unfold Outside at hw
    push Not at hw
    obtain ⟨i, hi, hiw⟩ := hw
    obtain ⟨k1, hrun1⟩ : ∃ k1, updateWsUs1Us2DataVaddr p k w = some k1 := by
      unfold updateWsUs1Us2DataVaddr
      rw [h.lookUpPte_eq hi hiw]
      simp only
      split
      · exact ⟨k, rfl⟩
      · split
        · exact ⟨_, rfl⟩
        · exact ⟨k, rfl⟩
    have hto := updateWsUs1Us2DataVaddr_view h hi hiw hrun1
    have haround := hto.step.around h hi
    obtain ⟨k', hrun, hinv, haround', hviews⟩ := ih (hto.step.peInv h hi)
      (fun u hu => by rw [haround.outside_iff]; exact hin u (mem_cons_of_mem w hu))
    refine ⟨k', by simp [foldlM_cons, hrun1, hrun], hinv, haround.trans haround', ?_⟩
    intro j hj
    rw [hviews j hj, haround.same.vaddr j]
    have hpages : onPages (w :: pages) (k.workingSet j).vaddr =
        ((pageOf w == pageOf (k.workingSet j).vaddr) || onPages pages (k.workingSet j).vaddr) := by
      simp [onPages]
    rw [hpages, ← eventIf_eventIf]
    congr 1
    by_cases hji : j = i
    · subst hji
      rw [hto.view]
      simp [eventIf, hiw]
    · rw [hto.step.view_eq h hi hj hji]
      have hne : ¬ pageOf w = pageOf (k.workingSet j).vaddr := fun heq =>
        hji (h.eq_of_page hj hi (heq.symm.trans hiw.symm))
      simp [eventIf, hne]

theorem foldlM_event_inside {pages : List VirBytes} : ∀ {k : Kernel}, PeInv k p L →
    pages.foldlM (updateWsUs1Us2DataVaddr p) k = some k' → ∀ w ∈ pages, ¬ Outside k L w := by
  induction pages with
  | nil => simp
  | cons w pages ih =>
    intro k h hrun
    simp only [foldlM_cons, bind_eq_bind, bind_eq_some_iff] at hrun
    obtain ⟨k1, hw, hrest⟩ := hrun
    have hin : ¬ Outside k L w := by
      intro hout
      obtain ⟨A, hws, rfl⟩ := h.lists
      have hnone : lookUpPte k p w = none := by
        cases hl : lookUpPte k p w with
        | none => rfl
        | some i =>
          obtain ⟨hi, hiv⟩ := lookUpPte_some hws h.inUse hl
          exact absurd hiv (hout i hi)
      simp [updateWsUs1Us2DataVaddr, hnone] at hw
    have hin' := hin
    unfold Outside at hin'
    push Not at hin'
    obtain ⟨i, hi, hiw⟩ := hin'
    have hto := updateWsUs1Us2DataVaddr_view h hi hiw hw
    intro u hu
    rcases mem_cons.mp hu with rfl | hu
    · exact hin
    · rw [← (hto.step.around h hi).outside_iff]
      exact ih (hto.step.peInv h hi) hrest u hu

/-- Where the loop over the events stands. -/
structure EventsAt (p : ProcNr) (L : List (Fin workingSetSize)) (k : Kernel)
    (M : List (Fin hardeningMemEventsSize)) (rest : List (Fin hardeningMemEventsSize))
    (k₁ : Kernel) : Prop where
  inv : PeInv k₁ p L
  around : Around p L k k₁
  events : hmeView k₁ = hmeView k
  split : ∃ done, M = done ++ rest ∧
    (∀ w ∈ done.flatMap (fun e => eventPages (k.hardeningMemEvents e)), ¬ Outside k L w) ∧
    ∀ i ∈ L, view k₁ p i = (view k p i).eventIf
      (onPages (done.flatMap (fun e => eventPages (k.hardeningMemEvents e)))
        (k.workingSet i).vaddr)

theorem EventsAt.turn {M rest : List (Fin hardeningMemEventsSize)} {e : Fin hardeningMemEventsSize}
    {A : ProcNr → List (Fin hardeningMemEventsSize)} {k₁ k₂ : Kernel} (hm : HmeOk k A)
    (hA : A p = M) (hl : EventsAt p L k M (e :: rest) k₁)
    (hrun : updateRangeWsUs1Us2Data k₁ p (k₁.hardeningMemEvents e).addrBase
      (k₁.hardeningMemEvents e).npages = some k₂) :
    EventsAt p L k M rest k₂ ∧ k₂.nextHme e = rest.head? := by
  obtain ⟨done, hM, hin, hviews⟩ := hl.split
  have htable : k₁.hardeningMemEvents = k.hardeningMemEvents := (Prod.mk.inj hl.events).1
  have hfold : (eventPages (k.hardeningMemEvents e)).foldlM (updateWsUs1Us2DataVaddr p) k₁ =
      some k₂ := by
    rw [← htable]
    exact hrun
  have hin1 := foldlM_event_inside hl.inv hfold
  obtain ⟨k3, hrun3, hinv, haround, hviews3⟩ := foldlM_event_view _ hl.inv hin1
  rw [hfold] at hrun3
  obtain rfl := some.inj hrun3
  have hview2 : hmeView k₂ = hmeView k := (hmeView_updateRange hfold).trans hl.events
  refine ⟨⟨hinv, hl.around.trans haround, hview2, done ++ [e], by simp [hM], ?_, ?_⟩, ?_⟩
  · intro w hw
    simp only [flatMap_append, mem_append, flatMap_singleton] at hw
    rcases hw with hw | hw
    · exact hin w hw
    · rw [← hl.around.outside_iff]
      exact hin1 w hw
  · intro i hi
    rw [hviews3 i hi, hviews i hi, hl.around.same.vaddr, eventIf_eventIf]
    simp [onPages, flatMap_append]
  · have hnext := (hm.of_view hview2).owned.next_eq (o := p) _ (hA.trans hM)
    exact hnext

/-- `handle_hme_events` brings the pages with events up to date. It returns exactly if all of
them are in the working set. -/
theorem handleHmeEvents_view (h : PeInv k p L) (hm : HmeInv k) :
    (handleHmeEvents k p = none ∧ ∃ w ∈ pendingPages k p, Outside k L w) ∨
      ∃ k', handleHmeEvents k p = some k' ∧ PeInv k' p L ∧ Around p L k k' ∧
        hmeView k' = hmeView k ∧ (∀ w ∈ pendingPages k p, ¬ Outside k L w) ∧
        ∀ i ∈ L, view k' p i =
          (view k p i).eventIf (onPages (pendingPages k p) (k.workingSet i).vaddr) := by
  obtain ⟨A, hm⟩ := hm
  have hpend : pendingPages k p = (A p).flatMap (fun e => eventPages (k.hardeningMemEvents e)) := by
    unfold pendingPages
    rw [(hm.chain h.inUse).follow_eq]
  have hstart : EventsAt p L k (A p) (A p) k :=
    ⟨h, Around.refl p L k, rfl, [], rfl, by simp, fun i _ => by simp [onPages, eventIf]⟩
  unfold handleHmeEvents
  split
  · have hnil : A p = [] := length_eq_zero_iff.mp (by rw [← hm.size p h.inUse]; omega)
    right
    refine ⟨k, rfl, h, Around.refl p L k, rfl, by simp [hpend, hnil], fun i _ => ?_⟩
    simp [hpend, hnil, onPages, eventIf]
  rw [(hm.chain h.inUse).start_eq_head?, hpend]
  generalize hloop : whileNext nextHme (fun k i => updateRangeWsUs1Us2Data k p
    (k.hardeningMemEvents i).addrBase (k.hardeningMemEvents i).npages) hardeningMemEventsSize k
    (A p).head? = o
  cases o with
  | some k' =>
    right
    have hend := whileNext_inv (P := EventsAt p L k (A p))
      (fun e rest k1 k2 hl hbody => hl.turn hm rfl hbody) hstart hloop
    obtain ⟨done, hM, hin, hviews⟩ := hend.split
    rw [append_nil] at hM
    rw [hM]
    exact ⟨k', rfl, hend.inv, hend.around, hend.events, hin, hviews⟩
  | none =>
    left
    refine ⟨rfl, ?_⟩
    by_contra hall
    push Not at hall
    obtain ⟨k', hsome, -⟩ := whileNext_total nextHme
      (fun k i => updateRangeWsUs1Us2Data k p (k.hardeningMemEvents i).addrBase
        (k.hardeningMemEvents i).npages) (P := EventsAt p L k (A p))
      (fun e rest k1 hl => by
        obtain ⟨done, hM, -, -⟩ := hl.split
        have htable : k1.hardeningMemEvents = k.hardeningMemEvents := (Prod.mk.inj hl.events).1
        obtain ⟨k2, hfold, -⟩ := foldlM_event_view (eventPages (k.hardeningMemEvents e)) hl.inv (fun w hw => by
            rw [hl.around.outside_iff]
            refine hall w (mem_flatMap.mpr ⟨e, ?_, hw⟩)
            rw [hM]
            simp)
        have hbody : updateRangeWsUs1Us2Data k1 p (k1.hardeningMemEvents e).addrBase
            (k1.hardeningMemEvents e).npages = some k2 := by
          rw [htable]
          exact hfold
        exact ⟨k2, hbody, hl.turn hm rfl hbody⟩)
      hstart (hm.chain h.inUse).length_le
    rw [hloop] at hsome
    exact absurd hsome (by simp)

theorem SamePages.outer (h : SamePages p k k') (L : List (Fin workingSetSize)) : Outer p L k k' :=
  ⟨h.same, h.pde, by rw [h.freeMem], fun v _ => h.pte v, fun v _ _ => h.visible_eq v⟩

theorem forPmbs_ro (h : PeInv k p L) :
    ∃ k', k.forPmbs p (setPmbToRo p) = some k' ∧ PeInv k' p L ∧ Around p L k k' ∧
      ∀ i ∈ L, view k' p i = (view k p i).ro k.hStep := by
  refine forPmbs_view_total h (fun k1 i h1 haround hi _ => ?_)
  rw [← haround.hStep_eq]
  exact setPmbToRo_view h1 hi

theorem PeInv.nil_of_size (h : PeInv k p L) (hsize : (k.procs p).lus1Us2Size ≤ 0) : L = [] :=
  length_eq_zero_iff.mp (by rw [← h.size_eq]; omega)

theorem setPeMemToRo_second (h : PeInv k p L) (hs : k.hStep ≠ .firstRun) :
    ∃ k', setPeMemToRo k p = some k' ∧ PeInv k' p L ∧ Around p L k k' ∧
      ∀ i ∈ L, view k' p i = (view k p i).ro k.hStep := by
  unfold setPeMemToRo
  split
  · rename_i hsize
    have hnil := h.nil_of_size hsize
    exact ⟨k, rfl, h, Around.refl p L k, by simp [hnil]⟩
  · exact forPmbs_ro h

theorem setPeMemToRo_first (h : PeInv k p L) (hm : HmeInv k) (hs : k.hStep = .firstRun) :
    (setPeMemToRo k p = none ∧ ∃ w ∈ pendingPages k p, Outside k L w) ∨
      ∃ k', setPeMemToRo k p = some k' ∧ PeInv k' p L ∧ Around p L k k' ∧
        ∀ i ∈ L, view k' p i = ((view k p i).eventIf
          (onPages (pendingPages k p) (k.workingSet i).vaddr)).ro .firstRun := by
  unfold setPeMemToRo
  split
  · rename_i hsize
    have hnil := h.nil_of_size hsize
    exact .inr ⟨k, rfl, h, Around.refl p L k, by simp [hnil]⟩
  rcases handleHmeEvents_view h hm with ⟨hnone, hout⟩ | ⟨k1, hrun, h1, ha1, hev, -, hv1⟩
  · left
    rw [hnone]
    exact ⟨rfl, hout⟩
  right
  rw [hrun]
  obtain ⟨M, hm⟩ := hm
  obtain ⟨k2, hfree, -⟩ := freeHardeningMemEvents_spec (p := p) (hm.of_view hev) h1.inUse
  have herase := eraseHmes_freeHardeningMemEvents hfree
  have hpages := SamePages.of_eraseHmes p herase
  have h2 := hpages.peInv h1
  have ha2 : Around p L k1 k2 := ⟨hpages.outer L, restOf_of_eraseHmes p herase⟩
  obtain ⟨k3, hro, h3, ha3, hv3⟩ := forPmbs_ro h2
  simp only [hfree]
  refine ⟨k3, hro, h3, (ha1.trans ha2).trans ha3, fun i hi => ?_⟩
  rw [hv3 i hi, hpages.view_eq i, hv1 i hi, ha2.hStep_eq, ha1.hStep_eq, hs]

/-! ## End of a run -/

theorem vmResetPram_view {endcmp : EndCmp} (h : PeInv k p L)
    (hturn : ∀ k₁ i k₂, PeInv k₁ p L → Around p L k k₁ → i ∈ L →
      resetTurn p endcmp k₁ i = some k₂ → PageTo p i f k₁ k₂)
    (hrun : vmResetPram k p endcmp = some k') :
    PeInv k' p L ∧ Around p L k k' ∧ ∀ i ∈ L, view k' p i = f (view k p i) := by
  unfold vmResetPram at hrun
  split_ifs at hrun with hvm hsize
  · have hnil := h.nil_of_size hsize
    obtain rfl := some.inj hrun
    exact ⟨h, Around.refl p L k, by simp [hnil]⟩
  · exact forPmbs_view h hturn hrun

theorem vmResetPram_total {endcmp : EndCmp} (h : PeInv k p L) (hvm : p ≠ vmProcNr)
    (hturn : ∀ k₁ i, PeInv k₁ p L → Around p L k k₁ → i ∈ L → view k₁ p i = view k p i →
      ∃ k₂, resetTurn p endcmp k₁ i = some k₂ ∧ PageTo p i f k₁ k₂) :
    ∃ k', vmResetPram k p endcmp = some k' ∧ PeInv k' p L ∧ Around p L k k' ∧
      ∀ i ∈ L, view k' p i = f (view k p i) := by
  unfold vmResetPram
  rw [if_neg hvm]
  split_ifs with hsize
  · have hnil := h.nil_of_size hsize
    exact ⟨k, rfl, h, Around.refl p L k, by simp [hnil]⟩
  · exact forPmbs_view_total h hturn

theorem vmResetPram_endFirst (h : PeInv k p L) (hvm : p ≠ vmProcNr) (hs : k.hStep = .firstRun) :
    ∃ k', vmResetPram k p .cpyRamFirst = some k' ∧ PeInv k' p L ∧ Around p L k k' ∧
      ∀ i ∈ L, view k' p i = (view k p i).endFirst := by
  refine vmResetPram_total h hvm (fun k1 i h1 haround hi _ => ?_)
  have hs1 : k1.hStep = .firstRun := haround.hStep_eq.trans hs
  exact ⟨_, by simp [resetTurn, hs1], endFirstPmb_view (h1.pages i hi)⟩

theorem vmResetPram_failed (h : PeInv k p L) (hvm : p ≠ vmProcNr) (hs : k.hStep = .secondRun) :
    ∃ k', vmResetPram k p .cmpFailed = some k' ∧ PeInv k' p L ∧ Around p L k k' ∧
      ∀ i ∈ L, view k' p i = (view k p i).reset := by
  refine vmResetPram_total h hvm (fun k1 i h1 haround hi _ => ?_)
  have hs1 : k1.hStep = .secondRun := haround.hStep_eq.trans hs
  exact ⟨_, by simp [resetTurn, hs1], resetPmb_view (h1.pages i hi)⟩

theorem vmResetPram_abort (h : PeInv k p L) (hvm : p ≠ vmProcNr) :
    ∃ k', vmResetPram k p .abortPe = some k' ∧ PeInv k' p L ∧ Around p L k k' ∧
      ∀ i ∈ L, view k' p i = (view k p i).reset :=
  vmResetPram_total h hvm (fun k1 i h1 _ hi _ =>
    ⟨resetPmb p k1 i, by simp [resetTurn], resetPmb_view (h1.pages i hi)⟩)

theorem vmResetPram_commit (h : PeInv k p L) (hs : k.hStep = .secondRun)
    (hrun : vmResetPram k p .cpyRamPram = some k') :
    PeInv k' p L ∧ Around p L k k' ∧ ∀ i ∈ L, view k' p i = (view k p i).commit := by
  refine vmResetPram_view h (fun k1 i k2 h1 haround hi hturn => ?_) hrun
  have hs1 : k1.hStep = .secondRun := haround.hStep_eq.trans hs
  simp only [resetTurn, hs1] at hturn
  exact commitPmb_view (h1.pages i hi) hturn

theorem commitPmb_total (hquiet : (k.procs p).nbHardeningSharedRegions ≤ 0 ∨
    ((view k p i).flags.hgetPf || (view k p i).dirty) = false) :
    ∃ k', commitPmb p k i = some k' := by
  have hframe : ∃ s, commitFrame p k i = some s := by
    unfold commitFrame
    simp only
    split
    · rename_i hcond
      rcases hquiet with hnb | hclean
      · have hnone : ∀ k1 : Kernel, k1.procs = k.procs →
            enableHmeEventInProcs k1 p (k.workingSet i).vaddr 4096 = some k1 := by
          intro k1 h1
          rw [enableHmeEventInProcs, if_pos (by rw [h1]; exact hnb)]
        split_ifs
        · rw [hnone]
          · exact ⟨_, rfl⟩
          · rfl
        · exact ⟨_, rfl⟩
      · rw [show ((k.workingSet i).flags.hgetPf || (k.getPte p (k.workingSet i).vaddr).dirty) =
          false from hclean] at hcond
        simp at hcond
    · exact ⟨_, rfl⟩
  obtain ⟨s, hs⟩ := hframe
  rw [commitPmb, hs]
  exact ⟨_, rfl⟩

theorem vmResetPram_commit_total (h : PeInv k p L) (hvm : p ≠ vmProcNr) (hs : k.hStep = .secondRun)
    (hquiet : (k.procs p).nbHardeningSharedRegions ≤ 0 ∨
      ∀ i ∈ L, ((view k p i).flags.hgetPf || (view k p i).dirty) = false) :
    ∃ k', vmResetPram k p .cpyRamPram = some k' := by
  have hturn : ∀ k1 i, PeInv k1 p L → Around p L k k1 → i ∈ L → view k1 p i = view k p i →
      ∃ k2, resetTurn p .cpyRamPram k1 i = some k2 ∧ PageTo p i commit k1 k2 := by
    intro k1 i h1 haround hi hview
    have hs1 : k1.hStep = .secondRun := haround.hStep_eq.trans hs
    have hnb : (k1.procs p).nbHardeningSharedRegions = (k.procs p).nbHardeningSharedRegions := by
      have := congrArg Rest.nbHardeningSharedRegions haround.rest
      exact this
    have hquiet1 : (k1.procs p).nbHardeningSharedRegions ≤ 0 ∨
        ((view k1 p i).flags.hgetPf || (view k1 p i).dirty) = false := by
      rw [hnb, hview]
      exact hquiet.imp_right (fun hall => hall i hi)
    obtain ⟨k2, hrun⟩ := commitPmb_total hquiet1
    exact ⟨k2, by simp [resetTurn, hs1, hrun], commitPmb_view (h1.pages i hi) hrun⟩
  obtain ⟨k', hrun, -⟩ := vmResetPram_total h hvm hturn
  exact ⟨k', hrun⟩

/-! ## Comparison -/

theorem cmpPmb_view (hok : PageOk k p i) :
    (cmpPmb (k, true) i = some (k, false) ∧ (view k p i).agrees = false) ∨
      ∃ k', cmpPmb (k, true) i = some (k', true) ∧ (view k p i).agrees = true ∧
        PageTo p i View.cmp k k' := by
  unfold cmpPmb
  simp only [Bool.not_true, Bool.false_eq_true, ↓reduceIte]
  split
  · rename_i us1 us2 h1 h2
    have hcompared : (view k p i).compared = (k.workingSet i).flags.fws := by
      simp [compared, both, view, viewOf, h1, h2]
    cases hfws : (k.workingSet i).flags.fws with
    | false =>
      right
      rw [hfws] at hcompared
      refine ⟨k, by simp, by simp [agrees, hcompared], PageStep.refl hok, ?_⟩
      simp [View.cmp, hcompared]
    | true =>
      rw [hfws] at hcompared
      have hagrees : (view k p i).agrees = k.cmpFrames us2 us1 := by
        have hc1 : (view k p i).c1 = some (k.mem us1) := by simp [view, viewOf, h1]
        have hc2 : (view k p i).c2 = some (k.mem us2) := by simp [view, viewOf, h2]
        rw [agrees, hcompared, hc1, hc2, cmpFrames, Bool.not_true, Bool.false_or,
          Bool.eq_iff_iff, beq_iff_eq, beq_iff_eq, some.injEq]
        exact eq_comm
      cases hcmp : k.cmpFrames us2 us1 with
      | false =>
        left
        exact ⟨by simp, by rw [hagrees, hcmp]⟩
      | true =>
        right
        refine ⟨_, by simp; rfl, by rw [hagrees, hcmp], ?_⟩
        have heq : k.setPmb i { k.workingSet i with
            flags := { (k.workingSet i).flags with fws := false } } =
            k.setPage p i { k.workingSet i with
              flags := { (k.workingSet i).flags with fws := false } }
              (k.getPte p (k.workingSet i).vaddr) k.mem k.freeMem := by
          simp [setPage, setPte, setProc, setPmb, getPte]
        rw [heq]
        refine pageTo_setPage hok ⟨rfl, rfl, rfl, fun h => h, rfl, fun h => h, fun h => h⟩ rfl rfl
          (fun _ _ => rfl) hok.pte hok.mapped ?_
        simp only [View.cmp, hcompared, ↓reduceIte]
        rfl
  · rename_i hno
    right
    have hcompared : (view k p i).compared = false := by
      cases h1 : (k.workingSet i).us1 <;> cases h2 : (k.workingSet i).us2 <;>
        simp [compared, both, view, viewOf, h1, h2]
      exact absurd h2 (hno _ _ h1)
    refine ⟨k, rfl, by simp [agrees, hcompared], PageStep.refl hok, ?_⟩
    simp [View.cmp, hcompared]

structure CmpAt (p : ProcNr) (L : List (Fin workingSetSize)) (k : Kernel)
    (rest : List (Fin workingSetSize)) (s : Kernel × Bool) : Prop where
  inv : PeInv s.1 p L
  around : Around p L k s.1
  split : ∃ done, L = done ++ rest ∧
    (s.2 = true → ∀ i ∈ done, (view k p i).agrees = true ∧ view s.1 p i = (view k p i).cmp) ∧
    (s.2 = false → ∃ i ∈ done, (view k p i).agrees = false)
  todo : s.2 = true → ∀ i ∈ rest, view s.1 p i = view k p i
  either : ∀ i ∈ L, view s.1 p i = view k p i ∨ view s.1 p i = (view k p i).cmp

theorem cmpMem_view (h : PeInv k p L) :
    ∃ k' r, cmpMem k p = some (k', r) ∧ PeInv k' p L ∧ Around p L k k' ∧
      (r = true ↔ ∀ i ∈ L, (view k p i).agrees = true) ∧
      (r = true → ∀ i ∈ L, view k' p i = (view k p i).cmp) ∧
      ∀ i ∈ L, view k' p i = view k p i ∨ view k' p i = (view k p i).cmp := by
  unfold cmpMem
  split
  · rename_i hsize
    have hnil := h.nil_of_size hsize
    exact ⟨k, true, rfl, h, Around.refl p L k, by simp [hnil]⟩
  rw [h.chain.start_eq_head?]
  have hturn : ∀ i rest s, CmpAt p L k (i :: rest) s → ∃ s', cmpPmb s i = some s' ∧
      CmpAt p L k rest s' ∧ s'.1.nextPmb i = rest.head? := by
    intro i rest s hl
    obtain ⟨done, hL, hok, hbad⟩ := hl.split
    have hi : i ∈ L := by rw [hL]; simp
    obtain ⟨k1, r⟩ := s
    have hnext : ∀ {k2 : Kernel}, PeInv k2 p L → k2.nextPmb i = rest.head? := by
      intro k2 h2
      obtain ⟨A, hws, hA⟩ := h2.lists
      exact hws.owned.next_eq (o := p) _ (hA.trans hL)
    cases r with
    | false =>
      obtain ⟨j, hj, hno⟩ := hbad rfl
      refine ⟨(k1, false), by simp [cmpPmb], ⟨hl.inv, hl.around, ⟨done ++ [i], by simp [hL],
        by simp, fun _ => ⟨j, by simp [hj], hno⟩⟩, by simp, hl.either⟩, hnext hl.inv⟩
    | true =>
      have hview := hl.todo rfl i mem_cons_self
      simp only at hview
      rcases cmpPmb_view (hl.inv.pages i hi) with ⟨hrun, hno⟩ | ⟨k2, hrun, hag, hto⟩
      · rw [hview] at hno
        refine ⟨(k1, false), hrun, ⟨hl.inv, hl.around, ⟨done ++ [i], by simp [hL], by simp,
          fun _ => ⟨i, by simp, hno⟩⟩, by simp, hl.either⟩, hnext hl.inv⟩
      rw [hview] at hag
      have hinv := hto.step.peInv hl.inv hi
      have hnd := hl.inv.nodup
      rw [hL, nodup_append] at hnd
      have hother : ∀ j ∈ L, j ≠ i → view k2 p j = view k1 p j := fun j hj hne =>
        hto.step.view_eq hl.inv hi hj hne
      have hi2 : view k2 p i = (view k p i).cmp := by rw [hto.view, hview]
      refine ⟨(k2, true), hrun, ⟨hinv, hl.around.trans (hto.step.around hl.inv hi),
        ⟨done ++ [i], by simp [hL], fun _ j hj => ?_, by simp⟩, fun _ j hj => ?_,
        fun j hj => ?_⟩, hnext hinv⟩
      · rcases mem_append.mp hj with hj | hj
        · have hne : j ≠ i := hnd.2.2 j hj i mem_cons_self
          rw [hother j (by rw [hL]; simp [hj]) hne]
          exact hok rfl j hj
        · rw [mem_singleton.mp hj]
          exact ⟨hag, hi2⟩
      · have hne : j ≠ i := by
          rintro rfl
          exact (nodup_cons.mp hnd.2.1).1 hj
        rw [hother j (by rw [hL]; simp [hj]) hne]
        exact hl.todo rfl j (mem_cons_of_mem i hj)
      by_cases hne : j = i
      · rw [hne]
        exact .inr hi2
      · rw [hother j hj hne]
        exact hl.either j hj
  obtain ⟨⟨k', r⟩, hrun, hend⟩ := whileNext_total (fun s => s.1.nextPmb) cmpPmb hturn (l := L)
    (s := (k, true))
    ⟨h, Around.refl p L k, ⟨[], rfl, by simp, by simp⟩, fun _ _ _ => rfl, fun _ _ => .inl rfl⟩
    h.chain.length_le
  obtain ⟨done, hL, hok, hbad⟩ := hend.split
  rw [append_nil] at hL
  refine ⟨k', r, hrun, hend.inv, hend.around, ⟨fun hr i hi => (hok hr i (hL ▸ hi)).1, ?_⟩,
    fun hr i hi => (hok hr i (hL ▸ hi)).2, hend.either⟩
  intro hall
  cases r with
  | true => rfl
  | false =>
    obtain ⟨i, hi, hno⟩ := hbad rfl
    rw [hall i (hL ▸ hi)] at hno
    exact absurd hno (by simp)

/-! ## User code -/

def storesOn (pg : Nat) (ops : List UserOp) : List PageStore :=
  ops.filterMap (fun op =>
    match op with
    | .load _ => none
    | .store v b => if pageOf v = pg then some (pageOffset v, b) else none)

theorem storesOn_cons (pg : Nat) (op : UserOp) (ops : List UserOp) :
    storesOn pg (op :: ops) = storesOn pg [op] ++ storesOn pg ops := by
  unfold storesOn
  rw [← filterMap_append, singleton_append]

/-- What user code does not change: outside the working set an entry can only become dirty. -/
structure UserAround (p : ProcNr) (L : List (Fin workingSetSize)) (k k' : Kernel) : Prop where
  same : WsSame k k'
  rest : restOf p k' = restOf p k
  pdes : ∀ v, k'.getPde p v = k.getPde p v
  freeMem : k'.freeMem <:+ k.freeMem
  outPte : ∀ v, Outside k L v → ∃ d, k'.getPte p v = { k.getPte p v with dirty := d }

theorem Around.user (h : Around p L k k') : UserAround p L k k' :=
  ⟨h.same, h.rest, h.pdes, h.freeMem, fun v hv => ⟨(k.getPte p v).dirty, h.outPte v hv⟩⟩

namespace UserAround

theorem outside_iff (h : UserAround p L k k') (v : VirBytes) : Outside k' L v ↔ Outside k L v := by
  simp only [Outside, h.same.vaddr]

theorem trans (h : UserAround p L k k') (h' : UserAround p L k' k'') : UserAround p L k k'' where
  same := h.same.trans h'.same
  rest := h'.rest.trans h.rest
  pdes v := (h'.pdes v).trans (h.pdes v)
  freeMem := h'.freeMem.trans h.freeMem
  outPte v hv := by
    obtain ⟨d, hd⟩ := h.outPte v hv
    obtain ⟨d', hd'⟩ := h'.outPte v ((h.outside_iff v).mpr hv)
    exact ⟨d', by rw [hd', hd]⟩

theorem hStep_eq (h : UserAround p L k k') : k'.hStep = k.hStep := by
  have := congrArg Rest.hStep h.rest
  exact this

theorem canStore_eq (h : UserAround p L k k') {v : VirBytes} (hv : Outside k L v) :
    k'.canStore p v = k.canStore p v := by
  obtain ⟨d, hd⟩ := h.outPte v hv
  simp [canStore, canLoad, h.pdes, hd]

end UserAround

theorem pageFault_outside (h : PeInv k p L) {v : VirBytes} (hv : Outside k L v) :
    pageFault k p v = none := by
  have hinv := h.faulted v
  obtain ⟨a, b, heq⟩ := faulted_eq k v
  have hout : Outside (faulted k v) L v := by rw [heq]; exact hv
  obtain ⟨A, hws, rfl⟩ := hinv.lists
  have hnone : lookUpPte (faulted k v) p v = none := by
    cases hl : lookUpPte (faulted k v) p v with
    | none => rfl
    | some i =>
      obtain ⟨hi, hiv⟩ := lookUpPte_some hws hinv.inUse hl
      exact absurd hiv (hout i hi)
  have hcheck : checkVaddr2 { k with cr := { k.cr with cr2 := UInt32.ofNat v } } p v =
      some (faulted k v, .normal) := by
    unfold checkVaddr2
    simp only
    rw [show ({ k with cr := { k.cr with cr2 := UInt32.ofNat v } } : Kernel).recordFault v =
      faulted k v from rfl, hnone]
    split <;> rfl
  rw [pageFault, hcheck]

theorem storeByte_outside (h : PeInv k p L) {v : VirBytes} (hv : Outside k L v)
    (hcan : k.canStore p v = true) (b : UInt8) :
    PeInv (k.storeByte p v b) p L ∧ UserAround p L k (k.storeByte p v b) ∧
      ∀ i ∈ L, view (k.storeByte p v b) p i = view k p i := by
  have hpres : (k.getPte p v).present = true := by
    simp only [canStore, canLoad, Bool.and_eq_true] at hcan
    exact hcan.1.1.1.2
  have hout := h.outside v hv hpres
  have hget : ∀ w, (k.storeByte p v b).getPte p w =
      if pageOf w = pageOf v then { k.getPte p v with dirty := true } else k.getPte p w := by
    intro w
    by_cases hw : pageOf w = pageOf v <;>
      simp [storeByte, getPte, setPte, setProc, hw]
  have hpde : ∀ w, (k.storeByte p v b).getPde p w = k.getPde p w := by
    intro w
    simp [storeByte, getPde, setPte, setProc]
  have hmem : ∀ f, f ≠ (k.getPte p v).pfa → (k.storeByte p v b).mem f = k.mem f := by
    intro f hf
    simp [storeByte, setPte, setProc, hf]
  have hsame : WsSame k (k.storeByte p v b) := by
    have hmemory : WsSame k { k with mem := (k.storeByte p v b).mem } :=
      WsSame.of_procs rfl (fun _ => ⟨rfl, rfl, rfl⟩)
    exact hmemory.trans (WsSame.setPte _ p v { k.getPte p v with dirty := true })
  have hpte : ∀ i ∈ L, (k.storeByte p v b).getPte p (k.workingSet i).vaddr =
      k.getPte p (k.workingSet i).vaddr := fun i hi => by rw [hget, if_neg (hv i hi)]
  refine ⟨⟨?_, ?_, fun i hi => ?_, h.disjoint, h.nonzero, h.fresh, h.free, fun w hw hwp => ?_⟩,
    ⟨hsame, ?_, hpde, suffix_refl _, fun w hw => ?_⟩, fun i hi => ?_⟩
  · obtain ⟨A, hws, hA⟩ := h.lists
    exact ⟨A, hsame.wsOk hws, hA⟩
  · rw [hsame.inUse p]
    exact h.inUse
  · have hok := h.pages i hi
    exact ⟨hok.us0, hok.lastPf, hok.hExec, by rw [hpde]; exact hok.pde,
      (hpte i hi).symm ▸ hok.pte, (hpte i hi).symm ▸ hok.mapped, hok.distinct⟩
  · by_cases hwv : pageOf w = pageOf v
    · rw [hget, if_pos hwv]
      exact hout
    · rw [hget, if_neg hwv] at hwp ⊢
      exact h.outside w hw hwp
  · simp [restOf, storeByte, setPte, setProc]
  · by_cases hwv : pageOf w = pageOf v
    · exact ⟨true, by rw [hget, if_pos hwv, k.getPte_congr p hwv]⟩
    · exact ⟨(k.getPte p w).dirty, by rw [hget, if_neg hwv]⟩
  have hframe : ∀ f ∈ framesOf (k.workingSet i), (k.storeByte p v b).mem f = k.mem f :=
    fun f hf => hmem f (fun heq => hout.1 i hi (heq ▸ hf))
  obtain ⟨f0, h0⟩ := (h.pages i hi).us0
  have hblock : (k.storeByte p v b).workingSet i = k.workingSet i := rfl
  unfold view
  rw [hblock, hpte i hi]
  unfold viewOf
  congr 1
  · exact hframe _ (by simp [framesOf, h0, frameOr])
  · exact Option.map_congr (fun f hf => hframe f (by simp [framesOf, hf]))
  · exact Option.map_congr (fun f hf => hframe f (by simp [framesOf, hf]))

theorem mem_or_outside (k : Kernel) (L : List (Fin workingSetSize)) (v : VirBytes) :
    (∃ i ∈ L, pageOf (k.workingSet i).vaddr = pageOf v) ∨ Outside k L v := by
  by_cases h : ∃ i ∈ L, pageOf (k.workingSet i).vaddr = pageOf v
  · exact .inl h
  · exact .inr (fun i hi hv => h ⟨i, hi, hv⟩)

theorem perform_outside (h : PeInv k p L) {op : UserOp} {r : List UInt8}
    (hv : Outside k L op.addr) (hrun : perform k p op = some (k', r)) :
    op.allowed k p = true ∧ op.exec k p = (k', r) := by
  unfold perform at hrun
  rw [pageFault_outside h hv] at hrun
  split at hrun
  · rename_i hallowed
    exact ⟨hallowed, some.inj hrun⟩
  · simp at hrun

theorem perform_view (h : PeInv k p L) {op : UserOp} {r : List UInt8}
    (hrun : perform k p op = some (k', r)) :
    PeInv k' p L ∧ UserAround p L k k' ∧ ∀ i ∈ L,
      (view k p i).stores k.hStep (storesOn (pageOf (k.workingSet i).vaddr) [op]) =
        some (view k' p i) := by
  have hquiet : ∀ i, storesOn (pageOf (k.workingSet i).vaddr) [op] = [] →
      (view k p i).stores k.hStep (storesOn (pageOf (k.workingSet i).vaddr) [op]) =
        some (view k p i) := by
    intro i hnil
    rw [hnil]
    rfl
  rcases mem_or_outside k L op.addr with ⟨i, hi, hiv⟩ | hout
  · cases op with
    | load v =>
      simp only [UserOp.addr] at hiv
      rw [perform_load (h.pages i hi) hiv] at hrun
      obtain ⟨rfl, -⟩ := Prod.mk.inj (some.inj hrun)
      exact ⟨h, (Around.refl p L k).user, fun j _ => hquiet j rfl⟩
    | store v b =>
      simp only [UserOp.addr] at hiv
      rcases perform_store h hi hiv b with ⟨hnone, -⟩ | ⟨k1, v', hsome, hstore, -, hto⟩
      · rw [hnone] at hrun
        simp at hrun
      rw [hsome] at hrun
      obtain ⟨rfl, -⟩ := Prod.mk.inj (some.inj hrun)
      refine ⟨hto.step.peInv h hi, (hto.step.around h hi).user, fun j hj => ?_⟩
      by_cases hji : j = i
      · subst hji
        have hon : storesOn (pageOf (k.workingSet j).vaddr) [.store v b] = [(pageOffset v, b)] := by
          have hv : pageOf v = pageOf (k.workingSet j).vaddr := hiv.symm
          simp [storesOn, hv]
        rw [hon, hto.view]
        simp [stores, hstore]
      · have hne : ¬ pageOf v = pageOf (k.workingSet j).vaddr := fun heq =>
          hji (h.eq_of_page hj hi (heq.symm.trans hiv.symm))
        rw [hto.step.view_eq h hi hj hji]
        exact hquiet j (by simp [storesOn, hne])
  · obtain ⟨hallowed, hexec⟩ := perform_outside h hout hrun
    cases op with
    | load v =>
      obtain ⟨rfl, -⟩ := Prod.mk.inj hexec
      exact ⟨h, (Around.refl p L k).user, fun j _ => hquiet j rfl⟩
    | store v b =>
      obtain ⟨rfl, -⟩ := Prod.mk.inj hexec
      simp only [UserOp.addr] at hout
      obtain ⟨hinv, haround, hviews⟩ := storeByte_outside h hout hallowed b
      refine ⟨hinv, haround, fun j hj => ?_⟩
      have hne : ¬ pageOf v = pageOf (k.workingSet j).vaddr := fun heq => hout j hj heq.symm
      rw [hviews j hj]
      exact hquiet j (by simp [storesOn, hne])

theorem userRun_view {ops : List UserOp} : ∀ {k : Kernel} {rs : List UInt8}, PeInv k p L →
    userRun k p ops = some (k', rs) →
    PeInv k' p L ∧ UserAround p L k k' ∧ ∀ i ∈ L,
      (view k p i).stores k.hStep (storesOn (pageOf (k.workingSet i).vaddr) ops) =
        some (view k' p i) := by
  induction ops with
  | nil =>
    intro k rs h hrun
    obtain ⟨rfl, -⟩ := Prod.mk.inj (some.inj hrun)
    exact ⟨h, (Around.refl p L k).user, fun i _ => rfl⟩
  | cons op ops ih =>
    intro k rs h hrun
    unfold userRun at hrun
    split at hrun
    · simp at hrun
    rename_i k1 r hop
    split at hrun
    · simp at hrun
    rename_i k2 rs' hops
    obtain ⟨rfl, -⟩ := Prod.mk.inj (some.inj hrun)
    obtain ⟨h1, ha1, hv1⟩ := perform_view h hop
    obtain ⟨h2, ha2, hv2⟩ := ih h1 hops
    refine ⟨h2, ha1.trans ha2, fun i hi => ?_⟩
    have hrest := hv2 i hi
    rw [ha1.hStep_eq, ha1.same.vaddr] at hrest
    rw [storesOn_cons, stores, foldlM_append]
    have hfirst := hv1 i hi
    unfold stores at hfirst hrest
    rw [hfirst]
    exact hrest

theorem perform_around (h : PeInv k p L) {op : UserOp} {r : List UInt8}
    (hclosed : ∀ v, Outside k L v → k.canStore p v = false)
    (hrun : perform k p op = some (k', r)) : Around p L k k' := by
  rcases mem_or_outside k L op.addr with ⟨i, hi, hiv⟩ | hout
  · cases op with
    | load v =>
      simp only [UserOp.addr] at hiv
      rw [perform_load (h.pages i hi) hiv] at hrun
      obtain ⟨rfl, -⟩ := Prod.mk.inj (some.inj hrun)
      exact Around.refl p L k
    | store v b =>
      simp only [UserOp.addr] at hiv
      rcases perform_store h hi hiv b with ⟨hnone, -⟩ | ⟨k1, v', hsome, -, -, hto⟩
      · rw [hnone] at hrun
        simp at hrun
      · rw [hsome] at hrun
        obtain ⟨rfl, -⟩ := Prod.mk.inj (some.inj hrun)
        exact hto.step.around h hi
  obtain ⟨hallowed, hexec⟩ := perform_outside h hout hrun
  cases op with
  | load v =>
    obtain ⟨rfl, -⟩ := Prod.mk.inj hexec
    exact Around.refl p L k
  | store v b =>
    simp only [UserOp.addr] at hout
    simp [UserOp.allowed, hclosed v hout] at hallowed

theorem userRun_around {ops : List UserOp} : ∀ {k : Kernel} {rs : List UInt8}, PeInv k p L →
    (∀ v, Outside k L v → k.canStore p v = false) → userRun k p ops = some (k', rs) →
    Around p L k k' := by
  induction ops with
  | nil =>
    intro k rs _ _ hrun
    obtain ⟨rfl, -⟩ := Prod.mk.inj (some.inj hrun)
    exact Around.refl p L k
  | cons op ops ih =>
    intro k rs h hclosed hrun
    unfold userRun at hrun
    split at hrun
    · simp at hrun
    rename_i k1 r hop
    split at hrun
    · simp at hrun
    rename_i k2 rs' hops
    obtain ⟨rfl, -⟩ := Prod.mk.inj (some.inj hrun)
    have ha := perform_around h hclosed hop
    refine ha.trans (ih (perform_view h hop).1 (fun v hv => ?_) hops)
    rw [ha.outside_iff] at hv
    rw [ha.canStore_eq hv]
    exact hclosed v hv

end HardenedMinix
