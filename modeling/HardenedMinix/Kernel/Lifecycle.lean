import HardenedMinix.Kernel.EventLists

/-!
# The end of a process

What `do_clear` gives back of the two tables. Blocks are given back if the process is hardened;
memory events are not given back at all.
-/

open Function List Option

namespace HardenedMinix

open Lib Linked Kernel

variable {k k' : Kernel} {L : ProcNr → List (Fin workingSetSize)}
  {M : ProcNr → List (Fin hardeningMemEventsSize)} {p : ProcNr}

/-! ## The lists of the live processes -/

/-- The blocks on the list of a process, if it is live. -/
def liveBlocks (k : Kernel) (p : ProcNr) : List (Fin workingSetSize) :=
  if (k.procs p).inUse then follow k.workingSet workingSetSize (k.procs p).lus1Us2 else []

/-- The events on the list of a process, if it is live. -/
def liveEvents (k : Kernel) (p : ProcNr) : List (Fin hardeningMemEventsSize) :=
  if (k.procs p).inUse then
    follow k.hardeningMemEvents hardeningMemEventsSize (k.procs p).hardeningMemEvents
  else []

theorem WsOk.liveBlocks_eq (h : WsOk k L) : liveBlocks k = L := by
  funext p
  cases hp : (k.procs p).inUse with
  | true => simp only [liveBlocks, hp, ↓reduceIte, (h.chain hp).follow_eq]
  | false => simp [liveBlocks, hp, h.dead hp]

theorem HmeOk.liveEvents_eq (h : HmeOk k M) : liveEvents k = M := by
  funext p
  cases hp : (k.procs p).inUse with
  | true => simp only [liveEvents, hp, ↓reduceIte, (h.chain hp).follow_eq]
  | false => simp [liveEvents, hp, h.dead hp]

variable {i : Fin workingSetSize} {rc : ProcNr}

theorem freePramMemBlock_head (h : WsOk k L) (hp : (k.procs p).inUse = true) {rest : List (Fin workingSetSize)} (hl : L p = i :: rest) :
    WsOk (freePramMemBlock k p (k.workingSet i).vaddr) (update L p rest) ∧
      (freePramMemBlock k p (k.workingSet i).vaddr).workingSet i = pmbPool.clear (k.workingSet i) ∧
      ∀ j, j ≠ i → ∃ x, (freePramMemBlock k p (k.workingSet i).vaddr).workingSet j =
        setNext (k.workingSet j) x := by
  have hi : i ∈ L p := by simp [hl]
  rcases freePramMemBlock_spec h hp (k.workingSet i).vaddr with
    ⟨-, hnone⟩ | ⟨pre, j, suf, hl', hv, hok, hclear, hset⟩
  · exact absurd rfl (hnone i hi)
  -- the list has one block per page, so the block that goes is the first
  have hji : j = i := h.eq_of_page (by simp [hl']) hi hv
  subst hji
  have hpre : pre = [] := by
    cases pre with
    | nil => rfl
    | cons a pre =>
      have hnd := h.owned.nodup p
      rw [hl] at hl'
      obtain ⟨rfl, -⟩ := List.cons.inj hl'
      simp [hl, nodup_cons, (List.cons.inj hl').2] at hnd
  subst hpre
  rw [hl, nil_append] at hl'
  obtain ⟨-, rfl⟩ := List.cons.inj hl'
  exact ⟨hok, hclear, hset⟩

theorem freePramMemBlocks_spec (h : WsOk k L) (hp : (k.procs p).inUse = true) :
    ∃ k', freePramMemBlocks k p false = some k' ∧ WsOk k' (update L p []) ∧
      (k'.procs p).inUse = true ∧
      (∀ i ∈ L p, free (k'.workingSet i) = true) ∧
      ∀ i, i ∉ L p → free (k'.workingSet i) = free (k.workingSet i) := by
  have hlen := h.size p hp
  unfold freePramMemBlocks
  split
  · have hnil : L p = [] := length_eq_zero_iff.mp (by omega)
    refine ⟨k, rfl, ?_, hp, by simp [hnil], fun _ _ => rfl⟩
    rw [← hnil, update_eq_self]
    exact h
  unfold forPmbs
  rw [(h.chain hp).start_eq_head?]
  -- the list is what is left to visit; the blocks behind the walk are free
  obtain ⟨k', hloop, h', hp', hfreed, hkept, -⟩ := whileNext_total nextPmb
    (fun k i =>
      if (k.workingSet i).flags.hToUpdate && false then some k
      else some (freePramMemBlock k p (k.workingSet i).vaddr))
    (P := fun rest k1 => WsOk k1 (update L p rest) ∧ (k1.procs p).inUse = true ∧
      (∀ i ∈ L p, i ∉ rest → free (k1.workingSet i) = true) ∧
      (∀ i, i ∉ L p → free (k1.workingSet i) = free (k.workingSet i)) ∧
      ∀ i ∈ rest, i ∈ L p)
    (fun i rest k1 ⟨h1, hp1, hfreed, hkept, hsub⟩ => by
      have hl : update L p (i :: rest) p = i :: rest := update_self _ _ _
      obtain ⟨h2, hclear, hset⟩ := freePramMemBlock_head h1 hp1 hl
      rw [update_idem] at h2
      refine ⟨_, by simp, ⟨h2, by rw [inUse_freePramMemBlock]; exact hp1, ?_, ?_,
        fun j hj => hsub j (mem_cons_of_mem _ hj)⟩, ?_⟩
      · intro j hj hrest
        by_cases hji : j = i
        · subst hji
          rw [hclear]
          rfl
        · obtain ⟨x, hx⟩ := hset j hji
          rw [hx, free_setNext]
          exact hfreed j hj (by simp [hji, hrest])
      · intro j hj
        have hji : j ≠ i := fun heq => hj (heq ▸ hsub i mem_cons_self)
        obtain ⟨x, hx⟩ := hset j hji
        rw [hx, free_setNext, hkept j hj]
      · have hnext := h1.owned.next_eq (o := p) [] hl
        rw [nextPmb, hclear]
        exact hnext)
    (l := L p) (s := k)
    ⟨by rw [update_eq_self]; exact h, hp, fun i hi hnot => absurd hi hnot,
      fun _ _ => rfl, fun _ hi => hi⟩ (h.chain hp).length_le
  rw [hloop]
  have hsize := h'.size p hp'
  have hc := h'.chain hp'
  rw [update_self] at hsize hc
  refine ⟨k', ?_, h', hp', fun i hi => hfreed i hi (by simp), hkept⟩
  simp [hsize, hc.eq_none_of_nil]

/-! ## The events a commit makes -/

/-- A block whose commit asks for an event that its page does not have yet. -/
def needsEvent (k : Kernel) (p : ProcNr) (i : Fin workingSetSize) : Bool :=
  let b := k.workingSet i
  b.flags.wsShared && b.us2.isSome && b.us0.isSome &&
    (b.flags.hgetPf || (k.getPte p b.vaddr).dirty) && (lookUpHme k p b.vaddr).isNone

/-- The event lists of two states, the second with more events of `p`. -/
structure MoreEvents (p : ProcNr) (k k' : Kernel) : Prop where
  inv : HmeInv k'
  inUse : (k'.procs p).inUse = true
  found : ∀ w, lookUpHme k' p w = none → lookUpHme k p w = none

theorem enableHmeEventInProcs_spec {v size : Nat} (h : HmeInv k) (hp : (k.procs p).inUse = true)
    (hroom : eventsWith k p v ≤ hardeningMemEventsSize)
    (hrun : enableHmeEventInProcs k p v size = some k') :
    MoreEvents p k k' ∧ eventsWith k' p v ≤ eventsWith k p v := by
  unfold enableHmeEventInProcs at hrun
  split_ifs at hrun
  · obtain rfl := some.inj hrun
    exact ⟨⟨h, hp, fun _ hw => hw⟩, le_refl _⟩
  split at hrun
  · simp at hrun
  -- every turn records the same event of the same process
  refine whileNext_rel (R := fun k1 k2 : Kernel => HmeInv k1 → (k1.procs p).inUse = true →
      eventsWith k1 p v ≤ hardeningMemEventsSize →
      MoreEvents p k1 k2 ∧ eventsWith k2 p v ≤ eventsWith k1 p v)
    (fun k1 h1 hp1 _ => ⟨⟨h1, hp1, fun _ hw => hw⟩, le_refl _⟩)
    (fun k1 k2 k3 hr1 hr2 h1 hp1 hroom1 => ?_)
    (fun k1 i k2 hbody h1 hp1 hroom1 => ?_) hrun h hp hroom
  · obtain ⟨hm2, hle2⟩ := hr1 h1 hp1 hroom1
    obtain ⟨hm3, hle3⟩ := hr2 hm2.inv hm2.inUse (hle2.trans hroom1)
    exact ⟨⟨hm3.inv, hm3.inUse, fun w hw => hm2.found w (hm3.found w hw)⟩, hle3.trans hle2⟩
  · obtain ⟨k3, hadd, hinv, hlive, heq, hfound⟩ := addHmeEvent_spec h1 hp1 hroom1 size
    rw [hadd] at hbody
    obtain rfl := some.inj hbody
    exact ⟨⟨hinv, hlive, hfound⟩, heq.le⟩

theorem lookUpHme_of_view (hview : hmeView k' = hmeView k) (v : VirBytes) :
    lookUpHme k' p v = lookUpHme k p v := by
  obtain ⟨ht, hprocs⟩ := Prod.mk.inj hview
  have hp := congrFun hprocs p
  simp only [Prod.mk.injEq] at hp
  unfold lookUpHme
  rw [hp.2.1, hp.2.2, ht]

theorem totalEvents_of_view (hview : hmeView k' = hmeView k) : totalEvents k' = totalEvents k := by
  obtain ⟨-, hprocs⟩ := Prod.mk.inj hview
  refine Finset.sum_congr rfl (fun p _ => ?_)
  have hp := congrFun hprocs p
  simp only [Prod.mk.injEq] at hp
  rw [hp.1, hp.2.2]

theorem inUse_of_view (hview : hmeView k' = hmeView k) (p : ProcNr) :
    (k'.procs p).inUse = (k.procs p).inUse := by
  obtain ⟨-, hprocs⟩ := Prod.mk.inj hview
  have hp := congrFun hprocs p
  simp only [Prod.mk.injEq] at hp
  exact hp.1

/-- The number of events a block asks for, as a number. -/
def eventsNeeded (k : Kernel) (p : ProcNr) (i : Fin workingSetSize) : Nat :=
  if needsEvent k p i then 1 else 0

theorem commitFrame_events {e : Pte} (h : HmeInv k) (hp : (k.procs p).inUse = true)
    (hroom : eventsNeeded k p i + totalEvents k ≤ hardeningMemEventsSize)
    (hrun : commitFrame p k i = some (k', e)) :
    MoreEvents p k k' ∧ totalEvents k' ≤ eventsNeeded k p i + totalEvents k ∧
      (∀ j, j ≠ i → k'.workingSet j = k.workingSet j) ∧
      ∀ v, k'.getPte p v = k.getPte p v := by
  have hnothing : MoreEvents p k k ∧ totalEvents k ≤ eventsNeeded k p i + totalEvents k ∧
      (∀ j, j ≠ i → k.workingSet j = k.workingSet j) ∧ ∀ v, k.getPte p v = k.getPte p v :=
    ⟨⟨h, hp, fun _ hw => hw⟩, Nat.le_add_left _ _, fun _ _ => rfl, fun _ => rfl⟩
  unfold commitFrame at hrun
  simp only at hrun
  split at hrun
  · rename_i us2 us0 hus2 hus0 hpf
    generalize hk1 : (k.cpyFrames us2 us0).setPmb i _ = k1 at hrun
    have hview : hmeView k1 = hmeView k := by rw [← hk1]; rfl
    have hothers : ∀ j, j ≠ i → k1.workingSet j = k.workingSet j := by
      intro j hj
      rw [← hk1]
      simp [setPmb, cpyFrames, hj]
    have hpte : ∀ v, k1.getPte p v = k.getPte p v := by intro v; rw [← hk1]; rfl
    have hp1 : (k1.procs p).inUse = true := by rw [inUse_of_view hview]; exact hp
    split at hrun
    · simp at hrun
    rename_i k2 hev
    obtain ⟨rfl, -⟩ := Prod.mk.inj (some.inj hrun)
    split_ifs at hev with hshared
    · have hwith : eventsWith k1 p (k.workingSet i).vaddr = eventsNeeded k p i + totalEvents k := by
        unfold eventsWith eventsNeeded needsEvent
        rw [totalEvents_of_view hview, lookUpHme_of_view hview]
        cases hl : lookUpHme k p (k.workingSet i).vaddr <;>
          simp [hshared, hus2, hus0, hpf, hl, Nat.add_comm]
      obtain ⟨hmore, hle⟩ := enableHmeEventInProcs_spec (h.of_view hview) hp1
        (by rw [hwith]; exact hroom) hev
      have herase := eraseHmes_enableHmeEventInProcs hev
      refine ⟨⟨hmore.inv, hmore.inUse, fun w hw => ?_⟩, ?_, fun j hj => ?_, fun v => ?_⟩
      · rw [← lookUpHme_of_view hview]
        exact hmore.found w hw
      · refine le_trans ?_ (hle.trans_eq hwith)
        exact Nat.le_add_right _ _
      · rw [← hothers j hj]
        exact congrFun (congrArg workingSet herase) j
      · rw [← hpte v]
        have hproc := congrFun (congrArg procs herase) p
        exact congrFun (congrArg (fun x : Proc => x.pt.pte) hproc) (pageOf v)
    obtain rfl := some.inj hev
    refine ⟨⟨h.of_view hview, hp1, fun w hw => ?_⟩, ?_, hothers, hpte⟩
    · rwa [lookUpHme_of_view hview] at hw
    · rw [totalEvents_of_view hview]
      exact Nat.le_add_left _ _
  · obtain ⟨rfl, -⟩ := Prod.mk.inj (some.inj hrun)
    exact hnothing

theorem commitPmb_events (hws : WsOk k L) (hi : i ∈ L p) (h : HmeInv k)
    (hp : (k.procs p).inUse = true)
    (hroom : eventsNeeded k p i + totalEvents k ≤ hardeningMemEventsSize)
    (hrun : commitPmb p k i = some k') :
    MoreEvents p k k' ∧ totalEvents k' ≤ eventsNeeded k p i + totalEvents k ∧
      ∀ j ∈ L p, j ≠ i → eventsNeeded k' p j ≤ eventsNeeded k p j := by
  unfold commitPmb at hrun
  split at hrun
  · simp at hrun
  rename_i k1 e hframe
  obtain ⟨hmore, hle, hothers, hpte⟩ := commitFrame_events h hp hroom hframe
  have hvaddr := (WsSame.commitFrame hframe).vaddr
  have hview : hmeView k' = hmeView k1 := by
    rw [← some.inj hrun, hmeView_setPmb, hmeView_setPte]
  refine ⟨⟨hmore.inv.of_view hview, by rw [inUse_of_view hview]; exact hmore.inUse, fun w hw => ?_⟩,
    by rw [totalEvents_of_view hview]; exact hle, fun j hj hji => ?_⟩
  · rw [lookUpHme_of_view hview] at hw
    exact hmore.found w hw
  -- the page of another block of the list is another page
  have hpage : pageOf (k.workingSet j).vaddr ≠ pageOf (k.workingSet i).vaddr :=
    fun heq => hji (hws.eq_of_page hj hi heq)
  have hblock : k'.workingSet j = k.workingSet j := by
    rw [← hothers j hji, ← some.inj hrun]
    simp [setPmb, setPte, setProc, hji]
  have hdirty : k'.getPte p (k.workingSet j).vaddr = k.getPte p (k.workingSet j).vaddr := by
    rw [← hpte, ← some.inj hrun]
    simp [getPte, setPmb, setPte, setProc, hvaddr, hpage]
  have himp : needsEvent k' p j = true → needsEvent k p j = true := by
    unfold needsEvent
    simp only [hblock, hdirty, Bool.and_eq_true, isNone_iff_eq_none]
    rintro ⟨hrest, hnone⟩
    refine ⟨hrest, hmore.found _ ?_⟩
    rw [← lookUpHme_of_view hview]
    exact hnone
  unfold eventsNeeded
  cases hn : needsEvent k' p j with
  | false => simp
  | true => simp [himp hn]

/-- The events a commit of the whole working set asks for. -/
def commitEvents (k : Kernel) (p : ProcNr) : Nat :=
  ((follow k.workingSet workingSetSize (k.procs p).lus1Us2).map (eventsNeeded k p)).sum

theorem vmResetPram_hmeInv {endcmp : EndCmp} (hws : WsInv k) (h : HmeInv k)
    (hp : (k.procs p).inUse = true)
    (hroom : endcmp = .cpyRamPram → commitEvents k p + totalEvents k ≤ hardeningMemEventsSize)
    (hrun : vmResetPram k p endcmp = some k') : HmeInv k' := by
  obtain ⟨L, hws⟩ := hws
  unfold vmResetPram at hrun
  split_ifs at hrun
  · exact some.inj hrun ▸ h
  unfold forPmbs at hrun
  rw [(hws.chain hp).start_eq_head?] at hrun
  -- what is left to visit is an end part of the list, with room for its events
  refine (whileNext_inv (P := fun rest k1 => HmeInv k1 ∧ WsOk k1 L ∧ (k1.procs p).inUse = true ∧
      (∃ pre, L p = pre ++ rest) ∧
      (endcmp = .cpyRamPram →
        (rest.map (eventsNeeded k1 p)).sum + totalEvents k1 ≤ hardeningMemEventsSize))
    (fun i rest k1 k2 ⟨h1, hws1, hp1, ⟨pre, hpre⟩, hroom1⟩ hbody => ?_)
    ⟨h, hws, hp, ⟨[], rfl⟩, fun hc => ?_⟩ hrun).1
  · have hi : i ∈ L p := by rw [hpre]; simp
    have hsame := WsSame.resetTurn hbody
    have hws2 := hsame.wsOk hws1
    have hlive : (k2.procs p).inUse = true := by rw [hsame.inUse p]; exact hp1
    have hnext : k2.nextPmb i = rest.head? := hws2.owned.next_eq pre hpre
    -- a turn that leaves the events alone
    have hquiet (hview : hmeView k2 = hmeView k1) (hne : endcmp ≠ .cpyRamPram) :
        (HmeInv k2 ∧ WsOk k2 L ∧ (k2.procs p).inUse = true ∧ (∃ pre, L p = pre ++ rest) ∧
          (endcmp = .cpyRamPram →
            (rest.map (eventsNeeded k2 p)).sum + totalEvents k2 ≤ hardeningMemEventsSize)) ∧
          k2.nextPmb i = rest.head? :=
      ⟨⟨h1.of_view hview, hws2, hlive, ⟨pre ++ [i], by simp [hpre]⟩, fun hc => absurd hc hne⟩, hnext⟩
    unfold resetTurn at hbody
    split at hbody
    · exact hquiet (some.inj hbody ▸ hmeView_resetPmb p k1 i) (by simp)
    · exact hquiet (some.inj hbody ▸ hmeView_endFirstPmb p k1 i) (by simp)
    · have hroom2 := hroom1 rfl
      rw [map_cons, sum_cons] at hroom2
      obtain ⟨hmore, hle, hothers⟩ := commitPmb_events hws1 hi h1 hp1 (by omega) hbody
      refine ⟨⟨hmore.inv, hws2, hlive, ⟨pre ++ [i], by simp [hpre]⟩, fun _ => ?_⟩, hnext⟩
      have hsum : (rest.map (eventsNeeded k2 p)).sum ≤ (rest.map (eventsNeeded k1 p)).sum := by
        refine sum_le_sum (fun j hj => hothers j (by rw [hpre]; simp [hj]) ?_)
        rintro rfl
        have hnd := hws1.owned.nodup p
        rw [hpre, nodup_append] at hnd
        exact (nodup_cons.mp hnd.2.1).1 hj
      omega
    · exact hquiet (some.inj hbody ▸ hmeView_resetPmb p k1 i) (by simp)
    · simp at hbody
    obtain rfl := some.inj hbody
    refine ⟨⟨h1, hws2, hlive, ⟨pre ++ [i], by simp [hpre]⟩, fun hc => ?_⟩, hnext⟩
    have hroom2 := hroom1 hc
    rw [map_cons, sum_cons] at hroom2
    omega
  · have hroom' := hroom hc
    unfold commitEvents at hroom'
    rwa [(hws.chain hp).follow_eq] at hroom'

/-! ## Fork and clear -/

theorem setProc_hmeOk {q : ProcNr} {x : Proc} (h : HmeOk k M) (hnil : M q = [])
    (hx : x.inUse = true → x.hardeningMemEvents = none ∧ x.nbHardeningMemEvents = 0) :
    HmeOk (k.setProc q x) M where
  owned := by
    have hfirst : hmeFirst (k.setProc q x) = hmeFirst k := by
      funext r
      by_cases hr : r = q
      · subst hr
        have hhead := h.owned.first_eq r
        rw [hnil] at hhead
        rw [hhead]
        cases hu : x.inUse with
        | true => simp [hmeFirst, setProc, (hx hu).1]
        | false => simp [hmeFirst, setProc, hu]
      · simp [hmeFirst, setProc, hr]
    rw [hfirst]
    exact h.owned
  size r hr := by
    by_cases hrq : r = q
    · subst hrq
      simp only [setProc, update_self] at hr ⊢
      simp [(hx hr).2, hnil]
    · simp only [setProc, update_of_ne hrq] at hr ⊢
      exact h.size r hr

theorem doFork_hmeInv {rpp rpc : ProcNr} (h : HmeInv k) (hrun : doFork k rpp rpc = some k') :
    HmeInv k' := by
  unfold doFork at hrun
  split at hrun
  · exact some.inj hrun ▸ h
  rename_i huse
  simp only [Bool.or_eq_true, Bool.not_eq_eq_eq_not, Bool.not_true, not_or,
    Bool.not_eq_false, Bool.not_eq_true] at huse
  have h1 : HmeInv (k.setProc rpc (forkedProc k rpp rpc)) := by
    obtain ⟨M, h⟩ := h
    exact ⟨M, setProc_hmeOk h (h.dead huse.2) (fun _ => ⟨rfl, rfl⟩)⟩
  simp only at hrun
  split at hrun
  · exact h1.of_view (hmeView_setForkLabel hrun)
  · exact some.inj hrun ▸ h1

theorem doClear_spec (hws : WsOk k L) (hlive : (k.procs rc).inUse = true)
    (hrun : doClear k rc = some k') :
    k'.hardeningMemEvents = k.hardeningMemEvents ∧ (k'.procs rc).inUse = false ∧
      (∀ q, q ≠ rc → (k'.procs q).inUse = (k.procs q).inUse ∧
        (k'.procs q).hardeningMemEvents = (k.procs q).hardeningMemEvents ∧
        (k'.procs q).nbHardeningMemEvents = (k.procs q).nbHardeningMemEvents) ∧
      ((k.procs rc).procToHard = true → WsOk k' (update L rc []) ∧
        (∀ i ∈ L rc, free (k'.workingSet i) = true) ∧
        ∀ i, i ∉ L rc → free (k'.workingSet i) = free (k.workingSet i)) ∧
      ((k.procs rc).procToHard = false → k' = k.setProc rc { k.procs rc with inUse := false }) := by
  unfold doClear at hrun
  rw [hlive] at hrun
  simp only [Bool.not_true, Bool.false_eq_true, ↓reduceIte] at hrun
  cases hhard : (k.procs rc).procToHard with
  | false =>
    rw [hhard] at hrun
    simp only [Bool.false_eq_true, ↓reduceIte] at hrun
    obtain rfl := some.inj hrun
    exact ⟨rfl, by simp [Kernel.setProc], fun q hq => by simp [Kernel.setProc, hq], by simp,
      fun _ => rfl⟩
  | true =>
    rw [hhard] at hrun
    simp only [↓reduceIte] at hrun
    split at hrun
    · simp at hrun
    rename_i k1 hclear
    obtain rfl := some.inj hrun
    unfold clearHardened at hclear
    obtain ⟨k2, hfree, hws2, hlive2, hfreed, hkept⟩ := freePramMemBlocks_spec hws hlive
    rw [hfree] at hclear
    simp only at hclear
    split at hclear
    · simp at hclear
    rename_i k3 hhsrs
    obtain rfl := some.inj hclear
    have herase := eraseShared_freeHsrs hhsrs
    have hview := (hmeView_of_eraseShared herase).trans (hmeView_freePramMemBlocks hfree)
    have hws3 := (WsSame.of_eraseShared herase).wsOk hws2
    have htable := congrArg Kernel.workingSet herase
    change k3.workingSet = k2.workingSet at htable
    obtain ⟨hevents, hprocs⟩ := Prod.mk.inj hview
    refine ⟨hevents, by simp [Kernel.setProc], fun q hq => ?_, fun _ => ⟨?_, ?_, ?_⟩, by simp⟩
    · have hpair := congrFun hprocs q
      simp only [Prod.mk.injEq] at hpair
      simpa [Kernel.setProc, hq] using hpair
    · have hdead := setProc_dead_wsOk
        (x := { resetHardeningAttri (k3.procs rc) with inUse := false }) hws3
        (update_self _ _ _) rfl
      simpa [Kernel.setProc] using hdead
    · exact fun i hi => by simpa [Kernel.setProc, htable] using hfreed i hi
    · exact fun i hi => by simpa [Kernel.setProc, htable] using hkept i hi

theorem doClear_hmeOk (hws : WsOk k L) (h : HmeOk k M)
    (hlive : (k.procs rc).inUse = true) (hnone : (k.procs rc).nbHardeningMemEvents = 0)
    (hrun : doClear k rc = some k') : HmeOk k' M := by
  obtain ⟨hevents, hdead, hothers, -, -⟩ := doClear_spec hws hlive hrun
  have hnil : M rc = [] := length_eq_zero_iff.mp (by rw [← h.size rc hlive, hnone])
  refine ⟨?_, fun q hq => ?_⟩
  · have hfirst : hmeFirst k' = hmeFirst k := by
      funext q
      by_cases hq : q = rc
      · subst hq
        have hhead := h.owned.first_eq q
        rw [hnil] at hhead
        rw [hhead]
        simp [hmeFirst, hdead]
      · simp [hmeFirst, hothers q hq]
    rw [hfirst, hevents]
    exact h.owned
  have hne : q ≠ rc := by
    rintro rfl
    rw [hdead] at hq
    exact absurd hq (by simp)
  rw [(hothers q hne).2.2]
  exact h.size q (by rw [← (hothers q hne).1]; exact hq)

theorem doClear_hmeInv (hws : WsInv k) (h : HmeInv k) (hrun : doClear k rc = some k')
    (hgood : (k.procs rc).inUse = true → (k.procs rc).nbHardeningMemEvents = 0) : HmeInv k' := by
  cases hlive : (k.procs rc).inUse with
  | false =>
    unfold doClear at hrun
    rw [hlive] at hrun
    exact some.inj hrun ▸ h
  | true =>
    obtain ⟨L, hws⟩ := hws
    obtain ⟨M, h⟩ := h
    exact ⟨M, doClear_hmeOk hws h hlive (hgood hlive) hrun⟩

/-! ## Runs -/

/-- There is room for its blocks and events, and a process that is cleared is hardened or has no
blocks, and no events. -/
def LifeGood (k : Kernel) : Op → Prop
  | .addRegionToWs p raddr rlength _ _ =>
    missing k p (pagesCovered raddr rlength) + totalSize k ≤ workingSetSize
  | .clear rc => (k.procs rc).inUse = true →
    ((k.procs rc).procToHard = true ∨ (k.procs rc).lus1Us2Size = 0) ∧
      (k.procs rc).nbHardeningMemEvents = 0
  | .hmeEvent p offset _ => (k.procs p).inUse = true →
    eventsWith k p offset ≤ hardeningMemEventsSize
  | .resetPram p _ .cpyRamPram => (k.procs p).inUse = true →
    commitEvents k p + totalEvents k ≤ hardeningMemEventsSize
  | _ => True

theorem initial_hmeInv (h : Initial k) : HmeInv k := by
  refine ⟨fun _ => [], ⟨⟨fun p => ?_, by simp, by simp, fun i hi _ => ?_⟩, fun p _ => ?_⟩⟩
  · have hfirst : hmeFirst k p = none := by simp [hmeFirst, (h.events p).1]
    rw [hfirst]
    exact .nil
  · rw [h.hardeningMemEvents]
    have hlt : i.val < hardeningMemEventsSize - 1 := by omega
    simp only [Pool.initTable, hlt, ↓reduceIte]
    exact hmePool.free_init _
  · exact (h.events p).2

theorem setPeMemToRo_hmeInv (h : HmeInv k) (hp : (k.procs p).inUse = true)
    (hrun : setPeMemToRo k p = some k') : HmeInv k' := by
  unfold setPeMemToRo at hrun
  split_ifs at hrun
  · exact some.inj hrun ▸ h
  all_goals
    split at hrun
    · simp at hrun
    rename_i k1 hevents
    have h1 : HmeInv k1 := by
      first
        | exact some.inj hevents ▸ h
        | (split at hevents
           · simp at hevents
           rename_i k2 hhandle
           have hview := hmeView_handleHmeEvents hhandle
           obtain ⟨M, h2⟩ := h.of_view hview
           obtain ⟨k3, hfree, h3⟩ := freeHardeningMemEvents_spec (p := p) h2
             (by rw [inUse_of_view hview]; exact hp)
           rw [hfree] at hevents
           exact some.inj hevents ▸ ⟨_, h3⟩)
    refine h1.of_view (whileNext_rel (R := fun k1 k2 : Kernel => hmeView k2 = hmeView k1)
      (fun _ => rfl) (fun _ _ _ h1 h2 => h2.trans h1) (fun _ _ _ => hmeView_setPmbToRo) hrun)

theorem run_hmeInv {op : Op} (hws : WsInv k) (h : HmeInv k) (hgood : LifeGood k op)
    (hrun : op.run k = some k') : HmeInv k' := by
  -- what a request does to a process that is not in use
  have live {p : ProcNr} {o : Option Kernel} (hrun : onLive k p o = some k')
      (ho : (k.procs p).inUse = true → o = some k' → HmeInv k') : HmeInv k' := by
    unfold onLive at hrun
    split at hrun
    · exact ho ‹_› hrun
    · exact some.inj hrun ▸ h
  have hstep : ∀ step, hmeView { k with hStep := step } = hmeView k := fun _ => rfl
  cases op with
  | addRegionToWs p raddr rlength us1 us2 =>
    simp only [Op.run, doAddregiontoWs] at hrun
    split at hrun
    · exact h.of_view (foldlM_inv (I := fun k1 => hmeView k1 = hmeView k)
        (fun v _ k1 k2 h1 hv => (hmeView_addPageToWs hv).trans h1) rfl hrun)
    · exact some.inj hrun ▸ h
  | freePramMemBlock p vaddr =>
    exact live hrun (fun _ ho => some.inj ho ▸ h.of_view (hmeView_freePramMemBlock k p vaddr))
  | freePmbs p raddr len =>
    obtain rfl := some.inj hrun
    unfold doFreePmbs
    split
    · exact h.of_view (hmeView_freePramMemBlockVaddr k p raddr len)
    · exact h
  | exec p =>
    simp only [Op.run, doExec] at hrun
    split at hrun
    · exact h.of_view (hmeView_freePramMemBlocks hrun)
    · exact some.inj hrun ▸ h
  | setPeMemToRo p step =>
    exact live hrun (fun hp ho => setPeMemToRo_hmeInv (h.of_view (hstep step)) hp ho)
  | setForkLabel p => exact live hrun (fun _ ho => h.of_view (hmeView_setForkLabel ho))
  | fork rpp rpc => exact doFork_hmeInv h hrun
  | clear rc => exact doClear_hmeInv hws h hrun (fun hlive => (hgood hlive).2)
  | hardeningPid hp enable =>
    obtain rfl := some.inj hrun
    unfold doHardeningPid
    split
    · exact h.of_view (hmeView_setProc k hp rfl rfl rfl)
    · exact h
  | hardeningAllF enable =>
    obtain rfl := some.inj hrun
    exact h.of_view (k := k) rfl
  | hmeEvent p offset size =>
    refine live hrun (fun hp ho => ?_)
    obtain ⟨k1, hadd, hinv, -⟩ := addHmeEvent_spec h hp (hgood hp) size
    rw [hadd] at ho
    exact some.inj ho ▸ hinv
  | shareRegion p offset size rId =>
    simp only [Op.run, doHmemMapShared] at hrun
    split at hrun
    · split at hrun
      · simp at hrun
      rename_i k1 hadd
      obtain rfl := some.inj hrun
      have h1 := h.of_view (hmeView_of_eraseShared (eraseShared_addHsr hadd))
      refine h1.of_view ?_
      exact hmeView_setProc k1 p rfl rfl rfl
    · exact some.inj hrun ▸ h
  | checkVaddr p step vaddr =>
    refine live hrun (fun _ ho => ?_)
    obtain ⟨⟨k1, r⟩, hcheck, rfl⟩ := map_eq_some_iff.mp ho
    exact h.of_view ((hmeView_checkVaddr2 hcheck).trans (hstep step))
  | hmemMap p step =>
    exact live hrun (fun _ ho => h.of_view ((hmeView_vmHpagefault ho).trans (hstep step)))
  | resetPram p step endcmp =>
    refine live hrun (fun hp ho => ?_)
    have hsame : WsSame k { k with hStep := step } := WsSame.of_procs rfl (fun _ => ⟨rfl, rfl, rfl⟩)
    refine vmResetPram_hmeInv (hsame.wsInv hws) (h.of_view (hstep step)) hp (fun hc => ?_) ho
    subst hc
    exact hgood hp
  | cmpMem p =>
    refine live hrun (fun _ ho => ?_)
    obtain ⟨⟨k1, r⟩, hcmp, rfl⟩ := map_eq_some_iff.mp ho
    exact h.of_view (hmeView_cmpMem hcmp)
  | pageTable p pt =>
    obtain rfl := some.inj hrun
    refine h.of_view ?_
    exact hmeView_setProc k p rfl rfl rfl
  | memory mem =>
    obtain rfl := some.inj hrun
    exact h.of_view (k := k) rfl

theorem LifeGood.wsGood {op : Op} (h : LifeGood k op) : WsGood k op ∨ ∃ rc, op = .clear rc := by
  cases op <;> first | exact .inr ⟨_, rfl⟩ | exact .inl h | exact .inl trivial

theorem reachable_lists (h : Reachable LifeGood k) : WsInv k ∧ HmeInv k := by
  refine h.invariant (I := fun k => WsInv k ∧ HmeInv k) (fun k hk => ⟨initial_wsInv hk, initial_hmeInv hk⟩)
    (fun k op k' ⟨hws, hhme⟩ hgood hrun => ⟨?_, run_hmeInv hws hhme hgood hrun⟩)
  rcases hgood.wsGood with hws' | ⟨rc, rfl⟩
  · exact run_wsInv hws hws' hrun
  refine doClear_wsInv hws hrun (fun hlive hsoft => ?_)
  rcases (hgood hlive).1 with hhard | hempty
  · rw [hhard] at hsoft
    exact absurd hsoft (by simp)
  · exact hempty

/-! ## What a clear gives back -/

/-- Everything `p` had in `k` is free in `k'`, and in both tables free and listed slots make up the
table. -/
structure Released (k : Kernel) (p : ProcNr) (k' : Kernel) : Prop where
  blocks : ∀ i ∈ liveBlocks k p, (k'.workingSet i).flags.slotFree = true
  events : ∀ i ∈ liveEvents k p, (k'.hardeningMemEvents i).slotFree = true
  freeBlocks : freeCount k'.workingSet + ∑ q, (liveBlocks k' q).length = workingSetSize
  freeEvents :
    freeCount k'.hardeningMemEvents + ∑ q, (liveEvents k' q).length = hardeningMemEventsSize

/-- The process is hardened or has no blocks, it has no events, and the last slot of each table has
been handed out. -/
structure Releasable (k : Kernel) (p : ProcNr) : Prop where
  hardened : (k.procs p).procToHard = true ∨ (k.procs p).lus1Us2Size = 0
  noEvents : (k.procs p).nbHardeningMemEvents = 0
  lastBlock : LastKnown k.workingSet (liveBlocks k)
  lastEvent : LastKnown k.hardeningMemEvents (liveEvents k)

theorem doClear_blocks (hws : WsOk k L) (hlive : (k.procs rc).inUse = true)
    (hrun : doClear k rc = some k') :
    ((∀ i ∈ L rc, free (k'.workingSet i) = true) ↔
      (k.procs rc).procToHard = true ∨ (k.procs rc).lus1Us2Size = 0) ∧
    ((k.procs rc).procToHard = true ∨ (k.procs rc).lus1Us2Size = 0 → WsOk k' (update L rc []) ∧
      (LastKnown k'.workingSet (update L rc []) ↔ LastKnown k.workingSet L)) := by
  obtain ⟨-, hdead, -, hhard, hsoft⟩ := doClear_spec hws hlive hrun
  cases hto : (k.procs rc).procToHard with
  | true =>
    obtain ⟨hok, hfreed, hkept⟩ := hhard hto
    exact ⟨⟨fun _ => .inl rfl, fun _ => hfreed⟩, fun _ => ⟨hok, Owned.lastKnown_release hfreed hkept⟩⟩
  | false =>
    obtain rfl := hsoft hto
    have hempty : (k.procs rc).lus1Us2Size = 0 ↔ L rc = [] := by
      rw [hws.size rc hlive, length_eq_zero_iff]
    simp only [Bool.false_eq_true, false_or, hempty]
    refine ⟨⟨fun hfree => ?_, fun hnil => by simp [hnil]⟩, fun hnil => ?_⟩
    · rw [eq_nil_iff_forall_not_mem]
      intro i hi
      have hused := hws.owned.used rc i hi
      rw [← Bool.not_eq_true] at hused
      exact hused (hfree i hi)
    · rw [← hnil, update_eq_self]
      exact ⟨setProc_dead_wsOk hws hnil rfl, Iff.rfl⟩

theorem doClear_events (hws : WsOk k L) (h : HmeOk k M)
    (hlive : (k.procs rc).inUse = true) (hrun : doClear k rc = some k') :
    (∀ i ∈ M rc, free (k'.hardeningMemEvents i) = true) ↔
      (k.procs rc).nbHardeningMemEvents = 0 := by
  rw [(doClear_spec hws hlive hrun).1, h.size rc hlive, length_eq_zero_iff]
  refine ⟨fun hfree => ?_, fun hnil => by simp [hnil]⟩
  rw [eq_nil_iff_forall_not_mem]
  intro i hi
  have hused := h.owned.used rc i hi
  rw [← Bool.not_eq_true] at hused
  exact hused (hfree i hi)

/-- In a run of good requests, clearing frees what the process had exactly if it is hardened or has
no blocks, and has no events; the free slots add up exactly if the last slots have been handed out.
-/
theorem doClear_released_iff (h : Reachable LifeGood k) (hlive : (k.procs p).inUse = true)
    (hrun : doClear k p = some k') :
    ((∀ i ∈ liveBlocks k p, (k'.workingSet i).flags.slotFree = true) ∧
        (∀ i ∈ liveEvents k p, (k'.hardeningMemEvents i).slotFree = true) ↔
      ((k.procs p).procToHard = true ∨ (k.procs p).lus1Us2Size = 0) ∧
        (k.procs p).nbHardeningMemEvents = 0) ∧
    (Released k p k' ↔ Releasable k p) := by
  obtain ⟨⟨L, hws⟩, M, hhme⟩ := reachable_lists h
  obtain ⟨hblocks, hleft⟩ := doClear_blocks hws hlive hrun
  have hevents := doClear_events hws hhme hlive hrun
  have htable := (doClear_spec hws hlive hrun).1
  rw [← hws.liveBlocks_eq] at hblocks
  rw [← hhme.liveEvents_eq] at hevents
  refine ⟨and_congr hblocks hevents, fun hrel => ?_, fun hcond => ?_⟩
  · have hhard := hblocks.mp hrel.blocks
    have hnone := hevents.mp hrel.events
    obtain ⟨hws', hlast⟩ := hleft hhard
    have hhme' := doClear_hmeOk hws hhme hlive hnone hrun
    refine ⟨hhard, hnone, ?_, ?_⟩
    · rw [hws.liveBlocks_eq, ← hlast, ← hws'.owned.freeCount_add_length_eq_iff (by decide)]
      simpa only [hws'.liveBlocks_eq] using hrel.freeBlocks
    · rw [hhme.liveEvents_eq, ← htable, ← hhme'.owned.freeCount_add_length_eq_iff (by decide)]
      simpa only [hhme'.liveEvents_eq] using hrel.freeEvents
  obtain ⟨hws', hlast⟩ := hleft hcond.hardened
  have hhme' := doClear_hmeOk hws hhme hlive hcond.noEvents hrun
  refine ⟨hblocks.mpr hcond.hardened, hevents.mpr hcond.noEvents, ?_, ?_⟩
  · rw [hws'.liveBlocks_eq, hws'.owned.freeCount_add_length_eq_iff (by decide), hlast,
      ← hws.liveBlocks_eq]
    exact hcond.lastBlock
  · rw [hhme'.liveEvents_eq, hhme'.owned.freeCount_add_length_eq_iff (by decide), htable,
      ← hhme.liveEvents_eq]
    exact hcond.lastEvent

/-- A process is hardened, gets a block and is cleared: the block is free again. -/
theorem doClear_released_hardened_exit : ∃ k k', runAll bootKernel [.hardeningPid 15 true,
        .addRegionToWs 15 4096 1 (some 7) (some 8)] = some k ∧
      doClear k 15 = some k' ∧ 0 ∈ liveBlocks k 15 ∧
      ∀ i ∈ liveBlocks k 15, (k'.workingSet i).flags.slotFree = true := by
  refine ⟨_, _, rfl, rfl, mem_of_mem_head? (by exact rfl),
    ((doClear_released_iff (p := 15) ?_ rfl rfl).1.mpr ⟨.inl rfl, rfl⟩).1⟩
  exact .step (.addRegionToWs 15 4096 1 (some 7) (some 8))
    (.step (.hardeningPid 15 true) (.init bootKernel_initial) trivial rfl)
    room_after_boot rfl

/-- A hardened process is cleared while it has an event: the entry is never freed. -/
theorem clear_leaks_event : ¬ ∀ k p k', Reachable (fun _ _ => True) k → (k.procs p).inUse = true →
      doClear k p = some k' → Released k p k' := by
  intro hall
  obtain ⟨k, k', hrun, hlive, hclear, hon, hused⟩ :
      ∃ k k', runAll bootKernel [.hardeningPid 15 true, .hmeEvent 15 4096 36] = some k ∧
        (k.procs 15).inUse = true ∧ doClear k 15 = some k' ∧ 0 ∈ liveEvents k 15 ∧
        (k'.hardeningMemEvents 0).slotFree = false := by
    exact ⟨_, _, rfl, rfl, rfl, mem_of_mem_head? (by exact rfl), rfl⟩
  have hfree := (hall k 15 k' (Reachable.runAll (.init bootKernel_initial) hrun) hlive
    hclear).events 0 hon
  rw [hused] at hfree
  exact absurd hfree (by simp)

end HardenedMinix
