import HardenedMinix.Kernel.Representation

/-!
# The representation along runs

Every request keeps the lists well formed, as long as new blocks fit in the table and a
process is not cleared with blocks on its list and its hardened flag gone.
-/

open Option

namespace HardenedMinix

open Lib Linked WsSame

variable {k k' : Kernel} {L : ProcNr → List (Fin workingSetSize)} {p : ProcNr}

def WsInv (k : Kernel) : Prop := ∃ L, WsOk k L

theorem WsSame.wsInv (hsame : WsSame k k') : WsInv k → WsInv k' := fun ⟨L, h⟩ => ⟨L, hsame.wsOk h⟩

theorem forPmbs_inv {body : Kernel → Fin workingSetSize → Option Kernel} {I : Kernel → Prop}
    (h : WsOk k L) (hI : I k) (hp : (k.procs p).inUse = true)
    (hstep : ∀ k₁ i k₂, I k₁ → WsOk k₁ L → i ∈ L p → body k₁ i = some k₂ → I k₂ ∧ WsOk k₂ L)
    (hrun : k.forPmbs p body = some k') : I k' ∧ WsOk k' L := by
  have hfirst := (h.chain hp).start_eq_head?
  unfold Kernel.forPmbs at hrun
  rw [hfirst] at hrun
  -- the invariant of the walk: the lists are `L`, and what is left is an end part of `L p`
  have hend := whileNext_inv
    (P := fun rest k₁ => (I k₁ ∧ WsOk k₁ L) ∧ ∃ pre, L p = pre ++ rest)
    (fun i rest k₁ k₂ ⟨⟨hI1, h1⟩, pre, hpre⟩ hbody => by
      have hi : i ∈ L p := by rw [hpre]; simp
      obtain ⟨hI2, h2⟩ := hstep k₁ i k₂ hI1 h1 hi hbody
      refine ⟨⟨⟨hI2, h2⟩, pre ++ [i], by simp [hpre]⟩, ?_⟩
      exact h2.owned.next_eq _ hpre)
    ⟨⟨hI, h⟩, [], rfl⟩ hrun
  exact hend.1

/-! ## Freeing -/

theorem inUse_freePramMemBlock (k : Kernel) (p q : ProcNr) (v : VirBytes) :
    ((freePramMemBlock k p v).procs q).inUse = (k.procs q).inUse := by
  unfold freePramMemBlock
  split
  · rfl
  split
  · rfl
  · by_cases hq : q = p
    · subst hq
      simp [Kernel.setWs]
    · simp [Kernel.setWs, hq]

theorem freePramMemBlock_wsInv (v : VirBytes) (hp : (k.procs p).inUse = true) (h : WsInv k) :
    WsInv (freePramMemBlock k p v) := by
  obtain ⟨L, h⟩ := h
  rcases freePramMemBlock_spec h hp v with ⟨heq, -⟩ | ⟨pre, i, suf, -, -, h', -, -⟩
  · rw [heq]
    exact ⟨L, h⟩
  · exact ⟨_, h'⟩

theorem freePramMemBlockVaddr_wsInv (raddr len : Nat) (hp : (k.procs p).inUse = true)
    (h : WsInv k) : WsInv (freePramMemBlockVaddr k p raddr len) := by
  unfold freePramMemBlockVaddr
  split
  · exact h
  refine (foldl_inv (I := fun k1 : Kernel => (k1.procs p).inUse = true ∧ WsInv k1)
    (fun v _ k1 ⟨hp1, h1⟩ => ?_) ⟨hp, h⟩).2
  unfold freePage
  split
  · exact ⟨hp1, h1⟩
  · exact ⟨by rw [inUse_freePramMemBlock]; exact hp1, freePramMemBlock_wsInv _ hp1 h1⟩

theorem freePramMemBlocks_wsInv {fromExec : Bool} (hp : (k.procs p).inUse = true) (h : WsInv k)
    (hrun : freePramMemBlocks k p fromExec = some k') :
    (∀ q, (k'.procs q).inUse = (k.procs q).inUse) ∧ WsInv k' := by
  unfold freePramMemBlocks at hrun
  split_ifs at hrun
  · obtain rfl := some.inj hrun
    exact ⟨fun _ => rfl, h⟩
  split at hrun
  · simp at hrun
  rename_i k1 hloop
  -- each turn frees at most one block of the live process `p`
  have hturns := whileNext_rel
    (R := fun (k1 k2 : Kernel) => (∀ q, (k2.procs q).inUse = (k1.procs q).inUse) ∧
      ((k1.procs p).inUse = true → WsInv k1 → WsInv k2))
    (fun _ => ⟨fun _ => rfl, fun _ h => h⟩)
    (fun _ _ _ h1 h2 => ⟨fun q => (h2.1 q).trans (h1.1 q),
      fun hp h => h2.2 (by rw [h1.1 p]; exact hp) (h1.2 hp h)⟩)
    (fun k1 i k2 hbody => by
      split_ifs at hbody
      · obtain rfl := some.inj hbody
        exact ⟨fun _ => rfl, fun _ h => h⟩
      · obtain rfl := some.inj hbody
        exact ⟨fun q => inUse_freePramMemBlock _ _ _ _, fun hp h => freePramMemBlock_wsInv _ hp h⟩)
    hloop
  split_ifs at hrun
  obtain rfl := some.inj hrun
  exact ⟨hturns.1, hturns.2 hp h⟩

theorem freePramMemBlocks_empty (hrun : freePramMemBlocks k p false = some k')
    (hinv : WsInv k) (hp : (k.procs p).inUse = true) :
    (k'.procs p).lus1Us2Size = 0 ∧ (k'.procs p).lus1Us2 = none := by
  obtain ⟨L, h⟩ := hinv
  unfold freePramMemBlocks at hrun
  split_ifs at hrun with hsize
  · obtain rfl := some.inj hrun
    have hlen := h.size p hp
    have hnil : L p = [] := List.length_eq_zero_iff.mp (by omega)
    have hc := h.chain hp
    rw [hnil] at hc
    exact ⟨by omega, hc.eq_none_of_nil⟩
  split at hrun
  · simp at hrun
  · split_ifs at hrun with hend
    obtain rfl := some.inj hrun
    simpa using hend

theorem setForkLabel_wsInv (hp : (k.procs p).inUse = true) (h : WsInv k)
    (hrun : setForkLabel k p = some k') : WsInv k' := by
  obtain ⟨L, h⟩ := h
  unfold setForkLabel at hrun
  split_ifs at hrun
  · obtain rfl := some.inj hrun
    exact ⟨L, h⟩
  refine ⟨L, (forPmbs_inv (I := fun _ => True) h trivial hp (fun k1 i k2 _ h1 hi hbody => ?_)
    hrun).2⟩
  obtain rfl := some.inj hbody
  have hused : (k1.workingSet i).flags.slotFree = false := h1.owned.used p i hi
  refine ⟨trivial, (setPmb (b := { k1.workingSet i with
    iflags := (k1.workingSet i).flags
    flags := { PmbFlags.zero with hFork := true } }) k1 i rfl ?_ rfl ?_).wsOk h1⟩
  · rw [hused]
    rfl
  · exact fun _ _ => hused

/-! ## Start of a run -/

variable {v : VirBytes} {i : Fin workingSetSize}

theorem WsSame.updateWsUs1Us2DataVaddr {rp : ProcNr}
    (hrun : updateWsUs1Us2DataVaddr rp k v = some k') : WsSame k k' := by
  unfold HardenedMinix.updateWsUs1Us2DataVaddr at hrun
  split at hrun
  · simp at hrun
  rename_i i _
  simp only at hrun
  split_ifs at hrun
  · obtain rfl := some.inj hrun
    exact refl _
  split at hrun
  · obtain rfl := some.inj hrun
    rename_i us0 us1 us2 _ _ _
    refine (cpyFrames k us0 us1).trans ((cpyFrames _ us0 us2).trans ?_)
    exact setPmb _ i rfl rfl rfl (fun h => h)
  · obtain rfl := some.inj hrun
    exact refl _

theorem WsSame.handleHmeEvents {rp : ProcNr} (hrun : handleHmeEvents k rp = some k') :
    WsSame k k' := by
  unfold HardenedMinix.handleHmeEvents at hrun
  split_ifs at hrun
  · obtain rfl := some.inj hrun
    exact refl _
  · refine whileNext_rel (R := WsSame) refl
      (fun _ _ _ => trans) (fun k1 i k2 hbody => ?_) hrun
    exact foldlM_inv (I := WsSame k1)
      (fun v _ k2 k3 h2 hv => h2.trans (WsSame.updateWsUs1Us2DataVaddr hv)) (refl k1) hbody

theorem WsSame.markShared (k : Kernel) (p : ProcNr) (i : Fin workingSetSize) :
    WsSame k (markShared k p i) := by
  unfold HardenedMinix.markShared
  simp only
  split
  · exact setPmb _ i rfl rfl rfl (fun h => h)
  · exact refl k

theorem WsSame.updatePrivate (hrun : updatePrivate k i = some k') : WsSame k k' := by
  unfold HardenedMinix.updatePrivate at hrun
  simp only at hrun
  split at hrun
  · split at hrun
    · simp at hrun
    · rename_i us1 us2 _ _ _ _ us0 _
      obtain rfl := some.inj hrun
      refine (cpyFrames k us0 us1).trans ((cpyFrames _ us0 us2).trans ?_)
      exact setPmb _ i rfl rfl rfl (fun h => h)
  · obtain rfl := some.inj hrun
    exact refl k

theorem setPmbToRo_wsInv (hp : (k.procs p).inUse = true) (h : WsInv k)
    (hrun : setPmbToRo p k i = some k') : (k'.procs p).inUse = true ∧ WsInv k' := by
  unfold setPmbToRo at hrun
  simp only at hrun
  split_ifs at hrun
  · obtain rfl := some.inj hrun
    exact ⟨hp, h⟩
  split at hrun
  · simp at hrun
  rename_i k1 hup
  have hsame := (WsSame.markShared k p i).trans (WsSame.updatePrivate hup)
  have hp1 : (k1.procs p).inUse = true := by rw [hsame.inUse p]; exact hp
  have h1 := hsame.wsInv h
  split_ifs at hrun
  · obtain rfl := some.inj hrun
    exact ⟨by rw [inUse_freePramMemBlock]; exact hp1, freePramMemBlock_wsInv _ hp1 h1⟩
  · obtain rfl := some.inj hrun
    have hpte := WsSame.setPte k1 p (k.workingSet i).vaddr
      (roPte k1.hStep (k1.workingSet i) (k.getPte p (k.workingSet i).vaddr))
    exact ⟨by rw [hpte.inUse p]; exact hp1, hpte.wsInv h1⟩

theorem setPeMemToRo_wsInv (hp : (k.procs p).inUse = true) (h : WsInv k)
    (hrun : setPeMemToRo k p = some k') : WsInv k' := by
  unfold setPeMemToRo at hrun
  split_ifs at hrun with hsize hstep
  · obtain rfl := some.inj hrun
    exact h
  all_goals
    split at hrun
    · simp at hrun
    rename_i k1 hevents
    have hsame : WsSame k k1 := by
      first
        | (obtain rfl := some.inj hevents
           exact refl _)
        | (split at hevents
           · simp at hevents
           · rename_i hhandle
             exact (WsSame.handleHmeEvents hhandle).trans
               (of_eraseHmes (eraseHmes_freeHardeningMemEvents hevents)))
    have hturns := whileNext_rel
      (R := fun (k1 k2 : Kernel) => (k1.procs p).inUse = true → WsInv k1 →
        (k2.procs p).inUse = true ∧ WsInv k2)
      (fun _ hp h => ⟨hp, h⟩)
      (fun _ _ _ h1 h2 hp h => h2 (h1 hp h).1 (h1 hp h).2)
      (fun k1 i k2 hbody hp h => setPmbToRo_wsInv hp h hbody) hrun
    exact (hturns (by rw [hsame.inUse p]; exact hp) (hsame.wsInv h)).2

/-! ## Faults, end of a run, comparison -/

theorem WsSame.recordFault (k : Kernel) (v : VirBytes) : WsSame k (k.recordFault v) := by
  unfold Kernel.recordFault
  split <;> exact WsSame.of_procs rfl (fun _ => ⟨rfl, rfl, rfl⟩)

@[simp] theorem PmbFlags.fault_slotFree (step : HStep) (f : PmbFlags) :
    (f.fault step).slotFree = f.slotFree := by
  unfold PmbFlags.fault
  split <;> rfl

@[simp] theorem PmbFlags.fault_hFork (step : HStep) (f : PmbFlags) :
    (f.fault step).hFork = f.hFork := by
  unfold PmbFlags.fault
  split <;> rfl

@[simp] theorem PmbFlags.fault_hExec (step : HStep) (f : PmbFlags) :
    (f.fault step).hExec = f.hExec := by
  unfold PmbFlags.fault
  split <;> rfl

theorem WsSame.faultPmb {r : PfResult} (hrun : faultPmb k p v i = some (k', r)) : WsSame k k' := by
  unfold HardenedMinix.faultPmb at hrun
  simp only at hrun
  split at hrun
  · split_ifs at hrun
    · obtain ⟨rfl, -⟩ := Prod.mk.inj (some.inj hrun)
      exact WsSame.refl _
    all_goals
      obtain ⟨rfl, -⟩ := Prod.mk.inj (some.inj hrun)
      refine (WsSame.setPte k p v _).trans (WsSame.setPmb _ i rfl ?_ rfl ?_)
      · simp [Kernel.setPte, Kernel.setProc]
      · simp [IflagsOk, Kernel.setPte, Kernel.setProc]
  split_ifs at hrun
  obtain ⟨rfl, -⟩ := Prod.mk.inj (some.inj hrun)
  refine WsSame.setPmb _ i rfl ?_ rfl ?_
  · simp
  · simp [IflagsOk]

theorem WsSame.checkVaddr2 {r : PfResult}
    (hrun : checkVaddr2 k p v = some (k', r)) : WsSame k k' := by
  refine (recordFault k v).trans ?_
  unfold HardenedMinix.checkVaddr2 at hrun
  simp only at hrun
  split_ifs at hrun
  · obtain ⟨rfl, -⟩ := Prod.mk.inj (some.inj hrun)
    exact refl _
  · split at hrun
    · obtain ⟨rfl, -⟩ := Prod.mk.inj (some.inj hrun)
      exact refl _
    · exact WsSame.faultPmb hrun

theorem WsSame.vmHpagefault (hrun : vmHpagefault k p = some k') : WsSame k k' := by
  unfold HardenedMinix.vmHpagefault at hrun
  split at hrun
  · rename_i new rest i _ _
    obtain rfl := some.inj hrun
    have hmem : WsSame k ({ k with freeMem := rest }.cpyFrames (frameOr (k.workingSet i).us0)
        (runFrame k.hStep (k.workingSet i) new)) :=
      of_procs rfl (fun _ => ⟨rfl, rfl, rfl⟩)
    refine hmem.trans (trans ?_ (setPte _ p _ _))
    unfold withRunFrame
    split <;> exact setPmb _ i rfl rfl rfl (fun h => h)
  · simp at hrun

theorem WsSame.cpyTo (k : Kernel) (f : Frame) (g : Option Frame) : WsSame k (k.cpyTo f g) := by
  unfold Kernel.cpyTo
  split
  · exact WsSame.cpyFrames _ _ _
  · exact WsSame.refl _

theorem WsSame.resetPmb (p : ProcNr) (k : Kernel) (i : Fin workingSetSize) :
    WsSame k (resetPmb p k i) := by
  have hflags : WsSame k (k.setPmb i
      { k.workingSet i with flags := (k.workingSet i).flags.clearRun }) :=
    setPmb _ i rfl rfl rfl (fun h => h)
  unfold HardenedMinix.resetPmb
  simp only
  split
  · exact hflags
  · split_ifs
    · exact hflags
    · exact hflags.trans ((cpyTo _ _ _).trans
        ((cpyTo _ _ _).trans (setPte _ _ _ _)))

theorem WsSame.endFirstPmb (p : ProcNr) (k : Kernel) (i : Fin workingSetSize) :
    WsSame k (endFirstPmb p k i) := by
  unfold HardenedMinix.endFirstPmb
  simp only
  split
  · exact (setPte k p _ _).trans (setPmb _ i rfl rfl rfl (fun h => h))
  · exact refl k

theorem WsSame.commitFrame {e : Pte} (hrun : commitFrame p k i = some (k', e)) : WsSame k k' := by
  unfold HardenedMinix.commitFrame at hrun
  simp only at hrun
  split at hrun
  · rename_i us2 us0 _ _ _
    have hcopy := (cpyFrames k us2 us0).trans
      (setPmb (b := { k.workingSet i with
        flags := { (k.workingSet i).flags with
          iwsPfSecond := (k.workingSet i).flags.iwsPfSecond ||
            ((k.workingSet i).flags.iwsModKernel && (k.getPte p (k.workingSet i).vaddr).dirty)
          hgetPf := false } }) _ i rfl rfl rfl (fun h => h))
    split at hrun
    · simp at hrun
    rename_i k1 hev
    obtain ⟨rfl, -⟩ := Prod.mk.inj (some.inj hrun)
    refine hcopy.trans ?_
    split_ifs at hev
    · exact of_eraseHmes (eraseHmes_enableHmeEventInProcs hev)
    · rw [← some.inj hev]
      exact refl _
  · obtain ⟨rfl, -⟩ := Prod.mk.inj (some.inj hrun)
    exact refl _

theorem WsSame.commitPmb (hrun : commitPmb p k i = some k') : WsSame k k' := by
  unfold HardenedMinix.commitPmb at hrun
  split at hrun
  · simp at hrun
  · rename_i k1 e hframe
    obtain rfl := some.inj hrun
    exact (WsSame.commitFrame hframe).trans
      ((setPte k1 p _ _).trans (setPmb _ i rfl rfl rfl (fun h => h)))

theorem WsSame.resetTurn {endcmp : EndCmp}
    (hrun : resetTurn p endcmp k i = some k') : WsSame k k' := by
  unfold HardenedMinix.resetTurn at hrun
  split at hrun
  · exact some.inj hrun ▸ WsSame.resetPmb p k i
  · exact some.inj hrun ▸ WsSame.endFirstPmb p k i
  · exact WsSame.commitPmb hrun
  · exact some.inj hrun ▸ WsSame.resetPmb p k i
  · simp at hrun
  · exact some.inj hrun ▸ refl k

theorem WsSame.vmResetPram {endcmp : EndCmp} (hrun : vmResetPram k p endcmp = some k') :
    WsSame k k' := by
  unfold HardenedMinix.vmResetPram at hrun
  split_ifs at hrun
  · obtain rfl := some.inj hrun
    exact refl _
  · exact whileNext_rel (R := WsSame) refl (fun _ _ _ => trans)
      (fun k1 i k2 hbody => WsSame.resetTurn hbody) hrun

theorem WsSame.cmpMem {b : Bool} (hrun : cmpMem k p = some (k', b)) : WsSame k k' := by
  unfold HardenedMinix.cmpMem at hrun
  split_ifs at hrun
  · obtain ⟨rfl, -⟩ := Prod.mk.inj (some.inj hrun)
    exact refl _
  refine whileNext_rel (R := fun s s' : Kernel × Bool => WsSame s.1 s'.1)
    (fun s => refl s.1) (fun _ _ _ => trans) (fun s i s' hbody => ?_) hrun
  unfold cmpPmb at hbody
  simp only at hbody
  split at hbody
  · exact some.inj hbody ▸ refl s.1
  split at hbody
  · split at hbody
    · exact some.inj hbody ▸ refl s.1
    split at hbody
    · rw [← some.inj hbody]
      exact setPmb _ i rfl rfl rfl (fun h => h)
    · rw [← some.inj hbody]
      exact refl s.1
  · exact some.inj hbody ▸ refl s.1

/-! ## Fork and clear -/

theorem setProc_fresh_wsOk {rpc : ProcNr} {x : Proc} (h : WsOk k L)
    (hdead : (k.procs rpc).inUse = false) (hf : x.lus1Us2 = none) (hs : x.lus1Us2Size = 0) :
    WsOk (k.setProc rpc x) L where
  owned := by
    have hfirst : wsFirst (k.setProc rpc x) = wsFirst k := by
      funext q
      by_cases hq : q = rpc
      · subst hq
        simp [wsFirst, Kernel.setProc, hdead, hf]
      · simp [wsFirst, Kernel.setProc, hq]
    rw [hfirst]
    exact h.owned
  size q hq := by
    by_cases hqr : q = rpc
    · subst hqr
      simp [Kernel.setProc, hs, h.dead hdead]
    · simp only [Kernel.setProc, Function.update_of_ne hqr] at hq ⊢
      exact h.size q hq
  unique := h.unique
  iflags := h.iflags

theorem setProc_dead_wsOk {rc : ProcNr} {x : Proc} (h : WsOk k L) (hnil : L rc = [])
    (hx : x.inUse = false) : WsOk (k.setProc rc x) L where
  owned := by
    have hfirst : wsFirst (k.setProc rc x) = wsFirst k := by
      funext q
      by_cases hq : q = rc
      · subst hq
        have hhead := h.owned.first_eq q
        rw [hnil] at hhead
        rw [hhead]
        simp [wsFirst, Kernel.setProc, hx]
      · simp [wsFirst, Kernel.setProc, hq]
    rw [hfirst]
    exact h.owned
  size q hq := by
    by_cases hqr : q = rc
    · subst hqr
      simp [Kernel.setProc, hx] at hq
    · simp only [Kernel.setProc, Function.update_of_ne hqr] at hq ⊢
      exact h.size q hq
  unique := h.unique
  iflags := h.iflags

theorem doFork_wsInv {rpp rpc : ProcNr} (h : WsInv k) (hrun : doFork k rpp rpc = some k') :
    WsInv k' := by
  unfold doFork at hrun
  split at hrun
  · exact some.inj hrun ▸ h
  rename_i huse
  simp only [Bool.or_eq_true, Bool.not_eq_eq_eq_not, Bool.not_true, not_or,
    Bool.not_eq_false, Bool.not_eq_true] at huse
  have h1 : WsInv (k.setProc rpc (forkedProc k rpp rpc)) := by
    obtain ⟨L, h⟩ := h
    exact ⟨L, setProc_fresh_wsOk h huse.2 rfl rfl⟩
  simp only at hrun
  split at hrun
  · refine setForkLabel_wsInv ?_ h1 hrun
    have hne : rpp ≠ rpc := by
      rintro rfl
      rw [huse.1] at huse
      exact absurd huse.2 (by simp)
    simpa [Kernel.setProc, hne] using huse.1
  · exact some.inj hrun ▸ h1

theorem doClear_wsInv {rc : ProcNr} (h : WsInv k) (hrun : doClear k rc = some k')
    (hgood : (k.procs rc).inUse = true → (k.procs rc).procToHard = false →
      (k.procs rc).lus1Us2Size = 0) : WsInv k' := by
  unfold doClear at hrun
  split at hrun
  · exact some.inj hrun ▸ h
  rename_i huse
  have hrc : (k.procs rc).inUse = true := by simpa using huse
  cases hhard : (k.procs rc).procToHard with
  | false =>
    rw [hhard] at hrun
    simp only [Bool.false_eq_true, ↓reduceIte] at hrun
    obtain ⟨L, h⟩ := h
    have hnil : L rc = [] := by
      have hlen := h.size rc hrc
      exact List.length_eq_zero_iff.mp (by rw [← hlen]; exact hgood hrc hhard)
    exact some.inj hrun ▸ ⟨L, setProc_dead_wsOk h hnil rfl⟩
  | true =>
    rw [hhard] at hrun
    simp only [↓reduceIte] at hrun
    split at hrun
    · simp at hrun
    rename_i k1 hclear
    obtain rfl := some.inj hrun
    unfold clearHardened at hclear
    split at hclear
    · simp at hclear
    rename_i k2 hfree
    split at hclear
    · simp at hclear
    rename_i k3 hhsrs
    obtain rfl := some.inj hclear
    -- the blocks are gone, so the list that is dropped with the process is empty
    obtain ⟨hsize, hfirst⟩ := freePramMemBlocks_empty hfree h hrc
    obtain ⟨hinUse, L, h2⟩ := freePramMemBlocks_wsInv hrc h hfree
    have hsame := WsSame.of_eraseShared (eraseShared_freeHsrs hhsrs)
    have h3 := hsame.wsOk h2
    have hlive : (k3.procs rc).inUse = true := by rw [hsame.inUse rc, hinUse rc]; exact hrc
    have hnil : L rc = [] := by
      have hc := h3.chain hlive
      rw [hsame.first rc, hfirst] at hc
      exact hc.nil_inv
    have hdead := setProc_dead_wsOk (x := { resetHardeningAttri (k3.procs rc) with inUse := false })
      h3 hnil rfl
    refine ⟨L, ?_⟩
    simpa [Kernel.setProc] using hdead

/-! ## Runs -/

/-- The pages a region adds fit in the table, and a process that is cleared is hardened or has no
blocks. -/
def WsGood (k : Kernel) : Op → Prop
  | .addRegionToWs p raddr rlength _ _ =>
    missing k p (pagesCovered raddr rlength) + totalSize k ≤ workingSetSize
  | .clear rc => (k.procs rc).procToHard = true ∨ (k.procs rc).lus1Us2Size = 0
  | _ => True

theorem initial_wsInv (h : Initial k) : WsInv k := by
  refine ⟨fun _ => [], ⟨⟨fun p => ?_, by simp, by simp, fun i hi _ => ?_⟩, fun p _ => ?_, by simp,
    fun i => ?_⟩⟩
  · have hfirst : wsFirst k p = none := by simp [wsFirst, (h.lus1Us2 p).1]
    rw [hfirst]
    exact .nil
  · rw [h.workingSet]
    have hlt : i.val < workingSetSize - 1 := by omega
    simp only [Pool.initTable, hlt, ↓reduceIte]
    exact pmbPool.free_init _
  · exact (h.lus1Us2 p).2
  · rw [h.workingSet]
    unfold IflagsOk Pool.initTable
    split <;> intro hcon <;> simp [pmbPool, PmbFlags.free, PmbFlags.zero] at hcon

theorem run_wsInv {op : Op} (h : WsInv k) (hgood : WsGood k op) (hrun : op.run k = some k') :
    WsInv k' := by
  -- what a request does to a process that is not in use
  have live {p : ProcNr} {o : Option Kernel} (hrun : onLive k p o = some k')
      (ho : (k.procs p).inUse = true → o = some k' → WsInv k') : WsInv k' := by
    unfold onLive at hrun
    split at hrun
    · exact ho ‹_› hrun
    · exact some.inj hrun ▸ h
  have hstep : ∀ step, WsSame k { k with hStep := step } :=
    fun step => of_procs rfl (fun _ => ⟨rfl, rfl, rfl⟩)
  cases op with
  | addRegionToWs p raddr rlength us1 us2 =>
    simp only [Op.run, doAddregiontoWs] at hrun
    split at hrun
    · rename_i hlive
      simp only [Bool.and_eq_true] at hlive
      obtain ⟨L, hok⟩ := h
      obtain ⟨k1, L1, hfold, h1⟩ := foldlM_addPageToWs_spec us1 us2 hok hlive.1 hgood
      rw [addRegionToWs, hfold] at hrun
      exact some.inj hrun ▸ ⟨L1, h1⟩
    · exact some.inj hrun ▸ h
  | freePramMemBlock p vaddr =>
    refine live hrun (fun hp ho => ?_)
    exact some.inj ho ▸ freePramMemBlock_wsInv vaddr hp h
  | freePmbs p raddr len =>
    simp only [Op.run, doFreePmbs] at hrun
    obtain rfl := some.inj hrun
    split
    · rename_i hlive
      simp only [Bool.and_eq_true] at hlive
      exact freePramMemBlockVaddr_wsInv raddr len hlive.1 h
    · exact h
  | exec p =>
    simp only [Op.run, doExec] at hrun
    split at hrun
    · rename_i hlive
      simp only [Bool.and_eq_true] at hlive
      exact (freePramMemBlocks_wsInv hlive.1 h hrun).2
    · exact some.inj hrun ▸ h
  | setPeMemToRo p step =>
    refine live hrun (fun hp ho => ?_)
    have hinv := (hstep step).wsInv h
    exact setPeMemToRo_wsInv (k := { k with hStep := step }) hp hinv ho
  | setForkLabel p => exact live hrun (fun hp ho => setForkLabel_wsInv hp h ho)
  | fork rpp rpc => exact doFork_wsInv h hrun
  | clear rc =>
    refine doClear_wsInv h hrun (fun _ hsoft => ?_)
    rcases hgood with hhard | hempty
    · rw [hhard] at hsoft
      exact absurd hsoft (by simp)
    · exact hempty
  | hardeningPid hp enable =>
    obtain rfl := some.inj hrun
    unfold doHardeningPid
    split
    · refine wsInv ?_ h
      exact setProc k hp rfl rfl rfl
    · exact h
  | hardeningAllF enable =>
    obtain rfl := some.inj hrun
    refine wsInv (k := k) ?_ h
    exact of_procs rfl (fun _ => ⟨rfl, rfl, rfl⟩)
  | hmeEvent p offset size =>
    exact live hrun (fun _ ho => (of_eraseHmes (eraseHmes_addHmeEvent ho)).wsInv h)
  | shareRegion p offset size rId =>
    simp only [Op.run, doHmemMapShared] at hrun
    split at hrun
    · split at hrun
      · simp at hrun
      rename_i k1 hadd
      obtain rfl := some.inj hrun
      refine wsInv ?_ h
      exact (of_eraseShared (eraseShared_addHsr hadd)).trans
        (setProc k1 p rfl rfl rfl)
    · exact some.inj hrun ▸ h
  | checkVaddr p step vaddr =>
    refine live hrun (fun _ ho => ?_)
    obtain ⟨⟨k1, r⟩, hcheck, rfl⟩ := map_eq_some_iff.mp ho
    exact ((hstep step).trans (WsSame.checkVaddr2 hcheck)).wsInv h
  | hmemMap p step =>
    exact live hrun (fun _ ho => ((hstep step).trans (WsSame.vmHpagefault ho)).wsInv h)
  | resetPram p step endcmp =>
    exact live hrun (fun _ ho => ((hstep step).trans (WsSame.vmResetPram ho)).wsInv h)
  | cmpMem p =>
    refine live hrun (fun _ ho => ?_)
    obtain ⟨⟨k1, r⟩, hcmp, rfl⟩ := map_eq_some_iff.mp ho
    exact (WsSame.cmpMem hcmp).wsInv h
  | pageTable p pt =>
    obtain rfl := some.inj hrun
    refine wsInv ?_ h
    exact setProc k p rfl rfl rfl
  | memory mem =>
    obtain rfl := some.inj hrun
    refine wsInv (k := k) ?_ h
    exact of_procs rfl (fun _ => ⟨rfl, rfl, rfl⟩)

/-- In every state of a run whose requests are all good, the lists are as they should be. -/
theorem reachable_wsRep (h : Reachable WsGood k) : WsRep k := by
  obtain ⟨L, hok⟩ := h.invariant (fun _ => initial_wsInv)
    (fun _ _ _ hinv hgood hrun => run_wsInv hinv hgood hrun)
  exact hok.wsRep

theorem room_of_empty (h : ∀ p, (k.procs p).lus1Us2Size = 0) (p : ProcNr) :
    missing k p (pagesCovered 4096 1) + totalSize k ≤ workingSetSize := by
  have htotal : totalSize k = 0 := Finset.sum_eq_zero (fun p _ => by simp [h p])
  have hmissing : missing k p (pagesCovered 4096 1) ≤ 1 := List.countP_le_length.trans (by decide)
  have hsize : 1 ≤ workingSetSize := Nat.le_add_left 1 32767
  omega

theorem room_after_boot : missing (doHardeningPid bootKernel 15 true) 15 (pagesCovered 4096 1) +
      totalSize (doHardeningPid bootKernel 15 true) ≤ workingSetSize := by
  refine room_of_empty (fun p => ?_) 15
  by_cases hp : p = 15
  · subst hp
    rfl
  · rw [doHardeningPid_of_ne _ _ hp]
    rfl

/-- A process is hardened, gets a block and is cleared. -/
theorem reachable_wsRep_hardened_exit :
    ∃ k, runAll bootKernel [.hardeningPid 15 true, .addRegionToWs 15 4096 1 (some 7) (some 8),
        .clear 15] = some k ∧ WsRep k := by
  refine ⟨_, rfl, reachable_wsRep ?_⟩
  exact .step (.clear 15) (.step (.addRegionToWs 15 4096 1 (some 7) (some 8))
    (.step (.hardeningPid 15 true) (.init bootKernel_initial) trivial rfl)
    room_after_boot rfl) (.inl rfl) rfl

/-- A process un-hardened with a block, and then cleared, leaves it neither free nor on a list. -/
theorem wsRep_fails_after_unhardened_exit : ¬ ∀ k, Reachable (fun _ _ => True) k → WsRep k := by
  intro hall
  obtain ⟨k, hrun, hused, hfirst⟩ : ∃ k, runAll bootKernel [.hardeningPid 15 true,
      .addRegionToWs 15 4096 1 (some 7) (some 8), .hardeningPid 15 false, .clear 15] = some k ∧
      (k.workingSet 0).flags.slotFree = false ∧
      ∀ q, (k.procs q).inUse = true → (k.procs q).lus1Us2 = none := by
    refine ⟨_, rfl, rfl, fun q hq => ?_⟩
    by_cases hq15 : q = 15
    · subst hq15
      exact absurd hq (by decide)
    · simp only [Kernel.setProc, Kernel.setPmb, Kernel.setWs, Function.update_of_ne hq15,
        doHardeningPid_of_ne _ _ hq15]
      rfl
  obtain ⟨L, hlist, -, hfree⟩ := hall k (Reachable.runAll (.init bootKernel_initial) hrun)
  have hmark := (hfree 0 (by decide)).mpr (fun q hq hmem => ?_)
  · rw [hused] at hmark
    exact absurd hmark (by simp)
  · have hc := (hlist q hq).1
    rw [hfirst q hq] at hc
    rw [hc.nil_inv] at hmem
    simp at hmem

end HardenedMinix
