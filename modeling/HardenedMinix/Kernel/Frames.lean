import HardenedMinix.Kernel.Process

/-!
# What the parts leave alone

The shared regions and the memory events are kept in their own tables and their own fields
of the processes. Erasing these fields turns "nothing else changed" into an equation.
-/

open Option

namespace HardenedMinix

open Lib Linked

/-! ## Shared regions -/

/-- The kernel without what belongs to the shared regions. -/
def eraseShared (k : Kernel) : Kernel :=
  { k with
    hardeningSharedRegions := fun _ => default
    hardeningSharedProcs := fun _ => default
    allHsrS := none
    nHsrs := 0
    allHspS := none
    nHsps := 0
    procs := fun q =>
      { k.procs q with hardeningSharedRegions := none, nbHardeningSharedRegions := 0 } }

@[simp] theorem eraseShared_setHsr (k : Kernel) (i : Fin hardeningSharedRegionsSize)
    (r : HardeningSharedRegion) : eraseShared (k.setHsr i r) = eraseShared k := rfl

@[simp] theorem eraseShared_setHsrs (k : Kernel) (p : ProcNr)
    (first : Option (Fin hardeningSharedRegionsSize)) (nb : Int) :
    eraseShared (k.setHsrs p first nb) = eraseShared k := by
  unfold eraseShared Kernel.setHsrs Kernel.setProc
  congr 1
  funext q
  by_cases hq : q = p
  · subst hq
    simp
  · simp [hq]

theorem eraseShared_freeHspFromHsr (k : Kernel) (rp : ProcNr) (h : Fin hardeningSharedRegionsSize) :
    eraseShared (freeHspFromHsr k rp h) = eraseShared k := by
  unfold freeHspFromHsr
  simp only
  split <;> rfl

theorem eraseShared_freeHsrFromAllHsrS (k : Kernel) (h : Fin hardeningSharedRegionsSize) :
    eraseShared (freeHsrFromAllHsrS k h) = eraseShared k := by
  unfold freeHsrFromAllHsrS
  split <;> rfl

theorem eraseShared_freeHsr (k : Kernel) (rp : ProcNr) (id : Int) :
    eraseShared (freeHsr k rp id) = eraseShared k := by
  unfold freeHsr
  split
  · rfl
  rename_i prev h _
  have hregion : eraseShared
      (if ((freeHspFromHsr k rp h).hardeningSharedRegions h).rHsp = none then
        freeHsrFromAllHsrS ((freeHspFromHsr k rp h).setHsr h
          (hsrPool.clear ((freeHspFromHsr k rp h).hardeningSharedRegions h))) h
      else freeHspFromHsr k rp h) = eraseShared k := by
    split
    · rw [eraseShared_freeHsrFromAllHsrS, eraseShared_setHsr, eraseShared_freeHspFromHsr]
    · exact eraseShared_freeHspFromHsr k rp h
  cases prev with
  | none => simp only [eraseShared_setHsrs, hregion]
  | some j => simp only [eraseShared_setHsrs, eraseShared_setHsr, hregion]

variable {k k' : Kernel} {rp : ProcNr}

theorem eraseShared_freeHsrs (h : freeHsrs k rp = some k') : eraseShared k' = eraseShared k := by
  unfold freeHsrs at h
  split_ifs at h with hnb
  · rw [← some.inj h]
  split at h
  · simp at h
  rename_i k1 hloop
  have h1 : eraseShared k1 = eraseShared k := by
    refine whileNext_rel (R := fun k k' => eraseShared k' = eraseShared k) (fun _ => rfl)
      (fun _ _ _ h1 h2 => h2.trans h1) (fun s i s' hs => ?_) hloop
    rw [← some.inj hs, eraseShared_freeHsr]
  split_ifs at h
  rw [← some.inj h, ← h1]
  unfold freeHspFromAllHspS
  split <;> rfl

theorem eraseShared_addHsp {h : Fin hardeningSharedRegionsSize}
    (hadd : addHsp k rp h = some k') : eraseShared k' = eraseShared k := by
  unfold addHsp at hadd
  simp only at hadd
  split at hadd
  · rw [← some.inj hadd]
  split at hadd
  · simp at hadd
  rename_i k1 s hget
  have h1 : eraseShared k1 = eraseShared k := by
    split at hget
    · rw [← (Prod.mk.inj (some.inj hget)).1]
    · split at hget
      · simp at hget
      · rw [← (Prod.mk.inj (some.inj hget)).1]
        rfl
  split at hadd
  · simp at hadd
  · rw [← some.inj hadd, ← h1]
    rfl

theorem eraseShared_addHsr {offset size rId : Nat}
    (hadd : addHsr k rp offset size rId = some k') : eraseShared k' = eraseShared k := by
  unfold addHsr at hadd
  split at hadd
  · rw [← some.inj hadd]
  split at hadd
  · simp at hadd
  rename_i k1 h hget
  have h1 : eraseShared k1 = eraseShared k := by
    split at hget
    · rw [← (Prod.mk.inj (some.inj hget)).1]
    · split at hget
      · simp at hget
      · rw [← (Prod.mk.inj (some.inj hget)).1]
        rfl
  split at hadd
  · simp at hadd
  simp only at hadd
  split at hadd
  · simp at hadd
  · rename_i k2 hhsp
    have h2 := eraseShared_addHsp hhsp
    rw [← some.inj hadd, eraseShared_setHsrs, h2, eraseShared_setHsrs, ← h1]
    rfl

/-! ## Memory events -/

/-- The kernel without what belongs to the memory events. -/
def eraseHmes (k : Kernel) : Kernel :=
  { k with
    hardeningMemEvents := fun _ => default
    procs := fun q =>
      { k.procs q with hardeningMemEvents := none, nbHardeningMemEvents := 0 } }

@[simp] theorem eraseHmes_setHmes (k : Kernel) (t : Table HardeningMemEvent hardeningMemEventsSize)
    (p : ProcNr) (first : Option (Fin hardeningMemEventsSize)) (nb : Nat) :
    eraseHmes (k.setHmes t p first nb) = eraseHmes k := by
  unfold eraseHmes Kernel.setHmes
  congr 1
  funext q
  by_cases hq : q = p
  · subst hq
    simp
  · simp [hq]

theorem eraseHmes_addHmeEvent {offset size : Nat}
    (hadd : addHmeEvent k rp offset size = some k') : eraseHmes k' = eraseHmes k := by
  unfold addHmeEvent at hadd
  simp only at hadd
  split at hadd
  · split at hadd
    · simp at hadd
    · split at hadd
      · simp at hadd
      · rw [← some.inj hadd, eraseHmes_setHmes]
  · split_ifs at hadd
    · rw [← some.inj hadd]
      rfl
    · rw [← some.inj hadd]

theorem eraseHmes_freeHardeningMemEvent (k : Kernel) (rp : ProcNr) (id : Nat) :
    eraseHmes (freeHardeningMemEvent k rp id) = eraseHmes k := by
  unfold freeHardeningMemEvent
  split
  · rfl
  · split
    · rfl
    · rw [eraseHmes_setHmes]

theorem eraseHmes_freeHardeningMemEvents
    (h : freeHardeningMemEvents k rp = some k') : eraseHmes k' = eraseHmes k := by
  unfold freeHardeningMemEvents at h
  split_ifs at h with hnb
  · rw [← some.inj h]
  split at h
  · simp at h
  rename_i k1 hloop
  have h1 : eraseHmes k1 = eraseHmes k := by
    refine whileNext_rel (R := fun k k' => eraseHmes k' = eraseHmes k) (fun _ => rfl)
      (fun _ _ _ h1 h2 => h2.trans h1) (fun s i s' hs => ?_) hloop
    rw [← some.inj hs, eraseHmes_freeHardeningMemEvent]
  split_ifs at h
  rw [← some.inj h, h1]

theorem eraseHmes_enableHmeEventInProcs {vaddr size : Nat}
    (h : enableHmeEventInProcs k rp vaddr size = some k') : eraseHmes k' = eraseHmes k := by
  unfold enableHmeEventInProcs at h
  split_ifs at h
  · rw [← some.inj h]
  · split at h
    · simp at h
    · exact whileNext_rel (R := fun k k' => eraseHmes k' = eraseHmes k) (fun _ => rfl)
        (fun _ _ _ h1 h2 => h2.trans h1) (fun s i s' hs => eraseHmes_addHmeEvent hs) h

end HardenedMinix
