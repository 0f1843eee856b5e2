import HardenedMinix.Lib.Pool
import HardenedMinix.Kernel.Types

/-!
# The fixed pools

`get_pmb`, `get_hme`, `get_hsr` and `get_hsp` are one search. The `END_*` macros name the last
element of a table, so `init_hardening` leaves the last slot unmarked, and the search stops there
without looking at its mark.
-/

namespace HardenedMinix

open Lib Linked

def PmbFlags.free : PmbFlags := { PmbFlags.zero with slotFree := true }

/-- `working_set`, with `get_pmb` and `free_pram_mem_block`. -/
def pmbPool : Pool PramMemBlock workingSetSize where
  reset b := { b with
    flags := { b.flags with slotFree := false }
    vaddr := mapNone, us0 := none, us1 := none, us2 := none, nextPmb := none }
  clear b := { b with
    id := 0, flags := .free, vaddr := mapNone, us0 := none, us1 := none, us2 := none }
  init b := { b with
    id := 0, flags := .free, vaddr := 0, us0 := some 0, us1 := some 0, us2 := some 0
    nextPmb := none }
  zero := ⟨0, .zero, .zero, 0, some 0, some 0, some 0, none⟩
  free_reset _ := rfl
  free_clear _ := rfl
  free_init _ := rfl
  free_zero := rfl
  two_le := two_le_workingSetSize

/-- `hardening_mem_events`, with `get_hme` and `free_hardening_mem_event`. -/
def hmePool : Pool HardeningMemEvent hardeningMemEventsSize where
  reset e := { e with slotFree := false, addrBase := mapNone, nbytes := 0, nextHme := none }
  clear e := { e with id := 0, slotFree := true, addrBase := 0, nbytes := 0, npages := 0 }
  init e := { e with
    id := 0, slotFree := true, addrBase := 0, nbytes := 0, npages := 0, nextHme := none }
  zero := ⟨0, false, 0, 0, 0, none⟩
  free_reset _ := rfl
  free_clear _ := rfl
  free_init _ := rfl
  free_zero := rfl
  two_le := by decide

/-- `hardening_shared_regions`, with `get_hsr` and `free_hsr`. -/
def hsrPool : Pool HardeningSharedRegion hardeningSharedRegionsSize where
  reset r := { r with slotFree := false, vaddr := 0, length := 0, nextHsr := none, rHsp := none }
  clear r := { r with id := 0, slotFree := true, vaddr := 0, length := 0 }
  init _ := ⟨0, true, 0, 0, 0, none, none, 0⟩
  zero := ⟨0, false, 0, 0, 0, none, none, 0⟩
  free_reset _ := rfl
  free_clear _ := rfl
  free_init _ := rfl
  free_zero := rfl
  two_le := by decide

/-- `hardening_shared_procs`, with `get_hsp` and `free_hsp_from_all_hsp_s`. -/
def hspPool : Pool HardeningSharedProc hardeningSharedProcsSize where
  reset s := { s with slotFree := false, hspEndpoint := 0, nextHsp := none }
  clear s := { s with id := 0, slotFree := true, hspEndpoint := 0 }
  init _ := ⟨0, true, 0, none⟩
  zero := ⟨0, false, 0, none⟩
  free_reset _ := rfl
  free_clear _ := rfl
  free_init _ := rfl
  free_zero := rfl
  two_le := by decide

abbrev getPmb := pmbPool.getSlot
abbrev getHme := hmePool.getSlot
abbrev getHsr := hsrPool.getSlot
abbrev getHsp := hspPool.getSlot

/-- In every reachable state each search hands out a slot marked free, or panics, exactly if there
is one. -/
theorem getSlot_ok_iff_some_slot_free {w : PoolState PramMemBlock workingSetSize}
    {h : PoolState HardeningMemEvent hardeningMemEventsSize}
    {r : PoolState HardeningSharedRegion hardeningSharedRegionsSize}
    {q : PoolState HardeningSharedProc hardeningSharedProcsSize}
    (hw : PoolReachable pmbPool w)
    (hh : PoolReachable hmePool h) (hr : PoolReachable hsrPool r) (hq : PoolReachable hspPool q) :
    (GetOk pmbPool w ↔ ∃ i, free (w.table i) = true) ∧
      (GetOk hmePool h ↔ ∃ i, free (h.table i) = true) ∧
      (GetOk hsrPool r ↔ ∃ i, free (r.table i) = true) ∧
      (GetOk hspPool q ↔ ∃ i, free (q.table i) = true) :=
  ⟨hw.getOk_iff, hh.getOk_iff, hr.getOk_iff, hq.getOk_iff⟩

/-- The first allocation of a fresh kernel. -/
theorem getSlot_ok_after_init :
    GetOk pmbPool ⟨pmbPool.initTable, []⟩ ∧ GetOk hmePool ⟨hmePool.initTable, []⟩ ∧
      GetOk hsrPool ⟨hsrPool.initTable, []⟩ ∧ GetOk hspPool ⟨hspPool.initTable, []⟩ := by
  have h := getSlot_ok_iff_some_slot_free .init .init .init .init
  exact ⟨h.1.mpr ⟨0, rfl⟩, h.2.1.mpr ⟨0, rfl⟩, h.2.2.1.mpr ⟨0, rfl⟩, h.2.2.2.mpr ⟨0, rfl⟩⟩

/-- Each of the four searches can be brought to hand out a slot that is in use. -/
theorem getSlot_hands_out_used_slot : (¬ ∀ s, PoolReachable pmbPool s → GetOk pmbPool s) ∧
      (¬ ∀ s, PoolReachable hmePool s → GetOk hmePool s) ∧
      (¬ ∀ s, PoolReachable hsrPool s → GetOk hsrPool s) ∧
      (¬ ∀ s, PoolReachable hspPool s → GetOk hspPool s) := by
  have twice {β : Type} {m : Nat} [Linked β m] (P : Pool β m) :
      ¬ ∀ s, PoolReachable P s → GetOk P s := by
    intro h
    obtain ⟨s, hs, t, i, hget, hmem⟩ := PoolReachable.hands_out_twice P
    have hok := h s hs
    simp only [GetOk, hget] at hok
    exact hok.2 hmem
  exact ⟨twice pmbPool, twice hmePool, twice hsrPool, twice hspPool⟩

end HardenedMinix
