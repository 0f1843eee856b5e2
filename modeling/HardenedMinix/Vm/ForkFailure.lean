import HardenedMinix.Vm.Links

/-!
# A fork that fails

What `do_fork` leaves behind when an allocation in it fails.
-/

namespace HardenedMinix.Region

/-- The regions of the parent, its blocks with their counts, its page table and hardening blocks,
the counts of all regions, and a slot for the child are as before. -/
structure ForkUndone (s s' : State) (src dst : ProcNr) : Prop where
  regions : (s'.vmproc src).regions = (s.vmproc src).regions
  physblocks : ∀ v, s'.physblocks (src, v) = s.physblocks (src, v)
  counts : ∀ v pr, s.physblocks (src, v) = some pr →
    (s'.blocks pr.ph).map (·.refcount) = (s.blocks pr.ph).map (·.refcount)
  pageTable : ∀ v, s'.pt (src, v) = s.pt (src, v)
  hardening : (s'.vmproc src).lus1Us2 = (s.vmproc src).lus1Us2
  remaps : ∀ p, p ≠ dst → (s'.vmproc p).regions.map (·.remaps) = (s.vmproc p).regions.map (·.remaps)
  child : (s'.vmproc dst).inuse = false

theorem inuse_of_failed_fork {s s' : State} {src dst : ProcNr} {ep : Endpoint} {e : Status}
    (h : doFork s src dst ep = some (e, s')) (he : e ≠ .ok) : (s'.vmproc dst).inuse = (s.vmproc src).inuse := by
  have hcopy : ((forkVmproc s src dst).vmproc dst).inuse = (s.vmproc src).inuse := by
    unfold forkVmproc State.setVmproc
    dsimp only
    rw [Function.update_self]
  unfold doFork at h
  split at h
  · cases h
  · next s1 hpt =>
    have hnew := (ptNew_links hpt).parties
    split at h
    · cases h
    · cases h
      exact absurd rfl he
    · next s2 _ hmap =>
      cases h
      have hall := hnew.trans ((mapProcCopy_parties hmap).trans (ptFree_links s2 dst).parties)
      exact (hall.inuse dst).trans hcopy
  · next hpt =>
    cases h
    exact ((ptNew_links hpt).inuse dst).trans hcopy

/-- No failed fork is undone: the slot of the child stays in use. -/
theorem failed_fork_not_undone {s s' : State} {src dst : ProcNr} {ep : Endpoint} {e : Status}
    (hsrc : (s.vmproc src).inuse = true) (h : doFork s src dst ep = some (e, s')) (he : e ≠ .ok) :
    (s'.vmproc dst).inuse = true ∧ ¬ ForkUndone s s' src dst := by
  have hinuse := (inuse_of_failed_fork h he).trans hsrc
  refine ⟨hinuse, fun hundone => ?_⟩
  rw [hundone.child] at hinuse
  cases hinuse

/-- The second `pb_reference` of a fork fails, for a hardened process with two pages. -/
def twoPages : State where
  vmproc p :=
    if p = 0 then ⟨true, some ⟨0, 0⟩, [⟨1, 2, true, false, false, .anon, 0, 1, 0, none⟩], 0, true, [⟨1, some 5, none⟩]⟩
    else ⟨false, none, [], 0, false, []⟩
  physblocks x := if x = (0, 1) then some ⟨1, 0⟩ else if x = (0, 2) then some ⟨2, 1⟩ else none
  blocks b := if b = 1 then some ⟨some 6, 1, [(0, 1)]⟩ else if b = 2 then some ⟨some 7, 1, [(0, 2)]⟩ else none
  pt _ := none
  ptPages _ := none
  ptDir p := if p = 1 then some 4 else none
  freePages _ := false
  mem _ := fun _ => 0
  cache := ⟨fun _ => none, fun _ => [], none, none⟩
  nextId := 2
  hardeningEnabled := true
  tape := [.slab 0, .slab 1, .slab 2, .noSlab]

theorem twoPages_forked : ∃ s', doFork twoPages 0 1 ⟨1, 1⟩ = some (.enomem, s') ∧ (s'.vmproc 0).lus1Us2 = [] ∧
    (s'.vmproc 1).inuse = true :=
  ⟨_, rfl, rfl, rfl⟩

/-- The fork of `twoPages` is not undone. -/
theorem twoPages_not_undone : ∃ s', doFork twoPages 0 1 ⟨1, 1⟩ = some (.enomem, s') ∧
    ¬ ForkUndone twoPages s' 0 1 := by
  obtain ⟨s', h, -, -⟩ := twoPages_forked
  exact ⟨s', h, (failed_fork_not_undone rfl h (by decide)).2⟩

/-- Failed forks are not undone. -/
theorem fork_not_undone : ¬ ∀ (s s' : State) (src dst : ProcNr) (ep : Endpoint) (e : Status),
    (s.vmproc src).inuse = true → doFork s src dst ep = some (e, s') → e ≠ .ok → ForkUndone s s' src dst := by
  intro h
  obtain ⟨s', hfork, hlist, -⟩ := twoPages_forked
  have hundone := h twoPages s' 0 1 ⟨1, 1⟩ .enomem rfl hfork (by decide)
  have hsame := hundone.hardening
  rw [hlist] at hsame
  cases hsame

end HardenedMinix.Region
