import HardenedMinix.Kernel.Run

/-!
# The representation of the working sets

Each live process has a null-terminated list of blocks, as long as its counter says, with one
block per page at most; no block is on two lists, and those on none are free.
-/

open Function List

namespace HardenedMinix

open Lib Linked

/-! ## The invariant -/

def wsFirst (k : Kernel) (p : ProcNr) : Option (Fin workingSetSize) :=
  if (k.procs p).inUse then (k.procs p).lus1Us2 else none

/-- A block labelled by `set_fork_label` has the flags of a block in use put aside. -/
def IflagsOk (b : PramMemBlock) : Prop :=
  b.flags.hFork = true ∨ b.flags.hExec = true → b.iflags.slotFree = false

/-- The working set lists are `L`. -/
structure WsOk (k : Kernel) (L : ProcNr → List (Fin workingSetSize)) : Prop where
  owned : Owned k.workingSet (wsFirst k) L
  size : ∀ p, (k.procs p).inUse = true → (k.procs p).lus1Us2Size = (L p).length
  unique : ∀ p, ((L p).map (fun i => pageOf (k.workingSet i).vaddr)).Nodup
  iflags : ∀ i, IflagsOk (k.workingSet i)

/-- The same invariant in terms of the tables and processes alone. -/
def WsRep (k : Kernel) : Prop :=
  ∃ L : ProcNr → List (Fin workingSetSize),
    (∀ p, (k.procs p).inUse = true →
      Chain k.workingSet (k.procs p).lus1Us2 (L p) ∧
        (k.procs p).lus1Us2Size = (L p).length ∧
        ((L p).map (fun i => pageOf (k.workingSet i).vaddr)).Nodup) ∧
    (∀ p q, (k.procs p).inUse = true → (k.procs q).inUse = true → p ≠ q →
      ∀ i ∈ L p, i ∉ L q) ∧
    ∀ i : Fin workingSetSize, i.val ≠ workingSetSize - 1 →
      ((k.workingSet i).flags.slotFree = true ↔ ∀ p, (k.procs p).inUse = true → i ∉ L p)

namespace WsOk

variable {k : Kernel} {L : ProcNr → List (Fin workingSetSize)} {p : ProcNr}

theorem dead (h : WsOk k L) (hp : (k.procs p).inUse = false) : L p = [] := by
  have hc := h.owned.chain p
  simp only [wsFirst, hp, Bool.false_eq_true, ↓reduceIte] at hc
  exact hc.nil_inv

theorem chain (h : WsOk k L) (hp : (k.procs p).inUse = true) :
    Chain k.workingSet (k.procs p).lus1Us2 (L p) := by
  have hc := h.owned.chain p
  simpa only [wsFirst, hp, ↓reduceIte] using hc

theorem eq_of_page (h : WsOk k L) {i j : Fin workingSetSize} (hi : i ∈ L p) (hj : j ∈ L p)
    (hpage : pageOf (k.workingSet i).vaddr = pageOf (k.workingSet j).vaddr) : i = j :=
  inj_on_of_nodup_map (h.unique p) hi hj hpage

theorem wsRep (h : WsOk k L) : WsRep k := by
  refine ⟨L, fun p hp => ⟨h.chain hp, h.size p hp, h.unique p⟩,
    fun p q _ _ hne => h.owned.disjoint hne, fun i hi => ?_⟩
  have hlt : i.val + 1 < workingSetSize := by
    have := i.isLt
    omega
  constructor
  · intro hfree p _ hmem
    have hused : (k.workingSet i).flags.slotFree = false := h.owned.used p i hmem
    rw [hused] at hfree
    exact absurd hfree (by simp)
  intro hnot
  refine h.owned.marked i hlt (fun p hmem => ?_)
  cases hp : (k.procs p).inUse with
  | true => exact hnot p hp hmem
  | false =>
    rw [h.dead hp] at hmem
    simp at hmem

end WsOk

/-! ## Changes that leave the lists alone -/

/-- Links, marks, pages and list heads are the same in both states. -/
structure WsSame (k k' : Kernel) : Prop where
  next : ∀ i, (k'.workingSet i).nextPmb = (k.workingSet i).nextPmb
  free : ∀ i, (k'.workingSet i).flags.slotFree = (k.workingSet i).flags.slotFree
  vaddr : ∀ i, (k'.workingSet i).vaddr = (k.workingSet i).vaddr
  iflags : ∀ i, IflagsOk (k.workingSet i) → IflagsOk (k'.workingSet i)
  inUse : ∀ p, (k'.procs p).inUse = (k.procs p).inUse
  first : ∀ p, (k'.procs p).lus1Us2 = (k.procs p).lus1Us2
  size : ∀ p, (k'.procs p).lus1Us2Size = (k.procs p).lus1Us2Size

namespace WsSame

variable {k k' k'' : Kernel}

theorem refl (k : Kernel) : WsSame k k :=
  ⟨fun _ => rfl, fun _ => rfl, fun _ => rfl, fun _ h => h, fun _ => rfl, fun _ => rfl, fun _ => rfl⟩

theorem trans (h : WsSame k k') (h' : WsSame k' k'') : WsSame k k'' where
  next i := (h'.next i).trans (h.next i)
  free i := (h'.free i).trans (h.free i)
  vaddr i := (h'.vaddr i).trans (h.vaddr i)
  iflags i hi := h'.iflags i (h.iflags i hi)
  inUse p := (h'.inUse p).trans (h.inUse p)
  first p := (h'.first p).trans (h.first p)
  size p := (h'.size p).trans (h.size p)

theorem of_procs (hws : k'.workingSet = k.workingSet)
    (hprocs : ∀ p, (k'.procs p).inUse = (k.procs p).inUse ∧
      (k'.procs p).lus1Us2 = (k.procs p).lus1Us2 ∧
      (k'.procs p).lus1Us2Size = (k.procs p).lus1Us2Size) : WsSame k k' where
  next i := by rw [hws]
  free i := by rw [hws]
  vaddr i := by rw [hws]
  iflags i h := by rw [hws]; exact h
  inUse p := (hprocs p).1
  first p := (hprocs p).2.1
  size p := (hprocs p).2.2

theorem of_eraseShared (h : eraseShared k' = eraseShared k) : WsSame k k' := by
  have hws := congrArg Kernel.workingSet h
  refine of_procs hws (fun p => ?_)
  have hp := congrFun (congrArg Kernel.procs h) p
  have hu := congrArg Proc.inUse hp
  have hf := congrArg Proc.lus1Us2 hp
  have hs := congrArg Proc.lus1Us2Size hp
  exact ⟨hu, hf, hs⟩

theorem of_eraseHmes (h : eraseHmes k' = eraseHmes k) : WsSame k k' := by
  have hws := congrArg Kernel.workingSet h
  refine of_procs hws (fun p => ?_)
  have hp := congrFun (congrArg Kernel.procs h) p
  have hu := congrArg Proc.inUse hp
  have hf := congrArg Proc.lus1Us2 hp
  have hs := congrArg Proc.lus1Us2Size hp
  exact ⟨hu, hf, hs⟩

theorem setProc (k : Kernel) (p : ProcNr) {x : Proc} (hu : x.inUse = (k.procs p).inUse)
    (hf : x.lus1Us2 = (k.procs p).lus1Us2) (hs : x.lus1Us2Size = (k.procs p).lus1Us2Size) :
    WsSame k (k.setProc p x) := by
  refine of_procs rfl (fun q => ?_)
  by_cases hq : q = p
  · subst hq
    simp [Kernel.setProc, hu, hf, hs]
  · simp [Kernel.setProc, hq]

theorem setPte (k : Kernel) (p : ProcNr) (v : VirBytes) (e : Pte) : WsSame k (k.setPte p v e) :=
  setProc k p rfl rfl rfl

theorem setPmb (k : Kernel) (i : Fin workingSetSize) {b : PramMemBlock}
    (hn : b.nextPmb = (k.workingSet i).nextPmb)
    (hf : b.flags.slotFree = (k.workingSet i).flags.slotFree)
    (hv : b.vaddr = (k.workingSet i).vaddr)
    (hi : IflagsOk (k.workingSet i) → IflagsOk b) : WsSame k (k.setPmb i b) := by
  refine ⟨fun j => ?_, fun j => ?_, fun j => ?_, fun j => ?_, fun _ => rfl, fun _ => rfl,
    fun _ => rfl⟩ <;> by_cases hj : j = i
  all_goals first
    | (subst hj; simp only [Kernel.setPmb, update_self]; assumption)
    | simp [Kernel.setPmb, update_of_ne hj]

theorem cpyFrames (k : Kernel) (f g : Frame) : WsSame k (k.cpyFrames f g) :=
  of_procs rfl (fun _ => ⟨rfl, rfl, rfl⟩)

theorem wsOk (hsame : WsSame k k') {L : ProcNr → List (Fin workingSetSize)} (h : WsOk k L) :
    WsOk k' L where
  owned := by
    have hfirst : wsFirst k' = wsFirst k := by
      funext p
      simp only [wsFirst, hsame.inUse p, hsame.first p]
    rw [hfirst]
    exact h.owned.congr hsame.next hsame.free
  size p hp := by
    rw [hsame.size p]
    exact h.size p (by rw [← hsame.inUse p]; exact hp)
  unique p := by simpa only [hsame.vaddr] using h.unique p
  iflags i := hsame.iflags i (h.iflags i)

end WsSame

/-! ## Look-up -/

section Operations

variable {k k' : Kernel} {L : ProcNr → List (Fin workingSetSize)} {p : ProcNr} {v : VirBytes}

variable {i : Fin workingSetSize}

theorem lookUpPte_some (h : WsOk k L) (hp : (k.procs p).inUse = true)
    (hl : lookUpPte k p v = some i) : i ∈ L p ∧ pageOf (k.workingSet i).vaddr = pageOf v := by
  unfold lookUpPte at hl
  split_ifs at hl
  rw [search_eq_of_chain (h.chain hp)] at hl
  have hpage := List.find?_some hl
  exact ⟨mem_of_find?_eq_some hl, samePage_iff.mp hpage⟩

theorem lookUpPte_none (h : WsOk k L) (hp : (k.procs p).inUse = true)
    (hl : lookUpPte k p v = none) : ∀ i ∈ L p, pageOf (k.workingSet i).vaddr ≠ pageOf v := by
  intro i hi
  unfold lookUpPte at hl
  split_ifs at hl with hsize
  · rw [search_eq_of_chain (h.chain hp), List.find?_eq_none] at hl
    have := hl i hi
    rwa [samePage_iff] at this
  · have hlen := h.size p hp
    have hpos := length_pos_of_mem hi
    omega

theorem lookUpPte_of_mem (h : WsOk k L) (hp : (k.procs p).inUse = true)
    (hi : i ∈ L p) (hv : pageOf (k.workingSet i).vaddr = pageOf v) : lookUpPte k p v = some i := by
  cases hl : lookUpPte k p v with
  | none => exact absurd hv (lookUpPte_none h hp hl i hi)
  | some j =>
    obtain ⟨hj, hjv⟩ := lookUpPte_some h hp hl
    rw [h.eq_of_page hj hi (hjv.trans hv.symm)]

theorem setWs_wsOk (h : WsOk k L) (hp : (k.procs p).inUse = true)
    {t : Table PramMemBlock workingSetSize} {first : Option (Fin workingSetSize)}
    {l : List (Fin workingSetSize)} {size : Nat}
    (ho : Owned t (update (wsFirst k) p first) (update L p l))
    (hsize : size = l.length)
    (hu : (l.map (fun i => pageOf (t i).vaddr)).Nodup)
    (hv : ∀ q, q ≠ p → ∀ i ∈ L q, (t i).vaddr = (k.workingSet i).vaddr)
    (hif : ∀ i, IflagsOk (t i)) :
    WsOk (k.setWs t p first size) (update L p l) where
  owned := by
    have hfirst : wsFirst (k.setWs t p first size) = update (wsFirst k) p first := by
      funext q
      by_cases hq : q = p
      · subst hq
        simp [wsFirst, Kernel.setWs, hp]
      · simp [wsFirst, Kernel.setWs, hq]
    rw [hfirst]
    exact ho
  size q hq := by
    by_cases hqp : q = p
    · subst hqp
      simp [Kernel.setWs, hsize]
    · simp only [Kernel.setWs, update_of_ne hqp] at hq ⊢
      exact h.size q hq
  unique q := by
    by_cases hqp : q = p
    · subst hqp
      simpa [Kernel.setWs] using hu
    simp only [Kernel.setWs, update_of_ne hqp]
    have heq : (L q).map (fun i => pageOf (t i).vaddr) =
        (L q).map (fun i => pageOf (k.workingSet i).vaddr) :=
      map_congr_left (fun i hi => by rw [hv q hqp i hi])
    rw [heq]
    exact h.unique q
  iflags i := hif i

theorem freePramMemBlock_spec (h : WsOk k L) (hp : (k.procs p).inUse = true) (v : VirBytes) :
    (freePramMemBlock k p v = k ∧ ∀ i ∈ L p, pageOf (k.workingSet i).vaddr ≠ pageOf v) ∨
      ∃ pre i suf, L p = pre ++ i :: suf ∧ pageOf (k.workingSet i).vaddr = pageOf v ∧
        WsOk (freePramMemBlock k p v) (update L p (pre ++ suf)) ∧
        (freePramMemBlock k p v).workingSet i = pmbPool.clear (k.workingSet i) ∧
        ∀ j, j ≠ i → ∃ x, (freePramMemBlock k p v).workingSet j = setNext (k.workingSet j) x := by
  by_cases hex : ∃ i ∈ L p, pageOf (k.workingSet i).vaddr = pageOf v
  · right
    obtain ⟨i, hi, hiv⟩ := hex
    obtain ⟨pre, suf, hl⟩ := append_of_mem hi
    have hnd := h.owned.nodup p
    have hlen := h.size p hp
    have hpre : ∀ j ∈ pre, samePage (k.workingSet j).vaddr v = false := by
      intro j hj
      rw [samePage_false_iff]
      intro hjv
      have hji : j = i := h.eq_of_page (by rw [hl]; simp [hj]) hi (hjv.trans hiv.symm)
      rw [hl, nodup_append] at hnd
      exact hnd.2.2 j hj i mem_cons_self hji
    have ho := h.owned.unlink_first (o := p) (fun b => samePage b.vaddr v)
      pmbPool.clear hl hpre (samePage_iff.mpr hiv) (fun _ => rfl) (fun _ => rfl)
    obtain ⟨t, first, hun, ho', hti, hset⟩ := ho
    have hfirst : wsFirst k p = (k.procs p).lus1Us2 := by simp [wsFirst, hp]
    rw [hfirst] at hun
    have hsize : (k.procs p).lus1Us2Size - 1 = (pre ++ suf).length := by
      rw [hlen, hl]
      simp only [length_append, length_cons]
      omega
    have hpos : ¬ (k.procs p).lus1Us2Size ≤ 0 := by
      rw [hlen, hl]
      simp
    have heq : freePramMemBlock k p v = k.setWs t p first ((k.procs p).lus1Us2Size - 1) := by
      simp only [freePramMemBlock, hpos, ↓reduceIte, hun]
    have hvaddr : ∀ j, j ≠ i → (t j).vaddr = (k.workingSet j).vaddr := by
      intro j hj
      obtain ⟨x, hx⟩ := hset j hj
      rw [hx]
      rfl
    have hmem : ∀ j ∈ pre ++ suf, j ≠ i := by
      rintro j hj rfl
      rw [hl] at hnd
      exact (nodup_cons.mp (nodup_middle.mp hnd)).1 hj
    refine ⟨pre, i, suf, hl, hiv, ?_, ?_, ?_⟩
    · rw [heq]
      refine setWs_wsOk h hp ho' hsize ?_ ?_ ?_
      · have hmap : (pre ++ suf).map (fun j => pageOf (t j).vaddr) =
            (pre ++ suf).map (fun j => pageOf (k.workingSet j).vaddr) :=
          map_congr_left (fun j hj => by rw [hvaddr j (hmem j hj)])
        have hsub : (pre ++ suf).Sublist (L p) := by
          rw [hl]
          exact List.Sublist.append_left (sublist_cons_self i suf) pre
        rw [hmap]
        exact (h.unique p).sublist (hsub.map _)
      · intro q hq j hj
        refine hvaddr j ?_
        rintro rfl
        exact h.owned.disjoint hq j hj hi
      intro j
      by_cases hj : j = i
      · subst hj
        rw [hti]
        intro hcon
        simp [pmbPool, PmbFlags.free, PmbFlags.zero] at hcon
      · obtain ⟨x, hx⟩ := hset j hj
        rw [hx]
        exact h.iflags j
    · rw [heq]
      exact hti
    · rw [heq]
      exact hset
  · left
    push Not at hex
    refine ⟨?_, hex⟩
    unfold freePramMemBlock
    split
    · rfl
    · rw [unlink_none (h.chain hp) (fun i hi => samePage_false_iff.mpr (hex i hi))]

/-! ## Insertion -/

/-- The block `add_pmb_vaddr` makes of a slot, but for its link and number. -/
def newPmb (b : PramMemBlock) (pfa : Frame) (vaddr : VirBytes) (us1 us2 : Option Frame) :
    PramMemBlock :=
  { pmbPool.reset b with us0 := some pfa, vaddr := vaddr, us1 := us1, us2 := us2 }

theorem addPmbVaddr_spec (h : WsOk k L) (hp : (k.procs p).inUse = true)
    (hroom : ∃ j, ∀ q, j ∉ L q) (hnew : ∀ i ∈ L p, pageOf (k.workingSet i).vaddr ≠ pageOf v)
    (pfa : Frame) (us1 us2 : Option Frame) :
    ∃ t first i, addPmbVaddr k p pfa v us1 us2 =
        some (k.setWs t p first ((k.procs p).lus1Us2Size + 1), i) ∧
      WsOk (k.setWs t p first ((k.procs p).lus1Us2Size + 1)) (update L p (L p ++ [i])) ∧
      (∀ q, i ∉ L q) ∧
      (∀ j, j ≠ i → ∃ x, t j = setNext (k.workingSet j) x) ∧
      ∃ x id, t i = { setNext (newPmb (k.workingSet i) pfa v us1 us2) x with id := id } := by
  obtain ⟨i, hget, hi⟩ := h.owned.getSlot_unlisted pmbPool hroom
  have hlen := h.size p hp
  obtain ⟨t, first, hins, ho, hset⟩ := h.owned.insert (o := p) (i := i)
    (a := newPmb (k.workingSet i) pfa v us1 us2) hi rfl rfl
  have hfirst : wsFirst k p = (k.procs p).lus1Us2 := by simp [wsFirst, hp]
  rw [hfirst, ← hlen] at hins
  have hti : ∃ x, t i = setNext (newPmb (k.workingSet i) pfa v us1 us2) x := by
    obtain ⟨x, hx⟩ := hset i
    exact ⟨x, by simpa using hx⟩
  have htj : ∀ j, j ≠ i → ∃ x, t j = setNext (k.workingSet j) x := by
    intro j hj
    obtain ⟨x, hx⟩ := hset j
    exact ⟨x, by simpa [hj] using hx⟩
  -- the number is written last, and touches neither the link nor the mark
  have ho' := ho.update (i := i) (a := { t i with id := (k.procs p).lus1Us2Size }) rfl rfl
  have hvaddr : ∀ j, j ≠ i → (update t i { t i with id := (k.procs p).lus1Us2Size } j).vaddr =
        (k.workingSet j).vaddr := by
    intro j hj
    obtain ⟨x, hx⟩ := htj j hj
    rw [update_of_ne hj, hx]
    rfl
  obtain ⟨x, hx⟩ := hti
  refine ⟨update t i { t i with id := (k.procs p).lus1Us2Size }, first, i, ?_, ?_, hi,
    ?_, x, (k.procs p).lus1Us2Size, ?_⟩
  · simp only [addPmbVaddr, getPmb, hget]
    simp only [update_self, update_idem]
    rw [show (update k.workingSet i
      { pmbPool.reset (k.workingSet i) with us0 := some pfa, vaddr := v, us1 := us1, us2 := us2 }) =
      update k.workingSet i (newPmb (k.workingSet i) pfa v us1 us2) from rfl, hins]
  · refine setWs_wsOk h hp ho' (by simp [hlen]) ?_ ?_ ?_
    · have hne : ∀ j ∈ L p, j ≠ i := fun j hj heq => hi p (heq ▸ hj)
      have hmap : (L p).map (fun j => pageOf
          (update t i { t i with id := (k.procs p).lus1Us2Size } j).vaddr) =
          (L p).map (fun j => pageOf (k.workingSet j).vaddr) :=
        map_congr_left (fun j hj => by rw [hvaddr j (hne j hj)])
      have hlast : pageOf
          (update t i { t i with id := (k.procs p).lus1Us2Size } i).vaddr = pageOf v := by
        rw [update_self, hx]
        rfl
      rw [map_append, hmap, map_singleton, hlast]
      refine nodup_append.mpr ⟨h.unique p, nodup_singleton _, ?_⟩
      intro a ha b hb
      obtain ⟨j, hj, rfl⟩ := List.mem_map.mp ha
      rw [mem_singleton.mp hb]
      exact hnew j hj
    · intro q _ j hj
      exact hvaddr j (fun heq => hi q (heq ▸ hj))
    intro j
    by_cases hj : j = i
    · subst hj
      rw [update_self, hx]
      exact h.iflags j
    · obtain ⟨y, hy⟩ := htj j hj
      rw [update_of_ne hj, hy]
      exact h.iflags j
  · intro j hj
    rw [update_of_ne hj]
    exact htj j hj
  · rw [update_self, hx]

theorem regionFlags_slotFree {b : PramMemBlock} (hi : IflagsOk b) (hf : b.flags.slotFree = false) :
    (regionFlags b).slotFree = false := by
  unfold regionFlags
  unfold IflagsOk at hi
  cases hfork : b.flags.hFork <;> cases hexec : b.flags.hExec <;>
    simp_all <;> split <;> simp_all

theorem regionFlags_iflagsOk {b : PramMemBlock} (hi : IflagsOk b) :
    IflagsOk { b with flags := regionFlags b } := by
  unfold IflagsOk at hi ⊢
  intro hnew
  by_contra hslot
  have hfork : b.flags.hFork = false := by
    by_contra hc
    exact hslot (hi (.inl (by simpa using hc)))
  have hexec : b.flags.hExec = false := by
    by_contra hc
    exact hslot (hi (.inr (by simpa using hc)))
  simp [regionFlags, hfork, hexec] at hnew

/-! ## Whole regions -/

/-- The blocks on the lists of live processes, as the size counters have it. -/
def totalSize (k : Kernel) : Nat :=
  ∑ p, if (k.procs p).inUse then (k.procs p).lus1Us2Size else 0

/-- How many of the given pages have no block. -/
def missing (k : Kernel) (p : ProcNr) (pages : List VirBytes) : Nat :=
  pages.countP (fun v => lookUpPte k p v = none)

theorem WsOk.totalSize_eq (h : WsOk k L) : totalSize k = ∑ p, (L p).length := by
  refine Finset.sum_congr rfl (fun p _ => ?_)
  cases hp : (k.procs p).inUse with
  | true => simp [h.size p hp]
  | false => simp [h.dead hp]

theorem missing_anti {L' : ProcNr → List (Fin workingSetSize)} (h : WsOk k L) (h' : WsOk k' L')
    (hp : (k.procs p).inUse = true) (hp' : (k'.procs p).inUse = true)
    (hsub : ∀ i ∈ L p, i ∈ L' p ∧ (k'.workingSet i).vaddr = (k.workingSet i).vaddr)
    (pages : List VirBytes) : missing k' p pages ≤ missing k p pages := by
  refine countP_mono_left (fun v _ hv => ?_)
  simp only [decide_eq_true_eq] at hv ⊢
  cases hl : lookUpPte k p v with
  | none => rfl
  | some i =>
    obtain ⟨hi, hiv⟩ := lookUpPte_some h hp hl
    have hne := lookUpPte_none h' hp' hv i (hsub i hi).1
    rw [(hsub i hi).2] at hne
    exact absurd hiv hne

theorem setPmb_regionFlags_wsOk (h : WsOk k L) {q : ProcNr} (hi : i ∈ L q) :
    WsOk (k.setPmb i { k.workingSet i with flags := regionFlags (k.workingSet i) }) L := by
  have hused : (k.workingSet i).flags.slotFree = false := h.owned.used q i hi
  refine (WsSame.setPmb (b := { k.workingSet i with flags := regionFlags (k.workingSet i) }) k i
    rfl ?_ rfl regionFlags_iflagsOk).wsOk h
  rw [regionFlags_slotFree (h.iflags i) hused, hused]

theorem addPageToWs_spec (h : WsOk k L) (hp : (k.procs p).inUse = true) (us1 us2 : Option Frame)
    {pages : List VirBytes} (hroom : missing k p (v :: pages) + totalSize k ≤ workingSetSize) :
    ∃ k' L', addPageToWs p us1 us2 k v = some k' ∧ WsOk k' L' ∧ (k'.procs p).inUse = true ∧
      missing k' p pages + totalSize k' ≤ workingSetSize := by
  cases hl : lookUpPte k p v with
  | some i =>
    obtain ⟨hi, -⟩ := lookUpPte_some h hp hl
    have h1 : WsOk (k.setPmb i { k.workingSet i with us0 := some (k.getPte p v).pfa }) L :=
      (WsSame.setPmb (b := { k.workingSet i with us0 := some (k.getPte p v).pfa }) k i
        rfl rfl rfl (fun hif => hif)).wsOk h
    have h2 := setPmb_regionFlags_wsOk h1 hi
    refine ⟨_, L, by simp only [addPageToWs, hl], h2, hp, ?_⟩
    have hmiss := missing_anti h h2 hp hp (fun j hj => ⟨hj, by
      by_cases hji : j = i
      · subst hji
        simp [Kernel.setPmb]
      · simp [Kernel.setPmb, hji]⟩) pages
    have hcons : missing k p (v :: pages) = missing k p pages := by simp [missing, hl]
    rw [h2.totalSize_eq, ← h.totalSize_eq]
    omega
  | none =>
    have hcons : missing k p (v :: pages) = missing k p pages + 1 := by
      simp [missing, hl]
    have hex : ∃ j, ∀ q, j ∉ L q := by
      refine Owned.exists_unlisted (L := L) ?_
      rw [← h.totalSize_eq]
      omega
    obtain ⟨t, first, i, hadd, h1, hi, htj, -⟩ := addPmbVaddr_spec h hp hex
      (lookUpPte_none h hp hl) (k.getPte p v).pfa us1 us2
    have himem : i ∈ update L p (L p ++ [i]) p := by simp
    have h2 := setPmb_regionFlags_wsOk h1 himem
    have hp2 : ((k.setWs t p first ((k.procs p).lus1Us2Size + 1)).procs p).inUse = true := by
      simp [Kernel.setWs, hp]
    refine ⟨_, _, by simp only [addPageToWs, hl, hadd], h2, hp2, ?_⟩
    have hmiss := missing_anti h h2 hp hp2
      (fun j hj => ⟨by simp [hj], by
        have hji : j ≠ i := fun heq => hi p (heq ▸ hj)
        obtain ⟨x, hx⟩ := htj j hji
        simp only [Kernel.setPmb, Kernel.setWs, update_of_ne hji, hx]
        rfl⟩) pages
    have htot := Owned.sum_length_update L p (L p ++ [i])
    simp only [length_append, length_singleton] at htot
    have htotal : totalSize k = ∑ q, (L q).length := h.totalSize_eq
    rw [h2.totalSize_eq]
    omega

theorem foldlM_addPageToWs_spec (us1 us2 : Option Frame) :
    ∀ {pages : List VirBytes} {k : Kernel} {L : ProcNr → List (Fin workingSetSize)}, WsOk k L →
      (k.procs p).inUse = true → missing k p pages + totalSize k ≤ workingSetSize →
      ∃ k' L', pages.foldlM (addPageToWs p us1 us2) k = some k' ∧ WsOk k' L' := by
  intro pages
  induction pages with
  | nil => intro k L h _ _; exact ⟨k, L, rfl, h⟩
  | cons v pages ih =>
    intro k L h hp hroom
    obtain ⟨k1, L1, hadd, h1, hp1, hroom1⟩ := addPageToWs_spec h hp us1 us2 hroom
    obtain ⟨k', L', hrest, h'⟩ := ih h1 hp1 hroom1
    exact ⟨k', L', by simp [foldlM_cons, hadd, hrest], h'⟩

end Operations

end HardenedMinix
