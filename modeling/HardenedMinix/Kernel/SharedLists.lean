import HardenedMinix.Kernel.Run

/-!
# The lists of shared regions

A region and a process entry have one link field each, so the lists of all sharing processes are
the list of all regions, and conversely. That is right as long as several processes share one
region, or one process has several.
-/

open Function List

namespace HardenedMinix

open Lib Linked Kernel

/-- The list from `first` ends, its length is `n`, and it holds the records named by `names`,
each once. -/
def Lists {α : Type} {m : Nat} [Linked α m] (t : Table α m) (first : Option (Fin m)) (n : Int)
    (name : α → Nat) (names : Nat → Prop) : Prop :=
  ∃ l, Chain t first l ∧ n = l.length ∧ (l.map (fun i => name (t i))).Nodup ∧
    ∀ x, x ∈ l.map (fun i => name (t i)) ↔ names x

/-- The lists are right, where `added p` are the regions `p` has added and not freed. -/
structure SharedOk (k : Kernel) (added : ProcNr → Finset Nat) : Prop where
  regions : ∀ p, Lists k.hardeningSharedRegions (k.procs p).hardeningSharedRegions
    (k.procs p).nbHardeningSharedRegions HardeningSharedRegion.rId (· ∈ added p)
  sharers : ∀ l, Chain k.hardeningSharedRegions k.allHsrS l → ∀ h ∈ l,
    Lists k.hardeningSharedProcs (k.hardeningSharedRegions h).rHsp
      (k.hardeningSharedRegions h).nHsp HardeningSharedProc.hspEndpoint
      (fun e => ∃ p, (k.procs p).endpoint = e ∧ (k.hardeningSharedRegions h).rId ∈ added p)
  allRegions : Lists k.hardeningSharedRegions k.allHsrS k.nHsrs HardeningSharedRegion.rId
    (fun x => ∃ p, x ∈ added p)
  allProcs : Lists k.hardeningSharedProcs k.allHspS k.nHsps HardeningSharedProc.hspEndpoint
    (fun e => ∃ p, (k.procs p).endpoint = e ∧ (added p).Nonempty)

/-! ## Runs -/

/-- A kernel with the regions each process has added and not freed. -/
structure SharedState where
  kernel : Kernel
  added : ProcNr → Finset Nat

/-- A call of `add_hsr` or of `free_hsrs`. -/
inductive SharedOp where
  | add (p : ProcNr) (offset size rId : Nat)
  | free (p : ProcNr)

/-- Carry out a call; `none` is a panic, a failed assertion or an endless walk. -/
def SharedOp.run (s : SharedState) : SharedOp → Option SharedState
  | .add p offset size rId =>
    (addHsr s.kernel p offset size rId).map
      (fun k => ⟨k, update s.added p (insert rId (s.added p))⟩)
  | .free p => (freeHsrs s.kernel p).map (fun k => ⟨k, update s.added p ∅⟩)

/-- The tables are fresh, no process shares anything, and processes have endpoints of their
own. -/
structure SharedInitial (s : SharedState) : Prop where
  regions : s.kernel.hardeningSharedRegions = hsrPool.initTable
  procs : s.kernel.hardeningSharedProcs = hspPool.initTable
  allHsrS : s.kernel.allHsrS = none ∧ s.kernel.nHsrs = 0
  allHspS : s.kernel.allHspS = none ∧ s.kernel.nHsps = 0
  lists : ∀ p, (s.kernel.procs p).hardeningSharedRegions = none ∧
    (s.kernel.procs p).nbHardeningSharedRegions = 0 ∧ s.added p = ∅
  endpoints : Injective (fun p => (s.kernel.procs p).endpoint)

/-- The states after calls that all satisfy `good` where they are made. -/
inductive SharedReachable (good : SharedState → SharedOp → Prop) : SharedState → Prop where
  | init {s : SharedState} : SharedInitial s → SharedReachable good s
  | step {s s' : SharedState} (op : SharedOp) :
      SharedReachable good s → good s op → op.run s = some s' → SharedReachable good s'

/-- The calls the link field has room for: a region the process has already, at that address; a new
one, with a slot for it, while nobody else shares anything; or the only region, by a process that
has none. A process may free its regions if it has none or is first of all entries. -/
def SharedGood (s : SharedState) : SharedOp → Prop
  | .add p offset size rId =>
    (lookUpHsr s.kernel p offset size rId).isSome = true ∨
    (lookUpUniqueHsr s.kernel rId = none ∧
      (∀ q, q ≠ p → (s.kernel.procs q).nbHardeningSharedRegions = 0) ∧
      s.kernel.nHsrs < hardeningSharedRegionsSize) ∨
    ((lookUpUniqueHsr s.kernel rId).isSome = true ∧ s.kernel.nHsrs = 1 ∧
      (s.kernel.procs p).nbHardeningSharedRegions = 0 ∧
      s.kernel.nHsps < hardeningSharedProcsSize)
  | .free p =>
    (s.kernel.procs p).nbHardeningSharedRegions = 0 ∨
      ∃ i, s.kernel.allHspS = some i ∧
        (s.kernel.hardeningSharedProcs i).hspEndpoint = (s.kernel.procs p).endpoint

/-! ## Appending to a list that already ends with the record -/

section Append

variable {α : Type} {n : Nat} [Linked α n] {t : Table α n} {first : Option (Fin n)}
  {l : List (Fin n)} {r : Fin n}

theorem insertLast_eq_addAll (h : Chain t first l) :
    insertLast t first l.length r = some (addAll t first r) := by
  cases h with
  | nil => simp [insertLast, addAll]
  | cons h => simp [insertLast, addAll]

theorem insertLast_last (hset : ∀ (a : α) o o', setNext (setNext a o) o' = setNext a o')
    (h : Chain t first (l ++ [r])) {size : Nat} (hsize : size ≠ 0) :
    insertLast t first size r = some (t, first) := by
  obtain ⟨i, rest, hl⟩ : ∃ i rest, l ++ [r] = i :: rest := by
    cases l with
    | nil => exact ⟨r, [], rfl⟩
    | cons i l => exact ⟨i, l ++ [r], rfl⟩
  have hlast : (i :: rest).getLast (cons_ne_nil i rest) = r := by
    simp only [← hl, getLast_append, getLast_singleton]
    simp
  rw [hl] at h
  obtain ⟨rfl, -⟩ := h.start_of_cons
  have hlen : rest.length ≤ n := Nat.le_of_succ_le h.length_le
  have hfrom : lastFrom t n i = r := (lastFrom_of_chain h hlen).trans hlast
  have hnone : next (t r) = none := by
    have hc := h
    rw [← hl] at hc
    obtain ⟨o, hr⟩ := hc.of_append
    exact hr.start_of_cons.2.eq_none_of_nil
  have hself : setNext (setNext (t r) (some r)) none = t r := by
    rw [hset, ← hnone, setNext_next]
  simp only [insertLast, hsize, if_false, hfrom, update_self, update_idem, hself, update_eq_self]

theorem getSlot_addAll (P : Pool α n) {all : Option (Fin n)}
    (h : Owned t (fun _ : Unit => all) (fun _ => l)) (hlen : l.length < n) (write : α → α)
    (hnext : ∀ a, next (write (P.reset a)) = none)
    (hfree : ∀ a, free (write (P.reset a)) = false) :
    ∃ i t' all', P.getSlot t = some (update t i (P.reset (t i)), i) ∧ i ∉ l ∧
      addAll (update t i (write (P.reset (t i)))) all i = (t', all') ∧
      Owned t' (fun _ : Unit => all') (fun _ => l ++ [i]) ∧
      ∀ j, ∃ x, t' j = setNext (update t i (write (P.reset (t i))) j) x := by
  obtain ⟨i, hget, hi⟩ := h.getSlot_unlisted P
    (Owned.exists_unlisted (L := fun _ : Unit => l) (by simpa using hlen))
  obtain ⟨t', all', hins, howned, hset⟩ := h.insert (o := ()) (a := write (P.reset (t i))) hi
    (hnext _) (hfree _)
  have hil : i ∉ l := hi ()
  have hchain : Chain (update t i (write (P.reset (t i)))) all l :=
    (h.chain ()).congr (fun j hj => by
      have hji : j ≠ i := fun heq => hil (heq ▸ hj)
      rw [update_of_ne hji])
  rw [insertLast_eq_addAll hchain, Option.some.injEq] at hins
  refine ⟨i, t', all', hget, hil, hins, ?_, hset⟩
  convert howned using 1
  · funext _
    simp
  · funext _
    simp

theorem owned_drop_head {i : Fin n} {a : α}
    (h : Owned t (fun _ : Unit => first) (fun _ => i :: l)) (hfree : free a = true) :
    Owned (update t i a) (fun _ : Unit => next (t i)) (fun _ => l) := by
  have hi : i ∉ l := (nodup_cons.mp (h.nodup ())).1
  have hne : ∀ j ∈ l, j ≠ i := fun j hj heq => hi (heq ▸ hj)
  constructor
  case chain =>
    intro _
    apply (h.chain ()).start_of_cons.2.congr
    intro j hj
    rw [update_of_ne (hne j hj)]
  case disjoint =>
    intro o o' ho
    exact absurd rfl ho
  case used =>
    intro _ j hj
    rw [update_of_ne (hne j hj)]
    exact h.used () j (mem_cons_of_mem _ hj)
  case marked =>
    intro j hj hnot
    by_cases hji : j = i
    · rw [hji, update_self, hfree]
    · rw [update_of_ne hji]
      apply h.marked j hj
      intro _ hmem
      exact hnot () (by simpa [hji] using hmem)

theorem searchPrev_head {i : Fin n} {pred : α → Bool} (h : Chain t first (i :: l))
    (hi : pred (t i) = true) : searchPrev t pred n none first = some (none, i) := by
  have hchain : Chain t first ([] ++ i :: l) := h
  exact searchPrev_of_chain none hchain (by simp) hi (Nat.lt_of_lt_of_le (by simp) h.length_le)

theorem unlink_head {i : Fin n} (pred : α → Bool) (clear : α → α) (h : Chain t first (i :: l))
    (hi : pred (t i) = true) (hclear : ∀ a, next (clear a) = next a) :
    unlink t pred clear first = some (update t i (clear (t i)), next (t i)) := by
  simp [unlink, searchPrev_head h hi, hclear]

end Append

/-! ## The invariant -/

/-- The regions `R`, the entries `P` in use, and the processes `Q` in the order of their entries:
every list of regions is `R` and every list of entries is `P`. -/
structure Sharing (k : Kernel) (added : ProcNr → Finset Nat)
    (R : List (Fin hardeningSharedRegionsSize)) (P : List (Fin hardeningSharedProcsSize))
    (Q : List ProcNr) : Prop where
  regions : Owned k.hardeningSharedRegions (fun _ : Unit => k.allHsrS) (fun _ => R)
  procs : Owned k.hardeningSharedProcs (fun _ : Unit => k.allHspS) (fun _ => P)
  nHsrs : k.nHsrs = R.length
  nHsps : k.nHsps = P.length
  names : P.map (fun s => (k.hardeningSharedProcs s).hspEndpoint) =
    Q.map (fun p => (k.procs p).endpoint)
  once : Q.Nodup
  ids : (R.map (fun h => (k.hardeningSharedRegions h).rId)).Nodup
  sharing : ∀ p ∈ Q, (k.procs p).hardeningSharedRegions = k.allHsrS ∧
    (k.procs p).nbHardeningSharedRegions = R.length ∧
    added p = (R.map (fun h => (k.hardeningSharedRegions h).rId)).toFinset
  idle : ∀ p ∉ Q, (k.procs p).hardeningSharedRegions = none ∧
    (k.procs p).nbHardeningSharedRegions = 0 ∧ added p = ∅
  sharers : ∀ h ∈ R, (k.hardeningSharedRegions h).rHsp = k.allHspS ∧
    (k.hardeningSharedRegions h).nHsp = P.length
  unused : ∀ h ∉ R, (k.hardeningSharedRegions h).nHsp = 0
  endpoints : Injective (fun p => (k.procs p).endpoint)

/-- Between calls there is one region or one process, and regions exactly if processes share them.
-/
def SharedInv (s : SharedState) : Prop :=
  ∃ R P Q, Sharing s.kernel s.added R P Q ∧ (R.length ≤ 1 ∨ Q.length ≤ 1) ∧ (R = [] ↔ Q = [])

namespace Sharing

variable {k : Kernel} {added : ProcNr → Finset Nat} {R : List (Fin hardeningSharedRegionsSize)}
  {P : List (Fin hardeningSharedProcsSize)} {Q : List ProcNr} {p : ProcNr}

theorem length_eq (h : Sharing k added R P Q) : P.length = Q.length := by
  simpa using congrArg List.length h.names

theorem mem_names (h : Sharing k added R P Q) {e : Nat} :
    e ∈ P.map (fun s => (k.hardeningSharedProcs s).hspEndpoint) ↔
      ∃ q ∈ Q, (k.procs q).endpoint = e := by
  rw [h.names, List.mem_map]

theorem endpoint_mem (h : Sharing k added R P Q) :
    (k.procs p).endpoint ∈ P.map (fun s => (k.hardeningSharedProcs s).hspEndpoint) ↔ p ∈ Q := by
  rw [h.mem_names]
  constructor
  · rintro ⟨q, hq, heq⟩
    exact h.endpoints heq ▸ hq
  · intro hp
    exact ⟨p, hp, rfl⟩

theorem sharedOk (h : Sharing k added R P Q) (hempty : R = [] ↔ Q = []) : SharedOk k added := by
  have hnames : (P.map (fun s => (k.hardeningSharedProcs s).hspEndpoint)).Nodup := by
    rw [h.names]
    exact (nodup_map_iff h.endpoints).mpr h.once
  have hadded : ∀ p, p ∈ Q ↔ (added p).Nonempty := by
    intro p
    constructor
    · intro hp
      have hR : R ≠ [] := fun hnil => by simp [hempty.mp hnil] at hp
      rw [(h.sharing p hp).2.2, toFinset_nonempty_iff]
      simpa using hR
    · intro hne
      by_contra hp
      simp [(h.idle p hp).2.2] at hne
  have hany : ∀ x, x ∈ R.map (fun i => (k.hardeningSharedRegions i).rId) ↔ ∃ p, x ∈ added p := by
    intro x
    constructor
    · intro hx
      obtain ⟨q, hq⟩ : ∃ q, q ∈ Q := by
        apply exists_mem_of_ne_nil
        intro hnil
        simp [hempty.mpr hnil] at hx
      exact ⟨q, by rw [(h.sharing q hq).2.2, List.mem_toFinset]; exact hx⟩
    · rintro ⟨q, hx⟩
      have hq : q ∈ Q := (hadded q).mpr ⟨x, hx⟩
      rwa [(h.sharing q hq).2.2, List.mem_toFinset] at hx
  constructor
  case regions =>
    intro p
    by_cases hp : p ∈ Q
    · obtain ⟨hfirst, hnb, hset⟩ := h.sharing p hp
      refine ⟨R, hfirst ▸ h.regions.chain (), hnb, h.ids, fun x => ?_⟩
      show _ ↔ x ∈ added p
      rw [hset, List.mem_toFinset]
    · obtain ⟨hfirst, hnb, hset⟩ := h.idle p hp
      refine ⟨[], hfirst ▸ .nil, hnb, nodup_nil, fun x => ?_⟩
      simp [hset]
  case sharers =>
    intro l hl i hi
    obtain rfl : l = R := hl.unique (h.regions.chain ())
    obtain ⟨hhsp, hn⟩ := h.sharers i hi
    refine ⟨P, hhsp ▸ h.procs.chain (), hn, hnames, fun e => ?_⟩
    rw [h.mem_names]
    constructor
    · rintro ⟨q, hq, rfl⟩
      refine ⟨q, rfl, ?_⟩
      rw [(h.sharing q hq).2.2, List.mem_toFinset]
      exact List.mem_map_of_mem hi
    · rintro ⟨q, rfl, hmem⟩
      exact ⟨q, (hadded q).mpr ⟨_, hmem⟩, rfl⟩
  case allRegions => exact ⟨R, h.regions.chain (), h.nHsrs, h.ids, hany⟩
  case allProcs =>
    refine ⟨P, h.procs.chain (), h.nHsps, hnames, fun e => ?_⟩
    rw [h.mem_names]
    constructor
    · rintro ⟨q, hq, rfl⟩
      exact ⟨q, rfl, (hadded q).mp hq⟩
    · rintro ⟨q, rfl, hne⟩
      exact ⟨q, (hadded q).mpr hne, rfl⟩

/-! ### Look-up -/

theorem lookUpUniqueHsr_eq (h : Sharing k added R P Q) (rId : Nat) : lookUpUniqueHsr k rId =
      R.find? (fun i => (k.hardeningSharedRegions i).rId == rId) := by
  rw [lookUpUniqueHsr, findHsr, search_eq_of_chain (h.regions.chain ()), h.nHsrs]
  cases R with
  | nil => simp
  | cons i R => simp

theorem findHsp_eq (h : Sharing k added R P Q) (e : Nat) : findHsp k k.allHspS P.length e =
      P.find? (fun s => (k.hardeningSharedProcs s).hspEndpoint == e) := by
  rw [findHsp, search_eq_of_chain (h.procs.chain ())]
  cases P with
  | nil => simp
  | cons i P => simp

theorem findHsp_none (h : Sharing k added R P Q) (hp : p ∉ Q) :
    findHsp k k.allHspS P.length (k.procs p).endpoint = none := by
  rw [h.findHsp_eq, List.find?_eq_none]
  intro s hs heq
  apply hp
  rw [← h.endpoint_mem, List.mem_map]
  exact ⟨s, hs, by simpa using heq⟩

end Sharing

/-! ## Adding a region -/

section Add

variable {k : Kernel} {p : ProcNr} {i : Fin hardeningSharedRegionsSize}
  {s : Fin hardeningSharedProcsSize}

theorem addHsp_present (hn : (k.hardeningSharedRegions i).nHsp = 0)
    (hall : findHsp k k.allHspS k.nHsps (k.procs p).endpoint = some s) :
    addHsp k p i = some (k.setHsr i
      { k.hardeningSharedRegions i with rHsp := some s, nHsp := 1 }) := by
  have hnone : findHsp k (k.hardeningSharedRegions i).rHsp 0 (k.procs p).endpoint = none := by
    simp [findHsp]
  simp [addHsp, hn, hall, hnone, insertLast]

theorem addHsp_new {t : Table HardeningSharedProc hardeningSharedProcsSize}
    {all : Option (Fin hardeningSharedProcsSize)}
    (hregion : findHsp k (k.hardeningSharedRegions i).rHsp (k.hardeningSharedRegions i).nHsp
      (k.procs p).endpoint = none)
    (hall : findHsp k k.allHspS k.nHsps (k.procs p).endpoint = none)
    (hget : getHsp k.hardeningSharedProcs = some
      (update k.hardeningSharedProcs s (hspPool.reset (k.hardeningSharedProcs s)), s))
    (hadd : addAll (update k.hardeningSharedProcs s
      { hspPool.reset (k.hardeningSharedProcs s) with
        hspEndpoint := (k.procs p).endpoint, id := (k.hardeningSharedRegions i).nHsp })
      k.allHspS s = (t, all))
    (hins : insertLast t (k.hardeningSharedRegions i).rHsp
      (k.hardeningSharedRegions i).nHsp.natAbs s = some (t, all)) :
    addHsp k p i = some
      ({ k with hardeningSharedProcs := t, allHspS := all, nHsps := k.nHsps + 1 }.setHsr i
        { k.hardeningSharedRegions i with
          rHsp := all, nHsp := (k.hardeningSharedRegions i).nHsp + 1 }) := by
  simp only [addHsp, hregion, hall, hget, update_self, update_idem, hadd, hins]

theorem addHsp_only {P : List (Fin hardeningSharedProcsSize)}
    (howned : Owned k.hardeningSharedProcs (fun _ : Unit => k.allHspS) (fun _ => P))
    (hnHsps : k.nHsps = P.length) (hn : (k.hardeningSharedRegions i).nHsp = 0)
    (hP : P = [] ∨ ∃ s, P = [s] ∧ (k.hardeningSharedProcs s).hspEndpoint = (k.procs p).endpoint) :
    ∃ t s, addHsp k p i = some
        ({ k with hardeningSharedProcs := t, allHspS := some s, nHsps := 1 }.setHsr i
          { k.hardeningSharedRegions i with rHsp := some s, nHsp := 1 }) ∧
      Owned t (fun _ : Unit => some s) (fun _ => [s]) ∧
      (t s).hspEndpoint = (k.procs p).endpoint ∧ (P ≠ [] → k.allHspS = some s) := by
  rcases hP with rfl | ⟨s, rfl, hname⟩
  · have hzero : k.nHsps = 0 := by simpa using hnHsps
    have hfirst : k.allHspS = none := (howned.chain ()).eq_none_of_nil
    obtain ⟨s, t, all, hget, -, hadd, howned', hset⟩ := getSlot_addAll hspPool howned (by simp)
        (fun e => { e with
          hspEndpoint := (k.procs p).endpoint, id := (k.hardeningSharedRegions i).nHsp })
        (fun _ => rfl) (fun _ => rfl)
    have hall : all = some s := (howned'.chain ()).start_of_cons.1
    subst hall
    have hrun := addHsp_new (p := p) (by simp [findHsp, hn]) (by simp [findHsp, hzero]) hget hadd
      (by simp [insertLast, hn])
    rw [hzero, hn, zero_add] at hrun
    refine ⟨t, s, hrun, howned', ?_, fun hne => absurd rfl hne⟩
    obtain ⟨x, hx⟩ := hset s
    rw [hx, update_self]
    rfl
  have hone : k.nHsps = 1 := by simpa using hnHsps
  have hfirst : k.allHspS = some s := (howned.chain ()).start_of_cons.1
  have hfind : findHsp k k.allHspS k.nHsps (k.procs p).endpoint = some s := by
    rw [findHsp, search_eq_of_chain (howned.chain ()), hone]
    simp [hname]
  refine ⟨k.hardeningSharedProcs, s, ?_, hfirst ▸ howned, hname, fun _ => hfirst⟩
  rw [addHsp_present hn hfind, ← hfirst, ← hone]

theorem addHsr_found {k' : Kernel} {first : Option (Fin hardeningSharedRegionsSize)}
    {offset size rId : Nat} (hnone : lookUpHsr k p offset size rId = none)
    (hunique : lookUpUniqueHsr k rId = some i)
    (hins : insertLast k.hardeningSharedRegions (k.procs p).hardeningSharedRegions
      (k.procs p).nbHardeningSharedRegions.natAbs i = some (k.hardeningSharedRegions, first))
    (hrec : addHsp (k.setHsrs p first (k.procs p).nbHardeningSharedRegions) p i = some k') :
    addHsr k p offset size rId = some (k'.setHsrs p (k'.procs p).hardeningSharedRegions
      ((k'.procs p).nbHardeningSharedRegions + 1)) := by
  simp only [addHsr, hnone, hunique, hins]
  rw [hrec]

theorem addHsr_new {k' : Kernel} {t : Table HardeningSharedRegion hardeningSharedRegionsSize}
    {all : Option (Fin hardeningSharedRegionsSize)} {offset size rId : Nat}
    (hnone : lookUpHsr k p offset size rId = none) (hunique : lookUpUniqueHsr k rId = none)
    (hget : getHsr k.hardeningSharedRegions = some
      (update k.hardeningSharedRegions i (hsrPool.reset (k.hardeningSharedRegions i)), i))
    (hadd : addAll (update k.hardeningSharedRegions i
      { hsrPool.reset (k.hardeningSharedRegions i) with
        vaddr := offset, length := size, rId := rId
        id := (k.procs p).nbHardeningSharedRegions }) k.allHsrS i = (t, all))
    (hins : insertLast t (k.procs p).hardeningSharedRegions
      (k.procs p).nbHardeningSharedRegions.natAbs i = some (t, all))
    (hrec : addHsp ({ k with
        hardeningSharedRegions := t, allHsrS := all, nHsrs := k.nHsrs + 1 }.setHsrs p all
      (k.procs p).nbHardeningSharedRegions) p i = some k') :
    addHsr k p offset size rId = some (k'.setHsrs p (k'.procs p).hardeningSharedRegions
      ((k'.procs p).nbHardeningSharedRegions + 1)) := by
  simp only [addHsr, hnone, hunique, hget, update_self, update_idem, hadd, hins]
  rw [hrec]

end Add

section SetHsrs

variable (k : Kernel) (p q : ProcNr) (first : Option (Fin hardeningSharedRegionsSize)) (nb : Int)

@[simp] theorem setHsrs_procs_self : (k.setHsrs p first nb).procs p =
    { k.procs p with hardeningSharedRegions := first, nbHardeningSharedRegions := nb } :=
  update_self _ _ _

theorem setHsrs_procs_of_ne {p q : ProcNr} (h : q ≠ p) :
    (k.setHsrs p first nb).procs q = k.procs q :=
  update_of_ne h _ _

@[simp] theorem setHsrs_endpoint :
    ((k.setHsrs p first nb).procs q).endpoint = (k.procs q).endpoint := by
  by_cases hq : q = p
  · subst hq
    rw [setHsrs_procs_self]
  · rw [setHsrs_procs_of_ne k first nb hq]

end SetHsrs

namespace Sharing

variable {k : Kernel} {added : ProcNr → Finset Nat} {R : List (Fin hardeningSharedRegionsSize)}
  {P : List (Fin hardeningSharedProcsSize)} {Q : List ProcNr} {p : ProcNr}

variable {i : Fin hardeningSharedRegionsSize} {s : Fin hardeningSharedProcsSize}

theorem attach (h : Sharing k added [i] P Q) (hp : p ∉ Q)
    (hQ : Q ≠ []) (hroom : P.length < hardeningSharedProcsSize) (offset size : Nat) :
    ∃ k' s, addHsr k p offset size (k.hardeningSharedRegions i).rId = some k' ∧
      Sharing k' (update added p
        (insert (k.hardeningSharedRegions i).rId (added p))) [i] (P ++ [s]) (Q ++ [p]) := by
  obtain ⟨hnone, hnb, hadded⟩ := h.idle p hp
  obtain ⟨hhsp, hn⟩ := h.sharers i (mem_singleton.mpr rfl)
  have hfirst : k.allHsrS = some i := (h.regions.chain ()).start_of_cons.1
  have hPlen : P.length ≠ 0 := by
    rw [h.length_eq]
    exact fun hlen => hQ (length_eq_zero_iff.mp hlen)
  -- the new entry ends the list of all entries, which is the list of the region
  obtain ⟨s, t, all, hget, hs, hadd, howned, hset⟩ := getSlot_addAll hspPool h.procs hroom
      (fun e => { e with
        hspEndpoint := (k.procs p).endpoint, id := (k.hardeningSharedRegions i).nHsp })
      (fun _ => rfl) (fun _ => rfl)
  have hall : all = k.allHspS := by
    obtain ⟨j, P', hPj⟩ := exists_cons_of_length_pos (Nat.pos_of_ne_zero hPlen)
    have hold := (h.procs.chain ()).start_eq_head?
    have hnew := (howned.chain ()).start_eq_head?
    rw [hPj] at hold hnew
    exact hnew.trans hold.symm
  have hins : insertLast t (k.hardeningSharedRegions i).rHsp
      (k.hardeningSharedRegions i).nHsp.natAbs s = some (t, all) := by
    rw [hhsp, hall]
    refine insertLast_last (fun _ _ _ => rfl) (hall ▸ howned.chain ()) ?_
    simpa [hn] using hPlen
  have hfind := h.findHsp_none hp
  have hrec := addHsp_new (k := k.setHsrs p (some i) 0) (p := p) (i := i) (s := s) (t := t)
    (by
      show findHsp k (k.hardeningSharedRegions i).rHsp (k.hardeningSharedRegions i).nHsp _ = none
      rw [hhsp, hn, setHsrs_endpoint]
      exact hfind) (by
      show findHsp k k.allHspS k.nHsps _ = none
      rw [h.nHsps, setHsrs_endpoint]
      exact hfind) hget (by rw [setHsrs_endpoint]; exact hadd) hins
  have hunique : lookUpUniqueHsr k (k.hardeningSharedRegions i).rId = some i := by
    rw [h.lookUpUniqueHsr_eq]
    simp
  have hrun : addHsr k p offset size (k.hardeningSharedRegions i).rId = some _ :=
    addHsr_found (by simp [lookUpHsr, hnb]) hunique (by simp [insertLast, hnb]) (hnb ▸ hrec)
  refine ⟨_, s, hrun, ?_⟩
  clear hrun
  generalize hK : setHsrs _ p _ _ = K
  have hregions : K.hardeningSharedRegions = update k.hardeningSharedRegions i
      { k.hardeningSharedRegions i with
        rHsp := all, nHsp := (k.hardeningSharedRegions i).nHsp + 1 } := by
    rw [← hK]
    rfl
  have hprocs : K.hardeningSharedProcs = t ∧ K.allHspS = all ∧ K.nHsps = k.nHsps + 1 := by
    rw [← hK]
    exact ⟨rfl, rfl, rfl⟩
  have hself : K.procs p = { k.procs p with
      hardeningSharedRegions := some i, nbHardeningSharedRegions := 1 } := by
    rw [← hK, setHsrs_procs_self]
    simp [setHsr, hnb]
  have hother : ∀ q, q ≠ p → K.procs q = k.procs q := by
    intro q hq
    rw [← hK, setHsrs_procs_of_ne _ _ _ hq]
    exact setHsrs_procs_of_ne k _ _ hq
  have hglobal : K.allHsrS = k.allHsrS ∧ K.nHsrs = k.nHsrs := by
    rw [← hK]
    exact ⟨rfl, rfl⟩
  have hrId : ∀ j, (K.hardeningSharedRegions j).rId = (k.hardeningSharedRegions j).rId := by
    intro j
    rw [hregions]
    by_cases hj : j = i
    · rw [hj, update_self]
    · rw [update_of_ne hj]
  have hend : ∀ q, (K.procs q).endpoint = (k.procs q).endpoint := by
    intro q
    by_cases hq : q = p
    · rw [hq, hself]
    · rw [hother q hq]
  have hname : ∀ j, (t j).hspEndpoint = if j = s then (k.procs p).endpoint
      else (k.hardeningSharedProcs j).hspEndpoint := by
    intro j
    obtain ⟨x, hx⟩ := hset j
    by_cases hj : j = s
    · subst hj
      rw [if_pos rfl, hx, update_self]
      rfl
    · rw [if_neg hj, hx, update_of_ne hj]
      rfl
  constructor
  case regions =>
    rw [hregions, hglobal.1]
    exact h.regions.update rfl rfl
  case procs =>
    rw [hprocs.1, hprocs.2.1]
    exact howned
  case nHsrs => rw [hglobal.2, h.nHsrs]
  case nHsps => simp [hprocs.2.2, h.nHsps]
  case names =>
    simp only [hprocs.1, hname, hend, map_append, map_cons, map_nil, if_true]
    rw [← h.names]
    congr 1
    apply map_congr_left
    intro j hj
    have hjs : j ≠ s := fun heq => hs (heq ▸ hj)
    rw [if_neg hjs]
  case once =>
    rw [nodup_append]
    refine ⟨h.once, nodup_singleton p, fun q hq r hr heq => ?_⟩
    rw [mem_singleton] at hr
    exact hp (hr ▸ heq ▸ hq)
  case ids => simp
  case sharing =>
    intro q hq
    by_cases hqp : q = p
    · subst hqp
      rw [hself, hglobal.1, hfirst, update_self, hadded]
      simp [hrId]
    · have hmem : q ∈ Q := by simpa [hqp] using hq
      obtain ⟨hf, hnb', hset'⟩ := h.sharing q hmem
      rw [hother q hqp, hglobal.1, update_of_ne hqp]
      exact ⟨hf, hnb', by simpa [hrId] using hset'⟩
  case idle =>
    intro q hq
    have hqp : q ≠ p := fun heq => hq (by simp [heq])
    rw [hother q hqp, update_of_ne hqp]
    exact h.idle q (fun hmem => hq (mem_append_left _ hmem))
  case sharers =>
    intro j hj
    rw [mem_singleton] at hj
    rw [hj, hregions, update_self, hprocs.2.1]
    simp [hn]
  case unused =>
    intro j hj
    have hji : j ≠ i := by simpa using hj
    rw [hregions, update_of_ne hji]
    exact h.unused j hj
  case endpoints =>
    intro a b hab
    simp only [hend] at hab
    exact h.endpoints hab

theorem extend (h : Sharing k added R P Q) (hQ : (Q = [] ∧ R = []) ∨ (Q = [p] ∧ R ≠ []))
    (hroom : R.length < hardeningSharedRegionsSize) {offset size rId : Nat}
    (hnone : lookUpHsr k p offset size rId = none) (hunique : lookUpUniqueHsr k rId = none) :
    ∃ k' i s, addHsr k p offset size rId = some k' ∧
      Sharing k' (update added p (insert rId (added p))) (R ++ [i]) [s] [p] := by
  have hnb : (k.procs p).nbHardeningSharedRegions = R.length := by
    rcases hQ with ⟨rfl, rfl⟩ | ⟨rfl, -⟩
    · exact (h.idle p (by simp)).2.1
    · exact (h.sharing p (by simp)).2.1
  have hadded : added p = (R.map (fun h => (k.hardeningSharedRegions h).rId)).toFinset := by
    rcases hQ with ⟨rfl, rfl⟩ | ⟨rfl, -⟩
    · exact (h.idle p (by simp)).2.2
    · exact (h.sharing p (by simp)).2.2
  have hidle : ∀ q, q ≠ p → q ∉ Q := by
    intro q hq
    rcases hQ with ⟨rfl, -⟩ | ⟨rfl, -⟩ <;> simp [hq]
  have hfresh : rId ∉ R.map (fun j => (k.hardeningSharedRegions j).rId) := by
    rw [h.lookUpUniqueHsr_eq, List.find?_eq_none] at hunique
    intro hmem
    obtain ⟨j, hj, heq⟩ := List.mem_map.mp hmem
    exact hunique j hj (by simpa using heq)
  obtain ⟨i, t, all, hget, hi, hadd, howned, hset⟩ := getSlot_addAll hsrPool h.regions hroom
      (fun r => { r with
        vaddr := offset, length := size, rId := rId
        id := (k.procs p).nbHardeningSharedRegions })
      (fun _ => rfl) (fun _ => rfl)
  -- the list of all regions, extended by the new one, is the list of the process
  have hins : insertLast t (k.procs p).hardeningSharedRegions
      (k.procs p).nbHardeningSharedRegions.natAbs i = some (t, all) := by
    rcases hQ with ⟨rfl, rfl⟩ | ⟨rfl, hR⟩
    · have hall : all = some i := (howned.chain ()).start_of_cons.1
      simp [insertLast, hnb, hall]
    obtain ⟨j, R', rfl⟩ := exists_cons_of_ne_nil hR
    have hold := (h.regions.chain ()).start_eq_head?
    have hnew := (howned.chain ()).start_eq_head?
    have hall : (k.procs p).hardeningSharedRegions = all := by
      rw [(h.sharing p (by simp)).1, hold, hnew]
      rfl
    rw [hall]
    refine insertLast_last (fun _ _ _ => rfl) (howned.chain ()) ?_
    rw [hnb, Int.natAbs_natCast]
    exact Nat.succ_ne_zero _
  have hold : ∀ j ∈ R, ∃ x, t j = setNext (k.hardeningSharedRegions j) x := by
    intro j hj
    obtain ⟨x, hx⟩ := hset j
    have hji : j ≠ i := fun heq => hi (heq ▸ hj)
    exact ⟨x, by rw [hx, update_of_ne hji]⟩
  obtain ⟨x, hx⟩ := hset i
  rw [update_self] at hx
  have hti : (t i).rId = rId ∧ (t i).nHsp = 0 := by
    rw [hx]
    exact ⟨rfl, h.unused i hi⟩
  obtain ⟨tp, s, hrec, hownedp, hname, hfirst⟩ := addHsp_only (p := p) (i := i) (P := P)
    (k := { k with hardeningSharedRegions := t, allHsrS := all, nHsrs := k.nHsrs + 1 }.setHsrs p all
      (k.procs p).nbHardeningSharedRegions) h.procs h.nHsps hti.2 (by
      rcases hQ with ⟨rfl, rfl⟩ | ⟨rfl, -⟩
      · left
        simpa using h.names
      right
      obtain ⟨s, rfl⟩ := length_eq_one_iff.mp (h.length_eq.trans rfl)
      refine ⟨s, rfl, ?_⟩
      rw [setHsrs_endpoint]
      have hnames := h.names
      simp only [map_cons, map_nil, List.cons.injEq, and_true] at hnames
      exact hnames)
  have hrun : addHsr k p offset size rId = some _ := addHsr_new hnone hunique hget hadd hins hrec
  refine ⟨_, i, s, hrun, ?_⟩
  clear hrun
  rw [setHsrs_endpoint] at hname
  generalize hK : setHsrs _ p _ _ = K
  have hregions : K.hardeningSharedRegions = update t i
      { t i with rHsp := some s, nHsp := 1 } := by
    rw [← hK]
    rfl
  have hglobal : K.allHsrS = all ∧ K.nHsrs = k.nHsrs + 1 := by
    rw [← hK]
    exact ⟨rfl, rfl⟩
  have hprocs : K.hardeningSharedProcs = tp ∧ K.allHspS = some s ∧ K.nHsps = 1 := by
    rw [← hK]
    exact ⟨rfl, rfl, rfl⟩
  have hself : K.procs p = { k.procs p with
      hardeningSharedRegions := all, nbHardeningSharedRegions := (R.length : Int) + 1 } := by
    rw [← hK, setHsrs_procs_self]
    simp [setHsr, hnb]
  have hother : ∀ q, q ≠ p → K.procs q = k.procs q := by
    intro q hq
    rw [← hK, setHsrs_procs_of_ne _ _ _ hq]
    exact setHsrs_procs_of_ne _ _ _ hq
  have hend : ∀ q, (K.procs q).endpoint = (k.procs q).endpoint := by
    intro q
    by_cases hq : q = p
    · rw [hq, hself]
    · rw [hother q hq]
  have hrIds : (R ++ [i]).map (fun j => (K.hardeningSharedRegions j).rId) =
      R.map (fun j => (k.hardeningSharedRegions j).rId) ++ [rId] := by
    rw [map_append, map_singleton]
    congr 1
    · apply map_congr_left
      intro j hj
      have hji : j ≠ i := fun heq => hi (heq ▸ hj)
      obtain ⟨y, hy⟩ := hold j hj
      rw [hregions, update_of_ne hji, hy]
      rfl
    · rw [hregions, update_self]
      simp [hti.1]
  constructor
  case regions =>
    rw [hregions, hglobal.1]
    exact howned.update rfl rfl
  case procs =>
    rw [hprocs.1, hprocs.2.1]
    exact hownedp
  case nHsrs => simp [hglobal.2, h.nHsrs]
  case nHsps => simp [hprocs.2.2]
  case names => simp [hprocs.1, hname, hend]
  case once => simp
  case ids =>
    rw [hrIds, nodup_append]
    refine ⟨h.ids, nodup_singleton rId, fun x hx y hy heq => ?_⟩
    rw [mem_singleton] at hy
    exact hfresh (hy ▸ heq ▸ hx)
  case sharing =>
    intro q hq
    rw [mem_singleton] at hq
    subst hq
    rw [hself, hglobal.1, update_self, hrIds, hadded]
    refine ⟨rfl, by simp, ?_⟩
    ext x
    simp only [Finset.mem_insert, List.mem_toFinset, mem_append, mem_singleton]
    exact or_comm
  case idle =>
    intro q hq
    have hqp : q ≠ p := by simpa using hq
    rw [hother q hqp, update_of_ne hqp]
    exact h.idle q (hidle q hqp)
  case sharers =>
    intro j hj
    rw [hregions, hprocs.2.1]
    by_cases hji : j = i
    · rw [hji, update_self]
      simp
    have hjR : j ∈ R := by simpa [hji] using hj
    obtain ⟨y, hy⟩ := hold j hjR
    rw [update_of_ne hji, hy]
    obtain ⟨hhsp, hn⟩ := h.sharers j hjR
    have hQp : Q = [p] := hQ.elim (fun hnil => by simp [hnil.2] at hjR) And.left
    have hlen : P.length = 1 := by rw [h.length_eq, hQp, length_singleton]
    have hP : P ≠ [] := fun hnil => by simp [hnil] at hlen
    exact ⟨hhsp.trans (hfirst hP), by rw [hlen] at hn; exact hn⟩
  case unused =>
    intro j hj
    have hji : j ≠ i := fun heq => hj (by simp [heq])
    obtain ⟨y, hy⟩ := hset j
    rw [hregions, update_of_ne hji, hy, update_of_ne hji]
    exact h.unused j (fun hmem => hj (mem_append_left _ hmem))
  case endpoints =>
    intro a b hab
    simp only [hend] at hab
    exact h.endpoints hab

/-! ### Freeing -/

theorem head_name (h : Sharing k added R (s :: P) (p :: Q)) :
    (k.hardeningSharedProcs s).hspEndpoint = (k.procs p).endpoint := by
  have hnames := h.names
  simp only [map_cons, List.cons.injEq] at hnames
  exact hnames.1

theorem freeHspFromHsr_head (h : Sharing k added R (s :: P) (p :: Q)) (hi : i ∈ R) :
    freeHspFromHsr k p i = k.setHsr i { k.hardeningSharedRegions i with
      rHsp := P.head?, nHsp := P.length } := by
  obtain ⟨hhsp, hn⟩ := h.sharers i hi
  have hchain := h.procs.chain ()
  have hnext : next (k.hardeningSharedProcs s) = P.head? := hchain.start_of_cons.2.start_eq_head?
  have hun := unlink_head (fun e => e.hspEndpoint == (k.procs p).endpoint) id hchain
    (by simp [h.head_name]) (fun _ => rfl)
  rw [id, update_eq_self, hnext] at hun
  rw [freeHspFromHsr, hhsp, hun]
  simp [hn]

theorem freeHspFromAllHspS_head (hchain : Chain k.hardeningSharedProcs k.allHspS (s :: P))
    (hname : (k.hardeningSharedProcs s).hspEndpoint = (k.procs p).endpoint) :
    freeHspFromAllHspS k p = { k with
      hardeningSharedProcs := update k.hardeningSharedProcs s
        (hspPool.clear (k.hardeningSharedProcs s))
      allHspS := P.head?, nHsps := k.nHsps - 1 } := by
  have hnext : next (k.hardeningSharedProcs s) = P.head? := hchain.start_of_cons.2.start_eq_head?
  have hun := unlink_head (fun e => e.hspEndpoint == (k.procs p).endpoint) hspPool.clear hchain
    (by simp [hname])
    (fun _ => rfl)
  rw [hnext] at hun
  rw [freeHspFromAllHspS, hun]

theorem freeHsr_only_eq (h : Sharing k added (i :: R) [s] [p]) :
    freeHsr k p (k.hardeningSharedRegions i).id =
      { k.setHsr i (hsrPool.clear { k.hardeningSharedRegions i with rHsp := none, nHsp := 0 }) with
        allHsrS := R.head?, nHsrs := R.length }.setHsrs p R.head? R.length := by
  obtain ⟨hfirst, hnb, -⟩ := h.sharing p (by simp)
  have hchain := h.regions.chain ()
  have hnext : (k.hardeningSharedRegions i).nextHsr = R.head? :=
    hchain.start_of_cons.2.start_eq_head?
  have hsearch : searchPrev k.hardeningSharedRegions
      (fun r => r.id == (k.hardeningSharedRegions i).id) hardeningSharedRegionsSize none
      (k.procs p).hardeningSharedRegions = some (none, i) := by
    rw [hfirst]
    exact searchPrev_head hchain (by simp)
  have hhsp : freeHspFromHsr k p i = k.setHsr i
      { k.hardeningSharedRegions i with rHsp := none, nHsp := 0 } :=
    h.freeHspFromHsr_head (by simp)
  -- the cleared region is still the first of all regions, with its link as it was
  have hchain' : Chain (k.setHsr i
      (hsrPool.clear { k.hardeningSharedRegions i with rHsp := none, nHsp := 0 })).hardeningSharedRegions
      k.allHsrS (i :: R) := by
    apply hchain.congr
    intro j _
    by_cases hj : j = i
    · subst hj
      simp only [setHsr, update_self]
      rfl
    · simp only [setHsr, update_of_ne hj]
  have hun := unlink_head (fun r => r.rId == (k.hardeningSharedRegions i).rId) id hchain'
    (by simp [setHsr, hsrPool]) (fun _ => rfl)
  rw [id, update_eq_self] at hun
  have hall : freeHsrFromAllHsrS (k.setHsr i
        (hsrPool.clear { k.hardeningSharedRegions i with rHsp := none, nHsp := 0 })) i =
      { k.setHsr i (hsrPool.clear { k.hardeningSharedRegions i with rHsp := none, nHsp := 0 }) with
        allHsrS := R.head?, nHsrs := R.length } := by
    have hrId : ((k.setHsr i (hsrPool.clear { k.hardeningSharedRegions i with
        rHsp := none, nHsp := 0 })).hardeningSharedRegions i).rId =
        (k.hardeningSharedRegions i).rId := by
      simp [setHsr, hsrPool]
    have hnext' : next ((k.setHsr i (hsrPool.clear { k.hardeningSharedRegions i with
        rHsp := none, nHsp := 0 })).hardeningSharedRegions i) = R.head? := by
      rw [← hnext]
      simp only [setHsr, update_self]
      rfl
    rw [hnext'] at hun
    unfold freeHsrFromAllHsrS
    rw [hrId]
    rw [show (k.setHsr i (hsrPool.clear { k.hardeningSharedRegions i with
      rHsp := none, nHsp := 0 })).allHsrS = k.allHsrS from rfl, hun]
    simp [setHsr, h.nHsrs]
  have hlink : (hsrPool.clear { k.hardeningSharedRegions i with rHsp := none, nHsp := 0 }).nextHsr =
      R.head? := hnext
  have hend : ((i :: R).length : Int) - 1 = R.length := by
    rw [length_cons]
    omega
  simp only [freeHsr, hsearch, hhsp]
  simp only [setHsr, update_self, if_true, update_idem] at hall ⊢
  rw [hall]
  simp only [setHsrs, setProc, hnb, hlink, update_self, hend]

theorem freeHsr_only (h : Sharing k added (i :: R) [s] [p]) :
    Sharing (freeHsr k p (k.hardeningSharedRegions i).id)
        (update added p (R.map (fun h => (k.hardeningSharedRegions h).rId)).toFinset)
        R [s] [p] ∧
      ((freeHsr k p (k.hardeningSharedRegions i).id).hardeningSharedRegions i).nextHsr =
        R.head? := by
  have hchain := h.regions.chain ()
  have hi : i ∉ R := (nodup_cons.mp hchain.nodup).1
  have hnext : (k.hardeningSharedRegions i).nextHsr = R.head? :=
    hchain.start_of_cons.2.start_eq_head?
  rw [h.freeHsr_only_eq]
  generalize hK : setHsrs _ p _ _ = K
  have hregions : K.hardeningSharedRegions = update k.hardeningSharedRegions i
      (hsrPool.clear { k.hardeningSharedRegions i with rHsp := none, nHsp := 0 }) := by
    rw [← hK]
    rfl
  have hglobal : K.allHsrS = R.head? ∧ K.nHsrs = R.length := by
    rw [← hK]
    exact ⟨rfl, rfl⟩
  have hprocs : K.hardeningSharedProcs = k.hardeningSharedProcs ∧ K.allHspS = k.allHspS ∧
      K.nHsps = k.nHsps := by
    rw [← hK]
    exact ⟨rfl, rfl, rfl⟩
  have hself : K.procs p = { k.procs p with
      hardeningSharedRegions := R.head?, nbHardeningSharedRegions := R.length } := by
    rw [← hK, setHsrs_procs_self]
    rfl
  have hother : ∀ q, q ≠ p → K.procs q = k.procs q := by
    intro q hq
    rw [← hK, setHsrs_procs_of_ne _ _ _ hq]
    rfl
  have hend : ∀ q, (K.procs q).endpoint = (k.procs q).endpoint := by
    intro q
    by_cases hq : q = p
    · rw [hq, hself]
    · rw [hother q hq]
  have hrest : ∀ j ∈ R, K.hardeningSharedRegions j = k.hardeningSharedRegions j := by
    intro j hj
    have hji : j ≠ i := fun heq => hi (heq ▸ hj)
    rw [hregions, update_of_ne hji]
  have hrIds : R.map (fun j => (K.hardeningSharedRegions j).rId) =
      R.map (fun j => (k.hardeningSharedRegions j).rId) := by
    apply map_congr_left
    intro j hj
    rw [hrest j hj]
  refine ⟨?_, by rw [hregions, update_self]; exact hnext⟩
  constructor
  case regions =>
    rw [hregions, hglobal.1, ← hnext]
    exact owned_drop_head h.regions rfl
  case procs =>
    rw [hprocs.1, hprocs.2.1]
    exact h.procs
  case nHsrs => exact hglobal.2
  case nHsps => rw [hprocs.2.2, h.nHsps]
  case names =>
    rw [hprocs.1]
    simpa [hend] using h.names
  case once => exact h.once
  case ids =>
    rw [hrIds]
    exact (nodup_cons.mp h.ids).2
  case sharing =>
    intro q hq
    rw [mem_singleton] at hq
    subst hq
    rw [hself, hglobal.1, update_self, hrIds]
    exact ⟨rfl, rfl, rfl⟩
  case idle =>
    intro q hq
    have hqp : q ≠ p := by simpa using hq
    rw [hother q hqp, update_of_ne hqp]
    exact h.idle q hq
  case sharers =>
    intro j hj
    rw [hrest j hj, hprocs.2.1]
    exact h.sharers j (mem_cons_of_mem _ hj)
  case unused =>
    intro j hj
    by_cases hji : j = i
    · rw [hji, hregions, update_self]
      rfl
    · rw [hregions, update_of_ne hji]
      apply h.unused j
      simp [hji, hj]
  case endpoints =>
    intro a b hab
    simp only [hend] at hab
    exact h.endpoints hab

theorem free_loop (h : Sharing k added R [s] [p]) :
    ∃ k' added', whileNext (fun (k : Kernel) h => (k.hardeningSharedRegions h).nextHsr)
        (fun k h => some (freeHsr k p (k.hardeningSharedRegions h).id))
        hardeningSharedRegionsSize k (k.procs p).hardeningSharedRegions = some k' ∧
      Sharing k' added' [] [s] [p] ∧ ∀ q, q ≠ p → added' q = added q := by
  have hfirst : (k.procs p).hardeningSharedRegions = R.head? :=
    (h.sharing p (by simp)).1.trans (h.regions.chain ()).start_eq_head?
  obtain ⟨k', hrun, added', h', hsame⟩ := whileNext_total
    (fun (k : Kernel) h => (k.hardeningSharedRegions h).nextHsr)
    (fun k h => some (freeHsr k p (k.hardeningSharedRegions h).id))
    (P := fun rest k' => ∃ added', Sharing k' added' rest [s] [p] ∧ ∀ q, q ≠ p → added' q = added q)
    (fun i rest k1 hk1 => by
      obtain ⟨added1, h1, hsame⟩ := hk1
      obtain ⟨h2, hnext⟩ := h1.freeHsr_only
      refine ⟨_, rfl, ⟨_, h2, fun q hq => ?_⟩, hnext⟩
      rw [update_of_ne hq, hsame q hq])
    ⟨added, h, fun _ _ => rfl⟩ (h.regions.chain ()).length_le
  rw [hfirst]
  exact ⟨k', added', hrun, h', hsame⟩

theorem freeHsrs_only (h : Sharing k added R [s] [p]) (hR : R ≠ []) :
    ∃ k', freeHsrs k p = some k' ∧ Sharing k' (update added p ∅) [] [] [] := by
  obtain ⟨-, hnb, -⟩ := h.sharing p (by simp)
  have hpos : ¬ (k.procs p).nbHardeningSharedRegions ≤ 0 := by
    have := length_pos_of_ne_nil hR
    omega
  obtain ⟨k1, added1, hloop, h1, hsame⟩ := h.free_loop
  obtain ⟨hfirst1, hnb1, -⟩ := h1.sharing p (by simp)
  have hall1 : k1.allHsrS = none := (h1.regions.chain ()).eq_none_of_nil
  have hrun : freeHsrs k p = some (freeHspFromAllHspS k1 p) := by
    rw [freeHsrs, if_neg hpos, hloop]
    simp [hfirst1, hnb1, hall1]
  have hnHsps : k1.nHsps - 1 = 0 := by simp [h1.nHsps]
  have hlink : next (k1.hardeningSharedProcs s) = none :=
    (h1.procs.chain ()).start_of_cons.2.eq_none_of_nil
  rw [freeHspFromAllHspS_head (h1.procs.chain ()) h1.head_name, hnHsps] at hrun
  refine ⟨_, hrun, ?_⟩
  constructor
  case regions => exact h1.regions
  case procs =>
    show Owned _ (fun _ : Unit => none) (fun _ => [])
    rw [← hlink]
    exact owned_drop_head h1.procs rfl
  case nHsrs => exact h1.nHsrs
  case nHsps => rfl
  case names => rfl
  case once => exact nodup_nil
  case ids => exact nodup_nil
  case sharing => simp
  case idle =>
    intro q _
    by_cases hqp : q = p
    · subst hqp
      rw [update_self]
      exact ⟨hfirst1.trans hall1, hnb1, rfl⟩
    · obtain ⟨hf, hn, ha⟩ := h1.idle q (by simpa using hqp)
      rw [update_of_ne hqp, ← hsame q hqp]
      exact ⟨hf, hn, ha⟩
  case sharers => simp
  case unused =>
    intro j _
    exact h1.unused j (by simp)
  case endpoints => exact h1.endpoints

theorem freeHsrs_first (h : Sharing k added [i] (s :: P) (p :: Q)) (hQ : Q ≠ []) :
    ∃ k', freeHsrs k p = some k' ∧ Sharing k' (update added p ∅) [i] P Q := by
  obtain ⟨hfirst, hnb, -⟩ := h.sharing p (by simp)
  obtain ⟨hp, honce⟩ := nodup_cons.mp h.once
  have hchain := h.procs.chain ()
  have hs : s ∉ P := (nodup_cons.mp hchain.nodup).1
  have hi : k.allHsrS = some i := (h.regions.chain ()).start_of_cons.1
  have hlink : (k.hardeningSharedRegions i).nextHsr = none :=
    (h.regions.chain ()).start_of_cons.2.eq_none_of_nil
  have hnext : next (k.hardeningSharedProcs s) = P.head? := hchain.start_of_cons.2.start_eq_head?
  have hP : P ≠ [] := by
    intro hnil
    have hlen := h.length_eq
    rw [hnil] at hlen
    apply hQ
    simpa using hlen
  have hfree : freeHsr k p (k.hardeningSharedRegions i).id =
      (k.setHsr i { k.hardeningSharedRegions i with rHsp := P.head?, nHsp := P.length }).setHsrs p
        none 0 := by
    have hsearch : searchPrev k.hardeningSharedRegions
        (fun r => r.id == (k.hardeningSharedRegions i).id) hardeningSharedRegionsSize none
        (k.procs p).hardeningSharedRegions = some (none, i) := by
      rw [hfirst]
      exact searchPrev_head (h.regions.chain ()) (by simp)
    have hhsp := h.freeHspFromHsr_head (i := i) (by simp)
    simp only [freeHsr, hsearch, hhsp]
    simp [setHsr, hP, hlink, hnb]
  have hpos : ¬ (k.procs p).nbHardeningSharedRegions ≤ 0 := by simp [hnb]
  have hrun : freeHsrs k p = some (freeHspFromAllHspS ((k.setHsr i
      { k.hardeningSharedRegions i with rHsp := P.head?, nHsp := P.length }).setHsrs p none 0)
      p) := by
    rw [freeHsrs, if_neg hpos, hfirst, hi]
    simp [whileNext, hfree, setHsr, setHsrs, setProc, hlink]
  generalize hK : setHsrs _ p _ _ = K at hrun
  have hregions : K.hardeningSharedRegions = update k.hardeningSharedRegions i
      { k.hardeningSharedRegions i with rHsp := P.head?, nHsp := P.length } := by
    rw [← hK]
    rfl
  have hglobal : K.allHsrS = k.allHsrS ∧ K.nHsrs = k.nHsrs := by
    rw [← hK]
    exact ⟨rfl, rfl⟩
  have hprocs : K.hardeningSharedProcs = k.hardeningSharedProcs ∧ K.allHspS = k.allHspS ∧
      K.nHsps = k.nHsps := by
    rw [← hK]
    exact ⟨rfl, rfl, rfl⟩
  have hself : K.procs p = { k.procs p with
      hardeningSharedRegions := none, nbHardeningSharedRegions := 0 } := by
    rw [← hK, setHsrs_procs_self]
    rfl
  have hother : ∀ q, q ≠ p → K.procs q = k.procs q := by
    intro q hq
    rw [← hK, setHsrs_procs_of_ne _ _ _ hq]
    rfl
  have hend : ∀ q, (K.procs q).endpoint = (k.procs q).endpoint := by
    intro q
    by_cases hq : q = p
    · rw [hq, hself]
    · rw [hother q hq]
  rw [freeHspFromAllHspS_head (s := s) (P := P) (by rw [hprocs.1, hprocs.2.1]; exact hchain)
    (by rw [hprocs.1, hend]; exact h.head_name)] at hrun
  refine ⟨_, hrun, ?_⟩
  constructor
  case regions =>
    show Owned K.hardeningSharedRegions (fun _ : Unit => K.allHsrS) (fun _ => [i])
    rw [hregions, hglobal.1]
    exact h.regions.update rfl rfl
  case procs =>
    show Owned (update K.hardeningSharedProcs s _) (fun _ : Unit => P.head?) (fun _ => P)
    rw [hprocs.1, ← hnext]
    exact owned_drop_head h.procs rfl
  case nHsrs => exact hglobal.2.trans h.nHsrs
  case nHsps =>
    show K.nHsps - 1 = P.length
    simp [hprocs.2.2, h.nHsps]
  case names =>
    have hnames := h.names
    simp only [map_cons, List.cons.injEq] at hnames
    show P.map (fun j => (update K.hardeningSharedProcs s _ j).hspEndpoint) =
      Q.map (fun q => (K.procs q).endpoint)
    simp only [hend, ← hnames.2]
    apply map_congr_left
    intro j hj
    have hjs : j ≠ s := fun heq => hs (heq ▸ hj)
    rw [update_of_ne hjs, hprocs.1]
  case once => exact honce
  case ids => exact nodup_singleton _
  case sharing =>
    intro q hq
    have hqp : q ≠ p := fun heq => hp (heq ▸ hq)
    obtain ⟨hf, hn, ha⟩ := h.sharing q (mem_cons_of_mem _ hq)
    show (K.procs q).hardeningSharedRegions = K.allHsrS ∧ _ ∧ _
    rw [hother q hqp, hglobal.1, update_of_ne hqp]
    exact ⟨hf, hn, by simpa [hregions] using ha⟩
  case idle =>
    intro q hq
    show (K.procs q).hardeningSharedRegions = none ∧ _ ∧ _
    by_cases hqp : q = p
    · subst hqp
      rw [hself, update_self]
      exact ⟨rfl, rfl, rfl⟩
    · rw [hother q hqp, update_of_ne hqp]
      apply h.idle q
      simp [hqp, hq]
  case sharers =>
    intro j hj
    rw [mem_singleton] at hj
    show (K.hardeningSharedRegions j).rHsp = P.head? ∧ (K.hardeningSharedRegions j).nHsp = _
    rw [hj, hregions, update_self]
    exact ⟨rfl, rfl⟩
  case unused =>
    intro j hj
    have hji : j ≠ i := by simpa using hj
    show (K.hardeningSharedRegions j).nHsp = 0
    rw [hregions, update_of_ne hji]
    exact h.unused j hj
  case endpoints =>
    intro a b hab
    have hab' : (K.procs a).endpoint = (K.procs b).endpoint := hab
    rw [hend, hend] at hab'
    exact h.endpoints hab'

end Sharing

/-! ## Whole runs -/

theorem SharedInitial.inv {s : SharedState} (h : SharedInitial s) : SharedInv s := by
  refine ⟨[], [], [], ?_, .inl (by simp), by simp⟩
  constructor
  case regions =>
    rw [h.regions, h.allHsrS.1]
    refine ⟨fun _ => .nil, fun _ _ hmem => by simp at hmem, by simp, fun i hi _ => ?_⟩
    simp only [Pool.initTable]
    rw [if_pos (by omega), hsrPool.free_init]
  case procs =>
    rw [h.procs, h.allHspS.1]
    refine ⟨fun _ => .nil, fun _ _ hmem => by simp at hmem, by simp, fun i hi _ => ?_⟩
    simp only [Pool.initTable]
    rw [if_pos (by omega), hspPool.free_init]
  case nHsrs => exact h.allHsrS.2
  case nHsps => exact h.allHspS.2
  case names => rfl
  case once => exact nodup_nil
  case ids => exact nodup_nil
  case sharing => simp
  case idle =>
    intro p _
    exact h.lists p
  case sharers => simp
  case unused =>
    intro j _
    rw [h.regions]
    simp only [Pool.initTable]
    split <;> rfl
  case endpoints => exact h.endpoints

namespace Sharing

variable {k : Kernel} {added : ProcNr → Finset Nat} {R : List (Fin hardeningSharedRegionsSize)}
  {P : List (Fin hardeningSharedProcsSize)} {Q : List ProcNr} {p : ProcNr}

theorem nb_eq_zero_iff (h : Sharing k added R P Q) (hempty : R = [] ↔ Q = []) :
    (k.procs p).nbHardeningSharedRegions = 0 ↔ p ∉ Q := by
  constructor
  · intro hnb hp
    have hlen := (h.sharing p hp).2.1
    rw [hnb] at hlen
    have hR : R = [] := by
      apply length_eq_zero_iff.mp
      omega
    simp [hempty.mp hR] at hp
  · intro hp
    exact (h.idle p hp).2.1

theorem mem_added_of_lookUpHsr (h : Sharing k added R P Q) {offset size rId : Nat}
    (hfound : (lookUpHsr k p offset size rId).isSome = true) : rId ∈ added p := by
  unfold lookUpHsr at hfound
  split at hfound
  · simp at hfound
  rename_i hnb
  have hp : p ∈ Q := by
    by_contra hp
    exact hnb (by rw [(h.idle p hp).2.1])
  obtain ⟨hfirst, -, hadded⟩ := h.sharing p hp
  rw [findHsr, hfirst, search_eq_of_chain (h.regions.chain ()), List.find?_isSome] at hfound
  obtain ⟨i, hi, heq⟩ := hfound
  simp only [Bool.and_eq_true, beq_iff_eq] at heq
  rw [hadded, List.mem_toFinset, List.mem_map]
  exact ⟨i, hi, heq.2⟩

theorem only_cases (h : Sharing k added R P Q) (hempty : R = [] ↔ Q = [])
    (hidle : ∀ q, q ≠ p → (k.procs q).nbHardeningSharedRegions = 0) :
    (Q = [] ∧ R = []) ∨ (Q = [p] ∧ R ≠ []) := by
  have hall : ∀ q ∈ Q, q = p := by
    intro q hq
    by_contra hqp
    exact (h.nb_eq_zero_iff hempty).mp (hidle q hqp) hq
  cases hQ : Q with
  | nil => exact .inl ⟨rfl, hempty.mpr hQ⟩
  | cons q Q' =>
    right
    have hR : R ≠ [] := fun hnil => by simp [hempty.mp hnil] at hQ
    obtain rfl : q = p := hall q (by simp [hQ])
    refine ⟨?_, hR⟩
    cases Q' with
    | nil => rfl
    | cons q' Q'' =>
      have honce := h.once
      rw [hQ, nodup_cons] at honce
      obtain rfl : q' = q := hall q' (by simp [hQ])
      simp at honce

end Sharing

variable {s : SharedState}

theorem SharedInv.add (hinv : SharedInv s) {p : ProcNr} {offset size rId : Nat}
    (hgood : SharedGood s (.add p offset size rId)) :
    ∃ s', SharedOp.run s (.add p offset size rId) = some s' ∧ SharedInv s' := by
  obtain ⟨R, P, Q, h, hsmall, hempty⟩ := hinv
  cases hlook : lookUpHsr s.kernel p offset size rId with
  | some i =>
    have hmem := h.mem_added_of_lookUpHsr (by rw [hlook]; rfl)
    refine ⟨s, ?_, R, P, Q, h, hsmall, hempty⟩
    simp only [SharedOp.run, addHsr, hlook, Option.map_some, Finset.insert_eq_of_mem hmem,
      update_eq_self]
  | none =>
    rcases hgood with hfound | ⟨hunique, hidle, hroom⟩ | ⟨hunique, hone, hnb, hroom⟩
    · simp [hlook] at hfound
    · rw [h.nHsrs] at hroom
      obtain ⟨k', i, e, hrun, h'⟩ := h.extend (h.only_cases hempty hidle) (by omega) hlook hunique
      exact ⟨⟨k', _⟩, congrArg (Option.map _) hrun, _, _, _, h', .inr (by simp), by simp⟩
    rw [h.nHsrs] at hone
    rw [h.nHsps] at hroom
    obtain ⟨i, rfl⟩ := length_eq_one_iff.mp (by omega : R.length = 1)
    have hid : (s.kernel.hardeningSharedRegions i).rId = rId := by
      rw [h.lookUpUniqueHsr_eq] at hunique
      simpa using hunique
    subst hid
    have hQ : Q ≠ [] := fun hnil => by simp [hempty.mpr hnil] at hone
    obtain ⟨k', e, hrun, h'⟩ :=
      h.attach ((h.nb_eq_zero_iff hempty).mp hnb) hQ (by omega) offset size
    exact ⟨⟨k', _⟩, congrArg (Option.map _) hrun, _, _, _, h', .inl (by simp), by simp⟩

theorem SharedInv.free (hinv : SharedInv s) {p : ProcNr} (hgood : SharedGood s (.free p)) :
    ∃ s', SharedOp.run s (.free p) = some s' ∧ SharedInv s' := by
  obtain ⟨R, P, Q, h, hsmall, hempty⟩ := hinv
  by_cases hnb : (s.kernel.procs p).nbHardeningSharedRegions = 0
  · have hp := (h.nb_eq_zero_iff hempty).mp hnb
    have hadded := (h.idle p hp).2.2
    refine ⟨s, ?_, R, P, Q, h, hsmall, hempty⟩
    simp only [SharedOp.run, freeHsrs, hnb, le_refl, if_true, Option.map_some]
    rw [← hadded, update_eq_self]
  obtain ⟨i, hfirst, hname⟩ := hgood.resolve_left hnb
  obtain ⟨P', rfl⟩ : ∃ P', P = i :: P' := by
    obtain ⟨P', hP', -⟩ := Chain.cons_inv (hfirst ▸ h.procs.chain ())
    exact ⟨P', hP'⟩
  obtain ⟨q, Q', rfl⟩ := exists_cons_of_length_pos
    (by rw [← h.length_eq]; simp : 0 < Q.length)
  obtain rfl : q = p := h.endpoints (h.head_name.symm.trans hname)
  have hR : R ≠ [] := fun hnil => by simpa using hempty.mp hnil
  cases Q' with
  | nil =>
    obtain rfl : P' = [] := by simpa using h.length_eq
    obtain ⟨k', hrun, h'⟩ := h.freeHsrs_only hR
    exact ⟨⟨k', _⟩, congrArg (Option.map _) hrun, _, _, _, h', .inl (by simp), by simp⟩
  | cons q' Q' =>
    -- two processes share, so there is one region
    have hlen : R.length = 1 := by
      have := length_pos_of_ne_nil hR
      simp only [length_cons] at hsmall
      omega
    obtain ⟨j, rfl⟩ := length_eq_one_iff.mp hlen
    obtain ⟨k', hrun, h'⟩ := h.freeHsrs_first (cons_ne_nil q' Q')
    exact ⟨⟨k', _⟩, congrArg (Option.map _) hrun, _, _, _, h', .inl (by simp), by simp⟩

theorem SharedInv.step {op : SharedOp} (hinv : SharedInv s)
    (hgood : SharedGood s op) : ∃ s', op.run s = some s' ∧ SharedInv s' := by
  cases op with
  | add p offset size rId => exact hinv.add hgood
  | free p => exact hinv.free hgood

theorem SharedReachable.inv (h : SharedReachable SharedGood s) : SharedInv s := by
  induction h with
  | init h => exact h.inv
  | step op _ hgood hrun ih =>
    obtain ⟨s', hrun', hinv⟩ := ih.step hgood
    rw [hrun] at hrun'
    exact Option.some.inj hrun' ▸ hinv

/-- After calls that the one link field has room for, the lists are right, and another such
call returns. -/
theorem sharedReachable_lists {s : SharedState} (h : SharedReachable SharedGood s) :
    SharedOk s.kernel s.added ∧ ∀ op, SharedGood s op → (op.run s).isSome = true := by
  obtain ⟨R, P, Q, hsharing, -, hempty⟩ := h.inv
  refine ⟨hsharing.sharedOk hempty, fun op hgood => ?_⟩
  obtain ⟨s', hrun, -⟩ := h.inv.step hgood
  rw [hrun]
  rfl

/-- A kernel after boot, with nothing shared. -/
def bootShared : SharedState := ⟨bootKernel, fun _ => ∅⟩

theorem bootShared_initial : SharedInitial bootShared := by
  refine ⟨rfl, rfl, ⟨rfl, rfl⟩, ⟨rfl, rfl⟩, fun _ => ⟨rfl, rfl, rfl⟩, fun p q heq => ?_⟩
  exact Fin.ext heq

/-- Two processes share a region, and the first of them frees it. -/
theorem sharedReachable_lists_two_sharers :
    ∃ s, [SharedOp.add 10 4096 4096 7, .add 11 4096 4096 7, .free 10].foldlM SharedOp.run
        bootShared = some s ∧
      SharedReachable SharedGood s ∧ SharedOk s.kernel s.added ∧
      (s.kernel.procs 11).nbHardeningSharedRegions = 1 := by
  obtain ⟨s1, s2, s3, hrun1, hrun2, hrun3, hgood2, hgood3, hnb⟩ : ∃ s1 s2 s3,
      SharedOp.run bootShared (.add 10 4096 4096 7) = some s1 ∧
      SharedOp.run s1 (.add 11 4096 4096 7) = some s2 ∧ SharedOp.run s2 (.free 10) = some s3 ∧
      SharedGood s1 (.add 11 4096 4096 7) ∧ SharedGood s2 (.free 10) ∧
      (s3.kernel.procs 11).nbHardeningSharedRegions = 1 :=
    ⟨_, _, _, rfl, rfl, rfl, .inr (.inr (by decide +kernel)), .inr ⟨0, by decide +kernel⟩,
      by decide +kernel⟩
  have hgood1 : SharedGood bootShared (.add 10 4096 4096 7) :=
    .inr (.inl ⟨rfl, fun _ _ => rfl, by decide⟩)
  have hreach : SharedReachable SharedGood s3 :=
    .step _ (.step _ (.step _ (.init bootShared_initial) hgood1 hrun1) hgood2 hrun2) hgood3 hrun3
  refine ⟨s3, ?_, hreach, (sharedReachable_lists hreach).1, hnb⟩
  simp [List.foldlM, hrun1, hrun2, hrun3]

/-- Processes 10 and 11 add a region each: the second ends the list of process 10 too, which counts
one. -/
theorem second_region_on_first_list :
    ¬ ∀ s, SharedReachable (fun _ _ => True) s → SharedOk s.kernel s.added := by
  intro hall
  obtain ⟨s1, s2, hrun1, hrun2, hnb, hlist⟩ : ∃ s1 s2,
      SharedOp.run bootShared (.add 10 4096 4096 1) = some s1 ∧
      SharedOp.run s1 (.add 11 8192 4096 2) = some s2 ∧
      (s2.kernel.procs 10).nbHardeningSharedRegions = 1 ∧
      follow s2.kernel.hardeningSharedRegions hardeningSharedRegionsSize
        (s2.kernel.procs 10).hardeningSharedRegions = [0, 1] :=
    ⟨_, _, rfl, rfl, by decide +kernel, by decide +kernel⟩
  have hreach : SharedReachable (fun _ _ => True) s2 :=
    .step _ (.step _ (.init bootShared_initial) trivial hrun1) trivial hrun2
  obtain ⟨l, hchain, hlen, -⟩ := (hall s2 hreach).regions 10
  rw [hchain.follow_eq] at hlist
  rw [hnb, hlist] at hlen
  exact absurd hlen (by decide)

end HardenedMinix
