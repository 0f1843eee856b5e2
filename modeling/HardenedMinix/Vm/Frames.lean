import HardenedMinix.Vm.WorkingSet

/-!
# The private frames of VM

Every frame that VM allocated for hardening and has not freed stands in one field of one block of
one process, and is freed once, by that process.
-/

open List Option

namespace HardenedMinix.Vm

open Lib Linked State

variable {s s' s₁ : State} {p q : ProcNr} {L L' L₁ : ProcNr → List (Fin workingSetSize)}

/-! ## The invariant -/

def wsFirst (s : State) (p : ProcNr) : Option (Fin workingSetSize) :=
  if Live s p then (s.vmproc p).lus1Us2 else none

theorem wsFirst_congr (h : s'.vmproc p = s.vmproc p) : wsFirst s' p = wsFirst s p := by
  have hlive : Live s' p ↔ Live s p := by
    unfold Live
    rw [h]
  unfold wsFirst
  simp only [hlive, h]

def blocksOf (s : State) (p : ProcNr) : List (Fin workingSetSize) :=
  follow s.workingSet workingSetSize (wsFirst s p)

/-- The lists of the live processes are `L`. -/
structure Lists (s : State) (L : ProcNr → List (Fin workingSetSize)) : Prop where
  owned : Owned s.workingSet (wsFirst s) L
  size : ∀ p, Live s p → (s.vmproc p).lus1Us2Size = (L p).length

/-- The frames that are out stand in the blocks, each once. -/
structure Balanced (s : State) (L : ProcNr → List (Fin workingSetSize)) : Prop where
  lists : Lists s L
  proper : ProperLedger s.ledger
  recorded : Recorded (holder s.ledger) L (fun i r => (s.workingSet i).frame r)
  fresh : Fresh s s.mem

namespace Lists

theorem blocksOf_eq (h : Lists s L) (p : ProcNr) : blocksOf s p = L p := (h.owned.chain p).follow_eq

theorem dead (h : Lists s L) (hp : ¬ Live s p) : L p = [] := by
  have hc := h.owned.chain p
  simp only [wsFirst, hp, ↓reduceIte] at hc
  exact hc.nil_inv

theorem chain (h : Lists s L) (hp : Live s p) : Chain s.workingSet (s.vmproc p).lus1Us2 (L p) := by
  have hc := h.owned.chain p
  simpa only [wsFirst, hp, ↓reduceIte] using hc

theorem lookUpPte_eq (h : Lists s L) (hp : Live s p) (v : VirBytes) :
    lookUpPte s p v = (L p).find? (fun i => samePage (s.workingSet i).vaddr v) := by
  unfold lookUpPte
  split
  case isTrue => exact search_eq_of_chain (h.chain hp) _
  rename_i hsize
  rw [h.size p hp, Nat.pos_iff_ne_zero, not_not, length_eq_zero_iff] at hsize
  rw [hsize]
  rfl

theorem lookUpPte_mem (h : Lists s L) (hp : Live s p) {v : VirBytes} {i : Fin workingSetSize}
    (hl : lookUpPte s p v = some i) :
    i ∈ L p ∧ samePage (s.workingSet i).vaddr v = true := by
  rw [h.lookUpPte_eq hp] at hl
  have hpage := List.find?_some hl
  exact ⟨mem_of_find?_eq_some hl, hpage⟩

theorem setPmb (h : Lists s L) {i : Fin workingSetSize} {b : Pmb}
    (hnext : b.nextPmb = (s.workingSet i).nextPmb)
    (hfree : b.slotFree = (s.workingSet i).slotFree) : Lists (s.setPmb i b) L where
  owned := h.owned.update hnext hfree
  size := h.size

theorem setDead (h : Lists s L) {x : VmProc} (hp : ¬ Live s p) (hx : x.hasEndpoint = false) :
    Lists (s.setVmproc p x) L := by
  have hlive : ∀ q, Live (s.setVmproc p x) q ↔ Live s q := by
    intro q
    by_cases hq : q = p
    · subst hq
      simp [Live, setVmproc, hx] at hp ⊢
      exact hp
    · simp [Live, setVmproc, hq]
  have hsame : ∀ q, Live s q → (s.setVmproc p x).vmproc q = s.vmproc q := by
    intro q hq
    apply Function.update_of_ne
    rintro rfl
    exact hp hq
  constructor
  · have hfirst : wsFirst (s.setVmproc p x) = wsFirst s := by
      funext q
      unfold wsFirst
      by_cases hq : Live s q
      · rw [if_pos ((hlive q).mpr hq), if_pos hq, hsame q hq]
      · rw [if_neg (fun hq' => hq ((hlive q).mp hq')), if_neg hq]
    rw [hfirst]
    exact h.owned
  · intro q hq
    rw [hlive] at hq
    rw [hsame q hq]
    exact h.size q hq

end Lists

theorem setWs_live {t : Table Pmb workingSetSize} {first : Option (Fin workingSetSize)}
    {size : Nat} : Live (s.setWs t p first size) q ↔ Live s q := by
  by_cases hq : q = p
  · subst hq
    simp [Live, setWs]
  · simp [Live, setWs, hq]

theorem Lists.setWs (h : Lists s L) (hp : Live s p) {t : Table Pmb workingSetSize}
    {first : Option (Fin workingSetSize)} {l : List (Fin workingSetSize)} {size : Nat}
    (ho : Owned t (Function.update (wsFirst s) p first) (Function.update L p l))
    (hsize : size = l.length) : Lists (s.setWs t p first size) (Function.update L p l) where
  owned := by
    have hfirst : wsFirst (s.setWs t p first size) = Function.update (wsFirst s) p first := by
      funext q
      unfold wsFirst
      by_cases hq : q = p
      · subst hq
        rw [if_pos (setWs_live.mpr hp), Function.update_self]
        simp [State.setWs]
      · rw [Function.update_of_ne hq]
        simp only [setWs_live]
        simp [State.setWs, hq]
    rw [hfirst]
    exact ho
  size q hq := by
    rw [setWs_live] at hq
    by_cases hqp : q = p
    · subst hqp
      simp [State.setWs, hsize]
    · simp only [State.setWs, Function.update_of_ne hqp]
      exact h.size q hq

theorem boot_balanced (h : Boot s) : Balanced { s with mem := [] } (fun _ => []) where
  lists := by
    constructor
    · constructor
      · intro p
        have hfirst : wsFirst { s with mem := [] } p = none := by
          unfold wsFirst
          split
          case isTrue => exact h.lus1Us2 p
          case isFalse => rfl
        rw [hfirst]
        exact .nil
      · intro _ _ _ i hi
        simp at hi
      · intro _ i hi
        simp at hi
      · intro i hi _
        show free (s.workingSet i) = true
        rw [h.workingSet, Pool.initTable, if_pos (by omega)]
        exact pmbPool.free_init _
    · intro p _
      exact h.lus1Us2Size p
  proper := by
    show ProperLedger s.ledger
    rw [h.ledger]
    exact properLedger_nil
  recorded := by
    show Recorded (holder s.ledger) _ _
    rw [h.ledger]
    exact Recorded.nil _
  fresh := ⟨nodup_nil, by simp⟩

/-! ## Freeing -/

/-- Blocks went from the lists; those that stay have their frames. -/
structure Shrunk (s s' : State) (L L' : ProcNr → List (Fin workingSetSize)) : Prop where
  vmproc : ∀ q, (s'.vmproc q).inuse = (s.vmproc q).inuse ∧
    (s'.vmproc q).hasEndpoint = (s.vmproc q).hasEndpoint ∧
    (s'.vmproc q).toHard = (s.vmproc q).toHard
  sub : ∀ q, ∀ i ∈ L' q, i ∈ L q
  vaddr : ∀ q, ∀ i ∈ L' q, (s'.workingSet i).vaddr = (s.workingSet i).vaddr
  frame : ∀ q, ∀ i ∈ L' q, (s'.workingSet i).frame = (s.workingSet i).frame

namespace Shrunk

theorem refl (s : State) (L : ProcNr → List (Fin workingSetSize)) : Shrunk s s L L :=
  ⟨fun _ => ⟨rfl, rfl, rfl⟩, fun _ _ h => h, fun _ _ _ => rfl, fun _ _ _ => rfl⟩

theorem trans {s₂ : State} {L₂ : ProcNr → List (Fin workingSetSize)} (h : Shrunk s s₁ L L₁)
    (h' : Shrunk s₁ s₂ L₁ L₂) : Shrunk s s₂ L L₂ where
  vmproc q := by
    rw [(h'.vmproc q).1, (h'.vmproc q).2.1, (h'.vmproc q).2.2]
    exact h.vmproc q
  sub q i hi := h.sub q i (h'.sub q i hi)
  vaddr q i hi := (h'.vaddr q i hi).trans (h.vaddr q i (h'.sub q i hi))
  frame q i hi := (h'.frame q i hi).trans (h.frame q i (h'.sub q i hi))

theorem live (h : Shrunk s s' L L') (q : ProcNr) : Live s' q ↔ Live s q := by
  unfold Live
  rw [(h.vmproc q).1, (h.vmproc q).2.1]

theorem paired (h : Shrunk s s' L L') {i : Fin workingSetSize} (hi : i ∈ L' q)
    (hp : (s.workingSet i).Paired) : (s'.workingSet i).Paired := by
  have hframe := h.frame q i hi
  have h1 := congrFun hframe .first
  have h2 := congrFun hframe .second
  simp only [Pmb.frame] at h1 h2
  unfold Pmb.Paired
  rw [h1, h2]
  exact hp

end Shrunk

theorem recorded_release {h : Frame → Option ProcNr} {fr : Fin workingSetSize → Run → Option Frame}
    (fr' : Fin workingSetSize → Run → Option Frame)
    (hrec : Recorded h L fr) {i : Fin workingSetSize} {f₁ f₂ : Frame} (hi : i ∈ L p)
    (h₁ : fr i .first = some f₁) (h₂ : fr i .second = some f₂)
    (hL : ∀ q, ∀ j, j ∈ L' q ↔ j ∈ L q ∧ j ≠ i) (hsame : ∀ j, j ≠ i → fr' j = fr j) :
    h f₁ = some p ∧ Function.update h f₁ none f₂ = some p ∧
      Recorded (Function.update (Function.update h f₁ none) f₂ none) L' fr' := by
  have hne : f₂ ≠ f₁ := by
    rintro rfl
    have := (hrec.once hi h₁ hi h₂).2
    cases this
  have hp1 : h f₁ = some p := (hrec.held f₁ p).mpr ⟨i, hi, .first, h₁⟩
  have hp2 : h f₂ = some p := (hrec.held f₂ p).mpr ⟨i, hi, .second, h₂⟩
  -- the fields are struck out one after the other, then the block leaves the list
  let fr1 : Fin workingSetSize → Run → Option Frame :=
    fun j r => if j = i ∧ r = .first then none else fr j r
  let fr2 : Fin workingSetSize → Run → Option Frame := fun j r => if j = i then none else fr j r
  have hrec1 : Recorded (Function.update h f₁ none) L fr1 := by
    refine hrec.strike hi h₁ (if_pos ⟨rfl, rfl⟩) (fun j r hdiff => if_neg ?_)
    rintro ⟨rfl, rfl⟩
    simp at hdiff
  have hsecond : fr1 i .second = some f₂ := by
    show (if i = i ∧ Run.second = .first then none else fr i .second) = some f₂
    rw [if_neg (by simp), h₂]
  have hrec2 : Recorded (Function.update (Function.update h f₁ none) f₂ none) L fr2 := by
    refine hrec1.strike hi hsecond (if_pos rfl) (fun j r hdiff => ?_)
    show (if j = i then none else fr j r) = if j = i ∧ r = .first then none else fr j r
    by_cases hj : j = i
    · subst hj
      cases r with
      | first => simp
      | second => simp at hdiff
    · simp [hj]
  refine ⟨hp1, by rw [Function.update_of_ne hne, hp2], ?_⟩
  have hrec3 : Recorded (Function.update (Function.update h f₁ none) f₂ none) L' fr2 := by
    refine hrec2.relist (k := i) (fun r => if_pos rfl) (fun q j hj => ?_)
    rw [hL q j]
    exact and_iff_left hj
  refine hrec3.congr (fun q j hj r => ?_)
  have hji := ((hL q j).mp hj).2
  show fr' j r = if j = i then none else fr j r
  rw [if_neg hji, hsame j hji]

theorem freed_balanced (h : Balanced s L) (hp : Live s p) (here : Pmb → Bool)
    {pre suf : List (Fin workingSetSize)} {i : Fin workingSetSize} (hl : L p = pre ++ i :: suf)
    (hpre : ∀ j ∈ pre, here (s.workingSet j) = false) (hi : here (s.workingSet i) = true)
    (hpair : (s.workingSet i).Paired) :
    ∃ t first, unlink s.workingSet here pmbPool.clear (s.vmproc p).lus1Us2 = some (t, first) ∧
      Balanced { s.setWs t p first ((s.vmproc p).lus1Us2Size - 1) with
        ledger := s.ledger ++ [.back p (s.workingSet i).us1, .back p (s.workingSet i).us2] }
        (Function.update L p (pre ++ suf)) ∧
      (∀ q, ∀ j, j ∈ Function.update L p (pre ++ suf) q ↔ j ∈ L q ∧ j ≠ i) ∧
      t i = pmbPool.clear (s.workingSet i) ∧
      ∀ j, j ≠ i → ∃ x, t j = setNext (s.workingSet j) x := by
  have hfirst : wsFirst s p = (s.vmproc p).lus1Us2 := if_pos hp
  obtain ⟨t, first, hun, ho, hti, hset⟩ :=
    h.lists.owned.unlink_first here pmbPool.clear hl hpre hi (fun _ => rfl) (fun _ => rfl)
  rw [hfirst] at hun
  obtain ⟨f1, hf1⟩ := ne_none_iff_exists'.mp hpair.1
  obtain ⟨f2, hf2⟩ := ne_none_iff_exists'.mp hpair.2
  have hmem : i ∈ L p := by
    rw [hl]
    simp
  have hnd := h.lists.owned.nodup p
  rw [hl] at hnd
  have hnot : i ∉ pre ++ suf := (nodup_cons.mp (nodup_middle.mp hnd)).1
  have hL : ∀ q, ∀ j, j ∈ Function.update L p (pre ++ suf) q ↔ j ∈ L q ∧ j ≠ i := by
    intro q j
    by_cases hq : q = p
    · subst hq
      rw [Function.update_self, hl]
      constructor
      · intro hj
        refine ⟨?_, fun heq => hnot (heq ▸ hj)⟩
        rw [mem_append, mem_cons]
        rw [mem_append] at hj
        exact hj.imp_right .inr
      · rintro ⟨hj, hne⟩
        rw [mem_append, mem_cons] at hj
        rw [mem_append]
        exact hj.imp_right (fun hj => hj.resolve_left hne)
    · rw [Function.update_of_ne hq]
      refine (and_iff_left_of_imp fun hj => ?_).symm
      rintro rfl
      exact h.lists.owned.disjoint hq j hj hmem
  have hsame : ∀ j, j ≠ i → (fun r => (t j).frame r) = fun r => (s.workingSet j).frame r := by
    intro j hj
    obtain ⟨x, hx⟩ := hset j hj
    rw [hx]
    rfl
  obtain ⟨hp1, hp2, hrec⟩ := recorded_release (fun j r => (t j).frame r)
    h.recorded hmem hf1 hf2 hL hsame
  refine ⟨t, first, hun, ?_, hL, hti, hset⟩
  have hledger : s.ledger ++ [.back p (s.workingSet i).us1, .back p (s.workingSet i).us2] =
      (s.ledger ++ [.back p (some f1)]) ++ [.back p (some f2)] := by
    rw [hf1, hf2, append_assoc]
    rfl
  have hholder : holder ((s.ledger ++ [.back p (some f1)]) ++ [.back p (some f2)]) =
      Function.update (Function.update (holder s.ledger) f1 none) f2 none := by
    rw [holder_snoc, holder_snoc]
    rfl
  rw [hledger]
  constructor
  · have hsize : (s.vmproc p).lus1Us2Size - 1 = (pre ++ suf).length := by
      rw [h.lists.size p hp, hl]
      simp only [length_append, length_cons]
      omega
    have hlists := h.lists.setWs hp ho hsize
    exact ⟨hlists.owned, hlists.size⟩
  · apply ProperLedger.snoc
    · exact h.proper.snoc ⟨f1, rfl, hp1⟩
    · refine ⟨f2, rfl, ?_⟩
      rw [holder_snoc]
      exact hp2
  · show Recorded (holder ((s.ledger ++ [.back p (some f1)]) ++ [.back p (some f2)])) _ _
    rw [hholder]
    exact hrec
  refine ⟨h.fresh.1, fun f hf => ?_⟩
  show holder ((s.ledger ++ [.back p (some f1)]) ++ [.back p (some f2)]) f = none
  have hnone := h.fresh.2 f hf
  rw [hholder]
  by_cases h2 : f = f2
  · rw [h2, Function.update_self]
  rw [Function.update_of_ne h2]
  by_cases h1 : f = f1
  · rw [h1, Function.update_self]
  · rw [Function.update_of_ne h1]
    exact hnone

theorem freePramMemBlock_spec (h : Balanced s L) (hp : Live s p) {v : VirBytes}
    (hpair : ∀ i ∈ L p, samePage (s.workingSet i).vaddr v = true → (s.workingSet i).Paired)
    (hfree : freePramMemBlock s p v = some s') :
    ∃ L', Balanced s' L' ∧ Shrunk s s' L L' ∧
      ∀ i rest, L p = i :: rest → samePage (s.workingSet i).vaddr v = true →
        L' p = rest ∧ (s'.workingSet i).nextPmb = (s.workingSet i).nextPmb := by
  unfold freePramMemBlock at hfree
  split at hfree
  case isTrue => cases hfree
  rename_i hsize
  simp only at hfree
  rw [search_eq_of_chain (h.lists.chain hp)] at hfree
  cases hfind : (L p).find? (fun i => samePage (s.workingSet i).vaddr v) with
  | none =>
    rw [hfind] at hfree
    cases hfree
    refine ⟨L, h, Shrunk.refl s L, fun i rest hl hi => ?_⟩
    have hno := List.find?_eq_none.mp hfind i (by rw [hl]; exact mem_cons_self)
    exact absurd hi hno
  | some i =>
    obtain ⟨hi, pre, suf, hl, hpre⟩ := List.find?_eq_some_iff_append.mp hfind
    have hmem : i ∈ L p := mem_of_find?_eq_some hfind
    obtain ⟨t, first, hun, hbal, hL, hti, hset⟩ := freed_balanced h hp
      (fun b => samePage b.vaddr v) hl (fun j hj => by simpa using hpre j hj) hi
      (hpair i hmem hi)
    rw [hfind, hun] at hfree
    cases hfree
    refine ⟨_, hbal, ⟨fun q => ?_, fun q j hj => ((hL q j).mp hj).1, fun q j hj => ?_,
      fun q j hj => ?_⟩, fun i' rest hl' hi' => ?_⟩
    · by_cases hq : q = p
      · subst hq
        simp [setWs]
      · simp [setWs, hq]
    · obtain ⟨x, hx⟩ := hset j ((hL q j).mp hj).2
      show (t j).vaddr = (s.workingSet j).vaddr
      rw [hx]
      rfl
    · obtain ⟨x, hx⟩ := hset j ((hL q j).mp hj).2
      show (t j).frame = (s.workingSet j).frame
      rw [hx]
      rfl
    -- the first block of the list is of the page, so it is the one found
    rw [hl'] at hl
    cases pre with
    | nil =>
      cases hl
      exact ⟨by simp, by simp [setWs, hti, pmbPool]⟩
    | cons j pre =>
      obtain ⟨rfl, -⟩ := List.cons.inj hl
      have := hpre i' mem_cons_self
      simp [hi'] at this

/-- All blocks of the pages have both frames. -/
def PairedAt (s : State) (l : List (Fin workingSetSize)) (pages : List VirBytes) : Prop :=
  ∀ i ∈ l, (∃ v ∈ pages, samePage (s.workingSet i).vaddr v = true) → (s.workingSet i).Paired

variable {pages : List VirBytes}

theorem PairedAt.shrunk (h : PairedAt s (L p) pages)
    (hs : Shrunk s s' L L') : PairedAt s' (L' p) pages := by
  rintro i hi ⟨v, hv, hpage⟩
  rw [hs.vaddr p i hi] at hpage
  exact hs.paired hi (h i (hs.sub p i hi) ⟨v, hv, hpage⟩)

theorem PairedAt.mono {l : List (Fin workingSetSize)} {pages pages' : List VirBytes}
    (h : PairedAt s l pages) (hsub : ∀ v ∈ pages', v ∈ pages) : PairedAt s l pages' :=
  fun i hi ⟨v, hv, hpage⟩ => h i hi ⟨v, hsub v hv, hpage⟩

def Frees (s : State) (L : ProcNr → List (Fin workingSetSize)) (s' : State) : Prop :=
  ∃ L', Balanced s' L' ∧ Shrunk s s' L L'

theorem Frees.trans (h : Shrunk s s₁ L L₁) (h' : Frees s₁ L₁ s') : Frees s L s' := by
  obtain ⟨L', hbal, hs⟩ := h'
  exact ⟨L', hbal, h.trans hs⟩

theorem freePage_frees (h : Balanced s L) (hp : Live s p) {v : VirBytes}
    (hpair : PairedAt s (L p) [v]) (hfree : freePage p s v = some s') : Frees s L s' := by
  unfold freePage at hfree
  split at hfree
  case h_1 =>
    cases hfree
    exact ⟨L, h, Shrunk.refl s L⟩
  case h_2 i hi =>
    have hpage := (h.lists.lookUpPte_mem hp hi).2
    rw [samePage_iff] at hpage
    obtain ⟨L', hbal, hs, _⟩ := freePramMemBlock_spec h hp (fun j hj hsame => by
      rw [samePage_iff, hpage, ← samePage_iff] at hsame
      exact hpair j hj ⟨v, mem_singleton.mpr rfl, hsame⟩) hfree
    exact ⟨L', hbal, hs⟩

theorem foldlM_frees {f : State → VirBytes → Option State} (pagesOf : VirBytes → List VirBytes)
    (hturn : ∀ {s s' : State} {L v}, Balanced s L → Live s p → PairedAt s (L p) (pagesOf v) →
      f s v = some s' → Frees s L s') (h : Balanced s L) (hp : Live s p)
    (hpair : PairedAt s (L p) (pages.flatMap pagesOf)) (hrun : pages.foldlM f s = some s') :
    Frees s L s' := by
  induction pages generalizing s L with
  | nil =>
    cases hrun
    exact ⟨L, h, Shrunk.refl _ L⟩
  | cons v pages ih =>
    rw [foldlM_cons, bind_eq_bind] at hrun
    obtain ⟨s₁, hv, hrest⟩ := bind_eq_some_iff.mp hrun
    have hhead : PairedAt s (L p) (pagesOf v) := hpair.mono (fun w hw =>
      mem_flatMap.mpr ⟨v, mem_cons_self, hw⟩)
    have htail : PairedAt s (L p) (pages.flatMap pagesOf) := hpair.mono (fun w hw => by
      obtain ⟨u, hu, hw⟩ := mem_flatMap.mp hw
      exact mem_flatMap.mpr ⟨u, mem_cons_of_mem v hu, hw⟩)
    obtain ⟨L₁, h1, hs1⟩ := hturn h hp hhead hv
    exact Frees.trans hs1 (ih h1 ((hs1.live p).mpr hp) (htail.shrunk hs1) hrest)

theorem freeRegionPmbs_frees {raddr length : Nat} (h : Balanced s L) (hp : Live s p)
    (hpair : PairedAt s (L p) (pagesCovered raddr length))
    (hfree : freeRegionPmbs s p raddr length = some s') : Frees s L s' := by
  unfold freeRegionPmbs at hfree
  split at hfree
  case isTrue =>
    cases hfree
    exact ⟨L, h, Shrunk.refl s L⟩
  refine foldlM_frees (fun v => [v]) (fun h hp hpair => freePage_frees h hp hpair)
    h hp ?_ hfree
  exact hpair.mono (fun v hv => by simpa using hv)

theorem freeProc_frees (h : Balanced s L) (hp : Live s p) (hpair : (s.vmproc p).toHard = true →
      PairedAt s (L p) (pages.flatMap (fun v => pagesCovered v 4096)))
    (hfree : freeProc s p pages = some s') : Frees s L s' := by
  unfold freeProc at hfree
  split at hfree
  case isTrue hhard =>
    simp only [Bool.and_eq_true] at hhard
    exact foldlM_frees (fun v => pagesCovered v 4096)
      (fun h hp hpair => freeRegionPmbs_frees h hp hpair) h hp (hpair hhard.1.1) hfree
  case isFalse =>
    cases hfree
    exact ⟨L, h, Shrunk.refl s L⟩

theorem freePramMemBlocks_frees (h : Balanced s L) (hp : Live s p)
    (hpair : ∀ i ∈ L p, (s.workingSet i).Paired) (hfree : freePramMemBlocks s p = some s') :
    ∃ L', Balanced s' L' ∧ Shrunk s s' L L' ∧ L' p = [] := by
  unfold freePramMemBlocks at hfree
  split at hfree
  case isTrue hsize =>
    cases hfree
    refine ⟨L, h, Shrunk.refl s L, ?_⟩
    rw [Nat.le_zero, h.lists.size p hp] at hsize
    exact length_eq_zero_iff.mp hsize
  split at hfree
  case h_1 => cases hfree
  case h_2 s₁ hloop =>
    split at hfree
    case isFalse => cases hfree
    cases hfree
    rw [(h.lists.chain hp).start_eq_head?] at hloop
    have hinv := whileNext_inv
      (P := fun rest s2 => ∃ L2, Balanced s2 L2 ∧ Shrunk s s2 L L2 ∧ L2 p = rest)
      (fun i rest s2 s3 hP hbody => by
        obtain ⟨L2, h2, hs2, hrest⟩ := hP
        have hp2 : Live s2 p := (hs2.live p).mpr hp
        obtain ⟨L3, h3, hs3, hfirst⟩ := freePramMemBlock_spec h2 hp2
          (fun j hj _ => hs2.paired hj (hpair j (hs2.sub p j hj))) hbody
        obtain ⟨hL3, hnext⟩ := hfirst i rest hrest (samePage_iff.mpr rfl)
        refine ⟨⟨L3, h3, hs2.trans hs3, hL3⟩, ?_⟩
        rw [hnext]
        exact h2.lists.owned.next_eq [] hrest)
      ⟨L, h, Shrunk.refl s L, rfl⟩ hloop
    exact hinv

/-! ## Allocating -/

/-- Only the record of `p` changes, and not in what makes it live. -/
structure Kept (s s' : State) (p : ProcNr) : Prop where
  other : ∀ q, q ≠ p → s'.vmproc q = s.vmproc q
  inuse : (s'.vmproc p).inuse = (s.vmproc p).inuse
  hasEndpoint : (s'.vmproc p).hasEndpoint = (s.vmproc p).hasEndpoint
  hardeningEnabled : s'.hardeningEnabled = s.hardeningEnabled

namespace Kept

theorem refl (s : State) (p : ProcNr) : Kept s s p := ⟨fun _ _ => rfl, rfl, rfl, rfl⟩

theorem trans {s₂ : State} (h : Kept s s₁ p) (h' : Kept s₁ s₂ p) : Kept s s₂ p where
  other q hq := (h'.other q hq).trans (h.other q hq)
  inuse := h'.inuse.trans h.inuse
  hasEndpoint := h'.hasEndpoint.trans h.hasEndpoint
  hardeningEnabled := h'.hardeningEnabled.trans h.hardeningEnabled

theorem live (h : Kept s s' p) (q : ProcNr) : Live s' q ↔ Live s q := by
  unfold Live
  by_cases hq : q = p
  · subst hq
    rw [h.inuse, h.hasEndpoint]
  · rw [h.other q hq]

end Kept

theorem addPmb_spec (h : Lists s L) (hp : Live s p) {v : VirBytes} {pfa : Frame}
    {us1 us2 : Option Frame} (hroom : ∑ q, (L q).length < workingSetSize)
    (hadd : addPmb s p v pfa us1 us2 = some s') :
    ∃ i, (∀ q, i ∉ L q) ∧ Lists s' (Function.update L p (L p ++ [i])) ∧ Kept s s' p ∧
      (s'.workingSet i).us1 = us1 ∧ (s'.workingSet i).us2 = us2 ∧
      (∀ j, j ≠ i → (s'.workingSet j).frame = (s.workingSet j).frame ∧
        (s'.workingSet j).vaddr = (s.workingSet j).vaddr) ∧
      s'.ledger = s.ledger ∧ s'.mem = s.mem := by
  have hfirst : wsFirst s p = (s.vmproc p).lus1Us2 := if_pos hp
  obtain ⟨i, hget, hi⟩ := h.owned.getSlot_unlisted pmbPool (Owned.exists_unlisted hroom)
  obtain ⟨t, first, hins, ho, hset⟩ := h.owned.insert (o := p)
    (a := { pmbPool.reset (s.workingSet i) with us0 := some pfa, vaddr := v, us1 := us1, us2 := us2 })
    hi rfl rfl
  rw [hfirst, ← h.size p hp] at hins
  unfold addPmb at hadd
  simp only [hget, Function.update_self, Function.update_idem] at hadd
  rw [hins] at hadd
  cases hadd
  have hne : ∀ j, j ≠ i → ∃ x, Function.update t i { t i with id := (s.vmproc p).lus1Us2Size } j =
      setNext (s.workingSet j) x := by
    intro j hj
    obtain ⟨x, hx⟩ := hset j
    rw [Function.update_of_ne hj] at hx ⊢
    exact ⟨x, hx⟩
  obtain ⟨x, hx⟩ := hset i
  rw [Function.update_self] at hx
  refine ⟨i, hi, ?_, ⟨fun q hq => ?_, ?_, ?_, rfl⟩, ?_, ?_, fun j hj => ?_, rfl, rfl⟩
  · apply Lists.setWs h hp
    · exact ho.update rfl rfl
    · rw [h.size p hp]
      simp
  · simp [setWs, hq]
  · simp [setWs]
  · simp [setWs]
  · simp only [setWs, Function.update_self, hx]
    rfl
  · simp only [setWs, Function.update_self, hx]
    rfl
  · obtain ⟨y, hy⟩ := hne j hj
    simp only [setWs]
    rw [hy]
    exact ⟨rfl, rfl⟩

/-- The fields of the blocks, with those of `i` replaced. -/
def withFields (fr : Fin workingSetSize → Run → Option Frame) (i : Fin workingSetSize)
    (g : Run → Option Frame) : Fin workingSetSize → Run → Option Frame :=
  fun j => if j = i then g else fr j

section Fields

variable {h : Frame → Option ProcNr} {fr : Fin workingSetSize → Run → Option Frame}
  {i : Fin workingSetSize} {g : Run → Option Frame}

theorem withFields_self : withFields fr i g i = g := if_pos rfl

theorem withFields_of_ne {j : Fin workingSetSize} (hj : j ≠ i) : withFields fr i g j = fr j :=
  if_neg hj

theorem recorded_append (hrec : Recorded h L fr) (hi : ∀ q, i ∉ L q) :
    Recorded h (Function.update L p (L p ++ [i])) (withFields fr i (fun _ => none)) := by
  have hcongr : Recorded h L (withFields fr i (fun _ => none)) := by
    refine hrec.congr (fun q j hj r => ?_)
    rw [withFields_of_ne]
    rintro rfl
    exact hi q hj
  refine hcongr.relist (k := i) (fun r => by rw [withFields_self]) (fun q j hj => ?_)
  by_cases hq : q = p
  · subst hq
    simp [hj]
  · rw [Function.update_of_ne hq]

theorem recorded_note {r : Run} {f : Frame} (hrec : Recorded h L (withFields fr i g))
    (hi : i ∈ L p) (honly : ∀ q, q ≠ p → i ∉ L q) (hempty : g r = none) (hin : h f = none) :
    Recorded (Function.update h f (some p)) L (withFields fr i (Function.update g r (some f))) := by
  refine hrec.note (k := i) (r := r) hi honly ?_ hin ?_ (fun j r' hdiff => ?_)
  · rw [withFields_self, hempty]
  · rw [withFields_self, Function.update_self]
  by_cases hj : j = i
  · subst hj
    rw [withFields_self, withFields_self]
    exact Function.update_of_ne (hdiff.resolve_left (fun hne => hne rfl)) _ _
  · rw [withFields_of_ne hj, withFields_of_ne hj]

end Fields

theorem allocMem_eq_some {f : Frame} (h : allocMem s p = some (s', f)) :
    ∃ mem, s.mem = f :: mem ∧ s' = { s with mem := mem, ledger := s.ledger ++ [.out p f] } := by
  unfold allocMem at h
  split at h
  case h_1 => cases h
  case h_2 g mem hmem =>
    cases h
    exact ⟨mem, hmem, rfl⟩

variable {mem : List Frame} {i : Fin workingSetSize}

theorem fresh_alloc {f : Frame} (h : Fresh s (f :: mem)) : holder s.ledger f = none ∧
      Fresh { s with mem := mem, ledger := s.ledger ++ [.out p f] } mem := by
  obtain ⟨hnd, hfresh⟩ := h
  refine ⟨hfresh f mem_cons_self, (nodup_cons.mp hnd).2, fun g hg => ?_⟩
  have hne : g ≠ f := by
    rintro rfl
    exact (nodup_cons.mp hnd).1 hg
  rw [holder_snoc]
  show Function.update (holder s.ledger) f (some p) g = none
  rw [Function.update_of_ne hne]
  exact hfresh g (mem_cons_of_mem f hg)

def total (L : ProcNr → List (Fin workingSetSize)) : Nat := ∑ q, (L q).length

/-- Blocks of `p` were added, at most `n`. -/
structure Grown (s s' : State) (L L' : ProcNr → List (Fin workingSetSize)) (p : ProcNr)
    (n : Nat) : Prop where
  kept : Kept s s' p
  found : ∀ v, lookUpPte s p v ≠ none → lookUpPte s' p v ≠ none
  total : total L' ≤ total L + n

theorem total_append (L : ProcNr → List (Fin workingSetSize)) (p : ProcNr)
    (i : Fin workingSetSize) : total (Function.update L p (L p ++ [i])) = total L + 1 := by
  have hsum := Owned.sum_length_update L p (L p ++ [i])
  unfold total
  rw [length_append, length_singleton] at hsum
  omega

theorem fields_addPmb {us1 us2 : Option Frame}
    (h₁ : (s'.workingSet i).us1 = us1) (h₂ : (s'.workingSet i).us2 = us2)
    (hsame : ∀ j, j ≠ i → (s'.workingSet j).frame = (s.workingSet j).frame ∧
      (s'.workingSet j).vaddr = (s.workingSet j).vaddr) {g : Run → Option Frame}
    (hg₁ : g .first = us1) (hg₂ : g .second = us2) :
    (fun j r => (s'.workingSet j).frame r) =
      withFields (fun j r => (s.workingSet j).frame r) i g := by
  funext j r
  by_cases hj : j = i
  · subst hj
    rw [withFields_self]
    cases r with
    | first => rw [hg₁]; exact h₁
    | second => rw [hg₂]; exact h₂
  · rw [withFields_of_ne hj, (hsame j hj).1]

theorem found_addPmb (h : Lists s L) (hp : Live s p)
    (hi : ∀ q, i ∉ L q) (h' : Lists s' (Function.update L p (L p ++ [i])))
    (hp' : Live s' p) (hsame : ∀ j, j ≠ i → (s'.workingSet j).frame = (s.workingSet j).frame ∧
      (s'.workingSet j).vaddr = (s.workingSet j).vaddr) (v : VirBytes)
    (hfound : lookUpPte s p v ≠ none) : lookUpPte s' p v ≠ none := by
  obtain ⟨j, hj⟩ := ne_none_iff_exists'.mp hfound
  obtain ⟨hmem, hpage⟩ := h.lookUpPte_mem hp hj
  have hji : j ≠ i := by
    rintro rfl
    exact hi p hmem
  rw [h'.lookUpPte_eq hp', Function.update_self]
  intro hnone
  have hno := List.find?_eq_none.mp hnone j (mem_append_left _ hmem)
  rw [(hsame j hji).2] at hno
  exact hno hpage

theorem setUs0_balanced (h : Balanced s L) (i : Fin workingSetSize) (f : Frame) :
    Balanced (s.setPmb i { s.workingSet i with us0 := some f }) L := by
  refine ⟨h.lists.setPmb rfl rfl, h.proper, ?_, h.fresh⟩
  refine h.recorded.congr (fun q j _ r => ?_)
  by_cases hj : j = i
  · subst hj
    cases r <;> simp [State.setPmb, Pmb.frame]
  · simp [State.setPmb, hj]

theorem tellPage_balanced (h : Balanced s L) (hp : Live s p) {page : VirBytes × Frame}
    (hroom : lookUpPte s p page.1 = none → total L < workingSetSize)
    (hrun : tellPage p s page = some s') :
    ∃ L', Balanced s' L' ∧ Grown s s' L L' p (if (lookUpPte s p page.1).isNone then 1 else 0) := by
  unfold tellPage at hrun
  split at hrun
  case h_1 i hi =>
    cases hrun
    have hbal := setUs0_balanced h i page.2
    refine ⟨L, hbal, ⟨⟨fun _ _ => rfl, rfl, rfl, rfl⟩, fun v hv => ?_, Nat.le_add_right _ _⟩⟩
    rw [hbal.lists.lookUpPte_eq hp]
    rw [h.lists.lookUpPte_eq hp] at hv
    have hvaddr : ∀ j, ((s.setPmb i { s.workingSet i with us0 := some page.2 }).workingSet
        j).vaddr = (s.workingSet j).vaddr := by
      intro j
      by_cases hj : j = i
      · subst hj
        simp [State.setPmb]
      · simp [State.setPmb, hj]
    simp only [hvaddr]
    exact hv
  case h_2 hnone =>
    rw [hnone]
    simp only [bind_eq_bind, bind_eq_some_iff] at hrun
    obtain ⟨⟨s₁, f1⟩, ha1, ⟨s2, f2⟩, ha2, hadd⟩ := hrun
    obtain ⟨mem1, hmem, rfl⟩ := allocMem_eq_some ha1
    obtain ⟨mem2, hmem1, rfl⟩ := allocMem_eq_some ha2
    simp only at hmem1
    subst hmem1
    have hfresh := h.fresh
    rw [hmem] at hfresh
    obtain ⟨hin1, hfresh1⟩ := fresh_alloc (p := p) hfresh
    obtain ⟨hin2, hfresh2⟩ := fresh_alloc (p := p) hfresh1
    simp only at hin2
    obtain ⟨i, hi, hlists, hkept, h1, h2, hsame, hledger, hmem'⟩ := addPmb_spec (s := { s with
        mem := mem2, ledger := (s.ledger ++ [.out p f1]) ++ [.out p f2] }) (L := L)
        ⟨h.lists.owned, h.lists.size⟩ hp (hroom hnone) hadd
    have hip : i ∈ Function.update L p (L p ++ [i]) p := by simp
    have honly : ∀ q, q ≠ p → i ∉ Function.update L p (L p ++ [i]) q := by
      intro q hq
      rw [Function.update_of_ne hq]
      exact hi q
    have hrec1 := recorded_note (r := .first) (recorded_append (p := p) h.recorded hi) hip honly
      rfl hin1
    have hrec2 := recorded_note (r := .second) hrec1 hip honly rfl (by
      rw [holder_snoc] at hin2
      exact hin2)
    refine ⟨_, ⟨hlists, ?_, ?_, ?_⟩, ⟨hkept.other, hkept.inuse, hkept.hasEndpoint,
      hkept.hardeningEnabled⟩, ?_, ?_⟩
    · rw [hledger]
      exact (h.proper.snoc (e := .out p f1) hin1).snoc (e := .out p f2) hin2
    · rw [hledger, holder_snoc, holder_snoc, fields_addPmb h1 h2 hsame (g := Function.update
        (Function.update (fun _ => none) .first (some f1)) .second (some f2)) rfl rfl]
      exact hrec2
    · unfold Fresh at hfresh2 ⊢
      rw [hledger, hmem']
      exact hfresh2
    · exact found_addPmb h.lists hp hi hlists ((hkept.live p).mpr hp) hsame
    · rw [total_append]
      simp

/-- There is a slot for a block of every page that has none. -/
def Room (s : State) (p : ProcNr) (pages : List (VirBytes × Frame)) : Prop :=
  ((List.finRange nrSlots).map (fun q => (blocksOf s q).length)).sum +
    pages.countP (fun page => (lookUpPte s p page.1).isNone) ≤ workingSetSize

instance (s : State) (p : ProcNr) (pages : List (VirBytes × Frame)) :
    Decidable (Room s p pages) := inferInstanceAs (Decidable (_ ≤ _))

theorem Lists.room_iff (h : Lists s L) {pages : List (VirBytes × Frame)} : Room s p pages ↔
    total L + pages.countP (fun page => (lookUpPte s p page.1).isNone) ≤ workingSetSize := by
  unfold Room total
  simp only [h.blocksOf_eq]
  rw [Fin.sum_univ_def]

theorem tellPages_balanced {pages : List (VirBytes × Frame)} (h : Balanced s L) (hp : Live s p)
    (hroom : total L + pages.countP (fun page => (lookUpPte s p page.1).isNone) ≤
      workingSetSize) (hrun : pages.foldlM (tellPage p) s = some s') :
    ∃ L', Balanced s' L' ∧ Kept s s' p := by
  induction pages generalizing s L with
  | nil =>
    cases hrun
    exact ⟨L, h, Kept.refl _ p⟩
  | cons page pages ih =>
    rw [foldlM_cons, bind_eq_bind] at hrun
    obtain ⟨s₁, hpage, hrest⟩ := bind_eq_some_iff.mp hrun
    rw [countP_cons] at hroom
    obtain ⟨L₁, h1, hgrown⟩ := tellPage_balanced h hp (fun hnone => by
      rw [hnone] at hroom
      simp only [isNone_none, ↓reduceIte] at hroom
      omega) hpage
    have hcount : pages.countP (fun page => (lookUpPte s₁ p page.1).isNone) ≤
        pages.countP (fun page => (lookUpPte s p page.1).isNone) := by
      apply countP_mono_left
      intro page _ hnone
      rw [isNone_iff_eq_none] at hnone ⊢
      by_contra hne
      exact hgrown.found page.1 hne hnone
    have htotal := hgrown.total
    obtain ⟨L', h', hkept⟩ := ih h1 ((hgrown.kept.live p).mpr hp) (by omega) hrest
    exact ⟨L', h', hgrown.kept.trans hkept⟩

/-! ## Faults -/

theorem Balanced.setHard (h : Balanced s L) (p : ProcNr) (on : Bool) :
    Balanced (s.setVmproc p { s.vmproc p with toHard := on }) L := by
  have hlive : ∀ q, Live (s.setVmproc p { s.vmproc p with toHard := on }) q ↔ Live s q := by
    intro q
    by_cases hq : q = p
    · subst hq
      simp [Live, State.setVmproc]
    · simp [Live, State.setVmproc, hq]
  have hlist : ∀ q, ((s.setVmproc p { s.vmproc p with toHard := on }).vmproc q).lus1Us2 =
        (s.vmproc q).lus1Us2 ∧
      ((s.setVmproc p { s.vmproc p with toHard := on }).vmproc q).lus1Us2Size =
        (s.vmproc q).lus1Us2Size := by
    intro q
    by_cases hq : q = p
    · subst hq
      simp [State.setVmproc]
    · simp [State.setVmproc, hq]
  have hfirst : wsFirst (s.setVmproc p { s.vmproc p with toHard := on }) = wsFirst s := by
    funext q
    unfold wsFirst
    simp only [hlive, hlist]
  refine ⟨⟨?_, fun q hq => ?_⟩, h.proper, h.recorded, h.fresh⟩
  · rw [hfirst]
    exact h.lists.owned
  · rw [(hlist q).2]
    exact h.lists.size q ((hlive q).mp hq)

theorem setFrame_balanced (h : Balanced s L) (hi : i ∈ L p)
    {f : Frame} (hmem : s.mem = f :: mem) {what : Run}
    (hempty : (s.workingSet i).frame what = none) :
    Balanced { s.setPmb i ((s.workingSet i).setFrame what f) with
      mem := mem, ledger := s.ledger ++ [.out p f] } L := by
  have hfresh := h.fresh
  rw [hmem] at hfresh
  obtain ⟨hin, hfresh'⟩ := fresh_alloc (p := p) hfresh
  have hlists : Lists (s.setPmb i ((s.workingSet i).setFrame what f)) L := by
    cases what with
    | first => exact h.lists.setPmb rfl rfl
    | second => exact h.lists.setPmb rfl rfl
  have hframe : ∀ r, ((s.workingSet i).setFrame what f).frame r =
      Function.update ((s.workingSet i).frame) what (some f) r := by
    intro r
    cases what <;> cases r <;> rfl
  refine ⟨⟨hlists.owned, hlists.size⟩, h.proper.snoc (e := .out p f) hin, ?_, hfresh'⟩
  show Recorded (holder (s.ledger ++ [.out p f])) L _
  rw [holder_snoc]
  refine h.recorded.note (k := i) (r := what) hi
    (fun q hq hmem => h.lists.owned.disjoint hq i hmem hi) hempty hin ?_ (fun j r hdiff => ?_)
  · show ((Function.update s.workingSet i ((s.workingSet i).setFrame what f)) i).frame what = some f
    rw [Function.update_self, hframe, Function.update_self]
  show ((Function.update s.workingSet i ((s.workingSet i).setFrame what f)) j).frame r =
    (s.workingSet j).frame r
  by_cases hj : j = i
  · subst hj
    rw [Function.update_self, hframe]
    exact Function.update_of_ne (hdiff.resolve_left (fun hne => hne rfl)) _ _
  · rw [Function.update_of_ne hj]

theorem allocateForBlock_balanced (h : Balanced s L) (hi : i ∈ L p) {phys : Frame} {what : Run}
    (hcond : (s.workingSet i).frame what ≠ none → (s.workingSet i).frame what.other ≠ none)
    (hrun : allocateForBlock s p i phys what = some s') : Balanced s' L := by
  unfold allocateForBlock at hrun
  simp only at hrun
  by_cases hpair : (s.workingSet i).us1 ≠ none ∧ (s.workingSet i).us2 ≠ none
  · have hnot : ¬ ((s.workingSet i).us1 = none ∨ (s.workingSet i).us2 = none) := by
      rw [not_or]
      exact hpair
    rw [if_neg hnot, if_pos hpair] at hrun
    cases hrun
    exact setUs0_balanced h i phys
  have hmiss : (s.workingSet i).us1 = none ∨ (s.workingSet i).us2 = none := by
    rw [not_and_or, not_not, not_not] at hpair
    exact hpair
  -- the missing frame is that of the run
  have hempty : (s.workingSet i).frame what = none := by
    by_contra hfull
    have hother := hcond hfull
    cases what with
    | first => exact hpair ⟨hfull, hother⟩
    | second => exact hpair ⟨hother, hfull⟩
  rw [if_pos hmiss, if_neg hpair] at hrun
  split at hrun
  case h_1 => cases hrun
  case h_2 s₁ new halloc =>
    obtain ⟨mem, hmem, rfl⟩ := allocMem_eq_some halloc
    rw [if_pos hempty] at hrun
    cases hrun
    exact setFrame_balanced h hi hmem hempty

theorem allocateNew_balanced (h : Balanced s L) (hp : Live s p) {v : VirBytes} {phys f : Frame} (hmem : s.mem = f :: mem) {us1 us2 : Option Frame} (what : Run)
    {g : Run → Option Frame} (hg : g = Function.update (fun _ => none) what (some f))
    (hg₁ : g .first = us1) (hg₂ : g .second = us2) (hroom : total L < workingSetSize)
    (hadd : addPmb { s with mem := mem, ledger := s.ledger ++ [.out p f] } p v phys us1 us2 =
      some s') : ∃ L', Balanced s' L' := by
  have hfresh := h.fresh
  rw [hmem] at hfresh
  obtain ⟨hin, hfresh'⟩ := fresh_alloc (p := p) hfresh
  obtain ⟨i, hi, hlists, _, h1, h2, hsame, hledger, hmem'⟩ :=
    addPmb_spec (s := { s with mem := mem, ledger := s.ledger ++ [.out p f] }) (L := L)
      ⟨h.lists.owned, h.lists.size⟩ hp hroom hadd
  have honly : ∀ q, q ≠ p → i ∉ Function.update L p (L p ++ [i]) q := by
    intro q hq
    rw [Function.update_of_ne hq]
    exact hi q
  have hrec := recorded_note (r := what) (recorded_append (p := p) h.recorded hi) (by simp) honly
    rfl hin
  refine ⟨_, hlists, ?_, ?_, ?_⟩
  · rw [hledger]
    exact h.proper.snoc (e := .out p f) hin
  · rw [hledger, holder_snoc, fields_addPmb h1 h2 hsame hg₁ hg₂, hg]
    exact hrec
  · unfold Fresh at hfresh' ⊢
    rw [hledger, hmem']
    exact hfresh'

/-- The condition under which a fault of the run `what` allocates what it needs. -/
def FaultOk (s : State) (p : ProcNr) (v : VirBytes) (phys : Frame) (what : Run) : Prop :=
  match lookUpPte s p v with
  | none => Room s p [(v, phys)]
  | some i => (s.workingSet i).frame what ≠ none → (s.workingSet i).frame what.other ≠ none

theorem allocateMem4Hardening_balanced (h : Balanced s L) (hp : Live s p) {v : VirBytes}
    {phys : Frame} {what : Run} (hcond : FaultOk s p v phys what)
    (hrun : allocateMem4Hardening s p v phys what = some s') : ∃ L', Balanced s' L' := by
  have hbal := h.setHard p true
  have hp' : Live (s.setVmproc p { s.vmproc p with toHard := true }) p := by
    simpa [Live, State.setVmproc] using hp
  have hlook : lookUpPte (s.setVmproc p { s.vmproc p with toHard := true }) p v =
      lookUpPte s p v := by
    rw [hbal.lists.lookUpPte_eq hp', h.lists.lookUpPte_eq hp]
    rfl
  unfold allocateMem4Hardening at hrun
  unfold FaultOk at hcond
  simp only [hlook] at hrun
  cases hl : lookUpPte s p v with
  | some i =>
    rw [hl] at hrun hcond
    exact ⟨L, allocateForBlock_balanced hbal (h.lists.lookUpPte_mem hp hl).1 hcond hrun⟩
  | none =>
    rw [hl] at hrun hcond
    have hroom : total L < workingSetSize := by
      have := h.lists.room_iff.mp hcond
      rw [countP_singleton, hl] at this
      simp only [isNone_none, ↓reduceIte] at this
      omega
    simp only [bind_eq_bind, bind_eq_some_iff] at hrun
    obtain ⟨⟨s₁, f⟩, halloc, hadd⟩ := hrun
    obtain ⟨mem, hmem, rfl⟩ := allocMem_eq_some halloc
    cases what with
    | first => exact allocateNew_balanced hbal hp' hmem .first rfl rfl rfl hroom hadd
    | second => exact allocateNew_balanced hbal hp' hmem .second rfl rfl rfl hroom hadd

/-! ## Fork, exec and exit -/

/-- The pages of several calls of `tell_kernel_for_us1_us2`. -/
def writtenPages (writes : List (VirBytes × Frame × Nat)) : List (VirBytes × Frame) :=
  writes.flatMap (fun w => pagesFrom w.1 w.2.1 w.2.2)

theorem tellKernels_eq (writes : List (VirBytes × Frame × Nat)) (s : State) (p : ProcNr) :
    writes.foldlM (fun s w => tellKernelForUs1Us2 s p w.1 w.2.1 w.2.2) s =
      (writtenPages writes).foldlM (tellPage p) s := by
  induction writes generalizing s with
  | nil => rfl
  | cons w writes ih =>
    rw [writtenPages, flatMap_cons, foldlM_append, foldlM_cons]
    exact bind_congr (fun s₁ => ih s₁)

theorem Lists.setLive (h : Lists s L) {x : VmProc} (hp : ¬ Live s p) (hnone : x.lus1Us2 = none)
    (hsize : x.lus1Us2Size = 0) : Lists (s.setVmproc p x) L := by
  have hdead := h.dead hp
  have hother : ∀ q, q ≠ p → (s.setVmproc p x).vmproc q = s.vmproc q :=
    fun q hq => Function.update_of_ne hq _ _
  constructor
  · have hfirst : wsFirst (s.setVmproc p x) = wsFirst s := by
      funext q
      by_cases hq : q = p
      · subst hq
        rw [show wsFirst s q = none from if_neg hp]
        simp [wsFirst, setVmproc, hnone]
      · exact wsFirst_congr (hother q hq)
    rw [hfirst]
    exact h.owned
  intro q hq
  by_cases hqp : q = p
  · subst hqp
    simp [setVmproc, hsize, hdead]
  · unfold Live at hq
    rw [hother q hqp] at hq ⊢
    exact h.size q hq

theorem doFork_balanced {parent child : ProcNr} {copied : Bool}
    {writes : List (VirBytes × Frame × Nat)} (h : Balanced s L) (hparent : Live s parent)
    (hchild : ¬ Live s child)
    (hlist : copied = true → s.hardeningEnabled = true ∨ (s.vmproc parent).lus1Us2 = none)
    (hroom : copied = true → (s.vmproc parent).toHard = true → Room s parent (writtenPages writes))
    (hfork : doFork s parent child copied writes = some s') : ∃ L', Balanced s' L' := by
  have hne : parent ≠ child := by
    rintro rfl
    exact hchild hparent
  have hlists := h.lists.setDead (x := { s.vmproc parent with hasEndpoint := false }) hchild rfl
  have h1 : Balanced (s.setVmproc child { s.vmproc parent with hasEndpoint := false }) L :=
    ⟨hlists, h.proper, h.recorded, h.fresh⟩
  have hsame : (s.setVmproc child { s.vmproc parent with hasEndpoint := false }).vmproc parent =
      s.vmproc parent := Function.update_of_ne hne _ _
  have hparent1 : Live (s.setVmproc child { s.vmproc parent with hasEndpoint := false })
      parent := by
    unfold Live
    rw [hsame]
    exact hparent
  unfold doFork at hfork
  simp only at hfork
  cases copied with
  | false =>
    cases hfork
    exact ⟨L, h1⟩
  | true =>
    rw [if_neg (by simp), hsame] at hfork
    split at hfork
    case h_1 => cases hfork
    case h_2 s2 hwrites =>
      -- the writes leave the record of the child as the copy it is
      obtain ⟨L2, h2, hkept⟩ : ∃ L2, Balanced s2 L2 ∧
          Kept (s.setVmproc child { s.vmproc parent with hasEndpoint := false }) s2 parent := by
        split at hwrites
        case isTrue hhard =>
          rw [tellKernels_eq] at hwrites
          refine tellPages_balanced h1 hparent1 ?_ hwrites
          have hr := h.lists.room_iff.mp (hroom rfl hhard)
          simp only [hlists.lookUpPte_eq hparent1]
          simp only [h.lists.lookUpPte_eq hparent] at hr
          exact hr
        case isFalse =>
          cases hwrites
          exact ⟨L, h1, Kept.refl _ parent⟩
      have hcopy : s2.vmproc child = { s.vmproc parent with hasEndpoint := false } := by
        rw [hkept.other child (Ne.symm hne)]
        simp [setVmproc]
      have hdead : ¬ Live s2 child := by
        unfold Live
        rw [hcopy]
        simp
      have hen : s2.hardeningEnabled = s.hardeningEnabled := hkept.hardeningEnabled
      cases hfork
      refine ⟨L2, ?_, h2.proper, h2.recorded, h2.fresh⟩
      split
      case isTrue => exact h2.lists.setLive hdead rfl rfl
      rename_i hoff
      rw [hen] at hoff
      have hnone := (hlist rfl).resolve_left hoff
      have hchain := h.lists.chain hparent
      rw [hnone] at hchain
      apply h2.lists.setLive hdead
      · rw [hcopy]
        exact hnone
      · rw [hcopy]
        show (s.vmproc parent).lus1Us2Size = 0
        rw [h.lists.size parent hparent, hchain.nil_inv, length_nil]

theorem Lists.setGone (h : Lists s L) (hL : L p = []) {x : VmProc} (hx : x.inuse = false) :
    Lists (s.setVmproc p x) L := by
  have hother : ∀ q, q ≠ p → (s.setVmproc p x).vmproc q = s.vmproc q :=
    fun q hq => Function.update_of_ne hq _ _
  have hdead : ¬ Live (s.setVmproc p x) p := by
    simp [Live, setVmproc, hx]
  constructor
  · have hfirst : wsFirst (s.setVmproc p x) = wsFirst s := by
      funext q
      by_cases hq : q = p
      · subst hq
        have hc := h.owned.chain q
        rw [hL] at hc
        rw [hc.eq_none_of_nil]
        exact if_neg hdead
      · exact wsFirst_congr (hother q hq)
    rw [hfirst]
    exact h.owned
  intro q hq
  have hqp : q ≠ p := by
    rintro rfl
    exact hdead hq
  unfold Live at hq
  rw [hother q hqp] at hq ⊢
  exact h.size q hq

theorem doExit_balanced {pages : List VirBytes} (h : Balanced s L) (hp : Live s p)
    (hpair : ∀ i ∈ L p, (s.workingSet i).Paired) (hexit : doExit s p pages = some s') :
    ∃ L', Balanced s' L' := by
  obtain ⟨s₁, hfree, hclear⟩ := bind_eq_some_iff.mp hexit
  obtain ⟨L₁, h1, hs1⟩ := freeProc_frees h hp (fun _ i hi _ => hpair i hi) hfree
  obtain ⟨s2, hblocks, rfl⟩ := map_eq_some_iff.mp hclear
  obtain ⟨L2, h2, _, hempty⟩ := freePramMemBlocks_frees h1 ((hs1.live p).mpr hp)
    (fun i hi => hs1.paired hi (hpair i (hs1.sub p i hi))) hblocks
  exact ⟨L2, h2.lists.setGone hempty rfl, h2.proper, h2.recorded, h2.fresh⟩

/-! ## Runs -/

/-- No child shares the list of its parent, no fault finds only the frame of its run, a block that
is freed has both frames, and there are slots for new blocks. -/
def Accounted (s : State) : Op → Prop
  | .tellKernel p v phys bytes => Room s p (pagesFrom v phys bytes)
  | .pagefault p v phys what => FaultOk s p v phys what
  | .freeRegion p raddr length => PairedAt s (blocksOf s p) (pagesCovered raddr length)
  | .memconf p => ∀ i ∈ blocksOf s p, (s.workingSet i).Paired
  | .fork parent _ copied writes => copied = true →
    (s.hardeningEnabled = true ∨ (s.vmproc parent).lus1Us2 = none) ∧
      ((s.vmproc parent).toHard = true → Room s parent (writtenPages writes))
  | .exec p pages => (s.vmproc p).toHard = true →
    PairedAt s (blocksOf s p) (pages.flatMap (fun v => pagesCovered v 4096))
  | .exit p _ => ∀ i ∈ blocksOf s p, (s.workingSet i).Paired
  | .hardening _ => True
  | .hardeningP _ _ => True

theorem step_balanced {op : Op} (h : Balanced s L) (hen : op.Enabled s) (hcond : Accounted s op)
    (hstep : step s op = some s') : ∃ L', Balanced s' L' := by
  have hblocks := h.lists.blocksOf_eq
  cases op with
  | tellKernel p v phys bytes =>
    obtain ⟨L', h', _⟩ := tellPages_balanced h hen (h.lists.room_iff.mp hcond) hstep
    exact ⟨L', h'⟩
  | pagefault p v phys what => exact allocateMem4Hardening_balanced h hen hcond hstep
  | freeRegion p raddr length =>
    rw [Accounted, hblocks] at hcond
    obtain ⟨L', h', _⟩ := freeRegionPmbs_frees h hen hcond hstep
    exact ⟨L', h'⟩
  | memconf p =>
    rw [Accounted, hblocks] at hcond
    obtain ⟨L', h', _⟩ := freePramMemBlocks_frees h hen hcond hstep
    exact ⟨L', h'⟩
  | fork parent child copied writes =>
    exact doFork_balanced h hen.1 hen.2 (fun hc => (hcond hc).1) (fun hc => (hcond hc).2) hstep
  | exec p pages =>
    rw [Accounted, hblocks] at hcond
    obtain ⟨L', h', _⟩ := freeProc_frees h hen hcond hstep
    exact ⟨L', h'⟩
  | exit p pages =>
    rw [Accounted, hblocks] at hcond
    exact doExit_balanced h hen hcond hstep
  | hardening on =>
    cases hstep
    exact ⟨L, ⟨h.lists.owned, h.lists.size⟩, h.proper, h.recorded, h.fresh⟩
  | hardeningP p on =>
    cases hstep
    exact ⟨L, h.setHard p on⟩

theorem Balanced.setMem (h : Balanced s L) (hmem : Fresh s mem) :
    Balanced { s with mem := mem } L :=
  ⟨⟨h.lists.owned, h.lists.size⟩, h.proper, h.recorded, hmem⟩

theorem reachable_balanced (h : Reachable Accounted s) : ∃ L, Balanced { s with mem := [] } L := by
  have hnil : ∀ s : State, Fresh s [] := fun s => ⟨nodup_nil, by simp⟩
  induction h with
  | boot hb => exact ⟨_, boot_balanced hb⟩
  | step _ hen hmem hcond hstep ih =>
    obtain ⟨L, hL⟩ := ih
    obtain ⟨L', h'⟩ := step_balanced (hL.setMem hmem) hen hcond hstep
    exact ⟨L', h'.setMem (hnil _)⟩

/-- **Ownership of the private frames.** In every run that meets the condition: every frame passed
to `free_mem` is one, and out to the process that frees it; a frame is out exactly if it stands in
one block of its process, once; and a process has freed each frame it no longer has. -/
theorem frames_owned_once (h : Reachable Accounted s) : ProperLedger s.ledger ∧
    (∀ f p, holder s.ledger f = some p ↔
      ∃ i ∈ blocksOf s p, ∃ r, (s.workingSet i).frame r = some f) ∧
    (∀ f p p' i i' r r', i ∈ blocksOf s p → (s.workingSet i).frame r = some f →
      i' ∈ blocksOf s p' → (s.workingSet i').frame r' = some f → p = p' ∧ i = i' ∧ r = r') ∧
    ∀ p f, s.ledger.count (.out p f) = s.ledger.count (.back p (some f)) +
      if holder s.ledger f = some p then 1 else 0 := by
  obtain ⟨L, hbal⟩ := reachable_balanced h
  have hblocks : ∀ p, blocksOf s p = L p := hbal.lists.blocksOf_eq
  refine ⟨hbal.proper, fun f p => ?_, fun f p p' i i' r r' hi hr hi' hr' => ?_,
    fun p f => hbal.proper.count p f⟩
  · rw [hblocks]
    exact hbal.recorded.held f p
  rw [hblocks] at hi hi'
  obtain ⟨rfl, rfl⟩ := hbal.recorded.once hi hr hi' hr'
  refine ⟨?_, rfl, rfl⟩
  by_contra hne
  exact hbal.lists.owned.disjoint hne i hi hi'

/-! ### Two runs -/

instance (s : State) : (op : Op) → Decidable (op.Enabled s)
  | .tellKernel p _ _ _ => inferInstanceAs (Decidable (Live s p))
  | .pagefault p _ _ _ => inferInstanceAs (Decidable (Live s p))
  | .freeRegion p _ _ => inferInstanceAs (Decidable (Live s p))
  | .memconf p => inferInstanceAs (Decidable (Live s p))
  | .fork parent child _ _ => inferInstanceAs (Decidable (Live s parent ∧ ¬ Live s child))
  | .exec p _ => inferInstanceAs (Decidable (Live s p))
  | .exit p _ => inferInstanceAs (Decidable (Live s p))
  | .hardening _ => inferInstanceAs (Decidable True)
  | .hardeningP p _ => inferInstanceAs (Decidable (Live s p))

instance (s : State) (mem : List Frame) : Decidable (Fresh s mem) :=
  inferInstanceAs (Decidable (mem.Nodup ∧ ∀ f ∈ mem, holder s.ledger f = none))

instance (s : State) (l : List (Fin workingSetSize)) (pages : List VirBytes) :
    Decidable (PairedAt s l pages) :=
  inferInstanceAs (Decidable (∀ i ∈ l, (∃ v ∈ pages, samePage (s.workingSet i).vaddr v = true) →
    (s.workingSet i).Paired))

instance (s : State) (p : ProcNr) (v : VirBytes) (phys : Frame) (what : Run) :
    Decidable (FaultOk s p v phys what) := by
  unfold FaultOk
  split <;> infer_instance

instance (s : State) : (op : Op) → Decidable (Accounted s op)
  | .tellKernel p v phys bytes => inferInstanceAs (Decidable (Room s p (pagesFrom v phys bytes)))
  | .pagefault p v phys what => inferInstanceAs (Decidable (FaultOk s p v phys what))
  | .freeRegion p raddr length =>
    inferInstanceAs (Decidable (PairedAt s (blocksOf s p) (pagesCovered raddr length)))
  | .memconf p => inferInstanceAs (Decidable (∀ i ∈ blocksOf s p, (s.workingSet i).Paired))
  | .fork parent _ copied writes => inferInstanceAs (Decidable (copied = true →
      (s.hardeningEnabled = true ∨ (s.vmproc parent).lus1Us2 = none) ∧
        ((s.vmproc parent).toHard = true → Room s parent (writtenPages writes))))
  | .exec p pages => inferInstanceAs (Decidable ((s.vmproc p).toHard = true →
      PairedAt s (blocksOf s p) (pages.flatMap (fun v => pagesCovered v 4096))))
  | .exit p _ => inferInstanceAs (Decidable (∀ i ∈ blocksOf s p, (s.workingSet i).Paired))
  | .hardening _ => inferInstanceAs (Decidable True)
  | .hardeningP _ _ => inferInstanceAs (Decidable True)

/-- A sequence of operations, each with what `alloc_mem` returns; `none` if one of them cannot
take place or does not meet `Cond`. -/
def runOps (Cond : State → Op → Prop) [∀ s op, Decidable (Cond s op)] :
    State → List (Op × List Frame) → Option State
  | s, [] => some s
  | s, (op, mem) :: ops =>
    if op.Enabled s ∧ Fresh s mem ∧ Cond s op then
      (step { s with mem := mem } op).bind (fun s' => runOps Cond s' ops)
    else none

theorem Reachable.runOps {Cond : State → Op → Prop} [∀ s op, Decidable (Cond s op)]
    {ops : List (Op × List Frame)} (hs : Reachable Cond s)
    (h : runOps Cond s ops = some s') : Reachable Cond s' := by
  induction ops generalizing s with
  | nil =>
    cases h
    exact hs
  | cons op ops ih =>
    unfold Vm.runOps at h
    split at h
    case isTrue hop =>
      obtain ⟨s₁, hstep, hrest⟩ := bind_eq_some_iff.mp h
      exact ih (.step hs hop.1 hop.2.1 hop.2.2 hstep) hrest
    case isFalse => cases h

def plainState : State where
  workingSet := pmbPool.initTable
  vmproc p := ⟨p == 20, p == 20, false, none, 0⟩
  hardeningEnabled := false
  mem := []
  ledger := []

theorem plainState_boot : Boot plainState := ⟨rfl, fun _ => rfl, fun _ => rfl, rfl⟩

/-- The page at 4096 is told to the kernel, with the frames 100 and 101. -/
def tellFirst : Op × List Frame := (.tellKernel 20 4096 7 4096, [100, 101])

/-- The two frames of a page belong to process 20, and each was given to it once. -/
theorem frames_owned_once_page : ∃ s, Reachable Accounted s ∧ holder s.ledger 100 = some 20 ∧
      (∃ i ∈ blocksOf s 20, ∃ r, (s.workingSet i).frame r = some 100) ∧
      s.ledger.count (.out 20 100) = s.ledger.count (.back 20 (some 100)) + 1 := by
  have hrun : (runOps Accounted plainState [tellFirst]).any (fun s =>
      decide (holder s.ledger 100 = some 20)) = true := by
    decide +kernel
  obtain ⟨s, hs, hs'⟩ := (Option.any_eq_true _ _).mp hrun
  have hout : holder s.ledger 100 = some 20 := of_decide_eq_true hs'
  have hreach := Reachable.runOps (.boot plainState_boot) hs
  obtain ⟨_, hheld, _, hcount⟩ := frames_owned_once hreach
  refine ⟨s, hreach, hout, (hheld 100 20).mp hout, ?_⟩
  rw [hcount 20 100, if_pos hout]

/-- A child of process 20, while the children of forks are not hardened, exits and frees the frames
of its parent. -/
theorem child_frees_frames_of_parent :
    ∃ s, Reachable (fun _ _ => True) s ∧ ¬ ProperLedger s.ledger ∧
      s.ledger = [.out 20 100, .out 20 101, .back 30 (some 100), .back 30 (some 101),
        .back 20 none, .back 20 none] := by
  have hrun : (runOps (fun _ _ => True) plainState
      [tellFirst, (.fork 20 30 true [], []), (.exit 30 [], []), (.exit 20 [], [])]).any (fun s =>
        decide (s.ledger = [.out 20 100, .out 20 101, .back 30 (some 100), .back 30 (some 101),
          .back 20 none, .back 20 none])) = true := by
    decide +kernel
  obtain ⟨s, hs, hs'⟩ := (Option.any_eq_true _ _).mp hrun
  have hledger := of_decide_eq_true hs'
  refine ⟨s, Reachable.runOps (.boot plainState_boot) hs, fun hproper => ?_, hledger⟩
  rw [hledger] at hproper
  obtain ⟨f, hf, _⟩ := hproper [.out 20 100, .out 20 101, .back 30 (some 100),
    .back 30 (some 101)] (.back 20 none) [.back 20 none] rfl
  cases hf

end HardenedMinix.Vm
