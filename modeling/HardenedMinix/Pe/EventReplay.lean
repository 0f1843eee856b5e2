import HardenedMinix.Pe.Phases

/-!
# Replaying the events

What `add_hme_event` registers between two elements, `handle_hme_events` replays at the start of
the next one, page by page.
-/

open Function

namespace HardenedMinix

open Lib Linked

variable {k k₁ k₂ : Kernel} {p : ProcNr} {i j : Fin workingSetSize}
  {A : ProcNr → List (Fin workingSetSize)}

/-! ## Ranges and their pages -/

/-- The `offset` and `size` of an event. -/
structure MemRange where
  offset : Nat
  size : Nat
  offset_lt : offset < 2 ^ 32
  size_lt : size < 2 ^ 32

namespace MemRange

variable (r : MemRange)

/-- A page intersects the range; addresses wrap. -/
def Meets (page : Nat) : Prop := ∃ a, r.offset ≤ a ∧ a < r.offset + r.size ∧ pageOf a = page

/-- The range, with what is before it in its first page, is longer than the address space. -/
def Overlong : Prop := 2 ^ 32 < r.offset % 4096 + r.size

/-- `add_hme_event` counts the page. -/
def Counts (page : Nat) : Prop :=
  ∃ n < nPagesCovered r.offset r.size, page = (pageOf r.offset + n) % 2 ^ 20

theorem counts_first : r.Counts (pageOf r.offset) := ⟨0, Nat.succ_pos _, by rw [pageOf_eq]; omega⟩

theorem counts_iff {page : Nat} (hpage : page < 2 ^ 20) :
    r.Counts page ↔ r.size = 0 ∧ r.offset % 4096 = 0 ∨ page = pageOf r.offset ∨
      ¬ r.Overlong ∧ r.Meets page := by
  have ho := r.offset_lt
  have hs := r.size_lt
  have hbase : r.offset - pageBase r.offset = r.offset % 4096 := by
    rw [pageBase, pageOf_eq]
    omega
  unfold Counts Meets Overlong nPagesCovered
  rw [hbase, pageOf_eq]
  constructor
  · rintro ⟨n, hn, rfl⟩
    by_cases hempty : r.size = 0 ∧ r.offset % 4096 = 0
    · exact .inl hempty
    by_cases hfirst : n = 0
    · exact .inr (.inl (by omega))
    by_cases hlong : 2 ^ 32 < r.offset % 4096 + r.size
    · omega
    · refine .inr (.inr ⟨hlong, (r.offset / 4096 + n) * 4096, by omega, by omega, ?_⟩)
      rw [pageOf_eq]
      omega
  rintro (⟨hzero, haligned⟩ | rfl | ⟨hlong, a, hle, hlt, rfl⟩)
  · exact ⟨(page + 2 ^ 20 - r.offset / 4096 % 2 ^ 20) % 2 ^ 20, by omega, by omega⟩
  · exact ⟨0, by omega, by omega⟩
  · refine ⟨a / 4096 - r.offset / 4096, by omega, ?_⟩
    rw [pageOf_eq]
    omega

end MemRange

theorem pageOf_nth (v : VirBytes) (n : Nat) :
    pageOf ((pageBase v + n * 4096) % 2 ^ 32) = (pageOf v + n) % 2 ^ 20 := by
  rw [pageOf_eq, pageBase]
  omega

theorem mem_eventPages {e : HardeningMemEvent} {page : Nat} :
    (∃ w ∈ eventPages e, pageOf w = page) ↔ ∃ n < e.npages, page = (pageOf e.addrBase + n) % 2 ^ 20 := by
  simp only [eventPages, List.mem_map, List.mem_range, exists_exists_and_eq_and]
  constructor
  · rintro ⟨n, hn, rfl⟩
    exact ⟨n, hn, pageOf_nth e.addrBase n⟩
  · rintro ⟨n, hn, rfl⟩
    exact ⟨n, hn, pageOf_nth e.addrBase n⟩

/-! ## Registering -/

/-- The page is among those of the events of `p`. -/
def Pending (k : Kernel) (p : ProcNr) (page : Nat) : Prop := ∃ w ∈ pendingPages k p, pageOf w = page

/-- `add_hme_event` has been called for each of the ranges; the table had a free slot for each
event it made. -/
inductive Registered (p : ProcNr) : Kernel → List MemRange → Kernel → Prop
  | nil (k : Kernel) : Registered p k [] k
  | cons {k k₁ k₂ : Kernel} {r : MemRange} {rs : List MemRange} :
      (lookUpHme k p r.offset = none → ∃ e, (k.hardeningMemEvents e).slotFree = true) →
      addHmeEvent k p r.offset r.size = some k₁ → Registered p k₁ rs k₂ → Registered p k (r :: rs) k₂

theorem pending_iff {M : ProcNr → List (Fin hardeningMemEventsSize)} (hm : HmeOk k M)
    (hp : (k.procs p).inUse = true) {page : Nat} :
    Pending k p page ↔ ∃ e ∈ M p, ∃ n < (k.hardeningMemEvents e).npages,
      page = (pageOf (k.hardeningMemEvents e).addrBase + n) % 2 ^ 20 := by
  unfold Pending pendingPages
  rw [(hm.chain hp).follow_eq]
  simp only [List.mem_flatMap, ← mem_eventPages]
  constructor
  · rintro ⟨w, ⟨e, he, hw⟩, hpage⟩
    exact ⟨e, he, w, hw, hpage⟩
  · rintro ⟨e, he, w, hw, hpage⟩
    exact ⟨w, ⟨e, he, hw⟩, hpage⟩

theorem HmeOk.unlisted_of_free {M : ProcNr → List (Fin hardeningMemEventsSize)} (hm : HmeOk k M)
    {e : Fin hardeningMemEventsSize} (he : (k.hardeningMemEvents e).slotFree = true) (q : ProcNr) :
    e ∉ M q := by
  intro hmem
  have hused : (k.hardeningMemEvents e).slotFree = false := hm.owned.used q e hmem
  rw [hused] at he
  exact absurd he (by simp)

/-- A range adds its pages to those of the events: an event is overwritten only by one that counts
more pages. -/
theorem addHmeEvent_pending (hm : HmeInv k) (hp : (k.procs p).inUse = true) {r : MemRange}
    (hroom : lookUpHme k p r.offset = none → ∃ e, (k.hardeningMemEvents e).slotFree = true)
    (hadd : addHmeEvent k p r.offset r.size = some k₁) :
    HmeInv k₁ ∧ ∀ page, Pending k₁ p page ↔ Pending k p page ∨ r.Counts page := by
  obtain ⟨M, hm⟩ := hm
  have hp1 : (k₁.procs p).inUse = true := by
    have hsame := (WsSame.of_eraseHmes (eraseHmes_addHmeEvent hadd)).inUse p
    rw [hsame]
    exact hp
  cases hl : lookUpHme k p r.offset with
  | none =>
    obtain ⟨e0, hfree⟩ := hroom hl
    obtain ⟨t, first, e, hnew, hm', hunlisted, hother, x, id, hentry⟩ :=
      addHmeEvent_new hm hp hl ⟨e0, hm.unlisted_of_free hfree⟩ r.size
    obtain rfl := Option.some.inj (hadd.symm.trans hnew)
    refine ⟨⟨_, hm'⟩, fun page => ?_⟩
    rw [pending_iff hm' hp1, pending_iff hm hp]
    -- the new event is the last of the list, and the others have changed their links only
    have hsame : ∀ d ∈ M p, (t d).addrBase = (k.hardeningMemEvents d).addrBase ∧
        (t d).npages = (k.hardeningMemEvents d).npages := by
      intro d hd
      obtain ⟨y, hy⟩ := hother d (fun heq => hunlisted p (heq ▸ hd))
      rw [hy]
      exact ⟨rfl, rfl⟩
    have htable : (k.setHmes t p first ((k.procs p).nbHardeningMemEvents + 1)).hardeningMemEvents =
        t := rfl
    simp only [htable, update_self, List.mem_append, List.mem_singleton]
    constructor
    · rintro ⟨d, hd | rfl, n, hn, hpage⟩
      · rw [(hsame d hd).2] at hn
        rw [(hsame d hd).1] at hpage
        exact .inl ⟨d, hd, n, hn, hpage⟩
      · rw [hentry] at hn hpage
        exact .inr ⟨n, hn, hpage⟩
    rintro (⟨d, hd, n, hn, hpage⟩ | ⟨n, hn, hpage⟩)
    · rw [← (hsame d hd).2] at hn
      rw [← (hsame d hd).1] at hpage
      exact ⟨d, .inl hd, n, hn, hpage⟩
    refine ⟨e, .inr rfl, n, ?_, ?_⟩
    · rw [hentry]
      exact hn
    · rw [hentry]
      exact hpage
  | some e =>
    obtain ⟨he, hpage0⟩ := lookUpHme_some hm hp hl
    obtain ⟨x, hfound, hcases⟩ := addHmeEvent_found r.size hl
    obtain rfl := Option.some.inj (hadd.symm.trans hfound)
    have hkeep : x.nextHme = (k.hardeningMemEvents e).nextHme ∧
        x.slotFree = (k.hardeningMemEvents e).slotFree ∧ pageOf x.addrBase = pageOf r.offset ∧
        x.npages = max (k.hardeningMemEvents e).npages (nPagesCovered r.offset r.size) := by
      rcases hcases with ⟨hle, rfl⟩ | ⟨hlt, rfl⟩
      · exact ⟨rfl, rfl, hpage0, (max_eq_left hle).symm⟩
      · exact ⟨rfl, rfl, rfl, (max_eq_right (Nat.le_of_lt hlt)).symm⟩
    obtain ⟨hnext, hfree, hbase, hmax⟩ := hkeep
    have hm' : HmeOk { k with hardeningMemEvents := update k.hardeningMemEvents e x } M :=
      ⟨hm.owned.update hnext hfree, hm.size⟩
    refine ⟨⟨M, hm'⟩, fun page => ?_⟩
    rw [pending_iff hm' hp1, pending_iff hm hp]
    dsimp only
    constructor
    · rintro ⟨d, hd, n, hn, hpage⟩
      by_cases hde : d = e
      · rw [hde, update_self] at hn hpage
        rw [hbase] at hpage
        rw [hmax, lt_max_iff] at hn
        rcases hn with hn | hn
        · exact .inl ⟨e, he, n, hn, by rw [hpage0]; exact hpage⟩
        · exact .inr ⟨n, hn, hpage⟩
      · rw [update_of_ne hde] at hn hpage
        exact .inl ⟨d, hd, n, hn, hpage⟩
    rintro (⟨d, hd, n, hn, hpage⟩ | ⟨n, hn, hpage⟩)
    · by_cases hde : d = e
      · rw [hde] at hn hpage
        refine ⟨e, he, n, ?_, ?_⟩
        · rw [update_self, hmax]
          exact lt_max_of_lt_left hn
        · rw [update_self, hbase, ← hpage0]
          exact hpage
      · exact ⟨d, hd, n, by rwa [update_of_ne hde], by rwa [update_of_ne hde]⟩
    refine ⟨e, he, n, ?_, ?_⟩
    · rw [update_self, hmax]
      exact lt_max_of_lt_right hn
    · rw [update_self, hbase]
      exact hpage

theorem registered_kept {rs : List MemRange} (h : Registered p k rs k₁) :
    eraseHmes k₁ = eraseHmes k := by
  induction h with
  | nil k => rfl
  | cons _ hadd _ ih => exact ih.trans (eraseHmes_addHmeEvent hadd)

theorem registered_pending {rs : List MemRange} (h : Registered p k rs k₁) (hm : HmeInv k)
    (hp : (k.procs p).inUse = true) :
    HmeInv k₁ ∧ ∀ page, Pending k₁ p page ↔ Pending k p page ∨ ∃ r ∈ rs, r.Counts page := by
  induction h with
  | nil k => exact ⟨hm, fun page => by simp⟩
  | @cons k k₁ k₂ r rs hroom hadd _ ih =>
    obtain ⟨hm1, hpending1⟩ := addHmeEvent_pending hm hp hroom hadd
    have hp1 : (k₁.procs p).inUse = true := by
      rw [(WsSame.of_eraseHmes (eraseHmes_addHmeEvent hadd)).inUse p]
      exact hp
    obtain ⟨hm2, hpending2⟩ := ih hm1 hp1
    refine ⟨hm2, fun page => ?_⟩
    rw [hpending2, hpending1, or_assoc, List.exists_mem_cons_iff]

/-- In every reachable state the event lists are well formed. An event is added to one if there is
room, and ranges that are registered add their pages and change nothing else. -/
theorem reachable_events (h : Reachable LifeGood k) : HmeInv k ∧
    ∀ p, (k.procs p).inUse = true → (∀ v size, eventsWith k p v ≤ hardeningMemEventsSize →
        (addHmeEvent k p v size).isSome) ∧
      ∀ rs k₁, Registered p k rs k₁ → HmeInv k₁ ∧ eraseHmes k₁ = eraseHmes k ∧
        ∀ page, Pending k₁ p page ↔ Pending k p page ∨ ∃ r ∈ rs, r.Counts page := by
  have hm := (reachable_lists h).2
  refine ⟨hm, fun p hp => ⟨fun v size hroom => ?_, fun rs k₁ hreg => ?_⟩⟩
  · obtain ⟨k₁, hadd, -⟩ := addHmeEvent_spec hm hp hroom size
    exact Option.isSome_of_mem hadd
  · obtain ⟨hm₁, hpending⟩ := registered_pending hreg hm hp
    exact ⟨hm₁, registered_kept hreg, hpending⟩

theorem reachable_events_block : ∃ k₁, HmeInv k₁ ∧ Pending k₁ 15 1 := by
  obtain ⟨k₁, hadd⟩ : ∃ k₁, addHmeEvent blockKernel 15 4096 1 = some k₁ := ⟨_, rfl⟩
  obtain ⟨hm, -, hpending⟩ := ((reachable_events blockKernel_reachable).2 15 rfl).2
    [⟨4096, 1, by decide, by decide⟩] k₁ (.cons (fun _ => ⟨0, rfl⟩) hadd (.nil _))
  exact ⟨k₁, hm, (hpending 1).mpr (.inr ⟨_, .head _, 0, by decide, rfl⟩)⟩

/-! ## Visiting the pages -/

/-- The private frames of a block hold what `us0` holds, if it has all three. -/
def InStep (k : Kernel) (i : Fin workingSetSize) : Prop :=
  ∀ us0 us1 us2, (k.workingSet i).us0 = some us0 → (k.workingSet i).us1 = some us1 →
    (k.workingSet i).us2 = some us2 → k.mem us1 = k.mem us0 ∧ k.mem us2 = k.mem us0

def privateFrames (b : PramMemBlock) : List Frame := b.us1.toList ++ b.us2.toList

/-- VM makes a private frame for one block, and never hands it out as an ordinary frame. -/
structure FramesApart (k : Kernel) (l : List (Fin workingSetSize)) : Prop where
  us0 : ∀ i ∈ l, ∀ j ∈ l, ∀ f, (k.workingSet j).us0 = some f → f ∉ privateFrames (k.workingSet i)
  others : ∀ i ∈ l, ∀ j ∈ l, i ≠ j →
    ∀ f ∈ privateFrames (k.workingSet i), f ∉ privateFrames (k.workingSet j)

/-- What the replay has done when it has visited some pages of the working set `l`. -/
structure Visited (k : Kernel) (l : List (Fin workingSetSize)) (seen : Nat → Prop) (k₁ : Kernel) :
    Prop where
  same : WsSame k k₁
  events : hmeView k₁ = hmeView k
  blocks : ∀ i, ∃ b, k₁.workingSet i =
    { k.workingSet i with flags := { (k.workingSet i).flags with iwsModKernel := b } }
  us0 : ∀ i ∈ l, ∀ f, (k.workingSet i).us0 = some f → k₁.mem f = k.mem f
  inStep : ∀ i ∈ l, InStep k₁ i ↔ InStep k i ∨
    seen (pageOf (k.workingSet i).vaddr) ∧ (k.workingSet i).flags.hExec = false

namespace Visited

variable {l : List (Fin workingSetSize)} {seen seen' : Nat → Prop}

theorem start (k : Kernel) (l : List (Fin workingSetSize)) : Visited k l (fun _ => False) k where
  same := WsSame.refl k
  events := rfl
  blocks i := ⟨(k.workingSet i).flags.iwsModKernel, rfl⟩
  us0 _ _ _ _ := rfl
  inStep _ _ := by simp

theorem congr (h : Visited k l seen k₁) (hseen : ∀ page, seen page ↔ seen' page) :
    Visited k l seen' k₁ := by
  have heq : seen = seen' := funext fun page => propext (hseen page)
  exact heq ▸ h

theorem pages (h : Visited k l seen k₁) (i : Fin workingSetSize) :
    (k₁.workingSet i).vaddr = (k.workingSet i).vaddr := h.same.vaddr i

theorem trans (h : Visited k l seen k₁) (h' : Visited k₁ l seen' k₂) :
    Visited k l (fun page => seen page ∨ seen' page) k₂ where
  same := h.same.trans h'.same
  events := h'.events.trans h.events
  blocks i := by
    obtain ⟨b, hb⟩ := h.blocks i
    obtain ⟨b', hb'⟩ := h'.blocks i
    exact ⟨b', by rw [hb', hb]⟩
  us0 i hi f hf := by
    obtain ⟨b, hb⟩ := h.blocks i
    rw [h'.us0 i hi f (by rw [hb]; exact hf), h.us0 i hi f hf]
  inStep i hi := by
    obtain ⟨b, hb⟩ := h.blocks i
    rw [h'.inStep i hi, h.inStep i hi, h.pages i, hb]
    tauto

end Visited

variable {l : List (Fin workingSetSize)}

theorem FramesApart.of_visited {seen : Nat → Prop}
    (hf : FramesApart k l) (h : Visited k l seen k₁) : FramesApart k₁ l := by
  have hframes : ∀ i, (k₁.workingSet i).us0 = (k.workingSet i).us0 ∧
      privateFrames (k₁.workingSet i) = privateFrames (k.workingSet i) := by
    intro i
    obtain ⟨b, hb⟩ := h.blocks i
    rw [hb]
    exact ⟨rfl, rfl⟩
  constructor
  · intro i hi j hj f
    rw [(hframes i).2, (hframes j).1]
    exact hf.us0 i hi j hj f
  · intro i hi j hj hne
    rw [(hframes i).2, (hframes j).2]
    exact hf.others i hi j hj hne

theorem inStep_of_ne (hf : FramesApart k l) (hi : i ∈ l) (hj : j ∈ l)
    (hne : j ≠ i) {m : Frame → PageData}
    (hm : ∀ f, f ∉ privateFrames (k.workingSet i) → m f = k.mem f) {b : PramMemBlock} :
    InStep { k.setPmb i b with mem := m } j ↔ InStep k j := by
  have hblock : ({ k.setPmb i b with mem := m } : Kernel).workingSet j = k.workingSet j := by
    simp [Kernel.setPmb, hne]
  unfold InStep
  rw [hblock]
  have hkeep : ∀ us0 us1 us2, (k.workingSet j).us0 = some us0 → (k.workingSet j).us1 = some us1 →
      (k.workingSet j).us2 = some us2 →
      m us0 = k.mem us0 ∧ m us1 = k.mem us1 ∧ m us2 = k.mem us2 := by
    intro us0 us1 us2 h0 h1 h2
    refine ⟨hm us0 (hf.us0 i hi j hj us0 h0), hm us1 ?_, hm us2 ?_⟩
    · exact hf.others j hj i hi hne us1 (by simp [privateFrames, h1])
    · exact hf.others j hj i hi hne us2 (by simp [privateFrames, h2])
  constructor
  · intro h us0 us1 us2 h0 h1 h2
    obtain ⟨e0, e1, e2⟩ := hkeep us0 us1 us2 h0 h1 h2
    have hstep := h us0 us1 us2 h0 h1 h2
    dsimp only at hstep
    rwa [e0, e1, e2] at hstep
  intro h us0 us1 us2 h0 h1 h2
  obtain ⟨e0, e1, e2⟩ := hkeep us0 us1 us2 h0 h1 h2
  dsimp only
  rw [e0, e1, e2]
  exact h us0 us1 us2 h0 h1 h2

theorem updateWsUs1Us2DataVaddr_visited (hw : WsOk k A) (hp : (k.procs p).inUse = true)
    (hf : FramesApart k (A p)) (hi : i ∈ A p) {v : VirBytes}
    (hv : pageOf (k.workingSet i).vaddr = pageOf v) :
    ∃ k₁, updateWsUs1Us2DataVaddr p k v = some k₁ ∧ Visited k (A p) (fun page => page = pageOf v) k₁ := by
  have hother : ∀ j ∈ A p, j ≠ i → pageOf (k.workingSet j).vaddr ≠ pageOf v := by
    intro j hj hne heq
    exact hne (hw.eq_of_page hj hi (heq.trans hv.symm))
  -- a visit that leaves everything as it is, to a block that is in step or is skipped
  have hquiet : InStep k i ∨ (k.workingSet i).flags.hExec = true →
      Visited k (A p) (fun page => page = pageOf v) k := by
    intro hskip
    refine ⟨WsSame.refl k, rfl, (Visited.start k (A p)).blocks, fun _ _ _ _ => rfl, ?_⟩
    intro j hj
    by_cases hne : j = i
    · rw [hne]
      rcases hskip with hin | hexec
      · simp [hin]
      · simp [hexec]
    · simp [hother j hj hne]
  unfold updateWsUs1Us2DataVaddr
  rw [lookUpPte_of_mem hw hp hi hv]
  dsimp only
  split
  · rename_i hexec
    exact ⟨k, rfl, hquiet (.inr hexec)⟩
  rename_i hexec
  split
  · rename_i us0 us1 us2 h0 h1 h2
    have hne1 : us0 ≠ us1 := fun heq =>
      hf.us0 i hi i hi us0 h0 (by simp [privateFrames, h1, heq])
    have hne2 : us0 ≠ us2 := fun heq =>
      hf.us0 i hi i hi us0 h0 (by simp [privateFrames, h2, heq])
    have hmem : ∀ f, f ∉ privateFrames (k.workingSet i) →
        ((k.cpyFrames us0 us1).cpyFrames us0 us2).mem f = k.mem f := by
      intro f hnot
      have hnot1 : f ≠ us1 := fun heq => hnot (by simp [privateFrames, h1, heq])
      have hnot2 : f ≠ us2 := fun heq => hnot (by simp [privateFrames, h2, heq])
      simp [Kernel.cpyFrames, hnot1, hnot2]
    refine ⟨_, rfl, ?_, rfl, ?_, ?_, ?_⟩
    · exact (WsSame.cpyFrames k us0 us1).trans ((WsSame.cpyFrames _ us0 us2).trans
        (WsSame.setPmb _ i rfl rfl rfl (fun h => h)))
    · intro j
      by_cases hne : j = i
      · rw [hne]
        exact ⟨true, by simp [Kernel.setPmb, Kernel.cpyFrames]⟩
      · exact ⟨(k.workingSet j).flags.iwsModKernel, by simp [Kernel.setPmb, Kernel.cpyFrames, hne]⟩
    · intro j hj f hjf
      exact hmem f (hf.us0 i hi j hj f hjf)
    intro j hj
    by_cases hne : j = i
    · rw [hne]
      have hin : InStep (((k.cpyFrames us0 us1).cpyFrames us0 us2).setPmb i
          { k.workingSet i with
            flags := { (k.workingSet i).flags with iwsModKernel := true } }) i := by
        intro f0 f1 f2 g0 g1 g2
        simp only [Kernel.setPmb, update_self] at g0 g1 g2
        obtain rfl := Option.some.inj (h0.symm.trans g0)
        obtain rfl := Option.some.inj (h1.symm.trans g1)
        obtain rfl := Option.some.inj (h2.symm.trans g2)
        simp [Kernel.setPmb, Kernel.cpyFrames, hne1, hne2, update_apply]
      simp only [hv, hin, true_iff]
      exact .inr ⟨trivial, by simpa using hexec⟩
    · have hrest := inStep_of_ne hf hi hj hne hmem (b := { k.workingSet i with
        flags := { (k.workingSet i).flags with iwsModKernel := true } })
      simp only [hother j hj hne, false_and, or_false]
      exact hrest
  · rename_i hmissing
    refine ⟨k, rfl, hquiet (.inl ?_)⟩
    intro us0 us1 us2 h0 h1 h2
    exact (hmissing us0 us1 us2 h0 h1 h2).elim

theorem updateWsUs1Us2DataVaddr_outside (hw : WsOk k A) (hp : (k.procs p).inUse = true)
    {v : VirBytes} (hv : Outside k (A p) v) : updateWsUs1Us2DataVaddr p k v = none := by
  have hnone : lookUpPte k p v = none := by
    cases hl : lookUpPte k p v with
    | none => rfl
    | some i =>
      obtain ⟨hi, hpage⟩ := lookUpPte_some hw hp hl
      exact absurd hpage (hv i hi)
  simp [updateWsUs1Us2DataVaddr, hnone]

theorem Visited.outside_iff {seen : Nat → Prop}
    (h : Visited k l seen k₁) (v : VirBytes) : Outside k₁ l v ↔ Outside k l v := by
  simp only [Outside, h.pages]

theorem foldlM_visited (pages : List VirBytes) (hw : WsOk k A) (hp : (k.procs p).inUse = true)
    (hf : FramesApart k (A p)) :
    ((∀ w ∈ pages, ¬ Outside k (A p) w) ∧
      ∃ k₁, pages.foldlM (updateWsUs1Us2DataVaddr p) k = some k₁ ∧
        Visited k (A p) (fun page => ∃ w ∈ pages, pageOf w = page) k₁) ∨
      (∃ w ∈ pages, Outside k (A p) w) ∧ pages.foldlM (updateWsUs1Us2DataVaddr p) k = none := by
  induction pages generalizing k with
  | nil =>
    refine .inl ⟨by simp, k, rfl, (Visited.start k (A p)).congr fun page => ?_⟩
    simp
  | cons w pages ih =>
    by_cases hout : Outside k (A p) w
    · refine .inr ⟨⟨w, List.mem_cons_self, hout⟩, ?_⟩
      rw [List.foldlM_cons, updateWsUs1Us2DataVaddr_outside hw hp hout]
      rfl
    have hin := hout
    unfold Outside at hin
    push Not at hin
    obtain ⟨i, hi, hpage⟩ := hin
    obtain ⟨k₁, hrun, hvisit⟩ := updateWsUs1Us2DataVaddr_visited hw hp hf hi hpage
    have hp1 : (k₁.procs p).inUse = true := by
      rw [hvisit.same.inUse p]
      exact hp
    rcases ih (hvisit.same.wsOk hw) hp1 (hf.of_visited hvisit) with
      ⟨hall, k₂, hrest, hvisits⟩ | ⟨⟨u, hu, hout1⟩, hrest⟩
    · left
      constructor
      · intro u hu
        rcases List.mem_cons.mp hu with rfl | hu
        · exact hout
        · rw [← hvisit.outside_iff]
          exact hall u hu
      · refine ⟨k₂, ?_, (hvisit.trans hvisits).congr fun page => ?_⟩
        · rw [List.foldlM_cons, hrun]
          exact hrest
        · rw [List.exists_mem_cons_iff, eq_comm]
    right
    constructor
    · rw [hvisit.outside_iff] at hout1
      exact ⟨u, List.mem_cons_of_mem w hu, hout1⟩
    · rw [List.foldlM_cons, hrun]
      exact hrest

/-! ## The replay -/

theorem whileNext_events {M : ProcNr → List (Fin hardeningMemEventsSize)} (hm : HmeOk k M)
    (rest pre : List (Fin hardeningMemEventsSize)) (hM : M p = pre ++ rest) {fuel : Nat}
    (hfuel : rest.length ≤ fuel) (hview : hmeView k₁ = hmeView k) :
    whileNext Kernel.nextHme (fun k e => updateRangeWsUs1Us2Data k p
        (k.hardeningMemEvents e).addrBase (k.hardeningMemEvents e).npages) fuel k₁ rest.head? =
      (rest.flatMap fun e => eventPages (k.hardeningMemEvents e)).foldlM
        (updateWsUs1Us2DataVaddr p) k₁ := by
  induction rest generalizing pre fuel k₁ with
  | nil => cases fuel <;> rfl
  | cons e rest ih =>
    cases fuel with
    | zero => simp at hfuel
    | succ fuel =>
      have htable : k₁.hardeningMemEvents = k.hardeningMemEvents := (Prod.mk.inj hview).1
      rw [List.flatMap_cons, List.foldlM_append]
      simp only [List.head?_cons, whileNext, htable]
      have hrange : updateRangeWsUs1Us2Data k₁ p (k.hardeningMemEvents e).addrBase
          (k.hardeningMemEvents e).npages =
          (eventPages (k.hardeningMemEvents e)).foldlM (updateWsUs1Us2DataVaddr p) k₁ := rfl
      rw [hrange]
      cases hrun : (eventPages (k.hardeningMemEvents e)).foldlM (updateWsUs1Us2DataVaddr p) k₁ with
      | none => rfl
      | some k₂ =>
        have hview2 : hmeView k₂ = hmeView k := (hmeView_updateRange hrun).trans hview
        have hnext : k₂.nextHme e = rest.head? := (hm.of_view hview2).owned.next_eq (o := p) pre hM
        have hsuffix : M p = (pre ++ [e]) ++ rest := by
          rw [hM]
          simp
        simp only [hnext]
        exact ih (pre ++ [e]) hsuffix (Nat.le_of_succ_le_succ hfuel) hview2

theorem handleHmeEvents_eq_foldlM (hm : HmeInv k) (hp : (k.procs p).inUse = true) :
    handleHmeEvents k p = (pendingPages k p).foldlM (updateWsUs1Us2DataVaddr p) k := by
  obtain ⟨M, hm⟩ := hm
  have hpages : pendingPages k p = (M p).flatMap (fun e => eventPages (k.hardeningMemEvents e)) := by
    unfold pendingPages
    rw [(hm.chain hp).follow_eq]
  unfold handleHmeEvents
  split
  · have hnil : M p = [] := List.length_eq_zero_iff.mp (by rw [← hm.size p hp]; omega)
    rw [hpages, hnil]
    rfl
  · rw [(hm.chain hp).start_eq_head?, hpages]
    exact whileNext_events hm (M p) [] rfl (hm.chain hp).length_le rfl

/-- The replay ends, and every block whose page intersects one of the ranges is in step. -/
def Replayed (k : Kernel) (p : ProcNr) (l : List (Fin workingSetSize)) (rs : List MemRange) : Prop :=
  ∃ k₁, handleHmeEvents k p = some k₁ ∧
    ∀ i ∈ l, (∃ r ∈ rs, r.Meets (pageOf (k.workingSet i).vaddr)) → InStep k₁ i

/-- The ranges that can be replayed: no empty range begins at the start of a page, the first page of
every range and, unless it is overlong, all its other pages are in the working set, and a block that
is not in step and that some range intersects is not skipped, and is in such a range or in the first
page of one. -/
structure Replayable (k : Kernel) (l : List (Fin workingSetSize)) (rs : List MemRange) : Prop where
  nonempty : ∀ r ∈ rs, r.size = 0 → r.offset % 4096 ≠ 0
  first : ∀ r ∈ rs, ¬ Outside k l r.offset
  inside : ∀ r ∈ rs, ¬ r.Overlong → ∀ v, r.Meets (pageOf v) → ¬ Outside k l v
  visited : ∀ i ∈ l, (∃ r ∈ rs, r.Meets (pageOf (k.workingSet i).vaddr)) → InStep k i ∨
    (k.workingSet i).flags.hExec = false ∧ ∃ r ∈ rs,
      pageOf (k.workingSet i).vaddr = pageOf r.offset ∨
        ¬ r.Overlong ∧ r.Meets (pageOf (k.workingSet i).vaddr)

theorem exists_outside (hl : l.length ≤ workingSetSize) : ∃ v, Outside k l v := by
  by_contra hall
  simp only [Outside, not_exists, not_forall, not_not] at hall
  have hsub : List.range (2 ^ 20) ⊆ l.map fun i => pageOf (k.workingSet i).vaddr := by
    intro n hn
    obtain ⟨i, hi, hpage⟩ := hall (n * 4096)
    refine List.mem_map.mpr ⟨i, hi, ?_⟩
    rw [hpage, pageOf_eq]
    have := List.mem_range.mp hn
    omega
  have hlen := (List.subperm_of_subset List.nodup_range hsub).length_le
  rw [List.length_range, List.length_map] at hlen
  have hsize : workingSetSize = 32768 := rfl
  omega

theorem counted_inside_iff (hl : l.length ≤ workingSetSize) (r : MemRange) :
    (∀ v, r.Counts (pageOf v) → ¬ Outside k l v) ↔
      (r.size = 0 → r.offset % 4096 ≠ 0) ∧ ¬ Outside k l r.offset ∧
        (¬ r.Overlong → ∀ v, r.Meets (pageOf v) → ¬ Outside k l v) := by
  have hlt : ∀ v, pageOf v < 2 ^ 20 := fun v => by
    rw [pageOf_eq]
    omega
  constructor
  · intro hall
    refine ⟨fun hzero haligned => ?_, hall _ r.counts_first, fun hlong v hmeets => ?_⟩
    · obtain ⟨v, hout⟩ := exists_outside (k := k) hl
      exact hall v ((r.counts_iff (hlt v)).mpr (.inl ⟨hzero, haligned⟩)) hout
    · exact hall v ((r.counts_iff (hlt v)).mpr (.inr (.inr ⟨hlong, hmeets⟩)))
  rintro ⟨hnonempty, hfirst, hinside⟩ v hcounts
  rcases (r.counts_iff (hlt v)).mp hcounts with ⟨hzero, haligned⟩ | hpage | ⟨hlong, hmeets⟩
  · exact absurd haligned (hnonempty hzero)
  · unfold Outside at hfirst ⊢
    rw [hpage]
    exact hfirst
  · exact hinside hlong v hmeets

/-- The ranges that have been registered with a process are replayed exactly if they are
replayable. -/
theorem replayed_iff_replayable {l : List (Fin workingSetSize)} {rs : List MemRange}
    (hw : ∃ A, WsOk k A ∧ A p = l) (hm : HmeInv k) (hp : (k.procs p).inUse = true)
    (hf : FramesApart k l) (hnone : (k.procs p).hardeningMemEvents = none)
    (hreg : Registered p k rs k₁) : Replayed k₁ p l rs ↔ Replayable k l rs := by
  obtain ⟨A, hw, rfl⟩ := hw
  have herase := registered_kept hreg
  have hsame := WsSame.of_eraseHmes herase
  have hblocks : k₁.workingSet = k.workingSet := by
    have := congrArg Kernel.workingSet herase
    exact this
  have hmem : k₁.mem = k.mem := by
    have := congrArg Kernel.mem herase
    exact this
  have hp1 : (k₁.procs p).inUse = true := by
    rw [hsame.inUse p]
    exact hp
  have hf1 : FramesApart k₁ (A p) := by
    constructor
    · rw [hblocks]
      exact hf.us0
    · rw [hblocks]
      exact hf.others
  have houtside : ∀ v, Outside k₁ (A p) v ↔ Outside k (A p) v := by
    intro v
    simp only [Outside, hblocks]
  have hinStep : ∀ i, InStep k₁ i ↔ InStep k i := by
    intro i
    simp only [InStep, hblocks, hmem]
  obtain ⟨hm1, hpending⟩ := registered_pending hreg hm hp
  have hcounted : ∀ page, Pending k₁ p page ↔ ∃ r ∈ rs, r.Counts page := by
    intro page
    have hempty : ¬ Pending k p page := by
      simp [Pending, pendingPages, hnone, hardeningMemEventsSize, follow]
    rw [hpending page, or_iff_right hempty]
  -- the replay returns exactly if all pages that are counted are in the working set
  have hpages : (∀ w ∈ pendingPages k₁ p, ¬ Outside k₁ (A p) w) ↔
      ∀ r ∈ rs, ∀ v, r.Counts (pageOf v) → ¬ Outside k (A p) v := by
    constructor
    · intro hall r hr v hcounts
      obtain ⟨w, hw', hpage⟩ := (hcounted (pageOf v)).mpr ⟨r, hr, hcounts⟩
      have hin := hall w hw'
      rw [houtside] at hin
      unfold Outside at hin ⊢
      rw [← hpage]
      exact hin
    · intro hall w hw'
      rw [houtside]
      obtain ⟨r, hr, hcounts⟩ := (hcounted (pageOf w)).mp ⟨w, hw', rfl⟩
      exact hall r hr w hcounts
  have hlen : (A p).length ≤ workingSetSize := (hw.chain hp).length_le
  simp only [counted_inside_iff hlen] at hpages
  unfold Replayed
  rw [handleHmeEvents_eq_foldlM hm1 hp1]
  rcases foldlM_visited (pendingPages k₁ p) (hsame.wsOk hw) hp1 hf1 with
    ⟨hall, k₂, hrun, hvisits⟩ | ⟨⟨w, hw', hout⟩, hrun⟩
  · have hready := hpages.mp hall
    have hblock : ∀ i ∈ A p, InStep k₂ i ↔ InStep k i ∨
        (∃ r ∈ rs, r.Counts (pageOf (k.workingSet i).vaddr)) ∧
          (k.workingSet i).flags.hExec = false := by
      intro i hi
      rw [hvisits.inStep i hi, hinStep, hblocks]
      exact or_congr_right (and_congr_left fun _ => hcounted _)
    have hlt : ∀ v, pageOf v < 2 ^ 20 := fun v => by
      rw [pageOf_eq]
      omega
    constructor
    · rintro ⟨k3, hrun3, hstep⟩
      obtain rfl := Option.some.inj (hrun.symm.trans hrun3)
      refine ⟨fun r hr => (hready r hr).1, fun r hr => (hready r hr).2.1,
        fun r hr => (hready r hr).2.2, fun i hi hmeets => ?_⟩
      rw [← hblocks] at hmeets
      rcases (hblock i hi).mp (hstep i hi hmeets) with hin | ⟨⟨r, hr, hcounts⟩, hexec⟩
      · exact .inl hin
      · refine .inr ⟨hexec, r, hr, ?_⟩
        rcases (r.counts_iff (hlt _)).mp hcounts with ⟨hzero, haligned⟩ | hrest
        · exact absurd haligned ((hready r hr).1 hzero)
        · exact hrest
    intro hrep
    refine ⟨k₂, hrun, fun i hi hmeets => ?_⟩
    rw [hblocks] at hmeets
    rw [hblock i hi]
    rcases hrep.visited i hi hmeets with hin | ⟨hexec, r, hr, hpage⟩
    · exact .inl hin
    · exact .inr ⟨⟨r, hr, (r.counts_iff (hlt _)).mpr (.inr hpage)⟩, hexec⟩
  · constructor
    · rintro ⟨k3, hrun3, -⟩
      rw [hrun] at hrun3
      cases hrun3
    · intro hrep
      refine absurd hout (hpages.mpr (fun r hr => ?_) w hw')
      exact ⟨hrep.nonempty r hr, hrep.first r hr, hrep.inside r hr⟩

/-- A range of 8 bytes in the page of `blockKernel`. -/
def insideRange : MemRange := ⟨4096, 8, by decide, by decide⟩

/-- One byte in a page that is not in the working set. -/
def outsideRange : MemRange := ⟨8192, 1, by decide, by decide⟩

theorem replayed_block : ∃ k₁, Registered 15 blockKernel [insideRange] k₁ ∧
    Replayed k₁ 15 [0] [insideRange] := by
  have hready := blockKernel_ready
  have hframes : FramesApart blockKernel [0] := by
    constructor
    · intro i hi j hj f hf
      obtain rfl := List.mem_singleton.mp hi
      obtain rfl := List.mem_singleton.mp hj
      obtain rfl : 5 = f := Option.some.inj hf
      decide
    · intro i hi j hj hne
      exact absurd ((List.mem_singleton.mp hi).trans (List.mem_singleton.mp hj).symm) hne
  have hreg : Registered 15 blockKernel [insideRange]
      ((addHmeEvent blockKernel 15 4096 8).getD blockKernel) :=
    .cons (fun _ => ⟨0, rfl⟩) rfl (.nil _)
  refine ⟨_, hreg, (replayed_iff_replayable hready.inv.lists hready.events hready.inv.inUse hframes
    rfl hreg).mpr ?_⟩
  have hvaddr : pageOf (blockKernel.workingSet 0).vaddr = 1 := rfl
  constructor
  · intro r hr hzero
    obtain rfl := List.mem_singleton.mp hr
    exact absurd hzero (by decide)
  · intro r hr hout
    obtain rfl := List.mem_singleton.mp hr
    exact hout 0 List.mem_cons_self rfl
  · rintro r hr - v ⟨a, hle, hlt, hpage⟩ hout
    obtain rfl := List.mem_singleton.mp hr
    refine hout 0 List.mem_cons_self ?_
    rw [hvaddr, ← hpage, pageOf_eq]
    simp only [insideRange] at hle hlt
    omega
  · intro i hi _
    obtain rfl := List.mem_singleton.mp hi
    exact .inr ⟨rfl, insideRange, List.mem_cons_self, .inl rfl⟩

/-- The kernel writes one byte to a page outside the working set, and the replay follows a null
pointer. -/
theorem replay_reads_null : ∃ k₁, Registered 15 blockKernel [outsideRange] k₁ ∧
    handleHmeEvents k₁ 15 = none ∧ ¬ Replayed k₁ 15 [0] [outsideRange] := by
  have hnone : handleHmeEvents ((addHmeEvent blockKernel 15 8192 1).getD blockKernel) 15 = none := by
    rfl
  refine ⟨(addHmeEvent blockKernel 15 8192 1).getD blockKernel,
    .cons (fun _ => ⟨0, rfl⟩) rfl (.nil _), hnone, ?_⟩
  rintro ⟨k₂, hrun, -⟩
  rw [hnone] at hrun
  cases hrun

end HardenedMinix
