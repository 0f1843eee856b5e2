import HardenedMinix.Vm.OwnershipLives

/-!
# Yielded blocks and the owners of frames

A yield exchanges frames of pages for new ones and gives the old ones to a node of the cache; a
get lends the frames of a node to the pages.
-/

open Function List Option

namespace HardenedMinix.Region

open Lib

variable {g g' : Ghost} {s s' s₁ s₂ : State} {p q : ProcNr} {x y : Slot} {b c : PbPtr}
  {f k : Frame} {pb : PhysBlock} {pr : PhysRegion} {r r' src : VirRegion} {v w : Page} {e : Status}
  {offset n : Nat} {M : Frame → Prop} {kind : Slot → Option MemType}

theorem borrow_quiet (hk : Kept g s) (hb : s.blocks b = some pb) (hf : pb.phys = some f)
    (hbor : ¬ g.borrowed b) (hnd : ¬ Direct g.kind pb.regions) (hhand : ∀ j, ¬ g.hand j)
    (k : Frame) :
    Quiet s { g with borrowed := fun c => g.borrowed c ∨ c = b }
      ((freeMem s f 1).setBlock b (some { pb with phys := some k })) := by
  have hheld : Holds g s (.block b) f := ⟨hbor, pb, hb, hf, hnd⟩
  have hq := setPhys_quiet (f := k) (fun j => g.hand j ∨ j = f)
    (fun c => g.borrowed c ∨ c = b) hk hb (fun c hc => hc.symm) (by
      apply hk.frames.lift (o := .block b) (S := fun j => j = f)
      · rintro j rfl
        exact hheld
      · exact fun j => Iff.rfl
      intro o j
      by_cases ho : o = .block b
      · subst ho
        refine holds_setPhys.trans ?_
        simp only [or_true, not_true_eq_false, false_and, true_and, false_iff, not_and, not_not]
        rintro ⟨_, pb', hpb', hj, _⟩
        rw [hb, some.injEq] at hpb'
        subst hpb'
        exact some.inj (hj.symm.trans hf)
      refine (holds_setBlock ho _).trans ?_
      simp only [ho, false_and, not_false_eq_true, and_true]
      cases o with
      | block c =>
        have hc : c ≠ b := fun hc => ho (hc ▸ rfl)
        simp [Holds, hc]
      | _ => exact Iff.rfl)
  have hfree := freeMem_quiet f 1 hq.kept
    (fun j hj => .inr (by lia))
  refine (hq.trans hfree).settled ?_
  have hkept := hfree.kept.settle g.bare fun c pc hc hnone =>
    (hfree.kept.bare hc hnone).1.1
  have hgh : ({ ({ g with
      hand := fun j => g.hand j ∨ j = f
      borrowed := fun c => g.borrowed c ∨ c = b
      bare := fun c => g.bare c ∧ c ≠ b } : Ghost).drop f 1 with bare := g.bare } : Ghost) =
      { g with borrowed := fun c => g.borrowed c ∨ c = b } := by
    ext j
    case hand =>
      simp only [Ghost.drop]
      constructor
      · rintro ⟨hh | rfl, hnot⟩
        · exact hh
        · exact absurd ⟨Nat.le_refl _, Nat.lt_succ_self _⟩ hnot
      · exact fun hh => absurd hh (hhand j)
    all_goals simp [Ghost.drop]
  rw [← hgh]
  exact hkept

theorem exchange_quiet (hk : Kept g s) (hb : s.blocks b = some pb) (hf : pb.phys = some f)
    (hbor : ¬ g.borrowed b) (hnd : ¬ Direct g.kind pb.regions) (hh : g.hand k) :
    Quiet s { g with hand := fun j => (g.hand j ∧ j ≠ k) ∨ j = f }
      (s.setBlock b (some { pb with phys := some k })) := by
  have hheld : Holds g s (.block b) f := ⟨hbor, pb, hb, hf, hnd⟩
  have hne : f ≠ k := by
    rintro rfl
    exact ((hk.frames f).of_holds hheld).2.2.1 hh
  -- in between the block has no frame
  have hlift : Placed g.managed (fun j => s.freePages j = true) (fun j => g.hand j ∨ j = f)
      (fun o j => Holds g s o j ∧ ¬ (o = .block b ∧ j = f)) := by
    apply hk.frames.lift (o := .block b) (S := fun j => j = f)
    · rintro j rfl
      exact hheld
    · exact fun j => Iff.rfl
    · exact fun o j => Iff.rfl
  have hq := setPhys_quiet (f := k) (fun j => (g.hand j ∧ j ≠ k) ∨ j = f)
    g.borrowed hk hb (fun c hc => .inr hc) (by
      apply hlift.give (o := .block b) (S := fun j => j = k)
      · rintro j rfl
        exact .inl hh
      · intro j
        constructor
        · rintro (⟨hj, hjk⟩ | rfl)
          · exact ⟨.inl hj, hjk⟩
          · exact ⟨.inr rfl, hne⟩
        · rintro ⟨hj | rfl, hjk⟩
          · exact .inl ⟨hj, hjk⟩
          · exact .inr rfl
      intro o j
      by_cases ho : o = .block b
      · subst ho
        refine holds_setPhys.trans ?_
        simp only [hbor, not_false_eq_true, true_and, hnd, and_true]
        constructor
        · exact .inr
        rintro (⟨⟨_, pb', hpb', hj, _⟩, hnot⟩ | hj)
        · rw [hb, some.injEq] at hpb'
          subst hpb'
          exact absurd (some.inj (hj.symm.trans hf)) hnot
        · exact hj
      · refine (holds_setPhys_of_ne ho).trans ?_
        simp [ho])
  refine hq.settled ?_
  have hkept := hq.kept.settle g.bare fun c pc hc hnone =>
    (hq.kept.bare hc hnone).1.1
  exact hkept

/-! ## A yield -/

/-- A page that can be yielded, with its frame. -/
def Yieldable (s : State) (p : ProcNr) (v : Page) (f : Frame) : Prop :=
  ∃ r pr regions, mapLookup s p v = some r ∧ physblockGet s p r (v - r.vaddr) = some (some pr) ∧
    r.anon = true ∧ s.blocks pr.ph = some ⟨some f, 1, regions⟩

theorem yieldCheck_spec {prev : Option Frame} (h : yieldCheck s p v prev n = some (some f)) :
    (∀ j, prev = some j → f = j + 1) ∧ ∀ i, i < n → Yieldable s p (v + i) (f + i) := by
  induction n generalizing v prev f with
  | zero => cases h
  | succ n ih =>
    unfold yieldCheck at h
    split at h
    · cases h
    rename_i r hr
    split at h
    · cases h
    · cases h
    rename_i pr hget
    split at h
    next f' refcount regions hb =>
      split at h
      · cases h
      rename_i hok
      simp only [not_or, not_not, Bool.not_eq_false] at hok
      obtain ⟨hanon, hone, hprev⟩ := hok
      subst hone
      have hfirst : Yieldable s p v f' := ⟨r, pr, regions, hr, hget, hanon, hb⟩
      have hprev' : ∀ j, prev = some j → f' = j + 1 := by
        rintro j rfl
        simpa using hprev
      split at h
      next hn =>
        cases h
        refine ⟨hprev', fun i hi => ?_⟩
        have hi0 : i = 0 := by omega
        subst hi0
        exact hfirst
      split at h
      · cases h
      · cases h
      rename_i f2 hrec
      cases h
      obtain ⟨hnext, hall⟩ := ih hrec
      have hf2 := hnext f rfl
      subst hf2
      refine ⟨hprev', fun i hi => ?_⟩
      rcases Nat.eq_zero_or_pos i with rfl | hpos
      · exact hfirst
      · have := hall (i - 1) (by omega)
        rwa [show v + 1 + (i - 1) = v + i by lia, show f + 1 + (i - 1) = f + i by lia] at this
    next => cases h

theorem Yieldable.congr (h : Yieldable s p v f)
    (hreg : (s'.vmproc p).regions = (s.vmproc p).regions) (hpb : s'.physblocks = s.physblocks)
    (hb : ∀ pr regions, s.physblocks (p, v) = some pr →
      s.blocks pr.ph = some ⟨some f, 1, regions⟩ → s'.blocks pr.ph = s.blocks pr.ph) :
    Yieldable s' p v f := by
  obtain ⟨r, pr, regions, hr, hget, hanon, hblock⟩ := h
  have hcont := (mapLookup_eq_some hr).2
  have hslot := (physblockGet_eq_some hget).2.1
  rw [show r.vaddr + (v - r.vaddr) = v by unfold VirRegion.Contains at hcont; lia] at hslot
  refine ⟨r, pr, regions, ?_, ?_, hanon, (hb pr regions hslot hblock).trans hblock⟩
  · unfold mapLookup
    rw [hreg]
    exact hr
  · unfold physblockGet at hget ⊢
    rw [hpb]
    exact hget

/-- The second loop of `yieldblock`: the frames from `new` on are used, and those from `f` on are
left over. -/
theorem yieldPages_quiet {new : Frame} (hand : Frame → Prop) (h : yieldPages s p v new n = some s')
    (hk : Kept { Ghost.idle M kind none with hand := hand } s)
    (hcov : Covers (.idle M kind none) s) (hp : Live s p)
    (hpages : ∀ i, i < n → Yieldable s p (v + i) (f + i))
    (hhand : ∀ j, new ≤ j → j < new + n → hand j) :
    Quiet s { Ghost.idle M kind none with
      hand := fun j => (hand j ∧ ¬ (new ≤ j ∧ j < new + n)) ∨ (f ≤ j ∧ j < f + n) } s' := by
  induction n generalizing s v f new hand with
  | zero =>
    cases h
    have heq : (fun j => (hand j ∧ ¬ (new ≤ j ∧ j < new + 0)) ∨ (f ≤ j ∧ j < f + 0)) = hand := by
      funext j
      apply propext
      lia
    rw [heq]
    exact hk.quiet
  | succ n ih =>
    unfold yieldPages at h
    obtain ⟨r, pr, regions, hr, hget, hanon, hb⟩ := hpages 0 (Nat.succ_pos n)
    rw [Nat.add_zero] at hr hget hb
    rw [hr] at h
    simp only [hget] at h
    obtain ⟨hmem, hcont⟩ := mapLookup_eq_some hr
    have hslot : s.physblocks (p, v) = some pr := by
      have := (physblockGet_eq_some hget).2.1
      rwa [show r.vaddr + (v - r.vaddr) = v by unfold VirRegion.Contains at hcont; lia] at this
    split at h
    · cases h
    rename_i s₁ hrep
    unfold replacePhys at hrep
    rw [hb] at hrep
    simp only at hrep
    split at hrep
    next s₂ hwr =>
      cases hrep
      have htarget : target { Ghost.idle M kind none with hand := hand } s (p, v) = some pr.ph := by
        rw [target_eq (by exact id), hslot]
        rfl
      have hin : (p, v) ∈ regions := (hk.mem_regions hb).mpr htarget
      have hnd : ¬ Direct kind regions := by
        intro hd
        have hkd : kind (p, v) = some .directphys := (hk.direct_iff hb hin).mp hd
        have hkr : kind (p, v) = some r.memtype := hcov p r hmem v hcont
        rw [hkr, some.injEq] at hkd
        simp [VirRegion.anon, hkd] at hanon
      -- the frame of the block is none of those in hand
      have hold : ¬ (new ≤ f ∧ f < new + (n + 1)) := fun hf =>
        ((hk.frames f).of_holds (o := .block pr.ph) ⟨id, _, hb, rfl, hnd⟩).2.2.1
          (hhand f hf.1 hf.2)
      have hq := exchange_quiet (k := new) hk hb rfl id hnd
        (hhand new (Nat.le_refl _) (by lia))
      obtain ⟨hq2, hblocks, hphys⟩ := mapPhWritept_quiet hwr hq.kept
        (hq.evicted.live.mpr hp).known
      have hq' := hq.trans hq2
      have hreg := hq'.regions
      have hcov1 : Covers (.idle M kind none) s₁ := fun q r' hr' => hcov q r' (hreg q ▸ hr')
      have hrest : Quiet s₁ _ s' := ih (f := f + 1) _ h hq2.kept hcov1
        (hq'.evicted.live.mpr hp) (fun i hi => by
          have hy := hpages (i + 1) (by omega)
          rw [show v + (i + 1) = v + 1 + i by lia, show f + (i + 1) = f + 1 + i by lia] at hy
          refine hy.congr (hreg p) hphys fun pr' regions' hslot' hb' => ?_
          rw [hblocks, setBlock_of_ne]
          intro heq
          have hother : (p, v + 1 + i) ∈ regions := by
            apply (hk.mem_regions hb).mpr
            rw [target_eq (by exact id), hslot', ← heq]
            rfl
          -- the block has one slot only
          have hlen : regions.length = 1 := (hk.count hb).symm
          obtain ⟨y, hy⟩ := length_eq_one_iff.mp hlen
          rw [hy, mem_singleton] at hin hother
          rw [← hin, Prod.mk.injEq] at hother
          lia) (fun j hlo hhi => .inl ⟨hhand j (by lia) (by lia), by lia⟩)
      have heq : (fun j => ((((hand j ∧ j ≠ new) ∨ j = f) ∧
            ¬ (new + 1 ≤ j ∧ j < new + 1 + n)) ∨ (f + 1 ≤ j ∧ j < f + 1 + n))) =
          fun j => (hand j ∧ ¬ (new ≤ j ∧ j < new + (n + 1))) ∨ (f ≤ j ∧ j < f + (n + 1)) := by
        funext j
        apply propext
        by_cases hj : hand j <;> simp only [hj, true_and, false_and, false_or] <;> lia
      have hall := hq'.trans hrest
      rw [← heq]
      exact hall
    next => cases hrep

variable {m : YieldedPtr} {id : BlockId} {pages : Nat}

theorem Cache.addNode_spec {c c' : Cache} {physaddr : Frame} (h : c.addNode m id physaddr pages = some c') :
    (∃ y, c'.node m = some y ∧ y.id = id ∧ y.physaddr = physaddr ∧ y.pages = pages) ∧
      ∀ k, k ≠ m → (c'.node k).map (fun y => (y.id, y.physaddr, y.pages)) =
        (c.node k).map (fun y => (y.id, y.physaddr, y.pages)) := by
  unfold addNode at h
  simp only at h
  split at h
  · cases h
    exact ⟨⟨_, update_self .., rfl, rfl, rfl⟩, fun k hk => by
      simp [setNode, yieldedInsert, setTree, hk]⟩
  rename_i j _
  split at h
  · cases h
  rename_i yj hj
  cases h
  refine ⟨⟨_, update_self .., rfl, rfl, rfl⟩, fun k hk => ?_⟩
  by_cases hkj : k = j
  · subst hkj
    have hold : c.node k = some yj := by
      simpa [setNode, yieldedInsert, setTree, hk] using hj
    simp [setNode, hk, hold]
  · simp [setNode, yieldedInsert, setTree, hk, hkj]

/-- The state after a yield, which made the node `m`. -/
def yielded (s : State) (p : ProcNr) (cache : Cache) : State :=
  { s with cache := cache }.setVmproc p { s.vmproc p with yielded := (s.vmproc p).yielded + 1 }

theorem yielded_vmproc (s : State) (p : ProcNr) (cache : Cache) (q : ProcNr) :
    (yielded s p cache).vmproc q =
      { s.vmproc q with yielded := ((yielded s p cache).vmproc q).yielded } := by
  by_cases hq : q = p
  · subst hq
    simp [yielded, State.setVmproc]
  · simp [yielded, State.setVmproc, hq]

theorem addNode_kept {cache : Cache}
    (hk : Kept { Ghost.idle M kind none with hand := fun j => f ≤ j ∧ j < f + pages } s)
    (hm : s.cache.node m = none) (h : s.cache.addNode m id f pages = some cache) :
    Kept (.idle M kind none) (yielded s p cache) := by
  obtain ⟨⟨y, hy, _, hphys, hpages⟩, hrest⟩ := Cache.addNode_spec h
  have hlive : ∀ q, Live (yielded s p cache) q ↔ Live s q := by
    intro q
    unfold Live
    rw [yielded_vmproc]
  refine hk.moved (fun _ => False) rfl rfl (fun q hq => ?_) (fun {q pde} hpt => ?_) ?_
  · rw [yielded_vmproc]
    exact hk.pages q ((hlive q).mp hq)
  · rw [hlive q]
    exact hk.tables hpt
  apply hk.frames.give (o := .yielded m) (S := fun j => f ≤ j ∧ j < f + pages)
  · exact fun j hj => hj
  · intro j
    exact ⟨False.elim, fun hj => hj.2 hj.1⟩
  intro o j
  cases o with
  | yielded i =>
    show cache.Frames i j ↔ _
    by_cases him : i = m
    · subst him
      constructor
      · rintro ⟨y', hy', hlo, hhi⟩
        rw [hy, some.injEq] at hy'
        subst hy'
        exact .inr ⟨rfl, by lia, by lia⟩
      · rintro (⟨y', hy', _⟩ | ⟨_, hlo, hhi⟩)
        · rw [hm] at hy'
          cases hy'
        · exact ⟨y, hy, by lia, by lia⟩
    · rw [Cache.Frames.congr (hrest i him)]
      simp [Holds, him]
  | hardening q w what =>
    simp only [Holds, hlive]
    rw [yielded_vmproc]
    simp
  | _ => simp [Holds, yielded, State.setVmproc]

theorem yieldblock_cases
    (h : yieldblock s p id v pages = some (e, s')) (hs : Sound M s) (hp : Live s p) :
    (e ≠ .ok ∧ Settles M s s') ∨
    (e = .ok ∧ ∃ s₁ m f cache, s' = yielded s₁ p cache ∧ s.cache.yieldedSearch id = none ∧
      Quiet s { Ghost.idle M (kindAt s) none with hand := fun j => f ≤ j ∧ j < f + pages } s₁ ∧
      s₁.cache.node m = none ∧ s₁.cache.addNode m id f pages = some cache ∧
      ∀ i, i < pages → Yieldable s p (v + i) (f + i)) := by
  unfold yieldblock at h
  split at h
  · cases h
    exact .inl ⟨nofun, hs.settles hs.kept.quiet.steady⟩
  rename_i hsearch
  split at h
  · cases h
  · cases h
    exact .inl ⟨nofun, hs.settles hs.kept.quiet.steady⟩
  rename_i first hcheck
  unfold slabAlloc at h
  split at h
  · cases h
  next s₁ hs1 =>
    split at hs1 <;> cases hs1
    cases h
    exact .inl ⟨nofun, hs.settles (hs.kept.readTape _).steady⟩
  rename_i m s₁ hs1
  split at hs1 <;> cases hs1
  have hq1 := hs.kept.readTape (g := .idle M (kindAt s) none)
  split at h
  · cases h
  rename_i hm
  split at h
  · cases h
  next s₂ h2 =>
    cases h
    obtain ⟨_, hq2⟩ := allocMem_quiet h2 (hq1 _).kept
    exact .inl ⟨nofun, hs.settles ((hq1 _).trans hq2).steady⟩
  rename_i new s₂ h2
  obtain ⟨hrest, hq2, _⟩ := allocMem_quiet h2 (hq1 _).kept
  have hq := (hq1 _).trans hq2
  split at h
  · cases h
  rename_i s3 h3
  obtain ⟨cache, hadd, heq⟩ := map_eq_some_iff.mp h
  cases heq
  obtain ⟨_, hall⟩ := yieldCheck_spec hcheck
  have hq3 := yieldPages_quiet (f := first)
    (fun j => False ∨ (new ≤ j ∧ j < new + pages)) h3 hq.kept
    (fun q r hr => hs.covers q r (hq.regions q ▸ hr)) (hq.evicted.live.mpr hp)
    (fun i hi => (hall i hi).congr (hq.regions p) hrest.physblocks
      fun pr' _ _ _ => congrFun hrest.blocks pr'.ph)
    (fun j hlo hhi => .inr ⟨hlo, hhi⟩)
  have hhand : (fun j => ((False ∨ (new ≤ j ∧ j < new + pages)) ∧
      ¬ (new ≤ j ∧ j < new + pages)) ∨ (first ≤ j ∧ j < first + pages)) =
      fun j => first ≤ j ∧ j < first + pages := by
    funext j
    apply propext
    lia
  rw [hhand] at hq3
  refine .inr ⟨rfl, s3, m, first, cache, rfl, hsearch, hq.trans hq3, ?_, hadd, hall⟩
  by_contra hne
  exact hm ((hq.trans hq3).evicted.isSome (isSome_iff_ne_none.mpr hne))

theorem yieldblock_sound
    (h : yieldblock s p id v pages = some (e, s')) (hs : Sound M s) (hp : Live s p) :
    Sound M s' ∧ (Live s' p) := by
  rcases yieldblock_cases h hs hp with ⟨_, hset⟩ | ⟨_, s₁, m, f, cache, rfl, _, hq, hm, hadd, _⟩
  · exact ⟨hset.sound, hset.evicted.live.mpr hp⟩
  have hreg : ∀ q, ((yielded s₁ p cache).vmproc q).regions = (s.vmproc q).regions := fun q => by
    rw [yielded_vmproc]
    exact hq.regions q
  have hlive : ∀ q, Live (yielded s₁ p cache) q ↔ Live s q := by
    intro q
    unfold Live
    rw [yielded_vmproc]
    exact hq.evicted.live
  have hkind : kindAt (yielded s₁ p cache) = kindAt s := (SameShapes.of_eq hreg).kindAt
  refine ⟨⟨hkind ▸ addNode_kept hq.kept hm hadd, fun q => (hs.arranged q).congr (by rw [hreg]),
    fun q hq' => ?_⟩, (hlive p).mpr hp⟩
  rw [hreg q]
  exact hs.dead q fun hl => hq' ((hlive q).mpr hl)

/-! ## A get -/

/-- The blocks of `lent` have frames of the yielded block that is being fetched. -/
def Ghost.fetching (M : Frame → Prop) (kind : Slot → Option MemType) (lent : PbPtr → Prop) :
    Ghost :=
  { Ghost.idle M kind none with borrowed := lent }

/-- The page is of memory that VM manages, and if it is mapped more than once the fault that copies
it can be handled. -/
def CanClone (s : State) (p : ProcNr) (v : Page) : Prop :=
  ∀ r pr pb, mapLookup s p v = some r → physblockGet s p r (v - r.vaddr) = some (some pr) →
    s.blocks pr.ph = some pb → r.memtype ≠ .directphys ∧ (pb.refcount ≠ 1 →
      ∀ s₁, pbUnreferenced s p r.memtype (p, r.vaddr + pr.offset) = some s₁ →
        CanFault s₁ p r pr.offset true)

variable {lent : PbPtr → Prop}

theorem mapPf_once (h : mapPf s p r offset true = some (.ok, s'))
    (hk : Kept (.fetching M kind lent) s) (hcov : Covers (.fetching M kind lent) s)
    (hkind : kind (p, r.vaddr + offset) = some r.memtype) (hp : Live s p)
    (hnone : s.physblocks (p, r.vaddr + offset) = none) (hcan : CanFault s p r offset true)
    (hmt : r.memtype ≠ .directphys) (hpr : s'.physblocks (p, r.vaddr + offset) = some pr)
    (hpb : s'.blocks pr.ph = some pb) (hone : pb.refcount = 1) :
    ∃ b, s.blocks b = none ∧ pr = ⟨b, offset⟩ ∧
      s'.physblocks = update s.physblocks (p, r.vaddr + offset) (some pr) ∧
      ∀ c, c ≠ b → s'.blocks c = s.blocks c := by
  cases htype : r.memtype with
  | anon =>
    rw [mapPf_anon htype] at h
    obtain ⟨b, f, hb, hphys, hblocks, _⟩ := mapPfAnon_absent h hk id rfl (htype ▸ hkind) htype
      (hcan.phys64k htype hnone) hp.known hnone
    rw [hphys, update_self, some.injEq] at hpr
    exact ⟨b, hb, hpr.symm, hpr ▸ hphys, fun c hc => by rw [hblocks, update_of_ne hc]⟩
  | directphys => exact absurd htype hmt
  | anonContig =>
    obtain ⟨_, _, _, _, _, _, _, _, _, _, hev, _⟩ := mapPfWith_absent h hk id rfl
      (by rw [show (Ghost.fetching M kind lent).kind = kind from rfl, hkind]; rfl) hnone
    simp [evPagefault, htype] at hev
  | shared =>
    -- the block has the page of the source too
    obtain ⟨pr1, s₁, s₂, pr', hf, _, _, hphys1, _, _, hev, hslot, hwr⟩ := mapPfWith_absent h hk id
      rfl (by rw [show (Ghost.fetching M kind lent).kind = kind from rfl, hkind]; rfl) hnone
    simp only [evPagefault, htype] at hev
    obtain ⟨q, src, pr2, hget, hslot2, hlt, hsrc⟩ := sharedPagefault_ok hev
    have hq := mapPf_quiet h hk (fun _ => id) rfl (fun _ => id) hcov hkind hp.known (fun b hb => by
      rw [target_eq (by exact id), hnone] at hb
      cases hb) hcan
    have hev1 := hf.quiet.evicted
    rw [getsrc_congr hev1 hf.quiet.regions] at hget
    obtain ⟨_, hmem, hanon, _⟩ := getsrc_spec hget
    have hkd : kind (q, src.vaddr + pr1.offset) = some .anon :=
      hanon ▸ hcov q src hmem _ (contains_add hlt)
    have hne : (q, src.vaddr + pr1.offset) ≠ (p, r.vaddr + offset) := by
      intro heq
      rw [heq, hkind, htype] at hkd
      cases hkd
    obtain ⟨_, hsame⟩ := mapPhWritept_same hwr
    rw [hsame, hslot2, some.injEq] at hpr
    subst hpr
    have hin : ∀ {y}, s'.physblocks y = some ⟨pr2.ph, pr1.offset⟩ ∨ s'.physblocks y = some pr2 →
        y ∈ pb.regions := by
      intro y hy
      apply (hq.kept.mem_regions hpb).mpr
      rw [target_eq (by exact id)]
      rcases hy with hy | hy <;> rw [hy] <;> rfl
    have hlen : pb.regions.length = 1 := (hq.kept.count hpb).symm.trans hone
    obtain ⟨y, hy⟩ := length_eq_one_iff.mp hlen
    have hme := hin (.inl (hsame ▸ hslot2))
    have hother := hin (.inr (hsame ▸ hsrc hne))
    rw [hy, mem_singleton] at hme hother
    exact absurd (hother.trans hme.symm) hne

theorem mapLookup_offset (h : mapLookup s p v = some r) : r.vaddr + (v - r.vaddr) = v := by
  have hcont := (mapLookup_eq_some h).2
  unfold VirRegion.Contains at hcont
  lia

/-- The page has a block of its own, and the blocks on loan are what they were. -/
structure Clean (s s' : State) (p : ProcNr) (v : Page) (lent : PbPtr → Prop) (r : VirRegion)
    (pr : PhysRegion) : Prop where
  lookup : mapLookup s p v = some r
  slot : s'.physblocks (p, v) = some pr
  block : ∃ pb, s'.blocks pr.ph = some pb ∧ pb.refcount = 1
  memtype : r.memtype ≠ .directphys
  lent : ∀ b, lent b → s'.blocks b = s.blocks b

theorem mapClonePhBlock_clean {o : Option PhysRegion}
    (h : mapClonePhBlock s p r pr = some (o, s')) (hk : Kept (.fetching M kind lent) s)
    (hcov : Covers (.fetching M kind lent) s) (hp : Live s p) (hr : mapLookup s p v = some r)
    (hget : physblockGet s p r (v - r.vaddr) = some (some pr)) (hpb : s.blocks pr.ph = some pb)
    (hone : pb.refcount ≠ 1) (hbor : ¬ lent pr.ph) (hcan : CanClone s p v) :
    Quiet s (.fetching M kind lent) s' ∧ ∀ pr', o = some pr' → Clean s s' p v lent r pr' := by
  obtain ⟨hmt, hfault⟩ := hcan r pr pb hr hget hpb
  obtain ⟨hlt, hslot, hoff⟩ := physblockGet_eq_some hget
  have hoff' := hoff pr rfl
  have hv : r.vaddr + pr.offset = v := hoff' ▸ mapLookup_offset hr
  have hkind : kind (p, v) = some r.memtype :=
    hcov p r (mapLookup_eq_some hr).1 v (mapLookup_eq_some hr).2
  rw [← hoff', hv] at hslot
  have htarget : target (.fetching M kind lent) s (p, v) = some pr.ph := by
    rw [target_eq (by exact id), hslot]
    rfl
  unfold mapClonePhBlock at h
  rw [hpb] at h
  simp only at h
  split at h
  · cases h
  rename_i s₁ hun
  have hfault1 := hfault hone s₁ hun
  rw [hv] at hun
  have hq1 := pbUnreferenced_quiet hun hk id hp.known hkind (fun b hb => by
    rw [htarget, some.injEq] at hb
    exact hb ▸ hbor)
  have hphys1 : s₁.physblocks (p, v) = none := by
    rw [pbUnreferenced_physblocks hun, update_self]
  have hp1 : Live s₁ p := hq1.evicted.live.mpr hp
  have hcov1 : Covers (.fetching M kind lent) s₁ := fun q r' hr' => hcov q r' (hq1.regions q ▸ hr')
  -- the block that the page had is the only one that changed
  have hblocks1 : ∀ c, c ≠ pr.ph → s₁.blocks c = s.blocks c := by
    intro c hc
    obtain ⟨s₂, h2, rfl⟩ := map_eq_some_iff.mp hun
    rw [State.setSlot, pbUnlink_blocks h2 hslot hpb, update_of_ne hc]
  have hpf : ∀ {e : Status} {s₂ : State}, mapPf s₁ p r pr.offset true = some (e, s₂) →
      Quiet s₁ (.fetching M kind lent) s₂ := by
    intro e s₂ h2
    refine mapPf_quiet h2 hq1.kept (fun _ => id) rfl (fun _ => id) hcov1 (by rw [hv]; exact hkind)
      hp1.known (fun b hb => ?_) hfault1
    rw [hv, target_eq (by exact id), hphys1] at hb
    cases hb
  split at h
  · cases h
  next s₂ hok =>
    have hq2 := hpf hok
    split at h
    next pr' hget' =>
      split at h
      next new regions old hnew _ =>
        cases h
        obtain ⟨_, hslot', _⟩ := physblockGet_eq_some hget'
        rw [hv] at hslot'
        have htarget' : target (.fetching M kind lent) s₂ (p, v) = some pr'.ph := by
          rw [target_eq (by exact id), hslot']
          rfl
        have hin : (p, v) ∈ regions := (hq2.kept.mem_regions hnew).mpr htarget'
        have hnd : ¬ Direct kind regions := by
          intro hd
          have hkd : kind (p, v) = some .directphys := (hq2.kept.direct_iff hnew hin).mp hd
          rw [hkind, some.injEq] at hkd
          exact hmt hkd
        obtain ⟨b, hbnone, hpr', _, hsame⟩ := mapPf_once hok hq1.kept hcov1
          (by rw [hv]; exact hkind) hp1 (by rw [hv]; exact hphys1) hfault1 hmt
          (by rw [hv]; exact hslot') hnew rfl
        have hbor' : ∀ c, lent c → c ≠ b := by
          rintro c hc rfl
          obtain ⟨pc, hpc, _⟩ := hq1.kept.lent hc
          rw [hbnone] at hpc
          cases hpc
        have hph : pr'.ph = b := by rw [hpr']
        have hq3 := absCopy_owned_quiet (o := .block pr'.ph) old hq2.kept
          ⟨fun hb => hbor' _ hb hph, _, hnew, rfl, hnd⟩ (fun n h => by cases h)
        refine ⟨(hq1.trans hq2).trans hq3, fun pr3 hpr3 => ?_⟩
        cases hpr3
        refine ⟨hr, hslot', ⟨_, hnew, rfl⟩, hmt, fun c hc => ?_⟩
        show s₂.blocks c = s.blocks c
        rw [hsame c (hbor' c hc), hblocks1]
        rintro rfl
        exact hbor hc
      next => cases h
    next => cases h
  next e s₂ _ hfail =>
    cases h
    exact ⟨hq1.trans (hpf hfail), fun _ h => by cases h⟩

theorem getClean_clean {o : Option (VirRegion × PhysRegion)}
    (h : getCleanPhysRegion s p v = some (o, s')) (hk : Kept (.fetching M kind lent) s)
    (hcov : Covers (.fetching M kind lent) s) (hp : Live s p)
    (hbor : ∀ pr, s.physblocks (p, v) = some pr → ¬ lent pr.ph) (hcan : CanClone s p v) :
    Quiet s (.fetching M kind lent) s' ∧ ∀ r pr, o = some (r, pr) → Clean s s' p v lent r pr := by
  unfold getCleanPhysRegion at h
  split at h
  · cases h
    exact ⟨hk.quiet, nofun⟩
  rename_i r hr
  split at h
  · cases h
  · cases h
    exact ⟨hk.quiet, nofun⟩
  rename_i pr hget
  have hslot := (physblockGet_eq_some hget).2.1
  rw [mapLookup_offset hr] at hslot
  split at h
  · cases h
  rename_i pb hpb
  split at h
  · cases h
  split at h
  next hone =>
    cases h
    refine ⟨hk.quiet, fun r' pr' heq => ?_⟩
    cases heq
    exact ⟨hr, hslot, ⟨pb, hpb, hone⟩, (hcan r pr pb hr hget hpb).1, fun _ _ => rfl⟩
  rename_i hone
  split at h
  · cases h
  next s₁ hclone =>
    cases h
    obtain ⟨hq, _⟩ := mapClonePhBlock_clean hclone hk hcov hp hr hget hpb hone
      (hbor pr hslot) hcan
    exact ⟨hq, nofun⟩
  rename_i pr1 s₁ hclone
  cases h
  obtain ⟨hq, hclean⟩ := mapClonePhBlock_clean hclone hk hcov hp hr hget hpb hone
    (hbor pr hslot) hcan
  refine ⟨hq, fun r' pr' heq => ?_⟩
  cases heq
  exact hclean _ rfl

/-- The blocks on loan are those of the `k` pages from `v` on, and have the frames from `f` on. -/
structure Loaned (kind : Slot → Option MemType) (s : State) (p : ProcNr) (v : Page) (f : Frame)
    (k : Nat) (lent : PbPtr → Prop) : Prop where
  of_lent : ∀ b, lent b → ∃ i pb, i < k ∧ s.blocks b = some pb ∧ pb.phys = some (f + i) ∧
    pb.regions = [(p, v + i)] ∧ kind (p, v + i) ≠ some .directphys
  exists_lent : ∀ i, i < k → ∃ b pb, lent b ∧ s.blocks b = some pb ∧ pb.phys = some (f + i)

theorem Loaned.congr {j : Nat} (h : Loaned kind s p v f j lent)
    (hb : ∀ b, lent b → s'.blocks b = s.blocks b) : Loaned kind s' p v f j lent where
  of_lent b hl := by
    obtain ⟨i, pb, hi, hpb, hrest⟩ := h.of_lent b hl
    exact ⟨i, pb, hi, (hb b hl).trans hpb, hrest⟩
  exists_lent i hi := by
    obtain ⟨b, pb, hl, hpb, hphys⟩ := h.exists_lent i hi
    exact ⟨b, pb, hl, (hb b hl).trans hpb, hphys⟩

theorem getPage_loaned {j : Nat} (hclean : Clean s s₁ p (v + j) lent r pr)
    (hb : s₁.blocks pr.ph = some pb) (hphys : pb.phys = some k)
    (hrep : replacePhys (freeMem s₁ k 1) p r (v + j) pr (f + j) = some s')
    (hk : Kept (.fetching M kind lent) s₁) (hcov : Covers (.fetching M kind lent) s)
    (hp : Live s₁ p) (hl : Loaned kind s p v f j lent) :
    Quiet s₁ (.fetching M kind fun c => lent c ∨ c = pr.ph) s' ∧
      Loaned kind s' p v f (j + 1) (fun c => lent c ∨ c = pr.ph) := by
  have hkind : kind (p, v + j) = some r.memtype :=
    hcov p r (mapLookup_eq_some hclean.lookup).1 _ (mapLookup_eq_some hclean.lookup).2
  have hin : (p, v + j) ∈ pb.regions := by
    apply (hk.mem_regions hb).mpr
    rw [target_eq (by exact id), hclean.slot]
    rfl
  have hregions : pb.regions = [(p, v + j)] := by
    obtain ⟨pb', hb', hone⟩ := hclean.block
    rw [hb, some.injEq] at hb'
    subst hb'
    obtain ⟨y, hy⟩ := length_eq_one_iff.mp ((hk.count hb).symm.trans hone)
    rw [hy, mem_singleton] at hin
    rw [hy, hin]
  have hnd : ¬ Direct kind pb.regions := by
    intro hd
    have hkd : kind (p, v + j) = some .directphys := (hk.direct_iff hb hin).mp hd
    rw [hkind, some.injEq] at hkd
    exact hclean.memtype hkd
  have hl1 : Loaned kind s₁ p v f j lent := hl.congr hclean.lent
  have hnew : ¬ lent pr.ph := by
    intro hlent
    obtain ⟨i, pb', hi, hb', _, hreg, _⟩ := hl1.of_lent _ hlent
    rw [hb, some.injEq] at hb'
    subst hb'
    rw [hregions] at hreg
    have := (Prod.mk.inj (List.cons.inj hreg).1).2
    lia
  have hq := borrow_quiet hk hb hphys hnew hnd (fun _ => id) (f + j)
  unfold replacePhys at hrep
  rw [show (freeMem s₁ k 1).blocks pr.ph = some pb from hb] at hrep
  simp only at hrep
  split at hrep
  next s₂ hwr =>
    cases hrep
    obtain ⟨hq2, hblocks, _⟩ := mapPhWritept_quiet hwr hq.kept (hq.evicted.live.mpr hp).known
    refine ⟨hq.trans hq2, ⟨fun b hb' => ?_, fun i hi => ?_⟩⟩
    · rw [hblocks]
      rcases hb' with hlent | rfl
      · obtain ⟨i, pb', hi, hpb', hrest⟩ := hl1.of_lent b hlent
        have hne : b ≠ pr.ph := by
          rintro rfl
          exact hnew hlent
        exact ⟨i, pb', by omega, (setBlock_of_ne _ hne _).trans hpb', hrest⟩
      · refine ⟨j, _, Nat.lt_succ_self j, setBlock_self .., rfl, hregions, ?_⟩
        rw [hkind, ne_eq, some.injEq]
        exact hclean.memtype
    rw [hblocks]
    rcases Nat.lt_succ_iff_lt_or_eq.mp hi with hlt | rfl
    · obtain ⟨b, pb', hlent, hpb', hphys'⟩ := hl1.exists_lent i hlt
      have hne : b ≠ pr.ph := by
        rintro rfl
        exact hnew hlent
      exact ⟨b, pb', .inl hlent, (setBlock_of_ne _ hne _).trans hpb', hphys'⟩
    · exact ⟨pr.ph, _, .inr rfl, setBlock_self .., rfl⟩
  next => cases hrep

theorem getPages_loaned {j : Nat} (h : getPages s p (v + j) (f + j) n = some (.ok, s'))
    (hk : Kept (.fetching M kind lent) s) (hcov : Covers (.fetching M kind lent) s)
    (hp : Live s p) (hl : Loaned kind s p v f j lent)
    (hcan : ∀ i, i < n → ∀ s₁, getPages s p (v + j) (f + j) i = some (.ok, s₁) →
      CanClone s₁ p (v + j + i)) :
    ∃ lent', Quiet s (.fetching M kind lent') s' ∧ Loaned kind s' p v f (j + n) lent' := by
  induction n generalizing s j lent with
  | zero =>
    cases h
    exact ⟨lent, hk.quiet, hl⟩
  | succ n ih =>
    have hcan0 := hcan 0 (Nat.succ_pos n) s rfl
    rw [Nat.add_zero] at hcan0
    have hstep := fun i => getPages.eq_2 s p (v + j) (f + j) i
    rw [hstep n] at h
    split at h
    · cases h
    · cases h
    rename_i r pr s₁ hget
    obtain ⟨hq1, hclean⟩ := getClean_clean hget hk hcov hp (fun pr' hpr' hlent => by
      obtain ⟨i, pb', hi, hb', _, hreg, _⟩ := hl.of_lent _ hlent
      have hin : (p, v + j) ∈ pb'.regions := by
        apply (hk.mem_regions hb').mpr
        rw [target_eq (by exact id), hpr']
        rfl
      rw [hreg, mem_singleton, Prod.mk.injEq] at hin
      lia) hcan0
    split at h
    next k refcount regions hb =>
      split at h
      · cases h
      rename_i s₂ hrep
      obtain ⟨hq2, hl2⟩ := getPage_loaned (hclean r pr rfl) hb rfl hrep hq1.kept hcov
        (hq1.evicted.live.mpr hp) hl
      have hq := hq1.trans hq2
      rw [Nat.add_assoc v, Nat.add_assoc f] at h
      obtain ⟨lent', hq3, hl3⟩ := ih h hq2.kept
        (fun q r' hr' => hcov q r' (hq.regions q ▸ hr')) (hq.evicted.live.mpr hp) hl2
        (fun i hi s3 hs3 => by
          have := hcan (i + 1) (by omega) s3 (by
            rw [hstep i, hget]
            simp only [hb, hrep]
            rw [Nat.add_assoc v, Nat.add_assoc f]
            exact hs3)
          rwa [show v + j + (i + 1) = v + (j + 1) + i by lia] at this)
      refine ⟨lent', hq.trans hq3, ?_⟩
      rwa [show j + (n + 1) = j + 1 + n by omega]
    next => cases h

theorem Evicted.node_eq (h : Evicted s s') (hm : (s'.cache.node m).isSome) :
    (s'.cache.node m).map (fun y => (y.id, y.physaddr, y.pages)) =
      (s.cache.node m).map (fun y => (y.id, y.physaddr, y.pages)) := by
  induction h with
  | same h1 => rw [h1.cache]
  | @evict s₁ s₂ s' j _ h2 h3 ih =>
    obtain ⟨y, k, hrem, _⟩ := freeyieldednode_spec h2
    obtain ⟨_, hgone, hrest⟩ := Cache.removeNode_spec hrem
    rw [h3.cache] at hm ⊢
    have hmj : m ≠ j := by
      rintro rfl
      rw [hgone] at hm
      cases hm
    have hsome := congrArg Option.isSome (hrest m hmj)
    simp only [isSome_map] at hsome
    rw [hrest m hmj]
    exact ih (hsome ▸ hm)

theorem repay_kept {y : Yielded}
    (h : freeyieldednode s m false = some s') (hk : Kept (.fetching M kind lent) s)
    (hy : s.cache.node m = some y) (hl : Loaned kind s p v y.physaddr y.pages lent) :
    Kept (.idle M kind none) s' := by
  classical
  have hrest := freeyieldednode_rest h
  obtain ⟨y', q, hrem, _, _, _, _, hfree⟩ := freeyieldednode_spec h
  have hblocks := hrest.blocks
  -- a frame of the node is on loan to one block
  have huniq : ∀ {b b' pb pb' j}, lent b → lent b' → s.blocks b = some pb →
      s.blocks b' = some pb' → pb.phys = some j → pb'.phys = some j → b' = b := by
    intro b b' pb pb' j hb hb' hpb hpb' hj hj'
    obtain ⟨i, pc, _, hpc, hphys, hreg, _⟩ := hl.of_lent b hb
    obtain ⟨i', pc', _, hpc', hphys', hreg', _⟩ := hl.of_lent b' hb'
    rw [hpb, some.injEq] at hpc
    rw [hpb', some.injEq] at hpc'
    subst hpc hpc'
    rw [hj, some.injEq] at hphys
    rw [hj', some.injEq] at hphys'
    have hi : i' = i := by lia
    subst hi
    have h1 := (hk.mem_regions hpb).mp (by rw [hreg]; exact mem_singleton_self _)
    have h2 := (hk.mem_regions hpb').mp (by rw [hreg']; exact mem_singleton_self _)
    rw [h1, some.injEq] at h2
    exact h2.symm
  have hex : ∀ j, ∃ b, y.physaddr ≤ j → j < y.physaddr + y.pages →
      ∃ pb, lent b ∧ s.blocks b = some pb ∧ pb.phys = some j := by
    intro j
    by_cases hj : y.physaddr ≤ j ∧ j < y.physaddr + y.pages
    · obtain ⟨b, pb, hb, hpb, hphys⟩ := hl.exists_lent (j - y.physaddr) (by lia)
      rw [show y.physaddr + (j - y.physaddr) = j by lia] at hphys
      exact ⟨b, fun _ _ => ⟨pb, hb, hpb, hphys⟩⟩
    · exact ⟨0, fun hlo hhi => absurd ⟨hlo, hhi⟩ hj⟩
  choose next hnext using hex
  have hlive : ∀ q, Live s' q ↔ Live s q := fun q => (hrest.sameHolder q).live
  have htarget : ∀ x, target (.idle M kind none) s' x = target (.fetching M kind lent) s x := by
    intro x
    rw [target_idle, target_eq (by exact id), hrest.physblocks]
  refine {
    refs := hk.refs.congr htarget (fun b => by simp only [names, hblocks])
    count := fun hb => hk.count (hblocks ▸ hb)
    used := fun hb => hk.used (hblocks ▸ hb)
    bare := fun hb => hk.bare (hblocks ▸ hb)
    lent := nofun
    kinds := fun hx => hk.kinds (htarget _ ▸ hx)
    uniform := fun hb => hk.uniform (hblocks ▸ hb)
    pages := fun q => hrest.pages hk q
    tables := fun {q pde} hpt => (hk.tables (hrest.ptPages ▸ hpt)).imp_left (hlive q).mpr
    frames := ?_ }
  · have hpass : Placed M (fun j => s.freePages j = true) (fun _ => False)
        (Holds (.idle M kind none) s') := by
      apply hk.frames.passOn (o := .yielded m) (S := fun j => y.physaddr ≤ j ∧
        j < y.physaddr + y.pages) (fun j => .block (next j))
      · rintro j ⟨hlo, hhi⟩
        exact ⟨y, hy, hlo, hhi⟩
      intro o j
      cases o with
      | block b =>
        simp only [Holds, hblocks, Owner.block.injEq, reduceCtorEq, false_and,
          not_false_eq_true, and_true]
        constructor
        · rintro ⟨_, pb, hpb, hphys, hnd⟩
          by_cases hb : lent b
          · obtain ⟨i, pc, hi, hpc, hphys', _⟩ := hl.of_lent b hb
            rw [hpb, some.injEq] at hpc
            subst hpc
            rw [hphys, some.injEq] at hphys'
            have hlo : y.physaddr ≤ j := by lia
            have hhi : j < y.physaddr + y.pages := by lia
            obtain ⟨pb', hb', hpb', hj'⟩ := hnext j hlo hhi
            exact .inr ⟨⟨hlo, hhi⟩, huniq hb' hb hpb' hpb hj' hphys⟩
          · exact .inl ⟨hb, pb, hpb, hphys, hnd⟩
        rintro (⟨_, hrest⟩ | ⟨⟨hlo, hhi⟩, rfl⟩)
        · exact ⟨id, hrest⟩
        obtain ⟨pb, hb, hpb, hphys⟩ := hnext j hlo hhi
        obtain ⟨i, pc, _, hpc, _, hreg, hkind⟩ := hl.of_lent _ hb
        rw [hpb, some.injEq] at hpc
        subst hpc
        refine ⟨id, pb, hpb, hphys, ?_⟩
        rintro ⟨x, hx, hkx⟩
        rw [hreg, mem_singleton] at hx
        rw [hx] at hkx
        exact hkind hkx
      | yielded i =>
        show s'.cache.Frames i j ↔ (s.cache.Frames i j ∧ _) ∨ _
        rw [Cache.removeNode_frames hrem]
        by_cases him : i = m
        · subst him
          simp [Cache.Frames, hy]
        · simp [him]
      | hardening q w what =>
        simp only [Holds, hlive, (hrest.sameHolder q).2.2]
        simp
      | pageTable q pde =>
        simp [Holds, hrest.ptPages]
      | pageDir q =>
        simp [Holds, hrest.ptDir]
    exact hpass.congr (fun j => by rw [hfree j]; simp) (fun _ => Iff.rfl) fun o j => by
      cases o <;> exact Iff.rfl

/-- What a get needs: its pages can be copied, and it does not fail once a page was replaced. -/
structure CanGet (s : State) (p : ProcNr) (v : Page) (f : Frame) (pages : Nat) : Prop where
  clone : ∀ i, i < pages → ∀ s₁, getPages s p v f i = some (.ok, s₁) → CanClone s₁ p (v + i)
  completes : ∀ e s₁, getPages s p v f pages = some (e, s₁) →
    e = .ok ∨ ∃ s₂, getCleanPhysRegion s p v = some (none, s₂)

/-- What a get of a block needs, if the block is there and has as many pages. -/
def CanGetblock (s : State) (p : ProcNr) (id : BlockId) (v : Page) (pages : Nat) : Prop :=
  ∀ m y, s.cache.yieldedSearch id = some m → s.cache.node m = some y → y.pages = pages →
    CanGet s p v y.physaddr pages

theorem getblock_cases (h : getblock s p id v pages = some (e, s')) (hs : Sound M s) (hp : Live s p)
    (hcan : CanGetblock s p id v pages) :
    (e ≠ .ok ∧ Settles M s s') ∨
    (e = .ok ∧ ∃ m y s₁ lent, s.cache.yieldedSearch id = some m ∧ s.cache.node m = some y ∧
      y.pages = pages ∧ getPages s p v y.physaddr pages = some (.ok, s₁) ∧
      Quiet s (.fetching M (kindAt s) lent) s₁ ∧
      Loaned (kindAt s) s₁ p v y.physaddr pages lent ∧
      freeyieldednode s₁ m false = some s') := by
  unfold getblock at h
  split at h
  · cases h
    exact .inl ⟨nofun, hs.settles hs.kept.quiet.steady⟩
  rename_i m hm
  split at h
  · cases h
  rename_i y hy
  split at h
  · cases h
    exact .inl ⟨nofun, hs.settles hs.kept.quiet.steady⟩
  rename_i hpages
  rw [not_not] at hpages
  obtain ⟨hclone, hcompletes⟩ := hcan m y hm hy hpages
  split at h
  · cases h
  next s₁ hget =>
    obtain ⟨s₂, hfree, heq⟩ := map_eq_some_iff.mp h
    cases heq
    obtain ⟨lent, hq, hl⟩ := getPages_loaned (j := 0) hget
      (show Kept (.fetching M _ fun _ => False) s from hs.kept)
      hs.covers hp ⟨nofun, fun i hi => by omega⟩ hclone
    rw [Nat.zero_add] at hl
    exact .inr ⟨rfl, m, y, s₁, lent, hm, hy, hpages, hget, hq, hl, hfree⟩
  rename_i e1 s₁ hne hget
  cases h
  have hne' : e ≠ .ok := fun he => hne (he ▸ rfl)
  refine .inl ⟨hne', ?_⟩
  obtain ⟨s₂, hfirst⟩ := (hcompletes e s' hget).resolve_left hne'
  -- the first page could not be replaced
  obtain ⟨n, rfl⟩ : ∃ n, pages = n + 1 := by
    cases pages with
    | zero =>
      cases hget
      exact absurd rfl hne'
    | succ n => exact ⟨n, rfl⟩
  unfold getPages at hget
  rw [hfirst] at hget
  cases hget
  obtain ⟨hq, _⟩ := getClean_clean hfirst
    (show Kept (.fetching M _ fun _ => False) s from hs.kept) hs.covers hp
    (fun _ _ hf => hf) (hclone 0 (Nat.succ_pos n) s rfl)
  exact hs.settles hq.steady

theorem getblock_sound (h : getblock s p id v pages = some (e, s')) (hs : Sound M s) (hp : Live s p)
    (hcan : CanGetblock s p id v pages) : Sound M s' := by
  rcases getblock_cases h hs hp hcan with
    ⟨_, hset⟩ | ⟨_, m, y, s₁, lent, _, hy, rfl, _, hq, hl, hfree⟩
  · exact hset.sound
  have hrest := freeyieldednode_rest hfree
  obtain ⟨z, _, hrem, _⟩ := freeyieldednode_spec hfree
  have hz := (Cache.removeNode_spec hrem).1
  have hsame := hq.evicted.node_eq (m := m) (by rw [hz]; rfl)
  rw [hz, hy, map_some, map_some, some.injEq, Prod.mk.injEq, Prod.mk.injEq] at hsame
  rw [← hsame.2.1, ← hsame.2.2] at hl
  have hk := repay_kept hfree hq.kept hz hl
  have hreg : ∀ q, (s'.vmproc q).regions = (s.vmproc q).regions := fun q =>
    (hrest.regions q).trans (hq.regions q)
  have hlive : ∀ q, Live s' q ↔ Live s q := fun q =>
    (hrest.sameHolder q).live.trans hq.evicted.live
  refine ⟨(SameShapes.of_eq hreg).kindAt ▸ hk, fun q => (hs.arranged q).congr (by rw [hreg]),
    fun q hq' => ?_⟩
  rw [hreg q]
  exact hs.dead q fun hl => hq' ((hlive q).mpr hl)

/-- What a request for yielded blocks needs. -/
def CanYieldget (s : State) (p : ProcNr) (yieldid getid : UInt64) (v : Page) (pages : Nat) : Prop :=
  ∀ owner, (s.vmproc p).endpoint = some owner → ∀ e s₁,
    (if yieldid ≠ vmBlockidNone then yieldblock s p ⟨yieldid, owner⟩ v pages
      else some (.ok, s)) = some (e, s₁) → CanGetblock s₁ p ⟨getid, owner⟩ v pages

theorem doYieldblockgetblock_sound {yieldid getid : UInt64}
    (h : doYieldblockgetblock s p yieldid getid v pages = some (e, s')) (hs : Sound M s)
    (hp : Live s p) (hcan : CanYieldget s p yieldid getid v pages) : Sound M s' := by
  unfold doYieldblockgetblock at h
  split at h
  · cases h
  rename_i owner howner
  split at h
  · cases h
    exact hs
  split at h
  · cases h
  rename_i e1 s₁ h1
  have hs1 : Sound M s₁ ∧ Live s₁ p := by
    split at h1
    · exact yieldblock_sound h1 hs hp
    · cases h1
      exact ⟨hs, hp⟩
  split at h
  · exact getblock_sound h hs1.1 hs1.2 (hcan owner howner e1 s₁ h1)
  · cases h
    exact hs1.1

end HardenedMinix.Region
