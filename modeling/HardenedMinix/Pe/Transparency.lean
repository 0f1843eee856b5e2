import HardenedMinix.Pe.Plain
import HardenedMinix.Pe.Rollback

/-!
# Transparency

A sequence that is executed twice leaves what one plain execution leaves, if both runs find every
page as in `us0` and opening a page does not change what it shows.
-/

open Function List Option

namespace HardenedMinix

open Lib Linked Bool Kernel

namespace View

variable {u v w v₁ v₂ : View} {s : List PageStore} {step : HStep} {c : PageData} {noMem : Prop}

/-! ## One page -/

/-- A page with both private frames is labelled `H_TO_UPDATE`, or its frames are in step. -/
def InStep (u : View) : Prop :=
  u.both = true → u.flags.hToUpdate = true ∨ u.c1 = some u.c0 ∧ u.c2 = some u.c0

/-- Both runs do what one plain execution does. `noMem`: VM has no frame left for a page that lacks
one. -/
structure Lossless (u : View) (noMem : Prop) : Prop where
  closed : u.both = true → u.write = false →
    u.c1 = some u.c0 ∧ u.c2 = some u.c0 ∧ (u.flags.hFork = true ∨ u.flags.hToUpdate = false)
  onlyFirst : u.c2 = none → noMem ∨ (u.write && u.kept .firstRun) = false
  onlySecond : u.c1 = none → ∀ c2, u.c2 = some c2 →
    noMem ∨ u.flags.hFork = true ∧ u.kept .secondRun = false ∨
      u.flags.hToUpdate = false ∧ c2 = u.c0

/-- The page shows `c`, and so does each of its frames that a run may be given. -/
structure Still (c : PageData) (v : View) : Prop where
  us0 : v.c0 = c
  content : v.content = c
  frames : v.both = true → v.c1 = some c ∧ v.c2 = some c

theorem Still.base_eq (h : v.Still c) : v.base step = c := by
  unfold base
  split_ifs with hw hboth hstep
  · exact h.content
  · rw [(h.frames hboth).1]
    rfl
  · rw [(h.frames hboth).2]
    rfl
  · exact h.us0

theorem Still.steady (h : v.Still c) : v.Steady step := by
  intro v' hopen
  rw [opened_content hopen, h.base_eq, h.content]

theorem still_first (hs : u.slot = .us0) (hin : u.InStep) (hl : u.Lossless noMem) :
    (u.ro .firstRun).Still u.c0 := by
  have hclosed := hl.closed
  obtain ⟨f, slot, write, dirty, c0, c1, c2⟩ := u
  simp only [InStep] at hs hin hclosed
  subst hs
  cases write with
  | false =>
    -- a page that is read-only already is left alone
    refine ⟨rfl, rfl, fun hboth => ?_⟩
    obtain ⟨h1, h2, -⟩ := hclosed hboth rfl
    exact ⟨h1, h2⟩
  | true =>
    cases c1 with
    | none => cases c2 <;> refine ⟨?_, ?_, ?_⟩ <;>
        simp [ro, protect, update, both, startSlot, content]
    | some c1 =>
      cases c2 with
      | none => refine ⟨?_, ?_, ?_⟩ <;> simp [ro, protect, update, both, startSlot, content]
      | some c2 =>
        cases hup : f.hToUpdate with
        | true =>
          refine ⟨?_, ?_, ?_⟩ <;>
            simp [ro, protect, update, both, synced, startSlot, runSlot, content, hup]
        | false =>
          obtain hno | ⟨h1, h2⟩ := hin rfl
          · rw [hup] at hno
            simp at hno
          · simp only [some.injEq] at h1 h2
            refine ⟨?_, ?_, ?_⟩ <;>
              simp [ro, protect, update, both, startSlot, runSlot, content, hup, h1, h2]

theorem ro_first_write (hw : (u.ro .firstRun).write = true) :
    (u.ro .firstRun).c1.isSome = true := by
  have hopen : (u.ro .firstRun).opened .firstRun = some (u.ro .firstRun) := by simp [opened, hw]
  exact opened_first hopen

theorem Still.ro_second (h : v.Still c) (hw : v.write = true → v.c1.isSome = true) :
    (v.ro .secondRun).Still c := by
  unfold ro
  split
  swap
  · exact h
  rename_i hopen
  obtain ⟨c1, hc1⟩ := isSome_iff_exists.mp (hw hopen)
  obtain ⟨h0, -, hframes⟩ := h
  obtain ⟨f, slot, write, dirty, c0, c1', c2⟩ := v
  simp only at h0 hc1 hframes
  subst hc1 h0
  cases c2 with
  | none => refine ⟨?_, ?_, ?_⟩ <;> simp [protect, update, both, startSlot, View.content]
  | some c2 =>
    obtain ⟨h1, h2⟩ := hframes rfl
    simp only [some.injEq] at h1 h2
    subst h1 h2
    cases hup : f.hToUpdate <;> refine ⟨?_, ?_, ?_⟩ <;>
      simp [protect, update, both, synced, startSlot, runSlot, View.content, hup]

/-- A page the first run stored to, behind the end of that run. -/
structure Stored (c : PageData) (s : List PageStore) (v : View) : Prop where
  us0 : v.c0 = c
  us1 : v.c1 = some (applyStores c s)
  us2 : v.c2 = none ∨ v.c2 = some c ∧ v.flags.hToUpdate = false
  write : v.write = true
  fws : v.flags.fws = true

theorem Stored.ro_second (h : v.Stored c s) :
    (v.ro .secondRun).content = c ∧ (v.ro .secondRun).base .secondRun = c ∧
      (v.ro .secondRun).c0 = c ∧ (v.ro .secondRun).c1 = some (applyStores c s) := by
  obtain ⟨h0, h1, h2, hw, -⟩ := h
  rcases h2 with h2 | ⟨h2, hup⟩
  · simp [ro, protect, update, both, startSlot, View.content, base, hw, h0, h1, h2]
  · obtain ⟨hx1, -, hxc, hxb⟩ := View.ro_second h1 h2 hw
    simp only [hup, false_eq_true, ↓reduceIte] at hx1 hxc hxb
    refine ⟨hxc, hxb, ?_, hx1⟩
    simp [ro, hw, protect, update_c0, h0]

theorem Stored.committed (h : v.Stored c s) (hm : v.Mapped) (hs : s ≠ [])
    (hrun : (v.ro .secondRun).stores .secondRun s = some v₂) :
    v₂.agrees = true ∧ v₂.cmp.commit.Still (applyStores c s) := by
  obtain ⟨-, hbase, h0, h1⟩ := h.ro_second
  obtain ⟨-, w', hopen, rfl⟩ : s ≠ [] ∧ ∃ w', (v.ro .secondRun).opened .secondRun = some w' ∧
      v₂ = w'.written s := by
    rcases stores_cases hm.ro hrun with ⟨hnil, -⟩ | hstored
    · exact absurd hnil hs
    · exact hstored
  obtain ⟨hslot, hc2⟩ := opened_second hopen
  have hc1 : w'.c1 = some (applyStores c s) := by rw [(opened_keeps hopen).1, h1]
  have hcontent := opened_content hopen
  rw [hbase] at hcontent
  obtain ⟨c2, hc2⟩ := isSome_iff_exists.mp hc2
  have hc : c2 = c := by simpa [View.content, hslot, hc2] using hcontent
  subst hc
  have hw1 : (w'.written s).c1 = some (applyStores c2 s) := by
    simp [written, setContent, View.content, hslot, hc1]
  have hw2 : (w'.written s).c2 = some (applyStores c2 s) := by
    simp [written, setContent, View.content, hslot, hc2]
  refine ⟨by simp [agrees, hw1, hw2], ?_⟩
  obtain ⟨b, hcmp⟩ := cmp_eq (w'.written s)
  rw [hcmp]
  have hdirty : (w'.written s).dirty = true := rfl
  refine ⟨?_, ?_, ?_⟩ <;> simp [commit, commitCopy, View.content, hw1, hw2, hdirty]

theorem Still.committed (h : v.Still c) (hpf : v.flags.hgetPf = false) (hd : v.dirty = false) :
    v.agrees = true ∧ v.cmp.commit.Still c := by
  obtain ⟨h0, -, hframes⟩ := h
  refine ⟨?_, ?_⟩
  · unfold agrees compared
    cases hboth : v.both with
    | false => rfl
    | true => simp [hframes hboth]
  obtain ⟨b, hcmp⟩ := cmp_eq v
  rw [hcmp]
  refine ⟨?_, ?_, fun hboth => ?_⟩
  · simp [commit, commitCopy, hpf, hd, h0]
  · simp [commit, commitCopy, hpf, hd, h0, View.content]
  · have hboth' : v.both = true := by
      simpa [commit, commitCopy, hpf, hd, both] using hboth
    simpa [commit, commitCopy, hpf, hd] using hframes hboth'

theorem opened_first_keeps {w' : View} (h : w.opened .firstRun = some w') :
    w'.c2 = w.c2 ∧ w'.flags.hToUpdate = w.flags.hToUpdate ∧ w'.flags.hFork = w.flags.hFork ∧
      w'.flags.iwsPfSecond = w.flags.iwsPfSecond ∧
      w'.flags.iwsModKernel = w.flags.iwsModKernel := by
  unfold opened fault at h
  split at h
  · rw [← some.inj h]
    exact ⟨rfl, rfl, rfl, rfl, rfl⟩
  · simp only [↓reduceIte, PmbFlags.fault] at h
    split_ifs at h <;> rw [← some.inj h] <;> exact ⟨rfl, rfl, rfl, rfl, rfl⟩

theorem opened_second_fork (hw : v.write = true) (hboth : v.both = true)
    (hfork : v.flags.hFork = true) (hkept : v.kept .secondRun = false) :
    (v.ro .secondRun).opened .secondRun = none := by
  simp only [both, and_eq_true] at hboth
  have hupdate : v.update.both = true ∧ v.update.flags.hFork = true ∧
      v.update.kept .secondRun = false := by
    unfold update
    split_ifs
    · refine ⟨rfl, hfork, ?_⟩
      simpa [kept, synced, hboth.2] using hkept
    · exact ⟨by simp [both, hboth], hfork, hkept⟩
  obtain ⟨hboth', hfork', hkept'⟩ := hupdate
  have hwrite : (v.ro .secondRun).write = false := by simp [ro, hw, protect, hkept']
  have hfault : (v.ro .secondRun).fault .secondRun = none := by
    have hb : (v.ro .secondRun).both = true := by
      simpa [ro, hw, protect, both] using hboth'
    have hf : (v.ro .secondRun).flags.hFork = true := by simpa [ro, hw, protect] using hfork'
    simp [fault, hb, hf]
  simp [opened, hwrite, hfault]

theorem opened_second_both (hw : v.write = true) (hboth : v.both = true)
    (hfork : v.flags.hFork = true → v.kept .secondRun = true) :
    ∃ w, (v.ro .secondRun).opened .secondRun = some w := by
  simp only [both, and_eq_true] at hboth
  have hupdate : v.update.both = true ∧ v.update.flags.hFork = v.flags.hFork ∧
      v.update.kept .secondRun = v.kept .secondRun := by
    unfold update
    split_ifs
    · exact ⟨rfl, rfl, by simp [kept, synced, hboth.2]⟩
    · exact ⟨by simp [both, hboth], rfl, rfl⟩
  obtain ⟨hboth', hfork', hkept'⟩ := hupdate
  have hb : (v.ro .secondRun).both = true := by simpa [ro, hw, protect, both] using hboth'
  have hf : (v.ro .secondRun).flags.hFork = v.flags.hFork := by
    simpa [ro, hw, protect] using hfork'
  have hwrite : (v.ro .secondRun).write = v.kept .secondRun := by
    simp [ro, hw, protect, update_write, hkept']
  unfold opened
  split_ifs with hopen
  · exact ⟨_, rfl⟩
  cases hfk : v.flags.hFork with
  | true =>
    rw [hwrite, hfork hfk] at hopen
    simp at hopen
  | false =>
    rw [hfk] at hf
    simp [fault, hb, hf]

theorem agrees_ended {w₂ : View} {b : PageData} (hm : w.Mapped) (hslot : w.slot = .us1)
    (h0 : w.c0 = c) (h1 : w.c1 = some c) (h2 : w.c2 = some b) (hw : w.write = true) (hs : s ≠ [])
    (hopen : ((w.ended s).ro .secondRun).opened .secondRun = some w₂)
    (hag : (w₂.written s).agrees = true) :
    if w.flags.hToUpdate then c = applyStores c s else applyStores c s = applyStores b s := by
  have he : (w.ended s).c1 = some (applyStores c s) ∧ (w.ended s).c2 = some b ∧
      (w.ended s).c0 = c ∧ (w.ended s).write = true ∧
      (w.ended s).flags.hToUpdate = w.flags.hToUpdate := by
    simp [ended, written, setContent, content, hslot, h0, h1, h2, hw]
  obtain ⟨he1, he2, he0, hew, heup⟩ := he
  have hm' := ended_mapped hm s
  have hrun : ((w.ended s).ro .secondRun).stores .secondRun s = some (w₂.written s) := by
    rw [stores_eq _ hm'.ro, if_neg hs, hopen]
    rfl
  obtain ⟨hx1, -, -, hxb⟩ := View.ro_second he1 he2 hew
  have hc1 : ((w.ended s).ro .secondRun).c1.isSome = true := by rw [hx1]; rfl
  have heq := ((agrees_iff hm' hc1 rfl hrun).mp hag).2 hs
  rw [((second_run hm' rfl (fun _ => rfl) hrun).2 hs).1, hx1, hxb, he0, heup, some.injEq] at heq
  cases hup : w.flags.hToUpdate <;> simpa [hup] using heq

theorem opened_not_both (hw : v.write = false) (hboth : v.both = false) (step : HStep) :
    ∃ w, v.opened step = some w := by
  unfold opened fault
  rw [hw, hboth]
  by_cases hstep : step = .firstRun
  · exact ⟨_, by simp only [hstep, false_eq_true, ↓reduceIte]; rfl⟩
  · exact ⟨_, by simp only [hstep, false_eq_true, ↓reduceIte]; rfl⟩

theorem opened_onlySecond (hs : u.slot = .us0) (h1 : u.c1 = none) :
    ∃ w, (u.ro .firstRun).opened .firstRun = some w ∧ w.slot = .us1 ∧ w.c0 = u.c0 ∧
      w.c1 = some u.c0 ∧ w.c2 = u.c2 ∧ w.flags = u.flags.fault .firstRun := by
  obtain ⟨f, slot, write, dirty, c0, c1, c2⟩ := u
  simp only at hs h1
  subst hs h1
  cases write <;>
    simp [ro, protect, update, both, startSlot, kept, opened, fault]

theorem ro_not_both (step : HStep) (hboth : u.both = false) : (u.ro step).both = false := by
  have hsame : u.update = u := by simp [update, hboth]
  unfold ro
  split
  · rw [hsame]
    exact hboth
  · exact hboth

section

variable (hs : u.slot = .us0) (hpf : u.flags.hgetPf = false) (hd : u.write = false → u.dirty = false)
  (hin : u.InStep) (hl : u.Lossless noMem) (hmem : noMem → u.both = false → s = [])
  (hrun₁ : (u.ro .firstRun).stores .firstRun s = some v₁)
  (hrun₂ : (v₁.endFirst.ro .secondRun).stores .secondRun s = some v₂)

include hs hpf hd hin hl hmem hrun₁ hrun₂

theorem stored_first (hne : s ≠ []) : v₁.endFirst.Stored u.c0 s ∧ v₁.endFirst.Mapped := by
  have hm : u.Mapped := ⟨fun h => by simp [hs] at h, fun h => by simp [hs] at h⟩
  have hstill := still_first hs hin hl
  obtain ⟨-, w', hopen, -, hend⟩ := (first_run hm hpf hd hrun₁).2 hne
  have hcontent := opened_content hopen
  rw [hstill.base_eq] at hcontent
  -- the stores of the first run go to `us1`
  have hrest : u.Restorable := by
    refine ⟨fun _ hboth hup => ?_, fun hc2 => ?_⟩
    · obtain hno | ⟨h1, -⟩ := hin hboth
      · rw [hup] at hno
        simp at hno
      · exact h1
    · rcases hl.onlyFirst hc2 with hno | hclosed
      · exact absurd (hmem hno (by simp [both, hc2])) hne
      · exact hclosed
  have hslot := opened_first_slot hrest hopen
  have hc0 : w'.c0 = u.c0 := by rw [opened_c0 hopen, hstill.us0]
  obtain ⟨c1, hc1⟩ := isSome_iff_exists.mp (opened_first hopen)
  have hc1' : c1 = u.c0 := by simpa [content, hslot, hc1] using hcontent
  subst hc1'
  obtain ⟨hk2, hkup, hkfork, hksecond, hkmod⟩ := opened_first_keeps hopen
  have hended : (w'.ended s).c0 = u.c0 ∧ (w'.ended s).c1 = some (applyStores u.c0 s) ∧
      (w'.ended s).c2 = (u.ro .firstRun).c2 ∧
      (w'.ended s).flags.hToUpdate = (u.ro .firstRun).flags.hToUpdate := by
    simp [ended, written, setContent, content, hslot, hc1, hc0, hk2, hkup]
  obtain ⟨he0, he1, he2, heup⟩ := hended
  have hew : (w'.ended s).write = true := by simpa [ended, written] using opened_write hopen
  rw [hend] at hrun₂ ⊢
  refine ⟨⟨he0, he1, ?_, hew, rfl⟩, ended_mapped (hm.ro.opened hopen) s⟩
  rw [he2, heup]
  cases hc2 : (u.ro .firstRun).c2 with
  | none => exact .inl rfl
  | some c2 =>
    right
    cases hboth : (u.ro .firstRun).both with
    | true =>
      have hc := (hstill.frames hboth).2
      rw [hc2] at hc
      refine ⟨hc, ?_⟩
      -- the label is gone, or the page is read-only and was opened by a fault
      cases hw : u.write with
      | true =>
        have hro : u.ro .firstRun = u.update.protect .firstRun := by simp [ro, hw]
        rw [hro] at hboth hc2 ⊢
        obtain ⟨c1, h1⟩ : ∃ c1, u.update.c1 = some c1 := by
          simp only [both, and_eq_true] at hboth
          exact isSome_iff_exists.mp hboth.1
        have hkeeps : u.update.flags.hToUpdate = false ∧
            u.update.kept .firstRun = u.kept .firstRun := update_keeps h1 hc2
        exact hkeeps.1
      | false =>
        have hro : u.ro .firstRun = u := by simp [ro, hw]
        rw [hro] at hboth hopen ⊢
        obtain ⟨-, -, hfork | hup⟩ := hl.closed hboth hw
        · simp [opened, fault, hw, hboth, hfork] at hopen
        · exact hup
    | false =>
      -- the page had no frame `us1`
      have h1 : (u.ro .firstRun).c1 = none := by
        simpa [both, hc2] using hboth
      have hsame : u.update = u := by
        unfold update
        split_ifs with hcond
        · simp only [ro, hcond, protect, update] at h1
          split_ifs at h1 with hw
          · simp [synced] at h1
          · simp [both, h1] at hcond
        · rfl
      have hflags : (u.ro .firstRun).flags = u.flags ∧ (u.ro .firstRun).c1 = u.c1 ∧
          (u.ro .firstRun).c2 = u.c2 := by
        unfold ro
        split_ifs
        · rw [hsame]
          exact ⟨rfl, rfl, rfl⟩
        · exact ⟨rfl, rfl, rfl⟩
      rw [hflags.1]
      rw [hflags.2.1] at h1
      rw [hflags.2.2] at hc2
      rcases hl.onlySecond h1 c2 hc2 with hno | ⟨hfork, hkept⟩ | ⟨hup, hc⟩
      · exact absurd (hmem hno (by simp [both, h1])) hne
      · -- the second run cannot open the page
        have hnone : ((w'.ended s).ro .secondRun).opened .secondRun = none := by
          refine opened_second_fork hew ?_ ?_ ?_
          · simp [both, he1, he2, hflags.2.2, hc2]
          · have hf : (w'.ended s).flags.hFork = w'.flags.hFork := rfl
            rw [hf, hkfork, hflags.1]
            exact hfork
          · have hf : (w'.ended s).flags.iwsPfSecond = w'.flags.iwsPfSecond ∧
                (w'.ended s).flags.iwsModKernel = w'.flags.iwsModKernel := ⟨rfl, rfl⟩
            simp only [kept, reduceCtorEq, ↓reduceIte, hf, hksecond, hkmod, he2, hflags] at hkept ⊢
            exact hkept
        rw [stores_eq _ (ended_mapped (hm.ro.opened hopen) s).ro, if_neg hne, hnone] at hrun₂
        simp at hrun₂
      · exact ⟨by rw [hc], hup⟩

theorem lossless_runs :
    (v₁.endFirst.ro .secondRun).content = u.c0 ∧ (v₁.endFirst.ro .secondRun).Steady .secondRun ∧
      v₂.agrees = true ∧ v₂.cmp.commit.Still (applyStores u.c0 s) := by
  have hm : u.Mapped := ⟨fun h => by simp [hs] at h, fun h => by simp [hs] at h⟩
  by_cases hne : s = []
  · subst hne
    obtain ⟨rfl, hend⟩ := (first_run hm hpf hd hrun₁).1 rfl
    rw [hend] at hrun₂ ⊢
    have hstill := (still_first hs hin hl).ro_second ro_first_write
    obtain rfl : (u.ro .firstRun).ro .secondRun = v₂ := some.inj hrun₂
    obtain ⟨hpf1, hd1, -⟩ := ro_clean .firstRun hpf hd
    obtain ⟨hpf2, hd2, -⟩ := ro_clean .secondRun hpf1 (fun _ => hd1)
    exact ⟨hstill.content, hstill.steady, hstill.committed hpf2 hd2⟩
  · obtain ⟨hstored, hm1⟩ := stored_first hs hpf hd hin hl hmem hrun₁ hrun₂ hne
    obtain ⟨hcontent, hbase, -⟩ := hstored.ro_second
    refine ⟨hcontent, fun v' hopen => ?_, hstored.committed hm1 hne hrun₂⟩
    rw [opened_content hopen, hbase, hcontent]

end

end View

/-! ## The process -/

variable {k k' k₀ k₁ k₂ k₃ : Kernel} {p : ProcNr} {i : Fin workingSetSize}
  {L : List (Fin workingSetSize)} {ops : List UserOp} {t₁ t₂ : Trap} {rs₁ rs₂ : List UInt8}

/-- The memory of `p` before the element: the images in `us0`, and what the other pages show. -/
def us0Memory (k : Kernel) (p : ProcNr) (L : List (Fin workingSetSize)) : PlainMemory := fun pg =>
  match L.find? (fun i => pageOf (k.workingSet i).vaddr == pg) with
  | some i => us0Data k i
  | none => k.mem ((k.procs p).pt.pte pg).pfa

theorem us0Memory_page (h : PeInv k p L) (hi : i ∈ L) :
    us0Memory k p L (pageOf (k.workingSet i).vaddr) = us0Data k i := by
  unfold us0Memory
  cases hfind : L.find? (fun j => pageOf (k.workingSet j).vaddr == pageOf (k.workingSet i).vaddr) with
  | none =>
    have hno := List.find?_eq_none.mp hfind i hi
    simp at hno
  | some j =>
    have hpage := List.find?_some hfind
    have hj := mem_of_find?_eq_some hfind
    rw [beq_iff_eq] at hpage
    rw [h.eq_of_page hj hi hpage]

theorem us0Memory_outside {v : VirBytes} (hv : Outside k L v) :
    us0Memory k p L (pageOf v) = visible k p v := by
  unfold us0Memory
  have hnone : L.find? (fun j => pageOf (k.workingSet j).vaddr == pageOf v) = none := by
    rw [List.find?_eq_none]
    intro i hi heq
    exact hv i hi (beq_iff_eq.mp heq)
  rw [hnone]
  rfl

/-- No difference is found, the loads return the bytes of the plain execution, and the commit leaves
its memory in `us0`, mapped and in step. It can stop only on an event for a shared region. -/
structure Transparent (k : Kernel) (p : ProcNr) (L : List (Fin workingSetSize))
    (ops : List UserOp) (t₂ : Trap) (rs₁ rs₂ : List UInt8) (k₂ : Kernel) : Prop where
  agrees : ∃ k', cmpMem { k₂ with ctx2 := saveCopy2 t₂ } p = some (k', true)
  loads₁ : rs₁ = (plainRun (us0Memory k p L) ops).2
  loads₂ : rs₂ = (plainRun (us0Memory k p L) ops).2
  returns : (k.procs p).nbHardeningSharedRegions ≤ 0 →
    ∀ sameIns, ∃ k₃, hardeningTask k₂ p t₂ sameIns = some (k₃, .committed)
  commits : ∀ sameIns k₃ e, hardeningTask k₂ p t₂ sameIns = some (k₃, e) → e = .committed
  committed : ∀ sameIns k₃ e, hardeningTask k₂ p t₂ sameIns = some (k₃, e) → ∀ i ∈ L,
    us0Data k₃ i = (plainRun (us0Memory k p L) ops).1 (pageOf (k.workingSet i).vaddr) ∧
      (k₃.workingSet i).us0 = some (k₃.getPte p (k₃.workingSet i).vaddr).pfa ∧
      ∀ f₁ f₂, (k₃.workingSet i).us1 = some f₁ → (k₃.workingSet i).us2 = some f₂ →
        k₃.mem f₁ = us0Data k₃ i ∧ k₃.mem f₂ = us0Data k₃ i

/-- Every sequence that both runs complete, and end in the same way, is executed transparently. -/
def TransparentFrom (k : Kernel) (p : ProcNr) (L : List (Fin workingSetSize)) : Prop :=
  ∀ ops t₁ t₂ k₁ rs₁ k₂ rs₂, runFirst k p ops = some (k₁, rs₁) →
    runSecond k₁ p t₁ ops = some (k₂, rs₂) → cmpTraps t₁ t₂ = true →
    Transparent k p L ops t₂ rs₁ rs₂ k₂

theorem hardeningTask_agrees {sameIns : Bool} (hin : InRun k p L .secondRun)
    (hctx : k.ctx1 = saveCopy1 t₁) (htraps : cmpTraps t₁ t₂ = true)
    (hcmp : cmpMem { k with ctx2 := saveCopy2 t₂ } p = some (k', true)) :
    hardeningTask k p t₂ sameIns =
      (vmResetPram k' p .cpyRamPram).map (fun k => (resetHardenedRun k, .committed)) := by
  have hreg : cmpReg t₂.entry.origin k.ctx1 (saveCopy2 t₂) = true := by
    rw [hctx]
    exact htraps
  rw [hardeningTask_second hin, if_neg (by simp [hreg]), cmpStep, if_pos hreg, hcmp]
  simp only
  cases vmResetPram k' p .cpyRamPram <;> rfl

theorem committed_page {c : PageData} (hok : PageOk k p i) (hslot : (view k p i).slot = .us0)
    (hstill : (view k p i).Still c) :
    us0Data k i = c ∧ (k.workingSet i).us0 = some (k.getPte p (k.workingSet i).vaddr).pfa ∧
      ∀ f₁ f₂, (k.workingSet i).us1 = some f₁ → (k.workingSet i).us2 = some f₂ →
        k.mem f₁ = us0Data k i ∧ k.mem f₂ = us0Data k i := by
  have hus0 : us0Data k i = c := hstill.us0
  refine ⟨hus0, ?_, fun f₁ f₂ h1 h2 => ?_⟩
  · obtain ⟨f0, h0⟩ := hok.us0
    have hmapped := hok.mapped
    have hno : (k.workingSet i).us1 ≠ some (k.getPte p (k.workingSet i).vaddr).pfa ∧
        (k.workingSet i).us2 ≠ some (k.getPte p (k.workingSet i).vaddr).pfa := by
      simp only [view, viewOf] at hslot
      split_ifs at hslot with h1 h2
      exact ⟨h1, h2⟩
    simp only [framesOf, mem_append, mem_toList] at hmapped
    tauto
  have hboth : (view k p i).both = true := by simp [View.both, view, viewOf, h1, h2]
  have hframes := hstill.frames hboth
  simp only [view, viewOf, h1, h2, map_some, some.injEq] at hframes
  rw [hus0]
  exact hframes

theorem noMem_stores (h : PeReady k p L) (hb : Begun k p L k₀) (hstart : startDwc k p = some k₀)
    (hi : i ∈ L) (hmem : k.freeMem = []) (hboth : (startView k p i).both = false)
    (huser₁ : userRun k₀ p ops = some (k₁, rs₁)) (hagain : Again k₁ p L t₁ k')
    (huser₂ : userRun k' p ops = some (k₂, rs₂)) : pageStores k i ops = [] := by
  have hmem0 : k₀.freeMem = [] := by rw [freeMem_startDwc hstart, hmem]
  obtain ⟨hinv1, ha1, hviews1⟩ := userRun_view hb.inRun.inv huser₁
  have hv1 : ((startView k p i).ro .firstRun).stores .firstRun (pageStores k i ops) =
      some (view k₁ p i) := by
    rw [← hb.views i hi, ← hviews1 i hi, hb.inRun.step, ← hb.outer.same.pageStores_eq]
    rfl
  have hclean := startView_clean h hi
  by_contra hne
  obtain ⟨-, w', hopen, hc1, hend⟩ :=
    (View.first_run (startView_mapped h hi) hclean.2.1 hclean.2.2 hv1).2 hne
  cases hw : ((startView k p i).ro .firstRun).write with
  | false =>
    -- the first run would have to open the page
    refine hne ?_
    rw [← hb.outer.same.pageStores_eq]
    refine storesOn_eq_nil hb.inRun.inv hi hmem0 (by rw [hb.views i hi]; exact hw) ?_ huser₁
    rw [hb.views i hi]
    exact View.ro_not_both .firstRun hboth
  | true =>
    -- the first run may store to `us0`, but then the second would have to open the page
    have hw' : w' = (startView k p i).ro .firstRun := by
      simpa [View.opened, hw] using hopen.symm
    have hc2 : ((startView k p i).ro .firstRun).c2 = none := by
      have hnot := View.ro_not_both .firstRun hboth
      rw [hw'] at hc1
      simpa [View.both, hc1] using hnot
    have hview : view k' p i = (w'.ended (pageStores k i ops)).ro .secondRun := by
      rw [hagain.views i hi, hend]
    have hk2 : (w'.ended (pageStores k i ops)).c2 = none := by
      rw [hw']
      unfold View.ended View.written View.setContent
      cases hslot : ((startView k p i).ro .firstRun).slot <;> simp [hc2]
    have hsame1 := (hb.outer.same.trans ha1.same).trans hagain.outer.same
    refine hne ?_
    rw [← hsame1.pageStores_eq]
    have hmem' : k'.freeMem = [] := by
      have hsuffix := ha1.freeMem
      rw [hmem0, suffix_nil] at hsuffix
      have hsuffix' := hagain.outer.freeMem
      rw [hsuffix] at hsuffix'
      exact suffix_nil.mp hsuffix'
    have hnot : (w'.ended (pageStores k i ops)).both = false := by simp [View.both, hk2]
    have hclosed : (view k' p i).write = false := by
      have hup : (w'.ended (pageStores k i ops)).update = w'.ended (pageStores k i ops) := by
        simp [View.update, hnot]
      rw [hview, View.ro]
      split_ifs with hopen'
      · rw [hup]
        simp [View.protect, View.kept, hk2]
      · simpa using hopen'
    have hboth' : (view k' p i).both = false := by
      rw [hview]
      exact View.ro_not_both .secondRun hnot
    exact storesOn_eq_nil hagain.inRun.inv hi hmem' hclosed hboth' huser₂

theorem transparentFrom_of_lossless (h : PeReady k p L) (hstart : startDwc k p = some k₀)
    (hb : Begun k p L k₀) (hin : ∀ i ∈ L, (startView k p i).InStep)
    (hl : ∀ i ∈ L, (startView k p i).Lossless (k.freeMem = []))
    (hclosed : ∀ v, Outside k L v → k.canStore p v = false) : TransparentFrom k p L := by
  have hshut : ∀ k', Outer p L k k' → ∀ v, Outside k' L v → k'.canStore p v = false := by
    intro k' hout v hv
    rw [hout.outside_iff] at hv
    rw [hout.canStore_eq hv]
    exact hclosed v hv
  -- what the pages outside the working set show
  have hshows : ∀ k', Outer p L k k' → ∀ v, Outside k' L v → (k'.getPte p v).present = true →
      visible k' p v = us0Memory k p L (pageOf v) := by
    intro k' hout v hv hpres
    rw [hout.outside_iff] at hv
    rw [hout.outPte v hv] at hpres
    rw [us0Memory_outside hv, hout.outVisible v hv hpres]
  intro ops t₁ t₂ k₁ rs₁ k₂ rs₂ hrun₁ hrun₂ htraps
  obtain ⟨k0', hstart', -, huser1, hin1, -, hv1⟩ := runFirst_view h hrun₁
  rw [hstart] at hstart'
  obtain rfl := some.inj hstart'
  obtain ⟨k', hagain, huser2, hin2, hu2, hv2⟩ := runSecond_view hin1 hrun₂
  have ha1 := userRun_around hb.inRun.inv (hshut k₀ hb.outer) huser1
  have hsame1 := hb.outer.same.trans ha1.same
  have hout' := (hb.outer.trans ha1.toOuter).trans hagain.outer
  have ha2 := userRun_around hagain.inRun.inv (hshut k' hout') huser2
  have hpages : ∀ i ∈ L, (view k' p i).content = (startView k p i).c0 ∧
      (view k' p i).Steady .secondRun ∧ (view k₂ p i).agrees = true ∧
      (view k₂ p i).cmp.commit.Still (applyStores (startView k p i).c0 (pageStores k i ops)) := by
    intro i hi
    have hclean := startView_clean h hi
    have hstores2 := hv2 i hi
    rw [hsame1.pageStores_eq] at hstores2
    rw [hagain.views i hi]
    exact View.lossless_runs hclean.1 hclean.2.1 hclean.2.2 (hin i hi) (hl i hi)
      (fun hmem hboth => noMem_stores h hb hstart hi hmem hboth huser1 hagain huser2)
      (hv1 i hi) hstores2
  have hus0 : ∀ i ∈ L, us0Memory k p L (pageOf (k.workingSet i).vaddr) = (startView k p i).c0 := by
    intro i hi
    rw [us0Memory_page h.inv hi, startView_c0]
    rfl
  have hshows0 : Shows k₀ p L (us0Memory k p L) := by
    refine ⟨fun i hi => ?_, hshows k₀ hb.outer⟩
    rw [hb.outer.same.vaddr, hus0 i hi, hb.views i hi]
    exact (View.still_first (startView_clean h hi).1 (hin i hi) (hl i hi)).content
  have hsteady0 : ∀ i ∈ L, (view k₀ p i).Steady k₀.hStep := by
    intro i hi
    rw [hb.inRun.step, hb.views i hi]
    exact (View.still_first (startView_clean h hi).1 (hin i hi) (hl i hi)).steady
  have hshows' : Shows k' p L (us0Memory k p L) := by
    refine ⟨fun i hi => ?_, hshows k' hout'⟩
    rw [hout'.same.vaddr, hus0 i hi]
    exact (hpages i hi).1
  have hsteady' : ∀ i ∈ L, (view k' p i).Steady k'.hStep := by
    intro i hi
    rw [hagain.inRun.step]
    exact (hpages i hi).2.1
  have hctx : k₂.ctx1 = saveCopy1 t₁ := by
    have hrest := congrArg Rest.ctx1 ha2.rest
    exact hrest.trans hagain.ctx1
  have hctx2 := samePages_ctx2 k₂ p t₂
  obtain ⟨k4, r, hcmp, hinv4, ha4, hr, -⟩ := cmpMem_view (hctx2.peInv hin2.inv)
  have hr : r = true := by
    rw [hr]
    intro i hi
    rw [hctx2.view_eq]
    exact (hpages i hi).2.2.1
  subst hr
  have htask : ∀ sameIns, hardeningTask k₂ p t₂ sameIns =
      (vmResetPram k4 p .cpyRamPram).map (fun k => (resetHardenedRun k, .committed)) :=
    fun sameIns => hardeningTask_agrees hin2 hctx htraps hcmp
  have hcommits : ∀ sameIns k₃ e, hardeningTask k₂ p t₂ sameIns = some (k₃, e) →
      e = .committed := by
    intro sameIns k₃ e hrun
    rw [htask] at hrun
    obtain ⟨k5, -, heq⟩ := map_eq_some_iff.mp hrun
    exact (Prod.mk.inj heq).2.symm
  refine ⟨⟨k4, hcmp⟩, ?_, ?_, fun hnb sameIns => ?_, hcommits, fun sameIns k₃ e hrun i hi => ?_⟩
  · exact userRun_plain hb.inRun.inv (hshut k₀ hb.outer) hsteady0 hshows0 huser1
  · exact userRun_plain hagain.inRun.inv (hshut k' hout') hsteady' hshows' huser2
  · have hnb4 : (k4.procs p).nbHardeningSharedRegions ≤ 0 := by
      have h4 := congrArg Rest.nbHardeningSharedRegions ha4.rest
      have h2 := congrArg Rest.nbHardeningSharedRegions ha2.rest
      have h1 := congrArg Rest.nbHardeningSharedRegions ha1.rest
      have heq : (k4.procs p).nbHardeningSharedRegions = (k.procs p).nbHardeningSharedRegions :=
        (h4.trans h2).trans (hagain.sharing.trans (Eq.trans h1 hb.sharing))
      rw [heq]
      exact hnb
    obtain ⟨k5, hreset⟩ := vmResetPram_commit_total hinv4 h.user
      (ha4.hStep_eq.trans hin2.step) (.inl hnb4)
    exact ⟨resetHardenedRun k5, by rw [htask, hreset]; rfl⟩
  obtain rfl := hcommits sameIns k₃ e hrun
  obtain ⟨hinv3, hout3, hv3⟩ := hardeningTask_committed hin2 hrun
  have hstill := (hpages i hi).2.2.2
  rw [← (hv3 i hi).2] at hstill
  have hslot : (view k₃ p i).slot = .us0 := by
    rw [(hv3 i hi).2]
    rfl
  obtain ⟨h0, hmaps, hframes⟩ := committed_page (hinv3.pages i hi) hslot hstill
  refine ⟨?_, hmaps, hframes⟩
  rw [h0, plainRun_page, hus0 i hi]
  rfl

/-! ## The condition is needed -/

theorem userRun_loadStore {v : VirBytes} {w : View} (h : PeInv k p L) (hi : i ∈ L)
    (hv : pageOf (k.workingSet i).vaddr = pageOf v) (b : UInt8)
    (hopen : (view k p i).opened k.hStep = some w)
    (hmem : (view k p i).both = false → k.freeMem ≠ []) :
    ∃ k', userRun k p [.load v, .store v b] = some (k', [(view k p i).content (pageOffset v)]) := by
  rcases perform_store h hi hv b with ⟨-, hno | ⟨hempty, hboth⟩⟩ | ⟨k', v', hsome, -⟩
  · rw [View.store_eq, hopen] at hno
    simp at hno
  · exact absurd hempty (hmem hboth)
  · refine ⟨k', ?_⟩
    simp [userRun, perform_load (h.pages i hi) hv, hsome]

theorem exists_address (w : VirBytes) (o : Fin 4096) :
    ∃ v, pageOf w = pageOf v ∧ pageOffset v = o := by
  refine ⟨w / 4096 * 4096 + o.val, ?_, ?_⟩
  · have ho := o.isLt
    unfold pageOf pdeOf pteOf
    omega
  · apply Fin.ext
    simp only [pageOffset]
    omega

theorem pageStores_loadStore {v : VirBytes} (hv : pageOf (k.workingSet i).vaddr = pageOf v)
    (b : UInt8) : pageStores k i [.load v, .store v b] = [(pageOffset v, b)] := by
  simp [pageStores, storesOn, hv]

section

variable (hstart : startDwc k p = some k₀) (hb : Begun k p L k₀) (ht : TransparentFrom k p L)

include hstart hb ht

theorem TransparentFrom.second (huser₁ : userRun k₀ p ops = some (k₁, rs₁)) :
    ∃ k', Again k₁ p L default k' ∧ k'.freeMem = k₁.freeMem ∧
      ∀ k₂ rs₂, userRun k' p ops = some (k₂, rs₂) →
        InRun k₂ p L .secondRun ∧ k₂.ctx1 = saveCopy1 default ∧
          Transparent k p L ops default rs₁ rs₂ k₂ := by
  have hrun₁ : runFirst k p ops = some (k₁, rs₁) := by
    rw [runFirst, hstart]
    exact huser₁
  obtain ⟨hinv1, ha1, -⟩ := userRun_view hb.inRun.inv huser₁
  have hin1 := hb.inRun.of_rest hinv1 ha1.rest
  have hrts : k₁.copy0.rtsFlags = 0 := by
    have hcopy := congrArg Rest.copy0 ha1.rest
    have hcopy' : k₁.copy0 = k₀.copy0 := hcopy
    rw [hcopy', hb.rts]
  obtain ⟨k₃, htask, ⟨-, hno⟩ | ⟨k', hagain', -, hagain⟩⟩ := startDwc_second hin1 default
  · exact absurd hrts hno
  refine ⟨k', hagain, ?_, fun k₂ rs₂ huser2 => ⟨?_, ?_, ?_⟩⟩
  · rw [freeMem_startDwc hagain', freeMem_endFirst hin1.step htask]
  · obtain ⟨hinv2, ha2, -⟩ := userRun_view hagain.inRun.inv huser2
    exact hagain.inRun.of_rest hinv2 ha2.rest
  · have hrest := congrArg Rest.ctx1 (userRun_view hagain.inRun.inv huser2).2.1.rest
    exact hrest.trans hagain.ctx1
  · refine ht ops default default k₁ rs₁ k₂ rs₂ hrun₁ ?_ (by decide)
    rw [runSecond, htask]
    simp only [hagain']
    exact huser2

/-- A load and a store that both runs can make: the page of the second run agrees with that of the
first, and its load reads `us0`. -/
theorem TransparentFrom.page (h : PeReady k p L) (hi : i ∈ L) {v : VirBytes}
    (hv : pageOf (k.workingSet i).vaddr = pageOf v) (b : UInt8) {w w₂ : View}
    (hopen : ((startView k p i).ro .firstRun).opened .firstRun = some w)
    (hopen₂ : ((w.ended [(pageOffset v, b)]).ro .secondRun).opened .secondRun = some w₂)
    (hmem : ((startView k p i).ro .firstRun).both = false → k.freeMem ≠ [])
    (hmem₂ : ((w.ended [(pageOffset v, b)]).ro .secondRun).both = true ∨
      ((startView k p i).ro .firstRun).write = true ∧ k.freeMem ≠ []) :
    (w₂.written [(pageOffset v, b)]).agrees = true ∧
      ((w.ended [(pageOffset v, b)]).ro .secondRun).content (pageOffset v) =
        (startView k p i).c0 (pageOffset v) := by
  have hclean := startView_clean h hi
  have hm := startView_mapped h hi
  have hv0 : pageOf (k₀.workingSet i).vaddr = pageOf v := by rw [hb.outer.same.vaddr]; exact hv
  have hfree0 := freeMem_startDwc hstart
  obtain ⟨k₁, huser1⟩ := userRun_loadStore hb.inRun.inv hi hv0 b
    (by rw [hb.inRun.step, hb.views i hi]; exact hopen)
    (by rw [hb.views i hi, hfree0]; exact hmem)
  obtain ⟨hinv1, ha1, hviews1⟩ := userRun_view hb.inRun.inv huser1
  have hview1 := hviews1 i hi
  rw [hb.views i hi, hb.inRun.step] at hview1
  have hstores : storesOn (pageOf (k₀.workingSet i).vaddr) [.load v, .store v b] =
      [(pageOffset v, b)] := pageStores_loadStore hv0 b
  rw [hstores] at hview1
  obtain ⟨-, w', hopen', -, hend⟩ := (View.first_run hm hclean.2.1 hclean.2.2 hview1).2 (by simp)
  rw [hopen] at hopen'
  obtain rfl := some.inj hopen'
  obtain ⟨k', hagain, hfree, hsecond⟩ := ht.second hstart hb huser1
  have hview' : view k' p i = (w.ended [(pageOffset v, b)]).ro .secondRun := by
    rw [hagain.views i hi, hend]
  have hsame' := (hb.outer.same.trans ha1.same).trans hagain.outer.same
  have hv' : pageOf (k'.workingSet i).vaddr = pageOf v := by rw [hsame'.vaddr]; exact hv
  have hmem' : (view k' p i).both = false → k'.freeMem ≠ [] := by
    intro hnot
    rw [hview'] at hnot
    rcases hmem₂ with hboth | ⟨hw, hne⟩
    · rw [hboth] at hnot
      simp at hnot
    -- an open page takes no frame in the first run
    have hcan : k₀.canStore p v = true := by
      rw [((hb.inRun.inv.pages i hi).allowed hv0).2, hb.views i hi]
      exact hw
    have hperform : perform k₀ p (.store v b) = some (k₀.storeByte p v b, []) := by
      simp [perform, UserOp.allowed, hcan, UserOp.exec]
    have hstore : userRun k₀ p [.load v, .store v b] = some (k₀.storeByte p v b,
        [(view k₀ p i).content (pageOffset v)]) := by
      simp [userRun, perform_load (hb.inRun.inv.pages i hi) hv0, hperform]
    rw [huser1] at hstore
    obtain ⟨rfl, -⟩ := Prod.mk.inj (some.inj hstore)
    have hkeep : (k₀.storeByte p v b).freeMem = k₀.freeMem := rfl
    rw [hfree, hkeep, hfree0]
    exact hne
  obtain ⟨k₂, huser2⟩ := userRun_loadStore hagain.inRun.inv hi hv' b
    (by rw [hagain.inRun.step, hview']; exact hopen₂) hmem'
  obtain ⟨hin2, -, htr⟩ := hsecond k₂ _ huser2
  have hview2 := (userRun_view hagain.inRun.inv huser2).2.2 i hi
  have hstores' : storesOn (pageOf (k'.workingSet i).vaddr) [.load v, .store v b] =
      [(pageOffset v, b)] := pageStores_loadStore hv' b
  have hpage : view k₂ p i = w₂.written [(pageOffset v, b)] := by
    rw [hstores', hagain.inRun.step, View.stores_eq _ (view_mapped k' p i), hview', hopen₂] at hview2
    simpa using hview2.symm
  refine ⟨?_, ?_⟩
  · obtain ⟨k₃, hcmp⟩ := htr.agrees
    have hctx2 := samePages_ctx2 k₂ p default
    obtain ⟨k4, r, hcmp', -, -, hr, -⟩ := cmpMem_view (hctx2.peInv hin2.inv)
    rw [hcmp] at hcmp'
    have hall := hr.mp (Prod.mk.inj (some.inj hcmp')).2.symm i hi
    rw [hctx2.view_eq, hpage] at hall
    exact hall
  have hload := htr.loads₂
  have hplain : (plainRun (us0Memory k p L) [.load v, .store v b]).2 =
      [us0Memory k p L (pageOf v) (pageOffset v)] := rfl
  rw [hplain, hview', ← hv, us0Memory_page h.inv hi] at hload
  rw [startView_c0]
  exact singleton_inj.mp hload

theorem TransparentFrom.stored (h : PeReady k p L) (hi : i ∈ L) {w : View} {b : PageData}
    (hopen : ((startView k p i).ro .firstRun).opened .firstRun = some w) (hslot : w.slot = .us1)
    (h0 : w.c0 = (startView k p i).c0) (h1 : w.c1 = some (startView k p i).c0)
    (h2 : w.c2 = some b) (hfork : w.flags.hFork = true → w.kept .secondRun = true)
    (hmem : ((startView k p i).ro .firstRun).both = false → k.freeMem ≠ []) :
    w.flags.hToUpdate = false ∧ b = (startView k p i).c0 := by
  have hw := View.opened_write hopen
  have hm := (startView_mapped h hi).ro.opened hopen
  -- what one store at any place of the page tells
  have hany : ∀ (o : Fin 4096) (x : UInt8), if w.flags.hToUpdate then
      (startView k p i).c0 = update (startView k p i).c0 o x
      else update (startView k p i).c0 o x = update b o x := by
    intro o x
    obtain ⟨v, hv, rfl⟩ := exists_address (k.workingSet i).vaddr o
    have hboth : (w.ended [(pageOffset v, x)]).both = true := by
      simp [View.both, View.ended, View.written, View.setContent, hslot, h1, h2]
    have hew : (w.ended [(pageOffset v, x)]).write = true := by
      simpa [View.ended, View.written] using hw
    have hekept : (w.ended [(pageOffset v, x)]).kept .secondRun = w.kept .secondRun := by
      simp [View.kept, View.ended, View.written, View.setContent, hslot]
    obtain ⟨w2, hopen2⟩ := View.opened_second_both hew hboth (by rw [hekept]; exact hfork)
    have hboth2 : ((w.ended [(pageOffset v, x)]).ro .secondRun).both = true := by
      simp only [View.both, and_eq_true] at hboth ⊢
      obtain ⟨a, ha⟩ := isSome_iff_exists.mp hboth.1
      obtain ⟨b, hb⟩ := isSome_iff_exists.mp hboth.2
      obtain ⟨hx1, hx2, -⟩ := View.ro_second ha hb hew
      exact ⟨by rw [hx1]; rfl, by rw [hx2]; rfl⟩
    obtain ⟨hag, -⟩ := ht.page hstart hb h hi hv x hopen hopen2 hmem (.inl hboth2)
    exact View.agrees_ended hm hslot h0 h1 h2 hw (by simp) hopen2 hag
  have hup : w.flags.hToUpdate = false := by
    by_contra hno
    rw [not_eq_false] at hno
    obtain ⟨x, hx⟩ := exists_other_byte (startView k p i).c0 0
    have hone := hany 0 x
    rw [if_pos hno] at hone
    exact hx hone.symm
  refine ⟨hup, funext (fun o => ?_)⟩
  -- a store elsewhere on the page leaves this place alone
  obtain ⟨o', hne⟩ : ∃ o' : Fin 4096, o ≠ o' := by
    obtain ⟨o', hne⟩ := exists_ne o
    exact ⟨o', hne.symm⟩
  have hone := hany o' 0
  rw [if_neg (by simp [hup])] at hone
  have hplace := congrFun hone o
  rw [update_of_ne hne, update_of_ne hne] at hplace
  exact hplace.symm

/-- A read-only page with both private frames has them in step: an element without stores does not
change them. -/
theorem TransparentFrom.closed (h : PeReady k p L) (hi : i ∈ L)
    (hboth : (startView k p i).both = true) (hw : (startView k p i).write = false) :
    (startView k p i).c1 = some (startView k p i).c0 ∧
      (startView k p i).c2 = some (startView k p i).c0 := by
  have hnil : userRun k₀ p [] = some (k₀, []) := rfl
  obtain ⟨k', hagain, -, hsecond⟩ := ht.second hstart hb hnil
  obtain ⟨hin2, hctx, htr⟩ := hsecond k' [] rfl
  have hviews : ∀ j ∈ L, view k' p j = ((startView k p j).ro .firstRun).ro .secondRun := by
    intro j hj
    have hclean := startView_clean h hj
    obtain ⟨-, hend⟩ := (View.first_run (startView_mapped h hj) hclean.2.1 hclean.2.2
      (s := []) (v := (startView k p j).ro .firstRun) rfl).1 rfl
    rw [hagain.views j hj, hb.views j hj, hend]
  have hquiet : ∀ j ∈ L, (view k' p j).flags.hgetPf = false ∧ (view k' p j).dirty = false := by
    intro j hj
    have hclean := startView_clean h hj
    obtain ⟨hpf, hd, -⟩ := View.ro_clean .firstRun hclean.2.1 hclean.2.2
    obtain ⟨hpf', hd', -⟩ := View.ro_clean .secondRun hpf (fun _ => hd)
    rw [hviews j hj]
    exact ⟨hpf', hd'⟩
  obtain ⟨k4, hcmp⟩ := htr.agrees
  have hctx2 := samePages_ctx2 k' p default
  obtain ⟨k5, r, hcmp', hinv4, ha4, -, hviews4, -⟩ := cmpMem_view (hctx2.peInv hin2.inv)
  rw [hcmp] at hcmp'
  obtain ⟨rfl, rfl⟩ := Prod.mk.inj (some.inj hcmp')
  obtain ⟨k5, hreset⟩ := vmResetPram_commit_total hinv4 h.user (ha4.hStep_eq.trans hin2.step)
    (.inr (fun j hj => by
      obtain ⟨x, hx⟩ := View.cmp_eq (view k' p j)
      rw [hviews4 rfl j hj, hctx2.view_eq, hx]
      simp [hquiet j hj]))
  have hdec : cmpTraps default default = true := by decide
  have htask : hardeningTask k' p default true = some (resetHardenedRun k5, .committed) := by
    rw [hardeningTask_agrees hin2 hctx hdec hcmp, hreset]
    rfl
  obtain ⟨-, -, hframes⟩ := htr.committed true _ _ htask i hi
  have hview := ((hardeningTask_committed hin2 htask).2.2 i hi).2
  have hu : view k' p i = startView k p i := by
    have hro : ∀ step, (startView k p i).ro step = startView k p i := fun step => by
      simp [View.ro, hw]
    rw [hviews i hi, hro, hro]
  -- nothing is copied, so the frames are as before
  obtain ⟨x, hx⟩ := View.cmp_eq (view k' p i)
  have hkeep : (view (resetHardenedRun k5) p i).c0 = (startView k p i).c0 ∧
      (view (resetHardenedRun k5) p i).c1 = (startView k p i).c1 ∧
      (view (resetHardenedRun k5) p i).c2 = (startView k p i).c2 := by
    rw [hview, hx, ← hu]
    simp [View.commit, View.commitCopy, hquiet i hi]
  obtain ⟨hk0, hk1, hk2⟩ := hkeep
  simp only [View.both, and_eq_true, ← hk1, ← hk2] at hboth
  rw [← hk0, ← hk1, ← hk2]
  generalize resetHardenedRun k5 = k6 at *
  cases hus1 : (k6.workingSet i).us1 with
  | none => simp [view, viewOf, hus1] at hboth
  | some f1 =>
    cases hus2 : (k6.workingSet i).us2 with
    | none => simp [view, viewOf, hus2] at hboth
    | some f2 =>
      obtain ⟨he1, he2⟩ := hframes f1 f2 hus1 hus2
      simp only [view, viewOf, hus1, hus2, map_some, some.injEq]
      exact ⟨he1, he2⟩

theorem TransparentFrom.onlyFirst (h : PeReady k p L) (hi : i ∈ L)
    (hc2 : (startView k p i).c2 = none) (hmem : k.freeMem ≠ []) :
    ((startView k p i).write && (startView k p i).kept .firstRun) = false := by
  by_contra hkept
  rw [not_eq_false] at hkept
  have hs := (startView_clean h hi).1
  have hro := View.ro_kept hs hc2 hkept
  have hwrite : ((startView k p i).ro .firstRun).write = true := by rw [hro]
  have hopen : ((startView k p i).ro .firstRun).opened .firstRun =
      some ((startView k p i).ro .firstRun) := by simp [View.opened, hwrite]
  have hc1 := View.opened_first hopen
  obtain ⟨v, hv, ho⟩ := exists_address (k.workingSet i).vaddr 0
  obtain ⟨x, hx⟩ := exists_other_byte (startView k p i).c0 (pageOffset v)
  -- the second run starts from the page the first one stored to
  have hsecond : ((((startView k p i).ro .firstRun).ended [(pageOffset v, x)]).ro .secondRun) =
      { ((startView k p i).ro .firstRun).ended [(pageOffset v, x)] with write := false } := by
    rw [hro] at hc1 ⊢
    simp [View.ended, View.written, View.setContent, View.content, View.ro, View.protect,
      View.update, View.both, View.startSlot, View.kept, hs, hc1, hc2]
  have hnot : ((((startView k p i).ro .firstRun).ended [(pageOffset v, x)]).ro .secondRun).both =
      false := by
    rw [hsecond, hro]
    simp [View.both, View.ended, View.written, View.setContent, View.content, hs, hc2]
  have hclosed : ((((startView k p i).ro .firstRun).ended [(pageOffset v, x)]).ro
    .secondRun).write = false := by rw [hsecond]
  obtain ⟨w2, hopen2⟩ := View.opened_not_both hclosed hnot .secondRun
  obtain ⟨-, hload⟩ := ht.page hstart hb h hi hv x hopen hopen2 (fun _ => hmem)
    (.inr ⟨hwrite, hmem⟩)
  rw [hsecond, hro] at hload
  simp only [View.ended, View.written, View.setContent, View.content, hs, applyStores_cons,
    applyStores_nil, update_self] at hload
  exact hx (by rw [hload, update_eq_self])

theorem TransparentFrom.outside {v : VirBytes} (hv : Outside k L v) : k.canStore p v = false := by
  by_contra hopen
  rw [not_eq_false] at hopen
  have hv0 : Outside k₀ L v := (hb.outer.outside_iff v).mpr hv
  -- an allowed load and an allowed store, in any state
  have hboth : ∀ (k' : Kernel) (x : UInt8), k'.canStore p v = true →
      userRun k' p [.load v, .store v x] = some (k'.storeByte p v x, [k'.loadByte p v]) := by
    intro k' x hcan
    have hload : k'.canLoad p v = true := by
      simp only [canStore, and_eq_true] at hcan
      exact hcan.1.1
    simp [userRun, perform, UserOp.allowed, UserOp.exec, hload, hcan]
  have hcan0 : k₀.canStore p v = true := by rw [hb.outer.canStore_eq hv]; exact hopen
  obtain ⟨x, hx⟩ := exists_other_byte (visible k₀ p v) (pageOffset v)
  obtain ⟨k', hagain, -, hsecond⟩ := ht.second hstart hb (hboth k₀ x hcan0)
  obtain ⟨-, ha1, -⟩ := storeByte_outside hb.inRun.inv hv0 hcan0 x
  have hv1 : Outside (k₀.storeByte p v x) L v := (ha1.outside_iff v).mpr hv0
  have hcan' : k'.canStore p v = true := by
    rw [hagain.outer.canStore_eq hv1, ha1.canStore_eq hv0]
    exact hcan0
  obtain ⟨-, -, htr⟩ := hsecond _ _ (hboth k' x hcan')
  have hpres0 : (k₀.getPte p v).present = true := by
    simp only [canStore, canLoad, and_eq_true] at hcan0
    exact hcan0.1.1.1.2
  have hpres : ((k₀.storeByte p v x).getPte p v).present = true := by
    obtain ⟨d, hd⟩ := ha1.outPte v hv0
    rw [hd]
    exact hpres0
  have hstored : visible (k₀.storeByte p v x) p v = update (visible k₀ p v) (pageOffset v) x := by
    simp [visible, storeByte, getPte, setPte, setProc]
  have hloads := htr.loads₂.trans htr.loads₁.symm
  have hread : k'.loadByte p v = visible k' p v (pageOffset v) := rfl
  have hread0 : k₀.loadByte p v = visible k₀ p v (pageOffset v) := rfl
  rw [hread, hread0, hagain.outer.outVisible v hv1 hpres, hstored, update_self] at hloads
  exact hx (by rw [singleton_inj.mp hloads, update_eq_self])

theorem TransparentFrom.lossless (h : PeReady k p L) (hi : i ∈ L) : (startView k p i).Lossless (k.freeMem = []) := by
  have hs := (startView_clean h hi).1
  refine ⟨fun hboth hw => ?_, fun hc2 => ?_, fun hc1 c2 hc2 => ?_⟩
  · obtain ⟨h1, h2⟩ := ht.closed hstart hb h hi hboth hw
    refine ⟨h1, h2, ?_⟩
    cases hfork : (startView k p i).flags.hFork with
    | true => exact .inl rfl
    | false =>
      right
      have hro : (startView k p i).ro .firstRun = startView k p i := by simp [View.ro, hw]
      have hopen : ((startView k p i).ro .firstRun).opened .firstRun = some { startView k p i with
          flags := (startView k p i).flags.fault .firstRun, slot := .us1, write := true } := by
        simp [hro, View.opened, View.fault, hw, hboth, hfork, runSlot]
      exact (ht.stored hstart hb h hi hopen rfl rfl h1 h2
        (fun hf => absurd (hfork.symm.trans hf) (by simp))
        (fun hno => by rw [hro, hboth] at hno; simp at hno)).1
  · by_cases hmem : k.freeMem = []
    · exact .inl hmem
    · exact .inr (ht.onlyFirst hstart hb h hi hc2 hmem)
  by_cases hmem : k.freeMem = []
  · exact .inl hmem
  right
  by_cases hshut : (startView k p i).flags.hFork = true ∧ (startView k p i).kept .secondRun = false
  · exact .inl hshut
  right
  obtain ⟨w, hopen, hslot, hw0, hw1, hw2, hflags⟩ := View.opened_onlySecond hs hc1
  have hfork : w.flags.hFork = (startView k p i).flags.hFork ∧
      w.flags.hToUpdate = (startView k p i).flags.hToUpdate ∧
      w.kept .secondRun = (startView k p i).kept .secondRun := by
    simp [View.kept, hflags, PmbFlags.fault, hw2]
  rw [← hfork.2.1]
  refine ht.stored hstart hb h hi hopen hslot hw0 hw1 (hw2.trans hc2) (fun hf => ?_)
    (fun _ => hmem)
  rw [hfork.1] at hf
  rw [hfork.2.2]
  by_contra hk
  rw [not_eq_true] at hk
  exact hshut ⟨hf, hk⟩

end

/-- For every state in which an element begins and private frames are in step or to be updated: it
is transparent, whatever the process does, exactly if every page of the working set is lossless and
no other page is writable. -/
theorem transparent_iff_lossless (h : PeReady k p L) (hstart : startDwc k p = some k₀)
    (hin : ∀ i ∈ L, (view k p i).InStep) :
    TransparentFrom k p L ↔ (∀ i ∈ L, (startView k p i).Lossless (k.freeMem = [])) ∧
        ∀ v, Outside k L v → k.canStore p v = false := by
  have hb : Begun k p L k₀ := by
    rcases startDwc_first h with ⟨hnone, -⟩ | ⟨k₁, hsome, hb⟩
    · rw [hnone] at hstart
      simp at hstart
    · rw [hsome] at hstart
      exact some.inj hstart ▸ hb
  -- an event only brings the frames in step
  have hin' : ∀ i ∈ L, (startView k p i).InStep := by
    intro i hi hboth
    have hold := hin i hi
    unfold startView View.eventIf View.event at hboth ⊢
    split_ifs at hboth ⊢
    · exact .inr ⟨rfl, rfl⟩
    · exact hold hboth
    · exact hold hboth
  constructor
  · intro ht
    exact ⟨fun i hi => ht.lossless hstart hb h hi, fun v hv => ht.outside hstart hb hv⟩
  · rintro ⟨hl, hclosed⟩
    exact transparentFrom_of_lossless h hstart hb hin' hl hclosed

/-- A process whose page is in the working set. -/
theorem transparent_block : ∃ k₀, startDwc blockKernel 15 = some k₀ ∧
    TransparentFrom blockKernel 15 [0] := by
  refine ⟨_, rfl, (transparent_iff_lossless blockKernel_ready rfl (fun i hi => ?_)).mpr
    ⟨fun i hi => ?_, fun v hv => ?_⟩⟩
  · obtain rfl := mem_singleton.mp hi
    exact fun _ => .inl rfl
  · obtain rfl := mem_singleton.mp hi
    exact ⟨fun _ hno => absurd hno (by decide), fun hno => absurd hno (by decide),
      fun hno => absurd hno (by decide)⟩
  have hpage : pageOf v ≠ 1 := fun heq => hv 0 mem_cons_self (by rw [heq]; rfl)
  have habsent := onePage_absent hpage
  rw [canStore, canLoad,
    show blockKernel.getPte 15 v = onePage.pte (pageOf v) from rfl, habsent]
  simp

/-- A process hardened while it runs reads and then stores to a page outside its working set: the
second run reads the store. -/
theorem second_run_reads_first_store :
    ¬ ∀ (k : Kernel) (p : ProcNr) (L : List (Fin workingSetSize)) (k₀ : Kernel),
      PeReady k p L → startDwc k p = some k₀ → (∀ i ∈ L, (view k p i).InStep) →
      TransparentFrom k p L := by
  intro hall
  obtain ⟨k₀, k₁, k₂, hstart, hrun₁, hrun₂⟩ :
      ∃ k₀ k₁ k₂, startDwc bareKernel 15 = some k₀ ∧
        runFirst bareKernel 15 [.load 4096, .store 4096 1] = some (k₁, [0]) ∧
        runSecond k₁ 15 default [.load 4096, .store 4096 1] = some (k₂, [1]) :=
    ⟨_, _, _, rfl, rfl, rfl⟩
  have htr := hall bareKernel 15 [] k₀ bareKernel_ready hstart (by simp) _ default default k₁ [0]
    k₂ [1] hrun₁ hrun₂ (by decide)
  have hloads := htr.loads₁.trans htr.loads₂.symm
  exact absurd hloads (by decide)

end HardenedMinix
