import HardenedMinix.Pe.View

/-!
# The two runs on one page

A page without stores stays as it is, and the first store opens the page on the frame of the run.
-/

open Option

namespace HardenedMinix

namespace View

variable {u v v₂ w : View} {s s₂ : List PageStore} {step : HStep}

/-! ## One run on one page -/

theorem stores_cases (hm : w.Mapped) (h : w.stores step s = some v) :
    s = [] ∧ v = w ∨ s ≠ [] ∧ ∃ w', w.opened step = some w' ∧ v = w'.written s := by
  rw [stores_eq step hm] at h
  split_ifs at h with hs
  · exact .inl ⟨hs, (some.inj h).symm⟩
  · obtain ⟨w', hopen, rfl⟩ := map_eq_some_iff.mp h
    exact .inr ⟨hs, w', hopen, rfl⟩

/-- What the stores of a run are applied to. -/
def base (step : HStep) (w : View) : PageData :=
  if w.write then w.content
  else if w.both then (if step = .firstRun then w.c1.getD w.c0 else w.c2.getD w.c0)
  else w.c0

theorem opened_content {w' : View} (h : w.opened step = some w') : w'.content = w.base step := by
  unfold opened fault at h
  unfold base
  split at h
  · rename_i hw
    rw [← some.inj h, if_pos hw]
  rename_i hw
  rw [if_neg hw]
  simp only at h
  split_ifs at h with hboth hfork hstep <;> rw [← some.inj h]
  · by_cases hs : step = .firstRun <;> simp [content, runSlot, hs, hboth]
  · simp [content, hboth]
  · simp [content, hboth]

theorem update_c0 (v : View) : v.update.c0 = v.c0 := by
  unfold update
  split <;> rfl

theorem update_write (v : View) : v.update.write = v.write := by
  unfold update
  split <;> rfl

theorem update_keeps {c1 c2 : PageData} (hc1 : v.update.c1 = some c1)
    (hc2 : v.update.c2 = some c2) :
    v.update.flags.hToUpdate = false ∧ v.update.kept step = v.kept step := by
  unfold update at *
  split_ifs at * with hcond
  · simp only [both, Bool.and_eq_true] at hcond
    refine ⟨rfl, ?_⟩
    simp [kept, synced, hcond]
  · refine ⟨?_, rfl⟩
    cases hup : v.flags.hToUpdate with
    | false => rfl
    | true => simp [hup, both, hc1, hc2] at hcond

theorem Mapped.update (hm : v.Mapped) : v.update.Mapped := by
  unfold View.update
  split
  · exact ⟨fun _ => rfl, fun _ => rfl⟩
  · exact hm

theorem Mapped.protect (hm : v.Mapped) : (v.protect step).Mapped := by
  unfold Mapped View.protect startSlot runSlot
  simp only
  by_cases hgone : (v.c1.isSome && v.c2.isNone) = true
  · simp [hgone]
  rw [if_neg hgone]
  clear hgone
  by_cases hstep : step = .firstRun
  · cases hc1 : v.c1.isSome <;> simp_all [View.Mapped]
  · cases hc2 : v.c2.isSome <;> simp_all [View.Mapped]

theorem Mapped.ro (hm : v.Mapped) : (v.ro step).Mapped := by
  unfold View.ro
  split
  · exact hm.update.protect
  · exact hm

theorem opened_second {w' : View} (h : (w.ro .secondRun).opened .secondRun = some w') :
    w'.slot = .us2 ∧ w'.c2.isSome = true := by
  unfold opened fault at h
  split at h
  · rename_i hw
    rw [← some.inj h]
    unfold ro at hw ⊢
    split_ifs at hw ⊢ with hopen
    swap
    · exact absurd hw hopen
    simp only [protect, kept, startSlot, runSlot, Bool.and_eq_true, Bool.or_eq_true, reduceCtorEq,
      ↓reduceIte] at hw ⊢
    have hc2 : w.update.c2.isSome = true := by tauto
    have hc2' : w.update.c2.isNone = false := by
      rw [← not_isSome, hc2, Bool.not_true]
    simp [hc2, hc2']
  simp only [reduceCtorEq, ↓reduceIte, runSlot] at h
  split_ifs at h with hboth hfork <;> rw [← some.inj h]
  · simp only [both, Bool.and_eq_true] at hboth
    exact ⟨rfl, hboth.2⟩
  · exact ⟨rfl, rfl⟩

theorem opened_first {w' : View} (h : (w.ro .firstRun).opened .firstRun = some w') :
    w'.c1.isSome = true := by
  unfold opened fault at h
  split at h
  · rename_i hw
    rw [← some.inj h]
    unfold ro at hw ⊢
    split_ifs at hw ⊢ with hopen
    swap
    · exact absurd hw hopen
    simp only [protect, kept, Bool.and_eq_true, Bool.or_eq_true, ↓reduceIte] at hw ⊢
    tauto
  simp only [↓reduceIte] at h
  split_ifs at h with hboth hfork <;> rw [← some.inj h]
  · simp only [both, Bool.and_eq_true] at hboth
    exact hboth.1
  · rfl

theorem ro_clean (step : HStep) (hpf : w.flags.hgetPf = false) (hd : w.write = false → w.dirty = false) :
    (w.ro step).flags.hgetPf = false ∧ (w.ro step).dirty = false ∧ (w.ro step).c0 = w.c0 := by
  unfold ro
  split
  · refine ⟨?_, rfl, ?_⟩
    · unfold protect update
      simp only
      split <;> exact hpf
    · exact update_c0 w
  · rename_i hw
    exact ⟨hpf, hd (by simpa using hw), rfl⟩

theorem cmp_eq (v : View) : ∃ b, v.cmp = { v with flags := { v.flags with fws := b } } := by
  unfold cmp
  split
  · exact ⟨false, rfl⟩
  · exact ⟨v.flags.fws, rfl⟩

theorem second_run (hm : w.Mapped) (hpf : w.flags.hgetPf = false)
    (hd : w.write = false → w.dirty = false)
    (hrun : (w.ro .secondRun).stores .secondRun s = some v) :
    (s = [] → v.content = (w.ro .secondRun).content ∧ v.cmp.commit.c0 = w.c0) ∧
      (s ≠ [] → v.content = applyStores ((w.ro .secondRun).base .secondRun) s ∧
        v.cmp.commit.c0 = v.content) := by
  obtain ⟨b, hcmp⟩ := cmp_eq v
  rw [hcmp]
  rcases stores_cases hm.ro hrun with ⟨hs, rfl⟩ | ⟨hs, w', hopen, rfl⟩
  · obtain ⟨hpf', hd', hc0⟩ := ro_clean .secondRun hpf hd
    refine ⟨fun _ => ⟨rfl, ?_⟩, fun hne => absurd hs hne⟩
    simp [commit, commitCopy, hpf', hd', hc0]
  have hm' := hm.ro.opened hopen
  obtain ⟨hslot, hc2⟩ := opened_second hopen
  refine ⟨fun hnil => absurd hnil hs, fun _ => ⟨?_, ?_⟩⟩
  · rw [content_written hm', opened_content hopen]
  · obtain ⟨c2, hc2⟩ := isSome_iff_exists.mp hc2
    simp [commit, commitCopy, written, setContent, content, hslot, hc2]

/-- A page behind the end of the first run, if the run opened it and stored to it. -/
def ended (s : List PageStore) (w : View) : View :=
  { w.written s with
    dirty := false
    flags := { w.flags with
      iwsPfFirst := w.flags.iwsPfFirst || w.flags.iwsModKernel
      hgetPf := false
      fws := true } }

theorem first_run (hm : u.Mapped) (hpf : u.flags.hgetPf = false)
    (hd : u.write = false → u.dirty = false)
    (hrun : (u.ro .firstRun).stores .firstRun s = some v) :
    (s = [] → v = u.ro .firstRun ∧ v.endFirst = u.ro .firstRun) ∧
      (s ≠ [] → v.content = applyStores ((u.ro .firstRun).base .firstRun) s ∧
        ∃ w', (u.ro .firstRun).opened .firstRun = some w' ∧ w'.c1.isSome = true ∧
          v.endFirst = w'.ended s) := by
  rcases stores_cases hm.ro hrun with ⟨hs, rfl⟩ | ⟨hs, w', hopen, rfl⟩
  · obtain ⟨hpf', hd', -⟩ := ro_clean .firstRun hpf hd
    refine ⟨fun _ => ⟨rfl, ?_⟩, fun hne => absurd hs hne⟩
    simp [endFirst, hpf', hd']
  have hm' := hm.ro.opened hopen
  refine ⟨fun hnil => absurd hnil hs, fun _ => ⟨?_, w', hopen, ?_, ?_⟩⟩
  · rw [content_written hm', opened_content hopen]
  · exact opened_first hopen
  obtain ⟨c1, hc1⟩ := isSome_iff_exists.mp (opened_first hopen)
  have hc1' : (w'.written s).c1.isSome = true := by
    unfold written setContent
    cases hslot : w'.slot <;> simp [hc1]
  have hdirty : (w'.written s).dirty = true := rfl
  have hflags : (w'.written s).flags = w'.flags := by simp [written]
  simp only [endFirst, hc1', hdirty, hflags, Bool.or_true, Bool.and_true, ↓reduceIte, ended]

theorem ro_fws (w : View) (step : HStep) : (w.ro step).flags.fws = w.flags.fws := by
  unfold ro protect update
  split
  · simp only
    split <;> rfl
  · rfl

theorem opened_keeps {w' : View} (h : w.opened .secondRun = some w') :
    w'.c1 = w.c1 ∧ w'.flags.fws = w.flags.fws := by
  unfold opened fault at h
  split at h
  · rw [← some.inj h]
    exact ⟨rfl, rfl⟩
  · simp only [reduceCtorEq, ↓reduceIte, PmbFlags.fault] at h
    split_ifs at h <;> rw [← some.inj h] <;> exact ⟨rfl, rfl⟩

theorem agrees_iff (hm : w.Mapped) (hc1 : (w.ro .secondRun).c1.isSome = true)
    (hfws : w.flags.fws = true)
    (hrun : (w.ro .secondRun).stores .secondRun s₂ = some v₂) :
    v₂.agrees = true ↔ (s₂ = [] → (w.ro .secondRun).c2.isSome = true →
        (w.ro .secondRun).c1 = (w.ro .secondRun).c2) ∧
      (s₂ ≠ [] → (w.ro .secondRun).c1 = some v₂.content) := by
  rcases stores_cases hm.ro hrun with ⟨rfl, rfl⟩ | ⟨hs, w', hopen, rfl⟩
  · simp only [agrees, compared, both, hc1, ro_fws, hfws, Bool.true_and, Bool.and_true,
      true_implies, ne_eq, not_true_eq_false, false_implies, and_true, Bool.or_eq_true,
      Bool.not_eq_true', beq_iff_eq]
    cases h2 : (w.ro .secondRun).c2.isSome <;> simp
  obtain ⟨hslot, hc2⟩ := opened_second hopen
  obtain ⟨hkeep, hflag⟩ := opened_keeps hopen
  obtain ⟨c2, hc2⟩ := isSome_iff_exists.mp hc2
  rw [ro_fws, hfws] at hflag
  obtain ⟨c1, hc1⟩ := isSome_iff_exists.mp hc1
  rw [hc1] at hkeep
  simp [agrees, compared, both, written, setContent, content, hslot, hc2, hkeep, hflag, hs, hc1]

theorem ended_mapped (hm : w.Mapped) (s : List PageStore) : (w.ended s).Mapped := hm.written s

theorem ended_c1 (hc1 : w.c1.isSome = true) (s : List PageStore) :
    (w.ended s).c1.isSome = true := by
  unfold ended written setContent
  cases hslot : w.slot <;> simp [hc1]

theorem ro_c1 (hc1 : w.c1.isSome = true) (step : HStep) : (w.ro step).c1.isSome = true := by
  unfold ro protect update
  split
  · simp only
    split
    · rfl
    · exact hc1
  · exact hc1

theorem ro_second {a b : PageData} (ha : w.c1 = some a) (hb : w.c2 = some b) (hw : w.write = true) :
    (w.ro .secondRun).c1 = some (if w.flags.hToUpdate then w.c0 else a) ∧
      (w.ro .secondRun).c2 = some (if w.flags.hToUpdate then w.c0 else b) ∧
      (w.ro .secondRun).content = (if w.flags.hToUpdate then w.c0 else b) ∧
      (w.ro .secondRun).base .secondRun = if w.flags.hToUpdate then w.c0 else b := by
  cases hup : w.flags.hToUpdate <;>
    simp [ro, hw, protect, update, both, startSlot, runSlot, content, base, synced, ha, hb, hup]

theorem ro_kept (hs : u.slot = .us0) (hc2 : u.c2 = none)
    (hopen : (u.write && u.kept .firstRun) = true) :
    u.ro .firstRun = { u with write := true, dirty := false } := by
  have hc1 : u.c1.isSome = true := by
    simp only [kept, Bool.and_eq_true, Bool.or_eq_true, ↓reduceIte] at hopen
    tauto
  obtain ⟨f, slot, write, dirty, c0, c1, c2⟩ := u
  simp only at hs hc2 hc1
  subst hs hc2
  obtain ⟨rfl, hkept⟩ := Bool.and_eq_true_iff.mp hopen
  simp only [kept, ↓reduceIte, hc1, Bool.true_and, Bool.or_eq_true] at hkept
  simp [ro, protect, update, both, startSlot, kept, hkept, hc1]

end View

end HardenedMinix
