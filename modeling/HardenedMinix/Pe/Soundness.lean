import HardenedMinix.Pe.Phases
import HardenedMinix.Pe.PageRuns

/-!
# Soundness of the commit

What is compared and committed is decided page by page. For each kind of page the condition for a
sound commit is worked out; a page with both private frames that only the second run stores to is
committed without a comparison.
-/

open Option

namespace HardenedMinix

open Lib Linked

namespace View

variable {u v v₁ v₂ w : View} {s s₁ s₂ : List PageStore} {step : HStep}

/-! ## Both runs -/

/-- The images of the two runs are the same, `us0` holds it, and a page only one run stored to is as
before. -/
def Sound (c0 : PageData) (s₁ s₂ : List PageStore) (v₁ v₂ : View) : Prop :=
  v₁.content = v₂.content ∧ v₂.cmp.commit.c0 = v₂.content ∧
    (¬ (s₁ = [] ↔ s₂ = []) → v₂.cmp.commit.c0 = c0)

/-- Without `us2` a page must be stored to by both runs or none, unless nothing changes. If it is
open to the first run, that run writes `us0`. -/
def OnceSound (c0 : PageData) (kept : Bool) (s₁ s₂ : List PageStore) : Prop :=
  (¬ (s₁ = [] ↔ s₂ = []) → applyStores (applyStores c0 s₁) s₂ = c0) ∧
    (kept = true → s₂ ≠ [] → applyStores (applyStores c0 s₁) s₂ = applyStores c0 s₁)

/-- A page with `us2` that is closed to the first run, whose stores go to `b1`; those of a second
run alone go to `b2`. -/
def ClosedSound (c0 b1 c2 b2 : PageData) (toUpdate : Bool) (s₁ s₂ : List PageStore) : Prop :=
  (s₁ ≠ [] → s₂ ≠ [] → toUpdate = true → applyStores b1 s₁ = c0) ∧
    (s₁ ≠ [] → s₂ = [] → if toUpdate then applyStores b1 s₁ = c0 else c2 = c0) ∧
    (s₁ = [] → s₂ ≠ [] → applyStores b2 s₂ = c0)

/-- A writable page with both private frames. -/
def OpenSound (c0 c1 c2 : PageData) (kept : Bool) (s₁ s₂ : List PageStore) : Prop :=
  (s₁ ≠ [] → s₂ = [] → c2 = c0) ∧
    (s₁ = [] → c1 = c0 ∧ (s₂ ≠ [] → applyStores c2 s₂ = c0) ∧ (s₂ = [] → kept = true → c2 = c0))

/-- The condition for a page, as it is after the events were handled. -/
def SoundFor (u : View) (s₁ s₂ : List PageStore) : Prop :=
  match (if u.write then u.update else u).c1, (if u.write then u.update else u).c2 with
  | _, none => OnceSound u.c0 (u.write && u.kept .firstRun) s₁ s₂
  | none, some c2 => ClosedSound u.c0 u.c0 c2 u.c0 u.flags.hToUpdate s₁ s₂
  | some c1, some c2 =>
    if u.write then OpenSound u.c0 c1 c2 (u.kept .firstRun) s₁ s₂
    else ClosedSound u.c0 c1 c2 c2 u.flags.hToUpdate s₁ s₂

theorem sound_iff (hm : w.Mapped) (hpf : w.flags.hgetPf = false)
    (hd : w.write = false → w.dirty = false) (c0 : PageData)
    (hrun : (w.ro .secondRun).stores .secondRun s₂ = some v₂) :
    Sound c0 s₁ s₂ v₁ v₂ ↔ (s₂ = [] → v₁.content = (w.ro .secondRun).content ∧ w.c0 = v₁.content ∧
        (s₁ ≠ [] → w.c0 = c0)) ∧
      (s₂ ≠ [] → v₁.content = applyStores ((w.ro .secondRun).base .secondRun) s₂ ∧
        (s₁ = [] → v₁.content = c0)) := by
  obtain ⟨hnil, hcons⟩ := second_run hm hpf hd hrun
  unfold Sound
  by_cases e2 : s₂ = []
  · obtain ⟨himg, hc0⟩ := hnil e2
    rw [himg, hc0]
    simp only [e2, iff_true, true_implies, ne_eq, not_true_eq_false, false_implies, and_true]
    constructor
    · rintro ⟨h1, h2, h3⟩
      exact ⟨h1, h2.trans h1.symm, h3⟩
    · rintro ⟨h1, h2, h3⟩
      exact ⟨h1, h2.trans h1, h3⟩
  obtain ⟨himg, hc0⟩ := hcons e2
  rw [hc0, himg]
  simp only [e2, iff_false, not_not, ne_eq, not_false_eq_true, true_implies, false_implies,
    true_and]
  constructor
  · rintro ⟨h1, h3⟩
    exact ⟨h1, fun hs => h1.trans (h3 hs)⟩
  · rintro ⟨h1, h3⟩
    exact ⟨h1, fun hs => h1.symm.trans (h3 hs)⟩

section

variable (hm : u.Mapped) (hpf : u.flags.hgetPf = false) (hd : u.write = false → u.dirty = false)
  (hrun₁ : (u.ro .firstRun).stores .firstRun s₁ = some v₁)
  (hrun₂ : (v₁.endFirst.ro .secondRun).stores .secondRun s₂ = some v₂)

include hm hpf hd hrun₁ hrun₂

theorem sound_quiet (e₁ : s₁ = []) : Sound u.c0 s₁ s₂ v₁ v₂ ↔ (u.ro .firstRun).content = u.c0 ∧
      (s₂ = [] → ((u.ro .firstRun).ro .secondRun).content = u.c0) ∧
      (s₂ ≠ [] → applyStores (((u.ro .firstRun).ro .secondRun).base .secondRun) s₂ = u.c0) := by
  obtain ⟨rfl, hend⟩ := (first_run hm hpf hd hrun₁).1 e₁
  rw [hend] at hrun₂
  obtain ⟨hpf', hd', hc0⟩ := ro_clean .firstRun hpf hd
  rw [sound_iff hm.ro hpf' (fun _ => hd') u.c0 hrun₂, hc0]
  by_cases e2 : s₂ = []
  · simp only [e₁, e2, true_implies, ne_eq, not_true_eq_false, false_implies, and_true]
    exact ⟨fun ⟨h1, h2⟩ => ⟨h2.symm, h1.symm.trans h2.symm⟩,
      fun ⟨h1, h2⟩ => ⟨h1.trans h2.symm, h1.symm⟩⟩
  · simp only [e₁, e2, false_implies, ne_eq, not_false_eq_true, true_implies, true_and]
    exact ⟨fun ⟨h1, h2⟩ => ⟨h2, h1.symm.trans h2⟩, fun ⟨h1, h2⟩ => ⟨h1.trans h2.symm, h1⟩⟩

theorem sound_stored (hag : v₂.agrees = true) (e₁ : s₁ ≠ []) :
    ∃ w', (u.ro .firstRun).opened .firstRun = some w' ∧
      (s₂ = [] → ((w'.ended s₁).ro .secondRun).c2.isSome = true →
        ((w'.ended s₁).ro .secondRun).c1 = ((w'.ended s₁).ro .secondRun).c2) ∧
      (s₂ ≠ [] → ((w'.ended s₁).ro .secondRun).c1 =
        some (applyStores (((w'.ended s₁).ro .secondRun).base .secondRun) s₂)) ∧
      (Sound u.c0 s₁ s₂ v₁ v₂ ↔ (s₂ = [] → (w'.ended s₁).c0 = u.c0 ∧
          ((w'.ended s₁).ro .secondRun).content = u.c0 ∧
          applyStores ((u.ro .firstRun).base .firstRun) s₁ = u.c0) ∧
        (s₂ ≠ [] → applyStores (((w'.ended s₁).ro .secondRun).base .secondRun) s₂ =
          applyStores ((u.ro .firstRun).base .firstRun) s₁)) := by
  obtain ⟨himg, w', hopen, hc1, hend⟩ := (first_run hm hpf hd hrun₁).2 e₁
  rw [hend] at hrun₂
  have hm' := ended_mapped (hm.ro.opened hopen) s₁
  have hagree := (agrees_iff hm' (ro_c1 (ended_c1 hc1 s₁) _) rfl hrun₂).mp hag
  have himg2 := (second_run hm' rfl (fun _ => rfl) hrun₂).2
  refine ⟨w', hopen, hagree.1, fun e2 => ?_, ?_⟩
  · rw [hagree.2 e2, (himg2 e2).1]
  rw [sound_iff hm' rfl (fun _ => rfl) u.c0 hrun₂, himg]
  by_cases e2 : s₂ = []
  · simp only [e₁, e2, true_implies, ne_eq, not_true_eq_false, not_false_eq_true, false_implies,
      and_true]
    exact ⟨fun ⟨h1, h2, h3⟩ => ⟨h3, (h1.symm.trans h2.symm).trans h3, h2.symm.trans h3⟩,
      fun ⟨h1, h2, h3⟩ => ⟨h3.trans h2.symm, h1.trans h3.symm, h1⟩⟩
  · simp only [e₁, e2, false_implies, ne_eq, not_false_eq_true, true_implies, and_true, true_and]
    exact eq_comm

end

/-! ## The kinds of pages -/

section

variable (hs : u.slot = .us0) (hpf : u.flags.hgetPf = false) (hd : u.write = false → u.dirty = false)
  (hrun₁ : (u.ro .firstRun).stores .firstRun s₁ = some v₁)
  (hrun₂ : (v₁.endFirst.ro .secondRun).stores .secondRun s₂ = some v₂)
  (hag : v₂.agrees = true)

include hs hpf hd hrun₁ hrun₂ hag

theorem sound_once (hc2 : u.c2 = none) (hclosed : (u.write && u.kept .firstRun) = false) :
    Sound u.c0 s₁ s₂ v₁ v₂ ↔ OnceSound u.c0 false s₁ s₂ := by
  have hm : u.Mapped := ⟨fun h => by simp [hs] at h, fun h => by simp [hs] at h⟩
  have hro : u.ro .firstRun = { u with write := false, dirty := false } := by
    obtain ⟨f, slot, write, dirty, c0, c1, c2⟩ := u
    simp only at hs hd hc2
    subst hs hc2
    cases write with
    | false => simp [ro, hd]
    | true => cases c1 <;> simp_all [ro, protect, update, both, startSlot, kept]
  by_cases e1 : s₁ = []
  · rw [sound_quiet hm hpf hd hrun₁ hrun₂ e1, hro]
    simp [OnceSound, e1, ro, content, base, both, hs, hc2]
  obtain ⟨w', hopen, -, hagree, hiff⟩ := sound_stored hm hpf hd hrun₁ hrun₂ hag e1
  rw [hro] at hopen
  simp only [opened, fault, both, hc2, isSome_none, Bool.and_false, Bool.false_eq_true,
    ↓reduceIte, some.injEq] at hopen
  have hw : (w'.ended s₁).ro .secondRun = { w'.ended s₁ with slot := .us0, write := false } := by
    rw [← hopen]
    simp [ended, written, setContent, content, ro, protect, update, both, startSlot, kept]
  rw [hiff, hro]
  rw [hw] at hagree ⊢
  rw [← hopen] at hagree ⊢
  by_cases e2 : s₂ = []
  · simp [OnceSound, e1, e2, ended, written, setContent, content, base, both, hc2]
  · have heq := hagree e2
    simp [ended, written, setContent, content, base, both] at heq
    simp [OnceSound, e1, e2, ended, written, setContent, content, base, both, hc2, heq]

theorem sound_kept (hc2 : u.c2 = none) (hopen : (u.write && u.kept .firstRun) = true) :
    Sound u.c0 s₁ s₂ v₁ v₂ ↔ OnceSound u.c0 true s₁ s₂ := by
  have hm : u.Mapped := ⟨fun h => by simp [hs] at h, fun h => by simp [hs] at h⟩
  have hc1 : u.c1.isSome = true := by
    simp only [kept, Bool.and_eq_true, Bool.or_eq_true, ↓reduceIte] at hopen
    tauto
  have hro := ro_kept hs hc2 hopen
  by_cases e1 : s₁ = []
  · rw [sound_quiet hm hpf hd hrun₁ hrun₂ e1, hro]
    simp [OnceSound, e1, ro, protect, update, startSlot, kept, content, base, both, hs, hc1, hc2]
  obtain ⟨w', hopened, -, -, hiff⟩ := sound_stored hm hpf hd hrun₁ hrun₂ hag e1
  rw [hro] at hopened
  simp only [opened, ↓reduceIte, some.injEq] at hopened
  have hw : (w'.ended s₁).ro .secondRun = { w'.ended s₁ with write := false } := by
    rw [← hopened]
    simp [ended, written, setContent, content, ro, protect, update, both, startSlot, kept, hs,
      hc1, hc2]
  rw [hiff, hro, hw, ← hopened]
  by_cases e2 : s₂ = []
  · simp [OnceSound, e1, e2, ended, written, setContent, content, base, hs]
  · simp [OnceSound, e1, e2, ended, written, setContent, content, base, both, hs, hc2]

/-- A page that is closed to the first run and has `us2`; the first store copies `us0` to a frame
`us1`. -/
theorem sound_closed {c2 b1 : PageData} (hc2 : u.c2 = some c2)
    (hclosed : u.c1 = none ∧ b1 = u.c0 ∨ u.write = false ∧ u.c1 = some b1) :
    Sound u.c0 s₁ s₂ v₁ v₂ ↔
      ClosedSound u.c0 b1 c2 (if u.c1.isSome then c2 else u.c0) u.flags.hToUpdate s₁ s₂ := by
  have hm : u.Mapped := ⟨fun h => by simp [hs] at h, fun h => by simp [hs] at h⟩
  have hro : u.ro .firstRun = { u with write := false, dirty := false } := by
    obtain ⟨f, slot, write, dirty, c0, c1, c2⟩ := u
    simp only at hs hd hclosed hc2
    subst hs hc2
    cases write with
    | false => simp [ro, hd]
    | true =>
      obtain ⟨rfl, -⟩ | ⟨hw, -⟩ := hclosed
      · simp [ro, protect, update, both, startSlot, kept]
      · simp at hw
  have hbase : (u.ro .firstRun).base .firstRun = b1 := by
    rw [hro]
    obtain ⟨h1, rfl⟩ | ⟨-, h1⟩ := hclosed <;> simp [base, both, h1, hc2]
  by_cases e1 : s₁ = []
  · rw [sound_quiet hm hpf hd hrun₁ hrun₂ e1, hro]
    obtain ⟨h1, rfl⟩ | ⟨-, h1⟩ := hclosed <;>
      simp [ClosedSound, e1, ro, content, base, both, hs, h1, hc2]
  obtain ⟨w', hopen, hagree1, hagree2, hiff⟩ := sound_stored hm hpf hd hrun₁ hrun₂ hag e1
  have hw : w'.slot = .us1 ∧ w'.c1 = some b1 ∧ w'.c2 = some c2 ∧ w'.c0 = u.c0 ∧
      w'.write = true ∧ w'.flags.hToUpdate = u.flags.hToUpdate := by
    rw [hro] at hopen
    unfold opened fault at hopen
    obtain ⟨h1, rfl⟩ | ⟨-, h1⟩ := hclosed
    · simp only [both, h1, isSome_none, Bool.false_and, Bool.false_eq_true, ↓reduceIte,
        some.injEq] at hopen
      rw [← hopen]
      exact ⟨rfl, rfl, hc2, rfl, rfl, rfl⟩
    simp only [both, h1, hc2, isSome_some, Bool.and_true, Bool.false_eq_true,
      ↓reduceIte, runSlot] at hopen
    split_ifs at hopen with hfork
    rw [← some.inj hopen]
    exact ⟨rfl, rfl, rfl, rfl, rfl, rfl⟩
  obtain ⟨hslot, hc1', hc2', hc0', hwrite, hup⟩ := hw
  have he : (w'.ended s₁).c1 = some (applyStores b1 s₁) ∧ (w'.ended s₁).c2 = some c2 ∧
      (w'.ended s₁).c0 = u.c0 ∧ (w'.ended s₁).write = true ∧
      (w'.ended s₁).flags.hToUpdate = u.flags.hToUpdate := by
    simp [ended, written, setContent, content, hslot, hc1', hc2', hc0', hwrite, hup]
  obtain ⟨he1, he2, he0, hew, heup⟩ := he
  obtain ⟨hx1, hx2, hxc, hxb⟩ := ro_second he1 he2 hew
  rw [hiff, hbase, hxc, hxb, he0, heup]
  rw [hx1, hx2, he0, heup] at hagree1
  rw [hx1, hxb, he0, heup] at hagree2
  unfold ClosedSound
  by_cases e2 : s₂ = []
  · have heq := hagree1 e2 rfl
    cases hflag : u.flags.hToUpdate with
    | true => simp [e1, e2]
    | false =>
      rw [hflag] at heq
      simp only [Bool.false_eq_true, ↓reduceIte, some.injEq] at heq
      simp [e1, e2, heq]
  have heq := hagree2 e2
  cases hflag : u.flags.hToUpdate with
  | true =>
    rw [hflag] at heq
    simp only [↓reduceIte, some.injEq] at heq
    rw [if_pos rfl, ← heq]
    simp only [e1, e2, ne_eq, not_false_eq_true, true_implies, false_implies, true_and, and_true]
    exact eq_comm
  | false =>
    rw [hflag] at heq
    simp only [Bool.false_eq_true, ↓reduceIte, some.injEq] at heq
    simp [e1, e2, heq]

theorem sound_open {c1 c2 : PageData} (hw : u.write = true) (hc1 : u.update.c1 = some c1)
    (hc2 : u.update.c2 = some c2) :
    Sound u.c0 s₁ s₂ v₁ v₂ ↔ OpenSound u.c0 c1 c2 (u.kept .firstRun) s₁ s₂ := by
  have hm : u.Mapped := ⟨fun h => by simp [hs] at h, fun h => by simp [hs] at h⟩
  obtain ⟨hup, hkept⟩ := update_keeps hc1 hc2
  have hro : u.ro .firstRun =
      { u.update with slot := .us1, write := u.kept .firstRun, dirty := false } := by
    rw [ro, if_pos hw, ← hkept]
    have hw' : u.update.write = true := by rw [update_write, hw]
    simp [protect, startSlot, runSlot, hc1, hc2, hw']
  have hc0 := update_c0 u
  have hbase : (u.ro .firstRun).base .firstRun = c1 := by
    rw [hro]
    cases u.kept .firstRun <;> simp [base, both, content, hc1, hc2]
  by_cases e1 : s₁ = []
  · rw [sound_quiet hm hpf hd hrun₁ hrun₂ e1, hro]
    cases hk : u.kept .firstRun with
    | true =>
      obtain ⟨-, -, hxc, hxb⟩ := ro_second
        (w := { u.update with slot := .us1, write := true, dirty := false }) hc1 hc2 rfl
      rw [hxc, hxb]
      simp only [hup, Bool.false_eq_true, ↓reduceIte]
      by_cases e2 : s₂ = [] <;> simp [OpenSound, e1, e2, content, hc1]
    | false =>
      by_cases e2 : s₂ = [] <;> simp [OpenSound, e1, e2, ro, content, base, both, hc1, hc2]
  obtain ⟨w', hopen, hagree1, hagree2, hiff⟩ := sound_stored hm hpf hd hrun₁ hrun₂ hag e1
  have hw' : w'.slot = .us1 ∧ w'.c1 = some c1 ∧ w'.c2 = some c2 ∧ w'.c0 = u.c0 ∧
      w'.write = true ∧ w'.flags.hToUpdate = false := by
    rw [hro] at hopen
    unfold opened fault at hopen
    cases hk : u.kept .firstRun with
    | true =>
      rw [hk] at hopen
      rw [← some.inj hopen]
      exact ⟨rfl, hc1, hc2, hc0, rfl, hup⟩
    | false =>
      simp only [hk, both, hc1, hc2, isSome_some, Bool.and_true, Bool.false_eq_true,
        ↓reduceIte, runSlot] at hopen
      split_ifs at hopen with hfork
      rw [← some.inj hopen]
      exact ⟨rfl, rfl, rfl, hc0, rfl, hup⟩
  obtain ⟨hslot, hc1', hc2', hc0', hwrite, hup'⟩ := hw'
  have he : (w'.ended s₁).c1 = some (applyStores c1 s₁) ∧ (w'.ended s₁).c2 = some c2 ∧
      (w'.ended s₁).c0 = u.c0 ∧ (w'.ended s₁).write = true ∧
      (w'.ended s₁).flags.hToUpdate = false := by
    simp [ended, written, setContent, content, hslot, hc1', hc2', hc0', hwrite, hup']
  obtain ⟨he1, he2, he0, hew, heup⟩ := he
  obtain ⟨hx1, hx2, hxc, hxb⟩ := ro_second he1 he2 hew
  simp only [heup, Bool.false_eq_true, ↓reduceIte] at hx1 hx2 hxc hxb
  rw [hiff, hbase, hxc, hxb, he0]
  rw [hx1, hx2] at hagree1
  rw [hx1, hxb] at hagree2
  unfold OpenSound
  by_cases e2 : s₂ = []
  · have heq := some.inj (hagree1 e2 rfl)
    simp [e1, e2, heq]
  · have heq := some.inj (hagree2 e2)
    simp [e1, e2, heq]

theorem sound_iff_soundFor : Sound u.c0 s₁ s₂ v₁ v₂ ↔ u.SoundFor s₁ s₂ := by
  unfold SoundFor
  split
  · rename_i hc2
    have hc2' : u.c2 = none := by
      split_ifs at hc2
      · unfold update at hc2
        split_ifs at hc2
        · simp [synced] at hc2
        · exact hc2
      · exact hc2
    cases hk : u.write && u.kept .firstRun with
    | false => exact sound_once hs hpf hd hrun₁ hrun₂ hag hc2' hk
    | true => exact sound_kept hs hpf hd hrun₁ hrun₂ hag hc2' hk
  · rename_i c2 hc1 hc2
    have hsame : (if u.write then u.update else u) = u := by
      split_ifs at hc1 ⊢
      · unfold update at hc1 ⊢
        split_ifs at hc1 ⊢
        · simp [synced] at hc1
        · rfl
      · rfl
    rw [hsame] at hc1 hc2
    have hiff := sound_closed hs hpf hd hrun₁ hrun₂ hag hc2 (.inl ⟨hc1, Eq.refl u.c0⟩)
    simpa [hc1] using hiff
  rename_i c1 c2 hc1 hc2
  cases hw : u.write with
  | true =>
    rw [if_pos hw] at hc1 hc2
    rw [if_pos rfl]
    exact sound_open hs hpf hd hrun₁ hrun₂ hag hw hc1 hc2
  | false =>
    rw [if_neg (by simp [hw])] at hc1 hc2
    rw [if_neg (by simp)]
    have hiff := sound_closed hs hpf hd hrun₁ hrun₂ hag hc2 (.inr ⟨hw, hc1⟩)
    simpa [hc1] using hiff

end

end View

/-! ## All pages of the working set -/

variable {k k₁ k₂ k₃ : Kernel} {p : ProcNr} {L : List (Fin workingSetSize)}

/-- The commit is sound on the page of the block `i`: the element began in `k`, the runs ended in
`k₁` and `k₂`, the commit in `k₃`. -/
structure CommitSound (k : Kernel) (p : ProcNr) (ops₁ ops₂ : List UserOp) (k₁ k₂ k₃ : Kernel)
    (i : Fin workingSetSize) : Prop where
  images : visible k₁ p (k.workingSet i).vaddr = visible k₂ p (k.workingSet i).vaddr
  committed : us0Data k₃ i = visible k₂ p (k.workingSet i).vaddr
  once : ¬ (pageStores k i ops₁ = [] ↔ pageStores k i ops₂ = []) → us0Data k₃ i = us0Data k i

/-- For every element that is committed: the commit is sound exactly if every page of the working
set meets its condition. -/
theorem commit_sound_iff {ops₁ ops₂ : List UserOp} {t₁ t₂ : Trap} {rs₁ rs₂ : List UInt8}
    {sameIns : Bool} (h : PeReady k p L) (hrun₁ : runFirst k p ops₁ = some (k₁, rs₁))
    (hrun₂ : runSecond k₁ p t₁ ops₂ = some (k₂, rs₂))
    (hcommit : hardeningTask k₂ p t₂ sameIns = some (k₃, .committed)) :
    (∀ i ∈ L, CommitSound k p ops₁ ops₂ k₁ k₂ k₃ i) ↔
      ∀ i ∈ L, (startView k p i).SoundFor (pageStores k i ops₁) (pageStores k i ops₂) := by
  obtain ⟨k₀, -, hb, -, hin₁, ha₁, hv₁⟩ := runFirst_view h hrun₁
  obtain ⟨k', hagain, -, hin₂, ha₂, hv₂⟩ := runSecond_view hin₁ hrun₂
  obtain ⟨hinv₃, ho₃, hv₃⟩ := hardeningTask_committed hin₂ hcommit
  have hsame₁ := hb.outer.same.trans ha₁.same
  have hsame₂ := hsame₁.trans (hagain.outer.same.trans ha₂.same)
  refine forall₂_congr (fun i hi => ?_)
  obtain ⟨hag, hview₃⟩ := hv₃ i hi
  have hstart₂ := hv₂ i hi
  rw [hsame₁.pageStores_eq] at hstart₂
  have hclean := startView_clean h hi
  rw [← View.sound_iff_soundFor hclean.1 hclean.2.1 hclean.2.2 (hv₁ i hi) hstart₂ hag]
  have himg₁ := (hin₁.inv.pages i hi).visible_eq (v := (k.workingSet i).vaddr)
    (by rw [hsame₁.vaddr])
  have himg₂ := (hin₂.inv.pages i hi).visible_eq (v := (k.workingSet i).vaddr)
    (by rw [hsame₂.vaddr])
  have hus0 : us0Data k₃ i = (view k₂ p i).cmp.commit.c0 := by
    rw [← hview₃]
    rfl
  have hold : us0Data k i = (startView k p i).c0 := (startView_c0 k p i).symm
  constructor
  · rintro ⟨himages, hcommitted, honce⟩
    rw [himg₁, himg₂] at himages
    rw [hus0, himg₂] at hcommitted
    rw [hus0, hold] at honce
    exact ⟨himages, hcommitted, honce⟩
  rintro ⟨himages, hcommitted, honce⟩
  rw [← himg₁, ← himg₂] at himages
  rw [← hus0, ← himg₂] at hcommitted
  rw [← hus0, ← hold] at honce
  exact ⟨himages, hcommitted, honce⟩

/-- An element that only loads is committed, and its commit is sound. -/
theorem commit_sound_loads : ∃ k₁ k₂ k₃ rs, runFirst blockKernel 15 [.load 4096] = some (k₁, rs) ∧
      runSecond k₁ 15 default [.load 4096] = some (k₂, rs) ∧
      hardeningTask k₂ 15 default true = some (k₃, .committed) ∧
      ∀ i ∈ [0], CommitSound blockKernel 15 [.load 4096] [.load 4096] k₁ k₂ k₃ i := by
  obtain ⟨k₁, k₂, k₃, rs, hrun₁, hrun₂, hcommit⟩ :
      ∃ k₁ k₂ k₃ rs, runFirst blockKernel 15 [.load 4096] = some (k₁, rs) ∧
        runSecond k₁ 15 default [.load 4096] = some (k₂, rs) ∧
        hardeningTask k₂ 15 default true = some (k₃, .committed) :=
    ⟨_, _, _, _, rfl, rfl, rfl⟩
  refine ⟨k₁, k₂, k₃, rs, hrun₁, hrun₂, hcommit,
    (commit_sound_iff blockKernel_ready hrun₁ hrun₂ hcommit).mpr (fun i hi => ?_)⟩
  obtain rfl := List.mem_singleton.mp hi
  exact ⟨fun hne => absurd rfl hne, fun _ => ⟨rfl, fun hne => absurd rfl hne, fun _ _ => rfl⟩⟩

/-- Only the second run stores to a page with both private frames: the store is committed
uncompared. -/
theorem commit_unsound_second_store :
    ¬ ∀ (k : Kernel) (p : ProcNr) (L : List (Fin workingSetSize)) (ops₁ ops₂ : List UserOp)
      (t₁ t₂ : Trap) (rs₁ rs₂ : List UInt8) (sameIns : Bool) (k₁ k₂ k₃ : Kernel),
      PeReady k p L → runFirst k p ops₁ = some (k₁, rs₁) → runSecond k₁ p t₁ ops₂ = some (k₂, rs₂) →
      hardeningTask k₂ p t₂ sameIns = some (k₃, .committed) →
      ∀ i ∈ L, CommitSound k p ops₁ ops₂ k₁ k₂ k₃ i := by
  intro hall
  obtain ⟨k₁, k₂, k₃, rs₁, rs₂, hrun₁, hrun₂, hcommit, himg1, himg2⟩ :
      ∃ k₁ k₂ k₃ rs₁ rs₂, runFirst blockKernel 15 [] = some (k₁, rs₁) ∧
        runSecond k₁ 15 default [.store 4096 1] = some (k₂, rs₂) ∧
        hardeningTask k₂ 15 default true = some (k₃, .committed) ∧
        visible k₁ 15 4096 0 = 0 ∧ visible k₂ 15 4096 0 = 1 :=
    ⟨_, _, _, _, _, rfl, rfl, rfl, by decide +kernel, by decide +kernel⟩
  have hsound := hall blockKernel 15 [0] [] [.store 4096 1] default default rs₁ rs₂ true k₁ k₂ k₃
    blockKernel_ready hrun₁ hrun₂ hcommit 0 List.mem_cons_self
  have hbyte : visible k₁ 15 4096 0 = visible k₂ 15 4096 0 := congrFun hsound.images 0
  rw [himg1, himg2] at hbyte
  exact absurd hbyte (by decide)

end HardenedMinix
