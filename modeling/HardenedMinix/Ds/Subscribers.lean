import HardenedMinix.Ds.StoreMap

/-!
# Names and subscribers

Who is named by a label, which subscriptions are interested in an entry, and what is kept about
them.
-/

open Function List

namespace HardenedMinix.Ds

open Lib

variable {s s' s₁ t : State} {i j : Slot} {k k' : SubSlot} {key o : Key} {ty : Ty}
  {types : List Ty} {m : Publish} {set : Bool} {x : Subscription} {e : Entry} {ep : Endpoint}

/-! ## Names -/

def IsLabel (s : State) (o : Key) (j : Slot) : Prop :=
  (s.store j).inUse = true ∧ (s.store j).type = .label ∧ (s.store j).key = o

/-- A service with the label `o` is registered. -/
def Registered (s : State) (o : Key) : Prop := ∃ j, IsLabel s o j

/-- Labels are names: of one entry each, and of one endpoint each. -/
structure Names (s : State) : Prop where
  unique : ∀ i j, (s.store i).inUse = true → (s.store j).inUse = true →
    (s.store i).key = (s.store j).key → (s.store i).type = (s.store j).type → i = j
  numbers : ∀ i j, (s.store i).inUse = true → (s.store j).inUse = true →
    (s.store i).type = .label → (s.store j).type = .label →
    (s.store i).u32 = (s.store j).u32 → i = j
  ds : ∀ i, (s.store i).inUse = true → (s.store i).type = .label →
    (s.store i).u32 = dsProcNr → (s.store i).key = ['d', 's']

theorem Names.getprocep (h : Names s) (hj : IsLabel s o j) : getprocep s o = some (s.store j).u32 := by
  unfold Ds.getprocep
  cases hl : lookupEntry s o [.label] with
  | none => exact absurd ⟨hj.1, by simp [hj.2.1], hj.2.2⟩ (lookupEntry_none hl j)
  | some i =>
    obtain ⟨hi, hti, hki⟩ := lookupEntry_some hl
    rw [h.unique i j hi hj.1 (hki.trans hj.2.2.symm)
      ((mem_singleton.mp hti).trans hj.2.1.symm)]
    rfl

theorem Names.getprocname (h : Names s) (hj : IsLabel s o j) :
    ∃ n, getprocname s (s.store j).u32 = some n ∧ n.text s = o := by
  unfold Ds.getprocname
  split_ifs with hds
  · refine ⟨.ds, rfl, ?_⟩
    rw [← hj.2.2, h.ds j hj.1 hj.2.1 hds]
    rfl
  cases hl : lookupLabelEntry s (s.store j).u32 with
  | none =>
    have hnone := List.find?_eq_none.mp hl j (mem_finRange j)
    simp [hj.1, hj.2.1] at hnone
  | some i =>
    obtain ⟨hi, hti, hnum⟩ := lookupLabelEntry_some hl
    have hij := h.numbers i j hi hj.1 hti hj.2.1 hnum
    subst hij
    exact ⟨.key i, rfl, hj.2.2⟩

theorem getprocname_label {n : NamePtr} (hep : ep ≠ dsProcNr) (h : getprocname s ep = some n) :
    ∃ j, n = .key j ∧ IsLabel s (n.text s) j ∧ (s.store j).u32 = ep := by
  unfold Ds.getprocname at h
  rw [if_neg hep] at h
  obtain ⟨j, hl, rfl⟩ := Option.map_eq_some_iff.mp h
  obtain ⟨hj, hty, hnum⟩ := lookupLabelEntry_some hl
  exact ⟨j, rfl, ⟨hj, hty, rfl⟩, hnum⟩

theorem SameStore.names (h : SameStore s t) (hs : Names s) : Names t := by
  refine ⟨?_, ?_, ?_⟩
  · rw [h.store]
    exact hs.unique
  · rw [h.store]
    exact hs.numbers
  · rw [h.store]
    exact hs.ds

theorem SameStore.registered (h : SameStore s t) : Registered t o ↔ Registered s o := by
  unfold Registered IsLabel
  rw [h.store]

/-! ## Interest -/

/-- The pattern matches, and the owner of the subscription may know. -/
def Matches (x : Subscription) (e : Entry) : Prop :=
  x.regex e.key = true ∧ (e.priv.subscribe = true → e.owner = x.owner)

/-- The subscription is interested in the entry. -/
def Interested (x : Subscription) (e : Entry) : Prop :=
  x.inUse = true ∧ e.inUse = true ∧ e.type ∈ x.types ∧ Matches x e

instance (x : Subscription) (e : Entry) : Decidable (Interested x e) := by
  unfold Interested Matches
  infer_instance

theorem Names.checkSubMatch (h : Names s) (hj : IsLabel s x.owner j) :
    checkSubMatch s x e (s.store j).u32 = true ↔ Matches x e := by
  obtain ⟨n, hn, htext⟩ := h.getprocname hj
  unfold Ds.checkSubMatch checkAuth Matches
  rw [hn]
  simp only [Option.any_some, htext, decide_eq_true_eq, Bool.decide_or, Bool.or_eq_true]
  constructor
  · rintro ⟨hauth, hregex⟩
    refine ⟨hregex, fun hpriv => ?_⟩
    obtain hno | hsame := hauth
    · rw [hno] at hpriv
      cases hpriv
    · exact hsame.symm
  rintro ⟨hregex, hauth⟩
  refine ⟨?_, hregex⟩
  cases hpriv : e.priv.subscribe with
  | false => exact .inl rfl
  | true => exact .inr (hauth hpriv).symm

/-- A subscription, after a bit has been set or cleared if it is interested. -/
def told (x : Subscription) (e : Entry) (i : Slot) (set : Bool) : Subscription :=
  if Interested x e then { x with oldSubs := update x.oldSubs i set } else x

theorem updateSubscriber_spec (i : Slot) (set : Bool) (h : Names s)
    (hsub : (s.subs k).inUse = true → Registered s (s.subs k).owner) :
    ∃ t, updateSubscriber i set s k = some t ∧ SameStore s t ∧
      t.subs = update s.subs k (told (s.subs k) (s.store i) i set) := by
  unfold updateSubscriber told
  simp only
  split_ifs with hconcerned hint hint
  · obtain ⟨j, hj⟩ := hsub hconcerned.1
    rw [h.getprocep hj, Option.map_some, if_pos ((h.checkSubMatch hj).mpr hint.2.2.2)]
    exact ⟨_, rfl, ⟨rfl, rfl, rfl⟩, rfl⟩
  · obtain ⟨j, hj⟩ := hsub hconcerned.1
    have hno : ¬ Ds.checkSubMatch s (s.subs k) (s.store i) (s.store j).u32 = true := by
      intro hyes
      exact hint ⟨hconcerned.1, hconcerned.2.1, hconcerned.2.2, (h.checkSubMatch hj).mp hyes⟩
    rw [h.getprocep hj, Option.map_some, if_neg hno]
    exact ⟨s, rfl, .refl s, (update_eq_self _ _).symm⟩
  · exact absurd ⟨hint.1, hint.2.1, hint.2.2.1⟩ hconcerned
  · exact ⟨s, rfl, .refl s, (update_eq_self _ _).symm⟩

theorem updateSubscribers_spec (i : Slot) (set : Bool) (h : Names s)
    (hsubs : ∀ k, (s.subs k).inUse = true → Registered s (s.subs k).owner) :
    ∃ t, updateSubscribers s i set = some t ∧ SameStore s t ∧
      ∀ k, t.subs k = told (s.subs k) (s.store i) i set := by
  have hloop : ∀ (l : List SubSlot) (s : State), Names s →
      (∀ k, (s.subs k).inUse = true → Registered s (s.subs k).owner) → l.Nodup →
      ∃ t, l.foldlM (updateSubscriber i set) s = some t ∧ SameStore s t ∧
        ∀ k, t.subs k = if k ∈ l then told (s.subs k) (s.store i) i set else s.subs k := by
    intro l
    induction l with
    | nil =>
      intro s _ _ _
      exact ⟨s, rfl, .refl s, fun k => by simp⟩
    | cons k l ih =>
      intro s h hsubs hnodup
      obtain ⟨hout, hl⟩ := nodup_cons.mp hnodup
      obtain ⟨s₁, hstep, hsame, hk⟩ := updateSubscriber_spec i set h (hsubs k)
      have htold : ∀ x e, (told x e i set).inUse = x.inUse ∧ (told x e i set).owner = x.owner := by
        intro x e
        unfold told
        split_ifs
        · exact ⟨rfl, rfl⟩
        · exact ⟨rfl, rfl⟩
      obtain ⟨t, hrest, hsame', ht⟩ := ih s₁ (hsame.names h) (fun k' hk' => by
        rw [hsame.registered]
        rw [hk] at hk' ⊢
        by_cases hkk : k' = k
        · subst hkk
          rw [update_self] at hk' ⊢
          rw [(htold _ _).2]
          rw [(htold _ _).1] at hk'
          exact hsubs k' hk'
        · rw [update_of_ne hkk] at hk' ⊢
          exact hsubs k' hk') hl
      refine ⟨t, ?_, hsame.trans hsame', fun k' => ?_⟩
      · rw [foldlM_cons, hstep]
        exact hrest
      rw [ht k', hk, hsame.store]
      by_cases hkk : k' = k
      · subst hkk
        rw [if_neg hout, if_pos mem_cons_self, update_self]
      · rw [update_of_ne hkk]
        simp [hkk]
  obtain ⟨t, hrun, hsame, ht⟩ := hloop (List.finRange nrDsSubs) s h hsubs (nodup_finRange _)
  refine ⟨t, hrun, hsame, fun k => ?_⟩
  rw [ht k, if_pos (mem_finRange k)]

theorem told_fields (x : Subscription) (e : Entry) (i : Slot) (set : Bool) :
    (told x e i set).inUse = x.inUse ∧ (told x e i set).owner = x.owner ∧
      (told x e i set).types = x.types ∧ (told x e i set).regex = x.regex := by
  unfold told
  split_ifs
  · exact ⟨rfl, rfl, rfl, rfl⟩
  · exact ⟨rfl, rfl, rfl, rfl⟩

theorem told_interested {e' : Entry} : Interested (told x e i set) e' ↔ Interested x e' := by
  obtain ⟨h1, h2, h3, h4⟩ := told_fields x e i set
  unfold Interested Matches
  rw [h1, h2, h3, h4]

theorem told_bit_ne (h : j ≠ i) : (told x e i set).oldSubs j = x.oldSubs j := by
  unfold told
  split_ifs
  · exact update_of_ne h _ _
  · rfl

theorem told_bit (h : Interested x e) : (told x e i set).oldSubs i = set := by
  unfold told
  rw [if_pos h]
  exact update_self _ _ _

theorem told_not (h : ¬ Interested x e) : told x e i set = x := if_neg h

/-! ## What is kept -/

/-- Each subscription is owned by a registered service, which has one at most; its bits are for
entries it is interested in. -/
structure Serving (s : State) : Prop where
  names : Names s
  subs : ∀ k, (s.subs k).inUse = true → Registered s (s.subs k).owner
  single : ∀ k k', (s.subs k).inUse = true → (s.subs k').inUse = true →
    (s.subs k).owner = (s.subs k').owner → k = k'
  bits : ∀ k i, (s.subs k).inUse = true → (s.subs k).oldSubs i = true →
    Interested (s.subs k) (s.store i)

/-- And each entry is owned by a registered service. -/
structure Served (s : State) : Prop extends Serving s where
  entries : ∀ i, (s.store i).inUse = true → Registered s (s.store i).owner

/-- The entry has to be reported to the service. -/
def Due (o key : Key) (ty : Ty) (s : State) : Prop :=
  ∃ k i, (s.subs k).inUse = true ∧ (s.subs k).owner = o ∧ (s.subs k).oldSubs i = true ∧
    (s.store i).inUse = true ∧ (s.store i).key = key ∧ (s.store i).type = ty

theorem Serving.tell (h : Serving s) (i : Slot) (set : Bool) : ∃ t, updateSubscribers s i set = some t ∧ SameStore s t ∧
    (∀ k, t.subs k = told (s.subs k) (s.store i) i set) ∧ Serving t := by
  obtain ⟨t, hrun, hsame, ht⟩ := updateSubscribers_spec i set h.names h.subs
  refine ⟨t, hrun, hsame, ht, hsame.names h.names, fun k hk => ?_, fun k k' hk hk' ho => ?_,
    fun k j hk hbit => ?_⟩
  · rw [ht, (told_fields _ _ _ _).1] at hk
    rw [ht, (told_fields _ _ _ _).2.1]
    exact hsame.registered.mpr (h.subs k hk)
  · rw [ht, (told_fields _ _ _ _).1] at hk hk'
    rw [ht, ht, (told_fields _ _ _ _).2.1, (told_fields _ _ _ _).2.1] at ho
    exact h.single k k' hk hk' ho
  rw [ht, (told_fields _ _ _ _).1] at hk
  rw [ht] at hbit ⊢
  rw [told_interested, hsame.store]
  by_cases hj : j = i
  · subst hj
    by_cases hint : Interested (s.subs k) (s.store j)
    · exact hint
    · rw [told_not hint] at hbit
      exact h.bits k j hk hbit
  · rw [told_bit_ne hj] at hbit
    exact h.bits k j hk hbit

theorem Serving.remove (h : Serving s)
    (hsubs : ∀ k, (s.subs k).inUse = true → ∃ j, IsLabel s (s.subs k).owner j ∧ j ≠ i) :
    ∃ t, updateSubscribers s i false = some t ∧ SameStore s t ∧
      (∀ k, t.subs k = told (s.subs k) (s.store i) i false) ∧
      Serving (t.setEntry i { t.store i with inUse := false }) := by
  obtain ⟨t, hrun, hsame, ht, hserving⟩ := h.tell i false
  have hothers : ∀ j, j ≠ i → (t.setEntry i { t.store i with inUse := false }).store j =
      s.store j := by
    intro j hj
    rw [← hsame.store]
    exact update_of_ne hj _ _
  have hused : ∀ j, ((t.setEntry i { t.store i with inUse := false }).store j).inUse = true →
      j ≠ i := by
    rintro j hj rfl
    rw [setEntry_store] at hj
    cases hj
  refine ⟨t, hrun, hsame, ht, ⟨fun j j' hj hj' hkey hty => ?_, fun j j' hj hj' htj htj' hnum => ?_,
    fun j hj hty hnum => ?_⟩, fun k hk => ?_, hserving.single, fun k j hk hbit => ?_⟩
  · have hne := hused j hj
    have hne' := hused j' hj'
    rw [hothers j hne] at hj hkey hty
    rw [hothers j' hne'] at hj' hkey hty
    exact h.names.unique j j' hj hj' hkey hty
  · have hne := hused j hj
    have hne' := hused j' hj'
    rw [hothers j hne] at hj htj hnum
    rw [hothers j' hne'] at hj' htj' hnum
    exact h.names.numbers j j' hj hj' htj htj' hnum
  · have hne := hused j hj
    rw [hothers j hne] at hj hty hnum ⊢
    exact h.names.ds j hj hty hnum
  · have hk' : (t.subs k).inUse = true := hk
    show Registered _ (t.subs k).owner
    rw [ht, (told_fields _ _ _ _).1] at hk'
    rw [ht, (told_fields _ _ _ _).2.1]
    obtain ⟨j, hj, hne⟩ := hsubs k hk'
    refine ⟨j, ?_⟩
    unfold IsLabel at hj ⊢
    rwa [hothers j hne]
  have hk' : (t.subs k).inUse = true := hk
  have hbit' : (t.subs k).oldSubs j = true := hbit
  have hint := hserving.bits k j hk' hbit'
  have hne : j ≠ i := by
    rintro rfl
    rw [ht, told_interested, hsame.store] at hint
    rw [ht, told_bit hint] at hbit'
    cases hbit'
  show Interested (t.subs k) _
  rw [hothers j hne, ← hsame.store]
  exact hint

end HardenedMinix.Ds
