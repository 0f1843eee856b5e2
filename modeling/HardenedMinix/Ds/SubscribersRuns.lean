import HardenedMinix.Ds.Subscribers
import HardenedMinix.Ds.StoreAtomic

/-!
# Subscribers miss nothing

What has to be reported stays so until it is reported, in runs that take no name from its owner
and no entry from a subscriber that waits for it.
-/

open Function

namespace HardenedMinix.Ds

open Lib

variable {s s' s₁ t : State} {i j : Slot} {k k' : SubSlot} {key o : Key} {ty : Ty}
  {types : List Ty} {m : Publish} {x : Subscription} {e : Err} {r : Request} {reply : Reply}
  {n : NamePtr} {res : Option Err}

/-! ## Conditions -/

/-- The data store does not send requests to itself. -/
def FromOther : Request → Prop
  | .publish m => m.source ≠ dsProcNr
  | .subscribe m => m.source ≠ dsProcNr
  | .check source _ => source ≠ dsProcNr
  | .delete source _ _ => source ≠ dsProcNr
  | _ => True

/-- It takes no number from another label, no name from a label that owns something, no entry from a
subscription that waits. -/
structure FairTarget (s : State) (m : Publish) (key : Key) (i : Slot) (n : NamePtr) : Prop where
  number : m.types = [.label] → (m.val = dsProcNr → key = ['d', 's']) ∧
    ∀ j, j ≠ i → (s.store j).inUse = true → (s.store j).type = .label → (s.store j).u32 ≠ m.val
  renamed : (s.store i).inUse = true → (s.store i).key ≠ key →
    (∀ j, j ≠ i → (s.store j).inUse = true → (s.store j).owner ≠ (s.store i).key) ∧
      ∀ k, (s.subs k).inUse = true → (s.subs k).owner ≠ (s.store i).key
  waiting : (s.store i).inUse = true → ∀ k, (s.subs k).inUse = true →
    (s.subs k).oldSubs i = true → (s.subs k).regex key = true ∧
      (m.priv.subscribe = true → (s.subs k).owner = n.text s)

/-- Names stay with their owners, new patterns compile, and a label that is deleted leaves no
services with labels from it. -/
def Fair (s : State) : Request → Prop
  | .publish m => ∀ key i n, getprocname s m.source = some n →
    (.label ∈ m.types → m.source = rsProcNr) → m.key = .ok key →
    publishTarget s m key = .ok i → (storeValue s m i).1 = none → FairTarget s m key i n
  | .subscribe m => ∀ n k, getprocname s m.source = some n →
    subscribeTarget s m (n.text s) = .ok k → (s.subs k).inUse = true →
    (∃ key, m.key = .ok key) → m.compiled ≠ .badPattern
  | .delete source key types => ∀ n k i, getprocname s source = some n → key = .ok k →
    types = [.label] → lookupEntry s k types = some i → (s.store i).owner = n.text s →
    ∀ j, (s.store j).inUse = true → (s.store j).type = .label → (s.store j).owner = k →
      (∀ l, (s.store l).inUse = true → (s.store l).owner = (s.store j).key → (s.store l).owner = k) ∧
      ∀ x, (s.subs x).inUse = true → (s.subs x).owner = (s.store j).key → (s.subs x).owner = k
  | _ => True

/-- What ends the wait: the report, the end of the entry, of the subscription, or of the service. -/
def Ended (o key : Key) (ty : Ty) (s : State) (r : Request) : Prop :=
  ∃ reply t, handle s r = some (reply, t) ∧
    ((∃ source copy ep n, r = .check source copy ∧ getprocname s source = some n ∧ n.text s = o ∧
        reply = .report key [ty] ep) ∨
      (∀ i, ¬ ((t.store i).inUse = true ∧ (t.store i).key = key ∧ (t.store i).type = ty)) ∨
      (∃ m n, r = .subscribe m ∧ reply = .ok ∧ getprocname s m.source = some n ∧ n.text s = o) ∨
      ¬ Registered t o)

/-- The service is interested in an entry that it has published, or that it wants to be told of at
once. -/
def Promised (o key : Key) (ty : Ty) (s : State) (r : Request) : Prop :=
  ∃ t k i, handle s r = some (.ok, t) ∧ (t.subs k).owner = o ∧ Interested (t.subs k) (t.store i) ∧
    (t.store i).key = key ∧ (t.store i).type = ty ∧
    ((∃ m, r = .publish m ∧ m.key = .ok key ∧ m.types = [ty]) ∨
      ∃ m n, r = .subscribe m ∧ m.initial = true ∧ getprocname s m.source = some n ∧ n.text s = o)

/-! ## Memory does not matter -/

/-- Only buffers, and what is in them, are different. -/
structure SameTags (s t : State) : Prop where
  subs : t.subs = s.subs
  store : ∀ j, t.store j = { s.store j with
    data := (t.store j).data, length := (t.store j).length, reallen := (t.store j).reallen }

theorem SameTags.refl (s : State) : SameTags s s := ⟨rfl, fun _ => rfl⟩

theorem SameTags.trans (h : SameTags s s₁) (h' : SameTags s₁ t) : SameTags s t := by
  refine ⟨h'.subs.trans h.subs, fun j => ?_⟩
  rw [h'.store j, h.store j]

theorem SameTags.of_eq (hsubs : t.subs = s.subs) (hstore : t.store = s.store) : SameTags s t :=
  ⟨hsubs, fun j => by rw [hstore]⟩

theorem free_tags (d : Option Addr) : SameTags s (free s d) := by
  unfold free
  split
  next => exact .refl s
  split
  next => exact .of_eq rfl rfl
  next => exact .of_eq rfl rfl

theorem write_tags (d : Option Addr) (bytes : List Byte) : SameTags s (write s d bytes) := by
  unfold write
  split
  next => exact .of_eq rfl rfl
  split_ifs
  · exact .of_eq rfl rfl
  · exact .of_eq rfl rfl

theorem getBuffer_tags : SameTags s (getBuffer s m i).2 := by
  have hset : ∀ (s₁ : State) (d : Option Addr) (l : Nat), SameTags s s₁ →
      SameTags s (s₁.setEntry i { s.store i with data := d, reallen := l }) := by
    intro s₁ d l h
    refine ⟨h.subs, fun j => ?_⟩
    by_cases hj : j = i
    · subst hj
      rw [setEntry_store]
    · have heq : (s₁.setEntry i { s.store i with data := d, reallen := l }).store j =
          s₁.store j := update_of_ne hj _ _
      rw [heq]
      exact h.store j
  unfold getBuffer
  simp only
  split_ifs
  · split
    next => exact hset _ _ _ (.refl s)
    next => exact hset _ _ _ (.of_eq rfl rfl)
  · split
    next => exact hset _ _ _ (free_tags _)
    next => exact hset _ _ _ ((free_tags _).trans (.of_eq rfl rfl))
  · exact .refl s

theorem fillBuffer_tags : SameTags s (fillBuffer s m i).2 := by
  unfold fillBuffer
  simp only
  split
  next => exact free_tags _
  rename_i bytes hok
  have hset : SameTags s ((write s (s.store i).data (terminated m.types bytes)).setEntry i
      { s.store i with length := m.length }) := by
    have hwrite := write_tags (s := s) (s.store i).data (terminated m.types bytes)
    refine ⟨hwrite.subs, fun j => ?_⟩
    by_cases hj : j = i
    · subst hj
      rw [setEntry_store]
    have heq : ((write s (s.store i).data (terminated m.types bytes)).setEntry i
        { s.store i with length := m.length }).store j =
        (write s (s.store i).data (terminated m.types bytes)).store j :=
      update_of_ne hj _ _
    rw [heq]
    exact hwrite.store j
  split_ifs
  · exact hset.trans (.of_eq rfl rfl)
  · exact hset

theorem storeMem_tags : SameTags s (storeMem s m i).2 := by
  unfold storeMem
  simp only
  split_ifs
  · exact getBuffer_tags
  · exact getBuffer_tags.trans fillBuffer_tags

theorem storeValue_tags : SameTags s (storeValue s m i).2 ∨
    (storeValue s m i).2 = s.setEntry i { s.store i with u32 := m.val } ∧
      (storeValue s m i).1 = none := by
  unfold storeValue
  split
  next => exact .inr ⟨rfl, rfl⟩
  next => exact .inr ⟨rfl, rfl⟩
  next => exact .inl storeMem_tags
  next => exact .inl storeMem_tags
  next => exact .inl (.refl s)

theorem SameTags.label (h : SameTags s t) : IsLabel t o j ↔ IsLabel s o j := by
  unfold IsLabel
  rw [h.store j]

theorem SameTags.registered (h : SameTags s t) : Registered t o ↔ Registered s o := by
  unfold Registered
  simp only [h.label]

theorem SameTags.interested (h : SameTags s t) :
    Interested x (t.store j) ↔ Interested x (s.store j) := by
  unfold Interested Matches
  rw [h.store j]

theorem SameTags.served (h : SameTags s t) (hs : Served s) : Served t := by
  have hnames : Names t := by
    refine ⟨fun i j => ?_, fun i j => ?_, fun i => ?_⟩
    · rw [h.store i, h.store j]
      exact hs.names.unique i j
    · rw [h.store i, h.store j]
      exact hs.names.numbers i j
    · rw [h.store i]
      exact hs.names.ds i
  refine ⟨⟨hnames, fun k hk => ?_, ?_, fun k j hk hbit => ?_⟩, fun j hj => ?_⟩
  · rw [h.subs] at hk ⊢
    exact h.registered.mpr (hs.subs k hk)
  · rw [h.subs]
    exact hs.single
  · rw [h.subs] at hk hbit ⊢
    exact h.interested.mpr (hs.bits k j hk hbit)
  · rw [h.store j] at hj ⊢
    exact h.registered.mpr (hs.entries j hj)

theorem SameTags.due (h : SameTags s t) (hs : Due o key ty s) : Due o key ty t := by
  obtain ⟨k, i, hk, ho, hbit, hi, hkey, hty⟩ := hs
  refine ⟨k, i, ?_⟩
  rw [h.subs, h.store i]
  exact ⟨hk, ho, hbit, hi, hkey, hty⟩

/-! ## Publishing -/

/-- An entry after a publication, and everything else as it was, besides buffers. -/
structure Entry.Now (s t : State) (m : Publish) (i : Slot) (key : Key) (ty : Ty) (n : NamePtr) :
    Prop where
  subs : t.subs = s.subs
  others : ∀ j, j ≠ i → t.store j = { s.store j with
    data := (t.store j).data, length := (t.store j).length, reallen := (t.store j).reallen }
  inUse : (t.store i).inUse = true
  key : (t.store i).key = key
  type : (t.store i).type = ty
  priv : (t.store i).priv = m.priv
  owner : (t.store i).owner = n.text t
  number : ty = .label → (t.store i).u32 = m.val

theorem Entry.Now.label (h : Entry.Now s t m i key ty n) (hj : j ≠ i) :
    IsLabel t o j ↔ IsLabel s o j := by
  unfold IsLabel
  rw [h.others j hj]

theorem Entry.Now.registered (h : Entry.Now s t m i key ty n) (htypes : m.types = [ty])
    (htarget : publishTarget s m key = .ok i) (ho : Registered s o)
    (hkeep : (s.store i).inUse = true → (s.store i).key ≠ key → o ≠ (s.store i).key) :
    Registered t o := by
  obtain ⟨j, hj⟩ := ho
  by_cases hji : j = i
  · subst hji
    obtain ⟨hused, hlabel, hkey⟩ := hj
    have hsame : (s.store j).key = key := by
      by_contra hne
      exact hkeep hused hne hkey.symm
    refine ⟨j, h.inUse, ?_, ?_⟩
    · rw [h.type, ← target_type htypes htarget hused]
      exact hlabel
    · rw [h.key, ← hsame]
      exact hkey
  · exact ⟨j, (h.label hji).mpr hj⟩

theorem Entry.Now.owner_registered (h : Entry.Now s t m i key ty n) (htypes : m.types = [ty])
    (htarget : publishTarget s m key = .ok i) (hsource : m.source ≠ dsProcNr)
    (hn : getprocname s m.source = some n) : Registered t (n.text t) := by
  obtain ⟨j, rfl, hj, -⟩ := getprocname_label hsource hn
  by_cases hji : j = i
  · subst hji
    refine ⟨j, h.inUse, ?_, rfl⟩
    rw [h.type, ← target_type htypes htarget hj.1]
    exact hj.2.1
  refine ⟨j, ?_⟩
  rw [h.label hji]
  have htext : (NamePtr.key j).text t = (NamePtr.key j).text s := by
    show (t.store j).key = (s.store j).key
    rw [h.others j hji]
  rw [htext]
  exact hj

theorem Entry.Now.served (h : Entry.Now s t m i key ty n) (hs : Served s)
    (hfair : FairTarget s m key i n) (htypes : m.types = [ty])
    (htarget : publishTarget s m key = .ok i) (hsource : m.source ≠ dsProcNr)
    (hn : getprocname s m.source = some n) : Served t := by
  have hunique : ∀ j, j ≠ i → (t.store j).inUse = true → (t.store j).key = (t.store i).key →
      (t.store j).type ≠ (t.store i).type := by
    intro j hj
    rw [h.others j hj, h.key, h.type]
    exact target_unique hs.names.unique htypes htarget hj
  have hnumber : ∀ j, j ≠ i → (t.store j).inUse = true → (t.store j).type = .label →
      (t.store i).type = .label → (t.store j).u32 ≠ (t.store i).u32 := by
    intro j hj hused hlabel hthis
    rw [h.type] at hthis
    rw [h.others j hj] at hused hlabel ⊢
    rw [h.number hthis]
    exact (hfair.number (by rw [htypes, hthis])).2 j hj hused hlabel
  have hnames : Names t := by
    refine ⟨fun j j' hj hj' hkey hty => ?_, fun j j' hj hj' hty hty' hnum => ?_,
      fun j hj hty hnum => ?_⟩
    · by_cases hji : j = i
      · by_cases hji' : j' = i
        · rw [hji, hji']
        · subst hji
          exact absurd hty.symm (hunique j' hji' hj' hkey.symm)
      by_cases hji' : j' = i
      · subst hji'
        exact absurd hty (hunique j hji hj hkey)
      · rw [h.others j hji] at hj hkey hty
        rw [h.others j' hji'] at hj' hkey hty
        exact hs.names.unique j j' hj hj' hkey hty
    · by_cases hji : j = i
      · by_cases hji' : j' = i
        · rw [hji, hji']
        · subst hji
          exact absurd hnum.symm (hnumber j' hji' hj' hty' hty)
      by_cases hji' : j' = i
      · subst hji'
        exact absurd hnum (hnumber j hji hj hty hty')
      · rw [h.others j hji] at hj hty hnum
        rw [h.others j' hji'] at hj' hty' hnum
        exact hs.names.numbers j j' hj hj' hty hty' hnum
    by_cases hji : j = i
    · subst hji
      rw [h.type] at hty
      rw [h.number hty] at hnum
      rw [h.key]
      exact (hfair.number (by rw [htypes, hty])).1 hnum
    · rw [h.others j hji] at hj hty hnum ⊢
      exact hs.names.ds j hj hty hnum
  refine ⟨⟨hnames, fun k hk => ?_, ?_, fun k j hk hbit => ?_⟩, fun j hj => ?_⟩
  · rw [h.subs] at hk ⊢
    refine h.registered htypes htarget (hs.subs k hk) fun hused hne => ?_
    exact (hfair.renamed hused hne).2 k hk
  · rw [h.subs]
    exact hs.single
  · rw [h.subs] at hk hbit ⊢
    have hold := hs.bits k j hk hbit
    by_cases hji : j = i
    · subst hji
      obtain ⟨-, hused, hty, -⟩ := hold
      obtain ⟨hregex, hpriv⟩ := hfair.waiting hused k hk hbit
      refine ⟨hk, h.inUse, ?_, ?_, fun hp => ?_⟩
      · rw [h.type, ← target_type htypes htarget hused]
        exact hty
      · rw [h.key]
        exact hregex
      rw [h.priv] at hp
      have howner := hpriv hp
      rw [h.owner, howner]
      -- its name is the same, or nobody has it any more
      obtain ⟨j', rfl, hj', -⟩ := getprocname_label hsource hn
      show (t.store j').key = (s.store j').key
      by_cases hjj : j' = j
      · subst hjj
        rw [h.key]
        by_contra hne
        exact (hfair.renamed hused (Ne.symm hne)).2 k hk howner
      · rw [h.others j' hjj]
    · have hsame : Interested (s.subs k) (t.store j) ↔ Interested (s.subs k) (s.store j) := by
        unfold Interested Matches
        rw [h.others j hji]
      exact hsame.mpr hold
  · by_cases hji : j = i
    · subst hji
      rw [h.owner]
      exact h.owner_registered htypes htarget hsource hn
    · rw [h.others j hji] at hj ⊢
      refine h.registered htypes htarget (hs.entries j hj) fun hused hne => ?_
      exact (hfair.renamed hused hne).1 j hji hj

theorem Entry.Now.due {key' : Key} {ty' : Ty} (h : Entry.Now s t m i key ty n) (hs : Served s)
    (htypes : m.types = [ty]) (htarget : publishTarget s m key = .ok i) (hdue : Due o key' ty' s) :
    Due o key' ty' t ∨
      ∀ j, ¬ ((t.store j).inUse = true ∧ (t.store j).key = key' ∧ (t.store j).type = ty') := by
  obtain ⟨k, j, hk, ho, hbit, hj, hkey, hty⟩ := hdue
  by_cases hji : j = i
  · subst hji
    have htype := target_type htypes htarget hj
    by_cases hsame : (s.store j).key = key
    · refine .inl ⟨k, j, ?_⟩
      rw [h.subs, h.key, h.type, ← hsame, ← htype]
      exact ⟨hk, ho, hbit, h.inUse, hkey, hty⟩
    refine .inr ?_
    rintro l ⟨hl, hkl, htl⟩
    by_cases hlj : l = j
    · subst hlj
      rw [h.key] at hkl
      exact hsame (hkey.trans hkl.symm)
    · rw [h.others l hlj] at hl hkl htl
      exact hlj (hs.names.unique l j hl hj (hkl.trans hkey.symm) (htl.trans hty.symm))
  · refine .inl ⟨k, j, ?_⟩
    rw [h.subs, h.others j hji]
    exact ⟨hk, ho, hbit, hj, hkey, hty⟩

theorem told_due (h : ∀ k, t.subs k = told (s.subs k) (s.store i) i true) (hsame : SameStore s t)
    (hdue : Due o key ty s) : Due o key ty t := by
  obtain ⟨k, j, hk, ho, hbit, hj, hkey, hty⟩ := hdue
  refine ⟨k, j, ?_⟩
  obtain ⟨h1, h2, -, -⟩ := told_fields (s.subs k) (s.store i) i true
  rw [h k, h1, h2, hsame.store]
  refine ⟨hk, ho, ?_, hj, hkey, hty⟩
  by_cases hji : j = i
  · subst hji
    by_cases hint : Interested (s.subs k) (s.store j)
    · exact told_bit hint
    · rw [told_not hint]
      exact hbit
  · rw [told_bit_ne hji]
    exact hbit

theorem setAttributes_now (key : Key) (n : NamePtr) (htypes : oneType m.types = some ty)
    (hstore : storeValue s m i = (none, s₁)) :
    Entry.Now s (setAttributes s₁ m i key n) m i key ty n := by
  obtain ⟨owner, hself, htext⟩ := setAttributes_self s₁ m i key n
  have htags := storeValue_tags (s := s) (m := m) (i := i)
  rw [hstore] at htags
  dsimp only at htags
  have hothers : ∀ j, j ≠ i → s₁.store j = { s.store j with
      data := (s₁.store j).data, length := (s₁.store j).length,
      reallen := (s₁.store j).reallen } := by
    intro j hj
    obtain htags | ⟨heq, -⟩ := htags
    · exact htags.store j
    · have hsame : s₁.store j = s.store j := by
        rw [heq]
        exact update_of_ne hj _ _
      rw [hsame]
  refine ⟨?_, fun j hj => ?_, ?_, ?_, ?_, ?_, ?_, fun hlabel => ?_⟩
  · obtain htags | ⟨heq, -⟩ := htags
    · exact htags.subs
    · show s₁.subs = s.subs
      rw [heq]
      rfl
  · rw [setAttributes_others hj]
    exact hothers j hj
  · rw [hself]
  · rw [hself]
  · rw [hself, htypes]
    rfl
  · rw [hself]
  · rw [hself]
    exact htext.symm
  rw [hself]
  unfold storeValue at hstore
  rw [htypes, hlabel] at hstore
  cases hstore
  rw [setEntry_store]

/-! ## The requests -/

/-- What a request does for the subscribers. -/
structure Serves (s : State) (r : Request) (reply : Reply) (t : State) : Prop where
  run : handle s r = some (reply, t)
  served : Served t
  due : ∀ o key ty, Due o key ty s → Due o key ty t ∨ Ended o key ty s r
  promised : ∀ o key ty, Promised o key ty s r → Due o key ty t

theorem Serves.of_tags (hrun : handle s r = some (reply, t)) (hok : reply ≠ .ok) (h : SameTags s t)
    (hs : Served s) : Serves s r reply t := by
  refine ⟨hrun, h.served hs, fun o key ty hdue => .inl (h.due hdue), ?_⟩
  rintro o key ty ⟨t', -, -, hrun', -⟩
  rw [hrun] at hrun'
  cases hrun'
  exact absurd rfl hok

theorem doPublish_serves (h : Served s) (hfrom : FromOther (.publish m))
    (hfair : Fair s (.publish m)) : ∃ reply t, Serves s (.publish m) reply t := by
  have herr : ∀ e, handle s (.publish m) = some (.error e, s) →
      ∃ reply t, Serves s (.publish m) reply t :=
    fun e hrun => ⟨_, s, .of_tags hrun (by simp) (.refl s) h⟩
  cases hn : getprocname s m.source with
  | none => exact herr .eperm (by simp [handle, doPublish, hn])
  | some n =>
    by_cases hlabel : .label ∈ m.types ∧ m.source ≠ rsProcNr
    · exact herr .eperm (by simp [handle, doPublish, hn, hlabel])
    cases hkey : m.key with
    | error e => exact herr e (by simp only [handle, doPublish, hn, if_neg hlabel, hkey])
    | ok key =>
      cases htarget : publishTarget s m key with
      | error e => exact herr e (by simp only [handle, doPublish, hn, if_neg hlabel, hkey, htarget])
      | ok i =>
        cases hstore : storeValue s m i with
        | mk res s₁ =>
          cases res with
          | some e =>
            refine ⟨.error e, s₁, .of_tags ?_ (by simp) ?_ h⟩
            · simp only [handle, doPublish, hn, if_neg hlabel, hkey, htarget, hstore]
            · obtain htags | ⟨-, hbad⟩ := storeValue_tags (s := s) (m := m) (i := i)
              · rwa [hstore] at htags
              · rw [hstore] at hbad
                cases hbad
          | none =>
            have hty : ∃ ty, oneType m.types = some ty := by
              cases hty : oneType m.types with
              | none =>
                unfold storeValue at hstore
                rw [hty] at hstore
                cases hstore
              | some ty => exact ⟨ty, rfl⟩
            obtain ⟨ty, hty⟩ := hty
            obtain ⟨htypes, -⟩ := oneType_some hty
            have hnow := setAttributes_now key n hty hstore
            have hrs : .label ∈ m.types → m.source = rsProcNr := by
              intro hmem
              by_contra hne
              exact hlabel ⟨hmem, hne⟩
            have hserved := hnow.served h (hfair key i n hn hrs hkey htarget (by rw [hstore]))
              htypes htarget hfrom hn
            obtain ⟨t, hupdate, hsame, ht, hserving⟩ := hserved.toServing.tell i true
            have hrun : handle s (.publish m) = some (.ok, t) := by
              simp only [handle, doPublish, hn, if_neg hlabel, hkey, htarget, hstore, hupdate]
              rfl
            refine ⟨.ok, t, hrun, ⟨hserving, fun j hj => ?_⟩, fun o key' ty' hdue => ?_, ?_⟩
            · rw [hsame.store] at hj ⊢
              exact hsame.registered.mpr (hserved.entries j hj)
            · obtain hdue | hgone := hnow.due h htypes htarget hdue
              · exact .inl (told_due ht hsame hdue)
              · refine .inr ⟨.ok, t, hrun, .inr (.inl fun j => ?_)⟩
                rw [hsame.store]
                exact hgone j
            rintro o key' ty' ⟨t', k, j, hrun', ho, hint, hkj, htj, hwhy⟩
            rw [hrun] at hrun'
            cases hrun'
            obtain ⟨m', hm, hkm, htm⟩ | ⟨m', n', hm, -⟩ := hwhy
            · cases hm
              rw [hkey] at hkm
              cases hkm
              rw [htypes] at htm
              cases htm
              -- the entry is the one that has just been published
              have hji : j = i := by
                rw [hsame.store] at hint hkj htj
                apply hserved.names.unique j i hint.2.1 hnow.inUse
                · rw [hnow.key, hkj]
                · rw [hnow.type, htj]
              subst hji
              refine ⟨k, j, hint.1, ho, ?_, hint.2.1, hkj, htj⟩
              rw [ht k, told_interested, hsame.store] at hint
              rw [ht k]
              exact told_bit hint
            · cases hm

theorem lookupSub_some (h : lookupSub s o = some k) :
    (s.subs k).inUse = true ∧ (s.subs k).owner = o := by
  have := List.find?_some h
  simpa using this

theorem lookupSub_none (h : lookupSub s o = none) (hk : (s.subs k).inUse = true) :
    (s.subs k).owner ≠ o := by
  have := List.find?_eq_none.mp h k (List.mem_finRange k)
  simp only [hk, true_and, decide_eq_true_eq] at this
  exact this

variable {m : Subscribe} {source : Endpoint}

theorem subscribeTarget_ok (h : subscribeTarget s m o = .ok k) :
    (s.subs k).inUse = true ∧ (s.subs k).owner = o ∨
      (s.subs k).inUse = false ∧ ∀ k', (s.subs k').inUse = true → (s.subs k').owner ≠ o := by
  unfold subscribeTarget at h
  split at h
  next hnone =>
    split at h
    next => cases h
    rename_i k' halloc
    cases h
    refine .inr ⟨?_, fun k' hk' => lookupSub_none hnone hk'⟩
    have := List.find?_some halloc
    simpa using this
  rename_i k' hsome
  split_ifs at h
  cases h
  exact .inl (lookupSub_some hsome)

theorem setSub_serves (h : Served s) (hfrom : FromOther (.subscribe m))
    (hn : getprocname s m.source = some n) (htarget : subscribeTarget s m (n.text s) = .ok k)
    (hx : x.inUse = true ∧ x.owner = n.text s)
    (hbits : ∀ i, x.oldSubs i = true → Interested x (s.store i))
    (hsubs : t.subs = update s.subs k x) (hstore : t.store = s.store) :
    Served t ∧ ∀ o key ty, o ≠ n.text s → Due o key ty s → Due o key ty t := by
  obtain ⟨j, rfl, hj, -⟩ := getprocname_label hfrom hn
  have hreg : ∀ o, Registered t o ↔ Registered s o := by
    intro o
    unfold Registered IsLabel
    rw [hstore]
  have hself : t.subs k = x := by
    rw [hsubs]
    exact update_self _ _ _
  have hothers : ∀ k', k' ≠ k → t.subs k' = s.subs k' := by
    intro k' hk'
    rw [hsubs]
    exact update_of_ne hk' _ _
  have hsingle : ∀ k', k' ≠ k → (s.subs k').inUse = true → (s.subs k').owner ≠ x.owner := by
    intro k' hk' hused howner
    rw [hx.2] at howner
    obtain ⟨hk, hown⟩ | ⟨-, hnone⟩ := subscribeTarget_ok htarget
    · exact hk' (h.single k' k hused hk (howner.trans hown.symm))
    · exact hnone k' hused howner
  refine ⟨⟨⟨?_, fun k' hk' => ?_, fun k1 k2 h1 h2 ho => ?_, fun k' i hk' hbit => ?_⟩, fun i hi => ?_⟩,
    fun o key ty hne hdue => ?_⟩
  · refine ⟨?_, ?_, ?_⟩
    · rw [hstore]
      exact h.names.unique
    · rw [hstore]
      exact h.names.numbers
    · rw [hstore]
      exact h.names.ds
  · rw [hreg]
    by_cases hkk : k' = k
    · rw [hkk, hself, hx.2]
      exact ⟨j, hj⟩
    · rw [hothers k' hkk] at hk' ⊢
      exact h.subs k' hk'
  · by_cases hk1 : k1 = k
    · by_cases hk2 : k2 = k
      · rw [hk1, hk2]
      · rw [hk1, hself, hothers k2 hk2] at ho
        rw [hothers k2 hk2] at h2
        exact absurd ho.symm (hsingle k2 hk2 h2)
    by_cases hk2 : k2 = k
    · rw [hk2, hself, hothers k1 hk1] at ho
      rw [hothers k1 hk1] at h1
      exact absurd ho (hsingle k1 hk1 h1)
    · rw [hothers k1 hk1] at h1 ho
      rw [hothers k2 hk2] at h2 ho
      exact h.single k1 k2 h1 h2 ho
  · rw [hstore]
    by_cases hkk : k' = k
    · rw [hkk, hself] at hbit ⊢
      exact hbits i hbit
    · rw [hothers k' hkk] at hk' hbit ⊢
      exact h.bits k' i hk' hbit
  · rw [hstore] at hi ⊢
    exact (hreg _).mpr (h.entries i hi)
  obtain ⟨k', i, hk', ho, hrest⟩ := hdue
  have hkk : k' ≠ k := by
    rintro rfl
    obtain ⟨-, hown⟩ | ⟨hfree, -⟩ := subscribeTarget_ok htarget
    · exact hne (ho.symm.trans hown)
    · rw [hfree] at hk'
      cases hk'
  refine ⟨k', i, ?_⟩
  rw [hothers k' hkk, hstore]
  exact ⟨hk', ho, hrest⟩

theorem setSub_same : SameStore s (s.setSub k x) := ⟨rfl, rfl, rfl⟩

theorem setSub_free (h : Served s) (hk : (s.subs k).inUse = false) (hx : x.inUse = false) :
    Served (s.setSub k x) ∧ ∀ o key ty, Due o key ty s → Due o key ty (s.setSub k x) := by
  have hne : ∀ k', ((s.setSub k x).subs k').inUse = true → k' ≠ k := by
    rintro k' hk' rfl
    have hself : (s.setSub k' x).subs k' = x := update_self _ _ _
    rw [hself, hx] at hk'
    cases hk'
  have hothers : ∀ k', k' ≠ k → (s.setSub k x).subs k' = s.subs k' :=
    fun k' hk' => update_of_ne hk' _ _
  refine ⟨⟨⟨setSub_same.names h.names, fun k' hk' => ?_, fun k1 k2 h1 h2 ho => ?_,
    fun k' i hk' hbit => ?_⟩, h.entries⟩,
    fun o key ty hdue => ?_⟩
  · have hkk := hne k' hk'
    rw [hothers k' hkk] at hk' ⊢
    exact h.subs k' hk'
  · have hk1 := hne k1 h1
    have hk2 := hne k2 h2
    rw [hothers k1 hk1] at h1 ho
    rw [hothers k2 hk2] at h2 ho
    exact h.single k1 k2 h1 h2 ho
  · have hkk := hne k' hk'
    rw [hothers k' hkk] at hk' hbit ⊢
    exact h.bits k' i hk' hbit
  obtain ⟨k', i, hk', hrest⟩ := hdue
  have hkk : k' ≠ k := by
    rintro rfl
    rw [hk] at hk'
    cases hk'
  refine ⟨k', i, ?_⟩
  rw [hothers k' hkk]
  exact ⟨hk', hrest⟩

theorem initialSubs_iff (h : Served s) (hj : IsLabel s x.owner j)
    (hx : x.inUse = true) (hsource : (s.store j).u32 = source) :
    initialSubs s x source i = true ↔ Interested x (s.store i) := by
  have hmatch := h.names.checkSubMatch (e := s.store i) hj
  rw [hsource] at hmatch
  unfold initialSubs Interested
  simp only [Bool.decide_and, Bool.decide_eq_true, Bool.and_eq_true, decide_eq_true_eq, hmatch, hx,
    true_and]

theorem doSubscribe_serves (h : Served s) (hfrom : FromOther (.subscribe m))
    (hfair : Fair s (.subscribe m)) : ∃ reply t, Serves s (.subscribe m) reply t := by
  have herr : ∀ e, doSubscribe s m = (.error e, s) → ∃ reply t, Serves s (.subscribe m) reply t :=
    fun e hrun => ⟨_, s, .of_tags (congrArg some hrun) (by simp) (.refl s) h⟩
  cases hn : getprocname s m.source with
  | none => exact herr .esrch (by simp [doSubscribe, hn])
  | some n =>
    cases htarget : subscribeTarget s m (n.text s) with
    | error e => exact herr e (by simp only [doSubscribe, hn, htarget])
    | ok k =>
      cases hkey : m.key with
      | error e => exact herr e (by simp only [doSubscribe, hn, htarget, hkey])
      | ok key =>
        cases hcompiled : m.compiled with
        | noMemory => exact herr .einval (by simp only [doSubscribe, hn, htarget, hkey, hcompiled])
        | badPattern =>
          have hfree : (s.subs k).inUse = false := by
            by_contra hused
            rw [Bool.not_eq_false] at hused
            exact hfair n k hn htarget hused ⟨key, hkey⟩ hcompiled
          obtain ⟨hserved, hdue⟩ := setSub_free (x := { s.subs k with regex := fun _ => false })
            h hfree hfree
          have hrun : handle s (.subscribe m) =
              some (.error .einval, s.setSub k { s.subs k with regex := fun _ => false }) := by
            simp only [handle, doSubscribe, hn, htarget, hkey, hcompiled]
          refine ⟨_, _, hrun, hserved, fun o key ty h => .inl (hdue o key ty h), ?_⟩
          rintro o key ty ⟨t', -, -, hrun', -⟩
          rw [hrun] at hrun'
          cases hrun'
        | ok regex =>
          obtain ⟨j, hnj, hj, hnum⟩ := getprocname_label hfrom hn
          have hinit : ∀ i, initialSubs s (newSubscription m (n.text s) regex) m.source i = true ↔
              Interested (newSubscription m (n.text s) regex) (s.store i) :=
            fun i => initialSubs_iff h hj rfl hnum
          -- the new subscription, in any case
          have hmain : ∀ (t : State) (bits : Slot → Bool), handle s (.subscribe m) = some (.ok, t) →
              t.subs = update s.subs k
                { newSubscription m (n.text s) regex with oldSubs := bits } →
              t.store = s.store →
              (∀ i, bits i = true → Interested (newSubscription m (n.text s) regex) (s.store i)) →
              (m.initial = true → bits = initialSubs s (newSubscription m (n.text s) regex) m.source) →
              Serves s (.subscribe m) .ok t := by
            intro t bits hrun hsubs hstore hbits hinitial
            obtain ⟨hserved, hdue⟩ := setSub_serves (m := m) h hfrom hn htarget ⟨rfl, rfl⟩ hbits
              hsubs hstore
            refine ⟨hrun, hserved, fun o key ty hd => ?_, ?_⟩
            · by_cases ho : o = n.text s
              · exact .inr ⟨.ok, t, hrun, .inr (.inr (.inl ⟨m, n, rfl, rfl, hn, ho.symm⟩))⟩
              · exact .inl (hdue o key ty ho hd)
            rintro o key ty ⟨t', k', i, hrun', ho, hint, hki, hti, hwhy⟩
            rw [hrun] at hrun'
            cases hrun'
            obtain ⟨m', hm, -⟩ | ⟨m', n', hm, hyes, hn', htext⟩ := hwhy
            · cases hm
            cases hm
            rw [hn] at hn'
            cases hn'
            have hself : t.subs k = { newSubscription m (n.text s) regex with oldSubs := bits } := by
              rw [hsubs]
              exact update_self _ _ _
            have hkk : k' = k := by
              apply hserved.single k' k hint.1
              · rw [hself]
                rfl
              · rw [ho, hself, ← htext]
                rfl
            subst hkk
            refine ⟨k', i, hint.1, ho, ?_, hint.2.1, hki, hti⟩
            rw [hself, hstore] at hint
            rw [hself, hinitial hyes]
            exact (hinit i).mpr hint
          by_cases hyes : m.initial = true
          · obtain ⟨t, hrun, hsubs, hstore⟩ : ∃ t, handle s (.subscribe m) = some (.ok, t) ∧
                t.subs = update s.subs k { newSubscription m (n.text s) regex with
                  oldSubs := initialSubs s (newSubscription m (n.text s) regex) m.source } ∧
                t.store = s.store := by
              simp only [handle, doSubscribe, hn, htarget, hkey, hcompiled, if_pos hyes]
              split_ifs
              · exact ⟨_, rfl, rfl, rfl⟩
              · exact ⟨_, rfl, rfl, rfl⟩
            exact ⟨.ok, t, hmain t _ hrun hsubs hstore (fun i hi => (hinit i).mp hi) fun _ => rfl⟩
          have hrun : handle s (.subscribe m) =
              some (.ok, s.setSub k (newSubscription m (n.text s) regex)) := by
            simp only [handle, doSubscribe, hn, htarget, hkey, hcompiled, if_neg hyes]
          exact ⟨.ok, _, hmain _ (fun _ => false) hrun rfl rfl (fun i hi => by cases hi)
            fun hbad => absurd hbad hyes⟩

theorem report_run (h : Served s) (hn : getprocname s source = some n)
    (hk : lookupSub s (n.text s) = some k)
    (hi : (List.finRange nrDsKeys).find? (s.subs k).oldSubs = some i)
    (hj : IsLabel s (s.store i).owner j) :
    handle s (.check source none) =
      some (.report (s.store i).key [(s.store i).type] (s.store j).u32,
        s.setSub k { s.subs k with oldSubs := update (s.subs k).oldSubs i false }) := by
  have hint := h.bits k i (lookupSub_some hk).1 (List.find?_some hi)
  simp only [handle, doCheck, hn, hk, hi, h.names.getprocep hj, Option.map_some, if_pos hint.2.1]

theorem doCheck_serves (source : Endpoint) (copy : Option Err) (h : Served s) :
    ∃ reply t, Serves s (.check source copy) reply t := by
  have herr : ∀ e, doCheck s source copy = some (.error e, s) →
      ∃ reply t, Serves s (.check source copy) reply t :=
    fun e hrun => ⟨_, s, .of_tags hrun (by simp) (.refl s) h⟩
  cases hn : getprocname s source with
  | none => exact herr .esrch (by simp [doCheck, hn])
  | some n =>
    cases hk : lookupSub s (n.text s) with
    | none => exact herr .esrch (by simp [doCheck, hn, hk])
    | some k =>
      cases hi : (List.finRange nrDsKeys).find? (s.subs k).oldSubs with
      | none => exact herr .enoent (by simp [doCheck, hn, hk, hi])
      | some i =>
        cases copy with
        | some e => exact herr e (by simp [doCheck, hn, hk, hi])
        | none =>
          obtain ⟨hused, hown⟩ := lookupSub_some hk
          have hbit : (s.subs k).oldSubs i = true := List.find?_some hi
          have hint := h.bits k i hused hbit
          obtain ⟨j, hj⟩ := h.entries i hint.2.1
          have hrun := report_run h hn hk hi hj
          have hself : (s.setSub k { s.subs k with
              oldSubs := update (s.subs k).oldSubs i false }).subs k =
              { s.subs k with oldSubs := update (s.subs k).oldSubs i false } :=
            update_self _ _ _
          have hothers : ∀ k', k' ≠ k → (s.setSub k { s.subs k with
              oldSubs := update (s.subs k).oldSubs i false }).subs k' = s.subs k' :=
            fun k' hk' => update_of_ne hk' _ _
          have hfields : ∀ k', ((s.setSub k { s.subs k with
              oldSubs := update (s.subs k).oldSubs i false }).subs k').inUse =
                (s.subs k').inUse ∧ ((s.setSub k { s.subs k with
              oldSubs := update (s.subs k).oldSubs i false }).subs k').owner =
                (s.subs k').owner := by
            intro k'
            by_cases hkk : k' = k
            · rw [hkk, hself]
              exact ⟨rfl, rfl⟩
            · rw [hothers k' hkk]
              exact ⟨rfl, rfl⟩
          refine ⟨_, _, hrun, ⟨⟨setSub_same.names h.names, fun k' hk' => ?_,
            fun k1 k2 h1 h2 ho => ?_, fun k' i' hk' hbit' => ?_⟩, h.entries⟩,
            fun o key ty hdue => ?_, ?_⟩
          · rw [(hfields k').1] at hk'
            rw [(hfields k').2]
            exact h.subs k' hk'
          · rw [(hfields k1).1] at h1
            rw [(hfields k2).1] at h2
            rw [(hfields k1).2, (hfields k2).2] at ho
            exact h.single k1 k2 h1 h2 ho
          · by_cases hkk : k' = k
            · subst hkk
              rw [hself] at hbit' ⊢
              have hii : i' ≠ i := by
                rintro rfl
                have hbit'' : update (s.subs k').oldSubs i' false i' = true := hbit'
                rw [update_self] at hbit''
                cases hbit''
              have hold : (s.subs k').oldSubs i' = true := by
                rw [← hbit']
                exact (update_of_ne hii _ _).symm
              exact h.bits k' i' hused hold
            · rw [hothers k' hkk] at hk' hbit' ⊢
              exact h.bits k' i' hk' hbit'
          · obtain ⟨k', i', hk', ho, hbit', hi', hkey, hty⟩ := hdue
            by_cases hthis : k' = k ∧ i' = i
            · obtain ⟨rfl, rfl⟩ := hthis
              refine .inr ⟨_, _, hrun, .inl ⟨source, none, (s.store j).u32, n, rfl, hn, ?_, ?_⟩⟩
              · rw [← hown, ho]
              · rw [hkey, hty]
            refine .inl ⟨k', i', ?_, ?_, ?_, hi', hkey, hty⟩
            · rw [(hfields k').1]
              exact hk'
            · rw [(hfields k').2]
              exact ho
            by_cases hkk : k' = k
            · subst hkk
              rw [hself]
              have hii : i' ≠ i := fun hii => hthis ⟨rfl, hii⟩
              exact (update_of_ne hii _ _).trans hbit'
            · rw [hothers k' hkk]
              exact hbit'
          · rintro o key ty ⟨t', -, -, hrun', -⟩
            rw [hrun] at hrun'
            cases hrun'

/-! ## Deleting -/

theorem cleanEntries_serving {label : Key} {l : List Slot} (h : Serving s)
    (hkeep : ∀ k, (s.subs k).inUse = true → ∃ j, IsLabel s (s.subs k).owner j ∧
      (s.store j).owner ≠ label) :
    ∃ t, l.foldlM (cleanEntry label) s = some t ∧ Serving t ∧
      (∀ k, (t.subs k).inUse = (s.subs k).inUse ∧ (t.subs k).owner = (s.subs k).owner) ∧
      ∀ k j, (s.store j).owner ≠ label → (t.subs k).oldSubs j = (s.subs k).oldSubs j := by
  induction l generalizing s with
  | nil => exact ⟨s, rfl, h, fun _ => ⟨rfl, rfl⟩, fun _ _ _ => rfl⟩
  | cons i l ih =>
    by_cases hmatch : (s.store i).inUse = true ∧ (s.store i).owner = label
    · obtain ⟨u, hrun, hsame, hu, hserving⟩ := h.remove (i := i) fun k hk => by
        obtain ⟨j, hj, hown⟩ := hkeep k hk
        refine ⟨j, hj, ?_⟩
        rintro rfl
        exact hown hmatch.2
      have hothers : ∀ j, j ≠ i → (u.setEntry i { u.store i with inUse := false }).store j =
          s.store j := by
        intro j hj
        rw [← hsame.store]
        exact update_of_ne hj _ _
      have hfields : ∀ k, (u.subs k).inUse = (s.subs k).inUse ∧
          (u.subs k).owner = (s.subs k).owner := by
        intro k
        rw [hu k]
        exact ⟨(told_fields _ _ _ _).1, (told_fields _ _ _ _).2.1⟩
      obtain ⟨t, hrest, hserving', hsubs, hbits⟩ := ih hserving fun k hk => by
        have hk' : (u.subs k).inUse = true := hk
        rw [(hfields k).1] at hk'
        obtain ⟨j, hj, hown⟩ := hkeep k hk'
        have hji : j ≠ i := by
          rintro rfl
          exact hown hmatch.2
        refine ⟨j, ?_, ?_⟩
        · show IsLabel _ (u.subs k).owner j
          rw [(hfields k).2]
          unfold IsLabel at hj ⊢
          rwa [hothers j hji]
        · rw [hothers j hji]
          exact hown
      refine ⟨t, ?_, hserving', fun k => ?_, fun k j hown => ?_⟩
      · rw [List.foldlM_cons]
        unfold cleanEntry
        rw [if_pos hmatch, hrun]
        exact hrest
      · rw [(hsubs k).1, (hsubs k).2]
        exact hfields k
      have hji : j ≠ i := by
        rintro rfl
        exact hown hmatch.2
      rw [hbits k j (by rw [hothers j hji]; exact hown)]
      show (u.subs k).oldSubs j = _
      rw [hu k, told_bit_ne hji]
    · obtain ⟨t, hrest, hserving', hsubs, hbits⟩ := ih h hkeep
      refine ⟨t, ?_, hserving', hsubs, hbits⟩
      rw [List.foldlM_cons]
      unfold cleanEntry
      rw [if_neg hmatch]
      exact hrest

theorem remove_served {P : Slot → Prop} {Q : Key → Prop} (h : Served s) (hs₁ : Serving s₁)
    (hgone : ∀ j, P j → (s₁.store j).inUse = false) (hstore : ∀ j, ¬ P j → s₁.store j = s.store j)
    (hlabels : ∀ k, (s₁.subs k).inUse = true → ∃ j, IsLabel s (s₁.subs k).owner j ∧ ¬ P j ∧ j ≠ i)
    (hentries : ∀ j, (s.store j).inUse = true → ¬ P j → j ≠ i →
      ∃ l, IsLabel s (s.store j).owner l ∧ ¬ P l ∧ l ≠ i)
    (hkept : ∀ k j, (s.subs k).inUse = true → ¬ Q (s.subs k).owner → (s.store j).inUse = true →
      ¬ P j → (s₁.subs k).inUse = true ∧ (s₁.subs k).owner = (s.subs k).owner ∧
        (s₁.subs k).oldSubs j = (s.subs k).oldSubs j) :
    ∃ t, updateSubscribers s₁ i false = some t ∧
      Served (t.setEntry i { t.store i with inUse := false }) ∧
      (∀ j, ((t.setEntry i { t.store i with inUse := false }).store j).inUse = true →
        ¬ P j ∧ j ≠ i ∧ (t.setEntry i { t.store i with inUse := false }).store j = s.store j) ∧
      ∀ o key ty, ¬ Q o → Due o key ty s →
        Due o key ty (t.setEntry i { t.store i with inUse := false }) ∨
        ∀ j, ¬ (((t.setEntry i { t.store i with inUse := false }).store j).inUse = true ∧
          ((t.setEntry i { t.store i with inUse := false }).store j).key = key ∧
          ((t.setEntry i { t.store i with inUse := false }).store j).type = ty) := by
  have hlabel1 : ∀ o j, IsLabel s o j → ¬ P j → IsLabel s₁ o j := by
    intro o j hj hP
    unfold IsLabel at hj ⊢
    rwa [hstore j hP]
  obtain ⟨t, hrun, hsame, ht, hserving⟩ := hs₁.remove (i := i) fun k hk => by
    obtain ⟨j, hj, hP, hne⟩ := hlabels k hk
    exact ⟨j, hlabel1 _ j hj hP, hne⟩
  have hothers : ∀ j, j ≠ i → (t.setEntry i { t.store i with inUse := false }).store j =
      s₁.store j := by
    intro j hj
    rw [← hsame.store]
    exact update_of_ne hj _ _
  have hused : ∀ j, ((t.setEntry i { t.store i with inUse := false }).store j).inUse = true →
      ¬ P j ∧ j ≠ i ∧ (t.setEntry i { t.store i with inUse := false }).store j = s.store j := by
    intro j hj
    have hne : j ≠ i := by
      rintro rfl
      rw [setEntry_store] at hj
      cases hj
    rw [hothers j hne] at hj
    have hP : ¬ P j := by
      intro hP
      rw [hgone j hP] at hj
      cases hj
    rw [hothers j hne]
    exact ⟨hP, hne, hstore j hP⟩
  refine ⟨t, hrun, ⟨hserving, fun j hj => ?_⟩, hused, fun o key ty hQ hdue => ?_⟩
  · obtain ⟨hP, hne, heq⟩ := hused j hj
    rw [heq] at hj ⊢
    obtain ⟨l, hl, hPl, hli⟩ := hentries j hj hP hne
    refine ⟨l, ?_⟩
    have hl1 := hlabel1 _ l hl hPl
    unfold IsLabel at hl1 ⊢
    rwa [hothers l hli]
  obtain ⟨k, j, hk, ho, hbit, hj, hkey, hty⟩ := hdue
  by_cases hlost : P j ∨ j = i
  · refine .inr ?_
    rintro l ⟨hl, hkl, htl⟩
    obtain ⟨hPl, hli, heq⟩ := hused l hl
    rw [heq] at hl hkl htl
    have hlj := h.names.unique l j hl hj (hkl.trans hkey.symm) (htl.trans hty.symm)
    subst hlj
    obtain hP | hli' := hlost
    · exact hPl hP
    · exact hli hli'
  rw [not_or] at hlost
  obtain ⟨hk1, ho1, hbit1⟩ := hkept k j hk (by rw [ho]; exact hQ) hj hlost.1
  refine .inl ⟨k, j, ?_⟩
  rw [hothers j hlost.2, hstore j hlost.1]
  refine ⟨?_, ?_, ?_, hj, hkey, hty⟩
  · show (t.subs k).inUse = true
    rw [ht k, (told_fields _ _ _ _).1]
    exact hk1
  · show (t.subs k).owner = o
    rw [ht k, (told_fields _ _ _ _).2.1, ho1]
    exact ho
  · show (t.subs k).oldSubs j = true
    rw [ht k, told_bit_ne hlost.2, hbit1]
    exact hbit

theorem cleanSubs_used (hk : ((cleanSubs s key).subs k).inUse = true) :
    (s.subs k).inUse = true ∧ (s.subs k).owner ≠ key ∧ (cleanSubs s key).subs k = s.subs k := by
  have heq : (cleanSubs s key).subs k = if (s.subs k).inUse = true ∧ (s.subs k).owner = key then
    { s.subs k with inUse := false } else s.subs k := rfl
  rw [heq] at hk ⊢
  split_ifs at hk with hgone
  rw [if_neg hgone]
  exact ⟨hk, fun howner => hgone ⟨hk, howner⟩, rfl⟩

theorem cleanSubs_kept (hk : (s.subs k).owner ≠ key) : (cleanSubs s key).subs k = s.subs k :=
  if_neg fun hgone => hk hgone.2

theorem cleanSubs_serving (key : Key) (h : Serving s) : Serving (cleanSubs s key) := by
  refine ⟨⟨h.names.unique, h.names.numbers, h.names.ds⟩, fun k hk => ?_, fun k k' hk hk' ho => ?_,
    fun k j hk hbit => ?_⟩
  · obtain ⟨hused, -, heq⟩ := cleanSubs_used hk
    rw [heq]
    exact h.subs k hused
  · obtain ⟨hused, -, heq⟩ := cleanSubs_used hk
    obtain ⟨hused', -, heq'⟩ := cleanSubs_used hk'
    rw [heq, heq'] at ho
    exact h.single k k' hused hused' ho
  · obtain ⟨hused, -, heq⟩ := cleanSubs_used hk
    rw [heq] at hbit ⊢
    exact h.bits k j hused hbit

theorem free_same (d : Option Addr) : (free s d).store = s.store ∧ (free s d).subs = s.subs := by
  unfold free
  split
  next => exact ⟨rfl, rfl⟩
  split
  next => exact ⟨rfl, rfl⟩
  next => exact ⟨rfl, rfl⟩

theorem doDelete_serves {key : Except Err Key} (h : Served s)
    (hfair : Fair s (.delete source key types)) :
    ∃ reply t, Serves s (.delete source key types) reply t := by
  have herr : ∀ e, doDelete s source key types = some (.error e, s) →
      ∃ reply t, Serves s (.delete source key types) reply t :=
    fun e hrun => ⟨_, s, .of_tags hrun (by simp) (.refl s) h⟩
  cases hn : getprocname s source with
  | none => exact herr .eperm (by simp [doDelete, hn])
  | some n =>
    cases key with
    | error e => exact herr e (by simp [doDelete, hn])
    | ok k =>
      cases hl : lookupEntry s k types with
      | none => exact herr .esrch (by simp [doDelete, hn, hl])
      | some i =>
        by_cases howner : (s.store i).owner ≠ n.text s
        · exact herr .eperm (by simp [doDelete, hn, hl, howner])
        obtain ⟨hused, hti, hki⟩ := lookupEntry_some hl
        cases hty : oneType types with
        | none =>
          apply herr .einval
          have hclean : cleanUp s types i = some (some .einval, s) := by
            unfold cleanUp
            rw [hty]
          simp only [doDelete, hn, hl, if_neg howner, hclean, Option.bind_some]
        | some ty =>
          obtain ⟨htypes, hknown⟩ := oneType_some hty
          rw [htypes] at hti
          have hti' := List.mem_singleton.mp hti
          -- all that is left is the entry itself
          have hmain : ∀ (s₁ : State) (P : Slot → Prop) (Q : Key → Prop),
              cleanUp s types i = some (none, s₁) → Serving s₁ →
              (∀ j, P j → (s₁.store j).inUse = false) → (∀ j, ¬ P j → s₁.store j = s.store j) →
              (∀ k, (s₁.subs k).inUse = true → ∃ j, IsLabel s (s₁.subs k).owner j ∧ ¬ P j ∧ j ≠ i) →
              (∀ j, (s.store j).inUse = true → ¬ P j → j ≠ i →
                ∃ l, IsLabel s (s.store j).owner l ∧ ¬ P l ∧ l ≠ i) →
              (∀ k j, (s.subs k).inUse = true → ¬ Q (s.subs k).owner →
                (s.store j).inUse = true → ¬ P j → (s₁.subs k).inUse = true ∧ (s₁.subs k).owner = (s.subs k).owner ∧
                  (s₁.subs k).oldSubs j = (s.subs k).oldSubs j) →
              (∀ o, Q o → IsLabel s o i) →
              ∃ reply t, Serves s (.delete source (.ok k) types) reply t := by
            intro s₁ P Q hclean hs1 hgone hstore hlabels hentries hkept hQ
            obtain ⟨t, hupdate, hserved, hstill, hdue⟩ :=
              remove_served h hs1 hgone hstore hlabels hentries hkept
            have hrun : handle s (.delete source (.ok k) types) =
                some (.ok, t.setEntry i { t.store i with inUse := false }) := by
              simp only [handle, doDelete, hn, hl, if_neg howner, hclean, Option.bind_some, hupdate]
              rfl
            refine ⟨_, _, hrun, hserved, fun o key' ty' hd => ?_, ?_⟩
            · by_cases hQo : Q o
              · refine .inr ⟨_, _, hrun, .inr (.inr (.inr ?_))⟩
                rintro ⟨j, hj, htj, hkj⟩
                obtain ⟨-, hne, heq⟩ := hstill j hj
                rw [heq] at hj htj hkj
                obtain ⟨-, hi1, hi2⟩ := hQ o hQo
                exact hne (h.names.unique j i hj hused (hkj.trans hi2.symm) (htj.trans hi1.symm))
              · obtain hd' | hgone' := hdue o key' ty' hQo hd
                · exact .inl hd'
                · exact .inr ⟨_, _, hrun, .inr (.inl hgone')⟩
            · rintro o key' ty' ⟨t', k', j, hrun', -, -, -, -, hwhy⟩
              obtain ⟨m', hm, -⟩ | ⟨m', n', hm, -⟩ := hwhy
              · cases hm
              · cases hm
          have hplain : ty ≠ .label → ∀ s₁ : State, cleanUp s types i = some (none, s₁) →
              s₁.store = s.store → s₁.subs = s.subs →
              ∃ reply t, Serves s (.delete source (.ok k) types) reply t := by
            intro hlabel s₁ hclean hstore hsubs
            have hreg : ∀ o, Registered s o → ∃ j, IsLabel s o j ∧ ¬ False ∧ j ≠ i := by
              rintro o ⟨j, hj⟩
              refine ⟨j, hj, not_false, ?_⟩
              rintro rfl
              exact hlabel (hti'.symm.trans hj.2.1)
            refine hmain s₁ (fun _ => False) (fun _ => False) hclean
              ((SameTags.of_eq hsubs hstore).served h).toServing (fun _ hf => hf.elim)
              (fun j _ => by rw [hstore]) (fun k' hk' => ?_) (fun j hj _ _ => hreg _ (h.entries j hj))
              (fun k' j hk' _ _ _ => ?_) fun _ hf => hf.elim
            · rw [hsubs] at hk' ⊢
              exact hreg _ (h.subs k' hk')
            · rw [hsubs]
              exact ⟨hk', rfl, rfl⟩
          cases ty with
          | u32 =>
            refine hplain (by simp) s ?_ rfl rfl
            unfold cleanUp
            rw [hty]
          | str =>
            refine hplain (by simp) (free s (s.store i).data) ?_ (free_same _).1 (free_same _).2
            unfold cleanUp
            rw [hty]
          | mem =>
            refine hplain (by simp) (free s (s.store i).data) ?_ (free_same _).1 (free_same _).2
            unfold cleanUp
            rw [hty]
          | label =>
            have hlabels : ∀ j, (s.store j).inUse = true → (s.store j).type = .label →
                (s.store j).owner = k → (∀ l, (s.store l).inUse = true →
                  (s.store l).owner = (s.store j).key → (s.store l).owner = k) ∧
                ∀ x, (s.subs x).inUse = true → (s.subs x).owner = (s.store j).key →
                  (s.subs x).owner = k :=
              hfair n k i hn rfl htypes hl (by_contra fun hne => howner hne)
            obtain ⟨s₁, hloop, hs1, hfields, hbits⟩ :=
              cleanEntries_serving (l := List.finRange nrDsKeys) (cleanSubs_serving k
                h.toServing) fun k' hk' => by
                obtain ⟨hk', howner', heq⟩ := cleanSubs_used hk'
                rw [heq]
                obtain ⟨j, hj⟩ := h.subs k' hk'
                exact ⟨j, hj, fun hown => howner' ((hlabels j hj.1 hj.2.1 hown).2 k' hk'
                  hj.2.2.symm)⟩
            obtain ⟨hstore, -, -⟩ := cleanEntries hloop
            have hclean : cleanUp s types i = some (none, s₁) := by
              unfold cleanUp
              rw [hty]
              simp only [hki, hloop]
              rfl
            refine hmain s₁ (fun j => (s.store j).inUse = true ∧ (s.store j).owner = k) (· = k)
              hclean hs1 (fun j hj => ?_) (fun j hj => ?_) (fun k' hk' => ?_)
              (fun j hj hP _ => ?_) (fun k' j hk' hne hj hP => ?_) ?_
            · rw [hstore j, if_pos ⟨List.mem_finRange j, hj⟩]
            · rw [hstore j, if_neg fun hbad => hj hbad.2]
              rfl
            · rw [(hfields k').1] at hk'
              obtain ⟨hused', hne, heq⟩ := cleanSubs_used hk'
              rw [(hfields k').2, heq]
              obtain ⟨j, hj⟩ := h.subs k' hused'
              refine ⟨j, hj, ?_, ?_⟩
              · rintro ⟨-, hown⟩
                exact hne ((hlabels j hj.1 hj.2.1 hown).2 k' hused' hj.2.2.symm)
              · rintro rfl
                exact hne (hj.2.2.symm.trans hki)
            · obtain ⟨l, hlj⟩ := h.entries j hj
              refine ⟨l, hlj, ?_, ?_⟩
              · rintro ⟨-, hown⟩
                exact hP ⟨hj, (hlabels l hlj.1 hlj.2.1 hown).1 j hj hlj.2.2.symm⟩
              · rintro rfl
                exact hP ⟨hj, hlj.2.2.symm.trans hki⟩
            · have heq := cleanSubs_kept hne
              rw [(hfields k').1, (hfields k').2, hbits k' j fun hown => hP ⟨hj, hown⟩, heq]
              exact ⟨hk', rfl, rfl⟩
            · rintro o rfl
              exact ⟨hused, hti', hki⟩
          | unknown => exact absurd rfl hknown

end HardenedMinix.Ds
