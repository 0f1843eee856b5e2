import HardenedMinix.Ds.StoreMap

/-!
# Requests are steps of the map

What each request does to the map, in runs that lose no buffer.
-/

open Function List Option

namespace HardenedMinix.Ds

open Lib

variable {s s' s₁ t : State} {i j : Slot} {k : SubSlot} {key key' owner : Key} {ty : Ty}
  {types : List Ty} {m : Publish} {a : Addr} {r : Request} {reply : Reply} {e : Err}
  {source : NamePtr} {P : Slot → Prop}

/-! ## What requests do -/

def Publish.value (m : Publish) : Option Value :=
  match oneType m.types, m.copy with
  | some .u32, _ | some .label, _ => some (.num m.val)
  | some _, .ok bytes => some (.bytes (terminated m.types bytes))
  | _, _ => none

/-- The value is stored; a label that had the number under another name has this name now. -/
def Published (s : State) (m : Publish) (t : State) : Prop :=
  ∃ key ty source value, ∃ old : Option Key, m.key = .ok key ∧ oneType m.types = some ty ∧
    getprocname s m.source = some source ∧ m.value = some value ∧
    (∀ name, old = some name → ty = .label ∧ item s key .label = none ∧
      ∃ o, item s name .label = some (.num m.val, o)) ∧
    ∀ k u, item t k u =
      if k = key ∧ u = ty then some (value, source.text t)
      else if u = .label ∧ old = some k then none
      else item s k u

/-- The entry is gone, and with a label the entries it owned. -/
def Deleted (s : State) (key : Except Err Key) (types : List Ty) (t : State) : Prop :=
  ∃ k ty, key = .ok k ∧ oneType types = some ty ∧ item s k ty ≠ none ∧ item t k ty = none ∧
    (ty = .label → ∀ k' u v, item s k' u = some (v, k) → item t k' u = none) ∧
    ∀ k' u, ¬ (k' = k ∧ u = ty) → (ty = .label → ∀ v, item s k' u ≠ some (v, k)) →
      item t k' u = item s k' u

/-- What a request has done, when it is answered so. -/
def Done (s t : State) : Request → Reply → Prop
  | _, .error _ => Unchanged s t
  | .publish m, .ok => Published s m t
  | .delete _ key types, .ok => Deleted s key types t
  | .retrieve _ key types _ _, .value n =>
    Unchanged s t ∧ ∃ k ty o, key = .ok k ∧ oneType types = some ty ∧ item s k ty = some (.num n, o)
  | .retrieve _ key types length _, .data bytes =>
    Unchanged s t ∧ ∃ k ty l o, key = .ok k ∧ oneType types = some ty ∧
      item s k ty = some (.bytes l, o) ∧ bytes = l.take length
  | .retrieveLabel num _, .name k => Unchanged s t ∧ ∃ o, item s k .label = some (.num num, o)
  | .subscribe _, .ok => Unchanged s t
  | .check _ _, .report _ _ _ => Unchanged s t
  | _, _ => False

/-- A request is a step of the map, or it fails and changes nothing. -/
def Atomic (s : State) (r : Request) : Prop := ∀ reply t, handle s r = some (reply, t) → Done s t r reply

/-- A publication that replaces a buffer gets memory and bytes, no string is empty, and no deleted
label owns a buffer. -/
def NoLoss (s : State) : Request → Prop
  | .publish m => ∀ key i ty, m.key = .ok key → oneType m.types = some ty →
    (ty = .str ∨ ty = .mem) → getprocname s m.source ≠ none → publishTarget s m key = .ok i →
    ((s.store i).inUse = true → (m.length > (s.store i).reallen → m.alloc ≠ none) ∧
      ∃ bytes, m.copy = .ok bytes) ∧
    (ty = .str → (∃ bytes, m.copy = .ok bytes) → m.length ≠ 0)
  | .delete source key types => ∀ k i name, key = .ok k → types = [.label] →
    lookupEntry s k types = some i → getprocname s source = some name →
    (s.store i).owner = name.text s →
    ∀ j, Holds s j → (s.store j).owner ≠ (s.store i).key
  | _ => True

/-! ## Publishing -/

theorem setAttributes_others (hj : j ≠ i) :
    (setAttributes s m i key source).store j = s.store j := by
  simp [setAttributes, State.setEntry, update_of_ne hj]

theorem setAttributes_self (s : State) (m : Publish) (i : Slot) (key : Key) (source : NamePtr) :
    ∃ owner, (setAttributes s m i key source).store i =
    { s.store i with
      key := key
      owner := owner
      inUse := true
      type := (oneType m.types).getD .unknown
      priv := m.priv } ∧ source.text (setAttributes s m i key source) = owner := by
  refine ⟨source.text (s.setEntry i { s.store i with key := key }), ?_, ?_⟩
  · simp [setAttributes, State.setEntry]
  unfold NamePtr.text
  split
  next => rfl
  rename_i j
  by_cases hj : j = i
  · subst hj
    simp [setAttributes, State.setEntry]
  · rw [setAttributes_others hj]
    show _ = (update s.store i _ j).key
    rw [update_of_ne hj]

/-- What a publication that is answered well has done to its entry. -/
structure Entered (s : State) (m : Publish) (t : State) (i : Slot) : Prop where
  put : Put s t i
  inUse : (t.store i).inUse = true
  type : oneType m.types = some (t.store i).type
  key : m.key = .ok (t.store i).key
  owner : ∃ source, getprocname s m.source = some source ∧ (t.store i).owner = source.text t
  value : m.value = some (value t i)
  target : publishTarget s m (t.store i).key = .ok i

theorem SameStore.entered (h : SameStore s₁ t) (hs : Entered s m s₁ i) : Entered s m t i := by
  have htext : ∀ n : NamePtr, n.text t = n.text s₁ := by
    intro n
    unfold NamePtr.text
    rw [h.store]
  have hp := hs.put
  refine ⟨⟨?_, h.fault.trans hp.fault, ?_, ?_⟩, ?_, ?_, ?_, ?_, ?_, ?_⟩
  · rw [h.store]
    exact hp.others
  · rw [h.holds, h.store, h.heap]
    exact hp.mem
  · rw [h.store]
    exact hp.unique
  · rw [h.store]
    exact hs.inUse
  · rw [h.store]
    exact hs.type
  · rw [h.store]
    exact hs.key
  · obtain ⟨source, hsource, howner⟩ := hs.owner
    refine ⟨source, hsource, ?_⟩
    rw [h.store, htext]
    exact howner
  · rw [h.value]
    exact hs.value
  · rw [h.store]
    exact hs.target

theorem enter_num (h : Sound s) (hty : oneType m.types = some ty) (hnum : ty = .u32 ∨ ty = .label)
    (hkey : m.key = .ok key) (htarget : publishTarget s m key = .ok i)
    (hsource : getprocname s m.source = some source) :
    Entered s m (setAttributes (s.setEntry i { s.store i with u32 := m.val }) m i key source) i := by
  obtain ⟨htypes, -⟩ := oneType_some hty
  obtain ⟨owner, hself, howner⟩ := setAttributes_self
    (s.setEntry i { s.store i with u32 := m.val }) m i key source
  rw [setEntry_store, hty] at hself
  have hothers : ∀ j, j ≠ i →
      (setAttributes (s.setEntry i { s.store i with u32 := m.val }) m i key source).store j =
        s.store j :=
    fun j hj => (setAttributes_others hj).trans (update_of_ne hj _ _)
  have hnone : ¬ (ty = .str ∨ ty = .mem) := by
    obtain rfl | rfl := hnum <;> simp
  refine ⟨⟨hothers, rfl, .inl ⟨?_, ?_, rfl⟩, ?_⟩, ?_, ?_, ?_, ⟨source, hsource, ?_⟩, ?_, ?_⟩
  · rintro ⟨hused, hmem⟩
    rw [target_type htypes htarget hused] at hmem
    exact hnone hmem
  · rintro ⟨-, hmem⟩
    rw [hself] at hmem
    exact hnone hmem
  · intro _ j hj hused hkeyj
    rw [hself] at hkeyj ⊢
    exact target_unique h.unique htypes htarget hj hused hkeyj
  · rw [hself]
  · rw [hself]
    exact hty
  · rw [hself]
    exact hkey
  · rw [hself]
    exact howner.symm
  · unfold Publish.value Ds.value
    rw [hself, hty]
    simp only [getD_some]
    rw [if_neg hnone]
    obtain rfl | rfl := hnum <;> rfl
  · rw [hself]
    exact htarget

theorem enter_mem {block bytes : List Byte} (h : Sound s) (hty : oneType m.types = some ty)
    (hmem : ty = .str ∨ ty = .mem) (hkey : m.key = .ok key)
    (htarget : publishTarget s m key = .ok i) (hsource : getprocname s m.source = some source)
    (hstored : Stored s i s₁ a block m.length) (hcopy : m.copy = .ok bytes)
    (hbytes : block.take m.length = terminated m.types bytes) :
    Entered s m (setAttributes s₁ m i key source) i := by
  obtain ⟨htypes, -⟩ := oneType_some hty
  obtain ⟨owner, hself, howner⟩ := setAttributes_self s₁ m i key source
  have hentry : s₁.store i = { s.store i with
      data := some a, reallen := block.length, length := m.length } := by
    rw [hstored.eq]
    exact update_self _ _ _
  rw [hentry, hty] at hself
  have hothers : ∀ j, j ≠ i → (setAttributes s₁ m i key source).store j = s.store j := by
    intro j hj
    rw [setAttributes_others hj, hstored.eq]
    exact update_of_ne hj _ _
  have hfault : (setAttributes s₁ m i key source).fault = s.fault := by
    show s₁.fault = s.fault
    rw [hstored.eq]
    rfl
  refine ⟨⟨hothers, hfault, .inr ⟨fun hused => ⟨hused, ?_⟩, ⟨?_, ?_⟩, a, block, ?_, ?_, ?_, ?_⟩, ?_⟩,
    ?_, ?_, ?_, ⟨source, hsource, ?_⟩, ?_, ?_⟩
  · rw [target_type htypes htarget hused]
    exact hmem
  · rw [hself]
  · rw [hself]
    exact hmem
  · rw [hself]
  · exact hstored.buffered
  · rw [hself]
  · rw [hself]
    exact hstored.length
  · intro _ j hj hused hkeyj
    rw [hself] at hkeyj ⊢
    exact target_unique h.unique htypes htarget hj hused hkeyj
  · rw [hself]
  · rw [hself]
    exact hty
  · rw [hself]
    exact hkey
  · rw [hself]
    exact howner.symm
  · rw [value_bytes (s := setAttributes s₁ m i key source) (i := i) (by rw [hself]; exact hmem)
      (by rw [hself]) hstored.buffered.new (by rw [hself]; exact hstored.length), hself, hbytes]
    unfold Publish.value
    rw [hty, hcopy]
    obtain rfl | rfl := hmem <;> rfl
  · rw [hself]
    exact htarget

theorem Unchanged.refl (s : State) : Unchanged s s := fun _ => ⟨rfl, fun _ => ⟨rfl, rfl⟩⟩

theorem fresh_of_proper (hproper : (Request.publish m).Proper s) (hkey : m.key = .ok key)
    (htarget : publishTarget s m key = .ok i) : Fresh s m i := by
  intro a halloc
  obtain hnone | ⟨key', i', hkey', htarget', hused, hlong, hdata⟩ := hproper.2 a halloc
  · exact .inl hnone
  rw [hkey] at hkey'
  cases hkey'
  rw [htarget] at htarget'
  cases htarget'
  exact .inr ⟨hused, hlong, hdata⟩

theorem storeValue_cases (h : Sound s) (hproper : (Request.publish m).Proper s)
    (hloss : NoLoss s (.publish m)) (hsource : getprocname s m.source = some source)
    (hkey : m.key = .ok key) (htarget : publishTarget s m key = .ok i) :
    (∃ t, storeValue s m i = (none, t) ∧ Entered s m (setAttributes t m i key source) i) ∨
    ∃ e t, storeValue s m i = (some e, t) ∧ Unchanged s t ∧ Sound t := by
  have hfresh := fresh_of_proper hproper hkey htarget
  cases hty : oneType m.types with
  | none =>
    refine .inr ⟨.einval, s, ?_, .refl s, h⟩
    unfold storeValue
    rw [hty]
  | some ty =>
    have hsplit : (ty = .u32 ∨ ty = .label) ∨ (ty = .str ∨ ty = .mem) := by
      have hne := (oneType_some hty).2
      cases ty <;> simp at hne ⊢
    obtain hnum | hmem := hsplit
    · refine .inl ⟨s.setEntry i { s.store i with u32 := m.val }, ?_,
        enter_num h hty hnum hkey htarget hsource⟩
      unfold storeValue
      rw [hty]
      obtain rfl | rfl := hnum <;> rfl
    have hstore : storeValue s m i = storeMem s m i := by
      unfold storeValue
      rw [hty]
      obtain rfl | rfl := hmem <;> rfl
    obtain ⟨htypes, -⟩ := oneType_some hty
    obtain ⟨hreplace, hempty⟩ := hloss key i ty hkey hty hmem (by rw [hsource]; simp) htarget
    rw [hstore]
    have hstr : .str ∈ m.types → (∃ bytes, m.copy = .ok bytes) → m.length ≠ 0 := by
      intro hmem
      rw [htypes] at hmem
      exact hempty (mem_singleton.mp hmem).symm
    by_cases hused : (s.store i).inUse = true
    · -- the old buffer is used, or replaced by a larger one
      obtain ⟨halloc, bytes, hcopy⟩ := hreplace hused
      have hgot : ∃ s₁, getBuffer s m i = (true, s₁) := by
        unfold getBuffer
        simp only
        rw [if_neg (by rw [hused]; simp)]
        split_ifs with hlong
        · cases ha : m.alloc with
          | none => exact absurd ha (halloc hlong)
          | some a => exact ⟨_, rfl⟩
        · exact ⟨s, rfl⟩
      obtain ⟨s₁, hgot⟩ := hgot
      have hholds : (s.store i).inUse = true → Holds s i := by
        intro _
        refine ⟨hused, ?_⟩
        rw [target_type htypes htarget hused]
        exact hmem
      obtain ⟨a, block, hbuf, hlen⟩ := h.getBuffer hholds hfresh hgot
      have hrun : ∃ t, fillBuffer s₁ m i = (none, t) := by
        unfold fillBuffer
        rw [hcopy]
        exact ⟨_, rfl⟩
      obtain ⟨t, hrun⟩ := hrun
      obtain ⟨bytes', block', hcopy', hstored, hbytes⟩ := hbuf.fill hlen hproper.1 hstr hrun
      refine .inl ⟨t, ?_, enter_mem h hty hmem hkey htarget hsource hstored hcopy' hbytes⟩
      unfold storeMem
      rw [hgot]
      exact hrun
    · rw [Bool.not_eq_true] at hused
      have hnot : ∀ t : State, (t.store i).inUse = false → ¬ Holds t i := by
        rintro t hfree ⟨hyes, -⟩
        rw [hfree] at hyes
        cases hyes
      cases hres : storeMem s m i with
      | mk res t =>
        cases res with
        | some e =>
          obtain ⟨hheap, hfault, hothers, hfree, -⟩ := storeMem_error hused hfresh hres
          have hput : Put s t i := by
            refine ⟨hothers, hfault, .inl ⟨hnot s hused, hnot t hfree, hheap⟩, fun hyes => ?_⟩
            rw [hfree] at hyes
            cases hyes
          exact .inr ⟨e, t, rfl, hput.unchanged h hused hfree, hput.sound h⟩
        | none =>
          have hholds : (s.store i).inUse = true → Holds s i := by
            intro hyes
            rw [hused] at hyes
            cases hyes
          unfold storeMem at hres
          cases hgot : getBuffer s m i with
          | mk got s₁ =>
            rw [hgot] at hres
            cases got with
            | false => simp at hres
            | true =>
              obtain ⟨a, block, hbuf, hlen⟩ := h.getBuffer hholds hfresh hgot
              obtain ⟨bytes', block', hcopy', hstored, hbytes⟩ := hbuf.fill hlen hproper.1 hstr hres
              exact .inl ⟨t, rfl, enter_mem h hty hmem hkey htarget hsource hstored hcopy' hbytes⟩

theorem Entered.published (h : Entered s m t i) (hs : Sound s) : Published s m t := by
  obtain ⟨source, hsource, howner⟩ := h.owner
  obtain ⟨htypes, -⟩ := oneType_some h.type
  have hitem := h.put.item hs h.inUse
  obtain ⟨hfree, -⟩ | ⟨hused, hti, hki⟩ | ⟨hused, hlabel, hti, hnum, hnone⟩ :=
    publishTarget_ok h.target
  · refine ⟨_, _, source, _, none, h.key, h.type, hsource, h.value, by simp, fun k u => ?_⟩
    rw [hitem k u, howner]
    simp [hfree]
  · rw [htypes] at hti
    have hti' := mem_singleton.mp hti
    refine ⟨_, _, source, _, none, h.key, h.type, hsource, h.value, by simp, fun k u => ?_⟩
    rw [hitem k u, howner]
    by_cases hthis : k = (t.store i).key ∧ u = (t.store i).type
    · rw [if_pos hthis, if_pos hthis]
    · have hold : ¬ ((s.store i).inUse = true ∧ (s.store i).key = k ∧ (s.store i).type = u) :=
        fun hold => hthis ⟨hold.2.1.symm.trans hki, hold.2.2.symm.trans hti'⟩
      rw [if_neg hthis, if_neg hthis, if_neg hold, if_neg (by simp)]
  -- a label gets another name
  rw [htypes] at hlabel hnone
  have hty : (t.store i).type = .label := (mem_singleton.mp hlabel).symm
  rw [hty] at hnone
  refine ⟨_, _, source, _, some (s.store i).key, h.key, h.type, hsource, h.value, ?_, fun k u => ?_⟩
  · rintro name hname
    cases hname
    refine ⟨hty, ?_, (s.store i).owner, ?_⟩
    · unfold item
      rw [hnone]
      rfl
    have hold := hs.item_of hused
    have hval : Ds.value s i = .num m.val := by
      unfold Ds.value
      rw [if_neg (by rw [hti]; simp), hnum]
    rw [hti, hval] at hold
    exact hold
  rw [hitem k u, howner]
  have hiff : ((s.store i).inUse = true ∧ (s.store i).key = k ∧ (s.store i).type = u) ↔
      (u = .label ∧ some (s.store i).key = some k) := by
    rw [hti]
    constructor
    · rintro ⟨-, hkey, hty'⟩
      exact ⟨hty'.symm, by rw [hkey]⟩
    · rintro ⟨hty', hkey⟩
      exact ⟨hused, some.inj hkey, hty'.symm⟩
  simp only [hiff]

theorem doPublish_done (h : Sound s) (hproper : (Request.publish m).Proper s)
    (hloss : NoLoss s (.publish m)) (hrun : doPublish s m = some (reply, t)) :
    Done s t (.publish m) reply ∧ Sound t := by
  have herr : ∀ e, some (Reply.error e, s) = some (reply, t) →
      Done s t (.publish m) reply ∧ Sound t := by
    intro e heq
    cases heq
    exact ⟨.refl s, h⟩
  unfold doPublish at hrun
  split at hrun
  next => exact herr _ hrun
  rename_i source hsource
  split_ifs at hrun
  · exact herr _ hrun
  split at hrun
  next => exact herr _ hrun
  rename_i key hkey
  split at hrun
  next => exact herr _ hrun
  rename_i i htarget
  obtain ⟨s₁, hstore, hentered⟩ | ⟨e, s₁, hstore, hsame, hsound⟩ :=
    storeValue_cases h hproper hloss hsource hkey htarget
  · rw [hstore] at hrun
    obtain ⟨t', hupdate, heq⟩ := map_eq_some_iff.mp hrun
    cases heq
    have hdone := (updateSubscribers_same hupdate).entered hentered
    exact ⟨hdone.published h, hdone.put.sound h⟩
  · rw [hstore] at hrun
    cases hrun
    exact ⟨hsame, hsound⟩

/-! ## Deleting -/

/-- Some entries are gone, with their buffers. -/
structure Cleared (s t : State) (P : Slot → Prop) : Prop where
  others : ∀ j, ¬ P j → t.store j = s.store j
  gone : ∀ j, P j → (t.store j).inUse = false
  fault : t.fault = s.fault
  freed : ∀ j a, P j → Holds s j → (s.store j).data = some a → t.heap a = none
  heap : ∀ a, (∀ j, P j → Holds s j → (s.store j).data ≠ some a) → t.heap a = s.heap a

theorem Cleared.stays (h : Cleared s t P) (hused : (t.store j).inUse = true) : ¬ P j := by
  intro hP
  rw [h.gone j hP] at hused
  cases hused

theorem Cleared.holds (h : Cleared s t P) (hj : Holds t j) : ¬ P j ∧ Holds s j := by
  have hP := h.stays hj.1
  refine ⟨hP, ?_⟩
  unfold Holds at hj ⊢
  rwa [h.others j hP] at hj

theorem Cleared.same_heap (h : Cleared s t P) (hs : Sound s) (hP : ¬ P j) (hj : Holds s j)
    (hdata : (s.store j).data = some a) : t.heap a = s.heap a := by
  apply h.heap
  intro l hl hholds hdata'
  have := hs.disjoint l j hholds hj (hdata'.trans hdata.symm)
  subst this
  exact hP hl

theorem Cleared.sound (h : Cleared s t P) (hs : Sound s) : Sound t := by
  refine ⟨fun i j hi hj hkey hty => ?_, fun j hj => ?_, fun i j hi hj hdata => ?_, fun a ha => ?_,
    h.fault.trans hs.fault⟩
  · have hPi := h.stays hi
    have hPj := h.stays hj
    rw [h.others i hPi] at hi hkey hty
    rw [h.others j hPj] at hj hkey hty
    exact hs.unique i j hi hj hkey hty
  · obtain ⟨hP, hold⟩ := h.holds hj
    obtain ⟨a, b, hdata, hheap, hlen, hle⟩ := hs.block j hold
    rw [h.others j hP]
    exact ⟨a, b, hdata, (h.same_heap hs hP hold hdata).trans hheap, hlen, hle⟩
  · obtain ⟨hPi, hi⟩ := h.holds hi
    obtain ⟨hPj, hj⟩ := h.holds hj
    rw [h.others i hPi, h.others j hPj] at hdata
    exact hs.disjoint i j hi hj hdata
  have hkept : ∀ j, P j → Holds s j → (s.store j).data ≠ some a := by
    intro j hP hj hdata
    exact ha (h.freed j a hP hj hdata)
  rw [h.heap a hkept] at ha
  obtain ⟨j, hj, hdata⟩ := hs.noLeak a ha
  have hP : ¬ P j := fun hP => hkept j hP hj hdata
  refine ⟨j, ?_, ?_⟩
  · unfold Holds at hj ⊢
    rwa [h.others j hP]
  · rw [h.others j hP]
    exact hdata

theorem Cleared.value (h : Cleared s t P) (hs : Sound s) (hP : ¬ P j)
    (hused : (s.store j).inUse = true) : value t j = value s j := by
  unfold Ds.value
  rw [h.others j hP]
  split_ifs with hty
  · obtain ⟨a, b, hdata, -, -, -⟩ := hs.block j ⟨hused, hty⟩
    unfold readMem
    rw [hdata, bind_some, bind_some, h.same_heap hs hP ⟨hused, hty⟩ hdata]
  · rfl

theorem Cleared.item (h : Cleared s t P) (hs : Sound s) (hused : (s.store i).inUse = true) :
    (P i → Ds.item t (s.store i).key (s.store i).type = none) ∧
      (¬ P i → Ds.item t (s.store i).key (s.store i).type =
        Ds.item s (s.store i).key (s.store i).type) := by
  constructor
  · intro hP
    apply Sound.item_none
    intro j hj hkey hty
    have hPj := h.stays hj
    rw [h.others j hPj] at hj hkey hty
    have := hs.unique j i hj hused hkey hty
    subst this
    exact hPj hP
  intro hP
  have hsame := h.others i hP
  have hitem := (h.sound hs).item_of (i := i) (by rw [hsame]; exact hused)
  rw [hsame, h.value hs hP hused] at hitem
  rw [hitem, hs.item_of hused]

theorem Cleared.item_free (h : Cleared s t P) (hnone : lookupEntry s key [ty] = none) :
    Ds.item t key ty = none := by
  apply Sound.item_none
  intro j hj hkey hty
  have hP := h.stays hj
  rw [h.others j hP] at hj hkey hty
  exact lookupEntry_none hnone j ⟨hj, by simp [hty], hkey⟩

theorem cleanEntries {label : Key} {l : List Slot} (h : l.foldlM (cleanEntry label) s = some t) :
    (∀ j, t.store j = if j ∈ l ∧ (s.store j).inUse = true ∧ (s.store j).owner = label then
      { s.store j with inUse := false } else s.store j) ∧ t.heap = s.heap ∧ t.fault = s.fault := by
  induction l generalizing s with
  | nil =>
    cases h
    simp
  | cons i l ih =>
    simp only [foldlM_cons, bind_eq_bind, bind_eq_some_iff] at h
    obtain ⟨s₁, hstep, hrest⟩ := h
    obtain ⟨hstore, hheap, hfault⟩ := ih hrest
    unfold cleanEntry at hstep
    split_ifs at hstep with hmatch
    · obtain ⟨s2, hupdate, rfl⟩ := map_eq_some_iff.mp hstep
      have hsame := updateSubscribers_same hupdate
      refine ⟨fun j => ?_, hheap.trans hsame.heap, hfault.trans hsame.fault⟩
      rw [hstore j]
      by_cases hj : j = i
      · subst hj
        rw [setEntry_store, hsame.store, if_neg (by simp), if_pos ⟨mem_cons_self, hmatch⟩]
      have hs2 : (s2.setEntry i { s2.store i with inUse := false }).store j = s.store j := by
        rw [← hsame.store]
        exact update_of_ne hj _ _
      rw [hs2]
      simp [hj]
    cases hstep
    refine ⟨fun j => ?_, hheap, hfault⟩
    rw [hstore j]
    by_cases hj : j = i
    · subst hj
      simp [hmatch]
    · simp [hj]

variable {source : Endpoint} {copy : Option Err}

theorem doDelete_ok {k : Key} {s' : State} (h : Sound s)
    (hloss : NoLoss s (.delete source (.ok k) types)) {name : NamePtr}
    (hname : getprocname s source = some name) (hl : lookupEntry s k types = some i)
    (howner : (s.store i).owner = name.text s) (hclean : cleanUp s types i = some (none, s₁))
    (hupdate : updateSubscribers s₁ i false = some s') :
    ∃ ty, oneType types = some ty ∧ Cleared s (s'.setEntry i { s'.store i with inUse := false })
        fun j => j = i ∨ ty = .label ∧ (s.store j).inUse = true ∧ (s.store j).owner = k := by
  have hsame := updateSubscribers_same hupdate
  obtain ⟨hused, hti, hki⟩ := lookupEntry_some hl
  have hfinal : ∀ j, (s'.setEntry i { s'.store i with inUse := false }).store j =
      if j = i then { s₁.store i with inUse := false } else s₁.store j := by
    intro j
    rw [← hsame.store]
    split_ifs with hj
    · rw [hj]
      exact setEntry_store
    · exact update_of_ne hj _ _
  have hheap : (s'.setEntry i { s'.store i with inUse := false }).heap = s₁.heap := hsame.heap
  have hfault : (s'.setEntry i { s'.store i with inUse := false }).fault = s₁.fault := hsame.fault
  cases hty : oneType types with
  | none =>
    unfold cleanUp at hclean
    rw [hty] at hclean
    cases hclean
  | some ty =>
    obtain ⟨htypes, hknown⟩ := oneType_some hty
    rw [htypes] at hti
    have hti' := mem_singleton.mp hti
    have hsingle : ty ≠ .label → s₁.store = s.store → s₁.fault = s.fault →
        (∀ a, Holds s i → (s.store i).data = some a → s₁.heap a = none) →
        (∀ a, (Holds s i → (s.store i).data ≠ some a) → s₁.heap a = s.heap a) →
        Cleared s (s'.setEntry i { s'.store i with inUse := false })
          fun j => j = i ∨ ty = .label ∧ (s.store j).inUse = true ∧ (s.store j).owner = k := by
      intro hlabel hstore hfault' hfreed hkept
      refine ⟨fun j hj => ?_, fun j hj => ?_, hfault.trans hfault', fun j a hj hholds hdata => ?_,
        fun a ha => ?_⟩
      · rw [hfinal j, if_neg fun heq => hj (.inl heq), hstore]
      · obtain rfl | ⟨hbad, -⟩ := hj
        · rw [hfinal, if_pos rfl]
        · exact absurd hbad hlabel
      · obtain rfl | ⟨hbad, -⟩ := hj
        · rw [hheap]
          exact hfreed a hholds hdata
        · exact absurd hbad hlabel
      · rw [hheap]
        exact hkept a (ha i (.inl rfl))
    refine ⟨ty, rfl, ?_⟩
    have hnone : ¬ (ty = .str ∨ ty = .mem) → ¬ Holds s i := by
      rintro hbad ⟨-, hmem⟩
      rw [hti'] at hmem
      exact hbad hmem
    have hbuffer : (ty = .str ∨ ty = .mem) → s₁ = free s (s.store i).data →
        Cleared s (s'.setEntry i { s'.store i with inUse := false })
          fun j => j = i ∨ ty = .label ∧ (s.store j).inUse = true ∧ (s.store j).owner = k := by
      intro hmem heq
      obtain ⟨a, b, hdata, hblock, -, -⟩ := h.block i ⟨hused, by rw [hti']; exact hmem⟩
      rw [hdata, free_some hblock] at heq
      have hne : ty ≠ .label := by
        obtain rfl | rfl := hmem <;> simp
      refine hsingle hne (by rw [heq]) (by rw [heq]) (fun a' _ hdata' => ?_) fun a' ha' => ?_
      · rw [hdata] at hdata'
        cases hdata'
        rw [heq]
        exact update_self _ _ _
      have hne' : a' ≠ a := by
        rintro rfl
        exact ha' ⟨hused, by rw [hti']; exact hmem⟩ hdata
      rw [heq]
      exact update_of_ne hne' _ _
    unfold cleanUp at hclean
    rw [hty] at hclean
    cases ty with
    | u32 =>
      cases hclean
      exact hsingle (by simp) rfl rfl (fun a hholds => absurd hholds (hnone (by simp)))
        fun a _ => rfl
    | str =>
      apply hbuffer (.inl rfl)
      cases hclean
      rfl
    | mem =>
      apply hbuffer (.inr rfl)
      cases hclean
      rfl
    | label =>
      obtain ⟨s2, hloop, heq⟩ := map_eq_some_iff.mp hclean
      cases heq
      rw [hki] at hloop
      obtain ⟨hstore, hheap1, hfault1⟩ := cleanEntries hloop
      have hbare : ∀ j, j = i ∨ Ty.label = .label ∧ (s.store j).inUse = true ∧
          (s.store j).owner = k → ¬ Holds s j := by
        rintro j (rfl | ⟨-, -, hown⟩) hholds
        · exact hnone (by simp) hholds
        · apply hloss k i name rfl htypes hl hname howner j hholds
          rw [hown, hki]
      refine ⟨fun j hj => ?_, fun j hj => ?_, hfault.trans hfault1, fun j a hj hholds _ => ?_,
        fun a _ => ?_⟩
      · rw [not_or] at hj
        rw [hfinal j, if_neg hj.1, hstore j, if_neg]
        · rfl
        · rintro ⟨-, hbad⟩
          exact hj.2 ⟨rfl, hbad⟩
      · rw [hfinal j]
        split_ifs with hji
        · rfl
        · obtain hbad | ⟨-, hmatch⟩ := hj
          · exact absurd hbad hji
          · rw [hstore j, if_pos ⟨mem_finRange j, hmatch⟩]
      · exact absurd hholds (hbare j hj)
      · rw [hheap, hheap1]
        rfl
    | unknown => exact absurd rfl hknown

theorem doDelete_done {k : Except Err Key} (h : Sound s)
    (hloss : NoLoss s (.delete source k types)) (hrun : doDelete s source k types = some (reply, t)) :
    Done s t (.delete source k types) reply ∧ Sound t := by
  have herr : ∀ e, some (Reply.error e, s) = some (reply, t) →
      Done s t (.delete source k types) reply ∧ Sound t := by
    intro e heq
    cases heq
    exact ⟨.refl s, h⟩
  unfold doDelete at hrun
  split at hrun
  next => exact herr _ hrun
  rename_i name hname
  split at hrun
  next => exact herr _ hrun
  rename_i k
  split at hrun
  next => exact herr _ hrun
  rename_i i hl
  split_ifs at hrun with howner
  · exact herr _ hrun
  rw [ne_eq, not_not] at howner
  obtain ⟨⟨res, s₁⟩, hclean, hrest⟩ := bind_eq_some_iff.mp hrun
  obtain ⟨hused, hti, hki⟩ := lookupEntry_some hl
  cases res with
  | some e =>
    -- only a wrong type is refused at this point
    have hsame : s₁ = s := by
      unfold cleanUp at hclean
      split at hclean
      next => cases hclean
      next =>
        obtain ⟨_, _, hbad⟩ := map_eq_some_iff.mp hclean
        cases hbad
      next => cases hclean
      next => cases hclean
      next =>
        cases hclean
        rfl
    cases hrest
    rw [hsame]
    exact ⟨.refl s, h⟩
  | none =>
    obtain ⟨s', hupdate, heq⟩ := map_eq_some_iff.mp hrest
    cases heq
    obtain ⟨ty, hty, hclear⟩ := doDelete_ok h hloss hname hl howner hclean hupdate
    obtain ⟨htypes, -⟩ := oneType_some hty
    rw [htypes] at hti
    have hti' := mem_singleton.mp hti
    refine ⟨⟨k, ty, rfl, hty, ?_, ?_, fun hlabel k' u v hitem => ?_,
      fun k' u hne hnot => ?_⟩, hclear.sound h⟩
    · rw [← hki, ← hti', h.item_of hused]
      simp
    · rw [← hki, ← hti']
      exact (hclear.item h hused).1 (.inl rfl)
    · cases hlj : lookupEntry s k' [u] with
      | none => exact hclear.item_free hlj
      | some j =>
        obtain ⟨hj, htj, hkj⟩ := h.lookupEntry_iff.mp hlj
        have hown := h.item_of hj
        rw [htj, hkj, hitem] at hown
        cases hown
        rw [← hkj, ← htj]
        exact (hclear.item h hj).1 (.inr ⟨hlabel, hj, rfl⟩)
    cases hlj : lookupEntry s k' [u] with
    | none =>
      rw [hclear.item_free hlj]
      unfold item
      rw [hlj]
      rfl
    | some j =>
      obtain ⟨hj, htj, hkj⟩ := h.lookupEntry_iff.mp hlj
      have hP : ¬ (j = i ∨ ty = .label ∧ (s.store j).inUse = true ∧ (s.store j).owner = k) := by
        rintro (rfl | ⟨hlabel, -, hown⟩)
        · exact hne ⟨hkj.symm.trans hki, htj.symm.trans hti'⟩
        · have hitem := h.item_of hj
          rw [htj, hkj, hown] at hitem
          exact hnot hlabel _ hitem
      rw [← hkj, ← htj]
      exact (hclear.item h hj).2 hP

/-! ## The other requests -/

theorem doRetrieve_done {k : Except Err Key} {length : Nat}
    (h : Sound s) (hrun : doRetrieve s source k types length copy = (reply, t)) :
    Done s t (.retrieve source k types length copy) reply ∧ t = s := by
  have herr : ∀ e, (Reply.error e, s) = (reply, t) →
      Done s t (.retrieve source k types length copy) reply ∧ t = s := by
    intro e heq
    cases heq
    exact ⟨.refl s, rfl⟩
  unfold doRetrieve at hrun
  split at hrun
  next => exact herr _ hrun
  rename_i k
  split at hrun
  next => exact herr _ hrun
  rename_i i hl
  simp only at hrun
  split_ifs at hrun
  · exact herr _ hrun
  obtain ⟨hused, hti, hki⟩ := lookupEntry_some hl
  cases hty : oneType types with
  | none =>
    rw [hty] at hrun
    exact herr _ hrun
  | some ty =>
    obtain ⟨htypes, hknown⟩ := oneType_some hty
    rw [htypes] at hti
    have hti' := mem_singleton.mp hti
    have hitem := h.item_of hused
    rw [hti', hki] at hitem
    rw [hty] at hrun
    have hnum : ¬ (ty = .str ∨ ty = .mem) → (Reply.value (s.store i).u32, s) = (reply, t) →
        Done s t (.retrieve source (.ok k) types length copy) reply ∧ t = s := by
      intro hno heq
      cases heq
      refine ⟨⟨.refl s, k, ty, (s.store i).owner, rfl, hty, ?_⟩, rfl⟩
      rw [hitem]
      unfold Ds.value
      rw [if_neg (by rw [hti']; exact hno)]
    have hbytes : (ty = .str ∨ ty = .mem) → retrieveMem s (s.store i) length copy = (reply, t) →
        Done s t (.retrieve source (.ok k) types length copy) reply ∧ t = s := by
      intro hmem heq
      have hmem' : (s.store i).type = .str ∨ (s.store i).type = .mem := by
        rw [hti']
        exact hmem
      obtain ⟨a, b, hdata, hheap, hlen, hle⟩ := h.block i ⟨hused, hmem'⟩
      have hread : readMem s (s.store i).data (min length (s.store i).length) =
          some (b.take (min length (s.store i).length)) := by
        unfold readMem
        rw [hdata, bind_some, hheap, bind_some, if_pos]
        rw [hlen]
        exact (min_le_right _ _).trans hle
      unfold retrieveMem at heq
      rw [hread] at heq
      simp only at heq
      split at heq
      next => exact herr _ heq
      cases heq
      refine ⟨⟨.refl s, k, ty, b.take (s.store i).length, (s.store i).owner, rfl, hty, ?_,
        (take_take).symm⟩, rfl⟩
      rw [hitem, value_bytes hmem' hdata hheap (hle.trans hlen.ge)]
    cases ty with
    | u32 => exact hnum (by simp) hrun
    | label => exact hnum (by simp) hrun
    | str => exact hbytes (.inl rfl) hrun
    | mem => exact hbytes (.inr rfl) hrun
    | unknown => exact absurd rfl hknown

theorem doSubscribe_same (m : Subscribe) : SameStore s (doSubscribe s m).2 := by
  unfold doSubscribe
  split
  next => exact .refl s
  split
  next => exact .refl s
  split
  next => exact .refl s
  split
  next => exact ⟨rfl, rfl, rfl⟩
  next => exact .refl s
  simp only
  split_ifs
  · exact ⟨rfl, rfl, rfl⟩
  · exact ⟨rfl, rfl, rfl⟩
  · exact ⟨rfl, rfl, rfl⟩

theorem doCheck_same (h : doCheck s source copy = some (reply, t)) : SameStore s t := by
  unfold doCheck at h
  split at h
  next =>
    cases h
    exact .refl _
  split at h
  next =>
    cases h
    exact .refl _
  split at h
  next =>
    cases h
    exact .refl _
  split at h
  next =>
    cases h
    exact .refl _
  obtain ⟨ep, -, heq⟩ := map_eq_some_iff.mp h
  cases heq
  exact ⟨rfl, rfl, rfl⟩

theorem doSubscribe_reply (m : Subscribe) :
    (∃ e, (doSubscribe s m).1 = .error e) ∨ (doSubscribe s m).1 = .ok := by
  unfold doSubscribe
  split
  next => exact .inl ⟨_, rfl⟩
  split
  next => exact .inl ⟨_, rfl⟩
  split
  next => exact .inl ⟨_, rfl⟩
  split
  next => exact .inl ⟨_, rfl⟩
  next => exact .inl ⟨_, rfl⟩
  simp only
  split_ifs
  · exact .inr rfl
  · exact .inr rfl
  · exact .inr rfl

theorem doCheck_reply (h : doCheck s source copy = some (reply, t)) :
    (∃ e, reply = .error e) ∨ ∃ key types ep, reply = .report key types ep := by
  unfold doCheck at h
  split at h
  next =>
    cases h
    exact .inl ⟨_, rfl⟩
  split at h
  next =>
    cases h
    exact .inl ⟨_, rfl⟩
  split at h
  next =>
    cases h
    exact .inl ⟨_, rfl⟩
  split at h
  next =>
    cases h
    exact .inl ⟨_, rfl⟩
  obtain ⟨ep, -, heq⟩ := map_eq_some_iff.mp h
  cases heq
  exact .inr ⟨_, _, _, rfl⟩

theorem doRetrieveLabel_done {num : Nat} (h : Sound s) :
    Done s s (.retrieveLabel num copy) (doRetrieveLabel s num copy) := by
  unfold doRetrieveLabel
  split
  next => exact .refl s
  rename_i i hl
  split
  next => exact .refl s
  obtain ⟨hused, hty, hnum⟩ := lookupLabelEntry_some hl
  refine ⟨.refl s, (s.store i).owner, ?_⟩
  have hitem := h.item_of hused
  have hval : value s i = .num num := by
    unfold value
    rw [if_neg (by rw [hty]; simp), hnum]
  rw [hty, hval] at hitem
  exact hitem

theorem handle_done (h : Sound s) (hproper : r.Proper s) (hloss : NoLoss s r)
    (hrun : handle s r = some (reply, t)) : Done s t r reply ∧ Sound t := by
  cases r with
  | publish m => exact doPublish_done h hproper hloss hrun
  | delete source k types => exact doDelete_done h hloss hrun
  | retrieve source k types length copy =>
    obtain ⟨hdone, rfl⟩ := doRetrieve_done h (some.inj hrun)
    exact ⟨hdone, h⟩
  | retrieveLabel num copy =>
    have heq := some.inj hrun
    cases heq
    exact ⟨doRetrieveLabel_done h, h⟩
  | subscribe m =>
    have heq : doSubscribe s m = (reply, t) := some.inj hrun
    have hsame := doSubscribe_same (s := s) m
    have hreply := doSubscribe_reply (s := s) m
    rw [heq] at hsame hreply
    refine ⟨?_, hsame.sound h⟩
    obtain ⟨e, rfl⟩ | rfl := hreply
    · exact hsame.unchanged
    · exact hsame.unchanged
  | check source copy =>
    have hsame := doCheck_same hrun
    refine ⟨?_, hsame.sound h⟩
    obtain ⟨e, rfl⟩ | ⟨key, types, ep, rfl⟩ := doCheck_reply hrun
    · exact hsame.unchanged
    · exact hsame.unchanged

/-! ## Main result -/

theorem sound_boot (h : Boot s) : Sound s := by
  have hnone : ∀ i, ¬ Holds s i := by
    rintro i ⟨hused, hty⟩
    rw [(h.labels i hused).1] at hty
    simp at hty
  refine ⟨fun i j hi hj hkey _ => h.keys i j hi hj hkey, fun i hi => absurd hi (hnone i),
    fun i _ hi => absurd hi (hnone i), fun a ha => absurd (h.heap a) ha, h.fault⟩

/-- In every run that loses no buffer each request is a step of the map or fails and changes
nothing, and at its end every buffer belongs to one entry. -/
theorem store_is_a_map {rs : List Request} (hboot : Boot s)
    (h : Along step (fun s r => r.Proper s ∧ NoLoss s r) s rs) :
    Along step Atomic s rs ∧ Sound (rs.foldl step s) := by
  refine Along.run (fun s r hs hr => ?_) (sound_boot hboot) h
  have hdone : ∀ reply t, handle s r = some (reply, t) → Done s t r reply ∧ Sound t :=
    fun reply t hrun => handle_done hs hr.1 hr.2 hrun
  refine ⟨fun reply t hrun => (hdone reply t hrun).1, ?_⟩
  unfold step
  cases hrun : handle s r with
  | none => exact hs
  | some res => exact (hdone res.1 res.2 hrun).2

/-- A service publishes bytes, in the buffer that `malloc` finds. -/
def publishBytes (key : Key) (alloc : Option Addr) (length : Nat) (copy : Except Err (List Byte)) :
    Request :=
  .publish ⟨20, .ok key, [.mem], ⟨false, false, false⟩, true, 0, length, alloc, copy⟩

/-- A service publishes two bytes, and then three under the same key. -/
def replaceBytes : List Request :=
  [publishLabel ['a'] 20, publishBytes ['k'] (some 100) 2 (.ok [1, 2]),
    publishBytes ['k'] (some 200) 3 (.ok [3, 4, 5]), .retrieve 20 (.ok ['k']) [.mem] 2 none]

theorem store_is_a_map_replace : Along step Atomic bootState replaceBytes ∧
    Sound (replaceBytes.foldl step bootState) ∧
    (handle ((replaceBytes.take 3).foldl step bootState)
      (.retrieve 20 (.ok ['k']) [.mem] 2 none)).map Prod.fst = some (.data [3, 4]) := by
  have hrun : Along step (fun s r => r.Proper s ∧ NoLoss s r) bootState replaceBytes := by
    refine ⟨⟨⟨by rintro _ ⟨⟩, by rintro _ ⟨⟩⟩, ?_⟩, ⟨⟨?_, ?_⟩, ?_⟩, ⟨⟨?_, ?_⟩, ?_⟩,
      ⟨trivial, trivial⟩, trivial⟩
    · rintro key i ty ⟨⟩ ⟨⟩ hmem
      simp at hmem
    · rintro bytes ⟨⟩
      rfl
    · rintro a ⟨⟩
      exact .inl (by decide +kernel)
    · rintro key i ty ⟨⟩ ⟨⟩ - - -
      exact ⟨fun _ => ⟨fun _ => by simp, [1, 2], rfl⟩, by simp⟩
    · rintro bytes ⟨⟩
      rfl
    · rintro a ⟨⟩
      exact .inl (by decide +kernel)
    · rintro key i ty ⟨⟩ ⟨⟩ - - -
      exact ⟨fun _ => ⟨fun _ => by simp, [3, 4, 5], rfl⟩, by simp⟩
  obtain ⟨hatomic, hsound⟩ := store_is_a_map boot_bootState hrun
  exact ⟨hatomic, hsound, by decide +kernel⟩

/-- The value of `k` has been published, in the slot after the labels. -/
def published : State := [publishLabel ['a'] 20, publishBytes ['k'] (some 100) 2 (.ok [1, 2])].foldl
  step bootState

set_option maxRecDepth 4000 in
/-- A value is replaced by one that cannot be copied, and the label of an owner is deleted; memory
is lost. -/
theorem buffers_are_lost :
    (∃ rs, Along step (fun s r => r.Proper s) bootState rs ∧ ¬ Along step Atomic bootState rs ∧
      ¬ Sound (rs.foldl step bootState)) ∧
    ∃ rs, Along step (fun s r => r.Proper s) bootState rs ∧ ¬ Sound (rs.foldl step bootState) := by
  have hlabel : (publishLabel ['a'] 20).Proper bootState := ⟨by rintro _ ⟨⟩, by rintro _ ⟨⟩⟩
  have hfirst : (publishBytes ['k'] (some 100) 2 (.ok [1, 2])).Proper
      (step bootState (publishLabel ['a'] 20)) := by
    refine ⟨?_, ?_⟩
    · rintro bytes ⟨⟩
      rfl
    · rintro a ⟨⟩
      exact .inl (by decide +kernel)
  constructor
  · refine ⟨[publishLabel ['a'] 20, publishBytes ['k'] (some 100) 2 (.ok [1, 2]),
      publishBytes ['k'] none 2 (.error .copy)],
      ⟨hlabel, hfirst, ⟨by rintro _ ⟨⟩, by rintro _ ⟨⟩⟩, trivial⟩, ?_, ?_⟩
    · rintro ⟨-, -, hlast, -⟩
      have hcheck : (handle published (publishBytes ['k'] none 2 (.error .copy))).any (fun x =>
          decide (x.1 = .error .copy ∧ value x.2 3 ≠ value published 3)) = true := by
        decide +kernel
      obtain ⟨⟨reply, t⟩, hrun, hx⟩ := (Option.any_eq_true _ _).mp hcheck
      obtain ⟨hreply, hvalue⟩ := of_decide_eq_true hx
      have hdone := hlast reply t hrun
      have hsame : Unchanged published t := by
        have hreply' : reply = .error .copy := hreply
        rwa [hreply'] at hdone
      exact hvalue ((hsame 3).2 (by decide +kernel)).2
    intro hsound
    obtain ⟨a, b, hdata, hheap, -⟩ := hsound.block 3 (by decide +kernel)
    have hlost : (([publishLabel ['a'] 20, publishBytes ['k'] (some 100) 2 (.ok [1, 2]),
        publishBytes ['k'] none 2 (.error .copy)].foldl step bootState).store 3).data = some 100 ∧
        ([publishLabel ['a'] 20, publishBytes ['k'] (some 100) 2 (.ok [1, 2]),
          publishBytes ['k'] none 2 (.error .copy)].foldl step bootState).heap 100 = none := by
      decide +kernel
    rw [hlost.1] at hdata
    cases hdata
    rw [hlost.2] at hheap
    cases hheap
  refine ⟨[publishLabel ['a'] 20, publishBytes ['k'] (some 100) 2 (.ok [1, 2]),
    .delete rsProcNr (.ok ['a']) [.label]], ⟨hlabel, hfirst, trivial, trivial⟩, ?_⟩
  intro hsound
  have hleak : ([publishLabel ['a'] 20, publishBytes ['k'] (some 100) 2 (.ok [1, 2]),
      .delete rsProcNr (.ok ['a']) [.label]].foldl step bootState).heap 100 ≠ none ∧
      ∀ i, ¬ Holds ([publishLabel ['a'] 20, publishBytes ['k'] (some 100) 2 (.ok [1, 2]),
        .delete rsProcNr (.ok ['a']) [.label]].foldl step bootState) i := by
    decide +kernel
  obtain ⟨i, hi, -⟩ := hsound.noLeak 100 hleak.1
  exact hleak.2 i hi

end HardenedMinix.Ds
