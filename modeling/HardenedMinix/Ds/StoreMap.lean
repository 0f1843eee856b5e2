import HardenedMinix.Lib.Runs
import HardenedMinix.Ds.Store

/-!
# The data store is a map

What the store holds under each key and type. Each request is one step of the map, or changes
nothing.
-/

open Function List Option

namespace HardenedMinix.Ds

open Lib

variable {s s' s₁ t : State} {i j : Slot} {k : SubSlot} {key key' owner : Key} {ty : Ty}
  {types : List Ty} {m : Publish} {a : Addr} {set : Bool} {r : Request} {reply : Reply} {e : Err}
  {source : Endpoint}

/-! ## The map -/

inductive Value where
  | num (n : Nat)
  | bytes (l : List Byte)
  deriving DecidableEq

def Holds (s : State) (i : Slot) : Prop :=
  (s.store i).inUse = true ∧ ((s.store i).type = .str ∨ (s.store i).type = .mem)

instance (s : State) (i : Slot) : Decidable (Holds s i) := inferInstanceAs (Decidable (_ ∧ _))

def value (s : State) (i : Slot) : Value :=
  if (s.store i).type = .str ∨ (s.store i).type = .mem then
    .bytes ((readMem s (s.store i).data (s.store i).length).getD [])
  else .num (s.store i).u32

/-- What is stored under a key and a type, and who owns it. -/
def item (s : State) (key : Key) (ty : Ty) : Option (Value × Key) :=
  (lookupEntry s key [ty]).map fun i => (value s i, (s.store i).owner)

/-- There is one entry for a key and a type, and each buffer belongs to one entry. -/
structure Sound (s : State) : Prop where
  unique : ∀ i j, (s.store i).inUse = true → (s.store j).inUse = true →
    (s.store i).key = (s.store j).key → (s.store i).type = (s.store j).type → i = j
  block : ∀ i, Holds s i → ∃ a b, (s.store i).data = some a ∧ s.heap a = some b ∧
    b.length = (s.store i).reallen ∧ (s.store i).length ≤ (s.store i).reallen
  disjoint : ∀ i j, Holds s i → Holds s j → (s.store i).data = (s.store j).data → i = j
  noLeak : ∀ a, s.heap a ≠ none → ∃ i, Holds s i ∧ (s.store i).data = some a
  fault : s.fault = false

/-- Every entry and its value are as they were. -/
def Unchanged (s t : State) : Prop :=
  ∀ i, (t.store i).inUse = (s.store i).inUse ∧
    ((s.store i).inUse = true → t.store i = s.store i ∧ value t i = value s i)

/-! ## Looking up -/

theorem lookupEntry_some (h : lookupEntry s key types = some i) :
    (s.store i).inUse = true ∧ (s.store i).type ∈ types ∧ (s.store i).key = key := by
  have := List.find?_some h
  simpa using this

theorem lookupEntry_none (h : lookupEntry s key types = none) (i : Slot) :
    ¬ ((s.store i).inUse = true ∧ (s.store i).type ∈ types ∧ (s.store i).key = key) := by
  have := List.find?_eq_none.mp h i (mem_finRange i)
  simpa using this

theorem lookupLabelEntry_some {num : Nat} (h : lookupLabelEntry s num = some i) :
    (s.store i).inUse = true ∧ (s.store i).type = .label ∧ (s.store i).u32 = num := by
  have := List.find?_some h
  simpa using this

theorem allocDataSlot_some (h : allocDataSlot s = some i) : (s.store i).inUse = false := by
  have := List.find?_some h
  simpa using this

theorem Sound.lookupEntry_iff (h : Sound s) : lookupEntry s key [ty] = some i ↔
    (s.store i).inUse = true ∧ (s.store i).type = ty ∧ (s.store i).key = key := by
  constructor
  · intro hfound
    simpa using lookupEntry_some hfound
  rintro ⟨hused, hty, hkey⟩
  cases hl : lookupEntry s key [ty] with
  | none => exact absurd ⟨hused, by simp [hty], hkey⟩ (lookupEntry_none hl i)
  | some j =>
    obtain ⟨hj, htj, hkj⟩ := lookupEntry_some hl
    rw [h.unique j i hj hused (hkj.trans hkey.symm) ((mem_singleton.mp htj).trans hty.symm)]

theorem Sound.item_of (h : Sound s) (hused : (s.store i).inUse = true) :
    item s (s.store i).key (s.store i).type = some (value s i, (s.store i).owner) := by
  unfold item
  rw [h.lookupEntry_iff.mpr ⟨hused, rfl, rfl⟩]
  rfl

theorem Sound.item_none (h : ∀ i, (s.store i).inUse = true → (s.store i).key = key →
    (s.store i).type ≠ ty) : item s key ty = none := by
  unfold item
  cases hl : lookupEntry s key [ty] with
  | none => rfl
  | some i =>
    obtain ⟨hused, hty, hkey⟩ := lookupEntry_some hl
    exact absurd (mem_singleton.mp hty) (h i hused hkey)

theorem oneType_some (h : oneType types = some ty) : types = [ty] ∧ ty ≠ .unknown := by
  unfold oneType at h
  split at h
  · cases h
  · cases h
    refine ⟨rfl, ?_⟩
    rintro rfl
    simp_all
  · cases h

variable {block : List Byte}

theorem value_bytes (hty : (s.store i).type = .str ∨ (s.store i).type = .mem)
    (hdata : (s.store i).data = some a) (hheap : s.heap a = some block)
    (hlen : (s.store i).length ≤ block.length) :
    value s i = .bytes (block.take (s.store i).length) := by
  unfold value readMem
  rw [if_pos hty, hdata, bind_some, hheap, bind_some, if_pos hlen]
  rfl

/-! ## Subscribers do not matter -/

/-- The entries and the memory are the same. -/
structure SameStore (s t : State) : Prop where
  store : t.store = s.store
  heap : t.heap = s.heap
  fault : t.fault = s.fault

theorem SameStore.refl (s : State) : SameStore s s := ⟨rfl, rfl, rfl⟩

theorem SameStore.trans (h : SameStore s s₁) (h' : SameStore s₁ t) : SameStore s t :=
  ⟨h'.store.trans h.store, h'.heap.trans h.heap, h'.fault.trans h.fault⟩

theorem updateSubscriber_same (h : updateSubscriber i set s k = some t) : SameStore s t := by
  unfold updateSubscriber at h
  simp only at h
  split_ifs at h
  · obtain ⟨ep, -, rfl⟩ := map_eq_some_iff.mp h
    split_ifs
    · exact ⟨rfl, rfl, rfl⟩
    · exact .refl s
  · cases h
    exact .refl _

theorem updateSubscribers_same (h : updateSubscribers s i set = some t) : SameStore s t := by
  unfold updateSubscribers at h
  generalize List.finRange nrDsSubs = l at h
  induction l generalizing s with
  | nil =>
    cases h
    exact .refl _
  | cons k l ih =>
    simp only [foldlM_cons, bind_eq_bind, bind_eq_some_iff] at h
    obtain ⟨s₁, hstep, hrest⟩ := h
    exact (updateSubscriber_same hstep).trans (ih hrest)

theorem SameStore.value (h : SameStore s t) (i : Slot) : value t i = value s i := by
  unfold Ds.value readMem
  rw [h.store, h.heap]

theorem SameStore.holds (h : SameStore s t) : Holds t i ↔ Holds s i := by
  unfold Holds
  rw [h.store]

theorem SameStore.unchanged (h : SameStore s t) : Unchanged s t := by
  intro i
  rw [h.value i, h.store]
  exact ⟨rfl, fun _ => ⟨rfl, rfl⟩⟩

theorem SameStore.sound (h : SameStore s t) (hs : Sound s) : Sound t := by
  refine ⟨?_, fun i hi => ?_, fun i j hi hj => ?_, fun a ha => ?_, h.fault.trans hs.fault⟩
  · rw [h.store]
    exact hs.unique
  · rw [h.store, h.heap]
    exact hs.block i (h.holds.mp hi)
  · rw [h.store]
    exact hs.disjoint i j (h.holds.mp hi) (h.holds.mp hj)
  rw [h.heap] at ha
  obtain ⟨i, hi, hdata⟩ := hs.noLeak a ha
  refine ⟨i, h.holds.mpr hi, ?_⟩
  rw [h.store]
  exact hdata

/-! ## Storing a value -/

theorem publishTarget_ok (h : publishTarget s m key = .ok i) :
    ((s.store i).inUse = false ∧ lookupEntry s key m.types = none) ∨
    ((s.store i).inUse = true ∧ (s.store i).type ∈ m.types ∧ (s.store i).key = key) ∨
    ((s.store i).inUse = true ∧ .label ∈ m.types ∧ (s.store i).type = .label ∧
      (s.store i).u32 = m.val ∧ lookupEntry s key m.types = none) := by
  unfold publishTarget at h
  cases hl : lookupEntry s key m.types with
  | some j =>
    rw [hl] at h
    simp only at h
    split_ifs at h
    cases h
    exact .inr (.inl (lookupEntry_some hl))
  | none =>
    rw [hl] at h
    simp only at h
    split at h
    next hfound =>
      split at h
      next => cases h
      next j halloc =>
        cases h
        exact .inl ⟨allocDataSlot_some halloc, rfl⟩
    rename_i j hfound
    split_ifs at hfound with hlabel
    split_ifs at h
    cases h
    obtain ⟨hused, hty, hnum⟩ := lookupLabelEntry_some hfound
    exact .inr (.inr ⟨hused, hlabel, hty, hnum, rfl⟩)

theorem target_unique (h : ∀ i j, (s.store i).inUse = true → (s.store j).inUse = true →
    (s.store i).key = (s.store j).key → (s.store i).type = (s.store j).type → i = j) (htypes : m.types = [ty])
    (htarget : publishTarget s m key = .ok i) (hj : j ≠ i) (hused : (s.store j).inUse = true)
    (hkey : (s.store j).key = key) : (s.store j).type ≠ ty := by
  intro hty
  have hmem : (s.store j).type ∈ m.types := by
    rw [htypes, hty]
    exact mem_singleton_self ty
  obtain ⟨-, hnone⟩ | ⟨hi, hti, hki⟩ | ⟨-, -, -, -, hnone⟩ := publishTarget_ok htarget
  · exact lookupEntry_none hnone j ⟨hused, hmem, hkey⟩
  · rw [htypes] at hti
    exact hj (h j i hused hi (hkey.trans hki.symm)
      (hty.trans (mem_singleton.mp hti).symm))
  · exact lookupEntry_none hnone j ⟨hused, hmem, hkey⟩

theorem target_type (htypes : m.types = [ty]) (htarget : publishTarget s m key = .ok i)
    (hused : (s.store i).inUse = true) : (s.store i).type = ty := by
  obtain ⟨hnot, -⟩ | ⟨-, hti, -⟩ | ⟨-, hlabel, hti, -, -⟩ := publishTarget_ok htarget
  · rw [hnot] at hused
    cases hused
  · rw [htypes] at hti
    exact mem_singleton.mp hti
  · rw [htypes] at hlabel
    rw [hti]
    exact mem_singleton.mp hlabel

/-- The memory after a value has been stored in `i`: a block that no other entry has, and the old
one is gone. -/
structure Buffered (s : State) (i : Slot) (heap : Addr → Option (List Byte)) (a : Addr)
    (block : List Byte) : Prop where
  new : heap a = some block
  others : ∀ j, j ≠ i → Holds s j → (s.store j).data ≠ some a
  same : ∀ a', a' ≠ a → heap a' =
    if (s.store i).inUse = true ∧ (s.store i).data = some a' then none else s.heap a'

theorem write_some {bytes block : List Byte} (h : s.heap a = some block)
    (hlen : bytes.length ≤ block.length) : write s (some a) bytes =
      { s with heap := update s.heap a (some (bytes ++ block.drop bytes.length)) } := by
  simp [write, h, hlen]

theorem free_some (h : s.heap a = some block) :
    free s (some a) = { s with heap := update s.heap a none } := by
  simp [free, h]

theorem setEntry_store {e : Entry} : (s.setEntry i e).store i = e := update_self _ _ _

theorem length_terminated {bytes : List Byte} (h : .str ∈ types → bytes.length ≠ 0) :
    (terminated types bytes).length = bytes.length := by
  unfold terminated
  split_ifs with hstr
  · have := h hstr
    rw [length_append, length_dropLast, length_singleton]
    omega
  · rfl

/-- What `Proper` says about `malloc`, for the slot that is stored in. -/
def Fresh (s : State) (m : Publish) (i : Slot) : Prop :=
  ∀ a, m.alloc = some a → s.heap a = none ∨
    ((s.store i).inUse = true ∧ m.length > (s.store i).reallen ∧ (s.store i).data = some a)

/-- The entry has the buffer `a`, and nothing else is different. -/
structure GotBuffer (s : State) (i : Slot) (t : State) (a : Addr) (block : List Byte) : Prop where
  eq : t = { s.setEntry i { s.store i with data := some a, reallen := block.length } with
    heap := t.heap }
  buffered : Buffered s i t.heap a block

theorem Sound.getBuffer (h : Sound s) (hmem : (s.store i).inUse = true → Holds s i)
    (hfresh : Fresh s m i) (hgot : getBuffer s m i = (true, t)) :
    ∃ a block, GotBuffer s i t a block ∧ m.length ≤ block.length := by
  have hfree : ∀ a, s.heap a = none → ∀ j, Holds s j → (s.store j).data ≠ some a := by
    intro a hnone j hj hdata
    obtain ⟨a', b, hdata', hheap, -, -⟩ := h.block j hj
    rw [hdata'] at hdata
    cases hdata
    rw [hnone] at hheap
    cases hheap
  unfold Ds.getBuffer at hgot
  simp only at hgot
  split_ifs at hgot with hnot hlong
  · -- a new entry
    split at hgot
    next => cases hgot
    rename_i a halloc
    cases hgot
    have hnone : s.heap a = none := by
      obtain hnone | ⟨hused, -⟩ := hfresh a halloc
      · exact hnone
      · rw [hnot] at hused
        cases hused
    refine ⟨a, List.replicate m.length 0, ⟨?_, update_self _ _ _,
      fun j _ hj => hfree a hnone j hj, fun a' ha => ?_⟩, by simp⟩
    · simp [malloc, State.setEntry]
    · rw [hnot, if_neg (by simp)]
      exact update_of_ne ha _ _
  · -- a larger buffer
    rw [Bool.not_eq_false] at hnot
    obtain ⟨a0, b0, hdata, hheap, -, -⟩ := h.block i (hmem hnot)
    rw [hdata, free_some hheap] at hgot
    split at hgot
    next => cases hgot
    rename_i a halloc
    cases hgot
    refine ⟨a, List.replicate m.length 0, ⟨?_, update_self _ _ _, fun j hj hholds => ?_,
      fun a' ha => ?_⟩, by simp⟩
    · simp [malloc, State.setEntry]
    · obtain hnone | ⟨-, -, hold⟩ := hfresh a halloc
      · exact hfree a hnone j hholds
      · intro hdata'
        exact hj (h.disjoint j i hholds (hmem hnot) (hdata'.trans hold.symm))
    show update (update s.heap a0 none) a _ a' = _
    rw [update_of_ne ha, hdata]
    by_cases ha0 : a' = a0
    · rw [ha0, update_self, if_pos ⟨hnot, rfl⟩]
    · rw [update_of_ne ha0, if_neg]
      rintro ⟨-, hsome⟩
      exact ha0 (some.inj hsome).symm
  -- the old one is large enough
  rw [Bool.not_eq_false] at hnot
  obtain ⟨a0, b0, hdata, hheap, hlen, -⟩ := h.block i (hmem hnot)
  cases hgot
  refine ⟨a0, b0, ⟨?_, hheap, fun j hj hholds hdata' => ?_, fun a' ha => ?_⟩, ?_⟩
  · rw [hlen, ← hdata]
    simp [State.setEntry]
  · exact hj (h.disjoint j i hholds (hmem hnot) (hdata'.trans hdata.symm))
  · rw [if_neg]
    rintro ⟨-, hsome⟩
    rw [hdata] at hsome
    exact ha (some.inj hsome).symm
  · rw [hlen]
    exact not_lt.mp hlong

structure Stored (s : State) (i : Slot) (t : State) (a : Addr) (block : List Byte) (length : Nat) :
    Prop where
  eq : t = { s.setEntry i { s.store i with
    data := some a, reallen := block.length, length := length } with heap := t.heap }
  buffered : Buffered s i t.heap a block
  length : length ≤ block.length

theorem GotBuffer.fill (h : GotBuffer s i s₁ a block) (hlen : m.length ≤ block.length)
    (hcopy : ∀ bytes, m.copy = .ok bytes → bytes.length = m.length)
    (hstr : .str ∈ m.types → (∃ bytes, m.copy = .ok bytes) → m.length ≠ 0)
    (hrun : fillBuffer s₁ m i = (none, t)) :
    ∃ bytes block', m.copy = .ok bytes ∧ Stored s i t a block' m.length ∧
      block'.take m.length = terminated m.types bytes := by
  have hentry : s₁.store i = { s.store i with data := some a, reallen := block.length } := by
    rw [h.eq]
    exact update_self _ _ _
  unfold fillBuffer at hrun
  simp only at hrun
  split at hrun
  next => cases hrun
  rename_i bytes hok
  have hsize : (terminated m.types bytes).length = m.length := by
    rw [length_terminated, hcopy bytes hok]
    intro hmem
    rw [hcopy bytes hok]
    exact hstr hmem ⟨bytes, hok⟩
  have hno : ¬ (.str ∈ m.types ∧ m.length = 0) := fun hbad => hstr hbad.1 ⟨bytes, hok⟩ hbad.2
  rw [if_neg hno, hentry, write_some h.buffered.new (hsize.trans_le hlen)] at hrun
  cases hrun
  refine ⟨bytes, terminated m.types bytes ++ block.drop (terminated m.types bytes).length, hok,
    ⟨?_, ⟨update_self _ _ _, h.buffered.others, fun a' ha => ?_⟩, ?_⟩, ?_⟩
  · have hblock : (terminated m.types bytes ++
        block.drop (terminated m.types bytes).length).length = block.length := by
      rw [length_append, length_drop, hsize]
      omega
    rw [hblock, h.eq]
    simp [State.setEntry]
  · show update s₁.heap a _ a' = _
    rw [update_of_ne ha]
    exact h.buffered.same a' ha
  · rw [length_append, hsize]
    omega
  · rw [← hsize]
    exact take_left' rfl

theorem storeMem_error (hnot : (s.store i).inUse = false) (hfresh : Fresh s m i)
    (hrun : storeMem s m i = (some e, t)) :
    t.heap = s.heap ∧ t.fault = s.fault ∧ (∀ j, j ≠ i → t.store j = s.store j) ∧
      (t.store i).inUse = false ∧ t.subs = s.subs := by
  unfold storeMem getBuffer at hrun
  simp only at hrun
  rw [if_pos hnot] at hrun
  cases halloc : m.alloc with
  | none =>
    rw [halloc] at hrun
    simp only [if_true] at hrun
    cases hrun
    refine ⟨rfl, rfl, fun j hj => update_of_ne hj _ _, ?_, rfl⟩
    rw [setEntry_store]
    exact hnot
  | some a =>
    have hnone : s.heap a = none := by
      obtain hnone | ⟨hused, -⟩ := hfresh a halloc
      · exact hnone
      · rw [hnot] at hused
        cases hused
    rw [halloc] at hrun
    simp only [Bool.true_eq_false, if_false] at hrun
    unfold fillBuffer at hrun
    simp only [setEntry_store] at hrun
    split at hrun
    next r hcopy =>
      have hheap : ((malloc s a m.length).setEntry i
          { s.store i with data := some a, reallen := m.length }).heap a =
          some (List.replicate m.length 0) := update_self _ _ _
      rw [free_some hheap] at hrun
      cases hrun
      refine ⟨?_, rfl, fun j hj => update_of_ne hj _ _, ?_, rfl⟩
      · show update (update s.heap a _) a none = s.heap
        rw [update_idem, ← hnone, update_eq_self]
      · show (update s.store i _ i).inUse = false
        rw [update_self]
        exact hnot
    next => cases hrun

/-! ## One entry changes -/

structure Put (s t : State) (i : Slot) : Prop where
  others : ∀ j, j ≠ i → t.store j = s.store j
  fault : t.fault = s.fault
  mem : ¬ Holds s i ∧ ¬ Holds t i ∧ t.heap = s.heap ∨
    ((s.store i).inUse = true → Holds s i) ∧ Holds t i ∧
      ∃ a block, (t.store i).data = some a ∧ Buffered s i t.heap a block ∧
        block.length = (t.store i).reallen ∧ (t.store i).length ≤ (t.store i).reallen
  unique : (t.store i).inUse = true → ∀ j, j ≠ i → (s.store j).inUse = true →
    (s.store j).key = (t.store i).key → (s.store j).type ≠ (t.store i).type

theorem Put.holds (h : Put s t i) (hj : j ≠ i) : Holds t j ↔ Holds s j := by
  unfold Holds
  rw [h.others j hj]

theorem Put.heap (h : Put s t i) (hs : Sound s) (hj : j ≠ i) (hholds : Holds s j)
    (hdata : (s.store j).data = some a) : t.heap a = s.heap a := by
  obtain ⟨-, -, heq⟩ | ⟨hmem, -, a', block, -, hbuf, -, -⟩ := h.mem
  · rw [heq]
  have hne : a ≠ a' := by
    rintro rfl
    exact hbuf.others j hj hholds hdata
  rw [hbuf.same a hne, if_neg]
  rintro ⟨hused, hsame⟩
  exact hj (hs.disjoint j i hholds (hmem hused) (hdata.trans hsame.symm))

theorem Put.value (h : Put s t i) (hs : Sound s) (hj : j ≠ i) (hused : (s.store j).inUse = true) :
    value t j = value s j := by
  unfold Ds.value
  rw [h.others j hj]
  split_ifs with hty
  · obtain ⟨a, b, hdata, hheap, -, -⟩ := hs.block j ⟨hused, hty⟩
    unfold readMem
    rw [hdata, bind_some, bind_some, h.heap hs hj ⟨hused, hty⟩ hdata]
  · rfl

theorem Put.sound (h : Put s t i) (hs : Sound s) : Sound t := by
  refine ⟨fun j j' hj hj' hkey hty => ?_, fun j hj => ?_, fun j j' hj hj' hdata => ?_,
    fun a ha => ?_, h.fault.trans hs.fault⟩
  · by_cases hji : j = i
    · by_cases hji' : j' = i
      · rw [hji, hji']
      · subst hji
        rw [h.others j' hji'] at hj' hkey hty
        exact absurd hty.symm (h.unique hj j' hji' hj' hkey.symm)
    by_cases hji' : j' = i
    · subst hji'
      rw [h.others j hji] at hj hkey hty
      exact absurd hty (h.unique hj' j hji hj hkey)
    · rw [h.others j hji] at hj hkey hty
      rw [h.others j' hji'] at hj' hkey hty
      exact hs.unique j j' hj hj' hkey hty
  · by_cases hji : j = i
    · subst hji
      obtain ⟨-, hno, -⟩ | ⟨-, -, a, block, hdata, hbuf, hlen, hle⟩ := h.mem
      · exact absurd hj hno
      · exact ⟨a, block, hdata, hbuf.new, hlen, hle⟩
    · have hold := (h.holds hji).mp hj
      obtain ⟨a, b, hdata, hheap, hlen, hle⟩ := hs.block j hold
      rw [h.others j hji]
      exact ⟨a, b, hdata, (h.heap hs hji hold hdata).trans hheap, hlen, hle⟩
  · have hnew : ∀ l, l ≠ i → Holds t l → Holds t i → (t.store l).data ≠ (t.store i).data := by
      intro l hl hholds hi heq
      rw [h.others l hl] at heq
      obtain ⟨-, hno, -⟩ | ⟨-, -, a, block, hdata, hbuf, -, -⟩ := h.mem
      · exact hno hi
      · exact hbuf.others l hl ((h.holds hl).mp hholds) (heq.trans hdata)
    by_cases hji : j = i
    · by_cases hji' : j' = i
      · rw [hji, hji']
      · subst hji
        exact absurd hdata.symm (hnew j' hji' hj' hj)
    by_cases hji' : j' = i
    · subst hji'
      exact absurd hdata (hnew j hji hj hj')
    · rw [h.others j hji, h.others j' hji'] at hdata
      exact hs.disjoint j j' ((h.holds hji).mp hj) ((h.holds hji').mp hj') hdata
  have hkeep : ∀ l, l ≠ i → Holds s l → (s.store l).data = some a →
      ∃ j, Holds t j ∧ (t.store j).data = some a := by
    intro l hl hholds hdata
    refine ⟨l, (h.holds hl).mpr hholds, ?_⟩
    rw [h.others l hl]
    exact hdata
  obtain ⟨hold, -, heq⟩ | ⟨hmem, hnew, a', block, hdata, hbuf, -, -⟩ := h.mem
  · rw [heq] at ha
    obtain ⟨l, hl, hdata⟩ := hs.noLeak a ha
    refine hkeep l ?_ hl hdata
    rintro rfl
    exact hold hl
  by_cases haa : a = a'
  · rw [haa]
    exact ⟨i, hnew, hdata⟩
  rw [hbuf.same a haa] at ha
  split_ifs at ha with hold
  · exact absurd rfl ha
  · obtain ⟨l, hl, hdata'⟩ := hs.noLeak a ha
    refine hkeep l ?_ hl hdata'
    rintro rfl
    exact hold ⟨hl.1, hdata'⟩

theorem Put.item (h : Put s t i) (hs : Sound s) (hnew : (t.store i).inUse = true) (key : Key)
    (ty : Ty) : item t key ty = if key = (t.store i).key ∧ ty = (t.store i).type then
        some (Ds.value t i, (t.store i).owner)
      else if (s.store i).inUse = true ∧ (s.store i).key = key ∧ (s.store i).type = ty then none
      else item s key ty := by
  have ht := h.sound hs
  split_ifs with hthis hold
  · rw [hthis.1, hthis.2]
    exact ht.item_of hnew
  · apply Sound.item_none
    intro j hj hkey hty
    by_cases hji : j = i
    · subst hji
      exact hthis ⟨hkey.symm, hty.symm⟩
    · rw [h.others j hji] at hj hkey hty
      exact hji (hs.unique j i hj hold.1 (hkey.trans hold.2.1.symm) (hty.trans hold.2.2.symm))
  cases hl : lookupEntry s key [ty] with
  | none =>
    have hnone : Ds.item s key ty = none := by
      unfold Ds.item
      rw [hl]
      rfl
    rw [hnone]
    apply Sound.item_none
    intro j hj hkey hty
    by_cases hji : j = i
    · subst hji
      exact hthis ⟨hkey.symm, hty.symm⟩
    · rw [h.others j hji] at hj hkey hty
      exact lookupEntry_none hl j ⟨hj, by simp [hty], hkey⟩
  | some j =>
    obtain ⟨hused, hty, hkey⟩ := hs.lookupEntry_iff.mp hl
    have hji : j ≠ i := by
      rintro rfl
      exact hold ⟨hused, hkey, hty⟩
    have hsame := h.others j hji
    have hitem := hs.item_of hused
    have hitem' := ht.item_of (i := j) (by rw [hsame]; exact hused)
    rw [hsame, h.value hs hji hused] at hitem'
    rw [hkey, hty] at hitem hitem'
    rw [hitem, hitem']

theorem Put.unchanged (h : Put s t i) (hs : Sound s) (hold : (s.store i).inUse = false)
    (hnew : (t.store i).inUse = false) : Unchanged s t := by
  intro j
  by_cases hj : j = i
  · subst hj
    rw [hold, hnew]
    refine ⟨rfl, fun hused => ?_⟩
    cases hused
  · rw [h.others j hj]
    exact ⟨rfl, fun hused => ⟨rfl, h.value hs hj hused⟩⟩

end HardenedMinix.Ds
