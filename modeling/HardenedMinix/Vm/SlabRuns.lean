import HardenedMinix.Vm.Slab

/-!
# Runs of the slab allocator

A new page is on its list before it has an object; what holds then comes first, and the invariant
adds that each page has one.
-/

open Function

namespace HardenedMinix.Slab

open Lib Finset Sdh

/-! ## Sizes and places -/

structure Class (bytes : Nat) : Prop where
  aligned : bytes % objalign = 0
  low : minsize ≤ bytes
  high : bytes < minsize + slabsizes

section Sizes

variable {bytes : Nat}

theorem class_roundupAlign (hpos : 0 < bytes) (hlt : roundupAlign bytes < minsize + slabsizes) :
    Class (roundupAlign bytes) := by
  refine ⟨Nat.mul_mod_left _ _, ?_, hlt⟩
  unfold roundupAlign objalign minsize
  omega

theorem roundupAlign_mod (bytes : Nat) : roundupAlign bytes % objalign = 0 := Nat.mul_mod_left _ _

theorem getslab_eq_some {sl : Nat} : getslab bytes = some sl ↔
    minsize ≤ bytes ∧ bytes < minsize + slabsizes ∧ bytes = minsize + sl := by
  unfold getslab
  split
  · rw [Option.some_inj]
    omega
  · refine iff_of_false (fun h => ?_) fun h => ?_
    · cases h
    · omega

theorem Class.getslab (h : Class bytes) : getslab bytes = some (bytes - minsize) :=
  getslab_eq_some.mpr ⟨h.low, h.high, (Nat.add_sub_cancel' h.low).symm⟩

theorem Class.pos (h : Class bytes) : 0 < bytes := lt_of_lt_of_le (by decide) h.low

theorem Class.two_le_items (h : Class bytes) : 2 ≤ itemsPerPage bytes := by
  have hhigh := h.high
  have hmul : 2 * bytes ≤ dataBytes := by
    unfold minsize slabsizes at hhigh
    unfold dataBytes vmPageSize sizeofSdh
    omega
  exact (Nat.le_div_iff_mul_le h.pos).mpr hmul

theorem Class.items_le (h : Class bytes) : itemsPerPage bytes ≤ useBits := by
  have hle : itemsPerPage bytes ≤ dataBytes / minsize := Nat.div_le_div_left h.low (by decide)
  exact hle.trans (by decide)

theorem place_le {i : Nat} (hi : i < itemsPerPage bytes) : i * bytes + bytes ≤ dataBytes := by
  have hle : (i + 1) * bytes ≤ itemsPerPage bytes * bytes := Nat.mul_le_mul_right _ hi
  have hdiv : itemsPerPage bytes * bytes ≤ dataBytes := Nat.div_mul_le_self _ _
  rw [Nat.add_mul, Nat.one_mul] at hle
  exact hle.trans hdiv

theorem place_lt {i : Nat} (hc : Class bytes) (hi : i < itemsPerPage bytes) : i * bytes < vmPageSize := by
  have hle := place_le hi
  have hpos := hc.pos
  unfold dataBytes sizeofSdh at hle
  omega

theorem div_place {p i : Nat} (hc : Class bytes) (hi : i < itemsPerPage bytes) :
    (p * vmPageSize + i * bytes) / vmPageSize = p := by
  have hlt := place_lt hc hi
  rw [Nat.mul_comm p, Nat.mul_add_div (by decide), Nat.div_eq_of_lt hlt, Nat.add_zero]

theorem mod_place {p i : Nat} (hc : Class bytes) (hi : i < itemsPerPage bytes) :
    (p * vmPageSize + i * bytes) % vmPageSize = i * bytes := by
  rw [Nat.mul_comm p, Nat.mul_add_mod, Nat.mod_eq_of_lt (place_lt hc hi)]

theorem place_eq {mem : Nat} (hmod : mem % vmPageSize % bytes = 0) :
    mem / vmPageSize * vmPageSize + mem % vmPageSize / bytes * bytes = mem := by
  rw [Nat.div_mul_cancel (Nat.dvd_of_mod_eq_zero hmod), Nat.mul_comm, Nat.div_add_mod]

end Sizes

/-! ## Bits -/

section Bits

variable {f f' : Sdh} {i items : Nat}

theorem Sdh.mem_bits : i ∈ f.bits ↔ i < useBits ∧ f.usebits i = true := by
  simp [Sdh.bits]

/-- The bits are those of the first places, and they are counted. -/
structure Sdh.Counts (f : Sdh) (items : Nat) : Prop where
  first : f.bits ⊆ range items
  nused : f.nused = f.bits.card

theorem Sdh.Counts.le (h : f.Counts items) : f.nused ≤ items := by
  rw [h.nused, ← card_range items]
  exact card_le_card h.first

theorem Sdh.bits_of_usebits (h : f'.usebits = f.usebits) : f'.bits = f.bits := by
  unfold Sdh.bits
  rw [h]

theorem Sdh.bits_set (hi : i < useBits) (h : f'.usebits = update f.usebits i true) :
    f'.bits = insert i f.bits := by
  ext j
  rw [mem_insert, mem_bits, mem_bits, h, update_apply]
  split
  · next heq => simp [heq, hi]
  · next hne => simp [hne]

theorem Sdh.bits_clear (h : f'.usebits = update f.usebits i false) : f'.bits = f.bits.erase i := by
  ext j
  rw [mem_erase, mem_bits, mem_bits, h, update_apply]
  split
  · next heq => simp [heq]
  · next hne => simp [hne]

theorem Sdh.findFree_spec (hitems : 0 < items) : ∀ count start, (∃ k < count, f.usebits ((start + k) % items) = false) →
    ∃ i < items, f.findFree items count start = some i ∧ f.usebits i = false := by
  intro count
  induction count with
  | zero =>
    rintro start ⟨k, hk, -⟩
    exact absurd hk (Nat.not_lt_zero k)
  | succ count ih =>
    rintro start ⟨k, hk, hfree⟩
    unfold findFree
    cases hbit : f.usebits (start % items) with
    | false => exact ⟨start % items, Nat.mod_lt _ hitems, if_neg (by simp), hbit⟩
    | true =>
      rw [if_pos rfl]
      refine ih _ ?_
      cases k with
      | zero =>
        rw [Nat.add_zero, hbit] at hfree
        cases hfree
      | succ k =>
        refine ⟨k, by omega, ?_⟩
        rw [← hfree, Nat.add_assoc, Nat.mod_add_mod, Nat.add_comm 1 k]

theorem Sdh.Counts.findFree (h : f.Counts items) (hlt : f.nused < items) (hbits : items ≤ useBits) (start : Nat) :
    ∃ i < items, f.findFree items items start = some i ∧ f.usebits i = false := by
  have hitems : 0 < items := by omega
  refine findFree_spec hitems items start ?_
  -- were all places in use, there would be as many bits as places
  by_contra hall
  push Not at hall
  have hsub : range items ⊆ f.bits := by
    intro j hj
    have hj' := mem_range.mp hj
    obtain ⟨k, hk, hkj⟩ : ∃ k < items, (start + k) % items = j := by
      refine ⟨(j + (items - start % items)) % items, Nat.mod_lt _ hitems, ?_⟩
      have hstart := Nat.mod_lt start hitems
      rw [Nat.add_mod_mod, ← Nat.mod_add_mod]
      have heq : start % items + (j + (items - start % items)) = j + items := by omega
      rw [heq, Nat.add_mod_right, Nat.mod_eq_of_lt hj']
    refine mem_bits.mpr ⟨by omega, ?_⟩
    have hne := hall k hk
    rw [hkj] at hne
    simpa using hne
  have hcard := card_le_card hsub
  rw [card_range, ← h.nused] at hcard
  omega

theorem Sdh.Counts.set (h : f.Counts items) (hi : i < items) (hbits : items ≤ useBits) (hfree : f.usebits i = false)
    (hf' : f'.usebits = update f.usebits i true) (hnused : f'.nused = f.nused + 1) : f'.Counts items := by
  have hbits' := bits_set (by omega) hf'
  have hnot : i ∉ f.bits := fun hmem => by
    rw [(mem_bits.mp hmem).2] at hfree
    cases hfree
  refine ⟨?_, ?_⟩
  · rw [hbits']
    exact insert_subset (mem_range.mpr hi) h.first
  · rw [hbits', card_insert_of_notMem hnot, hnused, h.nused]

theorem Sdh.Counts.clear (h : f.Counts items) (hmem : i ∈ f.bits)
    (hf' : f'.usebits = update f.usebits i false) (hnused : f'.nused = f.nused - 1) : f'.Counts items := by
  have hbits' := bits_clear hf'
  refine ⟨?_, ?_⟩
  · rw [hbits']
    exact (erase_subset _ _).trans h.first
  · rw [hbits', card_erase_of_mem hmem, hnused, h.nused]

end Bits

/-! ## The lists -/

namespace Slabs

section Frames

variable {s : Slabs} {p q sl : Nat} {f : Sdh} {L : Links Nat}

theorem links_setPage (hnext : f.next = (s.page p).next) (hprev : f.prev = (s.page p).prev) :
    (s.setPage p f).links = s.links := by
  have hpage (q : Nat) : ((s.setPage p f).page q).next = (s.page q).next ∧
      ((s.setPage p f).page q).prev = (s.page q).prev := by
    by_cases hq : q = p
    · subst hq
      unfold setPage
      dsimp only
      rw [update_self]
      exact ⟨hnext, hprev⟩
    · unfold setPage
      dsimp only
      rw [update_of_ne hq]
      exact ⟨rfl, rfl⟩
  unfold links
  congr 1
  · exact funext fun q => (hpage q).1
  · exact funext fun q => (hpage q).2

@[simp] theorem links_setLinks : (s.setLinks L).links = L := rfl

@[simp] theorem links_setHead {head : Option Nat} : (s.setHead sl head).links = s.links := rfl

@[simp] theorem links_setOwned {b : Bool} : (s.setOwned p b).links = s.links := rfl

theorem page_setPage_self : (s.setPage p f).page p = f := update_self ..

theorem page_setPage_of_ne (h : q ≠ p) : (s.setPage p f).page q = s.page q := update_of_ne h ..

end Frames

/-- The pages that the list of a size should have. -/
def OnList (s : Slabs) (kind : Nat → Nat) (bytes p : Nat) : Prop :=
  s.owned p = true ∧ kind p = bytes ∧ (s.page p).nused < itemsPerPage bytes

/-- The list of a size has the pages that it should have. -/
def Listed (s : Slabs) (kind : Nat → Nat) (bytes sl : Nat) : Prop :=
  ∃ l, s.links.IsList (s.listHead sl) l ∧ ∀ p, p ∈ l ↔ s.OnList kind bytes p

/-- `kind` gives each page that is held the size of its objects; the bits are counted, and the lists
are right. -/
structure Ok (s : Slabs) (kind : Nat → Nat) : Prop where
  size : ∀ p, s.owned p = true → Class (kind p)
  counts : ∀ p, s.owned p = true → (s.page p).Counts (itemsPerPage (kind p))
  lists : ∀ bytes sl, getslab bytes = some sl → s.Listed kind bytes sl

section Lists

variable {s s' : Slabs} {kind : Nat → Nat} {bytes bytes' sl sl' p : Nat}

theorem getslab_inj (h : getslab bytes = some sl) (h' : getslab bytes' = some sl') (hne : bytes' ≠ bytes) :
    sl' ≠ sl := by
  have h1 := (getslab_eq_some.mp h).2.2
  have h2 := (getslab_eq_some.mp h').2.2
  omega

theorem Listed.congr (h : s.Listed kind bytes sl) (hlinks : s'.links = s.links)
    (hhead : s'.listHead sl = s.listHead sl) (hmem : ∀ p, s'.OnList kind bytes p ↔ s.OnList kind bytes p) :
    s'.Listed kind bytes sl := by
  obtain ⟨l, hl, hpages⟩ := h
  refine ⟨l, ?_, fun p => (hpages p).trans (hmem p).symm⟩
  rw [hlinks, hhead]
  exact hl

theorem Listed.addHead (h : s.Listed kind bytes sl) (hlinks : s'.links = s.links.addHead (s.listHead sl) p)
    (hhead : s'.listHead sl = some p) (hnot : ¬ s.OnList kind bytes p)
    (hmem : ∀ q, s'.OnList kind bytes q ↔ q = p ∨ s.OnList kind bytes q) : s'.Listed kind bytes sl := by
  obtain ⟨l, hl, hpages⟩ := h
  refine ⟨p :: l, ?_, fun q => ?_⟩
  · rw [hlinks, hhead]
    exact hl.addHead fun hp => hnot ((hpages p).mp hp)
  · rw [List.mem_cons, hpages, hmem]

theorem Listed.addHead_other (h : s.Listed kind bytes sl) (h' : s.Listed kind bytes' sl') (hne : bytes' ≠ bytes)
    (hlinks : s'.links = s.links.addHead (s.listHead sl) p) (hhead : s'.listHead sl' = s.listHead sl')
    (hnot : ¬ s.OnList kind bytes' p) (hmem : ∀ q, s'.OnList kind bytes' q ↔ s.OnList kind bytes' q) :
    s'.Listed kind bytes' sl' := by
  obtain ⟨l, hl, hpages⟩ := h
  obtain ⟨l', hl', hpages'⟩ := h'
  refine ⟨l', ?_, fun q => (hpages' q).trans (hmem q).symm⟩
  rw [hlinks, hhead]
  refine hl.addHead_of_disjoint hl' (fun hp => hnot ((hpages' p).mp hp)) fun q hq hq' => hne ?_
  rw [← ((hpages' q).mp hq').2.1, ((hpages q).mp hq).2.1]

theorem Listed.unlink (h : s.Listed kind bytes sl) (hp : s.OnList kind bytes p)
    (hlinks : s'.links = s.links.unlink p)
    (hhead : s'.listHead sl = if s.listHead sl = some p then s'.links.next p else s.listHead sl)
    (hmem : ∀ q, s'.OnList kind bytes q ↔ q ≠ p ∧ s.OnList kind bytes q) : s'.Listed kind bytes sl := by
  obtain ⟨l, hl, hpages⟩ := h
  refine ⟨l.erase p, ?_, fun q => ?_⟩
  · rw [hhead, hlinks]
    exact hl.unlink ((hpages p).mpr hp)
  · rw [hl.nodup.mem_erase_iff, hpages, hmem]

theorem Listed.unlink_other (h : s.Listed kind bytes sl) (h' : s.Listed kind bytes' sl') (hne : bytes' ≠ bytes)
    (hp : s.OnList kind bytes p) (hlinks : s'.links = s.links.unlink p)
    (hhead : s'.listHead sl' = s.listHead sl') (hmem : ∀ q, s'.OnList kind bytes' q ↔ s.OnList kind bytes' q) :
    s'.Listed kind bytes' sl' := by
  obtain ⟨l, hl, hpages⟩ := h
  obtain ⟨l', hl', hpages'⟩ := h'
  refine ⟨l', ?_, fun q => (hpages' q).trans (hmem q).symm⟩
  rw [hlinks, hhead]
  refine hl.unlink_of_disjoint hl' ((hpages p).mpr hp) fun q hq hq' => hne ?_
  rw [← ((hpages' q).mp hq').2.1, ((hpages q).mp hq).2.1]

theorem Ok.listed_of_unlink (h : s.Ok kind) (hsl : getslab bytes = some sl) (hp : s.OnList kind bytes p)
    (hlinks : s'.links = s.links.unlink p)
    (hhead : s'.listHead sl = if s.listHead sl = some p then s'.links.next p else s.listHead sl)
    (hheads : ∀ sl', sl' ≠ sl → s'.listHead sl' = s.listHead sl') (hnot : ¬ s'.OnList kind bytes p)
    (hmem : ∀ b q, q ≠ p → (s'.OnList kind b q ↔ s.OnList kind b q)) (hsl' : getslab bytes' = some sl') :
    s'.Listed kind bytes' sl' := by
  by_cases hb : bytes' = bytes
  · subst hb
    cases hsl.symm.trans hsl'
    refine (h.lists bytes' sl hsl).unlink hp hlinks hhead fun q => ?_
    by_cases hq : q = p
    · subst hq
      exact iff_of_false hnot fun hon => hon.1 rfl
    · exact (hmem _ q hq).trans (and_iff_right hq).symm
  refine (h.lists bytes sl hsl).unlink_other (h.lists bytes' sl' hsl') hb hp hlinks
    (hheads sl' (getslab_inj hsl hsl' hb)) fun q => ?_
  by_cases hq : q = p
  · subst hq
    exact iff_of_false (fun hon => hb (hon.2.1.symm.trans hp.2.1)) fun hon => hb (hon.2.1.symm.trans hp.2.1)
  · exact hmem _ q hq

theorem Ok.listed_of_addHead (h : s.Ok kind) (hsl : getslab bytes = some sl) (hp : s'.OnList kind bytes p)
    (hlinks : s'.links = s.links.addHead (s.listHead sl) p) (hhead : s'.listHead sl = some p)
    (hheads : ∀ sl', sl' ≠ sl → s'.listHead sl' = s.listHead sl') (hnot : ¬ s.OnList kind bytes p)
    (hmem : ∀ b q, q ≠ p → (s'.OnList kind b q ↔ s.OnList kind b q)) (hsl' : getslab bytes' = some sl') :
    s'.Listed kind bytes' sl' := by
  by_cases hb : bytes' = bytes
  · subst hb
    cases hsl.symm.trans hsl'
    refine (h.lists bytes' sl hsl).addHead hlinks hhead hnot fun q => ?_
    by_cases hq : q = p
    · subst hq
      exact iff_of_true hp (.inl rfl)
    · exact (hmem _ q hq).trans (or_iff_right hq).symm
  have hother : ¬ s.OnList kind bytes' p := fun hon => hb (hon.2.1.symm.trans hp.2.1)
  refine (h.lists bytes sl hsl).addHead_other (h.lists bytes' sl' hsl') hb hlinks
    (hheads sl' (getslab_inj hsl hsl' hb)) hother fun q => ?_
  by_cases hq : q = p
  · subst hq
    exact iff_of_false (fun hon => hb (hon.2.1.symm.trans hp.2.1)) hother
  · exact hmem _ q hq

theorem Ok.onList_head (h : s.Ok kind) (hsl : getslab bytes = some sl) (hhead : s.listHead sl = some p) :
    s.OnList kind bytes p := by
  obtain ⟨l, hl, hpages⟩ := h.lists bytes sl hsl
  refine (hpages p).mp (List.mem_of_mem_head? ?_)
  rw [← hl.head_eq, hhead]
  rfl

end Lists

/-! ## Taking a place -/

section Taking

variable {s : Slabs} {kind : Nat → Nat} {bytes sl p i : Nat}

/-- The state in which a place of the page at the head of the list has been taken. -/
structure Taken (s : Slabs) (p i : Nat) (s' : Slabs) : Prop where
  owned : s'.owned = s.owned
  usebits : ∀ q, (s'.page q).usebits = if q = p then update (s.page p).usebits i true else (s.page q).usebits
  nused : ∀ q, (s'.page q).nused = if q = p then (s.page p).nused + 1 else (s.page q).nused

theorem Taken.counts {s' : Slabs} (h : Taken s p i s') (hs : s.Ok kind) (hi : i < itemsPerPage (kind p))
    (hp : s.owned p = true) (hfree : (s.page p).usebits i = false) (q : Nat) (hq : s'.owned q = true) :
    (s'.page q).Counts (itemsPerPage (kind q)) := by
  rw [h.owned] at hq
  by_cases heq : q = p
  · subst heq
    refine (hs.counts q hq).set hi (hs.size q hq).items_le hfree ?_ ?_
    · rw [h.usebits, if_pos rfl]
    · rw [h.nused, if_pos rfl]
  have hcounts := hs.counts q hq
  have hbits : (s'.page q).bits = (s.page q).bits := bits_of_usebits (by rw [h.usebits, if_neg heq])
  refine ⟨?_, ?_⟩
  · rw [hbits]
    exact hcounts.first
  · rw [h.nused, if_neg heq, hbits, hcounts.nused]

theorem taken_setPage (s : Slabs) (p i : Nat) (f : Sdh)
    (hbits : f.usebits = update (s.page p).usebits i true) (hnused : f.nused = (s.page p).nused + 1) :
    Taken s p i (s.setPage p f) := by
  have hpage (q : Nat) : (s.setPage p f).page q = if q = p then f else s.page q := update_apply ..
  refine ⟨rfl, fun q => ?_, fun q => ?_⟩
  · rw [hpage]
    split
    · exact hbits
    · rfl
  · rw [hpage]
    split
    · exact hnused
    · rfl

theorem taken_unlinknode (s : Slabs) (p i : Nat) (f : Sdh) {head : Option Nat}
    (hbits : f.usebits = update (s.page p).usebits i true) (hnused : f.nused = (s.page p).nused + 1) :
    Taken s p i (((s.setPage p f).unlinknode p).setHead sl head) :=
  have h := taken_setPage s p i f hbits hnused
  ⟨h.owned, h.usebits, h.nused⟩

theorem Ok.listed_setPage (h : s.Ok kind) (hp : s.OnList kind bytes p) {f : Sdh}
    (hroom : f.nused < itemsPerPage bytes) (hnext : f.next = (s.page p).next) (hprev : f.prev = (s.page p).prev)
    {bytes' sl' : Nat} (hsl' : getslab bytes' = some sl') : (s.setPage p f).Listed kind bytes' sl' := by
  refine (h.lists bytes' sl' hsl').congr (links_setPage hnext hprev) rfl fun q => ?_
  by_cases hq : q = p
  · subst hq
    unfold OnList
    rw [page_setPage_self]
    obtain ⟨howned, hkind, hbefore⟩ := hp
    refine and_congr_right fun _ => and_congr_right fun heq => iff_of_true ?_ ?_
    · rw [← heq, hkind]
      exact hroom
    · rw [← heq, hkind]
      exact hbefore
  · unfold OnList
    rw [page_setPage_of_ne hq]
    rfl

theorem Ok.listed_unlinknode (h : s.Ok kind) (hp : s.OnList kind bytes p) (hsl : getslab bytes = some sl)
    (hhead : s.listHead sl = some p) {f : Sdh} (hfull : f.nused = itemsPerPage bytes)
    (hnext : f.next = (s.page p).next) (hprev : f.prev = (s.page p).prev)
    {bytes' sl' : Nat} (hsl' : getslab bytes' = some sl') :
    (((s.setPage p f).unlinknode p).setHead sl (((s.setPage p f).unlinknode p).page p).next).Listed kind
      bytes' sl' := by
  set s1 := ((s.setPage p f).unlinknode p).setHead sl (((s.setPage p f).unlinknode p).page p).next with hs1
  have hlinks : s1.links = s.links.unlink p := by
    change (s.setPage p f).links.unlink p = _
    rw [links_setPage hnext hprev]
  have hnused (q : Nat) : (s1.page q).nused = if q = p then f.nused else (s.page q).nused := by
    change ((s.setPage p f).page q).nused = _
    by_cases hq : q = p
    · subst hq
      rw [page_setPage_self, if_pos rfl]
    · rw [page_setPage_of_ne hq, if_neg hq]
  have hne (q : Nat) (b : Nat) (hq : q ≠ p) : s1.OnList kind b q ↔ s.OnList kind b q := by
    unfold OnList
    rw [hnused, if_neg hq]
    rfl
  refine h.listed_of_unlink hsl hp hlinks ?_ (fun sl' hne' => ?_) (fun hon => ?_) (fun b q hq => hne q b hq) hsl'
  · rw [if_pos hhead]
    exact update_self ..
  · exact update_of_ne hne' ..
  · have hlt := hon.2.2
    rw [hnused, if_pos rfl, hfull] at hlt
    exact lt_irrefl _ hlt

theorem Ok.take (h : s.Ok kind) (hc : Class bytes) (hsl : getslab bytes = some sl)
    (hhead : s.listHead sl = some p) :
    ∃ s' i, s.take p sl bytes = some (s', some (p * vmPageSize + i * bytes)) ∧ i < itemsPerPage bytes ∧
      (s.page p).usebits i = false ∧ Taken s p i s' ∧ s'.Ok kind := by
  obtain ⟨howned, hkind, hroom⟩ := h.onList_head hsl hhead
  have hcounts := h.counts p howned
  rw [hkind] at hcounts
  obtain ⟨i, hi, hfind, hfree⟩ := hcounts.findFree hroom hc.items_le (s.page p).freeguess
  set f : Sdh := { s.page p with
    usebits := update (s.page p).usebits i true, nused := (s.page p).nused + 1 } with hf
  have hset : (s.page p).setbit i = some f := if_neg (by simp [hfree])
  have halign : (p * vmPageSize + i * bytes) % objalign = 0 := by
    have haligned := hc.aligned
    have hdvd : objalign ∣ p * vmPageSize + i * bytes :=
      (Dvd.dvd.mul_left (by decide) p).add (Dvd.dvd.mul_left (Nat.dvd_of_mod_eq_zero haligned) i)
    exact Nat.mod_eq_zero_of_dvd hdvd
  -- the state before the guess is written
  obtain ⟨s1, hs1, htaken, hlists⟩ : ∃ s1 : Slabs, (if f.nused = itemsPerPage bytes then
        ((s.setPage p f).unlinknode p).setHead sl (((s.setPage p f).unlinknode p).page p).next
      else s.setPage p f) = s1 ∧ Taken s p i s1 ∧
      ∀ bytes' sl', getslab bytes' = some sl' → s1.Listed kind bytes' sl' := by
    by_cases hfull : f.nused = itemsPerPage bytes
    · exact ⟨_, if_pos hfull, taken_unlinknode s p i f rfl rfl, fun bytes' sl' hsl' =>
        h.listed_unlinknode (h.onList_head hsl hhead) hsl hhead hfull rfl rfl hsl'⟩
    · exact ⟨_, if_neg hfull, taken_setPage s p i f rfl rfl, fun bytes' sl' hsl' =>
        h.listed_setPage (h.onList_head hsl hhead) (lt_of_le_of_ne (Nat.succ_le_of_lt hroom) hfull) rfl rfl hsl'⟩
  have hguess : (s1.setPage p { s1.page p with freeguess := i + 1 }).links = s1.links := links_setPage rfl rfl
  have hpage (q : Nat) : (s1.setPage p { s1.page p with freeguess := i + 1 }).page q =
      if q = p then { s1.page p with freeguess := i + 1 } else s1.page q := update_apply ..
  have htaken' : Taken s p i (s1.setPage p { s1.page p with freeguess := i + 1 }) := by
    refine ⟨htaken.owned, fun q => ?_, fun q => ?_⟩
    · rw [← htaken.usebits, hpage]
      split <;> simp [*]
    · rw [← htaken.nused, hpage]
      split <;> simp [*]
  refine ⟨_, i, ?_, hi, hfree, htaken', ?_, ?_, fun bytes' sl' hsl' => ?_⟩
  · unfold Slabs.take
    dsimp only
    rw [if_neg (Nat.not_le.mpr hroom), hfind]
    dsimp only
    rw [hset]
    dsimp only
    rw [page_setPage_self, hs1, if_pos halign]
  · intro q hq
    exact h.size q (htaken'.owned ▸ hq)
  · exact htaken'.counts h (hkind ▸ hi) howned hfree
  · refine (hlists bytes' sl' hsl').congr hguess rfl fun q => ?_
    unfold OnList
    rw [htaken'.owned, htaken.owned, htaken'.nused, htaken.nused]

end Taking

/-! ## A new page -/

section NewPage

variable {s : Slabs} {kind : Nat → Nat} {bytes sl p : Nat}

theorem Ok.setKind (h : s.Ok kind) (hp : s.owned p = false) (bytes : Nat) : s.Ok (update kind p bytes) := by
  have hkind (q : Nat) (hq : s.owned q = true) : update kind p bytes q = kind q := by
    refine update_of_ne ?_ ..
    rintro rfl
    rw [hp] at hq
    cases hq
  refine ⟨fun q hq => ?_, fun q hq => ?_, fun b sl' hsl' => ?_⟩
  · rw [hkind q hq]
    exact h.size q hq
  · rw [hkind q hq]
    exact h.counts q hq
  · obtain ⟨l, hl, hpages⟩ := h.lists b sl' hsl'
    refine ⟨l, hl, fun q => (hpages q).trans (and_congr_right fun hq => ?_)⟩
    rw [hkind q hq]

/-- The state in which there is a new page, without objects. -/
structure Added (s : Slabs) (p : Nat) (s' : Slabs) : Prop where
  owned : s'.owned = update s.owned p true
  bits : ∀ q, (s'.page q).bits = if q = p then ∅ else (s.page q).bits
  nused : ∀ q, (s'.page q).nused = if q = p then 0 else (s.page q).nused

theorem added_addhead (s : Slabs) (p sl : Nat) : Added s p ((s.newslabdata p).addhead p sl) := by
  have hpage (q : Nat) (hq : q ≠ p) : (s.newslabdata p).page q = s.page q := page_setPage_of_ne hq
  refine ⟨rfl, fun q => ?_, fun q => ?_⟩
  · by_cases hq : q = p
    · subst hq
      rw [if_pos rfl]
      ext i
      rw [mem_bits]
      change _ ∧ ((s.newslabdata q).page q).usebits i = true ↔ _
      unfold newslabdata setOwned
      rw [page_setPage_self]
      simp
    · rw [if_neg hq]
      refine bits_of_usebits ?_
      change ((s.newslabdata p).page q).usebits = _
      rw [hpage q hq]
  change ((s.newslabdata p).page q).nused = _
  by_cases hq : q = p
  · subst hq
    unfold newslabdata setOwned
    rw [page_setPage_self, if_pos rfl]
  · rw [hpage q hq, if_neg hq]

theorem Ok.newslabdata (h : s.Ok kind) (hc : Class bytes) (hsl : getslab bytes = some sl)
    (hp : s.owned p = false) :
    ((s.newslabdata p).addhead p sl).Ok (update kind p bytes) := by
  have hadded := added_addhead s p sl
  have hkind := h.setKind hp bytes
  have hself : update kind p bytes p = bytes := update_self ..
  set s' := (s.newslabdata p).addhead p sl with hs'
  have howned (q : Nat) (hq : q ≠ p) : s'.owned q = s.owned q := by
    rw [hadded.owned, update_of_ne hq]
  have hmem (b q : Nat) (hq : q ≠ p) : s'.OnList (update kind p bytes) b q ↔
      s.OnList (update kind p bytes) b q := by
    unfold OnList
    rw [howned q hq, hadded.nused, if_neg hq]
  refine ⟨fun q hq => ?_, fun q hq => ?_, fun b sl' hsl' => ?_⟩
  · by_cases heq : q = p
    · subst heq
      rw [hself]
      exact hc
    · exact hkind.size q (howned q heq ▸ hq)
  · by_cases heq : q = p
    · subst heq
      refine ⟨?_, ?_⟩
      · rw [hadded.bits, if_pos rfl]
        exact empty_subset _
      · rw [hadded.bits, hadded.nused, if_pos rfl, if_pos rfl]
        rfl
    have hcounts := hkind.counts q (howned q heq ▸ hq)
    refine ⟨?_, ?_⟩
    · rw [hadded.bits, if_neg heq]
      exact hcounts.first
    · rw [hadded.bits, hadded.nused, if_neg heq, if_neg heq, hcounts.nused]
  refine hkind.listed_of_addHead hsl ⟨?_, hself, ?_⟩ ?_ (update_self ..)
    (fun sl' hne => update_of_ne hne ..) (fun hon => ?_) hmem hsl'
  · rw [hadded.owned, update_self]
  · rw [hadded.nused, if_pos rfl]
    have hitems := hc.two_le_items
    omega
  · change (s.newslabdata p).links.addHead _ _ = _
    have hlinks : (s.newslabdata p).links = s.links := links_setPage rfl rfl
    rw [hlinks]
    rfl
  · have howner := hon.1
    rw [hp] at howner
    cases howner

end NewPage

/-! ## Freeing a place -/

section Freeing

variable {s : Slabs} {kind : Nat → Nat} {bytes p i : Nat}

/-- The state in which a place of a page has been freed; the page goes back with its last object. -/
structure Freed (s : Slabs) (p i : Nat) (s' : Slabs) : Prop where
  owned : s'.owned = if (s.page p).nused = 1 then update s.owned p false else s.owned
  usebits : ∀ q, (s'.page q).usebits = if q = p then update (s.page p).usebits i false else (s.page q).usebits
  nused : ∀ q, (s'.page q).nused = if q = p then (s.page p).nused - 1 else (s.page q).nused

variable {s' : Slabs}

theorem Freed.owned_of (h : Freed s p i s') {q : Nat} (hq : s'.owned q = true) :
    s.owned q = true ∧ ((s.page p).nused = 1 → q ≠ p) := by
  rw [h.owned] at hq
  split at hq
  · by_cases heq : q = p
    · subst heq
      rw [update_self] at hq
      cases hq
    · rw [update_of_ne heq] at hq
      exact ⟨hq, fun _ => heq⟩
  · next hne => exact ⟨hq, fun hone => absurd hone hne⟩

theorem Freed.counts (h : Freed s p i s') (hs : s.Ok kind) (hi : i ∈ (s.page p).bits) (q : Nat)
    (hq : s'.owned q = true) : (s'.page q).Counts (itemsPerPage (kind q)) := by
  have hcounts := hs.counts q (h.owned_of hq).1
  by_cases heq : q = p
  · subst heq
    refine hcounts.clear hi ?_ ?_
    · rw [h.usebits, if_pos rfl]
    · rw [h.nused, if_pos rfl]
  have hbits : (s'.page q).bits = (s.page q).bits := bits_of_usebits (by rw [h.usebits, if_neg heq])
  refine ⟨?_, ?_⟩
  · rw [hbits]
    exact hcounts.first
  · rw [h.nused, if_neg heq, hbits, hcounts.nused]

theorem Freed.onList_of_ne (h : Freed s p i s') (b : Nat) {q : Nat} (hq : q ≠ p) :
    s'.OnList kind b q ↔ s.OnList kind b q := by
  have howned : s'.owned q = s.owned q := by
    rw [h.owned]
    split
    · exact update_of_ne hq ..
    · rfl
  unfold OnList
  rw [howned, h.nused, if_neg hq]

theorem freed_setPage (s : Slabs) (p i : Nat) (f : Sdh) (hone : (s.page p).nused ≠ 1)
    (hbits : f.usebits = update (s.page p).usebits i false) (hnused : f.nused = (s.page p).nused - 1) :
    Freed s p i (s.setPage p f) := by
  have hpage (q : Nat) : (s.setPage p f).page q = if q = p then f else s.page q := update_apply ..
  refine ⟨(if_neg hone).symm, fun q => ?_, fun q => ?_⟩
  · rw [hpage]
    split
    · exact hbits
    · rfl
  · rw [hpage]
    split
    · exact hnused
    · rfl

theorem Ok.listed_last (h : s.Ok kind) {sl : Nat} (hsl : getslab bytes = some sl) (hp : s.OnList kind bytes p) (hfreed : Freed s p i s') (hone : (s.page p).nused = 1) (hlinks : s'.links = s.links.unlink p)
    (hhead : s'.listHead = if s.listHead sl = some p then update s.listHead sl (s'.links.next p)
      else s.listHead) {bytes' sl' : Nat} (hsl' : getslab bytes' = some sl') : s'.Listed kind bytes' sl' := by
  refine h.listed_of_unlink hsl hp hlinks ?_ (fun sl' hne => ?_) (fun hon => ?_)
    (fun b q hq => hfreed.onList_of_ne b hq) hsl'
  · rw [hhead]
    split
    · exact update_self ..
    · rfl
  · rw [hhead]
    split
    · exact update_of_ne hne ..
    · rfl
  · exact (hfreed.owned_of hon.1).2 hone rfl

theorem Ok.slabfree (h : s.Ok kind) (hp : s.owned p = true) (hkind : kind p = roundupAlign bytes)
    (hi : i ∈ (s.page p).bits) {mem : Nat} (hmem : mem / vmPageSize = p)
    (hplace : mem % vmPageSize / roundupAlign bytes = i) :
    ∃ s', s.slabfree mem bytes = some s' ∧ Freed s p i s' ∧ s'.Ok kind := by
  have hc : Class (roundupAlign bytes) := hkind ▸ h.size p hp
  have hcounts := h.counts p hp
  rw [hkind] at hcounts
  have hle := hcounts.le
  have hitems := hc.two_le_items
  have hpos : 0 < (s.page p).nused := by
    rw [hcounts.nused]
    exact card_pos.mpr ⟨i, hi⟩
  set sl := roundupAlign bytes - minsize
  have hsl : getslab (roundupAlign bytes) = some sl := hc.getslab
  set f : Sdh := { s.page p with
    usebits := update (s.page p).usebits i false, nused := (s.page p).nused - 1, freeguess := i } with hf
  have hclear : (s.page p).clearbit i = some f := if_pos (mem_bits.mp hi).2
  have hlinks : (s.setPage p f).links = s.links := links_setPage rfl rfl
  have hok {s' : Slabs} (hfreed : Freed s p i s')
      (hlists : ∀ bytes' sl', getslab bytes' = some sl' → s'.Listed kind bytes' sl') : s'.Ok kind :=
    ⟨fun q hq => h.size q (hfreed.owned_of hq).1, fun q hq => hfreed.counts h hi q hq, hlists⟩
  have hcode : s.slabfree mem bytes = if f.nused = 0 then
        let s1 := (s.setPage p f).unlinknode p
        let s1 := if s1.listHead sl = some p then s1.setHead sl (s1.page p).next else s1
        some (s1.setOwned p false)
      else if f.nused = itemsPerPage (roundupAlign bytes) - 1 then some ((s.setPage p f).addhead p sl)
      else some (s.setPage p f) := by
    unfold Slabs.slabfree
    dsimp only
    rw [if_pos (roundupAlign_mod bytes), hsl]
    dsimp only
    rw [hmem, hplace, hclear]
    dsimp only
    rw [page_setPage_self]
  rw [hcode]
  by_cases hone : (s.page p).nused = 1
  · have hroom : s.OnList kind (roundupAlign bytes) p := ⟨hp, hkind, by omega⟩
    have hfreed (s1 : Slabs) (hpage : ∀ q, (s1.page q).usebits = ((s.setPage p f).page q).usebits ∧
        (s1.page q).nused = ((s.setPage p f).page q).nused) (howned : s1.owned = s.owned) :
        Freed s p i (s1.setOwned p false) := by
      have hsame (q : Nat) : (s.setPage p f).page q = if q = p then f else s.page q := update_apply ..
      refine ⟨?_, fun q => ?_, fun q => ?_⟩
      · rw [if_pos hone, ← howned]
        rfl
      · refine (hpage q).1.trans ?_
        rw [hsame]
        split <;> rfl
      · refine (hpage q).2.trans ?_
        rw [hsame]
        split <;> rfl
    rw [if_pos (by change (s.page p).nused - 1 = 0; omega)]
    by_cases hhead : s.listHead sl = some p
    · have hif : ((s.setPage p f).unlinknode p).listHead sl = some p := hhead
      dsimp only
      rw [if_pos hif]
      have hfreed' := hfreed (((s.setPage p f).unlinknode p).setHead sl (((s.setPage p f).unlinknode p).page p).next)
        (fun q => ⟨rfl, rfl⟩) rfl
      refine ⟨_, rfl, hfreed', hok hfreed' fun bytes' sl' hsl' => h.listed_last hsl hroom hfreed' hone ?_ ?_ hsl'⟩
      · change (s.setPage p f).links.unlink p = _
        rw [hlinks]
      · rw [if_pos hhead]
        rfl
    have hif : ¬ ((s.setPage p f).unlinknode p).listHead sl = some p := hhead
    dsimp only
    rw [if_neg hif]
    have hfreed' := hfreed ((s.setPage p f).unlinknode p) (fun q => ⟨rfl, rfl⟩) rfl
    refine ⟨_, rfl, hfreed', hok hfreed' fun bytes' sl' hsl' => h.listed_last hsl hroom hfreed' hone ?_ ?_ hsl'⟩
    · change (s.setPage p f).links.unlink p = _
      rw [hlinks]
    · rw [if_neg hhead]
      rfl
  · have hfreed := freed_setPage s p i f hone rfl rfl
    rw [if_neg (by change ¬ (s.page p).nused - 1 = 0; omega)]
    by_cases hfull : (s.page p).nused = itemsPerPage (roundupAlign bytes)
    · rw [if_pos (by change (s.page p).nused - 1 = _; rw [hfull])]
      have hfreed' : Freed s p i ((s.setPage p f).addhead p sl) := ⟨hfreed.owned, hfreed.usebits, hfreed.nused⟩
      refine ⟨_, rfl, hfreed', hok hfreed' fun bytes' sl' hsl' => ?_⟩
      refine h.listed_of_addHead hsl ⟨?_, hkind, ?_⟩ ?_ (update_self ..)
        (fun sl' hne => update_of_ne hne ..) (fun hon => ?_) (fun b q hq => hfreed'.onList_of_ne b hq) hsl'
      · rw [hfreed'.owned, if_neg hone]
        exact hp
      · rw [hfreed'.nused, if_pos rfl]
        omega
      · change (s.setPage p f).links.addHead _ _ = _
        rw [hlinks]
        rfl
      · have hlt := hon.2.2
        rw [hfull] at hlt
        exact lt_irrefl _ hlt
    · rw [if_neg (by change ¬ (s.page p).nused - 1 = _; omega)]
      exact ⟨_, rfl, hfreed, hok hfreed fun bytes' sl' hsl' =>
        h.listed_setPage (f := f) ⟨hp, hkind, by omega⟩ (by change (s.page p).nused - 1 < _; omega) rfl rfl hsl'⟩

end Freeing

end Slabs

/-! ## The objects -/

namespace Heap

variable {h h' h₀ : Heap} {kind : Nat → Nat} {mem bytes p : Nat}

/-- The address of a place of a page that is in use. -/
structure InUse (s : Slabs) (kind : Nat → Nat) (mem bytes : Nat) : Prop where
  owned : s.owned (mem / vmPageSize) = true
  kind : kind (mem / vmPageSize) = bytes
  place : mem % vmPageSize % bytes = 0
  bit : mem % vmPageSize / bytes ∈ (s.page (mem / vmPageSize)).bits

/-- The objects are the places in use. -/
structure Inv (h : Heap) (kind : Nat → Nat) : Prop where
  ok : h.slabs.Ok kind
  live : ∀ mem bytes, h.live mem = some bytes ↔ InUse h.slabs kind mem bytes

/-- Each page that is held has an object. -/
def Used (h : Heap) : Prop := ∀ p, h.slabs.owned p = true → 0 < (h.slabs.page p).nused

theorem InUse.eq {s : Slabs} {mem' : Nat} (hin : InUse s kind mem bytes) (hin' : InUse s kind mem' bytes)
    (hpage : mem' / vmPageSize = mem / vmPageSize)
    (hplace : mem' % vmPageSize / bytes = mem % vmPageSize / bytes) : mem' = mem := by
  rw [← place_eq hin.place, ← place_eq hin'.place, hpage, hplace]

theorem bits_of_freed {s s' : Slabs} {i : Nat} (h : Slabs.Freed s p i s') (q : Nat) :
    (s'.page q).bits = if q = p then (s.page p).bits.erase i else (s.page q).bits := by
  split
  · next hq =>
    subst hq
    refine bits_clear ?_
    rw [h.usebits, if_pos rfl]
  · next hq =>
    refine bits_of_usebits ?_
    rw [h.usebits, if_neg hq]

theorem bits_of_taken {s s' : Slabs} {i : Nat} (h : Slabs.Taken s p i s') (hi : i < useBits) (q : Nat) :
    (s'.page q).bits = if q = p then insert i (s.page p).bits else (s.page q).bits := by
  split
  · next hq =>
    subst hq
    refine bits_set hi ?_
    rw [h.usebits, if_pos rfl]
  · next hq =>
    refine bits_of_usebits ?_
    rw [h.usebits, if_neg hq]

theorem inUse_of_freed {s s' : Slabs} (hok : s.Ok kind) (hin : InUse s kind mem bytes)
    (hfreed : Slabs.Freed s (mem / vmPageSize) (mem % vmPageSize / bytes) s') (m b : Nat) :
    InUse s' kind m b ↔ m ≠ mem ∧ InUse s kind m b := by
  have hbits := bits_of_freed hfreed
  constructor
  · rintro ⟨howned, hkind, hplace, hbit⟩
    rw [hbits] at hbit
    split at hbit
    · next hpage =>
      have hb : b = bytes := by rw [← hkind, hpage, hin.kind]
      obtain ⟨hne, hbit⟩ := mem_erase.mp hbit
      refine ⟨?_, (hfreed.owned_of howned).1, hkind, hplace, by rwa [hpage]⟩
      rintro rfl
      exact hne (by rw [hb])
    · next hpage =>
      refine ⟨?_, (hfreed.owned_of howned).1, hkind, hplace, hbit⟩
      rintro rfl
      exact hpage rfl
  rintro ⟨hne, hm⟩
  by_cases hpage : m / vmPageSize = mem / vmPageSize
  · obtain rfl : b = bytes := by rw [← hm.kind, hpage, hin.kind]
    have hplace : m % vmPageSize / b ≠ mem % vmPageSize / b := fun heq => hne (hin.eq hm hpage heq)
    have hbit := hm.bit
    rw [hpage] at hbit
    refine ⟨?_, hm.kind, hm.place, ?_⟩
    · -- the page has another object, and is kept
      rw [hfreed.owned, if_neg]
      · exact hm.owned
      intro hone
      rw [(hok.counts _ hin.owned).nused, card_eq_one] at hone
      obtain ⟨j, hj⟩ := hone
      have h1 := hin.bit
      rw [hj, mem_singleton] at hbit h1
      exact hplace (hbit.trans h1.symm)
    · rw [hbits, if_pos hpage]
      exact mem_erase.mpr ⟨hplace, hbit⟩
  refine ⟨?_, hm.kind, hm.place, ?_⟩
  · rw [hfreed.owned]
    split
    · rw [update_of_ne hpage]
      exact hm.owned
    · exact hm.owned
  · rw [hbits, if_neg hpage]
    exact hm.bit

theorem Inv.free (hinv : Inv h kind) (hlive : h.live mem = some (roundupAlign bytes)) :
    ∃ h', h.free mem bytes = some h' ∧ h'.Inv kind ∧ (h.Used → h'.Used) := by
  have hin := (hinv.live mem _).mp hlive
  obtain ⟨s', hcode, hfreed, hok⟩ := hinv.ok.slabfree hin.owned hin.kind hin.bit rfl rfl
  refine ⟨⟨s', update h.live mem none⟩, ?_, ⟨hok, fun m b => ?_⟩, fun hused q hq => ?_⟩
  · unfold Heap.free
    rw [hcode]
    rfl
  · dsimp only
    rw [inUse_of_freed hinv.ok hin hfreed, ← hinv.live, update_apply]
    split
    · next heq => simp [heq]
    · next hne => simp [hne]
  have howned := hfreed.owned_of hq
  have hpos := hused q howned.1
  change 0 < (s'.page q).nused
  rw [hfreed.nused]
  split
  · next heq =>
    have hone : (h.slabs.page (mem / vmPageSize)).nused ≠ 1 := fun hone => howned.2 hone heq
    rw [heq] at hpos
    omega
  · exact hpos

theorem Inv.frees (hinv : Inv h kind) (hused : h.Used) {meanwhile : List (Nat × Nat)}
    (hallowed : h.AllowsFrees meanwhile) : ∃ h', h.frees meanwhile = some h' ∧ h'.Inv kind ∧ h'.Used := by
  induction meanwhile generalizing h with
  | nil => exact ⟨h, rfl, hinv, hused⟩
  | cons obj rest ih =>
    obtain ⟨mem, bytes⟩ := obj
    obtain ⟨hlive, hrest⟩ := hallowed
    obtain ⟨h1, hcode, hinv1, hused1⟩ := hinv.free hlive
    obtain ⟨h', hfrees, hinv', hused'⟩ := ih hinv1 (hused1 hused) (hrest h1 hcode)
    refine ⟨h', ?_, hinv', hused'⟩
    unfold Heap.frees
    rw [hcode]
    exact hfrees

theorem Inv.take {sl : Nat} (hinv : Inv h kind) (hc : Class bytes) (hsl : getslab bytes = some sl)
    (hhead : h.slabs.listHead sl = some p)
    (hused : ∀ q, h.slabs.owned q = true → q ≠ p → 0 < (h.slabs.page q).nused) :
    ∃ s' mem, h.slabs.take p sl bytes = some (s', some mem) ∧
      Inv ⟨s', update h.live mem (some bytes)⟩ kind ∧
      Used ⟨s', update h.live mem (some bytes)⟩ := by
  obtain ⟨howned, hkind, hroom⟩ := hinv.ok.onList_head hsl hhead
  obtain ⟨s', i, hcode, hi, hfree, htaken, hok⟩ := hinv.ok.take hc hsl hhead
  have hpage : (p * vmPageSize + i * bytes) / vmPageSize = p := div_place hc hi
  have hmod : (p * vmPageSize + i * bytes) % vmPageSize = i * bytes := mod_place hc hi
  have hbits := bits_of_taken htaken (hi.trans_le hc.items_le)
  refine ⟨s', _, hcode, ⟨hok, fun m b => ?_⟩, fun q hq => ?_⟩
  · dsimp only
    rw [update_apply]
    split
    · next heq =>
      subst heq
      rw [Option.some_inj]
      constructor
      · rintro rfl
        refine ⟨?_, ?_, ?_, ?_⟩
        · rw [hpage, htaken.owned]
          exact howned
        · rw [hpage]
          exact hkind
        · rw [hmod, Nat.mul_mod_left]
        · rw [hpage, hmod, Nat.mul_div_cancel _ hc.pos, hbits, if_pos rfl]
          exact mem_insert_self ..
      · intro hin
        rw [← hin.kind, hpage, hkind]
    next hne =>
    rw [hinv.live]
    refine ⟨fun hm => ⟨?_, hm.kind, hm.place, ?_⟩, fun hm => ⟨?_, hm.kind, hm.place, ?_⟩⟩
    · rw [htaken.owned]
      exact hm.owned
    · rw [hbits]
      split
      · next hp =>
        have hbit := hm.bit
        rw [hp] at hbit
        exact mem_insert_of_mem hbit
      · exact hm.bit
    · have hm' := hm.owned
      rwa [htaken.owned] at hm'
    have hbit := hm.bit
    rw [hbits] at hbit
    split at hbit
    · next hp =>
      obtain rfl : bytes = b := by rw [← hm.kind, hp, hkind]
      rw [hp]
      refine (mem_insert.mp hbit).resolve_left fun heq => hne ?_
      rw [← place_eq hm.place, hp, heq]
    · exact hbit
  · change 0 < (s'.page q).nused
    rw [htaken.nused]
    split
    · exact Nat.succ_pos _
    · next hne =>
      change s'.owned q = true at hq
      rw [htaken.owned] at hq
      exact hused q hq hne

theorem Inv.newslabdata {sl : Nat} (hinv : Inv h kind) (hc : Class bytes) (hsl : getslab bytes = some sl)
    (hp : h.slabs.owned p = false) :
    Inv ⟨(h.slabs.newslabdata p).addhead p sl, h.live⟩ (update kind p bytes) := by
  have hadded := Slabs.added_addhead h.slabs p sl
  refine ⟨hinv.ok.newslabdata hc hsl hp, fun m b => ?_⟩
  dsimp only
  rw [hinv.live]
  by_cases hm : m / vmPageSize = p
  · refine iff_of_false (fun hin => ?_) fun hin => ?_
    · have howned := hin.owned
      rw [hm, hp] at howned
      cases howned
    · have hbit := hin.bit
      rw [hadded.bits, if_pos hm] at hbit
      exact absurd hbit (notMem_empty _)
  have howned : ((h.slabs.newslabdata p).addhead p sl).owned (m / vmPageSize) = h.slabs.owned (m / vmPageSize) := by
    rw [hadded.owned, update_of_ne hm]
  have hkind : update kind p bytes (m / vmPageSize) = kind (m / vmPageSize) := update_of_ne hm ..
  have hbits := hadded.bits (m / vmPageSize)
  rw [if_neg hm] at hbits
  constructor
  · intro hin
    refine ⟨howned.trans hin.owned, hkind.trans hin.kind, hin.place, ?_⟩
    rw [hbits]
    exact hin.bit
  · intro hin
    refine ⟨howned.symm.trans hin.owned, hkind.symm.trans hin.kind, hin.place, ?_⟩
    rw [← hbits]
    exact hin.bit

theorem Inv.alloc {meanwhile : List (Nat × Nat)} {page : Option Nat} (hinv : Inv h kind) (hused : h.Used)
    (hallowed : h.Allows (.alloc bytes meanwhile page)) :
    ∃ h' kind', h.alloc bytes meanwhile page = some h' ∧ Inv h' kind' ∧ h'.Used := by
  obtain ⟨hpos, hlt, hwait⟩ := hallowed
  have hc := class_roundupAlign hpos hlt
  have hsl := hc.getslab
  set sl := roundupAlign bytes - minsize
  have hbind : (getslab (roundupAlign bytes)).bind h.slabs.listHead = h.slabs.listHead sl := by
    rw [hsl]
    rfl
  rw [hbind] at hwait
  cases hhead : h.slabs.listHead sl with
  | some p =>
    have howned := (hinv.ok.onList_head hsl hhead).1
    obtain ⟨s', mem, htake, hinv', hused'⟩ := hinv.take hc hsl hhead fun q hq _ => hused q hq
    refine ⟨_, kind, ?_, hinv', hused'⟩
    unfold Heap.alloc Heap.waited Slabs.slaballoc
    dsimp only
    rw [hbind, hsl]
    dsimp only
    rw [hhead]
    dsimp only
    rw [if_pos (hused p howned), htake]
  | none =>
    obtain ⟨hfrees, hfresh⟩ := hwait hhead
    obtain ⟨w, hcode, hinvw, husedw⟩ := hinv.frees hused hfrees
    cases page with
    | none =>
      refine ⟨w, kind, ?_, hinvw, husedw⟩
      unfold Heap.alloc Heap.waited Slabs.slaballoc
      dsimp only
      rw [hbind, hsl]
      dsimp only
      rw [hhead]
      dsimp only
      rw [hcode]
      rfl
    | some p =>
      have hp := hfresh w hcode p rfl
      have hadded := Slabs.added_addhead w.slabs p sl
      have hnew := hinvw.newslabdata hc hsl hp
      obtain ⟨s', mem, htake, hinv', hused'⟩ := hnew.take hc hsl (update_self ..) fun q hq hne => by
        rw [hadded.nused, if_neg hne]
        rw [hadded.owned, update_of_ne hne] at hq
        exact husedw q hq
      refine ⟨_, _, ?_, hinv', hused'⟩
      unfold Heap.alloc Heap.waited Slabs.slaballoc
      dsimp only
      rw [hbind, hsl]
      dsimp only
      rw [hhead]
      dsimp only
      rw [hcode]
      dsimp only [Option.map_some]
      rw [if_pos (by rw [hadded.nused, if_pos rfl]), htake]

/-! ## What is promised -/

theorem Inv.place (hinv : Inv h kind) (hlive : h.live mem = some bytes) :
    Class bytes ∧ mem % vmPageSize + bytes ≤ dataBytes ∧
      mem % vmPageSize / bytes * bytes = mem % vmPageSize := by
  have hin := (hinv.live mem bytes).mp hlive
  have hc : Class bytes := hin.kind ▸ hinv.ok.size _ hin.owned
  have hfirst := (hinv.ok.counts _ hin.owned).first hin.bit
  rw [hin.kind, mem_range] at hfirst
  have heq : mem % vmPageSize / bytes * bytes = mem % vmPageSize :=
    Nat.div_mul_cancel (Nat.dvd_of_mod_eq_zero hin.place)
  have hle := place_le hfirst
  rw [heq] at hle
  exact ⟨hc, hle, heq⟩

theorem Inv.apart (hinv : Inv h kind) {mem' bytes' : Nat} (hlive : h.live mem = some bytes)
    (hlive' : h.live mem' = some bytes') (hlt : mem < mem') : mem + bytes ≤ mem' := by
  obtain ⟨hc, hle, heq⟩ := hinv.place hlive
  obtain ⟨-, -, heq'⟩ := hinv.place hlive'
  have hin := (hinv.live mem bytes).mp hlive
  have hin' := (hinv.live mem' bytes').mp hlive'
  have hmem := Nat.div_add_mod mem vmPageSize
  have hmem' := Nat.div_add_mod mem' vmPageSize
  have hdiv : mem / vmPageSize ≤ mem' / vmPageSize := Nat.div_le_div_right hlt.le
  by_cases hpage : mem / vmPageSize = mem' / vmPageSize
  · -- places of one page
    obtain rfl : bytes = bytes' := by rw [← hin.kind, ← hin'.kind, hpage]
    rw [hpage] at hmem
    have hplace : mem % vmPageSize / bytes < mem' % vmPageSize / bytes := by
      by_contra hge
      have hmul := Nat.mul_le_mul_right bytes (Nat.not_lt.mp hge)
      rw [heq, heq'] at hmul
      omega
    have hmul := Nat.mul_le_mul_right bytes (Nat.succ_le_of_lt hplace)
    rw [Nat.succ_mul, heq, heq'] at hmul
    omega
  have hdiv' : mem / vmPageSize + 1 ≤ mem' / vmPageSize := by omega
  have hmul := Nat.mul_le_mul_left vmPageSize hdiv'
  have hsize : dataBytes ≤ vmPageSize := by decide
  rw [Nat.mul_add, Nat.mul_one] at hmul
  omega

theorem Start.inv (hstart : h.Start) : Inv h (fun _ => 0) ∧ h.Used := by
  have hnot (p : Nat) (hp : h.slabs.owned p = true) : False := by
    rw [hstart.owned p] at hp
    cases hp
  refine ⟨⟨⟨fun p hp => (hnot p hp).elim, fun p hp => (hnot p hp).elim, fun b sl _ => ⟨[], ?_, fun p => ?_⟩⟩,
    fun mem b => ?_⟩, fun p hp => (hnot p hp).elim⟩
  · rw [hstart.listHead]
    exact Links.isList_nil _
  · exact iff_of_false List.not_mem_nil fun hon => hnot p hon.1
  · rw [hstart.live]
    exact iff_of_false (fun heq => by cases heq) fun hin => hnot _ hin.owned

theorem Inv.step (hinv : Inv h kind) (hused : h.Used) {e : Event} (hallowed : h.Allows e) :
    ∃ h' kind', h.step e = some h' ∧ Inv h' kind' ∧ h'.Used := by
  cases e with
  | alloc bytes meanwhile page => exact hinv.alloc hused hallowed
  | free mem bytes =>
    obtain ⟨h', hcode, hinv', hused'⟩ := hinv.free hallowed
    exact ⟨h', kind, hcode, hinv', hused' hused⟩

theorem Reach.inv (hstart : h₀.Start) (hreach : Reach h₀ h) : ∃ kind, Inv h kind ∧ h.Used := by
  induction hreach with
  | start => exact ⟨_, hstart.inv⟩
  | step _ hallowed hstep ih =>
    obtain ⟨kind, hinv, hused⟩ := ih
    obtain ⟨h1, kind1, hstep1, hinv1, hused1⟩ := hinv.step hused hallowed
    cases hstep.symm.trans hstep1
    exact ⟨kind1, hinv1, hused1⟩

def empty : Heap where
  slabs := ⟨fun _ => none, fun _ => ⟨3, some 5, some 6, fun _ => true, 9⟩, fun _ => false⟩
  live := fun _ => none

end Heap

end HardenedMinix.Slab
