import HardenedMinix.Vm.RegionUnmap

/-!
# What unmapping leaves

What `map_unmap_region` does to a region in its tree, and when a request removes exactly the range
that it is for.
-/

namespace HardenedMinix.RegionTree

open VirRegion

/-! ## A region in its tree -/

namespace Tree

variable {t before after mid : Tree} {r x : VirRegion} {v f lo n : Nat}

theorem stop_lt (h : r.Ok) : r.stop < addrSize := Nat.lt_of_le_of_lt h.top (by decide)

theorem mem_of_mapLookup (ht : t.Ok) (h : t.mapLookup v = some r) :
    r ∈ t ∧ r.vaddr ≤ v ∧ v < r.stop := by
  unfold mapLookup at h
  split at h
  · cases h
  next x hx =>
  have hmem := List.mem_filter.mp (List.mem_of_getLast? hx)
  split at h
  · next hlt =>
    cases h
    rw [add_eq (stop_lt (ht.region r hmem.1))] at hlt
    exact ⟨hmem.1, by simpa using hmem.2, hlt⟩
  · cases h

theorem mapped_append {t' : Tree} : (t ++ t' : Tree).Mapped v ↔ t.Mapped v ∨ t'.Mapped v := by
  unfold Mapped
  simp only [List.mem_append, or_and_right, exists_or]

theorem frame_append {t' : Tree} : (t ++ t' : Tree).Frame v f ↔ t.Frame v f ∨ t'.Frame v f := by
  unfold Frame
  simp only [List.mem_append, or_and_right, exists_or]

theorem Ok.apart (ht : (before ++ r :: after : Tree).Ok) (hx : x ∈ before ∨ x ∈ after)
    (hv : x.vaddr ≤ v ∧ v < x.stop) : ¬ (r.vaddr ≤ v ∧ v < r.stop) := by
  have hpair := List.pairwise_append.mp ht.disjoint
  obtain hx | hx := hx
  · have hle := hpair.2.2 x hx r (.head _)
    omega
  · have hle := (List.pairwise_cons.mp hpair.2.1).1 x hx
    omega

theorem Ok.keys (ht : (before ++ r :: after : Tree).Ok) :
    (∀ x ∈ before, x.vaddr < r.vaddr) ∧ ∀ x ∈ after, r.stop ≤ x.vaddr := by
  have hpair := List.pairwise_append.mp ht.disjoint
  refine ⟨fun x hx => ?_, (List.pairwise_cons.mp hpair.2.1).1⟩
  have hle := hpair.2.2 x hx r (.head _)
  have hpos := (ht.region x (List.mem_append_left _ hx)).pos
  unfold stop at hle
  omega

theorem remove_between (hbefore : ∀ x ∈ before, x.vaddr < r.vaddr) (hafter : ∀ x ∈ after, r.vaddr < x.vaddr) :
    remove (before ++ r :: after) r.vaddr = before ++ after := by
  have hb : before.filter (fun x => x.vaddr ≠ r.vaddr) = before :=
    List.filter_eq_self.mpr fun x hx => by simpa using (hbefore x hx).ne
  have ha : after.filter (fun x => x.vaddr ≠ r.vaddr) = after :=
    List.filter_eq_self.mpr fun x hx => by simpa using (hafter x hx).ne'
  unfold remove
  rw [List.filter_append, List.filter_cons_of_neg (by simp), hb, ha]

theorem replace_between (r' : VirRegion) (hbefore : ∀ x ∈ before, x.vaddr < r.vaddr)
    (hafter : ∀ x ∈ after, r.vaddr < x.vaddr) :
    replace (before ++ r :: after) r r' = before ++ r' :: after := by
  have hsame (l : Tree) (hl : ∀ x ∈ l, x.vaddr ≠ r.vaddr) :
      l.map (fun x => if x.vaddr = r.vaddr then r' else x) = l :=
    (List.map_congr_left fun x hx => if_neg (hl x hx)).trans (List.map_id l)
  unfold replace
  rw [List.map_append, List.map_cons, if_pos rfl, hsame before fun x hx => (hbefore x hx).ne,
    hsame after fun x hx => (hafter x hx).ne']

theorem insert_between (hbefore : ∀ x ∈ before, x.vaddr < r.vaddr) (hafter : ∀ x ∈ after, r.vaddr < x.vaddr) :
    insert (before ++ after) r = before ++ r :: after := by
  have hnew : ¬ (before ++ after).any fun x => x.vaddr = r.vaddr := by
    simp only [List.any_eq_true, List.mem_append, decide_eq_true_eq, not_exists, not_and]
    rintro x (hx | hx)
    · exact (hbefore x hx).ne
    · exact (hafter x hx).ne'
  have hdrop : after.dropWhile (fun x => decide (x.vaddr < r.vaddr)) = after := by
    cases after with
    | nil => rfl
    | cons y after => exact List.dropWhile_cons_of_neg (by simpa using (hafter y (.head _)).le)
  have htake : after.takeWhile (fun x => decide (x.vaddr < r.vaddr)) = [] := by
    cases after with
    | nil => rfl
    | cons y after => exact List.takeWhile_cons_of_neg (by simpa using (hafter y (.head _)).le)
  unfold insert
  rw [if_neg hnew, List.takeWhile_append_of_pos (by simpa using hbefore),
    List.dropWhile_append_of_pos (by simpa using hbefore), hdrop, htake, List.append_nil]

/-- These regions are what is left of `r` without the range `[lo, lo + n)`. -/
structure Shrunk (r : VirRegion) (lo n : Nat) (mid : Tree) : Prop where
  mapped : ∀ v, mid.Mapped v ↔ (r.vaddr ≤ v ∧ v < r.stop) ∧
    ¬ ((lo = r.vaddr ∨ lo + n = r.stop) ∧ lo ≤ v ∧ v < lo + n)
  frame : ∀ v f, mid.Frame v f ↔ Frame [r] v f ∧ ¬ (lo ≤ v ∧ v < lo + n)
  offset : ∀ x ∈ mid, ∀ i ph, x.slot i = some ph → ph.offset = i * vmPageSize

theorem Shrunk.unmapped {p p' : Process} (hmid : Shrunk r lo n mid) (ht : p.regions.Ok)
    (hlo : r.vaddr ≤ lo) (hhi : lo + n ≤ r.stop) (hsplit : p.regions = before ++ r :: after)
    (hsplit' : p'.regions = before ++ mid ++ after)
    (hpte : ∀ k, p'.pte k = if lo / vmPageSize ≤ k ∧ k < (lo + n) / vmPageSize then none else p.pte k) :
    Unmapped p p' r lo n := by
  rw [hsplit] at ht
  have hother (v : Nat) (t' : Tree) (ht' : ∀ x ∈ t', x ∈ before ∨ x ∈ after) (hv : t'.Mapped v) :
      ¬ (r.vaddr ≤ v ∧ v < r.stop) := by
    obtain ⟨x, hx, hin⟩ := hv
    exact ht.apart (ht' x hx) hin
  have hcons : (before ++ r :: after : Tree) = before ++ [r] ++ after := by simp
  have hone (v : Nat) : Mapped [r] v ↔ r.vaddr ≤ v ∧ v < r.stop := by simp [Mapped]
  refine ⟨fun v => ?_, fun x hx hne => ?_, fun v f => ?_, fun x hx i ph hph => ?_, hpte⟩
  · rw [hsplit', hsplit, hcons, mapped_append, mapped_append, mapped_append, mapped_append, hmid.mapped, hone]
    have hb := hother v before fun x hx => .inl hx
    have ha := hother v after fun x hx => .inr hx
    by_cases hin : r.vaddr ≤ v ∧ v < r.stop
    · have hb' : ¬ before.Mapped v := fun h => hb h hin
      have ha' : ¬ Mapped after v := fun h => ha h hin
      simp only [hb', ha', hin, and_self, true_and, false_or, or_false]
    · have hout : ¬ (lo ≤ v ∧ v < lo + n) := by omega
      simp only [hin, hout, and_false, not_false_iff, and_true]
  · rw [hsplit']
    rw [hsplit] at hx
    simp only [List.mem_append, List.mem_cons] at hx ⊢
    obtain hx | rfl | hx := hx
    · exact .inl (.inl hx)
    · exact absurd rfl hne
    · exact .inr hx
  · have hmap {t' : Tree} (h : t'.Frame v f) : t'.Mapped v := by
      obtain ⟨x, hx, hlo, hhi, -⟩ := h
      exact ⟨x, hx, hlo, hhi⟩
    rw [hsplit', hsplit, hcons, frame_append, frame_append, frame_append, frame_append, hmid.frame]
    have hb := hother v before fun x hx => .inl hx
    have ha := hother v after fun x hx => .inr hx
    by_cases hin : lo ≤ v ∧ v < lo + n
    · have hin' : r.vaddr ≤ v ∧ v < r.stop := by omega
      have hb' : ¬ before.Frame v f := fun h => hb (hmap h) hin'
      have ha' : ¬ Frame after v f := fun h => ha (hmap h) hin'
      simp only [hb', ha', hin, and_self, not_true, and_false, or_self]
    · simp only [hin, not_false_iff, and_true]
  · rw [hsplit'] at hx
    simp only [List.mem_append] at hx
    obtain (hx | hx) | hx := hx
    · exact (ht.region x (List.mem_append_left _ hx)).offset i ph hph
    · exact hmid.offset x hx i ph hph
    · exact (ht.region x (List.mem_append_right _ (.tail _ hx))).offset i ph hph

theorem mapped_one : Mapped [r] v ↔ r.vaddr ≤ v ∧ v < r.stop := by simp [Mapped]

theorem frame_one : Frame [r] v f ↔ r.vaddr ≤ v ∧ v < r.stop ∧
    ∃ ph, r.slot ((v - r.vaddr) / vmPageSize) = some ph ∧ ph.phys = f := by simp [Frame]

variable {r' : VirRegion} {a k : Nat}

theorem shrunk_whole : Shrunk r r.vaddr r.length [] := by
  refine ⟨fun v => ⟨fun h => ?_, fun h => ?_⟩, fun v f => ⟨fun h => ?_, fun h => ?_⟩, fun x hx => ?_⟩
  · obtain ⟨x, hx, -⟩ := h
    cases hx
  · exact absurd ⟨.inl rfl, h.1⟩ h.2
  · obtain ⟨x, hx, -⟩ := h
    cases hx
  · obtain ⟨hlo, hhi, -⟩ := frame_one.mp h.1
    exact absurd ⟨hlo, hhi⟩ h.2
  · cases hx

theorem shrunk_middle (hr : r.Ok) (harea : r.SameArea r')
    (hslot : ∀ j, r'.slot j = if a ≤ j ∧ j < a + k then none else r.slot j)
    (hlo : r.vaddr + a * vmPageSize ≠ r.vaddr)
    (hhi : r.vaddr + a * vmPageSize + k * vmPageSize ≠ r.stop) :
    Shrunk r (r.vaddr + a * vmPageSize) (k * vmPageSize) [r'] := by
  have hpage : 0 < vmPageSize := by decide
  have hstop : r'.stop = r.stop := by
    unfold stop
    rw [harea.vaddr, harea.length]
  refine ⟨fun v => ?_, fun v f => ?_, fun x hx i ph hph => ?_⟩
  · rw [mapped_one, harea.vaddr, hstop]
    exact ⟨fun h => ⟨h, fun hin => hin.1.elim hlo hhi⟩, fun h => h.1⟩
  · rw [frame_one, frame_one, harea.vaddr, hstop, hslot]
    have hiff : a ≤ (v - r.vaddr) / vmPageSize ∧ (v - r.vaddr) / vmPageSize < a + k ↔
        a * vmPageSize ≤ v - r.vaddr ∧ v - r.vaddr < a * vmPageSize + k * vmPageSize := by
      rw [Nat.le_div_iff_mul_le hpage, Nat.div_lt_iff_lt_mul hpage, Nat.add_mul]
    by_cases hin : a ≤ (v - r.vaddr) / vmPageSize ∧ (v - r.vaddr) / vmPageSize < a + k
    · rw [if_pos hin]
      refine iff_of_false (fun h => ?_) fun h => h.2 ?_
      · obtain ⟨-, -, ph, hph, -⟩ := h
        cases hph
      · have hv := h.1.1
        have hin' := hiff.mp hin
        omega
    · rw [if_neg hin]
      refine ⟨fun h => ⟨h, fun hrange => hin (hiff.mpr ?_)⟩, fun h => h.1⟩
      have hv := h.1
      omega
  obtain rfl := List.mem_singleton.mp hx
  rw [hslot] at hph
  split at hph
  · cases hph
  · exact hr.offset i ph hph

theorem shrunk_end (hr : r.Ok) (hk : a + k = r.slots) (hvaddr : r'.vaddr = r.vaddr)
    (hlength : r'.length = a * vmPageSize)
    (hslot : ∀ j, r'.slot j = if j < a then r.slot j else none) :
    Shrunk r (r.vaddr + a * vmPageSize) (k * vmPageSize) [r'] := by
  have hpage : 0 < vmPageSize := by decide
  have hstop : r.vaddr + a * vmPageSize + k * vmPageSize = r.stop := by
    rw [Nat.add_assoc, ← Nat.add_mul, hk, ← hr.length_eq]
    rfl
  have hstop' : r'.stop = r.vaddr + a * vmPageSize := by
    unfold stop
    rw [hvaddr, hlength]
  refine ⟨fun v => ?_, fun v f => ?_, fun x hx i ph hph => ?_⟩
  · rw [mapped_one, hvaddr, hstop', hstop]
    simp only [or_true, true_and]
    omega
  · rw [frame_one, frame_one, hvaddr, hstop', hslot, hstop]
    by_cases hv : r.vaddr ≤ v ∧ v < r.vaddr + a * vmPageSize
    · have hlt : (v - r.vaddr) / vmPageSize < a := by
        rw [Nat.div_lt_iff_lt_mul hpage]
        omega
      rw [if_pos hlt]
      exact ⟨fun h => ⟨⟨h.1, by omega, h.2.2⟩, by omega⟩, fun h => ⟨h.1.1, hv.2, h.1.2.2⟩⟩
    · exact iff_of_false (fun h => hv ⟨h.1, h.2.1⟩) fun h => h.2 ⟨by omega, h.1.2.1⟩
  obtain rfl := List.mem_singleton.mp hx
  rw [hslot] at hph
  split at hph
  · exact hr.offset i ph hph
  · cases hph

theorem shrunk_start (hr : r.Ok) (hk : k < r.slots) (hvaddr : r'.vaddr = r.vaddr + k * vmPageSize)
    (hlength : r'.length = (r.slots - k) * vmPageSize)
    (hslot : ∀ j, r'.slot j = if j < r.slots - k then
      (r.slot (k + j)).map fun ph => { ph with offset := j * vmPageSize } else none) :
    Shrunk r r.vaddr (k * vmPageSize) [r'] := by
  have hpage : 0 < vmPageSize := by decide
  have hmul : k * vmPageSize ≤ r.slots * vmPageSize := Nat.mul_le_mul_right _ hk.le
  have hstop' : r'.stop = r.stop := by
    unfold stop
    rw [hvaddr, hlength, hr.length_eq, Nat.sub_mul]
    omega
  refine ⟨fun v => ?_, fun v f => ?_, fun x hx i ph hph => ?_⟩
  · rw [mapped_one, hvaddr, hstop']
    simp only [true_or, true_and]
    omega
  · rw [frame_one, frame_one, hvaddr, hstop', hslot]
    by_cases hv : r.vaddr + k * vmPageSize ≤ v ∧ v < r.stop
    · have hindex : k + (v - (r.vaddr + k * vmPageSize)) / vmPageSize = (v - r.vaddr) / vmPageSize := by
        rw [← Nat.mul_add_div hpage k, Nat.mul_comm vmPageSize k]
        congr 1
        omega
      have hlt : (v - (r.vaddr + k * vmPageSize)) / vmPageSize < r.slots - k := by
        rw [Nat.div_lt_iff_lt_mul hpage, Nat.sub_mul, ← hr.length_eq]
        have := hv.2
        unfold stop at this
        omega
      have hlo : r.vaddr ≤ v := by omega
      rw [if_pos hlt, hindex]
      refine ⟨fun h => ⟨⟨hlo, h.2.1, ?_⟩, by omega⟩, fun h => ⟨hv.1, h.1.2.1, ?_⟩⟩
      · obtain ⟨-, -, ph, hph, hf⟩ := h
        obtain ⟨ph', hph', rfl⟩ := Option.map_eq_some_iff.mp hph
        exact ⟨ph', hph', hf⟩
      · obtain ⟨-, -, ph, hph, hf⟩ := h.1
        exact ⟨_, Option.map_eq_some_iff.mpr ⟨ph, hph, rfl⟩, hf⟩
    · exact iff_of_false (fun h => hv ⟨h.1, h.2.1⟩) fun h => h.2 ⟨h.1.1, by have := h.1.2.1; omega⟩
  obtain rfl := List.mem_singleton.mp hx
  rw [hslot] at hph
  split at hph
  · obtain ⟨ph', -, rfl⟩ := Option.map_eq_some_iff.mp hph
    rfl
  · cases hph

theorem Ok.keys_after (ht : (before ++ r :: after : Tree).Ok) : ∀ x ∈ after, r.vaddr < x.vaddr := by
  intro x hx
  have hpos := (ht.region r (List.mem_append_right _ (.head _))).pos
  have hle := ht.keys.2 x hx
  unfold stop at hle
  omega

variable {r₁ : VirRegion}

theorem Ok.shrink_start (ht : (before ++ r :: after : Tree).Ok) (harea : r.SameArea r₁)
    (hk : k < r.slots) (hslot : ∀ j, r₁.slot j = if j < k then none else r.slot j) :
    ∃ r', Tree.shrink (before ++ r :: after) r r₁ 0 (k * vmPageSize) = some (before ++ r' :: after, r') ∧
      r'.vaddr = r.vaddr + k * vmPageSize ∧ r'.length = (r.slots - k) * vmPageSize ∧
      ∀ j, r'.slot j = if j < r.slots - k then
          if k + j < r.slots - k then
            (r.slot (k + j)).map fun ph => { ph with offset := j * vmPageSize }
          else r.slot (k + j)
        else none := by
  have hr := ht.region r (List.mem_append_right _ (.head _))
  obtain ⟨hbefore, hafter⟩ := ht.keys
  obtain ⟨r', hstart, hvaddr, hlen, hslots⟩ := hr.shrinkStart harea hk.le hslot
  refine ⟨r', ?_, hvaddr, hlen, hslots hk⟩
  have hlt : k * vmPageSize < r.length := by
    rw [hr.length_eq]
    exact Nat.mul_lt_mul_of_pos_right hk (by decide)
  unfold Tree.shrink
  rw [if_pos rfl, hstart, remove_between hbefore ht.keys_after, Option.map_some, insert_between]
  · intro x hx
    have := hbefore x hx
    omega
  · intro x hx
    have hle := hafter x hx
    unfold stop at hle
    omega

theorem Ok.shrink_whole (ht : (before ++ r :: after : Tree).Ok) (harea : r.SameArea r₁)
    (hslot : ∀ j, r₁.slot j = if j < r.slots then none else r.slot j) :
    ∃ t' r', Tree.shrink (before ++ r :: after) r r₁ 0 r.length = some (t', r') ∧
      r'.vaddr = r.stop ∧ r'.length = 0 ∧
      ((∀ x ∈ after, x.vaddr ≠ r.stop) → t'.remove r'.vaddr = before ++ after) := by
  have hr := ht.region r (List.mem_append_right _ (.head _))
  obtain ⟨hbefore, hafter⟩ := ht.keys
  obtain ⟨r', hstart, hvaddr, hlen, -⟩ := hr.shrinkStart harea le_rfl hslot
  rw [← hr.length_eq] at hstart hvaddr
  rw [Nat.sub_self, Nat.zero_mul] at hlen
  unfold Tree.shrink
  rw [if_pos rfl, hstart, remove_between hbefore ht.keys_after]
  refine ⟨_, r', rfl, hvaddr, hlen, fun halone => ?_⟩
  have hbefore' : ∀ x ∈ before, x.vaddr < r'.vaddr := by
    intro x hx
    have := hbefore x hx
    omega
  have hafter' : ∀ x ∈ after, r'.vaddr < x.vaddr := fun x hx =>
    hvaddr ▸ Nat.lt_of_le_of_ne (hafter x hx) (halone x hx).symm
  rw [insert_between hbefore' hafter', remove_between hbefore' hafter']

theorem Ok.shrink (ht : (before ++ r :: after : Tree).Ok) (harea : r.SameArea r₁)
    (hak : a + k ≤ r.slots) (hslot : ∀ j, r₁.slot j = if a ≤ j ∧ j < a + k then none else r.slot j)
    (halone : a = 0 → k = r.slots → ∀ x ∈ after, x.vaddr ≠ r.stop)
    (hshifted : a = 0 → ∀ i, k ≤ i → r.slots - k ≤ i → r.slot i = none) :
    ∃ t' r' mid, Tree.shrink (before ++ r :: after) r r₁ (a * vmPageSize) (k * vmPageSize) = some (t', r') ∧
      (if r'.length = 0 then t'.remove r'.vaddr else t') = before ++ mid ++ after ∧
      Shrunk r (r.vaddr + a * vmPageSize) (k * vmPageSize) mid := by
  have hpage : 0 < vmPageSize := by decide
  have hr := ht.region r (List.mem_append_right _ (.head _))
  have hlength := hr.length_eq
  have hpos := hr.pos
  have hbefore := ht.keys.1
  obtain rfl | ha := Nat.eq_zero_or_pos a
  · rw [Nat.zero_add] at hak
    simp only [Nat.zero_add, Nat.zero_le, true_and] at hslot
    rw [Nat.zero_mul, Nat.add_zero]
    obtain hk | rfl := Nat.lt_or_eq_of_le hak
    · obtain ⟨r', hshrink, hvaddr, hlen, hslots⟩ := ht.shrink_start harea hk hslot
      refine ⟨_, r', [r'], hshrink, ?_, shrunk_start hr hk hvaddr hlen fun j => (hslots j).trans ?_⟩
      · rw [if_neg (by rw [hlen, Nat.mul_eq_zero]; omega)]
        simp
      split
      · split
        · rfl
        · rw [hshifted rfl (k + j) (Nat.le_add_right ..) (by omega)]
          rfl
      · rfl
    · rw [← hlength]
      obtain ⟨t', r', hshrink, -, hzero, hgone⟩ := ht.shrink_whole harea hslot
      refine ⟨t', r', [], hshrink, ?_, shrunk_whole⟩
      rw [if_pos hzero, hgone (halone rfl rfl), List.append_nil]
  have hmul : (a + k) * vmPageSize ≤ r.slots * vmPageSize := Nat.mul_le_mul_right _ hak
  rw [Nat.add_mul] at hmul
  have hadd : add (a * vmPageSize) (k * vmPageSize) = a * vmPageSize + k * vmPageSize := by
    have hlt := stop_lt hr
    unfold stop at hlt
    exact add_eq (by omega)
  have hoff : a * vmPageSize ≠ 0 := (Nat.mul_pos ha hpage).ne'
  unfold Tree.shrink
  rw [if_neg hoff, hadd]
  split
  · next hend =>
    -- up to the end
    have hk : a + k = r.slots := by
      rw [← Nat.add_mul, hlength] at hend
      exact Nat.eq_of_mul_eq_mul_right hpage hend
    obtain ⟨hvaddr, hlen, hslots⟩ := hr.shrinkEnd harea hk hslot
    refine ⟨_, _, [r₁.shrinkEnd (k * vmPageSize)], if_pos (by omega), ?_,
      shrunk_end hr hk hvaddr hlen hslots⟩
    rw [if_neg (by rwa [hlen]), replace_between _ hbefore ht.keys_after]
    simp
  next hend =>
  refine ⟨_, _, [r₁], rfl, ?_, shrunk_middle hr harea hslot (by omega) ?_⟩
  · rw [if_neg (by rw [harea.length]; omega), replace_between _ hbefore ht.keys_after]
    simp
  · unfold stop
    omega

end Tree

/-! ## Requests -/

theorem roundup_mod (len : Int) : roundup len % vmPageSize = 0 := by
  unfold roundup vmPageSize addrSize
  omega

theorem roundup_cases {len : Int}
    (hlen : ((len % addrSize).toNat + (vmPageSize - 1)) / vmPageSize * vmPageSize ≤ vmDatatop) :
    roundup len = ((len % addrSize).toNat + (vmPageSize - 1)) / vmPageSize * vmPageSize ∨
      roundup len = ((len % addrSize).toNat + (vmPageSize - 1)) / vmPageSize * vmPageSize + vmPageSize := by
  unfold roundup
  unfold vmPageSize addrSize vmDatatop at *
  rw [Int.bmod_def]
  split
  · rw [Int.tdiv_eq_ediv_of_nonneg (by omega)]
    omega
  · rw [← Int.neg_neg ((len + _) % _ - _), Int.neg_tdiv, Int.tdiv_eq_ediv_of_nonneg (by omega)]
    omega

section Unmapped

variable {p p' : Process} {r : VirRegion} {lo n m : Nat}

theorem Unmapped.shorten (h : Unmapped p p' r lo m) (hlo : lo ≠ r.vaddr) (hstop : lo + m < r.stop)
    (hnm : n ≤ m) (halign : lo % vmPageSize = 0) (hpages : n % vmPageSize = 0)
    (hempty : ∀ v, lo + n ≤ v → v < lo + m → p.pte (v / vmPageSize) = none ∧ ∀ f, ¬ p.regions.Frame v f) :
    Unmapped p p' r lo n := by
  refine ⟨fun v => ?_, h.other, fun v f => ?_, h.offset, fun k => ?_⟩
  · have hm : ¬ (lo = r.vaddr ∨ lo + m = r.stop) := by omega
    have hn : ¬ (lo = r.vaddr ∨ lo + n = r.stop) := by omega
    simp only [h.mapped, hm, hn, false_and]
  · rw [h.frame]
    refine and_congr_right fun hframe => not_congr ⟨fun hin => ⟨hin.1, ?_⟩, fun hin => ⟨hin.1, by omega⟩⟩
    by_contra hge
    exact (hempty v (not_lt.mp hge) hin.2).2 f hframe
  rw [h.pte]
  by_cases hin : lo / vmPageSize ≤ k ∧ k < (lo + n) / vmPageSize
  · have hle : (lo + n) / vmPageSize ≤ (lo + m) / vmPageSize := Nat.div_le_div_right (by omega)
    rw [if_pos hin, if_pos ⟨hin.1, Nat.lt_of_lt_of_le hin.2 hle⟩]
  rw [if_neg hin]
  split
  · next hrest =>
    have hv := (hempty (k * vmPageSize) (by unfold vmPageSize at *; omega)
      (by unfold vmPageSize at *; omega)).1
    rw [Nat.mul_div_cancel k (by decide)] at hv
    exact hv.symm
  · rfl

theorem Unmapped.of_longer (h : Unmapped p p' r lo n) (h' : Unmapped p p' r lo m) (hr : r ∈ p.regions)
    (hlo : r.vaddr ≤ lo) (hnm : n < m) (hstop : lo + m ≤ r.stop) (halign : (lo + m) % vmPageSize = 0) :
    lo ≠ r.vaddr ∧ lo + m ≠ r.stop ∧
      ∀ v, lo + n ≤ v → v < lo + m → p.pte (v / vmPageSize) = none ∧ ∀ f, ¬ p.regions.Frame v f := by
  have hmid : ¬ (lo = r.vaddr ∨ lo + m = r.stop) := by
    intro hedge
    have hmapped : p.regions.Mapped (lo + n) := ⟨r, hr, by omega, by omega⟩
    have hstay := (h.mapped (lo + n)).mpr ⟨hmapped, by omega⟩
    exact ((h'.mapped (lo + n)).mp hstay).2 ⟨hedge, by omega, by omega⟩
  refine ⟨fun heq => hmid (.inl heq), fun heq => hmid (.inr heq), fun v hv hv' => ⟨?_, fun f hframe => ?_⟩⟩
  · have hk := h.pte (v / vmPageSize)
    have hle : (lo + n) / vmPageSize ≤ v / vmPageSize := Nat.div_le_div_right hv
    rw [if_neg (by omega)] at hk
    rw [← hk, h'.pte]
    refine if_pos ⟨Nat.div_le_div_right (by omega), ?_⟩
    unfold vmPageSize at *
    omega
  · have hstay := (h.frame v f).mpr ⟨hframe, by omega⟩
    exact ((h'.frame v f).mp hstay).2 ⟨by omega, hv'⟩

end Unmapped

namespace Process

variable {p p' : Process} {alloc : Nat → Bool} {req : Request} {r : VirRegion} {a k lo n : Nat}

theorem Ok.mapUnmapRegion (hp : p.Ok) (hr : r ∈ p.regions) (hak : a + k ≤ r.slots)
    (hroom : p.Room alloc r (r.vaddr + a * vmPageSize) (k * vmPageSize)) :
    ∃ p', p.mapUnmapRegion alloc r (a * vmPageSize) (k * vmPageSize) = some (.ok, p') ∧
      Unmapped p p' r (r.vaddr + a * vmPageSize) (k * vmPageSize) := by
  have hpage : 0 < vmPageSize := by decide
  have hok := hp.regions.region r hr
  have hlength := hok.length_eq
  obtain ⟨before, after, hsplit⟩ := List.append_of_mem hr
  have ht : Tree.Ok (before ++ r :: after) := hsplit ▸ hp.regions
  obtain ⟨r₁, hfree, harea, hslot⟩ := hok.mapSubfree hak
  obtain ⟨t', r', mid, hshrink, hgone, hmid⟩ := ht.shrink harea hak hslot
    (fun ha hk x hx => hroom.alone (by simp [ha]) (by rw [hk, hlength]) x
      (hsplit ▸ List.mem_append_right _ (.tail _ hx)))
    (fun ha i hki hi => hroom.shifted (by simp [ha]) i
      (by rwa [Nat.mul_div_cancel k hpage]) (by rwa [Nat.mul_div_cancel k hpage]))
  have hmul : (a + k) * vmPageSize ≤ r.slots * vmPageSize := Nat.mul_le_mul_right _ hak
  rw [Nat.add_mul] at hmul
  have hlt := Tree.stop_lt hok
  unfold stop at hlt
  have hadd : add (a * vmPageSize) (k * vmPageSize) = a * vmPageSize + k * vmPageSize := add_eq (by omega)
  have hstart : add r.vaddr (a * vmPageSize) = r.vaddr + a * vmPageSize := add_eq (by omega)
  have hend : r.vaddr + a * vmPageSize + k * vmPageSize < addrSize := by omega
  have halign : (r.vaddr + a * vmPageSize) % vmPageSize = 0 := by
    rw [Nat.add_mul_mod_self_right]
    exact hp.aligned r hr
  obtain ⟨p', hwrite, hregions, hpte⟩ := ptWritemap_of_tables
    (p := { p with regions := if r'.length = 0 then t'.remove r'.vaddr else t' }) halign hend
    (by rw [← add_eq hend]; exact hroom.tables)
  refine ⟨p', ?_, hmid.unmapped hp.regions (Nat.le_add_right ..) ?_ hsplit (hregions.trans hgone) fun k' => ?_⟩
  · unfold Process.mapUnmapRegion
    rw [if_neg (by rw [hadd, Nat.mul_mod_left]; omega), hfree]
    dsimp only
    rw [hsplit, hshrink]
    dsimp only
    rw [hstart]
    exact hwrite
  · unfold stop
    omega
  · have hdiv : (r.vaddr + a * vmPageSize + k * vmPageSize) / vmPageSize =
        (r.vaddr + a * vmPageSize) / vmPageSize + k := Nat.add_mul_div_right _ _ hpage
    rw [hpte, hdiv]

theorem Ok.room_of_mapUnmapRegion (hp : p.Ok) (hr : r ∈ p.regions) (hak : a + k ≤ r.slots)
    (h : p.mapUnmapRegion alloc r (a * vmPageSize) (k * vmPageSize) = some (.ok, p'))
    (hother : ∀ x ∈ p.regions, x ≠ r → x ∈ p'.regions)
    (hoffset : ∀ x ∈ p'.regions, ∀ i ph, x.slot i = some ph → ph.offset = i * vmPageSize) :
    p.Room alloc r (r.vaddr + a * vmPageSize) (k * vmPageSize) := by
  have hpage : 0 < vmPageSize := by decide
  have hok := hp.regions.region r hr
  have hlength := hok.length_eq
  obtain ⟨before, after, hsplit⟩ := List.append_of_mem hr
  have ht : Tree.Ok (before ++ r :: after) := hsplit ▸ hp.regions
  obtain ⟨r₁, hfree, harea, hslot⟩ := hok.mapSubfree hak
  have hmul : (a + k) * vmPageSize ≤ r.slots * vmPageSize := Nat.mul_le_mul_right _ hak
  rw [Nat.add_mul] at hmul
  have hlt := Tree.stop_lt hok
  unfold stop at hlt
  have hadd : add (a * vmPageSize) (k * vmPageSize) = a * vmPageSize + k * vmPageSize := add_eq (by omega)
  have hstart : add r.vaddr (a * vmPageSize) = r.vaddr + a * vmPageSize := add_eq (by omega)
  unfold Process.mapUnmapRegion at h
  rw [if_neg (by rw [hadd, Nat.mul_mod_left]; omega), hfree] at h
  dsimp only at h
  rw [hsplit, hstart] at h
  have hcode : ∀ t' r', Tree.shrink (before ++ r :: after) r r₁ (a * vmPageSize) (k * vmPageSize) =
      some (t', r') → p'.regions = if r'.length = 0 then t'.remove r'.vaddr else t' := by
    intro t' r' hshrink
    rw [hshrink] at h
    exact regions_of_ptWritemap h
  refine ⟨fun ha hk x hx hkey => ?_, fun ha i hki hi => ?_, ?_⟩
  · -- a region behind it would be unlinked
    have ha : a = 0 := by
      have : a * vmPageSize = 0 := by omega
      exact (Nat.mul_eq_zero.mp this).resolve_right hpage.ne'
    have hk' : k = r.slots := Nat.eq_of_mul_eq_mul_right hpage (hk.trans hlength)
    subst ha hk'
    simp only [Nat.zero_add, Nat.zero_le, true_and] at hslot
    obtain ⟨t', r', hshrink, hvaddr, hzero, -⟩ := ht.shrink_whole harea hslot
    have hregions := hcode t' r' (by rw [Nat.zero_mul, ← hlength]; exact hshrink)
    rw [if_pos hzero] at hregions
    have hne : x ≠ r := by
      intro hxr
      rw [hxr] at hkey
      have hpos := hok.pos
      unfold stop at hkey
      omega
    have hmem := hother x hx hne
    rw [hregions] at hmem
    have hkey' := (List.mem_filter.mp hmem).2
    rw [decide_eq_true_eq, hvaddr] at hkey'
    exact hkey' hkey
  · -- an offset that has not been made smaller
    have ha : a = 0 := by
      have : a * vmPageSize = 0 := by omega
      exact (Nat.mul_eq_zero.mp this).resolve_right hpage.ne'
    subst ha
    rw [Nat.mul_div_cancel k hpage] at hki hi
    simp only [Nat.zero_add, Nat.zero_le, true_and] at hslot
    by_contra hsome
    obtain ⟨ph, hph⟩ := Option.ne_none_iff_exists'.mp hsome
    have hlt : i < r.slots := by
      by_contra hge
      exact hsome (slot_eq_none (hok.slots ▸ not_lt.mp hge))
    obtain ⟨r', hshrink, -, hlen, hslots⟩ := ht.shrink_start harea (Nat.lt_of_le_of_lt hki hlt) hslot
    have hregions := hcode _ r' (by rw [Nat.zero_mul]; exact hshrink)
    rw [if_neg (by rw [hlen, Nat.mul_eq_zero]; omega)] at hregions
    have hmoved : r'.slot (i - k) = some ph := by
      have heq : k + (i - k) = i := by omega
      rw [hslots, if_pos (by omega), heq, if_neg (by omega), hph]
    have hoff := hoffset r' (hregions ▸ List.mem_append_right _ (.head _)) _ ph hmoved
    rw [hok.offset i ph hph] at hoff
    have := Nat.eq_of_mul_eq_mul_right hpage hoff
    omega
  split at h
  · cases h
  · next t' r' hshrink =>
    have htables := tables_of_ptWritemap h
    exact htables

theorem len_mod (hr : r.Ok) (req : Request) : req.len r % vmPageSize = 0 := by
  cases req with
  | munmap addr len => exact roundup_mod len
  | whole addr => exact hr.pages

theorem len_cases (req : Request) (r : VirRegion) (hsize : req.size r ≤ vmDatatop) :
    req.len r = req.size r ∨ req.len r = req.size r + vmPageSize := by
  cases req with
  | munmap addr len => exact roundup_cases hsize
  | whole addr => exact .inl rfl

theorem Ok.pages (hp : p.Ok) (h : p.Accepts req r) (hfits : req.addr + req.len r ≤ r.stop) :
    ∃ a k, a + k ≤ r.slots ∧ req.addr = r.vaddr + a * vmPageSize ∧ req.len r = k * vmPageSize := by
  have hpage : 0 < vmPageSize := by decide
  obtain ⟨hr, hle, -⟩ := Tree.mem_of_mapLookup hp.regions h.lookup
  have hok := hp.regions.region r hr
  have halign := hp.aligned r hr
  have haddr := h.aligned
  have hoffset : (req.addr - r.vaddr) % vmPageSize = 0 := Nat.sub_mod_eq_zero_of_mod_eq (by rw [haddr, halign])
  have ha := Nat.div_mul_cancel (Nat.dvd_of_mod_eq_zero hoffset)
  have hk := Nat.div_mul_cancel (Nat.dvd_of_mod_eq_zero (len_mod hok req))
  unfold stop at hfits
  refine ⟨(req.addr - r.vaddr) / vmPageSize, req.len r / vmPageSize, ?_, by omega, hk.symm⟩
  refine Nat.le_of_mul_le_mul_right ?_ hpage
  rw [Nat.add_mul, ha, hk, ← hok.length_eq]
  omega

theorem Ok.fits (hp : p.Ok) (h : p.Accepts req r) (hin : req.addr + req.size r ≤ r.stop) :
    req.addr + req.len r ≤ r.stop := by
  obtain ⟨hr, hle, -⟩ := Tree.mem_of_mapLookup hp.regions h.lookup
  have hok := hp.regions.region r hr
  have htop := hok.top
  have hfits := h.fits
  have hlen : req.len r ≤ req.size r + vmPageSize := by
    obtain hlen | hlen := len_cases req r (by omega) <;> omega
  have hsize : vmDatatop + vmPageSize < addrSize := by decide
  unfold stop at *
  rw [add_eq (by omega)] at hfits
  omega

theorem doMunmap_of_accepts (h : p.Accepts req r) : p.doMunmap alloc req =
    match p.mapUnmapRegion alloc r (req.addr - r.vaddr) (req.len r) with
    | some (.ok, p) => some (.ok, p)
    | _ => none := by
  have haddr := h.aligned
  unfold Process.doMunmap
  rw [h.lookup]
  exact (if_neg (by simpa using haddr)).trans (if_neg (not_lt.mpr h.fits))

theorem doMunmap_of_not_accepts (h : ∀ r, ¬ p.Accepts req r) : p.doMunmap alloc req = some (.efault, p) := by
  unfold Process.doMunmap
  split
  · rfl
  next r hlookup =>
  split_ifs with haligned
  · rfl
  · dsimp only
    split_ifs with hfits
    · rfl
    · exact absurd ⟨hlookup, not_not.mp haligned, not_lt.mp hfits⟩ (h r)

theorem Ok.doMunmap_of_room (hp : p.Ok) (h : p.Accepts req r) (hfits : req.addr + req.len r ≤ r.stop)
    (hroom : p.Room alloc r req.addr (req.len r)) :
    ∃ p', p.doMunmap alloc req = some (.ok, p') ∧ Unmapped p p' r req.addr (req.len r) := by
  obtain ⟨a, k, hak, haddr, hlen⟩ := hp.pages h hfits
  obtain ⟨hr, -⟩ := Tree.mem_of_mapLookup hp.regions h.lookup
  rw [haddr, hlen] at hroom ⊢
  obtain ⟨p', hunmap, hdone⟩ := hp.mapUnmapRegion hr hak hroom
  refine ⟨p', ?_, hdone⟩
  rw [doMunmap_of_accepts h, haddr, hlen, Nat.add_sub_cancel_left, hunmap]

theorem Ok.clean_of_unmaps (hp : p.Ok) (h : p.Accepts req r) (hunmaps : p.Unmaps alloc req) :
    p.Clean alloc req r := by
  unfold Process.Unmaps at hunmaps
  cases hrun : p.doMunmap alloc req with
  | none => simp [hrun] at hunmaps
  | some res =>
    obtain ⟨e, p'⟩ := res
    have hok : e = .ok ∧ p.mapUnmapRegion alloc r (req.addr - r.vaddr) (req.len r) = some (.ok, p') := by
      rw [doMunmap_of_accepts h] at hrun
      split at hrun
      · next hmap =>
        cases hrun
        exact ⟨rfl, hmap⟩
      · cases hrun
    obtain ⟨rfl, hmap⟩ := hok
    rw [hrun] at hunmaps
    obtain ⟨r', hlookup, hinside, hdone⟩ := hunmaps
    obtain rfl : r = r' := Option.some.inj (h.lookup.symm.trans hlookup)
    obtain ⟨hr, hle, hlt⟩ := Tree.mem_of_mapLookup hp.regions h.lookup
    have hregion := hp.regions.region r hr
    have hfits := hp.fits h hinside
    obtain ⟨a, k, hak, haddr, hlen⟩ := hp.pages h hfits
    have hroom : p.Room alloc r req.addr (req.len r) := by
      rw [haddr, hlen, Nat.add_sub_cancel_left] at hmap
      rw [haddr, hlen]
      exact hp.room_of_mapUnmapRegion hr hak hmap hdone.other hdone.offset
    refine ⟨hinside, ?_, hroom⟩
    have htop := hregion.top
    obtain heq | hlong := len_cases req r (by omega)
    · exact .inl heq
    -- what the code does is known for the length it goes on with, too
    obtain ⟨p'', hrun', hdone'⟩ := hp.doMunmap_of_room h hfits hroom
    rw [hrun] at hrun'
    cases hrun'
    have hless : req.size r < req.len r := by
      rw [hlong]
      exact Nat.lt_add_of_pos_right (by decide)
    obtain ⟨hstart, hend, hempty⟩ := hdone.of_longer hdone' hr hle hless hfits (by
      rw [Nat.add_mod, h.aligned, len_mod hregion req]
      rfl)
    exact .inr ⟨hstart, Nat.lt_of_le_of_ne hfits hend, hempty⟩

/-- A request removes exactly what it is for, or is rejected without change, just when each accepted
one lies within its region and there is room. -/
theorem unmaps_iff (hp : p.Ok) (alloc : Nat → Bool) (req : Request) :
    p.Unmaps alloc req ↔ ∀ r, p.Accepts req r → p.Clean alloc req r := by
  refine ⟨fun h r hacc => hp.clean_of_unmaps hacc h, fun h => ?_⟩
  by_cases hacc : ∃ r, p.Accepts req r
  · obtain ⟨r, hacc⟩ := hacc
    obtain ⟨hinside, hrounds, hroom⟩ := h r hacc
    obtain ⟨hr, -⟩ := Tree.mem_of_mapLookup hp.regions hacc.lookup
    obtain ⟨p', hrun, hdone⟩ := hp.doMunmap_of_room hacc (hp.fits hacc hinside) hroom
    unfold Process.Unmaps
    rw [hrun]
    refine ⟨r, hacc.lookup, hinside, ?_⟩
    obtain heq | ⟨hstart, hend, hempty⟩ := hrounds
    · rwa [heq] at hdone
    have htop := (hp.regions.region r hr).top
    refine hdone.shorten hstart hend ?_ hacc.aligned ?_ hempty
    · obtain heq | hlong := len_cases req r (by omega) <;> omega
    · cases req with
      | munmap addr len => exact Nat.mul_mod_left ..
      | whole addr => exact (hp.regions.region r hr).pages
  · unfold Process.Unmaps
    rw [doMunmap_of_not_accepts fun r hr => hacc ⟨r, hr⟩]

/-- Two regions, one directly behind the other, with one page each. -/
def neighbours : Process where
  regions := [⟨0x1000, 0x1000, [some ⟨0, 5⟩], true⟩, ⟨0x2000, 0x1000, [some ⟨0, 6⟩], true⟩]
  pde := fun _ => .table
  pte := fun k => if k = 1 then some 5 else if k = 2 then some 6 else none

theorem neighbours_ok : neighbours.Ok := ⟨by decide +kernel, by decide +kernel⟩

/-- Unmapping the second one removes it and nothing else. -/
theorem second_unmaps : neighbours.Unmaps (fun _ => true) (.munmap 0x2000 0x1000) := by
  refine (unmaps_iff neighbours_ok _ _).mpr fun r hacc => ?_
  have hr : r = ⟨0x2000, 0x1000, [some ⟨0, 6⟩], true⟩ := by
    have hlookup := hacc.lookup
    have heq : neighbours.regions.mapLookup 0x2000 = some ⟨0x2000, 0x1000, [some ⟨0, 6⟩], true⟩ := by
      decide +kernel
    exact Option.some.inj (hlookup.symm.trans heq)
  subst hr
  refine ⟨by decide +kernel, .inl (by decide +kernel), ⟨fun _ _ => by decide +kernel, fun _ i hi hi' => ?_,
    fun k _ => ⟨fun h => Pde.noConfusion h, fun _ => rfl⟩⟩⟩
  have hi'' : 1 ≤ i := hi
  exact slot_eq_none hi''

/-- Unmapping the first one also unlinks the second, whose key it gets on the way. -/
theorem first_unmaps_both : ¬ neighbours.Unmaps (fun _ => true) (.munmap 0x1000 0x1000) := by
  intro h
  have hacc : neighbours.Accepts (.munmap 0x1000 0x1000) ⟨0x1000, 0x1000, [some ⟨0, 5⟩], true⟩ :=
    ⟨by decide +kernel, by decide +kernel, by decide +kernel⟩
  have hclean := neighbours_ok.clean_of_unmaps hacc h
  exact hclean.room.alone rfl rfl ⟨0x2000, 0x1000, [some ⟨0, 6⟩], true⟩ (.tail _ (.head _)) rfl

end Process

end HardenedMinix.RegionTree
