import HardenedMinix.Vm.RegionSlots
import HardenedMinix.Vm.RegionUnmap

/-!
# Regions that are mapped and unmapped

`map_page_region`, and sequences of it and of `do_munmap`.
-/

open List Option

namespace HardenedMinix.RegionTree

/-! ## Changes of the tree -/

namespace Tree

variable {t : Tree} {r r' : VirRegion}

theorem Placed.sublist {t' : Tree} (h : t.Placed) (hsub : t'.Sublist t) : t'.Placed :=
  ⟨h.disjoint.sublist hsub, fun r hr => h.region r (hsub.subset hr)⟩

theorem Placed.remove (h : t.Placed) (key : Nat) : (t.remove key).Placed := h.sublist filter_sublist

theorem Placed.apart (h : t.Placed) {x y : VirRegion} (hx : x ∈ t) (hy : y ∈ t) :
    x = y ∨ x.stop ≤ y.vaddr ∨ y.stop ≤ x.vaddr := by
  obtain ⟨i, hi, rfl⟩ := getElem_of_mem hx
  obtain ⟨j, hj, rfl⟩ := getElem_of_mem hy
  have hpair := pairwise_iff_getElem.mp h.disjoint
  obtain hlt | rfl | hlt := Nat.lt_trichotomy i j
  · exact .inr (.inl (hpair i j hi hj hlt))
  · exact .inl rfl
  · exact .inr (.inr (hpair j i hj hi hlt))

theorem Placed.eq_of_key (h : t.Placed) {x y : VirRegion} (hx : x ∈ t) (hy : y ∈ t) (hkey : x.vaddr = y.vaddr) :
    x = y := by
  have hxpos := (h.region x hx).pos
  have hypos := (h.region y hy).pos
  refine (h.apart hx hy).resolve_right fun hap => ?_
  unfold VirRegion.stop at hap
  omega

theorem Placed.insert (h : t.Placed) (hr : r.Placed) (hap : ∀ x ∈ t, r.stop ≤ x.vaddr ∨ x.stop ≤ r.vaddr) :
    (t.insert r).Placed := by
  have hpos : ∀ x ∈ t, 0 < x.length := fun x hx => (h.region x hx).pos
  have hsplit := t.takeWhile_append_onFrom r.vaddr
  unfold Tree.insert
  split
  · exact h
  have hbelow : ∀ x ∈ t.takeWhile (fun x => decide (x.vaddr < r.vaddr)), x.stop ≤ r.vaddr := by
    intro x hx
    have hmem := (takeWhile_sublist _).subset hx
    have hlt : x.vaddr < r.vaddr := by simpa using mem_takeWhile_imp hx
    refine (hap x hmem).resolve_left fun hle => ?_
    have : r.vaddr ≤ r.stop := Nat.le_add_right ..
    omega
  have habove : ∀ x ∈ t.onFrom r.vaddr, r.stop ≤ x.vaddr := by
    intro x hx
    obtain ⟨hmem, hge⟩ := (mem_onFrom_iff hpos h.disjoint).mp hx
    refine (hap x hmem).resolve_right fun hle => ?_
    have := hpos x hmem
    unfold VirRegion.stop at hle
    omega
  have hd := h.disjoint
  unfold Tree.Disjoint at hd
  rw [← hsplit, pairwise_append] at hd
  refine ⟨pairwise_append.mpr ⟨hd.1, pairwise_cons.mpr ⟨habove, hd.2.1⟩, ?_⟩, fun x hx => ?_⟩
  · intro x hx y hy
    obtain rfl | hy := mem_cons.mp hy
    · exact hbelow x hx
    · exact hd.2.2 x hx y hy
  rw [mem_append, mem_cons] at hx
  obtain hx | rfl | hx := hx
  · exact h.region x ((takeWhile_sublist _).subset hx)
  · exact hr
  · exact h.region x ((dropWhile_sublist _).subset hx)

theorem Placed.replace (h : t.Placed) (hr : r ∈ t) (hr' : r'.Placed) (hvaddr : r'.vaddr = r.vaddr)
    (hlength : r'.length ≤ r.length) : (t.replace r r').Placed := by
  have hstop : r'.stop ≤ r.stop := by
    unfold VirRegion.stop
    omega
  have hkey (x : VirRegion) : (if x.vaddr = r.vaddr then r' else x).vaddr = x.vaddr := by
    split
    · next heq => rw [hvaddr, heq]
    · rfl
  have hless (x : VirRegion) (hx : x ∈ t) : (if x.vaddr = r.vaddr then r' else x).stop ≤ x.stop := by
    split
    · next heq =>
      rw [h.eq_of_key hx hr heq]
      exact hstop
    · exact le_rfl
  refine ⟨?_, fun x hx => ?_⟩
  · unfold Tree.Disjoint Tree.replace
    rw [pairwise_map]
    refine h.disjoint.imp_of_mem fun {x y} hx hy hxy => ?_
    rw [hkey]
    exact (hless x hx).trans hxy
  · obtain ⟨y, hy, rfl⟩ := List.mem_map.mp hx
    split
    · exact hr'
    · exact h.region y hy

theorem remove_insert (t : Tree) (r : VirRegion) : (t.insert r).remove r.vaddr = t.remove r.vaddr := by
  unfold Tree.insert
  split
  · rfl
  · unfold Tree.remove
    rw [filter_append, filter_cons_of_neg (by simp), ← filter_append, takeWhile_append_dropWhile]

end Tree

/-! ## Unmapping -/

section Unmapping

variable {r r' : VirRegion} {t t' : Tree} {offset len : Nat}

theorem area_of_freeSlots (is : List Nat) (h : r.freeSlots is = some r') :
    r'.vaddr = r.vaddr ∧ r'.length = r.length := by
  induction is generalizing r with
  | nil =>
    cases h
    exact ⟨rfl, rfl⟩
  | cons i is ih =>
    rw [VirRegion.freeSlots] at h
    split at h
    · cases h
    · exact ih h
    · have hrest := ih h
      exact hrest

theorem area_of_shrinkStart (h : r.shrinkStart len = some r') :
    r'.vaddr = add r.vaddr len ∧ r'.length = r.length - len := by
  unfold VirRegion.shrinkStart at h
  obtain ⟨q, hq, rfl⟩ := map_eq_some_iff.mp h
  unfold VirRegion.shiftOffsets at hq
  split at hq
  · cases hq
    split <;> exact ⟨rfl, rfl⟩
  · cases hq

theorem Tree.Placed.shrink {r₁ : VirRegion} (ht : t.Placed) (hr : r ∈ t) (hvaddr : r₁.vaddr = r.vaddr)
    (hlength : r₁.length = r.length) (hoffset : offset < r.length) (hlen : len < addrSize)
    (hpages : len % vmPageSize = 0) (hfits : add offset len ≤ r.length)
    (h : t.shrink r r₁ offset len = some (t', r')) :
    (if r'.length = 0 then t'.remove r'.vaddr else t').Placed := by
  have hplaced := ht.region r hr
  obtain ⟨hpos, hwhole, halign, htop⟩ := hplaced
  have hsize : vmDatatop < addrSize := by decide
  have hr1 : r₁.Placed := by
    unfold VirRegion.stop at htop
    refine ⟨hlength ▸ hpos, hlength ▸ hwhole, hvaddr ▸ halign, ?_⟩
    unfold VirRegion.stop
    rwa [hvaddr, hlength]
  unfold Tree.shrink at h
  split at h
  · next hzero =>
    -- from the start
    obtain ⟨q, hstart, hq⟩ := map_eq_some_iff.mp h
    cases hq
    obtain ⟨hv, hl⟩ := area_of_shrinkStart hstart
    have hless : len ≤ r.length := by
      rw [hzero] at hfits
      rwa [add_eq (by omega), Nat.zero_add] at hfits
    unfold VirRegion.stop at htop
    rw [hvaddr, add_eq (by omega)] at hv
    rw [hlength] at hl
    split
    · rw [Tree.remove_insert]
      exact (ht.remove r.vaddr).remove r'.vaddr
    refine (ht.remove r.vaddr).insert ⟨by omega, ?_, ?_, ?_⟩ fun x hx => ?_
    · unfold vmPageSize at *
      omega
    · unfold vmPageSize at *
      omega
    · unfold VirRegion.stop
      omega
    obtain ⟨hx, hne⟩ := mem_filter.mp hx
    have hxr : x ≠ r := fun heq => by simp [heq] at hne
    have hap := (ht.apart hx hr).resolve_left hxr
    unfold VirRegion.stop at *
    omega
  · next hzero =>
    split at h
    · next hend =>
      split at h
      · next hle =>
        cases h
        have hl : (r₁.shrinkEnd len).length = r.length - len := by
          rw [← hlength]
          rfl
        have hv : (r₁.shrinkEnd len).vaddr = r.vaddr := hvaddr
        have hleft : r.length - len = offset := by
          unfold add addrSize at *
          unfold VirRegion.stop at htop
          omega
        rw [if_neg (by omega)]
        refine ht.replace hr ⟨by omega, ?_, by rw [hv]; exact halign, ?_⟩ hv (by omega)
        · unfold vmPageSize at *
          omega
        · unfold VirRegion.stop at *
          omega
      · cases h
    · cases h
      rw [if_neg (by omega)]
      exact ht.replace hr hr1 hvaddr hlength.le

theorem vaddr_le_of_mapLookup {v : Nat} (ht : t.Placed) (h : t.mapLookup v = some r) :
    r ∈ t ∧ v - r.vaddr < r.length := by
  have hsize : vmDatatop < addrSize := by decide
  unfold Tree.mapLookup at h
  split at h
  · cases h
  next x hx =>
  obtain ⟨hmem, hle⟩ := mem_filter.mp (mem_of_getLast? hx)
  split at h
  · next hlt =>
    cases h
    have htop := (ht.region r hmem).top
    unfold VirRegion.stop at htop
    rw [decide_eq_true_eq] at hle
    rw [add_eq (by omega)] at hlt
    exact ⟨hmem, by omega⟩
  · cases h

theorem placed_mapUnmapRegion {p p' : Process} {alloc : Nat → Bool} {e : Status} (ht : p.regions.Placed)
    (hr : r ∈ p.regions) (hoffset : offset < r.length) (hlen : len < addrSize)
    (h : p.mapUnmapRegion alloc r offset len = some (e, p')) : p'.regions.Placed := by
  unfold Process.mapUnmapRegion at h
  split at h
  · cases h
    exact ht
  next hok =>
  split at h
  · cases h
  next r1 hfree =>
  split at h
  · cases h
  · next t' r' hshrink =>
    obtain ⟨hvaddr, hlength⟩ := area_of_freeSlots _ hfree
    rw [Process.regions_of_ptWritemap h]
    exact ht.shrink hr hvaddr hlength hoffset hlen (by omega) (by omega) hshrink

theorem len_lt {req : Request} (hr : r.Placed) : req.len r < addrSize := by
  cases req with
  | munmap addr len =>
    unfold Request.len roundup
    have : (0 : Int) < addrSize := by decide
    have hlt := Int.emod_lt_of_pos ((Int.bmod (len + (vmPageSize - 1)) addrSize).tdiv vmPageSize * vmPageSize) this
    dsimp only
    omega
  | whole addr =>
    have htop := hr.top
    have hsize : vmDatatop < addrSize := by decide
    unfold VirRegion.stop at htop
    unfold Request.len
    dsimp only
    omega

theorem placed_doMunmap {p p' : Process} {alloc : Nat → Bool} {req : Request} {e : Status}
    (ht : p.regions.Placed) (h : p.doMunmap alloc req = some (e, p')) : p'.regions.Placed := by
  unfold Process.doMunmap at h
  split at h
  · cases h
    exact ht
  next r hlookup =>
  obtain ⟨hr, hoffset⟩ := vaddr_le_of_mapLookup ht hlookup
  split at h
  · cases h
    exact ht
  dsimp only at h
  split at h
  · cases h
    exact ht
  split at h
  · next p1 hunmap =>
    cases h
    exact placed_mapUnmapRegion ht hr hoffset (len_lt (ht.region r hr)) hunmap
  · cases h

end Unmapping

/-! ## Runs -/

/-- The regions of a process, and `vm_region_top`. -/
structure Space where
  proc : Process
  top : Nat

/-- `map_page_region`. `made`: what the new region has in its slots, and whether it is writable;
none if it cannot be made. -/
def Space.mapPageRegion (s : Space) (place : Place) (length : Nat)
    (made : Option (List (Option PhysRegion) × Bool)) : Option Space :=
  if length % vmPageSize ≠ 0 then none
  else
    match s.proc.regions.regionFindSlot s.top place.minv place.maxv length with
    | none => none
    | some none => some s
    | some (some startv) =>
      let s := { s with top := add startv length }
      match made with
      | none => some s
      | some (slots, writable) =>
        some { s with proc := { s.proc with regions := s.proc.regions.insert ⟨startv, length, slots, writable⟩ } }

inductive Event
  | map (place : Place) (length : Nat) (made : Option (List (Option PhysRegion) × Bool))
  | unmap (alloc : Nat → Bool) (req : Request)

namespace Space

def step (s : Space) : Event → Option Space
  | .map place length made => s.mapPageRegion place length made
  | .unmap alloc req => (s.proc.doMunmap alloc req).map fun res => { s with proc := res.2 }

/-- What the callers pass to `map_page_region`: whole pages, in 32 bits. -/
structure Passed (place : Place) (length : Nat) : Prop where
  pages : length % vmPageSize = 0
  size : length < addrSize
  addr : place.minv < addrSize

/-- The rounded length has not wrapped around to 0, and the search is clear. -/
structure Careful (s : Space) (place : Place) (length : Nat) : Prop where
  pos : 0 < length
  clear : s.proc.regions.Clear s.top length place

/-- The calls of `map_page_region` are careful, and give addresses of pages; `do_munmap` gets any.
-/
def Allows (s : Space) : Event → Prop
  | .map place length _ => Passed place length ∧ s.Careful place length ∧ place.minv % vmPageSize = 0
  | .unmap _ _ => True

/-- What can be reached by such calls. -/
inductive Reach (s₀ : Space) : Space → Prop
  | start : Reach s₀ s₀
  | step {s s' : Space} {e : Event} (h : Reach s₀ s) (hallowed : s.Allows e) (hstep : s.step e = some s') :
      Reach s₀ s'

variable {s s' s₀ : Space} {place : Place} {length : Nat}

theorem findsSlot (ht : s.proc.regions.Placed) (hpassed : Passed place length) (hcareful : s.Careful place length) :
    s.proc.regions.FindsSlot s.top length place :=
  findsSlot_of_clear ht hcareful.pos hpassed.pages hpassed.size hpassed.addr hcareful.clear

theorem aligned_freeVRange {minv maxv start stop v : Nat} (hmaxv : maxv % vmPageSize = 0)
    (hstop : stop % vmPageSize = 0) (hlength : length % vmPageSize = 0)
    (h : freeVRange minv maxv length start stop = some v) : v % vmPageSize = 0 := by
  have htry (a b : Nat) (hb : b % vmPageSize = 0) (h : freeVRangeTry minv maxv length a b = some v) :
      v % vmPageSize = 0 := by
    unfold freeVRangeTry at h
    dsimp only at h
    split at h
    · cases h
      unfold vmPageSize at *
      omega
    · cases h
  unfold freeVRange at h
  obtain h | ⟨-, h⟩ := or_eq_some_iff.mp h
  · refine htry _ _ ?_ h
    unfold sub vmPageSize addrSize at *
    omega
  · exact htry _ _ hstop h

theorem aligned_searchGaps {minv maxv top v : Nat} {ds : List VirRegion} (hmaxv : maxv % vmPageSize = 0)
    (htop : top % vmPageSize = 0) (hlength : length % vmPageSize = 0)
    (hds : ∀ r ∈ ds, r.vaddr % vmPageSize = 0) (h : searchGaps minv maxv length top ds = some v) :
    v % vmPageSize = 0 := by
  induction ds generalizing top with
  | nil => exact aligned_freeVRange hmaxv htop hlength h
  | cons vr rest ih =>
    obtain h | ⟨-, h⟩ := or_eq_some_iff.mp h
    · exact aligned_freeVRange hmaxv htop hlength h
    · exact ih (hds vr (.head _)) (fun r hr => hds r (.tail _ hr)) h

theorem aligned_findSlotBelow {t : Tree} (ht : t.Placed) {minv maxv v : Nat} (hmaxv : maxv % vmPageSize = 0)
    (hpos : 0 < maxv) (hlength : length % vmPageSize = 0) (h : t.findSlotBelow minv maxv length = some (some v)) :
    v % vmPageSize = 0 := by
  obtain ⟨hds, -, htop, -⟩ := descending_downFrom ht hpos
  unfold Tree.findSlotBelow at h
  split at h
  · cases h
  split at h
  · cases h
  split at h
  · cases h
  next v' hsearch =>
  split at h
  · cases h
    exact aligned_searchGaps hmaxv htop hlength (fun r hr => (hds.placed r hr).aligned) hsearch
  · cases h

theorem aligned_regionFindSlotRange {t : Tree} (ht : t.Placed) {maxv v : Nat} (hmaxv : maxv % vmPageSize = 0)
    (hlength : length % vmPageSize = 0) (hsize : length < addrSize)
    (h : t.regionFindSlotRange 0 maxv length = some (some v)) : v % vmPageSize = 0 := by
  unfold Tree.regionFindSlotRange at h
  split at h
  · cases h
  next hpos =>
  have hadd : add 0 length = length := (add_eq (by omega)).trans (Nat.zero_add _)
  rw [hadd] at h
  split at h
  · split at h
    · cases h
    · exact aligned_findSlotBelow ht hlength (Nat.pos_of_ne_zero hpos) hlength h
  · next hne => exact aligned_findSlotBelow ht hmaxv (Nat.pos_of_ne_zero hne) hlength h

theorem aligned_anywhere {t : Tree} (ht : t.Placed) {hint v : Nat} (hhint : hint % vmPageSize = 0)
    (hlength : length % vmPageSize = 0) (hsize : length < addrSize)
    (h : t.regionFindSlot hint 0 vmDatatop length = some (some v)) : v % vmPageSize = 0 := by
  unfold Tree.regionFindSlot at h
  split at h
  · split at h
    · cases h
    · next v' hfirst =>
      cases h
      exact aligned_regionFindSlotRange ht hhint hlength hsize hfirst
    · exact aligned_regionFindSlotRange ht (by decide) hlength hsize h
  · exact aligned_regionFindSlotRange ht (by decide) hlength hsize h

/-- The regions are in order, and the hint is the address of a page. -/
structure Ok (s : Space) : Prop where
  placed : s.proc.regions.Placed
  top : s.top % vmPageSize = 0

theorem placed_of_found (h : s.Ok) (hpassed : Passed place length) (hcareful : s.Careful place length)
    (halign : place.minv % vmPageSize = 0) {v : Nat}
    (hres : s.proc.regions.regionFindSlot s.top place.minv place.maxv length = some (some v))
    (hfree : s.proc.regions.Free place.minv (place.limit length) length v) :
    v % vmPageSize = 0 ∧ v + length ≤ vmDatatop := by
  cases place with
  | exactly addr =>
    have habove : addr ≤ v := hfree.above
    have hbelow : v + length ≤ addr + length := hfree.below
    obtain rfl : v = addr := by omega
    exact ⟨halign, hcareful.clear.1 hfree⟩
  | anywhere => exact ⟨aligned_anywhere h.placed h.top hpassed.pages hpassed.size hres, hfree.below⟩

theorem Ok.mapPageRegion (h : s.Ok) (hpassed : Passed place length) (hcareful : s.Careful place length)
    (halign : place.minv % vmPageSize = 0) {made : Option (List (Option PhysRegion) × Bool)}
    (hmap : s.mapPageRegion place length made = some s') : s'.Ok := by
  obtain ⟨res, hres, hfound⟩ := findsSlot h.placed hpassed hcareful
  unfold Space.mapPageRegion at hmap
  rw [if_neg (not_not.mpr hpassed.pages), hres] at hmap
  cases res with
  | none =>
    cases hmap
    exact h
  | some v =>
    obtain ⟨hv, htop⟩ := placed_of_found h hpassed hcareful halign hres hfound
    have hhint : add v length % vmPageSize = 0 := by
      have hpages := hpassed.pages
      unfold add vmPageSize addrSize at *
      omega
    cases made with
    | none =>
      cases hmap
      exact ⟨h.placed, hhint⟩
    | some new =>
      cases hmap
      exact ⟨h.placed.insert ⟨hcareful.pos, hpassed.pages, hv, htop⟩ fun x hx => hfound.apart x hx, hhint⟩

theorem Ok.step (h : s.Ok) {e : Event} (hallowed : s.Allows e) (hstep : s.step e = some s') : s'.Ok := by
  cases e with
  | map place length made => exact h.mapPageRegion hallowed.1 hallowed.2.1 hallowed.2.2 hstep
  | unmap alloc req =>
    obtain ⟨⟨e, p⟩, hunmap, rfl⟩ := map_eq_some_iff.mp hstep
    exact ⟨placed_doMunmap h.placed hunmap, h.top⟩

theorem Reach.ok (h₀ : s₀.Ok) (h : Reach s₀ s) : s.Ok := by
  induction h with
  | start => exact h₀
  | step _ hallowed hstep ih => exact ih.step hallowed hstep

end Space

end HardenedMinix.RegionTree
