import HardenedMinix.Vm.RegionTree

/-!
# Finding a place for a region

The gaps between the regions are tried from the top down, each first with guard pages and then as
a whole. `none` is a failed assertion, `some none` is `SLOT_FAIL`.
-/

open List Option

namespace HardenedMinix.RegionTree

/-! ## The code -/

def freeVRangeTry (minv maxv length rangestart rangeend : Nat) : Option Nat :=
  let frstart := max rangestart minv
  let frend := min rangeend maxv
  if frstart < frend ∧ length ≤ frend - frstart then some (frend - length) else none

def freeVRange (minv maxv length start stop : Nat) : Option Nat :=
  (freeVRangeTry minv maxv length (add start vmPageSize) (sub stop vmPageSize)).or
    (freeVRangeTry minv maxv length start stop)

/-- The gap below `top` and those below each of the regions, which come from the top down. -/
def searchGaps (minv maxv length : Nat) : Nat → List VirRegion → Option Nat
  | top, [] => freeVRange minv maxv length 0 top
  | top, vr :: rest =>
    (freeVRange minv maxv length (add vr.vaddr vr.length) top).or
      (searchGaps minv maxv length vr.vaddr rest)

/-- The end of the first gap: the region that begins at or after `maxv`, or the end of the memory of
the process. -/
def Tree.gapTop (t : Tree) (maxv : Nat) : Nat :=
  match t.onFrom maxv with
  | [] => vmDatatop
  | r :: _ => r.vaddr

/-- `region_find_slot_range`, with `maxv` not 0. -/
def Tree.findSlotBelow (t : Tree) (minv maxv length : Nat) : Option (Option Nat) :=
  if length % vmPageSize ≠ 0 ∨ maxv ≤ minv then none
  else if maxv < add minv length then some none
  else
    match searchGaps minv maxv length (t.gapTop maxv) (t.downFrom maxv) with
    | none => some none
    | some v => if minv ≤ v ∧ v < maxv ∧ add v length ≤ maxv then some (some v) else none

def Tree.regionFindSlotRange (t : Tree) (minv maxv length : Nat) : Option (Option Nat) :=
  if length = 0 then none
  else if maxv = 0 then
    if add minv length ≤ minv then some none else t.findSlotBelow minv (add minv length) length
  else t.findSlotBelow minv maxv length

/-- `region_find_slot`; `hint` is `vm_region_top`. -/
def Tree.regionFindSlot (t : Tree) (hint minv maxv length : Nat) : Option (Option Nat) :=
  if maxv ≠ 0 ∧ hint < maxv ∧ minv ≤ hint then
    match t.regionFindSlotRange minv hint length with
    | none => none
    | some (some v) => some (some v)
    | some none => t.regionFindSlotRange minv maxv length
  else t.regionFindSlotRange minv maxv length

/-- Where a region is asked for: at an address, with a `maxv` of 0, or anywhere below
`VM_DATATOP`. -/
inductive Place
  | exactly (addr : Nat)
  | anywhere
  deriving DecidableEq, Repr

def Place.minv : Place → Nat
  | .exactly addr => addr
  | .anywhere => 0

def Place.maxv : Place → Nat
  | .exactly _ => 0
  | .anywhere => vmDatatop

/-! ## What the search should find -/

/-- The addresses from `v` on are in the range and in no region. -/
structure Tree.Free (t : Tree) (minv maxv length v : Nat) : Prop where
  above : minv ≤ v
  below : v + length ≤ maxv
  apart : ∀ r ∈ t, v + length ≤ r.vaddr ∨ r.stop ≤ v

def Place.limit (length : Nat) : Place → Nat
  | .exactly addr => addr + length
  | .anywhere => vmDatatop

/-- The search returns a place that is free if there is one, and `SLOT_FAIL` otherwise. -/
def Tree.FindsSlot (t : Tree) (hint length : Nat) (place : Place) : Prop :=
  ∃ res, t.regionFindSlot hint place.minv place.maxv length = some res ∧
    match res with
    | some v => t.Free place.minv (place.limit length) length v
    | none => ∀ v, ¬ t.Free place.minv (place.limit length) length v

/-- What the search relies on: whole pages, and the memory of the process. -/
structure VirRegion.Placed (r : VirRegion) : Prop where
  pos : 0 < r.length
  pages : r.length % vmPageSize = 0
  aligned : r.vaddr % vmPageSize = 0
  top : r.stop ≤ vmDatatop

/-- The regions are in order, and each has its place. -/
structure Tree.Placed (t : Tree) : Prop where
  disjoint : t.Disjoint
  region : ∀ r ∈ t, r.Placed

/-- A guard page below address 0 wraps around to the end of the address space, and the range fits in
between. -/
def Tree.Wraps (t : Tree) (minv maxv length : Nat) : Prop :=
  (∃ r ∈ t, r.vaddr = 0) ∧ max vmPageSize minv + length ≤ min (addrSize - vmPageSize) maxv

/-- Where a guard page below address 0 would be found there is a free place, too; an address asked
for and free is in memory. -/
def Tree.Clear (t : Tree) (hint length : Nat) : Place → Prop
  | .exactly addr =>
    (t.Free addr (addr + length) length addr → addr + length ≤ vmDatatop) ∧
      (t.Wraps addr (addr + length) length → t.Free addr (addr + length) length addr)
  | .anywhere => ∀ maxv, maxv = vmDatatop ∨ maxv = hint ∧ 0 < hint ∧ hint < vmDatatop →
      t.Wraps 0 maxv length → ∃ v, t.Free 0 maxv length v

/-! ## A gap -/

section Gap

variable {minv maxv length start stop top v : Nat}

theorem freeVRangeTry_some (hlength : 0 < length) :
    freeVRangeTry minv maxv length start stop = some v ↔
      max start minv + length ≤ min stop maxv ∧ v = min stop maxv - length := by
  unfold freeVRangeTry
  dsimp only
  split
  · rw [some_inj]
    omega
  · refine iff_of_false (fun h => ?_) fun h => ?_
    · cases h
    · omega

theorem freeVRangeTry_none (hlength : 0 < length) :
    freeVRangeTry minv maxv length start stop = none ↔ ¬ max start minv + length ≤ min stop maxv := by
  unfold freeVRangeTry
  dsimp only
  split
  · refine iff_of_false (fun h => ?_) fun h => ?_
    · cases h
    · omega
  · refine iff_of_true rfl ?_
    omega

theorem freeVRange_spec (minv maxv start : Nat) (hlength : 0 < length) (hstart : start + vmPageSize < addrSize)
    (hpage : vmPageSize ≤ stop) (hstop : stop < addrSize) :
    (max start minv + length ≤ min stop maxv → ∃ v, freeVRange minv maxv length start stop = some v ∧
      max start minv ≤ v ∧ v + length ≤ min stop maxv) ∧
    (¬ max start minv + length ≤ min stop maxv → freeVRange minv maxv length start stop = none) := by
  unfold freeVRange
  rw [add_eq hstart, sub_eq hpage hstop]
  cases hguard : freeVRangeTry minv maxv length (start + vmPageSize) (stop - vmPageSize) with
  | some v =>
    obtain ⟨hle, rfl⟩ := (freeVRangeTry_some hlength).mp hguard
    exact ⟨fun _ => ⟨_, rfl, by omega, by omega⟩, fun hno => by omega⟩
  | none =>
    rw [none_or]
    refine ⟨fun hle => ⟨min stop maxv - length, (freeVRangeTry_some hlength).mpr ⟨hle, rfl⟩, by omega, by omega⟩,
      (freeVRangeTry_none hlength).mpr⟩

theorem freeVRange_zero (hlength : 0 < length) : freeVRange minv maxv length 0 0 =
      if max vmPageSize minv + length ≤ min (addrSize - vmPageSize) maxv then
        some (min (addrSize - vmPageSize) maxv - length)
      else none := by
  have hadd : add 0 vmPageSize = vmPageSize := (add_eq (by decide)).trans (Nat.zero_add _)
  have hsub : sub 0 vmPageSize = addrSize - vmPageSize := by
    unfold sub
    rw [Nat.zero_add]
    exact Nat.mod_eq_of_lt (by decide)
  unfold freeVRange
  rw [hadd, hsub]
  split
  · next hle =>
    rw [(freeVRangeTry_some hlength).mpr ⟨hle, rfl⟩]
    rfl
  · next hno =>
    rw [(freeVRangeTry_none hlength).mpr hno, none_or]
    exact (freeVRangeTry_none hlength).mpr (by omega)

end Gap

/-! ## The gaps -/

section Gaps

variable {t : Tree} {minv maxv length top hint v : Nat} {ds : List VirRegion}

/-- Regions below `top`, from the top down. -/
structure Descending (top : Nat) (ds : List VirRegion) : Prop where
  placed : ∀ r ∈ ds, r.Placed
  below : ∀ r ∈ ds, r.stop ≤ top
  down : ds.Pairwise fun r r' => r'.stop ≤ r.vaddr

theorem Descending.tail {vr : VirRegion} (h : Descending top (vr :: ds)) : Descending vr.vaddr ds :=
  ⟨fun r hr => h.placed r (.tail _ hr), (pairwise_cons.mp h.down).1, (pairwise_cons.mp h.down).2⟩

/-- The search from `top` gives a free place if there is one; the guard page below address 0 may
make one up. -/
structure Searched (minv maxv length : Nat) (ds : List VirRegion) (top : Nat) (res : Option Nat) : Prop where
  found : (∃ v, Tree.Free ds minv (min maxv top) length v) →
    ∃ v, res = some v ∧ Tree.Free ds minv (min maxv top) length v
  wraps : (¬ ∃ v, Tree.Free ds minv (min maxv top) length v) → Tree.Wraps ds minv maxv length →
    res = some (min (addrSize - vmPageSize) maxv - length)
  fails : (¬ ∃ v, Tree.Free ds minv (min maxv top) length v) → ¬ Tree.Wraps ds minv maxv length → res = none

theorem Searched.cons {vr : VirRegion} {res : Option Nat} (h : Searched minv maxv length ds vr.vaddr res)
    (htop : vr.stop ≤ top) (hzero : vr.vaddr ≠ 0)
    (hsmall : ¬ max vr.stop minv + length ≤ min top maxv) :
    Searched minv maxv length (vr :: ds) top res := by
  have hle : vr.vaddr ≤ vr.stop := Nat.le_add_right ..
  have hfree (v : Nat) : Tree.Free (vr :: ds) minv (min maxv top) length v ↔
      Tree.Free ds minv (min maxv vr.vaddr) length v := by
    constructor
    · rintro ⟨habove, hbelow, hapart⟩
      refine ⟨habove, ?_, fun r hr => hapart r (.tail _ hr)⟩
      have hvr := hapart vr (.head _)
      omega
    rintro ⟨habove, hbelow, hapart⟩
    refine ⟨habove, by omega, fun r hr => ?_⟩
    obtain rfl | hr := mem_cons.mp hr
    · exact .inl (by omega)
    · exact hapart r hr
  have hwraps : Tree.Wraps (vr :: ds) minv maxv length ↔ Tree.Wraps ds minv maxv length := by
    refine and_congr_left fun _ => ⟨fun hex => ?_, fun hex => ?_⟩
    · obtain ⟨r, hr, hr0⟩ := hex
      obtain rfl | hr := mem_cons.mp hr
      · exact absurd hr0 hzero
      · exact ⟨r, hr, hr0⟩
    · obtain ⟨r, hr, hr0⟩ := hex
      exact ⟨r, .tail _ hr, hr0⟩
  refine ⟨fun hex => ?_, fun hno hw => h.wraps ?_ (hwraps.mp hw), fun hno hw => h.fails ?_ fun hw' => hw (hwraps.mpr hw')⟩
  · simp only [hfree] at hex ⊢
    exact h.found hex
  · simpa only [hfree] using hno
  · simpa only [hfree] using hno

theorem searched_zero {vr : VirRegion} (hlength : 0 < length) (hzero : vr.vaddr = 0)
    (hsmall : ¬ max vr.stop minv + length ≤ min top maxv) :
    Searched minv maxv length [vr] top (freeVRange minv maxv length 0 0) := by
  have hno : ¬ ∃ v, Tree.Free [vr] minv (min maxv top) length v := by
    rintro ⟨v, habove, hbelow, hapart⟩
    have hvr := hapart vr (.head _)
    omega
  rw [freeVRange_zero hlength]
  refine ⟨fun h => absurd h hno, fun _ hw => if_pos hw.2, fun _ hw => if_neg fun hle => hw ⟨?_, hle⟩⟩
  exact ⟨vr, .head _, hzero⟩

theorem searchGaps_spec (minv maxv : Nat) (hlength : 0 < length) (hds : Descending top ds) (htop : top ≤ vmDatatop)
    (halign : top % vmPageSize = 0) (hpos : 0 < top) :
    Searched minv maxv length ds top (searchGaps minv maxv length top ds) := by
  have hsize : vmDatatop + vmPageSize < addrSize := by decide
  induction ds generalizing top with
  | nil =>
    have hpage : vmPageSize ≤ top := Nat.le_of_dvd hpos (Nat.dvd_of_mod_eq_zero halign)
    obtain ⟨hfind, hfail⟩ := freeVRange_spec minv maxv 0 hlength (by omega)
      hpage (by omega)
    refine ⟨fun hfree => ?_, fun _ hw => ?_, fun hno _ => hfail fun hle => hno ?_⟩
    · obtain ⟨v, habove, hbelow, -⟩ := hfree
      obtain ⟨v', hv', hlo, hhi⟩ := hfind (by omega)
      exact ⟨v', hv', by omega, by omega, by simp⟩
    · obtain ⟨⟨r, hr, -⟩, -⟩ := hw
      cases hr
    · exact ⟨max 0 minv, by omega, by omega, by simp⟩
  | cons vr rest ih =>
    have hvr := hds.placed vr (.head _)
    have hbelow := hds.below vr (.head _)
    have hstop : add vr.vaddr vr.length = vr.stop := by
      have hle := hvr.top
      unfold VirRegion.stop at *
      exact add_eq (by omega)
    have hpage : vmPageSize ≤ top := Nat.le_of_dvd hpos (Nat.dvd_of_mod_eq_zero halign)
    obtain ⟨hfind, hfail⟩ := freeVRange_spec minv maxv vr.stop hlength
      (by have := hvr.top; omega) hpage (by omega)
    rw [searchGaps, hstop]
    by_cases hgap : max vr.stop minv + length ≤ min top maxv
    · obtain ⟨v, hv, hlo, hhi⟩ := hfind hgap
      rw [hv, some_or]
      have hfree : Tree.Free (vr :: rest) minv (min maxv top) length v := by
        refine ⟨by omega, by omega, fun r hr => .inr ?_⟩
        obtain rfl | hr := mem_cons.mp hr
        · omega
        · have hle := (pairwise_cons.mp hds.down).1 r hr
          have : vr.vaddr ≤ vr.stop := Nat.le_add_right ..
          omega
      exact ⟨fun _ => ⟨v, rfl, hfree⟩, fun hno _ => absurd ⟨v, hfree⟩ hno, fun hno _ => absurd ⟨v, hfree⟩ hno⟩
    rw [hfail hgap, none_or]
    by_cases hzero : vr.vaddr = 0
    · have hnil : rest = [] := by
        rw [eq_nil_iff_forall_not_mem]
        intro r hr
        have hle := (pairwise_cons.mp hds.down).1 r hr
        have hrpos := (hds.placed r (.tail _ hr)).pos
        unfold VirRegion.stop at hle
        omega
      subst hnil
      rw [searchGaps, hzero]
      exact searched_zero hlength hzero hgap
    · have hle : vr.vaddr ≤ vr.stop := Nat.le_add_right ..
      exact (ih hds.tail (by omega) hvr.aligned (Nat.pos_of_ne_zero hzero)).cons hbelow hzero hgap

/-! ## The search -/

theorem mem_downFrom_iff (ht : t.Placed) {r : VirRegion} {key : Nat} :
    r ∈ t.downFrom key ↔ r ∈ t ∧ r.vaddr < key := by
  have hpos : ∀ r ∈ t, 0 < r.length := fun r hr => (ht.region r hr).pos
  have hsplit := t.takeWhile_append_onFrom key
  unfold Tree.downFrom
  rw [mem_reverse]
  constructor
  · intro hr
    exact ⟨(takeWhile_sublist _).subset hr, by simpa using mem_takeWhile_imp hr⟩
  rintro ⟨hr, hlt⟩
  rw [← hsplit, mem_append] at hr
  refine hr.resolve_right fun hon => ?_
  have hge := ((Tree.mem_onFrom_iff hpos ht.disjoint).mp hon).2
  omega

theorem descending_downFrom (ht : t.Placed) (hmaxv : 0 < maxv) :
    Descending (t.gapTop maxv) (t.downFrom maxv) ∧ t.gapTop maxv ≤ vmDatatop ∧
      t.gapTop maxv % vmPageSize = 0 ∧ 0 < t.gapTop maxv ∧
      min maxv (t.gapTop maxv) = min maxv vmDatatop := by
  have hsplit := t.takeWhile_append_onFrom maxv
  have hdown : (t.downFrom maxv).Pairwise fun r r' => r'.stop ≤ r.vaddr := by
    unfold Tree.downFrom
    rw [pairwise_reverse]
    exact ht.disjoint.sublist (takeWhile_sublist _)
  have hplaced : ∀ r ∈ t.downFrom maxv, r.Placed := fun r hr =>
    ht.region r ((mem_downFrom_iff ht).mp hr).1
  unfold Tree.gapTop
  cases hon : t.onFrom maxv with
  | nil =>
    exact ⟨⟨hplaced, fun r hr => (hplaced r hr).top, hdown⟩, le_rfl, by decide, by decide, rfl⟩
  | cons r' rest =>
    have hpos : ∀ r ∈ t, 0 < r.length := fun r hr => (ht.region r hr).pos
    obtain ⟨hmem, hge⟩ := (Tree.mem_onFrom_iff hpos ht.disjoint).mp (hon ▸ mem_cons_self)
    have hr' := ht.region r' hmem
    have htop := hr'.top
    have hle : r'.vaddr ≤ r'.stop := Nat.le_add_right ..
    dsimp only
    refine ⟨⟨hplaced, fun r hr => ?_, hdown⟩, by omega, hr'.aligned, by omega, by omega⟩
    have hd := ht.disjoint
    unfold Tree.Disjoint at hd
    rw [← hsplit, hon, pairwise_append] at hd
    unfold Tree.downFrom at hr
    exact hd.2.2 r (mem_reverse.mp hr) r' (.head _)

theorem free_downFrom_iff (ht : t.Placed) :
    Tree.Free (t.downFrom maxv) minv (min maxv vmDatatop) length v ↔ t.Free minv (min maxv vmDatatop) length v := by
  constructor
  · rintro ⟨habove, hbelow, hapart⟩
    refine ⟨habove, hbelow, fun r hr => ?_⟩
    by_cases hlt : r.vaddr < maxv
    · exact hapart r ((mem_downFrom_iff ht).mpr ⟨hr, hlt⟩)
    · exact .inl (by omega)
  · rintro ⟨habove, hbelow, hapart⟩
    exact ⟨habove, hbelow, fun r hr => hapart r ((mem_downFrom_iff ht).mp hr).1⟩

theorem wraps_downFrom_iff (ht : t.Placed) (hmaxv : 0 < maxv) :
    Tree.Wraps (t.downFrom maxv) minv maxv length ↔ t.Wraps minv maxv length := by
  refine and_congr_left fun _ => ⟨fun hex => ?_, fun hex => ?_⟩
  · obtain ⟨r, hr, hzero⟩ := hex
    exact ⟨r, ((mem_downFrom_iff ht).mp hr).1, hzero⟩
  · obtain ⟨r, hr, hzero⟩ := hex
    exact ⟨r, (mem_downFrom_iff ht).mpr ⟨hr, by omega⟩, hzero⟩

theorem findSlotBelow_spec (ht : t.Placed) (hlength : 0 < length) (hpages : length % vmPageSize = 0)
    (hlt : minv < maxv) (hmaxv : maxv < addrSize) :
    ∃ res, t.findSlotBelow minv maxv length = some res ∧
      ((∃ v, t.Free minv (min maxv vmDatatop) length v) →
        ∃ v, res = some v ∧ t.Free minv (min maxv vmDatatop) length v) ∧
      ((¬ ∃ v, t.Free minv (min maxv vmDatatop) length v) → ¬ t.Wraps minv maxv length → res = none) := by
  obtain ⟨hds, htop, halign, hpos, hmin⟩ := descending_downFrom ht (Nat.zero_lt_of_lt hlt)
  have hsearch := searchGaps_spec minv maxv hlength hds htop halign hpos
  obtain ⟨hfound, hwraps, hfails⟩ := hsearch
  rw [hmin] at hfound hwraps hfails
  simp only [free_downFrom_iff ht, wraps_downFrom_iff ht (Nat.zero_lt_of_lt hlt)] at hfound hwraps hfails
  have hadd : add minv length ≤ minv + length := Nat.mod_le ..
  unfold Tree.findSlotBelow
  rw [if_neg (by omega)]
  by_cases hshort : maxv < add minv length
  · refine ⟨none, if_pos hshort, fun hex => ?_, fun _ _ => rfl⟩
    obtain ⟨v, habove, hbelow, -⟩ := hex
    omega
  rw [if_neg hshort]
  by_cases hex : ∃ v, t.Free minv (min maxv vmDatatop) length v
  · obtain ⟨v, hv, hfree⟩ := hfound hex
    have habove := hfree.above
    have hbelow := hfree.below
    rw [hv]
    refine ⟨some v, if_pos ⟨by omega, by omega, ?_⟩, fun _ => ⟨v, rfl, hfree⟩, fun hno => absurd hex hno⟩
    rw [add_eq (by omega)]
    omega
  by_cases hw : t.Wraps minv maxv length
  · have hle := hw.2
    rw [hwraps hex hw]
    refine ⟨_, if_pos ⟨by omega, by omega, ?_⟩, fun h => absurd h hex, fun _ h => absurd hw h⟩
    rw [add_eq (by omega)]
    omega
  · rw [hfails hex hw]
    exact ⟨none, rfl, fun h => absurd h hex, fun _ _ => rfl⟩

theorem regionFindSlotRange_below (hlength : 0 < length) (hmaxv : 0 < maxv) :
    t.regionFindSlotRange minv maxv length = t.findSlotBelow minv maxv length := by
  unfold Tree.regionFindSlotRange
  rw [if_neg hlength.ne', if_neg hmaxv.ne']

theorem findsSlot_exactly (ht : t.Placed) {addr : Nat} (hlength : 0 < length)
    (hpages : length % vmPageSize = 0) (haddr : addr < addrSize) (hsize : length < addrSize)
    (hclear : t.Clear hint length (.exactly addr)) : t.FindsSlot hint length (.exactly addr) := by
  obtain ⟨hdata, hguard⟩ := hclear
  have hat (v : Nat) (hv : t.Free addr (addr + length) length v) : v = addr := by
    have habove := hv.above
    have hbelow := hv.below
    omega
  unfold Tree.FindsSlot Tree.regionFindSlot Tree.regionFindSlotRange Place.minv Place.maxv Place.limit
  dsimp only
  rw [if_neg (by simp), if_neg hlength.ne', if_pos rfl]
  by_cases hwrap : addr + length < addrSize
  · rw [add_eq hwrap, if_neg (by omega)]
    obtain ⟨res, hres, hfound, hfails⟩ := findSlotBelow_spec ht hlength hpages (Nat.lt_add_of_pos_right hlength) hwrap
    refine ⟨res, hres, ?_⟩
    by_cases hfree : t.Free addr (addr + length) length addr
    · have hle := hdata hfree
      rw [Nat.min_eq_left hle] at hfound
      obtain ⟨v, rfl, hv⟩ := hfound ⟨addr, hfree⟩
      exact hv
    have hno : ¬ ∃ v, t.Free addr (min (addr + length) vmDatatop) length v := by
      rintro ⟨v, hv⟩
      have hv' : t.Free addr (addr + length) length v := ⟨hv.above, by have := hv.below; omega, hv.apart⟩
      exact hfree (hat v hv' ▸ hv')
    obtain rfl := hfails hno fun hw => hfree (hguard hw)
    exact fun v hv => hfree (hat v hv ▸ hv)
  have hadd : add addr length = addr + length - addrSize := by
    unfold add
    rw [Nat.mod_eq_sub_mod (by omega), Nat.mod_eq_of_lt (by omega)]
  rw [hadd, if_pos (by omega)]
  refine ⟨none, rfl, fun v hv => ?_⟩
  have hle := hdata (hat v hv ▸ hv)
  have : vmDatatop < addrSize := by decide
  omega

theorem regionFindSlotRange_clear (ht : t.Placed) (hlength : 0 < length) (hpages : length % vmPageSize = 0)
    (hmaxv : 0 < maxv) (hle : maxv ≤ vmDatatop)
    (hclear : t.Wraps 0 maxv length → ∃ v, t.Free 0 maxv length v) :
    ∃ res, t.regionFindSlotRange 0 maxv length = some res ∧ match res with
      | some v => t.Free 0 maxv length v
      | none => ∀ v, ¬ t.Free 0 maxv length v := by
  have hsize : vmDatatop < addrSize := by decide
  obtain ⟨res, hres, hfound, hfails⟩ := findSlotBelow_spec ht hlength hpages hmaxv (by omega)
  rw [Nat.min_eq_left hle] at hfound hfails
  refine ⟨res, (regionFindSlotRange_below hlength hmaxv).trans hres, ?_⟩
  by_cases hex : ∃ v, t.Free 0 maxv length v
  · obtain ⟨v, rfl, hv⟩ := hfound hex
    exact hv
  · obtain rfl := hfails hex fun hw => hex (hclear hw)
    exact fun v hv => hex ⟨v, hv⟩

theorem regionFindSlotRange_zero (ht : t.Placed) (hlength : 0 < length) (hpages : length % vmPageSize = 0)
    (hsize : length < addrSize) :
    ∃ res, t.regionFindSlotRange 0 0 length = some res ∧ ∀ v, res = some v → t.Free 0 vmDatatop length v := by
  have hadd : add 0 length = length := (add_eq (by omega)).trans (Nat.zero_add _)
  obtain ⟨res, hres, hfound, hfails⟩ := findSlotBelow_spec ht hlength hpages hlength hsize
  refine ⟨res, ?_, fun v hv => ?_⟩
  · unfold Tree.regionFindSlotRange
    rw [if_neg hlength.ne', if_pos rfl, hadd, if_neg (by omega)]
    exact hres
  by_cases hex : ∃ v, t.Free 0 (min length vmDatatop) length v
  · obtain ⟨v', hv', hfree⟩ := hfound hex
    cases hv.symm.trans hv'
    exact ⟨hfree.above, by have := hfree.below; omega, hfree.apart⟩
  have hno := hfails hex fun hw => by
    have hpage : 0 < vmPageSize := by decide
    have := hw.2
    omega
  rw [hno] at hv
  cases hv

theorem findsSlot_anywhere (ht : t.Placed) (hlength : 0 < length) (hpages : length % vmPageSize = 0)
    (hsize : length < addrSize) (hclear : t.Clear hint length .anywhere) : t.FindsSlot hint length .anywhere := by
  have hdata : 0 < vmDatatop := by decide
  have hlast := regionFindSlotRange_clear ht hlength hpages hdata le_rfl (hclear vmDatatop (.inl rfl))
  unfold Tree.FindsSlot Tree.regionFindSlot Place.minv Place.maxv Place.limit
  dsimp only
  by_cases hhint : hint < vmDatatop
  · rw [if_pos ⟨hdata.ne', hhint, Nat.zero_le _⟩]
    -- what is found below the hint is below VM_DATATOP, too
    have hfirst : ∃ res, t.regionFindSlotRange 0 hint length = some res ∧
        ∀ v, res = some v → t.Free 0 vmDatatop length v := by
      obtain rfl | hpos := Nat.eq_zero_or_pos hint
      · exact regionFindSlotRange_zero ht hlength hpages hsize
      obtain ⟨res, hres, hspec⟩ := regionFindSlotRange_clear ht hlength hpages hpos hhint.le
        (hclear hint (.inr ⟨rfl, hpos, hhint⟩))
      refine ⟨res, hres, fun v hv => ?_⟩
      subst hv
      exact ⟨hspec.above, hspec.below.trans hhint.le, hspec.apart⟩
    obtain ⟨res, hres, hfree⟩ := hfirst
    rw [hres]
    cases res with
    | none => exact hlast
    | some v => exact ⟨some v, rfl, hfree v rfl⟩
  · rw [if_neg fun h => hhint h.2.1]
    exact hlast

theorem findsSlot_of_clear (ht : t.Placed) {place : Place} (hlength : 0 < length)
    (hpages : length % vmPageSize = 0) (hsize : length < addrSize) (haddr : place.minv < addrSize)
    (hclear : t.Clear hint length place) : t.FindsSlot hint length place := by
  cases place with
  | exactly addr => exact findsSlot_exactly ht hlength hpages haddr hsize hclear
  | anywhere => exact findsSlot_anywhere ht hlength hpages hsize hclear

end Gaps

end HardenedMinix.RegionTree
