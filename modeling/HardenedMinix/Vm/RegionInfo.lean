import HardenedMinix.Vm.RegionTree

/-!
# Region enumeration

`get_region_info` tells a caller which parts of the regions are in use, and is called again as
long as the buffer is full. A region without a present page is counted, and nothing is written for
it.
-/

open Function List Option

namespace HardenedMinix.RegionTree

/-! ## The code -/

/-- `struct vm_region_info`. -/
structure RegionInfo where
  vriAddr : Nat
  vriLength : Nat
  vriProt : Nat
  vriFlags : Nat
  deriving DecidableEq, Repr

/-- The buffer, which is static in `do_info`. -/
abbrev Buffer := Nat → RegionInfo

namespace VirRegion

/-- The loop over the pages of a region: the first and the last `phys_region`, if any. -/
def firstLast (r : VirRegion) :
    List Nat → Option PhysRegion → Option PhysRegion → Option (Option PhysRegion × Option PhysRegion)
  | [], ph1, ph2 => some (ph1, ph2)
  | i :: is, ph1, ph2 =>
    match r.physblockGet (i * vmPageSize) with
    | none => none
    | some none => r.firstLast is ph1 ph2
    | some (some ph) => r.firstLast is (ph1.or (some ph)) (some ph)

/-- The entry for a region. Its flags are not written. -/
def report (r : VirRegion) (ph1 ph2 : PhysRegion) (old : RegionInfo) : RegionInfo :=
  { old with
    vriAddr := add r.vaddr ph1.offset
    vriProt := 0
    vriLength := sub (add ph2.offset vmPageSize) ph1.offset }

end VirRegion

/-- The loop of `get_region_info` with the iterator at these nodes, and what is left of `max -
count`. -/
def infoLoop : Nat → List VirRegion → Nat → Nat → Buffer → Option (Nat × Nat × Buffer)
  | 0, _, count, next, vri => some (count, next, vri)
  | _ + 1, [], count, next, vri => some (count, next, vri)
  | n + 1, r :: rest, count, _, vri =>
    let next := add r.vaddr r.length
    match r.firstLast (List.range r.slots) none none with
    | some (some ph1, some ph2) =>
      infoLoop n rest (count + 1) next (update vri count (r.report ph1 ph2 (vri count)))
    | some (none, none) => infoLoop n (r :: rest) (count + 1) next vri -- the iterator stays
    | _ => none -- a failed assertion

/-- The number of entries, the position for the next call, and the buffer. -/
def Tree.getRegionInfo (t : Tree) (vri : Buffer) (max next : Nat) : Option (Nat × Nat × Buffer) :=
  if max = 0 then some (0, next, vri)
  else if t.onFrom next = [] then some (0, next, vri)
  else infoLoop max (t.onFrom next) 0 next vri

/-- The calls of a client, as long as the buffer comes back full. `bufs` is what is in the buffer
before each call. -/
def Tree.enumerate (t : Tree) (max : Nat) (bufs : Nat → Buffer) :
    Nat → Nat → Nat → Option (List RegionInfo)
  | 0, _, _ => none
  | fuel + 1, call, next =>
    match t.getRegionInfo (bufs call) max next with
    | none => none
    | some (count, next', vri) =>
      let reported := (List.range count).map vri
      if count < max then some reported
      else (t.enumerate max bufs fuel (call + 1) next').map (reported ++ ·)

/-! ## What should be reported -/

namespace VirRegion

/-- The first and the last page of the region that is present. -/
def used (r : VirRegion) : Option (Nat × Nat) := do
  let first ← (List.range r.slots).find? fun i => (r.slot i).isSome
  let last ← (List.range r.slots).reverse.find? fun i => (r.slot i).isSome
  return (first, last)

/-- The address and the length of the part in use. -/
def span (r : VirRegion) : Option (Nat × Nat) :=
  r.used.map fun p => (r.vaddr + p.1 * vmPageSize, (p.2 + 1 - p.1) * vmPageSize)

end VirRegion

/-- The calls end, and report the part in use of each region from `start` on, in order, and nothing
else. -/
def Tree.Enumerates (t : Tree) (max : Nat) (bufs : Nat → Buffer) (start : Nat) : Prop :=
  ∃ fuel reported, t.enumerate max bufs fuel 0 start = some reported ∧
    reported.map (fun v => (v.vriAddr, v.vriLength)) = (t.onFrom start).filterMap VirRegion.span

/-! ## One region -/

namespace VirRegion

variable {r : VirRegion}

theorem Ok.firstLast (h : r.Ok) (is : List Nat) (his : ∀ i ∈ is, i < r.slots)
    (ph1 ph2 : Option PhysRegion) : r.firstLast is ph1 ph2 =
      some (ph1.or (is.findSome? r.slot), (is.reverse.findSome? r.slot).or ph2) := by
  induction is generalizing ph1 ph2 with
  | nil => simp [VirRegion.firstLast]
  | cons i is ih =>
    have ih' := ih fun j hj => his j (.tail _ hj)
    simp only [VirRegion.firstLast, h.physblockGet (his i (.head _)), reverse_cons,
      List.findSome?_append]
    cases hs : r.slot i with
    | none => simp [ih', hs]
    | some ph => simp [ih', hs]

theorem find?_slot (is : List Nat) :
    is.findSome? r.slot = (is.find? fun i => (r.slot i).isSome).bind r.slot := by
  induction is with
  | nil => rfl
  | cons i is ih =>
    cases hs : r.slot i with
    | none => simp [hs, ih]
    | some ph => simp [hs]

theorem used_eq_none_iff : r.used = none ↔ ∀ i < r.slots, r.slot i = none := by
  unfold used
  cases hfirst : (List.range r.slots).find? fun i => (r.slot i).isSome with
  | none =>
    refine iff_of_true rfl fun i hi => ?_
    simpa using List.find?_eq_none.mp hfirst i (mem_range.mpr hi)
  | some first =>
    have hmem := mem_of_find?_eq_some hfirst
    have hsome := List.find?_some hfirst
    refine iff_of_false (fun hnone => ?_) fun hall => ?_
    · cases hlast : (List.range r.slots).reverse.find? fun i => (r.slot i).isSome with
      | none =>
        have hnot := List.find?_eq_none.mp hlast first (mem_reverse.mpr hmem)
        exact hnot hsome
      | some last => simp [hlast] at hnone
    · rw [hall first (mem_range.mp hmem)] at hsome
      cases hsome

theorem Ok.firstLast_of_used (h : r.Ok) {first last : Nat} (hused : r.used = some (first, last)) :
    ∃ ph1 ph2, r.firstLast (List.range r.slots) none none = some (some ph1, some ph2) ∧
      ph1.offset = first * vmPageSize ∧ ph2.offset = last * vmPageSize ∧
      first ≤ last ∧ last < r.slots := by
  unfold used at hused
  simp only [bind_eq_bind, bind_eq_some_iff, Option.pure_def, some.injEq, Prod.mk.injEq] at hused
  obtain ⟨first', hfirst, last', hlast, rfl, rfl⟩ := hused
  have hsome1 := List.find?_some (p := fun i => (r.slot i).isSome) hfirst
  have hsome2 := List.find?_some (p := fun i => (r.slot i).isSome) hlast
  obtain ⟨ph1, hph1⟩ := isSome_iff_exists.mp hsome1
  obtain ⟨ph2, hph2⟩ := isSome_iff_exists.mp hsome2
  have hlt := mem_range.mp (mem_reverse.mp (mem_of_find?_eq_some hlast))
  refine ⟨ph1, ph2, ?_, h.offset _ _ hph1, h.offset _ _ hph2, ?_, hlt⟩
  · rw [h.firstLast _ fun i hi => mem_range.mp hi, find?_slot, find?_slot, hfirst, hlast]
    simp [hph1, hph2]
  · by_contra hle
    have hbefore := (List.find?_range_eq_some.mp hfirst).2.2 last' (by omega)
    simp [hph2] at hbefore

theorem Ok.firstLast_of_not_used (h : r.Ok) (hused : r.used = none) :
    r.firstLast (List.range r.slots) none none = some (none, none) := by
  have hnone := used_eq_none_iff.mp hused
  have hfind (is : List Nat) (his : ∀ i ∈ is, i < r.slots) : is.findSome? r.slot = none :=
    List.findSome?_eq_none_iff.mpr fun i hi => hnone i (his i hi)
  rw [h.firstLast _ fun i hi => mem_range.mp hi, hfind _ fun i hi => mem_range.mp hi,
    hfind _ fun i hi => mem_range.mp (mem_reverse.mp hi)]
  rfl

theorem Ok.report_span (h : r.Ok) (old : RegionInfo) {first last : Nat} {ph1 ph2 : PhysRegion}
    (hph1 : ph1.offset = first * vmPageSize) (hph2 : ph2.offset = last * vmPageSize)
    (hle : first ≤ last) (hlt : last < r.slots) :
    (r.report ph1 ph2 old).vriAddr = r.vaddr + first * vmPageSize ∧
      (r.report ph1 ph2 old).vriLength = (last + 1 - first) * vmPageSize := by
  have htop := h.top
  have hlength := h.length_eq
  unfold stop at htop
  have hmul : (last + 1) * vmPageSize ≤ r.slots * vmPageSize := Nat.mul_le_mul_right _ hlt
  have hmul' : first * vmPageSize ≤ last * vmPageSize := Nat.mul_le_mul_right _ hle
  have hsucc : (last + 1) * vmPageSize = last * vmPageSize + vmPageSize := Nat.succ_mul ..
  have hsize : vmDatatop < addrSize := by decide
  refine ⟨?_, ?_⟩
  · change add r.vaddr ph1.offset = _
    rw [hph1, add_eq (by omega)]
  · change sub (add ph2.offset vmPageSize) ph1.offset = _
    rw [hph1, hph2, add_eq (by omega), sub_eq (by omega) (by omega), Nat.sub_mul, hsucc]

theorem Ok.add_length (h : r.Ok) : add r.vaddr r.length = r.stop := by
  have htop := h.top
  have hsize : vmDatatop < addrSize := by decide
  unfold stop at *
  exact add_eq (by omega)

end VirRegion

/-! ## One call -/

variable {r : VirRegion} {n count next : Nat} {vri : Buffer}

def RegionInfo.span (v : RegionInfo) : Nat × Nat := (v.vriAddr, v.vriLength)

theorem infoLoop_not_used (h : r.Ok) (hused : r.used = none) (rest : List VirRegion) :
    infoLoop (n + 1) (r :: rest) count next vri = some (count + (n + 1), r.stop, vri) := by
  induction n generalizing count next with
  | zero => simp [infoLoop, h.firstLast_of_not_used hused, h.add_length]
  | succ n ih =>
    rw [infoLoop]
    simp only [h.firstLast_of_not_used hused]
    rw [ih]
    have heq : count + 1 + (n + 1) = count + (n + 1 + 1) := by omega
    rw [heq]

theorem infoLoop_used (p rest : List VirRegion) (n count next : Nat) (vri : Buffer)
    (hp : ∀ r ∈ p, r.Ok ∧ r.used ≠ none) (hn : p.length ≤ n) : ∃ vri', infoLoop n (p ++ rest) count next vri =
        infoLoop (n - p.length) rest (count + p.length) (p.foldl (fun _ r => r.stop) next) vri' ∧
      (∀ k < count, vri' k = vri k) ∧
      (List.range' count p.length).map (fun k => (vri' k).span) = p.filterMap VirRegion.span := by
  induction p generalizing n count next vri with
  | nil => exact ⟨vri, rfl, fun _ _ => rfl, rfl⟩
  | cons r p ih =>
    obtain ⟨hok, hused⟩ := hp r (.head _)
    obtain ⟨⟨first, last⟩, hspan⟩ := ne_none_iff_exists'.mp hused
    obtain ⟨ph1, ph2, hloop, hph1, hph2, hle, hlt⟩ := hok.firstLast_of_used hspan
    cases n with
    | zero => simp at hn
    | succ n =>
      set vri1 := update vri count (r.report ph1 ph2 (vri count)) with hvri1
      obtain ⟨vri', hrest, hbelow, hspans⟩ := ih n (count + 1) r.stop vri1
        (fun x hx => hp x (.tail _ hx)) (Nat.le_of_succ_le_succ hn)
      have hentry : (vri' count).span = (r.vaddr + first * vmPageSize, (last + 1 - first) * vmPageSize) := by
        rw [hbelow count (Nat.lt_succ_self _), hvri1, update_self]
        obtain ⟨haddr, hlength⟩ := hok.report_span (vri count) hph1 hph2 hle hlt
        exact Prod.ext haddr hlength
      refine ⟨vri', ?_, fun k hk => ?_, ?_⟩
      · rw [cons_append, infoLoop]
        simp only [hloop, hok.add_length, length_cons, foldl_cons]
        rw [hrest]
        have hcount : count + 1 + p.length = count + (p.length + 1) := by omega
        have hleft : n - p.length = n + 1 - (p.length + 1) := by omega
        rw [hcount, hleft]
      · rw [hbelow k (Nat.lt_succ_of_lt hk), hvri1, update_of_ne (by omega)]
      · rw [length_cons, range'_succ, map_cons, hspans, hentry]
        simp [VirRegion.span, hspan]

/-! ## The enumeration -/

variable {t : Tree} {bufs : Nat → Buffer}

theorem Tree.Ok.onFrom_foldl (h : t.Ok) {start : Nat} {p rest : List VirRegion}
    (hp : p ≠ []) (hsplit : t.onFrom start = p ++ rest) :
    t.onFrom (p.foldl (fun _ r => r.stop) start) = rest := by
  obtain ⟨q, r, rfl⟩ := (eq_nil_or_concat' p).resolve_left hp
  rw [foldl_append]
  have ht := t.takeWhile_append_onFrom start
  rw [hsplit, append_assoc, ← append_assoc] at ht
  rw [← ht] at h ⊢
  exact Tree.onFrom_stop (fun x hx => (h.region x hx).pos) h.disjoint

/-- A call goes through some regions, and all of these get an entry, or one that should not be
reported fills the buffer. -/
theorem Tree.Ok.getRegionInfo (h : t.Ok) (vri : Buffer) {max : Nat} (hmax : 0 < max)
    (hne : t.onFrom next ≠ []) : ∃ p rest c vri', t.onFrom next = p ++ rest ∧ p ≠ [] ∧
      t.getRegionInfo vri max next = some (c, p.foldl (fun _ r => r.stop) next, vri') ∧
      (c < max → rest = []) ∧
      ((∀ r ∈ p, r.used ≠ none) →
        (List.range c).map (fun k => (vri' k).span) = p.filterMap VirRegion.span) ∧
      ((∃ r ∈ p, r.used = none) → (p.filterMap VirRegion.span).length < c) := by
  have hok : ∀ r ∈ t.onFrom next, r.Ok := fun r hr => h.region r ((t.onFrom_sublist next).subset hr)
  unfold Tree.getRegionInfo
  rw [if_neg hmax.ne', if_neg hne]
  set l := t.onFrom next
  set p := l.takeWhile fun r => r.used ≠ none with hp
  have hused : ∀ r ∈ p, r.Ok ∧ r.used ≠ none := fun r hr =>
    ⟨hok r ((takeWhile_sublist _).subset hr), by simpa using mem_takeWhile_imp hr⟩
  have hsplit : p ++ l.dropWhile (fun r => r.used ≠ none) = l := takeWhile_append_dropWhile
  by_cases hlong : max ≤ p.length
  · -- the buffer is full before a region without a present page comes
    have htake : (p.take max).length = max := length_take_of_le hlong
    have hused' : ∀ r ∈ p.take max, r.Ok ∧ r.used ≠ none := fun r hr => hused r (mem_of_mem_take hr)
    have hsplit' : l = p.take max ++ (p.drop max ++ l.dropWhile fun r => r.used ≠ none) := by
      rw [← append_assoc, take_append_drop, hsplit]
    obtain ⟨vri', hloop, -, hspans⟩ := infoLoop_used (p.take max)
      (p.drop max ++ l.dropWhile fun r => r.used ≠ none) max 0 next vri hused' htake.le
    refine ⟨p.take max, _, max, vri', hsplit', fun hnil => ?_, ?_, fun hlt => absurd hlt (lt_irrefl _),
      fun _ => ?_, fun hex => ?_⟩
    · rw [hnil] at htake
      exact hmax.ne' htake.symm
    · rw [hsplit', hloop, htake, Nat.sub_self, Nat.zero_add]
      rfl
    · rwa [htake, ← range_eq_range'] at hspans
    · obtain ⟨r, hr, hnone⟩ := hex
      exact absurd hnone (hused' r hr).2
  obtain ⟨vri', hloop, -, hspans⟩ := infoLoop_used p
    (l.dropWhile fun r => r.used ≠ none) max 0 next vri hused (by omega)
  rw [hsplit, Nat.zero_add] at hloop
  cases hrest : l.dropWhile fun r => r.used ≠ none with
  | nil =>
    -- all regions fit
    rw [hrest, append_nil] at hsplit
    refine ⟨p, [], p.length, vri', by rw [hsplit, append_nil], fun hnil => hne ?_, ?_,
      fun _ => rfl, fun _ => ?_, fun hex => ?_⟩
    · rw [← hsplit, hnil]
    · rw [hloop, hrest]
      obtain ⟨m, hm⟩ : ∃ m, max - p.length = m + 1 := ⟨max - p.length - 1, by omega⟩
      rw [hm]
      rfl
    · rwa [← range_eq_range'] at hspans
    · obtain ⟨r, hr, hnone⟩ := hex
      exact absurd hnone (hused r hr).2
  | cons e rest =>
    -- a region without a present page takes what is left of the buffer
    have hnone : e.used = none := by
      have hhead := List.head?_dropWhile_not (fun r : VirRegion => decide (r.used ≠ none)) l
      rw [hrest] at hhead
      simpa using hhead
    obtain ⟨m, hm⟩ : ∃ m, max - p.length = m + 1 := ⟨max - p.length - 1, by omega⟩
    rw [hrest, hm] at hloop
    have he : e.Ok := by
      refine hok e ?_
      rw [← hsplit, hrest]
      exact mem_append_right _ (.head _)
    rw [infoLoop_not_used he hnone] at hloop
    have hcount : p.length + (m + 1) = max := by omega
    rw [hcount] at hloop
    refine ⟨p ++ [e], rest, max, vri', ?_, by simp, ?_, fun hlt => absurd hlt (lt_irrefl _),
      fun hall => ?_, fun _ => ?_⟩
    · rw [← hsplit, hrest, append_assoc]
      rfl
    · rw [hloop, foldl_append]
      rfl
    · exact absurd hnone (hall e (mem_append_right _ (.head _)))
    have hle := length_filterMap_le VirRegion.span p
    have hspan : e.span = none := by simp [VirRegion.span, hnone]
    rw [filterMap_append, length_append]
    simp only [filterMap_cons, hspan, filterMap_nil, length_nil]
    omega

theorem Tree.enumerate_nil {max call fuel : Nat} (hmax : 0 < max)
    (hnil : t.onFrom next = []) : t.enumerate max bufs (fuel + 1) call next = some [] := by
  have hcall : t.getRegionInfo (bufs call) max next = some (0, next, bufs call) := by
    unfold Tree.getRegionInfo
    rw [if_neg hmax.ne', if_pos hnil]
  simp only [Tree.enumerate, hcall]
  rw [if_pos hmax]
  rfl

theorem Tree.Ok.enumerates (h : t.Ok) {max call : Nat}
    (hmax : 0 < max) (hused : ∀ r ∈ t.onFrom next, r.used ≠ none) :
    ∃ fuel reported, t.enumerate max bufs fuel call next = some reported ∧
      reported.map RegionInfo.span = (t.onFrom next).filterMap VirRegion.span := by
  induction hlen : (t.onFrom next).length using Nat.strong_induction_on generalizing next call with
  | _ len ih =>
    by_cases hnil : t.onFrom next = []
    · exact ⟨1, [], Tree.enumerate_nil hmax hnil, by rw [hnil]; rfl⟩
    obtain ⟨p, rest, c, vri', hsplit, hp, hcall, hlast, hspans, -⟩ :=
      h.getRegionInfo (bufs call) hmax hnil
    have hspans' := hspans fun r hr => hused r (hsplit ▸ mem_append_left _ hr)
    by_cases hc : c < max
    · refine ⟨1, (List.range c).map vri', ?_, ?_⟩
      · simp only [Tree.enumerate, hcall]
        rw [if_pos hc]
      · rw [List.map_map, hsplit, hlast hc, append_nil]
        exact hspans'
    -- the buffer was full: the next call goes on behind these regions
    have hrest := h.onFrom_foldl hp hsplit
    set next' := p.foldl (fun _ r => r.stop) next with hnext'
    have hless : (t.onFrom next').length < len := by
      have hpos := length_pos_of_ne_nil hp
      rw [hrest, ← hlen, hsplit, length_append]
      omega
    obtain ⟨fuel, reported, henum, hreported⟩ := @ih _ hless next' (call + 1)
      (fun r hr => hused r (hsplit ▸ mem_append_right _ (hrest ▸ hr))) rfl
    refine ⟨fuel + 1, (List.range c).map vri' ++ reported, ?_, ?_⟩
    · simp only [Tree.enumerate, hcall]
      rw [if_neg hc, henum]
      rfl
    · rw [map_append, List.map_map, hreported, hsplit, hrest, filterMap_append]
      exact congrArg (· ++ rest.filterMap VirRegion.span) hspans'

theorem Tree.Ok.length_enumerate (h : t.Ok) {max call fuel : Nat}
    (hmax : 0 < max) {reported : List RegionInfo}
    (henum : t.enumerate max bufs fuel call next = some reported) :
    ((t.onFrom next).filterMap VirRegion.span).length ≤ reported.length ∧
      ((∃ r ∈ t.onFrom next, r.used = none) →
        ((t.onFrom next).filterMap VirRegion.span).length < reported.length) := by
  induction fuel generalizing next call reported with
  | zero => simp [Tree.enumerate] at henum
  | succ fuel ih =>
    by_cases hnil : t.onFrom next = []
    · rw [hnil]
      refine ⟨Nat.zero_le _, fun hex => ?_⟩
      obtain ⟨r, hr, -⟩ := hex
      cases hr
    obtain ⟨p, rest, c, vri', hsplit, hp, hcall, hlast, hspans, hempty⟩ :=
      h.getRegionInfo (bufs call) hmax hnil
    simp only [Tree.enumerate, hcall] at henum
    -- what this call reports
    have hhere : (p.filterMap VirRegion.span).length ≤ c ∧
        ((∃ r ∈ p, r.used = none) → (p.filterMap VirRegion.span).length < c) := by
      refine ⟨?_, hempty⟩
      by_cases hex : ∃ r ∈ p, r.used = none
      · exact (hempty hex).le
      · have heq := hspans fun r hr hnone => hex ⟨r, hr, hnone⟩
        have hlen := congrArg List.length heq
        rw [length_map, length_range] at hlen
        exact hlen.ge
    rw [hsplit, filterMap_append, length_append]
    by_cases hc : c < max
    · rw [if_pos hc] at henum
      cases henum
      rw [hlast hc, append_nil, length_map, length_range]
      exact hhere
    rw [if_neg hc, map_eq_some_iff] at henum
    obtain ⟨more, henum, rfl⟩ := henum
    obtain ⟨hle, hlt⟩ := ih henum
    rw [h.onFrom_foldl hp hsplit] at hle hlt
    rw [length_append, length_map, length_range]
    refine ⟨Nat.add_le_add hhere.1 hle, fun hex => ?_⟩
    obtain ⟨r, hr, hnone⟩ := hex
    obtain hr | hr := mem_append.mp hr
    · exact Nat.add_lt_add_of_lt_of_le (hhere.2 ⟨r, hr, hnone⟩) hle
    · exact Nat.add_lt_add_of_le_of_lt hhere.1 (hlt ⟨r, hr, hnone⟩)

/-- The enumeration ends and reports the parts in use, each once and in order, if and only if each
region from there on has a present page. -/
theorem Tree.enumerates_iff {t : Tree} (h : t.Ok) {max : Nat} (hmax : 0 < max)
    (bufs : Nat → Buffer) (start : Nat) :
    t.Enumerates max bufs start ↔ ∀ r ∈ t.onFrom start, r.used ≠ none := by
  refine ⟨fun henum r hr hnone => ?_, fun hused => h.enumerates hmax hused⟩
  obtain ⟨fuel, reported, henum, hreported⟩ := henum
  have hmore := (h.length_enumerate hmax henum).2 ⟨r, hr, hnone⟩
  have hlen := congrArg List.length hreported
  rw [length_map] at hlen
  omega

/-- Two regions with one page each, of which the second has it. -/
def textAndHeap : Tree := [
  ⟨0x1000, 0x1000, [some ⟨0, 7⟩], false⟩, ⟨0x4000, 0x2000, [none, some ⟨0x1000, 9⟩], true⟩]

/-- A buffer with what an earlier call has left there. -/
def stale : Buffer := fun _ => ⟨0xDEAD000, 0x3000, 0, 0⟩

theorem textAndHeap_enumerates : textAndHeap.Enumerates 1 (fun _ => stale) 0 :=
  (Tree.enumerates_iff (by decide +kernel) Nat.one_pos (fun _ => stale) 0).mpr (by decide +kernel)

/-- A region none of whose pages has been touched. -/
def untouched : Tree := [⟨0x1000, 0x1000, [none], true⟩]

/-- What is in the buffer is reported for it. -/
theorem untouched_region_reported : ¬ ∀ (t : Tree) (max : Nat) (bufs : Nat → Buffer) (start : Nat),
    t.Ok → 0 < max → t.Enumerates max bufs start := by
  intro h
  have hok : untouched.Ok := by decide +kernel
  obtain ⟨fuel, reported, henum, hreported⟩ := h untouched 1 (fun _ => stale) 0 hok Nat.one_pos
  have hmore := (hok.length_enumerate Nat.one_pos henum).2 (by decide +kernel)
  have hlen := congrArg List.length hreported
  rw [length_map] at hlen
  omega

end HardenedMinix.RegionTree
