import HardenedMinix.Vm.RegionRuns

/-!
# Extending the data segment

`map_region_extend_upto_v` finds the last region that begins below the address and has its memory
type change its length. `none` is a failed assertion.
-/

open List

namespace HardenedMinix.RegionTree

/-! ## The code -/

/-- `mem_type_t`, as a choice of its functions. -/
inductive MemType
  | anon
  | anonContig
  | directphys
  | shared
  deriving DecidableEq, Repr

/-- `struct vir_region`, with its memory type and the flag `VR_ANON`. -/
structure Area extends VirRegion where
  memtype : MemType
  vrAnon : Bool
  deriving DecidableEq, Repr

/-- The regions of a process, in the order of their keys. -/
abbrev Image := List Area

inductive Reply
  | ok
  | enomem
  deriving DecidableEq, Repr

/-- `roundup(v, VM_PAGE_SIZE)` on `vir_bytes`. -/
def roundupPage (v : Nat) : Nat := add v (vmPageSize - 1) / vmPageSize * vmPageSize

def physSlot (len : Nat) : Option Nat := if len % vmPageSize = 0 then some (len / vmPageSize) else none

namespace Image

/-- `region_search` with `AVL_LESS`. -/
def searchLess (t : Image) (key : Nat) : Option Area := (t.takeWhile fun r => r.vaddr < key).getLast?

def put (t : Image) (r : Area) : Image := t.map fun x => if x.vaddr = r.vaddr then r else x

def getnextvr (t : Image) (vr : Area) : Option (Option Area) :=
  match t.dropWhile fun r => r.vaddr < vr.vaddr with
  | [] => none
  | r :: rest =>
    if r ≠ vr then none
    else
      match rest with
      | [] => some none
      | nextvr :: _ => if add vr.vaddr vr.length ≤ nextvr.vaddr then some (some nextvr) else none

end Image

/-- `vr->length = l`. -/
def Area.setLength (vr : Area) (l : Nat) : Area := { vr with length := l }

def anonResize (vr : Area) (l : Nat) : Option (Reply × Area) :=
  if l ≤ vr.length then some (.ok, vr)
  else if vr.vrAnon ∧ l % vmPageSize = 0 then some (.ok, vr.setLength l)
  else none

def anonContigResize (vr : Area) (_ : Nat) : Option (Reply × Area) := some (.enomem, vr)

/-- `ev_resize`, where there is one. -/
def MemType.evResize : MemType → Option (Area → Nat → Option (Reply × Area))
  | .anon => some anonResize
  | .anonContig => some anonContigResize
  | .directphys => none
  | .shared => none

/-- `realloc` and `memset`: the slots up to `prevslots` stay. -/
def Area.addSlots (vr : Area) (prevslots newslots : Nat) : Area :=
  { vr with physblocks := vr.physblocks.take prevslots ++ List.replicate (newslots - prevslots) none }

/-- What follows in `map_region_extend_upto_v` when the slots have been added. -/
def Image.resize (t : Image) (vr : Area) (offset : Nat) : Option (Reply × Image) :=
  match t.getnextvr vr with
  | none => none
  | some nextvr =>
    if ∃ r ∈ nextvr, ¬ offset ≤ r.vaddr then none
    else if ∃ r ∈ nextvr, r.vaddr < offset then some (.enomem, t)
    else
      match vr.memtype.evResize with
      | none => some (.enomem, t)
      | some evResize => (evResize vr (sub offset vr.vaddr)).map fun res => (res.1, t.put res.2)

/-- `map_region_extend_upto_v`; `alloc` is whether `realloc` succeeds. -/
def Image.mapRegionExtendUptoV (t : Image) (alloc : Bool) (v : Nat) : Option (Reply × Image) :=
  let offset := roundupPage v
  match t.searchLess offset with
  | none => some (.enomem, t)
  | some vr =>
    if v ≤ add vr.vaddr vr.length then some (.ok, t)
    else if offset < vr.vaddr then none
    else
      match physSlot (sub offset vr.vaddr), physSlot vr.length with
      | some newslots, some prevslots =>
        if newslots < prevslots then none
        else if alloc then
          let vr := vr.addSlots prevslots newslots
          (t.put vr).resize vr offset
        else some (.enomem, t)
      | _, _ => none

/-! ## What it should do -/

/-- Whole pages, slots for them, `VR_ANON` for anonymous memory, and an end that is an address. -/
structure Area.Ok (r : Area) : Prop where
  pos : 0 < r.length
  pages : r.length % vmPageSize = 0
  slots : r.slots ≤ r.physblocks.length
  anon : r.memtype = .anon → r.vrAnon = true
  stop : r.stop < addrSize

def Image.Disjoint (t : Image) : Prop := t.Pairwise fun r r' => r.stop ≤ r'.vaddr

structure Image.Ok (t : Image) : Prop where
  disjoint : t.Disjoint
  region : ∀ r ∈ t, r.Ok

/-- The region begins where it did, is of the same kind, and has the pages it had. -/
structure Area.Keeps (r r' : Area) : Prop where
  vaddr : r'.vaddr = r.vaddr
  memtype : r'.memtype = r.memtype
  writable : r'.writable = r.writable
  vrAnon : r'.vrAnon = r.vrAnon
  slot : ∀ i < r.slots, r'.slot i = r.slot i

/-- The two describe the same mapping. -/
structure Area.Same (r r' : Area) : Prop extends r.Keeps r' where
  length : r'.length = r.length

/-- The region has grown, by pages that are empty. -/
structure Area.Grown (r r' : Area) : Prop extends r.Keeps r' where
  length : r.length ≤ r'.length
  empty : ∀ i, r.slots ≤ i → i < r'.slots → r'.slot i = none

def pageEnd (v : Nat) : Nat := (v + (vmPageSize - 1)) / vmPageSize * vmPageSize

/-- The last region that begins below `v` reaches `v` rounded up, and the others are as they
were. -/
def Image.Reaches (t t' : Image) (v : Nat) : Prop :=
  ∃ before vr vr' after, t = before ++ vr :: after ∧ t' = before ++ vr' :: after ∧
    vr.vaddr < v ∧ (∀ r ∈ after, v ≤ r.vaddr) ∧ pageEnd v ≤ vr'.stop ∧ vr.Grown vr'

/-- No assertion fails; with `OK` the segment has been extended, and with an error it is as it
was. -/
def Image.ExtendsSafely (t : Image) (alloc : Bool) (v : Nat) : Prop :=
  ∃ e t', t.mapRegionExtendUptoV alloc v = some (e, t') ∧ t'.Ok ∧
    match e with
    | .ok => t.Reaches t' v
    | .enomem => List.Forall₂ Area.Same t t'

/-- It begins at the address of a page if it ends below `v`; if not, it begins below `v` and reaches
`v` rounded up. -/
def Image.Extendable (t : Image) (v : Nat) : Prop :=
  ∀ vr, t.searchLess (roundupPage v) = some vr →
    if vr.stop < v then vr.vaddr % vmPageSize = 0 else vr.vaddr < v ∧ pageEnd v ≤ vr.stop

/-! ## Addresses and pages -/

section Pages

variable {v n : Nat}

theorem vmPageSize_pos : 0 < vmPageSize := by decide

theorem le_pageEnd (v : Nat) : v ≤ pageEnd v := by
  unfold pageEnd vmPageSize
  omega

theorem pageEnd_mod (v : Nat) : pageEnd v % vmPageSize = 0 := Nat.mul_mod_left _ _

theorem pageEnd_le (h : v ≤ n) (hn : n % vmPageSize = 0) : pageEnd v ≤ n := by
  unfold vmPageSize at hn
  unfold pageEnd vmPageSize
  omega

theorem roundupPage_eq (hv : v < addrSize) :
    roundupPage v = pageEnd v ∧ pageEnd v < addrSize ∨ roundupPage v = 0 := by
  unfold roundupPage pageEnd add vmPageSize addrSize at *
  omega

theorem physSlot_mul (n : Nat) : physSlot (n * vmPageSize) = some n := by
  unfold physSlot
  rw [if_pos (Nat.mul_mod_left n vmPageSize), Nat.mul_div_cancel n vmPageSize_pos]

theorem physSlot_eq_none (hn : n % vmPageSize ≠ 0) : physSlot n = none := if_neg hn

end Pages

/-! ## The place in the list -/

section Split

variable {t before after : Image} {vr vr' : Area} {key : Nat}

theorem Area.Ok.lt_stop (h : vr.Ok) : vr.vaddr < vr.stop := Nat.lt_add_of_pos_right h.pos

/-- A region in its place: the ones before it end before it, and the ones after it begin after its
end. -/
structure Around (before : Image) (vr : Area) (after : Image) : Prop where
  region : vr.Ok
  below : ∀ r ∈ before, r.vaddr < vr.vaddr ∧ r.stop ≤ vr.vaddr
  above : ∀ r ∈ after, vr.stop ≤ r.vaddr

theorem Image.Ok.around (h : Image.Ok (before ++ vr :: after)) : Around before vr after := by
  have hpair := pairwise_append.mp h.disjoint
  refine ⟨h.region vr (by simp), fun r hr => ?_, (pairwise_cons.mp hpair.2.1).1⟩
  have hle := hpair.2.2 r hr vr (.head _)
  have hlt := (h.region r (mem_append_left _ hr)).lt_stop
  exact ⟨by omega, hle⟩

theorem Image.searchLess_eq_some (hok : t.Ok) (h : t.searchLess key = some vr) :
    ∃ before after, t = before ++ vr :: after ∧ vr.vaddr < key ∧ ∀ r ∈ after, key ≤ r.vaddr := by
  unfold Image.searchLess at h
  obtain ⟨before, htake⟩ := List.getLast?_eq_some_iff.mp h
  have hsplit : t = before ++ vr :: t.dropWhile fun r => r.vaddr < key := by
    conv_lhs => rw [← takeWhile_append_dropWhile (p := fun r : Area => decide (r.vaddr < key)) (l := t)]
    rw [htake, append_assoc]
    rfl
  refine ⟨before, _, hsplit, ?_, fun r hr => ?_⟩
  · have hmem : vr ∈ t.takeWhile fun r => r.vaddr < key := by simp [htake]
    simpa using mem_takeWhile_imp hmem
  have hpair : Image.Disjoint (t.dropWhile fun r => r.vaddr < key) :=
    List.Pairwise.sublist (dropWhile_sublist _) hok.disjoint
  cases hdrop : t.dropWhile fun r => r.vaddr < key with
  | nil => simp [hdrop] at hr
  | cons x rest =>
    have hx : key ≤ x.vaddr := by
      have hhead := List.head?_dropWhile_not (fun r : Area => decide (r.vaddr < key)) t
      rw [hdrop] at hhead
      simpa using hhead
    rw [hdrop] at hr hpair
    obtain rfl | hr := mem_cons.mp hr
    · exact hx
    · have hle := (pairwise_cons.mp hpair).1 r hr
      have hstop : x.vaddr ≤ x.stop := Nat.le_add_right ..
      omega

theorem Image.put_split (h : Around before vr after) (hvaddr : vr'.vaddr = vr.vaddr) :
    Image.put (before ++ vr :: after) vr' = before ++ vr' :: after := by
  have hne (l : Image) (hl : ∀ r ∈ l, r.vaddr ≠ vr.vaddr) :
      (l.map fun x => if x.vaddr = vr'.vaddr then vr' else x) = l := by
    conv_rhs => rw [← List.map_id l]
    refine map_congr_left fun r hr => ?_
    rw [hvaddr, if_neg (hl r hr)]
    rfl
  unfold Image.put
  rw [map_append, map_cons, if_pos hvaddr.symm, hne before fun r hr => (h.below r hr).1.ne,
    hne after fun r hr => ?_]
  have hlt := h.region.lt_stop
  have hle := h.above r hr
  omega

theorem Image.getnextvr_split (h : Around before vr after) (hvaddr : vr'.vaddr = vr.vaddr)
    (hlength : vr'.length = vr.length) :
    Image.getnextvr (before ++ vr' :: after) vr' = some after.head? := by
  have hstop := h.region.stop
  unfold VirRegion.stop at hstop
  unfold Image.getnextvr
  rw [dropWhile_append_of_pos (by simpa [hvaddr] using fun r hr => (h.below r hr).1),
    dropWhile_cons_of_neg (by simp)]
  cases after with
  | nil => simp
  | cons nextvr rest =>
    have hle := h.above nextvr (.head _)
    unfold VirRegion.stop at hle
    simp only [ne_eq, not_true_eq_false, if_false, List.head?_cons]
    rw [hvaddr, hlength, add_eq hstop, if_pos hle]

end Split

/-! ## The slots -/

section Slots

variable {before after : Image} {vr vr' : Area} {n l : Nat}

theorem Area.Keeps.refl (vr : Area) : vr.Keeps vr := ⟨rfl, rfl, rfl, rfl, fun _ _ => rfl⟩

theorem Area.Same.refl (vr : Area) : vr.Same vr := ⟨.refl vr, rfl⟩

theorem Area.Grown.refl (vr : Area) : vr.Grown vr := ⟨.refl vr, le_rfl, fun _ hle hlt => absurd hlt hle.not_gt⟩

theorem Area.slot_addSlots (h : vr.Ok) (n i : Nat) :
    (vr.addSlots vr.slots n).slot i = if i < vr.slots then vr.slot i else none := by
  have hlength : (vr.physblocks.take vr.slots).length = vr.slots := length_take_of_le h.slots
  unfold VirRegion.slot Area.addSlots
  dsimp only
  split
  · next hi =>
    rw [List.getElem?_append_left (by omega), List.getElem?_take, if_pos hi]
  · next hi =>
    rw [List.getElem?_append_right (by omega), List.getElem?_replicate]
    split <;> rfl

theorem Area.keeps_addSlots (h : vr.Ok) (n : Nat) : vr.Keeps (vr.addSlots vr.slots n) :=
  ⟨rfl, rfl, rfl, rfl, fun i hi => by rw [slot_addSlots h, if_pos hi]⟩

theorem Area.Ok.addSlots (h : vr.Ok) : (vr.addSlots vr.slots n).Ok := by
  refine ⟨h.pos, h.pages, ?_, h.anon, h.stop⟩
  have hlength : (vr.physblocks.take vr.slots).length = vr.slots := length_take_of_le h.slots
  change vr.slots ≤ (vr.physblocks.take vr.slots ++ List.replicate (n - vr.slots) none).length
  rw [length_append, hlength]
  exact Nat.le_add_right ..

theorem Area.Grown.addSlots (h : vr.Ok) (hl : vr.length ≤ l) :
    vr.Grown ((vr.addSlots vr.slots n).setLength l) := by
  refine ⟨⟨rfl, rfl, rfl, rfl, (keeps_addSlots h n).slot⟩, hl, fun i hle _ => ?_⟩
  have hslot := slot_addSlots h n i
  rw [if_neg (Nat.not_lt.mpr hle)] at hslot
  exact hslot

theorem Area.Ok.grown (h : vr.Ok) (hl : vr.length ≤ n * vmPageSize) (hstop : vr.vaddr + n * vmPageSize < addrSize) :
    Area.Ok ((vr.addSlots vr.slots n).setLength (n * vmPageSize)) := by
  have hslots : vr.slots ≤ n := by
    have hdiv := Nat.div_le_div_right (c := vmPageSize) hl
    rwa [Nat.mul_div_cancel n vmPageSize_pos] at hdiv
  refine ⟨lt_of_lt_of_le h.pos hl, Nat.mul_mod_left _ _, ?_, h.anon, hstop⟩
  have hlength : (vr.physblocks.take vr.slots).length = vr.slots := length_take_of_le h.slots
  change n * vmPageSize / vmPageSize ≤ (vr.physblocks.take vr.slots ++ List.replicate (n - vr.slots) none).length
  rw [Nat.mul_div_cancel n vmPageSize_pos, length_append, hlength, length_replicate]
  omega

theorem Image.Ok.replace (h : Image.Ok (before ++ vr :: after)) (hvr : vr'.Ok) (hvaddr : vr'.vaddr = vr.vaddr)
    (hstop : ∀ r ∈ after, vr'.stop ≤ r.vaddr) : Image.Ok (before ++ vr' :: after) := by
  obtain ⟨hbefore, hafter, hcross⟩ := pairwise_append.mp h.disjoint
  refine ⟨pairwise_append.mpr ⟨hbefore, ?_, fun a ha b hb => ?_⟩, fun r hr => ?_⟩
  · exact pairwise_cons.mpr ⟨hstop, (pairwise_cons.mp hafter).2⟩
  · obtain rfl | hb := mem_cons.mp hb
    · rw [hvaddr]
      exact hcross a ha vr (.head _)
    · exact hcross a ha b (.tail _ hb)
  obtain hr | hr := mem_append.mp hr
  · exact h.region r (mem_append_left _ hr)
  · obtain rfl | hr := mem_cons.mp hr
    · exact hvr
    · exact h.region r (mem_append_right _ (.tail _ hr))

theorem Image.same_split (h : vr.Same vr') :
    List.Forall₂ Area.Same (before ++ vr :: after) (before ++ vr' :: after) := by
  have hrefl (l : Image) : List.Forall₂ Area.Same l l := forall₂_same.mpr fun r _ => .refl r
  exact rel_append (hrefl before) (.cons h (hrefl after))

end Slots

/-! ## The extension -/

section Extension

variable {t before after : Image} {vr : Area} {v : Nat} {alloc : Bool}

theorem Image.resize_split (h : Around before vr after) {offset : Nat} (hafter : ∀ r ∈ after, offset ≤ r.vaddr)
    (n : Nat) :
    Image.resize (Image.put (before ++ vr :: after) (vr.addSlots vr.slots n)) (vr.addSlots vr.slots n) offset =
      match vr.memtype.evResize with
      | none => some (.enomem, before ++ vr.addSlots vr.slots n :: after)
      | some evResize => (evResize (vr.addSlots vr.slots n) (sub offset vr.vaddr)).map fun res =>
          (res.1, Image.put (before ++ vr.addSlots vr.slots n :: after) res.2) := by
  have hnext : ∀ r ∈ after.head?, offset ≤ r.vaddr := fun r hr => hafter r (mem_of_mem_head? hr)
  have hvaddr : (vr.addSlots vr.slots n).vaddr = vr.vaddr := rfl
  rw [Image.put_split h hvaddr]
  unfold Image.resize
  rw [Image.getnextvr_split h hvaddr rfl]
  dsimp only
  rw [if_neg (by simpa using hnext), if_neg (by simpa using hnext)]
  rfl

theorem Image.extendsSafely_of_aligned (hok : Image.Ok (before ++ vr :: after)) (hbelow : vr.stop < v)
    (halign : vr.vaddr % vmPageSize = 0) (hround : roundupPage v = pageEnd v) (htop : pageEnd v < addrSize)
    (hafter : ∀ r ∈ after, pageEnd v ≤ r.vaddr)
    (hfound : Image.searchLess (before ++ vr :: after) (pageEnd v) = some vr) :
    Image.ExtendsSafely (before ++ vr :: after) alloc v := by
  have haround := hok.around
  have hvr := haround.region
  have hlt := hvr.lt_stop
  have hle := le_pageEnd v
  have hstopvr : vr.vaddr + vr.length < addrSize := hvr.stop
  -- the length that is asked for is `n` pages
  obtain ⟨n, hn⟩ : ∃ n, pageEnd v - vr.vaddr = n * vmPageSize := by
    have hmod := pageEnd_mod v
    refine ⟨(pageEnd v - vr.vaddr) / vmPageSize, ?_⟩
    unfold vmPageSize at *
    omega
  have hsub : sub (pageEnd v) vr.vaddr = n * vmPageSize := by rw [sub_eq (by omega) htop, hn]
  have hlength : vr.length = vr.slots * vmPageSize :=
    (Nat.div_mul_cancel (Nat.dvd_of_mod_eq_zero hvr.pages)).symm
  have hgrow : vr.length ≤ n * vmPageSize := by
    unfold VirRegion.stop at hbelow
    omega
  have hslots : vr.slots ≤ n := by
    rw [hlength] at hgrow
    exact Nat.le_of_mul_le_mul_right hgrow vmPageSize_pos
  have hcode : Image.mapRegionExtendUptoV (before ++ vr :: after) alloc v =
      if alloc then Image.resize (Image.put (before ++ vr :: after) (vr.addSlots vr.slots n))
        (vr.addSlots vr.slots n) (pageEnd v)
      else some (.enomem, before ++ vr :: after) := by
    have hprev : physSlot vr.length = some vr.slots := by
      rw [hlength, physSlot_mul]
    have hshort : ¬ v ≤ add vr.vaddr vr.length := by
      rw [add_eq hstopvr]
      exact Nat.not_le.mpr hbelow
    unfold Image.mapRegionExtendUptoV
    dsimp only
    rw [hround, hfound]
    dsimp only
    rw [if_neg hshort, if_neg (by omega), hsub, physSlot_mul, hprev]
    dsimp only
    rw [if_neg (Nat.not_lt.mpr hslots)]
  have hsame : List.Forall₂ Area.Same (before ++ vr :: after) (before ++ vr.addSlots vr.slots n :: after) :=
    Image.same_split ⟨Area.keeps_addSlots hvr n, rfl⟩
  have hokSlots : Image.Ok (before ++ vr.addSlots vr.slots n :: after) :=
    hok.replace hvr.addSlots rfl haround.above
  unfold Image.ExtendsSafely
  rw [hcode]
  cases alloc with
  | false => exact ⟨.enomem, _, rfl, hok, forall₂_same.mpr fun r _ => .refl r⟩
  | true =>
    rw [if_pos rfl, Image.resize_split haround hafter, hsub]
    cases htype : vr.memtype with
    | anonContig =>
      refine ⟨.enomem, _, rfl, ?_⟩
      rw [Image.put_split hokSlots.around rfl]
      exact ⟨hokSlots, hsame⟩
    | directphys => exact ⟨.enomem, _, rfl, hokSlots, hsame⟩
    | shared => exact ⟨.enomem, _, rfl, hokSlots, hsame⟩
    | anon =>
      have hstop : vr.vaddr + n * vmPageSize = pageEnd v := by omega
      have hresize : anonResize (vr.addSlots vr.slots n) (n * vmPageSize) =
          some (.ok, (vr.addSlots vr.slots n).setLength (n * vmPageSize)) := by
        unfold anonResize
        have hlonger : ¬ n * vmPageSize ≤ (vr.addSlots vr.slots n).length := by
          change ¬ n * vmPageSize ≤ vr.length
          unfold VirRegion.stop at hbelow
          omega
        rw [if_neg hlonger, if_pos ⟨hvr.anon htype, Nat.mul_mod_left _ _⟩]
      refine ⟨.ok, before ++ (vr.addSlots vr.slots n).setLength (n * vmPageSize) :: after, ?_, ?_, ?_⟩
      · have hput : Image.put (before ++ vr.addSlots vr.slots n :: after)
            ((vr.addSlots vr.slots n).setLength (n * vmPageSize)) =
              before ++ (vr.addSlots vr.slots n).setLength (n * vmPageSize) :: after :=
          Image.put_split hokSlots.around rfl
        change Option.map _ (anonResize _ _) = _
        rw [hresize, Option.map_some, hput]
      · refine hok.replace (hvr.grown hgrow (by omega)) rfl fun r hr => ?_
        change vr.vaddr + n * vmPageSize ≤ r.vaddr
        rw [hstop]
        exact hafter r hr
      · refine ⟨before, vr, _, after, rfl, rfl, by omega, fun r hr => ?_, hstop.ge, Area.Grown.addSlots hvr hgrow⟩
        have := hafter r hr
        omega

theorem Image.mapRegionExtendUptoV_unaligned (hvr : vr.Ok) (hbelow : vr.stop < v)
    (halign : vr.vaddr % vmPageSize ≠ 0) (hround : roundupPage v = pageEnd v) (htop : pageEnd v < addrSize)
    (hless : vr.vaddr < pageEnd v) (hfound : t.searchLess (pageEnd v) = some vr) :
    t.mapRegionExtendUptoV alloc v = none := by
  have hshort : ¬ v ≤ add vr.vaddr vr.length := by
    rw [add_eq hvr.stop]
    exact Nat.not_le.mpr hbelow
  have hslot : physSlot (sub (pageEnd v) vr.vaddr) = none := by
    have hmod := pageEnd_mod v
    refine physSlot_eq_none ?_
    rw [sub_eq hless.le htop]
    unfold vmPageSize at *
    omega
  unfold Image.mapRegionExtendUptoV
  dsimp only
  rw [hround, hfound]
  dsimp only
  rw [if_neg hshort, if_neg (by omega), hslot]

theorem Image.reaches_of_ok (h : Around before vr after) (hless : vr.vaddr < pageEnd v)
    (hafter : ∀ r ∈ after, pageEnd v ≤ r.vaddr)
    (hreaches : Image.Reaches (before ++ vr :: after) (before ++ vr :: after) v) :
    vr.vaddr < v ∧ pageEnd v ≤ vr.stop := by
  obtain ⟨b, x, x', a, heq, heq', hlt, habove, hreach, -⟩ := hreaches
  obtain rfl : x = x' := by
    have hcons := append_cancel_left (heq.symm.trans heq')
    exact (List.cons.inj hcons).1
  have hmem : x ∈ before ++ vr :: after := heq ▸ mem_append_right b (.head a)
  obtain hx | hx := mem_append.mp hmem
  · have hle := (h.below x hx).2
    omega
  obtain rfl | hx := mem_cons.mp hx
  · exact ⟨hlt, hreach⟩
  · have hge := hafter x hx
    have hle := le_pageEnd v
    omega

/-- The call keeps its promise if and only if the region that is found can be extended. -/
theorem Image.extendsSafely_iff (hok : t.Ok) (hv : v < addrSize) :
    t.ExtendsSafely alloc v ↔ t.Extendable v := by
  cases hsearch : t.searchLess (roundupPage v) with
  | none =>
    have hcode : t.mapRegionExtendUptoV alloc v = some (.enomem, t) := by
      unfold Image.mapRegionExtendUptoV
      dsimp only
      rw [hsearch]
    refine iff_of_true ⟨.enomem, t, hcode, hok, forall₂_same.mpr fun r _ => .refl r⟩ fun vr hvr => ?_
    rw [hsearch] at hvr
    cases hvr
  | some vr =>
    obtain ⟨before, after, rfl, hless, hafter⟩ := Image.searchLess_eq_some hok hsearch
    have haround := hok.around
    have hvr := haround.region
    -- a region begins below the rounded address, which is therefore not 0
    obtain ⟨hround, htop⟩ : roundupPage v = pageEnd v ∧ pageEnd v < addrSize :=
      (roundupPage_eq hv).resolve_right fun hzero => by omega
    rw [hround] at hsearch hless hafter
    have hext : Image.Extendable (before ++ vr :: after) v ↔
        if vr.stop < v then vr.vaddr % vmPageSize = 0 else vr.vaddr < v ∧ pageEnd v ≤ vr.stop := by
      unfold Image.Extendable
      rw [hround, hsearch]
      exact ⟨fun h => h vr rfl, fun h x hx => by cases hx; exact h⟩
    rw [hext]
    by_cases hbelow : vr.stop < v
    · rw [if_pos hbelow]
      refine ⟨fun hsafe => ?_, fun halign =>
        Image.extendsSafely_of_aligned hok hbelow halign hround htop hafter hsearch⟩
      by_contra halign
      obtain ⟨e, t', hcode, -⟩ := hsafe
      have hnone : Image.mapRegionExtendUptoV (before ++ vr :: after) alloc v = none :=
        Image.mapRegionExtendUptoV_unaligned hvr hbelow halign hround htop hless hsearch
      rw [hnone] at hcode
      cases hcode
    rw [if_neg hbelow]
    have hcode : Image.mapRegionExtendUptoV (before ++ vr :: after) alloc v =
        some (.ok, before ++ vr :: after) := by
      unfold Image.mapRegionExtendUptoV
      dsimp only
      rw [hround, hsearch]
      dsimp only
      rw [add_eq hvr.stop]
      exact if_pos (Nat.not_lt.mp hbelow)
    constructor
    · rintro ⟨e, t', hcode', -, hreaches⟩
      rw [hcode] at hcode'
      cases hcode'
      exact Image.reaches_of_ok haround hless hafter hreaches
    · rintro ⟨hlt, hreach⟩
      exact ⟨.ok, _, hcode, hok, before, vr, vr, after, rfl, rfl, hlt,
        fun r hr => le_trans (le_pageEnd v) (hafter r hr), hreach, .refl vr⟩

theorem Image.extendable_of_aligned (hok : t.Ok) (hv : v < addrSize)
    (halign : ∀ r ∈ t, r.vaddr % vmPageSize = 0) : t.Extendable v := by
  intro vr hsearch
  obtain ⟨before, after, rfl, hless, -⟩ := Image.searchLess_eq_some hok hsearch
  have hvr := hok.around.region
  have hvaddr := halign vr (by simp)
  obtain ⟨hround, -⟩ := (roundupPage_eq hv).resolve_right fun hzero => by omega
  rw [hround] at hless
  split
  · exact hvaddr
  next hstop =>
  have hstopMod : vr.stop % vmPageSize = 0 := by
    unfold VirRegion.stop
    rw [Nat.add_mod, hvaddr, hvr.pages]
    rfl
  refine ⟨?_, pageEnd_le (Nat.not_lt.mp hstop) hstopMod⟩
  by_contra hge
  have hle := pageEnd_le (Nat.not_lt.mp hge) hvaddr
  omega

end Extension

/-- A page of data and, after a gap, a page of something else. -/
def twoAreas : Image :=
  [⟨⟨0x1000, 0x1000, [some ⟨0, 7⟩], true⟩, .anon, true⟩, ⟨⟨0x5000, 0x1000, [none], true⟩, .shared, false⟩]

theorem twoAreas_ok : twoAreas.Ok := by
  refine ⟨by simp [twoAreas, Image.Disjoint, VirRegion.stop], fun r hr => ?_⟩
  obtain rfl | hr := mem_cons.mp hr
  · exact ⟨by decide, by decide, by decide, by decide, by decide⟩
  · obtain rfl := mem_singleton.mp hr
    exact ⟨by decide, by decide, by decide, by decide, by decide⟩

/-- The data is extended up to the page of an address in the gap. -/
theorem twoAreas_extended : twoAreas.ExtendsSafely true 0x2345 :=
  (Image.extendsSafely_iff twoAreas_ok (by decide)).mpr
    (Image.extendable_of_aligned twoAreas_ok (by decide) fun r hr => by
      obtain rfl | hr := mem_cons.mp hr
      · decide
      · obtain rfl := mem_singleton.mp hr
        decide)

/-- A region that has been asked for at an address that is not that of a page. -/
def unaligned : Image := [⟨⟨0x1800, 0x1000, [none], true⟩, .anon, true⟩]

theorem unaligned_ok : unaligned.Ok := by
  refine ⟨pairwise_singleton _ _, fun r hr => ?_⟩
  obtain rfl := mem_singleton.mp hr
  exact ⟨by decide, by decide, by decide, by decide, by decide⟩

/-- `map_page_region` makes the region at that address, and then an assertion fails. -/
theorem unaligned_fails :
    ((Space.mapPageRegion ⟨⟨[], fun _ => .absent, fun _ => none⟩, 0⟩ (.exactly 0x1800) 0x1000
        (some ([none], true))).map fun s => s.proc.regions) = some (unaligned.map Area.toVirRegion) ∧
      unaligned.mapRegionExtendUptoV true 0x5000 = none ∧
      ¬ ∀ (t : Image) (alloc : Bool) (v : Nat), t.Ok → v < addrSize → t.ExtendsSafely alloc v := by
  have hnone : unaligned.mapRegionExtendUptoV true 0x5000 = none := by decide +kernel
  refine ⟨by decide +kernel, hnone, fun h => ?_⟩
  obtain ⟨e, t', hcode, -⟩ := h unaligned true 0x5000 unaligned_ok (by decide)
  rw [hnone] at hcode
  cases hcode

end HardenedMinix.RegionTree
