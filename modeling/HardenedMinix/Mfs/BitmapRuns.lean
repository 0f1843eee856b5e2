import HardenedMinix.Mfs.BitmapExact

/-!
# Zones and inodes

`alloc_zone`, `free_zone`, `alloc_inode` and `free_inode` number the bits of the two maps, and
remember where to search next. No number that is in use is handed out.

`none` is a panic.
-/

namespace HardenedMinix.Mfs

open SuperBlock

/-! ## The code -/

/-- The maps, the places where searches begin, and the inodes and zones that are in use. -/
structure Disk where
  dev : Chunks
  isearch : Nat
  zsearch : Nat
  used : Map → Nat → Bool

inductive Request
  /-- `alloc_zone`, near the given zone -/
  | allocZone (z : Nat)
  | freeZone (numb : Nat)
  /-- `alloc_inode`; is there a slot in the inode table? -/
  | allocInode (slot : Bool)
  | freeInode (inumb : Nat)
  deriving DecidableEq, Repr

namespace Disk

variable (sp : SuperBlock) (d : Disk)

/-- A number comes into use or goes out of use. -/
def setUsed (map : Map) (numb : Nat) (v : Bool) : Map → Nat → Bool := fun map' numb' =>
  if map' = map ∧ numb' = numb then v else d.used map' numb'

/-- 0 is `NO_ZONE`. -/
def allocZone (z : Nat) : Option (Nat × Disk) :=
  let bit := if z = sp.firstdatazone then d.zsearch else (z + bitRange - (sp.firstdatazone - 1)) % bitRange
  match sp.allocBit .ZMAP d.dev bit with
  | none => none
  | some (b, dev) =>
    if b = 0 then some (0, { d with dev := dev })
    else
      let zone := (sp.firstdatazone - 1 + b) % bitRange
      some (zone, { d with
        dev := dev
        zsearch := if z = sp.firstdatazone then b else d.zsearch
        used := d.setUsed .ZMAP zone true })

def freeZone (numb : Nat) : Option Disk :=
  if numb < sp.firstdatazone ∨ sp.zones ≤ numb then some d
  else
    let bit := numb - (sp.firstdatazone - 1)
    match sp.freeBit .ZMAP d.dev bit with
    | none => none
    | some dev => some { d with
        dev := dev
        zsearch := if bit < d.zsearch then bit else d.zsearch
        used := d.setUsed .ZMAP numb false }

/-- 0 stands for `NULL`. -/
def allocInode (slot : Bool) : Option (Nat × Disk) :=
  if sp.rdOnly then some (0, d)
  else
    match sp.allocBit .IMAP d.dev d.isearch with
    | none => none
    | some (b, dev) =>
      if b = 0 then some (0, { d with dev := dev })
      else if slot then
        some (b, { d with dev := dev, isearch := b, used := d.setUsed .IMAP b true })
      else
        match sp.freeBit .IMAP dev b with
        | none => none
        | some dev => some (0, { d with dev := dev, isearch := b })

def freeInode (inumb : Nat) : Option Disk :=
  if inumb = 0 ∨ sp.ninodes < inumb then some d
  else
    match sp.freeBit .IMAP d.dev inumb with
    | none => none
    | some dev => some { d with
        dev := dev
        isearch := if inumb < d.isearch then inumb else d.isearch
        used := d.setUsed .IMAP inumb false }

/-- A request, and the number that it hands out. -/
def step : Request → Option (Nat × Disk)
  | .allocZone z => d.allocZone sp z
  | .freeZone numb => (d.freeZone sp numb).map (Prod.mk 0)
  | .allocInode slot => d.allocInode sp slot
  | .freeInode inumb => (d.freeInode sp inumb).map (Prod.mk 0)

def Allows : Request → Prop
  | .allocZone z => z < bitRange
  | .freeZone numb => sp.firstdatazone ≤ numb → numb < sp.zones → d.used .ZMAP numb = true
  | .allocInode _ => True
  | .freeInode inumb => 0 < inumb → inumb ≤ sp.ninodes → d.used .IMAP inumb = true

/-- The number that the request hands out is in use. -/
def HandsOutUsed (n : Nat) : Request → Prop
  | .allocZone _ => n ≠ 0 ∧ d.used .ZMAP n = true
  | .freeZone _ => False
  | .allocInode _ => n ≠ 0 ∧ d.used .IMAP n = true
  | .freeInode _ => False

/-- No request of the sequence panics or hands out a number that is in use. -/
def Safe : Disk → List Request → Prop
  | _, [] => True
  | d, r :: rs => d.Allows sp r → ∃ n d', d.step sp r = some (n, d') ∧ ¬ d.HandsOutUsed n r ∧ Safe d' rs

end Disk

def SuperBlock.number (sp : SuperBlock) : Map → Nat → Nat
  | .IMAP, n => n
  | .ZMAP, n => sp.firstdatazone - 1 + n

/-- Bit 0 is set in both maps, and what is in use has a bit that is set. -/
structure Disk.Consistent (sp : SuperBlock) (d : Disk) : Prop where
  zero : ∀ map, sp.bit map d.dev 0 = true
  used : ∀ map numb, d.used map numb = true →
    ∃ n, 0 < n ∧ n < sp.bitCount map ∧ numb = sp.number map n ∧ sp.bit map d.dev n = true

/-! ## What one request does -/

section Requests

variable {sp : SuperBlock} {map map' : Map} {dev dev' : Chunks} {d : Disk} {n m : Nat} {v : Bool}

theorem SuperBlock.mapStart_inj {block block' : Nat} (hblock : block < sp.bitBlocks map)
    (hblock' : block' < sp.bitBlocks map') (h : sp.mapStart map + block = sp.mapStart map' + block') :
    map = map' ∧ block = block' := by
  cases map <;> cases map' <;> simp only [mapStart, bitBlocks] at *
  · exact ⟨trivial, by omega⟩
  · omega
  · omega
  · exact ⟨trivial, by omega⟩

theorem SuperBlock.Sets.bit_eq (h : sp.Sets map dev dev' n v) (hm : m / sp.bitsPerBlock < sp.bitBlocks map') :
    sp.bit map' dev' m = if map' = map ∧ m = n then v else sp.bit map' dev m := by
  unfold SuperBlock.bit
  rw [h.bits _ _ _ (Nat.mod_lt _ (by decide))]
  by_cases heq : map' = map ∧ m = n
  · obtain ⟨rfl, rfl⟩ := heq
    rw [if_pos ⟨rfl, rfl, rfl⟩, if_pos ⟨rfl, rfl⟩]
  rw [if_neg heq, if_neg]
  rintro ⟨hblock, hword, hbit⟩
  obtain ⟨rfl, hdiv⟩ := mapStart_inj hm h.inside hblock
  refine heq ⟨rfl, ?_⟩
  rw [← place_eq sp m, hdiv, hword, hbit, place_eq]

theorem SuperBlock.number_inj (h : sp.number map n = sp.number map m) : n = m := by
  cases map with
  | IMAP => exact h
  | ZMAP => exact Nat.add_left_cancel h

theorem Disk.Consistent.not_used (h : d.Consistent sp) (hclear : sp.bit map d.dev n = false) :
    d.used map (sp.number map n) = false := by
  cases hused : d.used map (sp.number map n) with
  | false => rfl
  | true =>
    obtain ⟨m, -, -, hnumber, hset⟩ := h.used _ _ hused
    rw [number_inj hnumber, hset] at hclear
    cases hclear

theorem Disk.Consistent.mono (h : d.Consistent sp) {d' : Disk} (hdev : d'.dev = d.dev)
    (hused : ∀ map numb, d'.used map numb = true → d.used map numb = true) : d'.Consistent sp := by
  refine ⟨fun map => ?_, fun map numb h' => ?_⟩
  · rw [hdev]
    exact h.zero map
  · rw [hdev]
    exact h.used map numb (hused map numb h')

theorem Disk.Consistent.sets (h : d.Consistent sp) (hok : sp.Accepted) (hcov : ∀ map, sp.Covered map)
    (hs : sp.Sets map d.dev dev' n v) (hpos : 0 < n) (hn : n < sp.bitCount map) (isearch zsearch : Nat) :
    (Disk.mk dev' isearch zsearch (d.setUsed map (sp.number map n) v)).Consistent sp := by
  refine ⟨fun map' => ?_, fun map' numb hused => ?_⟩
  · have hzero : 0 / sp.bitsPerBlock < sp.bitBlocks map' := by
      rw [Nat.zero_div]
      exact hok.bitBlocks_pos map'
    rw [hs.bit_eq hzero, if_neg fun heq => hpos.ne heq.2]
    exact h.zero map'
  change (if map' = map ∧ numb = sp.number map n then v else d.used map' numb) = true at hused
  change ∃ m, 0 < m ∧ m < sp.bitCount map' ∧ numb = sp.number map' m ∧ sp.bit map' dev' m = true
  split at hused
  · next heq =>
    obtain ⟨rfl, rfl⟩ := heq
    refine ⟨n, hpos, hn, rfl, ?_⟩
    rw [hs.bit_eq ((hcov map').inside hn), if_pos ⟨rfl, rfl⟩]
    exact hused
  next hne =>
  obtain ⟨m, hm, hcount, hnumber, hset⟩ := h.used map' numb hused
  refine ⟨m, hm, hcount, hnumber, ?_⟩
  rw [hs.bit_eq ((hcov map').inside hcount), if_neg]
  · exact hset
  · rintro ⟨rfl, rfl⟩
    exact hne ⟨rfl, hnumber⟩

theorem Disk.Consistent.allocBit (h : d.Consistent sp) (hok : sp.Accepted) (hrw : sp.rdOnly = false)
    (hcov : ∀ map, sp.Covered map) (map : Map) (origin : Nat) :
    sp.allocBit map d.dev origin = some (0, d.dev) ∨
      ∃ b dev', sp.allocBit map d.dev origin = some (b, dev') ∧ 0 < b ∧ b < sp.bitCount map ∧
        d.used map (sp.number map b) = false ∧ sp.Sets map d.dev dev' b true := by
  obtain ⟨res, dev', hcode, -, hnone, hsome⟩ := allocExact_of_covered hok hrw (hcov map) (h.zero map) origin
  by_cases hres : res = 0
  · rw [hres, hnone hres] at hcode
    exact .inl hcode
  · obtain ⟨hcount, hclear, hsets⟩ := hsome hres
    exact .inr ⟨res, dev', hcode, Nat.pos_of_ne_zero hres, hcount, h.not_used hclear, hsets⟩

theorem Disk.Consistent.freeBit (h : d.Consistent sp) (hrw : sp.rdOnly = false)
    (hcov : ∀ map, sp.Covered map) (hused : d.used map (sp.number map n) = true) :
    ∃ dev', sp.freeBit map d.dev n = some dev' ∧ 0 < n ∧ n < sp.bitCount map ∧ sp.Sets map d.dev dev' n false := by
  obtain ⟨m, hpos, hcount, hnumber, hset⟩ := h.used _ _ hused
  obtain rfl := number_inj hnumber
  obtain ⟨dev', hcode, hsets⟩ := freeExact_of_covered hrw (hcov map) hcount hset
  exact ⟨dev', hcode, hpos, hcount, hsets⟩

theorem SuperBlock.Accepted.number_zone (hok : sp.Accepted) (hn : n < sp.bitCount .ZMAP) :
    (sp.firstdatazone - 1 + n) % bitRange = sp.number .ZMAP n ∧ sp.number .ZMAP n ≠ 0 := by
  have hfirst := hok.firstdatazone
  have hzones := hok.zones
  change n < sp.zones - (sp.firstdatazone - 1) at hn
  change (sp.firstdatazone - 1 + n) % bitRange = sp.firstdatazone - 1 + n ∧ sp.firstdatazone - 1 + n ≠ 0
  have hlt : sp.firstdatazone - 1 + n < bitRange := by
    unfold bitRange
    omega
  exact ⟨Nat.mod_eq_of_lt hlt, by omega⟩

theorem Disk.Consistent.step (h : d.Consistent sp) (hok : sp.Accepted) (hrw : sp.rdOnly = false)
    (hcov : ∀ map, sp.Covered map) (r : Request) (hallows : d.Allows sp r) :
    ∃ n d', d.step sp r = some (n, d') ∧ ¬ d.HandsOutUsed n r ∧ d'.Consistent sp := by
  cases r with
  | allocZone z =>
    change ∃ n d', d.allocZone sp z = some (n, d') ∧ ¬ (n ≠ 0 ∧ d.used .ZMAP n = true) ∧ d'.Consistent sp
    unfold Disk.allocZone
    dsimp only
    obtain hnone | ⟨b, dev', hcode, hpos, hcount, hfree, hsets⟩ := h.allocBit hok hrw hcov .ZMAP
      (if z = sp.firstdatazone then d.zsearch else (z + bitRange - (sp.firstdatazone - 1)) % bitRange)
    · rw [hnone]
      exact ⟨0, d, rfl, fun hne => hne.1 rfl, h⟩
    rw [hcode]
    dsimp only
    rw [if_neg hpos.ne', (hok.number_zone hcount).1]
    refine ⟨_, _, rfl, fun hused => ?_, h.sets hok hcov hsets hpos hcount _ _⟩
    rw [hfree] at hused
    cases hused.2
  | freeZone numb =>
    change ∃ n d', (d.freeZone sp numb).map (Prod.mk 0) = some (n, d') ∧ ¬ False ∧ d'.Consistent sp
    unfold Disk.freeZone
    split
    · exact ⟨0, d, rfl, id, h⟩
    next hin =>
    have hfirst := hok.firstdatazone
    have hnumb : numb = sp.number .ZMAP (numb - (sp.firstdatazone - 1)) := by
      change numb = sp.firstdatazone - 1 + (numb - (sp.firstdatazone - 1))
      omega
    have hused := hallows (by omega) (by omega)
    rw [hnumb] at hused
    obtain ⟨dev', hcode, hpos, hcount, hsets⟩ := h.freeBit hrw hcov hused
    have hd' := h.sets hok hcov hsets hpos hcount d.isearch (if numb - (sp.firstdatazone - 1) < d.zsearch then
      numb - (sp.firstdatazone - 1) else d.zsearch)
    rw [← hnumb] at hd'
    dsimp only
    rw [hcode]
    exact ⟨0, _, rfl, id, hd'⟩
  | allocInode slot =>
    change ∃ n d', d.allocInode sp slot = some (n, d') ∧ ¬ (n ≠ 0 ∧ d.used .IMAP n = true) ∧ d'.Consistent sp
    unfold Disk.allocInode
    rw [if_neg (by simp [hrw])]
    obtain hnone | ⟨b, dev', hcode, hpos, hcount, hfree, hsets⟩ := h.allocBit hok hrw hcov .IMAP d.isearch
    · rw [hnone]
      exact ⟨0, d, rfl, fun hne => hne.1 rfl, h⟩
    have hset := h.sets hok hcov hsets hpos hcount b d.zsearch
    rw [hcode]
    dsimp only
    rw [if_neg hpos.ne']
    cases slot with
    | true =>
      refine ⟨b, _, rfl, fun hused => ?_, hset⟩
      change d.used .IMAP b = false at hfree
      rw [hfree] at hused
      cases hused.2
    | false =>
      have htaken : d.setUsed .IMAP (sp.number .IMAP b) true .IMAP (sp.number .IMAP b) = true := if_pos ⟨rfl, rfl⟩
      obtain ⟨dev'', hcode', -, -, hsets'⟩ := hset.freeBit hrw hcov htaken
      have hcleared := hset.sets hok hcov hsets' hpos hcount b d.zsearch
      rw [if_neg Bool.false_ne_true]
      change sp.freeBit .IMAP dev' b = some dev'' at hcode'
      rw [hcode']
      refine ⟨0, _, rfl, fun hne => hne.1 rfl, hcleared.mono rfl fun map numb hused => ?_⟩
      -- the number that was taken for a moment was not in use
      have hne : ¬ (map = .IMAP ∧ numb = sp.number .IMAP b) := by
        rintro ⟨hmap, hnumb⟩
        rw [hmap, hnumb, hfree] at hused
        cases hused
      change (if map = .IMAP ∧ numb = sp.number .IMAP b then false else
        if map = .IMAP ∧ numb = sp.number .IMAP b then true else d.used map numb) = true
      rw [if_neg hne, if_neg hne]
      exact hused
  | freeInode inumb =>
    change ∃ n d', (d.freeInode sp inumb).map (Prod.mk 0) = some (n, d') ∧ ¬ False ∧ d'.Consistent sp
    unfold Disk.freeInode
    split
    · exact ⟨0, d, rfl, id, h⟩
    next hin =>
    have hused : d.used .IMAP (sp.number .IMAP inumb) = true := hallows (by omega) (by omega)
    obtain ⟨dev', hcode, hpos, hcount, hsets⟩ := h.freeBit hrw hcov hused
    rw [hcode]
    exact ⟨0, _, rfl, id, h.sets hok hcov hsets hpos hcount _ _⟩

theorem Disk.Consistent.safe (hok : sp.Accepted) (hrw : sp.rdOnly = false) (hcov : ∀ map, sp.Covered map)
    (rs : List Request) (h : d.Consistent sp) : Disk.Safe sp d rs := by
  induction rs generalizing d with
  | nil => trivial
  | cons r rs ih =>
    intro hallows
    obtain ⟨n, d', hstep, hnew, hd'⟩ := h.step hok hrw hcov r hallows
    exact ⟨n, d', hstep, hnew, ih hd'⟩

end Requests

/-! ## Exactness -/

/-- Bitmap allocation is exact, and no number that is in use is handed out in any run. -/
def SuperBlock.BitmapsExact (sp : SuperBlock) : Prop :=
  (∀ map, sp.Exact map) ∧ ∀ d : Disk, d.Consistent sp → ∀ rs, Disk.Safe sp d rs

theorem rdOnly_of_readSuper {raw : RawSuper} {sp : SuperBlock} (h : readSuper raw = some sp) : sp.rdOnly = false := by
  unfold readSuper at h
  split at h
  · cases h
  split at h
  · split at h
    · cases h
      rfl
    · cases h
  · cases h

/-- The bitmaps of an accepted file system are exact if and only if they cover the inodes and the
zones. -/
theorem bitmapsExact_iff {raw : RawSuper} {sp : SuperBlock} (h : readSuper raw = some sp) :
    sp.BitmapsExact ↔ ∀ map, sp.Covered map := by
  have hok := accepted_of_readSuper h
  have hrw := rdOnly_of_readSuper h
  constructor
  · intro hexact map
    exact (exact_iff_covered hok hrw).mp (hexact.1 map)
  · intro hcov
    exact ⟨fun map => (exact_iff_covered hok hrw).mpr (hcov map),
      fun d hd rs => hd.safe hok hrw hcov rs⟩

/-- The super block of a file system of version 2 with one block for each map. -/
def rawSuper (zones : BitVec 32) : RawSuper where
  ninodes := 100
  nzones := 0
  imapBlocks := 1
  zmapBlocks := 1
  firstdatazoneOld := 10
  logZoneSize := 0
  flags := 0
  maxSize := 0x7FFFFFFF
  zones := zones
  magic := 0x2468
  blockSize := 0

def superV2Block (zones : Nat) : SuperBlock where
  version := .V2
  native := true
  rdOnly := false
  blockSize := 1024
  inodesPerBlock := 16
  imapBlocks := 1
  zmapBlocks := 1
  ninodes := 100
  zones := zones
  firstdatazone := 10
  logZoneSize := 0
  maxSize := 0x7FFFFFFF
  ndzones := 7
  nindirs := 256
  isearch := 0
  zsearch := 0

theorem smallDisk_exact : (superV2Block 8000).BitmapsExact :=
  (bitmapsExact_iff (show readSuper (rawSuper 8000) = some (superV2Block 8000) by decide)).mpr fun map => by
    cases map with
    | IMAP => exact ⟨by decide, by decide, by decide⟩
    | ZMAP => exact ⟨by decide, by decide, by decide⟩

/-- One block has 8192 bits, and `read_super` accepts it for 20000 zones. -/
theorem largeDisk_not_exact : ¬ ∀ raw sp, readSuper raw = some sp → sp.BitmapsExact := by
  intro hall
  have hread : readSuper (rawSuper 20000) = some (superV2Block 20000) := by decide
  have hexact := (hall _ _ hread).1 .ZMAP
  exact not_exact_of_room (accepted_of_readSuper hread) rfl (by decide) (by decide) hexact

end HardenedMinix.Mfs
