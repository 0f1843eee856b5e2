import HardenedMinix.Mfs.Conv

/-!
# Inodes in core and on disk

`rw_inode` copies an inode between the table in core and its block. Version 1 has narrower fields
than in core, and a file system may have the other byte order. A block of inodes is kept as the
arrays that `b_v1_ino` and `b_v2_ino` make of it.
-/

namespace HardenedMinix.Mfs

/-! ## Constants -/

def v1NrDzones : Nat := 7

def v1NrTzones : Nat := 9

def v2NrDzones : Nat := 7

def v2NrTzones : Nat := 10

def staticBlockSize : Nat := 1024

/-- `sizeof (d1_inode)` -/
def v1InodeSize : Nat := 32

/-- `sizeof (d2_inode)` -/
def v2InodeSize : Nat := 64

def v1InodesPerBlock : Nat := staticBlockSize / v1InodeSize

def v2InodesPerBlock (b : Nat) : Nat := b / v2InodeSize

def v1Indirects : Nat := staticBlockSize / 2

def v2Indirects (b : Nat) : Nat := b / 4

def startBlock : Nat := 2

def linkMax : Nat := 32767

/-! ## Data -/

inductive Version
  | V1
  | V2
  | V3
  deriving DecidableEq, Repr

/-- What `rw_inode` uses of the super block. -/
structure Super where
  version : Version
  native : Bool
  rdOnly : Bool
  blockSize : Nat
  inodesPerBlock : Nat
  imapBlocks : Nat
  zmapBlocks : Nat
  deriving DecidableEq, Repr

/-- The bits of `i_update`. -/
structure Update where
  atime : Bool
  ctime : Bool
  mtime : Bool
  deriving DecidableEq, Repr

structure Inode where
  mode : BitVec 16
  nlinks : BitVec 16
  uid : BitVec 16
  gid : BitVec 16
  size : BitVec 32
  atime : BitVec 32
  mtime : BitVec 32
  ctime : BitVec 32
  zone : Nat → BitVec 32
  num : Nat
  ndzones : Nat
  nindirs : Nat
  dirt : Bool
  update : Update

structure D1Inode where
  mode : BitVec 16
  uid : BitVec 16
  size : BitVec 32
  mtime : BitVec 32
  gid : BitVec 8
  nlinks : BitVec 8
  zone : Nat → BitVec 16

structure D2Inode where
  mode : BitVec 16
  nlinks : BitVec 16
  uid : BitVec 16
  gid : BitVec 16
  size : BitVec 32
  atime : BitVec 32
  mtime : BitVec 32
  ctime : BitVec 32
  zone : Nat → BitVec 32

/-- A block of inodes, as each of the two versions sees it. -/
structure InodeBlock where
  v1 : Nat → D1Inode
  v2 : Nat → D2Inode

/-- The blocks, and which of them have been marked dirty. -/
structure Device where
  block : Nat → InodeBlock
  marked : Nat → Bool

inductive Direction
  | reading
  | writing
  deriving DecidableEq, Repr

/-! ## The code -/

/-- `old_icopy`, reading. -/
def oldIcopyRead (rip : Inode) (dip : D1Inode) (norm : Bool) : Inode :=
  let mtime := conv4 norm dip.mtime
  { rip with
    mode := (conv2 norm (dip.mode.setWidth 32)).setWidth 16
    uid := (conv2 norm (dip.uid.signExtend 32)).setWidth 16
    size := conv4 norm dip.size
    mtime := mtime
    atime := mtime
    ctime := mtime
    nlinks := dip.nlinks.setWidth 16
    gid := dip.gid.setWidth 16
    ndzones := v1NrDzones
    nindirs := v1Indirects
    zone := fun i => if i < v1NrTzones then conv2 norm ((dip.zone i).setWidth 32) else rip.zone i }

/-- `old_icopy`, writing. -/
def oldIcopyWrite (rip : Inode) (dip : D1Inode) (norm : Bool) : D1Inode :=
  { mode := (conv2 norm (rip.mode.setWidth 32)).setWidth 16
    uid := (conv2 norm (rip.uid.setWidth 32)).setWidth 16
    size := conv4 norm rip.size
    mtime := conv4 norm rip.mtime
    nlinks := rip.nlinks.setWidth 8
    gid := rip.gid.setWidth 8
    zone := fun i => if i < v1NrTzones then (conv2 norm (rip.zone i)).setWidth 16 else dip.zone i }

/-- `new_icopy`, reading. -/
def newIcopyRead (sp : Super) (rip : Inode) (dip : D2Inode) (norm : Bool) : Inode :=
  { rip with
    mode := (conv2 norm (dip.mode.setWidth 32)).setWidth 16
    uid := (conv2 norm (dip.uid.signExtend 32)).setWidth 16
    nlinks := (conv2 norm (dip.nlinks.setWidth 32)).setWidth 16
    gid := (conv2 norm (dip.gid.setWidth 32)).setWidth 16
    size := conv4 norm dip.size
    atime := conv4 norm dip.atime
    ctime := conv4 norm dip.ctime
    mtime := conv4 norm dip.mtime
    ndzones := v2NrDzones
    nindirs := v2Indirects sp.blockSize
    zone := fun i => if i < v2NrTzones then conv4 norm (dip.zone i) else rip.zone i }

/-- `new_icopy`, writing. -/
def newIcopyWrite (rip : Inode) (dip : D2Inode) (norm : Bool) : D2Inode :=
  { mode := (conv2 norm (rip.mode.setWidth 32)).setWidth 16
    uid := (conv2 norm (rip.uid.setWidth 32)).setWidth 16
    nlinks := (conv2 norm (rip.nlinks.setWidth 32)).setWidth 16
    gid := (conv2 norm (rip.gid.setWidth 32)).setWidth 16
    size := conv4 norm rip.size
    atime := conv4 norm rip.atime
    ctime := conv4 norm rip.ctime
    mtime := conv4 norm rip.mtime
    zone := fun i => if i < v2NrTzones then conv4 norm (rip.zone i) else dip.zone i }

def updateTimes (sp : Super) (rip : Inode) (curTime : BitVec 32) : Inode :=
  if sp.rdOnly then rip
  else
    { rip with
      atime := if rip.update.atime then curTime else rip.atime
      ctime := if rip.update.ctime then curTime else rip.ctime
      mtime := if rip.update.mtime then curTime else rip.mtime
      update := ⟨false, false, false⟩ }

def inodeBlock (sp : Super) (num : Nat) : Nat :=
  (num - 1) / sp.inodesPerBlock + (startBlock + sp.imapBlocks + sp.zmapBlocks)

/-- The places of an inode in its block: `dip` and `dip2`. -/
def dipIndex (num : Nat) : Nat := (num - 1) % v1InodesPerBlock

def dip2Index (sp : Super) (num : Nat) : Nat := (num - 1) % v2InodesPerBlock sp.blockSize

/-- `rw_inode`, with what `clock_time` returns. -/
def rwInode (sp : Super) (dev : Device) (rip : Inode) (curTime : BitVec 32) (rwFlag : Direction) :
    Inode × Device :=
  let b := inodeBlock sp rip.num
  let bp := dev.block b
  let dip := dipIndex rip.num
  let dip2 := dip2Index sp rip.num
  match rwFlag with
  | .reading =>
    let rip :=
      if sp.version = .V1 then oldIcopyRead rip (bp.v1 dip) sp.native
      else newIcopyRead sp rip (bp.v2 dip2) sp.native
    ({ rip with dirt := false }, dev)
  | .writing =>
    let rip := if rip.update ≠ ⟨false, false, false⟩ then updateTimes sp rip curTime else rip
    let marked := if sp.rdOnly then dev.marked else Function.update dev.marked b true
    let bp :=
      if sp.version = .V1 then
        { bp with v1 := Function.update bp.v1 dip (oldIcopyWrite rip (bp.v1 dip) sp.native) }
      else { bp with v2 := Function.update bp.v2 dip2 (newIcopyWrite rip (bp.v2 dip2) sp.native) }
    ({ rip with dirt := false }, { block := Function.update dev.block b bp, marked := marked })

/-- What `fs_link` does to the inode; `none` is `EMLINK`. -/
def fsLinkInode (rip : Inode) : Option Inode :=
  if linkMax ≤ rip.nlinks.toNat then none
  else some { rip with nlinks := rip.nlinks + 1, update := { rip.update with ctime := true }, dirt := true }

/-- `fs_link`, `n` times. -/
def fsLinks (rip : Inode) : Nat → Option Inode
  | 0 => some rip
  | n + 1 => (fsLinkInode rip).bind fun rip => fsLinks rip n

/-! ## The round trip -/

/-- The number of zone numbers in an inode. -/
def Version.nrTzones : Version → Nat
  | .V1 => v1NrTzones
  | .V2 => v2NrTzones
  | .V3 => v2NrTzones

/-- The attributes that are to be restored. -/
structure SameAttributes (version : Version) (rip rip' : Inode) : Prop where
  mode : rip'.mode = rip.mode
  uid : rip'.uid = rip.uid
  gid : rip'.gid = rip.gid
  size : rip'.size = rip.size
  nlinks : rip'.nlinks = rip.nlinks
  zone : ∀ i < version.nrTzones, rip'.zone i = rip.zone i
  mtime : rip'.mtime = rip.mtime
  atime : version ≠ .V1 → rip'.atime = rip.atime
  ctime : version ≠ .V1 → rip'.ctime = rip.ctime

def Device.stored (dev : Device) (sp : Super) (num : Nat) : D1Inode ⊕ D2Inode :=
  if sp.version = .V1 then .inl ((dev.block (inodeBlock sp num)).v1 (dipIndex num))
  else .inr ((dev.block (inodeBlock sp num)).v2 (dip2Index sp num))

/-- The inode is written and then read into any slot: it comes back, and other inodes are as they
were. -/
def RoundTrip (sp : Super) (dev : Device) (rip slot : Inode) (t t' : BitVec 32) : Prop :=
  let written := rwInode sp dev rip t .writing
  let read := rwInode sp written.2 { slot with num := rip.num } t' .reading
  SameAttributes sp.version written.1 read.1 ∧
    ∀ num, 0 < num → num ≠ rip.num → read.2.stored sp num = dev.stored sp num

/-- The number of inodes in a block is what `read_super` has computed. -/
structure Super.Ok (sp : Super) : Prop where
  size : staticBlockSize ≤ sp.blockSize
  old : sp.version = .V1 → sp.inodesPerBlock = v1InodesPerBlock
  new : sp.version ≠ .V1 → sp.inodesPerBlock = v2InodesPerBlock sp.blockSize

structure Inode.FitsV1 (rip : Inode) : Prop where
  nlinks : rip.nlinks.toNat < 256
  gid : rip.gid.toNat < 256
  zone : ∀ i < v1NrTzones, (rip.zone i).toNat < 65536

section Fields

theorem setWidth_byte_iff (x : BitVec 16) : (x.setWidth 8).setWidth 16 = x ↔ x.toNat < 256 := by
  rw [← BitVec.toNat_inj, BitVec.toNat_setWidth, BitVec.toNat_setWidth]
  have hlt := x.isLt
  omega

theorem zone_half_iff (norm : Bool) (z : BitVec 32) :
    conv2 norm (((conv2 norm z).setWidth 16).setWidth 32) = z ↔ z.toNat < 65536 := by
  have hmask : (0xFFFF#32).toNat = 2 ^ 16 - 1 := rfl
  rw [conv2_conv2_zone, ← BitVec.toNat_inj, BitVec.toNat_and, hmask, Nat.and_two_pow_sub_one_eq_mod]
  have hlt := z.isLt
  omega

end Fields

/-! ## Places -/

section Places

variable {sp : Super} {num num' : Nat}

theorem place_injective {perBlock : Nat} (hnum : 0 < num) (hnum' : 0 < num')
    (hdiv : (num' - 1) / perBlock = (num - 1) / perBlock) (hmod : (num' - 1) % perBlock = (num - 1) % perBlock) :
    num' = num := by
  have h := Nat.div_add_mod (num - 1) perBlock
  have h' := Nat.div_add_mod (num' - 1) perBlock
  rw [hdiv, hmod] at h'
  omega

theorem dipIndex_ne (hsp : sp.Ok) (hversion : sp.version = .V1) (hnum : 0 < num) (hnum' : 0 < num')
    (hne : num' ≠ num) (hblock : inodeBlock sp num' = inodeBlock sp num) : dipIndex num' ≠ dipIndex num := by
  intro hmod
  unfold inodeBlock at hblock
  rw [hsp.old hversion] at hblock
  exact hne (place_injective hnum hnum' (by omega) hmod)

theorem dip2Index_ne (hsp : sp.Ok) (hversion : sp.version ≠ .V1) (hnum : 0 < num) (hnum' : 0 < num')
    (hne : num' ≠ num) (hblock : inodeBlock sp num' = inodeBlock sp num) : dip2Index sp num' ≠ dip2Index sp num := by
  intro hmod
  unfold inodeBlock at hblock
  rw [hsp.new hversion] at hblock
  exact hne (place_injective hnum hnum' (by omega) hmod)

end Places

/-! ## Writing and reading -/

section Writing

variable {sp : Super} {dev : Device} {rip slot : Inode} {t t' : BitVec 32} {num : Nat}

/-- The inode after its times have been updated. -/
def Inode.updated (sp : Super) (rip : Inode) (t : BitVec 32) : Inode :=
  if rip.update ≠ ⟨false, false, false⟩ then updateTimes sp rip t else rip

theorem updated_fields (sp : Super) (rip : Inode) (t : BitVec 32) :
    (rip.updated sp t).nlinks = rip.nlinks ∧ (rip.updated sp t).gid = rip.gid ∧
      (rip.updated sp t).zone = rip.zone := by
  unfold Inode.updated updateTimes
  split
  · split <;> exact ⟨rfl, rfl, rfl⟩
  · exact ⟨rfl, rfl, rfl⟩

theorem fitsV1_updated (sp : Super) (t : BitVec 32) : (rip.updated sp t).FitsV1 ↔ rip.FitsV1 := by
  obtain ⟨hnlinks, hgid, hzone⟩ := updated_fields sp rip t
  constructor
  · rintro ⟨h1, h2, h3⟩
    rw [hnlinks] at h1
    rw [hgid] at h2
    rw [hzone] at h3
    exact ⟨h1, h2, h3⟩
  rintro ⟨h1, h2, h3⟩
  refine ⟨?_, ?_, ?_⟩
  · rwa [hnlinks]
  · rwa [hgid]
  · rwa [hzone]

theorem stored_writing (dev : Device) (t : BitVec 32) (hsp : sp.Ok) (hnum : 0 < rip.num) (hpos : 0 < num) :
    (rwInode sp dev rip t .writing).2.stored sp num = if num = rip.num then
        if sp.version = .V1 then
          .inl (oldIcopyWrite (rip.updated sp t)
            ((dev.block (inodeBlock sp rip.num)).v1 (dipIndex rip.num)) sp.native)
        else
          .inr (newIcopyWrite (rip.updated sp t)
            ((dev.block (inodeBlock sp rip.num)).v2 (dip2Index sp rip.num)) sp.native)
      else dev.stored sp num := by
  by_cases hblock : inodeBlock sp num = inodeBlock sp rip.num
  · by_cases hversion : sp.version = .V1
    · have hcode : (rwInode sp dev rip t .writing).2.stored sp num =
          .inl (Function.update (dev.block (inodeBlock sp rip.num)).v1 (dipIndex rip.num)
            (oldIcopyWrite (rip.updated sp t)
              ((dev.block (inodeBlock sp rip.num)).v1 (dipIndex rip.num)) sp.native) (dipIndex num)) := by
        unfold Device.stored
        rw [if_pos hversion, hblock]
        unfold rwInode
        dsimp only
        rw [Function.update_self, if_pos hversion]
        rfl
      rw [hcode]
      split
      · next heq => rw [heq, Function.update_self]
      · next hne =>
        rw [Function.update_of_ne (dipIndex_ne hsp hversion hnum hpos hne hblock)]
        unfold Device.stored
        rw [if_pos hversion, hblock]
    have hcode : (rwInode sp dev rip t .writing).2.stored sp num =
        .inr (Function.update (dev.block (inodeBlock sp rip.num)).v2 (dip2Index sp rip.num)
          (newIcopyWrite (rip.updated sp t)
            ((dev.block (inodeBlock sp rip.num)).v2 (dip2Index sp rip.num)) sp.native) (dip2Index sp num)) := by
      unfold Device.stored
      rw [if_neg hversion, hblock]
      unfold rwInode
      dsimp only
      rw [Function.update_self, if_neg hversion]
      rfl
    rw [hcode]
    split
    · next heq => rw [heq, Function.update_self]
    · next hne =>
      rw [Function.update_of_ne (dip2Index_ne hsp hversion hnum hpos hne hblock)]
      unfold Device.stored
      rw [if_neg hversion, hblock]
  · rw [if_neg fun heq => hblock (by rw [heq])]
    unfold Device.stored rwInode
    dsimp only
    rw [Function.update_of_ne hblock]

theorem old_sameAttributes_iff (rip slot : Inode) (dip : D1Inode) (norm : Bool) :
    SameAttributes .V1 rip (oldIcopyRead slot (oldIcopyWrite rip dip norm) norm) ↔ rip.FitsV1 := by
  have hzone (i : Nat) (hi : i < v1NrTzones) :
      (oldIcopyRead slot (oldIcopyWrite rip dip norm) norm).zone i =
        conv2 norm (((conv2 norm (rip.zone i)).setWidth 16).setWidth 32) := by
    unfold oldIcopyRead oldIcopyWrite
    dsimp only
    rw [if_pos hi, if_pos hi]
  constructor
  · intro h
    refine ⟨(setWidth_byte_iff _).mp h.nlinks, (setWidth_byte_iff _).mp h.gid, fun i hi => ?_⟩
    have heq := h.zone i hi
    rw [hzone i hi] at heq
    exact (zone_half_iff norm _).mp heq
  intro h
  refine ⟨(conv2_conv2_field norm _).1, (conv2_conv2_field norm _).2, (setWidth_byte_iff _).mpr h.gid,
    conv4_conv4 norm _, (setWidth_byte_iff _).mpr h.nlinks, fun i hi => ?_, conv4_conv4 norm _,
    fun hne => absurd rfl hne, fun hne => absurd rfl hne⟩
  rw [hzone i hi]
  exact (zone_half_iff norm _).mpr (h.zone i hi)

theorem new_sameAttributes (sp : Super) (hversion : sp.version ≠ .V1) (rip slot : Inode) (dip : D2Inode)
    (norm : Bool) : SameAttributes sp.version rip (newIcopyRead sp slot (newIcopyWrite rip dip norm) norm) := by
  refine ⟨(conv2_conv2_field norm _).1, (conv2_conv2_field norm _).2, (conv2_conv2_field norm _).1,
    conv4_conv4 norm _, (conv2_conv2_field norm _).1, fun i hi => ?_, conv4_conv4 norm _,
    fun _ => conv4_conv4 norm _, fun _ => conv4_conv4 norm _⟩
  have hi' : i < v2NrTzones := by
    cases hv : sp.version with
    | V1 => exact absurd hv hversion
    | V2 =>
      rw [hv] at hi
      exact hi
    | V3 =>
      rw [hv] at hi
      exact hi
  unfold newIcopyRead newIcopyWrite
  dsimp only
  rw [if_pos hi', if_pos hi']
  exact conv4_conv4 norm _

theorem sameAttributes_reading (hsp : sp.Ok) (hnum : 0 < rip.num) :
    SameAttributes sp.version (rwInode sp dev rip t .writing).1
        (rwInode sp (rwInode sp dev rip t .writing).2 { slot with num := rip.num } t' .reading).1 ↔
      (sp.version = .V1 → rip.FitsV1) := by
  have hstored := stored_writing dev t hsp hnum hnum
  rw [if_pos rfl] at hstored
  unfold Device.stored at hstored
  by_cases hversion : sp.version = .V1
  · rw [if_pos hversion, if_pos hversion] at hstored
    have hdip := Sum.inl.inj hstored
    have hread : (rwInode sp (rwInode sp dev rip t .writing).2 { slot with num := rip.num } t' .reading).1 =
        { oldIcopyRead { slot with num := rip.num } (oldIcopyWrite (rip.updated sp t)
          ((dev.block (inodeBlock sp rip.num)).v1 (dipIndex rip.num)) sp.native) sp.native with dirt := false } := by
      rw [← hdip]
      unfold rwInode
      dsimp only
      rw [if_pos hversion]
    rw [hread, forall_prop_of_true hversion, ← fitsV1_updated sp t, hversion,
      ← old_sameAttributes_iff _ { slot with num := rip.num }
        ((dev.block (inodeBlock sp rip.num)).v1 (dipIndex rip.num)) sp.native]
    exact ⟨fun h => ⟨h.1, h.2, h.3, h.4, h.5, h.6, h.7, h.8, h.9⟩, fun h => ⟨h.1, h.2, h.3, h.4, h.5, h.6, h.7, h.8, h.9⟩⟩
  rw [if_neg hversion, if_neg hversion] at hstored
  have hdip := Sum.inr.inj hstored
  have hread : (rwInode sp (rwInode sp dev rip t .writing).2 { slot with num := rip.num } t' .reading).1 =
      { newIcopyRead sp { slot with num := rip.num } (newIcopyWrite (rip.updated sp t)
        ((dev.block (inodeBlock sp rip.num)).v2 (dip2Index sp rip.num)) sp.native) sp.native with dirt := false } := by
    rw [← hdip]
    unfold rwInode
    dsimp only
    rw [if_neg hversion]
  rw [hread]
  refine iff_of_true ?_ fun h => absurd h hversion
  have h := new_sameAttributes sp hversion (rip.updated sp t) { slot with num := rip.num }
    ((dev.block (inodeBlock sp rip.num)).v2 (dip2Index sp rip.num)) sp.native
  exact ⟨h.1, h.2, h.3, h.4, h.5, h.6, h.7, h.8, h.9⟩

/-- The round trip restores the inode if and only if, in a file system of version 1, it fits. -/
theorem roundTrip_iff (hsp : sp.Ok) (hnum : 0 < rip.num) :
    RoundTrip sp dev rip slot t t' ↔ (sp.version = .V1 → rip.FitsV1) := by
  unfold RoundTrip
  dsimp only
  rw [sameAttributes_reading hsp hnum]
  refine and_iff_left fun num hpos hne => ?_
  have hstored := stored_writing dev t hsp hnum hpos
  rw [if_neg hne] at hstored
  exact hstored

end Writing

/-- A file system of version 1 in its own byte order, and one of version 2 in the other. -/
def oldFs : Super := ⟨.V1, true, false, 1024, 32, 1, 1⟩

def swappedFs : Super := ⟨.V2, false, false, 1024, 16, 1, 1⟩

def zeros : Device where
  block _ := ⟨fun _ => ⟨0, 0, 0, 0, 0, 0, fun _ => 0⟩, fun _ => ⟨0, 0, 0, 0, 0, 0, 0, 0, fun _ => 0⟩⟩
  marked _ := false

def file : Inode := ⟨0x81A4, 1, 2, 300, 77, 1, 2, 3, fun _ => 70000, 5, 7, 256, true, ⟨true, false, false⟩⟩

theorem file_roundTrip : RoundTrip swappedFs zeros file file 9 10 :=
  (roundTrip_iff ⟨by decide, by decide, fun _ => by decide⟩ (by decide)).mpr fun h => by cases h

theorem fsLinks_eq (rip : Inode) (n : Nat) (h : rip.nlinks.toNat + n ≤ linkMax) :
    ∃ rip', fsLinks rip n = some rip' ∧ rip'.nlinks.toNat = rip.nlinks.toNat + n ∧ rip'.num = rip.num := by
  induction n generalizing rip with
  | zero => exact ⟨rip, rfl, rfl, rfl⟩
  | succ n ih =>
    have hroom : ¬ linkMax ≤ rip.nlinks.toNat := by omega
    have hstep : fsLinkInode rip =
        some { rip with nlinks := rip.nlinks + 1, update := { rip.update with ctime := true }, dirt := true } :=
      if_neg hroom
    have hsucc : (rip.nlinks + 1).toNat = rip.nlinks.toNat + 1 := by
      have hlt : rip.nlinks.toNat + 1 < 65536 := by
        unfold linkMax at hroom
        omega
      rw [BitVec.toNat_add]
      exact Nat.mod_eq_of_lt hlt
    obtain ⟨rip', hlinks, hnlinks, hnum⟩ := ih
      { rip with nlinks := rip.nlinks + 1, update := { rip.update with ctime := true }, dirt := true }
      (by rw [hsucc]; omega)
    refine ⟨rip', ?_, ?_, hnum⟩
    · unfold fsLinks
      rw [hstep]
      exact hlinks
    · rw [hnlinks, hsucc]
      omega

/-- A file of version 1 that is linked 255 times has 256 links; it does not come back. -/
theorem links_lost :
    ∃ rip, fsLinks { file with gid := 3, zone := fun _ => 40 } 255 = some rip ∧ rip.nlinks.toNat = 256 ∧
      ¬ ∀ (sp : Super) (dev : Device) (slot : Inode) (t t' : BitVec 32), sp.Ok → RoundTrip sp dev rip slot t t' := by
  obtain ⟨rip, hlinks, hnlinks, hnum⟩ :=
    fsLinks_eq { file with gid := 3, zone := fun _ => 40 } 255 (by decide)
  refine ⟨rip, hlinks, hnlinks, fun h => ?_⟩
  have hok : oldFs.Ok := ⟨by decide, fun _ => by decide, fun hne => absurd rfl hne⟩
  have hpos : 0 < rip.num := by
    rw [hnum]
    decide
  have hfits := (sameAttributes_reading hok hpos).mp (h oldFs zeros rip 0 0 hok).1 rfl
  have hlt := hfits.nlinks
  rw [hnlinks] at hlt
  exact absurd hlt (by decide)

end HardenedMinix.Mfs
