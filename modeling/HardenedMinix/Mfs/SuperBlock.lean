import HardenedMinix.Mfs.InodeStore

/-!
# The super block

`read_super` takes the fields of the super block from disk, in either byte order, works out the
sizes that depend on the version, and checks that they look reasonable.
-/

namespace HardenedMinix.Mfs

def superMagic : BitVec 32 := 0x137F#32

def superV2 : BitVec 32 := 0x2468#32

def superV3 : BitVec 32 := 0x4d5a#32

def minBlockSize : Nat := 1024

/-- `sizeof (struct super_block)` -/
def superSize : Nat := 76

def mfsflagMandatoryMask : BitVec 16 := 0xff00#16

/-- The fields of `struct super_block` that are on disk. -/
structure RawSuper where
  ninodes : BitVec 32
  nzones : BitVec 16
  imapBlocks : BitVec 16
  zmapBlocks : BitVec 16
  firstdatazoneOld : BitVec 16
  logZoneSize : BitVec 16
  flags : BitVec 16
  maxSize : BitVec 32
  zones : BitVec 32
  magic : BitVec 16
  blockSize : BitVec 16

structure SuperBlock extends Super where
  ninodes : Nat
  zones : Nat
  firstdatazone : Nat
  logZoneSize : Nat
  maxSize : Nat
  ndzones : Nat
  nindirs : Nat
  isearch : Nat
  zsearch : Nat
  deriving DecidableEq, Repr

/-- The version and the byte order, from the magic number. -/
def magicVersion (magic : BitVec 32) : Option (Version × Bool) :=
  if magic = superMagic ∨ magic = conv2 false superMagic then some (.V1, magic = superMagic)
  else if magic = superV2 ∨ magic = conv2 false superV2 then some (.V2, magic = superV2)
  else if magic = superV3 then some (.V3, true)
  else none

/-- A field of 16 bits without a sign, or with one. -/
def swapHalf (native : Bool) (x : BitVec 16) : BitVec 16 := (conv2 native (x.setWidth 32)).setWidth 16

def swapShort (native : Bool) (x : BitVec 16) : BitVec 16 := (conv2 native (x.signExtend 32)).setWidth 16

/-- The first data zone as it is computed when the old field is 0. -/
def computeFirstdatazone (imapBlocks zmapBlocks logZoneSize : BitVec 16) (ninodes : BitVec 32)
    (inodesPerBlock : Nat) : BitVec 32 :=
  let offset := BitVec.ofNat 32 startBlock + imapBlocks.signExtend 32 + zmapBlocks.signExtend 32
  let perBlock := BitVec.ofNat 32 inodesPerBlock
  let offset := offset + (ninodes + perBlock - 1#32) / perBlock
  (offset + (1#32 <<< logZoneSize.toNat) - 1#32) >>> logZoneSize.toNat

/-- `s_block_size` -/
def RawSuper.size (raw : RawSuper) (version : Version) (native : Bool) : Nat :=
  if version = .V3 then (swapHalf native raw.blockSize).toNat else staticBlockSize

/-- `s_zones` -/
def RawSuper.nrZones (raw : RawSuper) (version : Version) (native : Bool) : BitVec 32 :=
  if version = .V1 then (swapHalf native raw.nzones).setWidth 32 else conv4 native raw.zones

/-- `s_inodes_per_block` -/
def RawSuper.perBlock (raw : RawSuper) (version : Version) (native : Bool) : Nat :=
  if version = .V1 then v1InodesPerBlock else v2InodesPerBlock (raw.size version native)

/-- `s_firstdatazone` -/
def RawSuper.firstdatazone (raw : RawSuper) (version : Version) (native : Bool) : BitVec 32 :=
  if swapHalf native raw.firstdatazoneOld = 0 then
    computeFirstdatazone (swapShort native raw.imapBlocks) (swapShort native raw.zmapBlocks)
      (swapShort native raw.logZoneSize) (conv4 native raw.ninodes) (raw.perBlock version native)
  else (swapHalf native raw.firstdatazoneOld).setWidth 32

def RawSuper.fill (raw : RawSuper) (version : Version) (native : Bool) : SuperBlock where
  version := version
  native := native
  rdOnly := false
  blockSize := raw.size version native
  inodesPerBlock := raw.perBlock version native
  imapBlocks := (swapShort native raw.imapBlocks).toNat
  zmapBlocks := (swapShort native raw.zmapBlocks).toNat
  ninodes := (conv4 native raw.ninodes).toNat
  zones := (raw.nrZones version native).toNat
  firstdatazone := (raw.firstdatazone version native).toNat
  logZoneSize := (swapShort native raw.logZoneSize).toNat
  maxSize := min (conv4 native raw.maxSize).toNat 0x7FFFFFFF
  ndzones := if version = .V1 then v1NrDzones else v2NrDzones
  nindirs := if version = .V1 then v1Indirects else v2Indirects (raw.size version native)
  isearch := 0
  zsearch := 0

def RawSuper.SizeOk (raw : RawSuper) (version : Version) (native : Bool) : Prop :=
  let size := raw.size version native
  minBlockSize ≤ size ∧ size % 512 = 0 ∧ superSize ≤ size ∧ size % v2InodeSize = 0 ∧ size % v1InodeSize = 0

/-- The basic checks, and that of the flags. -/
def RawSuper.LooksReasonable (raw : RawSuper) (version : Version) (native : Bool) : Prop :=
  1 ≤ (swapShort native raw.imapBlocks).toInt ∧ 1 ≤ (swapShort native raw.zmapBlocks).toInt ∧
    1 ≤ (conv4 native raw.ninodes).toNat ∧ 1 ≤ (raw.nrZones version native).toNat ∧
    4 < (raw.firstdatazone version native).toNat ∧
    (raw.firstdatazone version native).toNat < (raw.nrZones version native).toNat ∧
    ((swapShort native raw.logZoneSize).signExtend 32).toNat ≤ 4 ∧ raw.flags &&& mfsflagMandatoryMask = 0

instance (raw : RawSuper) (version : Version) (native : Bool) : Decidable (raw.SizeOk version native) :=
  inferInstanceAs (Decidable (_ ∧ _))

instance (raw : RawSuper) (version : Version) (native : Bool) : Decidable (raw.LooksReasonable version native) :=
  inferInstanceAs (Decidable (_ ∧ _))

/-- `read_super`; `none` is `EINVAL`. -/
def readSuper (raw : RawSuper) : Option SuperBlock :=
  match magicVersion (raw.magic.signExtend 32) with
  | none => none
  | some (version, native) =>
    if raw.SizeOk version native then
      if raw.LooksReasonable version native then some (raw.fill version native) else none
    else none

/-- What holds of a super block that has been accepted. -/
structure SuperBlock.Accepted (sp : SuperBlock) : Prop where
  ok : sp.toSuper.Ok
  blockSize : sp.blockSize < 65536
  sectors : sp.blockSize % 512 = 0
  imapBlocks : 1 ≤ sp.imapBlocks ∧ sp.imapBlocks < 32768
  zmapBlocks : 1 ≤ sp.zmapBlocks ∧ sp.zmapBlocks < 32768
  ninodes : 1 ≤ sp.ninodes ∧ sp.ninodes < 4294967296
  firstdatazone : 4 < sp.firstdatazone ∧ sp.firstdatazone < sp.zones
  zones : sp.zones < 4294967296
  logZoneSize : sp.logZoneSize ≤ 4

theorem short_pos {x : BitVec 16} (h : 1 ≤ x.toInt) : 1 ≤ x.toNat ∧ x.toNat < 32768 := by
  rw [BitVec.toInt_eq_toNat_cond] at h
  have hlt := x.isLt
  split at h <;> omega

theorem short_le {x : BitVec 16} {n : Nat} (hn : n < 32768) (h : (x.signExtend 32).toNat ≤ n) : x.toNat ≤ n := by
  have hlt := x.isLt
  rw [BitVec.toNat_signExtend] at h
  simp only [BitVec.toNat_setWidth] at h
  split at h <;> omega

theorem accepted_of_readSuper {raw : RawSuper} {sp : SuperBlock} (h : readSuper raw = some sp) : sp.Accepted := by
  unfold readSuper at h
  split at h
  · cases h
  next version native hmagic =>
  split at h
  · next hsize =>
    split at h
    · next hlooks =>
      cases h
      obtain ⟨himap, hzmap, hninodes, -, hfirst, hlast, hlog, -⟩ := hlooks
      refine ⟨⟨hsize.1, fun hv => if_pos hv, fun hv => if_neg hv⟩, ?_, hsize.2.1, short_pos himap,
        short_pos hzmap, ⟨hninodes, BitVec.isLt _⟩, ⟨hfirst, hlast⟩, BitVec.isLt _, short_le (by decide) hlog⟩
      change raw.size version native < 65536
      unfold RawSuper.size
      split
      · exact BitVec.isLt _
      · decide
    · cases h
  · cases h

end HardenedMinix.Mfs
