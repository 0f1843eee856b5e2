import Mathlib

/-!
# Listing a directory

`fs_getdents` copies the entries in use to a buffer of the user, by way of its own. `none` is an
overflow of a file position; no other sum overflows.
-/

namespace HardenedMinix.Mfs

/-! ## The code -/

abbrev Bytes := Nat → BitVec 8

def mfsDirsiz : Nat := 60

/-- `sizeof (struct direct)` -/
def dirEntrySize : Nat := 64

/-- `offsetof (struct dirent, d_name)` -/
def direntName : Nat := 10

/-- `GETDENTS_BUFSIZE * GETDENTS_ENTRIES` -/
def getdentsBuf : Nat := (12 + mfsDirsiz + 1) * 8

/-- The first value that is not an `off_t`. -/
def offRange : Nat := 2147483648

structure Direct where
  ino : BitVec 32
  name : Vector (BitVec 8) mfsDirsiz
  deriving DecidableEq

/-- The name of an entry: all bytes before the first 0, or all. -/
def Direct.shown (dp : Direct) : List (BitVec 8) := dp.name.toList.takeWhile (· ≠ 0)

/-- A directory, with the entries in its blocks. Past its size nothing is in use. -/
structure Directory where
  blockSize : Nat
  size : Nat
  slot : Nat → Direct
  blockSize_pos : 0 < blockSize
  blockSize_dvd : dirEntrySize ∣ blockSize
  size_dvd : dirEntrySize ∣ size
  size_lt : size < offRange
  unused : ∀ k, size ≤ dirEntrySize * k → (slot k).ino = 0

def reclen (len : Nat) : Nat :=
  let n := direntName + len + 1
  let o := n % 4
  if o ≠ 0 then n + (4 - o) else n

def put (buf : Bytes) (off : Nat) (l : List (BitVec 8)) : Bytes := fun i =>
  if off ≤ i then (l[i - off]?).getD (buf i) else buf i

/-- The bytes of a `struct dirent`, up to the end of the name. -/
def record (dp : Direct) (entPos : Nat) : List (BitVec 8) :=
  let byte (v i : Nat) := BitVec.ofNat 8 (v / 256 ^ i)
  let ino := dp.ino.toNat
  let len := reclen dp.shown.length
  [byte ino 0, byte ino 1, byte ino 2, byte ino 3, byte entPos 0, byte entPos 1, byte entPos 2, byte entPos 3,
    byte len 0, byte len 1] ++ (dp.shown ++ [0])

/-- The buffers: `getdents_buf` and that of the user. -/
structure Walk where
  tmp : Bytes
  tmpOff : Nat
  user : Bytes
  userOff : Nat
  newPos : Nat
  done : Bool

/-- `getdents_buf` is copied to the user. -/
def Walk.flush (w : Walk) : Walk :=
  { w with
    user := fun i => if w.userOff ≤ i ∧ i < w.userOff + w.tmpOff then w.tmp (i - w.userOff) else w.user i
    userOff := w.userOff + w.tmpOff
    tmpOff := 0 }

/-- What is left in `getdents_buf` is copied to the user. -/
def Walk.finish (w : Walk) : Walk := if w.tmpOff ≠ 0 then w.flush else w

def Walk.entry (size entPos : Nat) (dp : Direct) (w : Walk) : Walk :=
  let len := reclen dp.shown.length
  if size ≤ w.userOff + w.tmpOff + len then { w with done := true, newPos := entPos }
  else
    let w := if getdentsBuf ≤ w.tmpOff + len then w.flush else w
    { w with tmp := put w.tmp w.tmpOff (record dp entPos), tmpOff := w.tmpOff + len }

namespace Directory

variable (d : Directory) (size : Nat)

def scanBlock (blockPos : Nat) : Nat → Nat → Walk → Walk
  | 0, _, w => w
  | left + 1, i, w =>
    let dp := d.slot (blockPos / dirEntrySize + i)
    if dp.ino = 0 then scanBlock blockPos left (i + 1) w
    else
      let w := w.entry size (blockPos + i * dirEntrySize) dp
      if w.done then w else scanBlock blockPos left (i + 1) w

def scanBlocks (pos : Nat) : Nat → Nat → Walk → Option Walk
  | 0, _, _ => none
  | fuel + 1, blockPos, w =>
    if blockPos < d.size then
      let i := if blockPos < pos then pos % d.blockSize / dirEntrySize else 0
      let w := d.scanBlock size blockPos (d.blockSize / dirEntrySize - i) i w
      if w.done then some w
      else if offRange ≤ blockPos + d.blockSize then none
      else scanBlocks pos fuel (blockPos + d.blockSize) w
    else some w

inductive Reply
  | enoent
  | einval
  /-- `OK`, with `RES_NBYTES` and `RES_SEEK_POS_LO` -/
  | ok (nbytes newPos : Nat)
  deriving DecidableEq, Repr

/-- `fs_getdents`, for an inode that is found and a buffer to which can be copied. -/
def getdents (pos : Nat) (user : Bytes) : Option (Reply × Bytes) :=
  if pos % dirEntrySize ≠ 0 then some (.enoent, user)
  else
    let w : Walk := ⟨fun _ => 0, 0, user, 0, d.size, false⟩
    match d.scanBlocks size pos (d.size + 1) (pos - pos % d.blockSize) w with
    | none => none
    | some w =>
      let w := w.finish
      if w.done ∧ w.userOff = 0 then some (.einval, w.user) else some (.ok w.userOff w.newPos, w.user)

end Directory

/-! ## What the caller reads -/

structure Dirent where
  ino : Nat
  off : Nat
  name : List (BitVec 8)
  deriving DecidableEq

def getU16 (buf : Bytes) (off : Nat) : Nat := (buf off).toNat + 256 * (buf (off + 1)).toNat

def getU32 (buf : Bytes) (off : Nat) : Nat := getU16 buf off + 65536 * getU16 buf (off + 2)

def getName (buf : Bytes) : Nat → Nat → List (BitVec 8)
  | 0, _ => []
  | n + 1, i => if buf i = 0 then [] else buf i :: getName buf n (i + 1)

/-- The records from `off` to `nbytes`; `none` if one is split. -/
def getRecords (buf : Bytes) (nbytes : Nat) : Nat → Nat → Option (List Dirent)
  | 0, off => if off = nbytes then some [] else none
  | fuel + 1, off =>
    let len := getU16 buf (off + 8)
    if off = nbytes then some []
    else if 0 < len ∧ off + len ≤ nbytes then
      (getRecords buf nbytes fuel (off + len)).map
        (⟨getU32 buf off, getU32 buf (off + 4), getName buf len (off + direntName)⟩ :: ·)
    else none

namespace Directory

variable (d : Directory) (size : Nat)

/-- Calls up to one that returns nothing deliver a list of records: each writes whole records to the
first bytes of its buffer only. -/
inductive Lists (bufs : Nat → Bytes) : Nat → List Dirent → Prop
  | stop {pos newPos : Nat} {user' : Bytes} (h : d.getdents size pos (bufs pos) = some (.ok 0 newPos, user')) :
    Lists bufs pos []
  | more {pos nbytes newPos : Nat} {user' : Bytes} {ds rest : List Dirent} (hpos : 0 < nbytes) (hle : nbytes ≤ size)
    (h : d.getdents size pos (bufs pos) = some (.ok nbytes newPos, user'))
    (hframe : ∀ i, nbytes ≤ i → user' i = bufs pos i) (hds : getRecords user' nbytes nbytes 0 = some ds)
    (hrest : Lists bufs newPos rest) : Lists bufs pos (ds ++ rest)

def used (start n : Nat) : List Nat := (List.range' start n).filter fun k => (d.slot k).ino ≠ 0

/-- The slots in use from one on. -/
def rest (start : Nat) : List Nat := d.used start (d.size / dirEntrySize - start)

def dirent (k : Nat) : Dirent := ⟨(d.slot k).ino.toNat, dirEntrySize * k, (d.slot k).shown⟩

def recLen (k : Nat) : Nat := reclen (d.slot k).shown.length

def total (ks : List Nat) : Nat := (ks.map d.recLen).sum

/-- The last block ends at a file position. -/
def EndsInRange : Prop := d.size ≠ 0 → (d.size - 1) / d.blockSize * d.blockSize + d.blockSize < offRange

end Directory

end HardenedMinix.Mfs
