import HardenedMinix.Mfs.Conv
import HardenedMinix.Mfs.Getdents

/-!
# Searching a directory

`search_dir` looks up, enters and deletes names, and finds out if a directory is empty. `none` is
an overflow of a file position.
-/

namespace HardenedMinix.Mfs

/-! ## The code -/

abbrev Name := Vector (BitVec 8) mfsDirsiz

inductive Flag
  | LOOK_UP
  | ENTER
  | DELETE
  | IS_EMPTY
  deriving DecidableEq, Repr

inductive Result
  | OK
  | ENOTDIR
  | EROFS
  /-- the answer of `forbidden` or `read_only` -/
  | denied
  | ENOENT
  | ENOTEMPTY
  | EFBIG
  /-- `err_code` of `new_block` -/
  | noBlock
  deriving DecidableEq, Repr

/-- What `search_dir` uses of the inode of a directory, and the slots in its blocks. -/
structure Dir where
  isDir : Bool
  rdOnly : Bool
  native : Bool
  blockSize : Nat
  size : Nat
  lastDpos : Nat
  slot : Nat → Direct

/-- What a call finds: is it denied, and is there a new block? -/
structure Surroundings where
  denied : Bool
  newBlock : Bool

/-- `strncmp (a, b, n) == 0` for the first `n` bytes of two strings -/
def strncmp : List (BitVec 8) → List (BitVec 8) → Bool
  | a :: as, b :: bs => if a ≠ b then false else if a = 0 then true else strncmp as bs
  | _, _ => true

/-- The bytes of a string, and zeros after it. -/
def toName (l : List (BitVec 8)) (h : l.length ≤ mfsDirsiz) : Name :=
  ⟨(l ++ List.replicate (mfsDirsiz - l.length) 0).toArray, by simp [h]⟩

def dot1 : Name := toName [46] (by decide)

def dot2 : Name := toName [46, 46] (by decide)

/-- The test for a match, in a slot that is in use. -/
def isMatch (flag : Flag) (string : Name) (dp : Direct) : Bool :=
  if flag = .IS_EMPTY then !strncmp dp.name.toList dot1.toList && !strncmp dp.name.toList dot2.toList
  else strncmp dp.name.toList string.toList

/-- An entry that is deleted keeps its name, and its number at the end of the name. -/
def Direct.erase (dp : Direct) : Direct where
  ino := 0
  name := Vector.ofFn fun i =>
    if i.val < mfsDirsiz - 4 then dp.name[i] else (dp.ino >>> (8 * (i.val - (mfsDirsiz - 4)))).setWidth 8

/-- How a search ends: at the end, at a place for a new entry, or at a match. -/
inductive Stop
  | full (pos newSlots : Nat)
  | hit (pos k newSlots : Nat)
  | matched (pos k : Nat)
  deriving DecidableEq, Repr

namespace Dir

variable (d : Dir) (flag : Flag) (string : Name)

def oldSlots : Nat := d.size / dirEntrySize

def searchBlock (pos : Nat) : Nat → Nat → Nat → Stop
  | 0, _, newSlots => .full pos newSlots
  | left + 1, i, newSlots =>
    let k := pos / dirEntrySize + i
    let newSlots := newSlots + 1
    if d.oldSlots < newSlots then
      if flag = .ENTER then .hit pos k newSlots else .full pos newSlots
    else if flag ≠ .ENTER ∧ (d.slot k).ino ≠ 0 ∧ isMatch flag string (d.slot k) then .matched pos k
    else if flag = .ENTER ∧ (d.slot k).ino = 0 then .hit pos k newSlots
    else searchBlock pos left (i + 1) newSlots

def searchBlocks : Nat → Nat → Nat → Option Stop
  | 0, _, _ => none
  | fuel + 1, pos, newSlots =>
    if pos < d.size then
      match d.searchBlock flag string pos (d.blockSize / dirEntrySize) 0 newSlots with
      | .full _ newSlots =>
        if offRange ≤ pos + d.blockSize then none else searchBlocks fuel (pos + d.blockSize) newSlots
      | stop => some stop
    else some (.full pos newSlots)

def setSlot (k : Nat) (dp : Direct) : Dir := { d with slot := Function.update d.slot k dp }

/-- An entry is made in a slot, and the directory grows if it has to. -/
def enter (numb : BitVec 32) (k newSlots : Nat) : Option Dir :=
  let d' := d.setSlot k ⟨conv4 d.native numb, toName (Direct.shown ⟨0, string⟩) (by
    simpa [Direct.shown] using (List.takeWhile_prefix (· ≠ (0 : BitVec 8)) (l := string.toList)).length_le)⟩
  if d.oldSlots < newSlots then
    if offRange ≤ newSlots * dirEntrySize then none
    else some { d' with size := newSlots * dirEntrySize }
  else some d'

/-- `new_block` at the end of the directory: a block of zeros. -/
def addBlock : Dir :=
  { d with slot := fun k =>
      if d.size / d.blockSize * d.blockSize ≤ dirEntrySize * k ∧
          dirEntrySize * k < d.size / d.blockSize * d.blockSize + d.blockSize then ⟨0, toName [] (by decide)⟩
      else d.slot k }

/-- `search_dir`, with the number that is passed in or out. -/
def searchDir (env : Surroundings) (numb : BitVec 32) : Option (Result × BitVec 32 × Dir) :=
  if !d.isDir then some (.ENOTDIR, numb, d)
  else if (flag = .DELETE ∨ flag = .ENTER) ∧ d.rdOnly then some (.EROFS, numb, d)
  else if flag ≠ .IS_EMPTY ∧ env.denied then some (.denied, numb, d)
  else
    let pos := if flag = .ENTER ∧ d.lastDpos < d.size then d.lastDpos else 0
    match d.searchBlocks flag string (d.size + 1) pos (pos / dirEntrySize) with
    | none => none
    | some (.matched pos k) =>
      match flag with
      | .IS_EMPTY => some (.ENOTEMPTY, numb, d)
      | .DELETE =>
        some (.OK, numb, { d.setSlot k (d.slot k).erase with lastDpos := if pos < d.lastDpos then pos else d.lastDpos })
      | _ => some (.OK, conv4 d.native (d.slot k).ino, d)
    | some (.hit pos k newSlots) =>
      (Dir.enter { d with lastDpos := pos } string numb k newSlots).map fun d => (.OK, numb, d)
    | some (.full pos newSlots) =>
      if flag = .IS_EMPTY then some (.OK, numb, d)
      else if flag ≠ .ENTER then some (.ENOENT, numb, d)
      else
        let d := { d with lastDpos := pos }
        if (newSlots + 1) % 4294967296 = 0 then some (.EFBIG, numb, d)
        else if !env.newBlock then some (.noBlock, numb, d)
        else
          (d.addBlock.enter string numb (d.size / d.blockSize * d.blockSize / dirEntrySize) (newSlots + 1)).map
            fun d => (.OK, numb, d)

end Dir

/-! ## What it should do -/

/-- A finite map from names to inode numbers, as a function. -/
abbrev Names := List (BitVec 8) → Option (BitVec 32)

/-- The last block ends at a file position. -/
def Dir.EndsInRange (d : Dir) : Prop := d.size ≠ 0 → (d.size - 1) / d.blockSize * d.blockSize + d.blockSize < offRange

def key (string : Name) : List (BitVec 8) := Direct.shown ⟨0, string⟩

inductive Call
  | lookUp (string : Name)
  | enter (string : Name) (numb : BitVec 32)
  | delete (string : Name)
  | isEmpty
  /-- the inode is evicted, and loaded again by `get_inode` -/
  | evict

/-- A call, with its result and the number that it returns. -/
def Call.run (env : Surroundings) (d : Dir) : Call → Option (Result × BitVec 32 × Dir)
  | .lookUp string => d.searchDir .LOOK_UP string env 0
  | .enter string numb => d.searchDir .ENTER string env numb
  | .delete string => d.searchDir .DELETE string env 0
  | .isEmpty => d.searchDir .IS_EMPTY dot1 env 0
  | .evict => some (.OK, 0, { d with lastDpos := 0 })

/-- Only names that are not there are entered, with a number. -/
def Call.Allowed (m : Names) : Call → Prop
  | .enter string numb => m (key string) = none ∧ numb ≠ 0
  | _ => True

/-- The last block ends at a file position, or the name is found before; a new entry finds a slot or
room. -/
def Call.InRange (m : Names) (d : Dir) : Call → Prop
  | .lookUp string => d.EndsInRange ∨ m (key string) ≠ none
  | .enter _ _ => (∃ k < d.oldSlots, (d.slot k).ino = 0) ∨ d.size + dirEntrySize < offRange
  | .delete string => d.EndsInRange ∨ m (key string) ≠ none
  | .isEmpty => d.EndsInRange ∨ ∃ l, m l ≠ none ∧ l ≠ [46] ∧ l ≠ [46, 46]
  | .evict => True

def Call.after (m : Names) (res : Result) : Call → Names
  | .enter string numb => if res = .OK then Function.update m (key string) (some numb) else m
  | .delete string => if res = .OK then Function.update m (key string) none else m
  | _ => m

/-- The answer is the right one, and the directory grows only when no slot is free. -/
def Call.Right (m : Names) (d d' : Dir) (res : Result) (numb : BitVec 32) : Call → Prop
  | .lookUp string => res = .denied ∨ res = .OK ∧ m (key string) = some numb ∨ res = .ENOENT ∧ m (key string) = none
  | .enter _ _ => d.size < d'.size → ∀ k < d.oldSlots, (d.slot k).ino ≠ 0
  | .delete string => (res = .OK ↔ res ≠ .denied ∧ res ≠ .EROFS ∧ m (key string) ≠ none) ∧ d'.size = d.size
  | .isEmpty => (res = .OK ∨ res = .ENOTEMPTY) ∧ (res = .OK ↔ ∀ l, m l ≠ none → l = [46] ∨ l = [46, 46])
  | .evict => True

/-- In a sequence of calls that are allowed and in range every answer is right. -/
def Follows : Names → Dir → List (Surroundings × Call) → Prop
  | _, _, [] => True
  | m, d, (env, c) :: cs => c.Allowed m → c.InRange m d → ∃ res numb d',
      c.run env d = some (res, numb, d') ∧ c.Right m d d' res numb ∧ Follows (c.after m res) d' cs

end HardenedMinix.Mfs
