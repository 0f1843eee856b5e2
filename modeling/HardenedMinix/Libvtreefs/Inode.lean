import HardenedMinix.Lib.Runs

/-!
# The inode table of VTreeFS

An inode is in the tree until it is deleted; a deleted one stays in use while somebody refers to
it or it has children. Deleting goes down to the children first, and freeing the last child of a
deleted directory goes up. Where an assertion fails there is no result.
-/

namespace HardenedMinix.Libvtreefs

/-- The characters of a name, without the terminating zero. -/
abbrev Name := List (BitVec 8)

def pnameMax : Nat := 24

/-- `sdbm_hash`, in the unsigned long of 32 bits; characters are signed. -/
def sdbmHash (str : Name) : BitVec 32 :=
  str.foldl (fun n c => c.signExtend 32 + (n <<< 6) + (n <<< 16) - n) 0

/-- An inode: whether it is a directory, its name, count, index (`none` is `NO_INDEX`), number of
indexed entries, `I_DELETED` (`none` before `i_flags` is written), parent and children. -/
structure Inode where
  isDir : Bool
  name : Name
  count : Nat
  index : Option Nat
  indexed : Nat
  deleted : Option Bool
  parent : Option Nat
  children : List Nat

/-- The inodes, the list of unused ones, the heads of the two hash tables and the inode
`purge_inode` looks at next. -/
structure Table where
  inode : Nat → Inode
  unused : List Nat
  nameHead : Nat → List Nat
  indexHead : Nat → List Nat
  lastChecked : Nat

namespace Table

variable (n : Nat) (t : Table)

/-- `I_DELETED` is set. -/
def isDeleted (i : Nat) : Bool := (t.inode i).deleted = some true

def parentNameHash (parent : Nat) (name : Name) : Nat := (parent ^^^ (sdbmHash name).toNat) % n

def parentIndexHash (parent index : Nat) : Nat := (parent ^^^ index) % n

def modify (i : Nat) (f : Inode → Inode) : Table :=
  { t with inode := Function.update t.inode i (f (t.inode i)) }

/-- `init_inodes`: every inode but the root is unused; their flags are not written. -/
def init (isDir : Bool) (indexed : Nat) : Table where
  inode i := ⟨if i = 0 then isDir else false, [], 0, none, if i = 0 then indexed else 0,
    if i = 0 then some false else none, none, []⟩
  unused := (List.range' 1 (n - 1)).reverse
  nameHead _ := []
  indexHead _ := []
  lastChecked := 0

def checkInode (i : Nat) : Bool :=
  i < n ∧ (i = 0 ∨ (t.inode i).parent ≠ none ∨ t.isDeleted i)

def getInodeByName (parent : Nat) (name : Name) : Option Nat :=
  (t.nameHead (parentNameHash n parent name)).find? fun i =>
    (t.inode i).parent = some parent ∧ (t.inode i).name = name

def getInodeByIndex (parent index : Nat) : Option Nat :=
  (t.indexHead (parentIndexHash n parent index)).find? fun i =>
    (t.inode i).parent = some parent ∧ (t.inode i).index = some index

/-! ## Deleting -/

/-- The inode leaves the child list of its parent. -/
def leave (i parent : Nat) : Table :=
  (t.modify i fun x => { x with parent := none }).modify parent fun x =>
    { x with children := x.children.erase i }

/-- `unlink_inode`; `delete` is the recheck of the parent. -/
def unlinkInode (delete : Table → Nat → Option Table) (i : Nat) : Option Table :=
  if t.isDeleted i then
    match (t.inode i).parent with
    | none => some t
    | some p => if t.isDeleted p then delete (t.leave i p) p else some (t.leave i p)
  else none

/-- `TAILQ_INSERT_HEAD` on the list of unused inodes. -/
def insertUnused (i : Nat) : Table := { t with unused := i :: t.unused }

/-- The end of `delete_inode`: an inode that nobody needs is unlinked and freed. -/
def freeInode (delete : Table → Nat → Option Table) (i : Nat) : Option Table :=
  if (t.inode i).count = 0 ∧ (t.inode i).children = [] then
    (if (t.inode i).parent ≠ none then t.unlinkInode delete i else some t).map fun t => t.insertUnused i
  else some t

/-- The inode is taken off the hash chains it is on, and `I_DELETED` is set. -/
def unhash (i : Nat) : Table :=
  { t.modify i fun x => { x with deleted := some true } with
    nameHead := fun slot => (t.nameHead slot).erase i
    indexHead := fun slot =>
      if (t.inode i).index = none then t.indexHead slot else (t.indexHead slot).erase i }

/-- What `delete_inode` does with an inode whose children have been deleted. -/
def scheduleInode (delete : Table → Nat → Option Table) (i : Nat) : Option Table :=
  (if (t.inode i).isDir then some (t.unhash i) else (t.unhash i).unlinkInode delete i).bind
    fun t => t.freeInode delete i

/-- The number bounds the depth. The loop reads the next child before it deletes one. -/
def deleteInode : Nat → Table → Nat → Option Table
  | 0, _, _ => none
  | fuel + 1, t, i =>
    if t.checkInode n i ∧ i ≠ 0 then
      if t.isDeleted i then t.freeInode (deleteInode fuel) i
      else ((t.inode i).children.foldlM (deleteInode fuel) t).bind fun t =>
        t.scheduleInode (deleteInode fuel) i
    else none

/-- The recursion goes down to a leaf, or up to the root. -/
def depth : Nat := n + 1

/-! ## References -/

/-- The inode number is one more than the place in the table. -/
def getInode (num : Nat) : Option Table :=
  if num ≠ 0 ∧ t.checkInode n (num - 1) then
    some (t.modify (num - 1) fun x => { x with count := x.count + 1 })
  else none

def refInode (i : Nat) : Option Table :=
  if t.checkInode n i then some (t.modify i fun x => { x with count := x.count + 1 }) else none

def putInode (i : Nat) : Option Table :=
  if t.checkInode n i ∧ 0 < (t.inode i).count then
    let t := t.modify i fun x => { x with count := x.count - 1 }
    if t.isDeleted i ∧ (t.inode i).count = 0 then deleteInode n (depth n) t i else some t
  else none

/-! ## Adding -/

/-- The inode can be deleted to make room for a child of `parent`. -/
def deletable (parent i : Nat) : Bool :=
  i ≠ parent ∧ (t.inode i).index ≠ none ∧ (t.inode i).count = 0 ∧ (t.inode i).children = []

/-- The loop of `purge_inode`, with the number of turns that are left. -/
def purgeLoop (parent : Nat) : Nat → Table → Option Table
  | 0, t => some t
  | turns + 1, t =>
    let node := t.lastChecked
    let t := { t with lastChecked := (t.lastChecked + 1) % n }
    if t.deletable parent node then
      if t.isDeleted node then none else deleteInode n (depth n) t node
    else purgeLoop parent turns t

def purgeInode (parent : Nat) : Option Table :=
  if t.unused = [] then purgeLoop n parent n t else none

/-- The first unused inode becomes a child of `parent`. -/
def newInode (parent : Nat) (name : Name) (index : Option Nat) (isDir : Bool) (indexed : Nat) :
    Option (Table × Nat) :=
  match t.unused with
  | [] => none
  | i :: unused =>
    if (t.inode i).count = 0 then
      let t := (t.modify i fun x =>
        ⟨isDir, name, x.count, index, indexed, some false, some parent, x.children⟩).modify parent
          fun x => { x with children := i :: x.children }
      let nameSlot := parentNameHash n parent name
      let t := { t with
        unused := unused
        nameHead := Function.update t.nameHead nameSlot (i :: t.nameHead nameSlot) }
      match index with
      | none => some (t, i)
      | some k =>
        let indexSlot := parentIndexHash n parent k
        some ({ t with
          indexHead := Function.update t.indexHead indexSlot (i :: t.indexHead indexSlot) }, i)
    else none

def addInode (parent : Nat) (name : Name) (index : Option Nat) (isDir : Bool) (indexed : Nat) :
    Option (Table × Nat) :=
  if t.checkInode n parent ∧ (t.inode parent).isDir ∧ ¬ t.isDeleted parent ∧
      name.length ≤ pnameMax ∧ t.getInodeByName n parent name = none then
    (if t.unused = [] then t.purgeInode n parent else some t).bind fun t =>
      t.newInode n parent name index isDir indexed
  else none

end Table

end HardenedMinix.Libvtreefs
