import HardenedMinix.Kernel.Types

/-!
# The cache of yielded blocks

A hash of AVL trees, by the owner and the id, and a list from the youngest block to the oldest
one. A tree is the sequence of its nodes.
-/

namespace HardenedMinix.Region

/-! ## Data -/

/-- An `endpoint_t`: a process slot and a generation. -/
structure Endpoint where
  slot : ProcNr
  gen : Nat
  deriving DecidableEq, Repr

/-- `block_id_t`. -/
structure BlockId where
  id : UInt64
  owner : Endpoint
  deriving DecidableEq, Repr

/-- A pointer to a `yielded_t`. -/
abbrev YieldedPtr := Nat

/-- `yielded_t`; the AVL fields are in the trees. -/
structure Yielded where
  id : BlockId
  physaddr : Frame
  pages : Nat
  older : Option YieldedPtr
  younger : Option YieldedPtr
  deriving DecidableEq, Repr

def yieldHashsize : Nat := 65536

structure Cache where
  /-- The nodes that are allocated. -/
  node : YieldedPtr → Option Yielded
  /-- `vm_yielded_blocks` -/
  yieldedBlocks : Nat → List YieldedPtr
  lruYoungest : Option YieldedPtr
  lruOldest : Option YieldedPtr

namespace Cache

def setNode (c : Cache) (n : YieldedPtr) (y : Option Yielded) : Cache :=
  { c with node := Function.update c.node n y }

/-! ## The hash -/

def hashRot (x k : UInt32) : UInt32 := (x <<< k) ||| (x >>> (32 - k))

/-- One line of `hash_mix`. -/
def hashMixStep (x y z k : UInt32) : UInt32 × UInt32 := (((x - z) ^^^ hashRot z k), z + y)

def hashMix (a b c : UInt32) : UInt32 × UInt32 × UInt32 :=
  let (a, c) := hashMixStep a b c 4
  let (b, a) := hashMixStep b c a 6
  let (c, b) := hashMixStep c a b 8
  let (a, c) := hashMixStep a b c 16
  let (b, a) := hashMixStep b c a 19
  let (c, b) := hashMixStep c a b 4
  (a, b, c)

/-- `hash_final`, which leaves its result in `c`. -/
def hashFinal (a b c : UInt32) : UInt32 :=
  let c := (c ^^^ b) - hashRot b 14
  let a := (a ^^^ c) - hashRot c 11
  let b := (b ^^^ a) - hashRot a 25
  let c := (c ^^^ b) - hashRot b 16
  let a := (a ^^^ c) - hashRot c 4
  let b := (b ^^^ a) - hashRot a 14
  (c ^^^ b) - hashRot b 24

def endpointGenerationSize : UInt32 := 1023 + 0x8ace + 1

/-- `_ENDPOINT`, as a machine word; the slot of process 0 is the one after the tasks. -/
def endpointWord (ep : Endpoint) : UInt32 :=
  UInt32.ofNat ep.gen * endpointGenerationSize + UInt32.ofNat ep.slot.val - 5

def hashI64 (a : UInt32) (u : UInt64) : UInt32 :=
  let (a, b, c) := hashMix a u.toUInt32 (u >>> 32).toUInt32
  hashFinal a b c

/-- `get_yielded_avl`, as the number of the tree. -/
def getYieldedAvl (id : BlockId) : Nat :=
  (hashI64 (endpointWord id.owner) id.id).toNat % yieldHashsize

/-! ## The trees -/

/-- `yielded_block_cmp` is negative. -/
def yieldedBlockLt (id1 id2 : BlockId) : Prop :=
  (endpointWord id1.owner).toInt32 < (endpointWord id2.owner).toInt32 ∨
    (endpointWord id1.owner = endpointWord id2.owner ∧ id1.id < id2.id)

instance (id1 id2 : BlockId) : Decidable (yieldedBlockLt id1 id2) :=
  inferInstanceAs (Decidable (_ ∨ _))

def HasId (c : Cache) (id : BlockId) (n : YieldedPtr) : Prop :=
  (c.node n).map (·.id) = some id

instance (c : Cache) (id : BlockId) (n : YieldedPtr) : Decidable (c.HasId id n) :=
  inferInstanceAs (Decidable (_ = _))

def yieldedSearch (c : Cache) (id : BlockId) : Option YieldedPtr :=
  (c.yieldedBlocks (getYieldedAvl id)).find? fun n => decide (c.HasId id n)

def setTree (c : Cache) (h : Nat) (l : List YieldedPtr) : Cache :=
  { c with yieldedBlocks := Function.update c.yieldedBlocks h l }

/-- A node goes in front of the first node whose id is greater. -/
def insertNode (c : Cache) (n : YieldedPtr) (id : BlockId) : List YieldedPtr → List YieldedPtr
  | [] => [n]
  | m :: l =>
    if (c.node m).all (fun y => decide (yieldedBlockLt id y.id)) then n :: m :: l
    else m :: insertNode c n id l

def yieldedInsert (c : Cache) (n : YieldedPtr) (id : BlockId) : Cache :=
  c.setTree (getYieldedAvl id) (c.insertNode n id (c.yieldedBlocks (getYieldedAvl id)))

/-- `yielded_remove`, with the assertion that it removed `n`. -/
def yieldedRemove (c : Cache) (n : YieldedPtr) (id : BlockId) : Option Cache :=
  if c.yieldedSearch id = some n then
    some (c.setTree (getYieldedAvl id) ((c.yieldedBlocks (getYieldedAvl id)).erase n))
  else none

/-! ## The LRU list -/

/-- The younger neighbour of a node, or the head, is set to lead to the older one. -/
def unlinkYounger (c : Cache) (n : YieldedPtr) (y : Yielded) : Option Cache :=
  match y.younger with
  | some m =>
    match c.node m with
    | none => none
    | some ym => if ym.older = some n then some (c.setNode m (some { ym with older := y.older }))
      else none
  | none => if c.lruYoungest = some n then some { c with lruYoungest := y.older } else none

/-- The older neighbour of a node, or the tail, is set to lead to the younger one. -/
def unlinkOlder (c : Cache) (n : YieldedPtr) (y : Yielded) : Option Cache :=
  match y.older with
  | some m =>
    match c.node m with
    | none => none
    | some ym =>
      if ym.younger = some n then some (c.setNode m (some { ym with younger := y.younger }))
      else none
  | none => if c.lruOldest = some n then some { c with lruOldest := y.younger } else none

/-- What `freeyieldednode` does to the cache. -/
def removeNode (c : Cache) (n : YieldedPtr) : Option (Yielded × Cache) :=
  match c.node n with
  | none => none
  | some y =>
    match c.unlinkYounger n y with
    | none => none
    | some c =>
      match c.unlinkOlder n y with
      | none => none
      | some c => (c.yieldedRemove n y.id).map fun c => (y, c.setNode n none)

/-- The end of `yieldblock`: the new node goes into its tree and becomes the youngest. -/
def addNode (c : Cache) (n : YieldedPtr) (id : BlockId) (physaddr : Frame) (pages : Nat) :
    Option Cache :=
  let c := c.setNode n (some ⟨id, physaddr, pages, none, none⟩)
  let c := c.yieldedInsert n id
  let y : Yielded := ⟨id, physaddr, pages, c.lruYoungest, none⟩
  match c.lruYoungest with
  | none => some ({ c with lruOldest := some n, lruYoungest := some n }.setNode n (some y))
  | some m =>
    match c.node m with
    | none => none
    | some ym =>
      some ({ c.setNode m (some { ym with younger := some n }) with
        lruYoungest := some n }.setNode n (some y))

end Cache

end HardenedMinix.Region
