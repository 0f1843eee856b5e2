import Mathlib

/-!
# The tables of the pipe file server

The inode table with its hash chains and its list of unused slots (`inode.c`), and the list of
buffers (`buffer.c`). A linked list is the list of its elements from the front.
-/

open Function List

namespace HardenedMinix.Pfs

/-! ## Data -/

/-- `NR_INODES`, `INODE_HASH_SIZE` and `PIPE_BUF`. -/
def nrInodes : Nat := 256
def inodeHashSize : Nat := 128
def pipeBuf : Nat := 32768

instance : NeZero nrInodes := ⟨by decide⟩

abbrev InodePtr := Fin nrInodes
abbrev Dev := Nat
abbrev Ino := Nat

/-- `NO_ENTRY`, `NO_DEV` and `NO_LINK`. -/
def noEntry : Ino := 0
def noDev : Dev := 0
def noLink : Nat := 0

inductive Err where
  | einval
  | eio
  | efbig
  | enfile
  | enospc
  /-- an error of `sys_safecopyto` or `sys_safecopyfrom` -/
  | copy (code : Int)
  deriving DecidableEq, Repr

/-- `i_update`. -/
structure Update where
  atime : Bool
  ctime : Bool
  mtime : Bool
  deriving DecidableEq

structure Inode where
  /-- `(i_mode & I_TYPE) == I_NAMED_PIPE` -/
  isPipe : Bool
  nlinks : Nat
  size : Nat
  dev : Dev
  num : Ino
  count : Int
  update : Update

structure Buf where
  data : Nat → UInt8
  dev : Dev
  num : Ino
  count : Int

structure State where
  inode : InodePtr → Inode
  /-- `hash_inodes`. -/
  hash : Nat → List InodePtr
  /-- `unused_inodes`. -/
  unused : List InodePtr
  /-- The buffers from `front` to `rear`. -/
  blocks : List Buf
  inodemap : Ino → Bool
  busy : Int

namespace State

variable (s : State)

def setInode (i : InodePtr) (x : Inode) : State :=
  { s with inode := update s.inode i x }

/-! ## Inodes -/

/-- The chain of an inode number. -/
def chain (numb : Ino) : List InodePtr := s.hash (numb % inodeHashSize)

def findInode (numb : Ino) : Option InodePtr :=
  (s.chain numb).find? fun i => decide (0 < (s.inode i).count ∧ (s.inode i).num = numb)

def unhashInode (i : InodePtr) : State :=
  let h := (s.inode i).num % inodeHashSize
  { s with hash := update s.hash h ((s.hash h).erase i) }

def addhashInode (i : InodePtr) : State :=
  let h := (s.inode i).num % inodeHashSize
  { s with hash := update s.hash h (i :: s.hash h) }

def getInode (dev : Dev) (numb : Ino) : Except Err (State × InodePtr) :=
  match (s.chain numb).find? fun i => decide ((s.inode i).num = numb ∧ (s.inode i).dev = dev) with
  | some i =>
    let x := s.inode i
    let s := if x.count = 0 then { s with unused := s.unused.erase i } else s
    .ok (s.setInode i { x with count := x.count + 1 }, i)
  | none =>
    match s.unused with
    | [] => .error .enfile
    | i :: rest =>
      let s := if (s.inode i).num ≠ noEntry then s.unhashInode i else s
      let s := { s with unused := rest }
      let s := s.setInode i { s.inode i with
        dev := dev
        num := numb
        count := 1
        update := ⟨false, false, false⟩ }
      .ok (s.addhashInode i, i)

def freeBit (b : Ino) : State :=
  { s with inodemap := update s.inodemap b false, busy := s.busy - 1 }

def freeInode (i : InodePtr) : State :=
  let numb := (s.inode i).num
  if numb ≤ 0 ∨ nrInodes ≤ numb then s else s.freeBit numb

/-- `truncate_inode` to size 0, with `wipe_inode`. -/
def truncateInode (i : InodePtr) : State :=
  s.setInode i { s.inode i with size := 0, update := ⟨true, true, true⟩ }

/-- `put_inode`; `none` is the panic. -/
def putInode (i : InodePtr) : Option State :=
  if (s.inode i).count < 1 then none
  else
    let s := s.setInode i { s.inode i with count := (s.inode i).count - 1 }
    if (s.inode i).count ≠ 0 then some s
    else if (s.inode i).nlinks = noLink then
      let s := s.truncateInode i
      let s := (s.setInode i { s.inode i with isPipe := false }).freeInode i
      let s := s.unhashInode i
      let s := s.setInode i { s.inode i with num := noEntry, dev := noDev }
      some { s with unused := i :: s.unused }
    else
      let s := s.truncateInode i
      some { s with unused := s.unused ++ [i] }

/-! ## Buffers -/

end State

/-- What `get_block` looks for. -/
def Buf.key (b : Buf) : Dev × Ino := (b.dev, b.num)

/-- `b_count++`. -/
def Buf.hold (b : Buf) : Buf := { b with count := b.count + 1 }

/-- `b_count--` and `--b_count` of `put_block`. -/
def Buf.giveBack (b : Buf) : Buf := { b with count := b.count - 1 - 1 }

/-- Change the first element of which `p` holds. -/
def modifyFirst {α : Type} (p : α → Bool) (f : α → α) : List α → List α
  | [] => []
  | a :: l => if p a then f a :: l else a :: modifyFirst p f l

namespace State

variable (s : State)

/-- The buffer `get_block` finds. -/
def block (k : Dev × Ino) : Option Buf := s.blocks.find? fun b => decide (b.key = k)

/-- Change the buffer `get_block` finds. -/
def setBlock (k : Dev × Ino) (f : Buf → Buf) : State :=
  { s with blocks := modifyFirst (fun b => decide (b.key = k)) f s.blocks }

/-- `new_block`; `alloc` tells whether `malloc` succeeds. -/
def newBlock (k : Dev × Ino) (alloc : Bool) : Except Err State :=
  if alloc = true then
    .ok { s with blocks := s.blocks ++ [⟨fun _ => 0, k.1, k.2, 1⟩] }
  else .error .enospc

def getBlock (k : Dev × Ino) (alloc : Bool) : Except Err State :=
  match s.block k with
  | some _ => .ok (s.setBlock k Buf.hold)
  | none => s.newBlock k alloc

def putBlock (k : Dev × Ino) (alloc : Bool) : State :=
  match s.getBlock k alloc with
  | .error _ => s
  | .ok s =>
    let s := s.setBlock k Buf.giveBack
    match s.block k with
    | some b =>
      if 0 < b.count then s
      else { s with blocks := s.blocks.eraseP fun b => decide (b.key = k) }
    | none => s

def blockCount (k : Dev × Ino) : Int :=
  match s.block k with
  | some b => b.count
  | none => 0

/-- The bytes in a pipe; `none` if it has no buffer. -/
def content (i : InodePtr) : Option (List UInt8) :=
  (s.block ((s.inode i).dev, (s.inode i).num)).map fun b =>
    (List.range (s.inode i).size).map b.data

end State

/-! ## Well-formed tables -/

/-- An inode number is in the hash table once, and each buffer is in the list once and in use. -/
structure Sound (s : State) : Prop where
  hashed : ∀ numb, ∀ i ∈ s.chain numb, ∀ j ∈ s.chain numb,
    (s.inode i).num = (s.inode j).num → i = j
  keys : (s.blocks.map Buf.key).Nodup
  used : ∀ b ∈ s.blocks, 0 < b.count

variable {s s' : State} {i j : InodePtr} {numb : Ino} {k k' : Dev × Ino} {b : Buf}

theorem findInode_some (h : s.findInode numb = some i) :
    i ∈ s.chain numb ∧ 0 < (s.inode i).count ∧ (s.inode i).num = numb := by
  have hfound := List.find?_some h
  simp only [decide_eq_true_eq] at hfound
  exact ⟨mem_of_find?_eq_some h, hfound⟩

theorem Sound.getInode (hs : Sound s) (h : s.findInode numb = some i) :
    s.getInode (s.inode i).dev (s.inode i).num =
      .ok (s.setInode i { s.inode i with count := (s.inode i).count + 1 }, i) := by
  obtain ⟨hmem, hcount, rfl⟩ := findInode_some h
  have hsearch : (s.chain (s.inode i).num).find?
      (fun j => decide ((s.inode j).num = (s.inode i).num ∧ (s.inode j).dev = (s.inode i).dev)) =
        some i := by
    cases hfind : (s.chain (s.inode i).num).find? fun j =>
        decide ((s.inode j).num = (s.inode i).num ∧ (s.inode j).dev = (s.inode i).dev) with
    | none =>
      have hnone := List.find?_eq_none.mp hfind i hmem
      simp at hnone
    | some j =>
      have hj := List.find?_some hfind
      simp only [decide_eq_true_eq] at hj
      rw [hs.hashed _ j (mem_of_find?_eq_some hfind) i hmem hj.1]
  have hne : (s.inode i).count ≠ 0 := by omega
  unfold State.getInode
  rw [hsearch]
  simp only [hne, if_false]

theorem putInode_of_lt (h : 1 < (s.inode i).count) :
    s.putInode i = some (s.setInode i { s.inode i with count := (s.inode i).count - 1 }) := by
  unfold State.putInode
  rw [if_neg (by omega)]
  have hne : (s.inode i).count - 1 ≠ 0 := by omega
  simp [State.setInode, hne]

/-! ## Looking for a buffer -/

section

variable {f : Buf → Buf} (hf : ∀ b, (f b).key = b.key)

include hf

theorem find?_modifyFirst (l : List Buf) :
    (modifyFirst (fun b => decide (b.key = k)) f l).find? (fun b => decide (b.key = k)) =
      (l.find? fun b => decide (b.key = k)).map f := by
  induction l with
  | nil => rfl
  | cons a l ih =>
    unfold modifyFirst
    by_cases ha : a.key = k
    · simp [ha, hf]
    · simp [ha, ih]

theorem find?_modifyFirst_of_ne (hne : k' ≠ k) (l : List Buf) :
    (modifyFirst (fun b => decide (b.key = k)) f l).find? (fun b => decide (b.key = k')) =
      l.find? fun b => decide (b.key = k') := by
  induction l with
  | nil => rfl
  | cons a l ih =>
    unfold modifyFirst
    by_cases ha : a.key = k
    · simp [ha, hf, hne.symm]
    · by_cases ha' : a.key = k' <;> simp [ha', ih, ha, hne]

theorem map_key_modifyFirst (l : List Buf) :
    (modifyFirst (fun b => decide (b.key = k)) f l).map Buf.key = l.map Buf.key := by
  induction l with
  | nil => rfl
  | cons a l ih =>
    unfold modifyFirst
    by_cases ha : a.key = k <;> simp [ha, hf, ih]

theorem block_setBlock : (s.setBlock k f).block k = (s.block k).map f := find?_modifyFirst hf _

theorem block_setBlock_of_ne (hne : k' ≠ k) : (s.setBlock k f).block k' = s.block k' :=
  find?_modifyFirst_of_ne hf hne _

theorem modifyFirst_modifyFirst (g : Buf → Buf) (l : List Buf) :
    modifyFirst (fun b => decide (b.key = k)) g (modifyFirst (fun b => decide (b.key = k)) f l) =
      modifyFirst (fun b => decide (b.key = k)) (g ∘ f) l := by
  induction l with
  | nil => rfl
  | cons a l ih =>
    by_cases ha : a.key = k
    · simp [modifyFirst, ha, hf]
    · simp [modifyFirst, ha, ih]

theorem setBlock_setBlock (g : Buf → Buf) :
    (s.setBlock k f).setBlock k g = s.setBlock k (g ∘ f) := by
  unfold State.setBlock
  rw [modifyFirst_modifyFirst hf]

end

theorem block_none_iff : s.block k = none ↔ ∀ b ∈ s.blocks, b.key ≠ k := by
  simp [State.block]

theorem mem_modifyFirst {f : Buf → Buf} {p : Buf → Bool} {l : List Buf} (h : b ∈ modifyFirst p f l) :
    b ∈ l ∨ ∃ a ∈ l, b = f a := by
  induction l with
  | nil => exact .inl h
  | cons a l ih =>
    unfold modifyFirst at h
    split at h
    · obtain rfl | hl := mem_cons.mp h
      · exact .inr ⟨a, mem_cons_self .., rfl⟩
      · exact .inl (mem_cons_of_mem _ hl)
    obtain rfl | hl := mem_cons.mp h
    · exact .inl (mem_cons_self ..)
    · obtain hb | ⟨c, hc, rfl⟩ := ih hl
      · exact .inl (mem_cons_of_mem _ hb)
      · exact .inr ⟨c, mem_cons_of_mem _ hc, rfl⟩

theorem modifyFirst_append {l : List Buf} (h : ∀ b ∈ l, b.key ≠ k) (hb : b.key = k) (f : Buf → Buf) :
    modifyFirst (fun b => decide (b.key = k)) f (l ++ [b]) = l ++ [f b] := by
  induction l with
  | nil => simp [modifyFirst, hb]
  | cons a l ih =>
    have ha : a.key ≠ k := h a (mem_cons_self ..)
    simp [modifyFirst, ha, ih fun c hc => h c (mem_cons_of_mem _ hc)]

theorem eraseP_append {l : List Buf} (h : ∀ b ∈ l, b.key ≠ k) (hb : b.key = k) :
    (l ++ [b]).eraseP (fun b => decide (b.key = k)) = l := by
  rw [eraseP_append_right _ (by simpa using h)]
  simp [hb]

/-! ## From `get_block` to `put_block` -/

def setData (d : (Nat → UInt8) → Nat → UInt8) (b : Buf) : Buf := { b with data := d b.data }

theorem hold_key (b : Buf) : b.hold.key = b.key := rfl

theorem setData_key (d : (Nat → UInt8) → Nat → UInt8) (b : Buf) : (setData d b).key = b.key := rfl

theorem Sound.cycle_found (hs : Sound s) (h : s.block k = some b) (alloc : Bool)
    (d : (Nat → UInt8) → Nat → UInt8) :
    ∃ t, s.getBlock k alloc = .ok t ∧
      (t.setBlock k (setData d)).putBlock k alloc = s.setBlock k (setData d) := by
  refine ⟨_, by rw [State.getBlock, h], ?_⟩
  have hpos : 0 < b.count := hs.used b (mem_of_find?_eq_some h)
  have hblock (f : Buf → Buf) (hf : ∀ b, (f b).key = b.key) :
      (s.setBlock k f).block k = some (f b) := by
    rw [block_setBlock hf, h]
    rfl
  have hcycle : Buf.giveBack ∘ Buf.hold ∘ setData d ∘ Buf.hold = setData d := by
    funext c
    simp [Buf.giveBack, Buf.hold, setData]
  have hset1 : (s.setBlock k Buf.hold).setBlock k (setData d) =
      s.setBlock k (setData d ∘ Buf.hold) := setBlock_setBlock hold_key _
  have hset2 : ((s.setBlock k (setData d ∘ Buf.hold)).setBlock k Buf.hold).setBlock k
      Buf.giveBack = s.setBlock k (setData d) := by
    rw [setBlock_setBlock (f := setData d ∘ Buf.hold) fun _ => rfl, setBlock_setBlock]
    · exact congrArg (s.setBlock k) hcycle
    · exact fun _ => rfl
  rw [hset1]
  unfold State.putBlock State.getBlock
  rw [hblock (setData d ∘ Buf.hold) fun _ => rfl]
  simp only
  rw [hset2, hblock (setData d) fun _ => rfl]
  simp only [setData, hpos, if_true]

theorem cycle_missing (h : s.block k = none) (d : (Nat → UInt8) → Nat → UInt8) :
    ∃ t, s.getBlock k true = .ok t ∧ (t.setBlock k (setData d)).putBlock k true = s := by
  have hnot := block_none_iff.mp h
  have hfind (b : Buf) (hb : b.key = k) :
      ({ s with blocks := s.blocks ++ [b] } : State).block k = some b := by
    unfold State.block
    rw [List.find?_append, List.find?_eq_none.mpr (by simpa using hnot)]
    simp [hb]
  have hset (b : Buf) (hb : b.key = k) (f : Buf → Buf) :
      ({ s with blocks := s.blocks ++ [b] } : State).setBlock k f =
        { s with blocks := s.blocks ++ [f b] } := by
    unfold State.setBlock
    rw [modifyFirst_append hnot hb]
  refine ⟨{ s with blocks := s.blocks ++ [⟨fun _ => 0, k.1, k.2, 1⟩] }, by
    simp [State.getBlock, h, State.newBlock], ?_⟩
  rw [hset _ rfl]
  unfold State.putBlock State.getBlock
  rw [hfind _ rfl]
  simp only
  rw [hset _ rfl, hset _ rfl, hfind _ rfl]
  simp only [Buf.hold, Buf.giveBack, setData, Int.reduceAdd, Int.reduceSub, lt_irrefl, if_false]
  rw [eraseP_append hnot rfl]

/-! ## Inodes apart from buffers -/

section

variable (i : InodePtr) (x y : Inode) (alloc : Bool)

theorem setInode_self : (s.setInode i x).inode i = x := update_self ..

theorem setInode_of_ne (h : j ≠ i) : (s.setInode i x).inode j = s.inode j := update_of_ne h ..

theorem setInode_setInode : (s.setInode i x).setInode i y = s.setInode i y := by
  simp [State.setInode]

theorem getBlock_setInode : (s.setInode i x).getBlock k alloc = match s.getBlock k alloc with
    | .ok t => .ok (t.setInode i x)
    | .error e => .error e := by
  unfold State.getBlock State.newBlock
  have hblock : (s.setInode i x).block k = s.block k := rfl
  rw [hblock]
  cases s.block k <;> cases alloc <;> rfl

theorem putBlock_setInode : (s.setInode i x).putBlock k alloc = (s.putBlock k alloc).setInode i x := by
  unfold State.putBlock
  rw [getBlock_setInode]
  cases s.getBlock k alloc with
  | error e => rfl
  | ok t =>
    have hblock : ((t.setInode i x).setBlock k Buf.giveBack).block k =
        (t.setBlock k Buf.giveBack).block k := rfl
    simp only [hblock]
    cases (t.setBlock k Buf.giveBack).block k with
    | none => rfl
    | some b =>
      simp only
      split <;> rfl

end

theorem findInode_congr {x : Inode} (hnum : x.num = (s.inode i).num)
    (hcount : x.count = (s.inode i).count) (numb : Ino) :
    (s.setInode i x).findInode numb = s.findInode numb := by
  unfold State.findInode
  have hsame (j : InodePtr) : ((s.setInode i x).inode j).num = (s.inode j).num ∧
      ((s.setInode i x).inode j).count = (s.inode j).count := by
    by_cases hj : j = i
    · subst hj
      rw [setInode_self]
      exact ⟨hnum, hcount⟩
    · rw [setInode_of_ne _ _ hj]
      exact ⟨rfl, rfl⟩
  simp only [hsame]
  rfl

theorem Sound.setInode (hs : Sound s) {x : Inode} (hnum : x.num = (s.inode i).num) :
    Sound (s.setInode i x) := by
  have hsame (j : InodePtr) : ((s.setInode i x).inode j).num = (s.inode j).num := by
    by_cases hj : j = i
    · subst hj
      rw [setInode_self]
      exact hnum
    · rw [setInode_of_ne _ _ hj]
  refine ⟨fun numb a ha b hb hab => ?_, hs.keys, hs.used⟩
  rw [hsame, hsame] at hab
  exact hs.hashed numb a ha b hb hab

theorem Sound.setData (hs : Sound s) (d : (Nat → UInt8) → Nat → UInt8) :
    Sound (s.setBlock k (setData d)) := by
  refine ⟨hs.hashed, ?_, fun b hb => ?_⟩
  · show ((modifyFirst _ _ _).map Buf.key).Nodup
    rw [map_key_modifyFirst (setData_key d)]
    exact hs.keys
  · obtain hb | ⟨a, ha, rfl⟩ := mem_modifyFirst hb
    · exact hs.used b hb
    · exact hs.used a ha

end HardenedMinix.Pfs
