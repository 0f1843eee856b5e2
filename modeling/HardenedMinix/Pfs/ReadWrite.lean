import HardenedMinix.Pfs.Cache
import HardenedMinix.Vfs.Pipe

/-!
# Reading and writing a pipe

`fs_readwrite` of the pipe file server and `rw_pipe` of VFS. The size of a pipe is kept on
both sides: in the inode, and in the vnode from the last reply.
-/

open Function Option

namespace HardenedMinix.Pfs

open Lib
open Pipe (Rw Check int32)

/-! ## The file server -/

/-- `REQ_READ` or `REQ_WRITE`. -/
structure Request where
  inodeNr : Ino
  rw : Rw
  nbytes : Nat
  /-- The bytes behind the grant of a write. -/
  data : Nat → UInt8
  /-- The error of `sys_safecopyto` or `sys_safecopyfrom`, and how many bytes it has copied by
  then. -/
  copy : Option Err
  copied : Nat
  /-- Whether `malloc` succeeds. -/
  alloc : Bool

def Request.count (m : Request) (size : Nat) : Nat :=
  match m.rw with
  | .reading => if m.nbytes > size then size else m.nbytes
  | .writing => m.nbytes

/-- The copy, and the `memmove` of a read. -/
def Request.moved (m : Request) (size : Nat) (d : Nat → UInt8) : Nat → UInt8 :=
  let n := m.count size
  match m.rw with
  | .reading => fun j => if j < size - n then d (j + n) else d j
  | .writing =>
    let k := if m.copy = none then n else min m.copied n
    fun j => if size ≤ j ∧ j < size + k then m.data (j - size) else d j

/-- `i_size` after the copy. -/
def Request.newSize (m : Request) (size : Nat) : Nat :=
  match m.rw with
  | .reading => size - m.count size
  | .writing => if m.copy = none then size + m.count size else size

def Request.inode (m : Request) (x : Inode) : Inode :=
  { x with
    size := m.newSize x.size
    update := match m.rw with
      | .reading => { x.update with atime := true }
      | .writing => { x.update with ctime := true, mtime := true } }

/-- `fs_readwrite`, with `RES_NBYTES` and `RES_SEEK_POS_LO`; `none` is a panic. -/
def fsReadwrite (s : State) (m : Request) : Option (State × Except Err (Nat × Nat)) :=
  match s.findInode m.inodeNr with
  | none => some (s, .error .einval)
  | some i =>
    let rip := s.inode i
    if rip.isPipe = false then some (s, .error .eio)
    else if m.nbytes > pipeBuf then some (s, .error .efbig)
    else
      match s.getInode rip.dev rip.num with
      | .error e => some (s, .error e)
      | .ok (s, _) =>
        match s.getBlock (rip.dev, rip.num) m.alloc with
        | .error e => some (s, .error e)
        | .ok s =>
          if m.rw = .writing ∧ rip.size + m.nbytes > pipeBuf then
            match s.putInode i with
            | none => none
            | some s =>
              some (s.putBlock ((s.inode i).dev, (s.inode i).num) m.alloc, .error .efbig)
          else
            let s := s.setBlock (rip.dev, rip.num) (setData (m.moved rip.size))
            let s := s.setInode i (m.inode (s.inode i))
            match s.putInode i with
            | none => none
            | some s =>
              some (s.putBlock ((s.inode i).dev, (s.inode i).num) m.alloc,
                match m.copy with
                | some e => .error e
                | none => .ok (m.count rip.size, m.newSize rip.size))

/-! ## VFS -/

abbrev Slot := Nat

structure Vnode where
  size : Int
  mapinodeNr : Ino

/-- VFS and the file server; `V` are the vnodes of pipes. -/
structure System (V : Type) where
  pfs : State
  vnode : V → Vnode
  cumIoPartial : Slot → Int

/-- A call of `rw_pipe`, also when a suspended one is resumed. -/
structure Call (V : Type) where
  p : Slot
  v : V
  rw : Rw
  nonblock : Bool
  reqSize : Nat
  /-- `find_filp` finds the other end. -/
  peer : Bool
  data : Nat → UInt8
  copy : Option Err
  copied : Nat
  alloc : Bool

inductive Result where
  | suspend
  | val (n : Int)
  /-- an error of `pipe_check` -/
  | err (e : Pipe.Err)
  /-- an error of the file server -/
  | fsErr (e : Err)

variable {V : Type}

/-- What `pipe_check` returns, from the size and whether the other end is open. -/
def pipeCheck (size : Int) (rw : Rw) (nonblock : Bool) (bytes : Int) (peer : Bool) : Check :=
  match rw with
  | .reading =>
    if size = 0 then
      if peer = true then if nonblock = true then .err .eagain else .suspend else .bytes 0
    else .bytes bytes
  | .writing =>
    if peer = false then .err .epipe
    else if int32 (size + bytes) > Pipe.pipeBuf then
      if nonblock = true then
        if bytes ≤ Pipe.pipeBuf then .err .eagain
        else if Pipe.pipeBuf - size > 0 then .bytes (Pipe.pipeBuf - size) else .err .eagain
      else if bytes > Pipe.pipeBuf ∧ Pipe.pipeBuf - size > 0 then .bytes (Pipe.pipeBuf - size)
      else .suspend
    else .bytes bytes

/-- What is asked of the file server, if it is asked at all. -/
def Call.asks (c : Call V) (x : Vnode) : Option Request :=
  match pipeCheck x.size c.rw c.nonblock (int32 c.reqSize) c.peer with
  | .bytes n =>
    if n ≤ 0 then none
    else some {
      inodeNr := x.mapinodeNr
      rw := c.rw
      nbytes := if c.rw = .reading ∧ n > x.size then x.size.toNat else n.toNat
      data := c.data
      copy := c.copy
      copied := c.copied
      alloc := c.alloc }
  | _ => none

/-- `rw_pipe`; `none` is a panic. -/
def rwPipe [DecidableEq V] (s : System V) (c : Call V) : Option (System V × Result) :=
  let x := s.vnode c.v
  match pipeCheck x.size c.rw c.nonblock (int32 c.reqSize) c.peer, c.asks x with
  | .suspend, _ => some (s, .suspend)
  | .err e, _ => some (s, .err e)
  | .bytes n, none => some (s, .val n)
  | .bytes n, some m =>
    match fsReadwrite s.pfs m with
    | none => none
    | some (pfs, .error e) => some ({ s with pfs := pfs }, .fsErr e)
    | some (pfs, .ok (nbytes, pos)) =>
      let cumIo := s.cumIoPartial c.p + nbytes
      let s := { s with
        pfs := pfs
        vnode := update s.vnode c.v { x with size := pos } }
      if n < c.reqSize ∧ c.nonblock = false then
        some ({ s with cumIoPartial := update s.cumIoPartial c.p cumIo }, .suspend)
      else some ({ s with cumIoPartial := update s.cumIoPartial c.p 0 }, .val cumIo)

/-- The next state; after a panic there is none. -/
def System.step [DecidableEq V] (s : System V) (c : Call V) : System V :=
  match rwPipe s c with
  | some (s, _) => s
  | none => s

def otherEnd : Rw → Rw
  | .reading => .writing
  | .writing => .reading

variable {nonblock peer : Bool}

theorem pipeCheck_eq {s s' : Pipe.State} {p : Pipe.Slot} {v : Pipe.VnodePtr} {rw : Rw} {bytes : Int} {r : Check}
    (h : Pipe.pipeCheck s p v rw nonblock bytes false = some (s', r))
    (hpeer : peer = true ↔ Pipe.FindFilp s v (otherEnd rw)) :
    r = pipeCheck (s.vnode v).size rw nonblock bytes peer := by
  have hval {t : Pipe.State} {a : Check} (ht : some (t, a) = some (s', r)) : r = a :=
    (Prod.mk.inj (some.inj ht)).2.symm
  have hreleased {o : Option Pipe.State} {a : Check}
      (ho : (o.map fun t => (t, a)) = some (s', r)) : r = a := by
    obtain ⟨t, -, ht⟩ := map_eq_some_iff.mp ho
    exact (Prod.mk.inj ht).2.symm
  unfold Pipe.pipeCheck at h
  unfold pipeCheck
  cases rw with
  | reading =>
    simp only [otherEnd] at hpeer
    simp only [← hpeer] at h ⊢
    split_ifs at h ⊢ <;> first | exact hval h | exact hreleased h
  | writing =>
    simp only [otherEnd] at hpeer
    simp only [← hpeer, Bool.false_eq_true, if_false, and_true, Bool.not_eq_true] at h ⊢
    split_ifs at h ⊢ <;> first | exact hval h | exact hreleased h

/-! ## A request -/

variable {s t : State} {i : InodePtr} {m : Request} {b : Buf}

theorem fsReadwrite_of_cycle (hs : Sound s) (hi : s.findInode m.inodeNr = some i)
    (hpipe : (s.inode i).isPipe = true) (hn : m.nbytes ≤ pipeBuf)
    (hfit : m.rw = .writing → (s.inode i).size + m.nbytes ≤ pipeBuf) {t t' : State}
    (hget : s.getBlock ((s.inode i).dev, (s.inode i).num) m.alloc = .ok t)
    (hput : (t.setBlock ((s.inode i).dev, (s.inode i).num)
      (setData (m.moved (s.inode i).size))).putBlock ((s.inode i).dev, (s.inode i).num) m.alloc = t') :
    fsReadwrite s m = some (t'.setInode i (m.inode (s.inode i)), match m.copy with
      | some e => .error e
      | none => .ok (m.count (s.inode i).size, m.newSize (s.inode i).size)) := by
  have hcount := (findInode_some hi).2.1
  have hroom : ¬ (m.rw = .writing ∧ (s.inode i).size + m.nbytes > pipeBuf) :=
    fun h => absurd (hfit h.1) (by omega)
  have hopen : ¬ (s.inode i).isPipe = false := by
    rw [hpipe]
    decide
  unfold fsReadwrite
  simp only [hi]
  rw [if_neg hopen, if_neg (Nat.not_lt.mpr hn), hs.getInode hi]
  generalize hx : { s.inode i with count := (s.inode i).count + 1 } = x
  simp only [getBlock_setInode, hget]
  rw [if_neg hroom]
  have hset : (t.setInode i x).setBlock ((s.inode i).dev, (s.inode i).num)
      (setData (m.moved (s.inode i).size)) = (t.setBlock ((s.inode i).dev, (s.inode i).num)
        (setData (m.moved (s.inode i).size))).setInode i x := rfl
  have hlast : 1 < (m.inode x).count := by
    subst hx
    show 1 < (s.inode i).count + 1
    omega
  have hkey : ((m.inode x).dev, (m.inode x).num) = ((s.inode i).dev, (s.inode i).num) := by
    subst hx
    rfl
  rw [hset, setInode_self, setInode_setInode, putInode_of_lt (by rw [setInode_self]; exact hlast)]
  simp only [setInode_self, setInode_setInode, putBlock_setInode]
  have hinode : { m.inode x with count := (m.inode x).count - 1 } = m.inode (s.inode i) := by
    subst hx
    show { m.inode (s.inode i) with count := (s.inode i).count + 1 - 1 } = m.inode (s.inode i)
    rw [add_sub_cancel_right]
    rfl
  rw [hinode, hkey, hput]

theorem fsReadwrite_efbig (hi : s.findInode m.inodeNr = some i) (hpipe : (s.inode i).isPipe = true)
    (hn : pipeBuf < m.nbytes) : fsReadwrite s m = some (s, .error .efbig) := by
  unfold fsReadwrite
  simp [hi, hpipe, hn]

theorem fsReadwrite_enospc (hs : Sound s) (hi : s.findInode m.inodeNr = some i)
    (hpipe : (s.inode i).isPipe = true) (hn : m.nbytes ≤ pipeBuf)
    (hblock : s.block ((s.inode i).dev, (s.inode i).num) = none) (halloc : m.alloc = false) :
    fsReadwrite s m =
      some (s.setInode i { s.inode i with count := (s.inode i).count + 1 }, .error .enospc) := by
  have hopen : ¬ (s.inode i).isPipe = false := by
    rw [hpipe]
    decide
  have hget : s.getBlock ((s.inode i).dev, (s.inode i).num) m.alloc = .error .enospc := by
    simp [State.getBlock, hblock, State.newBlock, halloc]
  unfold fsReadwrite
  simp only [hi]
  rw [if_neg hopen, if_neg (Nat.not_lt.mpr hn), hs.getInode hi]
  simp only [getBlock_setInode, hget]

/-- Between the two states the bytes of the buffer of `i` are moved, if it has one. -/
structure Moved (s : State) (i : InodePtr) (m : Request) (t : State) : Prop where
  inode : t.inode = s.inode
  hash : t.hash = s.hash
  sound : Sound t
  counts : ∀ k, t.blockCount k = s.blockCount k
  others : ∀ k, k ≠ ((s.inode i).dev, (s.inode i).num) → t.block k = s.block k
  kept : m.rw = .writing → t.content i = s.content i

theorem content_setData (hwrite : m.rw = .writing) : (s.setBlock ((s.inode i).dev, (s.inode i).num)
      (setData (m.moved (s.inode i).size))).content i = s.content i := by
  have hblock := block_setBlock (s := s) (k := ((s.inode i).dev, (s.inode i).num))
    (setData_key (m.moved (s.inode i).size))
  unfold State.content
  show (State.block _ ((s.inode i).dev, (s.inode i).num)).map _ = _
  rw [hblock, Option.map_map]
  congr 1
  funext b
  apply List.map_congr_left
  intro j hj
  have hlt : j < (s.inode i).size := List.mem_range.mp hj
  simp only [setData, Request.moved, hwrite]
  rw [if_neg (by omega)]

theorem exists_moved (hs : Sound s)
    (h : m.alloc = false → (s.block ((s.inode i).dev, (s.inode i).num)).isSome = true) :
    ∃ t t', s.getBlock ((s.inode i).dev, (s.inode i).num) m.alloc = .ok t ∧
      (t.setBlock ((s.inode i).dev, (s.inode i).num)
        (setData (m.moved (s.inode i).size))).putBlock ((s.inode i).dev, (s.inode i).num) m.alloc = t' ∧
      Moved s i m t' := by
  cases hblock : s.block ((s.inode i).dev, (s.inode i).num) with
  | some b =>
    obtain ⟨t, hget, hput⟩ := hs.cycle_found hblock m.alloc (m.moved (s.inode i).size)
    refine ⟨t, _, hget, hput, rfl, rfl, hs.setData _, fun k => ?_, fun k hk => ?_, content_setData⟩
    · unfold State.blockCount
      by_cases hk : k = ((s.inode i).dev, (s.inode i).num)
      · subst hk
        rw [block_setBlock (setData_key _), hblock]
        rfl
      · rw [block_setBlock_of_ne (setData_key _) hk]
    · exact block_setBlock_of_ne (setData_key _) hk
  | none =>
    have halloc : m.alloc = true := by
      by_contra hfalse
      have hsome := h (by simpa using hfalse)
      rw [hblock] at hsome
      cases hsome
    rw [halloc]
    obtain ⟨t, hget, hput⟩ := cycle_missing hblock (m.moved (s.inode i).size)
    exact ⟨t, s, hget, hput, rfl, rfl, hs, fun _ => rfl, fun _ _ => rfl, fun _ => rfl⟩

/-! ## Both sides -/

theorem asks_some {c : Call V} {x : Vnode} (h : c.asks x = some m) :
    ∃ n, pipeCheck x.size c.rw c.nonblock (int32 c.reqSize) c.peer = .bytes n ∧ 0 < n ∧ m = {
        inodeNr := x.mapinodeNr
        rw := c.rw
        nbytes := if c.rw = .reading ∧ n > x.size then x.size.toNat else n.toNat
        data := c.data
        copy := c.copy
        copied := c.copied
        alloc := c.alloc } := by
  unfold Call.asks at h
  split at h
  · rename_i n hcheck
    by_cases hn : n ≤ 0
    · rw [if_pos hn] at h
      cases h
    · rw [if_neg hn] at h
      exact ⟨n, hcheck, by omega, (some.inj h).symm⟩
  · cases h

theorem pipeCheck_writing {size bytes n : Int}
    (h : pipeCheck size .writing nonblock bytes peer = .bytes n) (hpos : 0 ≤ size)
    (hmax : size ≤ 32768) (hn : 0 < n) (hle : n ≤ 32768) : size + n ≤ 32768 := by
  have hbuf : Pipe.pipeBuf = 32768 := rfl
  unfold pipeCheck at h
  simp only at h
  split at h
  · cases h
  split at h
  · split at h
    · split at h
      · cases h
      · split at h
        · obtain rfl := Check.bytes.inj h
          omega
        · cases h
    · split at h
      · obtain rfl := Check.bytes.inj h
        omega
      · cases h
  · rename_i hfits
    obtain rfl := Check.bytes.inj h
    unfold int32 at hfits
    omega

theorem pipeCheck_reading {size bytes n : Int}
    (h : pipeCheck size .reading nonblock bytes peer = .bytes n) (hn : 0 < n) : size ≠ 0 := by
  rintro rfl
  unfold pipeCheck at h
  simp only [if_true] at h
  split at h
  · split at h <;> cases h
  · obtain rfl := Check.bytes.inj h
    omega

theorem asks_fits {c : Call V} {x : Vnode} (h : c.asks x = some m) (hpos : 0 ≤ x.size)
    (hmax : x.size ≤ pipeBuf) (hn : m.nbytes ≤ pipeBuf) :
    (m.rw = .writing → x.size.toNat + m.nbytes ≤ pipeBuf) ∧
      (m.rw = .reading → 0 < x.size ∧ 0 < m.nbytes) := by
  obtain ⟨n, hcheck, hn0, rfl⟩ := asks_some h
  simp only [pipeBuf] at hmax hn ⊢
  refine ⟨fun hw => ?_, fun hr => ?_⟩
  · have hw : c.rw = .writing := hw
    simp only [hw, reduceCtorEq, false_and, if_false] at hcheck hn ⊢
    have hfits := pipeCheck_writing hcheck hpos (by omega) hn0 (by omega)
    omega
  have hr : c.rw = .reading := hr
  simp only [hr, true_and] at hcheck ⊢
  have hne := pipeCheck_reading hcheck hn0
  refine ⟨by omega, ?_⟩
  split <;> omega

section

variable [DecidableEq V] {s : System V} {c : Call V} {pfs : State}

theorem rwPipe_unasked (h : c.asks (s.vnode c.v) = none) : ∃ r, rwPipe s c = some (s, r) := by
  unfold rwPipe
  simp only [h]
  cases pipeCheck (s.vnode c.v).size c.rw c.nonblock (int32 c.reqSize) c.peer
  all_goals exact ⟨_, rfl⟩

theorem rwPipe_failed {e : Err} (h : c.asks (s.vnode c.v) = some m)
    (hfs : fsReadwrite s.pfs m = some (pfs, .error e)) :
    rwPipe s c = some ({ s with pfs := pfs }, .fsErr e) := by
  obtain ⟨n, hcheck, -, -⟩ := asks_some h
  unfold rwPipe
  simp only [h, hcheck, hfs]

theorem rwPipe_done {nbytes pos : Nat} (h : c.asks (s.vnode c.v) = some m)
    (hfs : fsReadwrite s.pfs m = some (pfs, .ok (nbytes, pos))) :
    ∃ cumIo r, rwPipe s c = some
      ({ pfs := pfs
         vnode := update s.vnode c.v { s.vnode c.v with size := pos }
         cumIoPartial := cumIo }, r) ∧ (r = .suspend ∨ ∃ n, r = .val n) := by
  obtain ⟨n, hcheck, -, -⟩ := asks_some h
  unfold rwPipe
  simp only [h, hcheck, hfs]
  split
  · exact ⟨_, _, rfl, .inl rfl⟩
  · exact ⟨_, _, rfl, .inr ⟨_, rfl⟩⟩

end

/-! ## What is promised -/

def SizesAgree (s : System V) (v : V) : Prop :=
  ∃ i, s.pfs.findInode (s.vnode v).mapinodeNr = some i ∧
    ((s.pfs.inode i).size : Int) = (s.vnode v).size

def System.content (s : System V) (v : V) : Option (List UInt8) :=
  (s.pfs.findInode (s.vnode v).mapinodeNr).bind s.pfs.content

def Result.IsError : Result → Prop
  | .err _ | .fsErr _ => True
  | _ => False

/-- The sizes agree, references are as before, and a failed request leaves the bytes of every pipe.
-/
def Kept [DecidableEq V] (s : System V) (c : Call V) : Prop :=
  ∃ t r, rwPipe s c = some (t, r) ∧ (∀ v, SizesAgree t v) ∧
    (∀ i, (t.pfs.inode i).count = (s.pfs.inode i).count) ∧
    (∀ k, t.pfs.blockCount k = s.pfs.blockCount k) ∧
    (r.IsError → ∀ v, t.content v = s.content v)

/-- The pipe has a buffer, as `fs_newnode` has made it. -/
def HasBuffer (s : System V) (v : V) : Prop :=
  ∃ i, s.pfs.findInode (s.vnode v).mapinodeNr = some i ∧
    (s.pfs.block ((s.pfs.inode i).dev, (s.pfs.inode i).num)).isSome = true

/-- If PFS is asked, no copy to a reader fails, and no buffer is allocated while there is no memory.
-/
def Harmless (s : System V) (c : Call V) : Prop :=
  ∀ m, c.asks (s.vnode c.v) = some m → m.nbytes ≤ pipeBuf →
    (c.rw = .reading → c.copy = none) ∧ (c.alloc = false → HasBuffer s c.v)

/-- The tables are well formed, and each vnode of a pipe has an inode of its own, a pipe of the
same size. -/
structure Agree (s : System V) : Prop where
  tables : Sound s.pfs
  found : ∀ v, ∃ i, s.pfs.findInode (s.vnode v).mapinodeNr = some i ∧
    (s.pfs.inode i).isPipe = true ∧ ((s.pfs.inode i).size : Int) = (s.vnode v).size ∧
    (s.pfs.inode i).size ≤ pipeBuf
  apart : ∀ v w, (s.vnode v).mapinodeNr = (s.vnode w).mapinodeNr → v = w

section

variable {s : System V} {c : Call V}

theorem Agree.sizes (hs : Agree s) (v : V) : SizesAgree s v := by
  obtain ⟨i, hi, -, hsize, -⟩ := hs.found v
  exact ⟨i, hi, hsize⟩

theorem Agree.served (hs : Agree s) {i : InodePtr} (hasks : c.asks (s.vnode c.v) = some m)
    (hn : m.nbytes ≤ pipeBuf) (hi : s.pfs.findInode m.inodeNr = some i)
    (hpipe : (s.pfs.inode i).isPipe = true)
    (hsize : ((s.pfs.inode i).size : Int) = (s.vnode c.v).size)
    (hmax : (s.pfs.inode i).size ≤ pipeBuf)
    (h : m.alloc = false → (s.pfs.block ((s.pfs.inode i).dev, (s.pfs.inode i).num)).isSome = true) :
    ∃ t, Moved s.pfs i m t ∧ fsReadwrite s.pfs m = some (t.setInode i (m.inode (s.pfs.inode i)),
      match m.copy with
      | some e => .error e
      | none => .ok (m.count (s.pfs.inode i).size, m.newSize (s.pfs.inode i).size)) := by
  obtain ⟨hfit, -⟩ := asks_fits hasks (by omega) (by omega) hn
  obtain ⟨t, t', hget, hput, hmoved⟩ := exists_moved (m := m) hs.tables h
  refine ⟨t', hmoved, fsReadwrite_of_cycle hs.tables hi hpipe hn (fun hw => ?_) hget hput⟩
  have hroom := hfit hw
  omega

namespace Moved

variable {i : InodePtr} {t : State} {p : State}

theorem findInode (h : Moved p i m t) (numb : Ino) :
    (t.setInode i (m.inode (p.inode i))).findInode numb = p.findInode numb := by
  rw [findInode_congr (by rw [h.inode]; rfl) (by rw [h.inode]; rfl)]
  unfold State.findInode State.chain
  rw [h.hash, h.inode]

theorem count (h : Moved p i m t) (j : InodePtr) :
    ((t.setInode i (m.inode (p.inode i))).inode j).count = (p.inode j).count := by
  by_cases hj : j = i
  · subst hj
    rw [setInode_self]
    rfl
  · rw [setInode_of_ne _ _ hj, h.inode]

theorem blockCount (h : Moved p i m t) (k : Dev × Ino) :
    (t.setInode i (m.inode (p.inode i))).blockCount k = p.blockCount k := h.counts k

end Moved

theorem Request.newSize_le {size : Nat} (hmax : size ≤ pipeBuf)
    (hfit : m.rw = .writing → size + m.nbytes ≤ pipeBuf) : m.newSize size ≤ pipeBuf := by
  unfold Request.newSize Request.count
  cases hrw : m.rw with
  | reading =>
    simp only
    omega
  | writing =>
    have hroom := hfit hrw
    simp only
    split <;> omega

theorem Agree.other (hs : Agree s) {i j : InodePtr} {t : State} {v w : V} (hvw : w ≠ v)
    (hi : s.pfs.findInode (s.vnode v).mapinodeNr = some i)
    (hj : s.pfs.findInode (s.vnode w).mapinodeNr = some j) (hmoved : Moved s.pfs i m t) :
    (t.setInode i (m.inode (s.pfs.inode i))).inode j = s.pfs.inode j ∧
      (t.setInode i (m.inode (s.pfs.inode i))).content j = s.pfs.content j := by
  have hnum : (s.pfs.inode j).num ≠ (s.pfs.inode i).num := by
    rw [(findInode_some hi).2.2, (findInode_some hj).2.2]
    exact fun heq => hvw (hs.apart w v heq)
  have hji : j ≠ i := by
    rintro rfl
    exact hnum rfl
  have hsame : (t.setInode i (m.inode (s.pfs.inode i))).inode j = s.pfs.inode j := by
    rw [setInode_of_ne _ _ hji, hmoved.inode]
  refine ⟨hsame, ?_⟩
  unfold State.content
  rw [hsame]
  have hblock : (t.setInode i (m.inode (s.pfs.inode i))).block
      ((s.pfs.inode j).dev, (s.pfs.inode j).num) =
        s.pfs.block ((s.pfs.inode j).dev, (s.pfs.inode j).num) :=
    hmoved.others _ fun heq => hnum (Prod.mk.inj heq).2
  rw [hblock]

theorem Agree.resized (hs : Agree s) (s' : System V) {i : InodePtr} {t : State} {v : V}
    (hi : s.pfs.findInode (s.vnode v).mapinodeNr = some i) (hmoved : Moved s.pfs i m t)
    (hle : m.newSize (s.pfs.inode i).size ≤ pipeBuf)
    (hpfs : s'.pfs = t.setInode i (m.inode (s.pfs.inode i)))
    (hself : s'.vnode v = { s.vnode v with size := m.newSize (s.pfs.inode i).size })
    (hother : ∀ w, w ≠ v → s'.vnode w = s.vnode w) : Agree s' := by
  have hnr (w : V) : (s'.vnode w).mapinodeNr = (s.vnode w).mapinodeNr := by
    by_cases hw : w = v
    · rw [hw, hself]
    · rw [hother w hw]
  refine ⟨?_, fun w => ?_, fun w w' h => ?_⟩
  · rw [hpfs]
    refine hmoved.sound.setInode ?_
    rw [hmoved.inode]
    rfl
  · obtain ⟨j, hj, hpipe, hsize, hmax⟩ := hs.found w
    refine ⟨j, by rw [hpfs, hmoved.findInode, hnr]; exact hj, ?_⟩
    rw [hpfs]
    by_cases hw : w = v
    · subst hw
      obtain rfl := some.inj (hj.symm.trans hi)
      rw [setInode_self, hself]
      exact ⟨hpipe, rfl, hle⟩
    · rw [(hs.other hw hi hj hmoved).1, hother w hw]
      exact ⟨hpipe, hsize, hmax⟩
  · rw [hnr, hnr] at h
    exact hs.apart w w' h

variable [DecidableEq V]

theorem Agree.unchanged (hs : Agree s) {r : Result} (hrun : rwPipe s c = some (s, r)) :
    Kept s c ∧ Agree (s.step c) := by
  refine ⟨⟨s, r, hrun, hs.sizes, fun _ => rfl, fun _ => rfl, fun _ _ => rfl⟩, ?_⟩
  unfold System.step
  rw [hrun]
  exact hs

theorem Agree.unasked (hs : Agree s) (h : ∀ m, c.asks (s.vnode c.v) = some m → pipeBuf < m.nbytes) :
    Kept s c ∧ Agree (s.step c) := by
  cases hasks : c.asks (s.vnode c.v) with
  | none =>
    obtain ⟨r, hrun⟩ := rwPipe_unasked hasks
    exact hs.unchanged hrun
  | some m =>
    obtain ⟨i, hi, hpipe, -, -⟩ := hs.found c.v
    obtain ⟨n, -, -, hm⟩ := asks_some hasks
    have hnr : m.inodeNr = (s.vnode c.v).mapinodeNr := by rw [hm]
    rw [← hnr] at hi
    exact hs.unchanged (rwPipe_failed hasks (fsReadwrite_efbig hi hpipe (h m hasks)))

theorem Agree.leaks (hs : Agree s) {i : InodePtr} (hasks : c.asks (s.vnode c.v) = some m)
    (hn : m.nbytes ≤ pipeBuf) (hi : s.pfs.findInode m.inodeNr = some i)
    (hpipe : (s.pfs.inode i).isPipe = true)
    (hblock : s.pfs.block ((s.pfs.inode i).dev, (s.pfs.inode i).num) = none)
    (halloc : m.alloc = false) : ¬ Kept s c := by
  rintro ⟨t, r, hrun, -, hcounts, -⟩
  rw [rwPipe_failed hasks (fsReadwrite_enospc hs.tables hi hpipe hn hblock halloc)] at hrun
  obtain ⟨rfl, -⟩ := Prod.mk.inj (some.inj hrun)
  have hcount := hcounts i
  rw [setInode_self] at hcount
  simp only at hcount
  omega

theorem Agree.copied (hs : Agree s) {i : InodePtr} {t : State} (hasks : c.asks (s.vnode c.v) = some m)
    (hn : m.nbytes ≤ pipeBuf) (hi : s.pfs.findInode m.inodeNr = some i)
    (hsize : ((s.pfs.inode i).size : Int) = (s.vnode c.v).size)
    (hmax : (s.pfs.inode i).size ≤ pipeBuf) (hmoved : Moved s.pfs i m t)
    (hfs : fsReadwrite s.pfs m = some (t.setInode i (m.inode (s.pfs.inode i)), match m.copy with
      | some e => .error e
      | none => .ok (m.count (s.pfs.inode i).size, m.newSize (s.pfs.inode i).size))) :
    if c.rw = .reading ∧ c.copy ≠ none then ¬ Kept s c else Kept s c ∧ Agree (s.step c) := by
  obtain ⟨hfit, hread⟩ := asks_fits hasks (by omega) (by omega) hn
  have hle : m.newSize (s.pfs.inode i).size ≤ pipeBuf := by
    refine Request.newSize_le hmax fun hw => ?_
    have hroom := hfit hw
    omega
  obtain ⟨n, -, -, hm⟩ := asks_some hasks
  have hnr : m.inodeNr = (s.vnode c.v).mapinodeNr := by rw [hm]
  have hrw : m.rw = c.rw := by rw [hm]
  have hcopy : m.copy = c.copy := by rw [hm]
  rw [hnr] at hi
  cases hc : m.copy with
  | none =>
    rw [if_neg (by simp [← hcopy, hc])]
    rw [hc] at hfs
    obtain ⟨cumIo, r, hrun, hr⟩ := rwPipe_done hasks hfs
    have hagree := hs.resized ⟨t.setInode i (m.inode (s.pfs.inode i)), update s.vnode c.v
        { s.vnode c.v with size := m.newSize (s.pfs.inode i).size }, cumIo⟩ hi hmoved hle rfl
      (update_self ..) fun w hw => update_of_ne hw ..
    refine ⟨⟨_, r, hrun, hagree.sizes, hmoved.count, hmoved.blockCount, fun herr => ?_⟩, ?_⟩
    · obtain rfl | ⟨n, rfl⟩ := hr <;> exact herr.elim
    · unfold System.step
      rw [hrun]
      exact hagree
  | some e =>
    rw [hc] at hfs
    have hrun := rwPipe_failed hasks hfs
    split_ifs with hbad
    · -- the bytes are gone, and VFS still counts them
      rintro ⟨s', r, hrun', hsizes, -⟩
      rw [hrun] at hrun'
      obtain ⟨rfl, -⟩ := Prod.mk.inj (some.inj hrun')
      obtain ⟨j, hj, hsize'⟩ := hsizes c.v
      rw [hmoved.findInode, hi] at hj
      obtain rfl := some.inj hj
      rw [setInode_self] at hsize'
      obtain ⟨hpos, hbytes⟩ := hread (hrw.trans hbad.1)
      have hnew : (m.inode (s.pfs.inode i)).size = (s.pfs.inode i).size - m.count (s.pfs.inode i).size := by
        simp [Request.inode, Request.newSize, hrw.trans hbad.1]
      have hcount : 0 < m.count (s.pfs.inode i).size := by
        unfold Request.count
        rw [hrw.trans hbad.1]
        simp only
        split <;> omega
      simp only [hnew] at hsize'
      omega
    have hw : m.rw = .writing := by
      cases h : m.rw with
      | reading => exact absurd ⟨hrw.symm.trans h, by simp [← hcopy, hc]⟩ hbad
      | writing => rfl
    have hnew : m.newSize (s.pfs.inode i).size = (s.pfs.inode i).size := by
      simp [Request.newSize, hw, hc]
    have hagree := hs.resized { s with pfs := t.setInode i (m.inode (s.pfs.inode i)) }
      hi hmoved hle rfl (by rw [hnew, hsize]) fun _ _ => rfl
    refine ⟨⟨_, _, hrun, hagree.sizes, hmoved.count, hmoved.blockCount, fun _ w => ?_⟩, ?_⟩
    · obtain ⟨j, hj, -⟩ := hs.found w
      unfold System.content
      simp only
      rw [hmoved.findInode, hj]
      simp only [bind_some]
      by_cases hv : w = c.v
      · subst hv
        obtain rfl := some.inj (hj.symm.trans hi)
        rw [← hmoved.kept hw]
        unfold State.content
        rw [setInode_self, hmoved.inode]
        simp only [Request.inode, hnew]
        rfl
      · exact (hs.other hv hi hj hmoved).2
    · unfold System.step
      rw [hrun]
      exact hagree

theorem Agree.step (hs : Agree s) : (Kept s c ↔ Harmless s c) ∧ (Harmless s c → Agree (s.step c)) := by
  by_cases hasked : ∃ m, c.asks (s.vnode c.v) = some m ∧ m.nbytes ≤ pipeBuf
  · obtain ⟨m, hasks, hn⟩ := hasked
    obtain ⟨i, hi, hpipe, hsize, hmax⟩ := hs.found c.v
    obtain ⟨n, -, -, hm⟩ := asks_some hasks
    have hnr : m.inodeNr = (s.vnode c.v).mapinodeNr := by rw [hm]
    have halloc : m.alloc = c.alloc := by rw [hm]
    have hbuffer : HasBuffer s c.v ↔
        (s.pfs.block ((s.pfs.inode i).dev, (s.pfs.inode i).num)).isSome = true := by
      unfold HasBuffer
      rw [hi]
      simp
    have hharmless : Harmless s c ↔ (c.rw = .reading → c.copy = none) ∧
        (c.alloc = false → HasBuffer s c.v) := by
      constructor
      · intro h
        exact h m hasks hn
      · intro h m' hasks' _
        exact h
    rw [← hnr] at hi
    rw [hharmless, hbuffer]
    by_cases hroom : c.alloc = false →
        (s.pfs.block ((s.pfs.inode i).dev, (s.pfs.inode i).num)).isSome = true
    · obtain ⟨t, hmoved, hfs⟩ := hs.served hasks hn hi hpipe hsize hmax (by rwa [halloc])
      have hcopied := hs.copied hasks hn hi hsize hmax hmoved hfs
      split_ifs at hcopied with hbad
      · refine ⟨iff_of_false hcopied fun h => hbad.2 (h.1 hbad.1), fun h => absurd (h.1 hbad.1) hbad.2⟩
      · refine ⟨iff_of_true hcopied.1 ⟨fun hr => ?_, hroom⟩, fun _ => hcopied.2⟩
        by_contra hne
        exact hbad ⟨hr, hne⟩
    have hleaks : ¬ Kept s c := by
      rw [Classical.not_imp] at hroom
      refine hs.leaks hasks hn hi hpipe ?_ (halloc.trans hroom.1)
      simpa using hroom.2
    exact ⟨iff_of_false hleaks fun h => hroom h.2, fun h => absurd h.2 hroom⟩
  · have hunasked : ∀ m, c.asks (s.vnode c.v) = some m → pipeBuf < m.nbytes := by
      intro m hm
      by_contra hle
      exact hasked ⟨m, hm, Nat.not_lt.mp hle⟩
    obtain ⟨hkept, hagree⟩ := hs.unasked hunasked
    refine ⟨iff_of_true hkept fun m hm hle => ?_, fun _ => hagree⟩
    exact absurd hle (Nat.not_le.mpr (hunasked m hm))

/-- In a run the two sides agree and nothing is lost or leaked exactly if every request is
harmless. -/
theorem pipes_kept_iff (hs : Agree s) (cs : List (Call V)) :
    Along System.step Kept s cs ↔ Along System.step Harmless s cs := by
  constructor
  · intro h
    refine (Along.run (fun s c hs hkept => ?_) hs h).1
    have hharmless := hs.step.1.mp hkept
    exact ⟨hharmless, hs.step.2 hharmless⟩
  · intro h
    refine (Along.run (fun s c hs hharmless => ?_) hs h).1
    exact ⟨hs.step.1.mpr hharmless, hs.step.2 hharmless⟩

end

/-! ## One pipe -/

/-- The file server with one pipe that holds one byte. -/
def onePipeTables : State where
  inode i :=
    if i = 1 then ⟨true, noLink, 1, 1, 1, 1, ⟨false, false, false⟩⟩
    else ⟨false, noLink, 0, noDev, noEntry, 0, ⟨false, false, false⟩⟩
  hash h := if h = 1 then [1] else []
  unused := []
  blocks := [⟨fun _ => 7, 1, 1, 1⟩]
  inodemap b := decide (b ≤ 1)
  busy := 1

def onePipe : System Unit where
  pfs := onePipeTables
  vnode _ := ⟨1, 1⟩
  cumIoPartial _ := 0

theorem onePipe_agree : Agree onePipe where
  tables := by
    refine ⟨fun numb i hi j hj _ => ?_, by decide, fun b hb => ?_⟩
    · have hone (a : InodePtr) (ha : a ∈ onePipeTables.chain numb) : a = 1 := by
        simp only [State.chain, onePipeTables] at ha
        split at ha
        · exact List.mem_singleton.mp ha
        · cases ha
      exact (hone i hi).trans (hone j hj).symm
    · obtain rfl := List.mem_singleton.mp hb
      decide
  found v := by
    cases v
    exact ⟨1, by decide, by decide, by decide, by decide⟩
  apart _ _ _ := rfl

def oneByte (rw : Rw) (copy : Option Err) : Call Unit where
  p := 0
  v := ()
  rw := rw
  nonblock := false
  reqSize := 1
  peer := true
  data _ := 8
  copy := copy
  copied := 0
  alloc := true

/-- A write that fails and one that does not. -/
theorem onePipe_kept :
    Along System.step Kept onePipe [oneByte .writing (some (.copy (-14))), oneByte .writing none] := by
  refine (pipes_kept_iff onePipe_agree _).mpr ⟨fun m _ _ => ?_, fun m _ _ => ?_, trivial⟩
  · constructor
    · intro h
      cases h
    · intro h
      cases h
  constructor
  · intro _
    rfl
  · intro h
    cases h

/-- A read that fails takes the byte out of the inode, and the vnode still has it. -/
theorem failed_read_consumes : ¬ ∀ cs, Along System.step Kept onePipe cs := by
  intro h
  have hharmless := (pipes_kept_iff onePipe_agree _).mp (h [oneByte .reading (some (.copy (-14)))])
  have hasks : (oneByte .reading (some (.copy (-14)))).asks (onePipe.vnode ()) =
      some ⟨1, .reading, 1, fun _ => 8, some (.copy (-14)), 0, true⟩ := by
    simp [Call.asks, pipeCheck, oneByte, onePipe, int32]
  have hcopy := (hharmless.1 _ hasks (by decide)).1 rfl
  cases hcopy

end HardenedMinix.Pfs
