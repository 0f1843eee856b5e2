import HardenedMinix.Vfs.Filedes

/-!
# Descriptors in socket messages

`sendmsg` takes a reference to the filp of each descriptor and leaves it in the arrays of the
receiving socket; `recvmsg` turns these into descriptors of the caller.
-/

open Function

namespace HardenedMinix.Pfs.Rights

open Lib Vfs.Filedes Vfs.Filedes.Tables

variable {Proc Filp Path : Type} [DecidableEq Proc] [DecidableEq Filp] [DecidableEq Path]

def nrFds : Nat := 256

def msgControlMax : Nat := 1020

def cmsgLen (n : Nat) : Nat := 12 + n

/-- `struct ancillary`, the credentials apart. -/
structure Ancillary (Filp : Type) where
  filps : Nat → Option Filp
  fds : Nat → Int
  nfiledes : Nat

/-- A control message: whether it is about descriptors (`SOL_SOCKET`, `SCM_RIGHTS`), and its data. -/
structure Cmsg where
  scmRights : Bool
  fds : List Int
  deriving DecidableEq, Repr

/-! ## Sending -/

/-- The descriptors of one control message are appended; `false` is `EOVERFLOW`. -/
def readFds : List Int → Ancillary Filp → Ancillary Filp × Bool
  | [], d => (d, true)
  | fd :: fds, d =>
    if d.nfiledes = openMax then (d, false)
    else readFds fds
      { d with fds := update d.fds d.nfiledes fd, nfiledes := d.nfiledes + 1 }

def readCmsgs : List Cmsg → Ancillary Filp → Ancillary Filp × Bool
  | [], d => (d, true)
  | c :: cs, d =>
    if c.scmRights then
      match readFds (c.fds.take openMax) d with
      | (d, true) => readCmsgs cs d
      | (d, false) => (d, false)
    else readCmsgs cs d

/-- `cred` is the error of `getnucred`, if it fails. -/
def msgControlRead (msg : List Cmsg) (cred : Option Errno) (d : Ancillary Filp) :
    Ancillary Filp × Option Errno :=
  match readCmsgs msg { d with nfiledes := 0 } with
  | (d, false) => (d, some .eoverflow)
  | (d, true) => (d, cred)

/-- The first loop of `send_fds`; `false` if a descriptor is not valid. -/
def verifyFds (t : Tables Proc Filp) (owner : Proc) :
    List Nat → Ancillary Filp → Option (Ancillary Filp × Bool)
  | [], d => some (d, true)
  | i :: is, d =>
    (t.verifyFd owner (d.fds i)).bind fun f =>
      if f = none then some ({ d with filps := update d.filps i f }, false)
      else verifyFds t owner is { d with filps := update d.filps i f }

/-- `put_filp` for some of the filps. -/
def putFilps (d : Ancillary Filp) (is : List Nat) (t : Tables Proc Filp) : Option (Tables Proc Filp) :=
  is.foldlM (fun t i => (t.putFilp (d.filps i)).map Prod.fst) t

/-- The second loop of `send_fds`; the roll-back starts with the filp that could not be set. -/
def setFilps (d : Ancillary Filp) : List Nat → Tables Proc Filp →
    Option (Tables Proc Filp × Option Errno)
  | [], t => some (t, none)
  | i :: is, t =>
    (t.setFilp (d.filps i)).bind fun
      | (t, .ok _) => setFilps d is t
      | (t, .error e) => (putFilps d (List.range (i + 1)).reverse t).map fun t => (t, some e)

def sendFds (t : Tables Proc Filp) (owner : Proc) (d : Ancillary Filp) :
    Option (Tables Proc Filp × Ancillary Filp × Option Errno) :=
  (verifyFds t owner (List.range d.nfiledes) d).bind fun
    | (d, false) => some (t, d, some .einval)
    | (d, true) => (setFilps d (List.range d.nfiledes) t).map fun (t, rc) => (t, d, rc)

/-! ## Receiving -/

/-- `cancel_fd` for some of the numbers. -/
def cancelFds (owner : Proc) (d : Ancillary Filp) (is : List Nat) (t : Tables Proc Filp) :
    Option (Tables Proc Filp) :=
  is.foldlM (fun t i => (t.cancelFd owner (d.fds i)).map Prod.fst) t

/-- The first loop of `recv_fds`; the roll-back starts with the number that was not replaced. -/
def copyFilps (owner : Proc) : List Nat → Tables Proc Filp → Ancillary Filp →
    Option (Tables Proc Filp × Ancillary Filp × Option Errno)
  | [], t, d => some (t, d, none)
  | i :: is, t, d =>
    (t.copyFilp owner (d.filps i)).bind fun
      | (t, .ok fd) => copyFilps owner is t { d with fds := update d.fds i fd }
      | (t, .error e) =>
        (putFilps d (List.range d.nfiledes) t).bind fun t =>
          (cancelFds owner d (List.range (i + 1)).reverse t).map fun t => (t, d, some e)

/-- The references are given back and the elements are cleared, here and in `clear_fds`. -/
def clearLoop : List Nat → Tables Proc Filp → Ancillary Filp →
    Option (Tables Proc Filp × Ancillary Filp)
  | [], t, d => some (t, { d with nfiledes := 0 })
  | i :: is, t, d =>
    (t.putFilp (d.filps i)).bind fun (t, _) =>
      clearLoop is t { d with
        fds := update d.fds i (-1), filps := update d.filps i none }

def clearFds (t : Tables Proc Filp) (d : Ancillary Filp) : Option (Tables Proc Filp × Ancillary Filp) :=
  clearLoop (List.range d.nfiledes) t d

/-- `controllen` is the room for control messages; without room for a header the null pointer is
followed. -/
def recvFds (t : Tables Proc Filp) (owner : Proc) (d : Ancillary Filp) (controllen : Nat) :
    Option (Tables Proc Filp × Ancillary Filp × Except Errno (List Int)) :=
  if controllen < cmsgLen 0 then none
  else
    (copyFilps owner (List.range d.nfiledes) t d).bind fun
      | (t, d, some e) => some (t, d, .error e)
      | (t, d, none) =>
        (clearFds t d).map fun (t, d') => (t, d', .ok ((List.range d.nfiledes).map d.fds))

/-! ## Sockets -/

def sockDgram : Int := 2

/-- A socket: the state, the type, the peer, the bound address and that of the next message (`none`
unless the family is `AF_UNIX` and the path is not empty). -/
structure Sock (Filp Path : Type) where
  inuse : Bool
  type : Int
  peer : Option Nat
  addr : Option Path
  target : Option Path
  ancillary : Ancillary Filp

/-- A socket that is filled with zeros is free. -/
def Sock.zero : Sock Filp Path := ⟨false, 0, some 0, none, none, ⟨fun _ => none, fun _ => 0, 0⟩⟩

/-- What `uds_open` makes of it. -/
def Sock.opened : Sock Filp Path := ⟨true, -1, none, none, none, ⟨fun _ => none, fun _ => -1, 0⟩⟩

structure System (Proc Filp Path : Type) where
  vfs : Tables Proc Filp
  sock : Nat → Sock Filp Path

namespace System

variable (s : System Proc Filp Path)

/-- A socket and the tables of VFS get new contents. -/
def set (minor : Nat) (t : Tables Proc Filp) (d : Ancillary Filp) : System Proc Filp Path :=
  ⟨t, update s.sock minor { s.sock minor with ancillary := d }⟩

/-- The socket a message goes to: for datagrams the first one with the target address. -/
def receiver (minor : Nat) : Except Errno Nat :=
  if (s.sock minor).type = sockDgram then
    match (s.sock minor).target with
    | none => .error .edestaddrreq
    | some path =>
      match (List.range nrFds).find? fun i =>
          (s.sock i).type = sockDgram ∧ (s.sock i).addr = some path with
      | none => .error .enoent
      | some i => .ok i
  else
    match (s.sock minor).peer with
    | none => .error .enotconn
    | some i => .ok i

/-- `do_sendmsg`, by the process `uds_ioctl` has made the owner; `msg` is `none` if it cannot be
copied in. -/
def doSendmsg (owner : Proc) (minor : Nat) (msg : Option (List Cmsg)) (cred : Option Errno) :
    Option (System Proc Filp Path × Except Errno (List Int)) :=
  match msg with
  | none => some (s, .error .eio)
  | some msg =>
    match s.receiver minor with
    | .error e => some (s, .error e)
    | .ok peer =>
      match msgControlRead msg cred (s.sock peer).ancillary with
      | (d, some e) => some (s.set peer s.vfs d, .error e)
      | (d, none) =>
        (sendFds s.vfs owner d).map fun
          | (t, d, some e) => (s.set peer t d, .error e)
          | (t, d, none) => (s.set peer t d, .ok [])

/-- The room that the descriptors need (`controllen_needed`). -/
def needed (minor : Nat) : Nat :=
  if 0 < (s.sock minor).ancillary.nfiledes then cmsgLen (4 * (s.sock minor).ancillary.nfiledes) else 0

/-- `do_recvmsg`; `controllen` is `none` if it cannot be copied in, `copied`: the answer can be
copied out. -/
def doRecvmsg (owner : Proc) (minor : Nat) (controllen : Option Nat) (copied : Bool) :
    Option (System Proc Filp Path × Except Errno (List Int)) :=
  match controllen with
  | none => some (s, .error .eio)
  | some len =>
    if min len msgControlMax < s.needed minor then some (s, .error .eoverflow)
    else
      (recvFds s.vfs owner (s.sock minor).ancillary len).map fun
        | (t, d, .error e) => (s.set minor t d, .error e)
        | (t, d, .ok fds) => (s.set minor t d, if copied then .ok fds else .error .eio)

/-- `uds_open`; `rc` is the error of `getnucred` or of the new node, if one of them fails. -/
def udsOpen (rc : Option Errno) : System Proc Filp Path × Except Errno (List Int) :=
  match (List.range nrFds).find? fun i => 1 ≤ i ∧ ¬ (s.sock i).inuse with
  | none => (s, .error .enfile)
  | some minor =>
    match rc with
    | none => ({ s with sock := update s.sock minor Sock.opened }, .ok [(minor : Int)])
    | some e => ({ s with sock := update s.sock minor Sock.zero }, .error e)

/-- The peer of a socket that is closed is told. -/
def disconnected (minor : Nat) : Nat → Sock Filp Path :=
  match (s.sock minor).peer with
  | none => s.sock
  | some p => update s.sock p { s.sock p with peer := none }

/-- The peer is told, and what has not been received is given back. -/
def udsClose (minor : Nat) : Option (System Proc Filp Path × Except Errno (List Int)) :=
  if (s.sock minor).inuse then
    (clearFds s.vfs (s.sock minor).ancillary).map fun (t, _) =>
      (⟨t, update (s.disconnected minor) minor Sock.zero⟩, .ok [])
  else some (s, .error .einval)

end System

/-! ## The loops when nothing fails -/

variable {t : Tables Proc Filp} {d : Ancillary Filp} {owner : Proc} {minor : Nat}
  {flying flying' : Nat × Nat → Option Filp} {is : List Nat}

def Ancillary.fdList (d : Ancillary Filp) : List Int := (List.range d.nfiledes).map d.fds

/-- The descriptors that a message is about. -/
def rights (msg : List Cmsg) : List Int :=
  msg.flatMap fun c => if c.scmRights then c.fds.take openMax else []

omit [DecidableEq Filp] in
theorem readFds_ok (fds : List Int) (d : Ancillary Filp) (h : d.nfiledes + fds.length ≤ openMax) :
    ∃ d', readFds fds d = (d', true) ∧ d'.fdList = d.fdList ++ fds ∧ d'.filps = d.filps ∧
      d'.nfiledes = d.nfiledes + fds.length := by
  induction fds generalizing d with
  | nil => exact ⟨d, rfl, by simp, rfl, rfl⟩
  | cons fd fds ih =>
    rw [List.length_cons] at h
    have hne : d.nfiledes ≠ openMax := by omega
    have hnext := ih { d with fds := update d.fds d.nfiledes fd, nfiledes := d.nfiledes + 1 }
      (by simp only; omega)
    obtain ⟨d', hread, hfds, hfilps, hn⟩ := hnext
    simp only at hn
    refine ⟨d', ?_, ?_, hfilps, by rw [hn, List.length_cons]; omega⟩
    · rw [readFds, if_neg hne, hread]
    rw [hfds, List.append_cons]
    congr 1
    unfold Ancillary.fdList
    simp only [List.range_succ, List.map_append, List.map_cons, List.map_nil, update_self]
    congr 1
    refine List.map_congr_left fun i hi => update_of_ne ?_ ..
    exact Nat.ne_of_lt (List.mem_range.mp hi)

omit [DecidableEq Filp] in
theorem readCmsgs_ok (msg : List Cmsg) (d : Ancillary Filp)
    (h : d.nfiledes + (rights msg).length ≤ openMax) :
    ∃ d', readCmsgs msg d = (d', true) ∧ d'.fdList = d.fdList ++ rights msg ∧ d'.filps = d.filps ∧
      d'.nfiledes = d.nfiledes + (rights msg).length := by
  induction msg generalizing d with
  | nil => exact ⟨d, rfl, by simp [rights], rfl, rfl⟩
  | cons c msg ih =>
    have hcons : rights (c :: msg) = (if c.scmRights then c.fds.take openMax else []) ++ rights msg := rfl
    rw [hcons] at h ⊢
    rw [List.length_append] at h ⊢
    cases hc : c.scmRights with
    | false =>
      rw [hc] at h
      obtain ⟨d', hread, hfds, hfilps, hn⟩ := ih d (by simpa using h)
      exact ⟨d', by simp [readCmsgs, hc, hread], by simpa using hfds, hfilps, by simpa using hn⟩
    | true =>
      simp only [hc, ↓reduceIte] at h ⊢
      obtain ⟨d1, hfirst, hfds1, hfilps1, hn1⟩ := readFds_ok (c.fds.take openMax) d (by omega)
      obtain ⟨d', hread, hfds, hfilps, hn⟩ := ih d1 (by omega)
      refine ⟨d', ?_, ?_, hfilps.trans hfilps1, by omega⟩
      · simp [readCmsgs, hc, hfirst, hread]
      · rw [hfds, hfds1, List.append_assoc]

omit [DecidableEq Proc] [DecidableEq Filp] in
theorem verifyFds_ok [DecidableEq Filp] (is : List Nat) (d : Ancillary Filp) (hnodup : is.Nodup)
    (h : ∀ i ∈ is, ∃ f, t.verifyFd owner (d.fds i) = some (some f)) :
    ∃ d', verifyFds t owner is d = some (d', true) ∧ d'.fds = d.fds ∧ d'.nfiledes = d.nfiledes ∧
      (∀ i ∈ is, ∃ f, d'.filps i = some f ∧ t.verifyFd owner (d.fds i) = some (some f)) ∧
      ∀ i, i ∉ is → d'.filps i = d.filps i := by
  induction is generalizing d with
  | nil => exact ⟨d, rfl, rfl, rfl, fun i hi => absurd hi (by simp), fun _ _ => rfl⟩
  | cons i is ih =>
    obtain ⟨hi, hnodup⟩ := List.nodup_cons.mp hnodup
    obtain ⟨f, hf⟩ := h i (List.mem_cons_self ..)
    obtain ⟨d', hrun, hfds, hn, hfilps, hother⟩ :=
      ih { d with filps := update d.filps i (some f) } hnodup
        fun j hj => h j (List.mem_cons_of_mem _ hj)
    refine ⟨d', ?_, hfds, hn, fun j hj => ?_, fun j hj => ?_⟩
    · simp only [verifyFds, hf, Option.bind_some, reduceCtorEq, ↓reduceIte]
      exact hrun
    · obtain rfl | hj := List.mem_cons.mp hj
      · exact ⟨f, by rw [hother j hi]; exact update_self .., hf⟩
      · exact hfilps j hj
    · rw [List.mem_cons, not_or] at hj
      rw [hother j hj.2]
      exact update_of_ne hj.1 ..

theorem setFilps_ok (is : List Nat) (hnodup : is.Nodup) (hright : t.Right flying)
    (hempty : ∀ i ∈ is, flying (minor, i) = none)
    (hfilps : ∀ i ∈ is, ∃ f, d.filps i = some f ∧ 0 < t.filpCount f)
    (hslots : ∀ i ∈ is, flying' (minor, i) = d.filps i)
    (hother : ∀ m, (∀ i ∈ is, m ≠ (minor, i)) → flying' m = flying m) :
    ∃ t', setFilps d is t = some (t', none) ∧ t'.Right flying' ∧ t'.fpFilp = t.fpFilp := by
  induction is generalizing t flying with
  | nil =>
    have hsame : flying' = flying := funext fun m => hother m (by simp)
    exact ⟨t, rfl, hsame ▸ hright, rfl⟩
  | cons i is ih =>
    obtain ⟨hi, hnodup⟩ := List.nodup_cons.mp hnodup
    obtain ⟨f, hf, hpos⟩ := hfilps i (List.mem_cons_self ..)
    have hne : ∀ j ∈ is, (minor, j) ≠ (minor, i) := fun j hj heq => hi ((Prod.mk.inj heq).2 ▸ hj)
    have hlock : t.lockFilp f = some () := if_pos hpos
    have hsend : (t.count f 1).Right (update flying (minor, i) (some f)) :=
      hright.send (hempty i (List.mem_cons_self ..))
    obtain ⟨t', hrun, hright', hslot⟩ := ih hnodup hsend
      (fun j hj => by
        rw [update_of_ne (hne j hj)]
        exact hempty j (List.mem_cons_of_mem _ hj))
      (fun j hj => by
        obtain ⟨g, hg, hgpos⟩ := hfilps j (List.mem_cons_of_mem _ hj)
        exact ⟨g, hg, count_pos hgpos⟩)
      (fun j hj => hslots j (List.mem_cons_of_mem _ hj))
      (fun m hm => by
        by_cases hmi : m = (minor, i)
        · subst hmi
          rw [update_self, hslots i (List.mem_cons_self ..), hf]
        rw [update_of_ne hmi]
        refine hother m fun j hj => ?_
        obtain rfl | hj := List.mem_cons.mp hj
        · exact hmi
        · exact hm j hj)
    refine ⟨t', ?_, hright', hslot⟩
    simp only [setFilps, hf, setFilp, hlock, Option.map_some, Option.bind_some]
    exact hrun

theorem clearLoop_ok (is : List Nat) (d : Ancillary Filp) (hnodup : is.Nodup) (hright : t.Right flying)
    (hfilps : ∀ i ∈ is, ∃ f, d.filps i = some f ∧ flying (minor, i) = some f)
    (hslots : ∀ i ∈ is, flying' (minor, i) = none)
    (hother : ∀ m, (∀ i ∈ is, m ≠ (minor, i)) → flying' m = flying m) :
    ∃ t' d', clearLoop is t d = some (t', d') ∧ t'.Right flying' ∧ t'.fpFilp = t.fpFilp ∧
      d'.nfiledes = 0 := by
  induction is generalizing t d flying with
  | nil =>
    have hsame : flying' = flying := funext fun m => hother m (by simp)
    exact ⟨t, _, rfl, hsame ▸ hright, rfl, rfl⟩
  | cons i is ih =>
    obtain ⟨hi, hnodup⟩ := List.nodup_cons.mp hnodup
    obtain ⟨f, hf, hflying⟩ := hfilps i (List.mem_cons_self ..)
    have hne : ∀ j ∈ is, j ≠ i := fun j hj heq => hi (heq ▸ hj)
    have hne' : ∀ j ∈ is, (minor, j) ≠ (minor, i) := fun j hj heq => hne j hj (Prod.mk.inj heq).2
    have hlock : t.lockFilp f = some () := lockFilp_of_held hright (x := .inr (minor, i)) hflying
    obtain ⟨t', d', hrun, hright', hslot, hn⟩ := ih
      { d with fds := update d.fds i (-1), filps := update d.filps i none }
      hnodup (hright.settle hflying)
      (fun j hj => by
        obtain ⟨g, hg, hgflying⟩ := hfilps j (List.mem_cons_of_mem _ hj)
        exact ⟨g, (update_of_ne (hne j hj) ..).trans hg,
          (update_of_ne (hne' j hj) ..).trans hgflying⟩)
      (fun j hj => hslots j (List.mem_cons_of_mem _ hj))
      (fun m hm => by
        by_cases hmi : m = (minor, i)
        · subst hmi
          rw [update_self, hslots i (List.mem_cons_self ..)]
        rw [update_of_ne hmi]
        refine hother m fun j hj => ?_
        obtain rfl | hj := List.mem_cons.mp hj
        · exact hmi
        · exact hm j hj)
    refine ⟨t', d', ?_, hright', hslot, hn⟩
    simp only [clearLoop, hf, putFilp, hlock, Option.map_some, Option.bind_some]
    exact hrun

/-- The descriptors `fds` of a process have been given the filps `fs`, and nothing else has
changed in the tables. -/
structure Installed (t t' : Tables Proc Filp) (owner : Proc) (fds : List Nat)
    (fs : List (Option Filp)) : Prop where
  nodup : fds.Nodup
  unused : ∀ fd ∈ fds, t.fpFilp owner fd = none
  given : fds.map (t'.fpFilp owner) = fs
  other : ∀ p fd, p = owner ∧ fd ∈ fds ∨ t'.fpFilp p fd = t.fpFilp p fd

theorem copyFilps_ok (is : List Nat) {fds rest : List Nat} (d : Ancillary Filp) (hnodup : is.Nodup)
    (hright : t.Right flying) (halive : is ≠ [] → t.isokendpt owner)
    (hfilps : ∀ i ∈ is, ∃ f, d.filps i = some f) (hfree : t.freeFds owner = fds ++ rest)
    (hlength : fds.length = is.length) :
    ∃ t' d', copyFilps owner is t d = some (t', d', none) ∧ t'.Right flying ∧
      Installed t t' owner fds (is.map d.filps) ∧ is.map d'.fds = fds.map (fun (fd : Nat) => (fd : Int)) ∧
      d'.filps = d.filps ∧ d'.nfiledes = d.nfiledes ∧ ∀ i, i ∉ is → d'.fds i = d.fds i := by
  induction is generalizing t d fds with
  | nil =>
    obtain rfl := List.length_eq_zero_iff.mp hlength
    exact ⟨t, d, rfl, hright, ⟨List.nodup_nil, by simp, rfl, fun _ _ => Or.inr rfl⟩, rfl, rfl, rfl,
      fun _ _ => rfl⟩
  | cons i is ih =>
    obtain ⟨hi, hnodup⟩ := List.nodup_cons.mp hnodup
    obtain ⟨f, hf⟩ := hfilps i (List.mem_cons_self ..)
    have halive := halive (List.cons_ne_nil _ _)
    cases fds with
    | nil => simp at hlength
    | cons fd fds =>
      have hmem : ∀ e ∈ fd :: fds, t.fpFilp owner e = none := by
        intro e he
        have hin : e ∈ t.freeFds owner := hfree ▸ List.mem_append_left _ he
        unfold freeFds at hin
        have hprop := (List.mem_filter.mp hin).2
        simp only [decide_eq_true_eq] at hprop
        exact hprop.1
      have hunique : (fd :: fds).Nodup := by
        have hall : (t.freeFds owner).Nodup := List.nodup_range.filter _
        rw [hfree] at hall
        exact (List.nodup_append.mp hall).1
      have hfirst : t.freeFd owner 0 = some fd := by rw [freeFd_zero, hfree]; rfl
      have hone : ((t.put owner fd (some f)).count f 1).Right flying :=
        hright.install (hmem fd (List.mem_cons_self ..))
      obtain ⟨t', d', hrun, hright', hinst, hfds, hsame, hn, hother⟩ := ih
        { d with fds := update d.fds i fd } hnodup hone (fun _ => halive)
        (fun j hj => hfilps j (List.mem_cons_of_mem _ hj)) (freeFds_put hfree)
        (by simpa using hlength)
      have hput (p : Proc) (e : Nat) (h : ¬ (p = owner ∧ e = fd)) :
          ((t.put owner fd (some f)).count f 1).fpFilp p e = t.fpFilp p e := by
        by_cases hp : p = owner
        · subst hp
          have he : e ≠ fd := fun he => h ⟨rfl, he⟩
          simp [put, count, he]
        · simp [put, count, hp]
      refine ⟨t', d', ?_, hright', ⟨hunique, hmem, ?_, fun p e => ?_⟩, ?_, hsame, hn, fun j hj => ?_⟩
      · simp only [copyFilps, hf, copyFilp, halive, hfirst, ↓reduceIte, Option.map_some,
          Option.bind_some]
        exact hrun
      · rw [List.map_cons, List.map_cons, hinst.given]
        congr 1
        obtain h | h := hinst.other owner fd
        · exact absurd h.2 (List.nodup_cons.mp hunique).1
        · rw [h, hf]
          simp [put, count]
      · obtain ⟨rfl, he⟩ | h := hinst.other p e
        · exact Or.inl ⟨rfl, List.mem_cons_of_mem _ he⟩
        · by_cases hpe : p = owner ∧ e = fd
          · exact Or.inl ⟨hpe.1, hpe.2 ▸ List.mem_cons_self ..⟩
          · exact Or.inr (h.trans (hput p e hpe))
      · rw [List.map_cons, List.map_cons, hfds, hother i hi]
        simp
      · rw [List.mem_cons, not_or] at hj
        rw [hother j hj.2]
        exact update_of_ne hj.1 ..

end HardenedMinix.Pfs.Rights
