import HardenedMinix.Pfs.Rights

/-!
# What happens to the references of a message

A reference that `sendmsg` takes stays in one slot until it is received or the socket is closed,
in every run in which no socket is sent a second message and neither call fails half way.
-/

open Function List Option

namespace HardenedMinix.Pfs.Rights

open Lib Vfs.Filedes Vfs.Filedes.Tables

variable {Proc Filp Path : Type}

namespace System

/-! ## What is in flight -/

def flying (s : System Proc Filp Path) : Nat × Nat → Option Filp :=
  fun m => if m.2 < (s.sock m.1).ancillary.nfiledes then (s.sock m.1).ancillary.filps m.2 else none

def inFlight (s : System Proc Filp Path) (minor : Nat) : List (Option Filp) :=
  (List.range (s.sock minor).ancillary.nfiledes).map (s.sock minor).ancillary.filps

/-- Every counter is the number of descriptors and slots of the filp, every slot in use refers to
one, a socket has at most `OPEN_MAX`. -/
structure Conserved (s : System Proc Filp Path) : Prop where
  right : s.vfs.Right s.flying
  loaded : ∀ m i, i < (s.sock m).ancillary.nfiledes → ∃ f, (s.sock m).ancillary.filps i = some f
  bounded : ∀ m, (s.sock m).ancillary.nfiledes ≤ openMax
  free : ∀ m, (s.sock m).inuse = false → (s.sock m).ancillary.nfiledes = 0

variable {s : System Proc Filp Path}

theorem inFlight_set (m minor : Nat) (t : Tables Proc Filp) (d : Ancillary Filp) :
    (s.set minor t d).inFlight m =
      if m = minor then (List.range d.nfiledes).map d.filps else s.inFlight m := by
  unfold inFlight set
  by_cases hm : m = minor
  · subst hm
    simp
  · simp [hm]

theorem flying_set (m : Nat × Nat) (minor : Nat) (t : Tables Proc Filp) (d : Ancillary Filp) :
    (s.set minor t d).flying m =
      if m.1 = minor then (if m.2 < d.nfiledes then d.filps m.2 else none) else s.flying m := by
  unfold flying set
  by_cases hm : m.1 = minor
  · simp [hm]
  · simp [hm]

variable {minor : Nat} {t : Tables Proc Filp} {d : Ancillary Filp}

theorem Conserved.set (hs : s.Conserved)
    (huse : (s.sock minor).inuse) (hright : t.Right (s.set minor t d).flying)
    (hloaded : ∀ i, i < d.nfiledes → ∃ f, d.filps i = some f) (hbounded : d.nfiledes ≤ openMax) :
    (s.set minor t d).Conserved := by
  have hsock (m : Nat) : ((s.set minor t d).sock m).ancillary =
      if m = minor then d else (s.sock m).ancillary := by
    unfold System.set
    by_cases hm : m = minor
    · subst hm
      simp
    · simp [hm]
  refine ⟨hright, fun m i hi => ?_, fun m => ?_, fun m hm => ?_⟩
  · rw [hsock] at hi ⊢
    split_ifs with h
    · rw [if_pos h] at hi
      exact hloaded i hi
    · rw [if_neg h] at hi
      exact hs.loaded m i hi
  · rw [hsock]
    split_ifs
    · exact hbounded
    · exact hs.bounded m
  rw [hsock]
  split_ifs with h
  · subst h
    simp [System.set, huse] at hm
  · refine hs.free m ?_
    simpa [System.set, h] using hm

theorem Conserved.vfs (hs : s.Conserved) (hright : t.Right s.flying) :
    ({ s with vfs := t } : System Proc Filp Path).Conserved :=
  ⟨hright, hs.loaded, hs.bounded, hs.free⟩

theorem Conserved.sockets (hs : s.Conserved) {sock : Nat → Sock Filp Path}
    (hn : ∀ m, (sock m).ancillary.nfiledes = (s.sock m).ancillary.nfiledes)
    (hfilps : ∀ m i, i < (s.sock m).ancillary.nfiledes →
      (sock m).ancillary.filps i = (s.sock m).ancillary.filps i)
    (huse : ∀ m, (sock m).inuse = false → (sock m).ancillary.nfiledes = 0) :
    ({ s with sock := sock } : System Proc Filp Path).Conserved := by
  have hflying : ({ s with sock := sock } : System Proc Filp Path).flying = s.flying := by
    funext m
    unfold flying
    simp only [hn]
    split_ifs with h
    · exact hfilps m.1 m.2 h
    · rfl
  refine ⟨?_, fun m i hi => ?_, fun m => ?_, huse⟩
  · rw [hflying]
    exact hs.right
  · simp only [hn] at hi ⊢
    rw [hfilps m i hi]
    exact hs.loaded m i hi
  · simp only [hn]
    exact hs.bounded m

theorem inFlight_empty (hn : (s.sock minor).ancillary.nfiledes = 0) : s.inFlight minor = [] := by
  unfold inFlight
  rw [hn]
  rfl

theorem flying_set_empty (t : Tables Proc Filp)
    (hn : (s.sock minor).ancillary.nfiledes = 0) (hd : d.nfiledes = 0) :
    (s.set minor t d).flying = s.flying := by
  funext m
  rw [flying_set]
  split_ifs with h hlt
  · omega
  · subst h
    unfold flying
    rw [hn, if_neg (Nat.not_lt_zero _)]
  · rfl

theorem inFlight_set_empty (t : Tables Proc Filp)
    (hn : (s.sock minor).ancillary.nfiledes = 0) (hd : d.nfiledes = 0) (m : Nat) :
    (s.set minor t d).inFlight m = s.inFlight m := by
  rw [inFlight_set]
  split_ifs with h
  · subst h
    rw [inFlight_empty hn, hd]
    rfl
  · rfl

variable (s) in
theorem inFlight_cleared (minor : Nat) (t : Tables Proc Filp) (hd : d.nfiledes = 0) :
    (s.set minor t d).inFlight minor = [] ∧
      ∀ m, m ≠ minor → (s.set minor t d).inFlight m = s.inFlight m := by
  refine ⟨?_, fun m hm => ?_⟩
  · rw [inFlight_set, if_pos rfl, hd]
    rfl
  · rw [inFlight_set, if_neg hm]

/-- What is in the slots of all sockets but one. -/
def flyingBut (s : System Proc Filp Path) (minor : Nat) : Nat × Nat → Option Filp :=
  fun m => if m.1 = minor then none else s.flying m

theorem flying_cleared (t : Tables Proc Filp) (hd : d.nfiledes = 0) :
    (s.set minor t d).flying = s.flyingBut minor := by
  funext m
  rw [flying_set]
  unfold flyingBut
  split_ifs with h hlt
  · omega
  · rfl
  · rfl

theorem verifyFd_some {owner : Proc} {fd : Int} {f : Filp}
    (h : t.verifyFd owner fd = some (some f)) : t.getFilp2 owner fd = some f ∧ 0 < t.filpCount f := by
  unfold verifyFd lockFilp at h
  split at h
  · cases hget : t.getFilp2 owner fd with
    | none => simp [hget] at h
    | some g =>
      rw [hget] at h
      simp only at h
      split_ifs at h with hpos
      · simp only [map_some, some.injEq] at h
        exact ⟨by rw [h], h ▸ hpos⟩
      · simp at h
  · simp at h

end System

variable [DecidableEq Proc] [DecidableEq Filp] [DecidableEq Path]

/-! ## Requests -/

/-- The requests: those about messages and sockets, and what processes do with descriptors. -/
inductive Req (Proc Filp Path : Type) where
  | socket (rc : Option Errno)
  | link (minor : Nat) (type : Int) (peer : Option Nat) (addr target : Option Path)
  | sendmsg (owner : Proc) (minor : Nat) (msg : Option (List Cmsg)) (cred : Option Errno)
  | recvmsg (owner : Proc) (minor : Nat) (controllen : Option Nat) (copied : Bool)
  | closeSocket (minor : Nat)
  | openFd (p : Proc) (f : Filp)
  | dupFd (p : Proc) (fd : Int) (start : Nat)
  | closeFd (p : Proc) (fd : Int)
  | exit (p : Proc)

namespace System

/-- A request of VFS's own; its result is not looked at. -/
def vfsCall (s : System Proc Filp Path) (r : Option (Tables Proc Filp × Except Errno Nat)) :
    Option (System Proc Filp Path × Except Errno (List Int)) :=
  r.map fun (t, _) => ({ s with vfs := t }, .ok [])

/-- One request; `uds_ioctl` refuses those about unused sockets. Whatever else can be done with a
socket changes its links. -/
def run (s : System Proc Filp Path) :
    Req Proc Filp Path → Option (System Proc Filp Path × Except Errno (List Int))
  | .socket rc => some (s.udsOpen rc)
  | .link minor type peer addr target =>
    if (s.sock minor).inuse then
      let linked := { s.sock minor with type := type, peer := peer, addr := addr, target := target }
      some ({ s with sock := update s.sock minor linked }, .ok [])
    else some (s, .error .einval)
  | .sendmsg owner minor msg cred =>
    if (s.sock minor).inuse then s.doSendmsg owner minor msg cred else some (s, .error .einval)
  | .recvmsg owner minor controllen copied =>
    if (s.sock minor).inuse then s.doRecvmsg owner minor controllen copied
    else some (s, .error .einval)
  | .closeSocket minor => s.udsClose minor
  | .openFd p f => s.vfsCall (s.vfs.openFd p f)
  | .dupFd p fd start => s.vfsCall (s.vfs.dupFd p fd start)
  | .closeFd p fd => s.vfsCall (s.vfs.closeFd p fd)
  | .exit p => (s.vfs.freeProc p).map fun t => ({ s with vfs := t }, .ok [])

def step (s : System Proc Filp Path) (a : Req Proc Filp Path) : System Proc Filp Path :=
  match s.run a with
  | some (t, _) => t
  | none => s

/-- `sendmsg` adds the filps to what is in flight, `recvmsg` turns that into descriptors, a failed
call changes neither descriptors nor what is in flight elsewhere, and nothing else does, but closing
the socket. -/
def Promised (s : System Proc Filp Path) (a : Req Proc Filp Path) (t : System Proc Filp Path)
    (r : Except Errno (List Int)) : Prop :=
  match a, r with
  | .sendmsg owner minor msg _, .ok _ =>
    ∃ peer, s.receiver minor = .ok peer ∧
      t.inFlight peer = s.inFlight peer ++ (rights (msg.getD [])).map (s.vfs.getFilp2 owner) ∧
      (∀ m, m ≠ peer → t.inFlight m = s.inFlight m) ∧ t.vfs.fpFilp = s.vfs.fpFilp
  | .sendmsg .., .error _ => t.vfs = s.vfs ∧ ∀ m, t.inFlight m = s.inFlight m
  | .recvmsg owner minor .., .ok fds =>
    (∃ new : List Nat, fds = new.map (fun (fd : Nat) => (fd : Int)) ∧
      Installed s.vfs t.vfs owner new (s.inFlight minor)) ∧
      t.inFlight minor = [] ∧ ∀ m, m ≠ minor → t.inFlight m = s.inFlight m
  | .recvmsg _ minor .., .error _ =>
    t.vfs.fpFilp = s.vfs.fpFilp ∧ ∀ m, m ≠ minor → t.inFlight m = s.inFlight m
  | .closeSocket minor, .ok _ =>
    t.vfs.fpFilp = s.vfs.fpFilp ∧ t.inFlight minor = [] ∧
      ∀ m, m ≠ minor → t.inFlight m = s.inFlight m
  | _, _ => ∀ m, t.inFlight m = s.inFlight m

/-- A request gets its answer and does what it is to do, and the references are right after it. -/
def Conserves (s : System Proc Filp Path) (a : Req Proc Filp Path) : Prop :=
  ∃ t r, s.run a = some (t, r) ∧ Promised s a t r ∧ t.Conserved

/-! ## When it is kept -/

/-- A message that reaches its receiver: nothing is in flight there, and the message can be
taken as a whole. -/
def Sendable (s : System Proc Filp Path) (owner : Proc) (peer : Nat) (msg : List Cmsg)
    (cred : Option Errno) : Prop :=
  (s.sock peer).inuse ∧ (s.sock peer).ancillary.nfiledes = 0 ∧ (rights msg).length ≤ openMax ∧
    (cred = none ∨ rights msg = []) ∧
    ∀ fd ∈ rights msg, s.vfs.isokendpt owner ∧ (s.vfs.getFilp2 owner fd).isSome

/-- There is room for a header, and for what there is to take the process has descriptors and the
answer is copied. -/
def Receivable (s : System Proc Filp Path) (owner : Proc) (minor : Nat) (controllen : Nat)
    (copied : Bool) : Prop :=
  cmsgLen 0 ≤ controllen ∧ ((s.sock minor).ancillary.nfiledes = 0 ∨
    s.vfs.isokendpt owner ∧
    (s.sock minor).ancillary.nfiledes ≤ (s.vfs.freeFds owner).length ∧ copied)

/-- Messages are sent and received as a whole, or not at all. -/
def Whole (s : System Proc Filp Path) : Req Proc Filp Path → Prop
  | .sendmsg owner minor msg cred =>
    (s.sock minor).inuse → ∀ m ∈ msg, ∀ peer ∈ (s.receiver minor).toOption, s.Sendable owner peer m cred
  | .recvmsg owner minor controllen copied =>
    (s.sock minor).inuse → ∀ len ∈ controllen, s.needed minor ≤ min len msgControlMax →
      s.Receivable owner minor len copied
  | _ => True

variable {s : System Proc Filp Path}

/-! ## One request -/

theorem Conserved.refused (hs : s.Conserved) {a : Req Proc Filp Path} {e : Errno}
    (hrun : s.run a = some (s, .error e)) : s.Conserves a := by
  refine ⟨s, _, hrun, ?_, hs⟩
  cases a <;> simp [Promised]

omit [DecidableEq Path] in
variable {owner : Proc} {minor : Nat}

theorem Conserved.sendFds (hs : s.Conserved) {peer : Nat} {d : Ancillary Filp}
    (hin : (s.sock peer).inuse) (hn : (s.sock peer).ancillary.nfiledes = 0)
    (hbound : d.nfiledes ≤ openMax)
    (hfds : ∀ fd ∈ d.fdList, s.vfs.isokendpt owner ∧ (s.vfs.getFilp2 owner fd).isSome) :
    ∃ t d', sendFds s.vfs owner d = some (t, d', none) ∧ (s.set peer t d').Conserved ∧
      (List.range d'.nfiledes).map d'.filps = d.fdList.map (s.vfs.getFilp2 owner) ∧
      t.fpFilp = s.vfs.fpFilp := by
  have hvalid : ∀ i ∈ List.range d.nfiledes, ∃ f,
      s.vfs.verifyFd owner (d.fds i) = some (some f) := by
    intro i hi
    obtain ⟨halive, hsome⟩ := hfds _ (List.mem_map_of_mem hi)
    obtain ⟨f, hf⟩ := isSome_iff_exists.mp hsome
    have hlock : s.vfs.lockFilp f = some () :=
      lockFilp_of_held hs.right (x := .inl (owner, (d.fds i).toNat)) (getFilp2_some hf)
    exact ⟨f, by simp [verifyFd, halive, hf, hlock]⟩
  obtain ⟨d', hverify, -, hn', hfilps, -⟩ := verifyFds_ok _ d nodup_range hvalid
  have hslot : ∀ i ∈ List.range d.nfiledes, ∃ f, d'.filps i = some f ∧
      s.vfs.getFilp2 owner (d.fds i) = some f ∧ 0 < s.vfs.filpCount f := by
    intro i hi
    obtain ⟨f, hf, hfverify⟩ := hfilps i hi
    exact ⟨f, hf, verifyFd_some hfverify⟩
  have hempty : ∀ i, s.flying (peer, i) = none := by
    intro i
    unfold flying
    simp [hn]
  have hset : ∀ i ∈ List.range d.nfiledes, (s.set peer s.vfs d').flying (peer, i) = d'.filps i := by
    intro i hi
    rw [flying_set, if_pos rfl, hn', if_pos (mem_range.mp hi)]
  have hother : ∀ m : Nat × Nat, (∀ i ∈ List.range d.nfiledes, m ≠ (peer, i)) →
      (s.set peer s.vfs d').flying m = s.flying m := by
    rintro ⟨p, i⟩ hm
    rw [flying_set]
    split_ifs with hp hlt
    · simp only at hp hlt
      subst hp
      exact absurd rfl (hm i (mem_range.mpr (hn' ▸ hlt)))
    · simp only at hp
      rw [hp, hempty]
    · rfl
  obtain ⟨t, hrun, hright, hsame⟩ := setFilps_ok _ nodup_range hs.right
    (fun i _ => hempty i)
    (fun i hi => by
      obtain ⟨f, hf, -, hpos⟩ := hslot i hi
      exact ⟨f, hf, hpos⟩) hset hother
  refine ⟨t, d', ?_, hs.set hin hright (fun i hi => ?_) (by omega), ?_, hsame⟩
  · simp [Rights.sendFds, hverify, hn', hrun]
  · obtain ⟨f, hf, -⟩ := hslot i (mem_range.mpr (hn' ▸ hi))
    exact ⟨f, hf⟩
  unfold Ancillary.fdList
  rw [List.map_map, hn']
  refine map_congr_left fun i hi => ?_
  obtain ⟨f, hf, hget, -⟩ := hslot i hi
  rw [hf, comp_apply, hget]

theorem Conserved.sendmsg (hs : s.Conserved) {msg : Option (List Cmsg)}
    {cred : Option Errno} (h : s.Whole (.sendmsg owner minor msg cred)) :
    s.Conserves (.sendmsg owner minor msg cred) := by
  cases huse : (s.sock minor).inuse with
  | false => exact hs.refused (e := .einval) (by simp [run, huse])
  | true =>
    cases msg with
    | none => exact hs.refused (e := .eio) (by simp [run, huse, doSendmsg])
    | some m =>
      cases hpeer : s.receiver minor with
      | error e => exact hs.refused (e := e) (by simp [run, huse, doSendmsg, hpeer])
      | ok peer =>
        obtain ⟨hin, hn, hlen, hcred, hfds⟩ := h huse m rfl peer (by simp [hpeer, Except.toOption])
        obtain ⟨d, hread, hlist, -, hcount⟩ :=
          readCmsgs_ok m ⟨(s.sock peer).ancillary.filps, (s.sock peer).ancillary.fds, 0⟩
            (by simpa using hlen)
        have hrights : d.fdList = rights m := hlist
        simp only [Nat.zero_add] at hcount
        cases cred with
        | some e =>
          -- the credentials cannot be read, which does no harm to an empty message
          have hnil : rights m = [] := hcred.resolve_left (by simp)
          have hd : d.nfiledes = 0 := by rw [hcount, hnil, length_nil]
          refine ⟨s.set peer s.vfs d, .error e, ?_, ⟨rfl, inFlight_set_empty s.vfs hn hd⟩, ?_⟩
          · simp [run, huse, doSendmsg, hpeer, msgControlRead, hread]
          · refine hs.set hin ?_ (fun i hi => absurd hi (by omega)) (by omega)
            rw [flying_set_empty s.vfs hn hd]
            exact hs.right
        | none =>
          obtain ⟨t, d', hsend, hconserved, hsent, hsame⟩ := hs.sendFds hin hn
            (by omega) (hrights ▸ hfds)
          refine ⟨s.set peer t d', .ok [], ?_, ⟨peer, hpeer, ?_, fun m hm => ?_, hsame⟩, hconserved⟩
          · simp [run, huse, doSendmsg, hpeer, msgControlRead, hread, hsend]
          · rw [inFlight_set, if_pos rfl, inFlight_empty hn, nil_append, getD_some, hsent, hrights]
          · rw [inFlight_set, if_neg hm]

omit [DecidableEq Path] in
theorem Conserved.clearFds (hs : s.Conserved) {t : Tables Proc Filp} {d : Ancillary Filp}
    (hin : (s.sock minor).inuse) (hright : t.Right s.flying)
    (hfilps : d.filps = (s.sock minor).ancillary.filps)
    (hn : d.nfiledes = (s.sock minor).ancillary.nfiledes) :
    ∃ t' d', clearFds t d = some (t', d') ∧ (s.set minor t' d').Conserved ∧ t'.fpFilp = t.fpFilp ∧
      d'.nfiledes = 0 := by
  have hslot : ∀ i ∈ List.range d.nfiledes, ∃ f, d.filps i = some f ∧ s.flying (minor, i) = some f := by
    intro i hi
    rw [hn, mem_range] at hi
    obtain ⟨f, hf⟩ := hs.loaded minor i hi
    refine ⟨f, by rw [hfilps, hf], ?_⟩
    unfold flying
    rw [if_pos hi, hf]
  have hempty : ∀ i ∈ List.range d.nfiledes, s.flyingBut minor (minor, i) = none :=
    fun i _ => if_pos rfl
  have hother : ∀ m : Nat × Nat, (∀ i ∈ List.range d.nfiledes, m ≠ (minor, i)) →
      s.flyingBut minor m = s.flying m := by
    rintro ⟨p, i⟩ hm
    unfold flyingBut
    split_ifs with hp
    · simp only at hp
      subst hp
      unfold flying
      rw [if_neg]
      exact fun hlt => hm i (mem_range.mpr (hn ▸ hlt)) rfl
    · rfl
  obtain ⟨t', d', hrun, hright', hsame, hzero⟩ :=
    clearLoop_ok _ d nodup_range hright hslot hempty hother
  refine ⟨t', d', hrun, hs.set hin ?_ (fun i hi => absurd hi (by omega)) (by omega), hsame, hzero⟩
  rw [flying_cleared t' hzero]
  exact hright'

omit [DecidableEq Path] in
theorem Conserved.recvFds (hs : s.Conserved) {minor len : Nat}
    (hin : (s.sock minor).inuse) (hlen : cmsgLen 0 ≤ len)
    (halive : (s.sock minor).ancillary.nfiledes ≠ 0 → s.vfs.isokendpt owner)
    (hfree : (s.sock minor).ancillary.nfiledes ≤ (s.vfs.freeFds owner).length) :
    ∃ t d new, recvFds s.vfs owner (s.sock minor).ancillary len =
        some (t, d, .ok (new.map fun (fd : Nat) => (fd : Int))) ∧
      Installed s.vfs t owner new (s.inFlight minor) ∧ (s.set minor t d).Conserved ∧
      d.nfiledes = 0 := by
  have hloaded : ∀ i ∈ List.range (s.sock minor).ancillary.nfiledes,
      ∃ f, (s.sock minor).ancillary.filps i = some f :=
    fun i hi => hs.loaded minor i (mem_range.mp hi)
  obtain ⟨t, d, hcopy, hright, hinst, hfds, hfilps, hn, -⟩ := copyFilps_ok _
    (s.sock minor).ancillary nodup_range hs.right
    (fun hne => halive (by simpa using hne)) hloaded
    (take_append_drop (s.sock minor).ancillary.nfiledes (s.vfs.freeFds owner)).symm
    (by simpa using hfree)
  obtain ⟨t', d', hclear, hconserved, hsame, hzero⟩ := hs.clearFds hin hright hfilps hn
  refine ⟨t', d', _, ?_, ⟨hinst.nodup, hinst.unused, ?_, fun p fd => ?_⟩, hconserved, hzero⟩
  · unfold Rights.recvFds
    rw [if_neg (Nat.not_lt.mpr hlen), hcopy]
    simp only [bind_some, hclear, map_some, hn]
    rw [hfds]
  · rw [hsame]
    exact hinst.given
  · rw [hsame]
    exact hinst.other p fd

theorem Conserved.recvmsg (hs : s.Conserved) {controllen : Option Nat}
    {copied : Bool} (h : s.Whole (.recvmsg owner minor controllen copied)) :
    s.Conserves (.recvmsg owner minor controllen copied) := by
  cases huse : (s.sock minor).inuse with
  | false => exact hs.refused (e := .einval) (by simp [run, huse])
  | true =>
    cases controllen with
    | none => exact hs.refused (e := .eio) (by simp [run, huse, doRecvmsg])
    | some len =>
      by_cases hroom : min len msgControlMax < s.needed minor
      · exact hs.refused (e := .eoverflow) (by simp only [run, huse, doRecvmsg, hroom, ↓reduceIte])
      obtain ⟨hlen, hwhole⟩ := h huse len rfl (Nat.not_lt.mp hroom)
      have halive : (s.sock minor).ancillary.nfiledes ≠ 0 → s.vfs.isokendpt owner :=
        fun hne => (hwhole.resolve_left hne).1
      have hfree : (s.sock minor).ancillary.nfiledes ≤ (s.vfs.freeFds owner).length := by
        obtain hzero | hwhole := hwhole
        · omega
        · exact hwhole.2.1
      obtain ⟨t, d, new, hrecv, hinst, hconserved, hzero⟩ := hs.recvFds huse hlen halive hfree
      obtain ⟨hself, hother⟩ := inFlight_cleared s minor t hzero
      cases copied with
      | true =>
        refine ⟨s.set minor t d, .ok _, ?_, ⟨⟨new, rfl, hinst⟩, hself, hother⟩, hconserved⟩
        simp only [run, huse, doRecvmsg, hroom, ↓reduceIte, hrecv, map_some]
      | false =>
        -- nothing was in flight, so that nothing has been installed
        have hn : (s.sock minor).ancillary.nfiledes = 0 := hwhole.resolve_right (by simp)
        refine ⟨s.set minor t d, .error .eio, ?_, ⟨?_, hother⟩, hconserved⟩
        · simp only [run, huse, doRecvmsg, hroom, ↓reduceIte, hrecv, map_some, Bool.false_eq_true]
        funext p fd
        obtain ⟨-, hmem⟩ | hsame := hinst.other p fd
        · have hgiven := hinst.given
          rw [inFlight_empty hn, map_eq_nil_iff] at hgiven
          simp [hgiven] at hmem
        · exact hsame

omit [DecidableEq Proc] [DecidableEq Filp] [DecidableEq Path] in
theorem disconnected_same (s : System Proc Filp Path) (minor m : Nat) :
    (s.disconnected minor m).ancillary = (s.sock m).ancillary ∧
      (s.disconnected minor m).inuse = (s.sock m).inuse := by
  unfold disconnected
  cases (s.sock minor).peer with
  | none => exact ⟨rfl, rfl⟩
  | some p =>
    by_cases hm : m = p
    · subst hm
      simp
    · simp [hm]

theorem Conserved.closeSocket (hs : s.Conserved) (minor : Nat) : s.Conserves (.closeSocket minor) := by
  cases huse : (s.sock minor).inuse with
  | false => exact hs.refused (e := .einval) (by simp [run, udsClose, huse])
  | true =>
    obtain ⟨t, d, hclear, hconserved, hsame, hzero⟩ := hs.clearFds huse hs.right rfl rfl
    obtain ⟨-, hother⟩ := inFlight_cleared s minor t hzero
    have hclosed (m : Nat) (hm : m ≠ minor) :
        (update (s.disconnected minor) minor Sock.zero m).ancillary =
          ((s.set minor t d).sock m).ancillary ∧
        (update (s.disconnected minor) minor Sock.zero m).inuse =
          ((s.set minor t d).sock m).inuse := by
      rw [update_of_ne hm]
      simpa [System.set, hm] using disconnected_same s minor m
    have hn (m : Nat) : (update (s.disconnected minor) minor Sock.zero m).ancillary.nfiledes =
        ((s.set minor t d).sock m).ancillary.nfiledes := by
      by_cases hm : m = minor
      · subst hm
        simp [System.set, hzero, Sock.zero]
      · rw [(hclosed m hm).1]
    refine ⟨⟨t, update (s.disconnected minor) minor Sock.zero⟩, .ok [], ?_,
      ⟨hsame, ?_, fun m hm => ?_⟩, hconserved.sockets hn (fun m i hi => ?_) (fun m hm => ?_)⟩
    · simp [run, udsClose, huse, hclear]
    · simp [inFlight, Sock.zero]
    · rw [← hother m hm]
      unfold inFlight
      simp only [(hclosed m hm).1]
    · by_cases hm : m = minor
      · subst hm
        simp [System.set, hzero] at hi
      · rw [(hclosed m hm).1]
    by_cases hmm : m = minor
    · subst hmm
      simp [Sock.zero]
    · rw [hn]
      exact hconserved.free m ((hclosed m hmm).2 ▸ hm)

omit [DecidableEq Proc] [DecidableEq Path] in
theorem Conserved.replaced (hs : s.Conserved) {k : Sock Filp Path}
    (hn : (s.sock minor).ancillary.nfiledes = 0) (hk : k.ancillary.nfiledes = 0) :
    ({ s with sock := update s.sock minor k } : System Proc Filp Path).Conserved ∧
      ∀ m, ({ s with sock := update s.sock minor k } : System Proc Filp Path).inFlight m =
        s.inFlight m := by
  have hsame (m : Nat) : (update s.sock minor k m).ancillary.nfiledes =
      (s.sock m).ancillary.nfiledes := by
    by_cases hm : m = minor
    · subst hm
      rw [update_self, hk, hn]
    · rw [update_of_ne hm]
  refine ⟨hs.sockets hsame (fun m i hi => ?_) (fun m hm => ?_), fun m => ?_⟩
  · by_cases hm : m = minor
    · subst hm
      omega
    · rw [update_of_ne hm]
  · by_cases hmm : m = minor
    · subst hmm
      rw [update_self, hk]
    · rw [update_of_ne hmm] at hm ⊢
      exact hs.free m hm
  unfold inFlight
  simp only
  by_cases hm : m = minor
  · subst hm
    rw [update_self, hk, hn]
    rfl
  · rw [update_of_ne hm]

theorem Conserved.socket (hs : s.Conserved) (rc : Option Errno) : s.Conserves (.socket rc) := by
  cases hfind : (List.range nrFds).find? fun i => 1 ≤ i ∧ ¬ (s.sock i).inuse with
  | none => exact hs.refused (e := .enfile) (by simp only [run, udsOpen, hfind])
  | some minor =>
    have hfree := List.find?_some hfind
    simp only [decide_eq_true_eq, Bool.not_eq_true] at hfree
    have hn := hs.free minor hfree.2
    cases rc with
    | none =>
      obtain ⟨hconserved, hsame⟩ := hs.replaced (k := Sock.opened) hn rfl
      exact ⟨_, .ok [(minor : Int)], by simp only [run, udsOpen, hfind], hsame, hconserved⟩
    | some e =>
      obtain ⟨hconserved, hsame⟩ := hs.replaced (k := Sock.zero) hn rfl
      exact ⟨_, .error e, by simp only [run, udsOpen, hfind], hsame, hconserved⟩

theorem Conserved.link (hs : s.Conserved) (minor : Nat) (type : Int) (peer : Option Nat)
    (addr target : Option Path) : s.Conserves (.link minor type peer addr target) := by
  cases huse : (s.sock minor).inuse with
  | false => exact hs.refused (e := .einval) (by simp [run, huse])
  | true =>
    have hsame (m : Nat) : (update s.sock minor
        ⟨(s.sock minor).inuse, type, peer, addr, target, (s.sock minor).ancillary⟩ m).ancillary =
        (s.sock m).ancillary := by
      by_cases hm : m = minor
      · subst hm
        simp
      · rw [update_of_ne hm]
    refine ⟨⟨s.vfs, update s.sock minor
      ⟨(s.sock minor).inuse, type, peer, addr, target, (s.sock minor).ancillary⟩⟩, .ok [],
      by simp only [run, huse, ↓reduceIte], fun m => ?_,
      hs.sockets (fun m => ?_) (fun m i _ => ?_) (fun m hm => ?_)⟩
    · unfold inFlight
      simp only [hsame]
    · rw [hsame]
    · rw [hsame]
    rw [hsame]
    refine hs.free m ?_
    by_cases hmm : m = minor
    · subst hmm
      simp [huse] at hm
    · rwa [update_of_ne hmm] at hm

theorem Conserved.vfsCall (hs : s.Conserved) {a : Req Proc Filp Path} {t : Tables Proc Filp}
    (hrun : s.run a = some (⟨t, s.sock⟩, .ok [])) (hright : t.Right s.flying)
    (hpromised : Promised s a ⟨t, s.sock⟩ (.ok [])) : s.Conserves a :=
  ⟨⟨t, s.sock⟩, .ok [], hrun, hpromised, hs.vfs hright⟩

/-! ## Runs -/

/-- Every request of a run in which messages are sent and received as a whole does what it is
to do. -/
theorem rights_conserved (hs : s.Conserved) {as : List (Req Proc Filp Path)}
    (h : Along step Whole s as) : Along step Conserves s as ∧ (as.foldl step s).Conserved := by
  refine Along.run (fun s a hs hwhole => ?_) hs h
  have hkept : s.Conserves a := by
    cases a with
    | sendmsg owner minor msg cred => exact hs.sendmsg hwhole
    | recvmsg owner minor controllen copied => exact hs.recvmsg hwhole
    | closeSocket minor => exact hs.closeSocket minor
    | socket rc => exact hs.socket rc
    | link minor type peer addr target => exact hs.link minor type peer addr target
    | openFd p f =>
      obtain ⟨t, r, hrun, hright⟩ := openFd_right hs.right p f
      exact hs.vfsCall (by rw [run, System.vfsCall, hrun]; rfl) hright fun _ => rfl
    | dupFd p fd start =>
      obtain ⟨t, r, hrun, hright⟩ := dupFd_right hs.right p fd start
      exact hs.vfsCall (by rw [run, System.vfsCall, hrun]; rfl) hright fun _ => rfl
    | closeFd p fd =>
      obtain ⟨t, r, hrun, hright⟩ := closeFd_right hs.right p fd
      exact hs.vfsCall (by rw [run, System.vfsCall, hrun]; rfl) hright fun _ => rfl
    | exit p =>
      obtain ⟨t, hrun, hright⟩ := freeProc_right hs.right p
      exact hs.vfsCall (by rw [run, hrun]; rfl) hright fun _ => rfl
  obtain ⟨t, r, hrun, hpromised, hconserved⟩ := hkept
  refine ⟨⟨t, r, hrun, hpromised, hconserved⟩, ?_⟩
  unfold step
  rw [hrun]
  exact hconserved

instance (s : System Proc Filp Path) (owner : Proc) (peer : Nat) (msg : List Cmsg) (cred : Option Errno) :
    Decidable (s.Sendable owner peer msg cred) :=
  inferInstanceAs (Decidable (_ ∧ _))

instance (s : System Proc Filp Path) (owner : Proc) (minor controllen : Nat) (copied : Bool) :
    Decidable (s.Receivable owner minor controllen copied) :=
  inferInstanceAs (Decidable (_ ∧ _))

instance (s : System Proc Filp Path) (a : Req Proc Filp Path) : Decidable (s.Whole a) :=
  match a with
  | .sendmsg owner minor msg cred =>
    inferInstanceAs (Decidable ((s.sock minor).inuse → ∀ m ∈ msg,
      ∀ peer ∈ (s.receiver minor).toOption, s.Sendable owner peer m cred))
  | .recvmsg owner minor controllen copied =>
    inferInstanceAs (Decidable ((s.sock minor).inuse → ∀ len ∈ controllen,
      s.needed minor ≤ min len msgControlMax → s.Receivable owner minor len copied))
  | .socket .. | .link .. | .closeSocket .. | .openFd .. | .dupFd .. | .closeFd .. | .exit .. =>
    inferInstanceAs (Decidable True)

end System

/-! ## Two processes and a pair of sockets -/

def boot : System Bool Nat Unit :=
  ⟨⟨fun _ => true, fun _ _ => none, fun _ _ => false, fun _ => 0⟩, fun _ => Sock.zero⟩

theorem boot_conserved : boot.Conserved := by
  have hempty (f : Nat) : {x | boot.vfs.held boot.flying x = some f} = ∅ := by
    ext x
    cases x <;> simp [Tables.held, boot, System.flying, Sock.zero]
  refine ⟨⟨fun f => ?_, fun f => ?_⟩, fun m i hi => ?_, fun m => ?_, fun m _ => rfl⟩
  · rw [hempty]
    exact Set.finite_empty
  · rw [hempty, Set.ncard_empty]
    rfl
  · exact absurd hi (Nat.not_lt_zero i)
  · exact Nat.zero_le _

/-- The first process has two files open, and there are two connected sockets. -/
def pairOfSockets : List (Req Bool Nat Unit) :=
  [.openFd false 0, .openFd false 1, .socket none, .socket none,
    .link 1 1 (some 2) none none, .link 2 1 (some 1) none none]

/-- The first process sends one of its files to the other. -/
def sends (fd : Int) : Req Bool Nat Unit := .sendmsg false 1 (some [⟨true, [fd]⟩]) none

/-- One file is sent, received and closed. -/
theorem sent_file_conserved : Along System.step System.Whole boot (pairOfSockets ++
      [sends 1, .recvmsg true 2 (some 1020) true, .closeFd true 0, .closeSocket 2]) ∧
    Along System.step System.Conserves boot (pairOfSockets ++
      [sends 1, .recvmsg true 2 (some 1020) true, .closeFd true 0, .closeSocket 2]) :=
  ⟨by decide +kernel, (System.rights_conserved boot_conserved (by decide +kernel)).1⟩

def oneOnItsWay : System Bool Nat Unit := (pairOfSockets ++ [sends 0]).foldl System.step boot

/-- With the second message the first one is forgotten, and the counter of its filp stays too high.
-/
theorem second_message_forgets_first :
    ¬ ∀ as : List (Req Bool Nat Unit), Along System.step System.Conserves boot as := by
  intro h
  have hrun := h ((pairOfSockets ++ [sends 0]) ++ [sends 1])
  obtain ⟨t, r, hcall, hpromised, -⟩ := (Along.append_right hrun).1
  have hafter : (oneOnItsWay.run (sends 1)).map (fun x => (x.1.inFlight 2, x.2.isOk)) =
      some ([some 1], true) := by decide +kernel
  have hbefore : oneOnItsWay.inFlight 2 = [some 0] := by decide +kernel
  have hpeer : oneOnItsWay.receiver 1 = .ok 2 := rfl
  have hcall' : oneOnItsWay.run (sends 1) = some (t, r) := hcall
  rw [hcall', map_some, some.injEq, Prod.mk.injEq] at hafter
  cases r with
  | error e => exact absurd hafter.2 (by simp [Except.isOk, Except.toBool])
  | ok fds =>
    obtain ⟨peer, hreceiver, hsent, -⟩ := hpromised
    have hpeer' : peer = 2 := by
      have heq : (Except.ok peer : Except Errno Nat) = .ok 2 := hreceiver.symm.trans hpeer
      exact Except.ok.inj heq
    have hlast : t.inFlight 2 = oneOnItsWay.inFlight 2 ++ _ := hpeer' ▸ hsent
    rw [hafter.1, hbefore] at hlast
    simp at hlast

end HardenedMinix.Pfs.Rights
