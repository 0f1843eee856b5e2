import HardenedMinix.Lib.Runs

/-!
# Shared-memory segments

`shm.c` of the IPC server. The number of attachments of a segment is not counted by the server:
it asks VM, whose count is an `u8_t` and 1 for the server itself, after each call it has handled.
-/

open Function List

namespace HardenedMinix.Shm

open Lib

/-! ## Data -/

/-- `MAX_SHM_NR` and `SHMMNI`. -/
def maxShmNr : Nat := 1024
def shmMni : Nat := 4096

def pageSize : Nat := 4096

/-- `struct shm_struct`; the permissions are with the requests, but for `SHM_DEST`. -/
structure ShmStruct where
  /-- 0 is `IPC_PRIVATE` -/
  key : Int
  id : Nat
  dest : Bool
  segsz : Nat
  nattch : Nat
  page : Nat
  vmId : Nat
  deriving DecidableEq

inductive Err where
  | einval
  | eacces
  | enomem
  | eexist
  | enoent
  | enospc
  | eperm
  | efault
  deriving DecidableEq

structure State where
  shmList : Nat → ShmStruct
  shmListNr : Nat
  identifier : Nat
  /-- the pages that the server has mapped -/
  mapped : Nat → Bool
  /-- how often a page of the server is attached by processes -/
  attached : Nat → Nat
  /-- what `minix_munmap` is called for, in its order; a record for the proofs -/
  unmaps : List (Nat × Nat)

def roundUp (size : Nat) : Nat :=
  if size % pageSize ≠ 0 then size + (pageSize - size % pageSize) else size

/-- The arguments of `shmget`, the answer of `check_perm`, the page of `minix_mmap`, and what
`vm_getphys` says of it. -/
structure GetArgs where
  key : Int
  size : Int
  creat : Bool
  excl : Bool
  permitted : Bool
  page : Option Nat
  vmId : Nat

/-- `IPC_STAT` and `IPC_RMID`; the other commands change neither the list nor a page. -/
inductive Cmd where
  | stat
  | rmid

/-- What the server does, a call of `update_refcount_and_destroy` apart, and what processes do. -/
inductive Step where
  | shmget (m : GetArgs)
  | shmat (id : Int) (aligned permitted : Bool) (ret : Option Nat)
  | detach (vmId page : Nat)
  | rmid (id : Int) (permitted : Bool)
  | update
  /-- processes fork and exit, and semaphore sets take identifiers -/
  | others (attached : Nat → Nat) (identifier : Nat)

namespace State

variable (s : State)

/-- The index of the first entry in use with `pred`. -/
def find (pred : ShmStruct → Bool) : Option Nat :=
  (range s.shmListNr).find? fun i => pred (s.shmList i)

def shmFindKey (key : Int) : Option Nat := if key = 0 then none else s.find fun x => x.key = key

def shmFindId (id : Int) : Option Nat := s.find fun x => (x.id : Int) = id

/-- The count of VM, 1 and the attachments, in an `u8_t`; 255 is the error. -/
def vmGetrefcount (page : Nat) : Nat := if s.mapped page then (1 + s.attached page) % 256 else 255

/-- A turn of `update_refcount_and_destroy`, with `j`. -/
def updateTurn (r : State × Nat) (i : Nat) : State × Nat :=
  let s := r.1
  let j := r.2
  let rc := s.vmGetrefcount (s.shmList i).page
  if rc = 255 then (s, j)
  else
    -- `rc - 1` is stored in an `unsigned int`
    let x := { s.shmList i with nattch := (rc + 2 ^ 32 - 1) % 2 ^ 32 }
    let l := update s.shmList i x
    if x.nattch ≠ 0 ∨ x.dest = false then
      ({ s with shmList := if i ≠ j then update l j x else l }, j + 1)
    else
      ({ s with
        shmList := l
        mapped := update s.mapped x.page false
        unmaps := s.unmaps ++ [(x.page, roundUp x.segsz)] }, j)

def updateRefcountAndDestroy : State :=
  let r := (range s.shmListNr).foldl updateTurn (s, 0)
  { r.1 with shmListNr := r.2 }

/-! ## Requests -/

def add (x : ShmStruct) : State :=
  { s with
    shmList := update s.shmList s.shmListNr x
    shmListNr := s.shmListNr + 1
    identifier := s.identifier + 1
    mapped := update s.mapped x.page true }

def doShmget (m : GetArgs) : Except Err Nat × State :=
  match s.shmFindKey m.key with
  | some i =>
    if m.permitted = false then (.error .eacces, s)
    else if m.creat ∧ m.excl then (.error .eexist, s)
    -- the comparison is unsigned
    else if m.size ≠ 0 ∧ (s.shmList i).segsz < (m.size % 2 ^ 32).toNat then (.error .einval, s)
    else (.ok (s.shmList i).id, s)
  | none =>
    if m.creat = false then (.error .enoent, s)
    -- the sum can be too large for a `long`
    else if m.size ≤ 0 ∨ 2 ^ 31 ≤ roundUp m.size.toNat then (.error .einval, s)
    else if s.shmListNr = maxShmNr then (.error .enomem, s)
    else if s.identifier = shmMni then (.error .enospc, s)
    else
      match m.page with
      | none => (.error .enomem, s)
      | some page =>
        (.ok s.identifier, s.add ⟨m.key, s.identifier, false, m.size.toNat, 0, page, m.vmId⟩)

/-- `aligned` is that the address is, or is rounded; `ret` is what `vm_remap` gives. -/
def doShmat (id : Int) (aligned permitted : Bool) (ret : Option Nat) : Except Err Nat × State :=
  if aligned = false then (.error .einval, s)
  else
    match s.shmFindId id with
    | none => (.error .einval, s)
    | some i =>
      if permitted = false then (.error .eacces, s)
      else
        match ret with
        | none => (.error .enomem, s)
        | some addr =>
          let page := (s.shmList i).page
          (.ok addr, { s with attached := update s.attached page (s.attached page + 1) })

/-- `do_shmdt` without the update: an attachment of `page` ends. -/
def detach (vmId page : Nat) : State :=
  match s.find fun x => x.vmId = vmId with
  | some _ => { s with attached := update s.attached page (s.attached page - 1) }
  | none => s

/-- `vmId` is what `vm_getphys` says of the address, at which `page` is attached. -/
def doShmdt (vmId page : Nat) : Except Err Nat × State :=
  if vmId = 0 then (.error .einval, s)
  else (.ok 0, (s.detach vmId page).updateRefcountAndDestroy)

/-- `IPC_RMID` without the update. -/
def rmid (id : Int) (permitted : Bool) : Except Err Nat × State :=
  match s.shmFindId id with
  | none => (.error .einval, s)
  | some i =>
    if permitted = false then (.error .eperm, s)
    else (.ok 0, { s with shmList := update s.shmList i { s.shmList i with dest := true } })

/-- `buf` is that there is a buffer, and `copied` that it can be written. -/
def doShmctl (cmd : Cmd) (id : Int) (permitted buf copied : Bool) : Except Err Nat × State :=
  match cmd with
  | .stat =>
    let s := s.updateRefcountAndDestroy
    (if s.shmFindId id = none then .error .einval
    else if buf = false then .error .efault
    else if permitted = false then .error .eacces
    else if copied = false then .error .efault
    else .ok 0, s)
  | .rmid =>
    match s.rmid id permitted with
    | (.error e, s) => (.error e, s)
    | (.ok r, s) => (.ok r, s.updateRefcountAndDestroy)

def step : Step → State
  | .shmget m => (s.doShmget m).2
  | .shmat id aligned permitted ret => (s.doShmat id aligned permitted ret).2
  | .detach vmId page => s.detach vmId page
  | .rmid id permitted => (s.rmid id permitted).2
  | .update => s.updateRefcountAndDestroy
  | .others attached identifier => { s with attached := attached, identifier := identifier }

theorem doShmdt_steps (vmId page : Nat) : (s.doShmdt vmId page).2 =
    if vmId = 0 then s else [.detach vmId page, .update].foldl step s := by
  unfold doShmdt
  split_ifs <;> rfl

theorem doShmctl_steps (cmd : Cmd) (id : Int) (permitted buf copied : Bool) :
    ∃ l ∈ [[.update], [.rmid id permitted], [.rmid id permitted, .update]],
      (s.doShmctl cmd id permitted buf copied).2 = l.foldl step s := by
  cases cmd with
  | stat => exact ⟨_, .head _, rfl⟩
  | rmid =>
    unfold doShmctl
    cases h : s.rmid id permitted with
    | mk r t =>
      obtain rfl : (s.rmid id permitted).2 = t := congrArg Prod.snd h
      cases r with
      | error e => exact ⟨_, .tail _ (.head _), rfl⟩
      | ok r => exact ⟨_, .tail _ (.tail _ (.head _)), rfl⟩

/-! ## The property -/

def entries : List ShmStruct := (range s.shmListNr).map s.shmList

/-- A refresh leaves the segment on the list. -/
def Stays (x : ShmStruct) : Prop := s.attached x.page ≠ 0 ∨ x.dest = false

instance : DecidablePred s.Stays := fun _ => inferInstanceAs (Decidable (_ ∨ _))

def destroyed (l : List ShmStruct) : List ShmStruct := l.filter fun x => ¬ s.Stays x

/-- With the right number of attachments. -/
def counted (x : ShmStruct) : ShmStruct := { x with nattch := s.attached x.page }

/-- The pages mapped are those of the list, each of one segment. -/
structure Sound : Prop where
  pages : (s.entries.map (·.page)).Nodup
  mapped : ∀ p, s.mapped p = true ↔ p ∈ s.entries.map (·.page)

end State

def boot : State where
  shmList _ := ⟨0, 0, false, 0, 0, 0, 0⟩
  shmListNr := 0
  identifier := 0x1234
  mapped _ := false
  attached _ := 0
  unmaps := []

/-- Exactly the segments to be destroyed are gone, each is unmapped once, and the numbers of
attachments are right. -/
structure Refreshed (s s' : State) : Prop where
  entries : s'.entries = (s.entries.filter s.Stays).map s.counted
  unmaps : s'.unmaps = s.unmaps ++ (s.destroyed s.entries).map fun x => (x.page, roundUp x.segsz)

/-- `IPC_RMID` for a segment. -/
def Step.Marks : Step → ShmStruct → Prop
  | .rmid id permitted, x => permitted = true ∧ (x.id : Int) = id
  | _, _ => False

/-- Between two refreshes nothing leaves the list; a segment can be new, or marked. -/
structure Prepared (s : State) (st : Step) (s' : State) : Prop where
  entries : ∃ mark new, s'.entries = s.entries.map mark ++ new ∧ (∀ x ∈ new, x.dest = false) ∧
    ∀ x ∈ s.entries, mark x = x ∨ mark x = { x with dest := true } ∧ st.Marks x
  unmaps : s'.unmaps = s.unmaps

def Right (s : State) : Step → Prop
  | .update => Refreshed s s.updateRefcountAndDestroy
  | st => Prepared s st (s.step st)

/-- No segment has more than 253 attachments when they are counted; and VM maps a page where none is
mapped. -/
def Fits (s : State) : Step → Prop
  | .update => ∀ x ∈ s.entries, s.attached x.page ≤ 253
  | .shmget m => ∀ p, m.page = some p → s.mapped p = false
  | _ => True

/-! ## The refresh -/

open State

variable {s s' : State} {st : Step} {l : List ShmStruct} {k : Nat}

/-- What the loop leaves after the entries `l`: those that stay are at the front. -/
structure Updated (s : State) (k : Nat) (l : List ShmStruct) (r : State × Nat) : Prop where
  le : r.2 ≤ k
  rest : ∀ i, k ≤ i → r.1.shmList i = s.shmList i
  entries : (range r.2).map r.1.shmList = (l.filter s.Stays).map s.counted
  mapped : ∀ p, r.1.mapped p = true ↔ s.mapped p = true ∧ p ∉ (s.destroyed l).map (·.page)
  unmaps : r.1.unmaps = s.unmaps ++ (s.destroyed l).map fun x => (x.page, roundUp x.segsz)
  attached : r.1.attached = s.attached

theorem Updated.turn {r : State × Nat} (h : Updated s k l r)
    (hmapped : s.mapped (s.shmList k).page = true) (hnew : (s.shmList k).page ∉ l.map (·.page))
    (hfew : s.attached (s.shmList k).page ≤ 253) :
    Updated s (k + 1) (l ++ [s.shmList k]) (updateTurn r k) := by
  obtain ⟨t, j⟩ := r
  obtain ⟨hle, hrest, hentries, hmap, hunmaps, hattached⟩ := h
  dsimp only at *
  have hx := hrest k le_rfl
  have hin : t.mapped (s.shmList k).page = true := by
    refine (hmap _).mpr ⟨hmapped, fun hp => hnew ?_⟩
    exact (filter_sublist.map _).subset hp
  have hrc : t.vmGetrefcount (s.shmList k).page = 1 + s.attached (s.shmList k).page := by
    rw [vmGetrefcount, if_pos hin, hattached, Nat.mod_eq_of_lt (by omega)]
  have hcount : (1 + s.attached (s.shmList k).page + 2 ^ 32 - 1) % 2 ^ 32 =
      s.attached (s.shmList k).page := by omega
  unfold updateTurn
  simp only [hx, hrc, hcount]
  generalize hy : { s.shmList k with nattch := s.attached (s.shmList k).page } = y at *
  replace hy : s.counted (s.shmList k) = y := hy
  rw [if_neg (by omega)]
  have hfront : ∀ f : Nat → ShmStruct, (∀ i, i < j → f i = t.shmList i) →
      (range j).map f = (range j).map t.shmList :=
    fun f hf => map_congr_left fun i hi => hf i (mem_range.mp hi)
  by_cases hstays : s.attached (s.shmList k).page ≠ 0 ∨ (s.shmList k).dest = false
  · have hst : s.Stays (s.shmList k) := hstays
    rw [if_pos hstays]
    refine ⟨Nat.succ_le_succ hle, fun i hi => ?_, ?_, ?_, ?_, hattached⟩
    · dsimp only
      split_ifs <;> grind
    · simp only [range_succ, map_append, filter_append, ← hentries]
      rw [hfront]
      · split_ifs with hkj
        · simp [hst, hy]
        · obtain rfl := not_not.mp hkj
          simp [hst, hy]
      · intro i hi
        split_ifs <;> grind
    · simpa [destroyed, hst] using hmap
    · simpa [destroyed, hst] using hunmaps
  · have hst : ¬ s.Stays (s.shmList k) := hstays
    rw [if_neg hstays]
    refine ⟨Nat.le_succ_of_le hle, fun i hi => ?_, ?_, fun p => ?_, ?_, hattached⟩
    · exact (update_of_ne (by omega) _ _).trans (hrest i (by omega))
    · refine (hfront _ fun i hi => update_of_ne (by omega) _ _).trans (hentries.trans ?_)
      simp [hst]
    · simp only [destroyed] at hmap
      simp only [destroyed, update_apply, filter_append, map_append, mem_append]
      by_cases hp : p = (s.shmList k).page <;> simp [hp, hst, hmap]
    · subst hy
      simp only [destroyed] at hunmaps
      simp [destroyed, hst, hunmaps]

theorem State.Sound.updated (h : s.Sound) (hfew : ∀ x ∈ s.entries, s.attached x.page ≤ 253)
    {n : Nat} (hn : n ≤ s.shmListNr) :
    Updated s n ((range n).map s.shmList) ((range n).foldl updateTurn (s, 0)) := by
  induction n with
  | zero => exact ⟨le_rfl, fun _ _ => rfl, rfl, by simp [destroyed], by simp [destroyed], rfl⟩
  | succ n ih =>
    have hmem : s.shmList n ∈ s.entries := mem_map_of_mem (mem_range.mpr hn)
    rw [range_succ, foldl_append, map_append]
    refine (ih (by omega)).turn ((h.mapped _).mpr (mem_map_of_mem hmem)) (fun hin => ?_)
      (hfew _ hmem)
    obtain ⟨x, hx, heq⟩ := mem_map.mp hin
    obtain ⟨i, hi, rfl⟩ := mem_map.mp hx
    have hlt := mem_range.mp hi
    have hpages := h.pages
    rw [entries, map_map] at hpages
    have := inj_on_of_nodup_map hpages (mem_range.mpr (by omega)) (mem_range.mpr hn) heq
    omega

theorem State.Sound.refreshed (h : s.Sound) (hfew : ∀ x ∈ s.entries, s.attached x.page ≤ 253) :
    Refreshed s s.updateRefcountAndDestroy ∧ s.updateRefcountAndDestroy.Sound := by
  have hu := h.updated hfew le_rfl
  have hentries : s.updateRefcountAndDestroy.entries = _ := hu.entries
  have hsub := filter_sublist (p := fun x => decide (s.Stays x)) (l := s.entries)
  refine ⟨⟨hentries, hu.unmaps⟩, ?_, fun p => ?_⟩
  · rw [hentries, map_map]
    exact h.pages.sublist (hsub.map _)
  · rw [hentries, map_map]
    refine (hu.mapped p).trans ?_
    rw [h.mapped]
    constructor
    · rintro ⟨hp, hno⟩
      obtain ⟨x, hx, rfl⟩ := mem_map.mp hp
      refine mem_map.mpr ⟨x, mem_filter.mpr ⟨hx, ?_⟩, rfl⟩
      by_contra hgo
      exact hno (mem_map_of_mem (mem_filter.mpr ⟨hx, by simpa using hgo⟩))
    · intro hp
      obtain ⟨x, hx, rfl⟩ := mem_map.mp hp
      obtain ⟨hin, hst⟩ := mem_filter.mp hx
      refine ⟨mem_map.mpr ⟨x, hin, rfl⟩, fun hno => ?_⟩
      obtain ⟨y, hy, heq⟩ := mem_map.mp hno
      obtain ⟨hyin, hgo⟩ := mem_filter.mp hy
      obtain rfl := inj_on_of_nodup_map h.pages hyin hin heq
      exact absurd (of_decide_eq_true hst) (of_decide_eq_true hgo)

/-! ## The other steps -/

theorem entries_add (s : State) (x : ShmStruct) : (s.add x).entries = s.entries ++ [x] := by
  unfold entries add
  dsimp only
  rw [range_succ, map_append, map_singleton, update_self]
  exact congrArg (· ++ [x]) (map_congr_left fun i hi => update_of_ne (mem_range.mp hi).ne _ _)

theorem State.Sound.same (h : s.Sound) (hl : s'.entries = s.entries) (hu : s'.unmaps = s.unmaps)
    (hm : s'.mapped = s.mapped) : Prepared s st s' ∧ s'.Sound := by
  refine ⟨⟨⟨id, [], by simp [hl], nofun, fun _ _ => .inl rfl⟩, hu⟩, hl ▸ h.pages, fun p => ?_⟩
  rw [hm, hl, h.mapped]

theorem State.Sound.rmid (h : s.Sound) (id : Int) (permitted : Bool) :
    Prepared s (.rmid id permitted) (s.rmid id permitted).2 ∧ (s.rmid id permitted).2.Sound := by
  unfold State.rmid
  split
  · exact h.same rfl rfl rfl
  next i hi =>
  split_ifs with hno
  · exact h.same rfl rfl rfl
  have hlt := mem_of_find?_eq_some hi
  have hid := find?_some (p := fun i => decide (((s.shmList i).id : Int) = id)) hi
  have hpages := h.pages
  rw [entries, map_map] at hpages
  have hmark : (range s.shmListNr).map (update s.shmList i { s.shmList i with dest := true }) =
      s.entries.map fun x =>
        if x.page = (s.shmList i).page then { x with dest := true } else x := by
    rw [entries, map_map]
    refine map_congr_left fun k hk => ?_
    by_cases hki : k = i
    · simp [hki]
    · have hne : (s.shmList k).page ≠ (s.shmList i).page :=
        fun heq => hki (inj_on_of_nodup_map hpages hk hlt heq)
      simp [hki, hne]
  refine ⟨⟨⟨_, [], hmark.trans (append_nil _).symm, nofun, fun x hx => ?_⟩, rfl⟩, ?_, fun p => ?_⟩
  · obtain ⟨k, hk, rfl⟩ := mem_map.mp hx
    split_ifs with heq
    · obtain rfl := inj_on_of_nodup_map hpages hk hlt heq
      exact .inr ⟨rfl, by simpa using hno, of_decide_eq_true hid⟩
    · exact .inl rfl
  all_goals
    rw [entries, hmark, map_map, map_congr_left (g := (·.page)) fun x _ => by
      dsimp only [Function.comp]; split_ifs <;> rfl]
  · exact h.pages
  · exact h.mapped p

theorem State.Sound.shmget {m : GetArgs} (h : s.Sound) (hfits : Fits s (.shmget m)) :
    Prepared s (.shmget m) (s.doShmget m).2 ∧ (s.doShmget m).2.Sound := by
  unfold doShmget
  split
  · split_ifs <;> exact h.same rfl rfl rfl
  split_ifs
  · exact h.same rfl rfl rfl
  · exact h.same rfl rfl rfl
  · exact h.same rfl rfl rfl
  · exact h.same rfl rfl rfl
  split
  · exact h.same rfl rfl rfl
  next page hpage =>
  generalize hx : (⟨m.key, s.identifier, false, m.size.toNat, 0, page, m.vmId⟩ : ShmStruct) = x
  have hlist := entries_add s x
  subst hx
  refine ⟨⟨⟨id, _, by rw [map_id, hlist], by simp, fun _ _ => .inl rfl⟩, rfl⟩, ?_, fun p => ?_⟩
  · rw [hlist, map_append]
    refine h.pages.append (nodup_singleton _) (disjoint_singleton.mpr ?_)
    rw [← h.mapped, hfits page hpage]
    exact Bool.false_ne_true
  · rw [hlist, map_append, mem_append, ← h.mapped]
    by_cases hp : p = page <;> simp [add, hp]

theorem State.Sound.step (s : State) (st : Step) (h : s.Sound) (hfits : Fits s st) :
    Right s st ∧ (s.step st).Sound := by
  cases st with
  | shmget m => exact h.shmget hfits
  | shmat id aligned permitted ret =>
    show Prepared s _ (s.doShmat id aligned permitted ret).2 ∧
      (s.doShmat id aligned permitted ret).2.Sound
    unfold doShmat
    split
    · exact h.same rfl rfl rfl
    split
    · exact h.same rfl rfl rfl
    split
    · exact h.same rfl rfl rfl
    split <;> exact h.same rfl rfl rfl
  | detach vmId page =>
    show Prepared s _ (s.detach vmId page) ∧ (s.detach vmId page).Sound
    unfold detach
    split <;> exact h.same rfl rfl rfl
  | rmid id permitted => exact h.rmid id permitted
  | update => exact h.refreshed hfits
  | others a i => exact h.same rfl rfl rfl

theorem boot_sound : boot.Sound := ⟨nodup_nil, fun p => by simp [entries, boot]⟩

/-- In every run each refresh destroys the segments it should and no others, and nothing else leaves
the list. -/
theorem segments_kept {l : List Step} (h : Along step Fits boot l) :
    Along step Right boot l ∧ (l.foldl step boot).Sound :=
  Along.run State.Sound.step boot_sound h

/-- One page, with the key 1. -/
def onePage : GetArgs := ⟨1, 4096, true, false, true, some 4096, 7⟩

theorem onePage_fits : Along step Fits boot [.shmget onePage, .update] :=
  ⟨fun _ _ => rfl, show ∀ x ∈ (boot.step (.shmget onePage)).entries, _ ≤ 253 by decide, trivial⟩

theorem segment_stays : Along step Right boot [.shmget onePage, .update] ∧
    ([.shmget onePage, .update].foldl step boot).Sound :=
  segments_kept onePage_fits

/-- With 254 attachments the count is 255, the error of `vm_getrefcount`: the entry is lost. -/
theorem segment_lost :
    ¬ Along step Right boot [.shmget onePage, .others (fun _ => 254) 4661, .update] := by
  rintro ⟨-, -, h, -⟩
  exact absurd h.entries (by decide)

/-! ## Look-up by key -/

def State.keyList (s : State) : List Int := (range s.shmListNr).map fun i => (s.shmList i).key

/-- The loop has moved some of the first `k` keys to the front. -/
structure Moved (s : State) (k : Nat) (r : State × Nat) : Prop where
  le : r.2 ≤ k
  rest : ∀ i, k ≤ i → (r.1.shmList i).key = (s.shmList i).key
  keys : (range r.2).map (fun i => (r.1.shmList i).key) <+ (range k).map fun i => (s.shmList i).key

theorem Moved.put {r r' : State × Nat} (h : Moved s k r)
    (hrest : ∀ i, k < i → (r'.1.shmList i).key = (r.1.shmList i).key)
    (hfront : ∀ i < r.2, (r'.1.shmList i).key = (r.1.shmList i).key)
    (hnew : r'.2 = r.2 ∨ r'.2 = r.2 + 1 ∧ (r'.1.shmList r.2).key = (r.1.shmList k).key) :
    Moved s (k + 1) r' := by
  have hle := h.le
  refine ⟨by omega, fun i hi => (hrest i hi).trans (h.rest i (by omega)), ?_⟩
  have hsame : (range r.2).map (fun i => (r'.1.shmList i).key) <+ _ :=
    (map_congr_left fun i hi => hfront i (mem_range.mp hi)) ▸ h.keys
  rw [range_succ, map_append]
  obtain heq | ⟨heq, hkey⟩ := hnew
  · rw [heq]
    exact hsame.trans (sublist_append_left _ _)
  · rw [heq, range_succ, map_append]
    refine hsame.append ?_
    rw [map_singleton, map_singleton, hkey, h.rest k le_rfl]

theorem Moved.turn {r : State × Nat} (h : Moved s k r) : Moved s (k + 1) (updateTurn r k) := by
  have hle := h.le
  unfold updateTurn
  dsimp only
  split_ifs with herr hkept hij
  · exact h.put (fun _ _ => rfl) (fun _ _ => rfl) (.inl rfl)
  iterate 2
    refine h.put (fun i hi => ?_) (fun i hi => ?_) (.inr ⟨rfl, ?_⟩) <;>
      simp only [update_apply] <;> grind
  refine h.put (fun i hi => ?_) (fun i hi => ?_) (.inl rfl) <;> simp only [update_apply] <;> grind

theorem keyList_update (s : State) : s.updateRefcountAndDestroy.keyList <+ s.keyList := by
  have hmoved (n : Nat) : Moved s n ((range n).foldl updateTurn (s, 0)) := by
    induction n with
    | zero => exact ⟨le_rfl, fun _ _ => rfl, .slnil⟩
    | succ n ih =>
      rw [range_succ, foldl_append]
      exact ih.turn
  exact (hmoved s.shmListNr).keys

theorem keyList_step (s : State) (st : Step) : (s.step st).keyList <+ s.keyList ∨
    ∃ key, s.shmFindKey key = none ∧ (s.step st).keyList = s.keyList ++ [key] := by
  cases st with
  | shmget m =>
    show (s.doShmget m).2.keyList <+ s.keyList ∨
      ∃ key, s.shmFindKey key = none ∧ (s.doShmget m).2.keyList = s.keyList ++ [key]
    unfold doShmget
    split
    · split_ifs <;> exact .inl (Sublist.refl _)
    next hnone =>
    split_ifs
    iterate 4 exact .inl (Sublist.refl _)
    split
    · exact .inl (Sublist.refl _)
    · refine .inr ⟨m.key, hnone, ?_⟩
      simpa [entries, keyList, comp_def] using congrArg (map (·.key)) (entries_add s _)
  | shmat id aligned permitted ret =>
    refine .inl ?_
    show (s.doShmat id aligned permitted ret).2.keyList <+ s.keyList
    unfold doShmat
    repeat' split
    all_goals exact Sublist.refl _
  | detach vmId page =>
    refine .inl ?_
    show (s.detach vmId page).keyList <+ s.keyList
    unfold detach
    split <;> exact Sublist.refl _
  | rmid id permitted =>
    refine .inl ?_
    show (s.rmid id permitted).2.keyList <+ s.keyList
    unfold State.rmid
    repeat' split
    · exact Sublist.refl _
    · exact Sublist.refl _
    · unfold keyList
      rw [map_congr_left fun k _ => ?_]
      simp only [update_apply]
      split_ifs with hki <;> simp [hki]
  | update => exact .inl (keyList_update s)
  | others a i => exact .inl (Sublist.refl _)

/-- No key is that of two segments. -/
def State.Keyed (s : State) : Prop := s.keyList.Pairwise fun a b => a ≠ 0 → a ≠ b

theorem State.Keyed.step (hk : s.Keyed) : (s.step st).Keyed := by
  obtain hsub | ⟨key, hnone, heq⟩ := keyList_step s st
  · exact hk.sublist hsub
  · rw [Keyed, heq, pairwise_append]
    refine ⟨hk, pairwise_singleton _ _, fun a ha b hb hne hab => ?_⟩
    obtain rfl := mem_singleton.mp hb
    subst hab
    rw [shmFindKey, if_neg hne, State.find, find?_eq_none] at hnone
    obtain ⟨i, hi, rfl⟩ := mem_map.mp ha
    exact hnone i hi (decide_eq_true rfl)

theorem State.Keyed.found (hk : s.Keyed) {i : Nat} (hi : i < s.shmListNr)
    (hkey : (s.shmList i).key ≠ 0) : s.shmFindKey (s.shmList i).key = some i := by
  rw [shmFindKey, if_neg hkey, State.find, find?_range_eq_some]
  refine ⟨decide_eq_true rfl, mem_range.mpr hi, fun j hj => ?_⟩
  rw [Keyed, keyList, pairwise_map] at hk
  have hne := pairwise_iff_getElem.mp hk j i (by simpa using hj.trans hi) (by simpa using hi) hj
  simp only [getElem_range] at hne
  simpa using fun heq => hne (by rwa [heq]) heq

theorem keyed_run (l : List Step) (hk : s.Keyed) : (l.foldl step s).Keyed := by
  induction l generalizing s with
  | nil => exact hk
  | cons st l ih => exact ih hk.step

/-- In every run a segment with a key is the one that `shmget` finds by it. -/
theorem segments_found (l : List Step) {i : Nat} (hi : i < (l.foldl step boot).shmListNr)
    (hkey : ((l.foldl step boot).shmList i).key ≠ 0) :
    (l.foldl step boot).shmFindKey ((l.foldl step boot).shmList i).key = some i :=
  (keyed_run l (s := boot) .nil).found hi hkey

theorem segment_found : ([.shmget onePage, .update].foldl step boot).shmFindKey 1 = some 0 :=
  segments_found _ (by decide : 0 < _) (by decide)

end HardenedMinix.Shm
