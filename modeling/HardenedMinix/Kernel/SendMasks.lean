import HardenedMinix.Lib.Runs

/-!
# Send masks of the privilege structures

The masks through the life of a privilege structure: assigned at boot or by `SYS_PRIV_SET_SYS`,
updated by `SYS_PRIV_UPDATE_SYS`, and freed when its process is cleared. A structure is known by
its id.
-/

namespace HardenedMinix.Kernel.SendMasks

def nrSysProcs : Nat := 64

/-- `NR_STATIC_PRIV_IDS`, which is `NR_BOOT_PROCS`: five tasks, and the processes up to
`LAST_SPECIAL_PROC_NR`. -/
def nrStaticPrivIds : Nat := 5 + 11 + 1

def nullPrivId : Int := -1

abbrev Id := Fin nrSysProcs

/-- `sys_map_t`, a bit for each structure. -/
abbrev SysMap := Id → Bool

abbrev ProcNr := Int

abbrev Word := BitVec 16

/-- `SYS_PROC` and `DYN_PRIV_ID`. -/
def sysProc : Word := 0x010

def dynPrivId : Word := 0x008

/-- `DSRV_F`: `SYS_PROC | PREEMPTIBLE | DYN_PRIV_ID`. -/
def dsrvF : Word := 0x010 ||| 0x002 ||| 0x008

def dsrvT : Word := ~~~0

/-- `1 << RECEIVE`. -/
def receiveBit : Word := 1 <<< 2

/-- `struct priv`, as far as the send masks go. `none` is `NONE`. -/
structure Priv where
  sProcNr : Option ProcNr
  sFlags : Word
  sTrapMask : Word
  sIpcTo : SysMap

/-- The table of privilege structures, and which of them each process has. -/
structure Table where
  priv : Id → Priv
  pPriv : ProcNr → Id

inductive Errno
  | ok
  | eperm
  | einval
  | ebusy
  | enospc
  deriving DecidableEq, Repr

def procInit : Table where
  priv _ := ⟨none, 0, 0, fun _ => false⟩
  pPriv _ := ⟨0, by decide⟩

namespace Table

variable (t : Table)

/-- `id_to_nr(id) != NONE`. -/
def live (i : Id) : Bool := (t.priv i).sProcNr.isSome

/-- `get_sys_bit` of the send mask. -/
def mask (i j : Id) : Bool := (t.priv i).sIpcTo j

/-- The trap mask allows something other than `RECEIVE`. -/
def traps (i : Id) : Bool := (t.priv i).sTrapMask &&& ~~~receiveBit ≠ 0

def setPriv (i : Id) (p : Priv) : Table := { t with priv := Function.update t.priv i p }

/-- `set_sys_bit` and `unset_sys_bit` on the send mask of a structure. -/
def putSysBit (i j : Id) (b : Bool) : Table :=
  t.setPriv i { t.priv i with sIpcTo := Function.update (t.priv i).sIpcTo j b }

def setSendtoBit (rp : ProcNr) (id : Id) : Table :=
  let r := t.pPriv rp
  if t.live id = false ∨ r = id then t.putSysBit r id false
  else
    let t := t.putSysBit r id true
    if t.traps id then t.putSysBit id r true else t

def unsetSendtoBit (rp : ProcNr) (id : Id) : Table :=
  (t.putSysBit (t.pPriv rp) id false).putSysBit id (t.pPriv rp) false

/-- A turn of the loop of `fill_sendto_mask`. -/
def fillBit (rp : ProcNr) (map : SysMap) (t : Table) (i : Id) : Table :=
  if map i then t.setSendtoBit rp i else t.unsetSendtoBit rp i

def fillSendtoMask (rp : ProcNr) (map : SysMap) : Table :=
  (List.finRange nrSysProcs).foldl (fillBit rp map) t

/-- The association that `get_priv` makes with the slot it has found. -/
def assign (rc : ProcNr) (sp : Id) : Table :=
  { t.setPriv sp { t.priv sp with sProcNr := some rc } with
    pPriv := Function.update t.pPriv rc sp }

def staticId (privId : Int) : Option Id :=
  (List.finRange nrSysProcs).find? fun i : Id => (i.val : Int) = privId ∧ i.val < nrStaticPrivIds

def getPriv (rc : ProcNr) (privId : Int) : Except Errno Table :=
  if privId = nullPrivId then
    match (List.finRange nrSysProcs).find? fun i : Id =>
        nrStaticPrivIds ≤ i.val ∧ t.live i = false with
    | none => .error .enospc
    | some sp => .ok (t.assign rc sp)
  else
    match staticId privId with
    | none => .error .einval
    | some sp => if t.live sp then .error .ebusy else .ok (t.assign rc sp)

/-- What the caller of a request supplies; `tablesOk`: the numbers of table entries to be copied are
in range. -/
structure NewPriv where
  sFlags : Word
  sId : Int
  sTrapMask : Word
  sIpcTo : SysMap
  tablesOk : Bool

def updatePriv (rp : ProcNr) (p : NewPriv) : Table × Errno :=
  let r := t.pPriv rp
  let t := t.setPriv r { t.priv r with sFlags := p.sFlags }
  if p.tablesOk then
    let t := t.setPriv r { t.priv r with sTrapMask := p.sTrapMask }
    (t.fillSendtoMask rp p.sIpcTo, .ok)
  else (t, .einval)

/-- `SYS_PRIV_SET_SYS`. `noPriv` is that the process is kept from running by `RTS_NO_PRIV`. -/
def setSys (caller rp : ProcNr) (noPriv : Bool) (arg : Option NewPriv) : Table × Errno :=
  if (t.priv (t.pPriv caller)).sFlags &&& sysProc = 0 then (t, .eperm)
  else if noPriv = false then (t, .eperm)
  else
    let privId := match arg with
      | some p => if p.sFlags &&& dynPrivId = 0 then p.sId else nullPrivId
      | none => nullPrivId
    match t.getPriv rp privId with
    | .error e => (t, e)
    | .ok t =>
      let r := t.pPriv rp
      -- copied from the caller, with the association restored and the defaults set
      let t := t.setPriv r { t.priv (t.pPriv caller) with
        sProcNr := some rp, sFlags := dsrvF, sTrapMask := dsrvT }
      let t := t.fillSendtoMask rp fun _ => true
      match arg with
      | some p => t.updatePriv rp p
      | none => (t, .ok)

/-- `SYS_PRIV_UPDATE_SYS`. -/
def updateSys (caller rp : ProcNr) (arg : Option NewPriv) : Table × Errno :=
  if (t.priv (t.pPriv caller)).sFlags &&& sysProc = 0 then (t, .eperm)
  else
    match arg with
    | none => (t, .einval)
    | some p => t.updatePriv rp p

/-- The root system process, VM and the tasks get a static id, the traps, and all targets or none. -/
def bootAssign (rp : ProcNr) (privId : Int) (flags traps : Word) (all : Bool) : Table :=
  let t := match t.getPriv rp privId with
    | .error _ => t
    | .ok t => t
  let r := t.pPriv rp
  let t := t.setPriv r { t.priv r with sFlags := flags, sTrapMask := traps }
  t.fillSendtoMask rp fun _ => all

/-- The end of `do_clear`: a system process gives up its structure, masks and all. -/
def doClear (rc : ProcNr) : Table :=
  let r := t.pPriv rc
  if (t.priv r).sFlags &&& sysProc ≠ 0 then t.setPriv r { t.priv r with sProcNr := none } else t

/-- The process has the structure of its parent after a fork, or that of the user processes. -/
def link (rc : ProcNr) (i : Id) : Table := { t with pPriv := Function.update t.pPriv rc i }

end Table

inductive Event
  | setSendtoBit (rp : ProcNr) (id : Id)
  | unsetSendtoBit (rp : ProcNr) (id : Id)
  | fillSendtoMask (rp : ProcNr) (map : SysMap)
  | bootAssign (rp : ProcNr) (privId : Int) (flags traps : Word) (all : Bool)
  | setSys (caller rp : ProcNr) (noPriv : Bool) (arg : Option Table.NewPriv)
  | updateSys (caller rp : ProcNr) (arg : Option Table.NewPriv)
  | clear (rc : ProcNr)
  | link (rc : ProcNr) (i : Id)

def Table.step (t : Table) : Event → Table
  | .setSendtoBit rp id => t.setSendtoBit rp id
  | .unsetSendtoBit rp id => t.unsetSendtoBit rp id
  | .fillSendtoMask rp map => t.fillSendtoMask rp map
  | .bootAssign rp privId flags traps all => t.bootAssign rp privId flags traps all
  | .setSys caller rp noPriv arg => (t.setSys caller rp noPriv arg).1
  | .updateSys caller rp arg => (t.updateSys caller rp arg).1
  | .clear rc => t.doClear rc
  | .link rc i => t.link rc i

/-! ## What an update does to the masks -/

namespace Table

variable {t : Table} {rp : ProcNr} {i j r id : Id} {map : SysMap}

theorem priv_putSysBit (b : Bool) : ((t.putSysBit r id b).priv i).sProcNr = (t.priv i).sProcNr ∧
    ((t.putSysBit r id b).priv i).sTrapMask = (t.priv i).sTrapMask := by
  unfold putSysBit setPriv
  by_cases hi : i = r
  · subst hi
    simp
  · simp [Function.update_of_ne hi]

@[simp] theorem live_putSysBit (b : Bool) : (t.putSysBit r id b).live i = t.live i := by
  unfold live
  rw [(priv_putSysBit b).1]

@[simp] theorem traps_putSysBit (b : Bool) : (t.putSysBit r id b).traps i = t.traps i := by
  unfold traps
  rw [(priv_putSysBit b).2]

@[simp] theorem pPriv_putSysBit (b : Bool) : (t.putSysBit r id b).pPriv = t.pPriv := rfl

theorem mask_putSysBit (b : Bool) :
    (t.putSysBit r id b).mask i j = if i = r ∧ j = id then b else t.mask i j := by
  unfold mask putSysBit setPriv
  by_cases hi : i = r
  · subst hi
    by_cases hj : j = id
    · subst hj
      simp
    · simp [hj]
  · simp [hi]

@[simp] theorem live_setSendtoBit : (t.setSendtoBit rp id).live i = t.live i := by
  unfold setSendtoBit
  dsimp only
  split_ifs <;> simp

@[simp] theorem traps_setSendtoBit : (t.setSendtoBit rp id).traps i = t.traps i := by
  unfold setSendtoBit
  dsimp only
  split_ifs <;> simp

@[simp] theorem pPriv_setSendtoBit : (t.setSendtoBit rp id).pPriv = t.pPriv := by
  unfold setSendtoBit
  dsimp only
  split_ifs <;> rfl

theorem mask_setSendtoBit : (t.setSendtoBit rp id).mask i j =
    if i = t.pPriv rp ∧ j = id then t.live id && t.pPriv rp ≠ id
    else if i = id ∧ j = t.pPriv rp ∧ t.live id ∧ t.traps id then true
    else t.mask i j := by
  unfold setSendtoBit
  dsimp only
  split_ifs with hnone htraps <;> simp only [mask_putSysBit, traps_putSysBit] at * <;> grind

@[simp] theorem live_unsetSendtoBit : (t.unsetSendtoBit rp id).live i = t.live i := by
  simp [unsetSendtoBit]

@[simp] theorem traps_unsetSendtoBit : (t.unsetSendtoBit rp id).traps i = t.traps i := by
  simp [unsetSendtoBit]

@[simp] theorem pPriv_unsetSendtoBit : (t.unsetSendtoBit rp id).pPriv = t.pPriv := rfl

theorem mask_unsetSendtoBit : (t.unsetSendtoBit rp id).mask i j =
    if i = t.pPriv rp ∧ j = id ∨ i = id ∧ j = t.pPriv rp then false else t.mask i j := by
  unfold unsetSendtoBit
  rw [mask_putSysBit, mask_putSysBit]
  grind

/-! ## Symmetry -/

/-- The bit for `j` in the mask of `i`, both of them live, is as it should be. -/
def Fair (t : Table) (i j : Id) : Prop :=
  t.live i → t.live j → t.mask i j → i ≠ j ∧ (t.traps j → t.mask j i)

/-- A live structure allows no send to itself, and a live receiver that can reply may reply. -/
def Symmetric (t : Table) : Prop := ∀ i j, t.Fair i j

/-- One turn sees to the pair of `r` and `k`, and gives `r` the bit that the map asks for. -/
structure Filled (t : Table) (r : Id) (map : SysMap) (k : Id) : Prop where
  mask : t.mask r k = (map k && t.live k && k ≠ r)
  forth : t.Fair r k
  back : t.Fair k r

theorem live_fillBit : (fillBit rp map t id).live i = t.live i := by
  unfold fillBit
  split_ifs <;> simp

theorem traps_fillBit : (fillBit rp map t id).traps i = t.traps i := by
  unfold fillBit
  split_ifs <;> simp

theorem pPriv_fillBit : (fillBit rp map t id).pPriv = t.pPriv := by
  unfold fillBit
  split_ifs <;> simp

theorem mask_fillBit_other (hij : ¬ (i = t.pPriv rp ∧ j = id)) (hji : ¬ (i = id ∧ j = t.pPriv rp)) :
    (fillBit rp map t id).mask i j = t.mask i j := by
  unfold fillBit
  split_ifs
  · rw [mask_setSendtoBit, if_neg hij, if_neg fun h => hji ⟨h.1, h.2.1⟩]
  · rw [mask_unsetSendtoBit, if_neg fun h => h.elim hij hji]

theorem fair_fillBit_other (hij : ¬ (i = t.pPriv rp ∧ j = id)) (hji : ¬ (i = id ∧ j = t.pPriv rp)) :
    (fillBit rp map t id).Fair i j ↔ t.Fair i j := by
  unfold Fair
  rw [live_fillBit, live_fillBit, traps_fillBit, mask_fillBit_other hij hji,
    mask_fillBit_other (fun h => hji h.symm) fun h => hij h.symm]

theorem fair_setSendtoBit (t : Table) (rp : ProcNr) (id : Id) :
    (t.setSendtoBit rp id).Fair (t.pPriv rp) id ∧
    (t.setSendtoBit rp id).Fair id (t.pPriv rp) := by
  unfold Fair
  simp only [live_setSendtoBit, traps_setSendtoBit, mask_setSendtoBit]
  grind

theorem fair_unsetSendtoBit (t : Table) (rp : ProcNr) (id : Id) :
    (t.unsetSendtoBit rp id).Fair (t.pPriv rp) id ∧
    (t.unsetSendtoBit rp id).Fair id (t.pPriv rp) := by
  unfold Fair
  simp only [live_unsetSendtoBit, traps_unsetSendtoBit, mask_unsetSendtoBit]
  grind

theorem filled_fillBit : (fillBit rp map t id).Filled (t.pPriv rp) map id := by
  have hfair : (fillBit rp map t id).Fair (t.pPriv rp) id ∧
      (fillBit rp map t id).Fair id (t.pPriv rp) := by
    unfold fillBit
    split_ifs
    · exact fair_setSendtoBit t rp id
    · exact fair_unsetSendtoBit t rp id
  refine ⟨?_, hfair.1, hfair.2⟩
  rw [live_fillBit]
  unfold fillBit
  split_ifs with hmap
  · rw [mask_setSendtoBit, if_pos ⟨rfl, rfl⟩, hmap, Bool.true_and]
    simp [eq_comm]
  · rw [mask_unsetSendtoBit, if_pos (.inl ⟨rfl, rfl⟩)]
    simp [hmap]

theorem Filled.fillBit {k : Id} (h : t.Filled (t.pPriv rp) map k) :
    (fillBit rp map t id).Filled (t.pPriv rp) map k := by
  by_cases hk : k = id
  · exact hk ▸ filled_fillBit
  have hij : ¬ (t.pPriv rp = t.pPriv rp ∧ k = id) := fun heq => hk heq.2
  have hji : ¬ (t.pPriv rp = id ∧ k = t.pPriv rp) := fun heq => hk (heq.2.trans heq.1)
  refine ⟨?_, (fair_fillBit_other hij hji).mpr h.forth, (fair_fillBit_other ?_ ?_).mpr h.back⟩
  · rw [mask_fillBit_other hij hji, live_fillBit]
    exact h.mask
  · exact fun heq => hji heq.symm
  · exact fun heq => hij heq.symm

theorem fillBits_spec (rp : ProcNr) (map : SysMap) (ids : List Id) (t : Table) :
    (∀ i, (ids.foldl (fillBit rp map) t).live i = t.live i) ∧
    (ids.foldl (fillBit rp map) t).pPriv = t.pPriv ∧
    (∀ k ∈ ids, (ids.foldl (fillBit rp map) t).Filled (t.pPriv rp) map k) ∧
    (∀ k, t.Filled (t.pPriv rp) map k → (ids.foldl (fillBit rp map) t).Filled (t.pPriv rp) map k) ∧
    ∀ i j, i ≠ t.pPriv rp → j ≠ t.pPriv rp → t.Fair i j → (ids.foldl (fillBit rp map) t).Fair i j := by
  induction ids generalizing t with
  | nil => simp
  | cons id ids ih =>
    obtain ⟨hlive, hpriv, hdone, hkeep, hother⟩ := ih (Table.fillBit rp map t id)
    rw [pPriv_fillBit] at hpriv hdone hkeep hother
    simp only [List.foldl_cons]
    refine ⟨fun i => (hlive i).trans live_fillBit, hpriv, fun k hk => ?_,
      fun k hk => hkeep k hk.fillBit, fun i j hi hj hfair => hother i j hi hj ?_⟩
    · obtain rfl | hk := List.mem_cons.mp hk
      · exact hkeep k filled_fillBit
      · exact hdone k hk
    · exact (fair_fillBit_other (fun h => hi h.1) fun h => hj h.2).mpr hfair

theorem mask_fillSendtoMask (t : Table) (rp : ProcNr) (map : SysMap) (k : Id) :
    (t.fillSendtoMask rp map).mask (t.pPriv rp) k = (map k && t.live k && k ≠ t.pPriv rp) := by
  obtain ⟨hlive, -, hdone, -⟩ := fillBits_spec rp map (List.finRange nrSysProcs) t
  have h := (hdone k (List.mem_finRange k)).mask
  rwa [hlive] at h

theorem symmetric_fillSendtoMask (h : ∀ i j, i ≠ t.pPriv rp → j ≠ t.pPriv rp → t.Fair i j) :
    (t.fillSendtoMask rp map).Symmetric := by
  obtain ⟨-, -, hdone, -, hother⟩ := fillBits_spec rp map (List.finRange nrSysProcs) t
  intro i j
  by_cases hi : i = t.pPriv rp
  · rw [hi]
    exact (hdone j (List.mem_finRange j)).forth
  by_cases hj : j = t.pPriv rp
  · rw [hj]
    exact (hdone i (List.mem_finRange i)).back
  exact hother i j hi hj (h i j hi hj)

theorem Symmetric.setSendtoBit (h : t.Symmetric) : (t.setSendtoBit rp id).Symmetric := by
  intro i j
  have hfair := h i j
  obtain ⟨hforth, hback⟩ := fair_setSendtoBit t rp id
  by_cases hij : i = t.pPriv rp ∧ j = id
  · rwa [hij.1, hij.2]
  by_cases hji : i = id ∧ j = t.pPriv rp
  · rwa [hji.1, hji.2]
  have heq : Table.setSendtoBit t rp id = Table.fillBit rp (fun _ => true) t id := rfl
  rw [heq, fair_fillBit_other hij hji]
  exact hfair

theorem Symmetric.unsetSendtoBit (h : t.Symmetric) : (t.unsetSendtoBit rp id).Symmetric := by
  intro i j
  have hfair := h i j
  obtain ⟨hforth, hback⟩ := fair_unsetSendtoBit t rp id
  by_cases hij : i = t.pPriv rp ∧ j = id
  · rwa [hij.1, hij.2]
  by_cases hji : i = id ∧ j = t.pPriv rp
  · rwa [hji.1, hji.2]
  have heq : Table.unsetSendtoBit t rp id = Table.fillBit rp (fun _ => false) t id := rfl
  rw [heq, fair_fillBit_other hij hji]
  exact hfair

/-! ## The life of a structure -/

theorem fair_congr {t' : Table} (hi : t'.priv i = t.priv i) (hj : t'.priv j = t.priv j) :
    t'.Fair i j ↔ t.Fair i j := by
  unfold Fair live traps mask
  rw [hi, hj]

theorem symmetric_setPriv {p : Priv} (h : t.Symmetric) (hnr : p.sProcNr = (t.priv r).sProcNr)
    (htrap : p.sTrapMask = (t.priv r).sTrapMask) (hmask : p.sIpcTo = (t.priv r).sIpcTo) :
    (t.setPriv r p).Symmetric := by
  have hlive (i : Id) : (t.setPriv r p).live i = t.live i := by
    unfold live setPriv
    by_cases hi : i = r
    · subst hi
      simp [hnr]
    · simp [hi]
  have htraps (i : Id) : (t.setPriv r p).traps i = t.traps i := by
    unfold traps setPriv
    by_cases hi : i = r
    · subst hi
      simp [htrap]
    · simp [hi]
  have hbits (i j : Id) : (t.setPriv r p).mask i j = t.mask i j := by
    unfold mask setPriv
    by_cases hi : i = r
    · subst hi
      simp [hmask]
    · simp [hi]
  intro i j
  unfold Fair
  rw [hlive, hlive, htraps, hbits, hbits]
  exact h i j

theorem Symmetric.setPriv_fill {t' : Table} (h : t.Symmetric)
    (hother : ∀ i, i ≠ t'.pPriv rp → t'.priv i = t.priv i) : (t'.fillSendtoMask rp map).Symmetric :=
  symmetric_fillSendtoMask fun i j hi hj => (fair_congr (hother i hi) (hother j hj)).mpr (h i j)

theorem getPriv_ok {t' : Table} {privId : Int} (h : t.getPriv rp privId = .ok t') :
    ∃ sp, t' = t.assign rp sp := by
  unfold getPriv at h
  split at h
  · split at h
    · cases h
    · next sp _ =>
      cases h
      exact ⟨sp, rfl⟩
  split at h
  · cases h
  next sp _ =>
  split at h
  · cases h
  · cases h
    exact ⟨sp, rfl⟩

theorem assign_pPriv {sp : Id} : (t.assign rp sp).pPriv rp = sp := Function.update_self ..

theorem assign_priv_other {sp : Id} (hi : i ≠ sp) : (t.assign rp sp).priv i = t.priv i :=
  Function.update_of_ne hi ..

theorem Symmetric.updatePriv {p : NewPriv} (h : t.Symmetric) : (t.updatePriv rp p).1.Symmetric := by
  unfold Table.updatePriv
  dsimp only
  split
  case isTrue =>
    refine h.setPriv_fill fun i hi => ?_
    have hi' : i ≠ t.pPriv rp := hi
    simp [Table.setPriv, Function.update_of_ne hi']
  case isFalse => exact symmetric_setPriv h rfl rfl rfl

theorem Symmetric.setSys {caller : ProcNr} {noPriv : Bool} {arg : Option NewPriv}
    (h : t.Symmetric) : (t.setSys caller rp noPriv arg).1.Symmetric := by
  unfold Table.setSys
  split
  case isTrue => exact h
  split
  case isTrue => exact h
  dsimp only
  split
  case h_1 => exact h
  case h_2 t' hget =>
    obtain ⟨sp, rfl⟩ := getPriv_ok hget
    set t1 := (t.assign rp sp).setPriv ((t.assign rp sp).pPriv rp)
      { (t.assign rp sp).priv ((t.assign rp sp).pPriv caller) with
        sProcNr := some rp, sFlags := dsrvF, sTrapMask := dsrvT } with ht1
    have hfill : (t1.fillSendtoMask rp fun _ => true).Symmetric := by
      refine h.setPriv_fill fun i hi => ?_
      have hi' : i ≠ sp := fun heq => hi (heq.trans assign_pPriv.symm)
      rw [ht1, assign_pPriv]
      exact (Function.update_of_ne hi' ..).trans (assign_priv_other hi')
    generalize t1.fillSendtoMask rp (fun _ => true) = t2 at hfill ⊢
    split
    case h_1 p => exact hfill.updatePriv
    case h_2 => exact hfill

theorem Symmetric.updateSys {caller : ProcNr} {arg : Option NewPriv} (h : t.Symmetric) :
    (t.updateSys caller rp arg).1.Symmetric := by
  unfold Table.updateSys
  split
  case isTrue => exact h
  split
  case h_1 => exact h
  case h_2 p => exact h.updatePriv

theorem Symmetric.bootAssign {privId : Int} {flags traps : Word} {all : Bool} (h : t.Symmetric) :
    (t.bootAssign rp privId flags traps all).Symmetric := by
  unfold Table.bootAssign
  dsimp only
  split
  case h_1 =>
    refine h.setPriv_fill fun i hi => ?_
    exact Function.update_of_ne hi ..
  case h_2 t' hget =>
    obtain ⟨sp, rfl⟩ := getPriv_ok hget
    refine h.setPriv_fill fun i hi => ?_
    have hi' : i ≠ sp := fun heq => hi (heq.trans assign_pPriv.symm)
    rw [assign_pPriv]
    exact (Function.update_of_ne hi' ..).trans (assign_priv_other hi')

theorem Symmetric.doClear {rc : ProcNr} (h : t.Symmetric) : (t.doClear rc).Symmetric := by
  unfold Table.doClear
  dsimp only
  split
  case isFalse => exact h
  intro i j hi hj
  have hdead (k : Id) (hk : (t.setPriv (t.pPriv rc)
      { t.priv (t.pPriv rc) with sProcNr := none }).live k) : k ≠ t.pPriv rc := by
    rintro rfl
    simp [live, setPriv] at hk
  have heq (k : Id) (hk : k ≠ t.pPriv rc) : (t.setPriv (t.pPriv rc)
      { t.priv (t.pPriv rc) with sProcNr := none }).priv k = t.priv k :=
    Function.update_of_ne hk ..
  exact (fair_congr (heq i (hdead i hi)) (heq j (hdead j hj))).mpr (h i j) hi hj

theorem Symmetric.step {e : Event} (h : t.Symmetric) : (t.step e).Symmetric := by
  cases e with
  | setSendtoBit rp id => exact h.setSendtoBit
  | unsetSendtoBit rp id => exact h.unsetSendtoBit
  | fillSendtoMask rp map => exact symmetric_fillSendtoMask fun i j _ _ => h i j
  | bootAssign rp privId flags traps all => exact h.bootAssign
  | setSys caller rp noPriv arg => exact h.setSys
  | updateSys caller rp arg => exact h.updateSys
  | clear rc => exact h.doClear
  | link rc i => exact h

theorem symmetric_run (events : List Event) : (events.foldl Table.step procInit).Symmetric := by
  have hrun (t : Table) (h : t.Symmetric) : (events.foldl Table.step t).Symmetric := by
    induction events generalizing t with
    | nil => exact h
    | cons e events ih => exact ih _ h.step
  exact hrun _ fun i j hi => by simp [live, procInit] at hi

/-- After any calls the masks of the live structures are fair, and `fill_sendto_mask` gives a
process the map restricted to the others. -/
theorem masks_fair (events : List Event) : (events.foldl Table.step procInit).Symmetric ∧
    ∀ rp map k, ((events.foldl Table.step procInit).fillSendtoMask rp map).mask
        ((events.foldl Table.step procInit).pPriv rp) k =
      (map k && (events.foldl Table.step procInit).live k &&
        k ≠ (events.foldl Table.step procInit).pPriv rp) :=
  ⟨symmetric_run events, fun rp map k => mask_fillSendtoMask _ rp map k⟩

end Table

/-! ## A structure that has been freed -/

/-- The static ids of the processes 1 and 2. -/
def firstServer : Id := ⟨6, by decide⟩

def secondServer : Id := ⟨7, by decide⟩

/-- The two get their structures, and the second one exits. -/
def receiverCleared : List Event := [
  .bootAssign 1 6 sysProc dsrvT true, .bootAssign 2 7 sysProc dsrvT true, .clear 2]

/-- The mask of the first one still has the bit. -/
theorem bit_for_freed_structure : ¬ ∀ events : List Event, ∀ i j : Id,
    (events.foldl Table.step procInit).mask i j →
      (events.foldl Table.step procInit).live j ∧ i ≠ j ∧
      ((events.foldl Table.step procInit).traps j →
        (events.foldl Table.step procInit).mask j i) := by
  intro h
  have hmask : (receiverCleared.foldl Table.step procInit).mask firstServer secondServer = true := by
    decide +kernel
  have hdead : (receiverCleared.foldl Table.step procInit).live secondServer = false := by
    decide +kernel
  have hlive := (h receiverCleared firstServer secondServer hmask).1
  rw [hdead] at hlive
  cases hlive

end HardenedMinix.Kernel.SendMasks
