import Mathlib

/-!
# The data store

The server that keeps values and labels under keys and tells subscribers about them. What a
request finds outside is a parameter of it; a panic is `none`.
-/

open Function

namespace HardenedMinix.Ds

/-! ## Data -/

/-- `NR_DS_KEYS` and `NR_DS_SUBS`. -/
def nrDsKeys : Nat := 128
def nrDsSubs : Nat := 256

instance : NeZero nrDsKeys := ⟨by decide⟩

abbrev Slot := Fin nrDsKeys
abbrev SubSlot := Fin nrDsSubs
/-- The text of a key, a label or a pattern. -/
abbrev Key := List Char
abbrev Endpoint := Nat
abbrev Addr := Nat
abbrev Byte := Nat

/-- `DS_PROC_NR` and `RS_PROC_NR`. -/
def dsProcNr : Endpoint := 6
def rsProcNr : Endpoint := 2

/-- The bits of `DSF_MASK_TYPE`; those without a meaning are `unknown`. -/
inductive Ty where
  | u32
  | str
  | mem
  | label
  | unknown
  deriving DecidableEq

/-- All of `DSF_MASK_TYPE`. -/
def Ty.all : List Ty := [.u32, .str, .mem, .label, .unknown]

/-- The type bits are those of one type, as the `switch` statements want them. -/
def oneType : List Ty → Option Ty
  | [.unknown] => none
  | [t] => some t
  | _ => none

/-- `DSF_PRIV_RETRIEVE`, `DSF_PRIV_OVERWRITE` and `DSF_PRIV_SUBSCRIBE`. -/
structure Priv where
  retrieve : Bool
  overwrite : Bool
  subscribe : Bool

inductive Err where
  | eperm
  | einval
  | enomem
  | eexist
  | esrch
  | eagain
  | enoent
  /-- what `sys_safecopyfrom` or `sys_safecopyto` returns -/
  | copy
  deriving DecidableEq

/-- `struct data_store`; the flags of an entry that is not in use are all zero. -/
structure Entry where
  inUse : Bool
  type : Ty
  priv : Priv
  key : Key
  owner : Key
  u32 : Nat
  /-- `u.mem` -/
  data : Option Addr
  length : Nat
  reallen : Nat

structure Subscription where
  inUse : Bool
  types : List Ty
  owner : Key
  /-- what the compiled pattern matches; nothing, if it could not be compiled -/
  regex : Key → Bool
  oldSubs : Slot → Bool

structure State where
  store : Slot → Entry
  subs : SubSlot → Subscription
  /-- the blocks that `malloc` has handed out -/
  heap : Addr → Option (List Byte)
  /-- memory has been used that is not the server's -/
  fault : Bool
  /-- the notifications that have been sent -/
  notified : List Endpoint

namespace State

def setEntry (s : State) (i : Slot) (e : Entry) : State :=
  { s with store := update s.store i e }

def setSub (s : State) (k : SubSlot) (x : Subscription) : State :=
  { s with subs := update s.subs k x }

end State

/-! ## Memory -/

/-- `malloc`, which has found `a`. -/
def malloc (s : State) (a : Addr) (length : Nat) : State :=
  { s with heap := update s.heap a (some (List.replicate length 0)) }

def free (s : State) (data : Option Addr) : State :=
  match data with
  | none => s
  | some a =>
    match s.heap a with
    | none => { s with fault := true }
    | some _ => { s with heap := update s.heap a none }

/-- Bytes are written at the beginning of a block. -/
def write (s : State) (data : Option Addr) (bytes : List Byte) : State :=
  match data.bind fun a => (s.heap a).map fun b => (a, b) with
  | none => { s with fault := true }
  | some (a, b) =>
    if bytes.length ≤ b.length then
      { s with heap := update s.heap a (some (bytes ++ b.drop bytes.length)) }
    else { s with fault := true }

/-! ## Looking up -/

def lookupEntry (s : State) (key : Key) (types : List Ty) : Option Slot :=
  (List.finRange nrDsKeys).find? fun i =>
    (s.store i).inUse = true ∧ (s.store i).type ∈ types ∧ (s.store i).key = key

def lookupLabelEntry (s : State) (num : Nat) : Option Slot :=
  (List.finRange nrDsKeys).find? fun i =>
    (s.store i).inUse = true ∧ (s.store i).type = .label ∧ (s.store i).u32 = num

def allocDataSlot (s : State) : Option Slot :=
  (List.finRange nrDsKeys).find? fun i => (s.store i).inUse = false

def lookupSub (s : State) (owner : Key) : Option SubSlot :=
  (List.finRange nrDsSubs).find? fun k => (s.subs k).inUse = true ∧ (s.subs k).owner = owner

def allocSubSlot (s : State) : Option SubSlot :=
  (List.finRange nrDsSubs).find? fun k => (s.subs k).inUse = false

/-- A pointer to the name of a process: a constant, or the key of an entry. -/
inductive NamePtr where
  | ds
  | key (i : Slot)

def NamePtr.text (s : State) : NamePtr → Key
  | .ds => ['d', 's']
  | .key i => (s.store i).key

/-- `ds_getprocname`. -/
def getprocname (s : State) (e : Endpoint) : Option NamePtr :=
  if e = dsProcNr then some .ds
  else (lookupLabelEntry s e).map .key

/-- `ds_getprocep`; `none` is the panic. -/
def getprocep (s : State) (name : Key) : Option Endpoint :=
  (lookupEntry s name [.label]).map fun i => (s.store i).u32

/-- `check_auth`, for an entry with the permission bit `perm`. -/
def checkAuth (s : State) (p : Entry) (ep : Endpoint) (perm : Bool) : Bool :=
  perm = false ∨ (getprocname s ep).any fun n => n.text s = p.owner

/-! ## Subscribers -/

def checkSubMatch (s : State) (x : Subscription) (e : Entry) (ep : Endpoint) : Bool :=
  checkAuth s e ep e.priv.subscribe ∧ x.regex e.key

/-- A turn of `update_subscribers`. -/
def updateSubscriber (i : Slot) (set : Bool) (s : State) (k : SubSlot) : Option State :=
  let x := s.subs k
  let e := s.store i
  if x.inUse = true ∧ e.inUse = true ∧ e.type ∈ x.types then
    (getprocep s x.owner).map fun ep =>
      if checkSubMatch s x e ep then
        { s.setSub k { x with oldSubs := update x.oldSubs i set } with
          notified := s.notified ++ [ep] }
      else s
  else some s

def updateSubscribers (s : State) (i : Slot) (set : Bool) : Option State :=
  (List.finRange nrDsSubs).foldlM (updateSubscriber i set) s

/-! ## Requests -/

inductive Reply where
  | ok
  | value (n : Nat)
  | data (bytes : List Byte)
  | name (key : Key)
  | report (key : Key) (types : List Ty) (owner : Endpoint)
  | error (e : Err)
  deriving DecidableEq

structure Publish where
  source : Endpoint
  /-- `get_key_name` -/
  key : Except Err Key
  types : List Ty
  priv : Priv
  /-- `DSF_OVERWRITE` -/
  overwrite : Bool
  val : Nat
  length : Nat
  /-- what `malloc` returns, if it is called -/
  alloc : Option Addr
  /-- what `sys_safecopyfrom` does with the value -/
  copy : Except Err (List Byte)

def publishTarget (s : State) (m : Publish) (key : Key) : Except Err Slot :=
  let found := match lookupEntry s key m.types with
    | some i => some i
    | none => if .label ∈ m.types then lookupLabelEntry s m.val else none
  match found with
  | none =>
    match allocDataSlot s with
    | none => .error .enomem
    | some i => .ok i
  | some i =>
    if m.overwrite = true then
      if checkAuth s (s.store i) m.source (s.store i).priv.overwrite then .ok i else .error .eperm
    else .error .eexist

def terminated (types : List Ty) (bytes : List Byte) : List Byte :=
  if .str ∈ types then bytes.dropLast ++ [0] else bytes

/-- A new buffer, or the old one if it is large enough; `false` is that there is no memory. -/
def getBuffer (s : State) (m : Publish) (i : Slot) : Bool × State :=
  let e := s.store i
  if e.inUse = false then
    match m.alloc with
    | none => (false, s.setEntry i { e with data := none })
    | some a =>
      (true, (malloc s a m.length).setEntry i { e with data := some a, reallen := m.length })
  else if m.length > e.reallen then
    let s := free s e.data
    match m.alloc with
    | none => (false, s.setEntry i { e with data := none })
    | some a =>
      (true, (malloc s a m.length).setEntry i { e with data := some a, reallen := m.length })
  else (true, s)

/-- The memory range or the string is copied. -/
def fillBuffer (s : State) (m : Publish) (i : Slot) : Option Err × State :=
  let e := s.store i
  match m.copy with
  | .error r => (some r, free s e.data)
  | .ok bytes =>
    let s := (write s e.data (terminated m.types bytes)).setEntry i { e with length := m.length }
    -- the zero of an empty string is written before the buffer
    (none, if .str ∈ m.types ∧ m.length = 0 then { s with fault := true } else s)

def storeMem (s : State) (m : Publish) (i : Slot) : Option Err × State :=
  let (got, s) := getBuffer s m i
  if got = false then (some .enomem, s) else fillBuffer s m i

/-- The `switch` statement of `do_publish`. -/
def storeValue (s : State) (m : Publish) (i : Slot) : Option Err × State :=
  match oneType m.types with
  | some .u32 | some .label => (none, s.setEntry i { s.store i with u32 := m.val })
  | some .str | some .mem => storeMem s m i
  | _ => (some .einval, s)

/-- The attributes of the entry; the name of the owner may be the key that has just changed. -/
def setAttributes (s : State) (m : Publish) (i : Slot) (key : Key) (source : NamePtr) : State :=
  let s := s.setEntry i { s.store i with key := key }
  let s := s.setEntry i { s.store i with owner := source.text s }
  s.setEntry i { s.store i with
    inUse := true, type := (oneType m.types).getD .unknown, priv := m.priv }

def doPublish (s : State) (m : Publish) : Option (Reply × State) :=
  match getprocname s m.source with
  | none => some (.error .eperm, s)
  | some source =>
    if .label ∈ m.types ∧ m.source ≠ rsProcNr then some (.error .eperm, s)
    else
      match m.key with
      | .error r => some (.error r, s)
      | .ok key =>
        match publishTarget s m key with
        | .error r => some (.error r, s)
        | .ok i =>
          match storeValue s m i with
          | (some r, s) => some (.error r, s)
          | (none, s) =>
            (updateSubscribers (setAttributes s m i key source) i true).map fun s => (.ok, s)

def readMem (s : State) (data : Option Addr) (length : Nat) : Option (List Byte) :=
  (data.bind s.heap).bind fun b => if length ≤ b.length then some (b.take length) else none

/-- A memory range or a string is copied to the caller. -/
def retrieveMem (s : State) (e : Entry) (length : Nat) (copy : Option Err) : Reply × State :=
  match readMem s e.data (min length e.length) with
  | none => (.error .copy, { s with fault := true })
  | some bytes =>
    match copy with
    | some r => (.error r, s)
    | none => (.data bytes, s)

/-- `do_retrieve`; `copy` is what `sys_safecopyto` returns, if it is an error. -/
def doRetrieve (s : State) (source : Endpoint) (key : Except Err Key) (types : List Ty)
    (length : Nat) (copy : Option Err) : Reply × State :=
  match key with
  | .error r => (.error r, s)
  | .ok key =>
    match lookupEntry s key types with
    | none => (.error .esrch, s)
    | some i =>
      let e := s.store i
      if checkAuth s e source e.priv.retrieve = false then (.error .eperm, s)
      else
        match oneType types with
        | some .u32 | some .label => (.value e.u32, s)
        | some .str | some .mem => retrieveMem s e length copy
        | _ => (.error .einval, s)

def doRetrieveLabel (s : State) (num : Nat) (copy : Option Err) : Reply :=
  match lookupLabelEntry s num with
  | none => .error .esrch
  | some i =>
    match copy with
    | some r => .error r
    | none => .name (s.store i).key

/-- What `regcomp` does with a pattern. -/
inductive Compiled where
  | ok (regex : Key → Bool)
  /-- the pattern is wrong; what was there before is freed -/
  | badPattern
  /-- there is no memory; what was there before stays -/
  | noMemory

structure Subscribe where
  source : Endpoint
  key : Except Err Key
  types : List Ty
  overwrite : Bool
  /-- `DSF_INITIAL` -/
  initial : Bool
  compiled : Compiled

def subscribeTarget (s : State) (m : Subscribe) (owner : Key) : Except Err SubSlot :=
  match lookupSub s owner with
  | none =>
    match allocSubSlot s with
    | none => .error .eagain
    | some k => .ok k
  | some k => if m.overwrite = true then .ok k else .error .eexist

/-- A subscription, to all types if none is given. -/
def newSubscription (m : Subscribe) (owner : Key) (regex : Key → Bool) : Subscription where
  inUse := true
  types := if m.types = [] then Ty.all else m.types
  owner := owner
  regex := regex
  oldSubs := fun _ => false

/-- The entries that are reported at once. -/
def initialSubs (s : State) (x : Subscription) (source : Endpoint) (i : Slot) : Bool :=
  (s.store i).inUse ∧ (s.store i).type ∈ x.types ∧ checkSubMatch s x (s.store i) source

def doSubscribe (s : State) (m : Subscribe) : Reply × State :=
  match getprocname s m.source with
  | none => (.error .esrch, s)
  | some source =>
    match subscribeTarget s m (source.text s) with
    | .error r => (.error r, s)
    | .ok k =>
      match m.key with
      | .error r => (.error r, s)
      | .ok _ =>
        match m.compiled with
        | .badPattern =>
          (.error .einval, s.setSub k { s.subs k with regex := fun _ => false })
        | .noMemory => (.error .einval, s)
        | .ok regex =>
          let x := newSubscription m (source.text s) regex
          if m.initial = true then
            let s' := s.setSub k { x with oldSubs := initialSubs s x m.source }
            (.ok, if (List.finRange nrDsKeys).any (initialSubs s x m.source) then
              { s' with notified := s'.notified ++ [m.source] } else s')
          else (.ok, s.setSub k x)

def doCheck (s : State) (source : Endpoint) (copy : Option Err) : Option (Reply × State) :=
  match getprocname s source with
  | none => some (.error .esrch, s)
  | some owner =>
    match lookupSub s (owner.text s) with
    | none => some (.error .esrch, s)
    | some k =>
      match (List.finRange nrDsKeys).find? (s.subs k).oldSubs with
      | none => some (.error .enoent, s)
      | some i =>
        match copy with
        | some r => some (.error r, s)
        | none =>
          let e := s.store i
          (getprocep s e.owner).map fun ep =>
            (.report e.key (if e.inUse = true then [e.type] else []) ep,
              s.setSub k { s.subs k with oldSubs := update (s.subs k).oldSubs i false })

/-- The subscriptions of a label are cleaned up. -/
def cleanSubs (s : State) (label : Key) : State :=
  { s with subs := fun k =>
      if (s.subs k).inUse = true ∧ (s.subs k).owner = label then
        { s.subs k with inUse := false } else s.subs k }

def cleanEntry (label : Key) (s : State) (i : Slot) : Option State :=
  if (s.store i).inUse = true ∧ (s.store i).owner = label then
    (updateSubscribers s i false).map fun s => s.setEntry i { s.store i with inUse := false }
  else some s

/-- The `switch` statement of `do_delete`. -/
def cleanUp (s : State) (types : List Ty) (i : Slot) : Option (Option Err × State) :=
  match oneType types with
  | some .u32 => some (none, s)
  | some .label =>
    let label := (s.store i).key
    ((List.finRange nrDsKeys).foldlM (cleanEntry label) (cleanSubs s label)).map fun s => (none, s)
  | some .str | some .mem => some (none, free s (s.store i).data)
  | _ => some (some .einval, s)

def doDelete (s : State) (source : Endpoint) (key : Except Err Key) (types : List Ty) :
    Option (Reply × State) :=
  match getprocname s source with
  | none => some (.error .eperm, s)
  | some source =>
    match key with
    | .error r => some (.error r, s)
    | .ok key =>
      match lookupEntry s key types with
      | none => some (.error .esrch, s)
      | some i =>
        if (s.store i).owner ≠ source.text s then some (.error .eperm, s)
        else
          (cleanUp s types i).bind fun r =>
            match r with
            | (some e, s) => some (.error e, s)
            | (none, s) =>
              (updateSubscribers s i false).map fun s =>
                (.ok, s.setEntry i { s.store i with inUse := false })

inductive Request where
  | publish (m : Publish)
  | retrieve (source : Endpoint) (key : Except Err Key) (types : List Ty) (length : Nat)
      (copy : Option Err)
  | retrieveLabel (num : Nat) (copy : Option Err)
  | subscribe (m : Subscribe)
  | check (source : Endpoint) (copy : Option Err)
  | delete (source : Endpoint) (key : Except Err Key) (types : List Ty)

/-- One request; `none` is a panic. -/
def handle (s : State) : Request → Option (Reply × State)
  | .publish m => doPublish s m
  | .retrieve source key types length copy => some (doRetrieve s source key types length copy)
  | .retrieveLabel num copy => some (doRetrieveLabel s num copy, s)
  | .subscribe m => some (doSubscribe s m)
  | .check source copy => doCheck s source copy
  | .delete source key types => doDelete s source key types

/-- The state after a request; a server that has panicked does nothing any more. -/
def step (s : State) (r : Request) : State := ((handle s r).map Prod.snd).getD s

/-- `malloc` returns memory not in use, or the buffer just freed; a copy has as many bytes as asked
for. -/
def Request.Proper (s : State) : Request → Prop
  | .publish m =>
    (∀ bytes, m.copy = .ok bytes → bytes.length = m.length) ∧
      ∀ a, m.alloc = some a → s.heap a = none ∨ ∃ key i, m.key = .ok key ∧
        publishTarget s m key = .ok i ∧ (s.store i).inUse = true ∧
        m.length > (s.store i).reallen ∧ (s.store i).data = some a
  | _ => True

/-- The state after `sef_cb_init_fresh`, with a label for each service of the boot image. -/
structure Boot (s : State) : Prop where
  labels : ∀ i, (s.store i).inUse = true →
    (s.store i).type = .label ∧ (s.store i).owner = ['r', 's']
  keys : ∀ i j, (s.store i).inUse = true → (s.store j).inUse = true →
    (s.store i).key = (s.store j).key → i = j
  numbers : ∀ i j, (s.store i).inUse = true → (s.store j).inUse = true →
    (s.store i).u32 = (s.store j).u32 → i = j
  rs : ∃ i, (s.store i).inUse = true ∧ (s.store i).key = ['r', 's'] ∧
    (s.store i).u32 = rsProcNr
  ds : ∃ i, (s.store i).inUse = true ∧ (s.store i).key = ['d', 's'] ∧
    (s.store i).u32 = dsProcNr
  subs : ∀ k, (s.subs k).inUse = false
  heap : ∀ a, s.heap a = none
  fault : s.fault = false

/-! ## A boot image -/

def freeEntry : Entry := ⟨false, .unknown, ⟨false, false, false⟩, [], [], 0, none, 0, 0⟩

def labelEntry (key : Key) (e : Endpoint) : Entry :=
  { freeEntry with inUse := true, type := .label, key := key, owner := ['r', 's'], u32 := e }

/-- Two services: the reincarnation server and the data store itself. -/
def bootState : State where
  store := fun i =>
    if i = 0 then labelEntry ['r', 's'] rsProcNr
    else if i = 1 then labelEntry ['d', 's'] dsProcNr
    else freeEntry
  subs := fun _ => ⟨false, [], [], fun _ => false, fun _ => false⟩
  heap := fun _ => none
  fault := false
  notified := []

theorem boot_bootState : Boot bootState := by
  have hused : ∀ i : Slot, (bootState.store i).inUse = true → i = 0 ∨ i = 1 := by
    intro i h
    by_contra hne
    rw [not_or] at hne
    simp [bootState, hne.1, hne.2, freeEntry] at h
  refine ⟨fun i hi => ?_, fun i j hi hj hkey => ?_, fun i j hi hj hnum => ?_,
    ⟨0, rfl, rfl, rfl⟩, ⟨1, rfl, rfl, rfl⟩, fun _ => rfl, fun _ => rfl, rfl⟩
  · obtain rfl | rfl := hused i hi
    · exact ⟨rfl, rfl⟩
    · exact ⟨rfl, rfl⟩
  · obtain rfl | rfl := hused i hi
    · obtain rfl | rfl := hused j hj
      · rfl
      · exact absurd hkey (by decide)
    · obtain rfl | rfl := hused j hj
      · exact absurd hkey (by decide)
      · rfl
  obtain rfl | rfl := hused i hi
  · obtain rfl | rfl := hused j hj
    · rfl
    · exact absurd hnum (by decide)
  · obtain rfl | rfl := hused j hj
    · exact absurd hnum (by decide)
    · rfl

def publishLabel (key : Key) (e : Endpoint) : Request :=
  .publish ⟨rsProcNr, .ok key, [.label], ⟨false, false, false⟩, true, e, 0, none, .error .copy⟩

end HardenedMinix.Ds
