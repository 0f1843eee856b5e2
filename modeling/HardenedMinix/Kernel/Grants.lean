import HardenedMinix.Kernel.Types

/-!
# Memory grants

`verify_grant` of `do_safecopy.c`. The grants are in the memory of a process, which may write
anything there; the check follows a chain of indirect grants.
-/

namespace HardenedMinix.Grants

/-! ## Data -/

/-- `endpoint_t`, `cp_grant_id_t`, `vir_bytes` and `size_t`. -/
abbrev Word := BitVec 32

/-- `ANY`, `NONE` and the endpoint of VFS. -/
def any : Word := 0x7ace
def noProc : Word := 0x6ace
def vfsProcNr : Word := 1

def endpointGenerationSize : Int := 1023 + 0x8ace + 1

def cpfRead : Word := 0x1
def cpfWrite : Word := 0x2
def cpfUsed : Word := 0x100
def cpfDirect : Word := 0x200
def cpfIndirect : Word := 0x400
def cpfMagic : Word := 0x800
def cpfValid : Word := 0x1000

def maxIndirectDepth : Nat := 5

def memTop : Word := 0xFFFFFFFF

/-- `sizeof(cp_grant_t)`. -/
def grantSize : Word := 36

/-- `cp_grant_t`: the flags and the words of the union. -/
structure Grant where
  cpFlags : Word
  u : Fin 4 → Word
  deriving DecidableEq

namespace Grant

variable (g : Grant)

/-! The three structures lie over the same words; the one for magic grants begins with
`cp_who_from`. -/

def directWhoTo : Word := g.u 0
def directStart : Word := g.u 1
def directLen : Word := g.u 2
def indirectWhoTo : Word := g.u 0
def indirectWhoFrom : Word := g.u 1
def indirectGrant : Word := g.u 2
def magicWhoFrom : Word := g.u 0
def magicWhoTo : Word := g.u 1
def magicStart : Word := g.u 2
def magicLen : Word := g.u 3

def Has (flags : Word) : Prop := g.cpFlags &&& flags = flags

instance (flags : Word) : Decidable (g.Has flags) := inferInstanceAs (Decidable (_ = _))

def Some (flags : Word) : Prop := g.cpFlags &&& flags ≠ 0

instance (flags : Word) : Decidable (g.Some flags) := inferInstanceAs (Decidable (_ ≠ _))

/-- The test for a direct grant that wraps. -/
def LenTooLong : Prop := memTop - g.directLen + 1 < g.directStart

instance : Decidable g.LenTooLong := inferInstanceAs (Decidable (_ < _))

end Grant

/-- The part of `struct proc` and `struct priv` for grants. -/
structure Proc where
  /-- `RTS_SLOT_FREE` -/
  slotFree : Bool
  endpoint : Word
  hasPriv : Bool
  /-- `s_grant_table` and `s_grant_entries` -/
  grantTable : Word
  grantEntries : Word

/-- The process table and the memory of the processes. -/
structure State where
  procs : ProcNr → Proc
  /-- the grant at an address of a process; `none` if `data_copy` fails -/
  grantAt : Word → Word → Option Grant

inductive Errno where
  | einval
  | eperm
  | eloop
  | efault
  deriving DecidableEq, Repr

/-- What `verify_grant` returns: `OK` with an address and its owner, or an error. -/
inductive Reply where
  | ok (offsetResult eGranter : Word)
  | err (e : Errno)
  deriving DecidableEq, Repr

/-! ## The functions of the source -/

def endpointP (e : Word) : Int := (e + 1023).toInt.tmod endpointGenerationSize - 1023

def isokendpt (s : State) (e : Word) : Option ProcNr :=
  let n := endpointP e + 5
  if h : 0 ≤ n ∧ n < nrSlots then
    let p : ProcNr := ⟨n.toNat, by omega⟩
    if !(s.procs p).slotFree && (s.procs p).endpoint == e then some p else none
  else none

def Proc.hasGrantTable (x : Proc) : Bool := x.hasPriv && x.grantTable != 0

/-- The first half of a turn of the loop of `verify_grant`: the entry of the table. -/
def getEntry (s : State) (granter grant : Word) : Except Errno Grant :=
  match isokendpt s granter with
  | none => .error .einval
  | some p =>
    -- GRANT_VALID
    if ¬ (-1 < grant.toInt) then .error .einval
    else if (s.procs p).hasGrantTable = false then .error .eperm
    else if (s.procs p).grantEntries.toInt ≤ grant.toInt then .error .eperm
    else
      match s.grantAt granter ((s.procs p).grantTable + grantSize * grant) with
      | none => .error .eperm
      | some g => if ¬ g.Has (cpfUsed ||| cpfValid) then .error .eperm else .ok g

/-- The entry a chain ends at, with the process that has it and the one that uses it. -/
structure Last where
  granter : Word
  grantee : Word
  g : Grant

/-- The loop of `verify_grant`; `none` if it has not ended after `fuel` turns. -/
def followIndirect (s : State) :
    Nat → Nat → Word → Word → Word → Option (Except Errno Last)
  | 0, _, _, _, _ => none
  | fuel + 1, depth, granter, grantee, grant =>
    match getEntry s granter grant with
    | .error e => some (.error e)
    | .ok g =>
      if g.Some cpfIndirect then
        if depth = maxIndirectDepth then some (.error .eloop)
        else if g.indirectWhoTo ≠ grantee ∧ grantee ≠ any ∧ g.indirectWhoTo ≠ any then
          some (.error .eperm)
        else followIndirect s fuel (depth + 1) g.indirectWhoFrom granter g.indirectGrant
      else some (.ok ⟨granter, grantee, g⟩)

/-- The part of `verify_grant` behind its loop. -/
def checkLast (l : Last) (bytes access offsetIn : Word) : Reply :=
  let g := l.g
  if ¬ g.Has access then .err .eperm
  else if g.Some cpfDirect then
    if g.LenTooLong then .err .eperm
    else if g.directWhoTo ≠ l.grantee ∧ l.grantee ≠ any ∧ g.directWhoTo ≠ any then .err .eperm
    else if offsetIn + bytes < offsetIn ∨ g.directLen < offsetIn + bytes then .err .eperm
    else .ok (g.directStart + offsetIn) l.granter
  else if g.Some cpfMagic then
    if l.granter ≠ vfsProcNr then .err .eperm
    -- the last comparison is with the field of a direct grant
    else if g.magicWhoTo ≠ l.grantee ∧ l.grantee ≠ any ∧ g.directWhoTo ≠ any then .err .eperm
    else if offsetIn + bytes < offsetIn ∨ g.magicLen < offsetIn + bytes then .err .eperm
    else .ok (g.magicStart + offsetIn) g.magicWhoFrom
  else .err .eperm

/-- `verify_grant`; `none` if it has not returned after `fuel` turns of its loop. -/
def verifyGrant (s : State) (fuel : Nat) (granter grantee grant bytes access offsetIn : Word) :
    Option Reply :=
  match followIndirect s fuel 0 granter grantee grant with
  | none => none
  | some (.error e) => some (.err e)
  | some (.ok l) => some (checkLast l bytes access offsetIn)

/-! ## Chains of grants -/

variable {s : State} {granter grantee grant bytes access offsetIn addr owner : Word}
  {l l' : Last} {g : Grant} {n m depth fuel : Nat}

/-- The recipient of a grant is the process that uses it, or one of the two is `ANY`. -/
def Names (whoTo grantee : Word) : Prop := whoTo = grantee ∨ grantee = any ∨ whoTo = any

instance (whoTo grantee : Word) : Decidable (Names whoTo grantee) :=
  inferInstanceAs (Decidable (_ ∨ _))

/-- From a grant that `grantee` uses, `n` indirect grants lead to the entry `l`. -/
inductive Chain (s : State) : Nat → Word → Word → Word → Last → Prop where
  | last {granter grantee grant : Word} {g : Grant} : getEntry s granter grant = .ok g →
      ¬ g.Some cpfIndirect → Chain s 0 granter grantee grant ⟨granter, grantee, g⟩
  | indirect {n : Nat} {granter grantee grant : Word} {g : Grant} {l : Last} :
      getEntry s granter grant = .ok g → g.Some cpfIndirect → Names g.indirectWhoTo grantee →
      Chain s n g.indirectWhoFrom granter g.indirectGrant l →
      Chain s (n + 1) granter grantee grant l

/-- Offset and size do not wrap and lie within the length. -/
def InRange (len bytes offsetIn : Word) : Prop :=
  offsetIn.toNat + bytes.toNat < 2 ^ 32 ∧ offsetIn.toNat + bytes.toNat ≤ len.toNat

instance (len bytes offsetIn : Word) : Decidable (InRange len bytes offsetIn) :=
  inferInstanceAs (Decidable (_ ∧ _))

/-- The memory asked for lies in what is granted, and does not run past the top of memory. -/
def Fits (start len bytes offsetIn : Word) : Prop :=
  InRange len bytes offsetIn ∧ start.toNat + offsetIn.toNat + bytes.toNat ≤ 2 ^ 32

/-- What is granted does not run past the top of memory. -/
def BelowTop (start len : Word) : Prop := start.toNat + len.toNat ≤ 2 ^ 32

/-- The last entry of a chain grants the access, as a direct or as a magic grant. -/
def Permits (l : Last) (bytes access offsetIn addr owner : Word) : Prop :=
  l.g.Has access ∧
    ((l.g.Some cpfDirect ∧ Names l.g.directWhoTo l.grantee ∧
        Fits l.g.directStart l.g.directLen bytes offsetIn ∧
        addr = l.g.directStart + offsetIn ∧ owner = l.granter) ∨
      (¬ l.g.Some cpfDirect ∧ l.g.Some cpfMagic ∧ l.granter = vfsProcNr ∧
        Names l.g.magicWhoTo l.grantee ∧ Fits l.g.magicStart l.g.magicLen bytes offsetIn ∧
        addr = l.g.magicStart + offsetIn ∧ owner = l.g.magicWhoFrom))

/-- A chain of at most `MAX_INDIRECT_DEPTH` indirect grants leads to an entry that grants the
access. -/
def Granted (s : State) (granter grantee grant bytes access offsetIn addr owner : Word) : Prop :=
  ∃ n, n ≤ maxIndirectDepth ∧ ∃ l, Chain s n granter grantee grant l ∧
    Permits l bytes access offsetIn addr owner

/-- The same, by a direct grant none of which runs past the top of memory. -/
def GrantedBelowTop (s : State) (granter grantee grant bytes access offsetIn addr owner : Word) :
    Prop :=
  ∃ n, n ≤ maxIndirectDepth ∧ ∃ l, Chain s n granter grantee grant l ∧
    Permits l bytes access offsetIn addr owner ∧
    (l.g.Some cpfDirect → BelowTop l.g.directStart l.g.directLen)

/-- No direct grant of nothing where the test against `MEM_TOP` wraps, and no magic grant past the
top of memory or compared with the wrong recipient. -/
def Plain (l : Last) : Prop :=
  (l.g.Some cpfDirect → l.g.directLen = 0 → l.g.directStart = 0) ∧
    (¬ l.g.Some cpfDirect → l.g.Some cpfMagic →
      (l.g.magicWhoTo = l.grantee ∨ l.grantee = any ∨
        (l.g.magicWhoTo = any ↔ l.g.magicWhoFrom = any)) ∧
      BelowTop l.g.magicStart l.g.magicLen)

instance (start len : Word) : Decidable (BelowTop start len) := inferInstanceAs (Decidable (_ ≤ _))

instance (l : Last) : Decidable (Plain l) := inferInstanceAs (Decidable (_ ∧ _))

/-! ## The loop -/

theorem Chain.unique (h : Chain s n granter grantee grant l) :
    ∀ {m l'}, Chain s m granter grantee grant l' → m = n ∧ l' = l := by
  induction h with
  | last hentry hdirect =>
    intro m l' h'
    cases h' with
    | last hentry' _ =>
      rw [hentry] at hentry'
      cases hentry'
      exact ⟨rfl, rfl⟩
    | indirect hentry' hind _ _ =>
      rw [hentry] at hentry'
      cases hentry'
      exact absurd hind hdirect
  | indirect hentry hind _ _ ih =>
    intro m l' h'
    cases h' with
    | last hentry' hdirect =>
      rw [hentry] at hentry'
      cases hentry'
      exact absurd hind hdirect
    | indirect hentry' _ _ hrest =>
      rw [hentry] at hentry'
      cases hentry'
      obtain ⟨hm, hl⟩ := ih hrest
      exact ⟨by rw [hm], hl⟩

theorem not_names_iff (whoTo grantee : Word) :
    (whoTo ≠ grantee ∧ grantee ≠ any ∧ whoTo ≠ any) ↔ ¬ Names whoTo grantee := by
  unfold Names
  tauto

theorem followIndirect_succ (s : State) (fuel depth : Nat) (granter grantee grant : Word) :
    followIndirect s (fuel + 1) depth granter grantee grant = match getEntry s granter grant with
      | .error e => some (.error e)
      | .ok g =>
        if g.Some cpfIndirect then
          if depth = maxIndirectDepth then some (.error .eloop)
          else if g.indirectWhoTo ≠ grantee ∧ grantee ≠ any ∧ g.indirectWhoTo ≠ any then
            some (.error .eperm)
          else followIndirect s fuel (depth + 1) g.indirectWhoFrom granter g.indirectGrant
        else some (.ok ⟨granter, grantee, g⟩) := by
  dsimp only [followIndirect]

/-- A turn: it fails, and no chain short enough begins here; or the chain ends; or the loop goes on
where the rest of each chain begins. -/
theorem turn_cases (s : State) (depth : Nat) (granter grantee grant : Word) :
    (∃ e, (∀ fuel, followIndirect s (fuel + 1) depth granter grantee grant = some (.error e)) ∧
      ∀ n l, depth + n ≤ maxIndirectDepth → ¬ Chain s n granter grantee grant l) ∨
    (∃ l, (∀ fuel, followIndirect s (fuel + 1) depth granter grantee grant = some (.ok l)) ∧
      Chain s 0 granter grantee grant l) ∨
    (depth ≠ maxIndirectDepth ∧ ∃ granter' grant',
      (∀ fuel, followIndirect s (fuel + 1) depth granter grantee grant =
        followIndirect s fuel (depth + 1) granter' granter grant') ∧
      (∀ l, ¬ Chain s 0 granter grantee grant l) ∧
      ∀ n l, Chain s (n + 1) granter grantee grant l ↔ Chain s n granter' granter grant' l) := by
  cases hentry : getEntry s granter grant with
  | error e =>
    left
    refine ⟨e, ?_, ?_⟩
    · intro fuel
      rw [followIndirect_succ, hentry]
    · intro n l _ hchain
      cases hchain with
      | last hentry' => rw [hentry] at hentry'; cases hentry'
      | indirect hentry' => rw [hentry] at hentry'; cases hentry'
  | ok g =>
    by_cases hind : g.Some cpfIndirect
    case neg =>
      right; left
      refine ⟨⟨granter, grantee, g⟩, ?_, .last hentry hind⟩
      intro fuel
      rw [followIndirect_succ, hentry]
      exact if_neg hind
    case pos =>
      -- what a chain from here looks like
      have hzero : ∀ l, ¬ Chain s 0 granter grantee grant l := by
        intro l hchain
        cases hchain with
        | last hentry' hdirect =>
          rw [hentry] at hentry'
          cases hentry'
          exact hdirect hind
      have hsucc : ∀ n l, Chain s (n + 1) granter grantee grant l ↔ Names g.indirectWhoTo grantee ∧
            Chain s n g.indirectWhoFrom granter g.indirectGrant l := by
        intro n l
        constructor
        · intro hchain
          cases hchain with
          | indirect hentry' _ hnames hrest =>
            rw [hentry] at hentry'
            cases hentry'
            exact ⟨hnames, hrest⟩
        · rintro ⟨hnames, hrest⟩
          exact .indirect hentry hind hnames hrest
      by_cases hmax : depth = maxIndirectDepth
      case pos =>
        left
        refine ⟨.eloop, ?_, ?_⟩
        · intro fuel
          rw [followIndirect_succ, hentry]
          exact (if_pos hind).trans (if_pos hmax)
        · intro n l hn
          obtain rfl : n = 0 := by omega
          exact hzero l
      case neg =>
        by_cases hnames : Names g.indirectWhoTo grantee
        case pos =>
          right; right
          refine ⟨hmax, g.indirectWhoFrom, g.indirectGrant, ?_, hzero, ?_⟩
          · intro fuel
            have hgood := not_not.mpr hnames
            rw [← not_names_iff] at hgood
            rw [followIndirect_succ, hentry]
            exact (if_pos hind).trans ((if_neg hmax).trans (if_neg hgood))
          · intro n l
            rw [hsucc]
            exact and_iff_right hnames
        case neg =>
          left
          refine ⟨.eperm, ?_, ?_⟩
          · intro fuel
            have hbad := (not_names_iff _ _).mpr hnames
            rw [followIndirect_succ, hentry]
            exact (if_pos hind).trans ((if_neg hmax).trans (if_pos hbad))
          intro n l _
          cases n with
          | zero => exact hzero l
          | succ n =>
            rw [hsucc]
            exact fun h => hnames h.1

/-- After all turns for indirect grants, and one more, the loop has ended at the end of a chain if
there is one. -/
theorem followIndirect_spec (left : Nat) : ∀ depth, depth + left = maxIndirectDepth →
    ∀ granter grantee grant, ∃ r,
      (∀ fuel, left + 1 ≤ fuel → followIndirect s fuel depth granter grantee grant = some r) ∧
      ∀ l, r = .ok l ↔ ∃ n, n ≤ left ∧ Chain s n granter grantee grant l := by
  induction left with
  | zero =>
    intro depth hdepth granter grantee grant
    obtain ⟨e, hrun, hno⟩ | ⟨l, hrun, hchain⟩ | ⟨hmax, -⟩ :=
      turn_cases s depth granter grantee grant
    · refine ⟨.error e, fun fuel hfuel => ?_, fun l => ⟨nofun, ?_⟩⟩
      · rw [← Nat.sub_add_cancel (show 1 ≤ fuel by omega)]
        exact hrun _
      · rintro ⟨n, hn, hchain⟩
        exact absurd hchain (hno n l (by omega))
    · refine ⟨.ok l, fun fuel hfuel => ?_, fun l' => ⟨?_, ?_⟩⟩
      · rw [← Nat.sub_add_cancel (show 1 ≤ fuel by omega)]
        exact hrun _
      · intro h
        cases h
        exact ⟨0, le_rfl, hchain⟩
      · rintro ⟨n, _, hchain'⟩
        rw [(hchain.unique hchain').2]
    · exact absurd hdepth hmax
  | succ left ih =>
    intro depth hdepth granter grantee grant
    obtain ⟨e, hrun, hno⟩ | ⟨l, hrun, hchain⟩ | ⟨-, granter', grant', hrun, hzero, hsucc⟩ :=
      turn_cases s depth granter grantee grant
    · refine ⟨.error e, fun fuel hfuel => ?_, fun l => ⟨nofun, ?_⟩⟩
      · rw [← Nat.sub_add_cancel (show 1 ≤ fuel by omega)]
        exact hrun _
      · rintro ⟨n, hn, hchain⟩
        exact absurd hchain (hno n l (by omega))
    · refine ⟨.ok l, fun fuel hfuel => ?_, fun l' => ⟨?_, ?_⟩⟩
      · rw [← Nat.sub_add_cancel (show 1 ≤ fuel by omega)]
        exact hrun _
      · intro h
        cases h
        exact ⟨0, Nat.zero_le _, hchain⟩
      · rintro ⟨n, _, hchain'⟩
        rw [(hchain.unique hchain').2]
    -- the loop goes on with the previous grant
    obtain ⟨r, hrest, hok⟩ := ih (depth + 1) (by omega) granter' granter grant'
    refine ⟨r, fun fuel hfuel => ?_, fun l => ?_⟩
    · rw [← Nat.sub_add_cancel (show 1 ≤ fuel by omega), hrun]
      exact hrest _ (by omega)
    rw [hok]
    constructor
    · rintro ⟨n, hn, hchain⟩
      exact ⟨n + 1, by omega, (hsucc n l).mpr hchain⟩
    · rintro ⟨n, hn, hchain⟩
      cases n with
      | zero => exact absurd hchain (hzero l)
      | succ n => exact ⟨n, by omega, (hsucc n l).mp hchain⟩

/-! ## The last entry -/

theorem range_iff (len bytes offsetIn : Word) :
    (offsetIn + bytes < offsetIn ∨ len < offsetIn + bytes) ↔ ¬ InRange len bytes offsetIn := by
  have hoff := offsetIn.isLt
  have hbytes := bytes.isLt
  have hlen := len.isLt
  unfold InRange
  rw [BitVec.lt_def, BitVec.lt_def, BitVec.toNat_add]
  omega

theorem lenTooLong_iff (hlen : g.directLen = 0 → g.directStart = 0) :
    g.LenTooLong ↔ ¬ BelowTop g.directStart g.directLen := by
  unfold Grant.LenTooLong BelowTop
  rw [BitVec.lt_def]
  by_cases hzero : g.directLen = 0
  case pos =>
    rw [hlen hzero, hzero]
    decide
  case neg =>
    have hpos : g.directLen.toNat ≠ 0 := by
      intro hnat
      apply hzero
      apply BitVec.eq_of_toNat_eq
      simpa using hnat
    have hl := g.directLen.isLt
    have htop : (memTop - g.directLen + 1).toNat = 2 ^ 32 - g.directLen.toNat := by
      unfold memTop
      rw [BitVec.toNat_add, BitVec.toNat_sub]
      simp
      omega
    rw [htop]
    omega

theorem fits_iff {start len : Word} (htop : BelowTop start len) :
    Fits start len bytes offsetIn ↔ InRange len bytes offsetIn := by
  unfold BelowTop at htop
  unfold Fits InRange
  omega

theorem checkLast_ok_iff (hplain : Plain l) : checkLast l bytes access offsetIn = .ok addr owner ↔
      Permits l bytes access offsetIn addr owner ∧
        (l.g.Some cpfDirect → BelowTop l.g.directStart l.g.directLen) := by
  unfold checkLast Permits
  dsimp only
  by_cases haccess : l.g.Has access
  case neg => simp [haccess]
  case pos =>
    by_cases hdirect : l.g.Some cpfDirect
    case pos =>
      have htop := lenTooLong_iff (hplain.1 hdirect)
      simp only [haccess, hdirect, htop, not_names_iff, range_iff]
      by_cases hbelow : BelowTop l.g.directStart l.g.directLen
      case neg => simp [hbelow]
      case pos =>
        simp only [hbelow, fits_iff hbelow]
        by_cases hnames : Names l.g.directWhoTo l.grantee
        case neg => simp [hnames]
        case pos =>
          by_cases hrange : InRange l.g.directLen bytes offsetIn
          case neg => simp [hnames, hrange]
          case pos =>
            simp only [hnames, hrange, not_true_eq_false, ↓reduceIte, Reply.ok.injEq, true_and,
              false_and, or_false, and_true, implies_true]
            exact and_congr eq_comm eq_comm
    case neg =>
      by_cases hmagic : l.g.Some cpfMagic
      case neg => simp [haccess, hdirect, hmagic]
      case pos =>
        obtain ⟨hfields, hbelow⟩ := hplain.2 hdirect hmagic
        -- the field compared is that of the owner
        have hnames : (l.g.magicWhoTo ≠ l.grantee ∧ l.grantee ≠ any ∧ l.g.directWhoTo ≠ any) ↔
            ¬ Names l.g.magicWhoTo l.grantee := by
          rw [← not_names_iff]
          refine and_congr_right fun hto => and_congr_right fun hany => ?_
          have hsame := (hfields.resolve_left hto).resolve_left hany
          exact not_congr hsame.symm
        simp only [haccess, hdirect, hmagic, hnames, range_iff, fits_iff hbelow]
        by_cases hvfs : l.granter = vfsProcNr
        case neg => simp [hvfs]
        case pos =>
          by_cases hrecipient : Names l.g.magicWhoTo l.grantee
          case neg => simp [hrecipient]
          case pos =>
            by_cases hrange : InRange l.g.magicLen bytes offsetIn
            case neg => simp [hrange]
            case pos =>
              simp only [hvfs, hrecipient, hrange, not_true_eq_false, not_false_eq_true, ne_eq,
                ↓reduceIte, Reply.ok.injEq, true_and, false_and, false_or, and_true,
                false_implies]
              exact and_congr eq_comm eq_comm

/-! ## Main result -/

/-- It ends in six turns, with `OK` exactly if a chain of indirect grants leads to a grant of what
is asked for, below the top of memory. -/
theorem verifyGrant_iff_chain (hplain : ∀ n l, Chain s n granter grantee grant l → Plain l) :
    ∃ r, (∀ fuel, maxIndirectDepth + 1 ≤ fuel →
        verifyGrant s fuel granter grantee grant bytes access offsetIn = some r) ∧
      ∀ addr owner, r = .ok addr owner ↔
        GrantedBelowTop s granter grantee grant bytes access offsetIn addr owner := by
  obtain ⟨r, hrun, hok⟩ :=
    followIndirect_spec (s := s) maxIndirectDepth 0 (Nat.zero_add _) granter grantee grant
  cases r with
  | error e =>
    refine ⟨.err e, ?_, ?_⟩
    · intro fuel hfuel
      unfold verifyGrant
      rw [hrun fuel hfuel]
    intro addr owner
    constructor
    · intro h
      cases h
    · rintro ⟨n, hn, l, hchain, -⟩
      have := (hok l).mpr ⟨n, hn, hchain⟩
      cases this
  | ok l =>
    obtain ⟨n, hn, hchain⟩ := (hok l).mp rfl
    refine ⟨checkLast l bytes access offsetIn, ?_, ?_⟩
    · intro fuel hfuel
      unfold verifyGrant
      rw [hrun fuel hfuel]
    intro addr owner
    rw [checkLast_ok_iff (hplain n l hchain)]
    constructor
    · intro h
      exact ⟨n, hn, l, hchain, h⟩
    · rintro ⟨m, -, l', hchain', h⟩
      obtain rfl := (hchain.unique hchain').2
      exact h

/-! ## Two processes -/

/-- Processes with the endpoints 10 and 11; the first has a table of one grant. -/
def oneGrant (g : Grant) : State where
  procs p := ⟨false, BitVec.ofNat 32 p.val - 5, true, 4096, 1⟩
  grantAt e a := if e = 10 ∧ a = 4096 then some g else none

/-- Process 10 lets process 11 read the 8192 bytes at `start`. -/
def readable (start : Word) : Grant where
  cpFlags := cpfUsed ||| cpfValid ||| cpfDirect ||| cpfRead
  u := ![11, start, 8192, 0]

/-- Process 11 reads 16 bytes at the start of what it was given. -/
theorem verifyGrant_iff_chain_direct :
    verifyGrant (oneGrant (readable 0x1000)) 6 10 11 0 16 cpfRead 0 = some (.ok 0x1000 10) ∧
      GrantedBelowTop (oneGrant (readable 0x1000)) 10 11 0 16 cpfRead 0 0x1000 10 := by
  have hrun : verifyGrant (oneGrant (readable 0x1000)) 6 10 11 0 16 cpfRead 0 =
      some (.ok 0x1000 10) := by
    decide +kernel
  have hentry : getEntry (oneGrant (readable 0x1000)) 10 0 = .ok (readable 0x1000) := by
    decide +kernel
  have hchain := @Chain.last _ 10 11 0 _ hentry (by decide)
  have hplain : ∀ n l, Chain (oneGrant (readable 0x1000)) n 10 11 0 l → Plain l := by
    intro n l h
    obtain rfl := (hchain.unique h).2
    decide
  obtain ⟨r, hr, hok⟩ := @verifyGrant_iff_chain _ 10 11 0 16 cpfRead 0 hplain
  refine ⟨hrun, (hok _ _).mp ?_⟩
  have hsame := hr 6 (by decide)
  rw [hrun] at hsame
  exact (Option.some.inj hsame).symm

/-- A direct grant past the top of memory is refused as a whole. -/
theorem wrapping_grant_refused :
    ¬ ∀ (s : State) (granter grantee grant bytes access offsetIn : Word), ∃ r,
      (∀ fuel, maxIndirectDepth + 1 ≤ fuel →
        verifyGrant s fuel granter grantee grant bytes access offsetIn = some r) ∧
      ∀ addr owner, r = .ok addr owner ↔
        Granted s granter grantee grant bytes access offsetIn addr owner := by
  intro h
  obtain ⟨r, hr, hok⟩ := h (oneGrant (readable 0xFFFFF000)) 10 11 0 16 cpfRead 0
  have hrun : verifyGrant (oneGrant (readable 0xFFFFF000)) 6 10 11 0 16 cpfRead 0 =
      some (.err .eperm) := by
    decide +kernel
  have hentry : getEntry (oneGrant (readable 0xFFFFF000)) 10 0 = .ok (readable 0xFFFFF000) := by
    decide +kernel
  have hsame := hr 6 (by decide)
  rw [hrun] at hsame
  obtain rfl := Option.some.inj hsame
  have hgranted : Granted (oneGrant (readable 0xFFFFF000)) 10 11 0 16 cpfRead 0 0xFFFFF000 10 := by
    refine ⟨0, by decide, _, .last hentry (by decide), by decide, .inl ?_⟩
    refine ⟨by decide, by decide, ⟨by decide, by decide⟩, by decide, by decide⟩
  have hbad := (hok _ _).mpr hgranted
  cases hbad

end HardenedMinix.Grants
