import HardenedMinix.Kernel.Grants

/-!
# Vectored copies

`safecopy` and `do_vsafecopy` of `do_safecopy.c`. The kernel copies the caller's vector into an
array of its own, which has room for `SCPVEC_NR` elements, and then makes one copy after the other.
-/

namespace HardenedMinix.SafeCopy

open Grants

/-! ## Data -/

def self : Word := 0x8ace

/-- `SCPVEC_NR` and `sizeof(struct vscp_vec)`. -/
def scpvecNr : Nat := 64
def vscpVecSize : Nat := 24

inductive Status where
  | ok
  | edom
  | esrch
  | vmsuspend
  | err (e : Errno)
  deriving DecidableEq, Repr

/-- The processes, their memory, and what VM has said of the call if it is resumed. -/
structure Sys where
  procs : ProcNr → Grants.Proc
  /-- the byte at an address of a process; none if no page is mapped there -/
  mem : Word → Word → Option (BitVec 8)
  writable : Word → Word → Bool
  /-- `check_resumed_caller`: the error VM has ended the call with, if it is resumed -/
  resumed : Option Errno

/-- The kernel's memory from the array `vec` on. -/
abbrev Vec := Nat → BitVec 8

structure VscpVec where
  vFrom : Word
  vTo : Word
  vGid : Word
  vOffset : Word
  vAddr : Word
  vBytes : Word
  deriving DecidableEq

/-- The word at an offset, lowest byte first. -/
def wordAt (bytes : Vec) (k : Nat) : Word :=
  bytes (k + 3) ++ bytes (k + 2) ++ bytes (k + 1) ++ bytes k

/-- `vec[i]`. -/
def elementAt (bytes : Vec) (i : Nat) : VscpVec :=
  let k := vscpVecSize * i
  ⟨wordAt bytes k, wordAt bytes (k + 4), wordAt bytes (k + 8), wordAt bytes (k + 12),
    wordAt bytes (k + 16), wordAt bytes (k + 20)⟩

namespace Sys

/-- The memory of a process from an address on. -/
def from' (s : Sys) (e a : Word) : Vec := fun k => (s.mem e (a + BitVec.ofNat 32 k)).getD 0

/-- The grant at an address, which `verify_grant` copies as a whole. -/
def grantAt (s : Sys) (e a : Word) : Option Grant :=
  if ∀ k < 36, (s.mem e (a + BitVec.ofNat 32 k)).isSome then
    let w := wordAt (s.from' e a)
    some ⟨w 0, ![w 4, w 8, w 12, w 16]⟩
  else none

def grants (s : Sys) : Grants.State := ⟨s.procs, s.grantAt⟩

def setByte (s : Sys) (e a : Word) (b : BitVec 8) : Sys :=
  { s with mem := fun e' a' => if e' = e ∧ a' = a then some b else s.mem e' a' }

end Sys

/-! ## Single copies -/

/-- False if a page is not there, with the bytes before it copied. -/
def linLinCopy (src srcAddr dst dstAddr : Word) : Nat → Sys → Bool × Sys
  | 0, s => (true, s)
  | n + 1, s =>
    match linLinCopy src srcAddr dst dstAddr n s with
    | (false, s) => (false, s)
    | (true, s) =>
      let a := dstAddr + BitVec.ofNat 32 n
      match s.mem src (srcAddr + BitVec.ofNat 32 n) with
      | some b => if (s.mem dst a).isSome && s.writable dst a then (true, s.setByte dst a b) else (false, s)
      | none => (false, s)

/-- The check of an endpoint in `virtual_copy_f`; `NONE` is physical memory. -/
def endpointOk (s : Sys) (e : Word) : Bool := e == noProc || (isokendpt s.grants e).isSome

/-- `virtual_copy_vmcheck`. -/
def virtualCopy (s : Sys) (src srcAddr dst dstAddr bytes : Word) : Status × Sys :=
  if bytes = 0 then (.edom, s)
  else if !(endpointOk s src && endpointOk s dst) then (.esrch, s)
  else if let some e := s.resumed then (.err e, s)
  else
    match linLinCopy src srcAddr dst dstAddr bytes.toNat s with
    | (true, s) => (.ok, s)
    | (false, s) => (.vmsuspend, s)

def safecopy (s : Sys) (granter grantee grantid bytes gOffset addr access : Word) : Status × Sys :=
  if granter = noProc ∨ grantee = noProc then (.err .efault, s)
  else
    match isokendpt s.grants granter with
    | none => (.err .einval, s)
    | some p =>
      if (s.procs p).hasGrantTable = false then (.err .eperm, s)
      else
        match verifyGrant s.grants (maxIndirectDepth + 1) granter grantee grantid bytes access
          gOffset with
        | some (.ok vOffset newGranter) =>
          if access &&& cpfRead ≠ 0 then virtualCopy s newGranter vOffset grantee addr bytes
          else virtualCopy s grantee addr newGranter vOffset bytes
        | some (.err e) => (.err e, s)
        -- the loop of `verify_grant` has ended before that
        | none => (.err .eloop, s)

/-! ## The vector -/

/-- One turn of the loop of `do_vsafecopy`. -/
def copyElement (s : Sys) (caller : Word) (v : VscpVec) : Status × Sys :=
  if v.vFrom = self then
    safecopy s v.vTo caller v.vGid v.vBytes v.vOffset v.vAddr cpfWrite
  else if v.vTo = self then
    safecopy s v.vFrom caller v.vGid v.vBytes v.vOffset v.vAddr cpfRead
  else (.err .einval, s)

/-- The loop of `do_vsafecopy`, with `n` turns left. -/
def copyLoop (vec : Vec) (caller : Word) : Nat → Nat → Sys → Status × Sys
  | 0, _, s => (.ok, s)
  | n + 1, i, s =>
    match copyElement s caller (elementAt vec i) with
    | (.ok, s) => copyLoop vec caller n (i + 1) s
    | r => r

/-- How many of the first `n` bytes from an address on can be read. -/
def Sys.readable (s : Sys) (e a : Word) : Nat → Nat
  | 0 => 0
  | n + 1 =>
    if s.readable e a n = n ∧ (s.mem e (a + BitVec.ofNat 32 n)).isSome then n + 1
    else s.readable e a n

/-- What reading `n` bytes of a process returns, if there is anything to read. -/
def readStatus (s : Sys) (e a : Word) (n : Nat) : Status :=
  if !endpointOk s e then .esrch
  else if let some e := s.resumed then .err e
  else if s.readable e a n < n ∨ 2 ^ 32 < n then .vmsuspend
  else .ok

/-- How many bytes the copy of the vector writes to `vec`. -/
def fetched (s : Sys) (caller addr bytes : Word) : Nat :=
  if endpointOk s caller && s.resumed.isNone then s.readable caller addr bytes.toNat else 0

/-- `bytes` of `do_vsafecopy`. -/
def vecBytes (els : Word) : Word := els * BitVec.ofNat 32 vscpVecSize

/-- `do_vsafecopy`, with `VSCP_VEC_ADDR` and `VSCP_VEC_SIZE`. -/
def doVsafecopy (s : Sys) (vec : Vec) (caller addr els : Word) : Status × Sys :=
  let bytes := vecBytes els
  if bytes = 0 then (.edom, s)
  else
    match readStatus s caller addr bytes.toNat with
    | .ok =>
      let n := fetched s caller addr bytes
      let vec := fun k => if k < n then s.from' caller addr k else vec k
      copyLoop vec caller els.toInt.toNat 0 s
    | r => (r, s)

/-! ## What a vectored copy means -/

/-- Single copies, one after the other, up to the first that fails. -/
def copySequence (caller : Word) : List VscpVec → Sys → Status × Sys
  | [], s => (.ok, s)
  | v :: vs, s =>
    match copyElement s caller v with
    | (.ok, s) => copySequence caller vs s
    | r => r

def elements (s : Sys) (caller addr els : Word) : List VscpVec :=
  (List.range els.toInt.toNat).map (elementAt (s.from' caller addr))

/-- The sequence of the single copies, if the vector can be read. -/
def meaning (s : Sys) (caller addr els : Word) : Status × Sys :=
  if els.toInt ≤ 0 then (.ok, s)
  else
    match readStatus s caller addr (vscpVecSize * els.toInt.toNat) with
    | .ok => copySequence caller (elements s caller addr els) s
    | r => (r, s)

/-- What is read of the vector, and what the loop goes over, fits in the array; and the call is the
sequence of its copies. -/
structure Exact (s : Sys) (vec : Vec) (caller addr els : Word) : Prop where
  fits : fetched s caller addr (vecBytes els) ≤ vscpVecSize * scpvecNr
  inside : vecBytes els ≠ 0 → readStatus s caller addr (vecBytes els).toNat = .ok →
    els.toInt ≤ scpvecNr
  same : doVsafecopy s vec caller addr els = meaning s caller addr els

/-- A count for which there is room; a harmless negative one; or a larger one that is not read to
the end, with nothing written behind the array. -/
def Harmless (s : Sys) (caller addr els : Word) : Prop :=
  1 ≤ els.toInt ∧ els.toInt ≤ scpvecNr ∨
  vecBytes els ≠ 0 ∧
    (els.toInt < 0 ∧ (vecBytes els).toNat ≤ vscpVecSize * scpvecNr ∧
        readStatus s caller addr (vecBytes els).toNat = .ok ∨
      scpvecNr < els.toInt ∧ fetched s caller addr (vecBytes els) ≤ vscpVecSize * scpvecNr ∧
        readStatus s caller addr (vecBytes els).toNat ≠ .ok)

/-! ## Reading the vector -/

namespace Sys

variable (s : Sys) (e a : Word)

theorem readable_le (n : Nat) : s.readable e a n ≤ n := by
  induction n with
  | zero => exact Nat.le_refl 0
  | succ n ih =>
    simp only [readable]
    split
    · exact Nat.le_refl (n + 1)
    · exact Nat.le_succ_of_le ih

theorem readable_eq_of_all {n : Nat} (h : ∀ k < n, (s.mem e (a + BitVec.ofNat 32 k)).isSome) :
    s.readable e a n = n := by
  induction n with
  | zero => rfl
  | succ n ih =>
    have hn : s.readable e a n = n := ih fun k hk => h k (by omega)
    exact if_pos ⟨hn, h n (Nat.lt_succ_self n)⟩

end Sys

theorem fetched_le (s : Sys) (caller addr bytes : Word) :
    fetched s caller addr bytes ≤ bytes.toNat := by
  simp only [fetched]
  split
  · exact s.readable_le caller addr bytes.toNat
  · exact Nat.zero_le _

theorem fetched_eq_of_ok {s : Sys} {caller addr bytes : Word}
    (h : readStatus s caller addr bytes.toNat = .ok) :
    fetched s caller addr bytes = bytes.toNat := by
  unfold readStatus at h
  split at h
  · cases h
  rename_i hend
  split at h
  · cases h
  rename_i hres
  split at h
  · cases h
  rename_i hfull
  have hle := s.readable_le caller addr bytes.toNat
  have hnone : s.resumed = none := by
    cases hr : s.resumed with
    | none => rfl
    | some e => exact absurd hr (hres e)
  simp only [fetched, hnone]
  simp only [Bool.not_eq_true', Bool.not_eq_false] at hend
  simp only [hend, Option.isNone_none, Bool.and_self, if_true]
  omega

theorem readStatus_cases (s : Sys) (e a : Word) (n : Nat) :
    readStatus s e a n ≠ .edom ∧ (readStatus s e a n = .ok → n ≤ 2 ^ 32) := by
  unfold readStatus
  split
  · simp
  split
  · simp
  split
  · simp
  · rename_i hfull
    refine ⟨by simp, fun _ => ?_⟩
    omega

/-! ## Counts and bytes -/

theorem toNat_vecBytes (els : Word) : (vecBytes els).toNat = 24 * els.toNat % 2 ^ 32 := by
  simp [vecBytes, vscpVecSize, BitVec.toNat_mul, Nat.mul_comm]

theorem toNat_toInt {els : Word} (h : 0 ≤ els.toInt) : els.toInt.toNat = els.toNat := by
  rw [BitVec.toInt_eq_toNat_cond] at h ⊢
  split at h <;> omega

theorem toNat_vecBytes_of_lt {els : Word} (h : 0 ≤ els.toInt)
    (hlt : vscpVecSize * els.toInt.toNat < 2 ^ 32) :
    (vecBytes els).toNat = vscpVecSize * els.toInt.toNat := by
  rw [toNat_toInt h] at hlt ⊢
  rw [toNat_vecBytes]
  exact Nat.mod_eq_of_lt hlt

theorem vecBytes_ne_zero {els : Word} (h : 1 ≤ els.toInt)
    (hlt : vscpVecSize * els.toInt.toNat < 2 ^ 32) : vecBytes els ≠ 0 := by
  intro hzero
  have hbytes := toNat_vecBytes_of_lt (by omega) hlt
  rw [hzero] at hbytes
  simp only [vscpVecSize, BitVec.ofNat_eq_ofNat, BitVec.toNat_ofNat] at hbytes
  omega

/-! ## The loop -/

theorem wordAt_congr {v w : Vec} {k : Nat} (h : ∀ j < k + 4, v j = w j) :
    wordAt v k = wordAt w k := by
  simp only [wordAt]
  rw [h k (by omega), h (k + 1) (by omega), h (k + 2) (by omega), h (k + 3) (by omega)]

theorem elementAt_congr {v w : Vec} {i : Nat} (h : ∀ j < vscpVecSize * (i + 1), v j = w j) :
    elementAt v i = elementAt w i := by
  have hword : ∀ c ≤ 20, wordAt v (vscpVecSize * i + c) = wordAt w (vscpVecSize * i + c) := by
    intro c hc
    apply wordAt_congr
    intro j hj
    apply h
    simp only [vscpVecSize] at hj ⊢
    omega
  simp only [elementAt, VscpVec.mk.injEq]
  exact ⟨hword 0 (by omega), hword 4 (by omega), hword 8 (by omega), hword 12 (by omega),
    hword 16 (by omega), hword 20 (by omega)⟩

theorem copyLoop_eq_copySequence (caller : Word) {v w : Vec} (n i : Nat) (s : Sys)
    (h : ∀ j < i + n, elementAt v j = elementAt w j) :
    copyLoop v caller n i s = copySequence caller ((List.range' i n).map (elementAt w)) s := by
  induction n generalizing i s with
  | zero => rfl
  | succ n ih =>
    rw [List.range'_succ, List.map_cons]
    simp only [copyLoop, copySequence]
    rw [h i (by omega)]
    split
    · rename_i s' _
      exact ih (i + 1) s' fun j hj => h j (by omega)
    · rfl

/-! ## The call -/

variable {s : Sys} {vec : Vec} {caller addr els : Word}

theorem readStatus_of_wrapped (hpos : 0 ≤ els.toInt)
    (hbad : readStatus s caller addr (vecBytes els).toNat ≠ .ok) :
    readStatus s caller addr (vscpVecSize * els.toInt.toNat) =
      readStatus s caller addr (vecBytes els).toNat := by
  by_cases hlt : vscpVecSize * els.toInt.toNat < 2 ^ 32
  · rw [toNat_vecBytes_of_lt hpos hlt]
  -- 24 does not divide 2 ^ 32, so the product is larger than the address space
  have hlong : 2 ^ 32 < vscpVecSize * els.toInt.toNat := by
    simp only [vscpVecSize] at hlt ⊢
    omega
  unfold readStatus at hbad ⊢
  split
  · rfl
  rename_i hend
  rw [if_neg hend] at hbad
  split
  · rfl
  rw [if_pos (.inr hlong)]
  split at hbad
  · rename_i e he _
    simp_all
  · split at hbad
    · rename_i hshort
      rw [if_pos hshort]
    · exact absurd rfl hbad

theorem exact_of_count (hlow : 1 ≤ els.toInt) (hhigh : els.toInt ≤ scpvecNr) :
    Exact s vec caller addr els := by
  have hlt : vscpVecSize * els.toInt.toNat < 2 ^ 32 := by
    simp only [vscpVecSize, scpvecNr] at hhigh ⊢
    omega
  have hbytes : (vecBytes els).toNat = vscpVecSize * els.toInt.toNat :=
    toNat_vecBytes_of_lt (by omega) hlt
  refine ⟨?_, fun _ _ => hhigh, ?_⟩
  · calc fetched s caller addr (vecBytes els) ≤ (vecBytes els).toNat := fetched_le ..
      _ = vscpVecSize * els.toInt.toNat := hbytes
      _ ≤ vscpVecSize * scpvecNr := by
        apply Nat.mul_le_mul_left
        omega
  simp only [doVsafecopy, meaning]
  rw [if_neg (vecBytes_ne_zero hlow hlt), if_neg (by omega), hbytes]
  split
  · rename_i hok
    rw [← hbytes] at hok
    rw [elements, List.range_eq_range']
    apply copyLoop_eq_copySequence
    -- every element of the vector lies in the part of the array that has been read
    intro j hj
    apply elementAt_congr
    intro k hk
    rw [fetched_eq_of_ok hok, hbytes]
    apply if_pos
    calc k < vscpVecSize * (j + 1) := hk
      _ ≤ vscpVecSize * els.toInt.toNat := by
        apply Nat.mul_le_mul_left
        omega
  · rfl

theorem not_exact_zero (h : els.toInt = 0) : ¬ Exact s vec caller addr els := by
  intro hexact
  have hzero : vecBytes els = 0 := by
    apply BitVec.eq_of_toNat_eq
    rw [toNat_vecBytes, ← toNat_toInt (by omega), h]
    rfl
  have hsame := hexact.same
  simp only [doVsafecopy, meaning] at hsame
  rw [if_pos hzero, if_pos (by omega)] at hsame
  simp at hsame

theorem exact_negative_iff (h : els.toInt < 0) : Exact s vec caller addr els ↔
      vecBytes els ≠ 0 ∧ (vecBytes els).toNat ≤ vscpVecSize * scpvecNr ∧
        readStatus s caller addr (vecBytes els).toNat = .ok := by
  constructor
  · intro hexact
    have hsame := hexact.same
    simp only [doVsafecopy, meaning] at hsame
    rw [if_pos (by omega : els.toInt ≤ 0)] at hsame
    split at hsame
    · simp at hsame
    rename_i hbytes
    split at hsame
    · rename_i hok
      refine ⟨hbytes, ?_, hok⟩
      rw [← fetched_eq_of_ok hok]
      exact hexact.fits
    · rename_i hbad
      exact absurd (congrArg Prod.fst hsame) hbad
  rintro ⟨hbytes, hle, hok⟩
  refine ⟨(fetched_le ..).trans hle, fun _ _ => ?_, ?_⟩
  · simp only [scpvecNr]
    omega
  · have hnone : els.toInt.toNat = 0 := by omega
    simp only [doVsafecopy, meaning]
    rw [if_neg hbytes, if_pos (by omega), hok, hnone]
    rfl

theorem exact_large_iff (h : scpvecNr < els.toInt) : Exact s vec caller addr els ↔
      vecBytes els ≠ 0 ∧ fetched s caller addr (vecBytes els) ≤ vscpVecSize * scpvecNr ∧
        readStatus s caller addr (vecBytes els).toNat ≠ .ok := by
  have hpos : ¬ els.toInt ≤ 0 := by
    simp only [scpvecNr] at h
    omega
  constructor
  · intro hexact
    have hbytes : vecBytes els ≠ 0 := by
      intro hzero
      have hsame := hexact.same
      simp only [doVsafecopy, meaning] at hsame
      rw [if_pos hzero, if_neg hpos] at hsame
      have hcases := readStatus_cases s caller addr (vscpVecSize * els.toInt.toNat)
      split at hsame
      · rename_i hok
        -- what can be read is not larger than the address space, and so its size does not wrap
        apply vecBytes_ne_zero (by omega) _ hzero
        have hle := hcases.2 hok
        simp only [vscpVecSize] at hle ⊢
        omega
      · exact hcases.1 (congrArg Prod.fst hsame).symm
    refine ⟨hbytes, hexact.fits, ?_⟩
    intro hok
    exact absurd (hexact.inside hbytes hok) (by omega)
  rintro ⟨hbytes, hle, hbad⟩
  refine ⟨hle, fun _ hok => absurd hok hbad, ?_⟩
  simp only [doVsafecopy, meaning]
  rw [if_neg hbytes, if_neg hpos, readStatus_of_wrapped (by omega) hbad]
  split
  · contradiction
  · rfl

/-- A vectored copy is in bounds and the sequence of its copies exactly with a harmless count. -/
theorem vsafecopy_exact_iff (s : Sys) (vec : Vec) (caller addr els : Word) :
    Exact s vec caller addr els ↔ Harmless s caller addr els := by
  have hnr : (scpvecNr : Int) = 64 := rfl
  rcases lt_trichotomy els.toInt 0 with hneg | hzero | hpos
  · rw [exact_negative_iff hneg]
    constructor
    · rintro ⟨hbytes, hle, hok⟩
      exact .inr ⟨hbytes, .inl ⟨hneg, hle, hok⟩⟩
    · rintro (⟨hlow, -⟩ | ⟨hbytes, ⟨-, hle, hok⟩ | ⟨hlarge, -⟩⟩)
      · omega
      · exact ⟨hbytes, hle, hok⟩
      · omega
  · constructor
    · intro hexact
      exact absurd hexact (not_exact_zero hzero)
    · rintro (⟨hlow, -⟩ | ⟨-, ⟨hneg, -⟩ | ⟨hlarge, -⟩⟩)
      · omega
      · omega
      · omega
  by_cases hlarge : (scpvecNr : Int) < els.toInt
  · rw [exact_large_iff hlarge]
    constructor
    · rintro ⟨hbytes, hle, hbad⟩
      exact .inr ⟨hbytes, .inr ⟨hlarge, hle, hbad⟩⟩
    · rintro (⟨-, hhigh⟩ | ⟨hbytes, ⟨hneg, -⟩ | ⟨-, hle, hbad⟩⟩)
      · omega
      · omega
      · exact ⟨hbytes, hle, hbad⟩
  have hhigh : els.toInt ≤ scpvecNr := by omega
  constructor
  · intro _
    exact .inl ⟨hpos, hhigh⟩
  · intro _
    exact exact_of_count hpos hhigh

/-- Process 0 is there, and all memory is mapped and 0. -/
def mappedSys : Sys where
  procs := fun _ => ⟨false, 0, true, 0, 0⟩
  mem := fun _ _ => some 0
  writable := fun _ _ => true
  resumed := none

/-- With one element too many the copy writes 24 bytes after the array. -/
theorem vsafecopy_overruns_array : vscpVecSize * scpvecNr < fetched mappedSys 0 0 (vecBytes 65) ∧
      ¬ Exact mappedSys (fun _ => 0) 0 0 65 := by
  have hlong : vscpVecSize * scpvecNr < fetched mappedSys 0 0 (vecBytes 65) := by
    have hvalid : (endpointOk mappedSys 0 && mappedSys.resumed.isNone) = true := by decide +kernel
    simp only [fetched]
    rw [if_pos hvalid, Sys.readable_eq_of_all mappedSys 0 0 fun _ _ => rfl]
    decide
  exact ⟨hlong, fun hexact => absurd hexact.fits (by omega)⟩

end HardenedMinix.SafeCopy
