import HardenedMinix.Kernel.Grants

/-!
# Mapping a vector of ranges

`vm_lookup` and `vm_lookup_range` of `memory.c`, and the kernel call `SYS_VUMAP` that is built on
them. Addresses are 32 bits wide and wrap around.
-/

open List Option

namespace HardenedMinix.Vumap

open Grants

/-! ## Page tables -/

def wrap (a : Nat) : Nat := a % 2 ^ 32

def i386PageSize : Nat := 4096

def i386VmPresent : Nat := 0x001
def i386VmBigpage : Nat := 0x080
def i386VmAddrMask : Nat := 0xFFFFF000
def i386VmAddrMask4mb : Nat := 0xFFC00000
def i386VmOffsetMask4mb : Nat := 0x003FFFFF

/-- `vm_lookup` of a process whose page directory is at `root`; `mem` is `phys_get32`. `none` is
`EFAULT`. -/
def vmLookup (mem : Nat → Nat) (root virtual : Nat) : Option Nat :=
  let pdeV := mem (root + 4 * (virtual >>> 22))
  if pdeV &&& i386VmPresent = 0 then none
  else if pdeV &&& i386VmBigpage ≠ 0 then
    some (wrap ((pdeV &&& i386VmAddrMask4mb) + (virtual &&& i386VmOffsetMask4mb)))
  else
    let pteV := mem ((pdeV &&& i386VmAddrMask) + 4 * ((virtual >>> 12) &&& 0x3FF))
    if pteV &&& i386VmPresent = 0 then none
    else some (wrap ((pteV &&& i386VmAddrMask) + virtual % i386PageSize))

/-- The loop of `vm_lookup_range`; `none` if it has not ended after so many turns. -/
def lookupRangeLoop (lookup : Nat → Option Nat) (bytes : Nat) : Nat → Nat → Nat → Nat → Option Nat
  | 0, _, _, _ => none
  | turns + 1, virAddr, nextPhys, len =>
    if len < bytes then
      match lookup virAddr with
      | none => some len
      | some phys =>
        if nextPhys ≠ phys then some len
        else lookupRangeLoop lookup bytes turns (wrap (virAddr + i386PageSize))
          (wrap (nextPhys + i386PageSize)) (wrap (len + i386PageSize))
    else some len

/-- What `vm_lookup_range` returns: 0, or an address and the size of the range. -/
abbrev Chunk := Option (Nat × Nat)

def vmLookupRange (lookup : Nat → Option Nat) (turns virAddr bytes : Nat) : Option Chunk :=
  match lookup virAddr with
  | none => some none
  | some phys =>
    let len := i386PageSize - virAddr % i386PageSize
    match lookupRangeLoop lookup bytes turns (wrap (virAddr + len)) (wrap (phys + len)) len with
    | none => none
    | some len => some (some (phys, min bytes len))

/-! ## The kernel call -/

def self : Word := 0x8ace

def mapvecNr : Nat := 64

/-- `struct vumap_vir`: a grant or an address, and a size. -/
structure VumapVir where
  u : Word
  size : Nat
  deriving DecidableEq, Repr

structure VumapPhys where
  addr : Nat
  size : Nat
  deriving DecidableEq, Repr

/-- The parameters of the call, and the vector at `VUMAP_VADDR`. -/
structure Request where
  endpt : Word
  vcount : Int
  offset : Nat
  access : Nat
  pmax : Int
  vvec : Nat → VumapVir

/-- `readable n`: `n` elements can be read; `resumed`: the error VM ended the call with before;
`copyOut n`: what copying `n` elements out returns. -/
structure Machine where
  caller : Word
  grants : Grants.State
  mem : Nat → Nat
  cr3 : Int → Nat
  readable : Nat → Bool
  resumed : Option Errno
  copyOut : Nat → Option Errno

inductive Status
  | err (e : Errno)
  | vmsuspend
  deriving DecidableEq, Repr

/-- `VUA_READ`, `VUA_WRITE`, and the conversion to the flags of grants. -/
def accessFlags : Nat → Option Word
  | 0x01 => some cpfRead
  | 0x02 => some cpfWrite
  | 0x03 => some (cpfRead ||| cpfWrite)
  | _ => none

namespace Machine

/-- `vm_lookup` of the process with this number; what `okendpt` returns is not looked at. -/
def lookup (m : Machine) (e : Word) : Nat → Option Nat := vmLookup m.mem (m.cr3 (endpointP e))

/-- Where a range is from its offset on: an address, and the process. -/
def resolve (m : Machine) (req : Request) (access : Word) (v : VumapVir) (size offset : Nat) :
    Except Errno (Nat × Word) :=
  if req.endpt ≠ self then
    match verifyGrant m.grants (maxIndirectDepth + 1) req.endpt m.caller v.u (BitVec.ofNat 32 size) access
      (BitVec.ofNat 32 offset) with
    | some (.ok addr granter) => .ok (addr.toNat, granter)
    | some (.err e) => .error e
    | none => .error .eloop -- the loop of verify_grant always ends
  else .ok (wrap (v.u.toNat + offset), m.caller)

/-- What a missing page comes to: `EFAULT` if it is to be read, otherwise `vm_check_range`. -/
def absent (m : Machine) (access : Word) : Status :=
  if access &&& cpfRead ≠ 0 then .err .efault
  else
    match m.resumed with
    | some e => .err e
    | none => .vmsuspend

/-- The inner loop, with room for `room` more entries. -/
def mapRange (m : Machine) (turns : Nat) (access : Word) (e : Word) :
    Nat → Nat → Nat → List VumapPhys → Option (Except Status (List VumapPhys))
  | 0, _, _, pvec => some (.ok pvec)
  | room + 1, virAddr, size, pvec =>
    if size = 0 then some (.ok pvec)
    else
      match vmLookupRange (m.lookup e) turns virAddr size with
      | none => none
      | some none => some (.error (m.absent access))
      | some (some (phys, chunk)) =>
        m.mapRange turns access e room (wrap (virAddr + chunk)) (size - chunk) (pvec ++ [⟨phys, chunk⟩])

/-- The outer loop, over these elements of the input vector. -/
def mapRanges (m : Machine) (turns : Nat) (req : Request) (access : Word) (pmax : Nat) :
    List Nat → Nat → List VumapPhys → Option (Except Status (List VumapPhys))
  | [], _, pvec => some (.ok pvec)
  | i :: is, offset, pvec =>
    if pmax ≤ pvec.length then some (.ok pvec)
    else
      let size := (req.vvec i).size
      if size ≤ offset then some (.error (.err .einval))
      else
        match m.resolve req access (req.vvec i) (size - offset) offset with
        | .error e => some (.error (.err e))
        | .ok (virAddr, e) =>
          match m.mapRange turns access e (pmax - pvec.length) virAddr (size - offset) pvec with
          | some (.ok pvec) => m.mapRanges turns req access pmax is 0 pvec
          | res => res

/-- On `OK` the result is what is copied out; `none`: a loop has not ended, or an assertion fails.
-/
def doVumap (m : Machine) (turns : Nat) (req : Request) : Option (Except Status (List VumapPhys)) :=
  if req.vcount ≤ 0 ∨ req.pmax ≤ 0 then some (.error (.err .einval))
  else
    let vcount := min req.vcount.toNat mapvecNr
    let pmax := min req.pmax.toNat mapvecNr
    match accessFlags req.access with
    | none => some (.error (.err .einval))
    | some access =>
      if m.readable vcount then
        match m.mapRanges turns req access pmax (List.range vcount) req.offset [] with
        | some (.ok pvec) =>
          if pvec.length = 0 then none
          else
            match m.copyOut pvec.length with
            | none => some (.ok pvec)
            | some e => some (.error (.err e))
        | res => res
      else some (.error (.err .efault))

end Machine

/-! ## What the call should return -/

/-- The bytes from `v` on are at the consecutive addresses from `phys` on. -/
def Contiguous (lookup : Nat → Option Nat) (v phys n : Nat) : Prop :=
  ∀ j < n, lookup (wrap (v + j)) = some (wrap (phys + j))

/-- The longest run of consecutive physical addresses from `v` on, up to a size. -/
def Longest (lookup : Nat → Option Nat) (v bytes : Nat) : Chunk → Prop
  | none => lookup v = none
  | some (phys, chunk) => 0 < chunk ∧ chunk ≤ bytes ∧ Contiguous lookup v phys chunk ∧
      (chunk < bytes → lookup (wrap (v + chunk)) ≠ some (wrap (phys + chunk)))

/-- `vm_lookup_range` returns it. -/
def FindsLongest (lookup : Nat → Option Nat) (v bytes : Nat) : Prop :=
  ∃ turns chunk, vmLookupRange lookup turns v bytes = some chunk ∧ Longest lookup v bytes chunk

/-- The byte addresses that an entry lists. -/
def VumapPhys.bytes (p : VumapPhys) : List (Option Nat) := (List.range p.size).map fun j => some (wrap (p.addr + j))

namespace Machine

/-- The translations of the bytes of a range, from its offset on. -/
def rangeBytes (m : Machine) (req : Request) (access : Word) (i offset : Nat) : List (Option Nat) :=
  let size := (req.vvec i).size - offset
  match m.resolve req access (req.vvec i) size offset with
  | .error _ => List.replicate size none
  | .ok (virAddr, e) => (List.range size).map fun j => m.lookup e (wrap (virAddr + j))

/-- The translations of the bytes of these ranges; the offset is for the first one. -/
def rangesBytes (m : Machine) (req : Request) (access : Word) : List Nat → Nat → List (Option Nat)
  | [], _ => []
  | i :: is, offset => m.rangeBytes req access i offset ++ m.rangesBytes req access is 0

/-- `OK` lists the addresses of the bytes of the input, or of a part from the start if there is no
more room. -/
def MapsExactly (m : Machine) (req : Request) : Prop :=
  ∀ turns pvec, m.doVumap turns req = some (.ok pvec) →
    1 ≤ pvec.length ∧ pvec.length ≤ min req.pmax.toNat mapvecNr ∧ (∀ p ∈ pvec, 0 < p.size) ∧
      ∃ access, accessFlags req.access = some access ∧
        ∃ n, 0 < n ∧ n ≤ (m.rangesBytes req access (List.range req.vcount.toNat) req.offset).length ∧
          pvec.flatMap VumapPhys.bytes =
            (m.rangesBytes req access (List.range req.vcount.toNat) req.offset).take n ∧
          (n = (m.rangesBytes req access (List.range req.vcount.toNat) req.offset).length ∨
            pvec.length = min req.pmax.toNat mapvecNr)

end Machine

/-! ## Translation within a page -/

section Lookup

variable {mem : Nat → Nat} {root : Nat} {lookup : Nat → Option Nat} {v phys bytes len turns : Nat}

theorem wrap_wrap_add (a b : Nat) : wrap (wrap a + b) = wrap (a + b) := Nat.mod_add_mod ..

/-- Within a page the translation goes on byte by byte. -/
def PageWise (lookup : Nat → Option Nat) : Prop :=
  ∀ v j, v % i386PageSize + j < i386PageSize → lookup (v + j) = (lookup v).map fun phys => wrap (phys + j)

theorem vmLookup_pageWise (mem : Nat → Nat) (root : Nat) : PageWise (vmLookup mem root) := by
  intro v j hj
  unfold i386PageSize at hj
  have hdir : (v + j) >>> 22 = v >>> 22 := by
    rw [Nat.shiftRight_eq_div_pow, Nat.shiftRight_eq_div_pow]
    omega
  have hpage : (v + j) >>> 12 = v >>> 12 := by
    rw [Nat.shiftRight_eq_div_pow, Nat.shiftRight_eq_div_pow]
    omega
  have hbig : (v + j) &&& i386VmOffsetMask4mb = (v &&& i386VmOffsetMask4mb) + j := by
    have hmask : i386VmOffsetMask4mb = 2 ^ 22 - 1 := rfl
    rw [hmask, Nat.and_two_pow_sub_one_eq_mod, Nat.and_two_pow_sub_one_eq_mod]
    omega
  have hsmall : (v + j) % i386PageSize = v % i386PageSize + j := by
    unfold i386PageSize
    omega
  unfold vmLookup
  rw [hdir, hpage, hbig, hsmall]
  dsimp only
  split_ifs
  · rfl
  · rw [map_some, wrap_wrap_add, Nat.add_assoc]
  · rfl
  · rw [map_some, wrap_wrap_add, Nat.add_assoc]

/-! ## The longest run -/

/-- The last length at the end of a page before the length wraps around. -/
def maxLen (v : Nat) : Nat := 2 ^ 32 - 1 - (v + 4095) % 4096

/-- All of the address space is mapped to consecutive addresses, and the range goes once around. -/
def Around (lookup : Nat → Option Nat) (v bytes : Nat) : Prop :=
  ∃ phys, lookup v = some phys ∧ Contiguous lookup v phys (2 ^ 32) ∧ maxLen v < bytes

theorem Contiguous.mono (h : Contiguous lookup v phys len) {n : Nat} (hn : n ≤ len) :
    Contiguous lookup v phys n := fun j hj => h j (Nat.lt_of_lt_of_le hj hn)

theorem Contiguous.page (hpage : PageWise lookup) (h : Contiguous lookup v phys len)
    (halign : (v + len) % 4096 = 0) (hnext : lookup (wrap (v + len)) = some (wrap (phys + len))) :
    Contiguous lookup v phys (len + 4096) := by
  intro j hj
  by_cases hin : j < len
  · exact h j hin
  have heq : wrap (v + j) = wrap (v + len) + (j - len) := by
    unfold wrap
    omega
  have hoff : wrap (v + len) % i386PageSize + (j - len) < i386PageSize := by
    unfold wrap i386PageSize
    omega
  rw [heq, hpage _ _ hoff, hnext, map_some, wrap_wrap_add, Nat.add_assoc,
    Nat.add_sub_cancel' (not_lt.mp hin)]

theorem contiguous_first (hpage : PageWise lookup) (hv : v < 2 ^ 32) (hphys : lookup v = some phys) :
    Contiguous lookup v phys (4096 - v % 4096) := by
  intro j hj
  have heq : wrap (v + j) = v + j := by
    unfold wrap
    omega
  rw [heq, hpage v j (by unfold i386PageSize; omega), hphys, map_some]

theorem lookupRangeLoop_spec (hpage : PageWise lookup) (haround : ¬ Around lookup v bytes)
    (hphys : lookup v = some phys) (left : Nat) (hlen : 0 < len) (hlt : len < 2 ^ 32)
    (halign : (v + len) % 4096 = 0) (hleft : 2 ^ 32 ≤ len + 4096 * left)
    (hrun : Contiguous lookup v phys len) :
    ∃ len', lookupRangeLoop lookup bytes left (wrap (v + len)) (wrap (phys + len)) len = some len' ∧
      0 < len' ∧ Contiguous lookup v phys (min bytes len') ∧
      (min bytes len' < bytes → lookup (wrap (v + min bytes len')) ≠ some (wrap (phys + min bytes len'))) := by
  induction left generalizing len with
  | zero => omega
  | succ left ih =>
    rw [lookupRangeLoop]
    by_cases hmore : len < bytes
    · rw [if_pos hmore]
      have hmin : min bytes len = len := by omega
      cases hnext : lookup (wrap (v + len)) with
      | none => exact ⟨len, rfl, hlen, hmin.symm ▸ hrun, fun _ => by simp [hmin, hnext]⟩
      | some next =>
        dsimp only
        by_cases hcons : wrap (phys + len) = next
        · rw [if_neg (not_not.mpr hcons)]
          have hgrown := hrun.page hpage halign (hcons.symm ▸ hnext)
          have hfits : len + 4096 < 2 ^ 32 := by
            by_contra hover
            refine haround ⟨phys, hphys, hgrown.mono (not_lt.mp hover), ?_⟩
            unfold maxLen
            omega
          have hv : wrap (wrap (v + len) + i386PageSize) = wrap (v + (len + 4096)) := by
            rw [wrap_wrap_add, Nat.add_assoc]
            rfl
          have hp : wrap (wrap (phys + len) + i386PageSize) = wrap (phys + (len + 4096)) := by
            rw [wrap_wrap_add, Nat.add_assoc]
            rfl
          have hl : wrap (len + i386PageSize) = len + 4096 := by
            unfold wrap i386PageSize
            omega
          rw [hv, hp, hl]
          exact ih (Nat.succ_pos _) hfits (by omega) (by omega) hgrown
        · rw [if_pos hcons]
          refine ⟨len, rfl, hlen, hmin.symm ▸ hrun, fun _ => ?_⟩
          rw [hmin, hnext]
          exact fun heq => hcons (some.inj heq).symm
    · rw [if_neg hmore]
      have hmin : min bytes len = bytes := by omega
      exact ⟨len, rfl, hlen, hmin.symm ▸ hrun.mono (not_lt.mp hmore), fun hlt => by omega⟩

theorem lookupRangeLoop_around (hrun : Contiguous lookup v phys (2 ^ 32)) (hbytes : maxLen v < bytes)
    (turns : Nat) (halign : (v + len) % 4096 = 0) (hlt : len < 2 ^ 32) :
    lookupRangeLoop lookup bytes turns (wrap (v + len)) (wrap (phys + len)) len = none := by
  induction turns generalizing len with
  | zero => rfl
  | succ turns ih =>
    have hmore : len < bytes := by
      unfold maxLen at hbytes
      omega
    have hv : wrap (wrap (v + len) + i386PageSize) = wrap (v + wrap (len + 4096)) := by
      unfold wrap i386PageSize
      omega
    have hp : wrap (wrap (phys + len) + i386PageSize) = wrap (phys + wrap (len + 4096)) := by
      unfold wrap i386PageSize
      omega
    have hl : wrap (len + i386PageSize) = wrap (len + 4096) := rfl
    rw [lookupRangeLoop, if_pos hmore, hrun len hlt]
    dsimp only
    rw [if_neg (not_not.mpr rfl), hv, hp, hl]
    refine ih ?_ (Nat.mod_lt _ (by decide))
    unfold wrap
    omega

theorem findsLongest_iff (hpage : PageWise lookup) (hv : v < 2 ^ 32) (hbytes : 0 < bytes) :
    FindsLongest lookup v bytes ↔ ¬ Around lookup v bytes := by
  have halign : (v + (4096 - v % 4096)) % 4096 = 0 := by omega
  constructor
  · rintro ⟨turns, chunk, hrun, -⟩ ⟨phys, hphys, hall, hlong⟩
    unfold vmLookupRange at hrun
    rw [hphys] at hrun
    dsimp only [i386PageSize] at hrun
    rw [lookupRangeLoop_around hall hlong turns halign (by omega)] at hrun
    cases hrun
  intro haround
  cases hphys : lookup v with
  | none => exact ⟨0, none, by simp [vmLookupRange, hphys], hphys⟩
  | some phys =>
    obtain ⟨len, hloop, hpos, hcont, hstop⟩ := lookupRangeLoop_spec hpage haround hphys (2 ^ 20)
      (by omega) (by omega) halign (by omega) (contiguous_first hpage hv hphys)
    refine ⟨2 ^ 20, some (phys, min bytes len), ?_, by omega, by omega, hcont, hstop⟩
    unfold vmLookupRange
    rw [hphys]
    dsimp only [i386PageSize]
    rw [hloop]

theorem lookupRangeLoop_more {a b x : Nat} (h : lookupRangeLoop lookup bytes turns a b len = some x) (k : Nat) :
    lookupRangeLoop lookup bytes (turns + k) a b len = some x := by
  induction turns generalizing a b len with
  | zero => cases h
  | succ turns ih =>
    rw [Nat.succ_add, lookupRangeLoop]
    rw [lookupRangeLoop] at h
    split at h
    · next hmore =>
      rw [if_pos hmore]
      cases hnext : lookup a with
      | none => rwa [hnext] at h
      | some next =>
        rw [hnext] at h
        dsimp only at h ⊢
        split at h
        · next hne => rwa [if_pos hne]
        · next heq =>
          rw [if_neg heq]
          exact ih h
    · next hdone => rwa [if_neg hdone]

theorem vmLookupRange_more {chunk : Chunk} (h : vmLookupRange lookup turns v bytes = some chunk) (k : Nat) :
    vmLookupRange lookup (turns + k) v bytes = some chunk := by
  unfold vmLookupRange at h ⊢
  cases hphys : lookup v with
  | none => rwa [hphys] at h
  | some phys =>
    rw [hphys] at h
    dsimp only at h ⊢
    split at h
    · cases h
    · next len hloop =>
      rw [lookupRangeLoop_more hloop k]
      exact h

theorem longest_of_vmLookupRange (hpage : PageWise lookup) (hv : v < 2 ^ 32) (hbytes : 0 < bytes) {chunk : Chunk}
    (h : vmLookupRange lookup turns v bytes = some chunk) : Longest lookup v bytes chunk := by
  by_cases haround : Around lookup v bytes
  · -- the loop does not end
    obtain ⟨phys, hphys, hall, hlong⟩ := haround
    unfold vmLookupRange at h
    rw [hphys] at h
    dsimp only [i386PageSize] at h
    rw [lookupRangeLoop_around hall hlong turns (by omega) (by omega)] at h
    cases h
  obtain ⟨turns', chunk', h', hlongest⟩ := (findsLongest_iff hpage hv hbytes).mpr haround
  have hmore := vmLookupRange_more h turns'
  have hmore' := vmLookupRange_more h' turns
  rw [Nat.add_comm, hmore] at hmore'
  cases hmore'
  exact hlongest

end Lookup

/-! ## The vector -/

namespace Machine

variable {m : Machine} {req : Request} {access e : Word} {turns room virAddr size offset pmax : Nat}
  {pvec pvec' : List VumapPhys}

theorem lookup_pageWise (m : Machine) (e : Word) : PageWise (m.lookup e) :=
  vmLookup_pageWise m.mem (m.cr3 (endpointP e))

theorem bytes_of_contiguous {lookup : Nat → Option Nat} {v phys n : Nat} (h : Contiguous lookup v phys n) :
    VumapPhys.bytes ⟨phys, n⟩ = (List.range n).map fun j => lookup (wrap (v + j)) := by
  unfold VumapPhys.bytes
  refine map_congr_left fun j hj => ?_
  exact (h j (mem_range.mp hj)).symm

theorem mapRange_spec (h : m.mapRange turns access e room virAddr size pvec = some (.ok pvec'))
    (hv : virAddr < 2 ^ 32) :
    ∃ new n, pvec' = pvec ++ new ∧ n ≤ size ∧
      new.flatMap VumapPhys.bytes = (List.range n).map (fun j => m.lookup e (wrap (virAddr + j))) ∧
      (∀ p ∈ new, 0 < p.size) ∧ new.length ≤ room ∧ (n = size ∨ new.length = room) ∧
      (0 < room → 0 < size → 0 < n ∧ 0 < new.length) := by
  induction room generalizing virAddr size pvec with
  | zero =>
    cases h
    exact ⟨[], 0, by simp, Nat.zero_le _, rfl, by simp, le_rfl, .inr rfl, fun h => absurd h (lt_irrefl _)⟩
  | succ room ih =>
    rw [mapRange] at h
    split at h
    · next hzero =>
      cases h
      exact ⟨[], 0, by simp, Nat.zero_le _, rfl, by simp, Nat.zero_le _, .inl hzero.symm, fun _ h => by omega⟩
    next hsize =>
    have hpos := Nat.pos_of_ne_zero hsize
    cases hrange : vmLookupRange (m.lookup e) turns virAddr size with
    | none => simp [hrange] at h
    | some chunk =>
      rw [hrange] at h
      have hlongest := longest_of_vmLookupRange (m.lookup_pageWise e) hv hpos hrange
      cases chunk with
      | none => cases h
      | some run =>
        obtain ⟨phys, chunk⟩ := run
        obtain ⟨hchunk, hle, hcont, -⟩ := hlongest
        obtain ⟨new, n, hnew, hn, hbytes, hsizes, hroom, hdone, -⟩ := ih h (Nat.mod_lt _ (by decide))
        refine ⟨⟨phys, chunk⟩ :: new, chunk + n, by simp [hnew], by omega, ?_, ?_, Nat.succ_le_succ hroom, ?_,
          fun _ _ => ⟨by omega, Nat.succ_pos _⟩⟩
        · rw [flatMap_cons, bytes_of_contiguous hcont, hbytes, range_add, map_append, List.map_map]
          congr 1
          refine map_congr_left fun j _ => ?_
          rw [wrap_wrap_add, Nat.add_assoc]
          rfl
        · intro p hp
          obtain rfl | hp := mem_cons.mp hp
          · exact hchunk
          · exact hsizes p hp
        · obtain hdone | hdone := hdone
          · exact .inl (by omega)
          · exact .inr (congrArg Nat.succ hdone)

theorem resolve_lt {v : VumapVir} {r : Nat × Word} (h : m.resolve req access v size offset = .ok r) :
    r.1 < 2 ^ 32 := by
  unfold resolve at h
  split at h
  · split at h
    · next addr granter _ =>
      cases h
      exact addr.isLt
    · cases h
    · cases h
  · cases h
    exact Nat.mod_lt _ (by decide)

theorem length_rangeBytes (m : Machine) (req : Request) (access : Word) (i offset : Nat) :
    (m.rangeBytes req access i offset).length = (req.vvec i).size - offset := by
  unfold rangeBytes
  dsimp only
  split <;> simp

theorem mapRanges_spec (is : List Nat) (h : m.mapRanges turns req access pmax is offset pvec = some (.ok pvec'))
    (hle : pvec.length ≤ pmax) :
    ∃ new n, pvec' = pvec ++ new ∧ n ≤ (m.rangesBytes req access is offset).length ∧
      new.flatMap VumapPhys.bytes = (m.rangesBytes req access is offset).take n ∧
      (∀ p ∈ new, 0 < p.size) ∧ pvec'.length ≤ pmax ∧
      (n = (m.rangesBytes req access is offset).length ∧ is.length ≤ new.length ∨ pvec'.length = pmax) ∧
      (is ≠ [] → pvec.length < pmax → 0 < n ∧ 0 < new.length) := by
  induction is generalizing offset pvec with
  | nil =>
    cases h
    exact ⟨[], 0, by simp, le_rfl, rfl, by simp, hle, .inl ⟨rfl, le_rfl⟩, fun h => absurd rfl h⟩
  | cons i is ih =>
    rw [mapRanges] at h
    split at h
    · next hfull =>
      cases h
      exact ⟨[], 0, by simp, Nat.zero_le _, rfl, by simp, hle, .inr (Nat.le_antisymm hle hfull),
        fun _ hlt => absurd hfull (not_le.mpr hlt)⟩
    next hroom =>
    dsimp only at h
    split at h
    · cases h
    next hsize =>
    cases hresolve : m.resolve req access (req.vvec i) ((req.vvec i).size - offset) offset with
    | error err => simp [hresolve] at h
    | ok r =>
      obtain ⟨virAddr, e⟩ := r
      rw [hresolve] at h
      dsimp only at h
      split at h
      · next pvec1 hrange =>
        obtain ⟨new1, n1, hnew1, hn1, hbytes1, hsizes1, hroom1, hdone1, hpos1⟩ :=
          mapRange_spec hrange (resolve_lt hresolve)
        obtain ⟨hposn, hposnew⟩ := hpos1 (by omega) (by omega)
        have hlen1 : pvec1.length = pvec.length + new1.length := by rw [hnew1, length_append]
        obtain ⟨new2, n2, hnew2, hn2, hbytes2, hsizes2, hle2, hdone2, -⟩ := ih h (by omega)
        have hlen2 : pvec'.length = pvec1.length + new2.length := by rw [hnew2, length_append]
        have hhead : m.rangeBytes req access i offset =
            (List.range ((req.vvec i).size - offset)).map fun j => m.lookup e (wrap (virAddr + j)) := by
          unfold rangeBytes
          dsimp only
          rw [hresolve]
        have hlength := m.length_rangeBytes req access i offset
        have hsizes : ∀ p ∈ new1 ++ new2, 0 < p.size := fun p hp =>
          (mem_append.mp hp).elim (hsizes1 p) (hsizes2 p)
        have hfirst : new1.flatMap VumapPhys.bytes = (m.rangeBytes req access i offset).take n1 := by
          rw [hbytes1, hhead, ← map_take, take_range, Nat.min_eq_left hn1]
        have htotal : (m.rangesBytes req access (i :: is) offset).length =
            ((req.vvec i).size - offset) + (m.rangesBytes req access is 0).length := by
          rw [rangesBytes, length_append, hlength]
        by_cases hall : n1 = (req.vvec i).size - offset
        · -- the whole range, and what follows
          refine ⟨new1 ++ new2, n1 + n2, by rw [hnew2, hnew1, append_assoc], by omega, ?_, hsizes,
            hle2, ?_, fun _ _ => ⟨by omega, by rw [length_append]; omega⟩⟩
          · rw [flatMap_append, hfirst, hbytes2, rangesBytes, hall, ← hlength,
              take_length_add_append, take_length]
          · refine hdone2.imp (fun hdone => ⟨by omega, ?_⟩) id
            rw [length_append, length_cons]
            have := hdone.2
            omega
        -- there is no more room
        have hfull := hdone1.resolve_left hall
        have hnil : new2 = [] := length_eq_zero_iff.mp (by omega)
        refine ⟨new1, n1, by rw [hnew2, hnew1, hnil, append_nil], by omega, ?_, hsizes1, hle2,
          .inr (by omega), fun _ _ => ⟨hposn, hposnew⟩⟩
        rw [hfirst, rangesBytes, take_append_of_le_length (by omega)]
      · next hne => exact absurd h (hne pvec')

theorem rangesBytes_append (m : Machine) (req : Request) (access : Word) (is is' : List Nat) (offset : Nat)
    (hne : is ≠ []) : m.rangesBytes req access (is ++ is') offset =
      m.rangesBytes req access is offset ++ m.rangesBytes req access is' 0 := by
  induction is generalizing offset with
  | nil => exact absurd rfl hne
  | cons i is ih =>
    rw [cons_append, rangesBytes, rangesBytes, append_assoc]
    congr 1
    cases is with
    | nil => rfl
    | cons j is => exact ih 0 (cons_ne_nil _ _)

theorem exact_of_mapRanges {vcount pmax : Nat} (hvcount : 0 < vcount) (hpmax : 0 < pmax)
    (h : m.mapRanges turns req access (min pmax mapvecNr) (List.range (min vcount mapvecNr)) offset [] =
      some (.ok pvec)) :
    1 ≤ pvec.length ∧ pvec.length ≤ min pmax mapvecNr ∧ (∀ p ∈ pvec, 0 < p.size) ∧
      ∃ n, 0 < n ∧ n ≤ (m.rangesBytes req access (List.range vcount) offset).length ∧
        pvec.flatMap VumapPhys.bytes = (m.rangesBytes req access (List.range vcount) offset).take n ∧
        (n = (m.rangesBytes req access (List.range vcount) offset).length ∨
          pvec.length = min pmax mapvecNr) := by
  have hnr : 0 < mapvecNr := by decide
  obtain ⟨new, n, hnew, hn, hbytes, hsizes, hle, hdone, hpos⟩ := mapRanges_spec _ h (Nat.zero_le _)
  rw [nil_append] at hnew
  subst hnew
  have hne : List.range (min vcount mapvecNr) ≠ [] := by
    rw [Ne, range_eq_nil]
    omega
  obtain ⟨hposn, hposlen⟩ := hpos hne (by rw [length_nil]; omega)
  rw [length_range] at hdone
  obtain hfew | hmany := Nat.le_total vcount mapvecNr
  · rw [Nat.min_eq_left hfew] at hn hbytes hdone
    exact ⟨hposlen, hle, hsizes, n, hposn, hn, hbytes, hdone.imp And.left id⟩
  rw [Nat.min_eq_right hmany] at hn hbytes hdone hne
  have hsplit : List.range vcount =
      List.range mapvecNr ++ (List.range (vcount - mapvecNr)).map (mapvecNr + ·) := by
    rw [← range_add, Nat.add_sub_cancel' hmany]
  rw [hsplit, rangesBytes_append _ _ _ _ _ _ hne, length_append]
  refine ⟨hposlen, hle, hsizes, n, hposn, by omega, ?_, .inr ?_⟩
  · rwa [take_append_of_le_length hn]
  -- as many entries as elements, so there is no more room
  obtain hdone | hdone := hdone
  · have := hdone.2
    omega
  · exact hdone

theorem mapsExactly (m : Machine) (req : Request) : m.MapsExactly req := by
  intro turns pvec h
  unfold doVumap at h
  split at h
  · cases h
  next hargs =>
  dsimp only at h
  split at h
  · cases h
  next access haccess =>
  split at h
  · split at h
    · next pvec1 hmap =>
      split at h
      · cases h
      split at h
      · cases h
        obtain ⟨hone, hle, hsizes, hexact⟩ := exact_of_mapRanges (by omega) (by omega) hmap
        exact ⟨hone, hle, hsizes, access, haccess, hexact⟩
      · cases h
    · next hne => exact absurd h (hne pvec)
  · cases h

/-- `OK` maps the input exactly; and `vm_lookup_range` finds the longest run just when the range
does not go once around a consecutive address space. -/
theorem vumap_exact_iff (m : Machine) (req : Request) (e : Word) {v bytes : Nat} (hv : v < 2 ^ 32)
    (hbytes : 0 < bytes) :
    m.MapsExactly req ∧ FindsLongest (m.lookup e) v bytes ↔ ¬ Around (m.lookup e) v bytes :=
  (and_iff_right (mapsExactly m req)).trans (findsLongest_iff (m.lookup_pageWise e) hv hbytes)

end Machine

/-- A page directory at address 0 that maps everything in pages of 4 MB to its own address. -/
def identity : Machine where
  caller := 0
  grants := ⟨fun _ => ⟨true, 0, false, 0, 0⟩, fun _ _ => none⟩
  mem := fun a => a / 4 * 0x400000 + i386VmPresent + i386VmBigpage
  cr3 := fun _ => 0
  readable := fun _ => true
  resumed := none
  copyOut := fun _ => none

/-- The page at `0x1000`. -/
theorem identity_page : identity.MapsExactly ⟨self, 1, 0, 1, 1, fun _ => ⟨0x1000, 0x1000⟩⟩ ∧
    FindsLongest (identity.lookup 0) 0x1000 0x1000 := by
  refine (identity.vumap_exact_iff _ 0 (by decide) (by decide)).mpr ?_
  rintro ⟨phys, -, -, hlong⟩
  exact absurd hlong (by decide)

theorem lookup_identity {v : Nat} (hv : v < 2 ^ 32) : identity.lookup 0 v = some v := by
  have hpde : ∀ k < 1024, (k * 0x400000 + i386VmPresent + i386VmBigpage) &&& i386VmPresent ≠ 0 ∧
      (k * 0x400000 + i386VmPresent + i386VmBigpage) &&& i386VmBigpage ≠ 0 ∧
      (k * 0x400000 + i386VmPresent + i386VmBigpage) &&& i386VmAddrMask4mb = k * 0x400000 := by
    decide +kernel
  have hmask : i386VmOffsetMask4mb = 2 ^ 22 - 1 := rfl
  have hindex : (0 + 4 * (v >>> 22)) / 4 = v / 2 ^ 22 := by
    rw [Nat.shiftRight_eq_div_pow]
    omega
  obtain ⟨hpresent, hbig, haddr⟩ := hpde (v / 2 ^ 22) (by omega)
  unfold Machine.lookup vmLookup identity
  dsimp only
  rw [hindex, if_neg hpresent, if_pos hbig, haddr, hmask, Nat.and_two_pow_sub_one_eq_mod]
  unfold wrap
  congr 1
  omega

/-- All of the address space at once: the length wraps around to 0 and the loop does not end. -/
theorem identity_not_found : ¬ FindsLongest (identity.lookup 0) 0 0xFFFFFFFF := by
  have haround : Around (identity.lookup 0) 0 0xFFFFFFFF :=
    ⟨0, lookup_identity (by decide), fun j hj => lookup_identity (Nat.mod_lt _ (by decide)), by decide⟩
  exact fun h => ((findsLongest_iff (identity.lookup_pageWise 0) (by decide) (by decide)).mp h) haround

end HardenedMinix.Vumap
