import HardenedMinix.Mfs.SuperBlock

/-!
# The bitmaps

`alloc_bit` looks for a clear bit from the middle on and around, and sets it; `free_bit` clears a
bit. The words are in the byte order of the file system. `none` is a panic.
-/

namespace HardenedMinix.Mfs

open BitVec

/-! ## The code -/

inductive Map
  | IMAP
  | ZMAP
  deriving DecidableEq, Repr

abbrev Chunks := Nat → Nat → BitVec 32

def fsBitmapChunks (b : Nat) : Nat := b / 4

def fsBitchunkBits : Nat := 32

def fsBitsPerBlock (b : Nat) : Nat := fsBitmapChunks b * fsBitchunkBits

/-- The number of values of a `bit_t`. -/
def bitRange : Nat := 4294967296

/-- The loop that looks for a clear bit of a word. -/
def firstClear (k : BitVec 32) : Nat → Nat → Nat
  | 0, i => i
  | n + 1, i => if k.getLsbD i then firstClear k n (i + 1) else i

namespace SuperBlock

variable (sp : SuperBlock) (map : Map)

/-- `start_block` -/
def mapStart : Nat :=
  match map with
  | .IMAP => startBlock
  | .ZMAP => startBlock + sp.imapBlocks

def mapBits : Nat :=
  match map with
  | .IMAP => (sp.ninodes + 1) % bitRange
  | .ZMAP => sp.zones - (sp.firstdatazone - 1)

def bitBlocks : Nat :=
  match map with
  | .IMAP => sp.imapBlocks
  | .ZMAP => sp.zmapBlocks

def bitsPerBlock : Nat := fsBitsPerBlock sp.blockSize

def chunksPerBlock : Nat := fsBitmapChunks sp.blockSize

/-- The words of a block: the first one that is not full has a free bit, or there is none that is in
the map. -/
def scanWords (dev : Chunks) (block : Nat) : Nat → Nat → Option (Nat × Nat × Nat)
  | 0, _ => none
  | left + 1, word =>
    let wptr := dev (sp.mapStart map + block) word
    if wptr = allOnes 32 then scanWords dev block left (word + 1)
    else
      let i := firstClear (conv4 sp.native wptr) fsBitchunkBits 0
      let b := (block * sp.bitsPerBlock + word * fsBitchunkBits + i) % bitRange
      if sp.mapBits map ≤ b then none else some (word, i, b)

/-- The blocks of the map, with `bcount`. -/
def searchBlocks (dev : Chunks) : Nat → Nat → Nat → Option (Nat × Nat × Nat × Nat)
  | 0, _, _ => none
  | bcount + 1, block, word =>
    match sp.scanWords map dev block (sp.chunksPerBlock - word) word with
    | some found => some (block, found)
    | none => searchBlocks dev bcount (if sp.bitBlocks map ≤ block + 1 then 0 else block + 1) 0

def setWord (dev : Chunks) (block word : Nat) (k : BitVec 32) : Chunks := fun block' word' =>
  if block' = block ∧ word' = word then conv4 sp.native k else dev block' word'

/-- 0 is `NO_BIT`. -/
def allocBit (dev : Chunks) (origin : Nat) : Option (Nat × Chunks) :=
  if sp.rdOnly then none
  else
    let origin := if sp.mapBits map ≤ origin then 0 else origin
    let block := origin / sp.bitsPerBlock
    let word := origin % sp.bitsPerBlock / fsBitchunkBits
    match sp.searchBlocks map dev (sp.bitBlocks map + 1) block word with
    | none => some (0, dev)
    | some (block, word, i, b) =>
      let k := conv4 sp.native (dev (sp.mapStart map + block) word)
      some (b, sp.setWord dev (sp.mapStart map + block) word (k ||| twoPow 32 i))

def freeBit (dev : Chunks) (bitReturned : Nat) : Option Chunks :=
  if sp.rdOnly then none
  else
    let block := bitReturned / sp.bitsPerBlock
    let word := bitReturned % sp.bitsPerBlock / fsBitchunkBits
    let bit := bitReturned % fsBitchunkBits
    let k := conv4 sp.native (dev (sp.mapStart map + block) word)
    if k.getLsbD bit then
      some (sp.setWord dev (sp.mapStart map + block) word (k &&& ~~~ twoPow 32 bit))
    else none

/-! ## What it should do -/

/-- The number of bits that the map should have. -/
def bitCount : Nat :=
  match map with
  | .IMAP => sp.ninodes + 1
  | .ZMAP => sp.zones - (sp.firstdatazone - 1)

def bit (dev : Chunks) (n : Nat) : Bool :=
  (conv4 sp.native (dev (sp.mapStart map + n / sp.bitsPerBlock)
    (n % sp.bitsPerBlock / fsBitchunkBits))).getLsbD (n % fsBitchunkBits)

/-- One bit of the map, in a block of the map, has got the value `v`, and no other bit of any block
has changed. -/
structure Sets (dev dev' : Chunks) (n : Nat) (v : Bool) : Prop where
  inside : n / sp.bitsPerBlock < sp.bitBlocks map
  bits : ∀ block word, ∀ i < fsBitchunkBits, (conv4 sp.native (dev' block word)).getLsbD i =
    if block = sp.mapStart map + n / sp.bitsPerBlock ∧ word = n % sp.bitsPerBlock / fsBitchunkBits ∧
        i = n % fsBitchunkBits then v
    else (conv4 sp.native (dev block word)).getLsbD i

/-- `alloc_bit` fails if and only if no bit is clear; otherwise it sets one that is. -/
def AllocExact (dev : Chunks) (origin : Nat) : Prop :=
  ∃ res dev', sp.allocBit map dev origin = some (res, dev') ∧
    (res = 0 ↔ ∀ n < sp.bitCount map, sp.bit map dev n = true) ∧
    (res = 0 → dev' = dev) ∧
    (res ≠ 0 → res < sp.bitCount map ∧ sp.bit map dev res = false ∧ sp.Sets map dev dev' res true)

/-- `free_bit` clears the bit. -/
def FreeExact (dev : Chunks) (n : Nat) : Prop :=
  ∃ dev', sp.freeBit map dev n = some dev' ∧ sp.Sets map dev dev' n false

/-- Both are exact, whatever is in the map. -/
def Exact : Prop :=
  ∀ dev, sp.bit map dev 0 = true →
    (∀ origin < bitRange, sp.AllocExact map dev origin) ∧
      ∀ n < sp.bitCount map, sp.bit map dev n = true → sp.FreeExact map dev n

/-- The blocks of the map have room for its bits, and the numbers of these bits fit in 32 bits. -/
structure Covered : Prop where
  room : sp.bitCount map ≤ sp.bitBlocks map * sp.bitsPerBlock
  count : sp.bitCount map < bitRange
  range : sp.bitBlocks map * sp.bitsPerBlock ≤ bitRange

end SuperBlock

/-! ## Words -/

section Words

variable {k : BitVec 32} {native : Bool} {x : BitVec 32}

theorem firstClear_spec : ∀ n i, i + n = fsBitchunkBits → (∃ j, i ≤ j ∧ j < fsBitchunkBits ∧ k.getLsbD j = false) →
    firstClear k n i < fsBitchunkBits ∧ k.getLsbD (firstClear k n i) = false ∧
      ∀ j, i ≤ j → j < firstClear k n i → k.getLsbD j = true := by
  intro n
  induction n with
  | zero =>
    rintro i hi ⟨j, hij, hj, -⟩
    omega
  | succ n ih =>
    rintro i hi ⟨j, hij, hj, hclear⟩
    unfold firstClear
    cases hbit : k.getLsbD i with
    | false =>
      rw [if_neg (by simp)]
      exact ⟨by omega, hbit, fun j hj hlt => by omega⟩
    | true =>
      rw [if_pos rfl]
      have hne : j ≠ i := by
        rintro rfl
        rw [hbit] at hclear
        cases hclear
      obtain ⟨hlt, hfound, hbefore⟩ := ih (i + 1) (by omega) ⟨j, by omega, hj, hclear⟩
      refine ⟨hlt, hfound, fun j' hj' hlt' => ?_⟩
      by_cases heq : j' = i
      · rw [heq]
        exact hbit
      · exact hbefore j' (by omega) hlt'

theorem conv4_allOnes (native : Bool) : conv4 native (allOnes 32) = allOnes 32 := by
  cases native <;> decide

theorem exists_clear (native : Bool) (hx : x ≠ allOnes 32) : ∃ j < fsBitchunkBits, (conv4 native x).getLsbD j = false := by
  by_contra hall
  push Not at hall
  refine hx ?_
  have hfull : conv4 native x = allOnes 32 := by
    apply eq_of_getLsbD_eq
    intro i hi
    rw [getLsbD_allOnes, decide_eq_true hi]
    simpa using hall i hi
  rw [← conv4_conv4 native x, hfull, conv4_allOnes]

end Words

/-! ## Places -/

namespace SuperBlock

section Places

variable {sp : SuperBlock} {map : Map} {dev dev' : Chunks} {n block word i : Nat}

theorem bitsPerBlock_eq : sp.bitsPerBlock = sp.chunksPerBlock * fsBitchunkBits := rfl

theorem Accepted.chunksPerBlock_pos (h : sp.Accepted) : 0 < sp.chunksPerBlock := by
  have hsize := h.ok.size
  unfold staticBlockSize at hsize
  unfold chunksPerBlock fsBitmapChunks
  omega

theorem Accepted.bitsPerBlock_pos (h : sp.Accepted) : 0 < sp.bitsPerBlock :=
  Nat.mul_pos h.chunksPerBlock_pos (by decide)

theorem Accepted.bitsPerBlock_lt (h : sp.Accepted) : sp.bitsPerBlock < bitRange := by
  have hsize := h.blockSize
  unfold bitsPerBlock fsBitsPerBlock fsBitmapChunks fsBitchunkBits bitRange
  omega

theorem Accepted.bitBlocks_pos (h : sp.Accepted) (map : Map) : 0 < sp.bitBlocks map := by
  cases map with
  | IMAP => exact h.imapBlocks.1
  | ZMAP => exact h.zmapBlocks.1

theorem Accepted.two_le_bitCount (h : sp.Accepted) (map : Map) : 2 ≤ sp.bitCount map := by
  cases map with
  | IMAP =>
    have hninodes := h.ninodes.1
    change 2 ≤ sp.ninodes + 1
    omega
  | ZMAP =>
    have hfirst := h.firstdatazone
    change 2 ≤ sp.zones - (sp.firstdatazone - 1)
    omega

theorem mapBits_eq (hcount : sp.bitCount map < bitRange) : sp.mapBits map = sp.bitCount map := by
  cases map with
  | IMAP => exact Nat.mod_eq_of_lt hcount
  | ZMAP => rfl

theorem place_of_eq (hword : word < sp.chunksPerBlock) (hi : i < fsBitchunkBits)
    (hn : n = block * sp.bitsPerBlock + word * fsBitchunkBits + i) :
    n / sp.bitsPerBlock = block ∧ n % sp.bitsPerBlock / fsBitchunkBits = word ∧ n % fsBitchunkBits = i := by
  have hrest : word * fsBitchunkBits + i < sp.bitsPerBlock := by
    have hmul : (word + 1) * fsBitchunkBits ≤ sp.chunksPerBlock * fsBitchunkBits := Nat.mul_le_mul_right _ hword
    rw [bitsPerBlock_eq]
    rw [Nat.add_mul] at hmul
    omega
  have hpos : 0 < sp.bitsPerBlock := by omega
  have hn' : n = sp.bitsPerBlock * block + (word * fsBitchunkBits + i) := by
    rw [hn, Nat.mul_comm, Nat.add_assoc]
  have hmod : n % sp.bitsPerBlock = word * fsBitchunkBits + i := by
    rw [hn', Nat.mul_add_mod, Nat.mod_eq_of_lt hrest]
  refine ⟨?_, ?_, ?_⟩
  · rw [hn', Nat.mul_add_div hpos, Nat.div_eq_of_lt hrest, Nat.add_zero]
  · rw [hmod]
    unfold fsBitchunkBits at *
    omega
  · have hdvd : n = fsBitchunkBits * (block * sp.chunksPerBlock + word) + i := by
      rw [hn, bitsPerBlock_eq, ← Nat.mul_assoc, ← Nat.add_mul, Nat.mul_comm]
    rw [hdvd, Nat.mul_add_mod, Nat.mod_eq_of_lt hi]

theorem place_eq (sp : SuperBlock) (n : Nat) :
    n / sp.bitsPerBlock * sp.bitsPerBlock + n % sp.bitsPerBlock / fsBitchunkBits * fsBitchunkBits +
      n % fsBitchunkBits = n := by
  have hmod : n % fsBitchunkBits = n % sp.bitsPerBlock % fsBitchunkBits := by
    rw [bitsPerBlock_eq, Nat.mod_mul_left_mod]
  have h1 := Nat.div_add_mod (n % sp.bitsPerBlock) fsBitchunkBits
  have h2 := Nat.div_add_mod n sp.bitsPerBlock
  rw [Nat.mul_comm] at h1 h2
  rw [hmod]
  omega

theorem Accepted.word_lt (h : sp.Accepted) (n : Nat) :
    n % sp.bitsPerBlock / fsBitchunkBits < sp.chunksPerBlock := by
  have hlt := Nat.mod_lt n h.bitsPerBlock_pos
  rw [bitsPerBlock_eq] at hlt
  exact (Nat.div_lt_iff_lt_mul (by decide)).mpr hlt

theorem bit_of_place (hword : word < sp.chunksPerBlock) (hi : i < fsBitchunkBits)
    (hn : n = block * sp.bitsPerBlock + word * fsBitchunkBits + i) :
    sp.bit map dev n = (conv4 sp.native (dev (sp.mapStart map + block) word)).getLsbD i := by
  obtain ⟨h1, h2, h3⟩ := place_of_eq hword hi hn
  unfold bit
  rw [h1, h2, h3]

theorem sets_setWord {v : Bool} {k : BitVec 32} (hinside : n / sp.bitsPerBlock < sp.bitBlocks map)
    (hk : ∀ i < fsBitchunkBits, k.getLsbD i = if i = n % fsBitchunkBits then v else
      (conv4 sp.native (dev (sp.mapStart map + n / sp.bitsPerBlock)
        (n % sp.bitsPerBlock / fsBitchunkBits))).getLsbD i) :
    sp.Sets map dev (sp.setWord dev (sp.mapStart map + n / sp.bitsPerBlock)
      (n % sp.bitsPerBlock / fsBitchunkBits) k) n v := by
  refine ⟨hinside, fun block word i hi => ?_⟩
  unfold setWord
  by_cases hplace : block = sp.mapStart map + n / sp.bitsPerBlock ∧ word = n % sp.bitsPerBlock / fsBitchunkBits
  · obtain ⟨rfl, rfl⟩ := hplace
    rw [if_pos ⟨rfl, rfl⟩, conv4_conv4, hk i hi]
    simp
  · rw [if_neg hplace, if_neg fun h => hplace ⟨h.1, h.2.1⟩]

theorem getLsbD_set (k : BitVec 32) (i j : Nat) (hj : j < fsBitchunkBits) :
    (k ||| twoPow 32 i).getLsbD j = if j = i then true else k.getLsbD j := by
  have hj' : j < 32 := hj
  rw [getLsbD_or, getLsbD_twoPow]
  by_cases heq : j = i
  · subst heq
    simp [hj']
  · have hne : ¬ i = j := fun h => heq h.symm
    simp [heq, hne]

theorem getLsbD_clear (k : BitVec 32) (i j : Nat) (hj : j < fsBitchunkBits) :
    (k &&& ~~~ twoPow 32 i).getLsbD j = if j = i then false else k.getLsbD j := by
  have hj' : j < 32 := hj
  rw [getLsbD_and, getLsbD_not, getLsbD_twoPow]
  by_cases heq : j = i
  · subst heq
    simp [hj']
  · have hne : ¬ i = j := fun h => heq h.symm
    simp [heq, hne, hj']

end Places

/-! ## The search -/

section Search

variable {sp : SuperBlock} {map : Map} {dev : Chunks} {n block word i b left bcount : Nat}

/-- What has been found is a clear bit of the map. -/
structure Found (sp : SuperBlock) (map : Map) (dev : Chunks) (block word i b : Nat) : Prop where
  inMap : block < sp.bitBlocks map
  inBlock : word < sp.chunksPerBlock
  inWord : i < fsBitchunkBits
  number : b = block * sp.bitsPerBlock + word * fsBitchunkBits + i
  count : b < sp.bitCount map
  clear : (conv4 sp.native (dev (sp.mapStart map + block) word)).getLsbD i = false

theorem Covered.mod_eq (h : sp.Covered map) (hblock : block < sp.bitBlocks map) (hword : word < sp.chunksPerBlock)
    (hi : i < fsBitchunkBits) :
    (block * sp.bitsPerBlock + word * fsBitchunkBits + i) % bitRange =
      block * sp.bitsPerBlock + word * fsBitchunkBits + i := by
  have hrest : word * fsBitchunkBits + i < sp.bitsPerBlock := by
    have hmul : (word + 1) * fsBitchunkBits ≤ sp.chunksPerBlock * fsBitchunkBits := Nat.mul_le_mul_right _ hword
    rw [bitsPerBlock_eq]
    rw [Nat.add_mul] at hmul
    omega
  have hmul : (block + 1) * sp.bitsPerBlock ≤ sp.bitBlocks map * sp.bitsPerBlock := Nat.mul_le_mul_right _ hblock
  have hrange := h.range
  rw [Nat.add_mul] at hmul
  exact Nat.mod_eq_of_lt (by omega)

/-- A bit that is found is clear, and if none is found all bits of the map from there on are set. -/
theorem scanWords_spec (dev : Chunks) (hcov : sp.Covered map) (hblock : block < sp.bitBlocks map) (word left : Nat)
    (hleft : word + left = sp.chunksPerBlock) :
    match sp.scanWords map dev block left word with
    | none => ∀ n, block * sp.bitsPerBlock + word * fsBitchunkBits ≤ n → n < (block + 1) * sp.bitsPerBlock →
        n < sp.bitCount map → sp.bit map dev n = true
    | some (w, i, b) => Found sp map dev block w i b := by
  have hmapBits := mapBits_eq hcov.count
  induction left generalizing word with
  | zero =>
    intro n hlo hhi _
    rw [Nat.add_mul, Nat.one_mul, bitsPerBlock_eq] at hhi
    rw [bitsPerBlock_eq] at hlo
    have heq : word = sp.chunksPerBlock := by omega
    rw [heq] at hlo
    omega
  | succ left ih =>
    have hword : word < sp.chunksPerBlock := by omega
    have hnext := ih (word + 1) (by omega)
    -- the place of a bit of this word
    have hplace (n : Nat) (hlo : block * sp.bitsPerBlock + word * fsBitchunkBits ≤ n)
        (hhi : n < block * sp.bitsPerBlock + (word + 1) * fsBitchunkBits) :
        ∃ j < fsBitchunkBits, n = block * sp.bitsPerBlock + word * fsBitchunkBits + j :=
      ⟨n - (block * sp.bitsPerBlock + word * fsBitchunkBits), by rw [Nat.add_mul] at hhi; omega, by omega⟩
    unfold scanWords
    dsimp only
    by_cases hfull : dev (sp.mapStart map + block) word = allOnes 32
    · rw [if_pos hfull]
      revert hnext
      cases hscan : sp.scanWords map dev block left (word + 1) with
      | some found => exact id
      | none =>
        intro hrest n hlo hhi hcount
        by_cases hhere : n < block * sp.bitsPerBlock + (word + 1) * fsBitchunkBits
        · obtain ⟨j, hj, hn⟩ := hplace n hlo hhere
          have hj' : j < 32 := hj
          rw [bit_of_place hword hj hn, hfull, conv4_allOnes, getLsbD_allOnes, decide_eq_true hj']
        · exact hrest n (Nat.not_lt.mp hhere) hhi hcount
    rw [if_neg hfull]
    obtain ⟨j, hj, hclear⟩ := exists_clear sp.native hfull
    obtain ⟨hlt, hfound, hbefore⟩ := firstClear_spec fsBitchunkBits 0 (Nat.zero_add _) ⟨j, Nat.zero_le _, hj, hclear⟩
    rw [hcov.mod_eq hblock hword hlt, hmapBits]
    split
    · next hnone =>
      split at hnone
      · next hend =>
        intro n hlo hhi hcount
        have hhere : n < block * sp.bitsPerBlock + (word + 1) * fsBitchunkBits := by
          rw [Nat.add_mul]
          omega
        obtain ⟨j', hj', hn⟩ := hplace n hlo hhere
        rw [bit_of_place hword hj' hn]
        exact hbefore j' (Nat.zero_le _) (by omega)
      · cases hnone
    next w i b hsome =>
    split at hsome
    · cases hsome
    · next hin =>
      cases hsome
      exact ⟨hblock, hword, hlt, rfl, Nat.not_le.mp hin, hfound⟩

theorem next_block (hblock : block < sp.bitBlocks map) :
    (if sp.bitBlocks map ≤ block + 1 then 0 else block + 1) = (block + 1) % sp.bitBlocks map := by
  split
  · have heq : block + 1 = sp.bitBlocks map := by omega
    rw [heq, Nat.mod_self]
  · exact (Nat.mod_eq_of_lt (by omega)).symm

theorem searchBlocks_some (hok : sp.Accepted) (hcov : sp.Covered map) (hblock : block < sp.bitBlocks map)
    (hword : word ≤ sp.chunksPerBlock) {blk w : Nat}
    (h : sp.searchBlocks map dev bcount block word = some (blk, w, i, b)) : Found sp map dev blk w i b := by
  induction bcount generalizing block word with
  | zero => cases h
  | succ bcount ih =>
    have hscan := scanWords_spec dev hcov hblock word (sp.chunksPerBlock - word) (by omega)
    unfold searchBlocks at h
    split at h
    · next found hfound =>
      cases h
      rw [hfound] at hscan
      exact hscan
    · refine ih ?_ (Nat.zero_le _) h
      rw [next_block hblock]
      exact Nat.mod_lt _ (hok.bitBlocks_pos map)

theorem searchBlocks_none (hok : sp.Accepted) (hblock : block < sp.bitBlocks map)
    (h : sp.searchBlocks map dev bcount block word = none) :
    ∀ k, 0 < k → k < bcount →
      sp.scanWords map dev ((block + k) % sp.bitBlocks map) (sp.chunksPerBlock - 0) 0 = none := by
  induction bcount generalizing block word with
  | zero =>
    intro k _ hk
    omega
  | succ bcount ih =>
    intro k hpos hk
    unfold searchBlocks at h
    split at h
    · cases h
    have hlt : (block + 1) % sp.bitBlocks map < sp.bitBlocks map := Nat.mod_lt _ (hok.bitBlocks_pos map)
    rw [next_block hblock] at h
    by_cases hone : k = 1
    · subst hone
      cases bcount with
      | zero => omega
      | succ bcount =>
        unfold searchBlocks at h
        split at h
        · cases h
        · assumption
    have hrest := ih hlt h (k - 1) (by omega) (by omega)
    have heq : (block + 1) % sp.bitBlocks map + (k - 1) = (block + 1) % sp.bitBlocks map + (k - 1) := rfl
    rw [Nat.mod_add_mod] at hrest
    have hsum : block + 1 + (k - 1) = block + k := by omega
    rwa [hsum] at hrest

end Search

end SuperBlock

end HardenedMinix.Mfs
