import HardenedMinix.Mfs.Bitmap

/-!
# When the bitmaps are exact

`read_super` does not compare the blocks of a map with its bits. If the blocks have room for the
bits and all their bits have numbers, `alloc_bit` and `free_bit` are exact.
-/

namespace HardenedMinix.Mfs

namespace SuperBlock

variable {sp : SuperBlock} {map : Map} {dev : Chunks} {n origin : Nat}

/-! ## Maps with room -/

section Exactness

theorem Found.place {block word i b : Nat} (h : Found sp map dev block word i b) :
    b / sp.bitsPerBlock = block ∧ b % sp.bitsPerBlock / fsBitchunkBits = word ∧ b % fsBitchunkBits = i :=
  place_of_eq h.inBlock h.inWord h.number

theorem Covered.inside (h : sp.Covered map) (hn : n < sp.bitCount map) :
    n / sp.bitsPerBlock < sp.bitBlocks map := by
  have hroom := h.room
  exact Nat.div_lt_of_lt_mul (by rw [Nat.mul_comm]; omega)

theorem exists_step {block target blocks : Nat} (hblock : block < blocks) (htarget : target < blocks) :
    ∃ k, 0 < k ∧ k < blocks + 1 ∧ (block + k) % blocks = target := by
  by_cases hlt : block < target
  · refine ⟨target - block, by omega, by omega, ?_⟩
    rw [Nat.add_sub_cancel' hlt.le, Nat.mod_eq_of_lt htarget]
  · refine ⟨target + blocks - block, by omega, by omega, ?_⟩
    have heq : block + (target + blocks - block) = target + blocks := by omega
    rw [heq, Nat.add_mod_right, Nat.mod_eq_of_lt htarget]

theorem allocExact_of_covered (hok : sp.Accepted) (hrw : sp.rdOnly = false) (hcov : sp.Covered map)
    (hzero : sp.bit map dev 0 = true) (origin : Nat) : sp.AllocExact map dev origin := by
  have hmapBits := mapBits_eq hcov.count
  set start := if sp.mapBits map ≤ origin then 0 else origin with hstart
  have hcount := hok.two_le_bitCount map
  have hstartlt : start < sp.bitCount map := by
    rw [hstart]
    split
    · omega
    · next hlt =>
      rw [hmapBits] at hlt
      omega
  have hblock : start / sp.bitsPerBlock < sp.bitBlocks map := hcov.inside hstartlt
  have hword := hok.word_lt start
  unfold AllocExact allocBit
  simp only [hrw, ← hstart]
  cases hsearch : sp.searchBlocks map dev (sp.bitBlocks map + 1) (start / sp.bitsPerBlock)
      (start % sp.bitsPerBlock / fsBitchunkBits) with
  | none =>
    refine ⟨0, dev, rfl, iff_of_true rfl fun n hn => ?_, fun _ => rfl, fun hne => absurd rfl hne⟩
    -- the block of the bit comes once among the blocks after the first step
    obtain ⟨k, hpos, hk, hmod⟩ := exists_step hblock (hcov.inside hn)
    have hnone := searchBlocks_none hok hblock hsearch k hpos hk
    rw [hmod] at hnone
    have hscan := scanWords_spec dev hcov (hcov.inside hn) 0 (sp.chunksPerBlock - 0) (by omega)
    rw [hnone] at hscan
    have hdiv := Nat.div_add_mod n sp.bitsPerBlock
    have hlt := Nat.mod_lt n hok.bitsPerBlock_pos
    rw [Nat.mul_comm] at hdiv
    refine hscan n ?_ ?_ hn
    · rw [Nat.zero_mul, Nat.add_zero]
      omega
    · rw [Nat.add_mul]
      omega
  | some found =>
    obtain ⟨block, word, i, b⟩ := found
    have hfound := searchBlocks_some hok hcov hblock hword.le hsearch
    obtain ⟨rfl, rfl, rfl⟩ := hfound.place
    have hclear : sp.bit map dev b = false := hfound.clear
    have hne : b ≠ 0 := by
      rintro rfl
      rw [hzero] at hclear
      cases hclear
    refine ⟨b, _, rfl, iff_of_false hne fun hall => ?_, fun heq => absurd heq hne,
      fun _ => ⟨hfound.count, hclear, sets_setWord hfound.inMap fun j hj => getLsbD_set _ _ j hj⟩⟩
    rw [hall b hfound.count] at hclear
    cases hclear

theorem freeExact_of_covered (hrw : sp.rdOnly = false) (hcov : sp.Covered map) (hn : n < sp.bitCount map)
    (hset : sp.bit map dev n = true) : sp.FreeExact map dev n := by
  refine ⟨_, ?_, sets_setWord (hcov.inside hn) fun j hj => getLsbD_clear _ _ j hj⟩
  unfold freeBit
  rw [if_neg (by simp [hrw])]
  exact if_pos hset

end Exactness

/-! ## Maps without room -/

section Failures

variable {block word i bcount left : Nat}

def allBut (sp : SuperBlock) (block word i : Nat) : Chunks := fun block' word' =>
  if block' = block ∧ word' = word then conv4 sp.native (~~~ BitVec.twoPow 32 i) else BitVec.allOnes 32

theorem allBut_bit (sp : SuperBlock) (block word i block' word' j : Nat) (hj : j < fsBitchunkBits) :
    (conv4 sp.native (allBut sp block word i block' word')).getLsbD j =
      !decide (block' = block ∧ word' = word ∧ j = i) := by
  have hj' : j < 32 := hj
  unfold allBut
  split
  · next h =>
    obtain ⟨rfl, rfl⟩ := h
    rw [conv4_conv4, BitVec.getLsbD_not, BitVec.getLsbD_twoPow]
    by_cases heq : j = i
    · subst heq
      simp [hj']
    · have hne : ¬ i = j := fun h => heq h.symm
      simp [hj', heq, hne]
  · next h =>
    rw [conv4_allOnes, BitVec.getLsbD_allOnes]
    have hne : ¬ (block' = block ∧ word' = word ∧ j = i) := fun h' => h ⟨h'.1, h'.2.1⟩
    simp [hj', hne]

theorem allBut_full (sp : SuperBlock) (i : Nat) {block word block' word' : Nat} (h : ¬ (block' = block ∧ word' = word)) :
    allBut sp block word i block' word' = BitVec.allOnes 32 := if_neg h

theorem allBut_ne (sp : SuperBlock) (block word : Nat) (hi : i < fsBitchunkBits) :
    allBut sp block word i block word ≠ BitVec.allOnes 32 := by
  intro heq
  have hbit := allBut_bit sp block word i block word i hi
  have hi' : i < 32 := hi
  rw [heq, conv4_allOnes, BitVec.getLsbD_allOnes, decide_eq_true hi'] at hbit
  simp at hbit

theorem firstClear_allBut (sp : SuperBlock) (block word : Nat) (hi : i < fsBitchunkBits) :
    firstClear (conv4 sp.native (allBut sp block word i block word)) fsBitchunkBits 0 = i := by
  have hbits (j : Nat) (hj : j < fsBitchunkBits) := allBut_bit sp block word i block word j hj
  obtain ⟨hlt, hclear, -⟩ := firstClear_spec fsBitchunkBits 0 (Nat.zero_add _)
    ⟨i, Nat.zero_le _, hi, by rw [hbits i hi]; simp⟩
  rw [hbits _ hlt] at hclear
  simpa using hclear

theorem scanWords_allBut (sp : SuperBlock) (map : Map) (block i : Nat) (hword : word + left = sp.chunksPerBlock)
    {target : Nat} (hle : word ≤ target)
    (htarget : target < sp.chunksPerBlock) (hi : i < fsBitchunkBits)
    (hcount : (block * sp.bitsPerBlock + target * fsBitchunkBits + i) % bitRange < sp.mapBits map) :
    sp.scanWords map (allBut sp (sp.mapStart map + block) target i) block left word =
      some (target, i, (block * sp.bitsPerBlock + target * fsBitchunkBits + i) % bitRange) := by
  induction left generalizing word with
  | zero => omega
  | succ left ih =>
    unfold scanWords
    dsimp only
    by_cases heq : word = target
    · subst heq
      rw [if_neg (allBut_ne sp _ _ hi), firstClear_allBut sp _ _ hi, if_neg (Nat.not_le.mpr hcount)]
    · rw [if_pos (allBut_full sp i fun h => heq h.2)]
      exact ih (by omega) (by omega)

theorem scanWords_full {target tword : Nat} (hne : block ≠ target) :
    sp.scanWords map (allBut sp (sp.mapStart map + target) tword i) block left word = none := by
  induction left generalizing word with
  | zero => rfl
  | succ left ih =>
    unfold scanWords
    dsimp only
    rw [if_pos (allBut_full sp i fun h => hne (by omega))]
    exact ih

theorem searchBlocks_allBut (sp : SuperBlock) (map : Map) (i : Nat) {target : Nat} (hle : block ≤ target) (htarget : target < sp.bitBlocks map)
    (hbcount : target < block + bcount) {tword : Nat} (htword : tword < sp.chunksPerBlock) (hi : i < fsBitchunkBits)
    (hcount : (target * sp.bitsPerBlock + tword * fsBitchunkBits + i) % bitRange < sp.mapBits map) :
    sp.searchBlocks map (allBut sp (sp.mapStart map + target) tword i) bcount block 0 =
      some (target, tword, i, (target * sp.bitsPerBlock + tword * fsBitchunkBits + i) % bitRange) := by
  induction bcount generalizing block with
  | zero => omega
  | succ bcount ih =>
    unfold searchBlocks
    by_cases heq : block = target
    · subst heq
      rw [scanWords_allBut sp map block i (by omega) (Nat.zero_le _) htword hi hcount]
    · rw [scanWords_full heq, if_neg (by omega)]
      exact ih (by omega) (by omega)

theorem searchBlocks_zero (hzero : sp.mapBits map = 0) : sp.searchBlocks map dev bcount block word = none := by
  have hscan (block left word : Nat) : sp.scanWords map dev block left word = none := by
    induction left generalizing word with
    | zero => rfl
    | succ left ih =>
      unfold scanWords
      dsimp only
      split
      · exact ih _
      · rw [hzero]
        exact if_pos (Nat.zero_le _)
  induction bcount generalizing block word with
  | zero => rfl
  | succ bcount ih =>
    unfold searchBlocks
    rw [hscan]
    exact ih

theorem bit_zero_allBut {tblock tword : Nat} (h : ¬ (tblock = sp.mapStart map ∧ tword = 0 ∧ i = 0)) :
    sp.bit map (allBut sp tblock tword i) 0 = true := by
  unfold bit
  rw [allBut_bit _ _ _ _ _ _ _ (Nat.mod_lt _ (by decide)), Nat.zero_div, Nat.zero_mod, Nat.zero_div, Nat.zero_mod]
  have hne : ¬ (sp.mapStart map + 0 = tblock ∧ 0 = tword ∧ 0 = i) := fun h' => h ⟨by omega, by omega, by omega⟩
  rw [decide_eq_false hne]
  rfl

theorem not_exact_of_room (hok : sp.Accepted) (hrw : sp.rdOnly = false) (hcount : sp.bitCount map < bitRange)
    (hroom : sp.bitBlocks map * sp.bitsPerBlock < sp.bitCount map) : ¬ sp.Exact map := by
  intro hexact
  have hblocks := hok.bitBlocks_pos map
  have hpos := Nat.mul_pos hblocks hok.bitsPerBlock_pos
  set n := sp.bitBlocks map * sp.bitsPerBlock with hn
  set target := allBut sp (sp.mapStart map + sp.bitBlocks map) 0 0 with htarget
  have hdiv : n / sp.bitsPerBlock = sp.bitBlocks map := Nat.mul_div_cancel _ hok.bitsPerBlock_pos
  have hmod : n % sp.bitsPerBlock = 0 := Nat.mul_mod_left _ _
  have hmapBits := mapBits_eq hcount
  have hnumber : (sp.bitBlocks map * sp.bitsPerBlock + 0 * fsBitchunkBits + 0) % bitRange = n := by
    rw [Nat.zero_mul, Nat.add_zero]
    exact Nat.mod_eq_of_lt (by omega)
  have hscan : sp.scanWords map target (sp.bitBlocks map) (sp.chunksPerBlock - 0) 0 = some (0, 0, n) := by
    rw [← hnumber]
    exact scanWords_allBut sp map (sp.bitBlocks map) 0 (by omega) le_rfl hok.chunksPerBlock_pos (by decide)
      (by rw [hnumber, hmapBits]; exact hroom)
  obtain ⟨res, dev', hcode, -, -, hfound⟩ := (hexact target (bit_zero_allBut fun h => by omega)).1 n (by omega)
  have hcode' : sp.allocBit map target n = some (n, sp.setWord target (sp.mapStart map + sp.bitBlocks map) 0
      (conv4 sp.native (target (sp.mapStart map + sp.bitBlocks map) 0) ||| BitVec.twoPow 32 0)) := by
    unfold allocBit
    rw [if_neg (by simp [hrw])]
    dsimp only
    rw [if_neg (by omega), hdiv, hmod, Nat.zero_div]
    unfold searchBlocks
    rw [hscan]
  rw [hcode'] at hcode
  cases hcode
  have hinside := (hfound (by omega)).2.2.inside
  rw [hdiv] at hinside
  exact lt_irrefl _ hinside

theorem not_exact_of_count (hok : sp.Accepted) (hrw : sp.rdOnly = false) (hcount : bitRange ≤ sp.bitCount map) :
    ¬ sp.Exact map := by
  intro hexact
  have hzero : sp.mapBits map = 0 := by
    cases map with
    | IMAP =>
      have hninodes := hok.ninodes.2
      change bitRange ≤ sp.ninodes + 1 at hcount
      change (sp.ninodes + 1) % bitRange = 0
      have heq : sp.ninodes + 1 = bitRange := by
        unfold bitRange at *
        omega
      rw [heq, Nat.mod_self]
    | ZMAP =>
      have hzones := hok.zones
      change bitRange ≤ sp.zones - (sp.firstdatazone - 1) at hcount
      unfold bitRange at hcount
      omega
  obtain ⟨res, dev', hcode, hnone, -⟩ :=
    (hexact (allBut sp (sp.mapStart map) 0 1) (bit_zero_allBut fun h => by omega)).1 0 (by decide)
  have hcode' : sp.allocBit map (allBut sp (sp.mapStart map) 0 1) 0 = some (0, allBut sp (sp.mapStart map) 0 1) := by
    unfold allocBit
    rw [if_neg (by simp [hrw])]
    dsimp only
    rw [searchBlocks_zero hzero]
  rw [hcode'] at hcode
  cases hcode
  have htwo := hok.two_le_bitCount map
  have hbit := hnone.mp rfl 1 (by omega)
  have hplace : sp.bit map (allBut sp (sp.mapStart map) 0 1) 1 =
      (conv4 sp.native (allBut sp (sp.mapStart map) 0 1 (sp.mapStart map + 0) 0)).getLsbD 1 :=
    bit_of_place hok.chunksPerBlock_pos (by decide) (by omega)
  rw [hplace, allBut_bit _ _ _ _ _ _ _ (by decide)] at hbit
  simp at hbit

theorem not_exact_of_range (hok : sp.Accepted) (hrw : sp.rdOnly = false) (hcount : sp.bitCount map < bitRange)
    (hrange : bitRange < sp.bitBlocks map * sp.bitsPerBlock) : ¬ sp.Exact map := by
  intro hexact
  set n := bitRange + 1 with hn
  have hchunk : n < sp.bitBlocks map * sp.bitsPerBlock := by
    -- both are multiples of 32
    have hmul : sp.bitBlocks map * sp.bitsPerBlock = sp.bitBlocks map * sp.chunksPerBlock * 32 := by
      rw [bitsPerBlock_eq, Nat.mul_assoc]
      rfl
    rw [hmul] at hrange ⊢
    rw [hn]
    unfold bitRange at *
    omega
  have hblock : n / sp.bitsPerBlock < sp.bitBlocks map := Nat.div_lt_of_lt_mul (by rw [Nat.mul_comm]; exact hchunk)
  have hword := hok.word_lt n
  have hbit : n % fsBitchunkBits = 1 := by decide
  have hplace := place_eq sp n
  rw [hbit] at hplace
  have htwo := hok.two_le_bitCount map
  have hmapBits := mapBits_eq hcount
  have hnumber : (n / sp.bitsPerBlock * sp.bitsPerBlock + n % sp.bitsPerBlock / fsBitchunkBits * fsBitchunkBits + 1) %
      bitRange = 1 := by
    rw [hplace]
    decide
  have hfar : 0 < n / sp.bitsPerBlock := Nat.div_pos (by have := hok.bitsPerBlock_lt; omega) hok.bitsPerBlock_pos
  set dev := allBut sp (sp.mapStart map + n / sp.bitsPerBlock) (n % sp.bitsPerBlock / fsBitchunkBits) 1 with hdev
  obtain ⟨res, dev', hcode, -, -, hfound⟩ := (hexact dev (bit_zero_allBut fun h => by omega)).1 0 (by decide)
  have hsearch : sp.searchBlocks map dev (sp.bitBlocks map + 1) 0 0 =
      some (n / sp.bitsPerBlock, n % sp.bitsPerBlock / fsBitchunkBits, 1, 1) := by
    have h := searchBlocks_allBut sp map 1 (Nat.zero_le _) hblock
      (Nat.lt_add_left 0 (Nat.lt_succ_of_lt hblock)) hword (by decide) (by rw [hnumber, hmapBits]; omega)
    rwa [hnumber] at h
  have hres : res = 1 := by
    unfold allocBit at hcode
    rw [if_neg (by simp [hrw])] at hcode
    dsimp only at hcode
    rw [if_neg (by rw [hmapBits]; omega), Nat.zero_div, Nat.zero_mod, Nat.zero_div, hsearch] at hcode
    cases hcode
    rfl
  subst hres
  have hclear := (hfound Nat.one_ne_zero).2.1
  have hone : sp.bit map dev 1 = (conv4 sp.native (dev (sp.mapStart map + 0) 0)).getLsbD 1 :=
    bit_of_place hok.chunksPerBlock_pos (by decide) (by omega)
  rw [hone, hdev, allBut_bit _ _ _ _ _ _ _ (by decide)] at hclear
  have hne : ¬ (sp.mapStart map + 0 = sp.mapStart map + n / sp.bitsPerBlock ∧
      0 = n % sp.bitsPerBlock / fsBitchunkBits ∧ 1 = 1) := fun h => by omega
  rw [decide_eq_false hne] at hclear
  cases hclear

end Failures

theorem exact_iff_covered (hok : sp.Accepted) (hrw : sp.rdOnly = false) : sp.Exact map ↔ sp.Covered map := by
  constructor
  · intro hexact
    have hcount : sp.bitCount map < bitRange := by
      by_contra hge
      exact not_exact_of_count hok hrw (Nat.not_lt.mp hge) hexact
    refine ⟨?_, hcount, ?_⟩
    · by_contra hlt
      exact not_exact_of_room hok hrw hcount (Nat.not_le.mp hlt) hexact
    · by_contra hlt
      exact not_exact_of_range hok hrw hcount (Nat.not_le.mp hlt) hexact
  · intro hcov dev hzero
    exact ⟨fun origin _ => allocExact_of_covered hok hrw hcov hzero origin,
      fun n hn hset => freeExact_of_covered hrw hcov hn hset⟩

end SuperBlock

end HardenedMinix.Mfs
