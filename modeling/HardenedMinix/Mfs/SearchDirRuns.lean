import HardenedMinix.Mfs.SearchDir

/-!
# Directories as maps

A directory is a finite map from names to inode numbers, over any sequence of calls in which no file
position overflows.
-/

open Function List

namespace HardenedMinix.Mfs

/-! ## Names -/

theorem takeWhile_cons_ne {b : BitVec 8} (bs : List (BitVec 8)) (hb : b ≠ 0) :
    (b :: bs).takeWhile (· ≠ 0) = b :: bs.takeWhile (· ≠ 0) := takeWhile_cons_of_pos (by simpa using hb)

theorem takeWhile_cons_zero (bs : List (BitVec 8)) : ((0 : BitVec 8) :: bs).takeWhile (· ≠ 0) = [] :=
  takeWhile_cons_of_neg (by simp)

theorem strncmp_iff {as bs : List (BitVec 8)} (h : as.length = bs.length) :
    strncmp as bs = true ↔ as.takeWhile (· ≠ 0) = bs.takeWhile (· ≠ 0) := by
  induction as generalizing bs with
  | nil =>
    obtain rfl := length_eq_zero_iff.mp h.symm
    exact iff_of_true rfl rfl
  | cons a as ih =>
    obtain ⟨b, bs, rfl⟩ := exists_cons_of_length_eq_add_one h.symm
    have hrest := ih (Nat.succ.inj h)
    unfold strncmp
    by_cases hab : a = b
    · subst hab
      rw [if_neg (not_not.mpr rfl)]
      by_cases ha : a = 0
      · rw [if_pos ha, ha, takeWhile_cons_zero, takeWhile_cons_zero]
        exact iff_of_true rfl rfl
      · rw [if_neg ha, hrest, takeWhile_cons_ne _ ha, takeWhile_cons_ne _ ha]
        simp
    rw [if_pos hab]
    refine iff_of_false Bool.false_ne_true fun heq => ?_
    by_cases ha : a = 0
    · have hb : b ≠ 0 := fun hb => hab (ha.trans hb.symm)
      rw [ha, takeWhile_cons_zero, takeWhile_cons_ne _ hb] at heq
      cases heq
    rw [takeWhile_cons_ne _ ha] at heq
    by_cases hb : b = 0
    · rw [hb, takeWhile_cons_zero] at heq
      cases heq
    · rw [takeWhile_cons_ne _ hb] at heq
      exact hab (List.cons.inj heq).1

theorem strncmp_names (a b : Direct) : strncmp a.name.toList b.name.toList = true ↔ a.shown = b.shown :=
  strncmp_iff (by rw [Vector.length_toList, Vector.length_toList])

theorem shown_toName {l : List (BitVec 8)} (h : l.length ≤ mfsDirsiz) (hl : ∀ b ∈ l, b ≠ 0) (ino : BitVec 32) :
    (Direct.mk ino (toName l h)).shown = l := by
  have hlist : (toName l h).toList = l ++ List.replicate (mfsDirsiz - l.length) 0 := by
    simp [toName, Vector.toList]
  unfold Direct.shown
  rw [hlist, takeWhile_append_of_pos fun b hb => by simpa using hl b hb]
  simp

theorem key_ne_zero (string : Name) : ∀ b ∈ key string, b ≠ 0 := fun b hb => by
  simpa using mem_takeWhile_imp hb

theorem key_length (string : Name) : (key string).length ≤ mfsDirsiz := by
  simpa [key, Direct.shown] using ( takeWhile_prefix (· ≠ (0 : BitVec 8)) (l := string.toList)).length_le

theorem isMatch_iff (flag : Flag) (string : Name) (dp : Direct) : isMatch flag string dp = true ↔
      if flag = .IS_EMPTY then dp.shown ≠ [46] ∧ dp.shown ≠ [46, 46] else dp.shown = key string := by
  have hdot (l : List (BitVec 8)) (h : l.length ≤ mfsDirsiz) (hl : ∀ b ∈ l, b ≠ 0) :
      (!strncmp dp.name.toList (toName l h).toList) = true ↔ dp.shown ≠ l := by
    rw [Bool.not_eq_true', ← Bool.not_eq_true, strncmp_names dp ⟨0, toName l h⟩, shown_toName h hl]
  unfold isMatch
  split
  · rw [Bool.and_eq_true]
    exact and_congr (hdot [46] _ (by decide)) (hdot [46, 46] _ (by decide))
  · exact strncmp_names dp ⟨0, string⟩

theorem conv4_zero (norm : Bool) : conv4 norm 0 = 0 := by cases norm <;> decide

theorem conv4_ne_zero {norm : Bool} {x : BitVec 32} (hx : x ≠ 0) : conv4 norm x ≠ 0 := fun h => hx (by
  rw [← conv4_conv4 norm x, h, conv4_zero])

namespace Dir

variable {d : Dir} {flag : Flag} {string : Name} {pos k lo left i newSlots fuel : Nat} {stop : Stop}

/-! ## The search -/

structure Shape (d : Dir) : Prop where
  dir : d.isDir = true
  blockSize_pos : 0 < d.blockSize
  sectors : 512 ∣ d.blockSize
  size_dvd : dirEntrySize ∣ d.size
  size_lt : d.size < offRange
  lastDpos_dvd : d.blockSize ∣ d.lastDpos

def Wants (d : Dir) (flag : Flag) (string : Name) (k : Nat) : Prop :=
  if flag = .ENTER then (d.slot k).ino = 0 else (d.slot k).ino ≠ 0 ∧ isMatch flag string (d.slot k) = true

/-- No slot from one to another stops the search. -/
def Passed (d : Dir) (flag : Flag) (string : Name) (lo hi : Nat) : Prop :=
  ∀ j, lo ≤ j → j < hi → j < d.oldSlots → ¬ d.Wants flag string j

inductive Ends (d : Dir) (flag : Flag) (string : Name) (lo : Nat) : Stop → Prop
  | matched {pos k : Nat} (hflag : flag ≠ .ENTER) (hle : lo ≤ k) (hk : k < d.oldSlots) (hwants : d.Wants flag string k)
    (hbefore : d.Passed flag string lo k) (hdvd : d.blockSize ∣ pos) (hpos : pos ≤ dirEntrySize * k) : Ends d flag string lo (.matched pos k)
  | hit {pos k : Nat} (hflag : flag = .ENTER) (hle : lo ≤ k) (hk : k ≤ d.oldSlots)
    (hwants : k < d.oldSlots → d.Wants flag string k) (hbefore : d.Passed flag string lo k) (hdvd : d.blockSize ∣ pos)
    (hpos : pos ≤ dirEntrySize * k) (hblock : dirEntrySize * k < pos + d.blockSize) (hin : pos < d.size) :
    Ends d flag string lo (.hit pos k (k + 1))
  | full {pos newSlots : Nat} (hall : d.Passed flag string lo d.oldSlots) (hdvd : d.blockSize ∣ pos) (hpos : d.size ≤ pos)
    (hrange : pos < offRange) (henter : flag = .ENTER → pos = d.size ∧ newSlots = d.oldSlots) : Ends d flag string lo (.full pos newSlots)

theorem Shape.blockSize_dvd (h : d.Shape) : dirEntrySize ∣ d.blockSize := Dvd.dvd.trans (by decide) h.sectors

theorem Shape.size_eq (h : d.Shape) : dirEntrySize * d.oldSlots = d.size := Nat.mul_div_cancel' h.size_dvd

theorem not_wants_of {k : Nat} (hmatch : ¬ (flag ≠ .ENTER ∧ (d.slot k).ino ≠ 0 ∧ isMatch flag string (d.slot k) = true))
    (hfree : ¬ (flag = .ENTER ∧ (d.slot k).ino = 0)) : ¬ d.Wants flag string k := by
  unfold Wants
  split
  · next hflag => exact fun h => hfree ⟨hflag, h⟩
  · next hflag => exact fun h => hmatch ⟨hflag, h⟩

theorem passed_one (h : ¬ d.Wants flag string lo) : d.Passed flag string lo (lo + 1) := fun j hlo hhi _ => by
  rw [show j = lo by omega]
  exact h

theorem Passed.join {mid hi : Nat} (h : d.Passed flag string lo mid) (hrest : d.Passed flag string mid hi) :
    d.Passed flag string lo hi := fun j hlo hhi hj => by
  by_cases hmid : j < mid
  · exact h j hlo hmid hj
  · exact hrest j (Nat.not_lt.mp hmid) hhi hj

theorem Ends.join {mid : Nat} (h : d.Passed flag string lo mid) (hmid : lo ≤ mid) (hends : d.Ends flag string mid stop) :
    d.Ends flag string lo stop := by
  cases hends with
  | matched hflag hle hk hwants hbefore hdvd hpos =>
    exact .matched hflag (hmid.trans hle) hk hwants (h.join hbefore) hdvd hpos
  | hit hflag hle hk hwants hbefore hdvd hpos hblock hin =>
    exact .hit hflag (hmid.trans hle) hk hwants (h.join hbefore) hdvd hpos hblock hin
  | full hall hdvd hpos hrange henter => exact .full (h.join hall) hdvd hpos hrange henter

theorem searchBlock_spec (h : d.Shape) (flag : Flag) (string : Name) (left i : Nat) (hin : pos < d.size)
    (hdvd : d.blockSize ∣ pos) (hend : pos + d.blockSize = dirEntrySize * (pos / dirEntrySize + i + left))
    (hle : pos / dirEntrySize + i ≤ d.oldSlots) :
    (∃ newSlots, d.searchBlock flag string pos left i (pos / dirEntrySize + i) = .full pos newSlots ∧
      d.Passed flag string (pos / dirEntrySize + i) (pos / dirEntrySize + i + left) ∧
      (flag = .ENTER → pos + d.blockSize ≤ d.size) ∧
      (pos + d.blockSize ≤ d.size → newSlots = pos / dirEntrySize + i + left)) ∨
    ((∀ pos' n, d.searchBlock flag string pos left i (pos / dirEntrySize + i) ≠ .full pos' n) ∧
      d.Ends flag string (pos / dirEntrySize + i) (d.searchBlock flag string pos left i (pos / dirEntrySize + i))) := by
  have hsize := h.size_eq
  have hblock : dirEntrySize * (pos / dirEntrySize) = pos := Nat.mul_div_cancel' (h.blockSize_dvd.trans hdvd)
  induction left generalizing i with
  | zero =>
    refine .inl ⟨_, rfl, fun j hlo hhi => by omega, fun _ => ?_, fun _ => rfl⟩
    rw [hend, ← hsize]
    exact Nat.mul_le_mul_left _ hle
  | succ left ih =>
    have hpos : pos ≤ dirEntrySize * (pos / dirEntrySize + i) := by
      rw [Nat.mul_add]
      omega
    have hlast : dirEntrySize * (pos / dirEntrySize + i) < pos + d.blockSize := by
      rw [hend]
      exact Nat.mul_lt_mul_of_pos_left (by omega) (by decide)
    unfold searchBlock
    dsimp only
    by_cases hover : d.oldSlots < pos / dirEntrySize + i + 1
    · rw [if_pos hover]
      by_cases hflag : flag = .ENTER
      · rw [if_pos hflag]
        exact .inr ⟨nofun, .hit hflag le_rfl hle (fun hk => by omega) (fun j hlo hhi => by omega) hdvd hpos hlast hin⟩
      · rw [if_neg hflag]
        refine .inl ⟨_, rfl, fun j hlo _ hj => by omega, fun he => absurd he hflag, fun hfit => ?_⟩
        unfold dirEntrySize at *
        omega
    rw [if_neg hover]
    by_cases hmatch : flag ≠ .ENTER ∧ (d.slot (pos / dirEntrySize + i)).ino ≠ 0 ∧
        isMatch flag string (d.slot (pos / dirEntrySize + i)) = true
    · rw [if_pos hmatch]
      refine .inr ⟨nofun, .matched hmatch.1 le_rfl (by omega) ?_ (fun j hlo hhi => by omega) hdvd hpos⟩
      unfold Wants
      rw [if_neg hmatch.1]
      exact hmatch.2
    rw [if_neg hmatch]
    by_cases hfree : flag = .ENTER ∧ (d.slot (pos / dirEntrySize + i)).ino = 0
    · rw [if_pos hfree]
      refine .inr ⟨nofun, .hit hfree.1 le_rfl hle (fun _ => ?_) (fun j hlo hhi => by omega) hdvd hpos hlast hin⟩
      unfold Wants
      rw [if_pos hfree.1]
      exact hfree.2
    rw [if_neg hfree]
    have hno := not_wants_of hmatch hfree
    have hcount : pos / dirEntrySize + i + (left + 1) = pos / dirEntrySize + (i + 1) + left := by omega
    rw [hcount] at hend ⊢
    obtain ⟨newSlots, hfull, hpassed, hrest⟩ | ⟨hne, hends⟩ := ih (i + 1) hend (by omega)
    · exact .inl ⟨newSlots, hfull, (passed_one hno).join hpassed, hrest⟩
    · exact .inr ⟨hne, hends.join (passed_one hno) (Nat.le_succ _)⟩

theorem searchBlocks_spec (h : d.Shape) (flag : Flag) (string : Name) (fuel pos newSlots : Nat)
    (hdvd : d.blockSize ∣ pos) (hrange : pos < offRange) (hlt : pos < d.size + d.blockSize)
    (hfuel : d.size + d.blockSize ≤ pos + fuel * d.blockSize) (hslots : pos ≤ d.size → newSlots = pos / dirEntrySize)
    (henter : flag = .ENTER → pos ≤ d.size) :
    (d.searchBlocks flag string fuel pos newSlots = none ∧ ¬ d.EndsInRange ∧
      d.Passed flag string (pos / dirEntrySize) d.oldSlots ∧ (flag = .ENTER → d.blockSize ∣ d.size)) ∨
    ∃ stop, d.searchBlocks flag string fuel pos newSlots = some stop ∧ d.Ends flag string (pos / dirEntrySize) stop := by
  have hsize := h.size_eq
  have hbs := h.blockSize_pos
  have hblock : dirEntrySize * (pos / dirEntrySize) = pos := Nat.mul_div_cancel' (h.blockSize_dvd.trans hdvd)
  induction fuel generalizing pos newSlots with
  | zero => omega
  | succ fuel ih =>
    unfold searchBlocks
    by_cases hin : pos < d.size
    · obtain ⟨c, hc⟩ := h.blockSize_dvd
      obtain ⟨q, hq⟩ := hdvd
      have hend : pos + d.blockSize = dirEntrySize * (pos / dirEntrySize + 0 + d.blockSize / dirEntrySize) := by
        rw [Nat.add_zero, Nat.mul_add, hblock, Nat.mul_div_cancel' h.blockSize_dvd]
      have hspec := searchBlock_spec h flag string (d.blockSize / dirEntrySize) 0 hin (Dvd.intro q hq.symm) hend
        (by unfold dirEntrySize at *; omega)
      rw [if_pos hin, hslots hin.le]
      rw [Nat.add_zero] at hspec
      obtain ⟨n, hfull, hpassed, hfit, hn⟩ | ⟨hne, hends⟩ := hspec
      · rw [hfull]
        dsimp only
        have hnext : (pos + d.blockSize) / dirEntrySize = pos / dirEntrySize + d.blockSize / dirEntrySize := by
          unfold dirEntrySize at *
          omega
        rw [← hnext] at hpassed
        by_cases hover : offRange ≤ pos + d.blockSize
        · rw [if_pos hover]
          refine .inl ⟨rfl, fun hends => ?_, hpassed.join fun j hlo _ hj => ?_, fun hflag => ?_⟩
          · have hle : q ≤ (d.size - 1) / d.blockSize := by
              rw [Nat.le_div_iff_mul_le hbs, Nat.mul_comm, ← hq]
              omega
            have hmul := Nat.mul_le_mul_right d.blockSize hle
            have hlast := hends (by omega)
            rw [Nat.mul_comm q, ← hq] at hmul
            omega
          · have hlt := h.size_lt
            unfold dirEntrySize at *
            omega
          · have hlt := h.size_lt
            have hle := hfit hflag
            omega
        rw [if_neg hover]
        obtain ⟨hnone, hends, hrest, hdiv⟩ | ⟨stop, hstop, hends⟩ := ih (pos + d.blockSize) n
          (Dvd.intro (q + 1) (by rw [Nat.mul_succ, ← hq])) (Nat.not_le.mp hover) (by omega)
          (by rw [Nat.succ_mul] at hfuel; omega) (fun hle => by rw [hn hle, hnext]) hfit
          (Nat.mul_div_cancel' (h.blockSize_dvd.trans (Dvd.intro (q + 1) (by rw [Nat.mul_succ, ← hq]))))
        · exact .inl ⟨hnone, hends, hpassed.join hrest, hdiv⟩
        · exact .inr ⟨stop, hstop, hends.join hpassed (hnext ▸ Nat.le_add_right _ _)⟩
      · revert hne hends
        cases d.searchBlock flag string pos (d.blockSize / dirEntrySize) 0 (pos / dirEntrySize) with
        | full pos' n => exact fun hne _ => absurd rfl (hne pos' n)
        | hit pos' k n => exact fun _ hends => .inr ⟨_, rfl, hends⟩
        | matched pos' k => exact fun _ hends => .inr ⟨_, rfl, hends⟩
    · rw [if_neg hin]
      refine .inr ⟨_, rfl, .full (fun j hlo _ hj => ?_) hdvd (Nat.not_lt.mp hin) hrange fun hflag => ?_⟩
      · unfold dirEntrySize at *
        omega
      · have heq : pos = d.size := le_antisymm (henter hflag) (Nat.not_lt.mp hin)
        exact ⟨heq, by rw [hslots (henter hflag), heq]; rfl⟩

/-! ## A directory as a map -/

def InUse (d : Dir) (k : Nat) : Prop := k < d.oldSlots ∧ (d.slot k).ino ≠ 0

structure Is (d : Dir) (m : Names) : Prop where
  shape : d.Shape
  low : ∀ k, dirEntrySize * k < d.lastDpos → k < d.oldSlots → (d.slot k).ino ≠ 0
  unique : ∀ j k, d.InUse j → d.InUse k → (d.slot j).shown = (d.slot k).shown → j = k
  names : ∀ l n, m l = some n ↔ ∃ k, d.InUse k ∧ (d.slot k).shown = l ∧ conv4 d.native (d.slot k).ino = n

section Calls

variable {m : Names} {env : Surroundings} {numb : BitVec 32} {d' : Dir} {c : Call}

theorem Is.ne_none (h : d.Is m) {l : List (BitVec 8)} : m l ≠ none ↔ ∃ k, d.InUse k ∧ (d.slot k).shown = l := by
  rw [Option.ne_none_iff_exists']
  constructor
  · rintro ⟨n, hn⟩
    obtain ⟨k, hk, hl, -⟩ := (h.names l n).mp hn
    exact ⟨k, hk, hl⟩
  · rintro ⟨k, hk, hl⟩
    exact ⟨_, (h.names l _).mpr ⟨k, hk, hl, rfl⟩⟩

theorem Is.search (h : d.Is m) (flag : Flag) (string : Name) :
    let pos := if flag = .ENTER ∧ d.lastDpos < d.size then d.lastDpos else 0
    (d.searchBlocks flag string (d.size + 1) pos (pos / dirEntrySize) = none ∧ ¬ d.EndsInRange ∧ flag ≠ .ENTER ∧
      d.Passed flag string 0 d.oldSlots) ∨
    ∃ stop, d.searchBlocks flag string (d.size + 1) pos (pos / dirEntrySize) = some stop ∧ d.Ends flag string 0 stop := by
  intro pos
  have hbs := h.shape.blockSize_pos
  have hlt := h.shape.size_lt
  have hfuel := Nat.le_mul_of_pos_right d.size hbs
  have hle : pos ≤ d.size ∧ d.blockSize ∣ pos := by
    change (if _ then _ else _) ≤ _ ∧ _ ∣ (if _ then _ else _)
    split
    · next hlast => exact ⟨hlast.2.le, h.shape.lastDpos_dvd⟩
    · exact ⟨Nat.zero_le _, Nat.dvd_zero _⟩
  -- before the remembered position no slot is free
  have hlow : d.Passed flag string 0 (pos / dirEntrySize) := fun j _ hj hjold => by
    change j < (if _ then _ else _) / _ at hj
    split at hj
    · next hlast =>
      unfold Wants
      rw [if_pos hlast.1]
      exact h.low j (by unfold dirEntrySize at *; omega) hjold
    · rw [Nat.zero_div] at hj
      omega
  obtain ⟨hnone, hends, hpassed, henter⟩ | ⟨stop, hstop, hends⟩ := searchBlocks_spec h.shape flag string (d.size + 1) pos
    (pos / dirEntrySize) hle.2 (by omega) (by omega) (by rw [Nat.succ_mul]; omega) (fun _ => rfl) fun _ => hle.1
  · refine .inl ⟨hnone, hends, fun hflag => hends fun hne => ?_, hlow.join hpassed⟩
    -- at the end of a block the size itself is that end
    obtain ⟨q, hq⟩ := henter hflag
    have hq' : (d.size - 1) / d.blockSize + 1 = q := by
      have hpos : 0 < q := Nat.pos_of_ne_zero fun hz => hne (by rw [hq, hz, Nat.mul_zero])
      have hdiv : (d.size - 1) / d.blockSize = q - 1 := by
        rw [Nat.div_eq_iff hbs, Nat.sub_mul, Nat.one_mul, Nat.mul_comm q, ← hq]
        have hge : d.blockSize ≤ d.size := by
          rw [hq]
          exact Nat.le_mul_of_pos_right _ hpos
        omega
      omega
    rw [← Nat.succ_mul, Nat.succ_eq_add_one, hq', Nat.mul_comm, ← hq]
    exact hlt
  · exact .inr ⟨stop, hstop, hends.join hlow (Nat.zero_le _)⟩

theorem Is.search_names (h : d.Is m) {flag : Flag} (hflag : flag ≠ .ENTER) (string : Name) :
    (d.searchBlocks flag string (d.size + 1) 0 0 = none ∧ ¬ d.EndsInRange ∧
      ∀ k, d.InUse k → ¬ isMatch flag string (d.slot k) = true) ∨
    (∃ pos k, d.searchBlocks flag string (d.size + 1) 0 0 = some (.matched pos k) ∧ d.InUse k ∧
      isMatch flag string (d.slot k) = true ∧ d.blockSize ∣ pos ∧ pos ≤ dirEntrySize * k) ∨
    ∃ pos n, d.searchBlocks flag string (d.size + 1) 0 0 = some (.full pos n) ∧ d.EndsInRange ∧
      ∀ k, d.InUse k → ¬ isMatch flag string (d.slot k) = true := by
  have hpassed (hp : d.Passed flag string 0 d.oldSlots) (k : Nat) (hk : d.InUse k) :
      ¬ isMatch flag string (d.slot k) = true := fun hmatch => by
    have hno := hp k (Nat.zero_le _) hk.1 hk.1
    unfold Wants at hno
    rw [if_neg hflag] at hno
    exact hno ⟨hk.2, hmatch⟩
  have hsearch := h.search flag string
  simp only [hflag, false_and, if_false, Nat.zero_div] at hsearch
  obtain ⟨hnone, hends, -, hp⟩ | ⟨stop, hstop, hends⟩ := hsearch
  · exact .inl ⟨hnone, hends, hpassed hp⟩
  cases hends with
  | matched _ _ hk hwants _ hdvd hpos =>
    unfold Wants at hwants
    rw [if_neg hflag] at hwants
    exact .inr (.inl ⟨_, _, hstop, ⟨hk, hwants.1⟩, hwants.2, hdvd, hpos⟩)
  | hit henter => exact absurd henter hflag
  | full hall hdvd hpos hrange =>
    refine .inr (.inr ⟨_, _, hstop, fun hne => ?_, hpassed hall⟩)
    obtain ⟨q, rfl⟩ := hdvd
    have hlt : (d.size - 1) / d.blockSize < q :=
      (Nat.div_lt_iff_lt_mul h.shape.blockSize_pos).mpr (by rw [Nat.mul_comm]; omega)
    have hle := Nat.mul_le_mul_right d.blockSize (Nat.succ_le_of_lt hlt)
    rw [Nat.succ_mul, Nat.mul_comm q] at hle
    exact hle.trans_lt hrange

theorem Is.search_key (h : d.Is m) {flag : Flag} (hflag : flag ≠ .ENTER) (hflag' : flag ≠ .IS_EMPTY) (string : Name) :
    (d.searchBlocks flag string (d.size + 1) 0 0 = none ∧ ¬ d.EndsInRange ∧ m (key string) = none) ∨
    (∃ pos k, d.searchBlocks flag string (d.size + 1) 0 0 = some (.matched pos k) ∧ d.InUse k ∧
      (d.slot k).shown = key string ∧ d.blockSize ∣ pos ∧ pos ≤ dirEntrySize * k) ∨
    ∃ pos n, d.searchBlocks flag string (d.size + 1) 0 0 = some (.full pos n) ∧ d.EndsInRange ∧ m (key string) = none := by
  have hmatch (k : Nat) : isMatch flag string (d.slot k) = true ↔ (d.slot k).shown = key string := by
    rw [isMatch_iff, if_neg hflag']
  have habsent (hno : ∀ k, d.InUse k → ¬ isMatch flag string (d.slot k) = true) : m (key string) = none := by
    by_contra hne
    obtain ⟨k, hk, hl⟩ := h.ne_none.mp hne
    exact hno k hk ((hmatch k).mpr hl)
  obtain ⟨hnone, hends, hno⟩ | ⟨pos, k, hsome, hk, hm, hat⟩ | ⟨pos, n, hsome, hends, hno⟩ := h.search_names hflag string
  · exact .inl ⟨hnone, hends, habsent hno⟩
  · exact .inr (.inl ⟨pos, k, hsome, hk, (hmatch k).mp hm, hat⟩)
  · exact .inr (.inr ⟨pos, n, hsome, hends, habsent hno⟩)

theorem Is.erased (h : d.Is m) (hk : d.InUse k) (hkey : (d.slot k).shown = key string) (hdvd : d.blockSize ∣ pos)
    (hpos : pos ≤ dirEntrySize * k) :
    Is { d.setSlot k (d.slot k).erase with lastDpos := if pos < d.lastDpos then pos else d.lastDpos }
      (update m (key string) none) := by
  have hself : update d.slot k (d.slot k).erase k = (d.slot k).erase := update_self ..
  have hother {j : Nat} (hj : j ≠ k) : update d.slot k (d.slot k).erase j = d.slot j := update_of_ne hj ..
  have huse (j : Nat) : InUse { d.setSlot k (d.slot k).erase with
      lastDpos := if pos < d.lastDpos then pos else d.lastDpos } j ↔ j ≠ k ∧ d.InUse j := by
    change (j < d.oldSlots ∧ (update d.slot k (d.slot k).erase j).ino ≠ 0) ↔ _
    by_cases hj : j = k
    · rw [hj, hself]
      exact iff_of_false (fun h => h.2 rfl) fun h => h.1 rfl
    · rw [hother hj, and_iff_right hj]
      rfl
  have hs := h.shape
  refine ⟨⟨hs.dir, hs.blockSize_pos, hs.sectors, hs.size_dvd, hs.size_lt, ?_⟩, fun j hj hold => ?_,
    fun j j' hj hj' heq => ?_, fun l n => ?_⟩
  · change d.blockSize ∣ if _ then _ else _
    split
    · exact hdvd
    · exact hs.lastDpos_dvd
  · change dirEntrySize * j < (if pos < d.lastDpos then pos else d.lastDpos) at hj
    change (update d.slot k (d.slot k).erase j).ino ≠ 0
    have hlt : dirEntrySize * j < pos ∧ dirEntrySize * j < d.lastDpos := by split at hj <;> omega
    rw [hother (by rintro rfl; omega)]
    exact h.low j hlt.2 hold
  · rw [huse] at hj hj'
    change (update d.slot k (d.slot k).erase j).shown = (update d.slot k (d.slot k).erase j').shown at heq
    rw [hother hj.1, hother hj'.1] at heq
    exact h.unique j j' hj.2 hj'.2 heq
  change _ ↔ ∃ j, _ ∧ (update d.slot k (d.slot k).erase j).shown = l ∧
    conv4 d.native (update d.slot k (d.slot k).erase j).ino = n
  by_cases hl : l = key string
  · rw [hl, update_self]
    refine iff_of_false nofun ?_
    rintro ⟨j, hj, hshown, -⟩
    rw [huse] at hj
    rw [hother hj.1] at hshown
    exact hj.1 (h.unique j k hj.2 hk (hshown.trans hkey.symm))
  rw [update_of_ne hl, h.names]
  refine exists_congr fun j => ?_
  by_cases hj : j = k
  · rw [hj]
    refine iff_of_false (fun h => hl (h.2.1.symm.trans hkey)) fun h => ?_
    rw [huse] at h
    exact h.1.1 rfl
  · rw [huse, hother hj, and_iff_right hj]

theorem Is.entered (h : d.Is m) (hk : k ≤ d.oldSlots) (hfree : k < d.oldSlots → (d.slot k).ino = 0)
    (hbefore : ∀ j < k, (d.slot j).ino ≠ 0) (hkey : m (key string) = none) (hnumb : numb ≠ 0) (hs : d'.Shape)
    (hnative : d'.native = d.native) (hslots : d'.oldSlots = max d.oldSlots (k + 1))
    (hself : d'.slot k = ⟨conv4 d.native numb, toName (key string) (key_length string)⟩)
    (hother : ∀ j < d.oldSlots, j ≠ k → d'.slot j = d.slot j) (hlast : d'.lastDpos ≤ dirEntrySize * k) :
    d'.Is (update m (key string) (some numb)) := by
  have hino : (d'.slot k).ino = conv4 d.native numb := congrArg Direct.ino hself
  have hname : (d'.slot k).shown = key string := by
    rw [hself]
    exact shown_toName _ (key_ne_zero string) _
  have huse (j : Nat) : d'.InUse j ↔ j = k ∨ j ≠ k ∧ d.InUse j := by
    unfold InUse
    rw [hslots]
    by_cases hj : j = k
    · rw [hj, hino]
      exact iff_of_true ⟨by omega, conv4_ne_zero hnumb⟩ (.inl rfl)
    · rw [or_iff_right hj, and_iff_right hj]
      refine and_congr_left' ?_ |>.trans (and_congr_right fun hold => by rw [hother j hold hj])
      omega
  have hnot (j : Nat) (hj : d.InUse j) : j ≠ k ∧ (d.slot j).shown ≠ key string := by
    refine ⟨?_, fun heq => h.ne_none.mpr ⟨j, hj, heq⟩ hkey⟩
    rintro rfl
    exact hj.2 (hfree hj.1)
  refine ⟨hs, fun j hj _ => ?_, fun j j' hj hj' heq => ?_, fun l n => ?_⟩
  · have hlt : j < k := by
      unfold dirEntrySize at *
      omega
    rw [hother j (by omega) (by omega)]
    exact hbefore j hlt
  · rw [huse] at hj hj'
    obtain rfl | ⟨hne, hj⟩ := hj <;> obtain rfl | ⟨hne', hj'⟩ := hj'
    · rfl
    · rw [hname, hother j' hj'.1 hne'] at heq
      exact absurd heq.symm (hnot j' hj').2
    · rw [hname, hother j hj.1 hne] at heq
      exact absurd heq (hnot j hj).2
    · rw [hother j hj.1 hne, hother j' hj'.1 hne'] at heq
      exact h.unique j j' hj hj' heq
  rw [hnative]
  by_cases hl : l = key string
  · rw [hl, update_self, Option.some.injEq]
    constructor
    · rintro rfl
      exact ⟨k, (huse k).mpr (.inl rfl), hname, by rw [hino, conv4_conv4]⟩
    rintro ⟨j, hj, hshown, hn⟩
    obtain rfl | ⟨hne, hj⟩ := (huse j).mp hj
    · rwa [hino, conv4_conv4] at hn
    · rw [hother j hj.1 hne] at hshown
      exact absurd hshown (hnot j hj).2
  rw [update_of_ne hl, h.names]
  refine exists_congr fun j => ?_
  rw [huse]
  by_cases hj : j = k
  · subst hj
    rw [hname]
    exact iff_of_false (fun hand => (hnot j hand.1).1 rfl) fun hand => hl hand.2.1.symm
  · rw [or_iff_right hj, and_iff_right hj]
    exact and_congr_right fun hj' => by rw [hother j hj'.1 hj]

theorem Is.lookUp (h : d.Is m) (env : Surroundings) (hrange : d.EndsInRange ∨ m (key string) ≠ none) :
    ∃ res numb, d.searchDir .LOOK_UP string env 0 = some (res, numb, d) ∧
      (res = .denied ∨ res = .OK ∧ m (key string) = some numb ∨ res = .ENOENT ∧ m (key string) = none) := by
  unfold searchDir
  rw [if_neg (by simp [h.shape.dir]), if_neg (by simp)]
  by_cases hdenied : env.denied = true
  · exact ⟨_, _, if_pos ⟨nofun, hdenied⟩, .inl rfl⟩
  rw [if_neg fun hand => hdenied hand.2]
  dsimp only
  rw [if_neg fun hand => absurd hand.1 nofun, Nat.zero_div]
  obtain ⟨-, hends, hno⟩ | ⟨pos, k, hsome, hk, hkey, -⟩ | ⟨pos, n, hsome, -, hno⟩ := h.search_key
    (show Flag.LOOK_UP ≠ .ENTER from nofun) nofun string
  · exact absurd hno (hrange.resolve_left hends)
  · rw [hsome]
    exact ⟨_, _, rfl, .inr (.inl ⟨rfl, (h.names _ _).mpr ⟨k, hk, hkey, rfl⟩⟩)⟩
  · rw [hsome]
    exact ⟨_, _, rfl, .inr (.inr ⟨rfl, hno⟩)⟩

theorem Is.delete (h : d.Is m) (env : Surroundings) (hrange : d.EndsInRange ∨ m (key string) ≠ none) :
    ∃ res numb d', d.searchDir .DELETE string env 0 = some (res, numb, d') ∧
      d'.Is (if res = .OK then update m (key string) none else m) ∧
      (res = .OK ↔ res ≠ .denied ∧ res ≠ .EROFS ∧ m (key string) ≠ none) ∧ d'.size = d.size := by
  unfold searchDir
  rw [if_neg (by simp [h.shape.dir])]
  by_cases hro : d.rdOnly = true
  · exact ⟨_, _, _, if_pos ⟨.inl rfl, hro⟩, h, by simp, rfl⟩
  rw [if_neg fun hand => hro hand.2]
  by_cases hdenied : env.denied = true
  · exact ⟨_, _, _, if_pos ⟨nofun, hdenied⟩, h, by simp, rfl⟩
  rw [if_neg fun hand => hdenied hand.2]
  dsimp only
  rw [if_neg fun hand => absurd hand.1 nofun, Nat.zero_div]
  obtain ⟨-, hends, hno⟩ | ⟨pos, k, hsome, hk, hkey, hdvd, hpos⟩ | ⟨pos, n, hsome, -, hno⟩ := h.search_key
    (show Flag.DELETE ≠ .ENTER from nofun) nofun string
  · exact absurd hno (hrange.resolve_left hends)
  · rw [hsome]
    exact ⟨_, _, _, rfl, h.erased hk hkey hdvd hpos, by simp [h.ne_none.mpr ⟨k, hk, hkey⟩], rfl⟩
  · rw [hsome]
    exact ⟨_, _, _, rfl, h, by simp [hno], rfl⟩

theorem Is.isEmpty (h : d.Is m) (env : Surroundings)
    (hrange : d.EndsInRange ∨ ∃ l, m l ≠ none ∧ l ≠ [46] ∧ l ≠ [46, 46]) :
    ∃ res numb, d.searchDir .IS_EMPTY string env 0 = some (res, numb, d) ∧ (res = .OK ∨ res = .ENOTEMPTY) ∧
      (res = .OK ↔ ∀ l, m l ≠ none → l = [46] ∨ l = [46, 46]) := by
  have hempty (hno : ∀ k, d.InUse k → ¬ isMatch .IS_EMPTY string (d.slot k) = true) (l : List (BitVec 8))
      (hl : m l ≠ none) : l = [46] ∨ l = [46, 46] := by
    obtain ⟨k, hk, rfl⟩ := h.ne_none.mp hl
    have hdots := hno k hk
    rw [isMatch_iff, if_pos rfl] at hdots
    by_contra hne
    exact hdots (not_or.mp hne)
  unfold searchDir
  rw [if_neg (by simp [h.shape.dir]), if_neg (by simp), if_neg (by simp)]
  dsimp only
  rw [if_neg fun hand => absurd hand.1 nofun, Nat.zero_div]
  obtain ⟨hnone, hends, hno⟩ | ⟨pos, k, hsome, hk, hmatch, -⟩ | ⟨pos, n, hsome, -, hno⟩ := h.search_names
    (show Flag.IS_EMPTY ≠ .ENTER from nofun) string
  · obtain ⟨l, hl, hne⟩ := hrange.resolve_left hends
    exact absurd (hempty hno l hl) (not_or.mpr hne)
  · rw [hsome]
    rw [isMatch_iff, if_pos rfl] at hmatch
    refine ⟨_, _, rfl, .inr rfl, iff_of_false nofun fun hall => ?_⟩
    exact absurd (hall _ (h.ne_none.mpr ⟨k, hk, rfl⟩)) (not_or.mpr hmatch)
  · rw [hsome]
    exact ⟨_, _, rfl, .inl rfl, iff_of_true rfl (hempty hno)⟩

theorem enter_old (hold : ¬ d.oldSlots < newSlots) :
    d.enter string numb k newSlots = some (d.setSlot k ⟨conv4 d.native numb, toName (key string) (key_length string)⟩) :=
  if_neg hold

theorem enter_new (hnew : d.oldSlots < newSlots) (hroom : newSlots * dirEntrySize < offRange) :
    d.enter string numb k newSlots = some { d.setSlot k ⟨conv4 d.native numb, toName (key string) (key_length string)⟩ with
      size := newSlots * dirEntrySize } :=
  (if_pos hnew).trans (if_neg hroom.not_ge)

theorem Is.enter (h : d.Is m) (env : Surroundings) (hkey : m (key string) = none) (hnumb : numb ≠ 0)
    (hrange : (∃ k < d.oldSlots, (d.slot k).ino = 0) ∨ d.size + dirEntrySize < offRange) :
    ∃ res numb' d', d.searchDir .ENTER string env numb = some (res, numb', d') ∧
      d'.Is (if res = .OK then update m (key string) (some numb) else m) ∧
      (d.size < d'.size → ∀ k < d.oldSlots, (d.slot k).ino ≠ 0) := by
  have hs := h.shape
  have hsize := hs.size_eq
  have hpassed {hi : Nat} (hp : d.Passed .ENTER string 0 hi) (j : Nat) (hj : j < hi) (hold : j < d.oldSlots) :
      (d.slot j).ino ≠ 0 := by
    have hno := hp j (Nat.zero_le _) hj hold
    unfold Wants at hno
    rwa [if_pos rfl] at hno
  unfold searchDir
  rw [if_neg (by simp [hs.dir])]
  by_cases hro : d.rdOnly = true
  · exact ⟨_, _, _, if_pos ⟨.inr rfl, hro⟩, h, fun hlt => absurd hlt (lt_irrefl _)⟩
  rw [if_neg fun hand => hro hand.2]
  by_cases hdenied : env.denied = true
  · exact ⟨_, _, _, if_pos ⟨nofun, hdenied⟩, h, fun hlt => absurd hlt (lt_irrefl _)⟩
  rw [if_neg fun hand => hdenied hand.2]
  obtain ⟨-, -, hne, -⟩ | ⟨stop, hstop, hends⟩ := h.search .ENTER string
  · exact absurd rfl hne
  dsimp only at hstop ⊢
  rw [hstop]
  cases hends with
  | matched hflag => exact absurd rfl hflag
  | @hit pos k _ _ hk hwants hbefore hdvd hpos hblock hin =>
    have hfree (hold : k < d.oldSlots) : (d.slot k).ino = 0 := by
      have hw := hwants hold
      unfold Wants at hw
      rwa [if_pos rfl] at hw
    have hused (j : Nat) (hj : j < k) : (d.slot j).ino ≠ 0 := hpassed hbefore j hj (by omega)
    dsimp only
    by_cases hlast : k < d.oldSlots
    · rw [enter_old (show ¬ Dir.oldSlots { d with lastDpos := pos } < k + 1 from not_lt.mpr hlast)]
      refine ⟨_, _, _, rfl, h.entered hk hfree hused hkey hnumb ⟨hs.dir, hs.blockSize_pos, hs.sectors, hs.size_dvd,
        hs.size_lt, hdvd⟩ rfl ?_ (update_self ..) (fun j _ hj => update_of_ne hj ..) hpos,
        fun hlt => absurd hlt (lt_irrefl _)⟩
      · change d.oldSlots = _
        omega
    have heq : k = d.oldSlots := by omega
    have hroom : d.size + dirEntrySize < offRange := hrange.resolve_left fun ⟨j, hj, hz⟩ => hused j (by omega) hz
    have hnew : (k + 1) * dirEntrySize = d.size + dirEntrySize := by
      unfold dirEntrySize at *
      omega
    rw [enter_new (show Dir.oldSlots { d with lastDpos := pos } < k + 1 from Nat.lt_succ_of_le heq.ge) (by omega), hnew]
    refine ⟨_, _, _, rfl, h.entered hk hfree hused hkey hnumb ⟨hs.dir, hs.blockSize_pos, hs.sectors,
      (Nat.dvd_add_left dvd_rfl).mpr hs.size_dvd, hroom, hdvd⟩ rfl ?_ (update_self ..)
      (fun j _ hj => update_of_ne hj ..) hpos, fun _ j hj => hused j (heq ▸ hj)⟩
    · change (d.size + dirEntrySize) / dirEntrySize = _
      unfold dirEntrySize at *
      omega
  | @full pos n hall hdvd _ _ henter =>
    obtain ⟨rfl, rfl⟩ := henter rfl
    have hused (j : Nat) (hj : j < d.oldSlots) : (d.slot j).ino ≠ 0 := hpassed hall j hj hj
    have hroom : d.size + dirEntrySize < offRange := hrange.resolve_left fun ⟨j, hj, hz⟩ => hused j hj hz
    dsimp only
    rw [if_neg nofun, if_neg (by simp), if_neg (by unfold dirEntrySize offRange at *; omega)]
    by_cases hblock : env.newBlock = true
    · have hat : d.size / d.blockSize * d.blockSize = d.size := Nat.div_mul_cancel hdvd
      have hslot : d.size / dirEntrySize = d.oldSlots := rfl
      rw [if_neg (by simp [hblock]), hat, hslot]
      have hnew : (d.oldSlots + 1) * dirEntrySize = d.size + dirEntrySize := by
        unfold dirEntrySize at *
        omega
      rw [enter_new (show Dir.oldSlots (Dir.addBlock { d with lastDpos := d.size }) < d.oldSlots + 1 from Nat.lt_succ_self _) (by omega), hnew]
      refine ⟨_, _, _, rfl, h.entered le_rfl (fun hlt => absurd hlt (lt_irrefl _)) hused hkey hnumb ⟨hs.dir, hs.blockSize_pos, hs.sectors,
        (Nat.dvd_add_left dvd_rfl).mpr hs.size_dvd, hroom, hdvd⟩ rfl ?_ (update_self ..)
        (fun j hold hj => (update_of_ne hj ..).trans ?_) hsize.ge, fun _ => hused⟩
      · change (d.size + dirEntrySize) / dirEntrySize = _
        unfold dirEntrySize at *
        omega
      · refine if_neg fun hand => ?_
        rw [hat] at hand
        unfold dirEntrySize at *
        omega
    · rw [if_pos (by simp [hblock])]
      exact ⟨_, _, _, rfl, ⟨⟨hs.dir, hs.blockSize_pos, hs.sectors, hs.size_dvd, hs.size_lt, hdvd⟩, fun j _ hj => hused j hj, h.unique,
        h.names⟩, fun hlt => absurd hlt (lt_irrefl _)⟩

theorem Is.run (h : d.Is m) (env : Surroundings) (c : Call) (hallowed : c.Allowed m) (hrange : c.InRange m d) :
    ∃ res numb d', c.run env d = some (res, numb, d') ∧ c.Right m d d' res numb ∧ d'.Is (c.after m res) := by
  cases c with
  | lookUp string =>
    obtain ⟨res, numb, hrun, hright⟩ := h.lookUp env hrange
    exact ⟨res, numb, d, hrun, hright, h⟩
  | enter string numb =>
    obtain ⟨res, numb', d', hrun, his, hgrow⟩ := h.enter env hallowed.1 hallowed.2 hrange
    exact ⟨res, numb', d', hrun, hgrow, his⟩
  | delete string =>
    obtain ⟨res, numb, d', hrun, his, hright⟩ := h.delete env hrange
    exact ⟨res, numb, d', hrun, hright, his⟩
  | isEmpty =>
    obtain ⟨res, numb, hrun, hright⟩ := h.isEmpty env hrange
    exact ⟨res, numb, d, hrun, hright, h⟩
  | evict =>
    have hs := h.shape
    exact ⟨.OK, 0, _, rfl, trivial, ⟨hs.dir, hs.blockSize_pos, hs.sectors, hs.size_dvd, hs.size_lt, Nat.dvd_zero _⟩,
      fun j hj => absurd hj (Nat.not_lt_zero _), h.unique, h.names⟩

end Calls

end Dir

end HardenedMinix.Mfs
