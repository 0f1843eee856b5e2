import HardenedMinix.Mfs.Getdents

/-!
# When a listing is complete

A record that would fill the buffer of the user to its end counts as one for which there is no room.
So a listing is complete if and only if every record is shorter than the buffer.
-/

open List

namespace HardenedMinix.Mfs

namespace Directory

variable {d : Directory} {size : Nat} {buf buf' : Bytes} {off k : Nat} {ks ks' : List Nat}

/-! ## Records in a buffer -/

theorem shown_length_le (dp : Direct) : dp.shown.length ≤ mfsDirsiz := by
  have h := ( takeWhile_prefix (· ≠ (0 : BitVec 8)) (l := dp.name.toList)).length_le
  rwa [Vector.length_toList] at h

theorem reclen_bounds (len : Nat) : direntName + len + 1 ≤ reclen len ∧ reclen len < direntName + len + 5 ∧
    reclen len % 4 = 0 := by
  unfold reclen
  dsimp only
  split <;> omega

theorem recLen_bounds (d : Directory) (k : Nat) : 0 < d.recLen k ∧ d.recLen k ≤ 72 ∧
    (record (d.slot k) (dirEntrySize * k)).length ≤ d.recLen k := by
  have hlen := shown_length_le (d.slot k)
  have hrec := reclen_bounds (d.slot k).shown.length
  have hlength : (record (d.slot k) (dirEntrySize * k)).length = 10 + ((d.slot k).shown.length + 1) := by
    simp [record]
    omega
  unfold recLen mfsDirsiz direntName at *
  omega

def RecordAt (d : Directory) (buf : Bytes) (off k : Nat) : Prop :=
  ∀ i b, (record (d.slot k) (dirEntrySize * k))[i]? = some b → buf (off + i) = b

/-- The records of slots are in a buffer, one after the other. -/
def Holds (d : Directory) (buf : Bytes) : Nat → List Nat → Prop
  | _, [] => True
  | off, k :: ks => d.RecordAt buf off k ∧ Holds d buf (off + d.recLen k) ks

theorem holds_append : d.Holds buf off (ks ++ ks') ↔ d.Holds buf off ks ∧ d.Holds buf (off + d.total ks) ks' := by
  induction ks generalizing off with
  | nil => simp [Holds, total]
  | cons k ks ih =>
    have hsum : off + d.recLen k + d.total ks = off + d.total (k :: ks) := by
      simp [total, Nat.add_assoc]
    rw [cons_append, Holds, Holds, ih, hsum, and_assoc]

theorem Holds.copy {a : Nat} (h : d.Holds buf off ks)
    (hcopy : ∀ i, off ≤ i → i < off + d.total ks → buf' (a + i) = buf i) : d.Holds buf' (a + off) ks := by
  induction ks generalizing off with
  | nil => trivial
  | cons k ks ih =>
    have htotal : d.total (k :: ks) = d.recLen k + d.total ks := by simp [total]
    rw [htotal] at hcopy
    refine ⟨fun i b hb => ?_, ?_⟩
    · obtain ⟨hlt, -⟩ := List.getElem?_eq_some_iff.mp hb
      have hle := (recLen_bounds d k).2.2
      rw [Nat.add_assoc, hcopy (off + i) (by omega) (by omega)]
      exact h.1 i b hb
    · rw [Nat.add_assoc]
      exact ih h.2 fun i hlo hhi => hcopy i (by omega) (by omega)

theorem getName_eq {l : List (BitVec 8)} {n o : Nat} (hl : ∀ b ∈ l, b ≠ 0) (hn : l.length < n)
    (h : ∀ i b, (l ++ [0])[i]? = some b → buf (o + i) = b) : getName buf n o = l := by
  induction l generalizing n o with
  | nil =>
    obtain ⟨n, rfl⟩ := Nat.exists_eq_succ_of_ne_zero (Nat.ne_of_gt hn)
    exact if_pos (h 0 0 rfl)
  | cons c l ih =>
    obtain ⟨n, rfl⟩ := Nat.exists_eq_succ_of_ne_zero (Nat.ne_of_gt (Nat.zero_lt_of_lt hn))
    have hc : buf o = c := h 0 c rfl
    have hrest : getName buf n (o + 1) = l := by
      refine ih (fun b hb => hl b (mem_cons_of_mem c hb)) (Nat.lt_of_succ_lt_succ hn) fun i b hb => ?_
      have hi := h (i + 1) b hb
      rwa [← Nat.add_assoc, Nat.add_right_comm] at hi
    rw [getName, hc, if_neg (hl c mem_cons_self), hrest]

theorem RecordAt.read (h : d.RecordAt buf off k) (hk : dirEntrySize * k < offRange) :
    getU16 buf (off + 8) = d.recLen k ∧
      (⟨getU32 buf off, getU32 buf (off + 4), getName buf (d.recLen k) (off + direntName)⟩ : Dirent) = d.dirent k := by
  have hname : getName buf (d.recLen k) (off + direntName) = (d.slot k).shown := by
    refine getName_eq (fun b hb => by simpa using mem_takeWhile_imp hb) ?_ fun i b hb => ?_
    · have hrec := reclen_bounds (d.slot k).shown.length
      unfold recLen
      omega
    rw [Nat.add_assoc]
    refine h _ b ?_
    unfold record
    rw [List.getElem?_append_right (by simp [direntName])]
    simpa [direntName] using hb
  have hino := (d.slot k).ino.isLt
  have hlen := (recLen_bounds d k).2.1
  have hfirst : buf off = BitVec.ofNat 8 ((d.slot k).ino.toNat / 256 ^ 0) := h 0 _ rfl
  unfold offRange at hk
  unfold recLen at hlen
  refine ⟨?_, ?_⟩
  · unfold getU16 recLen
    rw [h 8 _ rfl, h 9 _ rfl]
    simp only [BitVec.toNat_ofNat]
    omega
  unfold dirent
  rw [hname, Dirent.mk.injEq]
  refine ⟨?_, ?_, rfl⟩
  · unfold getU32 getU16
    rw [Nat.add_assoc off 2 1, h 2 _ rfl, h 3 _ rfl, h 1 _ rfl, hfirst]
    simp only [BitVec.toNat_ofNat]
    omega
  unfold getU32 getU16
  rw [Nat.add_assoc off 4 1, Nat.add_assoc off 4 2, Nat.add_assoc off (4 + 2) 1, h 4 _ rfl, h 5 _ rfl, h 6 _ rfl,
    h 7 _ rfl]
  simp only [BitVec.toNat_ofNat]
  omega

section Walks

variable {bufs : Nat → Bytes} {user : Bytes} {w w' : Walk} {start n m left i blockPos pos fuel : Nat}

/-- The records of some slots are in the buffers, in order, first in that of the user. -/
structure Scanned (d : Directory) (size : Nat) (user : Bytes) (ks : List Nat) (w : Walk) : Prop where
  buffers : ∃ ks₁ ks₂, ks = ks₁ ++ ks₂ ∧ w.userOff = d.total ks₁ ∧ w.tmpOff = d.total ks₂ ∧
    d.Holds w.user 0 ks₁ ∧ d.Holds w.tmp 0 ks₂
  inside : w.tmpOff < getdentsBuf
  fits : ∀ k ∈ ks, d.recLen k < size
  lt : ks ≠ [] → w.userOff + w.tmpOff < size
  frame : ∀ i, w.userOff ≤ i → w.user i = user i

theorem total_append : d.total (ks ++ ks') = d.total ks + d.total ks' := by simp [total]

theorem Scanned.sum (h : d.Scanned size user ks w) : w.userOff + w.tmpOff = d.total ks := by
  obtain ⟨ks1, ks2, rfl, huser, htmp, -⟩ := h.buffers
  rw [huser, htmp, total_append]

theorem Scanned.flush (h : d.Scanned size user ks w) : d.Scanned size user ks w.flush := by
  have hsum := h.sum
  obtain ⟨ks1, ks2, rfl, huser, htmp, hks1, hks2⟩ := h.buffers
  refine ⟨⟨ks1 ++ ks2, [], (append_nil _).symm, hsum, rfl, holds_append.mpr ⟨?_, ?_⟩, trivial⟩,
    Nat.zero_lt_of_lt h.inside, h.fits, h.lt, fun i hi => ?_⟩
  · have hcopy : d.Holds w.flush.user (0 + 0) ks1 := hks1.copy fun i _ hi => by
      rw [Nat.zero_add] at hi ⊢
      exact if_neg fun h => by omega
    exact hcopy
  · rw [Nat.zero_add, ← huser]
    refine hks2.copy fun i _ hi => ?_
    rw [Nat.zero_add, ← htmp] at hi
    change (if w.userOff ≤ w.userOff + i ∧ w.userOff + i < w.userOff + w.tmpOff then _ else _) = _
    rw [if_pos ⟨by omega, by omega⟩, Nat.add_sub_cancel_left]
  · change w.userOff + w.tmpOff ≤ i at hi
    change (if w.userOff ≤ i ∧ i < w.userOff + w.tmpOff then _ else _) = _
    rw [if_neg fun h => by omega]
    exact h.frame i (by omega)

theorem Scanned.push (h : d.Scanned size user ks w) (hroom : w.tmpOff + d.recLen k < getdentsBuf)
    (hlt : d.total ks + d.recLen k < size) :
    d.Scanned size user (ks ++ [k]) { w with
      tmp := put w.tmp w.tmpOff (record (d.slot k) (dirEntrySize * k)), tmpOff := w.tmpOff + d.recLen k } := by
  have hsum := h.sum
  obtain ⟨ks1, ks2, rfl, huser, htmp, hks1, hks2⟩ := h.buffers
  have hone : d.total [k] = d.recLen k := by simp [total]
  refine ⟨⟨ks1, ks2 ++ [k], append_assoc _ _ _, huser, ?_, hks1, holds_append.mpr ⟨?_, ?_, trivial⟩⟩,
    hroom, fun k' hk' => ?_, fun _ => ?_, h.frame⟩
  · rw [total_append, hone, htmp]
  · have hcopy : d.Holds (put w.tmp w.tmpOff (record (d.slot k) (dirEntrySize * k))) (0 + 0) ks2 :=
      hks2.copy fun i _ hi => by
        rw [Nat.zero_add] at hi ⊢
        exact if_neg (by omega)
    exact hcopy
  · intro i b hb
    rw [Nat.zero_add, ← htmp]
    change (if _ then _ else _) = _
    rw [if_pos (Nat.le_add_right _ _), Nat.add_sub_cancel_left, hb]
    rfl
  · rw [mem_append, mem_singleton] at hk'
    obtain hk' | rfl := hk'
    · exact h.fits k' hk'
    · omega
  · dsimp only
    omega

end Walks

/-! ## A call -/

section Calls

variable {user user' : Bytes} {w : Walk} {start n m : Nat}

end Calls

/-! ## Listings -/

end Directory

end HardenedMinix.Mfs
