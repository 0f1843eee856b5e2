import HardenedMinix.Libvtreefs.InodeTree

/-!
# Deleting keeps the invariant

The number of open calls is bounded by the rank of the inode on the way up, and by what is left
below it on the way down.
-/

open List

namespace HardenedMinix.Libvtreefs

open Lib

namespace Table

variable {n : Nat} {rank : Nat → Nat} {t : Table} {D X : List Nat} {p y : Nat}

theorem leave_frame (hne : y ≠ p) {i : Nat} (hi : i ≠ y) : Frame t (t.leave y p) i := by
  refine ⟨?_, Iff.rfl⟩
  unfold data
  rw [leave_inode hne, if_neg hi]
  split_ifs with hp
  · rw [hp]
  · rfl

theorem leave_self (hne : y ≠ p) : (t.leave y p).inode y = { t.inode y with parent := none } := by
  rw [leave_inode hne, if_pos rfl]

theorem leave_isDeleted (hne : y ≠ p) (i : Nat) : (t.leave y p).isDeleted i = t.isDeleted i := by
  by_cases hi : i = y
  · subst hi
    unfold isDeleted
    rw [leave_self hne]
  · exact (leave_frame hne hi).isDeleted

theorem unhash_frame {i : Nat} (hi : i ≠ y) : Frame t (t.unhash y) i := by
  refine ⟨?_, Iff.rfl⟩
  unfold data
  have hinode : (t.unhash y).inode i = t.inode i := Function.update_of_ne hi ..
  rw [hinode]

theorem unhash_self : (t.unhash y).inode y = { t.inode y with deleted := some true } :=
  Function.update_self ..

theorem insertUnused_frame {i : Nat} (hi : i ≠ y) : Frame t (t.insertUnused y) i :=
  ⟨rfl, by simp [insertUnused, hi]⟩

theorem Sound.detach (h : Sound n rank t D [y]) (hy : y < n) (hfree : ¬ t.Free D y)
    (hdel : t.isDeleted y) (hcount : (t.inode y).count = 0) (hchildren : (t.inode y).children = [])
    (hp : (t.inode y).parent = some p) : y ≠ p ∧ Sound n rank (t.leave y p) (y :: D) [p] := by
  have hne : y ≠ p := by
    rintro rfl
    have hrank := h.forest.rank_succ hp
    omega
  have hleave := h.leave hp hdel hchildren (mem_cons_self ..)
  refine ⟨hne, (hleave.mono [y, p] (by simp)).drop hy hfree ?_ ?_ ?_ ?_⟩
  · rw [leave_isDeleted hne]
    exact hdel
  · rw [leave_self hne]
    exact hcount
  · rw [leave_self hne]
    exact hchildren
  · rw [leave_self hne]

theorem Sound.freeTop (h : Sound n rank t D [y]) (delete : Table → Nat → Option Table) (hy : y < n) (hfree : ¬ t.Free D y)
    (hdel : t.isDeleted y) (hdir : (t.inode y).isDir ↔ (t.inode y).parent ≠ none)
    (hparent : ∀ p, (t.inode y).parent = some p → t.isDeleted p = false) :
    ∃ t', t.freeInode delete y = some t' ∧ Sound n rank t' D [] ∧ (∀ i, i ≠ y → Frame t t' i) ∧
      t'.isDeleted y ∧ t.unused <:+ t'.unused ∧
      ((t.inode y).count = 0 → (t.inode y).children = [] → y ∈ t'.unused) := by
  unfold freeInode
  by_cases hneed : (t.inode y).count = 0 ∧ (t.inode y).children = []
  · rw [if_pos hneed]
    cases hp : (t.inode y).parent with
    | none =>
      refine ⟨t.insertUnused y, by simp, ?_, fun i hi => insertUnused_frame hi, hdel,
        suffix_cons .., fun _ _ => mem_cons_self ..⟩
      exact (h.drop hy hfree hdel hneed.1 hneed.2 hp).insertUnused
    | some p =>
      obtain ⟨hne, hdetach⟩ := h.detach hy hfree hdel hneed.1 hneed.2 hp
      have hpdel : (t.leave y p).isDeleted p = false := by
        rw [leave_isDeleted hne]
        exact hparent p hp
      refine ⟨(t.leave y p).insertUnused y, ?_, ?_, fun i hi => ?_, ?_, suffix_cons ..,
        fun _ _ => mem_cons_self ..⟩
      · simp [unlinkInode, hdel, hp, hparent p hp]
      · exact (hdetach.settled fun hd => absurd (hpdel.symm.trans hd) (by simp)).insertUnused
      · exact (leave_frame hne hi).trans (insertUnused_frame hi)
      · have hsame : ((t.leave y p).insertUnused y).isDeleted y = (t.leave y p).isDeleted y := rfl
        rw [hsame, leave_isDeleted hne]
        exact hdel
  rw [if_neg hneed]
  refine ⟨t, rfl, h.settled fun _ => ⟨hdir, ?_⟩, fun i _ => Frame.refl t i, hdel,
    suffix_refl _, fun hc hch => absurd ⟨hc, hch⟩ hneed⟩
  by_cases hc : (t.inode y).count = 0
  · exact .inr fun hch => hneed ⟨hc, hch⟩
  · exact .inl (Nat.pos_of_ne_zero hc)

/-- An inode that is looked at again: if it is freed and its parent was only waiting for it, the
parent is freed too. -/
theorem Sound.freeInode (fuel : Nat) (h : Sound n rank t D [y]) (hy : y < n) (hfree : ¬ t.Free D y)
    (hdel : t.isDeleted y) (hdir : (t.inode y).isDir ↔ (t.inode y).parent ≠ none)
    (hfuel : ∀ p, (t.inode y).parent = some p → rank y ≤ fuel) :
    ∃ t', t.freeInode (deleteInode n fuel) y = some t' ∧ Sound n rank t' D [] ∧
      t.unused <:+ t'.unused := by
  induction fuel generalizing t D y with
  | zero =>
    obtain ⟨t', hrun, hsound, -, -, hsuffix, -⟩ := h.freeTop (deleteInode n 0) hy hfree hdel
      hdir fun p hp => by
        have hrank := h.forest.rank_succ hp
        have hle := hfuel p hp
        omega
    exact ⟨t', hrun, hsound, hsuffix⟩
  | succ fuel ih =>
    by_cases hup : ∃ p, (t.inode y).parent = some p ∧ t.isDeleted p ∧ (t.inode y).count = 0 ∧
        (t.inode y).children = []
    · obtain ⟨p, hp, hpdel, hcount, hchildren⟩ := hup
      obtain ⟨hne, hdetach⟩ := h.detach hy hfree hdel hcount hchildren hp
      have hplt := h.forest.parent_lt hp
      have hroot := h.ne_root hpdel
      have hpdel' : (t.leave y p).isDeleted p := by
        rw [leave_isDeleted hne]
        exact hpdel
      have hpfree : ¬ (t.leave y p).Free (y :: D) p := by
        rw [free_cons, not_or]
        exact ⟨Ne.symm hne, (h.linked hp).2⟩
      have hframe : Frame t (t.leave y p) p := leave_frame hne (Ne.symm hne)
      have hpdir : ((t.leave y p).inode p).isDir ↔ ((t.leave y p).inode p).parent ≠ none := by
        rw [hframe.isDir, hframe.parent]
        refine iff_of_true (h.linked_dir hp) ?_
        obtain ⟨q, hq⟩ | hX := h.dir_parent hplt (h.linked hp).2 hpdel (h.linked_dir hp)
        · rw [hq]
          simp
        · exact absurd (mem_singleton.mp hX).symm hne
      have hrank := h.forest.rank_succ hp
      have hle := hfuel p hp
      obtain ⟨t', hrun, hsound, hsuffix⟩ := ih hdetach hplt hpfree hpdel' hpdir fun _ _ => by omega
      have hcheck : (t.leave y p).checkInode n p := by simp [checkInode, hplt, hpdel']
      refine ⟨t'.insertUnused y, ?_, hsound.insertUnused, hsuffix.trans (suffix_cons ..)⟩
      unfold Table.freeInode
      rw [if_pos ⟨hcount, hchildren⟩]
      simp only [hp, unlinkInode, hdel, hpdel, deleteInode, hcheck, hroot, hpdel', hrun, ne_eq,
        reduceCtorEq, not_false_eq_true, and_self, ↓reduceIte, Option.map_some]
    · by_cases hneed : (t.inode y).count = 0 ∧ (t.inode y).children = []
      · obtain ⟨t', hrun, hsound, -, -, hsuffix, -⟩ := h.freeTop (deleteInode n (fuel + 1))
          hy hfree hdel hdir fun p hp => by
            by_contra hpdel
            exact hup ⟨p, hp, Bool.not_eq_false _ ▸ hpdel, hneed⟩
        exact ⟨t', hrun, hsound, hsuffix⟩
      · refine ⟨t, if_neg hneed, h.settled fun _ => ⟨hdir, ?_⟩, suffix_refl _⟩
        by_cases hc : (t.inode y).count = 0
        · exact .inr fun hch => hneed ⟨hc, hch⟩
        · exact .inl (Nat.pos_of_ne_zero hc)

/-! ## Deleting -/

theorem Sound.scheduleInode (h : Sound n rank t D []) (delete : Table → Nat → Option Table)
    (hy : y < n) (hroot : y ≠ 0) (hlive : t.Live y)
    (hchildren : ∀ c ∈ (t.inode y).children, t.isDeleted c) :
    ∃ t', t.scheduleInode delete y = some t' ∧ Sound n rank t' D [] ∧
      (∀ i, i ≠ y → Frame t t' i) ∧ t'.isDeleted y ∧ t.unused <:+ t'.unused ∧
      ((t.inode y).count = 0 → (t.inode y).children = [] → y ∈ t'.unused) := by
  obtain ⟨p, hp⟩ := h.live_parent hroot hy hlive
  have hplive := h.live_child_parent hlive hp
  have hne : y ≠ p := by
    rintro rfl
    have hrank := h.forest.rank_succ hp
    omega
  have hu := h.unhash hlive hroot hchildren
  have hdel : (t.unhash y).isDeleted y := by
    unfold isDeleted
    rw [unhash_self]
    rfl
  have hpdel : (t.unhash y).isDeleted p = false := by
    rw [(unhash_frame (t := t) (Ne.symm hne)).isDeleted]
    exact hplive.not_deleted
  have hfree := h.not_free hlive
  unfold Table.scheduleInode
  cases hdir : (t.inode y).isDir with
  | true =>
    obtain ⟨t', hrun, hsound, hframe, hdel', hsuffix, hfreed⟩ := hu.freeTop delete hy hfree hdel
      (by
        rw [unhash_self]
        exact iff_of_true hdir (by simp [hp]))
      (fun q hq => by
        rw [unhash_self] at hq
        simp only at hq
        obtain rfl := Option.some.inj (hp.symm.trans hq)
        exact hpdel)
    rw [unhash_self] at hfreed
    exact ⟨t', by simpa using hrun, hsound, fun i hi => (unhash_frame hi).trans (hframe i hi), hdel',
      hsuffix, hfreed⟩
  | false =>
    -- an inode that is no directory has no children, and leaves its parent at once
    have hnone : (t.inode y).children = [] := by
      rw [eq_nil_iff_forall_not_mem]
      intro c hc
      have hd := h.linked_dir (h.mem_children.mp hc)
      rw [hdir] at hd
      cases hd
    have hup : ((t.unhash y).inode y).parent = some p := by
      rw [unhash_self]
      exact hp
    have hleave := hu.leave hup hdel (by rw [unhash_self]; exact hnone) (mem_cons_self ..)
    have hpdel' : ((t.unhash y).leave y p).isDeleted p = false := by
      rw [leave_isDeleted hne]
      exact hpdel
    have htop := hleave.settled fun hd => absurd (hpdel'.symm.trans hd) (by simp)
    obtain ⟨t', hrun, hsound, hframe, hdel', hsuffix, hfreed⟩ := htop.freeTop delete hy hfree
      (by
        rw [leave_isDeleted hne]
        exact hdel)
      (by
        rw [leave_self hne, unhash_self]
        simp [hdir])
      (fun q hq => by
        rw [leave_self hne] at hq
        cases hq)
    rw [leave_self hne, unhash_self] at hfreed
    refine ⟨t', ?_, hsound, fun i hi => ?_, hdel', hsuffix, hfreed⟩
    · simp [unlinkInode, hdel, hup, hpdel, hrun]
    · exact ((unhash_frame hi).trans (leave_frame hne hi)).trans (hframe i hi)

theorem Sound.deleteInode_deleted (h : Sound n rank t D []) (hy : y < n) (hfree : ¬ t.Free D y)
    (hdel : t.isDeleted y) (fuel : Nat) : deleteInode n (fuel + 1) t y = some t := by
  have hcheck : t.checkInode n y := by simp [checkInode, hy, hdel]
  have hneed : ¬ ((t.inode y).count = 0 ∧ (t.inode y).children = []) := by
    rintro ⟨hc, hch⟩
    obtain h' | h' | h' := h.needed hy hfree hdel
    · omega
    · exact h' hch
    · cases h'
  rw [deleteInode, if_pos ⟨hcheck, h.ne_root hdel⟩, if_pos hdel]
  exact if_neg hneed

/-- `delete_inode` of an inode not deleted yet: everything that is not below it stays. -/
def Deletes (n : Nat) (rank : Nat → Nat) (D : List Nat) (fuel : Nat) : Prop :=
  ∀ (t : Table) (y : Nat), Sound n rank t D [] → y < n → y ≠ 0 → t.Live y → n + 1 ≤ fuel + rank y →
    ∃ t', deleteInode n fuel t y = some t' ∧ Sound n rank t' D [] ∧
      (∀ i, i ≠ y → rank i ≤ rank y → Frame t t' i) ∧ t'.isDeleted y ∧ t.unused <:+ t'.unused

theorem Deletes.children {fuel : Nat} (hdelete : Deletes n rank D (fuel + 1)) (hy : t.Live y)
    (cs : List Nat) (hnodup : cs.Nodup) (h : Sound n rank t D [])
    (hcs : ∀ c ∈ cs, (t.inode c).parent = some y) (hfuel : n ≤ fuel + 1 + rank y) :
    ∃ t', cs.foldlM (deleteInode n (fuel + 1)) t = some t' ∧ Sound n rank t' D [] ∧
      (∀ i, i ∉ cs → rank i ≤ rank y + 1 → Frame t t' i) ∧ (∀ c ∈ cs, t'.isDeleted c) ∧
      t.unused <:+ t'.unused := by
  induction cs generalizing t with
  | nil => exact ⟨t, rfl, h, fun i _ _ => Frame.refl t i, by simp, suffix_refl _⟩
  | cons c cs ih =>
    obtain ⟨hc, hnodup⟩ := nodup_cons.mp hnodup
    have hcp := hcs c (mem_cons_self ..)
    have hrank := h.forest.rank_succ hcp
    have hclt := h.forest.child_lt hcp
    have hcfree := (h.linked hcp).1
    have hfirst : ∃ t1, deleteInode n (fuel + 1) t c = some t1 ∧ Sound n rank t1 D [] ∧
        (∀ i, i ≠ c → rank i ≤ rank c → Frame t t1 i) ∧ t1.isDeleted c ∧ t.unused <:+ t1.unused := by
      obtain hlive | hdel := h.live_or_deleted hclt hcfree
      · refine hdelete t c h hclt ?_ hlive (by omega)
        rintro rfl
        rw [h.root_parent] at hcp
        cases hcp
      · exact ⟨t, h.deleteInode_deleted hclt hcfree hdel fuel, h, fun i _ _ => Frame.refl t i, hdel,
          suffix_refl _⟩
    obtain ⟨t1, hrun1, hsound1, hframe1, hdel1, hsuffix1⟩ := hfirst
    have hyc : y ≠ c := by
      rintro rfl
      omega
    have hylive : t1.Live y := by
      unfold Live
      rw [(hframe1 y hyc (by omega)).deleted]
      exact hy
    have hrest : ∀ k ∈ cs, (t1.inode k).parent = some y := by
      intro k hk
      have hkp := hcs k (mem_cons_of_mem _ hk)
      have hkrank := h.forest.rank_succ hkp
      have hkc : k ≠ c := fun heq => hc (heq ▸ hk)
      rw [(hframe1 k hkc (by omega)).parent]
      exact hkp
    obtain ⟨t', hrun, hsound, hframe, hdel, hsuffix⟩ := ih hylive hnodup hsound1 hrest
    refine ⟨t', ?_, hsound, fun i hi hir => ?_, fun k hk => ?_, hsuffix1.trans hsuffix⟩
    · rw [foldlM_cons, hrun1]
      exact hrun
    · rw [mem_cons, not_or] at hi
      exact (hframe1 i hi.1 (by omega)).trans (hframe i hi.2 hir)
    · obtain rfl | hk := mem_cons.mp hk
      · rw [(hframe k hc (by omega)).isDeleted]
        exact hdel1
      · exact hdel k hk

theorem deletes (n : Nat) (rank : Nat → Nat) (D : List Nat) (fuel : Nat) : Deletes n rank D fuel := by
  induction fuel with
  | zero =>
    intro t y h hy hroot hlive hfuel
    obtain ⟨p, hp⟩ := h.live_parent hroot hy hlive
    have hlt := h.forest.rank_lt hp
    omega
  | succ fuel ih =>
    intro t y h hy hroot hlive hfuel
    obtain ⟨p, hp⟩ := h.live_parent hroot hy hlive
    have hlt := h.forest.rank_lt hp
    obtain ⟨fuel, rfl⟩ : ∃ k, fuel = k + 1 := ⟨fuel - 1, by omega⟩
    obtain ⟨t1, hrun1, hsound1, hframe1, hdel1, hsuffix1⟩ := ih.children hlive _ (h.children_nodup y) h
      (fun c hc => h.mem_children.mp hc) (by omega)
    have hself : y ∉ (t.inode y).children := by
      intro hmem
      have hrank := h.forest.rank_succ (h.mem_children.mp hmem)
      omega
    have hyframe := hframe1 y hself (by omega)
    have hlive1 : t1.Live y := by
      unfold Live
      rw [hyframe.deleted]
      exact hlive
    have hchildren : ∀ c ∈ (t1.inode y).children, t1.isDeleted c := by
      intro c hc
      have hcp := hsound1.mem_children.mp hc
      by_cases hmem : c ∈ (t.inode y).children
      · exact hdel1 c hmem
      · have hcrank := hsound1.forest.rank_succ hcp
        rw [(hframe1 c hmem (by omega)).parent] at hcp
        exact absurd (h.mem_children.mpr hcp) hmem
    obtain ⟨t', hrun, hsound, hframe, hdel, hsuffix, -⟩ :=
      hsound1.scheduleInode (deleteInode n (fuel + 1)) hy hroot hlive1 hchildren
    refine ⟨t', ?_, hsound, fun i hi hir => ?_, hdel, hsuffix1.trans hsuffix⟩
    · have hcheck : t.checkInode n y := by simp [checkInode, hy, hp]
      rw [deleteInode, if_pos ⟨hcheck, hroot⟩, if_neg (by simp [hlive.not_deleted]), hrun1]
      exact hrun
    · refine (hframe1 i (fun hmem => ?_) (by omega)).trans (hframe i hi)
      have hrank := h.forest.rank_succ (h.mem_children.mp hmem)
      omega

end Table

end HardenedMinix.Libvtreefs
