import HardenedMinix.Libvtreefs.InodeDelete

/-!
# What each call does to the inode table

References are counted, inodes are purged to make room, and the first unused inode becomes a
child; the look-ups find what the tree has.
-/

open Function

namespace HardenedMinix.Libvtreefs

open Lib

namespace Table

variable {n : Nat} {rank : Nat → Nat} {t : Table} {D : List Nat} {p y : Nat}

/-! ## References -/

theorem Sound.setCount (h : Sound n rank t [] []) (hy : ¬ t.Free [] y) (k : Nat) :
    Sound n rank (t.modify y fun x => { x with count := k }) [] [y] := by
  have hinode (j : Nat) : (t.modify y fun x => { x with count := k }).inode j =
      if j = y then { t.inode y with count := k } else t.inode j := by
    split_ifs with hj
    · rw [hj]
      exact modify_self _
    · exact modify_of_ne _ hj
  have hparent (j : Nat) : ((t.modify y fun x => { x with count := k }).inode j).parent =
      (t.inode j).parent := by
    rw [hinode]
    split_ifs with hj
    · rw [hj]
    · rfl
  have hsame (j : Nat) : ((t.modify y fun x => { x with count := k }).inode j).isDir = (t.inode j).isDir ∧
      ((t.modify y fun x => { x with count := k }).inode j).deleted = (t.inode j).deleted ∧
      ((t.modify y fun x => { x with count := k }).inode j).name = (t.inode j).name ∧
      ((t.modify y fun x => { x with count := k }).inode j).index = (t.inode j).index ∧
      ((t.modify y fun x => { x with count := k }).inode j).children = (t.inode j).children := by
    rw [hinode]
    split_ifs with hj
    · rw [hj]
      simp
    · simp
  have hlive (j : Nat) : (t.modify y fun x => { x with count := k }).Live j ↔ t.Live j := by
    unfold Live
    rw [(hsame j).2.1]
  have hisDel (j : Nat) : (t.modify y fun x => { x with count := k }).isDeleted j = t.isDeleted j := by
    unfold isDeleted
    rw [(hsame j).2.1]
  exact
    { nodup := h.nodup
      free_lt := h.free_lt
      free_count := fun {i} hi => by
        have hiy : i ≠ y := by
          rintro rfl
          exact hy hi
        rw [hinode, if_neg hiy]
        exact h.free_count hi
      free_deleted := fun {i} hi hl => h.free_deleted hi ((hlive i).mp hl)
      written := fun {i} hi hf => by
        rw [(hsame i).2.1]
        exact h.written hi hf
      root_live := (hlive 0).mpr h.root_live
      root_parent := (hparent 0).trans h.root_parent
      root_index := (hsame 0).2.2.2.1.trans h.root_index
      forest := by
        have hfun : (fun i => ((t.modify y fun x => { x with count := k }).inode i).parent) =
            fun i => (t.inode i).parent := funext hparent
        rw [hfun]
        exact h.forest
      linked := fun {i p} hi => h.linked ((hparent i).symm.trans hi)
      linked_dir := fun {i p} hi => by
        rw [(hsame p).1]
        exact h.linked_dir ((hparent i).symm.trans hi)
      deleted_dir := fun {i p} hi hd => by
        rw [hisDel] at hd
        rw [(hsame i).1]
        exact (h.deleted_dir ((hparent i).symm.trans hi) hd).imp_right (List.mem_cons_of_mem _)
      deleted_parent := fun {i p} hi hd => by
        rw [hisDel] at hd ⊢
        exact h.deleted_parent ((hparent i).symm.trans hi) hd
      live_parent := fun {i} hi hlt hl => by
        rw [hparent]
        exact h.live_parent hi hlt ((hlive i).mp hl)
      dir_parent := fun {i} hi hf hd hdir => by
        rw [hisDel] at hd
        rw [(hsame i).1] at hdir
        rw [hparent]
        exact (h.dir_parent hi hf hd hdir).imp_right (List.mem_cons_of_mem _)
      needed := fun {i} hi hf hd => by
        rw [hisDel] at hd
        by_cases hiy : i = y
        · exact Or.inr (Or.inr (hiy ▸ List.mem_cons_self ..))
        · rw [hinode, if_neg hiy]
          exact (h.needed hi hf hd).imp_right (Or.imp_right (List.mem_cons_of_mem _))
      children_nodup := fun p => by
        rw [(hsame p).2.2.2.2]
        exact h.children_nodup p
      mem_children := fun {p i} => by
        rw [(hsame p).2.2.2.2, hparent]
        exact h.mem_children
      names_nodup := h.names_nodup
      mem_names := fun {slot i} => by
        rw [hlive, hparent, (hsame i).2.2.1]
        exact h.mem_names
      indexes_nodup := h.indexes_nodup
      mem_indexes := fun {slot i} => by
        rw [hlive, hparent, (hsame i).2.2.2.1]
        exact h.mem_indexes
      name_unique := fun {i j p} hi hj hpi hpj hname => by
        rw [(hsame i).2.2.1, (hsame j).2.2.1] at hname
        exact h.name_unique ((hlive i).mp hi) ((hlive j).mp hj) ((hparent i).symm.trans hpi)
          ((hparent j).symm.trans hpj) hname
      index_unique := fun {i j p k} hi hj hpi hpj hki hkj =>
        h.index_unique ((hlive i).mp hi) ((hlive j).mp hj) ((hparent i).symm.trans hpi)
          ((hparent j).symm.trans hpj) ((hsame i).2.2.2.1.symm.trans hki)
          ((hsame j).2.2.2.1.symm.trans hkj)
      checked := h.checked }

theorem Sound.addReference (h : Sound n rank t [] []) (hlt : y < n) (hy : ¬ t.Free [] y) :
    Sound n rank (t.modify y fun x => { x with count := x.count + 1 }) [] [] := by
  refine (h.setCount hy ((t.inode y).count + 1)).settled fun hdel => ?_
  have hdel' : t.isDeleted y := by simpa [isDeleted] using hdel
  have hdir := h.dir_iff hlt hy hdel'
  refine ⟨?_, Or.inl ?_⟩
  · simpa using hdir
  · simp

theorem Sound.putInode (h : Sound n rank t [] []) (hcheck : t.checkInode n y)
    (hcount : 0 < (t.inode y).count) :
    ∃ t', t.putInode n y = some t' ∧ Sound n rank t' [] [] ∧ t.unused <:+ t'.unused := by
  have hlt : y < n := by
    simp only [checkInode, decide_eq_true_eq] at hcheck
    exact hcheck.1
  have hfree : ¬ t.Free [] y := by
    intro hf
    have hzero := h.free_count hf
    omega
  have hset := h.setCount hfree ((t.inode y).count - 1)
  unfold Table.putInode
  rw [if_pos ⟨hcheck, hcount⟩]
  simp only [modify_self]
  by_cases hlast : (t.modify y fun x => { x with count := x.count - 1 }).isDeleted y ∧
      (t.inode y).count - 1 = 0
  · rw [if_pos hlast]
    have hdel : t.isDeleted y := by simpa [isDeleted] using hlast.1
    have hroot := h.ne_root hdel
    have hdir := h.dir_iff hlt hfree hdel
    obtain ⟨t', hrun, hsound, hsuffix⟩ := hset.freeInode n hlt hfree hlast.1
      (by simpa using hdir) fun p hp => by
        have hp' : (t.inode y).parent = some p := by simpa using hp
        exact (h.forest.rank_lt hp').le
    refine ⟨t', ?_, hsound, hsuffix⟩
    have hcheck' : (t.modify y fun x => { x with count := x.count - 1 }).checkInode n y := by
      simp [checkInode, hlt, hlast.1]
    rw [depth, deleteInode, if_pos ⟨hcheck', hroot⟩, if_pos hlast.1]
    exact hrun
  rw [if_neg hlast]
  refine ⟨_, rfl, hset.settled fun hdel => ?_, List.suffix_refl _⟩
  have hdel' : t.isDeleted y := by simpa [isDeleted] using hdel
  have hdir := h.dir_iff hlt hfree hdel'
  refine ⟨by simpa using hdir, Or.inl ?_⟩
  have hne : (t.inode y).count - 1 ≠ 0 := fun hzero => hlast ⟨hdel, hzero⟩
  simp only [modify_self]
  omega

/-! ## Deleting and purging -/

theorem Sound.deleteInode (h : Sound n rank t [] []) (hlt : y < n) (hroot : y ≠ 0)
    (hfree : ¬ t.Free [] y) :
    ∃ t', deleteInode n (depth n) t y = some t' ∧ Sound n rank t' [] [] ∧ t.unused <:+ t'.unused := by
  obtain hlive | hdel := h.live_or_deleted hlt hfree
  · obtain ⟨t', hrun, hsound, -, -, hsuffix⟩ :=
      deletes n rank [] (depth n) t y h hlt hroot hlive (Nat.le_add_right ..)
    exact ⟨t', hrun, hsound, hsuffix⟩
  · exact ⟨t, h.deleteInode_deleted hlt hfree hdel n, h, List.suffix_refl _⟩

theorem Sound.check (h : Sound n rank t D []) {k : Nat} (hk : k < n) :
    Sound n rank { t with lastChecked := k } D [] :=
  { h with checked := hk }

/-- What is deleted to make room: at most one inode, which is not the directory that needs it. -/
structure Purged (t t' : Table) (parent : Nat) : Prop where
  suffix : t.unused <:+ t'.unused
  others : ∀ i, Frame t t' i ∨ i ≠ parent ∧ t'.isDeleted i

theorem Sound.purgeLoop (h : Sound n rank t [] []) (hunused : t.unused = []) (parent turns : Nat) :
    ∃ t', purgeLoop n parent turns t = some t' ∧ Sound n rank t' [] [] ∧ Purged t t' parent ∧
      (t'.unused = [] → ∀ k < turns, t.deletable parent ((t.lastChecked + k) % n) = false) := by
  induction turns generalizing t with
  | zero =>
    exact ⟨t, rfl, h, ⟨List.suffix_refl _, fun i => Or.inl (Frame.refl t i)⟩, fun _ k hk => by omega⟩
  | succ turns ih =>
    have hmod : (t.lastChecked + 1) % n < n := Nat.mod_lt _ h.pos
    have hnext := h.check hmod
    unfold Table.purgeLoop
    simp only
    by_cases hdeletable : ({ t with lastChecked := (t.lastChecked + 1) % n } : Table).deletable parent
        t.lastChecked
    · rw [if_pos hdeletable]
      simp only [deletable, decide_eq_true_eq] at hdeletable
      obtain ⟨hne, hindex, hcount, hchildren⟩ := hdeletable
      have hfree : ¬ t.Free [] t.lastChecked := by simp [Free, hunused]
      have hroot : t.lastChecked ≠ 0 := by
        intro hzero
        rw [hzero] at hindex
        exact hindex h.root_index
      have hlive : t.Live t.lastChecked := by
        obtain hlive | hdel := h.live_or_deleted h.checked hfree
        · exact hlive
        · obtain hn | hn | hn := h.needed h.checked hfree hdel
          · omega
          · exact absurd hchildren hn
          · cases hn
      have hchildren' : ∀ c ∈ (t.inode t.lastChecked).children,
          ({ t with lastChecked := (t.lastChecked + 1) % n } : Table).isDeleted c := by
        rw [hchildren]
        simp
      obtain ⟨t', hrun, hsound, hframe, hdel, hsuffix, hfreed⟩ :=
        hnext.scheduleInode (Table.deleteInode n n) h.checked hroot hlive hchildren'
      refine ⟨t', ?_, hsound, ⟨hsuffix, fun i => ?_⟩, fun hnil => ?_⟩
      · obtain ⟨p, hp⟩ := h.live_parent hroot h.checked hlive
        have hcheck : ({ t with lastChecked := (t.lastChecked + 1) % n } : Table).checkInode n
            t.lastChecked := by simp [checkInode, h.checked, hp]
        have hnot : ({ t with lastChecked := (t.lastChecked + 1) % n } : Table).isDeleted
            t.lastChecked = false := hlive.not_deleted
        rw [if_neg (by simp [hnot]), depth, Table.deleteInode, if_pos ⟨hcheck, hroot⟩,
          if_neg (by simp [hnot])]
        simp only [hchildren, List.foldlM_nil]
        exact hrun
      · by_cases hi : i = t.lastChecked
        · subst hi
          exact Or.inr ⟨hne, hdel⟩
        · exact Or.inl ⟨(hframe i hi).data, (hframe i hi).unused⟩
      · have hmem := hfreed hcount hchildren
        rw [hnil] at hmem
        cases hmem
    · rw [if_neg hdeletable]
      obtain ⟨t', hrun, hsound, hpurged, hnone⟩ := ih hnext hunused
      refine ⟨t', hrun, hsound, ⟨hpurged.suffix, fun i =>
        (hpurged.others i).imp_left fun hf => ⟨hf.data, hf.unused⟩⟩, fun hnil k hk => ?_⟩
      cases k with
      | zero =>
        rw [Nat.add_zero, Nat.mod_eq_of_lt h.checked]
        exact Bool.not_eq_true _ ▸ hdeletable
      | succ k =>
        have hstep := hnone hnil k (by omega)
        simp only [Nat.mod_add_mod] at hstep
        rw [show t.lastChecked + (k + 1) = t.lastChecked + 1 + k by omega]
        exact hstep

/-! ## Adding -/

/-- A table with one inode more, the child `i` of `p`. -/
structure Added (n : Nat) (t t' : Table) (i p : Nat) (new : Inode) : Prop where
  inode : ∀ j, t'.inode j = if j = p then { t.inode p with children := i :: (t.inode p).children }
    else if j = i then new else t.inode j
  unused : t.unused = i :: t'.unused
  nameHead : ∀ slot, t'.nameHead slot =
    if slot = parentNameHash n p new.name then i :: t.nameHead slot else t.nameHead slot
  indexHead : ∀ slot, t'.indexHead slot =
    if ∃ k, new.index = some k ∧ slot = parentIndexHash n p k then i :: t.indexHead slot
    else t.indexHead slot
  lastChecked : t'.lastChecked = t.lastChecked
  live : new.deleted = some false
  parent : new.parent = some p
  count : new.count = 0
  children : new.children = []

theorem Sound.added {t' : Table} {i : Nat} {new : Inode} (h : Sound n rank t [] [])
    (ha : Added n t t' i p new) (hp : t.Live p) (hplt : p < n) (hpdir : (t.inode p).isDir)
    (hname : ∀ j, t.Live j → (t.inode j).parent = some p → (t.inode j).name ≠ new.name)
    (hindex : ∀ j k, t.Live j → (t.inode j).parent = some p → (t.inode j).index = some k →
      new.index ≠ some k) :
    Sound n (update rank i (rank p + 1)) t' [] [] := by
  have hfree : t.Free [] i := by simp [Free, ha.unused]
  obtain ⟨hroot, hlt⟩ := h.free_lt hfree
  have hnotlive := h.free_deleted hfree
  have hip : i ≠ p := by
    rintro rfl
    exact hnotlive hp
  have hnoparent := h.free_parent hfree
  have hnochild (j : Nat) : (t.inode j).parent ≠ some i := fun hj => (h.linked hj).2 hfree
  have hself : t'.inode i = new := by rw [ha.inode, if_neg hip, if_pos rfl]
  have hsame {j : Nat} (hj : j ≠ i) : (t'.inode j).parent = (t.inode j).parent ∧
      (t'.inode j).isDir = (t.inode j).isDir ∧ (t'.inode j).deleted = (t.inode j).deleted ∧
      (t'.inode j).name = (t.inode j).name ∧ (t'.inode j).index = (t.inode j).index ∧
      (t'.inode j).count = (t.inode j).count := by
    rw [ha.inode]
    split_ifs with hjp
    · rw [hjp]
      simp
    · simp
  have hchild (q : Nat) : (t'.inode q).children =
      if q = p then i :: (t.inode p).children else (t.inode q).children := by
    rw [ha.inode]
    split_ifs with hq hqi
    · rfl
    · rw [hqi, ha.children, h.free_children hfree]
    · rfl
  have hfree' {j : Nat} : t'.Free [] j → t.Free [] j ∧ j ≠ i := by
    intro hj
    have hnodup := h.nodup
    simp only [Free, List.append_nil] at hj hnodup ⊢
    rw [ha.unused] at hnodup ⊢
    refine ⟨List.mem_cons_of_mem _ hj, ?_⟩
    rintro rfl
    exact (List.nodup_cons.mp hnodup).1 hj
  have hused {j : Nat} (hj : j ≠ i) (hf : ¬ t'.Free [] j) : ¬ t.Free [] j := by
    intro hf'
    simp only [Free, List.append_nil] at hf hf'
    rw [ha.unused] at hf'
    exact (List.mem_cons.mp hf').elim hj hf
  have hlive (j : Nat) : t'.Live j ↔ j = i ∨ t.Live j := by
    unfold Live
    by_cases hj : j = i
    · subst hj
      rw [hself]
      simp [ha.live]
    · rw [(hsame hj).2.2.1]
      simp [hj]
  have hdel {j : Nat} (hj : t'.isDeleted j) : j ≠ i ∧ t.isDeleted j := by
    have hji : j ≠ i := by
      rintro rfl
      exact not_live_of_deleted hj ((hlive j).mpr (Or.inl rfl))
    unfold isDeleted at hj ⊢
    rw [(hsame hji).2.2.1] at hj
    exact ⟨hji, hj⟩
  have hpar {j q : Nat} (hj : (t'.inode j).parent = some q) :
      j = i ∧ q = p ∨ j ≠ i ∧ (t.inode j).parent = some q := by
    by_cases hji : j = i
    · subst hji
      rw [hself, ha.parent] at hj
      exact Or.inl ⟨rfl, (Option.some.inj hj).symm⟩
    · rw [(hsame hji).1] at hj
      exact Or.inr ⟨hji, hj⟩
  have hnoti {j q : Nat} (hj : (t.inode j).parent = some q) : j ≠ i ∧ q ≠ i := by
    constructor
    · rintro rfl
      rw [hnoparent] at hj
      cases hj
    · rintro rfl
      exact hnochild j hj
  have hisp : t'.isDeleted p = false := ((hlive p).mpr (Or.inr hp)).not_deleted
  have hrank {j : Nat} (hj : j ≠ i) : update rank i (rank p + 1) j = rank j :=
    update_of_ne hj ..
  exact
    { nodup := by
        have hnodup := h.nodup
        rw [List.append_nil, ha.unused] at hnodup
        rw [List.append_nil]
        exact (List.nodup_cons.mp hnodup).2
      free_lt := fun hj => h.free_lt (hfree' hj).1
      free_count := fun {j} hj => by
        rw [(hsame (hfree' hj).2).2.2.2.2.2]
        exact h.free_count (hfree' hj).1
      free_deleted := fun {j} hj hl => by
        obtain hji | hl := (hlive j).mp hl
        · exact (hfree' hj).2 hji
        · exact h.free_deleted (hfree' hj).1 hl
      written := fun {j} hj hf => by
        by_cases hji : j = i
        · rw [hji, hself, ha.live]
          simp
        · rw [(hsame hji).2.2.1]
          exact h.written hj (hused hji hf)
      root_live := (hlive 0).mpr (Or.inr h.root_live)
      root_parent := (hsame hroot.symm).1.trans h.root_parent
      root_index := (hsame hroot.symm).2.2.2.2.1.trans h.root_index
      forest :=
        { child_lt := fun {j q} hj => by
            obtain ⟨rfl, -⟩ | ⟨-, hj⟩ := hpar hj
            · exact hlt
            · exact h.forest.child_lt hj
          parent_lt := fun {j q} hj => by
            obtain ⟨-, rfl⟩ | ⟨-, hj⟩ := hpar hj
            · exact hplt
            · exact h.forest.parent_lt hj
          rank_succ := fun {j q} hj => by
            obtain ⟨rfl, rfl⟩ | ⟨hji, hj⟩ := hpar hj
            · rw [update_self, hrank hip.symm]
            · rw [hrank hji, hrank (hnoti hj).2]
              exact h.forest.rank_succ hj
          root := fun {j q} hj hq => by
            obtain ⟨-, rfl⟩ | ⟨-, hj⟩ := hpar hj
            · by_contra hne
              obtain ⟨r, hr⟩ := h.live_parent hne hplt hp
              rw [(hsame hip.symm).1, hr] at hq
              cases hq
            · rw [(hsame (hnoti hj).2).1] at hq
              exact h.forest.root hj hq
          rank_root := by
            rw [hrank hroot.symm]
            exact h.forest.rank_root }
      linked := fun {j q} hj => by
        obtain ⟨rfl, rfl⟩ | ⟨-, hj⟩ := hpar hj
        · exact ⟨fun hf => (hfree' hf).2 rfl, fun hf => h.free_deleted (hfree' hf).1 hp⟩
        · exact ⟨fun hf => (h.linked hj).1 (hfree' hf).1, fun hf => (h.linked hj).2 (hfree' hf).1⟩
      linked_dir := fun {j q} hj => by
        obtain ⟨-, rfl⟩ | ⟨-, hj⟩ := hpar hj
        · rw [(hsame hip.symm).2.1]
          exact hpdir
        · rw [(hsame (hnoti hj).2).2.1]
          exact h.linked_dir hj
      deleted_dir := fun {j q} hj hd => by
        obtain ⟨hji, hd⟩ := hdel hd
        rw [(hsame hji).1] at hj
        rw [(hsame hji).2.1]
        exact h.deleted_dir hj hd
      deleted_parent := fun {j q} hj hd => by
        obtain ⟨-, rfl⟩ | ⟨hji, hj⟩ := hpar hj
        · rw [hisp] at hd
          cases hd
        · have hjd := h.deleted_parent hj (hdel hd).2
          unfold isDeleted at hjd ⊢
          rw [(hsame hji).2.2.1]
          exact hjd
      live_parent := fun {j} hj hjlt hl => by
        obtain rfl | hl := (hlive j).mp hl
        · exact ⟨p, by rw [hself, ha.parent]⟩
        have hji : j ≠ i := by
          rintro rfl
          exact hnotlive hl
        rw [(hsame hji).1]
        exact h.live_parent hj hjlt hl
      dir_parent := fun {j} hj hf hd hdir => by
        obtain ⟨hji, hd⟩ := hdel hd
        rw [(hsame hji).1]
        rw [(hsame hji).2.1] at hdir
        exact h.dir_parent hj (hused hji hf) hd hdir
      needed := fun {j} hj hf hd => by
        obtain ⟨hji, hd⟩ := hdel hd
        rw [(hsame hji).2.2.2.2.2, hchild]
        have hjp : j ≠ p := by
          rintro rfl
          exact not_live_of_deleted hd hp
        rw [if_neg hjp]
        exact h.needed hj (hused hji hf) hd
      children_nodup := fun q => by
        rw [hchild]
        split_ifs
        · refine List.nodup_cons.mpr ⟨fun hmem => ?_, h.children_nodup p⟩
          have hpi := h.mem_children.mp hmem
          rw [hnoparent] at hpi
          cases hpi
        · exact h.children_nodup q
      mem_children := fun {q j} => by
        rw [hchild]
        by_cases hji : j = i
        · subst hji
          rw [hself, ha.parent]
          split_ifs with hq
          · simp [hq]
          · rw [h.mem_children, hnoparent]
            simpa using Ne.symm hq
        rw [(hsame hji).1]
        split_ifs with hq
        · rw [List.mem_cons, h.mem_children, hq]
          simp [hji]
        · exact h.mem_children
      names_nodup := fun slot => by
        rw [ha.nameHead]
        split_ifs
        · exact List.nodup_cons.mpr ⟨fun hmem => hnotlive (h.mem_names.mp hmem).1, h.names_nodup slot⟩
        · exact h.names_nodup slot
      mem_names := fun {slot j} => by
        rw [ha.nameHead]
        by_cases hji : j = i
        · subst hji
          have hnot : j ∉ t.nameHead slot := fun hmem => hnotlive (h.mem_names.mp hmem).1
          rw [hlive, hself, ha.parent]
          split_ifs with hslot
          · simp [hslot]
          · simp [hslot, hnot]
        rw [hlive, (hsame hji).1, (hsame hji).2.2.2.1]
        simp only [hji, false_or]
        rw [← h.mem_names]
        split_ifs
        · simp [hji]
        · rfl
      indexes_nodup := fun slot => by
        rw [ha.indexHead]
        split_ifs
        · exact List.nodup_cons.mpr ⟨fun hmem => hnotlive (h.mem_indexes.mp hmem).1, h.indexes_nodup slot⟩
        · exact h.indexes_nodup slot
      mem_indexes := fun {slot j} => by
        rw [ha.indexHead]
        by_cases hji : j = i
        · subst hji
          have hnot : j ∉ t.indexHead slot := fun hmem => hnotlive (h.mem_indexes.mp hmem).1
          rw [hlive, hself, ha.parent]
          split_ifs with hslot
          · simpa using hslot
          · simpa [hnot] using hslot
        rw [hlive, (hsame hji).1, (hsame hji).2.2.2.2.1]
        simp only [hji, false_or]
        rw [← h.mem_indexes]
        split_ifs
        · simp [hji]
        · rfl
      name_unique := fun {j k q} hj hk hpj hpk hjk => by
        by_cases hji : j = i
        · by_cases hki : k = i
          · rw [hji, hki]
          obtain ⟨-, rfl⟩ | ⟨hne, -⟩ := hpar hpj
          · rw [hji, hself, (hsame hki).2.2.2.1] at hjk
            rw [(hsame hki).1] at hpk
            exact absurd hjk.symm (hname k (((hlive k).mp hk).resolve_left hki) hpk)
          · exact absurd hji hne
        rw [(hsame hji).1] at hpj
        by_cases hki : k = i
        · obtain ⟨-, rfl⟩ | ⟨hne, -⟩ := hpar hpk
          · rw [hki, hself, (hsame hji).2.2.2.1] at hjk
            exact absurd hjk (hname j (((hlive j).mp hj).resolve_left hji) hpj)
          · exact absurd hki hne
        · rw [(hsame hki).1] at hpk
          rw [(hsame hji).2.2.2.1, (hsame hki).2.2.2.1] at hjk
          exact h.name_unique (((hlive j).mp hj).resolve_left hji) (((hlive k).mp hk).resolve_left hki)
            hpj hpk hjk
      index_unique := fun {j k q x} hj hk hpj hpk hxj hxk => by
        by_cases hji : j = i
        · by_cases hki : k = i
          · rw [hji, hki]
          obtain ⟨-, rfl⟩ | ⟨hne, -⟩ := hpar hpj
          · rw [hji, hself] at hxj
            rw [(hsame hki).2.2.2.2.1] at hxk
            rw [(hsame hki).1] at hpk
            exact absurd hxj (hindex k x (((hlive k).mp hk).resolve_left hki) hpk hxk)
          · exact absurd hji hne
        rw [(hsame hji).1] at hpj
        rw [(hsame hji).2.2.2.2.1] at hxj
        by_cases hki : k = i
        · obtain ⟨-, rfl⟩ | ⟨hne, -⟩ := hpar hpk
          · rw [hki, hself] at hxk
            exact absurd hxk (hindex j x (((hlive j).mp hj).resolve_left hji) hpj hxj)
          · exact absurd hki hne
        · rw [(hsame hki).1] at hpk
          rw [(hsame hki).2.2.2.2.1] at hxk
          exact h.index_unique (((hlive j).mp hj).resolve_left hji) (((hlive k).mp hk).resolve_left hki)
            hpj hpk hxj hxk
      checked := by
        rw [ha.lastChecked]
        exact h.checked }

theorem Sound.purgeInode (h : Sound n rank t [] []) (hunused : t.unused = []) (parent : Nat) :
    ∃ t', t.purgeInode n parent = some t' ∧ Sound n rank t' [] [] ∧ Purged t t' parent ∧
      (t'.unused = [] → ∀ i < n, t.deletable parent i = false) := by
  obtain ⟨t', hrun, hsound, hpurged, hnone⟩ := h.purgeLoop hunused parent n
  refine ⟨t', by rw [Table.purgeInode, if_pos hunused, hrun], hsound, hpurged, fun hnil i hi => ?_⟩
  have hc := h.checked
  have hlook := hnone hnil ((i + n - t.lastChecked) % n) (Nat.mod_lt _ h.pos)
  rw [Nat.add_mod_mod, show t.lastChecked + (i + n - t.lastChecked) = i + n by omega, Nat.add_mod_right,
    Nat.mod_eq_of_lt hi] at hlook
  exact hlook

theorem Sound.getInodeByName (h : Sound n rank t D []) (name : Name) (c : Nat) :
    t.getInodeByName n p name = some c ↔
      t.Live c ∧ (t.inode c).parent = some p ∧ (t.inode c).name = name := by
  have hfound {c : Nat} (hc : t.getInodeByName n p name = some c) :
      t.Live c ∧ (t.inode c).parent = some p ∧ (t.inode c).name = name := by
    have hprop := List.find?_some hc
    simp only [decide_eq_true_eq] at hprop
    exact ⟨(h.mem_names.mp (List.mem_of_find?_eq_some hc)).1, hprop⟩
  refine ⟨hfound, fun ⟨hlive, hp, hname⟩ => ?_⟩
  have hmem : c ∈ t.nameHead (parentNameHash n p name) :=
    h.mem_names.mpr ⟨hlive, p, hp, by rw [hname]⟩
  have hsome : (t.getInodeByName n p name).isSome := by
    unfold Table.getInodeByName
    rw [List.find?_isSome]
    exact ⟨c, hmem, by simp [hp, hname]⟩
  obtain ⟨c', hc'⟩ := Option.isSome_iff_exists.mp hsome
  obtain ⟨hlive', hp', hname'⟩ := hfound hc'
  rw [hc', h.name_unique hlive' hlive hp' hp (hname'.trans hname.symm)]

theorem Sound.getInodeByIndex (h : Sound n rank t D []) (k c : Nat) :
    t.getInodeByIndex n p k = some c ↔
      t.Live c ∧ (t.inode c).parent = some p ∧ (t.inode c).index = some k := by
  have hfound {c : Nat} (hc : t.getInodeByIndex n p k = some c) :
      t.Live c ∧ (t.inode c).parent = some p ∧ (t.inode c).index = some k := by
    have hprop := List.find?_some hc
    simp only [decide_eq_true_eq] at hprop
    exact ⟨(h.mem_indexes.mp (List.mem_of_find?_eq_some hc)).1, hprop⟩
  refine ⟨hfound, fun ⟨hlive, hp, hindex⟩ => ?_⟩
  have hmem : c ∈ t.indexHead (parentIndexHash n p k) :=
    h.mem_indexes.mpr ⟨hlive, p, k, hp, hindex, rfl⟩
  have hsome : (t.getInodeByIndex n p k).isSome := by
    unfold Table.getInodeByIndex
    rw [List.find?_isSome]
    exact ⟨c, hmem, by simp [hp, hindex]⟩
  obtain ⟨c', hc'⟩ := Option.isSome_iff_exists.mp hsome
  obtain ⟨hlive', hp', hindex'⟩ := hfound hc'
  rw [hc', h.index_unique hlive' hlive hp' hp hindex' hindex]

theorem Sound.newInode (h : Sound n rank t [] []) {i : Nat} {unused : List Nat}
    (hunused : t.unused = i :: unused) (hp : t.Live p) (name : Name) (index : Option Nat) (isDir : Bool)
    (indexed : Nat) :
    ∃ t', t.newInode n p name index isDir indexed = some (t', i) ∧
      Added n t t' i p ⟨isDir, name, 0, index, indexed, some false, some p, []⟩ := by
  have hfree : t.Free [] i := by simp [Free, hunused]
  have hcount := h.free_count hfree
  have hchildren := h.free_children hfree
  have hne : p ≠ i := by
    rintro rfl
    exact h.free_deleted hfree hp
  have hinode (j : Nat) : ((t.modify i fun x =>
        ⟨isDir, name, x.count, index, indexed, some false, some p, x.children⟩).modify p
          fun x => { x with children := i :: x.children }).inode j =
      if j = p then { t.inode p with children := i :: (t.inode p).children }
      else if j = i then ⟨isDir, name, 0, index, indexed, some false, some p, []⟩ else t.inode j := by
    split_ifs with hjp hji
    · rw [hjp, modify_self, modify_of_ne _ hne]
    · rw [modify_of_ne _ hjp, hji, modify_self, hcount, hchildren]
    · rw [modify_of_ne _ hjp, modify_of_ne _ hji]
  unfold Table.newInode
  rw [hunused]
  simp only [hcount, ↓reduceIte]
  cases index with
  | none =>
    refine ⟨_, rfl, hinode, hunused, fun slot => ?_, fun slot => ?_, rfl, rfl, rfl, rfl, rfl⟩
    · simp only [update_apply]
      split_ifs with hslot
      · rw [hslot]
        rfl
      · rfl
    · simp [modify]
  | some k =>
    refine ⟨_, rfl, hinode, hunused, fun slot => ?_, fun slot => ?_, rfl, rfl, rfl, rfl, rfl⟩
    · simp only [update_apply]
      split_ifs with hslot
      · rw [hslot]
        rfl
      · rfl
    simp only [update_apply, Option.some.injEq, exists_eq_left']
    split_ifs with hslot
    · rw [hslot]
      rfl
    · rfl

end Table

end HardenedMinix.Libvtreefs
