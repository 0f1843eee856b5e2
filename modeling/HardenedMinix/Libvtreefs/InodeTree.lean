import HardenedMinix.Lib.Forest
import HardenedMinix.Libvtreefs.Inode

/-!
# The invariant of the inode table

`Sound` also describes the table in the middle of a deletion.
-/

open Function

namespace HardenedMinix.Libvtreefs

open Lib

namespace Table

variable {n : Nat} {rank : Nat → Nat} {t t' : Table} {D X : List Nat} {i p y : Nat}

/-! ## Single writes -/

@[simp] theorem modify_self (f : Inode → Inode) : (t.modify i f).inode i = f (t.inode i) :=
  update_self ..

theorem modify_of_ne (f : Inode → Inode) {j : Nat} (h : j ≠ i) : (t.modify i f).inode j = t.inode j :=
  update_of_ne h ..

/-- An inode without its list of children. -/
def data (t : Table) (i : Nat) : Inode := { t.inode i with children := [] }

/-- Two tables have the same inode, up to its children, and it is unused in both or in neither. -/
structure Frame (t t' : Table) (i : Nat) : Prop where
  data : t'.data i = t.data i
  unused : i ∈ t'.unused ↔ i ∈ t.unused

namespace Frame

theorem refl (t : Table) (i : Nat) : Frame t t i := ⟨rfl, Iff.rfl⟩

theorem trans {t'' : Table} (h : Frame t t' i) (h' : Frame t' t'' i) : Frame t t'' i :=
  ⟨h'.data.trans h.data, h'.unused.trans h.unused⟩

theorem deleted (h : Frame t t' i) : (t'.inode i).deleted = (t.inode i).deleted := by
  have hfield := congrArg Inode.deleted h.data
  exact hfield

theorem isDeleted (h : Frame t t' i) : t'.isDeleted i = t.isDeleted i := by
  unfold Table.isDeleted
  rw [h.deleted]

theorem parent (h : Frame t t' i) : (t'.inode i).parent = (t.inode i).parent := by
  have hfield := congrArg Inode.parent h.data
  exact hfield

theorem name (h : Frame t t' i) : (t'.inode i).name = (t.inode i).name := by
  have hfield := congrArg Inode.name h.data
  exact hfield

theorem index (h : Frame t t' i) : (t'.inode i).index = (t.inode i).index := by
  have hfield := congrArg Inode.index h.data
  exact hfield

theorem isDir (h : Frame t t' i) : (t'.inode i).isDir = (t.inode i).isDir := by
  have hfield := congrArg Inode.isDir h.data
  exact hfield

end Frame

/-! ## The invariant -/

/-- The inode is in the tree and has not been deleted. -/
def Live (t : Table) (i : Nat) : Prop := (t.inode i).deleted = some false

/-- The inode is unused, or about to be freed. -/
def Free (t : Table) (D : List Nat) (i : Nat) : Prop := i ∈ t.unused ++ D

/-- The table in a deletion: the inodes of `D` are about to be freed, and those of `X` have to be
looked at again. -/
structure Sound (n : Nat) (rank : Nat → Nat) (t : Table) (D X : List Nat) : Prop where
  nodup : (t.unused ++ D).Nodup
  free_lt : ∀ {i}, t.Free D i → i ≠ 0 ∧ i < n
  free_count : ∀ {i}, t.Free D i → (t.inode i).count = 0
  free_deleted : ∀ {i}, t.Free D i → ¬ t.Live i
  written : ∀ {i}, i < n → ¬ t.Free D i → (t.inode i).deleted ≠ none
  root_live : t.Live 0
  root_parent : (t.inode 0).parent = none
  root_index : (t.inode 0).index = none
  forest : Forest n (fun i => (t.inode i).parent) rank
  linked : ∀ {i p}, (t.inode i).parent = some p → ¬ t.Free D i ∧ ¬ t.Free D p
  linked_dir : ∀ {i p}, (t.inode i).parent = some p → (t.inode p).isDir
  deleted_dir : ∀ {i p}, (t.inode i).parent = some p → t.isDeleted i → (t.inode i).isDir ∨ i ∈ X
  deleted_parent : ∀ {i p}, (t.inode i).parent = some p → t.isDeleted p → t.isDeleted i
  live_parent : ∀ {i}, i ≠ 0 → i < n → t.Live i → ∃ p, (t.inode i).parent = some p
  dir_parent : ∀ {i}, i < n → ¬ t.Free D i → t.isDeleted i → (t.inode i).isDir →
    (∃ p, (t.inode i).parent = some p) ∨ i ∈ X
  needed : ∀ {i}, i < n → ¬ t.Free D i → t.isDeleted i →
    0 < (t.inode i).count ∨ (t.inode i).children ≠ [] ∨ i ∈ X
  children_nodup : ∀ p, (t.inode p).children.Nodup
  mem_children : ∀ {p i}, i ∈ (t.inode p).children ↔ (t.inode i).parent = some p
  names_nodup : ∀ slot, (t.nameHead slot).Nodup
  mem_names : ∀ {slot i}, i ∈ t.nameHead slot ↔
    t.Live i ∧ ∃ p, (t.inode i).parent = some p ∧ slot = parentNameHash n p (t.inode i).name
  indexes_nodup : ∀ slot, (t.indexHead slot).Nodup
  mem_indexes : ∀ {slot i}, i ∈ t.indexHead slot ↔
    t.Live i ∧ ∃ p k, (t.inode i).parent = some p ∧ (t.inode i).index = some k ∧
      slot = parentIndexHash n p k
  name_unique : ∀ {i j p}, t.Live i → t.Live j → (t.inode i).parent = some p →
    (t.inode j).parent = some p → (t.inode i).name = (t.inode j).name → i = j
  index_unique : ∀ {i j p k}, t.Live i → t.Live j → (t.inode i).parent = some p →
    (t.inode j).parent = some p → (t.inode i).index = some k → (t.inode j).index = some k → i = j
  checked : t.lastChecked < n

theorem isDeleted_iff : t.isDeleted i ↔ (t.inode i).deleted = some true := by
  simp [isDeleted]

theorem Live.not_deleted (h : t.Live i) : t.isDeleted i = false := by
  unfold Live at h
  simp [isDeleted, h]

theorem not_live_of_deleted (h : t.isDeleted i) : ¬ t.Live i := by
  intro hlive
  rw [hlive.not_deleted] at h
  cases h

namespace Sound

variable (h : Sound n rank t D X)

include h

theorem pos : 0 < n := Nat.zero_lt_of_lt h.checked

theorem live_or_deleted (hi : i < n) (hfree : ¬ t.Free D i) : t.Live i ∨ t.isDeleted i := by
  have hw := h.written hi hfree
  unfold Live
  rw [isDeleted_iff]
  cases hd : (t.inode i).deleted with
  | none => exact absurd hd hw
  | some b => cases b <;> simp

theorem not_free (hlive : t.Live i) : ¬ t.Free D i := fun hfree => h.free_deleted hfree hlive

theorem free_parent (hfree : t.Free D i) : (t.inode i).parent = none := by
  cases hp : (t.inode i).parent with
  | none => rfl
  | some p => exact absurd hfree (h.linked hp).1

theorem free_children (hfree : t.Free D i) : (t.inode i).children = [] := by
  rw [List.eq_nil_iff_forall_not_mem]
  intro c hc
  exact (h.linked (h.mem_children.mp hc)).2 hfree

theorem ne_root (hdel : t.isDeleted i) : i ≠ 0 := by
  rintro rfl
  exact not_live_of_deleted hdel h.root_live

theorem live_child_parent (hlive : t.Live i) (hp : (t.inode i).parent = some p) : t.Live p := by
  obtain hlp | hdel := h.live_or_deleted (h.forest.parent_lt hp) (h.linked hp).2
  · exact hlp
  · exact absurd hlive (not_live_of_deleted (h.deleted_parent hp hdel))

theorem mono (X' : List Nat) (hX : ∀ i ∈ X, i ∈ X') : Sound n rank t D X' :=
  { h with
    deleted_dir := fun hp hdel => (h.deleted_dir hp hdel).imp_right (hX _)
    dir_parent := fun hi hfree hdel hdir => (h.dir_parent hi hfree hdel hdir).imp_right (hX _)
    needed := fun hi hfree hdel => (h.needed hi hfree hdel).imp_right (Or.imp_right (hX _)) }

end Sound

theorem Sound.settled (h : Sound n rank t D (y :: X))
    (hy : t.isDeleted y → ((t.inode y).isDir ↔ (t.inode y).parent ≠ none) ∧
      (0 < (t.inode y).count ∨ (t.inode y).children ≠ [])) : Sound n rank t D X :=
  { h with
    deleted_dir := fun {i p} hp hdel => by
      obtain hdir | hX := h.deleted_dir hp hdel
      · exact Or.inl hdir
      · obtain rfl | hX := List.mem_cons.mp hX
        · exact Or.inl ((hy hdel).1.mpr (by rw [hp]; simp))
        · exact Or.inr hX
    dir_parent := fun {i} hi hfree hdel hdir => by
      obtain hp | hX := h.dir_parent hi hfree hdel hdir
      · exact Or.inl hp
      · obtain rfl | hX := List.mem_cons.mp hX
        · exact Or.inl (Option.ne_none_iff_exists'.mp ((hy hdel).1.mp hdir))
        · exact Or.inr hX
    needed := fun {i} hi hfree hdel => by
      obtain hc | hc | hX := h.needed hi hfree hdel
      · exact Or.inl hc
      · exact Or.inr (Or.inl hc)
      · obtain rfl | hX := List.mem_cons.mp hX
        · exact (hy hdel).2.imp_right Or.inl
        · exact Or.inr (Or.inr hX) }

theorem Sound.dir_iff (h : Sound n rank t D []) (hi : i < n) (hfree : ¬ t.Free D i)
    (hdel : t.isDeleted i) : (t.inode i).isDir ↔ (t.inode i).parent ≠ none := by
  constructor
  · intro hdir
    obtain ⟨p, hp⟩ | hX := h.dir_parent hi hfree hdel hdir
    · simp [hp]
    · cases hX
  intro hne
  obtain ⟨p, hp⟩ := Option.ne_none_iff_exists'.mp hne
  obtain hdir | hX := h.deleted_dir hp hdel
  · exact hdir
  · cases hX

/-! ## Moves -/

theorem free_cons : t.Free (y :: D) i ↔ i = y ∨ t.Free D i := by
  unfold Free
  simp only [List.mem_append, List.mem_cons]
  tauto

theorem Sound.drop (h : Sound n rank t D (y :: X)) (hy : y < n) (hfree : ¬ t.Free D y)
    (hdel : t.isDeleted y) (hcount : (t.inode y).count = 0) (hchildren : (t.inode y).children = [])
    (hparent : (t.inode y).parent = none) : Sound n rank t (y :: D) X := by
  have hlink {i p : Nat} (hp : (t.inode i).parent = some p) : i ≠ y ∧ p ≠ y := by
    constructor
    · rintro rfl
      rw [hparent] at hp
      cases hp
    · rintro rfl
      have hmem := h.mem_children.mpr hp
      rw [hchildren] at hmem
      cases hmem
  have hcase {i : Nat} {P : Prop} (hP : P ∨ i ∈ y :: X) (hi : ¬ t.Free (y :: D) i) : P ∨ i ∈ X := by
    refine hP.imp_right fun hX => ?_
    obtain rfl | hX := List.mem_cons.mp hX
    · exact absurd (free_cons.mpr (Or.inl rfl)) hi
    · exact hX
  have hold {i : Nat} (hi : ¬ t.Free (y :: D) i) : ¬ t.Free D i :=
    fun hf => hi (free_cons.mpr (Or.inr hf))
  exact
    { h with
      nodup := List.nodup_middle.mpr (List.nodup_cons.mpr ⟨hfree, h.nodup⟩)
      free_lt := fun {i} hi => by
        obtain rfl | hi := free_cons.mp hi
        · exact ⟨h.ne_root hdel, hy⟩
        · exact h.free_lt hi
      free_count := fun {i} hi => by
        obtain rfl | hi := free_cons.mp hi
        · exact hcount
        · exact h.free_count hi
      free_deleted := fun {i} hi => by
        obtain rfl | hi := free_cons.mp hi
        · exact not_live_of_deleted hdel
        · exact h.free_deleted hi
      written := fun hi hf => h.written hi (hold hf)
      linked := fun {i p} hp => by
        have hne := hlink hp
        have hlinked := h.linked hp
        exact ⟨fun hf => (free_cons.mp hf).elim hne.1 hlinked.1,
          fun hf => (free_cons.mp hf).elim hne.2 hlinked.2⟩
      deleted_dir := fun {i p} hp hd =>
        hcase (h.deleted_dir hp hd) fun hf => (free_cons.mp hf).elim (hlink hp).1 (h.linked hp).1
      dir_parent := fun hi hf hd hdir => hcase (h.dir_parent hi (hold hf) hd hdir) hf
      needed := fun hi hf hd => by
        rw [← or_assoc]
        exact hcase (or_assoc.mpr (h.needed hi (hold hf) hd)) hf }

theorem Sound.insertUnused (h : Sound n rank t (y :: D) X) : Sound n rank (t.insertUnused y) D X := by
  have hfree {i : Nat} : (t.insertUnused y).Free D i ↔ t.Free (y :: D) i := by
    rw [free_cons]
    unfold Free Table.insertUnused
    simp only [List.mem_append, List.mem_cons, or_assoc]
  exact
    { h with
      nodup := List.nodup_middle.mp h.nodup
      free_lt := fun hi => h.free_lt (hfree.mp hi)
      free_count := fun hi => h.free_count (hfree.mp hi)
      free_deleted := fun hi => h.free_deleted (hfree.mp hi)
      written := fun hi hf => h.written hi fun hf' => hf (hfree.mpr hf')
      linked := fun {i p} hp =>
        ⟨fun hf => (h.linked hp).1 (hfree.mp hf), fun hf => (h.linked hp).2 (hfree.mp hf)⟩
      dir_parent := fun hi hf => h.dir_parent hi fun hf' => hf (hfree.mpr hf')
      needed := fun hi hf => h.needed hi fun hf' => hf (hfree.mpr hf') }

theorem leave_inode (hne : i ≠ p) (j : Nat) : (t.leave i p).inode j =
    if j = i then { t.inode i with parent := none }
    else if j = p then { t.inode p with children := (t.inode p).children.erase i }
    else t.inode j := by
  unfold leave
  split_ifs with hi hp
  · subst hi
    rw [modify_of_ne _ hne, modify_self]
  · subst hp
    rw [modify_self, modify_of_ne _ hi]
  · rw [modify_of_ne _ hp, modify_of_ne _ hi]

theorem Sound.leave (h : Sound n rank t D X) (hy : (t.inode y).parent = some p)
    (hdel : t.isDeleted y) (hchildren : (t.inode y).children = []) (hX : y ∈ X) :
    Sound n rank (t.leave y p) D (p :: X) := by
  have hne : y ≠ p := by
    rintro rfl
    have hrank := h.forest.rank_succ hy
    omega
  have hinode := leave_inode (t := t) hne
  have hparent (j : Nat) : ((t.leave y p).inode j).parent = if j = y then none else (t.inode j).parent := by
    rw [hinode]
    split_ifs with h1 h2
    · rfl
    · rw [h2]
    · rfl
  have hsame (j : Nat) : ((t.leave y p).inode j).deleted = (t.inode j).deleted ∧
      ((t.leave y p).inode j).isDir = (t.inode j).isDir ∧
      ((t.leave y p).inode j).count = (t.inode j).count ∧
      ((t.leave y p).inode j).name = (t.inode j).name ∧
      ((t.leave y p).inode j).index = (t.inode j).index := by
    rw [hinode]
    split_ifs with h1 h2
    · subst h1
      simp
    · subst h2
      simp
    · simp
  have hchild (q : Nat) : ((t.leave y p).inode q).children =
      if q = p then (t.inode p).children.erase y else (t.inode q).children := by
    rw [hinode]
    by_cases hqy : q = y
    · subst hqy
      rw [if_pos rfl, if_neg hne]
    · rw [if_neg hqy]
      split_ifs <;> rfl
  have hlive (j : Nat) : (t.leave y p).Live j ↔ t.Live j := by
    unfold Live
    rw [(hsame j).1]
  have hisDel (j : Nat) : (t.leave y p).isDeleted j = t.isDeleted j := by
    unfold isDeleted
    rw [(hsame j).1]
  have hkeep {j : Nat} (hj : t.Live j) : ((t.leave y p).inode j).parent = (t.inode j).parent := by
    rw [hparent, if_neg]
    rintro rfl
    exact not_live_of_deleted hdel hj
  have hpar {j q : Nat} (hj : ((t.leave y p).inode j).parent = some q) :
      j ≠ y ∧ (t.inode j).parent = some q := by
    rw [hparent] at hj
    split_ifs at hj with hjy
    exact ⟨hjy, hj⟩
  exact
    { nodup := h.nodup
      free_lt := h.free_lt
      free_count := fun {i} hi => by
        rw [(hsame i).2.2.1]
        exact h.free_count hi
      free_deleted := fun {i} hi => by
        rw [hlive]
        exact h.free_deleted hi
      written := fun {i} hi hf => by
        rw [(hsame i).1]
        exact h.written hi hf
      root_live := (hlive 0).mpr h.root_live
      root_parent := by
        rw [hkeep h.root_live]
        exact h.root_parent
      root_index := by
        rw [(hsame 0).2.2.2.2]
        exact h.root_index
      forest :=
        { child_lt := fun hi => h.forest.child_lt (hpar hi).2
          parent_lt := fun hi => h.forest.parent_lt (hpar hi).2
          rank_succ := fun hi => h.forest.rank_succ (hpar hi).2
          root := fun {i q} hi hq => by
            have hiq := (hpar hi).2
            have hqy : q ≠ y := by
              rintro rfl
              have hmem := h.mem_children.mpr hiq
              rw [hchildren] at hmem
              cases hmem
            rw [hparent, if_neg hqy] at hq
            exact h.forest.root hiq hq
          rank_root := h.forest.rank_root }
      linked := fun hi => h.linked (hpar hi).2
      linked_dir := fun {i q} hi => by
        rw [(hsame q).2.1]
        exact h.linked_dir (hpar hi).2
      deleted_dir := fun {i q} hi hd => by
        rw [hisDel] at hd
        rw [(hsame i).2.1]
        exact (h.deleted_dir (hpar hi).2 hd).imp_right (List.mem_cons_of_mem _)
      deleted_parent := fun {i q} hi hd => by
        rw [hisDel] at hd ⊢
        exact h.deleted_parent (hpar hi).2 hd
      live_parent := fun {i} hi hlt hl => by
        rw [hlive] at hl
        rw [hkeep hl]
        exact h.live_parent hi hlt hl
      dir_parent := fun {i} hi hf hd hdir => by
        rw [hisDel] at hd
        rw [(hsame i).2.1] at hdir
        by_cases hiy : i = y
        · subst hiy
          exact Or.inr (List.mem_cons_of_mem _ hX)
        · rw [hparent, if_neg hiy]
          exact (h.dir_parent hi hf hd hdir).imp_right (List.mem_cons_of_mem _)
      needed := fun {i} hi hf hd => by
        rw [hisDel] at hd
        rw [(hsame i).2.2.1, hchild]
        by_cases hip : i = p
        · exact Or.inr (Or.inr (hip ▸ List.mem_cons_self ..))
        · rw [if_neg hip]
          exact (h.needed hi hf hd).imp_right (Or.imp_right (List.mem_cons_of_mem _))
      children_nodup := fun q => by
        rw [hchild]
        split_ifs
        · exact (h.children_nodup p).erase y
        · exact h.children_nodup q
      mem_children := fun {q i} => by
        rw [hchild, hparent]
        by_cases hq : q = p
        · subst hq
          rw [if_pos rfl, (h.children_nodup q).mem_erase_iff, h.mem_children]
          by_cases hi : i = y
          · simp [hi]
          · simp [hi]
        rw [if_neg hq, h.mem_children]
        by_cases hi : i = y
        · subst hi
          rw [hy]
          simpa using Ne.symm hq
        · rw [if_neg hi]
      names_nodup := h.names_nodup
      mem_names := fun {slot i} => by
        rw [hlive, (hsame i).2.2.2.1]
        exact h.mem_names.trans (and_congr_right fun hl => by rw [hkeep hl])
      indexes_nodup := h.indexes_nodup
      mem_indexes := fun {slot i} => by
        rw [hlive, (hsame i).2.2.2.2]
        exact h.mem_indexes.trans (and_congr_right fun hl => by rw [hkeep hl])
      name_unique := fun {i j q} hi hj hpi hpj hname => by
        rw [(hsame i).2.2.2.1, (hsame j).2.2.2.1] at hname
        exact h.name_unique ((hlive i).mp hi) ((hlive j).mp hj) (hpar hpi).2 (hpar hpj).2 hname
      index_unique := fun {i j q k} hi hj hpi hpj hki hkj => by
        rw [(hsame i).2.2.2.2] at hki
        rw [(hsame j).2.2.2.2] at hkj
        exact h.index_unique ((hlive i).mp hi) ((hlive j).mp hj) (hpar hpi).2 (hpar hpj).2 hki hkj
      checked := h.checked }

theorem Sound.unhash (h : Sound n rank t D X) (hy : t.Live y) (hroot : y ≠ 0)
    (hchildren : ∀ c ∈ (t.inode y).children, t.isDeleted c) :
    Sound n rank (t.unhash y) D (y :: X) := by
  have hinode (j : Nat) : (t.unhash y).inode j =
      if j = y then { t.inode y with deleted := some true } else t.inode j := by
    split_ifs with hj
    · rw [hj]
      exact update_self ..
    · exact update_of_ne hj ..
  have hsame (j : Nat) : ((t.unhash y).inode j).parent = (t.inode j).parent ∧
      ((t.unhash y).inode j).isDir = (t.inode j).isDir ∧
      ((t.unhash y).inode j).count = (t.inode j).count ∧
      ((t.unhash y).inode j).name = (t.inode j).name ∧
      ((t.unhash y).inode j).index = (t.inode j).index ∧
      ((t.unhash y).inode j).children = (t.inode j).children := by
    rw [hinode]
    split_ifs with hj
    · subst hj
      simp
    · simp
  have hlive (j : Nat) : (t.unhash y).Live j ↔ t.Live j ∧ j ≠ y := by
    unfold Live
    rw [hinode]
    split_ifs with hj
    · simp [hj]
    · simp [hj]
  have hisDel (j : Nat) : (t.unhash y).isDeleted j ↔ t.isDeleted j ∨ j = y := by
    rw [isDeleted_iff, isDeleted_iff, hinode]
    split_ifs with hj
    · simp [hj]
    · simp [hj]
  exact
    { nodup := h.nodup
      free_lt := h.free_lt
      free_count := fun {i} hi => by
        rw [(hsame i).2.2.1]
        exact h.free_count hi
      free_deleted := fun {i} hi hl => h.free_deleted hi ((hlive i).mp hl).1
      written := fun {i} hi hf => by
        rw [hinode]
        split_ifs with hiy
        · simp
        · exact h.written hi hf
      root_live := (hlive 0).mpr ⟨h.root_live, hroot.symm⟩
      root_parent := (hsame 0).1.trans h.root_parent
      root_index := (hsame 0).2.2.2.2.1.trans h.root_index
      forest := by
        have hparent : (fun i => ((t.unhash y).inode i).parent) = fun i => (t.inode i).parent :=
          funext fun i => (hsame i).1
        rw [hparent]
        exact h.forest
      linked := fun {i p} hi => h.linked ((hsame i).1.symm.trans hi)
      linked_dir := fun {i p} hi => by
        rw [(hsame p).2.1]
        exact h.linked_dir ((hsame i).1.symm.trans hi)
      deleted_dir := fun {i p} hi hd => by
        rw [(hsame i).2.1]
        obtain hd | rfl := (hisDel i).mp hd
        · exact (h.deleted_dir ((hsame i).1.symm.trans hi) hd).imp_right (List.mem_cons_of_mem _)
        · exact Or.inr (List.mem_cons_self ..)
      deleted_parent := fun {i p} hi hd => by
        rw [hisDel]
        have hp := (hsame i).1.symm.trans hi
        obtain hd | rfl := (hisDel p).mp hd
        · exact Or.inl (h.deleted_parent hp hd)
        · exact Or.inl (hchildren i (h.mem_children.mpr hp))
      live_parent := fun {i} hi hlt hl => by
        rw [(hsame i).1]
        exact h.live_parent hi hlt ((hlive i).mp hl).1
      dir_parent := fun {i} hi hf hd hdir => by
        rw [(hsame i).1]
        rw [(hsame i).2.1] at hdir
        obtain hd | rfl := (hisDel i).mp hd
        · exact (h.dir_parent hi hf hd hdir).imp_right (List.mem_cons_of_mem _)
        · exact Or.inr (List.mem_cons_self ..)
      needed := fun {i} hi hf hd => by
        rw [(hsame i).2.2.1, (hsame i).2.2.2.2.2]
        obtain hd | rfl := (hisDel i).mp hd
        · exact (h.needed hi hf hd).imp_right (Or.imp_right (List.mem_cons_of_mem _))
        · exact Or.inr (Or.inr (List.mem_cons_self ..))
      children_nodup := fun p => by
        rw [(hsame p).2.2.2.2.2]
        exact h.children_nodup p
      mem_children := fun {p i} => by
        rw [(hsame p).2.2.2.2.2, (hsame i).1]
        exact h.mem_children
      names_nodup := fun slot => (h.names_nodup slot).erase y
      mem_names := fun {slot i} => by
        rw [hlive, (hsame i).1, (hsame i).2.2.2.1]
        have hmem : i ∈ (t.unhash y).nameHead slot ↔ i ≠ y ∧ i ∈ t.nameHead slot :=
          (h.names_nodup slot).mem_erase_iff
        rw [hmem, h.mem_names]
        tauto
      indexes_nodup := fun slot => by
        unfold Table.unhash
        simp only
        split_ifs
        · exact h.indexes_nodup slot
        · exact (h.indexes_nodup slot).erase y
      mem_indexes := fun {slot i} => by
        rw [hlive, (hsame i).1, (hsame i).2.2.2.2.1]
        have hmem : i ∈ (t.unhash y).indexHead slot ↔ i ≠ y ∧ i ∈ t.indexHead slot := by
          unfold Table.unhash
          simp only
          split_ifs with hnone
          · refine ⟨fun hi => ⟨?_, hi⟩, fun hi => hi.2⟩
            rintro rfl
            obtain ⟨-, p, k, -, hk, -⟩ := h.mem_indexes.mp hi
            rw [hnone] at hk
            cases hk
          · exact (h.indexes_nodup slot).mem_erase_iff
        rw [hmem, h.mem_indexes]
        tauto
      name_unique := fun {i j p} hi hj hpi hpj hname => by
        rw [(hsame i).2.2.2.1, (hsame j).2.2.2.1] at hname
        exact h.name_unique ((hlive i).mp hi).1 ((hlive j).mp hj).1 ((hsame i).1.symm.trans hpi)
          ((hsame j).1.symm.trans hpj) hname
      index_unique := fun {i j p k} hi hj hpi hpj hki hkj => by
        exact h.index_unique ((hlive i).mp hi).1 ((hlive j).mp hj).1 ((hsame i).1.symm.trans hpi)
          ((hsame j).1.symm.trans hpj) ((hsame i).2.2.2.2.1.symm.trans hki)
          ((hsame j).2.2.2.2.1.symm.trans hkj)
      checked := h.checked }

end Table

end HardenedMinix.Libvtreefs
