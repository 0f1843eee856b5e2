import HardenedMinix.Libvtreefs.InodeSteps

/-!
# Runs of the inode table

The list of unused inodes, the tree and the hash chains agree, as long as the callers name inodes
in use and give no index twice in one directory.
-/

namespace HardenedMinix.Libvtreefs

open Lib

/-- The calls: `add_inode`, `delete_inode`, `get_inode`, `ref_inode`, `put_inode` and
`purge_inode`. -/
inductive Req where
  | add (parent : Nat) (name : Name) (index : Option Nat) (isDir : Bool) (indexed : Nat)
  | delete (i : Nat)
  | get (num : Nat)
  | ref (i : Nat)
  | put (i : Nat)
  | purge (parent : Nat)

namespace Table

variable (n : Nat) (t : Table)

def run : Req → Option Table
  | .add parent name index isDir indexed =>
    (t.addInode n parent name index isDir indexed).map Prod.fst
  | .delete i => deleteInode n (depth n) t i
  | .get num => t.getInode n num
  | .ref i => t.refInode n i
  | .put i => t.putInode n i
  | .purge parent => t.purgeInode n parent

/-- A call that fails an assertion leaves the table to nobody. -/
def step (a : Req) : Table := (t.run n a).getD t

/-- The assertions on what a caller passes, and that there is room for a new inode. -/
def Refused : Req → Prop
  | .add parent name _ _ _ =>
    ¬ (t.checkInode n parent ∧ (t.inode parent).isDir ∧ ¬ t.isDeleted parent ∧
      name.length ≤ pnameMax ∧ t.getInodeByName n parent name = none) ∨
    t.unused = [] ∧ ∀ i < n, t.deletable parent i = false
  | .delete i => ¬ (t.checkInode n i ∧ i ≠ 0)
  | .get num => ¬ (num ≠ 0 ∧ t.checkInode n (num - 1))
  | .ref i => ¬ t.checkInode n i
  | .put i => ¬ (t.checkInode n i ∧ 0 < (t.inode i).count)
  | .purge _ => t.unused ≠ []

/-! ## What is promised -/

/-- The list of unused inodes, the tree, the chains and the look-ups agree. -/
structure Consistent : Prop where
  unused_iff : ∀ i < n, i ∈ t.unused ↔
    (t.inode i).count = 0 ∧ (t.inode i).children = [] ∧ (t.inode i).deleted ≠ some false
  unused_once : t.unused.Nodup
  once : ∀ i < n, i ≠ 0 → t.Live i → ∃ p, (t.inode i).parent = some p ∧ t.Live p ∧
    (t.inode p).children.count i = 1 ∧
    (t.nameHead (parentNameHash n p (t.inode i).name)).count i = 1 ∧
    ∀ k, (t.inode i).index = some k → (t.indexHead (parentIndexHash n p k)).count i = 1
  children : ∀ p i, i ∈ (t.inode p).children ↔ (t.inode i).parent = some p
  tree : ∀ i p, (t.inode i).parent = some p →
    Relation.ReflTransGen (fun a b => (t.inode a).parent = some b) i 0
  waiting : ∀ i < n, t.isDeleted i → i ∉ t.unused → (t.inode i).isDir →
    (t.inode i).parent ≠ none ∧ (0 < (t.inode i).count ∨ (t.inode i).children ≠ [])
  byName : ∀ p name c, t.getInodeByName n p name = some c ↔
    t.Live c ∧ (t.inode c).parent = some p ∧ (t.inode c).name = name
  byIndex : ∀ p k c, t.getInodeByIndex n p k = some c ↔
    t.Live c ∧ (t.inode c).parent = some p ∧ (t.inode c).index = some k

/-- What a call frees comes in front of the list of unused inodes (unless the call adds an inode).
-/
def Front (t' : Table) : Req → Prop
  | .add .. => True
  | _ => t.unused <:+ t'.unused

/-- A call is refused, or the table is consistent after it, so that the list has each inode once. -/
def Keeps (a : Req) : Prop :=
  match t.run n a with
  | none => t.Refused n a
  | some t' => t'.Consistent n ∧ t.Front t' a

/-- The caller names an inode that is in use, and gives no index twice. -/
def Allowed : Req → Prop
  | .add parent _ (some k) _ _ => t.getInodeByIndex n parent k = none
  | .delete i => i ∉ t.unused
  | .get num => num - 1 ∉ t.unused
  | .ref i => i ∉ t.unused
  | _ => True

instance (a : Req) : Decidable (t.Allowed n a) := by
  unfold Allowed
  split <;> infer_instance

variable {n : Nat} {t : Table} {rank : Nat → Nat}

theorem Sound.consistent (h : Sound n rank t [] []) : t.Consistent n := by
  have hfree {i : Nat} : t.Free [] i ↔ i ∈ t.unused := by simp [Free]
  refine ⟨fun i hi => ⟨fun hu => ?_, fun hno => ?_⟩, ?_, fun i hi hroot hl => ?_,
    fun p i => h.mem_children, fun i p hp => h.forest.reaches_root hp rfl,
    fun i hi hd hu hdir => ?_, fun p name c => h.getInodeByName name c,
    fun p k c => h.getInodeByIndex k c⟩
  · exact ⟨h.free_count (hfree.mpr hu), h.free_children (hfree.mpr hu), h.free_deleted (hfree.mpr hu)⟩
  · obtain ⟨hc, hch, hd⟩ := hno
    by_contra hu
    obtain hl | hdel := h.live_or_deleted hi fun hf => hu (hfree.mp hf)
    · exact hd hl
    · obtain hn | hn | hn := h.needed hi (fun hf => hu (hfree.mp hf)) hdel
      · omega
      · exact hn hch
      · cases hn
  · simpa using h.nodup
  · obtain ⟨p, hp⟩ := h.live_parent hroot hi hl
    refine ⟨p, hp, h.live_child_parent hl hp,
      List.count_eq_one_of_mem (h.children_nodup p) (h.mem_children.mpr hp),
      List.count_eq_one_of_mem (h.names_nodup _) (h.mem_names.mpr ⟨hl, p, hp, rfl⟩), fun k hk => ?_⟩
    exact List.count_eq_one_of_mem (h.indexes_nodup _) (h.mem_indexes.mpr ⟨hl, p, k, hp, hk, rfl⟩)
  have hf : ¬ t.Free [] i := fun hf => hu (hfree.mp hf)
  refine ⟨(h.dir_iff hi hf hd).mp hdir, ?_⟩
  obtain hn | hn | hn := h.needed hi hf hd
  · exact Or.inl hn
  · exact Or.inr hn
  · cases hn

theorem init_sound (hn : 0 < n) (isDir : Bool) (indexed : Nat) :
    Sound n (fun _ => 0) (init n isDir indexed) [] [] := by
  have hunused {i : Nat} : (init n isDir indexed).Free [] i ↔ i ≠ 0 ∧ i < n := by
    simp only [Free, init, List.append_nil, List.mem_reverse, List.mem_range'_1]
    omega
  have hlive {i : Nat} : (init n isDir indexed).Live i ↔ i = 0 := by
    unfold Live init
    by_cases hi : i = 0
    · simp [hi]
    · simp [hi]
  have hdel (i : Nat) : (init n isDir indexed).isDeleted i = false := by
    unfold isDeleted init
    by_cases hi : i = 0
    · simp [hi]
    · simp [hi]
  have hparent (i : Nat) : ((init n isDir indexed).inode i).parent = none := rfl
  have hchildren (i : Nat) : ((init n isDir indexed).inode i).children = [] := rfl
  have hno {i p : Nat} (hi : ((init n isDir indexed).inode i).parent = some p) : False := by
    rw [hparent] at hi
    cases hi
  have hnot {i : Nat} (hi : i < n) (hf : ¬ (init n isDir indexed).Free [] i) : i = 0 := by
    rw [hunused] at hf
    omega
  exact
    { nodup := by
        simp only [init, List.append_nil, List.nodup_reverse]
        exact List.nodup_range'
      free_lt := hunused.mp
      free_count := fun _ => rfl
      free_deleted := fun hi => by
        rw [hlive]
        exact (hunused.mp hi).1
      written := fun hi hf => by
        rw [hnot hi hf]
        simp [init]
      root_live := hlive.mpr rfl
      root_parent := rfl
      root_index := rfl
      forest :=
        { child_lt := fun hi => (hno hi).elim
          parent_lt := fun hi => (hno hi).elim
          rank_succ := fun hi => (hno hi).elim
          root := fun hi => (hno hi).elim
          rank_root := rfl }
      linked := fun hi => (hno hi).elim
      linked_dir := fun hi => (hno hi).elim
      deleted_dir := fun hi => (hno hi).elim
      deleted_parent := fun hi => (hno hi).elim
      live_parent := fun hi _ hl => absurd (hlive.mp hl) hi
      dir_parent := fun {i} _ _ hd => by
        rw [hdel] at hd
        cases hd
      needed := fun {i} _ _ hd => by
        rw [hdel] at hd
        cases hd
      children_nodup := fun _ => List.nodup_nil
      mem_children := fun {p i} => by
        rw [hparent, hchildren]
        simp
      names_nodup := fun _ => List.nodup_nil
      mem_names := fun {slot i} => by
        rw [hparent]
        simp [init]
      indexes_nodup := fun _ => List.nodup_nil
      mem_indexes := fun {slot i} => by
        rw [hparent]
        simp [init]
      name_unique := fun _ _ hi => (hno hi).elim
      index_unique := fun _ _ hi => (hno hi).elim
      checked := hn }

/-! ## Calls -/

theorem Sound.addTo (h : Sound n rank t [] []) {t₁ : Table} (h₁ : Sound n rank t₁ [] [])
    {p i : Nat} {unused : List Nat} (hpurged : Purged t t₁ p) (hunused : t₁.unused = i :: unused)
    (hp : t.Live p) (hplt : p < n) (hpdir : (t.inode p).isDir) {name : Name} {index : Option Nat}
    (hname : t.getInodeByName n p name = none)
    (hindex : ∀ k, index = some k → t.getInodeByIndex n p k = none) (isDir : Bool) (indexed : Nat) :
    ∃ t' rank', t₁.newInode n p name index isDir indexed = some (t', i) ∧ Sound n rank' t' [] [] := by
  have hlive {j : Nat} (hj : t₁.Live j) : Frame t t₁ j :=
    (hpurged.others j).resolve_right fun hd => not_live_of_deleted hd.2 hj
  have hpframe : Frame t t₁ p := (hpurged.others p).resolve_right fun hd => hd.1 rfl
  have hp1 : t₁.Live p := by
    unfold Live
    rw [hpframe.deleted]
    exact hp
  have hback {j : Nat} (hj : t₁.Live j) : t.Live j := by
    unfold Live
    rw [← (hlive hj).deleted]
    exact hj
  obtain ⟨t', hrun, hadded⟩ := h₁.newInode hunused hp1 name index isDir indexed
  refine ⟨t', _, hrun, h₁.added hadded hp1 hplt (by rw [hpframe.isDir]; exact hpdir)
    (fun j hj hjp heq => ?_) fun j k hj hjp hjk heq => ?_⟩
  · rw [(hlive hj).parent] at hjp
    rw [(hlive hj).name] at heq
    have hfound := (h.getInodeByName name j).mpr ⟨hback hj, hjp, heq⟩
    rw [hname] at hfound
    cases hfound
  rw [(hlive hj).parent] at hjp
  rw [(hlive hj).index] at hjk
  have hfound := (h.getInodeByIndex k j).mpr ⟨hback hj, hjp, hjk⟩
  rw [hindex k heq] at hfound
  cases hfound

theorem checkInode_lt {i : Nat} (hcheck : t.checkInode n i) : i < n := by
  simp only [checkInode, decide_eq_true_eq] at hcheck
  exact hcheck.1

theorem Sound.keeps_of_run {t' : Table} {a : Req} (hrun : t.run n a = some t')
    (h : Sound n rank t' [] []) (hfront : t.Front t' a) :
    t.Keeps n a ∧ ∃ rank', Sound n rank' (t.step n a) [] [] := by
  unfold Keeps step
  rw [hrun]
  exact ⟨⟨h.consistent, hfront⟩, rank, h⟩

theorem Sound.keeps_of_refused (h : Sound n rank t [] []) {a : Req} (hrun : t.run n a = none)
    (ha : t.Refused n a) : t.Keeps n a ∧ ∃ rank', Sound n rank' (t.step n a) [] [] := by
  unfold Keeps step
  rw [hrun]
  exact ⟨ha, rank, h⟩

theorem Sound.keeps_add (h : Sound n rank t [] []) {p : Nat} {name : Name} {index : Option Nat}
    {isDir : Bool} {indexed : Nat} (ha : t.Allowed n (.add p name index isDir indexed)) :
    t.Keeps n (.add p name index isDir indexed) ∧
      ∃ rank', Sound n rank' (t.step n (.add p name index isDir indexed)) [] [] := by
  by_cases hargs : t.checkInode n p ∧ (t.inode p).isDir ∧ ¬ t.isDeleted p ∧
      name.length ≤ pnameMax ∧ t.getInodeByName n p name = none
  · have hadd : t.run n (.add p name index isDir indexed) =
        ((if t.unused = [] then t.purgeInode n p else some t).bind fun t =>
          t.newInode n p name index isDir indexed).map Prod.fst := by
      rw [run, addInode, if_pos hargs]
    obtain ⟨hcheck, hpdir, hpdel, -, hname⟩ := hargs
    have hplt : p < n := checkInode_lt hcheck
    have hp : t.Live p := by
      simp only [checkInode, decide_eq_true_eq] at hcheck
      obtain rfl | hpar | hd := hcheck.2
      · exact h.root_live
      · obtain ⟨q, hq⟩ := Option.ne_none_iff_exists'.mp hpar
        exact (h.live_or_deleted hplt (h.linked hq).1).resolve_right hpdel
      · exact absurd hd hpdel
    have hindex : ∀ k, index = some k → t.getInodeByIndex n p k = none := by
      rintro k rfl
      exact ha
    by_cases hunused : t.unused = []
    · obtain ⟨t1, hpurge, h1, hpurged, hnone⟩ := h.purgeInode hunused p
      rw [if_pos hunused, hpurge, Option.bind_some] at hadd
      cases hroom : t1.unused with
      | nil =>
        refine h.keeps_of_refused ?_ (Or.inr ⟨hunused, hnone hroom⟩)
        rw [hadd, Table.newInode, hroom]
        rfl
      | cons i unused =>
        obtain ⟨t', rank', hrun, hsound⟩ :=
          h.addTo h1 hpurged hroom hp hplt hpdir hname hindex isDir indexed
        exact Sound.keeps_of_run (by rw [hadd, hrun]; rfl) hsound trivial
    obtain ⟨i, unused, hroom⟩ := List.exists_cons_of_ne_nil hunused
    rw [if_neg hunused, Option.bind_some] at hadd
    obtain ⟨t', rank', hrun, hsound⟩ := h.addTo h
      ⟨List.suffix_refl _, fun i => Or.inl (Frame.refl t i)⟩ hroom hp hplt hpdir hname hindex
      isDir indexed
    exact Sound.keeps_of_run (by rw [hadd, hrun]; rfl) hsound trivial
  · refine h.keeps_of_refused ?_ (Or.inl hargs)
    rw [run, addInode, if_neg hargs]
    rfl

theorem Sound.keeps (h : Sound n rank t [] []) {a : Req} (ha : t.Allowed n a) :
    t.Keeps n a ∧ ∃ rank', Sound n rank' (t.step n a) [] [] := by
  have hfree {i : Nat} (hi : i ∉ t.unused) : ¬ t.Free [] i := by simpa [Free] using hi
  cases a with
  | add p name index isDir indexed => exact h.keeps_add ha
  | delete i =>
    by_cases hargs : t.checkInode n i ∧ i ≠ 0
    · obtain ⟨t', hrun, hsound, hsuffix⟩ :=
        h.deleteInode (checkInode_lt hargs.1) hargs.2 (hfree ha)
      exact Sound.keeps_of_run hrun hsound hsuffix
    · refine h.keeps_of_refused ?_ hargs
      rw [run, depth, Table.deleteInode, if_neg hargs]
  | get num =>
    by_cases hargs : num ≠ 0 ∧ t.checkInode n (num - 1)
    · exact Sound.keeps_of_run (by rw [run, getInode, if_pos hargs])
        (h.addReference (checkInode_lt hargs.2) (hfree ha)) (List.suffix_refl _)
    · exact h.keeps_of_refused (by rw [run, getInode, if_neg hargs]) hargs
  | ref i =>
    by_cases hargs : t.checkInode n i
    · exact Sound.keeps_of_run (by rw [run, refInode, if_pos hargs])
        (h.addReference (checkInode_lt hargs) (hfree ha)) (List.suffix_refl _)
    · exact h.keeps_of_refused (by rw [run, refInode, if_neg hargs]) hargs
  | put i =>
    by_cases hargs : t.checkInode n i ∧ 0 < (t.inode i).count
    · obtain ⟨t', hrun, hsound, hsuffix⟩ := h.putInode hargs.1 hargs.2
      exact Sound.keeps_of_run hrun hsound hsuffix
    · exact h.keeps_of_refused (by rw [run, Table.putInode, if_neg hargs]) hargs
  | purge p =>
    by_cases hargs : t.unused = []
    · obtain ⟨t', hrun, hsound, hpurged, -⟩ := h.purgeInode hargs p
      exact Sound.keeps_of_run hrun hsound hpurged.suffix
    · exact h.keeps_of_refused (by rw [run, Table.purgeInode, if_neg hargs]) hargs

/-- In every run whose callers name inodes in use and give no index twice, every call keeps the
table consistent. -/
theorem table_consistent (hn : 0 < n) (isDir : Bool) (indexed : Nat) {as : List Req}
    (h : Along (step n) (Allowed n) (init n isDir indexed) as) :
    Along (step n) (Keeps n) (init n isDir indexed) as ∧
      (as.foldl (step n) (init n isDir indexed)).Consistent n := by
  have hstep : ∀ (t : Table) (a : Req), (∃ rank, Sound n rank t [] []) → t.Allowed n a →
      t.Keeps n a ∧ ∃ rank, Sound n rank (t.step n a) [] [] := by
    rintro t a ⟨rank, hs⟩ ha
    exact hs.keeps ha
  obtain ⟨hkeeps, rank, hsound⟩ := Along.run hstep ⟨_, init_sound hn isDir indexed⟩ h
  exact ⟨hkeeps, hsound.consistent⟩

/-- A directory with an indexed file is deleted while both are referred to, and freed when they have
been put. -/
theorem table_consistent_directory :
    Along (step 3) (Allowed 3) (init 3 true 8)
        [.add 0 [100] none true 4, .add 2 [102] (some 1) false 0, .get 3, .get 2, .delete 2, .put 2,
          .put 1, .add 0 [100] (some 2) false 0, .add 0 [101] (some 3) false 0, .purge 0,
          .add 0 [102] (some 4) false 0] ∧
      Along (step 3) (Keeps 3) (init 3 true 8)
        [.add 0 [100] none true 4, .add 2 [102] (some 1) false 0, .get 3, .get 2, .delete 2, .put 2,
          .put 1, .add 0 [100] (some 2) false 0, .add 0 [101] (some 3) false 0, .purge 0,
          .add 0 [102] (some 4) false 0] :=
  ⟨by decide +kernel, (table_consistent (by decide) true 8 (by decide +kernel)).1⟩

/-- Two children of one directory with one index. -/
def sameIndex : Table :=
  [Req.add 0 [97] (some 0) false 0, .add 0 [98] (some 0) false 0].foldl (step 4) (init 4 true 8)

/-- An inode that is referred to by its number after it has been freed. -/
def freedReferred : Table :=
  [Req.add 0 [97] none false 0, .delete 3, .get 4].foldl (step 4) (init 4 true 8)

/-- The look-up by index finds one of the children only, and a referred inode is on the unused list.
-/
theorem table_inconsistent : ¬ sameIndex.Consistent 4 ∧ ¬ freedReferred.Consistent 4 := by
  constructor
  · intro h
    have hlive : (sameIndex.inode 3).deleted = some false := by decide +kernel
    have hparent : (sameIndex.inode 3).parent = some 0 := by decide +kernel
    have hindex : (sameIndex.inode 3).index = some 0 := by decide +kernel
    have hfound := (h.byIndex 0 0 3).mpr ⟨hlive, hparent, hindex⟩
    have hother : sameIndex.getInodeByIndex 4 0 0 = some 2 := by decide +kernel
    rw [hother] at hfound
    cases hfound
  intro h
  have hunused : 3 ∈ freedReferred.unused := by decide +kernel
  have hcount : (freedReferred.inode 3).count = 1 := by decide +kernel
  have hzero := ((h.unused_iff 3 (by decide)).mp hunused).1
  omega

end Table

end HardenedMinix.Libvtreefs
