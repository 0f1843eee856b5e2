import HardenedMinix.IpcServer.SemLists

/-!
# Waking processes

At each semaphore at most one process that waits for zero and one that waits for an increase are
woken.
-/

open List Option

namespace HardenedMinix.Sem

open Lib Semaphore

variable {s s' s₁ s₂ : State} {i j i' j' : Nat} {p q : Proc} {e : Waiting} {x : Semaphore}
  {pre post l l' : List Waiting} {pred : Waiting → Bool}

/-! ## One semaphore -/

theorem takeFirst_none (h : takeFirst pred l = none) : ∀ e ∈ l, pred e = false := by
  induction l with
  | nil => exact fun e he => absurd he not_mem_nil
  | cons a l ih =>
    rw [takeFirst.eq_2] at h
    split at h
    next => cases h
    rename_i hpred
    rw [map_eq_none_iff] at h
    intro e he
    obtain rfl | he := mem_cons.mp he
    · exact Bool.eq_false_iff.mpr hpred
    · exact ih h e he

theorem takeFirst_some (h : takeFirst pred l = some (e, l')) :
    ∃ pre post, l = pre ++ e :: post ∧ l' = pre ++ post ∧ pred e = true ∧
      ∀ e' ∈ pre, pred e' = false := by
  induction l generalizing l' with
  | nil => cases h
  | cons a l ih =>
    rw [takeFirst.eq_2] at h
    split at h
    next hpred =>
      obtain ⟨rfl, rfl⟩ := Prod.mk.inj (some.inj h)
      exact ⟨[], l, rfl, rfl, hpred, fun e' he' => absurd he' not_mem_nil⟩
    rename_i hpred
    obtain ⟨⟨e1, l1⟩, hrest, heq⟩ := map_eq_some_iff.mp h
    obtain ⟨rfl, rfl⟩ := Prod.mk.inj heq
    obtain ⟨pre, post, rfl, rfl, htrue, hfalse⟩ := ih hrest
    refine ⟨a :: pre, post, rfl, rfl, htrue, fun e' he' => ?_⟩
    obtain rfl | he' := mem_cons.mp he'
    · exact Bool.eq_false_iff.mpr hpred
    · exact hfalse e' he'

/-- What is made of a semaphore by the wake-up of a process that waits for zero. -/
def Semaphore.wokenZero (x : Semaphore) : Semaphore :=
  if x.semval = 0 then
    { x with zlist := x.zlist.map List.tail, semzcnt := x.semzcnt - 1 }
  else x

/-- What is made of a semaphore by the wake-up of a process that waits for an increase. -/
def Semaphore.wokenIncr (x : Semaphore) : Semaphore :=
  match takeFirst (fun e => e.val ≤ x.semval) (x.nlist.getD []) with
  | none => x
  | some (e, l) =>
    { x with semval := ushort (x.semval - e.val), nlist := some l, semncnt := x.semncnt - 1 }

def Semaphore.woken (x : Semaphore) : Semaphore := x.wokenZero.wokenIncr

/-- The list of those that wait for zero is looked into only while it has an entry. -/
def NoCrash (x : Semaphore) : Prop := ¬ (x.zlist = some [] ∧ x.semval = 0)

/-- Nobody on the lists could go on. -/
structure Stable (x : Semaphore) : Prop where
  zero : x.semval = 0 → x.zlist.getD [] = []
  incr : ∀ e ∈ x.nlist.getD [], (x.semval : Int) < e.val

/-- Only one process could go on: nobody else waits for zero, and the first that can go on leaves nothing. -/
structure Once (x : Semaphore) : Prop where
  zero : x.semval = 0 → (x.zlist.getD []).length ≤ 1
  incr : ∀ pre (e : Waiting) post, x.nlist.getD [] = pre ++ e :: post →
    (∀ e' ∈ pre, (x.semval : Int) < e'.val) → e.val ≤ x.semval →
    (∀ e' ∈ post, x.semval - e.val < e'.val) ∧ (e.val = x.semval → x.zlist.getD [] = [])

theorem Stable.once (h : Stable x) : Once x where
  zero hv := by
    rw [h.zero hv]
    exact Nat.zero_le _
  incr pre e post heq hpre he := by
    have := h.incr e (heq ▸ mem_append_right _ mem_cons_self)
    omega

theorem ushort_sub {v : Nat} {d : Int} (hv : v < 65536) (hd : 0 ≤ d) (hle : d ≤ v) :
    (ushort (v - d) : Int) = v - d := by
  unfold ushort
  omega

theorem SemOk.wokenZero (h : SemOk x) : SemOk x.wokenZero := by
  unfold Semaphore.wokenZero
  split
  · obtain ⟨v, z, n, zl, nl, pid⟩ := x
    obtain ⟨hz, hn, hzero, hincr, hnodup, hsmall⟩ := h
    cases zl with
    | none => exact ⟨by simp at hz; simp [hz], hn, hzero, hincr, hnodup, hsmall⟩
    | some l =>
      cases l with
      | nil => exact ⟨by simp at hz; simp [hz], hn, hzero, hincr, hnodup, hsmall⟩
      | cons a l =>
        refine ⟨by simp at hz; simp [hz], hn, fun e he => ?_, hincr, ?_, hsmall⟩
        · exact hzero e (mem_cons_of_mem _ he)
        · exact (nodup_cons.mp hnodup).2
  · exact h

theorem Once.stable (hok : SemOk x) (h : Once x) : Stable x.woken := by
  have hzero : ∀ v z n (zl nl : Option (List Waiting)) pid, x = ⟨v, z, n, zl, nl, pid⟩ → v = 0 →
      (zl.map List.tail).getD [] = [] := by
    rintro v z n zl nl pid rfl hv
    have hlen := h.zero hv
    cases zl with
    | none => rfl
    | some l =>
      cases l with
      | nil => rfl
      | cons a l => exact eq_nil_of_length_eq_zero (Nat.le_zero.mp (Nat.succ_le_succ_iff.mp hlen))
  obtain ⟨v, z, n, zl, nl, pid⟩ := x
  by_cases hv : v = 0
  · -- those that wait for an increase have to wait on
    have hnone : ∀ e ∈ nl.getD [], ¬ e.val ≤ (v : Int) := by
      intro e he
      have := hok.incr e he
      omega
    have hwoken : woken ⟨v, z, n, zl, nl, pid⟩ =
        ⟨v, z - 1, n, zl.map List.tail, nl, pid⟩ := by
      unfold woken wokenZero wokenIncr
      rw [if_pos hv]
      cases htake : takeFirst (fun e => decide (e.val ≤ ((v : Nat) : Int))) (nl.getD []) with
      | none => simp only
      | some r =>
        obtain ⟨e, l⟩ := r
        obtain ⟨pre, post, heq, -, htrue, -⟩ := takeFirst_some htake
        exact absurd (of_decide_eq_true htrue)
          (hnone _ (heq ▸ mem_append_right _ mem_cons_self))
    rw [hwoken]
    exact ⟨fun _ => hzero v z n zl nl pid rfl hv, fun e he => lt_of_not_ge (hnone e he)⟩
  have hsame : wokenZero ⟨v, z, n, zl, nl, pid⟩ = ⟨v, z, n, zl, nl, pid⟩ := if_neg hv
  unfold woken
  rw [hsame]
  unfold wokenIncr
  split
  next htake =>
    refine ⟨fun h0 => absurd h0 hv, fun e he => ?_⟩
    exact lt_of_not_ge (of_decide_eq_false (takeFirst_none htake e he))
  rename_i e l htake
  obtain ⟨pre, post, heq, rfl, htrue, hpre⟩ := takeFirst_some htake
  have hle : e.val ≤ (v : Int) := of_decide_eq_true htrue
  have hpos := hok.incr e (heq ▸ mem_append_right _ mem_cons_self)
  have hpre' : ∀ e' ∈ pre, (v : Int) < e'.val := fun e' he' =>
    lt_of_not_ge (of_decide_eq_false (hpre e' he'))
  obtain ⟨hpost, hlast⟩ := h.incr pre e post heq hpre' hle
  have hsub := ushort_sub hok.small hpos.le hle
  simp only at hsub
  refine ⟨fun h0 => ?_, fun e' he' => ?_⟩
  · apply hlast
    simp only at h0 ⊢
    omega
  simp only
  rw [hsub]
  obtain he' | he' := mem_append.mp he'
  · have := hpre' e' he'
    omega
  · exact hpost e' he'

/-! ## One turn -/

/-- One process is woken: its operation could go on, and the value is what it leaves. -/
inductive Woke (s : State) : State → Prop
  | mk {i j : Nat} {e : Waiting} {x : Semaphore} (hinv : Inv s) (hat : At s i j)
      (he : e ∈ (s.sem i j).entries) (hzero : e.val = 0 → (s.sem i j).semval = 0)
      (hle : e.val ≤ (s.sem i j).semval) (hval : (x.semval : Int) = (s.sem i j).semval - e.val)
      (hnext : Inv ((s.setSem i j x).send e.who .ok)) :
      Woke s ((s.setSem i j x).send e.who .ok)

/-- The semaphores in `D` have become `f` of what they were; each change wakes a process. -/
structure Swept (f : Semaphore → Semaphore) (D : Nat → Nat → Prop) (s s' : State) : Prop where
  inv : Inv s'
  same : SameSets s s'
  woke : Relation.ReflTransGen Woke s s'
  done : ∀ i j, D i j → s'.sem i j = f (s.sem i j)
  rest : ∀ i j, ¬ D i j → s'.sem i j = s.sem i j

variable {f : Semaphore → Semaphore}

theorem Swept.refl {D : Nat → Nat → Prop} (h : Inv s)
    (hD : ∀ i j, D i j → f (s.sem i j) = s.sem i j) : Swept f D s s where
  inv := h
  same := .refl s
  woke := .refl
  done i j hij := (hD i j hij).symm
  rest _ _ _ := rfl

theorem Swept.congr {D D' : Nat → Nat → Prop}
    (h : Swept f D s s') (hD : ∀ i j, D i j ↔ D' i j) : Swept f D' s s' where
  inv := h.inv
  same := h.same
  woke := h.woke
  done i j hij := h.done i j ((hD i j).mpr hij)
  rest i j hij := h.rest i j fun h => hij ((hD i j).mp h)

def Only (i j i' j' : Nat) : Prop := i' = i ∧ j' = j

theorem Swept.comp {f g : Semaphore → Semaphore} (h : Swept f (Only i j) s s₁)
    (h' : Swept g (Only i j) s₁ s₂) : Swept (g ∘ f) (Only i j) s s₂ where
  inv := h'.inv
  same := h.same.trans h'.same
  woke := h.woke.trans h'.woke
  done i' j' hij := by rw [h'.done i' j' hij, h.done i' j' hij]; rfl
  rest i' j' hij := by rw [h'.rest i' j' hij, h.rest i' j' hij]

theorem Swept.snoc {D : Nat → Nat → Prop} (h : Swept f D s s₁)
    (hD : ¬ D i j) (h' : Swept f (Only i j) s₁ s₂) :
    Swept f (fun i' j' => D i' j' ∨ Only i j i' j') s s₂ where
  inv := h'.inv
  same := h.same.trans h'.same
  woke := h.woke.trans h'.woke
  done i' j' hij := by
    obtain hd | ⟨rfl, rfl⟩ := hij
    · have hne : ¬ Only i j i' j' := by
        rintro ⟨rfl, rfl⟩
        exact hD hd
      rw [h'.rest i' j' hne, h.done i' j' hd]
    · rw [h'.done i' j' ⟨rfl, rfl⟩, h.rest i' j' hD]
  rest i' j' hij := by
    rw [h'.rest i' j' fun ho => hij (.inr ho), h.rest i' j' fun hd => hij (.inl hd)]

theorem Semaphore.wokenZero_of_ne (h : x.semval ≠ 0) : x.wokenZero = x := if_neg h

theorem Swept.wake (h : Inv s) (hat : At s i j)
    (he : (s.sem i j).entries = pre ++ e :: post) (hx : x.entries = pre ++ post) (hok : SemOk x)
    (hzero : e.val = 0 → (s.sem i j).semval = 0) (hle : e.val ≤ (s.sem i j).semval)
    (hval : (x.semval : Int) = (s.sem i j).semval - e.val) (hf : x = f (s.sem i j)) :
    Swept f (Only i j) s ((s.setSem i j x).send e.who .ok) where
  inv := h.take hat he hx hok
  same := sameSets_setSem.trans sameSets_send
  woke := .single (.mk h hat (he ▸ mem_append_right _ mem_cons_self) hzero hle hval
    (h.take hat he hx hok))
  done i' j' hij := by
    obtain ⟨rfl, rfl⟩ := hij
    rw [send_sem, setSem_sem_self, hf]
  rest i' j' hij := send_sem.trans (setSem_sem_of_ne hij)

theorem wakeZero_spec (h : Inv s) (hat : At s i j) (hno : NoCrash (s.sem i j)) :
    ∃ s', wakeZero s i j = some s' ∧ Swept wokenZero (Only i j) s s' := by
  have hok := h.sems i j hat
  unfold wakeZero
  cases hl : (s.sem i j).zlist with
  | none =>
    refine ⟨s, by simp only [hl], Swept.refl h fun i' j' hij => ?_⟩
    obtain ⟨rfl, rfl⟩ := hij
    have hz := hok.zcnt
    unfold wokenZero
    split
    · generalize s.sem i' j' = x at hl hz
      obtain ⟨v, z, n, zl, nl, pid⟩ := x
      subst hl
      simp only [getD_none, length_nil] at hz
      subst hz
      rfl
    · rfl
  | some l =>
    simp only [hl]
    by_cases hv : (s.sem i j).semval = 0
    · cases l with
      | nil => exact absurd ⟨hl, hv⟩ hno
      | cons e l =>
        have hz : (s.sem i j).semzcnt = l.length + 1 := by rw [hok.zcnt, hl]; rfl
        have hwoken : (s.sem i j).wokenZero =
            { s.sem i j with zlist := some l, semzcnt := l.length } := by
          unfold wokenZero
          rw [if_pos hv, hl, hz]
          rfl
        have he := hok.zero e (by rw [hl]; exact mem_cons_self)
        have hentries : (s.sem i j).entries = [] ++ e :: (l ++ (s.sem i j).nlist.getD []) := by
          unfold entries
          rw [hl]
          rfl
        refine ⟨_, (if_neg (not_not.mpr hv)).trans (by rw [hz]), ?_⟩
        apply Swept.wake h hat hentries
        · rfl
        · exact hwoken ▸ hok.wokenZero
        · exact fun _ => hv
        · rw [he, hv]
          rfl
        · rw [he, sub_zero]
        · exact hwoken.symm
    · refine ⟨s, if_pos hv, Swept.refl h fun i' j' hij => ?_⟩
      obtain ⟨rfl, rfl⟩ := hij
      exact wokenZero_of_ne hv

theorem wakeIncr_spec (h : Inv s) (hat : At s i j) :
    ∃ s', wakeIncr s i j = some s' ∧ Swept wokenIncr (Only i j) s s' := by
  have hok := h.sems i j hat
  unfold wakeIncr
  cases hl : (s.sem i j).nlist with
  | none =>
    refine ⟨s, by simp only [hl], Swept.refl h fun i' j' hij => ?_⟩
    obtain ⟨rfl, rfl⟩ := hij
    unfold wokenIncr
    rw [hl]
    rfl
  | some l =>
    have hn : (s.sem i j).semncnt = l.length := by rw [hok.ncnt, hl]; rfl
    simp only [hl]
    rw [if_neg (not_not.mpr hn)]
    cases htake : takeFirst (fun e => decide (e.val ≤ ((s.sem i j).semval : Int))) l with
    | none =>
      refine ⟨s, rfl, Swept.refl h fun i' j' hij => ?_⟩
      obtain ⟨rfl, rfl⟩ := hij
      unfold wokenIncr
      rw [hl, getD_some, htake]
    | some r =>
      obtain ⟨e, l'⟩ := r
      obtain ⟨pre, post, rfl, rfl, htrue, -⟩ := takeFirst_some htake
      have hle := of_decide_eq_true htrue
      have hpos := hok.incr e (by rw [hl]; exact mem_append_right _ mem_cons_self)
      have hsub := ushort_sub hok.small hpos.le hle
      have hentries : (s.sem i j).entries = ((s.sem i j).zlist.getD [] ++ pre) ++ e :: post := by
        unfold entries
        rw [hl, getD_some, append_assoc]
      refine ⟨_, rfl, ?_⟩
      apply Swept.wake h hat hentries
      · exact (append_assoc _ _ _).symm
      · have hnodup := hok.nodup
        rw [hentries, map_append, map_cons, nodup_middle, nodup_cons,
          ← map_append, append_assoc] at hnodup
        refine ⟨hok.zcnt, ?_, hok.zero, fun e' he' => ?_, hnodup.2, ?_⟩
        · show (s.sem i j).semncnt - 1 = (pre ++ post).length
          rw [hn]
          simp only [length_append, length_cons]
          omega
        · apply hok.incr e'
          rw [hl]
          obtain he' | he' := mem_append.mp he'
          · exact mem_append_left _ he'
          · exact mem_append_right _ (mem_cons_of_mem _ he')
        · show ushort _ < 65536
          unfold ushort
          omega
      · omega
      · exact hle
      · exact hsub
      · unfold wokenIncr
        rw [hl, getD_some, htake]

theorem updateOneSemaphore_spec (h : Inv s) (hi : i < s.semListNr)
    (hno : ∀ j, j < (s.semList i).nsems → NoCrash (s.sem i j)) :
    ∃ s', updateOneSemaphore s i = some s' ∧
      Swept woken (fun i' j' => i' = i ∧ j' < (s.semList i).nsems) s s' := by
  unfold updateOneSemaphore forSems
  apply foldlM_range (J := fun k => Swept woken (fun i' j' => i' = i ∧ j' < k) s)
  · intro k s₁ hk hJ
    -- the semaphore has not been changed by the turns before
    have hsem : s₁.sem i k = s.sem i k := hJ.rest i k fun hlt => lt_irrefl k hlt.2
    have hat : At s₁ i k := hJ.same.at_iff.mpr ⟨hi, hk⟩
    obtain ⟨s₂, hrun, hzero⟩ := wakeZero_spec hJ.inv hat (hsem ▸ hno k hk)
    obtain ⟨s3, hrun', hincr⟩ := wakeIncr_spec hzero.inv (hzero.same.at_iff.mpr hat)
    refine ⟨s3, bind_eq_some_iff.mpr ⟨s₂, hrun, hrun'⟩, ?_⟩
    apply (hJ.snoc (i := i) (j := k) (fun hlt => lt_irrefl k hlt.2) (hzero.comp hincr)).congr
    intro i' j'
    show (_ ∨ i' = i ∧ j' = k) ↔ _
    omega
  · exact Swept.refl h fun i' j' hij => absurd hij.2 (Nat.not_lt_zero _)

theorem updateSemaphores_spec (h : Inv s) (hno : ∀ i j, At s i j → NoCrash (s.sem i j)) :
    ∃ s', updateSemaphores s = some s' ∧ Swept woken (At s) s s' := by
  unfold updateSemaphores forSets
  apply foldlM_range (J := fun k => Swept woken
    (fun i' j' => i' < k ∧ j' < (s.semList i').nsems) s)
  · intro k s₁ hk hJ
    have hsem : ∀ j, s₁.sem k j = s.sem k j := fun j => hJ.rest k j fun hlt => lt_irrefl k hlt.1
    obtain ⟨s₂, hrun, hone⟩ := updateOneSemaphore_spec (i := k) hJ.inv
      (by rw [hJ.same.semListNr]; exact hk) fun j hj => by
        rw [hsem j]
        exact hno k j ⟨hk, by rw [← hJ.same.nsems]; exact hj⟩
    refine ⟨s₂, hrun, hone.inv, hJ.same.trans hone.same, hJ.woke.trans hone.woke, ?_, ?_⟩
    · intro i j hij
      by_cases hi : i = k
      · subst hi
        rw [hone.done i j ⟨rfl, by rw [hJ.same.nsems]; exact hij.2⟩, hsem j]
      · rw [hone.rest i j fun hd => hi hd.1, hJ.done i j ⟨by omega, hij.2⟩]
    intro i j hij
    rw [hone.rest i j ?_, hJ.rest i j fun hd => hij ⟨by omega, hd.2⟩]
    rintro ⟨rfl, hj⟩
    rw [hJ.same.nsems] at hj
    exact hij ⟨Nat.lt_succ_self i, hj⟩
  · exact Swept.refl h fun i' j' hij => absurd hij.1 (Nat.not_lt_zero _)

end HardenedMinix.Sem
