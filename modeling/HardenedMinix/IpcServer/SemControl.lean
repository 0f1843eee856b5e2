import HardenedMinix.IpcServer.SemRequests

/-!
# Setting values, removing sets and processes

`semctl`, `semget` and the exit of a process only take entries away, so nobody who waits can go on
because of it.
-/

open Function List

namespace HardenedMinix.Sem

open Lib

variable {s s' s₁ s₂ t : State} {i j i' j' n a b : Nat} {p q : Proc} {e : Waiting} {x : Semaphore}
  {l : List Waiting}

/-! ## Refusals -/

/-- A process that is blocked gets an error; no value is another one. -/
inductive Refused (s : State) : State → Prop
  | mk {i j : Nat} {p : Proc} {c : Call} {x : Semaphore} {r : Err} (hcall : s.call p = some c)
      (hr : r ≠ .ok) (hval : x.semval = (s.sem i j).semval) :
      Refused s ((s.setSem i j x).send p r)

theorem setSem_self : s.setSem i j (s.sem i j) = s := by
  unfold State.setSem State.sem
  rw [update_eq_self, update_eq_self]

theorem Refused.plain {c : Call} {r : Err} (hcall : s.call p = some c) (hr : r ≠ .ok) :
    Refused s (s.send p r) := by
  have := Refused.mk (i := 0) (j := 0) (x := s.sem 0 0) hcall hr rfl
  rw [setSem_self] at this
  exact this

/-! ## The exit of a process -/

/-- Entries of `p` may have been taken away, those at the semaphores in `D` are. -/
structure Pruned (p : Proc) (D : Nat → Nat → Prop) (s s' : State) : Prop where
  inv : Inv s'
  same : SameSets s s'
  refused : Relation.ReflTransGen Refused s s'
  vals : s'.vals = s.vals
  zero : ∀ i j, (s'.sem i j).zlist.getD [] ⊆ (s.sem i j).zlist.getD []
  incr : ∀ i j, (s'.sem i j).nlist.getD [] ⊆ (s.sem i j).nlist.getD []
  gone : ∀ i j, D i j → ∀ e ∈ (s'.sem i j).entries, e.who ≠ p

theorem Pruned.entries {D : Nat → Nat → Prop} (h : Pruned p D s s') :
    (s'.sem i j).entries ⊆ (s.sem i j).entries := by
  intro e he
  obtain he | he := mem_append.mp he
  · exact mem_append_left _ (h.zero i j he)
  · exact mem_append_right _ (h.incr i j he)

theorem Pruned.trans {D D' : Nat → Nat → Prop} (h : Pruned p D s s₁) (h' : Pruned p D' s₁ s₂) :
    Pruned p (fun i j => D i j ∨ D' i j) s s₂ where
  inv := h'.inv
  same := h.same.trans h'.same
  refused := h.refused.trans h'.refused
  vals := h'.vals.trans h.vals
  zero i j := List.Subset.trans (h'.zero i j) (h.zero i j)
  incr i j := List.Subset.trans (h'.incr i j) (h.incr i j)
  gone i j hd e he := by
    obtain hd | hd := hd
    · exact h.gone i j hd e (h'.entries he)
    · exact h'.gone i j hd e he

theorem Pruned.congr {D D' : Nat → Nat → Prop} (h : Pruned p D s s')
    (hD : ∀ i j, D' i j → D i j) : Pruned p D' s s' where
  inv := h.inv
  same := h.same
  refused := h.refused
  vals := h.vals
  zero := h.zero
  incr := h.incr
  gone i j hd := h.gone i j (hD i j hd)

theorem Pruned.refl {D : Nat → Nat → Prop} (h : Inv s)
    (hD : ∀ i j, D i j → ∀ e ∈ (s.sem i j).entries, e.who ≠ p) : Pruned p D s s where
  inv := h
  same := .refl s
  refused := .refl
  vals := rfl
  zero _ _ := List.Subset.refl _
  incr _ _ := List.Subset.refl _
  gone := hD

theorem Pruned.take {pre post : List Waiting} (h : Inv s) (hat : At s i j)
    (he : (s.sem i j).entries = pre ++ e :: post) (hx : x.entries = pre ++ post) (hok : SemOk x)
    (hval : x.semval = (s.sem i j).semval)
    (hzero : x.zlist.getD [] ⊆ (s.sem i j).zlist.getD [])
    (hincr : x.nlist.getD [] ⊆ (s.sem i j).nlist.getD []) :
    Pruned e.who (Only i j) s ((s.setSem i j x).send e.who .eintr) := by
  have hsem : ∀ i' j', ((s.setSem i j x).send e.who .eintr).sem i' j' =
      if i' = i ∧ j' = j then x else s.sem i' j' := by
    intro i' j'
    rw [send_sem]
    split
    next hij =>
      obtain ⟨rfl, rfl⟩ := hij
      exact setSem_sem_self
    next hij => exact setSem_sem_of_ne hij
  have hmem : e ∈ (s.sem i j).entries := he ▸ mem_append_right _ mem_cons_self
  obtain ⟨o, hcall, -⟩ := h.waits i j hat e hmem
  refine ⟨h.take hat he hx hok, sameSets_setSem.trans sameSets_send,
    .single (.mk hcall (by simp) hval), ?_, ?_, ?_, ?_⟩
  · funext i' j'
    unfold State.vals
    rw [hsem]
    split
    next hij => rw [hij.1, hij.2, hval]
    next => rfl
  · intro i' j'
    rw [hsem]
    split
    next hij => rw [hij.1, hij.2]; exact hzero
    next => exact List.Subset.refl _
  · intro i' j'
    rw [hsem]
    split
    next hij => rw [hij.1, hij.2]; exact hincr
    next => exact List.Subset.refl _
  rintro i' j' ⟨rfl, rfl⟩ e' he' hw
  rw [hsem, if_pos ⟨rfl, rfl⟩, hx] at he'
  have hnodup := (h.sems i' j' hat).nodup
  rw [he, map_append, map_cons, nodup_middle, nodup_cons, ← map_append] at hnodup
  exact hnodup.1 (hw ▸ List.mem_map_of_mem he')

theorem removeZero_spec (h : Inv s) (hat : At s i j) : ∃ s', removeZero s p i j = some s' ∧
    Pruned p (fun _ _ => False) s s' ∧ ∀ e ∈ (s'.sem i j).zlist.getD [], e.who ≠ p := by
  have hok := h.sems i j hat
  unfold removeZero
  simp only
  rw [if_neg (not_not.mpr hok.zcnt)]
  cases htake : takeFirst (fun e => decide (e.who = p)) ((s.sem i j).zlist.getD []) with
  | none =>
    refine ⟨s, rfl, .refl h fun _ _ hf => absurd hf id, fun e he => ?_⟩
    exact of_decide_eq_false (takeFirst_none htake e he)
  | some r =>
    obtain ⟨e, l⟩ := r
    obtain ⟨pre, post, heq, rfl, htrue, -⟩ := takeFirst_some htake
    obtain rfl : e.who = p := of_decide_eq_true htrue
    have hentries : (s.sem i j).entries = pre ++ e :: (post ++ (s.sem i j).nlist.getD []) := by
      unfold Semaphore.entries
      rw [heq, append_assoc]
      rfl
    have hnodup := hok.nodup
    rw [hentries, map_append, map_cons, nodup_middle, nodup_cons,
      ← map_append, ← append_assoc] at hnodup
    have hsub : pre ++ post ⊆ (s.sem i j).zlist.getD [] := by
      rw [heq]
      exact (List.Sublist.append_left (sublist_cons_self e post) pre).subset
    have hx : SemOk { s.sem i j with zlist := some (pre ++ post), semzcnt := (s.sem i j).semzcnt - 1 } := by
      refine ⟨?_, hok.ncnt, fun e' he' => hok.zero e' (hsub he'), hok.incr, hnodup.2, hok.small⟩
      show (s.sem i j).semzcnt - 1 = (pre ++ post).length
      rw [hok.zcnt, heq]
      simp only [length_append, length_cons]
      omega
    have hpruned := Pruned.take h hat hentries (append_assoc _ _ _) hx rfl hsub
      (List.Subset.refl _)
    refine ⟨_, rfl, hpruned.congr fun _ _ hf => absurd hf id, fun e' he' => ?_⟩
    exact hpruned.gone i j ⟨rfl, rfl⟩ e' (mem_append_left _ he')

theorem removeIncr_spec (h : Inv s) (hat : At s i j) : ∃ s', removeIncr s p i j = some s' ∧
    Pruned p (fun _ _ => False) s s' ∧ ∀ e ∈ (s'.sem i j).nlist.getD [], e.who ≠ p := by
  have hok := h.sems i j hat
  unfold removeIncr
  simp only
  rw [if_neg (not_not.mpr hok.ncnt)]
  cases htake : takeFirst (fun e => decide (e.who = p)) ((s.sem i j).nlist.getD []) with
  | none =>
    refine ⟨s, rfl, .refl h fun _ _ hf => absurd hf id, fun e he => ?_⟩
    exact of_decide_eq_false (takeFirst_none htake e he)
  | some r =>
    obtain ⟨e, l⟩ := r
    obtain ⟨pre, post, heq, rfl, htrue, -⟩ := takeFirst_some htake
    obtain rfl : e.who = p := of_decide_eq_true htrue
    have hentries : (s.sem i j).entries = ((s.sem i j).zlist.getD [] ++ pre) ++ e :: post := by
      unfold Semaphore.entries
      rw [heq, append_assoc]
    have hnodup := hok.nodup
    rw [hentries, map_append, map_cons, nodup_middle, nodup_cons,
      ← map_append, append_assoc] at hnodup
    have hsub : pre ++ post ⊆ (s.sem i j).nlist.getD [] := by
      rw [heq]
      exact (List.Sublist.append_left (sublist_cons_self e post) pre).subset
    have hx : SemOk { s.sem i j with nlist := some (pre ++ post), semncnt := (s.sem i j).semncnt - 1 } := by
      refine ⟨hok.zcnt, ?_, hok.zero, fun e' he' => hok.incr e' (hsub he'), hnodup.2, hok.small⟩
      show (s.sem i j).semncnt - 1 = (pre ++ post).length
      rw [hok.ncnt, heq]
      simp only [length_append, length_cons]
      omega
    have hpruned := Pruned.take h hat hentries (append_assoc _ _ _).symm hx rfl
      (List.Subset.refl _) hsub
    refine ⟨_, rfl, hpruned.congr fun _ _ hf => absurd hf id, fun e' he' => ?_⟩
    exact hpruned.gone i j ⟨rfl, rfl⟩ e' (mem_append_right _ he')

theorem removeProcess_set (h : Inv s) (hi : i < s.semListNr) :
    ∃ s', forSems (fun s i j => (removeZero s p i j).bind fun s => removeIncr s p i j) s i =
      some s' ∧ Pruned p (fun i' j' => i' = i ∧ j' < (s.semList i).nsems) s s' := by
  unfold forSems
  apply foldlM_range (J := fun k => Pruned p (fun i' j' => i' = i ∧ j' < k) s)
  · intro k s₁ hk hJ
    have hat : At s₁ i k := hJ.same.at_iff.mpr ⟨hi, hk⟩
    obtain ⟨s₂, hrun, hzero, hz⟩ := removeZero_spec (p := p) hJ.inv hat
    obtain ⟨s3, hrun', hincr, hn⟩ := removeIncr_spec (p := p) hzero.inv
      (hzero.same.at_iff.mpr hat)
    refine ⟨s3, Option.bind_eq_some_iff.mpr ⟨s₂, hrun, hrun'⟩, ?_⟩
    have hall := hJ.trans (hzero.trans hincr)
    refine { hall with gone := fun i' j' hd e he => ?_ }
    by_cases hj : j' < k
    · exact hall.gone i' j' (.inl ⟨hd.1, hj⟩) e he
    · obtain ⟨rfl, rfl⟩ : i' = i ∧ j' = k := ⟨hd.1, by omega⟩
      obtain he | he := mem_append.mp he
      · exact hz e (hincr.zero i' j' he)
      · exact hn e he
  · exact .refl h fun i' j' hd => absurd hd.2 (Nat.not_lt_zero _)

theorem removeProcess_spec (h : Inv s) :
    ∃ s', removeProcess s p = some s' ∧ Pruned p (At s) s s' := by
  have hloop : ∃ s', removeProcess s p = some s' ∧
      Pruned p (fun i' j' => i' < s.semListNr ∧ At s i' j') s s' := by
    unfold removeProcess forSets
    apply foldlM_range (J := fun k => Pruned p (fun i' j' => i' < k ∧ At s i' j') s)
    · intro k s₁ hk hJ
      obtain ⟨s₂, hrun, hone⟩ := removeProcess_set (p := p) (i := k) hJ.inv
        (by rw [hJ.same.semListNr]; exact hk)
      refine ⟨s₂, hrun, (hJ.trans hone).congr fun i' j' hd => ?_⟩
      by_cases hi : i' = k
      · refine .inr ⟨hi, ?_⟩
        rw [hJ.same.nsems, ← hi]
        exact hd.2.2
      · exact .inl ⟨by omega, hd.2⟩
    · exact .refl h fun i' j' hd => absurd hd.1 (Nat.not_lt_zero _)
  obtain ⟨s', hrun, hpruned⟩ := hloop
  exact ⟨s', hrun, hpruned.congr fun i j hat => ⟨hat.1, hat⟩⟩

theorem Inv.note {ev : Event} (h : Inv s) : Inv (s.note ev) :=
  ⟨h.ids, h.fresh, h.sems, h.waits, h.blocked⟩

theorem Inv.answer {r : Err} (h : Inv s) : Inv (s.answer p r) := h.note

theorem doExit_spec (h : Inv s) :
    ∃ t, doExit s p = some (t.note (.exited p)) ∧ Pruned p (At s) s t ∧ t.call p = none := by
  obtain ⟨t, hrun, hpruned⟩ := removeProcess_spec (p := p) h
  have hfree : t.call p = none := by
    cases hcall : t.call p with
    | none => rfl
    | some c =>
      obtain ⟨i, j, hat, e, he, hw⟩ := hpruned.inv.blocked p c hcall
      exact absurd hw (hpruned.gone i j (hpruned.same.at_iff.mp hat) e he)
  refine ⟨t, ?_, hpruned, hfree⟩
  unfold doExit
  rw [hrun, Option.map_some, ← hfree, update_eq_self]
  rfl

/-! ## Removing a set -/

/-- The waiting processes at the semaphores in `D` of set `i` have been told. -/
structure Dismissed (i : Nat) (D : Nat → Prop) (s s' : State) : Prop where
  semList : s'.semList = s.semList
  semListNr : s'.semListNr = s.semListNr
  identifier : s'.identifier = s.identifier
  refused : Relation.ReflTransGen Refused s s'
  told : ∀ j, D j → ∀ e ∈ (s.sem i j).entries, s'.call e.who = none
  others : ∀ p, (∀ j, D j → ∀ e ∈ (s.sem i j).entries, e.who ≠ p) → s'.call p = s.call p

theorem foldl_send_spec (hnodup : (l.map (·.who)).Nodup)
    (hcall : ∀ e ∈ l, ∃ c, s.call e.who = some c) :
    (l.foldl (fun s e => s.send e.who .eidrm) s).semList = s.semList ∧
    (l.foldl (fun s e => s.send e.who .eidrm) s).semListNr = s.semListNr ∧
    (l.foldl (fun s e => s.send e.who .eidrm) s).identifier = s.identifier ∧
    Relation.ReflTransGen Refused s (l.foldl (fun s e => s.send e.who .eidrm) s) ∧
    (∀ e ∈ l, (l.foldl (fun s e => s.send e.who .eidrm) s).call e.who = none) ∧
    ∀ p, (∀ e ∈ l, e.who ≠ p) → (l.foldl (fun s e => s.send e.who .eidrm) s).call p = s.call p := by
  induction l generalizing s with
  | nil => exact ⟨rfl, rfl, rfl, .refl, fun e he => absurd he not_mem_nil, fun _ _ => rfl⟩
  | cons a l ih =>
    rw [map_cons, nodup_cons] at hnodup
    have hne : ∀ e ∈ l, e.who ≠ a.who := fun e he hw =>
      hnodup.1 (hw ▸ List.mem_map_of_mem he)
    obtain ⟨c, hc⟩ := hcall a mem_cons_self
    have hsend : ∀ q, q ≠ a.who → (s.send a.who .eidrm).call q = s.call q := by
      intro q hq
      rw [send_call, update_of_ne hq]
    obtain ⟨hlist, hnr, hid, hrefused, hnone, hothers⟩ := ih (s := s.send a.who .eidrm) hnodup.2
      fun e he => by
        rw [hsend e.who (hne e he)]
        exact hcall e (mem_cons_of_mem _ he)
    refine ⟨hlist.trans send_semList, hnr.trans send_semListNr, hid.trans send_identifier,
      hrefused.head (Refused.plain hc (by decide)), fun e he => ?_, fun q hq => ?_⟩
    · obtain rfl | he := mem_cons.mp he
      · refine (hothers e.who hne).trans ?_
        rw [send_call, update_self]
      · exact hnone e he
    · refine (hothers q fun e he => hq e (mem_cons_of_mem _ he)).trans ?_
      exact hsend q (hq a mem_cons_self).symm

theorem dismiss_spec (h : Inv s) (hi : i < s.semListNr) : ∃ s', forSems dismiss s i = some s' ∧
      Dismissed i (· < (s.semList i).nsems) s s' := by
  unfold forSems
  apply foldlM_range (J := fun k => Dismissed i (· < k) s)
  · intro k s₁ hk hJ
    have hat : At s i k := ⟨hi, hk⟩
    have hok := h.sems i k hat
    have hsem : s₁.sem i k = s.sem i k := by
      unfold State.sem
      rw [hJ.semList]
    -- nobody who waits here has been told before
    have hblocked : ∀ e ∈ (s.sem i k).entries, ∃ c, s₁.call e.who = some c := by
      intro e he
      obtain ⟨o, hc, -⟩ := h.waits i k hat e he
      refine ⟨_, (hJ.others e.who fun j hj e' he' hw => ?_).trans hc⟩
      have := (h.unique hat he ⟨hi, by omega⟩ he' hw).2
      omega
    obtain ⟨hlist, hnr, hid, hrefused, hnone, hothers⟩ := foldl_send_spec hok.nodup hblocked
    refine ⟨(s.sem i k).entries.foldl (fun s e => s.send e.who .eidrm) s₁, ?_,
      hlist.trans hJ.semList, hnr.trans hJ.semListNr, hid.trans hJ.identifier,
      hJ.refused.trans hrefused, fun j hj e he => ?_, fun q hq => ?_⟩
    · unfold dismiss
      simp only
      rw [hsem, if_neg, Semaphore.entries, foldl_append]
      rw [not_or]
      exact ⟨not_not.mpr hok.zcnt, not_not.mpr hok.ncnt⟩
    · by_cases hin : ∃ e' ∈ (s.sem i k).entries, e'.who = e.who
      · obtain ⟨e', he', hw⟩ := hin
        rw [← hw]
        exact hnone e' he'
      · rw [hothers e.who fun e' he' hw => hin ⟨e', he', hw⟩]
        refine hJ.told j (lt_of_le_of_ne (Nat.lt_succ_iff.mp hj) ?_) e he
        rintro rfl
        exact hin ⟨e, he, rfl⟩
    · rw [hothers q fun e he => hq k (Nat.lt_succ_self k) e he]
      exact hJ.others q fun j hj => hq j (Nat.lt_succ_of_lt hj)
  · exact ⟨rfl, rfl, rfl, .refl, fun j hj => absurd hj (Nat.not_lt_zero _), fun _ _ => rfl⟩

/-- Where the sets come from after one has been removed. -/
def source (s : State) (i a : Nat) : Nat := if a = i then s.semListNr - 1 else a

theorem source_lt (ha : a < s.semListNr - 1) : source s i a < s.semListNr := by
  unfold source
  split <;> omega

theorem source_ne (ha : a < s.semListNr - 1) : source s i a ≠ i := by
  unfold source
  split <;> omega

theorem source_inj (ha : a < s.semListNr - 1) (hb : b < s.semListNr - 1)
    (h : source s i a = source s i b) : a = b := by
  unfold source at h
  split_ifs at h <;> omega

theorem exists_source (hi : i < s.semListNr) (ha : a < s.semListNr) (hne : a ≠ i) :
    ∃ b, b < s.semListNr - 1 ∧ source s i b = a := by
  unfold source
  by_cases hlast : a = s.semListNr - 1
  · exact ⟨i, by omega, by rw [if_pos rfl, hlast]⟩
  · exact ⟨a, by omega, if_neg hne⟩

theorem removeSemaphore_semList (ha : a < s.semListNr - 1) :
    (removeSemaphore s i).semList a = s.semList (source s i a) := by
  unfold removeSemaphore source
  simp only
  by_cases hai : a = i
  · subst hai
    rw [if_pos (by omega), if_pos rfl, update_self]
  · rw [if_neg hai]
    split
    · rw [update_of_ne hai]
    · rfl

theorem removeSemaphore_at : At (removeSemaphore s i) a j ↔
    a < s.semListNr - 1 ∧ At s (source s i a) j := by
  constructor
  · rintro ⟨ha, hj⟩
    rw [removeSemaphore_semList ha] at hj
    exact ⟨ha, source_lt ha, hj⟩
  · rintro ⟨ha, -, hj⟩
    refine ⟨ha, ?_⟩
    rw [removeSemaphore_semList ha]
    exact hj

theorem removeSemaphore_sem (ha : a < s.semListNr - 1) :
    (removeSemaphore s i).sem a j = s.sem (source s i a) j := by
  unfold State.sem
  rw [removeSemaphore_semList ha]

theorem Dismissed.at_iff {D : Nat → Prop} {a : Nat} (h : Dismissed i D s s') :
    At s' a j ↔ At s a j := by
  unfold At
  rw [h.semListNr, h.semList]

theorem Dismissed.sem {D : Nat → Prop} {a : Nat} (h : Dismissed i D s s') :
    s'.sem a j = s.sem a j := by
  unfold State.sem
  rw [h.semList]

theorem Dismissed.inv (hd : Dismissed i (· < (s.semList i).nsems) s t) (h : Inv s)
    (hi : i < s.semListNr) : Inv (removeSemaphore t i) := by
  have hnr : t.semListNr = s.semListNr := hd.semListNr
  have hi' : i < t.semListNr := hnr ▸ hi
  -- a process that waits at another set has not been told
  have hkept : ∀ a j, At s a j → a ≠ i → ∀ e ∈ (s.sem a j).entries,
      t.call e.who = s.call e.who := by
    intro a j hat hne e he
    apply hd.others
    intro j' hj' e' he' hw
    exact hne (h.unique ⟨hi, hj'⟩ he' hat he hw.symm).1
  constructor
  · intro a b ha hb hid
    rw [removeSemaphore_semList ha, removeSemaphore_semList hb, hd.semList] at hid
    exact source_inj ha hb (h.ids _ _ (hnr ▸ source_lt ha) (hnr ▸ source_lt hb) hid)
  · intro a ha
    rw [removeSemaphore_semList ha, hd.semList]
    show _ < t.identifier
    rw [hd.identifier]
    exact h.fresh _ (hnr ▸ source_lt ha)
  · intro a j hat
    obtain ⟨ha, hat⟩ := removeSemaphore_at.mp hat
    rw [removeSemaphore_sem ha, hd.sem]
    exact h.sems _ j (hd.at_iff.mp hat)
  · intro a j hat e he
    obtain ⟨ha, hat⟩ := removeSemaphore_at.mp hat
    rw [removeSemaphore_sem ha, hd.sem] at he
    have hats := hd.at_iff.mp hat
    obtain ⟨o, hc, hn, ho⟩ := h.waits _ j hats e he
    refine ⟨o, ?_, hn, ho⟩
    rw [removeSemaphore_semList ha, hd.semList]
    exact (hkept _ j hats (source_ne ha) e he).trans hc
  intro q c hc
  have hcall : s.call q = some c := by
    rw [← hc]
    symm
    apply hd.others
    rintro j hj e he rfl
    have hnone := hd.told j hj e he
    rw [show (removeSemaphore t i).call = t.call from rfl, hnone] at hc
    cases hc
  obtain ⟨a, j, hat, e, he, hw⟩ := h.blocked q c hcall
  have hne : a ≠ i := by
    rintro rfl
    have hnone := hd.told j hat.2 e he
    rw [hw, show t.call q = some c from hc] at hnone
    cases hnone
  obtain ⟨b, hb, hsrc⟩ := exists_source hi' (hnr ▸ hat.1) hne
  refine ⟨b, j, removeSemaphore_at.mpr ⟨hb, ?_⟩, e, ?_, hw⟩
  · rw [hsrc]
    exact hd.at_iff.mpr hat
  · rw [removeSemaphore_sem hb, hsrc, hd.sem]
    exact he

/-! ## Creating a set -/

/-- The state after a set has been created. -/
def State.created (s : State) (key : Option Nat) (nsems : Nat) : State :=
  { s with
    semList := update s.semList s.semListNr
      ⟨key, s.identifier, nsems, fun _ => zeroSem⟩
    identifier := s.identifier + 1
    semListNr := s.semListNr + 1
    log := s.log ++ [Event.created s.identifier] }

variable {key : Option Nat} {nsems : Nat}

theorem created_at : At (s.created key nsems) a j ↔ At s a j ∨ (a = s.semListNr ∧ j < nsems) := by
  unfold At State.created
  simp only
  by_cases ha : a = s.semListNr
  · subst ha
    rw [update_self]
    simp
  · rw [update_of_ne ha]
    omega

theorem created_of_lt (ha : a < s.semListNr) : (s.created key nsems).semList a = s.semList a :=
  update_of_ne ha.ne _ _

theorem created_last :
    (s.created key nsems).semList s.semListNr = ⟨key, s.identifier, nsems, fun _ => zeroSem⟩ :=
  update_self _ _ _

theorem created_sem_of_lt (ha : a < s.semListNr) : (s.created key nsems).sem a j = s.sem a j := by
  unfold State.sem
  rw [created_of_lt ha]

theorem created_sem_last : (s.created key nsems).sem s.semListNr j = zeroSem := by
  unfold State.sem
  rw [created_last]

theorem semOk_zeroSem : SemOk zeroSem :=
  ⟨rfl, rfl, fun e he => absurd he not_mem_nil, fun e he => absurd he not_mem_nil,
    nodup_nil, by decide⟩

theorem Inv.created (h : Inv s) : Inv (s.created key nsems) := by
  constructor
  · intro a b ha hb hid
    obtain ha | rfl := Nat.lt_succ_iff_lt_or_eq.mp ha
    · obtain hb | rfl := Nat.lt_succ_iff_lt_or_eq.mp hb
      · rw [created_of_lt ha, created_of_lt hb] at hid
        exact h.ids a b ha hb hid
      · -- the new identifier is not in use
        rw [created_of_lt ha, created_last] at hid
        exact absurd hid (h.fresh a ha).ne
    · obtain hb | rfl := Nat.lt_succ_iff_lt_or_eq.mp hb
      · rw [created_last, created_of_lt hb] at hid
        exact absurd hid.symm (h.fresh b hb).ne
      · rfl
  · intro a ha
    show _ < s.identifier + 1
    obtain ha | rfl := Nat.lt_succ_iff_lt_or_eq.mp ha
    · rw [created_of_lt ha]
      exact Nat.lt_succ_of_lt (h.fresh a ha)
    · rw [created_last]
      exact Nat.lt_succ_self _
  · intro a j hat
    obtain hat | ⟨rfl, -⟩ := created_at.mp hat
    · rw [created_sem_of_lt hat.1]
      exact h.sems a j hat
    · rw [created_sem_last]
      exact semOk_zeroSem
  · intro a j hat e he
    obtain hat | ⟨rfl, -⟩ := created_at.mp hat
    · rw [created_sem_of_lt hat.1] at he
      apply (h.waits a j hat e he).congr
      · rw [created_of_lt hat.1]
      · rfl
    · rw [created_sem_last] at he
      exact absurd he not_mem_nil
  intro q c hc
  obtain ⟨a, j, hat, e, he, hw⟩ := h.blocked q c hc
  refine ⟨a, j, created_at.mpr (.inl hat), e, ?_, hw⟩
  rw [created_sem_of_lt hat.1]
  exact he

theorem doSemget_cases (m : SemGet) : (∃ r, doSemget s m = s.answer m.who r) ∨
    ∃ key nsems, doSemget s m = (s.created key nsems).answer m.who .ok := by
  unfold doSemget
  split
  · split_ifs
    · exact .inl ⟨_, rfl⟩
    · exact .inl ⟨_, rfl⟩
    · exact .inl ⟨_, rfl⟩
    · exact .inl ⟨_, rfl⟩
  split_ifs
  · exact .inl ⟨_, rfl⟩
  · exact .inl ⟨_, rfl⟩
  · exact .inl ⟨_, rfl⟩
  · exact .inr ⟨m.key, m.nsems.toNat, rfl⟩

/-! ## Setting values -/

inductive Valued (s : State) : State → Prop
  | mk {i j v : Nat} (hat : At s i j) (hv : v ≤ semVmx) :
      Valued s ((s.setSem i j { s.sem i j with semval := v }).note
        (.valued (s.semList i).id j v))

theorem Touched.note {ev : Event} (h : Touched s t) : Touched s (t.note ev) :=
  ⟨⟨h.same.semListNr, h.same.identifier, h.same.id, h.same.nsems⟩, h.call, h.sem⟩

theorem Inv.valued (h : Inv s) (hrun : Relation.ReflTransGen Valued s t) : Inv t := by
  induction hrun with
  | refl => exact h
  | tail _ hstep ih =>
    cases hstep with
    | @mk i j v hat hv =>
      apply ih.touched (Touched.note touched_setSem)
      intro i' j' hat'
      show State.vals (State.setSem _ i j _) i' j' < 65536
      rw [vals_setSem]
      have hsmall := (ih.sems i' j' hat').small
      unfold semVmx at hv
      by_cases hi : i' = i
      · subst hi
        rw [update_self]
        by_cases hj : j' = j
        · subst hj
          rw [update_self]
          omega
        · rw [update_of_ne hj]
          exact hsmall
      · rw [update_of_ne hi]
        exact hsmall

theorem setAll_spec (vs : List Nat) (hat : ∀ k < vs.length, At s i (j + k)) :
    Touched s (setAll s i j vs).1 ∧ Relation.ReflTransGen Valued s (setAll s i j vs).1 ∧
    (setAll s i j vs).1.vals = update s.vals i (fun j' =>
      if j ≤ j' then ((vs.takeWhile (· ≤ semVmx))[j' - j]?).getD (s.vals i j')
      else s.vals i j') ∧
    ((setAll s i j vs).2 = .ok ∨ (setAll s i j vs).2 = .erange ∧ ∃ v ∈ vs, v > semVmx) := by
  induction vs generalizing s j with
  | nil =>
    refine ⟨.refl s, .refl, ?_, .inl rfl⟩
    funext i' j'
    by_cases hi : i' = i
    · subst hi
      simp [setAll]
    · simp [setAll, hi]
  | cons v vs ih =>
    by_cases hv : v > semVmx
    · have hrun : setAll s i j (v :: vs) = (s, .erange) := by
        rw [setAll.eq_2, if_pos hv]
      rw [hrun]
      refine ⟨.refl s, .refl, ?_, .inr ⟨rfl, v, mem_cons_self, hv⟩⟩
      have htake : (v :: vs).takeWhile (fun v => decide (v ≤ semVmx)) = [] := by
        rw [takeWhile_cons, if_neg]
        simpa using hv
      rw [htake]
      funext i' j'
      by_cases hi : i' = i
      · subst hi
        simp
      · simp [hi]
    have hle : v ≤ semVmx := Nat.le_of_not_lt hv
    have hrun : setAll s i j (v :: vs) = setAll ((s.setSem i j
        { s.sem i j with semval := v }).note (.valued (s.semList i).id j v)) i (j + 1) vs := by
      rw [setAll.eq_2, if_neg hv]
      simp only [setSem_id]
    have htake : (v :: vs).takeWhile (fun v => decide (v ≤ semVmx)) =
        v :: vs.takeWhile (fun v => decide (v ≤ semVmx)) := by
      rw [takeWhile_cons, if_pos (decide_eq_true hle)]
    have hset : ((s.setSem i j { s.sem i j with semval := v }).note
        (.valued (s.semList i).id j v)).vals = update s.vals i (update (s.vals i) j v) :=
      vals_setSem (u := (s.sem i j).sempid)
    have hfirst : Touched s ((s.setSem i j { s.sem i j with semval := v }).note
        (.valued (s.semList i).id j v)) :=
      Touched.note (touched_setSem (s := s))
    rw [hrun, htake]
    obtain ⟨ht, hvalued, hvals, hres⟩ := ih (s := (s.setSem i j
        { s.sem i j with semval := v }).note (.valued (s.semList i).id j v)) (j := j + 1)
      fun k hk => hfirst.same.at_iff.mpr (by
        rw [Nat.add_assoc, Nat.add_comm 1 k]
        exact hat (k + 1) (Nat.succ_lt_succ hk))
    refine ⟨hfirst.trans ht, hvalued.head (.mk (hat 0 (Nat.succ_pos _)) hle), ?_, ?_⟩
    · rw [hvals, hset, update_self, update_idem]
      congr 1
      funext j'
      by_cases hj : j' = j
      · subst hj
        simp
      by_cases hlt : j ≤ j'
      · have hsub : j' - j = (j' - (j + 1)) + 1 := by omega
        rw [if_pos (by omega), if_pos hlt, hsub, List.getElem?_cons_succ, update_of_ne hj]
      · rw [if_neg (by omega), if_neg hlt, update_of_ne hj]
    · obtain hr | ⟨hr, v', hv', hbig⟩ := hres
      · exact .inl hr
      · exact .inr ⟨hr, v', mem_cons_of_mem _ hv', hbig⟩

theorem semFindId_some {id : Nat} (h : semFindId s id = some i) :
    i < s.semListNr ∧ (s.semList i).id = id := by
  unfold semFindId at h
  have hmem := mem_of_find?_eq_some h
  have hid := List.find?_some h
  exact ⟨mem_range.mp hmem, of_decide_eq_true hid⟩

/-- `SETALL` with values that are all in range, or of which the first is not. -/
def Uniform (s : State) (m : SemCtl) : Prop :=
  ∀ i buf, semFindId s m.id = some i → m.cmd = .setall (some buf) →
    (∀ v ∈ buf.take (s.semList i).nsems, v ≤ semVmx) ∨
    ∀ v, (buf.take (s.semList i).nsems).head? = some v → v > semVmx

/-- What `semctl` does before the processes are woken, if it wakes any. -/
inductive Controlled (s : State) (m : SemCtl) : Prop
  | answered (r : Err) (hgives : (Request.semctl m).gives s = none)
      (hrun : doSemctl s m = some (s.answer m.who r))
  | removed (i : Nat) (t : State) (hi : i < s.semListNr)
      (hd : Dismissed i (· < (s.semList i).nsems) s t)
      (hgives : (Request.semctl m).gives s = none)
      (hrun : doSemctl s m = some ((removeSemaphore t i).answer m.who .ok))
  | valued (t : State) (r : Err) (ht : Touched s t) (hvalued : Relation.ReflTransGen Valued s t)
      (hgives : (Request.semctl m).gives s = some t.vals)
      (hclean : Uniform s m → r ≠ .ok → t = s)
      (hrun : doSemctl s m = (updateSemaphores t).map (·.answer m.who r))

theorem doSemctl_cases (m : SemCtl) (h : Inv s) : Controlled s m := by
  cases hfind : semFindId s m.id with
  | none =>
    refine .answered .einval ?_ ?_
    · simp only [Request.gives, hfind]
    · unfold doSemctl
      rw [hfind]
  | some i =>
    obtain ⟨hi, hid⟩ := semFindId_some hfind
    cases hcmd : m.cmd with
    | rmid =>
      have hgives : (Request.semctl m).gives s = none := by
        simp only [Request.gives, hfind, hcmd]
      have hrun : doSemctl s m = if m.owner = false then some (s.answer m.who .eperm)
          else (forSems dismiss s i).map fun s => (removeSemaphore s i).answer m.who .ok := by
        unfold doSemctl
        simp only [hfind, hcmd]
      by_cases ho : m.owner = false
      · exact .answered .eperm hgives (hrun.trans (if_pos ho))
      · obtain ⟨t, hdis, hd⟩ := dismiss_spec h hi
        refine .removed i t hi hd hgives (hrun.trans ((if_neg ho).trans ?_))
        rw [hdis, Option.map_some]
    | setall buf =>
      have hrun : doSemctl s m = if m.mayRead = false then some (s.answer m.who .eacces)
          else buf.elim (some (s.answer m.who .einval)) fun buf =>
            (updateSemaphores (setAll s i 0 (buf.take (s.semList i).nsems)).1).map fun t =>
              t.answer m.who (setAll s i 0 (buf.take (s.semList i).nsems)).2 := by
        unfold doSemctl
        simp only [hfind, hcmd]
        cases buf <;> rfl
      cases buf with
      | none =>
        have hgives : (Request.semctl m).gives s = none := by
          simp only [Request.gives, hfind, hcmd]
        by_cases hr : m.mayRead = false
        · exact .answered .eacces hgives (hrun.trans (if_pos hr))
        · exact .answered .einval hgives (hrun.trans (if_neg hr))
      | some buf =>
        have hgives : (Request.semctl m).gives s = if m.mayRead = true then
            some (update s.vals i fun j =>
              (((buf.take (s.semList i).nsems).takeWhile (· ≤ semVmx))[j]?).getD (s.vals i j))
            else none := by
          simp only [Request.gives, hfind, hcmd]
        by_cases hr : m.mayRead = false
        · refine .answered .eacces (hgives.trans (if_neg ?_)) (hrun.trans (if_pos hr))
          rw [hr]
          exact Bool.false_ne_true
        obtain ⟨ht, hvalued, hvals, hres⟩ := setAll_spec (s := s) (i := i) (j := 0)
          (buf.take (s.semList i).nsems) fun k hk => by
            rw [length_take] at hk
            exact ⟨hi, by omega⟩
        refine .valued _ _ ht hvalued ?_ ?_ (hrun.trans (if_neg hr))
        · rw [hgives, if_pos (Bool.not_eq_false _ ▸ hr), hvals]
          simp
        intro huni hne
        obtain hok | ⟨hbad, v, hv, hbig⟩ := hres
        · exact absurd hok hne
        obtain hall | hfirst := huni i buf hfind hcmd
        · exact absurd (hall v hv) (Nat.not_le_of_lt hbig)
        -- the first value is out of range already
        cases hvs : buf.take (s.semList i).nsems with
        | nil => rfl
        | cons w ws =>
          rw [setAll.eq_2, if_pos (hfirst w (by rw [hvs]; rfl))]
    | setval num val =>
      have hrun : doSemctl s m =
          if m.mayRead = false ∨ m.mayAlter = false then some (s.answer m.who .eacces)
          else if num ≥ (s.semList i).nsems then some (s.answer m.who .einval)
          else if val < 0 ∨ val > semVmx then some (s.answer m.who .erange)
          else (updateSemaphores ((s.setSem i num { s.sem i num with semval := val.toNat }).note
            (.valued m.id num val.toNat))).map fun s => s.answer m.who .ok := by
        unfold doSemctl
        simp only [hfind, hcmd]
      have hgives : (Request.semctl m).gives s =
          if m.mayRead = true ∧ m.mayAlter = true ∧ num < (s.semList i).nsems ∧ 0 ≤ val ∧
            val ≤ semVmx then
            some (update s.vals i (update (s.vals i) num val.toNat))
          else none := by
        simp only [Request.gives, hfind, hcmd]
      by_cases hperm : m.mayRead = false ∨ m.mayAlter = false
      · refine .answered .eacces (hgives.trans (if_neg ?_)) (hrun.trans (if_pos hperm))
        rintro ⟨hr, ha, -⟩
        rw [hr, ha] at hperm
        simp at hperm
      rw [if_neg hperm] at hrun
      rw [not_or, Bool.not_eq_false, Bool.not_eq_false] at hperm
      by_cases hnum : num ≥ (s.semList i).nsems
      · refine .answered .einval (hgives.trans (if_neg ?_)) (hrun.trans (if_pos hnum))
        rintro ⟨-, -, hlt, -⟩
        omega
      rw [if_neg hnum] at hrun
      by_cases hval : val < 0 ∨ val > semVmx
      · refine .answered .erange (hgives.trans (if_neg ?_)) (hrun.trans (if_pos hval))
        rintro ⟨-, -, -, h0, hmax⟩
        omega
      rw [if_neg hval] at hrun
      have hmax : val.toNat ≤ semVmx := by omega
      refine .valued ((s.setSem i num { s.sem i num with semval := val.toNat }).note
        (.valued m.id num val.toNat)) .ok
        (Touched.note (touched_setSem (s := s))) ?_ ?_ ?_ hrun
      · rw [← hid]
        exact .single (.mk ⟨hi, by omega⟩ hmax)
      · rw [hgives, if_pos ⟨hperm.1, hperm.2, by omega, by omega, by omega⟩]
        exact congrArg some (vals_setSem (s := s)).symm
      · exact fun _ hne => absurd rfl hne
    | other =>
      refine .answered m.result ?_ ?_
      · simp only [Request.gives, hfind, hcmd]
      · unfold doSemctl
        simp only [hfind, hcmd]

end HardenedMinix.Sem
