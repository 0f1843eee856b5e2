import HardenedMinix.IpcServer.Sem

/-!
# The waiting lists of semaphores

Each entry is a process that is blocked in a call of one operation. One round of wake-ups leaves
nobody who could go on, provided that only one process could.
-/

open Function List

namespace HardenedMinix.Sem

open Lib

variable {s s' s₁ s₂ : State} {i j i' j' : Nat} {p q : Proc} {e : Waiting} {x : Semaphore}
  {pre post : List Waiting}

/-! ## The invariant -/

def Semaphore.entries (x : Semaphore) : List Waiting := x.zlist.getD [] ++ x.nlist.getD []

structure SemOk (x : Semaphore) : Prop where
  zcnt : x.semzcnt = (x.zlist.getD []).length
  ncnt : x.semncnt = (x.nlist.getD []).length
  zero : ∀ e ∈ x.zlist.getD [], e.val = 0
  incr : ∀ e ∈ x.nlist.getD [], 0 < e.val
  nodup : (x.entries.map (·.who)).Nodup
  small : x.semval < 65536

def At (s : State) (i j : Nat) : Prop := i < s.semListNr ∧ j < (s.semList i).nsems

/-- The process of the entry is blocked in a call whose one operation is for this semaphore. -/
def WaitsAt (s : State) (i j : Nat) (e : Waiting) : Prop :=
  ∃ o, s.call e.who = some ⟨(s.semList i).id, [o]⟩ ∧ o.num = j ∧ o.op = -e.val

structure Inv (s : State) : Prop where
  ids : ∀ i i', i < s.semListNr → i' < s.semListNr → (s.semList i).id = (s.semList i').id → i = i'
  fresh : ∀ i < s.semListNr, (s.semList i).id < s.identifier
  sems : ∀ i j, At s i j → SemOk (s.sem i j)
  waits : ∀ i j, At s i j → ∀ e ∈ (s.sem i j).entries, WaitsAt s i j e
  blocked : ∀ p c, s.call p = some c →
    ∃ i j, At s i j ∧ ∃ e ∈ (s.sem i j).entries, e.who = p

/-! ## Fields -/

@[simp] theorem setSem_call : (s.setSem i j x).call = s.call := rfl

@[simp] theorem setSem_id : ((s.setSem i j x).semList i').id = (s.semList i').id := by
  by_cases h : i' = i
  · subst h
    simp [State.setSem]
  · simp [State.setSem, h]

@[simp] theorem setSem_nsems : ((s.setSem i j x).semList i').nsems = (s.semList i').nsems := by
  by_cases h : i' = i
  · subst h
    simp [State.setSem]
  · simp [State.setSem, h]

theorem setSem_sem_self : (s.setSem i j x).sem i j = x := by
  simp [State.setSem, State.sem]

theorem setSem_sem_of_ne (h : ¬ (i' = i ∧ j' = j)) : (s.setSem i j x).sem i' j' = s.sem i' j' := by
  unfold State.setSem State.sem
  by_cases hi : i' = i
  · subst hi
    have hj : j' ≠ j := fun hj => h ⟨rfl, hj⟩
    simp [hj]
  · simp [hi]

variable {r : Err}

@[simp] theorem send_semList : (s.send p r).semList = s.semList := by
  unfold State.send
  split <;> rfl

@[simp] theorem send_semListNr : (s.send p r).semListNr = s.semListNr := by
  unfold State.send
  split <;> rfl

@[simp] theorem send_identifier : (s.send p r).identifier = s.identifier := by
  unfold State.send
  split <;> rfl

@[simp] theorem send_sem : (s.send p r).sem i j = s.sem i j := by
  unfold State.sem
  rw [send_semList]

theorem send_call : (s.send p r).call = update s.call p none := by
  unfold State.send
  split
  next h =>
    show s.call = _
    rw [← h, update_eq_self]
  next => rfl

/-- The sets are the same; what their semaphores hold is left open. -/
structure SameSets (s s' : State) : Prop where
  semListNr : s'.semListNr = s.semListNr
  identifier : s'.identifier = s.identifier
  id : ∀ i, (s'.semList i).id = (s.semList i).id
  nsems : ∀ i, (s'.semList i).nsems = (s.semList i).nsems

theorem SameSets.refl (s : State) : SameSets s s := ⟨rfl, rfl, fun _ => rfl, fun _ => rfl⟩

theorem SameSets.trans (h : SameSets s s₁) (h' : SameSets s₁ s₂) : SameSets s s₂ where
  semListNr := h'.semListNr.trans h.semListNr
  identifier := h'.identifier.trans h.identifier
  id i := (h'.id i).trans (h.id i)
  nsems i := (h'.nsems i).trans (h.nsems i)

theorem SameSets.at_iff (h : SameSets s s') : At s' i j ↔ At s i j := by
  unfold At
  rw [h.semListNr, h.nsems]

theorem sameSets_setSem : SameSets s (s.setSem i j x) :=
  ⟨rfl, rfl, fun _ => setSem_id, fun _ => setSem_nsems⟩

theorem sameSets_send : SameSets s (s.send p r) :=
  ⟨send_semListNr, send_identifier, fun i => by rw [send_semList], fun i => by rw [send_semList]⟩

theorem WaitsAt.congr (hid : (s'.semList i).id = (s.semList i).id)
    (hcall : s'.call e.who = s.call e.who) (h : WaitsAt s i j e) : WaitsAt s' i j e := by
  obtain ⟨o, hc, hn, ho⟩ := h
  exact ⟨o, by rw [hcall, hid, hc], hn, ho⟩

theorem Inv.change (h : Inv s) (hsame : SameSets s s')
    (hsems : ∀ i j, At s i j → SemOk (s'.sem i j))
    (hwaits : ∀ i j, At s i j → ∀ e ∈ (s'.sem i j).entries, WaitsAt s' i j e)
    (hblocked : ∀ p c, s'.call p = some c →
      ∃ i j, At s i j ∧ ∃ e ∈ (s'.sem i j).entries, e.who = p) : Inv s' where
  ids i i' hi hi' hid := by
    rw [hsame.semListNr] at hi hi'
    rw [hsame.id, hsame.id] at hid
    exact h.ids i i' hi hi' hid
  fresh i hi := by
    rw [hsame.semListNr] at hi
    rw [hsame.id, hsame.identifier]
    exact h.fresh i hi
  sems i j hat := hsems i j (hsame.at_iff.mp hat)
  waits i j hat := hwaits i j (hsame.at_iff.mp hat)
  blocked p c hc := by
    obtain ⟨i, j, hat, e, he, hw⟩ := hblocked p c hc
    exact ⟨i, j, hsame.at_iff.mpr hat, e, he, hw⟩

/-! ## One entry -/

theorem Inv.unique (h : Inv s) {e' : Waiting} (hat : At s i j) (he : e ∈ (s.sem i j).entries)
    (hat' : At s i' j') (he' : e' ∈ (s.sem i' j').entries) (hw : e'.who = e.who) :
    i' = i ∧ j' = j := by
  obtain ⟨o, hc, hn, -⟩ := h.waits i j hat e he
  obtain ⟨o', hc', hn', -⟩ := h.waits i' j' hat' e' he'
  rw [hw, hc, Option.some.injEq, Call.mk.injEq, List.cons.injEq] at hc'
  obtain ⟨hid, ho, -⟩ := hc'
  exact ⟨h.ids i' i hat'.1 hat.1 hid.symm, by rw [← hn', ← ho, hn]⟩

theorem Inv.take (h : Inv s) (hat : At s i j)
    (he : (s.sem i j).entries = pre ++ e :: post) (hx : x.entries = pre ++ post)
    (hok : SemOk x) : Inv ((s.setSem i j x).send e.who r) := by
  have hmem : e ∈ (s.sem i j).entries := by
    rw [he]
    exact mem_append_right _ mem_cons_self
  have hnodup := (h.sems i j hat).nodup
  rw [he, map_append, map_cons, nodup_middle, nodup_cons, ← map_append] at hnodup
  have hself : ((s.setSem i j x).send e.who r).sem i j = x := send_sem.trans setSem_sem_self
  have hother : ∀ {i' j'}, ¬ (i' = i ∧ j' = j) →
      ((s.setSem i j x).send e.who r).sem i' j' = s.sem i' j' := fun hne =>
    send_sem.trans (setSem_sem_of_ne hne)
  -- the entries that are left are those of other processes
  have hleft : ∀ i' j', At s i' j' → ∀ e' ∈ (((s.setSem i j x).send e.who r).sem i' j').entries,
      e' ∈ (s.sem i' j').entries ∧ e'.who ≠ e.who := by
    intro i' j' hat' e' he'
    by_cases hij : i' = i ∧ j' = j
    · obtain ⟨rfl, rfl⟩ := hij
      rw [hself, hx] at he'
      refine ⟨?_, fun hw => hnodup.1 (hw ▸ List.mem_map_of_mem he')⟩
      rw [he]
      obtain hm | hm := mem_append.mp he'
      · exact mem_append_left _ hm
      · exact mem_append_right _ (mem_cons_of_mem _ hm)
    · rw [hother hij] at he'
      exact ⟨he', fun hw => hij (h.unique hat hmem hat' he' hw)⟩
  apply h.change (sameSets_setSem.trans sameSets_send)
  · intro i' j' hat'
    by_cases hij : i' = i ∧ j' = j
    · obtain ⟨rfl, rfl⟩ := hij
      rw [hself]
      exact hok
    · rw [hother hij]
      exact h.sems i' j' hat'
  · intro i' j' hat' e' he'
    obtain ⟨hold, hne⟩ := hleft i' j' hat' e' he'
    apply (h.waits i' j' hat' e' hold).congr
    · exact (sameSets_setSem.trans sameSets_send).id i'
    · rw [send_call, update_of_ne hne, setSem_call]
  intro q c hc
  rw [send_call] at hc
  have hq : q ≠ e.who := by
    rintro rfl
    rw [update_self] at hc
    cases hc
  rw [update_of_ne hq] at hc
  obtain ⟨i', j', hat', e', he', hw⟩ := h.blocked q c hc
  refine ⟨i', j', hat', e', ?_, hw⟩
  by_cases hij : i' = i ∧ j' = j
  · obtain ⟨rfl, rfl⟩ := hij
    rw [hself, hx]
    rw [he] at he'
    obtain hm | hm := mem_append.mp he'
    · exact mem_append_left _ hm
    · obtain rfl | hm := mem_cons.mp hm
      · exact absurd hw.symm hq
      · exact mem_append_right _ hm
  · rw [hother hij]
    exact he'

/-- Only the values and the processes of the last operations are other ones. -/
structure Touched (s s' : State) : Prop where
  same : SameSets s s'
  call : s'.call = s.call
  sem : ∀ i j, s'.sem i j =
    { s.sem i j with semval := (s'.sem i j).semval, sempid := (s'.sem i j).sempid }

theorem Touched.refl (s : State) : Touched s s := ⟨.refl s, rfl, fun _ _ => rfl⟩

theorem Touched.trans (h : Touched s s₁) (h' : Touched s₁ s₂) : Touched s s₂ where
  same := h.same.trans h'.same
  call := h'.call.trans h.call
  sem i j := by
    rw [h'.sem i j, h.sem i j]

theorem touched_setSem {v : Nat} {pid : Option Proc} :
    Touched s (s.setSem i j { s.sem i j with semval := v, sempid := pid }) where
  same := sameSets_setSem
  call := rfl
  sem i' j' := by
    by_cases hij : i' = i ∧ j' = j
    · obtain ⟨rfl, rfl⟩ := hij
      rw [setSem_sem_self]
    · rw [setSem_sem_of_ne hij]

theorem Touched.entries (h : Touched s s') : (s'.sem i j).entries = (s.sem i j).entries := by
  rw [h.sem i j]
  rfl

theorem Inv.touched (h : Inv s) (ht : Touched s s')
    (hv : ∀ i j, At s i j → (s'.sem i j).semval < 65536) : Inv s' := by
  apply h.change ht.same
  · intro i j hat
    have hok := h.sems i j hat
    have hsmall := hv i j hat
    rw [ht.sem i j]
    exact ⟨hok.zcnt, hok.ncnt, hok.zero, hok.incr, hok.nodup, hsmall⟩
  · intro i j hat e he
    rw [ht.entries] at he
    exact (h.waits i j hat e he).congr (ht.same.id i) (congrFun ht.call _)
  · intro q c hc
    rw [ht.call] at hc
    obtain ⟨i, j, hat, e, he, hw⟩ := h.blocked q c hc
    exact ⟨i, j, hat, e, by rw [ht.entries]; exact he, hw⟩

end HardenedMinix.Sem
