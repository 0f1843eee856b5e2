import HardenedMinix.IpcServer.SemWake

/-!
# The requests to the semaphores

What each request does before the processes are woken.
-/

open Function List Option

namespace HardenedMinix.Sem

open Lib State Semaphore Request

variable {s s' s₁ s₂ t : State} {i j i' j' n : Nat} {p q : Proc} {e : Waiting} {x : Semaphore}
  {c : Call} {o : SemBuf} {ops : List SemBuf} {m : SemOp} {w : Bool}

/-! ## The values a request gives -/

def State.vals (s : State) (i j : Nat) : Nat := (s.sem i j).semval

def opsGive (f : Nat → Nat) (ops : List SemBuf) : Nat → Nat :=
  ops.foldl (fun f o => update f o.num (ushort (f o.num + o.op))) f

/-- All operations of a call could be done now. -/
def AllProceed (f : Nat → Nat) (ops : List SemBuf) : Prop := ∀ o ∈ ops, CanProceed (f o.num) o

instance (f : Nat → Nat) (ops : List SemBuf) : Decidable (AllProceed f ops) :=
  inferInstanceAs (Decidable (∀ o ∈ ops, _))

/-- The values that `update_semaphores` finds, for the requests that call it. -/
def Request.gives (s : State) : Request → Option (Nat → Nat → Nat)
  | .semop m =>
    match checkOps s m with
    | .error _ => some s.vals
    | .ok (i, ops) =>
      if (m.mayAlter = true ∨ ∀ o ∈ ops, o.op = 0) ∧ AllProceed (s.vals i) ops then
        some (update s.vals i (opsGive (s.vals i) ops))
      else some s.vals
  | .semctl m =>
    match semFindId s m.id, m.cmd with
    | some i, .setall (some buf) =>
      if m.mayRead = true then
        let vs := (buf.take (s.semList i).nsems).takeWhile (· ≤ semVmx)
        some (update s.vals i fun j => (vs[j]?).getD (s.vals i j))
      else none
    | some i, .setval num val =>
      if m.mayRead = true ∧ m.mayAlter = true ∧ num < (s.semList i).nsems ∧ 0 ≤ val ∧
          val ≤ semVmx then
        some (update s.vals i (update (s.vals i) num val.toNat))
      else none
    | _, _ => none
  | _ => none

theorem opsGive_cons (f : Nat → Nat) :
    opsGive f (o :: ops) = opsGive (update f o.num (ushort (f o.num + o.op))) ops := rfl

theorem vals_setSem {v : Nat} {u : Option Proc} :
    (s.setSem i j { s.sem i j with semval := v, sempid := u }).vals =
      update s.vals i (update (s.vals i) j v) := by
  funext i' j'
  by_cases hi : i' = i
  · subst hi
    by_cases hj : j' = j
    · subst hj
      simp [vals, setSem_sem_self]
    · simp [vals, setSem_sem_of_ne (x := { s.sem i' j with semval := v, sempid := u })
        (fun h : i' = i' ∧ j' = j => hj h.2), hj]
  · simp [vals, setSem_sem_of_ne (x := { s.sem i j with semval := v, sempid := u })
        (fun h : i' = i ∧ j' = j => hi h.1), hi]

/-! ## The operations of a call -/

theorem applyOps_proceeds (hnodup : (ops.map (·.num)).Nodup) (h : AllProceed (s.vals i) ops) :
    ∃ t r, applyOps p i w ops s n = (t, n, r) ∧ Touched s t ∧ t.log = s.log ∧
      ((r = .ok ∧ (w = true ∨ ∀ o ∈ ops, o.op = 0) ∧
        t.vals = update s.vals i (opsGive (s.vals i) ops)) ∨
      (r = .eacces ∧ ¬ (w = true ∨ ∀ o ∈ ops, o.op = 0) ∧ t.vals = s.vals)) := by
  induction ops generalizing s with
  | nil =>
    refine ⟨s, .ok, rfl, .refl s, rfl, .inl ⟨rfl, .inr fun o ho => ?_, ?_⟩⟩
    · exact absurd ho not_mem_nil
    · exact (update_eq_self i s.vals).symm
  | cons o ops ih =>
    rw [map_cons, nodup_cons] at hnodup
    have hcan : CanProceed (s.sem i o.num).semval o := h o mem_cons_self
    -- what the rest of the loop does once this operation has set its value
    have hnext : ∀ v, ∃ t r, applyOps p i w ops (s.setSem i o.num
        { s.sem i o.num with semval := v, sempid := some p }) n = (t, n, r) ∧ Touched s t ∧
        t.log = s.log ∧
        ((r = .ok ∧ (w = true ∨ ∀ o ∈ ops, o.op = 0) ∧ t.vals = update s.vals i
          (opsGive (update (s.vals i) o.num v) ops)) ∨
        (r = .eacces ∧ ¬ (w = true ∨ ∀ o ∈ ops, o.op = 0) ∧ t.vals = update s.vals i
          (update (s.vals i) o.num v))) := by
      intro v
      have hall : AllProceed ((s.setSem i o.num
          { s.sem i o.num with semval := v, sempid := some p }).vals i) ops := by
        intro o' ho'
        rw [vals_setSem, update_self, update_of_ne]
        · exact h o' (mem_cons_of_mem _ ho')
        · exact fun heq => hnodup.1 (heq ▸ List.mem_map_of_mem ho')
      obtain ⟨t, r, hrun, ht, hlog, hcase⟩ := ih hnodup.2 hall
      rw [vals_setSem, update_self, update_idem] at hcase
      exact ⟨t, r, hrun, touched_setSem.trans ht, hlog, hcase⟩
    -- a call that is not permitted changes no value
    have hdenied : w = false → o.op ≠ 0 → ∃ t r, (s.setSem i o.num
        { s.sem i o.num with sempid := some p }, n, Err.eacces) = (t, n, r) ∧ Touched s t ∧
        t.log = s.log ∧
        ((r = .ok ∧ (w = true ∨ ∀ o' ∈ o :: ops, o'.op = 0) ∧
          t.vals = update s.vals i (opsGive (s.vals i) (o :: ops))) ∨
        (r = .eacces ∧ ¬ (w = true ∨ ∀ o' ∈ o :: ops, o'.op = 0) ∧ t.vals = s.vals)) := by
      intro hma hop
      refine ⟨_, _, rfl, touched_setSem, rfl, .inr ⟨rfl, ?_, ?_⟩⟩
      · rintro (hm | hz)
        · rw [hma] at hm
          cases hm
        · exact hop (hz o mem_cons_self)
      have hv := vals_setSem (s := s) (i := i) (j := o.num) (v := (s.sem i o.num).semval)
        (u := some p)
      rw [hv]
      show update s.vals i (update (s.vals i) o.num (s.vals i o.num)) = _
      rw [update_eq_self, update_eq_self]
    -- a call that is permitted goes on with the rest
    have hdone : w = true → ∃ t r, applyOps p i w ops (s.setSem i o.num { s.sem i o.num with
        semval := ushort ((s.sem i o.num).semval + o.op), sempid := some p }) n = (t, n, r) ∧
        Touched s t ∧ t.log = s.log ∧
        ((r = .ok ∧ (w = true ∨ ∀ o' ∈ o :: ops, o'.op = 0) ∧
          t.vals = update s.vals i (opsGive (s.vals i) (o :: ops))) ∨
        (r = .eacces ∧ ¬ (w = true ∨ ∀ o' ∈ o :: ops, o'.op = 0) ∧ t.vals = s.vals)) := by
      intro hma
      obtain ⟨t, r, hrun, ht, hlog, hcase⟩ := hnext (ushort ((s.sem i o.num).semval + o.op))
      obtain ⟨hr, -, hvals⟩ | ⟨-, hno, -⟩ := hcase
      · exact ⟨t, r, hrun, ht, hlog, .inl ⟨hr, .inl hma, hvals⟩⟩
      · exact absurd (.inl hma) hno
    rw [applyOps.eq_2]
    simp only
    by_cases hpos : o.op > 0
    · rw [if_pos hpos]
      by_cases hma : w = false
      · rw [if_pos hma]
        exact hdenied hma (by omega)
      · rw [if_neg hma]
        exact hdone (Bool.not_eq_false _ ▸ hma)
    rw [if_neg hpos]
    by_cases hz : o.op = 0
    · have hv := hcan.1 hz
      rw [if_pos hz, if_neg (not_not.mpr hv)]
      obtain ⟨t, r, hrun, ht, hlog, hcase⟩ := hnext (s.sem i o.num).semval
      have hsame : update (s.vals i) o.num (s.sem i o.num).semval = s.vals i :=
        update_eq_self o.num (s.vals i)
      have hgive : opsGive (s.vals i) (o :: ops) = opsGive (s.vals i) ops := by
        rw [opsGive_cons, hz]
        have hu : ushort ((s.vals i o.num : Int) + 0) = s.vals i o.num := by
          show ushort (((s.sem i o.num).semval : Int) + 0) = (s.sem i o.num).semval
          rw [hv]
          rfl
        rw [hu, update_eq_self]
      have hzeros : (w = true ∨ ∀ o' ∈ o :: ops, o'.op = 0) ↔
          (w = true ∨ ∀ o' ∈ ops, o'.op = 0) := by
        rw [forall_mem_cons]
        exact or_congr_right ⟨fun h => h.2, fun h => ⟨hz, h⟩⟩
      rw [hsame, update_eq_self] at hcase
      refine ⟨t, r, hrun, ht, hlog, ?_⟩
      rw [hgive, hzeros]
      exact hcase
    rw [if_neg hz]
    by_cases hma : w = false
    · rw [if_pos hma]
      exact hdenied hma hz
    · rw [if_neg hma, if_pos (hcan.2 (by omega))]
      exact hdone (Bool.not_eq_false _ ▸ hma)

/-- What becomes of a semaphore when a process is put on one of its lists. -/
def Semaphore.sleep (x : Semaphore) (p : Proc) (o : SemBuf) : Semaphore :=
  if o.op = 0 then
    { x with
      sempid := some p, semzcnt := ushort (x.semzcnt + 1)
      zlist := some (x.zlist.getD [] ++ [⟨p, 0⟩]) }
  else
    { x with
      sempid := some p, semncnt := ushort (x.semncnt + 1)
      nlist := some (x.nlist.getD [] ++ [⟨p, -o.op⟩]) }

theorem applyOps_waits (h : ¬ CanProceed (s.vals i o.num) o) (hgrows : o.grows = true) :
    (applyOps p i w [o] s 0 = (s.setSem i o.num ((s.sem i o.num).sleep p o), 1, .ok) ∧
      (w = true ∨ o.op = 0)) ∨
    (applyOps p i w [o] s 0 = (s.setSem i o.num { s.sem i o.num with sempid := some p }, 0,
      .eacces) ∧ ¬ (w = true ∨ o.op = 0)) := by
  have hnp : ¬ o.op > 0 := by
    intro hpos
    exact h ⟨fun hz => by omega, fun hneg => by omega⟩
  rw [applyOps.eq_2]
  simp only
  rw [if_neg hnp]
  unfold sleep
  by_cases hz : o.op = 0
  · have hv : (s.sem i o.num).semval ≠ 0 := fun hv => h ⟨fun _ => hv, fun hneg => by omega⟩
    rw [if_pos hz, if_pos hv, if_pos hgrows, if_pos hz]
    exact .inl ⟨rfl, .inr hz⟩
  rw [if_neg hz, if_neg hz]
  by_cases hma : w = false
  · rw [if_pos hma]
    refine .inr ⟨rfl, ?_⟩
    rintro (hm | hz')
    · rw [hma] at hm
      cases hm
    · exact hz hz'
  have hlt : ¬ ((s.sem i o.num).semval : Int) ≥ -o.op := by
    intro hge
    exact h ⟨fun h0 => absurd h0 hz, fun _ => hge⟩
  rw [if_neg hma, if_neg hlt, if_pos hgrows]
  exact .inl ⟨rfl, .inl (Bool.not_eq_false _ ▸ hma)⟩

/-! ## A call -/

def State.called (s : State) (p : Proc) (c : Call) : State :=
  { s with call := update s.call p (some c), log := s.log ++ [Event.called p c] }

theorem Inv.sleeps (h : Inv s) (hfree : s.call p = none) (hat : At s i o.num)
    (hop : ¬ CanProceed (s.vals i o.num) o) :
    Inv ((s.called p ⟨(s.semList i).id, [o]⟩).setSem i o.num ((s.sem i o.num).sleep p o)) := by
  have hok := h.sems i o.num hat
  have hmem : ∀ e, e ∈ ((s.sem i o.num).sleep p o).entries ↔
      e ∈ (s.sem i o.num).entries ∨ e = ⟨p, -o.op⟩ := by
    intro e
    unfold sleep entries
    split
    next hz =>
      rw [hz]
      simp only [getD_some, mem_append, mem_singleton, neg_zero]
      tauto
    next =>
      simp only [getD_some, mem_append, mem_singleton]
      tauto
  -- the process has no entry yet
  have hnot : ∀ i j, At s i j → ∀ e ∈ (s.sem i j).entries, e.who ≠ p := by
    rintro i j hat e he rfl
    obtain ⟨o', hc, -⟩ := h.waits i j hat e he
    rw [hfree] at hc
    cases hc
  have hsleep : SemOk ((s.sem i o.num).sleep p o) := by
    have hlen : (s.sem i o.num).entries.length ≤ nrProcs := by
      have hcard := hok.nodup.length_le_card
      rw [length_map, Fintype.card_fin] at hcard
      exact hcard
    have hfit : ∀ k, k ≤ nrProcs → ushort ((k : Int) + 1) = k + 1 := by
      intro k hk
      unfold nrProcs at hk
      unfold ushort
      omega
    have hadd : ∀ l l' : List Waiting, (s.sem i o.num).entries = l ++ l' →
        ((l ++ ⟨p, -o.op⟩ :: l').map (·.who)).Nodup := by
      intro l l' heq
      rw [map_append, map_cons, nodup_middle, nodup_cons, ← map_append, ← heq]
      refine ⟨fun hin => ?_, hok.nodup⟩
      obtain ⟨e, he, hw⟩ := List.mem_map.mp hin
      exact hnot i o.num hat e he hw
    have hz := hok.zcnt
    have hn := hok.ncnt
    have happ : (s.sem i o.num).entries.length =
        ((s.sem i o.num).zlist.getD []).length + ((s.sem i o.num).nlist.getD []).length :=
      length_append
    unfold sleep
    split
    next h0 =>
      refine ⟨?_, hn, fun e he => ?_, hok.incr, ?_, hok.small⟩
      · show ushort ((s.sem i o.num).semzcnt + 1) = _
        rw [getD_some, length_append, length_singleton, hfit _ (by omega), hz]
      · obtain he | he := mem_append.mp he
        · exact hok.zero e he
        · rw [mem_singleton.mp he]
      have := hadd ((s.sem i o.num).zlist.getD []) ((s.sem i o.num).nlist.getD []) rfl
      rw [h0, neg_zero] at this
      unfold entries
      rw [getD_some, append_assoc]
      exact this
    rename_i h0
    have hneg : o.op < 0 := by
      by_contra hge
      exact hop ⟨fun hz => absurd hz h0, fun hlt => absurd hlt hge⟩
    refine ⟨hz, ?_, hok.zero, fun e he => ?_, ?_, hok.small⟩
    · show ushort ((s.sem i o.num).semncnt + 1) = _
      rw [getD_some, length_append, length_singleton, hfit _ (by omega), hn]
    · obtain he | he := mem_append.mp he
      · exact hok.incr e he
      · rw [mem_singleton.mp he]
        show 0 < -o.op
        omega
    · have := hadd (s.sem i o.num).entries [] (append_nil _).symm
      unfold entries at this ⊢
      rw [getD_some, ← append_assoc]
      exact this
  have hother : ∀ i' j', ¬ (i' = i ∧ j' = o.num) → ((s.called p ⟨(s.semList i).id, [o]⟩).setSem i
      o.num ((s.sem i o.num).sleep p o)).sem i' j' = s.sem i' j' := fun i' j' hij =>
    setSem_sem_of_ne hij
  have hsame : SameSets s ((s.called p ⟨(s.semList i).id, [o]⟩).setSem i o.num
      ((s.sem i o.num).sleep p o)) := ⟨rfl, rfl, fun _ => setSem_id, fun _ => setSem_nsems⟩
  apply h.change hsame
  · intro i' j' hat'
    by_cases hij : i' = i ∧ j' = o.num
    · obtain ⟨rfl, rfl⟩ := hij
      rw [setSem_sem_self]
      exact hsleep
    · rw [hother i' j' hij]
      exact h.sems i' j' hat'
  · intro i' j' hat' e he
    have hold : e ∈ (s.sem i' j').entries ∨ (i' = i ∧ j' = o.num ∧ e = ⟨p, -o.op⟩) := by
      by_cases hij : i' = i ∧ j' = o.num
      · obtain ⟨rfl, rfl⟩ := hij
        rw [setSem_sem_self, hmem] at he
        exact he.imp_right fun h => ⟨rfl, rfl, h⟩
      · rw [hother i' j' hij] at he
        exact .inl he
    obtain hold | ⟨rfl, rfl, rfl⟩ := hold
    · apply (h.waits i' j' hat' e hold).congr (hsame.id i')
      exact update_of_ne (hnot i' j' hat' e hold) _ _
    · refine ⟨o, ?_, rfl, by simp⟩
      rw [setSem_id]
      exact update_self _ _ _
  intro q c hc
  rw [setSem_call] at hc
  by_cases hq : q = p
  · subst hq
    refine ⟨i, o.num, hat, ⟨q, -o.op⟩, ?_, rfl⟩
    rw [setSem_sem_self, hmem]
    exact .inr rfl
  obtain ⟨i', j', hat', e, he, hw⟩ := h.blocked q c ((update_of_ne hq _ _).symm.trans hc)
  refine ⟨i', j', hat', e, ?_, hw⟩
  by_cases hij : i' = i ∧ j' = o.num
  · obtain ⟨rfl, rfl⟩ := hij
    rw [setSem_sem_self, hmem]
    exact .inl he
  · rw [hother i' j' hij]
    exact he

theorem checkOps_ok (h : checkOps s m = .ok (i, ops)) : i < s.semListNr ∧
    (s.semList i).id = m.id ∧ m.sops = some ops ∧ (∀ o ∈ ops, o.num < (s.semList i).nsems) ∧
    (ops.map (·.num)).Nodup := by
  unfold checkOps at h
  split at h
  next => cases h
  rename_i i0 hfind
  unfold semFindId at hfind
  have hmem := mem_of_find?_eq_some hfind
  have hid : (s.semList i0).id = m.id := by
    have := List.find?_some hfind
    exact of_decide_eq_true this
  split_ifs at h
  split at h
  next => cases h
  rename_i sops hsops
  split_ifs at h with hbig hnodup hagain
  obtain ⟨rfl, rfl⟩ := Prod.mk.inj (Except.ok.inj h)
  refine ⟨mem_range.mp hmem, hid, hsops, fun o ho => ?_, hnodup⟩
  exact Nat.lt_of_not_le fun hle => hbig ⟨o, ho, hle⟩

theorem send_called {r : Err} (ht : Touched (s.called p c) t) (hlog : t.log = (s.called p c).log)
    (hfree : s.call p = none) : Touched s (t.send p r) ∧
      (t.send p r).log = s.log ++ [Event.called p c,
        if r = .ok then Event.took p c else Event.refused p c r] := by
  have hcall : t.call p = some c := by
    rw [ht.call]
    exact update_self _ _ _
  refine ⟨⟨⟨?_, ?_, fun i => ?_, fun i => ?_⟩, ?_, fun i j => ?_⟩, ?_⟩
  · exact send_semListNr.trans ht.same.semListNr
  · exact send_identifier.trans ht.same.identifier
  · rw [send_semList]
    exact ht.same.id i
  · rw [send_semList]
    exact ht.same.nsems i
  · rw [send_call, ht.call]
    show update (update s.call p (some c)) p none = s.call
    rw [update_idem, ← hfree, update_eq_self]
  · rw [send_sem]
    exact ht.sem i j
  unfold send
  rw [hcall]
  simp only
  rw [hlog]
  unfold called
  rw [append_assoc]
  rfl

/-- What a call needs to be taken at once or to wait for one semaphore; of several operations none
has to wait. -/
structure Simple (s : State) (m : SemOp) : Prop where
  single : ∀ i ops, checkOps s m = .ok (i, ops) → ops.length ≤ 1 ∨ AllProceed (s.vals i) ops
  grows : ∀ i ops, checkOps s m = .ok (i, ops) → ∀ o ∈ ops, ¬ CanProceed (s.vals i o.num) o →
    o.grows = true

/-- The state in which a call of `semop` leaves the processes to be woken. -/
inductive Entered (s : State) (m : SemOp) (t : State) : Prop
  | refused (e : Err) (he : e ≠ .ok) (ht : Touched s t) (hvals : t.vals = s.vals)
      (hgives : (semop m).gives s = some s.vals)
      (hlog : t.log = s.log ++ [Event.called m.who ⟨m.id, m.sops.getD []⟩,
        Event.refused m.who ⟨m.id, m.sops.getD []⟩ e])
  | took (i : Nat) (ops : List SemBuf) (hcheck : checkOps s m = .ok (i, ops))
      (hall : AllProceed (s.vals i) ops) (hmay : m.mayAlter = true ∨ ∀ o ∈ ops, o.op = 0)
      (ht : Touched s t) (hvals : t.vals = update s.vals i (opsGive (s.vals i) ops))
      (hgives : (semop m).gives s = some t.vals)
      (hlog : t.log = s.log ++ [Event.called m.who ⟨m.id, ops⟩, Event.took m.who ⟨m.id, ops⟩])
  | waits (i : Nat) (o : SemBuf) (hcheck : checkOps s m = .ok (i, [o]))
      (hno : ¬ CanProceed (s.vals i o.num) o) (hgives : (semop m).gives s = some s.vals)
      (ht : t = (s.called m.who ⟨m.id, [o]⟩).setSem i o.num ((s.sem i o.num).sleep m.who o))

theorem gives_error {e : Err} (h : checkOps s m = .error e) :
    (semop m).gives s = some s.vals := by
  simp only [gives, h]

theorem gives_ok (h : checkOps s m = .ok (i, ops)) : (semop m).gives s =
    if (m.mayAlter = true ∨ ∀ o ∈ ops, o.op = 0) ∧ AllProceed (s.vals i) ops then
      some (update s.vals i (opsGive (s.vals i) ops)) else some s.vals := by
  simp only [gives, h]

theorem checkOps_ne_ok {e : Err} (h : checkOps s m = .error e) : e ≠ .ok := by
  rintro rfl
  unfold checkOps at h
  split at h
  next => cases h
  split_ifs at h
  · cases h
  · cases h
  · cases h
  · cases h
  split at h
  next => cases h
  split_ifs at h
  · cases h
  · cases h
  · cases h

theorem doSemop_error {e : Err} (h : checkOps s m = .error e) : doSemop s m =
    updateSemaphores ((s.called m.who ⟨m.id, m.sops.getD []⟩).send m.who e) := by
  have hcheck : checkOps (s.called m.who ⟨m.id, m.sops.getD []⟩) m = .error e := h
  unfold called at hcheck
  unfold doSemop
  simp only [hcheck]
  rfl

theorem doSemop_ok {r : Err} (h : checkOps s m = .ok (i, ops)) (hget : m.sops.getD [] = ops)
    (hrun : applyOps m.who i m.mayAlter ops (s.called m.who ⟨m.id, ops⟩) 0 = (t, n, r)) :
    doSemop s m =
      if r ≠ .ok ∨ n = 0 then updateSemaphores (t.send m.who r) else updateSemaphores t := by
  subst hget
  have hcheck : checkOps (s.called m.who ⟨m.id, m.sops.getD []⟩) m = .ok (i, m.sops.getD []) := h
  unfold called at hcheck hrun
  unfold doSemop
  simp only [hcheck, hrun]

theorem doSemop_cases (h : Simple s m) (hfree : s.call m.who = none) :
    ∃ t, doSemop s m = updateSemaphores t ∧ Entered s m t := by
  cases hc : checkOps s m with
  | error e =>
    have he := checkOps_ne_ok hc
    obtain ⟨ht, hlog⟩ := send_called (r := e) (.refl (s.called m.who ⟨m.id, m.sops.getD []⟩)) rfl
      hfree
    rw [if_neg he] at hlog
    refine ⟨_, doSemop_error hc, .refused e he ht ?_ (gives_error hc) hlog⟩
    funext i j
    unfold vals
    rw [send_sem]
    rfl
  | ok r =>
    obtain ⟨i, ops⟩ := r
    obtain ⟨hi, hid, hsops, hnum, hnodup⟩ := checkOps_ok hc
    have hgives := gives_ok hc
    have hget : m.sops.getD [] = ops := by rw [hsops]; rfl
    by_cases hall : AllProceed (s.vals i) ops
    · obtain ⟨t, r, hrun, ht, hlog, hcase⟩ := applyOps_proceeds (s := s.called m.who ⟨m.id, ops⟩)
        (p := m.who) (w := m.mayAlter) (n := 0) hnodup hall
      obtain ⟨ht', hlog'⟩ := send_called (r := r) ht hlog hfree
      have hvals' : (t.send m.who r).vals = t.vals := by
        funext i j
        unfold vals
        rw [send_sem]
      refine ⟨t.send m.who r, ?_, ?_⟩
      · exact (doSemop_ok hc hget hrun).trans (if_pos (.inr rfl))
      obtain ⟨rfl, hmay, hvals⟩ | ⟨rfl, hmay, hvals⟩ := hcase
      · rw [if_pos ⟨hmay, hall⟩] at hgives
        refine .took i ops hc hall hmay ht' (hvals'.trans hvals) ?_ hlog'
        rw [hgives, hvals', hvals]
        rfl
      · rw [if_neg fun h => hmay h.1] at hgives
        refine .refused .eacces (by decide) ht' (hvals'.trans hvals) hgives ?_
        rw [hget]
        exact hlog'
    obtain hone | hall' := h.single i ops hc
    · -- the one operation has to wait
      obtain ⟨o, rfl⟩ : ∃ o, ops = [o] := by
        cases ops with
        | nil => exact absurd (fun o ho => absurd ho not_mem_nil) hall
        | cons o ops =>
          exact ⟨o, by rw [eq_nil_of_length_eq_zero (Nat.le_zero.mp
            (Nat.succ_le_succ_iff.mp hone))]⟩
      have hno : ¬ CanProceed (s.vals i o.num) o := by
        intro hcan
        apply hall
        intro o' ho'
        rw [mem_singleton.mp ho']
        exact hcan
      rw [if_neg fun h => hall h.2] at hgives
      obtain ⟨hrun, -⟩ | ⟨hrun, -⟩ := applyOps_waits (s := s.called m.who ⟨m.id, [o]⟩) (i := i)
        (o := o) (p := m.who) (w := m.mayAlter) hno
        (h.grows i [o] hc o mem_cons_self hno)
      · refine ⟨_, ?_, .waits i o hc hno hgives rfl⟩
        exact (doSemop_ok hc hget hrun).trans (if_neg (by simp))
      have ht : Touched (s.called m.who ⟨m.id, [o]⟩) ((s.called m.who ⟨m.id, [o]⟩).setSem i
          o.num { s.sem i o.num with sempid := some m.who }) := touched_setSem
      obtain ⟨ht', hlog'⟩ := send_called (r := .eacces) ht rfl hfree
      refine ⟨_, ?_, .refused .eacces (by decide) ht' ?_ hgives (hget.symm ▸ hlog')⟩
      · exact (doSemop_ok hc hget hrun).trans (if_pos (.inr rfl))
      funext i' j'
      unfold vals
      rw [send_sem]
      by_cases hij : i' = i ∧ j' = o.num
      · obtain ⟨rfl, rfl⟩ := hij
        rw [setSem_sem_self]
      · rw [setSem_sem_of_ne hij]
        rfl
    · exact absurd hall' hall

theorem opsGive_lt {f : Nat → Nat} {k : Nat} (hf : f k < 65536) : opsGive f ops k < 65536 := by
  induction ops generalizing f with
  | nil => exact hf
  | cons o ops ih =>
    rw [opsGive_cons]
    apply ih
    by_cases hk : k = o.num
    · rw [hk, update_self]
      unfold ushort
      omega
    · rw [update_of_ne hk]
      exact hf

theorem Entered.inv (h : Entered s m t) (hs : Inv s) (hfree : s.call m.who = none) : Inv t := by
  cases h with
  | refused e he ht hvals hgives hlog =>
    apply hs.touched ht
    intro i j hat
    show t.vals i j < 65536
    rw [hvals]
    exact (hs.sems i j hat).small
  | took i ops hcheck hall hmay ht hvals hgives hlog =>
    apply hs.touched ht
    intro i' j hat
    show t.vals i' j < 65536
    have hsmall : s.vals i' j < 65536 := (hs.sems i' j hat).small
    rw [hvals]
    by_cases hi : i' = i
    · subst hi
      rw [update_self]
      exact opsGive_lt hsmall
    · rw [update_of_ne hi]
      exact hsmall
  | waits i o hcheck hno hgives ht =>
    obtain ⟨hi, hid, -, hnum, -⟩ := checkOps_ok hcheck
    rw [ht, ← hid]
    exact hs.sleeps hfree ⟨hi, hnum o mem_cons_self⟩ hno

end HardenedMinix.Sem
