import HardenedMinix.IpcServer.SemControl

/-!
# Runs of the semaphore server

With each process asking for single operations, the waiting lists stay consistent and nobody waits
who could go on, as long as only one process is let go at a time and no empty list is looked into.
-/

open List Option

namespace HardenedMinix.Sem

open Lib

variable {s s' t : State} {i j a : Nat} {p : Proc} {x : Semaphore} {r : Request} {m : SemOp}
  {P : State → Request → Prop}

/-! ## Runs -/

/-- The states that the requests with `P` lead to. -/
inductive Runs (P : State → Request → Prop) : State → Prop
  | boot {s : State} (h : Boot s) : Runs P s
  | step {s s' : State} {r : Request} (h : Runs P s) (hen : r.Enabled s) (hP : P s r)
      (hrun : r.run s = some s') : Runs P s'

/-- `semop` with one operation; the other requests are as they are. -/
def Request.Single (r : Request) : Prop :=
  ∀ m ops, r = .semop m → m.sops = some ops → ops.length ≤ 1

/-- The condition on a request in the state it finds. -/
structure Meets (s : State) (r : Request) : Prop where
  /-- a waiting list can be made longer when the process has to wait -/
  grows : ∀ m i ops, r = .semop m → checkOps s m = .ok (i, ops) → ∀ o ∈ ops,
    ¬ CanProceed (s.vals i o.num) o → o.grows = true
  /-- of those that wait, only one can go on with the value the request gives -/
  once : ∀ f, r.gives s = some f → ∀ i j, At s i j → Once { s.sem i j with semval := f i j }
  /-- a list of those that wait for zero has an entry where the request gives this value -/
  noCrash : ∀ f, r.gives s = some f → ∀ i j, At s i j →
    NoCrash { s.sem i j with semval := f i j }

structure Good (s : State) : Prop where
  inv : Inv s
  stable : ∀ i j, At s i j → Stable (s.sem i j)

theorem Boot.at (h : Boot s) : ¬ At s i j := by
  rintro ⟨hi, -⟩
  rw [h.semListNr] at hi
  exact Nat.not_lt_zero i hi

theorem Boot.inv (h : Boot s) : Inv s where
  ids i i' hi := absurd hi (by rw [h.semListNr]; exact Nat.not_lt_zero i)
  fresh i hi := absurd hi (by rw [h.semListNr]; exact Nat.not_lt_zero i)
  sems i j hat := absurd hat h.at
  waits i j hat := absurd hat h.at
  blocked p c hc := by
    rw [h.call] at hc
    cases hc

theorem Boot.good (h : Boot s) : Good s := ⟨h.inv, fun _ _ hat => absurd hat h.at⟩

/-! ## One request -/

theorem Stable.of_sub {x' : Semaphore} (h : Stable x) (hval : x'.semval = x.semval)
    (hzero : x'.zlist.getD [] ⊆ x.zlist.getD []) (hincr : x'.nlist.getD [] ⊆ x.nlist.getD []) :
    Stable x' where
  zero hv := by
    rw [h.zero (hval ▸ hv)] at hzero
    exact eq_nil_of_subset_nil hzero
  incr e he := by
    rw [hval]
    exact h.incr e (hincr he)

theorem Good.answer {e : Err} (h : Good s) : Good (s.answer p e) := ⟨h.inv.answer, h.stable⟩

theorem update_good (h : Inv t) (honce : ∀ i j, At t i j → Once (t.sem i j))
    (hno : ∀ i j, At t i j → NoCrash (t.sem i j)) :
    ∃ s', updateSemaphores t = some s' ∧ Good s' := by
  obtain ⟨s', hrun, hswept⟩ := updateSemaphores_spec h hno
  refine ⟨s', hrun, hswept.inv, fun i j hat => ?_⟩
  have hat' := hswept.same.at_iff.mp hat
  rw [hswept.done i j hat']
  exact (honce i j hat').stable (h.sems i j hat')

theorem Touched.fit (h : Touched s t) {f : Nat → Nat → Nat} (hvals : t.vals = f) :
    (Once { s.sem i j with semval := f i j } → Once (t.sem i j)) ∧
    (NoCrash { s.sem i j with semval := f i j } → NoCrash (t.sem i j)) := by
  subst hvals
  rw [h.sem i j]
  exact ⟨fun ho => ⟨ho.zero, ho.incr⟩, id⟩

theorem Stable.sleep {o : SemBuf} (h : Stable x) (hno : ¬ CanProceed x.semval o) :
    Stable (x.sleep p o) := by
  unfold Semaphore.sleep
  split
  next h0 =>
    refine ⟨fun hv => ?_, h.incr⟩
    exact absurd ⟨fun _ => hv, fun hlt => by omega⟩ hno
  rename_i h0
  refine ⟨h.zero, fun e he => ?_⟩
  obtain he | he := mem_append.mp he
  · exact h.incr e he
  · rw [mem_singleton.mp he]
    show (x.semval : Int) < -o.op
    by_contra hge
    exact hno ⟨fun hz => absurd hz h0, fun _ => Int.not_lt.mp hge⟩

theorem NoCrash.sleep {o : SemBuf} (h : NoCrash x) (hno : ¬ CanProceed x.semval o) :
    NoCrash (x.sleep p o) := by
  unfold Semaphore.sleep
  split
  next h0 =>
    rintro ⟨-, hv⟩
    exact hno ⟨fun _ => hv, fun hlt => by omega⟩
  next h0 => exact h

theorem doSemop_good (h : Good s) (hfree : s.call m.who = none) (hsimple : Simple s m)
    (hmeets : Meets s (.semop m)) : ∃ s', doSemop s m = some s' ∧ Good s' := by
  obtain ⟨t, hrun, hentered⟩ := doSemop_cases hsimple hfree
  have hinv := hentered.inv h.inv hfree
  rw [hrun]
  cases hentered with
  | refused e he ht hvals hgives hlog =>
    apply update_good hinv
    · exact fun i j hat => (ht.fit hvals).1 (hmeets.once _ hgives i j (ht.same.at_iff.mp hat))
    · exact fun i j hat => (ht.fit hvals).2 (hmeets.noCrash _ hgives i j (ht.same.at_iff.mp hat))
  | took i ops hcheck hall hmay ht hvals hgives hlog =>
    apply update_good hinv
    · exact fun i j hat => (ht.fit rfl).1 (hmeets.once _ hgives i j (ht.same.at_iff.mp hat))
    · exact fun i j hat => (ht.fit rfl).2 (hmeets.noCrash _ hgives i j (ht.same.at_iff.mp hat))
  | waits i o hcheck hno hgives ht =>
    have hat' : ∀ {a b}, At t a b → At s a b := by
      intro a b hat
      rw [ht] at hat
      exact sameSets_setSem.at_iff.mp hat
    -- nobody could go on before, nor can the caller
    have hsem : ∀ a b, At t a b → Once (t.sem a b) ∧ NoCrash (t.sem a b) := by
      intro a b hat
      have hstable := h.stable a b (hat' hat)
      have hcrash : NoCrash (s.sem a b) := hmeets.noCrash _ hgives a b (hat' hat)
      rw [ht]
      by_cases hab : a = i ∧ b = o.num
      · obtain ⟨rfl, rfl⟩ := hab
        rw [setSem_sem_self]
        exact ⟨(hstable.sleep hno).once, hcrash.sleep hno⟩
      · rw [setSem_sem_of_ne hab]
        exact ⟨hstable.once, hcrash⟩
    exact update_good hinv (fun a b hat => (hsem a b hat).1) fun a b hat => (hsem a b hat).2

theorem doSemctl_good {m : SemCtl} (h : Good s) (hmeets : Meets s (.semctl m)) :
    ∃ s', doSemctl s m = some s' ∧ Good s' := by
  cases doSemctl_cases m h.inv with
  | answered e hgives hrun => exact ⟨_, hrun, h.answer⟩
  | removed i t hi hd hgives hrun =>
    refine ⟨_, hrun, (hd.inv h.inv hi).answer, fun a j hat => ?_⟩
    obtain ⟨ha, hat⟩ := removeSemaphore_at.mp hat
    show Stable ((removeSemaphore t i).sem a j)
    rw [removeSemaphore_sem ha, hd.sem]
    exact h.stable _ j (hd.at_iff.mp hat)
  | valued t e ht hvalued hgives hclean hrun =>
    have hinv : Inv t := h.inv.valued hvalued
    obtain ⟨s', hupdate, hgood⟩ := update_good hinv
      (fun i j hat => (ht.fit rfl).1 (hmeets.once _ hgives i j (ht.same.at_iff.mp hat)))
      fun i j hat => (ht.fit rfl).2 (hmeets.noCrash _ hgives i j (ht.same.at_iff.mp hat))
    exact ⟨_, by rw [hrun, hupdate, map_some], hgood.answer⟩

theorem doSemget_good (m : SemGet) (h : Good s) : Good (doSemget s m) := by
  obtain ⟨e, hrun⟩ | ⟨key, nsems, hrun⟩ := doSemget_cases (s := s) m
  · rw [hrun]
    exact h.answer
  rw [hrun]
  refine ⟨h.inv.created.answer, fun a j hat => ?_⟩
  show Stable ((s.created key nsems).sem a j)
  obtain hat | ⟨rfl, -⟩ := created_at.mp hat
  · rw [created_sem_of_lt hat.1]
    exact h.stable a j hat
  · rw [created_sem_last]
    exact ⟨fun _ => rfl, fun e he => absurd he not_mem_nil⟩

theorem doExit_good (h : Good s) : ∃ s', doExit s p = some s' ∧ Good s' := by
  obtain ⟨t, hrun, hpruned, -⟩ := doExit_spec (p := p) h.inv
  refine ⟨_, hrun, hpruned.inv.note, fun i j hat => ?_⟩
  apply (h.stable i j (hpruned.same.at_iff.mp hat)).of_sub
  · exact congrFun (congrFun hpruned.vals i) j
  · exact hpruned.zero i j
  · exact hpruned.incr i j

theorem run_good (h : Good s) (hen : r.Enabled s) (hsingle : r.Single) (hmeets : Meets s r) :
    ∃ s', r.run s = some s' ∧ Good s' := by
  cases r with
  | semget m => exact ⟨_, rfl, doSemget_good m h⟩
  | semctl m => exact doSemctl_good h hmeets
  | semop m =>
    refine doSemop_good h hen ⟨fun i ops hc => ?_, fun i ops hc => ?_⟩ hmeets
    · obtain ⟨-, -, hsops, -⟩ := checkOps_ok hc
      exact .inl (hsingle m ops rfl hsops)
    · exact hmeets.grows m i ops rfl hc
  | exit p => exact doExit_good h

theorem Runs.good (h : Runs (fun s r => r.Single ∧ Meets s r) s) : Good s := by
  induction h with
  | boot h => exact h.good
  | step h hen hP hrun ih =>
    obtain ⟨s', hrun', hgood⟩ := run_good ih hen hP.1 hP.2
    rw [hrun'] at hrun
    cases hrun
    exact hgood

/-- The waiting lists are consistent, nobody waits who could go on, and no request looks into an
empty list. -/
theorem waiting_lists_consistent (h : Runs (fun s r => r.Single ∧ Meets s r) s) :
    Good s ∧ ∀ r : Request, r.Enabled s → r.Single → Meets s r → ∃ s', r.run s = some s' := by
  refine ⟨h.good, fun r hen hsingle hmeets => ?_⟩
  obtain ⟨s', hrun, -⟩ := run_good h.good hen hsingle hmeets
  exact ⟨s', hrun⟩

/-! ## Concrete runs -/

instance (r : Request) (s : State) : Decidable (r.Enabled s) :=
  match r with
  | .semget m => inferInstanceAs (Decidable (s.call m.who = none))
  | .semctl m => inferInstanceAs (Decidable (s.call m.who = none))
  | .semop m => inferInstanceAs (Decidable (s.call m.who = none))
  | .exit _ => isTrue trivial

/-- The requests one after the other, each by a process that is not blocked. -/
def runAll : State → List Request → Option State
  | s, [] => some s
  | s, r :: rs => if r.Enabled s then (r.run s).bind fun s => runAll s rs else none

theorem Runs.runAll {rs : List Request} (h : Runs P s) (hP : ∀ s, ∀ r ∈ rs, P s r)
    (hrun : runAll s rs = some s') : Runs P s' := by
  induction rs generalizing s with
  | nil =>
    cases hrun
    exact h
  | cons r rs ih =>
    rw [Sem.runAll.eq_2] at hrun
    split at hrun
    next hen =>
      obtain ⟨s1, hone, hrest⟩ := bind_eq_some_iff.mp hrun
      exact ih (h.step hen (hP s r mem_cons_self) hone)
        (fun s r hr => hP s r (mem_cons_of_mem _ hr)) hrest
    next => cases hrun

def bootState : State :=
  ⟨fun _ => ⟨none, 0, 0, fun _ => zeroSem⟩, 0, 1, fun _ => none, []⟩

theorem boot_bootState : Boot bootState := ⟨rfl, fun _ => rfl, rfl⟩

instance : NeZero nrProcs := ⟨by decide⟩

def getOne (p : Proc) : Request := .semget ⟨p, none, 1, true, false, true⟩

/-- One operation on the first semaphore of the first set. -/
def oneOp (p : Proc) (op : Int) : Request :=
  .semop ⟨p, 1, 1, some [⟨0, op, false, true⟩], true, true, true⟩

/-- `SETVAL` of the first semaphore of the first set. -/
def setOne (p : Proc) (v : Int) : Request := .semctl ⟨p, 1, .setval 0 v, true, true, true, .ok⟩

theorem oneOp_single {op : Int} : (oneOp p op).Single := by
  intro m ops hm hops
  cases hm
  cases hops
  exact le_refl 1

/-- There is one semaphore `x`, and the request gives it the value `v`. -/
def Alone (s : State) (r : Request) (x : Semaphore) (v : Nat) : Prop :=
  s.semListNr = 1 ∧ (s.semList 0).nsems = 1 ∧ s.sem 0 0 = x ∧ (r.gives s).map (· 0 0) = some v

instance (s : State) (r : Request) (x : Semaphore) (v : Nat) : Decidable (Alone s r x v) :=
  inferInstanceAs (Decidable (_ ∧ _ ∧ _ ∧ _))

theorem oneOp_meets {op : Int} {v : Nat} (h : Alone s (oneOp p op) x v)
    (honce : Once { x with semval := v }) (hno : NoCrash { x with semval := v }) :
    Meets s (oneOp p op) := by
  obtain ⟨hnr, hn, rfl, hgives⟩ := h
  have hat : ∀ i j, At s i j → i = 0 ∧ j = 0 := by
    rintro i j ⟨hi, hj⟩
    obtain rfl : i = 0 := by omega
    exact ⟨rfl, by omega⟩
  refine ⟨fun m i ops hm hc o ho _ => ?_, fun f hf i j h => ?_, fun f hf i j h => ?_⟩
  · obtain ⟨-, -, hops, -⟩ := checkOps_ok hc
    cases hm
    cases hops
    rw [mem_singleton.mp ho]
  · obtain ⟨rfl, rfl⟩ := hat i j h
    rw [hf] at hgives
    have hv : f 0 0 = v := some.inj hgives
    rw [hv]
    exact honce
  obtain ⟨rfl, rfl⟩ := hat i j h
  rw [hf] at hgives
  have hv : f 0 0 = v := some.inj hgives
  rw [hv]
  exact hno

/-- A process waits for an increase, and another one makes it go on. -/
theorem waiting_lists_consistent_wake : ∃ s, s.call 2 = none ∧ s.vals 0 0 = 0 ∧
    s.log.length = 6 ∧ (Good s ∧ ∀ r : Request, r.Enabled s → r.Single → Meets s r →
      ∃ s', r.run s = some s') := by
  have hfirst : Runs (fun s r => r.Single ∧ Meets s r) (doSemget bootState
      ⟨1, none, 1, true, false, true⟩) := by
    refine (Runs.boot boot_bootState).step (r := getOne 1) rfl ⟨?_, ?_⟩ rfl
    · exact fun m ops hm => by cases hm
    · exact ⟨fun m i ops hm => (by cases hm), fun f hf => (by cases hf), fun f hf => (by cases hf)⟩
  have h : ((oneOp 2 (-1)).run (doSemget bootState ⟨1, none, 1, true, false, true⟩)).any (fun s =>
      decide (Alone s (oneOp 3 1) ⟨0, 0, 1, none, some [⟨2, 1⟩], some 2⟩ 1) &&
        decide ((oneOp 3 1).Enabled s) && ((oneOp 3 1).run s).any fun s =>
          decide (s.call 2 = none ∧ s.vals 0 0 = 0 ∧ s.log.length = 6)) = true := by
    decide +kernel
  obtain ⟨s1, hrun, hs⟩ := (Option.any_eq_true _ _).mp h
  rw [Bool.and_eq_true, Bool.and_eq_true] at hs
  obtain ⟨⟨halone, hen⟩, hlast⟩ := hs
  obtain ⟨s2, hrun', hs2⟩ := (Option.any_eq_true _ _).mp hlast
  obtain ⟨hcall, hval, hlog⟩ := of_decide_eq_true hs2
  have hwaits := hfirst.step (r := oneOp 2 (-1)) (by decide +kernel) ⟨oneOp_single, oneOp_meets
    (x := zeroSem) (v := 0) (by decide +kernel) (Stable.once ⟨fun _ => rfl, by simp [zeroSem]⟩)
      (by simp [NoCrash, zeroSem])⟩ hrun
  have hwakes := hwaits.step (of_decide_eq_true hen) ⟨oneOp_single, oneOp_meets
    (of_decide_eq_true halone) ⟨by simp, fun pre e post heq _ _ => ?_⟩ (by simp [NoCrash])⟩ hrun'
  · exact ⟨s2, hcall, hval, hlog, waiting_lists_consistent hwakes⟩
  have heq' : ([⟨2, 1⟩] : List Waiting) = pre ++ e :: post := heq
  cases pre with
  | nil =>
    obtain ⟨rfl, rfl⟩ := List.cons.inj heq'
    exact ⟨fun e he => absurd he not_mem_nil, fun _ => rfl⟩
  | cons a pre => simp at heq'

/-- A process that waits for zero is woken, and its list left empty; the next call shifts it. -/
theorem empty_list_is_shifted : ∃ s, Runs (fun _ r => r.Single) s ∧ (oneOp 1 0).Enabled s ∧
    (oneOp 1 0).Single ∧ (oneOp 1 0).run s = none := by
  have h : (runAll bootState [getOne 1, setOne 1 1, oneOp 2 0, setOne 1 0]).any (fun s =>
      decide ((oneOp 1 0).Enabled s) && ((oneOp 1 0).run s).isNone) = true := by
    decide +kernel
  obtain ⟨s, hrun, hs⟩ := (Option.any_eq_true _ _).mp h
  rw [Bool.and_eq_true] at hs
  refine ⟨s, Runs.runAll (.boot boot_bootState) ?_ hrun, of_decide_eq_true hs.1, oneOp_single,
    isNone_iff_eq_none.mp hs.2⟩
  intro s r hr
  simp only [mem_cons, not_mem_nil, or_false] at hr
  obtain rfl | rfl | rfl | rfl := hr
  · exact fun m ops hm => by cases hm
  · exact fun m ops hm => by cases hm
  · exact oneOp_single
  · exact fun m ops hm => by cases hm

end HardenedMinix.Sem
