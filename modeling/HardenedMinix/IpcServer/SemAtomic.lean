import HardenedMinix.IpcServer.SemRuns

/-!
# Atomicity of semaphore operations

The values of all sets change at one moment when a call is taken, and only when all its operations
can proceed, as long as no call of several operations has to wait and no value leaves its range.
-/

open Function List Option

namespace HardenedMinix.Sem

open Lib

variable {s s' t : State} {i j a : Nat} {p : Proc} {x : Semaphore} {r : Request} {m : SemOp}
  {ops : List SemBuf} {f g : Nat → Nat} {log : List Event}

/-! ## Atomic semaphores -/

/-- The values by the identifier of the set, and the calls that have not been answered. -/
structure Spec where
  vals : Nat → Nat → Nat
  pending : Proc → Option Call

def takeAll (f : Nat → Nat) (ops : List SemBuf) (j : Nat) : Nat :=
  ((ops.find? fun o => o.num = j).map fun o => ((f j : Int) + o.op).toNat).getD (f j)

inductive Spec.Step (a : Spec) : Event → Spec → Prop
  | called {p : Proc} {c : Call} (h : a.pending p = none) :
      Spec.Step a (.called p c) { a with pending := update a.pending p (some c) }
  /-- the call is taken as a whole, and each value stays in its range -/
  | took {p : Proc} {c : Call} (h : a.pending p = some c)
      (hall : AllProceed (a.vals c.id) c.ops)
      (hmax : ∀ o ∈ c.ops, (a.vals c.id o.num : Int) + o.op ≤ semVmx) :
      Spec.Step a (.took p c)
        ⟨update a.vals c.id (takeAll (a.vals c.id) c.ops),
          update a.pending p none⟩
  /-- an error changes no value -/
  | refused {p : Proc} {c : Call} {e : Err} (h : a.pending p = some c) (he : e ≠ .ok) :
      Spec.Step a (.refused p c e) { a with pending := update a.pending p none }
  | answered {p : Proc} {e : Err} (h : a.pending p = none) : Spec.Step a (.answered p e) a
  | valued {id num v : Nat} (h : v ≤ semVmx) :
      Spec.Step a (.valued id num v)
        { a with vals := update a.vals id (update (a.vals id) num v) }
  | created {id : Nat} :
      Spec.Step a (.created id) { a with vals := update a.vals id fun _ => 0 }
  | exited {p : Proc} (h : a.pending p = none) : Spec.Step a (.exited p) a

/-- The events have happened one after the other. -/
inductive History : List Event → Spec → Prop
  | nil : History [] ⟨fun _ _ => 0, fun _ => none⟩
  | snoc {l : List Event} {a a' : Spec} {e : Event} (h : History l a) (hstep : a.Step e a') :
      History (l ++ [e]) a'

/-- The server is in a state of the atomic semaphores. -/
structure Agree (a : Spec) (s : State) : Prop where
  pending : a.pending = s.call
  vals : ∀ i j, At s i j → a.vals (s.semList i).id j = s.vals i j
  max : ∀ i j, At s i j → s.vals i j ≤ semVmx

/-- The log is a history of atomic semaphores. -/
def Atomic (s : State) : Prop := ∃ a, History s.log a ∧ Agree a s

/-! ## The operations of a call -/

theorem takeAll_congr (h : f j = g j) : takeAll f ops j = takeAll g ops j := by
  unfold takeAll
  rw [h]

theorem opsGive_eq (hnodup : (ops.map (·.num)).Nodup) (hall : AllProceed f ops)
    (hmax : ∀ o ∈ ops, (f o.num : Int) + o.op ≤ semVmx) (j : Nat) :
    opsGive f ops j = takeAll f ops j := by
  induction ops generalizing f with
  | nil => rfl
  | cons o ops ih =>
    rw [map_cons, nodup_cons] at hnodup
    have hother : ∀ o' ∈ ops, o'.num ≠ o.num := fun o' ho' heq =>
      hnodup.1 (heq ▸ List.mem_map_of_mem ho')
    have hcan := hall o mem_cons_self
    have hle := hmax o mem_cons_self
    rw [opsGive_cons, ih hnodup.2]
    · by_cases hj : o.num = j
      · subst hj
        have hnone : ops.find? (fun o' => decide (o'.num = o.num)) = none := by
          rw [List.find?_eq_none]
          intro o' ho'
          simpa using hother o' ho'
        have hge : 0 ≤ (f o.num : Int) + o.op := by
          by_cases hneg : o.op < 0
          · have := hcan.2 hneg
            omega
          · omega
        unfold takeAll semVmx at *
        rw [hnone, List.find?_cons_of_pos (by simp)]
        simp only [map_none, getD_none, update_self, map_some, getD_some]
        unfold ushort
        omega
      · unfold takeAll
        rw [update_of_ne (Ne.symm hj), List.find?_cons_of_neg (by simpa using hj)]
    · intro o' ho'
      rw [update_of_ne (hother o' ho')]
      exact hall o' (mem_cons_of_mem _ ho')
    · intro o' ho'
      rw [update_of_ne (hother o' ho')]
      exact hmax o' (mem_cons_of_mem _ ho')

theorem takeAll_le (hmax : ∀ o ∈ ops, (f o.num : Int) + o.op ≤ semVmx) (hf : f j ≤ semVmx) :
    takeAll f ops j ≤ semVmx := by
  unfold takeAll
  cases hfind : ops.find? fun o => decide (o.num = j) with
  | none => exact hf
  | some o =>
    have hnum : o.num = j := by simpa using List.find?_some hfind
    have := hmax o (mem_of_find?_eq_some hfind)
    rw [hnum] at this
    show ((f j : Int) + o.op).toNat ≤ semVmx
    omega

/-! ## The steps of the server -/

theorem Agree.congr {b : Spec} (h : Agree b s) (hsame : SameSets s s') (hcall : s'.call = s.call)
    (hvals : s'.vals = s.vals) : Agree b s' where
  pending := h.pending.trans hcall.symm
  vals i j hat := by
    rw [hsame.id, hvals]
    exact h.vals i j (hsame.at_iff.mp hat)
  max i j hat := by
    rw [hvals]
    exact h.max i j (hsame.at_iff.mp hat)

theorem Woke.atomic (hstep : Woke s s') (h : Atomic s) : Atomic s' := by
  obtain ⟨b, hlog, hb⟩ := h
  cases hstep with
  | @mk i j e x hinv hat he hzero hle hval hnext =>
    obtain ⟨o, hcall, hnum, hop⟩ := hinv.waits i j hat e he
    have hok := hinv.sems i j hat
    have hnonneg : 0 ≤ e.val := by
      obtain hz | hn := mem_append.mp he
      · rw [hok.zero e hz]
      · exact (hok.incr e hn).le
    have hv : b.vals (s.semList i).id j = (s.sem i j).semval := hb.vals i j hat
    have hmaxj : (s.sem i j).semval ≤ semVmx := hb.max i j hat
    have hlog' : ((s.setSem i j x).send e.who .ok).log =
        s.log ++ [Event.took e.who ⟨(s.semList i).id, [o]⟩] := by
      unfold State.send
      rw [setSem_call, hcall]
      rfl
    have hstep : b.Step (.took e.who ⟨(s.semList i).id, [o]⟩)
        ⟨update b.vals (s.semList i).id (takeAll (b.vals (s.semList i).id) [o]),
          update b.pending e.who none⟩ := by
      apply Spec.Step.took
      · rw [hb.pending]
        exact hcall
      · intro o' ho'
        rw [mem_singleton.mp ho', hnum, hv]
        exact ⟨fun h0 => hzero (by omega), fun _ => by omega⟩
      · intro o' ho'
        rw [mem_singleton.mp ho', hnum, hv]
        omega
    refine ⟨_, hlog' ▸ hlog.snoc hstep, ?_⟩
    have hsame : SameSets s ((s.setSem i j x).send e.who .ok) := sameSets_setSem.trans sameSets_send
    -- the value of the one semaphore is what the operation makes of it
    have hself : takeAll (b.vals (s.semList i).id) [o] j = x.semval := by
      unfold takeAll
      rw [List.find?_cons_of_pos (by simpa using hnum)]
      show ((b.vals (s.semList i).id j : Int) + o.op).toNat = x.semval
      rw [hv]
      omega
    have hsem : ∀ i' j', ¬ (i' = i ∧ j' = j) →
        ((s.setSem i j x).send e.who .ok).vals i' j' = s.vals i' j' := by
      intro i' j' hij
      unfold State.vals
      rw [send_sem, setSem_sem_of_ne hij]
    have hsemj : ((s.setSem i j x).send e.who .ok).vals i j = x.semval := by
      unfold State.vals
      rw [send_sem, setSem_sem_self]
    refine ⟨?_, fun i' j' hat' => ?_, fun i' j' hat' => ?_⟩
    · rw [send_call, setSem_call, hb.pending]
    · have hat0 := hsame.at_iff.mp hat'
      rw [hsame.id]
      by_cases hi : i' = i
      · subst hi
        show update b.vals (s.semList i').id _ (s.semList i').id j' = _
        rw [update_self]
        by_cases hj : j' = j
        · subst hj
          rw [hself, hsemj]
        · rw [hsem i' j' fun h => hj h.2, ← hb.vals i' j' hat0]
          unfold takeAll
          rw [List.find?_cons_of_neg (by simpa [hnum] using Ne.symm hj)]
          rfl
      · rw [hsem i' j' fun h => hi h.1, ← hb.vals i' j' hat0]
        show update b.vals (s.semList i).id _ (s.semList i').id j' = _
        rw [update_of_ne fun hid => hi (hinv.ids i' i hat0.1 hat.1 hid)]
    by_cases hij : i' = i ∧ j' = j
    · obtain ⟨rfl, rfl⟩ := hij
      rw [hsemj]
      omega
    · rw [hsem i' j' hij]
      exact hb.max i' j' (hsame.at_iff.mp hat')

theorem Refused.atomic (hstep : Refused s s') (h : Atomic s) : Atomic s' := by
  obtain ⟨b, hlog, hb⟩ := h
  cases hstep with
  | @mk i j p c x e hcall he hval =>
    have hlog' : ((s.setSem i j x).send p e).log = s.log ++ [Event.refused p c e] := by
      unfold State.send
      rw [setSem_call, hcall]
      simp only [if_neg he]
      rfl
    have hvals : ((s.setSem i j x).send p e).vals = s.vals := by
      funext i' j'
      unfold State.vals
      rw [send_sem]
      by_cases hij : i' = i ∧ j' = j
      · obtain ⟨rfl, rfl⟩ := hij
        rw [setSem_sem_self, hval]
      · rw [setSem_sem_of_ne hij]
    have hsame : SameSets s ((s.setSem i j x).send p e) := sameSets_setSem.trans sameSets_send
    refine ⟨_, hlog' ▸ hlog.snoc (.refused (hb.pending ▸ hcall) he), ?_, fun i j hat => ?_,
      fun i j hat => ?_⟩
    · rw [send_call, setSem_call, hb.pending]
    · rw [hsame.id, hvals]
      exact hb.vals i j (hsame.at_iff.mp hat)
    · rw [hvals]
      exact hb.max i j (hsame.at_iff.mp hat)

theorem Valued.atomic (hstep : Valued s s') (hinv : Inv s) (h : Atomic s) : Atomic s' := by
  obtain ⟨b, hlog, hb⟩ := h
  cases hstep with
  | @mk i j v hat hv =>
    have ht : Touched s ((s.setSem i j { s.sem i j with semval := v }).note
        (.valued (s.semList i).id j v)) := Touched.note (touched_setSem (s := s))
    have hvals : ((s.setSem i j { s.sem i j with semval := v }).note
        (.valued (s.semList i).id j v)).vals =
          update s.vals i (update (s.vals i) j v) := vals_setSem (s := s)
    refine ⟨_, hlog.snoc (.valued hv), hb.pending.trans ht.call.symm, fun i' j' hat' => ?_,
      fun i' j' hat' => ?_⟩
    · have hat0 := ht.same.at_iff.mp hat'
      rw [ht.same.id, hvals]
      by_cases hi : i' = i
      · subst hi
        show update b.vals (s.semList i').id _ (s.semList i').id j' = _
        rw [update_self, update_self]
        by_cases hj : j' = j
        · subst hj
          rw [update_self, update_self]
        · rw [update_of_ne hj, update_of_ne hj]
          exact hb.vals i' j' hat0
      · show update b.vals (s.semList i).id _ (s.semList i').id j' = _
        rw [update_of_ne hi, update_of_ne fun hid => hi (hinv.ids i' i hat0.1 hat.1 hid)]
        exact hb.vals i' j' hat0
    have hmax := hb.max i' j' (ht.same.at_iff.mp hat')
    rw [hvals]
    by_cases hi : i' = i
    · subst hi
      rw [update_self]
      by_cases hj : j' = j
      · subst hj
        rw [update_self]
        exact hv
      · rw [update_of_ne hj]
        exact hmax
    · rw [update_of_ne hi]
      exact hmax

theorem Atomic.woke (h : Atomic s) (hrun : Relation.ReflTransGen Woke s s') : Atomic s' := by
  induction hrun with
  | refl => exact h
  | tail _ hstep ih => exact hstep.atomic ih

theorem Atomic.refused (h : Atomic s) (hrun : Relation.ReflTransGen Refused s s') : Atomic s' := by
  induction hrun with
  | refl => exact h
  | tail _ hstep ih => exact hstep.atomic ih

theorem Atomic.valued (hinv : Inv s) (h : Atomic s) (hrun : Relation.ReflTransGen Valued s s') :
    Atomic s' := by
  induction hrun with
  | refl => exact h
  | tail hrun hstep ih => exact hstep.atomic (hinv.valued hrun) ih

theorem Atomic.answer {e : Err} (h : Atomic s) (hfree : s.call p = none) :
    Atomic (s.answer p e) := by
  obtain ⟨b, hlog, hb⟩ := h
  exact ⟨b, hlog.snoc (.answered (by rw [hb.pending]; exact hfree)),
    hb.congr ⟨rfl, rfl, fun _ => rfl, fun _ => rfl⟩ rfl rfl⟩

/-! ## What a step notes -/

/-- Each step of `R` notes one event, of the kind `Q`, and blocks nobody. -/
def Notes (Q : Event → Prop) (R : State → State → Prop) : Prop :=
  ∀ s s', R s s' → (∃ ev, s'.log = s.log ++ [ev] ∧ Q ev) ∧
    ∀ p, s.call p = none → s'.call p = none

theorem Notes.run {Q : Event → Prop} {R : State → State → Prop} (h : Notes Q R)
    (hrun : Relation.ReflTransGen R s s') :
    (∃ evs, s'.log = s.log ++ evs ∧ ∀ ev ∈ evs, Q ev) ∧ ∀ p, s.call p = none → s'.call p = none := by
  induction hrun with
  | refl => exact ⟨⟨[], (append_nil _).symm, fun ev hev => absurd hev not_mem_nil⟩, fun _ => id⟩
  | tail _ hstep ih =>
    obtain ⟨⟨evs, hlog, hQ⟩, hfree⟩ := ih
    obtain ⟨⟨ev, hlog', hev⟩, hfree'⟩ := h _ _ hstep
    refine ⟨⟨evs ++ [ev], by rw [hlog', hlog, append_assoc], fun ev' hev' => ?_⟩,
      fun p hp => hfree' p (hfree p hp)⟩
    obtain hev' | hev' := mem_append.mp hev'
    · exact hQ ev' hev'
    · rw [mem_singleton.mp hev']
      exact hev

/-- An answer to a blocked process, to its call. -/
def Event.Reply : Event → Prop
  | .took _ _ => True
  | .refused _ _ _ => True
  | _ => False

def Event.Setting : Event → Prop
  | .valued _ _ _ => True
  | _ => False

theorem send_notes {c : Call} {e : Err} (hcall : s.call p = some c) :
    (∃ ev, (s.send p e).log = s.log ++ [ev] ∧ ev.Reply) ∧
      ∀ q, s.call q = none → (s.send p e).call q = none := by
  refine ⟨⟨if e = .ok then Event.took p c else Event.refused p c e, ?_, ?_⟩, fun q hq => ?_⟩
  · unfold State.send
    rw [hcall]
  · split <;> exact trivial
  rw [send_call]
  by_cases hqp : q = p
  · rw [hqp, update_self]
  · rw [update_of_ne hqp]
    exact hq

theorem woke_notes : Notes Event.Reply Woke := by
  intro s s' hstep
  cases hstep with
  | @mk i j e x hinv hat he hzero hle hval hnext =>
    obtain ⟨o, hcall, -⟩ := hinv.waits i j hat e he
    exact send_notes (s := s.setSem i j x) hcall

theorem refused_notes : Notes Event.Reply Refused := by
  intro s s' hstep
  cases hstep with
  | @mk i j p c x e hcall he hval => exact send_notes (s := s.setSem i j x) hcall

theorem valued_notes : Notes Event.Setting Valued := by
  intro s s' hstep
  cases hstep with
  | @mk i j v hat hv => exact ⟨⟨_, rfl, trivial⟩, fun _ => id⟩

/-! ## Requests -/

/-- The condition on a request in the state it finds. -/
structure MeetsAtomic (s : State) (r : Request) : Prop where
  /-- several operations are called for only when none has to wait -/
  simple : ∀ m, r = .semop m → Simple s m
  /-- no operation takes a value out of its range -/
  range : ∀ m i ops, r = .semop m → checkOps s m = .ok (i, ops) → m.mayAlter = true →
    AllProceed (s.vals i) ops → ∀ o ∈ ops, (s.vals i o.num : Int) + o.op ≤ semVmx
  /-- `SETALL` with a value out of range has none in range before it -/
  uniform : ∀ m, r = .semctl m → Uniform s m
  /-- a list of those that wait for zero has an entry where the request gives this value -/
  noCrash : ∀ f, r.gives s = some f → ∀ i j, At s i j →
    NoCrash { s.sem i j with semval := f i j }

/-- The events of a request: if it is answered with an error, no value has been set. -/
def Clean (p : Proc) (evs : List Event) : Prop :=
  (∃ e, e ≠ .ok ∧ Event.answered p e ∈ evs) →
    ∀ id num v, Event.valued id num v ∉ evs ∧ Event.created id ∉ evs

/-- What is promised of a request. -/
def Carried (s : State) (r : Request) : Prop :=
  ∃ s' evs, r.run s = some s' ∧ s'.log = s.log ++ evs ∧ Clean r.who evs ∧ Inv s' ∧ Atomic s'

theorem clean_of_no_answer {evs : List Event} (h : ∀ e, Event.answered p e ∉ evs) :
    Clean p evs := by
  rintro ⟨e, -, he⟩
  exact absurd he (h e)

theorem update_atomic (h : Inv t) (hatomic : Atomic t)
    (hno : ∀ i j, At t i j → NoCrash (t.sem i j)) :
    ∃ s' evs, updateSemaphores t = some s' ∧ s'.log = t.log ++ evs ∧ (∀ ev ∈ evs, ev.Reply) ∧
      Inv s' ∧ Atomic s' ∧ ∀ p, t.call p = none → s'.call p = none := by
  obtain ⟨s', hrun, hswept⟩ := updateSemaphores_spec h hno
  obtain ⟨⟨evs, hlog, hreply⟩, hfree⟩ := woke_notes.run hswept.woke
  exact ⟨s', evs, hrun, hlog, hreply, hswept.inv, hatomic.woke hswept.woke, hfree⟩

theorem Entered.atomic (h : Entered s m t) (hs : Inv s) (hatomic : Atomic s)
    (hfree : s.call m.who = none) (hmeets : MeetsAtomic s (.semop m)) : Atomic t := by
  obtain ⟨b, hlog, hb⟩ := hatomic
  have hcalled : ∀ c, b.Step (.called m.who c)
      { b with pending := update b.pending m.who (some c) } := fun c =>
    .called (by rw [hb.pending]; exact hfree)
  -- an answered call leaves the calls as they were
  have hback : ∀ c, update (update b.pending m.who (some c)) m.who none = s.call := by
    intro c
    rw [update_idem, hb.pending, ← hfree, update_eq_self]
  cases h with
  | refused e he ht hvals hgives hlog' =>
    have hstep : Spec.Step
        ⟨b.vals, update b.pending m.who (some ⟨m.id, m.sops.getD []⟩)⟩
        (.refused m.who ⟨m.id, m.sops.getD []⟩ e) ⟨b.vals, _⟩ :=
      .refused (update_self _ _ _) he
    have hall := (hlog.snoc (hcalled ⟨m.id, m.sops.getD []⟩)).snoc hstep
    rw [append_assoc] at hall
    have hagree := hb.congr ht.same ht.call hvals
    exact ⟨⟨b.vals, _⟩, hlog' ▸ hall, (hback _).trans ht.call.symm, hagree.vals, hagree.max⟩
  | took i ops hcheck hall hmay ht hvals hgives hlog' =>
    obtain ⟨hi, hid, -, hnum, hnodup⟩ := checkOps_ok hcheck
    have hval : ∀ o ∈ ops, b.vals m.id o.num = s.vals i o.num := by
      intro o ho
      rw [← hid]
      exact hb.vals i o.num ⟨hi, hnum o ho⟩
    have hmax : ∀ o ∈ ops, (s.vals i o.num : Int) + o.op ≤ semVmx := by
      intro o ho
      obtain hma | hzero := hmay
      · exact hmeets.range m i ops rfl hcheck hma hall o ho
      · have := hb.max i o.num ⟨hi, hnum o ho⟩
        rw [hzero o ho]
        omega
    have hstep : Spec.Step ⟨b.vals, update b.pending m.who (some ⟨m.id, ops⟩)⟩
        (.took m.who ⟨m.id, ops⟩) ⟨update b.vals m.id (takeAll (b.vals m.id) ops),
          update (update b.pending m.who (some ⟨m.id, ops⟩)) m.who none⟩ := by
      apply Spec.Step.took (update_self _ _ _)
      · intro o ho
        rw [hval o ho]
        exact hall o ho
      · intro o ho
        rw [hval o ho]
        exact hmax o ho
    have hhist := (hlog.snoc (hcalled ⟨m.id, ops⟩)).snoc hstep
    rw [append_assoc] at hhist
    -- the values of the set, by the loop and at once
    have hgive : ∀ j, At s i j → takeAll (b.vals m.id) ops j = opsGive (s.vals i) ops j := by
      intro j hat
      rw [opsGive_eq hnodup hall hmax]
      apply takeAll_congr
      rw [← hid]
      exact hb.vals i j hat
    refine ⟨_, hlog' ▸ hhist, (hback _).trans ht.call.symm, fun i' j hat => ?_, fun i' j hat => ?_⟩
    · have hat0 := ht.same.at_iff.mp hat
      rw [ht.same.id, hvals]
      show update b.vals m.id _ (s.semList i').id j = _
      by_cases hi' : i' = i
      · subst hi'
        rw [hid, update_self, update_self]
        exact hgive j hat0
      · rw [update_of_ne hi', update_of_ne]
        · exact hb.vals i' j hat0
        · rw [← hid]
          exact fun heq => hi' (hs.ids i' i hat0.1 hi heq)
    have hat0 := ht.same.at_iff.mp hat
    rw [hvals]
    by_cases hi' : i' = i
    · subst hi'
      rw [update_self, opsGive_eq hnodup hall hmax]
      exact takeAll_le hmax (hb.max i' j hat0)
    · rw [update_of_ne hi']
      exact hb.max i' j hat0
  | waits i o hcheck hno hgives ht =>
    subst ht
    have hvals : ((s.called m.who ⟨m.id, [o]⟩).setSem i o.num
        ((s.sem i o.num).sleep m.who o)).vals = s.vals := by
      funext i' j
      unfold State.vals
      by_cases hij : i' = i ∧ j = o.num
      · obtain ⟨rfl, rfl⟩ := hij
        rw [setSem_sem_self]
        unfold Semaphore.sleep
        split <;> rfl
      · rw [setSem_sem_of_ne hij]
        rfl
    have hsame : SameSets (s.called m.who ⟨m.id, [o]⟩) ((s.called m.who ⟨m.id, [o]⟩).setSem i
        o.num ((s.sem i o.num).sleep m.who o)) := sameSets_setSem
    refine ⟨_, hlog.snoc (hcalled ⟨m.id, [o]⟩), ?_, fun i' j hat => ?_, fun i' j hat => ?_⟩
    · show update b.pending m.who _ = update s.call m.who _
      rw [hb.pending]
    · rw [hsame.id, hvals]
      exact hb.vals i' j (hsame.at_iff.mp hat)
    · rw [hvals]
      exact hb.max i' j (hsame.at_iff.mp hat)

theorem doSemop_carried (h : Inv s) (hatomic : Atomic s) (hfree : s.call m.who = none)
    (hmeets : MeetsAtomic s (.semop m)) : Carried s (.semop m) := by
  obtain ⟨t, hrun, hentered⟩ := doSemop_cases (hmeets.simple m rfl) hfree
  have hinv := hentered.inv h hfree
  have hatomic' := hentered.atomic h hatomic hfree hmeets
  have hpre : ∃ evs, t.log = s.log ++ evs ∧ (∀ e, Event.answered m.who e ∉ evs) ∧
      ∀ i j, At t i j → NoCrash (t.sem i j) := by
    cases hentered with
    | refused e he ht hvals hgives hlog =>
      refine ⟨_, hlog, by simp, fun i j hat => ?_⟩
      exact (ht.fit hvals).2 (hmeets.noCrash _ hgives i j (ht.same.at_iff.mp hat))
    | took i ops hcheck hall hmay ht hvals hgives hlog =>
      refine ⟨_, hlog, by simp, fun i j hat => ?_⟩
      exact (ht.fit rfl).2 (hmeets.noCrash _ hgives i j (ht.same.at_iff.mp hat))
    | waits i o hcheck hno hgives ht =>
      refine ⟨[.called m.who ⟨m.id, [o]⟩], by rw [ht]; rfl, by simp, fun a b hat => ?_⟩
      rw [ht] at hat ⊢
      have hcrash : NoCrash (s.sem a b) :=
        hmeets.noCrash _ hgives a b (sameSets_setSem.at_iff.mp hat)
      by_cases hab : a = i ∧ b = o.num
      · obtain ⟨rfl, rfl⟩ := hab
        rw [setSem_sem_self]
        exact hcrash.sleep hno
      · rw [setSem_sem_of_ne hab]
        exact hcrash
  obtain ⟨evs, hlog, hno, hcrash⟩ := hpre
  obtain ⟨s', evs', hupdate, hlog', hreply, hinv', hs', -⟩ := update_atomic hinv hatomic' hcrash
  refine ⟨s', evs ++ evs', hrun.trans hupdate, by rw [hlog', hlog, append_assoc],
    clean_of_no_answer fun e he => ?_, hinv', hs'⟩
  obtain he | he := mem_append.mp he
  · exact hno e he
  · exact hreply _ he

theorem answer_clean {e : Err} : Clean p [Event.answered p e] := by
  rintro ⟨e', -, -⟩ id num v
  simp

theorem doSemctl_carried {m : SemCtl} (h : Inv s) (hatomic : Atomic s)
    (hfree : s.call m.who = none) (hmeets : MeetsAtomic s (.semctl m)) :
    Carried s (.semctl m) := by
  cases doSemctl_cases m h with
  | answered e hgives hrun =>
    exact ⟨_, _, hrun, rfl, answer_clean, h.answer, hatomic.answer hfree⟩
  | removed i t hi hd hgives hrun =>
    obtain ⟨⟨evs, hlog, hreply⟩, hstill⟩ := refused_notes.run hd.refused
    have hfree' : (removeSemaphore t i).call m.who = none := hstill m.who hfree
    have hremoved : Atomic (removeSemaphore t i) := by
      obtain ⟨b, hhist, hb⟩ := hatomic.refused hd.refused
      refine ⟨b, hhist, hb.pending, fun a j hat => ?_, fun a j hat => ?_⟩
      · obtain ⟨ha, hat⟩ := removeSemaphore_at.mp hat
        unfold State.vals
        rw [removeSemaphore_sem ha, removeSemaphore_semList ha]
        exact hb.vals _ j hat
      · obtain ⟨ha, hat⟩ := removeSemaphore_at.mp hat
        unfold State.vals
        rw [removeSemaphore_sem ha]
        exact hb.max _ j hat
    refine ⟨_, evs ++ [.answered m.who .ok], hrun, ?_, ?_, (hd.inv h hi).answer,
      hremoved.answer hfree'⟩
    · show t.log ++ _ = _
      rw [hlog, append_assoc]
    rintro ⟨e, he, hmem⟩
    obtain hmem | hmem := mem_append.mp hmem
    · exact absurd (hreply _ hmem) id
    · cases mem_singleton.mp hmem
      exact absurd rfl he
  | valued t e ht hvalued hgives hclean hrun =>
    obtain ⟨⟨evs, hlog, hsetting⟩, hstill⟩ := valued_notes.run hvalued
    obtain ⟨s', evs', hupdate, hlog', hreply, hinv', hs', hstill'⟩ := update_atomic
      (h.valued hvalued) (hatomic.valued h hvalued) fun i j hat =>
        (ht.fit rfl).2 (hmeets.noCrash _ hgives i j (ht.same.at_iff.mp hat))
    have hfree' : s'.call m.who = none := hstill' m.who (hstill m.who hfree)
    refine ⟨_, evs ++ evs' ++ [.answered m.who e], by
      rw [show Request.run s (.semctl m) = doSemctl s m from rfl, hrun, hupdate, map_some],
      ?_, ?_, hinv'.answer, hs'.answer hfree'⟩
    · show s'.log ++ _ = _
      rw [hlog', hlog, append_assoc, append_assoc, append_assoc]
    rintro ⟨e', he', hmem⟩
    -- the answer is `e`, so with an error no value has been set
    have heq : e' = e := by
      obtain hmem | hmem := mem_append.mp hmem
      · obtain hmem | hmem := mem_append.mp hmem
        · exact absurd (hsetting _ hmem) id
        · exact absurd (hreply _ hmem) id
      · cases mem_singleton.mp hmem
        rfl
    have hsame := hclean (hmeets.uniform m rfl) (heq ▸ he')
    have hnil : evs = [] := by
      rw [hsame] at hlog
      exact append_right_eq_self.mp hlog.symm
    rw [hnil]
    intro id num v
    refine ⟨fun hin => ?_, fun hin => ?_⟩
    · obtain hin | hin := mem_append.mp hin
      · exact hreply _ hin
      · cases mem_singleton.mp hin
    · obtain hin | hin := mem_append.mp hin
      · exact hreply _ hin
      · cases mem_singleton.mp hin

theorem doSemget_carried {m : SemGet} (h : Inv s) (hatomic : Atomic s)
    (hfree : s.call m.who = none) : Carried s (.semget m) := by
  obtain ⟨e, hrun⟩ | ⟨key, nsems, hrun⟩ := doSemget_cases (s := s) m
  · exact ⟨_, [.answered m.who e], congrArg some hrun, rfl, answer_clean, h.answer,
      hatomic.answer hfree⟩
  have hcreated : Atomic (s.created key nsems) := by
    obtain ⟨b, hhist, hb⟩ := hatomic
    refine ⟨_, hhist.snoc .created, hb.pending, fun a j hat => ?_, fun a j hat => ?_⟩
    · show update b.vals s.identifier _ _ j = _
      unfold State.vals
      obtain hat | ⟨rfl, -⟩ := created_at.mp hat
      · rw [created_of_lt hat.1, created_sem_of_lt hat.1, update_of_ne (h.fresh a hat.1).ne]
        exact hb.vals a j hat
      · rw [created_last, created_sem_last, update_self]
        rfl
    unfold State.vals
    obtain hat | ⟨rfl, -⟩ := created_at.mp hat
    · rw [created_sem_of_lt hat.1]
      exact hb.max a j hat
    · rw [created_sem_last]
      exact Nat.zero_le _
  refine ⟨_, [.created s.identifier, .answered m.who .ok], congrArg some hrun, ?_, ?_,
    h.created.answer, hcreated.answer hfree⟩
  · show (s.log ++ [Event.created s.identifier]) ++ [Event.answered m.who .ok] = _
    rw [append_assoc]
    rfl
  · rintro ⟨e, he, hmem⟩
    simp at hmem
    exact absurd hmem.2 he

theorem doExit_carried (h : Inv s) (hatomic : Atomic s) : Carried s (.exit p) := by
  obtain ⟨t, hrun, hpruned, hfree⟩ := doExit_spec (p := p) h
  obtain ⟨⟨evs, hlog, hreply⟩, -⟩ := refused_notes.run hpruned.refused
  refine ⟨_, evs ++ [.exited p], hrun, ?_, clean_of_no_answer fun e he => ?_, hpruned.inv.note, ?_⟩
  · show t.log ++ _ = _
    rw [hlog, append_assoc]
  · obtain he | he := mem_append.mp he
    · exact hreply _ he
    · cases mem_singleton.mp he
  · obtain ⟨b, hhist, hb⟩ := hatomic.refused hpruned.refused
    exact ⟨b, hhist.snoc (.exited (by rw [hb.pending]; exact hfree)),
      hb.congr ⟨rfl, rfl, fun _ => rfl, fun _ => rfl⟩ rfl rfl⟩

theorem run_carried (h : Inv s) (hatomic : Atomic s) (hen : r.Enabled s)
    (hmeets : MeetsAtomic s r) : Carried s r := by
  cases r with
  | semget m => exact doSemget_carried h hatomic hen
  | semctl m => exact doSemctl_carried h hatomic hen hmeets
  | semop m => exact doSemop_carried h hatomic hen hmeets
  | exit p => exact doExit_carried h hatomic

theorem Boot.atomic (h : Boot s) : Atomic s := by
  refine ⟨⟨fun _ _ => 0, fun _ => none⟩, ?_, ?_, fun i j hat => absurd hat h.at,
    fun i j hat => absurd hat h.at⟩
  · rw [h.log]
    exact .nil
  · funext p
    exact (h.call p).symm

theorem Runs.atomic (h : Runs MeetsAtomic s) : Inv s ∧ Atomic s := by
  induction h with
  | boot h => exact ⟨h.inv, h.atomic⟩
  | step h hen hP hrun ih =>
    obtain ⟨s', evs, hrun', -, -, hinv, hatomic⟩ := run_carried ih.1 ih.2 hen hP
    rw [hrun'] at hrun
    cases hrun
    exact ⟨hinv, hatomic⟩

/-- Calls are taken as a whole and answered once, the values are those of the history and in range,
and a failed request has set none. -/
theorem semaphores_atomic (h : Runs MeetsAtomic s) :
    Atomic s ∧ ∀ r : Request, r.Enabled s → MeetsAtomic s r → Carried s r :=
  ⟨h.atomic.2, fun _ hen hmeets => run_carried h.atomic.1 h.atomic.2 hen hmeets⟩

/-! ## Concrete runs -/

/-- A set of two semaphores, by process 1. -/
def getTwo : SemGet := ⟨1, none, 2, true, false, true⟩

/-- Two operations at once, by process 2. -/
def twoOps (op op' : Int) : SemOp :=
  ⟨2, 1, 2, some [⟨0, op, false, true⟩, ⟨1, op', false, true⟩], true, true, true⟩

theorem getTwo_sem : (doSemget bootState getTwo).sem 0 j = zeroSem := rfl

/-- Both values are raised at once. -/
theorem semaphores_atomic_raise : ∃ s, s.vals 0 0 = 1 ∧ s.vals 0 1 = 2 ∧ s.call 2 = none ∧
    (Atomic s ∧ ∀ r : Request, r.Enabled s → MeetsAtomic s r → Carried s r) := by
  have hfirst : Runs MeetsAtomic (doSemget bootState getTwo) := by
    refine (Runs.boot boot_bootState).step (r := .semget getTwo) rfl ⟨?_, ?_, ?_, ?_⟩ rfl
    · exact fun m hm => (by cases hm)
    · exact fun m i ops hm => (by cases hm)
    · exact fun m hm => (by cases hm)
    · exact fun f hf => (by cases hf)
  have hone : ∀ i, i < (doSemget bootState getTwo).semListNr → i = 0 := fun i hi =>
    Nat.lt_one_iff.mp hi
  -- an operation that adds never has to wait
  have hcan : ∀ v, ∀ o ∈ ((twoOps 1 2).sops.getD []), CanProceed v o ∧ o.op ≤ 2 := by
    intro v o ho
    simp only [twoOps, getD_some, mem_cons, not_mem_nil, or_false] at ho
    obtain rfl | rfl := ho
    · exact ⟨⟨fun h => absurd h (by decide), fun h => absurd h (by decide)⟩, by decide⟩
    · exact ⟨⟨fun h => absurd h (by decide), fun h => absurd h (by decide)⟩, by decide⟩
  have hmeets : MeetsAtomic (doSemget bootState getTwo) (.semop (twoOps 1 2)) := by
    refine ⟨?_, ?_, fun m hm => (by cases hm), ?_⟩
    · rintro m ⟨⟩
      refine ⟨fun i ops hc => .inr fun o ho => ?_, fun i ops hc o ho hno => ?_⟩
      · obtain ⟨-, -, hops, -⟩ := checkOps_ok hc
        exact (hcan _ o (by rw [hops]; exact ho)).1
      · obtain ⟨-, -, hops, -⟩ := checkOps_ok hc
        exact absurd (hcan _ o (by rw [hops]; exact ho)).1 hno
    · rintro m i ops ⟨⟩ hc - - o ho
      obtain ⟨hi, -, hops, -⟩ := checkOps_ok hc
      obtain rfl := hone i hi
      have hle := (hcan 0 o (by rw [hops]; exact ho)).2
      unfold State.vals semVmx
      rw [getTwo_sem]
      show ((0 : Nat) : Int) + o.op ≤ _
      omega
    · intro f hf i j hat
      obtain rfl := hone i hat.1
      rw [getTwo_sem]
      simp [NoCrash, zeroSem]
  have h : ((Request.semop (twoOps 1 2)).run (doSemget bootState getTwo)).any (fun s =>
      decide (s.vals 0 0 = 1 ∧ s.vals 0 1 = 2 ∧ s.call 2 = none)) = true := by
    decide +kernel
  obtain ⟨s, hrun, hs⟩ := (Option.any_eq_true _ _).mp h
  obtain ⟨hv0, hv1, hcall⟩ := of_decide_eq_true hs
  exact ⟨s, hv0, hv1, hcall, semaphores_atomic (hfirst.step (by decide +kernel) hmeets hrun)⟩

theorem History.snoc_inv {e : Event} {b : Spec} (h : History (log ++ [e]) b) :
    ∃ b', History log b' ∧ b'.Step e b := by
  generalize hl : log ++ [e] = l at h
  cases h with
  | nil => simp at hl
  | snoc h hstep =>
    obtain ⟨rfl, he⟩ := append_inj' hl rfl
    cases he
    exact ⟨_, h, hstep⟩

/-- A call adds to the first semaphore and has to wait for the second one. -/
theorem call_taken_in_part : ∃ s s', Runs (fun _ _ => True) s ∧
    (Request.semop (twoOps 1 (-1))).Enabled s ∧
    (Request.semop (twoOps 1 (-1))).run s = some s' ∧ ¬ Atomic s' := by
  have h : ((Request.semop (twoOps 1 (-1))).run (doSemget bootState getTwo)).any (fun s =>
      decide (s.vals 0 0 = 1 ∧ s.semListNr = 1 ∧ (s.semList 0).nsems = 2 ∧
        (s.semList 0).id = 1)) = true := by
    decide +kernel
  obtain ⟨s', hrun, hs⟩ := (Option.any_eq_true _ _).mp h
  obtain ⟨hval, hnr, hn, hid⟩ := of_decide_eq_true hs
  have hlog : ∃ c, s'.log = ([.created 1] ++ [.answered 1 .ok]) ++ [.called 2 c] := by
    have hmap : ((Request.semop (twoOps 1 (-1))).run (doSemget bootState getTwo)).map State.log =
      some [.created 1, .answered 1 .ok, .called 2 ⟨1, (twoOps 1 (-1)).sops.getD []⟩] := rfl
    rw [hrun] at hmap
    exact ⟨_, some.inj hmap⟩
  refine ⟨_, s', (Runs.boot boot_bootState).step (r := .semget getTwo) rfl trivial rfl,
    by decide +kernel, hrun, ?_⟩
  rintro ⟨b, hhist, hb⟩
  obtain ⟨c, hlog⟩ := hlog
  rw [hlog] at hhist
  obtain ⟨b2, hhist2, hstep2⟩ := hhist.snoc_inv
  obtain ⟨b1, hhist1, hstep1⟩ := hhist2.snoc_inv
  have hfirst : History ([] ++ [.created 1]) b1 := hhist1
  obtain ⟨b0, -, hstep0⟩ := hfirst.snoc_inv
  have hzero : b.vals 1 0 = 0 := by
    cases hstep2
    cases hstep1
    cases hstep0
    rfl
  have hat : At s' 0 0 := ⟨by omega, by omega⟩
  have := hb.vals 0 0 hat
  rw [hid, hzero, hval] at this
  cases this

end HardenedMinix.Sem
