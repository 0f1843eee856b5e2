import HardenedMinix.Ds.SubscribersRuns

/-!
# Every publication is reported

What is due is reported by the checks of the subscriber, in runs in which names stay with their
owners.
-/

open Function List

namespace HardenedMinix.Ds

open Lib

variable {s s' t : State} {i j : Slot} {k : SubSlot} {key o : Key} {ty : Ty} {r : Request}
  {n : NamePtr}

/-! ## Checks -/

theorem Served.lookupSub (h : Served s) (hk : (s.subs k).inUse = true)
    (ho : (s.subs k).owner = o) : lookupSub s o = some k := by
  cases hl : Ds.lookupSub s o with
  | none => exact absurd ho (lookupSub_none hl hk)
  | some k' =>
    obtain ⟨hk', ho'⟩ := lookupSub_some hl
    rw [h.single k' k hk' hk (ho'.trans ho.symm)]

/-- The number of entries that a subscription still has to report. -/
def pending (s : State) (k : SubSlot) : ℕ :=
  (Finset.univ.filter fun i => (s.subs k).oldSubs i = true).card

variable {source : Endpoint}

theorem due_reported (h : Served s) (hn : getprocname s source = some n)
    (hk : (s.subs k).inUse = true) (ho : (s.subs k).owner = n.text s)
    (hbit : (s.subs k).oldSubs i = true) :
    ∃ c < pending s k, ∃ ep t,
      handle ((List.replicate c (.check source none)).foldl step s) (.check source none) =
        some (.report (s.store i).key [(s.store i).type] ep, t) := by
  -- each check reports one of the entries, and there is one less to report
  induction hp : pending s k using Nat.strong_induction_on generalizing s with
  | _ p ih =>
    have hl := h.lookupSub hk ho
    obtain ⟨i1, hi1⟩ : ∃ i1, (List.finRange nrDsKeys).find? (s.subs k).oldSubs = some i1 := by
      rw [← Option.isSome_iff_exists, List.find?_isSome]
      exact ⟨i, mem_finRange i, hbit⟩
    have hbit1 : (s.subs k).oldSubs i1 = true := List.find?_some hi1
    obtain ⟨j, hj⟩ := h.entries i1 (h.bits k i1 hk hbit1).2.1
    have hrun := report_run h hn hl hi1 hj
    by_cases hii : i1 = i
    · subst hii
      refine ⟨0, ?_, _, _, hrun⟩
      rw [← hp]
      exact Finset.card_pos.mpr ⟨i1, by simp [hbit]⟩
    obtain ⟨reply, t, hserves⟩ := doCheck_serves source none h
    have hrun' := hserves.run
    rw [hrun] at hrun'
    obtain ⟨-, rfl⟩ := Prod.mk.inj (Option.some.inj hrun')
    generalize ht : s.setSub k { s.subs k with
      oldSubs := update (s.subs k).oldSubs i1 false } = t at hrun hserves
    have hself : t.subs k = { s.subs k with
        oldSubs := update (s.subs k).oldSubs i1 false } := by
      rw [← ht]
      exact update_self _ _ _
    have hstore : t.store = s.store := by
      rw [← ht]
      rfl
    have hbits : ∀ i', (t.subs k).oldSubs i' = update (s.subs k).oldSubs i1 false i' := by
      intro i'
      rw [hself]
    have hless : pending t k < pending s k := by
      apply Finset.card_lt_card
      rw [Finset.ssubset_iff_of_subset]
      · refine ⟨i1, by simp [hbit1], ?_⟩
        simp [hbits]
      intro i' hi'
      rw [Finset.mem_filter] at hi' ⊢
      refine ⟨Finset.mem_univ _, ?_⟩
      have hi'' := hi'.2
      rw [hbits] at hi''
      by_cases hne : i' = i1
      · rw [hne, update_self] at hi''
        cases hi''
      · rwa [update_of_ne hne] at hi''
    have hname : getprocname t source = some n := by
      rw [← hn]
      unfold getprocname lookupLabelEntry
      rw [hstore]
    have htext : n.text t = n.text s := by
      unfold NamePtr.text
      rw [hstore]
    obtain ⟨c, hc, ep, u, hlast⟩ := ih (pending t k) (hp ▸ hless) hserves.served hname
      (by rw [hself]; exact hk) (by rw [hself, htext]; exact ho)
      (by rw [hbits, update_of_ne (Ne.symm hii)]; exact hbit) rfl
    refine ⟨c + 1, by omega, ep, u, ?_⟩
    have hstep : step s (.check source none) = t := by
      unfold step
      rw [hrun]
      rfl
    rw [replicate_succ, foldl_cons, hstep, hlast, hstore]

/-- No panic, reports of entries in use whose owner is registered, and none only if nothing is due.
-/
def Answers (s : State) (r : Request) : Prop :=
  ∃ reply t, handle s r = some (reply, t) ∧ ∀ source copy, r = .check source copy →
    (∀ key types ep, reply = .report key types ep → ∃ i j, (s.store i).inUse = true ∧
      (s.store i).key = key ∧ types = [(s.store i).type] ∧ IsLabel s (s.store i).owner j ∧
      ep = (s.store j).u32) ∧
    ∀ n, copy = none → getprocname s source = some n → reply = .error .enoent →
      ∀ key ty, ¬ Due (n.text s) key ty s

theorem doCheck_answers {copy : Option Err} (h : Served s) : Answers s (.check source copy) := by
  have herr : ∀ e, doCheck s source copy = some (.error e, s) →
      (∀ n, copy = none → getprocname s source = some n → e = .enoent →
        ∀ key ty, ¬ Due (n.text s) key ty s) → Answers s (.check source copy) := by
    intro e hrun hnone
    refine ⟨_, _, hrun, ?_⟩
    rintro source' copy' ⟨⟩
    refine ⟨fun key types ep hreply => ?_, fun n hcopy hn hreply => ?_⟩
    · cases hreply
    · cases hreply
      exact hnone n hcopy hn rfl
  cases hn : getprocname s source with
  | none =>
    apply herr .esrch (by simp [doCheck, hn])
    intro n' _ _ hbad
    cases hbad
  | some n =>
    cases hk : Ds.lookupSub s (n.text s) with
    | none =>
      apply herr .esrch (by simp [doCheck, hn, hk])
      intro n' _ _ hbad
      cases hbad
    | some k =>
      obtain ⟨hused, hown⟩ := lookupSub_some hk
      cases hi : (List.finRange nrDsKeys).find? (s.subs k).oldSubs with
      | none =>
        apply herr .enoent (by simp [doCheck, hn, hk, hi])
        rintro n' - hn' - key ty ⟨k', i, hk', ho, hbit, -⟩
        rw [hn] at hn'
        cases hn'
        rw [h.single k' k hk' hused (ho.trans hown.symm)] at hbit
        exact List.find?_eq_none.mp hi i (mem_finRange i) hbit
      | some i =>
        cases copy with
        | some e =>
          apply herr e (by simp [doCheck, hn, hk, hi])
          intro n' hbad
          cases hbad
        | none =>
          have hint := h.bits k i hused (List.find?_some hi)
          obtain ⟨j, hj⟩ := h.entries i hint.2.1
          refine ⟨_, _, report_run h hn hk hi hj, ?_⟩
          rintro source' copy' ⟨⟩
          refine ⟨fun key types ep hreply => ?_, fun n' _ _ hreply => ?_⟩
          · cases hreply
            exact ⟨i, j, hint.2.1, rfl, rfl, hj, rfl⟩
          · cases hreply

/-! ## Main result -/

theorem doRetrieve_tags {k : Except Err Key} {types : List Ty} {length : Nat}
    {copy : Option Err} : SameTags s (doRetrieve s source k types length copy).2 ∧
      (doRetrieve s source k types length copy).1 ≠ .ok := by
  have hmem : ∀ e, SameTags s (retrieveMem s e length copy).2 ∧
      (retrieveMem s e length copy).1 ≠ .ok := by
    intro e
    unfold retrieveMem
    split
    next => exact ⟨.of_eq rfl rfl, by simp⟩
    split
    next => exact ⟨.refl s, by simp⟩
    next => exact ⟨.refl s, by simp⟩
  unfold doRetrieve
  split
  next => exact ⟨.refl s, by simp⟩
  split
  next => exact ⟨.refl s, by simp⟩
  simp only
  split_ifs
  · exact ⟨.refl s, by simp⟩
  split
  next => exact ⟨.refl s, by simp⟩
  next => exact ⟨.refl s, by simp⟩
  next => exact hmem _
  next => exact hmem _
  next => exact ⟨.refl s, by simp⟩

theorem handle_serves (h : Served s) (hfrom : FromOther r) (hfair : Fair s r) :
    ∃ reply t, Serves s r reply t := by
  cases r with
  | publish m => exact doPublish_serves h hfrom hfair
  | subscribe m => exact doSubscribe_serves h hfrom hfair
  | check source copy => exact doCheck_serves source copy h
  | delete source k types => exact doDelete_serves h hfair
  | retrieve source k types length copy =>
    exact ⟨_, _, .of_tags rfl doRetrieve_tags.2 doRetrieve_tags.1 h⟩
  | retrieveLabel num copy =>
    refine ⟨_, _, .of_tags rfl ?_ (.refl s) h⟩
    unfold doRetrieveLabel
    split
    next => simp
    split
    next => simp
    next => simp

theorem handle_answers (h : Served s) (hfrom : FromOther r) (hfair : Fair s r) : Answers s r := by
  obtain ⟨reply, t, hserves⟩ := handle_serves h hfrom hfair
  cases r with
  | check source copy => exact doCheck_answers h
  | publish m => exact ⟨reply, t, hserves.run, by rintro source copy ⟨⟩⟩
  | subscribe m => exact ⟨reply, t, hserves.run, by rintro source copy ⟨⟩⟩
  | delete source k types => exact ⟨reply, t, hserves.run, by rintro source copy ⟨⟩⟩
  | retrieve source k types length copy => exact ⟨reply, t, hserves.run, by rintro source copy ⟨⟩⟩
  | retrieveLabel num copy => exact ⟨reply, t, hserves.run, by rintro source copy ⟨⟩⟩

theorem Serves.step {reply : Reply} (h : Serves s r reply t) : step s r = t := by
  unfold Ds.step
  rw [h.run]
  rfl

theorem served_boot (h : Boot s) : Served s := by
  have hreg : Registered s ['r', 's'] := by
    obtain ⟨i, hi, hkey, -⟩ := h.rs
    exact ⟨i, hi, (h.labels i hi).1, hkey⟩
  have hnames : Names s := by
    refine ⟨fun i j hi hj hkey _ => h.keys i j hi hj hkey,
      fun i j hi hj _ _ hnum => h.numbers i j hi hj hnum, fun i hi _ hnum => ?_⟩
    obtain ⟨j, hj, hkey, hds⟩ := h.ds
    rw [h.numbers i j hi hj (hnum.trans hds.symm)]
    exact hkey
  have hno : ∀ k, (s.subs k).inUse ≠ true := by
    intro k hk
    rw [h.subs k] at hk
    cases hk
  refine ⟨⟨hnames, fun k hk => absurd hk (hno k), fun k _ hk => absurd hk (hno k),
    fun k _ hk => absurd hk (hno k)⟩, fun i hi => ?_⟩
  rw [(h.labels i hi).2]
  exact hreg

/-- In every run in which names stay with their owners and nothing is taken from those who wait, the
server does not panic, what is promised stays due until that has ended, and what is due is reported.
-/
theorem subscribers_miss_nothing {rs : List Request} (hboot : Boot s)
    (h : Along step (fun s r => FromOther r ∧ Fair s r) s rs) :
    Along step Answers s rs ∧ Served (rs.foldl step s) ∧
    (∀ o key ty ps r qs, rs = ps ++ r :: qs → Promised o key ty (ps.foldl step s) r →
      Due o key ty (rs.foldl step s) ∨ ∃ bs a cs, qs = bs ++ a :: cs ∧
        Ended o key ty ((ps ++ r :: bs).foldl step s) a) ∧
    ∀ o key ty, Due o key ty (rs.foldl step s) → ∃ source n,
      getprocname (rs.foldl step s) source = some n ∧ n.text (rs.foldl step s) = o ∧
      ∃ c < nrDsKeys, ∃ ep t,
        handle ((rs ++ List.replicate c (Request.check source none)).foldl step s) (.check source none) =
          some (.report key [ty] ep, t) := by
  have hkept : ∀ s r, Served s → FromOther r ∧ Fair s r → Answers s r ∧ Served (step s r) := by
    intro s r hs hr
    obtain ⟨reply, t, hserves⟩ := handle_serves hs hr.1 hr.2
    rw [hserves.step]
    exact ⟨handle_answers hs hr.1 hr.2, hserves.served⟩
  obtain ⟨hanswers, hserved⟩ := Along.run hkept (served_boot hboot) h
  refine ⟨hanswers, hserved, fun o key ty ps r qs hrs hpromised => ?_, fun o key ty hdue => ?_⟩
  · subst hrs
    obtain ⟨-, hps⟩ := Along.run hkept (served_boot hboot) h.of_append
    obtain ⟨hr, hqs⟩ := h.append_right
    obtain ⟨reply, t, hserves⟩ := handle_serves hps hr.1 hr.2
    have hdue := hserves.promised o key ty hpromised
    rw [hserves.step] at hqs
    have huntil := Along.until (E := Ended o key ty) (fun s r hs hr => ?_) hserves.served hqs hdue
    · simp only [foldl_append, foldl_cons, hserves.step]
      exact huntil
    · obtain ⟨reply, t, hserves⟩ := handle_serves hs hr.1 hr.2
      rw [hserves.step]
      exact ⟨hserves.served, hserves.due o key ty⟩
  obtain ⟨k, i, hk, ho, hbit, -, rfl, rfl⟩ := hdue
  obtain ⟨j, hj⟩ := hserved.subs k hk
  obtain ⟨n, hn, htext⟩ := hserved.names.getprocname hj
  obtain ⟨c, hc, ep, t, hlast⟩ := due_reported hserved hn hk htext.symm hbit
  refine ⟨_, n, hn, htext.trans ho, c, hc.trans_le ?_, ep, t, ?_⟩
  · exact (Finset.card_le_univ _).trans (by simp)
  · rw [foldl_append]
    exact hlast

/-! ## A service that is told -/

instance (r : Request) : Decidable (FromOther r) := by
  cases r with
  | publish m => exact inferInstanceAs (Decidable (_ ≠ _))
  | subscribe m => exact inferInstanceAs (Decidable (_ ≠ _))
  | check source copy => exact inferInstanceAs (Decidable (_ ≠ _))
  | delete source k types => exact inferInstanceAs (Decidable (_ ≠ _))
  | retrieve source k types length copy => exact inferInstanceAs (Decidable True)
  | retrieveLabel num copy => exact inferInstanceAs (Decidable True)

theorem fair_new {m : Publish} (hkey : m.key = .ok key) (hds : m.val ≠ dsProcNr)
    (hnew : ∀ j, (s.store j).inUse = true → (s.store j).key ≠ key ∧ (s.store j).u32 ≠ m.val) :
    Fair s (.publish m) := by
  intro key' i n _ _ hkey' htarget _
  rw [hkey] at hkey'
  cases hkey'
  have hnot : (s.store i).inUse ≠ true := by
    obtain ⟨hfree, -⟩ | ⟨hused, -, hki⟩ | ⟨hused, -, -, hnum, -⟩ := publishTarget_ok htarget
    · simp [hfree]
    · exact absurd hki (hnew i hused).1
    · exact absurd hnum (hnew i hused).2
  exact ⟨fun _ => ⟨fun hval => absurd hval hds, fun j _ hj _ => (hnew j hj).2⟩,
    fun hused => absurd hused hnot, fun hused => absurd hused hnot⟩

/-- A service publishes a number. -/
def publishNum (source : Endpoint) (key : Key) (priv : Priv) (val : Nat) : Request :=
  .publish ⟨source, .ok key, [.u32], priv, true, val, 0, none, .error .copy⟩

/-- A service subscribes to numbers. -/
def subscribeNums (source : Endpoint) (compiled : Compiled) : Request :=
  .subscribe ⟨source, .ok [], [.u32], true, false, compiled⟩

def openToAll : Priv := ⟨false, false, false⟩

/-- The service `b` subscribes to the key `k`, which the service `a` can publish. -/
def subscribed : List Request :=
  [publishLabel ['a'] 20, publishLabel ['b'] 21, subscribeNums 21 (.ok fun key => key = ['k'])]

def firstSub : SubSlot := ⟨0, by decide⟩

theorem subscribers_miss_nothing_one :
    ∃ source n, getprocname ((subscribed ++ [publishNum 20 ['k'] openToAll 5]).foldl step bootState)
        source = some n ∧
      ∃ c < nrDsKeys, ∃ ep t, handle (((subscribed ++ [publishNum 20 ['k'] openToAll 5]) ++
          List.replicate c (Request.check source none)).foldl step bootState) (.check source none) =
          some (.report ['k'] [.u32] ep, t) := by
  have hrun : Along step (fun s r => FromOther r ∧ Fair s r) bootState
      (subscribed ++ [publishNum 20 ['k'] openToAll 5]) := by
    refine ⟨⟨by decide, fair_new rfl (by decide) (by decide +kernel)⟩,
      ⟨by decide, fair_new rfl (by decide) (by decide +kernel)⟩, ⟨by decide, ?_⟩,
      ⟨by decide, fair_new rfl (by decide) (by decide +kernel)⟩, trivial⟩
    rintro n k - - - - ⟨⟩
  have hpublished : (handle (subscribed.foldl step bootState) (publishNum 20 ['k'] openToAll 5)).any
      (fun x => decide (x.1 = .ok ∧ (x.2.subs firstSub).owner = ['b'] ∧
        Interested (x.2.subs firstSub) (x.2.store 4) ∧ (x.2.store 4).key = ['k'] ∧
        (x.2.store 4).type = .u32)) = true := by
    decide +kernel
  obtain ⟨⟨reply, t⟩, hpublish, hx⟩ := (Option.any_eq_true _ _).mp hpublished
  obtain ⟨hreply, howner, hint, hkey, hty⟩ := of_decide_eq_true hx
  have hreply' : reply = .ok := hreply
  subst hreply'
  obtain ⟨-, -, hdue, hreport⟩ := subscribers_miss_nothing boot_bootState hrun
  have hpromised : Promised ['b'] ['k'] .u32 (subscribed.foldl step bootState)
      (publishNum 20 ['k'] openToAll 5) :=
    ⟨t, firstSub, 4, hpublish, howner, hint, hkey, hty, .inl ⟨_, rfl, rfl, rfl⟩⟩
  obtain hdue | ⟨bs, a, cs, hbad, -⟩ := hdue _ _ _ subscribed _ [] rfl hpromised
  · obtain ⟨source, n, hn, -, hlast⟩ := hreport _ _ _ hdue
    exact ⟨source, n, hn, hlast⟩
  · simp at hbad

instance (s : State) (o : Key) (j : Slot) : Decidable (IsLabel s o j) :=
  inferInstanceAs (Decidable (_ ∧ _))

/-- A renamed service, an entry that is hidden and then deleted, and a pattern that does not
compile. -/
theorem names_are_lost : (∃ rs, Along step (fun _ r => FromOther r) bootState rs ∧
      handle (rs.foldl step bootState) (.check 21 none) = none ∧
      ∃ i, ((rs.foldl step bootState).store i).inUse = true ∧
        ¬ Registered (rs.foldl step bootState) ((rs.foldl step bootState).store i).owner) ∧
    (∃ rs, Along step (fun _ r => FromOther r) bootState rs ∧
      (handle (rs.foldl step bootState) (.check 21 none)).map Prod.fst =
        some (.report ['k'] [] 20)) ∧
    ∃ rs, Along step (fun _ r => FromOther r) bootState (subscribed ++ rs) ∧
      (handle ((subscribed ++ rs).foldl step bootState) (publishNum 20 ['k'] openToAll 5)).map
        Prod.fst = some .ok ∧
      (handle ((subscribed ++ rs ++ [publishNum 20 ['k'] openToAll 5]).foldl step bootState)
        (.check 21 none)).map Prod.fst = some (.error .enoent) := by
  have hother : ∀ rs, (∀ r ∈ rs, FromOther r) → ∀ s, Along step (fun _ r => FromOther r) s rs := by
    intro rs
    induction rs with
    | nil => exact fun _ _ => trivial
    | cons r rs ih =>
      exact fun h s => ⟨h r mem_cons_self, ih (fun r' hr' => h r' (mem_cons_of_mem _ hr')) _⟩
  refine ⟨⟨subscribed ++ [publishNum 20 ['k'] openToAll 5, publishLabel ['c'] 20],
    hother _ ?_ _, ?_, 4, ?_, ?_⟩, ⟨subscribed ++ [publishNum 20 ['k'] openToAll 5,
      publishNum 20 ['k'] ⟨false, false, true⟩ 5, .delete 20 (.ok ['k']) [.u32]],
    hother _ ?_ _, ?_⟩, ⟨[subscribeNums 21 .badPattern], hother _ ?_ _, ?_, ?_⟩⟩
  · decide
  · rw [← Option.isNone_iff_eq_none]
    decide +kernel
  · decide +kernel
  · rintro ⟨j, hj⟩
    revert j
    decide +kernel
  · decide
  · decide +kernel
  · decide
  · decide +kernel
  · decide +kernel

end HardenedMinix.Ds
