import HardenedMinix.Ipc.Steps

/-!
# The caller queues

One link field per process serves all the queues. `Queues c s Q`: the queue of `d` is the list `Q
d` of the processes blocked sending to `d`. `clear_ipc` takes a process off its queue and leaves
its link, and the next `mini_send` runs into the assertion on it.
-/

open Function List

namespace HardenedMinix.Ipc

open Lib

variable {β : Type} {c : Conf} {s s' s₁ s₂ : State β} {p q d rc : ProcNr} {e : Endpoint}
  {r : Errno} {tabs : Tables β} {b : β} {Q : ProcNr → List ProcNr}

/-! ## The representation -/

/-- The queue of `d` is `Q d`, the processes blocked sending to `d`. -/
structure Queues (c : Conf) (s : State β) (Q : ProcNr → List ProcNr) : Prop where
  chain : ∀ d, Chain s.proc (s.proc d).callerQ (Q d)
  mem : ∀ p d, p ∈ Q d ↔ (s.proc p).sending = true ∧ (s.proc p).sendtoE = c.endpoint d
  target : ∀ p, (s.proc p).sending = true →
    ∃ d, (s.proc p).sendtoE = c.endpoint d ∧ (s.proc d).slotFree = false
  free : ∀ p, (s.proc p).slotFree = true → (s.proc p).sending = false

/-- What the queues are made of is as before. -/
structure SameQueues (x y : IpcProc β) : Prop where
  slotFree : x.slotFree = y.slotFree
  sending : x.sending = y.sending
  sendtoE : x.sendtoE = y.sendtoE
  callerQ : x.callerQ = y.callerQ
  qLink : x.qLink = y.qLink

theorem Quiet.sameQueues (h : Quiet s s') (p : ProcNr) : SameQueues (s'.proc p) (s.proc p) :=
  ⟨h.slotFree p, h.sending p, h.sendtoE p, h.callerQ p, h.qLink p⟩

namespace Queues

variable (hQ : Queues c s Q)
include hQ

theorem disjoint {d d' : ProcNr} (h : p ∈ Q d) (h' : p ∈ Q d') : d = d' := by
  have h1 := ((hQ.mem p d).mp h).2
  have h2 := ((hQ.mem p d').mp h').2
  exact c.endpoint_inj.mp (h1.symm.trans h2)

theorem not_mem (h : (s.proc p).sending = false) (d : ProcNr) : p ∉ Q d := by
  intro hmem
  have hsend := ((hQ.mem p d).mp hmem).1
  rw [h] at hsend
  exact absurd hsend (by simp)

theorem of_same (h : ∀ p, SameQueues (s'.proc p) (s.proc p)) : Queues c s' Q := by
  constructor
  case chain =>
    intro d
    rw [(h d).callerQ]
    exact (hQ.chain d).congr (fun i _ => (h i).qLink)
  case mem =>
    intro p d
    rw [(h p).sending, (h p).sendtoE]
    exact hQ.mem p d
  case target =>
    intro p hp
    rw [(h p).sending] at hp
    obtain ⟨d, hd, hfree⟩ := hQ.target p hp
    exact ⟨d, by rw [(h p).sendtoE]; exact hd, by rw [(h d).slotFree]; exact hfree⟩
  case free =>
    intro p hp
    rw [(h p).slotFree] at hp
    rw [(h p).sending]
    exact hQ.free p hp

theorem of_quiet (h : Quiet s s') : Queues c s' Q := hQ.of_same h.sameQueues

theorem follow_eq (d : ProcNr) : follow s.proc nrSlots (s.proc d).callerQ = Q d :=
  (hQ.chain d).follow_eq

end Queues

variable {flags : SendFlags} {src : Option ProcNr} {ret : Errno} {l : List ProcNr} {nb : Bool}

theorem queueSend_spec (hQ : Queues c s Q) (hsend : (s.proc p).sending = false)
    (hfree : (s.proc p).slotFree = false) (hd : (s.proc d).slotFree = false) (h : queueSend s p d (c.endpoint d) b flags = .ok s') :
    Queues c s' (update Q d (Q d ++ [p])) ∧
      ∀ j, (s.proc j).sending = false → (s'.proc j).qLink = (s.proc j).qLink := by
  have hqueued := queueSend_queued h
  unfold queueSend at h
  simp only at h
  generalize hs1 : s.set p { s.proc p with
    sendmsg := some b
    sendingFromKernel := (s.proc p).sendingFromKernel || flags.fromKernel
    sending := true
    sendtoE := c.endpoint d } = s₁ at h
  -- the links and heads of `s₁` are still those of `s`
  have hlinks : ∀ j, (s₁.proc j).qLink = (s.proc j).qLink ∧
      (s₁.proc j).callerQ = (s.proc j).callerQ := by
    intro j
    by_cases hj : j = p
    · subst hj
      rw [← hs1, State.set_proc_self]
      exact ⟨rfl, rfl⟩
    · rw [← hs1, State.set_proc_of_ne _ _ hj]
      exact ⟨rfl, rfl⟩
  have hchain : ∀ d', Chain s₁.proc (s₁.proc d').callerQ (Q d') := by
    intro d'
    rw [(hlinks d').2]
    exact (hQ.chain d').congr (fun i _ => (hlinks i).1)
  split at h
  case isTrue => cases h
  rename_i hlink
  have hnone : (s₁.proc p).qLink = none := by simpa using hlink
  obtain ⟨t, head, henq, hc, hframe⟩ := enqueueLast_spec (hchain d) (hQ.not_mem hsend d) hnone
  have hset := enqueueLast_sets henq
  rw [henq] at h
  cases h
  -- the table written back: links from `t`, the head of `d` replaced
  generalize hs' : update t d { t d with callerQ := head } = t' at *
  have hq : ∀ j, (t' j).qLink = (t j).qLink := by
    intro j
    by_cases hj : j = d
    · subst hj
      rw [← hs', update_self]
    · rw [← hs', update_of_ne hj]
  have hqc : ∀ j, (t' j).callerQ = if j = d then head else (s₁.proc j).callerQ := by
    intro j
    by_cases hj : j = d
    · subst hj
      rw [← hs', update_self, if_pos rfl]
    · obtain ⟨o, ho⟩ := hset j
      rw [← hs', update_of_ne hj, if_neg hj, ho]
      rfl
  refine ⟨⟨?_, ?_, ?_, ?_⟩, ?_⟩
  case refine_1 =>
    intro d'
    show Chain t' (t' d').callerQ _
    rw [hqc]
    by_cases hd' : d' = d
    · subst hd'
      rw [if_pos rfl, update_self]
      exact hc.congr (fun i _ => hq i)
    rw [if_neg hd', update_of_ne hd']
    apply (hchain d').congr
    intro i hi
    have hnot : i ∉ Q d := fun hmem => hd' (hQ.disjoint hi hmem)
    show (t' i).qLink = _
    rw [hq, hframe i hnot]
    rfl
  case refine_2 =>
    intro j d'
    by_cases hj : j = p
    · subst hj
      rw [hqueued.sender.sending, hqueued.sender.sendtoE]
      by_cases hd' : d' = d
      · subst hd'
        simp
      · rw [update_of_ne hd']
        simp only [true_and, hQ.not_mem hsend d', false_iff]
        intro heq
        exact hd' (c.endpoint_inj.mp heq).symm
    rw [(hqueued.others j hj).sending, (hqueued.others j hj).sendtoE]
    by_cases hd' : d' = d
    · subst hd'
      simp only [update_self, mem_append, mem_singleton, hj, or_false]
      exact hQ.mem j d'
    · rw [update_of_ne hd']
      exact hQ.mem j d'
  case refine_3 =>
    intro j hj
    by_cases hjp : j = p
    · subst hjp
      exact ⟨d, hqueued.sender.sendtoE, by rw [hqueued.slotFree]; exact hd⟩
    · rw [(hqueued.others j hjp).sending] at hj
      obtain ⟨d', hd', hfree'⟩ := hQ.target j hj
      exact ⟨d', by rw [(hqueued.others j hjp).sendtoE]; exact hd',
        by rw [hqueued.slotFree]; exact hfree'⟩
  case refine_4 =>
    intro j hj
    rw [hqueued.slotFree] at hj
    have hjp : j ≠ p := by
      rintro rfl
      rw [hfree] at hj
      exact absurd hj (by simp)
    rw [(hqueued.others j hjp).sending]
    exact hQ.free j hj
  case refine_5 =>
    intro j hj
    show (t' j).qLink = _
    rw [hq, hframe j (hQ.not_mem hj d)]
    exact (hlinks j).1

/-! ## Taking a sender off -/

theorem Queues.unlinked (hQ : Queues c s Q) {pre suf : List ProcNr} {t : ProcNr → IpcProc β}
    {head : Option ProcNr} (hl : Q d = pre ++ q :: suf) (hc : Chain t head (pre ++ suf))
    (hframe : ∀ j, j ∉ pre → t j = s.proc j)
    (hlink : ∀ j, j ≠ q → (s'.proc j).qLink = (t j).qLink)
    (hhead : ∀ j, (s'.proc j).callerQ = if j = d then head else (s.proc j).callerQ)
    (hsend : ∀ j, (s'.proc j).sending = if j = q then false else (s.proc j).sending)
    (hto : ∀ j, (s'.proc j).sendtoE = (s.proc j).sendtoE)
    (hslot : ∀ j, (s'.proc j).slotFree = (s.proc j).slotFree) :
    Queues c s' (fun d' => (Q d').erase q) := by
  have hnd : (pre ++ q :: suf).Nodup := hl ▸ (hQ.chain d).nodup
  have hqd : q ∈ Q d := by
    rw [hl]
    simp
  have hnot : q ∉ pre ++ suf := (nodup_cons.mp (nodup_middle.mp hnd)).1
  have herase : (Q d).erase q = pre ++ suf := by
    have hpre : q ∉ pre := fun hmem => hnot (mem_append_left _ hmem)
    rw [hl, erase_append_right _ hpre, erase_cons_head]
  constructor
  case chain =>
    intro d'
    rw [hhead]
    by_cases hd' : d' = d
    · subst hd'
      rw [if_pos rfl, herase]
      apply hc.congr
      intro i hi
      exact hlink i (fun heq => hnot (heq ▸ hi))
    have hq' : q ∉ Q d' := fun hmem => hd' (hQ.disjoint hmem hqd)
    rw [if_neg hd', erase_of_not_mem hq']
    apply (hQ.chain d').congr
    intro i hi
    have hid : i ∉ Q d := fun hmem => hd' (hQ.disjoint hi hmem)
    have hipre : i ∉ pre := fun hmem => hid (by rw [hl]; simp [hmem])
    show (s'.proc i).qLink = (s.proc i).qLink
    rw [hlink i (fun heq => hq' (heq ▸ hi)), hframe i hipre]
  case mem =>
    intro j d'
    rw [hsend, hto]
    by_cases hj : j = q
    · subst hj
      simp [(hQ.chain d').nodup.not_mem_erase]
    · rw [if_neg hj, mem_erase_of_ne hj]
      exact hQ.mem j d'
  case target =>
    intro j hj
    rw [hsend] at hj
    by_cases hjq : j = q
    · rw [if_pos hjq] at hj
      exact absurd hj (by simp)
    · rw [if_neg hjq] at hj
      obtain ⟨d', hd', hfree⟩ := hQ.target j hj
      exact ⟨d', by rw [hto]; exact hd', by rw [hslot]; exact hfree⟩
  case free =>
    intro j hj
    rw [hslot] at hj
    rw [hsend]
    split
    · rfl
    · exact hQ.free j hj

theorem addStatus_sameWait (x : IpcProc β) (m : Nat) : SameWait (addStatus x m) x := by
  unfold addStatus
  split
  · exact SameWait.refl x
  · exact ⟨rfl, rfl, rfl, rfl, rfl, rfl, rfl, rfl⟩

theorem addStatus_links (x : IpcProc β) (m : Nat) :
    (addStatus x m).qLink = x.qLink ∧ (addStatus x m).callerQ = x.callerQ := by
  unfold addStatus
  split <;> exact ⟨rfl, rfl⟩

/-- What taking the sender `q` off its queue for `p` leaves. -/
structure Taken (s s' : State β) (p q : ProcNr) (e : Endpoint) (b : β) : Prop where
  others : ∀ j, j ≠ q → SameWait (s'.proc j) (s.proc j)
  sender : SameWait (s'.proc q) { s.proc q with sending := false }
  link : (s'.proc q).qLink = none
  links : ∀ j, (s.proc j).sending = false → (s'.proc j).qLink = (s.proc j).qLink
  notifyPending : s'.notifyPending = s.notifyPending
  trace : s'.trace = s.trace ++ [.placed q p b e]

theorem takeQueued_spec (hQ : Queues c s Q) (hsend : (s.proc p).sending = false) {t : ProcNr → IpcProc β} {head : Option ProcNr}
    (hun : unlinkFirst s.proc (accepts src) (s.proc p).callerQ = some (some (q, t, head))) :
    ∃ pre suf, Q p = pre ++ q :: suf ∧ (∀ k ∈ pre, accepts src k = false) ∧ accepts src q = true ∧
      Queues c (takeQueued c s p q e b t head) (fun d => (Q d).erase q) ∧
      Taken s (takeQueued c s p q e b t head) p q e b := by
  obtain ⟨pre, suf, hl, hpre, hacc, hc, hframe, hset⟩ := unlinkFirst_inv (hQ.chain p) hun
  have hqmem : q ∈ Q p := by
    rw [hl]
    simp
  have hqp : q ≠ p := by
    intro heq
    exact hQ.not_mem hsend p (heq ▸ hqmem)
  have hnotpre : ∀ j, (s.proc j).sending = false → j ∉ pre := by
    intro j hj hmem
    exact hQ.not_mem hj p (by rw [hl]; simp [hmem])
  have hlinked : ∀ j, SameWait (t j) (s.proc j) ∧ (t j).callerQ = (s.proc j).callerQ := by
    intro j
    obtain ⟨o, ho⟩ := hset j
    rw [ho]
    exact ⟨SameWait.relink _ _ _, rfl⟩
  -- the three records of the new table
  have hrest : ∀ j, j ≠ p → j ≠ q → (takeQueued c s p q e b t head).proc j = t j := by
    intro j hjp hjq
    simp only [takeQueued, update_of_ne hjp, update_of_ne hjq]
  have hq : (takeQueued c s p q e b t head).proc q =
      { t q with sending := false, sendingFromKernel := false, qLink := none } := by
    simp only [takeQueued, update_of_ne hqp, update_self]
  have hp : SameWait ((takeQueued c s p q e b t head).proc p) (t p) ∧
      ((takeQueued c s p q e b t head).proc p).qLink = (t p).qLink ∧
      ((takeQueued c s p q e b t head).proc p).callerQ = head := by
    simp only [takeQueued, update_self, update_of_ne (Ne.symm hqp)]
    have hbase : ∀ x : IpcProc β, ∀ m : Option (Message β), ∀ h : Option ProcNr,
        SameWait { x with callerQ := h, delivermsg := m, deliverMsg := true } x :=
      fun _ _ _ => ⟨rfl, rfl, rfl, rfl, rfl, rfl, rfl, rfl⟩
    split
    · refine ⟨(addStatus_sameWait _ _).trans ((addStatus_sameWait _ _).trans (hbase _ _ _)), ?_, ?_⟩
      · rw [addFromKernel, (addStatus_links _ _).1, (addStatus_links _ _).1]
      · rw [addFromKernel, (addStatus_links _ _).2, (addStatus_links _ _).2]
    · refine ⟨(addStatus_sameWait _ _).trans (hbase _ _ _), ?_, ?_⟩
      · rw [(addStatus_links _ _).1]
      · rw [(addStatus_links _ _).2]
  have hwait : ∀ j, j ≠ q → SameWait ((takeQueued c s p q e b t head).proc j) (s.proc j) := by
    intro j hj
    by_cases hjp : j = p
    · subst hjp
      exact hp.1.trans (hlinked j).1
    · rw [hrest j hjp hj]
      exact (hlinked j).1
  have hsender : SameWait ((takeQueued c s p q e b t head).proc q)
      { s.proc q with sending := false } := by
    rw [hq]
    have := (hlinked q).1
    exact ⟨this.slotFree, this.noEndpoint, rfl, this.receiving, this.replyPend, this.getfromE,
      this.sendtoE, this.sendmsg⟩
  have hlink : ∀ j, j ≠ q → ((takeQueued c s p q e b t head).proc j).qLink = (t j).qLink := by
    intro j hj
    by_cases hjp : j = p
    · subst hjp
      exact hp.2.1
    · rw [hrest j hjp hj]
  refine ⟨pre, suf, hl, hpre, hacc, ?_, hwait, hsender, by rw [hq], ?_, rfl, rfl⟩
  · apply hQ.unlinked hl hc hframe hlink
    · intro j
      by_cases hjp : j = p
      · subst hjp
        rw [if_pos rfl]
        exact hp.2.2
      rw [if_neg hjp]
      by_cases hjq : j = q
      · subst hjq
        rw [hq]
        exact (hlinked j).2
      · rw [hrest j hjp hjq]
        exact (hlinked j).2
    · intro j
      by_cases hjq : j = q
      · subst hjq
        rw [if_pos rfl, hsender.sending]
      · rw [if_neg hjq, (hwait j hjq).sending]
    · intro j
      by_cases hjq : j = q
      · subst hjq
        exact hsender.sendtoE
      · exact (hwait j hjq).sendtoE
    intro j
    by_cases hjq : j = q
    · subst hjq
      exact hsender.slotFree
    · exact (hwait j hjq).slotFree
  · intro j hj
    have hjq : j ≠ q := by
      rintro rfl
      exact hQ.not_mem hj p hqmem
    rw [hlink j hjq, hframe j (hnotpre j hj)]

/-! ## Clearing -/

/-- What `clear_ipc(rc)` leaves. The link of `rc` stays as it is. -/
structure Cleared (s s' : State β) (rc : ProcNr) : Prop where
  others : ∀ j, j ≠ rc → SameWait (s'.proc j) (s.proc j)
  self : SameWait (s'.proc rc) { s.proc rc with sending := false, receiving := false }
  link : (s'.proc rc).qLink = (s.proc rc).qLink
  links : ∀ j, (s.proc j).sending = false → (s'.proc j).qLink = (s.proc j).qLink

theorem Cleared.of_same (h : Cleared s₁ s' rc) (hwait : ∀ j, SameWait (s₁.proc j) (s.proc j))
    (hlink : ∀ j, (s₁.proc j).qLink = (s.proc j).qLink) : Cleared s s' rc where
  others := fun j hj => (h.others j hj).trans (hwait j)
  self := ⟨h.self.slotFree.trans (hwait rc).slotFree, h.self.noEndpoint.trans (hwait rc).noEndpoint,
    h.self.sending, h.self.receiving, h.self.replyPend.trans (hwait rc).replyPend,
    h.self.getfromE.trans (hwait rc).getfromE, h.self.sendtoE.trans (hwait rc).sendtoE,
    h.self.sendmsg.trans (hwait rc).sendmsg⟩
  link := h.link.trans (hlink rc)
  links := fun j hj => (h.links j ((hwait j).sending.trans hj)).trans (hlink j)

theorem clearIpc_spec (hQ : Queues c s Q) {cl : ProcNr} (h : clearIpc c s cl rc = .ok s') :
    Queues c s' (fun d => (Q d).erase rc) ∧ Cleared s s' rc ∧ s'.notifyPending = s.notifyPending ∧
      (((s.proc rc).sending = false ∧ s'.trace = s.trace) ∨
        ∃ d, (s.proc rc).sending = true ∧ (s.proc rc).sendtoE = c.endpoint d ∧
          s'.trace = s.trace ++ (s.proc rc).sendmsg.toList.map (Event.dropped cl rc d)) := by
  unfold clearIpc at h
  split at h
  case isTrue hsend =>
    obtain ⟨d, hto, hfree⟩ := hQ.target rc hsend
    rw [hto, isokendpt_endpoint hfree] at h
    have hmem : rc ∈ Q d := (hQ.mem rc d).mpr ⟨hsend, hto⟩
    dsimp only at h
    split at h
    case h_1 => cases h
    case h_2 hun =>
      have hnot := unlinkFirst_none_inv (hQ.chain d) hun rc hmem
      exact absurd hnot (by simp)
    case h_3 i t head hun =>
      cases h
      obtain ⟨pre, suf, hl, hpre, hi, hc, hframe, hset⟩ := unlinkFirst_inv (hQ.chain d) hun
      obtain rfl : i = rc := by simpa using hi
      have hlinked : ∀ j, ∃ o, t j = { s.proc j with qLink := o } := hset
      have hipre : i ∉ pre := fun hmem' => by simpa using hpre i hmem'
      -- the record of `d` may be that of `i`
      generalize ht1 : update t d { t d with callerQ := head } = t1
      have hrec : ∀ j, ∃ o, t1 j = { s.proc j with
          qLink := o, callerQ := if j = d then head else (s.proc j).callerQ } ∧
          o = (t j).qLink := by
        intro j
        obtain ⟨o, ho⟩ := hlinked j
        refine ⟨o, ?_, by rw [ho]⟩
        by_cases hj : j = d
        · subst hj
          rw [← ht1, update_self, if_pos rfl, ho]
        · rw [← ht1, update_of_ne hj, if_neg hj, ho]
      have hself : ∀ x : IpcProc β, update t1 i x i = x := fun x =>
        update_self _ _ _
      have hother : ∀ (x : IpcProc β) (j : ProcNr), j ≠ i → update t1 i x j = t1 j :=
        fun x j hj => update_of_ne hj _ _
      have hlink : ∀ j, (update t1 i
          { t1 i with sending := false, receiving := false } j).qLink = (t j).qLink := by
        intro j
        obtain ⟨o, ho, ho'⟩ := hrec j
        by_cases hj : j = i
        · subst hj
          rw [hself, ho, ho']
        · rw [hother _ j hj, ho, ho']
      have hhead : ∀ j, (update t1 i
          { t1 i with sending := false, receiving := false } j).callerQ =
          if j = d then head else (s.proc j).callerQ := by
        intro j
        obtain ⟨o, ho, _⟩ := hrec j
        by_cases hj : j = i
        · subst hj
          rw [hself, ho]
        · rw [hother _ j hj, ho]
      have hwait : ∀ j, j ≠ i → SameWait (update t1 i
          { t1 i with sending := false, receiving := false } j) (s.proc j) := by
        intro j hj
        obtain ⟨o, ho, _⟩ := hrec j
        rw [hother _ j hj, ho]
        exact SameWait.relink _ _ _
      have hcleared : SameWait (update t1 i
          { t1 i with sending := false, receiving := false } i)
          { s.proc i with sending := false, receiving := false } := by
        obtain ⟨o, ho, _⟩ := hrec i
        rw [hself, ho]
        exact ⟨rfl, rfl, rfl, rfl, rfl, rfl, rfl, rfl⟩
      refine ⟨?_, ⟨hwait, hcleared, ?_, ?_⟩, rfl, .inr ⟨d, hsend, hto, rfl⟩⟩
      · apply hQ.unlinked hl hc hframe (fun j _ => hlink j) hhead
        · intro j
          by_cases hj : j = i
          · subst hj
            rw [if_pos rfl]
            exact hcleared.sending
          · rw [if_neg hj]
            exact (hwait j hj).sending
        · intro j
          by_cases hj : j = i
          · subst hj
            exact hcleared.sendtoE
          · exact (hwait j hj).sendtoE
        intro j
        by_cases hj : j = i
        · subst hj
          exact hcleared.slotFree
        · exact (hwait j hj).slotFree
      · rw [hlink, hframe i hipre]
      · intro j hj
        have hjpre : j ∉ pre := fun hmem' => hQ.not_mem hj d (by rw [hl]; simp [hmem'])
        rw [hlink, hframe j hjpre]
  case isFalse hsend =>
    cases h
    have hsend' : (s.proc rc).sending = false := by simpa using hsend
    have hsame : ∀ j, SameQueues
        ((s.set rc { s.proc rc with receiving := false }).proc j) (s.proc j) := by
      intro j
      by_cases hj : j = rc
      · subst hj
        rw [State.set_proc_self]
        exact ⟨rfl, rfl, rfl, rfl, rfl⟩
      · rw [State.set_proc_of_ne _ _ hj]
        exact ⟨rfl, rfl, rfl, rfl, rfl⟩
    have herase : (fun d => (Q d).erase rc) = Q := by
      funext d
      exact erase_of_not_mem (hQ.not_mem hsend' d)
    refine ⟨by rw [herase]; exact hQ.of_same hsame, ⟨?_, ?_, (hsame rc).qLink,
      fun j _ => (hsame j).qLink⟩, rfl, .inl ⟨hsend', rfl⟩⟩
    · intro j hj
      rw [State.set_proc_of_ne _ _ hj]
      exact SameWait.refl _
    · rw [State.set_proc_self]
      exact ⟨rfl, rfl, hsend', rfl, rfl, rfl, rfl, rfl⟩

/-- The state in which a turn of the loop of `clear_ipc_refs` clears `rp`. -/
def clearing (c : Conf) (s : State β) (rc rp : ProcNr) (ret : Errno) : State β :=
  (unsetPending c s rc rp).set rp { s.proc rp with retreg := ret }

theorem clearing_same (c : Conf) (s : State β) (rc rp : ProcNr) (ret : Errno) (j : ProcNr) :
    SameWait ((clearing c s rc rp ret).proc j) (s.proc j) ∧
      SameQueues ((clearing c s rc rp ret).proc j) (s.proc j) := by
  by_cases hj : j = rp
  · subst hj
    rw [clearing, State.set_proc_self]
    exact ⟨⟨rfl, rfl, rfl, rfl, rfl, rfl, rfl, rfl⟩, ⟨rfl, rfl, rfl, rfl, rfl⟩⟩
  · rw [clearing, State.set_proc_of_ne _ _ hj]
    exact ⟨SameWait.refl _, ⟨rfl, rfl, rfl, rfl, rfl⟩⟩

theorem clearRef_cases {rp : ProcNr} (h : clearRef c rc ret s rp = .ok s') :
    ((s.proc rp).slotFree = true ∧ s' = s) ∨
    (blockedOn (s.proc rp) ≠ c.endpoint rc ∧ s' = unsetPending c s rc rp) ∨
    (blockedOn (s.proc rp) = c.endpoint rc ∧
      clearIpc c (clearing c s rc rp ret) rc rp = .ok s') := by
  unfold clearRef at h
  split at h
  case isTrue hfree =>
    cases h
    exact .inl ⟨hfree, rfl⟩
  simp only at h
  split at h
  case isTrue hblocked => exact .inr (.inr ⟨hblocked, h⟩)
  case isFalse hblocked =>
    cases h
    exact .inr (.inl ⟨hblocked, rfl⟩)

theorem blockedOn_of_sending {x : IpcProc β} (h : x.sending = true) : blockedOn x = x.sendtoE := by
  rw [blockedOn, if_pos h]

theorem clearRef_spec (hQ : Queues c s Q) {rp : ProcNr} (h : clearRef c rc ret s rp = .ok s') :
    ∃ Q', Queues c s' Q' ∧ rp ∉ Q' rc ∧ (∀ d, (Q' d).Sublist (Q d)) ∧
      (s'.proc = s.proc ∨ Cleared s s' rp) := by
  rcases clearRef_cases h with ⟨hfree, rfl⟩ | ⟨hblocked, rfl⟩ | ⟨hblocked, hclear⟩
  · exact ⟨Q, hQ, hQ.not_mem (hQ.free rp hfree) rc, fun _ => List.Sublist.refl _, .inl rfl⟩
  · refine ⟨Q, hQ.of_same (fun _ => ⟨rfl, rfl, rfl, rfl, rfl⟩), fun hmem => ?_,
      fun _ => List.Sublist.refl _, .inl rfl⟩
    obtain ⟨hsend, hto⟩ := (hQ.mem rp rc).mp hmem
    exact hblocked (by rw [blockedOn_of_sending hsend, hto])
  · have hsame := clearing_same c s rc rp ret
    obtain ⟨hQ', hcl, _⟩ := clearIpc_spec (hQ.of_same (fun j => (hsame j).2)) hclear
    refine ⟨_, hQ', (hQ.chain rc).nodup.not_mem_erase, fun d => erase_sublist,
      .inr (hcl.of_same (fun j => (hsame j).1) (fun j => (hsame j).2.qLink))⟩

theorem clearRefs_queues (hQ : Queues c s Q)
    (hl : ∀ x ∈ Q rc, x ∈ l) (h : l.foldlM (clearRef c rc ret) s = .ok s') :
    ∃ Q', Queues c s' Q' ∧ Q' rc = [] ∧ ∀ d, (Q' d).Sublist (Q d) := by
  induction l generalizing s Q with
  | nil =>
    cases h
    exact ⟨Q, hQ, eq_nil_iff_forall_not_mem.mpr (fun x hx => by simpa using hl x hx),
      fun _ => List.Sublist.refl _⟩
  | cons rp l ih =>
    rw [foldlM_cons] at h
    obtain ⟨s₁, hone, hrest⟩ := bind_ok h
    obtain ⟨Q1, hQ1, hnot, hsub, _⟩ := clearRef_spec hQ hone
    have hl1 : ∀ x ∈ Q1 rc, x ∈ l := by
      intro x hx
      rcases mem_cons.mp (hl x ((hsub rc).subset hx)) with rfl | hmem'
      · exact absurd hx hnot
      · exact hmem'
    obtain ⟨Q', hQ', hnil, hsub'⟩ := ih hQ1 hl1 hrest
    exact ⟨Q', hQ', hnil, fun d => (hsub' d).trans (hsub d)⟩

/-! ## Links that dangle -/

def Unlinked (s : State β) : Prop := ∀ p, (s.proc p).sending = false → (s.proc p).qLink = none

theorem Queues.qLink_last (hQ : Queues c s Q) {pre : List ProcNr} (hl : Q d = pre ++ [p]) :
    (s.proc p).qLink = none := by
  have hc := hQ.chain d
  rw [hl] at hc
  obtain ⟨o, ho⟩ := hc.of_append
  exact ho.start_of_cons.2.eq_none_of_nil

theorem Cleared.unlinked (h : Cleared s s' rc) (hs : Unlinked s)
    (hlast : (s.proc rc).sending = true → (s.proc rc).qLink = none) : Unlinked s' := by
  intro j hj
  by_cases hjr : j = rc
  · subst hjr
    rw [h.link]
    cases hsend : (s.proc j).sending with
    | true => exact hlast hsend
    | false => exact hs j hsend
  · rw [(h.others j hjr).sending] at hj
    rw [h.links j hj]
    exact hs j hj

theorem clearRefs_unlinked (hQ : Queues c s Q)
    (hs : Unlinked s) (hl : ∀ x ∈ Q rc, x ∈ l) (hup : l.Pairwise (· < ·))
    (hdown : (Q rc).Pairwise (· > ·)) (h : l.foldlM (clearRef c rc ret) s = .ok s') :
    Unlinked s' := by
  induction l generalizing s Q with
  | nil =>
    cases h
    exact hs
  | cons rp l ih =>
    rw [foldlM_cons] at h
    obtain ⟨s₁, hone, hrest⟩ := bind_ok h
    obtain ⟨hrp, hup'⟩ := pairwise_cons.mp hup
    obtain ⟨Q1, hQ1, hnot, hsub, hproc⟩ := clearRef_spec hQ hone
    have hl1 : ∀ x ∈ Q1 rc, x ∈ l := by
      intro x hx
      rcases mem_cons.mp (hl x ((hsub rc).subset hx)) with rfl | hmem'
      · exact absurd hx hnot
      · exact hmem'
    refine ih hQ1 ?_ hl1 hup' (hdown.sublist (hsub rc)) hrest
    rcases clearRef_cases hone with ⟨_, rfl⟩ | ⟨_, rfl⟩ | ⟨hblocked, hclear⟩
    · exact hs
    · exact hs
    have hsame := clearing_same c s rc rp ret
    obtain ⟨_, hcl, _⟩ := clearIpc_spec (hQ.of_same (fun j => (hsame j).2)) hclear
    have hcl' := hcl.of_same (fun j => (hsame j).1) (fun j => (hsame j).2.qLink)
    apply hcl'.unlinked hs
    intro hsend
    -- everybody behind `rp` in the queue is smaller, and so already gone
    rw [blockedOn_of_sending hsend] at hblocked
    obtain ⟨pre, suf, hsplit⟩ := append_of_mem ((hQ.mem rp rc).mpr ⟨hsend, hblocked⟩)
    have hsuf : suf = [] := by
      apply eq_nil_iff_forall_not_mem.mpr
      intro x hx
      have hlt : x < rp := by
        rw [hsplit] at hdown
        have := (pairwise_cons.mp (pairwise_append.mp hdown).2.1).1 x hx
        exact this
      have hmem : x ∈ rp :: l := hl x (by rw [hsplit]; simp [hx])
      rcases mem_cons.mp hmem with rfl | hmem'
      · exact lt_irrefl _ hlt
      · exact lt_asymm hlt (hrp x hmem')
    rw [hsuf] at hsplit
    exact hQ.qLink_last hsplit

theorem Quiet.unlinked (h : Quiet s s') (hs : Unlinked s) : Unlinked s' := by
  intro p hp
  rw [h.sending] at hp
  rw [h.qLink]
  exact hs p hp

/-! ## The calls -/

variable {Cond : State β → Op β → Prop}

/-- The kernel sends only for a process not sending already, or if the message goes through at once.
-/
def SparesSenders (c : Conf) (Cond : State β → Op β → Prop) : Prop :=
  ∀ s p d b, Cond s (.kernelSend p d b) →
    (s.proc p).sending = false ∨ willReceive (s.proc d) (c.endpoint p) = true

theorem miniSend_queues (hspare : SparesSenders c Cond) (hQ : Queues c s Q) {m : Option β} (hwho : Sends c Cond s p d flags)
    (h : miniSend c s p (c.endpoint d) m flags = .ok (s', r)) :
    ∃ Q', Queues c s' Q' ∧ (Unlinked s → Unlinked s') := by
  rcases miniSend_cases h with ⟨rfl, _⟩ | ⟨g, d', b, he, _, _, _, ⟨_, rfl⟩ | ⟨hwill, _, hq⟩⟩
  · exact ⟨Q, hQ, id⟩
  · have hquiet := directSend_quiet c s p d' b flags
    exact ⟨Q, hQ.of_quiet hquiet, hquiet.unlinked⟩
  simp only [Conf.endpoint, Endpoint.proc.injEq] at he
  obtain ⟨_, rfl⟩ := he
  have hsend : (s.proc p).sending = false := by
    rcases hwho.who with ⟨_, b', hcond⟩ | ⟨hs, _⟩
    · refine (hspare s p d b' hcond).resolve_right ?_
      rw [hwill]
      simp
    · exact hs
  obtain ⟨hQ', hlinks⟩ := queueSend_spec hQ hsend hwho.live hwho.dst hq
  have hqueued := queueSend_queued hq
  refine ⟨_, hQ', fun hs j hj => ?_⟩
  have hjp : j ≠ p := by
    rintro rfl
    rw [hqueued.sender.sending] at hj
    exact absurd hj (by simp)
  rw [(hqueued.others j hjp).sending] at hj
  rw [hlinks j hj]
  exact hs j hj

theorem receiveDone_same (s : State β) (p j : ProcNr) :
    SameQueues ((receiveDone s p).proc j) (s.proc j) := by
  by_cases hj : j = p
  · subst hj
    rw [receiveDone, State.set_proc_self]
    exact ⟨rfl, rfl, rfl, rfl, rfl⟩
  · rw [receiveDone, State.set_proc_of_ne _ _ hj]
    exact ⟨rfl, rfl, rfl, rfl, rfl⟩

theorem SameQueues.unlinked (h : ∀ j, SameQueues (s'.proc j) (s.proc j)) (hs : Unlinked s) :
    Unlinked s' := by
  intro j hj
  rw [(h j).sending] at hj
  rw [(h j).qLink]
  exact hs j hj

theorem Taken.unlinked (h : Taken s s' p q e b) (hs : Unlinked s) : Unlinked s' := by
  intro j hj
  by_cases hjq : j = q
  · subst hjq
    exact h.link
  · rw [(h.others j hjq).sending] at hj
    rw [h.links j hj]
    exact hs j hj

theorem received_queues (hQ : Queues c s Q) (h : Received c s p e s') :
    ∃ Q', Queues c s' Q' ∧ (Unlinked s → Unlinked s') := by
  cases h with
  | soft hsoft => exact ⟨Q, hQ.of_quiet hsoft.quiet, hsoft.quiet.unlinked⟩
  | asyn hsoft =>
    refine ⟨Q, (hQ.of_quiet hsoft.quiet).of_same (receiveDone_same _ p), fun hs => ?_⟩
    exact SameQueues.unlinked (receiveDone_same _ p) (hsoft.quiet.unlinked hs)
  | notified _ _ _ htake =>
    have hquiet := takeNotify_quiet htake
    refine ⟨Q, (hQ.of_quiet hquiet).of_same (receiveDone_same _ p), fun hs => ?_⟩
    exact SameQueues.unlinked (receiveDone_same _ p) (hquiet.unlinked hs)
  | @queued src s₁ q t head b _ hsoft hsend hun hb _ =>
    have hquiet := hsoft.quiet
    obtain ⟨_, _, _, _, _, hQ', htaken⟩ :=
      takeQueued_spec (hQ.of_quiet hquiet) ((hquiet.sending p).trans hsend) hun
    refine ⟨_, hQ'.of_same (receiveDone_same _ p), fun hs => ?_⟩
    exact SameQueues.unlinked (receiveDone_same _ p) (htaken.unlinked (hquiet.unlinked hs))
  | @blocked src s₁ _ hsoft _ _ =>
    have hquiet := hsoft.quiet
    have hsame : ∀ j, SameQueues ((s₁.set p { s₁.proc p with
        getfromE := e, receiving := true }).proc j) (s₁.proc j) := by
      intro j
      by_cases hj : j = p
      · subst hj
        rw [State.set_proc_self]
        exact ⟨rfl, rfl, rfl, rfl, rfl⟩
      · rw [State.set_proc_of_ne _ _ hj]
        exact ⟨rfl, rfl, rfl, rfl, rfl⟩
    exact ⟨Q, (hQ.of_quiet hquiet).of_same hsame,
      fun hs => SameQueues.unlinked hsame (hquiet.unlinked hs)⟩

theorem clearIpcRefs_queues (hQ : Queues c s Q) (h : clearIpcRefs c s rc ret tabs = .ok s') :
    (∃ Q', Queues c s' Q' ∧ Q' rc = [] ∧ ∀ d, (Q' d).Sublist (Q d)) ∧
      ((Q rc).Pairwise (· > ·) → Unlinked s → Unlinked s') := by
  obtain ⟨s₁, hcancel, hloop⟩ := bind_ok h
  have hquiet := (cancelAll_soft hcancel).quiet
  have hQ1 := hQ.of_quiet hquiet
  have hall : ∀ x ∈ Q rc, x ∈ List.finRange nrSlots := fun x _ => mem_finRange x
  refine ⟨clearRefs_queues hQ1 hall hloop, fun hdown hs => ?_⟩
  exact clearRefs_unlinked hQ1 (hquiet.unlinked hs) hall (pairwise_lt_finRange nrSlots)
    hdown hloop

/-- The state in which `clear_endpoint` clears the process itself. -/
def withoutEndpoint (c : Conf) (s : State β) (rc : ProcNr) : State β :=
  let s₁ := s.set rc { s.proc rc with noEndpoint := true }
  if c.sysProc (c.priv rc) then setAsynsize s₁ (c.priv rc) 0 else s₁

theorem withoutEndpoint_proc (c : Conf) (s : State β) (rc : ProcNr) :
    (withoutEndpoint c s rc).proc = update s.proc rc { s.proc rc with noEndpoint := true } := by
  unfold withoutEndpoint
  simp only
  split <;> rfl

theorem withoutEndpoint_quiet (c : Conf) (s : State β) (rc : ProcNr) :
    Quiet s (withoutEndpoint c s rc) := by
  have hset : Quiet s (s.set rc { s.proc rc with noEndpoint := true }) :=
    Quiet.set rfl (fun hx => ⟨hx, rfl⟩)
  exact hset.trans (Quiet.of_proc (withoutEndpoint_proc c s rc))

theorem clearEndpoint_cases (h : clearEndpoint c s rc tabs = .ok s') :
    (s.proc rc).slotFree = false ∧ ∃ s₁, clearIpc c (withoutEndpoint c s rc) rc rc = .ok s₁ ∧
      clearIpcRefs c s₁ rc .edeadsrcdst tabs = .ok s' := by
  unfold clearEndpoint at h
  split at h
  case isTrue => cases h
  case isFalse hfree =>
    obtain ⟨s₁, hclear, hrefs⟩ := bind_ok h
    exact ⟨by simpa using hfree, s₁, hclear, hrefs⟩

theorem clearEndpoint_queues (hQ : Queues c s Q) (h : clearEndpoint c s rc tabs = .ok s') :
    (∃ Q', Queues c s' Q' ∧ Q' rc = [] ∧ ∀ d, rc ∉ Q' d) ∧
      (((s.proc rc).sending = true → (s.proc rc).qLink = none) →
        (Q rc).Pairwise (· > ·) → Unlinked s → Unlinked s') := by
  obtain ⟨_, s₁, hclear, hrefs⟩ := clearEndpoint_cases h
  have hquiet := withoutEndpoint_quiet c s rc
  have hsame := hquiet.sameQueues
  obtain ⟨hQ1, hcl, _⟩ := clearIpc_spec (hQ.of_same hsame) hclear
  obtain ⟨⟨Q', hQ', hnil, hsub⟩, hun⟩ := clearIpcRefs_queues hQ1 hrefs
  have hgone : ∀ d, rc ∉ Q' d := fun d hmem =>
    (hQ.chain d).nodup.not_mem_erase ((hsub d).subset hmem)
  refine ⟨⟨Q', hQ', hnil, hgone⟩, fun hlast hdown hs => ?_⟩
  apply hun (hdown.sublist erase_sublist)
  apply hcl.unlinked (SameQueues.unlinked hsame hs)
  intro hsend
  rw [(hsame rc).qLink]
  exact hlast ((hsame rc).sending ▸ hsend)

theorem Queues.freed (hQ : Queues c s Q) (hnil : Q rc = []) (hgone : ∀ d, rc ∉ Q d)
    (hproc : s'.proc = update s.proc rc { s.proc rc with
      slotFree := true, noEndpoint := false, sending := false, receiving := false }) :
    Queues c s' Q := by
  have hself : s'.proc rc = { s.proc rc with
      slotFree := true, noEndpoint := false, sending := false, receiving := false } := by
    rw [hproc, update_self]
  have hother : ∀ j, j ≠ rc → s'.proc j = s.proc j := fun j hj => by
    rw [hproc, update_of_ne hj]
  have hlinks : ∀ j, (s'.proc j).qLink = (s.proc j).qLink ∧
      (s'.proc j).callerQ = (s.proc j).callerQ := by
    intro j
    by_cases hj : j = rc
    · subst hj
      rw [hself]
      exact ⟨rfl, rfl⟩
    · rw [hother j hj]
      exact ⟨rfl, rfl⟩
  constructor
  case chain =>
    intro d
    rw [(hlinks d).2]
    exact (hQ.chain d).congr (fun i _ => (hlinks i).1)
  case mem =>
    intro j d
    by_cases hj : j = rc
    · subst hj
      simp [hself, hgone d]
    · rw [hother j hj]
      exact hQ.mem j d
  case target =>
    intro j hj
    have hjr : j ≠ rc := by
      rintro rfl
      rw [hself] at hj
      exact absurd hj (by simp)
    rw [hother j hjr] at hj ⊢
    obtain ⟨d, hd, hfree⟩ := hQ.target j hj
    have hdr : d ≠ rc := by
      rintro rfl
      have hmem := (hQ.mem j d).mpr ⟨hj, hd⟩
      rw [hnil] at hmem
      exact absurd hmem (by simp)
    exact ⟨d, hd, by rw [hother d hdr]; exact hfree⟩
  case free =>
    intro j hj
    by_cases hjr : j = rc
    · subst hjr
      rw [hself]
    · rw [hother j hjr] at hj ⊢
      exact hQ.free j hj

theorem doClear_cases (h : doClear c s rc tabs = .ok s') :
    s' = s ∨ ∃ s₁, clearEndpoint c s rc tabs = .ok s₁ ∧
      s'.proc = update s₁.proc rc { s₁.proc rc with
        slotFree := true, noEndpoint := false, sending := false, receiving := false } ∧
      s'.notifyPending = s₁.notifyPending ∧ s'.trace = s₁.trace := by
  unfold doClear at h
  split at h
  case isTrue =>
    cases h
    exact .inl rfl
  obtain ⟨s₁, hclear, hr⟩ := bind_ok h
  refine .inr ⟨s₁, hclear, ?_⟩
  cases hr
  split <;> exact ⟨rfl, rfl, rfl⟩

theorem doClear_queues (hQ : Queues c s Q) (h : doClear c s rc tabs = .ok s') :
    (∃ Q', Queues c s' Q') ∧ (((s.proc rc).sending = true → (s.proc rc).qLink = none) →
        (Q rc).Pairwise (· > ·) → Unlinked s → Unlinked s') := by
  rcases doClear_cases h with rfl | ⟨s₁, hclear, hproc, _⟩
  · exact ⟨⟨Q, hQ⟩, fun _ _ hs => hs⟩
  obtain ⟨⟨Q', hQ', hnil, hgone⟩, hun⟩ := clearEndpoint_queues hQ hclear
  refine ⟨⟨Q', hQ'.freed hnil hgone hproc⟩, fun hlast hdown hs => ?_⟩
  have hs1 := hun hlast hdown hs
  intro j hj
  by_cases hjr : j = rc
  · subst hjr
    have hsend : (s₁.proc j).sending = false := by
      by_contra hx
      have hx' : (s₁.proc j).sending = true := by simpa using hx
      obtain ⟨d, hd, _⟩ := hQ'.target j hx'
      exact hgone d ((hQ'.mem j d).mpr ⟨hx', hd⟩)
    rw [hproc, update_self]
    exact hs1 j hsend
  · rw [hproc, update_of_ne hjr] at hj ⊢
    exact hs1 j hj

/-! ## Runs -/

theorem boot_queues (h : Boot s) : Queues c s (fun _ => []) where
  chain := fun d => by
    rw [h.callerQ]
    exact .nil
  mem := fun p d => by simp [h.sending]
  target := fun p hp => absurd hp (by simp [h.sending])
  free := fun p _ => h.sending p

theorem reachable_queues (hspare : SparesSenders c Cond) (h : Reachable c Cond s) :
    ∃ Q, Queues c s Q := by
  induction h with
  | boot hb => exact ⟨_, boot_queues hb⟩
  | step _ hen hcond hstep ih =>
    refine step_keeps (I := fun s => ∃ Q, Queues c s Q) ?_ ?_ ?_ ?_ ?_ ?_ ?_ ih hen hcond hstep
    · rintro s s' hsoft ⟨Q, hQ⟩
      exact ⟨Q, hQ.of_quiet hsoft.quiet⟩
    · rintro s p x ⟨Q, hQ⟩ hcore _ hx
      exact ⟨Q, hQ.of_quiet (set_flags_quiet hcore hx)⟩
    · rintro s s' p d m flags r ⟨Q, hQ⟩ hwho hms
      obtain ⟨Q', hQ', _⟩ := miniSend_queues hspare hQ hwho hms
      exact ⟨Q', hQ'⟩
    · rintro s s' p e ⟨Q, hQ⟩ _ hrecv
      obtain ⟨Q', hQ', _⟩ := received_queues hQ hrecv
      exact ⟨Q', hQ'⟩
    · rintro s s' p tabs ⟨Q, hQ⟩ _ _ hclear
      obtain ⟨⟨Q', hQ', _⟩, _⟩ := clearEndpoint_queues hQ hclear
      exact ⟨Q', hQ'⟩
    · rintro s s' p tabs ⟨Q, hQ⟩ _ _ hclear
      obtain ⟨⟨Q', hQ', _⟩, _⟩ := clearIpcRefs_queues hQ hclear
      exact ⟨Q', hQ'⟩
    · rintro s s' p tabs ⟨Q, hQ⟩ _ hclear
      exact (doClear_queues hQ hclear).1

/-- The queue of `d` as a walk through the links finds it. -/
def queueOf (s : State β) (d : ProcNr) : List ProcNr := follow s.proc nrSlots (s.proc d).callerQ

/-- A process cleared while sending is last of its queue, and the queue of a cleared process is in
decreasing order. And the kernel spares the senders. -/
def LastFirst (c : Conf) (s : State β) : Op β → Prop
  | .kernelSend p d _ =>
    (s.proc p).sending = false ∨ willReceive (s.proc d) (c.endpoint p) = true
  | .clearEndpoint p _ =>
    ((s.proc p).sending = true → (s.proc p).qLink = none) ∧ (queueOf s p).Pairwise (· > ·)
  | .clearIpcRefs p _ => (queueOf s p).Pairwise (· > ·)
  | .doClear p _ =>
    ((s.proc p).sending = true → (s.proc p).qLink = none) ∧ (queueOf s p).Pairwise (· > ·)
  | _ => True

theorem lastFirst_spares : SparesSenders c (LastFirst c : State β → Op β → Prop) := fun _ _ _ _ h => h

theorem reachable_unlinked (h : Reachable c (LastFirst c) s) : Unlinked s := by
  suffices hboth : (∃ Q, Queues c s Q) ∧ Unlinked s from hboth.2
  induction h with
  | boot hb => exact ⟨⟨_, boot_queues hb⟩, fun p _ => hb.qLink p⟩
  | step _ hen hcond hstep ih =>
    refine step_keeps (I := fun s => (∃ Q, Queues c s Q) ∧ Unlinked s)
      ?_ ?_ ?_ ?_ ?_ ?_ ?_ ih hen hcond hstep
    · rintro s s' hsoft ⟨⟨Q, hQ⟩, hs⟩
      exact ⟨⟨Q, hQ.of_quiet hsoft.quiet⟩, hsoft.quiet.unlinked hs⟩
    · rintro s p x ⟨⟨Q, hQ⟩, hs⟩ hcore _ hx
      have hquiet := set_flags_quiet hcore hx
      exact ⟨⟨Q, hQ.of_quiet hquiet⟩, hquiet.unlinked hs⟩
    · rintro s s' p d m flags r ⟨⟨Q, hQ⟩, hs⟩ hwho hms
      obtain ⟨Q', hQ', hun⟩ := miniSend_queues lastFirst_spares hQ hwho hms
      exact ⟨⟨Q', hQ'⟩, hun hs⟩
    · rintro s s' p e ⟨⟨Q, hQ⟩, hs⟩ _ hrecv
      obtain ⟨Q', hQ', hun⟩ := received_queues hQ hrecv
      exact ⟨⟨Q', hQ'⟩, hun hs⟩
    · rintro s s' p tabs ⟨⟨Q, hQ⟩, hs⟩ _ ⟨hlast, hdown⟩ hclear
      rw [queueOf, hQ.follow_eq] at hdown
      obtain ⟨⟨Q', hQ', _⟩, hun⟩ := clearEndpoint_queues hQ hclear
      exact ⟨⟨Q', hQ'⟩, hun hlast hdown hs⟩
    · rintro s s' p tabs ⟨⟨Q, hQ⟩, hs⟩ _ hdown hclear
      have hdown' : (queueOf s p).Pairwise (· > ·) := hdown
      rw [queueOf, hQ.follow_eq] at hdown'
      obtain ⟨⟨Q', hQ', _⟩, hun⟩ := clearIpcRefs_queues hQ hclear
      exact ⟨⟨Q', hQ'⟩, hun hdown' hs⟩
    · rintro s s' p tabs ⟨⟨Q, hQ⟩, hs⟩ ⟨hlast, hdown⟩ hclear
      rw [queueOf, hQ.follow_eq] at hdown
      obtain ⟨hQ', hun⟩ := doClear_queues hQ hclear
      exact ⟨hQ', hun hlast hdown hs⟩

/-! ## The assertion of `mini_send`

Nothing but `queueSend` ends at the assertion on the link. -/

/-- The computation does not end at `assert(caller_ptr->p_q_link == NULL)`. -/
def Asserts {α : Type} (x : Except Fault α) : Prop := x ≠ .error .qLink

theorem Asserts.bind {α γ : Type} {x : Except Fault α} {f : α → Except Fault γ}
    (hx : Asserts x) (hf : ∀ a, x = .ok a → Asserts (f a)) : Asserts (x >>= f) := by
  cases x with
  | error e =>
    intro h
    apply hx
    simpa [Bind.bind, Except.bind] using h
  | ok a => exact hf a rfl

theorem asserts_ok {α : Type} (a : α) : Asserts (.ok a : Except Fault α) := by
  simp [Asserts]

theorem miniNotify_asserts : Asserts (miniNotify c s p e) := by
  unfold miniNotify
  split
  · exact asserts_ok _
  split
  · split
    · simp [Asserts]
    · exact asserts_ok _
  · exact asserts_ok _

theorem notifyAsyncm_asserts {b : Bool} : Asserts (notifyAsyncm c s b p) := by
  unfold notifyAsyncm
  split
  · exact miniNotify_asserts.bind (fun _ _ => asserts_ok _)
  · exact asserts_ok _

theorem tryDeliverSenda_asserts {size : Nat} : Asserts (tryDeliverSenda c s p size tabs) := by
  unfold tryDeliverSenda
  simp only
  split
  · exact asserts_ok _
  · split
    · exact asserts_ok _
    · exact notifyAsyncm_asserts.bind (fun _ _ => asserts_ok _)

theorem doSenda_asserts {size : Nat} : Asserts (doSenda c s p size tabs) := by
  unfold doSenda
  split
  · exact asserts_ok _
  · unfold miniSenda
    split
    · exact asserts_ok _
    · exact tryDeliverSenda_asserts

theorem tryOne_asserts : Asserts (tryOne c s p q tabs) := by
  unfold tryOne
  split
  · exact asserts_ok _
  simp only
  split
  · exact asserts_ok _
  split
  · exact asserts_ok _
  split
  · exact asserts_ok _
  · apply notifyAsyncm_asserts.bind
    intro s₁ _
    split <;> exact asserts_ok _

theorem tryAsync_asserts {ids : List SysId} : Asserts (tryAsync c p tabs ids s) := by
  induction ids generalizing s with
  | nil => exact asserts_ok _
  | cons i ids ih =>
    unfold tryAsync
    split
    · exact ih
    split
    · exact ih
    split
    · simp [Asserts]
    apply tryOne_asserts.bind
    intro a _
    simp only
    split
    · exact asserts_ok _
    · exact ih

theorem cancelAsync_asserts : Asserts (cancelAsync c s p q tabs) := by
  unfold cancelAsync
  split
  · exact asserts_ok _
  simp only
  split
  · exact asserts_ok _
  split
  · exact asserts_ok _
  · split
    · exact asserts_ok _
    · exact notifyAsyncm_asserts.bind (fun _ _ => asserts_ok _)

theorem cancelAll_asserts {fuel : Nat} : Asserts (cancelAll c rc tabs fuel s) := by
  induction fuel generalizing s with
  | zero => simp [Asserts, cancelAll]
  | succ fuel ih =>
    unfold cancelAll
    split
    · exact asserts_ok _
    · split
      · simp [Asserts]
      · exact cancelAsync_asserts.bind (fun _ _ => ih)

theorem deadlockFrom_asserts {fn : Call} {fuel size : Nat} :
    Asserts (deadlockFrom c s fn p fuel e size) := by
  induction fuel generalizing e size with
  | zero =>
    by_cases he : e = .any
    · rw [he, deadlockFrom_any]
      exact asserts_ok _
    · rw [deadlockFrom_zero he]
      simp [Asserts]
  | succ fuel ih =>
    by_cases he : e = .any
    · rw [he, deadlockFrom_any]
      exact asserts_ok _
    rw [deadlockFrom_succ he]
    split
    · simp [Asserts]
    split
    · exact asserts_ok _
    · split
      · split <;> exact asserts_ok _
      · exact ih

theorem blockReceive_asserts : Asserts (blockReceive c s p e nb) := by
  unfold blockReceive
  split
  · exact asserts_ok _
  · apply Asserts.bind deadlockFrom_asserts
    intro group _
    split <;> exact asserts_ok _

theorem receiveQueued_asserts : Asserts (receiveQueued c s p e src nb) := by
  unfold receiveQueued
  split
  · simp [Asserts]
  · exact blockReceive_asserts
  split
  · simp [Asserts]
  split
  · simp [Asserts]
  · split
    · simp [Asserts]
    · exact asserts_ok _

theorem receiveAsyn_asserts : Asserts (receiveAsyn c s p e src nb tabs) := by
  unfold receiveAsyn
  split
  · exact receiveQueued_asserts
  apply Asserts.bind
  · unfold tryPending
    split
    · exact tryOne_asserts
    · exact tryAsync_asserts
  intro a _
  simp only
  split
  · exact asserts_ok _
  · exact receiveQueued_asserts

theorem miniReceive_asserts : Asserts (miniReceive c s p e nb tabs) := by
  have hfrom : ∀ src, Asserts (receiveFrom c s p e src nb tabs) := by
    intro src
    unfold receiveFrom
    split
    · exact blockReceive_asserts
    split
    · exact receiveAsyn_asserts
    split
    · exact receiveAsyn_asserts
    apply Asserts.bind _ (fun _ _ => asserts_ok _)
    unfold takeNotify
    split
    · simp [Asserts]
    split
    · simp [Asserts]
    · split
      · simp [Asserts]
      · exact asserts_ok _
  unfold miniReceive
  split
  · simp [Asserts]
  split
  · exact hfrom none
  split
  · simp [Asserts]
  · split
    · exact asserts_ok _
    · exact hfrom _

theorem clearIpc_asserts {cl : ProcNr} : Asserts (clearIpc c s cl rc) := by
  unfold clearIpc
  split
  · split
    · simp [Asserts]
    · split
      · simp [Asserts]
      · exact asserts_ok _
      · exact asserts_ok _
  · exact asserts_ok _

theorem clearRefs_asserts : Asserts (l.foldlM (clearRef c rc ret) s) := by
  induction l generalizing s with
  | nil => exact asserts_ok _
  | cons rp l ih =>
    rw [foldlM_cons]
    refine Asserts.bind ?_ (fun _ _ => ih)
    unfold clearRef
    split
    · exact asserts_ok _
    · simp only
      split
      · exact clearIpc_asserts
      · exact asserts_ok _

theorem clearIpcRefs_asserts : Asserts (clearIpcRefs c s rc ret tabs) :=
  cancelAll_asserts.bind (fun _ _ => clearRefs_asserts)

theorem clearEndpoint_asserts : Asserts (clearEndpoint c s rc tabs) := by
  unfold clearEndpoint
  split
  · simp [Asserts]
  · exact clearIpc_asserts.bind (fun _ _ => clearIpcRefs_asserts)

theorem miniSend_asserts {m : Option β}
    (hlink : willReceive (s.proc d) (c.endpoint p) = false → (s.proc p).qLink = none) :
    Asserts (miniSend c s p (c.endpoint d) m flags) := by
  unfold miniSend Conf.endpoint
  simp only
  split
  · exact asserts_ok _
  split
  · split
    · simp [Asserts]
    · split <;> exact asserts_ok _
  split
  · exact asserts_ok _
  rename_i hwill _
  apply Asserts.bind deadlockFrom_asserts
  intro group _
  split
  · exact asserts_ok _
  split
  · exact asserts_ok _
  apply Asserts.bind _ (fun _ _ => asserts_ok _)
  unfold queueSend
  simp only
  split
  · rename_i hx
    rw [State.set_proc_self] at hx
    exact absurd (hlink (by simpa [Conf.endpoint] using hwill)) hx
  · split
    · simp [Asserts]
    · exact asserts_ok _

theorem step_asserts {op : Op β} (hs : Unlinked s) (hen : op.Enabled s)
    (hcond : LastFirst c s op) : Asserts (step c s op) := by
  cases op with
  | ipc p call e m tabs =>
    refine Asserts.bind ?_ (fun _ _ => asserts_ok _)
    have hnone : (s.proc p).qLink = none := hs p hen.1.2.2.1
    have hcall : ∀ d, e = c.endpoint d → Asserts (syncCall c s p call e m tabs) := by
      rintro d rfl
      cases call with
      | send => exact miniSend_asserts (fun _ => hnone)
      | sendnb => exact miniSend_asserts (fun _ => hnone)
      | notify => exact miniNotify_asserts
      | receive => exact miniReceive_asserts
      | sendrec =>
        apply Asserts.bind
        · apply miniSend_asserts
          intro _
          rw [State.set_proc_self]
          exact hnone
        intro a _
        simp only
        split
        · exact asserts_ok _
        · exact miniReceive_asserts
    unfold doSyncIpc
    split
    · split
      · exact asserts_ok _
      rename_i hrecv
      obtain rfl : call = .receive := by simpa using hrecv
      split
      · exact asserts_ok _
      · exact miniReceive_asserts
    split
    · exact asserts_ok _
    rename_i d hd
    split
    · exact asserts_ok _
    split
    · exact asserts_ok _
    · split
      · exact asserts_ok _
      · exact hcall d (isokendpt_eq_some hd).1
  | senda p size tabs => exact doSenda_asserts.bind (fun _ _ => asserts_ok _)
  | kernelSend p d b =>
    apply Asserts.bind
    · apply miniSend_asserts
      intro hwill
      apply hs
      refine Or.resolve_right hcond ?_
      rw [hwill]
      simp
    intro a _
    simp only
    split
    · simp [Asserts]
    · exact asserts_ok _
  | kernelNotify t e => exact miniNotify_asserts.bind (fun _ _ => asserts_ok _)
  | delivermsg p => exact asserts_ok _
  | clearEndpoint p tabs => exact clearEndpoint_asserts
  | clearIpcRefs p tabs => exact clearIpcRefs_asserts
  | doClear p tabs =>
    show Asserts (doClear c s p tabs)
    unfold doClear
    split
    · exact asserts_ok _
    · exact clearEndpoint_asserts.bind (fun _ _ => asserts_ok _)

/-- **Caller queues.** In every run that takes senders off the end only, a process is on one queue,
that of its destination, if and only if it is sending; queues are finite and without repetition; who
is not sending has no link; and the assertion of `mini_send` holds. -/
theorem callerQueues_wellFormed (h : Reachable c (LastFirst c) s) :
    (∀ p, (∃! d, p ∈ queueOf s d) ↔ (s.proc p).sending = true) ∧
    (∀ p d, p ∈ queueOf s d → (s.proc p).sendtoE = c.endpoint d) ∧
    (∀ d, Chain s.proc (s.proc d).callerQ (queueOf s d) ∧ (queueOf s d).Nodup) ∧
    (∀ p, (s.proc p).sending = false → (s.proc p).qLink = none) ∧
    ∀ op : Op β, op.Enabled s → LastFirst c s op → step c s op ≠ .error .qLink := by
  obtain ⟨Q, hQ⟩ := reachable_queues lastFirst_spares h
  have hun := reachable_unlinked h
  have hqueue : ∀ d, queueOf s d = Q d := hQ.follow_eq
  refine ⟨?_, ?_, ?_, hun, fun op hen hcond => step_asserts hun hen hcond⟩
  · intro p
    constructor
    · rintro ⟨d, hd, _⟩
      simp only [hqueue] at hd
      exact ((hQ.mem p d).mp hd).1
    intro hsend
    obtain ⟨d, hd, _⟩ := hQ.target p hsend
    refine ⟨d, ?_, fun d' hd' => ?_⟩
    · simp only [hqueue]
      exact (hQ.mem p d).mpr ⟨hsend, hd⟩
    · simp only [hqueue] at hd'
      exact hQ.disjoint hd' ((hQ.mem p d).mpr ⟨hsend, hd⟩)
  · intro p d hp
    rw [hqueue] at hp
    exact ((hQ.mem p d).mp hp).2
  · intro d
    rw [hqueue]
    exact ⟨hQ.chain d, (hQ.chain d).nodup⟩

/-! ### Two senders -/

/-- Slots below 63 hold system processes with all rights, the others share the structure 63. -/
def plainConf : Conf where
  gen := fun _ => 0
  priv := fun p => if h : p.val < 63 then ⟨p.val, by omega⟩ else 63
  ipcTo := fun i j => i != j
  trapMask := fun i t => i != 63 || t == .sendrec
  sysProc := fun i => i != 63
  ipcTo_self := by simp
  shared := by
    intro p q hne hpriv t ht
    have hp : ¬ p.val < 63 := by
      intro hlt
      by_cases hq : q.val < 63
      · rw [dif_pos hlt, dif_pos hq] at hpriv
        exact hne (Fin.ext (by simpa using hpriv))
      · rw [dif_pos hlt, dif_neg hq] at hpriv
        have := congrArg Fin.val hpriv
        simp only at this
        omega
    rw [dif_neg hp] at ht
    simpa using ht
  task_priv := by
    intro p q hp hpriv
    have hp' : p.val < 5 := by simpa [isKernel] using hp
    have hlt : p.val < 63 := by omega
    by_cases hq : q.val < 63
    · rw [dif_pos hlt, dif_pos hq] at hpriv
      exact Fin.ext (by simpa using hpriv)
    · rw [dif_pos hlt, dif_neg hq] at hpriv
      have := congrArg Fin.val hpriv
      simp only at this
      omega

def plainProc : IpcProc Nat where
  slotFree := false
  noEndpoint := false
  sending := false
  receiving := false
  replyPend := false
  deliverMsg := false
  sendingFromKernel := false
  callerQ := none
  qLink := none
  getfromE := .none
  sendtoE := .none
  sendmsg := none
  delivermsg := none
  ipcStatus := 0
  retreg := .ok

def plainState : State Nat where
  proc := fun _ => plainProc
  notifyPending := fun _ _ => false
  asynPending := fun _ _ => false
  asynsize := fun _ => 0
  sProcNr := fun i => some ⟨i.val, by unfold nrSlots; omega⟩
  intPending := fun _ => 0
  sigPending := fun _ => 0
  trace := []

theorem plainState_boot : Boot plainState :=
  ⟨fun _ => rfl, fun _ => rfl, fun _ => rfl, fun _ => rfl, fun _ _ => rfl, rfl⟩

def noTables : Tables Nat := ⟨fun _ _ => none, fun _ _ => false⟩

def sendTo (p d : ProcNr) (b : Nat) : Op Nat :=
  .ipc p .send (plainConf.endpoint d) (some b) noTables

instance (c : Conf) (s : State β) : (op : Op β) → Decidable (LastFirst c s op)
  | .ipc _ _ _ _ _ => inferInstanceAs (Decidable True)
  | .senda _ _ _ => inferInstanceAs (Decidable True)
  | .kernelSend p d _ => inferInstanceAs (Decidable ((s.proc p).sending = false ∨
      willReceive (s.proc d) (c.endpoint p) = true))
  | .kernelNotify _ _ => inferInstanceAs (Decidable True)
  | .delivermsg _ => inferInstanceAs (Decidable True)
  | .clearEndpoint p _ => inferInstanceAs (Decidable
      (((s.proc p).sending = true → (s.proc p).qLink = none) ∧ (queueOf s p).Pairwise (· > ·)))
  | .clearIpcRefs p _ => inferInstanceAs (Decidable ((queueOf s p).Pairwise (· > ·)))
  | .doClear p _ => inferInstanceAs (Decidable
      (((s.proc p).sending = true → (s.proc p).qLink = none) ∧ (queueOf s p).Pairwise (· > ·)))

/-- The computation ends with the fault `f`. -/
def faultsWith {α : Type} (f : Fault) : Except Fault α → Bool
  | .error g => g == f
  | .ok _ => false

theorem faultsWith_iff {α : Type} {f : Fault} {x : Except Fault α} :
    faultsWith f x = true ↔ x = .error f := by
  cases x with
  | error g => simp [faultsWith]
  | ok a => simp [faultsWith]

/-- 21 and then 20 wait for 22, whose references are cleared: each is last when its turn comes. -/
theorem callerQueues_two_senders :
    ∃ s, Reachable plainConf (LastFirst plainConf) s ∧ queueOf s 22 = [21, 20] ∧
      ((∃! d, 20 ∈ queueOf s d) ↔ (s.proc 20).sending = true) ∧
      step plainConf s (.clearIpcRefs 22 noTables) ≠ .error .qLink := by
  have hrun : (runOps plainConf (LastFirst plainConf) plainState
      [sendTo 21 22 8, sendTo 20 22 7]).any (fun s => decide (queueOf s 22 = [21, 20] ∧
        (Op.clearIpcRefs 22 noTables).Enabled s ∧
        LastFirst plainConf s (.clearIpcRefs 22 noTables))) = true := by
    decide +kernel
  obtain ⟨s, hs, hs'⟩ := (Option.any_eq_true _ _).mp hrun
  obtain ⟨hqueue, hen, hcond⟩ := of_decide_eq_true hs'
  have hreach := Reachable.runOps (.boot plainState_boot) hs
  have hwf := callerQueues_wellFormed hreach
  exact ⟨s, hreach, hqueue, hwf.1 20, hwf.2.2.2.2 _ hen hcond⟩

/-- 20 and then 21 wait for 22, whose references are cleared: 20 keeps its link, and its next send
stops the kernel. -/
theorem cleared_sender_keeps_link :
    ∃ s, Reachable plainConf (fun _ _ => True) s ∧ (s.proc 20).sending = false ∧
      (s.proc 20).qLink = some 21 ∧ (sendTo 20 22 9).Enabled s ∧
      step plainConf s (sendTo 20 22 9) = .error .qLink := by
  have hrun : (runOps plainConf (fun _ _ => True) plainState
      [sendTo 20 22 7, sendTo 21 22 8, .clearIpcRefs 22 noTables]).any (fun s =>
        decide ((s.proc 20).sending = false ∧ (s.proc 20).qLink = some 21 ∧
          (sendTo 20 22 9).Enabled s ∧
          faultsWith .qLink (step plainConf s (sendTo 20 22 9)) = true)) = true := by
    decide +kernel
  obtain ⟨s, hs, hs'⟩ := (Option.any_eq_true _ _).mp hrun
  obtain ⟨hsend, hlink, hen, hfault⟩ := of_decide_eq_true hs'
  exact ⟨s, Reachable.runOps (.boot plainState_boot) hs, hsend, hlink, hen,
    faultsWith_iff.mp hfault⟩

end HardenedMinix.Ipc
