import HardenedMinix.Ipc.Queues
import HardenedMinix.Lib.Mailbox

/-!
# Delivery

The trace of a run replays as the history of mailboxes, so no message is lost or doubled. A
message the kernel sends for a process that is blocked receiving can leave it asleep on an
acceptable one.
-/

open List Option

namespace HardenedMinix.Ipc

open Lib Function Event

variable {β : Type} {c : Conf} {s s' s₁ s₂ : State β} {p q d rc : ProcNr} {e : Endpoint}
  {r : Errno} {tabs : Tables β} {b : β} {Q Q' : ProcNr → List ProcNr}

/-- A process that receives from `frm` accepts what `k` sends. -/
def acceptedBy (c : Conf) (frm : Endpoint) (k : ProcNr) : Bool :=
  frm == .any || frm == c.endpoint k

theorem SrcOf.accepts_eq {src : Option ProcNr} (h : SrcOf c s e src) (k : ProcNr) :
    accepts src k = acceptedBy c e k := by
  rcases h with ⟨rfl, rfl⟩ | ⟨q, rfl, rfl, _⟩
  · simp [accepts, acceptedBy]
  by_cases hk : q = k
  · subst hk
    simp [accepts, acceptedBy]
  have h1 : (q == k) = false := beq_false_of_ne hk
  have h2 : (c.endpoint q == c.endpoint k) = false :=
    beq_false_of_ne (fun heq => hk (c.endpoint_inj.mp heq))
  have h3 : (c.endpoint q == Endpoint.any) = false := beq_false_of_ne (c.endpoint_ne_any q)
  simp [accepts, acceptedBy, h1, h2, h3]

/-! ## Who sleeps -/

/-- A blocked receiver has no acceptable sender in its queue. -/
structure Wake (c : Conf) (s : State β) (Q : ProcNr → List ProcNr) : Prop where
  /-- who sends and receives is in a `SENDREC` -/
  sendrec : ∀ p, (s.proc p).sending = true → (s.proc p).receiving = true →
    (s.proc p).getfromE = (s.proc p).sendtoE ∧ (s.proc p).replyPend = true
  trap : ∀ p, (s.proc p).receiving = true → (s.proc p).replyPend = false →
    c.trapMask (c.priv p) .receive = true
  queue : ∀ p, (s.proc p).receiving = true → (s.proc p).sending = false →
    ∀ q ∈ Q p, acceptedBy c (s.proc p).getfromE q = false

namespace Wake

variable (hW : Wake c s Q)
include hW

theorem of_quiet (h : Quiet s s') : Wake c s' Q := by
  constructor
  case sendrec =>
    intro p hsend hrecv
    rw [h.sending] at hsend
    rw [h.getfromE, h.sendtoE, h.replyPend p hrecv]
    exact hW.sendrec p hsend (h.receiving p hrecv)
  case trap =>
    intro p hrecv hreply
    rw [h.replyPend p hrecv] at hreply
    exact hW.trap p (h.receiving p hrecv) hreply
  case queue =>
    intro p hrecv hsend
    rw [h.sending] at hsend
    rw [h.getfromE]
    exact hW.queue p (h.receiving p hrecv) hsend

theorem queued (h : Queued s s' p (c.endpoint d) d b) (hrecv : (s.proc p).receiving = false)
    (hwill : willReceive (s.proc d) (c.endpoint p) = false) :
    Wake c s' (update Q d (Q d ++ [p])) := by
  have hp : ∀ j, (s'.proc j).receiving = true → j ≠ p := by
    rintro j hj rfl
    rw [h.sender.receiving] at hj
    exact absurd (hj.symm.trans hrecv) (by simp)
  constructor
  case sendrec =>
    intro j hsend hr
    have hj := h.others j (hp j hr)
    rw [hj.getfromE, hj.sendtoE, hj.replyPend]
    exact hW.sendrec j (hj.sending ▸ hsend) (hj.receiving ▸ hr)
  case trap =>
    intro j hr hreply
    have hj := h.others j (hp j hr)
    exact hW.trap j (hj.receiving ▸ hr) (hj.replyPend ▸ hreply)
  case queue =>
    intro j hr hsend
    have hj := h.others j (hp j hr)
    rw [hj.getfromE]
    rw [hj.sending] at hsend
    rw [hj.receiving] at hr
    have hold := hW.queue j hr hsend
    by_cases hjd : j = d
    · subst hjd
      rw [update_self]
      intro k hk
      rcases mem_append.mp hk with hk' | hk'
      · exact hold k hk'
      · rw [mem_singleton.mp hk']
        simpa [willReceive, hr, hsend, acceptedBy] using hwill
    · rw [update_of_ne hjd]
      exact hold

theorem taken (hQ : Queues c s Q) (h : Taken s s' p q e b) (hmem : q ∈ Q p)
    (hsend : (s.proc p).sending = false) : Wake c s' (fun d => (Q d).erase q) := by
  obtain ⟨hqs, hqto⟩ := (hQ.mem q p).mp hmem
  constructor
  case sendrec =>
    intro j hs hr
    have hjq : j ≠ q := by
      rintro rfl
      rw [h.sender.sending] at hs
      exact absurd hs (by simp)
    have hj := h.others j hjq
    rw [hj.getfromE, hj.sendtoE, hj.replyPend]
    exact hW.sendrec j (hj.sending ▸ hs) (hj.receiving ▸ hr)
  case trap =>
    intro j hr hreply
    by_cases hjq : j = q
    · subst hjq
      rw [h.sender.receiving] at hr
      rw [h.sender.replyPend] at hreply
      exact hW.trap j hr hreply
    · have hj := h.others j hjq
      exact hW.trap j (hj.receiving ▸ hr) (hj.replyPend ▸ hreply)
  case queue =>
    intro j hr hs k hk
    have hk' : k ∈ Q j := mem_of_mem_erase hk
    by_cases hjq : j = q
    · subst hjq
      rw [h.sender.receiving] at hr
      rw [h.sender.getfromE]
      have hget := (hW.sendrec j hqs hr).1
      have hkp : k ≠ p := by
        rintro rfl
        exact hQ.not_mem hsend j hk'
      have hne : c.endpoint p ≠ c.endpoint k := fun heq => hkp (c.endpoint_inj.mp heq).symm
      simp only at hget ⊢
      simp [acceptedBy, hget, hqto, hne]
    · have hj := h.others j hjq
      rw [hj.getfromE]
      exact hW.queue j (hj.receiving ▸ hr) (hj.sending ▸ hs) k hk'

theorem cleared (h : Cleared s s' rc) (hsub : ∀ d, (Q' d).Sublist (Q d)) : Wake c s' Q' := by
  have hrc : ∀ j, (s'.proc j).receiving = true → j ≠ rc := by
    rintro j hj rfl
    rw [h.self.receiving] at hj
    exact absurd hj (by simp)
  constructor
  case sendrec =>
    intro j hs hr
    have hj := h.others j (hrc j hr)
    rw [hj.getfromE, hj.sendtoE, hj.replyPend]
    exact hW.sendrec j (hj.sending ▸ hs) (hj.receiving ▸ hr)
  case trap =>
    intro j hr hreply
    have hj := h.others j (hrc j hr)
    exact hW.trap j (hj.receiving ▸ hr) (hj.replyPend ▸ hreply)
  case queue =>
    intro j hr hs k hk
    have hj := h.others j (hrc j hr)
    rw [hj.getfromE]
    exact hW.queue j (hj.receiving ▸ hr) (hj.sending ▸ hs) k ((hsub j).subset hk)

end Wake

/-! ## Pending notifications -/

def Event.isRaised (i j : SysId) : Event β → Bool
  | .raised i' j' => decide (i' = i ∧ j' = j)
  | _ => false

def Event.isNotified (i j : SysId) : Event β → Bool
  | .notified i' j' _ => decide (i' = i ∧ j' = j)
  | _ => false

def Event.isLowered (i j : SysId) : Event β → Bool
  | .lowered i' j' => decide (i' = i ∧ j' = j)
  | _ => false

/-- Each bit that was raised made one notification, was lowered or is still up. -/
def BitsCounted (s : State β) : Prop :=
  ∀ i j, s.trace.countP (isRaised i j) =
    s.trace.countP (isNotified i j) + s.trace.countP (isLowered i j) +
      if s.notifyPending j i = true then 1 else 0

/-- A blocked receiver to which no reply is due has no acceptable bit pending. -/
def NoBits (c : Conf) (s : State β) : Prop :=
  ∀ p, (s.proc p).receiving = true → (s.proc p).sending = false →
    (s.proc p).replyPend = false → ∀ q, acceptedBy c (s.proc p).getfromE q = true →
      s.notifyPending (c.priv p) (c.priv q) = false

theorem NoBits.of_quiet (hN : NoBits c s) (h : Quiet s s')
    (hbits : ∀ i j, s'.notifyPending i j = true → s.notifyPending i j = true) :
    NoBits c s' := by
  intro p hr hs hreply q hq
  rw [h.sending] at hs
  rw [h.replyPend p hr] at hreply
  rw [h.getfromE] at hq
  have hold := hN p (h.receiving p hr) hs hreply q hq
  by_contra hx
  have hx' := hbits _ _ (by simpa using hx)
  rw [hold] at hx'
  exact absurd hx' (by simp)

theorem BitsCounted.of_trace (hB : BitsCounted s) {es : List (Event β)}
    (htrace : s'.trace = s.trace ++ es) (hbits : s'.notifyPending = s.notifyPending)
    (hes : ∀ i j, es.countP (isRaised i j) = es.countP (isNotified i j) +
      es.countP (isLowered i j)) : BitsCounted s' := by
  intro i j
  have h := hB i j
  have h' := hes i j
  rw [htrace, hbits]
  simp only [countP_append]
  omega

variable {K : SysId → Prop}

theorem Soft.noBits (h : Soft c K s s') (hW : Wake c s Q) (hN : NoBits c s) : NoBits c s' := by
  cases h with
  | bits hproc hbits _ => exact hN.of_quiet (Quiet.of_proc hproc) (fun i j hx => hbits ▸ hx)
  | write d x hcore hrecv hreply =>
    exact hN.of_quiet (Quiet.set hcore (fun hx => ⟨hrecv hx, hreply⟩)) (fun _ _ hx => hx)
  | raise src d hun _ hwill =>
    intro p hr hs hreply q hq
    have hold := hN p hr hs hreply q hq
    by_cases hsame : c.priv p = c.priv d ∧ c.priv q = c.priv src
    · exfalso
      -- who receives without a reply due shares its structure with nobody
      have hmask := hW.trap p hr hreply
      have hpd : p = d := by
        by_contra hne
        exact absurd (c.shared p d hne hsame.1 _ hmask) (by simp)
      obtain rfl : src = q := hun q hsame.2.symm
      subst hpd
      have hr' : (s.proc p).receiving = true := hr
      have hs' : (s.proc p).sending = false := hs
      have hreply' : (s.proc p).replyPend = false := hreply
      have hq' : acceptedBy c (s.proc p).getfromE src = true := hq
      rw [acceptedBy] at hq'
      simp [willReceive, hr', hs', hreply', hq'] at hwill
    show update s.notifyPending (c.priv d)
      (update (s.notifyPending (c.priv d)) (c.priv src) true) (c.priv p) (c.priv q) = false
    by_cases hpd : c.priv p = c.priv d
    · have hqs : c.priv q ≠ c.priv src := fun heq => hsame ⟨hpd, heq⟩
      rw [hpd, update_self, update_of_ne hqs, ← hpd]
      exact hold
    · rw [update_of_ne hpd]
      exact hold

theorem Soft.bitsCounted (h : Soft c K s s') (hB : BitsCounted s) : BitsCounted s' := by
  cases h with
  | bits _ hbits htrace =>
    intro i j
    rw [hbits, htrace]
    exact hB i j
  | write d x _ _ _ => exact hB
  | raise src d _ _ _ =>
    intro i j
    have h := hB i j
    show (s.trace ++ _).countP _ = (s.trace ++ _).countP _ + (s.trace ++ _).countP _ +
      if update s.notifyPending (c.priv d)
        (update (s.notifyPending (c.priv d)) (c.priv src) true) j i = true then 1 else 0
    simp only [countP_append]
    by_cases hij : i = c.priv src ∧ j = c.priv d
    · obtain ⟨rfl, rfl⟩ := hij
      rw [update_self, update_self]
      cases hbit : s.notifyPending (c.priv d) (c.priv src) with
      | true =>
        rw [hbit] at h
        simpa using h
      | false =>
        rw [hbit] at h
        simp only [Bool.false_eq_true, ↓reduceIte, Nat.add_zero] at h
        simp [isRaised, isNotified, isLowered, h]
    have hsame : update s.notifyPending (c.priv d)
        (update (s.notifyPending (c.priv d)) (c.priv src) true) j i =
        s.notifyPending j i := by
      by_cases hj : j = c.priv d
      · subst hj
        have hi : i ≠ c.priv src := fun heq => hij ⟨heq, rfl⟩
        rw [update_self, update_of_ne hi]
      · rw [update_of_ne hj]
    have hnot : ¬ (c.priv src = i ∧ c.priv d = j) := fun heq => hij ⟨heq.1.symm, heq.2.symm⟩
    rw [hsame]
    split
    · simpa using h
    · simpa [isRaised, isNotified, isLowered, countP_cons, hnot] using h

theorem BitsCounted.lower (hB : BitsCounted s) {i j : SysId} {es : List (Event β)}
    (htrace : s'.trace = s.trace ++ es)
    (hbits : s'.notifyPending = (lowerNotify s i j).notifyPending)
    (hes : ∀ i' j', es.countP (isRaised i' j') = 0 ∧
      es.countP (isNotified i' j') + es.countP (isLowered i' j') =
        if (i = i' ∧ j = j') ∧ s.notifyPending j i = true then 1 else 0) : BitsCounted s' := by
  intro i' j'
  have h := hB i' j'
  obtain ⟨hraised, hdown⟩ := hes i' j'
  have hbit : s'.notifyPending j' i' =
      if i = i' ∧ j = j' then false else s.notifyPending j' i' := by
    rw [hbits]
    show update s.notifyPending j (update (s.notifyPending j) i false) j' i' = _
    by_cases hj : j = j'
    · subst hj
      rw [update_self]
      by_cases hi : i = i'
      · subst hi
        simp
      · rw [update_of_ne (Ne.symm hi), if_neg (fun heq => hi heq.1)]
    · rw [update_of_ne (Ne.symm hj), if_neg (fun heq => hj heq.2)]
  rw [hbit, htrace]
  simp only [countP_append, hraised]
  by_cases hij : i = i' ∧ j = j'
  · obtain ⟨rfl, rfl⟩ := hij
    simp only [and_self, true_and] at hdown
    simp only [and_self, if_true, Bool.false_eq_true, if_false]
    omega
  · simp only [hij, false_and, if_false] at hdown
    rw [if_neg hij]
    omega

theorem hasPending_up {map : SysId → Bool} {src : Option ProcNr} {i : SysId}
    (h : hasPending c map src = some i) : map i = true := by
  cases src with
  | none => exact List.find?_some h
  | some q =>
    simp only [hasPending, ite_none_right_eq_some, some.injEq] at h
    obtain ⟨hmap, rfl⟩ := h
    exact hmap

theorem hasPending_none {map : SysId → Bool} {src : Option ProcNr}
    (hsrc : SrcOf c s e src) (h : hasPending c map src = none) (q : ProcNr)
    (hq : acceptedBy c e q = true) : map (c.priv q) = false := by
  rcases hsrc with ⟨rfl, rfl⟩ | ⟨q', rfl, rfl, _⟩
  · have hall := List.find?_eq_none.mp h (c.priv q) (mem_finRange _)
    simpa using hall
  · have hqq : q' = q := by
      simpa [acceptedBy, c.endpoint_inj] using hq
    subst hqq
    simpa [hasPending] using h

theorem deliverNotify_bits (c : Conf) (s : State β) (src p : ProcNr) :
    (deliverNotify c s src p).notifyPending = s.notifyPending ∧
      (deliverNotify c s src p).trace = s.trace := by
  rw [deliverNotify_eq]
  unfold buildNotify
  split
  · exact ⟨rfl, rfl⟩
  · split <;> exact ⟨rfl, rfl⟩

theorem takeNotify_bits {i : SysId} (h : takeNotify c s p e i = .ok s') :
    s'.notifyPending = (lowerNotify s i (c.priv p)).notifyPending ∧
      s'.trace = s.trace ++ [.notified i (c.priv p) p] := by
  unfold takeNotify at h
  split at h
  case h_1 => cases h
  case h_2 q _ =>
    split at h
    case isTrue => cases h
    split at h
    case isTrue => cases h
    cases h
    obtain ⟨hbits, htrace⟩ := deliverNotify_bits c (lowerNotify s i (c.priv p)) q p
    refine ⟨hbits, ?_⟩
    show _ ++ _ = _
    rw [htrace]
    rfl

theorem lowerNotify_le (s : State β) (i j i' j' : SysId)
    (h : (lowerNotify s i j).notifyPending j' i' = true) : s.notifyPending j' i' = true := by
  have h' : update s.notifyPending j (update (s.notifyPending j) i false) j' i' =
      true := h
  by_cases hj : j' = j
  · subst hj
    rw [update_self] at h'
    by_cases hi : i' = i
    · subst hi
      rw [update_self] at h'
      exact absurd h' (by simp)
    · rwa [update_of_ne hi] at h'
  · rwa [update_of_ne hj] at h'

/-! ## The mailboxes -/

def Event.mail (c : Conf) : Event β → List (Mail ProcNr ProcNr β)
  | .sent src dst b => [.put dst src b]
  | .placed src dst b frm => [.take dst (acceptedBy c frm) src b]
  | .dropped _ src dst b => [.withdraw dst src b]
  | .raised _ _ => []
  | .notified _ _ _ => []
  | .lowered _ _ => []

def mailOf (c : Conf) (tr : List (Event β)) : List (Mail ProcNr ProcNr β) :=
  tr.flatMap (Event.mail c)

theorem Soft.trace (h : Soft c K s s') : ∃ es, s'.trace = s.trace ++ es ∧ mailOf c es = [] ∧
      ∀ cl src dst b, dropped cl src dst b ∉ es := by
  cases h with
  | bits _ _ htrace => exact ⟨[], by simp [htrace], rfl, by simp⟩
  | write d x _ _ _ => exact ⟨[], (append_nil _).symm, rfl, by simp⟩
  | raise src d _ _ _ =>
    refine ⟨_, rfl, ?_, ?_⟩
    · split <;> rfl
    · intro cl src' dst b'
      split <;> simp

variable [DecidableEq β] {L : ProcNr → List (ProcNr × β)}

/-- The run so far leaves the mailboxes `L`: the queues, with what each sender has in its
buffer. -/
structure Mailboxes (c : Conf) (s : State β) (Q : ProcNr → List ProcNr)
    (L : ProcNr → List (ProcNr × β)) : Prop where
  replay : replay (fun _ => []) (mailOf c s.trace) = some L
  keys : ∀ d, (L d).map Prod.fst = Q d
  msgs : ∀ d, ∀ x ∈ L d, (s.proc x.1).sendmsg = some x.2

namespace Mailboxes

variable (hM : Mailboxes c s Q L)
include hM

variable {es : List (Event β)}

theorem replay_append (htrace : s'.trace = s.trace ++ es)
    {L' : ProcNr → List (ProcNr × β)} (hes : Lib.replay L (mailOf c es) = some L') :
    Lib.replay (fun _ => []) (mailOf c s'.trace) = some L' := by
  rw [htrace, mailOf, flatMap_append, Lib.replay_append, ← mailOf, hM.replay]
  exact hes

theorem grow (htrace : s'.trace = s.trace ++ es) (hes : mailOf c es = [])
    (hmsg : ∀ p, (s'.proc p).sendmsg = (s.proc p).sendmsg) : Mailboxes c s' Q L where
  replay := hM.replay_append htrace (by rw [hes]; rfl)
  keys := hM.keys
  msgs := fun d x hx => by
    rw [hmsg]
    exact hM.msgs d x hx

theorem mem_of_queued {d : ProcNr} (hq : q ∈ Q d) :
    ∃ b, (q, b) ∈ L d ∧ (s.proc q).sendmsg = some b := by
  rw [← hM.keys d, List.mem_map] at hq
  obtain ⟨⟨q', b⟩, hmem, rfl⟩ := hq
  exact ⟨b, hmem, hM.msgs d _ hmem⟩

theorem put (hp : ∀ d, p ∉ Q d) (htrace : s'.trace = s.trace ++ [.sent p d b])
    (hsender : (s'.proc p).sendmsg = some b)
    (hothers : ∀ j, j ≠ p → (s'.proc j).sendmsg = (s.proc j).sendmsg) :
    Mailboxes c s' (update Q d (Q d ++ [p]))
      (update L d (L d ++ [(p, b)])) where
  replay := hM.replay_append htrace rfl
  keys := fun d' => by
    by_cases hd : d' = d
    · subst hd
      rw [update_self, update_self, map_append, hM.keys]
      rfl
    · rw [update_of_ne hd, update_of_ne hd]
      exact hM.keys d'
  msgs := fun d' x hx => by
    have hold : ∀ d1, x ∈ L d1 → (s'.proc x.1).sendmsg = some x.2 := by
      intro d1 hx1
      have hne : x.1 ≠ p := by
        rintro heq
        apply hp d1
        rw [← hM.keys d1, ← heq]
        exact List.mem_map_of_mem hx1
      rw [hothers _ hne]
      exact hM.msgs d1 x hx1
    by_cases hd : d' = d
    · subst hd
      rw [update_self] at hx
      rcases mem_append.mp hx with hx' | hx'
      · exact hold _ hx'
      · rw [mem_singleton.mp hx']
        exact hsender
    · rw [update_of_ne hd] at hx
      exact hold d' hx

theorem direct {frm : Endpoint} (htrace : s'.trace = s.trace ++ [.sent p d b, .placed p d b frm])
    (hnone : ∀ k ∈ Q d, acceptedBy c frm k = false) (hp : acceptedBy c frm p = true)
    (hmsg : ∀ j, (s'.proc j).sendmsg = (s.proc j).sendmsg) : Mailboxes c s' Q L := by
  have hkey : ∀ x ∈ L d, acceptedBy c frm x.1 = false := by
    intro x hx
    apply hnone
    rw [← hM.keys d]
    exact List.mem_map_of_mem hx
  have hnot : (p, b) ∉ L d := by
    intro hmem
    have hx := hkey _ hmem
    simp only at hx
    rw [hp] at hx
    exact absurd hx (by simp)
  have hfind : (L d ++ [(p, b)]).find? (fun x => acceptedBy c frm x.1) = some (p, b) := by
    rw [List.find?_append, List.find?_eq_none.mpr (fun x hx => by simp [hkey x hx])]
    simp [hp]
  have hback : update (update L d (L d ++ [(p, b)])) d
      ((L d ++ [(p, b)]).erase (p, b)) = L := by
    rw [erase_append_right _ hnot, erase_cons_head, append_nil,
      update_idem, update_eq_self]
  refine ⟨hM.replay_append htrace ?_, hM.keys, fun d' x hx => ?_⟩
  · show (Mail.step (update L d (L d ++ [(p, b)]))
      (.take d (acceptedBy c frm) p b)).bind _ = some L
    rw [Mail.step, update_self, if_pos hfind, hback]
    rfl
  · rw [hmsg]
    exact hM.msgs d' x hx

theorem leave (hQ : Queues c s Q) (hmem : (q, b) ∈ L d) (htrace : s'.trace = s.trace ++ es)
    (hes : Lib.replay L (mailOf c es) = some (update L d ((L d).erase (q, b))))
    (hmsg : ∀ j, (s'.proc j).sendmsg = (s.proc j).sendmsg) :
    Mailboxes c s' (fun d' => (Q d').erase q) (update L d ((L d).erase (q, b))) where
  replay := hM.replay_append htrace hes
  keys := fun d' => by
    have hqd : q ∈ Q d := by
      rw [← hM.keys d]
      exact List.mem_map_of_mem hmem
    by_cases hd : d' = d
    · subst hd
      have hnd : ((L d').map Prod.fst).Nodup := by
        rw [hM.keys]
        exact (hQ.chain d').nodup
      rw [update_self, map_fst_erase hnd hmem, hM.keys]
    · have hnot : q ∉ Q d' := fun hq => hd (hQ.disjoint hq hqd)
      rw [update_of_ne hd, erase_of_not_mem hnot]
      exact hM.keys d'
  msgs := fun d' x hx => by
    rw [hmsg]
    apply hM.msgs d'
    by_cases hd : d' = d
    · subst hd
      rw [update_self] at hx
      exact mem_of_mem_erase hx
    · rwa [update_of_ne hd] at hx

end Mailboxes

/-! ## All of it -/

/-- What holds of the messages and notifications at every moment of a run. -/
structure Delivery (c : Conf) (s : State β) (Q : ProcNr → List ProcNr)
    (L : ProcNr → List (ProcNr × β)) : Prop where
  queues : Queues c s Q
  wake : Wake c s Q
  mail : Mailboxes c s Q L
  noBits : NoBits c s
  counted : BitsCounted s
  /-- only messages from or to a process that is cleared are withdrawn -/
  withdrawn : ∀ cl src dst b, dropped cl src dst b ∈ s.trace → cl = src ∨ cl = dst

namespace Delivery

variable (hD : Delivery c s Q L)
include hD

theorem withdrawn_append {es : List (Event β)} (htrace : s'.trace = s.trace ++ es)
    (hes : ∀ cl src dst b, dropped cl src dst b ∈ es → cl = src ∨ cl = dst) :
    ∀ cl src dst b, dropped cl src dst b ∈ s'.trace → cl = src ∨ cl = dst := by
  intro cl src dst b hmem
  rw [htrace] at hmem
  rcases mem_append.mp hmem with hmem' | hmem'
  · exact hD.withdrawn _ _ _ _ hmem'
  · exact hes _ _ _ _ hmem'

theorem soft {K : SysId → Prop} (h : Soft c K s s') : Delivery c s' Q L := by
  obtain ⟨es, htrace, hmail, hdrop⟩ := h.trace
  exact ⟨hD.queues.of_quiet h.quiet, hD.wake.of_quiet h.quiet,
    hD.mail.grow htrace hmail h.quiet.sendmsg, h.noBits hD.wake hD.noBits,
    h.bitsCounted hD.counted,
    hD.withdrawn_append htrace (fun _ _ _ _ hmem => absurd hmem (hdrop _ _ _ _))⟩

theorem softs {K : SysId → Prop} (h : Softs c K s s') : Delivery c s' Q L :=
  Softs.keeps (P := fun s => Delivery c s Q L) (fun _ _ hsoft hd => hd.soft hsoft) h hD

theorem of_quiet (h : Quiet s s') (hbits : s'.notifyPending = s.notifyPending)
    (htrace : s'.trace = s.trace) : Delivery c s' Q L := by
  have htrace' : s'.trace = s.trace ++ [] := by simp [htrace]
  exact ⟨hD.queues.of_quiet h, hD.wake.of_quiet h, hD.mail.grow htrace' rfl h.sendmsg,
    hD.noBits.of_quiet h (fun _ _ hx => hbits ▸ hx),
    hD.counted.of_trace htrace' hbits (fun _ _ => rfl),
    hD.withdrawn_append htrace' (by simp)⟩

end Delivery

/-! ## The calls -/

variable {Cond : State β → Op β → Prop}

/-- The kernel sends only for a process not blocked, unless the message goes through at once. -/
def SparesWaiting (c : Conf) (Cond : State β → Op β → Prop) : Prop :=
  ∀ s p d b, Cond s (.kernelSend p d b) →
    ((s.proc p).sending = false ∧ (s.proc p).receiving = false) ∨
      willReceive (s.proc d) (c.endpoint p) = true

theorem directSend_delivery (hD : Delivery c s Q L) {flags : SendFlags}
    (hwill : willReceive (s.proc d) (c.endpoint p) = true) :
    Delivery c (directSend c s p d b flags) Q L := by
  have hquiet := directSend_quiet c s p d b flags
  have htrace : (directSend c s p d b flags).trace =
      s.trace ++ [.sent p d b, .placed p d b (s.proc d).getfromE] := rfl
  simp only [willReceive, Bool.and_eq_true, Bool.not_eq_true'] at hwill
  obtain ⟨⟨hrecv, hsend⟩, hacc⟩ := hwill
  refine ⟨hD.queues.of_quiet hquiet, hD.wake.of_quiet hquiet, ?_,
    hD.noBits.of_quiet hquiet (fun _ _ hx => hx),
    hD.counted.of_trace htrace rfl (fun _ _ => rfl), hD.withdrawn_append htrace (by simp)⟩
  exact hD.mail.direct htrace (hD.wake.queue d hrecv hsend) hacc hquiet.sendmsg

theorem miniSend_delivery (hspare : SparesWaiting c Cond) (hD : Delivery c s Q L)
    {m : Option β} {flags : SendFlags} (hwho : Sends c Cond s p d flags)
    (h : miniSend c s p (c.endpoint d) m flags = .ok (s', r)) :
    ∃ Q' L', Delivery c s' Q' L' := by
  rcases miniSend_cases h with ⟨rfl, _⟩ | ⟨g, d', b, he, _, _, _, ⟨hwill, rfl⟩ | ⟨hwill, _, hq⟩⟩
  · exact ⟨Q, L, hD⟩
  · exact ⟨Q, L, directSend_delivery hD hwill⟩
  simp only [Conf.endpoint, Endpoint.proc.injEq] at he
  obtain ⟨_, rfl⟩ := he
  obtain ⟨hsend, hrecv⟩ : (s.proc p).sending = false ∧ (s.proc p).receiving = false := by
    rcases hwho.who with ⟨_, b', hcond⟩ | ⟨h1, h2, _⟩
    · exact (hspare s p d b' hcond).resolve_right (by rw [hwill]; simp)
    · exact ⟨h1, h2⟩
  have hqueued := queueSend_queued hq
  obtain ⟨hQ', _⟩ := queueSend_spec hD.queues hsend hwho.live hwho.dst hq
  have hmail := hD.mail.put (hD.queues.not_mem hsend) hqueued.trace hqueued.sender.sendmsg
    (fun j hj => (hqueued.others j hj).sendmsg)
  refine ⟨_, _, hQ', hD.wake.queued hqueued hrecv hwill, hmail, ?_,
    hD.counted.of_trace hqueued.trace hqueued.notifyPending (fun _ _ => rfl),
    hD.withdrawn_append hqueued.trace (by simp)⟩
  · intro j hr hs hreply q hqacc
    have hj : j ≠ p := by
      rintro rfl
      rw [hqueued.sender.sending] at hs
      exact absurd hs (by simp)
    have hother := hqueued.others j hj
    rw [hqueued.notifyPending]
    rw [hother.getfromE] at hqacc
    exact hD.noBits j (hother.receiving ▸ hr) (hother.sending ▸ hs)
      (hother.replyPend ▸ hreply) q hqacc

omit [DecidableEq β] in
theorem not_receiving_of_quiet (h : Quiet s s') (hrecv : (s.proc p).receiving = false) :
    (s'.proc p).receiving = false := by
  by_contra hx
  have hx' := h.receiving p (by simpa using hx)
  rw [hrecv] at hx'
  exact absurd hx' (by simp)

theorem receiveDone_delivery (hD : Delivery c s Q L) (hrecv : (s.proc p).receiving = false) :
    Delivery c (receiveDone s p) Q L :=
  hD.of_quiet (receiveDone_quiet hrecv) rfl rfl

theorem takeNotify_delivery (hD : Delivery c s Q L) {i : SysId}
    (hup : s.notifyPending (c.priv p) i = true) (h : takeNotify c s p e i = .ok s') :
    Delivery c s' Q L := by
  have hquiet := takeNotify_quiet h
  obtain ⟨hbits, htrace⟩ := takeNotify_bits h
  refine ⟨hD.queues.of_quiet hquiet, hD.wake.of_quiet hquiet,
    hD.mail.grow htrace rfl hquiet.sendmsg, ?_, hD.counted.lower htrace hbits ?_,
    hD.withdrawn_append htrace (by simp)⟩
  · apply hD.noBits.of_quiet hquiet
    intro i' j' hx
    rw [hbits] at hx
    exact lowerNotify_le s _ _ _ _ hx
  intro i' j'
  refine ⟨rfl, ?_⟩
  by_cases hij : i = i' ∧ c.priv p = j'
  · obtain ⟨rfl, rfl⟩ := hij
    simp [isNotified, isLowered, hup]
  · simp [isNotified, isLowered, hij]

theorem takeQueued_delivery (hD : Delivery c s Q L) (hsend : (s.proc p).sending = false)
    {src : Option ProcNr} (hacc : ∀ k, accepts src k = acceptedBy c e k)
    {t : ProcNr → IpcProc β} {head : Option ProcNr}
    (hun : unlinkFirst s.proc (accepts src) (s.proc p).callerQ = some (some (q, t, head)))
    (hb : (s.proc q).sendmsg = some b) :
    ∃ Q' L', Delivery c (takeQueued c s p q e b t head) Q' L' ∧ Q' p = (Q p).erase q := by
  obtain ⟨pre, suf, hl, hpre, hq, hQ', htaken⟩ :=
    takeQueued_spec (e := e) (b := b) hD.queues hsend hun
  have hmem : q ∈ Q p := by
    rw [hl]
    simp
  obtain ⟨m, hm, hfind⟩ : ∃ m, (q, m) ∈ L p ∧
      (L p).find? (fun x => acceptedBy c e x.1) = some (q, m) := by
    apply find?_of_keys ((hD.mail.keys p).trans hl)
    · intro a ha
      rw [← hacc]
      exact hpre a ha
    · rw [← hacc]
      exact hq
  have hmb : m = b := by
    have := hD.mail.msgs p _ hm
    rw [hb] at this
    simpa using this.symm
  subst hmb
  have hmsg : ∀ j, ((takeQueued c s p q e m t head).proc j).sendmsg = (s.proc j).sendmsg := by
    intro j
    by_cases hj : j = q
    · subst hj
      exact htaken.sender.sendmsg
    · exact (htaken.others j hj).sendmsg
  have hreplay : Lib.replay L (mailOf c [.placed q p m e]) =
      some (update L p ((L p).erase (q, m))) := by
    show (Mail.step L (.take p (acceptedBy c e) q m)).bind _ = _
    rw [Mail.step, if_pos hfind]
    rfl
  have hmail := hD.mail.leave hD.queues hm htaken.trace hreplay hmsg
  refine ⟨_, _, ⟨hQ', hD.wake.taken hD.queues htaken hmem hsend, hmail, ?_,
    hD.counted.of_trace htaken.trace htaken.notifyPending (fun _ _ => rfl),
    hD.withdrawn_append htaken.trace (by simp)⟩, rfl⟩
  · intro j hr hs hreply k hk
    rw [htaken.notifyPending]
    by_cases hj : j = q
    · -- a sender that goes on receiving has a reply due
      subst hj
      rw [htaken.sender.receiving] at hr
      rw [htaken.sender.replyPend] at hreply
      have hsq := ((hD.queues.mem j p).mp hmem).1
      have := (hD.wake.sendrec j hsq hr).2
      exact absurd (this.symm.trans hreply) (by simp)
    · have hother := htaken.others j hj
      rw [hother.getfromE] at hk
      exact hD.noBits j (hother.receiving ▸ hr) (hother.sending ▸ hs)
        (hother.replyPend ▸ hreply) k hk

theorem blocked_delivery (hD : Delivery c s Q L) {src : Option ProcNr} (hsrc : SrcOf c s₂ e src)
    (hsendrec : (s.proc p).sending = true → (s.proc p).sendtoE = e ∧ (s.proc p).replyPend = true)
    (htrap : (s.proc p).replyPend = true ∨ c.trapMask (c.priv p) .receive = true)
    (hnone : (s.proc p).sending = true ∨ ((s.proc p).replyPend = true ∨
      hasPending c (s.notifyPending (c.priv p)) src = none) ∧
      unlinkFirst s.proc (accepts src) (s.proc p).callerQ = some none) :
    Delivery c (s.set p { s.proc p with getfromE := e, receiving := true }) Q L := by
  have hself := State.set_proc_self s p { s.proc p with getfromE := e, receiving := true }
  have hother : ∀ j, j ≠ p →
      (s.set p { s.proc p with getfromE := e, receiving := true }).proc j = s.proc j :=
    fun j hj => State.set_proc_of_ne _ _ hj
  have htrace : (s.set p { s.proc p with getfromE := e, receiving := true }).trace = s.trace ++ [] :=
    (append_nil _).symm
  have hbits : (s.set p { s.proc p with
      getfromE := e, receiving := true }).notifyPending = s.notifyPending := rfl
  generalize s.set p { s.proc p with getfromE := e, receiving := true } = s' at *
  have hsame : ∀ j, SameQueues (s'.proc j) (s.proc j) := by
    intro j
    by_cases hj : j = p
    · subst hj
      rw [hself]
      exact ⟨rfl, rfl, rfl, rfl, rfl⟩
    · rw [hother j hj]
      exact ⟨rfl, rfl, rfl, rfl, rfl⟩
  have hmsg : ∀ j, (s'.proc j).sendmsg = (s.proc j).sendmsg := by
    intro j
    by_cases hj : j = p
    · subst hj
      rw [hself]
    · rw [hother j hj]
  refine ⟨hD.queues.of_same hsame, ⟨?_, ?_, ?_⟩, hD.mail.grow htrace rfl hmsg, ?_,
    hD.counted.of_trace htrace hbits (fun _ _ => rfl), hD.withdrawn_append htrace (by simp)⟩
  · intro j hs hr
    by_cases hj : j = p
    · subst hj
      rw [hself] at hs ⊢
      exact ⟨(hsendrec hs).1.symm, (hsendrec hs).2⟩
    · rw [hother j hj] at hs hr ⊢
      exact hD.wake.sendrec j hs hr
  · intro j hr hreply
    by_cases hj : j = p
    · subst hj
      rw [hself] at hreply
      have hreply' : (s.proc j).replyPend = false := hreply
      rw [hreply'] at htrap
      exact htrap.resolve_left (by simp)
    · rw [hother j hj] at hr hreply
      exact hD.wake.trap j hr hreply
  · intro j hr hs k hk
    by_cases hj : j = p
    · subst hj
      rw [hself] at hs ⊢
      have hs' : (s.proc j).sending = false := hs
      rw [hs'] at hnone
      obtain ⟨_, hun⟩ := hnone.resolve_left (by simp)
      rw [← hsrc.accepts_eq]
      exact unlinkFirst_none_inv (hD.queues.chain j) hun k hk
    · rw [hother j hj] at hr hs ⊢
      exact hD.wake.queue j hr hs k hk
  intro j hr hs hreply q hq
  rw [hbits]
  by_cases hj : j = p
  · subst hj
    rw [hself] at hs hreply hq
    have hs' : (s.proc j).sending = false := hs
    have hreply' : (s.proc j).replyPend = false := hreply
    rw [hs', hreply'] at hnone
    obtain ⟨hpend, _⟩ := hnone.resolve_left (by simp)
    exact hasPending_none hsrc (hpend.resolve_left (by simp)) q hq
  · rw [hother j hj] at hr hs hreply hq
    exact hD.noBits j hr hs hreply q hq

omit [DecidableEq β] in
theorem Softs.notifyPending {i : SysId} (h : Softs c (· ≠ i) s s') :
    s'.notifyPending i = s.notifyPending i := by
  apply Softs.keeps (P := fun t => t.notifyPending i = s.notifyPending i) _ h rfl
  intro t t' hstep ht
  cases hstep with
  | bits _ hbits _ => rw [hbits, ht]
  | write d x _ _ _ => exact ht
  | raise src d _ hne _ =>
    show update t.notifyPending (c.priv d) _ i = _
    rw [update_of_ne (Ne.symm hne), ht]

omit [DecidableEq β] in
theorem Softs.replyPend {K : SysId → Prop} (h : Softs c K s s') (p : ProcNr) :
    (s'.proc p).replyPend = (s.proc p).replyPend := by
  apply Softs.keeps (P := fun t => (t.proc p).replyPend = (s.proc p).replyPend) _ h rfl
  intro t t' hstep ht
  cases hstep with
  | bits hproc _ _ => rw [hproc, ht]
  | write d x _ _ hreply =>
    by_cases hp : p = d
    · subst hp
      rw [State.set_proc_self, hreply, ht]
    · rw [State.set_proc_of_ne _ _ hp, ht]
  | raise _ _ _ _ _ => exact ht

theorem received_delivery (hD : Delivery c s Q L) (hwho : Receives c Cond s p e)
    (h : Received c s p e s') : ∃ Q' L', Delivery c s' Q' L' := by
  cases h with
  | soft hsoft => exact ⟨Q, L, hD.softs hsoft⟩
  | asyn hsoft =>
    have hrecv := not_receiving_of_quiet hsoft.quiet hwho.notReceiving
    exact ⟨Q, L, receiveDone_delivery (hD.softs hsoft) hrecv⟩
  | notified _ _ hpend htake =>
    have hrecv := not_receiving_of_quiet (takeNotify_quiet htake) hwho.notReceiving
    exact ⟨Q, L, receiveDone_delivery (takeNotify_delivery hD (hasPending_up hpend) htake) hrecv⟩
  | @queued src s₁ q t head b hsrc hsoft hsend hun hb _ =>
    have hquiet := hsoft.quiet
    have hsend1 := (hquiet.sending p).trans hsend
    obtain ⟨Q', L', hD', _⟩ := takeQueued_delivery (hD.softs hsoft) hsend1 hsrc.accepts_eq hun hb
    obtain ⟨_, _, hl, _, _, _, htaken⟩ :=
      takeQueued_spec (e := e) (b := b) (hD.softs hsoft).queues hsend1 hun
    have hpq : p ≠ q := by
      rintro rfl
      exact (hD.softs hsoft).queues.not_mem hsend1 p (by rw [hl]; simp)
    refine ⟨Q', L', receiveDone_delivery hD' ?_⟩
    rw [(htaken.others p hpq).receiving]
    exact not_receiving_of_quiet hquiet hwho.notReceiving
  | @blocked src s₁ hsrc hsoft _ hnone =>
    have hquiet := hsoft.quiet
    refine ⟨Q, L, blocked_delivery (hD.softs hsoft) hsrc ?_ ?_ ?_⟩
    · rw [hquiet.sending, hquiet.sendtoE, hsoft.replyPend]
      exact hwho.sendrec
    · rw [hsoft.replyPend]
      exact hwho.trap
    · rw [hquiet.sending, hsoft.replyPend, hsoft.notifyPending]
      exact hnone

/-! ## Clearing -/

theorem clearIpc_delivery (hD : Delivery c s Q L) {cl : ProcNr}
    (hcl : (s.proc rc).sending = true → cl = rc ∨ (s.proc rc).sendtoE = c.endpoint cl)
    (h : clearIpc c s cl rc = .ok s') :
    ∃ L', Delivery c s' (fun d => (Q d).erase rc) L' := by
  obtain ⟨hQ', hcleared, hbits, htrace⟩ := clearIpc_spec hD.queues h
  have hwake := hD.wake.cleared hcleared (fun d => (erase_sublist : ((Q d).erase rc).Sublist _))
  have hmsg : ∀ j, (s'.proc j).sendmsg = (s.proc j).sendmsg := by
    intro j
    by_cases hj : j = rc
    · subst hj
      exact hcleared.self.sendmsg
    · exact (hcleared.others j hj).sendmsg
  have hnoBits : NoBits c s' := by
    intro j hr hs hreply q hq
    have hj : j ≠ rc := by
      rintro rfl
      rw [hcleared.self.receiving] at hr
      exact absurd hr (by simp)
    have hother := hcleared.others j hj
    rw [hbits]
    rw [hother.getfromE] at hq
    exact hD.noBits j (hother.receiving ▸ hr) (hother.sending ▸ hs)
      (hother.replyPend ▸ hreply) q hq
  rcases htrace with ⟨hsend, htrace⟩ | ⟨d, hsend, hto, htrace⟩
  · have herase : (fun d => (Q d).erase rc) = Q := by
      funext d
      exact erase_of_not_mem (hD.queues.not_mem hsend d)
    have htrace' : s'.trace = s.trace ++ [] := by simp [htrace]
    refine ⟨L, hQ', hwake, ?_, hnoBits,
      hD.counted.of_trace htrace' hbits (fun _ _ => rfl), hD.withdrawn_append htrace' (by simp)⟩
    rw [herase]
    exact hD.mail.grow htrace' rfl hmsg
  obtain ⟨b, hmem, hb⟩ := hD.mail.mem_of_queued ((hD.queues.mem rc d).mpr ⟨hsend, hto⟩)
  have htrace' : s'.trace = s.trace ++ [.dropped cl rc d b] := by
    rw [htrace, hb]
    rfl
  have hreplay : Lib.replay L (mailOf c [.dropped cl rc d b]) =
      some (update L d ((L d).erase (rc, b))) := by
    show (Mail.step L (.withdraw d rc b)).bind _ = _
    rw [Mail.step, if_pos hmem]
    rfl
  refine ⟨_, hQ', hwake, hD.mail.leave hD.queues hmem htrace' hreplay hmsg, hnoBits,
    hD.counted.of_trace htrace' hbits (fun _ _ => rfl), hD.withdrawn_append htrace' ?_⟩
  intro cl' src dst b' hev
  simp only [mem_singleton, dropped.injEq] at hev
  obtain ⟨rfl, rfl, rfl, _⟩ := hev
  exact (hcl hsend).imp_right (fun heq => (c.endpoint_inj.mp (hto.symm.trans heq)).symm)

theorem unsetPending_delivery (hD : Delivery c s Q L) (rc rp : ProcNr) :
    Delivery c (unsetPending c s rc rp) Q L := by
  have hquiet : Quiet s (unsetPending c s rc rp) := Quiet.of_proc rfl
  have htrace : (unsetPending c s rc rp).trace = s.trace ++
      (if s.notifyPending (c.priv rp) (c.priv rc) then [.lowered (c.priv rc) (c.priv rp)]
        else []) := rfl
  have hbits : (unsetPending c s rc rp).notifyPending =
      (lowerNotify s (c.priv rc) (c.priv rp)).notifyPending := rfl
  refine ⟨hD.queues.of_quiet hquiet, hD.wake.of_quiet hquiet,
    hD.mail.grow htrace ?_ hquiet.sendmsg, ?_, hD.counted.lower htrace hbits ?_,
    hD.withdrawn_append htrace ?_⟩
  · split <;> rfl
  · apply hD.noBits.of_quiet hquiet
    intro i j hx
    rw [hbits] at hx
    exact lowerNotify_le s _ _ _ _ hx
  · intro i j
    cases hup : s.notifyPending (c.priv rp) (c.priv rc) with
    | false => simp
    | true =>
      refine ⟨rfl, ?_⟩
      by_cases hij : c.priv rc = i ∧ c.priv rp = j
      · obtain ⟨rfl, rfl⟩ := hij
        simp [isNotified, isLowered]
      · simp [isNotified, isLowered, hij]
  · intro cl src dst b hev
    split at hev <;> simp at hev

theorem clearRef_delivery (hD : Delivery c s Q L) {rp : ProcNr} {ret : Errno}
    (h : clearRef c rc ret s rp = .ok s') : ∃ Q' L', Delivery c s' Q' L' := by
  rcases clearRef_cases h with ⟨_, rfl⟩ | ⟨_, rfl⟩ | ⟨hblocked, hclear⟩
  · exact ⟨Q, L, hD⟩
  · exact ⟨Q, L, unsetPending_delivery hD rc rp⟩
  have hD1 := unsetPending_delivery hD rc rp
  have hquiet : Quiet (unsetPending c s rc rp) (clearing c s rc rp ret) :=
    Quiet.set rfl (fun hx => ⟨hx, rfl⟩)
  have hD2 : Delivery c (clearing c s rc rp ret) Q L := hD1.of_quiet hquiet rfl rfl
  obtain ⟨L', hD'⟩ := clearIpc_delivery hD2 (fun hsend => .inr (by
    have hsame := (clearing_same c s rc rp ret rp).1
    rw [hsame.sending] at hsend
    rw [hsame.sendtoE, ← blockedOn_of_sending hsend]
    exact hblocked)) hclear
  exact ⟨_, L', hD'⟩

theorem clearIpcRefs_delivery {ret : Errno} (hD : Delivery c s Q L)
    (h : clearIpcRefs c s rc ret tabs = .ok s') : ∃ Q' L', Delivery c s' Q' L' := by
  obtain ⟨s₁, hcancel, hloop⟩ := bind_ok h
  have hD1 := hD.softs (cancelAll_soft hcancel)
  clear hcancel h hD
  generalize List.finRange nrSlots = l at hloop
  induction l generalizing s₁ Q L with
  | nil =>
    cases hloop
    exact ⟨Q, L, hD1⟩
  | cons rp l ih =>
    rw [foldlM_cons] at hloop
    obtain ⟨s₂, hone, hrest⟩ := bind_ok hloop
    obtain ⟨Q2, L2, hD2⟩ := clearRef_delivery hD1 hone
    exact ih s₂ hD2 hrest

theorem clearEndpoint_delivery (hD : Delivery c s Q L)
    (h : clearEndpoint c s rc tabs = .ok s') : ∃ Q' L', Delivery c s' Q' L' := by
  obtain ⟨_, s₁, hclear, hrefs⟩ := clearEndpoint_cases h
  have hbits : (withoutEndpoint c s rc).notifyPending = s.notifyPending ∧
      (withoutEndpoint c s rc).trace = s.trace := by
    unfold withoutEndpoint
    simp only
    split <;> exact ⟨rfl, rfl⟩
  have hD0 := hD.of_quiet (withoutEndpoint_quiet c s rc) hbits.1 hbits.2
  obtain ⟨L1, hD1⟩ := clearIpc_delivery hD0 (fun _ => .inl rfl) hclear
  exact clearIpcRefs_delivery hD1 hrefs

theorem doClear_delivery (hD : Delivery c s Q L) (h : doClear c s rc tabs = .ok s') :
    ∃ Q' L', Delivery c s' Q' L' := by
  rcases doClear_cases h with rfl | ⟨s₁, hclear, hproc, hbits, htrace⟩
  · exact ⟨Q, L, hD⟩
  obtain ⟨Q1, L1, hD1⟩ := clearEndpoint_delivery hD hclear
  obtain ⟨⟨Q2, hQ2, hnil, hgone⟩, _⟩ := clearEndpoint_queues hD.queues hclear
  -- both describe the same queues
  have heq : Q1 = Q2 := by
    funext d
    exact (hD1.queues.chain d).unique (hQ2.chain d)
  subst heq
  have hself : s'.proc rc = { s₁.proc rc with
      slotFree := true, noEndpoint := false, sending := false, receiving := false } := by
    rw [hproc, update_self]
  have hother : ∀ j, j ≠ rc → s'.proc j = s₁.proc j := fun j hj => by
    rw [hproc, update_of_ne hj]
  have hrc : ∀ j, (s'.proc j).receiving = true → j ≠ rc := by
    rintro j hj rfl
    rw [hself] at hj
    exact absurd hj (by simp)
  have htrace' : s'.trace = s₁.trace ++ [] := by simp [htrace]
  have hmsg : ∀ j, (s'.proc j).sendmsg = (s₁.proc j).sendmsg := by
    intro j
    by_cases hj : j = rc
    · subst hj
      rw [hself]
    · rw [hother j hj]
  refine ⟨Q1, L1, hD1.queues.freed hnil hgone hproc, ⟨?_, ?_, ?_⟩,
    hD1.mail.grow htrace' rfl hmsg, ?_, hD1.counted.of_trace htrace' hbits (fun _ _ => rfl),
    hD1.withdrawn_append htrace' (by simp)⟩
  · intro j hs hr
    have hj := hrc j hr
    rw [hother j hj] at hs hr ⊢
    exact hD1.wake.sendrec j hs hr
  · intro j hr hreply
    have hj := hrc j hr
    rw [hother j hj] at hr hreply
    exact hD1.wake.trap j hr hreply
  · intro j hr hs k hk
    have hj := hrc j hr
    rw [hother j hj] at hr hs ⊢
    exact hD1.wake.queue j hr hs k hk
  intro j hr hs hreply q hq
  have hj := hrc j hr
  rw [hother j hj] at hr hs hreply hq
  rw [hbits]
  exact hD1.noBits j hr hs hreply q hq

theorem boot_delivery (h : Boot s) :
    Delivery c s (fun _ => []) (fun _ => ([] : List (ProcNr × β))) where
  queues := boot_queues h
  wake := ⟨fun p hs => absurd (hs.symm.trans (h.sending p)) (by simp),
    fun p hr => absurd (hr.symm.trans (h.receiving p)) (by simp),
    fun p hr => absurd (hr.symm.trans (h.receiving p)) (by simp)⟩
  mail := ⟨by rw [h.trace]; rfl, fun _ => rfl, fun _ x hx => absurd hx (by simp)⟩
  noBits := fun p hr => absurd (hr.symm.trans (h.receiving p)) (by simp)
  counted := fun i j => by simp [h.trace, h.notifyPending]
  withdrawn := fun cl src dst b hev => by simp [h.trace] at hev

theorem reachable_delivery (hspare : SparesWaiting c Cond) (h : Reachable c Cond s) :
    ∃ Q L, Delivery c s Q L := by
  induction h with
  | boot hb => exact ⟨_, _, boot_delivery hb⟩
  | step _ hen hcond hstep ih =>
    refine step_keeps (I := fun s => ∃ Q L, Delivery c s Q L)
      ?_ ?_ ?_ ?_ ?_ ?_ ?_ ih hen hcond hstep
    · rintro s s' hsoft ⟨Q, L, hD⟩
      exact ⟨Q, L, hD.soft hsoft⟩
    · rintro s p x ⟨Q, L, hD⟩ hcore _ hx
      exact ⟨Q, L, hD.of_quiet (set_flags_quiet hcore hx) rfl rfl⟩
    · rintro s s' p d m flags r ⟨Q, L, hD⟩ hwho hms
      exact miniSend_delivery hspare hD hwho hms
    · rintro s s' p e ⟨Q, L, hD⟩ hwho hrecv
      exact received_delivery hD hwho hrecv
    · rintro s s' p tabs ⟨Q, L, hD⟩ _ _ hclear
      exact clearEndpoint_delivery hD hclear
    · rintro s s' p tabs ⟨Q, L, hD⟩ _ _ hclear
      exact clearIpcRefs_delivery hD hclear
    · rintro s s' p tabs ⟨Q, L, hD⟩ _ hclear
      exact doClear_delivery hD hclear

/-! ### What the trace records -/

/-- The event is the `OK` of a send of `b` from `p` to `d`. -/
def Event.isSent (p d : ProcNr) (b : β) : Event β → Bool
  | .sent p' d' b' => decide (d' = d ∧ p' = p ∧ b' = b)
  | _ => false

/-- The event places the message `b` of `p` in the buffer of `d`. -/
def Event.isPlaced (p d : ProcNr) (b : β) : Event β → Bool
  | .placed p' d' b' _ => decide (d' = d ∧ p' = p ∧ b' = b)
  | _ => false

/-- The event withdraws the message `b` of `p` to `d`. -/
def Event.isDropped (p d : ProcNr) (b : β) : Event β → Bool
  | .dropped _ p' d' b' => decide (d' = d ∧ p' = p ∧ b' = b)
  | _ => false

theorem countP_mailOf (c : Conf) (tr : List (Event β)) (p d : ProcNr) (b : β) :
    (mailOf c tr).countP (Mail.isPut d p b) = tr.countP (isSent p d b) ∧
      (mailOf c tr).countP (Mail.isTake d p b) = tr.countP (isPlaced p d b) ∧
      (mailOf c tr).countP (Mail.isWithdraw d p b) = tr.countP (isDropped p d b) := by
  induction tr with
  | nil => exact ⟨rfl, rfl, rfl⟩
  | cons ev tr ih =>
    obtain ⟨h1, h2, h3⟩ := ih
    have hcons : mailOf c (ev :: tr) = ev.mail c ++ mailOf c tr := rfl
    rw [hcons]
    simp only [countP_append, countP_cons, h1, h2, h3]
    cases ev <;>
      simp [Event.mail, isSent, isPlaced, isDropped, Mail.isPut, Mail.isTake,
        Mail.isWithdraw, countP_cons, Nat.add_comm]

theorem Delivery.count_box (hD : Delivery c s Q L) (p d : ProcNr) (b : β) :
    (L d).count (p, b) = if p ∈ Q d ∧ (s.proc p).sendmsg = some b then 1 else 0 := by
  have hnd : (L d).Nodup := by
    apply List.Nodup.of_map Prod.fst
    rw [hD.mail.keys]
    exact (hD.queues.chain d).nodup
  rw [hnd.count]
  have hiff : (p, b) ∈ L d ↔ p ∈ Q d ∧ (s.proc p).sendmsg = some b := by
    constructor
    · intro hmem
      refine ⟨?_, hD.mail.msgs d _ hmem⟩
      rw [← hD.mail.keys d]
      exact List.mem_map_of_mem hmem
    · rintro ⟨hp, hb⟩
      obtain ⟨b', hmem, hb'⟩ := hD.mail.mem_of_queued hp
      rw [hb, some.injEq] at hb'
      exact hb' ▸ hmem
  simp only [hiff]

/-- The kernel sends only for a process not blocked, unless the message goes through at once. -/
def Unblocked (c : Conf) (s : State β) : Op β → Prop
  | .kernelSend p d _ =>
    ((s.proc p).sending = false ∧ (s.proc p).receiving = false) ∨
      willReceive (s.proc d) (c.endpoint p) = true
  | _ => True

omit [DecidableEq β] in
theorem unblocked_spares : SparesWaiting c (Unblocked c : State β → Op β → Prop) := fun _ _ _ _ h => h

/-- **Delivery.** In every run in which the kernel spares blocked processes, messages neither placed
nor withdrawn are in the queues, in order; each accepted one is placed once, withdrawn once or in
its queue; only messages of a cleared process are withdrawn; each bit raised made one notification,
was lowered or is up; and no receiver sleeps on what it accepts. -/
theorem messages_delivered_once (h : Reachable c (Unblocked c) s) :
    (∃ L, replay (fun _ => []) (mailOf c s.trace) = some L ∧
      (∀ d, (L d).map Prod.fst = queueOf s d) ∧
      ∀ d, ∀ x ∈ L d, (s.proc x.1).sendmsg = some x.2) ∧
    (∀ p d b, s.trace.countP (isSent p d b) =
      s.trace.countP (isPlaced p d b) + s.trace.countP (isDropped p d b) +
        if p ∈ queueOf s d ∧ (s.proc p).sendmsg = some b then 1 else 0) ∧
    (∀ pre post p d b frm, s.trace = pre ++ placed p d b frm :: post →
      ∃ L, replay (fun _ => []) (mailOf c pre) = some L ∧
        (L d).find? (fun x => acceptedBy c frm x.1) = some (p, b)) ∧
    (∀ cl src dst b, dropped cl src dst b ∈ s.trace → cl = src ∨ cl = dst) ∧
    (∀ i j, s.trace.countP (isRaised i j) =
      s.trace.countP (isNotified i j) + s.trace.countP (isLowered i j) +
        if s.notifyPending j i = true then 1 else 0) ∧
    (∀ p, (s.proc p).receiving = true → (s.proc p).sending = false →
      (s.proc p).replyPend = false → ∀ q, acceptedBy c (s.proc p).getfromE q = true →
        q ∉ queueOf s p ∧ s.notifyPending (c.priv p) (c.priv q) = false) := by
  obtain ⟨Q, L, hD⟩ := reachable_delivery unblocked_spares h
  have hqueue : ∀ d, queueOf s d = Q d := hD.queues.follow_eq
  refine ⟨⟨L, hD.mail.replay, fun d => ?_, hD.mail.msgs⟩, fun p d b => ?_, ?_, hD.withdrawn,
    hD.counted, fun p hr hs hreply q hq => ⟨fun hmem => ?_, hD.noBits p hr hs hreply q hq⟩⟩
  · rw [hqueue, hD.mail.keys]
  · have hcount := replay_count hD.mail.replay d p b
    obtain ⟨h1, h2, h3⟩ := countP_mailOf c s.trace p d b
    rw [h1, h2, h3, hD.count_box] at hcount
    simp only [count_nil, Nat.zero_add] at hcount
    rw [hqueue]
    omega
  · intro pre post p d b frm htrace
    have hreplay := hD.mail.replay
    rw [htrace, mailOf, flatMap_append] at hreplay
    obtain ⟨L1, hpre, hpost⟩ := replay_of_append hreplay
    refine ⟨L1, hpre, ?_⟩
    obtain ⟨L2, hstep, _⟩ := bind_eq_some_iff.mp hpost
    simp only [Mail.step, ite_none_right_eq_some] at hstep
    exact hstep.1
  · rw [hqueue] at hmem
    have hnot := hD.wake.queue p hr hs q hmem
    rw [hq] at hnot
    exact absurd hnot (by simp)

instance (c : Conf) (s : State β) : (op : Op β) → Decidable (Unblocked c s op)
  | .ipc _ _ _ _ _ => inferInstanceAs (Decidable True)
  | .senda _ _ _ => inferInstanceAs (Decidable True)
  | .kernelSend p d _ => inferInstanceAs (Decidable
      (((s.proc p).sending = false ∧ (s.proc p).receiving = false) ∨
        willReceive (s.proc d) (c.endpoint p) = true))
  | .kernelNotify _ _ => inferInstanceAs (Decidable True)
  | .delivermsg _ => inferInstanceAs (Decidable True)
  | .clearEndpoint _ _ => inferInstanceAs (Decidable True)
  | .clearIpcRefs _ _ => inferInstanceAs (Decidable True)
  | .doClear _ _ => inferInstanceAs (Decidable True)

def receiveAny (p : ProcNr) : Op Nat := .ipc p .receive .any none noTables

/-- 20 and 21 send to 22, which receives once. -/
theorem delivered_first_sender :
    ∃ s : State Nat, Reachable plainConf (Unblocked plainConf) s ∧ 21 ∈ queueOf s 22 ∧
      s.trace.countP (isSent 20 22 7) = 1 ∧ s.trace.countP (isPlaced 20 22 7) = 1 ∧
      s.trace.countP (isSent 21 22 8) = 1 ∧
      s.trace.countP (isPlaced 21 22 8) + s.trace.countP (isDropped 21 22 8) = 0 := by
  have hrun : (runOps plainConf (Unblocked plainConf) plainState
      [sendTo 20 22 7, sendTo 21 22 8, receiveAny 22]).any (fun s => decide (
        queueOf s 22 = [21] ∧ (s.proc 21).sendmsg = some 8 ∧
        s.trace.countP (isSent 20 22 7) = 1 ∧
        s.trace.countP (isDropped 20 22 7) = 0 ∧
        s.trace.countP (isSent 21 22 8) = 1)) = true := by
    decide +kernel
  obtain ⟨s, hs, hs'⟩ := (Option.any_eq_true _ _).mp hrun
  obtain ⟨hqueue, hmsg, hsent, hdropped, hsent'⟩ := of_decide_eq_true hs'
  have hreach := Reachable.runOps (.boot plainState_boot) hs
  obtain ⟨_, hcount, _⟩ := messages_delivered_once hreach
  have h20 := hcount 20 22 7
  have h21 := hcount 21 22 8
  rw [hqueue] at h20 h21
  rw [if_neg (fun h => absurd h.1 (by decide)), hsent, hdropped] at h20
  rw [if_pos ⟨by decide, hmsg⟩, hsent'] at h21
  refine ⟨s, hreach, ?_, hsent, ?_, hsent', ?_⟩
  · rw [hqueue]
    exact mem_singleton.mpr rfl
  · omega
  · omega

/-- The kernel sends to VM in the name of 20, which waits for any message: 21 queues up behind it,
and 20 sleeps on with an acceptable sender. -/
theorem receiver_sleeps_on_sender :
    ∃ s : State Nat, Reachable plainConf (fun _ _ => True) s ∧ (s.proc 20).receiving = true ∧
      (s.proc 20).sending = false ∧ (s.proc 20).replyPend = false ∧
      acceptedBy plainConf (s.proc 20).getfromE 21 = true ∧ 21 ∈ queueOf s 20 := by
  have hrun : (runOps plainConf (fun _ _ => True) plainState
      [receiveAny 20, .kernelSend 20 13 5, sendTo 21 20 8, receiveAny 13]).any (fun s =>
        decide ((s.proc 20).receiving = true ∧ (s.proc 20).sending = false ∧
          (s.proc 20).replyPend = false ∧ acceptedBy plainConf (s.proc 20).getfromE 21 = true ∧
          21 ∈ queueOf s 20)) = true := by
    decide +kernel
  obtain ⟨s, hs, hs'⟩ := (Option.any_eq_true _ _).mp hrun
  exact ⟨s, Reachable.runOps (.boot plainState_boot) hs, of_decide_eq_true hs'⟩

end HardenedMinix.Ipc
