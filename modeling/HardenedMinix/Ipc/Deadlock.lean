import HardenedMinix.Ipc.Queues
import HardenedMinix.Lib.Successor

/-!
# The deadlock check

`deadlock` keeps no record of the processes it has seen: it ends because no process waits for
itself. A `RECEIVE` from the own endpoint escapes it, and a message the kernel sends for a blocked
process hides what that one was waiting for.
-/

namespace HardenedMinix.Ipc

open Lib Relation

variable {β : Type} {c : Conf} {s s' s₁ s₂ : State β} {p q d rc cp x y : ProcNr} {e : Endpoint}
  {r : Errno} {tabs : Tables β} {b : β} {Q : ProcNr → List ProcNr} {fn : Call}

/-! ## Who waits for whom -/

/-- The process `p` is blocked on, if that is a process. -/
def waitsFor (c : Conf) (s : State β) (p : ProcNr) : Option ProcNr :=
  isokendpt c s (blockedOn (s.proc p))

/-- Nobody waits for itself, and who waits for a process waits for one that is there. -/
structure Waits (c : Conf) (s : State β) : Prop where
  acyclic : Acyclic (waitsFor c s)
  target : ∀ p, blockedOn (s.proc p) = .any ∨ blockedOn (s.proc p) = .none ∨
    ∃ q, blockedOn (s.proc p) = c.endpoint q ∧ (s.proc q).slotFree = false
  sendrec : ∀ p, (s.proc p).sending = true → (s.proc p).receiving = true →
    (s.proc p).getfromE = (s.proc p).sendtoE
  free : ∀ p, (s.proc p).slotFree = true →
    (s.proc p).sending = false ∧ (s.proc p).receiving = false

theorem waitsFor_eq_some (h : waitsFor c s p = some q) :
    blockedOn (s.proc p) = c.endpoint q ∧ (s.proc q).slotFree = false := isokendpt_eq_some h

theorem waitsFor_of_blockedOn (h : blockedOn (s.proc p) = c.endpoint q)
    (hq : (s.proc q).slotFree = false) : waitsFor c s p = some q := by
  rw [waitsFor, h, isokendpt_endpoint hq]

theorem blockedOn_none {x : IpcProc β} (hs : x.sending = false) (hr : x.receiving = false) :
    blockedOn x = .none := by
  simp [blockedOn, hs, hr]

/-! ## The walk -/

/-- "The function number is magically converted to flags": of a pair one of which is blocked,
one sends and the other receives. -/
def Opposite (fn : Call) (x : IpcProc β) : Prop :=
  (fn = .send ∧ x.sending = false) ∨ (fn = .receive ∧ x.sending = true)

theorem opposite_iff {x : IpcProc β} (hfn : fn = .send ∨ fn = .receive) :
    (rtsFlags x ^^^ (fn.nr <<< 2)) &&& 0x04 ≠ 0 ↔ Opposite fn x := by
  obtain ⟨f, n, sd, rv, _⟩ := x
  rcases hfn with rfl | rfl
  · cases f <;> cases n <;> cases sd <;> cases rv <;> simp [rtsFlags, Opposite, Call.nr]
  · cases f <;> cases n <;> cases sd <;> cases rv <;> simp [rtsFlags, Opposite, Call.nr]

/-- The loop ends, and finds the caller exactly if the walk leads to it, unless the pair of the
caller and the first process can get together. -/
theorem deadlockFrom_spec (hW : Waits c s) (hfn : fn = .send ∨ fn = .receive) :
    ∀ (fuel : Nat) (x : ProcNr) (size : Nat), rank (waitsFor c s) x < fuel →
      (s.proc x).slotFree = false → 1 ≤ size →
      ∃ n, deadlockFrom c s fn cp fuel (c.endpoint x) size = .ok n ∧
        (n ≠ 0 ↔ TransGen (Leads (waitsFor c s)) x cp ∧
          ¬ (size = 1 ∧ waitsFor c s x = some cp ∧ Opposite fn (s.proc x))) := by
  intro fuel
  induction fuel with
  | zero =>
    intro x size hr
    exact absurd hr (by omega)
  | succ fuel ih =>
    intro x size hr hx hsize
    rw [deadlockFrom_succ (c.endpoint_ne_any x), isokendpt_endpoint hx]
    dsimp only
    -- a process that waits for no process leads nowhere
    have hstop : waitsFor c s x = none → ¬ TransGen (Leads (waitsFor c s)) x cp := by
      intro hnone hpath
      obtain ⟨y, hxy, _⟩ := TransGen.head'_iff.mp hpath
      rw [Leads, hnone] at hxy
      cases hxy
    rcases hW.target x with hany | hnone | ⟨y, hy, hfree⟩
    case inl =>
      have hw : waitsFor c s x = none := by rw [waitsFor, hany]; rfl
      rw [hany, if_neg (by simp), if_neg (by simp [Conf.endpoint]), deadlockFrom_any]
      exact ⟨0, rfl, by simp [hstop hw]⟩
    case inr.inl =>
      have hw : waitsFor c s x = none := by rw [waitsFor, hnone]; rfl
      rw [if_pos hnone]
      exact ⟨0, rfl, by simp [hstop hw]⟩
    case inr.inr =>
      have hw := waitsFor_of_blockedOn hy hfree
      rw [if_neg (by rw [hy]; exact c.endpoint_ne_none y), hy]
      by_cases hcp : y = cp
      · subst hcp
        have hpath : TransGen (Leads (waitsFor c s)) x y := .single hw
        rw [if_pos rfl]
        by_cases htwo : size = 1 ∧ Opposite fn (s.proc x)
        · rw [if_pos ⟨by omega, (opposite_iff hfn).mpr htwo.2⟩]
          refine ⟨0, rfl, ?_⟩
          constructor
          · exact fun h => absurd rfl h
          · exact fun h => absurd ⟨htwo.1, hw, htwo.2⟩ h.2
        rw [if_neg (fun h => htwo ⟨by omega, (opposite_iff hfn).mp h.2⟩)]
        refine ⟨size + 1, rfl, ?_⟩
        constructor
        · exact fun _ => ⟨hpath, fun h => htwo ⟨h.1, h.2.2⟩⟩
        · exact fun _ => by omega
      rw [if_neg (fun h => hcp (c.endpoint_inj.mp h))]
      have hlt := hW.acyclic.rank_lt hw
      obtain ⟨n, hn, hiff⟩ := ih y (size + 1) (by omega) hfree (by omega)
      refine ⟨n, hn, hiff.trans ?_⟩
      have hstep : TransGen (Leads (waitsFor c s)) x cp ↔ TransGen (Leads (waitsFor c s)) y cp := by
        constructor
        · intro hpath
          obtain ⟨z, hxz, hz⟩ := TransGen.head'_iff.mp hpath
          rw [Leads, hw, Option.some.injEq] at hxz
          subst hxz
          rcases reflTransGen_iff_eq_or_transGen.mp hz with heq | htrans
          · exact absurd heq.symm hcp
          · exact htrans
        · exact fun hpath => TransGen.head hw hpath
      rw [hstep]
      constructor
      · rintro ⟨hpath, _⟩
        refine ⟨hpath, fun h => hcp ?_⟩
        rw [hw, Option.some.injEq] at h
        exact h.2.1
      · rintro ⟨hpath, _⟩
        exact ⟨hpath, fun h => by omega⟩

theorem deadlock_spec (hW : Waits c s) (hfn : fn = .send ∨ fn = .receive)
    (hx : (s.proc x).slotFree = false) :
    ∃ n, deadlock c s fn cp (c.endpoint x) = .ok n ∧ (n ≠ 0 ↔ TransGen (Leads (waitsFor c s)) x cp ∧
        ¬ (waitsFor c s x = some cp ∧ Opposite fn (s.proc x))) := by
  have hrank := rank_le (waitsFor c s) x
  rw [Fintype.card_fin] at hrank
  obtain ⟨n, hn, hiff⟩ := deadlockFrom_spec hW hfn (nrSlots + 1) x 1 (by omega) hx (le_refl 1)
  refine ⟨n, hn, ?_⟩
  simpa using hiff

/-! ## Steps that block nobody -/

/-- The process of the record `y` may be freed, and is not blocked. -/
structure Shrinks (x y : IpcProc β) : Prop where
  slotFree : x.slotFree = y.slotFree
  getfromE : x.getfromE = y.getfromE
  sendtoE : x.sendtoE = y.sendtoE
  sending : x.sending = true → y.sending = true
  receiving : x.receiving = true → y.receiving = true

theorem SameWait.shrinks {x y : IpcProc β} (h : SameWait x y) : Shrinks x y :=
  ⟨h.slotFree, h.getfromE, h.sendtoE, fun hx => h.sending ▸ hx, fun hx => h.receiving ▸ hx⟩

theorem Shrinks.trans {x y z : IpcProc β} (h₁ : Shrinks x y) (h₂ : Shrinks y z) : Shrinks x z where
  slotFree := h₁.slotFree.trans h₂.slotFree
  getfromE := h₁.getfromE.trans h₂.getfromE
  sendtoE := h₁.sendtoE.trans h₂.sendtoE
  sending := fun hx => h₂.sending (h₁.sending hx)
  receiving := fun hx => h₂.receiving (h₁.receiving hx)

theorem Quiet.shrinks (h : Quiet s s') (p : ProcNr) : Shrinks (s'.proc p) (s.proc p) :=
  ⟨h.slotFree p, h.getfromE p, h.sendtoE p, fun hx => h.sending p ▸ hx, h.receiving p⟩

theorem Taken.shrinks (h : Taken s s' p q e b) (j : ProcNr) : Shrinks (s'.proc j) (s.proc j) := by
  by_cases hj : j = q
  · subst hj
    refine ⟨h.sender.slotFree, h.sender.getfromE, h.sender.sendtoE, fun hx => ?_,
      fun hx => h.sender.receiving ▸ hx⟩
    rw [h.sender.sending] at hx
    exact absurd hx (by simp)
  · exact (h.others j hj).shrinks

theorem Cleared.shrinks (h : Cleared s s' rc) (j : ProcNr) : Shrinks (s'.proc j) (s.proc j) := by
  by_cases hj : j = rc
  · subst hj
    refine ⟨h.self.slotFree, h.self.getfromE, h.self.sendtoE, fun hx => ?_, fun hx => ?_⟩
    · rw [h.self.sending] at hx
      exact absurd hx (by simp)
    · rw [h.self.receiving] at hx
      exact absurd hx (by simp)
  · exact (h.others j hj).shrinks

theorem receiveDone_shrinks (s : State β) (p j : ProcNr) :
    Shrinks ((receiveDone s p).proc j) (s.proc j) := by
  by_cases hj : j = p
  · subst hj
    rw [receiveDone, State.set_proc_self]
    exact ⟨rfl, rfl, rfl, id, id⟩
  · rw [receiveDone, State.set_proc_of_ne _ _ hj]
    exact (SameWait.refl _).shrinks

namespace Waits

variable (hW : Waits c s)
include hW

theorem blockedOn_shrinks {z : IpcProc β} (h : Shrinks z (s.proc p)) :
    blockedOn z = blockedOn (s.proc p) ∨ blockedOn z = .none := by
  cases hsend : z.sending with
  | true => exact .inl (by simp [blockedOn, hsend, h.sending hsend, h.sendtoE])
  | false =>
    cases hrecv : z.receiving with
    | false => exact .inr (blockedOn_none hsend hrecv)
    | true =>
      have hrecv' := h.receiving hrecv
      left
      cases hsend' : (s.proc p).sending with
      | false => simp [blockedOn, hsend, hrecv, hsend', hrecv', h.getfromE]
      | true =>
        have heq := hW.sendrec p hsend' hrecv'
        simp [blockedOn, hsend, hrecv, hsend', h.getfromE, heq]

theorem shrink (h : ∀ p, Shrinks (s'.proc p) (s.proc p)) : Waits c s' := by
  constructor
  case acyclic =>
    apply hW.acyclic.mono
    intro p q hpq
    obtain ⟨hblocked, hfree⟩ := waitsFor_eq_some hpq
    rcases hW.blockedOn_shrinks (h p) with heq | hnone
    · exact waitsFor_of_blockedOn (heq.symm.trans hblocked) ((h q).slotFree.symm.trans hfree)
    · exact absurd (hnone.symm.trans hblocked) (Ne.symm (c.endpoint_ne_none q))
  case target =>
    intro p
    rcases hW.blockedOn_shrinks (h p) with heq | hnone
    · rw [heq]
      rcases hW.target p with hany | hn | ⟨q, hq, hfree⟩
      · exact .inl hany
      · exact .inr (.inl hn)
      · exact .inr (.inr ⟨q, hq, (h q).slotFree.trans hfree⟩)
    · exact .inr (.inl hnone)
  case sendrec =>
    intro p hsend hrecv
    rw [(h p).getfromE, (h p).sendtoE]
    exact hW.sendrec p ((h p).sending hsend) ((h p).receiving hrecv)
  case free =>
    intro p hfree
    rw [(h p).slotFree] at hfree
    obtain ⟨hsend, hrecv⟩ := hW.free p hfree
    constructor
    · by_contra hx
      have hx' := (h p).sending (by simpa using hx)
      rw [hsend] at hx'
      exact absurd hx' (by simp)
    · by_contra hx
      have hx' := (h p).receiving (by simpa using hx)
      rw [hrecv] at hx'
      exact absurd hx' (by simp)

/-- A process that is there is blocked on `e`: on anything, on nothing, or on one that does not lead
back to it. -/
theorem block (hfree : (s.proc p).slotFree = false)
    (hslot : ∀ j, (s'.proc j).slotFree = (s.proc j).slotFree)
    (hother : ∀ j, j ≠ p → SameWait (s'.proc j) (s.proc j))
    (hsendrec : (s'.proc p).sending = true → (s'.proc p).receiving = true →
      (s'.proc p).getfromE = (s'.proc p).sendtoE)
    (he : blockedOn (s'.proc p) = .any ∨ ∃ q, blockedOn (s'.proc p) = c.endpoint q ∧
      (s.proc q).slotFree = false ∧ ¬ ReflTransGen (Leads (waitsFor c s)) q p) :
    Waits c s' := by
  have hblocked : ∀ j, j ≠ p → blockedOn (s'.proc j) = blockedOn (s.proc j) := by
    intro j hj
    have h := hother j hj
    simp only [blockedOn, h.sending, h.receiving, h.sendtoE, h.getfromE]
  have hkept : ∀ z y, z ≠ p → waitsFor c s' z = some y → waitsFor c s z = some y := by
    intro z y hz hzy
    obtain ⟨hb, hf⟩ := waitsFor_eq_some hzy
    rw [hblocked z hz] at hb
    exact waitsFor_of_blockedOn hb (by rw [← hslot]; exact hf)
  constructor
  case acyclic =>
    rcases he with hany | ⟨q, hq, _, hback⟩
    · apply hW.acyclic.mono
      intro z y hzy
      by_cases hz : z = p
      · subst hz
        rw [waitsFor, hany] at hzy
        cases hzy
      · exact hkept z y hz hzy
    · apply hW.acyclic.add hback _ hkept
      intro y hy
      have hb := (waitsFor_eq_some hy).1
      exact (c.endpoint_inj.mp (hq.symm.trans hb)).symm
  case target =>
    intro j
    by_cases hj : j = p
    · subst hj
      rcases he with hany | ⟨q, hq, hf, _⟩
      · exact .inl hany
      · exact .inr (.inr ⟨q, hq, by rw [hslot]; exact hf⟩)
    rw [hblocked j hj]
    rcases hW.target j with hany | hn | ⟨q, hq, hf⟩
    · exact .inl hany
    · exact .inr (.inl hn)
    · exact .inr (.inr ⟨q, hq, by rw [hslot]; exact hf⟩)
  case sendrec =>
    intro j hsend hrecv
    by_cases hj : j = p
    · subst hj
      exact hsendrec hsend hrecv
    · have h := hother j hj
      rw [h.getfromE, h.sendtoE]
      exact hW.sendrec j (h.sending ▸ hsend) (h.receiving ▸ hrecv)
  case free =>
    intro j hj
    rw [hslot] at hj
    by_cases hjp : j = p
    · subst hjp
      rw [hfree] at hj
      exact absurd hj (by simp)
    · have h := hother j hjp
      rw [h.sending, h.receiving]
      exact hW.free j hj

end Waits

/-! ## The calls -/

variable {Cond : State β → Op β → Prop}

/-- The kernel sends only for a process not blocked, and not to itself, unless the message goes
through at once. -/
def SparesBlocked (c : Conf) (Cond : State β → Op β → Prop) : Prop :=
  ∀ s p d b, Cond s (.kernelSend p d b) →
    ((s.proc p).sending = false ∧ (s.proc p).receiving = false ∧ d ≠ p) ∨
      willReceive (s.proc d) (c.endpoint p) = true

theorem SparesBlocked.senders (h : SparesBlocked c Cond) : SparesSenders c Cond :=
  fun s p d b hcond => (h s p d b hcond).imp_left (fun h => h.1)

def NoSelfReceive (c : Conf) (Cond : State β → Op β → Prop) : Prop :=
  ∀ s p e m tabs, Cond s (.ipc p .receive e m tabs) → e ≠ c.endpoint p

theorem willReceive_of_waitsFor (hw : waitsFor c s x = some p)
    (hsend : (s.proc x).sending = false) : willReceive (s.proc x) (c.endpoint p) = true := by
  obtain ⟨hb, _⟩ := waitsFor_eq_some hw
  cases hrecv : (s.proc x).receiving with
  | false =>
    rw [blockedOn_none hsend hrecv] at hb
    exact absurd hb (Ne.symm (c.endpoint_ne_none p))
  | true =>
    have hget : (s.proc x).getfromE = c.endpoint p := by
      simpa [blockedOn, hsend, hrecv] using hb
    simp [willReceive, hrecv, hsend, hget]

theorem miniSend_waits (hspare : SparesBlocked c Cond) (hW : Waits c s) {m : Option β}
    {flags : SendFlags} (hwho : Sends c Cond s p d flags)
    (h : miniSend c s p (c.endpoint d) m flags = .ok (s', r)) : Waits c s' := by
  rcases miniSend_cases h with ⟨rfl, _⟩ | ⟨g, d', b, he, _, _, _, ⟨_, rfl⟩ | ⟨hwill, hdl, hq⟩⟩
  · exact hW
  · exact hW.shrink (directSend_quiet c s p d' b flags).shrinks
  simp only [Conf.endpoint, Endpoint.proc.injEq] at he
  obtain ⟨_, rfl⟩ := he
  obtain ⟨hsend, hrecv, hne⟩ : (s.proc p).sending = false ∧ (s.proc p).receiving = false ∧
      d ≠ p := by
    rcases hwho.who with ⟨_, b', hcond⟩ | ⟨h1, h2, _, h3⟩
    · exact (hspare s p d b' hcond).resolve_right (by rw [hwill]; simp)
    · exact ⟨h1, h2, h3⟩
  have hqueued := queueSend_queued hq
  have hsender := hqueued.sender
  apply hW.block hwho.live hqueued.slotFree hqueued.others
  · intro _ hx
    rw [hsender.receiving] at hx
    exact absurd (hx.symm.trans hrecv) (by simp)
  refine .inr ⟨d, ?_, hwho.dst, fun hback => ?_⟩
  · rw [blockedOn_of_sending hsender.sending]
    exact hsender.sendtoE
  -- the check returned zero, so `d` leads to `p` only as a receiver from `p`
  obtain ⟨n, hn, hiff⟩ := deadlock_spec hW (.inl rfl) hwho.dst
  rw [hn, Except.ok.injEq] at hdl
  have hpath : TransGen (Leads (waitsFor c s)) d p :=
    (reflTransGen_iff_eq_or_transGen.mp hback).resolve_left (fun heq => hne heq.symm)
  have htwo : waitsFor c s d = some p ∧ Opposite .send (s.proc d) := by
    by_contra hnot
    exact hiff.mpr ⟨hpath, hnot⟩ hdl
  rcases htwo.2 with ⟨_, hds⟩ | ⟨hfn, _⟩
  · rw [willReceive_of_waitsFor htwo.1 hds] at hwill
    exact absurd hwill (by simp)
  · cases hfn

theorem received_waits (hself : NoSelfReceive c Cond) (hW : Waits c s) (hQ : Queues c s Q)
    (hwho : Receives c Cond s p e) (h : Received c s p e s') : Waits c s' := by
  cases h with
  | soft hsoft => exact hW.shrink hsoft.quiet.shrinks
  | asyn hsoft => exact (hW.shrink hsoft.quiet.shrinks).shrink (receiveDone_shrinks _ p)
  | @notified _ _ s₁ _ _ _ htake =>
    exact (hW.shrink (takeNotify_quiet htake).shrinks).shrink (receiveDone_shrinks s₁ p)
  | @queued src s₁ q t head b _ hsoft hsend hun hb _ =>
    have hquiet := hsoft.quiet
    obtain ⟨_, _, _, _, _, _, htaken⟩ :=
      takeQueued_spec (hQ.of_quiet hquiet) ((hquiet.sending p).trans hsend) hun
    exact ((hW.shrink hquiet.shrinks).shrink htaken.shrinks).shrink (receiveDone_shrinks _ p)
  | @blocked src s₁ hsrc hsoft hdl hnone =>
    have hquiet := hsoft.quiet
    have hW1 := hW.shrink hquiet.shrinks
    have hfree1 : (s₁.proc p).slotFree = false := (hquiet.slotFree p).trans hwho.live
    have hself' : (s₁.set p { s₁.proc p with getfromE := e, receiving := true }).proc p =
        { s₁.proc p with getfromE := e, receiving := true } := State.set_proc_self _ _ _
    have hother : ∀ j, j ≠ p → SameWait ((s₁.set p { s₁.proc p with
        getfromE := e, receiving := true }).proc j) (s₁.proc j) := by
      intro j hj
      rw [State.set_proc_of_ne _ _ hj]
      exact SameWait.refl _
    have hslot : ∀ j, ((s₁.set p { s₁.proc p with
        getfromE := e, receiving := true }).proc j).slotFree = (s₁.proc j).slotFree := by
      intro j
      by_cases hj : j = p
      · subst hj
        rw [hself']
      · exact (hother j hj).slotFree
    -- whether it is sending or not, `p` is now blocked on `e`
    have hblocked : blockedOn { s₁.proc p with getfromE := e, receiving := true } = e := by
      cases hsend : (s₁.proc p).sending with
      | true =>
        have hto := (hwho.sendrec ((hquiet.sending p).symm.trans hsend)).1
        simp [blockedOn, hsend, hquiet.sendtoE p, hto]
      | false => simp [blockedOn, hsend]
    apply hW1.block hfree1 hslot hother
    · intro hsend _
      rw [hself'] at hsend ⊢
      have hto := (hwho.sendrec ((hquiet.sending p).symm.trans hsend)).1
      exact (hquiet.sendtoE p ▸ hto).symm
    rw [hself', hblocked]
    rcases hsrc with ⟨hany, _⟩ | ⟨q, hsome, rfl, hq, _⟩
    · exact .inl hany
    have hq1 : (s₁.proc q).slotFree = false := (hquiet.slotFree q).trans hq
    have hne : q ≠ p := by
      rintro rfl
      rcases hwho.own with hown | ⟨s0, m, tabs, hcond⟩
      · exact hown rfl
      · exact hself _ _ _ _ _ hcond rfl
    refine .inr ⟨q, rfl, hq1, fun hback => ?_⟩
    obtain ⟨n, hn, hiff⟩ := deadlock_spec hW1 (.inr rfl) hq1
    rw [hn, Except.ok.injEq] at hdl
    have hpath : TransGen (Leads (waitsFor c s₁)) q p :=
      (reflTransGen_iff_eq_or_transGen.mp hback).resolve_left (fun heq => hne heq.symm)
    have htwo : waitsFor c s₁ q = some p ∧ Opposite .receive (s₁.proc q) := by
      by_contra hnot
      exact hiff.mpr ⟨hpath, hnot⟩ hdl
    rcases htwo.2 with ⟨hfn, _⟩ | ⟨_, hqs⟩
    · cases hfn
    -- `q` is queued for `p`, so the receive would have found it; while `p` itself is
    -- sending to `q` there is a cycle already
    obtain ⟨hb, _⟩ := waitsFor_eq_some htwo.1
    rw [blockedOn_of_sending hqs] at hb
    rcases hnone with hsend | ⟨_, hun⟩
    · have hto := (hwho.sendrec hsend).1
      have hpq : waitsFor c s₁ p = some q := by
        apply waitsFor_of_blockedOn _ hq1
        rw [blockedOn_of_sending ((hquiet.sending p).trans hsend), hquiet.sendtoE p, hto]
      exact hW1.acyclic p (TransGen.head hpq (.single htwo.1))
    have hQ1 := hQ.of_quiet hquiet
    have hmem := (hQ1.mem q p).mpr ⟨hqs, hb⟩
    have hnot := unlinkFirst_none_inv (hQ1.chain p) hun q hmem
    rw [hsome] at hnot
    simp [accepts] at hnot

/-! ## Clearing -/

variable {ret : Errno}

theorem clearRef_shrinks (hQ : Queues c s Q) {rp : ProcNr}
    (h : clearRef c rc ret s rp = .ok s') (j : ProcNr) : Shrinks (s'.proc j) (s.proc j) := by
  obtain ⟨_, _, _, _, hproc | hcl⟩ := clearRef_spec hQ h
  · rw [hproc]
    exact (SameWait.refl _).shrinks
  · exact hcl.shrinks j

theorem clearRef_done (hW : Waits c s) (hQ : Queues c s Q) {rp : ProcNr}
    (h : clearRef c rc ret s rp = .ok s') : blockedOn (s'.proc rp) ≠ c.endpoint rc := by
  rcases clearRef_cases h with ⟨hfree, rfl⟩ | ⟨hblocked, rfl⟩ | ⟨_, hclear⟩
  · obtain ⟨hsend, hrecv⟩ := hW.free rp hfree
    rw [blockedOn_none hsend hrecv]
    exact Ne.symm (c.endpoint_ne_none rc)
  · exact hblocked
  · have hsame := clearing_same c s rc rp ret
    obtain ⟨_, hcl, _⟩ := clearIpc_spec (hQ.of_same (fun j => (hsame j).2)) hclear
    rw [blockedOn_none hcl.self.sending hcl.self.receiving]
    exact Ne.symm (c.endpoint_ne_none rc)

theorem clearRefs_waits {l : List ProcNr} (hW : Waits c s) (hQ : Queues c s Q)
    (h : l.foldlM (clearRef c rc ret) s = .ok s') :
    Waits c s' ∧ (∀ j, Shrinks (s'.proc j) (s.proc j)) ∧
      ∀ rp ∈ l, blockedOn (s'.proc rp) ≠ c.endpoint rc := by
  induction l generalizing s Q with
  | nil =>
    cases h
    exact ⟨hW, fun _ => (SameWait.refl _).shrinks, fun rp hrp => absurd hrp (by simp)⟩
  | cons rp l ih =>
    rw [List.foldlM_cons] at h
    obtain ⟨s₁, hone, hrest⟩ := bind_ok h
    obtain ⟨Q1, hQ1, _⟩ := clearRef_spec hQ hone
    have hshrink := clearRef_shrinks hQ hone
    have hW1 := hW.shrink hshrink
    obtain ⟨hW', hshrink', hdone⟩ := ih hW1 hQ1 hrest
    refine ⟨hW', fun j => (hshrink' j).trans (hshrink j), fun x hx => ?_⟩
    rcases List.mem_cons.mp hx with rfl | hx'
    · -- what is not blocked on `rc` any more stays so
      rcases hW1.blockedOn_shrinks (hshrink' x) with heq | hnone
      · rw [heq]
        exact clearRef_done hW hQ hone
      · rw [hnone]
        exact Ne.symm (c.endpoint_ne_none rc)
    · exact hdone x hx'

theorem clearIpcRefs_waits (hW : Waits c s) (hQ : Queues c s Q)
    (h : clearIpcRefs c s rc ret tabs = .ok s') :
    Waits c s' ∧ ∀ rp, blockedOn (s'.proc rp) ≠ c.endpoint rc := by
  obtain ⟨s₁, hcancel, hloop⟩ := bind_ok h
  have hquiet := (cancelAll_soft hcancel).quiet
  obtain ⟨hW', _, hdone⟩ := clearRefs_waits (hW.shrink hquiet.shrinks) (hQ.of_quiet hquiet) hloop
  exact ⟨hW', fun rp => hdone rp (List.mem_finRange rp)⟩

theorem clearEndpoint_waits (hW : Waits c s) (hQ : Queues c s Q)
    (h : clearEndpoint c s rc tabs = .ok s') :
    Waits c s' ∧ ∀ rp, blockedOn (s'.proc rp) ≠ c.endpoint rc := by
  obtain ⟨_, s₁, hclear, hrefs⟩ := clearEndpoint_cases h
  have hquiet := withoutEndpoint_quiet c s rc
  obtain ⟨hQ1, hcl, _⟩ := clearIpc_spec (hQ.of_quiet hquiet) hclear
  have hW1 := (hW.shrink hquiet.shrinks).shrink hcl.shrinks
  exact clearIpcRefs_waits hW1 hQ1 hrefs

theorem doClear_waits (hW : Waits c s) (hQ : Queues c s Q)
    (h : doClear c s rc tabs = .ok s') : Waits c s' := by
  rcases doClear_cases h with rfl | ⟨s₁, hclear, hproc, _⟩
  · exact hW
  obtain ⟨hW1, hdone⟩ := clearEndpoint_waits hW hQ hclear
  have hself : s'.proc rc = { s₁.proc rc with
      slotFree := true, noEndpoint := false, sending := false, receiving := false } := by
    rw [hproc, Function.update_self]
  have hother : ∀ j, j ≠ rc → s'.proc j = s₁.proc j := fun j hj => by
    rw [hproc, Function.update_of_ne hj]
  have hblocked : ∀ j, blockedOn (s'.proc j) = blockedOn (s₁.proc j) ∨
      blockedOn (s'.proc j) = .none := by
    intro j
    by_cases hj : j = rc
    · subst hj
      rw [hself]
      exact .inr (blockedOn_none rfl rfl)
    · rw [hother j hj]
      exact .inl rfl
  constructor
  case acyclic =>
    apply hW1.acyclic.mono
    intro z y hzy
    obtain ⟨hb, hf⟩ := waitsFor_eq_some hzy
    have hy : y ≠ rc := by
      rintro rfl
      rw [hself] at hf
      exact absurd hf (by simp)
    rw [hother y hy] at hf
    rcases hblocked z with heq | hnone
    · exact waitsFor_of_blockedOn (heq.symm.trans hb) hf
    · exact absurd (hnone.symm.trans hb) (Ne.symm (c.endpoint_ne_none y))
  case target =>
    intro j
    rcases hblocked j with heq | hnone
    · rw [heq]
      rcases hW1.target j with hany | hn | ⟨q, hq, hf⟩
      · exact .inl hany
      · exact .inr (.inl hn)
      · have hqr : q ≠ rc := fun h => hdone j (h ▸ hq)
        exact .inr (.inr ⟨q, hq, by rw [hother q hqr]; exact hf⟩)
    · exact .inr (.inl hnone)
  case sendrec =>
    intro j hsend hrecv
    by_cases hj : j = rc
    · subst hj
      rw [hself] at hsend
      exact absurd hsend (by simp)
    · rw [hother j hj] at hsend hrecv ⊢
      exact hW1.sendrec j hsend hrecv
  case free =>
    intro j hj
    by_cases hjr : j = rc
    · subst hjr
      rw [hself]
      exact ⟨rfl, rfl⟩
    · rw [hother j hjr] at hj ⊢
      exact hW1.free j hj

/-! ## Runs -/

theorem boot_waits (h : Boot s) : Waits c s := by
  have hnone : ∀ p, blockedOn (s.proc p) = .none := fun p =>
    blockedOn_none (h.sending p) (h.receiving p)
  constructor
  case acyclic =>
    intro p hcycle
    obtain ⟨q, hpq, _⟩ := TransGen.head'_iff.mp hcycle
    have hb := (waitsFor_eq_some hpq).1
    rw [hnone] at hb
    exact absurd hb (Ne.symm (c.endpoint_ne_none q))
  case target => exact fun p => .inr (.inl (hnone p))
  case sendrec =>
    intro p hsend
    rw [h.sending] at hsend
    exact absurd hsend (by simp)
  case free => exact fun p _ => ⟨h.sending p, h.receiving p⟩

theorem reachable_waits (hspare : SparesBlocked c Cond) (hself : NoSelfReceive c Cond)
    (h : Reachable c Cond s) : Waits c s := by
  induction h with
  | boot hb => exact boot_waits hb
  | step hreach hen hcond hstep ih =>
    have hboth := And.intro ih (reachable_queues hspare.senders hreach)
    refine (step_keeps (I := fun s => Waits c s ∧ ∃ Q, Queues c s Q)
      ?_ ?_ ?_ ?_ ?_ ?_ ?_ hboth hen hcond hstep).1
    · rintro s s' hsoft ⟨hW, Q, hQ⟩
      exact ⟨hW.shrink hsoft.quiet.shrinks, Q, hQ.of_quiet hsoft.quiet⟩
    · rintro s p x ⟨hW, Q, hQ⟩ hcore _ hx
      have hquiet := set_flags_quiet hcore hx
      exact ⟨hW.shrink hquiet.shrinks, Q, hQ.of_quiet hquiet⟩
    · rintro s s' p d m flags r ⟨hW, Q, hQ⟩ hwho hms
      obtain ⟨Q', hQ', _⟩ := miniSend_queues hspare.senders hQ hwho hms
      exact ⟨miniSend_waits hspare hW hwho hms, Q', hQ'⟩
    · rintro s s' p e ⟨hW, Q, hQ⟩ hwho hrecv
      obtain ⟨Q', hQ', _⟩ := received_queues hQ hrecv
      exact ⟨received_waits hself hW hQ hwho hrecv, Q', hQ'⟩
    · rintro s s' p tabs ⟨hW, Q, hQ⟩ _ _ hclear
      obtain ⟨⟨Q', hQ', _⟩, _⟩ := clearEndpoint_queues hQ hclear
      exact ⟨(clearEndpoint_waits hW hQ hclear).1, Q', hQ'⟩
    · rintro s s' p tabs ⟨hW, Q, hQ⟩ _ _ hclear
      obtain ⟨⟨Q', hQ', _⟩, _⟩ := clearIpcRefs_queues hQ hclear
      exact ⟨(clearIpcRefs_waits hW hQ hclear).1, Q', hQ'⟩
    · rintro s s' p tabs ⟨hW, Q, hQ⟩ _ hclear
      exact ⟨doClear_waits hW hQ hclear, (doClear_queues hQ hclear).1⟩

/-- Nobody receives from its own endpoint, and the kernel sends only for a process not blocked, and
not to itself, unless at once. -/
def Orderly (c : Conf) (s : State β) : Op β → Prop
  | .ipc p .receive e _ _ => e ≠ c.endpoint p
  | .kernelSend p d _ =>
    ((s.proc p).sending = false ∧ (s.proc p).receiving = false ∧ d ≠ p) ∨
      willReceive (s.proc d) (c.endpoint p) = true
  | _ => True

theorem orderly_spares : SparesBlocked c (Orderly c : State β → Op β → Prop) := fun _ _ _ _ h => h

theorem orderly_noSelf : NoSelfReceive c (Orderly c : State β → Op β → Prop) := fun _ _ _ _ _ h => h

/-! ## The pair that gets together -/

theorem miniSend_opposite (hw : waitsFor c s x = some p)
    (hsend : (s.proc x).sending = false) {m : Option β} {flags : SendFlags}
    (h : miniSend c s p (c.endpoint x) m flags = .ok (s', r)) :
    (s'.proc p).sending = (s.proc p).sending ∧ (r = .ok → (s'.proc x).receiving = false) := by
  have hwill := willReceive_of_waitsFor hw hsend
  rcases miniSend_cases h with ⟨rfl, hr⟩ | ⟨g, d', b, he, _, _, _, ⟨_, rfl⟩ | ⟨hnot, _⟩⟩
  · exact ⟨rfl, fun h => absurd h hr⟩
  · simp only [Conf.endpoint, Endpoint.proc.injEq] at he
    obtain ⟨_, rfl⟩ := he
    refine ⟨(directSend_quiet c s p x b flags).sending p, fun _ => ?_⟩
    simp only [directSend, State.log_proc, State.set_proc_self]
  · simp only [Conf.endpoint, Endpoint.proc.injEq] at he
    obtain ⟨_, rfl⟩ := he
    rw [hwill] at hnot
    exact absurd hnot (by simp)

theorem miniReceive_opposite (hQ : Queues c s Q) (hw : waitsFor c s x = some p)
    (hsend : (s.proc x).sending = true) (hps : (s.proc p).sending = false)
    (hpr : (s.proc p).receiving = false) {nb : Bool}
    (h : miniReceive c s p (c.endpoint x) nb tabs = .ok (s', r)) :
    (s'.proc p).receiving = false := by
  have hstays : ∀ z : IpcProc β, Shrinks z (s.proc p) → z.receiving = false := by
    intro z hz
    by_contra hx
    have hx' := hz.receiving (by simpa using hx)
    rw [hpr] at hx'
    exact absurd hx' (by simp)
  have hb := (waitsFor_eq_some hw).1
  rw [blockedOn_of_sending hsend] at hb
  cases miniReceive_cases h with
  | soft hsoft => exact hstays _ (hsoft.quiet.shrinks p)
  | asyn hsoft =>
    exact hstays _ ((receiveDone_shrinks _ p p).trans (hsoft.quiet.shrinks p))
  | @notified _ _ s₁ _ _ _ htake =>
    exact hstays _ ((receiveDone_shrinks s₁ p p).trans ((takeNotify_quiet htake).shrinks p))
  | @queued src s₁ q t head b _ hsoft hsend hun hb _ =>
    have hquiet := hsoft.quiet
    obtain ⟨_, _, _, _, _, _, htaken⟩ :=
      takeQueued_spec (hQ.of_quiet hquiet) ((hquiet.sending p).trans hsend) hun
    exact hstays _ ((receiveDone_shrinks _ p p).trans
      ((htaken.shrinks p).trans (hquiet.shrinks p)))
  | @blocked src s₁ hsrc hsoft hdl hnone =>
    exfalso
    have hQ1 := hQ.of_quiet hsoft.quiet
    rcases hnone with hs | ⟨_, hun⟩
    · rw [hps] at hs
      exact absurd hs (by simp)
    have hmem : x ∈ Q p := (hQ.mem x p).mpr ⟨hsend, hb⟩
    have hnot := unlinkFirst_none_inv (hQ1.chain p) hun x hmem
    rcases hsrc with ⟨hany, _⟩ | ⟨q, rfl, hq, _⟩
    · exact absurd hany (c.endpoint_ne_any x)
    · rw [c.endpoint_inj.mp hq] at hnot
      simp [accepts] at hnot

/-- **Deadlock check.** In every orderly run no process waits for itself, so `deadlock` ends; for
another endpoint it is not zero exactly if the edge closes a cycle and the two are not a sender and
a receiver, which get together. -/
theorem deadlock_acyclic_exact (h : Reachable c (Orderly c) s) :
    Acyclic (waitsFor c s) ∧ (∀ cp fn, deadlock c s fn cp .any = .ok 0) ∧
    ∀ cp x fn, (fn = Call.send ∨ fn = Call.receive) → (s.proc x).slotFree = false →
      (∃ n, deadlock c s fn cp (c.endpoint x) = .ok n) ∧
      ((∃ n, deadlock c s fn cp (c.endpoint x) = .ok n ∧
          (n ≠ 0 ↔ ReflTransGen (Leads (waitsFor c s)) x cp ∧
            ¬ (waitsFor c s x = some cp ∧ Opposite fn (s.proc x)))) ↔ x ≠ cp) ∧
      (waitsFor c s x = some cp → Opposite fn (s.proc x) → s.running cp →
        (fn = .send → ∀ m flags s' r, miniSend c s cp (c.endpoint x) m flags = .ok (s', r) →
          (s'.proc cp).sending = false ∧ (r = .ok → (s'.proc x).receiving = false)) ∧
        (fn = .receive → ∀ nb tabs s' r, miniReceive c s cp (c.endpoint x) nb tabs = .ok (s', r) →
          (s'.proc cp).receiving = false)) := by
  have hW := reachable_waits orderly_spares orderly_noSelf h
  obtain ⟨Q, hQ⟩ := reachable_queues orderly_spares.senders h
  refine ⟨hW.acyclic, fun cp fn => deadlockFrom_any, fun cp x fn hfn hx => ?_⟩
  obtain ⟨n, hn, hiff⟩ : ∃ n, deadlock c s fn cp (c.endpoint x) = .ok n ∧ _ :=
    deadlock_spec hW hfn hx
  refine ⟨⟨n, hn⟩, ?_, ?_⟩
  · constructor
    · -- its own endpoint: a cycle the walk does not see
      rintro ⟨n', hn', hiff'⟩ rfl
      rw [hn, Except.ok.injEq] at hn'
      subst hn'
      have hne : n ≠ 0 := by
        refine hiff'.mpr ⟨.refl, fun htwo => ?_⟩
        exact hW.acyclic x (.single htwo.1)
      exact hW.acyclic x (hiff.mp hne).1
    intro hne
    refine ⟨n, hn, hiff.trans ?_⟩
    rw [reflTransGen_iff_eq_or_transGen]
    constructor
    · exact fun ⟨hpath, htwo⟩ => ⟨.inr hpath, htwo⟩
    · exact fun ⟨hpath, htwo⟩ => ⟨hpath.resolve_left (Ne.symm hne), htwo⟩
  rintro hw hopp ⟨_, _, hps, hpr⟩
  constructor
  · rintro rfl m flags s' r hms
    have hsend : (s.proc x).sending = false := by
      rcases hopp with ⟨_, hs⟩ | ⟨hf, _⟩
      · exact hs
      · cases hf
    obtain ⟨hp, hr⟩ := miniSend_opposite hw hsend hms
    exact ⟨hp.trans hps, hr⟩
  rintro rfl nb tabs s' r hmr
  have hsend : (s.proc x).sending = true := by
    rcases hopp with ⟨hf, _⟩ | ⟨_, hs⟩
    · cases hf
    · exact hs
  exact miniReceive_opposite hQ hw hsend hps hpr hmr

instance (c : Conf) (s : State β) : (op : Op β) → Decidable (Orderly c s op)
  | .ipc _ .send _ _ _ => inferInstanceAs (Decidable True)
  | .ipc p .receive e _ _ => inferInstanceAs (Decidable (e ≠ c.endpoint p))
  | .ipc _ .sendrec _ _ _ => inferInstanceAs (Decidable True)
  | .ipc _ .notify _ _ _ => inferInstanceAs (Decidable True)
  | .ipc _ .sendnb _ _ _ => inferInstanceAs (Decidable True)
  | .senda _ _ _ => inferInstanceAs (Decidable True)
  | .kernelSend p d _ => inferInstanceAs (Decidable
      (((s.proc p).sending = false ∧ (s.proc p).receiving = false ∧ d ≠ p) ∨
        willReceive (s.proc d) (c.endpoint p) = true))
  | .kernelNotify _ _ => inferInstanceAs (Decidable True)
  | .delivermsg _ => inferInstanceAs (Decidable True)
  | .clearEndpoint _ _ => inferInstanceAs (Decidable True)
  | .clearIpcRefs _ _ => inferInstanceAs (Decidable True)
  | .doClear _ _ => inferInstanceAs (Decidable True)

/-- 20 waits for 21: the send of 21 to 20 would close a cycle, and is found to. -/
theorem deadlock_found : ∃ s : State Nat, Reachable plainConf (Orderly plainConf) s ∧
      waitsFor plainConf s 20 = some 21 ∧
      Acyclic (waitsFor plainConf s) ∧
      ∃ n, deadlock plainConf s .send 21 (plainConf.endpoint 20) = .ok n ∧ n ≠ 0 := by
  have hrun : (runOps plainConf (Orderly plainConf) plainState [sendTo 20 21 7]).any
      (fun s => decide (waitsFor plainConf s 20 = some 21 ∧ (s.proc 20).sending = true ∧
        (s.proc 20).slotFree = false)) = true := by
    decide +kernel
  obtain ⟨s, hs, hs'⟩ := (Option.any_eq_true _ _).mp hrun
  obtain ⟨hw, hsend, hfree⟩ := of_decide_eq_true hs'
  have hreach := Reachable.runOps (.boot plainState_boot) hs
  obtain ⟨hacyc, _, hcheck⟩ := deadlock_acyclic_exact hreach
  obtain ⟨_, hexact, _⟩ := hcheck 21 20 .send (.inl rfl) hfree
  obtain ⟨n, hn, hiff⟩ := hexact.mpr (by decide)
  refine ⟨s, hreach, hw, hacyc, n, hn, hiff.mpr ⟨.single hw, fun htwo => ?_⟩⟩
  rcases htwo.2 with ⟨_, hs0⟩ | ⟨hf, _⟩
  · rw [hsend] at hs0
    exact absurd hs0 (by simp)
  · cases hf

/-- 20 receives from its own endpoint; the check for the next sender to it does not end. -/
theorem receive_from_itself_hangs :
    ∃ s : State Nat, Reachable plainConf (fun _ _ => True) s ∧ ¬ Acyclic (waitsFor plainConf s) ∧
      deadlock plainConf s .send 21 (plainConf.endpoint 20) = .error .hang := by
  have hrun : (runOps plainConf (fun _ _ => True) plainState
      [.ipc 20 .receive (plainConf.endpoint 20) none noTables]).any (fun s =>
        decide (waitsFor plainConf s 20 = some 20 ∧
          faultsWith .hang (deadlock plainConf s .send 21 (plainConf.endpoint 20)) = true)) =
      true := by
    decide +kernel
  obtain ⟨s, hs, hs'⟩ := (Option.any_eq_true _ _).mp hrun
  obtain ⟨hw, hhang⟩ := of_decide_eq_true hs'
  refine ⟨s, Reachable.runOps (.boot plainState_boot) hs, fun hacyc => ?_, faultsWith_iff.mp hhang⟩
  exact hacyc 20 (.single hw)

end HardenedMinix.Ipc
