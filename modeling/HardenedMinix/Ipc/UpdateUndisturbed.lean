import HardenedMinix.Ipc.UpdateSwap

/-!
# Who is disturbed by an update

An update keeps what refers to the two slots, and a second one undoes it. It disturbs those who
wait to receive from one of them, pending asynchronous messages, and masks that do not fit.
-/

open List

namespace HardenedMinix.Update

open Lib State
open HardenedMinix.Ipc (Endpoint SysId)

variable {ρ π : Type} {s s₁ t u : State ρ π} {src dst p q d : ProcNr} {i j k : SysId}
  {srcE dstE : Endpoint} {Q : ProcNr → List ProcNr}

/-! ## What stays with a slot -/

/-- The fields that stay with the slot, for every process. -/
structure SameSlot (x y : Proc ρ) : Prop where
  endpoint : x.endpoint = y.endpoint
  nr : x.nr = y.nr
  priv : x.priv = y.priv
  callerQ : x.callerQ = y.callerQ

theorem Exchanged.slot (h : Exchanged s t src dst) (p : ProcNr) : SameSlot (t.proc p) (s.proc p) := by
  by_cases hp : p = src
  · rw [hp, h.srcProc]
    exact ⟨rfl, rfl, rfl, rfl⟩
  by_cases hp' : p = dst
  · rw [hp', h.dstProc]
    exact ⟨rfl, rfl, rfl, rfl⟩
  · rw [h.proc p hp hp']
    exact ⟨rfl, rfl, rfl, rfl⟩

/-- The fields that stay with the place of a privilege structure. -/
structure SamePlace (x y : Priv π) : Prop where
  procNr : x.procNr = y.procNr
  id : x.id = y.id
  notify : x.notifyPending = y.notifyPending
  int : x.intPending = y.intPending
  sig : x.sigPending = y.sigPending

theorem Exchanged.srcPlace (h : Exchanged s t src dst) : t.privOf src = t.priv (s.proc src).priv := by
  unfold privOf
  rw [(h.slot src).priv]

theorem Exchanged.dstPlace (h : Exchanged s t src dst) : t.privOf dst = t.priv (s.proc dst).priv := by
  unfold privOf
  rw [(h.slot dst).priv]

theorem Exchanged.place (h : Exchanged s t src dst) (i : SysId) :
    SamePlace (t.priv i) (s.priv i) := by
  by_cases hi : i = (s.proc src).priv
  · rw [hi, ← h.srcPlace, h.srcPriv]
    exact ⟨rfl, rfl, rfl, rfl, rfl⟩
  by_cases hi' : i = (s.proc dst).priv
  · rw [hi', ← h.dstPlace, h.dstPriv]
    exact ⟨rfl, rfl, rfl, rfl, rfl⟩
  · rw [h.priv i hi hi']
    exact ⟨rfl, rfl, rfl, rfl, rfl⟩

theorem Swapped.refs (h : Swapped s t src dst) (hs : Refs s) (hacc : Accepted s src dst)
    (hsrc : (s.privOf src).procNr = some src) (hdst : (s.privOf dst).procNr = some dst) :
    Refs t := by
  have hex := h.exchanged
  refine ⟨fun p => ?_, fun i => ?_, fun p => ?_, fun p hp hsys => ?_, fun i p hi => ?_⟩
  · rw [(hex.slot p).nr]
    exact hs.nr p
  · rw [(hex.place i).id]
    exact hs.id i
  · rw [(hex.slot p).endpoint]
    exact hs.endpoint p
  · have hprocNr : (t.privOf p).procNr = (s.privOf p).procNr := by
      unfold privOf
      rw [(hex.slot p).priv, (hex.place _).procNr]
    rw [hprocNr]
    by_cases hps : p = src
    · rw [hps]
      exact hsrc
    by_cases hpd : p = dst
    · rw [hpd]
      exact hdst
    rw [hex.proc p hps hpd] at hp
    refine hs.procNr p hp ?_
    by_cases hi : (s.proc p).priv = (s.proc src).priv
    · unfold privOf
      rw [hi]
      exact hacc.srcSys
    by_cases hi' : (s.proc p).priv = (s.proc dst).priv
    · unfold privOf
      rw [hi']
      exact hacc.dstSys
    · unfold privOf at hsys ⊢
      rw [(hex.slot p).priv, hex.priv _ hi hi'] at hsys
      exact hsys
  · rw [(hex.place i).procNr] at hi
    rw [(hex.slot p).priv]
    exact hs.priv i p hi

/-! ## The caller queues -/

theorem Exchanged.symm (h : Exchanged s t src dst) : Exchanged s t dst src :=
  ⟨h.dstProc, h.srcProc, fun p hp hp' => h.proc p hp' hp, h.dstPriv, h.srcPriv,
    fun i hi hi' => h.priv i hi' hi⟩

/-- A process in a queue, before the other one if that waits there too, leaves its slot in the
queue. -/
theorem queues_lost {Q' : ProcNr → List ProcNr} {pre suf : List ProcNr} (hs : Queues s Q)
    (ht : Queues t Q') (h : Exchanged s t src dst) (hne : src ≠ dst)
    (hd : Q d = pre ++ src :: suf) (hpre : dst ∉ pre) : False := by
  have hchain := hs.chain d
  rw [hd] at hchain
  have hnodup := hchain.nodup
  have hsrcpre : src ∉ pre := fun hmem => (disjoint_of_nodup_append hnodup) hmem
    mem_cons_self
  have hlink : ∀ k, k ≠ src → k ≠ dst → (t.proc k).qLink = (s.proc k).qLink := by
    intro k hk hk'
    rw [h.proc k hk hk']
  have hchain' := ht.chain d
  rw [(h.slot d).callerQ] at hchain'
  obtain ⟨suf', hd', hrest⟩ := hchain.same_start hchain' fun k hk =>
    hlink k (fun heq => hsrcpre (heq ▸ hk)) fun heq => hpre (heq ▸ hk)
  have hendpoint : ∀ p, (t.proc p).endpoint = (s.proc p).endpoint := fun p => (h.slot p).endpoint
  -- the other process waits for the same one, as its contents are in the slot that is found
  have hdst : dst ∈ Q d := by
    have hmem : src ∈ Q' d := by
      rw [hd']
      simp
    rw [ht.mem, hendpoint, h.srcProc] at hmem
    rw [hs.mem]
    exact hmem
  have hdst' : dst ∈ Q' d := by
    have hmem : src ∈ Q d := by
      rw [hd]
      simp
    rw [hs.mem] at hmem
    rw [ht.mem, hendpoint, h.dstProc]
    exact hmem
  have hsuf : dst ∈ suf := by
    rw [hd, mem_append, mem_cons] at hdst
    exact (hdst.resolve_left hpre).resolve_left hne.symm
  obtain ⟨mid, last, rfl⟩ := append_of_mem hsuf
  -- the walk goes on behind it, and does not come back
  obtain ⟨o, hbehind⟩ : ∃ o, Chain s.proc o (dst :: last) := by
    have hall : Chain s.proc (s.proc d).callerQ ((pre ++ src :: mid) ++ dst :: last) := by
      simpa using hchain
    exact hall.of_append
  obtain ⟨-, hlast⟩ := hbehind.start_of_cons
  have hnodup' : dst ∉ last ∧ src ∉ last := by
    have hn := hnodup
    rw [nodup_append, nodup_cons, nodup_append, nodup_cons] at hn
    obtain ⟨-, ⟨hsrc, -, ⟨hdl, -⟩, -⟩, -⟩ := hn
    refine ⟨hdl, fun hmem => hsrc ?_⟩
    simp [hmem]
  have hlast' : Chain t.proc ((s.proc dst).qLink) last := by
    apply hlast.congr
    intro k hk
    exact hlink k (fun heq => hnodup'.2 (heq ▸ hk)) fun heq => hnodup'.1 (heq ▸ hk)
  have hrest' : Chain t.proc ((s.proc dst).qLink) suf' := by
    have hq : (t.proc src).qLink = (s.proc dst).qLink := by
      rw [h.srcProc]
      rfl
    rw [← hq]
    exact hrest
  rw [hrest'.unique hlast'] at hd'
  rw [hd', mem_append, mem_cons] at hdst'
  exact hdst'.elim hpre fun h => h.elim (fun heq => hne heq.symm) hnodup'.1

theorem queues_not_sending (hs : Queues s Q) (ht : ∃ Q', Queues t Q') (h : Exchanged s t src dst)
    (hne : src ≠ dst) : (s.proc src).sending = false := by
  by_contra hsending
  rw [Bool.not_eq_false] at hsending
  obtain ⟨Q', ht⟩ := ht
  obtain ⟨d, htarget, -⟩ := hs.target src hsending
  have hmem : src ∈ Q d := (hs.mem src d).mpr ⟨hsending, htarget⟩
  obtain ⟨pre, suf, hd⟩ := append_of_mem hmem
  by_cases hpre : dst ∈ pre
  · obtain ⟨pre1, x, rfl⟩ := append_of_mem hpre
    have hnodup := (hs.chain d).nodup
    rw [hd, append_assoc, cons_append] at hnodup
    have hd' : Q d = pre1 ++ dst :: (x ++ src :: suf) := by
      rw [hd, append_assoc, cons_append]
    refine queues_lost hs ht h.symm hne.symm hd' fun hbad => ?_
    exact disjoint_of_nodup_append hnodup hbad (by simp)
  · exact queues_lost hs ht h hne hd hpre

theorem queues_kept (hs : Queues s Q) (h : Exchanged s t src dst)
    (hsrc : (s.proc src).sending = false) (hdst : (s.proc dst).sending = false)
    (hfree : (s.proc src).slotFree = false ∧ (s.proc dst).slotFree = false) : Queues t Q := by
  have hnot : ∀ p, (t.proc p).sending = true → t.proc p = s.proc p := by
    intro p hp
    by_cases hps : p = src
    · rw [hps, h.srcProc] at hp
      rw [Proc.inSlot, hdst] at hp
      cases hp
    by_cases hpd : p = dst
    · rw [hpd, h.dstProc] at hp
      rw [Proc.inSlot, hsrc] at hp
      cases hp
    · exact h.proc p hps hpd
  have hnot' : ∀ p, (s.proc p).sending = true → t.proc p = s.proc p := by
    intro p hp
    refine h.proc p ?_ ?_
    · rintro rfl
      rw [hsrc] at hp
      cases hp
    · rintro rfl
      rw [hdst] at hp
      cases hp
  have hslot : ∀ d, (t.proc d).slotFree = (s.proc d).slotFree := by
    intro d
    by_cases hds : d = src
    · rw [hds, h.srcProc, hfree.1]
      exact hfree.2
    · by_cases hdd : d = dst
      · rw [hdd, h.dstProc, hfree.2]
        exact hfree.1
      · rw [h.proc d hds hdd]
  refine ⟨fun d => ?_, fun p d => ?_, fun p hp => ?_, fun p hp => ?_⟩
  · rw [(h.slot d).callerQ]
    apply (hs.chain d).congr
    intro k hk
    rw [hnot' k ((hs.mem k d).mp hk).1]
  · rw [(h.slot d).endpoint]
    constructor
    · intro hp
      have hp' := (hs.mem p d).mp hp
      rw [hnot' p hp'.1]
      exact hp'
    · intro hp
      rw [hnot p hp.1] at hp
      exact (hs.mem p d).mpr hp
  · have heq := hnot p hp
    rw [heq] at hp ⊢
    obtain ⟨d, hd, hused⟩ := hs.target p hp
    exact ⟨d, by rw [(h.slot d).endpoint]; exact hd, by rw [hslot]; exact hused⟩
  by_contra hsending
  rw [Bool.not_eq_false] at hsending
  have heq := hnot p hsending
  rw [heq] at hp hsending
  rw [hs.free p hp] at hsending
  cases hsending

/-- Neither may send to the other, and who may send or reply to one may do so with the other in its
place. -/
structure Fits (s : State ρ π) (src dst : ProcNr) : Prop where
  toSrc : (s.privOf dst).ipcTo (s.proc src).priv = false
  toDst : (s.privOf src).ipcTo (s.proc dst).priv = false
  reply : ∀ i, i ≠ (s.proc src).priv → i ≠ (s.proc dst).priv → (s.priv i).procNr ≠ none →
    (s.privOf dst).ipcTo i = true → (s.privOf src).ipcTo i = false →
    (s.priv i).canReply = true → (s.priv i).ipcTo (s.proc src).priv = true
  fromSrc : ∀ i, i ≠ (s.proc src).priv → i ≠ (s.proc dst).priv → (s.priv i).procNr ≠ none →
    (s.priv i).ipcTo (s.proc src).priv = true → (s.privOf dst).canReply = true →
    (s.privOf src).ipcTo i = true ∨ (s.privOf dst).ipcTo i = true
  fromDst : ∀ i, i ≠ (s.proc src).priv → i ≠ (s.proc dst).priv → (s.priv i).procNr ≠ none →
    (s.priv i).ipcTo (s.proc dst).priv = true → (s.privOf src).canReply = true →
    (s.privOf src).ipcTo i = true

theorem closed_iff (hs : Closed s) (hpriv : (s.proc src).priv ≠ (s.proc dst).priv)
    (h : Exchanged s t src dst) (hm : Inherited s t src dst)
    (hsrc : (s.privOf src).procNr = some src) (hdst : (s.privOf dst).procNr = some dst) :
    Closed t ↔ Fits s src dst := by
  have hnr : ∀ i, (t.priv i).procNr = (s.priv i).procNr := fun i => (h.place i).procNr
  have hS : (s.priv (s.proc src).priv).procNr ≠ none := by
    have heq : (s.priv (s.proc src).priv).procNr = some src := hsrc
    rw [heq]
    simp
  have hD : (s.priv (s.proc dst).priv).procNr ≠ none := by
    have heq : (s.priv (s.proc dst).priv).procNr = some dst := hdst
    rw [heq]
    simp
  have hcanS : (t.priv (s.proc src).priv).canReply = (s.privOf dst).canReply := by
    rw [← h.srcPlace, h.srcPriv]
    rfl
  have hcanD : (t.priv (s.proc dst).priv).canReply = (s.privOf src).canReply := by
    rw [← h.dstPlace, h.dstPriv]
    rfl
  have hcan : ∀ i, i ≠ (s.proc src).priv → i ≠ (s.proc dst).priv →
      (t.priv i).canReply = (s.priv i).canReply := by
    intro i hi hi'
    rw [h.priv i hi hi']
    rfl
  -- the masks before: no process may send to itself
  have hSS : (s.privOf src).ipcTo (s.proc src).priv = false := by
    by_contra hyes
    exact (hs _ _ hS hS (Bool.of_not_eq_false hyes)).1 rfl
  have hDD : (s.privOf dst).ipcTo (s.proc dst).priv = false := by
    by_contra hyes
    exact (hs _ _ hD hD (Bool.of_not_eq_false hyes)).1 rfl
  -- the masks after
  have hSbit : ∀ k, (s.priv k).procNr ≠ none → k ≠ (s.proc dst).priv →
      ((t.priv (s.proc src).priv).ipcTo k = true ↔
        (s.privOf src).ipcTo k = true ∨ (s.privOf dst).ipcTo k = true) := by
    intro k hk hne
    rw [hm.srcMask]
    split_ifs with hyes
    · simp [hk, hne, hyes]
    · simp [hyes]
  have hbit : ∀ i, i ≠ (s.proc src).priv → i ≠ (s.proc dst).priv →
      (t.priv i).ipcTo (s.proc src).priv = (s.priv i).ipcTo (s.proc src).priv := by
    intro i hi hi'
    rw [hm.others i _ hi hi', if_neg fun hbad => hpriv hbad.1]
  have hbit' : ∀ i, i ≠ (s.proc src).priv → i ≠ (s.proc dst).priv → (s.priv i).procNr ≠ none →
      ((t.priv i).ipcTo (s.proc dst).priv = true ↔ (s.priv i).ipcTo (s.proc dst).priv = true ∨
        (s.privOf src).ipcTo i = true ∧ (s.priv i).canReply = true) := by
    intro i hi hi' hnri
    rw [hm.others i _ hi hi']
    split_ifs with hyes
    · simp [hyes.2.1, hyes.2.2.2]
    simp only [true_and, not_and] at hyes
    constructor
    · exact .inl
    · rintro (hb | hb)
      · exact hb
      · exact absurd hb.2 (hyes hb.1 hnri)
  constructor
  · intro hclosed
    refine ⟨?_, ?_, fun i hi hi' hnri hyes hno hreply => ?_, fun i hi hi' hnri hyes hreply => ?_,
      fun i hi hi' hnri hyes hreply => ?_⟩
    · by_contra hyes
      have hbad : (t.priv (s.proc src).priv).ipcTo (s.proc src).priv = true :=
        (hSbit _ hS hpriv).mpr (.inr (Bool.of_not_eq_false hyes))
      exact (hclosed _ _ (by rwa [hnr]) (by rwa [hnr]) hbad).1 rfl
    · by_contra hyes
      have hbad : (t.priv (s.proc dst).priv).ipcTo (s.proc dst).priv = true := by
        rw [hm.dstMask]
        exact Bool.of_not_eq_false hyes
      exact (hclosed _ _ (by rwa [hnr]) (by rwa [hnr]) hbad).1 rfl
    · have hsend := (hSbit i hnri hi').mpr (.inr hyes)
      have hback := (hclosed _ _ (by rwa [hnr]) (by rwa [hnr]) hsend).2
        (by rw [hcan i hi hi']; exact hreply)
      rwa [hbit i hi hi'] at hback
    · have hsend : (t.priv i).ipcTo (s.proc src).priv = true := by
        rw [hbit i hi hi']
        exact hyes
      have hback := (hclosed _ _ (by rwa [hnr]) (by rwa [hnr]) hsend).2
        (by rw [hcanS]; exact hreply)
      exact (hSbit i hnri hi').mp hback
    · have hsend := (hbit' i hi hi' hnri).mpr (.inl hyes)
      have hback := (hclosed _ _ (by rwa [hnr]) (by rwa [hnr]) hsend).2
        (by rw [hcanD]; exact hreply)
      rwa [hm.dstMask] at hback
  · intro hfits i j hi hj hsend
    rw [hnr] at hi hj
    by_cases hiS : i = (s.proc src).priv
    · subst hiS
      by_cases hjD : j = (s.proc dst).priv
      · -- the loop has taken the destination out of its own mask
        subst hjD
        rw [hm.srcMask, hDD] at hsend
        split_ifs at hsend with hyes
        rw [hfits.toDst] at hyes
        cases hyes
      obtain hyes | hyes := (hSbit j hj hjD).mp hsend
      · by_cases hjS : j = (s.proc src).priv
        · rw [hjS, hSS] at hyes
          cases hyes
        · refine ⟨fun heq => hjS heq.symm, fun hreply => ?_⟩
          rw [hcan j hjS hjD] at hreply
          rw [hbit j hjS hjD]
          exact (hs _ j hS hj hyes).2 hreply
      by_cases hjS : j = (s.proc src).priv
      · rw [hjS, hfits.toSrc] at hyes
        cases hyes
      refine ⟨fun heq => hjS heq.symm, fun hreply => ?_⟩
      rw [hcan j hjS hjD] at hreply
      rw [hbit j hjS hjD]
      by_cases hsrcj : (s.privOf src).ipcTo j = true
      · exact (hs _ j hS hj hsrcj).2 hreply
      · exact hfits.reply j hjS hjD hj hyes (Bool.of_not_eq_true hsrcj) hreply
    by_cases hiD : i = (s.proc dst).priv
    · subst hiD
      rw [hm.dstMask] at hsend
      by_cases hjD : j = (s.proc dst).priv
      · rw [hjD, hfits.toDst] at hsend
        cases hsend
      by_cases hjS : j = (s.proc src).priv
      · rw [hjS, hSS] at hsend
        cases hsend
      · refine ⟨fun heq => hjD heq.symm, fun hreply => ?_⟩
        rw [hcan j hjS hjD] at hreply
        exact (hbit' j hjS hjD hj).mpr (.inr ⟨hsend, hreply⟩)
    by_cases hjS : j = (s.proc src).priv
    · subst hjS
      rw [hbit i hiS hiD] at hsend
      refine ⟨hiS, fun hreply => ?_⟩
      rw [hcanS] at hreply
      exact (hSbit i hi hiD).mpr (hfits.fromSrc i hiS hiD hi hsend hreply)
    by_cases hjD : j = (s.proc dst).priv
    · subst hjD
      refine ⟨hiD, fun hreply => ?_⟩
      rw [hcanD] at hreply
      rw [hm.dstMask]
      obtain hold | hnew := (hbit' i hiS hiD hi).mp hsend
      · exact hfits.fromDst i hiS hiD hi hold hreply
      · exact hnew.1
    have hsame : ∀ i k, i ≠ (s.proc src).priv → i ≠ (s.proc dst).priv →
        k ≠ (s.proc dst).priv → (t.priv i).ipcTo k = (s.priv i).ipcTo k := by
      intro i k hi hi' hk
      rw [hm.others i k hi hi', if_neg fun hbad => hk hbad.1]
    rw [hsame i j hiS hiD hjD] at hsend
    obtain ⟨hne, hback⟩ := hs i j hi hj hsend
    rw [hcan j hjS hjD, hsame j i hjS hjD hiD]
    exact ⟨hne, hback⟩

/-! ## A second update -/

theorem accepted_again (h : Exchanged s t src dst) (hacc : Accepted s src dst) :
    Accepted t src dst := by
  refine ⟨?_, ?_, ?_, ?_, ?_, ?_⟩
  · rw [h.srcPriv]
    exact hacc.dstSys
  · rw [h.dstPriv]
    exact hacc.srcSys
  · rw [h.srcProc]
    exact hacc.dstBlocked
  · rw [h.dstProc]
    exact hacc.srcBlocked
  · rw [h.srcProc]
    exact hacc.dstUpdatable
  · rw [h.dstProc]
    exact hacc.srcUpdatable

theorem isokendpt_again {e : Endpoint} (h : isokendpt s e = some p)
    (hempty : isEmpty (t.proc p) = false) (he : (t.proc p).endpoint = (s.proc p).endpoint) :
    isokendpt t e = some p := by
  cases e with
  | any => cases h
  | none => cases h
  | proc g q =>
    unfold isokendpt at h ⊢
    dsimp only at h ⊢
    split_ifs at h with hok
    cases h
    rw [Bool.and_eq_true, Bool.not_eq_true', beq_iff_eq] at hok
    rw [hempty, he, hok.2]
    simp

theorem Swapped.twice (h : Swapped s t src dst) (h' : Swapped t u src dst) : SameButMasks s u := by
  have hex := h.exchanged
  have hex' := h'.exchanged
  refine ⟨?_, fun i => ?_, ?_⟩
  · funext p
    by_cases hp : p = src
    · rw [hp, hex'.srcProc, hex.srcProc, hex.dstProc]
      rfl
    · by_cases hp' : p = dst
      · rw [hp', hex'.dstProc, hex.srcProc, hex.dstProc]
        rfl
      · rw [hex'.proc p hp hp', hex.proc p hp hp']
  · have hsrc : (t.proc src).priv = (s.proc src).priv := (hex.slot src).priv
    have hdst : (t.proc dst).priv = (s.proc dst).priv := (hex.slot dst).priv
    by_cases hi : i = (s.proc src).priv
    · have hu : u.priv i = u.privOf src := by
        rw [hi, hex'.srcPlace, hsrc]
      have hsi : s.priv i = s.privOf src := by
        rw [hi]
        rfl
      rw [hu, hsi]
      conv_lhs => rw [hex'.srcPriv, h'.srcAsyn, h.dstAsyn, hex.srcPriv, hex.dstPriv]
      rfl
    by_cases hi' : i = (s.proc dst).priv
    · have hu : u.priv i = u.privOf dst := by
        rw [hi', hex'.dstPlace, hdst]
      have hsi : s.priv i = s.privOf dst := by
        rw [hi']
        rfl
      rw [hu, hsi]
      conv_lhs => rw [hex'.dstPriv, h'.dstAsyn, h.srcAsyn, hex.srcPriv, hex.dstPriv]
      rfl
    · rw [hex'.priv i (by rw [hsrc]; exact hi) (by rw [hdst]; exact hi'), hex.priv i hi hi']
  · rw [h'.ptproc, h.ptproc]
    unfold swapProcSlotPointer
    split_ifs with h1 h2 h3 h4 h5 h6
    all_goals simp_all

/-! ## An update of a process into itself -/

theorem swapSlots_self (h : (s.privOf p).procNr = some (s.proc p).nr) : swapSlots s p p = s := by
  have hproc : s.setProc p (s.proc p) = s := by
    unfold setProc
    rw [Function.update_eq_self]
  have hpriv : s.setPriv (s.proc p).priv (s.priv (s.proc p).priv) = s := by
    unfold setPriv
    rw [Function.update_eq_self]
  have hnr : ({ s.privOf p with procNr := some (s.proc p).nr } : Priv π) =
      s.priv (s.proc p).priv := by
    rw [← h]
    rfl
  have hadjust : adjustProcSlot s p (s.proc p) = s := by
    unfold adjustProcSlot
    dsimp only
    rw [hproc, hnr, hpriv, hproc]
  have hadjust' : adjustPrivSlot s (s.proc p).priv (s.priv (s.proc p).priv) = s := hpriv
  have hpt : swapProcSlotPointer s.ptproc p p = s.ptproc := by
    unfold swapProcSlotPointer
    split_ifs with hyes
    · exact hyes.symm
    · rfl
  unfold swapSlots
  dsimp only
  rw [hproc, hpriv, hproc, hpriv, hadjust, hadjust, hadjust', hadjust', hpt]

theorem update_self (hs : Sound s) (h : (s.privOf p).procNr = some p) :
    SameButMasks s (swapSlots (inheritMask s p p) p p) ∧
      Closed (swapSlots (inheritMask s p p) p p) := by
  have hS : (s.priv (s.proc p).priv).procNr ≠ none := by
    have heq : (s.priv (s.proc p).priv).procNr = some p := h
    rw [heq]
    simp
  have hself : (s.privOf p).ipcTo (s.proc p).priv = false := by
    by_contra hyes
    exact (hs.closed _ _ hS hS (Bool.of_not_eq_false hyes)).1 rfl
  obtain ⟨hsame, hcell⟩ := inheritMask_bit p hs.refs.id hself
  have hnr : ((inheritMask s p p).privOf p).procNr = some ((inheritMask s p p).proc p).nr := by
    unfold privOf
    rw [hsame.proc, hsame.procNr, hs.refs.nr]
    exact h
  rw [swapSlots_self hnr]
  refine ⟨hsame, fun i j hi hj hsend => ?_⟩
  rw [hsame.procNr] at hi hj
  -- between two processes the loop changes nothing
  have hbit : ∀ i j, (s.priv i).procNr ≠ none → (s.priv j).procNr ≠ none →
      (((inheritMask s p p).priv i).ipcTo j = true ↔ (s.priv i).ipcTo j = true) := by
    intro i j hi hj
    rw [hcell]
    split_ifs with hfirst hsecond
    · obtain ⟨rfl, hyes⟩ := hfirst
      have hne : j ≠ (s.proc p).priv := by
        rintro rfl
        rw [hself] at hyes
        cases hyes
      have hyes' : (s.priv (s.proc p).priv).ipcTo j = true := hyes
      simp [hj, hne, hyes']
    · obtain ⟨rfl, hyes, -, hreply⟩ := hsecond
      simp [(hs.closed _ i hj hi hyes).2 hreply]
    · rfl
  rw [hbit i j hi hj] at hsend
  obtain ⟨hne, hback⟩ := hs.closed i j hi hj hsend
  refine ⟨hne, fun hreply => ?_⟩
  rw [hsame.canReply] at hreply
  exact (hbit j i hj hi).mpr (hback hreply)

theorem SameButMasks.queues (h : SameButMasks s t) (hs : Queues s Q) : Queues t Q := by
  refine ⟨?_, ?_, ?_, ?_⟩
  · rw [h.proc]
    exact hs.chain
  · rw [h.proc]
    exact hs.mem
  · rw [h.proc]
    exact hs.target
  · rw [h.proc]
    exact hs.free

theorem SameButMasks.pending (h : SameButMasks s t) : SamePending s t := by
  refine ⟨fun p => ?_, fun p => ?_, fun i => ?_, fun i => ?_, fun i => ?_, fun i => ?_⟩
  · rw [h.proc]
  · rw [h.proc]
  · rw [h.priv i]
  · rw [h.priv i]
  · rw [h.priv i]
  · rw [h.priv i]

theorem SameButMasks.exchanged (h : SameButMasks s t) : Exchanged s t p p := by
  have hpriv : t.privOf p = { s.privOf p with ipcTo := (t.privOf p).ipcTo } := by
    unfold privOf
    rw [h.proc]
    exact h.priv _
  have hasyn : (t.privOf p).asynPending = (s.privOf p).asynPending := by
    rw [hpriv]
  have hself : t.privOf p =
      (s.privOf p).inSlot (s.privOf p) (t.privOf p).ipcTo (t.privOf p).asynPending := by
    rw [hasyn]
    exact hpriv
  refine ⟨?_, ?_, fun q _ _ => ?_, hself, hself, fun i _ _ => h.priv i⟩
  · rw [h.proc]
    rfl
  · rw [h.proc]
    rfl
  · rw [h.proc]

/-! ## Main result -/

/-- The processes are the same; or neither waits to send, the same messages are pending for both,
and their masks fit. -/
def Undisturbable (s : State ρ π) (src dst : ProcNr) : Prop :=
  src = dst ∨ ((s.proc src).sending = false ∧ (s.proc dst).sending = false ∧
    (s.privOf src).asynPending = (s.privOf dst).asynPending ∧ Fits s src dst)

theorem Sound.used {e : Endpoint} (hs : Sound s) (h : isokendpt s e = some p) :
    (s.proc p).slotFree = false := by
  by_contra hfree
  rw [Bool.not_eq_false] at hfree
  have hempty := hs.free p hfree
  rw [(isokendpt_some h).1] at hempty
  cases hempty

/-- In every state that `do_update` accepts, it disturbs nothing exactly if the two processes are
the same or fit each other's place. -/
theorem update_undisturbed (hs : Sound s) (hsrc : isokendpt s srcE = some src)
    (hdst : isokendpt s dstE = some dst) (hrun : doUpdate s srcE dstE = some (.ok, t)) :
    Undisturbed s t src dst srcE dstE ↔ Undisturbable s src dst := by
  obtain ⟨hacc, rfl⟩ := doUpdate_ok hsrc hdst hrun
  have hnrS := hs.procNr hsrc hacc.srcSys
  have hnrD := hs.procNr hdst hacc.dstSys
  obtain ⟨Q, hQ⟩ := hs.queues
  by_cases hne : src = dst
  · subst hne
    refine ⟨fun _ => .inl rfl, fun _ => ?_⟩
    obtain ⟨hsame, hclosed⟩ := update_self hs hnrS
    refine ⟨⟨Q, hsame.queues hQ⟩, hsame.pending, hsame.refs hs.refs, hsame.exchanged, hclosed, ?_⟩
    generalize swapSlots (inheritMask s src src) src src = t at hsame hclosed
    have hacc' := accepted_again (hsame.exchanged (p := src)) hacc
    have hok : ∀ e, isokendpt s e = some src → isokendpt t e = some src := by
      intro e he
      refine isokendpt_again he ?_ ?_
      · rw [hsame.proc]
        exact (isokendpt_some he).1
      · rw [hsame.proc]
    refine ⟨_, doUpdate_accepted (hok _ hsrc) (hok _ hdst) hacc', ?_⟩
    have hs' : Sound t := by
      refine ⟨⟨Q, hsame.queues hQ⟩, hsame.refs hs.refs, hclosed, fun p hp => ?_⟩
      rw [hsame.proc] at hp ⊢
      exact hs.free p hp
    have hnr : (t.privOf src).procNr = some src := by
      unfold privOf at hnrS ⊢
      rw [hsame.proc, hsame.procNr]
      exact hnrS
    exact hsame.trans (update_self hs' hnr).1
  obtain ⟨hpriv, hswapped, hmasks⟩ := update_swapped hs hne hnrS hnrD
  generalize swapSlots (inheritMask s src dst) src dst = t at hswapped hmasks
  have hex := hswapped.exchanged
  have hrefs := hswapped.refs hs.refs hacc hnrS hnrD
  have hclosed := closed_iff hs.closed hpriv hex hmasks hnrS hnrD
  have hasyn : (∀ i, (t.priv i).asynPending = (s.priv i).asynPending) ↔
      (s.privOf src).asynPending = (s.privOf dst).asynPending := by
    have hS := hswapped.srcAsyn
    have hD := hswapped.dstAsyn
    rw [hex.srcPlace] at hS
    rw [hex.dstPlace] at hD
    constructor
    · intro hall
      rw [hall] at hS
      exact hS
    intro heq i
    by_cases hi : i = (s.proc src).priv
    · rw [hi, hS, ← heq]
      rfl
    · by_cases hi' : i = (s.proc dst).priv
      · rw [hi', hD, heq]
        rfl
      · rw [hex.priv i hi hi']
  constructor
  · intro hu
    refine .inr ⟨queues_not_sending hQ hu.queues hex hne,
      queues_not_sending hQ hu.queues hex.symm (Ne.symm hne), hasyn.mp hu.pending.asyn,
      hclosed.mp hu.closed⟩
  rintro (heq | ⟨hsendS, hsendD, heq, hfits⟩)
  · exact absurd heq hne
  refine ⟨⟨Q, queues_kept hQ hex hsendS hsendD ⟨hs.used hsrc, hs.used hdst⟩⟩, ?_, hrefs, hex,
    hclosed.mpr hfits, ?_⟩
  · exact ⟨fun p => (hex.slot p).endpoint, fun p => (hex.slot p).priv,
      fun i => (hex.place i).notify, fun i => (hex.place i).int, fun i => (hex.place i).sig,
      hasyn.mpr heq⟩
  have hacc' := accepted_again hex hacc
  have hsrc' : isokendpt t srcE = some src := by
    refine isokendpt_again hsrc ?_ (hex.slot src).endpoint
    rw [hex.srcProc]
    exact (isokendpt_some hdst).1
  have hdst' : isokendpt t dstE = some dst := by
    refine isokendpt_again hdst ?_ (hex.slot dst).endpoint
    rw [hex.dstProc]
    exact (isokendpt_some hsrc).1
  refine ⟨_, doUpdate_accepted hsrc' hdst' hacc', ?_⟩
  have hnr : ∀ p, (s.privOf p).procNr = some p → (t.privOf p).procNr = some p := by
    intro p hp
    unfold privOf at hp ⊢
    rw [(hex.slot p).priv, (hex.place _).procNr]
    exact hp
  have hs' : Sound t := by
    refine ⟨⟨Q, queues_kept hQ hex hsendS hsendD ⟨hs.used hsrc, hs.used hdst⟩⟩, hrefs,
      hclosed.mpr hfits, fun p hp => ?_⟩
    by_cases hps : p = src
    · rw [hps, hex.srcProc] at hp
      have hused : (s.proc dst).slotFree = true := hp
      rw [hs.used hdst] at hused
      cases hused
    by_cases hpd : p = dst
    · rw [hpd, hex.dstProc] at hp
      have hused : (s.proc src).slotFree = true := hp
      rw [hs.used hsrc] at hused
      cases hused
    · rw [hex.proc p hps hpd] at hp ⊢
      exact hs.free p hp
  exact hswapped.twice (update_swapped hs' hne (hnr src hnrS) (hnr dst hnrD)).2.1

/-! ## Three services -/

def service (p : ProcNr) : Proc Unit where
  slotFree := false
  noPriv := false
  sigPending := false
  sending := false
  receiving := true
  otherRts := 0
  endpoint := .proc 0 p
  nr := p
  priv := if h : p.val < 64 then ⟨p.val, h⟩ else Fin.last 63
  callerQ := none
  qLink := none
  getfromE := .any
  sendtoE := .none
  scheduler := none
  rest := ()

/-- Services 13 to 15. `sends`: 13 waits to send to 15; `asyn`: a message of 15 is pending for 13;
`reach`: 13 and 14 may send to each other. -/
def services (sends asyn reach : Bool) : State Unit Unit where
  proc p :=
    if p = 13 then
      { service p with
        sending := sends, sigPending := sends, sendtoE := if sends then .proc 0 15 else .none }
    else if p = 15 then { service p with callerQ := if sends then some 13 else none }
    else if p = 14 then service p
    else { service p with slotFree := true, receiving := false }
  priv i :=
    { procNr := if i.val = 13 ∨ i.val = 14 ∨ i.val = 15 then some (Fin.ofNat nrSlots i.val)
        else none
      id := i
      sysProc := true
      trapMask := 0xffff
      ipcTo := fun j => reach && (i.val == 13 && j.val == 14 || i.val == 14 && j.val == 13)
      notifyPending := fun _ => false
      asynPending := fun j => asyn && i.val == 13 && j.val == 15
      intPending := 0
      sigPending := 0
      alarmTimer := none
      rest := () }
  ptproc := none

theorem services_sound (sends asyn reach : Bool) : Sound (services sends asyn reach) := by
  have hendpoint : ∀ p, ((services sends asyn reach).proc p).endpoint = .proc 0 p := by
    intro p
    unfold services
    dsimp only
    split_ifs <;> rfl
  have hpriv : ∀ p, ((services sends asyn reach).proc p).priv = (service p).priv := by
    intro p
    unfold services
    dsimp only
    split_ifs <;> rfl
  have hsending : ∀ p, ((services sends asyn reach).proc p).sending = true ↔
      sends = true ∧ p = 13 := by
    intro p
    unfold services
    dsimp only
    split_ifs
    all_goals simp_all [service]
  have hsendto : sends = true → ((services sends asyn reach).proc 13).sendtoE = .proc 0 15 := by
    rintro rfl
    rfl
  have hhead : ∀ d, ((services sends asyn reach).proc d).callerQ =
      if sends = true ∧ d = 15 then some 13 else none := by
    intro d
    unfold services
    dsimp only
    split_ifs
    all_goals simp_all [service]
  have hlink : ((services sends asyn reach).proc 13).qLink = none := rfl
  have hothers : ∀ p, ¬ (p = 13 ∨ p = 14 ∨ p = 15) → (services sends asyn reach).proc p =
      { service p with slotFree := true, receiving := false } := by
    intro p hp
    rw [not_or, not_or] at hp
    unfold services
    dsimp only
    rw [if_neg hp.1, if_neg hp.2.2, if_neg hp.2.1]
  refine ⟨⟨fun d => if sends = true ∧ d = 15 then [13] else [], ?_, ?_, ?_, ?_⟩,
    ⟨?_, ?_, ?_, ?_, ?_⟩, ?_, ?_⟩
  · intro d
    rw [hhead]
    split_ifs
    · exact .cons (by rw [show Linked.next ((services sends asyn reach).proc 13) = none from hlink]
                      exact .nil)
    · exact .nil
  · intro p d
    rw [hsending, hendpoint]
    constructor
    · intro hp
      split_ifs at hp with hd
      · rw [mem_singleton.mp hp, hsendto hd.1, hd.2]
        exact ⟨⟨hd.1, rfl⟩, rfl⟩
      · cases hp
    rintro ⟨⟨hs, rfl⟩, hd⟩
    rw [hsendto hs] at hd
    cases hd
    rw [if_pos ⟨hs, rfl⟩]
    exact mem_singleton_self _
  · intro p hp
    obtain ⟨hs, rfl⟩ := (hsending p).mp hp
    refine ⟨15, ?_, rfl⟩
    rw [hsendto hs, hendpoint]
  · intro p hp
    by_contra hyes
    obtain ⟨-, rfl⟩ := (hsending p).mp (Bool.of_not_eq_false hyes)
    have hno : ((services sends asyn reach).proc 13).slotFree = false := rfl
    rw [hno] at hp
    cases hp
  · intro p
    unfold services
    dsimp only
    split_ifs <;> rfl
  · exact fun _ => rfl
  · exact fun p => ⟨0, hendpoint p⟩
  · intro p hp _
    have hp' : p = 13 ∨ p = 14 ∨ p = 15 := by
      by_contra hno
      rw [hothers p hno] at hp
      cases hp
    obtain rfl | rfl | rfl := hp'
    · rfl
    · rfl
    · rfl
  · intro i p hp
    rw [hpriv]
    have hp' : (if i.val = 13 ∨ i.val = 14 ∨ i.val = 15 then
        some (Fin.ofNat nrSlots i.val) else none) = some p := hp
    split_ifs at hp'
    cases hp'
    have hval : i.val % nrSlots = i.val := Nat.mod_eq_of_lt (i.isLt.trans (by decide))
    simp [service, hval]
  · intro i j _ _ hsend
    have hsend' :
        (reach && (i.val == 13 && j.val == 14 || i.val == 14 && j.val == 13)) = true := hsend
    simp only [Bool.and_eq_true, Bool.or_eq_true, beq_iff_eq] at hsend'
    obtain ⟨rfl, ⟨hi, hj⟩ | ⟨hi, hj⟩⟩ := hsend'
    · obtain rfl : i = 13 := Fin.ext hi
      obtain rfl : j = 14 := Fin.ext hj
      exact ⟨by decide, fun _ => rfl⟩
    · obtain rfl : i = 14 := Fin.ext hi
      obtain rfl : j = 13 := Fin.ext hj
      exact ⟨by decide, fun _ => rfl⟩
  intro p hp
  by_cases hp' : p = 13 ∨ p = 14 ∨ p = 15
  · obtain rfl | rfl | rfl := hp'
    · cases hp
    · cases hp
    · cases hp
  · rw [hothers p hp']
    rfl

theorem services_accepted (sends asyn reach : Bool) : Accepted (services sends asyn reach) 13 14 := by
  refine ⟨rfl, rfl, ?_, rfl, ?_, rfl⟩
  · simp [services, isRunnable, service]
  · cases sends
    · rfl
    · rfl

theorem services_okendpt (sends asyn reach : Bool) :
    isokendpt (services sends asyn reach) (.proc 0 13) = some 13 ∧
      isokendpt (services sends asyn reach) (.proc 0 14) = some 14 := by
  cases sends
  · exact ⟨rfl, rfl⟩
  · exact ⟨rfl, rfl⟩

theorem update_undisturbed_services :
    ∃ t, doUpdate (services false false false) (.proc 0 13) (.proc 0 14) = some (.ok, t) ∧
      Undisturbed (services false false false) t 13 14 (.proc 0 13) (.proc 0 14) := by
  obtain ⟨hsrc, hdst⟩ := services_okendpt false false false
  have hrun := doUpdate_accepted hsrc hdst (services_accepted false false false)
  refine ⟨_, hrun, (update_undisturbed (services_sound false false false) hsrc hdst hrun).mpr
    (.inr ⟨rfl, rfl, ?_, rfl, rfl, ?_, ?_, ?_⟩)⟩
  · funext i
    rfl
  · rintro i - - - ⟨⟩
  · rintro i - - - ⟨⟩
  · rintro i - - - ⟨⟩

/-- The asynchronous message goes to the other one; a sender stays queued though it sends no more; a
process may send to itself. -/
theorem slots_disturbed :
    (∃ s t : State Unit Unit, Sound s ∧ doUpdate s (.proc 0 13) (.proc 0 14) = some (.ok, t) ∧
      ¬ SamePending s t) ∧
    (∃ s t : State Unit Unit, Sound s ∧ doUpdate s (.proc 0 13) (.proc 0 14) = some (.ok, t) ∧
      ¬ ∃ Q, Queues t Q) ∧
    ∃ s t : State Unit Unit, Sound s ∧ doUpdate s (.proc 0 13) (.proc 0 14) = some (.ok, t) ∧
      ¬ Closed t := by
  have hrun : ∀ sends asyn reach, doUpdate (services sends asyn reach) (.proc 0 13) (.proc 0 14) =
      some (.ok, swapSlots (inheritMask (services sends asyn reach) 13 14) 13 14) := by
    intro sends asyn reach
    obtain ⟨hsrc, hdst⟩ := services_okendpt sends asyn reach
    exact doUpdate_accepted hsrc hdst (services_accepted sends asyn reach)
  refine ⟨⟨_, _, services_sound false true false, hrun _ _ _, fun hsame => ?_⟩,
    ⟨_, _, services_sound true false false, hrun _ _ _, ?_⟩,
    ⟨_, _, services_sound false false true, hrun _ _ _, fun hclosed => ?_⟩⟩
  · have hbit := congrFun (hsame.asyn 13) 15
    revert hbit
    decide +kernel
  · rintro ⟨Q, hQ⟩
    have hhead : ((swapSlots (inheritMask (services true false false) 13 14) 13 14).proc
        15).callerQ = some 13 := by
      decide +kernel
    have hchain := hQ.chain 15
    rw [hhead] at hchain
    obtain ⟨l, hl, -⟩ := hchain.cons_inv
    have hmem : (13 : ProcNr) ∈ Q 15 := by
      rw [hl]
      exact mem_cons_self
    have hsend := ((hQ.mem 13 15).mp hmem).1
    revert hsend
    decide +kernel
  · have hself := hclosed 13 13 (by decide +kernel) (by decide +kernel) (by decide +kernel)
    exact hself.1 rfl

end HardenedMinix.Update
