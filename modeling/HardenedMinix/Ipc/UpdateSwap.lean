import HardenedMinix.Ipc.Update

/-!
# An update exchanges two slots

What the loop over the send masks does, what the exchange does, and when nobody else notices.
-/

open Function List

namespace HardenedMinix.Update

open Lib State
open HardenedMinix.Ipc (Endpoint SysId)

variable {ρ π : Type} {s s₁ t u : State ρ π} {src dst p q : ProcNr} {i j k : SysId}
  {srcE dstE : Endpoint} {Q : ProcNr → List ProcNr}

/-! ## Only masks -/

theorem SameButMasks.refl (s : State ρ π) : SameButMasks s s := ⟨rfl, fun _ => rfl, rfl⟩

theorem SameButMasks.trans (h : SameButMasks s s₁) (h' : SameButMasks s₁ t) : SameButMasks s t := by
  refine ⟨h'.proc.trans h.proc, fun i => ?_, h'.ptproc.trans h.ptproc⟩
  rw [h'.priv i, h.priv i]

theorem SameButMasks.canReply (h : SameButMasks s t) (i : SysId) :
    (t.priv i).canReply = (s.priv i).canReply := by
  rw [h.priv i]
  rfl

theorem SameButMasks.procNr (h : SameButMasks s t) (i : SysId) :
    (t.priv i).procNr = (s.priv i).procNr := by
  rw [h.priv i]

theorem SameButMasks.refs (h : SameButMasks s t) (hs : Refs s) : Refs t := by
  have hpriv : ∀ p, t.privOf p = { s.privOf p with ipcTo := (t.privOf p).ipcTo } := by
    intro p
    unfold privOf
    rw [h.proc]
    exact h.priv _
  refine ⟨fun p => ?_, fun i => ?_, fun p => ?_, fun p hp hsys => ?_, fun i p hi => ?_⟩
  · rw [h.proc]
    exact hs.nr p
  · rw [h.priv i]
    exact hs.id i
  · rw [h.proc]
    exact hs.endpoint p
  · rw [h.proc] at hp
    rw [hpriv p] at hsys ⊢
    exact hs.procNr p hp hsys
  · rw [h.priv i] at hi
    rw [h.proc]
    exact hs.priv i p hi

theorem setSysBit_same (x : Priv π) (b : Bool) (hx : s.priv i = x) :
    SameButMasks s (s.setPriv i (setSysBit x k b)) := by
  refine ⟨rfl, fun j => ?_, rfl⟩
  by_cases hj : j = i
  · subst hj
    have hself : (s.setPriv j (setSysBit x k b)).priv j = setSysBit x k b := update_self _ _ _
    rw [hself, hx]
    rfl
  · have hother : (s.setPriv i (setSysBit x k b)).priv j = s.priv j := update_of_ne hj _ _
    rw [hother]

theorem setSysBit_bit (b : Bool) : ((s.setPriv i (setSysBit (s.priv i) k b)).priv j).ipcTo =
      if j = i then update (s.priv i).ipcTo k b else (s.priv j).ipcTo := by
  by_cases hj : j = i
  · subst hj
    rw [if_pos rfl]
    have hself : (s.setPriv j (setSysBit (s.priv j) k b)).priv j = setSysBit (s.priv j) k b :=
      update_self _ _ _
    rw [hself]
    rfl
  · rw [if_neg hj]
    have hother : (s.setPriv i (setSysBit (s.priv i) k b)).priv j = s.priv j := update_of_ne hj _ _
    rw [hother]

theorem setSendtoBit_same : SameButMasks s (setSendtoBit s p k) := by
  unfold setSendtoBit
  simp only
  split_ifs
  · exact setSysBit_same _ _ rfl
  · exact (setSysBit_same _ _ rfl).trans (setSysBit_same _ _ rfl)
  · exact setSysBit_same _ _ rfl

theorem setSendtoBit_bit (hid : ∀ i, (s.priv i).id = i) (a b : SysId) :
    ((setSendtoBit s p k).priv a).ipcTo b = if a = (s.proc p).priv ∧ b = k then
        decide ((s.priv k).procNr ≠ none ∧ k ≠ (s.proc p).priv)
      else if a = k ∧ b = (s.proc p).priv ∧ (s.priv k).procNr ≠ none ∧ (s.priv k).canReply = true
        then true
      else (s.priv a).ipcTo b := by
  unfold setSendtoBit
  generalize hi : (s.proc p).priv = i
  dsimp only
  rw [hid]
  by_cases hno : (s.priv k).procNr = none ∨ i = k
  · rw [if_pos hno, setSysBit_bit]
    by_cases ha : a = i
    · rw [if_pos ha]
      by_cases hb : b = k
      · rw [hb, update_self, if_pos ⟨ha, rfl⟩, eq_comm, decide_eq_false_iff_not]
        rintro ⟨hsome, hne⟩
        exact hno.elim hsome fun heq => hne heq.symm
      · rw [update_of_ne hb, if_neg fun h => hb h.2, if_neg, ha]
        rintro ⟨hak, hbi, hsome, -⟩
        exact hno.elim hsome fun heq => hb (hbi.trans heq)
    · rw [if_neg ha, if_neg fun h => ha h.1, if_neg]
      rintro ⟨hak, -, hsome, -⟩
      exact hno.elim hsome fun heq => ha (hak.trans heq.symm)
  rw [if_neg hno]
  rw [not_or] at hno
  have hsame := setSysBit_same (s := s) (i := i) (k := k) (s.priv i) true rfl
  have hne : k ≠ i := fun heq => hno.2 heq.symm
  have hid' : ((s.setPriv i (setSysBit (s.priv i) k true)).priv i).id = i := by
    rw [hsame.priv i]
    exact hid i
  rw [hsame.canReply, hid']
  by_cases hreply : (s.priv k).canReply = true
  · rw [if_pos hreply, setSysBit_bit, setSysBit_bit, if_neg hne]
    by_cases hak : a = k
    · rw [if_pos hak, if_neg fun h => hne (hak.symm.trans h.1)]
      by_cases hb : b = i
      · rw [hb, update_self, if_pos ⟨hak, rfl, hno.1, hreply⟩]
      · rw [update_of_ne hb, if_neg fun h => hb h.2.1, hak]
    rw [if_neg hak, if_neg (c := a = k ∧ _) fun h => hak h.1, setSysBit_bit]
    by_cases ha : a = i
    · rw [if_pos ha]
      by_cases hb : b = k
      · rw [hb, update_self, if_pos ⟨ha, rfl⟩, eq_comm, decide_eq_true_eq]
        exact ⟨hno.1, hne⟩
      · rw [update_of_ne hb, if_neg fun h => hb h.2, ha]
    · rw [if_neg ha, if_neg fun h => ha h.1]
  rw [if_neg hreply, setSysBit_bit, if_neg (c := a = k ∧ _) fun h => hreply h.2.2.2]
  by_cases ha : a = i
  · rw [if_pos ha]
    by_cases hb : b = k
    · rw [hb, update_self, if_pos ⟨ha, rfl⟩, eq_comm, decide_eq_true_eq]
      exact ⟨hno.1, hne⟩
    · rw [update_of_ne hb, if_neg fun h => hb h.2, ha]
  · rw [if_neg ha, if_neg fun h => ha h.1]

/-- The loop over the mask of the source: what it can send to the destination can, and those
reply. -/
theorem inheritLoop_bit {l : List SysId} (dst : ProcNr) (hid : ∀ i, (s.priv i).id = i) (hl : l.Nodup)
    (hself : (s.privOf src).ipcTo (s.proc src).priv = false) :
    SameButMasks s (l.foldl (fun s i =>
      if (s.privOf src).ipcTo i = true then setSendtoBit s dst i else s) s) ∧
    ∀ a b, ((l.foldl (fun s i =>
      if (s.privOf src).ipcTo i = true then setSendtoBit s dst i else s) s).priv a).ipcTo b =
      if a = (s.proc dst).priv ∧ b ∈ l ∧ (s.privOf src).ipcTo b = true then
        decide ((s.priv b).procNr ≠ none ∧ b ≠ (s.proc dst).priv)
      else if b = (s.proc dst).priv ∧ a ∈ l ∧ (s.privOf src).ipcTo a = true ∧
        (s.priv a).procNr ≠ none ∧ (s.priv a).canReply = true then true
      else (s.priv a).ipcTo b := by
  induction l generalizing s with
  | nil => exact ⟨.refl s, fun a b => by simp⟩
  | cons i l ih =>
    obtain ⟨hout, hl⟩ := nodup_cons.mp hl
    by_cases hi : (s.privOf src).ipcTo i = true
    · have hsame := setSendtoBit_same (s := s) (p := dst) (k := i)
      have hbit := setSendtoBit_bit (p := dst) (k := i) hid
      have hne : i ≠ (s.proc src).priv := by
        rintro rfl
        rw [hself] at hi
        cases hi
      have hpriv : ∀ p, ((setSendtoBit s dst i).proc p).priv = (s.proc p).priv := by
        intro p
        rw [hsame.proc]
      -- no other bit of the source has changed
      have hsrc : ∀ b, b ≠ i → ((setSendtoBit s dst i).privOf src).ipcTo b =
          (s.privOf src).ipcTo b := by
        intro b hb
        unfold privOf
        rw [hpriv, hbit, if_neg fun h => hb h.2, if_neg fun h => hne h.1.symm]
      obtain ⟨hrest, hcell⟩ := ih (s := setSendtoBit s dst i)
        (fun j => by rw [hsame.priv j]; exact hid j) hl
        (by rw [hpriv, hsrc _ hne.symm]; exact hself)
      rw [foldl_cons, if_pos hi]
      refine ⟨hsame.trans hrest, fun a b => ?_⟩
      rw [hcell a b, hpriv, hsame.procNr, hsame.procNr, hsame.canReply, hbit a b]
      have hmem : ∀ b, (b ∈ l ∧ ((setSendtoBit s dst i).privOf src).ipcTo b = true) ↔
          b ≠ i ∧ b ∈ i :: l ∧ (s.privOf src).ipcTo b = true := by
        intro b
        constructor
        · rintro ⟨hb, hbs⟩
          have hbi : b ≠ i := by
            rintro rfl
            exact hout hb
          rw [hsrc b hbi] at hbs
          exact ⟨hbi, mem_cons_of_mem _ hb, hbs⟩
        · rintro ⟨hbi, hb, hbs⟩
          rw [hsrc b hbi]
          exact ⟨(mem_cons.mp hb).resolve_left hbi, hbs⟩
      have hmem' : ∀ a (P : Prop), (a ∈ l ∧ ((setSendtoBit s dst i).privOf src).ipcTo a = true ∧ P) ↔
          a ≠ i ∧ a ∈ i :: l ∧ (s.privOf src).ipcTo a = true ∧ P := by
        intro a P
        rw [← and_assoc, hmem a, and_assoc, and_assoc]
      simp only [hmem, hmem']
      generalize (s.proc dst).priv = d
      by_cases hD : a = d
      · subst hD
        by_cases hb : b = i
        · subst hb
          have hno : ¬ (b = a ∧ a ≠ b ∧ a ∈ b :: l ∧ (s.privOf src).ipcTo a = true ∧
              (s.priv a).procNr ≠ none ∧ (s.priv a).canReply = true) :=
            fun h => h.2.1 h.1.symm
          rw [if_neg fun h => h.2.1 rfl, if_neg hno, if_pos ⟨rfl, rfl⟩,
            if_pos ⟨rfl, mem_cons_self, hi⟩]
        by_cases hba : b = a
        · subst hba
          simp only [ne_eq, hb, not_false_eq_true, true_and, false_and, and_false, if_false]
        · simp only [ne_eq, hb, hba, not_false_eq_true, true_and, false_and, and_false, if_false]
      by_cases hb : b = d
      · subst hb
        by_cases ha : a = i
        · subst ha
          simp only [hD, false_and, if_false, ne_eq, not_true_eq_false, and_false, true_and,
            mem_cons_self, hi]
        · simp only [hD, ha, false_and, if_false, ne_eq, not_false_eq_true, true_and]
      · simp only [hD, hb, false_and, and_false, if_false]
    · obtain ⟨hrest, hcell⟩ := ih hid hl hself
      rw [foldl_cons, if_neg hi]
      refine ⟨hrest, fun a b => ?_⟩
      rw [hcell a b]
      have hmem : ∀ b, (b ∈ l ∧ (s.privOf src).ipcTo b = true) ↔
          b ∈ i :: l ∧ (s.privOf src).ipcTo b = true := by
        intro b
        rw [mem_cons]
        constructor
        · exact fun h => ⟨.inr h.1, h.2⟩
        · rintro ⟨rfl | hb, hbs⟩
          · exact absurd hbs hi
          · exact ⟨hb, hbs⟩
      have hmem' : ∀ a (P : Prop), (a ∈ l ∧ (s.privOf src).ipcTo a = true ∧ P) ↔
          a ∈ i :: l ∧ (s.privOf src).ipcTo a = true ∧ P := by
        intro a P
        rw [← and_assoc, hmem a, and_assoc]
      simp only [hmem, hmem']

theorem inheritMask_bit (dst : ProcNr) (hid : ∀ i, (s.priv i).id = i)
    (hself : (s.privOf src).ipcTo (s.proc src).priv = false) :
    SameButMasks s (inheritMask s src dst) ∧ ∀ a b, ((inheritMask s src dst).priv a).ipcTo b =
      if a = (s.proc dst).priv ∧ (s.privOf src).ipcTo b = true then
        decide ((s.priv b).procNr ≠ none ∧ b ≠ (s.proc dst).priv)
      else if b = (s.proc dst).priv ∧ (s.privOf src).ipcTo a = true ∧
        (s.priv a).procNr ≠ none ∧ (s.priv a).canReply = true then true
      else (s.priv a).ipcTo b := by
  unfold inheritMask
  obtain ⟨hsame, hcell⟩ := inheritLoop_bit dst hid (nodup_finRange 64) hself
  have hmem : ∀ i : SysId, i ∈ List.finRange 64 := mem_finRange
  simp only [hmem, true_and] at hcell
  exact ⟨hsame, hcell⟩

/-! ## The exchange -/

/-- The contents of two slots are exchanged, with the bits for asynchronous messages. -/
structure Swapped (s t : State ρ π) (src dst : ProcNr) : Prop where
  exchanged : Exchanged s t src dst
  srcAsyn : (t.privOf src).asynPending = (s.privOf dst).asynPending
  dstAsyn : (t.privOf dst).asynPending = (s.privOf src).asynPending
  ptproc : t.ptproc = swapProcSlotPointer s.ptproc src dst

theorem State.setProc_self (x : Proc ρ) : (s.setProc p x).proc p = x := update_self _ _ _

theorem State.setProc_ne (x : Proc ρ) (h : q ≠ p) : (s.setProc p x).proc q = s.proc q :=
  update_of_ne h _ _

theorem State.setPriv_self (x : Priv π) : (s.setPriv i x).priv i = x := update_self _ _ _

theorem State.setPriv_ne (x : Priv π) (h : j ≠ i) : (s.setPriv i x).priv j = s.priv j :=
  update_of_ne h _ _

theorem State.setProc_priv (x : Proc ρ) : (s.setProc p x).priv = s.priv := rfl

theorem State.setPriv_proc (x : Priv π) : (s.setPriv i x).proc = s.proc := rfl

theorem adjustProcSlot_self (x : Proc ρ) : (adjustProcSlot s p x).proc p = (s.proc p).inSlot x := by
  unfold adjustProcSlot
  dsimp only
  rw [setProc_self, setPriv_proc, setProc_self]
  rfl

theorem adjustProcSlot_ne (x : Proc ρ) (h : q ≠ p) : (adjustProcSlot s p x).proc q = s.proc q := by
  unfold adjustProcSlot
  dsimp only
  rw [setProc_ne _ h, setPriv_proc, setProc_ne _ h]

theorem adjustProcSlot_priv (x : Proc ρ) : (adjustProcSlot s p x).priv =
    update s.priv x.priv { s.priv x.priv with procNr := some x.nr } := by
  unfold adjustProcSlot
  dsimp only
  rw [setProc_priv, setProc_self]
  unfold privOf
  rw [setProc_self]
  rfl

theorem adjustPrivSlot_self (x : Priv π) : (adjustPrivSlot s i x).priv i = { s.priv i with
    id := x.id, notifyPending := x.notifyPending, intPending := x.intPending
    sigPending := x.sigPending, alarmTimer := x.alarmTimer } := update_self _ _ _

theorem adjustPrivSlot_ne (x : Priv π) (h : j ≠ i) :
    (adjustPrivSlot s i x).priv j = s.priv j := update_of_ne h _ _

theorem adjustPrivSlot_proc (x : Priv π) : (adjustPrivSlot s i x).proc = s.proc := rfl

theorem swapSlots_proc (h : src ≠ dst) :
    (swapSlots s src dst).proc src = (s.proc dst).inSlot (s.proc src) ∧
      (swapSlots s src dst).proc dst = (s.proc src).inSlot (s.proc dst) ∧
      ∀ p, p ≠ src → p ≠ dst → (swapSlots s src dst).proc p = s.proc p := by
  unfold swapSlots
  dsimp only
  refine ⟨?_, ?_, fun p hp hp' => ?_⟩
  · rw [adjustPrivSlot_proc, adjustPrivSlot_proc, adjustProcSlot_ne _ h, adjustProcSlot_self,
      setPriv_proc, setProc_ne _ h, setPriv_proc, setProc_self]
  · rw [adjustPrivSlot_proc, adjustPrivSlot_proc, adjustProcSlot_self,
      adjustProcSlot_ne _ h.symm, setPriv_proc, setProc_self]
  · rw [adjustPrivSlot_proc, adjustPrivSlot_proc, adjustProcSlot_ne _ hp', adjustProcSlot_ne _ hp,
      setPriv_proc, setProc_ne _ hp', setPriv_proc, setProc_ne _ hp]

theorem swapSlots_priv (h : src ≠ dst) (hpriv : (s.proc src).priv ≠ (s.proc dst).priv) :
    (swapSlots s src dst).priv (s.proc src).priv = { s.privOf dst with
      procNr := some (s.proc src).nr, id := (s.privOf src).id
      notifyPending := (s.privOf src).notifyPending, intPending := (s.privOf src).intPending
      sigPending := (s.privOf src).sigPending, alarmTimer := (s.privOf src).alarmTimer } ∧
    (swapSlots s src dst).priv (s.proc dst).priv = { s.privOf src with
      procNr := some (s.proc dst).nr, id := (s.privOf dst).id
      notifyPending := (s.privOf dst).notifyPending, intPending := (s.privOf dst).intPending
      sigPending := (s.privOf dst).sigPending, alarmTimer := (s.privOf dst).alarmTimer } ∧
    ∀ i, i ≠ (s.proc src).priv → i ≠ (s.proc dst).priv →
      (swapSlots s src dst).priv i = s.priv i := by
  unfold swapSlots
  dsimp only
  -- the structures that are adjusted are those of the two slots
  have hsrc : ∀ (s₁ : State ρ π) (x y : Proc ρ),
      ((adjustProcSlot (adjustProcSlot s₁ src x) dst y).proc src).priv = x.priv := by
    intro s₁ x y
    rw [adjustProcSlot_ne _ h, adjustProcSlot_self]
    rfl
  have hdst : ∀ (s₁ : State ρ π) (x y : Proc ρ) (z : Priv π),
      ((adjustPrivSlot (adjustProcSlot (adjustProcSlot s₁ src x) dst y) x.priv z).proc
        dst).priv = y.priv := by
    intro s₁ x y z
    rw [adjustPrivSlot_proc, adjustProcSlot_self]
    rfl
  rw [hsrc, hdst]
  refine ⟨?_, ?_, fun i hi hi' => ?_⟩
  · rw [adjustPrivSlot_ne _ hpriv, adjustPrivSlot_self, adjustProcSlot_priv,
      update_of_ne hpriv, adjustProcSlot_priv, update_self,
      setPriv_ne _ hpriv, setProc_priv, setPriv_self]
    rfl
  · rw [adjustPrivSlot_self, adjustPrivSlot_ne _ hpriv.symm, adjustProcSlot_priv,
      update_self, adjustProcSlot_priv, update_of_ne hpriv.symm,
      setPriv_self]
    rfl
  · rw [adjustPrivSlot_ne _ hi', adjustPrivSlot_ne _ hi, adjustProcSlot_priv,
      update_of_ne hi', adjustProcSlot_priv, update_of_ne hi,
      setPriv_ne _ hi', setProc_priv, setPriv_ne _ hi]
    rfl

theorem swapSlots_swapped (h : src ≠ dst) (hpriv : (s.proc src).priv ≠ (s.proc dst).priv)
    (hsrc : (s.privOf src).procNr = some (s.proc src).nr)
    (hdst : (s.privOf dst).procNr = some (s.proc dst).nr) :
    Swapped s (swapSlots s src dst) src dst ∧ ∀ i, ((swapSlots s src dst).priv i).ipcTo =
        if i = (s.proc src).priv then (s.privOf dst).ipcTo
        else if i = (s.proc dst).priv then (s.privOf src).ipcTo else (s.priv i).ipcTo := by
  obtain ⟨hproc, hproc', hothers⟩ := swapSlots_proc (s := s) h
  obtain ⟨hS, hD, hrest⟩ := swapSlots_priv h hpriv
  have hpS : (swapSlots s src dst).privOf src = (swapSlots s src dst).priv (s.proc src).priv := by
    unfold privOf
    rw [hproc]
    rfl
  have hpD : (swapSlots s src dst).privOf dst = (swapSlots s src dst).priv (s.proc dst).priv := by
    unfold privOf
    rw [hproc']
    rfl
  refine ⟨⟨⟨hproc, hproc', hothers, ?_, ?_, fun i hi hi' => ?_⟩, ?_, ?_, rfl⟩, fun i => ?_⟩
  · rw [hpS, hS, Priv.inSlot, hsrc]
  · rw [hpD, hD, Priv.inSlot, hdst]
  · rw [hrest i hi hi']
  · rw [hpS, hS]
  · rw [hpD, hD]
  · split_ifs with hi hi'
    · rw [hi, hS]
    · rw [hi', hD]
    · rw [hrest i hi hi']

/-! ## An accepted update -/

structure Accepted (s : State ρ π) (src dst : ProcNr) : Prop where
  srcSys : (s.privOf src).sysProc = true
  dstSys : (s.privOf dst).sysProc = true
  srcBlocked : isRunnable (s.proc src) = false
  dstBlocked : isRunnable (s.proc dst) = false
  srcUpdatable : isUpdatable (s.proc src) = true
  dstUpdatable : isUpdatable (s.proc dst) = true

theorem doUpdate_accepted (hsrc : isokendpt s srcE = some src) (hdst : isokendpt s dstE = some dst)
    (h : Accepted s src dst) :
    doUpdate s srcE dstE = some (.ok, swapSlots (inheritMask s src dst) src dst) := by
  unfold doUpdate
  rw [hsrc]
  dsimp only
  rw [h.srcSys, hdst]
  dsimp only
  rw [h.dstSys, h.srcBlocked, h.dstBlocked, h.srcUpdatable, h.dstUpdatable]
  simp

theorem doUpdate_ok (hsrc : isokendpt s srcE = some src) (hdst : isokendpt s dstE = some dst)
    (h : doUpdate s srcE dstE = some (.ok, t)) :
    Accepted s src dst ∧ t = swapSlots (inheritMask s src dst) src dst := by
  unfold doUpdate at h
  rw [hsrc] at h
  dsimp only at h
  split_ifs at h with hsys
  · cases h
  rw [hdst] at h
  dsimp only at h
  split_ifs at h with hsys' hrunnable hupdatable
  · cases h
  · cases h
  rw [not_or] at hrunnable hupdatable
  refine ⟨⟨Bool.of_not_eq_false hsys, Bool.of_not_eq_false hsys', ?_, ?_, ?_, ?_⟩, ?_⟩
  · exact Bool.of_not_eq_true hrunnable.1
  · exact Bool.of_not_eq_true hrunnable.2
  · exact not_not.mp hupdatable.1
  · exact not_not.mp hupdatable.2
  · cases h
    rfl

theorem isokendpt_some {e : Endpoint} (h : isokendpt s e = some p) :
    isEmpty (s.proc p) = false ∧ (s.proc p).endpoint = e := by
  cases e with
  | any => cases h
  | none => cases h
  | proc g q =>
    unfold isokendpt at h
    dsimp only at h
    split_ifs at h with hok
    cases h
    rw [Bool.and_eq_true, Bool.not_eq_true', beq_iff_eq] at hok
    exact hok

theorem Sound.procNr {e : Endpoint} (hs : Sound s) (h : isokendpt s e = some p)
    (hsys : (s.privOf p).sysProc = true) : (s.privOf p).procNr = some p := by
  refine hs.refs.procNr p ?_ hsys
  by_contra hfree
  rw [Bool.not_eq_false] at hfree
  have hempty := hs.free p hfree
  rw [(isokendpt_some h).1] at hempty
  cases hempty

theorem SameButMasks.swapped (h : SameButMasks s s₁) (h' : Swapped s₁ t src dst) :
    Swapped s t src dst := by
  have hpriv : ∀ p, s₁.privOf p = { s.privOf p with ipcTo := (s₁.privOf p).ipcTo } := by
    intro p
    unfold privOf
    rw [h.proc]
    exact h.priv _
  have hex := h'.exchanged
  refine ⟨⟨?_, ?_, ?_, ?_, ?_, ?_⟩, ?_, ?_, ?_⟩
  · rw [hex.srcProc, h.proc]
  · rw [hex.dstProc, h.proc]
  · rw [← h.proc]
    exact hex.proc
  · rw [hex.srcPriv, hpriv src, hpriv dst]
    rfl
  · rw [hex.dstPriv, hpriv src, hpriv dst]
    rfl
  · intro i hi hi'
    rw [← h.proc] at hi hi'
    rw [hex.priv i hi hi', h.priv i]
  · rw [h'.srcAsyn, hpriv dst]
  · rw [h'.dstAsyn, hpriv src]
  · rw [h'.ptproc, h.ptproc]

/-- The send masks after the loop and the exchange. -/
structure Inherited (s t : State ρ π) (src dst : ProcNr) : Prop where
  srcMask : ∀ k, (t.priv (s.proc src).priv).ipcTo k = if (s.privOf src).ipcTo k = true then
    decide ((s.priv k).procNr ≠ none ∧ k ≠ (s.proc dst).priv) else (s.privOf dst).ipcTo k
  dstMask : ∀ k, (t.priv (s.proc dst).priv).ipcTo k = (s.privOf src).ipcTo k
  others : ∀ i k, i ≠ (s.proc src).priv → i ≠ (s.proc dst).priv →
    (t.priv i).ipcTo k = if k = (s.proc dst).priv ∧ (s.privOf src).ipcTo i = true ∧
      (s.priv i).procNr ≠ none ∧ (s.priv i).canReply = true then true else (s.priv i).ipcTo k

theorem update_swapped (hs : Sound s) (h : src ≠ dst) (hsrc : (s.privOf src).procNr = some src)
    (hdst : (s.privOf dst).procNr = some dst) :
    (s.proc src).priv ≠ (s.proc dst).priv ∧
      Swapped s (swapSlots (inheritMask s src dst) src dst) src dst ∧
      Inherited s (swapSlots (inheritMask s src dst) src dst) src dst := by
  have hpriv : (s.proc src).priv ≠ (s.proc dst).priv := by
    intro heq
    unfold privOf at hsrc hdst
    rw [heq, hdst] at hsrc
    exact h (Option.some.inj hsrc).symm
  have hself : (s.privOf src).ipcTo (s.proc src).priv = false := by
    by_contra hyes
    have hsome : (s.priv (s.proc src).priv).procNr ≠ none := by
      intro hnone
      unfold privOf at hsrc
      rw [hnone] at hsrc
      cases hsrc
    exact (hs.closed _ _ hsome hsome (Bool.of_not_eq_false hyes)).1 rfl
  obtain ⟨hsame, hcell⟩ := inheritMask_bit dst hs.refs.id hself
  have hnr : ∀ p, (s.privOf p).procNr = some p →
      ((inheritMask s src dst).privOf p).procNr = some ((inheritMask s src dst).proc p).nr := by
    intro p hp
    unfold privOf at hp ⊢
    rw [hsame.proc, hsame.procNr, hs.refs.nr]
    exact hp
  obtain ⟨hswapped, hmask⟩ := swapSlots_swapped (s := inheritMask s src dst) h
    (by rw [hsame.proc]; exact hpriv) (hnr src hsrc) (hnr dst hdst)
  unfold privOf at hmask
  rw [hsame.proc] at hmask
  refine ⟨hpriv, hsame.swapped hswapped, fun k => ?_, fun k => ?_, fun i k hi hi' => ?_⟩
  · rw [hmask, if_pos rfl, hcell]
    by_cases hk : (s.privOf src).ipcTo k = true
    · rw [if_pos ⟨rfl, hk⟩, if_pos hk]
    · rw [if_neg fun h => hk h.2, if_neg hk, if_neg]
      · rfl
      · rintro ⟨rfl, hD, -⟩
        exact hk hD
  · rw [hmask, if_neg hpriv.symm, if_pos rfl, hcell, if_neg fun h => hpriv h.1, if_neg]
    · rfl
    · rintro ⟨-, hS, -⟩
      rw [hself] at hS
      cases hS
  · rw [hmask, if_neg hi, if_neg hi', hcell, if_neg fun h => hi' h.1]

end HardenedMinix.Update
