import HardenedMinix.Libmthread.ThreadConditions

/-!
# Lives of threads

Threads end in two steps: one that ends is cleaned up by the thread that joins or detaches it or,
if it is detached, by the next thread that yields.
-/

open Function

namespace HardenedMinix.Mthread

open Lib

variable {s s' s₁ : State} {L L' L₁ : QName → List Tid} {q : QName} {t t' j : Tid}
  {cur lv : Option Tid} {m : MutexId} {c : CondId} {x : Tcb} {b : Caller} {r : Ret} {value : Nat}

theorem card_filter_gain {α : Type*} [Fintype α] [DecidableEq α] {P Q : α → Prop}
    [DecidablePred P] [DecidablePred Q] {a : α} (ha : ¬ P a) (ha' : Q a)
    (ho : ∀ i, i ≠ a → (Q i ↔ P i)) :
    (Finset.univ.filter Q).card = (Finset.univ.filter P).card + 1 := by
  have hnot : a ∉ Finset.univ.filter P := by simpa using ha
  rw [← Finset.card_insert_of_notMem hnot]
  congr 1
  ext i
  rw [Finset.mem_insert, Finset.mem_filter, Finset.mem_filter]
  by_cases hi : i = a
  · simp [hi, ha']
  · simp [hi, ho i hi]

/-! ## The end of a thread -/

theorem condDestroy_ok (h : Placed s L cur) (hd : condDestroy s c = (.ok, s')) :
    s' = s.setCond c none ∧ ∀ t, waitsFor s c t = false := by
  unfold condDestroy at hd
  cases hc : s.cond c with
  | none =>
    rw [hc] at hd
    cases hd
  | some y =>
    rw [hc] at hd
    dsimp only at hd
    split_ifs at hd with hw
    · cases hd
    cases hd
    obtain ⟨hmain, hpool⟩ := not_or.mp hw
    refine ⟨rfl, fun t => ?_⟩
    by_contra hyes
    rw [Bool.not_eq_false] at hyes
    by_cases ht : t = mainThread
    · exact hmain (ht ▸ hyes)
    · exact hpool (List.any_eq_true.mpr ⟨t, waitsFor_pool h hyes ht, hyes⟩)

/-- The condition of a thread that ends is destroyed. -/
def forget (s : State) (t : Tid) (c : CondId) : State :=
  (s.setCond c none).setTcb t { s.tcb t with exited := none }

theorem forget_tcb (s : State) (t t' : Tid) (c : CondId) : (forget s t c).tcb t' =
      { s.tcb t' with exited := if t' = t then none else (s.tcb t').exited } := by
  by_cases ht : t' = t
  · subst ht
    rw [if_pos rfl]
    exact setTcb_self _
  · rw [if_neg ht]
    exact setTcb_ne _ ht

theorem Inv.forget (h : Inv s L cur lv) (hc : (s.tcb t).exited = some c)
    (hw : ∀ t, waitsFor s c t = false) : Inv (forget s t c) L cur lv := by
  have hst : ∀ t', ((Mthread.forget s t c).tcb t').state = (s.tcb t').state :=
    fun t' => by rw [forget_tcb]
  have hpt : ∀ t', ((Mthread.forget s t c).tcb t').point = (s.tcb t').point :=
    fun t' => by rw [forget_tcb]
  have hcd : ∀ t', ((Mthread.forget s t c).tcb t').cond = (s.tcb t').cond :=
    fun t' => by rw [forget_tcb]
  have hself : ((Mthread.forget s t c).tcb t).exited = none := by
    rw [forget_tcb]
    exact if_pos rfl
  have hother : ∀ t', t' ≠ t → ((Mthread.forget s t c).tcb t').exited = (s.tcb t').exited := by
    intro t' ht
    rw [forget_tcb]
    exact if_neg ht
  have hcond : ∀ c', c' ≠ c → (Mthread.forget s t c).cond c' = s.cond c' :=
    fun c' hne => update_of_ne hne _ _
  -- nobody is in `mthread_cond_wait` for the condition any more
  have hnot : ∀ t' m b, (s.tcb t').state = .condition → (s.tcb t').point ≠ .waiting c m b := by
    intro t' m b hs hp
    obtain ⟨-, huser, -⟩ | ⟨c', m', b', hp', hc'⟩ := h.waits.cond t' hs
    · rw [huser] at hp
      cases hp
    rw [hp'] at hp
    cases hp
    have hno := hw t'
    rw [waitsFor_iff.mpr ⟨hs, hc'⟩] at hno
    cases hno
  refine ⟨⟨h.placed.congr rfl hst fun t' _ _ _ => by rw [hpt],
    h.locks.congr rfl fun t' hs m k hp => ⟨(hst t').symm.trans hs, (hpt t').symm.trans hp⟩, ?_,
    h.counts.congr rfl rfl rfl (fun t' => by rw [hst]) fun t' => by rw [hst]⟩, ?_⟩
  · refine ⟨fun t' hs => ?_, fun t' c' m hs hp => ?_, fun t' c' m j hs hp => ?_,
      fun t' j hs hp => ?_, fun t1 t2 j h1 h2 => ?_, fun t' c' he => ?_, fun t1 t2 c' h1 h2 => ?_,
      ?_, fun t' hs => ?_⟩
    · rw [hst] at hs
      rw [hpt, hcd]
      exact h.waits.cond t' hs
    · rw [hst] at hs
      rw [hpt] at hp
      have hne : c' ≠ c := by
        rintro rfl
        exact hnot t' m .user hs hp
      rw [hcond c' hne]
      exact h.waits.user t' c' m hs hp
    · rw [hst] at hs
      rw [hpt] at hp
      obtain ⟨he, halive⟩ := h.waits.join t' c' m j hs hp
      have hne : j ≠ t := by
        rintro rfl
        rw [hc] at he
        cases he
        exact hnot t' m (.join j) hs hp
      rw [hother j hne, hst]
      exact ⟨he, halive⟩
    · rw [hst] at hs ⊢
      rw [hpt] at hp
      exact h.waits.ended t' j hs hp
    · rw [hpt] at h1 h2
      exact h.waits.one t1 t2 j h1 h2
    · by_cases ht : t' = t
      · rw [ht, hself] at he
        cases he
      rw [hother t' ht] at he
      have hne : c' ≠ c := by
        rintro rfl
        exact ht (h.waits.exitedOne t' t c' he hc)
      rw [hcond c' hne]
      exact h.waits.exited t' c' he
    · by_cases ht1 : t1 = t
      · rw [ht1, hself] at h1
        cases h1
      by_cases ht2 : t2 = t
      · rw [ht2, hself] at h2
        cases h2
      · rw [hother t1 ht1] at h1
        rw [hother t2 ht2] at h2
        exact h.waits.exitedOne t1 t2 c' h1 h2
    · by_cases ht : mainThread = t
      · rw [ht, hself]
      · rw [hother _ ht]
        exact h.waits.main
    rw [hst] at hs
    by_cases ht : t' = t
    · rw [ht, hself]
    · rw [hother t' ht]
      exact h.waits.reset t' hs
  · exact h.rep.congr rfl fun t' => by rw [forget_tcb]

def Unjoined (s : State) (j : Tid) : Prop := ∀ t, joining (s.tcb t).point ≠ some j

/-- Other values of the counters. -/
def counted (s : State) (used need : Int) : State :=
  { s with usedThreads := used, needReset := need }

theorem Inv.bury (h : Inv s L cur lv) (hs : (s.tcb j).state = .exiting ∨
      (s.tcb j).state = .needReset) (hmain : j ≠ mainThread) (hno : Unjoined s j)
    {used need : Int} (hused : used = s.usedThreads - 1)
    (hneed : need = if (s.tcb j).state = .needReset then s.needReset - 1 else s.needReset) :
    Inv (queueAdd (counted (threadReset s j) used need) .free j)
        (push L .free j) cur lv ∧
      Moves s L (queueAdd (counted (threadReset s j) used need) .free j)
        (push L .free j) := by
  have hout : ∀ q, j ∉ L q := h.not_queued (by
    obtain hs | hs := hs
    · exact .inr (.inl hs)
    · exact .inr (.inr (.inl hs)))
  have hnotdead : (s.tcb j).state ≠ .dead := by
    obtain hs | hs := hs
    · rw [hs]
      simp
    · rw [hs]
      simp
  have hpool : j.val < s.noThreads := by
    by_contra hle
    exact hnotdead (h.placed.fresh j (Nat.le_of_not_lt hle) hmain)
  have hlink : (s.tcb j).next = none := h.rep.link j hout
  have hself : (counted (threadReset s j) used need).tcb j =
      { s.tcb j with next := none, state := .dead, result := 0, cond := none, point := .gone } :=
    update_self _ _ _
  have hothers : SameOthers s (counted (threadReset s j) used need) j :=
    ⟨fun t ht => congrArg Tcb.state (update_of_ne ht _ _),
      fun t ht => congrArg Tcb.point (update_of_ne ht _ _),
      fun t ht => congrArg Tcb.cond (update_of_ne ht _ _),
      fun t ht => congrArg Tcb.exited (update_of_ne ht _ _)⟩
  have hrep : Rep (counted (threadReset s j) used need) L := by
    refine h.rep.congr rfl fun t => ?_
    by_cases ht : t = j
    · rw [ht, hself, hlink]
    · exact congrArg Tcb.next (update_of_ne ht _ _)
  have hmutex : (counted (threadReset s j) used need).mutex = s.mutex := rfl
  have hrest : (counted (threadReset s j) used need).noThreads = s.noThreads ∧
      (counted (threadReset s j) used need).usedThreads = used ∧
      (counted (threadReset s j) used need).needReset = need ∧
      (counted (threadReset s j) used need).cond = s.cond :=
    ⟨rfl, rfl, rfl, rfl⟩
  generalize (counted (threadReset s j) used need) = s₁ at *
  have hsame : SameFields s₁ (queueAdd s₁ .free j) := queueAdd_same
  obtain ⟨hnr, hu, hn, hcd⟩ := hrest
  have hcore : Core s₁ (push L .free j) cur lv := by
    refine ⟨?_, ?_, ?_, ?_, ?_⟩
    · refine h.placed.move hnr hothers (fun q t ht => by rw [mem_push]; simp [ht])
        (fun _ _ => Iff.rfl) ?_ ?_ (fun m => ?_) (fun _ _ => ?_) fun hbad => absurd hbad hmain
      · rw [mem_push, hself]
        simp [hout]
      · rw [mem_push, hself]
        simp [hpool]
      · rw [mem_push, hself]
        simp [hout]
      · rw [hself]
    · refine h.locks.move hothers (fun m k hbad => ?_) (fun _ _ _ _ _ hm => ?_) fun m hm => ?_
      · rw [hself] at hbad
        cases hbad
      · rw [hmutex]
        exact hm
      · rw [hmutex] at hm
        rw [push_mutex (by simp)]
        exact h.locks.unowned m hm
    · refine h.waits.move hothers (fun c x hx => ⟨x, by rw [hcd]; exact hx, rfl⟩) ?_ ?_ ?_ ?_ ?_ ?_
        (fun t c m ht hst hp => ?_) (fun t ht hst hp => ?_) ?_ fun _ _ hj => hj
      · rw [hself]
      · rw [hself]
        intro hbad
        cases hbad
      · rw [hself]
        intro c m hbad
        cases hbad
      · rw [hself]
        intro c m j' hbad
        cases hbad
      · rw [hself]
        intro j' _ hbad
        cases hbad
      · rw [hself]
        intro t' j' _ hbad
        cases hbad
      · exact absurd (by rw [hp]; rfl) (hno t)
      · exact absurd hp (hno t)
      · rw [hself]
        intro hbad
        cases hbad
    · have hgain := card_filter_gain
        (P := fun t : Tid => t.val < s₁.noThreads ∧ (s₁.tcb t).state ≠ .dead)
        (Q := fun t : Tid => t.val < s.noThreads ∧ (s.tcb t).state ≠ .dead) (a := j)
        (by rw [hself]; simp) ⟨hpool, hnotdead⟩
        fun t ht => by rw [hnr, hothers.state t ht]
      have hcount := h.counts.used
      rw [hgain] at hcount
      rw [hu, hused, hcount]
      push_cast
      ring
    have hcount := h.counts.needReset
    rw [hn, hneed]
    split_ifs with hr
    · have hgain := card_filter_gain
        (P := fun t : Tid => (s₁.tcb t).state = .needReset)
        (Q := fun t : Tid => (s.tcb t).state = .needReset) (a := j)
        (by rw [hself]; simp) hr fun t ht => by rw [hothers.state t ht]
      rw [hgain] at hcount
      rw [hcount]
      push_cast
      ring
    have hsame : (Finset.univ.filter fun t : Tid => (s₁.tcb t).state = .needReset) =
        Finset.univ.filter fun t : Tid => (s.tcb t).state = .needReset := by
      refine Finset.filter_congr fun t _ => ?_
      by_cases ht : t = j
      · rw [ht, hself]
        simp [hr]
      · rw [hothers.state t ht]
    rw [hcount, hsame]
  refine ⟨⟨hsame.core hcore, hrep.add hout⟩, .refl ?_ fun m => push_mutex (by simp)⟩
  rw [hsame.mutex, hmutex]

theorem bury_fields (s : State) (j : Tid) (used need : Int) :
    Wakes (threadReset s j) (queueAdd (counted (threadReset s j) used need) .free j) := by
  have hcount : Wakes (threadReset s j) (counted (threadReset s j) used need) :=
    ⟨fun _ => .inl rfl, fun _ => rfl, rfl, rfl, rfl, rfl⟩
  exact hcount.trans queueAdd_same.wakes

theorem bury_other (used need : Int) (ht : t ≠ j) :
    ((queueAdd (counted (threadReset s j) used need) .free j).tcb t).state = (s.tcb t).state ∧
      ((queueAdd (counted (threadReset s j) used need) .free j).tcb t).point = (s.tcb t).point := by
  have hsame : SameFields (counted (threadReset s j) used need)
      (queueAdd (counted (threadReset s j) used need) .free j) := queueAdd_same
  have hkeep : (counted (threadReset s j) used need).tcb t = s.tcb t := update_of_ne ht _ _
  exact ⟨by rw [hsame.state, hkeep], by rw [hsame.point, hkeep]⟩

theorem Going.bury (h : Going s L) (hs : (s.tcb j).state = .exiting ∨
      (s.tcb j).state = .needReset) (hmain : j ≠ mainThread) (hno : Unjoined s j)
    {used need : Int} (hused : used = s.usedThreads - 1)
    (hneed : need = if (s.tcb j).state = .needReset then s.needReset - 1 else s.needReset) :
    Goes s L (queueAdd (counted (threadReset s j) used need) .free j) := by
  have hne : s.current ≠ j := by
    rintro rfl
    obtain hs | hs := hs
    · exact h.alive.not_exiting hs
    · exact h.alive.not_needReset hs
  obtain ⟨hi, hm⟩ := h.inv.bury hs hmain hno hused hneed
  have hfields := bury_fields s j used need
  obtain ⟨hst, hpt⟩ := bury_other (s := s) used need hne
  exact ⟨_, h.stay hi hfields.current hfields.runningMain hst hpt, hm, hfields.current⟩

theorem Going.threadStop (h : Going s L) (hj : (s.tcb j).state = .exiting) (hno : Unjoined s j)
    (hs : threadStop s j = some s') : Goes s L s' := by
  unfold Mthread.threadStop at hs
  rw [hj] at hs
  rw [if_neg (by simp)] at hs
  have hne : j ≠ s.current := by
    rintro rfl
    exact h.alive.not_exiting hj
  cases hc : (s.tcb j).exited with
  | none =>
    rw [hc] at hs
    cases hs
  | some c =>
    rw [hc] at hs
    dsimp only at hs
    generalize hd : condDestroy s c = p at hs
    obtain ⟨r, s₁⟩ := p
    cases r
    case ok =>
      obtain ⟨rfl, hw⟩ := condDestroy_ok h.inv.placed hd
      dsimp only at hs
      have hcur : ((s.setCond c none).setTcb j
          { (s.setCond c none).tcb j with exited := none }).current = s.current := rfl
      rw [hcur, if_neg hne] at hs
      cases hs
      have hforget : Goes s L (Mthread.forget s j c) := by
        refine ⟨L, h.stay (h.inv.forget hc hw) rfl rfl ?_ ?_, .refl rfl fun _ => rfl, rfl⟩
        · rw [forget_tcb]
        · rw [forget_tcb]
      refine hforget.trans fun L₁ h1 => ?_
      have hst : ((Mthread.forget s j c).tcb j).state = .exiting := by
        rw [forget_tcb]
        exact hj
      refine h1.bury (.inl hst) ?_ ?_ rfl ?_
      · rintro rfl
        rw [h.inv.waits.main] at hc
        cases hc
      · intro t
        rw [forget_tcb]
        exact hno t
      · rw [hst]
        exact (if_neg (by simp)).symm
    all_goals cases hs

/-! ## Ending -/

theorem Going.leave (h : Going s L) : Inv (s.setTcb s.current { s.tcb s.current with
      result := value, state := .exiting, point := .gone }) L none (some s.current) := by
  have hself : (s.setTcb s.current { s.tcb s.current with
      result := value, state := .exiting, point := .gone }).tcb s.current =
      { s.tcb s.current with result := value, state := .exiting, point := .gone } := setTcb_self _
  have ho : SameOthers s (s.setTcb s.current { s.tcb s.current with
      result := value, state := .exiting, point := .gone }) s.current := setTcb_others _
  have hrep : Rep (s.setTcb s.current { s.tcb s.current with
      result := value, state := .exiting, point := .gone }) L := h.inv.rep.setTcb rfl
  have hcounts : Counts (s.setTcb s.current { s.tcb s.current with
      result := value, state := .exiting, point := .gone }) :=
    h.inv.counts.setTcb (by simp [h.alive.not_dead]) (by simp [h.alive.not_needReset])
  have hrest : (s.setTcb s.current { s.tcb s.current with
      result := value, state := .exiting, point := .gone }).mutex = s.mutex ∧
      (s.setTcb s.current { s.tcb s.current with
        result := value, state := .exiting, point := .gone }).cond = s.cond ∧
      (s.setTcb s.current { s.tcb s.current with
        result := value, state := .exiting, point := .gone }).noThreads = s.noThreads :=
    ⟨rfl, rfl, rfl⟩
  generalize s.setTcb s.current { s.tcb s.current with
      result := value, state := .exiting, point := .gone } = s₁ at *
  obtain ⟨hm, hc, hn⟩ := hrest
  refine ⟨⟨?_, ?_, ?_, hcounts⟩, hrep⟩
  · refine h.inv.placed.move hn ho (fun _ _ _ => Iff.rfl) (fun t ht => ?_) ?_ ?_ (fun m => ?_)
      (fun hle hne => ?_) fun _ => ?_
    · simp [Ne.symm ht]
    · rw [hself]
      simp [h.not_queued]
    · rw [hself]
      simp [h.not_queued]
    · rw [hself]
      simp [h.not_queued]
    · exact absurd (h.inv.placed.fresh _ hle hne) h.alive.not_dead
    · rw [hself]
      simp
  · refine h.inv.locks.move ho (fun m k hbad => ?_) (fun _ _ _ _ _ ho => ?_) fun m ho => ?_
    · rw [hself] at hbad
      cases hbad
    · rw [hm]
      exact ho
    · rw [hm] at ho
      exact h.inv.locks.unowned m ho
  refine h.inv.waits.move ho (fun c x hx => ⟨x, by rw [hc]; exact hx, rfl⟩) ?_ ?_ ?_ ?_ ?_ ?_
    (fun _ _ _ _ _ _ => .inr rfl) ?_ ?_ fun _ _ hj => by cases hj
  · rw [hself]
  · rw [hself]
    intro hbad
    cases hbad
  · rw [hself]
    intro c m hbad
    cases hbad
  · rw [hself]
    intro c m j hbad
    cases hbad
  · rw [hself]
    intro j _ hbad
    cases hbad
  · rw [hself]
    intro t' j _ hbad
    cases hbad
  · rw [hself]
    exact fun _ _ _ _ => rfl
  · rw [hself]
    intro hbad
    cases hbad

theorem Inv.told (h : Inv s L cur (some t))
    (hno : ∀ t' c m, (s.tcb t').state = .condition → (s.tcb t').point ≠ .waiting c m (.join t)) :
    Inv s L cur none := by
  refine ⟨⟨h.placed, h.locks, ⟨h.waits.cond, h.waits.user, fun t' c m j hs hp => ?_,
    h.waits.ended, h.waits.one, h.waits.exited, h.waits.exitedOne, h.waits.main, h.waits.reset⟩,
    h.counts⟩, h.rep⟩
  obtain ⟨he, halive | hlv⟩ := h.waits.join t' c m j hs hp
  · exact ⟨he, .inl halive⟩
  · cases hlv
    exact absurd hp (hno t' c m hs)

theorem Waits.joiner (h : Waits s lv) (hs : (s.tcb t).state = .condition)
    (hp : (s.tcb t).point = .waiting c m (.join j)) :
    (s.tcb j).exited = some c ∧ waitsFor s c t = true := by
  refine ⟨(h.join t c m j hs hp).1, waitsFor_iff.mpr ⟨hs, ?_⟩⟩
  obtain ⟨-, huser, -⟩ | ⟨c', m', b', hp', hc'⟩ := h.cond t hs
  · rw [huser] at hp
    cases hp
  · rw [hp'] at hp
    cases hp
    exact hc'

theorem Waits.suspended (h : Waits s lv) (hj : Alive (s.tcb j).state)
    (ht : joining (s.tcb t).point = some j) : (s.tcb t).state = .condition := by
  by_contra hs
  exact hj.not_exiting (h.ended t j hs ht)

/-- A thread that is detached cannot clean itself up. -/
def awaitReset (s : State) (t : Tid) : State :=
  { s.setTcb t { s.tcb t with state := .needReset } with needReset := s.needReset + 1 }

theorem awaitReset_ne (h : t' ≠ t) : (awaitReset s t).tcb t' = s.tcb t' := setTcb_ne _ h

theorem Inv.toReset (h : Inv s L cur lv) (hs : (s.tcb t).state = .exiting)
    (hp : (s.tcb t).point = .gone) (he : (s.tcb t).exited = none) (hmain : t ≠ mainThread)
    (hno : Unjoined s t) : Inv (awaitReset s t) L cur lv := by
  have hout := h.not_queued (.inr (.inl hs))
  have hself : (s.setTcb t { s.tcb t with state := .needReset }).tcb t =
      { s.tcb t with state := .needReset } := setTcb_self _
  have ho : SameOthers s (s.setTcb t { s.tcb t with state := .needReset }) t := setTcb_others _
  have hrep : Rep (s.setTcb t { s.tcb t with state := .needReset }) L := h.rep.setTcb rfl
  have hplaced : Placed (s.setTcb t { s.tcb t with state := .needReset }) L cur := by
    refine h.placed.move rfl ho (fun _ _ _ => Iff.rfl) (fun _ _ => Iff.rfl) ?_ ?_ (fun m => ?_)
      (fun hle hne => ?_) fun hbad => absurd hbad hmain
    · rw [hself]
      simp [hout]
    · rw [hself]
      simp [hout]
    · rw [hself]
      simp [hout]
    · have hdead := h.placed.fresh t hle hne
      rw [hs] at hdead
      cases hdead
  have hlocks : Locks (s.setTcb t { s.tcb t with state := .needReset }) L := by
    refine h.locks.move ho (fun m k hbad => ?_) (fun _ _ _ _ _ ho => ho) h.locks.unowned
    rw [hself] at hbad
    cases hbad
  have hwaits : Waits (s.setTcb t { s.tcb t with state := .needReset }) lv := by
    refine h.waits.move ho (fun c x hx => ⟨x, hx, rfl⟩) ?_ ?_ ?_ ?_ ?_ ?_
      (fun t' c m _ _ hp' => ?_) (fun t' _ _ hp' => absurd hp' (hno t')) ?_ fun _ _ hj => hj
    · rw [hself]
    · rw [hself]
      intro hbad
      cases hbad
    · rw [hself]
      intro c m hbad
      cases hbad
    · rw [hself]
      intro c m j hbad
      cases hbad
    · rw [hself, hp]
      intro j _ hbad
      cases hbad
    · rw [hself, hp]
      intro t' j _ hbad
      cases hbad
    · exact absurd (by rw [hp']; rfl) (hno t')
    · rw [hself]
      exact fun _ => he
  have hused : Counts { s.setTcb t { s.tcb t with state := .needReset } with
      needReset := s.needReset + 1 } := by
    constructor
    · have hsame : (Finset.univ.filter fun t' : Tid => t'.val < s.noThreads ∧
          ((s.setTcb t { s.tcb t with state := .needReset }).tcb t').state ≠ .dead) =
          Finset.univ.filter fun t' : Tid => t'.val < s.noThreads ∧ (s.tcb t').state ≠ .dead := by
        refine Finset.filter_congr fun t' _ => ?_
        by_cases ht : t' = t
        · rw [ht, hself, hs]
          simp
        · rw [ho.state t' ht]
      exact h.counts.used.trans (by rw [← hsame]; rfl)
    have hgain := card_filter_gain
      (P := fun t' : Tid => (s.tcb t').state = .needReset)
      (Q := fun t' : Tid =>
        ((s.setTcb t { s.tcb t with state := .needReset }).tcb t').state = .needReset) (a := t)
      (by rw [hs]; simp) (by rw [hself]) fun t' ht => by rw [ho.state t' ht]
    have hcount : s.needReset + 1 = ((Finset.univ.filter fun t' : Tid =>
        ((s.setTcb t { s.tcb t with state := .needReset }).tcb t').state = .needReset).card :
          Int) := by
      rw [hgain, h.counts.needReset]
      push_cast
      ring
    exact hcount
  exact ⟨⟨⟨hplaced.run, hplaced.free, hplaced.mutex, hplaced.fresh, hplaced.main, hplaced.size⟩,
    ⟨hlocks.owner, hlocks.unowned⟩, hwaits.congr (fun _ x hx => ⟨x, hx, rfl⟩) (fun _ => rfl)
      (fun _ => rfl) (fun _ _ => rfl) fun _ => rfl, hused⟩, hrep.congr rfl fun _ => rfl⟩

theorem schedule_state (s : State) (t : Tid) : ((schedule s).tcb t).state = (s.tcb t).state := by
  have hsame : SameFields s (queueRemove s .run).2 := queueRemove_same
  unfold schedule
  generalize queueRemove s .run = p at hsame
  obtain ⟨o, s₁⟩ := p
  cases o with
  | none =>
    dsimp only
    split_ifs
    · exact hsame.state t
    · exact hsame.state t
  | some t' => exact hsame.state t

theorem schedule_wokeOne (h : WokeOne s s' c) : WokeOne s (schedule s') c := by
  have hiff : ∀ t, Woken s (schedule s') t ↔ Woken s s' t := by
    intro t
    unfold Woken
    rw [schedule_state]
  intro t ht
  obtain ⟨hw, hone⟩ := h t ((hiff t).mp ht)
  exact ⟨hw, fun t' ht' => hone t' ((hiff t').mp ht')⟩

theorem Waits.joins (h : Waits s lv) (he : (s.tcb t).exited = some c)
    (hw : waitsFor s c t' = true) : ∃ m, (s.tcb t').point = .waiting c m (.join t) := by
  obtain ⟨m, b, hp⟩ := h.point hw
  obtain ⟨y, hy, hyu⟩ := h.exited t c he
  cases b with
  | user =>
    obtain ⟨z, hz, hzu⟩ := h.user t' c m (waitsFor_iff.mp hw).1 hp
    rw [hy] at hz
    cases hz
    rw [hyu] at hzu
    cases hzu
  | join j =>
    obtain ⟨he', -⟩ := h.join t' c m j (waitsFor_iff.mp hw).1 hp
    rw [h.exitedOne j t c he' he] at hp
    exact ⟨m, hp⟩

theorem Waits.joins_one (h : Waits s lv) (he : (s.tcb t).exited = some c)
    (hw : waitsFor s c t' = true) (hw' : waitsFor s c j = true) : t' = j := by
  obtain ⟨m, hp⟩ := h.joins he hw
  obtain ⟨m', hp'⟩ := h.joins he hw'
  exact h.one t' j t (by rw [hp]; rfl) (by rw [hp']; rfl)

/-- Somebody can run when the running thread has ended. -/
def Leaves (s : State) : Prop :=
  (s.queue .run).head ≠ none ∨ mainIdle s ∨ (s.tcb s.current).detached = false ∧
    ∃ c t, (s.tcb s.current).exited = some c ∧ waitsFor s c t = true

theorem Inv.signalEnd (h : Inv s L none (some t)) (he : (s.tcb t).exited = some c)
    (hs : (s.tcb t).state = .exiting) :
    (condSignal s c).1 = .ok ∧ ∃ L', Inv (condSignal s c).2 L' none none ∧
      Moves s L (condSignal s c).2 L' ∧ Wakes s (condSignal s c).2 ∧
      WokeOne s (condSignal s c).2 c ∧ (L .run ≠ [] → L' .run ≠ []) ∧
      ∀ t', waitsFor s c t' = true → L' .run ≠ [] := by
  obtain ⟨x, hx, -⟩ := h.waits.exited t c he
  have halone : Alone s c := by
    intro hmain t' hne
    by_contra hyes
    rw [Bool.not_eq_false] at hyes
    exact hne (h.waits.joins_one he hyes hmain)
  obtain ⟨hnobody, hrun⟩ | ⟨t', hw, hrun⟩ := condSignal_alone h.placed hx halone
  · rw [hrun]
    refine ⟨rfl, L, h.told fun t' c' m hst hp => ?_, .refl rfl fun _ => rfl, .refl s,
      wokeOne_refl s c, fun hne => hne, fun t' hw => ?_⟩
    · obtain ⟨he', hw⟩ := h.waits.joiner hst hp
      rw [he] at he'
      cases he'
      rw [hnobody t'] at hw
      cases hw
    · rw [hnobody t'] at hw
      cases hw
  rw [hrun]
  have hst := (waitsFor_iff.mp hw).1
  obtain ⟨m, hp⟩ := h.waits.joins he hw
  obtain ⟨hi, hm⟩ := h.wake hst (by simp) fun j hj => by
    rw [hp] at hj
    cases hj
    exact hs
  have hne : push L .run t' .run ≠ [] := by
    rw [push_self]
    simp
  refine ⟨rfl, push L .run t', hi.told fun t'' c' m' hst' hp' => ?_, hm,
    unsuspend_wakes (.inl hst), wokeOne_unsuspend hw, fun _ => hne, fun _ _ => hne⟩
  -- another thread that joins it would be the one that has been woken
  have heq : t'' = t' := by
    rw [unsuspend_point] at hp'
    exact h.waits.one t'' t' t (by rw [hp']; rfl) (by rw [hp]; rfl)
  rw [heq, unsuspend_state] at hst'
  cases hst'

theorem threadStop_self (hst : (s.tcb s.current).state = .exiting)
    (he : (s.tcb s.current).exited = some c) (hs : threadStop s s.current = some s') :
    condDestroy s c = (.ok, s.setCond c none) ∧
      s' = awaitReset (forget s s.current c) s.current := by
  unfold threadStop at hs
  rw [hst, if_neg (by simp), he] at hs
  dsimp only at hs
  unfold condDestroy at hs ⊢
  cases hc : s.cond c with
  | none =>
    rw [hc] at hs
    cases hs
  | some x =>
    rw [hc] at hs
    dsimp only at hs ⊢
    split_ifs at hs ⊢ with hw
    · have hs' := (if_pos (by exact rfl)).symm.trans hs
      cases hs'
      exact ⟨rfl, rfl⟩

theorem Going.exit (h : Going s L) (hspare : Leaves s) (hs : exit s value = some s') :
    Stops s L s' ∧ ∀ c, (s.tcb s.current).exited = some c → WokeOne s s' c := by
  unfold Mthread.exit at hs
  rw [if_neg h.alive.not_exiting] at hs
  have hi : Inv (s.setTcb s.current { s.tcb s.current with
      result := value, state := .exiting, point := .gone }) L none (some s.current) := h.leave
  have hself : (s.setTcb s.current { s.tcb s.current with
      result := value, state := .exiting, point := .gone }).tcb s.current =
      { s.tcb s.current with result := value, state := .exiting, point := .gone } := setTcb_self _
  have hother : ∀ t, t ≠ s.current → (s.setTcb s.current { s.tcb s.current with
      result := value, state := .exiting, point := .gone }).tcb t = s.tcb t :=
    fun t ht => setTcb_ne _ ht
  have hrest : (s.setTcb s.current { s.tcb s.current with
      result := value, state := .exiting, point := .gone }).current = s.current ∧
      (s.setTcb s.current { s.tcb s.current with
        result := value, state := .exiting, point := .gone }).runningMain =
          decide (s.current = mainThread) := ⟨rfl, h.main⟩
  have hmoves : Moves s L (s.setTcb s.current { s.tcb s.current with
      result := value, state := .exiting, point := .gone }) L := .refl rfl fun _ => rfl
  dsimp only at hs
  rw [hself] at hs
  generalize s.setTcb s.current { s.tcb s.current with
      result := value, state := .exiting, point := .gone } = s₁ at *
  obtain ⟨hcur, hrunning⟩ := hrest
  have hst : (s₁.tcb s.current).state = .exiting := by rw [hself]
  have hex : (s₁.tcb s.current).exited = (s.tcb s.current).exited := by rw [hself]
  have hwaits : ∀ c t, waitsFor s₁ c t = true ↔ waitsFor s c t = true := by
    intro c t
    by_cases ht : t = s.current
    · subst ht
      refine ⟨fun hw => ?_, fun hw => absurd rfl (h.not_waiting hw)⟩
      rw [waitsFor_iff, hst] at hw
      cases hw.1
    · unfold waitsFor
      rw [hother t ht]
  cases hc : (s.tcb s.current).exited with
  | none =>
    -- the main thread; the library panics
    have hnone : (s₁.tcb s.current).exited = none := hex.trans hc
    rw [hc] at hs
    split_ifs at hs with hdet
    · simp only [Mthread.threadStop, hst, hnone] at hs
      simp at hs
    · cases hs
  | some c =>
    have hne : s.current ≠ mainThread := by
      intro hbad
      rw [hbad, h.inv.waits.main] at hc
      cases hc
    have hrunnable : (s.tcb s.current).state = .runnable := by
      obtain hr | ⟨hbad, -⟩ := h.state
      · exact hr
      · exact absurd hbad hne
    have hwoken : ∀ {s2 : State}, WokeOne s₁ s2 c → WokeOne s s2 c := by
      intro s2 hone
      have hiff : ∀ t, Woken s s2 t → Woken s₁ s2 t := by
        intro t hw
        have ht : t ≠ s.current := by
          rintro rfl
          rw [Woken, hrunnable] at hw
          cases hw.1
        unfold Woken
        rw [hother t ht]
        exact hw
      intro t hw
      obtain ⟨hwait, hall⟩ := hone t (hiff t hw)
      exact ⟨(hwaits c t).mp hwait, fun t' hw' => hall t' (hiff t' hw')⟩
    have hmainIdle : mainIdle s → mainIdle s₁ := by
      unfold mainIdle
      rw [hother _ hne.symm]
      exact fun hm => hm
    have hhead : (s.queue .run).head ≠ none → L .run ≠ [] :=
      fun hr hnil => hr (h.inv.rep.head_none.mpr hnil)
    have hes : (s₁.tcb s.current).exited = some c := hex.trans hc
    rw [hc] at hs
    cases hdet : (s.tcb s.current).detached with
    | false =>
      rw [hdet, if_neg (by simp)] at hs
      dsimp only at hs
      obtain ⟨hok, L2, hi2, hm2, hw2, hone, hkeep, hlast⟩ := hi.signalEnd hes hst
      generalize condSignal s₁ c = p at *
      obtain ⟨r, s2⟩ := p
      dsimp only at hok
      subst hok
      cases hs
      have hmain2 : s2.runningMain = decide (s2.current = mainThread) := by
        rw [hw2.runningMain, hw2.current, hcur]
        exact hrunning
      have hspare' : L2 .run ≠ [] ∨ mainIdle s2 := by
        obtain hr | hidle | ⟨-, c', t, hc', hw⟩ := hspare
        · exact .inl (hkeep (hhead hr))
        · -- the main thread may be the one that is woken
          obtain hsame | ⟨-, hr⟩ := hw2.state mainThread
          · right
            unfold mainIdle
            rw [hsame, hw2.point]
            exact hmainIdle hidle
          · left
            have hmem : mainThread ∈ L2 .run := (hi2.placed.run mainThread).mpr ⟨hr, by simp⟩
            exact List.ne_nil_of_mem hmem
        · rw [hc] at hc'
          cases hc'
          exact .inl (hlast t ((hwaits c t).mpr hw))
      obtain ⟨L', hfit, hm'⟩ := hi2.schedule hmain2 hspare'
      refine ⟨⟨L', hfit, hmoves.trans (hm2.trans hm')⟩, fun c' hc' => ?_⟩
      cases hc'
      exact schedule_wokeOne (hwoken hone)
    | true =>
      rw [hdet, if_pos rfl] at hs
      obtain ⟨s2, hstop, hs⟩ := Option.map_eq_some_iff.mp hs
      rw [← hcur] at hst hes hstop
      obtain ⟨hd, rfl⟩ := threadStop_self hst hes hstop
      rw [hcur] at hst hes hs
      obtain ⟨-, hw⟩ := condDestroy_ok hi.placed hd
      have hnojoin : ∀ t c' m, (s₁.tcb t).state = .condition →
          (s₁.tcb t).point ≠ .waiting c' m (.join s.current) := by
        intro t c' m hst' hp
        obtain ⟨he', hw'⟩ := hi.waits.joiner hst' hp
        rw [hes] at he'
        cases he'
        rw [hw t] at hw'
        cases hw'
      have hunjoined : Unjoined s₁ s.current := by
        intro t hj
        by_cases ht : t = s.current
        · rw [ht, hself] at hj
          cases hj
        have hj' := hj
        rw [hother t ht] at hj'
        have hst' := h.inv.waits.suspended h.alive hj'
        rw [← hother t ht] at hst'
        obtain ⟨-, hbad, -⟩ | ⟨c', m, b, hp, -⟩ := hi.waits.cond t hst'
        · rw [hbad] at hj
          cases hj
        rw [hp] at hj
        cases b with
        | user => cases hj
        | join j =>
          cases hj
          exact hnojoin t c' m hst' hp
      have hfst : ∀ t, ((forget s₁ s.current c).tcb t).state = (s₁.tcb t).state :=
        fun t => by rw [forget_tcb]
      have hfpt : ∀ t, ((forget s₁ s.current c).tcb t).point = (s₁.tcb t).point :=
        fun t => by rw [forget_tcb]
      have hreset : Inv (awaitReset (forget s₁ s.current c) s.current) L none none := by
        refine ((hi.told hnojoin).forget hes hw).toReset ((hfst _).trans hst) ?_ ?_ hne fun t => ?_
        · rw [hfpt, hself]
        · rw [forget_tcb]
          exact if_pos rfl
        · rw [hfpt]
          exact hunjoined t
      have hspare' : L .run ≠ [] ∨ mainIdle (awaitReset (forget s₁ s.current c) s.current) := by
        obtain hr | hidle | ⟨hbad, -⟩ := hspare
        · exact .inl (hhead hr)
        · right
          unfold mainIdle
          rw [awaitReset_ne hne.symm, hfst, hfpt]
          exact hmainIdle hidle
        · rw [hdet] at hbad
          cases hbad
      have hrunning' : (awaitReset (forget s₁ s.current c) s.current).runningMain =
          decide ((awaitReset (forget s₁ s.current c) s.current).current = mainThread) := by
        have hc1 : s₁.runningMain = decide (s₁.current = mainThread) := by
          rw [hcur]
          exact hrunning
        exact hc1
      obtain ⟨L', hfit, hm'⟩ := hreset.schedule hrunning' hspare'
      have hmoves' : Moves s₁ L (awaitReset (forget s₁ s.current c) s.current) L :=
        .refl rfl fun _ => rfl
      subst hs
      refine ⟨⟨L', hfit, hmoves.trans (hmoves'.trans hm')⟩, fun c' hc' => ?_⟩
      cases hc'
      refine schedule_wokeOne (hwoken fun t hw' => ?_)
      exfalso
      obtain ⟨hcond, hrun'⟩ := hw'
      have hts : t ≠ s.current := by
        rintro rfl
        rw [hst] at hcond
        cases hcond
      rw [awaitReset_ne hts, hfst, hcond] at hrun'
      cases hrun'

end HardenedMinix.Mthread
