import HardenedMinix.Vfs.PipeFifo

/-!
# Wake-ups on pipes

A reader sleeps on an empty pipe that has a writer, a writer on one that has a reader and is not
empty, a select for reading on an empty one.
-/

open Function List Option

namespace HardenedMinix.Pipe

open Lib

variable {s s' s₁ s₂ t : State} {p q : Slot} {f g : FilpPtr} {v w : VnodePtr} {x y : Fproc}
  {rw : Rw} {buf : List Byte} {n : Nat} {r : Result} {op : CallNr} {count : Int} {k j : SelSlot}

theorem sum_change {ι : Type*} [Fintype ι] [DecidableEq ι] {a b : ι → Int} (i : ι)
    (h : ∀ j, j ≠ i → b j = a j) : ∑ j, b j = ∑ j, a j + (b i - a i) := by
  rw [← Finset.add_sum_erase _ b (Finset.mem_univ i), ← Finset.add_sum_erase _ a (Finset.mem_univ i),
    Finset.sum_congr rfl fun j hj => h j (Finset.ne_of_mem_erase hj)]
  ring

/-! ## Sleeping on a pipe -/

/-- The process is suspended on a pipe and has not been revived. -/
def Asleep (x : Fproc) : Prop := x.blockedOn = .pipe ∧ x.revived = false

instance (x : Fproc) : Decidable (Asleep x) := by
  unfold Asleep
  infer_instance

def Justified (s : State) (x : Fproc) : Prop :=
  ∀ f, x.file = .filp (some f) →
    (x.blockCallnr = .read →
      (s.vnode (s.filp f).vno).size = 0 ∧ FindFilp s (s.filp f).vno .writing) ∧
    (x.blockCallnr = .write →
      (s.vnode (s.filp f).vno).size ≠ 0 ∧ FindFilp s (s.filp f).vno .reading)

/-- Who sleeps on a pipe is counted and has a reason to sleep. -/
structure PipeWake (s : State) : Prop where
  kinds : ∀ p, (s.fproc p).blockedOn = .none ∨ (s.fproc p).blockedOn = .pipe ∨
    (s.fproc p).blockedOn = .select
  revived : ∀ p, (s.fproc p).blockedOn ≠ .pipe → (s.fproc p).revived = false
  used : ∀ p, (s.fproc p).blockedOn ≠ .none → (s.fproc p).used = true
  suspCount : s.suspCount = ∑ p, if Asleep (s.fproc p) then 1 else 0
  count : ∀ f, (s.filp f).count = ∑ p, (s.fds p f : Int)
  ends : ∀ f, ((s.filp f).rBit && (s.filp f).wBit) = false
  justified : ∀ p, Asleep (s.fproc p) → Justified s (s.fproc p)

theorem FindFilp.congr (h : ∀ f, SameFilp (s.filp f) (s'.filp f)) (hf : FindFilp s v rw) :
    FindFilp s' v rw := by
  obtain ⟨f, hcount, hvno, hbit⟩ := hf
  refine ⟨f, by rw [(h f).count]; exact hcount, (h f).vno.trans hvno, ?_⟩
  cases rw with
  | reading => exact (h f).rBit.trans hbit
  | writing => exact (h f).wBit.trans hbit

theorem Justified.congr (h : Justified s x) (hv : s'.vnode = s.vnode)
    (hf : ∀ f, SameFilp (s.filp f) (s'.filp f)) : Justified s' x := by
  intro f hfile
  rw [(hf f).vno, hv]
  exact ⟨fun hr => ⟨((h f hfile).1 hr).1, ((h f hfile).1 hr).2.congr hf⟩,
    fun hr => ⟨((h f hfile).2 hr).1, ((h f hfile).2 hr).2.congr hf⟩⟩

/-- Selects have been answered; nothing has happened to pipe calls. -/
structure Answered (s s' : State) : Prop where
  vnode : s'.vnode = s.vnode
  fds : s'.fds = s.fds
  suspCount : s'.suspCount = s.suspCount
  filp : ∀ f, SameFilp (s.filp f) (s'.filp f)
  fproc : ∀ p, s'.fproc p = s.fproc p ∨ (s.fproc p).blockedOn = .select ∧
    s'.fproc p = { s.fproc p with blockedOn := .none, file := .fd 0 none }

theorem Answered.refl (s : State) : Answered s s :=
  ⟨rfl, rfl, rfl, fun _ => .refl _, fun _ => .inl rfl⟩

theorem Answered.trans (h : Answered s s₁) (h' : Answered s₁ s₂) : Answered s s₂ where
  vnode := h'.vnode.trans h.vnode
  fds := h'.fds.trans h.fds
  suspCount := h'.suspCount.trans h.suspCount
  filp f := (h.filp f).trans (h'.filp f)
  fproc p := by
    obtain heq | ⟨hb, heq⟩ := h.fproc p
    · rw [← heq]
      exact h'.fproc p
    · obtain heq' | ⟨hb', -⟩ := h'.fproc p
      · exact .inr ⟨hb, heq'.trans heq⟩
      · rw [heq] at hb'
        cases hb'

theorem Answered.asleep (h : Answered s s') (p : Slot) :
    Asleep (s'.fproc p) ↔ Asleep (s.fproc p) := by
  obtain heq | ⟨hb, heq⟩ := h.fproc p
  · rw [heq]
  rw [heq]
  constructor
  · rintro ⟨hp, -⟩
    cases hp
  · rintro ⟨hp, -⟩
    rw [hb] at hp
    cases hp

theorem Answered.pipeWake (h : Answered s s') (hw : PipeWake s) : PipeWake s' where
  kinds p := by
    obtain heq | ⟨hb, heq⟩ := h.fproc p
    · rw [heq]
      exact hw.kinds p
    · rw [heq]
      exact .inl rfl
  revived p hp := by
    obtain heq | ⟨hb, heq⟩ := h.fproc p
    · rw [heq] at hp ⊢
      exact hw.revived p hp
    · rw [heq]
      exact hw.revived p (by rw [hb]; decide)
  used p hp := by
    obtain heq | ⟨hb, heq⟩ := h.fproc p
    · rw [heq] at hp ⊢
      exact hw.used p hp
    · rw [heq] at hp
      exact absurd rfl hp
  suspCount := by
    rw [h.suspCount, hw.suspCount]
    exact Finset.sum_congr rfl fun p _ => by rw [if_congr (h.asleep p) rfl rfl]
  count f := by
    rw [(h.filp f).count, h.fds]
    exact hw.count f
  ends f := by
    rw [(h.filp f).rBit, (h.filp f).wBit]
    exact hw.ends f
  justified p hp := by
    have hold := (h.asleep p).mp hp
    obtain heq | ⟨hb, -⟩ := h.fproc p
    · rw [heq]
      exact (hw.justified p hold).congr h.vnode h.filp
    · rw [hold.1] at hb
      cases hb

/-! ## Releasing those who sleep on a pipe -/

/-- Processes have been revived; everything else is as it was. -/
structure Revived (s s' : State) : Prop where
  vnode : s'.vnode = s.vnode
  fds : s'.fds = s.fds
  filp : s'.filp = s.filp
  selecttab : s'.selecttab = s.selecttab
  fproc : ∀ p, s'.fproc p = s.fproc p ∨ Asleep (s.fproc p) ∧
    s'.fproc p = { s.fproc p with revived := true }

theorem Revived.refl (s : State) : Revived s s := ⟨rfl, rfl, rfl, rfl, fun _ => .inl rfl⟩

theorem Revived.trans (h : Revived s s₁) (h' : Revived s₁ s₂) : Revived s s₂ where
  vnode := h'.vnode.trans h.vnode
  fds := h'.fds.trans h.fds
  filp := h'.filp.trans h.filp
  selecttab := h'.selecttab.trans h.selecttab
  fproc p := by
    obtain heq | ⟨hb, heq⟩ := h.fproc p
    · rw [← heq]
      exact h'.fproc p
    · obtain heq' | ⟨hb', -⟩ := h'.fproc p
      · exact .inr ⟨hb, heq'.trans heq⟩
      · rw [heq] at hb'
        cases hb'.2

theorem Revived.blockedOn (h : Revived s s') (p : Slot) :
    (s'.fproc p).blockedOn = (s.fproc p).blockedOn := by
  obtain heq | ⟨-, heq⟩ := h.fproc p
  · rw [heq]
  · rw [heq]

theorem revive_wake (hw : PipeWake s) (hp : Asleep (s.fproc p)) :
    PipeWake { revive s p r with suspCount := (revive s p r).suspCount - 1 } ∧
      Revived s { revive s p r with suspCount := (revive s p r).suspCount - 1 } ∧
      (revive s p r).suspCount = s.suspCount ∧ ¬ Asleep ((revive s p r).fproc p) := by
  have heq : revive s p r =
      { s.setProc p { s.fproc p with revived := true } with reviving := s.reviving + 1 } := by
    unfold revive
    have hused := hw.used p (by rw [hp.1]; decide)
    simp [hp.1, hp.2, hused]
  have hself : (revive s p r).fproc p = { s.fproc p with revived := true } := by
    rw [heq]
    exact update_self _ _ _
  have hother : ∀ q, q ≠ p → (revive s p r).fproc q = s.fproc q := by
    intro q hq
    rw [heq]
    exact update_of_ne hq _ _
  have hno : ¬ Asleep ((revive s p r).fproc p) := by
    rw [hself]
    rintro ⟨-, hrev⟩
    cases hrev
  have hrev : Revived s { revive s p r with suspCount := (revive s p r).suspCount - 1 } := by
    refine ⟨by rw [heq]; rfl, by rw [heq]; rfl, by rw [heq]; rfl, by rw [heq]; rfl, fun q => ?_⟩
    by_cases hq : q = p
    · subst hq
      exact .inr ⟨hp, hself⟩
    · exact .inl (hother q hq)
  refine ⟨⟨fun q => ?_, fun q hq => ?_, fun q hq => ?_, ?_, ?_, ?_, fun q hq => ?_⟩, hrev,
    by rw [heq]; rfl, hno⟩
  · rw [hrev.blockedOn q]
    exact hw.kinds q
  · rw [hrev.blockedOn q] at hq
    obtain hsame | ⟨hsleep, -⟩ := hrev.fproc q
    · rw [hsame]
      exact hw.revived q hq
    · exact absurd hsleep.1 hq
  · rw [hrev.blockedOn q] at hq
    obtain hsame | ⟨-, hsame⟩ := hrev.fproc q
    · rw [hsame]
      exact hw.used q hq
    · rw [hsame]
      exact hw.used q hq
  · have hcount : (revive s p r).suspCount = s.suspCount := by rw [heq]; rfl
    show (revive s p r).suspCount - 1 = _
    rw [hcount, hw.suspCount, sum_change p (a := fun q => if Asleep (s.fproc q) then 1 else 0)
      (b := fun q => if Asleep ((revive s p r).fproc q) then 1 else 0)
      fun q hq => by rw [hother q hq]]
    simp only [if_pos hp, if_neg hno]
    omega
  · rw [heq]
    exact hw.count
  · rw [heq]
    exact hw.ends
  by_cases hqp : q = p
  · subst hqp
    exact absurd hq hno
  · rw [show State.fproc { revive s p r with suspCount := (revive s p r).suspCount - 1 } q =
      s.fproc q from hother q hqp] at hq ⊢
    exact (hw.justified q hq).congr hrev.vnode fun f => by rw [hrev.filp]; exact .refl _

theorem Revived.eq_of_asleep (h : Revived s s') (hp : Asleep (s'.fproc p)) :
    s'.fproc p = s.fproc p := by
  obtain heq | ⟨-, heq⟩ := h.fproc p
  · exact heq
  · rw [heq] at hp
    cases hp.2

theorem PipeWake.not_asleep (hw : PipeWake s) (h : s.suspCount ≤ 0) (p : Slot) :
    ¬ Asleep (s.fproc p) := by
  intro hp
  rw [hw.suspCount] at h
  have hone : (if Asleep (s.fproc p) then (1 : Int) else 0) ≤
      ∑ q, if Asleep (s.fproc q) then (1 : Int) else 0 :=
    Finset.single_le_sum (f := fun q => if Asleep (s.fproc q) then (1 : Int) else 0)
      (fun q _ => by split <;> omega) (Finset.mem_univ p)
  rw [if_pos hp] at hone
  omega

/-- Nobody sleeps on the vnode in the call `op`. -/
def NoneOn (s : State) (v : VnodePtr) (op : CallNr) (p : Slot) : Prop :=
  Asleep (s.fproc p) → (s.fproc p).blockCallnr = op → ∀ f, (s.fproc p).file = .filp (some f) →
    (s.filp f).vno ≠ v

theorem Revived.noneOn (h : Revived s s') (hn : NoneOn s v op p) : NoneOn s' v op p := by
  intro hp hop f hfile
  have heq := h.eq_of_asleep hp
  rw [heq] at hp hop hfile
  rw [h.filp]
  exact hn hp hop f hfile

theorem releaseProcs_wake {ps : List Slot} (hw : PipeWake s) (hcount : s.suspCount ≤ count)
    (h : releaseProcs v op ps count s = some s') :
    PipeWake s' ∧ Revived s s' ∧ ∀ q ∈ ps, NoneOn s' v op q := by
  induction ps generalizing s count with
  | nil =>
    cases h
    exact ⟨hw, .refl _, fun q hq => absurd hq not_mem_nil⟩
  | cons p ps ih =>
    rw [releaseProcs.eq_2] at h
    simp only at h
    split_ifs at h with hzero hmatch hneg
    · cases h
      exact ⟨hw, .refl _, fun q _ hq => absurd hq (hw.not_asleep (hcount.trans hzero) q)⟩
    · obtain ⟨hused, hb, hrev, hop, hon⟩ := hmatch
      have hp : Asleep (s.fproc p) := by
        obtain hk | hk | hk := hw.kinds p
        · exact absurd hk hb
        · exact ⟨hk, hrev⟩
        · unfold HangsOn at hon
          rw [hk] at hon
          exact absurd hon (by simp)
      obtain ⟨hw', hrevived, hsusp, hno⟩ := revive_wake (r := .val 0) hw hp
      obtain ⟨hw2, hrevived2, hnone⟩ := ih hw' (by
        show (revive s p (.val 0)).suspCount - 1 ≤ count - 1
        omega) h
      refine ⟨hw2, hrevived.trans hrevived2, fun q hq => ?_⟩
      obtain rfl | hq := mem_cons.mp hq
      · apply hrevived2.noneOn
        exact fun hq => absurd hq hno
      · exact hnone q hq
    obtain ⟨hw', hrevived, hnone⟩ := ih hw hcount h
    refine ⟨hw', hrevived, fun q hq => ?_⟩
    obtain rfl | hq := mem_cons.mp hq
    · -- it is not on the vnode, or it was not in the call
      apply hrevived.noneOn
      intro hsleep hop f hfile hvno
      apply hmatch
      refine ⟨hw.used q (by rw [hsleep.1]; decide), by rw [hsleep.1]; decide, hsleep.2, hop, ?_⟩
      unfold HangsOn
      rw [hsleep.1, hfile]
      exact hvno
    · exact hnone q hq

/-! ## Sleeping in a select -/

/-- The descriptors of a live entry that name the filp. -/
def names (e : SelectEntry) (f : FilpPtr) : Int :=
  if e.requestor = none then 0 else ((e.fds.map (·.filp)).count (some f) : Nat)

/-- A process that sleeps in a select: none of its descriptors is ready, and the filp says where it
waits for a reader's turn. -/
structure Sleeps (s : State) (p : Slot) (e : SelectEntry) : Prop where
  block : e.block = true
  nreadyfds : e.nreadyfds = 0
  ready : ∀ d ∈ e.fds, d.ready = Ops.none
  wr : ∀ d ∈ e.fds, d.want.wr = false
  opened : ∀ d ∈ e.fds, ∀ f, d.filp = some f → s.fds p f ≠ 0
  rd : ∀ d ∈ e.fds, ∀ f, d.filp = some f → d.want.rd = true → (s.filp f).pipeSelectOps.rd = true

/-- Who sleeps in a select is registered and has a reason to; but for an entry that is being worked
on. -/
structure SelectWake (busy : Option (SelSlot × Slot)) (s : State) : Prop where
  entry : ∀ k p, busy.map Prod.fst ≠ some k → (s.selecttab k).requestor = some p →
    (s.fproc p).blockedOn = .select ∧ busy.map Prod.snd ≠ some p
  unique : ∀ k j p, busy.map Prod.fst ≠ some k → busy.map Prod.fst ≠ some j →
    (s.selecttab k).requestor = some p → (s.selecttab j).requestor = some p → k = j
  asked : ∀ p, busy.map Prod.snd ≠ some p → (s.fproc p).blockedOn = .select →
    ∃ k, busy.map Prod.fst ≠ some k ∧ (s.selecttab k).requestor = some p
  sleeps : ∀ k p, busy.map Prod.fst ≠ some k → (s.selecttab k).requestor = some p →
    Sleeps s p (s.selecttab k)
  wr : ∀ f, (s.filp f).pipeSelectOps.wr = false
  rd : ∀ f, (s.filp f).pipeSelectOps.rd = true → 1 ≤ (s.filp f).count →
    (s.vnode (s.filp f).vno).size = 0 ∧ FindFilp s (s.filp f).vno .writing
  selectors : ∀ f, ∑ k, names (s.selecttab k) f ≤ (s.filp f).selectors

variable {busy : Option (SelSlot × Slot)} {e : SelectEntry}

theorem names_nonneg (e : SelectEntry) (f : FilpPtr) : 0 ≤ names e f := by
  unfold names
  split
  · exact le_refl _
  · omega

theorem names_pos {d : SelFd} (hreq : e.requestor = some p) (hd : d ∈ e.fds)
    (hf : d.filp = some f) : 0 < names e f := by
  unfold names
  rw [if_neg (by rw [hreq]; simp)]
  have hmem : some f ∈ e.fds.map (·.filp) := List.mem_map.mpr ⟨d, hd, hf⟩
  have := count_pos_iff.mpr hmem
  omega

theorem count_filterMap (l : List SelFd) :
    (l.filterMap (·.filp)).count f = (l.map (·.filp)).count (some f) := by
  induction l with
  | nil => rfl
  | cons d l ih =>
    cases hd : d.filp with
    | none => simp [hd, ih]
    | some g =>
      by_cases hg : g = f
      · subst hg
        simp [hd, ih]
      · simp [hd, ih, hg]

theorem cancel_fold (R : FilpPtr → Int) {l : List FilpPtr}
    (h : ∀ f, R f + l.count f ≤ (s.filp f).selectors) :
    ∃ filp, l.foldl selectCancelFilp s = { s with filp := filp } ∧
      ∀ f, SameFilp (s.filp f) (filp f) ∧ R f ≤ (filp f).selectors ∧
        ((filp f).pipeSelectOps = (s.filp f).pipeSelectOps ∨
          R f ≤ 0 ∧ (filp f).pipeSelectOps = Ops.none) := by
  induction l generalizing s with
  | nil => exact ⟨s.filp, rfl, fun f => ⟨.refl _, by simpa using h f, .inl rfl⟩⟩
  | cons g l ih =>
    rw [foldl_cons]
    -- what happens to the first filp
    have hone : ∃ x, selectCancelFilp s g = s.setFilp g x ∧ SameFilp (s.filp g) x ∧
        R g + l.count g ≤ x.selectors ∧
        (x.pipeSelectOps = (s.filp g).pipeSelectOps ∨ R g ≤ 0 ∧ x.pipeSelectOps = Ops.none) := by
      have hg := h g
      rw [count_cons_self] at hg
      push_cast at hg
      unfold selectCancelFilp
      simp only
      split_ifs with hnone hlast
      · refine ⟨s.filp g, ?_, .refl _, by omega, .inl rfl⟩
        unfold State.setFilp
        rw [update_eq_self]
      · exact ⟨_, rfl, ⟨rfl, rfl, rfl, rfl, rfl⟩, by show _ ≤ (0 : Int); omega,
          .inr ⟨by omega, rfl⟩⟩
      · exact ⟨_, rfl, ⟨rfl, rfl, rfl, rfl, rfl⟩, by
          show _ ≤ (s.filp g).selectors - 1
          omega, .inl rfl⟩
    obtain ⟨x, heq, hsame, hsel, hops⟩ := hone
    rw [heq]
    have hnext : ∀ f, R f + l.count f ≤ ((s.setFilp g x).filp f).selectors := by
      intro f
      by_cases hf : f = g
      · subst hf
        rw [show (s.setFilp f x).filp f = x from update_self _ _ _]
        exact hsel
      · rw [show (s.setFilp g x).filp f = s.filp f from update_of_ne hf _ _]
        have := h f
        rw [count_cons_of_ne (Ne.symm hf)] at this
        exact this
    obtain ⟨filp, hfold, hall⟩ := ih hnext
    refine ⟨filp, by rw [hfold]; rfl, fun f => ?_⟩
    obtain ⟨hs, hR, ho⟩ := hall f
    by_cases hf : f = g
    · subst hf
      rw [show (s.setFilp f x).filp f = x from update_self _ _ _] at hs ho
      refine ⟨hsame.trans hs, hR, ?_⟩
      obtain ho | ho := ho
      · rw [ho]
        exact hops
      · exact .inr ho
    · rw [show (s.setFilp g x).filp f = s.filp f from update_of_ne hf _ _] at hs ho
      exact ⟨hs, hR, ho⟩

theorem SelectWake.workOn (h : SelectWake none s)
    (hk : ∀ q, (s.selecttab k).requestor = some q → q = p)
    (hp : (s.fproc p).blockedOn = .select → (s.selecttab k).requestor = some p) :
    SelectWake (some (k, p)) s := by
  refine ⟨fun j q hj hq => ?_, fun j j' q _ _ => h.unique j j' q (by simp) (by simp),
    fun q hq hb => ?_, fun j q _ => h.sleeps j q (by simp), h.wr, h.rd, h.selectors⟩
  · have hb := (h.entry j q (by simp) hq).1
    refine ⟨hb, fun heq => hj ?_⟩
    cases heq
    exact congrArg some (h.unique k j p (by simp) (by simp) (hp hb) hq)
  · obtain ⟨j, -, hj⟩ := h.asked q (by simp) hb
    refine ⟨j, fun heq => hq ?_, hj⟩
    cases heq
    exact congrArg some (hk q hj).symm

theorem SelectWake.setBusy (h : SelectWake (some (k, p)) s)
    (hsel : ∀ f, ∑ j, names (s.selecttab j) f + (names e f - names (s.selecttab k) f) ≤
      (s.filp f).selectors) :
    SelectWake (some (k, p)) (s.setSel k e) := by
  have hother : ∀ j, some k ≠ some j → (s.setSel k e).selecttab j = s.selecttab j :=
    fun j hj => update_of_ne (fun heq => hj (congrArg some heq.symm)) _ _
  refine ⟨fun j q hj hq => ?_, fun j j' q hj hj' hq hq' => ?_, fun q hq hb => ?_,
    fun j q hj hq => ?_, h.wr, h.rd, fun f => ?_⟩
  · rw [hother j hj] at hq
    exact h.entry j q hj hq
  · rw [hother j hj] at hq
    rw [hother j' hj'] at hq'
    exact h.unique j j' q hj hj' hq hq'
  · obtain ⟨j, hj, hjq⟩ := h.asked q hq hb
    exact ⟨j, hj, by rw [hother j hj]; exact hjq⟩
  · rw [hother j hj] at hq ⊢
    obtain ⟨hblock, hready, hrs, hwr, hopen, hrd⟩ := h.sleeps j q hj hq
    exact ⟨hblock, hready, hrs, hwr, hopen, hrd⟩
  rw [sum_change k (a := fun j => names (s.selecttab j) f)
    (b := fun j => names ((s.setSel k e).selecttab j) f)
    fun j hj => by rw [hother j (fun heq => hj (some.inj heq).symm)]]
  have hself : (s.setSel k e).selecttab k = e := update_self _ _ _
  rw [hself]
  exact hsel f

theorem selectCancelAll_wake (h : SelectWake (some (k, p)) s)
    (hreq : (s.selecttab k).requestor = some p) :
    SelectWake (some (k, p)) (selectCancelAll s k) ∧ Answered s (selectCancelAll s k) ∧
      (selectCancelAll s k).fproc = s.fproc ∧
      ((selectCancelAll s k).selecttab k).requestor = none ∧
      (∀ j, j ≠ k → (selectCancelAll s k).selecttab j = s.selecttab j) ∧
      ∀ f, ((selectCancelAll s k).filp f).pipeSelectOps.rd = true →
        (s.filp f).pipeSelectOps.rd = true := by
  let e : SelectEntry := { s.selecttab k with
    requestor := none, fds := (s.selecttab k).fds.map fun d => { d with filp := none } }
  have hsum : ∀ f, ∑ j, names (update s.selecttab k e j) f =
      ∑ j, names (s.selecttab j) f - names (s.selecttab k) f := by
    intro f
    rw [sum_change k (a := fun j => names (s.selecttab j) f)
      (b := fun j => names (update s.selecttab k e j) f)
      fun j hj => by rw [update_of_ne hj], update_self]
    have hzero : names e f = 0 := if_pos rfl
    omega
  obtain ⟨filp, hfold, hall⟩ := cancel_fold (s := s)
    (fun f => ∑ j, names (update s.selecttab k e j) f)
    (l := (s.selecttab k).fds.filterMap (·.filp)) (by
      intro f
      have := h.selectors f
      have hn : names (s.selecttab k) f =
          (((s.selecttab k).fds.map (·.filp)).count (some f) : Nat) :=
        if_neg (by rw [hreq]; simp)
      rw [hsum, count_filterMap]
      omega)
  have heq : selectCancelAll s k =
      { s with filp := filp, selecttab := update s.selecttab k e } := by
    unfold selectCancelAll
    simp only [hfold]
    rfl
  have hother : ∀ j, j ≠ k → update s.selecttab k e j = s.selecttab j :=
    fun j hj => update_of_ne hj _ _
  have hne : ∀ j, some k ≠ some j → j ≠ k := fun j hj heq => hj (congrArg some heq.symm)
  rw [heq]
  refine ⟨⟨fun j q hj hq => ?_, fun j j' q hj hj' hq hq' => ?_, fun q hq hb => ?_,
    fun j q hj hq => ?_, fun f => ?_, fun f hrd hcount => ?_, fun f => (hall f).2.1⟩,
    ⟨rfl, rfl, rfl, fun f => (hall f).1, fun _ => .inl rfl⟩, rfl, ?_, hother, fun f hrd => ?_⟩
  · simp only [hother j (hne j hj)] at hq
    exact h.entry j q hj hq
  · simp only [hother j (hne j hj)] at hq
    simp only [hother j' (hne j' hj')] at hq'
    exact h.unique j j' q hj hj' hq hq'
  · obtain ⟨j, hj, hjq⟩ := h.asked q hq hb
    exact ⟨j, hj, by simp only [hother j (hne j hj)]; exact hjq⟩
  · simp only [hother j (hne j hj)] at hq ⊢
    obtain ⟨hblock, hready, hrs, hwr, hopen, hrd⟩ := h.sleeps j q hj hq
    refine ⟨hblock, hready, hrs, hwr, hopen, fun d hd f hf hwant => ?_⟩
    -- the entry names the filp, so it is still registered
    obtain hsame | ⟨hR, -⟩ := (hall f).2.2
    · show (filp f).pipeSelectOps.rd = true
      rw [hsame]
      exact hrd d hd f hf hwant
    have hpos := names_pos hq hd hf
    have hle : names (update s.selecttab k e j) f ≤ ∑ i, names (update s.selecttab k e i) f :=
      Finset.single_le_sum (f := fun i => names (update s.selecttab k e i) f)
        (fun i _ => names_nonneg _ _) (Finset.mem_univ j)
    rw [hother j (hne j hj)] at hle
    omega
  · obtain hsame | ⟨-, hnone⟩ := (hall f).2.2
    · show (filp f).pipeSelectOps.wr = false
      rw [hsame]
      exact h.wr f
    · show (filp f).pipeSelectOps.wr = false
      rw [hnone]
      rfl
  · have hrd' : (filp f).pipeSelectOps.rd = true := hrd
    have hcount' : 1 ≤ (filp f).count := hcount
    obtain hsame | ⟨-, hnone⟩ := (hall f).2.2
    · rw [hsame] at hrd'
      rw [(hall f).1.count] at hcount'
      obtain ⟨hsize, hfind⟩ := h.rd f hrd' hcount'
      show (s.vnode (filp f).vno).size = 0 ∧ FindFilp _ (filp f).vno .writing
      rw [(hall f).1.vno]
      exact ⟨hsize, hfind.congr fun g => (hall g).1⟩
    · rw [hnone] at hrd'
      cases hrd'
  · show (update s.selecttab k e k).requestor = none
    rw [update_self]
  have hrd' : (filp f).pipeSelectOps.rd = true := hrd
  obtain hsame | ⟨-, hnone⟩ := (hall f).2.2
  · rw [hsame] at hrd'
    exact hrd'
  · rw [hnone] at hrd'
    cases hrd'

theorem SelectWake.congr (h : SelectWake busy s) (hfilp : t.filp = s.filp)
    (htab : t.selecttab = s.selecttab) (hvnode : t.vnode = s.vnode) (hfds : t.fds = s.fds)
    (hproc : ∀ q, busy.map Prod.snd ≠ some q →
      ((t.fproc q).blockedOn = .select ↔ (s.fproc q).blockedOn = .select)) :
    SelectWake busy t := by
  have hsame : ∀ f, SameFilp (s.filp f) (t.filp f) := fun f => by
    rw [hfilp]
    exact .refl _
  refine ⟨fun j q hj hq => ?_, fun j j' q hj hj' hq hq' => ?_, fun q hq hb => ?_,
    fun j q hj hq => ?_, fun f => ?_, fun f hrd hcount => ?_, fun f => ?_⟩
  · rw [htab] at hq
    obtain ⟨hb, hne⟩ := h.entry j q hj hq
    exact ⟨(hproc q hne).mpr hb, hne⟩
  · rw [htab] at hq hq'
    exact h.unique j j' q hj hj' hq hq'
  · rw [htab]
    exact h.asked q hq ((hproc q hq).mp hb)
  · rw [htab] at hq ⊢
    obtain ⟨hblock, hready, hrs, hwr, hopen, hrd⟩ := h.sleeps j q hj hq
    refine ⟨hblock, hready, hrs, hwr, ?_, ?_⟩
    · rw [hfds]
      exact hopen
    · rw [hfilp]
      exact hrd
  · rw [hfilp]
    exact h.wr f
  · rw [hfilp] at hrd hcount ⊢
    rw [hvnode]
    exact ⟨(h.rd f hrd hcount).1, (h.rd f hrd hcount).2.congr hsame⟩
  · rw [hfilp, htab]
    exact h.selectors f

theorem SelectWake.done (h : SelectWake (some (k, p)) s)
    (hreq : (s.selecttab k).requestor = none) (hp : (s.fproc p).blockedOn ≠ .select) :
    SelectWake none s := by
  have hne : ∀ j q, (s.selecttab j).requestor = some q → (some (k, p)).map Prod.fst ≠ some j := by
    intro j q hq heq
    cases heq
    rw [hreq] at hq
    cases hq
  refine ⟨fun j q _ hq => ⟨(h.entry j q (hne j q hq) hq).1, by simp⟩,
    fun j j' q _ _ hq hq' => h.unique j j' q (hne j q hq) (hne j' q hq') hq hq',
    fun q _ hb => ?_, fun j q _ hq => h.sleeps j q (hne j q hq) hq, h.wr, h.rd, h.selectors⟩
  have hqp : (some (k, p)).map Prod.snd ≠ some q := by
    intro heq
    cases heq
    exact hp hb
  obtain ⟨j, -, hj⟩ := h.asked q hqp hb
  exact ⟨j, by simp, hj⟩

theorem selectReturn_wake (hw : PipeWake s) (h : SelectWake none s)
    (hreq : (s.selecttab k).requestor = some p) (hreq' : e.requestor = some p)
    (hnames : ∀ f, names e f ≤ names (s.selecttab k) f) :
    SelectWake none (selectReturn (s.setSel k e) k) ∧ Answered s (selectReturn (s.setSel k e) k) ∧
      ((selectReturn (s.setSel k e) k).selecttab k).requestor = none ∧
      (∀ j, j ≠ k → (selectReturn (s.setSel k e) k).selecttab j = s.selecttab j) ∧
      ∀ f, ((selectReturn (s.setSel k e) k).filp f).pipeSelectOps.rd = true →
        (s.filp f).pipeSelectOps.rd = true := by
  have hself : (s.setSel k e).selecttab k = e := update_self _ _ _
  have hwork : SelectWake (some (k, p)) s := h.workOn (fun q hq => by
    rw [hreq] at hq
    exact (some.inj hq).symm) fun _ => hreq
  have hbusy : SelectWake (some (k, p)) (s.setSel k e) := by
    apply hwork.setBusy
    intro f
    have := h.selectors f
    have := hnames f
    omega
  obtain ⟨hcancel, hans, hproc, hnone, hother, hrd⟩ :=
    selectCancelAll_wake hbusy (by rw [hself]; exact hreq')
  have hb : (s.fproc p).blockedOn = .select := (h.entry k p (by simp) hreq).1
  have hused := hw.used p (by rw [hb]; decide)
  have hrev := hw.revived p (by rw [hb]; decide)
  generalize ht : selectCancelAll (s.setSel k e) k = t1 at hcancel hans hproc hnone hother hrd
  have hp : t1.fproc p = s.fproc p := by
    rw [hproc]
    rfl
  have heq : selectReturn (s.setSel k e) k =
      reply (t1.setProc p { s.fproc p with blockedOn := .none, file := .fd 0 none }) p
        (.val e.nreadyfds) := by
    unfold selectReturn
    rw [hself]
    simp only [hreq', ht]
    unfold revive
    simp [hp, hb, hused, hrev]
  rw [heq]
  have hupd : ∀ q, q ≠ p → (reply (t1.setProc p { s.fproc p with
      blockedOn := .none, file := .fd 0 none }) p (.val e.nreadyfds)).fproc q = t1.fproc q :=
    fun q hq => update_of_ne hq _ _
  have hset : (reply (t1.setProc p { s.fproc p with
      blockedOn := .none, file := .fd 0 none }) p (.val e.nreadyfds)).fproc p =
      { s.fproc p with blockedOn := .none, file := .fd 0 none } := update_self _ _ _
  have hbusy : SelectWake (some (k, p)) (reply (t1.setProc p { s.fproc p with
      blockedOn := .none, file := .fd 0 none }) p (.val e.nreadyfds)) := by
    refine hcancel.congr rfl rfl rfl rfl fun q hq => ?_
    rw [hupd q fun heq => hq (congrArg some heq.symm)]
  refine ⟨hbusy.done hnone (by rw [hset]; simp), ⟨hans.vnode, hans.fds, hans.suspCount,
    hans.filp, fun q => ?_⟩, hnone, fun j hj => ?_, hrd⟩
  · by_cases hq : q = p
    · subst hq
      exact .inr ⟨hb, hset⟩
    · rw [hupd q hq, hproc]
      exact .inl rfl
  · exact (hother j hj).trans (update_of_ne hj _ _)

/-! ## Answering selects -/

theorem revive_selecttab : (revive s p r).selecttab = s.selecttab := by
  unfold revive
  simp only
  split
  · rfl
  · split <;> rfl

theorem selectReturn_filps {d : SelFd} (hreq : (s.selecttab k).requestor = some p)
    (hd : d ∈ ((selectReturn s k).selecttab k).fds) : d.filp = none := by
  unfold selectReturn at hd
  simp only [hreq, revive_selecttab] at hd
  unfold selectCancelAll at hd
  rw [show ∀ (s : State) (e : SelectEntry), (s.setSel k e).selecttab k = e from
    fun _ _ => update_self _ _ _] at hd
  obtain ⟨d', -, rfl⟩ := List.mem_map.mp hd
  rfl

/-- The operation that a reader waits for. -/
abbrev rdOps : Ops := CallNr.selop .read

theorem ops2tab_filps {ops : Ops} : (ops2tab ops n e).fds.map (·.filp) = e.fds.map (·.filp) := by
  unfold ops2tab
  split
  next => rfl
  rename_i d hd
  simp only [map_set]
  apply ext_getElem?
  intro m
  rw [List.getElem?_set]
  split
  next h =>
    subst h
    rw [List.getElem?_map, hd]
    obtain ⟨hlt, -⟩ := List.getElem?_eq_some_iff.mp hd
    simp [hlt]
  next => rfl

theorem ops2tab_requestor {ops : Ops} : (ops2tab ops n e).requestor = e.requestor := by
  unfold ops2tab
  split <;> rfl

theorem names_ops2tab {ops : Ops} : names (ops2tab ops n e) f = names e f := by
  unfold names
  rw [ops2tab_filps, ops2tab_requestor]

theorem ops2tab_idle {d : SelFd} (hd : e.fds[n]? = some d) (hready : d.ready = Ops.none)
    (hwant : d.want.rd = false) : ops2tab rdOps n e = e := by
  have hnew : (rdOps.inter d.want).diff d.ready = Ops.none := by
    simp [rdOps, CallNr.selop, Ops.inter, Ops.diff, Ops.none, hwant]
  have hd' : ({ d with ready := d.ready.union Ops.none } : SelFd) = d := by
    cases d
    subst hready
    rfl
  have hset : e.fds.set n d = e.fds := by
    obtain ⟨hlt, heq⟩ := List.getElem?_eq_some_iff.mp hd
    rw [← heq]
    exact set_getElem_self hlt
  unfold ops2tab
  rw [hd]
  simp only [hnew, hd', hset]
  rfl

theorem ops2tab_ready {d : SelFd} (hd : e.fds[n]? = some d) (hready : d.ready = Ops.none)
    (hwant : d.want.rd = true) : 0 < (ops2tab rdOps n e).nreadyfds := by
  have hnew : ((rdOps.inter d.want).diff d.ready).card = 1 := by
    simp [rdOps, CallNr.selop, Ops.inter, Ops.diff, Ops.none, Ops.card, hwant, hready]
  unfold ops2tab
  rw [hd]
  simp only [hnew]
  omega

theorem setSel_self : s.setSel k (s.selecttab k) = s := by
  unfold State.setSel
  rw [update_eq_self]

/-- What answering the selects that wait to read from a filp leads to. -/
structure Told (s t : State) : Prop where
  pipe : PipeWake t
  select : SelectWake none t
  answered : Answered s t
  entry : ∀ j, t.selecttab j = s.selecttab j ∨ (t.selecttab j).requestor = none
  rd : ∀ f, (t.filp f).pipeSelectOps.rd = true → (s.filp f).pipeSelectOps.rd = true

theorem Told.refl (hw : PipeWake s) (h : SelectWake none s) : Told s s :=
  ⟨hw, h, .refl s, fun _ => .inl rfl, fun _ h => h⟩

theorem Told.trans (h : Told s s₁) (h' : Told s₁ s₂) : Told s s₂ where
  pipe := h'.pipe
  select := h'.select
  answered := h.answered.trans h'.answered
  entry j := by
    obtain heq | hnone := h'.entry j
    · rw [heq]
      exact h.entry j
    · exact .inr hnone
  rd f hf := h.rd f (h'.rd f hf)

theorem foldl_told {ι : Type*} (body : State → ι → State) (Q : ι → State → Prop)
    (hbody : ∀ s i, PipeWake s → SelectWake none s → Told s (body s i) ∧ Q i (body s i))
    (hQ : ∀ s t i, Told s t → Q i s → Q i t) (hw : PipeWake s) (h : SelectWake none s)
    (l : List ι) : Told s (l.foldl body s) ∧ ∀ i ∈ l, Q i (l.foldl body s) := by
  induction l generalizing s with
  | nil => exact ⟨.refl hw h, fun i hi => absurd hi not_mem_nil⟩
  | cons i l ih =>
    obtain ⟨htold, hi⟩ := hbody s i hw h
    obtain ⟨hrest, hall⟩ := ih htold.pipe htold.select
    refine ⟨htold.trans hrest, fun j hj => ?_⟩
    obtain rfl | hj := mem_cons.mp hj
    · exact hQ _ _ _ hrest hi
    · exact hall j hj

/-- No live select of entry `k` waits to read from the filp. -/
def NoReader (s : State) (f : FilpPtr) (k : SelSlot) : Prop :=
  ∀ p, (s.selecttab k).requestor = some p → ∀ d ∈ (s.selecttab k).fds, d.filp = some f →
    d.want.rd = false

theorem Told.noReader (h : Told s t) (hn : NoReader s f k) : NoReader t f k := by
  intro p hp d hd hf
  obtain heq | hnone := h.entry k
  · rw [heq] at hp hd
    exact hn p hp d hd hf
  · rw [hnone] at hp
    cases hp

/-- The body of the loop of `filp_status` over the descriptors of an entry. -/
def statusFd (f : FilpPtr) (ops : Ops) (k : SelSlot) (s : State) (n : Nat) : State :=
  if ((s.selecttab k).fds[n]?.bind (·.filp)) = some f then
    restartProc (s.setSel k (ops2tab ops n (s.selecttab k))) k
  else s

theorem statusFd_told (hw : PipeWake s) (h : SelectWake none s)
    (hreq : (s.selecttab k).requestor = some p) :
    (statusFd f rdOps k s n = s ∧
      ∀ d, (s.selecttab k).fds[n]? = some d → d.filp = some f → d.want.rd = false) ∨
    Told s (statusFd f rdOps k s n) ∧ ((statusFd f rdOps k s n).selecttab k).requestor = none ∧
      ∀ d ∈ ((statusFd f rdOps k s n).selecttab k).fds, d.filp = none := by
  have hsleeps := h.sleeps k p (by simp) hreq
  unfold statusFd
  split
  next hmatch =>
    obtain ⟨d, hd, hf⟩ := bind_eq_some_iff.mp hmatch
    have hmem : d ∈ (s.selecttab k).fds := mem_of_getElem? hd
    by_cases hwant : d.want.rd = true
    · have hself : (s.setSel k (ops2tab rdOps n (s.selecttab k))).selecttab k =
          ops2tab rdOps n (s.selecttab k) := update_self _ _ _
      have hpos := ops2tab_ready hd (hsleeps.ready d hmem) hwant
      have hrestart : restartProc (s.setSel k (ops2tab rdOps n (s.selecttab k))) k =
          selectReturn (s.setSel k (ops2tab rdOps n (s.selecttab k))) k := by
        unfold restartProc
        rw [hself]
        exact if_pos (.inl hpos)
      have hreq' : (ops2tab rdOps n (s.selecttab k)).requestor = some p := by
        rw [ops2tab_requestor]
        exact hreq
      obtain ⟨hsel, hans, hnone, hother, hrd⟩ :=
        selectReturn_wake hw h hreq hreq' fun f => (names_ops2tab (f := f)).le
      rw [hrestart]
      refine .inr ⟨⟨hans.pipeWake hw, hsel, hans, fun j => ?_, hrd⟩, hnone, fun d' hd' => ?_⟩
      · by_cases hj : j = k
        · subst hj
          exact .inr hnone
        · exact .inl (hother j hj)
      · exact selectReturn_filps (by rw [hself]; exact hreq') hd'
    have hidle : d.want.rd = false := Bool.eq_false_iff.mpr hwant
    rw [ops2tab_idle hd (hsleeps.ready d hmem) hidle, setSel_self]
    refine .inl ⟨?_, fun d' hd' _ => ?_⟩
    · -- nothing is ready, and the select blocks
      unfold restartProc
      rw [if_neg (by rw [hsleeps.nreadyfds, hsleeps.block]; simp)]
    · rw [hd] at hd'
      cases hd'
      exact hidle
  next hmatch =>
    refine .inl ⟨rfl, fun d hd hf => ?_⟩
    rw [hd] at hmatch
    exact absurd hf hmatch

theorem statusFd_fold (hw : PipeWake s) (h : SelectWake none s)
    (hreq : (s.selecttab k).requestor = some p) (l : List Nat) :
    (l.foldl (statusFd f rdOps k) s = s ∧ ∀ n ∈ l, ∀ d, (s.selecttab k).fds[n]? = some d →
      d.filp = some f → d.want.rd = false) ∨
    Told s (l.foldl (statusFd f rdOps k) s) ∧
      ((l.foldl (statusFd f rdOps k) s).selecttab k).requestor = none := by
  induction l with
  | nil => exact .inl ⟨rfl, fun n hn => absurd hn not_mem_nil⟩
  | cons n l ih =>
    rw [foldl_cons]
    obtain ⟨hsame, hidle⟩ | ⟨htold, hnone, hfilps⟩ := statusFd_told (n := n) (f := f) hw h hreq
    · rw [hsame]
      obtain ⟨hsame', hidle'⟩ | hend := ih
      · refine .inl ⟨hsame', fun m hm => ?_⟩
        obtain rfl | hm := mem_cons.mp hm
        · exact hidle
        · exact hidle' m hm
      · exact .inr hend
    -- the entry names no filp any more
    have hfixed : ∀ m, statusFd f rdOps k (statusFd f rdOps k s n) m = statusFd f rdOps k s n := by
      intro m
      conv_lhs => unfold statusFd
      apply if_neg
      intro hmatch
      obtain ⟨d, hd, hf⟩ := bind_eq_some_iff.mp hmatch
      rw [hfilps d (mem_of_getElem? hd)] at hf
      cases hf
    rw [foldl_fixed' hfixed]
    exact .inr ⟨htold, hnone⟩

theorem statusFds_told (hw : PipeWake s) (h : SelectWake none s)
    (hreq : (s.selecttab k).requestor = some p) :
    Told s (statusFds f rdOps k s) ∧ NoReader (statusFds f rdOps k s) f k := by
  have heq : statusFds f rdOps k s =
      (List.range (s.selecttab k).fds.length).foldl (statusFd f rdOps k) s := rfl
  rw [heq]
  obtain ⟨hsame, hidle⟩ | ⟨htold, hnone⟩ :=
    statusFd_fold (f := f) hw h hreq (List.range (s.selecttab k).fds.length)
  · rw [hsame]
    refine ⟨.refl hw h, fun q _ d hd hf => ?_⟩
    obtain ⟨n, hn, hd⟩ := mem_iff_getElem.mp hd
    exact hidle n (mem_range.mpr hn) d (by rw [List.getElem?_eq_getElem hn, hd]) hf
  · refine ⟨htold, fun q hq => ?_⟩
    rw [hnone] at hq
    cases hq

theorem filpStatus_told (hw : PipeWake s) (h : SelectWake none s) :
    Told s (filpStatus s f rdOps) ∧ ∀ k, NoReader (filpStatus s f rdOps) f k := by
  obtain ⟨htold, hall⟩ := foldl_told
    (fun s k => if (s.selecttab k).requestor = none then s else statusFds f rdOps k s)
    (fun k s => NoReader s f k)
    (fun s k hw h => by
      split
      next hnone =>
        refine ⟨.refl hw h, fun p hp => ?_⟩
        rw [hnone] at hp
        cases hp
      next hsome =>
        obtain ⟨p, hp⟩ := ne_none_iff_exists'.mp hsome
        exact statusFds_told hw h hp)
    (fun s t k htold hn => htold.noReader hn) hw h (List.finRange maxSelects)
  exact ⟨htold, fun k => hall k (mem_finRange k)⟩

theorem clear_told (hw : PipeWake s) (h : SelectWake none s) (hn : ∀ k, NoReader s f k) :
    Told s (s.setFilp f
      { s.filp f with pipeSelectOps := (s.filp f).pipeSelectOps.diff rdOps }) := by
  generalize ht : s.setFilp f
    { s.filp f with pipeSelectOps := (s.filp f).pipeSelectOps.diff rdOps } = t
  have hself : t.filp f =
      { s.filp f with pipeSelectOps := (s.filp f).pipeSelectOps.diff rdOps } := by
    rw [← ht]
    exact update_self _ _ _
  have hother : ∀ g, g ≠ f → t.filp g = s.filp g := by
    intro g hg
    rw [← ht]
    exact update_of_ne hg _ _
  have hsame : ∀ g, SameFilp (s.filp g) (t.filp g) := by
    intro g
    by_cases hg : g = f
    · subst hg
      rw [hself]
      exact ⟨rfl, rfl, rfl, rfl, rfl⟩
    · rw [hother g hg]
      exact .refl _
  have hrd : ∀ g, (t.filp g).pipeSelectOps.rd = true → (s.filp g).pipeSelectOps.rd = true := by
    intro g hg
    by_cases hgf : g = f
    · subst hgf
      rw [hself] at hg
      exact (Bool.and_eq_true_iff.mp hg).1
    · rw [hother g hgf] at hg
      exact hg
  have hans : Answered s t := by
    rw [← ht] at hsame ⊢
    exact ⟨rfl, rfl, rfl, hsame, fun _ => .inl rfl⟩
  have htab : t.selecttab = s.selecttab := by
    rw [← ht]
    rfl
  have hproc : t.fproc = s.fproc := by
    rw [← ht]
    rfl
  refine ⟨hans.pipeWake hw, ⟨fun j q hj hq => ?_, fun j j' q hj hj' hq hq' => ?_,
    fun q hq hb => ?_, fun j q hj hq => ?_, fun g => ?_, fun g hg hcount => ?_, fun g => ?_⟩,
    hans, fun j => .inl (congrFun htab j), hrd⟩
  · rw [htab] at hq
    rw [hproc]
    exact h.entry j q hj hq
  · rw [htab] at hq hq'
    exact h.unique j j' q hj hj' hq hq'
  · rw [hproc] at hb
    rw [htab]
    exact h.asked q hq hb
  · rw [htab] at hq ⊢
    obtain ⟨hblock, hready, hrs, hwr, hopen, hreg⟩ := h.sleeps j q hj hq
    refine ⟨hblock, hready, hrs, hwr, ?_, fun d hd g hg hwant => ?_⟩
    · rw [hans.fds]
      exact hopen
    by_cases hgf : g = f
    · subst hgf
      rw [hn j q hq d hd hg] at hwant
      cases hwant
    · rw [hother g hgf]
      exact hreg d hd g hg hwant
  · by_cases hgf : g = f
    · subst hgf
      rw [hself]
      show ((s.filp g).pipeSelectOps.wr && !false) = false
      rw [h.wr g]
      rfl
    · rw [hother g hgf]
      exact h.wr g
  · rw [(hsame g).count] at hcount
    obtain ⟨hsize, hfind⟩ := h.rd g (hrd g hg) hcount
    rw [(hsame g).vno, hans.vnode]
    exact ⟨hsize, hfind.congr hsame⟩
  rw [htab]
  by_cases hgf : g = f
  · subst hgf
    rw [hself]
    exact h.selectors g
  · rw [hother g hgf]
    exact h.selectors g

/-- Nobody's select waits to read from the filp, if it is an end of the vnode. -/
def Unread (s : State) (v : VnodePtr) (f : FilpPtr) : Prop :=
  1 ≤ (s.filp f).count → (s.filp f).vno = v → (s.filp f).pipeSelectOps.rd = false

theorem Told.unread (h : Told s t) (hf : Unread s v f) : Unread t v f := by
  intro hcount hvno
  rw [(h.answered.filp f).count] at hcount
  rw [(h.answered.filp f).vno] at hvno
  have := hf hcount hvno
  by_contra hrd
  rw [Bool.not_eq_false] at hrd
  rw [h.rd f hrd] at this
  cases this

theorem rdOps_inter {a : Ops} : a.inter rdOps = Ops.none ↔ a.rd = false := by
  obtain ⟨rd, wr, err⟩ := a
  cases rd <;> simp [Ops.inter, rdOps, CallNr.selop, Ops.none]

theorem setFilp_self {a : Filp} : (s.setFilp f a).filp f = a := update_self _ _ _

/-- The body of the loop of `release` over the filps, for readers. -/
def releaseFilp (v : VnodePtr) (s : State) (f : FilpPtr) : State :=
  if (s.filp f).count < 1 ∨ (s.filp f).pipeSelectOps.inter rdOps = Ops.none ∨
    (s.filp f).vno ≠ v then s
  else
    let s := filpStatus s f rdOps
    s.setFilp f { s.filp f with pipeSelectOps := (s.filp f).pipeSelectOps.diff rdOps }

theorem releaseFilp_told (hw : PipeWake s) (h : SelectWake none s) :
    Told s (releaseFilp v s f) ∧ Unread (releaseFilp v s f) v f := by
  unfold releaseFilp
  split_ifs with hskip
  · refine ⟨.refl hw h, fun hcount hvno => ?_⟩
    obtain hlt | hnone | hne := hskip
    · omega
    · exact rdOps_inter.mp hnone
    · exact absurd hvno hne
  · obtain ⟨htold, hn⟩ := filpStatus_told (f := f) hw h
    refine ⟨htold.trans (clear_told htold.pipe htold.select hn), fun _ _ => ?_⟩
    rw [setFilp_self]
    simp [Ops.diff, rdOps, CallNr.selop]

theorem releaseSelects_told (hw : PipeWake s) (h : SelectWake none s) :
    Told s (releaseSelects s v .read) ∧ ∀ f, Unread (releaseSelects s v .read) v f := by
  have heq : releaseSelects s v .read = (List.finRange nrFilps).foldl (releaseFilp v) s := rfl
  rw [heq]
  obtain ⟨htold, hall⟩ := foldl_told (releaseFilp v) (fun f s => Unread s v f)
    (fun s f hw h => releaseFilp_told hw h) (fun s t f htold hn => htold.unread hn) hw h
    (List.finRange nrFilps)
  exact ⟨htold, fun f => hall f (mem_finRange f)⟩

theorem releaseSelects_write (h : SelectWake busy s) : releaseSelects s v .write = s := by
  apply foldl_fixed'
  intro f
  apply if_pos
  refine .inr (.inl ?_)
  simp [Ops.inter, CallNr.selop, Ops.none, h.wr f]

/-! ## Releasing -/

/-- Everyone who hung on the vnode in the call `op` is awake. -/
structure Freed (busy : Option (SelSlot × Slot)) (v : VnodePtr) (op : CallNr) (s t : State) :
    Prop where
  pipe : PipeWake t
  select : SelectWake busy t
  eased : Eased s t
  idle : ∀ p, (s.fproc p).blockedOn = .none → t.fproc p = s.fproc p
  none : ∀ q, NoneOn t v op q
  unread : op = .read → ∀ f, Unread t v f

theorem release_read (hw : PipeWake s) (h : SelectWake none s)
    (hrun : release s v .read s.suspCount = some t) : Freed none v .read s t := by
  have heased := release_eased hrun
  unfold release at hrun
  rw [if_pos (.inl rfl)] at hrun
  obtain ⟨htold, hunread⟩ := releaseSelects_told (v := v) hw h
  obtain ⟨hpipe, hrev, hnone⟩ := releaseProcs_wake htold.pipe htold.answered.suspCount.le hrun
  refine ⟨hpipe, htold.select.congr hrev.filp hrev.selecttab hrev.vnode hrev.fds fun q _ => ?_,
    heased, fun p hp => ?_, fun q => hnone q (mem_finRange q), fun _ f => ?_⟩
  · rw [hrev.blockedOn q]
  · have hans : (releaseSelects s v .read).fproc p = s.fproc p := by
      obtain heq | ⟨hb, -⟩ := htold.answered.fproc p
      · exact heq
      · rw [hp] at hb
        cases hb
    obtain heq | ⟨hb, -⟩ := hrev.fproc p
    · exact heq.trans hans
    · rw [hans] at hb
      rw [hb.1] at hp
      cases hp
  · unfold Unread
    rw [hrev.filp]
    exact hunread f

theorem release_write (hw : PipeWake s) (h : SelectWake busy s)
    (hrun : release s v .write s.suspCount = some t) :
    Freed busy v .write s t ∧ t.filp = s.filp ∧ t.selecttab = s.selecttab := by
  have heased := release_eased hrun
  unfold release at hrun
  rw [if_pos (.inr rfl), releaseSelects_write h] at hrun
  obtain ⟨hpipe, hrev, hnone⟩ := releaseProcs_wake hw (le_refl _) hrun
  refine ⟨⟨hpipe, h.congr hrev.filp hrev.selecttab hrev.vnode hrev.fds fun q _ => ?_,
    heased, fun p hp => ?_, fun q => hnone q (mem_finRange q), fun heq => ?_⟩, hrev.filp,
    hrev.selecttab⟩
  · rw [hrev.blockedOn q]
  · obtain heq | ⟨hb, -⟩ := hrev.fproc p
    · exact heq
    · rw [hb.1] at hp
      cases hp
  · cases heq

end HardenedMinix.Pipe
