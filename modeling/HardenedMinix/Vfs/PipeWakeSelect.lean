import HardenedMinix.Vfs.PipeWakeCalls

/-!
# Wake-ups of selects

A select that sleeps is registered with every filp it asks about, if the filps are only said to be
selected for what somebody waits for.
-/

open Function List Option

namespace HardenedMinix.Pipe

open Lib

variable {s s' s₁ s₂ t : State} {p q : Slot} {f g : FilpPtr} {v w : VnodePtr} {x y : Fproc}
  {rw : Rw} {buf : List Byte} {n : Nat} {r : Result} {op : CallNr} {count : Int} {k j : SelSlot}
  {busy : Option (SelSlot × Slot)} {e : SelectEntry}
  {run : Option Slot} {a : Fifo}

/-! ## Selecting -/

theorem setFilp_wake {b : Filp} (hw : PipeWake s) (h : SelectWake busy s)
    (hsame : SameFilp (s.filp f) b) (hsel : (s.filp f).selectors ≤ b.selectors)
    (hkeep : (s.filp f).pipeSelectOps.rd = true → b.pipeSelectOps.rd = true)
    (hwr : b.pipeSelectOps.wr = false)
    (hrd : b.pipeSelectOps.rd = true → 1 ≤ b.count →
      (s.vnode (s.filp f).vno).size = 0 ∧ FindFilp s (s.filp f).vno .writing) :
    PipeWake (s.setFilp f b) ∧ SelectWake busy (s.setFilp f b) := by
  have hsames : ∀ g, SameFilp (s.filp g) ((s.setFilp f b).filp g) := setFilp_same hsame
  have hans : Answered s (s.setFilp f b) := ⟨rfl, rfl, rfl, hsames, fun _ => .inl rfl⟩
  have hother : ∀ g, g ≠ f → (s.setFilp f b).filp g = s.filp g := fun g hg => update_of_ne hg _ _
  refine ⟨hans.pipeWake hw, h.entry, h.unique, h.asked, fun j q hj hq => ?_, fun g => ?_,
    fun g hg hcount => ?_, fun g => ?_⟩
  · obtain ⟨hblock, hready, hrs, hwr, hopen, hreg⟩ := h.sleeps j q hj hq
    refine ⟨hblock, hready, hrs, hwr, hopen, fun d hd g hg hwant => ?_⟩
    have hold := hreg d hd g hg hwant
    by_cases hgf : g = f
    · subst hgf
      rw [setFilp_self]
      exact hkeep hold
    · rw [hother g hgf]
      exact hold
  · by_cases hgf : g = f
    · subst hgf
      rw [setFilp_self]
      exact hwr
    · rw [hother g hgf]
      exact h.wr g
  · have hjust : (s.vnode (s.filp g).vno).size = 0 ∧ FindFilp s (s.filp g).vno .writing := by
      by_cases hgf : g = f
      · subst hgf
        rw [setFilp_self] at hg hcount
        exact hrd hg hcount
      · rw [hother g hgf] at hg hcount
        exact h.rd g hg hcount
    rw [(hsames g).vno]
    exact ⟨hjust.1, hjust.2.congr hsames⟩
  by_cases hgf : g = f
  · subst hgf
    rw [setFilp_self]
    exact (h.selectors g).trans hsel
  · rw [hother g hgf]
    exact h.selectors g

theorem pipeCheck_poll {c : Check} (h : pipeCheck s p v .writing false 1 true = some (t, c)) :
    t = s ∧ c ≠ .suspend ∧ ((∃ e, c = .err e) → ¬ FindFilp s v .reading) := by
  have hfits : ¬ int32 (0 + 1) > pipeBuf := by decide
  unfold pipeCheck at h
  simp only [if_true, hfits, if_false] at h
  split_ifs at h with hr hno
  · exact absurd hno.2 (by simp)
  · cases h
    refine ⟨rfl, by simp, fun herr => ?_⟩
    obtain ⟨e, he⟩ := herr
    cases he
  · cases h
    exact ⟨rfl, by simp, fun _ => hr⟩

/-- What a request of a select for a pipe leads to. -/
structure Requested (busy : Option (SelSlot × Slot)) (f : FilpPtr) (ops got : Ops) (block : Bool)
    (s t : State) : Prop where
  pipe : PipeWake t
  select : SelectWake busy t
  selecttab : t.selecttab = s.selecttab
  idle : ∀ q, (s.fproc q).blockedOn = .none → t.fproc q = s.fproc q
  selectOps : ∀ g, (t.filp g).selectOps = (s.filp g).selectOps
  keep : ∀ g, (s.filp g).pipeSelectOps.rd = true → (t.filp g).pipeSelectOps.rd = true
  wr : ops.wr = true → got.wr = true
  rd : block = true → ops.wr = false → ops.rd = true → got.rd = false → (s.filp f).count ≠ 0 →
    (t.filp f).pipeSelectOps.rd = true

theorem selectRequestPipe_wake {ops got : Ops} {block : Bool} (hw : PipeWake s)
    (h : SelectWake busy s) (hrun : selectRequestPipe s p f ops block = some (t, got)) :
    Requested busy f ops got block s t := by
  unfold selectRequestPipe at hrun
  obtain ⟨⟨s₁, c1⟩, h1, hrun⟩ := bind_eq_some_iff.mp hrun
  obtain ⟨⟨s₂, c2⟩, h2, hrun⟩ := map_eq_some_iff.mp hrun
  have hlook : Looked busy s s₁ ∧ ((ops.rd || ops.err) = true → c1 = .suspend →
      (s.vnode (s.filp f).vno).size = 0 ∧ FindFilp s (s.filp f).vno .writing) := by
    split_ifs at h1 with hreading
    · obtain ⟨hl, hsusp, -⟩ := pipeCheck_look hw h h1
      exact ⟨hl, fun _ => hsusp⟩
    · cases h1
      exact ⟨.refl hw h, fun hr => absurd hr hreading⟩
  obtain ⟨hl, hempty⟩ := hlook
  have hpoll : s₂ = s₁ ∧ ((ops.wr || ops.err) = true → c2 ≠ .suspend ∧
      ((∃ e, c2 = .err e) → ¬ FindFilp s₁ (s.filp f).vno .reading)) := by
    split_ifs at h2 with hwriting
    · obtain ⟨heq, hne, herr⟩ := pipeCheck_poll h2
      exact ⟨heq, fun _ => ⟨hne, herr⟩⟩
    · cases h2
      exact ⟨rfl, fun hwr => absurd hwr hwriting⟩
  obtain ⟨rfl, hroom⟩ := hpoll
  simp only at hrun
  generalize hgot : Ops.inter _ _ = got' at hrun
  have hwr : ops.wr = true → got'.wr = true := by
    intro hw
    obtain ⟨hne, -⟩ := hroom (by simp [hw])
    rw [← hgot]
    cases c2 with
    | suspend => exact absurd rfl hne
    | err e => simp [Ops.inter, hw]
    | bytes m => simp [Ops.inter, hw]
  -- a reader is told to wait only at the read end of an empty pipe that has a writer
  have hrd : ops.rd = true → got'.rd = false → c1 = .suspend ∧ (s.filp f).rBit = true := by
    intro hr hno
    rw [← hgot] at hno
    cases c1 with
    | suspend => exact ⟨rfl, by simpa [Ops.inter, hr] using hno⟩
    | err e => simp [Ops.inter, hr] at hno
    | bytes m => simp [Ops.inter, hr] at hno
  have hnone : ops.wr = false → ops.rd = true → got'.rd = false → (s.filp f).count ≠ 0 →
      got' = Ops.none := by
    intro hw hr hno hcount
    obtain ⟨rfl, hbit⟩ := hrd hr hno
    have hfind : FindFilp s₂ (s.filp f).vno .reading :=
      FindFilp.congr hl.eased.filp ⟨f, hcount, rfl, hbit⟩
    rw [← hgot]
    cases c2 with
    | suspend => simp [Ops.inter, Ops.none, hw, hbit]
    | err e =>
      have herr : ops.err = false := by
        by_contra hne
        exact (hroom (by simp [hne])).2 ⟨e, rfl⟩ hfind
      simp [Ops.inter, Ops.none, hw, hbit, herr]
    | bytes m => simp [Ops.inter, Ops.none, hw, hbit]
  split_ifs at hrun with hreg
  · obtain ⟨rfl, rfl⟩ := Prod.mk.inj hrun
    obtain ⟨rfl, -⟩ := hreg
    have hself : ∀ b : Filp, (s₂.setFilp f b).filp f = b := fun b => update_self _ _ _
    have hother : ∀ (b : Filp) g, g ≠ f → (s₂.setFilp f b).filp g = s.filp g := by
      intro b g hg
      rw [← hl.filp]
      exact update_of_ne hg _ _
    have hops : ops.wr = false := by
      by_contra hne
      have := hwr (by simpa using hne)
      cases this
    obtain ⟨hpipe, hselect⟩ := setFilp_wake (b := { s₂.filp f with
      pipeSelectOps := (s₂.filp f).pipeSelectOps.union ops }) hl.pipe hl.select
      ⟨rfl, rfl, rfl, rfl, rfl⟩ (le_refl _)
      (fun hrd' => by simp [Ops.union, hrd'])
      (by simp [Ops.union, hl.select.wr f, hops])
      (fun hnew hcount => by
        obtain hold | hr := Bool.or_eq_true_iff.mp hnew
        · exact hl.select.rd f hold hcount
        · obtain ⟨hs, -⟩ := hrd hr rfl
          obtain ⟨hsize, hfind⟩ := hempty (by simp [hr]) hs
          rw [hl.filp, hl.eased.vnode]
          exact ⟨hsize, hfind.congr hl.eased.filp⟩)
    refine ⟨hpipe, hselect, hl.selecttab, hl.idle, fun g => ?_, fun g hg => ?_, hwr,
      fun _ _ hr _ _ => ?_⟩
    · by_cases hgf : g = f
      · subst hgf
        rw [hself, hl.filp]
      · rw [hother _ g hgf]
    · by_cases hgf : g = f
      · subst hgf
        rw [hself, hl.filp]
        simp [Ops.union, hg]
      · rw [hother _ g hgf]
        exact hg
    · rw [hself]
      simp [Ops.union, hr]
  · obtain ⟨rfl, rfl⟩ := Prod.mk.inj hrun
    refine ⟨hl.pipe, hl.select, hl.selecttab, hl.idle, fun g => by rw [hl.filp], fun g hg => ?_,
      hwr, fun hblock hw hr hno hcount => ?_⟩
    · rw [hl.filp]
      exact hg
    · exact absurd ⟨hnone hw hr hno hcount, hblock⟩ hreg

/-- The operations a filp is selected for are ones that a process waits for, as far as a select for
`d` looks. -/
def Fresh (s : State) (d : FilpPtr × Ops) : Prop :=
  (d.2.wr = true ∨ d.2.rd = true → (s.filp d.1).selectOps.wr = false) ∧
    (d.2.rd = true → (s.filp d.1).selectOps.rd = true → (s.filp d.1).pipeSelectOps.rd = true)

theorem Ops.card_pos {o : Ops} (h : o ≠ Ops.none) : 0 < o.card := by
  obtain ⟨rd, wr, err⟩ := o
  cases rd <;> cases wr <;> cases err <;> simp_all [Ops.card, Ops.none]

theorem ops2tab_pos {d : SelFd} {ops : Ops} (hd : e.fds[n]? = some d)
    (hready : e.nreadyfds = 0 → d.ready = Ops.none) (hops : ops.inter d.want ≠ Ops.none) :
    0 < (ops2tab ops n e).nreadyfds := by
  unfold ops2tab
  rw [hd]
  show 0 < e.nreadyfds + ((ops.inter d.want).diff d.ready).card
  by_cases hzero : e.nreadyfds = 0
  · have hdiff : (ops.inter d.want).diff d.ready = ops.inter d.want := by
      rw [hready hzero]
      simp [Ops.diff, Ops.none]
    rw [hdiff]
    have := Ops.card_pos hops
    omega
  · omega

/-- What a descriptor of an entry asks for. -/
def SelFd.asks (d : SelFd) : Option FilpPtr × Ops := (d.filp, d.want)

theorem ops2tab_asks {ops : Ops} : (ops2tab ops n e).fds.map SelFd.asks = e.fds.map SelFd.asks := by
  unfold ops2tab
  split
  next => rfl
  rename_i d hd
  simp only [map_set]
  apply ext_getElem?
  intro m
  rw [List.getElem?_set]
  split
  next h =>
    subst h
    rw [List.getElem?_map, hd]
    obtain ⟨hlt, -⟩ := List.getElem?_eq_some_iff.mp hd
    simp [hlt, SelFd.asks]
  next => rfl

theorem ops2tab_block {ops : Ops} : (ops2tab ops n e).block = e.block := by
  unfold ops2tab
  split <;> rfl

/-- A select has looked at the descriptors `seen`; if it has to sleep it is registered for them. -/
structure Checking (p : Slot) (k : SelSlot) (block : Bool) (seen rest : List (FilpPtr × Ops))
    (s : State) : Prop where
  pipe : PipeWake s
  select : SelectWake (some (k, p)) s
  proc : (s.fproc p).blockedOn = .none ∧ (s.fproc p).used = true
  opened : ∀ d ∈ seen ++ rest, s.fds p d.1 ≠ 0
  requestor : (s.selecttab k).requestor = some p
  blocks : (s.selecttab k).block = block
  asks : (s.selecttab k).fds.map SelFd.asks = (seen ++ rest).map fun d => (some d.1, d.2)
  waiting : block = true → (s.selecttab k).nreadyfds = 0 →
    (∀ d ∈ (s.selecttab k).fds, d.ready = Ops.none) ∧
    (∀ d ∈ seen, d.2.wr = false ∧ (d.2.rd = true → (s.filp d.1).pipeSelectOps.rd = true)) ∧
    ∀ d ∈ rest, Fresh s d

theorem Ops.inter_eq_right {a b : Ops} (h : a.inter b = b) :
    (b.rd = true → a.rd = true) ∧ (b.wr = true → a.wr = true) := by
  rw [← h]
  simp only [Ops.inter, Bool.and_eq_true]
  exact ⟨fun h => h.1, fun h => h.1⟩

theorem selectCheck_wake {block : Bool} {seen rest : List (FilpPtr × Ops)}
    (h : Checking p k block seen rest s)
    (hrun : selectCheck p k block rest seen.length s = some t) :
    Checking p k block (seen ++ rest) [] t := by
  induction rest generalizing seen s with
  | nil =>
    cases hrun
    rw [append_nil]
    exact h
  | cons d rest ih =>
    obtain ⟨f, ops⟩ := d
    have happ : seen ++ (f, ops) :: rest = (seen ++ [(f, ops)]) ++ rest := by simp
    have hlen : (seen ++ [(f, ops)]).length = seen.length + 1 := by simp
    rw [selectCheck.eq_2] at hrun
    simp only at hrun
    rw [happ]
    split_ifs at hrun with hskip
    · -- the filp is selected for this already
      rw [← hlen] at hrun
      refine ih ⟨h.pipe, h.select, h.proc, happ ▸ h.opened, h.requestor, h.blocks, happ ▸ h.asks,
        fun hb hz => ?_⟩ hrun
      obtain ⟨hready, hseen, hfresh⟩ := h.waiting hb hz
      refine ⟨hready, fun d hd => ?_, fun d hd => hfresh d (mem_cons_of_mem _ hd)⟩
      obtain hd | hd := mem_append.mp hd
      · exact hseen d hd
      obtain rfl := mem_singleton.mp hd
      obtain ⟨hfr, hfw⟩ := Ops.inter_eq_right hskip
      obtain ⟨hnowr, hreg⟩ := hfresh (f, ops) mem_cons_self
      refine ⟨?_, fun hrd => hreg hrd (hfr hrd)⟩
      by_contra hne
      have hwr : ops.wr = true := by simpa using hne
      have := hnowr (.inl hwr)
      rw [show (s.filp f).selectOps.wr = true from hfw hwr] at this
      cases this
    obtain ⟨⟨s₂, got⟩, hreq, hrun⟩ := bind_eq_some_iff.mp hrun
    simp only at hrun
    -- the filp is now selected for the operations
    have hother : ∀ g, g ≠ f → (s.setFilp f { s.filp f with
        selectOps := (s.filp f).selectOps.union ops }).filp g = s.filp g :=
      fun g hg => update_of_ne hg _ _
    obtain ⟨hpipe1, hselect1⟩ := setFilp_wake (f := f) (b := { s.filp f with
      selectOps := (s.filp f).selectOps.union ops }) h.pipe h.select
      ⟨rfl, rfl, rfl, rfl, rfl⟩ (le_refl _) id (h.select.wr f) (h.select.rd f)
    have hselops : ∀ g, ((s.setFilp f { s.filp f with
        selectOps := (s.filp f).selectOps.union ops }).filp g).selectOps =
        if g = f then (s.filp f).selectOps.union ops else (s.filp g).selectOps := by
      intro g
      by_cases hg : g = f
      · subst hg
        rw [setFilp_self, if_pos rfl]
      · rw [hother g hg, if_neg hg]
    have hpipeops : ∀ g, ((s.setFilp f { s.filp f with
        selectOps := (s.filp f).selectOps.union ops }).filp g).pipeSelectOps =
        (s.filp g).pipeSelectOps := by
      intro g
      by_cases hg : g = f
      · subst hg
        rw [setFilp_self]
      · rw [hother g hg]
    have hcount : ((s.setFilp f { s.filp f with
        selectOps := (s.filp f).selectOps.union ops }).filp f).count ≠ 0 := by
      rw [setFilp_self]
      have hpos : 1 ≤ (s.filp f).count := h.pipe.count_pos (h.opened (f, ops) (by simp))
      show (s.filp f).count ≠ 0
      omega
    have hreq' := selectRequestPipe_wake hpipe1 hselect1 hreq
    have heased := selectRequestPipe_eased hreq
    have hfds : s₂.fds = s.fds := heased.fds
    have htab : s₂.selecttab = s.selecttab := hreq'.selecttab
    have hproc : s₂.fproc p = s.fproc p := hreq'.idle p h.proc.1
    have hkeep : ∀ g, (s.filp g).pipeSelectOps.rd = true → (s₂.filp g).pipeSelectOps.rd = true := by
      intro g hg
      apply hreq'.keep
      rw [hpipeops]
      exact hg
    have hops : ∀ g, (s₂.filp g).selectOps =
        if g = f then (s.filp f).selectOps.union ops else (s.filp g).selectOps := fun g =>
      (hreq'.selectOps g).trans (hselops g)
    have hunionrd : ((s.filp f).selectOps.union ops).rd = ((s.filp f).selectOps.rd || ops.rd) := rfl
    have hunionwr : ((s.filp f).selectOps.union ops).wr = ((s.filp f).selectOps.wr || ops.wr) := rfl
    rw [← hlen] at hrun
    by_cases hgot : got.inter ops = Ops.none
    · rw [if_pos hgot] at hrun
      have hgotrd : ops.rd = true → got.rd = false := by
        intro hr
        have hz := congrArg Ops.rd hgot
        simpa [Ops.inter, Ops.none, hr] using hz
      have hwr : ops.wr = false := by
        by_contra hne
        have hw : ops.wr = true := by simpa using hne
        have hg := hreq'.wr (by rw [hunionwr, hw, Bool.or_true])
        have hz := congrArg Ops.wr hgot
        simp [Ops.inter, Ops.none, hg, hw] at hz
      refine ih ⟨hreq'.pipe, hreq'.select, by rw [hproc]; exact h.proc, ?_, ?_, ?_, ?_,
        fun hb hz => ?_⟩ hrun
      · rw [hfds, ← happ]
        exact h.opened
      · rw [htab]
        exact h.requestor
      · rw [htab]
        exact h.blocks
      · rw [htab, ← happ]
        exact h.asks
      rw [htab] at hz ⊢
      obtain ⟨hready, hseen, hfresh⟩ := h.waiting hb hz
      obtain ⟨hnowr, -⟩ := hfresh (f, ops) mem_cons_self
      have hregf : ops.rd = true → (s₂.filp f).pipeSelectOps.rd = true := by
        intro hr
        apply hreq'.rd hb _ _ (hgotrd hr) hcount
        · rw [hunionwr, hwr, Bool.or_false]
          exact hnowr (.inr hr)
        · rw [hunionrd, hr, Bool.or_true]
      refine ⟨hready, fun d hd => ?_, fun d hd => ?_⟩
      · obtain hd | hd := mem_append.mp hd
        · exact ⟨(hseen d hd).1, fun hr => hkeep _ ((hseen d hd).2 hr)⟩
        · obtain rfl := mem_singleton.mp hd
          exact ⟨hwr, hregf⟩
      obtain ⟨hdwr, hdrd⟩ := hfresh d (mem_cons_of_mem _ hd)
      refine ⟨fun hasks => ?_, fun hr hsel => ?_⟩
      · rw [hops]
        split_ifs with hdf
        · rw [hunionwr, hwr, Bool.or_false, ← hdf]
          exact hdwr hasks
        · exact hdwr hasks
      rw [hops] at hsel
      split_ifs at hsel with hdf
      · rw [hunionrd] at hsel
        obtain hold | hnew := Bool.or_eq_true_iff.mp hsel
        · exact hkeep _ (hdrd hr (by rw [hdf]; exact hold))
        · rw [hdf]
          exact hregf hnew
      · exact hkeep _ (hdrd hr hsel)
    · rw [if_neg hgot] at hrun
      have hself : (s₂.setSel k (ops2tab got seen.length (s₂.selecttab k))).selecttab k =
          ops2tab got seen.length (s₂.selecttab k) := update_self _ _ _
      refine ih ⟨?_, hreq'.select.setBusy fun f => ?_, ?_, ?_, ?_, ?_, ?_, fun hb hz => ?_⟩ hrun
      · exact ⟨hreq'.pipe.kinds, hreq'.pipe.revived, hreq'.pipe.used, hreq'.pipe.suspCount,
          hreq'.pipe.count, hreq'.pipe.ends, hreq'.pipe.justified⟩
      · rw [names_ops2tab, sub_self, add_zero]
        exact hreq'.select.selectors f
      · show (s₂.fproc p).blockedOn = .none ∧ (s₂.fproc p).used = true
        rw [hproc]
        exact h.proc
      · show ∀ d ∈ seen ++ [(f, ops)] ++ rest, s₂.fds p d.1 ≠ 0
        rw [hfds, ← happ]
        exact h.opened
      · rw [hself, ops2tab_requestor, htab]
        exact h.requestor
      · rw [hself, ops2tab_block, htab]
        exact h.blocks
      · rw [hself, ops2tab_asks, htab, ← happ]
        exact h.asks
      -- the descriptor is ready, so the select does not sleep
      exfalso
      rw [hself, htab] at hz
      have hnth := congrArg (fun l => l[seen.length]?) h.asks
      simp only [List.getElem?_map, List.getElem?_append_right (le_refl _), Nat.sub_self,
        List.getElem?_cons_zero, map_some] at hnth
      obtain ⟨d, hd, hasks⟩ := map_eq_some_iff.mp hnth
      have hwant : d.want = ops := congrArg Prod.snd hasks
      have hne : got.inter d.want ≠ Ops.none := by
        rw [hwant]
        exact hgot
      have hpos := ops2tab_pos hd
        (fun hzero => (h.waiting hb hzero).1 d (mem_of_getElem? hd)) hne
      omega

theorem selectOpen_wake (fds : List (FilpPtr × Ops)) {N : FilpPtr → Int} (hw : Wake s)
    (hN : ∀ f, N f ≤ (s.filp f).selectors) :
    Wake (selectOpen p fds s).1 ∧ (selectOpen p fds s).1.fproc = s.fproc ∧
      (selectOpen p fds s).1.selecttab = s.selecttab ∧ (selectOpen p fds s).1.fds = s.fds ∧
      (∀ f, ((selectOpen p fds s).1.filp f).selectOps = (s.filp f).selectOps ∧
        ((selectOpen p fds s).1.filp f).pipeSelectOps = (s.filp f).pipeSelectOps) ∧
      ((selectOpen p fds s).2 = true → (∀ d ∈ fds, s.fds p d.1 ≠ 0) ∧
        ∀ f, N f + (fds.map Prod.fst).count f ≤ ((selectOpen p fds s).1.filp f).selectors) := by
  induction fds generalizing s N with
  | nil =>
    exact ⟨hw, rfl, rfl, rfl, fun _ => ⟨rfl, rfl⟩, fun _ => ⟨fun d hd =>
      absurd hd not_mem_nil, fun f => by simpa [selectOpen] using hN f⟩⟩
  | cons d fds ih =>
    obtain ⟨f, ops⟩ := d
    unfold selectOpen
    split
    next => exact ⟨hw, rfl, rfl, rfl, fun _ => ⟨rfl, rfl⟩, fun heq => by cases heq⟩
    rename_i hopen
    have hself : ∀ b : Filp, (s.setFilp f b).filp f = b := fun _ => setFilp_self
    have hother : ∀ (b : Filp) g, g ≠ f → (s.setFilp f b).filp g = s.filp g :=
      fun b g hg => update_of_ne hg _ _
    have hw' := setFilp_wake (f := f)
      (b := { s.filp f with selectors := (s.filp f).selectors + 1 }) hw.1 hw.2
      ⟨rfl, rfl, rfl, rfl, rfl⟩ (by show _ ≤ _ + 1; omega) id (hw.2.wr f) (hw.2.rd f)
    have hN' : ∀ g, N g + (if g = f then 1 else 0) ≤ ((s.setFilp f { s.filp f with
        selectors := (s.filp f).selectors + 1 }).filp g).selectors := by
      intro g
      have := hN g
      by_cases hg : g = f
      · subst hg
        rw [hself, if_pos rfl]
        show _ ≤ (s.filp g).selectors + 1
        omega
      · rw [hother _ g hg, if_neg hg]
        omega
    obtain ⟨hwake, hproc, htab, hfds, hops, hok⟩ := ih hw' hN'
    refine ⟨hwake, hproc, htab, hfds, fun g => ?_, fun heq => ?_⟩
    · obtain ⟨h1, h2⟩ := hops g
      rw [h1, h2]
      by_cases hg : g = f
      · subst hg
        rw [hself]
        exact ⟨rfl, rfl⟩
      · rw [hother _ g hg]
        exact ⟨rfl, rfl⟩
    obtain ⟨hopened, hcount⟩ := hok heq
    refine ⟨fun d hd => ?_, fun g => ?_⟩
    · obtain rfl | hd := mem_cons.mp hd
      · exact hopen
      · exact hopened d hd
    apply le_trans _ (hcount g)
    by_cases hg : g = f
    · subst hg
      rw [if_pos rfl, map_cons, count_cons_self]
      push_cast
      omega
    · rw [if_neg hg, map_cons, count_cons_of_ne (Ne.symm hg)]
      omega

theorem suspend_select_wake (hw : PipeWake s) (h : SelectWake (some (k, p)) s)
    (hproc : (s.fproc p).blockedOn = .none ∧ (s.fproc p).used = true)
    (hreq : (s.selecttab k).requestor = some p) (hs : Sleeps s p (s.selecttab k)) :
    Wake (suspend s p .select .other) := by
  have hself : (suspend s p .select .other).fproc p =
      { s.fproc p with blockedOn := .select, blockCallnr := .other } := update_self _ _ _
  have hother : ∀ q, q ≠ p → (suspend s p .select .other).fproc q = s.fproc q :=
    fun q hq => update_of_ne hq _ _
  have hawake : ∀ q, Asleep ((suspend s p .select .other).fproc q) ↔ Asleep (s.fproc q) := by
    intro q
    by_cases hq : q = p
    · subst hq
      rw [hself]
      exact ⟨fun hsleep => (by cases hsleep.1), fun hsleep => absurd hsleep
        (Asleep.not_none hproc.1)⟩
    · rw [hother q hq]
  refine ⟨⟨fun q => ?_, fun q hq => ?_, fun q hq => ?_, ?_, hw.count, hw.ends, fun q hq => ?_⟩,
    ⟨fun j q _ hq => ⟨?_, by simp⟩, fun j j' q _ _ hq hq' => ?_, fun q _ hb => ?_,
      fun j q _ hq => ?_, h.wr, h.rd, h.selectors⟩⟩
  · by_cases hqp : q = p
    · subst hqp
      rw [hself]
      exact .inr (.inr rfl)
    · rw [hother q hqp]
      exact hw.kinds q
  · by_cases hqp : q = p
    · subst hqp
      rw [hself]
      exact hw.revived q (by rw [hproc.1]; decide)
    · rw [hother q hqp] at hq ⊢
      exact hw.revived q hq
  · by_cases hqp : q = p
    · subst hqp
      rw [hself]
      exact hproc.2
    · rw [hother q hqp] at hq ⊢
      exact hw.used q hq
  · show (if BlockedOn.select = .popen ∨ BlockedOn.select = .pipe then s.suspCount + 1
      else s.suspCount) = _
    rw [if_neg (by simp), hw.suspCount]
    exact Finset.sum_congr rfl fun q _ => by rw [if_congr (hawake q) rfl rfl]
  · have hold := (hawake q).mp hq
    have hqp : q ≠ p := by
      rintro rfl
      exact Asleep.not_none hproc.1 hold
    rw [hother q hqp]
    exact hw.justified q hold
  · by_cases hj : some k = some j
    · cases hj
      have hreq' : (s.selecttab k).requestor = some q := hq
      rw [hreq] at hreq'
      cases hreq'
      rw [hself]
    · obtain ⟨hb, hne⟩ := h.entry j q hj hq
      rw [hother q fun heq => hne (congrArg some heq.symm)]
      exact hb
  · have hq1 : (s.selecttab j).requestor = some q := hq
    have hq2 : (s.selecttab j').requestor = some q := hq'
    by_cases hj : some k = some j
    · by_cases hj' : some k = some j'
      · exact (some.inj hj).symm.trans (some.inj hj')
      · cases hj
        rw [hreq] at hq1
        cases hq1
        exact absurd rfl (h.entry j' p hj' hq2).2
    by_cases hj' : some k = some j'
    · cases hj'
      rw [hreq] at hq2
      cases hq2
      exact absurd rfl (h.entry j p hj hq1).2
    · exact h.unique j j' q hj hj' hq1 hq2
  · by_cases hqp : q = p
    · subst hqp
      exact ⟨k, by simp, hreq⟩
    · rw [hother q hqp] at hb
      obtain ⟨j, -, hj⟩ := h.asked q (fun heq => hqp (some.inj heq).symm) hb
      exact ⟨j, by simp, hj⟩
  have hq1 : (s.selecttab j).requestor = some q := hq
  have hold : Sleeps s q (s.selecttab j) := by
    by_cases hj : some k = some j
    · cases hj
      rw [hreq] at hq1
      cases hq1
      exact hs
    · exact h.sleeps j q hj hq1
  exact ⟨hold.block, hold.nreadyfds, hold.ready, hold.wr, hold.opened, hold.rd⟩

theorem doSelect_wake {fds : List (FilpPtr × Ops)} {block : Bool} (hw : Wake s)
    (hen : (s.fproc p).used = true ∧ (s.fproc p).blockedOn = .none)
    (hfresh : block = true → ∀ d ∈ fds, Fresh s d)
    (hrun : doSelect s p fds block = some s') : Wake s' := by
  unfold doSelect at hrun
  split at hrun
  next =>
    cases hrun
    exact hw.note
  rename_i k hk
  have hnone : (s.selecttab k).requestor = none := by
    simpa using List.find?_some hk
  dsimp only at hrun
  obtain ⟨hwake, hproc, htab, hfds, hops, hok⟩ := selectOpen_wake (p := p) fds hw hw.2.selectors
  split_ifs at hrun with hopen
  · cases hrun
    exact hwake.note
  obtain ⟨hopened, hcount⟩ := hok (by simpa using hopen)
  obtain ⟨t, hcheck, hfin⟩ := map_eq_some_iff.mp hrun
  generalize (selectOpen p fds s).1 = s₁ at hwake hproc htab hfds hops hcount hcheck
  have hself : ∀ e, (s₁.setSel k e).selecttab k = e := fun e => update_self _ _ _
  have hmap : fds.map (fun d => some d.1) = (fds.map Prod.fst).map some := by simp
  have hbusy : SelectWake (some (k, p)) (s₁.setSel k
      ⟨some p, fds.map fun d => ⟨some d.1, d.2, Ops.none⟩, 0, block⟩) := by
    have hwork : SelectWake (some (k, p)) s₁ := by
      apply hwake.2.workOn
      · intro q hq
        rw [htab, hnone] at hq
        cases hq
      · intro hb
        rw [hproc, hen.2] at hb
        cases hb
    apply hwork.setBusy
    · intro f
      apply le_trans _ (hcount f)
      have hnames : names ⟨some p, fds.map fun d => ⟨some d.1, d.2, Ops.none⟩, 0, block⟩ f =
          ((fds.map Prod.fst).count f : Nat) := by
        unfold names
        rw [if_neg (by simp), List.map_map]
        show (((fds.map fun d => some d.1).count (some f) : Nat) : Int) = _
        rw [hmap, count_map_of_injective _ some (some_injective _)]
      have hzero : names (s.selecttab k) f = 0 := if_pos hnone
      rw [hnames, htab, hzero, sub_zero]
  have hstart : Checking p k block [] fds (s₁.setSel k
      ⟨some p, fds.map fun d => ⟨some d.1, d.2, Ops.none⟩, 0, block⟩) := by
    refine ⟨⟨hwake.1.kinds, hwake.1.revived, hwake.1.used, hwake.1.suspCount, hwake.1.count,
      hwake.1.ends, hwake.1.justified⟩, hbusy, ?_, ?_, ?_, ?_, ?_, fun hb _ => ⟨?_, ?_, ?_⟩⟩
    · show (s₁.fproc p).blockedOn = .none ∧ (s₁.fproc p).used = true
      rw [hproc]
      exact ⟨hen.2, hen.1⟩
    · show ∀ d ∈ [] ++ fds, s₁.fds p d.1 ≠ 0
      rw [hfds]
      exact hopened
    · rw [hself]
    · rw [hself]
    · rw [hself, List.map_map]
      rfl
    · rw [hself]
      intro d hd
      obtain ⟨d', -, rfl⟩ := List.mem_map.mp hd
      rfl
    · exact fun d hd => absurd hd not_mem_nil
    intro d hd
    obtain ⟨hwr, hrd⟩ := hfresh hb d hd
    obtain ⟨h1, h2⟩ := hops d.1
    refine ⟨fun hasks => ?_, fun hr hsel => ?_⟩
    · show (s₁.filp d.1).selectOps.wr = false
      rw [h1]
      exact hwr hasks
    have hsel' : (s₁.filp d.1).selectOps.rd = true := hsel
    show (s₁.filp d.1).pipeSelectOps.rd = true
    rw [h2]
    rw [h1] at hsel'
    exact hrd hr hsel'
  have hend := selectCheck_wake hstart hcheck
  rw [nil_append] at hend
  split_ifs at hfin with hready
  · subst hfin
    obtain ⟨hsel, hans, hproc', hreq, -, -⟩ := selectCancelAll_wake hend.select hend.requestor
    have hdone := hsel.done hreq (by rw [hproc', hend.proc.1]; decide)
    exact Wake.note ⟨hans.pipeWake hend.pipe, hdone⟩
  subst hfin
  rw [not_or] at hready
  have hblock : block = true := by simpa using hready.2
  have hzero : (t.selecttab k).nreadyfds = 0 := by omega
  obtain ⟨hrs, hseen, -⟩ := hend.waiting hblock hzero
  -- what the entry asks for is what the call has asked for
  have hasked : ∀ d ∈ (t.selecttab k).fds, ∃ d' ∈ fds, d.filp = some d'.1 ∧ d.want = d'.2 := by
    intro d hd
    have hmem : d.asks ∈ (t.selecttab k).fds.map SelFd.asks := List.mem_map_of_mem hd
    rw [hend.asks, append_nil] at hmem
    obtain ⟨d', hd', heq⟩ := List.mem_map.mp hmem
    exact ⟨d', hd', (congrArg Prod.fst heq).symm, (congrArg Prod.snd heq).symm⟩
  apply suspend_select_wake hend.pipe hend.select hend.proc hend.requestor
  refine ⟨hend.blocks.trans hblock, hzero, hrs, fun d hd => ?_, fun d hd f hf => ?_,
    fun d hd f hf hwant => ?_⟩
  · obtain ⟨d', hd', -, hw'⟩ := hasked d hd
    rw [hw']
    exact (hseen d' hd').1
  · obtain ⟨d', hd', hf', -⟩ := hasked d hd
    rw [hf] at hf'
    cases hf'
    exact hend.opened d' (by simpa using hd')
  obtain ⟨d', hd', hf', hw'⟩ := hasked d hd
  rw [hf] at hf'
  cases hf'
  rw [hw'] at hwant
  exact (hseen d' hd').2 hwant

/-! ## Runs -/

/-- A read of the last byte finds no writer asleep, and a select that may sleep finds only
operations that somebody waits for. -/
def LeavesNone (s : State) : Request → Prop
  | .read _ f n => n ≤ ssizeMax → Drains s f n
  | .resume p => ∀ f, (s.fproc p).file = .filp (some f) → (s.fproc p).blockCallnr = .read →
      Drains s f (s.fproc p).ioNbytes
  | .select _ fds block => block = true → ∀ d ∈ fds, Fresh s d
  | _ => True

/-- A reader sleeps on an empty pipe with a writer, a writer on one that has a reader and is not
empty, a select likewise. -/
structure Rested (s : State) : Prop where
  pipe : ∀ p, (s.fproc p).blockedOn = .pipe → ∃ f, (s.fproc p).file = .filp (some f) ∧
    ((s.fproc p).blockCallnr = .read ∧ (s.vnode (s.filp f).vno).content = [] ∧
        FindFilp s (s.filp f).vno .writing ∨
      (s.fproc p).blockCallnr = .write ∧ (s.vnode (s.filp f).vno).content ≠ [] ∧
        FindFilp s (s.filp f).vno .reading)
  select : ∀ p, (s.fproc p).blockedOn = .select → ∃ k, (s.selecttab k).requestor = some p ∧
    ∀ d ∈ (s.selecttab k).fds, ∀ f, d.filp = some f →
      (d.want.rd = true → (s.vnode (s.filp f).vno).content = [] ∧
        FindFilp s (s.filp f).vno .writing) ∧
      (d.want.wr = true → (s.vnode (s.filp f).vno).content ≠ [] ∧
        FindFilp s (s.filp f).vno .reading)

theorem Boot.wake (h : Boot s) : Wake s := by
  have hawake : ∀ p, ¬ Asleep (s.fproc p) := fun p => Asleep.not_none (h.blocked p).1
  refine ⟨⟨fun p => .inl (h.blocked p).1, fun p _ => (h.blocked p).2,
    fun p hp => absurd (h.blocked p).1 hp, ?_, h.count, h.ends, fun p hp => absurd hp (hawake p)⟩,
    ⟨fun k p _ hp => ?_, fun k j p _ _ hp => ?_, fun p _ hp => ?_, fun k p _ hp => ?_, fun f => ?_,
      fun f hf => ?_, fun f => ?_⟩⟩
  · rw [h.suspCount, Finset.sum_eq_zero fun p _ => if_neg (hawake p)]
  · rw [h.selecttab k] at hp
    cases hp
  · rw [h.selecttab k] at hp
    cases hp
  · rw [(h.blocked p).1] at hp
    cases hp
  · rw [h.selecttab k] at hp
    cases hp
  · rw [(h.selects f).2.2]
    rfl
  · rw [(h.selects f).2.2] at hf
    cases hf
  · have hzero : ∀ k, names (s.selecttab k) f = 0 := fun k => if_pos (h.selecttab k)
    rw [(h.selects f).1, Finset.sum_eq_zero fun k _ => hzero k]

theorem run_wake {r : Request} (ha : Agree none a s) (hw : Wake s) (hen : r.Enabled s)
    (hrange : InRange s r) (hnone : LeavesNone s r) (hrun : r.run s = some s') : Wake s' := by
  cases r with
  | read p f n =>
    have hread : doReadWrite s .reading p f [] n = some s' := hrun
    exact doReadWrite_wake ha hw hen (by simp) (by simp) (fun _ => hnone) hread
  | write p f data =>
    have hwrite : doReadWrite s .writing p f data data.length = some s' := hrun
    exact doReadWrite_wake ha hw hen (fun _ => rfl) (fun _ => hrange) (by simp) hwrite
  | select p fds block => exact doSelect_wake hw hen hnone hrun
  | close p f => exact closeFilp_wake hw hen.2.1 hen.2.2 hrun
  | dup p q f =>
    cases hrun
    exact dup_wake hw hen.2.2.2.2
  | resume p => exact unblock_wake ha hw hen hnone hrun

theorem Runs.wake (h : Runs (fun s r => InRange s r ∧ LeavesNone s r) s) :
    (∃ a, History s.log a ∧ Agree none a s) ∧ Wake s := by
  induction h with
  | boot h =>
    refine ⟨⟨_, ?_, h.agree⟩, h.wake⟩
    rw [h.log]
    exact .nil
  | step h hen hP hrun ih =>
    obtain ⟨⟨a, hist, ha⟩, hw⟩ := ih
    exact ⟨run_agree ha hist hen hP.1 hrun, run_wake ha hw hen hP.1 hP.2 hrun⟩

/-- In a run whose requests meet the condition nobody sleeps in vain when no process is left to be
restarted. -/
theorem no_lost_wakeup (h : Runs (fun s r => InRange s r ∧ LeavesNone s r) s)
    (hquiet : ∀ p, (s.fproc p).revived = false) : Rested s := by
  obtain ⟨⟨a, -, ha⟩, hpipe, hselect⟩ := h.wake
  have hempty : ∀ v, (s.vnode v).size = 0 ↔ (s.vnode v).content = [] := by
    intro v
    rw [ha.size v, ← length_eq_zero_iff]
    omega
  refine ⟨fun p hp => ?_, fun p hp => ?_⟩
  · obtain ⟨c, -, f, rw, hfile, hnr, -, -⟩ := ha.waits p (by simp) hp
    obtain ⟨hread, hwrite⟩ := hpipe.justified p ⟨hp, hquiet p⟩ f hfile
    refine ⟨f, hfile, ?_⟩
    cases rw with
    | reading =>
      obtain ⟨hsize, hfind⟩ := hread hnr
      exact .inl ⟨hnr, (hempty _).mp hsize, hfind⟩
    | writing =>
      obtain ⟨hsize, hfind⟩ := hwrite hnr
      exact .inr ⟨hnr, fun heq => hsize ((hempty _).mpr heq), hfind⟩
  obtain ⟨k, -, hk⟩ := hselect.asked p (by simp) hp
  have hs := hselect.sleeps k p (by simp) hk
  refine ⟨k, hk, fun d hd f hf => ⟨fun hrd => ?_, fun hwr => ?_⟩⟩
  · obtain ⟨hsize, hfind⟩ := hselect.rd f (hs.rd d hd f hf hrd)
      (hpipe.count_pos (hs.opened d hd f hf))
    exact ⟨(hempty _).mp hsize, hfind⟩
  · rw [hs.wr d hd] at hwr
    cases hwr

set_option maxRecDepth 100000 in
/-- A reader sleeps on the empty pipe. -/
theorem no_lost_wakeup_reader : ∃ s, (s.fproc 0).blockedOn = .pipe ∧ Rested s := by
  have h : ((Request.read 0 0 1).run bootState).any (fun s =>
      decide ((s.fproc 0).blockedOn = .pipe ∧ ∀ p, (s.fproc p).revived = false)) = true := by
    decide +kernel
  obtain ⟨s, hrun, hs⟩ := (Option.any_eq_true _ _).mp h
  obtain ⟨hb, hquiet⟩ := of_decide_eq_true hs
  exact ⟨s, hb, no_lost_wakeup ((Runs.boot boot_bootState).step (r := .read 0 0 1)
    (by decide) ⟨trivial, fun _ hne => absurd rfl hne⟩ hrun) hquiet⟩

set_option maxRecDepth 100000 in
/-- A failed select leaves the filp selected for reading: the next one is not registered, and sleeps
on when a byte is written. -/
theorem select_sleeps_on : ∃ s, Runs (fun _ _ => True) s ∧
    (∀ p, (s.fproc p).revived = false) ∧ ¬ Rested s := by
  have h : (runAll bootState [.select 0 [(0, rdOps), (2, rdOps)] true, .select 0 [(0, rdOps)] false,
      .select 0 [(0, rdOps)] true, .write 1 1 [1]]).any (fun s =>
      decide ((∀ p, (s.fproc p).revived = false) ∧ (s.fproc 0).blockedOn = .select ∧
        (s.vnode (s.filp 0).vno).content ≠ [] ∧ ∀ k, (s.selecttab k).requestor = some 0 →
          ∃ d ∈ (s.selecttab k).fds, d.filp = some 0 ∧ d.want.rd = true)) = true := by
    decide +kernel
  obtain ⟨s, hrun, hs⟩ := (Option.any_eq_true _ _).mp h
  obtain ⟨hquiet, hb, hbytes, hall⟩ := of_decide_eq_true hs
  refine ⟨s, Runs.runAll (.boot boot_bootState) (fun _ _ _ => trivial) hrun, hquiet, fun hrest => ?_⟩
  obtain ⟨k, hk, hd⟩ := hrest.select 0 hb
  obtain ⟨d, hmem, hf, hwant⟩ := hall k hk
  exact hbytes ((hd d hmem 0 hf).1 hwant).1

end HardenedMinix.Pipe
