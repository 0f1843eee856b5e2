import HardenedMinix.Vfs.PipeWake

/-!
# Wake-ups by reads, writes and closes

Before bytes are appended no reader sleeps, a reader that finds nothing wakes the writers, and a
close wakes those who wait for that end.
-/

open Function Option

namespace HardenedMinix.Pipe

open Lib

variable {s s' s₁ s₂ t : State} {p q : Slot} {f g : FilpPtr} {v w : VnodePtr} {x y : Fproc}
  {rw : Rw} {buf : List Byte} {n : Nat} {r : Result} {op : CallNr} {count : Int} {k j : SelSlot}
  {busy : Option (SelSlot × Slot)} {e : SelectEntry}

/-! ## Small changes -/

variable {ev : Event}

theorem PipeWake.note (h : PipeWake s) : PipeWake (s.note ev) :=
  ⟨h.kinds, h.revived, h.used, h.suspCount, h.count, h.ends, h.justified⟩

theorem SelectWake.note (h : SelectWake busy s) : SelectWake busy (s.note ev) :=
  h.congr rfl rfl rfl rfl fun _ _ => Iff.rfl

theorem PipeWake.setProc (h : PipeWake s) (hold : ¬ Asleep (s.fproc p)) (hb : x.blockedOn = .none)
    (hrev : x.revived = false) : PipeWake (s.setProc p x) := by
  have hself : (s.setProc p x).fproc p = x := update_self _ _ _
  have hother : ∀ q, q ≠ p → (s.setProc p x).fproc q = s.fproc q := fun q hq => update_of_ne hq _ _
  have hx : ¬ Asleep x := by
    rintro ⟨hp, -⟩
    rw [hb] at hp
    cases hp
  refine ⟨fun q => ?_, fun q hq => ?_, fun q hq => ?_, ?_, h.count, h.ends, fun q hq => ?_⟩
  · by_cases hqp : q = p
    · subst hqp
      rw [hself]
      exact .inl hb
    · rw [hother q hqp]
      exact h.kinds q
  · by_cases hqp : q = p
    · subst hqp
      rw [hself]
      exact hrev
    · rw [hother q hqp] at hq ⊢
      exact h.revived q hq
  · by_cases hqp : q = p
    · subst hqp
      rw [hself] at hq
      exact absurd hb hq
    · rw [hother q hqp] at hq ⊢
      exact h.used q hq
  · rw [sum_change p (a := fun q => if Asleep (s.fproc q) then 1 else 0)
      (b := fun q => if Asleep ((s.setProc p x).fproc q) then 1 else 0)
      fun q hq => by rw [hother q hq], hself, if_neg hx, if_neg hold, ← h.suspCount]
    show s.suspCount = _
    omega
  by_cases hqp : q = p
  · subst hqp
    rw [hself] at hq
    exact absurd hq hx
  · rw [hother q hqp] at hq ⊢
    exact h.justified q hq

theorem SelectWake.setProc (h : SelectWake busy s) (hold : (s.fproc p).blockedOn ≠ .select)
    (hx : x.blockedOn ≠ .select) : SelectWake busy (s.setProc p x) := by
  refine h.congr rfl rfl rfl rfl fun q _ => ?_
  by_cases hqp : q = p
  · subst hqp
    rw [show (s.setProc q x).fproc q = x from update_self _ _ _]
    exact ⟨fun heq => absurd heq hx, fun heq => absurd heq hold⟩
  · rw [show (s.setProc p x).fproc q = s.fproc q from update_of_ne hqp _ _]

theorem PipeWake.pipeSuspend (h : PipeWake s) (hb : (s.fproc p).blockedOn = .none)
    (hused : (s.fproc p).used = true)
    (hread : rw = .reading → (s.vnode (s.filp f).vno).size = 0 ∧ FindFilp s (s.filp f).vno .writing)
    (hwrite : rw = .writing →
      (s.vnode (s.filp f).vno).size ≠ 0 ∧ FindFilp s (s.filp f).vno .reading) :
    PipeWake (pipeSuspend s p f buf n rw.callNr) := by
  have hrev := h.revived p (by rw [hb]; decide)
  have hsleep : Asleep ((Pipe.pipeSuspend s p f buf n rw.callNr).fproc p) := by
    rw [pipeSuspend_self]
    exact ⟨rfl, hrev⟩
  have hold : ¬ Asleep (s.fproc p) := by
    rintro ⟨hp, -⟩
    rw [hb] at hp
    cases hp
  refine ⟨fun q => ?_, fun q hq => ?_, fun q hq => ?_, ?_, h.count, h.ends, fun q hq => ?_⟩
  · by_cases hqp : q = p
    · subst hqp
      exact .inr (.inl hsleep.1)
    · rw [pipeSuspend_of_ne hqp]
      exact h.kinds q
  · by_cases hqp : q = p
    · subst hqp
      exact absurd hsleep.1 hq
    · rw [pipeSuspend_of_ne hqp] at hq ⊢
      exact h.revived q hq
  · by_cases hqp : q = p
    · subst hqp
      rw [pipeSuspend_self]
      exact hused
    · rw [pipeSuspend_of_ne hqp] at hq ⊢
      exact h.used q hq
  · rw [sum_change p (a := fun q => if Asleep (s.fproc q) then 1 else 0)
      (b := fun q => if Asleep ((Pipe.pipeSuspend s p f buf n rw.callNr).fproc q) then 1 else 0)
      fun q hq => by rw [pipeSuspend_of_ne hq], if_pos hsleep, if_neg hold, ← h.suspCount]
    show (if BlockedOn.pipe = .popen ∨ BlockedOn.pipe = .pipe then s.suspCount + 1
      else s.suspCount) = _
    rw [if_pos (.inr rfl)]
    omega
  by_cases hqp : q = p
  · subst hqp
    rw [pipeSuspend_self]
    rintro g hg
    cases hg
    cases rw with
    | reading => exact ⟨fun _ => hread rfl, fun heq => by cases heq⟩
    | writing => exact ⟨fun heq => (by cases heq), fun _ => hwrite rfl⟩
  · rw [pipeSuspend_of_ne hqp] at hq ⊢
    exact h.justified q hq

theorem SelectWake.pipeSuspend (h : SelectWake busy s) (hb : (s.fproc p).blockedOn ≠ .select)
    {nr : CallNr} : SelectWake busy (pipeSuspend s p f buf n nr) := by
  refine h.congr rfl rfl rfl rfl fun q _ => ?_
  by_cases hqp : q = p
  · subst hqp
    have hself : ((Pipe.pipeSuspend s q f buf n nr).fproc q).blockedOn = .pipe := by
      simp [Pipe.pipeSuspend, suspend, State.setProc]
    rw [hself]
    exact ⟨fun heq => (by cases heq), fun heq => absurd heq hb⟩
  · have hother : (Pipe.pipeSuspend s p f buf n nr).fproc q = s.fproc q := by
      show update (update s.fproc p _) p _ q = _
      rw [update_of_ne hqp, update_of_ne hqp]
    rw [hother]

theorem PipeWake.resize {y : Vnode} (h : PipeWake s) (hread : y.size ≠ 0 → ∀ q, NoneOn s v .read q)
    (hwrite : y.size = 0 → ∀ q, NoneOn s v .write q) :
    PipeWake ((s.setVnode v y).note ev) := by
  refine ⟨h.kinds, h.revived, h.used, h.suspCount, h.count, h.ends, fun q hq f hfile => ?_⟩
  have hold := h.justified q hq f hfile
  by_cases hv : (s.filp f).vno = v
  · refine ⟨fun hop => ?_, fun hop => ?_⟩
    · have hsize : y.size = 0 := by
        by_contra hne
        exact hread hne q hq hop f hfile hv
      refine ⟨?_, (hold.1 hop).2⟩
      show (update s.vnode v y (s.filp f).vno).size = 0
      rw [hv, update_self]
      exact hsize
    have hsize : y.size ≠ 0 := fun hzero => hwrite hzero q hq hop f hfile hv
    refine ⟨?_, (hold.2 hop).2⟩
    show (update s.vnode v y (s.filp f).vno).size ≠ 0
    rw [hv, update_self]
    exact hsize
  · show (_ → (update s.vnode v y (s.filp f).vno).size = 0 ∧ _) ∧
      (_ → (update s.vnode v y (s.filp f).vno).size ≠ 0 ∧ _)
    rw [update_of_ne hv]
    exact hold

theorem SelectWake.resize {y : Vnode} (h : SelectWake busy s)
    (hread : y.size ≠ 0 → ∀ f, Unread s v f) : SelectWake busy ((s.setVnode v y).note ev) := by
  refine ⟨h.entry, h.unique, h.asked, fun j q hj hq => ?_, h.wr, fun f hrd hcount => ?_,
    h.selectors⟩
  · obtain ⟨hblock, hready, hrs, hwr, hopen, hreg⟩ := h.sleeps j q hj hq
    exact ⟨hblock, hready, hrs, hwr, hopen, hreg⟩
  have hold := h.rd f hrd hcount
  refine ⟨?_, hold.2⟩
  show (update s.vnode v y (s.filp f).vno).size = 0
  by_cases hv : (s.filp f).vno = v
  · rw [hv, update_self]
    by_contra hne
    have := hread hne f hcount hv
    rw [show (s.filp f).pipeSelectOps.rd = true from hrd] at this
    cases this
  · rw [update_of_ne hv]
    exact hold.1

/-! ## A call on a pipe -/

/-- What `pipe_check` leaves behind when a process looks whether it may read. -/
structure Looked (busy : Option (SelSlot × Slot)) (s t : State) : Prop where
  pipe : PipeWake t
  select : SelectWake busy t
  eased : Eased s t
  idle : ∀ p, (s.fproc p).blockedOn = .none → t.fproc p = s.fproc p
  filp : t.filp = s.filp
  selecttab : t.selecttab = s.selecttab

theorem Looked.refl (hw : PipeWake s) (h : SelectWake busy s) : Looked busy s s :=
  ⟨hw, h, .refl s, fun _ _ => rfl, rfl, rfl⟩

theorem pipeCheck_look {nonblock notouch : Bool} {m : Int} {c : Check} (hw : PipeWake s)
    (h : SelectWake busy s)
    (hrun : pipeCheck s p v .reading nonblock m notouch = some (t, c)) :
    Looked busy s t ∧ (c = .suspend → (s.vnode v).size = 0 ∧ FindFilp s v .writing) ∧
      (c ≠ .suspend → ¬ ((s.vnode v).size = 0 ∧ FindFilp s v .writing) ∨ nonblock = true) ∧
      ((s.vnode v).size ≠ 0 → t = s) := by
  have hrel : ∀ {c' : Check}, (release s v .write s.suspCount).map (fun s => (s, c')) =
      some (t, c) → Looked busy s t ∧ c = c' := by
    intro c' hmap
    obtain ⟨t', hrelease, heq⟩ := map_eq_some_iff.mp hmap
    cases heq
    obtain ⟨hfreed, hfilp, htab⟩ := release_write hw h hrelease
    exact ⟨⟨hfreed.pipe, hfreed.select, hfreed.eased, hfreed.idle, hfilp, htab⟩, rfl⟩
  unfold pipeCheck at hrun
  simp only at hrun
  split_ifs at hrun with hsize hfind hsusp hnb hnb
  · obtain ⟨hl, rfl⟩ := hrel hrun
    exact ⟨hl, fun heq => (by cases heq), fun _ => .inr hnb, fun hne => absurd hsize hne⟩
  · obtain ⟨hl, rfl⟩ := hrel hrun
    exact ⟨hl, fun _ => ⟨hsize, hfind⟩, fun hne => absurd rfl hne, fun hne => absurd hsize hne⟩
  · cases hrun
    exact ⟨.refl hw h, fun heq => (by cases heq), fun _ => .inr hnb, fun hne => absurd hsize hne⟩
  · cases hrun
    exact ⟨.refl hw h, fun _ => ⟨hsize, hfind⟩, fun hne => absurd rfl hne,
      fun hne => absurd hsize hne⟩
  · cases hrun
    exact ⟨.refl hw h, fun heq => (by cases heq), fun _ => .inl fun hno => hfind hno.2,
      fun hne => absurd hsize hne⟩
  · cases hrun
    exact ⟨.refl hw h, fun heq => (by cases heq), fun _ => .inl fun hno => hsize hno.1,
      fun _ => rfl⟩

theorem not_waited (hw : PipeWake s) (h : SelectWake busy s) (hne : (s.vnode v).size ≠ 0) :
    (∀ q, NoneOn s v .read q) ∧ ∀ f, Unread s v f := by
  refine ⟨fun q hq hop f hfile hv => ?_, fun f hcount hv => ?_⟩
  · have := ((hw.justified q hq f hfile).1 hop).1
    rw [hv] at this
    exact hne this
  by_contra hrd
  rw [Bool.not_eq_false] at hrd
  have := (h.rd f hrd hcount).1
  rw [hv] at this
  exact hne this

theorem pipeCheck_write {nonblock : Bool} {m : Int} {c : Check} (hw : PipeWake s)
    (h : SelectWake none s) (hsize : 0 ≤ (s.vnode v).size)
    (hover : 0 < m ∧ (s.vnode v).size + m ≤ 2147483647)
    (hrun : pipeCheck s p v .writing nonblock m false = some (t, c)) :
    PipeWake t ∧ SelectWake none t ∧ (∀ p, (s.fproc p).blockedOn = .none → t.fproc p = s.fproc p) ∧
      (c = .suspend → (s.vnode v).size ≠ 0 ∧ FindFilp s v .reading) ∧
      ∀ b, c = .bytes b → FindFilp s v .reading ∧ (∀ q, NoneOn t v .read q) ∧
        ∀ f, Unread t v f := by
  have hrel : ∀ {c' : Check}, (release s v .read s.suspCount).map (fun s => (s, c')) =
      some (t, c) → Freed none v .read s t ∧ c = c' := by
    intro c' hmap
    obtain ⟨t', hrelease, heq⟩ := map_eq_some_iff.mp hmap
    cases heq
    exact ⟨release_read hw h hrelease, rfl⟩
  have hbusy := not_waited (v := v) hw h
  have hexact : int32 ((s.vnode v).size + m) = (s.vnode v).size + m := by
    unfold int32
    omega
  unfold pipeCheck at hrun
  simp only [Bool.false_eq_true, if_false, and_true, hexact] at hrun
  split_ifs at hrun with hr hfull hnb hsmall hroom hroom hzero
  · cases hrun
    exact ⟨hw, h, fun _ _ => rfl, fun heq => (by cases heq), fun b heq => (by cases heq)⟩
  · obtain ⟨hf, rfl⟩ := hrel hrun
    exact ⟨hf.pipe, hf.select, hf.idle, fun heq => (by cases heq),
      fun b _ => ⟨hr, hf.none, hf.unread rfl⟩⟩
  · cases hrun
    exact ⟨hw, h, fun _ _ => rfl, fun heq => (by cases heq), fun b heq => (by cases heq)⟩
  · obtain ⟨hf, rfl⟩ := hrel hrun
    exact ⟨hf.pipe, hf.select, hf.idle, fun heq => (by cases heq),
      fun b _ => ⟨hr, hf.none, hf.unread rfl⟩⟩
  · cases hrun
    refine ⟨hw, h, fun _ _ => rfl, fun _ => ⟨fun hzero => ?_, hr⟩, fun b heq => (by cases heq)⟩
    -- on an empty pipe a write fits, or a part of it
    apply hroom
    rw [hzero] at hfull ⊢
    unfold pipeBuf at hfull ⊢
    omega
  · obtain ⟨hf, rfl⟩ := hrel hrun
    exact ⟨hf.pipe, hf.select, hf.idle, fun heq => (by cases heq),
      fun b _ => ⟨hr, hf.none, hf.unread rfl⟩⟩
  · cases hrun
    exact ⟨hw, h, fun _ _ => rfl, fun heq => (by cases heq), fun b _ => ⟨hr, hbusy hzero⟩⟩
  · cases hrun
    exact ⟨hw.note, h.note, fun _ _ => rfl, fun heq => (by cases heq), fun b heq => (by cases heq)⟩

theorem finish_wake {d : State × Result} (h : PipeWake d.1 ∧ SelectWake none d.1) :
    PipeWake (finish p d) ∧ SelectWake none (finish p d) := by
  unfold finish
  split
  · exact h
  · exact ⟨h.1.note, h.2.note⟩

theorem Asleep.not_none (hb : x.blockedOn = .none) : ¬ Asleep x := by
  rintro ⟨hp, -⟩
  rw [hb] at hp
  cases hp

theorem setProc_wake (hw : PipeWake s) (h : SelectWake busy s)
    (hb : (s.fproc p).blockedOn = .none) (hx : x.blockedOn = .none) (hrev : x.revived = false) :
    PipeWake (s.setProc p x) ∧ SelectWake busy (s.setProc p x) :=
  ⟨hw.setProc (Asleep.not_none hb) hx hrev, h.setProc (by rw [hb]; decide) (by rw [hx]; decide)⟩

theorem partly_wake (hw : PipeWake s) (h : SelectWake busy s)
    (hb : (s.fproc p).blockedOn = .none) (hx : x.blockedOn = .none) (hrev : x.revived = false)
    (hused : x.used = true)
    (hsize : (s.vnode (s.filp f).vno).size ≠ 0 ∧ FindFilp s (s.filp f).vno .reading) :
    PipeWake (pipeSuspend (s.setProc p x) p f buf n Rw.writing.callNr) ∧
      SelectWake busy (pipeSuspend (s.setProc p x) p f buf n Rw.writing.callNr) := by
  obtain ⟨hw', h'⟩ := setProc_wake hw h hb hx hrev
  have hself : (s.setProc p x).fproc p = x := update_self _ _ _
  refine ⟨hw'.pipeSuspend ?_ ?_ (fun heq => (by cases heq)) fun _ => hsize, h'.pipeSuspend ?_⟩
  · rw [hself]
    exact hx
  · rw [hself]
    exact hused
  · rw [hself, hx]
    decide

theorem rwPipe_wake {d : State × Result} (hw : PipeWake s) (h : SelectWake none s)
    (hb : (s.fproc p).blockedOn = .none) (hused : (s.fproc p).used = true)
    (hsize : ∀ v, (s.vnode v).size = (s.vnode v).content.length ∧
      ((s.vnode v).content.length : Int) ≤ pipeBuf)
    (hn : 0 < n ∧ (rw = .writing → n = buf.length))
    (hover : rw = .writing → (s.vnode (s.filp f).vno).size + n ≤ 2147483647)
    (hlast : rw = .reading → (s.vnode (s.filp f).vno).size ≠ 0 →
      (s.vnode (s.filp f).vno).size ≤ n → ∀ q, NoneOn s (s.filp f).vno .write q)
    (hrun : rwPipe s rw p f buf n = some d) : PipeWake d.1 ∧ SelectWake none d.1 := by
  obtain ⟨⟨t, chk⟩, hcheck, rfl⟩ := map_eq_some_iff.mp hrun
  have hrev := hw.revived p (by rw [hb]; decide)
  cases rw with
  | reading =>
    obtain ⟨hl, hsusp, -, hsame⟩ := pipeCheck_look hw h hcheck
    have hb' : (t.fproc p).blockedOn = .none := by
      rw [hl.idle p hb]
      exact hb
    cases chk with
    | suspend =>
      obtain ⟨hzero, hfind⟩ := hsusp rfl
      refine ⟨hl.pipe.pipeSuspend hb' (by rw [hl.idle p hb]; exact hused) (fun _ => ?_)
        (fun heq => (by cases heq)), hl.select.pipeSuspend (by rw [hb']; decide)⟩
      rw [(hl.eased.filp f).vno, hl.eased.vnode]
      exact ⟨hzero, hfind.congr hl.eased.filp⟩
    | err e => exact ⟨hl.pipe, hl.select⟩
    | bytes m =>
      by_cases hm : m ≤ 0
      · simp only [if_pos hm]
        exact ⟨hl.pipe, hl.select⟩
      obtain ⟨hne, rfl⟩ : (s.vnode (s.filp f).vno).size ≠ 0 ∧ m = n := by
        obtain ⟨-, ⟨hne, heq⟩ | ⟨-, heq⟩⟩ := pipeCheck_reading hcheck
        · cases heq
          exact ⟨hne, rfl⟩
        obtain heq | ⟨e, heq⟩ | heq := heq
        · cases heq
        · cases heq
        · cases heq
          exact absurd (le_refl 0) hm
      obtain rfl := hsame hne
      simp only [if_neg hm, lt_irrefl, false_and, if_false, true_and]
      obtain ⟨hlen, hroom⟩ := hsize (t.filp f).vno
      obtain ⟨hnone, hunread⟩ := not_waited hw h hne
      generalize hk : (if (n : Int) > (t.vnode (t.filp f).vno).size then
        (t.vnode (t.filp f).vno).size.toNat else (n : Int).toNat) = k
      have hwrite : int32 (((t.vnode (t.filp f).vno).content.drop k).length : Int) = 0 →
          ∀ q, NoneOn t (t.filp f).vno .write q := by
        intro hzero
        apply hlast rfl hne
        rw [int32_of_le (by omega) (by rw [List.length_drop]; omega), List.length_drop] at hzero
        rw [← hk] at hzero
        split_ifs at hzero with hbig
        · omega
        · omega
      have hpipe : PipeWake (reqReadwrite t p (t.filp f).vno .reading buf k) :=
        hw.resize (fun _ => hnone) hwrite
      have hselect : SelectWake none (reqReadwrite t p (t.filp f).vno .reading buf k) :=
        h.resize fun _ => hunread
      exact setProc_wake hpipe hselect hb hb hrev
  | writing =>
    obtain ⟨hlen, hroom⟩ := hsize (s.filp f).vno
    have hmax := hover rfl
    obtain ⟨hpipe, hselect, hidle, hsusp, hbytes⟩ :=
      pipeCheck_write hw h (by omega) ⟨by omega, hmax⟩ hcheck
    have heased : Eased s t := pipeCheck_eased hcheck
    have hproc := hidle p hb
    cases chk with
    | suspend =>
      obtain ⟨hne, hfind⟩ := hsusp rfl
      refine ⟨hpipe.pipeSuspend (by rw [hproc]; exact hb) (by rw [hproc]; exact hused)
        (fun heq => (by cases heq)) (fun _ => ?_), hselect.pipeSuspend (by rw [hproc, hb]; decide)⟩
      rw [(heased.filp f).vno, heased.vnode]
      exact ⟨hne, hfind.congr heased.filp⟩
    | err e => exact ⟨hpipe, hselect⟩
    | bytes m =>
      by_cases hm : m ≤ 0
      · simp only [if_pos hm]
        exact ⟨hpipe, hselect⟩
      obtain ⟨hfind, hnone, hunread⟩ := hbytes m rfl
      have hbuf := hn.2 rfl
      obtain ⟨-, hmn, hfit, -⟩ := pipeCheck_room (by omega) hn.1 hmax hcheck
      simp only [if_neg hm, reduceCtorEq, false_and, if_false]
      have hvnode : t.vnode (s.filp f).vno = s.vnode (s.filp f).vno := by rw [heased.vnode]
      -- the pipe is not empty afterwards
      have hlength : (((t.vnode (s.filp f).vno).content ++ buf.take m.toNat).length : Int) =
          (s.vnode (s.filp f).vno).size + m := by
        rw [hvnode, List.length_append, List.length_take, hlen]
        omega
      have hne : int32 (((t.vnode (s.filp f).vno).content ++ buf.take m.toNat).length : Int)
          ≠ 0 := by
        rw [hlength, int32_of_le (by omega) hfit]
        omega
      have hpipe' : PipeWake (reqReadwrite t p (s.filp f).vno .writing buf m.toNat) :=
        hpipe.resize (fun _ => hnone) fun hzero => absurd hzero hne
      have hselect' : SelectWake none (reqReadwrite t p (s.filp f).vno .writing buf m.toNat) :=
        hselect.resize fun _ => hunread
      have hb' : ((reqReadwrite t p (s.filp f).vno .writing buf m.toNat).fproc p).blockedOn =
          .none := by
        show (t.fproc p).blockedOn = .none
        rw [hproc]
        exact hb
      have hrev' : ((reqReadwrite t p (s.filp f).vno .writing buf m.toNat).fproc p).revived =
          false := by
        show (t.fproc p).revived = false
        rw [hproc]
        exact hrev
      have hused' : ((reqReadwrite t p (s.filp f).vno .writing buf m.toNat).fproc p).used =
          true := by
        show (t.fproc p).used = true
        rw [hproc]
        exact hused
      have hsize' : ((reqReadwrite t p (s.filp f).vno .writing buf m.toNat).vnode
          (s.filp f).vno).size ≠ 0 := by
        show (update t.vnode (s.filp f).vno _ (s.filp f).vno).size ≠ 0
        rw [update_self]
        exact hne
      have hfind' : FindFilp (reqReadwrite t p (s.filp f).vno .writing buf m.toNat)
          (s.filp f).vno .reading := hfind.congr heased.filp
      have hvno : ((reqReadwrite t p (s.filp f).vno .writing buf m.toNat).filp f).vno =
          (s.filp f).vno := (heased.filp f).vno
      generalize reqReadwrite t p (s.filp f).vno .writing buf m.toNat = u at *
      split_ifs with hpart
      · apply partly_wake hpipe' hselect' hb'
        · exact hb'
        · exact hrev'
        · exact hused'
        · rw [hvno]
          exact ⟨hsize', hfind'⟩
      · exact setProc_wake hpipe' hselect' hb' hb' hrev'

/-! ## Requests -/

/-- Nobody sleeps in vain between requests. -/
def Wake (s : State) : Prop := PipeWake s ∧ SelectWake none s

theorem Wake.note (h : Wake s) : Wake (s.note ev) := ⟨h.1.note, h.2.note⟩

/-- A read that takes the last byte finds no process asleep that would write. -/
def Drains (s : State) (f : FilpPtr) (n : Nat) : Prop :=
  (s.vnode (s.filp f).vno).size ≠ 0 → (s.vnode (s.filp f).vno).size ≤ n →
    ∀ q, NoneOn s (s.filp f).vno .write q

variable {run : Option Slot} {a : Fifo}

theorem Agree.sizes (ha : Agree run a s) (v : VnodePtr) :
    (s.vnode v).size = (s.vnode v).content.length ∧ ((s.vnode v).content.length : Int) ≤ pipeBuf :=
  ⟨ha.size v, ha.room v⟩

theorem doReadWrite_wake (ha : Agree none a s) (hw : Wake s)
    (hen : (s.fproc p).used = true ∧ (s.fproc p).blockedOn = .none)
    (hbuf : rw = .writing → n = buf.length)
    (hover : rw = .writing → n ≤ ssizeMax → (s.vnode (s.filp f).vno).size + n ≤ 2147483647)
    (hlast : rw = .reading → n ≤ ssizeMax → Drains s f n)
    (hrun : doReadWrite s rw p f buf n = some s') : Wake s' := by
  unfold doReadWrite at hrun
  split_ifs at hrun with hopen hzero hmax hcum
  · cases hrun
    exact hw.note
  · cases hrun
    exact hw.note
  · cases hrun
    exact hw.note
  obtain ⟨d, hrw, rfl⟩ := map_eq_some_iff.mp hrun
  have hle : n ≤ ssizeMax := Nat.le_of_not_lt hmax
  apply finish_wake
  exact rwPipe_wake hw.1.note hw.2.note hen.2 hen.1 ha.sizes
    ⟨Nat.pos_of_ne_zero hzero, hbuf⟩ (fun heq => hover heq hle) (fun heq => hlast heq hle) hrw

theorem Wake.withReviving {m : Int} (h : Wake s) : Wake { s with reviving := m } :=
  ⟨⟨h.1.kinds, h.1.revived, h.1.used, h.1.suspCount, h.1.count, h.1.ends, h.1.justified⟩,
    h.2.congr rfl rfl rfl rfl fun _ _ => Iff.rfl⟩

theorem doPendingPipe_wake {c : PCall} (ha : Agree none a s) (hw : Wake s)
    (hold : (s.fproc p).blockedOn ≠ .select ∧ ¬ Asleep (s.fproc p))
    (hx : x.blockedOn = .none ∧ x.revived = false ∧ x.used = true) (hwaits : Waits s x c)
    (hlast : ∀ f, x.file = .filp (some f) → x.blockCallnr = .read → Drains s f x.ioNbytes)
    (hrun : doPendingPipe (s.setProc p x) p = some s') : Wake s' := by
  obtain ⟨f, rw, hfile, hnr, hsmall, hfits⟩ := hwaits
  have hself : ∀ y, (s.setProc p y).fproc p = y := fun y => update_self _ _ _
  obtain ⟨d, hrw, rfl⟩ := doPendingPipe_some (hself x) hfile hnr hrun
  rw [setProc_setProc] at hrw
  apply finish_wake
  have hset : PipeWake (s.setProc p { x with file := .filp none }) :=
    hw.1.setProc hold.2 hx.1 hx.2.1
  have hsel : SelectWake none (s.setProc p { x with file := .filp none }) :=
    hw.2.setProc hold.1 (by show x.blockedOn ≠ .select; rw [hx.1]; decide)
  refine rwPipe_wake hset hsel (by rw [hself]; exact hx.1) (by rw [hself]; exact hx.2.2) ha.sizes
    ?_ (fun heq => ?_) (fun heq hne hle q hq hop g hg => ?_) hrw
  · cases hfits with
    | read hcum hn hmax => exact ⟨hn, fun heq => (by cases heq)⟩
    | write hcum hbuf hn hmax hwhole => exact ⟨hn, fun _ => hbuf⟩
  · have hroom := ha.room (s.filp f).vno
    have hle := hsmall heq
    show (s.vnode (s.filp f).vno).size + (x.ioNbytes : Int) ≤ 2147483647
    rw [ha.size]
    omega
  -- another process that sleeps was asleep before
  have hqp : q ≠ p := by
    rintro rfl
    rw [hself] at hq
    exact Asleep.not_none hx.1 hq
  have hsame : (s.setProc p { x with file := .filp none }).fproc q = s.fproc q :=
    update_of_ne hqp _ _
  rw [hsame] at hq hop hg
  subst heq
  exact hlast f hfile (by rw [hnr]; rfl) hne hle q hq hop g hg

theorem unblock_wake (ha : Agree none a s) (hw : Wake s)
    (hen : (s.fproc p).used = true ∧ (s.fproc p).blockedOn = .pipe ∧ (s.fproc p).revived = true)
    (hlast : ∀ f, (s.fproc p).file = .filp (some f) → (s.fproc p).blockCallnr = .read →
      Drains s f (s.fproc p).ioNbytes)
    (hrun : unblock s p = some s') : Wake s' := by
  obtain ⟨c, -, hwaits⟩ := ha.waits p (by simp) hen.2.1
  unfold unblock at hrun
  split_ifs at hrun with hrev
  apply doPendingPipe_wake (x := { s.fproc p with blockedOn := .none, revived := false })
    (ha.withReviving (k := s.reviving - 1)) hw.withReviving _ ⟨rfl, rfl, hen.1⟩ hwaits hlast hrun
  refine ⟨?_, fun hsleep => ?_⟩
  · show (s.fproc p).blockedOn ≠ .select
    rw [hen.2.1]
    decide
  · have hno : (s.fproc p).revived = false := hsleep.2
    rw [hen.2.2] at hno
    cases hno

/-! ## Closing and duplicating -/

theorem refile_wake {b : Filp} {fds : Slot → FilpPtr → Nat} (hw : Wake s)
    (hvno : b.vno = (s.filp f).vno) (hops : b.pipeSelectOps = (s.filp f).pipeSelectOps)
    (hsel : b.selectors = (s.filp f).selectors)
    (hcount : ∀ g, (update s.filp f b g).count = ∑ q, (fds q g : Int))
    (hends : (b.rBit && b.wBit) = false)
    (hopened : ∀ q g, (s.fproc q).blockedOn = .select → s.fds q g ≠ 0 → fds q g ≠ 0)
    (hlive : 1 ≤ b.count → 1 ≤ (s.filp f).count)
    (hwriting : ∀ w, FindFilp s w .writing → FindFilp { s.setFilp f b with fds := fds } w .writing ∨
        (∀ q, NoneOn s w .read q) ∧ ∀ g, Unread s w g)
    (hreading : ∀ w, FindFilp s w .reading →
      FindFilp { s.setFilp f b with fds := fds } w .reading ∨ ∀ q, NoneOn s w .write q) :
    Wake { s.setFilp f b with fds := fds } := by
  obtain ⟨hpipe, hselect⟩ := hw
  generalize hu : ({ s.setFilp f b with fds := fds } : State) = u at hwriting hreading ⊢
  have hself : u.filp f = b := by
    rw [← hu]
    exact update_self _ _ _
  have hother : ∀ g, g ≠ f → u.filp g = s.filp g := by
    intro g hg
    rw [← hu]
    exact update_of_ne hg _ _
  have hproc : u.fproc = s.fproc := by
    rw [← hu]
    rfl
  have htab : u.selecttab = s.selecttab := by
    rw [← hu]
    rfl
  have hvnode : u.vnode = s.vnode := by
    rw [← hu]
    rfl
  have hfds : u.fds = fds := by
    rw [← hu]
  have hvnos : ∀ g, (u.filp g).vno = (s.filp g).vno := by
    intro g
    by_cases hg : g = f
    · subst hg
      rw [hself]
      exact hvno
    · rw [hother g hg]
  have hopss : ∀ g, (u.filp g).pipeSelectOps = (s.filp g).pipeSelectOps ∧
      (u.filp g).selectors = (s.filp g).selectors := by
    intro g
    by_cases hg : g = f
    · subst hg
      rw [hself]
      exact ⟨hops, hsel⟩
    · rw [hother g hg]
      exact ⟨rfl, rfl⟩
  have hlives : ∀ g, 1 ≤ (u.filp g).count → 1 ≤ (s.filp g).count := by
    intro g
    by_cases hg : g = f
    · subst hg
      rw [hself]
      exact hlive
    · rw [hother g hg]
      exact id
  refine ⟨⟨fun q => ?_, fun q hq => ?_, fun q hq => ?_, ?_, fun g => ?_, fun g => ?_,
    fun q hq g hg => ?_⟩, ⟨fun j q hj hq => ?_, fun j j' q hj hj' hq hq' => ?_,
    fun q hq hb => ?_, fun j q hj hq => ?_, fun g => ?_, fun g hrd hone => ?_, fun g => ?_⟩⟩
  · rw [hproc]
    exact hpipe.kinds q
  · rw [hproc] at hq ⊢
    exact hpipe.revived q hq
  · rw [hproc] at hq ⊢
    exact hpipe.used q hq
  · rw [hproc, ← hpipe.suspCount, ← hu]
    rfl
  · rw [hfds, ← hcount g, ← hu]
    rfl
  · by_cases hg : g = f
    · subst hg
      rw [hself]
      exact hends
    · rw [hother g hg]
      exact hpipe.ends g
  · rw [hproc] at hq hg ⊢
    have hold := hpipe.justified q hq g hg
    rw [hvnos, hvnode]
    refine ⟨fun hop => ⟨(hold.1 hop).1, ?_⟩, fun hop => ⟨(hold.2 hop).1, ?_⟩⟩
    · obtain hfind | ⟨hnone, -⟩ := hwriting _ (hold.1 hop).2
      · exact hfind
      · exact absurd rfl (hnone q hq hop g hg)
    · obtain hfind | hnone := hreading _ (hold.2 hop).2
      · exact hfind
      · exact absurd rfl (hnone q hq hop g hg)
  · rw [htab] at hq
    rw [hproc]
    exact hselect.entry j q hj hq
  · rw [htab] at hq hq'
    exact hselect.unique j j' q hj hj' hq hq'
  · rw [hproc] at hb
    rw [htab]
    exact hselect.asked q hq hb
  · rw [htab] at hq ⊢
    obtain ⟨hblock, hready, hrs, hwr, hopen, hreg⟩ := hselect.sleeps j q hj hq
    have hb := (hselect.entry j q hj hq).1
    refine ⟨hblock, hready, hrs, hwr, fun d hd g hg => ?_, fun d hd g hg hwant => ?_⟩
    · rw [hfds]
      exact hopened q g hb (hopen d hd g hg)
    · rw [(hopss g).1]
      exact hreg d hd g hg hwant
  · rw [(hopss g).1]
    exact hselect.wr g
  · rw [(hopss g).1] at hrd
    have hlive' := hlives g hone
    obtain ⟨hsize, hfind⟩ := hselect.rd g hrd hlive'
    rw [hvnos, hvnode]
    refine ⟨hsize, ?_⟩
    obtain hfind' | ⟨-, hunread⟩ := hwriting _ hfind
    · exact hfind'
    · have := hunread g hlive' rfl
      rw [hrd] at this
      cases this
  · rw [htab, (hopss g).2]
    exact hselect.selectors g

theorem PipeWake.count_pos (h : PipeWake s) (hf : s.fds p f ≠ 0) : 1 ≤ (s.filp f).count := by
  rw [h.count f]
  have hle : (s.fds p f : Int) ≤ ∑ q, (s.fds q f : Int) :=
    Finset.single_le_sum (f := fun q => (s.fds q f : Int)) (fun q _ => by omega)
      (Finset.mem_univ p)
  omega

theorem dup_wake (hw : Wake s) (hf : s.fds p f ≠ 0) : Wake (dup s q f) := by
  have hpos := hw.1.count_pos hf
  have hfind : ∀ w rw, FindFilp s w rw → FindFilp (dup s q f) w rw := by
    rintro w rw ⟨g, hcount, hvno, hbit⟩
    by_cases hg : g = f
    · subst hg
      have hself : (dup s q g).filp g = { s.filp g with count := (s.filp g).count + 1 } :=
        update_self _ _ _
      refine ⟨g, ?_, ?_, ?_⟩
      · rw [hself]
        show (s.filp g).count + 1 ≠ 0
        omega
      · rw [hself]
        exact hvno
      · rw [hself]
        exact hbit
    have hsame : (dup s q f).filp g = s.filp g := update_of_ne hg _ _
    refine ⟨g, ?_, ?_, ?_⟩
    · rw [hsame]
      exact hcount
    · rw [hsame]
      exact hvno
    · rw [hsame]
      exact hbit
  apply refile_wake (b := { s.filp f with count := (s.filp f).count + 1 }) hw rfl rfl rfl _
    (hw.1.ends f) _ (fun _ => hpos) (fun w hw => .inl (hfind w _ hw))
    fun w hw => .inl (hfind w _ hw)
  · intro g
    have hrest : ∀ j, j ≠ q → ((update s.fds q
        (update (s.fds q) f (s.fds q f + 1)) j g : Nat) : Int) = s.fds j g :=
      fun j hj => by rw [update_of_ne hj]
    rw [sum_change q (a := fun j => (s.fds j g : Int)) hrest, update_self, ← hw.1.count g]
    by_cases hg : g = f
    · subst hg
      rw [update_self, update_self]
      push_cast
      show (s.filp g).count + 1 = _
      omega
    · rw [update_of_ne hg, update_of_ne hg]
      omega
  intro j g _ hj
  by_cases hjq : j = q
  · subst hjq
    rw [update_self]
    by_cases hg : g = f
    · subst hg
      rw [update_self]
      omega
    · rw [update_of_ne hg]
      exact hj
  · rw [update_of_ne hjq]
    exact hj

theorem FindFilp.of_other (hother : ∀ g, g ≠ f → s'.filp g = s.filp g) (h : FindFilp s v rw) :
    FindFilp s' v rw ∨ v = (s.filp f).vno ∧
      (rw = .reading → (s.filp f).rBit = true) ∧ (rw = .writing → (s.filp f).wBit = true) := by
  obtain ⟨g, hcount, hvno, hbit⟩ := h
  by_cases hg : g = f
  · subst hg
    refine .inr ⟨hvno.symm, fun heq => ?_, fun heq => ?_⟩
    · subst heq
      exact hbit
    · subst heq
      exact hbit
  have hsame := hother g hg
  refine .inl ⟨g, ?_, ?_, ?_⟩
  · rw [hsame]
    exact hcount
  · rw [hsame]
    exact hvno
  · rw [hsame]
    exact hbit

theorem closeFilp_wake (hw : Wake s) (hb : (s.fproc p).blockedOn = .none) (hf : s.fds p f ≠ 0)
    (hrun : closeFilp s p f = some s') : Wake s' := by
  unfold closeFilp at hrun
  obtain ⟨t, hrel, hrun⟩ := bind_eq_some_iff.mp hrun
  -- who waits for what this end gives is awake
  have hfreed : Freed none (s.filp f).vno (if (s.filp f).rBit = true then .write else .read)
      s t := by
    split_ifs at hrel ⊢
    · exact (release_write hw.1 hw.2 hrel).1
    · exact release_read hw.1 hw.2 hrel
  have hsame := hfreed.eased.filp f
  have hends := hfreed.pipe.ends f
  have hft : t.fds p f ≠ 0 := by
    rw [hfreed.eased.fds]
    exact hf
  have hpos := hfreed.pipe.count_pos hft
  have hbt : (t.fproc p).blockedOn = .none := by
    rw [hfreed.idle p hb]
    exact hb
  have hclose : ∀ b : Filp, b.vno = (t.filp f).vno → b.pipeSelectOps = (t.filp f).pipeSelectOps →
      b.selectors = (t.filp f).selectors → b.count = (t.filp f).count - 1 →
      (b.rBit && b.wBit) = false →
      (b.count ≠ 0 → b.rBit = (t.filp f).rBit ∧ b.wBit = (t.filp f).wBit) →
      Wake { t.setFilp f b with
        fds := update t.fds p (update (t.fds p) f (t.fds p f - 1)) } := by
    intro b hvno hops hsel hcount hbits hkeep
    have hother : ∀ g, g ≠ f → State.filp { t.setFilp f b with
        fds := update t.fds p (update (t.fds p) f (t.fds p f - 1)) } g =
        t.filp g := fun g hg => update_of_ne hg _ _
    refine refile_wake ⟨hfreed.pipe, hfreed.select⟩ hvno hops hsel (fun g => ?_) hbits
      (fun q g hq hqg => ?_) (fun _ => hpos) (fun w hw => ?_) (fun w hw => ?_)
    · have hrest : ∀ j, j ≠ p → ((update t.fds p
          (update (t.fds p) f (t.fds p f - 1)) j g : Nat) : Int) = t.fds j g :=
        fun j hj => by rw [update_of_ne hj]
      rw [sum_change p (a := fun j => (t.fds j g : Int)) hrest, update_self, ← hfreed.pipe.count g]
      by_cases hg : g = f
      · subst hg
        rw [update_self, update_self, hcount]
        omega
      · rw [update_of_ne hg, update_of_ne hg]
        omega
    · have hqp : q ≠ p := by
        rintro rfl
        rw [hbt] at hq
        cases hq
      rw [update_of_ne hqp]
      exact hqg
    · obtain hok | ⟨rfl, -, hbit⟩ := hw.of_other hother
      · exact .inl hok
      have hr : (s.filp f).rBit = false := by
        rw [← hsame.rBit]
        rw [hbit rfl, Bool.and_true] at hends
        exact hends
      rw [hr, if_neg (by simp)] at hfreed
      rw [hsame.vno]
      exact .inr ⟨hfreed.none, hfreed.unread rfl⟩
    obtain hok | ⟨rfl, hbit, -⟩ := hw.of_other hother
    · exact .inl hok
    have hr : (s.filp f).rBit = true := by
      rw [← hsame.rBit]
      exact hbit rfl
    rw [hr, if_pos rfl] at hfreed
    rw [hsame.vno]
    exact .inr hfreed.none
  dsimp only at hrun
  split_ifs at hrun with hneg hlast
  · cases hrun
    exact hclose _ rfl rfl rfl hlast.symm rfl fun hne => absurd rfl hne
  · cases hrun
    exact hclose _ rfl rfl rfl rfl hends fun _ => ⟨rfl, rfl⟩

end HardenedMinix.Pipe
