import HardenedMinix.Kernel.Interrupts

/-!
# What holds of an interrupt line

The hooks of a line have different one-bit ids, the active ids are ids of hooks of the line, and
the line is open if and only if it has a hook and no active id.
-/

open Function List

namespace HardenedMinix.Kernel.Interrupts

open HardenedMinix.Lib

variable {ι : Type}

namespace State

variable {s s' : State ι} {x : ι} {l irq : Int} {id : Id} {k : Nat}

/-! ## Ids as bits -/

theorem twoPow_eq_iff {i j : Nat} (hi : i < 32) : BitVec.twoPow 32 i = BitVec.twoPow 32 j ↔ i = j := by
  refine ⟨fun heq => ?_, fun heq => heq ▸ rfl⟩
  have hbit := congrArg (fun x : Id => x.getLsbD i) heq
  simp only [BitVec.getLsbD_twoPow, hi, decide_true, Bool.true_and, Bool.true_eq,
    Bool.and_eq_true, decide_eq_true_eq] at hbit
  exact hbit.2.symm

theorem and_twoPow_eq_zero_iff {x : Id} (hk : k < 32) :
    x &&& BitVec.twoPow 32 k = 0 ↔ x.getLsbD k = false := by
  rw [BitVec.and_twoPow]
  cases hx : x.getLsbD k with
  | false => simp
  | true =>
    refine iff_of_false (fun heq => ?_) (by simp)
    have hbit := congrArg (fun x : Id => x.getLsbD k) heq
    simp [hk] at hbit

theorem getLsbD_foldl_or (f : ι → Id) (line : List ι) (x : Id) :
    (line.foldl (fun ids h => ids ||| f h) x).getLsbD k = true ↔
      x.getLsbD k = true ∨ ∃ h ∈ line, (f h).getLsbD k = true := by
  induction line generalizing x with
  | nil => simp
  | cons h line ih =>
    rw [foldl_cons, ih, BitVec.getLsbD_or, Bool.or_eq_true, or_assoc, exists_mem_cons_iff]

theorem lowestId_eq_some {ids id : Id} (h : lowestId ids = some id) :
    ∃ k < 32, id = BitVec.twoPow 32 k ∧ ids.getLsbD k = false := by
  obtain ⟨k, hk, rfl⟩ := List.mem_map.mp (mem_of_find?_eq_some h)
  have hk' := mem_range.mp hk
  have hfree := List.find?_some h
  exact ⟨k, hk', rfl, (and_twoPow_eq_zero_iff hk').mp (of_decide_eq_true hfree)⟩

/-! ## The invariant -/

/-- The hooks of a line have different one-bit ids, and what is active is among them. -/
structure Hooks (s : State ι) (l : Int) : Prop where
  own : ∀ h ∈ s.irqHandlers l, (s.hook h).irq = l
  bit : ∀ h ∈ s.irqHandlers l, ∃ k < 32, (s.hook h).id = BitVec.twoPow 32 k
  distinct : (s.irqHandlers l).Pairwise fun h h' => (s.hook h).id ≠ (s.hook h').id
  active : ∀ k, (s.irqActids l).getLsbD k = true →
    ∃ h ∈ s.irqHandlers l, (s.hook h).id = BitVec.twoPow 32 k

/-- The line is open exactly if it has a hook and none of its ids is active. -/
def Open (s : State ι) (l : Int) : Prop :=
  s.unmasked l = true ↔ s.irqHandlers l ≠ [] ∧ s.irqActids l = 0

/-- A line that no hook has been put on may be open. -/
structure Line (s : State ι) (l : Int) : Prop extends Hooks s l where
  mask : s.irqHandlers l ≠ [] → s.Open l

structure SameLine (s s' : State ι) (l : Int) : Prop where
  irqHandlers : s'.irqHandlers l = s.irqHandlers l
  irqActids : s'.irqActids l = s.irqActids l
  unmasked : s'.unmasked l = s.unmasked l
  hook : ∀ h ∈ s.irqHandlers l, s'.hook h = s.hook h

theorem SameLine.hooks (hsame : SameLine s s' l) (h : Hooks s l) : Hooks s' l := by
  obtain ⟨hhandlers, hactids, -, hhook⟩ := hsame
  refine ⟨fun x hx => ?_, fun x hx => ?_, ?_, fun k hk => ?_⟩
  · rw [hhandlers] at hx
    rw [hhook x hx]
    exact h.own x hx
  · rw [hhandlers] at hx
    rw [hhook x hx]
    exact h.bit x hx
  · rw [hhandlers]
    refine h.distinct.imp_of_mem fun hx hy hne => ?_
    rwa [hhook _ hx, hhook _ hy]
  rw [hactids] at hk
  obtain ⟨x, hx, hid⟩ := h.active k hk
  refine ⟨x, hhandlers ▸ hx, ?_⟩
  rw [hhook x hx]
  exact hid

theorem SameLine.mask (hsame : SameLine s s' l) (h : s.Open l) : s'.Open l := by
  unfold Open at *
  rw [hsame.irqHandlers, hsame.irqActids, hsame.unmasked]
  exact h

theorem SameLine.line (hsame : SameLine s s' l) (h : Line s l) : Line s' l :=
  ⟨hsame.hooks h.toHooks, fun hne => hsame.mask (h.mask (hsame.irqHandlers ▸ hne))⟩

theorem Hooks.actids_eq_zero (h : Hooks s l) (hnil : s.irqHandlers l = []) : s.irqActids l = 0 := by
  refine BitVec.eq_of_getLsbD_eq fun k _ => ?_
  cases hk : (s.irqActids l).getLsbD k with
  | false => simp
  | true =>
    obtain ⟨x, hx, -⟩ := h.active k hk
    rw [hnil] at hx
    cases hx

theorem Line.masked (h : Line s l) (hact : s.irqActids l ≠ 0) : s.unmasked l = false := by
  have hne : s.irqHandlers l ≠ [] := fun hnil => hact (h.actids_eq_zero hnil)
  rw [← Bool.not_eq_true]
  intro hopen
  exact hact ((h.mask hne).mp hopen).2

/-- A line that has been seen to: its hooks are in order and it is open when it should be. -/
structure Settled (s : State ι) (l : Int) : Prop extends Hooks s l where
  mask : s.Open l

theorem Settled.line (h : Settled s l) : Line s l := ⟨h.toHooks, fun _ => h.mask⟩

theorem Line.settled (h : Line s l) (hne : s.irqHandlers l ≠ []) : Settled s l :=
  ⟨h.toHooks, h.mask hne⟩

theorem SameLine.settled (hsame : SameLine s s' l) (h : Settled s l) : Settled s' l :=
  ⟨hsame.hooks h.toHooks, hsame.mask h.mask⟩

theorem Hooks.of_actids (h : Hooks s l) (hhandlers : s'.irqHandlers l = s.irqHandlers l)
    (hhook : s'.hook = s.hook)
    (hact : ∀ k, (s'.irqActids l).getLsbD k = true →
      (s.irqActids l).getLsbD k = true ∨ ∃ h ∈ s.irqHandlers l, (s.hook h).id = BitVec.twoPow 32 k) :
    Hooks s' l := by
  refine ⟨?_, ?_, ?_, fun k hk => ?_⟩
  · rw [hhandlers, hhook]
    exact h.own
  · rw [hhandlers, hhook]
    exact h.bit
  · rw [hhandlers, hhook]
    exact h.distinct
  · rw [hhandlers, hhook]
    obtain hold | hnew := hact k hk
    · exact h.active k hold
    · exact hnew

/-! ## The operations -/

theorem Hooks.enableIrq (h : Hooks s l) (hl : (s.hook x).irq = l) (hne : s.irqHandlers l ≠ [])
    (hmask : s.irqActids l ≠ 0 → s.unmasked l = false) : Settled (s.enableIrq x) l := by
  subst hl
  set l := (s.hook x).irq
  set ids := s.irqActids l &&& ~~~(s.hook x).id with hids
  have hsub : ∀ k, ids.getLsbD k = true → (s.irqActids l).getLsbD k = true := by
    intro k hk
    rw [hids, BitVec.getLsbD_and, Bool.and_eq_true] at hk
    exact hk.1
  have hhooks {s' : State ι} (hhandlers : s'.irqHandlers l = s.irqHandlers l)
      (hhook : s'.hook = s.hook) (hact : s'.irqActids l = ids) : Hooks s' l :=
    h.of_actids hhandlers hhook fun k hk => .inl (hsub k (hact ▸ hk))
  by_cases hzero : ids = 0
  · have heq : s.enableIrq x = (s.setActids l ids).hwIntrUnmask l := by
      unfold State.enableIrq
      exact if_pos (by simpa using hzero)
    rw [heq]
    exact ⟨hhooks (by simp) (by simp) (by simp), by simp [Open, hne, hzero]⟩
  have heq : s.enableIrq x = s.setActids l ids := by
    unfold State.enableIrq
    exact if_neg (by simpa using hzero)
  rw [heq]
  -- some id was active before, so that the line is masked
  have hold : s.irqActids l ≠ 0 := by
    intro hold
    rw [hids, hold] at hzero
    exact hzero BitVec.zero_and
  refine ⟨hhooks (by simp) (by simp) (by simp), iff_of_false ?_ fun hopen => hzero ?_⟩
  · rw [setActids_unmasked, hmask hold]
    exact Bool.false_ne_true
  · simpa using hopen.2

theorem Hooks.unlink (h : Hooks s l) (hx : x ∈ s.irqHandlers l) :
    Hooks (s.unlink l (s.hook x).id) l ∧
      ∀ k, ((s.unlink l (s.hook x).id).irqActids l).getLsbD k = true →
        (s.irqActids l).getLsbD k = true := by
  have hany : (s.irqHandlers l).any (fun y => (s.hook y).id = (s.hook x).id) = true :=
    List.any_eq_true.mpr ⟨x, hx, by simp⟩
  unfold State.unlink
  simp only [hany, if_true]
  have hbits (k : Nat) (hk : (s.irqActids l &&& ~~~(s.hook x).id).getLsbD k = true) :
      (s.irqActids l).getLsbD k = true ∧ (s.hook x).id.getLsbD k = false := by
    rw [BitVec.getLsbD_and, Bool.and_eq_true, BitVec.getLsbD_not, Bool.and_eq_true] at hk
    exact ⟨hk.1, by simpa using hk.2.2⟩
  refine ⟨⟨fun y hy => ?_, fun y hy => ?_, ?_, fun k hk => ?_⟩, fun k hk => ?_⟩
  · simp only [setActids_irqHandlers, update_self, mem_filter] at hy
    exact h.own y hy.1
  · simp only [setActids_irqHandlers, update_self, mem_filter] at hy
    exact h.bit y hy.1
  · simp only [setActids_irqHandlers, update_self]
    exact h.distinct.filter _
  · rw [setActids_irqActids] at hk
    obtain ⟨hold, hnot⟩ := hbits k hk
    obtain ⟨y, hy, hid⟩ := h.active k hold
    refine ⟨y, ?_, hid⟩
    simp only [setActids_irqHandlers, update_self, mem_filter]
    refine ⟨hy, decide_eq_true fun heq => ?_⟩
    obtain ⟨j, hj, hbit⟩ := h.bit y hy
    obtain rfl := (twoPow_eq_iff hj).mp (hbit.symm.trans hid)
    rw [← heq, hid] at hnot
    simp [hj] at hnot
  · rw [setActids_irqActids] at hk
    exact (hbits k hk).1

theorem Line.rmIrqHandler (h : Line s l) (hl : (s.hook x).irq = l) (hx : s.Registered x)
    (hvalid : ¬ s.Invalid l) : Settled (s.rmIrqHandler x) l := by
  subst hl
  set l := (s.hook x).irq with hl
  have hx' : x ∈ s.irqHandlers l := hx
  obtain ⟨hhooks, hsub⟩ := h.toHooks.unlink hx'
  unfold State.rmIrqHandler
  simp only [← hl]
  rw [if_neg hvalid]
  set t := s.unlink l (s.hook x).id with ht
  have hopen : t.unmasked = s.unmasked := by
    rw [ht]
    unfold State.unlink
    dsimp only
    split <;> rfl
  split
  case isTrue hnil =>
    refine ⟨hhooks.of_actids rfl rfl fun k hk => .inl hk, ?_⟩
    simp [Open, hnil]
  rename_i hne
  split
  case isTrue hzero =>
    refine ⟨hhooks.of_actids rfl rfl fun k hk => .inl hk, ?_⟩
    simp [Open, hne, hzero]
  rename_i hzero
  refine ⟨hhooks, iff_of_false ?_ fun hopen => hzero hopen.2⟩
  have hold : s.irqActids l ≠ 0 := by
    intro hold
    refine hzero (BitVec.eq_of_getLsbD_eq fun k _ => ?_)
    cases hk : (t.irqActids l).getLsbD k with
    | false => simp
    | true =>
      have hk' := hsub k hk
      simp [hold] at hk'
  rw [hopen, h.masked hold]
  exact Bool.false_ne_true

theorem Line.disableIrq (h : Line s l) (hl : (s.hook x).irq = l) (hx : s.Registered x) :
    Settled (s.disableIrq x).1 l := by
  subst hl
  set l := (s.hook x).irq with hl
  have hx' : x ∈ s.irqHandlers l := hx
  have hne := ne_nil_of_mem hx'
  unfold State.disableIrq
  simp only [← hl]
  split
  case isTrue => exact h.settled hne
  rename_i hnot
  obtain ⟨j, hj, hid⟩ := h.bit x hx'
  refine ⟨h.of_actids rfl rfl fun k hk => ?_, iff_of_false (by simp) fun hopen => ?_⟩
  · simp only [hwIntrMask_irqActids, setActids_irqActids, BitVec.getLsbD_or, Bool.or_eq_true] at hk
    refine hk.imp_right fun hbit => ⟨x, hx', ?_⟩
    rw [hid] at hbit ⊢
    simp only [BitVec.getLsbD_twoPow, Bool.and_eq_true, decide_eq_true_eq] at hbit
    rw [hbit.2]
  have hzero := hopen.2
  simp only [hwIntrMask_irqActids, setActids_irqActids] at hzero
  have hbit := congrArg (fun y : Id => y.getLsbD j)
    (hid.symm.trans (BitVec.or_eq_zero_iff.mp hzero).2)
  simp [hj] at hbit

theorem callHandler_line (ret : ι → Bool) (h : Hooks s l) (hx : x ∈ s.irqHandlers l) :
    Hooks (callHandler l ret s x) l ∧ (callHandler l ret s x).irqHandlers = s.irqHandlers ∧
      (callHandler l ret s x).unmasked = s.unmasked := by
  obtain ⟨j, hj, hid⟩ := h.bit x hx
  have hset : Hooks (s.setActids l (s.irqActids l ||| (s.hook x).id)) l := by
    refine h.of_actids rfl rfl fun k hk => ?_
    rw [setActids_irqActids, BitVec.getLsbD_or, Bool.or_eq_true] at hk
    refine hk.imp_right fun hbit => ⟨x, hx, ?_⟩
    rw [hid] at hbit ⊢
    simp only [BitVec.getLsbD_twoPow, Bool.and_eq_true, decide_eq_true_eq] at hbit
    rw [hbit.2]
  unfold callHandler
  dsimp only
  split
  case isFalse => exact ⟨hset, rfl, rfl⟩
  refine ⟨hset.of_actids rfl rfl fun k hk => .inl ?_, rfl, rfl⟩
  rw [setActids_hook, h.own x hx, setActids_irqActids, BitVec.getLsbD_and, Bool.and_eq_true] at hk
  exact hk.1

theorem callHandlers_line (ret : ι → Bool) (line : List ι) (h : Hooks s l)
    (hsub : ∀ x ∈ line, x ∈ s.irqHandlers l) :
    Hooks (line.foldl (callHandler l ret) s) l ∧
      (line.foldl (callHandler l ret) s).irqHandlers = s.irqHandlers ∧
      (line.foldl (callHandler l ret) s).unmasked = s.unmasked := by
  induction line generalizing s with
  | nil => exact ⟨h, rfl, rfl⟩
  | cons x line ih =>
    obtain ⟨hhooks, hhandlers, hopen⟩ := callHandler_line ret h (hsub x (.head _))
    obtain ⟨hhooks', hhandlers', hopen'⟩ := ih hhooks fun y hy => hhandlers ▸ hsub y (.tail _ hy)
    exact ⟨hhooks', hhandlers'.trans hhandlers, hopen'.trans hopen⟩

theorem Line.irqHandle {ret : ι → Bool} (h : Line s l) (hvalid : ¬ s.Invalid l) :
    Settled (s.irqHandle l ret) l := by
  have hmasked : Hooks (s.hwIntrMask l) l := h.of_actids rfl rfl fun k hk => .inl hk
  unfold State.irqHandle
  rw [if_neg hvalid]
  dsimp only
  split
  case isTrue hnil =>
    refine ⟨hmasked, iff_of_false (by simp) fun hopen => hopen.1 hnil⟩
  rename_i hne
  obtain ⟨hhooks, hhandlers, hopen⟩ := callHandlers_line ret
    ((s.hwIntrMask l).irqHandlers l) hmasked fun _ hx => hx
  set t := ((s.hwIntrMask l).irqHandlers l).foldl (callHandler l ret) (s.hwIntrMask l)
  split
  case isTrue hzero =>
    refine ⟨hhooks.of_actids rfl rfl fun k hk => .inl hk, iff_of_true (by simp) ⟨?_, hzero⟩⟩
    rw [hwIntrUnmask_irqHandlers, hhandlers]
    exact hne
  rename_i hzero
  refine ⟨hhooks, iff_of_false ?_ fun hopen => hzero hopen.2⟩
  rw [hopen, hwIntrMask_unmasked]
  exact Bool.false_ne_true

theorem Line.append (h : Line s l) (hmem : x ∉ s.irqHandlers l) (hx : s'.hook x = ⟨l, id⟩)
    (hother : ∀ y, y ≠ x → s'.hook y = s.hook y) (hact : s'.irqActids = s.irqActids)
    (hhandlers : s'.irqHandlers l = s.irqHandlers l ++ [x])
    (hid : lowestId (s.bitmap l) = some id) : Hooks s' l := by
  obtain ⟨k, hk, rfl, hfree⟩ := lowestId_eq_some hid
  have hold (y : ι) (hy : y ∈ s.irqHandlers l) : s'.hook y = s.hook y :=
    hother y fun heq => hmem (heq ▸ hy)
  have hunused (y : ι) (hy : y ∈ s.irqHandlers l) : (s.hook y).id ≠ BitVec.twoPow 32 k := by
    intro heq
    have hbit := (getLsbD_foldl_or (fun y => (s.hook y).id) (s.irqHandlers l) 0 (k := k)).mpr
      (.inr ⟨y, hy, by simp [heq, hk]⟩)
    rw [bitmap, hbit] at hfree
    cases hfree
  have hcases {P : ι → Prop} (hP : ∀ y ∈ s.irqHandlers l, P y) (hPx : P x) :
      ∀ y ∈ s'.irqHandlers l, P y := by
    intro y hy
    rw [hhandlers, mem_append, mem_singleton] at hy
    obtain hy | rfl := hy
    · exact hP y hy
    · exact hPx
  refine ⟨hcases (fun y hy => ?_) (by rw [hx]), hcases (fun y hy => ?_) ⟨k, hk, by rw [hx]⟩, ?_,
    fun j hj => ?_⟩
  · rw [hold y hy]
    exact h.own y hy
  · rw [hold y hy]
    exact h.bit y hy
  · rw [hhandlers, pairwise_append]
    refine ⟨h.distinct.imp_of_mem fun hy hz hne => ?_, pairwise_singleton .., fun y hy z hz => ?_⟩
    · rwa [hold _ hy, hold _ hz]
    · obtain rfl := mem_singleton.mp hz
      rw [hold y hy, hx]
      exact hunused y hy
  rw [hact] at hj
  obtain ⟨y, hy, heq⟩ := h.active j hj
  refine ⟨y, hhandlers ▸ mem_append_left _ hy, ?_⟩
  rw [hold y hy]
  exact heq

variable [DecidableEq ι]

theorem Line.putIrqHandler (h : Line s irq) (hvalid : ¬ s.Invalid irq) :
    Settled (s.putIrqHandler x irq) irq := by
  unfold State.putIrqHandler
  rw [if_neg hvalid]
  split
  case isTrue hmem => exact h.settled (ne_nil_of_mem hmem)
  rename_i hmem
  split
  case h_1 hnone =>
    -- the panic is for a line whose ids are all in use
    have hne : s.irqHandlers irq ≠ [] := by
      intro hnil
      rw [bitmap, hnil, foldl_nil] at hnone
      exact absurd hnone (by decide)
    exact SameLine.settled (s := s) ⟨rfl, rfl, rfl, fun _ _ => rfl⟩ (h.settled hne)
  case h_2 id hid =>
    refine Hooks.enableIrq ?_ (by simp) (by simp) h.masked
    exact h.append hmem (update_self ..) (fun y hy => update_of_ne hy ..) rfl
      (update_self ..) hid

/-! ## The other lines -/

omit [DecidableEq ι] in
theorem SameLine.refl (s : State ι) (l : Int) : SameLine s s l := ⟨rfl, rfl, rfl, fun _ _ => rfl⟩

omit [DecidableEq ι] in
theorem SameLine.trans {s'' : State ι} (h : SameLine s s' l) (h' : SameLine s' s'' l) :
    SameLine s s'' l := by
  refine ⟨h'.irqHandlers.trans h.irqHandlers, h'.irqActids.trans h.irqActids,
    h'.unmasked.trans h.unmasked, fun x hx => ?_⟩
  rw [h'.hook x (h.irqHandlers ▸ hx), h.hook x hx]

section Other

variable (hne : l ≠ irq)

include hne

omit [DecidableEq ι] in
theorem sameLine_setActids (ids : Id) : SameLine s (s.setActids irq ids) l :=
  ⟨rfl, update_of_ne hne .., rfl, fun _ _ => rfl⟩

omit [DecidableEq ι] in
theorem sameLine_hwIntrMask : SameLine s (s.hwIntrMask irq) l :=
  ⟨rfl, rfl, update_of_ne hne .., fun _ _ => rfl⟩

omit [DecidableEq ι] in
theorem sameLine_hwIntrUnmask : SameLine s (s.hwIntrUnmask irq) l :=
  ⟨rfl, rfl, update_of_ne hne .., fun _ _ => rfl⟩

omit [DecidableEq ι] in
theorem sameLine_enableIrq (hx : (s.hook x).irq = irq) : SameLine s (s.enableIrq x) l := by
  subst hx
  unfold State.enableIrq
  dsimp only
  split
  case isTrue => exact (sameLine_setActids hne _).trans (sameLine_hwIntrUnmask hne)
  case isFalse => exact sameLine_setActids hne _

omit [DecidableEq ι] in
theorem sameLine_unlink : SameLine s (s.unlink irq id) l := by
  have hsame : SameLine s { s with
      irqHandlers := update s.irqHandlers irq
        ((s.irqHandlers irq).filter fun y => (s.hook y).id ≠ id) } l :=
    ⟨update_of_ne hne .., rfl, rfl, fun _ _ => rfl⟩
  unfold State.unlink
  dsimp only
  split
  case isTrue => exact hsame.trans (sameLine_setActids hne _)
  case isFalse => exact hsame

omit [DecidableEq ι] in
theorem sameLine_rmIrqHandler (hx : (s.hook x).irq = irq) : SameLine s (s.rmIrqHandler x) l := by
  subst hx
  unfold State.rmIrqHandler
  dsimp only
  split_ifs
  · exact ⟨rfl, rfl, rfl, fun _ _ => rfl⟩
  · exact (sameLine_unlink hne).trans (sameLine_hwIntrMask hne)
  · exact (sameLine_unlink hne).trans (sameLine_hwIntrUnmask hne)
  · exact sameLine_unlink hne

omit [DecidableEq ι] in
theorem sameLine_disableIrq (hx : (s.hook x).irq = irq) : SameLine s (s.disableIrq x).1 l := by
  subst hx
  unfold State.disableIrq
  dsimp only
  split
  case isTrue => exact .refl s l
  case isFalse => exact (sameLine_setActids hne _).trans (sameLine_hwIntrMask hne)

theorem sameLine_putIrqHandler (hx : x ∉ s.irqHandlers l) : SameLine s (s.putIrqHandler x irq) l := by
  unfold State.putIrqHandler
  split
  case isTrue => exact ⟨rfl, rfl, rfl, fun _ _ => rfl⟩
  split
  case isTrue => exact .refl s l
  split
  case h_1 => exact ⟨rfl, rfl, rfl, fun _ _ => rfl⟩
  case h_2 id hid =>
    have hsame : SameLine s { s with
        hook := update s.hook x ⟨irq, id⟩
        irqHandlers := update s.irqHandlers irq (s.irqHandlers irq ++ [x]) } l :=
      ⟨update_of_ne hne .., rfl, rfl, fun y hy => update_of_ne (ne_of_mem_of_not_mem hy hx) ..⟩
    exact hsame.trans (sameLine_enableIrq hne (by simp))

end Other

omit [DecidableEq ι] in
theorem sameLine_callHandlers (ret : ι → Bool) (hne : l ≠ irq) (line : List ι) (h : Hooks s irq)
    (hsub : ∀ x ∈ line, x ∈ s.irqHandlers irq) :
    SameLine s (line.foldl (callHandler irq ret) s) l := by
  induction line generalizing s with
  | nil => exact .refl s l
  | cons x line ih =>
    obtain ⟨hhooks, hhandlers, -⟩ := callHandler_line ret h (hsub x (.head _))
    refine .trans ?_ (ih hhooks fun y hy => hhandlers ▸ hsub y (.tail _ hy))
    have hown := h.own x (hsub x (.head _))
    unfold callHandler
    dsimp only
    split
    case isTrue =>
      rw [setActids_hook, hown]
      exact (sameLine_setActids hne _).trans (sameLine_setActids hne _)
    case isFalse => exact sameLine_setActids hne _

omit [DecidableEq ι] in
theorem sameLine_irqHandle {ret : ι → Bool} (hne : l ≠ irq) (h : Hooks s irq) :
    SameLine s (s.irqHandle irq ret) l := by
  have hmask := sameLine_hwIntrMask (s := s) hne
  have hmasked : Hooks (s.hwIntrMask irq) irq := h.of_actids rfl rfl fun k hk => .inl hk
  have hloop := hmask.trans (sameLine_callHandlers ret hne _ hmasked fun _ hx => hx)
  unfold State.irqHandle
  dsimp only
  split_ifs
  · exact ⟨rfl, rfl, rfl, fun _ _ => rfl⟩
  · exact hmask
  · exact hloop.trans (sameLine_hwIntrUnmask hne)
  · exact hloop

/-! ## Runs -/

/-- All lines are in order, and open exactly if they should be; that of the slave controller if
`seen` holds. -/
structure Inv (s : State ι) (seen : Prop) : Prop where
  line : ∀ l, Line s l
  settled : ∀ l, (l = cascadeIrq → seen) → Settled s l

variable {seen : Prop} {c : Call ι}

theorem Inv.step_same (h : Inv s seen) (hc : s.Promised c)
    (hne : l ≠ s.lineOf c) : SameLine s (s.step c) l := by
  unfold State.step
  cases c with
  | put x irq =>
    -- a hook of another line would have been registered there
    refine sameLine_putIrqHandler hne fun hx => hne ?_
    have hown := (h.line l).own x hx
    have hreg : s.Registered x := by
      unfold Registered
      rwa [hown]
    exact hown.symm.trans (hc hreg)
  | rm x => exact sameLine_rmIrqHandler hne rfl
  | enable x => exact sameLine_enableIrq hne rfl
  | disable x => exact sameLine_disableIrq hne rfl
  | handle irq ret => exact sameLine_irqHandle hne (h.line irq).toHooks

theorem Inv.step_line (h : Inv s seen) (hc : s.Promised c) :
    Settled (s.step c) (s.lineOf c) ∨ s.Invalid (s.lineOf c) ∧ SameLine s (s.step c) (s.lineOf c) := by
  unfold State.step
  have hpanic {t : State ι} (heq : t = s.panic) : SameLine s t (s.lineOf c) := by
    rw [heq]
    exact ⟨rfl, rfl, rfl, fun _ _ => rfl⟩
  have hline := h.line (s.lineOf c)
  by_cases hvalid : s.Invalid (s.lineOf c)
  · cases c with
    | put x irq => exact .inr ⟨hvalid, hpanic (if_pos hvalid)⟩
    | rm x => exact .inr ⟨hvalid, hpanic (if_pos hvalid)⟩
    | enable x => exact .inl (hline.toHooks.enableIrq rfl (ne_nil_of_mem hc) hline.masked)
    | disable x => exact .inl (hline.disableIrq rfl hc)
    | handle irq ret => exact .inr ⟨hvalid, hpanic (if_pos hvalid)⟩
  refine .inl ?_
  cases c with
  | put x irq => exact hline.putIrqHandler hvalid
  | rm x => exact hline.rmIrqHandler rfl hc hvalid
  | enable x => exact hline.toHooks.enableIrq rfl (ne_nil_of_mem hc) hline.masked
  | disable x => exact hline.disableIrq rfl hc
  | handle irq ret => exact hline.irqHandle hvalid

omit [DecidableEq ι] in
theorem valid_cascadeIrq : ¬ s.Invalid cascadeIrq := by
  unfold Invalid
  cases s.controller <;> decide

theorem Inv.step (h : Inv s seen) (hc : s.Promised c) :
    Inv (s.step c) (seen ∨ s.lineOf c = cascadeIrq) := by
  have hline := h.step_line hc
  refine ⟨fun l => ?_, fun l hl => ?_⟩
  · by_cases hne : l = s.lineOf c
    · subst hne
      obtain hsettled | ⟨-, hsame⟩ := hline
      · exact hsettled.line
      · exact hsame.line (h.line _)
    · exact (h.step_same hc hne).line (h.line l)
  by_cases hne : l = s.lineOf c
  · subst hne
    obtain hsettled | ⟨hinvalid, hsame⟩ := hline
    · exact hsettled
    · refine hsame.settled (h.settled _ fun hcascade => ?_)
      rw [hcascade] at hinvalid
      exact absurd hinvalid valid_cascadeIrq
  · refine (h.step_same hc hne).settled (h.settled l fun hcascade => ?_)
    exact (hl hcascade).resolve_right fun heq => hne (hcascade.trans heq.symm)

omit [DecidableEq ι] in
theorem inv_boot (c : Controller) : Inv (boot c : State ι) (c = .ioApic) := by
  have hhooks (l : Int) : Hooks (boot c : State ι) l := by
    refine ⟨fun x hx => ?_, fun x hx => ?_, List.Pairwise.nil, fun k hk => ?_⟩
    · cases hx
    · cases hx
    · simp [boot] at hk
  refine ⟨fun l => ⟨hhooks l, fun hne => absurd rfl hne⟩, fun l hl => ⟨hhooks l, ?_⟩⟩
  refine iff_of_false (fun hopen => ?_) fun hopen => hopen.1 rfl
  simp only [boot, Bool.and_eq_true, decide_eq_true_eq] at hopen
  rw [hl hopen.2] at hopen
  cases hopen.1

theorem Inv.run (h : Inv s seen) {calls : List (Call ι)} (hcalls : Along State.step Made s calls) :
    Inv (calls.foldl State.step s)
      (seen ∨ ¬ Along State.step (fun s c => s.lineOf c ≠ cascadeIrq) s calls) := by
  induction calls generalizing s seen with
  | nil => exact ⟨h.line, fun l hl => h.settled l fun heq => (hl heq).resolve_right fun hnot => hnot trivial⟩
  | cons c calls ih =>
    obtain ⟨⟨-, hc⟩, htail⟩ := hcalls
    have hrest := ih (h.step hc) htail
    refine ⟨hrest.line, fun l hl => hrest.settled l fun heq => ?_⟩
    obtain hseen | hnot := hl heq
    · exact .inl (.inl hseen)
    · by_cases hline : s.lineOf c = cascadeIrq
      · exact .inl (.inr hline)
      · exact .inr fun halong => hnot ⟨hline, halong⟩

end State

/-! ## Calls at work -/

end HardenedMinix.Kernel.Interrupts
