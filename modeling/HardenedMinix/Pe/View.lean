import HardenedMinix.Kernel.Dwc

/-!
# One page of a processing element

The pages of the working set do not interfere. A `View` holds the block, the entry and the frames
of one page, and the functions here say what the hardening code does to it.
-/

open Option

namespace HardenedMinix

inductive Slot where
  | us0
  | us1
  | us2
  deriving DecidableEq, Repr

/-- The flags of the block, which frame the entry maps and how, and the frames. One that does not
exist has no content. -/
structure View where
  flags : PmbFlags
  slot : Slot
  write : Bool
  dirty : Bool
  c0 : PageData
  c1 : Option PageData
  c2 : Option PageData

def runSlot (step : HStep) : Slot := if step = .firstRun then .us1 else .us2

/-- A byte written at a place of a page. -/
abbrev PageStore := Fin 4096 × UInt8

def applyStores (c : PageData) (l : List PageStore) : PageData :=
  l.foldl (fun c s => Function.update c s.1 s.2) c

@[simp] theorem applyStores_nil (c : PageData) : applyStores c [] = c := rfl

@[simp] theorem applyStores_cons (c : PageData) (s : PageStore) (l : List PageStore) :
    applyStores c (s :: l) = applyStores (Function.update c s.1 s.2) l := rfl

namespace View

def both (v : View) : Bool := v.c1.isSome && v.c2.isSome

def content (v : View) : PageData :=
  match v.slot with
  | .us0 => v.c0
  | .us1 => v.c1.getD v.c0
  | .us2 => v.c2.getD v.c0

def setContent (v : View) (c : PageData) : View :=
  match v.slot with
  | .us0 => { v with c0 := c }
  | .us1 => { v with c1 := v.c1.map (fun _ => c) }
  | .us2 => { v with c2 := v.c2.map (fun _ => c) }

/-- Both private frames are copies of `us0`. -/
def synced (v : View) : View := { v with c1 := some v.c0, c2 := some v.c0 }

/-! ## Start of a run -/

def event (v : View) : View :=
  if v.both then { v.synced with flags := { v.flags with iwsModKernel := true } } else v

/-- Events are handled, if there are some on the page. -/
def eventIf (b : Bool) (v : View) : View := if b then v.event else v

/-- The private frames of a page labelled `H_TO_UPDATE` are filled. -/
def update (v : View) : View :=
  if v.flags.hToUpdate && v.both then
    { v.synced with flags := { v.flags with hToUpdate := false } }
  else v

/-- The page stays open to stores in the run. -/
def kept (step : HStep) (v : View) : Bool :=
  (if step = .firstRun then v.c1.isSome && v.flags.iwsPfFirst
    else v.c2.isSome && v.flags.iwsPfSecond) ||
  (if step = .firstRun then v.c1.isSome else v.c2.isSome) && v.flags.iwsModKernel

/-- The frame that is mapped at the start of a run. -/
def startSlot (step : HStep) (v : View) : Slot :=
  if v.c1.isSome && v.c2.isNone then .us0
  else if (if step = .firstRun then v.c1.isSome else v.c2.isSome) then runSlot step
  else v.slot

/-- The frame of the run is mapped, read-only unless the page is kept open. -/
def protect (step : HStep) (v : View) : View :=
  { v with slot := v.startSlot step, write := v.write && v.kept step, dirty := false }

/-- `set_pe_mem_to_ro` skips a page that is read-only already. -/
def ro (step : HStep) (v : View) : View :=
  if v.write then v.update.protect step else v

/-! ## Stores -/

def fault (step : HStep) (v : View) : Option View :=
  let f := v.flags.fault step
  if v.both then
    if v.flags.hFork then none
    else some { v with flags := f, slot := runSlot step, write := true }
  else if step = .firstRun then
    some { v with flags := f, slot := .us1, write := true, c1 := some v.c0 }
  else some { v with flags := f, slot := .us2, write := true, c2 := some v.c0 }

def opened (step : HStep) (v : View) : Option View :=
  if v.write then some v else v.fault step

def store (step : HStep) (v : View) (s : PageStore) : Option View :=
  (v.opened step).map (fun v =>
    { v.setContent (Function.update v.content s.1 s.2) with dirty := true })

def stores (step : HStep) (v : View) (l : List PageStore) : Option View :=
  l.foldlM (store step) v

/-! ## End of a run -/

def endFirst (v : View) : View :=
  if v.c1.isSome && (v.flags.hgetPf || v.dirty) then
    { v with
      dirty := false
      flags := { v.flags with
        iwsPfFirst := v.flags.iwsPfFirst || (v.flags.iwsModKernel && v.dirty)
        hgetPf := false
        fws := true } }
  else v

def compared (v : View) : Bool := v.both && v.flags.fws

/-- `cmp_mem` finds no difference on the page. -/
def agrees (v : View) : Bool := !v.compared || v.c1 == v.c2

/-- The page after a comparison that found no difference. -/
def cmp (v : View) : View :=
  if v.compared then { v with flags := { v.flags with fws := false } } else v

def commitCopy (v : View) : View :=
  if v.c2.isSome && (v.flags.hgetPf || v.dirty) then
    { v with
      c0 := v.c2.getD v.c0
      dirty := false
      flags := { v.flags with
        iwsPfSecond := v.flags.iwsPfSecond || (v.flags.iwsModKernel && v.dirty)
        hgetPf := false } }
  else v

def commit (v : View) : View :=
  { v.commitCopy with
    slot := .us0
    write := true
    flags := { v.commitCopy.flags with iwsModKernel := false } }

/-- The way back after a failed comparison or an abort. -/
def reset (v : View) : View :=
  let v := { v with flags := v.flags.clearRun }
  if v.c1.isNone && v.c2.isNone then v
  else
    { v with
      slot := .us0
      write := true
      c1 := v.c1.map (fun _ => v.c0)
      c2 := v.c2.map (fun _ => v.c0) }

/-! ## Lemmas -/

variable {v v' : View} {step : HStep} {l : List PageStore}

theorem event_event (v : View) : v.event.event = v.event := by
  by_cases hb : v.both = true
  · have he : v.event = { v.synced with flags := { v.flags with iwsModKernel := true } } :=
      if_pos hb
    rw [he]
    rfl
  · have he : v.event = v := if_neg hb
    rw [he, he]

theorem eventIf_eventIf (a b : Bool) (v : View) : (v.eventIf a).eventIf b = v.eventIf (a || b) := by
  cases a <;> cases b <;> simp [eventIf, event_event]

def Mapped (v : View) : Prop :=
  (v.slot = .us1 → v.c1.isSome = true) ∧ (v.slot = .us2 → v.c2.isSome = true)

@[simp] theorem setContent_write (v : View) (c : PageData) : (v.setContent c).write = v.write := by
  unfold setContent
  split <;> rfl

@[simp] theorem setContent_slot (v : View) (c : PageData) : (v.setContent c).slot = v.slot := by
  unfold setContent
  split <;> simp_all

@[simp] theorem setContent_flags (v : View) (c : PageData) : (v.setContent c).flags = v.flags := by
  unfold setContent
  split <;> rfl

theorem content_setContent (hm : v.Mapped) (c : PageData) : (v.setContent c).content = c := by
  unfold setContent content
  cases hs : v.slot with
  | us0 => simp
  | us1 =>
    obtain ⟨c1, hc1⟩ := isSome_iff_exists.mp (hm.1 hs)
    simp [hc1]
  | us2 =>
    obtain ⟨c2, hc2⟩ := isSome_iff_exists.mp (hm.2 hs)
    simp [hc2]

theorem Mapped.setContent (hm : v.Mapped) (c : PageData) : (v.setContent c).Mapped := by
  unfold Mapped View.setContent at *
  cases hs : v.slot <;> simp_all

/-- The page after some stores to the mapped frame. -/
def written (l : List PageStore) (v : View) : View :=
  { v.setContent (applyStores v.content l) with dirty := true }

theorem Mapped.written (hm : v.Mapped) (l : List PageStore) : (v.written l).Mapped :=
  hm.setContent _

theorem content_written (hm : v.Mapped) (l : List PageStore) :
    (v.written l).content = applyStores v.content l :=
  content_setContent hm _

theorem written_written (hm : v.Mapped) (l l' : List PageStore) :
    (v.written l).written l' = v.written (l ++ l') := by
  have happ : applyStores v.content (l ++ l') = applyStores (applyStores v.content l) l' := by
    simp [applyStores, List.foldl_append]
  unfold written
  rw [happ]
  generalize applyStores v.content l = c
  have hcontent := content_setContent hm c
  unfold setContent content at *
  cases hs : v.slot <;> simp_all [Function.comp_def]

theorem opened_write (h : v.opened step = some v') : v'.write = true := by
  unfold opened fault at h
  split at h
  · rw [← some.inj h]
    assumption
  · simp only at h
    split_ifs at h <;> rw [← some.inj h]

theorem Mapped.opened (hm : v.Mapped) (h : v.opened step = some v') : v'.Mapped := by
  unfold View.opened fault at h
  split at h
  · rw [← some.inj h]
    exact hm
  simp only at h
  split_ifs at h with hboth hfork hstep <;> rw [← some.inj h]
  · simp only [both, Bool.and_eq_true] at hboth
    exact ⟨fun _ => hboth.1, fun _ => hboth.2⟩
  · exact ⟨fun _ => rfl, fun hs => by simp at hs⟩
  · exact ⟨fun hs => by simp at hs, fun _ => rfl⟩

theorem store_eq (step : HStep) (v : View) (s : PageStore) :
    v.store step s = (v.opened step).map (written [s]) := rfl

theorem stores_eq (step : HStep) (hm : v.Mapped) :
    v.stores step l = if l = [] then some v else (v.opened step).map (written l) := by
  induction l generalizing v with
  | nil => rfl
  | cons s l ih =>
    simp only [stores, List.foldlM_cons, store_eq, reduceCtorEq, ↓reduceIte]
    cases ho : v.opened step with
    | none => rfl
    | some v' =>
      have hm' := hm.opened ho
      have hopen : (v'.written [s]).opened step = some (v'.written [s]) := by
        have hw : (v'.written [s]).write = true := by simp [written, opened_write ho]
        simp [opened, hw]
      have hih := ih (hm'.written [s])
      rw [stores, hopen] at hih
      simp only [map_some, bind_eq_bind, bind_some, hih]
      by_cases hl : l = []
      · simp [hl]
      · simp only [hl, ↓reduceIte, some.injEq]
        exact written_written hm' [s] l

end View

end HardenedMinix
