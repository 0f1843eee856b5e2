import HardenedMinix.Pe.EventReplay
import HardenedMinix.Pe.PageRuns

/-!
# Writes of the kernel between two processing elements

The kernel writes to the pages of a hardened process through `us0`. Two of the four functions that
do so register the range; the private frames stay in step if every other write spares the pages
that have them.
-/

open List Option

namespace HardenedMinix.KernelWrites

open Lib Linked

variable {k k₁ k₂ : Kernel} {p : ProcNr} {i : Fin workingSetSize} {L : List (Fin workingSetSize)}

/-! ## Writes -/

inductive Writer where
  | delivermsg
  | virtualCopyF
  | kernelCallFinish
  | vmMemset

/-- A write to a range, of which `done` bytes are written before it ends or fails. -/
structure KernelWrite where
  writer : Writer
  span : MemRange
  done : Nat
  data : Nat → UInt8
  done_le : done ≤ span.size

namespace KernelWrite

variable (w : KernelWrite)

/-- `add_hme_event` is called: by `delivermsg` also when the copy has failed, by `virtual_copy_f` only
when it has not. -/
def registers : Bool :=
  match w.writer with
  | .delivermsg => true
  | .virtualCopyF => decide (w.done = w.span.size)
  | .kernelCallFinish => false
  | .vmMemset => false

def bytes : List (VirBytes × UInt8) :=
  (range w.done).map fun j => ((w.span.offset + j) % 2 ^ 32, w.data j)

def HasRoom (k : Kernel) (p : ProcNr) : Prop :=
  lookUpHme k p w.span.offset = none → ∃ e, (k.hardeningMemEvents e).slotFree = true

end KernelWrite

/-- The stores, as far as the page table allows them. -/
def storeBytes (k : Kernel) (p : ProcNr) (l : List (VirBytes × UInt8)) : Option Kernel :=
  l.foldlM (fun k x => if k.canStore p x.1 then some (k.storeByte p x.1 x.2) else none) k

def KernelWrite.run (w : KernelWrite) (k : Kernel) (p : ProcNr) : Option Kernel :=
  (storeBytes k p w.bytes).bind fun k =>
    if w.registers then addHmeEvent k p w.span.offset w.span.size else some k

/-- Writes to `p`, each of which meets the condition. -/
inductive Writes (P : Kernel → KernelWrite → Prop) (p : ProcNr) (k : Kernel) : Kernel → Prop
  | start : Writes P p k k
  | write {k₁ k₂ : Kernel} {w : KernelWrite} (h : Writes P p k k₁) (hroom : w.HasRoom k₁ p)
      (hP : P k₁ w) (hrun : w.run k₁ p = some k₂) : Writes P p k k₂

/-! ## The pages stay in step -/

/-- The private frames hold what `us0` holds, or they will. -/
def Settled (v : View) : Prop :=
  (v.both = true → v.c1 = some v.c0 ∧ v.c2 = some v.c0) ∨ v.write = true ∧ v.flags.hToUpdate = true

/-- The write is registered and not longer than the address space, or it spares the pages with
private frames not to be updated. -/
def Careful (p : ProcNr) (L : List (Fin workingSetSize)) (k : Kernel) (w : KernelWrite) : Prop :=
  w.registers = true ∧ ¬ w.span.Overlong ∨
    ∀ i ∈ L, (∃ x ∈ w.bytes, pageOf (k.workingSet i).vaddr = pageOf x.1) →
      (view k p i).both = false ∨ (view k p i).flags.hToUpdate = true

theorem ready_of_rest {k' : Kernel} (h : PeReady k p L) (hinv : PeInv k' p L)
    (hrest : restOf p k' = restOf p k) (hevents : HmeInv k')
    (hslot : ∀ i ∈ L, (view k' p i).slot = (view k p i).slot)
    (hflags : ∀ i ∈ L, (view k' p i).flags = (view k p i).flags)
    (hclean : ∀ i ∈ L, (view k' p i).write = false → (view k' p i).dirty = false) :
    PeReady k' p L where
  off := (congrArg Rest.hEnable hrest).trans h.off
  idle := (congrArg Rest.hStep hrest).trans h.idle
  noRestore := (congrArg Rest.hRestore hrest).trans h.noRestore
  user := h.user
  hardened := (congrArg Rest.procToHard hrest).trans h.hardened
  runnable := (congrArg Rest.rtsFlags hrest).trans h.runnable
  events := hevents
  inv := hinv
  mapsUs0 i hi := (hslot i hi).trans (h.mapsUs0 i hi)
  noFault i hi := by rw [hflags i hi]; exact h.noFault i hi
  clean := hclean

theorem userRun_stores {l : List (VirBytes × UInt8)} (hrun : storeBytes k p l = some k₁) :
    userRun k p (l.map fun x => .store x.1 x.2) = some (k₁, []) := by
  induction l generalizing k with
  | nil =>
    cases hrun
    rfl
  | cons x l ih =>
    unfold storeBytes at hrun
    rw [foldlM_cons] at hrun
    by_cases hcan : k.canStore p x.1 = true
    · rw [if_pos hcan] at hrun
      have hfirst : perform k p (.store x.1 x.2) = some (k.storeByte p x.1 x.2, []) := if_pos hcan
      simp [userRun, hfirst, ih hrun]
    · rw [if_neg hcan] at hrun
      cases hrun

structure Stored (p : ProcNr) (k k' : Kernel) : Prop where
  blocks : k'.workingSet = k.workingSet
  events : hmeView k' = hmeView k
  pfa : ∀ v, (k'.getPte p v).pfa = (k.getPte p v).pfa

theorem storeBytes_stored {l : List (VirBytes × UInt8)} (hrun : storeBytes k p l = some k₁) :
    Stored p k k₁ := by
  refine foldlM_inv (I := Stored p k) (fun x _ s s' h hstep => ?_) ⟨rfl, rfl, fun _ => rfl⟩ hrun
  split_ifs at hstep
  cases hstep
  have hevents : hmeView (s.storeByte p x.1 x.2) = hmeView s := hmeView_setProc _ p rfl rfl rfl
  refine ⟨h.blocks, hevents.trans h.events, fun v => ?_⟩
  rw [← h.pfa]
  by_cases hv : pageOf v = pageOf x.1
  · simp [Kernel.storeByte, Kernel.getPte, Kernel.setPte, Kernel.setProc, hv]
  · simp [Kernel.storeByte, Kernel.getPte, Kernel.setPte, Kernel.setProc, hv]

theorem stored_pages (h : PeReady k p L) {l : List (VirBytes × UInt8)}
    (hrun : storeBytes k p l = some k₁) : PeReady k₁ p L ∧ ∀ i ∈ L, view k₁ p i = view k p i ∨
      ((∃ x ∈ l, pageOf (k.workingSet i).vaddr = pageOf x.1) ∧ (view k₁ p i).write = true) := by
  have hst := storeBytes_stored hrun
  obtain ⟨hinv, haround, hviews⟩ := userRun_view h.inv (userRun_stores hrun)
  have hpages : ∀ i ∈ L, view k₁ p i = view k p i ∨
      ((∃ x ∈ l, pageOf (k.workingSet i).vaddr = pageOf x.1) ∧ (view k₁ p i).write = true) := by
    intro i hi
    obtain ⟨-, heq⟩ | ⟨hne, v, hopen, heq⟩ := View.stores_cases (view_mapped k p i) (hviews i hi)
    · exact .inl heq
    refine .inr ⟨?_, ?_⟩
    · obtain ⟨y, hy⟩ := exists_mem_of_ne_nil _ hne
      simp only [storesOn, filterMap_map, mem_filterMap] at hy
      obtain ⟨x, hx, hon⟩ := hy
      refine ⟨x, hx, ?_⟩
      by_contra hoff
      simp [Ne.symm hoff] at hon
    · simp [heq, View.written, View.opened_write hopen]
  refine ⟨ready_of_rest h hinv haround.rest (h.events.of_view hst.events) (fun i _ => ?_)
    (fun i _ => ?_) (fun i hi hclosed => ?_), hpages⟩
  · simp only [view, viewOf, hst.blocks, hst.pfa]
  · simp only [view, viewOf, hst.blocks]
  · obtain heq | ⟨-, hopen⟩ := hpages i hi
    · rw [heq] at hclosed ⊢
      exact h.clean i hi hclosed
    · rw [hopen] at hclosed
      cases hclosed

theorem addHmeEvent_kept (h : PeReady k p L) {r : MemRange}
    (hroom : lookUpHme k p r.offset = none → ∃ e, (k.hardeningMemEvents e).slotFree = true)
    (hadd : addHmeEvent k p r.offset r.size = some k₁) :
    PeReady k₁ p L ∧ (∀ i, view k₁ p i = view k p i) ∧
      (∀ i, (k₁.workingSet i).vaddr = (k.workingSet i).vaddr) ∧
      ∀ page, Pending k₁ p page ↔ Pending k p page ∨ r.Counts page := by
  have herase := eraseHmes_addHmeEvent hadd
  have hpages := SamePages.of_eraseHmes p herase
  obtain ⟨hevents, hpending⟩ := addHmeEvent_pending h.events h.inv.inUse hroom hadd
  have hview := hpages.view_eq
  refine ⟨ready_of_rest h (hpages.peInv h.inv) (restOf_of_eraseHmes p herase) hevents ?_ ?_ ?_,
    hview, hpages.same.vaddr, hpending⟩
  all_goals intro i hi; rw [hview i]
  exact h.clean i hi

theorem pending_of_view (h : hmeView k₁ = hmeView k) {page : Nat} (hpending : Pending k p page) :
    Pending k₁ p page := by
  obtain ⟨htable, hprocs⟩ := Prod.mk.inj h
  have hfirst : (k₁.procs p).hardeningMemEvents = (k.procs p).hardeningMemEvents :=
    congrArg (fun x => (x p).2.1) hprocs
  unfold Pending pendingPages at hpending ⊢
  rwa [htable, hfirst]

/-- The page of each block is in step, or an event on it is pending. -/
def Fine (k : Kernel) (p : ProcNr) (L : List (Fin workingSetSize)) : Prop :=
  ∀ i ∈ L, Settled (view k p i) ∨ Pending k p (pageOf (k.workingSet i).vaddr)

theorem Fine.write {w : KernelWrite} (h : Fine k p L) (hk : PeReady k p L) (hroom : w.HasRoom k p)
    (hcareful : Careful p L k w) (hrun : w.run k p = some k₁) : PeReady k₁ p L ∧ Fine k₁ p L := by
  obtain ⟨k', hbytes, hrun⟩ := bind_eq_some_iff.mp hrun
  have hst := storeBytes_stored hbytes
  obtain ⟨hready, hpages⟩ := stored_pages hk hbytes
  -- a page that is stored to is registered, or it has no copy that is kept
  have hpage : ∀ i ∈ L, (Settled (view k' p i) ∨ Pending k' p (pageOf (k'.workingSet i).vaddr)) ∨
      w.registers = true ∧ w.span.Counts (pageOf (k'.workingSet i).vaddr) := by
    intro i hi
    rw [hst.blocks]
    obtain heq | ⟨⟨x, hx, hon⟩, hopen⟩ := hpages i hi
    · rw [heq]
      exact .inl ((h i hi).imp_right (pending_of_view hst.events))
    obtain ⟨hreg, hlong⟩ | hspared := hcareful
    · obtain ⟨j, hj, rfl⟩ := mem_map.mp hx
      have hlt := mem_range.mp hj
      have hle := w.done_le
      refine .inr ⟨hreg, ?_⟩
      rw [hon]
      refine (w.span.counts_iff (by rw [pageOf_eq]; omega)).mpr
        (.inr (.inr ⟨hlong, w.span.offset + j, by omega, by omega, ?_⟩))
      rw [pageOf_eq, pageOf_eq]
      omega
    · refine .inl (.inl ?_)
      obtain hnone | hlabel := hspared i hi ⟨x, hx, hon⟩
      · refine .inl fun hboth => absurd hboth ?_
        simpa [View.both, view, viewOf, hst.blocks] using hnone
      · refine .inr ⟨hopen, ?_⟩
        simpa only [view, viewOf, hst.blocks] using hlabel
  split_ifs at hrun with hreg
  · have hroom' : lookUpHme k' p w.span.offset = none →
        ∃ e, (k'.hardeningMemEvents e).slotFree = true := by
      rw [lookUpHme_of_view hst.events, (Prod.mk.inj hst.events).1]
      exact hroom
    obtain ⟨hready, hview, hvaddr, hpending⟩ := addHmeEvent_kept hready hroom' hrun
    refine ⟨hready, fun i hi => ?_⟩
    rw [hview, hvaddr, hpending]
    obtain (hin | hold) | ⟨-, hnew⟩ := hpage i hi
    · exact .inl hin
    · exact .inr (.inl hold)
    · exact .inr (.inr hnew)
  · cases hrun
    exact ⟨hready, fun i hi => (hpage i hi).resolve_right fun hno => hreg hno.1⟩

theorem Writes.fine (hw : Writes (Careful p L) p k k₁) (hk : PeReady k p L) (h : Fine k p L) :
    PeReady k₁ p L ∧ Fine k₁ p L := by
  induction hw with
  | start => exact ⟨hk, h⟩
  | write _ hroom hP hrun ih => exact ih.2.write ih.1 hroom hP hrun

/-! ## The next element -/

theorem settled_started {v : View} {b : Bool} (h : Settled v ∨ b = true)
    (hboth : ((v.eventIf b).ro .firstRun).both = true) :
    ((v.eventIf b).ro .firstRun).c1 = some ((v.eventIf b).ro .firstRun).c0 ∧
      ((v.eventIf b).ro .firstRun).c2 = some ((v.eventIf b).ro .firstRun).c0 := by
  have hsame : ((v.eventIf b).ro .firstRun).both = v.both := by
    unfold View.ro View.eventIf View.event View.update View.protect View.synced View.both
    split_ifs <;> simp_all
  rw [hsame] at hboth
  unfold View.ro View.eventIf View.event View.update View.protect View.synced
  obtain (hin | hlabel) | rfl := h
  · have := hin hboth
    split_ifs <;> simp_all
  · split_ifs <;> simp_all
  · split_ifs <;> simp_all

theorem inStep_of_view (h : (view k p i).both = true →
    (view k p i).c1 = some (view k p i).c0 ∧ (view k p i).c2 = some (view k p i).c0) : InStep k i := by
  intro us0 us1 us2 h0 h1 h2
  have hstep := h (by simp [view, viewOf, View.both, h1, h2])
  simpa [view, viewOf, h0, h1, h2, frameOr] using hstep

/-- Between elements, careful writes leave no stale copy for the next. -/
theorem copies_fresh (hk : PeReady k p L) (hstart : ∀ i ∈ L, Settled (view k p i))
    (hw : Writes (Careful p L) p k k₁) (hdwc : startDwc k₁ p = some k₂) : ∀ i ∈ L, InStep k₂ i := by
  obtain ⟨hk₁, hfine⟩ := hw.fine hk fun i hi => .inl (hstart i hi)
  obtain ⟨hnone, -⟩ | ⟨k₀, hsome, hbegun⟩ := startDwc_first hk₁
  · rw [hnone] at hdwc
    cases hdwc
  obtain rfl := some.inj (hsome.symm.trans hdwc)
  intro i hi
  refine inStep_of_view (p := p) ?_
  rw [hbegun.views i hi]
  refine settled_started ((hfine i hi).imp_right ?_)
  rintro ⟨w, hw, hpage⟩
  exact any_eq_true.mpr ⟨w, hw, beq_iff_eq.mpr hpage⟩

def ones (writer : Writer) : KernelWrite := ⟨writer, insideRange, 8, fun _ => 1, by decide⟩

theorem delivery_seen : ∃ k₁ k₂, (ones .delivermsg).run blockKernel 15 = some k₁ ∧
    startDwc k₁ 15 = some k₂ ∧ ∀ i ∈ [0], InStep k₂ i := by
  obtain ⟨k₁, k₂, hrun, hdwc⟩ : ∃ k₁ k₂, (ones .delivermsg).run blockKernel 15 = some k₁ ∧
      startDwc k₁ 15 = some k₂ := ⟨_, _, rfl, rfl⟩
  refine ⟨k₁, k₂, hrun, hdwc, copies_fresh blockKernel_ready (fun i hi => .inr ?_)
    (.write .start (fun _ => ⟨0, rfl⟩) (.inl ⟨rfl, by simp [ones, insideRange, MemRange.Overlong]⟩)
      hrun) hdwc⟩
  obtain rfl := mem_singleton.mp hi
  exact ⟨rfl, rfl⟩

/-- The reply to a kernel call is registered by nobody: the next element begins with the old bytes.
-/
theorem reply_unseen : ∃ k₁ k₂ k₃ k₄ k₅ rs, runFirst blockKernel 15 [] = some (k₁, rs) ∧
    runSecond k₁ 15 default [] = some (k₂, rs) ∧
    hardeningTask k₂ 15 default true = some (k₃, .committed) ∧
    Writes (fun _ _ => True) 15 k₃ k₄ ∧ startDwc k₄ 15 = some k₅ ∧ ¬ InStep k₅ 0 := by
  obtain ⟨k₁, k₂, k₃, k₄, k₅, rs, h₁, h₂, h₃, hroom, h₄, h₅, hfirst, hsecond, hthird, hdiffer⟩ :
      ∃ k₁ k₂ k₃ k₄ k₅ rs, runFirst blockKernel 15 [] = some (k₁, rs) ∧
        runSecond k₁ 15 default [] = some (k₂, rs) ∧
        hardeningTask k₂ 15 default true = some (k₃, .committed) ∧
        (k₃.hardeningMemEvents 0).slotFree = true ∧
        (ones .kernelCallFinish).run k₃ 15 = some k₄ ∧ startDwc k₄ 15 = some k₅ ∧
        (k₅.workingSet 0).us0 = some 5 ∧ (k₅.workingSet 0).us1 = some 7 ∧
        (k₅.workingSet 0).us2 = some 8 ∧ k₅.mem 7 0 ≠ k₅.mem 5 0 :=
    ⟨_, _, _, _, _, _, rfl, rfl, rfl, rfl, rfl, rfl, rfl, rfl, rfl, by decide +kernel⟩
  refine ⟨k₁, k₂, k₃, k₄, k₅, rs, h₁, h₂, h₃, .write .start (fun _ => ⟨0, hroom⟩) trivial h₄, h₅,
    fun h => ?_⟩
  exact hdiffer (congrFun (h 5 7 8 hfirst hsecond hthird).1 0)

end HardenedMinix.KernelWrites
