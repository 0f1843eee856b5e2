import HardenedMinix.Lib.Counted
import HardenedMinix.Lib.Runs

/-!
# Descriptors and filps

A filp is shared by descriptors and by messages on their way. Where the code runs into an
assertion or a null pointer there is no result.
-/

open Function

namespace HardenedMinix.Vfs.Filedes

open Lib

/-- The error codes of the requests below and of the sockets that make them. -/
inductive Errno where
  | einval | ebadf | eio | emfile | enfile | eoverflow | edestaddrreq | enoent | enotconn | esrch
  deriving DecidableEq, Repr

/-- A process may have 255 files open. -/
def openMax : Nat := 255

/-- The descriptors of the processes (`fp_filp`, `fp_filp_inuse`) and the counters of the filps. -/
structure Tables (Proc Filp : Type) where
  isokendpt : Proc → Bool
  fpFilp : Proc → Nat → Option Filp
  inuse : Proc → Nat → Bool
  filpCount : Filp → Int

namespace Tables

variable {Proc Filp : Type} [DecidableEq Proc] [DecidableEq Filp]

def count (t : Tables Proc Filp) (f : Filp) (d : Int) : Tables Proc Filp :=
  { t with filpCount := update t.filpCount f (t.filpCount f + d) }

def put (t : Tables Proc Filp) (p : Proc) (fd : Nat) (f : Option Filp) : Tables Proc Filp :=
  { t with
    fpFilp := update t.fpFilp p (update (t.fpFilp p) fd f)
    inuse := update t.inuse p (update (t.inuse p) fd f.isSome) }

/-- `lock_filp` asserts that somebody uses the filp. -/
def lockFilp (t : Tables Proc Filp) (f : Filp) : Option Unit :=
  if 0 < t.filpCount f then some () else none

/-- `get_filp2`, the lock apart. -/
def getFilp2 (t : Tables Proc Filp) (p : Proc) (fd : Int) : Option Filp :=
  if fd < 0 ∨ (openMax : Int) ≤ fd then none else t.fpFilp p fd.toNat

def verifyFd (t : Tables Proc Filp) (ep : Proc) (fd : Int) : Option (Option Filp) :=
  if t.isokendpt ep then
    match t.getFilp2 ep fd with
    | none => some none
    | some f => (t.lockFilp f).map fun _ => some f
  else some none

/-- One more reference, for a message on its way. -/
def setFilp (t : Tables Proc Filp) : Option Filp → Option (Tables Proc Filp × Except Errno Nat)
  | none => some (t, .error .einval)
  | some f => (t.lockFilp f).map fun _ => (t.count f 1, .ok 0)

/-- The first descriptor from `start` on that nothing uses (`get_fd`). -/
def freeFd (t : Tables Proc Filp) (p : Proc) (start : Nat) : Option Nat :=
  (List.range openMax).find? fun fd => start ≤ fd ∧ t.fpFilp p fd = none ∧ ¬ t.inuse p fd

/-- A free descriptor is given the filp, whatever the pointer is. -/
def copyFilp (t : Tables Proc Filp) (ep : Proc) (cfilp : Option Filp) :
    Option (Tables Proc Filp × Except Errno Nat) :=
  if t.isokendpt ep then
    match t.freeFd ep 0 with
    | none => some (t, .error .emfile)
    | some fd => cfilp.map fun f => ((t.put ep fd (some f)).count f 1, .ok fd)
  else some (t, .error .einval)

/-- A reference less; the last one closes the file. -/
def putFilp (t : Tables Proc Filp) : Option Filp → Option (Tables Proc Filp × Except Errno Nat)
  | none => some (t, .error .einval)
  | some f => (t.lockFilp f).map fun _ => (t.count f (-1), .ok 0)

def cancelFd (t : Tables Proc Filp) (ep : Proc) (fd : Int) :
    Option (Tables Proc Filp × Except Errno Nat) :=
  if t.isokendpt ep then
    (t.verifyFd ep fd).map fun
      | none => (t, .error .einval)
      | some f => ((t.put ep fd.toNat none).count f (-1), .ok fd.toNat)
  else some (t, .error .einval)

def closeFd (t : Tables Proc Filp) (p : Proc) (fd : Int) :
    Option (Tables Proc Filp × Except Errno Nat) :=
  match t.getFilp2 p fd with
  | none => some (t, .error .ebadf)
  | some f => (t.lockFilp f).map fun _ => ((t.count f (-1)).put p fd.toNat none, .ok 0)

/-- `open`: the first free descriptor and a filp that nobody uses. -/
def openFd (t : Tables Proc Filp) (p : Proc) (f : Filp) :
    Option (Tables Proc Filp × Except Errno Nat) :=
  match t.freeFd p 0 with
  | none => some (t, .error .emfile)
  | some fd =>
    if t.filpCount f = 0 then some ((t.put p fd (some f)).count f 1, .ok fd)
    else some (t, .error .enfile)

/-- `F_DUPFD`: the first free descriptor from `start` on. -/
def dupFd (t : Tables Proc Filp) (p : Proc) (fd : Int) (start : Nat) :
    Option (Tables Proc Filp × Except Errno Nat) :=
  match t.getFilp2 p fd with
  | none => some (t, .error .ebadf)
  | some f =>
    (t.lockFilp f).map fun _ =>
      match t.freeFd p start with
      | none => (t, .error .emfile)
      | some new => ((t.put p new (some f)).count f 1, .ok new)

/-- `free_proc` closes every descriptor. -/
def freeProc (t : Tables Proc Filp) (p : Proc) : Option (Tables Proc Filp) :=
  ((List.range openMax).foldlM
    (fun (t : Tables Proc Filp) (fd : Nat) => (t.closeFd p fd).map Prod.fst) t).map fun t =>
      { t with isokendpt := update t.isokendpt p false }

/-! ## The places of references -/

variable {t : Tables Proc Filp} {p : Proc} {f : Filp} {fd : Nat} {M : Type} [DecidableEq M]
  {flying : M → Option Filp}

/-- The references: those of the descriptors, and those on their way. -/
def held (t : Tables Proc Filp) (flying : M → Option Filp) : (Proc × Nat) ⊕ M → Option Filp
  | .inl (p, fd) => t.fpFilp p fd
  | .inr m => flying m

/-- Every counter is the number of the references. -/
abbrev Right (t : Tables Proc Filp) (flying : M → Option Filp) : Prop :=
  Counted (t.held flying) t.filpCount

omit [DecidableEq Filp] in
theorem held_put (flying : M → Option Filp) (o : Option Filp) :
    (t.put p fd o).held flying = update (t.held flying) (.inl (p, fd)) o := by
  funext x
  cases x with
  | inr m => rfl
  | inl x =>
    obtain ⟨q, e⟩ := x
    by_cases hq : q = p
    · subst hq
      by_cases he : e = fd
      · subst he
        simp [held, put]
      · have hne : (Sum.inl (q, e) : (Proc × Nat) ⊕ M) ≠ Sum.inl (q, fd) := by simp [he]
        rw [update_of_ne hne]
        simp [held, put, he]
    · have hne : (Sum.inl (q, e) : (Proc × Nat) ⊕ M) ≠ Sum.inl (p, fd) := by simp [hq]
      rw [update_of_ne hne]
      simp [held, put, hq]

omit [DecidableEq Proc] [DecidableEq Filp] [DecidableEq M] in
theorem lockFilp_of_held (h : t.Right flying) {x : (Proc × Nat) ⊕ M} (hx : t.held flying x = some f) :
    t.lockFilp f = some () := if_pos (h.pos hx)

omit [DecidableEq Proc] [DecidableEq Filp] in
theorem getFilp2_some {e : Int} (h : t.getFilp2 p e = some f) : t.fpFilp p e.toNat = some f := by
  unfold getFilp2 at h
  split at h
  · cases h
  · exact h

omit [DecidableEq Proc] [DecidableEq Filp] in
theorem freeFd_some {start : Nat} (h : t.freeFd p start = some fd) : t.fpFilp p fd = none := by
  have hfree := List.find?_some h
  simp only [decide_eq_true_eq] at hfree
  exact hfree.2.1

theorem Right.install (h : t.Right flying) (hfd : t.fpFilp p fd = none) :
    ((t.put p fd (some f)).count f 1).Right flying := by
  have hx : t.held flying (.inl (p, fd)) = none := hfd
  have hfill := Counted.fill (b := f) h hx
  rw [← held_put] at hfill
  exact hfill

theorem Right.remove (h : t.Right flying) (hfd : t.fpFilp p fd = some f) :
    ((t.put p fd none).count f (-1)).Right flying := by
  have hx : t.held flying (.inl (p, fd)) = some f := hfd
  have hempty := Counted.empty h hx
  rw [← held_put] at hempty
  exact hempty

omit [DecidableEq Filp] in
theorem held_flying (flying : M → Option Filp) (m : M) (o : Option Filp) :
    t.held (update flying m o) = update (t.held flying) (.inr m) o := by
  funext x
  cases x with
  | inl x => rw [update_of_ne (by simp)]; rfl
  | inr n =>
    by_cases hn : n = m
    · subst hn
      simp [held]
    · rw [update_of_ne (by simp [hn])]
      simp [held, hn]

theorem Right.send (h : t.Right flying) {m : M} (hm : flying m = none) :
    (t.count f 1).Right (update flying m (some f)) := by
  have hx : t.held flying (.inr m) = none := hm
  have hfill := Counted.fill (b := f) h hx
  rw [← held_flying] at hfill
  exact hfill

theorem Right.settle (h : t.Right flying) {m : M} (hm : flying m = some f) :
    (t.count f (-1)).Right (update flying m none) := by
  have hx : t.held flying (.inr m) = some f := hm
  have hempty := Counted.empty h hx
  rw [← held_flying] at hempty
  exact hempty

omit [DecidableEq Proc] in
theorem count_pos {g : Filp} (h : 0 < t.filpCount g) : 0 < (t.count f 1).filpCount g := by
  unfold count
  by_cases hg : g = f
  · subst hg
    simp only [update_self]
    omega
  · simp only [update_of_ne hg]
    exact h

/-! ## Free descriptors -/

/-- The descriptors that `copy_filp` can give away, in their order. -/
def freeFds (t : Tables Proc Filp) (p : Proc) : List Nat :=
  (List.range openMax).filter fun fd => t.fpFilp p fd = none ∧ ¬ t.inuse p fd

omit [DecidableEq Proc] [DecidableEq Filp] in
theorem freeFd_zero : t.freeFd p 0 = (t.freeFds p).head? := by
  unfold freeFd freeFds
  rw [List.head?_filter]
  simp

theorem freeFds_put {fds : List Nat} (h : t.freeFds p = fd :: fds) :
    ((t.put p fd (some f)).count f 1).freeFds p = fds := by
  have hnodup : (t.freeFds p).Nodup := List.nodup_range.filter _
  have hfilter : ((t.put p fd (some f)).count f 1).freeFds p = (t.freeFds p).filter (· ≠ fd) := by
    unfold freeFds
    rw [List.filter_filter]
    refine List.filter_congr fun e _ => ?_
    by_cases he : e = fd
    · subst he
      simp [put, count]
    · simp [put, count, he]
  rw [h, List.nodup_cons] at hnodup
  rw [hfilter, h, List.filter_cons_of_neg (by simp), List.filter_eq_self]
  intro e he
  have hne : e ≠ fd := fun heq => hnodup.1 (heq ▸ he)
  simpa using hne

/-! ## What processes do -/

theorem closeFd_right (h : t.Right flying) (p : Proc) (e : Int) :
    ∃ t' r, t.closeFd p e = some (t', r) ∧ t'.Right flying := by
  unfold closeFd
  cases hget : t.getFilp2 p e with
  | none => exact ⟨t, _, rfl, h⟩
  | some f =>
    have hslot := getFilp2_some hget
    have hlock : t.lockFilp f = some () := lockFilp_of_held h (x := .inl (p, e.toNat)) hslot
    simp only [hlock, Option.map_some]
    exact ⟨_, _, rfl, h.remove hslot⟩

theorem openFd_right (h : t.Right flying) (p : Proc) (f : Filp) :
    ∃ t' r, t.openFd p f = some (t', r) ∧ t'.Right flying := by
  unfold openFd
  cases hfree : t.freeFd p 0 with
  | none => exact ⟨t, _, rfl, h⟩
  | some fd =>
    simp only
    split
    · exact ⟨_, _, rfl, h.install (freeFd_some hfree)⟩
    · exact ⟨t, _, rfl, h⟩

theorem dupFd_right (h : t.Right flying) (p : Proc) (e : Int) (start : Nat) :
    ∃ t' r, t.dupFd p e start = some (t', r) ∧ t'.Right flying := by
  unfold dupFd
  cases hget : t.getFilp2 p e with
  | none => exact ⟨t, _, rfl, h⟩
  | some f =>
    have hlock : t.lockFilp f = some () :=
      lockFilp_of_held h (x := .inl (p, e.toNat)) (getFilp2_some hget)
    simp only [hlock, Option.map_some]
    cases hfree : t.freeFd p start with
    | none => exact ⟨t, _, rfl, h⟩
    | some new => exact ⟨_, _, rfl, h.install (freeFd_some hfree)⟩

theorem freeProc_right (h : t.Right flying) (p : Proc) :
    ∃ t', t.freeProc p = some t' ∧ t'.Right flying := by
  have hbody : ∀ (fd : Nat) (t : Tables Proc Filp), fd < openMax → t.Right flying →
      ∃ t', (t.closeFd p fd).map Prod.fst = some t' ∧ t'.Right flying := by
    intro fd t _ ht
    obtain ⟨t', r, hclose, hright⟩ := closeFd_right ht p fd
    exact ⟨t', by rw [hclose]; rfl, hright⟩
  obtain ⟨t', hrun, hright⟩ := foldlM_range hbody h
  unfold freeProc
  rw [hrun]
  exact ⟨_, rfl, hright⟩

end Tables

end HardenedMinix.Vfs.Filedes
