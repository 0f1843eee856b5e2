import HardenedMinix.Kernel.LinCopy

/-!
# What is copied through windows

The bytes are those that the page tables gave at the call, as long as no window shows what the
other side is reached through and page faults are recognised.
-/

open Function List Option

namespace HardenedMinix.LinCopy

open Vumap (wrap wrap_wrap_add i386PageSize)

/-! ## A request -/

/-- The arguments of `lin_lin_copy` and `lin_lin_cmp`. -/
structure Job where
  srcproc : Space
  src : Nat
  dstproc : Space
  dst : Nat
  bytes : Nat
  src_lt : src < 2 ^ 32
  dst_lt : dst < 2 ^ 32

namespace Job

variable (j : Job) (c : Cpu) (m : Memory)

/-- The physical address of a byte of the source. -/
def source (i : Nat) : Option Nat := reach false (c.translate m (wrap (j.src + i)) j.srcproc)

/-- The physical address of a byte of the destination. -/
def target (write : Bool) (i : Nat) : Option Nat := reach write (c.translate m (wrap (j.dst + i)) j.dstproc)

/-- The bytes of the page tables that lead to a byte of the source or of the destination. -/
def tables (i : Nat) : List Nat :=
  c.reads m (wrap (j.src + i)) j.srcproc ++ c.reads m (wrap (j.dst + i)) j.dstproc

def slots : List Nat :=
  (if c.direct j.srcproc then [] else Memory.word (c.entry c.freepde)) ++
    (if c.direct j.dstproc then [] else Memory.word (c.entry (c.freepde + 1)))

/-- The first `k` bytes have been copied, and nothing else has changed but the windows. -/
structure Done (k : Nat) (m' : Memory) : Prop where
  moved : ∀ i < k, ∃ a p, j.source c m i = some a ∧ j.target c m true i = some p ∧ m' p = m a
  rest : ∀ a, a ∉ j.slots c → (∀ i < k, j.target c m true i ≠ some a) → m' a = m a

/-- With OK all bytes have been copied, with an error one is not there or cannot be written; no
panic. -/
structure Copied (r : Memory × Status) : Prop where
  no_panic : r.2 ≠ .panic
  ok : r.2 = .ok → j.Done c m j.bytes r.1
  error : r.2 ≠ .ok → ∃ i < j.bytes, j.source c m i = none ∨ j.target c m true i = none

/-- No window is what leads to the bytes, or one of them. -/
structure Clear (write : Bool) : Prop where
  tables : ∀ i < j.bytes, ∀ a ∈ j.tables c m i, a ∉ j.slots c
  source : ∀ i < j.bytes, ∀ a, j.source c m i = some a → a ∉ j.slots c
  target : ∀ i < j.bytes, ∀ p, j.target c m write i = some p → p ∉ j.slots c

/-- No byte of the destination leads to any byte, nor is it, or its place that of, a later byte of
the source with another value. -/
structure Apart : Prop where
  clear : j.Clear c m true
  tables : ∀ i < j.bytes, ∀ a ∈ j.tables c m i, ∀ k < j.bytes, j.target c m true k ≠ some a
  later : ∀ i k, i < k → k < j.bytes → ∀ a p, j.source c m i = some a → j.target c m true i = some p →
    j.source c m k = some p → m a = m p
  twice : ∀ i k, i < k → k < j.bytes → ∀ a b p, j.source c m i = some a → j.source c m k = some b →
    j.target c m true i = some p → j.target c m true k = some p → m a = m b

/-- Page faults of a side without a window are seen: not at address 0, and not in a range up to the
end. -/
structure Seen (pr : Space) (lin : Nat) (at' : Nat → Option Nat) : Prop where
  zero : c.direct pr = true → lin = 0 → 0 < j.bytes → at' 0 ≠ none
  top : c.direct pr = true → 2 ^ 32 ≤ lin + j.bytes → ∀ i < j.bytes, at' i ≠ none

end Job

/-! ## What a window shows -/

/-- From `ptr` on there are the bytes of a space from `lin` on. -/
def Shows (c : Cpu) (m m' : Memory) (pr : Space) (lin pde ptr len : Nat) : Prop :=
  if c.direct pr then ptr = lin
  else m'.get32 (c.entry pde) = c.pdeval m lin pr ∧ ptr = 2 ^ 22 * pde + lin % 2 ^ 22 ∧ lin % 2 ^ 22 + len ≤ 2 ^ 22

section Window

variable {c : Cpu} {m m' m'' : Memory} {pr : Space} {lin pde ptr len t : Nat}

theorem dirOf_direct (h : c.direct pr = true) : c.dirOf pr = c.dir ∧ pr ≠ .phys := by
  cases pr with
  | phys => cases h
  | kernel => exact ⟨rfl, by simp⟩
  | proc p =>
    obtain rfl : p = c.ptproc := by simpa [Cpu.direct] using h
    exact ⟨rfl, by simp⟩

theorem translate_direct (h : c.direct pr = true) (lin : Nat) : c.translate m lin pr = m.walk c.dir lin := by
  obtain ⟨hdir, hphys⟩ := dirOf_direct h
  cases pr with
  | phys => exact absurd rfl hphys
  | kernel => rfl
  | proc p => exact congrArg (fun dir => m.walk dir lin) hdir

theorem Shows.congr (h : Shows c m m' pr lin pde ptr len)
    (hsame : c.direct pr = false → ∀ a ∈ Memory.word (c.entry pde), m'' a = m' a) :
    Shows c m m'' pr lin pde ptr len := by
  unfold Shows at *
  split
  · next hdirect => rwa [if_pos hdirect] at h
  · next hdirect =>
    rw [if_neg hdirect] at h
    rwa [Memory.get32_congr (hsame (Bool.not_eq_true _ ▸ hdirect))]

theorem Shows.mono (h : Shows c m m' pr lin pde ptr len) {len' : Nat} (hle : len' ≤ len) :
    Shows c m m' pr lin pde ptr len' := by
  unfold Shows at *
  split
  · next hdirect => rwa [if_pos hdirect] at h
  · next hdirect =>
    rw [if_neg hdirect] at h
    exact ⟨h.1, h.2.1, by omega⟩

theorem Shows.walk (h : Shows c m m' pr lin pde ptr len) (hlin : lin < 2 ^ 32) (hpde : pde < 1024) (ht : t < len)
    (hreads : ∀ a ∈ c.reads m (wrap (lin + t)) pr, m' a = m a) :
    m'.walk c.dir (wrap (ptr + t)) = c.translate m (wrap (lin + t)) pr := by
  unfold Shows at h
  split at h
  · next hdirect =>
    rw [h, ← translate_direct hdirect]
    exact Cpu.translate_congr hreads
  obtain ⟨hentry, rfl, hroom⟩ := h
  have hsum : lin + t < 2 ^ 32 := by omega
  have hwrap : wrap (lin + t) = lin + t := Nat.mod_eq_of_lt hsum
  have hptr : wrap (2 ^ 22 * pde + lin % 2 ^ 22 + t) = 2 ^ 22 * pde + (lin % 2 ^ 22 + t) := by
    rw [Nat.add_assoc]
    exact Nat.mod_eq_of_lt (by omega)
  have hdiv : (lin + t) / 2 ^ 22 = lin / 2 ^ 22 := by omega
  have hmod : (lin + t) % 2 ^ 22 = lin % 2 ^ 22 + t := by omega
  rw [hwrap] at hreads ⊢
  rw [hptr]
  unfold Memory.walk
  rw [show (2 ^ 22 * pde + (lin % 2 ^ 22 + t)) / 2 ^ 22 = pde by omega,
    show (2 ^ 22 * pde + (lin % 2 ^ 22 + t)) % 2 ^ 22 = lin % 2 ^ 22 + t by omega]
  change m'.walkEntry (m'.get32 (c.entry pde)) _ = _
  rw [hentry, ← hmod, ← Cpu.walkEntry_pdeval hlin hdiv]
  exact Memory.walkEntry_congr fun a ha => hreads a (Cpu.entryReads_pdeval hlin hdiv ha)

end Window

namespace Job

variable {j : Job} {c : Cpu} {m m₁ m₂ : Memory} {write : Bool} {k len sptr dptr : Nat}

/-- Both sides are seen, from byte `k` on. -/
structure Showing (j : Job) (c : Cpu) (m m' : Memory) (k len sptr dptr : Nat) : Prop where
  src : Shows c m m' j.srcproc (wrap (j.src + k)) c.freepde sptr len
  dst : Shows c m m' j.dstproc (wrap (j.dst + k)) (c.freepde + 1) dptr len

theorem mem_slots_src (hdirect : c.direct j.srcproc = false) {a : Nat} (ha : a ∈ Memory.word (c.entry c.freepde)) :
    a ∈ j.slots c := by
  unfold slots
  rw [hdirect]
  exact mem_append_left _ ha

theorem mem_slots_dst (hdirect : c.direct j.dstproc = false) {a : Nat}
    (ha : a ∈ Memory.word (c.entry (c.freepde + 1))) : a ∈ j.slots c := by
  unfold slots
  rw [hdirect]
  exact mem_append_right _ ha

theorem Showing.congr (h : Showing j c m m₁ k len sptr dptr) (hsame : ∀ a ∈ j.slots c, m₂ a = m₁ a) :
    Showing j c m m₂ k len sptr dptr :=
  ⟨h.src.congr fun hdirect a ha => hsame a (mem_slots_src hdirect ha),
    h.dst.congr fun hdirect a ha => hsame a (mem_slots_dst hdirect ha)⟩

theorem wrap_add_add (a k t : Nat) : wrap (wrap (a + k) + t) = wrap (a + (k + t)) := by
  rw [wrap_wrap_add, Nat.add_assoc]

theorem Done.untouched (h : j.Done c m k m₁) (hk : k ≤ j.bytes) (hapart : j.Apart c m) :
    ∀ i < j.bytes, ∀ a ∈ j.tables c m i, m₁ a = m a := fun i hi a ha =>
  h.rest a (hapart.clear.tables i hi a ha) fun i' hi' => hapart.tables i hi a ha i' (by omega)

theorem Done.source (h : j.Done c m k m₁) (hapart : j.Apart c m) {i a : Nat} (hki : k ≤ i) (hi : i < j.bytes)
    (hsource : j.source c m i = some a) : m₁ a = m a := by
  by_cases hwritten : ∃ i' < k, j.target c m true i' = some a
  · obtain ⟨i', hi', htarget⟩ := hwritten
    obtain ⟨b, p, hb, hp, hval⟩ := h.moved i' hi'
    cases htarget.symm.trans hp
    rw [hval]
    exact hapart.later i' i (by omega) hi b a hb htarget hsource
  · push Not at hwritten
    exact h.rest a (hapart.clear.source i hi a hsource) hwritten

theorem Done.one (h : j.Done c m k m₁) (hapart : j.Apart c m) (hk : k < j.bytes) {a p : Nat}
    (hsource : j.source c m k = some a) (htarget : j.target c m true k = some p) :
    j.Done c m (k + 1) (update m₁ p (m a)) := by
  refine ⟨fun i hi => ?_, fun b hb hrest => ?_⟩
  · obtain rfl | hlt : i = k ∨ i < k := by omega
    · exact ⟨a, p, hsource, htarget, update_self ..⟩
    obtain ⟨a', p', ha', hp', hval⟩ := h.moved i hlt
    refine ⟨a', p', ha', hp', ?_⟩
    by_cases heq : p' = p
    · subst heq
      rw [update_self]
      exact (hapart.twice i k hlt hk a' a p' ha' hsource hp' htarget).symm
    · rw [update_of_ne heq, hval]
  · have hne : b ≠ p := fun heq => hrest k (Nat.lt_succ_self k) (heq ▸ htarget)
    rw [update_of_ne hne]
    exact h.rest b hb fun i hi => hrest i (by omega)

/-- The addresses of the bytes from `k` on. -/
def Follows (f : Nat → Option Nat) : Nat → List Nat → Prop
  | _, [] => True
  | k, p :: ps => f k = some p ∧ Follows f (k + 1) ps

theorem Done.store (h : j.Done c m k m₁) (hapart : j.Apart c m) {as ps : List Nat}
    (has : Follows (j.source c m) k as) (hps : Follows (j.target c m true) k ps) (hlength : as.length = ps.length)
    (hk : k + ps.length ≤ j.bytes) : j.Done c m (k + ps.length) (m₁.store (ps.zip (as.map m))) := by
  induction ps generalizing k m₁ as with
  | nil => exact h
  | cons p ps ih =>
    cases as with
    | nil => cases hlength
    | cons a as =>
      rw [length_cons] at hk ⊢
      have hnext := ih (h.one hapart (by omega) has.1 hps.1) has.2 hps.2 (Nat.succ.inj hlength) (by omega)
      rwa [Nat.add_right_comm, Nat.add_assoc] at hnext

theorem Seen.fault {pr : Space} {lin pde ptr t : Nat} {f : Nat → Option Nat} (h : j.Seen c pr lin f)
    {m' : Memory} (hshow : Shows c m m' pr (wrap (lin + k)) pde ptr len) (hpde : 0 < pde) (hpde' : pde + 1 < 1024)
    (hk : k + len ≤ j.bytes) (ht : t < len) (hnone : f (k + t) = none) :
    wrap (ptr + t) ≠ 0 ∧ ptr ≤ wrap (ptr + t) ∧ wrap (ptr + t) < wrap (ptr + len) := by
  unfold Shows at hshow
  split at hshow
  · next hdirect =>
    have hend : lin + j.bytes < 2 ^ 32 := by
      by_contra hge
      exact h.top hdirect (by omega) (k + t) (by omega) hnone
    have hwrap (x : Nat) (hx : x ≤ j.bytes) : wrap (lin + x) = lin + x := Nat.mod_eq_of_lt (by omega)
    rw [hshow, wrap_add_add, wrap_add_add, hwrap k (by omega), hwrap (k + t) (by omega), hwrap (k + len) hk]
    refine ⟨fun hzero => ?_, by omega, by omega⟩
    obtain ⟨rfl, hkt⟩ := Nat.add_eq_zero_iff.mp hzero
    exact h.zero hdirect rfl (by omega) (hkt ▸ hnone)
  · obtain ⟨-, hptr, hroom⟩ := hshow
    have hwrap (x : Nat) (hx : x ≤ len) : wrap (ptr + x) = ptr + x := Nat.mod_eq_of_lt (by omega)
    rw [hwrap t (by omega), hwrap len le_rfl]
    omega

theorem Done.zero (j : Job) (c : Cpu) (m : Memory) : j.Done c m 0 m :=
  ⟨fun i hi => absurd hi (Nat.not_lt_zero i), fun _ _ _ => rfl⟩

/-- The entries for both windows. -/
def bothSlots (c : Cpu) : List Nat := Memory.word (c.entry c.freepde) ++ Memory.word (c.entry (c.freepde + 1))

/-- A page frame that is not the current page directory. -/
structure Frame (c : Cpu) (frame : Nat) : Prop where
  aligned : frame % i386PageSize = 0
  lt : frame + i386PageSize ≤ 2 ^ 32
  apart : ∀ a ∈ bothSlots c, a < frame ∨ frame + i386PageSize ≤ a

section Frames

variable {frame1 frame2 : Nat}

/-- What `cmp_frames` and `cpy_frames` ask for. -/
def frames (h₁ : Frame c frame1) (h₂ : Frame c frame2) : Job where
  srcproc := .phys
  src := frame1
  dstproc := .phys
  dst := frame2
  bytes := i386PageSize
  src_lt := Nat.lt_of_lt_of_le (Nat.lt_add_of_pos_right (by decide)) h₁.lt
  dst_lt := Nat.lt_of_lt_of_le (Nat.lt_add_of_pos_right (by decide)) h₂.lt

end Frames

end Job

end HardenedMinix.LinCopy
