import HardenedMinix.Kernel.Events
import HardenedMinix.Vm.WorkingSet

/-!
# Page counts

Four functions count the pages of a range by the same formula. Some have the length in an `int`,
others in an unsigned long.
-/

namespace HardenedMinix.PageCounts

open List

variable {address length : Nat}

/-- A length in an `int`. -/
def toInt (length : Nat) : Int := if length < 2 ^ 31 then length else length - 2 ^ 32

/-- `n_pages_covered` of an `int`, which is converted for the sum. -/
def nPagesSigned (address : Nat) (len : Int) : Nat :=
  ((len % 2 ^ 32).toNat + (address - pageBase address) + (2 ^ 32 - 1)) % 2 ^ 32 / 4096 + 1

inductive Loop where
  | addRegionToWs
  | freePramMemBlockVaddr
  | freeRegionPmbs
  /-- with `update_range_ws_us1_us2_data`, which goes over the pages of the event -/
  | addHmeEvent

def Loop.count (address length : Nat) : Loop → Nat
  | .addRegionToWs | .freePramMemBlockVaddr => nPagesSigned address (toInt length)
  | .freeRegionPmbs | .addHmeEvent => nPagesCovered address length

def Loop.pages (address length : Nat) (f : Loop) : List VirBytes :=
  (range (f.count address length)).map fun i => (pageBase address + i * 4096) % 2 ^ 32

theorem nPagesSigned_eq (hlength : length < 2 ^ 32) :
    nPagesSigned address (toInt length) = nPagesCovered address length := by
  have hback : (toInt length % 2 ^ 32).toNat = length := by
    unfold toInt
    split <;> omega
  unfold nPagesSigned nPagesCovered
  rw [hback]

theorem Loop.pages_eq (hlength : length < 2 ^ 32) (f : Loop) :
    f.pages address length = pagesCovered address length := by
  cases f with
  | addRegionToWs | freePramMemBlockVaddr =>
    unfold Loop.pages Loop.count
    rw [nPagesSigned_eq hlength]
    rfl
  | freeRegionPmbs | addHmeEvent => rfl

/-! ## The functions -/

theorem addRegionToWs_eq (hlength : length < 2 ^ 32) (k : Kernel) (p : ProcNr)
    (us1 us2 : Option Frame) :
    addRegionToWs k p address length us1 us2 =
      (Loop.addRegionToWs.pages address length).foldlM (addPageToWs p us1 us2) k := by
  rw [Loop.pages_eq hlength]
  rfl

theorem freePramMemBlockVaddr_eq (hlength : length < 2 ^ 32) (k : Kernel) (p : ProcNr)
    (hsize : 0 < (k.procs p).lus1Us2Size) :
    freePramMemBlockVaddr k p address length =
      (Loop.freePramMemBlockVaddr.pages address length).foldl (freePage p) k := by
  rw [Loop.pages_eq hlength, freePramMemBlockVaddr, if_neg (not_le.mpr hsize)]

theorem freeRegionPmbs_eq (s : Vm.State) (p : ProcNr) (hsize : 0 < (s.vmproc p).lus1Us2Size) :
    Vm.freeRegionPmbs s p address length =
      (Loop.freeRegionPmbs.pages address length).foldlM (Vm.freePage p) s := by
  rw [Vm.freeRegionPmbs, if_neg (not_le.mpr hsize)]
  rfl

theorem updateRange_eq (k : Kernel) (p : ProcNr) :
    updateRangeWsUs1Us2Data k p address (nPagesCovered address length) =
      (Loop.addHmeEvent.pages address length).foldlM (updateWsUs1Us2DataVaddr p) k := rfl

/-! ## What they go over -/

/-- The pages of the address space that meet the range, each once. -/
structure Exact (address length : Nat) (pages : List VirBytes) : Prop where
  nodup : pages.Nodup
  mem_iff : ∀ v : Nat, v ∈ pages ↔ (v < 2 ^ 32 ∧ v % 4096 = 0) ∧
    ∃ x, (address ≤ x ∧ x < address + length) ∧ v ≤ x ∧ x < v + 4096

/-- All loops are exact, and the kernel releases the same pages as VM. -/
def CountsRight (address length : Nat) : Prop :=
  (∀ f : Loop, Exact address length (f.pages address length)) ∧
    Loop.freePramMemBlockVaddr.pages address length = Loop.freeRegionPmbs.pages address length

/-- The range is not empty and ends in the address space, or it begins in the last page and wraps
around. -/
def Countable (address length : Nat) : Prop :=
  0 < length ∧
    (address + length ≤ 2 ^ 32 ∨ 2 ^ 32 ≤ address + 4096 ∧ 2 ^ 32 < address % 4096 + length)

theorem pageBase_eq (haddress : address < 2 ^ 32) : pageBase address = address / 4096 * 4096 := by
  unfold pageBase
  rw [pageOf_eq, Nat.mod_eq_of_lt (by omega)]

theorem nPagesCovered_eq (haddress : address < 2 ^ 32) :
    nPagesCovered address length =
      (length + address % 4096 + (2 ^ 32 - 1)) % 2 ^ 32 / 4096 + 1 := by
  have hrest : address - address / 4096 * 4096 = address % 4096 := by omega
  unfold nPagesCovered
  rw [pageBase_eq haddress, hrest]

theorem nPagesCovered_le (haddress : address < 2 ^ 32) :
    nPagesCovered address length ≤ 2 ^ 20 := by
  rw [nPagesCovered_eq haddress]
  have := Nat.mod_lt (length + address % 4096 + (2 ^ 32 - 1)) (show 0 < 2 ^ 32 by decide)
  omega

theorem page_eq (haddress : address < 2 ^ 32) (i : Nat) :
    (pageBase address + i * 4096) % 2 ^ 32 = (address / 4096 + i) % 2 ^ 20 * 4096 := by
  rw [pageBase_eq haddress, ← Nat.add_mul]
  exact Nat.mul_mod_mul_right 4096 _ (2 ^ 20)

theorem mem_pagesCovered (haddress : address < 2 ^ 32) {v : Nat} :
    v ∈ pagesCovered address length ↔
      ∃ i, i < nPagesCovered address length ∧ (address / 4096 + i) % 2 ^ 20 * 4096 = v := by
  unfold pagesCovered
  simp only [mem_map, mem_range, page_eq haddress]

theorem nodup_pagesCovered (haddress : address < 2 ^ 32) :
    (pagesCovered address length).Nodup := by
  refine nodup_range.map_on fun i hi j hj heq => ?_
  rw [page_eq haddress, page_eq haddress] at heq
  have hcount : nPagesCovered address length ≤ 2 ^ 20 := nPagesCovered_le haddress
  rw [mem_range] at hi hj
  have hmod : address / 4096 + i ≡ address / 4096 + j [MOD 2 ^ 20] :=
    Nat.eq_of_mul_eq_mul_right (by decide) heq
  exact (Nat.ModEq.add_left_cancel' _ hmod).eq_of_lt_of_lt (hi.trans_le hcount) (hj.trans_le hcount)

theorem nPagesCovered_within (haddress : address < 2 ^ 32) (hpos : 0 < length)
    (hend : address % 4096 + length ≤ 2 ^ 32) :
    nPagesCovered address length = (address % 4096 + length - 1) / 4096 + 1 := by
  have hsum : (length + address % 4096 + (2 ^ 32 - 1)) % 2 ^ 32 = address % 4096 + length - 1 := by
    omega
  rw [nPagesCovered_eq haddress, hsum]

theorem nPagesCovered_wraps (haddress : address < 2 ^ 32) (hlength : length < 2 ^ 32)
    (hover : 2 ^ 32 < address % 4096 + length) : nPagesCovered address length = 1 := by
  have hsum : (length + address % 4096 + (2 ^ 32 - 1)) % 2 ^ 32 < 4096 := by omega
  rw [nPagesCovered_eq haddress, Nat.div_eq_of_lt hsum]

theorem exact_of_countable (haddress : address < 2 ^ 32) (hlength : length < 2 ^ 32)
    (h : Countable address length) : Exact address length (pagesCovered address length) := by
  refine ⟨nodup_pagesCovered haddress, fun v => ?_⟩
  obtain ⟨hpos, hend | ⟨hpage, hover⟩⟩ := h
  · rw [mem_pagesCovered haddress, nPagesCovered_within haddress hpos (by omega)]
    constructor
    · rintro ⟨i, hi, rfl⟩
      rw [Nat.mod_eq_of_lt (by omega)]
      exact ⟨by omega, max address ((address / 4096 + i) * 4096), by omega, by omega⟩
    · rintro ⟨hv, x, hx, hvx⟩
      exact ⟨v / 4096 - address / 4096, by omega, by omega⟩
  · rw [mem_pagesCovered haddress, nPagesCovered_wraps haddress hlength hover]
    constructor
    · rintro ⟨i, hi, rfl⟩
      exact ⟨by omega, address, by omega, by omega⟩
    · rintro ⟨hv, x, hx, hvx⟩
      exact ⟨0, Nat.one_pos, by omega⟩

theorem countable_of_exact (haddress : address < 2 ^ 32) (hlength : length < 2 ^ 32)
    (h : Exact address length (pagesCovered address length)) : Countable address length := by
  have hmem := fun v => (mem_pagesCovered haddress).symm.trans (h.mem_iff v)
  -- the first page is always visited
  obtain ⟨-, x, hx, -⟩ := (hmem _).mp ⟨0, Nat.succ_pos _, rfl⟩
  refine ⟨by omega, ?_⟩
  by_contra hend
  obtain ⟨hover, hlast⟩ := not_or.mp hend
  by_cases hwrap : 2 ^ 32 < address % 4096 + length
  · -- no other page is, but the next one meets the range too
    obtain ⟨i, hi, hnext⟩ := (hmem (address / 4096 * 4096 + 4096)).mpr
      ⟨by omega, address / 4096 * 4096 + 4096, by omega, by omega⟩
    rw [nPagesCovered_wraps haddress hlength hwrap] at hi
    omega
  · -- the page 0 is visited
    have hcount := nPagesCovered_within haddress (by omega) (not_lt.mp hwrap)
    obtain ⟨-, y, hy, hzero⟩ := (hmem 0).mp ⟨2 ^ 20 - address / 4096, by omega, by omega⟩
    omega

/-- The pages are counted right exactly when the range is not empty and ends in the address space,
or wraps around from the last page. -/
theorem countsRight_iff (haddress : address < 2 ^ 32) (hlength : length < 2 ^ 32) :
    CountsRight address length ↔ Countable address length := by
  unfold CountsRight
  simp only [Loop.pages_eq hlength, and_true]
  exact ⟨fun h => countable_of_exact haddress hlength (h .freeRegionPmbs),
    fun h _ => exact_of_countable haddress hlength h⟩

/-- Two bytes at the end of a page. -/
theorem countsRight_two : CountsRight 8191 2 :=
  (countsRight_iff (by decide) (by decide)).mpr (by unfold Countable; decide)

/-- An empty range has a page. -/
theorem empty_visited : ¬ CountsRight 4097 0 := by
  rintro ⟨hexact, -⟩
  have hmem := ((hexact .freeRegionPmbs).mem_iff 4096).mp
    (mem_map.mpr ⟨0, by decide, by decide⟩)
  obtain ⟨-, x, hx, -⟩ := hmem
  omega

end HardenedMinix.PageCounts
