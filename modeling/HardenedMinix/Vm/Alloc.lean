import Mathlib

/-!
# The allocator of physical memory

A bitmap of free pages that is scanned downwards, a cache of pages that were freed, and the place
of the last allocation. `none` is a failed assertion. Which yielded blocks `free_yielded` frees is
up to the cache.
-/

namespace HardenedMinix.PhysAlloc

/-! ## The code -/

def numberPhysicalPages : Nat := 0x100000

def bitchunkBits : Nat := 32

def pageCacheMax : Nat := 10000

/-- `boundary16` and `boundary1`. -/
def boundary16 : Nat := 0x1000
def boundary1 : Nat := 0x100

/-- `free_pages_bitmap`, the top of `free_page_cache` first, and `lastscan`. -/
structure State where
  free : Nat → Bool
  cache : List Nat
  lastscan : Int

/-- The flags that bear on where the block is. -/
structure Flags where
  align64k : Bool
  align16k : Bool
  lower16mb : Bool
  lower1mb : Bool
  deriving DecidableEq, Repr

def chunkEmpty (free : Nat → Bool) (chunk : Nat) : Bool :=
  (List.range bitchunkBits).all fun j => !free (chunk * bitchunkBits + j)

/-- The inner loop of `findbit`: down to the first chunk that has a free page. -/
def skipChunks (free : Nat → Bool) : Nat → Nat
  | 0 => 0
  | chunk + 1 => if chunkEmpty free (chunk + 1) then skipChunks free chunk else chunk + 1

/-- How many pages are still to be looked at once the page `i` has turned out not to be free. -/
def skipFrom (free : Nat → Bool) (i : Nat) : Nat :=
  let chunk := skipChunks free (i / bitchunkBits)
  if chunk = i / bitchunkBits then i else (chunk + 1) * bitchunkBits

/-- The loop of `findbit` with `n` pages still to be looked at; a run of `run` free pages begins at
`start`. -/
def findbitLoop (free : Nat → Bool) (pages : Int) : Nat → Nat → Nat → Nat → Option (Option Nat)
  | _, 0, _, _ => some none
  | 0, _ + 1, _, _ => none
  | rounds + 1, i + 1, start, run =>
    if free i then
      let start := if run = 0 then i else start - 1
      let run := run + 1
      if pages < run then none
      else if (run : Int) = pages then some (some start)
      else findbitLoop free pages rounds i start run
    else findbitLoop free pages rounds (skipFrom free i) start 0

/-- `findbit(0, startscan, pages, …)`; `some none` is `NO_MEM`. -/
def findbit (free : Nat → Bool) (startscan : Nat) (pages : Int) : Option (Option Nat) :=
  findbitLoop free pages (startscan + 1) (startscan + 1) startscan 0

/-- The loop that takes pages out of the cache until one is free. -/
def popCache (free : Nat → Bool) : List Nat → Option Nat × List Nat
  | [] => (none, [])
  | i :: cache => if free i then (some i, cache) else popCache free cache

def Flags.maxpage (flags : Flags) : Nat :=
  if flags.lower16mb then boundary16 - 1
  else if flags.lower1mb then boundary1 - 1
  else numberPhysicalPages - 1

namespace State

/-- The block of `pages` pages at `mem` is taken. -/
def take (s : State) (mem : Nat) (pages : Int) : State :=
  { s with
    free := fun i => if mem ≤ i ∧ (i : Int) < mem + pages then false else s.free i
    lastscan := mem }

/-- The page from the cache, if one is asked for and anywhere will do. -/
def fromCache (s : State) (pages : Int) (flags : Flags) : Option Nat × State :=
  if ¬ flags.lower16mb ∧ ¬ flags.lower1mb ∧ pages = 1 then
    let (mem, cache) := popCache s.free s.cache
    (mem, { s with cache := cache })
  else (none, s)

def startscan (s : State) (maxpage : Nat) : Nat :=
  if s.lastscan < maxpage ∧ 0 ≤ s.lastscan then s.lastscan.toNat else maxpage

def allocPages (s : State) (pages : Int) (flags : Flags) : Option (Option Nat × State) :=
  match s.fromCache pages flags with
  | (some mem, s) => some (some mem, s.take mem pages)
  | (none, s) =>
    match findbit s.free (s.startscan flags.maxpage) pages with
    | none => none
    | some (some mem) => some (some mem, s.take mem pages)
    | some none =>
      match findbit s.free flags.maxpage pages with
      | none => none
      | some (some mem) => some (some mem, s.take mem pages)
      | some none => some (none, s)

/-- A turn of the loop of `free_pages`. -/
def freePage (s : State) (i : Nat) : State :=
  { s with
    free := Function.update s.free i true
    cache := if s.cache.length < pageCacheMax then i :: s.cache else s.cache }

def freeMem (s : State) (base clicks : Nat) : State := (List.range' base clicks).foldl freePage s

end State

structure Block where
  base : Nat
  clicks : Nat
  deriving DecidableEq, Repr

/-- The pages that are freed one block after the other. -/
def State.freeBlocks (s : State) (bs : List Block) : State := bs.foldl (fun s b => s.freeMem b.base b.clicks) s

def Flags.alignClicks (flags : Flags) : Nat :=
  if flags.align64k then 16 else if flags.align16k then 4 else 0

/-- `alloc_pages` takes the number of pages as an `int`. -/
def toInt (clicks : Nat) : Int := Int.bmod clicks (2 ^ 32)

/-- The attempts of `alloc_mem`. `yielded` are the blocks that `free_yielded` frees, if it is
called. -/
def State.allocOrYield (s : State) (pages : Int) (flags : Flags) (yielded : List Block) :
    Option (Option Nat × State) :=
  match s.allocPages pages flags with
  | none => none
  | some (some mem, s) => some (some mem, s)
  | some (none, s) => (s.freeBlocks yielded).allocPages pages flags

/-- The block is longer by the alignment; the pages before the aligned part go back. -/
def State.allocMem (s : State) (clicks : Nat) (flags : Flags) (yielded : List Block) :
    Option (Option Nat × State) :=
  match s.allocOrYield (toInt (clicks + flags.alignClicks)) flags yielded with
  | none => none
  | some (none, s) => some (none, s)
  | some (some mem, s) =>
    let o := mem % flags.alignClicks
    if flags.alignClicks = 0 ∨ o = 0 then some (some mem, s)
    else some (some (mem + (flags.alignClicks - o)), s.freeMem mem (flags.alignClicks - o))

/-! ## What an allocation should do -/

def Run (free : Nat → Bool) (mem pages : Nat) : Prop := ∀ i, mem ≤ i → i < mem + pages → free i

/-- The number of pages below the limit that is asked for. -/
def Flags.limit (flags : Flags) : Nat :=
  if flags.lower1mb then boundary1 else if flags.lower16mb then boundary16 else numberPhysicalPages

def Flags.align (flags : Flags) : Nat := if flags.align64k then 16 else if flags.align16k then 4 else 1

structure Suitable (free : Nat → Bool) (clicks : Nat) (flags : Flags) (mem : Nat) : Prop where
  run : Run free mem clicks
  aligned : mem % flags.align = 0
  below : mem + clicks ≤ flags.limit

/-- What an allocation that returns `res` does to the free pages. -/
def Served (free free' : Nat → Bool) (clicks : Nat) (flags : Flags) : Option Nat → Prop
  | some mem => Suitable free clicks flags mem ∧
      ∀ i, free' i = if mem ≤ i ∧ i < mem + clicks then false else free i
  | none => (∀ i, free' i = free i) ∧ ∀ mem, ¬ Suitable free clicks flags mem

/-! ## The scan -/

section Scan

variable {free : Nat → Bool} {i n chunk start run : Nat}

theorem free_of_chunkEmpty (h : chunkEmpty free chunk) {i : Nat} (hi : i / bitchunkBits = chunk) :
    free i = false := by
  unfold chunkEmpty at h
  rw [List.all_eq_true] at h
  have hmod := h (i % bitchunkBits) (List.mem_range.mpr (Nat.mod_lt _ (by decide)))
  rw [← hi, Nat.div_add_mod'] at hmod
  simpa using hmod

theorem skipChunks_spec (free : Nat → Bool) (chunk : Nat) : skipChunks free chunk ≤ chunk ∧
      ∀ i, skipChunks free chunk < i / bitchunkBits → i / bitchunkBits ≤ chunk → free i = false := by
  induction chunk with
  | zero => exact ⟨le_rfl, fun i hlo hhi => by omega⟩
  | succ chunk ih =>
    rw [skipChunks]
    split
    · next hempty =>
      refine ⟨ih.1.trans (Nat.le_succ _), fun i hlo hhi => ?_⟩
      obtain hlt | heq := Nat.lt_or_eq_of_le hhi
      · exact ih.2 i hlo (Nat.le_of_lt_succ hlt)
      · exact free_of_chunkEmpty hempty heq
    · exact ⟨le_rfl, fun i hlo hhi => absurd hlo (not_lt.mpr hhi)⟩

theorem skipFrom_spec (hi : free i = false) :
    skipFrom free i ≤ i ∧ ∀ j, skipFrom free i ≤ j → j ≤ i → free j = false := by
  obtain ⟨hle, hskip⟩ := skipChunks_spec free (i / bitchunkBits)
  unfold skipFrom
  dsimp only
  split
  · refine ⟨le_rfl, fun j hlo hhi => ?_⟩
    rwa [Nat.le_antisymm hhi hlo]
  next hne =>
  unfold bitchunkBits at *
  refine ⟨by omega, fun j hlo hhi => hskip j ?_ ?_⟩
  · omega
  · omega

/-- The pages of the run are free, and any run that is wanted ends where this one does, or before.
-/
structure Scanned (free : Nat → Bool) (pages top n start run : Nat) : Prop where
  short : run < pages
  start : run ≠ 0 → start = n
  block : Run free n run
  inside : n + run ≤ top
  rest : ∀ mem, Run free mem pages → mem + pages ≤ top → mem + pages ≤ n + run

theorem findbitLoop_spec {pages top rounds : Nat} (h : Scanned free pages top n start run) (hn : n ≤ rounds) :
    ∃ res, findbitLoop free pages rounds n start run = some res ∧ match res with
      | some mem => Run free mem pages ∧ mem + pages ≤ top
      | none => ∀ mem, Run free mem pages → ¬ mem + pages ≤ top := by
  induction rounds generalizing n start run with
  | zero =>
    obtain rfl : n = 0 := Nat.le_zero.mp hn
    refine ⟨none, rfl, fun mem hmem hle => ?_⟩
    have hrest := h.rest mem hmem hle
    have hshort := h.short
    omega
  | succ rounds ih =>
    cases n with
    | zero =>
      refine ⟨none, rfl, fun mem hmem hle => ?_⟩
      have hrest := h.rest mem hmem hle
      have hshort := h.short
      omega
    | succ i =>
      have hshort := h.short
      have htop := h.inside
      rw [findbitLoop]
      split
      · next hfree =>
        -- one more page of the run
        have hstart : (if run = 0 then i else start - 1) = i := by
          split
          · rfl
          · next hne => rw [h.start hne, Nat.add_sub_cancel]
        have hrun : Run free i (run + 1) := by
          intro j hlo hhi
          obtain rfl | hlt := Nat.eq_or_lt_of_le hlo
          · exact hfree
          · exact h.block j hlt (by omega)
        dsimp only
        rw [hstart, if_neg (by omega)]
        split
        · next heq =>
          have heq' : run + 1 = pages := by exact_mod_cast heq
          exact ⟨some i, rfl, heq' ▸ hrun, by omega⟩
        next hne =>
        have hne' : run + 1 ≠ pages := by exact_mod_cast hne
        refine ih ⟨by omega, fun _ => rfl, hrun, by omega, fun mem hmem hle => ?_⟩
          (Nat.le_of_succ_le_succ hn)
        have hrest := h.rest mem hmem hle
        omega
      next hfree =>
      -- a run that is wanted lies wholly below the pages that are skipped
      obtain ⟨hle, hskip⟩ := skipFrom_spec (by simpa using hfree)
      refine ih ⟨by omega, fun hzero => absurd rfl hzero, fun j hlo hhi => by omega, by omega,
        fun mem hmem hin => ?_⟩ (by omega)
      have hrest := h.rest mem hmem hin
      by_contra hlow
      have hpage : i < mem := by
        by_contra hmi
        have hbusy : ∀ j, mem ≤ j → j < mem + pages → skipFrom free i ≤ j → ¬ j ≤ i := by
          intro j hj hj' hge hji
          have hfalse := hskip j hge hji
          rw [hmem j hj hj'] at hfalse
          cases hfalse
        have := hbusy (max mem (skipFrom free i)) (le_max_left ..) (by omega) (le_max_right ..)
        omega
      omega

theorem findbit_spec (free : Nat → Bool) {pages : Nat} (hpages : 0 < pages) (startscan : Nat) :
    ∃ res, findbit free startscan pages = some res ∧ match res with
      | some mem => Run free mem pages ∧ mem + pages ≤ startscan + 1
      | none => ∀ mem, Run free mem pages → ¬ mem + pages ≤ startscan + 1 :=
  findbitLoop_spec ⟨hpages, fun hzero => absurd rfl hzero, fun j hlo hhi => by omega, le_rfl,
    fun _ _ hle => hle⟩ le_rfl

end Scan

/-! ## Allocation -/

section Allocation

variable {s s' : State} {flags : Flags} {free : Nat → Bool} {clicks : Nat} {yielded : List Block}

theorem popCache_free (free : Nat → Bool) (cache : List Nat) {i : Nat} (h : (popCache free cache).1 = some i) :
    free i := by
  induction cache with
  | nil => cases h
  | cons j cache ih =>
    rw [popCache] at h
    split at h
    · next hfree =>
      cases h
      exact hfree
    · exact ih h

def State.Bounded (s : State) : Prop := ∀ i, s.free i → i < numberPhysicalPages

theorem startscan_le (s : State) (maxpage : Nat) : s.startscan maxpage ≤ maxpage := by
  unfold State.startscan
  split
  · omega
  · exact le_rfl

/-- What `alloc_pages` finds below the limit, and what it does to the free pages. -/
def Found (free free' : Nat → Bool) (pages maxpage : Nat) : Option Nat → Prop
  | some mem => (Run free mem pages ∧ mem + pages ≤ maxpage + 1) ∧
      ∀ i, free' i = if mem ≤ i ∧ i < mem + pages then false else free i
  | none => (∀ i, free' i = free i) ∧ ∀ mem, Run free mem pages → ¬ mem + pages ≤ maxpage + 1

theorem found_take {mem pages maxpage : Nat} (hrun : Run s.free mem pages) (hle : mem + pages ≤ maxpage + 1)
    (hfree : s.free = free) : Found free (s.take mem pages).free pages maxpage (some mem) := by
  subst hfree
  refine ⟨⟨hrun, hle⟩, fun i => ?_⟩
  unfold State.take
  dsimp only
  congr 1
  exact propext (and_congr_right fun _ => by omega)

theorem fromCache_spec (h : s.Bounded) (pages : Nat) (flags : Flags) :
    (s.fromCache pages flags).2.free = s.free ∧ ∀ mem, (s.fromCache pages flags).1 = some mem →
      pages = 1 ∧ s.free mem ∧ mem ≤ flags.maxpage := by
  unfold State.fromCache
  split
  · next hany =>
    refine ⟨rfl, fun mem hmem => ?_⟩
    have hfree := popCache_free s.free s.cache hmem
    have hlt := h mem hfree
    unfold Flags.maxpage
    rw [if_neg hany.1, if_neg hany.2.1]
    exact ⟨by exact_mod_cast hany.2.2, hfree, by omega⟩
  · exact ⟨rfl, fun mem hmem => by cases hmem⟩

theorem allocPages_spec (h : s.Bounded) {pages : Nat} (hpages : 0 < pages) (flags : Flags) :
    ∃ res s', s.allocPages pages flags = some (res, s') ∧ Found s.free s'.free pages flags.maxpage res := by
  obtain ⟨hfree, hcache⟩ := fromCache_spec h pages flags
  unfold State.allocPages
  generalize s.fromCache pages flags = taken at hfree hcache
  obtain ⟨_ | mem, s1⟩ := taken
  · dsimp only at hfree ⊢
    obtain ⟨res, hres, hfirst⟩ := findbit_spec s1.free hpages (s1.startscan flags.maxpage)
    rw [hres]
    cases res with
    | some mem =>
      have hle := startscan_le s1 flags.maxpage
      exact ⟨some mem, _, rfl, found_take hfirst.1 (by have := hfirst.2; omega) hfree⟩
    | none =>
      obtain ⟨res, hres, hall⟩ := findbit_spec s1.free hpages flags.maxpage
      dsimp only
      rw [hres]
      cases res with
      | some mem => exact ⟨some mem, _, rfl, found_take hall.1 hall.2 hfree⟩
      | none => exact ⟨none, s1, rfl, fun i => congrFun hfree i, hfree ▸ hall⟩
  · obtain ⟨rfl, hmem, hle⟩ := hcache mem rfl
    refine ⟨some mem, _, rfl, found_take (fun i hlo hhi => ?_) (Nat.succ_le_succ hle) hfree⟩
    rw [hfree, show i = mem by omega]
    exact hmem

/-! ## Pages that are freed -/

def Block.has (b : Block) (i : Nat) : Bool := b.base ≤ i ∧ i < b.base + b.clicks

theorem free_freeMem (s : State) (b : Block) (i : Nat) :
    (s.freeMem b.base b.clicks).free i = (s.free i || b.has i) := by
  have hfold (is : List Nat) (s : State) : (is.foldl State.freePage s).free i = (s.free i || decide (i ∈ is)) := by
    induction is generalizing s with
    | nil => simp
    | cons j is ih =>
      rw [List.foldl_cons, ih]
      unfold State.freePage
      dsimp only
      rw [Function.update_apply]
      by_cases hij : i = j
      · subst hij
        simp
      · simp [hij]
  unfold State.freeMem Block.has
  rw [hfold]
  simp only [List.mem_range'_1]

theorem free_freeBlocks (s : State) (bs : List Block) (i : Nat) :
    (s.freeBlocks bs).free i = (s.free i || bs.any fun b => b.has i) := by
  induction bs generalizing s with
  | nil => simp [State.freeBlocks]
  | cons b bs ih =>
    have hcons : s.freeBlocks (b :: bs) = (s.freeMem b.base b.clicks).freeBlocks bs := rfl
    rw [hcons, ih, free_freeMem, List.any_cons, Bool.or_assoc]

theorem freeBlocks_congr (h : s'.free = s.free) (bs : List Block) :
    (s'.freeBlocks bs).free = (s.freeBlocks bs).free := by
  funext i
  rw [free_freeBlocks, free_freeBlocks, h]

/-! ## Requests -/

/-- The first attempt of `alloc_mem` finds nothing, and it calls `free_yielded`. -/
def State.yields (s : State) (clicks : Nat) (flags : Flags) : Bool :=
  match s.allocPages (toInt (clicks + flags.alignClicks)) flags with
  | some (none, _) => true
  | _ => false

/-- The free pages that the request is served from. -/
def State.freeFor (s : State) (clicks : Nat) (flags : Flags) (yielded : List Block) : Nat → Bool :=
  if s.yields clicks flags then (s.freeBlocks yielded).free else s.free

/-- The number of pages is positive and an `int`, at most one limit is given, and nothing would do if an alignment is asked for. -/
structure Clean (s : State) (clicks : Nat) (flags : Flags) (yielded : List Block) : Prop where
  pos : 0 < clicks
  small : clicks + flags.alignClicks < 2 ^ 31
  limits : ¬ (flags.lower16mb ∧ flags.lower1mb)
  aligned : flags.alignClicks ≠ 0 → ∀ mem, ¬ Suitable (s.freeBlocks yielded).free clicks flags mem

theorem toInt_eq {n : Nat} (h : n < 2 ^ 31) : toInt n = n := by
  unfold toInt
  rw [Int.bmod_def]
  split <;> omega

theorem maxpage_eq (h : ¬ (flags.lower16mb ∧ flags.lower1mb)) : flags.maxpage + 1 = flags.limit := by
  obtain ⟨a, b, c, d⟩ := flags
  unfold Flags.maxpage Flags.limit
  cases c <;> cases d
  · rfl
  · rfl
  · rfl
  · exact absurd ⟨rfl, rfl⟩ h

theorem align_eq (flags : Flags) : flags.align = if flags.alignClicks = 0 then 1 else flags.alignClicks := by
  obtain ⟨a, b, c, d⟩ := flags
  cases a <;> cases b <;> rfl

theorem align_pos (flags : Flags) : 0 < flags.align := by
  rw [align_eq]
  split <;> omega

theorem exists_aligned {mem : Nat} (hrun : Run free mem (clicks + flags.align))
    (hle : mem + (clicks + flags.align) ≤ flags.limit) : ∃ mem', Suitable free clicks flags mem' := by
  have hdiv := Nat.div_add_mod' mem flags.align
  have hmod := Nat.mod_lt mem (align_pos flags)
  have hsucc : (mem / flags.align + 1) * flags.align = mem / flags.align * flags.align + flags.align :=
    Nat.succ_mul ..
  exact ⟨(mem / flags.align + 1) * flags.align, fun i hlo hhi => hrun i (by omega) (by omega),
    Nat.mul_mod_left .., by omega⟩

theorem served_of_found (hlimits : ¬ (flags.lower16mb ∧ flags.lower1mb)) {free' : Nat → Bool} {res : Option Nat}
    (h : Found free free' (clicks + flags.alignClicks) flags.maxpage res)
    (hnone : flags.alignClicks ≠ 0 → ∀ mem, ¬ Suitable free clicks flags mem) :
    Served free free' clicks flags res ∧ ∀ mem, res = some mem → flags.alignClicks = 0 := by
  unfold Found at h
  rw [maxpage_eq hlimits] at h
  by_cases halign : flags.alignClicks = 0
  · rw [halign, Nat.add_zero] at h
    have hone : flags.align = 1 := by rw [align_eq, if_pos halign]
    cases res with
    | none => exact ⟨⟨h.1, fun mem hmem => h.2 mem hmem.run hmem.below⟩, fun _ _ => halign⟩
    | some mem => exact ⟨⟨⟨h.1.1, by rw [hone, Nat.mod_one], h.1.2⟩, h.2⟩, fun _ _ => halign⟩
  have hclicks : flags.alignClicks = flags.align := by rw [align_eq, if_neg halign]
  cases res with
  | none => exact ⟨⟨h.1, hnone halign⟩, fun mem hmem => by cases hmem⟩
  | some mem =>
    obtain ⟨⟨hrun, hle⟩, -⟩ := h
    rw [hclicks] at hrun hle
    obtain ⟨mem', hmem'⟩ := exists_aligned hrun hle
    exact absurd hmem' (hnone halign mem')

theorem allocOrYield_spec (h : s.Bounded) (hy : (s.freeBlocks yielded).Bounded)
    (hclean : Clean s clicks flags yielded) :
    ∃ res s', s.allocOrYield (clicks + flags.alignClicks : Nat) flags yielded = some (res, s') ∧
      Served (s.freeFor clicks flags yielded) s'.free clicks flags res ∧
      ∀ mem, res = some mem → flags.alignClicks = 0 := by
  obtain ⟨hpos, hsmall, hlimits, haligned⟩ := hclean
  have hmore : ∀ mem, Suitable s.free clicks flags mem → Suitable (s.freeBlocks yielded).free clicks flags mem :=
    fun mem hmem => ⟨fun i hlo hhi => by rw [free_freeBlocks, hmem.run i hlo hhi, Bool.true_or],
      hmem.aligned, hmem.below⟩
  obtain ⟨res, s1, hfirst, hfound⟩ := allocPages_spec h (Nat.add_pos_left hpos flags.alignClicks) flags
  unfold State.allocOrYield State.freeFor State.yields
  rw [toInt_eq hsmall, hfirst]
  cases res with
  | some mem =>
    obtain ⟨hserved, hzero⟩ := served_of_found hlimits hfound fun halign mem hmem =>
      haligned halign mem (hmore mem hmem)
    exact ⟨some mem, s1, rfl, hserved, hzero⟩
  | none =>
    have hcongr := freeBlocks_congr (funext hfound.1) yielded
    have hbounded : (s1.freeBlocks yielded).Bounded := fun i hi => hy i (by rwa [← hcongr])
    obtain ⟨res, s2, hsecond, hfound'⟩ :=
      allocPages_spec hbounded (Nat.add_pos_left hpos flags.alignClicks) flags
    rw [hcongr] at hfound'
    obtain ⟨hserved, hzero⟩ := served_of_found hlimits hfound' haligned
    exact ⟨res, s2, hsecond, hserved, hzero⟩

theorem allocMem_spec (h : s.Bounded) (hy : (s.freeBlocks yielded).Bounded) (hclean : Clean s clicks flags yielded) :
    ∃ res s', s.allocMem clicks flags yielded = some (res, s') ∧
      Served (s.freeFor clicks flags yielded) s'.free clicks flags res := by
  obtain ⟨res, s', hrun, hserved, hzero⟩ := allocOrYield_spec h hy hclean
  refine ⟨res, s', ?_, hserved⟩
  unfold State.allocMem
  rw [toInt_eq hclean.small, hrun]
  cases res with
  | none => rfl
  | some mem => exact if_pos (.inl (hzero mem rfl))

end Allocation

end HardenedMinix.PhysAlloc
