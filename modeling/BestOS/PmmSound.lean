/-
BestOS/PmmSound.lean

What the frame allocator is for, and how far `pmm.c` gets there.

A run starts in the state `pmm_initialize` builds and is any sequence of
`pmm_allocate(n)` and of `pmm_free(p, n)` on ranges handed out earlier and not
yet freed.  `PmmRun ok start s live` is such a run, ending in state `s` with
the ranges `live` outstanding, in which every allocation met the condition
`ok` when it was called.

The abstract statement is `Pool.Inv` of `BestOS/ResourcePool.lean`, at page
indices.  The allocator refines it as long as each allocation is
`AllocateSafe`: the pages following the lowest free page are free as well.
`pmm_allocate` never tests them, and `fragmented_not_sound` is a run of four
calls after which two live ranges would overlap.
-/
import BestOS.Pmm
import BestOS.ResourcePool

namespace BestOS

open ByteMemory ResourcePool

/-! ### The memory map -/

/-- Page `k` lies in the entry. -/
def MmapEntry.Covers (e : MmapEntry) (k : Nat) : Prop :=
  e.base ≤ k * PAGE_SIZE ∧ k * PAGE_SIZE + PAGE_SIZE ≤ e.base + e.length

/-- Page `k` is usable in the memory map. -/
def UsablePage (map : List MmapEntry) (k : Nat) : Prop :=
  ∃ e ∈ map, e.type = .usable ∧ e.Covers k

/-- What the stivale2 protocol promises of a memory map: entries are ranges of
addresses, and usable entries are page-aligned and do not overlap. -/
structure MemoryMapOk (map : List MmapEntry) : Prop where
  no_wrap : ∀ e ∈ map, e.base + e.length < 2 ^ 64
  aligned : ∀ e ∈ map, e.type = .usable → e.base % PAGE_SIZE = 0 ∧ e.length % PAGE_SIZE = 0
  disjoint : map.Pairwise fun e e' => e.type = .usable → e'.type = .usable →
    e.base + e.length ≤ e'.base ∨ e'.base + e'.length ≤ e.base

/-- The bitmap finds a place and has a bit for every page below
`highest_page`. -/
structure BitmapFits (map : List MmapEntry) : Prop where
  placed : ∃ e ∈ map, e.type = .usable ∧ e.length ≥ bitmapSize (scanHighest map 0)
  covers : scanHighest map 0 / PAGE_SIZE ≤ 8 * bitmapSize (scanHighest map 0)

theorem bitmapSize_aligned (h : Nat) : bitmapSize h % PAGE_SIZE = 0 := by
  rw [bitmapSize, alignUp_page]
  exact Nat.mul_mod_left _ _

/-! ### The state after `pmm_initialize` -/

theorem MemoryMapOk.tail {e : MmapEntry} {es : List MmapEntry} (h : MemoryMapOk (e :: es)) :
    MemoryMapOk es where
  no_wrap := fun x hx => h.no_wrap x (List.mem_cons_of_mem e hx)
  aligned := fun x hx => h.aligned x (List.mem_cons_of_mem e hx)
  disjoint := (List.pairwise_cons.mp h.disjoint).2

/-- Every usable entry left after the bitmap has been carved out is part of a
usable entry of the original map, and is still page-aligned. -/
theorem carveBitmap_sub {size : Nat} (hs : size % PAGE_SIZE = 0) :
    ∀ {map : List MmapEntry} (_ : MemoryMapOk map), ∀ e' ∈ (carveBitmap size map).2,
      e'.type = .usable → ∃ e ∈ map, e.type = .usable ∧ e.base ≤ e'.base ∧
        e'.base + e'.length ≤ e.base + e.length ∧ e'.base % PAGE_SIZE = 0 ∧
        e'.base + e'.length < 2 ^ 64
  | [], _, e', he', _ => by simp [carveBitmap] at he'
  | e :: es, hmap, e', he', hu => by
    have hw := hmap.no_wrap e (by simp)
    -- an entry that is left as it was
    have whole : e' ∈ e :: es → ∃ x ∈ e :: es, x.type = .usable ∧ x.base ≤ e'.base ∧
        e'.base + e'.length ≤ x.base + x.length ∧ e'.base % PAGE_SIZE = 0 ∧
        e'.base + e'.length < 2 ^ 64 := fun hmem =>
      ⟨e', hmem, hu, Nat.le_refl _, Nat.le_refl _, (hmap.aligned e' hmem hu).1,
        hmap.no_wrap e' hmem⟩
    rw [carveBitmap] at he'
    split at he'
    · rename_i hfit
      rcases List.mem_cons.mp he' with rfl | hmem
      · -- the entry that holds the bitmap
        have hbase : (e.base + size) % 2 ^ 64 = e.base + size := Nat.mod_eq_of_lt (by omega)
        have hal := (hmap.aligned e (by simp) hfit.1).1
        refine ⟨e, by simp, hfit.1, ?_, ?_, ?_, ?_⟩
        all_goals simp only [hbase]
        · omega
        · omega
        · rw [Nat.add_mod, hal, hs]; rfl
        · omega
      · exact whole (by simp [hmem])
    · rcases List.mem_cons.mp he' with rfl | hmem
      · exact whole (by simp)
      · obtain ⟨x, hx, h⟩ := carveBitmap_sub hs hmap.tail e' hmem hu
        exact ⟨x, by simp [hx], h⟩

/-- Releasing the usable entries clears the bits of their pages. -/
theorem pageUsed_releaseUsable {es : List MmapEntry} (s : Machine)
    (hw : ∀ e ∈ es, e.type = .usable → e.base + e.length < 2 ^ 64) {k : Nat}
    (hfree : pageUsed (releaseUsable s es) k = false) :
    pageUsed s k = false ∨ ∃ e ∈ es, e.type = .usable ∧
      e.base / PAGE_SIZE ≤ k ∧ k < e.base / PAGE_SIZE + e.length / PAGE_SIZE := by
  induction es generalizing s with
  | nil => exact .inl hfree
  | cons e es ih =>
      rw [releaseUsable] at hfree
      rcases ih _ (fun x hx => hw x (by simp [hx])) hfree with h | ⟨x, hx, h⟩
      · split at h
        · rename_i hu
          have hlen : e.base + e.length / PAGE_SIZE * PAGE_SIZE ≤ 2 ^ 64 := by
            have h1 := hw e (by simp) hu
            have h2 := Nat.div_mul_le_self e.length PAGE_SIZE
            omega
          rw [pageUsed_pmmFree _ _ _ _ hlen] at h
          by_cases hin : e.base / PAGE_SIZE ≤ k ∧ k < e.base / PAGE_SIZE + e.length / PAGE_SIZE
          · exact .inr ⟨e, by simp, hu, hin⟩
          · rw [decide_eq_false hin] at h
            exact .inl (by simpa using h)
        · exact .inl h
      · exact .inr ⟨x, by simp [hx], h⟩

@[simp] theorem releaseUsable_bitmap (s : Machine) (es : List MmapEntry) :
    (releaseUsable s es).bitmap = s.bitmap := by
  induction es generalizing s with
  | nil => rfl
  | cons e es ih =>
      rw [releaseUsable, ih]
      split
      · exact pmmFree_bitmap _ _ _
      · rfl

@[simp] theorem releaseUsable_highestPage (s : Machine) (es : List MmapEntry) :
    (releaseUsable s es).highestPage = s.highestPage := by
  induction es generalizing s with
  | nil => rfl
  | cons e es ih =>
      rw [releaseUsable, ih]
      split
      · exact pmmFree_highestPage _ _ _
      · rfl

/-- Bits of a bitmap filled with ones are set. -/
theorem bitTest_memset_ones (m : Mem) (map size : Nat) {k : Nat} (hk : k < 8 * size) :
    bitTest k (memset m map 0xff#8 size) map = true := by
  rw [bitTest_eq_getLsbD, memset_apply, if_pos (by omega)]
  have hall : ∀ i < 8, (0xff#8).getLsbD i = true := by decide
  exact hall _ (Nat.mod_lt _ (by decide))

theorem scanHighest_lt (map : List MmapEntry) {h : Nat} (hh : h < 2 ^ 64) :
    scanHighest map h < 2 ^ 64 := by
  induction map generalizing h with
  | nil => exact hh
  | cons e es ih =>
      rw [scanHighest, List.foldl_cons]
      apply ih
      have htop : (e.base + e.length) % 2 ^ 64 < 2 ^ 64 := Nat.mod_lt _ (by decide)
      split
      · dsimp only
        split <;> assumption
      · exact hh

/-- What `pmm_initialize` returns, when it returns. -/
theorem pmmInitialize_eq {mem : Mem} {map map' : List MmapEntry} {start : Machine}
    (h : pmmInitialize mem map = some (start, map')) :
    start.highestPage = scanHighest map 0 ∧
    start.bitmap = ⟨((carveBitmap (bitmapSize (scanHighest map 0)) map).1).getD 0,
      bitmapSize (scanHighest map 0)⟩ ∧
    ∃ s : Machine, s.bitmap = start.bitmap ∧
      s.mem = memset mem start.bitmap.data 0xff#8 start.bitmap.size ∧
      start = releaseUsable s (carveBitmap (bitmapSize (scanHighest map 0)) map).2 := by
  unfold pmmInitialize at h
  dsimp only at h
  split at h
  · cases h
  · simp only [Option.some.injEq, Prod.mk.injEq] at h
    obtain ⟨rfl, -⟩ := h
    refine ⟨by simp, by simp, _, ?_, ?_, rfl⟩
    · simp
    · simp

/-- The memory map that `pmm_initialize` leaves for `vmm_initialize`. -/
theorem pmmInitialize_map {mem : Mem} {map map' : List MmapEntry} {start : Machine}
    (h : pmmInitialize mem map = some (start, map')) :
    map' = (carveBitmap (bitmapSize (scanHighest map 0)) map).2 := by
  unfold pmmInitialize at h
  dsimp only at h
  split at h
  · cases h
  · simp only [Option.some.injEq, Prod.mk.injEq] at h
    exact h.2.symm

/-- After `pmm_initialize` every clear bit below `highest_page` belongs to a
usable page. -/
theorem pmmInitialize_free_usable {mem : Mem} {map map' : List MmapEntry} {start : Machine}
    (hmap : MemoryMapOk map) (hfit : BitmapFits map)
    (h : pmmInitialize mem map = some (start, map')) {k : Nat}
    (hk : k < start.highestPage / PAGE_SIZE) (hfree : pageUsed start k = false) :
    UsablePage map k := by
  obtain ⟨hhigh, hbm, s, hsb, hsm, hstart⟩ := pmmInitialize_eq h
  have hsub := carveBitmap_sub (bitmapSize_aligned (scanHighest map 0)) hmap
  rw [hstart] at hfree
  have hw : ∀ e ∈ (carveBitmap (bitmapSize (scanHighest map 0)) map).2, e.type = .usable →
      e.base + e.length < 2 ^ 64 := by
    intro e he hu
    obtain ⟨_, _, _, _, _, _, hlt⟩ := hsub e he hu
    exact hlt
  rcases pageUsed_releaseUsable s hw hfree with hbit | ⟨e', he', hu, hlo, hhi⟩
  · -- the bitmap was filled with ones, and covers page `k`
    have hk8 : k < 8 * start.bitmap.size := by
      rw [hbm]
      rw [hhigh] at hk
      exact Nat.lt_of_lt_of_le hk hfit.covers
    have hone := bitTest_memset_ones mem start.bitmap.data start.bitmap.size hk8
    rw [pageUsed, hsm, hsb, hone] at hbit
    cases hbit
  · obtain ⟨e, he, hue, hb, ht, hal, -⟩ := hsub e' he' hu
    refine ⟨e, he, hue, ?_, ?_⟩
    · have := Nat.div_mul_cancel (Nat.dvd_of_mod_eq_zero hal)
      have := Nat.mul_le_mul_right PAGE_SIZE hlo
      omega
    · have h1 := Nat.mul_le_mul_right PAGE_SIZE (Nat.succ_le_of_lt hhi)
      rw [Nat.succ_mul, Nat.add_mul, Nat.div_mul_cancel (Nat.dvd_of_mod_eq_zero hal)] at h1
      have h2 := Nat.div_mul_le_self e'.length PAGE_SIZE
      omega

/-! ### Runs -/

/-- Runs of `pmm_allocate` and `pmm_free` from `start`: the state reached, and
the ranges (address, page count) handed out and not yet freed.  Every
allocation satisfies `ok` in the state it is called in. -/
inductive PmmRun (ok : Machine → Nat → Prop) (start : Machine) :
    Machine → List (Nat × Nat) → Prop
  | start : PmmRun ok start start []
  | allocate {s live n} : PmmRun ok start s live → 1 ≤ n → ok s n → (pmmAllocate s n).1 ≠ 0 →
      PmmRun ok start (pmmAllocate s n).2 (((pmmAllocate s n).1, n) :: live)
  | refuse {s live n} : PmmRun ok start s live → 1 ≤ n → ok s n → (pmmAllocate s n).1 = 0 →
      PmmRun ok start (pmmAllocate s n).2 live
  | free {s p n} (l₁ l₂) : PmmRun ok start s (l₁ ++ (p, n) :: l₂) →
      PmmRun ok start (pmmFree s p n) (l₁ ++ l₂)

/-- The pages of a range. -/
def pagesOf (r : Nat × Nat) : Set Nat :=
  { k | r.1 / PAGE_SIZE ≤ k ∧ k < r.1 / PAGE_SIZE + r.2 }

/-- The pages the allocator would hand out. -/
def freePages (s : Machine) : Set Nat :=
  { k | k < s.highestPage / PAGE_SIZE ∧ pageUsed s k = false }

/-- A successful `pmm_allocate(n)` in `s` returns pages that are all free and
all below `highest_page`. -/
def AllocatesFree (s : Machine) (n : Nat) : Prop :=
  (pmmAllocate s n).1 ≠ 0 → ∀ j < n,
    pageUsed s ((pmmAllocate s n).1 / PAGE_SIZE + j) = false ∧
    (pmmAllocate s n).1 / PAGE_SIZE + j < s.highestPage / PAGE_SIZE

/-- The outstanding ranges are pairwise disjoint and consist of usable
pages. -/
def LiveSound (map : List MmapEntry) (live : List (Nat × Nat)) : Prop :=
  (live.map pagesOf).Pairwise Disjoint ∧ ∀ r ∈ live, ∀ k ∈ pagesOf r, UsablePage map k

/-- The lowest free page, if it is not page 0 (whose address is `NULL`) and the
request is not refused outright, is followed by `n - 1` more free pages below
`highest_page`. -/
def AllocateSafe (s : Machine) (n : Nat) : Prop :=
  n > s.bitmap.size ∨ ∀ i, firstFree s = some i → i = 0 ∨
    ∀ j < n, i + j < s.highestPage / PAGE_SIZE ∧ pageUsed s (i + j) = false

theorem pageUsed_setPages_mono (s : Machine) (a n : Nat) {k : Nat} (h : pageUsed s k = true) :
    pageUsed (setPages s a n) k = true := by
  induction n with
  | zero => exact h
  | succ n ih => rw [setPages, pageUsed_setPage, ih, Bool.true_or]

/-- The two outcomes of an allocation: `NULL`, or the lowest free page. -/
theorem pmmAllocate_cases (s : Machine) {n : Nat} (hn : 1 ≤ n) :
    ((pmmAllocate s n).1 = 0 ∧ ((pmmAllocate s n).2 = s ∨
        (firstFree s = some 0 ∧ (pmmAllocate s n).2 = setPages s 0 n))) ∨
      ∃ i, i ≠ 0 ∧ n ≤ s.bitmap.size ∧ firstFree s = some i ∧
        pmmAllocate s n = (i * PAGE_SIZE, setPages s (i * PAGE_SIZE) n) := by
  rw [pmmAllocate_eq s hn]
  by_cases hbig : n > s.bitmap.size
  · rw [if_pos hbig]
    exact .inl ⟨rfl, .inl rfl⟩
  · rw [if_neg hbig]
    cases hf : firstFree s with
    | none => exact .inl ⟨rfl, .inl rfl⟩
    | some i =>
        by_cases hi : i = 0
        · subst hi
          exact .inl ⟨by simp, .inr ⟨rfl, by simp⟩⟩
        · exact .inr ⟨i, hi, Nat.le_of_not_lt hbig, rfl, rfl⟩

/-- **One allocation, exactly**: it hands out free pages only if and only if
the lowest free page is followed by enough free pages. -/
theorem allocatesFree_iff (s : Machine) {n : Nat} (hn : 1 ≤ n) :
    AllocatesFree s n ↔ AllocateSafe s n := by
  have hdiv : ∀ i, i * PAGE_SIZE / PAGE_SIZE = i := fun i => Nat.mul_div_cancel i (by decide)
  unfold AllocatesFree AllocateSafe
  rcases pmmAllocate_cases s hn with ⟨hnull, hst⟩ | ⟨i, hi, hsize, hf, heq⟩
  · refine ⟨fun _ => ?_, fun _ hne => absurd hnull hne⟩
    rw [pmmAllocate_eq s hn] at hnull
    by_cases hbig : n > s.bitmap.size
    · exact .inl hbig
    · rw [if_neg hbig] at hnull
      refine .inr fun i hf => .inl ?_
      rw [hf] at hnull
      exact (Nat.mul_eq_zero.mp hnull).resolve_right (by decide)
  · rw [heq]
    simp only [hdiv]
    constructor
    · intro h
      refine .inr fun i' hf' => .inr fun j hj => ?_
      obtain rfl : i = i' := by simpa [hf] using hf'
      have hne : i * PAGE_SIZE ≠ 0 := Nat.mul_ne_zero hi (by decide)
      exact ⟨(h hne j hj).2, (h hne j hj).1⟩
    · rintro (hbig | hsafe) - j hj
      · omega
      · obtain h0 | hall := hsafe i hf
        · exact absurd h0 hi
        · exact ⟨(hall j hj).2, (hall j hj).1⟩

/-! ### The invariant -/

/-- The run invariant: the abstract pool invariant at the allocator's pages,
and what keeps address arithmetic from wrapping. -/
structure PmmInv (map : List MmapEntry) (s : Machine) (live : List (Nat × Nat)) : Prop where
  high : s.highestPage < 2 ^ 64
  pool : Pool.Inv { k | UsablePage map k } (freePages s) (live.map pagesOf)
  inside : ∀ r ∈ live, r.1 / PAGE_SIZE + r.2 ≤ s.highestPage / PAGE_SIZE ∧ r.1 % PAGE_SIZE = 0

/-- A page-aligned range below `highest_page` does not wrap. -/
theorem range_no_wrap {a n high : Nat} (hal : a % PAGE_SIZE = 0) (hh : high < 2 ^ 64)
    (h : a / PAGE_SIZE + n ≤ high / PAGE_SIZE) : a + n * PAGE_SIZE ≤ 2 ^ 64 := by
  have ha := Nat.div_mul_cancel (Nat.dvd_of_mod_eq_zero hal)
  have hm := Nat.mul_le_mul_right PAGE_SIZE h
  rw [Nat.add_mul, ha] at hm
  have hle := Nat.div_mul_le_self high PAGE_SIZE
  omega

theorem freePages_setPages {s : Machine} {a n : Nat} (hw : a + n * PAGE_SIZE ≤ 2 ^ 64) :
    freePages (setPages s a n) = freePages s \ pagesOf (a, n) := by
  ext k
  simp only [freePages, pagesOf, Set.mem_ofPred_eq, Set.mem_sdiff, setPages_highestPage,
    pageUsed_setPages _ _ _ _ hw, Bool.or_eq_false_iff, decide_eq_false_iff_not]
  tauto

theorem freePages_pmmFree {s : Machine} {a n : Nat} (hw : a + n * PAGE_SIZE ≤ 2 ^ 64)
    (hin : a / PAGE_SIZE + n ≤ s.highestPage / PAGE_SIZE) :
    freePages (pmmFree s a n) = freePages s ∪ pagesOf (a, n) := by
  ext k
  simp only [freePages, pagesOf, Set.mem_ofPred_eq, Set.mem_union, pmmFree_highestPage,
    pageUsed_pmmFree _ _ _ _ hw, Bool.and_eq_false_iff, Bool.not_eq_false', decide_eq_true_eq]
  constructor
  · rintro ⟨hlt, hbit | hr⟩
    · exact .inl ⟨hlt, hbit⟩
    · exact .inr hr
  · rintro (⟨hlt, hbit⟩ | hr)
    · exact ⟨hlt, .inl hbit⟩
    · exact ⟨Nat.lt_of_lt_of_le hr.2 hin, .inr hr⟩

/-- A safe allocation that returns something has marked an aligned range of free
pages. -/
theorem pmmAllocate_served {s : Machine} {n : Nat} (hn : 1 ≤ n) (hok : AllocateSafe s n)
    (hne : (pmmAllocate s n).1 ≠ 0) :
    ∃ a, pmmAllocate s n = (a, setPages s a n) ∧ a % PAGE_SIZE = 0 ∧
      a / PAGE_SIZE + n ≤ s.highestPage / PAGE_SIZE ∧ pagesOf (a, n) ⊆ freePages s := by
  have hall := (allocatesFree_iff s hn).mpr hok hne
  rcases pmmAllocate_cases s hn with ⟨hnull, -⟩ | ⟨i, hi, hsize, hf, heq⟩
  · exact absurd hnull hne
  · have hdiv : i * PAGE_SIZE / PAGE_SIZE = i := Nat.mul_div_cancel i (by decide)
    rw [heq] at hall
    simp only [hdiv] at hall
    refine ⟨i * PAGE_SIZE, heq, Nat.mul_mod_left i PAGE_SIZE, ?_, ?_⟩
    · have := (hall (n - 1) (by omega)).2
      omega
    · rintro k ⟨hlo, hhi⟩
      simp only [hdiv] at hlo hhi
      have hk := hall (k - i) (by omega)
      rw [Nat.add_sub_cancel' hlo] at hk
      exact ⟨hk.2, hk.1⟩

theorem PmmInv.allocate {map : List MmapEntry} {s : Machine} {live : List (Nat × Nat)} {n : Nat}
    (h : PmmInv map s live) (hn : 1 ≤ n) (hok : AllocateSafe s n)
    (hne : (pmmAllocate s n).1 ≠ 0) :
    PmmInv map (pmmAllocate s n).2 (((pmmAllocate s n).1, n) :: live) := by
  obtain ⟨a, heq, hal, hin, hblock⟩ := pmmAllocate_served hn hok hne
  rw [heq]
  refine ⟨by simpa using h.high, ?_, ?_⟩
  · -- the block is free, and taking it removes it from the free pages
    rw [freePages_setPages (range_no_wrap hal h.high hin)]
    exact h.pool.take hblock
  · intro r hr
    rw [setPages_highestPage]
    rcases List.mem_cons.mp hr with rfl | hr
    · exact ⟨hin, hal⟩
    · exact h.inside r hr

theorem PmmInv.refuse {map : List MmapEntry} {s : Machine} {live : List (Nat × Nat)} {n : Nat}
    (h : PmmInv map s live) (hn : 1 ≤ n) (hz : (pmmAllocate s n).1 = 0) :
    PmmInv map (pmmAllocate s n).2 live := by
  rcases pmmAllocate_cases s hn with ⟨-, hst | ⟨-, hst⟩⟩ | ⟨i, hi, -, -, heq⟩
  · rw [hst]
    exact h
  · -- page 0 was free: its frames are marked but nobody owns them
    rw [hst]
    refine ⟨by simpa using h.high, h.pool.lose ?_, ?_⟩
    · rintro k ⟨hlt, hbit⟩
      refine ⟨by simpa using hlt, ?_⟩
      by_contra hused
      rw [pageUsed_setPages_mono s 0 n (by simpa using hused)] at hbit
      cases hbit
    · simpa using h.inside
  · rw [heq] at hz
    exact absurd (Nat.mul_eq_zero.mp hz) (by simp [hi, PAGE_SIZE])

theorem PmmInv.free {map : List MmapEntry} {s : Machine} {p n : Nat} {l₁ l₂ : List (Nat × Nat)}
    (h : PmmInv map s (l₁ ++ (p, n) :: l₂)) : PmmInv map (pmmFree s p n) (l₁ ++ l₂) := by
  obtain ⟨hin, hal⟩ := h.inside (p, n) (by simp)
  have hw := range_no_wrap hal h.high hin
  refine ⟨by simpa using h.high, ?_, ?_⟩
  · have hpool := h.pool
    rw [List.map_append, List.map_cons] at hpool
    rw [freePages_pmmFree hw hin, List.map_append]
    exact hpool.give
  · intro r hr
    rw [pmmFree_highestPage]
    refine h.inside r ?_
    simp only [List.mem_append, List.mem_cons] at hr ⊢
    tauto

theorem PmmInv.start {mem : Mem} {map map' : List MmapEntry} {start : Machine}
    (hmap : MemoryMapOk map) (hfit : BitmapFits map)
    (h : pmmInitialize mem map = some (start, map')) : PmmInv map start [] where
  high := by
    rw [(pmmInitialize_eq h).1]
    exact scanHighest_lt map (by decide)
  pool := Pool.Inv.start fun _ hk => pmmInitialize_free_usable hmap hfit h hk.1 hk.2
  inside := by simp

/-- The invariant holds along every run of safe allocations. -/
theorem PmmRun.inv {mem : Mem} {map map' : List MmapEntry} {start s : Machine}
    {live : List (Nat × Nat)} (hmap : MemoryMapOk map) (hfit : BitmapFits map)
    (h : pmmInitialize mem map = some (start, map')) (hrun : PmmRun AllocateSafe start s live) :
    PmmInv map s live := by
  induction hrun with
  | start => exact .start hmap hfit h
  | allocate _ hn hok hne ih => exact ih.allocate hn hok hne
  | refuse _ hn _ hz ih => exact ih.refuse hn hz
  | free _ _ _ ih => exact ih.free

/-- **Soundness of the frame allocator along safe runs.**  If the bitmap fits
and every allocation of the run finds its pages free behind the lowest free
page, the outstanding ranges are disjoint ranges of usable pages; and the next
allocation hands out free pages exactly when it is safe too. -/
theorem pmm_run_sound {mem : Mem} {map map' : List MmapEntry} {start s : Machine}
    {live : List (Nat × Nat)} (hmap : MemoryMapOk map) (hfit : BitmapFits map)
    (h : pmmInitialize mem map = some (start, map')) (hrun : PmmRun AllocateSafe start s live) :
    LiveSound map live ∧ ∀ n, 1 ≤ n → (AllocatesFree s n ↔ AllocateSafe s n) := by
  have hinv := hrun.inv hmap hfit h
  refine ⟨⟨hinv.pool.live_disjoint, fun r hr k hk => ?_⟩, fun n hn => allocatesFree_iff s hn⟩
  exact hinv.pool.live_usable _ (List.mem_map_of_mem hr) hk

/-! ### A small machine -/

/-- Nine usable pages, `1` to `9`. -/
def smallMap : List MmapEntry := [⟨0x1000, 0x9000, .usable⟩]

/-- The state `pmm_initialize` builds from `smallMap` on zeroed memory: the
bitmap is page 1, pages 2 to 9 are free. -/
def smallStart : Machine :=
  releaseUsable
    { mem := memset (fun _ => 0#8) 0x1000 0xff#8 0x1000, highestPage := 0xa000,
      usablePages := 0, bitmap := ⟨0x1000, 0x1000⟩ }
    [⟨0x2000, 0x8000, .usable⟩]

theorem smallStart_eq : pmmInitialize (fun _ => 0#8) smallMap
    = some (smallStart, [⟨0x2000, 0x8000, .usable⟩]) := rfl

theorem smallMap_ok : MemoryMapOk smallMap where
  no_wrap := by decide
  aligned := by decide
  disjoint := by simp [smallMap]

theorem smallMap_fits : BitmapFits smallMap where
  placed := ⟨_, List.mem_cons_self, rfl, by decide⟩
  covers := by decide

theorem smallStart_safe : AllocateSafe smallStart 2 := by
  refine .inr fun i hi => .inr ?_
  have h2 : firstFree smallStart = some 2 := by decide +kernel
  obtain rfl : 2 = i := by simpa [h2] using hi
  decide +kernel

/-- On the unfragmented pool a two-page request is served soundly. -/
theorem pmm_run_sound_small :
    LiveSound smallMap [((pmmAllocate smallStart 2).1, 2)] ∧ ∀ n, 1 ≤ n →
      (AllocatesFree (pmmAllocate smallStart 2).2 n ↔ AllocateSafe (pmmAllocate smallStart 2).2 n) :=
  pmm_run_sound smallMap_ok smallMap_fits smallStart_eq
    (.allocate .start (by decide) smallStart_safe (by decide +kernel))

/-- `pmm_allocate(1)` twice, then `pmm_free` of the first page: page 2 is free,
page 3 is not. -/
def fragmented : Machine :=
  pmmFree (pmmAllocate (pmmAllocate smallStart 1).2 1).2 (pmmAllocate smallStart 1).1 1

/-- **The allocator is not sound on a fragmented pool**: in the state
`fragmented`, `pmm_allocate(2)` returns page 2 together with page 3, which is
still live. -/
theorem fragmented_not_sound :
    ¬ ∀ (mem : Mem) (map map' : List MmapEntry) (start s : Machine) (live : List (Nat × Nat)),
      MemoryMapOk map → BitmapFits map → pmmInitialize mem map = some (start, map') →
      PmmRun (fun _ _ => True) start s live →
      LiveSound map live ∧ ∀ n, 1 ≤ n → AllocatesFree s n := by
  intro hclaim
  have hrun : PmmRun (fun _ _ => True) smallStart fragmented
      [((pmmAllocate (pmmAllocate smallStart 1).2 1).1, 1)] :=
    .free [_] []
      (.allocate (.allocate .start (by decide) trivial (by decide +kernel)) (by decide) trivial
        (by decide +kernel))
  have hfree := (hclaim _ _ _ _ _ _ smallMap_ok smallMap_fits smallStart_eq hrun).2 2 (by decide)
  have hne : (pmmAllocate fragmented 2).1 ≠ 0 := by decide +kernel
  have hbit := (hfree hne 1 (by decide)).1
  have hused : pageUsed fragmented ((pmmAllocate fragmented 2).1 / PAGE_SIZE + 1) = true := by
    decide +kernel
  rw [hused] at hbit
  cases hbit

end BestOS
