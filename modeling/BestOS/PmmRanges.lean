/-
BestOS/PmmRanges.lean

Ranges of pages: what `set_pages` and `pmm_free` do to the bitmap, and which
requests `pmm_allocate` can serve.

The two loops step through a range by address, one page at a time, so the page
of a step is taken from an address that is 64 bits wide.  As long as the range
ends by the last page of the address space, the loops touch its bits and no
other (`RangeUpdates`); a bitmap that `pmm_initialize` has set up covers no more
than that, but a larger one does, and there the address of a step wraps
(`wrapped_range`).

`pmm_allocate` needs one free page to return something, and it looks at every
page.  What stands between a free run and its caller (`allocate_run_iff`) is the
comparison of the page count with the size of the bitmap, which is counted in
bytes, and page 0, whose address is NULL.
-/
import BestOS.KernelHalf
import BestOS.PmmInit

namespace BestOS

open ByteMemory

/-! ### The bits of a range -/

theorem setPages_usable {s : Machine} (hu : s.usablePages < 2 ^ 64) (a n : Nat) :
    (setPages s a n).usablePages = (s.usablePages + n * (2 ^ 64 - 1)) % 2 ^ 64 := by
  induction n with
  | zero =>
      show s.usablePages = _
      omega
  | succ n ih =>
      show ((setPages s a n).usablePages + (2 ^ 64 - 1)) % 2 ^ 64 = _
      rw [ih]
      omega

theorem pmmFree_usable {s : Machine} (hu : s.usablePages < 2 ^ 64) (a n : Nat) :
    (pmmFree s a n).usablePages = (s.usablePages + n) % 2 ^ 64 := by
  induction n with
  | zero =>
      show s.usablePages = _
      omega
  | succ n ih =>
      show ((pmmFree s a n).usablePages + 1) % 2 ^ 64 = _
      rw [ih]
      omega

/-- The bytes from the start of the bitmap on are given by their bits. -/
theorem mem_of_bits {s s' : Machine} (hb : s'.bitmap = s.bitmap)
    (hbits : ∀ k, pageUsed s' k = pageUsed s k)
    (hlow : ∀ x < s.bitmap.data, s'.mem x = s.mem x) : s'.mem = s.mem := by
  funext x
  by_cases hx : x < s.bitmap.data
  · exact hlow x hx
  · apply BitVec.eq_of_getLsbD_eq
    intro i hi
    -- bit `i` of the byte is the bit of this page
    have hbit := hbits (8 * (x - s.bitmap.data) + i)
    rw [pageUsed, pageUsed, bitTest_eq_getLsbD, bitTest_eq_getLsbD, hb,
      show (8 * (x - s.bitmap.data) + i) / 8 = x - s.bitmap.data by omega,
      show (8 * (x - s.bitmap.data) + i) % 8 = i by omega,
      show s.bitmap.data + (x - s.bitmap.data) = x by omega] at hbit
    exact hbit

/-! ### Range updates -/

/-- From `s` to `s'` the bits of the range get the value `b`; no other bit
changes, and nothing outside the bitmap. -/
structure RangeSet (s s' : Machine) (a n : Nat) (b : Bool) : Prop where
  inside : ∀ k, a / PAGE_SIZE ≤ k → k < a / PAGE_SIZE + n → pageUsed s' k = b
  outside : ∀ k, ¬ (a / PAGE_SIZE ≤ k ∧ k < a / PAGE_SIZE + n) → pageUsed s' k = pageUsed s k
  mem : ∀ x, ¬ InBitmap s x → s'.mem x = s.mem x
  statics : s'.bitmap = s.bitmap ∧ s'.highestPage = s.highestPage

/-- `set_pages` sets a range and `pmm_free` clears it; after a range that was
clear is set, `pmm_free` brings the whole state back. -/
structure RangeUpdates (s : Machine) (a n : Nat) : Prop where
  set : RangeSet s (setPages s a n) a n true
  clear : RangeSet s (pmmFree s a n) a n false
  restore : (∀ k, a / PAGE_SIZE ≤ k → k < a / PAGE_SIZE + n → pageUsed s k = false) →
    pmmFree (setPages s a n) a n = s

theorem rangeSet_setPages {s : Machine} {a n : Nat} (hfit : a / PAGE_SIZE + n ≤ 8 * s.bitmap.size)
    (haddr : a / PAGE_SIZE + n ≤ 2 ^ 52) : RangeSet s (setPages s a n) a n true where
  inside := by
    intro k h1 h2
    rw [setPages_bits s haddr, decide_eq_true ⟨h1, h2⟩, Bool.or_true]
  outside := by
    intro k hk
    rw [setPages_bits s haddr, decide_eq_false hk, Bool.or_false]
  mem := by
    intro x hx
    refine setPages_mem (fun i hi => ?_) hx
    rw [page_of_pages hi haddr]
    omega
  statics := by simp

theorem rangeSet_pmmFree {s : Machine} {a n : Nat} (hfit : a / PAGE_SIZE + n ≤ 8 * s.bitmap.size)
    (haddr : a / PAGE_SIZE + n ≤ 2 ^ 52) : RangeSet s (pmmFree s a n) a n false where
  inside := by
    intro k h1 h2
    rw [pmmFree_bits s haddr, decide_eq_true ⟨h1, h2⟩, Bool.not_true, Bool.and_false]
  outside := by
    intro k hk
    rw [pmmFree_bits s haddr, decide_eq_false hk, Bool.not_false, Bool.and_true]
  mem := by
    intro x hx
    refine pmmFree_mem (fun i hi => ?_) hx
    rw [page_of_pages hi haddr]
    omega
  statics := by simp

/-- A range that was clear is set and cleared again without a trace. -/
theorem pmmFree_setPages {s : Machine} {a n : Nat} (hfit : a / PAGE_SIZE + n ≤ 8 * s.bitmap.size)
    (haddr : a / PAGE_SIZE + n ≤ 2 ^ 52) (hu : s.usablePages < 2 ^ 64)
    (hclear : ∀ k, a / PAGE_SIZE ≤ k → k < a / PAGE_SIZE + n → pageUsed s k = false) :
    pmmFree (setPages s a n) a n = s := by
  have hset := rangeSet_setPages hfit haddr
  have hfree := rangeSet_pmmFree (s := setPages s a n) (by rwa [setPages_bitmap]) haddr
  have hmem : (pmmFree (setPages s a n) a n).mem = s.mem := by
    refine mem_of_bits (by simp) (fun k => ?_) fun x hx => ?_
    · by_cases hk : a / PAGE_SIZE ≤ k ∧ k < a / PAGE_SIZE + n
      · rw [hfree.inside k hk.1 hk.2, hclear k hk.1 hk.2]
      · rw [hfree.outside k hk, hset.outside k hk]
    · have hout : ¬ InBitmap s x := fun h => Nat.not_lt.mpr h.1 hx
      have hout' : ¬ InBitmap (setPages s a n) x := by
        rwa [InBitmap, setPages_bitmap]
      rw [hfree.mem x hout', hset.mem x hout]
  have husable : (pmmFree (setPages s a n) a n).usablePages = s.usablePages := by
    have hlt : (setPages s a n).usablePages < 2 ^ 64 := by
      rw [setPages_usable hu]
      exact Nat.mod_lt _ (by decide)
    rw [pmmFree_usable hlt, setPages_usable hu]
    omega
  have hhigh : (pmmFree (setPages s a n) a n).highestPage = s.highestPage := by simp
  have hbitmap : (pmmFree (setPages s a n) a n).bitmap = s.bitmap := by simp
  generalize pmmFree (setPages s a n) a n = s' at *
  obtain ⟨m', h', u', b'⟩ := s'
  obtain ⟨m, h, u, b⟩ := s
  dsimp only at hmem husable hhigh hbitmap
  rw [hmem, husable, hhigh, hbitmap]

theorem rangeUpdates_of_pages {s : Machine} {a n : Nat}
    (hfit : a / PAGE_SIZE + n ≤ 8 * s.bitmap.size) (hu : s.usablePages < 2 ^ 64)
    (haddr : a / PAGE_SIZE + n ≤ 2 ^ 52) : RangeUpdates s a n where
  set := rangeSet_setPages hfit haddr
  clear := rangeSet_pmmFree hfit haddr
  restore := pmmFree_setPages hfit haddr hu

/-- A bitmap that `pmm_initialize` sets up ends by the last page of the address
space. -/
theorem bitmap_pages_le {mem : Mem} {map map' : List MmapEntry} {start : Machine}
    (h : pmmInitialize mem map = some (start, map')) : 8 * start.bitmap.size ≤ 2 ^ 52 := by
  obtain ⟨-, hbm, -⟩ := pmmInitialize_eq h
  have hlt := scanHighest_lt map (show 0 < 2 ^ 64 by decide)
  rw [hbm]
  show 8 * bitmapSize (scanHighest map 0) ≤ 2 ^ 52
  rw [bitmapSize_eq hlt]
  simp only [PAGE_SIZE]
  omega

/-- **Range updates.**  A range inside the bitmap is set and cleared exactly, and
a clear one comes back as it was, if it ends by the last page of the address
space; inside a bitmap that `pmm_initialize` has set up every range does. -/
theorem range_updates {s : Machine} {a n : Nat} (hfit : a / PAGE_SIZE + n ≤ 8 * s.bitmap.size)
    (hu : s.usablePages < 2 ^ 64) :
    (a / PAGE_SIZE + n ≤ 2 ^ 52 → RangeUpdates s a n) ∧
      ∀ mem map start map', pmmInitialize mem map = some (start, map') →
        s.bitmap = start.bitmap → RangeUpdates s a n := by
  refine ⟨rangeUpdates_of_pages hfit hu, fun mem map start map' h hsame => ?_⟩
  have hle := bitmap_pages_le h
  rw [← hsame] at hle
  exact rangeUpdates_of_pages hfit hu (hfit.trans hle)

/-- Nine pages at an unaligned address, in the bitmap of ten pages. -/
theorem range_updates_small : RangeUpdates smallStart 0x1fff 9 :=
  (range_updates (by decide) (by decide +kernel)).2 _ _ _ _ smallStart_eq rfl

/-- A bitmap of `2 ^ 50` bytes, with no bit set. -/
def wideBitmap : Machine := ⟨fun _ => 0#8, 2 ^ 64 - 1, 0, ⟨0, 2 ^ 50⟩⟩

/-- **A range may leave the address space**: of the last page and the one behind
it, `set_pages` marks the last page and page 0. -/
theorem wrapped_range :
    ¬ ∀ (s : Machine) (a n : Nat), a < 2 ^ 64 → s.usablePages < 2 ^ 64 →
      a / PAGE_SIZE + n ≤ 8 * s.bitmap.size → RangeUpdates s a n := by
  intro hclaim
  have hset := (hclaim wideBitmap (2 ^ 64 - 4096) 2 (by decide) (by decide) (by decide)).set
  have hlast := hset.inside (2 ^ 52) (by decide) (by decide)
  revert hlast
  decide

/-! ### Requests that can be served -/

/-- `n` free pages in a row below `highest_page`, page 0 not among them. -/
def FreeRun (s : Machine) (n : Nat) : Prop :=
  ∃ i, 1 ≤ i ∧ ∀ j < n, i + j < s.highestPage / PAGE_SIZE ∧ pageUsed s (i + j) = false

/-- With a free page below it, page 0 is the one that is found exactly when it is
free. -/
theorem firstFree_zero_iff {s : Machine} (h : 0 < s.highestPage / PAGE_SIZE) :
    firstFree s = some 0 ↔ pageUsed s 0 = false := by
  constructor
  · intro hf
    exact (firstFree_spec hf).2
  · intro hfree
    rw [firstFree, List.find?_range_eq_some]
    exact ⟨by simp [hfree], List.mem_range.mpr h, fun j hj => absurd hj (Nat.not_lt_zero j)⟩

/-- **Which free runs are found.**  Where `n` pages in a row are free,
`pmm_allocate(n)` returns something exactly when the page count is at most the
size of the bitmap in bytes and page 0 is in use. -/
theorem allocate_run_iff {s : Machine} {n : Nat} (hn : 1 ≤ n) (hrun : FreeRun s n) :
    (pmmAllocate s n).1 ≠ 0 ↔ n ≤ s.bitmap.size ∧ pageUsed s 0 = true := by
  obtain ⟨i, hi, hall⟩ := hrun
  obtain ⟨hlt, hfree⟩ := hall 0 hn
  obtain ⟨f, hf⟩ : ∃ f, firstFree s = some f := by
    cases hf : firstFree s with
    | some f => exact ⟨f, rfl⟩
    | none =>
        rw [firstFree_eq_none hf hlt] at hfree
        cases hfree
  have hzero : f = 0 ↔ pageUsed s 0 = false := by
    rw [← firstFree_zero_iff (Nat.zero_lt_of_lt hlt), hf, Option.some.injEq]
  rw [pmmAllocate_eq s hn]
  by_cases hbig : n > s.bitmap.size
  · rw [if_pos hbig]
    refine iff_of_false (fun h => h rfl) fun h => ?_
    exact absurd hbig (Nat.not_lt.mpr h.1)
  · rw [if_neg hbig, hf]
    have hmul : f * PAGE_SIZE ≠ 0 ↔ ¬ f = 0 := by
      simp only [PAGE_SIZE]
      omega
    show f * PAGE_SIZE ≠ 0 ↔ _
    rw [hmul, hzero, Bool.not_eq_false]
    exact (and_iff_right (Nat.not_lt.mp hbig)).symm

theorem freeRun_flatStart {n : Nat} (hn : n ≤ 0x3fff) : FreeRun flatStart n := by
  refine ⟨0x101, by decide, fun j hj => ?_⟩
  have hlt : 0x101 + j < 0x4100 := by omega
  rw [flatStart_high, pageUsed_flatStart hlt]
  exact ⟨hlt, decide_eq_false (by omega)⟩

/-- On the machine with 64 MiB a request for as many pages as the bitmap has
bytes is served. -/
theorem allocate_run_flat : (pmmAllocate flatStart 0x1000).1 ≠ 0 := by
  refine (allocate_run_iff (by decide) (freeRun_flatStart (by decide))).mpr ⟨?_, ?_⟩
  · rw [flatStart, releaseUsable_bitmap]
    decide
  · rw [pageUsed_flatStart (by decide)]
    rfl

/-- **A free run is refused**: one page more, with 16383 pages free. -/
theorem free_run_refused :
    ¬ ∀ (s : Machine) (n : Nat), 1 ≤ n → FreeRun s n → (pmmAllocate s n).1 ≠ 0 := by
  intro hclaim
  refine hclaim flatStart 0x1001 (by decide) (freeRun_flatStart (by decide)) ?_
  have hsize : flatStart.bitmap.size = 0x1000 := by
    rw [flatStart, releaseUsable_bitmap]
    rfl
  rw [pmmAllocate_eq _ (by decide), hsize, if_pos (by decide)]

end BestOS
