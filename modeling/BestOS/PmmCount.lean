/-
BestOS/PmmCount.lean

Where the pages are.

Along the runs of `PmmSound` no page is lost and none is counted twice: each page that
was free after `pmm_initialize` is free or in one live range, and `usable_pages`, which
`set_page` and `clear_page` step without looking at the bit, is the number of free pages
(`pmm_pages_conserved`).  A run that gives everything back ends in the state in which it
began, with the bitmap as it was and the rest of memory never touched
(`pmm_run_restores`).

Page 0 has to be in use.  If it is free, `pmm_allocate(n)` returns its address, which is
NULL, so the caller takes the request for refused while `n` pages have been marked
(`PmmInv.refuse`).
-/
import BestOS.PmmRanges
import Mathlib.Order.Interval.Set.Nat

namespace BestOS

open ByteMemory ResourcePool

variable {map map' : List MmapEntry} {mem : Mem} {start s : Machine} {live : List (Nat × Nat)}

/-- A single page is always handed out safely. -/
theorem AllocateSafe.one (s : Machine) : AllocateSafe s 1 := by
  refine .inr fun i hi => .inr fun j hj => ?_
  obtain rfl : j = 0 := by omega
  exact firstFree_spec hi

/-! ### Sizes -/

theorem ncard_pagesOf (r : Nat × Nat) : (pagesOf r).ncard = r.2 := by
  show (Set.Ico (r.1 / PAGE_SIZE) (r.1 / PAGE_SIZE + r.2)).ncard = r.2
  rw [Set.ncard_Ico_nat, Nat.add_sub_cancel_left]

theorem finite_pagesOf (r : Nat × Nat) : (pagesOf r).Finite :=
  Set.finite_Ico (r.1 / PAGE_SIZE) (r.1 / PAGE_SIZE + r.2)

theorem freePages_subset (s : Machine) : freePages s ⊆ Set.Iio (s.highestPage / PAGE_SIZE) :=
  fun _ hk => hk.1

theorem finite_freePages (s : Machine) : (freePages s).Finite :=
  (Set.finite_Iio _).subset (freePages_subset s)

/-- There are no more pages than the address space has. -/
theorem ncard_freePages_lt (hs : s.highestPage < 2 ^ 64) : (freePages s).ncard < 2 ^ 64 := by
  have hle := Set.ncard_le_ncard (freePages_subset s) (Set.finite_Iio _)
  rw [Set.ncard_Iio_nat] at hle
  exact Nat.lt_of_le_of_lt (hle.trans (Nat.div_le_self _ _)) hs

/-! ### The invariant -/

/-- The run from `start` to `s` has lost no page, `usable_pages` is the number of free
pages, and nothing but bits of pages that were free has changed. -/
structure PoolCount (start s : Machine) (live : List (Nat × Nat)) : Prop where
  pool : Pool.Exact (freePages start) (freePages s) (live.map pagesOf)
  count : s.usablePages = (freePages s).ncard
  bits : ∀ k, k ∉ freePages start → pageUsed s k = pageUsed start k
  mem : ∀ x, ¬ InBitmap start x → s.mem x = start.mem x
  statics : s.bitmap = start.bitmap ∧ s.highestPage = start.highestPage
  covered : start.highestPage / PAGE_SIZE ≤ 8 * start.bitmap.size

/-- Pages below `highest_page` have their bits in the bitmap. -/
theorem PoolCount.fits (h : PoolCount start s live) {n : Nat}
    (hn : n ≤ s.highestPage / PAGE_SIZE) : n ≤ 8 * s.bitmap.size := by
  rw [h.statics.2] at hn
  rw [h.statics.1]
  exact hn.trans h.covered

/-- Pages that were free at the start are set or cleared. -/
theorem PoolCount.rangeSet {s' : Machine} {a n : Nat} {b : Bool} (h : PoolCount start s live)
    (hset : RangeSet s s' a n b) (hsub : pagesOf (a, n) ⊆ freePages start) :
    (∀ k, k ∉ freePages start → pageUsed s' k = pageUsed start k) ∧
      (∀ x, ¬ InBitmap start x → s'.mem x = start.mem x) ∧
      s'.bitmap = start.bitmap ∧ s'.highestPage = start.highestPage := by
  refine ⟨fun k hk => ?_, fun x hx => ?_, hset.statics.1.trans h.statics.1,
    hset.statics.2.trans h.statics.2⟩
  · rw [hset.outside k fun hin => hk (hsub hin), h.bits k hk]
  · rw [hset.mem x (by rwa [InBitmap, h.statics.1]), h.mem x hx]

theorem PoolCount.allocate {n : Nat} (h : PoolCount start s live) (hinv : PmmInv map s live)
    (hn : 1 ≤ n) (hok : AllocateSafe s n) (hne : (pmmAllocate s n).1 ≠ 0) :
    PoolCount start (pmmAllocate s n).2 (((pmmAllocate s n).1, n) :: live) := by
  obtain ⟨a, heq, hal, hin, hblock⟩ := pmmAllocate_served hn hok hne
  have hw := range_no_wrap hal hinv.high hin
  have hset := rangeSet_setPages (h.fits hin) (pages_of_range hw)
  obtain ⟨hbits, hmem, hstatics⟩ := h.rangeSet hset (hblock.trans h.pool.free_usable)
  rw [heq]
  refine ⟨?_, ?_, hbits, hmem, hstatics, h.covered⟩
  · rw [freePages_setPages hw]
    exact h.pool.take hblock
  · -- the counter goes down by `n`, and there are at least `n` free pages
    have hle := Set.ncard_le_ncard hblock (finite_freePages s)
    have hlt := ncard_freePages_lt hinv.high
    rw [ncard_pagesOf] at hle
    rw [freePages_setPages hw, Set.ncard_sdiff hblock (finite_pagesOf _), ncard_pagesOf,
      setPages_usable (by rw [h.count]; exact hlt), h.count]
    omega

theorem PoolCount.refuse {n : Nat} (h : PoolCount start s live) (h0 : pageUsed start 0 = true)
    (hn : 1 ≤ n) (hz : (pmmAllocate s n).1 = 0) : PoolCount start (pmmAllocate s n).2 live := by
  rcases pmmAllocate_cases s hn with ⟨-, hst | ⟨hf, -⟩⟩ | ⟨i, hi, -, -, heq⟩
  · rw [hst]
    exact h
  · -- page 0 would have been free from the start
    have hfree := (h.pool.free_usable (firstFree_spec hf)).2
    rw [h0] at hfree
    cases hfree
  · rw [heq] at hz
    exact absurd (Nat.mul_eq_zero.mp hz) (by simp [hi, PAGE_SIZE])

theorem PoolCount.free {p n : Nat} {l₁ l₂ : List (Nat × Nat)}
    (h : PoolCount start s (l₁ ++ (p, n) :: l₂)) (hinv : PmmInv map s (l₁ ++ (p, n) :: l₂)) :
    PoolCount start (pmmFree s p n) (l₁ ++ l₂) := by
  obtain ⟨hin, hal⟩ := hinv.inside (p, n) (by simp)
  have hw := range_no_wrap hal hinv.high hin
  have hlive : pagesOf (p, n) ∈ (l₁ ++ (p, n) :: l₂).map pagesOf := List.mem_map_of_mem (by simp)
  have hset := rangeSet_pmmFree (h.fits hin) (pages_of_range hw)
  obtain ⟨hbits, hmem, hstatics⟩ := h.rangeSet hset (h.pool.live_usable _ hlive)
  refine ⟨?_, ?_, hbits, hmem, hstatics, h.covered⟩
  · have hpool := h.pool
    rw [List.map_append, List.map_cons] at hpool
    rw [freePages_pmmFree hw hin, List.map_append]
    exact hpool.give
  · -- the range was in use, so that the counter goes up by what becomes free
    have hdisj := h.pool.live_taken _ hlive
    have hlt := ncard_freePages_lt (s := pmmFree s p n) (by simpa using hinv.high)
    rw [freePages_pmmFree hw hin,
      Set.ncard_union_eq hdisj.symm (finite_freePages s) (finite_pagesOf _), ncard_pagesOf] at hlt ⊢
    rw [pmmFree_usable (by rw [h.count]; omega), h.count]
    exact Nat.mod_eq_of_lt hlt

/-- After `pmm_initialize` the counter is the number of free pages. -/
theorem PoolCount.initial (hmap : MemoryMapOk map) (hfit : BitmapFits map)
    (h : pmmInitialize mem map = some (start, map')) : PoolCount start start [] where
  pool := .start _
  count := by
    obtain ⟨hhigh, hbm, -⟩ := pmmInitialize_eq h
    obtain ⟨-, hnodup, hin⟩ := releaseClears_pages hmap.usableEntries hfit h
    obtain ⟨hbits, hcount⟩ := pmmInitialize_count hmap.usableEntries hfit h
    have hfree : freePages start = (releaseClears map').toFinset := by
      ext k
      have hk8 : k < start.highestPage / PAGE_SIZE → k < 8 * start.bitmap.size := by
        rw [hhigh, hbm]
        exact fun hk => Nat.lt_of_lt_of_le hk hfit.covers
      rw [Finset.mem_coe, List.mem_toFinset]
      constructor
      · rintro ⟨hk, hbit⟩
        simpa [hbits k (hk8 hk)] using hbit
      · intro hk
        exact ⟨hin k hk, by simp [hbits k (hk8 (hin k hk)), hk]⟩
    rw [hcount, hfree, Set.ncard_coe_finset, List.toFinset_card_of_nodup hnodup]
  bits := fun _ _ => rfl
  mem := fun _ _ => rfl
  statics := ⟨rfl, rfl⟩
  covered := by
    obtain ⟨hhigh, hbm, -⟩ := pmmInitialize_eq h
    rw [hhigh, hbm]
    exact hfit.covers

/-- The invariant holds along every run of safe allocations. -/
theorem PmmRun.count (hmap : MemoryMapOk map) (hfit : BitmapFits map)
    (h : pmmInitialize mem map = some (start, map')) (h0 : pageUsed start 0 = true)
    (hrun : PmmRun AllocateSafe start s live) : PoolCount start s live := by
  induction hrun with
  | start => exact .initial hmap hfit h
  | allocate hrun hn hok hne ih => exact ih.allocate (hrun.inv hmap hfit h) hn hok hne
  | refuse _ hn _ hz ih => exact ih.refuse h0 hn hz
  | free _ _ hrun ih => exact ih.free (hrun.inv hmap hfit h)

/-! ### Whole runs -/

/-- **No page is lost.**  In every state of a run of safe allocations, the pages that
were free at the start are those that are free now and those of the live ranges, none of
them twice; `usable_pages` is the number of free pages, and what it has gone down by is
the number of pages handed out. -/
theorem pmm_pages_conserved (hmap : MemoryMapOk map) (hfit : BitmapFits map)
    (h : pmmInitialize mem map = some (start, map')) (h0 : pageUsed start 0 = true)
    (hrun : PmmRun AllocateSafe start s live) :
    (∀ k, k ∈ freePages start ↔ k ∈ freePages s ∨ ∃ r ∈ live, k ∈ pagesOf r) ∧
      (∀ r ∈ live, Disjoint (pagesOf r) (freePages s)) ∧ (live.map pagesOf).Pairwise Disjoint ∧
      s.usablePages = (freePages s).ncard ∧
      s.usablePages + (live.map Prod.snd).sum = start.usablePages := by
  have hc := hrun.count hmap hfit h h0
  have hstart := (PoolCount.initial hmap hfit h).count
  refine ⟨fun k => ⟨fun hk => ?_, ?_⟩, fun r hr => ?_, hc.pool.live_disjoint, hc.count, ?_⟩
  · rcases hc.pool.covers k hk with hfree | ⟨b, hb, hkb⟩
    · exact .inl hfree
    · obtain ⟨r, hr, rfl⟩ := List.mem_map.mp hb
      exact .inr ⟨r, hr, hkb⟩
  · rintro (hfree | ⟨r, hr, hkr⟩)
    · exact hc.pool.free_usable hfree
    · exact hc.pool.live_usable _ (List.mem_map_of_mem hr) hkr
  · exact hc.pool.live_taken _ (List.mem_map_of_mem hr)
  · have hsizes : (live.map pagesOf).map Set.ncard = live.map Prod.snd := by
      rw [List.map_map]
      exact List.map_congr_left fun r _ => ncard_pagesOf r
    rw [hc.count, hstart, ← hsizes]
    exact hc.pool.ncard (finite_freePages start)

/-- Nine pages: page 2 is free again, page 3 is handed out. -/
theorem pmm_pages_conserved_small :
    fragmented.usablePages = (freePages fragmented).ncard ∧
      fragmented.usablePages + 1 = smallStart.usablePages := by
  have hrun : PmmRun AllocateSafe smallStart fragmented
      [((pmmAllocate (pmmAllocate smallStart 1).2 1).1, 1)] :=
    .free [_] []
      (.allocate (.allocate .start (by decide) (.one _) (by decide +kernel)) (by decide) (.one _)
        (by decide +kernel))
  obtain ⟨-, -, -, hcount, hsum⟩ :=
    pmm_pages_conserved smallMap_ok smallMap_fits smallStart_eq (by decide +kernel) hrun
  simp only [List.map_singleton, List.sum_singleton] at hsum
  exact ⟨hcount, hsum⟩

/-- **Everything given back**: a run of safe allocations after which no range is live
ends in the state in which it began. -/
theorem pmm_run_restores (hmap : MemoryMapOk map) (hfit : BitmapFits map)
    (h : pmmInitialize mem map = some (start, map')) (h0 : pageUsed start 0 = true)
    (hrun : PmmRun AllocateSafe start s []) : s = start := by
  have hc := hrun.count hmap hfit h h0
  have hfree : freePages s = freePages start := hc.pool.free_eq
  have hbits : ∀ k, pageUsed s k = pageUsed start k := by
    intro k
    by_cases hk : k ∈ freePages start
    · rw [hk.2, (hfree ▸ hk : k ∈ freePages s).2]
    · exact hc.bits k hk
  have hmem : s.mem = start.mem :=
    mem_of_bits hc.statics.1 hbits fun x hx => hc.mem x fun hin => Nat.not_lt.mpr hin.1 hx
  have husable : s.usablePages = start.usablePages := by
    rw [hc.count, hfree, (PoolCount.initial hmap hfit h).count]
  obtain ⟨hbitmap, hhigh⟩ := hc.statics
  cases s
  cases start
  dsimp only at hmem husable hbitmap hhigh
  rw [hmem, husable, hbitmap, hhigh]

/-- Two pages are handed out in two calls and given back in the same order. -/
theorem pmm_run_restores_small :
    pmmFree fragmented (pmmAllocate (pmmAllocate smallStart 1).2 1).1 1 = smallStart :=
  pmm_run_restores smallMap_ok smallMap_fits smallStart_eq (by decide +kernel)
    (.free [] [] (.free [_] []
      (.allocate (.allocate .start (by decide) (.one _) (by decide +kernel)) (by decide) (.one _)
        (by decide +kernel))))

end BestOS
