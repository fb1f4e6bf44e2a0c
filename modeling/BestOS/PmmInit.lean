/-
BestOS/PmmInit.lean

What `pmm_initialize` leaves behind.

The function goes over the memory map three times: it looks for the highest
page, cuts the bitmap out of the first usable entry with room, and clears the
bits of what is left.  The bits it clears are listed in program order by
`releaseClears`, those that a later `pmm_allocate` tests by `allocateTests`;
`releaseUsable_eq_foldl` and `pmmAllocate_congr` say that these lists are what
the code touches.

* `bitmap_covers_iff` — all these bits lie inside the bitmap exactly when the
  number of pages is not one to seven more than a multiple of `2 ^ 15`.  The
  size is computed by two divisions that both round down, and the final round-up
  to whole pages makes up for it except just behind such a multiple.
* `pmmInitialize_bits` — when the bitmap fits, the clear bits are those of the
  usable pages outside the bitmap, and `usable_pages` counts them.
-/
import BestOS.Frames

namespace BestOS

open ByteMemory

/-! ### The bits that are cleared -/

/-- The bits `pmm_free(addr, pages)` clears. -/
def freeClears (addr : Nat) : Nat → List Nat
  | 0 => []
  | i + 1 => freeClears addr i ++ [(addr + i * PAGE_SIZE) % 2 ^ 64 / PAGE_SIZE]

/-- The bits the last loop of `pmm_initialize` clears. -/
def releaseClears : List MmapEntry → List Nat
  | [] => []
  | e :: es =>
      (if e.type = .usable then freeClears e.base (e.length / PAGE_SIZE) else []) ++
        releaseClears es

/-- `BIT_CLEAR(bit, bitmap.data); usable_pages++`. -/
def clearBit (s : Machine) (bit : Nat) : Machine :=
  { s with
    mem := bitClear bit s.mem s.bitmap.data
    usablePages := (s.usablePages + 1) % 2 ^ 64 }

theorem pmmFree_eq_foldl (s : Machine) (addr n : Nat) :
    pmmFree s addr n = (freeClears addr n).foldl clearBit s := by
  induction n with
  | zero => rfl
  | succ n ih =>
      rw [pmmFree, freeClears, List.foldl_append, ← ih]
      rfl

theorem releaseUsable_eq_foldl (s : Machine) (es : List MmapEntry) :
    releaseUsable s es = (releaseClears es).foldl clearBit s := by
  induction es generalizing s with
  | nil => rfl
  | cons e es ih =>
      rw [releaseUsable, releaseClears, List.foldl_append, ih]
      split
      · rw [pmmFree_eq_foldl]
      · rfl

/-- A range of pages that does not wrap is released page by page. -/
theorem freeClears_eq {addr n : Nat} (hw : addr + n * PAGE_SIZE ≤ 2 ^ 64) :
    freeClears addr n = List.range' (addr / PAGE_SIZE) n := by
  induction n with
  | zero => rfl
  | succ n ih =>
      rw [freeClears, ih (range_pred hw), page_of_range (Nat.lt_succ_self n) hw,
        List.range'_1_concat]

/-- What clearing a sequence of bits does to all bits and to `usable_pages`. -/
theorem foldl_clearBit (ks : List Nat) (s : Machine) (hu : s.usablePages < 2 ^ 64) :
    (ks.foldl clearBit s).bitmap = s.bitmap ∧
      (ks.foldl clearBit s).usablePages = (s.usablePages + ks.length) % 2 ^ 64 ∧
      ∀ k, pageUsed (ks.foldl clearBit s) k = (pageUsed s k && !decide (k ∈ ks)) := by
  induction ks generalizing s with
  | nil => exact ⟨rfl, (Nat.mod_eq_of_lt hu).symm, fun k => by simp⟩
  | cons j ks ih =>
      obtain ⟨hb, hcount, hbits⟩ := ih (clearBit s j) (Nat.mod_lt _ (by decide))
      have hone : ∀ k, pageUsed (clearBit s j) k = (pageUsed s k && !decide (k = j)) :=
        fun k => bitTest_bitClear k j s.mem s.bitmap.data
      rw [List.foldl_cons]
      refine ⟨hb, ?_, fun k => ?_⟩
      · rw [hcount, List.length_cons]
        show ((s.usablePages + 1) % 2 ^ 64 + ks.length) % 2 ^ 64 = _
        omega
      · rw [hbits, hone, Bool.and_assoc, ← Bool.not_or, ← Bool.decide_or]
        simp only [List.mem_cons]

/-- The bits released for a memory map are those of its usable pages, as far as
each entry is a page-aligned range of addresses. -/
theorem mem_releaseClears {es : List MmapEntry}
    (hal : ∀ e ∈ es, e.type = .usable → e.base % PAGE_SIZE = 0)
    (hw : ∀ e ∈ es, e.type = .usable → e.base + e.length < 2 ^ 64) (k : Nat) :
    k ∈ releaseClears es ↔ UsablePage es k := by
  induction es with
  | nil => simp [releaseClears, UsablePage]
  | cons e es ih =>
      rw [releaseClears, List.mem_append,
        ih (fun x hx => hal x (by simp [hx])) (fun x hx => hw x (by simp [hx]))]
      have hhead : k ∈ (if e.type = .usable then freeClears e.base (e.length / PAGE_SIZE) else [])
          ↔ e.type = .usable ∧ e.Covers k := by
        split
        · rename_i hu
          have h1 := hal e (by simp) hu
          have h2 := hw e (by simp) hu
          rw [freeClears_eq (by simp only [PAGE_SIZE]; omega), List.mem_range'_1, MmapEntry.Covers]
          simp only [hu, true_and, PAGE_SIZE] at h1 ⊢
          omega
        · rename_i hu
          simp [hu]
      rw [hhead]
      simp [UsablePage]

/-- A released bit belongs to a page below the end of some usable entry, aligned
or not. -/
theorem end_of_mem_releaseClears {es : List MmapEntry}
    (hw : ∀ e ∈ es, e.type = .usable → e.base + e.length < 2 ^ 64) {k : Nat}
    (hk : k ∈ releaseClears es) :
    ∃ e ∈ es, e.type = .usable ∧ k < (e.base + e.length) / PAGE_SIZE := by
  induction es with
  | nil => simp [releaseClears] at hk
  | cons e es ih =>
      rw [releaseClears, List.mem_append] at hk
      rcases hk with hhead | htail
      · split at hhead
        · rename_i hu
          have h2 := hw e (by simp) hu
          rw [freeClears_eq (by simp only [PAGE_SIZE]; omega), List.mem_range'_1] at hhead
          refine ⟨e, by simp, hu, ?_⟩
          simp only [PAGE_SIZE] at hhead ⊢
          omega
        · simp at hhead
      · obtain ⟨x, hx, h⟩ := ih (fun x hx => hw x (by simp [hx])) htail
        exact ⟨x, by simp [hx], h⟩

/-! ### The bits that are tested -/

/-- The bits the inner loop of `pmm_allocate` tests at page `i`. -/
def runTests (s : Machine) (i pages : Nat) : Nat → List Nat
  | 0 => []
  | left + 1 =>
      i :: if bitTest i s.mem s.bitmap.data then []
        else if pages - (left + 1) = pages - 1 then []
        else runTests s i pages left

/-- The bits the outer loop tests. -/
def scanTests (s : Machine) (pages : Nat) : Nat → List Nat
  | 0 => []
  | left + 1 =>
      let i := s.highestPage / PAGE_SIZE - (left + 1)
      runTests s i pages pages ++
        if allocateRun s i pages pages then [] else scanTests s pages left

/-- The bits `pmm_allocate(pages)` tests. -/
def allocateTests (s : Machine) (pages : Nat) : List Nat :=
  if pages > s.bitmap.size then [] else scanTests s pages (s.highestPage / PAGE_SIZE)

theorem mem_runTests {s : Machine} {i pages left k : Nat} (h : k ∈ runTests s i pages left) :
    k = i := by
  induction left with
  | zero => simp [runTests] at h
  | succ left ih =>
      rw [runTests, List.mem_cons] at h
      rcases h with rfl | h
      · rfl
      · split at h
        · simp at h
        · split at h
          · simp at h
          · exact ih h

theorem mem_scanTests {s : Machine} {pages left k : Nat} (h : k ∈ scanTests s pages left)
    (hl : left ≤ s.highestPage / PAGE_SIZE) : k < s.highestPage / PAGE_SIZE := by
  induction left with
  | zero => simp [scanTests] at h
  | succ left ih =>
      rw [scanTests, List.mem_append] at h
      rcases h with hrun | hrest
      · rw [mem_runTests hrun]
        omega
      · split at hrest
        · simp at hrest
        · exact ih hrest (by omega)

/-- The scan of `pmm_allocate` stays below `highest_page`. -/
theorem mem_allocateTests {s : Machine} {pages k : Nat} (h : k ∈ allocateTests s pages) :
    k < s.highestPage / PAGE_SIZE := by
  rw [allocateTests] at h
  split at h
  · simp at h
  · exact mem_scanTests h (Nat.le_refl _)

theorem allocateRun_congr {s s' : Machine} {i pages left : Nat}
    (h : ∀ k ∈ runTests s i pages left, pageUsed s' k = pageUsed s k) :
    allocateRun s' i pages left = allocateRun s i pages left := by
  induction left with
  | zero => rfl
  | succ left ih =>
      have hi : bitTest i s'.mem s'.bitmap.data = bitTest i s.mem s.bitmap.data :=
        h i (by rw [runTests]; exact List.mem_cons_self)
      rw [allocateRun, allocateRun, hi]
      split
      · rfl
      · rename_i hbit
        split
        · rfl
        · rename_i hlast
          refine ih fun k hk => h k ?_
          rw [runTests, if_neg hbit, if_neg hlast]
          exact List.mem_cons_of_mem i hk

theorem allocateScan_congr {s s' : Machine} (hh : s'.highestPage = s.highestPage) {pages left : Nat}
    (h : ∀ k ∈ scanTests s pages left, pageUsed s' k = pageUsed s k) :
    (allocateScan s' pages left).1 = (allocateScan s pages left).1 := by
  induction left with
  | zero => rfl
  | succ left ih =>
      rw [allocateScan, allocateScan, hh]
      rw [scanTests] at h
      rw [allocateRun_congr fun k hk => h k (List.mem_append_left _ hk)]
      split
      · rfl
      · rename_i hfull
        rw [if_neg hfull] at h
        exact ih fun k hk => h k (List.mem_append_right _ hk)

/-- **`pmm_allocate` looks at nothing else**: what it returns depends on the
bits of `allocateTests` only. -/
theorem pmmAllocate_congr {s s' : Machine} (hh : s'.highestPage = s.highestPage)
    (hsize : s'.bitmap.size = s.bitmap.size) {pages : Nat}
    (h : ∀ k ∈ allocateTests s pages, pageUsed s' k = pageUsed s k) :
    (pmmAllocate s' pages).1 = (pmmAllocate s pages).1 := by
  rw [pmmAllocate, pmmAllocate, hsize, hh]
  rw [allocateTests] at h
  split
  · rfl
  · rename_i hbig
    rw [if_neg hbig] at h
    exact allocateScan_congr hh h

/-- The static variables a run leaves alone. -/
theorem PmmRun.statics {ok : Machine → Nat → Prop} {start s : Machine} {live : List (Nat × Nat)}
    (hrun : PmmRun ok start s live) :
    s.highestPage = start.highestPage ∧ s.bitmap = start.bitmap := by
  have hallocate : ∀ (s : Machine) {n : Nat}, 1 ≤ n →
      (pmmAllocate s n).2.highestPage = s.highestPage ∧ (pmmAllocate s n).2.bitmap = s.bitmap := by
    intro s n hn
    rcases pmmAllocate_cases s hn with ⟨-, hst | ⟨-, hst⟩⟩ | ⟨i, -, -, -, hst⟩
    all_goals simp [hst]
  induction hrun with
  | start => exact ⟨rfl, rfl⟩
  | allocate _ hn _ _ ih => exact ⟨(hallocate _ hn).1.trans ih.1, (hallocate _ hn).2.trans ih.2⟩
  | refuse _ hn _ _ ih => exact ⟨(hallocate _ hn).1.trans ih.1, (hallocate _ hn).2.trans ih.2⟩
  | free _ _ _ ih => simpa using ih

/-! ### The size of the bitmap -/

/-- The bits of all pages below `highest_page`, those a run tests and those
`pmm_initialize` clears, lie in the bytes reserved for the bitmap. -/
structure BitmapCovers (start : Machine) (map' : List MmapEntry) : Prop where
  pages : start.highestPage / PAGE_SIZE ≤ 8 * start.bitmap.size
  scan : ∀ s live, PmmRun (fun _ _ => True) start s live →
    ∀ n, ∀ k ∈ allocateTests s n, k < 8 * start.bitmap.size
  release : ∀ k ∈ releaseClears map', k < 8 * start.bitmap.size

/-- `pages` is not one to seven more than a multiple of `2 ^ 15`, the number of
bits in a page. -/
def RoundsUp (pages : Nat) : Prop := pages % 0x8000 = 0 ∨ 8 ≤ pages % 0x8000

instance (pages : Nat) : Decidable (RoundsUp pages) := inferInstanceAs (Decidable (_ ∨ _))

theorem bitmapSize_eq {h : Nat} (hh : h < 2 ^ 64) :
    bitmapSize h = (h / PAGE_SIZE / 8 + 4095) / 4096 * 4096 := by
  have hcancel : h / 4096 * 4096 / PAGE_SIZE = h / PAGE_SIZE := Nat.mul_div_cancel _ (by decide)
  rw [bitmapSize, alignDown_page hh, hcancel, alignUp_page, Nat.mod_eq_of_lt]
  simp only [PAGE_SIZE]
  omega

/-- Eight bits a byte are enough exactly when the division by eight loses
nothing that the round-up does not bring back. -/
theorem bitmapSize_covers_iff {h : Nat} (hh : h < 2 ^ 64) :
    h / PAGE_SIZE ≤ 8 * bitmapSize h ↔ RoundsUp (h / PAGE_SIZE) := by
  rw [bitmapSize_eq hh, RoundsUp]
  generalize h / PAGE_SIZE = pages
  omega

/-- Carving the bitmap out moves the start of an entry, not its end. -/
theorem end_of_mem_carveBitmap {size : Nat} {map : List MmapEntry}
    (hw : ∀ e ∈ map, e.type = .usable → e.base + e.length < 2 ^ 64) :
    ∀ e' ∈ (carveBitmap size map).2, e'.type = .usable →
      ∃ e ∈ map, e.type = .usable ∧ e'.base + e'.length = e.base + e.length := by
  induction map with
  | nil => simp [carveBitmap]
  | cons e es ih =>
      intro e' he' hu
      rw [carveBitmap] at he'
      split at he'
      · rename_i hfit
        rcases List.mem_cons.mp he' with rfl | hmem
        · have := hw e (by simp) hfit.1
          have hlen := hfit.2
          refine ⟨e, by simp, hfit.1, ?_⟩
          show (e.base + size) % 2 ^ 64 + (e.length - size) = e.base + e.length
          omega
        · exact ⟨e', by simp [hmem], hu, rfl⟩
      · rcases List.mem_cons.mp he' with rfl | hmem
        · exact ⟨e', by simp, hu, rfl⟩
        · obtain ⟨x, hx, h⟩ := ih (fun x hx => hw x (by simp [hx])) e' hmem hu
          exact ⟨x, by simp [hx], h⟩

/-- **The bitmap covers memory** exactly when the number of pages is not just
behind a multiple of `2 ^ 15`. -/
theorem bitmap_covers_iff {mem : Mem} {map map' : List MmapEntry} {start : Machine}
    (hw : ∀ e ∈ map, e.type = .usable → e.base + e.length < 2 ^ 64)
    (h : pmmInitialize mem map = some (start, map')) :
    BitmapCovers start map' ↔ RoundsUp (scanHighest map 0 / PAGE_SIZE) := by
  obtain ⟨hhigh, hbm, -⟩ := pmmInitialize_eq h
  have hsize : start.bitmap.size = bitmapSize (scanHighest map 0) := by rw [hbm]
  have hmap' := pmmInitialize_map h
  have hcov := bitmapSize_covers_iff (scanHighest_lt map (h := 0) (by decide))
  rw [← hcov, ← hhigh]
  constructor
  · intro hall
    rw [hhigh, ← hsize, ← hhigh]
    exact hall.pages
  · intro hle
    rw [hhigh, ← hsize, ← hhigh] at hle
    refine ⟨hle, fun s live hrun n k hk => ?_, fun k hk => ?_⟩
    · have hlt := mem_allocateTests hk
      rw [hrun.statics.1] at hlt
      exact Nat.lt_of_lt_of_le hlt hle
    · -- every released page ends below the highest counted entry
      rw [hmap'] at hk
      have hend : ∀ e' ∈ (carveBitmap (bitmapSize (scanHighest map 0)) map).2, e'.type = .usable →
          ∃ e ∈ map, e.type = .usable ∧ e'.base + e'.length = e.base + e.length :=
        end_of_mem_carveBitmap hw
      obtain ⟨e', he', hu', hlt⟩ := end_of_mem_releaseClears (fun e' he' hu' => by
        obtain ⟨e, he, hu, heq⟩ := hend e' he' hu'
        rw [heq]
        exact hw e he hu) hk
      obtain ⟨e, he, hu, heq⟩ := hend e' he' hu'
      have htop := le_scanHighest he (by simp [MmapEntry.counted, hu]) (hw e he hu) 0
      rw [← heq, ← hhigh] at htop
      exact Nat.lt_of_lt_of_le hlt ((Nat.div_le_div_right htop).trans hle)

/-- 128 MiB of usable memory from page 1 on: one page too many. -/
def pastMap : List MmapEntry := [⟨0x1000, 0x8000000, .usable⟩]

theorem pmmInitialize_some {mem : Mem} {map : List MmapEntry}
    (h : bitmapSize (scanHighest map 0) ≠ 0) :
    ∃ start map', pmmInitialize mem map = some (start, map') := by
  unfold pmmInitialize
  dsimp only
  rw [if_neg h]
  exact ⟨_, _, rfl⟩

theorem bitmap_covers_small : BitmapCovers smallStart [⟨0x2000, 0x8000, .usable⟩] :=
  (bitmap_covers_iff (by decide) smallStart_eq).mpr (by decide)

/-- **The bitmap misses the last page** of `pastMap`. -/
theorem past_not_covered :
    ¬ ∀ (mem : Mem) (map map' : List MmapEntry) (start : Machine), MemoryMapOk map →
      pmmInitialize mem map = some (start, map') → BitmapCovers start map' := by
  intro hclaim
  have hok : MemoryMapOk pastMap := ⟨by decide, by decide, by simp [pastMap]⟩
  obtain ⟨start, map', h⟩ : ∃ start map', pmmInitialize (fun _ => 0#8) pastMap = some (start, map') :=
    pmmInitialize_some (by decide)
  have hpages := (hclaim _ _ _ _ hok h).pages
  obtain ⟨hhigh, hbm, -⟩ := pmmInitialize_eq h
  rw [hhigh, hbm] at hpages
  exact absurd hpages (by decide)

/-! ### The set of free pages -/

/-- The usable entries of a memory map. -/
def usableEntries (map : List MmapEntry) : List MmapEntry := map.filter fun e => e.type = .usable

theorem usablePage_usableEntries (map : List MmapEntry) (k : Nat) :
    UsablePage (usableEntries map) k ↔ UsablePage map k := by
  simp [UsablePage, usableEntries, and_assoc]

theorem MemoryMapOk.usableEntries {map : List MmapEntry} (h : MemoryMapOk map) :
    MemoryMapOk (usableEntries map) where
  no_wrap := fun e he => h.no_wrap e (List.mem_of_mem_filter he)
  aligned := fun e he => h.aligned e (List.mem_of_mem_filter he)
  disjoint := h.disjoint.sublist List.filter_sublist

theorem releaseClears_usableEntries (es : List MmapEntry) :
    releaseClears (usableEntries es) = releaseClears es := by
  induction es with
  | nil => rfl
  | cons e es ih =>
      rw [usableEntries] at ih ⊢
      by_cases hu : e.type = .usable
      · rw [List.filter_cons_of_pos (by simpa using hu), releaseClears, releaseClears, ih]
      · rw [List.filter_cons_of_neg (by simpa using hu), releaseClears, ih, if_neg hu]
        rfl

/-- The bitmap is looked for among the usable entries only. -/
theorem carveBitmap_usableEntries (size : Nat) (map : List MmapEntry) :
    (carveBitmap size (usableEntries map)).1 = (carveBitmap size map).1 ∧
      (carveBitmap size (usableEntries map)).2 = usableEntries (carveBitmap size map).2 := by
  induction map with
  | nil => exact ⟨rfl, rfl⟩
  | cons e es ih =>
      rw [usableEntries] at ih ⊢
      by_cases hu : e.type = .usable
      · rw [List.filter_cons_of_pos (by simpa using hu), carveBitmap, carveBitmap]
        split
        · simp [usableEntries, hu]
        · exact ⟨ih.1, by simp [usableEntries, hu, ih.2]⟩
      · rw [List.filter_cons_of_neg (by simpa using hu), carveBitmap.eq_2, if_neg fun h => hu h.1]
        exact ⟨ih.1, by simp [usableEntries, hu, ih.2]⟩

/-- The map that is left still is one. -/
theorem MemoryMapOk.carveBitmap {size : Nat} (hs : size % PAGE_SIZE = 0) {map : List MmapEntry}
    (h : MemoryMapOk map) : MemoryMapOk (carveBitmap size map).2 := by
  induction map with
  | nil => exact h
  | cons e es ih =>
      obtain ⟨hhead, htail⟩ := List.pairwise_cons.mp h.disjoint
      rw [BestOS.carveBitmap]
      split
      · -- the entry loses its first `size` bytes
        rename_i hfit
        have hw := h.no_wrap e (by simp)
        have hlen := hfit.2
        have hal := h.aligned e (by simp) hfit.1
        have hbase : (e.base + size) % 2 ^ 64 = e.base + size := Nat.mod_eq_of_lt (by omega)
        refine ⟨?_, ?_, List.pairwise_cons.mpr ⟨fun e' he' _ hu' => ?_, htail⟩⟩
        · intro x hx
          rcases List.mem_cons.mp hx with rfl | hx
          · show (e.base + size) % 2 ^ 64 + (e.length - size) < 2 ^ 64
            omega
          · exact h.no_wrap x (by simp [hx])
        · intro x hx hu
          rcases List.mem_cons.mp hx with rfl | hx
          · show (e.base + size) % 2 ^ 64 % PAGE_SIZE = 0 ∧ (e.length - size) % PAGE_SIZE = 0
            simp only [PAGE_SIZE] at hs hal ⊢
            omega
          · exact h.aligned x (by simp [hx]) hu
        · have := hhead e' he' hfit.1 hu'
          show (e.base + size) % 2 ^ 64 + (e.length - size) ≤ e'.base ∨
            e'.base + e'.length ≤ (e.base + size) % 2 ^ 64
          omega
      · have hrest := ih h.tail
        refine ⟨?_, ?_, List.pairwise_cons.mpr ⟨fun e' he' hu hu' => ?_, hrest.disjoint⟩⟩
        · intro x hx
          rcases List.mem_cons.mp hx with rfl | hx
          · exact h.no_wrap x (by simp)
          · exact hrest.no_wrap x hx
        · intro x hx hu
          rcases List.mem_cons.mp hx with rfl | hx
          · exact h.aligned x (by simp) hu
          · exact hrest.aligned x hx hu
        · -- what is left of a later entry lies within it
          obtain ⟨x, hx, hxu, hlo, hhi, -⟩ := carveBitmap_sub hs h.tail e' he' hu'
          have := hhead x hx hu hxu
          omega

/-- **The pages that are left** are the usable ones outside the bitmap. -/
theorem usablePage_carveBitmap {size data : Nat} (hs : size % PAGE_SIZE = 0)
    {map : List MmapEntry} (hmap : MemoryMapOk map) (h : (carveBitmap size map).1 = some data)
    (k : Nat) :
    UsablePage (carveBitmap size map).2 k ↔
      UsablePage map k ∧ ¬ (data ≤ k * PAGE_SIZE ∧ k * PAGE_SIZE < data + size) := by
  constructor
  · rintro ⟨e', he', hu, hlo, hhi⟩
    obtain ⟨e, he, hue, hle, hend, -⟩ := carveBitmap_sub hs hmap e' he' hu
    have hpage : 0 < PAGE_SIZE := by decide
    have := (carveBitmap_apart hmap h).2 e' he' hu
    exact ⟨⟨e, he, hue, by omega, by omega⟩, by omega⟩
  · rintro ⟨⟨x, hx, hu, hlo, hhi⟩, hout⟩
    induction map with
    | nil => simp at hx
    | cons e es ih =>
        rw [carveBitmap] at h ⊢
        split at h
        · rename_i hfit
          rw [if_pos hfit]
          obtain rfl : e.base = data := by simpa using h
          rcases List.mem_cons.mp hx with rfl | hmem
          · -- the page lies behind the bitmap in the same entry
            have hw := hmap.no_wrap x (by simp)
            have hlen := hfit.2
            refine ⟨_, List.mem_cons_self, hu, ?_, ?_⟩
            · show (x.base + size) % 2 ^ 64 ≤ k * PAGE_SIZE
              omega
            · show k * PAGE_SIZE + PAGE_SIZE ≤ (x.base + size) % 2 ^ 64 + (x.length - size)
              omega
          · exact ⟨x, List.mem_cons_of_mem _ hmem, hu, hlo, hhi⟩
        · rename_i hfit
          rw [if_neg hfit]
          rcases List.mem_cons.mp hx with rfl | hmem
          · exact ⟨x, by simp, hu, hlo, hhi⟩
          · obtain ⟨y, hy, hyu, hcov⟩ := ih hmap.tail h hmem
            exact ⟨y, by simp [hy], hyu, hcov⟩

/-- No bit is released twice. -/
theorem nodup_releaseClears {es : List MmapEntry} (h : MemoryMapOk es) :
    (releaseClears es).Nodup := by
  induction es with
  | nil => exact List.nodup_nil
  | cons e es ih =>
      obtain ⟨hhead, -⟩ := List.pairwise_cons.mp h.disjoint
      have htail := h.tail
      rw [releaseClears]
      split
      · rename_i hu
        have hal := (h.aligned e (by simp) hu).1
        have hw := h.no_wrap e (by simp)
        rw [freeClears_eq (by simp only [PAGE_SIZE]; omega)]
        refine List.nodup_append.mpr ⟨List.nodup_range', ih htail, fun k hk j hj => ?_⟩
        -- a page of this entry is in no other one
        obtain ⟨x, hx, hxu, hlo, hhi⟩ := (mem_releaseClears (fun x hx hu => (htail.aligned x hx hu).1)
          (fun x hx _ => htail.no_wrap x hx) j).mp hj
        have hapart := hhead x hx hu hxu
        rw [List.mem_range'_1] at hk
        rintro rfl
        simp only [PAGE_SIZE] at hal hk hlo hhi
        omega
      · exact ih htail

/-- The state in which the bits are released: every bit is set and no page is
counted. -/
theorem pmmInitialize_release {mem : Mem} {map map' : List MmapEntry} {start : Machine}
    (h : pmmInitialize mem map = some (start, map')) :
    ∃ s : Machine, s.usablePages = 0 ∧
      (∀ k < 8 * start.bitmap.size, pageUsed s k = true) ∧
      start = (releaseClears map').foldl clearBit s := by
  unfold pmmInitialize at h
  dsimp only at h
  split at h
  · cases h
  · simp only [Option.some.injEq, Prod.mk.injEq] at h
    obtain ⟨rfl, rfl⟩ := h
    refine ⟨_, ?_, fun k hk => ?_, releaseUsable_eq_foldl _ _⟩
    · rfl
    · rw [releaseUsable_bitmap] at hk
      exact bitTest_memset_ones _ _ _ hk

/-- The pages released are the usable ones outside the bitmap, each once, and all
of them are below `highest_page`. -/
theorem releaseClears_pages {mem : Mem} {map map' : List MmapEntry} {start : Machine}
    (hmap : MemoryMapOk (usableEntries map)) (hfit : BitmapFits map)
    (h : pmmInitialize mem map = some (start, map')) :
    (∀ k, k ∈ releaseClears map' ↔ UsablePage map k ∧ ¬ InBitmap start (k * PAGE_SIZE)) ∧
      (releaseClears map').Nodup ∧
      ∀ k ∈ releaseClears map', k < start.highestPage / PAGE_SIZE := by
  obtain ⟨hhigh, hbm, -⟩ := pmmInitialize_eq h
  have hmap' := pmmInitialize_map h
  have hs := bitmapSize_aligned (scanHighest map 0)
  -- the bitmap is where the usable entries alone would put it
  obtain ⟨hcarve, hleft⟩ := carveBitmap_usableEntries (bitmapSize (scanHighest map 0)) map
  obtain ⟨data, hdata⟩ := carveBitmap_some hfit.placed
  rw [hdata] at hcarve hbm
  rw [Option.getD_some] at hbm
  have hcarved := hmap.carveBitmap hs
  -- the pages released are those of the entries that are left
  have hmem : ∀ k, k ∈ releaseClears map' ↔
      UsablePage map k ∧ ¬ InBitmap start (k * PAGE_SIZE) := by
    intro k
    rw [← usablePage_usableEntries map, InBitmap, hbm, ← usablePage_carveBitmap hs hmap hcarve,
      ← mem_releaseClears (fun e he hu => (hcarved.aligned e he hu).1)
        (fun e he _ => hcarved.no_wrap e he), hleft, ← hmap', releaseClears_usableEntries]
  refine ⟨hmem, ?_, fun k hk => ?_⟩
  · rw [← releaseClears_usableEntries, hmap', ← hleft]
    exact nodup_releaseClears hcarved
  · obtain ⟨⟨x, hx, hxu, -, hhi⟩, -⟩ := (hmem k).mp hk
    have hw := hmap.no_wrap x (List.mem_filter.mpr ⟨hx, by simpa using hxu⟩)
    have htop := le_scanHighest hx (by simp [MmapEntry.counted, hxu]) hw 0
    rw [hhigh]
    simp only [PAGE_SIZE] at hhi ⊢
    omega

/-- What the releases leave: a bit of the bitmap is clear exactly when its page was
released, and `usable_pages` is the number of releases. -/
theorem pmmInitialize_count {mem : Mem} {map map' : List MmapEntry} {start : Machine}
    (hmap : MemoryMapOk (usableEntries map)) (hfit : BitmapFits map)
    (h : pmmInitialize mem map = some (start, map')) :
    (∀ k < 8 * start.bitmap.size, pageUsed start k = !decide (k ∈ releaseClears map')) ∧
      start.usablePages = (releaseClears map').length := by
  obtain ⟨hhigh, -⟩ := pmmInitialize_eq h
  obtain ⟨s, hs0, hset, hstart⟩ := pmmInitialize_release h
  obtain ⟨-, hnodup, hin⟩ := releaseClears_pages hmap hfit h
  obtain ⟨-, hcount, hbits⟩ := foldl_clearBit (releaseClears map') s (by omega)
  rw [← hstart] at hcount hbits
  refine ⟨fun k hk => by rw [hbits k, hset k hk, Bool.true_and], ?_⟩
  -- a page is released once, so the counter does not wrap
  have hlen : (releaseClears map').length ≤ start.highestPage / PAGE_SIZE := by
    rw [← List.toFinset_card_of_nodup hnodup, ← Finset.card_range (start.highestPage / PAGE_SIZE)]
    refine Finset.card_le_card fun k hk => ?_
    rw [Finset.mem_range]
    exact hin k (List.mem_toFinset.mp hk)
  have hlt := scanHighest_lt map (show 0 < 2 ^ 64 by decide)
  rw [hcount, hs0, Nat.zero_add, Nat.mod_eq_of_lt]
  rw [hhigh] at hlen
  simp only [PAGE_SIZE] at hlen
  omega

/-- **The pool after `pmm_initialize`.**  The bitmap is at the start of a usable
entry; the bit of a page is clear exactly when the page is usable and not one
of the bitmap's own; and `usable_pages` is the number of clear bits. -/
theorem pmmInitialize_bits {mem : Mem} {map map' : List MmapEntry} {start : Machine}
    (hmap : MemoryMapOk (usableEntries map)) (hfit : BitmapFits map)
    (h : pmmInitialize mem map = some (start, map')) :
    (start.bitmap.size = bitmapSize (scanHighest map 0) ∧
      ∃ e ∈ map, e.type = .usable ∧ start.bitmap.data = e.base ∧ start.bitmap.size ≤ e.length) ∧
    (∀ k < 8 * start.bitmap.size, pageUsed start k = false ↔
      UsablePage map k ∧ ¬ InBitmap start (k * PAGE_SIZE)) ∧
    start.usablePages =
      ((Finset.range (8 * start.bitmap.size)).filter fun k => pageUsed start k = false).card := by
  obtain ⟨hhigh, hbm, -⟩ := pmmInitialize_eq h
  obtain ⟨hmem, hnodup, hin⟩ := releaseClears_pages hmap hfit h
  obtain ⟨hbits, hcount⟩ := pmmInitialize_count hmap hfit h
  -- the entry in which the bitmap is
  obtain ⟨hcarve, -⟩ := carveBitmap_usableEntries (bitmapSize (scanHighest map 0)) map
  obtain ⟨data, hdata⟩ := carveBitmap_some hfit.placed
  rw [hdata] at hcarve hbm
  rw [Option.getD_some] at hbm
  obtain ⟨⟨e, he, hu, hbase, hlen⟩, -⟩ := carveBitmap_apart hmap hcarve
  refine ⟨⟨by rw [hbm], e, List.mem_of_mem_filter he, hu, by rw [hbm, hbase], by rw [hbm]; exact hlen⟩,
    fun k hk => ?_, ?_⟩
  · rw [← hmem k, hbits k hk]
    simp
  · rw [hcount, ← List.toFinset_card_of_nodup hnodup]
    congr 1
    ext k
    rw [Finset.mem_filter, Finset.mem_range, List.mem_toFinset]
    constructor
    · intro hk
      have hk8 : k < 8 * start.bitmap.size := by
        rw [hbm]
        exact Nat.lt_of_lt_of_le (hhigh ▸ hin k hk) hfit.covers
      exact ⟨hk8, by simp [hbits k hk8, hk]⟩
    · rintro ⟨hk8, hbit⟩
      rw [hbits k hk8] at hbit
      simpa using hbit

/-- The small machine: the bitmap is page 1 and eight pages are free. -/
theorem pmmInitialize_bits_small :
    (∃ e ∈ smallMap, e.type = .usable ∧ smallStart.bitmap.data = e.base) ∧
    (∀ k < 8 * smallStart.bitmap.size, pageUsed smallStart k = false ↔
      UsablePage smallMap k ∧ ¬ InBitmap smallStart (k * PAGE_SIZE)) := by
  obtain ⟨⟨-, e, he, hu, hdata, -⟩, hbits, -⟩ :=
    pmmInitialize_bits smallMap_ok.usableEntries smallMap_fits smallStart_eq
  exact ⟨⟨e, he, hu, hdata⟩, hbits⟩

end BestOS
