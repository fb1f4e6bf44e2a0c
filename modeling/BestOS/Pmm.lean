/-
BestOS/Pmm.lean

The physical frame allocator, `arch/memory/pmm.c`.

The allocator keeps one bit per 4096-byte frame in a bitmap that itself lies
in physical memory, so the model's state `Machine` is the whole memory
together with the static variables of `pmm.c`: testing a bit reads a byte of
memory and marking a frame writes one.  `bitmap.data` is kept as a physical
address (the pointer less `MMAP_IO_BASE`).

Page indices are naturals.  `pageUsed s k` is the bit of page `k`; every
operation below gets one lemma saying what it does to all the bits at once,
and callers use these lemmas only:

* `pageUsed_setPages`, `pageUsed_pmmFree` — a range is marked or cleared;
* `pmmAllocate_eq` — the scan takes the *lowest free page* and marks `pages`
  frames from there on.

The last lemma is worth reading against the source: the inner loop of
`pmm_allocate` tests `BIT_TEST(i, ...)`, not `BIT_TEST(i + j, ...)`, so only
the first page of the run is ever looked at.
-/
import BestOS.Mem

namespace BestOS

open ByteMemory

/-! ### State -/

/-- The anonymous `bitmap` struct of `pmm.c`. -/
structure Bitmap where
  data : Nat
  size : Nat
deriving Repr, DecidableEq

/-- Physical memory and the static variables of `pmm.c`. -/
structure Machine where
  mem : Mem
  highestPage : Nat
  usablePages : Nat
  bitmap : Bitmap

/-- The `STIVALE2_MMAP_*` types. -/
inductive MmapType
  | usable
  | reserved
  | acpiReclaimable
  | acpiNvs
  | badMemory
  | bootloaderReclaimable
  | kernelAndModules
  | framebuffer
deriving Repr, DecidableEq

/-- `struct stivale2_mmap_entry`. -/
structure MmapEntry where
  base : Nat
  length : Nat
  type : MmapType
deriving Repr, DecidableEq

/-! ### Bits -/

/-- `BIT_SET(BIT, MAP)`. -/
def bitSet (bit : Nat) (m : Mem) (map : Nat) : Mem :=
  put m (map + bit / 8) (m (map + bit / 8) ||| (1#8 <<< (bit % 8)))

/-- `BIT_CLEAR(BIT, MAP)`. -/
def bitClear (bit : Nat) (m : Mem) (map : Nat) : Mem :=
  put m (map + bit / 8) (m (map + bit / 8) &&& ~~~(1#8 <<< (bit % 8)))

/-- `BIT_TEST(BIT, MAP)`. -/
def bitTest (bit : Nat) (m : Mem) (map : Nat) : Bool :=
  ((m (map + bit / 8) >>> (bit % 8)) &&& 1#8) == 1#8

/-- `clear_page(addr)`. -/
def clearPage (s : Machine) (addr : Nat) : Machine :=
  { s with
    mem := bitClear (addr / PAGE_SIZE) s.mem s.bitmap.data
    usablePages := (s.usablePages + 1) % 2 ^ 64 }

/-- `set_page(addr)`. -/
def setPage (s : Machine) (addr : Nat) : Machine :=
  { s with
    mem := bitSet (addr / PAGE_SIZE) s.mem s.bitmap.data
    usablePages := (s.usablePages + (2 ^ 64 - 1)) % 2 ^ 64 }

/-- `set_pages(addr, page_count)`. -/
def setPages (s : Machine) (addr : Nat) : Nat → Machine
  | 0 => s
  | i + 1 => setPage (setPages s addr i) ((addr + i * PAGE_SIZE) % 2 ^ 64)

/-- `pmm_free(addr, pages)`. -/
def pmmFree (s : Machine) (addr : Nat) : Nat → Machine
  | 0 => s
  | i + 1 => clearPage (pmmFree s addr i) ((addr + i * PAGE_SIZE) % 2 ^ 64)

/-! ### Allocation -/

/-- The inner loop of `pmm_allocate` at page `i`, with `left` iterations to go:
`j = pages - left`.  It breaks on a set bit and succeeds at `j = pages - 1`.
The bit it tests is that of page `i` at every iteration. -/
def allocateRun (s : Machine) (i pages : Nat) : Nat → Bool
  | 0 => false
  | left + 1 =>
      if bitTest i s.mem s.bitmap.data then false
      else if pages - (left + 1) = pages - 1 then true
      else allocateRun s i pages left

/-- The outer loop of `pmm_allocate`, with `left` pages to go:
`i = highest_page / PAGE_SIZE - left`. -/
def allocateScan (s : Machine) (pages : Nat) : Nat → Nat × Machine
  | 0 => (0, s)
  | left + 1 =>
      let i := s.highestPage / PAGE_SIZE - (left + 1)
      if allocateRun s i pages pages then
        (i * PAGE_SIZE, setPages s (i * PAGE_SIZE) pages)
      else allocateScan s pages left

/-- `pmm_allocate(pages)`: the returned address (`0` is `NULL`) and the new
state. -/
def pmmAllocate (s : Machine) (pages : Nat) : Nat × Machine :=
  if pages > s.bitmap.size then (0, s)
  else allocateScan s pages (s.highestPage / PAGE_SIZE)

/-- `pmm_allocate_zero(pages)`.  The `memset` is not guarded by a check for
`NULL`. -/
def pmmAllocateZero (s : Machine) (pages : Nat) : Nat × Machine :=
  let r := pmmAllocate s pages
  (r.1, { r.2 with mem := memset r.2.mem r.1 0#8 (pages * PAGE_SIZE % 2 ^ 64) })

/-! ### Initialisation -/

/-- The entries counted towards `highest_page`. -/
def MmapEntry.counted (e : MmapEntry) : Bool :=
  e.type == .usable || e.type == .bootloaderReclaimable || e.type == .kernelAndModules

/-- The first loop of `pmm_initialize`. -/
def scanHighest (map : List MmapEntry) (highestPage : Nat) : Nat :=
  map.foldl (fun highest e =>
    if e.counted then
      let top := (e.base + e.length) % 2 ^ 64
      if top > highest then top else highest
    else highest) highestPage

/-- `bitmap_size` of `pmm_initialize`. -/
def bitmapSize (highestPage : Nat) : Nat :=
  alignUp (alignDown highestPage PAGE_SIZE / PAGE_SIZE / 8) PAGE_SIZE

/-- The second loop of `pmm_initialize`: the first usable entry with room for
the bitmap gives up its first `size` bytes.  Returns the bitmap's address. -/
def carveBitmap (size : Nat) : List MmapEntry → Option Nat × List MmapEntry
  | [] => (none, [])
  | e :: es =>
      if e.type = .usable ∧ e.length ≥ size then
        -- the entry is changed in place, and the loop is left
        (some e.base,
          { e with base := (e.base + size) % 2 ^ 64, length := e.length - size } :: es)
      else
        let r := carveBitmap size es
        (r.1, e :: r.2)

/-- The last loop of `pmm_initialize`. -/
def releaseUsable (s : Machine) : List MmapEntry → Machine
  | [] => s
  | e :: es =>
      releaseUsable (if e.type = .usable then pmmFree s e.base (e.length / PAGE_SIZE) else s) es

/-- `pmm_initialize`, on the memory map of the boot information.  `none` is the
panic loop; otherwise the allocator's state and the memory map as the function
leaves it (`vmm_initialize` reads it again). -/
def pmmInitialize (mem : Mem) (map : List MmapEntry) : Option (Machine × List MmapEntry) :=
  let highestPage := scanHighest map 0
  let size := bitmapSize highestPage
  if size = 0 then none
  else
    let r := carveBitmap size map
    -- no entry has room: the bitmap is at address 0
    let data := r.1.getD 0
    let s : Machine :=
      { mem := memset mem data 0xff#8 size, highestPage := highestPage, usablePages := 0,
        bitmap := ⟨data, size⟩ }
    some (releaseUsable s r.2, r.2)

/-! ### What each operation does to the bits -/

/-- The bit of page `k`: set when the page is in use. -/
def pageUsed (s : Machine) (k : Nat) : Bool := bitTest k s.mem s.bitmap.data

theorem bitTest_eq_getLsbD (bit : Nat) (m : Mem) (map : Nat) :
    bitTest bit m map = (m (map + bit / 8)).getLsbD (bit % 8) := by
  have hshift : ∀ (x : BitVec 8) (i : Nat), ((x >>> i) &&& 1#8 == 1#8) = x.getLsbD i := by
    intro x i
    rw [BitVec.and_one_eq_setWidth_ofBool_getLsbD, BitVec.getLsbD_ushiftRight, Nat.add_zero]
    cases x.getLsbD i <;> rfl
  exact hshift _ _

theorem bitTest_bitSet (j k : Nat) (m : Mem) (map : Nat) :
    bitTest j (bitSet k m map) map = (bitTest j m map || decide (j = k)) := by
  rw [bitTest_eq_getLsbD, bitTest_eq_getLsbD, bitSet]
  by_cases hbyte : j / 8 = k / 8
  · rw [hbyte, put_same, BitVec.getLsbD_or, BitVec.getLsbD_shiftLeft]
    have hlt : j % 8 < 8 := Nat.mod_lt _ (by decide)
    by_cases hjk : j = k
    · subst hjk
      simp [hlt]
    · have hmod : j % 8 ≠ k % 8 := by omega
      by_cases hle : j % 8 < k % 8
      · simp [hjk, hle]
      · have hpos : j % 8 - k % 8 ≠ 0 := by omega
        simp [hjk, BitVec.getLsbD_one, hpos]
  · have hjk : j ≠ k := fun h => hbyte (by rw [h])
    rw [put_ne (by omega)]
    simp [hjk]

theorem bitTest_bitClear (j k : Nat) (m : Mem) (map : Nat) :
    bitTest j (bitClear k m map) map = (bitTest j m map && !decide (j = k)) := by
  rw [bitTest_eq_getLsbD, bitTest_eq_getLsbD, bitClear]
  by_cases hbyte : j / 8 = k / 8
  · rw [hbyte, put_same, BitVec.getLsbD_and, BitVec.getLsbD_not, BitVec.getLsbD_shiftLeft]
    have hlt : j % 8 < 8 := Nat.mod_lt _ (by decide)
    by_cases hjk : j = k
    · subst hjk
      simp [hlt]
    · have hmod : j % 8 ≠ k % 8 := by omega
      by_cases hle : j % 8 < k % 8
      · simp [hjk, hle, hlt]
      · have hpos : j % 8 - k % 8 ≠ 0 := by omega
        simp [hjk, BitVec.getLsbD_one, hpos, hlt]
  · have hjk : j ≠ k := fun h => hbyte (by rw [h])
    rw [put_ne (by omega)]
    simp [hjk]

@[simp] theorem setPages_bitmap (s : Machine) (a n : Nat) : (setPages s a n).bitmap = s.bitmap := by
  induction n with
  | zero => rfl
  | succ n ih => exact ih

@[simp] theorem setPages_highestPage (s : Machine) (a n : Nat) :
    (setPages s a n).highestPage = s.highestPage := by
  induction n with
  | zero => rfl
  | succ n ih => exact ih

@[simp] theorem pmmFree_bitmap (s : Machine) (a n : Nat) : (pmmFree s a n).bitmap = s.bitmap := by
  induction n with
  | zero => rfl
  | succ n ih => exact ih

@[simp] theorem pmmFree_highestPage (s : Machine) (a n : Nat) :
    (pmmFree s a n).highestPage = s.highestPage := by
  induction n with
  | zero => rfl
  | succ n ih => exact ih

theorem pageUsed_setPage (s : Machine) (a k : Nat) :
    pageUsed (setPage s a) k = (pageUsed s k || decide (k = a / PAGE_SIZE)) :=
  bitTest_bitSet _ _ _ _

theorem pageUsed_clearPage (s : Machine) (a k : Nat) :
    pageUsed (clearPage s a) k = (pageUsed s k && !decide (k = a / PAGE_SIZE)) :=
  bitTest_bitClear _ _ _ _

/-- A range that does not wrap still does not when its last page is dropped. -/
theorem range_pred {a n : Nat} (hw : a + (n + 1) * PAGE_SIZE ≤ 2 ^ 64) :
    a + n * PAGE_SIZE ≤ 2 ^ 64 := by
  rw [Nat.succ_mul] at hw
  exact (Nat.add_le_add_left (Nat.le_add_right _ _) a).trans hw

/-- The `i`-th page of a range that ends by the last page of the address space. -/
theorem page_of_pages {a i n : Nat} (hi : i < n) (h : a / PAGE_SIZE + n ≤ 2 ^ 52) :
    (a + i * PAGE_SIZE) % 2 ^ 64 / PAGE_SIZE = a / PAGE_SIZE + i := by
  simp only [PAGE_SIZE] at h ⊢
  omega

/-- A range of addresses that does not wrap is such a range of pages. -/
theorem pages_of_range {a n : Nat} (hw : a + n * PAGE_SIZE ≤ 2 ^ 64) :
    a / PAGE_SIZE + n ≤ 2 ^ 52 := by
  simp only [PAGE_SIZE] at hw ⊢
  omega

theorem page_of_range {a i n : Nat} (hi : i < n) (hw : a + n * PAGE_SIZE ≤ 2 ^ 64) :
    (a + i * PAGE_SIZE) % 2 ^ 64 / PAGE_SIZE = a / PAGE_SIZE + i :=
  page_of_pages hi (pages_of_range hw)

/-- `set_pages` marks exactly the pages of its range. -/
theorem setPages_bits (s : Machine) {a n : Nat} (h : a / PAGE_SIZE + n ≤ 2 ^ 52) (k : Nat) :
    pageUsed (setPages s a n) k
      = (pageUsed s k || decide (a / PAGE_SIZE ≤ k ∧ k < a / PAGE_SIZE + n)) := by
  induction n with
  | zero =>
      have hempty : ¬ (a / PAGE_SIZE ≤ k ∧ k < a / PAGE_SIZE + 0) := by omega
      simp only [setPages, hempty, decide_false, Bool.or_false]
  | succ n ih =>
      rw [setPages, pageUsed_setPage, ih (by omega), page_of_pages (Nat.lt_succ_self n) h,
        Bool.or_assoc, ← Bool.decide_or]
      congr 2
      apply propext
      omega

/-- `pmm_free` clears exactly the pages of its range. -/
theorem pmmFree_bits (s : Machine) {a n : Nat} (h : a / PAGE_SIZE + n ≤ 2 ^ 52) (k : Nat) :
    pageUsed (pmmFree s a n) k
      = (pageUsed s k && !decide (a / PAGE_SIZE ≤ k ∧ k < a / PAGE_SIZE + n)) := by
  induction n with
  | zero =>
      have hempty : ¬ (a / PAGE_SIZE ≤ k ∧ k < a / PAGE_SIZE + 0) := by omega
      simp only [pmmFree, hempty, decide_false, Bool.not_false, Bool.and_true]
  | succ n ih =>
      rw [pmmFree, pageUsed_clearPage, ih (by omega), page_of_pages (Nat.lt_succ_self n) h,
        Bool.and_assoc, ← Bool.not_or, ← Bool.decide_or]
      congr 3
      apply propext
      omega

theorem pageUsed_setPages (s : Machine) (a n k : Nat) (hw : a + n * PAGE_SIZE ≤ 2 ^ 64) :
    pageUsed (setPages s a n) k
      = (pageUsed s k || decide (a / PAGE_SIZE ≤ k ∧ k < a / PAGE_SIZE + n)) :=
  setPages_bits s (pages_of_range hw) k

theorem pageUsed_pmmFree (s : Machine) (a n k : Nat) (hw : a + n * PAGE_SIZE ≤ 2 ^ 64) :
    pageUsed (pmmFree s a n) k
      = (pageUsed s k && !decide (a / PAGE_SIZE ≤ k ∧ k < a / PAGE_SIZE + n)) :=
  pmmFree_bits s (pages_of_range hw) k

/-! ### The scan -/

/-- The lowest page below `highest_page / PAGE_SIZE` whose bit is clear. -/
def firstFree (s : Machine) : Option Nat :=
  (List.range (s.highestPage / PAGE_SIZE)).find? fun i => !pageUsed s i

/-- The inner loop succeeds exactly when the bit of page `i` is clear. -/
theorem allocateRun_eq (s : Machine) (i pages : Nat) {left : Nat} (h0 : 0 < left)
    (h : left ≤ pages) : allocateRun s i pages left = !pageUsed s i := by
  induction left with
  | zero => omega
  | succ left ih =>
      rw [allocateRun]
      cases hbit : bitTest i s.mem s.bitmap.data with
      | true => simp [pageUsed, hbit]
      | false =>
          by_cases hlast : pages - (left + 1) = pages - 1
          · simp [pageUsed, hbit, hlast]
          · rw [if_neg (by simp), if_neg hlast]
            exact ih (by omega) (by omega)

theorem allocateScan_eq (s : Machine) {pages : Nat} (hp : 0 < pages) {left : Nat}
    (hl : left ≤ s.highestPage / PAGE_SIZE) :
    allocateScan s pages left
      = match (List.range' (s.highestPage / PAGE_SIZE - left) left).find?
          (fun i => !pageUsed s i) with
        | none => (0, s)
        | some i => (i * PAGE_SIZE, setPages s (i * PAGE_SIZE) pages) := by
  induction left with
  | zero => rfl
  | succ left ih =>
      have hnext : s.highestPage / PAGE_SIZE - (left + 1) + 1
          = s.highestPage / PAGE_SIZE - left := by omega
      rw [allocateScan, List.range'_succ, List.find?_cons, hnext,
        allocateRun_eq s _ pages hp (Nat.le_refl _)]
      cases pageUsed s (s.highestPage / PAGE_SIZE - (left + 1)) with
      | true => simpa using ih (by omega)
      | false => simp

/-- **What `pmm_allocate` computes**: the lowest free page, with `pages` frames
marked from there on, whatever their bits were. -/
theorem pmmAllocate_eq (s : Machine) {pages : Nat} (hp : 0 < pages) :
    pmmAllocate s pages
      = if pages > s.bitmap.size then (0, s)
        else match firstFree s with
          | none => (0, s)
          | some i => (i * PAGE_SIZE, setPages s (i * PAGE_SIZE) pages) := by
  rw [pmmAllocate, allocateScan_eq s hp (Nat.le_refl _), Nat.sub_self, ← List.range_eq_range']
  rfl

theorem firstFree_spec {s : Machine} {i : Nat} (h : firstFree s = some i) :
    i < s.highestPage / PAGE_SIZE ∧ pageUsed s i = false := by
  have hmem := List.mem_of_find?_eq_some h
  have hbit := List.find?_some h
  exact ⟨List.mem_range.mp hmem, by simpa using hbit⟩

theorem firstFree_eq_none {s : Machine} (h : firstFree s = none) {k : Nat}
    (hk : k < s.highestPage / PAGE_SIZE) : pageUsed s k = true := by
  have hall := List.find?_eq_none.mp h k (List.mem_range.mpr hk)
  simpa using hall

end BestOS
