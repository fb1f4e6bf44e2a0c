/-
BestOS/Frames.lean

The frame allocator as its clients in the kernel see it: page tables, stacks,
program segments and the kernel heap all take their frames from
`pmm_allocate_zero` and some of them give them back.

`PmmOk` is what keeps the allocator working for them: the bitmap covers memory
and lies in frames that are marked used, so that nobody is handed the bitmap.
`pmm_initialize` establishes it (`pmmOk_pmmInitialize`).  Under it, a request
whose pages are free behind the lowest free page (`RunFree`) is described by
`TakesFrames`, a release by `pmmFree_spec`; the modules above use these two and
not the loops of `pmm.c`.

Frames are taken lowest first.  `Upward` says that the free frames still form
an upper segment of memory, as they do after `pmm_initialize` on one usable
range: then every request that fits is met by free frames.
-/
import BestOS.PmmSound
import Mathlib.Data.Finset.Card
import Mathlib.Order.Interval.Finset.Nat

namespace BestOS

open ByteMemory

/-! ### State -/

/-- The bit of page `k` lies in the bitmap and is set. -/
def MarkedUsed (s : Machine) (k : Nat) : Prop := k < 8 * s.bitmap.size ∧ pageUsed s k = true

/-- Address `a` is a byte of the bitmap. -/
def InBitmap (s : Machine) (a : Nat) : Prop :=
  s.bitmap.data ≤ a ∧ a < s.bitmap.data + s.bitmap.size

/-- The number of frames `pmm_allocate(1)` can still hand out. -/
def freeCount (s : Machine) : Nat :=
  ((Finset.range (s.highestPage / PAGE_SIZE)).filter fun k => pageUsed s k = false).card

/-- The bitmap covers all pages below `highest_page` and is itself stored in
frames marked used.  Physical addresses have 52 bits. -/
structure PmmOk (s : Machine) : Prop where
  high : s.highestPage ≤ 2 ^ 52
  covers : s.highestPage / PAGE_SIZE ≤ 8 * s.bitmap.size
  stored : ∀ a, InBitmap s a → MarkedUsed s (a / PAGE_SIZE)

/-- Where the bitmap lies and that its own pages are marked is kept by a step that
only marks pages. -/
theorem PmmOk.kept {s s' : Machine} (h : PmmOk s) (hhigh : s'.highestPage = s.highestPage)
    (hbitmap : s'.bitmap = s.bitmap) (hmarked : ∀ {k}, MarkedUsed s k → MarkedUsed s' k) :
    PmmOk s' where
  high := hhigh ▸ h.high
  covers := by
    rw [hhigh, hbitmap]
    exact h.covers
  stored := by
    intro a ha
    refine hmarked (h.stored a ?_)
    simpa only [InBitmap, hbitmap] using ha

/-- The free pages form an upper segment of memory. -/
def Upward (s : Machine) : Prop :=
  ∀ j k, j ≤ k → k < s.highestPage / PAGE_SIZE → pageUsed s j = false → pageUsed s k = false

/-- The lowest free page is followed by enough free pages for a request of
`n`, and the request is not refused for its size. -/
def RunFree (s : Machine) (n : Nat) : Prop :=
  n ≤ s.bitmap.size ∧ ∃ f, firstFree s = some f ∧
    ∀ j < n, f + j < s.highestPage / PAGE_SIZE ∧ pageUsed s (f + j) = false

/-- A byte lies in the frame at `f * PAGE_SIZE` exactly when its page is `f`. -/
theorem page_eq_iff (a f : Nat) :
    a / PAGE_SIZE = f ↔ f * PAGE_SIZE ≤ a ∧ a < f * PAGE_SIZE + PAGE_SIZE := by
  simp only [PAGE_SIZE]
  omega

/-- The same for `n` frames in a row. -/
theorem page_mem_iff (a f n : Nat) :
    (f ≤ a / PAGE_SIZE ∧ a / PAGE_SIZE < f + n) ↔
      f * PAGE_SIZE ≤ a ∧ a < f * PAGE_SIZE + n * PAGE_SIZE := by
  simp only [PAGE_SIZE]
  omega

theorem page_of_offset (k : Nat) {x : Nat} (hx : x < PAGE_SIZE) :
    (k * PAGE_SIZE + x) / PAGE_SIZE = k := by
  simp only [PAGE_SIZE] at hx ⊢
  omega

/-- An address outside a page-aligned frame. -/
theorem outside_frame {t a : Nat} (ht : t % PAGE_SIZE = 0) (h : a / PAGE_SIZE ≠ t / PAGE_SIZE) :
    a < t ∨ t + PAGE_SIZE ≤ a := by
  simp only [PAGE_SIZE] at ht h ⊢
  omega

/-- A byte of a page-aligned frame. -/
theorem page_of_mem_frame {t a : Nat} (ht : t % PAGE_SIZE = 0) (h1 : t ≤ a)
    (h2 : a < t + PAGE_SIZE) : a / PAGE_SIZE = t / PAGE_SIZE := by
  simp only [PAGE_SIZE] at ht h2 ⊢
  omega

/-- A bit depends only on the bytes of the bitmap. -/
theorem pageUsed_congr {s s' : Machine} (hb : s'.bitmap = s.bitmap)
    (hm : ∀ a, InBitmap s a → s'.mem a = s.mem a) {k : Nat} (hk : k < 8 * s.bitmap.size) :
    pageUsed s' k = pageUsed s k := by
  have hin : InBitmap s (s.bitmap.data + k / 8) := ⟨by omega, by omega⟩
  rw [pageUsed, pageUsed, bitTest_eq_getLsbD, bitTest_eq_getLsbD, hb, hm _ hin]

theorem exists_firstFree {s : Machine} (h : 1 ≤ freeCount s) : ∃ f, firstFree s = some f := by
  obtain ⟨k, hk⟩ := Finset.card_pos.mp h
  obtain ⟨hlt, hbit⟩ := Finset.mem_filter.mp hk
  cases hf : firstFree s with
  | some f => exact ⟨f, rfl⟩
  | none =>
      rw [firstFree_eq_none hf (Finset.mem_range.mp hlt)] at hbit
      cases hbit

/-- Below the lowest free page everything is in use. -/
theorem firstFree_lowest {s : Machine} {f k : Nat} (h : firstFree s = some f) (hk : k < f) :
    pageUsed s k = true := by
  obtain ⟨-, -, hall⟩ := List.find?_range_eq_some.mp h
  simpa using hall k hk

/-! ### Taking frames -/

/-- The byte that holds the bit of page `k`. -/
theorem inBitmap_of_lt {s : Machine} {k : Nat} (hk : k < 8 * s.bitmap.size) :
    InBitmap s (s.bitmap.data + k / 8) :=
  ⟨by omega, by omega⟩

/-- `set_pages` writes to the bitmap only. -/
theorem setPages_mem {s : Machine} {addr n a : Nat}
    (hin : ∀ i < n, (addr + i * PAGE_SIZE) % 2 ^ 64 / PAGE_SIZE < 8 * s.bitmap.size)
    (ha : ¬ InBitmap s a) : (setPages s addr n).mem a = s.mem a := by
  induction n with
  | zero => rfl
  | succ n ih =>
      have hne : a ≠ (setPages s addr n).bitmap.data
          + (addr + n * PAGE_SIZE) % 2 ^ 64 / PAGE_SIZE / 8 := by
        rintro rfl
        rw [setPages_bitmap] at ha
        exact ha (inBitmap_of_lt (hin n (Nat.lt_succ_self n)))
      show put _ _ _ a = s.mem a
      rw [put_ne hne, ih fun i hi => hin i (Nat.lt_succ_of_lt hi)]

/-- What `pmm_allocate_zero(n)` does when its pages are free: pages `f` to
`f + n - 1` were free, with `f` the lowest free page; they are now marked and
zeroed, and nothing else changes but their bits. -/
structure TakesFrames (s s' : Machine) (f n : Nat) : Prop where
  below : f + n ≤ s.highestPage / PAGE_SIZE
  was_free : ∀ k, f ≤ k → k < f + n → pageUsed s k = false
  lowest : ∀ k < f, pageUsed s k = true
  bitmap : s'.bitmap = s.bitmap
  high : s'.highestPage = s.highestPage
  bits : ∀ k < 8 * s.bitmap.size,
    pageUsed s' k = (pageUsed s k || decide (f ≤ k ∧ k < f + n))
  zeroed : ∀ a, f ≤ a / PAGE_SIZE ∧ a / PAGE_SIZE < f + n → s'.mem a = 0#8
  kept : ∀ a, ¬ (f ≤ a / PAGE_SIZE ∧ a / PAGE_SIZE < f + n) → ¬ InBitmap s a →
    s'.mem a = s.mem a

theorem pmmAllocateZero_run {s : Machine} (h : PmmOk s) {n : Nat} (hn : 1 ≤ n)
    (hrun : RunFree s n) :
    ∃ f, (pmmAllocateZero s n).1 = f * PAGE_SIZE ∧
      TakesFrames s (pmmAllocateZero s n).2 f n := by
  obtain ⟨hsize, f, hf, hall⟩ := hrun
  have hcov := h.covers
  have hhigh := h.high
  have hlast := (hall (n - 1) (by omega)).1
  have hbelow : f + n ≤ s.highestPage / PAGE_SIZE := by omega
  have hbytes : f * PAGE_SIZE + n * PAGE_SIZE ≤ 2 ^ 52 := by
    simp only [PAGE_SIZE] at hbelow ⊢
    omega
  have hwas : ∀ k, f ≤ k → k < f + n → pageUsed s k = false := by
    intro k h1 h2
    have := (hall (k - f) (by omega)).2
    rwa [Nat.add_sub_cancel' h1] at this
  have halloc : pmmAllocate s n = (f * PAGE_SIZE, setPages s (f * PAGE_SIZE) n) := by
    rw [pmmAllocate_eq s hn, if_neg (by omega), hf]
  have hdiv : f * PAGE_SIZE / PAGE_SIZE = f := Nat.mul_div_cancel f (by decide)
  have hlen : n * PAGE_SIZE % 2 ^ 64 = n * PAGE_SIZE := Nat.mod_eq_of_lt (by omega)
  -- the bitmap does not lie in the frames that are zeroed
  have hout : ∀ a, InBitmap s a → ¬ (f ≤ a / PAGE_SIZE ∧ a / PAGE_SIZE < f + n) := by
    rintro a ha ⟨h1, h2⟩
    have hused := (h.stored a ha).2
    rw [hwas _ h1 h2] at hused
    cases hused
  have hmem : (pmmAllocateZero s n).2.mem
      = memset (setPages s (f * PAGE_SIZE) n).mem (f * PAGE_SIZE) 0#8 (n * PAGE_SIZE) := by
    simp only [pmmAllocateZero, halloc, hlen]
  have hbm : (pmmAllocateZero s n).2.bitmap = s.bitmap := by
    simp only [pmmAllocateZero, halloc, setPages_bitmap]
  refine ⟨f, by simp only [pmmAllocateZero, halloc], hbelow, hwas,
    fun k hk => firstFree_lowest hf hk, hbm, ?_, ?_, ?_, ?_⟩
  · simp only [pmmAllocateZero, halloc, setPages_highestPage]
  · intro k hk
    have hset := pageUsed_setPages s (f * PAGE_SIZE) n k (by omega)
    rw [hdiv] at hset
    rw [← hset]
    refine pageUsed_congr (by rw [hbm, setPages_bitmap]) (fun a ha => ?_) (by rwa [setPages_bitmap])
    have ha' : InBitmap s a := by simpa only [InBitmap, setPages_bitmap] using ha
    have := (page_mem_iff a f n).not.mp (hout a ha')
    rw [hmem, memset_agree _ _ _ _ (by omega)]
  · intro a ha
    rw [hmem, memset_apply, if_pos ((page_mem_iff a f n).mp ha)]
  · intro a ha hna
    have hframe := (page_mem_iff a f n).not.mp ha
    rw [hmem, memset_agree _ _ _ _ (by omega), setPages_mem (fun i hi => ?_) hna]
    rw [page_of_range hi (by omega), hdiv]
    omega

/-- A request for no page changes nothing. -/
theorem pmmAllocateZero_zero (s : Machine) : pmmAllocateZero s 0 = (0, s) := by
  have hscan : ∀ left, allocateScan s 0 left = (0, s) := by
    intro left
    induction left with
    | zero => rfl
    | succ left ih => simp [allocateScan, allocateRun, ih]
  simp [pmmAllocateZero, pmmAllocate, hscan, memset]

/-- A single frame is there as long as the pool is not empty. -/
theorem runFree_one {s : Machine} (h : PmmOk s) (hfree : 1 ≤ freeCount s) : RunFree s 1 := by
  obtain ⟨f, hf⟩ := exists_firstFree hfree
  obtain ⟨hlt, hbit⟩ := firstFree_spec hf
  have hcov := h.covers
  refine ⟨by omega, f, hf, fun j hj => ?_⟩
  obtain rfl : j = 0 := by omega
  exact ⟨hlt, hbit⟩

/-- A page that is marked anew is one of those whose bits were set. -/
theorem mem_of_newly_marked {s s' : Machine} {f n k : Nat} (hmap : s'.bitmap = s.bitmap)
    (hbits : ∀ k < 8 * s.bitmap.size,
      pageUsed s' k = (pageUsed s k || decide (f ≤ k ∧ k < f + n)))
    (hn : ¬ MarkedUsed s k) (hk : MarkedUsed s' k) : f ≤ k ∧ k < f + n := by
  have hk8 : k < 8 * s.bitmap.size := by rw [← hmap]; exact hk.1
  have hbit := hk.2
  rw [hbits k hk8, Bool.or_eq_true, decide_eq_true_eq] at hbit
  rcases hbit with hold | hnew
  · exact absurd ⟨hk8, hold⟩ hn
  · exact hnew

namespace TakesFrames

variable {s s' : Machine} {f n : Nat}

theorem marked (h : TakesFrames s s' f n) {k : Nat} (hk : MarkedUsed s k) : MarkedUsed s' k := by
  refine ⟨by rw [h.bitmap]; exact hk.1, ?_⟩
  rw [h.bits k hk.1, hk.2, Bool.true_or]

/-- The pages taken lie in the physical address space. -/
theorem end_le (h : TakesFrames s s' f n) (hpmm : PmmOk s) : (f + n) * PAGE_SIZE ≤ 2 ^ 52 := by
  have h1 := h.below
  have h2 := hpmm.high
  simp only [PAGE_SIZE] at h1 ⊢
  omega

/-- The pages taken are marked afterwards. -/
theorem taken (h : TakesFrames s s' f n) (hpmm : PmmOk s) {k : Nat} (h1 : f ≤ k)
    (h2 : k < f + n) : MarkedUsed s' k := by
  have hk : k < 8 * s.bitmap.size :=
    Nat.lt_of_lt_of_le h2 (h.below.trans hpmm.covers)
  refine ⟨by rw [h.bitmap]; exact hk, ?_⟩
  rw [h.bits k hk, decide_eq_true ⟨h1, h2⟩, Bool.or_true]

/-- The pages taken were not marked before. -/
theorem not_marked (h : TakesFrames s s' f n) {k : Nat} (h1 : f ≤ k) (h2 : k < f + n) :
    ¬ MarkedUsed s k := by
  intro hk
  have hused := hk.2
  rw [h.was_free k h1 h2] at hused
  cases hused

theorem below_of_marked (h : TakesFrames s s' f n) {k : Nat}
    (hn : ¬ MarkedUsed s k) (hk : MarkedUsed s' k) : k < s.highestPage / PAGE_SIZE := by
  have hnew := mem_of_newly_marked h.bitmap h.bits hn hk
  have := h.below
  omega

/-- The bitmap does not lie in the pages taken. -/
theorem apart (h : TakesFrames s s' f n) (hpmm : PmmOk s) {a : Nat} (h1 : f ≤ a / PAGE_SIZE)
    (h2 : a / PAGE_SIZE < f + n) : ¬ InBitmap s a :=
  fun ha => h.not_marked h1 h2 (hpmm.stored a ha)

theorem pmmOk (h : TakesFrames s s' f n) (hpmm : PmmOk s) : PmmOk s' :=
  hpmm.kept h.high h.bitmap h.marked

end TakesFrames

/-- Marking `n` free pages takes `n` frames from the pool. -/
theorem freeCount_mark {s s' : Machine} (hh : s'.highestPage = s.highestPage) {f n : Nat}
    (hf : f + n ≤ s.highestPage / PAGE_SIZE)
    (hfree : ∀ k, f ≤ k → k < f + n → pageUsed s k = false)
    (hbits : ∀ k < s.highestPage / PAGE_SIZE,
      pageUsed s' k = (pageUsed s k || decide (f ≤ k ∧ k < f + n))) :
    freeCount s' + n = freeCount s := by
  have hdiff : (Finset.range (s'.highestPage / PAGE_SIZE)).filter (fun k => pageUsed s' k = false)
      = ((Finset.range (s.highestPage / PAGE_SIZE)).filter fun k => pageUsed s k = false)
        \ Finset.Ico f (f + n) := by
    ext k
    simp only [hh, Finset.mem_filter, Finset.mem_range, Finset.mem_sdiff, Finset.mem_Ico]
    constructor
    · rintro ⟨hk, hb⟩
      rw [hbits k hk, Bool.or_eq_false_iff, decide_eq_false_iff_not] at hb
      exact ⟨⟨hk, hb.1⟩, hb.2⟩
    · rintro ⟨⟨hk, hb⟩, hne⟩
      exact ⟨hk, by rw [hbits k hk, hb, decide_eq_false hne]; rfl⟩
  have hsub : Finset.Ico f (f + n)
      ⊆ (Finset.range (s.highestPage / PAGE_SIZE)).filter fun k => pageUsed s k = false := by
    intro k hk
    obtain ⟨h1, h2⟩ := Finset.mem_Ico.mp hk
    exact Finset.mem_filter.mpr ⟨Finset.mem_range.mpr (by omega), hfree k h1 h2⟩
  have hcard := Finset.card_sdiff_add_card_eq_card hsub
  rw [← hdiff, Nat.card_Ico, Nat.add_sub_cancel_left] at hcard
  exact hcard

theorem TakesFrames.freeCount {s s' : Machine} {f n : Nat} (h : TakesFrames s s' f n)
    (hpmm : PmmOk s) : freeCount s' + n = freeCount s :=
  freeCount_mark h.high h.below h.was_free fun k hk =>
    h.bits k (Nat.lt_of_lt_of_le hk hpmm.covers)

/-- Taking the lowest free pages keeps the free pages an upper segment. -/
theorem Upward.mark {s s' : Machine} (hup : Upward s) (hh : s'.highestPage = s.highestPage)
    {f n : Nat} (hlow : ∀ k < f, pageUsed s k = true)
    (hbits : ∀ k < s.highestPage / PAGE_SIZE,
      pageUsed s' k = (pageUsed s k || decide (f ≤ k ∧ k < f + n))) : Upward s' := by
  intro j k hjk hk hj
  rw [hh] at hk
  rw [hbits j (by omega), Bool.or_eq_false_iff, decide_eq_false_iff_not] at hj
  have hfj : f ≤ j := by
    by_contra hlt
    rw [hlow j (by omega)] at hj
    cases hj.1
  rw [hbits k hk, hup j k hjk hk hj.1, decide_eq_false (by omega)]
  rfl

/-- The pool depends on which pages are marked only. -/
theorem pool_congr {s s' : Machine} (hpmm : PmmOk s) (hb : s'.bitmap = s.bitmap)
    (hh : s'.highestPage = s.highestPage) (hused : ∀ k, MarkedUsed s' k ↔ MarkedUsed s k) :
    freeCount s' = freeCount s ∧ (Upward s → Upward s') := by
  have hbits : ∀ k < s.highestPage / PAGE_SIZE, pageUsed s' k = pageUsed s k := by
    intro k hk
    have hlt := Nat.lt_of_lt_of_le hk hpmm.covers
    have hiff := hused k
    unfold MarkedUsed at hiff
    rw [hb, and_iff_right hlt, and_iff_right hlt] at hiff
    exact Bool.eq_iff_iff.mpr hiff
  constructor
  · unfold freeCount
    rw [hh]
    refine congrArg _ (Finset.filter_congr fun k hk => ?_)
    rw [hbits k (Finset.mem_range.mp hk)]
  · intro hup j k hjk hk hj
    rw [hh] at hk
    rw [hbits j (by omega)] at hj
    rw [hbits k hk]
    exact hup j k hjk hk hj

/-- While the free pages form an upper segment, a request that fits is met by
free pages. -/
theorem Upward.runFree {s : Machine} (hup : Upward s) {n : Nat} (hn : 1 ≤ n)
    (hsize : n ≤ s.bitmap.size) (hfree : n ≤ freeCount s) : RunFree s n := by
  obtain ⟨f, hf⟩ := exists_firstFree (hn.trans hfree)
  obtain ⟨hlt, hbit⟩ := firstFree_spec hf
  have hsub : ((Finset.range (s.highestPage / PAGE_SIZE)).filter fun k => pageUsed s k = false)
      ⊆ Finset.Ico f (s.highestPage / PAGE_SIZE) := by
    intro k hk
    obtain ⟨h1, h2⟩ := Finset.mem_filter.mp hk
    refine Finset.mem_Ico.mpr ⟨?_, Finset.mem_range.mp h1⟩
    by_contra hkf
    rw [firstFree_lowest hf (by omega)] at h2
    cases h2
  have hcard : freeCount s ≤ s.highestPage / PAGE_SIZE - f := by
    have := Finset.card_le_card hsub
    rwa [Nat.card_Ico] at this
  refine ⟨hsize, f, hf, fun j hj => ⟨by omega, hup f (f + j) (by omega) (by omega) hbit⟩⟩

/-- If the pages in use are those below `n`, the others are free. -/
theorem pool_of_below {s : Machine} {n : Nat}
    (h : ∀ k < s.highestPage / PAGE_SIZE, pageUsed s k = decide (k < n)) :
    Upward s ∧ freeCount s = s.highestPage / PAGE_SIZE - n := by
  constructor
  · intro j k hjk hk hj
    rw [h j (by omega), decide_eq_false_iff_not] at hj
    rw [h k hk, decide_eq_false_iff_not]
    omega
  · have hfree : (Finset.range (s.highestPage / PAGE_SIZE)).filter (fun k => pageUsed s k = false)
        = Finset.Ico n (s.highestPage / PAGE_SIZE) := by
      ext k
      rw [Finset.mem_filter, Finset.mem_range, Finset.mem_Ico, and_comm]
      refine and_congr_left fun hk => ?_
      rw [h k hk, decide_eq_false_iff_not, Nat.not_lt]
    rw [freeCount, hfree, Nat.card_Ico]

/-! ### Giving frames back -/

/-- `pmm_free` writes to the bitmap only. -/
theorem pmmFree_mem {s : Machine} {addr n a : Nat}
    (hin : ∀ i < n, (addr + i * PAGE_SIZE) % 2 ^ 64 / PAGE_SIZE < 8 * s.bitmap.size)
    (ha : ¬ InBitmap s a) : (pmmFree s addr n).mem a = s.mem a := by
  induction n with
  | zero => rfl
  | succ n ih =>
      have hne : a ≠ (pmmFree s addr n).bitmap.data
          + (addr + n * PAGE_SIZE) % 2 ^ 64 / PAGE_SIZE / 8 := by
        rintro rfl
        rw [pmmFree_bitmap] at ha
        exact ha (inBitmap_of_lt (hin n (Nat.lt_succ_self n)))
      show put _ _ _ a = s.mem a
      rw [put_ne hne, ih fun i hi => hin i (Nat.lt_succ_of_lt hi)]

/-- What `pmm_free` does to pages `f` to `f + n - 1`: their bits are cleared,
and nothing else changes. -/
structure GivesFrames (s s' : Machine) (f n : Nat) : Prop where
  bitmap : s'.bitmap = s.bitmap
  high : s'.highestPage = s.highestPage
  marked : ∀ k, ¬ (f ≤ k ∧ k < f + n) → MarkedUsed s k → MarkedUsed s' k
  kept : ∀ a, ¬ InBitmap s a → s'.mem a = s.mem a

/-- Releasing pages that are marked. -/
theorem pmmFree_spec {s : Machine} {f n : Nat}
    (hused : ∀ k, f ≤ k → k < f + n → MarkedUsed s k)
    (hw : f * PAGE_SIZE + n * PAGE_SIZE ≤ 2 ^ 64) :
    GivesFrames s (pmmFree s (f * PAGE_SIZE) n) f n := by
  have hdiv : f * PAGE_SIZE / PAGE_SIZE = f := Nat.mul_div_cancel f (by decide)
  refine ⟨pmmFree_bitmap _ _ _, pmmFree_highestPage _ _ _, fun k hk hm => ?_, fun a ha => ?_⟩
  · refine ⟨by rw [pmmFree_bitmap]; exact hm.1, ?_⟩
    rw [pageUsed_pmmFree _ _ _ _ hw, hdiv, hm.2, decide_eq_false hk]
    rfl
  · refine pmmFree_mem (fun i hi => ?_) ha
    rw [page_of_range hi hw, hdiv]
    exact (hused (f + i) (by omega) (by omega)).1

/-- Releasing pages that do not hold the bitmap. -/
theorem GivesFrames.pmmOk {s s' : Machine} {f n : Nat} (h : GivesFrames s s' f n) (hpmm : PmmOk s)
    (hout : ∀ a, InBitmap s a → ¬ (f ≤ a / PAGE_SIZE ∧ a / PAGE_SIZE < f + n)) : PmmOk s' where
  high := by rw [h.high]; exact hpmm.high
  covers := by rw [h.high, h.bitmap]; exact hpmm.covers
  stored := by
    intro a ha
    have ha' : InBitmap s a := by simpa only [InBitmap, h.bitmap] using ha
    exact h.marked _ (hout a ha') (hpmm.stored a ha')

/-! ### After `pmm_initialize` -/

/-- The place of the bitmap: the start of a usable entry, apart from every
usable entry of the map that is left. -/
theorem carveBitmap_apart {size data : Nat} :
    ∀ {map : List MmapEntry} (_ : MemoryMapOk map), (carveBitmap size map).1 = some data →
      (∃ e ∈ map, e.type = .usable ∧ e.base = data ∧ size ≤ e.length) ∧
      ∀ e' ∈ (carveBitmap size map).2, e'.type = .usable →
        e'.base + e'.length ≤ data ∨ data + size ≤ e'.base
  | [], _, h => by simp [carveBitmap] at h
  | e :: es, hmap, h => by
    obtain ⟨hhead, -⟩ := List.pairwise_cons.mp hmap.disjoint
    rw [carveBitmap] at h ⊢
    split at h
    · rename_i hfit
      rw [if_pos hfit]
      obtain rfl : e.base = data := by simpa using h
      refine ⟨⟨e, by simp, hfit.1, rfl, hfit.2⟩, fun e' he' hu => ?_⟩
      rcases List.mem_cons.mp he' with rfl | hmem
      · -- what is left of the entry starts behind the bitmap
        have hw := hmap.no_wrap e (by simp)
        have hlen := hfit.2
        refine .inr (Nat.le_of_eq (Nat.mod_eq_of_lt (by omega)).symm)
      · have hlen := hfit.2
        rcases hhead e' hmem hfit.1 hu with hle | hle
        · exact .inr (by omega)
        · exact .inl hle
    · rename_i hfit
      rw [if_neg hfit]
      obtain ⟨⟨x, hx, hxu, rfl, hlen⟩, hrest⟩ := carveBitmap_apart hmap.tail h
      refine ⟨⟨x, by simp [hx], hxu, rfl, hlen⟩, fun e' he' hu => ?_⟩
      -- the bitmap is in a later entry, apart from this one
      rcases List.mem_cons.mp he' with rfl | hmem
      · rcases hhead x hx hu hxu with hle | hle
        · exact .inl hle
        · exact .inr (by omega)
      · exact hrest e' hmem hu

theorem carveBitmap_some {size : Nat} {map : List MmapEntry}
    (h : ∃ e ∈ map, e.type = .usable ∧ e.length ≥ size) :
    ∃ data, (carveBitmap size map).1 = some data := by
  induction map with
  | nil => simp at h
  | cons e es ih =>
      rw [carveBitmap]
      split
      · exact ⟨_, rfl⟩
      · rename_i hfit
        obtain ⟨x, hx, hu⟩ := h
        rcases List.mem_cons.mp hx with rfl | hmem
        · exact absurd hu hfit
        · exact ih ⟨x, hmem, hu⟩

/-- A counted entry ends below `highest_page`. -/
theorem le_scanHighest {map : List MmapEntry} {e : MmapEntry} (he : e ∈ map)
    (hc : e.counted = true) (hw : e.base + e.length < 2 ^ 64) (h : Nat) :
    e.base + e.length ≤ scanHighest map h := by
  -- the maximum only grows
  have hmono : ∀ (l : List MmapEntry) (h : Nat), h ≤ scanHighest l h := by
    intro l
    induction l with
    | nil => exact fun h => Nat.le_refl h
    | cons x l ih =>
        intro h
        rw [scanHighest, List.foldl_cons]
        refine Nat.le_trans ?_ (ih _)
        dsimp only
        split
        · split
          · exact Nat.le_of_lt ‹_›
          · exact Nat.le_refl h
        · exact Nat.le_refl h
  induction map generalizing h with
  | nil => simp at he
  | cons x l ih =>
      rw [scanHighest, List.foldl_cons]
      rcases List.mem_cons.mp he with rfl | hmem
      · refine Nat.le_trans ?_ (hmono l _)
        rw [if_pos hc, Nat.mod_eq_of_lt hw]
        dsimp only
        split <;> omega
      · exact ih hmem _

/-- **`pmm_initialize` leaves a working allocator**: when the bitmap finds a
place and covers memory, it is stored in frames that stay marked. -/
theorem pmmOk_pmmInitialize {mem : Mem} {map map' : List MmapEntry} {start : Machine}
    (hmap : MemoryMapOk map) (hfit : BitmapFits map) (hphys : scanHighest map 0 ≤ 2 ^ 52)
    (h : pmmInitialize mem map = some (start, map')) : PmmOk start := by
  obtain ⟨hhigh, hbm, s, hsb, hsm, hstart⟩ := pmmInitialize_eq h
  have hal := bitmapSize_aligned (scanHighest map 0)
  have hsub := carveBitmap_sub hal hmap
  have hcov := hfit.covers
  obtain ⟨data, hdata⟩ := carveBitmap_some hfit.placed
  obtain ⟨⟨e, he, heu, rfl, hlen⟩, hapart⟩ := carveBitmap_apart hmap hdata
  have hcounted : e.counted = true := by simp [MmapEntry.counted, heu]
  have htop := le_scanHighest he hcounted (hmap.no_wrap e he) 0
  have hbase := (hmap.aligned e he heu).1
  rw [hdata, Option.getD_some] at hbm
  generalize hsz : bitmapSize (scanHighest map 0) = size at *
  generalize scanHighest map 0 = high at *
  refine ⟨by rw [hhigh]; exact hphys, by rw [hhigh, hbm]; exact hcov, fun a ha => ?_⟩
  obtain ⟨h1, h2⟩ : e.base ≤ a ∧ a < e.base + size := by
    simpa only [InBitmap, hbm] using ha
  have hk : a / PAGE_SIZE < 8 * size := by
    refine Nat.lt_of_lt_of_le ?_ hcov
    simp only [PAGE_SIZE] at hbase hal ⊢
    omega
  refine ⟨by rw [hbm]; exact hk, ?_⟩
  by_contra hclear
  rw [Bool.not_eq_true, hstart] at hclear
  have hw : ∀ e' ∈ (carveBitmap size map).2, e'.type = .usable → e'.base + e'.length < 2 ^ 64 := by
    intro e' he' hu
    obtain ⟨_, _, _, _, _, _, hlt⟩ := hsub e' he' hu
    exact hlt
  rcases pageUsed_releaseUsable s hw hclear with hbit | ⟨e', he', hu, hlo, hhi⟩
  · -- the bitmap was filled with ones
    have hone := bitTest_memset_ones mem e.base size hk
    rw [pageUsed, hsm, hsb, hbm, hone] at hbit
    cases hbit
  · -- a released entry would have to overlap the bitmap
    obtain ⟨_, _, _, _, _, hal', -⟩ := hsub e' he' hu
    have := hapart e' he' hu
    simp only [PAGE_SIZE] at hal' hlo hhi
    omega

end BestOS
