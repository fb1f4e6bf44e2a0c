/-
BestOS/ElfSegment.lean

Loading one segment of a program.

A `PT_LOAD` segment gets frames of its own, and its pages are mapped to them, from
the page its first byte is in to the page its last byte is in.  `SegmentSized` is
what the arithmetic of `elf_load_program` needs of it, and `loadSegment_placed` says
everything the branch does: the bytes of the segment in its frames and zero beside
them, its pages mapped, and nothing that was in use disturbed.  At canonical addresses
(`SegmentFits`) no page of a segment comes twice, which gives `loadSegment_spec`.

`owner` names, for a page, the last segment loaded that covers it.
-/
import BestOS.ElfConfined
import BestOS.AddressSpaces

namespace BestOS

open ByteMemory RadixForest

/-! ### The file -/

/-- The ELF header in the file. -/
def fileHeader (c : ElfCall) (m : Mem) : ElfHeader := readElfHeader m c.elfBase

/-- Where program header `i` is. -/
def headerAddress (c : ElfCall) (m : Mem) (i : Nat) : Nat :=
  c.elfBase + (fileHeader c m).programHeaderTableFileOffset
    + i * (fileHeader c m).programHeaderTableEntrySize

/-- The program headers of the file. -/
def programHeaders (c : ElfCall) (m : Mem) : List ProgramHeader :=
  (List.range (fileHeader c m).programHeaderTableEntryCount).map fun i =>
    readProgramHeader m (headerAddress c m i)

/-- The segments of the file. -/
def segments (c : ElfCall) (m : Mem) : List ProgramHeader :=
  (programHeaders c m).filter fun p => p.type = ELF_PROGRAM_HEADER_LOAD

/-- The segments that are loaded: without `ld_path` the loop ends at an
interpreter. -/
def loadedSegments (c : ElfCall) (m : Mem) : List ProgramHeader :=
  ((programHeaders c m).takeWhile fun p => c.wantsLd ∨ p.type ≠ ELF_PROGRAM_HEADER_INTERPRET).filter
    fun p => p.type = ELF_PROGRAM_HEADER_LOAD

/-- The byte that a segment is to have at offset `o`. -/
def imageByte (c : ElfCall) (m : Mem) (p : ProgramHeader) (o : Nat) : BitVec 8 :=
  if o < p.fileSize then m (c.elfBase + p.fileOffset + o) else 0

/-- The byte at `x` in the frames of a segment, which begin with its first page. -/
def frameByte (c : ElfCall) (m : Mem) (p : ProgramHeader) (x : Nat) : BitVec 8 :=
  if p.misalign ≤ x then imageByte c m p (x - p.misalign) else 0

/-- The address ranges of two segments have no byte in common. -/
def ProgramHeader.Apart (p q : ProgramHeader) : Prop :=
  ∀ va, va ∈ (⟨p.virtualAddress, p.memorySize⟩ : Range) →
    va ∉ (⟨q.virtualAddress, q.memorySize⟩ : Range)

instance : Std.Symm ProgramHeader.Apart := ⟨fun _ _ h va hq hp => h va hp hq⟩

/-! ### Pages -/

/-- The first page of a segment. -/
def firstPage (c : ElfCall) (p : ProgramHeader) : Nat := (c.base + p.virtualAddress) / PAGE_SIZE

/-- The page is one that loading the segment maps. -/
def Covers (c : ElfCall) (p : ProgramHeader) (page : Nat) : Prop :=
  firstPage c p ≤ page ∧ page < firstPage c p + p.pageCount

instance (c : ElfCall) (p : ProgramHeader) (page : Nat) : Decidable (Covers c p page) :=
  inferInstanceAs (Decidable (_ ∧ _))

/-- The last of the segments that covers the page. -/
def owner (c : ElfCall) (segs : List ProgramHeader) (page : Nat) : Option ProgramHeader :=
  segs.reverse.find? fun p => Covers c p page

theorem owner_append (c : ElfCall) (segs : List ProgramHeader) (p : ProgramHeader) (page : Nat) :
    owner c (segs ++ [p]) page = if Covers c p page then some p else owner c segs page := by
  unfold owner
  rw [List.reverse_append, List.reverse_singleton, List.singleton_append, List.find?_cons]
  by_cases h : Covers c p page <;> simp [h]

/-- The addresses that can be read: the processor refuses all others. -/
def Canonical (va : Nat) : Prop := va < 2 ^ 47 ∨ 2 ^ 64 - 2 ^ 47 ≤ va ∧ va < 2 ^ 64

/-- A segment of canonical addresses, at a page-aligned base, with no more bytes in the
file than in memory. -/
structure SegmentFits (c : ElfCall) (p : ProgramHeader) : Prop where
  base : c.base % PAGE_SIZE = 0
  size : p.fileSize ≤ p.memorySize
  canonical : c.base + p.virtualAddress + p.memorySize ≤ 2 ^ 47 ∨
    2 ^ 64 - 2 ^ 47 ≤ c.base + p.virtualAddress ∧
      c.base + p.virtualAddress + p.memorySize ≤ 2 ^ 64

theorem vaPage_eq (va : Nat) : vaPage va = va / PAGE_SIZE % 2 ^ 36 := by
  unfold vaPage
  simp only [PAGE_SIZE]
  omega

theorem misalign_eq (p : ProgramHeader) : p.misalign = p.virtualAddress % PAGE_SIZE :=
  Nat.and_two_pow_sub_one_eq_mod _ 12

/-- What the loading itself relies on: a page-aligned base, no more bytes in the file than in
memory, and a size that `DIV_ROUNDUP` does not wrap around.  The address is arbitrary. -/
structure SegmentSized (c : ElfCall) (p : ProgramHeader) : Prop where
  base : c.base % PAGE_SIZE = 0
  size : p.fileSize ≤ p.memorySize
  nowrap : p.misalign + p.memorySize + 4095 < 2 ^ 64

namespace SegmentSized

variable {c : ElfCall} {p : ProgramHeader}

/-- The first byte of the segment, counted from its first page. -/
theorem start (h : SegmentSized c p) :
    c.base + p.virtualAddress = firstPage c p * PAGE_SIZE + p.misalign := by
  have hb := h.base
  rw [misalign_eq]
  unfold firstPage
  simp only [PAGE_SIZE] at hb ⊢
  omega

theorem pageCount_eq (h : SegmentSized c p) :
    p.pageCount = (p.misalign + p.memorySize + 4095) / 4096 := by
  have hwrap := h.nowrap
  unfold ProgramHeader.pageCount
  simp only [PAGE_SIZE]
  rw [Nat.mod_eq_of_lt (by omega)]

/-- The segment lies in its pages. -/
theorem room (h : SegmentSized c p) : p.misalign + p.memorySize ≤ p.pageCount * PAGE_SIZE := by
  rw [h.pageCount_eq]
  simp only [PAGE_SIZE]
  omega

theorem tail_eq (h : SegmentSized c p) : p.tail = p.memorySize - p.fileSize := by
  have hsize := h.size
  have hwrap := h.nowrap
  unfold ProgramHeader.tail
  omega

/-- The page that round `j` of the mapping loop is about. -/
theorem vaPage_round (h : SegmentSized c p) (j : Nat) :
    vaPage ((c.base + j * PAGE_SIZE + p.virtualAddress) % 2 ^ 64)
      = (firstPage c p + j) % 2 ^ 36 := by
  have hstart := h.start
  have hmis := misalign_lt p
  have hva : c.base + j * PAGE_SIZE + p.virtualAddress
      = (firstPage c p + j) * PAGE_SIZE + p.misalign := by
    simp only [PAGE_SIZE] at hstart ⊢
    omega
  rw [hva]
  unfold vaPage
  simp only [PAGE_SIZE] at hmis ⊢
  omega

end SegmentSized

namespace SegmentFits

variable {c : ElfCall} {p : ProgramHeader}

/-- The size in memory. -/
theorem memorySize_le (h : SegmentFits c p) : p.memorySize ≤ 2 ^ 47 := by
  have := h.canonical
  omega

theorem sized (h : SegmentFits c p) : SegmentSized c p := by
  refine ⟨h.base, h.size, ?_⟩
  have hmis := misalign_lt p
  have hle := h.memorySize_le
  simp only [PAGE_SIZE] at hmis
  omega

theorem start (h : SegmentFits c p) :
    c.base + p.virtualAddress = firstPage c p * PAGE_SIZE + p.misalign := h.sized.start

theorem room (h : SegmentFits c p) : p.misalign + p.memorySize ≤ p.pageCount * PAGE_SIZE :=
  h.sized.room

/-- The pages of the segment are canonical. -/
theorem pages (h : SegmentFits c p) :
    firstPage c p + p.pageCount ≤ 2 ^ 35 ∨
      2 ^ 52 - 2 ^ 35 ≤ firstPage c p ∧ firstPage c p + p.pageCount ≤ 2 ^ 52 := by
  have hstart := h.start
  have hmis := misalign_lt p
  have hfit := h.canonical
  rw [h.sized.pageCount_eq]
  simp only [PAGE_SIZE] at hstart hmis ⊢
  omega

/-- No other canonical page is the same to the page map. -/
theorem page_eq (h : SegmentFits c p) {j va : Nat} (hj : j < p.pageCount) (hva : Canonical va)
    (heq : vaPage va = (firstPage c p + j) % 2 ^ 36) : va / PAGE_SIZE = firstPage c p + j := by
  have hpages := h.pages
  unfold Canonical at hva
  unfold vaPage at heq
  simp only [PAGE_SIZE] at heq ⊢
  omega

/-- Every byte of the segment has a canonical address. -/
theorem byte (h : SegmentFits c p) {o : Nat} (ho : o < p.memorySize) :
    Canonical (c.base + p.virtualAddress + o) := by
  have := h.canonical
  unfold Canonical
  omega

end SegmentFits

/-- What the call assumes of the frame allocator when it loads a segment: the request
is served with fresh frames, contiguous and zeroed, and there is a frame for every
table that is missing. -/
def Served (c : ElfCall) (s : Machine) (p : ProgramHeader) : Prop :=
  p.pageCount = 0 ∨ ∃ f, (pmmAllocateZero s p.pageCount).1 = f * PAGE_SIZE ∧
    TakesFrames s (pmmAllocateZero s p.pageCount).2 f p.pageCount ∧
    (missingTables (pmmAllocateZero s p.pageCount).2.mem c.pagemap
      ((segmentPages c p (f * PAGE_SIZE)).map Prod.snd)).card
      ≤ freeCount (pmmAllocateZero s p.pageCount).2

/-! ### One segment -/

/-- At most `n` frames less in the pool, and the lowest ones taken. -/
structure Drains (s s' : Machine) (n : Nat) : Prop where
  bitmap : s'.bitmap = s.bitmap
  free : freeCount s ≤ freeCount s' + n
  upward : Upward s → Upward s'

theorem Drains.trans {s₁ s₂ s₃ : Machine} {n k : Nat} (h : Drains s₁ s₂ n) (h' : Drains s₂ s₃ k) :
    Drains s₁ s₃ (n + k) where
  bitmap := h'.bitmap.trans h.bitmap
  free := by
    have h1 := h.free
    have h2 := h'.free
    omega
  upward := fun hup => h'.upward (h.upward hup)

theorem Drains.store {s : Machine} (h : PmmOk s) {m : Mem}
    (hused : ∀ k, MarkedUsed { s with mem := m } k ↔ MarkedUsed s k) :
    Drains s { s with mem := m } 0 := by
  have hpool : freeCount { s with mem := m } = freeCount s ∧
      (Upward s → Upward { s with mem := m }) := pool_congr h rfl rfl hused
  exact ⟨rfl, Nat.le_of_eq hpool.1.symm, hpool.2⟩

/-- The segment has the frames from `f` on, with these contents.  A page gets the frame of the
last round that is about it, as the page map sees it. -/
structure SegmentPlaced (c : ElfCall) (s s' : Machine) (p : ProgramHeader) (f : Nat)
    (contents : Nat → BitVec 8) : Prop where
  address : (pmmAllocateZero s p.pageCount).1 = f * PAGE_SIZE
  maps : PageMaps s' {c.pagemap} fun _ => False
  pool : Drains s s' (4 * p.pageCount)
  used : ∀ k, MarkedUsed s k → MarkedUsed s' k
  held : ∀ k, Held s {c.pagemap} k → Held s' {c.pagemap} k
  data : ∀ a, Held s {c.pagemap} (a / PAGE_SIZE) → s'.mem a = s.mem a
  fresh : ∀ j < p.pageCount, ¬ MarkedUsed s (f + j) ∧ Held s' {c.pagemap} (f + j)
  bytes : ∀ x < p.pageCount * PAGE_SIZE, s'.mem (f * PAGE_SIZE + x) = contents x
  last : ∀ va, ∀ j < p.pageCount, vaPage va = (firstPage c p + j) % 2 ^ 36 →
    (∀ k < p.pageCount, j < k → vaPage va ≠ (firstPage c p + k) % 2 ^ 36) →
    translate s'.mem c.pagemap va = some ((f + j) * PAGE_SIZE)
  others : ∀ va, (∀ j < p.pageCount, vaPage va ≠ (firstPage c p + j) % 2 ^ 36) →
    translate s'.mem c.pagemap va = translate s.mem c.pagemap va
  written : ∀ a, ¬ (f ≤ a / PAGE_SIZE ∧ a / PAGE_SIZE < f + p.pageCount) → ¬ InBitmap s a →
    ¬ Table (child s'.mem) {c.pagemap} 3 (a / PAGE_SIZE * PAGE_SIZE) → s'.mem a = s.mem a

/-- The same for a segment whose pages are canonical, and so different. -/
structure SegmentLoaded (c : ElfCall) (s s' : Machine) (p : ProgramHeader) (f : Nat) : Prop where
  maps : PageMaps s' {c.pagemap} fun _ => False
  pool : Drains s s' (4 * p.pageCount)
  used : ∀ k, MarkedUsed s k → MarkedUsed s' k
  held : ∀ k, Held s {c.pagemap} k → Held s' {c.pagemap} k
  data : ∀ a, Held s {c.pagemap} (a / PAGE_SIZE) → s'.mem a = s.mem a
  fresh : ∀ j < p.pageCount, ¬ MarkedUsed s (f + j) ∧ Held s' {c.pagemap} (f + j)
  bytes : ∀ x < p.pageCount * PAGE_SIZE, s'.mem (f * PAGE_SIZE + x) = frameByte c s.mem p x
  inside : ∀ va, Canonical va → Covers c p (va / PAGE_SIZE) →
    translate s'.mem c.pagemap va = some ((f + (va / PAGE_SIZE - firstPage c p)) * PAGE_SIZE)
  outside : ∀ va, Canonical va → ¬ Covers c p (va / PAGE_SIZE) →
    translate s'.mem c.pagemap va = translate s.mem c.pagemap va

/-- Three tables for each page are enough. -/
theorem card_segmentTables_le (c : ElfCall) (p : ProgramHeader) (m : Mem) (newAddr : Nat) :
    (missingTables m c.pagemap ((segmentPages c p newAddr).map Prod.snd)).card
      ≤ 3 * p.pageCount := by
  refine (card_missingTables_le _ _ _).trans
    ((card_tablesFor_le (G := ((segmentPages c p newAddr).map fun q => q.2 / 2 ^ 21).toFinset)
      fun va hva => ?_).trans (Nat.mul_le_mul_left 3 ?_))
  · obtain ⟨q, hq, rfl⟩ := List.mem_map.mp hva
    exact List.mem_toFinset.mpr (List.mem_map.mpr ⟨q, hq, rfl⟩)
  · refine (List.toFinset_card_le _).trans (Nat.le_of_eq ?_)
    rw [List.length_map, segmentPages, List.length_map, List.length_range]

/-- **A pool that is large enough** serves the request: a frame for each page, and three for
its tables. -/
theorem Upward.served {c : ElfCall} {s : Machine} {p : ProgramHeader} (hup : Upward s)
    (hpmm : PmmOk s) (hfree : 4 * p.pageCount ≤ freeCount s)
    (hsize : p.pageCount ≤ s.bitmap.size) : Served c s p := by
  rcases Nat.eq_zero_or_pos p.pageCount with hzero | hpos
  · exact .inl hzero
  · obtain ⟨f, hf, htake⟩ :=
      pmmAllocateZero_run hpmm hpos (hup.runFree hpos hsize (by omega))
    have htables := card_segmentTables_le c p (pmmAllocateZero s p.pageCount).2.mem (f * PAGE_SIZE)
    have hcount := htake.freeCount hpmm
    exact .inr ⟨f, hf, htake, by omega⟩

/-- The bytes that `memcpy` and `memset` leave in zeroed frames. -/
theorem frame_bytes {c : ElfCall} {p : ProgramHeader} (h : SegmentSized c p) {m m₀ : Mem}
    {new : Nat} (hzero : ∀ x < p.pageCount * PAGE_SIZE, m (new + x) = 0)
    (hfile : ∀ i < p.fileSize, m (c.elfBase + p.fileOffset + i) = m₀ (c.elfBase + p.fileOffset + i))
    (hapart : ∀ i < p.fileSize, c.elfBase + p.fileOffset + i < new ∨
      new + p.pageCount * PAGE_SIZE ≤ c.elfBase + p.fileOffset + i)
    {x : Nat} (hx : x < p.pageCount * PAGE_SIZE) :
    memset (memcpy m (new + p.misalign) (c.elfBase + p.fileOffset) p.fileSize)
      (new + p.misalign + p.fileSize) 0#8 (p.memorySize - p.fileSize) (new + x)
      = frameByte c m₀ p x := by
  have hroom := h.room
  have hsize := h.size
  rw [memset_apply]
  unfold frameByte imageByte
  by_cases hlow : p.misalign ≤ x
  · rw [if_pos hlow]
    by_cases hin : x - p.misalign < p.fileSize
    · have hbyte := hapart (x - p.misalign) hin
      rw [if_neg (by omega), if_pos hin, ← hfile _ hin,
        show new + x = new + p.misalign + (x - p.misalign) by omega]
      exact memcpy_byte _ _ _ hin (by omega)
    · rw [if_neg hin]
      split
      · rfl
      · rw [memcpy_agree _ _ _ _ (by omega), hzero x hx]
  · rw [if_neg hlow, if_neg (by omega), memcpy_agree _ _ _ _ (by omega), hzero x hx]

/-- Up to the bytes it stores, the round is the step that the running system takes for
a segment (`AddressSpaces`). -/
theorem loadSegment_elfLoadSegment {c : ElfCall} {l : Loader} {p : ProgramHeader}
    (h : (pmmAllocateZero l.machine p.pageCount).1 + p.pageCount * PAGE_SIZE ≤ 2 ^ 64) :
    ∃ m, (loadSegment c l p).machine =
      { elfLoadSegment l.machine c.pagemap c.base ⟨p.virtualAddress, p.memorySize⟩ with
        mem := m } := by
  have hpages : ∀ newAddr, newAddr + p.pageCount * PAGE_SIZE ≤ 2 ^ 64 →
      segmentPages c p newAddr =
        Segment.pages ⟨p.virtualAddress, p.memorySize⟩ c.base newAddr := by
    intro newAddr hlt
    refine List.map_congr_left fun j hj => ?_
    have hj := List.mem_range.mp hj
    rw [Nat.mod_eq_of_lt (a := j * PAGE_SIZE + newAddr)]
    simp only [PAGE_SIZE] at hlt ⊢
    omega
  rw [loadSegment_mem, hpages _ h]
  exact ⟨_, rfl⟩

/-- The round of the mapping loop that an address is left with. -/
theorem lastPage_segmentPages {c : ElfCall} {p : ProgramHeader} (h : SegmentSized c p)
    {newAddr va j : Nat} (hj : j < p.pageCount) (hva : vaPage va = (firstPage c p + j) % 2 ^ 36)
    (hlater : ∀ k < p.pageCount, j < k → vaPage va ≠ (firstPage c p + k) % 2 ^ 36) :
    lastPage (segmentPages c p newAddr) va
      = some (j * PAGE_SIZE + newAddr, (c.base + j * PAGE_SIZE + p.virtualAddress) % 2 ^ 64) := by
  obtain ⟨l₁, l₂, hsplit⟩ := List.append_of_mem (List.mem_range.mpr hj)
  have hsorted : (l₁ ++ j :: l₂).Pairwise (· < ·) := hsplit ▸ List.pairwise_lt_range
  unfold segmentPages
  rw [hsplit, List.map_append, List.map_cons]
  refine lastPage_eq_some ((h.vaPage_round j).trans hva.symm) fun q hq heq => ?_
  obtain ⟨k, hk, rfl⟩ := List.mem_map.mp hq
  have hlt : j < k := (List.pairwise_cons.mp (List.pairwise_append.mp hsorted).2.1).1 k hk
  have hmem : k ∈ List.range p.pageCount := by
    rw [hsplit]
    exact List.mem_append_right _ (List.mem_cons_of_mem _ hk)
  exact hlater k (List.mem_range.mp hmem) hlt (heq.symm.trans (h.vaPage_round k))

theorem lastPage_segmentPages_none {c : ElfCall} {p : ProgramHeader} (h : SegmentSized c p)
    {newAddr va : Nat} (hva : ∀ j < p.pageCount, vaPage va ≠ (firstPage c p + j) % 2 ^ 36) :
    lastPage (segmentPages c p newAddr) va = none := by
  refine lastPage_eq_none fun q hq heq => ?_
  obtain ⟨j, hj, rfl⟩ := List.mem_map.mp hq
  exact hva j (List.mem_range.mp hj) (heq.symm.trans (h.vaPage_round j))

/-- A segment without pages changes nothing. -/
theorem SegmentPlaced.empty {c : ElfCall} {l : Loader} {p : ProgramHeader}
    (hmaps : PageMaps l.machine {c.pagemap} fun _ => False) (hfit : SegmentSized c p)
    (hzero : p.pageCount = 0) :
    SegmentPlaced c l.machine (loadSegment c l p).machine p 0 (frameByte c l.machine.mem p) := by
  have hroom := hfit.room
  have hsize := hfit.size
  rw [hzero] at hroom
  have hsame : (loadSegment c l p).machine = l.machine := by
    have hfile : p.fileSize = 0 := by omega
    have htail : p.tail = 0 := by
      rw [hfit.tail_eq]
      omega
    rw [loadSegment_mem, hzero, pmmAllocateZero_zero, hfile, htail]
    unfold segmentPages
    rw [hzero]
    rfl
  rw [hsame]
  refine ⟨?_, hmaps, ⟨rfl, Nat.le_add_right _ _, fun h => h⟩, fun _ h => h, fun _ h => h,
    fun _ _ => rfl, ?_, ?_, ?_, fun _ _ => rfl, fun _ _ _ _ => rfl⟩
  · rw [hzero, pmmAllocateZero_zero, Nat.zero_mul]
  · intro j hj
    omega
  · intro x hx
    rw [hzero] at hx
    omega
  · intro va j hj
    omega

section Placed

variable {c : ElfCall} {s s' : Machine} {p : ProgramHeader} {f : Nat} {b : Nat → BitVec 8}

/-- The new frames are mapped, still zero. -/
theorem SegmentPlaced.mapped (hmaps : PageMaps s {c.pagemap} fun _ => False)
    (hfit : SegmentSized c p) (haddr : (pmmAllocateZero s p.pageCount).1 = f * PAGE_SIZE)
    (htake : TakesFrames s (pmmAllocateZero s p.pageCount).2 f p.pageCount)
    (hfree : (missingTables (pmmAllocateZero s p.pageCount).2.mem c.pagemap
      ((segmentPages c p (f * PAGE_SIZE)).map Prod.snd)).card
      ≤ freeCount (pmmAllocateZero s p.pageCount).2) :
    SegmentPlaced c s (mapPages (pmmAllocateZero s p.pageCount).2 c.pagemap 0b111
      (segmentPages c p (f * PAGE_SIZE))) p f fun _ => 0 := by
  have hbelow : f * PAGE_SIZE + p.pageCount * PAGE_SIZE ≤ 2 ^ 52 := by
    have h1 := htake.below
    have h2 := hmaps.pmm.high
    simp only [PAGE_SIZE] at h1 ⊢
    omega
  obtain ⟨hinv₁, hgrow₁, hwalk₁, hfresh₁⟩ := hmaps.take htake
  have htables := card_segmentTables_le c p (pmmAllocateZero s p.pageCount).2.mem (f * PAGE_SIZE)
  -- no address of a frame wraps
  have hpages : ∀ q ∈ segmentPages c p (f * PAGE_SIZE), q.1 < 2 ^ 64 := by
    intro q hq
    obtain ⟨j, hj, rfl⟩ := List.mem_map.mp hq
    have hj' := List.mem_range.mp hj
    simp only [PAGE_SIZE] at hbelow ⊢
    omega
  have htop : ∀ s : Machine, ∀ q ∈ segmentPages c p (f * PAGE_SIZE),
      TopFree s.mem {c.pagemap} (fun _ => False) c.pagemap q.2 := fun _ _ _ _ hsh => hsh.elim
  generalize (pmmAllocateZero s p.pageCount).2 = s₁ at *
  obtain ⟨hinv₂, hgrow₂, -, -⟩ := mapPages_spec hinv₁ (Set.mem_singleton c.pagemap) (.inr rfl)
    (segmentPages c p (f * PAGE_SIZE)) hpages hfree (htop s₁)
  have hlast := mapPages_last hinv₁ (Set.mem_singleton c.pagemap) (.inr rfl)
    (segmentPages c p (f * PAGE_SIZE)) hpages hfree (htop s₁)
  have htables₂ := mapPages_tablesOnly hinv₁ (Set.mem_singleton c.pagemap) (.inr rfl)
    (segmentPages c p (f * PAGE_SIZE)) hpages hfree (htop s₁)
  generalize mapPages s₁ c.pagemap 0b111 (segmentPages c p (f * PAGE_SIZE)) = s₂ at *
  refine ⟨haddr, hinv₂, ⟨hgrow₂.bitmap.trans hgrow₁.bitmap, ?_, hgrow₂.upward ∘ hgrow₁.upward⟩,
    fun k hk => hgrow₂.used k (hgrow₁.used k hk), fun k hk => (hk.grows hgrow₁).grows hgrow₂,
    ?_, ?_, ?_, ?_, ?_, ?_⟩
  · have h1 := hgrow₁.free
    have h2 := hgrow₂.free
    omega
  · -- what was held keeps its bytes
    intro a ha
    have ha₁ := ha.grows hgrow₁
    rw [hgrow₂.data a ha₁.used ha₁.not_table (ha₁.apart a rfl),
      hgrow₁.data a ha.used ha.not_table (ha.apart a rfl)]
  · intro j hj
    have hj' := hfresh₁ (f + j) (by omega) (by omega)
    exact ⟨hj'.1, hj'.2.grows hgrow₂⟩
  · intro x hx
    have hpage := (page_mem_iff (f * PAGE_SIZE + x) f p.pageCount).mpr ⟨by omega, by omega⟩
    have hheld := (hfresh₁ _ hpage.1 hpage.2).2
    rw [hgrow₂.data _ hheld.used hheld.not_table (hheld.apart _ rfl)]
    exact htake.zeroed _ hpage
  · intro va j hj hva hlater
    -- the frame of the round the address is left with
    rw [hlast va, lastPage_segmentPages hfit hj hva hlater, ← Nat.add_mul, Nat.add_comm]
    refine congrArg some (frameOf_aligned (Nat.mul_mod_left _ _) ?_ (.inr rfl))
    have hpos : 0 < PAGE_SIZE := by decide
    have hlt : (f + j) * PAGE_SIZE + PAGE_SIZE ≤ f * PAGE_SIZE + p.pageCount * PAGE_SIZE := by
      simp only [PAGE_SIZE] at hj ⊢
      omega
    omega
  · intro va hva
    rw [hlast va, lastPage_segmentPages_none hfit hva]
    exact translate_of_walk (hwalk₁ _ (Set.mem_singleton _)) va
  · intro a hframe hnb hnt
    have hnb₁ : ¬ InBitmap s₁ a := by simpa only [InBitmap, hgrow₁.bitmap] using hnb
    exact (htables₂ a hnb₁ hnt).trans (htake.kept a hframe hnb)

/-- A byte of the frames is in a page that was free, and is held. -/
theorem SegmentPlaced.fresh_page (hp : SegmentPlaced c s s' p f b) {a : Nat}
    (hin : f * PAGE_SIZE ≤ a ∧ a < f * PAGE_SIZE + p.pageCount * PAGE_SIZE) :
    ¬ MarkedUsed s (a / PAGE_SIZE) ∧ Held s' {c.pagemap} (a / PAGE_SIZE) := by
  obtain ⟨hlo, hhi⟩ := (page_mem_iff a f p.pageCount).mpr hin
  have hfresh := hp.fresh (a / PAGE_SIZE - f) (by omega)
  rwa [Nat.add_sub_cancel' hlo] at hfresh

/-- What was held lies outside the frames. -/
theorem SegmentPlaced.out_of_held (hp : SegmentPlaced c s s' p f b) {a : Nat}
    (ha : Held s {c.pagemap} (a / PAGE_SIZE)) :
    a < f * PAGE_SIZE ∨ f * PAGE_SIZE + p.pageCount * PAGE_SIZE ≤ a := by
  by_contra hin
  exact (hp.fresh_page ⟨by omega, by omega⟩).1 ha.used

/-- Storing to the frames changes their contents only. -/
theorem SegmentPlaced.store (hp : SegmentPlaced c s s' p f b) {m : Mem}
    (hm : ∀ a, a < f * PAGE_SIZE ∨ f * PAGE_SIZE + p.pageCount * PAGE_SIZE ≤ a →
      m a = s'.mem a) :
    SegmentPlaced c s { s' with mem := m } p f fun x => m (f * PAGE_SIZE + x) := by
  have hbeside : ∀ a, ¬ Held s' {c.pagemap} (a / PAGE_SIZE) → m a = s'.mem a := by
    intro a ha
    refine hm a ?_
    by_contra hin
    exact ha (hp.fresh_page ⟨by omega, by omega⟩).2
  obtain ⟨hmaps, hused, hheld, htrans⟩ := hp.maps.store_held m hbeside
  have htrans := htrans c.pagemap (Set.mem_singleton _)
  refine ⟨hp.address, hmaps, hp.pool.trans (.store hp.maps.pmm hused),
    fun k hk => (hused k).mpr (hp.used k hk), fun k hk => hheld k (hp.held k hk),
    fun a ha => (hm a (hp.out_of_held ha)).trans (hp.data a ha),
    fun j hj => ⟨(hp.fresh j hj).1, hheld _ (hp.fresh j hj).2⟩, fun _ _ => rfl,
    fun va j hj hva hlater => (htrans va).trans (hp.last va j hj hva hlater),
    fun va hva => (htrans va).trans (hp.others va hva), fun a hframe hnb hnt => ?_⟩
  have houter := (page_mem_iff a f p.pageCount).not.mp hframe
  refine (hm a (by omega)).trans (hp.written a hframe hnb fun ht => hnt ?_)
  exact hp.maps.table_of_store_held hbeside ht

end Placed

/-- **Loading one segment**, at any address. -/
theorem loadSegment_placed {c : ElfCall} {l : Loader} {p : ProgramHeader}
    (hmaps : PageMaps l.machine {c.pagemap} fun _ => False) (hfit : SegmentSized c p)
    (hsrc : 0 < p.fileSize → c.elfBase + p.fileOffset < 2 ^ 64)
    (hfile : ∀ i < p.fileSize,
      Held l.machine {c.pagemap} ((c.elfBase + p.fileOffset + i) / PAGE_SIZE))
    (hserved : Served c l.machine p) :
    ∃ f, SegmentPlaced c l.machine (loadSegment c l p).machine p f
      (frameByte c l.machine.mem p) := by
  rcases hserved with hzero | ⟨f, haddr, htake, hfree⟩
  · exact ⟨0, .empty hmaps hfit hzero⟩
  refine ⟨f, ?_⟩
  have hcopy : ∀ m dest, memcpy m dest ((c.elfBase + p.fileOffset) % 2 ^ 64) p.fileSize
      = memcpy m dest (c.elfBase + p.fileOffset) p.fileSize := by
    intro m dest
    rcases Nat.eq_zero_or_pos p.fileSize with hnone | hpos
    · rw [hnone]
      rfl
    · rw [Nat.mod_eq_of_lt (hsrc hpos)]
  have hbelow : f * PAGE_SIZE + p.misalign + p.fileSize < 2 ^ 64 := by
    have h1 := htake.below
    have h2 := hmaps.pmm.high
    have h3 := hfit.room
    have h4 := hfit.size
    simp only [PAGE_SIZE] at h1 h3 ⊢
    omega
  rw [loadSegment_mem, haddr, hcopy, hfit.tail_eq, Nat.mod_eq_of_lt hbelow]
  have hmapped := SegmentPlaced.mapped hmaps hfit haddr htake hfree
  generalize mapPages (pmmAllocateZero l.machine p.pageCount).2 c.pagemap 0b111
    (segmentPages c p (f * PAGE_SIZE)) = s at hmapped ⊢
  have hroom := hfit.room
  have hsize := hfit.size
  -- the copy and the clearing stay in the frames
  have hstore := hmapped.store (m := memset (memcpy s.mem (f * PAGE_SIZE + p.misalign)
    (c.elfBase + p.fileOffset) p.fileSize) (f * PAGE_SIZE + p.misalign + p.fileSize) 0#8
    (p.memorySize - p.fileSize)) fun a ha => by
      rw [memset_agree _ _ _ _ (by omega), memcpy_agree _ _ _ _ (by omega)]
  exact { hstore with
    bytes := fun x hx => frame_bytes hfit hmapped.bytes (fun i hi => hmapped.data _ (hfile i hi))
      (fun i hi => hmapped.out_of_held (hfile i hi)) hx }

/-- And if its pages are canonical. -/
theorem loadSegment_spec {c : ElfCall} {l : Loader} {p : ProgramHeader}
    (hmaps : PageMaps l.machine {c.pagemap} fun _ => False) (hfit : SegmentFits c p)
    (hsrc : c.elfBase + p.fileOffset < 2 ^ 64)
    (hfile : ∀ i < p.fileSize,
      Held l.machine {c.pagemap} ((c.elfBase + p.fileOffset + i) / PAGE_SIZE))
    (hserved : Served c l.machine p) :
    ∃ f, SegmentLoaded c l.machine (loadSegment c l p).machine p f := by
  obtain ⟨f, hplaced⟩ := loadSegment_placed hmaps hfit.sized (fun _ => hsrc) hfile hserved
  refine ⟨f, hplaced.maps, hplaced.pool, hplaced.used, hplaced.held, hplaced.data, hplaced.fresh,
    hplaced.bytes, ?_, ?_⟩
  · rintro va hva ⟨h1, h2⟩
    -- the only round that the address belongs to
    have hround : va / PAGE_SIZE = firstPage c p + (va / PAGE_SIZE - firstPage c p) := by omega
    refine hplaced.last va _ (by omega) (by rw [vaPage_eq, ← hround]) fun k hk hlt heq => ?_
    have hpage := hfit.page_eq hk hva heq
    omega
  · intro va hva hnot
    refine hplaced.others va fun j hj heq => hnot ?_
    have hpage := hfit.page_eq hj hva heq
    exact ⟨by omega, by omega⟩

end BestOS
