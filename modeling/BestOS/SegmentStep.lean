/-
BestOS/SegmentStep.lean

One round of the loop of `elf_load_program`, for a segment at any address.

`segment_step` is the round as a step of its own: what is read in the segment after
it (`bytes`), where it stores (`writes`), and which pages it moves (`pages`).  The
bytes are those of the file as long as the file is in frames in use (`FileHeld`),
`DIV_ROUNDUP` does not wrap around, and no later page of the same segment has the same
48 low bits.

The stores reach further than the frames of the segment and the new tables: into the
bitmap, and into the tables that are there already (`segment_step_fails`).  And a
segment without bytes maps a page if its address is not aligned.
-/
import BestOS.ElfImage

namespace BestOS

open ByteMemory RadixForest

/-! ### A round -/

/-- What is assumed before the round for `p`: the frames are granted, zeroed, with enough of
them left for the tables. -/
structure StepAssumed (c : ElfCall) (s : Machine) (p : ProgramHeader) : Prop where
  load : p.type = ELF_PROGRAM_HEADER_LOAD
  base : c.base % PAGE_SIZE = 0
  size : p.fileSize ≤ p.memorySize
  nowrap : p.misalign + p.memorySize < 2 ^ 64
  maps : PageMaps s {c.pagemap} fun _ => False
  served : Served c s p

/-- The file is in frames in use, beside the tables and the bitmap: the header that the round is
at, and the bytes that it copies. -/
structure FileHeld (c : ElfCall) (l : Loader) (p : ProgramHeader) : Prop where
  header : ∀ x < ELF_PROGRAM_HEADER_SIZE,
    Held l.machine {c.pagemap} ((l.progHeader + x) / PAGE_SIZE)
  bytes : ∀ i < p.fileSize, c.elfBase + p.fileOffset + i < 2 ^ 64 ∧
    Held l.machine {c.pagemap} ((c.elfBase + p.fileOffset + i) / PAGE_SIZE)

/-- Where byte `o` of the segment is to be. -/
def byteAddress (c : ElfCall) (p : ProgramHeader) (o : Nat) : Nat :=
  (c.base + p.virtualAddress + o) % 2 ^ 64

/-- Byte `o` of the segment reads as it should. -/
def ReadsByte (c : ElfCall) (s s' : Machine) (p : ProgramHeader) (o : Nat) : Prop :=
  readThrough s'.mem c.pagemap (byteAddress c p o) = some (imageByte c s.mem p o)

/-- Address `a` is in the frames that `pmm_allocate_zero` returns. -/
def InFrames (s : Machine) (p : ProgramHeader) (a : Nat) : Prop :=
  (pmmAllocateZero s p.pageCount).1 ≤ a ∧
    a < (pmmAllocateZero s p.pageCount).1 + p.pageCount * PAGE_SIZE

/-- Address `a` is in a table of the page map. -/
def InTable (c : ElfCall) (s : Machine) (a : Nat) : Prop :=
  ∃ t, Table (child s.mem) {c.pagemap} 3 t ∧ t ≤ a ∧ a < t + PAGE_SIZE

/-- What is stored besides the frames goes where `P` says. -/
def StoresBeside (P : ElfCall → Machine → Machine → Nat → Prop) (c : ElfCall) (s s' : Machine)
    (p : ProgramHeader) : Prop :=
  ∀ a, s'.mem a ≠ s.mem a → InFrames s p a ∨ P c s s' a

/-- A page whose translation changes has a byte of the segment, the pages being told
apart by `page`. -/
def MovesOwn (page : Nat → Nat) (c : ElfCall) (s s' : Machine) (p : ProgramHeader) : Prop :=
  ∀ va < 2 ^ 64, translate s'.mem c.pagemap va ≠ translate s.mem c.pagemap va →
    ∃ o < p.memorySize, page (byteAddress c p o) = page va

/-- What a round does for a segment.  A byte is read as it should if it is in one of the last
2 ^ 36 pages: the next page with the same 48 low bits would be 2 ^ 36 pages further on. -/
structure SegmentStep (c : ElfCall) (s s' : Machine) (p : ProgramHeader) : Prop where
  bytes : ∀ o < p.memorySize, p.pageCount ≤ (p.misalign + o) / PAGE_SIZE + 2 ^ 36 →
    ReadsByte c s s' p o
  writes : StoresBeside (fun c s s' a => InTable c s' a ∨ InBitmap s a) c s s' p
  pages : 0 < p.memorySize ∨ p.misalign = 0 → MovesOwn vaPage c s s' p

theorem loadEntry_load {c : ElfCall} {l : Loader} (h : l.current.type = ELF_PROGRAM_HEADER_LOAD) :
    loadEntry c l = some (loadSegment c l l.current) := by
  unfold loadEntry
  simp only
  rw [if_neg (by rw [h]; decide), if_neg (by rw [h]; decide), if_pos h]

namespace SegmentSized

variable {c : ElfCall} {p : ProgramHeader}

/-- The page of a byte is the one of its round. -/
theorem vaPage_byte (h : SegmentSized c p) (o : Nat) :
    vaPage (byteAddress c p o) = (firstPage c p + (p.misalign + o) / PAGE_SIZE) % 2 ^ 36 := by
  have hstart := h.start
  unfold byteAddress vaPage
  rw [hstart]
  simp only [PAGE_SIZE]
  omega

theorem offset_byte (h : SegmentSized c p) (o : Nat) :
    byteAddress c p o % PAGE_SIZE = (p.misalign + o) % PAGE_SIZE := by
  have hstart := h.start
  unfold byteAddress
  rw [hstart]
  simp only [PAGE_SIZE]
  omega

/-- Every round is about a byte, unless the segment has none and is not aligned. -/
theorem byte_of_round (h : SegmentSized c p) (hsome : 0 < p.memorySize ∨ p.misalign = 0) {j : Nat}
    (hj : j < p.pageCount) : ∃ o < p.memorySize, (p.misalign + o) / PAGE_SIZE = j := by
  have hmis := misalign_lt p
  rw [h.pageCount_eq] at hj
  refine ⟨j * PAGE_SIZE - p.misalign, ?_, ?_⟩
  · simp only [PAGE_SIZE]
    omega
  · simp only [PAGE_SIZE] at hmis ⊢
    omega

end SegmentSized

section Round

variable {c : ElfCall} {s s' : Machine} {p : ProgramHeader} {f : Nat} {b : Nat → BitVec 8}

/-- A byte is read in the frame of the last round that takes its page. -/
theorem SegmentPlaced.reads_round (hp : SegmentPlaced c s s' p f b) (h : SegmentSized c p)
    {o j : Nat} (hj : j < p.pageCount) (hlast : p.pageCount ≤ j + 2 ^ 36)
    (hpage : vaPage (byteAddress c p o) = (firstPage c p + j) % 2 ^ 36) :
    readThrough s'.mem c.pagemap (byteAddress c p o)
      = some (b (j * PAGE_SIZE + (p.misalign + o) % PAGE_SIZE)) := by
  have htrans := hp.last (byteAddress c p o) j hj hpage fun k hk hlt => by
    rw [hpage]
    omega
  have hoffset : (p.misalign + o) % PAGE_SIZE < PAGE_SIZE := Nat.mod_lt _ (by decide)
  have hinside : j * PAGE_SIZE + (p.misalign + o) % PAGE_SIZE < p.pageCount * PAGE_SIZE := by
    simp only [PAGE_SIZE] at hoffset ⊢
    omega
  unfold readThrough
  rw [htrans, Option.map_some, h.offset_byte, Nat.add_mul, Nat.add_assoc, hp.bytes _ hinside]

/-- That is its own round, if no later one takes the page. -/
theorem SegmentPlaced.reads (hp : SegmentPlaced c s s' p f (frameByte c s.mem p))
    (h : SegmentSized c p) {o : Nat} (ho : o < p.memorySize)
    (hlast : p.pageCount ≤ (p.misalign + o) / PAGE_SIZE + 2 ^ 36) :
    ReadsByte c s s' p o := by
  have hroom := h.room
  have hj : (p.misalign + o) / PAGE_SIZE < p.pageCount := by
    simp only [PAGE_SIZE] at hroom ⊢
    omega
  unfold ReadsByte
  rw [hp.reads_round h hj hlast (h.vaPage_byte o), Nat.div_add_mod']
  unfold frameByte
  rw [if_pos (Nat.le_add_right _ _), Nat.add_sub_cancel_left]

theorem SegmentPlaced.writes_beside (hp : SegmentPlaced c s s' p f b) :
    StoresBeside (fun c s s' a => InTable c s' a ∨ InBitmap s a) c s s' p := by
  intro a hne
  by_contra hnot
  obtain ⟨hframes, hbeside⟩ := not_or.mp hnot
  obtain ⟨htable, hbitmap⟩ := not_or.mp hbeside
  refine hne (hp.written a ?_ hbitmap ?_)
  · rw [page_mem_iff]
    unfold InFrames at hframes
    rwa [hp.address] at hframes
  · intro ht
    refine htable ⟨_, ht, Nat.div_mul_le_self a PAGE_SIZE, ?_⟩
    simp only [PAGE_SIZE]
    omega

theorem SegmentPlaced.moves_own (hp : SegmentPlaced c s s' p f b) (h : SegmentSized c p)
    (hsome : 0 < p.memorySize ∨ p.misalign = 0) : MovesOwn vaPage c s s' p := by
  intro va _ hne
  by_contra hnot
  refine hne (hp.others va fun j hj heq => hnot ?_)
  obtain ⟨o, ho, rfl⟩ := h.byte_of_round hsome hj
  exact ⟨o, ho, (h.vaPage_byte o).trans heq.symm⟩

theorem StepAssumed.placed {l : Loader} (h : StepAssumed c l.machine p) (hfile : FileHeld c l p)
    (hroom : p.misalign + p.memorySize + 4095 < 2 ^ 64) :
    ∃ f, SegmentPlaced c l.machine (loadSegment c l p).machine p f
      (frameByte c l.machine.mem p) := by
  have hsrc : 0 < p.fileSize → c.elfBase + p.fileOffset < 2 ^ 64 := fun hpos =>
    Nat.lt_of_le_of_lt (Nat.le_add_right _ 0) (hfile.bytes 0 hpos).1
  exact loadSegment_placed h.maps ⟨h.base, h.size, hroom⟩ hsrc (fun i hi => (hfile.bytes i hi).2)
    h.served

/-- The header is still there when the round is over. -/
theorem SegmentPlaced.current {l : Loader} (hfile : FileHeld c l p)
    (hp : SegmentPlaced c l.machine (loadSegment c l p).machine p f b) :
    (loadSegment c l p).current = l.current := by
  unfold Loader.current
  rw [(loadSegment_pointers c l p).2.1]
  exact readProgramHeader_congr fun x hx => hp.data _ (hfile.header x hx)

end Round

/-- Every round for a segment of a file in use has the property. -/
def EveryRound (P : ElfCall → Machine → Machine → ProgramHeader → Prop) : Prop :=
  ∀ c l l', StepAssumed c l.machine l.current → FileHeld c l l.current →
    loadEntry c l = some l' → P c l.machine l'.machine l.current

/-- A program header in memory. -/
def storeHeader (m : Mem) (a : Nat) (p : ProgramHeader) : Mem :=
  let m := writeLE m a 4 p.type
  let m := writeLE m (a + 8) 8 p.fileOffset
  let m := writeLE m (a + 16) 8 p.virtualAddress
  let m := writeLE m (a + 32) 8 p.fileSize
  writeLE m (a + 40) 8 p.memorySize

theorem storeHeader_agree (m : Mem) (p : ProgramHeader) {a x : Nat} (h : x < a ∨ a + 48 ≤ x) :
    storeHeader m a p x = m x := by
  unfold storeHeader
  repeat rw [writeLE_agree _ _ _ _ (by omega)]

/-- The fields have the widths of an `Elf64ProgramHeader`. -/
def ProgramHeader.Fits (p : ProgramHeader) : Prop :=
  p.type < 256 ^ 4 ∧ p.fileOffset < 256 ^ 8 ∧ p.virtualAddress < 256 ^ 8 ∧
    p.fileSize < 256 ^ 8 ∧ p.memorySize < 256 ^ 8

instance (p : ProgramHeader) : Decidable p.Fits :=
  inferInstanceAs (Decidable (p.type < 256 ^ 4 ∧ p.fileOffset < 256 ^ 8 ∧
    p.virtualAddress < 256 ^ 8 ∧ p.fileSize < 256 ^ 8 ∧ p.memorySize < 256 ^ 8))

/-- A program header that is stored is read back. -/
theorem readProgramHeader_storeHeader (m : Mem) (a : Nat) {p : ProgramHeader} (h : p.Fits) :
    readProgramHeader (storeHeader m a p) a = p := by
  obtain ⟨htype, hoffset, haddr, hfile, hmem⟩ := h
  have htype' : readLE (storeHeader m a p) a 4 = p.type := by
    unfold storeHeader
    rw [readLE_writeLE_disjoint _ (by omega), readLE_writeLE_disjoint _ (by omega),
      readLE_writeLE_disjoint _ (by omega), readLE_writeLE_disjoint _ (by omega),
      readLE_writeLE_same, Nat.mod_eq_of_lt htype]
  have hoffset' : readLE (storeHeader m a p) (a + 8) 8 = p.fileOffset := by
    unfold storeHeader
    rw [readLE_writeLE_disjoint _ (by omega), readLE_writeLE_disjoint _ (by omega),
      readLE_writeLE_disjoint _ (by omega), readLE_writeLE_same, Nat.mod_eq_of_lt hoffset]
  have haddr' : readLE (storeHeader m a p) (a + 16) 8 = p.virtualAddress := by
    unfold storeHeader
    rw [readLE_writeLE_disjoint _ (by omega), readLE_writeLE_disjoint _ (by omega),
      readLE_writeLE_same, Nat.mod_eq_of_lt haddr]
  have hfile' : readLE (storeHeader m a p) (a + 32) 8 = p.fileSize := by
    unfold storeHeader
    rw [readLE_writeLE_disjoint _ (by omega), readLE_writeLE_same, Nat.mod_eq_of_lt hfile]
  have hmem' : readLE (storeHeader m a p) (a + 40) 8 = p.memorySize := by
    unfold storeHeader
    rw [readLE_writeLE_same, Nat.mod_eq_of_lt hmem]
  unfold readProgramHeader
  rw [htype', hoffset', haddr', hfile', hmem']

/-- The loop at the header at `a`. -/
def loaderAt (s : Machine) (a : Nat) : Loader where
  machine := s
  elfHeader := 0x4000
  progHeader := a
  atPhdr := 0
  ldPath := 0
  mallocs := 1
  record := ⟨[], []⟩

/-- A property of every round holds at the header at `a`. -/
theorem EveryRound.at_header {P : ElfCall → Machine → Machine → ProgramHeader → Prop}
    (h : EveryRound P) {c : ElfCall} {s : Machine} {a : Nat} {p : ProgramHeader}
    (hcur : readProgramHeader s.mem a = p) (hs : StepAssumed c s p)
    (hfile : FileHeld c (loaderAt s a) p) : P c s (loadSegment c (loaderAt s a) p).machine p := by
  subst hcur
  exact h c (loaderAt s a) _ hs hfile (loadEntry_load hs.load)

/-- `p` as a header of a file at 0x3000, whose byte 0xb0 is 0x90. -/
def segmentElf (p : ProgramHeader) : Machine :=
  { tinyMachine 0b11111#8 with
    mem := storeHeader (put (tinyMachine 0b11111#8).mem 0x30b0 0x90#8) 0x3040 p }

theorem segmentElf_current {p : ProgramHeader} (h : p.Fits) :
    readProgramHeader (segmentElf p).mem 0x3040 = p := readProgramHeader_storeHeader _ _ h

theorem segmentElf_maps (p : ProgramHeader) :
    PageMaps (segmentElf p) {0x2000} (fun _ => False) ∧ Held (segmentElf p) {0x2000} 3 ∧
      Held (segmentElf p) {0x2000} 4 ∧ (∀ va, translate (segmentElf p).mem 0x2000 va = none) ∧
      Upward (segmentElf p) ∧ freeCount (segmentElf p) = 11 := by
  refine filePage_maps fun a ha => ?_
  rw [storeHeader_agree _ _ (by omega), put_ne (by omega)]

theorem segmentElf_assumed {p : ProgramHeader} (hload : p.type = ELF_PROGRAM_HEADER_LOAD)
    (hsize : p.fileSize ≤ p.memorySize) (hwrap : p.misalign + p.memorySize < 2 ^ 64)
    (hfew : p.pageCount ≤ 2) : StepAssumed tinyCall (segmentElf p) p := by
  obtain ⟨hmaps, -, -, -, hup, hpool⟩ := segmentElf_maps p
  refine ⟨hload, by decide, hsize, hwrap, hmaps, hup.served hmaps.pmm (by omega) ?_⟩
  have hbytes : (segmentElf p).bitmap.size = 0x1000 := rfl
  omega

theorem segmentElf_fileHeld {p : ProgramHeader} (hfile : p.fileOffset + p.fileSize ≤ 0x100) :
    FileHeld tinyCall (loaderAt (segmentElf p) 0x3040) p := by
  have hheld := (segmentElf_maps p).2.1
  have hpage : ∀ a, 0x3000 ≤ a → a < 0x3100 →
      Held (segmentElf p) {tinyCall.pagemap} (a / PAGE_SIZE) := by
    intro a h1 h2
    have heq : a / PAGE_SIZE = 3 := by
      simp only [PAGE_SIZE]
      omega
    rw [heq]
    exact hheld
  constructor
  · intro x hx
    simp only [ELF_PROGRAM_HEADER_SIZE] at hx
    exact hpage (0x3040 + x) (by omega) (by omega)
  · intro i hi
    simp only [tinyCall]
    exact ⟨by omega, hpage _ (by omega) (by omega)⟩

/-- One byte, at the start of a page. -/
def byteSegment : ProgramHeader := ⟨1, 0xb0, 0x400000, 1, 1⟩

/-- 64 bytes of the file, from its program header on, and 32 zeros, which begin in one page and
end in the next. -/
def crossingSegment : ProgramHeader := ⟨1, 0x40, 0x400fe0, 0x40, 0x60⟩

/-- No bytes, at an address that is not aligned. -/
def emptySegment : ProgramHeader := ⟨1, 0, 0x400010, 0, 0⟩

/-- All bytes but one: `DIV_ROUNDUP` makes no page of them. -/
def wrappedSegment : ProgramHeader := ⟨1, 0, 0, 0, 2 ^ 64 - 1⟩

theorem byteSegment_assumed : StepAssumed tinyCall (segmentElf byteSegment) byteSegment :=
  segmentElf_assumed (by decide) (by decide) (by decide) (by decide)

theorem byteSegment_fileHeld :
    FileHeld tinyCall (loaderAt (segmentElf byteSegment) 0x3040) byteSegment :=
  segmentElf_fileHeld (by decide)

section Stores

variable {c : ElfCall} {s s' : Machine} {p : ProgramHeader} {f : Nat} {b : Nat → BitVec 8}

/-- The frames were free. -/
theorem SegmentPlaced.free_of_inFrames (hp : SegmentPlaced c s s' p f b) {a : Nat}
    (ha : InFrames s p a) : ¬ MarkedUsed s (a / PAGE_SIZE) := by
  unfold InFrames at ha
  rw [hp.address] at ha
  exact (hp.fresh_page ha).1

/-- A new frame is marked, so the bitmap is stored to. -/
theorem SegmentPlaced.stores_bitmap (hp : SegmentPlaced c s s' p f b)
    (hmaps : PageMaps s {c.pagemap} fun _ => False) (hsome : 0 < p.pageCount) :
    ¬ StoresBeside (fun c _ s' a => InTable c s' a) c s s' p := by
  intro hclaim
  have hsame : ∀ a, InBitmap s a → s'.mem a = s.mem a := by
    intro a ha
    by_contra hne
    rcases hclaim a hne with hin | ⟨t, ht, h1, h2⟩
    · exact hp.free_of_inFrames hin (hmaps.pmm.stored a ha)
    · refine (hp.maps.frames t ht).apart a h1 h2 ?_
      simpa only [InBitmap, hp.pool.bitmap] using ha
  obtain ⟨hfree, hheld⟩ := hp.fresh 0 hsome
  obtain ⟨hlt, hbit⟩ := hheld.used
  rw [hp.pool.bitmap] at hlt
  rw [pageUsed_congr hp.pool.bitmap hsame hlt] at hbit
  exact hfree ⟨hlt, hbit⟩

/-- When a page moves, a table is stored to that is there already. -/
theorem SegmentPlaced.stores_table (hp : SegmentPlaced c s s' p f b)
    (hmaps : PageMaps s {c.pagemap} fun _ => False) {va : Nat}
    (hne : translate s'.mem c.pagemap va ≠ translate s.mem c.pagemap va) :
    ¬ StoresBeside (fun c s s' a => (InTable c s' a ∧ ¬ InTable c s a) ∨ InBitmap s a)
      c s s' p := by
  intro hclaim
  have hsame : ∀ t, Table (child s.mem) {c.pagemap} 3 t → ∀ a, t ≤ a → a < t + PAGE_SIZE →
      s'.mem a = s.mem a := by
    intro t ht a h1 h2
    by_contra hdiff
    rcases hclaim a hdiff with hin | ⟨-, hold⟩ | hbitmap
    · exact hp.free_of_inFrames hin (hmaps.page_of_table ht h1 h2)
    · exact hold ⟨t, ht, h1, h2⟩
    · exact (hmaps.frames t ht).apart a h1 h2 hbitmap
  have hchild : ∀ t, Table (child s.mem) {c.pagemap} 3 t → ∀ j,
      child s'.mem t j = child s.mem t j :=
    fun t ht j => child_congr (entry_congr j (hsame t ht))
  exact hne (translate_of_walk (fun _ => walk_eq_of_tables hchild (Set.mem_singleton _)) va)

end Stores

/-! ### Where a round does more, or less -/

/-- The segment's one page is mapped. -/
theorem segmentElf_onePage {p : ProgramHeader} (h : StepAssumed tinyCall (segmentElf p) p)
    (hfile : FileHeld tinyCall (loaderAt (segmentElf p) 0x3040) p)
    (hroom : p.misalign + p.memorySize + 4095 < 2 ^ 64) (hone : p.pageCount = 1) :
    ∃ f, SegmentPlaced tinyCall (segmentElf p)
        (loadSegment tinyCall (loaderAt (segmentElf p) 0x3040) p).machine p f
        (frameByte tinyCall (segmentElf p).mem p) ∧
      ∀ va, vaPage va = firstPage tinyCall p % 2 ^ 36 →
        translate (loadSegment tinyCall (loaderAt (segmentElf p) 0x3040) p).machine.mem
          tinyCall.pagemap va ≠ translate (segmentElf p).mem tinyCall.pagemap va := by
  have hassumed : StepAssumed tinyCall (loaderAt (segmentElf p) 0x3040).machine p := h
  obtain ⟨f, hp⟩ := hassumed.placed hfile hroom
  refine ⟨f, hp, fun va hva => ?_⟩
  have hempty : translate (segmentElf p).mem tinyCall.pagemap va = none :=
    (segmentElf_maps p).2.2.2.1 va
  rw [hempty, hp.last va 0 (by omega) hva fun k hk hlt => by omega]
  exact Option.some_ne_none _

/-- A table that is there already is stored to, and the bitmap. -/
theorem byteSegment_stores :
    ¬ EveryRound (StoresBeside fun c s s' a =>
      (InTable c s' a ∧ ¬ InTable c s a) ∨ InBitmap s a) ∧
    ¬ EveryRound (StoresBeside fun c _ s' a => InTable c s' a) := by
  have hmaps := (segmentElf_maps byteSegment).1
  have hcur : readProgramHeader (segmentElf byteSegment).mem 0x3040 = byteSegment :=
    segmentElf_current (by decide)
  obtain ⟨f, hp, hmoved⟩ := segmentElf_onePage byteSegment_assumed byteSegment_fileHeld (by decide)
    (by decide)
  constructor
  · intro h
    exact hp.stores_table hmaps (hmoved 0x400000 (by decide))
      (h.at_header hcur byteSegment_assumed byteSegment_fileHeld)
  · intro h
    exact hp.stores_bitmap hmaps (by decide) (h.at_header hcur byteSegment_assumed byteSegment_fileHeld)

/-- The page map has 48 bits: with 0x400000, 0x1000000400000 is mapped. -/
theorem byteSegment_moves : ¬ EveryRound (MovesOwn (· / PAGE_SIZE)) := by
  intro h
  have hcur : readProgramHeader (segmentElf byteSegment).mem 0x3040 = byteSegment :=
    segmentElf_current (by decide)
  obtain ⟨f, hp, hmoved⟩ := segmentElf_onePage byteSegment_assumed byteSegment_fileHeld (by decide)
    (by decide)
  obtain ⟨o, ho, hpage⟩ := h.at_header hcur byteSegment_assumed byteSegment_fileHeld
    0x1000000400000 (by decide) (hmoved _ (by decide))
  obtain rfl : o = 0 := Nat.lt_one_iff.mp ho
  exact absurd hpage (by decide)

/-- A page is mapped for no byte. -/
theorem emptySegment_moves : ¬ EveryRound (MovesOwn vaPage) := by
  intro h
  have hassumed : StepAssumed tinyCall (segmentElf emptySegment) emptySegment :=
    segmentElf_assumed (by decide) (by decide) (by decide) (by decide)
  have hfile : FileHeld tinyCall (loaderAt (segmentElf emptySegment) 0x3040) emptySegment :=
    segmentElf_fileHeld (by decide)
  have hcur : readProgramHeader (segmentElf emptySegment).mem 0x3040 = emptySegment :=
    segmentElf_current (by decide)
  obtain ⟨f, hp, hmoved⟩ := segmentElf_onePage hassumed hfile (by decide) (by decide)
  obtain ⟨o, ho, -⟩ := h.at_header hcur hassumed hfile 0x400000 (by decide) (hmoved _ (by decide))
  exact absurd ho (Nat.not_lt_zero o)

/-- No page is mapped, and all memory is cleared. -/
theorem wrappedSegment_reads :
    ¬ EveryRound fun c s s' p => ∀ o < p.memorySize, ReadsByte c s s' p o := by
  intro h
  have hassumed : StepAssumed tinyCall (segmentElf wrappedSegment) wrappedSegment :=
    segmentElf_assumed (by decide) (by decide) (by decide) (by decide)
  have hcur : readProgramHeader (segmentElf wrappedSegment).mem 0x3040 = wrappedSegment :=
    segmentElf_current (by decide)
  have hread := h.at_header hcur hassumed (segmentElf_fileHeld (by decide)) 0 (by decide)
  have hnone : wrappedSegment.pageCount = 0 := by decide
  have htail : wrappedSegment.tail = 2 ^ 64 - 1 := by decide
  have hpages : ∀ newAddr, segmentPages tinyCall wrappedSegment newAddr = [] := by
    intro newAddr
    unfold segmentPages
    rw [hnone]
    rfl
  have hzero : ∀ i : Fin 512, entry
      (loadSegment tinyCall (loaderAt (segmentElf wrappedSegment) 0x3040) wrappedSegment).machine.mem
      tinyCall.pagemap i = 0 := by
    intro i
    refine readLE_zero fun a h1 h2 => ?_
    have hi := i.isLt
    have hstart : wrappedSegment.misalign = 0 ∧ wrappedSegment.fileSize = 0 := by decide
    simp only [tinyCall] at h1 h2
    rw [loadSegment_mem, hnone, pmmAllocateZero_zero, hpages, htail]
    refine (memset_apply _ _ _ _ a).trans (if_pos ?_)
    rw [hstart.1, hstart.2]
    omega
  unfold ReadsByte readThrough at hread
  rw [translate, vaPath, walk, child_eq_none (hzero _)] at hread
  cases hread

/-- The byte of the segment is in page 5, which is free. -/
def straySegment : ProgramHeader := ⟨1, 0x2000, 0x400000, 1, 1⟩

def strayElf : Machine :=
  { segmentElf straySegment with mem := put (segmentElf straySegment).mem 0x5000 0x90#8 }

theorem strayElf_assumed : StepAssumed tinyCall strayElf straySegment ∧
    Held strayElf {tinyCall.pagemap} 3 := by
  obtain ⟨hmaps, hheld, -, -, hup, hpool⟩ := segmentElf_maps straySegment
  have hfree : pageUsed (segmentElf straySegment) 5 = false := by decide +kernel
  obtain ⟨hinv, -, hused, hkeep⟩ := hmaps.store strayElf.mem
    (fun a ha => put_ne fun h => by
      simp only [InBitmap, segmentElf, tinyMachine] at ha
      omega)
    (fun t ht a h1 h2 => put_ne fun h => by
      have hmark : pageUsed (segmentElf straySegment) (a / PAGE_SIZE) = true :=
        (hmaps.page_of_table ht h1 h2).2
      rw [h, show 0x5000 / PAGE_SIZE = 5 from rfl, hfree] at hmark
      cases hmark)
  obtain ⟨hcount, hupward⟩ : freeCount strayElf = freeCount (segmentElf straySegment) ∧
      (Upward (segmentElf straySegment) → Upward strayElf) := pool_congr hmaps.pmm rfl rfl hused
  refine ⟨⟨by decide, by decide, by decide, by decide, hinv, ?_⟩, hkeep 3 hheld⟩
  refine (hupward hup).served hinv.pmm ?_ (by decide)
  rw [hcount, hpool]
  decide

/-- If the bytes of the file are where they are to be, they are what the allocator leaves. -/
theorem loadSegment_in_place {c : ElfCall} {l : Loader} {p : ProgramHeader}
    (hplace : (pmmAllocateZero l.machine p.pageCount).1 + p.misalign
      = (c.elfBase + p.fileOffset) % 2 ^ 64) (htail : p.tail = 0) :
    (loadSegment c l p).machine = mapPages (pmmAllocateZero l.machine p.pageCount).2 c.pagemap
      0b111 (segmentPages c p (pmmAllocateZero l.machine p.pageCount).1) := by
  rw [loadSegment_mem, hplace, memcpy_self, htail]
  rfl

/-- Page 5 is the lowest that is free. -/
theorem strayElf_takes {s : Machine} {f : Nat} (h : TakesFrames strayElf s f 1) : f = 5 := by
  have hused : (∀ k < 5, pageUsed strayElf k = true) ∧ pageUsed strayElf 5 = false := by
    decide +kernel
  rcases Nat.lt_trichotomy f 5 with hlt | heq | hgt
  · have hwas := h.was_free f (Nat.le_refl f) (Nat.lt_succ_self f)
    rw [hused.1 f hlt] at hwas
    cases hwas
  · exact heq
  · have hlow := h.lowest 5 hgt
    rw [hused.2] at hlow
    cases hlow

/-- So the byte is cleared before it is copied, to where it is. -/
theorem strayElf_reads :
    readThrough (loadSegment tinyCall (loaderAt strayElf 0x3040) straySegment).machine.mem
      tinyCall.pagemap (byteAddress tinyCall straySegment 0) = some 0#8 := by
  obtain ⟨hassumed, -⟩ := strayElf_assumed
  have hsized : SegmentSized tinyCall straySegment := ⟨by decide, by decide, by decide⟩
  have hone : straySegment.pageCount = 1 := by decide
  rcases hassumed.served with hnone | ⟨f, haddr, htake, hfree⟩
  · omega
  have hmapped := SegmentPlaced.mapped hassumed.maps hsized haddr htake hfree
  rw [hone] at htake
  obtain rfl := strayElf_takes htake
  have hplace : (pmmAllocateZero strayElf straySegment.pageCount).1 + straySegment.misalign
      = (tinyCall.elfBase + straySegment.fileOffset) % 2 ^ 64 := by
    rw [haddr]
    decide
  have hmem : (loadSegment tinyCall (loaderAt strayElf 0x3040) straySegment).machine
      = mapPages (pmmAllocateZero strayElf straySegment.pageCount).2 tinyCall.pagemap 0b111
          (segmentPages tinyCall straySegment
            (pmmAllocateZero strayElf straySegment.pageCount).1) :=
    loadSegment_in_place hplace (by decide)
  rw [hmem, haddr]
  exact hmapped.reads_round (j := 0) hsized (by decide) (by decide) (by decide)

theorem straySegment_reads :
    ¬ ∀ c l l', StepAssumed c l.machine l.current →
      (∀ x < ELF_PROGRAM_HEADER_SIZE,
        Held l.machine {c.pagemap} ((l.progHeader + x) / PAGE_SIZE)) →
      l.current.misalign + l.current.memorySize + 4095 < 2 ^ 64 → loadEntry c l = some l' →
      ∀ o < l.current.memorySize, ReadsByte c l.machine l'.machine l.current o := by
  intro h
  obtain ⟨hassumed, hheld⟩ := strayElf_assumed
  have hcur : (loaderAt strayElf 0x3040).current = straySegment := by
    have hput : strayElf.mem = put (segmentElf straySegment).mem 0x5000 0x90#8 := rfl
    show readProgramHeader strayElf.mem 0x3040 = straySegment
    rw [← segmentElf_current (p := straySegment) (by decide), hput]
    refine readProgramHeader_congr fun x hx => put_ne ?_
    simp only [ELF_PROGRAM_HEADER_SIZE] at hx
    omega
  have hload : loadEntry tinyCall (loaderAt strayElf 0x3040)
      = some (loadSegment tinyCall (loaderAt strayElf 0x3040) straySegment) := by
    rw [loadEntry_load (by rw [hcur]; exact hassumed.load), hcur]
  have hheader : ∀ x < ELF_PROGRAM_HEADER_SIZE,
      Held strayElf {tinyCall.pagemap} ((0x3040 + x) / PAGE_SIZE) := by
    intro x hx
    have hpage : (0x3040 + x) / PAGE_SIZE = 3 := by
      simp only [ELF_PROGRAM_HEADER_SIZE] at hx
      simp only [PAGE_SIZE]
      omega
    rw [hpage]
    exact hheld
  have hread := h tinyCall (loaderAt strayElf 0x3040)
    (loadSegment tinyCall (loaderAt strayElf 0x3040) straySegment)
  rw [hcur] at hread
  have hbyte := hread hassumed hheader (by decide) hload 0 (by decide)
  have hfile : imageByte tinyCall strayElf.mem straySegment 0 = 0x90#8 := by decide +kernel
  have hsame := Option.some.inj (hbyte.symm.trans strayElf_reads)
  exact absurd (hfile.symm.trans hsame) (by decide)

/-! ### A segment of more than 2 ^ 48 bytes -/

/-- 2 ^ 52 bytes, with the bitmap from page 1 on.  The pages in use are those of the bitmap
and the six after it. -/
def wideMachine : Machine where
  mem := fun a => if 0x1000 ≤ a ∧ a < 0x401001 then 0xff#8 else 0#8
  highestPage := 2 ^ 52
  usablePages := 0
  bitmap := ⟨0x1000, 2 ^ 37⟩

theorem pageUsed_wideMachine (k : Nat) : pageUsed wideMachine k = decide (k < 0x2000008) := by
  have hbit : ∀ i < 8, (0xff#8).getLsbD i = true := by decide
  rw [pageUsed, bitTest_eq_getLsbD]
  simp only [wideMachine]
  by_cases hk : k < 0x2000008
  · rw [if_pos (by omega), hbit _ (Nat.mod_lt k (by decide)), decide_eq_true hk]
  · rw [if_neg (by omega), BitVec.getLsbD_zero, decide_eq_false hk]

theorem wideMachine_pmmOk : PmmOk wideMachine where
  high := Nat.le_refl _
  covers := by decide
  stored := by
    rintro a ⟨h1, h2⟩
    simp only [wideMachine] at h1 h2
    refine ⟨?_, ?_⟩
    · simp only [wideMachine, PAGE_SIZE]
      omega
    · rw [pageUsed_wideMachine, decide_eq_true_iff]
      simp only [PAGE_SIZE]
      omega

/-- The page map is in the page after the bitmap, the file in the next. -/
def wideCall : ElfCall := { tinyCall with elfBase := 0x2000002000, pagemap := 0x2000001000 }

/-- One byte 0x90, and 2 ^ 48 zeros after it. -/
def widestSegment : ProgramHeader := ⟨1, 0xb0, 0, 1, 2 ^ 48 + 1⟩

def wideElf : Machine :=
  { wideMachine with
    mem := storeHeader (put wideMachine.mem 0x20000020b0 0x90#8) 0x2000002040 widestSegment }

theorem wideMachine_maps :
    PageMaps wideMachine {0x2000001000} (fun _ => False) ∧
      Held wideMachine {0x2000001000} 0x2000002 := by
  have hzero : ∀ i : Fin 512, entry wideMachine.mem 0x2000001000 i = 0 := fun i =>
    readLE_zero fun a h1 h2 => if_neg (by omega)
  have hused : ∀ k < 0x2000008, MarkedUsed wideMachine k := by
    intro k hk
    refine ⟨?_, ?_⟩
    · simp only [wideMachine]
      omega
    · rw [pageUsed_wideMachine, decide_eq_true hk]
  have happart : ∀ a, 0x2000001000 ≤ a → ¬ InBitmap wideMachine a := by
    intro a h1 h2
    simp only [InBitmap, wideMachine] at h2
    omega
  refine ⟨.of_empty wideMachine_pmmOk ⟨by decide, hused _ (by decide), fun a h1 _ => happart a h1⟩
    hzero _, hused _ (by decide), fun ht => ?_, fun a ha => happart a ?_⟩
  · have heq := Table.of_empty (fun i => child_eq_none (hzero i)) ht
    exact absurd heq (by decide)
  · simp only [PAGE_SIZE] at ha
    omega

theorem wideElf_assumed : StepAssumed wideCall wideElf widestSegment ∧
    FileHeld wideCall (loaderAt wideElf 0x2000002040) widestSegment := by
  obtain ⟨hmaps, hheld⟩ := wideMachine_maps
  obtain ⟨hinv, hused, hkeep, -⟩ := hmaps.store_held wideElf.mem fun a ha => by
    have hout : a / PAGE_SIZE ≠ 0x2000002 := fun h => ha (h ▸ hheld)
    simp only [PAGE_SIZE] at hout
    exact (storeHeader_agree _ _ (by omega)).trans (put_ne (by omega))
  obtain ⟨hcount, hupward⟩ : freeCount wideElf = freeCount wideMachine ∧
      (Upward wideMachine → Upward wideElf) := pool_congr hmaps.pmm rfl rfl hused
  obtain ⟨hup, hfree⟩ := pool_of_below fun k _ => pageUsed_wideMachine k
  refine ⟨⟨by decide, by decide, by decide, by decide, hinv, ?_⟩, ⟨fun x hx => ?_, fun i hi => ?_⟩⟩
  · refine (hupward hup).served hinv.pmm ?_ (by decide)
    rw [hcount, hfree]
    decide
  · have hpage : (0x2000002040 + x) / PAGE_SIZE = 0x2000002 := by
      simp only [ELF_PROGRAM_HEADER_SIZE] at hx
      simp only [PAGE_SIZE]
      omega
    show Held wideElf {0x2000001000} ((0x2000002040 + x) / PAGE_SIZE)
    rw [hpage]
    exact hkeep _ hheld
  · obtain rfl : i = 0 := Nat.lt_one_iff.mp hi
    exact ⟨by decide, hkeep _ hheld⟩

/-- The last of the pages has the frame that byte 0 is read in. -/
theorem widestSegment_reads :
    ¬ EveryRound fun c s s' p => p.misalign + p.memorySize + 4095 < 2 ^ 64 →
      ∀ o < p.memorySize, ReadsByte c s s' p o := by
  intro h
  obtain ⟨hassumed, hheld⟩ := wideElf_assumed
  have hcur : readProgramHeader wideElf.mem 0x2000002040 = widestSegment :=
    readProgramHeader_storeHeader _ _ (by decide)
  have hread := h.at_header hcur hassumed hheld (by decide) 0 (by decide)
  obtain ⟨f, hp⟩ := StepAssumed.placed (l := loaderAt wideElf 0x2000002040) hassumed hheld
    (by decide)
  have hpages : widestSegment.pageCount = 2 ^ 36 + 1 := by decide
  -- round 2 ^ 36 takes page 0 again
  have hround := hp.reads_round (o := 0) (j := 2 ^ 36) ⟨by decide, by decide, by decide⟩
    (by omega) (by omega) (by decide)
  have hzero : frameByte wideCall wideElf.mem widestSegment
      (2 ^ 36 * PAGE_SIZE + (widestSegment.misalign + 0) % PAGE_SIZE) = 0#8 := by
    unfold frameByte imageByte
    rw [if_pos (by decide), if_neg (by decide)]
    rfl
  have hfile : imageByte wideCall wideElf.mem widestSegment 0 = 0x90#8 := by decide +kernel
  have hsame := Option.some.inj (hread.symm.trans hround)
  rw [hfile] at hsame
  exact absurd (hsame.trans hzero) (by decide)

end BestOS
