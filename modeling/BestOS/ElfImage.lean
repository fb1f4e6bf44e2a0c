/-
BestOS/ElfImage.lean

What a loaded program reads in its segments.

Where two segments meet inside a page, the one that is loaded later takes the
page, and what the earlier one had there is gone: the later one's frame is zero
outside its own bytes.

`Image` is the invariant of the first loop: every page reads as the frame of its
owner, the last segment loaded that covers it.  The frames are those that were
free when the call began, so nothing that was there before is disturbed, and
neither is the image by what comes after.
-/
import BestOS.ElfSegment

namespace BestOS

open ByteMemory RadixForest

/-! ### The call -/

/-- The states of the first loop, with the number of rounds before them. -/
inductive AtRound (c : ElfCall) (s : Machine) : Nat → Loader → Prop
  | start : AtRound c s 0 (elfBegin c s)
  | next {i l l'} : AtRound c s i l → i < l.header.programHeaderTableEntryCount →
      loadEntry c l = some l' → AtRound c s (i + 1) (nextHeader l')

/-- The block of the header copy. -/
def HeaderBlock (c : ElfCall) (a : Nat) : Prop :=
  c.malloc 0 ELF_HEADER_SIZE ≤ a ∧ a < c.malloc 0 ELF_HEADER_SIZE + ELF_HEADER_SIZE

/-- A block that `malloc` may return for the path of an interpreter. -/
def PathBlock (c : ElfCall) (m : Mem) (a : Nat) : Prop :=
  ∃ k p, 1 ≤ k ∧ p ∈ programHeaders c m ∧ p.type = ELF_PROGRAM_HEADER_INTERPRET ∧
    c.malloc k (p.fileSize + 1) ≤ a ∧ a < c.malloc k (p.fileSize + 1) + (p.fileSize + 1)

/-- A byte of memory that is in use, and that the first loop does not store to. -/
structure Still (c : ElfCall) (s : Machine) (a : Nat) : Prop where
  held : Held s {c.pagemap} (a / PAGE_SIZE)
  header : ¬ HeaderBlock c a
  path : ¬ PathBlock c s.mem a

/-- A well-formed file of `size` bytes at `elf_base`, loaded at a page-aligned base into
a page map that is a tree: the headers are in bounds, the segments fit and are
disjoint. -/
structure WellFormed (c : ElfCall) (s : Machine) (size : Nat) : Prop where
  maps : PageMaps s {c.pagemap} fun _ => False
  file : ∀ a, c.elfBase ≤ a → a < c.elfBase + size → Still c s a
  below : c.elfBase + size ≤ 2 ^ 52
  header : ELF_HEADER_SIZE ≤ size
  entries : ∀ i < (fileHeader c s.mem).programHeaderTableEntryCount,
    headerAddress c s.mem i + ELF_PROGRAM_HEADER_SIZE ≤ c.elfBase + size
  contents : ∀ p ∈ programHeaders c s.mem,
    p.type = ELF_PROGRAM_HEADER_LOAD ∨ p.type = ELF_PROGRAM_HEADER_INTERPRET →
    p.fileOffset + p.fileSize ≤ size
  fits : ∀ p ∈ segments c s.mem, SegmentFits c p
  disjoint : (segments c s.mem).Pairwise ProgramHeader.Apart

/-- What the call assumes of `malloc`: its blocks are in frames in use, within the address
space, and apart from the header copy. -/
structure Blocks (c : ElfCall) (s : Machine) : Prop where
  header : ∀ a, HeaderBlock c a → Held s {c.pagemap} (a / PAGE_SIZE)
  path : ∀ a, PathBlock c s.mem a → Held s {c.pagemap} (a / PAGE_SIZE) ∧ ¬ HeaderBlock c a
  below : ∀ a, PathBlock c s.mem a → a < 2 ^ 64

/-- What it assumes of the allocators: every request for frames is served too. -/
structure Allocates (c : ElfCall) (s : Machine) : Prop extends Blocks c s where
  frames : ∀ i l, AtRound c s i l → i < (fileHeader c s.mem).programHeaderTableEntryCount →
    l.current.type = ELF_PROGRAM_HEADER_LOAD → Served c l.machine l.current

/-- Where a round of the second loop takes a block, the block and the field that is
rewritten are in frames in use. -/
def SectionHeld (c : ElfCall) (s : Machine) (l : Loader) (a : Nat) : Prop :=
  (readSectionHeader l.machine.mem a).Reset → ∀ x,
    x ∈ (⟨c.malloc l.mallocs (readSectionHeader l.machine.mem a).entrySize,
      (readSectionHeader l.machine.mem a).entrySize⟩ : Range) ∨ x ∈ (⟨a + 24, 8⟩ : Range) →
    Held s {c.pagemap} (x / PAGE_SIZE)

/-- And so in every round. -/
def SectionsHeld (c : ElfCall) (s : Machine) (shdr : Nat) : Nat → Nat → Loader → Prop
  | 0, _, _ => True
  | fuel + 1, i, l =>
    i < l.header.sectionHeaderTableEntryCount →
      SectionHeld c s l (sectionSlot shdr i) ∧
        SectionsHeld c s shdr fuel (i + 1) (resetSection c l (sectionSlot shdr i))

/-! ### Reading headers -/

theorem readLE_shift {m m' : Mem} {a b n : Nat} (h : ∀ x < n, m (a + x) = m' (b + x)) :
    readLE m a n = readLE m' b n := by
  induction n generalizing a b with
  | zero => rfl
  | succ n ih =>
    have hhead := h 0 (Nat.succ_pos n)
    rw [readLE, readLE, show m a = m' b from hhead]
    congr 2
    refine ih fun x hx => ?_
    have := h (x + 1) (by omega)
    rwa [show a + 1 + x = a + (x + 1) by omega, show b + 1 + x = b + (x + 1) by omega]

theorem readElfHeader_shift {m m' : Mem} {a b : Nat}
    (h : ∀ x < ELF_HEADER_SIZE, m (a + x) = m' (b + x)) :
    readElfHeader m a = readElfHeader m' b := by
  have hfield : ∀ off n, off + n ≤ ELF_HEADER_SIZE →
      readLE m (a + off) n = readLE m' (b + off) n := by
    intro off n hle
    refine readLE_shift fun x hx => ?_
    rw [Nat.add_assoc, Nat.add_assoc]
    exact h (off + x) (by omega)
  unfold readElfHeader
  rw [hfield 24 8 (by decide), hfield 32 8 (by decide), hfield 40 8 (by decide),
    hfield 54 2 (by decide), hfield 56 2 (by decide), hfield 60 2 (by decide)]

theorem readProgramHeader_congr {m m' : Mem} {a : Nat}
    (h : ∀ x < ELF_PROGRAM_HEADER_SIZE, m (a + x) = m' (a + x)) :
    readProgramHeader m a = readProgramHeader m' a := by
  have hfield : ∀ off n, off + n ≤ ELF_PROGRAM_HEADER_SIZE →
      readLE m (a + off) n = readLE m' (a + off) n := by
    intro off n hle
    refine readLE_shift fun x hx => ?_
    rw [Nat.add_assoc]
    exact h (off + x) (by omega)
  unfold readProgramHeader
  rw [show readLE m a 4 = readLE m' a 4 from hfield 0 4 (by decide), hfield 8 8 (by decide),
    hfield 16 8 (by decide), hfield 32 8 (by decide), hfield 40 8 (by decide)]

/-! ### The invariant of the first loop -/

/-- The segments among the first `i` headers. -/
def segmentsBefore (c : ElfCall) (m : Mem) (i : Nat) : List ProgramHeader :=
  ((programHeaders c m).take i).filter fun p => p.type = ELF_PROGRAM_HEADER_LOAD

/-- The page reads as the frame of its owner, which was free when the call began. -/
def ReadsAs (c : ElfCall) (s s' : Machine) (va : Nat) (q : ProgramHeader) : Prop :=
  ∃ k, translate s'.mem c.pagemap va = some (k * PAGE_SIZE) ∧ ¬ MarkedUsed s k ∧
    Held s' {c.pagemap} k ∧ ∀ x < PAGE_SIZE, s'.mem (k * PAGE_SIZE + x)
      = frameByte c s.mem q ((va / PAGE_SIZE - firstPage c q) * PAGE_SIZE + x)

/-- The pages of these segments together. -/
def framesFor (segs : List ProgramHeader) : Nat := (segs.map ProgramHeader.pageCount).sum

/-- These segments are loaded, in this order. -/
structure Loaded (c : ElfCall) (s s' : Machine) (segs : List ProgramHeader) : Prop where
  maps : PageMaps s' {c.pagemap} fun _ => False
  pool : Drains s s' (4 * framesFor segs)
  used : ∀ k, MarkedUsed s k → MarkedUsed s' k
  held : ∀ k, Held s {c.pagemap} k → Held s' {c.pagemap} k
  owned : ∀ va, Canonical va → ∀ q, owner c segs (va / PAGE_SIZE) = some q → ReadsAs c s s' va q
  others : ∀ va, Canonical va → owner c segs (va / PAGE_SIZE) = none →
    translate s'.mem c.pagemap va = translate s.mem c.pagemap va

namespace Loaded

variable {c : ElfCall} {s s' : Machine} {segs : List ProgramHeader}

theorem start (h : PageMaps s {c.pagemap} fun _ => False) : Loaded c s s [] where
  maps := h
  pool := ⟨rfl, Nat.le_refl _, fun hup => hup⟩
  used := fun _ hk => hk
  held := fun _ hk => hk
  owned := by
    rintro va - q hq
    simp [owner] at hq
  others := fun _ _ _ => rfl

/-- A store to frames that were held when the call began. -/
theorem store (h : Loaded c s s' segs) {m : Mem}
    (hm : ∀ a, ¬ Held s {c.pagemap} (a / PAGE_SIZE) → m a = s'.mem a) :
    Loaded c s { s' with mem := m } segs := by
  obtain ⟨hmaps, hused, hheld, htrans⟩ := h.maps.store_held m fun a ha =>
    hm a fun hs => ha (h.held _ hs)
  have htrans := htrans c.pagemap (Set.mem_singleton _)
  refine ⟨hmaps, h.pool.trans (.store h.maps.pmm hused), fun k hk => (hused k).mpr (h.used k hk),
    fun k hk => hheld k (h.held k hk), ?_, fun va hva hnone => (htrans va).trans (h.others va hva hnone)⟩
  -- the frames of the segments were free when the call began
  intro va hva q hq
  obtain ⟨k, hk, hfree, hkheld, hbytes⟩ := h.owned va hva q hq
  refine ⟨k, (htrans va).trans hk, hfree, hheld k hkheld, fun x hx => ?_⟩
  have hpage := page_of_offset k hx
  show m (k * PAGE_SIZE + x) = _
  rw [hm _ (by rw [hpage]; exact fun hs => hfree hs.used), hbytes x hx]

/-- One more segment. -/
theorem segment (h : Loaded c s s' segs) {s'' : Machine} {p : ProgramHeader} {f : Nat}
    (hp : SegmentLoaded c s' s'' p f)
    (hfile : ∀ x, frameByte c s'.mem p x = frameByte c s.mem p x) :
    Loaded c s s'' (segs ++ [p]) where
  maps := hp.maps
  pool := by
    have hsum : 4 * framesFor (segs ++ [p]) = 4 * framesFor segs + 4 * p.pageCount := by
      unfold framesFor
      rw [List.map_append, List.sum_append, List.map_singleton, List.sum_singleton, Nat.mul_add]
    rw [hsum]
    exact h.pool.trans hp.pool
  used := fun k hk => hp.used k (h.used k hk)
  held := fun k hk => hp.held k (h.held k hk)
  owned := by
    intro va hva q hq
    rw [owner_append] at hq
    by_cases hcov : Covers c p (va / PAGE_SIZE)
    · -- a page of the new segment
      rw [if_pos hcov] at hq
      obtain rfl := Option.some.inj hq
      have hj : va / PAGE_SIZE - firstPage c p < p.pageCount := by
        have := hcov.1
        have := hcov.2
        omega
      obtain ⟨hfree, hheld⟩ := hp.fresh _ hj
      refine ⟨_, hp.inside va hva hcov, fun hk => hfree (h.used _ hk), hheld, fun x hx => ?_⟩
      have hbound : (va / PAGE_SIZE - firstPage c p) * PAGE_SIZE + x < p.pageCount * PAGE_SIZE := by
        simp only [PAGE_SIZE] at hj hx ⊢
        omega
      rw [Nat.add_mul, Nat.add_assoc, hp.bytes _ hbound, hfile]
    · -- any other page keeps its frame, and the frame its bytes
      rw [if_neg hcov] at hq
      obtain ⟨k, hk, hfree, hheld, hbytes⟩ := h.owned va hva q hq
      refine ⟨k, (hp.outside va hva hcov).trans hk, hfree, hp.held k hheld, fun x hx => ?_⟩
      have hpage := page_of_offset k hx
      rw [hp.data _ (by rwa [hpage]), hbytes x hx]
  others := by
    intro va hva hnone
    rw [owner_append] at hnone
    by_cases hcov : Covers c p (va / PAGE_SIZE)
    · rw [if_pos hcov] at hnone
      cases hnone
    · rw [if_neg hcov] at hnone
      exact (hp.outside va hva hcov).trans (h.others va hva hnone)

end Loaded

/-- After `i` rounds. -/
structure Image (c : ElfCall) (s : Machine) (i : Nat) (l : Loader) : Prop where
  loaded : Loaded c s l.machine (segmentsBefore c s.mem i)
  still : ∀ a, Still c s a → l.machine.mem a = s.mem a
  header : l.header = fileHeader c s.mem
  copy : l.elfHeader = c.malloc 0 ELF_HEADER_SIZE
  pointer : i < (fileHeader c s.mem).programHeaderTableEntryCount →
    l.progHeader = headerAddress c s.mem i
  mallocs : 1 ≤ l.mallocs
  rounds : i ≤ (fileHeader c s.mem).programHeaderTableEntryCount
  passed : ∀ p ∈ (programHeaders c s.mem).take i,
    c.wantsLd = true ∨ p.type ≠ ELF_PROGRAM_HEADER_INTERPRET

/-! ### The first loop -/

section Loop

variable {c : ElfCall} {s : Machine} {size : Nat}

/-- The bytes of the header are in the file. -/
theorem WellFormed.header_still (h : WellFormed c s size) {x : Nat} (hx : x < ELF_HEADER_SIZE) :
    Still c s (c.elfBase + x) := by
  have := h.header
  exact h.file _ (by omega) (by omega)

/-- And so are those of a program header. -/
theorem WellFormed.entry_still (h : WellFormed c s size) {i x : Nat}
    (hi : i < (fileHeader c s.mem).programHeaderTableEntryCount)
    (hx : x < ELF_PROGRAM_HEADER_SIZE) : Still c s (headerAddress c s.mem i + x) := by
  have hend := h.entries i hi
  have hstart : c.elfBase ≤ headerAddress c s.mem i := by
    unfold headerAddress
    omega
  exact h.file _ (by omega) (by omega)

theorem elfBegin_machine (c : ElfCall) (s : Machine) :
    (elfBegin c s).machine =
      { s with mem := memcpy s.mem (c.malloc 0 ELF_HEADER_SIZE) c.elfBase ELF_HEADER_SIZE } := rfl

theorem header_progHeader (l : Loader) (a : Nat) :
    { l with progHeader := a }.header = l.header := rfl

theorem elfBegin_progHeader (c : ElfCall) (s : Machine) :
    (elfBegin c s).progHeader =
      (c.elfBase + (elfBegin c s).header.programHeaderTableFileOffset) % 2 ^ 64 := by
  simp only [elfBegin, header_progHeader]

/-- The header is copied, and nothing but its block is stored to. -/
theorem Image.start (hw : WellFormed c s size) (ha : Blocks c s) :
    Image c s 0 (elfBegin c s) := by
  have hout : ∀ a, ¬ HeaderBlock c a → (elfBegin c s).machine.mem a = s.mem a := by
    intro a hblock
    unfold HeaderBlock at hblock
    rw [elfBegin_machine]
    exact memcpy_agree _ _ _ _ (by omega)
  have hcopy : ∀ x < ELF_HEADER_SIZE,
      (elfBegin c s).machine.mem (c.malloc 0 ELF_HEADER_SIZE + x) = s.mem (c.elfBase + x) := by
    intro x hx
    have hapart := (hw.header_still hx).header
    unfold HeaderBlock at hapart
    rw [elfBegin_machine]
    exact memcpy_byte _ _ _ hx (by omega)
  -- the header is read from the copy from now on
  have hheader : (elfBegin c s).header = fileHeader c s.mem := readElfHeader_shift hcopy
  refine ⟨?_, fun a ha => hout a ha.header, hheader, rfl, ?_, Nat.le_refl 1, Nat.zero_le _, ?_⟩
  · rw [elfBegin_machine] at hout ⊢
    exact (Loaded.start hw.maps).store fun a hnot => hout a fun hblock => hnot (ha.header a hblock)
  · intro hi
    have hend := hw.entries 0 hi
    have hbelow := hw.below
    rw [elfBegin_progHeader, hheader]
    unfold headerAddress at hend ⊢
    rw [Nat.zero_mul, Nat.add_zero] at hend ⊢
    exact Nat.mod_eq_of_lt (by omega)
  · intro p hp
    rw [List.take_zero] at hp
    cases hp

theorem programHeaders_getElem? (c : ElfCall) (m : Mem) {i : Nat}
    (hi : i < (fileHeader c m).programHeaderTableEntryCount) :
    (programHeaders c m)[i]? = some (readProgramHeader m (headerAddress c m i)) := by
  unfold programHeaders
  rw [List.getElem?_map, List.getElem?_range hi]
  rfl

namespace Image

variable {i : Nat} {l l' : Loader}

theorem current_eq (h : Image c s i l) (hw : WellFormed c s size)
    (hi : i < (fileHeader c s.mem).programHeaderTableEntryCount) :
    l.current = readProgramHeader s.mem (headerAddress c s.mem i) := by
  unfold Loader.current
  rw [h.pointer hi]
  exact readProgramHeader_congr fun x hx => h.still _ (hw.entry_still hi hx)

theorem current_mem (h : Image c s i l) (hw : WellFormed c s size)
    (hi : i < (fileHeader c s.mem).programHeaderTableEntryCount) :
    l.current ∈ programHeaders c s.mem := by
  rw [h.current_eq hw hi]
  exact List.mem_of_getElem? (programHeaders_getElem? c s.mem hi)

/-- The headers passed after this round. -/
theorem take_succ (h : Image c s i l) (hw : WellFormed c s size)
    (hi : i < (fileHeader c s.mem).programHeaderTableEntryCount) :
    (programHeaders c s.mem).take (i + 1) = (programHeaders c s.mem).take i ++ [l.current] := by
  rw [List.take_add_one, programHeaders_getElem? c s.mem hi, h.current_eq hw hi]
  rfl

/-- The parts of the invariant that no round touches. -/
theorem advance (h : Image c s i l) (hw : WellFormed c s size)
    (hi : i < (fileHeader c s.mem).programHeaderTableEntryCount)
    (hloaded : Loaded c s l'.machine (segmentsBefore c s.mem (i + 1)))
    (hstill : ∀ a, Still c s a ∨ HeaderBlock c a → l'.machine.mem a = l.machine.mem a)
    (hcopy : l'.elfHeader = l.elfHeader) (hpointer : l'.progHeader = l.progHeader)
    (hmallocs : l.mallocs ≤ l'.mallocs)
    (hpass : c.wantsLd = true ∨ l.current.type ≠ ELF_PROGRAM_HEADER_INTERPRET) :
    Image c s (i + 1) (nextHeader l') := by
  -- the copy of the header is not stored to
  have hheader : l'.header = fileHeader c s.mem := by
    rw [← h.header]
    unfold Loader.header
    rw [hcopy]
    refine readElfHeader_shift fun x hx => hstill _ (.inr ?_)
    rw [h.copy]
    exact ⟨by omega, by omega⟩
  refine ⟨hloaded, fun a ha => (hstill a (.inl ha)).trans (h.still a ha), hheader,
    hcopy.trans h.copy, ?_, Nat.le_trans h.mallocs hmallocs, hi, ?_⟩
  · intro hnext
    have hend := hw.entries (i + 1) hnext
    have hbelow := hw.below
    show (l'.progHeader + l'.header.programHeaderTableEntrySize) % 2 ^ 64 = _
    rw [hpointer, h.pointer hi, hheader]
    unfold headerAddress at hend ⊢
    rw [Nat.add_mul, Nat.one_mul, ← Nat.add_assoc] at hend ⊢
    exact Nat.mod_eq_of_lt (by omega)
  · intro p hp
    rw [h.take_succ hw hi, List.mem_append, List.mem_singleton] at hp
    rcases hp with hp | rfl
    · exact h.passed p hp
    · exact hpass

theorem segmentsBefore_succ (h : Image c s i l) (hw : WellFormed c s size)
    (hi : i < (fileHeader c s.mem).programHeaderTableEntryCount) :
    segmentsBefore c s.mem (i + 1) = segmentsBefore c s.mem i ++
      if l.current.type = ELF_PROGRAM_HEADER_LOAD then [l.current] else [] := by
  unfold segmentsBefore
  rw [h.take_succ hw hi, List.filter_append]
  by_cases htype : l.current.type = ELF_PROGRAM_HEADER_LOAD <;> simp [htype]

theorem segmentsBefore_other (h : Image c s i l) (hw : WellFormed c s size)
    (hi : i < (fileHeader c s.mem).programHeaderTableEntryCount)
    (htype : l.current.type ≠ ELF_PROGRAM_HEADER_LOAD) :
    segmentsBefore c s.mem (i + 1) = segmentsBefore c s.mem i := by
  rw [h.segmentsBefore_succ hw hi, if_neg htype, List.append_nil]

end Image

namespace Image

variable {i : Nat} {l l' : Loader}

/-- The path goes to a block of its own. -/
theorem interpret (h : Image c s i l) (hw : WellFormed c s size) (ha : Blocks c s)
    (hi : i < (fileHeader c s.mem).programHeaderTableEntryCount)
    (htype : l.current.type = ELF_PROGRAM_HEADER_INTERPRET) (hld : c.wantsLd = true) :
    Image c s (i + 1) (nextHeader (loadInterpret c l l.current)) := by
  have hmem := h.current_mem hw hi
  have hsize := hw.contents _ hmem (.inr htype)
  have hbelow := hw.below
  -- the path and its terminator stay in their block
  have hout : ∀ a, ¬ PathBlock c s.mem a →
      (loadInterpret c l l.current).machine.mem a = l.machine.mem a := by
    intro a hnot
    have hrange : ¬ (c.malloc l.mallocs (l.current.fileSize + 1) ≤ a ∧
        a < c.malloc l.mallocs (l.current.fileSize + 1) + (l.current.fileSize + 1)) := fun hin =>
      hnot ⟨l.mallocs, l.current, h.mallocs, hmem, htype, hin.1, hin.2⟩
    have hend : c.malloc l.mallocs (l.current.fileSize + 1) + l.current.fileSize < 2 ^ 64 :=
      ha.below _ ⟨l.mallocs, l.current, h.mallocs, hmem, htype, Nat.le_add_right _ _,
        Nat.lt_succ_self _⟩
    rw [loadInterpret_mem]
    show writeLE _ _ 1 0 a = _
    rw [Nat.mod_eq_of_lt (a := l.current.fileSize + 1) (by omega), Nat.mod_eq_of_lt hend,
      writeLE_agree _ _ _ _ (by omega), memcpy_agree _ _ _ _ (by omega)]
  obtain ⟨hcopy, hpointer, hmallocs⟩ := loadInterpret_pointers c l l.current
  refine h.advance hw hi ?_ ?_ hcopy hpointer (by omega) (.inl hld)
  · rw [h.segmentsBefore_other hw hi (by rw [htype]; decide)]
    rw [loadInterpret_mem] at hout ⊢
    exact h.loaded.store fun a hnot => hout a fun hblock => hnot (ha.path a hblock).1
  · rintro a (hstill | hblock)
    · exact hout a hstill.path
    · exact hout a fun hpath => (ha.path a hpath).2 hblock

/-- The segment is loaded over those before it. -/
theorem segment (h : Image c s i l) (hw : WellFormed c s size) (ha : Blocks c s)
    (hi : i < (fileHeader c s.mem).programHeaderTableEntryCount)
    (htype : l.current.type = ELF_PROGRAM_HEADER_LOAD) (hserved : Served c l.machine l.current) :
    Image c s (i + 1) (nextHeader (loadSegment c l l.current)) := by
  have hmem := h.current_mem hw hi
  have hsize := hw.contents _ hmem (.inl htype)
  have hbelow := hw.below
  have hseg : l.current ∈ segments c s.mem := List.mem_filter.mpr ⟨hmem, by simpa using htype⟩
  have hfile : ∀ o < l.current.fileSize, Still c s (c.elfBase + l.current.fileOffset + o) :=
    fun o ho => hw.file _ (by omega) (by omega)
  obtain ⟨f, hf⟩ := loadSegment_spec h.loaded.maps (hw.fits _ hseg) (by omega)
    (fun o ho => h.loaded.held _ (hfile o ho).held) hserved
  have hbytes : ∀ x, frameByte c l.machine.mem l.current x = frameByte c s.mem l.current x := by
    intro x
    unfold frameByte imageByte
    by_cases hin : x - l.current.misalign < l.current.fileSize
    · rw [if_pos hin, if_pos hin, h.still _ (hfile _ hin)]
    · rw [if_neg hin, if_neg hin]
  obtain ⟨hcopy, hpointer, hmallocs⟩ := loadSegment_pointers c l l.current
  refine h.advance hw hi ?_ ?_ hcopy hpointer (by omega) (.inr (by rw [htype]; decide))
  · rw [h.segmentsBefore_succ hw hi, if_pos htype]
    exact h.loaded.segment hf hbytes
  · rintro a (hstill | hblock)
    · exact hf.data a (h.loaded.held _ hstill.held)
    · exact hf.data a (h.loaded.held _ (ha.header a hblock))

/-- **One round.** -/
theorem next (h : Image c s i l) (hw : WellFormed c s size) (ha : Blocks c s)
    (hi : i < (fileHeader c s.mem).programHeaderTableEntryCount)
    (hserved : l.current.type = ELF_PROGRAM_HEADER_LOAD → Served c l.machine l.current)
    (hstep : loadEntry c l = some l') : Image c s (i + 1) (nextHeader l') := by
  rcases loadEntry_cases hstep with ⟨htype, hld, rfl⟩ | ⟨htype, rfl⟩ | ⟨hint, hload, a, rfl⟩
  · exact h.interpret hw ha hi htype hld
  · exact h.segment hw ha hi htype (hserved htype)
  · refine h.advance hw hi ?_ (fun _ _ => rfl) rfl rfl (Nat.le_refl _) (.inr hint)
    rw [h.segmentsBefore_other hw hi hload]
    exact h.loaded

end Image

/-- **The invariant holds in every round.** -/
theorem AtRound.image (hw : WellFormed c s size) (ha : Allocates c s) {i : Nat} {l : Loader}
    (h : AtRound c s i l) : Image c s i l := by
  induction h with
  | start => exact .start hw ha.toBlocks
  | next hround hi hstep ih =>
    rw [ih.header] at hi
    exact ih.next hw ha.toBlocks hi (ha.frames _ _ hround hi) hstep

theorem framesFor_segmentsBefore_le (c : ElfCall) (m : Mem) (i : Nat) :
    framesFor (segmentsBefore c m i) ≤ framesFor (segments c m) := by
  unfold framesFor segmentsBefore segments
  exact (((List.take_sublist i _).filter _).map _).sum_le_sum fun _ _ => Nat.zero_le _

/-- And every request, if it has that much for each segment. -/
theorem Blocks.allocates (ha : Blocks c s) (hw : WellFormed c s size) (hup : Upward s)
    (hfree : 4 * framesFor (segments c s.mem) ≤ freeCount s)
    (hsize : ∀ p ∈ segments c s.mem, p.pageCount ≤ s.bitmap.size) : Allocates c s := by
  -- by the invariant, which holds as long as the requests are served
  have hserved : ∀ i l, Image c s i l → i < (fileHeader c s.mem).programHeaderTableEntryCount →
      l.current.type = ELF_PROGRAM_HEADER_LOAD → Served c l.machine l.current := by
    intro i l h hi htype
    have hseg : l.current ∈ segments c s.mem :=
      List.mem_filter.mpr ⟨h.current_mem hw hi, by simpa using htype⟩
    have hpool := h.loaded.pool.free
    -- the segments so far and this one are among all
    have hsum : framesFor (segmentsBefore c s.mem i) + l.current.pageCount
        ≤ framesFor (segments c s.mem) := by
      have hle := framesFor_segmentsBefore_le c s.mem (i + 1)
      rw [h.segmentsBefore_succ hw hi, if_pos htype] at hle
      unfold framesFor at hle ⊢
      rwa [List.map_append, List.sum_append, List.map_singleton, List.sum_singleton] at hle
    exact (h.loaded.pool.upward hup).served h.loaded.maps.pmm (by omega)
      (by rw [h.loaded.pool.bitmap]; exact hsize _ hseg)
  refine ⟨ha, fun i l hround => hserved i l ?_⟩
  induction hround with
  | start => exact .start hw ha
  | next hround hi hstep ih =>
    rw [ih.header] at hi
    exact ih.next hw ha hi (hserved _ _ ih hi) hstep

/-- The first loop ends at the count, or at an interpreter. -/
theorem loadEntries_atRound {fuel i : Nat} {l : Loader} (h : AtRound c s i l)
    (hfuel : maxHeaders ≤ i + fuel) :
    ∃ j, AtRound c s j (loadEntries c fuel i l) ∧
      (¬ j < (loadEntries c fuel i l).header.programHeaderTableEntryCount ∨
        loadEntry c (loadEntries c fuel i l) = none) := by
  induction fuel generalizing i l with
  | zero =>
    -- the count has 16 bits, so the fuel is enough
    refine ⟨i, h, .inl ?_⟩
    have hcount : l.header.programHeaderTableEntryCount < 256 ^ 2 := readLE_lt _ _ _
    unfold maxHeaders at hfuel
    show ¬ i < l.header.programHeaderTableEntryCount
    omega
  | succ fuel ih =>
    by_cases hi : i < l.header.programHeaderTableEntryCount
    · cases hstep : loadEntry c l with
      | none =>
        rw [loadEntries_break hstep]
        exact ⟨i, h, .inr hstep⟩
      | some l' =>
        rw [loadEntries_next hi hstep]
        exact ih (h.next hi hstep) (by omega)
    · rw [loadEntries_end hi]
      exact ⟨i, h, .inl hi⟩

/-- All segments that are to be loaded are. -/
theorem Image.segmentsBefore_end {j : Nat} {l : Loader} (h : Image c s j l)
    (hw : WellFormed c s size)
    (hend : ¬ j < l.header.programHeaderTableEntryCount ∨ loadEntry c l = none) :
    segmentsBefore c s.mem j = loadedSegments c s.mem := by
  unfold segmentsBefore loadedSegments
  congr 1
  conv_rhs => rw [← List.take_append_drop j (programHeaders c s.mem)]
  rw [List.takeWhile_append_of_pos (fun p hp => by simpa using h.passed p hp)]
  -- at the end of the table, or in front of an interpreter
  have hstop : ((programHeaders c s.mem).drop j).takeWhile (fun p =>
      decide (c.wantsLd = true ∨ p.type ≠ ELF_PROGRAM_HEADER_INTERPRET)) = [] := by
    by_cases hj : j < (fileHeader c s.mem).programHeaderTableEntryCount
    · rcases hend with hcount | hnone
      · rw [h.header] at hcount
        exact absurd hj hcount
      obtain ⟨htype, hld⟩ := loadEntry_none hnone
      rw [h.current_eq hw hj] at htype
      have hget := programHeaders_getElem? c s.mem hj
      obtain ⟨hlt, hget⟩ := List.getElem?_eq_some_iff.mp hget
      rw [List.drop_eq_getElem_cons hlt, hget, List.takeWhile_cons_of_neg]
      simp [htype, hld]
    · rw [List.drop_eq_nil_of_le, List.takeWhile_nil]
      unfold programHeaders
      rw [List.length_map, List.length_range]
      omega
  rw [hstop, List.append_nil]

/-! ### The second loop -/

/-- A round stores to frames in use only. -/
theorem Loaded.reset {segs : List ProgramHeader} {l : Loader} {a : Nat}
    (h : Loaded c s l.machine segs) (hheld : SectionHeld c s l a) :
    Loaded c s (resetSection c l a).machine segs := by
  by_cases hreset : (readSectionHeader l.machine.mem a).Reset
  · obtain ⟨v, hmem⟩ := resetSection_mem (c := c) hreset
    rw [hmem]
    refine h.store fun x hx => ?_
    have hout := mt (hheld hreset x) hx
    rw [not_or, Range.mem_iff, Range.mem_iff] at hout
    simp only at hout
    rw [writeLE_agree _ _ _ _ (by omega), memset_agree _ _ _ _ (by omega)]
  · rw [resetSection_same hreset]
    exact h

theorem Loaded.resets {segs : List ProgramHeader} {shdr fuel i : Nat} {l : Loader}
    (h : Loaded c s l.machine segs) (hheld : SectionsHeld c s shdr fuel i l) :
    Loaded c s (resetSections c shdr fuel i l).machine segs := by
  induction fuel generalizing i l with
  | zero => exact h
  | succ fuel ih =>
    unfold resetSections
    unfold SectionsHeld at hheld
    split
    · rename_i hi
      exact ih (h.reset (hheld hi).1) (hheld hi).2
    · exact h

/-- The first loop leaves the segments loaded. -/
theorem elfLoaded_image (hw : WellFormed c s size) (ha : Allocates c s) :
    ∃ j, Image c s j (elfLoaded c s) ∧ segmentsBefore c s.mem j = loadedSegments c s.mem := by
  obtain ⟨j, hround, hend⟩ := loadEntries_atRound (c := c) (s := s) .start
    (Nat.le_of_eq (Nat.zero_add maxHeaders).symm)
  have himage := hround.image hw ha
  exact ⟨j, himage, himage.segmentsBefore_end hw hend⟩

/-- And so does the call. -/
theorem elfLoadProgram_loaded (hw : WellFormed c s size) (ha : Allocates c s)
    (hs : SectionsHeld c s (sectionHeaders (elfLoaded c s)) maxHeaders 0 (elfLoaded c s)) :
    Loaded c s (elfLoadProgram c s).loader.machine (loadedSegments c s.mem) := by
  obtain ⟨j, himage, hsegs⟩ := elfLoaded_image hw ha
  rw [elfLoadProgram_loader, ← hsegs]
  exact himage.loaded.resets hs

/-- A file without sections. -/
theorem sectionsHeld_of_zero (hw : WellFormed c s size) (ha : Allocates c s)
    (hzero : (fileHeader c s.mem).sectionHeaderTableEntryCount = 0) (shdr fuel i : Nat) :
    SectionsHeld c s shdr fuel i (elfLoaded c s) := by
  obtain ⟨j, himage, -⟩ := elfLoaded_image hw ha
  cases fuel with
  | zero => trivial
  | succ fuel =>
    intro hi
    rw [himage.header, hzero] at hi
    omega

end Loop

/-! ### Reading the image -/

/-- The byte at a virtual address. -/
def readThrough (m : Mem) (pagemap va : Nat) : Option (BitVec 8) :=
  (translate m pagemap va).map fun f => m (f + va % PAGE_SIZE)

/-- Every byte of every segment reads as the file has it, or as zero. -/
def ImageOk (c : ElfCall) (s s' : Machine) : Prop :=
  ∀ p ∈ segments c s.mem, ∀ o < p.memorySize,
    readThrough s'.mem c.pagemap (c.base + p.virtualAddress + o) = some (imageByte c s.mem p o)

/-- No other segment takes a page where a segment has a byte other than zero, and
every segment has its pages. -/
def NoPageTaken (c : ElfCall) (m : Mem) : Prop :=
  ∀ p ∈ segments c m, ∀ o < p.memorySize, ∃ q,
    owner c (loadedSegments c m) ((c.base + p.virtualAddress + o) / PAGE_SIZE) = some q ∧
      (q = p ∨ imageByte c m p o = 0)

theorem owner_covers {c : ElfCall} {segs : List ProgramHeader} {page : Nat} {q : ProgramHeader}
    (h : owner c segs page = some q) : q ∈ segs ∧ Covers c q page :=
  ⟨List.mem_reverse.mp (List.mem_of_find?_eq_some h), by simpa using List.find?_some h⟩

theorem loadedSegments_subset (c : ElfCall) (m : Mem) {q : ProgramHeader}
    (h : q ∈ loadedSegments c m) : q ∈ segments c m := by
  obtain ⟨hmem, htype⟩ := List.mem_filter.mp h
  exact List.mem_filter.mpr ⟨(List.takeWhile_prefix _).subset hmem, htype⟩

section Reading

variable {c : ElfCall} {s s' : Machine} {p q : ProgramHeader} {o : Nat}

/-- A byte is read from the frame of its page's owner. -/
theorem Loaded.read {segs : List ProgramHeader} (h : Loaded c s s' segs) {va : Nat}
    (hva : Canonical va) (howner : owner c segs (va / PAGE_SIZE) = some q) :
    readThrough s'.mem c.pagemap va
      = some (frameByte c s.mem q (va - firstPage c q * PAGE_SIZE)) := by
  obtain ⟨k, hk, -, -, hbytes⟩ := h.owned va hva q howner
  have hcov := (owner_covers howner).2.1
  have hoff : (va / PAGE_SIZE - firstPage c q) * PAGE_SIZE + va % PAGE_SIZE
      = va - firstPage c q * PAGE_SIZE := by
    simp only [PAGE_SIZE] at hcov ⊢
    omega
  unfold readThrough
  rw [hk, Option.map_some, hbytes _ (Nat.mod_lt _ (by decide)), hoff]

/-- In its own frames a segment has its bytes. -/
theorem SegmentFits.frameByte_own (h : SegmentFits c p) (m : Mem) :
    frameByte c m p (c.base + p.virtualAddress + o - firstPage c p * PAGE_SIZE)
      = imageByte c m p o := by
  have hx : c.base + p.virtualAddress + o - firstPage c p * PAGE_SIZE = p.misalign + o := by
    have := h.start
    omega
  rw [hx]
  unfold frameByte
  rw [if_pos (Nat.le_add_right _ _), Nat.add_sub_cancel_left]

/-- In the frames of another it has zeros. -/
theorem SegmentFits.frameByte_other (h : SegmentFits c q) (m : Mem) (ho : o < p.memorySize)
    (hcov : Covers c q ((c.base + p.virtualAddress + o) / PAGE_SIZE))
    (hapart : p.Apart q) :
    frameByte c m q (c.base + p.virtualAddress + o - firstPage c q * PAGE_SIZE) = 0 := by
  have hstart := h.start
  have hsize := h.size
  have hpage := hcov.1
  unfold frameByte imageByte
  split
  · rename_i hlow
    refine if_neg fun hin => ?_
    -- a byte of the file that both segments would have
    refine hapart (p.virtualAddress + o) ⟨by dsimp only; omega, by dsimp only; omega⟩ ?_
    rw [Range.mem_iff]
    simp only [PAGE_SIZE] at *
    omega
  · rfl

end Reading

/-- What a program needs to be loaded as it should: its pages are not taken, and the
second loop, which looks for section headers elsewhere, does not come upon free memory, a
table or the bitmap. -/
structure ImageKept (c : ElfCall) (s : Machine) : Prop where
  pages : NoPageTaken c s.mem
  sections : SectionsHeld c s (sectionHeaders (elfLoaded c s)) maxHeaders 0 (elfLoaded c s)

/-- Where no segment is loaded, nothing is mapped before the call. -/
def Unmapped (c : ElfCall) (s : Machine) : Prop :=
  ∀ p ∈ segments c s.mem, ∀ o < p.memorySize,
    owner c (loadedSegments c s.mem) ((c.base + p.virtualAddress + o) / PAGE_SIZE) = none →
    translate s.mem c.pagemap (c.base + p.virtualAddress + o) = none

/-- A byte whose page has an owner reads as it should if the owner is its segment, or if it
is to be zero, and only then. -/
theorem Loaded.byte_iff {c : ElfCall} {s s' : Machine} {size o : Nat} {p q : ProgramHeader}
    (hloaded : Loaded c s s' (loadedSegments c s.mem)) (hw : WellFormed c s size)
    (hp : p ∈ segments c s.mem) (ho : o < p.memorySize)
    (howner : owner c (loadedSegments c s.mem)
      ((c.base + p.virtualAddress + o) / PAGE_SIZE) = some q) :
    readThrough s'.mem c.pagemap (c.base + p.virtualAddress + o) = some (imageByte c s.mem p o) ↔
      q = p ∨ imageByte c s.mem p o = 0 := by
  rw [hloaded.read ((hw.fits p hp).byte ho) howner]
  obtain ⟨hmem, hcov⟩ := owner_covers howner
  have hfit := hw.fits q (loadedSegments_subset c s.mem hmem)
  by_cases hqp : q = p
  · subst hqp
    rw [hfit.frameByte_own]
    exact ⟨fun _ => .inl rfl, fun _ => rfl⟩
  · have hapart := hw.disjoint.forall hp (loadedSegments_subset c s.mem hmem) (Ne.symm hqp)
    rw [hfit.frameByte_other s.mem ho hcov hapart]
    exact ⟨fun hzero => .inr (Option.some.inj hzero).symm,
      fun hor => congrArg some (hor.resolve_left hqp).symm⟩

/-- What is read once the segments are loaded, if no page is taken. -/
theorem Loaded.image_of_kept {c : ElfCall} {s s' : Machine} {size : Nat}
    (hloaded : Loaded c s s' (loadedSegments c s.mem)) (hw : WellFormed c s size)
    (htaken : NoPageTaken c s.mem) : ImageOk c s s' := by
  intro p hp o ho
  obtain ⟨q, howner, hor⟩ := htaken p hp o ho
  exact (hloaded.byte_iff hw hp ho howner).mpr hor

/-- And no page is taken if all is read as it should, and nothing is read elsewhere. -/
theorem Loaded.kept_of_image {c : ElfCall} {s s' : Machine} {size : Nat}
    (hloaded : Loaded c s s' (loadedSegments c s.mem)) (hw : WellFormed c s size)
    (hempty : Unmapped c s) (hok : ImageOk c s s') : NoPageTaken c s.mem := by
  intro p hp o ho
  have hread := hok p hp o ho
  cases howner : owner c (loadedSegments c s.mem)
      ((c.base + p.virtualAddress + o) / PAGE_SIZE) with
  | none =>
    -- the page stays as it was, without a frame
    unfold readThrough at hread
    rw [hloaded.others _ ((hw.fits p hp).byte ho) howner, hempty p hp o ho howner] at hread
    cases hread
  | some q => exact ⟨q, rfl, (hloaded.byte_iff hw hp ho howner).mp hread⟩

/-- A file of 256 bytes at 0x3000, with up to two segments: the bytes 0x90 and 0x91 and two
zeros at 0x400000, and the byte 0x92 and two zeros at `va`. -/
def pageElf (count va : Nat) : Machine :=
  { tinyMachine 0b11111#8 with
    mem :=
      let m := (tinyMachine 0b11111#8).mem
      let m := writeLE m (0x3000 + 32) 8 64
      let m := writeLE m (0x3000 + 54) 2 56
      let m := writeLE m (0x3000 + 56) 2 count
      let m := writeLE m (0x3000 + 64) 4 1
      let m := writeLE m (0x3000 + 64 + 8) 8 0xb0
      let m := writeLE m (0x3000 + 64 + 16) 8 0x400000
      let m := writeLE m (0x3000 + 64 + 32) 8 2
      let m := writeLE m (0x3000 + 64 + 40) 8 4
      let m := writeLE m (0x3000 + 120) 4 1
      let m := writeLE m (0x3000 + 120 + 8) 8 0xb2
      let m := writeLE m (0x3000 + 120 + 16) 8 va
      let m := writeLE m (0x3000 + 120 + 32) 8 1
      let m := writeLE m (0x3000 + 120 + 40) 8 3
      writeLE m (0x3000 + 0xb0) 3 0x929190 }

def firstSegment : ProgramHeader := ⟨1, 0xb0, 0x400000, 2, 4⟩

def secondSegment (va : Nat) : ProgramHeader := ⟨1, 0xb2, va, 1, 3⟩

theorem pageElf_mem (count va : Nat) {a : Nat} (h : a < 0x3000 ∨ 0x3100 ≤ a) :
    (pageElf count va).mem a = (tinyMachine 0b11111#8).mem a := by
  unfold pageElf
  simp only
  repeat rw [writeLE_agree _ _ _ _ (by omega)]

/-- The page map is empty, and the pages of the file and of the blocks are in use, with any
bytes in the file. -/
theorem filePage_maps {m : Mem}
    (hm : ∀ a, a < 0x3000 ∨ 0x3100 ≤ a → m a = (tinyMachine 0b11111#8).mem a) :
    PageMaps { tinyMachine 0b11111#8 with mem := m } {0x2000} (fun _ => False) ∧
      Held { tinyMachine 0b11111#8 with mem := m } {0x2000} 3 ∧
      Held { tinyMachine 0b11111#8 with mem := m } {0x2000} 4 ∧
      (∀ va, translate m 0x2000 va = none) ∧ Upward { tinyMachine 0b11111#8 with mem := m } ∧
      freeCount { tinyMachine 0b11111#8 with mem := m } = 11 := by
  have hmaps : PageMaps (tinyMachine 0b11111#8) {0x2000} fun _ => False :=
    tinyMachine_pageMaps_of (by decide) (by decide)
  have hheld : ∀ k, k = 3 ∨ k = 4 → Held (tinyMachine 0b11111#8) {0x2000} k := by
    intro k hk
    refine ⟨?_, fun ht => ?_, fun a ha hb => ?_⟩
    · rcases hk with rfl | rfl <;> exact ⟨by decide, by decide⟩
    · have heq := Table.of_empty (fun i => tinyMachine_child _ (by decide) i) ht
      simp only [PAGE_SIZE] at heq
      omega
    · simp only [InBitmap, tinyMachine] at hb
      simp only [PAGE_SIZE] at ha
      omega
  obtain ⟨hinv, hused, hkeep, htrans⟩ := hmaps.store_held m fun a ha => by
    refine hm a ?_
    by_contra hin
    refine ha (hheld _ (.inl ?_))
    simp only [PAGE_SIZE]
    omega
  -- the pages in use are those below 5
  obtain ⟨hup, hfree⟩ := pool_of_below (s := tinyMachine 0b11111#8) (n := 5) (by decide)
  obtain ⟨hcount, hupward⟩ : freeCount { tinyMachine 0b11111#8 with mem := m }
      = freeCount (tinyMachine 0b11111#8) ∧ (Upward (tinyMachine 0b11111#8) →
        Upward { tinyMachine 0b11111#8 with mem := m }) := pool_congr hmaps.pmm rfl rfl hused
  refine ⟨hinv, hkeep 3 (hheld 3 (.inl rfl)), hkeep 4 (hheld 4 (.inr rfl)), fun va => ?_,
    hupward hup, hcount.trans hfree⟩
  rw [htrans 0x2000 (Set.mem_singleton _), translate, vaPath, walk, tinyMachine_child _ (by decide)]
  rfl

theorem pageElf_maps (count va : Nat) :
    PageMaps (pageElf count va) {0x2000} (fun _ => False) ∧ Held (pageElf count va) {0x2000} 3 ∧
      Held (pageElf count va) {0x2000} 4 ∧
      (∀ a, translate (pageElf count va).mem 0x2000 a = none) ∧
      Upward (pageElf count va) ∧ freeCount (pageElf count va) = 11 :=
  filePage_maps fun _ => pageElf_mem count va

/-- The second segment is in the page of the first, or in the next one. -/
def secondPlaces : List Nat := [0x400010, 0x401010]

theorem pageElf_segments {va : Nat} (h : va ∈ secondPlaces) :
    programHeaders tinyCall (pageElf 2 va).mem = [firstSegment, secondSegment va] ∧
      segments tinyCall (pageElf 2 va).mem = [firstSegment, secondSegment va] := by
  simp only [secondPlaces, List.mem_cons, List.not_mem_nil, or_false] at h
  rcases h with rfl | rfl <;> exact ⟨by decide +kernel, by decide +kernel⟩

/-- No block is asked for a path. -/
theorem pageElf_path {va : Nat} (h : va ∈ secondPlaces) (a : Nat) :
    ¬ PathBlock tinyCall (pageElf 2 va).mem a := by
  rintro ⟨k, p, -, hp, htype, -⟩
  rw [(pageElf_segments h).1] at hp
  simp only [List.mem_cons, List.not_mem_nil, or_false] at hp
  rcases hp with rfl | rfl
  · cases htype
  · cases htype

theorem pageElf_wellFormed {va : Nat} (h : va ∈ secondPlaces) :
    WellFormed tinyCall (pageElf 2 va) 0x100 := by
  obtain ⟨hmaps, hfile, -⟩ := pageElf_maps 2 va
  obtain ⟨hall, hsegs⟩ := pageElf_segments h
  have hplace : 0x400010 ≤ va ∧ va ≤ 0x401010 := by
    simp only [secondPlaces, List.mem_cons, List.not_mem_nil, or_false] at h
    omega
  have hfit : ∀ p ∈ [firstSegment, secondSegment va],
      p.fileOffset + p.fileSize ≤ 0x100 ∧ SegmentFits tinyCall p := by
    intro p hp
    simp only [List.mem_cons, List.not_mem_nil, or_false] at hp
    rcases hp with rfl | rfl
    · exact ⟨by decide, by decide, by decide, .inl (by decide)⟩
    · refine ⟨show 0xb2 + 1 ≤ 0x100 by decide, by decide, show 1 ≤ 3 by decide, .inl ?_⟩
      simp only [tinyCall, secondSegment]
      omega
  refine ⟨hmaps, fun a h1 h2 => ⟨?_, ?_, pageElf_path h a⟩, by decide, by decide, ?_, ?_, ?_, ?_⟩
  · have hpage : a / PAGE_SIZE = 3 := by
      simp only [tinyCall, PAGE_SIZE] at h1 h2 ⊢
      omega
    rw [hpage]
    exact hfile
  · simp only [HeaderBlock, tinyCall] at h1 h2 ⊢
    omega
  · simp only [secondPlaces, List.mem_cons, List.not_mem_nil, or_false] at h
    rcases h with rfl | rfl <;> decide +kernel
  · intro p hp _
    rw [hall] at hp
    exact (hfit p hp).1
  · intro p hp
    rw [hsegs] at hp
    exact (hfit p hp).2
  · rw [hsegs, List.pairwise_pair]
    rintro a ⟨-, h1⟩ ⟨h2, -⟩
    simp only [firstSegment, secondSegment] at h1 h2
    omega

theorem pageElf_allocates {va : Nat} (h : va ∈ secondPlaces) :
    Allocates tinyCall (pageElf 2 va) := by
  obtain ⟨-, -, hheap, -, hup, hpool⟩ := pageElf_maps 2 va
  have hblocks : Blocks tinyCall (pageElf 2 va) := by
    refine ⟨fun a ha => ?_, fun a ha => absurd ha (pageElf_path h a),
      fun a ha => absurd ha (pageElf_path h a)⟩
    have hpage : a / PAGE_SIZE = 4 := by
      simp only [HeaderBlock, tinyCall, ELF_HEADER_SIZE] at ha
      simp only [PAGE_SIZE]
      omega
    rw [hpage]
    exact hheap
  refine hblocks.allocates (pageElf_wellFormed h) hup ?_ ?_
  · rw [hpool, (pageElf_segments h).2]
    simp only [secondPlaces, List.mem_cons, List.not_mem_nil, or_false] at h
    rcases h with rfl | rfl <;> decide
  · rw [(pageElf_segments h).2]
    simp only [secondPlaces, List.mem_cons, List.not_mem_nil, or_false] at h
    rcases h with rfl | rfl <;> decide

theorem pageElf_noSections {va : Nat} (h : va ∈ secondPlaces) :
    (fileHeader tinyCall (pageElf 2 va).mem).sectionHeaderTableEntryCount = 0 := by
  simp only [secondPlaces, List.mem_cons, List.not_mem_nil, or_false] at h
  rcases h with rfl | rfl <;> decide +kernel

end BestOS
