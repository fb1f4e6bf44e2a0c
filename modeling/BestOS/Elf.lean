/-
BestOS/Elf.lean

The program loader, `kernel/elf.c`.

The file is read from memory at `elf_base`, header by header, as the loops leave
it: the copy of the ELF header is read again in every round, and so is each
program header.  Nothing is checked.  A pointer into one of the kernel's windows
is modelled by the physical address behind it, as in `Vmm`.

Outside are the addresses `malloc` returns (`ElfCall.malloc`, given the number of
earlier calls and the size; 0 is NULL) and what it keeps in front of its blocks.
Beside the state the loader carries a record, which nobody reads: where it has
stored, itself and in `vmm_map` and `pmm_allocate_zero`, and what the allocators
had given it by then.
-/
import BestOS.Vmm

namespace BestOS

open ByteMemory

/-! ### Headers -/

def ELF_PROGRAM_HEADER_LOAD : Nat := 1
def ELF_PROGRAM_HEADER_INTERPRET : Nat := 3
def ELF_SECTION_HEADER_NOBITS : Nat := 8

/-- `sizeof(Elf64Header)`. -/
def ELF_HEADER_SIZE : Nat := 64

/-- `sizeof(Elf64ProgramHeader)`. -/
def ELF_PROGRAM_HEADER_SIZE : Nat := 56

/-- `sizeof(Elf64SectionHeader)`. -/
def ELF_SECTION_HEADER_SIZE : Nat := 64

/-- The fields of an `Elf64Header` that the loader reads. -/
structure ElfHeader where
  entry : Nat
  programHeaderTableFileOffset : Nat
  sectionHeaderTableFileOffset : Nat
  programHeaderTableEntrySize : Nat
  programHeaderTableEntryCount : Nat
  sectionHeaderTableEntryCount : Nat

def readElfHeader (m : Mem) (a : Nat) : ElfHeader where
  entry := readLE m (a + 24) 8
  programHeaderTableFileOffset := readLE m (a + 32) 8
  sectionHeaderTableFileOffset := readLE m (a + 40) 8
  programHeaderTableEntrySize := readLE m (a + 54) 2
  programHeaderTableEntryCount := readLE m (a + 56) 2
  sectionHeaderTableEntryCount := readLE m (a + 60) 2

/-- The fields of an `Elf64ProgramHeader` that the loader reads. -/
structure ProgramHeader where
  type : Nat
  fileOffset : Nat
  virtualAddress : Nat
  fileSize : Nat
  memorySize : Nat
  deriving DecidableEq

def readProgramHeader (m : Mem) (a : Nat) : ProgramHeader where
  type := readLE m a 4
  fileOffset := readLE m (a + 8) 8
  virtualAddress := readLE m (a + 16) 8
  fileSize := readLE m (a + 32) 8
  memorySize := readLE m (a + 40) 8

/-- The fields of an `Elf64SectionHeader` that the loader reads. -/
structure SectionHeader where
  type : Nat
  flags : Nat
  entrySize : Nat

def readSectionHeader (m : Mem) (a : Nat) : SectionHeader where
  type := readLE m (a + 4) 4
  flags := readLE m (a + 8) 8
  entrySize := readLE m (a + 56) 8

namespace ProgramHeader

/-- `misalign`. -/
def misalign (p : ProgramHeader) : Nat := p.virtualAddress &&& (PAGE_SIZE - 1)

/-- `page_count`, by `DIV_ROUNDUP` in 64 bits. -/
def pageCount (p : ProgramHeader) : Nat :=
  (p.misalign + p.memorySize + (PAGE_SIZE - 1)) % 2 ^ 64 / PAGE_SIZE

/-- `memory_size - file_size`, in 64 bits. -/
def tail (p : ProgramHeader) : Nat := (p.memorySize + 2 ^ 64 - p.fileSize) % 2 ^ 64

end ProgramHeader

/-- A section header for which `elf_load_program` takes a block. -/
def SectionHeader.Reset (h : SectionHeader) : Prop :=
  h.type = ELF_SECTION_HEADER_NOBITS ∧ h.entrySize ≠ 0 ∧ h.flags &&& 0x02 ≠ 0

instance (h : SectionHeader) : Decidable h.Reset := inferInstanceAs (Decidable (_ ∧ _ ∧ _))

/-! ### The state of the loader -/

/-- `size` bytes from `start` on. -/
structure Range where
  start : Nat
  size : Nat
  deriving DecidableEq

instance : Membership Nat Range := ⟨fun r a => r.start ≤ a ∧ a < r.start + r.size⟩

theorem Range.mem_iff (r : Range) (a : Nat) : a ∈ r ↔ r.start ≤ a ∧ a < r.start + r.size := Iff.rfl

/-- The arguments of a call.  `wantsLd` says that `ld_path` is not NULL. -/
structure ElfCall where
  elfBase : Nat
  base : Nat
  pagemap : Nat
  wantsLd : Bool
  malloc : Nat → Nat → Nat

/-- The ranges that were stored to, each with what the allocators had given the call by
then, and what they have given it. -/
structure Record where
  stored : List (Range × List Range)
  owned : List Range

namespace Record

def store (r : Record) (start size : Nat) : Record :=
  { r with stored := (⟨start, size⟩, r.owned) :: r.stored }

/-- A block or range of frames from an allocator; NULL is none. -/
def own (r : Record) (start size : Nat) : Record :=
  { r with owned := if start = 0 then r.owned else ⟨start, size⟩ :: r.owned }

/-- `set_pages`: the byte of the bitmap, for each page. -/
def setPages (r : Record) (s : Machine) (addr : Nat) : Nat → Record
  | 0 => r
  | i + 1 =>
    (r.setPages s addr i).store
      (s.bitmap.data + (addr + i * PAGE_SIZE) % 2 ^ 64 / PAGE_SIZE / 8) 1

/-- `pmm_allocate`, which takes the lowest free page and those behind it. -/
def allocate (r : Record) (s : Machine) (pages : Nat) : Record :=
  if pages > s.bitmap.size then r
  else
    match firstFree s with
    | none => r
    | some i => r.setPages s (i * PAGE_SIZE) pages

/-- `pmm_allocate_zero`: what `pmm_allocate` returns is cleared, also if it is NULL. -/
def allocateZero (r : Record) (s : Machine) (pages : Nat) : Record :=
  let addr := (pmmAllocate s pages).1
  ((r.allocate s pages).own addr (pages * PAGE_SIZE)).store addr (pages * PAGE_SIZE % 2 ^ 64)

/-- `get_next_level`, which assigns an entry that is not present twice. -/
def nextLevel (r : Record) (s : Machine) (table index : Nat) : Record :=
  if entry s.mem table index &&& 1 = 0 then
    ((r.allocateZero s 1).store (table + 8 * index) 8).store (table + 8 * index) 8
  else r

/-- `vmm_map`. -/
def map (r : Record) (s : Machine) (pagemap va flags : Nat) : Record :=
  let pml3 := getNextLevel s pagemap (pmlEntry va 39) flags
  let pml2 := getNextLevel pml3.2 pml3.1 (pmlEntry va 30) flags
  let pml1 := getNextLevel pml2.2 pml2.1 (pmlEntry va 21) flags
  let r := r.nextLevel s pagemap (pmlEntry va 39)
  let r := r.nextLevel pml3.2 pml3.1 (pmlEntry va 30)
  let r := r.nextLevel pml2.2 pml2.1 (pmlEntry va 21)
  r.store (pml1.1 + 8 * pmlEntry va 12) 8

/-- Successive calls of `vmm_map`. -/
def mapPages (r : Record) (s : Machine) (pagemap flags : Nat) : List (Nat × Nat) → Record
  | [] => r
  | p :: pages =>
    (r.map s pagemap p.2 flags).mapPages (vmmMap s pagemap p.1 p.2 flags) pagemap flags pages

end Record

structure Loader where
  machine : Machine
  elfHeader : Nat
  progHeader : Nat
  atPhdr : Nat
  ldPath : Nat
  mallocs : Nat
  record : Record

namespace Loader

/-- The header, as the copy holds it now. -/
def header (l : Loader) : ElfHeader := readElfHeader l.machine.mem l.elfHeader

/-- The program header that `prog_header` points to. -/
def current (l : Loader) : ProgramHeader := readProgramHeader l.machine.mem l.progHeader

def malloc (c : ElfCall) (l : Loader) (size : Nat) : Nat × Loader :=
  let p := c.malloc l.mallocs size
  (p, { l with
    mallocs := l.mallocs + 1
    record := l.record.own p size })

/-- `memcpy(dest, src, n)`. -/
def copy (l : Loader) (dest src n : Nat) : Loader :=
  { l with
    machine := { l.machine with mem := memcpy l.machine.mem dest src n }
    record := l.record.store dest n }

/-- `memset(dest, 0, n)`. -/
def clear (l : Loader) (dest n : Nat) : Loader :=
  { l with
    machine := { l.machine with mem := memset l.machine.mem dest 0#8 n }
    record := l.record.store dest n }

/-- An assignment to a field of `n` bytes. -/
def assign (l : Loader) (dest n v : Nat) : Loader :=
  { l with
    machine := { l.machine with mem := writeLE l.machine.mem dest n v }
    record := l.record.store dest n }

end Loader

/-! ### `elf_load_program` -/

/-- The header is copied. -/
def elfBegin (c : ElfCall) (s : Machine) : Loader :=
  let l : Loader :=
    { machine := s
      elfHeader := 0
      progHeader := 0
      atPhdr := 0
      ldPath := 0
      mallocs := 0
      record := ⟨[], []⟩ }
  let r := l.malloc c ELF_HEADER_SIZE
  let l := { r.2 with elfHeader := r.1 }.copy r.1 c.elfBase ELF_HEADER_SIZE
  { l with progHeader := (c.elfBase + l.header.programHeaderTableFileOffset) % 2 ^ 64 }

/-- `ELF_PROGRAM_HEADER_INTERPRET`, with `ld_path`. -/
def loadInterpret (c : ElfCall) (l : Loader) (p : ProgramHeader) : Loader :=
  let r := l.malloc c ((p.fileSize + 1) % 2 ^ 64)
  let l := { r.2 with ldPath := r.1 }
  let l := l.copy l.ldPath ((c.elfBase + p.fileOffset) % 2 ^ 64) p.fileSize
  l.assign ((l.ldPath + p.fileSize) % 2 ^ 64) 1 0

/-- The pages that the loop over `j` maps. -/
def segmentPages (c : ElfCall) (p : ProgramHeader) (newAddr : Nat) : List (Nat × Nat) :=
  (List.range p.pageCount).map fun j =>
    (j * PAGE_SIZE + newAddr, (c.base + j * PAGE_SIZE + p.virtualAddress) % 2 ^ 64)

/-- `ELF_PROGRAM_HEADER_LOAD`.  A NULL from the allocator is mapped and written to
all the same. -/
def loadSegment (c : ElfCall) (l : Loader) (p : ProgramHeader) : Loader :=
  let r := pmmAllocateZero l.machine p.pageCount
  let newAddr := r.1
  let pages := segmentPages c p newAddr
  let l := { l with
    machine := mapPages r.2 c.pagemap 0b111 pages
    record := (l.record.allocateZero l.machine p.pageCount).mapPages r.2 c.pagemap 0b111 pages }
  -- through the direct map, not through the pages just mapped
  let l := l.copy (newAddr + p.misalign) ((c.elfBase + p.fileOffset) % 2 ^ 64) p.fileSize
  l.clear ((newAddr + p.misalign + p.fileSize) % 2 ^ 64) p.tail

/-- One round of the first loop, without the step to the next header; `none` is
the `break`. -/
def loadEntry (c : ElfCall) (l : Loader) : Option Loader :=
  let p := l.current
  if p.type = ELF_PROGRAM_HEADER_INTERPRET then
    if c.wantsLd then some (loadInterpret c l p) else none
  else if p.type = 6 then
    -- the table of program headers itself
    some { l with atPhdr := (c.base + p.virtualAddress) % 2 ^ 64 }
  else if p.type = ELF_PROGRAM_HEADER_LOAD then
    some (loadSegment c l p)
  else some l

/-- The step to the next header. -/
def nextHeader (l : Loader) : Loader :=
  { l with progHeader := (l.progHeader + l.header.programHeaderTableEntrySize) % 2 ^ 64 }

/-- The first loop, from round `i` on, for at most `fuel` rounds. -/
def loadEntries (c : ElfCall) : Nat → Nat → Loader → Loader
  | 0, _, l => l
  | fuel + 1, i, l =>
    if i < l.header.programHeaderTableEntryCount then
      match loadEntry c l with
      | none => l
      | some l => loadEntries c fuel (i + 1) (nextHeader l)
    else l

/-- `shdr`: the offset is counted in headers, not in bytes. -/
def sectionHeaders (l : Loader) : Nat :=
  (l.elfHeader + ELF_HEADER_SIZE * l.header.sectionHeaderTableFileOffset) % 2 ^ 64

/-- `&shdr[i]`. -/
def sectionSlot (shdr i : Nat) : Nat := (shdr + ELF_SECTION_HEADER_SIZE * i) % 2 ^ 64

/-- One round of the second loop, at the section header at `a`. -/
def resetSection (c : ElfCall) (l : Loader) (a : Nat) : Loader :=
  let h := readSectionHeader l.machine.mem a
  if h.Reset then
    let r := l.malloc c h.entrySize
    let l := r.2.clear r.1 h.entrySize
    -- `section->file_offset`
    l.assign (a + 24) 8 ((r.1 + 2 ^ 64 - l.elfHeader) % 2 ^ 64)
  else l

/-- The second loop, from round `i` on, for at most `fuel` rounds. -/
def resetSections (c : ElfCall) (shdr : Nat) : Nat → Nat → Loader → Loader
  | 0, _, l => l
  | fuel + 1, i, l =>
    if i < l.header.sectionHeaderTableEntryCount then
      resetSections c shdr fuel (i + 1) (resetSection c l (sectionSlot shdr i))
    else l

/-- The counts have 16 bits. -/
@[irreducible] def maxHeaders : Nat := 2 ^ 16

/-- `Auxval`. -/
structure Auxval where
  atEntry : BitVec 64
  atPhdr : BitVec 64
  atPhent : BitVec 64
  atPhnum : BitVec 64

structure ElfResult where
  ret : Nat
  auxval : Auxval
  loader : Loader

/-- `elf_load_program`. -/
def elfLoadProgram (c : ElfCall) (s : Machine) : ElfResult :=
  let l₀ := elfBegin c s
  let l₁ := loadEntries c maxHeaders 0 l₀
  let l₂ := resetSections c (sectionHeaders l₁) maxHeaders 0 l₁
  { ret := (c.base + l₂.header.entry) % 2 ^ 64
    auxval :=
      { atEntry := BitVec.ofNat 64 (c.base + l₁.header.entry)
        atPhdr := BitVec.ofNat 64 l₁.atPhdr
        atPhent := BitVec.ofNat 64 ELF_PROGRAM_HEADER_SIZE
        atPhnum := BitVec.ofNat 64 l₀.header.programHeaderTableEntryCount }
    loader := l₂ }

@[simp] theorem nextHeader_header (l : Loader) : (nextHeader l).header = l.header := rfl

/-- What a round can do. -/
theorem loadEntry_cases {c : ElfCall} {l l' : Loader} (h : loadEntry c l = some l') :
    (l.current.type = ELF_PROGRAM_HEADER_INTERPRET ∧ c.wantsLd = true ∧
      l' = loadInterpret c l l.current) ∨
    (l.current.type = ELF_PROGRAM_HEADER_LOAD ∧ l' = loadSegment c l l.current) ∨
    (l.current.type ≠ ELF_PROGRAM_HEADER_INTERPRET ∧ l.current.type ≠ ELF_PROGRAM_HEADER_LOAD ∧
      ∃ a, l' = { l with atPhdr := a }) := by
  unfold loadEntry at h
  generalize l.current = p at *
  simp only at h
  by_cases hint : p.type = ELF_PROGRAM_HEADER_INTERPRET
  · rw [if_pos hint] at h
    by_cases hld : c.wantsLd = true
    · rw [if_pos hld] at h
      exact .inl ⟨hint, hld, (Option.some.inj h).symm⟩
    · rw [if_neg hld] at h
      cases h
  rw [if_neg hint] at h
  by_cases hphdr : p.type = 6
  · rw [if_pos hphdr] at h
    exact .inr (.inr ⟨hint, by rw [hphdr]; decide, _, (Option.some.inj h).symm⟩)
  rw [if_neg hphdr] at h
  by_cases hload : p.type = ELF_PROGRAM_HEADER_LOAD
  · rw [if_pos hload] at h
    exact .inr (.inl ⟨hload, (Option.some.inj h).symm⟩)
  · rw [if_neg hload] at h
    exact .inr (.inr ⟨hint, hload, l.atPhdr, (Option.some.inj h).symm⟩)

/-- The loop is left at an interpreter, without `ld_path`. -/
theorem loadEntry_none {c : ElfCall} {l : Loader} (h : loadEntry c l = none) :
    l.current.type = ELF_PROGRAM_HEADER_INTERPRET ∧ c.wantsLd = false := by
  unfold loadEntry at h
  generalize l.current = p at *
  simp only at h
  by_cases hint : p.type = ELF_PROGRAM_HEADER_INTERPRET
  · rw [if_pos hint] at h
    by_cases hld : c.wantsLd = true
    · rw [if_pos hld] at h
      cases h
    · exact ⟨hint, by simpa using hld⟩
  · rw [if_neg hint] at h
    split at h
    · cases h
    · split at h <;> cases h

theorem loadInterpret_mem (c : ElfCall) (l : Loader) (p : ProgramHeader) :
    (loadInterpret c l p).machine =
      { l.machine with
        mem := writeLE (memcpy l.machine.mem (c.malloc l.mallocs ((p.fileSize + 1) % 2 ^ 64))
            ((c.elfBase + p.fileOffset) % 2 ^ 64) p.fileSize)
          ((c.malloc l.mallocs ((p.fileSize + 1) % 2 ^ 64) + p.fileSize) % 2 ^ 64) 1 0 } := rfl

theorem loadSegment_mem (c : ElfCall) (l : Loader) (p : ProgramHeader) :
    (loadSegment c l p).machine =
      { mapPages (pmmAllocateZero l.machine p.pageCount).2 c.pagemap 0b111
          (segmentPages c p (pmmAllocateZero l.machine p.pageCount).1) with
        mem := memset (memcpy (mapPages (pmmAllocateZero l.machine p.pageCount).2 c.pagemap 0b111
            (segmentPages c p (pmmAllocateZero l.machine p.pageCount).1)).mem
            ((pmmAllocateZero l.machine p.pageCount).1 + p.misalign)
            ((c.elfBase + p.fileOffset) % 2 ^ 64) p.fileSize)
          (((pmmAllocateZero l.machine p.pageCount).1 + p.misalign + p.fileSize) % 2 ^ 64) 0#8
          p.tail } := rfl

theorem loadInterpret_pointers (c : ElfCall) (l : Loader) (p : ProgramHeader) :
    (loadInterpret c l p).elfHeader = l.elfHeader ∧
      (loadInterpret c l p).progHeader = l.progHeader ∧
      l.mallocs ≤ (loadInterpret c l p).mallocs := by
  unfold loadInterpret Loader.malloc Loader.copy Loader.assign
  exact ⟨rfl, rfl, Nat.le_succ _⟩

theorem loadSegment_pointers (c : ElfCall) (l : Loader) (p : ProgramHeader) :
    (loadSegment c l p).elfHeader = l.elfHeader ∧
      (loadSegment c l p).progHeader = l.progHeader ∧
      (loadSegment c l p).mallocs = l.mallocs := by
  unfold loadSegment Loader.copy Loader.clear
  exact ⟨rfl, rfl, rfl⟩

theorem resetSection_same {c : ElfCall} {l : Loader} {a : Nat}
    (h : ¬ (readSectionHeader l.machine.mem a).Reset) : resetSection c l a = l := by
  unfold resetSection
  exact if_neg h

theorem resetSection_mem {c : ElfCall} {l : Loader} {a : Nat}
    (h : (readSectionHeader l.machine.mem a).Reset) :
    ∃ v, (resetSection c l a).machine =
      { l.machine with
        mem := writeLE (memset l.machine.mem
          (c.malloc l.mallocs (readSectionHeader l.machine.mem a).entrySize) 0#8
          (readSectionHeader l.machine.mem a).entrySize) (a + 24) 8 v } := by
  unfold resetSection
  generalize readSectionHeader l.machine.mem a = header at h ⊢
  dsimp only
  rw [if_pos h]
  exact ⟨_, rfl⟩

theorem loadEntries_next {c : ElfCall} {i : Nat} {l l' : Loader}
    (hi : i < l.header.programHeaderTableEntryCount) (h : loadEntry c l = some l') (fuel : Nat) :
    loadEntries c (fuel + 1) i l = loadEntries c fuel (i + 1) (nextHeader l') := by
  rw [loadEntries, if_pos hi, h]

theorem loadEntries_break {c : ElfCall} {l : Loader} (h : loadEntry c l = none) (fuel i : Nat) :
    loadEntries c fuel i l = l := by
  cases fuel with
  | zero => rfl
  | succ fuel =>
    rw [loadEntries, h]
    split <;> rfl

theorem loadEntries_end {c : ElfCall} {i : Nat} {l : Loader}
    (hi : ¬ i < l.header.programHeaderTableEntryCount) (fuel : Nat) :
    loadEntries c fuel i l = l := by
  cases fuel with
  | zero => rfl
  | succ fuel => rw [loadEntries, if_neg hi]

theorem resetSections_end {c : ElfCall} {i : Nat} {l : Loader}
    (hi : ¬ i < l.header.sectionHeaderTableEntryCount) (shdr fuel : Nat) :
    resetSections c shdr fuel i l = l := by
  cases fuel with
  | zero => rfl
  | succ fuel => rw [resetSections, if_neg hi]

/-- The first loop ends before its fuel does. -/
theorem loadEntries_fuel (c : ElfCall) {fuel i : Nat} (h : maxHeaders ≤ i + fuel) (more : Nat)
    (l : Loader) : loadEntries c (fuel + more) i l = loadEntries c fuel i l := by
  induction fuel generalizing i l with
  | zero =>
    cases more with
    | zero => rfl
    | succ more =>
      have hcount : l.header.programHeaderTableEntryCount < 256 ^ 2 := readLE_lt _ _ _
      unfold maxHeaders at h
      show (if i < l.header.programHeaderTableEntryCount then _ else l) = l
      rw [if_neg (by omega)]
  | succ fuel ih =>
    rw [Nat.succ_add]
    unfold loadEntries
    split
    · cases loadEntry c l with
      | none => rfl
      | some l' => exact ih (by omega) (nextHeader l')
    · rfl

/-- And so does the second. -/
theorem resetSections_fuel (c : ElfCall) (shdr : Nat) {fuel i : Nat} (h : maxHeaders ≤ i + fuel)
    (more : Nat) (l : Loader) :
    resetSections c shdr (fuel + more) i l = resetSections c shdr fuel i l := by
  induction fuel generalizing i l with
  | zero =>
    cases more with
    | zero => rfl
    | succ more =>
      have hcount : l.header.sectionHeaderTableEntryCount < 256 ^ 2 := readLE_lt _ _ _
      unfold maxHeaders at h
      show (if i < l.header.sectionHeaderTableEntryCount then _ else l) = l
      rw [if_neg (by omega)]
  | succ fuel ih =>
    rw [Nat.succ_add]
    unfold resetSections
    split
    · exact ih (by omega) _
    · rfl

end BestOS
