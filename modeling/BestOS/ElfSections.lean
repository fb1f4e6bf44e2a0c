/-
BestOS/ElfSections.lean

The section headers that the loader looks at.

`elf_load_program` adds the file offset of the table to `elf_header`, which points to the
copy of the header on the heap, and it adds it as a number of headers: the table it walks
through begins `64 * e_shoff` bytes behind the copy.  Slot by slot it is the table of the
file exactly where the two happen to be in the same place (`section_headers_iff`).

The count is read from the copy again in every round.  It never grows, whatever blocks
`malloc` returns, because a round clears its block and otherwise stores to the header it
looks at (`resetSection_count_le`).
-/
import BestOS.ElfImage

namespace BestOS

open ByteMemory

/-! ### The headers inspected -/

/-- The addresses of the section headers that `resetSections` goes through. -/
def inspected (c : ElfCall) (shdr : Nat) : Nat → Nat → Loader → List Nat
  | 0, _, _ => []
  | fuel + 1, i, l =>
    if i < l.header.sectionHeaderTableEntryCount then
      sectionSlot shdr i :: inspected c shdr fuel (i + 1) (resetSection c l (sectionSlot shdr i))
    else []

/-- Those of a call. -/
def sectionAccesses (c : ElfCall) (s : Machine) : List Nat :=
  inspected c (sectionHeaders (elfLoaded c s)) maxHeaders 0 (elfLoaded c s)

/-- Where section header `i` is in the file. -/
def sectionAddress (c : ElfCall) (m : Mem) (i : Nat) : Nat :=
  c.elfBase + (fileHeader c m).sectionHeaderTableFileOffset + i * ELF_SECTION_HEADER_SIZE

/-- Every header inspected is the one of the file, and lies in the file. -/
structure SectionsOfFile (c : ElfCall) (s : Machine) (size : Nat) : Prop where
  address : ∀ i a, (sectionAccesses c s)[i]? = some a → a = sectionAddress c s.mem i
  inside : ∀ a ∈ sectionAccesses c s,
    c.elfBase ≤ a ∧ a + ELF_SECTION_HEADER_SIZE ≤ c.elfBase + size

/-- The slots are taken in order. -/
theorem inspected_slot {c : ElfCall} {shdr fuel i k a : Nat} {l : Loader}
    (h : (inspected c shdr fuel i l)[k]? = some a) : a = sectionSlot shdr (i + k) := by
  induction fuel generalizing i k l with
  | zero => cases h
  | succ fuel ih =>
    unfold inspected at h
    split at h
    · cases k with
      | zero => exact (Option.some.inj h).symm
      | succ k =>
        have hnext := ih h
        rwa [Nat.add_right_comm] at hnext
    · cases h

/-! ### The count -/

/-- The bytes of the count in the copy. -/
theorem sectionCount_eq (l : Loader) :
    l.header.sectionHeaderTableEntryCount = readLE l.machine.mem (l.elfHeader + 60) 2 := rfl

theorem resetSection_elfHeader (c : ElfCall) (l : Loader) (a : Nat) :
    (resetSection c l a).elfHeader = l.elfHeader := by
  unfold resetSection
  generalize readSectionHeader l.machine.mem a = header
  dsimp only
  split
  · rfl
  · rfl

/-- **A round does not raise the count**: the block is cleared, and the header is apart from
the copy. -/
theorem resetSection_count_le {c : ElfCall} {l : Loader} {a : Nat}
    (h : ∀ x < 2, ¬ l.elfHeader + 60 + x ∈ (⟨a + 24, 8⟩ : Range)) :
    (resetSection c l a).header.sectionHeaderTableEntryCount
      ≤ l.header.sectionHeaderTableEntryCount := by
  by_cases hreset : (readSectionHeader l.machine.mem a).Reset
  · obtain ⟨v, hmem⟩ := resetSection_mem (c := c) hreset
    rw [sectionCount_eq, sectionCount_eq, resetSection_elfHeader, hmem]
    refine readLE_le fun x hx => ?_
    have hout := h x hx
    rw [Range.mem_iff] at hout
    dsimp only at hout ⊢
    rw [writeLE_agree _ _ _ _ (by omega), memset_apply]
    split
    · exact Nat.zero_le _
    · exact Nat.le_refl _
  · rw [resetSection_same hreset]

/-- So no more headers are inspected than the count says. -/
theorem inspected_lt {c : ElfCall} {shdr fuel i k a n : Nat} {l : Loader}
    (hapart : ∀ j < n, ∀ x < 2, ¬ l.elfHeader + 60 + x ∈ (⟨sectionSlot shdr j + 24, 8⟩ : Range))
    (hcount : l.header.sectionHeaderTableEntryCount ≤ n)
    (h : (inspected c shdr fuel i l)[k]? = some a) : i + k < n := by
  induction fuel generalizing i k l with
  | zero => cases h
  | succ fuel ih =>
    unfold inspected at h
    split at h
    · next hi =>
      cases k with
      | zero => omega
      | succ k =>
        have hle := resetSection_count_le (c := c) (hapart i (by omega))
        have hnext := ih (by rwa [resetSection_elfHeader]) (hle.trans hcount) h
        omega
    · cases h

/-! ### A well-formed file -/

section

variable {c : ElfCall} {s : Machine} {size : Nat}

/-- The first loop leaves the copy as it is. -/
theorem elfLoaded_header (hw : WellFormed c s size) (ha : Allocates c s) :
    (elfLoaded c s).header = fileHeader c s.mem ∧
      (elfLoaded c s).elfHeader = c.malloc 0 ELF_HEADER_SIZE := by
  obtain ⟨j, himage, -⟩ := elfLoaded_image hw ha
  exact ⟨himage.header, himage.copy⟩

/-- Where the table that is walked through begins: it is counted from the copy, in headers. -/
def copyTable (c : ElfCall) (m : Mem) : Nat :=
  (c.malloc 0 ELF_HEADER_SIZE
    + ELF_HEADER_SIZE * (fileHeader c m).sectionHeaderTableFileOffset) % 2 ^ 64

theorem sectionHeaders_elfLoaded (hw : WellFormed c s size) (ha : Allocates c s) :
    sectionHeaders (elfLoaded c s) = copyTable c s.mem := by
  obtain ⟨hheader, hcopy⟩ := elfLoaded_header hw ha
  rw [sectionHeaders, hheader, hcopy, copyTable]

/-- The first header inspected. -/
theorem sectionAccesses_first (hw : WellFormed c s size) (ha : Allocates c s)
    (h : (fileHeader c s.mem).sectionHeaderTableEntryCount ≠ 0) :
    (sectionAccesses c s)[0]? = some (copyTable c s.mem) := by
  have hslot : sectionSlot (copyTable c s.mem) 0 = copyTable c s.mem := by
    rw [sectionSlot, Nat.mul_zero, Nat.add_zero]
    exact Nat.mod_eq_of_lt (Nat.mod_lt _ (by decide))
  unfold sectionAccesses maxHeaders
  rw [sectionHeaders_elfLoaded hw ha, show (2 ^ 16 : Nat) = 65535 + 1 from rfl, inspected,
    if_pos (by rw [(elfLoaded_header hw ha).1]; omega), hslot]
  rfl

/-- Where the two tables are one, the slots are the headers of the file, and in the file. -/
theorem sectionSlot_eq (hw : WellFormed c s size)
    (htable : (fileHeader c s.mem).sectionHeaderTableFileOffset
      + (fileHeader c s.mem).sectionHeaderTableEntryCount * ELF_SECTION_HEADER_SIZE ≤ size)
    (hsame : copyTable c s.mem = c.elfBase + (fileHeader c s.mem).sectionHeaderTableFileOffset)
    {i : Nat} (hi : i < (fileHeader c s.mem).sectionHeaderTableEntryCount) :
    sectionSlot (copyTable c s.mem) i = sectionAddress c s.mem i ∧
      c.elfBase ≤ sectionAddress c s.mem i ∧
      sectionAddress c s.mem i + ELF_SECTION_HEADER_SIZE ≤ c.elfBase + size := by
  have hbelow := hw.below
  unfold sectionSlot sectionAddress
  simp only [ELF_SECTION_HEADER_SIZE] at htable ⊢
  rw [hsame, Nat.mul_comm 64 i, Nat.mod_eq_of_lt (by omega)]
  omega

/-- The copy is not in the file, so the count stays what it is in the file. -/
theorem sectionAccesses_lt (hw : WellFormed c s size) (ha : Allocates c s)
    (htable : (fileHeader c s.mem).sectionHeaderTableFileOffset
      + (fileHeader c s.mem).sectionHeaderTableEntryCount * ELF_SECTION_HEADER_SIZE ≤ size)
    (hsame : (fileHeader c s.mem).sectionHeaderTableEntryCount ≠ 0 →
      copyTable c s.mem = c.elfBase + (fileHeader c s.mem).sectionHeaderTableFileOffset)
    {i a : Nat} (hi : (sectionAccesses c s)[i]? = some a) :
    i < (fileHeader c s.mem).sectionHeaderTableEntryCount := by
  obtain ⟨hheader, hcopy⟩ := elfLoaded_header hw ha
  unfold sectionAccesses at hi
  rw [sectionHeaders_elfLoaded hw ha] at hi
  have hless := inspected_lt (fun j hj x hx hin => ?_) (Nat.le_of_eq (by rw [hheader])) hi
  · omega
  · obtain ⟨hslot, h1, h2⟩ := sectionSlot_eq hw htable (hsame (by omega)) hj
    rw [hslot, hcopy, Range.mem_iff] at hin
    dsimp only [ELF_SECTION_HEADER_SIZE] at hin h2
    refine (hw.file _ (by omega) (by omega)).header (a := c.malloc 0 ELF_HEADER_SIZE + 60 + x) ?_
    unfold HeaderBlock
    simp only [ELF_HEADER_SIZE]
    omega

/-- **Which section headers are read.**  For every well-formed file whose table of section
headers is in bounds, the headers inspected are those of the file, and in the file, if and
only if there are none, or `64 * e_shoff` from the copy and `e_shoff` from the file come to the
same place. -/
theorem section_headers_iff (hw : WellFormed c s size) (ha : Allocates c s)
    (htable : (fileHeader c s.mem).sectionHeaderTableFileOffset
      + (fileHeader c s.mem).sectionHeaderTableEntryCount * ELF_SECTION_HEADER_SIZE ≤ size) :
    SectionsOfFile c s size ↔
      (fileHeader c s.mem).sectionHeaderTableEntryCount = 0 ∨
        copyTable c s.mem = c.elfBase + (fileHeader c s.mem).sectionHeaderTableFileOffset := by
  constructor
  · intro h
    by_cases hzero : (fileHeader c s.mem).sectionHeaderTableEntryCount = 0
    · exact .inl hzero
    · have haddr := h.address 0 _ (sectionAccesses_first hw ha hzero)
      rw [sectionAddress, Nat.zero_mul, Nat.add_zero] at haddr
      exact .inr haddr
  · intro h
    have hslot : ∀ i a, (sectionAccesses c s)[i]? = some a → a = sectionAddress c s.mem i ∧
        c.elfBase ≤ sectionAddress c s.mem i ∧
        sectionAddress c s.mem i + ELF_SECTION_HEADER_SIZE ≤ c.elfBase + size := by
      intro i a hi
      have hlt := sectionAccesses_lt hw ha htable h.resolve_left hi
      obtain ⟨heq, hbounds⟩ := sectionSlot_eq hw htable (h.resolve_left (by omega)) hlt
      have hat := inspected_slot hi
      rw [sectionHeaders_elfLoaded hw ha, Nat.zero_add, heq] at hat
      exact ⟨hat, hbounds⟩
    refine ⟨fun i a hi => (hslot i a hi).1, fun a ha => ?_⟩
    obtain ⟨i, hi⟩ := List.getElem?_of_mem ha
    obtain ⟨rfl, hbounds⟩ := hslot i a hi
    exact hbounds

end

/-! ### A file with one section header -/

/-- A file without program headers and with an empty section header at 0x30c0. -/
def sectionElf : Machine :=
  { pageElf 0 0x400010 with
    mem := writeLE (writeLE (pageElf 0 0x400010).mem (0x3000 + 40) 8 0xc0) (0x3000 + 60) 2 1 }

theorem sectionElf_headers :
    (fileHeader tinyCall sectionElf.mem).sectionHeaderTableFileOffset = 0xc0 ∧
      (fileHeader tinyCall sectionElf.mem).sectionHeaderTableEntryCount = 1 ∧
      (fileHeader tinyCall sectionElf.mem).programHeaderTableEntryCount = 0 := by
  decide +kernel

theorem sectionElf_programHeaders : programHeaders tinyCall sectionElf.mem = [] := by
  rw [programHeaders, sectionElf_headers.2.2]
  rfl

theorem sectionElf_path (a : Nat) : ¬ PathBlock tinyCall sectionElf.mem a := by
  rintro ⟨k, p, -, hp, -⟩
  rw [sectionElf_programHeaders] at hp
  cases hp

theorem sectionElf_held : PageMaps sectionElf {0x2000} (fun _ => False) ∧
    Held sectionElf {0x2000} 3 ∧ Held sectionElf {0x2000} 4 := by
  obtain ⟨hmaps, hfile, hheap, -⟩ := pageElf_maps 0 0x400010
  obtain ⟨hinv, -, hkeep, -⟩ := hmaps.store_held sectionElf.mem fun a ha => by
    by_contra hne
    refine ha ?_
    have hpage : a / PAGE_SIZE = 3 := by
      by_contra hout
      simp only [PAGE_SIZE] at hout
      exact hne (by
        unfold sectionElf
        simp only
        rw [writeLE_agree _ _ _ _ (by omega), writeLE_agree _ _ _ _ (by omega)])
    rw [hpage]
    exact hfile
  exact ⟨hinv, hkeep 3 hfile, hkeep 4 hheap⟩

theorem sectionElf_wellFormed : WellFormed tinyCall sectionElf 0x100 := by
  obtain ⟨hmaps, hfile, -⟩ := sectionElf_held
  have hnone := sectionElf_programHeaders
  have hsegs : segments tinyCall sectionElf.mem = [] := by
    rw [segments, hnone]
    rfl
  refine ⟨hmaps, fun a h1 h2 => ⟨?_, ?_, sectionElf_path a⟩, by decide, by decide, ?_, ?_, ?_, ?_⟩
  · have hpage : a / PAGE_SIZE = 3 := by
      simp only [tinyCall, PAGE_SIZE] at h1 h2 ⊢
      omega
    rw [hpage]
    exact hfile
  · simp only [HeaderBlock, tinyCall] at h1 h2 ⊢
    omega
  · intro i hi
    rw [sectionElf_headers.2.2] at hi
    omega
  · rw [hnone]
    simp
  · rw [hsegs]
    simp
  · rw [hsegs]
    exact .nil

theorem sectionElf_allocates : Allocates tinyCall sectionElf := by
  obtain ⟨-, -, hheap⟩ := sectionElf_held
  refine ⟨⟨fun a ha => ?_, fun a ha => absurd ha (sectionElf_path a),
    fun a ha => absurd ha (sectionElf_path a)⟩, fun i l _ hi => ?_⟩
  · have hpage : a / PAGE_SIZE = 4 := by
      simp only [HeaderBlock, tinyCall, ELF_HEADER_SIZE] at ha
      simp only [PAGE_SIZE]
      omega
    rw [hpage]
    exact hheap
  · rw [sectionElf_headers.2.2] at hi
    omega

/-- The table is not where the file has it. -/
theorem section_headers_iff_one : ¬ SectionsOfFile tinyCall sectionElf 0x100 := by
  obtain ⟨hoff, hnum, -⟩ := sectionElf_headers
  rw [section_headers_iff sectionElf_wellFormed sectionElf_allocates (by rw [hoff, hnum]; decide),
    copyTable, hoff, hnum]
  decide

/-- **A header outside the file**: the one at 0x30c0 is looked for at 0x7000. -/
theorem section_header_outside :
    ¬ ∀ (c : ElfCall) (s : Machine) (size : Nat), WellFormed c s size → Allocates c s →
      (fileHeader c s.mem).sectionHeaderTableFileOffset
        + (fileHeader c s.mem).sectionHeaderTableEntryCount * ELF_SECTION_HEADER_SIZE ≤ size →
      SectionsOfFile c s size := by
  intro hclaim
  obtain ⟨hoff, hnum, -⟩ := sectionElf_headers
  have hread := hclaim tinyCall sectionElf 0x100 sectionElf_wellFormed sectionElf_allocates
    (by rw [hoff, hnum]; decide)
  have hfirst := sectionAccesses_first sectionElf_wellFormed sectionElf_allocates
    (by rw [hnum]; decide)
  have hin := hread.inside _ (List.mem_of_getElem? hfirst)
  rw [copyTable, hoff] at hin
  exact absurd hin (by decide)

end BestOS
