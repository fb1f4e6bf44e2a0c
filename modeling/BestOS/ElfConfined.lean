/-
BestOS/ElfConfined.lean

Where the loader stores.

The header fields are the file's, and the file is whatever path a process was
asked for.  What is asked of the loader is that it stores nowhere but in what this
call was given by the allocators.  `Confined` states it on the record of the
call's stores: its own, and those of `pmm_allocate_zero` and `vmm_map`, which go
to the bitmap of the pages and to tables that the page map has already.  The
record leaves nothing out (`elfLoadProgram_explained`).

So a segment that has a page is never confined (`loadSegment_confined`), and one
that has none only if it is empty.  For each round of the two loops one lemma says
when its stores are inside (`EntryOk`, `SectionOk`: conditions on the header that is
read and on what `malloc` answers); the loops then follow by induction.
-/
import BestOS.Elf
import BestOS.Frames

namespace BestOS

open ByteMemory

/-! ### Stores and blocks -/

/-- Every byte of the range lies in one of the blocks. -/
def Inside (owned : List Range) (r : Range) : Prop := ∀ a ∈ r, ∃ b ∈ owned, a ∈ b

/-- Every byte stored lies in what the allocators had given the call by then. -/
def Record.Confined (r : Record) : Prop := ∀ p ∈ r.stored, Inside p.2 p.1

def Confined (l : Loader) : Prop := l.record.Confined

/-- What the allocators hand out: nothing in the first page, whose address is NULL,
nothing above the addresses memory has, and no bit of a page. -/
structure Answers (s : Machine) (owned : List Range) : Prop where
  low : ∀ b ∈ owned, PAGE_SIZE ≤ b.start
  high : ∀ b ∈ owned, b.start + b.size ≤ 2 ^ 63
  bits : ∀ b ∈ owned, ∀ k < s.highestPage / PAGE_SIZE, s.bitmap.data + k / 8 ∉ b

theorem Inside.of_size_zero (owned : List Range) (start : Nat) : Inside owned ⟨start, 0⟩ := by
  rintro a ⟨h1, h2⟩
  exact absurd (Nat.lt_of_le_of_lt h1 h2) (Nat.lt_irrefl start)

theorem Inside.of_mem {owned : List Range} {b r : Range} (hb : b ∈ owned)
    (hstart : b.start ≤ r.start) (hend : r.start + r.size ≤ b.start + b.size) : Inside owned r := by
  rintro a ⟨h1, h2⟩
  exact ⟨b, hb, hstart.trans h1, Nat.lt_of_lt_of_le h2 hend⟩

namespace Answers

variable {s : Machine} {owned owned' : List Range} {r : Range} {a : Nat}

theorem mono (h : Answers s owned) (hsub : ∀ b ∈ owned', b ∈ owned) : Answers s owned' :=
  ⟨fun b hb => h.low b (hsub b hb), fun b hb => h.high b (hsub b hb),
    fun b hb => h.bits b (hsub b hb)⟩

/-- A range with a byte in the first page is not inside. -/
theorem not_low (h : Answers s owned) (ha : a ∈ r) (hlow : a < PAGE_SIZE) : ¬ Inside owned r := by
  intro hin
  obtain ⟨b, hb, h1, -⟩ := hin a ha
  exact absurd (Nat.lt_of_lt_of_le hlow ((h.low b hb).trans h1)) (Nat.lt_irrefl a)

/-- A range with a byte above the addresses memory has is not inside. -/
theorem not_high (h : Answers s owned) (ha : a ∈ r) (hhigh : 2 ^ 63 ≤ a) : ¬ Inside owned r := by
  intro hin
  obtain ⟨b, hb, -, h2⟩ := hin a ha
  exact absurd (Nat.lt_of_lt_of_le h2 ((h.high b hb).trans hhigh)) (Nat.lt_irrefl a)

end Answers

/-! ### Records -/

namespace Record

/-- Nothing is taken out of a record. -/
structure Le (r r' : Record) : Prop where
  stored : ∀ p ∈ r.stored, p ∈ r'.stored
  owned : ∀ b ∈ r.owned, b ∈ r'.owned

theorem Le.refl (r : Record) : r.Le r := ⟨fun _ h => h, fun _ h => h⟩

theorem Le.trans {r₁ r₂ r₃ : Record} (h : r₁.Le r₂) (h' : r₂.Le r₃) : r₁.Le r₃ :=
  ⟨fun p hp => h'.stored p (h.stored p hp), fun b hb => h'.owned b (h.owned b hb)⟩

theorem Confined.of_le {r r' : Record} (h : r'.Confined) (hle : r.Le r') : r.Confined :=
  fun p hp => h p (hle.stored p hp)

@[simp] theorem owned_store (r : Record) (start size : Nat) :
    (r.store start size).owned = r.owned := rfl

@[simp] theorem confined_store (r : Record) (start size : Nat) :
    (r.store start size).Confined ↔ Inside r.owned ⟨start, size⟩ ∧ r.Confined := by
  simp [Confined, store]

theorem confined_own (r : Record) (start size : Nat) :
    (r.own start size).Confined ↔ r.Confined := Iff.rfl

theorem le_store (r : Record) (start size : Nat) : r.Le (r.store start size) :=
  ⟨fun _ h => List.mem_cons_of_mem _ h, fun _ h => h⟩

theorem le_own (r : Record) (start size : Nat) : r.Le (r.own start size) := by
  refine ⟨fun _ h => h, fun b hb => ?_⟩
  show b ∈ if start = 0 then r.owned else ⟨start, size⟩ :: r.owned
  split
  · exact hb
  · exact List.mem_cons_of_mem _ hb

theorem own_null (r : Record) (size : Nat) : r.own 0 size = r := by
  rw [own, if_pos rfl]

theorem setPages_le (r : Record) (s : Machine) (addr : Nat) {m n : Nat} (h : m ≤ n) :
    (r.setPages s addr m).Le (r.setPages s addr n) := by
  induction n, h using Nat.le_induction with
  | base => exact .refl _
  | succ n _ ih => exact ih.trans (le_store _ _ _)

theorem le_allocate (r : Record) (s : Machine) (pages : Nat) : r.Le (r.allocate s pages) := by
  unfold allocate
  split
  · exact .refl r
  · split
    · exact .refl r
    · exact setPages_le r s _ (Nat.zero_le pages)

theorem le_allocateZero (r : Record) (s : Machine) (pages : Nat) :
    r.Le (r.allocateZero s pages) :=
  ((le_allocate r s pages).trans (le_own _ _ _)).trans (le_store _ _ _)

theorem le_nextLevel (r : Record) (s : Machine) (table index : Nat) :
    r.Le (r.nextLevel s table index) := by
  unfold nextLevel
  split
  · exact ((le_allocateZero r s 1).trans (le_store _ _ _)).trans (le_store _ _ _)
  · exact .refl r

theorem le_map (r : Record) (s : Machine) (pagemap va flags : Nat) :
    r.Le (r.map s pagemap va flags) :=
  (((le_nextLevel _ _ _ _).trans (le_nextLevel _ _ _ _)).trans (le_nextLevel _ _ _ _)).trans
    (le_store _ _ _)

theorem le_mapPages (r : Record) (s : Machine) (pagemap flags : Nat) (pages : List (Nat × Nat)) :
    r.Le (r.mapPages s pagemap flags pages) := by
  induction pages generalizing r s with
  | nil => exact .refl r
  | cons p pages ih => exact (le_map r s pagemap p.2 flags).trans (ih _ _)

/-- Pages are never taken within the blocks of the call: it is the bits that are set, or
the first page that is cleared. -/
theorem not_confined_allocateZero {r : Record} {s : Machine} {pages : Nat} (hpos : 0 < pages)
    (hlt : pages * PAGE_SIZE < 2 ^ 64) (hO : Answers s (r.allocateZero s pages).owned) :
    ¬ (r.allocateZero s pages).Confined := by
  intro hconf
  have hrange : Inside (r.allocateZero s pages).owned
      ⟨(pmmAllocate s pages).1, pages * PAGE_SIZE % 2 ^ 64⟩ := hconf _ List.mem_cons_self
  rw [Nat.mod_eq_of_lt hlt] at hrange
  by_cases hnull : (pmmAllocate s pages).1 = 0
  · rw [hnull] at hrange
    refine hO.not_low (a := 0) ⟨Nat.le_refl 0, ?_⟩ (by decide) hrange
    simp only [PAGE_SIZE]
    omega
  · -- the bit of the first page
    rw [pmmAllocate_eq s hpos] at hnull
    by_cases hbig : pages > s.bitmap.size
    · exact hnull (by rw [if_pos hbig])
    cases hfree : firstFree s with
    | none => exact hnull (by rw [if_neg hbig, hfree])
    | some i =>
      have hfirst : r.setPages s (i * PAGE_SIZE) pages = r.allocate s pages := by
        rw [allocate, if_neg hbig, hfree]
      have hle : (r.setPages s (i * PAGE_SIZE) 1).Le (r.allocateZero s pages) :=
        (hfirst ▸ setPages_le r s (i * PAGE_SIZE) hpos).trans
          ((le_own _ _ _).trans (le_store _ _ _))
      have hbit := ((confined_store _ _ _).mp (hconf.of_le hle)).1
      obtain ⟨b, hb, hin⟩ := hbit _ ⟨Nat.le_refl _, Nat.lt_succ_self _⟩
      refine hO.bits b ((le_allocateZero r s pages).owned b hb)
        ((i * PAGE_SIZE + 0 * PAGE_SIZE) % 2 ^ 64 / PAGE_SIZE) ?_ hin
      have hi := (firstFree_spec hfree).1
      simp only [PAGE_SIZE] at hi ⊢
      omega

/-! ### What the record is of -/

/-- Memory has changed only where the record has a store. -/
def Explains (r : Record) (m m' : Mem) : Prop := ∀ a, (∀ p ∈ r.stored, a ∉ p.1) → m' a = m a

variable {r : Record} {m m' : Mem}

theorem Explains.store (h : r.Explains m m') {m'' : Mem} {start size : Nat}
    (hagree : ∀ a, a < start ∨ start + size ≤ a → m'' a = m' a) :
    (r.store start size).Explains m m'' := by
  intro a ha
  have hout := ha _ List.mem_cons_self
  rw [Range.mem_iff] at hout
  dsimp only at hout
  exact (hagree a (by omega)).trans (h a fun p hp => ha p (List.mem_cons_of_mem _ hp))

theorem Explains.own (h : r.Explains m m') (start size : Nat) : (r.own start size).Explains m m' :=
  h

theorem Explains.memcpy (h : r.Explains m m') (dest src n : Nat) :
    (r.store dest n).Explains m (memcpy m' dest src n) :=
  h.store fun _ ha => memcpy_agree _ _ _ _ ha

theorem Explains.memset (h : r.Explains m m') (dest : Nat) (v : BitVec 8) (n : Nat) :
    (r.store dest n).Explains m (memset m' dest v n) :=
  h.store fun _ ha => memset_agree _ _ _ _ ha

theorem Explains.writeLE (h : r.Explains m m') (dest n v : Nat) :
    (r.store dest n).Explains m (writeLE m' dest n v) :=
  h.store fun _ ha => writeLE_agree _ _ _ _ ha

theorem Explains.setPages {s : Machine} (h : r.Explains m s.mem) (addr n : Nat) :
    (r.setPages s addr n).Explains m (BestOS.setPages s addr n).mem := by
  induction n with
  | zero => exact h
  | succ n ih =>
    refine ih.store fun a ha => ?_
    show put _ _ _ a = _
    rw [setPages_bitmap]
    exact put_ne (by omega)

theorem Explains.allocate {s : Machine} (h : r.Explains m s.mem) {pages : Nat} (hpos : 0 < pages) :
    (r.allocate s pages).Explains m (pmmAllocate s pages).2.mem := by
  rw [pmmAllocate_eq s hpos, Record.allocate]
  split
  · exact h
  · cases firstFree s with
    | none => exact h
    | some i => exact h.setPages (i * PAGE_SIZE) pages

theorem Explains.allocateZero {s : Machine} (h : r.Explains m s.mem) (pages : Nat) :
    (r.allocateZero s pages).Explains m (pmmAllocateZero s pages).2.mem := by
  rcases Nat.eq_zero_or_pos pages with rfl | hpos
  · rw [pmmAllocateZero_zero]
    intro a ha
    refine h a fun p hp => ha p ((le_allocateZero r s 0).stored p hp)
  · exact ((h.allocate hpos).own _ _).memset _ 0#8 _

theorem Explains.nextLevel {s : Machine} (h : r.Explains m s.mem) (table index flags : Nat) :
    (r.nextLevel s table index).Explains m (getNextLevel s table index flags).2.mem := by
  unfold Record.nextLevel getNextLevel
  dsimp only
  split
  · exact ((h.allocateZero 1).writeLE _ _ _).writeLE _ _ _
  · exact h

theorem Explains.map {s : Machine} (h : r.Explains m s.mem) (pagemap pa va flags : Nat) :
    (r.map s pagemap va flags).Explains m (vmmMap s pagemap pa va flags).mem :=
  (((h.nextLevel _ _ flags).nextLevel _ _ flags).nextLevel _ _ flags).writeLE _ _ _

theorem Explains.mapPages {s : Machine} (h : r.Explains m s.mem) (pagemap flags : Nat)
    (pages : List (Nat × Nat)) :
    (r.mapPages s pagemap flags pages).Explains m (BestOS.mapPages s pagemap flags pages).mem := by
  induction pages generalizing r s with
  | nil => exact h
  | cons p pages ih => exact ih (h.map pagemap p.1 p.2 flags)

end Record

/-! ### A program header -/

/-- The condition on an interpreter: the size of its path does not wrap, and there
is a block for it. -/
def InterpretOk (c : ElfCall) (l : Loader) (p : ProgramHeader) : Prop :=
  p.fileSize + 1 < 2 ^ 64 ∧ c.malloc l.mallocs ((p.fileSize + 1) % 2 ^ 64) ≠ 0

/-- A segment of nothing, at the start of a page. -/
structure ProgramHeader.Empty (p : ProgramHeader) : Prop where
  file : p.fileSize = 0
  memory : p.memorySize = 0
  aligned : p.misalign = 0

/-- The condition on the program header of a round. -/
structure EntryOk (c : ElfCall) (l : Loader) : Prop where
  interpret : l.current.type = ELF_PROGRAM_HEADER_INTERPRET → c.wantsLd = true →
    InterpretOk c l l.current
  load : l.current.type = ELF_PROGRAM_HEADER_LOAD → l.current.Empty

/-- The condition on every round of the first loop. -/
def EntriesOk (c : ElfCall) : Nat → Nat → Loader → Prop
  | 0, _, _ => True
  | fuel + 1, i, l =>
    i < l.header.programHeaderTableEntryCount →
      EntryOk c l ∧ ∀ l', loadEntry c l = some l' → EntriesOk c fuel (i + 1) (nextHeader l')

theorem readLE_eight (m : Mem) (a : Nat) : readLE m a 8 < 2 ^ 64 := by
  have := readLE_lt m a 8
  omega

theorem misalign_lt (p : ProgramHeader) : p.misalign < PAGE_SIZE :=
  Nat.lt_of_le_of_lt Nat.and_le_right (by decide)

theorem pageCount_lt (p : ProgramHeader) : p.pageCount * PAGE_SIZE < 2 ^ 64 := by
  unfold ProgramHeader.pageCount
  simp only [PAGE_SIZE]
  omega

theorem ProgramHeader.Empty.pageCount {p : ProgramHeader} (h : p.Empty) : p.pageCount = 0 := by
  unfold ProgramHeader.pageCount
  rw [h.memory, h.aligned]
  rfl

theorem loadInterpret_record (c : ElfCall) (l : Loader) (p : ProgramHeader) :
    (loadInterpret c l p).record =
      ((l.record.own (c.malloc l.mallocs ((p.fileSize + 1) % 2 ^ 64)) ((p.fileSize + 1) % 2 ^ 64)).store
        (c.malloc l.mallocs ((p.fileSize + 1) % 2 ^ 64)) p.fileSize).store
        ((c.malloc l.mallocs ((p.fileSize + 1) % 2 ^ 64) + p.fileSize) % 2 ^ 64) 1 := rfl

theorem loadInterpret_confined {c : ElfCall} {s : Machine} {l : Loader} {p : ProgramHeader}
    (hO : Answers s (loadInterpret c l p).record.owned) (hp : p.fileSize < 2 ^ 64) :
    Confined (loadInterpret c l p) ↔ InterpretOk c l p ∧ Confined l := by
  unfold Confined InterpretOk
  rw [loadInterpret_record, Record.confined_store, Record.confined_store, Record.confined_own,
    ← and_assoc]
  rw [loadInterpret_record] at hO
  generalize c.malloc l.mallocs ((p.fileSize + 1) % 2 ^ 64) = q at hO ⊢
  refine and_congr_left fun _ => ⟨fun ⟨hlast, hpath⟩ => ⟨?_, ?_⟩, fun ⟨hwrap, hq⟩ => ?_⟩
  · -- a size of 2^64 - 1 asks for an empty block, and the copy leaves memory
    by_contra hwrap
    exact hO.not_high (a := q + (p.fileSize - 1)) ⟨by dsimp only; omega, by dsimp only; omega⟩
      (by omega) hpath
  · -- a block at 0 means that there was none
    rintro rfl
    by_cases hzero : p.fileSize = 0
    · exact hO.not_low (a := 0) ⟨by simp [hzero], by simp⟩ (by decide) hlast
    · exact hO.not_low (a := 0) ⟨by dsimp only; omega, by dsimp only; omega⟩ (by decide) hpath
  · -- the block holds the path and its terminator
    have hmem : ⟨q, p.fileSize + 1⟩ ∈ (l.record.own q ((p.fileSize + 1) % 2 ^ 64)).owned := by
      rw [Nat.mod_eq_of_lt hwrap, Record.own]
      dsimp only
      rw [if_neg hq]
      exact List.mem_cons_self
    have hend : q + (p.fileSize + 1) ≤ 2 ^ 63 := hO.high _ hmem
    rw [Nat.mod_eq_of_lt (a := q + p.fileSize) (by omega)]
    exact ⟨.of_mem hmem (by dsimp only; omega) (by dsimp only; omega),
      .of_mem hmem (by dsimp only; omega) (by dsimp only; omega)⟩

theorem loadSegment_record (c : ElfCall) (l : Loader) (p : ProgramHeader) :
    (loadSegment c l p).record =
      (((l.record.allocateZero l.machine p.pageCount).mapPages
        (pmmAllocateZero l.machine p.pageCount).2 c.pagemap 0b111
        (segmentPages c p (pmmAllocateZero l.machine p.pageCount).1)).store
        ((pmmAllocateZero l.machine p.pageCount).1 + p.misalign) p.fileSize).store
        (((pmmAllocateZero l.machine p.pageCount).1 + p.misalign + p.fileSize) % 2 ^ 64)
          p.tail := rfl

/-- Without pages, only what is copied and cleared is left. -/
theorem loadSegment_record_zero {c : ElfCall} {l : Loader} {p : ProgramHeader}
    (h : p.pageCount = 0) :
    (loadSegment c l p).record =
      ((l.record.store 0 0).store p.misalign p.fileSize).store
        ((p.misalign + p.fileSize) % 2 ^ 64) p.tail := by
  have hallocate : l.record.allocateZero l.machine 0 = l.record.store 0 0 := by
    have hnull : (pmmAllocate l.machine 0).1 = 0 :=
      congrArg Prod.fst (pmmAllocateZero_zero l.machine)
    have hnone : l.record.allocate l.machine 0 = l.record := by
      unfold Record.allocate
      split
      · rfl
      · split <;> rfl
    rw [Record.allocateZero, hnull, hnone, Record.own_null, Nat.zero_mul, Nat.zero_mod]
  have hpages : segmentPages c p (pmmAllocateZero l.machine 0).1 = [] := by
    rw [segmentPages, h]
    rfl
  rw [loadSegment_record, h, hpages, hallocate, pmmAllocateZero_zero, Record.mapPages]
  dsimp only
  rw [Nat.zero_add]

/-- **A segment** is loaded within the blocks of the call only if it is empty. -/
theorem loadSegment_confined {c : ElfCall} {l : Loader} {p : ProgramHeader}
    (hO : Answers l.machine (loadSegment c l p).record.owned) (hp : p.fileSize < 2 ^ 64)
    (hm : p.memorySize < 2 ^ 64) :
    Confined (loadSegment c l p) ↔ p.Empty ∧ Confined l := by
  have hmis := misalign_lt p
  unfold Confined
  by_cases hpages : p.pageCount = 0
  · rw [loadSegment_record_zero hpages] at hO ⊢
    simp only [Record.owned_store] at hO
    simp only [Record.confined_store, Record.owned_store, ← and_assoc]
    refine and_congr_left fun _ => ⟨fun ⟨⟨htail, hfile⟩, _⟩ => ?_, fun he => ?_⟩
    · -- the first byte of the segment is in the first page
      have hzero : p.fileSize = 0 := by
        by_contra hne
        exact hO.not_low (a := p.misalign) ⟨Nat.le_refl _, by dsimp only; omega⟩ hmis hfile
      have hempty : p.memorySize = 0 := by
        by_contra hne
        have htl : p.tail = p.memorySize := by
          unfold ProgramHeader.tail
          omega
        rw [htl, hzero] at htail
        simp only [PAGE_SIZE] at hmis
        exact hO.not_low (a := p.misalign) ⟨by dsimp only; omega, by dsimp only; omega⟩
          (misalign_lt p) htail
      refine ⟨hzero, hempty, ?_⟩
      unfold ProgramHeader.pageCount at hpages
      rw [hempty] at hpages
      simp only [PAGE_SIZE] at hpages hmis
      omega
    · have htl : p.tail = 0 := by
        unfold ProgramHeader.tail
        rw [he.file, he.memory, Nat.zero_add, Nat.sub_zero, Nat.mod_self]
      rw [he.file, htl]
      exact ⟨⟨.of_size_zero _ _, .of_size_zero _ _⟩, .of_size_zero _ _⟩
  · refine iff_of_false (fun hconf => ?_) fun h => hpages h.1.pageCount
    have hle : (l.record.allocateZero l.machine p.pageCount).Le (loadSegment c l p).record := by
      rw [loadSegment_record]
      exact ((Record.le_mapPages _ _ _ _ _).trans (Record.le_store _ _ _)).trans
        (Record.le_store _ _ _)
    exact Record.not_confined_allocateZero (Nat.pos_of_ne_zero hpages) (pageCount_lt p)
      (hO.mono hle.owned) (hconf.of_le hle)

/-- A round takes nothing out of the record. -/
theorem loadEntry_le {c : ElfCall} {l l' : Loader} (h : loadEntry c l = some l') :
    l.record.Le l'.record := by
  rcases loadEntry_cases h with ⟨-, -, rfl⟩ | ⟨-, rfl⟩ | ⟨-, -, a, rfl⟩
  · rw [loadInterpret_record]
    exact ((Record.le_own _ _ _).trans (Record.le_store _ _ _)).trans (Record.le_store _ _ _)
  · rw [loadSegment_record]
    exact (((Record.le_allocateZero _ _ _).trans (Record.le_mapPages _ _ _ _ _)).trans
      (Record.le_store _ _ _)).trans (Record.le_store _ _ _)
  · exact .refl _

/-- Without pages, the bitmap is where it was. -/
theorem loadSegment_pages {c : ElfCall} {l : Loader} {p : ProgramHeader} (h : p.pageCount = 0) :
    (loadSegment c l p).machine.bitmap = l.machine.bitmap ∧
      (loadSegment c l p).machine.highestPage = l.machine.highestPage := by
  have hpages : segmentPages c p (pmmAllocateZero l.machine 0).1 = [] := by
    rw [segmentPages, h]
    rfl
  rw [loadSegment_mem, h, hpages, pmmAllocateZero_zero]
  exact ⟨rfl, rfl⟩

/-- The pages are counted as before the call. -/
structure SamePages (s : Machine) (l : Loader) : Prop where
  bitmap : l.machine.bitmap = s.bitmap
  high : l.machine.highestPage = s.highestPage

theorem SamePages.answers {s : Machine} {l : Loader} (h : SamePages s l) {owned : List Range}
    (hO : Answers s owned) : Answers l.machine owned :=
  ⟨hO.low, hO.high, by rw [h.bitmap, h.high]; exact hO.bits⟩

/-- A round that meets the condition takes no pages. -/
theorem SamePages.entry {c : ElfCall} {s : Machine} {l l' : Loader} (h : SamePages s l)
    (hok : EntryOk c l) (he : loadEntry c l = some l') : SamePages s (nextHeader l') := by
  rcases loadEntry_cases he with ⟨-, -, rfl⟩ | ⟨hload, rfl⟩ | ⟨-, -, a, rfl⟩
  · have hmachine := loadInterpret_mem c l l.current
    exact ⟨(congrArg Machine.bitmap hmachine).trans h.bitmap,
      (congrArg Machine.highestPage hmachine).trans h.high⟩
  · obtain ⟨hbitmap, hhigh⟩ := loadSegment_pages (c := c) (l := l) (hok.load hload).pageCount
    exact ⟨hbitmap.trans h.bitmap, hhigh.trans h.high⟩
  · exact ⟨h.bitmap, h.high⟩

theorem loadEntry_confined {c : ElfCall} {s : Machine} {l l' : Loader} (hs : SamePages s l)
    (h : loadEntry c l = some l') (hO : Answers s l'.record.owned) :
    Confined l' ↔ EntryOk c l ∧ Confined l := by
  have hfile : l.current.fileSize < 2 ^ 64 := readLE_eight _ _
  have hmem : l.current.memorySize < 2 ^ 64 := readLE_eight _ _
  rcases loadEntry_cases h with ⟨hint, hld, rfl⟩ | ⟨hload, rfl⟩ | ⟨hint, hload, a, rfl⟩
  · have hload : l.current.type ≠ ELF_PROGRAM_HEADER_LOAD := by rw [hint]; decide
    rw [loadInterpret_confined hO hfile]
    exact and_congr_left fun _ => ⟨fun hok => ⟨fun _ _ => hok, fun ht => absurd ht hload⟩,
      fun hok => hok.interpret hint hld⟩
  · have hint : l.current.type ≠ ELF_PROGRAM_HEADER_INTERPRET := by rw [hload]; decide
    rw [loadSegment_confined (hs.answers hO) hfile hmem]
    exact and_congr_left fun _ => ⟨fun hok => ⟨fun ht => absurd ht hint, fun _ => hok⟩,
      fun hok => hok.load hload⟩
  · exact ⟨fun hin => ⟨⟨fun ht => absurd ht hint, fun ht => absurd ht hload⟩, hin⟩,
      fun hok => hok.2⟩

/-! ### The first loop -/

theorem loadEntries_le (c : ElfCall) (fuel i : Nat) (l : Loader) :
    l.record.Le (loadEntries c fuel i l).record := by
  induction fuel generalizing i l with
  | zero => exact .refl _
  | succ fuel ih =>
    unfold loadEntries
    split
    · split
      · exact .refl _
      · next l' h => exact (loadEntry_le h).trans (ih (i + 1) (nextHeader l'))
    · exact .refl _

/-- The stores of the first loop are inside exactly when every round meets its
condition. -/
theorem loadEntries_confined {c : ElfCall} {s : Machine} {fuel i : Nat} {l : Loader}
    (hs : SamePages s l) (hO : Answers s (loadEntries c fuel i l).record.owned) :
    Confined (loadEntries c fuel i l) ↔ EntriesOk c fuel i l ∧ Confined l := by
  induction fuel generalizing i l with
  | zero => exact ⟨fun h => ⟨trivial, h⟩, fun h => h.2⟩
  | succ fuel ih =>
    by_cases hi : i < l.header.programHeaderTableEntryCount
    · cases he : loadEntry c l with
      | none =>
        -- the loop was left at an interpreter nobody asks for
        obtain ⟨hint, hld⟩ := loadEntry_none he
        have hok : EntryOk c l :=
          ⟨fun _ h => absurd (hld.symm.trans h) (by decide),
            fun hload => absurd (hint.symm.trans hload) (by decide)⟩
        rw [loadEntries_break he, EntriesOk, he]
        exact ⟨fun h => ⟨fun _ => ⟨hok, fun l' h' => by cases h'⟩, h⟩, fun h => h.2⟩
      | some l' =>
        rw [loadEntries_next hi he] at hO ⊢
        have hle := loadEntries_le c fuel (i + 1) (nextHeader l')
        have hone := loadEntry_confined hs he (hO.mono hle.owned)
        rw [EntriesOk, he]
        constructor
        · intro hconf
          obtain ⟨hok, hin⟩ := hone.mp (hconf.of_le hle)
          refine ⟨fun _ => ⟨hok, ?_⟩, hin⟩
          rintro l'' ⟨⟩
          exact ((ih (hs.entry hok he) hO).mp hconf).1
        · rintro ⟨hok, hin⟩
          obtain ⟨hentry, hrest⟩ := hok hi
          exact (ih (hs.entry hentry he) hO).mpr ⟨hrest l' rfl, hone.mpr ⟨hentry, hin⟩⟩
    · rw [loadEntries_end hi, EntriesOk]
      exact ⟨fun h => ⟨fun hlt => absurd hlt hi, h⟩, fun h => h.2⟩

/-- `blocks`, and what `malloc` returns in a round of the first loop: the path of an
interpreter. -/
def entryBlocks (c : ElfCall) (l : Loader) (blocks : List Range) : List Range :=
  let size := (l.current.fileSize + 1) % 2 ^ 64
  if l.current.type = ELF_PROGRAM_HEADER_INTERPRET then
    ⟨c.malloc l.mallocs size, size⟩ :: blocks
  else blocks

/-- `blocks`, and what `malloc` returns in the first loop. -/
def entriesBlocks (c : ElfCall) : Nat → Nat → Loader → List Range → List Range
  | 0, _, _, blocks => blocks
  | fuel + 1, i, l, blocks =>
    if i < l.header.programHeaderTableEntryCount then
      match loadEntry c l with
      | none => blocks
      | some l' => entriesBlocks c fuel (i + 1) (nextHeader l') (entryBlocks c l blocks)
    else blocks

/-- A round that meets its condition is given blocks only by `malloc`. -/
theorem loadEntry_owned {c : ElfCall} {l l' : Loader} (hok : EntryOk c l)
    (h : loadEntry c l = some l') : l'.record.owned = entryBlocks c l l.record.owned := by
  unfold entryBlocks
  rcases loadEntry_cases h with ⟨hint, hld, rfl⟩ | ⟨hload, rfl⟩ | ⟨hint, -, a, rfl⟩
  · rw [loadInterpret_record, Record.owned_store, Record.owned_store, if_pos hint]
    exact if_neg (hok.interpret hint hld).2
  · have hint : l.current.type ≠ ELF_PROGRAM_HEADER_INTERPRET := by rw [hload]; decide
    rw [loadSegment_record_zero (hok.load hload).pageCount, if_neg hint]
    rfl
  · rw [if_neg hint]

theorem loadEntries_owned {c : ElfCall} {fuel i : Nat} {l : Loader} (hok : EntriesOk c fuel i l) :
    (loadEntries c fuel i l).record.owned = entriesBlocks c fuel i l l.record.owned := by
  induction fuel generalizing i l with
  | zero => rfl
  | succ fuel ih =>
    unfold entriesBlocks
    by_cases hi : i < l.header.programHeaderTableEntryCount
    · rw [if_pos hi]
      cases he : loadEntry c l with
      | none => rw [loadEntries_break he]
      | some l' =>
        obtain ⟨hentry, hrest⟩ := hok hi
        have hnext := loadEntry_owned hentry he
        rw [loadEntries_next hi he, ih (hrest l' he)]
        exact congrArg _ hnext
    · rw [loadEntries_end hi, if_neg hi]

/-! ### The second loop -/

/-- The condition on the section header at `a`, once `malloc` has returned `blocks`: if a
block is taken for it, there is one, and `file_offset` lies in the blocks. -/
def SectionOk (c : ElfCall) (blocks : List Range) (l : Loader) (a : Nat) : Prop :=
  let h := readSectionHeader l.machine.mem a
  let block := c.malloc l.mallocs h.entrySize
  h.Reset → block ≠ 0 ∧ Inside (⟨block, h.entrySize⟩ :: blocks) ⟨a + 24, 8⟩

/-- `blocks`, and what `malloc` returns in a round of the second loop. -/
def sectionBlocks (c : ElfCall) (blocks : List Range) (l : Loader) (a : Nat) : List Range :=
  let h := readSectionHeader l.machine.mem a
  if h.Reset then ⟨c.malloc l.mallocs h.entrySize, h.entrySize⟩ :: blocks else blocks

/-- The condition on every round of the second loop. -/
def SectionsOk (c : ElfCall) (shdr : Nat) : Nat → Nat → List Range → Loader → Prop
  | 0, _, _, _ => True
  | fuel + 1, i, blocks, l =>
    i < l.header.sectionHeaderTableEntryCount →
      SectionOk c blocks l (sectionSlot shdr i) ∧
        SectionsOk c shdr fuel (i + 1) (sectionBlocks c blocks l (sectionSlot shdr i))
          (resetSection c l (sectionSlot shdr i))

theorem resetSection_record {c : ElfCall} {l : Loader} {a : Nat}
    (h : (readSectionHeader l.machine.mem a).Reset) :
    (resetSection c l a).record =
      ((l.record.own (c.malloc l.mallocs (readSectionHeader l.machine.mem a).entrySize)
          (readSectionHeader l.machine.mem a).entrySize).store
        (c.malloc l.mallocs (readSectionHeader l.machine.mem a).entrySize)
        (readSectionHeader l.machine.mem a).entrySize).store (a + 24) 8 := by
  unfold resetSection
  dsimp only
  rw [if_pos h]
  rfl

theorem resetSection_le (c : ElfCall) (l : Loader) (a : Nat) :
    l.record.Le (resetSection c l a).record := by
  by_cases h : (readSectionHeader l.machine.mem a).Reset
  · rw [resetSection_record h]
    exact ((Record.le_own _ _ _).trans (Record.le_store _ _ _)).trans (Record.le_store _ _ _)
  · rw [resetSection_same h]
    exact .refl _

theorem resetSections_le (c : ElfCall) (shdr fuel i : Nat) (l : Loader) :
    l.record.Le (resetSections c shdr fuel i l).record := by
  induction fuel generalizing i l with
  | zero => exact .refl _
  | succ fuel ih =>
    unfold resetSections
    split
    · exact (resetSection_le c l _).trans (ih _ _)
    · exact .refl _

theorem resetSection_owned {c : ElfCall} {l : Loader} {a : Nat}
    (hok : SectionOk c l.record.owned l a) :
    (resetSection c l a).record.owned = sectionBlocks c l.record.owned l a := by
  unfold sectionBlocks
  by_cases h : (readSectionHeader l.machine.mem a).Reset
  · rw [resetSection_record h, Record.owned_store, Record.owned_store, if_pos h]
    exact if_neg (hok h).1
  · rw [resetSection_same h, if_neg h]

theorem resetSection_confined {c : ElfCall} {s : Machine} {l : Loader} {a : Nat}
    (hO : Answers s (resetSection c l a).record.owned) :
    Confined (resetSection c l a) ↔ SectionOk c l.record.owned l a ∧ Confined l := by
  unfold Confined SectionOk
  dsimp only
  by_cases hreset : (readSectionHeader l.machine.mem a).Reset
  · have hpos := hreset.2.1
    rw [resetSection_record hreset] at hO ⊢
    rw [Record.confined_store, Record.confined_store, Record.confined_own, ← and_assoc]
    generalize c.malloc l.mallocs (readSectionHeader l.machine.mem a).entrySize = q at hO ⊢
    refine and_congr_left fun _ => ⟨fun ⟨hfield, hblock⟩ _ => ?_, fun hok => ?_⟩
    · -- a block at 0 means that there was none, and it is not empty
      have hq : q ≠ 0 := by
        rintro rfl
        exact hO.not_low (a := 0) ⟨Nat.le_refl 0, by dsimp only; omega⟩ (by decide) hblock
      refine ⟨hq, ?_⟩
      have hown : (l.record.own q (readSectionHeader l.machine.mem a).entrySize).owned
          = ⟨q, (readSectionHeader l.machine.mem a).entrySize⟩ :: l.record.owned := if_neg hq
      rw [← hown]
      exact hfield
    · obtain ⟨hq, hfield⟩ := hok hreset
      have hown : (l.record.own q (readSectionHeader l.machine.mem a).entrySize).owned
          = ⟨q, (readSectionHeader l.machine.mem a).entrySize⟩ :: l.record.owned := if_neg hq
      rw [hown]
      exact ⟨hown ▸ hfield, .of_mem List.mem_cons_self (Nat.le_refl _) (Nat.le_refl _)⟩
  · rw [resetSection_same hreset]
    exact ⟨fun h => ⟨fun hr => absurd hr hreset, h⟩, fun h => h.2⟩

theorem resetSections_confined {c : ElfCall} {s : Machine} {shdr fuel i : Nat} {l : Loader}
    (hO : Answers s (resetSections c shdr fuel i l).record.owned) :
    Confined (resetSections c shdr fuel i l) ↔
      SectionsOk c shdr fuel i l.record.owned l ∧ Confined l := by
  induction fuel generalizing i l with
  | zero => exact ⟨fun h => ⟨trivial, h⟩, fun h => h.2⟩
  | succ fuel ih =>
    unfold resetSections SectionsOk
    unfold resetSections at hO
    by_cases hi : i < l.header.sectionHeaderTableEntryCount
    · rw [if_pos hi] at hO ⊢
      have hle := resetSections_le c shdr fuel (i + 1) (resetSection c l (sectionSlot shdr i))
      have hone := resetSection_confined (l := l) (a := sectionSlot shdr i) (hO.mono hle.owned)
      constructor
      · intro hconf
        obtain ⟨hok, hin⟩ := hone.mp (hconf.of_le hle)
        rw [← resetSection_owned hok]
        exact ⟨fun _ => ⟨hok, ((ih hO).mp hconf).1⟩, hin⟩
      · rintro ⟨hok, hin⟩
        obtain ⟨hsection, hrest⟩ := hok hi
        rw [← resetSection_owned hsection] at hrest
        exact (ih hO).mpr ⟨hrest, hone.mpr ⟨hsection, hin⟩⟩
    · rw [if_neg hi]
      exact ⟨fun h => ⟨fun hlt => absurd hlt hi, h⟩, fun h => h.2⟩

/-! ### The whole call -/

/-- The loader after the first loop. -/
def elfLoaded (c : ElfCall) (s : Machine) : Loader := loadEntries c maxHeaders 0 (elfBegin c s)

/-- The blocks of the first loop, and that of the header before it. -/
def elfBlocks (c : ElfCall) (s : Machine) : List Range :=
  entriesBlocks c maxHeaders 0 (elfBegin c s) [⟨c.malloc 0 ELF_HEADER_SIZE, ELF_HEADER_SIZE⟩]

/-- The condition on a call: there is a block for the header, every program header
the first loop reads meets its condition, and so does every section header of the
second. -/
structure ElfOk (c : ElfCall) (s : Machine) : Prop where
  header : c.malloc 0 ELF_HEADER_SIZE ≠ 0
  entries : EntriesOk c maxHeaders 0 (elfBegin c s)
  sections : SectionsOk c (sectionHeaders (elfLoaded c s)) maxHeaders 0 (elfBlocks c s)
    (elfLoaded c s)

theorem elfBegin_confined {c : ElfCall} {s : Machine}
    (hO : Answers s (elfBegin c s).record.owned) :
    Confined (elfBegin c s) ↔ c.malloc 0 ELF_HEADER_SIZE ≠ 0 := by
  have hrecord : (elfBegin c s).record =
      ((⟨[], []⟩ : Record).own (c.malloc 0 ELF_HEADER_SIZE) ELF_HEADER_SIZE).store
        (c.malloc 0 ELF_HEADER_SIZE) ELF_HEADER_SIZE := rfl
  unfold Confined
  rw [hrecord] at hO ⊢
  rw [Record.confined_store, Record.confined_own]
  constructor
  · rintro ⟨hin, -⟩ h0
    rw [h0] at hin hO
    exact hO.not_low (a := 0) ⟨Nat.le_refl 0, by decide⟩ (by decide) hin
  · intro hne
    refine ⟨.of_mem (b := ⟨c.malloc 0 ELF_HEADER_SIZE, ELF_HEADER_SIZE⟩) ?_ (Nat.le_refl _)
      (Nat.le_refl _), fun p hp => absurd hp List.not_mem_nil⟩
    show _ ∈ if _ = 0 then _ else _
    rw [if_neg hne]
    exact List.mem_cons_self

theorem elfLoaded_owned {c : ElfCall} {s : Machine} (hheader : c.malloc 0 ELF_HEADER_SIZE ≠ 0)
    (hok : EntriesOk c maxHeaders 0 (elfBegin c s)) :
    (elfLoaded c s).record.owned = elfBlocks c s := by
  have hbegin : (elfBegin c s).record.owned = [⟨c.malloc 0 ELF_HEADER_SIZE, ELF_HEADER_SIZE⟩] :=
    if_neg hheader
  unfold elfLoaded elfBlocks
  rw [loadEntries_owned hok, hbegin]

theorem elfLoadProgram_loader (c : ElfCall) (s : Machine) :
    (elfLoadProgram c s).loader =
      resetSections c (sectionHeaders (elfLoaded c s)) maxHeaders 0 (elfLoaded c s) := rfl

/-- The record of the loader explains what memory is now. -/
def Explained (s : Machine) (l : Loader) : Prop := l.record.Explains s.mem l.machine.mem

section Explained

variable {c : ElfCall} {s : Machine} {l l' : Loader}

theorem elfBegin_explained (c : ElfCall) (s : Machine) : Explained s (elfBegin c s) := by
  have hnone : (⟨[], []⟩ : Record).Explains s.mem s.mem := fun _ _ => rfl
  exact (hnone.own _ _).memcpy _ _ _

theorem Explained.interpret (h : Explained s l) (c : ElfCall) (p : ProgramHeader) :
    Explained s (loadInterpret c l p) := by
  unfold Explained
  rw [loadInterpret_record, loadInterpret_mem]
  exact ((Record.Explains.own h _ _).memcpy _ _ _).writeLE _ _ _

theorem Explained.segment (h : Explained s l) (c : ElfCall) (p : ProgramHeader) :
    Explained s (loadSegment c l p) := by
  unfold Explained
  rw [loadSegment_record, loadSegment_mem]
  exact (((Record.Explains.allocateZero h _).mapPages _ _ _).memcpy _ _ _).memset _ _ _

theorem Explained.entry (h : Explained s l) (he : loadEntry c l = some l') : Explained s l' := by
  rcases loadEntry_cases he with ⟨-, -, rfl⟩ | ⟨-, rfl⟩ | ⟨-, -, a, rfl⟩
  · exact h.interpret c _
  · exact h.segment c _
  · exact h

theorem Explained.entries (h : Explained s l) (fuel i : Nat) :
    Explained s (loadEntries c fuel i l) := by
  induction fuel generalizing i l with
  | zero => exact h
  | succ fuel ih =>
    unfold loadEntries
    split
    · split
      · exact h
      · next l' he =>
        have hentry : Explained s l' := h.entry he
        exact ih (l := nextHeader l') hentry (i + 1)
    · exact h

theorem Explained.reset (h : Explained s l) (c : ElfCall) (a : Nat) :
    Explained s (resetSection c l a) := by
  by_cases hreset : (readSectionHeader l.machine.mem a).Reset
  · obtain ⟨v, hmem⟩ := resetSection_mem (c := c) hreset
    unfold Explained
    rw [resetSection_record hreset, hmem]
    exact ((Record.Explains.own h _ _).memset _ _ _).writeLE _ _ _
  · rw [resetSection_same hreset]
    exact h

theorem Explained.resets (h : Explained s l) (shdr fuel i : Nat) :
    Explained s (resetSections c shdr fuel i l) := by
  induction fuel generalizing i l with
  | zero => exact h
  | succ fuel ih =>
    unfold resetSections
    split
    · exact ih (h.reset c _) (i + 1)
    · exact h

/-- **Nothing is stored that is not recorded.** -/
theorem elfLoadProgram_explained (c : ElfCall) (s : Machine) :
    Explained s (elfLoadProgram c s).loader := by
  rw [elfLoadProgram_loader]
  exact ((elfBegin_explained c s).entries maxHeaders 0).resets _ _ _

end Explained

/-- A file at 0x3000 with one program header of this type and these sizes, right
behind the ELF header, and no section headers. -/
def tinyElf (type fileSize memorySize : Nat) : Machine where
  mem :=
    let m := writeLE (fun _ => 0) (0x3000 + 32) 8 64
    let m := writeLE m (0x3000 + 54) 2 56
    let m := writeLE m (0x3000 + 56) 2 1
    let m := writeLE m (0x3000 + 64) 4 type
    let m := writeLE m (0x3000 + 64 + 32) 8 fileSize
    writeLE m (0x3000 + 64 + 40) 8 memorySize
  highestPage := 0x10000
  usablePages := 0
  bitmap := ⟨0x1000, 0x1000⟩

/-- The file at 0x3000 is loaded, and `malloc` returns 0x4000 and 0x4040. -/
def tinyCall : ElfCall where
  elfBase := 0x3000
  base := 0
  pagemap := 0x2000
  wantsLd := true
  malloc := fun k _ => 0x4000 + 64 * k

/-- The loader after the one segment of `tinyElf 1 16 0`. -/
def allCleared : Loader :=
  loadSegment tinyCall (elfBegin tinyCall (tinyElf 1 16 0))
    (elfBegin tinyCall (tinyElf 1 16 0)).current

/-- No frames are asked for, so the segment is put at NULL, and everything behind
its 16 bytes is cleared. -/
theorem allCleared_mem {a : Nat} (h1 : 16 ≤ a) (h2 : a < 2 ^ 64) : allCleared.machine.mem a = 0 := by
  have hp : (elfBegin tinyCall (tinyElf 1 16 0)).current = ⟨1, 0, 0, 16, 0⟩ := by decide +kernel
  have hpages : (⟨1, 0, 0, 16, 0⟩ : ProgramHeader).pageCount = 0 := by decide
  unfold allCleared
  rw [loadSegment_mem, hp, hpages, pmmAllocateZero_zero]
  show memset _ 16 0#8 (2 ^ 64 - 16) a = 0
  rw [memset_apply, if_pos (by omega)]
  rfl

theorem allCleared_count : allCleared.header.programHeaderTableEntryCount = 0 ∧
    allCleared.header.sectionHeaderTableEntryCount = 0 := by
  have hhdr : allCleared.elfHeader = 0x4000 := by decide +kernel
  unfold Loader.header readElfHeader
  rw [hhdr]
  exact ⟨readLE_zero fun a h1 h2 => allCleared_mem (by omega) (by omega),
    readLE_zero fun a h1 h2 => allCleared_mem (by omega) (by omega)⟩

theorem allCleared_loaded : elfLoaded tinyCall (tinyElf 1 16 0) = nextHeader allCleared := by
  have hfirst : loadEntry tinyCall (elfBegin tinyCall (tinyElf 1 16 0)) = some allCleared := by
    have hp : (elfBegin tinyCall (tinyElf 1 16 0)).current.type = 1 := by decide +kernel
    unfold loadEntry
    dsimp only
    rw [hp]
    rfl
  have hcount : 0 < (elfBegin tinyCall (tinyElf 1 16 0)).header.programHeaderTableEntryCount := by
    decide +kernel
  have hend : ¬ 0 + 1 < (nextHeader allCleared).header.programHeaderTableEntryCount := by
    rw [nextHeader_header, allCleared_count.1]
    exact Nat.not_lt_zero _
  obtain ⟨fuel, hfuel⟩ : ∃ fuel, maxHeaders = fuel + 1 := by
    unfold maxHeaders
    exact ⟨2 ^ 16 - 1, rfl⟩
  unfold elfLoaded
  rw [hfuel, loadEntries_next hcount hfirst, loadEntries_end hend]

end BestOS
