/-
BestOS/LibAlloc.lean

`malloc` of `lib/alloc.c` and its hook into the frame allocator, `kernel/main.c`.

Every block has a boundary tag of 48 bytes in front of it.  Free tags hang on the
lists `l_freePages`, one for each power of two; `malloc` takes the first tag that is
large enough off its list, or a new run of pages from `liballoc_alloc`, and splits
off what it does not need.

Pointers are the kernel's: `liballoc_alloc` adds `MMAP_IO_BASE` to the physical
address of the pages, so the tag at a pointer `p` is kept in memory at `physical p`.
With NULL from the frame allocator the sum is no NULL any more, and this is what
`allocate_new_tag` looks for: it takes the bottom of physical memory for its block
(`malloc_out_of_memory`).
-/
import BestOS.Vmm

namespace BestOS

open ByteMemory

def LIBALLOC_MAGIC : Nat := 0xc001c0de
def MINEXP : Nat := 8
def MAXEXP : Nat := 32
/-- `l_pageSize`. -/
def L_PAGE_SIZE : Nat := 4096
/-- `l_pageCount`. -/
def L_PAGE_COUNT : Nat := 16
/-- `sizeof(struct boundary_tag)`. -/
def TAG_SIZE : Nat := 48

/-! ### The hook -/

/-- `liballoc_alloc(s)`: the pointer and the state. -/
def liballocAlloc (s : Machine) (pages : Int) : Nat × Machine :=
  let r := pmmAllocateZero s (toSize pages)
  ((r.1 + MMAP_IO_BASE) % 2 ^ 64, r.2)

/-- The physical address behind a pointer into the kernel's window. -/
def physical (p : Nat) : Nat := (p + 2 ^ 64 - MMAP_IO_BASE) % 2 ^ 64

/-! ### Tags -/

/-- The fields of `struct boundary_tag`. -/
inductive TagField
  | magic
  | size
  | realSize
  | index
  | splitLeft
  | splitRight
  | next
  | prev

def TagField.offset : TagField → Nat
  | .magic => 0
  | .size => 4
  | .realSize => 8
  | .index => 12
  | .splitLeft => 16
  | .splitRight => 24
  | .next => 32
  | .prev => 40

def TagField.width : TagField → Nat
  | .magic | .size | .realSize | .index => 4
  | .splitLeft | .splitRight | .next | .prev => 8

/-- Memory and the statics of `alloc.c`. -/
structure LibAlloc where
  machine : Machine
  initialized : Bool
  freePages : Nat → Nat
  completePages : Nat → Int

namespace LibAlloc

/-- `tag->field`. -/
def get (h : LibAlloc) (tag : Nat) (f : TagField) : Nat :=
  readLE h.machine.mem (physical (tag + f.offset)) f.width

/-- `tag->field = v`. -/
def set (h : LibAlloc) (tag : Nat) (f : TagField) (v : Nat) : LibAlloc :=
  { h with machine :=
    { h.machine with mem := writeLE h.machine.mem (physical (tag + f.offset)) f.width v } }

end LibAlloc

/-- The loop of `getexp`, with `left` values of `shift` to go.  `1 << shift` is an
`int`. -/
def getexpLoop (size : Nat) : Nat → Nat
  | 0 => MAXEXP
  | left + 1 =>
      let shift := MAXEXP - (left + 1)
      if toSize (toInt (2 ^ shift)) > size then shift else getexpLoop size left

/-- `getexp(size)`. -/
def getexp (size : Nat) : Int :=
  if size < 2 ^ MINEXP then -1 else getexpLoop size (MAXEXP - MINEXP) - 1

/-- The list that blocks of a size are kept on. -/
def listIndex (size : Nat) : Nat :=
  if getexp size < MINEXP then MINEXP else (getexp size).toNat

/-- `insert_tag(tag, -1)`. -/
def insertTag (h : LibAlloc) (tag : Nat) : LibAlloc :=
  let realIndex := listIndex ((h.get tag .realSize + 2 ^ 64 - TAG_SIZE) % 2 ^ 64)
  let h := h.set tag .index realIndex
  let first := h.freePages realIndex
  let h :=
    if first ≠ 0 then (h.set first .prev tag).set tag .next first
    else h
  { h with freePages := Function.update h.freePages realIndex tag }

/-- `remove_tag(tag)`. -/
def removeTag (h : LibAlloc) (tag : Nat) : LibAlloc :=
  let index := h.get tag .index
  let h :=
    if h.freePages index = tag then
      { h with freePages := Function.update h.freePages index (h.get tag .next) }
    else h
  let h := if h.get tag .prev ≠ 0 then h.set (h.get tag .prev) .next (h.get tag .next) else h
  let h := if h.get tag .next ≠ 0 then h.set (h.get tag .next) .prev (h.get tag .prev) else h
  ((h.set tag .next 0).set tag .prev 0).set tag .index (2 ^ 32 - 1)

/-- `split_tag(tag)`. -/
def splitTag (h : LibAlloc) (tag : Nat) : LibAlloc :=
  let remainder := (h.get tag .realSize + 2 ^ 32 - TAG_SIZE + 2 ^ 32 - h.get tag .size) % 2 ^ 32
  let newTag := (tag + TAG_SIZE + h.get tag .size) % 2 ^ 64
  let h := h.set newTag .magic LIBALLOC_MAGIC
  let h := h.set newTag .realSize remainder
  let h := (h.set newTag .next 0).set newTag .prev 0
  let h := (h.set newTag .splitLeft tag).set newTag .splitRight (h.get tag .splitRight)
  let right := h.get newTag .splitRight
  let h := if right ≠ 0 then h.set right .splitLeft newTag else h
  let h := h.set tag .splitRight newTag
  let h := h.set tag .realSize ((h.get tag .realSize + 2 ^ 32 - h.get newTag .realSize) % 2 ^ 32)
  insertTag h newTag

/-! ### `malloc` -/

/-- The pages `allocate_new_tag(size)` asks for. -/
def newTagPages (size : Nat) : Nat :=
  let usage := (size % 2 ^ 32 + TAG_SIZE) % 2 ^ 32
  let pages := usage / L_PAGE_SIZE + if usage % L_PAGE_SIZE ≠ 0 then 1 else 0
  if toInt pages < L_PAGE_COUNT then L_PAGE_COUNT else pages

/-- `allocate_new_tag(size)`: the tag, or NULL, and the state. -/
def allocateNewTag (h : LibAlloc) (size : Nat) : Nat × LibAlloc :=
  let r := liballocAlloc h.machine (toInt (newTagPages size))
  let tag := r.1
  let h := { h with machine := r.2 }
  if tag = 0 then (0, h)
  else
    let h := h.set tag .magic LIBALLOC_MAGIC
    let h := h.set tag .size size
    let h := h.set tag .realSize (newTagPages size * L_PAGE_SIZE)
    let h := h.set tag .index (2 ^ 32 - 1)
    let h := (h.set tag .next 0).set tag .prev 0
    (tag, (h.set tag .splitLeft 0).set tag .splitRight 0)

/-- The search of `malloc` along a list: the first tag that is large enough, or NULL.
A list that goes round for ever has no result. -/
def findTag (h : LibAlloc) (size : Nat) : Nat → Nat → Option Nat
  | 0, _ => none
  | fuel + 1, tag =>
      if tag = 0 then some 0
      else if (h.get tag .realSize + 2 ^ 64 - TAG_SIZE) % 2 ^ 64 ≥ (size + TAG_SIZE) % 2 ^ 64 then
        some tag
      else findTag h size fuel (h.get tag .next)

/-- `l_freePages` and `l_completePages` are cleared at the first call. -/
def liballocInit (h : LibAlloc) : LibAlloc :=
  if h.initialized then h
  else { h with
    initialized := true
    freePages := fun _ => 0
    completePages := fun _ => 0 }

/-- The end of `malloc`: the size is recorded, and what is left of the block is split
off if it is worth a list. -/
def useTag (h : LibAlloc) (size tag : Nat) : Nat × LibAlloc :=
  let h := h.set tag .size size
  let remainder := (h.get tag .realSize + 2 ^ 64 - size % 2 ^ 64 + 2 ^ 64 - TAG_SIZE * 2) % 2 ^ 32
  let h := if toInt remainder > 0 ∧ getexp remainder ≥ 0 then splitTag h tag else h
  ((tag + TAG_SIZE) % 2 ^ 64, h)

/-- `malloc(size)`: the pointer and the state. -/
def malloc (fuel : Nat) (h : LibAlloc) (size : Nat) : Option (Nat × LibAlloc) :=
  let h := liballocInit h
  let index := listIndex size
  match findTag h size fuel (h.freePages index) with
  | none => none
  | some 0 =>
      let r := allocateNewTag h size
      some (if r.1 = 0 then (0, r.2) else useTag r.2 size r.1)
  | some tag =>
      let h := removeTag h tag
      let h :=
        if h.get tag .splitLeft = 0 ∧ h.get tag .splitRight = 0 then
          { h with completePages :=
            Function.update h.completePages index (h.completePages index - 1) }
        else h
      some (useTag h size tag)

/-! ### Out of memory -/

/-- `pmm_allocate(pages)` finds no room. -/
def NoRoom (s : Machine) (pages : Nat) : Prop := pmmAllocate s pages = (0, s)

/-- A failed allocation of `pages` pages leaves memory alone, and NULL goes up through
`liballoc_alloc` and `malloc`. -/
structure FailureHarmless (s : Machine) (pages : BitVec 32) : Prop where
  memory : (pmmAllocateZero s (toSize pages.toInt)).2.mem = s.mem
  hook : (liballocAlloc s pages.toInt).1 = 0
  malloc : ∀ (fuel : Nat) (h : LibAlloc) (size : Nat), h.machine = s →
    toInt (newTagPages size) = pages.toInt →
    findTag (liballocInit h) size fuel ((liballocInit h).freePages (listIndex size)) = some 0 →
    malloc fuel h size = some (0, liballocInit h)

theorem memset_eq_self_iff (m : Mem) (a n : Nat) (c : BitVec 8) :
    memset m a c n = m ↔ ∀ x, a ≤ x → x < a + n → m x = c := by
  constructor
  · intro h x h1 h2
    rw [← h, memset_apply, if_pos ⟨h1, h2⟩]
  · intro h
    funext x
    rw [memset_apply]
    split
    · next hx => exact (h x hx.1 hx.2).symm
    · rfl

/-- What the zeroing allocator does with NULL: it clears the bottom of memory. -/
theorem pmmAllocateZero_of_noRoom {s : Machine} {pages : Nat} (h : NoRoom s pages) :
    pmmAllocateZero s pages
      = (0, { s with mem := memset s.mem 0 0#8 (pages * PAGE_SIZE % 2 ^ 64) }) := by
  rw [pmmAllocateZero, h]

theorem liballocAlloc_of_noRoom {s : Machine} {pages : Int} (h : NoRoom s (toSize pages)) :
    (liballocAlloc s pages).1 = MMAP_IO_BASE := by
  have hlt : 0 + MMAP_IO_BASE < 2 ^ 64 := by decide
  rw [liballocAlloc, pmmAllocateZero_of_noRoom h]
  exact (Nat.mod_eq_of_lt hlt).trans (Nat.zero_add _)

@[simp] theorem liballocInit_machine (h : LibAlloc) : (liballocInit h).machine = h.machine := by
  unfold liballocInit
  split <;> rfl

theorem useTag_fst (h : LibAlloc) (size tag : Nat) :
    (useTag h size tag).1 = (tag + TAG_SIZE) % 2 ^ 64 := rfl

/-- **`malloc` never sees NULL.**  When no tag of the list is large enough and the frame
allocator has no room, the pointer handed out is that of a block at physical address 0. -/
theorem malloc_out_of_memory (fuel : Nat) (h : LibAlloc) (size : Nat)
    (hroom : NoRoom h.machine (toSize (toInt (newTagPages size))))
    (hfind : findTag (liballocInit h) size fuel ((liballocInit h).freePages (listIndex size))
      = some 0) :
    (malloc fuel h size).map Prod.fst = some (MMAP_IO_BASE + TAG_SIZE) := by
  have hroom' : NoRoom (liballocInit h).machine (toSize (toInt (newTagPages size))) := by
    rw [liballocInit_machine]
    exact hroom
  have hhook := liballocAlloc_of_noRoom hroom'
  have hne : MMAP_IO_BASE ≠ 0 := by decide
  have hlt : MMAP_IO_BASE + TAG_SIZE < 2 ^ 64 := by decide
  have htag : (allocateNewTag (liballocInit h) size).1 = MMAP_IO_BASE := by
    simp only [allocateNewTag, hhook, if_neg hne]
  simp only [malloc, hfind, htag, if_neg hne, Option.map_some, useTag_fst,
    Nat.mod_eq_of_lt hlt]

/-- **A failed allocation is never harmless.**  The zeroing allocator leaves memory alone
exactly when the bytes it clears at the bottom of memory are zero already, the pointer
that `liballoc_alloc` makes of NULL is never NULL, and no `malloc` returns NULL for it. -/
theorem failure_not_harmless (s : Machine) (pages : Nat) (h : NoRoom s pages) :
    ((pmmAllocateZero s pages).2.mem = s.mem
      ↔ ∀ x < pages * PAGE_SIZE % 2 ^ 64, s.mem x = 0#8) ∧
    (∀ i : BitVec 32, toSize i.toInt = pages → ¬ FailureHarmless s i) ∧
    ∀ (fuel : Nat) (a : LibAlloc) (size : Nat), a.machine = s →
      toSize (toInt (newTagPages size)) = pages →
      findTag (liballocInit a) size fuel ((liballocInit a).freePages (listIndex size)) = some 0 →
      (malloc fuel a size).map Prod.fst = some (MMAP_IO_BASE + TAG_SIZE) := by
  refine ⟨?_, ?_, ?_⟩
  · rw [pmmAllocateZero_of_noRoom h, memset_eq_self_iff]
    simp
  · rintro i rfl hharm
    have hhook := hharm.hook
    rw [liballocAlloc_of_noRoom h] at hhook
    exact absurd hhook (by decide)
  · rintro fuel a size rfl rfl hfind
    exact malloc_out_of_memory fuel a size h hfind

/-- Two pages of memory, both in use. -/
def exhausted : Machine :=
  { mem := fun _ => 0xff#8, highestPage := 0x2000, usablePages := 0, bitmap := ⟨0x1000, 0x1000⟩ }

theorem exhausted_noRoom : NoRoom exhausted 16 := rfl

theorem failure_not_harmless_exhausted :
    NoRoom exhausted 16 ∧ (pmmAllocateZero exhausted 16).2.mem ≠ exhausted.mem := by
  refine ⟨exhausted_noRoom, fun h => ?_⟩
  have hzero := (failure_not_harmless exhausted 16 exhausted_noRoom).1.mp h 0 (by decide)
  exact absurd hzero (by decide)

/-- The first `malloc` on an exhausted machine clears the bottom of memory and returns a
pointer. -/
theorem out_of_memory_unnoticed :
    NoRoom exhausted 16 ∧ ¬ FailureHarmless exhausted 16 ∧
    (pmmAllocateZero exhausted 16).2.mem ≠ exhausted.mem ∧
    (liballocAlloc exhausted 16).1 = MMAP_IO_BASE ∧
    (malloc 1 ⟨exhausted, false, fun _ => 0, fun _ => 0⟩ 100).map Prod.fst
      = some (MMAP_IO_BASE + TAG_SIZE) := by
  have hmem : (pmmAllocateZero exhausted 16).2.mem ≠ exhausted.mem := by
    rw [pmmAllocateZero_of_noRoom exhausted_noRoom, Ne, memset_eq_self_iff]
    intro h
    exact absurd (h 0 (by decide) (by decide)) (by decide)
  exact ⟨exhausted_noRoom, fun h => hmem h.memory, hmem, liballocAlloc_of_noRoom exhausted_noRoom,
    malloc_out_of_memory 1 _ 100 exhausted_noRoom rfl⟩

end BestOS
