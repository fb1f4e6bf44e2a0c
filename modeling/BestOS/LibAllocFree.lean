/-
BestOS/LibAllocFree.lean

`free`, `calloc` and `realloc` of `lib/alloc.c`, and the hook `liballoc_free` of
`kernel/main.c`.

`free` melts a block with its free neighbours: into the left one as long as there
is one, and then the right ones into it.  What comes out is a whole run, or a part
of one with neighbours in use.  A part goes back onto the list of its size; a whole
run does so too, unless `MAXCOMPLETE` whole runs wait on that list already: then its
pages go back to the frame allocator.

The two loops are given fuel; `free` ends on every heap that the calls of this
file have built.
-/
import BestOS.LibAlloc

namespace BestOS

open ByteMemory

def MAXCOMPLETE : Int := 5

/-- `liballoc_free(p, s)`. -/
def liballocFree (s : Machine) (p : Nat) (pages : Int) : Machine :=
  pmmFree s (physical p) (toSize pages)

namespace LibAlloc

/-- A load of the `n` bytes that `p` points to. -/
def load (h : LibAlloc) (p n : Nat) : Nat := readLE h.machine.mem (physical p) n

/-- A store of `n` bytes where `p` points to. -/
def store (h : LibAlloc) (p n v : Nat) : LibAlloc :=
  { h with machine := { h.machine with mem := writeLE h.machine.mem (physical p) n v } }

end LibAlloc

/-! ### Tags -/

/-- `insert_tag(tag, index)`. -/
def insertTagAt (h : LibAlloc) (tag : Nat) (index : Int) : LibAlloc :=
  let realIndex :=
    if index < 0 then listIndex ((h.get tag .realSize + 2 ^ 64 - TAG_SIZE) % 2 ^ 64)
    else index.toNat
  let h := h.set tag .index realIndex
  let first := h.freePages realIndex
  let h :=
    if first ≠ 0 then (h.set first .prev tag).set tag .next first
    else h
  { h with freePages := Function.update h.freePages realIndex tag }

theorem insertTag_eq (h : LibAlloc) (tag : Nat) : insertTag h tag = insertTagAt h tag (-1) := by
  unfold insertTag insertTagAt
  rw [if_pos (by decide)]

/-- `melt_left(tag)`: the left neighbour, and the state. -/
def meltLeft (h : LibAlloc) (tag : Nat) : Nat × LibAlloc :=
  let left := h.get tag .splitLeft
  let h := h.set left .realSize ((h.get left .realSize + h.get tag .realSize) % 2 ^ 32)
  let h := h.set left .splitRight (h.get tag .splitRight)
  let h :=
    if h.get tag .splitRight ≠ 0 then h.set (h.get tag .splitRight) .splitLeft left else h
  (left, h)

/-- `absorb_right(tag)`. -/
def absorbRight (h : LibAlloc) (tag : Nat) : LibAlloc :=
  let right := h.get tag .splitRight
  let h := removeTag h right
  let h := h.set tag .realSize ((h.get tag .realSize + h.get right .realSize) % 2 ^ 32)
  let h := h.set tag .splitRight (h.get right .splitRight)
  if h.get right .splitRight ≠ 0 then h.set (h.get right .splitRight) .splitLeft tag else h

/-- There is a neighbour and its `index`, an `int`, is not negative. -/
def freeNeighbour (h : LibAlloc) (neighbour : Nat) : Prop :=
  neighbour ≠ 0 ∧ 0 ≤ toInt (h.get neighbour .index)

instance (h : LibAlloc) (neighbour : Nat) : Decidable (freeNeighbour h neighbour) :=
  inferInstanceAs (Decidable (_ ∧ _))

/-- The loop `MELT LEFT` of `free`: the tag and the state. -/
def meltLoop : Nat → LibAlloc → Nat → Option (Nat × LibAlloc)
  | 0, _, _ => none
  | fuel + 1, h, tag =>
      if freeNeighbour h (h.get tag .splitLeft) then
        let r := meltLeft h tag
        meltLoop fuel (removeTag r.2 r.1) r.1
      else some (tag, h)

/-- The loop `MELT RIGHT` of `free`. -/
def absorbLoop : Nat → LibAlloc → Nat → Option LibAlloc
  | 0, _, _ => none
  | fuel + 1, h, tag =>
      if freeNeighbour h (h.get tag .splitRight) then absorbLoop fuel (absorbRight h tag) tag
      else some h

/-! ### `free` -/

/-- The pages of a whole run of `real_size` bytes, as `free` counts them. -/
def releasedPages (realSize : Nat) : Nat :=
  let pages := realSize / L_PAGE_SIZE + if realSize % L_PAGE_SIZE ≠ 0 then 1 else 0
  if toInt pages < L_PAGE_COUNT then L_PAGE_COUNT else pages

/-- The end of `free`: where the tag is going back to. -/
def returnTag (h : LibAlloc) (tag : Nat) : LibAlloc :=
  let index := listIndex ((h.get tag .realSize + 2 ^ 64 - TAG_SIZE) % 2 ^ 64)
  if h.get tag .splitLeft = 0 ∧ h.get tag .splitRight = 0 then
    if h.completePages index = MAXCOMPLETE then
      { h with machine := liballocFree h.machine tag (toInt (releasedPages (h.get tag .realSize))) }
    else
      insertTagAt
        { h with completePages :=
          Function.update h.completePages index (h.completePages index + 1) } tag index
  else insertTagAt h tag index

/-- `free(ptr)`. -/
def free (fuel : Nat) (h : LibAlloc) (ptr : Nat) : Option LibAlloc :=
  if ptr = 0 then some h
  else
    let tag := (ptr + 2 ^ 64 - TAG_SIZE) % 2 ^ 64
    if h.get tag .magic ≠ LIBALLOC_MAGIC then some h
    else
      (meltLoop fuel h tag).bind fun r =>
        (absorbLoop fuel r.2 r.1).map fun h => returnTag h r.1

/-! ### `calloc` and `realloc` -/

/-- `liballoc_memset(s, c, n)`. -/
def liballocMemset (h : LibAlloc) (s c : Nat) : Nat → LibAlloc
  | 0 => h
  | i + 1 => (liballocMemset h s c i).store ((s + i) % 2 ^ 64) 1 c

/-- The first loop of `liballoc_memcpy`: words of four bytes. -/
def copyWords (h : LibAlloc) (s1 s2 : Nat) : Nat → LibAlloc
  | 0 => h
  | i + 1 =>
      let h := copyWords h s1 s2 i
      h.store ((s1 + 4 * i) % 2 ^ 64) 4 (h.load ((s2 + 4 * i) % 2 ^ 64) 4)

/-- The second loop: single bytes. -/
def copyBytes (h : LibAlloc) (cdest csrc : Nat) : Nat → LibAlloc
  | 0 => h
  | i + 1 =>
      let h := copyBytes h cdest csrc i
      h.store ((cdest + i) % 2 ^ 64) 1 (h.load ((csrc + i) % 2 ^ 64) 1)

/-- `liballoc_memcpy(s1, s2, n)`. -/
def liballocMemcpy (h : LibAlloc) (s1 s2 n : Nat) : LibAlloc :=
  let words := 4 * (n / 4)
  copyBytes (copyWords h s1 s2 (n / 4)) ((s1 + words) % 2 ^ 64) ((s2 + words) % 2 ^ 64) (n % 4)

/-- `calloc(nobj, size)`.  `real_size` is an `int`. -/
def LibAlloc.calloc (fuel : Nat) (h : LibAlloc) (nobj size : Nat) : Option (Nat × LibAlloc) :=
  let realSize := toInt (nobj * size)
  (malloc fuel h (toSize realSize)).map fun r =>
    (r.1, liballocMemset r.2 r.1 0 (toSize realSize))

/-- `realloc(p, size)`.  `real_size` is an `int`, and it is compared with `(int)size`. -/
def LibAlloc.realloc (fuel : Nat) (h : LibAlloc) (p size : Nat) : Option (Nat × LibAlloc) :=
  if size = 0 then (free fuel h p).map fun h => (0, h)
  else if p = 0 then malloc fuel h size
  else
    let tag := (p + 2 ^ 64 - TAG_SIZE) % 2 ^ 64
    let realSize := toInt (h.get tag .size)
    let realSize := if realSize > toInt size then toInt size else realSize
    (malloc fuel h size).bind fun r =>
      (free fuel (liballocMemcpy r.2 r.1 p (toSize realSize)) p).map fun h => (r.1, h)

end BestOS
