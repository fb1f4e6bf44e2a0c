/-
BestOS/Vmm.lean

The page tables, `arch/memory/vmm.c`.

A table is a 4096-byte frame of 512 little-endian 64-bit entries; the model
addresses it by its physical address.  `get_next_level` returns the pointer
`(entry & ~0x1ff) + MMAP_IO_BASE`, which the kernel dereferences through the
direct map, so the model returns the physical address `entry & ~0x1ff`.  The
spin lock and the TLB flush have no counterpart: the model is sequential and
has no TLB.

Beside the code stands the architecture's own view of the same memory:
`translate` is the x86-64 four-level walk (present bit 0, frame address in
bits 12 to 51).  Note the two different masks: the hardware drops bits 0 to
11 and 52 to 63 of an entry, `get_next_level` drops bits 0 to 8 only.
-/
import BestOS.Pmm
import BestOS.RadixForest
import Mathlib.Data.Finset.Card
import Mathlib.Data.Finset.Range

namespace BestOS

open ByteMemory RadixForest

/-- `MMAP_IO_BASE` of `arch/memory.h`. -/
def MMAP_IO_BASE : Nat := 0xffff800000000000

/-- `MMAP_KERNEL_BASE` of `arch/memory.h`. -/
def MMAP_KERNEL_BASE : Nat := 0xffffffff80000000

def MAP_FIXED : Nat := 0x04

def MAP_ANONYMOUS : Nat := 0x08

def ALLOC_BASE : Nat := 0x1000000

/-! ### `vmm.c` -/

/-- `table[index]`. -/
def entry (m : Mem) (table index : Nat) : Nat := readLE m (table + 8 * index) 8

/-- `table[index] = v`. -/
def setEntry (m : Mem) (table index v : Nat) : Mem := writeLE m (table + 8 * index) 8 v

/-- `PML_ENTRY(addr, offset)`. -/
def pmlEntry (addr offset : Nat) : Nat := (addr &&& (0x1ff <<< offset)) >>> offset

/-- `get_next_level(table, index, flags)`: the next table and the new state. -/
def getNextLevel (s : Machine) (table index flags : Nat) : Nat × Machine :=
  let s' :=
    if entry s.mem table index &&& 1 = 0 then
      let r := pmmAllocateZero s 1
      let m := setEntry r.2.mem table index r.1
      { r.2 with mem := setEntry m table index (entry m table index ||| flags) }
    else s
  -- the mask clears nine bits, not twelve
  (entry s'.mem table index &&& not64 0x1ff, s')

/-- The descent `vmm_map` and `vmm_unmap` both begin with: the last-level table
for an address. -/
def getPml1 (s : Machine) (pagemap va flags : Nat) : Nat × Machine :=
  let pml3 := getNextLevel s pagemap (pmlEntry va 39) flags
  let pml2 := getNextLevel pml3.2 pml3.1 (pmlEntry va 30) flags
  getNextLevel pml2.2 pml2.1 (pmlEntry va 21) flags

/-- The descent, and then `pml1[level1] = v`. -/
def writePml1 (s : Machine) (pagemap va flags v : Nat) : Machine :=
  let pml1 := getPml1 s pagemap va flags
  { pml1.2 with mem := setEntry pml1.2.mem pml1.1 (pmlEntry va 12) v }

/-- `vmm_map(pagemap, physical_address, virtual_address, flags)`. -/
def vmmMap (s : Machine) (pagemap pa va flags : Nat) : Machine :=
  writePml1 s pagemap va flags (pa ||| flags)

/-- `vmm_unmap(pagemap, virtual_address, flags)`. -/
def vmmUnmap (s : Machine) (pagemap va flags : Nat) : Machine :=
  writePml1 s pagemap va flags 0

/-- Successive calls of `vmm_map` on one page map, given by their physical and
virtual addresses. -/
def mapPages (s : Machine) (pagemap flags : Nat) (pages : List (Nat × Nat)) : Machine :=
  pages.foldl (fun s p => vmmMap s pagemap p.1 p.2 flags) s

theorem mapPages_cons (s : Machine) (pagemap flags : Nat) (p : Nat × Nat) (pages : List (Nat × Nat)) :
    mapPages s pagemap flags (p :: pages)
      = mapPages (vmmMap s pagemap p.1 p.2 flags) pagemap flags pages := rfl

/-- The values of `i` in `for (i = start; i < end; i += PAGE_SIZE)`, for an
`end` at least a page below `2 ^ 64`. -/
def pageSteps (start stop : Nat) : List Nat :=
  (List.range ((stop - start + PAGE_SIZE - 1) / PAGE_SIZE)).map fun k => start + k * PAGE_SIZE

/-- `vmm_map_range(pagemap, start, end, offset, flags)`. -/
def vmmMapRange (s : Machine) (pagemap start stop offset flags : Nat) : Machine :=
  mapPages s pagemap flags ((pageSteps start stop).map fun i => (i, (i + offset) % 2 ^ 64))

/-- `vmm_initialize`, on the memory map as `pmm_initialize` has left it:
`kernel_pagemap` and the new state.  The last loop maps `0` to `entry.length`
for every usable entry, whatever its base. -/
def vmmInitialize (s : Machine) (map : List MmapEntry) : Nat × Machine :=
  let r := pmmAllocateZero s 1
  let kernelPagemap := r.1
  let s := vmmMapRange r.2 kernelPagemap 0 0x8000000 MMAP_KERNEL_BASE 0b11
  let s := vmmMapRange s kernelPagemap 0 0x100000000 MMAP_IO_BASE 0b11
  let usable := map.filter fun e => e.type = .usable
  (kernelPagemap, usable.foldl
    (fun s e => vmmMapRange s kernelPagemap 0 e.length MMAP_IO_BASE 0b11) s)

/-- `pages` of `vmm_mmap`. -/
def mmapPageCount (size : Nat) : Nat := alignUp size PAGE_SIZE / PAGE_SIZE

/-- `virt` of `vmm_mmap`. -/
def mmapVirt (hint flags usedPages : Nat) : Nat :=
  if flags &&& 0xFFFFFFFF &&& MAP_FIXED ≠ 0 then hint
  else (usedPages * 4096 + ALLOC_BASE) % 2 ^ 64

/-- The addresses the loop of `vmm_mmap` maps. -/
def mmapAddresses (hint size flags usedPages : Nat) : List Nat :=
  (List.range (mmapPageCount size)).map fun i =>
    (mmapVirt hint flags usedPages + i * 4096) % 2 ^ 64

/-- One round of the loop of `vmm_mmap`: the page gets a zeroed frame.  A
`NULL` from the allocator is logged and then mapped all the same. -/
def mmapPage (s : Machine) (pagemap virt : Nat) : Machine :=
  let r := pmmAllocateZero s 1
  vmmMap r.2 pagemap r.1 virt 0b111

/-- The loop of `vmm_mmap`. -/
def mmapPages (s : Machine) (pagemap : Nat) (virts : List Nat) : Machine :=
  virts.foldl (fun s virt => mmapPage s pagemap virt) s

theorem mmapPages_cons (s : Machine) (pagemap virt : Nat) (virts : List Nat) :
    mmapPages s pagemap (virt :: virts) = mmapPages (mmapPage s pagemap virt) pagemap virts := rfl

/-- What `vmm_mmap` leaves: `*ret`, `*used_pages` and the state. -/
structure MmapResult where
  ret : Nat
  usedPages : Nat
  machine : Machine

/-- `vmm_mmap(pagemap, hint, size, flags, used_pages, ret)`.  Without
`MAP_ANONYMOUS` it loops for ever. -/
def vmmMmap (s : Machine) (pagemap hint size flags usedPages : Nat) : Option MmapResult :=
  if flags &&& 0xFFFFFFFF &&& MAP_ANONYMOUS = 0 then
    none
  else
    some
      { ret := mmapVirt hint flags usedPages
        usedPages :=
          if flags &&& 0xFFFFFFFF &&& MAP_FIXED ≠ 0 then usedPages
          else (usedPages + mmapPageCount size) % 2 ^ 64
        machine := mmapPages s pagemap (mmapAddresses hint size flags usedPages) }

/-! ### The hardware walk -/

/-- Bits 12 to 51 of an entry. -/
def frameOf (e : Nat) : Nat := e &&& 0x000ffffffffff000

/-- What slot `i` of table `t` points to, if it is present. -/
def child (m : Mem) (t : Nat) (i : Fin 512) : Option Nat :=
  if entry m t i % 2 = 1 then some (frameOf (entry m t i)) else none

/-- The nine index bits of an address from bit `offset` on. -/
def index (va offset : Nat) : Fin 512 := ⟨va / 2 ^ offset % 512, Nat.mod_lt _ (by decide)⟩

/-- The four indices of a virtual address. -/
def vaPath (va : Nat) : List (Fin 512) := [index va 39, index va 30, index va 21, index va 12]

/-- The frame a virtual address is translated to. -/
def translate (m : Mem) (pagemap va : Nat) : Option Nat := walk (child m) pagemap (vaPath va)

/-- The page of an address in the 48-bit address space. -/
def vaPage (va : Nat) : Nat := va % 2 ^ 48 / PAGE_SIZE

theorem pmlEntry_eq (va offset : Nat) : pmlEntry va offset = (index va offset).val := by
  have hpow : 2 ^ (offset + 9) = 2 ^ offset * 512 := by rw [pow_add]; rfl
  have hmask : 0x1ff <<< offset = 2 ^ (offset + 9) - 2 ^ offset := by
    rw [Nat.shiftLeft_eq, hpow]
    omega
  rw [pmlEntry, hmask, BitMask.and_field_mask (by omega), Nat.shiftRight_eq_div_pow,
    Nat.mul_div_cancel _ (Nat.two_pow_pos offset), hpow, Nat.mod_mul_right_div_self]
  rfl

/-- Two addresses have the same indices exactly when they are in one page. -/
theorem vaPath_eq_iff (va va' : Nat) : vaPath va' = vaPath va ↔ vaPage va' = vaPage va := by
  simp only [vaPath, vaPage, index, PAGE_SIZE, List.cons.injEq, Fin.mk.injEq, and_true]
  omega

theorem translate_congr (m : Mem) (pagemap : Nat) {va va' : Nat} (h : vaPage va' = vaPage va) :
    translate m pagemap va' = translate m pagemap va := by
  rw [translate, translate, (vaPath_eq_iff va va').mpr h]

/-- A page map that is walked as before translates as before. -/
theorem translate_of_walk {m m' : Mem} {r : Nat}
    (h : ∀ q : List (Fin 512), q.length ≤ 4 → walk (child m') r q = walk (child m) r q) (va : Nat) :
    translate m' r va = translate m r va :=
  h (vaPath va) (by simp [vaPath])

theorem frameOf_eq (e : Nat) : frameOf e = e % 2 ^ 52 / 4096 * 4096 := by
  have hmask : (0x000ffffffffff000 : Nat) = 2 ^ 52 - 2 ^ 12 := by decide
  rw [frameOf, hmask, BitMask.and_field_mask (by decide)]
  rfl

/-! ### Entries -/

theorem entry_lt (m : Mem) (t i : Nat) : entry m t i < 2 ^ 64 := by
  have := readLE_lt m (t + 8 * i) 8
  simpa [entry] using this

theorem entry_congr {m m' : Mem} {t : Nat} (i : Fin 512)
    (h : ∀ a, t ≤ a → a < t + PAGE_SIZE → m' a = m a) : entry m' t i = entry m t i := by
  have hi := i.isLt
  refine readLE_congr fun a h1 h2 => h a (by omega) ?_
  simp only [PAGE_SIZE]
  omega

theorem child_congr {m m' : Mem} {t : Nat} {i : Fin 512} (h : entry m' t i = entry m t i) :
    child m' t i = child m t i := by
  simp only [child, h]

theorem child_eq_none {m : Mem} {t : Nat} {i : Fin 512} (h : entry m t i = 0) :
    child m t i = none := by
  rw [child, h]
  rfl

theorem entry_setEntry_same (m : Mem) (t i : Nat) {v : Nat} (hv : v < 2 ^ 64) :
    entry (setEntry m t i v) t i = v := by
  rw [entry, setEntry, readLE_writeLE_same]
  exact Nat.mod_eq_of_lt (by simpa using hv)

/-- Slots of page-aligned tables do not overlap. -/
theorem entry_setEntry_ne (m : Mem) {t t' : Nat} (ht : t % PAGE_SIZE = 0)
    (ht' : t' % PAGE_SIZE = 0) {i j : Fin 512} (v : Nat) (h : ¬ (t' = t ∧ j = i)) :
    entry (setEntry m t i v) t' j = entry m t' j := by
  refine readLE_writeLE_disjoint m ?_
  have hi := i.isLt
  have hj := j.isLt
  have hij : t' = t → j.val ≠ i.val := fun e hv => h ⟨e, Fin.ext hv⟩
  simp only [PAGE_SIZE] at ht ht'
  omega

theorem setEntry_agree (m : Mem) (t v : Nat) (i : Fin 512) {a : Nat}
    (h : a < t ∨ t + PAGE_SIZE ≤ a) : setEntry m t i v a = m a := by
  have hi := i.isLt
  refine writeLE_agree m _ _ _ ?_
  simp only [PAGE_SIZE] at h
  omega

end BestOS
