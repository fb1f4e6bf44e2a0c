/-
BestOS/Gates.lean

Where the processor goes at an interrupt, and on which stack.

`idt_initialize` and `gdt_initialize` build tables that only the processor reads, with an
address cut into three or four parts.  `gateOf` and `taskSegmentOf` are the processor's side:
what it takes from the bytes of an entry.  After `idt_initialize` the gate of each vector
leads to its entry in `__interrupt_vector`, for the kernel alone and with interrupts off, but
for gate 0x42, which a task may call and which leaves interrupts on (`idt_initialize_gates`).
After `gdt_initialize` the stack for an interrupt in a task is the one that was passed
(`gdt_initialize_stack`); the limit of the segment is taken from the size of its descriptor,
not of the segment, and the segment's other stacks are behind it.
-/
import BestOS.Mem

namespace BestOS

open ByteMemory

/-! ### The interrupt descriptor table -/

def INTGATE : Nat := 0x8e

def TRAPGATE : Nat := 0xef

/-- `IdtDescriptor`. -/
structure IdtDescriptor where
  offsetLo : Nat
  selector : Nat
  ist : Nat
  typeAttr : Nat
  offsetMid : Nat
  offsetHi : Nat
  zero : Nat

/-- `idt_make_entry`. -/
def idtMakeEntry (offset type : Nat) : IdtDescriptor where
  offsetLo := offset &&& 0xFFFF
  selector := 0x28
  ist := 0
  typeAttr := type
  offsetMid := (offset >>> 16) &&& 0xFFFF
  offsetHi := (offset >>> 32) &&& 0xFFFFFFFF
  zero := 0

/-- An assignment of the packed structure. -/
def IdtDescriptor.store (m : Mem) (a : Nat) (d : IdtDescriptor) : Mem :=
  let m := writeLE m a 2 d.offsetLo
  let m := writeLE m (a + 2) 2 d.selector
  let m := writeLE m (a + 4) 1 d.ist
  let m := writeLE m (a + 5) 1 d.typeAttr
  let m := writeLE m (a + 6) 2 d.offsetMid
  let m := writeLE m (a + 8) 4 d.offsetHi
  writeLE m (a + 12) 4 d.zero

/-- The first `n` rounds of the loop of `install_isr`. -/
def installLoop (m : Mem) (idt : Nat) (vector : Nat → Nat) : Nat → Mem
  | 0 => m
  | i + 1 => (idtMakeEntry (vector i) INTGATE).store (installLoop m idt vector i) (idt + 16 * i)

/-- `install_isr`, with `__interrupt_vector`. -/
def installIsr (m : Mem) (idt : Nat) (vector : Nat → Nat) : Mem :=
  (idtMakeEntry (vector 66) TRAPGATE).store (installLoop m idt vector 256) (idt + 16 * 66)

/-- What a gate tells the processor: where to go, with which code segment and stack, the
lowest privilege that may call it, and whether interrupts stay on. -/
structure Gate where
  handler : Nat
  selector : Nat
  ist : Nat
  privilege : Nat
  keepsInterrupts : Bool
deriving DecidableEq

/-- Gate `n` of the table at `idt`, as the processor reads it; none if it is not present or
no interrupt or trap gate. -/
def gateAt (m : Mem) (idt n : Nat) : Option Gate :=
  let a := idt + 16 * n
  let attr := readLE m (a + 5) 1
  if attr / 128 % 2 = 1 ∧ attr % 32 / 2 = 7 then
    some
      { handler := readLE m a 2 + 2 ^ 16 * readLE m (a + 6) 2 + 2 ^ 32 * readLE m (a + 8) 4
        selector := readLE m (a + 2) 2
        ist := readLE m (a + 4) 1 % 8
        privilege := attr / 32 % 4
        keepsInterrupts := attr % 2 = 1 }
  else none

variable {m m' : Mem} {idt n : Nat}

theorem IdtDescriptor.store_agree (m : Mem) (a : Nat) (d : IdtDescriptor) {x : Nat}
    (h : x < a ∨ a + 16 ≤ x) : d.store m a x = m x := by
  simp (disch := omega) only [IdtDescriptor.store, writeLE_agree]

/-- A gate is given by its 16 bytes. -/
theorem gateAt_congr (h : ∀ x, idt + 16 * n ≤ x → x < idt + 16 * n + 16 → m' x = m x) :
    gateAt m' idt n = gateAt m idt n := by
  have hread : ∀ i k, i + k ≤ 16 →
      readLE m' (idt + 16 * n + i) k = readLE m (idt + 16 * n + i) k := fun i k hik =>
    readLE_congr fun x h1 h2 => h x (by omega) (by omega)
  have hfirst := hread 0 2 (by decide)
  rw [Nat.add_zero] at hfirst
  simp only [gateAt, hfirst, hread 2 2 (by decide), hread 4 1 (by decide), hread 5 1 (by decide),
    hread 6 2 (by decide), hread 8 4 (by decide)]

/-- The three parts of an address make up the address. -/
theorem offset_parts {offset : Nat} (h : offset < 2 ^ 64) :
    (offset &&& 0xFFFF) % 256 ^ 2 + 2 ^ 16 * (((offset >>> 16) &&& 0xFFFF) % 256 ^ 2) +
      2 ^ 32 * (((offset >>> 32) &&& 0xFFFFFFFF) % 256 ^ 4) = offset := by
  have h16 : ∀ x : Nat, x &&& 0xFFFF = x % 2 ^ 16 := fun x => Nat.and_two_pow_sub_one_eq_mod x 16
  have h32 : ∀ x : Nat, x &&& 0xFFFFFFFF = x % 2 ^ 32 := fun x =>
    Nat.and_two_pow_sub_one_eq_mod x 32
  rw [h16, h16, h32, Nat.shiftRight_eq_div_pow, Nat.shiftRight_eq_div_pow]
  omega

/-- The gate that an entry of `idt_make_entry` is. -/
theorem gateAt_store (m : Mem) (idt n : Nat) {offset type : Nat} (ho : offset < 2 ^ 64)
    (ht : type < 256) (hgate : type / 128 % 2 = 1 ∧ type % 32 / 2 = 7) :
    gateAt ((idtMakeEntry offset type).store m (idt + 16 * n)) idt n =
      some ⟨offset, 0x28, 0, type / 32 % 4, type % 2 = 1⟩ := by
  have hattr : type % 256 ^ 1 = type := Nat.mod_eq_of_lt ht
  simp (disch := omega) only [gateAt, IdtDescriptor.store, readLE_writeLE_disjoint,
    readLE_writeLE_same]
  simp only [idtMakeEntry, hattr, if_pos hgate, offset_parts ho]
  rfl

/-- After `n` rounds the first `n` gates are set. -/
theorem installLoop_gates (m : Mem) (idt : Nat) {vector : Nat → Nat}
    (hv : ∀ i, vector i < 2 ^ 64) {i : Nat} (hi : i < n) :
    gateAt (installLoop m idt vector n) idt i = some ⟨vector i, 0x28, 0, 0, false⟩ := by
  induction n with
  | zero => exact absurd hi (Nat.not_lt_zero i)
  | succ n ih =>
    rw [installLoop]
    rcases Nat.lt_succ_iff_lt_or_eq.mp hi with hlt | rfl
    · rw [gateAt_congr fun x h1 h2 => IdtDescriptor.store_agree _ _ _ (by omega), ih hlt]
    · exact gateAt_store _ idt i (hv i) (by decide) (by decide)

theorem installLoop_agree (m : Mem) (idt : Nat) (vector : Nat → Nat) {x : Nat}
    (h : x < idt ∨ idt + 16 * n ≤ x) : installLoop m idt vector n x = m x := by
  induction n with
  | zero => rfl
  | succ n ih =>
    rw [installLoop, IdtDescriptor.store_agree _ _ _ (by omega), ih (by omega)]

theorem installIsr_gates (m : Mem) (idt : Nat) {vector : Nat → Nat}
    (hv : ∀ i, vector i < 2 ^ 64) {i : Nat} (hi : i < 256) :
    gateAt (installIsr m idt vector) idt i =
      some ⟨vector i, 0x28, 0, if i = 0x42 then 3 else 0, i = 0x42⟩ := by
  rw [installIsr]
  by_cases h66 : i = 66
  · subst h66
    exact gateAt_store _ idt 66 (hv 66) (by decide) (by decide)
  · rw [gateAt_congr fun x h1 h2 => IdtDescriptor.store_agree _ _ _ (by omega),
      installLoop_gates m idt hv hi, if_neg h66, decide_eq_false h66]

theorem installIsr_agree (m : Mem) (idt : Nat) (vector : Nat → Nat) {x : Nat}
    (h : x < idt ∨ idt + 4096 ≤ x) : installIsr m idt vector x = m x := by
  rw [installIsr, IdtDescriptor.store_agree _ _ _ (by omega),
    installLoop_agree m idt vector (by omega)]

/-- `IdtPointer` and `GdtPointer`, with its two fields assigned. -/
def storePointer (m : Mem) (p limit base : Nat) : Mem :=
  writeLE (writeLE m p 2 limit) (p + 2) 8 base

/-- `idt_initialize`; `idtr` and `idt` are where the variables stand. -/
def idtInitialize (m : Mem) (idtr idt : Nat) (vector : Nat → Nat) : Mem :=
  installIsr (storePointer m idtr (256 * 16 - 1) idt) idt vector

/-- Gate `n` of the table that `lidt` has loaded from `idtr`. -/
def gateOf (m : Mem) (idtr n : Nat) : Option Gate :=
  if 16 * n + 15 ≤ readLE m idtr 2 then gateAt m (readLE m (idtr + 2) 8) n else none

/-- **The gates.**  After `idt_initialize` each of the 256 vectors has a gate, which leads to
the handler of `__interrupt_vector`; a task may call gate 0x42 only, the one that leaves
interrupts on.  Nothing but the table and its pointer is written. -/
theorem idt_initialize_gates (m : Mem) {idtr idt : Nat} {vector : Nat → Nat}
    (hv : ∀ i, vector i < 2 ^ 64) (hidt : idt < 2 ^ 64)
    (hapart : idtr + 10 ≤ idt ∨ idt + 4096 ≤ idtr) :
    (∀ i < 256, gateOf (idtInitialize m idtr idt vector) idtr i =
      some ⟨vector i, 0x28, 0, if i = 0x42 then 3 else 0, i = 0x42⟩) ∧
    ∀ x, (x < idt ∨ idt + 4096 ≤ x) → (x < idtr ∨ idtr + 10 ≤ x) →
      idtInitialize m idtr idt vector x = m x := by
  have hlimit : readLE (idtInitialize m idtr idt vector) idtr 2 = 4095 := by
    rw [idtInitialize, readLE_congr fun x h1 h2 => installIsr_agree _ idt vector (by omega),
      storePointer, readLE_writeLE_disjoint _ (by omega), readLE_writeLE_same]
    rfl
  have hbase : readLE (idtInitialize m idtr idt vector) (idtr + 2) 8 = idt := by
    rw [idtInitialize, readLE_congr fun x h1 h2 => installIsr_agree _ idt vector (by omega),
      storePointer, readLE_writeLE_same]
    omega
  refine ⟨fun i hi => ?_, fun x hx hp => ?_⟩
  · rw [gateOf, hlimit, hbase, if_pos (by omega)]
    exact installIsr_gates _ idt hv hi
  · rw [idtInitialize, installIsr_agree _ idt vector hx, storePointer,
      writeLE_agree _ _ _ _ (by omega), writeLE_agree _ _ _ _ (by omega)]

/-- Handlers of 16 bytes each, one behind the other. -/
theorem idt_initialize_gates_small :
    gateOf (idtInitialize (fun _ => 0) 0x1000 0x2000 fun i => (0xffffffff80000000 + 16 * i) % 2 ^ 64)
      0x1000 0x42 = some ⟨0xffffffff80000420, 0x28, 0, 3, true⟩ :=
  (idt_initialize_gates _ (fun _ => Nat.mod_lt _ (by decide)) (by decide) (by decide)).1 0x42
    (by decide)

/-! ### The task state segment -/

/-- `TssEntry`. -/
structure TssEntry where
  length : Nat
  base0 : Nat
  base1 : Nat
  flags1 : Nat
  flags2 : Nat
  base2 : Nat
  base3 : Nat
  reserved : Nat

/-- `make_tss_entry`; the length is the size of the entry itself. -/
def makeTssEntry (tss : Nat) : TssEntry where
  length := 16
  base0 := tss &&& 0xffff
  base1 := (tss >>> 16) &&& 0xff
  flags1 := 0b10001001
  flags2 := 0
  base2 := (tss >>> 24) &&& 0xff
  base3 := tss >>> 32
  reserved := 0

def TssEntry.store (m : Mem) (a : Nat) (d : TssEntry) : Mem :=
  let m := writeLE m a 2 d.length
  let m := writeLE m (a + 2) 2 d.base0
  let m := writeLE m (a + 4) 1 d.base1
  let m := writeLE m (a + 5) 1 d.flags1
  let m := writeLE m (a + 6) 1 d.flags2
  let m := writeLE m (a + 7) 1 d.base2
  let m := writeLE m (a + 8) 4 d.base3
  writeLE m (a + 12) 4 d.reserved

/-- `gdt_initialize`.  The segment is cleared when its entry is there already; `rsp[0]` is at
offset 4 and `iopb_offset` at the end. -/
def gdtInitialize (m : Mem) (gdtr gdt tss stack size : Nat) : Mem :=
  let m := storePointer m gdtr (88 - 1) gdt
  let m := (makeTssEntry tss).store m (gdt + 72)
  let m := memset m tss 0 104
  let m := writeLE m (tss + 4) 8 (stack + size)
  writeLE m (tss + 102) 2 104

/-- A segment of the processor: the address of its first and the offset of its last byte. -/
structure TaskSegment where
  base : Nat
  limit : Nat
deriving DecidableEq

/-- The task state segment that `ltr` loads with the selector, by the table that `lgdt` has
loaded from `gdtr`: present, and of the type for one that is not in use. -/
def taskSegmentOf (m : Mem) (gdtr selector : Nat) : Option TaskSegment :=
  let a := readLE m (gdtr + 2) 8 + selector
  if selector + 15 ≤ readLE m gdtr 2 ∧ readLE m (a + 5) 1 % 32 = 9 ∧
      readLE m (a + 5) 1 / 128 = 1 then
    some
      { base := readLE m (a + 2) 2 + 2 ^ 16 * readLE m (a + 4) 1 + 2 ^ 24 * readLE m (a + 7) 1 +
          2 ^ 32 * readLE m (a + 8) 4
        limit := readLE m a 2 + 2 ^ 16 * (readLE m (a + 6) 1 % 16) }
  else none

/-- The stack that the processor takes when it enters the kernel from a task. -/
def TaskSegment.kernelStack (m : Mem) (seg : TaskSegment) : Option Nat :=
  if 4 + 8 ≤ seg.limit + 1 then some (readLE m (seg.base + 4) 8) else none

theorem base_parts {tss : Nat} (h : tss < 2 ^ 64) :
    (tss &&& 0xffff) % 256 ^ 2 + 2 ^ 16 * (((tss >>> 16) &&& 0xff) % 256 ^ 1) +
      2 ^ 24 * (((tss >>> 24) &&& 0xff) % 256 ^ 1) + 2 ^ 32 * ((tss >>> 32) % 256 ^ 4) = tss := by
  have h16 : ∀ x : Nat, x &&& 0xffff = x % 2 ^ 16 := fun x => Nat.and_two_pow_sub_one_eq_mod x 16
  have h8 : ∀ x : Nat, x &&& 0xff = x % 2 ^ 8 := fun x => Nat.and_two_pow_sub_one_eq_mod x 8
  rw [h16, h8, h8, Nat.shiftRight_eq_div_pow, Nat.shiftRight_eq_div_pow, Nat.shiftRight_eq_div_pow]
  omega

/-- Bytes that `memset` has not covered are read as before. -/
theorem readLE_memset (m : Mem) {a n b k : Nat} {c : BitVec 8} (h : b + k ≤ a ∨ a + n ≤ b) :
    readLE (memset m a c n) b k = readLE m b k :=
  readLE_congr fun x h1 h2 => by rw [memset_apply, if_neg (by omega)]

/-- **The stack for interrupts.**  After `gdt_initialize` selector 0x48, which `tss_update`
loads, is the task state segment; it has no more than 17 bytes for the processor, and the
stack it names for the kernel is the end of the one that was passed. -/
theorem gdt_initialize_stack (m : Mem) {gdtr gdt tss stack size : Nat} (hgdt : gdt < 2 ^ 64)
    (htss : tss < 2 ^ 64) (hstack : stack + size < 2 ^ 64)
    (h1 : gdtr + 10 ≤ gdt ∨ gdt + 88 ≤ gdtr) (h2 : gdtr + 10 ≤ tss ∨ tss + 104 ≤ gdtr)
    (h3 : gdt + 88 ≤ tss ∨ tss + 104 ≤ gdt) :
    taskSegmentOf (gdtInitialize m gdtr gdt tss stack size) gdtr 0x48 = some ⟨tss, 16⟩ ∧
      TaskSegment.kernelStack (gdtInitialize m gdtr gdt tss stack size) ⟨tss, 16⟩ =
        some (stack + size) := by
  constructor
  · have hbase : readLE (gdtInitialize m gdtr gdt tss stack size) (gdtr + 2) 8 = gdt := by
      simp (disch := omega) only [gdtInitialize, TssEntry.store, storePointer,
        readLE_writeLE_disjoint, readLE_memset, readLE_writeLE_same]
      omega
    rw [taskSegmentOf, hbase]
    simp (disch := omega) only [gdtInitialize, TssEntry.store, storePointer,
      readLE_writeLE_disjoint, readLE_memset, readLE_writeLE_same]
    simp only [makeTssEntry, base_parts htss]
    rfl
  · rw [TaskSegment.kernelStack, if_pos (show 4 + 8 ≤ 16 + 1 by decide)]
    simp (disch := omega) only [gdtInitialize, readLE_writeLE_disjoint, readLE_writeLE_same]
    rw [Nat.mod_eq_of_lt (show stack + size < 256 ^ 8 by omega)]

theorem gdt_initialize_stack_small :
    TaskSegment.kernelStack (gdtInitialize (fun _ => 0) 0x1000 0x2000 0x3000 0x8000 0x4000)
      ⟨0x3000, 16⟩ = some 0xc000 :=
  (gdt_initialize_stack _ (by decide) (by decide) (by decide) (by decide) (by decide)
    (by decide)).2

end BestOS
