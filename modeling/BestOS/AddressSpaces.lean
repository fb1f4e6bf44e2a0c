/-
BestOS/AddressSpaces.lean

The address spaces of the running system: the kernel's page map and those of
the tasks, from boot on.

The state is physical memory with the frame allocator, `kernel_pagemap`, for
each task the fields of its record that concern memory, and the page runs the
kernel heap has obtained through `liballoc_alloc`.  The steps are what changes
any of these:

* `task_init` (`kernel/sched.c`): a stack, a top-level table whose upper half
  is copied from `kernel_pagemap`, and the mapping of the stack;
* one loadable segment of `elf_load_program` (`kernel/elf.c`);
* `sys_mmap` and `sys_exit` (`kernel/syscalls.c`);
* `liballoc_alloc` and `liballoc_free` (`kernel/main.c`);
* a store of a task to one of its pages, and a store of the kernel.

Pointers are physical addresses: `task->pagemap` is kept without its
`MMAP_KERNEL_BASE`, and the kernel's windows onto physical memory are taken to
reach every frame.  `used_pages` of a new task is whatever `malloc` left in the
record, `task_init` does not set it.
-/
import BestOS.MapRange

namespace BestOS

open ByteMemory RadixForest

/-! ### The two halves -/

/-- The top-level slots that `task_init` copies from `kernel_pagemap`. -/
def KernelSlot (i : Fin 512) : Prop := 256 ≤ i.val

instance : DecidablePred KernelSlot := fun i => inferInstanceAs (Decidable (256 ≤ i.val))

/-- An address below the kernel half. -/
def UserHalf (va : Nat) : Prop := ¬ KernelSlot (index va 39)

instance : DecidablePred UserHalf := fun va => inferInstanceAs (Decidable (¬ KernelSlot (index va 39)))

/-! ### State -/

/-- What a `Task` knows of its memory. -/
structure TaskMem where
  pagemap : Nat
  sp : Nat
  usedPages : Nat
deriving Repr, DecidableEq

/-- The memory of the whole system. -/
structure System where
  machine : Machine
  kernelPagemap : Nat
  tasks : List TaskMem
  /-- The runs `liballoc_alloc` has handed to the heap: address and page count. -/
  blocks : List (Nat × Nat)

/-- All top-level tables. -/
def System.pagemaps (s : System) : Set Nat :=
  insert s.kernelPagemap { r | ∃ t ∈ s.tasks, t.pagemap = r }

/-! ### The operations -/

/-- The system after `vmm_initialize`. -/
def bootedSystem (s : Machine) (map : List MmapEntry) : System where
  machine := (vmmInitialize s map).2
  kernelPagemap := (vmmInitialize s map).1
  tasks := []
  blocks := []

/-- `pmm_initialize` and `vmm_initialize`. -/
def bootSystem (mem : Mem) (map : List MmapEntry) : Option System :=
  (pmmInitialize mem map).map fun r => bootedSystem r.1 r.2

/-- `for (int i = 256; i < 512; i++) new->pagemap[i] = prev_pagemap[i]`, the
first `n` rounds. -/
def copyKernelHalf (m : Mem) (pagemap prevPagemap : Nat) : Nat → Mem
  | 0 => m
  | n + 1 =>
      let m' := copyKernelHalf m pagemap prevPagemap n
      setEntry m' pagemap (256 + n) (entry m' prevPagemap (256 + n))

/-- The whole loop. -/
def shareKernelHalf (s : Machine) (pagemap prevPagemap : Nat) : Machine :=
  { s with mem := copyKernelHalf s.mem pagemap prevPagemap 256 }

/-- The pages of a new task's stack. -/
def stackPages (stack : Nat) : List (Nat × Nat) :=
  (List.range (STACK_SIZE / 4096)).map fun i =>
    ((i * PAGE_SIZE + stack) % 2 ^ 64, (i * PAGE_SIZE + (USER_STACK_TOP - STACK_SIZE)) % 2 ^ 64)

/-- `task_init`. -/
def taskInit (s : System) (usedPages : Nat) : System :=
  let stack := pmmAllocateZero s.machine (STACK_SIZE / PAGE_SIZE)
  let pagemap := pmmAllocateZero stack.2 1
  let copied := shareKernelHalf pagemap.2 pagemap.1 s.kernelPagemap
  { s with
    machine := mapPages copied pagemap.1 0b111 (stackPages stack.1)
    tasks := s.tasks ++ [⟨pagemap.1, stack.1, usedPages⟩] }

/-- The fields of a program header that the mapping of a segment reads. -/
structure Segment where
  virtualAddress : Nat
  memorySize : Nat
deriving Repr, DecidableEq

/-- `page_count` of `elf_load_program`. -/
def Segment.pageCount (p : Segment) : Nat :=
  let misalign := p.virtualAddress &&& (PAGE_SIZE - 1)
  (misalign + p.memorySize + (PAGE_SIZE - 1)) % 2 ^ 64 / PAGE_SIZE

/-- The addresses a segment is mapped at. -/
def Segment.addresses (p : Segment) (base : Nat) : List Nat :=
  (List.range p.pageCount).map fun j => (base + j * PAGE_SIZE + p.virtualAddress) % 2 ^ 64

/-- The pages of a segment that was given the frames from `newAddr` on. -/
def Segment.pages (p : Segment) (base newAddr : Nat) : List (Nat × Nat) :=
  (List.range p.pageCount).map fun j =>
    ((j * PAGE_SIZE + newAddr) % 2 ^ 64, (base + j * PAGE_SIZE + p.virtualAddress) % 2 ^ 64)

/-- One `ELF_PROGRAM_HEADER_LOAD` round of `elf_load_program`, up to the copying
of the contents. -/
def elfLoadSegment (s : Machine) (pagemap base : Nat) (p : Segment) : Machine :=
  let r := pmmAllocateZero s p.pageCount
  mapPages r.2 pagemap 0b111 (p.pages base r.1)

/-- The steps. -/
inductive SysOp
  | taskInit (usedPages : Nat)
  | loadSegment (task base : Nat) (p : Segment)
  | mmap (task hint size flags : Nat)
  | exit (task : Nat)
  | heapAlloc (pages : Nat)
  | heapFree (block : Nat)
  | userStore (task va : Nat) (b : BitVec 8)
  | kernelStore (a : Nat) (b : BitVec 8)

/-- One step.  `none`: there is no such task or block, or the step does not
return (`mmap` without `MAP_ANONYMOUS`), or it faults (a task's store outside
its mapped pages; the kernel half is mapped without the user bit). -/
def sysStep (s : System) : SysOp → Option System
  | .taskInit usedPages => some (taskInit s usedPages)
  | .loadSegment i base p =>
      s.tasks[i]?.map fun t => { s with machine := elfLoadSegment s.machine t.pagemap base p }
  | .mmap i hint size flags =>
      s.tasks[i]?.bind fun t =>
        (vmmMmap s.machine t.pagemap hint size flags t.usedPages).map fun r =>
          { s with
            machine := r.machine
            tasks := s.tasks.set i { t with usedPages := r.usedPages } }
  | .exit i =>
      s.tasks[i]?.map fun t =>
        { s with
          machine := pmmFree (pmmFree s.machine t.sp (STACK_SIZE / PAGE_SIZE)) t.pagemap 1
          tasks := s.tasks.eraseIdx i }
  | .heapAlloc n =>
      let r := pmmAllocateZero s.machine n
      some { s with machine := r.2, blocks := (r.1, n) :: s.blocks }
  | .heapFree j =>
      s.blocks[j]?.map fun b =>
        { s with machine := pmmFree s.machine b.1 b.2, blocks := s.blocks.eraseIdx j }
  | .userStore i va b =>
      s.tasks[i]?.bind fun t =>
        if UserHalf va then
          (translate s.machine.mem t.pagemap va).map fun f =>
            { s with machine :=
              { s.machine with mem := put s.machine.mem (f + va % PAGE_SIZE) b } }
        else none
  | .kernelStore a b =>
      some { s with machine := { s.machine with mem := put s.machine.mem a b } }

/-- The states reached from `boot` by steps that meet `ok` in the state they
are taken in. -/
inductive SysRun (ok : System → SysOp → Prop) (boot : System) : System → Prop
  | boot : SysRun ok boot boot
  | step {s s'} (op) : SysRun ok boot s → ok s op → sysStep s op = some s' → SysRun ok boot s'

/-! ### Where a step keeps to its half -/

/-- The frames for `n` pages of contents and for the tables missing along
`vas`. -/
def Supplied (s : System) (pagemap n : Nat) (vas : List Nat) : Prop :=
  n + (missingTables s.machine.mem pagemap vas).card ≤ freeCount s.machine

/-- The condition on a step: what a task maps lies below the kernel half, the
pool has the frames the step asks for, runs of pages are found free behind the
lowest free page, and the kernel's own stores miss the page tables and the
allocator's bitmap. -/
def KeepsHalves (s : System) : SysOp → Prop
  | .taskInit _ => RunFree s.machine (STACK_SIZE / PAGE_SIZE) ∧ 8 ≤ freeCount s.machine
  | .loadSegment i base p => ∀ t, s.tasks[i]? = some t →
      (p.pageCount = 0 ∨ RunFree s.machine p.pageCount) ∧
      Supplied s t.pagemap p.pageCount (p.addresses base) ∧
      ∀ va ∈ p.addresses base, UserHalf va
  | .mmap i hint size flags => ∀ t, s.tasks[i]? = some t →
      Supplied s t.pagemap (mmapPageCount size) (mmapAddresses hint size flags t.usedPages) ∧
      ∀ va ∈ mmapAddresses hint size flags t.usedPages, UserHalf va
  | .heapAlloc n => 1 ≤ n ∧ RunFree s.machine n
  | .kernelStore a _ => ¬ InBitmap s.machine a ∧
      ∀ t, Table (child s.machine.mem) s.pagemaps 3 t → a < t ∨ t + PAGE_SIZE ≤ a
  | .exit _ => True
  | .heapFree _ => True
  | .userStore _ _ _ => True

end BestOS
