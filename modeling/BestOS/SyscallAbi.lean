/-
BestOS/SyscallAbi.lean

From the library's arguments to the kernel's.

A system call passes through three layouts.  The `SYSCALLn` macros of mlibc's
sysdeps load registers; the processor and `pushaq` push these on the kernel
stack; and the handler reads them there as the fields of a `Stack` and narrows
them by casts.  An argument of type `int` fills the lower half of its register
only, the upper half is what it was.

`readStack_enterInterrupt` settles the middle part: the fields carry the
registers they are named after.  What is left is which register each side uses.
They agree for every call but one: mlibc passes the flags of `sys_openat` in
`rdx` and zero in `r10`, and the kernel reads `r10`.
-/
import BestOS.KernelStack
import BestOS.ByteLayout
import BestOS.Vmm

namespace BestOS

open ByteMemory

/-! ### The library's side -/

/-- The registers of a task at `int $0x42`. -/
structure Registers where
  rax : BitVec 64
  rbx : BitVec 64
  rcx : BitVec 64
  rdx : BitVec 64
  rsi : BitVec 64
  rdi : BitVec 64
  rbp : BitVec 64
  r8 : BitVec 64
  r9 : BitVec 64
  r10 : BitVec 64
  r11 : BitVec 64
  r12 : BitVec 64
  r13 : BitVec 64
  r14 : BitVec 64
  r15 : BitVec 64
  rip : BitVec 64
  cs : BitVec 64
  rflags : BitVec 64
  rsp : BitVec 64
  ss : BitVec 64

/-- An operand of the macros: an `int`, or a pointer or another 64-bit value. -/
inductive Operand
  | int (v : BitVec 32)
  | word (v : BitVec 64)

/-- The register after the operand is loaded. -/
def Operand.load (old : BitVec 64) : Operand → BitVec 64
  | .int v => old.extractLsb' 32 32 ++ v
  | .word v => v

/-- `SYSCALL1`. -/
def syscall1 (r : Registers) (num : BitVec 32) (arg0 : Operand) : Registers :=
  { r with
    rax := (Operand.int num).load r.rax
    rdi := arg0.load r.rdi }

/-- `SYSCALL3`. -/
def syscall3 (r : Registers) (num : BitVec 32) (arg0 arg1 arg2 : Operand) : Registers :=
  { syscall1 r num arg0 with
    rsi := arg1.load r.rsi
    rdx := arg2.load r.rdx }

/-- `SYSCALL4`. -/
def syscall4 (r : Registers) (num : BitVec 32) (arg0 arg1 arg2 arg3 : Operand) : Registers :=
  { syscall3 r num arg0 arg1 arg2 with r10 := arg3.load r.r10 }

/-- `SYSCALL6`. -/
def syscall6 (r : Registers) (num : BitVec 32) (arg0 arg1 arg2 arg3 arg4 arg5 : Operand) :
    Registers :=
  { syscall4 r num arg0 arg1 arg2 arg3 with
    r8 := arg4.load r.r8
    r9 := arg5.load r.r9 }

def SYSCALL_LOG : BitVec 32 := 0
def SYSCALL_MMAP : BitVec 32 := 1
def SYSCALL_SET_FS_BASE : BitVec 32 := 2
def SYSCALL_OPENAT : BitVec 32 := 3
def SYSCALL_READ : BitVec 32 := 4
def SYSCALL_WRITE : BitVec 32 := 5
def SYSCALL_CLOSE : BitVec 32 := 6
def SYSCALL_SEEK : BitVec 32 := 7
def SYSCALL_EXIT : BitVec 32 := 8
def SYSCALL_EXECVE : BitVec 32 := 9

/-- A call of a function of mlibc's sysdeps that makes a system call, with its
arguments; pointers are addresses. -/
inductive LibcCall
  | libcLog (message : BitVec 64)
  | vmMap (hint size : BitVec 64) (prot flags fd : BitVec 32) (offset : BitVec 64)
  | tcbSet (pointer : BitVec 64)
  | openat (dirfd : BitVec 32) (path : BitVec 64) (flags : BitVec 32)
  | read (fd : BitVec 32) (buf count : BitVec 64)
  | write (fd : BitVec 32) (buf count : BitVec 64)
  | close (fd : BitVec 32)
  | seek (fd : BitVec 32) (offset : BitVec 64) (whence : BitVec 32)
  | exit (status : BitVec 32)
  | execve (path argv envp : BitVec 64)

/-- The registers a function of the sysdeps enters the kernel with. -/
def LibcCall.stub (r : Registers) : LibcCall → Registers
  | .libcLog message => syscall1 r SYSCALL_LOG (.word message)
  | .vmMap hint size prot flags fd offset =>
      syscall6 r SYSCALL_MMAP (.word hint) (.word size) (.int prot) (.int flags) (.int fd)
        (.word offset)
  | .tcbSet pointer => syscall1 r SYSCALL_SET_FS_BASE (.word pointer)
  | .openat dirfd path flags =>
      syscall4 r SYSCALL_OPENAT (.int dirfd) (.word path) (.int flags) (.int 0)
  | .read fd buf count => syscall3 r SYSCALL_READ (.int fd) (.word buf) (.word count)
  | .write fd buf count => syscall3 r SYSCALL_WRITE (.int fd) (.word buf) (.word count)
  | .close fd => syscall1 r SYSCALL_CLOSE (.int fd)
  | .seek fd offset whence => syscall3 r SYSCALL_SEEK (.int fd) (.word offset) (.int whence)
  | .exit status => syscall1 r SYSCALL_EXIT (.int status)
  | .execve path argv envp => syscall3 r SYSCALL_EXECVE (.word path) (.word argv) (.word envp)

/-! ### The kernel stack -/

/-- One `push`: the stack pointer and memory after it. -/
def push (s : Nat × Mem) (v : BitVec 64) : Nat × Mem := (s.1 - 8, writeLE s.2 (s.1 - 8) 8 v.toNat)

/-- What is pushed at an interrupt without an error code, in order: five words by
the processor, two by `INTERRUPT_NOERR`, and the rest by `pushaq`. -/
def interruptPushes (r : Registers) (intno : BitVec 64) : List (BitVec 64) :=
  [r.ss, r.rsp, r.rflags, r.cs, r.rip,
    0, intno,
    r.rax, r.rbx, r.rcx, r.rdx, r.rsi, r.rdi, r.rbp, r.r8, r.r9, r.r10, r.r11, r.r12, r.r13, r.r14,
    r.r15]

/-- The stack pointer and memory when `interrupts_handler` is called; `top` is
the stack pointer before. -/
def enterInterrupt (r : Registers) (intno : BitVec 64) (top : Nat) (m : Mem) : Nat × Mem :=
  (interruptPushes r intno).foldl push (top, m)

/-- The structure `Stack` at an address. -/
def readStack (m : Mem) (a : Nat) : Stack :=
  let field i := BitVec.ofNat 64 (readLE m (a + 8 * i) 8)
  { r15 := field 0, r14 := field 1, r13 := field 2, r12 := field 3, r11 := field 4
    r10 := field 5, r9 := field 6, r8 := field 7, rbp := field 8, rdi := field 9
    rsi := field 10, rdx := field 11, rcx := field 12, rbx := field 13, rax := field 14
    intno := field 15, err := field 16
    rip := field 17, cs := field 18, rflags := field 19, rsp := field 20, ss := field 21 }

/-- The frame the handler should find: each field the register of its name. -/
def frameOfRegisters (r : Registers) (intno : BitVec 64) : Stack where
  r15 := r.r15
  r14 := r.r14
  r13 := r.r13
  r12 := r.r12
  r11 := r.r11
  r10 := r.r10
  r9 := r.r9
  r8 := r.r8
  rbp := r.rbp
  rdi := r.rdi
  rsi := r.rsi
  rdx := r.rdx
  rcx := r.rcx
  rbx := r.rbx
  rax := r.rax
  intno := intno
  err := 0
  rip := r.rip
  cs := r.cs
  rflags := r.rflags
  rsp := r.rsp
  ss := r.ss

/-- Words that are pushed stand in the reverse order, below what was there. -/
theorem foldl_push {m₀ : Mem} {top : Nat} (vs : List (BitVec 64)) {s : Nat × Mem} {ws : List Nat}
    (h : Block m₀ top s.2 s.1 ws) (hroom : 8 * vs.length ≤ s.1) :
    Block m₀ top (vs.foldl push s).2 (vs.foldl push s).1 ((vs.map BitVec.toNat).reverse ++ ws) := by
  induction vs generalizing s ws with
  | nil => exact h
  | cons v vs ih =>
      rw [List.length_cons] at hroom
      have hone : Block m₀ top (push s v).2 (push s v).1 (v.toNat :: ws) :=
        h.push v.isLt (by omega)
      have hrest := ih hone (by
        show 8 * vs.length ≤ s.1 - 8
        omega)
      rw [List.foldl_cons, List.map_cons, List.reverse_cons, List.append_assoc]
      exact hrest

/-- Reading a structure is reading its words. -/
theorem words_readStack {m : Mem} {a : Nat} {f : Stack} (h : WordsAt m a (f.words.map BitVec.toNat)) :
    readStack m a = f := by
  simp only [Stack.words, List.map_cons, List.map_nil, WordsAt, Nat.add_assoc, Nat.reduceAdd] at h
  obtain ⟨h0, h1, h2, h3, h4, h5, h6, h7, h8, h9, h10, h11, h12, h13, h14, h15, h16, h17, h18, h19,
    h20, h21, -⟩ := h
  simp only [readStack, Nat.mul_zero, Nat.add_zero, Nat.reduceMul, h0, h1, h2, h3, h4, h5, h6, h7,
    h8, h9, h10, h11, h12, h13, h14, h15, h16, h17, h18, h19, h20, h21, BitVec.ofNat_toNat,
    BitVec.setWidth_eq]

/-- **The frame carries the registers.** -/
theorem readStack_enterInterrupt (r : Registers) (intno : BitVec 64) {top : Nat} (m : Mem)
    (hroom : 176 ≤ top) :
    readStack (enterInterrupt r intno top m).2 (enterInterrupt r intno top m).1
      = frameOfRegisters r intno := by
  have hblock := foldl_push (s := (top, m)) (interruptPushes r intno) (Block.start m top) hroom
  apply words_readStack
  have hwords := hblock.words
  rw [List.append_nil] at hwords
  exact hwords

/-! ### The kernel's side -/

/-- A handler with what it has taken from the frame and passes on.  Of the flags
of `sys_mmap` these are the 32 bits that `vmm_mmap` looks at. -/
inductive KernelCall
  | log (message : BitVec 64)
  | mmap (hint size : BitVec 64) (flags : BitVec 32)
  | setFs (base : BitVec 64)
  | openat (dirfd : BitVec 32) (path : BitVec 64) (mode : BitVec 32)
  | read (fd : BitVec 32) (buf count : BitVec 64)
  | write (fd : BitVec 32) (buf count : BitVec 64)
  | close (fildes : BitVec 32)
  | seek (fd : BitVec 32) (offset : BitVec 64) (whence : BitVec 32)
  | exit (status : BitVec 32)
  | execve (path argv envp : BitVec 64)
deriving DecidableEq

/-- `(int)` of a register. -/
def toInt32 (r : BitVec 64) : BitVec 32 := r.setWidth 32

/-- `syscalls[num]`, and what that handler reads from the frame. -/
def decodeCall (num : BitVec 32) (stack : Stack) : Option KernelCall :=
  if num = SYSCALL_LOG then some (.log stack.rdi)
  else if num = SYSCALL_MMAP then some (.mmap stack.rdi stack.rsi (toInt32 stack.r10))
  else if num = SYSCALL_SET_FS_BASE then some (.setFs stack.rdi)
  -- `mode_t` has 32 bits
  else if num = SYSCALL_OPENAT then
    some (.openat (toInt32 stack.rdi) stack.rsi (toInt32 stack.r10))
  else if num = SYSCALL_READ then some (.read (toInt32 stack.rdi) stack.rsi stack.rdx)
  else if num = SYSCALL_WRITE then some (.write (toInt32 stack.rdi) stack.rsi stack.rdx)
  else if num = SYSCALL_CLOSE then some (.close (toInt32 stack.rdi))
  else if num = SYSCALL_SEEK then
    some (.seek (toInt32 stack.rdi) stack.rsi (toInt32 stack.rdx))
  else if num = SYSCALL_EXIT then some (.exit (toInt32 stack.rdi))
  else if num = SYSCALL_EXECVE then some (.execve stack.rdi stack.rsi stack.rdx)
  else none

/-- What the kernel makes of `int $0x42`: the handler that `interrupts_handler`
dispatches to, with its arguments. -/
def delivered {τ : Type} [DecidableEq τ] (started : Bool) (k : Kernel τ) (r : Registers) (top : Nat)
    (m : Mem) : Option KernelCall :=
  let s := enterInterrupt r 0x42 top m
  match interruptsHandler started k (readStack s.2 s.1) with
  | some (_, stack, .syscall num) => decodeCall (toInt32 num) stack
  | _ => none

/-- The call and the arguments the library function was given.  `sys_mmap` takes
no `prot`, `fd` and `offset`. -/
def LibcCall.meant : LibcCall → KernelCall
  | .libcLog message => .log message
  | .vmMap hint size _ flags _ _ => .mmap hint size flags
  | .tcbSet pointer => .setFs pointer
  | .openat dirfd path flags => .openat dirfd path flags
  | .read fd buf count => .read fd buf count
  | .write fd buf count => .write fd buf count
  | .close fd => .close fd
  | .seek fd offset whence => .seek fd offset whence
  | .exit status => .exit status
  | .execve path argv envp => .execve path argv envp

theorem delivered_eq {τ : Type} [DecidableEq τ] (started : Bool) (k : Kernel τ) (r : Registers)
    {top : Nat} (m : Mem) (hroom : 176 ≤ top) :
    delivered started k r top m = decodeCall (toInt32 r.rax) (frameOfRegisters r 0x42) := by
  unfold delivered
  dsimp only
  rw [readStack_enterInterrupt r 0x42 m hroom]
  have hhandler : interruptsHandler started k (frameOfRegisters r 0x42)
      = some (k, frameOfRegisters r 0x42, .syscall r.rax) := by
    simp [interruptsHandler, frameOfRegisters]
  rw [hhandler]

@[simp] theorem toInt32_load (old : BitVec 64) (v : BitVec 32) :
    toInt32 ((Operand.int v).load old) = v := by
  rw [toInt32, Operand.load, BitVec.setWidth_append]
  simp

@[simp] theorem load_word (old v : BitVec 64) : (Operand.word v).load old = v := rfl

/-- **What the kernel reads**: the arguments of the library function, but for the
mode of `sys_openat`, which is zero. -/
theorem decodeCall_stub (r : Registers) (c : LibcCall) :
    decodeCall (toInt32 (c.stub r).rax) (frameOfRegisters (c.stub r) 0x42)
      = some (match c with
        | .openat dirfd path _ => .openat dirfd path 0
        | c => c.meant) := by
  cases c <;>
    simp [LibcCall.stub, LibcCall.meant, syscall1, syscall3, syscall4, syscall6, frameOfRegisters,
      decodeCall, SYSCALL_LOG, SYSCALL_MMAP, SYSCALL_SET_FS_BASE, SYSCALL_OPENAT, SYSCALL_READ,
      SYSCALL_WRITE, SYSCALL_CLOSE, SYSCALL_SEEK, SYSCALL_EXIT, SYSCALL_EXECVE]

/-- Registers that hold zero. -/
def zeroRegisters : Registers := ⟨0, 0, 0, 0, 0, 0, 0, 0, 0, 0, 0, 0, 0, 0, 0, 0, 0, 0, 0, 0⟩

/-- The kernel after `sched_init`. -/
def idleKernel : Kernel Nat := ⟨schedInit, none, fun _ => frameOfRegisters zeroRegisters 0⟩

/-- Whatever the registers and the kernel stack were, the kernel makes the call
that the library function was asked for. -/
def AbiAgrees (c : LibcCall) : Prop :=
  ∀ (τ : Type) [DecidableEq τ] (started : Bool) (k : Kernel τ) (r : Registers) (top : Nat) (m : Mem), 176 ≤ top →
    delivered started k (c.stub r) top m = some c.meant

/-- The call is not `sys_openat`, or its flags are zero. -/
def FlagsInR10 : LibcCall → Prop
  | .openat _ _ flags => flags = 0
  | _ => True

/-- **Library and kernel agree** on every call but `sys_openat` with flags. -/
theorem abi_agrees_iff (c : LibcCall) : AbiAgrees c ↔ FlagsInR10 c := by
  have hcall : AbiAgrees c ↔
      (match c with
        | .openat dirfd path _ => KernelCall.openat dirfd path 0
        | c => c.meant) = c.meant := by
    constructor
    · intro h
      have hone := h Nat false idleKernel zeroRegisters 176 (fun _ => 0) (Nat.le_refl _)
      rw [delivered_eq _ _ _ _ (Nat.le_refl _), decodeCall_stub] at hone
      exact Option.some.inj hone
    · intro h τ _ started k r top m hroom
      rw [delivered_eq _ _ _ _ hroom, decodeCall_stub, h]
  rw [hcall]
  cases c with
  | openat dirfd path flags =>
      show KernelCall.openat dirfd path 0 = .openat dirfd path flags ↔ flags = 0
      rw [KernelCall.openat.injEq, and_iff_right rfl, and_iff_right rfl]
      exact eq_comm
  | _ => exact iff_of_true rfl trivial

/-- **The flags of `sys_openat` get lost**: `O_CREAT` does not arrive. -/
theorem openat_flags_lost : ¬ ∀ c : LibcCall, AbiAgrees c := by
  intro hclaim
  have hone := hclaim (.openat (-100) 0x400000 0x10) Nat false idleKernel zeroRegisters 176
    (fun _ => 0) (Nat.le_refl _)
  rw [delivered_eq _ _ _ _ (Nat.le_refl _), decodeCall_stub] at hone
  exact absurd (Option.some.inj hone) (by decide)

end BestOS
