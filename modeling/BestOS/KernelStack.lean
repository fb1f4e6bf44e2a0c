/-
BestOS/KernelStack.lean

One kernel stack for all tasks.

`gdt_initialize` sets `TSS.rsp[0]` once.  From user mode the processor enters the
kernel there, whichever task is running; from kernel mode it goes on below the
interrupted code.  Either way it aligns the stack to 16 bytes, the stub pushes a
frame of 22 words, and the C code below it uses what it needs.  At a timer
interrupt inside a system call the frame goes below the handler's words, and
`interrupts_handler` may switch to another task.  The words of the handler that
was interrupted stay where they are, on the stack that the next entry from user
mode starts again from the top.

The stack is a function from word addresses (address / 8) to words.  What C code
does with its part of the stack is an argument of the step, so that a run ranges
over everything it may do.  `preempted t` records what a reader wants to compare
with: the stack pointer and the stack as they were when a timer interrupt hit
the handler of `t`.

A handler that is interrupted without a switch finds its words again; after a
switch it does not.  So the condition of the theorem is that a task whose
handler is interrupted by a switch is one that has left the scheduler.
-/
import BestOS.Interrupts

namespace BestOS

variable {τ : Type} [DecidableEq τ]

/-! ### The stack -/

/-- The words of a frame, lowest address first: the order the stub pushes in,
reversed. -/
def Stack.words (f : Stack) : List (BitVec 64) :=
  [f.r15, f.r14, f.r13, f.r12, f.r11, f.r10, f.r9, f.r8, f.rbp, f.rdi, f.rsi, f.rdx, f.rcx, f.rbx,
    f.rax, f.intno, f.err, f.rip, f.cs, f.rflags, f.rsp, f.ss]

/-- A frame pushed right below `top`, and `below` what the code after it leaves
in the words under the frame. -/
def enterAt (stack : Nat → BitVec 64) (top : Nat) (frame : Stack) (below : Nat → BitVec 64) :
    Nat → BitVec 64 := fun a =>
  if top ≤ a then stack a
  else if top ≤ a + 22 then frame.words.getD (a + 22 - top) 0
  else below a

/-- `rsp & ~15`, in words. -/
def alignRsp (rsp : Nat) : Nat := rsp / 2 * 2

/-- Where the processor is: in user mode, in kernel code that can be
interrupted, with this stack pointer, or in a system call that the timer's
handler has dispatched, with interrupts off and the frame `next` right below
`top`. -/
inductive Mode
  | user
  | kernel (rsp : Nat)
  | masked (top : Nat) (next : Stack)

def Mode.isUser : Mode → Bool
  | .user => true
  | _ => false

/-- The mode `iretq` goes to: the privilege level is in the low bits of `cs`. -/
def modeOf (f : Stack) : Mode :=
  if f.cs &&& 3 = 3 then .user else .kernel (f.rsp.toNat / 8)

/-! ### The system -/

/-- The kernel's variables, the stack, and what has happened. -/
structure StackState (τ : Type) where
  kernel : Kernel τ
  stack : Nat → BitVec 64
  mode : Mode
  /-- The tasks made so far. -/
  tasks : List τ
  /-- Stack pointer and stack when a timer interrupt last hit the task, if it
  hit it inside a handler. -/
  preempted : τ → Option (Nat × (Nat → BitVec 64))

/-- What can happen.  The scheduler calls are those of `sched_new_elf_process`,
`sys_exit` and `sys_execve`. -/
inductive StackOp (τ : Type)
  | schedPush (grant : Bool) (t : τ) (initial : Stack)
  | schedRemove
  | setIndex
  | setTick
  | int42 (frame : Stack) (rsp : Nat) (below : Nat → BitVec 64)
  | work (rsp : Nat) (words : Nat → BitVec 64)
  | iretq
  | timer (frame : Stack) (below : Nat → BitVec 64)

/-- The entry point of an interrupt with this frame, if the frame fits the
mode. -/
def entryTop (rsp0 : Nat) : Mode → Stack → Option Nat
  | .user, frame => if frame.cs &&& 3 = 3 then some (alignRsp rsp0) else none
  | .kernel rsp, frame =>
      if frame.cs &&& 3 = 0 ∧ frame.rsp.toNat = 8 * rsp then some (alignRsp rsp) else none
  | .masked _ _, _ => none

/-- The record of a timer interrupt: the running task was hit inside a handler,
or it was not. -/
def recordPreempted (s : StackState τ) : τ → Option (Nat × (Nat → BitVec 64)) :=
  match s.kernel.prevTask, s.mode with
  | some t, .kernel rsp => Function.update s.preempted t (some (rsp, s.stack))
  | some t, _ => Function.update s.preempted t none
  | none, _ => s.preempted

/-- A timer interrupt. -/
def timerStep (rsp0 : Nat) (s : StackState τ) (frame : Stack) (below : Nat → BitVec 64) :
    Option (StackState τ) :=
  if frame.intno = 32 then
    match entryTop rsp0 s.mode frame, interruptsHandler true s.kernel frame with
    | some top, some (kernel, installed, last) =>
        some { s with
          kernel := kernel
          stack := enterAt s.stack top installed below
          mode := match last with
            | .eoi _ => modeOf installed
            | .syscall _ => .masked top installed
          preempted := recordPreempted s }
    | _, _ => none
  else none

/-- One step; `none` when it cannot happen in this state.  A handler may write
its own part of the stack, from `TSS.rsp[0]` down. -/
def stackStep (rsp0 : Nat) (s : StackState τ) : StackOp τ → Option (StackState τ)
  | .schedPush grant t initial =>
      if t ∈ s.tasks ∨ s.mode.isUser then none
      else some { s with
        kernel := { s.kernel with
          sched := schedPush grant (nextPid s.kernel.sched) t
          saved := Function.update s.kernel.saved t initial }
        tasks := t :: s.tasks }
  | .schedRemove =>
      if s.mode.isUser then none
      else s.kernel.prevTask.map fun t =>
        { s with kernel := { s.kernel with sched := schedRemove s.kernel.sched t } }
  | .setIndex =>
      if s.mode.isUser then none
      else some { s with kernel := { s.kernel with
        sched := schedSetIndex s.kernel.sched (schedGetLastPid s.kernel.sched - 2) } }
  | .setTick =>
      if s.mode.isUser then none
      else some { s with kernel := { s.kernel with
        sched := schedSetTick s.kernel.sched (SWITCH_TICK - 1) } }
  | .int42 frame rsp below =>
      if s.mode.isUser ∧ frame.intno = 0x42 ∧ rsp + 22 ≤ alignRsp rsp0 then
        some { s with
          stack := enterAt s.stack (alignRsp rsp0) frame below
          mode := .kernel rsp }
      else none
  | .work rsp words =>
      match s.mode with
      | .user => none
      | .kernel _ =>
          some { s with
            stack := fun a => if alignRsp rsp0 ≤ a then s.stack a else words a
            mode := .kernel rsp }
      | .masked top _ =>
          some { s with stack := fun a => if top ≤ a then s.stack a else words a }
  | .iretq =>
      match s.mode with
      | .user => none
      | .kernel _ => s.kernel.prevTask.map fun _ => { s with mode := .user }
      | .masked _ next => some { s with mode := modeOf next }
  | .timer frame below => timerStep rsp0 s frame below

/-- `kernel_main` on the boot stack, before the first task is made. -/
def bootStack (saved : τ → Stack) (stack : Nat → BitVec 64) (rsp : Nat) : StackState τ where
  kernel := ⟨schedInit, none, saved⟩
  stack := stack
  mode := .kernel rsp
  tasks := []
  preempted := fun _ => none

/-- The states reached by steps that meet `ok` in the state they are taken
in. -/
inductive StackRun (rsp0 : Nat) (ok : StackState τ → StackOp τ → Prop) : StackState τ → Prop
  | boot (saved stack rsp) : StackRun rsp0 ok (bootStack saved stack rsp)
  | step {s s'} (op : StackOp τ) : StackRun rsp0 ok s → ok s op → stackStep rsp0 s op = some s' →
      StackRun rsp0 ok s'

/-! ### The condition -/

/-- `sched_tick` would return the task that is running. -/
def KeepsTask (s : Sched τ) (t : τ) : Prop :=
  s.currentTick + 1 < SWITCH_TICK ∨ s.processes.data (switchIndex s) = some t

/-- A timer interrupt that hits the handler of a task either leaves the task
running or hits a task that no slot of `processes` holds any more. -/
def KeepsStack (s : StackState τ) : StackOp τ → Prop
  | .timer _ _ => ∀ t rsp, s.kernel.prevTask = some t → s.mode = .kernel rsp →
      KeepsTask s.kernel.sched t ∨ ∀ i, s.kernel.sched.processes.data i ≠ some t
  | _ => True

/-! ### The invariant -/

/-- Every task that can be resumed and is not running was last interrupted in
user mode. -/
structure StackInv (s : StackState τ) : Prop where
  current : s.kernel.sched.currentTask = s.kernel.prevTask
  slots : ∀ i t, s.kernel.sched.processes.data i = some t → t ∈ s.tasks
  running : ∀ t, s.kernel.prevTask = some t → t ∈ s.tasks
  fresh : ∀ t, t ∉ s.tasks → s.preempted t = none
  waiting : ∀ i t, s.kernel.sched.processes.data i = some t → s.kernel.prevTask ≠ some t →
    s.preempted t = none

theorem slots_remove {v : Vec τ} {x t : τ} {i : Nat} (h : (vecRemove v x).data i = some t) :
    ∃ j, v.data j = some t := by
  unfold vecRemove at h
  cases hfind : vecFind v x with
  | none =>
      rw [hfind] at h
      exact ⟨i, h⟩
  | some idx =>
      rw [hfind] at h
      simp only [vecSplice] at h
      split at h
      · exact ⟨i + 1, h⟩
      · exact ⟨i, h⟩

omit [DecidableEq τ] in
theorem stackInv_boot (saved : τ → Stack) (stack : Nat → BitVec 64) (rsp : Nat) :
    StackInv (bootStack saved stack rsp) where
  current := rfl
  slots := by
    intro i t h
    cases h
  running := by
    intro t h
    cases h
  fresh := fun _ _ => rfl
  waiting := fun _ _ _ _ => rfl

/-- A timer interrupt that returns: where it entered, which task it resumed and
what has become of the state. -/
theorem timerStep_cases {rsp0 : Nat} {s s' : StackState τ} {frame : Stack}
    {below : Nat → BitVec 64} (h : timerStep rsp0 s frame below = some s') :
    ∃ top t installed, entryTop rsp0 s.mode frame = some top ∧
      schedTick s.kernel.sched = some s'.kernel.sched ∧
      s'.kernel.sched.currentTask = some t ∧ s'.kernel.prevTask = some t ∧
      s'.stack = enterAt s.stack top installed below ∧ s'.tasks = s.tasks ∧
      s'.preempted = recordPreempted s := by
  unfold timerStep at h
  split at h
  · rename_i hint
    split at h
    · rename_i top kernel installed last htop hhandler
      obtain rfl := Option.some.inj h
      obtain ⟨t, htick, hcur, hprev, -, -⟩ := handler_timer hint hhandler
      exact ⟨top, t, installed, htop, htick, hcur, hprev, rfl, rfl, rfl⟩
    · cases h
  · cases h

omit [DecidableEq τ] in
/-- The task a timer interrupt resumes, if it is not the running one, comes from
a slot. -/
theorem resumed_cases {s s' : Sched τ} {t : τ} (h : schedTick s = some s')
    (ht : s'.currentTask = some t) : s.currentTask = some t ∨ ∃ i, s.processes.data i = some t := by
  rcases (schedTick_cases h).2 with hsame | ⟨i, hslot⟩
  · exact .inl (hsame.symm.trans ht)
  · exact .inr ⟨i, hslot.symm.trans ht⟩

theorem recordPreempted_of_ne {s : StackState τ} {t : τ} (h : s.kernel.prevTask ≠ some t) :
    recordPreempted s t = s.preempted t := by
  unfold recordPreempted
  cases hprev : s.kernel.prevTask with
  | none => rfl
  | some t' =>
      have hne : t ≠ t' := fun e => h (by rw [hprev, e])
      cases s.mode with
      | user => exact Function.update_of_ne hne _ _
      | kernel rsp => exact Function.update_of_ne hne _ _
      | masked top next => exact Function.update_of_ne hne _ _

/-- With `KeepsTask` the tick resumes the running task. -/
theorem KeepsTask.resumed {s s' : Sched τ} {t t' : τ} (h : KeepsTask s t)
    (hcur : s.currentTask = some t) (htick : schedTick s = some s')
    (ht' : s'.currentTask = some t') : t' = t := by
  unfold schedTick at htick
  split at htick
  · cases htick
  · split at htick
    · rename_i hdue
      obtain rfl := Option.some.inj htick
      rcases h with hlt | hslot
      · omega
      · exact Option.some.inj (ht'.symm.trans hslot)
    · obtain rfl := Option.some.inj htick
      exact Option.some.inj (ht'.symm.trans hcur)

/-- What a resumed task finds: it was last interrupted in user mode, or it is
the one that has just been interrupted inside its handler. -/
theorem StackInv.resumed {rsp0 : Nat} {s s' : StackState τ} {frame : Stack}
    {below : Nat → BitVec 64} (h : StackInv s)
    (hstep : timerStep rsp0 s frame below = some s') {t : τ} (ht : s'.kernel.prevTask = some t) :
    s'.preempted t = none ∨ ∃ rsp, s.mode = .kernel rsp ∧ s'.preempted t = some (rsp, s.stack) := by
  obtain ⟨top, t', installed, htop, htick, hcur, hprev, -, -, hpre⟩ := timerStep_cases hstep
  obtain rfl : t' = t := Option.some.inj (hprev.symm.trans ht)
  have hpick := resumed_cases htick hcur
  rw [h.current] at hpick
  rw [hpre]
  by_cases hsame : s.kernel.prevTask = some t'
  · -- the same task goes on
    unfold recordPreempted
    rw [hsame]
    cases hmode : s.mode with
    | kernel rsp =>
        right
        exact ⟨rsp, rfl, by simp⟩
    | user => exact .inl (by simp)
    | masked top next => exact .inl (by simp)
  · -- another task: it was waiting, so in user mode
    left
    rw [recordPreempted_of_ne hsame]
    obtain ⟨i, hslot⟩ := hpick.resolve_left hsame
    exact h.waiting i t' hslot hsame

theorem StackInv.timer {rsp0 : Nat} {s s' : StackState τ} {frame : Stack}
    {below : Nat → BitVec 64} (h : StackInv s) (hok : KeepsStack s (.timer frame below))
    (hstep : timerStep rsp0 s frame below = some s') : StackInv s' := by
  obtain ⟨top, t, installed, htop, htick, hcur, hprev, -, htasks, hpre⟩ := timerStep_cases hstep
  obtain ⟨hproc, -⟩ := schedTick_cases htick
  -- the task that is resumed is the running one or has a slot
  have hknown : t ∈ s.tasks := by
    have hpick := resumed_cases htick hcur
    rw [h.current] at hpick
    rcases hpick with hsame | ⟨i, hslot⟩
    · exact h.running t hsame
    · exact h.slots i t hslot
  refine ⟨hcur.trans hprev.symm, fun i t' ht' => ?_, fun t' ht' => ?_, fun t' ht' => ?_,
    fun i t' ht' hne => ?_⟩
  · rw [htasks]
    exact h.slots i t' (hproc ▸ ht')
  · rw [htasks]
    obtain rfl : t = t' := Option.some.inj (hprev.symm.trans ht')
    exact hknown
  · rw [htasks] at ht'
    rw [hpre, recordPreempted_of_ne fun e => ht' (h.running t' e)]
    exact h.fresh t' ht'
  · rw [hproc] at ht'
    rw [hpre]
    by_cases hold : s.kernel.prevTask = some t'
    · -- the task that was switched away from is still in a slot: it was in user mode
      unfold recordPreempted
      rw [hold]
      cases hmode : s.mode with
      | kernel rsp =>
          rcases hok t' rsp hold hmode with hkeep | hgone
          · have hsame := hkeep.resumed (h.current.trans hold) htick hcur
            exact absurd (hprev.trans (congrArg some hsame)) hne
          · exact absurd ht' (hgone i)
      | user => simp
      | masked top next => simp
    · rw [recordPreempted_of_ne hold]
      exact h.waiting i t' ht' hold

omit [DecidableEq τ] in
/-- Any step that leaves tasks, records and the scheduler's slots alone. -/
theorem StackInv.congr {s s' : StackState τ} (h : StackInv s)
    (hcur : s'.kernel.sched.currentTask = s.kernel.sched.currentTask)
    (hprev : s'.kernel.prevTask = s.kernel.prevTask) (htasks : s'.tasks = s.tasks)
    (hpre : s'.preempted = s.preempted)
    (hslots : ∀ i t, s'.kernel.sched.processes.data i = some t →
      ∃ j, s.kernel.sched.processes.data j = some t) : StackInv s' := by
  refine ⟨by rw [hcur, hprev, h.current], fun i t ht => ?_, fun t ht => ?_, fun t ht => ?_,
    fun i t ht hne => ?_⟩
  · obtain ⟨j, hj⟩ := hslots i t ht
    rw [htasks]
    exact h.slots j t hj
  · rw [htasks]
    exact h.running t (hprev ▸ ht)
  · rw [hpre]
    exact h.fresh t (htasks ▸ ht)
  · obtain ⟨j, hj⟩ := hslots i t ht
    rw [hpre]
    exact h.waiting j t hj (hprev ▸ hne)

theorem StackInv.schedPush {s : StackState τ} (h : StackInv s) (grant : Bool) {t : τ}
    (initial : Stack) (hfresh : t ∉ s.tasks) :
    StackInv { s with
      kernel := { s.kernel with
        sched := schedPush grant (nextPid s.kernel.sched) t
        saved := Function.update s.kernel.saved t initial }
      tasks := t :: s.tasks } where
  current := h.current
  slots := by
    intro i t' ht'
    rcases slots_push ht' with rfl | hold
    · exact List.mem_cons_self
    · exact List.mem_cons_of_mem t (h.slots i t' hold)
  running := fun t' ht' => List.mem_cons_of_mem t (h.running t' ht')
  fresh := fun t' ht' => h.fresh t' fun hmem => ht' (List.mem_cons_of_mem t hmem)
  waiting := by
    intro i t' ht' hne
    rcases slots_push ht' with rfl | hold
    · exact h.fresh t' hfresh
    · exact h.waiting i t' hold hne

theorem StackInv.step {rsp0 : Nat} {s s' : StackState τ} {op : StackOp τ} (h : StackInv s)
    (hok : KeepsStack s op) (hstep : stackStep rsp0 s op = some s') : StackInv s' := by
  have hslots : ∀ i t, s.kernel.sched.processes.data i = some t →
      ∃ j, s.kernel.sched.processes.data j = some t := fun i t ht => ⟨i, ht⟩
  cases op with
  | schedPush grant t initial =>
      simp only [stackStep] at hstep
      split at hstep
      · cases hstep
      · rename_i hfresh
        obtain rfl := Option.some.inj hstep
        exact h.schedPush grant initial fun hmem => hfresh (.inl hmem)
  | schedRemove =>
      simp only [stackStep] at hstep
      split at hstep
      · cases hstep
      · obtain ⟨t, -, rfl⟩ := Option.map_eq_some_iff.mp hstep
        exact h.congr rfl rfl rfl rfl fun i t' ht' => slots_remove ht'
  | setIndex =>
      simp only [stackStep] at hstep
      split at hstep
      · cases hstep
      · obtain rfl := Option.some.inj hstep
        exact h.congr rfl rfl rfl rfl hslots
  | setTick =>
      simp only [stackStep] at hstep
      split at hstep
      · cases hstep
      · obtain rfl := Option.some.inj hstep
        exact h.congr rfl rfl rfl rfl hslots
  | int42 frame rsp below =>
      simp only [stackStep] at hstep
      split at hstep
      · obtain rfl := Option.some.inj hstep
        exact h.congr rfl rfl rfl rfl hslots
      · cases hstep
  | work rsp words =>
      simp only [stackStep] at hstep
      split at hstep
      · cases hstep
      · obtain rfl := Option.some.inj hstep
        exact h.congr rfl rfl rfl rfl hslots
      · obtain rfl := Option.some.inj hstep
        exact h.congr rfl rfl rfl rfl hslots
  | iretq =>
      simp only [stackStep] at hstep
      split at hstep
      · cases hstep
      · obtain ⟨t, -, rfl⟩ := Option.map_eq_some_iff.mp hstep
        exact h.congr rfl rfl rfl rfl hslots
      · obtain rfl := Option.some.inj hstep
        exact h.congr rfl rfl rfl rfl hslots
  | timer frame below => exact h.timer hok hstep

theorem StackRun.inv {rsp0 : Nat} {s : StackState τ} (h : StackRun rsp0 KeepsStack s) :
    StackInv s := by
  induction h with
  | boot saved stack rsp => exact stackInv_boot saved stack rsp
  | step op _ hok hstep ih => exact ih.step hok hstep

/-! ### The words of an interrupted handler -/

/-- A timer interrupt inside a handler writes nothing at or above its stack
pointer. -/
theorem timer_above_rsp {rsp0 rsp : Nat} {s s' : StackState τ} {frame : Stack}
    {below : Nat → BitVec 64} (hmode : s.mode = .kernel rsp)
    (hstep : timerStep rsp0 s frame below = some s') {a : Nat} (ha : rsp ≤ a) :
    s'.stack a = s.stack a := by
  obtain ⟨top, -, installed, htop, -, -, -, hstack, -, -⟩ := timerStep_cases hstep
  rw [hmode, entryTop] at htop
  split at htop
  · have hle : top ≤ a := by
      rw [← Option.some.inj htop, alignRsp]
      omega
    rw [hstack, enterAt, if_pos hle]
  · cases htop

/-- **The kernel stack across preemption.**  In every run in which a timer
interrupt inside a handler switches only away from tasks that have left the
scheduler, a task that was interrupted inside a handler and is resumed finds
every word between its stack pointer and `TSS.rsp[0]` as it was. -/
theorem kernel_stack_preserved {rsp0 rsp : Nat} {s s' : StackState τ} {frame : Stack}
    {below stack : Nat → BitVec 64} {t : τ} (hrun : StackRun rsp0 KeepsStack s)
    (hstep : stackStep rsp0 s (.timer frame below) = some s')
    (hresumed : s'.kernel.prevTask = some t) (hpre : s'.preempted t = some (rsp, stack)) :
    ∀ a, rsp ≤ a → a < rsp0 → s'.stack a = stack a := by
  intro a hlow _
  rcases hrun.inv.resumed hstep hresumed with hnone | ⟨rsp', hmode, hsome⟩
  · rw [hnone] at hpre
    cases hpre
  · obtain ⟨rfl, rfl⟩ : rsp' = rsp ∧ s.stack = stack := by
      simpa using hsome.symm.trans hpre
    exact timer_above_rsp hmode hstep hlow

/-! ### Two tasks -/

/-- All registers zero, with this vector, code segment and stack pointer. -/
def plainFrame (intno cs rsp : BitVec 64) : Stack where
  r15 := 0
  r14 := 0
  r13 := 0
  r12 := 0
  r11 := 0
  r10 := 0
  r9 := 0
  r8 := 0
  rbp := 0
  rdi := 0
  rsi := 0
  rdx := 0
  rcx := 0
  rbx := 0
  rax := 0
  intno := intno
  err := 0
  rip := 0
  cs := cs
  rflags := 0x202
  rsp := rsp
  ss := 0

/-- A machine with an empty stack of 64 words, in `kernel_main`. -/
def smallBoot : StackState Nat := bootStack (fun _ => plainFrame 0 0x43 0) (fun _ => 0) 60

def runOps (rsp0 : Nat) (s : StackState τ) (ops : List (StackOp τ)) : Option (StackState τ) :=
  ops.foldlM (stackStep rsp0) s

theorem StackRun.ops {rsp0 : Nat} {s s' : StackState τ} {ops : List (StackOp τ)}
    (h : StackRun rsp0 (fun _ _ => True) s) (hops : runOps rsp0 s ops = some s') :
    StackRun rsp0 (fun _ _ => True) s' := by
  induction ops generalizing s with
  | nil =>
      obtain rfl := Option.some.inj hops
      exact h
  | cons op ops ih =>
      rw [runOps, List.foldlM_cons] at hops
      obtain ⟨s₁, hstep, hrest⟩ := Option.bind_eq_some_iff.mp hops
      exact ih (h.step op trivial hstep) hrest

/-- A timer interrupt in user mode. -/
def userTimer : StackOp Nat := .timer (plainFrame 32 0x43 0) fun _ => 0

/-- A timer interrupt in kernel mode. -/
def kernelTimer (rsp : Nat) : StackOp Nat :=
  .timer (plainFrame 32 0x28 (BitVec.ofNat 64 (8 * rsp))) fun _ => 0

/-- A system call whose handler goes down to word 30. -/
def enterHandler : StackOp Nat := .int42 (plainFrame 0x42 0x43 0) 30 fun _ => 0

/-- The first task is made and switched to; it starts a second one with
`sys_execve`, runs to the end of its time slice and enters a system call; there
the switch to the second task hits it, which runs to the end of its own. -/
def switchInHandler : List (StackOp Nat) :=
  [.schedPush true 0 (plainFrame 0 0x43 0), kernelTimer 60,
    enterHandler, .schedPush true 1 (plainFrame 0 0x43 0), .setIndex, .setTick, .iretq, userTimer]
  ++ List.replicate 9 userTimer ++ [enterHandler, kernelTimer 30] ++ List.replicate 9 userTimer

/-- **The kernel stack is overwritten.**  When the first task is resumed inside
its handler, the vector number in the frame of its system call is no longer
0x42. -/
theorem kernel_stack_overwritten :
    ∃ (s s' : StackState Nat) (rsp a : Nat) (stack : Nat → BitVec 64),
      StackRun 64 (fun _ _ => True) s ∧ stackStep 64 s userTimer = some s' ∧
      s'.kernel.prevTask = some 0 ∧ s'.preempted 0 = some (rsp, stack) ∧ rsp ≤ a ∧ a < 64 ∧
      s'.stack a ≠ stack a := by
  have hrun : ((runOps 64 smallBoot switchInHandler).bind fun s => (stackStep 64 s userTimer).map
      fun s' => (s'.kernel.prevTask, (s'.preempted 0).map fun p => (p.1, p.2 57), s'.stack 57))
      = some (some 0, some (30, 0x42), 32) := by
    decide +kernel
  obtain ⟨s, hops, hlast⟩ := Option.bind_eq_some_iff.mp hrun
  obtain ⟨s', hstep, heq⟩ := Option.map_eq_some_iff.mp hlast
  simp only [Prod.mk.injEq, Option.map_eq_some_iff] at heq
  obtain ⟨hprev, ⟨⟨rsp, stack⟩, hpre, rfl, hword⟩, hnow⟩ := heq
  refine ⟨s, s', 30, 57, stack, (StackRun.boot _ _ _).ops hops, hstep, hprev, hpre, by decide,
    by decide, ?_⟩
  have hthen : stack 57 = 0x42 := hword
  rw [hnow, hthen]
  decide

/-- No timer interrupt that hits a handler is the last one of a time slice. -/
def midSlice (s : StackState τ) : StackOp τ → Bool
  | .timer _ _ =>
      s.mode.isUser || s.kernel.prevTask.isNone || s.kernel.sched.currentTick + 1 < SWITCH_TICK
  | _ => true

omit [DecidableEq τ] in
theorem keepsStack_of_midSlice {s : StackState τ} {op : StackOp τ} (h : midSlice s op = true) :
    KeepsStack s op := by
  cases op with
  | timer frame below =>
      intro t rsp hprev hmode
      simp only [midSlice, hmode, hprev, Mode.isUser, Option.isNone_some, Bool.false_or,
        decide_eq_true_eq] at h
      exact .inl (.inl h)
  | _ => trivial

/-- Steps that all meet the condition. -/
def runMid (rsp0 : Nat) (s : StackState τ) (ops : List (StackOp τ)) : Option (StackState τ) :=
  ops.foldlM (fun s op => if midSlice s op then stackStep rsp0 s op else none) s

theorem StackRun.mid {rsp0 : Nat} {s s' : StackState τ} {ops : List (StackOp τ)}
    (h : StackRun rsp0 KeepsStack s) (hops : runMid rsp0 s ops = some s') :
    StackRun rsp0 KeepsStack s' := by
  induction ops generalizing s with
  | nil =>
      obtain rfl := Option.some.inj hops
      exact h
  | cons op ops ih =>
      rw [runMid, List.foldlM_cons] at hops
      obtain ⟨s₁, hstep, hrest⟩ := Option.bind_eq_some_iff.mp hops
      split at hstep
      · rename_i hmid
        exact ih (h.step op (keepsStack_of_midSlice hmid) hstep) hrest
      · cases hstep

/-- Two tasks take turns, and each is hit inside a handler in the middle of its time
slice: first the second one, and then, with words of its own on the stack, the first. -/
def hitInSlice : List (StackOp Nat) :=
  [.schedPush true 0 (plainFrame 0 0x43 0), kernelTimer 60,
    enterHandler, .schedPush true 1 (plainFrame 0 0x43 0), .setIndex, .setTick, .iretq, userTimer]
  ++ List.replicate 11 userTimer ++ [enterHandler, kernelTimer 30, .iretq]
  ++ List.replicate 10 userTimer ++ [enterHandler, .work 30 fun a => BitVec.ofNat 64 a]

/-- The first task finds its words again. -/
theorem kernel_stack_preserved_two :
    ∃ s s' : StackState Nat, StackRun 64 KeepsStack s ∧ s.tasks = [1, 0] ∧
      stackStep 64 s (kernelTimer 30) = some s' ∧ s'.kernel.prevTask = some 0 ∧
      ∃ stack, s'.preempted 0 = some (30, stack) ∧
        ∀ a, 30 ≤ a → a < 64 → s'.stack a = stack a := by
  have hrun : ((runMid 64 smallBoot hitInSlice).bind fun s => (stackStep 64 s (kernelTimer 30)).map
      fun s' => (s.tasks, s'.kernel.prevTask, (s'.preempted 0).map Prod.fst))
      = some ([1, 0], some 0, some 30) := by
    decide +kernel
  obtain ⟨s, hops, hlast⟩ := Option.bind_eq_some_iff.mp hrun
  obtain ⟨s', hstep, heq⟩ := Option.map_eq_some_iff.mp hlast
  simp only [Prod.mk.injEq, Option.map_eq_some_iff] at heq
  obtain ⟨htasks, hprev, ⟨rsp, stack⟩, hpre, rfl⟩ := heq
  have hmid : StackRun 64 KeepsStack s := (StackRun.boot _ _ _).mid hops
  exact ⟨s, s', hmid, htasks, hstep, hprev, stack, hpre,
    kernel_stack_preserved hmid hstep hprev hpre⟩

end BestOS
