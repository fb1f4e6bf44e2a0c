/-
BestOS/FreshTasks.lean

What a new task has from the block it was made in.

`malloc` does not clear a block, and `task_init` assigns the fields it thinks of: of the
22 words of the register frame five, and `used_pages` not at all.  The rest is what the
block held before.  It is read three times: the frame as a whole is installed when the
task is first switched to, `interrupts_handler` then looks at its `intno`, and the first
`sys_mmap` takes its address from `used_pages`.

`FreshTask` compares two runs that differ in the bytes of the block alone;
`fresh_task_iff` says for which blocks they come to the same.
-/
import BestOS.Interrupts
import BestOS.Mmap
import BestOS.Syscalls

namespace BestOS

/-! ### Making a task -/

/-- `Task` of `sched.h`.  `fpu_storage` is known by its eight bytes. -/
structure Task where
  parent : Nat
  currentFd : Int
  descriptors : Vec FileDescriptor
  cwd : Option Nat
  pid : Int
  sp : Nat
  pagemap : Nat
  usedPages : Nat
  stack : Stack
  state : Int
  exitCode : Int
  fpuStorage : Nat

/-- What `task_init` is handed by the rest of the kernel: the pid, the frames of the stack
and of the page map, the root directory, and the FPU image as far as it lies in the
record. -/
structure TaskParts where
  pid : Int
  sp : Nat
  pagemap : Nat
  cwd : Option Nat
  fpuStorage : Nat

/-- The assignments of `task_init(entry_point)` to the fields of its block. -/
def taskInitFields (p : TaskParts) (entryPoint : BitVec 64) (new : Task) : Task :=
  { new with
    descriptors := vecInit
    pid := p.pid
    fpuStorage := p.fpuStorage
    sp := p.sp
    cwd := p.cwd
    currentFd := 0
    pagemap := p.pagemap
    stack := { new.stack with
      rsp := BitVec.ofNat 64 USER_STACK_TOP
      rip := entryPoint
      rflags := 0x202
      cs := 0x43
      ss := 0x3b } }

/-- What `sched_new_elf_process` finds out: the entry point of the program, the three
files if it is given their names (and whether the vector could grow for each), the bytes
pushed on the stack, and the entry point of the interpreter if there is one. -/
structure ProcessParts where
  entry : BitVec 64
  stdio : Option (Option Nat × Option Nat × Option Nat)
  grant : Nat → Bool
  skip : BitVec 64
  ldEntry : Option (BitVec 64)

/-- The assignments of `sched_new_elf_process` to the fields of its task. -/
def newElfProcessFields (p : TaskParts) (q : ProcessParts) (new : Task) : Task :=
  let t := taskInitFields p 0 new
  let t := { t with stack := { t.stack with rip := q.entry } }
  let t :=
    match q.stdio with
    | none => t
    | some (stdin, stdout, stderr) =>
      { t with
        descriptors := vecPush (q.grant 2) (vecPush (q.grant 1) (vecPush (q.grant 0)
          t.descriptors ⟨0, stdin⟩) ⟨1, stdout⟩) ⟨2, stderr⟩
        currentFd := 3 }
  let t := { t with stack := { t.stack with rsp := t.stack.rsp - q.skip } }
  match q.ldEntry with
  | none => t
  | some entry => { t with stack := { t.stack with rip := entry } }

/-- The two ways a task is made. -/
inductive TaskMaker
  | taskInit (p : TaskParts) (entryPoint : BitVec 64)
  | newElfProcess (p : TaskParts) (q : ProcessParts)

/-- The task made in a block that held `left`. -/
def TaskMaker.make : TaskMaker → Task → Task
  | .taskInit p entryPoint, left => taskInitFields p entryPoint left
  | .newElfProcess p q, left => newElfProcessFields p q left

/-! ### The property -/

/-- Calls of `sys_mmap` one after the other; `none` if one does not return. -/
def mmapCalls (pagemap : Nat) : List MmapCall → Machine → Nat → Option (Machine × Nat)
  | [], s, usedPages => some (s, usedPages)
  | c :: calls, s, usedPages =>
    (vmmMmap s pagemap c.hint c.size c.flags usedPages).bind fun r =>
      mmapCalls pagemap calls r.machine r.usedPages

/-- The address the call returns after the calls before it. -/
def mmapAfter (t : Task) (before : List MmapCall) (s : Machine) (c : MmapCall) : Option Nat :=
  (mmapCalls t.pagemap before s t.usedPages).bind fun r =>
    (vmmMmap r.1 t.pagemap c.hint c.size c.flags r.2).map MmapResult.ret

/-- In some run of timer interrupts and pushes, a task that was pushed with this frame and
never resumed is switched to, and the handler ends this way. -/
def FirstSwitch (frame : Stack) (last : HandlerEnd) : Prop :=
  ∃ (k : Kernel Nat) (h : List (Event Nat)) (t : Nat) (passed : Stack) (k' : Kernel Nat)
    (installed : Stack), KernelRun k h ∧ Event.pushed t frame ∈ h ∧
    (∀ p i, Event.timer p t i ∉ h) ∧ passed.intno = 32 ∧
    interruptsHandler true k passed = some (k', installed, last) ∧
    k'.sched.currentTask = some t

/-- Two runs that differ in what the block of the task held: the frames are the same, the
first `sys_mmap` without `MAP_FIXED` returns the same address, and the first switch to the
task ends in the same way and in no system call. -/
structure FreshTask (maker : TaskMaker) (left₁ left₂ : Task) : Prop where
  frame : (maker.make left₁).stack = (maker.make left₂).stack
  mmap : ∀ (s : Machine) (before : List MmapCall) (c : MmapCall),
    (∀ b ∈ before, b.Fixed) → ¬ c.Fixed →
    mmapAfter (maker.make left₁) before s c = mmapAfter (maker.make left₂) before s c
  switch : ∀ last₁ last₂, FirstSwitch (maker.make left₁).stack last₁ →
    FirstSwitch (maker.make left₂).stack last₂ →
    last₁ = last₂ ∧ ∃ intno, last₁ = .eoi intno

/-- The frames agree in the words that no maker of tasks writes. -/
def SameLeftWords (f g : Stack) : Prop :=
  f = { g with rip := f.rip, cs := f.cs, rflags := f.rflags, rsp := f.rsp, ss := f.ss }

/-- The condition on the blocks: they agree in the words of the frame that are not
written and in what `used_pages` makes of an address, and `intno` is not that of a system
call. -/
structure BlocksOk (left₁ left₂ : Task) : Prop where
  words : SameLeftWords left₁.stack left₂.stack
  used : left₁.usedPages % 2 ^ 52 = left₂.usedPages % 2 ^ 52
  intno : left₁.stack.intno ≠ 0x42

/-! ### The record -/

/-- Five words of the frame are written, whatever stood there. -/
theorem make_stack (maker : TaskMaker) :
    ∃ rip rsp, ∀ left : Task, (maker.make left).stack = { left.stack with
      rip := rip
      cs := 0x43
      rflags := 0x202
      rsp := rsp
      ss := 0x3b } := by
  cases maker with
  | taskInit p entryPoint => exact ⟨_, _, fun left => rfl⟩
  | newElfProcess p q =>
    obtain ⟨entry, stdio, grant, skip, ldEntry⟩ := q
    refine ⟨ldEntry.getD entry, BitVec.ofNat 64 USER_STACK_TOP - skip, fun left => ?_⟩
    cases stdio <;> cases ldEntry <;> rfl

theorem make_usedPages (maker : TaskMaker) (left : Task) :
    (maker.make left).usedPages = left.usedPages := by
  cases maker with
  | taskInit p entryPoint => rfl
  | newElfProcess p q =>
    obtain ⟨entry, stdio, grant, skip, ldEntry⟩ := q
    cases stdio <;> cases ldEntry <;> rfl

theorem make_pagemap (maker : TaskMaker) :
    ∃ pagemap, ∀ left : Task, (maker.make left).pagemap = pagemap := by
  cases maker with
  | taskInit p entryPoint => exact ⟨_, fun left => rfl⟩
  | newElfProcess p q =>
    obtain ⟨entry, stdio, grant, skip, ldEntry⟩ := q
    cases stdio <;> cases ldEntry <;> exact ⟨_, fun left => rfl⟩

theorem make_intno (maker : TaskMaker) (left : Task) :
    (maker.make left).stack.intno = left.stack.intno := by
  obtain ⟨rip, rsp, hstack⟩ := make_stack maker
  rw [hstack]

/-- The frames are the same exactly when the words left over are. -/
theorem make_stack_eq_iff (maker : TaskMaker) (left₁ left₂ : Task) :
    (maker.make left₁).stack = (maker.make left₂).stack ↔
      SameLeftWords left₁.stack left₂.stack := by
  obtain ⟨rip, rsp, hstack⟩ := make_stack maker
  rw [hstack, hstack]
  generalize left₁.stack = f
  generalize left₂.stack = g
  obtain ⟨⟩ := f
  obtain ⟨⟩ := g
  simp only [SameLeftWords, Stack.mk.injEq, and_true]

/-! ### The first address -/

/-- A call with `MAP_FIXED` leaves `used_pages` alone, and what it does besides does not
depend on it. -/
theorem vmmMmap_fixed {c : MmapCall} (hc : c.Fixed) (s : Machine) (pagemap u u' : Nat) :
    vmmMmap s pagemap c.hint c.size c.flags u =
      (vmmMmap s pagemap c.hint c.size c.flags u').map fun r => { r with usedPages := u } := by
  have hmask : c.flags &&& 0xFFFFFFFF &&& MAP_FIXED ≠ 0 := by
    rw [flags_mask _ rfl]
    exact hc
  have hvirt : ∀ u, mmapVirt c.hint c.flags u = c.hint := fun u => if_pos hmask
  unfold vmmMmap
  split
  · rfl
  · simp only [Option.map_some, mmapAddresses, hvirt]

theorem mmapCalls_fixed {before : List MmapCall} (hfixed : ∀ b ∈ before, b.Fixed) (pagemap : Nat)
    (s : Machine) (u u' : Nat) :
    mmapCalls pagemap before s u = (mmapCalls pagemap before s u').map fun r => (r.1, u) := by
  induction before generalizing s u u' with
  | nil => rfl
  | cons b before ih =>
    have hb := hfixed b List.mem_cons_self
    have hu' : ∀ r, vmmMmap s pagemap b.hint b.size b.flags u' = some r → r.usedPages = u' := by
      intro r hr
      rw [vmmMmap_fixed hb s pagemap u' u'] at hr
      obtain ⟨r₀, -, rfl⟩ := Option.map_eq_some_iff.mp hr
      rfl
    rw [mmapCalls, mmapCalls, vmmMmap_fixed hb s pagemap u u']
    cases hr : vmmMmap s pagemap b.hint b.size b.flags u' with
    | none => rfl
    | some r =>
      simp only [Option.map_some, Option.bind_some]
      exact ih (fun q hq => hfixed q (List.mem_cons_of_mem b hq)) r.machine u _

/-- The address of a call without `MAP_FIXED`. -/
theorem mmapVirt_eq_iff {c : MmapCall} (hc : ¬ c.Fixed) (u u' : Nat) :
    mmapVirt c.hint c.flags u = mmapVirt c.hint c.flags u' ↔ u % 2 ^ 52 = u' % 2 ^ 52 := by
  rw [mmapVirt_bump hc, mmapVirt_bump hc, bump, bump]
  omega

/-- What the first such call returns. -/
theorem mmapAfter_eq {before : List MmapCall} (hfixed : ∀ b ∈ before, b.Fixed) (t : Task)
    (s : Machine) (c : MmapCall) :
    mmapAfter t before s c =
      (mmapCalls t.pagemap before s 0).bind fun _ =>
        if c.flags &&& 0xFFFFFFFF &&& MAP_ANONYMOUS = 0 then none
        else some (mmapVirt c.hint c.flags t.usedPages) := by
  unfold mmapAfter
  rw [mmapCalls_fixed hfixed t.pagemap s t.usedPages 0, Option.bind_map]
  refine Option.bind_congr fun r _ => ?_
  show (vmmMmap r.1 t.pagemap c.hint c.size c.flags t.usedPages).map MmapResult.ret = _
  unfold vmmMmap
  split <;> rfl

/-! ### The first switch -/

/-- A task that was pushed and never resumed is expected to have its initial frame. -/
theorem expected_fresh {k : Kernel Nat} {h : List (Event Nat)} (hrun : KernelRun k h) {t : Nat}
    {frame : Stack} (hpush : Event.pushed t frame ∈ h) (hnew : ∀ p i, Event.timer p t i ∉ h) :
    t ∈ tasksOf h ∧ running h ≠ some t ∧ expected h t = some frame := by
  induction hrun with
  | boot => cases hpush
  | @step k h k' h' hrun hs ih =>
    cases hs with
    | @push t' grant initial hfresh =>
      have hnew' : ∀ p i, Event.timer p t i ∉ h := fun p i hm => hnew p i (List.mem_cons_of_mem _ hm)
      show t ∈ t' :: tasksOf h ∧ running h ≠ some t ∧
        (if t' = t then some initial else expected h t) = some frame
      rcases List.mem_cons.mp hpush with heq | hold
      · obtain ⟨rfl, rfl⟩ := Event.pushed.inj heq
        exact ⟨List.mem_cons_self, fun hr => hfresh (hrun.inv.known t hr), if_pos rfl⟩
      · obtain ⟨hmem, hidle, hexp⟩ := ih hold hnew'
        have hne : t' ≠ t := by
          rintro rfl
          exact hfresh hmem
        exact ⟨List.mem_cons_of_mem t' hmem, hidle, (if_neg hne).trans hexp⟩
    | @timer _ passed resumed installed last hint hk hres =>
      have hnew' : ∀ p i, Event.timer p t i ∉ h := fun p i hm => hnew p i (List.mem_cons_of_mem _ hm)
      have hold : Event.pushed t frame ∈ h := (List.mem_cons.mp hpush).resolve_left fun heq => by
        cases heq
      obtain ⟨hmem, hidle, hexp⟩ := ih hold hnew'
      refine ⟨hmem, fun hr => ?_, (if_neg hidle).trans hexp⟩
      obtain rfl : resumed = t := Option.some.inj hr
      exact hnew passed installed List.mem_cons_self
    | syscall => exact ih hpush hnew

/-- How the handler ends once this frame is installed. -/
def endOf (frame : Stack) : HandlerEnd :=
  if frame.intno = 0x42 then .syscall frame.rax else .eoi frame.intno

theorem interruptsHandler_end {k k' : Kernel Nat} {passed installed : Stack} {last : HandlerEnd}
    (h : interruptsHandler true k passed = some (k', installed, last)) : last = endOf installed := by
  unfold interruptsHandler at h
  split at h
  · cases h
  · split at h
    · cases h
    · obtain ⟨-, heq⟩ := Prod.mk.inj (Option.some.inj h)
      obtain ⟨rfl, rfl⟩ := Prod.mk.inj heq
      rfl

/-- One task, pushed after boot. -/
def onePushed (frame : Stack) : Kernel Nat where
  sched := schedPush true schedInit 0
  prevTask := none
  saved := Function.update (fun _ => frame) 0 frame

/-- The first tick switches to it. -/
theorem onePushed_switches (frame : Stack) :
    interruptsHandler true (onePushed frame) (blankStack 32) =
      some ({ onePushed frame with
        sched := { schedPush true schedInit 0 with currentTick := 0, index := 1, currentTask := some 0 }
        prevTask := some 0 }, frame, endOf frame) := rfl

/-- The first switch to a task ends as its initial frame says. -/
theorem firstSwitch_iff (frame : Stack) (last : HandlerEnd) :
    FirstSwitch frame last ↔ last = endOf frame := by
  constructor
  · rintro ⟨k, h, t, passed, k', installed, hrun, hpush, hnew, hint, hk, hcur⟩
    obtain ⟨-, hidle, hexp⟩ := expected_fresh hrun hpush hnew
    have hinst := (hrun.inv.timer hint hk hcur).2
    have hsame : expected (.timer passed t installed :: h) t = some frame :=
      (if_neg hidle).trans hexp
    obtain rfl : frame = installed := Option.some.inj (hsame.symm.trans hinst)
    exact interruptsHandler_end hk
  · rintro rfl
    have hrun : KernelRun (onePushed frame) [.pushed 0 frame] :=
      .step .boot (.push true frame List.not_mem_nil)
    refine ⟨onePushed frame, [.pushed 0 frame], 0, blankStack 32, _, frame, hrun, List.mem_cons_self,
      fun p i hm => ?_, rfl, onePushed_switches frame, rfl⟩
    cases hm with
    | tail _ hm => cases hm

/-- **When a new task owes nothing to its block.**  For both ways of making a task and any
two blocks, two runs that differ in them alone agree on the task's frame, on its first
address and on its first switch exactly when the condition holds. -/
theorem fresh_task_iff (maker : TaskMaker) (left₁ left₂ : Task) :
    FreshTask maker left₁ left₂ ↔ BlocksOk left₁ left₂ := by
  obtain ⟨pagemap, hpagemap⟩ := make_pagemap maker
  constructor
  · intro h
    have hswitch := h.switch _ _ ((firstSwitch_iff _ _).mpr rfl) ((firstSwitch_iff _ _).mpr rfl)
    refine ⟨(make_stack_eq_iff maker left₁ left₂).mp h.frame, ?_, fun hintno => ?_⟩
    · -- an anonymous mapping of no pages
      have hfixed : ¬ MmapCall.Fixed ⟨0, 0, MAP_ANONYMOUS⟩ := by decide
      have heq := h.mmap ⟨fun _ => 0, 0, 0, ⟨0, 0⟩⟩ [] ⟨0, 0, MAP_ANONYMOUS⟩
        (fun b hb => absurd hb List.not_mem_nil) hfixed
      rw [mmapAfter_eq (by simp), mmapAfter_eq (by simp), make_usedPages, make_usedPages] at heq
      exact (mmapVirt_eq_iff hfixed _ _).mp (Option.some.inj heq)
    · obtain ⟨-, intno, hend⟩ := hswitch
      rw [endOf, make_intno, if_pos hintno] at hend
      cases hend
  · intro h
    have hframe := (make_stack_eq_iff maker left₁ left₂).mpr h.words
    refine ⟨hframe, fun s before c hfixed hc => ?_, fun last₁ last₂ h₁ h₂ => ?_⟩
    · have hused := (mmapVirt_eq_iff hc left₁.usedPages left₂.usedPages).mpr h.used
      rw [mmapAfter_eq hfixed, mmapAfter_eq hfixed, hpagemap, hpagemap, make_usedPages,
        make_usedPages, hused]
    · have hintno : (maker.make left₁).stack.intno ≠ 0x42 := by
        rw [make_intno]
        exact h.intno
      rw [(firstSwitch_iff _ _).mp h₁, (firstSwitch_iff _ _).mp h₂, ← hframe]
      exact ⟨rfl, _, if_neg hintno⟩

/-- A block of zeros. -/
def zeroTask : Task :=
  ⟨0, 0, vecInit, none, 0, 0, 0, 0, blankStack 0, 0, 0, 0⟩

/-- A block whose bytes were used before: where the frame has its `intno` stood 0x42. -/
def usedBlock : Task := { zeroTask with stack := blankStack 0x42 }

/-- **The first switch to a task may be taken for a system call.** -/
theorem stale_intno_dispatches :
    ¬ ∀ (maker : TaskMaker) (left₁ left₂ : Task), FreshTask maker left₁ left₂ := by
  intro hclaim
  have h := hclaim (.taskInit ⟨0, 0, 0, none, 0⟩ 0x400000) usedBlock usedBlock
  obtain ⟨-, intno, hend⟩ := h.switch _ _ ((firstSwitch_iff _ _).mpr rfl)
    ((firstSwitch_iff _ _).mpr rfl)
  cases hend

end BestOS
