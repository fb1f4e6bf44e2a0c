/-
BestOS/Interrupts.lean

The timer interrupt of `arch/interrupts.c` and the register frames it moves.

The assembly stub pushes a frame and hands its address to
`interrupts_handler`, which may replace it: at a timer interrupt the frame is
saved into `prev_task`, `sched_tick` picks the next task, and that task's saved
frame is written over the one on the stack.  Here the handler is a function
from the frame passed to the frame installed; the page map and the FPU image it
also loads are left out.

What a task should see is said without the kernel's variables, from the history
of a run alone: `running` is the task that was resumed last, and `expected h t`
is the frame of the last timer interrupt that was taken while `t` was running,
or the frame `t` was pushed with.  `FrameInv` ties the two together, and
`timer_installs_expected` is the result.

The frame just installed is looked at once more: if its `intno` is 0x42 the
handler goes on to `syscall_dispatch`.  A frame saved by a timer interrupt has
`intno` 32, but nothing initialises the field in a new task, so a run may pass
through a system call there.  Such a call is any change that leaves `prev_task`,
`current_task` and the saved frames alone and puts no unknown task in a slot.
-/
import BestOS.Sched
import Mathlib.Logic.Function.Basic

namespace BestOS

/-- The register frame of `arch.h`. -/
structure Stack where
  r15 : BitVec 64
  r14 : BitVec 64
  r13 : BitVec 64
  r12 : BitVec 64
  r11 : BitVec 64
  r10 : BitVec 64
  r9 : BitVec 64
  r8 : BitVec 64
  rbp : BitVec 64
  rdi : BitVec 64
  rsi : BitVec 64
  rdx : BitVec 64
  rcx : BitVec 64
  rbx : BitVec 64
  rax : BitVec 64
  intno : BitVec 64
  err : BitVec 64
  rip : BitVec 64
  cs : BitVec 64
  rflags : BitVec 64
  rsp : BitVec 64
  ss : BitVec 64

variable {τ : Type} [DecidableEq τ]

/-- The scheduler, `prev_task`, and the field `stack` of every task. -/
structure Kernel (τ : Type) where
  sched : Sched τ
  prevTask : Option τ
  saved : τ → Stack

/-- How `interrupts_handler` ends: it acknowledges the interrupt, or it
dispatches the system call whose number is in `rax`. -/
inductive HandlerEnd
  | eoi (intno : BitVec 64)
  | syscall (num : BitVec 64)

/-- The frame is saved into `prev_task`, when there is one. -/
def saveFrame (k : Kernel τ) (stack : Stack) : Kernel τ :=
  match k.prevTask with
  | none => k
  | some p => { k with saved := Function.update k.saved p stack }

/-- The timer branch of `interrupts_handler`: the new state and the frame it
writes to `*stack`.  `none` when `sched_tick` does not return or returns no
task. -/
def timerSwitch (k : Kernel τ) (stack : Stack) : Option (Kernel τ × Stack) :=
  let k := saveFrame k stack
  match schedTick k.sched with
  | none => none
  | some sched =>
    match sched.currentTask with
    | none => none
    | some newTask =>
      some ({ k with
        sched := sched
        prevTask := some newTask }, k.saved newTask)

/-- `interrupts_handler`; `none` when it does not return. -/
def interruptsHandler (started : Bool) (k : Kernel τ) (stack : Stack) :
    Option (Kernel τ × Stack × HandlerEnd) :=
  if stack.intno < 32 then
    none
  else
    match (if stack.intno = 32 ∧ started then timerSwitch k stack else some (k, stack)) with
    | none => none
    | some (k, stack) =>
      some (k, stack, if stack.intno = 0x42 then .syscall stack.rax else .eoi stack.intno)

/-! ### Histories -/

/-- What happened: a task was pushed, or a timer interrupt arrived with the
frame `passed` and resumed `resumed` with the frame `installed`. -/
inductive Event (τ : Type)
  | pushed (t : τ) (initial : Stack)
  | timer (passed : Stack) (resumed : τ) (installed : Stack)

/-- The running task: the one resumed last.  Histories grow at the head. -/
def running : List (Event τ) → Option τ
  | [] => none
  | .pushed _ _ :: h => running h
  | .timer _ resumed _ :: _ => some resumed

/-- The tasks pushed so far. -/
def tasksOf : List (Event τ) → List τ
  | [] => []
  | .pushed t _ :: h => t :: tasksOf h
  | .timer _ _ _ :: h => tasksOf h

/-- The frame `t` should be resumed with: the one passed at the last timer
interrupt taken while `t` was running, or else its initial frame. -/
def expected : List (Event τ) → τ → Option Stack
  | [], _ => none
  | .pushed t' initial :: h, t => if t' = t then some initial else expected h t
  | .timer passed _ _ :: h, t => if running h = some t then some passed else expected h t

/-- The last interrupt went on to `syscall_dispatch`. -/
def Dispatched : List (Event τ) → Prop
  | .timer _ _ installed :: _ => installed.intno = 0x42
  | _ => False

/-- One step of a run: a new task is pushed, a timer interrupt arrives, or the
system call dispatched by the last one does what it does. -/
inductive KernelStep : Kernel τ → List (Event τ) → Kernel τ → List (Event τ) → Prop
  | push {k h t} (grant : Bool) (initial : Stack) : t ∉ tasksOf h →
      KernelStep k h
        { k with
          sched := schedPush grant k.sched t
          saved := Function.update k.saved t initial }
        (.pushed t initial :: h)
  | timer {k h k' passed resumed installed last} : passed.intno = 32 →
      interruptsHandler true k passed = some (k', installed, last) →
      k'.sched.currentTask = some resumed →
      KernelStep k h k' (.timer passed resumed installed :: h)
  | syscall {k h k'} : Dispatched h → k'.prevTask = k.prevTask →
      k'.sched.currentTask = k.sched.currentTask → k'.saved = k.saved →
      (∀ i t, k'.sched.processes.data i = some t → t ∈ tasksOf h) → KernelStep k h k' h

/-- The states and histories reached from boot, whatever the records of the
tasks hold before they are made. -/
inductive KernelRun : Kernel τ → List (Event τ) → Prop
  | boot {saved} : KernelRun ⟨schedInit, none, saved⟩ []
  | step {k h k' h'} : KernelRun k h → KernelStep k h k' h' → KernelRun k' h'

/-! ### The handler at a timer interrupt -/

omit [DecidableEq τ] in
/-- What `sched_tick` can return: the task in some slot, or the current one. -/
theorem schedTick_cases {s s' : Sched τ} (h : schedTick s = some s') :
    s'.processes = s.processes ∧
      (s'.currentTask = s.currentTask ∨ ∃ i, s'.currentTask = s.processes.data i) := by
  unfold schedTick at h
  split at h
  · cases h
  · split at h
    · cases h
      exact ⟨rfl, .inr ⟨_, rfl⟩⟩
    · cases h
      exact ⟨rfl, .inl rfl⟩

theorem saveFrame_sched (k : Kernel τ) (stack : Stack) : (saveFrame k stack).sched = k.sched := by
  unfold saveFrame
  split <;> rfl

theorem saveFrame_saved (k : Kernel τ) (stack : Stack) (t : τ) :
    (saveFrame k stack).saved t = if k.prevTask = some t then stack else k.saved t := by
  unfold saveFrame
  cases hp : k.prevTask with
  | none => simp
  | some p =>
    show Function.update k.saved p stack t = _
    rw [Function.update_apply]
    by_cases ht : t = p
    · rw [if_pos ht, if_pos (by rw [ht])]
    · rw [if_neg ht, if_neg (fun hc => ht (Option.some.inj hc).symm)]

/-- A timer interrupt that returns: the task `sched_tick` returned becomes
`prev_task`, and its saved frame is the one installed. -/
theorem handler_timer {k k' : Kernel τ} {passed installed : Stack} {last : HandlerEnd}
    (hint : passed.intno = 32)
    (h : interruptsHandler true k passed = some (k', installed, last)) :
    ∃ t, schedTick k.sched = some k'.sched ∧ k'.sched.currentTask = some t ∧
      k'.prevTask = some t ∧ k'.saved = (saveFrame k passed).saved ∧
      installed = (saveFrame k passed).saved t := by
  unfold interruptsHandler at h
  rw [if_neg (by rw [hint]; decide), if_pos ⟨hint, rfl⟩] at h
  unfold timerSwitch at h
  dsimp only at h
  rw [saveFrame_sched] at h
  cases htick : schedTick k.sched with
  | none =>
    rw [htick] at h
    cases h
  | some sched =>
    rw [htick] at h
    cases hcur : sched.currentTask with
    | none => simp [hcur] at h
    | some t =>
      simp only [hcur, Option.some.injEq, Prod.mk.injEq] at h
      obtain ⟨rfl, rfl, -⟩ := h
      exact ⟨t, rfl, hcur, rfl, rfl, rfl⟩

/-! ### The invariant -/

/-- The kernel's variables agree with the history. -/
structure FrameInv (k : Kernel τ) (h : List (Event τ)) : Prop where
  prev : k.prevTask = running h
  current : k.sched.currentTask = running h
  known : ∀ t, running h = some t → t ∈ tasksOf h
  slots : ∀ i t, k.sched.processes.data i = some t → t ∈ tasksOf h
  saved : ∀ t ∈ tasksOf h, expected h t = some (k.saved t)

omit [DecidableEq τ] in
theorem slots_push {v : Vec τ} {grant : Bool} {t t' : τ} {i : Nat}
    (h : (vecPush grant v t).data i = some t') : t' = t ∨ v.data i = some t' := by
  rcases vecPush_cases grant v t with ⟨c, hc⟩ | ⟨-, hc⟩
  · rw [hc] at h
    simp only at h
    split at h
    · exact .inl (Option.some.inj h).symm
    · exact .inr h
  · rw [hc] at h
    exact .inr h

theorem FrameInv.push {k : Kernel τ} {h : List (Event τ)} (inv : FrameInv k h) {t : τ}
    (grant : Bool) (initial : Stack) (hfresh : t ∉ tasksOf h) :
    FrameInv
      { k with
        sched := schedPush grant k.sched t
        saved := Function.update k.saved t initial } (.pushed t initial :: h) where
  prev := inv.prev
  current := inv.current
  known := by
    intro t' ht'
    exact List.mem_cons_of_mem t (inv.known t' ht')
  slots := by
    intro i t' ht'
    rcases slots_push ht' with rfl | hold
    · exact List.mem_cons_self
    · exact List.mem_cons_of_mem t (inv.slots i t' hold)
  saved := by
    intro t' ht'
    show (if t = t' then some initial else expected h t') =
      some (Function.update k.saved t initial t')
    by_cases heq : t = t'
    · rw [if_pos heq, ← heq, Function.update_self]
    · rw [if_neg heq, Function.update_of_ne (Ne.symm heq)]
      exact inv.saved t' ((List.mem_cons.mp ht').resolve_left (Ne.symm heq))

/-- A timer interrupt keeps the invariant and installs what is expected. -/
theorem FrameInv.timer {k k' : Kernel τ} {h : List (Event τ)} (inv : FrameInv k h)
    {passed installed : Stack} {resumed : τ} {last : HandlerEnd} (hint : passed.intno = 32)
    (hk : interruptsHandler true k passed = some (k', installed, last))
    (hres : k'.sched.currentTask = some resumed) :
    FrameInv k' (.timer passed resumed installed :: h) ∧
      expected (.timer passed resumed installed :: h) resumed = some installed := by
  obtain ⟨t, htick, hcur, hprev, hsaved, hinst⟩ := handler_timer hint hk
  obtain rfl : t = resumed := Option.some.inj (hcur.symm.trans hres)
  obtain ⟨hproc, hpick⟩ := schedTick_cases htick
  -- the task resumed is the running one or comes from a slot
  have hknown : t ∈ tasksOf h := by
    rcases hpick with hsame | ⟨i, hslot⟩
    · exact inv.known t (by rw [← inv.current, ← hsame, hcur])
    · exact inv.slots i t (by rw [← hslot, hcur])
  -- the frame passed is saved for the task that was running
  have hexp : ∀ t' ∈ tasksOf h,
      expected (.timer passed t installed :: h) t' = some ((saveFrame k passed).saved t') := by
    intro t' ht'
    rw [saveFrame_saved, inv.prev]
    show (if running h = some t' then some passed else expected h t') = _
    by_cases hrun : running h = some t'
    · rw [if_pos hrun, if_pos hrun]
    · rw [if_neg hrun, if_neg hrun, inv.saved t' ht']
  refine ⟨⟨hprev, hcur, ?_, ?_, ?_⟩, ?_⟩
  · intro t' ht'
    obtain rfl : t = t' := Option.some.inj ht'
    exact hknown
  · intro i t' ht'
    exact inv.slots i t' (by rw [← hproc]; exact ht')
  · intro t' ht'
    rw [hsaved]
    exact hexp t' ht'
  · rw [hinst]
    exact hexp t hknown

theorem FrameInv.step {k k' : Kernel τ} {h h' : List (Event τ)} (inv : FrameInv k h)
    (hs : KernelStep k h k' h') : FrameInv k' h' := by
  cases hs with
  | push grant initial hfresh => exact inv.push grant initial hfresh
  | timer hint hk hres => exact (inv.timer hint hk hres).1
  | syscall _ hprev hcur hsaved hslots =>
    exact ⟨hprev.trans inv.prev, hcur.trans inv.current, inv.known, hslots, hsaved ▸ inv.saved⟩

theorem KernelRun.inv {k : Kernel τ} {h : List (Event τ)} (hr : KernelRun k h) : FrameInv k h := by
  induction hr with
  | boot =>
    refine ⟨rfl, rfl, ?_, ?_, ?_⟩
    · intro t ht
      cases ht
    · intro i t ht
      cases ht
    · intro t ht
      cases ht
  | step _ hs ih => exact ih.step hs

/-! ### The handler returns

With only timer interrupts and pushes the scheduler's index stays in range, so
the handler always finds a task.  A stale `intno` is the one way out of such a
run. -/

/-- No task was pushed with a frame that looks like a system call. -/
def NoStaleIntno (h : List (Event τ)) : Prop :=
  ∀ t f, Event.pushed t f ∈ h → f.intno ≠ 0x42

/-- A run that has not left timer interrupts and pushes. -/
structure Steady (k : Kernel τ) (h : List (Event τ)) : Prop where
  index : IndexInv k.sched
  short : k.sched.processes.length ≤ h.length
  due : k.sched.currentTask = none → SWITCH_TICK ≤ k.sched.currentTick + 1
  frames : ∀ t f, expected h t = some f → f.intno ≠ 0x42
  quiet : ¬ Dispatched h

omit [DecidableEq τ] in
theorem NoStaleIntno.tail {e : Event τ} {h : List (Event τ)} (hc : NoStaleIntno (e :: h)) :
    NoStaleIntno h := by
  intro t f hm
  exact hc t f (List.mem_cons_of_mem e hm)

theorem Steady.push {k : Kernel τ} {h : List (Event τ)} (st : Steady k h) {t : τ} (grant : Bool)
    {initial : Stack} (hlen : h.length + 1 < 2 ^ 31) (hclean : initial.intno ≠ 0x42) :
    Steady
      { k with
        sched := schedPush grant k.sched t
        saved := Function.update k.saved t initial } (.pushed t initial :: h) where
  index := st.index.push grant t (by have := st.short; omega)
  short := by
    have hshort := st.short
    rcases vecPush_cases grant k.sched.processes t with ⟨c, hc⟩ | ⟨-, hc⟩
    · show (vecPush grant k.sched.processes t).length ≤ h.length + 1
      rw [hc]
      exact Nat.succ_le_succ hshort
    · show (vecPush grant k.sched.processes t).length ≤ h.length + 1
      rw [hc]
      omega
  due := st.due
  frames := by
    intro t' f hf
    replace hf : (if t = t' then some initial else expected h t') = some f := hf
    split at hf
    · cases hf
      exact hclean
    · exact st.frames t' f hf
  quiet := id

theorem Steady.timer {k k' : Kernel τ} {h : List (Event τ)} (st : Steady k h)
    (inv : FrameInv k h) {passed installed : Stack} {resumed : τ} {last : HandlerEnd}
    (hint : passed.intno = 32)
    (hk : interruptsHandler true k passed = some (k', installed, last))
    (hres : k'.sched.currentTask = some resumed) :
    Steady k' (.timer passed resumed installed :: h) := by
  obtain ⟨t, htick, -, -, -, -⟩ := handler_timer hint hk
  have hframes : ∀ t' f, expected (.timer passed resumed installed :: h) t' = some f →
      f.intno ≠ 0x42 := by
    intro t' f hf
    replace hf : (if running h = some t' then some passed else expected h t') = some f := hf
    split at hf
    · cases hf
      rw [hint]
      decide
    · exact st.frames t' f hf
  refine ⟨st.index.tick htick, ?_, ?_, hframes, ?_⟩
  · rw [(schedTick_cases htick).1]
    exact Nat.le_succ_of_le st.short
  · intro hnone
    rw [hres] at hnone
    cases hnone
  · exact hframes resumed installed (inv.timer hint hk hres).2

theorem KernelRun.steady {k : Kernel τ} {h : List (Event τ)} (hr : KernelRun k h)
    (hclean : NoStaleIntno h) (hlen : h.length < 2 ^ 31) : Steady k h := by
  induction hr with
  | boot =>
    refine ⟨⟨⟨[], vecInit_holds⟩, Nat.le_refl 0, show 0 < 2 ^ 31 by decide⟩, Nat.le_refl 0, ?_,
      ?_, id⟩
    · intro _
      exact Nat.le_refl 10
    · intro t f hf
      cases hf
  | step hr hs ih =>
    cases hs with
    | push grant initial hfresh =>
      rw [List.length_cons] at hlen
      exact (ih hclean.tail (by omega)).push grant hlen (hclean _ _ List.mem_cons_self)
    | timer hint hk hres =>
      rw [List.length_cons] at hlen
      exact (ih hclean.tail (by omega)).timer hr.inv hint hk hres
    | syscall hdisp => exact absurd hdisp (ih hclean hlen).quiet

/-- With a process present, `sched_tick` returns a task. -/
theorem Steady.schedTick_returns {k : Kernel τ} {h : List (Event τ)} (st : Steady k h)
    (hne : k.sched.processes.length ≠ 0) :
    ∃ s' t, schedTick k.sched = some s' ∧ s'.currentTask = some t := by
  by_cases hdue : k.sched.currentTick + 1 ≥ SWITCH_TICK
  · obtain ⟨-, s', t, htick, hcur, -⟩ := st.index.switch_in_range hne hdue
    exact ⟨s', t, htick, hcur⟩
  · cases hcur : k.sched.currentTask with
    | none => exact absurd (st.due hcur) hdue
    | some t =>
      refine ⟨{ k.sched with currentTick := k.sched.currentTick + 1 }, t, ?_, hcur⟩
      unfold schedTick
      rw [if_neg hne, if_neg hdue]

theorem Steady.handler_returns {k : Kernel τ} {h : List (Event τ)} (st : Steady k h)
    (hne : k.sched.processes.length ≠ 0) {passed : Stack} (hint : passed.intno = 32) :
    ∃ k' resumed installed, KernelStep k h k' (.timer passed resumed installed :: h) := by
  obtain ⟨s', t, htick, hcur⟩ := st.schedTick_returns hne
  have hswitch : timerSwitch k passed =
      some (⟨s', some t, (saveFrame k passed).saved⟩, (saveFrame k passed).saved t) := by
    unfold timerSwitch
    simp only [saveFrame_sched, htick, hcur]
  have hk : ∃ last, interruptsHandler true k passed =
      some (⟨s', some t, (saveFrame k passed).saved⟩, (saveFrame k passed).saved t, last) := by
    unfold interruptsHandler
    rw [if_neg (by rw [hint]; decide), if_pos ⟨hint, rfl⟩, hswitch]
    exact ⟨_, rfl⟩
  obtain ⟨last, hk⟩ := hk
  exact ⟨_, t, _, .timer hint hk hcur⟩

/-! ### Every task is resumed with its own frame -/

/-- **Timer interrupts keep the tasks' frames apart.**  In every state reached
by timer interrupts and pushes, in any order:

* a timer interrupt that resumes a task installs the frame passed at the last
  timer interrupt taken while that task was running, or its initial frame;
* no step changes the saved frame of a task that is not running;
* with a process present the handler returns, unless some task was pushed with
  an `intno` that sent an earlier interrupt into a system call. -/
theorem timer_installs_expected {k : Kernel τ} {h : List (Event τ)} (hr : KernelRun k h) :
    (∀ k' passed resumed installed,
      KernelStep k h k' (.timer passed resumed installed :: h) →
        expected (.timer passed resumed installed :: h) resumed = some installed) ∧
    (∀ k' h', KernelStep k h k' h' → ∀ t ∈ tasksOf h, running h ≠ some t →
      k'.saved t = k.saved t) ∧
    (NoStaleIntno h → h.length < 2 ^ 31 → k.sched.processes.length ≠ 0 →
      ∀ passed : Stack, passed.intno = 32 →
        ∃ k' resumed installed, KernelStep k h k' (.timer passed resumed installed :: h)) := by
  refine ⟨?_, ?_, ?_⟩
  · intro k' passed resumed installed hs
    cases hs with
    | timer hint hk hres => exact (hr.inv.timer hint hk hres).2
  · intro k' h' hs t ht hidle
    cases hs with
    | push grant initial hfresh =>
      refine Function.update_of_ne ?_ initial k.saved
      rintro rfl
      exact hfresh ht
    | timer hint hk hres =>
      obtain ⟨-, -, -, -, hsaved, -⟩ := handler_timer hint hk
      rw [hsaved, saveFrame_saved, hr.inv.prev, if_neg hidle]
    | syscall _ _ _ hsaved => rw [hsaved]
  · intro hclean hlen hne passed hint
    exact (hr.steady hclean hlen).handler_returns hne hint

/-- A frame of zeros with the given vector. -/
def blankStack (intno : BitVec 64) : Stack :=
  ⟨0, 0, 0, 0, 0, 0, 0, 0, 0, 0, 0, 0, 0, 0, 0, intno, 0, 0, 0, 0, 0, 0⟩

/-! ### Two tasks -/

/-- Timer interrupts with these frames, one after the other. -/
def runTimers (k : Kernel τ) (h : List (Event τ)) :
    List Stack → Option (Kernel τ × List (Event τ))
  | [] => some (k, h)
  | passed :: rest =>
    match interruptsHandler true k passed with
    | none => none
    | some (k', installed, _) =>
      match k'.sched.currentTask with
      | none => none
      | some resumed => runTimers k' (.timer passed resumed installed :: h) rest

theorem KernelRun.timers {k k' : Kernel τ} {h h' : List (Event τ)} {frames : List Stack}
    (hr : KernelRun k h) (hint : ∀ f ∈ frames, f.intno = 32)
    (htimers : runTimers k h frames = some (k', h')) : KernelRun k' h' := by
  induction frames generalizing k h with
  | nil =>
    cases htimers
    exact hr
  | cons passed rest ih =>
    unfold runTimers at htimers
    split at htimers
    · cases htimers
    · next k₁ installed last hk =>
      split at htimers
      · cases htimers
      · next resumed hres =>
        exact ih (hr.step (.timer (hint passed List.mem_cons_self) hk hres))
          (fun f hf => hint f (List.mem_cons_of_mem _ hf)) htimers

/-- A frame at a timer interrupt. -/
def stackAt (rip : BitVec 64) : Stack := { blankStack 32 with rip := rip }

/-- A task is pushed, at this address. -/
def pushAt (k : Kernel Nat) (t : Nat) (rip : BitVec 64) : Kernel Nat :=
  { k with
    sched := schedPush true k.sched t
    saved := Function.update k.saved t (stackAt rip) }

/-- Two tasks that have not run. -/
def twoPushed : Kernel Nat :=
  pushAt (pushAt ⟨schedInit, none, fun _ => stackAt 0⟩ 0 0x1000) 1 0x2000

def twoPushedEvents : List (Event Nat) := [.pushed 1 (stackAt 0x2000), .pushed 0 (stackAt 0x1000)]

theorem twoPushed_run : KernelRun twoPushed twoPushedEvents :=
  .step (.step .boot (.push true (stackAt 0x1000) List.not_mem_nil))
    (.push true (stackAt 0x2000) (by decide))

/-- 30 timer interrupts: the tasks take turns every ten of them. -/
def threeSlices : List Stack := (List.range 30).map fun i => stackAt (BitVec.ofNat 64 i)

/-- The next one resumes the second task, with the frame it was interrupted with at the
end of its time slice, ten interrupts before. -/
theorem timer_installs_expected_two :
    ∃ (k : Kernel Nat) (h : List (Event Nat)), KernelRun k h ∧ running h = some 0 ∧
      ∃ k' installed, KernelStep k h k' (.timer (stackAt 30) 1 installed :: h) ∧
        expected (.timer (stackAt 30) 1 installed :: h) 1 = some installed ∧
        installed.rip = 20 := by
  have hrun : ((runTimers twoPushed twoPushedEvents threeSlices).bind fun r =>
      (interruptsHandler true r.1 (stackAt 30)).map fun q =>
        (running r.2, q.1.sched.currentTask, q.2.1.rip)) = some (some 0, some 1, 20) := by
    decide +kernel
  obtain ⟨⟨k, h⟩, htimers, hlast⟩ := Option.bind_eq_some_iff.mp hrun
  obtain ⟨⟨k', installed, last⟩, hk, heq⟩ := Option.map_eq_some_iff.mp hlast
  simp only [Prod.mk.injEq] at heq
  obtain ⟨hrunning, hres, hrip⟩ := heq
  have hint : ∀ f ∈ threeSlices, f.intno = 32 := by
    intro f hf
    obtain ⟨i, -, rfl⟩ := List.mem_map.mp hf
    rfl
  have hr := twoPushed_run.timers hint htimers
  have hstep : KernelStep k h k' (.timer (stackAt 30) 1 installed :: h) := .timer rfl hk hres
  exact ⟨k, h, hr, hrunning, k', installed, hstep,
    (timer_installs_expected hr).1 _ _ _ _ hstep, hrip⟩

end BestOS
