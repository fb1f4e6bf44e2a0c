/-
BestOS/SchedLock.lean

The scheduler's spin lock and the timer interrupt.

`BestOS/Sched.lean` runs every function of `sched.c` whole.  Here the lock is
put back.  The code of a system call handler is reduced to the instructions
that touch the scheduler's statics; any number of other instructions may lie
between two of them, and a timer interrupt may arrive before each one: vector
0x42 is a trap gate, so a handler runs with interrupts enabled.  The timer's own
handler runs behind an interrupt gate, so it runs whole, and `sched_tick` either
finds the lock free or spins for ever with interrupts off.

`LockInv` is the invariant of every run: the lock is held by the code that lies
between a `spin_lock` and its `spin_release`, and this code is the one that is
running, since nobody is ever switched away from while it holds the lock.  So a
timer interrupt deadlocks exactly when it hits a critical section, and the only
handlers that have one are `sys_exit` and `sys_execve`.
-/
import BestOS.Sched
import Mathlib.Logic.Function.Basic

namespace BestOS

variable {τ : Type} [DecidableEq τ]

/-! ### The handlers -/

/-- The table `syscalls[]`. -/
inductive Syscall
  | log | mmap | setFsBase | openat | read | write | close | seek | exit | execve
deriving Repr, DecidableEq

/-- The instructions of a handler that concern the scheduler. -/
inductive Instr (τ : Type)
  | spinLock
  | spinRelease
  | nextPid
  | vecPush (grant : Bool) (t : τ)
  | vecRemove (t : τ)
  | setIndex
  | setTick
  | forever

/-- `sched_push`. -/
def schedPushCode (grant : Bool) (t : τ) : List (Instr τ) :=
  [.spinLock, .vecPush grant t, .spinRelease]

/-- `sched_remove`. -/
def schedRemoveCode (t : τ) : List (Instr τ) := [.spinLock, .vecRemove t, .spinRelease]

/-- The handler of a system call of task `t`; `new` is the task that
`sched_new_elf_process` makes, `grant` whether its push finds room.  `sys_exit`
ends in a loop. -/
def handlerCode (t : τ) (grant : Bool) (new : τ) : Syscall → List (Instr τ)
  | .exit => schedRemoveCode t ++ [.forever]
  | .execve => .nextPid :: schedPushCode grant new ++ [.setIndex, .setTick]
  | _ => []

/-! ### The processor -/

/-- The scheduler with its lock, and where every task is in its code. -/
structure Cpu (τ : Type) where
  sched : Sched τ
  /-- The lock byte, with the task whose code has set it. -/
  lock : Option τ
  /-- The task whose code is running; `none` is the idle loop of `kernel_main`. -/
  running : Option τ
  /-- What is left of a task's handler; `none` in user mode. -/
  code : τ → Option (List (Instr τ))

/-- One instruction of the code of `t`; `none` when it does not get on. -/
def exec (s : Cpu τ) (t : τ) : Instr τ → Option (Cpu τ)
  | .spinLock => if s.lock = none then some { s with lock := some t } else none
  | .spinRelease => some { s with lock := none }
  | .nextPid => some { s with sched := nextPid s.sched }
  | .vecPush grant new => some { s with sched := schedPush grant s.sched new }
  | .vecRemove t => some { s with sched := schedRemove s.sched t }
  | .setIndex => some { s with sched := schedSetIndex s.sched (schedGetLastPid s.sched - 2) }
  | .setTick => some { s with sched := schedSetTick s.sched (SWITCH_TICK - 1) }
  | .forever => none

/-- One step: an instruction that does not concern the scheduler, `int 0x42`
with a call that is `allowed`, an instruction of a handler, the return from
it, or a timer interrupt.  A timer interrupt that finds the lock held never
comes back, so there is no step for it. -/
inductive CpuStep (allowed : Syscall → Prop) : Cpu τ → Cpu τ → Prop
  | other {s} : CpuStep allowed s s
  | int42 {s t} (n : Syscall) (grant : Bool) (new : τ) : s.running = some t → s.code t = none →
      allowed n →
      CpuStep allowed s
        { s with code := Function.update s.code t (some (handlerCode t grant new n)) }
  | exec {s s' t i rest} : s.running = some t → s.code t = some (i :: rest) →
      exec s t i = some s' →
      CpuStep allowed s { s' with code := Function.update s'.code t (some rest) }
  | iretq {s t} : s.running = some t → s.code t = some [] →
      CpuStep allowed s { s with code := Function.update s.code t none }
  | timer {s sched t} : s.lock = none → schedTick s.sched = some sched →
      sched.currentTask = some t → CpuStep allowed s { s with sched := sched, running := some t }

/-- `kernel_main` after `sched_start`: one task, and the idle loop running. -/
def bootCpu (t : τ) : Cpu τ where
  sched := schedPush true (nextPid schedInit) t
  lock := none
  running := none
  code := fun _ => none

/-- The states reached from boot when the programs make only `allowed` calls. -/
inductive CpuRun (allowed : Syscall → Prop) (t : τ) : Cpu τ → Prop
  | boot : CpuRun allowed t (bootCpu t)
  | step {s s'} : CpuRun allowed t s → CpuStep allowed s s' → CpuRun allowed t s'

/-- Were a timer interrupt to arrive now, the lock that `sched_tick` takes is
not held by the code it interrupts. -/
def TickSafe (s : Cpu τ) : Prop := ∀ t, s.lock = some t → s.running ≠ some t

/-! ### Critical sections -/

/-- The next thing this code does with the lock is to release it. -/
def critical : List (Instr τ) → Bool
  | [] => false
  | .spinLock :: _ => false
  | .spinRelease :: _ => true
  | _ :: rest => critical rest

/-- Locks and releases alternate. -/
def Alternates : List (Instr τ) → Prop
  | [] => True
  | .spinLock :: rest => critical rest = true ∧ Alternates rest
  | .spinRelease :: rest => critical rest = false ∧ Alternates rest
  | _ :: rest => Alternates rest

/-- The task is inside a critical section. -/
def InCritical (s : Cpu τ) (t : τ) : Prop := ∃ c, s.code t = some c ∧ critical c = true

omit [DecidableEq τ] in
theorem handlerCode_alternates (t : τ) (grant : Bool) (new : τ) (n : Syscall) :
    Alternates (handlerCode t grant new n) := by
  cases n <;> simp [handlerCode, schedPushCode, schedRemoveCode, Alternates, critical]

omit [DecidableEq τ] in
theorem handlerCode_not_critical (t : τ) (grant : Bool) (new : τ) (n : Syscall) :
    critical (handlerCode t grant new n) = false := by
  cases n <;> rfl

/-- Who holds the lock. -/
structure LockInv (s : Cpu τ) : Prop where
  holder : ∀ t, s.lock = some t ↔ InCritical s t
  running : ∀ t, s.lock = some t → s.running = some t
  alternates : ∀ t c, s.code t = some c → Alternates c

omit [DecidableEq τ] in
theorem lockInv_boot (t : τ) : LockInv (bootCpu t) where
  holder := by simp [bootCpu, InCritical]
  running := by simp [bootCpu]
  alternates := by simp [bootCpu]

/-- The code of the running task is replaced, and the lock follows it: it is
held by that task when the new code is critical and else as before. -/
theorem LockInv.setCode {s s' : Cpu τ} {t : τ} {c : Option (List (Instr τ))} (h : LockInv s)
    (hrun : s.running = some t) (hrun' : s'.running = s.running)
    (hcode : s'.code = Function.update s.code t c)
    (halt : ∀ l, c = some l → Alternates l)
    (hself : s'.lock = some t ↔ ∃ l, c = some l ∧ critical l = true)
    (hother : ∀ t', t' ≠ t → s'.lock ≠ some t') : LockInv s' := by
  have hfree : ∀ t', t' ≠ t → ¬ InCritical s t' := by
    intro t' hne hcrit
    have hheld := h.running t' ((h.holder t').mpr hcrit)
    exact hne (Option.some.inj (hheld.symm.trans hrun))
  refine ⟨fun t' => ?_, fun t' hlock => ?_, fun t' l hl => ?_⟩
  · by_cases ht : t' = t
    · subst ht
      rw [hself, InCritical, hcode, Function.update_self]
    · refine ⟨fun hlock => absurd hlock (hother t' ht), fun hcrit => absurd ?_ (hfree t' ht)⟩
      rwa [InCritical, hcode, Function.update_of_ne ht] at hcrit
  · by_cases ht : t' = t
    · rw [ht, hrun', hrun]
    · exact absurd hlock (hother t' ht)
  · rw [hcode] at hl
    by_cases ht : t' = t
    · subst ht
      rw [Function.update_self] at hl
      exact halt l hl
    · rw [Function.update_of_ne ht] at hl
      exact h.alternates t' l hl

/-- One instruction of a handler. -/
theorem LockInv.exec {s s' : Cpu τ} {t : τ} {i : Instr τ} {rest : List (Instr τ)} (h : LockInv s)
    (hrun : s.running = some t) (hcode : s.code t = some (i :: rest))
    (hexec : exec s t i = some s') :
    LockInv { s' with code := Function.update s'.code t (some rest) } := by
  have halt := h.alternates t _ hcode
  have hholds : s.lock = some t ↔ critical (i :: rest) = true := by
    rw [h.holder t]
    refine ⟨?_, fun hc => ⟨_, hcode, hc⟩⟩
    rintro ⟨c, hc, hcrit⟩
    obtain rfl : c = i :: rest := Option.some.inj (hc.symm.trans hcode)
    exact hcrit
  -- the holder runs, so no other task holds the lock
  have hothers : ∀ t', t' ≠ t → s.lock ≠ some t' := fun t' hne hlock =>
    hne (Option.some.inj ((h.running t' hlock).symm.trans hrun))
  -- an instruction that has nothing to do with the lock
  have hplain : ∀ sched, critical (i :: rest) = critical rest → Alternates rest →
      LockInv { s with sched := sched, code := Function.update s.code t (some rest) } := by
    intro sched hcrit hrest
    rw [hcrit] at hholds
    refine h.setCode hrun rfl rfl ?_ ?_ hothers
    · rintro l ⟨⟩
      exact hrest
    · simpa using hholds
  cases i with
  | spinLock =>
      simp only [BestOS.exec] at hexec
      split at hexec
      · obtain rfl := Option.some.inj hexec
        refine h.setCode hrun rfl rfl ?_ ?_ ?_
        · rintro l ⟨⟩
          exact halt.2
        · simpa using halt.1
        · intro t' hne hlock
          exact hne (Option.some.inj hlock).symm
      · cases hexec
  | spinRelease =>
      obtain rfl := Option.some.inj hexec
      refine h.setCode hrun rfl rfl ?_ ?_ fun _ _ => by simp
      · rintro l ⟨⟩
        exact halt.2
      · simpa using halt.1
  | forever => cases hexec
  | nextPid =>
      obtain rfl := Option.some.inj hexec
      exact hplain _ rfl halt
  | vecPush grant new =>
      obtain rfl := Option.some.inj hexec
      exact hplain _ rfl halt
  | vecRemove t' =>
      obtain rfl := Option.some.inj hexec
      exact hplain _ rfl halt
  | setIndex =>
      obtain rfl := Option.some.inj hexec
      exact hplain _ rfl halt
  | setTick =>
      obtain rfl := Option.some.inj hexec
      exact hplain _ rfl halt

theorem LockInv.step {allowed : Syscall → Prop} {s s' : Cpu τ} (h : LockInv s)
    (hstep : CpuStep allowed s s') : LockInv s' := by
  have hothers : ∀ {t}, s.running = some t → ∀ t', t' ≠ t → s.lock ≠ some t' :=
    fun hrun t' hne hlock => hne (Option.some.inj ((h.running t' hlock).symm.trans hrun))
  cases hstep with
  | other => exact h
  | @int42 t n grant new hrun hcode _ =>
      refine h.setCode hrun rfl rfl ?_ ?_ (hothers hrun)
      · rintro l ⟨⟩
        exact handlerCode_alternates t grant new n
      · have hnot : ¬ s.lock = some t := by
          rw [h.holder t]
          rintro ⟨c, hc, -⟩
          rw [hcode] at hc
          cases hc
        simpa [handlerCode_not_critical] using hnot
  | exec hrun hcode hexec => exact h.exec hrun hcode hexec
  | @iretq t hrun hcode =>
      -- the code is used up, so the lock has been released
      refine h.setCode hrun rfl rfl (by rintro l ⟨⟩) ?_ (hothers hrun)
      have hnot : ¬ s.lock = some t := by
        rw [h.holder t]
        rintro ⟨c, hc, hcrit⟩
        obtain rfl : c = [] := Option.some.inj (hc.symm.trans hcode)
        cases hcrit
      simpa using hnot
  | timer hlock _ _ =>
      -- the lock is free, so the switch leaves no holder behind
      refine ⟨h.holder, fun t ht => ?_, h.alternates⟩
      rw [hlock] at ht
      cases ht

theorem CpuRun.lockInv {allowed : Syscall → Prop} {t : τ} {s : Cpu τ} (h : CpuRun allowed t s) :
    LockInv s := by
  induction h with
  | boot => exact lockInv_boot t
  | step _ hstep ih => exact ih.step hstep

/-- **Whatever the programs do**, a timer interrupt deadlocks exactly when it
hits a critical section of the running task. -/
theorem CpuRun.tickSafe_iff {allowed : Syscall → Prop} {t : τ} {s : Cpu τ}
    (h : CpuRun allowed t s) : TickSafe s ↔ ∀ t', s.running = some t' → ¬ InCritical s t' := by
  have hinv := h.lockInv
  constructor
  · intro hsafe t' hrun hcrit
    exact hsafe t' ((hinv.holder t').mpr hcrit) hrun
  · intro hnone t' hlock hrun
    exact hnone t' hrun ((hinv.holder t').mp hlock)

/-! ### The calls that have a critical section -/

/-- Programs that neither exit nor start a program never come near the lock. -/
theorem code_empty {allowed : Syscall → Prop} (hexit : ¬ allowed .exit) (hexecve : ¬ allowed .execve)
    {t : τ} {s : Cpu τ} (h : CpuRun allowed t s) : ∀ t' c, s.code t' = some c → c = [] := by
  induction h with
  | boot => simp [bootCpu]
  | @step s s' _ hstep ih =>
      cases hstep with
      | other => exact ih
      | @int42 t₀ n grant new hrun hcode hallowed =>
          intro t' c hc
          by_cases ht : t' = t₀
          · subst ht
            have hnil : handlerCode t' grant new n = [] := by
              cases n <;> first | rfl | exact absurd hallowed hexit | exact absurd hallowed hexecve
            simpa [hnil] using hc.symm
          · simp only [Function.update_of_ne ht] at hc
            exact ih t' c hc
      | exec hrun hcode _ => exact absurd (ih _ _ hcode) (by simp)
      | @iretq t₀ hrun hcode =>
          intro t' c hc
          by_cases ht : t' = t₀
          · subst ht
            simp at hc
          · simp only [Function.update_of_ne ht] at hc
            exact ih t' c hc
      | timer _ _ _ => exact ih

/-- The first timer interrupt switches to the first task. -/
theorem boot_timer (allowed : Syscall → Prop) (t : τ) :
    ∃ s, CpuRun allowed t s ∧ s.running = some t ∧ s.lock = none ∧ s.code t = none := by
  have htick : ∃ sched, schedTick (bootCpu t).sched = some sched ∧ sched.currentTask = some t :=
    ⟨_, rfl, rfl⟩
  obtain ⟨sched, hsched, hcur⟩ := htick
  exact ⟨_, .step .boot (.timer rfl hsched hcur), rfl, rfl, rfl⟩

/-- An exit or the start of a program goes through a state in which the lock is
held by the running code. -/
theorem critical_section_reached (allowed : Syscall → Prop) (t : τ)
    (h : allowed .exit ∨ allowed .execve) :
    ∃ s, CpuRun allowed t s ∧ s.lock = some t ∧ s.running = some t := by
  obtain ⟨s, hrun, hrunning, hlock, hcode⟩ := boot_timer allowed t
  rcases h with hexit | hexecve
  · have hrun₁ := hrun.step (.int42 .exit true t hrunning hcode hexit)
    have hrun₂ := hrun₁.step (.exec hrunning (Function.update_self ..) (if_pos hlock))
    exact ⟨_, hrun₂, rfl, hrunning⟩
  · have hrun₁ := hrun.step (.int42 .execve true t hrunning hcode hexecve)
    have hrun₂ := hrun₁.step (.exec hrunning (Function.update_self ..) rfl)
    have hrun₃ := hrun₂.step (.exec hrunning (Function.update_self ..) (if_pos hlock))
    exact ⟨_, hrun₃, rfl, hrunning⟩

/-- **The scheduler lock and the timer.**  Over all interleavings, the lock is
never held by the code that a timer interrupt hits, exactly when no program
calls `sys_exit` or `sys_execve`. -/
theorem tick_never_deadlocks_iff (allowed : Syscall → Prop) (t : τ) :
    (∀ s, CpuRun allowed t s → TickSafe s) ↔ ¬ allowed .exit ∧ ¬ allowed .execve := by
  constructor
  · intro hsafe
    rw [← not_or]
    intro hcalls
    obtain ⟨s, hrun, hlock, hrunning⟩ := critical_section_reached allowed t hcalls
    exact hsafe s hrun t hlock hrunning
  · rintro ⟨hexit, hexecve⟩ s hrun
    rw [hrun.tickSafe_iff]
    rintro t' - ⟨c, hc, hcrit⟩
    rw [code_empty hexit hexecve hrun t' c hc] at hcrit
    cases hcrit

/-- **A timer interrupt inside `sys_exit`.**  The only task of a booted system
exits; between `spin_lock` and `spin_release` of `sched_remove` the lock is held
by the code that an interrupt would hit. -/
theorem tick_deadlocks_in_exit :
    ¬ ∀ s, CpuRun (fun n => n = .exit) (0 : Nat) s → TickSafe s := by
  intro hclaim
  obtain ⟨s, hrun, hlock, hrunning⟩ := critical_section_reached (· = .exit) 0 (.inl rfl)
  exact hclaim s hrun 0 hlock hrunning

end BestOS
