/-
BestOS/Sched.lean

The round-robin scheduler of `kernel/sched.c` and the index it reads.

A task is known here by its pointer only (the type `τ`); what the record holds
is the business of the modules above.  The scheduler's statics are `processes`,
`current_pid`, `current_tick`, `index` and `current_task`; the spin lock has no
counterpart, every function runs whole.

`sched_tick` takes `processes.data[index++]` at a switch.  What keeps that read
inside the vector is a test for equality, `(int)index == processes.length`,
which resets the index when it stands exactly at the end.  It does so only
while the index never gets past the end, `index ≤ length` (`IndexInv`), and two
operations do not keep that:

* `sched_remove` shrinks the vector and leaves the index alone;
* `sys_execve` sets the index from the pid counter, which counts every task
  ever made.

`IndexSafe` is the condition under which they do; `sched_tick_in_range` derives
the property for every run whose steps meet it, and `exit_out_of_range` is a
run of two tasks that does not.
-/
import BestOS.Mem
import BestOS.Vec

namespace BestOS

variable {τ : Type}

def SWITCH_TICK : Nat := 10

/-- The statics of `sched.c`. -/
structure Sched (τ : Type) where
  processes : Vec τ
  currentPid : Nat
  currentTick : Nat
  index : Nat
  currentTask : Option τ

/-- `sched_init`, on the statics as the loader leaves them. -/
def schedInit : Sched τ where
  processes := vecInit
  currentPid := 0
  currentTick := SWITCH_TICK - 1
  index := 0
  currentTask := none

/-- What `task_init` does to the scheduler: `new->pid = current_pid++`. -/
def nextPid (s : Sched τ) : Sched τ :=
  { s with currentPid := (s.currentPid + 1) % 2 ^ 64 }

/-- `sched_push`. -/
def schedPush (grant : Bool) (s : Sched τ) (t : τ) : Sched τ :=
  { s with processes := vecPush grant s.processes t }

/-- `sched_remove`. -/
def schedRemove [DecidableEq τ] (s : Sched τ) (t : τ) : Sched τ :=
  { s with processes := vecRemove s.processes t }

/-- The position that a switch reads: `index`, or 0 when the test for the end
of the vector succeeds. -/
def switchIndex (s : Sched τ) : Nat :=
  if toInt s.index = s.processes.length then 0 else s.index

/-- `sched_tick`; the task it returns is `current_task` afterwards.  With no
process it waits in `hlt` and does not return. -/
def schedTick (s : Sched τ) : Option (Sched τ) :=
  if s.processes.length = 0 then
    none
  else if s.currentTick + 1 ≥ SWITCH_TICK then
    some { s with
      currentTick := 0
      index := (switchIndex s + 1) % 2 ^ 64
      currentTask := s.processes.data (switchIndex s) }
  else
    some { s with currentTick := s.currentTick + 1 }

/-- `sched_get_last_pid`. -/
def schedGetLastPid (s : Sched τ) : Int := toInt s.currentPid

/-- `sched_set_index`. -/
def schedSetIndex (s : Sched τ) (i : Int) : Sched τ := { s with index := toSize i }

/-- `sched_set_tick`. -/
def schedSetTick (s : Sched τ) (t : Int) : Sched τ := { s with currentTick := toSize t }

/-- The end of `sys_execve`, after the new task is pushed. -/
def execveSwitch (s : Sched τ) : Sched τ :=
  schedSetTick (schedSetIndex s (schedGetLastPid s - 2)) (SWITCH_TICK - 1)

/-! ### Runs of the scheduler -/

/-- The calls that reach the scheduler. -/
inductive SchedOp (τ : Type)
  | taskInit
  | push (grant : Bool) (t : τ)
  | remove (t : τ)
  | tick
  | execve

variable [DecidableEq τ]

/-- One call; `none` when it does not return. -/
def schedStep (s : Sched τ) : SchedOp τ → Option (Sched τ)
  | .taskInit => some (nextPid s)
  | .push grant t => some (schedPush grant s t)
  | .remove t => some (schedRemove s t)
  | .tick => schedTick s
  | .execve => some (execveSwitch s)

/-- The states reached from `sched_init` by calls that meet `ok` in the state
they are made in. -/
inductive SchedRun (ok : Sched τ → SchedOp τ → Prop) : Sched τ → Prop
  | init : SchedRun ok schedInit
  | step {s s'} (op) : SchedRun ok s → ok s op → schedStep s op = some s' → SchedRun ok s'

/-- A switch in `s` reads a slot of the vector. -/
def SwitchInRange (s : Sched τ) : Prop :=
  s.processes.length ≠ 0 → s.currentTick + 1 ≥ SWITCH_TICK →
    switchIndex s < s.processes.length ∧
    ∃ s' t, schedTick s = some s' ∧ s'.currentTask = some t ∧
      ∃ i < s.processes.length, s.processes.data i = some t

/-- A call that does not push the index past the end: a task that is present
is removed only while the index is below the length, `execve` finds a pid
counter between 2 and `length + 2`, and the length stays in the range of its
`int`. -/
def IndexSafe (s : Sched τ) : SchedOp τ → Prop
  | .push _ _ => s.processes.length + 1 < 2 ^ 31
  | .remove t => vecFind s.processes t ≠ none → s.index < s.processes.length
  | .execve => 2 ≤ schedGetLastPid s ∧ schedGetLastPid s - 2 ≤ s.processes.length
  | .taskInit => True
  | .tick => True

/-! ### The index invariant -/

/-- The vector holds a list and the index is not past its end. -/
structure IndexInv (s : Sched τ) : Prop where
  holds : ∃ l, s.processes.Holds l
  index_le : s.index ≤ s.processes.length
  length_lt : s.processes.length < 2 ^ 31

omit [DecidableEq τ] in
/-- With the index not past the end, the slot a switch reads is in range. -/
theorem IndexInv.switchIndex_lt {s : Sched τ} (h : IndexInv s) (hne : s.processes.length ≠ 0) :
    switchIndex s < s.processes.length := by
  have hle := h.index_le
  have hlt := h.length_lt
  unfold switchIndex
  rw [toInt_of_lt (by omega)]
  split <;> omega

omit [DecidableEq τ] in
theorem IndexInv.switch_in_range {s : Sched τ} (h : IndexInv s) : SwitchInRange s := by
  intro hne hdue
  have hlt := h.switchIndex_lt hne
  obtain ⟨l, hl⟩ := h.holds
  have hll : switchIndex s < l.length := hl.length ▸ hlt
  have hslot : s.processes.data (switchIndex s) = some (l[switchIndex s]) := by
    rw [hl.data _ hll, List.getElem?_eq_getElem hll]
  have htick : schedTick s = some { s with
      currentTick := 0
      index := (switchIndex s + 1) % 2 ^ 64
      currentTask := s.processes.data (switchIndex s) } := by
    unfold schedTick
    rw [if_neg hne, if_pos hdue]
  exact ⟨hlt, _, _, htick, hslot, _, hlt, hslot⟩

omit [DecidableEq τ] in
theorem IndexInv.push {s : Sched τ} (h : IndexInv s) (grant : Bool) (t : τ)
    (hlt : s.processes.length + 1 < 2 ^ 31) : IndexInv (schedPush grant s t) := by
  obtain ⟨l, hl⟩ := h.holds
  have hle := h.index_le
  have hlen := hl.length
  rcases hl.push grant t with hp | ⟨-, hp⟩
  · have hlen' : (schedPush grant s t).processes.length = l.length + 1 := by
      rw [show (schedPush grant s t).processes = vecPush grant s.processes t from rfl, hp.length,
        List.length_append, List.length_singleton]
    exact ⟨⟨_, hp⟩, by rw [hlen']; show s.index ≤ _; omega, by omega⟩
  · have hlen' : (schedPush grant s t).processes.length = l.length := hp.length
    exact ⟨⟨_, hp⟩, by rw [hlen']; show s.index ≤ _; omega, by omega⟩

theorem IndexInv.remove {s : Sched τ} (h : IndexInv s) (t : τ)
    (hsafe : vecFind s.processes t ≠ none → s.index < s.processes.length) :
    IndexInv (schedRemove s t) := by
  obtain ⟨l, hl⟩ := h.holds
  have hrem := hl.remove t
  refine ⟨⟨_, hrem⟩, ?_, ?_⟩
  · show s.index ≤ (vecRemove s.processes t).length
    unfold vecRemove
    cases hf : vecFind s.processes t with
    | none => exact h.index_le
    | some k =>
      have hlt := hsafe (by rw [hf]; exact Option.some_ne_none k)
      show s.index ≤ s.processes.length - 1
      omega
  · show (vecRemove s.processes t).length < _
    have hlen := hl.length
    have hshort := List.length_erase_le (a := t) (l := l)
    have hlt := h.length_lt
    rw [hrem.length]
    omega

omit [DecidableEq τ] in
theorem IndexInv.tick {s s' : Sched τ} (h : IndexInv s) (hs : schedTick s = some s') :
    IndexInv s' := by
  unfold schedTick at hs
  by_cases hne : s.processes.length = 0
  · rw [if_pos hne] at hs
    cases hs
  · rw [if_neg hne] at hs
    have hlt := h.switchIndex_lt hne
    have hlen := h.length_lt
    by_cases hdue : s.currentTick + 1 ≥ SWITCH_TICK
    · rw [if_pos hdue] at hs
      cases hs
      refine ⟨h.holds, ?_, hlen⟩
      show (switchIndex s + 1) % 2 ^ 64 ≤ s.processes.length
      omega
    · rw [if_neg hdue] at hs
      cases hs
      exact ⟨h.holds, h.index_le, hlen⟩

omit [DecidableEq τ] in
theorem IndexInv.execve {s : Sched τ} (h : IndexInv s) (h2 : 2 ≤ schedGetLastPid s)
    (hle : schedGetLastPid s - 2 ≤ s.processes.length) : IndexInv (execveSwitch s) := by
  have hlen := h.length_lt
  refine ⟨h.holds, ?_, hlen⟩
  show toSize (schedGetLastPid s - 2) ≤ s.processes.length
  have hsize := toSize_of_nonneg (i := schedGetLastPid s - 2) (by omega) (by omega)
  omega

/-- Every safe call keeps the invariant. -/
theorem IndexInv.step {s s' : Sched τ} {op : SchedOp τ} (h : IndexInv s) (hok : IndexSafe s op)
    (hs : schedStep s op = some s') : IndexInv s' := by
  cases op with
  | taskInit =>
    cases hs
    exact ⟨h.holds, h.index_le, h.length_lt⟩
  | push grant t =>
    cases hs
    exact h.push grant t hok
  | remove t =>
    cases hs
    exact h.remove t hok
  | tick => exact h.tick hs
  | execve =>
    cases hs
    exact h.execve hok.1 hok.2

theorem SchedRun.inv {s : Sched τ} (h : SchedRun IndexSafe s) : IndexInv s := by
  induction h with
  | init => exact ⟨⟨[], vecInit_holds⟩, Nat.le_refl 0, show 0 < 2 ^ 31 by decide⟩
  | step op _ hok hs ih => exact ih.step hok hs

/-- **The index stays in range.**  In every run whose calls are safe, a switch
reads a slot below the length of the vector, and the task it returns is an
element of the vector. -/
theorem sched_tick_in_range {s : Sched τ} (h : SchedRun IndexSafe s) : SwitchInRange s :=
  h.inv.switch_in_range

/-- Two tasks are made and pushed, and the first switch is due. -/
def twoTasks : List (SchedOp Nat) := [.taskInit, .push true 0, .taskInit, .push true 1]

theorem SchedRun.foldlM {ok : Sched τ → SchedOp τ → Prop} (hok : ∀ s op, ok s op)
    {s s' : Sched τ} (h : SchedRun ok s) (ops : List (SchedOp τ))
    (hs : ops.foldlM schedStep s = some s') : SchedRun ok s' := by
  induction ops generalizing s with
  | nil =>
    cases hs
    exact h
  | cons op ops ih =>
    rw [List.foldlM_cons] at hs
    obtain ⟨s₁, h₁, h₂⟩ := Option.bind_eq_some_iff.mp hs
    exact ih (.step op h (hok s op) h₁) h₂

/-- The safe run that makes two tasks and switches to the first. -/
theorem sched_tick_in_range_twoTasks :
    ∃ s : Sched Nat, SchedRun IndexSafe s ∧ s.processes.length = 2 ∧ SwitchInRange s := by
  have hrun : SchedRun IndexSafe
      (schedPush true (nextPid (schedPush true (nextPid schedInit) 0)) 1 : Sched Nat) :=
    .step (.push true 1)
      (.step .taskInit
        (.step (.push true 0)
          (.step .taskInit .init trivial rfl)
          (show 0 + 1 < 2 ^ 31 by decide) rfl)
        trivial rfl)
      (show 1 + 1 < 2 ^ 31 by decide) rfl
  exact ⟨_, hrun, rfl, sched_tick_in_range hrun⟩

/-- The two tasks run in turn; the second exits (`sys_exit` calls
`sched_remove`) while the index stands behind it, and nine ticks later the next
switch is due. -/
def exitSecond : List (SchedOp Nat) :=
  twoTasks ++ List.replicate 11 .tick ++ [.remove 1] ++ List.replicate 9 .tick

/-- **An exit takes the index out of the vector.**  The switch after
`exitSecond` reads slot 2 of a vector of length 1. -/
theorem exit_out_of_range :
    ¬ ∀ s : Sched Nat, SchedRun (fun _ _ => True) s → SwitchInRange s := by
  intro hclaim
  have hend : (exitSecond.foldlM schedStep schedInit).map
      (fun s => (s.processes.length, s.currentTick, switchIndex s)) = some (1, 9, 2) := by
    decide +kernel
  obtain ⟨s, hs, heq⟩ := Option.map_eq_some_iff.mp hend
  obtain ⟨hlen, htick, hidx⟩ : s.processes.length = 1 ∧ s.currentTick = 9 ∧ switchIndex s = 2 := by
    simpa using heq
  have hrun : SchedRun (fun _ _ => True) s :=
    SchedRun.foldlM (fun _ _ => trivial) .init exitSecond hs
  obtain ⟨hlt, -⟩ := hclaim s hrun (by rw [hlen]; decide) (by rw [htick]; decide)
  omega

end BestOS
