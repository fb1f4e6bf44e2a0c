/-
BestOS/TtyLock.lean

Do the lines that several tasks write to the terminal get mixed up?

`devfs_write` sends its buffer byte by byte, behind the spin lock `write_lock`.  System calls
run with interrupts enabled, so the timer may take the processor from a task before each
instruction, also while it holds the lock or tries to get it.  Other code (`log`, the echo of
`devfs_read`) sends bytes without this lock.  `TtyStep` is one step of one task, in any order;
what becomes of the registers of a task meanwhile is the subject of `KernelStack`.

A run of the terminal is a run of `SpinLock` and the other way round (`TtyStep.forward`,
`TtyStep.backward`), so the buffers reach the port whole and one after the other
(`tty_writes_whole`), and a task that waits for the lock can finish its call
(`tty_write_finishes`).
-/
import BestOS.SpinLock
import BestOS.ByteMemory

namespace BestOS

open SpinLock

variable {τ : Type} [DecidableEq τ]

/-- Where a task is in `devfs_write`: not between the lock and the release, at `spin_lock`, or
in the loop, with its `i`. -/
inductive WritePc
  | away
  | spinning (buf : List (BitVec 8))
  | sending (buf : List (BitVec 8)) (i : Nat)

/-- `write_lock`, the tasks, and what was sent, by a task in `devfs_write` or by other code;
`calls` are the buffers of the calls that have got the lock, in that order. -/
structure Terminal (τ : Type) where
  writeLock : Bool
  pc : τ → WritePc
  sent : List (Option τ × BitVec 8)
  calls : List (τ × List (BitVec 8))

/-- A step of one task. -/
inductive TtyStep (w : Terminal τ) : Terminal τ → Prop
  /-- `devfs_write` is called. -/
  | call {t} (buf : List (BitVec 8)) (h : w.pc t = .away) :
      TtyStep w { w with pc := Function.update w.pc t (.spinning buf) }
  /-- `__atomic_test_and_set` has found the lock set. -/
  | spin {t buf} (h : w.pc t = .spinning buf) (hlock : w.writeLock = true) :
      TtyStep w { w with writeLock := true }
  /-- It has found it clear. -/
  | enter {t buf} (h : w.pc t = .spinning buf) (hlock : w.writeLock = false) :
      TtyStep w { w with
        writeLock := true
        pc := Function.update w.pc t (.sending buf 0)
        calls := w.calls ++ [(t, buf)] }
  /-- `com_putc(buf[i])`. -/
  | putc {t buf i c} (h : w.pc t = .sending buf i) (hc : buf[i]? = some c) :
      TtyStep w { w with
        pc := Function.update w.pc t (.sending buf (i + 1))
        sent := w.sent ++ [(some t, c)] }
  /-- `i` has reached `count`. -/
  | release {t buf i} (h : w.pc t = .sending buf i) (hi : buf.length ≤ i) :
      TtyStep w { w with
        writeLock := false
        pc := Function.update w.pc t .away }
  /-- Somebody else sends a byte. -/
  | other (c : BitVec 8) : TtyStep w { w with sent := w.sent ++ [(none, c)] }

def bootTerminal : Terminal τ := ⟨false, fun _ => .away, [], []⟩

abbrev TtySteps : Terminal τ → Terminal τ → Prop := Relation.ReflTransGen TtyStep

def TtyReach (w : Terminal τ) : Prop := TtySteps bootTerminal w

/-! ### The terminal as threads with sections -/

/-- The bytes of a buffer, with the task that sends them. -/
def tagged (t : τ) (buf : List (BitVec 8)) : List (τ × BitVec 8) := buf.map (t, ·)

/-- What calls of `devfs_write` have sent. -/
def writesIn (sent : List (Option τ × BitVec 8)) : List (τ × BitVec 8) :=
  sent.filterMap fun b => b.1.map (·, b.2)

def phaseOf (t : τ) : WritePc → Phase (τ × BitVec 8)
  | .away => .outside
  | .spinning buf => .waiting (tagged t buf)
  | .sending buf i => .inside (tagged t (buf.drop i))

/-- The terminal without the other bytes. -/
def Terminal.world (w : Terminal τ) : World τ (τ × BitVec 8) where
  lock := w.writeLock
  phase t := phaseOf t (w.pc t)
  done := writesIn w.sent
  entered := w.calls.map fun c => tagged c.1 c.2

/-- A section of task `t` is a buffer. -/
def IsWrite (t : τ) (todo : List (τ × BitVec 8)) : Prop := ∃ buf, todo = tagged t buf

section Lists

omit [DecidableEq τ]

variable {buf : List (BitVec 8)} {i : Nat}

theorem writesIn_own (sent : List (Option τ × BitVec 8)) (t : τ) (c : BitVec 8) :
    writesIn (sent ++ [(some t, c)]) = writesIn sent ++ [(t, c)] := by
  simp [writesIn]

theorem writesIn_other (sent : List (Option τ × BitVec 8)) (c : BitVec 8) :
    writesIn (sent ++ [(none, c)]) = writesIn sent := by
  simp [writesIn]

theorem tagged_drop {c : BitVec 8} (t : τ) (hc : buf[i]? = some c) :
    tagged t (buf.drop i) = (t, c) :: tagged t (buf.drop (i + 1)) := by
  obtain ⟨hi, rfl⟩ := List.getElem?_eq_some_iff.mp hc
  rw [List.drop_eq_getElem_cons hi]
  rfl

theorem tagged_drop_end (t : τ) (hi : buf.length ≤ i) : tagged t (buf.drop i) = [] := by
  rw [List.drop_of_length_le hi]
  rfl

/-- Inside: what a task still has to send. -/
theorem phaseOf_inside {t : τ} {p : WritePc} {todo : List (τ × BitVec 8)}
    (h : phaseOf t p = .inside todo) :
    ∃ buf i, p = .sending buf i ∧ tagged t (buf.drop i) = todo := by
  cases p with
  | away => cases h
  | spinning buf => cases h
  | sending buf i => exact ⟨buf, i, rfl, Phase.inside.inj h⟩

theorem phaseOf_waiting {t : τ} {p : WritePc} {todo : List (τ × BitVec 8)}
    (h : phaseOf t p = .waiting todo) : ∃ buf, p = .spinning buf ∧ tagged t buf = todo := by
  cases p with
  | away => cases h
  | spinning buf => exact ⟨buf, rfl, Phase.waiting.inj h⟩
  | sending buf i => cases h

theorem phaseOf_outside {t : τ} {p : WritePc} (h : phaseOf t p = .outside) : p = .away := by
  cases p with
  | away => rfl
  | spinning buf => cases h
  | sending buf i => cases h

end Lists

variable {w w' : Terminal τ} {t : τ} {buf : List (BitVec 8)} {i : Nat}

/-- One task is somewhere else. -/
theorem world_set (pc : τ → WritePc) (t : τ) (p : WritePc) (lock : Bool)
    (sent : List (Option τ × BitVec 8)) (calls : List (τ × List (BitVec 8))) :
    (⟨lock, Function.update pc t p, sent, calls⟩ : Terminal τ).world
      = ⟨lock, Function.update (fun u => phaseOf u (pc u)) t (phaseOf t p), writesIn sent,
          calls.map fun c => tagged c.1 c.2⟩ := by
  have hphase : (fun u => phaseOf u (Function.update pc t p u))
      = Function.update (fun u => phaseOf u (pc u)) t (phaseOf t p) := by
    funext u
    by_cases hu : u = t
    · subst hu
      rw [Function.update_self, Function.update_self]
    · rw [Function.update_of_ne hu, Function.update_of_ne hu]
  rw [← hphase]
  rfl

/-- **Forward.**  A byte of somebody else is no step of the threads. -/
theorem TtyStep.forward (hstep : TtyStep w w') : Steps IsWrite w.world w'.world := by
  cases hstep with
  | @call t buf h =>
    rw [world_set]
    exact .single (.call ⟨buf, rfl⟩ (congrArg (phaseOf t) h))
  | @spin t buf h hlock => exact .single (.spin (congrArg (phaseOf t) h) hlock)
  | @enter t buf h hlock =>
    rw [world_set, List.map_append]
    exact .single (.acquire (congrArg (phaseOf t) h) hlock)
  | @putc t buf i c h hc =>
    have hin : w.world.phase t = .inside ((t, c) :: tagged t (buf.drop (i + 1))) := by
      rw [← tagged_drop t hc]
      exact congrArg (phaseOf t) h
    rw [world_set, writesIn_own]
    exact .single (.act hin)
  | @release t buf i h hi =>
    have hin : w.world.phase t = .inside [] := by
      rw [← tagged_drop_end t hi]
      exact congrArg (phaseOf t) h
    rw [world_set]
    exact .single (.release hin)
  | other c =>
    have hsame : ({ w with sent := w.sent ++ [(none, c)] } : Terminal τ).world = w.world := by
      rw [Terminal.world, writesIn_other]
      rfl
    rw [hsame]

/-- **Backward.** -/
theorem TtyStep.backward {v : World τ (τ × BitVec 8)} (hstep : Step IsWrite w.world v) :
    ∃ w', TtyStep w w' ∧ w'.world = v := by
  cases hstep with
  | @call t todo hmay h =>
    obtain ⟨buf, rfl⟩ := hmay
    exact ⟨_, .call buf (phaseOf_outside h), world_set ..⟩
  | spin h hlock =>
    obtain ⟨buf, hpc, -⟩ := phaseOf_waiting h
    exact ⟨_, .spin hpc hlock, rfl⟩
  | acquire h hlock =>
    obtain ⟨buf, hpc, rfl⟩ := phaseOf_waiting h
    refine ⟨_, .enter hpc hlock, ?_⟩
    rw [world_set, List.map_append]
    rfl
  | @act t a todo h =>
    obtain ⟨buf, i, hpc, htodo⟩ := phaseOf_inside h
    have hi : i < buf.length := by
      by_contra hle
      rw [tagged_drop_end t (Nat.not_lt.mp hle)] at htodo
      cases htodo
    have hc := List.getElem?_eq_getElem hi
    rw [tagged_drop t hc] at htodo
    obtain ⟨rfl, rfl⟩ := List.cons.inj htodo
    refine ⟨_, .putc hpc hc, ?_⟩
    rw [world_set, writesIn_own]
    rfl
  | @release t h =>
    obtain ⟨buf, i, hpc, htodo⟩ := phaseOf_inside h
    have hi : buf.length ≤ i := by
      rw [tagged, List.map_eq_nil_iff, List.drop_eq_nil_iff] at htodo
      exact htodo
    exact ⟨_, .release hpc hi, world_set ..⟩

theorem TtySteps.forward (hsteps : TtySteps w w') : Steps IsWrite w.world w'.world := by
  induction hsteps with
  | refl => exact .refl
  | tail _ hstep ih => exact ih.trans hstep.forward

theorem TtySteps.backward {v : World τ (τ × BitVec 8)} (hsteps : Steps IsWrite w.world v) :
    ∃ w', TtySteps w w' ∧ w'.world = v := by
  induction hsteps with
  | refl => exact ⟨w, .refl, rfl⟩
  | tail _ hstep ih =>
    obtain ⟨w₁, hrun, rfl⟩ := ih
    obtain ⟨w₂, hlast, hw₂⟩ := TtyStep.backward hstep
    exact ⟨w₂, hrun.tail hlast, hw₂⟩

theorem TtyReach.world (hw : TtyReach w) : Reach IsWrite w.world := TtySteps.forward hw

/-! ### What reaches the port -/

/-- **The writes of tasks come whole, one after the other.**  Whatever the interleaving, the
bytes that calls of `devfs_write` have sent are the buffers of these calls in the order in
which they have got the lock, up to the one that is being sent; when the lock is clear
nothing is missing, and never are two tasks in the loop. -/
theorem tty_writes_whole (hw : TtyReach w) :
    writesIn w.sent <+: (w.calls.map fun c => tagged c.1 c.2).flatten ∧
    (w.writeLock = false → writesIn w.sent = (w.calls.map fun c => tagged c.1 c.2).flatten) ∧
    ∀ t u buf buf' i j, w.pc t = .sending buf i → w.pc u = .sending buf' j → t = u := by
  obtain ⟨hpre, hfree, hone⟩ := hw.world.serial
  exact ⟨hpre, hfree, fun t u buf buf' i j ht hu =>
    hone t u _ _ (congrArg (phaseOf t) ht) (congrArg (phaseOf u) hu)⟩

/-- **A call can be finished.**  However the tasks were interleaved, one that is at
`spin_lock` can still send its buffer and return, after those of the calls before it. -/
theorem tty_write_finishes (hw : TtyReach w) (h : w.pc t = .spinning buf) :
    ∃ w', TtySteps w w' ∧ w'.pc t = .away ∧
      writesIn w'.sent = (w.calls.map fun c => tagged c.1 c.2).flatten ++ tagged t buf := by
  obtain ⟨v, hsteps, hout, -, hdone⟩ := hw.world.finishes (congrArg (phaseOf t) h)
  obtain ⟨w', hrun, rfl⟩ := TtySteps.backward hsteps
  exact ⟨w', hrun, phaseOf_outside hout, hdone⟩

/-! ### Two tasks -/

/-- Task `true` has sent the first of two bytes, somebody else one, and `false` is waiting. -/
theorem preempted_write : ∃ w : Terminal Bool, TtyReach w ∧ w.pc false = .spinning [3#8] ∧
    w.sent = [(some true, 1#8), (none, 9#8)] ∧ w.calls = [(true, [1#8, 2#8])] := by
  have h₁ := Relation.ReflTransGen.single (TtyStep.call (w := bootTerminal) (t := true) [1#8, 2#8] rfl)
  have h₂ := h₁.tail (.enter (t := true) rfl rfl)
  have h₃ := h₂.tail (.putc (t := true) (c := 1#8) rfl rfl)
  have h₄ := h₃.tail (.call (t := false) [3#8] rfl)
  have h₅ := h₄.tail (.other 9#8)
  exact ⟨_, h₅, rfl, rfl, rfl⟩

theorem tty_writes_whole_preempted : ∃ w : Terminal Bool, w.calls = [(true, [1#8, 2#8])] ∧
    writesIn w.sent <+: (w.calls.map fun c => tagged c.1 c.2).flatten := by
  obtain ⟨w, hw, -, -, hcalls⟩ := preempted_write
  exact ⟨w, hcalls, (tty_writes_whole hw).1⟩

theorem tty_write_finishes_preempted : ∃ w w' : Terminal Bool, TtySteps w w' ∧
    w'.pc false = .away ∧ writesIn w'.sent = [(true, 1#8), (true, 2#8), (false, 3#8)] := by
  obtain ⟨w, hw, hpc, -, hcalls⟩ := preempted_write
  obtain ⟨w', hsteps, haway, hsent⟩ := tty_write_finishes hw hpc
  rw [hcalls] at hsent
  exact ⟨w, w', hsteps, haway, hsent⟩

end BestOS
