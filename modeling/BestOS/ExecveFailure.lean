/-
BestOS/ExecveFailure.lean

`sys_execve` on a path that does not lead to a file.

The handler leaves everything to `sched_new_elf_process`, which makes the task first and
looks the file up after that, and nobody looks at the node it gets.  By the time
`elf_file->stat.st_size` is read through NULL, `task_init` has counted up `current_pid`
(`sysExecve_pid`) and taken the frames of a stack and a page map, and there is no path
back: the call never reports an error (`execve_bad_path`).

The state joins those of `Sched`, `AddressSpaces` and `Syscalls`; `sysExecve_files` has the
model of the same call in `Dispatch` as its part on files.
-/
import BestOS.OpenFailure
import BestOS.KernelHalf
import BestOS.Sched

namespace BestOS

variable {τ : Type}

/-! ### The handler -/

/-- What `sys_execve` works on. -/
structure ExecState (τ : Type) where
  sched : Sched τ
  system : System
  sys : SysState

/-- How the handler ends: with `rax`, or where a pointer that is NULL is followed, with the
scheduler and the memory as they are by then. -/
inductive ExecveEnd (τ : Type)
  | returned (rax : Int) (s : ExecState τ)
  | nullRead (sched : Sched τ) (system : System)

def ExecveEnd.sched : ExecveEnd τ → Sched τ
  | .returned _ s => s.sched
  | .nullRead sched _ => sched

def ExecveEnd.system : ExecveEnd τ → System
  | .returned _ s => s.system
  | .nullRead _ system => system

/-- `sys_execve`; `t` is the task that `malloc` returns, and `usedPages` is what it left in
the record.  What the image takes of the memory is outside, as in `schedNewElfProcess`. -/
def sysExecve (o : Outside) (t : τ) (usedPages : Nat) (s : ExecState τ) (path : CString) :
    ExecveEnd τ :=
  -- `task_init(0)` comes first
  let sched := nextPid s.sched
  let system := taskInit s.system usedPages
  match readWhole o s.sys path o.program with
  | none => .nullRead sched system
  | some (_, sys) =>
    let loaded := { system with machine := o.machine }
    match readInterpreter o sys with
    | none => .nullRead sched loaded
    | some sys =>
      .returned 0
        { sched := execveSwitch (schedPush o.grant sched t)
          system := loaded
          sys := { sys with freed := o.program :: sys.freed } }

/-- The files, where the handler returns. -/
def ExecveEnd.files : ExecveEnd τ → Option SysState
  | .returned _ s => some s.sys
  | .nullRead _ _ => none

/-- The handler in `syscallDispatch` does the same to the files. -/
theorem sysExecve_files (o : Outside) (t : τ) (usedPages : Nat) (s : ExecState τ) (path : CString) :
    (sysExecve o t usedPages s path).files
      = (schedNewElfProcess o s.sys path []).map Prod.snd := by
  unfold sysExecve schedNewElfProcess
  cases readWhole o s.sys path o.program with
  | none => rfl
  | some r =>
    dsimp only [Option.bind_some, openStdio]
    show ExecveEnd.files (match readInterpreter o r.2 with | none => _ | some sys => _) = _
    cases readInterpreter o r.2 <;> rfl

/-! ### The property -/

/-- `vfs_open` opens the path as a file. -/
def OpenedAsFile (buf : Nat) (v : Vfs) (path : CString) : Prop :=
  ∃ n v', vfsOpen buf v v.root path O_RDWR = some (some n, v') ∧ (v'.nodes n).type = .file

/-- The call returns -1 with a code, without having read through NULL; the processes,
`current_pid`, the index, the tick and the frame bitmap are as before. -/
def ExecveRejected (s : ExecState τ) (e : ExecveEnd τ) : Prop :=
  ∃ s', e = .returned (-1) s' ∧ 0 < s'.sys.vfs.errno ∧
    s'.sched.processes = s.sched.processes ∧ s'.sched.currentPid = s.sched.currentPid ∧
    s'.sched.index = s.sched.index ∧ s'.sched.currentTick = s.sched.currentTick ∧
    ∀ k, pageUsed s'.system.machine k = pageUsed s.system.machine k

/-! ### What has happened by the end -/

section

variable {o : Outside} {t : τ} {usedPages : Nat} {s : ExecState τ} {path : CString}

/-- However the call ends, a pid is gone. -/
theorem sysExecve_pid (o : Outside) (t : τ) (usedPages : Nat) (s : ExecState τ) (path : CString) :
    (sysExecve o t usedPages s path).sched.currentPid = (s.sched.currentPid + 1) % 2 ^ 64 := by
  unfold sysExecve
  dsimp only
  split
  · rfl
  · split <;> rfl

/-- Where `vfs_open` gives no node, that is found out by reading through NULL, after the task
was made. -/
theorem execve_null
    (h : ¬ ∃ n v', vfsOpen o.buf s.sys.vfs s.sys.vfs.root path O_RDWR = some (some n, v')) :
    sysExecve o t usedPages s path
      = .nullRead (nextPid s.sched) (taskInit s.system usedPages) := by
  have hread : readWhole o s.sys path o.program = none := by
    unfold readWhole
    split
    · next n v' ho => exact absurd ⟨n, v', ho⟩ h
    · rfl
  unfold sysExecve
  dsimp only
  rw [hread]

/-- **A bad path is no error.**  For every state and every path that `vfs_open` does not
open as a file, the call is not rejected as it should be.  It ends in a read through NULL,
with the task made, or `vfs_open` returned a directory, which is loaded. -/
theorem execve_bad_path (h : ¬ OpenedAsFile o.buf s.sys.vfs path) :
    ¬ ExecveRejected s (sysExecve o t usedPages s path) ∧
      (sysExecve o t usedPages s path
          = .nullRead (nextPid s.sched) (taskInit s.system usedPages) ∨
        ∃ n v', vfsOpen o.buf s.sys.vfs s.sys.vfs.root path O_RDWR = some (some n, v') ∧
          (v'.nodes n).type = .directory) := by
  constructor
  · -- the pid counter has moved on
    rintro ⟨s', hend, -, -, hpid, -⟩
    have hcount := sysExecve_pid o t usedPages s path
    rw [hend] at hcount
    have hsame : s.sched.currentPid = (s.sched.currentPid + 1) % 2 ^ 64 := hpid.symm.trans hcount
    omega
  · by_cases hnode : ∃ n v', vfsOpen o.buf s.sys.vfs s.sys.vfs.root path O_RDWR = some (some n, v')
    · obtain ⟨n, v', ho⟩ := hnode
      refine .inr ⟨n, v', ho, ?_⟩
      cases htype : (v'.nodes n).type with
      | file => exact absurd ⟨n, v', ho, htype⟩ h
      | directory => rfl
    · exact .inl (execve_null hnode)

end

/-! ### A path without a file -/

/-- The first task, after boot. -/
def initExec : ExecState Nat where
  sched := schedInit
  system := flatBoot
  sys := initKernel.sys

theorem initExec_missing : ¬ OpenedAsFile initOutside.buf initExec.sys.vfs ['/', 'a'] := by
  rintro ⟨n, v', ho, -⟩
  have hnull : (vfsOpen initOutside.buf initExec.sys.vfs initExec.sys.vfs.root ['/', 'a'] O_RDWR).any
      fun r => r.1 = none := by
    decide +kernel
  rw [ho] at hnull
  cases hnull

theorem execve_bad_path_init :
    ¬ ExecveRejected initExec (sysExecve initOutside 0 0 initExec ['/', 'a']) :=
  (execve_bad_path initExec_missing).1

/-- **The failure is not reported**: `execve("/a")`, which is not there. -/
theorem execve_missing_file :
    ¬ ∀ (o : Outside) (t usedPages : Nat) (s : ExecState Nat) (path : CString),
      ¬ OpenedAsFile o.buf s.sys.vfs path → ExecveRejected s (sysExecve o t usedPages s path) := by
  intro hclaim
  obtain ⟨s', hend, -, -, hpid, -⟩ := hclaim initOutside 0 0 initExec ['/', 'a'] initExec_missing
  have hcount := sysExecve_pid initOutside 0 0 initExec ['/', 'a']
  rw [hend] at hcount
  exact absurd (hpid.symm.trans hcount) (by decide)

end BestOS
