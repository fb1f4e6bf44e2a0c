/-
BestOS/Descriptors.lean

The descriptor numbers handed to user space.

A number is a position in the task's vector.  `sys_openat` returns
`current_fd++` and pushes at the end; `sys_close` splices the position out,
which moves every later descriptor down by one, and only then reads the slot to
find the file it resets.  Closing the last position moves nothing, and the slot
still holds the descriptor that was just spliced out; closing any other one
resets a file that is still open and lets its number be handed out again.

A run carries the set of numbers that are open from the point of view of the
task: those it started with or was given, less those it closed.  `FdInv` says
that they are positions of the vector, and `highest_first_sound` proves both
halves of the contract for every run that closes the highest number only.
-/
import BestOS.Syscalls
import BestOS.VfsTree
import Mathlib.Data.Set.Insert
import Mathlib.Order.BooleanAlgebra.Set

namespace BestOS

/-! ### Runs of opens and closes -/

/-- The descriptors a task starts with: `task_init` makes none,
`sched_new_elf_process` adds three. -/
structure Starts (s : SysState) (files : List FileDescriptor) : Prop where
  holds : s.task.descriptors.Holds files
  count : s.task.currentFd = files.length
  files : ∀ d ∈ files, d.file ≠ none

/-- The states reached by successful opens and by closes that meet `ok`, with
the numbers that are open. -/
inductive FdRun (ok : SysState → Nat → Prop) : SysState → Set Int → Prop
  | start {s files} : Starts s files → FdRun ok s { j | 0 ≤ j ∧ j < files.length }
  | openat {s s' opened buf dirfd path mode n f} : FdRun ok s opened →
      sysOpenat buf true s dirfd path mode = some (n, s') → fileOf s' n = some f →
      FdRun ok s' (insert n opened)
  | close {s s' opened k} : FdRun ok s opened → k < s.task.descriptors.length → ok s k →
      sysClose s k = some s' → FdRun ok s' (opened \ {(k : Int)})

/-- `sys_close(k)` returns, leaves every other open number on its file, and
resets and frees the file of `k` and nothing else. -/
def CloseCorrect (s : SysState) (opened : Set Int) (k : Nat) : Prop :=
  ∃ s' f, sysClose s k = some s' ∧ fileOf s k = some f ∧
    (∀ j ∈ opened, j ≠ k → fileOf s' j = fileOf s j) ∧
    s'.vfs.nodes = Function.update s.vfs.nodes f
      { s.vfs.nodes f with
        init := false
        cursor := 0 } ∧
    s'.freed = (s.vfs.nodes f).address :: s.freed

/-- No successful `sys_openat` returns a number that is open. -/
def OpenFresh (s : SysState) (opened : Set Int) : Prop :=
  ∀ buf dirfd path mode n s' f, sysOpenat buf true s dirfd path mode = some (n, s') →
    fileOf s' n = some f → n ∉ opened

/-- The number closed is the highest one. -/
def HighestFirst (s : SysState) (k : Nat) : Prop := k + 1 = s.task.descriptors.length

/-! ### The invariant -/

/-- The vector holds descriptors with files, as many as `current_fd` counts,
and the open numbers are their positions. -/
structure FdInv (s : SysState) (opened : Set Int) (l : List FileDescriptor) : Prop where
  holds : s.task.descriptors.Holds l
  count : s.task.currentFd = l.length
  range : ∀ j ∈ opened, 0 ≤ j ∧ j < l.length
  files : ∀ d ∈ l, d.file ≠ none

/-- What a `sys_openat` that returns a file did to the task. -/
theorem sysOpenat_task {buf : Nat} {grant : Bool} {s s' : SysState} {dirfd : Int} {path : CString}
    {mode : Nat} {n : Int} (h : sysOpenat buf grant s dirfd path mode = some (n, s'))
    (hn : n ≠ -1) :
    n = s.task.currentFd ∧ ∃ file, s'.task =
      { s.task with
        currentFd := s.task.currentFd + 1
        descriptors := vecPush grant s.task.descriptors ⟨s.task.currentFd, file⟩ } := by
  unfold sysOpenat at h
  split at h
  · cases h
  · split at h
    · cases h
    · cases h
      exact absurd rfl hn
    · split at h
      · cases h
      · cases h
        exact ⟨rfl, _, rfl⟩

theorem fileOf_neg {s : SysState} {n : Int} (h : n < 0) : fileOf s n = none := by
  unfold fileOf getFd
  rw [if_pos h]
  rfl

theorem fileOf_nat (s : SysState) (k : Nat) :
    fileOf s k = (s.task.descriptors.data k).bind FileDescriptor.file := by
  unfold fileOf getFd
  rw [if_neg (by omega), Int.toNat_natCast]

theorem FdInv.openat {s s' : SysState} {opened : Set Int} {l : List FileDescriptor}
    (inv : FdInv s opened l) {buf : Nat} {dirfd : Int} {path : CString} {mode : Nat} {n : Int}
    {f : Nat} (h : sysOpenat buf true s dirfd path mode = some (n, s'))
    (hf : fileOf s' n = some f) :
    n = l.length ∧ ∃ d, FdInv s' (insert n opened) (l ++ [d]) := by
  have hn : n ≠ -1 := by
    rintro rfl
    rw [fileOf_neg (by decide)] at hf
    cases hf
  obtain ⟨hnum, file, htask⟩ := sysOpenat_task h hn
  have hlen : n = l.length := hnum.trans inv.count
  have hpush : s'.task.descriptors.Holds (l ++ [⟨s.task.currentFd, file⟩]) := by
    rw [htask]
    rcases inv.holds.push true ⟨s.task.currentFd, file⟩ with hp | ⟨hno, -⟩
    · exact hp
    · cases hno
  refine ⟨hlen, ⟨s.task.currentFd, file⟩, hpush, ?_, ?_, ?_⟩
  · rw [htask, List.length_append, List.length_singleton]
    show s.task.currentFd + 1 = _
    rw [inv.count]
    rfl
  · intro j hj
    rw [List.length_append, List.length_singleton]
    rcases hj with rfl | hj
    · omega
    · have := inv.range j hj
      omega
  · intro d hd
    rcases List.mem_append.mp hd with hold | hnew
    · exact inv.files d hold
    · rw [List.mem_singleton.mp hnew]
      -- the call succeeded, so the slot just pushed has a file
      rw [hlen, fileOf_nat, hpush.data l.length (by simp), List.getElem?_concat_length] at hf
      intro hnone
      rw [Option.bind_some, hnone] at hf
      cases hf

/-- Closing the highest number. -/
theorem FdInv.close {s : SysState} {opened : Set Int} {l : List FileDescriptor}
    (inv : FdInv s opened l) {k : Nat} (hk : HighestFirst s k) :
    CloseCorrect s opened k ∧
      ∀ s', sysClose s k = some s' → FdInv s' (opened \ {(k : Int)}) l.dropLast := by
  have hlen : l.length = k + 1 := by
    rw [← inv.holds.length]
    exact hk.symm
  -- the splice moves nothing, so every slot is what it was
  have hdata : (vecSplice s.task.descriptors k 1).data = s.task.descriptors.data := by
    funext i
    show (if k ≤ i ∧ i + 1 < s.task.descriptors.length then _ else _) = _
    rw [if_neg (by rw [← show k + 1 = s.task.descriptors.length from hk]; omega)]
  obtain ⟨f, hfile⟩ : ∃ f, fileOf s k = some f := by
    have hlt : k < l.length := by omega
    rw [fileOf_nat, inv.holds.data k hlt, List.getElem?_eq_getElem hlt, Option.bind_some]
    exact Option.ne_none_iff_exists'.mp (inv.files _ (List.getElem_mem hlt))
  have hget : fileOf { s with task :=
      { s.task with descriptors := vecSplice s.task.descriptors k 1 } } k = some f := by
    rw [fileOf_nat] at hfile ⊢
    rw [← hfile]
    show ((vecSplice s.task.descriptors k 1).data k).bind _ = _
    rw [hdata]
  unfold CloseCorrect sysClose
  dsimp only
  rw [hget]
  refine ⟨⟨_, f, rfl, hfile, ?_, rfl, ?_⟩, ?_⟩
  · intro j hj hne
    unfold fileOf getFd
    split
    · rfl
    · show ((vecSplice s.task.descriptors k 1).data _).bind _ = _
      rw [hdata]
  · show (Function.update s.vfs.nodes f _ f).address :: s.freed = _
    rw [Function.update_self]
  · intro s' hs'
    cases hs'
    have hsplice : (vecSplice s.task.descriptors k 1).Holds l.dropLast := by
      rw [List.dropLast_eq_eraseIdx (i := k) (by omega)]
      exact inv.holds.splice (by omega)
    refine ⟨hsplice, ?_, ?_, ?_⟩
    · show s.task.currentFd - 1 = _
      rw [inv.count, List.length_dropLast, hlen]
      omega
    · rintro j ⟨hj, hne⟩
      have hr := inv.range j hj
      rw [List.length_dropLast]
      have hne' : j ≠ k := hne
      omega
    · intro d hd
      exact inv.files d ((List.dropLast_sublist l).subset hd)

theorem FdRun.inv {s : SysState} {opened : Set Int} (h : FdRun HighestFirst s opened) :
    ∃ l, FdInv s opened l := by
  induction h with
  | start hs => exact ⟨_, hs.holds, hs.count, fun j hj => hj, hs.files⟩
  | openat _ ho hf ih =>
    obtain ⟨l, inv⟩ := ih
    obtain ⟨-, d, inv'⟩ := inv.openat ho hf
    exact ⟨_, inv'⟩
  | close _ _ hk hc ih =>
    obtain ⟨l, inv⟩ := ih
    exact ⟨_, (inv.close hk).2 _ hc⟩

/-- **Closing from the top keeps the table sound.**  In every run of successful
opens in which only the highest number is closed, closing the highest number
resets its own file and disturbs no other number, and an open never returns a
number that is open. -/
theorem highest_first_sound {s : SysState} {opened : Set Int}
    (h : FdRun HighestFirst s opened) :
    (∀ k, HighestFirst s k → CloseCorrect s opened k) ∧ OpenFresh s opened := by
  obtain ⟨l, inv⟩ := h.inv
  refine ⟨fun k hk => (inv.close hk).1, ?_⟩
  intro buf dirfd path mode n s' f ho hf hmem
  have hn := (inv.openat ho hf).1
  have hr := inv.range n hmem
  omega

/-! ### Two files -/

/-- A task without descriptors, after `vfs_mount("/", tmpfs())`. -/
def newTask : SysState where
  vfs := (vfsMount noVfs ['/'] .tmpfs).getD noVfs
  task :=
    { currentFd := 0
      descriptors := vecInit
      cwd := some 0 }
  mem := fun _ => 0
  freed := []
  input := []

/-- `newTask` after it created `/a`. -/
def oneFile : SysState :=
  ((sysOpenat 0x1000 true newTask AT_FDCWD ['/', 'a'] O_CREAT).getD (0, newTask)).2

/-- `oneFile` after it created `/b`. -/
def twoFiles : SysState :=
  ((sysOpenat 0x2000 true oneFile AT_FDCWD ['/', 'b'] O_CREAT).getD (0, newTask)).2

theorem newTask_starts : Starts newTask [] where
  holds := vecInit_holds
  count := rfl
  files := by
    intro d hd
    cases hd

theorem twoFiles_run (ok : SysState → Nat → Prop) :
    FdRun ok twoFiles (insert 1 (insert 0 { j | 0 ≤ j ∧ j < (0 : Int) })) := by
  have hone : sysOpenat 0x1000 true newTask AT_FDCWD ['/', 'a'] O_CREAT = some (0, oneFile) := rfl
  have htwo : sysOpenat 0x2000 true oneFile AT_FDCWD ['/', 'b'] O_CREAT = some (1, twoFiles) := rfl
  have hf : fileOf oneFile 0 = some 1 := rfl
  have hf' : fileOf twoFiles 1 = some 2 := rfl
  exact .openat (.openat (.start newTask_starts) hone hf) htwo hf'

/-- Closing the second of two files resets the second. -/
theorem highest_first_sound_twoFiles :
    HighestFirst twoFiles 1 ∧
      CloseCorrect twoFiles (insert 1 (insert 0 { j | 0 ≤ j ∧ j < (0 : Int) })) 1 :=
  ⟨rfl, (highest_first_sound (twoFiles_run HighestFirst)).1 1 rfl⟩

/-- **Closing the first of two files resets the second.**  `/a` and `/b` are open
as 0 and 1; `sys_close(0)` frees the buffer of `/b`. -/
theorem close_first_not_sound :
    ¬ ∀ s opened, FdRun (fun _ _ => True) s opened →
      (∀ k, k < s.task.descriptors.length → CloseCorrect s opened k) ∧ OpenFresh s opened := by
  intro hclaim
  obtain ⟨s', f, hclose, hfile, -, -, hfreed⟩ :=
    (hclaim _ _ (twoFiles_run fun _ _ => True)).1 0 (show 0 < 2 by decide)
  obtain rfl : f = 1 := Option.some.inj (hfile.symm.trans rfl)
  have hhead : (sysClose twoFiles 0).map SysState.freed = some [0x2000] := rfl
  rw [hclose, Option.map_some, hfreed] at hhead
  have haddr : (twoFiles.vfs.nodes 1).address = 0x1000 := rfl
  rw [haddr] at hhead
  exact absurd hhead (by decide)

end BestOS
