/-
BestOS/InvalidFd.lean

What happens to a descriptor number that is out of range?

`get_fd` compares the number with the length of the vector, the wrong way for negative
numbers and two too late for the others, and all it does is to log: the slot is read in any
case.  So the calls on descriptors index the vector wherever the number says.  `sys_close`
has the vector spliced before that, with a byte count that is negative for a number beyond
the end.

The calls are given here with the accesses they make to `descriptors.data`, as byte ranges
from its start; their values are those of `Syscalls` (`sysReadTraced_result` and the like).
-/
import BestOS.AccessLog
import BestOS.Descriptors
import BestOS.Dispatch

namespace BestOS

open AccessLog

/-! ### Accesses to the vector -/

/-- `sizeof(FileDescriptor)`. -/
def FD_SIZE : Nat := 16

/-- `size` bytes of `descriptors.data`, from `start` on. -/
structure SlotAccess where
  start : Int
  size : Nat

/-- The bytes are those of slots below the length. -/
def InVector (v : Vec FileDescriptor) (a : SlotAccess) : Prop :=
  a.size = 0 ∨ 0 ≤ a.start ∧ a.start + a.size ≤ v.length * FD_SIZE

instance (v : Vec FileDescriptor) (a : SlotAccess) : Decidable (InVector v a) :=
  inferInstanceAs (Decidable (_ ∨ _))

/-- `get_fd`.  `none` is what stands outside the slots, or in one never written. -/
def getFdTraced (t : FileTask) (fd : Int) : Traced SlotAccess (Option FileDescriptor) := do
  access ⟨fd * FD_SIZE, FD_SIZE⟩
  pure (getFd t fd)

/-- `vec_splice(&descriptors, start, 1)`.  A `memmove` that leaves the vector has no result
here. -/
def spliceTraced (v : Vec FileDescriptor) (start : Int) : Traced SlotAccess (Vec FileDescriptor) := do
  let n := toSize (int32 ((v.length - start - 1) * FD_SIZE))
  let src : SlotAccess := ⟨int32 ((start + 1) * FD_SIZE), n⟩
  let dest : SlotAccess := ⟨int32 (start * FD_SIZE), n⟩
  access src
  access dest
  silent (if InVector v src ∧ InVector v dest then
    some (vecSplice v (dest.start / FD_SIZE).toNat 1) else none)

/-! ### The calls -/

/-- `sys_read`. -/
def sysReadTraced (tmp : Nat) (s : SysState) (fd : Int) (buf count : Nat) :
    Traced SlotAccess (Int × SysState) := do
  let d ← getFdTraced s.task fd
  let d' ← getFdTraced s.task fd
  let n' ← silent (d'.bind FileDescriptor.file)
  let r ← silent ((d.bind FileDescriptor.file).bind fun n =>
    vfsRead tmp s n (s.vfs.nodes n').cursor count buf)
  let d ← getFdTraced r.2.task fd
  let n ← silent (d.bind FileDescriptor.file)
  pure (r.1, setFile r.2 n fun node => { node with cursor := (node.cursor + count) % 2 ^ 64 })

/-- `sys_write`. -/
def sysWriteTraced (g : Grant) (s : SysState) (fd : Int) (buf count : Nat) :
    Traced SlotAccess (Int × SysState) := do
  let d ← getFdTraced s.task fd
  silent ((d.bind FileDescriptor.file).bind fun n => vfsWrite g s n count buf)

/-- `sys_close` behind the splice. -/
def closeFile (s : SysState) (fildes : Int) : Traced SlotAccess (Int × SysState) := do
  let d ← getFdTraced s.task fildes
  let n ← silent (d.bind FileDescriptor.file)
  let s := setFile s n fun node =>
    { node with
      init := false
      cursor := 0 }
  pure (0, { s with
    freed := (s.vfs.nodes n).address :: s.freed
    task := { s.task with currentFd := s.task.currentFd - 1 } })

/-- `sys_close`. -/
def sysCloseTraced (s : SysState) (fildes : Int) : Traced SlotAccess (Int × SysState) := do
  let v ← spliceTraced s.task.descriptors fildes
  closeFile { s with task := { s.task with descriptors := v } } fildes

/-- `sys_seek`; with an unknown `whence` the file is not looked at. -/
def sysSeekTraced (s : SysState) (fd offset whence : Int) : Traced SlotAccess (Int × SysState) := do
  let d ← getFdTraced s.task fd
  if whence = SEEK_SET ∨ whence = SEEK_CUR ∨ whence = SEEK_END then
    silent ((d.bind FileDescriptor.file).bind fun n =>
      (seekBase (s.vfs.nodes n) offset whence).map fun base =>
        (base, setFile s n fun node => { node with cursor := toSize base }))
  else
    pure (-1, { s with vfs := { s.vfs with errno := EINVAL } })

/-- `sys_openat`, for a directory given by a descriptor. -/
def sysOpenatTraced (buf : Nat) (grant : Bool) (s : SysState) (dirfd : Int) (path : CString)
    (mode : Nat) : Traced SlotAccess (Int × SysState) := do
  let d ← getFdTraced s.task dirfd
  let r ← silent (d.bind fun d => vfsGetParent s.vfs d.file path)
  match r with
  | (none, v) => pure (-1, { s with vfs := { v with errno := ENOENT } })
  | (some parent, v) =>
    let r ← silent (vfsOpen buf v (some parent) path mode)
    pure (s.task.currentFd, { s with
      vfs := r.2
      task := { s.task with
        currentFd := s.task.currentFd + 1
        descriptors := vecPush grant s.task.descriptors ⟨s.task.currentFd, r.1⟩ } })

/-- A call on a descriptor. -/
inductive FdCall
  | read (tmp : Nat) (fd : BitVec 32) (buf count : Nat)
  | write (g : Grant) (fd : BitVec 32) (buf count : Nat)
  | close (fildes : BitVec 32)
  | seek (fd : BitVec 32) (offset whence : Int)
  | openat (buf : Nat) (grant : Bool) (dirfd : BitVec 32) (path : CString) (mode : Nat)

def FdCall.fd : FdCall → Int
  | .read _ fd _ _ => fd.toInt
  | .write _ fd _ _ => fd.toInt
  | .close fildes => fildes.toInt
  | .seek fd _ _ => fd.toInt
  | .openat _ _ dirfd _ _ => dirfd.toInt

/-- The call is not one that takes its directory from `cwd`. -/
def FdCall.ByNumber : FdCall → Prop
  | .openat _ _ dirfd _ _ => dirfd.toInt ≠ AT_FDCWD
  | _ => True

def fdCall (s : SysState) : FdCall → Traced SlotAccess (Int × SysState)
  | .read tmp fd buf count => sysReadTraced tmp s fd.toInt buf count
  | .write g fd buf count => sysWriteTraced g s fd.toInt buf count
  | .close fildes => sysCloseTraced s fildes.toInt
  | .seek fd offset whence => sysSeekTraced s fd.toInt offset whence
  | .openat buf grant dirfd path mode => sysOpenatTraced buf grant s dirfd.toInt path mode

/-! ### The values -/

theorem vfsRead_task {tmp n offset count buf : Nat} {s s' : SysState} {r : Int}
    (h : vfsRead tmp s n offset count buf = some (r, s')) : s'.task = s.task := by
  rw [vfsRead_nodeFs] at h
  unfold fsRead at h
  split at h
  · cases h
  · rw [tmpfsRead] at h
    dsimp only at h
    split at h
    · obtain ⟨-, rfl⟩ := Prod.mk.inj (Option.some.inj h)
      exact (tmpfsLoad_node s n).1
    · obtain ⟨-, rfl⟩ := Prod.mk.inj (Option.some.inj h)
      exact (tmpfsLoad_node s n).1
  · unfold devfsRead at h
    split at h
    · split at h
      · cases h
      · obtain ⟨-, rfl⟩ := Prod.mk.inj (Option.some.inj h)
        rfl
    · obtain ⟨-, rfl⟩ := Prod.mk.inj (Option.some.inj h)
      rfl

theorem sysReadTraced_result (tmp : Nat) (s : SysState) (fd : Int) (buf count : Nat) :
    (sysReadTraced tmp s fd buf count).result = sysRead tmp s fd buf count := by
  simp only [sysReadTraced, getFdTraced, result_bind, result_access, result_pure, result_silent,
    Option.bind_some]
  unfold sysRead
  cases hn : fileOf s fd with
  | none =>
    rw [show (getFd s.task fd).bind FileDescriptor.file = none from hn]
    rfl
  | some n =>
    rw [show (getFd s.task fd).bind FileDescriptor.file = some n from hn]
    simp only [Option.bind_some]
    cases hread : vfsRead tmp s n (s.vfs.nodes n).cursor count buf with
    | none => rfl
    | some r =>
      obtain ⟨ret, s'⟩ := r
      rw [Option.bind_some, vfsRead_task hread,
        show (getFd s.task fd).bind FileDescriptor.file = some n from hn]
      rfl

theorem sysWriteTraced_result (g : Grant) (s : SysState) (fd : Int) (buf count : Nat) :
    (sysWriteTraced g s fd buf count).result = sysWrite g s fd buf count := by
  simp only [sysWriteTraced, getFdTraced, result_bind, result_access, result_pure, result_silent,
    Option.bind_some]
  unfold sysWrite
  cases hn : fileOf s fd with
  | none =>
    rw [show (getFd s.task fd).bind FileDescriptor.file = none from hn]
    rfl
  | some n =>
    rw [show (getFd s.task fd).bind FileDescriptor.file = some n from hn]
    rfl

/-- `Syscalls` has the seeks that look at the file. -/
theorem sysSeekTraced_result {s : SysState} {fd whence : Int} (offset : Int)
    (h : whence = SEEK_SET ∨ whence = SEEK_CUR ∨ whence = SEEK_END) :
    (sysSeekTraced s fd offset whence).result = sysSeek s fd offset whence := by
  simp only [sysSeekTraced, getFdTraced, result_bind, result_access, result_pure, result_silent,
    Option.bind_some, if_pos h]
  unfold sysSeek
  cases hn : fileOf s fd with
  | none =>
    rw [show (getFd s.task fd).bind FileDescriptor.file = none from hn]
    rfl
  | some n =>
    rw [show (getFd s.task fd).bind FileDescriptor.file = some n from hn]
    obtain ⟨base, hbase⟩ : ∃ base, seekBase (s.vfs.nodes n) offset whence = some base := by
      unfold seekBase
      rcases h with rfl | rfl | rfl <;> exact ⟨_, rfl⟩
    simp only [Option.bind_some, hbase]
    rfl

theorem sysOpenatTraced_result (buf : Nat) (grant : Bool) (s : SysState) {dirfd : Int}
    (h : dirfd ≠ AT_FDCWD) (path : CString) (mode : Nat) :
    (sysOpenatTraced buf grant s dirfd path mode).result
      = sysOpenat buf grant s dirfd path mode := by
  simp only [sysOpenatTraced, getFdTraced, result_bind, result_access, result_pure, result_silent,
    Option.bind_some]
  unfold sysOpenat dirOf
  rw [if_neg h]
  cases getFd s.task dirfd with
  | none => rfl
  | some d =>
    simp only [Option.bind_some, Option.map_some]
    cases vfsGetParent s.vfs d.file path with
    | none => rfl
    | some r =>
      obtain ⟨parent, v⟩ := r
      cases parent with
      | none => rfl
      | some parent =>
        simp only [Option.bind_some, result_bind, result_silent]
        cases vfsOpen buf v (some parent) path mode with
        | none => rfl
        | some r => rfl

/-- A slot of the vector is spliced out, if the size of the vector fits an `int`. -/
theorem spliceTraced_result {v : Vec FileDescriptor} {start : Int} (h0 : 0 ≤ start)
    (hlt : start < v.length) (hlen : v.length < 2 ^ 27) :
    (spliceTraced v start).result = some (vecSplice v start.toNat 1) := by
  have hsize : (toSize (int32 ((v.length - start - 1) * FD_SIZE)) : Int)
      = (v.length - start - 1) * FD_SIZE := by
    simp only [FD_SIZE]
    rw [int32_of_lt (by omega) (by omega)]
    exact toSize_of_nonneg (by omega) (by omega)
  have hsrc : int32 ((start + 1) * FD_SIZE) = (start + 1) * FD_SIZE := by
    simp only [FD_SIZE]
    exact int32_of_lt (by omega) (by omega)
  have hdest : int32 (start * FD_SIZE) = start * FD_SIZE := by
    simp only [FD_SIZE]
    exact int32_of_lt (by omega) (by omega)
  simp only [spliceTraced, result_bind, result_access, result_silent, Option.bind_some, hsrc, hdest]
  have hin : InVector v ⟨(start + 1) * FD_SIZE, toSize (int32 ((v.length - start - 1) * FD_SIZE))⟩ ∧
      InVector v ⟨start * FD_SIZE, toSize (int32 ((v.length - start - 1) * FD_SIZE))⟩ := by
    unfold InVector
    simp only [hsize]
    simp only [FD_SIZE]
    omega
  rw [if_pos hin, show start * FD_SIZE / FD_SIZE = start from
    Int.mul_ediv_cancel start (by decide)]

theorem sysCloseTraced_result {s : SysState} {fildes : Int}
    (hlen : s.task.descriptors.length < 2 ^ 27) (h0 : 0 ≤ fildes)
    (hlt : fildes < s.task.descriptors.length) :
    (sysCloseTraced s fildes).result = (closeHandler s fildes).map fun s => (0, s) := by
  unfold sysCloseTraced closeHandler sysClose
  rw [result_bind, spliceTraced_result h0 hlt hlen, Option.bind_some, if_pos ⟨h0, hlt⟩]
  dsimp only
  rw [Int.toNat_of_nonneg h0]
  generalize ({ s with task := { s.task with
    descriptors := vecSplice s.task.descriptors fildes.toNat 1 } } : SysState) = t
  simp only [closeFile, getFdTraced, result_bind, result_access, result_pure, result_silent,
    Option.bind_some]
  cases hn : fileOf t fildes with
  | none =>
    rw [show (getFd t.task fildes).bind FileDescriptor.file = none from hn]
    rfl
  | some n =>
    rw [show (getFd t.task fildes).bind FileDescriptor.file = some n from hn]
    rfl

/-! ### Numbers out of range -/

/-- The number is negative, or not below the length. -/
def InvalidFd (t : FileTask) (fd : Int) : Prop := fd < 0 ∨ t.descriptors.length ≤ fd

/-- The call returns an error, has changed neither the task nor a file, and has stayed
inside the vector. -/
structure FdRejected (s : SysState) (x : Traced SlotAccess (Int × SysState)) : Prop where
  error : ∃ s', x.result = some (-1, s') ∧ s'.task = s.task ∧ s'.vfs.nodes = s.vfs.nodes
  inside : Within (InVector s.task.descriptors) x

/-- The slot that `get_fd` reads. -/
theorem InvalidFd.slot {t : FileTask} {fd : Int} (h : InvalidFd t fd) :
    ¬ InVector t.descriptors ⟨fd * FD_SIZE, FD_SIZE⟩ := by
  unfold InVector InvalidFd at *
  simp only [FD_SIZE]
  omega

/-- `get_fd` reads it on any vector. -/
theorem getFdTraced_within {P : SlotAccess → Prop} {t : FileTask} {fd : Int} :
    Within P (getFdTraced t fd) ↔ P ⟨fd * FD_SIZE, FD_SIZE⟩ := by
  simp [getFdTraced]

/-- `sys_close` leaves the vector in the splice, or comes to `get_fd`. -/
theorem InvalidFd.close {s : SysState} {fildes : Int} (h : InvalidFd s.task fildes) :
    ¬ Within (InVector s.task.descriptors) (sysCloseTraced s fildes) := by
  intro hin
  unfold sysCloseTraced at hin
  obtain ⟨hsplice, hrest⟩ := within_bind.mp hin
  have hmoved : ∃ v, (spliceTraced s.task.descriptors fildes).result = some v := by
    unfold spliceTraced at hsplice ⊢
    simp only [within_bind, within_access, result_access, within_silent, forall_const,
      and_true] at hsplice
    simp only [result_bind, result_access, result_silent, Option.bind_some, if_pos hsplice]
    exact ⟨_, rfl⟩
  obtain ⟨v, hv⟩ := hmoved
  exact h.slot (getFdTraced_within.mp (within_bind.mp (hrest v hv)).1)

/-- **An invalid number is followed into memory.**  For every task state and every number
out of range, each of the five calls reads outside the vector, so it is never rejected as it
should be. -/
theorem invalid_fd_indexed {s : SysState} {c : FdCall} (h : InvalidFd s.task c.fd)
    (hc : c.ByNumber) : ¬ FdRejected s (fdCall s c) := by
  rintro ⟨-, hin⟩
  cases c with
  | read tmp fd buf count => exact h.slot (getFdTraced_within.mp (within_bind.mp hin).1)
  | write g fd buf count => exact h.slot (getFdTraced_within.mp (within_bind.mp hin).1)
  | close fildes => exact h.close hin
  | seek fd offset whence => exact h.slot (getFdTraced_within.mp (within_bind.mp hin).1)
  | openat buf grant dirfd path mode =>
    exact h.slot (getFdTraced_within.mp (within_bind.mp hin).1)

/-- A task without descriptors reads from number 0. -/
theorem invalid_fd_indexed_newTask : ¬ FdRejected newTask (fdCall newTask (.read 0 0 0x3000 1)) :=
  invalid_fd_indexed (.inr (by decide)) trivial

/-- **Numbers out of range are not rejected**: the same task seeks, on number 0, with an
unknown `whence`; the call fails, but slot 0 has been read. -/
theorem empty_vector_indexed :
    ¬ ∀ (s : SysState) (c : FdCall), InvalidFd s.task c.fd → c.ByNumber →
      FdRejected s (fdCall s c) := by
  intro hclaim
  have hrej := hclaim newTask (.seek 0 0 7) (.inr (by decide)) trivial
  have hslot : InVector newTask.task.descriptors ⟨0, 16⟩ :=
    hrej.inside ⟨0, 16⟩ (List.mem_singleton_self _)
  exact absurd hslot (by decide)

end BestOS
