/-
BestOS/Syscalls.lean

The file system calls of `kernel/syscalls.c` and the reads and writes they reach
in `fs/tmpfs.c` and `fs/devfs.c`.

A call acts on the current task's descriptors, on the tree, and on memory.
The descriptors are a `Vec`, with the slots behind its length: `get_fd` checks
a number against the length only to log it and then reads the slot anyway.

Outside are the addresses `malloc` returns (arguments named `buf` and `tmp`) and
what it records in front of a block (`Grant`), what `free` does with a block
beyond the record of the address it was given, and the characters typed at the
terminal or sent to it.  As in `Vfs`, a call that follows a
NULL or unwritten pointer has no result.
-/
import BestOS.Vfs
import BestOS.Vec
import BestOS.Mem

namespace BestOS

open ByteMemory

structure FileDescriptor where
  fd : Int
  file : Option Nat

/-- The fields of the current task that the calls use. -/
structure FileTask where
  currentFd : Int
  descriptors : Vec FileDescriptor
  cwd : Option Nat

/-- What a system call on files acts on. -/
structure SysState where
  vfs : Vfs
  task : FileTask
  mem : Mem
  freed : List Nat
  input : List (BitVec 8)

def AT_FDCWD : Int := -100

/-- Assignments to fields of one node. -/
def setFile (s : SysState) (n : Nat) (f : VfsNode → VfsNode) : SysState :=
  { s with vfs := setNode s.vfs n f }

/-- `get_fd`: the slot is read whether or not the number is in range. -/
def getFd (t : FileTask) (fd : Int) : Option FileDescriptor :=
  if fd < 0 then none else t.descriptors.data fd.toNat

/-- `get_fd(fd).file`, dereferenced. -/
def fileOf (s : SysState) (fd : Int) : Option Nat := (getFd s.task fd).bind FileDescriptor.file

/-! ### Reading -/

/-- The first half of `tmpfs_read`: the buffer is filled from the archive at the
first read, and its last byte is overwritten with -1. -/
def tmpfsLoad (s : SysState) (n : Nat) : SysState :=
  let node := s.vfs.nodes n
  if node.init then s
  else
    let mem := memcpy s.mem node.address node.internalAddress (toSize node.stSize)
    -- `-1` over the last byte of the file
    let last := toSize (node.address + node.stSize - 1)
    setFile { s with mem := put mem last 0xFF } n fun node => { node with init := true }

/-- `tmpfs_read`: the value returned and the state after it. -/
def tmpfsRead (s : SysState) (n offset count buffer : Nat) : Int × SysState :=
  let s := tmpfsLoad s n
  if buffer = 0 then (-1, s)
  else
    let src := ((s.vfs.nodes n).address + offset) % 2 ^ 64
    let s := { s with mem := memcpy s.mem buffer src count }
    (toInt count, setFile s n fun node => { node with cursor := (node.cursor + count) % 2 ^ 64 })

/-- The loop of `devfs_read`: characters are stored from `tmp + i` on, up to the
carriage return. -/
def ttyLoop (tmp : Nat) (mem : Mem) (i : Nat) : List (BitVec 8) → Option (Mem × Nat × List (BitVec 8))
  | [] => none
  | c :: input =>
    let mem := put mem (tmp + i) c
    if c = 13 then some (mem, i + 1, input) else ttyLoop tmp mem (i + 1) input

/-- `devfs_read`; it does not return before a carriage return is typed. -/
def devfsRead (tmp : Nat) (s : SysState) (n buffer : Nat) : Option (Int × SysState) :=
  if strEq (s.vfs.nodes n).name ['t', 't', 'y'] then
    match ttyLoop tmp s.mem 0 s.input with
    | none => none
    | some (mem, i, input) =>
      let mem := memcpy (put mem (tmp + i) 0xFF) buffer tmp i
      some (toInt i, { s with
        mem := mem
        input := input
        freed := tmp :: s.freed })
  else
    some (-1, s)

/-- `vfs_read`: dispatch to the filesystem of the node's mount point. -/
def vfsRead (tmp : Nat) (s : SysState) (n offset count buf : Nat) : Option (Int × SysState) :=
  match (s.vfs.nodes n).mountpoint with
  | none => none
  | some m =>
    match (s.vfs.mounts m).fs with
    | none => none
    | some .tmpfs => some (tmpfsRead s n offset count buf)
    | some .devfs => devfsRead tmp s n buf

/-! ### Writing -/

/-- A value stored in an `off_t`. -/
def toOff (i : Int) : Int := (BitVec.ofInt 64 i).toInt

/-- What `realloc` finds and gets: the size that the tag of the old block
records, and the address of the new block. -/
structure Grant where
  tagSize : Nat
  ptr : Nat

/-- `realloc(p, size)`: the address it returns and memory after the copy.  It
always takes a new block. -/
def realloc (g : Grant) (m : Mem) (p size : Nat) : Nat × Mem :=
  if size = 0 then (0, m)
  else if p = 0 then (g.ptr, m)
  else
    let realSize := toInt g.tagSize
    let realSize := if realSize > toInt size then toInt size else realSize
    (g.ptr, memcpy m g.ptr p (toSize realSize))

/-- The size `tmpfs_write` asks `realloc` for. -/
def growSize (node : VfsNode) (count : Nat) : Nat := toSize (node.stSize + count + 1)

/-- `node->address = realloc(node->address, node->stat.st_size + count + 1)`;
the old block is freed, unless it is NULL. -/
def growFile (g : Grant) (s : SysState) (n count : Nat) : SysState :=
  let node := s.vfs.nodes n
  let r := realloc g s.mem node.address (growSize node count)
  let s := { s with
    mem := r.2
    freed := if node.address = 0 then s.freed else node.address :: s.freed }
  setFile s n fun node => { node with address := r.1 }

/-- `tmpfs_write`: the value returned and the state after it. -/
def tmpfsWrite (g : Grant) (s : SysState) (n count buffer : Nat) : Int × SysState :=
  if (s.vfs.nodes n).oMode &&& O_APPEND ≠ 0 then
    let s := setFile s n fun node => { node with cursor := toSize node.stSize }
    let s := growFile g s n count
    let node := s.vfs.nodes n
    let dest := (node.address + node.cursor) % 2 ^ 64
    let s := { s with mem := memcpy s.mem dest buffer count }
    (0, setFile s n fun node => { node with stSize := toOff (node.stSize + count) })
  else
    let node := s.vfs.nodes n
    -- the cursor is compared as an `int`
    let s := if toInt node.cursor ≥ node.stSize then growFile g s n count else s
    let node := s.vfs.nodes n
    let dest := (node.address + node.cursor) % 2 ^ 64
    let s := { s with mem := memcpy s.mem dest buffer count }
    (toInt count, setFile s n fun node =>
      { node with
        stSize := toOff (node.stSize + count)
        cursor := (node.cursor + count) % 2 ^ 64 })

/-- `devfs_write`, beside the characters it sends. -/
def devfsWrite (s : SysState) (n count : Nat) : Int × SysState :=
  if strEq (s.vfs.nodes n).name ['t', 't', 'y'] then
    (toInt count, setFile s n fun node =>
      { node with
        cursor := (node.cursor + count) % 2 ^ 64
        stSize := toOff (node.stSize + count) })
  else
    (-1, s)

/-- `vfs_write`: dispatch to the filesystem of the node's mount point. -/
def vfsWrite (g : Grant) (s : SysState) (n count buf : Nat) : Option (Int × SysState) :=
  match (s.vfs.nodes n).mountpoint with
  | none => none
  | some m =>
    match (s.vfs.mounts m).fs with
    | none => none
    | some fs =>
      let r := match fs with
        | .tmpfs => tmpfsWrite g s n count buf
        | .devfs => devfsWrite s n count
      some (if r.1 ≠ -1 then toInt count else -1, r.2)

/-! ### Reading and writing by filesystem -/

/-- `node->mountpoint->fs`. -/
def nodeFs (v : Vfs) (n : Nat) : Option Filesystem :=
  (v.nodes n).mountpoint.bind fun m => (v.mounts m).fs

/-- `fs.read`. -/
def fsRead (fs : Option Filesystem) (tmp : Nat) (s : SysState) (n offset count buf : Nat) :
    Option (Int × SysState) :=
  match fs with
  | none => none
  | some .tmpfs => some (tmpfsRead s n offset count buf)
  | some .devfs => devfsRead tmp s n buf

/-- `fs.write`, and what `vfs_write` returns. -/
def fsWrite (fs : Option Filesystem) (g : Grant) (s : SysState) (n count buf : Nat) :
    Option (Int × SysState) :=
  fs.map fun fs =>
    let r := match fs with
      | .tmpfs => tmpfsWrite g s n count buf
      | .devfs => devfsWrite s n count
    (if r.1 ≠ -1 then toInt count else -1, r.2)

theorem vfsRead_nodeFs (tmp : Nat) (s : SysState) (n offset count buf : Nat) :
    vfsRead tmp s n offset count buf = fsRead (nodeFs s.vfs n) tmp s n offset count buf := by
  unfold vfsRead nodeFs
  cases (s.vfs.nodes n).mountpoint with
  | none => rfl
  | some m => rfl

theorem vfsWrite_nodeFs (g : Grant) (s : SysState) (n count buf : Nat) :
    vfsWrite g s n count buf = fsWrite (nodeFs s.vfs n) g s n count buf := by
  unfold vfsWrite nodeFs fsWrite
  cases (s.vfs.nodes n).mountpoint with
  | none => rfl
  | some m =>
    dsimp only
    rw [Option.bind_some]
    cases (s.vfs.mounts m).fs <;> rfl

/-! ### The calls -/

/-- The directory a call to `sys_openat` starts from. -/
def dirOf (s : SysState) (dirfd : Int) : Option (Option Nat) :=
  if dirfd = AT_FDCWD then some s.task.cwd
  else (getFd s.task dirfd).map FileDescriptor.file

/-- `sys_openat`: the number returned in `rax`.  `buf` is the buffer of a new
file and `grant` says whether the descriptor vector could grow. -/
def sysOpenat (buf : Nat) (grant : Bool) (s : SysState) (dirfd : Int) (path : CString)
    (mode : Nat) : Option (Int × SysState) :=
  match dirOf s dirfd with
  | none => none
  | some start =>
    match vfsGetParent s.vfs start path with
    | none => none
    | some (none, v) => some (-1, { s with vfs := { v with errno := ENOENT } })
    | some (some parent, v) =>
      -- the parent is passed on, and not used there
      match vfsOpen buf v (some parent) path mode with
      | none => none
      | some (file, v) =>
        let newFd : FileDescriptor := ⟨s.task.currentFd, file⟩
        some (newFd.fd, { s with
          vfs := v
          task := { s.task with
            currentFd := s.task.currentFd + 1
            descriptors := vecPush grant s.task.descriptors newFd } })

/-- `sys_read`: the value returned in `rax`. -/
def sysRead (tmp : Nat) (s : SysState) (fd : Int) (buf count : Nat) : Option (Int × SysState) :=
  match fileOf s fd with
  | none => none
  | some n =>
    match vfsRead tmp s n (s.vfs.nodes n).cursor count buf with
    | none => none
    -- the cursor has been moved by the filesystem already
    | some (ret, s) =>
      some (ret, setFile s n fun node => { node with cursor := (node.cursor + count) % 2 ^ 64 })

/-- `sys_write`: the value returned in `rax`. -/
def sysWrite (g : Grant) (s : SysState) (fd : Int) (buf count : Nat) : Option (Int × SysState) :=
  match fileOf s fd with
  | none => none
  | some n => vfsWrite g s n count buf

/-- `sys_close`, for a number inside the vector: the slot is spliced out, and
then the descriptor is read from it. -/
def sysClose (s : SysState) (fildes : Nat) : Option SysState :=
  let s := { s with
    task := { s.task with descriptors := vecSplice s.task.descriptors fildes 1 } }
  match fileOf s fildes with
  | none => none
  | some n =>
    let s := setFile s n fun node =>
      { node with
        init := false
        cursor := 0 }
    some { s with
      freed := (s.vfs.nodes n).address :: s.freed
      task := { s.task with currentFd := s.task.currentFd - 1 } }

def SEEK_CUR : Int := 1
def SEEK_END : Int := 2
def SEEK_SET : Int := 3
def EINVAL : Nat := 1026

/-- `base` of `sys_seek`, in an `off_t`. -/
def seekBase (node : VfsNode) (offset whence : Int) : Option Int :=
  if whence = SEEK_SET then some offset
  else if whence = SEEK_CUR then some (toOff (node.cursor + offset))
  else if whence = SEEK_END then some (toOff (node.stSize + offset))
  else none

/-- `sys_seek`: the value returned in `rax`. -/
def sysSeek (s : SysState) (fd offset whence : Int) : Option (Int × SysState) :=
  match fileOf s fd with
  | none => none
  | some n =>
    match seekBase (s.vfs.nodes n) offset whence with
    | none => some (-1, { s with vfs := { s.vfs with errno := EINVAL } })
    | some base => some (base, setFile s n fun node => { node with cursor := toSize base })

/-- What `sys_seek` can do. -/
theorem sysSeek_cases {s s' : SysState} {fd offset whence ret : Int}
    (h : sysSeek s fd offset whence = some (ret, s')) :
    ∃ n, fileOf s fd = some n ∧
      ((seekBase (s.vfs.nodes n) offset whence = none ∧
          s' = { s with vfs := { s.vfs with errno := EINVAL } }) ∨
        (seekBase (s.vfs.nodes n) offset whence = some ret ∧
          s' = setFile s n fun node => { node with cursor := toSize ret })) := by
  unfold sysSeek at h
  split at h
  · cases h
  · next n hn =>
    refine ⟨n, hn, ?_⟩
    split at h
    · next hbase =>
      obtain ⟨-, rfl⟩ := Prod.mk.inj (Option.some.inj h)
      exact .inl ⟨hbase, rfl⟩
    · next hbase =>
      obtain ⟨rfl, rfl⟩ := Prod.mk.inj (Option.some.inj h)
      exact .inr ⟨hbase, rfl⟩

end BestOS
