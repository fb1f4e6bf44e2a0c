/-
BestOS/Dispatch.lean

`syscall_dispatch` and how a failure is reported.

A handler reports a failure in `rax` and in the global `errno`;
`syscall_dispatch` turns an `errno` that is set into `rax = -1` with the code in
`rdx`, and clears it.  The functions below the handlers use one channel, the
other, or both: `tmpfs_read` and the functions of devfs return -1 and leave
`errno` alone, and a seek may return -1 as a position.

`ResultProtocol` is what the library relies on, `DispatchOk` the condition on a
call and the state it is made in.  The argument is that nothing reads `errno`: what
`sys_openat` stores there does not depend on what was there before
(`sysOpenat_code`), and the other calls store at most one constant.
-/
import BestOS.SyscallAbi
import BestOS.FileEffects
import BestOS.ReadConfined
import BestOS.UstarTree

namespace BestOS

open ByteMemory

/-! ### State -/

/-- What the handlers act on: files, the frames, and of the current task its page
map, its count of used pages and its FS base. -/
structure KernelState where
  sys : SysState
  machine : Machine
  pagemap : Nat
  usedPages : Nat
  fsBase : BitVec 64

/-- What a call gets from outside: addresses that `malloc` returns, for a new
file, for `devfs_read`, for a program and for its interpreter; whether the vector
could grow; the block of `realloc`; the interpreter that a program names, and
where that string is; and the frames that a new task leaves. -/
structure Outside where
  buf : Nat
  tmp : Nat
  program : Nat
  interpreterBuf : Nat
  grant : Bool
  block : Grant
  interpreter : Option (Nat × CString)
  machine : Machine

/-- `get_errno`. -/
def KernelState.errno (k : KernelState) : Nat := k.sys.vfs.errno

def Vfs.withErrno (v : Vfs) (e : Nat) : Vfs := { v with errno := e }

def SysState.withErrno (s : SysState) (e : Nat) : SysState := { s with vfs := s.vfs.withErrno e }

/-- `set_errno`. -/
def KernelState.withErrno (k : KernelState) (e : Nat) : KernelState :=
  { k with sys := k.sys.withErrno e }

/-! ### Programs and their files -/

def O_RDWR : Nat := 3

/-- `sched_new_elf_process` reads a whole file to `ptr`.  A file that is not found
is dereferenced; the value that `vfs_read` returns is not looked at. -/
def readWhole (o : Outside) (s : SysState) (path : CString) (ptr : Nat) : Option (Int × SysState) :=
  match vfsOpen o.buf s.vfs s.vfs.root path O_RDWR with
  | some (some n, v) => vfsRead o.tmp { s with vfs := v } n 0 (toSize (v.nodes n).stSize) ptr
  | _ => none

/-- The standard streams are opened one after the other. -/
def openStdio (buf : Nat) (v : Vfs) : List CString → Option (List (Option Nat) × Vfs)
  | [] => some ([], v)
  | path :: paths =>
    (vfsOpen buf v v.root path O_RDWR).bind fun r =>
      (openStdio buf r.2 paths).map fun q => (r.1 :: q.1, q.2)

/-- The interpreter is read, when the program names one. -/
def readInterpreter (o : Outside) (s : SysState) : Option SysState :=
  match o.interpreter with
  | none => some s
  | some (ldPath, name) =>
    (readWhole o s name o.interpreterBuf).map fun r =>
      { r.2 with freed := o.interpreterBuf :: ldPath :: r.2.freed }

/-- `sched_new_elf_process`, as far as files go: the nodes of the standard
streams, and the state.  `Elf` and `ExecStack` have the image and the stack. -/
def schedNewElfProcess (o : Outside) (s : SysState) (path : CString) (stdio : List CString) :
    Option (List (Option Nat) × SysState) :=
  (readWhole o s path o.program).bind fun r =>
    (openStdio o.buf r.2.vfs stdio).bind fun q =>
      (readInterpreter o { r.2 with vfs := q.2 }).map fun s =>
        (q.1, { s with freed := o.program :: s.freed })

/-! ### The handlers -/

/-- `vec_splice` and then `get_fd`, in `sys_close`: a number outside the vector
makes `memmove` run over memory. -/
def closeHandler (s : SysState) (fildes : Int) : Option SysState :=
  if 0 ≤ fildes ∧ fildes < s.task.descriptors.length then sysClose s fildes.toNat else none

/-- `syscalls[num](args)`: the state and the frame when the handler returns.
`sys_log` and `sys_set_fs` leave `rax` alone, and `sys_exit` does not return. -/
def callHandler (o : Outside) (k : KernelState) (stack : Stack) :
    KernelCall → Option (KernelState × Stack)
  | .log _ => some (k, stack)
  | .mmap hint size flags =>
      (vmmMmap k.machine k.pagemap hint.toNat size.toNat flags.toNat k.usedPages).map fun r =>
        ({ k with
          machine := r.machine
          usedPages := r.usedPages }, { stack with rax := BitVec.ofNat 64 r.ret })
  | .setFs base => some ({ k with fsBase := base }, stack)
  | .openat dirfd path mode =>
      (sysOpenat o.buf o.grant k.sys dirfd.toInt (cString k.sys.mem path.toNat maxString)
        mode.toNat).map fun r => ({ k with sys := r.2 }, { stack with rax := BitVec.ofInt 64 r.1 })
  | .read fd buf count =>
      (sysRead o.tmp k.sys fd.toInt buf.toNat count.toNat).map fun r =>
        ({ k with sys := r.2 }, { stack with rax := BitVec.ofInt 64 r.1 })
  | .write fd buf count =>
      (sysWrite o.block k.sys fd.toInt buf.toNat count.toNat).map fun r =>
        ({ k with sys := r.2 }, { stack with rax := BitVec.ofInt 64 r.1 })
  | .close fildes =>
      (closeHandler k.sys fildes.toInt).map fun s => ({ k with sys := s }, { stack with rax := 0 })
  | .seek fd offset whence =>
      (sysSeek k.sys fd.toInt offset.toInt whence.toInt).map fun r =>
        ({ k with sys := r.2 }, { stack with rax := BitVec.ofInt 64 r.1 })
  | .exit _ => none
  | .execve path _ _ =>
      (schedNewElfProcess o k.sys (cString k.sys.mem path.toNat maxString) []).map fun r =>
        ({ k with
          sys := r.2
          machine := o.machine }, { stack with rax := 0 })

/-- The end of `syscall_dispatch`. -/
def reportErrno (k : KernelState) (stack : Stack) : KernelState × Stack :=
  if k.errno > 0 then
    (k.withErrno 0, { stack with
      rdx := BitVec.ofNat 64 k.errno
      rax := -1 })
  else (k, stack)

/-- `syscall_dispatch`; there is no handler for a number above 9. -/
def syscallDispatch (o : Outside) (k : KernelState) (num : BitVec 32) (stack : Stack) :
    Option (KernelState × Stack) :=
  (decodeCall num stack).bind fun c =>
    (callHandler o k stack c).map fun r => reportErrno r.1 r.2

/-! ### Boot -/

def devPath : CString := ['/', 'd', 'e', 'v']
def ttyPath : CString := ['/', 'd', 'e', 'v', '/', 't', 't', 'y']
def initPath : CString := ['/', 'b', 'i', 'n', '/', 'i', 'n', 'i', 't']

/-- `devfs_init`. -/
def devfsInit (buf : Nat) (v : Vfs) : Option Vfs :=
  (vfsMount v devPath .devfs).bind fun v => (vfsOpen buf v v.root ttyPath O_CREAT).map Prod.snd

/-- The tree that `kernel_main` builds, from the archives at the given addresses. -/
def bootVfs (m : Mem) (fuel buf : Nat) (archives : List (UstarHeap × Nat)) (v : Vfs) : Option Vfs :=
  (vfsMount v ['/'] .tmpfs).bind fun v =>
    (archives.foldlM (fun v a => createTmpfsFiles a.1 m fuel a.2 v) v).bind (devfsInit buf)

/-- The first task, with its standard streams. -/
def firstTask (grant : Bool) (root : Option Nat) (files : List (Option Nat)) : FileTask where
  currentFd := 3
  descriptors := (files.zipIdx).foldl (fun v d => vecPush grant v ⟨d.2, d.1⟩) vecInit
  cwd := root

/-- The states in which the first task may make its first call: the tree is that of
`kernel_main` after `sched_new_elf_process`; memory and the frames are arbitrary. -/
def BootedKernel (k : KernelState) : Prop :=
  ∃ (v₀ v : Vfs) (m : Mem) (fuel : Nat) (archives : List (UstarHeap × Nat)) (o : Outside)
    (s s' : SysState) (files : List (Option Nat)),
    v₀.root = none ∧ v₀.errno = 0 ∧ bootVfs m fuel o.buf archives v₀ = some v ∧ s.vfs = v ∧
      schedNewElfProcess o s initPath [ttyPath, ttyPath, ttyPath] = some (files, s') ∧
      k.sys.vfs = s'.vfs ∧ k.sys.task = firstTask o.grant v.root files

/-! ### The property -/

/-- No file is opened: the check of the parent or `vfs_open` returns NULL. -/
def NotOpened (buf : Nat) (s : SysState) (dirfd : Int) (path : CString) (mode : Nat) : Prop :=
  ∃ start, dirOf s dirfd = some start ∧
    ((vfsGetParent s.vfs start path).map Prod.fst = some none ∨
      (∃ parent, (vfsGetParent s.vfs start path).map Prod.fst = some (some parent)) ∧
        (vfsOpen buf s.vfs start path mode).map Prod.fst = some none)

/-- The filesystem of the node refuses to read: there is no buffer, or no device
of that name. -/
def ReadRefused (s : SysState) (n buf : Nat) : Prop :=
  ∃ m, (s.vfs.nodes n).mountpoint = some m ∧
    (((s.vfs.mounts m).fs = some .tmpfs ∧ buf = 0) ∨
      ((s.vfs.mounts m).fs = some .devfs ∧ (s.vfs.nodes n).name ≠ ['t', 't', 'y']))

/-- It refuses to write. -/
def WriteRefused (s : SysState) (n : Nat) : Prop :=
  ∃ m, (s.vfs.nodes n).mountpoint = some m ∧ (s.vfs.mounts m).fs = some .devfs ∧
    (s.vfs.nodes n).name ≠ ['t', 't', 'y']

/-- A round of the loop of `vmm_mmap` gets NULL from the allocator. -/
def Starved (pagemap : Nat) : Machine → List Nat → Prop
  | _, [] => False
  | s, virt :: virts => (pmmAllocateZero s 1).1 = 0 ∨ Starved pagemap (mmapPage s pagemap virt) virts

/-- A file that `sched_new_elf_process` reads whole is refused. -/
def WholeRefused (o : Outside) (s : SysState) (path : CString) (ptr : Nat) : Prop :=
  ∃ n v, vfsOpen o.buf s.vfs s.vfs.root path O_RDWR = some (some n, v) ∧
    ReadRefused { s with vfs := v } n ptr

/-- The handler fails. -/
def CallFails (o : Outside) (k : KernelState) : KernelCall → Prop
  | .mmap hint size flags =>
      Starved k.pagemap k.machine (mmapAddresses hint.toNat size.toNat flags.toNat k.usedPages)
  | .openat dirfd path mode =>
      NotOpened o.buf k.sys dirfd.toInt (cString k.sys.mem path.toNat maxString) mode.toNat
  | .read fd buf _ => ∃ n, fileOf k.sys fd.toInt = some n ∧ ReadRefused k.sys n buf.toNat
  | .write fd _ _ => ∃ n, fileOf k.sys fd.toInt = some n ∧ WriteRefused k.sys n
  | .seek _ _ whence => whence.toInt ≠ SEEK_SET ∧ whence.toInt ≠ SEEK_CUR ∧ whence.toInt ≠ SEEK_END
  -- the program, or the interpreter after it
  | .execve path _ _ =>
      let name := cString k.sys.mem path.toNat maxString
      WholeRefused o k.sys name o.program ∨
        ∃ r s ldPath ld, readWhole o k.sys name o.program = some (r, s) ∧
          o.interpreter = some (ldPath, ld) ∧ WholeRefused o s ld o.interpreterBuf
  | _ => False

/-- The handler stores `e` to `errno`: it leaves `e` there when `errno` was zero. -/
def Stores (o : Outside) (k : KernelState) (stack : Stack) (c : KernelCall) (e : Nat) : Prop :=
  ∃ r, callHandler o (k.withErrno 0) stack c = some r ∧ r.1.errno = e

/-- The result protocol of one call that returns: `rax` is -1 exactly when the
handler failed; then `rdx` is a code that this call stored; and `errno` is clear. -/
structure ResultProtocol (o : Outside) (k : KernelState) (stack : Stack) (c : KernelCall)
    (k' : KernelState) (stack' : Stack) : Prop where
  result : stack'.rax = -1 ↔ CallFails o k c
  code : CallFails o k c → ∃ e, 0 < e ∧ Stores o k stack c e ∧ stack'.rdx = BitVec.ofNat 64 e
  cleared : k'.errno = 0

/-! ### The condition -/

/-- What a read that is not refused returns depends on this number: the count,
or for the terminal the number of characters up to the carriage return. -/
def readLength (s : SysState) (n count : Nat) : Nat :=
  match (s.vfs.nodes n).mountpoint.bind fun m => (s.vfs.mounts m).fs with
  | some .devfs => (s.input.takeWhile (· ≠ 13)).length + 1
  | _ => count

/-- The condition: `errno` is clear and the handler neither fails nor has -1 for
its result.  The two calls that store a code may fail. -/
def DispatchOk (o : Outside) (k : KernelState) (c : KernelCall) : Prop :=
  match c with
  | .mmap hint _ flags =>
      k.errno = 0 ∧ ¬ CallFails o k c ∧ ¬ (flags.toNat &&& MAP_FIXED ≠ 0 ∧ hint = -1)
  | .openat .. =>
      CallFails o k c ∨ k.errno = 0 ∧ BitVec.ofInt 64 k.sys.task.currentFd ≠ -1
  | .read fd _ count =>
      k.errno = 0 ∧ ¬ CallFails o k c ∧
        ∀ n, fileOf k.sys fd.toInt = some n → toInt (readLength k.sys n count.toNat) ≠ -1
  | .write _ _ count => k.errno = 0 ∧ ¬ CallFails o k c ∧ toInt count.toNat ≠ -1
  | .seek fd offset whence =>
      CallFails o k c ∨ k.errno = 0 ∧ ∀ n, fileOf k.sys fd.toInt = some n →
        seekBase (k.sys.vfs.nodes n) offset.toInt whence.toInt ≠ some (-1)
  | _ => k.errno = 0 ∧ ¬ CallFails o k c

/-! ### `errno` in `vfs.c` -/

/-- The state in which `errno` is `e` unless a code is set. -/
def Vfs.orErrno (v : Vfs) (e : Nat) : Vfs := if v.errno = 0 then v.withErrno e else v

theorem Vfs.withErrno_self (v : Vfs) : v.withErrno v.errno = v := rfl

theorem Vfs.orErrno_clear (v : Vfs) (e : Nat) : (v.withErrno 0).orErrno e = v.withErrno e := if_pos rfl

theorem Vfs.orErrno_code (v : Vfs) {c : Nat} (e : Nat) (hc : c ≠ 0) :
    (v.withErrno c).orErrno e = v.withErrno c := if_neg hc

theorem getParentLoop_orErrno (v : Vfs) (e : Nat) (start : Option Nat) (n : Nat) (node : Option Nat)
    (segs : List CString) :
    getParentLoop (v.withErrno e) start n node segs =
      (getParentLoop (v.withErrno 0) start n node segs).map fun r => (r.1, r.2.orErrno e) := by
  have hend : ∀ node : Option Nat,
      (if node = none then { v.withErrno e with errno := ENOENT } else v.withErrno e)
        = (if node = none then { v.withErrno 0 with errno := ENOENT } else v.withErrno 0).orErrno e := by
    intro node
    split
    · exact (v.orErrno_code e (show ENOENT ≠ 0 by decide)).symm
    · exact (v.orErrno_clear e).symm
  induction segs generalizing node with
  | nil =>
    rw [getParentLoop, getParentLoop, hend]
    · rfl
    · simp
    · simp
  | cons c segs ih =>
    cases segs with
    | nil =>
      rw [getParentLoop, getParentLoop, hend]
      · rfl
      · simp
      · simp
    | cons d rest =>
      have hfind : ∀ start, vfsFindNode (v.withErrno e) start d = vfsFindNode (v.withErrno 0) start d :=
        fun _ => rfl
      rw [getParentLoop, getParentLoop, hfind, hfind]
      split
      · split
        · exact congrArg (fun v => some (node, v)) (v.orErrno_clear e).symm
        · cases vfsFindNode (v.withErrno 0) node d with
          | none => rfl
          | some m => exact ih m
      · split
        · exact congrArg (fun v => some (start, v)) (v.orErrno_clear e).symm
        · cases vfsFindNode (v.withErrno 0) start d with
          | none => rfl
          | some m => exact ih m

theorem vfsGetParent_orErrno (v : Vfs) (e : Nat) (start : Option Nat) (path : CString) :
    vfsGetParent (v.withErrno e) start path =
      (vfsGetParent (v.withErrno 0) start path).map fun r => (r.1, r.2.orErrno e) := by
  unfold vfsGetParent
  exact getParentLoop_orErrno { v with strtok := (vfsParsePath v.strtok path).2 } e start _ start _

/-- A parent that is found sets no code. -/
theorem getParentLoop_found {v v' : Vfs} {start node : Option Nat} {n parent : Nat}
    {segs : List CString} (h : getParentLoop v start n node segs = some (some parent, v')) :
    v' = v := by
  have hend : ∀ node : Option Nat,
      some (node, if node = none then { v with errno := ENOENT } else v) = some (some parent, v') →
        v' = v := by
    intro node hnode
    obtain ⟨rfl, rfl⟩ := Prod.mk.inj (Option.some.inj hnode)
    exact if_neg (by simp)
  induction segs generalizing node with
  | nil => exact hend node h
  | cons c segs ih =>
    cases segs with
    | nil => exact hend node h
    | cons d rest =>
      rw [getParentLoop] at h
      split at h
      · split at h
        · exact (Prod.mk.inj (Option.some.inj h)).2.symm
        · split at h
          · cases h
          · exact ih h
      · split at h
        · exact (Prod.mk.inj (Option.some.inj h)).2.symm
        · split at h
          · cases h
          · exact ih h

theorem vfsGetParent_found {v v' : Vfs} {start : Option Nat} {path : CString} {parent : Nat}
    (h : vfsGetParent v start path = some (some parent, v')) : v' = { v with strtok := none } := by
  unfold vfsGetParent at h
  rw [vfsParsePath_eq] at h
  exact getParentLoop_found h

theorem vfsGetParent_strtok (v : Vfs) (t : Option CString) (start : Option Nat) (path : CString) :
    vfsGetParent { v with strtok := t } start path = vfsGetParent v start path := by
  unfold vfsGetParent
  rw [vfsParsePath_eq, vfsParsePath_eq]

theorem vfsOpen_strtok (buf : Nat) (v : Vfs) (t : Option CString) (start : Option Nat)
    (path : CString) (flags : Nat) :
    vfsOpen buf { v with strtok := t } start path flags = vfsOpen buf v start path flags := by
  unfold vfsOpen
  rw [vfsGetParent_strtok]

theorem openIn_orErrno (buf : Nat) (v : Vfs) (e parent : Nat) (name : CString) (flags : Nat) :
    openIn buf (v.withErrno e) parent name flags =
      (openIn buf (v.withErrno 0) parent name flags).map fun r => (r.1, r.2.orErrno e) := by
  have hfind : vfsFindNode (v.withErrno e) (some parent) name
      = vfsFindNode (v.withErrno 0) (some parent) name := rfl
  have hnodes : (v.withErrno e).nodes = (v.withErrno 0).nodes := rfl
  unfold openIn
  rw [hfind, hnodes]
  cases vfsFindNode (v.withErrno 0) (some parent) name with
  | none => rfl
  | some node =>
    dsimp only
    split
    · exact congrArg (fun v => some (none, v)) (v.orErrno_code e (show EISDIR ≠ 0 by decide)).symm
    · split
      · cases node with
        | none => rfl
        | some n => rfl
      · cases node with
        | none =>
          exact congrArg (fun v => some (none, v)) (v.orErrno_code e (show ENOENT ≠ 0 by decide)).symm
        | some n =>
          dsimp only
          have hset : ∀ e, ((setNode (v.withErrno e) n fun n => { n with oMode := flags }).nodes n).pointsTo
              = (v.nodes n).pointsTo := by
            intro e
            show (Function.update v.nodes n _ n).pointsTo = _
            rw [Function.update_self]
            rfl
          rw [hset, hset]
          cases (v.nodes n).pointsTo <;> rfl

/-- What `vfs_open` leaves in `errno` does not depend on what was there, unless it
sets no code. -/
theorem vfsOpen_orErrno (buf : Nat) (v : Vfs) (e : Nat) (start : Option Nat) (path : CString)
    (flags : Nat) :
    vfsOpen buf (v.withErrno e) start path flags =
      (vfsOpen buf (v.withErrno 0) start path flags).map fun r => (r.1, r.2.orErrno e) := by
  have hroot : (v.withErrno e).root = (v.withErrno 0).root := rfl
  unfold vfsOpen
  rw [vfsGetParent_orErrno, hroot]
  cases hg : vfsGetParent (v.withErrno 0) (v.withErrno 0).root path with
  | none => rfl
  | some r =>
    obtain ⟨parent, v'⟩ := r
    cases parent with
    | none =>
      show some (none, { v'.orErrno e with errno := ENOENT }) = some (none, (v'.withErrno ENOENT).orErrno e)
      rw [v'.orErrno_code e (show ENOENT ≠ 0 by decide)]
      unfold Vfs.orErrno
      split <;> rfl
    | some parent =>
      obtain rfl := vfsGetParent_found hg
      exact openIn_orErrno buf { v with strtok := none } e parent (basename path) flags

/-- `vfs_open` sets a code exactly when it returns NULL. -/
theorem vfsOpen_errno {buf : Nat} {v v' : Vfs} {start file : Option Nat} {path : CString}
    {flags : Nat} (h : vfsOpen buf v start path flags = some (file, v')) :
    (file = none → 0 < v'.errno) ∧ (file ≠ none → v'.errno = v.errno) := by
  unfold vfsOpen at h
  split at h
  · cases h
  · obtain ⟨rfl, rfl⟩ := Prod.mk.inj (Option.some.inj h)
    exact ⟨fun _ => show 0 < ENOENT by decide, fun hne => absurd rfl hne⟩
  · next hg =>
    obtain rfl := vfsGetParent_found hg
    cases openIn_end h with
    | made hf hcreat => exact ⟨fun hnone => absurd hnone (by simp), fun _ => rfl⟩
    | missing hf hcreat => exact ⟨fun _ => show 0 < ENOENT by decide, fun hne => absurd rfl hne⟩
    | refused n hf hdir htype =>
      exact ⟨fun _ => show 0 < EISDIR by decide, fun hne => absurd rfl hne⟩
    | found n hf => exact ⟨fun hnone => absurd hnone (by simp), fun _ => rfl⟩

/-! ### `errno` in the handlers -/

/-- A call of `sys_openat` that opens nothing stores the same code when `errno` was
clear before. -/
theorem sysOpenat_code {buf : Nat} {grant : Bool} {s s' : SysState} {dirfd : Int} {path : CString}
    {mode : Nat} {r : Int} (h : sysOpenat buf grant s dirfd path mode = some (r, s'))
    (hn : NotOpened buf s dirfd path mode) :
    0 < s'.vfs.errno ∧ ∃ r₀ s₀, sysOpenat buf grant (s.withErrno 0) dirfd path mode = some (r₀, s₀) ∧
      s₀.vfs.errno = s'.vfs.errno := by
  obtain ⟨start, hdir, hn⟩ := hn
  have hdir₀ : dirOf (s.withErrno 0) dirfd = some start := hdir
  unfold sysOpenat at h ⊢
  rw [hdir] at h
  rw [hdir₀]
  dsimp only at h ⊢
  have hframe := vfsGetParent_orErrno s.vfs s.vfs.errno start path
  rw [Vfs.withErrno_self] at hframe
  rw [hframe] at h hn
  rw [show (s.withErrno 0).vfs = s.vfs.withErrno 0 from rfl]
  cases hg : vfsGetParent (s.vfs.withErrno 0) start path with
  | none =>
    rw [hg] at h
    cases h
  | some r =>
    obtain ⟨parent, v₀⟩ := r
    rw [hg] at h hn
    cases parent with
    | none =>
      obtain ⟨-, rfl⟩ := Prod.mk.inj (Option.some.inj h)
      exact ⟨show 0 < ENOENT by decide, _, _, rfl, rfl⟩
    | some parent =>
      -- the parent was found, so `vfs_open` returned NULL
      obtain rfl := vfsGetParent_found hg
      rcases hn with hn | ⟨-, hn⟩
      · cases hn
      · have hstart : vfsOpen buf ({ s.vfs.withErrno 0 with strtok := none }) (some parent) path mode
            = vfsOpen buf (s.vfs.withErrno 0) start path mode := vfsOpen_strtok buf _ none start path mode
        have hopen := vfsOpen_orErrno buf s.vfs s.vfs.errno start path mode
        rw [Vfs.withErrno_self] at hopen
        have hreal : vfsOpen buf (({ s.vfs.withErrno 0 with strtok := none } : Vfs).orErrno s.vfs.errno)
            (some parent) path mode = vfsOpen buf s.vfs start path mode := by
          exact vfsOpen_strtok buf s.vfs none start path mode
        rw [hopen] at hn
        dsimp only [Option.map_some] at h ⊢
        rw [hreal, hopen] at h
        rw [hstart]
        cases ho : vfsOpen buf (s.vfs.withErrno 0) start path mode with
        | none =>
          rw [ho] at h
          cases h
        | some q =>
          obtain ⟨file, v₁⟩ := q
          rw [ho] at h hn
          obtain rfl : file = none := Option.some.inj hn
          have hpos := (vfsOpen_errno ho).1 rfl
          have hkeep : v₁.orErrno s.vfs.errno = v₁ := if_neg (Nat.pos_iff_ne_zero.mp hpos)
          dsimp only [Option.map_some] at h
          rw [hkeep] at h
          obtain ⟨-, rfl⟩ := Prod.mk.inj (Option.some.inj h)
          exact ⟨hpos, _, _, rfl, rfl⟩

/-- A call that opens a file sets no code. -/
theorem sysOpenat_opened {buf : Nat} {grant : Bool} {s s' : SysState} {dirfd : Int} {path : CString}
    {mode : Nat} {r : Int} (h : sysOpenat buf grant s dirfd path mode = some (r, s'))
    (hn : ¬ NotOpened buf s dirfd path mode) :
    r = s.task.currentFd ∧ s'.vfs.errno = s.vfs.errno := by
  unfold sysOpenat at h
  split at h
  · cases h
  · next start hdir =>
    split at h
    · cases h
    · next hg => exact absurd ⟨start, hdir, .inl (by rw [hg]; rfl)⟩ hn
    · next parent v hg =>
      obtain rfl := vfsGetParent_found hg
      split at h
      · cases h
      · next file v ho =>
        obtain ⟨rfl, rfl⟩ := Prod.mk.inj (Option.some.inj h)
        refine ⟨rfl, (vfsOpen_errno ho).2 ?_⟩
        rintro rfl
        have hopen : vfsOpen buf s.vfs start path mode = some (none, v) :=
          (vfsOpen_strtok buf s.vfs none start path mode).symm.trans ho
        exact hn ⟨start, hdir, .inr ⟨⟨parent, by rw [hg]; rfl⟩, by rw [hopen]; rfl⟩⟩

theorem tmpfsLoad_errno (s : SysState) (n : Nat) : (tmpfsLoad s n).vfs.errno = s.vfs.errno := by
  unfold tmpfsLoad
  dsimp only
  split <;> rfl

theorem readRefused_iff {s : SysState} {n buf : Nat} :
    ReadRefused s n buf ↔ (nodeFs s.vfs n = some .tmpfs ∧ buf = 0) ∨
      (nodeFs s.vfs n = some .devfs ∧ (s.vfs.nodes n).name ≠ ['t', 't', 'y']) := by
  unfold nodeFs
  simp only [Option.bind_eq_some_iff]
  constructor
  · rintro ⟨m, hm, ⟨hfs, hbuf⟩ | ⟨hfs, hname⟩⟩
    · exact .inl ⟨⟨m, hm, hfs⟩, hbuf⟩
    · exact .inr ⟨⟨m, hm, hfs⟩, hname⟩
  · rintro (⟨⟨m, hm, hfs⟩, hbuf⟩ | ⟨⟨m, hm, hfs⟩, hname⟩)
    · exact ⟨m, hm, .inl ⟨hfs, hbuf⟩⟩
    · exact ⟨m, hm, .inr ⟨hfs, hname⟩⟩

theorem writeRefused_iff {s : SysState} {n : Nat} :
    WriteRefused s n ↔
      nodeFs s.vfs n = some .devfs ∧ (s.vfs.nodes n).name ≠ ['t', 't', 'y'] := by
  unfold nodeFs
  rw [Option.bind_eq_some_iff]
  constructor
  · rintro ⟨m, hm, hfs, hname⟩
    exact ⟨⟨m, hm, hfs⟩, hname⟩
  · rintro ⟨⟨m, hm, hfs⟩, hname⟩
    exact ⟨m, hm, hfs, hname⟩

theorem readLength_tmpfs {s : SysState} {n : Nat} (h : nodeFs s.vfs n = some .tmpfs) (count : Nat) :
    readLength s n count = count := by
  unfold nodeFs at h
  rw [readLength, h]

theorem readLength_devfs {s : SysState} {n : Nat} (h : nodeFs s.vfs n = some .devfs) (count : Nat) :
    readLength s n count = (s.input.takeWhile (· ≠ 13)).length + 1 := by
  unfold nodeFs at h
  rw [readLength, h]

/-- `vfs_read` leaves `errno` alone, also where it fails. -/
theorem vfsRead_result {tmp n offset count buf : Nat} {s s' : SysState} {r : Int}
    (h : vfsRead tmp s n offset count buf = some (r, s')) :
    s'.vfs.errno = s.vfs.errno ∧ (ReadRefused s n buf → r = -1) ∧
      (¬ ReadRefused s n buf → r = toInt (readLength s n count)) := by
  rw [vfsRead_nodeFs] at h
  rw [readRefused_iff]
  cases hfs : nodeFs s.vfs n with
  | none =>
    rw [hfs] at h
    cases h
  | some fs =>
    rw [hfs] at h
    cases fs with
    | tmpfs =>
      rw [readLength_tmpfs hfs]
      simp only [Option.some.injEq, reduceCtorEq, true_and, false_and, or_false]
      rw [fsRead, tmpfsRead] at h
      dsimp only at h
      split at h
      · next hbuf =>
        obtain ⟨rfl, rfl⟩ := Prod.mk.inj (Option.some.inj h)
        exact ⟨tmpfsLoad_errno s n, fun _ => rfl, fun hne => absurd hbuf hne⟩
      · next hbuf =>
        obtain ⟨rfl, rfl⟩ := Prod.mk.inj (Option.some.inj h)
        exact ⟨tmpfsLoad_errno s n, fun hzero => absurd hzero hbuf, fun _ => rfl⟩
    | devfs =>
      rw [readLength_devfs hfs]
      simp only [Option.some.injEq, reduceCtorEq, false_and, true_and, false_or]
      rw [fsRead, devfsRead] at h
      split at h
      · next htty =>
        split at h
        · cases h
        · next hloop =>
          obtain ⟨rfl, rfl⟩ := Prod.mk.inj (Option.some.inj h)
          refine ⟨rfl, fun hname => absurd ((strEq_iff _ _).mp htty) hname, fun _ => ?_⟩
          rw [ttyLoop_length hloop, Nat.zero_add]
      · next hname =>
        obtain ⟨rfl, rfl⟩ := Prod.mk.inj (Option.some.inj h)
        exact ⟨rfl, fun _ => rfl, fun htty => absurd ((strEq_iff _ _).mpr (not_not.mp htty)) hname⟩

theorem sysRead_result {tmp buf count : Nat} {s s' : SysState} {fd r : Int}
    (h : sysRead tmp s fd buf count = some (r, s')) :
    ∃ n, fileOf s fd = some n ∧ s'.vfs.errno = s.vfs.errno ∧ (ReadRefused s n buf → r = -1) ∧
      (¬ ReadRefused s n buf → r = toInt (readLength s n count)) := by
  unfold sysRead at h
  split at h
  · cases h
  · next n hn =>
    split at h
    · cases h
    · next hread =>
      obtain ⟨rfl, rfl⟩ := Prod.mk.inj (Option.some.inj h)
      obtain ⟨herrno, hrefused, hvalue⟩ := vfsRead_result hread
      exact ⟨n, hn, herrno, hrefused, hvalue⟩

theorem tmpfsWrite_value (g : Grant) (s : SysState) (n count buf : Nat) :
    (tmpfsWrite g s n count buf).1 = 0 ∨ (tmpfsWrite g s n count buf).1 = toInt count := by
  unfold tmpfsWrite
  split
  · exact .inl rfl
  · exact .inr rfl

theorem vfsWrite_result {g : Grant} {n count buf : Nat} {s s' : SysState} {r : Int}
    (h : vfsWrite g s n count buf = some (r, s')) :
    s'.vfs.errno = s.vfs.errno ∧ (WriteRefused s n → r = -1) ∧
      (¬ WriteRefused s n → r = toInt count) := by
  -- a length of -1 is passed on as it is
  have hvalue : ∀ i : Int, i = toInt count → (if i ≠ -1 then toInt count else -1) = toInt count := by
    rintro i rfl
    split
    · rfl
    · next hi => exact (not_not.mp hi).symm
  rw [vfsWrite_nodeFs] at h
  rw [writeRefused_iff]
  cases hfs : nodeFs s.vfs n with
  | none =>
    rw [hfs] at h
    cases h
  | some fs =>
    rw [hfs] at h
    obtain ⟨rfl, rfl⟩ := Prod.mk.inj (Option.some.inj h)
    cases fs with
    | tmpfs =>
      dsimp only
      refine ⟨by rw [tmpfsWrite_eq]; rfl, fun hn => absurd hn.1 (by simp), fun _ => ?_⟩
      rcases tmpfsWrite_value g s n count buf with hzero | hcount
      · rw [hzero]
        rfl
      · exact hvalue _ hcount
    | devfs =>
      dsimp only
      unfold devfsWrite
      split
      · next htty =>
        exact ⟨rfl, fun hn => absurd ((strEq_iff _ _).mp htty) hn.2, fun _ => hvalue _ rfl⟩
      · next hname =>
        refine ⟨rfl, fun _ => rfl, fun hn => absurd ⟨rfl, fun htty => ?_⟩ hn⟩
        exact hname ((strEq_iff _ _).mpr htty)

theorem sysSeek_result {s s' : SysState} {fd offset whence r : Int}
    (h : sysSeek s fd offset whence = some (r, s')) :
    ∃ n, fileOf s fd = some n ∧
      ((seekBase (s.vfs.nodes n) offset whence = none ∧ s'.vfs.errno = EINVAL) ∨
        (seekBase (s.vfs.nodes n) offset whence = some r ∧ s'.vfs.errno = s.vfs.errno)) := by
  obtain ⟨n, hn, ⟨hbase, rfl⟩ | ⟨hbase, rfl⟩⟩ := sysSeek_cases h
  · exact ⟨n, hn, .inl ⟨hbase, rfl⟩⟩
  · exact ⟨n, hn, .inr ⟨hbase, rfl⟩⟩

theorem seekBase_eq_none {node : VfsNode} {offset whence : Int} :
    seekBase node offset whence = none ↔
      whence ≠ SEEK_SET ∧ whence ≠ SEEK_CUR ∧ whence ≠ SEEK_END := by
  unfold seekBase
  split_ifs with h1 h2 h3
  · simp [h1]
  · simp [h2]
  · simp [h3]
  · simp [h1, h2, h3]

theorem sysClose_errno {s s' : SysState} {fildes : Nat} (h : sysClose s fildes = some s') :
    s'.vfs.errno = s.vfs.errno := by
  unfold sysClose at h
  dsimp only at h
  split at h
  · cases h
  · obtain rfl := Option.some.inj h
    rfl

theorem readWhole_errno {o : Outside} {s s' : SysState} {path : CString} {ptr : Nat} {r : Int}
    (h : readWhole o s path ptr = some (r, s')) : s'.vfs.errno = s.vfs.errno := by
  unfold readWhole at h
  split at h
  · next ho => exact (vfsRead_result h).1.trans ((vfsOpen_errno ho).2 (by simp))
  · cases h

/-- Loading a program leaves `errno` alone: a file that is not found does not let
it return. -/
theorem schedNewElfProcess_errno {o : Outside} {s s' : SysState} {path : CString}
    {files : List (Option Nat)} (h : schedNewElfProcess o s path [] = some (files, s')) :
    s'.vfs.errno = s.vfs.errno := by
  unfold schedNewElfProcess at h
  obtain ⟨⟨r, s₁⟩, hread, h⟩ := Option.bind_eq_some_iff.mp h
  obtain ⟨q, hq, h⟩ := Option.bind_eq_some_iff.mp h
  obtain ⟨s₂, hint, hs⟩ := Option.map_eq_some_iff.mp h
  obtain rfl : ([], s₁.vfs) = q := Option.some.inj hq
  obtain ⟨-, rfl⟩ := Prod.mk.inj hs
  refine Eq.trans ?_ (readWhole_errno hread)
  unfold readInterpreter at hint
  split at hint
  · obtain rfl := Option.some.inj hint
    rfl
  · obtain ⟨⟨r', s₃⟩, hread', rfl⟩ := Option.map_eq_some_iff.mp hint
    have herrno := readWhole_errno hread'
    exact herrno

/-! ### One call -/

/-- The two handlers that call `set_errno`, themselves or through `vfs.c`. -/
def KernelCall.SetsErrno : KernelCall → Prop
  | .openat .. => True
  | .seek .. => True
  | _ => False

/-- The other ones leave `errno` alone. -/
theorem callHandler_quiet {o : Outside} {k k₁ : KernelState} {stack stack₁ : Stack} {c : KernelCall}
    (hc : ¬ c.SetsErrno) (h : callHandler o k stack c = some (k₁, stack₁)) :
    k₁.errno = k.errno := by
  cases c with
  | openat dirfd path mode => exact absurd trivial hc
  | seek fd offset whence => exact absurd trivial hc
  | log message =>
    obtain ⟨rfl, -⟩ := Prod.mk.inj (Option.some.inj h)
    rfl
  | setFs base =>
    obtain ⟨rfl, -⟩ := Prod.mk.inj (Option.some.inj h)
    rfl
  | mmap hint size flags =>
    obtain ⟨r, -, hr⟩ := Option.map_eq_some_iff.mp h
    obtain ⟨rfl, -⟩ := Prod.mk.inj hr
    rfl
  | read fd buf count =>
    obtain ⟨⟨r, s⟩, hread, hr⟩ := Option.map_eq_some_iff.mp h
    obtain ⟨rfl, -⟩ := Prod.mk.inj hr
    obtain ⟨n, -, herrno, -⟩ := sysRead_result hread
    exact herrno
  | write fd buf count =>
    obtain ⟨⟨r, s⟩, hwrite, hr⟩ := Option.map_eq_some_iff.mp h
    obtain ⟨rfl, -⟩ := Prod.mk.inj hr
    unfold sysWrite at hwrite
    split at hwrite
    · cases hwrite
    · exact (vfsWrite_result hwrite).1
  | close fildes =>
    obtain ⟨s, hclose, hr⟩ := Option.map_eq_some_iff.mp h
    obtain ⟨rfl, -⟩ := Prod.mk.inj hr
    unfold closeHandler at hclose
    split at hclose
    · exact sysClose_errno hclose
    · cases hclose
  | exit status => cases h
  | execve path argv envp =>
    obtain ⟨⟨files, s⟩, hload, hr⟩ := Option.map_eq_some_iff.mp h
    obtain ⟨rfl, -⟩ := Prod.mk.inj hr
    have herrno := schedNewElfProcess_errno hload
    exact herrno

section OneCall

variable {o : Outside} {k k₁ : KernelState} {stack stack₁ : Stack} {c : KernelCall}

/-- A call that does not fail and sets no code. -/
theorem protocol_of_success (hf : ¬ CallFails o k c) (hquiet : k₁.errno = k.errno) :
    ResultProtocol o k stack c (reportErrno k₁ stack₁).1 (reportErrno k₁ stack₁).2 ↔
      k.errno = 0 ∧ stack₁.rax ≠ -1 := by
  unfold reportErrno
  by_cases hclear : k.errno = 0
  · rw [if_neg (by omega)]
    constructor
    · exact fun h => ⟨hclear, fun hrax => hf (h.result.mp hrax)⟩
    · rintro ⟨-, hrax⟩
      exact ⟨iff_of_false hrax hf, fun h => absurd h hf, hquiet.trans hclear⟩
  · -- an old code is reported for this call
    rw [if_pos (by omega)]
    exact iff_of_false (fun h => hf (h.result.mp rfl)) fun h => hclear h.1

/-- A call that fails and stores a code. -/
theorem protocol_of_code (hf : CallFails o k c) (hpos : 0 < k₁.errno)
    (hstores : Stores o k stack c k₁.errno) :
    ResultProtocol o k stack c (reportErrno k₁ stack₁).1 (reportErrno k₁ stack₁).2 := by
  unfold reportErrno
  rw [if_pos hpos]
  exact ⟨iff_of_true rfl hf, fun _ => ⟨_, hpos, hstores, rfl⟩, rfl⟩

/-- A call of a handler that never stores a code. -/
theorem protocol_of_quiet (hc : ¬ c.SetsErrno) (h : callHandler o k stack c = some (k₁, stack₁)) :
    ResultProtocol o k stack c (reportErrno k₁ stack₁).1 (reportErrno k₁ stack₁).2 ↔
      k.errno = 0 ∧ ¬ CallFails o k c ∧ stack₁.rax ≠ -1 := by
  by_cases hf : CallFails o k c
  · refine iff_of_false (fun hp => ?_) fun hp => hp.2.1 hf
    obtain ⟨e, hpos, ⟨r, hr, herrno⟩, -⟩ := hp.code hf
    have hzero : r.1.errno = 0 := callHandler_quiet hc hr
    omega
  · rw [protocol_of_success hf (callHandler_quiet hc h)]
    exact ⟨fun hp => ⟨hp.1, hf, hp.2⟩, fun hp => ⟨hp.1, hp.2.2⟩⟩

/-- A call of such a handler whose value is not -1. -/
theorem protocol_of_value (hc : ¬ c.SetsErrno) (h : callHandler o k stack c = some (k₁, stack₁))
    (hrax : stack₁.rax ≠ -1) :
    ResultProtocol o k stack c (reportErrno k₁ stack₁).1 (reportErrno k₁ stack₁).2 ↔
      k.errno = 0 ∧ ¬ CallFails o k c := by
  rw [protocol_of_quiet hc h, and_iff_left hrax]

end OneCall

/-! ### Results -/

theorem ofInt_eq_neg_one {i : Int} (h1 : -2 ^ 63 ≤ i) (h2 : i < 2 ^ 63) :
    BitVec.ofInt 64 i = -1 ↔ i = -1 := by
  constructor
  · intro h
    have hint := congrArg BitVec.toInt h
    rw [BitVec.toInt_ofInt, Int.bmod_eq_of_le (by omega) (by omega)] at hint
    rw [hint]
    rfl
  · rintro rfl
    rfl

theorem ofInt_toInt_eq (n : Nat) : BitVec.ofInt 64 (toInt n) = -1 ↔ toInt n = -1 := by
  have h1 := BitVec.le_toInt (BitVec.ofNat 32 n)
  have h2 := toInt_lt n
  apply ofInt_eq_neg_one
  · unfold toInt
    omega
  · omega

theorem seekBase_range {node : VfsNode} {offset : BitVec 64} {whence base : Int}
    (h : seekBase node offset.toInt whence = some base) : -2 ^ 63 ≤ base ∧ base < 2 ^ 63 := by
  have hrange : ∀ b : BitVec 64, -2 ^ 63 ≤ b.toInt ∧ b.toInt < 2 ^ 63 :=
    fun b => ⟨b.le_toInt, b.toInt_lt⟩
  unfold seekBase at h
  split_ifs at h
  all_goals
    obtain rfl := Option.some.inj h
    exact hrange _

/-- Without `MAP_FIXED` the result is the address of a page. -/
theorem mmapVirt_eq_neg_one (hint : BitVec 64) (flags : BitVec 32) (used : Nat) :
    BitVec.ofNat 64 (mmapVirt hint.toNat flags.toNat used) = -1 ↔
      flags.toNat &&& MAP_FIXED ≠ 0 ∧ hint = -1 := by
  have hflags : flags.toNat &&& 0xFFFFFFFF = flags.toNat := by
    have := flags.isLt
    rw [show (0xFFFFFFFF : Nat) = 2 ^ 32 - 1 from rfl, Nat.and_two_pow_sub_one_eq_mod]
    omega
  rw [mmapVirt, hflags]
  split
  · next hfix =>
    rw [BitVec.ofNat_toNat, BitVec.setWidth_eq]
    exact ⟨fun h => ⟨hfix, h⟩, fun h => h.2⟩
  · next hfix =>
    refine iff_of_false (fun h => ?_) fun h => hfix h.1
    have hval := congrArg BitVec.toNat h
    rw [BitVec.toNat_ofNat, show (-1 : BitVec 64).toNat = 2 ^ 64 - 1 from rfl, ALLOC_BASE] at hval
    omega

/-- The number in `rax` is one of the table's, so it is not -1. -/
theorem rax_ne_neg_one {stack : Stack} {c : KernelCall}
    (hc : decodeCall (toInt32 stack.rax) stack = some c) : stack.rax ≠ -1 := by
  intro hrax
  rw [hrax, show toInt32 (-1) = -1 from rfl] at hc
  simp [decodeCall, SYSCALL_LOG, SYSCALL_MMAP, SYSCALL_SET_FS_BASE, SYSCALL_OPENAT, SYSCALL_READ,
    SYSCALL_WRITE, SYSCALL_CLOSE, SYSCALL_SEEK, SYSCALL_EXIT, SYSCALL_EXECVE] at hc

section Calls

variable {o : Outside} {k k₁ : KernelState} {stack stack₁ : Stack}

/-- A file that is not opened stores a code, whatever `errno` was. -/
theorem openat_protocol {dirfd mode : BitVec 32} {path : BitVec 64}
    (h : callHandler o k stack (.openat dirfd path mode) = some (k₁, stack₁)) :
    ResultProtocol o k stack (.openat dirfd path mode) (reportErrno k₁ stack₁).1
      (reportErrno k₁ stack₁).2 ↔ DispatchOk o k (.openat dirfd path mode) := by
  obtain ⟨⟨r, s⟩, hopen, hr⟩ := Option.map_eq_some_iff.mp h
  obtain ⟨rfl, rfl⟩ := Prod.mk.inj hr
  by_cases hf : CallFails o k (.openat dirfd path mode)
  · obtain ⟨hpos, r₀, s₀, hclear, herrno⟩ := sysOpenat_code hopen hf
    refine iff_of_true (protocol_of_code hf hpos ?_) (.inl hf)
    have hcall : callHandler o (k.withErrno 0) stack (.openat dirfd path mode)
        = some ({ k.withErrno 0 with sys := s₀ }, { stack with rax := BitVec.ofInt 64 r₀ }) := by
      show Option.map _ (sysOpenat o.buf o.grant (k.sys.withErrno 0) _ _ _) = _
      exact congrArg (Option.map _) hclear
    exact ⟨_, hcall, herrno⟩
  · obtain ⟨rfl, herrno⟩ := sysOpenat_opened hopen hf
    have hquiet : ({ k with sys := s } : KernelState).errno = k.errno := herrno
    rw [protocol_of_success hf hquiet]
    exact ⟨.inr, fun hok => hok.resolve_left hf⟩

/-- A seek with an unknown `whence` stores `EINVAL`; any other returns the position
it computes. -/
theorem seek_protocol {fd : BitVec 32} {offset : BitVec 64} {whence : BitVec 32}
    (h : callHandler o k stack (.seek fd offset whence) = some (k₁, stack₁)) :
    ResultProtocol o k stack (.seek fd offset whence) (reportErrno k₁ stack₁).1
      (reportErrno k₁ stack₁).2 ↔ DispatchOk o k (.seek fd offset whence) := by
  obtain ⟨⟨r, s⟩, hseek, hr⟩ := Option.map_eq_some_iff.mp h
  obtain ⟨rfl, rfl⟩ := Prod.mk.inj hr
  obtain ⟨n, hn, ⟨hbase, herrno⟩ | ⟨hbase, herrno⟩⟩ := sysSeek_result hseek
  · have hf : CallFails o k (.seek fd offset whence) := seekBase_eq_none.mp hbase
    have herrno₁ : ({ k with sys := s } : KernelState).errno = EINVAL := herrno
    refine iff_of_true (protocol_of_code hf ?_ ?_) (.inl hf)
    · rw [herrno₁]
      decide
    · rw [herrno₁]
      have hcall : callHandler o (k.withErrno 0) stack (.seek fd offset whence) =
          some ({ k with sys := { k.sys with vfs := { k.sys.vfs with errno := EINVAL } } },
            { stack with rax := BitVec.ofInt 64 (-1) }) := by
        have hn₀ : fileOf (k.withErrno 0).sys fd.toInt = some n := hn
        have hbase₀ : seekBase ((k.withErrno 0).sys.vfs.nodes n) offset.toInt whence.toInt = none :=
          hbase
        rw [callHandler, sysSeek, hn₀]
        dsimp only
        rw [hbase₀]
        rfl
      exact ⟨_, hcall, rfl⟩
  · have hf : ¬ CallFails o k (.seek fd offset whence) := fun hf => by
      rw [seekBase_eq_none.mpr hf] at hbase
      cases hbase
    obtain ⟨h1, h2⟩ := seekBase_range hbase
    have hquiet : ({ k with sys := s } : KernelState).errno = k.errno := herrno
    rw [protocol_of_success hf hquiet]
    dsimp only
    rw [Ne, ofInt_eq_neg_one h1 h2]
    constructor
    · rintro ⟨hclear, hne⟩
      refine .inr ⟨hclear, fun n' hn' hbase' => hne ?_⟩
      rw [← Option.some.inj (hn.symm.trans hn'), hbase] at hbase'
      exact Option.some.inj hbase'
    · intro hok
      obtain ⟨hclear, hne⟩ := hok.resolve_left hf
      exact ⟨hclear, fun hr => hne n hn (hr ▸ hbase)⟩

/-- **One call that returns meets the protocol** exactly under the condition. -/
theorem protocol_iff {c : KernelCall} (hc : decodeCall (toInt32 stack.rax) stack = some c)
    (h : callHandler o k stack c = some (k₁, stack₁)) :
    ResultProtocol o k stack c (reportErrno k₁ stack₁).1 (reportErrno k₁ stack₁).2 ↔
      DispatchOk o k c := by
  cases c with
  | openat dirfd path mode => exact openat_protocol h
  | seek fd offset whence => exact seek_protocol h
  | exit status => cases h
  -- the handlers that return 0, or leave the number of the call in `rax`
  | log message =>
    refine protocol_of_value (fun hs => hs) h ?_
    obtain ⟨-, rfl⟩ := Prod.mk.inj (Option.some.inj h)
    exact rax_ne_neg_one hc
  | setFs base =>
    refine protocol_of_value (fun hs => hs) h ?_
    obtain ⟨-, rfl⟩ := Prod.mk.inj (Option.some.inj h)
    exact rax_ne_neg_one hc
  | close fildes =>
    refine protocol_of_value (fun hs => hs) h ?_
    obtain ⟨s, -, hr⟩ := Option.map_eq_some_iff.mp h
    obtain ⟨-, rfl⟩ := Prod.mk.inj hr
    exact show (0 : BitVec 64) ≠ -1 by decide
  | execve path argv envp =>
    refine protocol_of_value (fun hs => hs) h ?_
    obtain ⟨r, -, hr⟩ := Option.map_eq_some_iff.mp h
    obtain ⟨-, rfl⟩ := Prod.mk.inj hr
    exact show (0 : BitVec 64) ≠ -1 by decide
  | mmap hint size flags =>
    rw [protocol_of_quiet (c := .mmap hint size flags) (fun hs => hs) h]
    obtain ⟨r, hmmap, hr⟩ := Option.map_eq_some_iff.mp h
    obtain ⟨-, rfl⟩ := Prod.mk.inj hr
    have hret : r.ret = mmapVirt hint.toNat flags.toNat k.usedPages := by
      unfold vmmMmap at hmmap
      split at hmmap
      · cases hmmap
      · obtain rfl := Option.some.inj hmmap
        rfl
    dsimp only
    rw [hret, Ne, mmapVirt_eq_neg_one]
    rfl
  | read fd buf count =>
    rw [protocol_of_quiet (c := .read fd buf count) (fun hs => hs) h]
    obtain ⟨⟨r, s⟩, hread, hr⟩ := Option.map_eq_some_iff.mp h
    obtain ⟨-, rfl⟩ := Prod.mk.inj hr
    obtain ⟨n, hn, -, -, hvalue⟩ := sysRead_result hread
    refine and_congr_right fun _ => and_congr_right fun hf => ?_
    have hval := hvalue fun hrefused => hf ⟨n, hn, hrefused⟩
    dsimp only
    rw [hval, Ne, ofInt_toInt_eq]
    constructor
    · intro hne n' hn'
      rw [← Option.some.inj (hn.symm.trans hn')]
      exact hne
    · exact fun hall => hall n hn
  | write fd buf count =>
    rw [protocol_of_quiet (c := .write fd buf count) (fun hs => hs) h]
    obtain ⟨⟨r, s⟩, hwrite, hr⟩ := Option.map_eq_some_iff.mp h
    obtain ⟨-, rfl⟩ := Prod.mk.inj hr
    refine and_congr_right fun _ => and_congr_right fun hf => ?_
    unfold sysWrite at hwrite
    split at hwrite
    · cases hwrite
    · next n hn =>
      have hval := (vfsWrite_result hwrite).2.2 fun hrefused => hf ⟨n, hn, hrefused⟩
      dsimp only
      rw [hval, Ne, ofInt_toInt_eq]

end Calls

/-! ### Runs -/

/-- A system call, or what happens between two: another task is scheduled, user
code runs; the tree and `errno` stay. -/
inductive KernelEvent
  | call (o : Outside) (stack : Stack)
  | other (k : KernelState)

/-- `P` holds of every call of the run that returns. -/
def Throughout (P : Outside → KernelState → Stack → KernelCall → KernelState → Stack → Prop) :
    KernelState → List KernelEvent → Prop
  | _, [] => True
  | k, .call o stack :: es =>
      ∀ c k' stack', decodeCall (toInt32 stack.rax) stack = some c →
        syscallDispatch o k (toInt32 stack.rax) stack = some (k', stack') →
        P o k stack c k' stack' ∧ Throughout P k' es
  | k, .other t :: es => t.sys.vfs = k.sys.vfs → Throughout P t es

/-- **The result protocol**: in every run, from every state, all calls meet it if
and only if all calls meet the condition in the state they are made in. -/
theorem syscall_protocol_iff (k : KernelState) (es : List KernelEvent) :
    Throughout ResultProtocol k es ↔ Throughout (fun o k _ c _ _ => DispatchOk o k c) k es := by
  induction es generalizing k with
  | nil => exact Iff.rfl
  | cons e es ih =>
    cases e with
    | other t => exact imp_congr_right fun _ => ih t
    | call o stack =>
      refine forall_congr' fun c => forall_congr' fun k' => forall_congr' fun stack' =>
        imp_congr_right fun hc => imp_congr_right fun hd => and_congr ?_ (ih k')
      rw [syscallDispatch, hc, Option.bind_some] at hd
      obtain ⟨⟨k₁, stack₁⟩, hcall, hreport⟩ := Option.map_eq_some_iff.mp hd
      have hiff := protocol_iff hc hcall
      rw [show reportErrno k₁ stack₁ = (k', stack') from hreport] at hiff
      exact hiff

/-! ### A boot with one program -/

/-- An archive of a directory `bin/` and an empty file `bin/init`, and the path
`/bin/init` at 0x7000. -/
def initTar : Mem :=
  putString (putHeader (putHeader (fun _ => 0) 0x1000 ['b', 'i', 'n', '/'] (List.replicate 11 '0') '5')
    0x1200 ['b', 'i', 'n', '/', 'i', 'n', 'i', 't'] (List.replicate 11 '0') '0') 0x7000 initPath

def initOutside : Outside where
  buf := 0x5000
  tmp := 0x5100
  program := 0x5200
  interpreterBuf := 0x5300
  grant := true
  block := ⟨0, 0x5400⟩
  interpreter := none
  machine := ⟨initTar, 0, 0, ⟨0, 0⟩⟩

/-- The tree after `devfs_init`. -/
def initVfs : Vfs :=
  (bootVfs initTar 3 0x5000 [(⟨fun _ => [], fun _ => 0x5500⟩, 0x1000)] noVfs).getD noVfs

/-- What `sched_new_elf_process` starts from, and what it leaves. -/
def initSys : SysState where
  vfs := initVfs
  task := firstTask true initVfs.root []
  mem := initTar
  freed := []
  input := []

def initLoaded : List (Option Nat) × SysState :=
  (schedNewElfProcess initOutside initSys initPath [ttyPath, ttyPath, ttyPath]).getD ([], initSys)

def initKernel : KernelState where
  sys := { initLoaded.2 with task := firstTask true initVfs.root initLoaded.1 }
  machine := initOutside.machine
  pagemap := 0
  usedPages := 0
  fsBase := 0

theorem initKernel_bootedKernel : BootedKernel initKernel := by
  have hboot : (bootVfs initTar 3 0x5000 [(⟨fun _ => [], fun _ => 0x5500⟩, 0x1000)] noVfs).isSome := by
    decide +kernel
  have hload : (schedNewElfProcess initOutside initSys initPath [ttyPath, ttyPath, ttyPath]).isSome := by
    decide +kernel
  obtain ⟨v, hv⟩ := Option.isSome_iff_exists.mp hboot
  obtain ⟨⟨files, s'⟩, hs⟩ := Option.isSome_iff_exists.mp hload
  have hinit : initVfs = v := by rw [initVfs, hv, Option.getD_some]
  have hloaded : initLoaded = (files, s') := by rw [initLoaded, hs, Option.getD_some]
  refine ⟨noVfs, v, initTar, 3, _, initOutside, initSys, s', files, rfl, rfl, hv, hinit, hs, ?_, ?_⟩
  · rw [initKernel, hloaded]
  · rw [initKernel, hloaded, hinit]
    rfl

/-- `sys_openat(AT_FDCWD, "/bin/init")`, and `sys_read` of one byte to NULL. -/
def openInit : Stack :=
  { frameOfRegisters zeroRegisters 0x42 with
    rax := 3
    rdi := -100
    rsi := 0x7000 }

def readNull : Stack :=
  { frameOfRegisters zeroRegisters 0x42 with
    rax := 4
    rdi := 3
    rdx := 1 }

/-- **A read to NULL fails without a code.**  After boot the first task opens
`/bin/init` and reads one byte of it to NULL: `rax` is -1 and `rdx` still the
count. -/
theorem read_null_no_code :
    ¬ ∀ (k : KernelState) (es : List KernelEvent), BootedKernel k → Throughout ResultProtocol k es := by
  intro hclaim
  have hrun := hclaim initKernel [.call initOutside openInit, .call initOutside readNull]
    initKernel_bootedKernel
  have hopen : (syscallDispatch initOutside initKernel (toInt32 openInit.rax) openInit).any fun r =>
      (fileOf r.1.sys 3).any fun n => OnTmpfs r.1.sys n := by
    decide +kernel
  obtain ⟨⟨k₁, stack₁⟩, hone, hfile⟩ := (Option.any_eq_true _ _).mp hopen
  obtain ⟨n, hn, htmpfs⟩ := (Option.any_eq_true _ _).mp hfile
  have hmount : OnTmpfs k₁.sys n := of_decide_eq_true htmpfs
  obtain ⟨s, hread, -⟩ := sysRead_copies hn hmount initOutside.tmp 0 1
  have hcall : callHandler initOutside k₁ readNull (.read 3 0 1)
      = some ({ k₁ with sys := s }, { readNull with rax := -1 }) := congrArg (Option.map _) hread
  have htwo : syscallDispatch initOutside k₁ (toInt32 readNull.rax) readNull = some _ :=
    congrArg (Option.map fun r : KernelState × Stack => reportErrno r.1 r.2) hcall
  have hlast := ((hrun (.openat (-100) 0x7000 0) k₁ stack₁ rfl hone).2 (.read 3 0 1) _ _ rfl htwo).1
  obtain ⟨m, hm, hfs⟩ := hmount
  have hf : CallFails initOutside k₁ (.read 3 0 1) := ⟨n, hn, m, hm, .inl ⟨hfs, rfl⟩⟩
  exact ((protocol_of_quiet (c := .read 3 0 1) (fun hs => hs) hcall).mp hlast).2.1 hf

end BestOS
