/-
BestOS/OpenFailure.lean

Opens that fail.

`vfs_get_parent` goes on with the walk after a lookup that found nothing, so a missing
component is reported only where no other lookup follows: one further in front makes it
call `vfs_find_node` on NULL (`missing_component_iff`).

`sys_openat` looks the parent up from the directory it was given and then has `vfs_open`
look it up again, from the root.  A failure of the first lookup leaves everything as it was.
A failure of `vfs_open` is noticed by nobody before the dispatcher: by then the descriptor
has been pushed, with NULL for its file, and `current_fd` counted up (`open_atomic_iff`).

`OpenRefused` and `OpenGranted` say by lookups in the tree what `vfs_open` returns.
-/
import BestOS.Dispatch
import BestOS.Descriptors

namespace BestOS

/-! ### What `vfs_open` finds -/

/-- What the parent has under the name is not opened: nothing, unless it may be made, or a
directory, unless one was asked for. -/
def LeafRefused (v : Vfs) (flags : Nat) : Option Nat → Prop
  | none => flags &&& O_CREAT = 0
  | some n => flags &&& O_DIRECTORY = 0 ∧ (v.nodes n).type = .directory

/-- There is no parent, or nothing in it that is opened. -/
def OpenRefused (v : Vfs) (path : CString) (flags : Nat) : Prop :=
  parentFromRoot v path = some none ∨
    ∃ parent node, parentFromRoot v path = some (some parent) ∧
      vfsFindNode v (some parent) (basename path) = some node ∧ LeafRefused v flags node

/-- There is something that is opened. -/
def OpenGranted (v : Vfs) (path : CString) (flags : Nat) : Prop :=
  ∃ parent node, parentFromRoot v path = some (some parent) ∧
    vfsFindNode v (some parent) (basename path) = some node ∧ ¬ LeafRefused v flags node

/-- The end of `vfs_open`. -/
theorem openIn_leaf {buf parent flags : Nat} {v : Vfs} {name : CString} {node : Option Nat}
    (hf : vfsFindNode v (some parent) name = some node) :
    (LeafRefused v flags node →
      ∃ e, openIn buf v parent name flags = some (none, { v with errno := e })) ∧
    (¬ LeafRefused v flags node → ∃ n v', openIn buf v parent name flags = some (some n, v')) := by
  unfold openIn
  rw [hf]
  cases node with
  | none =>
    simp only [LeafRefused, Option.any_none, Bool.false_eq_true, and_false, ↓reduceIte]
    constructor
    · intro hcreat
      rw [if_neg (not_not.mpr hcreat)]
      exact ⟨_, rfl⟩
    · intro hcreat
      rw [if_pos hcreat]
      exact ⟨_, _, rfl⟩
  | some n =>
    simp only [LeafRefused, Option.any_some, decide_eq_true_eq]
    constructor
    · intro hdir
      rw [if_pos hdir]
      exact ⟨_, rfl⟩
    · intro hdir
      rw [if_neg hdir]
      split
      · exact ⟨_, _, rfl⟩
      · split <;> exact ⟨_, _, rfl⟩

/-- `vfs_open` returns NULL, with a code, and leaves the tree alone. -/
theorem OpenRefused.open {v : Vfs} {path : CString} {flags : Nat} (h : OpenRefused v path flags)
    (buf : Nat) (start : Option Nat) :
    ∃ v', vfsOpen buf v start path flags = some (none, v') ∧ SameTree v v' := by
  unfold vfsOpen
  rcases h with hnull | ⟨parent, node, hparent, hf, hleaf⟩
  · obtain ⟨⟨res, v'⟩, hg, rfl⟩ := Option.map_eq_some_iff.mp hnull
    obtain ⟨e, t, rfl⟩ := vfsGetParent_vfs hg
    rw [hg]
    exact ⟨_, rfl, rfl, rfl, rfl⟩
  · obtain ⟨⟨res, v'⟩, hg, rfl⟩ := Option.map_eq_some_iff.mp hparent
    obtain rfl := vfsGetParent_found hg
    rw [hg]
    have hend : ∃ e, openIn buf { v with strtok := none } parent (basename path) flags
        = some (none, { v with strtok := none, errno := e }) :=
      (openIn_leaf (show vfsFindNode { v with strtok := none } _ _ = _ from hf)).1 hleaf
    obtain ⟨e, ho⟩ := hend
    exact ⟨_, ho, rfl, rfl, rfl⟩

/-- `vfs_open` returns a node. -/
theorem OpenGranted.open {v : Vfs} {path : CString} {flags : Nat} (h : OpenGranted v path flags)
    (buf : Nat) (start : Option Nat) :
    ∃ n v', vfsOpen buf v start path flags = some (some n, v') := by
  obtain ⟨parent, node, hparent, hf, hleaf⟩ := h
  obtain ⟨⟨res, v'⟩, hg, rfl⟩ := Option.map_eq_some_iff.mp hparent
  obtain rfl := vfsGetParent_found hg
  unfold vfsOpen
  rw [hg]
  exact (openIn_leaf (v := { v with strtok := none }) hf).2 hleaf

/-- It does nothing else, if it returns. -/
theorem vfsOpen_outcome {buf : Nat} {v : Vfs} {start : Option Nat} {path : CString} {flags : Nat}
    {r : Option Nat × Vfs} (h : vfsOpen buf v start path flags = some r) :
    OpenRefused v path flags ∨ OpenGranted v path flags := by
  unfold vfsOpen at h
  cases hg : vfsGetParent v v.root path with
  | none =>
    rw [hg] at h
    cases h
  | some q =>
    obtain ⟨res, v'⟩ := q
    have hparent : parentFromRoot v path = some res := by
      rw [parentFromRoot, hg]
      rfl
    cases res with
    | none => exact .inl (.inl hparent)
    | some parent =>
      obtain rfl := vfsGetParent_found hg
      rw [hg] at h
      cases hf : vfsFindNode v (some parent) (basename path) with
      | none =>
        have hf' : vfsFindNode { v with strtok := none } (some parent) (basename path) = none := hf
        have hin : openIn buf { v with strtok := none } parent (basename path) flags = some r := h
        unfold openIn at hin
        rw [hf'] at hin
        cases hin
      | some node =>
        by_cases hleaf : LeafRefused v flags node
        · exact .inl (.inr ⟨parent, node, hparent, hf, hleaf⟩)
        · exact .inr ⟨parent, node, hparent, hf, hleaf⟩

/-! ### Missing components -/

/-- A path some component of which is missing is reported: `vfs_get_parent` and `vfs_open`
return NULL, the code is `ENOENT`, and the tree is left alone. -/
structure MissingReported (buf : Nat) (v : Vfs) (path : CString) (flags : Nat) : Prop where
  parent : ∃ v', vfsGetParent v v.root path = some (none, v') ∧ SameTree v v'
  opened : ∃ v', vfsOpen buf v v.root path flags = some (none, v') ∧ v'.errno = ENOENT ∧
    SameTree v v'

/-- A lookup in a node returns. -/
theorem vfsFindNode_some (v : Vfs) (d : Nat) (name : CString) :
    ∃ node, vfsFindNode v (some d) name = some node := by
  unfold vfsFindNode
  dsimp only
  split <;> exact ⟨_, rfl⟩

/-- The failure is reported where the walk to the parent comes to nothing at its end. -/
theorem missingReported_iff {v : Vfs} {cs : List CString} (hne : cs ≠ [])
    (hcs : ∀ c ∈ cs, Component c) (buf flags : Nat) :
    MissingReported buf v (absPath cs) flags ↔ follow v v.root cs.dropLast = some none := by
  have hparent := vfsGetParent_absolute v v.root hne hcs
  constructor
  · rintro ⟨⟨v', hg, -⟩, -⟩
    rw [hparent] at hg
    obtain ⟨node, hfollow, heq⟩ := Option.map_eq_some_iff.mp hg
    obtain ⟨rfl, -⟩ := Prod.mk.inj heq
    exact hfollow
  · intro hfollow
    rw [hfollow] at hparent
    refine ⟨⟨_, hparent, rfl, rfl, rfl⟩, ?_⟩
    unfold vfsOpen
    rw [hparent]
    exact ⟨_, rfl, rfl, rfl, rfl, rfl⟩

/-- **When a missing component is reported.**  For every tree and every absolute path of
ordinary components of which some one but the last does not exist: the failure comes out as
it should exactly if all components before the last two exist, so that the one missing is
the last but one.  Otherwise `vfs_find_node` is called on NULL. -/
theorem missing_component_iff {v : Vfs} {r : Nat} (hroot : v.root = some r) {cs : List CString}
    (hcs : ∀ c ∈ cs, Ordinary c) (hmissing : ¬ ∃ d, follow v v.root cs.dropLast = some (some d))
    (buf flags : Nat) :
    MissingReported buf v (absPath cs) flags ↔
      ∃ d, follow v v.root cs.dropLast.dropLast = some (some d) := by
  have hinner : cs.dropLast ≠ [] := by
    intro hnil
    exact hmissing ⟨r, by rw [hnil, hroot]; rfl⟩
  have hne : cs ≠ [] := by
    rintro rfl
    exact hinner rfl
  rw [missingReported_iff hne fun c hc => (hcs c hc).1]
  have hwalk := follow_concat v v.root cs.dropLast.dropLast (cs.dropLast.getLast hinner)
  rw [List.dropLast_append_getLast] at hwalk
  constructor
  · intro hnone
    rw [hwalk] at hnone
    obtain ⟨node, hnode, hfind⟩ := Option.bind_eq_some_iff.mp hnone
    cases node with
    | none => cases hfind
    | some d => exact ⟨d, hnode⟩
  · rintro ⟨d, hd⟩
    obtain ⟨node, hfind⟩ := vfsFindNode_some v d (cs.dropLast.getLast hinner)
    rw [hd, Option.bind_some, hfind] at hwalk
    cases node with
    | none => exact hwalk
    | some m => exact absurd ⟨m, hwalk⟩ hmissing

/-- `/x/y`, below a root without `x`. -/
theorem missing_component_last : MissingReported 0x1000 newTask.vfs (absPath [['x'], ['y']]) 0 :=
  (missing_component_iff (r := 0) rfl (by decide) (by
    rintro ⟨d, hd⟩
    cases hd) 0x1000 0).mpr ⟨0, rfl⟩

/-- **A missing directory is walked through**: `/x/y/z`. -/
theorem missing_walked_through :
    ¬ ∀ (v : Vfs) (r : Nat) (cs : List CString), v.root = some r → (∀ c ∈ cs, Ordinary c) →
      (¬ ∃ d, follow v v.root cs.dropLast = some (some d)) →
      ∀ buf flags, MissingReported buf v (absPath cs) flags := by
  intro hclaim
  obtain ⟨⟨v', hg, -⟩, -⟩ := hclaim newTask.vfs 0 [['x'], ['y'], ['z']] rfl (by decide) (by
    rintro ⟨d, hd⟩
    cases hd) 0x1000 0
  cases hg

/-! ### A failed `sys_openat` -/

/-- If the call reports -1, the descriptors, `current_fd` and the tree are as before. -/
def FailedOpenAtomic (o : Outside) (k : KernelState) (stack : Stack) : Prop :=
  ∀ k' stack', syscallDispatch o k (toInt32 stack.rax) stack = some (k', stack') →
    stack'.rax = -1 →
    k'.sys.task.descriptors = k.sys.task.descriptors ∧
      k'.sys.task.currentFd = k.sys.task.currentFd ∧ SameTree k.sys.vfs k'.sys.vfs

/-- The condition: where the handler finds a parent, `vfs_open` does not refuse; and if it
opens something, no old code is left in `errno` and the number handed out is not -1. -/
def OpenAtomicOk (k : KernelState) (dirfd : Int) (path : CString) (mode : Nat) : Prop :=
  ∀ start parent, dirOf k.sys dirfd = some start →
    (vfsGetParent k.sys.vfs start path).map Prod.fst = some (some parent) →
    ¬ OpenRefused k.sys.vfs path mode ∧
      (OpenGranted k.sys.vfs path mode →
        k.errno = 0 ∧ BitVec.ofInt 64 k.sys.task.currentFd ≠ -1)

/-- The state after a descriptor was pushed. -/
def pushedFd (grant : Bool) (s : SysState) (v : Vfs) (file : Option Nat) : SysState :=
  { s with
    vfs := v
    task := { s.task with
      currentFd := s.task.currentFd + 1
      descriptors := vecPush grant s.task.descriptors ⟨s.task.currentFd, file⟩ } }

/-- What `sys_openat` does once it has a parent. -/
theorem sysOpenat_parent {buf : Nat} {grant : Bool} {s : SysState} {dirfd : Int} {path : CString}
    {mode : Nat} {start : Option Nat} {parent : Nat} (hdir : dirOf s dirfd = some start)
    (hparent : (vfsGetParent s.vfs start path).map Prod.fst = some (some parent)) :
    sysOpenat buf grant s dirfd path mode =
      (vfsOpen buf s.vfs start path mode).map fun r =>
        (s.task.currentFd, pushedFd grant s r.2 r.1) := by
  obtain ⟨⟨res, v'⟩, hg, rfl⟩ := Option.map_eq_some_iff.mp hparent
  obtain rfl := vfsGetParent_found hg
  unfold sysOpenat
  rw [hdir]
  dsimp only
  rw [hg]
  dsimp only
  have hopen : vfsOpen buf { s.vfs with strtok := none } (some parent) path mode
      = vfsOpen buf s.vfs start path mode := vfsOpen_strtok buf s.vfs none start path mode
  rw [hopen]
  cases vfsOpen buf s.vfs start path mode with
  | none => rfl
  | some r => rfl

/-- And without one. -/
theorem sysOpenat_noParent {buf : Nat} {grant : Bool} {s s' : SysState} {dirfd r : Int}
    {path : CString} {mode : Nat} {start : Option Nat} (hdir : dirOf s dirfd = some start)
    (hparent : ∀ parent, (vfsGetParent s.vfs start path).map Prod.fst ≠ some (some parent))
    (h : sysOpenat buf grant s dirfd path mode = some (r, s')) :
    s'.task = s.task ∧ SameTree s.vfs s'.vfs := by
  unfold sysOpenat at h
  rw [hdir] at h
  dsimp only at h
  cases hg : vfsGetParent s.vfs start path with
  | none =>
    rw [hg] at h
    cases h
  | some q =>
    obtain ⟨res, v⟩ := q
    cases res with
    | some parent => exact absurd (by rw [hg]; rfl) (hparent parent)
    | none =>
      obtain ⟨e, t, rfl⟩ := vfsGetParent_vfs hg
      rw [hg] at h
      obtain ⟨-, rfl⟩ := Prod.mk.inj (Option.some.inj h)
      exact ⟨rfl, rfl, rfl, rfl⟩

section

variable {o : Outside} {k k' : KernelState} {stack stack' : Stack} {dirfd mode : BitVec 32}
  {path : BitVec 64}

/-- The call through the dispatcher. -/
theorem dispatch_openat (hc : decodeCall (toInt32 stack.rax) stack = some (.openat dirfd path mode)) :
    syscallDispatch o k (toInt32 stack.rax) stack =
      (sysOpenat o.buf o.grant k.sys dirfd.toInt (cString k.sys.mem path.toNat maxString)
        mode.toNat).map fun r =>
          reportErrno { k with sys := r.2 } { stack with rax := BitVec.ofInt 64 r.1 } := by
  unfold syscallDispatch
  rw [hc, Option.bind_some]
  show Option.map _ (Option.map _ _) = _
  rw [Option.map_map]
  rfl

/-- What is reported leaves everything but `errno` alone. -/
theorem reportErrno_sys (k : KernelState) (stack : Stack) :
    (reportErrno k stack).1.sys.task = k.sys.task ∧
      SameTree k.sys.vfs (reportErrno k stack).1.sys.vfs := by
  unfold reportErrno
  split <;> exact ⟨rfl, rfl, rfl, rfl⟩

/-- A code, or the value -1, is reported as -1. -/
theorem reportErrno_rax (k : KernelState) (stack : Stack) :
    (reportErrno k stack).2.rax = -1 ↔ 0 < k.errno ∨ stack.rax = -1 := by
  unfold reportErrno
  split
  · next h => exact iff_of_true rfl (.inl h)
  · next h => exact ⟨.inr, fun hor => hor.resolve_left h⟩

/-- Where the handler finds a parent, a descriptor is pushed, so a call that changes nothing must
not be reported as failed. -/
theorem FailedOpenAtomic.openAtomicOk
    (hc : decodeCall (toInt32 stack.rax) stack = some (.openat dirfd path mode))
    (h : FailedOpenAtomic o k stack) :
    OpenAtomicOk k dirfd.toInt (cString k.sys.mem path.toNat maxString) mode.toNat := by
  unfold FailedOpenAtomic at h
  rw [dispatch_openat hc] at h
  generalize cString k.sys.mem path.toNat maxString = name at h ⊢
  generalize dirfd.toInt = dir at h ⊢
  intro start parent hdir hparent
  rw [sysOpenat_parent hdir hparent] at h
  have hpushed : ∀ r, vfsOpen o.buf k.sys.vfs start name mode.toNat = some r →
      ¬ (0 < r.2.errno ∨ BitVec.ofInt 64 k.sys.task.currentFd = -1) := by
    intro r hr hreported
    rw [hr] at h
    have hrun := h (reportErrno { k with sys := pushedFd o.grant k.sys r.2 r.1 }
      { stack with rax := BitVec.ofInt 64 k.sys.task.currentFd }).1 _ rfl
      ((reportErrno_rax _ _).mpr hreported)
    rw [(reportErrno_sys _ _).1] at hrun
    have hcount : k.sys.task.currentFd + 1 = k.sys.task.currentFd := hrun.2.1
    omega
  refine ⟨fun hrefused => ?_, fun hgranted => ?_⟩
  · obtain ⟨v', ho, -⟩ := hrefused.open o.buf start
    exact hpushed _ ho (.inl ((vfsOpen_errno ho).1 rfl))
  · obtain ⟨n, v', ho⟩ := hgranted.open o.buf start
    have hquiet : v'.errno = k.errno := (vfsOpen_errno ho).2 (by simp)
    have hnot := hpushed _ ho
    dsimp only at hnot
    rw [hquiet] at hnot
    exact ⟨by omega, fun hneg => hnot (.inr hneg)⟩

/-- Under the condition what is pushed was opened, and is not reported as failed. -/
theorem OpenAtomicOk.failedOpenAtomic
    (hc : decodeCall (toInt32 stack.rax) stack = some (.openat dirfd path mode))
    (hok : OpenAtomicOk k dirfd.toInt (cString k.sys.mem path.toNat maxString) mode.toNat) :
    FailedOpenAtomic o k stack := by
  intro k' stack' hd hrax
  rw [dispatch_openat hc] at hd
  generalize cString k.sys.mem path.toNat maxString = name at hok hd
  generalize dirfd.toInt = dir at hok hd
  obtain ⟨⟨r, s⟩, hopen, hreport⟩ := Option.map_eq_some_iff.mp hd
  obtain ⟨rfl, rfl⟩ := Prod.mk.inj hreport
  cases hdir : dirOf k.sys dir with
  | none =>
    unfold sysOpenat at hopen
    rw [hdir] at hopen
    cases hopen
  | some start =>
    by_cases hparent : ∃ parent,
        (vfsGetParent k.sys.vfs start name).map Prod.fst = some (some parent)
    · obtain ⟨parent, hparent⟩ := hparent
      obtain ⟨hnot, hgranted⟩ := hok start parent hdir hparent
      rw [sysOpenat_parent hdir hparent] at hopen
      obtain ⟨⟨file, v'⟩, ho, heq⟩ := Option.map_eq_some_iff.mp hopen
      obtain ⟨rfl, rfl⟩ := Prod.mk.inj heq
      have hgrant := (vfsOpen_outcome ho).resolve_left hnot
      obtain ⟨hclear, hne⟩ := hgranted hgrant
      obtain ⟨n, v₁, ho₁⟩ := hgrant.open o.buf start
      obtain ⟨rfl, rfl⟩ := Prod.mk.inj (Option.some.inj (ho₁.symm.trans ho))
      have hquiet : v₁.errno = k.errno := (vfsOpen_errno ho).2 (by simp)
      rcases (reportErrno_rax _ _).mp hrax with hcode | hneg
      · have hzero : v₁.errno = 0 := hquiet.trans hclear
        exact absurd (show 0 < v₁.errno from hcode) (by omega)
      · exact absurd hneg hne
    · -- without a parent nothing is pushed
      obtain ⟨htask, htree⟩ := sysOpenat_noParent hdir (fun p hp => hparent ⟨p, hp⟩) hopen
      obtain ⟨htask', htree'⟩ := reportErrno_sys { k with sys := s }
        { stack with rax := BitVec.ofInt 64 r }
      have hsame := htask'.trans htask
      exact ⟨congrArg FileTask.descriptors hsame, congrArg FileTask.currentFd hsame,
        htree'.nodes.trans htree.nodes, htree'.next.trans htree.next,
        htree'.root.trans htree.root⟩

/-- **When a failed open changes nothing.**  For every task, path and flags, a call of
`sys_openat` that reports -1 has left the descriptors, `current_fd` and the tree as they were
exactly under the condition. -/
theorem open_atomic_iff (hc : decodeCall (toInt32 stack.rax) stack = some (.openat dirfd path mode)) :
    FailedOpenAtomic o k stack ↔
      OpenAtomicOk k dirfd.toInt (cString k.sys.mem path.toNat maxString) mode.toNat :=
  ⟨fun h => h.openAtomicOk hc, fun h => h.failedOpenAtomic hc⟩

end

/-- The first task opens `/bin/init` after boot: nothing is reported. -/
theorem open_atomic_init : FailedOpenAtomic initOutside initKernel openInit := by
  have hdecode : decodeCall (toInt32 openInit.rax) openInit = some (.openat (-100) 0x7000 0) := rfl
  refine (open_atomic_iff hdecode).mpr ?_
  intro start parent _ _
  have hopened : (vfsOpen initOutside.buf initKernel.sys.vfs none
      (cString initKernel.sys.mem 0x7000 maxString) 0).any fun r => r.1.isSome := by
    decide +kernel
  refine ⟨fun hrefused => ?_, fun _ => ⟨by decide +kernel, by decide +kernel⟩⟩
  obtain ⟨v', ho, -⟩ := hrefused.open initOutside.buf none
  rw [show (0 : BitVec 32).toNat = 0 from rfl, show (0x7000 : BitVec 64).toNat = 0x7000 from rfl] at ho
  rw [ho] at hopened
  cases hopened

/-- `sys_openat(AT_FDCWD, "init")`. -/
def openMissing : Stack :=
  { openInit with rsi := 0x7005 }

/-- **A failed open takes a descriptor**: the first task asks for `init`, which the root does
not have; the call reports -1 and `current_fd` has been counted up. -/
theorem failed_open_pushes :
    ¬ ∀ (o : Outside) (k : KernelState) (stack : Stack) (dirfd : BitVec 32) (path : BitVec 64)
      (mode : BitVec 32), BootedKernel k →
      decodeCall (toInt32 stack.rax) stack = some (.openat dirfd path mode) →
        FailedOpenAtomic o k stack := by
  intro hclaim
  have hatomic := hclaim initOutside initKernel openMissing (-100) 0x7005 0 initKernel_bootedKernel rfl
  have hcall : (syscallDispatch initOutside initKernel (toInt32 openMissing.rax) openMissing).any
      fun r => r.2.rax = -1 ∧ r.1.sys.task.currentFd ≠ initKernel.sys.task.currentFd := by
    decide +kernel
  obtain ⟨⟨k', stack'⟩, hrun, hpushed⟩ := (Option.any_eq_true _ _).mp hcall
  obtain ⟨hreported, hcount⟩ := of_decide_eq_true hpushed
  exact hcount (hatomic k' stack' hrun hreported).2.1

end BestOS
