/-
BestOS/OpenAt.lean

`sys_openat` relative to a directory.

Opening `R` relative to a directory `D` should be the same as opening `P/R`,
where `P` is the path of `D`.  Four functions read the path on their own:

* `sys_openat` calls `vfs_get_parent` from `D`, as a check only;
* `vfs_get_parent` leaves out the first component of a relative path;
* `vfs_open` ignores the start it is given and begins at the root;
* `basename` returns a relative path whole.

So a relative path of two components or more is looked up as one name with a
slash in it, which no node has, and a single component is looked up in the root
whatever `D` is.  `openat_relative_iff` says exactly when the two calls agree:
`D` is the root and `R` is one component.
-/
import BestOS.Syscalls
import BestOS.VfsTree

namespace BestOS

/-! ### The contract -/

/-- A tree as its directories are meant to be: every child has a name without
slashes and one parent, the root is no child and has no dot entries, and only
dot entries point elsewhere. -/
structure TreeOk (v : Vfs) (root : Nat) : Prop where
  isRoot : v.root = some root
  names : ∀ i, ∀ c ∈ (v.nodes i).children, Component (v.nodes c).name
  parents : ∀ i j c, c ∈ (v.nodes i).children → c ∈ (v.nodes j).children → i = j
  top : ∀ i, root ∉ (v.nodes i).children
  rootDots : ∀ c ∈ (v.nodes root).children, ¬ Dot (v.nodes c).name
  rootPlain : (v.nodes root).pointsTo = none
  dots : ∀ i, (v.nodes i).pointsTo ≠ none → Dot (v.nodes i).name

/-- The node a call to `sys_openat` opened: the file of the descriptor it
pushed, if it pushed one. -/
def openedNode (s : SysState) : Option (Int × SysState) → Option Nat
  | none => none
  | some (_, s') =>
    if s'.task.descriptors.length = s.task.descriptors.length then none
    else (s'.task.descriptors.data s.task.descriptors.length).bind FileDescriptor.file

/-- With `dirfd` for the directory `D` and `rootfd` for the root, opening `R` from
`D` opens the node that opening `P/R` opens, whatever the mode; and the parent
is the directory reached from `D` by all components of `R` but the last. -/
def OpensSame (s : SysState) (dirfd rootfd : Int) (dir : Nat) (P R : List CString) : Prop :=
  (∀ buf mode, openedNode s (sysOpenat buf true s dirfd (relPath R) mode) =
    openedNode s (sysOpenat buf true s rootfd (absPath (P ++ R)) mode)) ∧
  (vfsGetParent s.vfs (some dir) (relPath R)).map Prod.fst = follow s.vfs (some dir) R.dropLast

/-! ### What `sys_openat` opens -/

/-- Once the check passes, the node opened is what `vfs_open` returns. -/
theorem openedNode_sysOpenat {s : SysState} {dirfd : Int} {start : Option Nat} {path : CString}
    {parent : Nat} {v : Vfs} (hdir : dirOf s dirfd = some start)
    (hpar : vfsGetParent s.vfs start path = some (some parent, v)) (buf mode : Nat) :
    openedNode s (sysOpenat buf true s dirfd path mode) =
      (vfsOpen buf v (some parent) path mode).bind Prod.fst := by
  unfold sysOpenat
  rw [hdir]
  dsimp only
  rw [hpar]
  dsimp only
  cases vfsOpen buf v (some parent) path mode with
  | none => rfl
  | some r =>
    obtain ⟨file, v'⟩ := r
    dsimp only [openedNode]
    rcases vecPush_cases true s.task.descriptors ⟨s.task.currentFd, file⟩ with ⟨c, hc⟩ | ⟨hno, -⟩
    · rw [hc]
      dsimp only
      rw [if_neg (Nat.succ_ne_self _), if_pos rfl]
      rfl
    · cases hno

/-- When the check fails nothing is opened. -/
theorem openedNode_refused {s : SysState} {dirfd : Int} {start : Option Nat} {path : CString}
    (hdir : dirOf s dirfd = some start)
    (hpar : ∀ parent v, vfsGetParent s.vfs start path ≠ some (some parent, v)) (buf mode : Nat) :
    openedNode s (sysOpenat buf true s dirfd path mode) = none := by
  unfold sysOpenat
  rw [hdir]
  dsimp only
  cases hg : vfsGetParent s.vfs start path with
  | none => rfl
  | some r =>
    obtain ⟨parent, v⟩ := r
    cases parent with
    | some parent => exact absurd hg (hpar parent v)
    | none =>
      dsimp only [openedNode]
      rw [if_pos rfl]

/-- Opened as a directory, an existing node gives itself or what it points to. -/
theorem openIn_directory {v : Vfs} {buf parent n : Nat} {name : CString}
    (hf : vfsFindNode v (some parent) name = some (some n)) :
    (openIn buf v parent name O_DIRECTORY).bind Prod.fst =
      some ((v.nodes n).pointsTo.getD n) := by
  unfold openIn
  rw [hf]
  dsimp only
  rw [if_neg (fun hc => absurd hc.1 (by decide)), if_neg (by decide)]
  have hp : ((setNode v n fun n => { n with oMode := O_DIRECTORY }).nodes n).pointsTo =
      (v.nodes n).pointsTo := by
    simp only [setNode, Function.update_self]
  rw [hp]
  cases (v.nodes n).pointsTo <;> rfl

/-- Opened without `O_CREAT`, a name that is not there gives nothing. -/
theorem openIn_missing {v : Vfs} {buf parent : Nat} {name : CString}
    (hf : vfsFindNode v (some parent) name = some none) :
    (openIn buf v parent name O_DIRECTORY).bind Prod.fst = none := by
  unfold openIn
  rw [hf]
  dsimp only
  rw [if_neg (fun hc => absurd hc.1 (by decide)), if_neg (by decide)]
  rfl

/-- From the root, the absolute call opens the node the path leads to. -/
theorem opened_absolute {s : SysState} {rootfd : Int} {cs : List CString} {n : Nat} (hne : cs ≠ [])
    (hcs : ∀ c ∈ cs, Component c) (hroot : dirOf s rootfd = some s.vfs.root)
    (hf : follow s.vfs s.vfs.root cs = some (some n)) (buf : Nat) :
    openedNode s (sysOpenat buf true s rootfd (absPath cs) O_DIRECTORY) =
      some ((s.vfs.nodes n).pointsTo.getD n) := by
  rw [← List.dropLast_append_getLast hne, follow_concat] at hf
  obtain ⟨parent, hpar, hlast⟩ := Option.bind_eq_some_iff.mp hf
  cases parent with
  | none => cases hlast
  | some parent =>
    have hget : vfsGetParent s.vfs s.vfs.root (absPath cs) =
        some (some parent, { s.vfs with strtok := none }) := by
      rw [vfsGetParent_absolute s.vfs s.vfs.root hne hcs, hpar]
      rfl
    have hpar' : follow { s.vfs with strtok := none } s.vfs.root cs.dropLast =
        some (some parent) := by
      rw [follow_congr (show { s.vfs with strtok := none }.nodes = s.vfs.nodes from rfl)]
      exact hpar
    rw [openedNode_sysOpenat hroot hget, vfsOpen_absolute hne hcs hpar']
    exact openIn_directory hlast

/-! ### Relative paths -/

theorem basename_relPath {c : CString} {cs : List CString} (hc : Component c) :
    basename (relPath (c :: cs)) = relPath (c :: cs) := by
  refine basename_relative ?_
  obtain ⟨a, c, rfl⟩ := List.exists_cons_of_ne_nil hc.1
  have hhead : (relPath ((a :: c) :: cs)).head? = some a := by
    cases cs with
    | nil => rfl
    | cons d cs => rfl
  rw [hhead]
  intro heq
  rw [Option.some.inj heq] at hc
  exact hc.2 List.mem_cons_self

theorem slash_mem_relPath {cs : List CString} (h : 2 ≤ cs.length) : '/' ∈ relPath cs := by
  match cs, h with
  | c :: d :: cs, _ =>
    unfold relPath
    rw [List.intercalate_cons_cons]
    simp

/-- No node has a name with a slash. -/
theorem TreeOk.find_slash {v : Vfs} {root : Nat} (h : TreeOk v root) {name : CString}
    (hslash : '/' ∈ name) (p : Nat) : vfsFindNode v (some p) name = some none := by
  have hnone : ∀ dir, findChild v dir name = none := by
    intro dir
    cases hf : findChild v dir name with
    | none => rfl
    | some c =>
      obtain ⟨hmem, hname⟩ := findChild_mem hf
      exact absurd hslash (hname ▸ (h.names dir c hmem).2)
  unfold vfsFindNode
  dsimp only
  split <;> simp [hnone]

/-- A relative path of two components or more opens nothing. -/
theorem TreeOk.opened_many {s : SysState} {root : Nat} (h : TreeOk s.vfs root) {dirfd : Int}
    {start : Option Nat} (hdir : dirOf s dirfd = some start) {R : List CString}
    (hlen : 2 ≤ R.length) (hR : ∀ c ∈ R, Component c) (buf : Nat) :
    openedNode s (sysOpenat buf true s dirfd (relPath R) O_DIRECTORY) = none := by
  have hbase : basename (relPath R) = relPath R := by
    match R, hlen with
    | c :: cs, _ => exact basename_relPath (hR c List.mem_cons_self)
  have hget := fun (v : Vfs) (start : Option Nat) => vfsGetParent_relative v start hlen hR
  cases hf : follow s.vfs start R.tail.dropLast with
  | none =>
    refine openedNode_refused hdir (fun parent v hg => ?_) buf _
    rw [hget, hf] at hg
    cases hg
  | some parent =>
    cases parent with
    | none =>
      refine openedNode_refused hdir (fun parent v hg => ?_) buf _
      rw [hget, hf] at hg
      cases hg
    | some parent =>
      have hpar : vfsGetParent s.vfs start (relPath R) =
          some (some parent, { s.vfs with strtok := none }) := by
        rw [hget, hf]
        rfl
      rw [openedNode_sysOpenat hdir hpar]
      -- `vfs_open` starts again at the root, with the whole path as the name
      unfold vfsOpen
      rw [hget, hbase]
      cases follow { s.vfs with strtok := none } s.vfs.root R.tail.dropLast with
      | none => rfl
      | some parent' =>
        cases parent' with
        | none => rfl
        | some parent' => exact openIn_missing (h.find_slash (slash_mem_relPath hlen) parent')

/-- A single component is looked up in the root. -/
theorem TreeOk.opened_single {s : SysState} {root : Nat} (h : TreeOk s.vfs root) {dirfd : Int}
    {dir : Nat} (hdir : dirOf s dirfd = some (some dir)) {c : CString} (hc : Component c)
    (buf mode : Nat) :
    openedNode s (sysOpenat buf true s dirfd (relPath [c]) mode) =
      (openIn buf { s.vfs with strtok := none } root c mode).bind Prod.fst := by
  have hbase : basename (relPath [c]) = c := (basename_relPath hc).trans (List.intercalate_singleton ..)
  rw [openedNode_sysOpenat hdir (vfsGetParent_single s.vfs dir hc)]
  unfold vfsOpen
  dsimp only
  rw [h.isRoot, hbase, vfsGetParent_single _ root hc]

/-- A node reached by an ordinary path of one component or more is neither the
root nor a dot entry. -/
theorem TreeOk.below_root {v : Vfs} {root : Nat} (h : TreeOk v root) {P : List CString}
    (hne : P ≠ []) (hP : ∀ c ∈ P, Ordinary c) {start : Option Nat} {dir : Nat}
    (hf : follow v start P = some (some dir)) : dir ≠ root ∧ (v.nodes dir).pointsTo = none := by
  rw [← List.dropLast_append_getLast hne, follow_concat] at hf
  obtain ⟨parent, -, hlast⟩ := Option.bind_eq_some_iff.mp hf
  obtain ⟨i, hmem, hname⟩ := vfsFindNode_cases hlast
  refine ⟨?_, ?_⟩
  · rintro rfl
    exact h.top i hmem
  · by_contra hpoints
    exact (hP _ (List.getLast_mem hne)).2 (hname ▸ h.dots dir hpoints)

/-- A single component opened from a directory below the root is not the node of
that name in the root. -/
theorem TreeOk.single_ne {v : Vfs} {root : Nat} (h : TreeOk v root) {dir n : Nat} {c : CString}
    (hdir : dir ≠ root) (hn : findChild v dir c = some n) (buf : Nat) :
    (openIn buf { v with strtok := none } root c O_DIRECTORY).bind Prod.fst ≠
      some ((v.nodes n).pointsTo.getD n) := by
  have hfind : vfsFindNode { v with strtok := none } (some root) c = some (findChild v root c) := by
    unfold vfsFindNode
    dsimp only
    rw [h.rootPlain]
    rfl
  cases hc : findChild v root c with
  | none =>
    rw [hc] at hfind
    rw [openIn_missing hfind]
    intro heq
    cases heq
  | some n₀ =>
    rw [hc] at hfind
    rw [openIn_directory hfind]
    obtain ⟨hmem₀, hname₀⟩ := findChild_mem hc
    obtain ⟨hmem, hname⟩ := findChild_mem hn
    -- the root has no dot entries, so neither node points elsewhere
    have hdot : ¬ Dot c := hname₀ ▸ h.rootDots n₀ hmem₀
    have hplain : ∀ m, (v.nodes m).name = c → (v.nodes m).pointsTo = none := by
      intro m hm
      by_contra hpoints
      exact hdot (hm ▸ h.dots m hpoints)
    show some ((v.nodes n₀).pointsTo.getD n₀) ≠ _
    rw [hplain n hname, hplain n₀ hname₀]
    intro heq
    -- one node would then be a child of two directories
    obtain rfl : n₀ = n := Option.some.inj heq
    exact hdir (h.parents dir root n₀ hmem hmem₀)

/-- **When opening relative to a directory is right.**  In a tree as it is meant
to be, for a directory at the ordinary path `P` and an existing relative path
`R`, `sys_openat` relative to the directory opens what it opens for `P/R`, and
finds the right parent, exactly when the directory is the root and `R` is a
single component. -/
theorem openat_relative_iff {s : SysState} {root : Nat} (h : TreeOk s.vfs root)
    {dirfd rootfd : Int} {dir n : Nat} {P R : List CString} (hP : ∀ c ∈ P, Ordinary c)
    (hdirP : follow s.vfs s.vfs.root P = some (some dir)) (hne : R ≠ [])
    (hR : ∀ c ∈ R, Component c) (hexists : follow s.vfs (some dir) R = some (some n))
    (hdir : dirOf s dirfd = some (some dir)) (hroot : dirOf s rootfd = some s.vfs.root) :
    OpensSame s dirfd rootfd dir P R ↔ P = [] ∧ R.length = 1 := by
  have hall : ∀ c ∈ P ++ R, Component c := by
    intro c hc
    rcases List.mem_append.mp hc with hc | hc
    · exact (hP c hc).1
    · exact hR c hc
  have hwhole : follow s.vfs s.vfs.root (P ++ R) = some (some n) := by
    rw [follow_append, hdirP, Option.bind_some]
    exact hexists
  constructor
  · rintro ⟨hsame, -⟩
    have habs := opened_absolute (show P ++ R ≠ [] by simp [hne]) hall hroot hwhole 0
    have hopen := (hsame 0 O_DIRECTORY).trans habs
    -- with two components or more nothing is opened
    have hlen : R.length = 1 := by
      by_contra hlen
      have hpos := List.length_pos_iff.mpr hne
      rw [h.opened_many hdir (by omega) hR] at hopen
      cases hopen
    refine ⟨?_, hlen⟩
    by_contra hPne
    obtain ⟨c, rfl⟩ := List.length_eq_one_iff.mp hlen
    -- with one, from a directory below the root, another node is
    obtain ⟨hbelow, hplain⟩ := h.below_root hPne hP hdirP
    have hfind : findChild s.vfs dir c = some n := by
      rw [follow] at hexists
      obtain ⟨m, hm, hrest⟩ := Option.bind_eq_some_iff.mp hexists
      obtain rfl : m = some n := Option.some.inj hrest
      unfold vfsFindNode at hm
      dsimp only at hm
      rw [hplain] at hm
      exact Option.some.inj hm
    rw [h.opened_single hdir (hR c List.mem_cons_self)] at hopen
    exact h.single_ne hbelow hfind 0 hopen
  · rintro ⟨rfl, hlen⟩
    obtain ⟨c, rfl⟩ := List.length_eq_one_iff.mp hlen
    have hc := hR c List.mem_cons_self
    -- both calls look for the one component in the root
    obtain rfl : dir = root := by
      have heq : s.vfs.root = some dir := Option.some.inj hdirP
      rw [h.isRoot] at heq
      exact (Option.some.inj heq).symm
    refine ⟨fun buf mode => ?_, ?_⟩
    · have hget : vfsGetParent s.vfs s.vfs.root (absPath [c]) =
          some (some dir, { s.vfs with strtok := none }) := by
        rw [vfsGetParent_absolute s.vfs s.vfs.root hne hR]
        show (follow s.vfs s.vfs.root []).map _ = _
        rw [hdirP]
        rfl
      have hpar : follow { s.vfs with strtok := none } s.vfs.root [] = some (some dir) := hdirP
      rw [h.opened_single hdir hc, List.nil_append, openedNode_sysOpenat hroot hget,
        vfsOpen_absolute hne hR hpar]
      rfl
    · rw [vfsGetParent_single s.vfs dir hc]
      rfl

/-! ### A file in a directory -/

/-- A tree with one file, `/f`. -/
def flatTree : Vfs :=
  { noVfs with
    nodes := fun i =>
      if i = 0 then
        { zeroNode with
          type := .directory
          name := ['/']
          parent := some 0
          children := [1] }
      else if i = 1 then
        { zeroNode with
          name := ['f']
          parent := some 0 }
      else zeroNode
    next := 2
    root := some 0 }

theorem flatTree_child {i c : Nat} (h : c ∈ (flatTree.nodes i).children) : i = 0 ∧ c = 1 := by
  unfold flatTree at h
  dsimp only at h
  split at h
  · exact ⟨by assumption, List.mem_singleton.mp h⟩
  · split at h
    · cases h
    · cases h

theorem flatTree_plain (i : Nat) : (flatTree.nodes i).pointsTo = none := by
  unfold flatTree
  dsimp only
  split
  · rfl
  · split <;> rfl

theorem flatTree_ok : TreeOk flatTree 0 where
  isRoot := rfl
  names := by
    intro i c hc
    rw [(flatTree_child hc).2]
    decide
  parents := by
    intro i j c hi hj
    rw [(flatTree_child hi).1, (flatTree_child hj).1]
  top := by
    intro i hi
    exact absurd (flatTree_child hi).2 (by decide)
  rootDots := by
    intro c hc
    rw [(flatTree_child hc).2]
    decide
  rootPlain := rfl
  dots := by
    intro i hi
    exact absurd (flatTree_plain i) hi

/-- A task whose working directory is node `cwd` of the tree `v`. -/
def taskAt (v : Vfs) (cwd : Nat) : SysState where
  vfs := v
  task :=
    { currentFd := 0
      descriptors := vecPush true vecInit ⟨0, v.root⟩
      cwd := some cwd }
  mem := fun _ => 0
  freed := []
  input := []

/-- From the root, `f` and `/f` open the same file. -/
theorem openat_relative_iff_flatTree :
    OpensSame (taskAt flatTree 0) AT_FDCWD 0 0 [] [['f']] :=
  (openat_relative_iff (s := taskAt flatTree 0) flatTree_ok (by simp) rfl (by simp) (by decide)
    (show _ = some (some 1) from rfl) rfl rfl).mpr ⟨rfl, rfl⟩

/-- The tree after `vfs_mount("/", tmpfs())` and `vfs_mkdir("/a")`, which makes
node 1. -/
def dirTree : Vfs :=
  ((vfsMkdir ((vfsMount noVfs ['/'] .tmpfs).getD noVfs) ['/', 'a']).getD (none, noVfs)).2

/-- `dirTree` after the file `/a/f` was created, as node 4. -/
def deepTree : Vfs :=
  ((vfsOpen 0 dirTree none ['/', 'a', '/', 'f'] O_CREAT).getD (none, noVfs)).2

theorem deepTree_built : VfsBuilt deepTree := by
  have hmount : vfsMount noVfs ['/'] .tmpfs = some ((vfsMount noVfs ['/'] .tmpfs).getD noVfs) := rfl
  have hmkdir : vfsMkdir ((vfsMount noVfs ['/'] .tmpfs).getD noVfs) ['/', 'a'] =
      some (some 1, dirTree) := rfl
  have hopen : vfsOpen 0 dirTree none ['/', 'a', '/', 'f'] O_CREAT = some (some 4, deepTree) := rfl
  exact .opened (.mkdir (.mount (.empty rfl fun _ => rfl) hmount) hmkdir) hopen

/-- **From `/a`, the path `f` does not open `/a/f`.**  It is looked up in the
root, where there is no `f`. -/
theorem openat_from_dir_not_same :
    ¬ ∀ (s : SysState) (dirfd rootfd : Int) (dir n : Nat) (P R : List CString),
      VfsBuilt s.vfs → (∀ c ∈ P, Ordinary c) → follow s.vfs s.vfs.root P = some (some dir) →
      R ≠ [] → (∀ c ∈ R, Ordinary c) → follow s.vfs (some dir) R = some (some n) →
      dirOf s dirfd = some (some dir) → dirOf s rootfd = some s.vfs.root →
      OpensSame s dirfd rootfd dir P R := by
  intro hclaim
  have hsame := (hclaim (taskAt deepTree 1) AT_FDCWD 0 1 4 [['a']] [['f']] deepTree_built
    (by decide) rfl (by simp) (by decide) rfl rfl rfl).1 0 O_DIRECTORY
  have hrel : openedNode (taskAt deepTree 1)
      (sysOpenat 0 true (taskAt deepTree 1) AT_FDCWD (relPath [['f']]) O_DIRECTORY) = none := rfl
  have habs : openedNode (taskAt deepTree 1)
      (sysOpenat 0 true (taskAt deepTree 1) 0 (absPath ([['a']] ++ [['f']])) O_DIRECTORY) =
        some 4 := rfl
  rw [hrel, habs] at hsame
  cases hsame

end BestOS
