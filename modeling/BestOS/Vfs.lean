/-
BestOS/Vfs.lean

The virtual filesystem of `kernel/fs/vfs.c`.

The nodes live in blocks that `malloc` hands out.  A block is known by its
number; `nodes` holds what is in every block, allocated or not, and `next`
counts the allocated ones, so a fresh node starts out with whatever its block
held before.  A pointer is `Option Nat`, `none` for NULL.  The children of a
node are only ever pushed, so they are a list.

A function that would dereference NULL has no result: the outer `Option` of
`vfsFindNode`, `vfsGetParent`, `vfsMkdir`, `vfsMount` and `vfsOpen` is `none`
exactly then.

The path functions come down to one walk, `follow`, which calls
`vfs_find_node` along a list of names.  For an absolute path `vfs_get_parent`
follows all components but the last (`vfsGetParent_absolute`); for a relative
one it also leaves out the first (`vfsGetParent_relative`).
-/
import BestOS.Str
import Mathlib.Logic.Function.Basic

namespace BestOS

/-! ### Data -/

inductive VfsNodeType
  | file
  | directory
  deriving DecidableEq

/-- The filesystems that are mounted, by their `read` and `write`. -/
inductive Filesystem
  | tmpfs
  | devfs
  deriving DecidableEq

structure Mountpoint where
  fs : Option Filesystem
  root : Option Nat

/-- `VfsNode`; of `stat` only `st_size` is used. -/
structure VfsNode where
  type : VfsNodeType
  name : CString
  parent : Option Nat
  pointsTo : Option Nat
  children : List Nat
  mountpoint : Option Nat
  stSize : Int
  cursor : Nat
  oMode : Nat
  address : Nat
  internalAddress : Nat
  init : Bool

/-- The statics of `vfs.c`, the blocks of nodes and mount points, `errno`, and
the static pointer of `strtok`.  Nothing reads `mountpoints[]`, so of the table only
the number of its entries is kept. -/
structure Vfs where
  nodes : Nat → VfsNode
  next : Nat
  mounts : Nat → Mountpoint
  nextMount : Nat
  mountpointsN : Nat
  root : Option Nat
  errno : Nat
  strtok : Option CString

def O_APPEND : Nat := 0x0008
def O_CREAT : Nat := 0x0010
def O_DIRECTORY : Nat := 0x0020
def ENOENT : Nat := 1043
def EISDIR : Nat := 1029

/-- Assignments to fields of one node. -/
def setNode (v : Vfs) (i : Nat) (f : VfsNode → VfsNode) : Vfs :=
  { v with nodes := Function.update v.nodes i (f (v.nodes i)) }

/-- `malloc(sizeof(VfsNode))` and the assignments that follow it. -/
def newNode (v : Vfs) (f : VfsNode → VfsNode) : Nat × Vfs :=
  (v.next, setNode { v with next := v.next + 1 } v.next f)

/-- `malloc(sizeof(Mountpoint))`. -/
def mallocMount (v : Vfs) : Nat × Vfs := (v.nextMount, { v with nextMount := v.nextMount + 1 })

/-- `vec_push(&node->children, child)`. -/
def pushChild (v : Vfs) (i child : Nat) : Vfs :=
  setNode v i fun n => { n with children := n.children ++ [child] }

/-! ### Looking up -/

/-- The loop of `vfs_parse_path`. -/
def parseLoop : Nat → Option CString → Option CString → List CString × Option CString
  | 0, _, s => ([], s)
  | _ + 1, none, s => ([], s)
  | fuel + 1, some segment, s =>
    let (next, s) := strtok s none ['/']
    let (segments, s) := parseLoop fuel next s
    (segment :: segments, s)

/-- `vfs_parse_path`, with the static pointer of `strtok` before and after.  A
path of `n` characters has at most `n + 1` segments. -/
def vfsParsePath (s : Option CString) (path : CString) : List CString × Option CString :=
  let (segment, s) := strtok s (some path) ['/']
  parseLoop (strlen path + 2) segment s

/-- One loop of `vfs_find_node`: the first child of `dir` with that name. -/
def findChild (v : Vfs) (dir : Nat) (name : CString) : Option Nat :=
  (v.nodes dir).children.find? fun c => strEq name (v.nodes c).name

/-- `vfs_find_node`. -/
def vfsFindNode (v : Vfs) (start : Option Nat) (name : CString) : Option (Option Nat) :=
  match start with
  | none => none
  | some start =>
    match (v.nodes start).pointsTo with
    | none => some (findChild v start name)
    | some target => some ((findChild v target name).or (findChild v start name))

/-- The loop of `vfs_get_parent` from the position where the given segments
remain; `n` is `segments.length`. -/
def getParentLoop (v : Vfs) (start : Option Nat) (n : Nat) (node : Option Nat) :
    List CString → Option (Option Nat × Vfs)
  | segment :: next :: rest =>
    if strlen segment ≠ 0 then
      -- the last component is behind this one
      if rest = [] then
        some (node, v)
      else
        match vfsFindNode v node next with
        | none => none
        | some node => getParentLoop v start n node (next :: rest)
    else if n = 2 then
      -- an empty segment: the path starts with a slash
      some (start, v)
    else
      match vfsFindNode v start next with
      | none => none
      | some node => getParentLoop v start n node (next :: rest)
  | _ => some (node, if node = none then { v with errno := ENOENT } else v)

/-- `vfs_get_parent`. -/
def vfsGetParent (v : Vfs) (start : Option Nat) (path : CString) : Option (Option Nat × Vfs) :=
  let (segments, s) := vfsParsePath v.strtok path
  getParentLoop { v with strtok := s } start segments.length start segments

/-- What `vfs_get_parent` finds from the root; it does not return where it would
dereference NULL. -/
def parentFromRoot (v : Vfs) (path : CString) : Option (Option Nat) :=
  (vfsGetParent v v.root path).map Prod.fst

/-! ### Changing the tree -/

/-- The assignments to a new directory. -/
def emptyDir (n : VfsNode) : VfsNode :=
  { n with
    type := .directory
    children := [] }

/-- The assignments to the entries `..` and `.` of a new directory; their
children are not initialised. -/
def dotEntry (name : CString) (target : Nat) (n : VfsNode) : VfsNode :=
  { n with
    type := .directory
    name := name
    pointsTo := some target }

/-- The assignments to the root directory. -/
def rootDir (node mountpoint : Nat) (n : VfsNode) : VfsNode :=
  { n with
    parent := some node
    mountpoint := some mountpoint
    name := ['/'] }

/-- The assignments to a directory whose parent was looked up. -/
def namedDir (parent : Option Nat) (name : CString) (n : VfsNode) : VfsNode :=
  { n with
    parent := parent
    name := name }

/-- The end of `vfs_mkdir`: the entries `..` and `.` are made and pushed, and
the new directory is pushed to its parent. -/
def linkDir (v : Vfs) (node parent : Nat) : Vfs :=
  let (prevDir, v) := newNode v (dotEntry ['.', '.'] parent)
  let (currDir, v) := newNode v (dotEntry ['.'] node)
  let v := pushChild v node prevDir
  let v := pushChild v node currDir
  pushChild v parent node

/-- `vfs_mkdir`. -/
def vfsMkdir (v : Vfs) (path : CString) : Option (Option Nat × Vfs) :=
  let (node, v) := newNode v emptyDir
  if strEq path ['/'] then
    let (m, v) := mallocMount v
    some (some node, setNode v node (rootDir node m))
  else
    match vfsGetParent v v.root path with
    | none => none
    | some (parent, v) =>
      let v := setNode v node (namedDir parent (basename path))
      match parent, v.root with
      | none, _ => some (none, { v with errno := ENOENT })
      -- `root` is NULL, and its mount point is read
      | some _, none => none
      | some parent, some root =>
        let v := setNode v node fun n => { n with mountpoint := (v.nodes root).mountpoint }
        some (some node, linkDir v node parent)

/-- `mountpoints[mountpoints_n++]`, of 64 entries: there is no result where the next one
would be behind the table. -/
def pushMountpoint (v : Vfs) : Option Vfs :=
  if v.mountpointsN < 64 then some { v with mountpointsN := v.mountpointsN + 1 } else none

/-- `vfs_mount`. -/
def vfsMount (v : Vfs) (path : CString) (fs : Filesystem) : Option Vfs :=
  match vfsMkdir v path with
  | none => none
  | some (none, _) => none
  | some (some node, v') =>
    match v.root with
    | none =>
      match (v'.nodes node).mountpoint with
      | none => none
      | some m =>
        pushMountpoint { v' with
          root := some node
          mounts := Function.update v'.mounts m ⟨some fs, some node⟩ }
    | some _ =>
      -- below the root: `root` of the mount point is not set
      let (m, v') := mallocMount v'
      let v' := setNode v' node fun n => { n with mountpoint := some m }
      pushMountpoint { v' with
        mounts := Function.update v'.mounts m { v'.mounts m with fs := some fs } }

theorem pushMountpoint_eq {v v' : Vfs} (h : pushMountpoint v = some v') :
    v' = { v with mountpointsN := v.mountpointsN + 1 } := by
  unfold pushMountpoint at h
  split at h
  · exact (Option.some.inj h).symm
  · cases h

/-- The assignments to a file that `vfs_open` creates. -/
def newFile (name : CString) (parent flags : Nat) (mountpoint : Option Nat) (buf : Nat)
    (n : VfsNode) : VfsNode :=
  { n with
    name := name
    type := .file
    parent := some parent
    oMode := flags
    mountpoint := mountpoint
    address := buf }

/-- `vfs_open` once the parent is found; `buf` is the address `malloc(2)`
returns for a new file. -/
def openIn (buf : Nat) (v : Vfs) (parent : Nat) (name : CString) (flags : Nat) :
    Option (Option Nat × Vfs) :=
  match vfsFindNode v (some parent) name with
  | none => none
  | some node =>
    -- a directory is refused unless it is asked for
    if flags &&& O_DIRECTORY = 0 ∧ node.any (fun n => (v.nodes n).type = .directory) then
      some (none, { v with errno := EISDIR })
    else if flags &&& O_CREAT ≠ 0 then
      match node with
      | some n => some (some n, setNode v n fun n => { n with oMode := flags })
      | none =>
        let (ret, v) := newNode v (newFile name parent flags (v.nodes parent).mountpoint buf)
        some (some ret, pushChild v parent ret)
    else
      match node with
      | none => some (none, { v with errno := ENOENT })
      | some n =>
        let v := setNode v n fun n => { n with oMode := flags }
        -- a dot entry stands for the directory it points to
        match (v.nodes n).pointsTo with
        | some target => some (some target, v)
        | none => some (some n, v)

/-- `vfs_open`.  The argument `start` is not used: the path is always taken from
the root. -/
def vfsOpen (buf : Nat) (v : Vfs) (_start : Option Nat) (path : CString) (flags : Nat) :
    Option (Option Nat × Vfs) :=
  match vfsGetParent v v.root path with
  | none => none
  | some (none, v) => some (none, { v with errno := ENOENT })
  | some (some parent, v) => openIn buf v parent (basename path) flags

/-! ### The segments of a path -/

theorem parseLoop_eq {fuel : Nat} {s : Option CString} {segment : CString}
    (h : (s.elim 0 fun r => r.length + 1) < fuel) :
    parseLoop (fuel + 1) (some segment) s =
      (segment :: (s.elim [] fun r => r.splitOn '/'), none) := by
  induction fuel generalizing s segment with
  | zero => exact absurd h (Nat.not_lt_zero _)
  | succ fuel ih =>
    cases s with
    | none => rfl
    | some r =>
      have hshort : ((strtokScan ['/'] r).2.elim 0 fun r => r.length + 1) < fuel := by
        cases hr : (strtokScan ['/'] r).2 with
        | none =>
          simp only [Option.elim] at h ⊢
          omega
        | some r' =>
          have := strtokScan_shorter hr
          simp only [Option.elim] at h ⊢
          omega
      have hrec : parseLoop (fuel + 1) (some (strtokScan ['/'] r).1) (strtokScan ['/'] r).2 = _ :=
        ih hshort
      show (segment :: (parseLoop (fuel + 1) (some (strtokScan ['/'] r).1) (strtokScan ['/'] r).2).1,
        (parseLoop (fuel + 1) (some (strtokScan ['/'] r).1) (strtokScan ['/'] r).2).2) = _
      rw [hrec, Option.elim, strtokScan_splitOn]

/-- `vfs_parse_path` splits at slashes, whatever `strtok` was doing before. -/
theorem vfsParsePath_eq (s : Option CString) (path : CString) :
    vfsParsePath s path = (path.splitOn '/', none) := by
  have hshort : ((strtokScan ['/'] path).2.elim 0 fun r => r.length + 1) < path.length + 1 := by
    cases hr : (strtokScan ['/'] path).2 with
    | none => exact Nat.succ_pos _
    | some r => exact Nat.succ_lt_succ (strtokScan_shorter hr)
  show parseLoop (path.length + 2) (some (strtokScan ['/'] path).1) (strtokScan ['/'] path).2 = _
  rw [parseLoop_eq hshort, strtokScan_splitOn]

/-! ### Paths as lists of components -/

/-- A name that can stand between slashes. -/
def Component (c : CString) : Prop := c ≠ [] ∧ '/' ∉ c

instance (c : CString) : Decidable (Component c) := inferInstanceAs (Decidable (_ ∧ _))

/-- `c1/…/cm`. -/
def relPath (cs : List CString) : CString := ['/'].intercalate cs

/-- `/c1/…/cm`. -/
def absPath (cs : List CString) : CString := '/' :: relPath cs

theorem relPath_segments {cs : List CString} (hne : cs ≠ []) (hcs : ∀ c ∈ cs, Component c) :
    (relPath cs).splitOn '/' = cs :=
  List.splitOn_intercalate '/' (fun c hc => (hcs c hc).2) hne

theorem absPath_segments {cs : List CString} (hne : cs ≠ []) (hcs : ∀ c ∈ cs, Component c) :
    (absPath cs).splitOn '/' = [] :: cs := by
  unfold absPath
  rw [List.splitOn_cons_eq_if_modifyHead, if_pos (by simp), relPath_segments hne hcs]

theorem basename_absPath {cs : List CString} (hne : cs ≠ []) (hcs : ∀ c ∈ cs, Component c) :
    basename (absPath cs) = cs.getLast hne := by
  have hrel : relPath cs ≠ [] := by
    intro hnil
    have hsplit := relPath_segments hne hcs
    rw [hnil] at hsplit
    exact (hcs [] (by rw [← hsplit]; exact List.mem_singleton_self _)).1 rfl
  obtain ⟨front, hf⟩ := basename_slash hrel
  have hsegs : [] :: cs = front ++ [basename (absPath cs)] := by
    rw [← absPath_segments hne hcs]
    exact hf
  have hlast : ([] :: cs).getLast? = some (basename (absPath cs)) := by
    rw [hsegs, List.getLast?_concat]
  rw [List.getLast?_cons_of_ne_nil hne, List.getLast?_eq_getLast_of_ne_nil hne] at hlast
  exact (Option.some.inj hlast).symm

/-- `vfs_find_node` along a list of names; `none` when it is called on NULL. -/
def follow (v : Vfs) : Option Nat → List CString → Option (Option Nat)
  | node, [] => some node
  | node, c :: cs => (vfsFindNode v node c).bind fun node => follow v node cs

theorem follow_congr {v v' : Vfs} (h : v.nodes = v'.nodes) (node : Option Nat)
    (cs : List CString) : follow v node cs = follow v' node cs := by
  have hfind : ∀ node c, vfsFindNode v node c = vfsFindNode v' node c := by
    intro node c
    unfold vfsFindNode findChild
    rw [h]
  induction cs generalizing node with
  | nil => rfl
  | cons c cs ih =>
    simp only [follow, hfind]
    exact Option.bind_congr fun a _ => ih a

theorem follow_append (v : Vfs) (node : Option Nat) (cs ds : List CString) :
    follow v node (cs ++ ds) = (follow v node cs).bind fun node => follow v node ds := by
  induction cs generalizing node with
  | nil => rfl
  | cons c cs ih =>
    rw [List.cons_append, follow, follow, Option.bind_assoc]
    exact Option.bind_congr fun a _ => ih a

theorem follow_concat (v : Vfs) (node : Option Nat) (cs : List CString) (c : CString) :
    follow v node (cs ++ [c]) = (follow v node cs).bind fun node => vfsFindNode v node c := by
  rw [follow_append]
  refine Option.bind_congr fun a _ => ?_
  rw [follow]
  exact Option.bind_fun_some _

/-- The loop of `vfs_get_parent` over non-empty segments looks one segment
ahead: it follows the ones after the first, and leaves out the last. -/
theorem getParentLoop_follow (v : Vfs) (start : Option Nat) (n : Nat) {c : CString}
    {cs : List CString} (hc : c ≠ []) (hcs : ∀ d ∈ cs, d ≠ []) (hne : cs ≠ [])
    (node : Option Nat) :
    getParentLoop v start n node (c :: cs) =
      (follow v node cs.dropLast).map fun node => (node, v) := by
  induction cs generalizing c node with
  | nil => exact absurd rfl hne
  | cons d cs ih =>
    have hlen : strlen c ≠ 0 := fun h => hc (List.length_eq_zero_iff.mp h)
    rw [getParentLoop, if_pos hlen]
    by_cases hlast : cs = []
    · rw [if_pos hlast, hlast]
      rfl
    · rw [if_neg hlast, List.dropLast_cons_of_ne_nil hlast, follow]
      cases hf : vfsFindNode v node d with
      | none => rfl
      | some node' =>
        exact ih (hcs d List.mem_cons_self) (fun e he => hcs e (List.mem_cons_of_mem d he)) hlast
          node'

/-- **The parent of an absolute path.**  `vfs_get_parent` follows all components
but the last. -/
theorem vfsGetParent_absolute (v : Vfs) (start : Option Nat) {cs : List CString} (hne : cs ≠ [])
    (hcs : ∀ c ∈ cs, Component c) :
    vfsGetParent v start (absPath cs) =
      (follow v start cs.dropLast).map fun node => (node, { v with strtok := none }) := by
  unfold vfsGetParent
  rw [vfsParsePath_eq, absPath_segments hne hcs]
  dsimp only
  obtain ⟨c, cs, rfl⟩ := List.exists_cons_of_ne_nil hne
  rw [getParentLoop, if_neg (show ¬ strlen [] ≠ 0 by decide),
    follow_congr (show v.nodes = { v with strtok := none }.nodes from rfl)]
  by_cases hlast : cs = []
  · rw [hlast]
    rfl
  · have hn : ([] :: c :: cs).length ≠ 2 := by
      simpa using hlast
    rw [if_neg hn, List.dropLast_cons_of_ne_nil hlast, follow]
    cases hf : vfsFindNode { v with strtok := none } start c with
    | none => rfl
    | some node =>
      exact getParentLoop_follow _ start _ (hcs c List.mem_cons_self).1
        (fun d hd => (hcs d (List.mem_cons_of_mem c hd)).1) hlast node

/-- **The parent of a relative path.**  With two components or more,
`vfs_get_parent` leaves out the first component as well as the last. -/
theorem vfsGetParent_relative (v : Vfs) (start : Option Nat) {cs : List CString}
    (hlen : 2 ≤ cs.length) (hcs : ∀ c ∈ cs, Component c) :
    vfsGetParent v start (relPath cs) =
      (follow v start cs.tail.dropLast).map fun node => (node, { v with strtok := none }) := by
  unfold vfsGetParent
  obtain ⟨c, d, cs, rfl⟩ : ∃ c d cs', cs = c :: d :: cs' := by
    match cs, hlen with
    | c :: d :: cs, _ => exact ⟨c, d, cs, rfl⟩
  rw [vfsParsePath_eq, relPath_segments (by simp) hcs]
  dsimp only
  rw [getParentLoop_follow _ start _ (hcs c List.mem_cons_self).1
    (fun d hd => (hcs d (List.mem_cons_of_mem c hd)).1) (by simp)]
  rw [follow_congr (show { v with strtok := none }.nodes = v.nodes from rfl)]
  rfl

/-- The parent of a single component is the start. -/
theorem vfsGetParent_single (v : Vfs) (start : Nat) {c : CString} (hc : Component c) :
    vfsGetParent v (some start) (relPath [c]) = some (some start, { v with strtok := none }) := by
  have hsegs : (relPath [c]).splitOn '/' = [c] :=
    relPath_segments (by simp) (by simpa using hc)
  unfold vfsGetParent
  rw [vfsParsePath_eq, hsegs]
  rfl

end BestOS
