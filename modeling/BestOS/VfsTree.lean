/-
BestOS/VfsTree.lean

Creating a file and finding it again.

`vfs_open` finds the parent of a new file with the look-ahead loop of
`vfs_get_parent` and its name with `basename`; later lookups are a first match
over the children.  For absolute paths both come down to `follow`
(`vfsGetParent_absolute`, `basename_absPath`), so what is left is a frame
argument over the blocks of the tree.

`VfsOk` is the invariant of every tree that `vfs_mount`, `vfs_mkdir` and
`vfs_open` build on zero-filled blocks: free blocks stay zero, children are
allocated, and a node points elsewhere only if it is a `.` or `..` entry.  The
last part is what keeps the first loop of `vfs_find_node` out of ordinary paths:
without it a new file could shadow one that was created through a dot entry.

`create_then_lookup` is the result.
-/
import BestOS.Vfs
import Mathlib.Data.List.Find

namespace BestOS

/-! ### What every built tree satisfies -/

/-- A block of zeros, read as a node. -/
def zeroNode : VfsNode where
  type := .file
  name := []
  parent := none
  pointsTo := none
  children := []
  mountpoint := none
  stSize := 0
  cursor := 0
  oMode := 0
  address := 0
  internalAddress := 0
  init := false

/-- The names `vfs_mkdir` gives to the entries that point elsewhere. -/
def Dot (c : CString) : Prop := c = ['.'] ∨ c = ['.', '.']

instance (c : CString) : Decidable (Dot c) := inferInstanceAs (Decidable (_ ∨ _))

/-- The invariant of the tree. -/
structure VfsOk (v : Vfs) : Prop where
  zero : ∀ i, v.next ≤ i → v.nodes i = zeroNode
  child : ∀ i, ∀ c ∈ (v.nodes i).children, c < v.next
  dots : ∀ i, (v.nodes i).pointsTo ≠ none → Dot (v.nodes i).name
  root : ∀ r, v.root = some r → r < v.next ∧ (v.nodes r).pointsTo = none

/-- Two states with the same tree. -/
structure SameTree (v v' : Vfs) : Prop where
  nodes : v'.nodes = v.nodes
  next : v'.next = v.next
  root : v'.root = v.root

theorem VfsOk.same {v v' : Vfs} (h : VfsOk v) (hs : SameTree v v') : VfsOk v' where
  zero := by
    rw [hs.nodes, hs.next]
    exact h.zero
  child := by
    rw [hs.nodes, hs.next]
    exact h.child
  dots := by
    rw [hs.nodes]
    exact h.dots
  root := by
    rw [hs.nodes, hs.next, hs.root]
    exact h.root

theorem VfsOk.malloc {v : Vfs} (h : VfsOk v) : VfsOk { v with next := v.next + 1 } where
  zero := by
    intro i hi
    exact h.zero i (Nat.le_of_succ_le hi)
  child := by
    intro i c hc
    exact Nat.lt_succ_of_lt (h.child i c hc)
  dots := h.dots
  root := by
    intro r hr
    exact ⟨Nat.lt_succ_of_lt (h.root r hr).1, (h.root r hr).2⟩

/-- Only allocated blocks hold entries, or point elsewhere. -/
theorem VfsOk.lt_of_child {v : Vfs} (h : VfsOk v) {i c : Nat} (hc : c ∈ (v.nodes i).children) :
    i < v.next := by
  by_contra hge
  rw [h.zero i (Nat.not_lt.mp hge)] at hc
  cases hc

theorem VfsOk.lt_of_pointsTo {v : Vfs} (h : VfsOk v) {i : Nat} (hp : (v.nodes i).pointsTo ≠ none) :
    i < v.next := by
  by_contra hge
  rw [h.zero i (Nat.not_lt.mp hge)] at hp
  exact hp rfl

/-- Assigning to an allocated node keeps the invariant when the new contents
do. -/
theorem VfsOk.set {v : Vfs} (h : VfsOk v) {i : Nat} {f : VfsNode → VfsNode} (hi : i < v.next)
    (hchild : ∀ c ∈ (f (v.nodes i)).children, c < v.next)
    (hdots : (f (v.nodes i)).pointsTo ≠ none → Dot (f (v.nodes i)).name)
    (hroot : v.root = some i → (f (v.nodes i)).pointsTo = none) : VfsOk (setNode v i f) where
  zero := by
    intro j hj
    have hne : j ≠ i := by
      rintro rfl
      exact absurd hi (Nat.not_lt.mpr hj)
    exact (Function.update_of_ne hne _ _).trans (h.zero j hj)
  child := by
    intro j c hc
    by_cases hj : j = i
    · subst hj
      exact hchild c (by simpa [setNode] using hc)
    · exact h.child j c (by simpa [setNode, hj] using hc)
  dots := by
    intro j
    by_cases hj : j = i
    · subst hj
      simpa [setNode] using hdots
    · simpa [setNode, hj] using h.dots j
  root := by
    intro r hr
    refine ⟨(h.root r hr).1, ?_⟩
    by_cases hj : r = i
    · subst hj
      simpa [setNode] using hroot hr
    · simpa [setNode, hj] using (h.root r hr).2

/-- Assignments that leave the name, the children and `points_to` alone. -/
theorem VfsOk.setOther {v : Vfs} (h : VfsOk v) {i : Nat} {f : VfsNode → VfsNode}
    (hi : i < v.next) (hname : (f (v.nodes i)).name = (v.nodes i).name)
    (hchild : (f (v.nodes i)).children = (v.nodes i).children)
    (hpoints : (f (v.nodes i)).pointsTo = (v.nodes i).pointsTo) : VfsOk (setNode v i f) := by
  refine h.set hi ?_ ?_ ?_
  · rw [hchild]
    exact h.child i
  · rw [hpoints, hname]
    exact h.dots i
  · intro hr
    rw [hpoints]
    exact (h.root i hr).2

theorem VfsOk.pushChild {v : Vfs} (h : VfsOk v) {i c : Nat} (hi : i < v.next) (hc : c < v.next) :
    VfsOk (pushChild v i c) := by
  refine h.set hi ?_ (h.dots i) fun hr => (h.root i hr).2
  intro d hd
  rcases List.mem_append.mp hd with hold | hnew
  · exact h.child i d hold
  · rw [List.mem_singleton.mp hnew]
    exact hc

/-! ### Lookups stay inside the tree -/

theorem findChild_mem {v : Vfs} {dir c : Nat} {name : CString} (h : findChild v dir name = some c) :
    c ∈ (v.nodes dir).children ∧ (v.nodes c).name = name := by
  refine ⟨List.mem_of_find?_eq_some h, ?_⟩
  have heq := List.find?_some h
  exact ((strEq_iff _ _).mp heq).symm

theorem vfsFindNode_cases {v : Vfs} {node : Option Nat} {name : CString} {c : Nat}
    (h : vfsFindNode v node name = some (some c)) :
    ∃ dir, c ∈ (v.nodes dir).children ∧ (v.nodes c).name = name := by
  cases node with
  | none => cases h
  | some n =>
    unfold vfsFindNode at h
    dsimp only at h
    cases hp : (v.nodes n).pointsTo with
    | none =>
      rw [hp] at h
      exact ⟨n, findChild_mem (Option.some.inj h)⟩
    | some target =>
      rw [hp] at h
      rcases Option.or_eq_some_iff.mp (Option.some.inj h) with hf | ⟨-, hf⟩
      · exact ⟨target, findChild_mem hf⟩
      · exact ⟨n, findChild_mem hf⟩

/-- The node a pointer designates, if any, is allocated. -/
def Allocated (v : Vfs) (node : Option Nat) : Prop := ∀ n, node = some n → n < v.next

theorem VfsOk.find_allocated {v : Vfs} (h : VfsOk v) {node res : Option Nat} {name : CString}
    (hf : vfsFindNode v node name = some res) : Allocated v res := by
  rintro n rfl
  obtain ⟨dir, hmem, -⟩ := vfsFindNode_cases hf
  exact h.child dir n hmem

theorem VfsOk.follow_allocated {v : Vfs} (h : VfsOk v) {node res : Option Nat} {cs : List CString}
    (hn : Allocated v node) (hf : follow v node cs = some res) : Allocated v res := by
  induction cs generalizing node with
  | nil =>
    cases hf
    exact hn
  | cons c cs ih =>
    obtain ⟨m, hm, hrest⟩ := Option.bind_eq_some_iff.mp hf
    exact ih (h.find_allocated hm) hrest

/-- Looking up a parent changes nothing but `errno`. -/
theorem getParentLoop_vfs {v v' : Vfs} {start node res : Option Nat} {n : Nat}
    {segs : List CString} (hl : getParentLoop v start n node segs = some (res, v')) :
    ∃ e, v' = { v with errno := e } := by
  induction segs generalizing node with
  | nil =>
    cases hl
    split <;> exact ⟨_, rfl⟩
  | cons c segs ih =>
    cases segs with
    | nil =>
      cases hl
      split <;> exact ⟨_, rfl⟩
    | cons d rest =>
      rw [getParentLoop] at hl
      split at hl
      · split at hl
        · cases hl
          exact ⟨_, rfl⟩
        · split at hl
          · cases hl
          · exact ih hl
      · split at hl
        · cases hl
          exact ⟨_, rfl⟩
        · split at hl
          · cases hl
          · exact ih hl

/-- Looking up a parent changes `errno` and the pointer of `strtok`. -/
theorem vfsGetParent_vfs {v v' : Vfs} {start res : Option Nat} {path : CString}
    (hg : vfsGetParent v start path = some (res, v')) :
    ∃ e t, v' = { v with errno := e, strtok := t } := by
  obtain ⟨e, he⟩ := getParentLoop_vfs hg
  exact ⟨e, _, he⟩

theorem VfsOk.getParentLoop {v v' : Vfs} (h : VfsOk v) {start node res : Option Nat} {n : Nat}
    {segs : List CString} (hstart : Allocated v start) (hnode : Allocated v node)
    (hl : getParentLoop v start n node segs = some (res, v')) : Allocated v res := by
  induction segs generalizing node with
  | nil =>
    cases hl
    exact hnode
  | cons c segs ih =>
    cases segs with
    | nil =>
      cases hl
      exact hnode
    | cons d rest =>
      rw [BestOS.getParentLoop] at hl
      split at hl
      · split at hl
        · cases hl
          exact hnode
        · cases hf : vfsFindNode v node d with
          | none =>
            rw [hf] at hl
            cases hl
          | some m =>
            rw [hf] at hl
            exact ih (h.find_allocated hf) hl
      · split at hl
        · cases hl
          exact hstart
        · cases hf : vfsFindNode v start d with
          | none =>
            rw [hf] at hl
            cases hl
          | some m =>
            rw [hf] at hl
            exact ih (h.find_allocated hf) hl

/-- `vfs_get_parent` leaves the tree alone and returns an allocated node. -/
theorem VfsOk.getParent {v v' : Vfs} (h : VfsOk v) {start res : Option Nat} {path : CString}
    (hstart : Allocated v start) (hg : vfsGetParent v start path = some (res, v')) :
    SameTree v v' ∧ Allocated v res := by
  obtain ⟨e, t, rfl⟩ := vfsGetParent_vfs hg
  refine ⟨⟨rfl, rfl, rfl⟩, ?_⟩
  have hok : VfsOk { v with strtok := (vfsParsePath v.strtok path).2 } := h.same ⟨rfl, rfl, rfl⟩
  exact hok.getParentLoop hstart hstart hg

theorem VfsOk.root_allocated {v : Vfs} (h : VfsOk v) : Allocated v v.root :=
  fun r hr => (h.root r hr).1

/-! ### The operations keep the invariant -/

/-- An allocated node that is no dot entry. -/
def Plain (v : Vfs) (n : Nat) : Prop := n < v.next ∧ (v.nodes n).pointsTo = none

theorem Plain.set {v : Vfs} {n : Nat} (h : Plain v n) (i : Nat) {f : VfsNode → VfsNode}
    (hf : ∀ m, (f m).pointsTo = m.pointsTo) : Plain (setNode v i f) n := by
  refine ⟨h.1, ?_⟩
  show (Function.update v.nodes i _ n).pointsTo = none
  rw [Function.update_apply]
  split
  · subst n
    rw [hf]
    exact h.2
  · exact h.2

theorem Plain.push {v : Vfs} {n : Nat} (h : Plain v n) (i c : Nat) : Plain (pushChild v i c) n :=
  h.set i fun _ => rfl

theorem Plain.new {v : Vfs} {n : Nat} (h : Plain v n) (f : VfsNode → VfsNode) :
    Plain (newNode v f).2 n := by
  refine ⟨Nat.lt_succ_of_lt h.1, ?_⟩
  show (Function.update v.nodes v.next _ n).pointsTo = none
  rw [Function.update_of_ne (Nat.ne_of_lt h.1)]
  exact h.2

theorem Plain.same {v v' : Vfs} {n : Nat} (h : Plain v n) (hs : SameTree v v') : Plain v' n := by
  unfold Plain
  rw [hs.nodes, hs.next]
  exact h

/-- A fresh block, filled in as a node without children. -/
theorem VfsOk.new {v : Vfs} (h : VfsOk v) {f : VfsNode → VfsNode}
    (hchild : (f zeroNode).children = [])
    (hdots : (f zeroNode).pointsTo ≠ none → Dot (f zeroNode).name) : VfsOk (newNode v f).2 := by
  have hzero : v.nodes v.next = zeroNode := h.zero v.next (Nat.le_refl _)
  refine h.malloc.set (Nat.lt_succ_self v.next) ?_ ?_ ?_
  · intro c hc
    rw [hzero, hchild] at hc
    cases hc
  · rw [hzero]
    exact hdots
  · intro hr
    exact absurd (h.root v.next hr).1 (Nat.lt_irrefl _)

theorem VfsOk.new_plain {v : Vfs} (h : VfsOk v) {f : VfsNode → VfsNode}
    (hf : (f zeroNode).pointsTo = none) : Plain (newNode v f).2 v.next := by
  refine ⟨Nat.lt_succ_self v.next, ?_⟩
  show (Function.update v.nodes v.next _ v.next).pointsTo = none
  rw [Function.update_self, show f (v.nodes v.next) = f zeroNode by rw [h.zero _ (Nat.le_refl _)]]
  exact hf

/-- Naming a node and its parent, or its mount point, keeps the invariant when
the node is no dot entry. -/
theorem VfsOk.setPlain {v : Vfs} (h : VfsOk v) {n : Nat} (hn : Plain v n) {f : VfsNode → VfsNode}
    (hchild : ∀ m, (f m).children = m.children) (hf : ∀ m, (f m).pointsTo = m.pointsTo) :
    VfsOk (setNode v n f) := by
  have hnone : (f (v.nodes n)).pointsTo = none := (hf _).trans hn.2
  refine h.set hn.1 ?_ (fun hc => absurd hnone hc) fun _ => hnone
  rw [hchild]
  exact h.child n

/-- What `vfs_mkdir` does once the parent is found. -/
theorem linkDir_nodes {v : Vfs} {node parent : Nat} (hnode : node < v.next)
    (hparent : parent < v.next) (hne : node ≠ parent) :
    (linkDir v node parent).next = v.next + 2 ∧ (linkDir v node parent).root = v.root ∧
      (linkDir v node parent).nodes node =
        { v.nodes node with children := (v.nodes node).children ++ [v.next, v.next + 1] } ∧
      (linkDir v node parent).nodes parent =
        { v.nodes parent with children := (v.nodes parent).children ++ [node] } ∧
      (linkDir v node parent).nodes v.next = dotEntry ['.', '.'] parent (v.nodes v.next) ∧
      (linkDir v node parent).nodes (v.next + 1) = dotEntry ['.'] node (v.nodes (v.next + 1)) ∧
      ∀ i, i ≠ node → i ≠ parent → i < v.next ∨ v.next + 2 ≤ i →
        (linkDir v node parent).nodes i = v.nodes i := by
  have h1 : node ≠ v.next := by omega
  have h2 : node ≠ v.next + 1 := by omega
  have h3 : parent ≠ v.next := by omega
  have h4 : parent ≠ v.next + 1 := by omega
  refine ⟨rfl, rfl, ?_, ?_, ?_, ?_, ?_⟩
  · simp [linkDir, pushChild, setNode, newNode, Function.update_of_ne hne,
      Function.update_of_ne h1, Function.update_of_ne h2]
  · simp [linkDir, pushChild, setNode, newNode, Function.update_of_ne hne.symm,
      Function.update_of_ne h3, Function.update_of_ne h4]
  · simp [linkDir, pushChild, setNode, newNode, Function.update_of_ne h1.symm,
      Function.update_of_ne h3.symm]
  · simp [linkDir, pushChild, setNode, newNode, Function.update_of_ne h2.symm,
      Function.update_of_ne h4.symm]
  · intro i hi1 hi2 hi3
    have h5 : i ≠ v.next := by omega
    have h6 : i ≠ v.next + 1 := by omega
    simp [linkDir, pushChild, setNode, newNode, Function.update_of_ne hi1,
      Function.update_of_ne hi2, Function.update_of_ne h5, Function.update_of_ne h6]

theorem VfsOk.linkDir {v : Vfs} (h : VfsOk v) {node parent : Nat} (hnode : Plain v node)
    (hparent : parent < v.next) :
    VfsOk (linkDir v node parent) ∧ (BestOS.linkDir v node parent).root = v.root ∧
      Plain (BestOS.linkDir v node parent) node := by
  have h₁ : VfsOk (newNode v (dotEntry ['.', '.'] parent)).2 := h.new rfl fun _ => .inr rfl
  have hn₁ : Plain (newNode v (dotEntry ['.', '.'] parent)).2 node := hnode.new _
  have hlt : node < v.next := hnode.1
  unfold BestOS.linkDir
  dsimp only
  generalize hv₁ : (newNode v (dotEntry ['.', '.'] parent)).2 = v₁ at h₁ hn₁
  have hnext₁ : v₁.next = v.next + 1 := by
    rw [← hv₁]
    rfl
  have hroot₁ : v₁.root = v.root := by
    rw [← hv₁]
    rfl
  -- `..` is made before `.`
  have h₂ : VfsOk (newNode v₁ (dotEntry ['.'] node)).2 := h₁.new rfl fun _ => .inl rfl
  have hn₂ : Plain (newNode v₁ (dotEntry ['.'] node)).2 node := hn₁.new _
  generalize hv₂ : (newNode v₁ (dotEntry ['.'] node)).2 = v₂ at h₂ hn₂
  have hnext₂ : v₂.next = v₁.next + 1 := by
    rw [← hv₂]
    rfl
  have hroot₂ : v₂.root = v₁.root := by
    rw [← hv₂]
    rfl
  refine ⟨?_, hroot₂.trans hroot₁, ?_⟩
  · have h₃ := h₂.pushChild hn₂.1 (show v.next < v₂.next by omega)
    have h₄ := h₃.pushChild hn₂.1 (show v₁.next < v₂.next by omega)
    exact h₄.pushChild (show parent < v₂.next by omega) hn₂.1
  · exact ((hn₂.push _ _).push _ _).push _ _

theorem VfsOk.mkdir {v v' : Vfs} (h : VfsOk v) {path : CString} {res : Option Nat}
    (hm : vfsMkdir v path = some (res, v')) :
    VfsOk v' ∧ v'.root = v.root ∧ ∀ n, res = some n → Plain v' n := by
  have h₁ : VfsOk (newNode v emptyDir).2 := h.new rfl fun hc => absurd rfl hc
  have hn₁ : Plain (newNode v emptyDir).2 v.next := h.new_plain rfl
  unfold vfsMkdir at hm
  dsimp only at hm
  rw [show (newNode v emptyDir).1 = v.next from rfl] at hm
  generalize hv₁ : (newNode v emptyDir).2 = v₁ at hm h₁ hn₁
  have hroot₁ : v₁.root = v.root := by
    rw [← hv₁]
    rfl
  by_cases hslash : strEq path ['/'] = true
  · rw [if_pos hslash] at hm
    cases hm
    have hsame : SameTree v₁ (mallocMount v₁).2 := ⟨rfl, rfl, rfl⟩
    refine ⟨(h₁.same hsame).setPlain (hn₁.same hsame) (fun _ => rfl) fun _ => rfl, hroot₁, ?_⟩
    rintro n ⟨⟩
    exact (hn₁.same hsame).set _ fun _ => rfl
  · rw [if_neg hslash] at hm
    cases hg : vfsGetParent v₁ v₁.root path with
    | none =>
      rw [hg] at hm
      cases hm
    | some pr =>
      obtain ⟨parent, v₂⟩ := pr
      rw [hg] at hm
      dsimp only at hm
      obtain ⟨hsame, hpar⟩ := h₁.getParent h₁.root_allocated hg
      have hn₂ := hn₁.same hsame
      have h₃ : VfsOk (setNode v₂ v.next (namedDir parent (basename path))) :=
        (h₁.same hsame).setPlain hn₂ (fun _ => rfl) fun _ => rfl
      have hn₃ : Plain (setNode v₂ v.next (namedDir parent (basename path))) v.next :=
        hn₂.set v.next fun _ => rfl
      have hroot₃ : (setNode v₂ v.next (namedDir parent (basename path))).root = v.root :=
        hsame.root.trans hroot₁
      have hnext₃ : (setNode v₂ v.next (namedDir parent (basename path))).next = v₁.next :=
        hsame.next
      -- from here on the new node has its name and its parent
      generalize setNode v₂ v.next (namedDir parent (basename path)) = v₃ at *
      cases parent with
      | none =>
        cases hm
        exact ⟨h₃.same ⟨rfl, rfl, rfl⟩, hroot₃, fun n hn => by cases hn⟩
      | some parent =>
        have hparent : parent < v₃.next := by
          rw [hnext₃]
          exact hpar parent rfl
        cases hr : v₃.root with
        | none =>
          rw [hr] at hm
          cases hm
        | some root =>
          rw [hr] at hm
          dsimp only at hm
          -- a directory lies on the filesystem of the root
          have h₄ : VfsOk (setNode v₃ v.next fun n =>
              { n with mountpoint := (v₃.nodes root).mountpoint }) :=
            h₃.setPlain hn₃ (fun _ => rfl) fun _ => rfl
          obtain ⟨h₅, hroot₅, hn₅⟩ := h₄.linkDir (hn₃.set _ fun _ => rfl) hparent
          cases hm
          refine ⟨h₅, hroot₅.trans hroot₃, ?_⟩
          rintro n ⟨⟩
          exact hn₅

theorem VfsOk.mount {v v' : Vfs} (h : VfsOk v) {path : CString} {fs : Filesystem}
    (hm : vfsMount v path fs = some v') : VfsOk v' := by
  unfold vfsMount at hm
  cases hk : vfsMkdir v path with
  | none =>
    rw [hk] at hm
    cases hm
  | some pr =>
    obtain ⟨res, v₁⟩ := pr
    obtain ⟨h₁, hroot₁, hn₁⟩ := h.mkdir hk
    rw [hk] at hm
    cases res with
    | none => cases hm
    | some node =>
      dsimp only at hm
      have hn := hn₁ node rfl
      cases hr : v.root with
      | none =>
        rw [hr] at hm
        dsimp only at hm
        split at hm
        · cases hm
        · obtain rfl := pushMountpoint_eq hm
          refine ⟨h₁.zero, h₁.child, h₁.dots, ?_⟩
          rintro r ⟨⟩
          exact hn
      | some r =>
        rw [hr] at hm
        obtain rfl := pushMountpoint_eq hm
        have hsame : SameTree v₁ (mallocMount v₁).2 := ⟨rfl, rfl, rfl⟩
        have h₂ : VfsOk (setNode (mallocMount v₁).2 node fun n =>
            { n with mountpoint := some (mallocMount v₁).1 }) :=
          (h₁.same hsame).setPlain (hn.same hsame) (fun _ => rfl) fun _ => rfl
        exact h₂.same ⟨rfl, rfl, rfl⟩

/-- What `vfs_open` does once the parent is found: it makes the file, or finds no node,
or refuses a directory, or sets the mode of the node it found. -/
inductive OpenInEnd (buf : Nat) (v : Vfs) (parent : Nat) (name : CString) (flags : Nat) :
    Option Nat → Vfs → Prop
  | made : vfsFindNode v (some parent) name = some none → flags &&& O_CREAT ≠ 0 →
      OpenInEnd buf v parent name flags (some v.next)
        (pushChild (newNode v (newFile name parent flags (v.nodes parent).mountpoint buf)).2
          parent v.next)
  | missing : vfsFindNode v (some parent) name = some none → flags &&& O_CREAT = 0 →
      OpenInEnd buf v parent name flags none { v with errno := ENOENT }
  | refused (n : Nat) : vfsFindNode v (some parent) name = some (some n) →
      flags &&& O_DIRECTORY = 0 → (v.nodes n).type = .directory →
      OpenInEnd buf v parent name flags none { v with errno := EISDIR }
  | found (n : Nat) : vfsFindNode v (some parent) name = some (some n) →
      OpenInEnd buf v parent name flags
        (some (if flags &&& O_CREAT ≠ 0 then n else (v.nodes n).pointsTo.getD n))
        (setNode v n fun n => { n with oMode := flags })

theorem openIn_end {v v' : Vfs} {buf parent flags : Nat} {name : CString} {res : Option Nat}
    (ho : openIn buf v parent name flags = some (res, v')) :
    OpenInEnd buf v parent name flags res v' := by
  unfold openIn at ho
  cases hf : vfsFindNode v (some parent) name with
  | none =>
    rw [hf] at ho
    cases ho
  | some node =>
    rw [hf] at ho
    cases node with
    | none =>
      simp only [Option.any_none, Bool.false_eq_true, and_false, ↓reduceIte] at ho
      split at ho
      · next hcreat =>
        cases ho
        exact .made hf hcreat
      · next hcreat =>
        cases ho
        exact .missing hf (not_not.mp hcreat)
    | some n =>
      simp only [Option.any_some, decide_eq_true_eq] at ho
      split at ho
      · next hdir =>
        cases ho
        exact .refused n hf hdir.1 hdir.2
      · have hfound := @OpenInEnd.found buf v parent name flags n hf
        have hpoints : ((setNode v n fun n => { n with oMode := flags }).nodes n).pointsTo
            = (v.nodes n).pointsTo := by
          simp only [setNode, Function.update_self]
        split at ho
        · next hcreat =>
          cases ho
          rwa [if_pos hcreat] at hfound
        · next hcreat =>
          rw [hpoints] at ho
          rw [if_neg hcreat] at hfound
          cases hp : (v.nodes n).pointsTo with
          | none =>
            rw [hp] at ho hfound
            cases ho
            exact hfound
          | some target =>
            rw [hp] at ho hfound
            cases ho
            exact hfound

theorem VfsOk.openIn {v v' : Vfs} (h : VfsOk v) {buf parent flags : Nat} {name : CString}
    {res : Option Nat} (hparent : parent < v.next)
    (ho : openIn buf v parent name flags = some (res, v')) : VfsOk v' := by
  cases openIn_end ho with
  | made hf hcreat =>
    have hnew : VfsOk (newNode v (newFile name parent flags (v.nodes parent).mountpoint buf)).2 :=
      h.new rfl fun hc => absurd rfl hc
    exact hnew.pushChild (Nat.lt_succ_of_lt hparent) (Nat.lt_succ_self v.next)
  | missing hf hcreat => exact h.same ⟨rfl, rfl, rfl⟩
  | refused n hf hdir htype => exact h.same ⟨rfl, rfl, rfl⟩
  | found n hf => exact h.setOther (h.find_allocated hf n rfl) rfl rfl rfl

theorem VfsOk.open {v v' : Vfs} (h : VfsOk v) {buf flags : Nat} {start res : Option Nat}
    {path : CString} (ho : vfsOpen buf v start path flags = some (res, v')) : VfsOk v' := by
  unfold vfsOpen at ho
  cases hg : vfsGetParent v v.root path with
  | none =>
    rw [hg] at ho
    cases ho
  | some pr =>
    obtain ⟨parent, v₁⟩ := pr
    rw [hg] at ho
    obtain ⟨hsame, hpar⟩ := h.getParent h.root_allocated hg
    have h₁ := h.same hsame
    cases parent with
    | none =>
      cases ho
      exact h₁.same ⟨rfl, rfl, rfl⟩
    | some parent =>
      refine h₁.openIn ?_ ho
      rw [hsame.next]
      exact hpar parent rfl

/-- The trees that `vfs_mount`, `vfs_mkdir` and `vfs_open` build, with any
arguments, on zero-filled blocks. -/
inductive VfsBuilt : Vfs → Prop
  | empty {v} : v.root = none → (∀ i, v.nodes i = zeroNode) → VfsBuilt v
  | mount {v v' path fs} : VfsBuilt v → vfsMount v path fs = some v' → VfsBuilt v'
  | mkdir {v v' path res} : VfsBuilt v → vfsMkdir v path = some (res, v') → VfsBuilt v'
  | opened {v v' buf start path flags res} : VfsBuilt v →
      vfsOpen buf v start path flags = some (res, v') → VfsBuilt v'

theorem VfsBuilt.ok {v : Vfs} (h : VfsBuilt v) : VfsOk v := by
  induction h with
  | empty hroot hzero =>
    refine ⟨fun i _ => hzero i, ?_, ?_, ?_⟩
    · intro i c hc
      rw [hzero] at hc
      cases hc
    · intro i hi
      rw [hzero] at hi
      exact absurd rfl hi
    · intro r hr
      rw [hroot] at hr
      cases hr
  | mount _ hm ih => exact ih.mount hm
  | mkdir _ hm ih => exact (ih.mkdir hm).1
  | opened _ ho ih => exact ih.open ho

/-! ### Lookups along ordinary paths -/

/-- A name that stands between slashes and is no dot entry. -/
def Ordinary (c : CString) : Prop := Component c ∧ ¬ Dot c

instance (c : CString) : Decidable (Ordinary c) := inferInstanceAs (Decidable (_ ∧ _))

theorem Plain.find {v : Vfs} {n : Nat} (h : Plain v n) (name : CString) :
    vfsFindNode v (some n) name = some (findChild v n name) := by
  unfold vfsFindNode
  dsimp only
  rw [h.2]

/-- From a node that is no dot entry, an ordinary name leads to one that is none
either. -/
theorem VfsOk.find_plain {v : Vfs} (h : VfsOk v) {n c : Nat} {name : CString}
    (hname : Ordinary name) (hf : findChild v n name = some c) : Plain v c := by
  obtain ⟨hmem, heq⟩ := findChild_mem hf
  refine ⟨h.child n c hmem, ?_⟩
  by_contra hne
  exact hname.2 (heq ▸ h.dots c hne)

/-- The first step of a walk that arrives. -/
theorem Plain.follow_cons {v : Vfs} {n m : Nat} (h : Plain v n) {c : CString} {cs : List CString}
    (hf : follow v (some n) (c :: cs) = some (some m)) :
    ∃ k, findChild v n c = some k ∧ follow v (some k) cs = some (some m) := by
  rw [follow, h.find, Option.bind_some] at hf
  cases hk : findChild v n c with
  | some k =>
    rw [hk] at hf
    exact ⟨k, rfl, hf⟩
  | none =>
    rw [hk] at hf
    cases cs with
    | nil => cases hf
    | cons d cs => cases hf

theorem VfsOk.follow_plain {v : Vfs} (h : VfsOk v) {n m : Nat} {cs : List CString}
    (hn : Plain v n) (hcs : ∀ c ∈ cs, Ordinary c) (hf : follow v (some n) cs = some (some m)) :
    Plain v m := by
  induction cs generalizing n with
  | nil =>
    cases hf
    exact hn
  | cons c cs ih =>
    obtain ⟨k, hk, hrest⟩ := hn.follow_cons hf
    exact ih (h.find_plain (hcs c List.mem_cons_self) hk)
      (fun d hd => hcs d (List.mem_cons_of_mem c hd)) hrest

/-- The node that `vfs_open` finds at a path. -/
def vfsLookup (v : Vfs) (path : CString) : Option (Option Nat) :=
  match vfsGetParent v v.root path with
  | none => none
  | some (none, _) => some none
  | some (some parent, v) => vfsFindNode v (some parent) (basename path)

theorem vfsLookup_absPath {v : Vfs} {cs : List CString} (hne : cs ≠ [])
    (hcs : ∀ c ∈ cs, Component c) {n : Nat} :
    vfsLookup v (absPath cs) = some (some n) ↔ follow v v.root cs = some (some n) := by
  unfold vfsLookup
  rw [vfsGetParent_absolute v v.root hne hcs, basename_absPath hne hcs]
  conv => rhs; rw [← List.dropLast_append_getLast hne, follow_concat]
  cases hf : follow v v.root cs.dropLast with
  | none => simp
  | some parent =>
    cases parent with
    | none => simp [vfsFindNode]
    | some parent => rfl

/-! ### Adding a file -/

/-- `v'` is `v` with one new file, the last child of `parent`. -/
structure AddsFile (v v' : Vfs) (parent ret : Nat) (name : CString) : Prop where
  fresh : ret = v.next
  next : v'.next = v.next + 1
  root : v'.root = v.root
  type : (v'.nodes ret).type = .file
  named : (v'.nodes ret).name = name
  under : (v'.nodes ret).parent = some parent
  leaf : (v'.nodes ret).children = []
  plain : (v'.nodes ret).pointsTo = none
  pushed : v'.nodes parent =
    { v.nodes parent with children := (v.nodes parent).children ++ [ret] }
  others : ∀ i, i ≠ parent → i ≠ ret → v'.nodes i = v.nodes i

section AddsFile

variable {v v' : Vfs} {parent ret : Nat} {name : CString}

theorem AddsFile.name_eq (a : AddsFile v v' parent ret name) {i : Nat} (hi : i < v.next) :
    (v'.nodes i).name = (v.nodes i).name := by
  have hne : i ≠ ret := by
    rw [a.fresh]
    exact Nat.ne_of_lt hi
  by_cases hp : i = parent
  · rw [hp, a.pushed]
  · rw [a.others i hp hne]

theorem AddsFile.plain_of (a : AddsFile v v' parent ret name) {i : Nat} (h : Plain v i) :
    Plain v' i := by
  have hne : i ≠ ret := by
    rw [a.fresh]
    exact Nat.ne_of_lt h.1
  refine ⟨by rw [a.next]; exact Nat.lt_succ_of_lt h.1, ?_⟩
  by_cases hp : i = parent
  · rw [hp, a.pushed]
    exact hp ▸ h.2
  · rw [a.others i hp hne]
    exact h.2

/-- The loop over the old children gives what it gave before. -/
theorem AddsFile.find_old (a : AddsFile v v' parent ret name) (h : VfsOk v) (n : Nat)
    (d : CString) :
    ((v.nodes n).children.find? fun c => strEq d (v'.nodes c).name) = findChild v n d := by
  unfold findChild
  apply List.find?_congr
  intro c hc
  rw [a.name_eq (h.child n c hc)]

/-- A first match stays the first match. -/
theorem AddsFile.findChild_eq (a : AddsFile v v' parent ret name) (h : VfsOk v) {n c : Nat}
    {d : CString} (hn : n ≠ ret) (hf : findChild v n d = some c) : findChild v' n d = some c := by
  have hold := a.find_old h n d
  unfold findChild at hf ⊢
  by_cases hp : n = parent
  · rw [hp] at hold hf ⊢
    rw [a.pushed]
    show List.find? _ ((v.nodes parent).children ++ [ret]) = some c
    rw [List.find?_append, hold]
    unfold findChild
    rw [hf]
    rfl
  · rw [a.others n hp hn, hold]
    exact hf

/-- The new file is found under its name. -/
theorem AddsFile.findChild_new (a : AddsFile v v' parent ret name) (h : VfsOk v)
    (hf : findChild v parent name = none) : findChild v' parent name = some ret := by
  have hold := a.find_old h parent name
  unfold findChild
  rw [a.pushed]
  show List.find? _ ((v.nodes parent).children ++ [ret]) = some ret
  rw [List.find?_append, hold, hf, List.find?_singleton, a.named]
  rw [if_pos ((strEq_iff name name).mpr rfl)]
  rfl

/-- Every ordinary walk that arrived still arrives at the same node. -/
theorem AddsFile.follow_eq (a : AddsFile v v' parent ret name) (h : VfsOk v) {n m : Nat}
    {cs : List CString} (hn : Plain v n) (hcs : ∀ c ∈ cs, Ordinary c)
    (hf : follow v (some n) cs = some (some m)) : follow v' (some n) cs = some (some m) := by
  induction cs generalizing n with
  | nil => exact hf
  | cons c cs ih =>
    obtain ⟨k, hk, hrest⟩ := hn.follow_cons hf
    have hne : n ≠ ret := by
      rw [a.fresh]
      exact Nat.ne_of_lt hn.1
    rw [follow, (a.plain_of hn).find, a.findChild_eq h hne hk, Option.bind_some]
    exact ih (h.find_plain (hcs c List.mem_cons_self) hk)
      (fun d hd => hcs d (List.mem_cons_of_mem c hd)) hrest

end AddsFile

/-! ### Creating, then looking up -/

/-- `vfs_open` with `O_CREAT` on a name that is not there. -/
theorem openIn_creates {v : Vfs} (h : VfsOk v) (buf : Nat) {parent flags : Nat} {name : CString}
    (hparent : parent < v.next) (hflags : flags &&& O_CREAT ≠ 0)
    (hnew : vfsFindNode v (some parent) name = some none) :
    ∃ v', openIn buf v parent name flags = some (some v.next, v') ∧
      AddsFile v v' parent v.next name := by
  have hne : parent ≠ v.next := Nat.ne_of_lt hparent
  unfold openIn
  rw [hnew]
  dsimp only
  rw [if_neg (fun hc => Bool.false_ne_true hc.2), if_pos hflags]
  have hret : ∀ new dir, Function.update (Function.update v.nodes v.next new) parent dir v.next
      = new := by
    intro new dir
    rw [Function.update_of_ne (Ne.symm hne), Function.update_self]
  refine ⟨_, rfl, ⟨rfl, rfl, rfl, ?_, ?_, ?_, ?_, ?_, ?_, ?_⟩⟩
  all_goals simp only [pushChild, setNode, newNode]
  · rw [hret]
    rfl
  · rw [hret]
    rfl
  · rw [hret]
    rfl
  · rw [hret, h.zero _ (Nat.le_refl _)]
    rfl
  · rw [hret, h.zero _ (Nat.le_refl _)]
    rfl
  · rw [Function.update_self, Function.update_of_ne hne]
  · intro i hp hr
    rw [Function.update_of_ne hp, Function.update_of_ne hr]

/-- `vfs_open` on a file that is there only sets its mode. -/
theorem openIn_file {v : Vfs} {parent n : Nat} {name : CString} (buf flags : Nat)
    (hf : vfsFindNode v (some parent) name = some (some n)) (htype : (v.nodes n).type = .file)
    (hpoints : (v.nodes n).pointsTo = none) :
    openIn buf v parent name flags =
      some (some n, setNode v n fun n => { n with oMode := flags }) := by
  unfold openIn
  rw [hf]
  dsimp only
  rw [if_neg (by simp [htype])]
  split
  · rfl
  · have hp : ((setNode v n fun n => { n with oMode := flags }).nodes n).pointsTo = none := by
      simp only [setNode]
      rw [Function.update_self]
      exact hpoints
    rw [hp]

/-- `vfs_open` on an absolute path whose parent exists. -/
theorem vfsOpen_absolute {v : Vfs} {cs : List CString} (hne : cs ≠ [])
    (hcs : ∀ c ∈ cs, Component c) {parent : Nat}
    (hdir : follow v v.root cs.dropLast = some (some parent)) (buf : Nat) (start : Option Nat)
    (flags : Nat) :
    vfsOpen buf v start (absPath cs) flags =
      openIn buf { v with strtok := none } parent (cs.getLast hne) flags := by
  unfold vfsOpen
  rw [vfsGetParent_absolute v v.root hne hcs, hdir, basename_absPath hne hcs]
  rfl

/-- **Create, then look up.**  In every tree built on zero-filled blocks, for an
ordinary absolute path whose parent exists and whose last component does not:

* `vfs_open` with `O_CREAT` adds one file, as a child of that parent;
* a later `vfs_open` of the path, whatever its flags, returns that file and adds
  nothing;
* every ordinary absolute path that was found before is found at the same
  node. -/
theorem create_then_lookup {v : Vfs} (h : VfsBuilt v) {cs : List CString} (hne : cs ≠ [])
    (hcs : ∀ c ∈ cs, Ordinary c) {parent : Nat}
    (hdir : follow v v.root cs.dropLast = some (some parent))
    (hnew : vfsLookup v (absPath cs) = some none) {flags : Nat} (hflags : flags &&& O_CREAT ≠ 0)
    (buf : Nat) (start : Option Nat) :
    ∃ ret v', vfsOpen buf v start (absPath cs) flags = some (some ret, v') ∧
      AddsFile v v' parent ret (cs.getLast hne) ∧
      (∀ buf' start' flags', ∃ v'',
        vfsOpen buf' v' start' (absPath cs) flags' = some (some ret, v'') ∧
        v''.next = v'.next ∧ v''.root = v'.root ∧
        v''.nodes = Function.update v'.nodes ret { v'.nodes ret with oMode := flags' }) ∧
      (∀ ds n, ds ≠ [] → (∀ d ∈ ds, Ordinary d) → vfsLookup v (absPath ds) = some (some n) →
        vfsLookup v' (absPath ds) = some (some n)) := by
  have hok := h.ok
  have hcomp : ∀ c ∈ cs, Component c := fun c hc => (hcs c hc).1
  have hfront : ∀ c ∈ cs.dropLast, Ordinary c :=
    fun c hc => hcs c ((List.dropLast_sublist cs).subset hc)
  obtain ⟨r, hr⟩ : ∃ r, v.root = some r := by
    cases hroot : v.root with
    | some r => exact ⟨r, rfl⟩
    | none =>
      rw [hroot] at hdir
      cases hd : cs.dropLast with
      | nil =>
        rw [hd] at hdir
        cases hdir
      | cons d ds =>
        rw [hd] at hdir
        cases hdir
  have hrplain : Plain v r := hok.root r hr
  have hparent : Plain v parent := by
    rw [hr] at hdir
    exact hok.follow_plain hrplain hfront hdir
  have hmiss : findChild v parent (cs.getLast hne) = none := by
    unfold vfsLookup at hnew
    rw [vfsGetParent_absolute v v.root hne hcomp, hdir, basename_absPath hne hcomp] at hnew
    rw [← Option.some.injEq, ← hparent.find]
    exact hnew
  -- the state `vfs_open` works on differs from `v` in `strtok` only
  have hok₁ : VfsOk { v with strtok := none } := hok.same ⟨rfl, rfl, rfl⟩
  have hmiss₁ : vfsFindNode { v with strtok := none } (some parent) (cs.getLast hne) = some none := by
    rw [← hmiss]
    exact hparent.find _
  obtain ⟨v', hopen, hadds₁⟩ := openIn_creates hok₁ buf hparent.1 hflags hmiss₁
  have hadds : AddsFile v v' parent v.next (cs.getLast hne) :=
    ⟨hadds₁.fresh, hadds₁.next, hadds₁.root, hadds₁.type, hadds₁.named, hadds₁.under, hadds₁.leaf,
      hadds₁.plain, hadds₁.pushed, hadds₁.others⟩
  have hwalk : ∀ ds n, (∀ d ∈ ds, Ordinary d) → follow v v.root ds = some (some n) →
      follow v' v'.root ds = some (some n) := by
    intro ds n hds hf
    rw [hadds.root]
    rw [hr] at hf ⊢
    exact hadds.follow_eq hok hrplain hds hf
  refine ⟨v.next, v', ?_, hadds, ?_, ?_⟩
  · rw [vfsOpen_absolute hne hcomp hdir]
    exact hopen
  · intro buf' start' flags'
    have hdir' := hwalk cs.dropLast parent hfront hdir
    have hfind' : vfsFindNode { v' with strtok := none } (some parent) (cs.getLast hne) =
        some (some v.next) := by
      rw [← hadds.findChild_new hok hmiss]
      exact (hadds.plain_of hparent).find _
    have hagain := openIn_file buf' flags' hfind' hadds.type hadds.plain
    rw [← vfsOpen_absolute hne hcomp hdir' buf' start'] at hagain
    exact ⟨_, hagain, rfl, rfl, rfl⟩
  · intro ds n hds hord hf
    have hdcomp : ∀ d ∈ ds, Component d := fun d hd => (hord d hd).1
    rw [vfsLookup_absPath hds hdcomp] at hf ⊢
    exact hwalk ds n hord hf

/-- An empty kernel, before the first mount. -/
def noVfs : Vfs where
  nodes := fun _ => zeroNode
  next := 0
  mounts := fun _ => ⟨none, none⟩
  nextMount := 0
  mountpointsN := 0
  root := none
  errno := 0
  strtok := none

/-- The tree after `vfs_mount("/", tmpfs())`. -/
def mountedTree : Vfs := (vfsMount noVfs ['/'] .tmpfs).getD noVfs

/-- With the directories `/d` and `/d/e`. -/
def nestedDirs : Vfs :=
  let v := ((vfsMkdir mountedTree ['/', 'd']).getD (none, noVfs)).2
  ((vfsMkdir v ['/', 'd', '/', 'e']).getD (none, noVfs)).2

/-- And with the file `/d/e/a`, as node 7. -/
def nestedTree : Vfs :=
  ((vfsOpen 0 nestedDirs none ['/', 'd', '/', 'e', '/', 'a'] O_CREAT).getD (none, noVfs)).2

theorem nestedTree_built : VfsBuilt nestedTree := by
  have hmount : vfsMount noVfs ['/'] .tmpfs = some mountedTree := rfl
  have hmkdir : vfsMkdir mountedTree ['/', 'd']
      = some (some 1, ((vfsMkdir mountedTree ['/', 'd']).getD (none, noVfs)).2) := rfl
  have hnested : vfsMkdir ((vfsMkdir mountedTree ['/', 'd']).getD (none, noVfs)).2
      ['/', 'd', '/', 'e'] = some (some 4, nestedDirs) := rfl
  have hopen : vfsOpen 0 nestedDirs none ['/', 'd', '/', 'e', '/', 'a'] O_CREAT
      = some (some 7, nestedTree) := rfl
  exact .opened (.mkdir (.mkdir (.mount (.empty rfl fun _ => rfl) hmount) hmkdir) hnested) hopen

/-- The file `/d/e/f` is created beside `/d/e/a`, which is still found. -/
theorem create_then_lookup_nested :
    ∃ v' ret, vfsOpen 0 nestedTree none ['/', 'd', '/', 'e', '/', 'f'] O_CREAT
        = some (some ret, v') ∧
      AddsFile nestedTree v' 4 ret ['f'] ∧
      vfsLookup v' ['/', 'd', '/', 'e', '/', 'a'] = some (some 7) := by
  obtain ⟨ret, v', hopen, hadds, -, hkept⟩ := create_then_lookup nestedTree_built
    (show [['d'], ['e'], ['f']] ≠ [] by simp) (by decide)
    (show follow _ _ [['d'], ['e']] = some (some 4) from rfl) rfl
    (show O_CREAT &&& O_CREAT ≠ 0 by decide) 0 none
  exact ⟨v', ret, hopen, hadds, hkept [['d'], ['e'], ['a']] 7 (by simp) (by decide) rfl⟩

end BestOS
