/-
BestOS/TreeSteps.lean

What each call does to the tree.

Of the four calls that make nodes each one either enters a single node in the
directory it has looked up (`Enters`), or leaves every directory as it was
(`KeepsDirs`): the path was not found, the file is there already, or the node is a
root, which is in no directory.  `treeStep_cases` says which, and `entersAt`
computes it from the state before.

The calls look the parent up after they have taken the block of the new node;
that block is empty, so the lookup is the one of the state before (`parentOf`).
-/
import BestOS.Ustar

namespace BestOS

/-! ### Calls -/

/-- A call that may make nodes. -/
inductive TreeOp
  | mount (path : CString) (fs : Filesystem)
  | mkdir (path : CString)
  | opened (buf : Nat) (path : CString) (flags : Nat)
  | createFile (buffer : Nat) (path : CString) (address size : Nat)

def treeStep (v : Vfs) : TreeOp → Option Vfs
  | .mount path fs => vfsMount v path fs
  | .mkdir path => (vfsMkdir v path).map Prod.snd
  | .opened buf path flags => (vfsOpen buf v v.root path flags).map Prod.snd
  | .createFile buffer path address size => tmpfsCreateFile buffer v path address size

/-- `vfs_get_parent(root, path)`. -/
def parentOf (v : Vfs) (path : CString) : Option Nat :=
  (vfsGetParent v v.root path).bind Prod.fst

/-- Where the call enters a node, and under which name. -/
def entersAt (v : Vfs) : TreeOp → Option (Nat × CString)
  | .mount path _ | .mkdir path =>
      if strEq path ['/'] then none else (parentOf v path).map fun p => (p, basename path)
  | .opened _ path flags =>
      (parentOf v path).bind fun p =>
        if flags &&& O_CREAT ≠ 0 ∧ vfsFindNode v (some p) (basename path) = some none then
          some (p, basename path)
        else none
  | .createFile _ path _ _ => (parentOf v path).map fun p => (p, basename path)

/-! ### Changes of the tree -/

/-- Equal in the fields the tree is made of. -/
structure SameShape (a b : VfsNode) : Prop where
  type : b.type = a.type
  name : b.name = a.name
  parent : b.parent = a.parent
  pointsTo : b.pointsTo = a.pointsTo
  children : b.children = a.children
  mountpoint : b.mountpoint = a.mountpoint

theorem SameShape.refl (a : VfsNode) : SameShape a a := ⟨rfl, rfl, rfl, rfl, rfl, rfl⟩

theorem SameShape.trans {a b c : VfsNode} (h : SameShape a b) (h' : SameShape b c) :
    SameShape a c where
  type := h'.type.trans h.type
  name := h'.name.trans h.name
  parent := h'.parent.trans h.parent
  pointsTo := h'.pointsTo.trans h.pointsTo
  children := h'.children.trans h.children
  mountpoint := h'.mountpoint.trans h.mountpoint

/-- The entries of a directory that was made in block `n`. -/
def newChildren (n : Nat) : VfsNodeType → List Nat
  | .file => []
  | .directory => [n + 1, n + 2]

/-- Block `v.next` holds a new node, the last entry of `parent`; the next two hold
its dot entries, if it is a directory. -/
structure Enters (v v' : Vfs) (parent : Nat) (kind : VfsNodeType) (name : CString) : Prop where
  bound : parent < v.next
  root : v'.root = v.root
  next : v'.next = v.next + 1 + (newChildren v.next kind).length
  type : (v'.nodes v.next).type = kind
  name : (v'.nodes v.next).name = name
  under : (v'.nodes v.next).parent = some parent
  plain : (v'.nodes v.next).pointsTo = none
  children : (v'.nodes v.next).children = newChildren v.next kind
  dotdot : kind = .directory → v'.nodes (v.next + 1) = dotEntry ['.', '.'] parent zeroNode
  dot : kind = .directory → v'.nodes (v.next + 2) = dotEntry ['.'] v.next zeroNode
  pushed : SameShape { v.nodes parent with children := (v.nodes parent).children ++ [v.next] }
    (v'.nodes parent)
  old : ∀ i < v.next, i ≠ parent → SameShape (v.nodes i) (v'.nodes i)
  free : ∀ i, v'.next ≤ i → v'.nodes i = v.nodes i

/-- No directory has changed; new nodes are directories without entries. -/
structure KeepsDirs (v v' : Vfs) : Prop where
  next : v.next ≤ v'.next
  old : ∀ i < v.next, SameShape (v.nodes i) (v'.nodes i)
  alone : ∀ i, v.next ≤ i → i < v'.next → (v'.nodes i).type = .directory ∧
    (v'.nodes i).children = [] ∧ (v'.nodes i).pointsTo = none
  root : v'.root = v.root ∨ v.root = none ∧ v'.root = some v.next ∧ v'.next = v.next + 1
  free : ∀ i, v'.next ≤ i → v'.nodes i = v.nodes i

/-! ### The tree after a call -/

namespace KeepsDirs

variable {v v' : Vfs}

/-- Every block has the entries it had, and points where it pointed. -/
theorem entries (h : VfsOk v) (k : KeepsDirs v v') (i : Nat) :
    (v'.nodes i).children = (v.nodes i).children ∧ (v'.nodes i).pointsTo = (v.nodes i).pointsTo := by
  rcases Nat.lt_or_ge i v.next with hlt | hge
  · exact ⟨(k.old i hlt).children, (k.old i hlt).pointsTo⟩
  · rcases Nat.lt_or_ge i v'.next with hlt' | hge'
    · -- a new node is like the zeros that were there
      rw [(k.alone i hge hlt').2.1, (k.alone i hge hlt').2.2, h.zero i hge]
      exact ⟨rfl, rfl⟩
    · rw [k.free i hge']
      exact ⟨rfl, rfl⟩

theorem children (h : VfsOk v) (k : KeepsDirs v v') (i : Nat) :
    (v'.nodes i).children = (v.nodes i).children := (k.entries h i).1

theorem pointsTo (h : VfsOk v) (k : KeepsDirs v v') (i : Nat) :
    (v'.nodes i).pointsTo = (v.nodes i).pointsTo := (k.entries h i).2

theorem ok (h : VfsOk v) (k : KeepsDirs v v') : VfsOk v' where
  zero := fun i hi => (k.free i hi).trans (h.zero i (k.next.trans hi))
  child := by
    intro i c hc
    rw [k.children h] at hc
    exact (h.child i c hc).trans_le k.next
  dots := by
    intro i hp
    rw [k.pointsTo h] at hp
    rw [(k.old i (h.lt_of_pointsTo hp)).name]
    exact h.dots i hp
  root := by
    intro r hr
    rcases k.root with hsame | ⟨-, hnew, hnext⟩
    · rw [hsame] at hr
      obtain ⟨hlt, hplain⟩ := h.root r hr
      exact ⟨hlt.trans_le k.next, (k.pointsTo h r).trans hplain⟩
    · obtain rfl := Option.some.inj (hnew.symm.trans hr)
      exact ⟨by omega, (k.alone _ (Nat.le_refl _) (by omega)).2.2⟩

end KeepsDirs

namespace Enters

variable {v v' : Vfs} {parent : Nat} {kind : VfsNodeType} {name : CString}

/-- An allocated node is an old one, the new one, or one of its dot entries. -/
theorem cases_lt (e : Enters v v' parent kind name) {i : Nat} (hi : i < v'.next) :
    i < v.next ∨ i = v.next ∨ i ∈ newChildren v.next kind := by
  have hnext := e.next
  cases kind with
  | file =>
    simp only [newChildren, List.length_nil] at hnext
    omega
  | directory =>
    simp only [newChildren, List.length_cons, List.length_nil] at hnext
    simp only [newChildren, List.mem_cons, List.not_mem_nil, or_false]
    omega

theorem next_lt (e : Enters v v' parent kind name) : v.next < v'.next := by
  rw [e.next]
  omega

/-- An old node keeps its fields, and `parent` has the new node behind its entries. -/
theorem shape (e : Enters v v' parent kind name) {i : Nat} (hi : i < v.next) :
    SameShape { v.nodes i with
      children := (v.nodes i).children ++ if i = parent then [v.next] else [] } (v'.nodes i) := by
  by_cases hp : i = parent
  · rw [if_pos hp, hp]
    exact e.pushed
  · rw [if_neg hp, List.append_nil]
    exact e.old i hi hp

theorem old_type (e : Enters v v' parent kind name) {i : Nat} (hi : i < v.next) :
    (v'.nodes i).type = (v.nodes i).type := (e.shape hi).type

theorem old_name (e : Enters v v' parent kind name) {i : Nat} (hi : i < v.next) :
    (v'.nodes i).name = (v.nodes i).name := (e.shape hi).name

theorem old_parent (e : Enters v v' parent kind name) {i : Nat} (hi : i < v.next) :
    (v'.nodes i).parent = (v.nodes i).parent := (e.shape hi).parent

theorem old_pointsTo (e : Enters v v' parent kind name) {i : Nat} (hi : i < v.next) :
    (v'.nodes i).pointsTo = (v.nodes i).pointsTo := (e.shape hi).pointsTo

theorem old_mountpoint (e : Enters v v' parent kind name) {i : Nat} (hi : i < v.next) :
    (v'.nodes i).mountpoint = (v.nodes i).mountpoint := (e.shape hi).mountpoint

theorem old_children (e : Enters v v' parent kind name) {i : Nat} (hi : i < v.next) :
    (v'.nodes i).children = (v.nodes i).children ++ if i = parent then [v.next] else [] :=
  (e.shape hi).children

/-- The dot entries of a new directory stand for its parent and for itself. -/
theorem new_dots (e : Enters v v' parent kind name) {n : Nat} (hn : n ∈ newChildren v.next kind) :
    v.next < n ∧ n < v'.next ∧ ∃ d t, v'.nodes n = dotEntry d t zeroNode ∧ Dot d ∧
      (t = parent ∨ t = v.next) := by
  have hnext := e.next
  cases kind with
  | file => cases hn
  | directory =>
    simp only [newChildren, List.length_cons, List.length_nil] at hnext
    rcases List.mem_cons.mp hn with rfl | hn
    · exact ⟨by omega, by omega, _, _, e.dotdot rfl, .inr rfl, .inl rfl⟩
    · obtain rfl := List.mem_singleton.mp hn
      exact ⟨by omega, by omega, _, _, e.dot rfl, .inl rfl, .inr rfl⟩

/-- An entry after the call: an old one, the new node in `parent`, or a dot entry of
the new node. -/
theorem mem_cases (h : VfsOk v) (e : Enters v v' parent kind name) {i c : Nat}
    (hc : c ∈ (v'.nodes i).children) :
    (i < v.next ∧ c ∈ (v.nodes i).children) ∨ (i = parent ∧ c = v.next) ∨
      (i = v.next ∧ c ∈ newChildren v.next kind) := by
  rcases Nat.lt_or_ge i v'.next with hi | hi
  · rcases e.cases_lt hi with hold | rfl | hdot
    · rw [e.old_children hold] at hc
      rcases List.mem_append.mp hc with hc | hc
      · exact .inl ⟨hold, hc⟩
      · split at hc
        · next hp => exact .inr (.inl ⟨hp, List.mem_singleton.mp hc⟩)
        · cases hc
    · rw [e.children] at hc
      exact .inr (.inr ⟨rfl, hc⟩)
    · obtain ⟨-, -, d, t, hnode, -⟩ := e.new_dots hdot
      rw [hnode] at hc
      cases hc
  · rw [e.free i hi, h.zero i (e.next_lt.le.trans hi)] at hc
    cases hc

theorem ok (h : VfsOk v) (e : Enters v v' parent kind name) : VfsOk v' where
  zero := fun i hi => (e.free i hi).trans (h.zero i (e.next_lt.le.trans hi))
  child := by
    intro i c hc
    rcases e.mem_cases h hc with ⟨-, hold⟩ | ⟨-, rfl⟩ | ⟨-, hdot⟩
    · exact (h.child i c hold).trans e.next_lt
    · exact e.next_lt
    · exact (e.new_dots hdot).2.1
  dots := by
    intro i hp
    rcases Nat.lt_or_ge i v'.next with hi | hi
    · rcases e.cases_lt hi with hold | rfl | hdot
      · rw [e.old_pointsTo hold] at hp
        rw [e.old_name hold]
        exact h.dots i hp
      · exact absurd e.plain hp
      · obtain ⟨-, -, d, t, hnode, hd, -⟩ := e.new_dots hdot
        rw [hnode]
        exact hd
    · rw [e.free i hi, h.zero i (e.next_lt.le.trans hi)] at hp
      exact absurd rfl hp
  root := by
    intro r hr
    rw [e.root] at hr
    obtain ⟨hlt, hplain⟩ := h.root r hr
    exact ⟨hlt.trans e.next_lt, (e.old_pointsTo hlt).trans hplain⟩

end Enters

/-! ### Lookups after a block is taken -/

/-- The lookups of two states agree: the allocated nodes have the same names,
children and pointers, and the free ones no children. -/
structure SameFinds (v v₁ : Vfs) : Prop where
  children : ∀ i, (v₁.nodes i).children = (v.nodes i).children
  name : ∀ i < v.next, (v₁.nodes i).name = (v.nodes i).name
  pointsTo : ∀ i < v.next, (v₁.nodes i).pointsTo = (v.nodes i).pointsTo

variable {v : Vfs}

theorem SameFinds.findChild (h : VfsOk v) {v₁ : Vfs} (s : SameFinds v v₁) (n : Nat) (name : CString) :
    findChild v₁ n name = BestOS.findChild v n name := by
  unfold BestOS.findChild
  rw [s.children]
  apply List.find?_congr
  intro c hc
  rw [s.name c (h.child n c hc)]

theorem SameFinds.find (h : VfsOk v) {v₁ : Vfs} (s : SameFinds v v₁) {node : Option Nat}
    (hnode : Allocated v node) (name : CString) :
    vfsFindNode v₁ node name = vfsFindNode v node name := by
  cases node with
  | none => rfl
  | some n =>
    unfold vfsFindNode
    dsimp only
    rw [s.pointsTo n (hnode n rfl)]
    simp only [s.findChild h]

theorem SameFinds.loop (h : VfsOk v) {v₁ : Vfs} (s : SameFinds v v₁) {start node : Option Nat}
    (hstart : Allocated v start) (hnode : Allocated v node) (n : Nat) (segs : List CString) :
    (getParentLoop v₁ start n node segs).map Prod.fst
      = (getParentLoop v start n node segs).map Prod.fst := by
  induction segs generalizing node with
  | nil => rfl
  | cons c segs ih =>
    cases segs with
    | nil => rfl
    | cons d rest =>
      rw [getParentLoop, getParentLoop, s.find h hstart, s.find h hnode]
      split
      · split
        · rfl
        · cases hf : vfsFindNode v node d with
          | none => rfl
          | some m => exact ih (h.find_allocated hf)
      · split
        · rfl
        · cases hf : vfsFindNode v start d with
          | none => rfl
          | some m => exact ih (h.find_allocated hf)

theorem SameFinds.getParent (h : VfsOk v) {v₁ : Vfs} (s : SameFinds v v₁) {start : Option Nat}
    (hstart : Allocated v start) (path : CString) :
    (vfsGetParent v₁ start path).map Prod.fst = (vfsGetParent v start path).map Prod.fst := by
  unfold vfsGetParent
  rw [vfsParsePath_eq, vfsParsePath_eq]
  have hok : VfsOk { v with strtok := none } := h.same ⟨rfl, rfl, rfl⟩
  have hlook : SameFinds { v with strtok := none } { v₁ with strtok := none } :=
    ⟨s.children, s.name, s.pointsTo⟩
  exact hlook.loop hok hstart hstart _ _

/-- Taking a block and filling in a node without entries. -/
theorem newNode_lookups (h : VfsOk v) {f : VfsNode → VfsNode} (hf : (f zeroNode).children = []) :
    SameFinds v (newNode v f).2 where
  children := by
    intro i
    show (Function.update v.nodes v.next (f (v.nodes v.next)) i).children = _
    by_cases hi : i = v.next
    · subst hi
      rw [Function.update_self, h.zero _ (Nat.le_refl _), hf]
      rfl
    · rw [Function.update_of_ne hi]
  name := by
    intro i hi
    show (Function.update v.nodes v.next (f (v.nodes v.next)) i).name = _
    rw [Function.update_of_ne (Nat.ne_of_lt hi)]
  pointsTo := by
    intro i hi
    show (Function.update v.nodes v.next (f (v.nodes v.next)) i).pointsTo = _
    rw [Function.update_of_ne (Nat.ne_of_lt hi)]

/-- The parent that is looked up once the block is taken. -/
theorem getParent_newNode (h : VfsOk v) {f : VfsNode → VfsNode} (hf : (f zeroNode).children = [])
    {path : CString} {parent : Option Nat} {v₂ : Vfs}
    (hg : vfsGetParent (newNode v f).2 (newNode v f).2.root path = some (parent, v₂)) :
    parentOf v path = parent ∧ (∀ p, parent = some p → p < v.next) ∧
      ∃ e t, v₂ = { (newNode v f).2 with errno := e, strtok := t } := by
  have hsame := (newNode_lookups h hf).getParent h h.root_allocated path
  rw [show v.root = (newNode v f).2.root from rfl, hg] at hsame
  cases hv : vfsGetParent v v.root path with
  | none =>
    rw [show v.root = (newNode v f).2.root from rfl] at hv
    rw [hv] at hsame
    cases hsame
  | some r =>
    obtain ⟨parent', v₃⟩ := r
    have hpar := (h.getParent h.root_allocated hv).2
    rw [show v.root = (newNode v f).2.root from rfl] at hv
    rw [hv] at hsame
    obtain rfl : parent = parent' := Option.some.inj hsame
    refine ⟨?_, fun p hp => hpar p hp, vfsGetParent_vfs hg⟩
    rw [parentOf, show v.root = (newNode v f).2.root from rfl, hv]
    rfl

/-! ### `vfs_mkdir` and `vfs_mount` -/

/-- How `vfs_mkdir` ends. -/
inductive MkdirEnd (v : Vfs) (path : CString) : Option Nat → Vfs → Prop
  -- a root: it has a mount point of its own
  | root {v'} : path = ['/'] → KeepsDirs v v' → v'.next = v.next + 1 → v'.root = v.root →
      (v'.nodes v.next).mountpoint = some v.nextMount → v'.mounts = v.mounts →
      v'.nextMount = v.nextMount + 1 → MkdirEnd v path (some v.next) v'
  -- the parent is not found
  | missing {v'} : path ≠ ['/'] → parentOf v path = none → KeepsDirs v v' → v'.root = v.root →
      v'.mounts = v.mounts → v'.nextMount = v.nextMount → MkdirEnd v path none v'
  | entered {v'} (parent root : Nat) : path ≠ ['/'] → parentOf v path = some parent →
      v.root = some root → Enters v v' parent .directory (basename path) →
      (v'.nodes v.next).mountpoint = (v.nodes root).mountpoint → v'.mounts = v.mounts →
      v'.nextMount = v.nextMount → MkdirEnd v path (some v.next) v'

/-- A node made by `f` in a fresh block, and nothing else. -/
theorem kept_newNode {f : VfsNode → VfsNode} {v' : Vfs} (hnext : v'.next = v.next + 1)
    (hroot : v'.root = v.root) (hnodes : v'.nodes = Function.update v.nodes v.next (f zeroNode))
    (htype : (f zeroNode).type = .directory) (hchild : (f zeroNode).children = [])
    (hpoints : (f zeroNode).pointsTo = none) : KeepsDirs v v' where
  next := by omega
  old := by
    intro i hi
    rw [hnodes, Function.update_of_ne (Nat.ne_of_lt hi)]
    exact .refl _
  alone := by
    intro i h1 h2
    obtain rfl : i = v.next := by omega
    rw [hnodes, Function.update_self]
    exact ⟨htype, hchild, hpoints⟩
  root := .inl hroot
  free := by
    intro i hi
    rw [hnodes, Function.update_of_ne (by omega)]

theorem vfsMkdir_end (h : VfsOk v) {path : CString} {res : Option Nat} {v' : Vfs}
    (hm : vfsMkdir v path = some (res, v')) : MkdirEnd v path res v' := by
  have hzero : v.nodes v.next = zeroNode := h.zero _ (Nat.le_refl _)
  unfold vfsMkdir at hm
  dsimp only at hm
  rw [show (newNode v emptyDir).1 = v.next from rfl] at hm
  by_cases hslash : strEq path ['/'] = true
  · rw [if_pos hslash] at hm
    obtain ⟨rfl, rfl⟩ := Prod.mk.inj (Option.some.inj hm)
    refine .root ((strEq_iff _ _).mp hslash) ?_ rfl rfl ?_ rfl rfl
    · refine kept_newNode (f := fun n => rootDir v.next v.nextMount (emptyDir n)) rfl rfl ?_ rfl rfl rfl
      simp only [setNode, newNode, mallocMount, Function.update_idem, Function.update_self, hzero]
    · simp only [setNode, mallocMount, newNode, Function.update_self, rootDir]
  · rw [if_neg hslash] at hm
    have hpath : path ≠ ['/'] := fun he => hslash ((strEq_iff _ _).mpr he)
    split at hm
    · cases hm
    · next parent v₂ hg =>
      obtain ⟨hpar, hlt, e, t, rfl⟩ := getParent_newNode h rfl hg
      cases parent with
      | none =>
        obtain ⟨rfl, rfl⟩ := Prod.mk.inj (Option.some.inj hm)
        refine .missing hpath hpar ?_ rfl rfl rfl
        refine kept_newNode (f := fun n => namedDir none (basename path) (emptyDir n)) rfl rfl ?_
          rfl rfl rfl
        simp only [setNode, newNode, Function.update_idem, Function.update_self, hzero]
      | some parent =>
        have hparent := hlt parent rfl
        dsimp only at hm
        split at hm
        · next hp => cases hp
        · cases hm
        · next p root hp hr =>
          obtain rfl := Option.some.inj hp
          have hroot : v.root = some root := hr
          obtain ⟨rfl, rfl⟩ := Prod.mk.inj (Option.some.inj hm)
          have hne : v.next ≠ parent := Nat.ne_of_gt hparent
          have hlt := (h.root root hroot).1
          -- the state before the dot entries are made
          generalize hv₄ : setNode (setNode _ v.next (namedDir (some parent) (basename path))) v.next _
            = v₄
          have hnode₄ : v₄.nodes v.next =
              { namedDir (some parent) (basename path) (emptyDir zeroNode) with
                mountpoint := (v.nodes root).mountpoint } := by
            rw [← hv₄]
            simp only [setNode, newNode, Function.update_self, Function.update_idem, hzero,
              Function.update_of_ne (Nat.ne_of_lt hlt)]
          have hold₄ : ∀ i, i ≠ v.next → v₄.nodes i = v.nodes i := by
            intro i hi
            rw [← hv₄]
            simp only [setNode, newNode, Function.update_of_ne hi]
          have hnext₄ : v₄.next = v.next + 1 := by
            rw [← hv₄]
            rfl
          have hrest₄ : v₄.root = v.root ∧ v₄.mounts = v.mounts ∧ v₄.nextMount = v.nextMount := by
            rw [← hv₄]
            exact ⟨rfl, rfl, rfl⟩
          obtain ⟨hn, hr', hnode, hpushed, hdotdot, hdot, hothers⟩ :=
            @linkDir_nodes v₄ v.next parent (by omega) (by omega) hne
          have hmounts : (linkDir v₄ v.next parent).mounts = v₄.mounts ∧
              (linkDir v₄ v.next parent).nextMount = v₄.nextMount := ⟨rfl, rfl⟩
          generalize linkDir v₄ v.next parent = v' at *
          rw [hnode₄, hnext₄] at hnode
          rw [hnext₄, hold₄ _ (by omega), h.zero _ (by omega)] at hdotdot hdot
          refine .entered parent root hpath hpar hroot ?_ ?_ (hmounts.1.trans hrest₄.2.1)
            (hmounts.2.trans hrest₄.2.2)
          · constructor
            · exact hparent
            · exact hr'.trans hrest₄.1
            · rw [hn, hnext₄]
              rfl
            · rw [hnode]
              rfl
            · rw [hnode]
              rfl
            · rw [hnode]
              rfl
            · rw [hnode]
              rfl
            · rw [hnode]
              rfl
            · exact fun _ => hdotdot
            · exact fun _ => hdot
            · rw [hpushed, hold₄ parent hne.symm]
              exact .refl _
            · intro i hi hip
              rw [hothers i (by omega) hip (by omega), hold₄ i (by omega)]
              exact .refl _
            · intro i hi
              rw [hothers i (by omega) (by omega) (by omega), hold₄ i (by omega)]
          · rw [hnode]

/-- Only the tree counts. -/
theorem KeepsDirs.congr {v v' v'' : Vfs} (k : KeepsDirs v v') (hs : SameTree v' v'') : KeepsDirs v v'' := by
  obtain ⟨hnext, hold, halone, hroot, hfree⟩ := k
  rw [← hs.next] at hnext halone hroot hfree
  rw [← hs.nodes] at hold halone hfree
  rw [← hs.root] at hroot
  exact ⟨hnext, hold, halone, hroot, hfree⟩

theorem Enters.congr {v v' v'' : Vfs} {parent : Nat} {kind : VfsNodeType} {name : CString}
    (e : Enters v v' parent kind name) (hs : SameTree v' v'') : Enters v v'' parent kind name where
  bound := e.bound
  root := hs.root.trans e.root
  next := hs.next.trans e.next
  type := by rw [hs.nodes, e.type]
  name := by rw [hs.nodes, e.name]
  under := by rw [hs.nodes, e.under]
  plain := by rw [hs.nodes, e.plain]
  children := by rw [hs.nodes, e.children]
  dotdot := fun hd => by rw [hs.nodes, e.dotdot hd]
  dot := fun hd => by rw [hs.nodes, e.dot hd]
  pushed := by rw [hs.nodes]; exact e.pushed
  old := fun i hi hip => by rw [hs.nodes]; exact e.old i hi hip
  free := fun i hi => by rw [hs.nodes]; exact e.free i (hs.next ▸ hi)

theorem setNode_same (v : Vfs) (n : Nat) (f : VfsNode → VfsNode) :
    (setNode v n f).nodes n = f (v.nodes n) := Function.update_self _ _ _

theorem setNode_other {v : Vfs} {n i : Nat} (h : i ≠ n) (f : VfsNode → VfsNode) :
    (setNode v n f).nodes i = v.nodes i := Function.update_of_ne h _ _

/-- The new node may be given another mount point. -/
theorem Enters.setMountpoint {v v' : Vfs} {parent : Nat} {kind : VfsNodeType} {name : CString}
    (e : Enters v v' parent kind name) (m : Option Nat) :
    Enters v (setNode v' v.next fun n => { n with mountpoint := m }) parent kind name := by
  constructor
  · exact e.bound
  · exact e.root
  · exact e.next
  · rw [setNode_same]
    exact e.type
  · rw [setNode_same]
    exact e.name
  · rw [setNode_same]
    exact e.under
  · rw [setNode_same]
    exact e.plain
  · rw [setNode_same]
    exact e.children
  · rw [setNode_other (by omega)]
    exact e.dotdot
  · rw [setNode_other (by omega)]
    exact e.dot
  · rw [setNode_other (Nat.ne_of_lt e.bound)]
    exact e.pushed
  · intro i hi hip
    rw [setNode_other (Nat.ne_of_lt hi)]
    exact e.old i hi hip
  · intro i hi
    have hlt := e.next_lt.trans_le hi
    rw [setNode_other (Nat.ne_of_gt hlt)]
    exact e.free i hi

theorem KeepsDirs.setMountpoint {v v' : Vfs} (k : KeepsDirs v v') (hnext : v'.next = v.next + 1)
    (m : Option Nat) : KeepsDirs v (setNode v' v.next fun n => { n with mountpoint := m }) := by
  constructor
  · exact k.next
  · intro i hi
    rw [setNode_other (Nat.ne_of_lt hi)]
    exact k.old i hi
  · intro i h1 h2
    have h2 : i < v'.next := h2
    obtain rfl : i = v.next := by omega
    rw [setNode_same]
    exact k.alone _ h1 h2
  · exact k.root
  · intro i hi
    have hi : v'.next ≤ i := hi
    rw [setNode_other (by omega)]
    exact k.free i hi

/-- How `vfs_mount` ends, when it returns. -/
inductive MountEnd (v : Vfs) (path : CString) (fs : Filesystem) : Vfs → Prop
  | root {v'} : v.root = none → path = ['/'] → KeepsDirs v v' → v'.next = v.next + 1 →
      v'.root = some v.next → (v'.nodes v.next).mountpoint = some v.nextMount →
      v'.mounts = Function.update v.mounts v.nextMount ⟨some fs, some v.next⟩ →
      v'.nextMount = v.nextMount + 1 → MountEnd v path fs v'
  -- another root, which nothing leads to
  | again {v'} : v.root ≠ none → path = ['/'] → KeepsDirs v v' → v'.next = v.next + 1 →
      v'.root = v.root → (v'.nodes v.next).mountpoint = some (v.nextMount + 1) →
      v'.mounts = Function.update v.mounts (v.nextMount + 1)
        { v.mounts (v.nextMount + 1) with fs := some fs } →
      v'.nextMount = v.nextMount + 2 → MountEnd v path fs v'
  | entered {v'} (parent : Nat) : path ≠ ['/'] → parentOf v path = some parent →
      Enters v v' parent .directory (basename path) →
      (v'.nodes v.next).mountpoint = some v.nextMount →
      v'.mounts = Function.update v.mounts v.nextMount
        { v.mounts v.nextMount with fs := some fs } →
      v'.nextMount = v.nextMount + 1 → MountEnd v path fs v'

theorem vfsMount_end (h : VfsOk v) {path : CString} {fs : Filesystem} {v' : Vfs}
    (hm : vfsMount v path fs = some v') : MountEnd v path fs v' := by
  unfold vfsMount at hm
  split at hm
  · cases hm
  · cases hm
  · next node v₁ hk =>
    -- what the second assignment to the mount point leaves
    have hmount₂ : ∀ m, ((setNode v₁ node fun n => { n with mountpoint := m }).nodes node).mountpoint = m := by
      intro m
      simp only [setNode, Function.update_self]
    rcases vfsMkdir_end h hk with ⟨hpath, hkept, hnext, hroot, hmount, hmounts, hnm⟩ | _ |
      ⟨parent, root, hpath, hpar, hr, henters, hmount, hmounts, hnm⟩
    · split at hm
      · next hr =>
        split at hm
        · cases hm
        · next m hm₁ =>
          obtain rfl := Option.some.inj (hmount.symm.trans hm₁)
          obtain rfl := pushMountpoint_eq hm
          refine .root hr hpath ?_ hnext rfl hmount (by rw [hmounts]) hnm
          exact ⟨hkept.next, hkept.old, hkept.alone, .inr ⟨hr, rfl, hnext⟩, hkept.free⟩
      · next r hr =>
        obtain rfl := pushMountpoint_eq hm
        refine .again (by rw [hr]; simp) hpath ?_ hnext hroot ?_ ?_ ?_
        · exact (hkept.setMountpoint hnext (some v₁.nextMount)).congr ⟨rfl, rfl, rfl⟩
        · rw [← hnm]
          exact hmount₂ _
        · show Function.update v₁.mounts v₁.nextMount { v₁.mounts v₁.nextMount with fs := some fs } = _
          rw [hmounts, hnm]
        · show v₁.nextMount + 1 = _
          rw [hnm]
    · rw [hr] at hm
      obtain rfl := pushMountpoint_eq hm
      refine .entered parent hpath hpar ?_ ?_ ?_ ?_
      · exact (henters.setMountpoint (some v₁.nextMount)).congr ⟨rfl, rfl, rfl⟩
      · rw [← hnm]
        exact hmount₂ _
      · show Function.update v₁.mounts v₁.nextMount { v₁.mounts v₁.nextMount with fs := some fs } = _
        rw [hmounts, hnm]
      · show v₁.nextMount + 1 = _
        rw [hnm]

/-! ### `vfs_open` and `tmpfs_create_file` -/

/-- A file made by `f` in a fresh block, and pushed to its parent. -/
theorem enters_file {parent : Nat} {f : VfsNode → VfsNode} {v' : Vfs} {name : CString}
    (hparent : parent < v.next) (hnext : v'.next = v.next + 1) (hroot : v'.root = v.root)
    (hnodes : v'.nodes = Function.update (Function.update v.nodes v.next (f zeroNode)) parent
      { v.nodes parent with children := (v.nodes parent).children ++ [v.next] })
    (hshape : SameShape { zeroNode with
      type := .file
      name := name
      parent := some parent
      mountpoint := (f zeroNode).mountpoint } (f zeroNode)) : Enters v v' parent .file name := by
  have hnode : v'.nodes v.next = f zeroNode := by
    rw [hnodes, Function.update_of_ne (Nat.ne_of_gt hparent), Function.update_self]
  constructor
  · exact hparent
  · exact hroot
  · exact hnext
  · rw [hnode, hshape.type]
  · rw [hnode, hshape.name]
  · rw [hnode, hshape.parent]
  · rw [hnode, hshape.pointsTo]
    rfl
  · rw [hnode, hshape.children]
    rfl
  · exact fun hd => nomatch hd
  · exact fun hd => nomatch hd
  · rw [hnodes, Function.update_self]
    exact .refl _
  · intro i hi hip
    rw [hnodes, Function.update_of_ne hip, Function.update_of_ne (Nat.ne_of_lt hi)]
    exact .refl _
  · intro i hi
    rw [hnodes, Function.update_of_ne (by omega), Function.update_of_ne (by omega)]

/-- How `vfs_open` changes the tree. -/
inductive OpenEnd (v : Vfs) (path : CString) (flags : Nat) : Vfs → Prop
  | kept {v'} : (∀ p, parentOf v path = some p → flags &&& O_CREAT ≠ 0 →
        vfsFindNode v (some p) (basename path) ≠ some none) →
      KeepsDirs v v' → v'.next = v.next → v'.root = v.root → v'.mounts = v.mounts →
      v'.nextMount = v.nextMount → OpenEnd v path flags v'
  | entered {v'} (parent : Nat) : parentOf v path = some parent → flags &&& O_CREAT ≠ 0 →
      vfsFindNode v (some parent) (basename path) = some none →
      Enters v v' parent .file (basename path) →
      (v'.nodes v.next).mountpoint = (v.nodes parent).mountpoint → v'.mounts = v.mounts →
      v'.nextMount = v.nextMount → OpenEnd v path flags v'

theorem kept_of_shape {v' : Vfs} (hnext : v'.next = v.next) (hroot : v'.root = v.root)
    (hshape : ∀ i, SameShape (v.nodes i) (v'.nodes i)) (hfree : ∀ i, v.next ≤ i → v'.nodes i = v.nodes i) :
    KeepsDirs v v' where
  next := hnext.ge
  old := fun i _ => hshape i
  alone := fun i h1 h2 => by omega
  root := .inl hroot
  free := fun i hi => hfree i (hnext ▸ hi)

/-- Setting the mode of an allocated node leaves the tree as it was. -/
theorem kept_setMode {n flags : Nat} (hn : n < v.next) :
    KeepsDirs v (setNode v n fun n => { n with oMode := flags }) := by
  refine kept_of_shape rfl rfl (fun i => ?_) fun i hi => Function.update_of_ne (by omega) _ _
  by_cases hi : i = n
  · subst hi
    simp only [setNode, Function.update_self]
    exact ⟨rfl, rfl, rfl, rfl, rfl, rfl⟩
  · simp only [setNode, Function.update_of_ne hi]
    exact .refl _

theorem vfsOpen_end (h : VfsOk v) {buf flags : Nat} {path : CString} {start res : Option Nat}
    {v' : Vfs} (ho : vfsOpen buf v start path flags = some (res, v')) : OpenEnd v path flags v' := by
  unfold vfsOpen at ho
  have hrefl : KeepsDirs v v := kept_of_shape rfl rfl (fun _ => .refl _) fun _ _ => rfl
  split at ho
  · cases ho
  · next v₁ hg =>
    obtain ⟨rfl, rfl⟩ := Prod.mk.inj (Option.some.inj ho)
    obtain ⟨e, t, rfl⟩ := vfsGetParent_vfs hg
    have hpar : parentOf v path = none := by
      rw [parentOf, hg]
      rfl
    refine .kept (fun p hp => ?_) (hrefl.congr ⟨rfl, rfl, rfl⟩) rfl rfl rfl rfl
    rw [hpar] at hp
    cases hp
  · next parent v₁ hg =>
    have hpar : parentOf v path = some parent := by
      rw [parentOf, hg]
      rfl
    have hparent : parent < v.next := (h.getParent h.root_allocated hg).2 parent rfl
    obtain ⟨e, t, rfl⟩ := vfsGetParent_vfs hg
    -- the file is there, or is not made
    have hkept : ∀ v₂ : Vfs, KeepsDirs v v₂ → v₂.next = v.next → v₂.root = v.root → v₂.mounts = v.mounts →
        v₂.nextMount = v.nextMount →
        (flags &&& O_CREAT ≠ 0 → vfsFindNode v (some parent) (basename path) ≠ some none) →
        OpenEnd v path flags v₂ := by
      intro v₂ hk hnext hroot hmounts hnm hfound
      refine .kept (fun p hp hc => ?_) hk hnext hroot hmounts hnm
      obtain rfl := Option.some.inj (hpar.symm.trans hp)
      exact hfound hc
    cases openIn_end ho with
    | made hf hcreat =>
      have hne := Nat.ne_of_gt hparent
      refine .entered parent hpar hcreat hf (enters_file (f := newFile (basename path) parent flags
        (v.nodes parent).mountpoint buf) hparent rfl rfl ?_ ⟨rfl, rfl, rfl, rfl, rfl, rfl⟩) ?_ rfl rfl
      · simp only [pushChild, newNode, setNode, Function.update_of_ne hne.symm,
          h.zero _ (Nat.le_refl _)]
      · simp only [pushChild, newNode, setNode, Function.update_of_ne hne, Function.update_self,
          newFile]
    | missing hf hcreat =>
      exact hkept _ (hrefl.congr ⟨rfl, rfl, rfl⟩) rfl rfl rfl rfl fun hc => absurd hcreat hc
    | refused n hf hdir htype =>
      exact hkept _ (hrefl.congr ⟨rfl, rfl, rfl⟩) rfl rfl rfl rfl
        fun _ hnone => absurd (hf.symm.trans hnone) (by simp)
    | found n hf =>
      have hfind : vfsFindNode v (some parent) (basename path) = some (some n) := hf
      exact hkept _ ((kept_setMode (h.find_allocated hfind n rfl)).congr ⟨rfl, rfl, rfl⟩) rfl rfl rfl rfl
        fun _ hnone => absurd (hf.symm.trans hnone) (by simp)

/-- `tmpfs_create_file` enters a file whenever it returns. -/
theorem tmpfsCreateFile_end (h : VfsOk v) {buffer address size : Nat} {path : CString} {v' : Vfs}
    (hc : tmpfsCreateFile buffer v path address size = some v') :
    ∃ parent, parentOf v path = some parent ∧ Enters v v' parent .file (basename path) ∧
      (v'.nodes v.next).mountpoint = (v.nodes parent).mountpoint ∧ v'.mounts = v.mounts ∧
      v'.nextMount = v.nextMount := by
  unfold tmpfsCreateFile at hc
  dsimp only at hc
  split at hc
  · cases hc
  · cases hc
  · next parent v₁ hg =>
    obtain ⟨hpar, hlt, e, t, rfl⟩ := getParent_newNode h rfl hg
    have hparent := hlt parent rfl
    have hne := Nat.ne_of_gt hparent
    obtain rfl := Option.some.inj hc
    refine ⟨parent, hpar, enters_file (f := fun n => tmpfsFile parent (v.nodes parent).mountpoint size
      buffer address (namedFile (basename path) n)) hparent rfl rfl ?_ ⟨rfl, rfl, rfl, rfl, rfl, rfl⟩,
      ?_, rfl, rfl⟩
    · simp only [newNode, pushChild, setNode, Function.update_idem, Function.update_self,
        Function.update_of_ne hne.symm, h.zero _ (Nat.le_refl _)]
    · simp only [newNode, pushChild, setNode, Function.update_of_ne hne, Function.update_of_ne hne.symm,
        Function.update_self, tmpfsFile]

/-! ### One step -/

/-- **What a call does to the tree**: it enters one node where `entersAt` says, or
changes no directory. -/
theorem treeStep_cases (h : VfsOk v) {op : TreeOp} {v' : Vfs} (hs : treeStep v op = some v') :
    (entersAt v op = none ∧ KeepsDirs v v') ∨
      ∃ parent kind name, entersAt v op = some (parent, name) ∧ Enters v v' parent kind name := by
  cases op with
  | mount path fs =>
    rcases vfsMount_end h hs with ⟨-, hpath, hkept, -⟩ | ⟨-, hpath, hkept, -⟩ |
      ⟨parent, hpath, hpar, henters, -⟩
    · exact .inl ⟨if_pos ((strEq_iff _ _).mpr hpath), hkept⟩
    · exact .inl ⟨if_pos ((strEq_iff _ _).mpr hpath), hkept⟩
    · refine .inr ⟨parent, .directory, basename path, ?_, henters⟩
      rw [entersAt, if_neg (fun he => hpath ((strEq_iff _ _).mp he)), hpar]
      rfl
  | mkdir path =>
    obtain ⟨⟨res, v₁⟩, hm, rfl⟩ := Option.map_eq_some_iff.mp hs
    rcases vfsMkdir_end h hm with ⟨hpath, hkept, -⟩ | ⟨hpath, hpar, hkept, -⟩ |
      ⟨parent, root, hpath, hpar, -, henters, -⟩
    · exact .inl ⟨if_pos ((strEq_iff _ _).mpr hpath), hkept⟩
    · refine .inl ⟨?_, hkept⟩
      rw [entersAt, if_neg (fun he => hpath ((strEq_iff _ _).mp he)), hpar]
      rfl
    · refine .inr ⟨parent, .directory, basename path, ?_, henters⟩
      rw [entersAt, if_neg (fun he => hpath ((strEq_iff _ _).mp he)), hpar]
      rfl
  | opened buf path flags =>
    obtain ⟨⟨res, v₁⟩, ho, rfl⟩ := Option.map_eq_some_iff.mp hs
    rcases vfsOpen_end h ho with ⟨hfound, hkept, -⟩ | ⟨parent, hpar, hcreat, hnone, henters, -⟩
    · refine .inl ⟨?_, hkept⟩
      rw [entersAt, Option.bind_eq_none_iff]
      intro p hp
      exact if_neg fun hc => hfound p hp hc.1 hc.2
    · refine .inr ⟨parent, .file, basename path, ?_, henters⟩
      rw [entersAt, hpar, Option.bind_some, if_pos ⟨hcreat, hnone⟩]
  | createFile buffer path address size =>
    obtain ⟨parent, hpar, henters, -⟩ := tmpfsCreateFile_end h hs
    refine .inr ⟨parent, .file, basename path, ?_, henters⟩
    rw [entersAt, hpar]
    rfl

theorem VfsOk.step {v' : Vfs} (h : VfsOk v) {op : TreeOp} (hs : treeStep v op = some v') :
    VfsOk v' := by
  rcases treeStep_cases h hs with ⟨-, hkept⟩ | ⟨parent, kind, name, -, henters⟩
  · exact hkept.ok h
  · exact henters.ok h

end BestOS
