/-
BestOS/MountCoherence.lean

The filesystem of a node.

`Mounted` records what was mounted where, and `NearestMark` says which of the
mounts a node lies under: the first on the way up, from a node to its parent and
from a dot entry to the directory it stands for.  `Coherent` compares that with
`node->mountpoint->fs`.

The mount point is copied when a node is made, by `vfs_mkdir` from the root and by
`vfs_open` and `tmpfs_create_file` from the parent.  The first rule is right where
the parent lies under the filesystem of the root, the second where the parent is no
dot entry, since dot entries have no mount point (`FsOk`).
-/
import BestOS.NearestMark
import BestOS.TreeShape
import BestOS.Syscalls

namespace BestOS

/-! ### What is mounted where -/

/-- The filesystems that were mounted: by the directories `vfs_mount` made, over
the root, and by the directory and the name that the path designated. -/
structure Mounted where
  node : Nat → Option Filesystem
  root : Option Filesystem
  place : Nat → CString → Option Filesystem

def noMounts : Mounted := ⟨fun _ => none, none, fun _ _ => none⟩

/-- The record after a call. -/
def recordMount (v : Vfs) (m : Mounted) : TreeOp → Mounted
  | .mount path fs =>
      { node := Function.update m.node v.next (some fs)
        root := if strEq path ['/'] then some fs else m.root
        place := fun dir name =>
          if strEq path ['/'] = false ∧ parentOf v path = some dir ∧ name = basename path then some fs
          else m.place dir name }
  | _ => m

/-- The node above: for a dot entry the directory it stands for. -/
def above (v : Vfs) (n : Nat) : Option Nat := (v.nodes n).pointsTo.or (v.nodes n).parent

/-- The filesystem mounted at the nearest mount point, the node itself or one
above it. -/
def NearestMount (v : Vfs) (m : Mounted) : Nat → Filesystem → Prop := NearestMark (above v) m.node

/-- The filesystem of a node is the one mounted nearest. -/
def Coherent (v : Vfs) (m : Mounted) (n : Nat) : Prop :=
  (∃ fs, NearestMount v m n fs) ∧ ∀ fs, NearestMount v m n fs → nodeFs v n = some fs

/-- The root and the nodes that are listed in a directory. -/
def TreeNode (v : Vfs) (n : Nat) : Prop :=
  v.root = some n ∨ ∃ i < v.next, n ∈ (v.nodes i).children

/-! ### Lookups stay in the tree -/

theorem VfsOk.treeNode_lt {v : Vfs} (h : VfsOk v) {n : Nat} (hn : TreeNode v n) : n < v.next := by
  rcases hn with hroot | ⟨i, -, hi⟩
  · exact (h.root n hroot).1
  · exact h.child i n hi

theorem VfsOk.find_treeNode {v : Vfs} (h : VfsOk v) {node : Option Nat} {name : CString} {n : Nat}
    (hf : vfsFindNode v node name = some (some n)) : TreeNode v n := by
  obtain ⟨i, hi, -⟩ := vfsFindNode_cases hf
  exact .inr ⟨i, h.lt_of_child hi, hi⟩

theorem VfsOk.loop_treeNode {v v' : Vfs} (h : VfsOk v) {start node : Option Nat} {n k : Nat}
    {segs : List CString} (hstart : ∀ r, start = some r → TreeNode v r)
    (hnode : ∀ r, node = some r → TreeNode v r)
    (hl : BestOS.getParentLoop v start n node segs = some (some k, v')) : TreeNode v k := by
  induction segs generalizing node with
  | nil => exact hnode k (Prod.mk.inj (Option.some.inj hl)).1
  | cons c segs ih =>
    cases segs with
    | nil => exact hnode k (Prod.mk.inj (Option.some.inj hl)).1
    | cons d rest =>
      rw [BestOS.getParentLoop] at hl
      split at hl
      · split at hl
        · exact hnode k (Prod.mk.inj (Option.some.inj hl)).1
        · split at hl
          · cases hl
          · next res hf => exact ih (fun r hr => h.find_treeNode (hr ▸ hf)) hl
      · split at hl
        · exact hstart k (Prod.mk.inj (Option.some.inj hl)).1
        · split at hl
          · cases hl
          · next res hf => exact ih (fun r hr => h.find_treeNode (hr ▸ hf)) hl

/-- The parent that a call looks up is in the tree. -/
theorem VfsOk.parentOf_treeNode {v : Vfs} (h : VfsOk v) {path : CString} {p : Nat}
    (hp : parentOf v path = some p) : TreeNode v p := by
  obtain ⟨⟨res, v'⟩, hg, rfl⟩ := Option.bind_eq_some_iff.mp hp
  have hok : VfsOk { v with strtok := (vfsParsePath v.strtok path).2 } := h.same ⟨rfl, rfl, rfl⟩
  exact hok.loop_treeNode (fun r hr => .inl hr) (fun r hr => .inl hr) hg

/-- The tree after a node is entered. -/
theorem Enters.treeNode {v v' : Vfs} {parent : Nat} {kind : VfsNodeType} {name : CString}
    (h : VfsOk v) (e : Enters v v' parent kind name) {n : Nat} :
    TreeNode v' n ↔ TreeNode v n ∨ n = v.next ∨ n ∈ newChildren v.next kind := by
  constructor
  · rintro (hroot | ⟨i, hi, hmem⟩)
    · exact .inl (.inl (e.root.symm.trans hroot))
    · rcases e.mem_cases h hmem with ⟨hold, hmem⟩ | ⟨-, rfl⟩ | ⟨-, hdot⟩
      · exact .inl (.inr ⟨i, hold, hmem⟩)
      · exact .inr (.inl rfl)
      · exact .inr (.inr hdot)
  · rintro ((hroot | ⟨i, hi, hmem⟩) | rfl | hmem)
    · exact .inl (e.root.trans hroot)
    · refine .inr ⟨i, hi.trans e.next_lt, ?_⟩
      rw [e.old_children hi]
      exact List.mem_append_left _ hmem
    · refine .inr ⟨parent, e.bound.trans e.next_lt, ?_⟩
      rw [e.pushed.children]
      simp
    · refine .inr ⟨v.next, e.next_lt, ?_⟩
      rw [e.children]
      exact hmem

theorem KeepsDirs.treeNode {v v' : Vfs} (h : VfsOk v) (k : KeepsDirs v v') {n : Nat}
    (hn : TreeNode v' n) :
    TreeNode v n ∨ (v.root = none ∧ v'.root = some v.next ∧ n = v.next) := by
  rcases hn with hroot | ⟨i, -, hmem⟩
  · rcases k.root with hsame | ⟨hnone, hnew, -⟩
    · exact .inl (.inl (hsame.symm.trans hroot))
    · exact .inr ⟨hnone, hnew, (Option.some.inj (hnew.symm.trans hroot)).symm⟩
  · rw [k.children h] at hmem
    exact .inl (.inr ⟨i, h.lt_of_child hmem, hmem⟩)

/-- What was listed still is. -/
theorem KeepsDirs.listed {v v' : Vfs} (h : VfsOk v) (k : KeepsDirs v v') {n : Nat}
    (hn : ∃ i < v.next, n ∈ (v.nodes i).children) : TreeNode v' n := by
  obtain ⟨i, hi, hmem⟩ := hn
  rw [← k.children h] at hmem
  exact .inr ⟨i, hi.trans_le k.next, hmem⟩

/-! ### What always holds -/

/-- What a call leaves alone in the tree. -/
structure SameMounts (v v' : Vfs) (m m' : Mounted) : Prop where
  above : ∀ n, TreeNode v n → above v' n = above v n
  node : ∀ n, TreeNode v n → m'.node n = m.node n
  mountpoint : ∀ n, TreeNode v n → (v'.nodes n).mountpoint = (v.nodes n).mountpoint
  mounts : ∀ k < v.nextMount, v'.mounts k = v.mounts k

/-- Every node of the tree lies under some mount, and dot entries have no mount
point. -/
structure TreeMounts (v : Vfs) (m : Mounted) : Prop where
  above : ∀ n, TreeNode v n → m.node n = none → ∀ p, above v n = some p → TreeNode v p
  near : ∀ n, TreeNode v n → ∃ fs, NearestMount v m n fs
  bound : ∀ n, TreeNode v n → ∀ k, (v.nodes n).mountpoint = some k → k < v.nextMount
  dots : ∀ n, TreeNode v n → (v.nodes n).pointsTo ≠ none → (v.nodes n).mountpoint = none
  fresh : ∀ n, v.next ≤ n → m.node n = none

section SameMounts

variable {v v' : Vfs} {m m' : Mounted}

theorem SameMounts.nearest (t : TreeMounts v m) (s : SameMounts v v' m m') {n : Nat}
    (hn : TreeNode v n) {fs : Filesystem} : NearestMount v' m' n fs ↔ NearestMount v m n fs :=
  NearestMark.congr t.above s.above s.node hn

theorem SameMounts.nodeFs (t : TreeMounts v m) (s : SameMounts v v' m m') {n : Nat}
    (hn : TreeNode v n) : nodeFs v' n = nodeFs v n := by
  unfold BestOS.nodeFs
  rw [s.mountpoint n hn]
  refine Option.bind_congr fun k hk => ?_
  rw [s.mounts k (t.bound n hn k hk)]

theorem SameMounts.coherent (t : TreeMounts v m) (s : SameMounts v v' m m') {n : Nat}
    (hn : TreeNode v n) : Coherent v' m' n ↔ Coherent v m n := by
  unfold Coherent
  simp only [s.nearest t hn, s.nodeFs t hn]

end SameMounts

/-- No dot entry is coherent. -/
theorem TreeMounts.dot_incoherent {v : Vfs} {m : Mounted} (t : TreeMounts v m) {n : Nat}
    (hn : TreeNode v n) (hp : (v.nodes n).pointsTo ≠ none) : ¬ Coherent v m n := by
  rintro ⟨⟨fs, hnear⟩, hfs⟩
  have hnone : nodeFs v n = none := by
    unfold nodeFs
    rw [t.dots n hn hp]
    rfl
  exact Option.some_ne_none fs ((hfs fs hnear).symm.trans hnone)

theorem SameShape.above_eq {v v' : Vfs} {n : Nat} (h : SameShape (v.nodes n) (v'.nodes n)) :
    above v' n = above v n := by
  unfold above
  rw [h.pointsTo, h.parent]

theorem Enters.old_above {v v' : Vfs} {parent : Nat} {kind : VfsNodeType} {name : CString}
    (e : Enters v v' parent kind name) {n : Nat} (hn : n < v.next) : above v' n = above v n := by
  unfold above
  rw [e.old_pointsTo hn, e.old_parent hn]

/-! ### A node is entered -/

/-- The record of a call that enters a node: at most that node is mounted. -/
structure EntersRecord (v v' : Vfs) (m m' : Mounted) : Prop where
  node : ∀ n, n ≠ v.next → m'.node n = m.node n
  mounts : ∀ k < v.nextMount, v'.mounts k = v.mounts k
  grows : v.nextMount ≤ v'.nextMount
  bound : ∀ k, (v'.nodes v.next).mountpoint = some k → k < v'.nextMount

section Enters

variable {v v' : Vfs} {m m' : Mounted} {parent : Nat} {kind : VfsNodeType} {name : CString}

theorem Enters.sameMounts (h : VfsOk v) (e : Enters v v' parent kind name)
    (r : EntersRecord v v' m m') : SameMounts v v' m m' where
  above := fun _ hn => e.old_above (h.treeNode_lt hn)
  node := fun n hn => r.node n (Nat.ne_of_lt (h.treeNode_lt hn))
  mountpoint := fun _ hn => e.old_mountpoint (h.treeNode_lt hn)
  mounts := r.mounts

theorem Enters.above_new (e : Enters v v' parent kind name) : above v' v.next = some parent := by
  unfold above
  rw [e.plain, e.under]
  rfl

/-- A dot entry of a new directory has no mount point, and lies where the new node or
its parent lies. -/
theorem Enters.dots_new (e : Enters v v' parent kind name) {n : Nat}
    (hn : n ∈ newChildren v.next kind) :
    v.next < n ∧ (v'.nodes n).mountpoint = none ∧ (v'.nodes n).pointsTo ≠ none ∧
      (above v' n = some parent ∨ above v' n = some v.next) := by
  obtain ⟨hlt, -, d, t, hnode, -, ht⟩ := e.new_dots hn
  unfold above
  rw [hnode]
  exact ⟨hlt, rfl, Option.some_ne_none _, ht.imp (congrArg some) (congrArg some)⟩

/-- Where the new node lies: under its own mount, or where its parent lies. -/
theorem Enters.near_new (h : VfsOk v) (t : TreeMounts v m) (e : Enters v v' parent kind name)
    (r : EntersRecord v v' m m') (hparent : TreeNode v parent) :
    ∃ fs, NearestMount v' m' v.next fs := by
  cases hnode : m'.node v.next with
  | some fs => exact ⟨fs, .self hnode⟩
  | none =>
    obtain ⟨fs, hnear⟩ := t.near parent hparent
    exact ⟨fs, .above hnode e.above_new (((e.sameMounts h r).nearest t hparent).mpr hnear)⟩

theorem Enters.treeMounts (h : VfsOk v) (t : TreeMounts v m) (e : Enters v v' parent kind name)
    (r : EntersRecord v v' m m') (hparent : TreeNode v parent) : TreeMounts v' m' := by
  have hsame := e.sameMounts h r
  have hnew : TreeNode v' v.next := (e.treeNode h).mpr (.inr (.inl rfl))
  have hparent' : TreeNode v' parent := (e.treeNode h).mpr (.inl hparent)
  constructor
  -- the way up does not leave the tree: the new entries lead to the parent
  · intro n hn hnode p hp
    rcases (e.treeNode h).mp hn with hold | rfl | hdot
    · rw [hsame.above n hold] at hp
      rw [hsame.node n hold] at hnode
      exact (e.treeNode h).mpr (.inl (t.above n hold hnode p hp))
    · obtain rfl := Option.some.inj (e.above_new.symm.trans hp)
      exact hparent'
    · rcases (e.dots_new hdot).2.2.2 with habove | habove
      · obtain rfl := Option.some.inj (habove.symm.trans hp)
        exact hparent'
      · obtain rfl := Option.some.inj (habove.symm.trans hp)
        exact hnew
  -- no dot entry is mounted, so each lies under the mount of its target
  · intro n hn
    rcases (e.treeNode h).mp hn with hold | rfl | hdot
    · obtain ⟨fs, hnear⟩ := t.near n hold
      exact ⟨fs, (hsame.nearest t hold).mpr hnear⟩
    · exact e.near_new h t r hparent
    · obtain ⟨hlt, -, -, habove⟩ := e.dots_new hdot
      have hnode : m'.node n = none := by
        rw [r.node n (Nat.ne_of_gt hlt)]
        exact t.fresh n hlt.le
      rcases habove with habove | habove
      · obtain ⟨fs, hnear⟩ := t.near parent hparent
        exact ⟨fs, .above hnode habove ((hsame.nearest t hparent).mpr hnear)⟩
      · obtain ⟨fs, hnear⟩ := e.near_new h t r hparent
        exact ⟨fs, .above hnode habove hnear⟩
  · intro n hn k hk
    rcases (e.treeNode h).mp hn with hold | rfl | hdot
    · rw [hsame.mountpoint n hold] at hk
      exact (t.bound n hold k hk).trans_le r.grows
    · exact r.bound k hk
    · rw [(e.dots_new hdot).2.1] at hk
      cases hk
  · intro n hn hp
    rcases (e.treeNode h).mp hn with hold | rfl | hdot
    · rw [e.old_pointsTo (h.treeNode_lt hold)] at hp
      rw [hsame.mountpoint n hold]
      exact t.dots n hold hp
    · exact absurd e.plain hp
    · exact (e.dots_new hdot).2.1
  · intro n hn
    have hlt := e.next_lt.trans_le hn
    rw [r.node n (Nat.ne_of_gt hlt)]
    exact t.fresh n hlt.le

/-- A mounted node is coherent if it has the filesystem that was mounted. -/
theorem coherent_mounted {n : Nat} {fs : Filesystem} (hnode : m.node n = some fs)
    (hfs : nodeFs v n = some fs) : Coherent v m n :=
  ⟨⟨fs, .self hnode⟩, fun fs' hnear => by rw [hfs, (NearestMark.marked_iff hnode).mp hnear]⟩

/-- The nodes other than dot entries are coherent. -/
def MountsCoherent (v : Vfs) (m : Mounted) : Prop :=
  ∀ n, TreeNode v n → (v.nodes n).pointsTo = none → Coherent v m n

/-- Only the new node is at stake. -/
theorem Enters.coherent_iff (h : VfsOk v) (t : TreeMounts v m) (inv : MountsCoherent v m)
    (e : Enters v v' parent kind name) (r : EntersRecord v v' m m') :
    MountsCoherent v' m' ↔ Coherent v' m' v.next := by
  have hsame := e.sameMounts h r
  constructor
  · exact fun hall => hall v.next ((e.treeNode h).mpr (.inr (.inl rfl))) e.plain
  · intro hnew n hn hp
    rcases (e.treeNode h).mp hn with hold | rfl | hdot
    · rw [e.old_pointsTo (h.treeNode_lt hold)] at hp
      exact (hsame.coherent t hold).mpr (inv n hold hp)
    · exact hnew
    · exact absurd hp (e.dots_new hdot).2.2.1

/-- An unmounted new node with the filesystem of node `k` is coherent if that is the
filesystem its parent lies under. -/
theorem Enters.coherent_new (h : VfsOk v) (t : TreeMounts v m) (e : Enters v v' parent kind name)
    (r : EntersRecord v v' m m') (hparent : TreeNode v parent) (hnode : m'.node v.next = none) {k : Nat}
    (hk : nodeFs v' v.next = nodeFs v k) :
    Coherent v' m' v.next ↔ ∀ fs, NearestMount v m parent fs → nodeFs v k = some fs := by
  have hnear : ∀ fs, NearestMount v' m' v.next fs ↔ NearestMount v m parent fs := fun fs =>
    (NearestMark.above_iff hnode e.above_new).trans ((e.sameMounts h r).nearest t hparent)
  unfold Coherent
  simp only [hnear, hk]
  exact and_iff_right (t.near parent hparent)

end Enters

/-! ### No directory changes -/

section KeepsDirs

variable {v v' : Vfs} {m m' : Mounted}

theorem KeepsDirs.sameMounts (h : VfsOk v) (k : KeepsDirs v v') (hnode : ∀ n, n ≠ v.next → m'.node n = m.node n)
    (hmounts : ∀ k < v.nextMount, v'.mounts k = v.mounts k) : SameMounts v v' m m' where
  above := fun n hn => (k.old n (h.treeNode_lt hn)).above_eq
  node := fun n hn => hnode n (Nat.ne_of_lt (h.treeNode_lt hn))
  mountpoint := fun n hn => (k.old n (h.treeNode_lt hn)).mountpoint
  mounts := hmounts

theorem KeepsDirs.treeNode_same (h : VfsOk v) (k : KeepsDirs v v') (hroot : v'.root = v.root)
    {n : Nat} : TreeNode v' n ↔ TreeNode v n := by
  constructor
  · intro hn
    rcases k.treeNode h hn with hold | ⟨hnone, hnew, -⟩
    · exact hold
    · rw [hroot, hnone] at hnew
      cases hnew
  · rintro (hn | hlisted)
    · exact .inl (hroot.trans hn)
    · exact k.listed h hlisted

theorem KeepsDirs.treeMounts (h : VfsOk v) (t : TreeMounts v m) (k : KeepsDirs v v')
    (s : SameMounts v v' m m') (hroot : v'.root = v.root) (hgrows : v.nextMount ≤ v'.nextMount)
    (hfresh : ∀ n, v'.next ≤ n → m'.node n = none) :
    TreeMounts v' m' ∧ (MountsCoherent v' m' ↔ MountsCoherent v m) := by
  have htree := fun n => k.treeNode_same h hroot (n := n)
  refine ⟨⟨?_, ?_, ?_, ?_, hfresh⟩, forall_congr' fun n => ?_⟩
  · intro n hn hnode p hp
    have hn := (htree n).mp hn
    rw [s.above n hn] at hp
    rw [s.node n hn] at hnode
    exact (htree p).mpr (t.above n hn hnode p hp)
  · intro n hn
    have hn := (htree n).mp hn
    obtain ⟨fs, hnear⟩ := t.near n hn
    exact ⟨fs, (s.nearest t hn).mpr hnear⟩
  · intro n hn j hj
    have hn := (htree n).mp hn
    rw [s.mountpoint n hn] at hj
    exact (t.bound n hn j hj).trans_le hgrows
  · intro n hn hp
    have hn := (htree n).mp hn
    rw [k.pointsTo h] at hp
    rw [s.mountpoint n hn]
    exact t.dots n hn hp
  · rw [htree n]
    refine forall_congr' fun hn => ?_
    rw [k.pointsTo h, s.coherent t hn]

/-- The first mount makes the root. -/
theorem KeepsDirs.treeMounts_root (h : VfsOk v) (t : TreeMounts v m) (k : KeepsDirs v v')
    (s : SameMounts v v' m m') (hnone : v.root = none) (hnext : v'.next = v.next + 1) (hgrows : v.nextMount ≤ v'.nextMount)
    (hfresh : ∀ n, v'.next ≤ n → m'.node n = none) {fs : Filesystem}
    (hnode : m'.node v.next = some fs) (hfs : nodeFs v' v.next = some fs)
    (hbound : ∀ j, (v'.nodes v.next).mountpoint = some j → j < v'.nextMount) :
    TreeMounts v' m' ∧ (MountsCoherent v m → MountsCoherent v' m') := by
  -- without a root the tree is what directories list; the new node joins it as the root
  have htree : ∀ n, TreeNode v' n → TreeNode v n ∨ n = v.next := fun n hn =>
    (k.treeNode h hn).imp_right fun hc => hc.2.2
  have hstill : ∀ n, TreeNode v n → TreeNode v' n := by
    rintro n (hn | hlisted)
    · rw [hnone] at hn
      cases hn
    · exact k.listed h hlisted
  refine ⟨⟨?_, ?_, ?_, ?_, hfresh⟩, fun inv n hn hp => ?_⟩
  · intro n hn hunmarked p hp
    rcases htree n hn with hold | rfl
    · rw [s.above n hold] at hp
      rw [s.node n hold] at hunmarked
      exact hstill p (t.above n hold hunmarked p hp)
    · rw [hnode] at hunmarked
      cases hunmarked
  · intro n hn
    rcases htree n hn with hold | rfl
    · obtain ⟨fs, hnear⟩ := t.near n hold
      exact ⟨fs, (s.nearest t hold).mpr hnear⟩
    · exact ⟨fs, .self hnode⟩
  · intro n hn j hj
    rcases htree n hn with hold | rfl
    · rw [s.mountpoint n hold] at hj
      exact (t.bound n hold j hj).trans_le hgrows
    · exact hbound j hj
  · intro n hn hp
    rcases htree n hn with hold | rfl
    · rw [k.pointsTo h] at hp
      rw [s.mountpoint n hold]
      exact t.dots n hold hp
    · exact absurd (k.alone _ (Nat.le_refl _) (by omega)).2.2 hp
  · rcases htree n hn with hold | rfl
    · rw [k.pointsTo h] at hp
      exact (s.coherent t hold).mpr (inv n hold hp)
    · exact coherent_mounted hnode hfs

end KeepsDirs

/-! ### One call -/

/-- The condition on a step: a directory is made where the filesystem of the root is
mounted, and a file in no dot entry. -/
def FsOk (v : Vfs) (m : Mounted) : TreeOp → Prop
  | .mount _ _ => True
  | .mkdir path => ∀ p name, entersAt v (.mkdir path) = some (p, name) → ∀ root, v.root = some root →
      ∀ fs, NearestMount v m p fs → nodeFs v root = some fs
  | op => ∀ p name, entersAt v op = some (p, name) → (v.nodes p).pointsTo = none

/-- A condition on the parent of the node that is entered. -/
theorem forall_enters {w : Option (Nat × CString)} {p : Nat} {name : CString}
    (h : w = some (p, name)) {Q : Nat → Prop} :
    (∀ p' name', w = some (p', name') → Q p') ↔ Q p := by
  constructor
  · exact fun hall => hall p name h
  · intro hq p' name' hw
    obtain ⟨rfl, rfl⟩ := Prod.mk.inj (Option.some.inj (h.symm.trans hw))
    exact hq

/-- A file is coherent when its parent is no dot entry. -/
theorem Enters.file_coherent {v v' : Vfs} {m : Mounted} {p : Nat} {name : CString} (h : VfsOk v)
    (t : TreeMounts v m) (inv : MountsCoherent v m) (e : Enters v v' p .file name)
    (hparent : TreeNode v p) (hmount : (v'.nodes v.next).mountpoint = (v.nodes p).mountpoint)
    (hmounts : v'.mounts = v.mounts) (hnm : v'.nextMount = v.nextMount) :
    TreeMounts v' m ∧ (MountsCoherent v' m ↔ (v.nodes p).pointsTo = none) := by
  have r : EntersRecord v v' m m := by
    refine ⟨fun _ _ => rfl, fun k _ => by rw [hmounts], hnm.ge, fun k hk => ?_⟩
    rw [hnm]
    exact t.bound p hparent k (hmount.symm.trans hk)
  have hk : nodeFs v' v.next = nodeFs v p := by
    unfold nodeFs
    rw [hmount, hmounts]
  refine ⟨e.treeMounts h t r hparent, ?_⟩
  rw [e.coherent_iff h t inv r, e.coherent_new h t r hparent (t.fresh _ (Nat.le_refl _)) hk]
  constructor
  · intro hall
    by_contra hp
    exact t.dot_incoherent hparent hp ⟨t.near p hparent, hall⟩
  · exact fun hp => (inv p hparent hp).2

theorem MountsCoherent.mount {v v' : Vfs} {m : Mounted} (h : VfsOk v) (t : TreeMounts v m)
    (inv : MountsCoherent v m) {path : CString} {fs : Filesystem}
    (hs : vfsMount v path fs = some v') :
    TreeMounts v' (recordMount v m (.mount path fs)) ∧
      MountsCoherent v' (recordMount v m (.mount path fs)) := by
  have hnode : ∀ n, n ≠ v.next → (recordMount v m (.mount path fs)).node n = m.node n :=
    fun n hn => Function.update_of_ne hn _ _
  have hself : (recordMount v m (.mount path fs)).node v.next = some fs := Function.update_self _ _ _
  have hfresh : v.next < v'.next → ∀ n, v'.next ≤ n →
      (recordMount v m (.mount path fs)).node n = none := by
    intro hlt n hn
    have hgt := hlt.trans_le hn
    rw [hnode n (Nat.ne_of_gt hgt)]
    exact t.fresh n hgt.le
  -- the mount point that the new node is given
  have hfs : ∀ k, (v'.nodes v.next).mountpoint = some k → (v'.mounts k).fs = some fs →
      nodeFs v' v.next = some fs := by
    intro k hk hfs
    unfold nodeFs
    rw [hk]
    exact hfs
  rcases vfsMount_end h hs with ⟨hnone, -, hkept, hnext, -, hmount, hmounts, hnm⟩ |
    ⟨-, -, hkept, hnext, hroot, hmount, hmounts, hnm⟩ |
    ⟨parent, -, hpar, henters, hmount, hmounts, hnm⟩
  · have hsame := hkept.sameMounts h hnode fun k hk => by
      rw [hmounts, Function.update_of_ne (Nat.ne_of_lt hk)]
    obtain ⟨htree, hall⟩ := hkept.treeMounts_root h t hsame hnone hnext (by omega) (hfresh (by omega))
      hself (hfs _ hmount (by rw [hmounts, Function.update_self])) (by
        rw [hmount]
        rintro j ⟨⟩
        omega)
    exact ⟨htree, hall inv⟩
  · have hsame := hkept.sameMounts h hnode fun k hk => by
      rw [hmounts, Function.update_of_ne (by omega)]
    obtain ⟨htree, hiff⟩ := hkept.treeMounts h t hsame hroot (by omega) (hfresh (by omega))
    exact ⟨htree, hiff.mpr inv⟩
  · have r : EntersRecord v v' m (recordMount v m (.mount path fs)) := by
      refine ⟨hnode, fun k hk => ?_, by omega, ?_⟩
      · rw [hmounts, Function.update_of_ne (Nat.ne_of_lt hk)]
      · rw [hmount]
        rintro j ⟨⟩
        omega
    refine ⟨henters.treeMounts h t r (h.parentOf_treeNode hpar), (henters.coherent_iff h t inv r).mpr ?_⟩
    exact coherent_mounted hself (hfs _ hmount (by rw [hmounts, Function.update_self]))

theorem MountsCoherent.mkdir_iff {v v' : Vfs} {m : Mounted} (h : VfsOk v) (t : TreeMounts v m)
    (inv : MountsCoherent v m) {path : CString} {res : Option Nat}
    (hm : vfsMkdir v path = some (res, v')) :
    TreeMounts v' m ∧ (MountsCoherent v' m ↔ FsOk v m (.mkdir path)) := by
  have hkeeps : ∀ {v' : Vfs}, KeepsDirs v v' → v'.root = v.root → v'.mounts = v.mounts →
      v.nextMount ≤ v'.nextMount → entersAt v (.mkdir path) = none →
      TreeMounts v' m ∧ (MountsCoherent v' m ↔ FsOk v m (.mkdir path)) := by
    intro v' hkept hroot hmounts hgrows hnone
    have hsame := hkept.sameMounts h (m := m) (fun _ _ => rfl) fun k _ => by rw [hmounts]
    obtain ⟨htree, hiff⟩ := hkept.treeMounts h t hsame hroot hgrows fun n hn =>
      t.fresh n (hkept.next.trans hn)
    refine ⟨htree, iff_of_true (hiff.mpr inv) fun p name hp => ?_⟩
    rw [hnone] at hp
    cases hp
  rcases vfsMkdir_end h hm with ⟨hpath, hkept, -, hroot, -, hmounts, hnm⟩ |
    ⟨hpath, hpar, hkept, hroot, hmounts, hnm⟩ |
    ⟨parent, root, hpath, hpar, hr, henters, hmount, hmounts, hnm⟩
  · exact hkeeps hkept hroot hmounts (by omega) (if_pos ((strEq_iff _ _).mpr hpath))
  · refine hkeeps hkept hroot hmounts hnm.ge ?_
    rw [entersAt, if_neg (fun he => hpath ((strEq_iff _ _).mp he)), hpar]
    rfl
  · have hwhere : entersAt v (.mkdir path) = some (parent, basename path) := by
      rw [entersAt, if_neg (fun he => hpath ((strEq_iff _ _).mp he)), hpar]
      rfl
    have hparent := h.parentOf_treeNode hpar
    have r : EntersRecord v v' m m := by
      refine ⟨fun _ _ => rfl, fun k _ => by rw [hmounts], hnm.ge, fun k hk => ?_⟩
      rw [hnm]
      exact t.bound root (.inl hr) k (hmount.symm.trans hk)
    have hk : nodeFs v' v.next = nodeFs v root := by
      unfold nodeFs
      rw [hmount, hmounts]
    refine ⟨henters.treeMounts h t r hparent, ?_⟩
    rw [henters.coherent_iff h t inv r,
      henters.coherent_new h t r hparent (t.fresh _ (Nat.le_refl _)) hk]
    refine Iff.symm ((forall_enters hwhere).trans ⟨fun hall => hall root hr, fun hall root' hr' => ?_⟩)
    obtain rfl := Option.some.inj (hr.symm.trans hr')
    exact hall

/-- **One call keeps the nodes coherent** if and only if it meets `FsOk`. -/
theorem MountsCoherent.step_iff {v v' : Vfs} {m : Mounted} (h : VfsOk v) (t : TreeMounts v m)
    (inv : MountsCoherent v m) {op : TreeOp} (hs : treeStep v op = some v') :
    TreeMounts v' (recordMount v m op) ∧
      (MountsCoherent v' (recordMount v m op) ↔ FsOk v m op) := by
  cases op with
  | mount path fs =>
    obtain ⟨htree, hall⟩ := inv.mount h t hs
    exact ⟨htree, iff_of_true hall trivial⟩
  | mkdir path =>
    obtain ⟨⟨res, v₁⟩, hm, rfl⟩ := Option.map_eq_some_iff.mp hs
    exact inv.mkdir_iff h t hm
  | opened buf path flags =>
    obtain ⟨⟨res, v₁⟩, ho, rfl⟩ := Option.map_eq_some_iff.mp hs
    rcases vfsOpen_end h ho with ⟨hfound, hkept, hnext, hroot, hmounts, hnm⟩ |
      ⟨parent, hpar, hcreat, hfind, henters, hmount, hmounts, hnm⟩
    · have hsame := hkept.sameMounts h (m := m) (fun _ _ => rfl) fun k _ => by rw [hmounts]
      obtain ⟨htree, hiff⟩ := hkept.treeMounts h t hsame hroot hnm.ge fun n hn =>
        t.fresh n (hkept.next.trans hn)
      refine ⟨htree, iff_of_true (hiff.mpr inv) fun p name hp => ?_⟩
      -- a file that is there is not made again
      obtain ⟨q, hq, hin⟩ := Option.bind_eq_some_iff.mp hp
      split at hin
      · next hc => exact absurd hc.2 (hfound q hq hc.1)
      · cases hin
    · have hwhere : entersAt v (.opened buf path flags) = some (parent, basename path) := by
        rw [entersAt, hpar, Option.bind_some, if_pos ⟨hcreat, hfind⟩]
      obtain ⟨htree, hiff⟩ :=
        henters.file_coherent h t inv (h.parentOf_treeNode hpar) hmount hmounts hnm
      exact ⟨htree, hiff.trans (forall_enters (Q := fun p => (v.nodes p).pointsTo = none) hwhere).symm⟩
  | createFile buffer path address size =>
    obtain ⟨parent, hpar, henters, hmount, hmounts, hnm⟩ := tmpfsCreateFile_end h hs
    have hwhere : entersAt v (.createFile buffer path address size) = some (parent, basename path) := by
      rw [entersAt, hpar]
      rfl
    obtain ⟨htree, hiff⟩ :=
      henters.file_coherent h t inv (h.parentOf_treeNode hpar) hmount hmounts hnm
    exact ⟨htree, hiff.trans (forall_enters (Q := fun p => (v.nodes p).pointsTo = none) hwhere).symm⟩

end BestOS
