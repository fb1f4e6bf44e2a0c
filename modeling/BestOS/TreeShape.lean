/-
BestOS/TreeShape.lean

The shape of the tree.

`TreeInv` says what a tree of directories is: entries of one directory have
different names, only directories have entries, and an entry is listed by its
parent.  The last part always holds.  The other two depend on the node that a
call enters: only `vfs_open` looks whether the name is taken, and none of the
calls looks whether what it enters the node in is a directory.  `EntersOk` is
that condition; with it every step keeps the invariant, and a step without it
breaks it.
-/
import BestOS.TreeSteps

namespace BestOS

/-! ### Runs -/

/-- The blocks that `malloc` may still return are zero. -/
def ZeroBlocks (v : Vfs) : Prop := ∀ i, v.next ≤ i → v.nodes i = zeroNode

/-- The states reached from an empty tree by calls that meet `ok`. -/
inductive TreeRun (ok : Vfs → TreeOp → Prop) : Vfs → Prop
  | empty {v} : v.root = none → v.next = 0 → TreeRun ok v
  | step {v v'} (op : TreeOp) : TreeRun ok v → ok v op → treeStep v op = some v' → TreeRun ok v'

theorem TreeRun.ok {ok : Vfs → TreeOp → Prop} (hok : ∀ v op, ok v op → ZeroBlocks v) {v : Vfs}
    (h : TreeRun ok v) (hz : ZeroBlocks v) : VfsOk v := by
  induction h with
  | empty hroot hnext =>
    have hzero : ∀ i, _ := fun i => hz i (by omega)
    refine ⟨hz, fun i c hc => ?_, fun i hi => ?_, fun r hr => ?_⟩
    · rw [hzero i] at hc
      cases hc
    · rw [hzero i] at hi
      exact absurd rfl hi
    · rw [hroot] at hr
      cases hr
  | step op _ hop hs ih => exact (ih (hok _ _ hop)).step hs

/-! ### The property -/

/-- The invariant of the tree. -/
structure TreeInv (v : Vfs) : Prop where
  unique : ∀ d < v.next, (v.nodes d).type = .directory →
    (v.nodes d).children.Pairwise fun a b => (v.nodes a).name ≠ (v.nodes b).name
  directories : ∀ d < v.next, (v.nodes d).children ≠ [] → (v.nodes d).type = .directory
  parents : ∀ d < v.next, ∀ c ∈ (v.nodes d).children, ¬ Dot (v.nodes c).name →
    ∃ p, (v.nodes c).parent = some p ∧ c ∈ (v.nodes p).children

/-- A node is entered in a directory, under a name that is not there. -/
def EntersOk (v : Vfs) (op : TreeOp) : Prop :=
  ∀ parent name, entersAt v op = some (parent, name) → (v.nodes parent).type = .directory ∧
    ∀ c ∈ (v.nodes parent).children, (v.nodes c).name ≠ name

/-- The condition on a step. -/
def StepOk (v : Vfs) (op : TreeOp) : Prop := ZeroBlocks v ∧ EntersOk v op

/-! ### One step -/

theorem KeepsDirs.treeInv {v v' : Vfs} (h : VfsOk v) (inv : TreeInv v) (k : KeepsDirs v v') :
    TreeInv v' where
  unique := by
    intro d hd hdir
    rcases Nat.lt_or_ge d v.next with hlt | hge
    · rw [(k.old d hlt).type] at hdir
      rw [k.children h]
      refine (inv.unique d hlt hdir).imp_of_mem fun {a b} ha hb hab => ?_
      rw [(k.old a (h.child d a ha)).name, (k.old b (h.child d b hb)).name]
      exact hab
    · rw [(k.alone d hge hd).2.1]
      exact .nil
  directories := by
    intro d hd hne
    rcases Nat.lt_or_ge d v.next with hlt | hge
    · rw [(k.old d hlt).type]
      rw [k.children h] at hne
      exact inv.directories d hlt hne
    · exact (k.alone d hge hd).1
  parents := by
    intro d _ c hc hdot
    rw [k.children h] at hc
    have hcl := h.child d c hc
    rw [(k.old c hcl).name] at hdot
    obtain ⟨p, hp, hmem⟩ := inv.parents d (h.lt_of_child hc) c hc hdot
    refine ⟨p, (k.old c hcl).parent.trans hp, ?_⟩
    rw [k.children h]
    exact hmem

namespace Enters

variable {v v' : Vfs} {parent : Nat} {kind : VfsNodeType} {name : CString}

/-- The names in an old directory differ when they did, and the new one is not
there. -/
theorem unique_old (h : VfsOk v) (e : Enters v v' parent kind name) {d : Nat} (hd : d < v.next) :
    ((v'.nodes d).children.Pairwise fun a b => (v'.nodes a).name ≠ (v'.nodes b).name) ↔
      ((v.nodes d).children.Pairwise fun a b => (v.nodes a).name ≠ (v.nodes b).name) ∧
        (d = parent → ∀ c ∈ (v.nodes d).children, (v.nodes c).name ≠ name) := by
  have hold : ((v.nodes d).children.Pairwise fun a b => (v'.nodes a).name ≠ (v'.nodes b).name) ↔
      (v.nodes d).children.Pairwise fun a b => (v.nodes a).name ≠ (v.nodes b).name := by
    refine List.Pairwise.iff_of_mem fun {a b} ha hb => ?_
    rw [e.old_name (h.child d a ha), e.old_name (h.child d b hb)]
  rw [e.old_children hd]
  by_cases hp : d = parent
  · rw [if_pos hp, List.pairwise_append, hold]
    refine and_congr_right fun _ => ⟨fun hall _ c hc => ?_, fun hall => ⟨List.pairwise_singleton _ _, ?_⟩⟩
    · have hne := hall.2 c hc v.next (List.mem_singleton_self _)
      rw [e.name, e.old_name (h.child d c hc)] at hne
      exact hne
    · intro c hc n hn
      rw [List.mem_singleton.mp hn, e.name, e.old_name (h.child d c hc)]
      exact hall hp c hc
  · rw [if_neg hp, List.append_nil, hold]
    exact ⟨fun hpair => ⟨hpair, fun he => absurd he hp⟩, fun hpair => hpair.1⟩

/-- `..` and `.` are different names. -/
theorem unique_new (e : Enters v v' parent kind name) :
    (v'.nodes v.next).children.Pairwise fun a b => (v'.nodes a).name ≠ (v'.nodes b).name := by
  rw [e.children]
  cases kind with
  | file => exact .nil
  | directory =>
    refine .cons (fun b hb => ?_) (List.pairwise_singleton _ _)
    rw [List.mem_singleton.mp hb, e.dotdot rfl, e.dot rfl]
    exact show ['.', '.'] ≠ ['.'] by decide

/-- An entry is listed by its parent, the new node as well. -/
theorem parents (h : VfsOk v) (inv : TreeInv v) (e : Enters v v' parent kind name) {d c : Nat}
    (hc : c ∈ (v'.nodes d).children) (hdot : ¬ Dot (v'.nodes c).name) :
    ∃ p, (v'.nodes c).parent = some p ∧ c ∈ (v'.nodes p).children := by
  rcases e.mem_cases h hc with ⟨hold, hc⟩ | ⟨rfl, rfl⟩ | ⟨-, hnew⟩
  · have hcl := h.child d c hc
    rw [e.old_name hcl] at hdot
    obtain ⟨p, hp, hmem⟩ := inv.parents d hold c hc hdot
    refine ⟨p, (e.old_parent hcl).trans hp, ?_⟩
    rw [e.old_children (h.lt_of_child hmem)]
    exact List.mem_append_left _ hmem
  · exact ⟨d, e.under, hc⟩
  · obtain ⟨-, -, name', t, hnode, hname', -⟩ := e.new_dots hnew
    rw [hnode] at hdot
    exact absurd hname' hdot

/-- **A node that is entered keeps the invariant** exactly when it is entered in a
directory, under a new name. -/
theorem treeInv_iff (h : VfsOk v) (inv : TreeInv v) (e : Enters v v' parent kind name) :
    TreeInv v' ↔ (v.nodes parent).type = .directory ∧
      ∀ c ∈ (v.nodes parent).children, (v.nodes c).name ≠ name := by
  constructor
  -- the parent has an entry now: the invariant makes it a directory
  · intro inv'
    have hlt := e.bound.trans e.next_lt
    have hdir : (v'.nodes parent).type = .directory := by
      refine inv'.directories parent hlt ?_
      rw [e.pushed.children]
      simp
    refine ⟨(e.old_type e.bound).symm.trans hdir, ?_⟩
    exact ((e.unique_old h e.bound).mp (inv'.unique parent hlt hdir)).2 rfl
  · rintro ⟨hdir, hnames⟩
    refine ⟨fun d hd hd' => ?_, fun d hd hne => ?_, fun d _ c hc hdot => e.parents h inv hc hdot⟩
    · rcases e.cases_lt hd with hold | rfl | hdot
      · rw [e.old_type hold] at hd'
        refine (e.unique_old h hold).mpr ⟨inv.unique d hold hd', ?_⟩
        rintro rfl
        exact hnames
      · exact e.unique_new
      · obtain ⟨-, -, name', t, hnode, -⟩ := e.new_dots hdot
        rw [hnode]
        exact .nil
    · obtain ⟨c, hc⟩ := List.exists_mem_of_ne_nil _ hne
      rcases e.mem_cases h hc with ⟨hold, hc⟩ | ⟨rfl, -⟩ | ⟨rfl, hdot⟩
      · rw [e.old_type hold]
        exact inv.directories d hold (List.ne_nil_of_mem hc)
      · rw [e.old_type e.bound]
        exact hdir
      · rw [e.type]
        cases kind with
        | file => cases hdot
        | directory => rfl

end Enters

/-- **One call keeps the invariant** if and only if it meets `EntersOk`. -/
theorem TreeInv.step_iff {v v' : Vfs} (h : VfsOk v) (inv : TreeInv v) {op : TreeOp}
    (hs : treeStep v op = some v') : TreeInv v' ↔ EntersOk v op := by
  rcases treeStep_cases h hs with ⟨hnone, hkept⟩ | ⟨parent, kind, name, hsome, henters⟩
  -- where nothing is entered the condition is empty
  · refine iff_of_true (hkept.treeInv h inv) fun p name hp => ?_
    rw [hnone] at hp
    cases hp
  · rw [henters.treeInv_iff h inv]
    refine ⟨fun hok p nm hp => ?_, fun hok => hok parent name hsome⟩
    obtain ⟨rfl, rfl⟩ := Prod.mk.inj (Option.some.inj (hsome.symm.trans hp))
    exact hok

/-! ### Runs -/

theorem TreeRun.treeInv {v : Vfs} (h : TreeRun StepOk v) : TreeInv v := by
  induction h with
  | empty hroot hnext =>
    exact ⟨fun d hd => by omega, fun d hd => by omega, fun d hd => by omega⟩
  | step op hrun hok hs ih =>
    exact (ih.step_iff (hrun.ok (fun _ _ h => h.1) hok.1) hs).mpr hok.2

/-- **The shape of the tree.**  In every run whose calls find zeroed blocks and
enter their nodes in directories, under new names, the tree has its shape; and
the next call keeps it exactly when it does the same. -/
theorem tree_shape {v : Vfs} (h : TreeRun StepOk v) :
    TreeInv v ∧ ∀ op v', ZeroBlocks v → treeStep v op = some v' → (TreeInv v' ↔ EntersOk v op) :=
  ⟨h.treeInv, fun _ _ hz hs => h.treeInv.step_iff (h.ok (fun _ _ h => h.1) hz) hs⟩

/-! ### A directory `/dev` -/

/-- The tree with the root alone, and with a directory `/dev`. -/
def rootTree : Vfs := (treeStep noVfs (.mount ['/'] .tmpfs)).getD noVfs

def devTree : Vfs := (treeStep rootTree (.mkdir ['/', 'd', 'e', 'v'])).getD noVfs

theorem noVfs_ok : VfsOk noVfs := (VfsBuilt.empty rfl fun _ => rfl).ok

theorem rootTree_eq : treeStep noVfs (.mount ['/'] .tmpfs) = some rootTree := rfl

theorem devTree_eq : treeStep rootTree (.mkdir ['/', 'd', 'e', 'v']) = some devTree := rfl

theorem rootTree_ok : VfsOk rootTree := noVfs_ok.step rootTree_eq

theorem devTree_ok : VfsOk devTree := rootTree_ok.step devTree_eq

/-- After `/dev` was made the tree has its shape. -/
theorem tree_shape_dev : TreeRun StepOk devTree ∧ (devTree.nodes 0).children = [1] ∧ TreeInv devTree := by
  have hroot : TreeRun StepOk rootTree :=
    .step _ (.empty rfl rfl)
      ⟨noVfs_ok.zero, fun p name hp => by cases (show (none : Option (Nat × CString)) = _ from hp)⟩
      rootTree_eq
  have hdev : TreeRun StepOk devTree := by
    refine .step _ hroot ⟨rootTree_ok.zero, fun p name hp => ?_⟩ devTree_eq
    obtain ⟨rfl, rfl⟩ : 0 = p ∧ ['d', 'e', 'v'] = name := Prod.mk.inj (Option.some.inj hp)
    exact ⟨rfl, fun c hc => nomatch hc⟩
  exact ⟨hdev, rfl, (tree_shape hdev).1⟩

/-- **Two entries of one name.**  `/dev` is made, and then mounted over: the root
lists both. -/
theorem dev_twice :
    ¬ ∀ v : Vfs, TreeRun (fun v _ => ZeroBlocks v) v → TreeInv v := by
  intro hclaim
  have hmount : treeStep devTree (.mount ['/', 'd', 'e', 'v'] .devfs)
      = some ((treeStep devTree (.mount ['/', 'd', 'e', 'v'] .devfs)).getD noVfs) := rfl
  have hinv := hclaim _ (.step _ (.step _ (.step _ (.empty rfl rfl) noVfs_ok.zero rootTree_eq)
    rootTree_ok.zero devTree_eq) devTree_ok.zero hmount)
  have hpair := hinv.unique 0 (by decide) rfl
  exact List.rel_of_pairwise_cons hpair (show 4 ∈ [4] from List.mem_cons_self) rfl

end BestOS
