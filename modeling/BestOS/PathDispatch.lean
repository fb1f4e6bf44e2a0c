/-
BestOS/PathDispatch.lean

Which filesystem a path is read and written with.

`vfs_read` and `vfs_write` call the filesystem of the node (`nodeFs`).  For an
ordinary path that is the last filesystem mounted on the way along it (`pathFs`),
provided that each node is coherent and that a lookup meets what was mounted
(`Visible`).  A mount is met where it is made at a place that is not taken; over a
directory that is there already it stays hidden, since the lookups take the first
entry of a name (`PlaceOk`).
-/
import BestOS.MountCoherence

namespace BestOS

/-! ### The filesystem of a path -/

/-- The last filesystem mounted on the way from directory `n` along the names, where
`fs` is the one met so far. -/
def mountedOver (v : Vfs) (m : Mounted) : Nat → Option Filesystem → List CString → Option Filesystem
  | _, fs, [] => fs
  | n, fs, c :: cs =>
    (findChild v n c).bind fun k => mountedOver v m k ((m.place n c).or fs) cs

/-- The filesystem mounted over the path `/c1/…/cm`. -/
def pathFs (v : Vfs) (m : Mounted) (cs : List CString) : Option Filesystem :=
  v.root.bind fun r => mountedOver v m r m.root cs

/-- What is mounted at a place is met there. -/
structure Visible (v : Vfs) (m : Mounted) : Prop where
  root : ∀ r, v.root = some r → ∃ fs, m.node r = some fs ∧ m.root = some fs
  place : ∀ p, (v.nodes p).pointsTo = none → ∀ name,
    (findChild v p name).bind m.node = m.place p name

/-- An entry that is no dot entry has the directory that lists it as its parent. -/
def ListedInv (v : Vfs) : Prop :=
  ∀ i < v.next, ∀ c ∈ (v.nodes i).children, (v.nodes c).pointsTo = none →
    (v.nodes c).parent = some i

/-- **The filesystem of a path is the filesystem of its node**, where the nodes are
coherent and the mounts visible. -/
theorem mountedOver_eq {v : Vfs} {m : Mounted} (h : VfsOk v) (t : TreeMounts v m)
    (inv : MountsCoherent v m) (hvis : Visible v m) (hlist : ListedInv v) {n k : Nat}
    {cs : List CString} (hcs : ∀ c ∈ cs, Ordinary c) (hn : TreeNode v n) (hplain : Plain v n)
    (hf : follow v (some n) cs = some (some k)) :
    mountedOver v m n (nodeFs v n) cs = nodeFs v k := by
  induction cs generalizing n with
  | nil =>
    cases hf
    rfl
  | cons c cs ih =>
    obtain ⟨j, hj, hrest⟩ := hplain.follow_cons hf
    have hjplain := h.find_plain (hcs c List.mem_cons_self) hj
    have hmem := (findChild_mem hj).1
    have hjtree : TreeNode v j := .inr ⟨n, hplain.1, hmem⟩
    have hplace : m.node j = m.place n c := by
      rw [← hvis.place n hplain.2 c, hj, Option.bind_some]
    have hfs : (m.place n c).or (nodeFs v n) = nodeFs v j := by
      rw [← hplace]
      cases hnode : m.node j with
      | some fs => rw [(inv j hjtree hjplain.2).2 fs (.self hnode), Option.some_or]
      | none =>
        -- `j` lies where the directory that lists it lies
        have habove : above v j = some n := by
          unfold above
          rw [hjplain.2, hlist n hplain.1 j hmem hjplain.2]
          rfl
        obtain ⟨fs, hnear⟩ := t.near n hn
        rw [(inv n hn hplain.2).2 fs hnear, (inv j hjtree hjplain.2).2 fs (.above hnode habove hnear),
          Option.none_or]
    rw [mountedOver, hj, Option.bind_some, hfs]
    exact ih (fun d hd => hcs d (List.mem_cons_of_mem c hd)) hjtree hjplain hrest

/-! ### One call -/

theorem KeepsDirs.listedInv {v v' : Vfs} (h : VfsOk v) (inv : ListedInv v) (k : KeepsDirs v v') :
    ListedInv v' := by
  intro i _ c hc hplain
  rw [k.children h] at hc
  rw [k.pointsTo h] at hplain
  exact (k.old c (h.child i c hc)).parent.trans (inv i (h.lt_of_child hc) c hc hplain)

theorem Enters.listedInv {v v' : Vfs} {parent : Nat} {kind : VfsNodeType} {name : CString}
    (h : VfsOk v) (inv : ListedInv v) (e : Enters v v' parent kind name) : ListedInv v' := by
  intro i _ c hc hplain
  rcases e.mem_cases h hc with ⟨hold, hc⟩ | ⟨rfl, rfl⟩ | ⟨-, hdot⟩
  · have hcl := h.child i c hc
    rw [e.old_pointsTo hcl] at hplain
    exact (e.old_parent hcl).trans (inv i hold c hc hplain)
  · exact e.under
  · exact absurd hplain (e.dots_new hdot).2.2.1

theorem ListedInv.step {v v' : Vfs} (h : VfsOk v) (inv : ListedInv v) {op : TreeOp}
    (hs : treeStep v op = some v') : ListedInv v' := by
  rcases treeStep_cases h hs with ⟨-, hkept⟩ | ⟨parent, kind, name, -, henters⟩
  · exact hkept.listedInv h inv
  · exact henters.listedInv h inv

/-- The lookups stay the same. -/
theorem KeepsDirs.findChild {v v' : Vfs} (h : VfsOk v) (k : KeepsDirs v v') (n : Nat)
    (name : CString) : BestOS.findChild v' n name = BestOS.findChild v n name := by
  unfold BestOS.findChild
  rw [k.children h]
  apply List.find?_congr
  intro c hc
  rw [(k.old c (h.child n c hc)).name]

/-- An old directory finds what it found, and in `parent` then the new node. -/
theorem Enters.findChild_old {v v' : Vfs} {parent : Nat} {kind : VfsNodeType} {name : CString}
    (h : VfsOk v) (e : Enters v v' parent kind name) {n : Nat} (hn : n < v.next) (d : CString) :
    findChild v' n d =
      (findChild v n d).or (if n = parent ∧ d = name then some v.next else none) := by
  have hold : ((v.nodes n).children.find? fun c => strEq d (v'.nodes c).name) = findChild v n d := by
    apply List.find?_congr
    intro c hc
    rw [e.old_name (h.child n c hc)]
  have hlast : ((if n = parent then [v.next] else []).find? fun c => strEq d (v'.nodes c).name)
      = if n = parent ∧ d = name then some v.next else none := by
    by_cases hp : n = parent
    · simp [hp, List.find?_singleton, e.name, strEq_iff]
    · simp [hp]
  rw [findChild, e.old_children hn, List.find?_append, hold, hlast]

theorem findChild_free {v : Vfs} (h : VfsOk v) {n : Nat} (hn : v.next ≤ n) (name : CString) :
    findChild v n name = none := by
  rw [findChild, h.zero n hn]
  rfl

/-- The condition on a mount: "/" is mounted once, and other paths where nothing is
found, or the same filesystem; and never in a dot entry. -/
def PlaceOk (v : Vfs) (m : Mounted) : TreeOp → Prop
  | .mount path fs =>
      (path = ['/'] → v.root = none ∨ m.root = some fs) ∧
      ∀ p name, entersAt v (.mount path fs) = some (p, name) →
        (v.nodes p).pointsTo = none ∧ ∀ k, findChild v p name = some k → m.node k = some fs
  | _ => True

theorem KeepsDirs.visible {v v' : Vfs} {m m' : Mounted} (h : VfsOk v) (hvis : Visible v m)
    (k : KeepsDirs v v') (hnode : ∀ n < v.next, m'.node n = m.node n) (hplace : m'.place = m.place)
    (hroot : ∀ r, v'.root = some r → ∃ fs, m'.node r = some fs ∧ m'.root = some fs) :
    Visible v' m' where
  root := hroot
  place := by
    intro p hp name
    rw [k.pointsTo h] at hp
    rw [k.findChild h, hplace, ← hvis.place p hp name]
    exact Option.bind_congr fun c hc => hnode c (h.child p c (findChild_mem hc).1)

/-- A node that is entered, mounted or not. -/
theorem Enters.visible {v v' : Vfs} {m m' : Mounted} {parent : Nat} {kind : VfsNodeType}
    {name : CString} (h : VfsOk v) (hvis : Visible v m) (e : Enters v v' parent kind name)
    (hnode : ∀ n, n ≠ v.next → m'.node n = m.node n) (hfresh : ∀ n, v.next ≤ n → m.node n = none)
    (hroot : m'.root = m.root)
    (hother : ∀ p d, ¬ (p = parent ∧ d = name) → m'.place p d = m.place p d)
    (hhere : (v.nodes parent).pointsTo = none →
      ((findChild v parent name).or (some v.next)).bind m'.node = m'.place parent name) :
    Visible v' m' where
  root := by
    intro r hr
    rw [e.root] at hr
    rw [hnode r (Nat.ne_of_lt (h.root r hr).1), hroot]
    exact hvis.root r hr
  place := by
    intro p hp d
    rcases Nat.lt_or_ge p v.next with hlt | hge
    · rw [e.old_pointsTo hlt] at hp
      rw [e.findChild_old h hlt]
      by_cases hat : p = parent ∧ d = name
      · obtain ⟨rfl, rfl⟩ := hat
        rw [if_pos ⟨rfl, rfl⟩]
        exact hhere hp
      · rw [if_neg hat, Option.or_none, hother p d hat, ← hvis.place p hp d]
        exact Option.bind_congr fun c hc =>
          hnode c (Nat.ne_of_lt (h.child p c (findChild_mem hc).1))
    · -- in a new directory only the dot entries are found
      have hnone : (findChild v' p d).bind m'.node = none := by
        rw [Option.bind_eq_none_iff]
        intro c hc
        have hmem := (findChild_mem hc).1
        have hcge : v.next < c := by
          rcases e.mem_cases h hmem with ⟨hold, -⟩ | ⟨rfl, -⟩ | ⟨-, hdot⟩
          · exact absurd hold (Nat.not_lt.mpr hge)
          · exact absurd e.bound (Nat.not_lt.mpr hge)
          · exact (e.dots_new hdot).1
        rw [hnode c (Nat.ne_of_gt hcge)]
        exact hfresh c hcge.le
      have hparent : ¬ (p = parent ∧ d = name) := by
        rintro ⟨rfl, -⟩
        exact absurd e.bound (Nat.not_lt.mpr hge)
      have hold : m.place p d = none := by
        rw [← hvis.place p (by rw [h.zero p hge]; rfl) d, findChild_free h hge]
        rfl
      rw [hnone, hother p d hparent, hold]

/-- A call that mounts nothing and enters a node. -/
theorem Enters.visible_unmounted {v v' : Vfs} {m : Mounted} {parent : Nat} {kind : VfsNodeType}
    {name : CString} (h : VfsOk v) (t : TreeMounts v m) (hvis : Visible v m)
    (e : Enters v v' parent kind name) : Visible v' m := by
  refine e.visible h hvis (fun _ _ => rfl) t.fresh rfl (fun _ _ _ => rfl) fun hp => ?_
  rw [← hvis.place parent hp name]
  cases findChild v parent name with
  | some c => rfl
  | none => exact t.fresh v.next (Nat.le_refl _)

/-- A call that mounts nothing and changes no directory. -/
theorem KeepsDirs.visible_unmounted {v v' : Vfs} {m : Mounted} (h : VfsOk v) (hvis : Visible v m)
    (k : KeepsDirs v v') (hroot : v'.root = v.root) : Visible v' m :=
  k.visible h hvis (fun _ _ => rfl) rfl fun r hr => hvis.root r (hroot.symm.trans hr)

theorem Visible.mount {v v' : Vfs} {m : Mounted} (h : VfsOk v) (t : TreeMounts v m)
    (hvis : Visible v m) {path : CString} {fs : Filesystem} (hok : PlaceOk v m (.mount path fs))
    (hs : vfsMount v path fs = some v') : Visible v' (recordMount v m (.mount path fs)) := by
  have hnode : ∀ n, n ≠ v.next → (recordMount v m (.mount path fs)).node n = m.node n :=
    fun n hn => Function.update_of_ne hn _ _
  have hself : (recordMount v m (.mount path fs)).node v.next = some fs := Function.update_self _ _ _
  have hslash : path = ['/'] → (recordMount v m (.mount path fs)).root = some fs ∧
      (recordMount v m (.mount path fs)).place = m.place := by
    intro hpath
    have heq : strEq path ['/'] = true := (strEq_iff _ _).mpr hpath
    refine ⟨if_pos heq, funext fun dir => funext fun name => if_neg fun hc => ?_⟩
    rw [heq] at hc
    exact absurd hc.1 (by decide)
  rcases vfsMount_end h hs with ⟨hnone, hpath, hkept, -, hroot, -⟩ | ⟨hsome, hpath, hkept, -, hroot, -⟩ |
    ⟨parent, hpath, hpar, henters, -⟩
  · refine hkept.visible h hvis (fun n hn => hnode n (Nat.ne_of_lt hn)) (hslash hpath).2 fun r hr => ?_
    obtain rfl := Option.some.inj (hroot.symm.trans hr)
    exact ⟨fs, hself, (hslash hpath).1⟩
  · refine hkept.visible h hvis (fun n hn => hnode n (Nat.ne_of_lt hn)) (hslash hpath).2 fun r hr => ?_
    -- the root keeps the filesystem that it was mounted with
    rw [hroot] at hr
    obtain ⟨fs', hr', hm⟩ := hvis.root r hr
    have hfs : m.root = some fs := (hok.1 hpath).resolve_left hsome
    obtain rfl := Option.some.inj (hm.symm.trans hfs)
    exact ⟨fs', (hnode r (Nat.ne_of_lt (h.root r hr).1)).trans hr', (hslash hpath).1⟩
  · have hne : ¬ strEq path ['/'] = true := fun he => hpath ((strEq_iff _ _).mp he)
    have hwhere : entersAt v (.mount path fs) = some (parent, basename path) := by
      rw [entersAt, if_neg hne, hpar]
      rfl
    refine henters.visible h hvis hnode t.fresh (if_neg hne) (fun p d hat => ?_) fun hp => ?_
    · refine if_neg fun hc => hat ⟨?_, hc.2.2⟩
      exact (Option.some.inj (hpar.symm.trans hc.2.1)).symm
    · have hhere : (recordMount v m (.mount path fs)).place parent (basename path) = some fs :=
        if_pos ⟨by simpa using hne, hpar, rfl⟩
      rw [hhere]
      cases hf : findChild v parent (basename path) with
      | none => exact hself
      | some k =>
        have hk := h.child parent k (findChild_mem hf).1
        rw [Option.some_or, Option.bind_some, hnode k (Nat.ne_of_lt hk)]
        exact (hok.2 parent _ hwhere).2 k hf

/-- **One call keeps the mounts visible** if it meets `PlaceOk`. -/
theorem Visible.step {v v' : Vfs} {m : Mounted} (h : VfsOk v) (t : TreeMounts v m)
    (hvis : Visible v m) {op : TreeOp} (hok : PlaceOk v m op) (hs : treeStep v op = some v') :
    Visible v' (recordMount v m op) := by
  cases op with
  | mount path fs => exact hvis.mount h t hok hs
  | mkdir path =>
    obtain ⟨⟨res, v₁⟩, hm, rfl⟩ := Option.map_eq_some_iff.mp hs
    rcases vfsMkdir_end h hm with ⟨-, hkept, -, hroot, -⟩ | ⟨-, -, hkept, hroot, -⟩ |
      ⟨parent, root, -, -, -, henters, -⟩
    · exact hkept.visible_unmounted h hvis hroot
    · exact hkept.visible_unmounted h hvis hroot
    · exact henters.visible_unmounted h t hvis
  | opened buf path flags =>
    obtain ⟨⟨res, v₁⟩, ho, rfl⟩ := Option.map_eq_some_iff.mp hs
    rcases vfsOpen_end h ho with ⟨-, hkept, -, hroot, -⟩ | ⟨parent, -, -, -, henters, -⟩
    · exact hkept.visible_unmounted h hvis hroot
    · exact henters.visible_unmounted h t hvis
  | createFile buffer path address size =>
    obtain ⟨parent, -, henters, -⟩ := tmpfsCreateFile_end h hs
    exact henters.visible_unmounted h t hvis

/-! ### Runs -/

/-- The states reached from an empty tree by calls that meet `ok`, with the record of
the mounts. -/
inductive MountRun (ok : Vfs → Mounted → TreeOp → Prop) : Vfs → Mounted → Prop
  | empty {v} : v.root = none → v.next = 0 → MountRun ok v noMounts
  | step {v v' m} (op : TreeOp) : MountRun ok v m → ok v m op → treeStep v op = some v' →
      MountRun ok v' (recordMount v m op)

/-- The condition under which the nodes are coherent. -/
def FsStep (v : Vfs) (m : Mounted) (op : TreeOp) : Prop := ZeroBlocks v ∧ FsOk v m op

/-- The condition under which paths are read and written with what is mounted over
them. -/
def PathStep (v : Vfs) (m : Mounted) (op : TreeOp) : Prop := FsStep v m op ∧ PlaceOk v m op

section MountRun

variable {ok : Vfs → Mounted → TreeOp → Prop} {v : Vfs} {m : Mounted}

theorem MountRun.mono {ok' : Vfs → Mounted → TreeOp → Prop} (hok : ∀ v m op, ok v m op → ok' v m op)
    (h : MountRun ok v m) : MountRun ok' v m := by
  induction h with
  | empty hroot hnext => exact .empty hroot hnext
  | step op _ hop hs ih => exact .step op ih (hok _ _ _ hop) hs

theorem MountRun.tree (h : MountRun ok v m) (hok : ∀ v m op, ok v m op → ZeroBlocks v) :
    TreeRun (fun v _ => ZeroBlocks v) v := by
  induction h with
  | empty hroot hnext => exact .empty hroot hnext
  | step op _ hop hs ih => exact .step op ih (hok _ _ _ hop) hs

theorem MountRun.vfsOk (h : MountRun ok v m) (hok : ∀ v m op, ok v m op → ZeroBlocks v)
    (hz : ZeroBlocks v) : VfsOk v :=
  (h.tree hok).ok (fun _ _ hz => hz) hz

theorem MountRun.coherent (h : MountRun FsStep v m) : TreeMounts v m ∧ MountsCoherent v m := by
  induction h with
  | @empty v hroot hnext =>
    have hempty : ∀ n, ¬ TreeNode v n := by
      rintro n (hn | ⟨i, hi, -⟩)
      · rw [hroot] at hn
        cases hn
      · omega
    exact ⟨⟨fun n hn => absurd hn (hempty n), fun n hn => absurd hn (hempty n),
      fun n hn => absurd hn (hempty n), fun n hn => absurd hn (hempty n), fun _ _ => rfl⟩,
      fun n hn => absurd hn (hempty n)⟩
  | step op hrun hop hs ih =>
    obtain ⟨htree, hiff⟩ :=
      ih.2.step_iff (hrun.vfsOk (fun _ _ _ hc => hc.1) hop.1) ih.1 hs
    exact ⟨htree, hiff.mpr hop.2⟩

theorem MountRun.visible (h : MountRun PathStep v m) :
    v.root = none ∨ (VfsOk v ∧ ListedInv v ∧ Visible v m) := by
  have hcoherent : ∀ {v m}, MountRun PathStep v m → TreeMounts v m := fun h =>
    (h.mono fun _ _ _ hc => hc.1).coherent.1
  -- the empty tree may lie in blocks that are not zeroed: until a call finds them zeroed
  -- nothing is said of what is visible
  suffices hsuff : ListedInv v ∧ (ZeroBlocks v → Visible v m) ∧ (v.root = none ∨ VfsOk v) by
    obtain ⟨hlist, hvis, hroot | hok⟩ := hsuff
    · exact .inl hroot
    · exact .inr ⟨hok, hlist, hvis hok.zero⟩
  induction h with
  | @empty v hroot hnext =>
    refine ⟨fun i hi => by omega, fun hz => ⟨fun r hr => ?_, fun p _ name => ?_⟩, .inl hroot⟩
    · rw [hroot] at hr
      cases hr
    · rw [findChild, hz p (by omega)]
      rfl
  | step op hrun hop hs ih =>
    have hok := hrun.vfsOk (fun _ _ _ hc => hc.1.1) hop.1.1
    exact ⟨ih.1.step hok hs, fun _ => (ih.2.1 hok.zero).step hok (hcoherent hrun) hop.2 hs,
      .inr (hok.step hs)⟩

end MountRun

/-- **Mount coherence.**  In every run whose calls make directories where the
filesystem of the root is mounted, and files in no dot entry:

* each node of the tree that is no dot entry has the filesystem mounted nearest;
* no dot entry has it, so that all nodes have it exactly while there is none;
* the next call keeps that exactly when it does the same;
* and if besides each mount was made at a place that was not taken, then an ordinary
  path is read and written with the filesystem mounted over it. -/
theorem mount_coherence {v : Vfs} {m : Mounted} (h : MountRun FsStep v m) :
    MountsCoherent v m ∧
    ((∀ n, TreeNode v n → Coherent v m n) ↔ ∀ n, TreeNode v n → (v.nodes n).pointsTo = none) ∧
    (∀ op v', ZeroBlocks v → treeStep v op = some v' →
      (MountsCoherent v' (recordMount v m op) ↔ FsOk v m op)) ∧
    (MountRun PathStep v m → ∀ cs n, (∀ c ∈ cs, Ordinary c) →
      follow v v.root cs = some (some n) → ∀ s : SysState, s.vfs = v →
      (∀ tmp offset count buf, vfsRead tmp s n offset count buf
        = fsRead (pathFs v m cs) tmp s n offset count buf) ∧
      ∀ g count buf, vfsWrite g s n count buf = fsWrite (pathFs v m cs) g s n count buf) := by
  obtain ⟨htree, hcoherent⟩ := h.coherent
  refine ⟨hcoherent, ⟨fun hall n hn => ?_, fun hplain n hn => hcoherent n hn (hplain n hn)⟩,
    fun op v' hz hs => ?_, fun hpath cs n hcs hf s hs => ?_⟩
  · by_contra hp
    exact htree.dot_incoherent hn hp (hall n hn)
  · exact (hcoherent.step_iff (h.vfsOk (fun _ _ _ hc => hc.1) hz) htree hs).2
  · have hfs : pathFs v m cs = nodeFs v n := by
      rcases hpath.visible with hnone | ⟨hok, hlist, hvis⟩
      · rw [hnone] at hf
        cases cs <;> cases hf
      · cases hr : v.root with
        | none =>
          rw [hr] at hf
          cases cs <;> cases hf
        | some r =>
          -- the root is mounted; from there each component is followed in turn
          rw [hr] at hf
          have hin : TreeNode v r := .inl hr
          obtain ⟨fs, hnode, hroot⟩ := hvis.root r hr
          rw [pathFs, hr, Option.bind_some, hroot,
            ← (hcoherent r hin (hok.root r hr).2).2 fs (.self hnode)]
          exact mountedOver_eq hok htree hcoherent hvis hlist hcs hin (hok.root r hr) hf
    subst hs
    rw [hfs]
    exact ⟨fun tmp offset count buf => vfsRead_nodeFs tmp s n offset count buf,
      fun g count buf => vfsWrite_nodeFs g s n count buf⟩

/-! ### A devfs on `/dev` -/

/-- The tree with a tmpfs on the root and a devfs on `/dev`. -/
def mountedDev : Vfs := (treeStep rootTree (.mount ['/', 'd', 'e', 'v'] .devfs)).getD noVfs

theorem mountedDev_eq : treeStep rootTree (.mount ['/', 'd', 'e', 'v'] .devfs) = some mountedDev := rfl

theorem mountedDev_ok : VfsOk mountedDev := rootTree_ok.step mountedDev_eq

/-- The mounts of `mountedDev`. -/
def devMounts : Mounted :=
  recordMount rootTree (recordMount noVfs noMounts (.mount ['/'] .tmpfs))
    (.mount ['/', 'd', 'e', 'v'] .devfs)

theorem mountedDev_run : MountRun PathStep mountedDev devMounts := by
  refine .step _ (.step _ (.empty rfl rfl) ⟨⟨noVfs_ok.zero, trivial⟩, ?_⟩ rootTree_eq)
    ⟨⟨rootTree_ok.zero, trivial⟩, ?_⟩ mountedDev_eq
  · refine ⟨fun _ => .inl rfl, fun p name hp => ?_⟩
    cases (show (none : Option (Nat × CString)) = some (p, name) from hp)
  · refine ⟨fun hpath => absurd hpath (by decide), fun p name hp => ?_⟩
    obtain ⟨rfl, rfl⟩ : 0 = p ∧ ['d', 'e', 'v'] = name := Prod.mk.inj (Option.some.inj hp)
    exact ⟨rfl, fun k hk => by cases (show (none : Option Nat) = some k from hk)⟩

/-- The terminal `/dev/tty` is read with `devfs_read`. -/
theorem mount_coherence_tty :
    ∃ v m, MountRun PathStep v m ∧ follow v v.root [['d', 'e', 'v'], ['t', 't', 'y']] = some (some 4) ∧
      ∀ s : SysState, s.vfs = v → ∀ tmp offset count buf,
        vfsRead tmp s 4 offset count buf = devfsRead tmp s 4 buf := by
  have hopen : treeStep mountedDev (.opened 0 ['/', 'd', 'e', 'v', '/', 't', 't', 'y'] O_CREAT)
      = some ((treeStep mountedDev (.opened 0 ['/', 'd', 'e', 'v', '/', 't', 't', 'y'] O_CREAT)).getD
          noVfs) := rfl
  have hfs : FsOk mountedDev devMounts (.opened 0 ['/', 'd', 'e', 'v', '/', 't', 't', 'y'] O_CREAT) := by
    intro p name hp
    obtain ⟨rfl, rfl⟩ : 1 = p ∧ ['t', 't', 'y'] = name := Prod.mk.inj (Option.some.inj hp)
    rfl
  have hrun := MountRun.step _ mountedDev_run ⟨⟨mountedDev_ok.zero, hfs⟩, trivial⟩ hopen
  have hpaths := (mount_coherence (hrun.mono fun _ _ _ hc => hc.1)).2.2.2 hrun
  exact ⟨_, _, hrun, rfl, fun s hs =>
    (hpaths [['d', 'e', 'v'], ['t', 't', 'y']] 4 (by decide) rfl s hs).1⟩

/-- **A directory below `/dev`** has the filesystem of the root, and so have its
files. -/
theorem devfs_dir_on_tmpfs :
    ¬ ∀ v m, MountRun (fun v _ _ => ZeroBlocks v) v m →
      (∀ n, TreeNode v n → (v.nodes n).pointsTo = none → Coherent v m n) ∧
      ∀ cs n, (∀ c ∈ cs, Ordinary c) → follow v v.root cs = some (some n) →
        nodeFs v n = pathFs v m cs := by
  intro hclaim
  have hmkdir : treeStep mountedDev (.mkdir ['/', 'd', 'e', 'v', '/', 'd'])
      = some ((treeStep mountedDev (.mkdir ['/', 'd', 'e', 'v', '/', 'd'])).getD noVfs) := rfl
  have hrun : MountRun (fun v _ _ => ZeroBlocks v) mountedDev devMounts :=
    mountedDev_run.mono fun _ _ _ hc => hc.1.1
  obtain ⟨hcoherent, -⟩ := hclaim _ _ (.step _ hrun mountedDev_ok.zero hmkdir)
  have hnear := (hcoherent 4 (.inr ⟨1, by decide, by decide⟩) rfl).2 .devfs
    (.above rfl rfl (.self rfl))
  exact absurd hnear (by decide)

end BestOS
