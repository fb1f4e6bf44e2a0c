/-
BestOS/DotEntries.lean

The entries `.` and `..` as other spellings of a directory.

A dot entry is a node of its own, with children of its own, that points to the
directory it stands for.  `vfs_find_node` looks into that directory first and
into the entry second, so what is listed in the directory is found through every
spelling.  A name that is not listed there is where the spellings part:
`vfs_open` pushes a new file to the node it was given, which is the dot entry.

`EntryInv` says where the dot entries are, `Spelling.follow` that every nesting of
them leads back to the directory, and `openIn_alias_iff` compares an open in the
directory with one in a node that points to it.
-/
import BestOS.TreeShape

namespace BestOS

/-! ### Where the dot entries are -/

/-- The first two entries of directory `n`, which was entered in `parent`. -/
def HasDots (v : Vfs) (parent n : Nat) : Prop :=
  ∃ dotdot dot rest, (v.nodes n).children = dotdot :: dot :: rest ∧
    (v.nodes dotdot).name = ['.', '.'] ∧ (v.nodes dotdot).pointsTo = some parent ∧
    (v.nodes dot).name = ['.'] ∧ (v.nodes dot).pointsTo = some n

/-- A directory that is listed somewhere has its dot entries. -/
def EntryInv (v : Vfs) : Prop :=
  ∀ i < v.next, ∀ c ∈ (v.nodes i).children, (v.nodes c).type = .directory →
    (v.nodes c).pointsTo = none → HasDots v i c

theorem HasDots.find_dotdot {v : Vfs} {parent n : Nat} (h : HasDots v parent n) :
    ∃ a, findChild v n ['.', '.'] = some a ∧ (v.nodes a).pointsTo = some parent := by
  obtain ⟨dotdot, dot, rest, hchildren, hname, hpoints, -⟩ := h
  refine ⟨dotdot, ?_, hpoints⟩
  rw [findChild, hchildren, List.find?_cons_of_pos (by rw [hname]; rfl)]

theorem HasDots.find_dot {v : Vfs} {parent n : Nat} (h : HasDots v parent n) :
    ∃ a, findChild v n ['.'] = some a ∧ (v.nodes a).pointsTo = some n := by
  obtain ⟨dotdot, dot, rest, hchildren, hname, -, hname', hpoints⟩ := h
  refine ⟨dot, ?_, hpoints⟩
  rw [findChild, hchildren, List.find?_cons_of_neg (by rw [hname]; simp [strEq_iff]),
    List.find?_cons_of_pos (by rw [hname']; rfl)]

/-- The dot entries stay where they are while entries are added behind them. -/
theorem HasDots.grow {v v' : Vfs} (h : VfsOk v) {parent n : Nat} {more : List Nat}
    (hd : HasDots v parent n) (hchildren : (v'.nodes n).children = (v.nodes n).children ++ more)
    (hname : ∀ i < v.next, (v'.nodes i).name = (v.nodes i).name)
    (hpoints : ∀ i < v.next, (v'.nodes i).pointsTo = (v.nodes i).pointsTo) :
    HasDots v' parent n := by
  obtain ⟨dotdot, dot, rest, hc, h1, h2, h3, h4⟩ := hd
  have hlt : ∀ c ∈ dotdot :: dot :: rest, c < v.next := hc ▸ h.child n
  have hdotdot := hlt dotdot List.mem_cons_self
  have hdot := hlt dot (List.mem_cons_of_mem _ List.mem_cons_self)
  refine ⟨dotdot, dot, rest ++ more, ?_, ?_, ?_, ?_, ?_⟩
  · rw [hchildren, hc]
    rfl
  · rw [hname dotdot hdotdot, h1]
  · rw [hpoints dotdot hdotdot, h2]
  · rw [hname dot hdot, h3]
  · rw [hpoints dot hdot, h4]

theorem KeepsDirs.entryInv {v v' : Vfs} (h : VfsOk v) (inv : EntryInv v) (k : KeepsDirs v v') :
    EntryInv v' := by
  intro i _ c hc hdir hplain
  rw [k.children h] at hc
  have hcl := h.child i c hc
  rw [(k.old c hcl).type] at hdir
  rw [k.pointsTo h] at hplain
  have hchildren : (v'.nodes c).children = (v.nodes c).children ++ [] := by
    rw [List.append_nil]
    exact k.children h c
  exact (inv i (h.lt_of_child hc) c hc hdir hplain).grow h hchildren (fun j hj => (k.old j hj).name)
    fun j _ => k.pointsTo h j

theorem Enters.entryInv {v v' : Vfs} {parent : Nat} {kind : VfsNodeType} {name : CString}
    (h : VfsOk v) (inv : EntryInv v) (e : Enters v v' parent kind name) : EntryInv v' := by
  intro i _ c hc hdir hplain
  rcases e.mem_cases h hc with ⟨hold, hc⟩ | ⟨rfl, rfl⟩ | ⟨-, hdot⟩
  · have hcl := h.child i c hc
    rw [e.old_type hcl] at hdir
    rw [e.old_pointsTo hcl] at hplain
    exact (inv i hold c hc hdir hplain).grow h (e.old_children hcl) (fun j hj => e.old_name hj)
      fun j hj => e.old_pointsTo hj
  · -- the new node itself
    obtain rfl : .directory = kind := hdir.symm.trans e.type
    exact ⟨v.next + 1, v.next + 2, [], e.children, by rw [e.dotdot rfl]; rfl,
      by rw [e.dotdot rfl]; rfl, by rw [e.dot rfl]; rfl, by rw [e.dot rfl]; rfl⟩
  · -- its entries point elsewhere
    obtain ⟨-, -, d, t, hnode, -⟩ := e.new_dots hdot
    rw [hnode] at hplain
    cases hplain

theorem EntryInv.step {v v' : Vfs} (h : VfsOk v) (inv : EntryInv v) {op : TreeOp}
    (hs : treeStep v op = some v') : EntryInv v' := by
  rcases treeStep_cases h hs with ⟨-, hkept⟩ | ⟨parent, kind, name, -, henters⟩
  · exact hkept.entryInv h inv
  · exact henters.entryInv h inv

/-- The trees that the calls build on zero-filled blocks. -/
def BuiltTree (v : Vfs) : Prop := TreeRun (fun v _ => ZeroBlocks v) v ∧ ZeroBlocks v

theorem BuiltTree.ok {v : Vfs} (h : BuiltTree v) : VfsOk v := h.1.ok (fun _ _ hz => hz) h.2

theorem BuiltTree.entryInv {v : Vfs} (h : BuiltTree v) : EntryInv v := by
  induction h.1 with
  | empty hroot hnext =>
    intro i hi
    omega
  | step op hrun hz hs ih => exact (ih ⟨hrun, hz⟩).step (hrun.ok (fun _ _ hz => hz) hz) hs

/-! ### Spellings of a directory -/

/-- What may be appended to a path of directory `n`: any series of `/.` and of
`/d/..`, where `d` is a directory in `n`. -/
inductive Spelling (v : Vfs) (n : Nat) : List CString → Prop
  | here : Spelling v n []
  | dot {s} : Spelling v n s → Spelling v n (s ++ [['.']])
  | dotdot {s d k} : Spelling v n s → Ordinary d → findChild v n d = some k →
      (v.nodes k).type = .directory → Spelling v n (s ++ [d, ['.', '.']])

theorem Spelling.components {v : Vfs} {n : Nat} {s : List CString} (h : Spelling v n s) :
    ∀ c ∈ s, Component c := by
  induction h with
  | here =>
    intro c hc
    cases hc
  | dot _ ih =>
    intro c hc
    rcases List.mem_append.mp hc with hc | hc
    · exact ih c hc
    · rw [List.mem_singleton.mp hc]
      decide
  | dotdot _ hd _ _ ih =>
    intro c hc
    rcases List.mem_append.mp hc with hc | hc
    · exact ih c hc
    · rcases List.mem_cons.mp hc with rfl | hc
      · exact hd.1
      · rw [List.mem_singleton.mp hc]
        decide

/-- What is listed in a directory is found from the directory and from every node
that points to it. -/
theorem find_listed {v : Vfs} {n a c : Nat} {name : CString} (hn : (v.nodes n).pointsTo = none)
    (ha : a = n ∨ (v.nodes a).pointsTo = some n) (hc : findChild v n name = some c) :
    vfsFindNode v (some a) name = some (some c) := by
  unfold vfsFindNode
  rcases ha with rfl | ha
  · simp only [hn, hc]
  · simp only [ha, hc, Option.some_or]

/-- **Every spelling leads to the directory**: to the node itself or to one that
points to it. -/
theorem Spelling.follow {v : Vfs} {parent n : Nat} {s : List CString} (h : VfsOk v)
    (inv : EntryInv v) (hdots : HasDots v parent n) (hn : Plain v n) (hs : Spelling v n s) :
    ∃ a, BestOS.follow v (some n) s = some (some a) ∧
      ((s = [] ∧ a = n) ∨ (v.nodes a).pointsTo = some n) := by
  induction hs with
  | here => exact ⟨n, rfl, .inl ⟨rfl, rfl⟩⟩
  | dot _ ih =>
    obtain ⟨a, hfollow, ha⟩ := ih
    obtain ⟨b, hb, hpoints⟩ := hdots.find_dot
    refine ⟨b, ?_, .inr hpoints⟩
    rw [follow_concat, hfollow]
    exact find_listed hn.2 (ha.imp_left And.right) hb
  | @dotdot s d k _ hd hk hdir ih =>
    obtain ⟨a, hfollow, ha⟩ := ih
    have hkplain := h.find_plain hd hk
    obtain ⟨b, hb, hpoints⟩ :=
      (inv n hn.1 k (findChild_mem hk).1 hdir hkplain.2).find_dotdot
    refine ⟨b, ?_, .inr hpoints⟩
    rw [show s ++ [d, ['.', '.']] = (s ++ [d]) ++ [['.', '.']] by simp, follow_concat,
      follow_concat, hfollow, Option.bind_some, find_listed hn.2 (ha.imp_left And.right) hk]
    exact find_listed hkplain.2 (.inl rfl) hb

/-! ### Opening in a dot entry -/

/-- `vfs_open` in two directories that find the same node. -/
theorem openIn_found {v : Vfs} {p q c : Nat} {name : CString}
    (hp : vfsFindNode v (some p) name = some (some c))
    (hq : vfsFindNode v (some q) name = some (some c)) (buf flags : Nat) :
    openIn buf v p name flags = openIn buf v q name flags := by
  unfold openIn
  rw [hp, hq]

/-- `vfs_open` without `O_CREAT` on a name that is not found. -/
theorem openIn_not_found {v : Vfs} {p : Nat} {name : CString} {flags : Nat}
    (hp : vfsFindNode v (some p) name = some none) (hflags : flags &&& O_CREAT = 0) (buf : Nat) :
    openIn buf v p name flags = some (none, { v with errno := ENOENT }) := by
  unfold openIn
  rw [hp]
  dsimp only
  rw [if_neg (fun hc => Bool.false_ne_true hc.2), if_neg (not_not_intro hflags)]

/-- `vfs_open` on a name that is found takes no block, and fails only with
`EISDIR`. -/
theorem openIn_old {v : Vfs} {p c : Nat} {name : CString}
    (hp : vfsFindNode v (some p) name = some (some c)) (buf flags : Nat) :
    ∃ res v', openIn buf v p name flags = some (res, v') ∧ v'.next = v.next ∧
      (res = none → v'.errno = EISDIR) := by
  unfold openIn
  rw [hp]
  dsimp only
  split
  · exact ⟨none, _, rfl, rfl, fun _ => rfl⟩
  · split
    · exact ⟨some c, _, rfl, rfl, fun hc => by cases hc⟩
    · split
      · next target _ => exact ⟨some target, _, rfl, rfl, fun hc => by cases hc⟩
      · exact ⟨some c, _, rfl, rfl, fun hc => by cases hc⟩

/-- A new file is pushed to the directory it was opened in, and to no other. -/
theorem openIn_creates_ne {v : Vfs} (h : VfsOk v) {n a : Nat} {name : CString} {flags : Nat}
    (hn : n < v.next) (ha : a < v.next) (hne : n ≠ a) (hflags : flags &&& O_CREAT ≠ 0)
    (hfind : vfsFindNode v (some n) name = some none)
    (hfind' : vfsFindNode v (some a) name = some none) (buf : Nat) :
    openIn buf v a name flags ≠ openIn buf v n name flags := by
  obtain ⟨v₁, hopen₁, hadds₁⟩ := openIn_creates h buf ha hflags hfind'
  obtain ⟨v₂, hopen₂, hadds₂⟩ := openIn_creates h buf hn hflags hfind
  rw [hopen₁, hopen₂]
  intro heq
  obtain rfl : v₁ = v₂ := (Prod.mk.inj (Option.some.inj heq)).2
  have hpushed := (hadds₁.others n hne (Nat.ne_of_lt hn)).symm.trans hadds₂.pushed
  have hlen := congrArg (fun node => node.children.length) hpushed
  simp at hlen

/-- **An open in a node that points to a directory** does what an open in the
directory does exactly when the name is listed in the directory, or is not listed
in the node either and is not created. -/
theorem openIn_alias_iff {v : Vfs} (h : VfsOk v) {n a : Nat} (hn : Plain v n) (ha : a < v.next)
    (hpoints : (v.nodes a).pointsTo = some n) (name : CString) (buf flags : Nat) :
    openIn buf v a name flags = openIn buf v n name flags ↔
      findChild v n name ≠ none ∨ (flags &&& O_CREAT = 0 ∧ findChild v a name = none) := by
  have hne : n ≠ a := by
    rintro rfl
    rw [hn.2] at hpoints
    cases hpoints
  have hfind : vfsFindNode v (some a) name = some ((findChild v n name).or (findChild v a name)) := by
    unfold vfsFindNode
    simp only [hpoints]
  have hfind' := hn.find name
  cases hlisted : findChild v n name with
  | some c =>
    rw [hlisted] at hfind hfind'
    exact iff_of_true (openIn_found hfind hfind' buf flags) (.inl (by simp))
  | none =>
    rw [hlisted, Option.none_or] at hfind
    rw [hlisted] at hfind'
    cases hown : findChild v a name with
    | none =>
      rw [hown] at hfind
      by_cases hflags : flags &&& O_CREAT = 0
      · refine iff_of_true ?_ (.inr ⟨hflags, rfl⟩)
        rw [openIn_not_found hfind hflags, openIn_not_found hfind' hflags]
      · exact iff_of_false (openIn_creates_ne h hn.1 ha hne hflags hfind' hfind buf) (by simp [hflags])
    | some c =>
      -- the file in the dot entry is found through it alone
      rw [hown] at hfind
      refine iff_of_false (fun heq => ?_) (by simp)
      obtain ⟨res, v₁, hopen, hnext, herrno⟩ := openIn_old hfind buf flags
      rw [hopen] at heq
      by_cases hflags : flags &&& O_CREAT = 0
      · rw [openIn_not_found hfind' hflags] at heq
        obtain ⟨hres, hv⟩ := Prod.mk.inj (Option.some.inj heq)
        have hcode : ENOENT = EISDIR := (congrArg Vfs.errno hv).symm.trans (herrno hres)
        exact absurd hcode (by decide)
      · obtain ⟨v₂, hopen₂, hadds⟩ := openIn_creates h buf hn.1 hflags hfind'
        rw [hopen₂] at heq
        have hv := (Prod.mk.inj (Option.some.inj heq)).2
        have hcount := hadds.next
        rw [← hv, hnext] at hcount
        omega

/-! ### Opening through another spelling -/

/-- A walk from the root that arrives below it arrives at a listed node. -/
theorem follow_listed {v : Vfs} {P : List CString} {n : Nat}
    (hP : follow v v.root P = some (some n)) (hroot : v.root ≠ some n) :
    ∃ i, n ∈ (v.nodes i).children := by
  rcases List.eq_nil_or_concat P with rfl | ⟨front, c, rfl⟩
  · exact absurd (Option.some.inj hP) hroot
  · rw [List.concat_eq_append, follow_concat] at hP
    obtain ⟨m, -, hfind⟩ := Option.bind_eq_some_iff.mp hP
    obtain ⟨i, hmem, -⟩ := vfsFindNode_cases hfind
    exact ⟨i, hmem⟩

/-- **Dot entries.**  Let `P` be a path of a directory `n` below the root, which is
no dot entry itself, and let `/.` and `/d/..` be appended to it in any number and
order.  Opening a name there has the same effect and the same result as opening
it in `P` exactly when the name is listed in `n`, or is not created and not listed
in the dot entry. -/
theorem dot_spelling_iff {v : Vfs} (h : BuiltTree v) {P : List CString}
    (hP : ∀ c ∈ P, Component c) {n : Nat} (hn : follow v v.root P = some (some n))
    (hdir : (v.nodes n).type = .directory) (hplain : (v.nodes n).pointsTo = none)
    (hroot : v.root ≠ some n) {s : List CString} (hs : Spelling v n s) (hne : s ≠ [])
    {name : CString} (hname : Component name) (buf : Nat) (start : Option Nat) (flags : Nat) :
    ∃ a, follow v v.root (P ++ s) = some (some a) ∧
      (vfsOpen buf v start (absPath (P ++ s ++ [name])) flags
          = vfsOpen buf v start (absPath (P ++ [name])) flags ↔
        findChild v n name ≠ none ∨ (flags &&& O_CREAT = 0 ∧ findChild v a name = none)) := by
  have hok := h.ok
  obtain ⟨i, hi⟩ := follow_listed hn hroot
  have hnplain : Plain v n := ⟨hok.child i n hi, hplain⟩
  have hdots : HasDots v i n := h.entryInv i (hok.lt_of_child hi) n hi hdir hplain
  obtain ⟨a, ha, hor⟩ := hs.follow hok h.entryInv hdots hnplain
  -- the spelling has a last component, so it ends in a dot entry of `n`
  have hpoints : (v.nodes a).pointsTo = some n := hor.resolve_left fun hc => hne hc.1
  have halloc : a < v.next :=
    hok.follow_allocated (fun m hm => (Option.some.inj hm) ▸ hnplain.1) ha a rfl
  have hwalk : follow v v.root (P ++ s) = some (some a) := by
    rw [follow_append, hn]
    exact ha
  refine ⟨a, hwalk, ?_⟩
  have hcomp : ∀ c ∈ P ++ s ++ [name], Component c := by
    intro c hc
    rcases List.mem_append.mp hc with hc | hc
    · exact (List.mem_append.mp hc).elim (hP c) (hs.components c)
    · exact List.mem_singleton.mp hc ▸ hname
  have hcomp' : ∀ c ∈ P ++ [name], Component c := by
    intro c hc
    exact (List.mem_append.mp hc).elim (hP c) fun hc => List.mem_singleton.mp hc ▸ hname
  have hfront : follow v v.root (P ++ s ++ [name]).dropLast = some (some a) := by
    rw [List.dropLast_concat]
    exact hwalk
  have hfront' : follow v v.root (P ++ [name]).dropLast = some (some n) := by
    rw [List.dropLast_concat]
    exact hn
  rw [vfsOpen_absolute (by simp) hcomp hfront, vfsOpen_absolute (by simp) hcomp' hfront',
    List.getLast_concat, List.getLast_concat]
  exact openIn_alias_iff (v := { v with strtok := none }) (hok.same ⟨rfl, rfl, rfl⟩) hnplain halloc
    hpoints name buf flags

/-! ### A file in `/dev/.` -/

theorem devTree_built : BuiltTree devTree :=
  ⟨.step _ (.step _ (.empty rfl rfl) noVfs_ok.zero rootTree_eq) rootTree_ok.zero devTree_eq,
    devTree_ok.zero⟩

/-- In an empty `/dev` nothing is found as `/dev/./f` either, but it is made there. -/
theorem dot_spelling_dev :
    vfsOpen 0 devTree none (absPath [['d', 'e', 'v'], ['.'], ['f']]) 0
        = vfsOpen 0 devTree none (absPath [['d', 'e', 'v'], ['f']]) 0 ∧
      vfsOpen 0 devTree none (absPath [['d', 'e', 'v'], ['.'], ['f']]) O_CREAT
        ≠ vfsOpen 0 devTree none (absPath [['d', 'e', 'v'], ['f']]) O_CREAT := by
  have hiff := fun flags => dot_spelling_iff devTree_built (P := [['d', 'e', 'v']]) (by decide)
    (n := 1) rfl rfl rfl (by decide) (.dot .here) (by simp) (show Component ['f'] by decide) 0 none
    flags
  obtain ⟨a, ha, hopen⟩ := hiff 0
  obtain ⟨b, hb, hcreate⟩ := hiff O_CREAT
  obtain rfl : 3 = a := Option.some.inj (Option.some.inj ha)
  refine ⟨hopen.mpr (.inr ⟨rfl, rfl⟩), fun heq => ?_⟩
  rcases hcreate.mp heq with hlisted | ⟨hflags, -⟩
  · exact hlisted rfl
  · exact absurd hflags (by decide)

/-- **A file made as `/dev/./f` is lost**: it is not found as `/dev/f`.  So the
spellings of a directory do not do the same. -/
theorem dot_file_lost :
    (∃ v', vfsOpen 0 devTree none (absPath [['d', 'e', 'v'], ['.'], ['f']]) O_CREAT
          = some (some 4, v') ∧
        vfsLookup v' (absPath [['d', 'e', 'v'], ['.'], ['f']]) = some (some 4) ∧
        vfsLookup v' (absPath [['d', 'e', 'v'], ['f']]) = some none) ∧
      ¬ ∀ v, BuiltTree v → ∀ P n s name, (∀ c ∈ P, Component c) →
        follow v v.root P = some (some n) → (v.nodes n).type = .directory →
        (v.nodes n).pointsTo = none → v.root ≠ some n → Spelling v n s → Component name →
        ∀ buf start flags, vfsOpen buf v start (absPath (P ++ s ++ [name])) flags
          = vfsOpen buf v start (absPath (P ++ [name])) flags := by
  refine ⟨⟨_, rfl, by decide, by decide⟩, fun hclaim => ?_⟩
  have hsame := hclaim devTree devTree_built [['d', 'e', 'v']] 1 _ ['f'] (by decide) rfl rfl rfl
    (by decide) (.dot .here) (by decide) 0 none O_CREAT
  -- the entries of `/dev` after both
  have hchildren := congrArg (fun r => r.map fun p => (p.2.nodes 1).children) hsame
  exact absurd hchildren (by decide)

end BestOS
