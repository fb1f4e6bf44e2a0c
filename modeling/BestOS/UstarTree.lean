/-
BestOS/UstarTree.lean

From the archive to the tree.

`Archive` is what a tar archive is, apart from how the kernel reads it: headers
and contents in blocks of 512 bytes, up to a header without a name.  The loop of
`create_tmpfs_files` is followed with a list of the entries it has placed, each
with the node it was placed in.  `Tree` is the invariant: the children of a
directory are its dot entries and, in order, the nodes of the entries whose path
continues its path by one component.  Such a tree holds the placed entries and
no others, and every one of them is found at its path.

The invariant is kept by a round as long as the blocks the round is given are
clean: no character behind the name of a path, and no `points_to` in the node of
a directory that something will be in.
-/
import BestOS.Ustar
import Mathlib.Data.List.Nodup

namespace BestOS

open ByteMemory

/-! ### Archives -/

/-- An entry, by its path without slashes. -/
structure Entry where
  path : List CString
  type : VfsNodeType
  size : Nat
  nonempty : path ≠ []
  ordinary : ∀ c ∈ path, Ordinary c

namespace Entry

/-- The name in the header: that of a directory ends in a slash. -/
def name (e : Entry) : CString :=
  match e.type with
  | .file => relPath e.path
  | .directory => relPath e.path ++ ['/']

/-- The last component. -/
def last (e : Entry) : CString := e.path.getLast e.nonempty

/-- The path of the directory it is in. -/
def parent (e : Entry) : List CString := e.path.dropLast

theorem path_eq (e : Entry) : e.path = e.parent ++ [e.last] :=
  (List.dropLast_append_getLast e.nonempty).symm

theorem path_inj {e e' : Entry} (hp : e.parent = e'.parent) (hl : e.last = e'.last) :
    e.path = e'.path := by
  rw [e.path_eq, e'.path_eq, hp, hl]

theorem last_ordinary (e : Entry) : Ordinary e.last := e.ordinary _ (List.getLast_mem e.nonempty)

theorem components (e : Entry) : ∀ c ∈ e.path, Component c := fun c hc => (e.ordinary c hc).1

end Entry

/-- The header of the entry is at `a`. -/
structure HeaderAt (m : Mem) (a : Nat) (e : Entry) : Prop where
  name : headerName m a = e.name
  short : e.name.length < 100
  type : headerType m a = if e.type = .directory then 0x35#8 else 0x30#8
  digits : ∀ j < 11, OctalDigit (m (a + 124 + j))
  size : octal m (a + 124) 11 = e.size

/-- The blocks of an entry: its header and its contents. -/
def Entry.blocks (e : Entry) : Nat := 1 + (e.size + 511) / 512

/-- An archive at `a`, with the addresses of the headers. -/
inductive Archive (m : Mem) : Nat → List (Entry × Nat) → Prop
  | stop {a} : m a = 0 → Archive m a []
  | entry {a e es} : HeaderAt m a e → a + 512 * e.blocks < 2 ^ 64 →
      Archive m (a + 512 * e.blocks) es → Archive m a ((e, a) :: es)

/-- Every directory is listed before what is in it. -/
def ParentsFirst (es : List Entry) : Prop :=
  ∀ done e rest, es = done ++ e :: rest →
    e.parent = [] ∨ ∃ d ∈ done, d.type = .directory ∧ d.path = e.parent

/-! ### Trees -/

/-- An entry with the address of its header, and the node it was placed in. -/
structure Placed where
  entry : Entry
  header : Nat
  node : Nat

/-- The nodes below the root, without the dot entries. -/
inductive InTree (v : Vfs) (r : Nat) : Nat → Prop
  | top {c} : (v.nodes r).type = .directory → c ∈ (v.nodes r).children → ¬ Dot (v.nodes c).name →
      InTree v r c
  | deeper {d c} : InTree v r d → (v.nodes d).type = .directory → c ∈ (v.nodes d).children →
      ¬ Dot (v.nodes c).name → InTree v r c

/-- The node is that of the entry. -/
structure Holds (v : Vfs) (p : Placed) : Prop where
  name : (v.nodes p.node).name = p.entry.last
  type : (v.nodes p.node).type = p.entry.type
  file : p.entry.type = .file → (v.nodes p.node).stSize = p.entry.size ∧
    (v.nodes p.node).internalAddress = p.header + 512

/-- The directory at a path is this node. -/
def DirAt (r : Nat) (ns : List Placed) (path : List CString) (n : Nat) : Prop :=
  (path = [] ∧ n = r) ∨ ∃ p ∈ ns, p.entry.type = .directory ∧ p.entry.path = path ∧ p.node = n

/-- The nodes of the entries in the directory at a path. -/
def entriesIn (ns : List Placed) (path : List CString) : List Nat :=
  (ns.filter fun p => p.entry.parent = path).map Placed.node

/-- There is something in the directory at a path. -/
def IsParent (all : List Entry) (path : List CString) : Prop := ∃ e ∈ all, e.parent = path

/-- The node is the directory at this path; `all` are the entries of the archive. -/
structure DirHolds (v : Vfs) (all : List Entry) (ns : List Placed) (path : List CString) (n : Nat) :
    Prop where
  type : (v.nodes n).type = .directory
  plain : IsParent all path → (v.nodes n).pointsTo = none
  bound : n < v.next
  children : ∃ dots, (v.nodes n).children = dots ++ entriesIn ns path ∧
    ∀ d ∈ dots, d < v.next ∧ Dot (v.nodes d).name

/-- The invariant of the loop. -/
structure Tree (v : Vfs) (r : Nat) (all : List Entry) (ns : List Placed) : Prop where
  root : v.root = some r
  listed : ∀ p ∈ ns, p.entry ∈ all
  holds : ∀ p ∈ ns, Holds v p
  bound : ∀ p ∈ ns, p.node < v.next
  paths : (ns.map fun p => p.entry.path).Nodup
  nodes : (ns.map Placed.node).Nodup
  root_new : ∀ p ∈ ns, p.node ≠ r
  closed : ∀ p ∈ ns, ∃ n, DirAt r ns p.entry.parent n
  dirs : ∀ path n, DirAt r ns path n → DirHolds v all ns path n

namespace Tree

variable {v v' : Vfs} {r : Nat} {all : List Entry} {ns : List Placed}

/-- The root alone. -/
theorem empty (hroot : v.root = some r) (hdir : DirHolds v all [] [] r) : Tree v r all [] where
  root := hroot
  listed := by simp
  holds := by simp
  bound := by simp
  paths := List.nodup_nil
  nodes := List.nodup_nil
  root_new := by simp
  closed := by simp
  dirs := by
    rintro path n (⟨rfl, rfl⟩ | ⟨p, hp, -⟩)
    · exact hdir
    · cases hp

theorem eq_of_path (h : Tree v r all ns) {p q : Placed} (hp : p ∈ ns) (hq : q ∈ ns)
    (heq : p.entry.path = q.entry.path) : p = q :=
  List.inj_on_of_nodup_map h.paths hp hq heq

theorem eq_of_node (h : Tree v r all ns) {p q : Placed} (hp : p ∈ ns) (hq : q ∈ ns)
    (heq : p.node = q.node) : p = q :=
  List.inj_on_of_nodup_map h.nodes hp hq heq

/-- A path has one directory, -/
theorem dir_node (h : Tree v r all ns) {path : List CString} {n k : Nat} (hn : DirAt r ns path n)
    (hk : DirAt r ns path k) : n = k := by
  rcases hn with ⟨hnil, rfl⟩ | ⟨p, hp, -, hpath, rfl⟩ <;>
    rcases hk with ⟨hnil', rfl⟩ | ⟨q, hq, -, hpath', rfl⟩
  · rfl
  · exact absurd (hpath'.trans hnil) q.entry.nonempty
  · exact absurd (hpath.trans hnil') p.entry.nonempty
  · rw [h.eq_of_path hp hq (hpath.trans hpath'.symm)]

/-- and a directory one path. -/
theorem dir_path (h : Tree v r all ns) {path path' : List CString} {n : Nat} (hn : DirAt r ns path n)
    (hn' : DirAt r ns path' n) : path = path' := by
  rcases hn with ⟨rfl, rfl⟩ | ⟨p, hp, -, rfl, rfl⟩ <;>
    rcases hn' with ⟨rfl, heq⟩ | ⟨q, hq, -, rfl, heq⟩
  · rfl
  · exact absurd heq (h.root_new q hq)
  · exact absurd heq (h.root_new p hp)
  · rw [h.eq_of_node hp hq heq.symm]

/-! ### Looking up -/

/-- An entry is found in its directory. -/
theorem find (h : Tree v r all ns) {p : Placed} (hp : p ∈ ns) {n : Nat}
    (hn : DirAt r ns p.entry.parent n) :
    vfsFindNode v (some n) p.entry.last = some (some p.node) := by
  have hdir := h.dirs _ _ hn
  obtain ⟨dots, hchildren, hdots⟩ := hdir.children
  have hplain : Plain v n := ⟨hdir.bound, hdir.plain ⟨p.entry, h.listed p hp, rfl⟩⟩
  rw [hplain.find, findChild, hchildren, List.find?_append]
  have hskip : dots.find? (fun c => strEq p.entry.last (v.nodes c).name) = none := by
    refine List.find?_eq_none.mpr fun d hd heq => p.entry.last_ordinary.2 ?_
    rw [(strEq_iff _ _).mp heq]
    exact (hdots d hd).2
  rw [hskip, Option.none_or]
  congr 1
  -- the first match has the path of the entry
  cases hfind : (entriesIn ns p.entry.parent).find?
      (fun c => strEq p.entry.last (v.nodes c).name) with
  | none =>
    have hmem : p.node ∈ entriesIn ns p.entry.parent :=
      List.mem_map.mpr ⟨p, List.mem_filter.mpr ⟨hp, by simp⟩, rfl⟩
    have hmiss := List.find?_eq_none.mp hfind p.node hmem
    exact absurd ((strEq_iff _ _).mpr (h.holds p hp).name.symm) hmiss
  | some c =>
    obtain ⟨q, hq, rfl⟩ := List.mem_map.mp (List.mem_of_find?_eq_some hfind)
    obtain ⟨hqns, hparent⟩ := List.mem_filter.mp hq
    have hparent : q.entry.parent = p.entry.parent := by simpa using hparent
    have hmatch := List.find?_some hfind
    have hlast := (strEq_iff _ _).mp hmatch
    rw [(h.holds q hqns).name] at hlast
    rw [h.eq_of_path hp hqns (Entry.path_inj hparent.symm hlast)]

/-- **Induction along the paths**: from a directory to what is in it. -/
theorem induct (h : Tree v r all ns) {P : Placed → Prop}
    (top : ∀ p ∈ ns, p.entry.parent = [] → P p)
    (deeper : ∀ p ∈ ns, ∀ q ∈ ns, q.entry.type = .directory → q.entry.path = p.entry.parent →
      P q → P p) {p : Placed} (hp : p ∈ ns) : P p := by
  generalize hlen : p.entry.path.length = k
  induction k using Nat.strong_induction_on generalizing p with
  | _ k ih =>
    obtain ⟨n, hn⟩ := h.closed p hp
    rcases hn with ⟨hnil, -⟩ | ⟨q, hq, htype, hpath, -⟩
    · exact top p hp hnil
    · refine deeper p hp q hq htype hpath (ih _ ?_ hq rfl)
      rw [hpath, ← hlen, p.entry.path_eq, List.length_append, List.length_singleton]
      exact Nat.lt_succ_self _

/-- **Every entry is found at its path.** -/
theorem follow_path (h : Tree v r all ns) {p : Placed} (hp : p ∈ ns) :
    follow v (some r) p.entry.path = some (some p.node) := by
  refine h.induct (P := fun p => follow v (some r) p.entry.path = some (some p.node)) ?_ ?_ hp
  · intro p hp hnil
    rw [p.entry.path_eq, follow_concat, hnil]
    exact h.find hp (.inl ⟨hnil, rfl⟩)
  · intro p hp q hq htype hpath ih
    rw [p.entry.path_eq, follow_concat, ← hpath, ih]
    exact h.find hp (.inr ⟨q, hq, htype, hpath, rfl⟩)

theorem follow_dir (h : Tree v r all ns) {path : List CString} {n : Nat} (hn : DirAt r ns path n) :
    follow v (some r) path = some (some n) := by
  rcases hn with ⟨rfl, rfl⟩ | ⟨p, hp, -, rfl, rfl⟩
  · rfl
  · exact h.follow_path hp

/-! ### What is in the tree -/

/-- An entry is a child of its directory, -/
theorem mem_children (h : Tree v r all ns) {p : Placed} (hp : p ∈ ns) {n : Nat}
    (hn : DirAt r ns p.entry.parent n) : p.node ∈ (v.nodes n).children := by
  obtain ⟨dots, hchildren, -⟩ := (h.dirs _ _ hn).children
  rw [hchildren]
  exact List.mem_append_right _ (List.mem_map.mpr ⟨p, List.mem_filter.mpr ⟨hp, by simp⟩, rfl⟩)

/-- and no dot entry. -/
theorem not_dot (h : Tree v r all ns) {p : Placed} (hp : p ∈ ns) :
    ¬ Dot (v.nodes p.node).name := by
  rw [(h.holds p hp).name]
  exact p.entry.last_ordinary.2

theorem inTree_of_mem (h : Tree v r all ns) {p : Placed} (hp : p ∈ ns) : InTree v r p.node := by
  refine h.induct (P := fun p => InTree v r p.node) ?_ ?_ hp
  · intro p hp hnil
    have hn : DirAt r ns p.entry.parent r := .inl ⟨hnil, rfl⟩
    exact .top (h.dirs _ _ hn).type (h.mem_children hp hn) (h.not_dot hp)
  · intro p hp q hq htype hpath ih
    have hn : DirAt r ns p.entry.parent q.node := .inr ⟨q, hq, htype, hpath, rfl⟩
    exact .deeper ih (h.dirs _ _ hn).type (h.mem_children hp hn) (h.not_dot hp)

/-- A child of a directory that is no dot entry is an entry's. -/
theorem child_mem (h : Tree v r all ns) {path : List CString} {n c : Nat} (hn : DirAt r ns path n)
    (hc : c ∈ (v.nodes n).children) (hname : ¬ Dot (v.nodes c).name) :
    ∃ p ∈ ns, p.node = c := by
  obtain ⟨dots, hchildren, hdots⟩ := (h.dirs _ _ hn).children
  rw [hchildren, List.mem_append] at hc
  rcases hc with hdot | hentry
  · exact absurd (hdots c hdot).2 hname
  · obtain ⟨p, hp, rfl⟩ := List.mem_map.mp hentry
    exact ⟨p, (List.mem_filter.mp hp).1, rfl⟩

/-- **Nothing else is in the tree.** -/
theorem mem_of_inTree (h : Tree v r all ns) {n : Nat} (hn : InTree v r n) : ∃ p ∈ ns, p.node = n := by
  induction hn with
  | top _ hc hname => exact h.child_mem (.inl ⟨rfl, rfl⟩) hc hname
  | deeper _ htype hc hname ih =>
    obtain ⟨p, hp, rfl⟩ := ih
    rw [(h.holds p hp).type] at htype
    exact h.child_mem (.inr ⟨p, hp, htype, rfl, rfl⟩) hc hname

end Tree

/-! ### One more entry -/

/-- `v'` is `v` with new nodes, of which `n` is the last child of `parent`. -/
structure Links (v v' : Vfs) (parent n : Nat) : Prop where
  root : v'.root = v.root
  fresh : v.next ≤ n
  bound : n < v'.next
  pushed : v'.nodes parent =
    { v.nodes parent with children := (v.nodes parent).children ++ [n] }
  others : ∀ i < v.next, i ≠ parent → v'.nodes i = v.nodes i

/-- An old node is as before, but for its children. -/
theorem Links.keeps {v v' : Vfs} {parent n i : Nat} (h : Links v v' parent n) (hi : i < v.next) :
    ∃ cs, v'.nodes i = { v.nodes i with children := cs } := by
  by_cases heq : i = parent
  · rw [heq]
    exact ⟨_, h.pushed⟩
  · exact ⟨_, h.others i hi heq⟩

theorem DirAt.mono {r : Nat} {ns : List Placed} {path : List CString} {n : Nat}
    (h : DirAt r ns path n) (p : Placed) : DirAt r (ns ++ [p]) path n := by
  rcases h with hroot | ⟨q, hq, hrest⟩
  · exact .inl hroot
  · exact .inr ⟨q, List.mem_append_left _ hq, hrest⟩

theorem entriesIn_append (ns : List Placed) (p : Placed) (path : List CString) :
    entriesIn (ns ++ [p]) path =
      entriesIn ns path ++ if p.entry.parent = path then [p.node] else [] := by
  unfold entriesIn
  rw [List.filter_append, List.map_append]
  by_cases h : p.entry.parent = path <;> simp [h]

theorem Entry.parent_ne (e : Entry) : e.parent ≠ e.path := by
  intro h
  have hlen := congrArg List.length e.path_eq
  rw [List.length_append, List.length_singleton, h] at hlen
  omega

/-- No entry lies in one that is not placed. -/
theorem Tree.entriesIn_eq_nil {v : Vfs} {r : Nat} {all : List Entry} {ns : List Placed}
    (h : Tree v r all ns) {e : Entry}
    (hnew : e.path ∉ ns.map fun p => p.entry.path) : entriesIn ns e.path = [] := by
  unfold entriesIn
  rw [List.map_eq_nil_iff, List.filter_eq_nil_iff]
  intro p hp hparent
  have hparent : p.entry.parent = e.path := by simpa using hparent
  obtain ⟨n, hn⟩ := h.closed p hp
  rw [hparent] at hn
  rcases hn with ⟨hnil, -⟩ | ⟨q, hq, -, hpath, -⟩
  · exact e.nonempty hnil
  · exact hnew (List.mem_map.mpr ⟨q, hq, hpath⟩)

/-- **A new entry in its directory.** -/
theorem Tree.add {v v' : Vfs} {r : Nat} {all : List Entry} {ns : List Placed}
    (h : Tree v r all ns) {parent : Nat}
    {p : Placed} (hl : Links v v' parent p.node) (hdir : DirAt r ns p.entry.parent parent)
    (hall : p.entry ∈ all) (hnew : p.entry.path ∉ ns.map fun p => p.entry.path)
    (hholds : Holds v' p)
    (hnode : p.entry.type = .directory →
      (IsParent all p.entry.path → (v'.nodes p.node).pointsTo = none) ∧
        ∀ d ∈ (v'.nodes p.node).children, d < v'.next ∧ Dot (v'.nodes d).name) :
    Tree v' r all (ns ++ [p]) := by
  have hfresh := hl.fresh
  have hbound := hl.bound
  have hr := (h.dirs [] r (.inl ⟨rfl, rfl⟩)).bound
  -- in each part: an entry placed before, or the new one
  have hmem : ∀ q ∈ ns ++ [p], q ∈ ns ∨ q = p := by simp
  refine ⟨hl.root.trans h.root, ?_, ?_, ?_, ?_, ?_, ?_, ?_, ?_⟩
  · intro q hq
    rcases hmem q hq with hold | rfl
    · exact h.listed q hold
    · exact hall
  · intro q hq
    rcases hmem q hq with hold | rfl
    · obtain ⟨cs, hcs⟩ := hl.keeps (h.bound q hold)
      have hq := h.holds q hold
      exact ⟨by rw [hcs]; exact hq.name, by rw [hcs]; exact hq.type, by rw [hcs]; exact hq.file⟩
    · exact hholds
  · intro q hq
    rcases hmem q hq with hold | rfl
    · have := h.bound q hold
      omega
    · exact hbound
  · rw [List.map_append, List.map_singleton, ← List.concat_eq_append, List.nodup_concat]
    exact ⟨hnew, h.paths⟩
  · rw [List.map_append, List.map_singleton, ← List.concat_eq_append, List.nodup_concat]
    refine ⟨fun hin => ?_, h.nodes⟩
    obtain ⟨q, hq, heq⟩ := List.mem_map.mp hin
    have := h.bound q hq
    omega
  · intro q hq
    rcases hmem q hq with hold | rfl
    · exact h.root_new q hold
    · omega
  · intro q hq
    rcases hmem q hq with hold | rfl
    · obtain ⟨n, hn⟩ := h.closed q hold
      exact ⟨n, hn.mono p⟩
    · exact ⟨parent, hdir.mono q⟩
  · intro path n hn
    -- the directory is an old one, or the new entry itself
    have hcases : DirAt r ns path n ∨ p.entry.type = .directory ∧ p.entry.path = path ∧ p.node = n := by
      rcases hn with hroot | ⟨q, hq, hrest⟩
      · exact .inl (.inl hroot)
      · rcases hmem q hq with hold | rfl
        · exact .inl (.inr ⟨q, hold, hrest⟩)
        · exact .inr hrest
    rcases hcases with hold | ⟨htype, rfl, rfl⟩
    · have hh := h.dirs path n hold
      obtain ⟨dots, hchildren, hdots⟩ := hh.children
      obtain ⟨cs, hcs⟩ := hl.keeps hh.bound
      have hn := hh.bound
      refine ⟨by rw [hcs]; exact hh.type, by rw [hcs]; exact hh.plain, by omega, dots, ?_, ?_⟩
      · rw [entriesIn_append]
        -- only the directory of the new entry gets a child
        by_cases heq : n = parent
        · subst heq
          rw [if_pos (h.dir_path hdir hold), hl.pushed, ← List.append_assoc, ← hchildren]
        · have hne : p.entry.parent ≠ path := by
            rintro rfl
            exact heq (h.dir_node hold hdir)
          rw [if_neg hne, List.append_nil, hl.others n hh.bound heq, hchildren]
      · intro d hd
        obtain ⟨hlt, hdot⟩ := hdots d hd
        obtain ⟨cs', hcs'⟩ := hl.keeps hlt
        exact ⟨by omega, by rw [hcs']; exact hdot⟩
    · obtain ⟨hplain, hdots⟩ := hnode htype
      refine ⟨hholds.type.trans htype, hplain, hbound, _, ?_, hdots⟩
      rw [entriesIn_append, h.entriesIn_eq_nil hnew, if_neg p.entry.parent_ne, List.append_nil,
        List.append_nil]

/-- New blocks, and nothing else, leave the tree alone. -/
theorem Tree.frame {v v' : Vfs} {r : Nat} {all : List Entry} {ns : List Placed}
    (h : Tree v r all ns)
    (hroot : v'.root = v.root) (hnext : v.next ≤ v'.next)
    (hnodes : ∀ i < v.next, v'.nodes i = v.nodes i) : Tree v' r all ns := by
  refine ⟨hroot.trans h.root, h.listed, ?_, ?_, h.paths, h.nodes, h.root_new, h.closed, ?_⟩
  · intro p hp
    have hh := h.holds p hp
    have hsame := hnodes _ (h.bound p hp)
    exact ⟨by rw [hsame]; exact hh.name, by rw [hsame]; exact hh.type, by rw [hsame]; exact hh.file⟩
  · intro p hp
    have := h.bound p hp
    omega
  · intro path n hn
    have hh := h.dirs path n hn
    obtain ⟨dots, hchildren, hdots⟩ := hh.children
    have hsame := hnodes n hh.bound
    have hlt := hh.bound
    refine ⟨by rw [hsame]; exact hh.type, by rw [hsame]; exact hh.plain, by omega, dots,
      by rw [hsame]; exact hchildren, fun d hd => ?_⟩
    obtain ⟨hbound, hdot⟩ := hdots d hd
    exact ⟨by omega, by rw [hnodes d hbound]; exact hdot⟩

/-! ### The rounds -/

section Rounds

variable {v : Vfs} {r : Nat} {all : List Entry} {ns : List Placed} {e : Entry} {parent : Nat}

/-- The parent of an entry is found, after a node has been taken. -/
theorem Tree.getParent (h : Tree v r all ns) (hdir : DirAt r ns e.parent parent)
    (f : VfsNode → VfsNode) :
    vfsGetParent (newNode v f).2 (some r) (absPath e.path) =
      some (some parent, { (newNode v f).2 with strtok := none }) := by
  have htree : Tree (newNode v f).2 r all ns := h.frame rfl (Nat.le_succ _) fun i hi =>
    Function.update_of_ne (Nat.ne_of_lt hi) _ _
  have hfollow : follow (newNode v f).2 (some r) e.path.dropLast = some (some parent) :=
    htree.follow_dir hdir
  rw [vfsGetParent_absolute _ _ e.nonempty e.components, hfollow]
  rfl

theorem stSize_eq {size : Nat} (h : size < 2 ^ 32) : (BitVec.ofNat 64 size).toInt = size := by
  have hnat : (BitVec.ofNat 64 size).toNat = size := by
    rw [BitVec.toNat_ofNat]
    exact Nat.mod_eq_of_lt (by omega)
  rw [BitVec.toInt_eq_toNat_of_lt (by omega), hnat]

/-- **A file.** -/
theorem Tree.createFile (h : Tree v r all ns) (hdir : DirAt r ns e.parent parent)
    (htype : e.type = .file) (hsize : e.size < 2 ^ 32) (buffer header : Nat) :
    ∃ v', tmpfsCreateFile buffer v (absPath e.path) (header + 512) e.size = some v' ∧
      v'.next = v.next + 1 ∧ (∀ i, v'.next ≤ i → v'.nodes i = v.nodes i) ∧
      Links v v' parent v.next ∧ Holds v' ⟨e, header, v.next⟩ := by
  have hlt : parent < v.next := (h.dirs _ _ hdir).bound
  have hne : v.next ≠ parent := Nat.ne_of_gt hlt
  have hroot : (newNode v (namedFile (basename (absPath e.path)))).2.root = some r := h.root
  have hbase : basename (absPath e.path) = e.last := basename_absPath e.nonempty e.components
  unfold tmpfsCreateFile
  dsimp only
  rw [hroot, h.getParent hdir, hbase]
  refine ⟨_, rfl, rfl, ?_, ⟨rfl, Nat.le_refl _, Nat.lt_succ_self _, ?_, ?_⟩, ?_⟩
  · intro i hi
    have hi : v.next + 1 ≤ i := hi
    have h1 : i ≠ parent := by omega
    have h2 : i ≠ v.next := by omega
    simp [pushChild, setNode, newNode, Function.update_of_ne h1, Function.update_of_ne h2]
  · simp [pushChild, setNode, newNode, Function.update_of_ne hne.symm]
  · intro i hi hip
    have h2 : i ≠ v.next := Nat.ne_of_lt hi
    simp [pushChild, setNode, newNode, Function.update_of_ne hip, Function.update_of_ne h2]
  · refine ⟨?_, ?_, fun _ => ⟨?_, ?_⟩⟩ <;>
      simp [pushChild, setNode, newNode, tmpfsFile, namedFile, Function.update_of_ne hne, htype,
        stSize_eq hsize]

/-- **A directory.**  Its block, and those of its dot entries, are the next three. -/
theorem Tree.createDir (h : Tree v r all ns) (hdir : DirAt r ns e.parent parent)
    (htype : e.type = .directory) (header : Nat) :
    ∃ v', (vfsMkdir v (absPath e.path)).map Prod.snd = some v' ∧
      v'.next = v.next + 3 ∧ (∀ i, v'.next ≤ i → v'.nodes i = v.nodes i) ∧
      Links v v' parent v.next ∧ Holds v' ⟨e, header, v.next⟩ ∧
      (v'.nodes v.next).pointsTo = (v.nodes v.next).pointsTo ∧
      ∀ d ∈ (v'.nodes v.next).children, d < v'.next ∧ Dot (v'.nodes d).name := by
  have hlt : parent < v.next := (h.dirs _ _ hdir).bound
  have hne : v.next ≠ parent := Nat.ne_of_gt hlt
  have hroot : (newNode v emptyDir).2.root = some r := h.root
  have hbase : basename (absPath e.path) = e.last := basename_absPath e.nonempty e.components
  -- the path is not that of the root
  have hslash : ¬ strEq (absPath e.path) ['/'] = true := by
    intro heq
    have hsegs := absPath_segments e.nonempty e.components
    rw [(strEq_iff _ _).mp heq] at hsegs
    have htail : e.path = [[]] := (List.cons.inj hsegs).2.symm
    exact (e.components [] (by rw [htail]; exact List.mem_singleton_self _)).1 rfl
  unfold vfsMkdir
  dsimp only
  rw [if_neg hslash, hroot, h.getParent hdir, hbase]
  dsimp only
  rw [show (newNode v emptyDir).1 = v.next from rfl]
  have hroot₃ : (setNode { (newNode v emptyDir).2 with strtok := none } v.next
    (namedDir (some parent) e.last)).root = some r := h.root
  rw [hroot₃]
  dsimp only [Option.map_some]
  -- the state before the dot entries are made
  generalize hv₄ : setNode (setNode { (newNode v emptyDir).2 with strtok := none } v.next
    (namedDir (some parent) e.last)) v.next _ = v₄
  have hnext : v₄.next = v.next + 1 := by
    rw [← hv₄]
    rfl
  have hroot₄ : v₄.root = v.root := by
    rw [← hv₄]
    rfl
  have hnew : (v₄.nodes v.next).name = e.last ∧ (v₄.nodes v.next).type = .directory ∧
      (v₄.nodes v.next).pointsTo = (v.nodes v.next).pointsTo ∧ (v₄.nodes v.next).children = [] := by
    rw [← hv₄]
    simp [setNode, newNode, namedDir, emptyDir]
  have hold : ∀ i, i ≠ v.next → v₄.nodes i = v.nodes i := by
    intro i hi
    rw [← hv₄]
    simp [setNode, newNode, Function.update_of_ne hi]
  obtain ⟨hname, hdirtype, hpoints, hchildren⟩ := hnew
  have hlt₄ : v.next < v₄.next := by omega
  obtain ⟨hn, hr, hnode, hparent, hdotdot, hdot, hothers⟩ := linkDir_nodes hlt₄ (by omega) hne
  generalize linkDir v₄ v.next parent = v' at *
  refine ⟨v', rfl, by omega, ?_, ⟨hr.trans hroot₄, Nat.le_refl _, by omega, ?_, ?_⟩,
    ⟨?_, ?_, ?_⟩, ?_, ?_⟩
  · intro i hi
    rw [hothers i (by omega) (by omega) (by omega), hold i (by omega)]
  · rw [hparent, hold parent hne.symm]
  · intro i hi hip
    rw [hothers i (by omega) hip (by omega), hold i (by omega)]
  · rw [hnode]
    exact hname
  · rw [hnode]
    exact hdirtype.trans htype.symm
  · intro hfile
    rw [htype] at hfile
    cases hfile
  · rw [hnode]
    exact hpoints
  · intro d hd
    rw [hnode, hchildren] at hd
    have hd : d = v₄.next ∨ d = v₄.next + 1 := by simpa using hd
    refine ⟨by omega, ?_⟩
    rcases hd with rfl | rfl
    · rw [hdotdot]
      exact .inr rfl
    · rw [hdot]
      exact .inl rfl

end Rounds

/-- The node blocks that an entry takes. -/
def Entry.nodeBlocks (e : Entry) : Nat :=
  match e.type with
  | .file => 1
  | .directory => 3

/-- The blocks that become directories with something in them, from block `k` on, hold
no `points_to`. -/
def CleanDirs (nodes : Nat → VfsNode) (all : List Entry) : Nat → List Entry → Prop
  | _, [] => True
  | k, e :: es =>
    (e.type = .directory → IsParent all e.path → (nodes k).pointsTo = none) ∧
      CleanDirs nodes all (k + e.nodeBlocks) es

theorem CleanDirs.congr {nodes nodes' : Nat → VfsNode} {all : List Entry} {k : Nat}
    {es : List Entry} (h : CleanDirs nodes all k es) (heq : ∀ i, k ≤ i → nodes' i = nodes i) :
    CleanDirs nodes' all k es := by
  induction es generalizing k with
  | nil => trivial
  | cons e es ih =>
    refine ⟨fun hd => ?_, ih h.2 fun i hi => heq i (by omega)⟩
    rw [heq k (Nat.le_refl k)]
    exact h.1 hd

/-! ### The loop -/

section Loop

variable {heap : UstarHeap} {m : Mem} {a : Nat} {e : Entry}

theorem HeaderAt.getsize_eq (h : HeaderAt m a e) (hsize : e.size < 2 ^ 32) :
    headerGetsize m a = e.size := by
  unfold headerGetsize
  rw [BestOS.getsize_eq h.digits, h.size, Nat.mod_eq_of_lt hsize]

/-- The name is not empty, so the loop does not end here. -/
theorem HeaderAt.start_ne (h : HeaderAt m a e) : m a ≠ 0 := by
  intro hzero
  have hread : headerName m a = [] := by
    unfold headerName
    cases maxString with
    | zero => rfl
    | succ n => exact if_pos hzero
  -- an empty name would be that of an entry without a path
  have hrel : relPath e.path = [] := by
    have hname := h.name.symm.trans hread
    unfold Entry.name at hname
    split at hname
    · exact hname
    · exact absurd hname (by simp)
  have hsegs := relPath_segments e.nonempty e.components
  rw [hrel] at hsegs
  have hnil : ([] : CString) ∈ e.path := by
    rw [← hsegs]
    exact List.mem_singleton_self _
  exact (e.components [] hnil).1 rfl

/-- The walk follows the layout of the archive. -/
theorem nextAddress_eq (h : a + 512 * e.blocks < 2 ^ 64) :
    nextAddress a e.size = a + 512 * e.blocks := nextAddress_blocks h

/-- **One round.** -/
theorem Tree.round {v : Vfs} {r : Nat} {ns : List Placed} {parent i : Nat} (h : Tree v r all ns)
    (hdir : DirAt r ns e.parent parent) (hall : e ∈ all)
    (hnew : e.path ∉ ns.map fun p => p.entry.path) (hh : HeaderAt m a e)
    (hend : a + 512 * e.blocks < 2 ^ 64) (htail : heap.tail i = []) (hsize : e.size < 2 ^ 32)
    (hclean : e.type = .directory → IsParent all e.path → (v.nodes v.next).pointsTo = none) :
    ∃ v', createEntry heap m i a v = some v' ∧ v'.next = v.next + e.nodeBlocks ∧
      (∀ i, v'.next ≤ i → v'.nodes i = v.nodes i) ∧ Tree v' r all (ns ++ [⟨e, a, v.next⟩]) := by
  have hpath : ∀ name, newName heap i name = '/' :: name := by
    intro name
    unfold newName
    rw [htail]
    exact List.append_nil _
  unfold createEntry
  rw [hh.type, hh.name, hh.getsize_eq hsize, hpath, hpath]
  cases htype : e.type with
  | file =>
    have haddress : (a + 512) % 2 ^ 64 = a + 512 := by
      unfold Entry.blocks at hend
      exact Nat.mod_eq_of_lt (by omega)
    -- the name of a file is its path
    have hname : '/' :: e.name = absPath e.path := by
      unfold Entry.name
      rw [htype]
      rfl
    rw [if_neg (by decide), haddress, hname]
    obtain ⟨v', hrun, hnext, hfree, hlinks, hholds⟩ := h.createFile hdir htype hsize _ a
    refine ⟨v', hrun, ?_, hfree, h.add (p := ⟨e, a, v.next⟩) hlinks hdir hall hnew hholds ?_⟩
    · unfold Entry.nodeBlocks
      rw [htype]
      exact hnext
    · intro hd
      exact absurd (htype.symm.trans hd) (by decide)
  | directory =>
    -- that of a directory ends in a slash, which is cut off
    have hname : '/' :: e.name.dropLast = absPath e.path := by
      unfold Entry.name
      rw [htype]
      show '/' :: (relPath e.path ++ ['/']).dropLast = _
      rw [List.dropLast_concat]
      rfl
    rw [if_pos (by decide), hname]
    obtain ⟨v', hrun, hnext, hfree, hlinks, hholds, hpoints, hdots⟩ := h.createDir hdir htype a
    refine ⟨v', hrun, ?_, hfree, h.add (p := ⟨e, a, v.next⟩) hlinks hdir hall hnew hholds fun _ =>
      ⟨fun hp => hpoints.trans (hclean htype hp), hdots⟩⟩
    unfold Entry.nodeBlocks
    rw [htype]
    exact hnext

/-- **The whole loop.**  `ns` are the entries placed so far. -/
theorem Tree.loop {es : List (Entry × Nat)} (harch : Archive m a es) {v : Vfs} {r i : Nat}
    {all : List Entry} {ns : List Placed} (h : Tree v r all ns)
    (hall : ns.map Placed.entry ++ es.map Prod.fst = all) (hfirst : ParentsFirst all)
    (hpaths : (all.map Entry.path).Nodup)
    (htail : ∀ k < es.length, heap.tail (i + k) = [])
    (hsize : ∀ e ∈ es.map Prod.fst, e.size < 2 ^ 32)
    (hclean : CleanDirs v.nodes all v.next (es.map Prod.fst)) :
    ∃ v' placed, createLoop heap m (es.length + 1) i a v = some v' ∧ Tree v' r all (ns ++ placed) ∧
      placed.map (fun p => (p.entry, p.header)) = es := by
  induction harch generalizing v i ns with
  | stop hzero =>
    refine ⟨v, [], ?_, ?_, rfl⟩
    · unfold createLoop
      rw [if_pos hzero]
    · rw [List.append_nil]
      exact h
  | @entry a e es hh hend harch ih =>
    -- its directory comes before it in the archive, so it is placed
    obtain ⟨parent, hdir⟩ : ∃ parent, DirAt r ns e.parent parent := by
      rcases hfirst _ e (es.map Prod.fst) hall.symm with hnil | ⟨d, hd, htype, hpath⟩
      · exact ⟨r, .inl ⟨hnil, rfl⟩⟩
      · obtain ⟨p, hp, rfl⟩ := List.mem_map.mp hd
        exact ⟨p.node, .inr ⟨p, hp, htype, hpath, rfl⟩⟩
    -- and its path is none of those before
    have hnew : e.path ∉ ns.map fun p => p.entry.path := by
      intro hin
      rw [← hall, List.map_append, List.map_map] at hpaths
      exact (List.nodup_append.mp hpaths).2.2 _ hin _ List.mem_cons_self rfl
    have he : e.size < 2 ^ 32 := hsize e List.mem_cons_self
    have hmem : e ∈ all := by
      rw [← hall]
      exact List.mem_append_right _ List.mem_cons_self
    obtain ⟨v₁, hrun, hnext, hfree, htree⟩ :=
      h.round (i := i) hdir hmem hnew hh hend (htail 0 (Nat.succ_pos _)) he hclean.1
    have hall' : (ns ++ [(⟨e, a, v.next⟩ : Placed)]).map Placed.entry ++ es.map Prod.fst = all := by
      rw [← hall, List.map_append, List.append_assoc]
      rfl
    obtain ⟨v', placed, hloop, htree', hplaced⟩ := ih htree (i := i + 1) hall'
      (fun k hk => by rw [Nat.add_assoc, Nat.add_comm 1 k]; exact htail (k + 1) (by simpa using hk))
      (fun d hd => hsize d (List.mem_cons_of_mem _ hd))
      (by rw [hnext]; exact hclean.2.congr fun j hj => hfree j (Nat.le_trans (Nat.le_of_eq hnext) hj))
    refine ⟨v', ⟨e, a, v.next⟩ :: placed, ?_, ?_, ?_⟩
    · rw [List.length_cons, createLoop, if_neg hh.start_ne, hrun, Option.bind_some,
        hh.getsize_eq he, nextAddress_eq hend]
      exact hloop
    · rw [List.append_assoc] at htree'
      exact htree'
    · rw [List.map_cons, hplaced]

end Loop

/-! ### The result -/

/-- The tree below `r` holds these entries and nothing else: each in one node, which
is found at the path of the entry. -/
structure TreeIs (v : Vfs) (r : Nat) (ns : List Placed) : Prop where
  found : ∀ p ∈ ns, InTree v r p.node ∧ vfsLookup v (absPath p.entry.path) = some (some p.node)
  holds : ∀ p ∈ ns, Holds v p
  distinct : (ns.map Placed.node).Nodup
  only : ∀ n, InTree v r n → ∃ p ∈ ns, p.node = n

theorem Tree.treeIs {v : Vfs} {r : Nat} {all : List Entry} {ns : List Placed}
    (h : Tree v r all ns) : TreeIs v r ns where
  found := by
    intro p hp
    refine ⟨h.inTree_of_mem hp, (vfsLookup_absPath p.entry.nonempty p.entry.components).mpr ?_⟩
    rw [h.root]
    exact h.follow_path hp
  holds := h.holds
  distinct := h.nodes
  only := fun _ hn => h.mem_of_inTree hn

/-- `create_tmpfs_files` returns, and the tree below the root is the archive's. -/
def ArchiveToTree (heap : UstarHeap) (m : Mem) (a : Nat) (v : Vfs) (es : List (Entry × Nat)) :
    Prop :=
  ∃ rounds v' r ns, (∀ fuel, rounds ≤ fuel → createTmpfsFiles heap m fuel a v = some v') ∧
    v'.root = some r ∧ ns.map (fun p : Placed => (p.entry, p.header)) = es ∧ TreeIs v' r ns

/-- The blocks that are not filled in completely were clean where it matters: behind
the name of a path there is a NUL, and the blocks that become the root and the
directories hold no `points_to`, if there is anything in them. -/
structure CleanBlocks (heap : UstarHeap) (v : Vfs) (es : List (Entry × Nat)) : Prop where
  tail : ∀ i < es.length, heap.tail i = []
  root : IsParent (es.map Prod.fst) [] → (v.nodes v.next).pointsTo = none
  dirs : CleanDirs v.nodes (es.map Prod.fst) (v.next + 1) (es.map Prod.fst)

/-- The first mount makes an empty directory. -/
theorem vfsMount_tree {v₀ v : Vfs} (hroot : v₀.root = none) {fs : Filesystem}
    (hmount : vfsMount v₀ ['/'] fs = some v) {all : List Entry}
    (hclean : IsParent all [] → (v₀.nodes v₀.next).pointsTo = none) :
    v.next = v₀.next + 1 ∧ (∀ i, v.next ≤ i → v.nodes i = v₀.nodes i) ∧ Tree v v₀.next all [] := by
  have hslash : strEq ['/'] ['/'] = true := rfl
  unfold vfsMount vfsMkdir at hmount
  dsimp only at hmount
  rw [if_pos hslash] at hmount
  dsimp only at hmount
  rw [hroot] at hmount
  -- `vfs_mkdir` of the root fills in the block and gives it a mount
  have hnode : (setNode (mallocMount (newNode v₀ emptyDir).2).2 (newNode v₀ emptyDir).1
      (rootDir (newNode v₀ emptyDir).1 (mallocMount (newNode v₀ emptyDir).2).1)).nodes v₀.next =
      rootDir v₀.next v₀.nextMount (emptyDir (v₀.nodes v₀.next)) := by
    simp [setNode, newNode, mallocMount]
  have hold : ∀ i, i ≠ v₀.next → (setNode (mallocMount (newNode v₀ emptyDir).2).2
      (newNode v₀ emptyDir).1 (rootDir (newNode v₀ emptyDir).1
        (mallocMount (newNode v₀ emptyDir).2).1)).nodes i = v₀.nodes i := by
    intro i hi
    simp [setNode, newNode, mallocMount, Function.update_of_ne hi]
  have hnext : (setNode (mallocMount (newNode v₀ emptyDir).2).2 (newNode v₀ emptyDir).1
      (rootDir (newNode v₀ emptyDir).1 (mallocMount (newNode v₀ emptyDir).2).1)).next
      = v₀.next + 1 := rfl
  rw [show (newNode v₀ emptyDir).1 = v₀.next from rfl] at *
  generalize setNode (mallocMount (newNode v₀ emptyDir).2).2 v₀.next
    (rootDir v₀.next (mallocMount (newNode v₀ emptyDir).2).1) = v₁ at *
  have hpoint : (v₁.nodes v₀.next).mountpoint = some v₀.nextMount := by
    rw [hnode]
    rfl
  rw [hpoint] at hmount
  obtain rfl := pushMountpoint_eq hmount
  refine ⟨hnext, fun i hi => hold i ?_, Tree.empty rfl ⟨?_, ?_, ?_, [], ?_, ?_⟩⟩
  · have hi : v₁.next ≤ i := hi
    omega
  · show (v₁.nodes v₀.next).type = .directory
    rw [hnode]
    rfl
  · intro hparent
    show (v₁.nodes v₀.next).pointsTo = none
    rw [hnode]
    exact hclean hparent
  · show v₀.next < v₁.next
    omega
  · show (v₁.nodes v₀.next).children = []
    rw [hnode]
    rfl
  · intro d hd
    cases hd

/-- **From the archive to the tree.**  For every archive of ordinary entries with
distinct paths and directories first, whose sizes have 32 bits, the tree below a
fresh root is that of the archive, if the blocks of `malloc` were clean. -/
theorem archive_to_tree {v₀ v : Vfs} (hroot : v₀.root = none)
    (hmount : vfsMount v₀ ['/'] .tmpfs = some v) {m : Mem} {a : Nat} {es : List (Entry × Nat)}
    (harch : Archive m a es) (hpaths : ((es.map Prod.fst).map Entry.path).Nodup)
    (hfirst : ParentsFirst (es.map Prod.fst)) {heap : UstarHeap}
    (hclean : CleanBlocks heap v₀ es) (hsize : ∀ e ∈ es.map Prod.fst, e.size < 2 ^ 32) :
    ArchiveToTree heap m a v es := by
  obtain ⟨hnext, hfree, htree⟩ := vfsMount_tree hroot hmount hclean.root
  have hdirs : CleanDirs v.nodes (es.map Prod.fst) v.next (es.map Prod.fst) := by
    rw [hnext]
    exact hclean.dirs.congr fun i hi => hfree i (by omega)
  have htails : ∀ k < es.length, heap.tail (0 + k) = [] := by
    intro k hk
    rw [Nat.zero_add]
    exact hclean.tail k hk
  obtain ⟨v', ns, hrun, htree', hns⟩ := htree.loop harch rfl hfirst hpaths htails hsize hdirs
  rw [List.nil_append] at htree'
  refine ⟨es.length + 1, v', v₀.next, ns, fun fuel hfuel => ?_, htree'.root, hns, htree'.treeIs⟩
  obtain ⟨more, rfl⟩ := Nat.exists_eq_add_of_le hfuel
  exact createLoop_fuel hrun more

/-! ### Two entries -/

/-- A longer limit reads the same string. -/
theorem cString_more {m : Mem} {a n k : Nat} {s : CString} (h : cString m a n = s)
    (hlen : s.length < n) (hk : n ≤ k) : cString m a k = s := by
  induction n generalizing a k s with
  | zero => exact absurd hlen (Nat.not_lt_zero _)
  | succ n ih =>
    obtain ⟨k, rfl⟩ : ∃ k', k = k' + 1 := ⟨k - 1, by omega⟩
    rw [cString] at h ⊢
    by_cases hend : m a = 0
    · rw [if_pos hend] at h ⊢
      exact h
    · rw [if_neg hend] at h ⊢
      subst h
      rw [ih rfl (by simpa using hlen) (by omega)]

theorem headerName_of_read {m : Mem} {a : Nat} {s : CString} (h : cString m a 100 = s)
    (hlen : s.length < 100) : headerName m a = s := by
  refine cString_more h hlen ?_
  unfold maxString
  decide

/-- The characters of a string, put at an address. -/
def putString (m : Mem) (a : Nat) : CString → Mem
  | [] => m
  | c :: s => putString (put m a (BitVec.ofNat 8 c.toNat)) (a + 1) s

/-- A header, put at an address. -/
def putHeader (m : Mem) (a : Nat) (name size : CString) (type : Char) : Mem :=
  putString (putString (putString m a name) (a + 124) size) (a + 156) [type]

/-- A directory `d/` at 0x1000 and a file `d/a` of three bytes at 0x1200. -/
def tinyTar : Mem :=
  putHeader (putHeader (fun _ => 0) 0x1000 ['d', '/'] (List.replicate 11 '0') '5') 0x1200
    ['d', '/', 'a'] (List.replicate 10 '0' ++ ['3']) '0'

def tinyDir : Entry := ⟨[['d']], .directory, 0, by decide, by decide⟩

def tinyFile : Entry := ⟨[['d'], ['a']], .file, 3, by decide, by decide⟩

def tinyEntries : List (Entry × Nat) := [(tinyDir, 0x1000), (tinyFile, 0x1200)]

theorem tinyTar_archive : Archive tinyTar 0x1000 tinyEntries := by
  have hdir : HeaderAt tinyTar 0x1000 tinyDir :=
    ⟨headerName_of_read (by decide +kernel) (by decide), by decide, by decide +kernel,
      by decide +kernel, by decide +kernel⟩
  have hfile : HeaderAt tinyTar 0x1200 tinyFile :=
    ⟨headerName_of_read (by decide +kernel) (by decide), by decide, by decide +kernel,
      by decide +kernel, by decide +kernel⟩
  refine .entry hdir (by decide) ?_
  show Archive tinyTar 0x1200 [(tinyFile, 0x1200)]
  refine .entry hfile (by decide) (.stop ?_)
  decide +kernel

theorem tinyEntries_first : ParentsFirst (tinyEntries.map Prod.fst) := by
  intro done e rest h
  cases done with
  | nil =>
    obtain ⟨rfl, -⟩ := List.cons.inj h
    exact .inl rfl
  | cons d done =>
    obtain ⟨rfl, hrest⟩ := List.cons.inj h
    cases done with
    | nil =>
      obtain ⟨rfl, -⟩ := List.cons.inj hrest
      exact .inr ⟨tinyDir, List.mem_cons_self, rfl, rfl⟩
    | cons d done =>
      have hlen := congrArg List.length hrest
      simp at hlen

/-- The root, right after `vfs_mount("/", tmpfs())` on zero-filled blocks. -/
def tinyRoot : Vfs := (vfsMount noVfs ['/'] .tmpfs).getD noVfs

theorem tinyRoot_eq : vfsMount noVfs ['/'] .tmpfs = some tinyRoot := rfl

/-- On zero-filled blocks, `/d` and `/d/a` are there. -/
theorem archive_to_tree_tiny :
    ArchiveToTree ⟨fun _ => [], fun _ => 0⟩ tinyTar 0x1000 tinyRoot tinyEntries := by
  refine archive_to_tree rfl tinyRoot_eq tinyTar_archive (by decide) tinyEntries_first
    ⟨fun _ _ => rfl, fun _ => rfl, fun _ _ => rfl, fun h => ?_, trivial⟩ (by decide)
  cases h

/-- A block whose last byte held an `x`, and the byte behind it a NUL, for the path
of the second entry. -/
def dirtyHeap : UstarHeap := ⟨fun i => if i = 1 then ['x'] else [], fun _ => 0⟩

/-- **A path in a block that was used before.**  The file is created as `/d/ax`, and
`/d/a` is not found. -/
theorem archive_misses_file :
    ¬ ∀ (v₀ v : Vfs) (m : Mem) (a : Nat) (es : List (Entry × Nat)) (heap : UstarHeap),
      v₀.root = none → vfsMount v₀ ['/'] .tmpfs = some v → Archive m a es →
      ((es.map Prod.fst).map Entry.path).Nodup → ParentsFirst (es.map Prod.fst) →
      ArchiveToTree heap m a v es := by
  intro hclaim
  obtain ⟨rounds, v', r, ns, hrun, -, hns, htree⟩ := hclaim noVfs tinyRoot tinyTar 0x1000
    tinyEntries dirtyHeap rfl tinyRoot_eq tinyTar_archive (by decide) tinyEntries_first
  have hlookup : (createLoop dirtyHeap tinyTar 3 0 0x1000 tinyRoot).map
      (fun v => vfsLookup v (absPath tinyFile.path)) = some (some none) := by decide +kernel
  obtain ⟨v₁, hv₁, hmiss⟩ := Option.map_eq_some_iff.mp hlookup
  have hsame : v' = v₁ := by
    have hfuel := createLoop_fuel hv₁ rounds
    have hend := hrun (3 + rounds) (by omega)
    exact Option.some.inj (hend.symm.trans hfuel)
  have hmem : (tinyFile, 0x1200) ∈ ns.map fun p : Placed => (p.entry, p.header) := by
    rw [hns]
    exact List.mem_cons_of_mem _ List.mem_cons_self
  obtain ⟨p, hp, heq⟩ := List.mem_map.mp hmem
  have hfound := (htree.found p hp).2
  rw [(Prod.mk.inj heq).1, hsame, hmiss] at hfound
  cases hfound

end BestOS
