/-
BestOS/KnownFields.lean

Fields that were assigned, and fields that were not.

`malloc` does not clear the block of a node, and `vfs_mkdir` and `vfs_open` assign
some of its fields only.  `Known` says which fields hold a value that somebody has
assigned; two trees are compared on these alone (`SameVfs`).

For each function of `vfs.c` there is a condition, that every field it reads is
known, and a statement, that it does the same to both trees: it fails on both, or
returns the same and leaves trees that agree on what is known then.  The two
outcomes are related by `Option.Rel`.
-/
import BestOS.SequentialRead
import BestOS.FileEffects

namespace BestOS

open ByteMemory

/-! ### What is known -/

/-- The fields of a `VfsNode`. -/
inductive NodeField
  | type
  | name
  | parent
  | pointsTo
  | children
  | mountpoint
  | stSize
  | cursor
  | oMode
  | address
  | internalAddress
  | init
  deriving DecidableEq

/-- Two nodes hold the same there. -/
@[simp] def SameField (a b : VfsNode) : NodeField → Prop
  | .type => a.type = b.type
  | .name => a.name = b.name
  | .parent => a.parent = b.parent
  | .pointsTo => a.pointsTo = b.pointsTo
  | .children => a.children = b.children
  | .mountpoint => a.mountpoint = b.mountpoint
  | .stSize => a.stSize = b.stSize
  | .cursor => a.cursor = b.cursor
  | .oMode => a.oMode = b.oMode
  | .address => a.address = b.address
  | .internalAddress => a.internalAddress = b.internalAddress
  | .init => a.init = b.init

/-- Fields of nodes, the filesystems of mount points, and bytes of memory. -/
structure Known where
  field : Nat → NodeField → Prop
  mount : Nat → Prop
  byte : Nat → Prop

/-- More is known in `K'`. -/
structure Known.Le (K K' : Known) : Prop where
  field : ∀ n f, K.field n f → K'.field n f
  mount : ∀ m, K.mount m → K'.mount m
  byte : ∀ a, K.byte a → K'.byte a

/-- The fields `fs` of node `n` have been assigned. -/
def Known.assign (K : Known) (n : Nat) (fs : List NodeField) : Known :=
  { K with field := fun m f => K.field m f ∨ m = n ∧ f ∈ fs }

/-- Two trees that agree on what is known. -/
structure SameVfs (K : Known) (v v' : Vfs) : Prop where
  next : v.next = v'.next
  nextMount : v.nextMount = v'.nextMount
  root : v.root = v'.root
  errno : v.errno = v'.errno
  strtok : v.strtok = v'.strtok
  field : ∀ n f, K.field n f → SameField (v.nodes n) (v'.nodes n) f
  mount : ∀ m, K.mount m → (v.mounts m).fs = (v'.mounts m).fs

theorem Known.Le.refl (K : Known) : K.Le K := ⟨fun _ _ h => h, fun _ h => h, fun _ h => h⟩

theorem Known.Le.trans {K₁ K₂ K₃ : Known} (h : K₁.Le K₂) (h' : K₂.Le K₃) : K₁.Le K₃ :=
  ⟨fun n f hf => h'.field n f (h.field n f hf), fun m hm => h'.mount m (h.mount m hm),
    fun a ha => h'.byte a (h.byte a ha)⟩

theorem Known.le_assign (K : Known) (n : Nat) (fs : List NodeField) : K.Le (K.assign n fs) :=
  ⟨fun _ _ h => .inl h, fun _ h => h, fun _ h => h⟩

theorem SameVfs.mono {K K' : Known} {v v' : Vfs} (h : SameVfs K' v v') (hle : K.Le K') :
    SameVfs K v v' where
  next := h.next
  nextMount := h.nextMount
  root := h.root
  errno := h.errno
  strtok := h.strtok
  field := fun n f hf => h.field n f (hle.field n f hf)
  mount := fun m hm => h.mount m (hle.mount m hm)

/-! ### Assignments -/

/-- `g` assigns the fields `fs`, and changes the others, if at all, by their own
value. -/
def Assigns (g : VfsNode → VfsNode) (fs : List NodeField) : Prop :=
  ∀ a b f, (f ∉ fs → SameField a b f) → SameField (g a) (g b) f

section

variable {K : Known} {v v' : Vfs} (h : SameVfs K v v')

include h

theorem SameVfs.setNode {K' : Known} (n : Nat) {g g' : VfsNode → VfsNode}
    (hmount : ∀ m, K'.mount m → K.mount m) (hother : ∀ m f, m ≠ n → K'.field m f → K.field m f)
    (hself : ∀ f, K'.field n f → SameField (g (v.nodes n)) (g' (v'.nodes n)) f) :
    SameVfs K' (setNode v n g) (setNode v' n g') where
  next := h.next
  nextMount := h.nextMount
  root := h.root
  errno := h.errno
  strtok := h.strtok
  field := by
    intro m f hf
    by_cases hm : m = n
    · subst hm
      simpa only [BestOS.setNode, Function.update_self] using hself f hf
    · simpa only [BestOS.setNode, Function.update_of_ne hm] using h.field m f (hother m f hm hf)
  mount := fun m hm => h.mount m (hmount m hm)

/-- What is assigned is known afterwards. -/
theorem SameVfs.assign (n : Nat) {g : VfsNode → VfsNode} {fs : List NodeField}
    (hg : Assigns g fs) : SameVfs (K.assign n fs) (BestOS.setNode v n g) (BestOS.setNode v' n g) := by
  refine h.setNode n (fun m hm => hm) (fun m f hm hf => ?_) fun f hf => ?_
  · exact hf.resolve_right fun heq => hm heq.1
  · exact hg _ _ f fun hnot => h.field n f (hf.resolve_right fun heq => hnot heq.2)

/-- An update that reads the field it changes. -/
theorem SameVfs.update (n : Nat) {g : VfsNode → VfsNode} (hg : Assigns g []) :
    SameVfs K (BestOS.setNode v n g) (BestOS.setNode v' n g) :=
  (h.assign n hg).mono (K.le_assign n [])

theorem SameVfs.newNode {g : VfsNode → VfsNode} {fs : List NodeField} (hg : Assigns g fs) :
    (newNode v g).1 = (newNode v' g).1 ∧
      SameVfs (K.assign v.next fs) (newNode v g).2 (newNode v' g).2 := by
  have hbump : SameVfs K { v with next := v.next + 1 } { v' with next := v'.next + 1 } :=
    ⟨by rw [h.next], h.nextMount, h.root, h.errno, h.strtok, h.field, h.mount⟩
  refine ⟨h.next, ?_⟩
  have hassign := hbump.assign v.next hg
  unfold BestOS.newNode
  rw [← h.next] at hassign ⊢
  exact hassign

theorem SameVfs.mallocMount :
    (mallocMount v).1 = (mallocMount v').1 ∧ SameVfs K (mallocMount v).2 (mallocMount v').2 :=
  ⟨h.nextMount, h.next, congrArg (· + 1) h.nextMount, h.root, h.errno, h.strtok, h.field, h.mount⟩

theorem SameVfs.setErrno (e : Nat) : SameVfs K { v with errno := e } { v' with errno := e } :=
  ⟨h.next, h.nextMount, h.root, rfl, h.strtok, h.field, h.mount⟩

theorem SameVfs.setStrtok (t : Option CString) :
    SameVfs K { v with strtok := t } { v' with strtok := t } :=
  ⟨h.next, h.nextMount, h.root, h.errno, rfl, h.field, h.mount⟩

end

theorem assigns_emptyDir : Assigns emptyDir [.type, .children] := by
  intro a b f hf
  cases f <;> simp_all [emptyDir]

theorem assigns_dotEntry (name : CString) (target : Nat) :
    Assigns (dotEntry name target) [.type, .name, .pointsTo] := by
  intro a b f hf
  cases f <;> simp_all [dotEntry]

theorem assigns_rootDir (node m : Nat) :
    Assigns (rootDir node m) [.parent, .mountpoint, .name] := by
  intro a b f hf
  cases f <;> simp_all [rootDir]

theorem assigns_namedDir (parent : Option Nat) (name : CString) :
    Assigns (namedDir parent name) [.parent, .name] := by
  intro a b f hf
  cases f <;> simp_all [namedDir]

theorem assigns_mountpoint (m : Option Nat) :
    Assigns (fun n => { n with mountpoint := m }) [.mountpoint] := by
  intro a b f hf
  cases f <;> simp_all

theorem assigns_oMode (flags : Nat) : Assigns (fun n => { n with oMode := flags }) [.oMode] := by
  intro a b f hf
  cases f <;> simp_all

theorem assigns_newFile (name : CString) (parent flags : Nat) (m : Option Nat) (buf : Nat) :
    Assigns (newFile name parent flags m buf)
      [.name, .type, .parent, .oMode, .mountpoint, .address] := by
  intro a b f hf
  cases f <;> simp_all [newFile]

theorem assigns_pushChild (child : Nat) :
    Assigns (fun n => { n with children := n.children ++ [child] }) [] := by
  intro a b f hf
  cases f <;> simp_all

/-! ### Looking up -/

/-- The children of `dir` and their names. -/
def Known.Listed (K : Known) (v : Vfs) (dir : Nat) : Prop :=
  K.field dir .children ∧ ∀ c ∈ (v.nodes dir).children, K.field c .name

/-- What `vfs_find_node` reads: where the node points to and the children there, and
its own children if the name is not among those. -/
structure LookupKnown (K : Known) (v : Vfs) (start : Nat) (name : CString) : Prop where
  pointsTo : K.field start .pointsTo
  target : ∀ t, (v.nodes start).pointsTo = some t → K.Listed v t
  own : (∀ t, (v.nodes start).pointsTo = some t → findChild v t name = none) → K.Listed v start

/-- The calls of `vfs_find_node` in the loop of `vfs_get_parent`. -/
def getParentCalls (v : Vfs) (start : Option Nat) (n : Nat) (node : Option Nat) :
    List CString → List (Option Nat × CString)
  | segment :: next :: rest =>
    if strlen segment ≠ 0 then
      if rest = [] then []
      else
        (node, next) ::
          match vfsFindNode v node next with
          | none => []
          | some node => getParentCalls v start n node (next :: rest)
    else if n = 2 then []
    else
      (start, next) ::
        match vfsFindNode v start next with
        | none => []
        | some node => getParentCalls v start n node (next :: rest)
  | _ => []

/-- Every call of `vfs_find_node` that `vfs_get_parent` makes reads known fields. -/
def PathKnown (K : Known) (v : Vfs) (start : Option Nat) (path : CString) : Prop :=
  let (segments, _) := vfsParsePath v.strtok path
  ∀ call ∈ getParentCalls v start segments.length start segments,
    ∀ n, call.1 = some n → LookupKnown K v n call.2

/-- Two outcomes: both fail, or they return the same and the trees agree. -/
def SameEnd {α : Type} (K : Known) : Option (α × Vfs) → Option (α × Vfs) → Prop :=
  Option.Rel fun r r' => r.1 = r'.1 ∧ SameVfs K r.2 r'.2

theorem optionRel_cases {α β : Type} {R : α → β → Prop} {o : Option α} {o' : Option β}
    (h : Option.Rel R o o') :
    (o = none ∧ o' = none) ∨ ∃ a b, o = some a ∧ o' = some b ∧ R a b := by
  cases h with
  | none => exact .inl ⟨rfl, rfl⟩
  | some hab => exact .inr ⟨_, _, rfl, rfl, hab⟩

theorem SameEnd.cases {α : Type} {K : Known} {r r' : Option (α × Vfs)} (h : SameEnd K r r') :
    (r = none ∧ r' = none) ∨
      ∃ a w w', r = some (a, w) ∧ r' = some (a, w') ∧ SameVfs K w w' := by
  rcases optionRel_cases h with hnone | ⟨⟨a, w⟩, ⟨a', w'⟩, hr, hr', heq, hw⟩
  · exact .inl hnone
  · obtain rfl : a = a' := heq
    exact .inr ⟨a, w, w', hr, hr', hw⟩

section

variable {K : Known} {v v' : Vfs}

theorem SameVfs.findChild (h : SameVfs K v v') {dir : Nat} (hk : K.Listed v dir) (name : CString) :
    findChild v dir name = findChild v' dir name := by
  have hchildren : (v.nodes dir).children = (v'.nodes dir).children := h.field dir .children hk.1
  unfold BestOS.findChild
  rw [← hchildren]
  refine List.find?_congr fun c hc => ?_
  have hname : (v.nodes c).name = (v'.nodes c).name := h.field c .name (hk.2 c hc)
  rw [hname]

theorem SameVfs.vfsFindNode (h : SameVfs K v v') {start : Option Nat} {name : CString}
    (hk : ∀ n, start = some n → LookupKnown K v n name) :
    vfsFindNode v start name = vfsFindNode v' start name := by
  cases start with
  | none => rfl
  | some n =>
    obtain ⟨hpoints, htarget, hown⟩ := hk n rfl
    have hsame : (v.nodes n).pointsTo = (v'.nodes n).pointsTo := h.field n .pointsTo hpoints
    unfold BestOS.vfsFindNode
    dsimp only
    rw [← hsame]
    cases hp : (v.nodes n).pointsTo with
    | none =>
      dsimp only
      rw [h.findChild (hown fun t ht => by rw [hp] at ht; cases ht)]
    | some t =>
      dsimp only
      rw [← h.findChild (htarget t hp)]
      cases hf : BestOS.findChild v t name with
      | some c => rfl
      | none =>
        -- only then are the node's own children looked through
        rw [h.findChild (hown fun t' ht' => by
          obtain rfl : t = t' := Option.some.inj (hp.symm.trans ht')
          exact hf)]

theorem SameVfs.getParentLoop (h : SameVfs K v v') {start node : Option Nat} {n : Nat}
    {segments : List CString}
    (hk : ∀ call ∈ getParentCalls v start n node segments, ∀ i, call.1 = some i →
      LookupKnown K v i call.2) :
    SameEnd K (getParentLoop v start n node segments) (getParentLoop v' start n node segments) := by
  have hend : ∀ node : Option Nat, SameEnd K
      (some (node, if node = none then { v with errno := ENOENT } else v))
      (some (node, if node = none then { v' with errno := ENOENT } else v')) := by
    intro node
    refine .some ⟨rfl, ?_⟩
    dsimp only
    split
    · exact h.setErrno ENOENT
    · exact h
  induction segments generalizing node with
  | nil => exact hend node
  | cons segment rest ih =>
    cases rest with
    | nil => exact hend node
    | cons next rest =>
      -- one call of `vfs_find_node`, and the loop behind it
      have hstep : ∀ dir : Option Nat,
          (∀ call ∈ (dir, next) :: (match BestOS.vfsFindNode v dir next with
              | none => []
              | some node => getParentCalls v start n node (next :: rest)),
            ∀ i, call.1 = some i → LookupKnown K v i call.2) →
          SameEnd K
            (match BestOS.vfsFindNode v dir next with
              | none => none
              | some node => BestOS.getParentLoop v start n node (next :: rest))
            (match BestOS.vfsFindNode v' dir next with
              | none => none
              | some node => BestOS.getParentLoop v' start n node (next :: rest)) := by
        intro dir hcalls
        rw [← h.vfsFindNode fun i hi => hcalls _ List.mem_cons_self i hi]
        cases hf : BestOS.vfsFindNode v dir next with
        | none => exact .none
        | some node' =>
          rw [hf] at hcalls
          exact ih fun call hc => hcalls call (List.mem_cons_of_mem _ hc)
      rw [getParentCalls] at hk
      rw [BestOS.getParentLoop, BestOS.getParentLoop]
      by_cases hlen : strlen segment ≠ 0
      · rw [if_pos hlen] at hk ⊢
        rw [if_pos hlen]
        by_cases hlast : rest = []
        · rw [if_pos hlast, if_pos hlast]
          exact .some ⟨rfl, h⟩
        · rw [if_neg hlast] at hk ⊢
          rw [if_neg hlast]
          exact hstep node hk
      · rw [if_neg hlen] at hk ⊢
        rw [if_neg hlen]
        by_cases htwo : n = 2
        · rw [if_pos htwo, if_pos htwo]
          exact .some ⟨rfl, h⟩
        · rw [if_neg htwo] at hk ⊢
          rw [if_neg htwo]
          exact hstep start hk

/-- **`vfs_get_parent`** on two trees that agree on what it reads. -/
theorem SameVfs.vfsGetParent (h : SameVfs K v v') {start : Option Nat} {path : CString}
    (hk : PathKnown K v start path) :
    SameEnd K (vfsGetParent v start path) (vfsGetParent v' start path) := by
  unfold PathKnown at hk
  unfold BestOS.vfsGetParent
  rw [← h.strtok]
  generalize vfsParsePath v.strtok path = parsed at *
  obtain ⟨segments, t⟩ := parsed
  have hcalls : ∀ node segs, getParentCalls { v with strtok := t } start segments.length node segs
      = getParentCalls v start segments.length node segs := by
    intro node segs
    fun_induction getParentCalls v start segments.length node segs <;>
      simp_all [getParentCalls, BestOS.vfsFindNode, BestOS.findChild]
  refine (h.setStrtok t).getParentLoop fun call hc n hn => ?_
  rw [hcalls] at hc
  obtain ⟨hpoints, htarget, hown⟩ := hk call hc n hn
  exact ⟨hpoints, htarget, hown⟩

end

/-! ### `vfs_mkdir` -/

/-- The fields that `vfs_mkdir` assigns in a dot entry. -/
def dotFields : List NodeField := [.type, .name, .pointsTo]

/-- What is known after `vfs_mkdir`. -/
def mkdirKnown (K : Known) (v : Vfs) (path : CString) : Known :=
  let K := K.assign v.next [.type, .children]
  if strEq path ['/'] then K.assign v.next [.parent, .mountpoint, .name]
  else
    let K := K.assign v.next [.parent, .name]
    match vfsGetParent (newNode v emptyDir).2 v.root path with
    | some (some _, _) =>
      ((K.assign v.next [.mountpoint]).assign (v.next + 1) dotFields).assign (v.next + 2) dotFields
    | _ => K

/-- What `vfs_mkdir` reads: the path, the mount point of the root, and the vector of the
parent's children. -/
structure MkdirKnown (K : Known) (v : Vfs) (path : CString) : Prop where
  lookups : PathKnown (K.assign v.next [.type, .children]) (newNode v emptyDir).2 v.root path
  linked : ∀ parent w, vfsGetParent (newNode v emptyDir).2 v.root path = some (some parent, w) →
    (∀ root, v.root = some root → K.field root .mountpoint) ∧
      (K.assign v.next [.type, .children]).field parent .children

section

variable {K : Known} {v v' : Vfs}

theorem SameVfs.linkDir (h : SameVfs K v v') (node parent : Nat) :
    SameVfs ((K.assign v.next dotFields).assign (v.next + 1) dotFields) (linkDir v node parent)
      (linkDir v' node parent) := by
  obtain ⟨hprev, h₁⟩ := h.newNode (assigns_dotEntry ['.', '.'] parent)
  obtain ⟨hcurr, h₂⟩ := h₁.newNode (assigns_dotEntry ['.'] node)
  unfold BestOS.linkDir
  dsimp only
  rw [← hprev, ← hcurr]
  exact ((h₂.update node (assigns_pushChild _)).update node (assigns_pushChild _)).update parent
    (assigns_pushChild node)

/-- The mount point of the root is copied, and the directory is linked. -/
theorem SameVfs.linkMounted (h : SameVfs K v v') {root : Nat} (hmount : K.field root .mountpoint)
    (node parent : Nat) :
    SameVfs (((K.assign node [.mountpoint]).assign v.next dotFields).assign (v.next + 1) dotFields)
      (BestOS.linkDir (BestOS.setNode v node fun n =>
        { n with mountpoint := (v.nodes root).mountpoint }) node parent)
      (BestOS.linkDir (BestOS.setNode v' node fun n =>
        { n with mountpoint := (v'.nodes root).mountpoint }) node parent) := by
  have hsame : (v.nodes root).mountpoint = (v'.nodes root).mountpoint :=
    h.field root .mountpoint hmount
  rw [← hsame]
  exact (h.assign node (assigns_mountpoint (v.nodes root).mountpoint)).linkDir node parent

/-- **`vfs_mkdir`** on two trees that agree on what it reads. -/
theorem SameVfs.vfsMkdir (h : SameVfs K v v') {path : CString}
    (hk : strEq path ['/'] = false → MkdirKnown K v path) :
    SameEnd (mkdirKnown K v path) (vfsMkdir v path) (vfsMkdir v' path) := by
  obtain ⟨hnode, h₁⟩ := h.newNode assigns_emptyDir
  have hnode₀ : (BestOS.newNode v emptyDir).1 = v.next := rfl
  unfold BestOS.vfsMkdir mkdirKnown
  dsimp only
  rw [← hnode, hnode₀]
  by_cases hslash : strEq path ['/'] = true
  · obtain ⟨hm, h₂⟩ := h₁.mallocMount
    rw [if_pos hslash, if_pos hslash, if_pos hslash, ← hm]
    exact .some ⟨rfl, h₂.assign v.next (assigns_rootDir v.next _)⟩
  · obtain ⟨hlookups, hlinked⟩ := hk (by simpa using hslash)
    rw [if_neg hslash, if_neg hslash, if_neg hslash, ← h₁.root]
    have hroot₀ : (BestOS.newNode v emptyDir).2.root = v.root := rfl
    rw [hroot₀]
    rcases (h₁.vfsGetParent hlookups).cases with ⟨e, e'⟩ | ⟨res, w, w', e, e', h₂⟩
    · rw [e, e']
      exact .none
    · rw [e, e']
      have hnamed := h₂.assign v.next (assigns_namedDir res (basename path))
      -- the search changes neither the root nor the number of nodes
      obtain ⟨hroot, hnext⟩ : w.root = v.root ∧ w.next = v.next + 1 := by
        obtain ⟨_, _, rfl⟩ := vfsGetParent_vfs e
        exact ⟨rfl, rfl⟩
      cases res with
      | none => exact .some ⟨rfl, hnamed.setErrno ENOENT⟩
      | some parent =>
        obtain ⟨hmount, -⟩ := hlinked parent w e
        have hroot₁ : (BestOS.setNode w v.next (namedDir (some parent) (basename path))).root
          = v.root := hroot
        have hroot₂ : (BestOS.setNode w' v.next (namedDir (some parent) (basename path))).root
          = v.root := hnamed.root.symm.trans hroot
        have hnext₁ : (BestOS.setNode w v.next (namedDir (some parent) (basename path))).next
          = v.next + 1 := hnext
        dsimp only
        rw [hroot₁, hroot₂]
        cases hr : v.root with
        | none => exact .none
        | some root =>
          have hlink := hnamed.linkMounted (.inl (.inl (hmount root hr))) v.next parent
          rw [hnext₁] at hlink
          exact .some ⟨rfl, hlink⟩

end

/-! ### `vfs_open` -/

/-- The fields that `vfs_open` assigns in a new file. -/
def fileFields : List NodeField := [.name, .type, .parent, .oMode, .mountpoint, .address]

/-- The name is not there, and it is to be created. -/
def Creates (v : Vfs) (parent : Nat) (name : CString) (flags : Nat) : Prop :=
  vfsFindNode v (some parent) name = some none ∧ flags &&& O_CREAT ≠ 0

/-- A directory that is not asked for as one. -/
def DirRefused (v : Vfs) (flags n : Nat) : Prop :=
  flags &&& O_DIRECTORY = 0 ∧ (v.nodes n).type = .directory

instance (v : Vfs) (flags n : Nat) : Decidable (DirRefused v flags n) :=
  inferInstanceAs (Decidable (_ ∧ _))

/-- What `vfs_open` reads once the parent is found. -/
structure OpenInKnown (K : Known) (v : Vfs) (parent : Nat) (name : CString) (flags : Nat) :
    Prop where
  lookup : LookupKnown K v parent name
  type : ∀ n, vfsFindNode v (some parent) name = some (some n) → flags &&& O_DIRECTORY = 0 →
    K.field n .type
  pointsTo : ∀ n, vfsFindNode v (some parent) name = some (some n) → ¬ DirRefused v flags n →
    flags &&& O_CREAT = 0 → K.field n .pointsTo
  parent : Creates v parent name flags → K.field parent .mountpoint ∧ K.field parent .children

/-- What is known once the parent is found: the fields of the file that is made, or the
mode of the node that is opened. -/
def openInKnown (K : Known) (v : Vfs) (parent : Nat) (name : CString) (flags : Nat) : Known :=
  match vfsFindNode v (some parent) name with
  | some (some n) => if DirRefused v flags n then K else K.assign n [.oMode]
  | some none => if flags &&& O_CREAT ≠ 0 then K.assign v.next fileFields else K
  | none => K

/-- What is known after `vfs_open`. -/
def openKnown (K : Known) (v : Vfs) (path : CString) (flags : Nat) : Known :=
  match vfsGetParent v v.root path with
  | some (some parent, w) => openInKnown K w parent (basename path) flags
  | _ => K

/-- What `vfs_open` reads. -/
structure OpenKnown (K : Known) (v : Vfs) (path : CString) (flags : Nat) : Prop where
  lookups : PathKnown K v v.root path
  found : ∀ parent w, vfsGetParent v v.root path = some (some parent, w) →
    OpenInKnown K w parent (basename path) flags

section

variable {K : Known} {v v' : Vfs}

theorem le_openInKnown (K : Known) (v : Vfs) (parent : Nat) (name : CString) (flags : Nat) :
    K.Le (openInKnown K v parent name flags) := by
  unfold openInKnown
  split
  · split
    · exact .refl K
    · exact K.le_assign _ _
  · split
    · exact K.le_assign _ _
    · exact .refl K
  · exact .refl K

theorem openInKnown_made {K : Known} {v : Vfs} {parent flags : Nat} {name : CString}
    (hc : Creates v parent name flags) :
    openInKnown K v parent name flags = K.assign v.next fileFields := by
  unfold openInKnown
  rw [hc.1]
  exact if_pos hc.2

/-- A node that was found: it is refused in both trees, or its mode is set in both. -/
theorem SameVfs.openIn_found (h : SameVfs K v v') {buf parent flags n : Nat} {name : CString}
    (hf : BestOS.vfsFindNode v (some parent) name = some (some n))
    (hf' : BestOS.vfsFindNode v' (some parent) name = some (some n))
    (hk : OpenInKnown K v parent name flags) :
    SameEnd (if DirRefused v flags n then K else K.assign n [.oMode])
      (openIn buf v parent name flags) (openIn buf v' parent name flags) := by
  have hsame : DirRefused v flags n ↔ DirRefused v' flags n := by
    refine and_congr_right fun hdir => ?_
    have htype : (v.nodes n).type = (v'.nodes n).type := h.field n .type (hk.type n hf hdir)
    rw [htype]
  unfold BestOS.openIn
  rw [hf, hf']
  simp only [Option.any_some, decide_eq_true_eq]
  by_cases href : DirRefused v flags n
  · rw [if_pos href, if_pos (show _ ∧ _ from href), if_pos (show _ ∧ _ from hsame.mp href)]
    exact .some ⟨rfl, h.setErrno EISDIR⟩
  · have hmode := h.assign n (assigns_oMode flags)
    rw [if_neg href, if_neg (show ¬ (_ ∧ _) from href),
      if_neg (show ¬ (_ ∧ _) from fun hc => href (hsame.mpr hc))]
    by_cases hcreat : flags &&& O_CREAT ≠ 0
    · rw [if_pos hcreat, if_pos hcreat]
      exact .some ⟨rfl, hmode⟩
    · rw [if_neg hcreat, if_neg hcreat]
      have hpoints : _ = _ := hmode.field n .pointsTo
        (.inl (hk.pointsTo n hf href (not_not.mp hcreat)))
      rw [← hpoints]
      split
      · exact .some ⟨rfl, hmode⟩
      · exact .some ⟨rfl, hmode⟩

theorem SameVfs.openIn (h : SameVfs K v v') {buf parent flags : Nat} {name : CString}
    (hk : OpenInKnown K v parent name flags) :
    SameEnd (openInKnown K v parent name flags) (openIn buf v parent name flags)
      (openIn buf v' parent name flags) := by
  have hfind : BestOS.vfsFindNode v (some parent) name = BestOS.vfsFindNode v' (some parent) name :=
    h.vfsFindNode fun n hn => by
      obtain rfl : parent = n := Option.some.inj hn
      exact hk.lookup
  unfold openInKnown
  cases hf : BestOS.vfsFindNode v (some parent) name with
  | none =>
    unfold BestOS.openIn
    rw [← hfind, hf]
    exact .none
  | some node =>
    cases node with
    | some n => exact h.openIn_found hf (hfind.symm.trans hf) hk
    | none =>
      unfold BestOS.openIn
      rw [← hfind, hf]
      simp only [Option.any_none, Bool.false_eq_true, and_false, ↓reduceIte]
      by_cases hcreat : flags &&& O_CREAT ≠ 0
      · have hmount : (v.nodes parent).mountpoint = (v'.nodes parent).mountpoint :=
          h.field parent .mountpoint (hk.parent ⟨hf, hcreat⟩).1
        rw [if_pos hcreat, if_pos hcreat, if_pos hcreat, ← hmount]
        obtain ⟨hnode, h₁⟩ := h.newNode
          (assigns_newFile name parent flags (v.nodes parent).mountpoint buf)
        rw [← hnode]
        exact .some ⟨rfl, h₁.update parent (assigns_pushChild _)⟩
      · rw [if_neg hcreat, if_neg hcreat, if_neg hcreat]
        exact .some ⟨rfl, h.setErrno ENOENT⟩

/-- **`vfs_open`** on two trees that agree on what it reads. -/
theorem SameVfs.vfsOpen (h : SameVfs K v v') {buf flags : Nat} {start : Option Nat}
    {path : CString} (hk : OpenKnown K v path flags) :
    SameEnd (openKnown K v path flags) (vfsOpen buf v start path flags)
      (vfsOpen buf v' start path flags) := by
  unfold BestOS.vfsOpen openKnown
  rw [← h.root]
  rcases (h.vfsGetParent hk.lookups).cases with ⟨e, e'⟩ | ⟨res, w, w', e, e', h₁⟩
  · rw [e, e']
    exact .none
  · rw [e, e']
    cases res with
    | none => exact .some ⟨rfl, h₁.setErrno ENOENT⟩
    | some parent => exact h₁.openIn (hk.found parent w e)

end

end BestOS
