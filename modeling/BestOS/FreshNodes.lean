/-
BestOS/FreshNodes.lean

Runs of the file system whose new blocks held different bytes before.

Two runs make the same calls from states that differ only in what the blocks hold
that `malloc` is about to return.  `Known` follows what has been assigned since; a
call that reads nothing else does the same in both runs (`SameState.call`), and keeps
the size and the contents of every file known (`FilesKnown.call`).

`SameState.calls` is the run lemma.
-/
import BestOS.KnownCalls
import BestOS.Descriptors

namespace BestOS

open ByteMemory

/-! ### Files -/

/-- The size of a file and its contents are known. -/
structure FileKnown (K : Known) (s : SysState) (n : Nat) : Prop where
  stSize : K.field n .stSize
  range : (s.vfs.nodes n).stSize < 2 ^ 63
  init : K.field n .init
  address : (s.vfs.nodes n).init = true → K.field n .address
  internalAddress : (s.vfs.nodes n).init = false → K.field n .internalAddress
  bytes : ∀ i : Nat, i < (s.vfs.nodes n).stSize → K.byte ((s.vfs.nodes n).contentsBase + i)

/-- It is known whether a node is a file, and then the file is. -/
structure NodeKnown (K : Known) (s : SysState) (n : Nat) : Prop where
  type : K.field n .type
  fs : (s.vfs.nodes n).type = .file → FsKnown K s n
  file : (s.vfs.nodes n).type = .file → OnTmpfs s n → FileKnown K s n

def FilesKnown (K : Known) (s : SysState) : Prop := ∀ n < s.vfs.next, NodeKnown K s n

theorem contents_eq (s : SysState) (n i : Nat) :
    contents s n i = s.mem ((s.vfs.nodes n).contentsBase + i) := by
  unfold contents VfsNode.contentsBase
  split <;> rfl

section

variable {K K' : Known} {s t : SysState} {n : Nat}

/-- A node keeps its type and its filesystem; what becomes of the file is to be said. -/
theorem NodeKnown.same (h : NodeKnown K s n) (hfield : ∀ f, K.field n f → K'.field n f)
    (hK : ∀ m, K.mount m → K'.mount m) (hmounts : t.vfs.mounts = s.vfs.mounts)
    (htype : (t.vfs.nodes n).type = (s.vfs.nodes n).type)
    (hmount : (t.vfs.nodes n).mountpoint = (s.vfs.nodes n).mountpoint)
    (hfile : (s.vfs.nodes n).type = .file → OnTmpfs s n → FileKnown K' t n) :
    NodeKnown K' t n where
  type := hfield _ h.type
  fs := fun hf => by
    rw [htype] at hf
    refine ⟨hfield _ (h.fs hf).mountpoint, fun m hm => hK m ((h.fs hf).fs m ?_)⟩
    rw [← hmount, hm]
  file := fun hf ht => by
    rw [htype] at hf
    exact hfile hf ((onTmpfs_congr hmount hmounts).mp ht)

theorem FileKnown.same (h : FileKnown K s n) (hfield : ∀ f, K.field n f → K'.field n f)
    (hdata : (t.vfs.nodes n).fileData = (s.vfs.nodes n).fileData)
    (hbytes : ∀ i : Nat, i < (s.vfs.nodes n).stSize → K'.byte ((s.vfs.nodes n).contentsBase + i)) :
    FileKnown K' t n := by
  obtain ⟨-, -, hsize, haddr, hint, hinit⟩ := fileData_eq hdata
  have hbase : (t.vfs.nodes n).contentsBase = (s.vfs.nodes n).contentsBase := by
    unfold VfsNode.contentsBase
    rw [hinit, haddr, hint]
  refine ⟨hfield _ h.stSize, ?_, hfield _ h.init, fun hi => ?_, fun hi => ?_, fun i hi => ?_⟩
  · rw [hsize]
    exact h.range
  · exact hfield _ (h.address (hinit.symm.trans hi))
  · exact hfield _ (h.internalAddress (hinit.symm.trans hi))
  · rw [hbase]
    exact hbytes i (by rw [← hsize]; exact hi)

/-- What is known stays known, and the file is left alone. -/
theorem NodeKnown.keep (h : NodeKnown K s n) (hle : K.Le K')
    (hmounts : t.vfs.mounts = s.vfs.mounts)
    (hdata : (t.vfs.nodes n).fileData = (s.vfs.nodes n).fileData) : NodeKnown K' t n := by
  obtain ⟨htype, hmount, -⟩ := fileData_eq hdata
  refine h.same (hle.field n) hle.mount hmounts htype hmount fun hf ht => ?_
  have hfile := h.file hf ht
  exact hfile.same (hle.field n) hdata fun i hi => hle.byte _ (hfile.bytes i hi)

end

/-! ### The calls keep the files known -/

/-- Directories are added, and the files are left alone. -/
structure AddsDirs (v w : Vfs) : Prop where
  mounts : w.mounts = v.mounts
  next : v.next ≤ w.next
  old : ∀ i < v.next, (w.nodes i).fileData = (v.nodes i).fileData
  new : ∀ i, v.next ≤ i → i < w.next → (w.nodes i).type = .directory

theorem AddsDirs.refl (v : Vfs) : AddsDirs v v :=
  ⟨rfl, Nat.le_refl _, fun _ _ => rfl, fun _ h h' => absurd h' (Nat.not_lt.mpr h)⟩

theorem AddsDirs.newNode {v w : Vfs} (h : AddsDirs v w) {g : VfsNode → VfsNode}
    (hg : ∀ a, (g a).type = .directory) : AddsDirs v (newNode w g).2 where
  mounts := h.mounts
  next := Nat.le_succ_of_le h.next
  old := fun i hi => by
    have hne : i ≠ w.next := Nat.ne_of_lt (Nat.lt_of_lt_of_le hi h.next)
    rw [← h.old i hi]
    simp only [BestOS.newNode, setNode, Function.update_of_ne hne]
  new := fun i hi hlt => by
    by_cases hne : i = w.next
    · subst hne
      simp only [BestOS.newNode, setNode, Function.update_self, hg]
    · have hlt' : i < w.next + 1 := hlt
      simpa only [BestOS.newNode, setNode, Function.update_of_ne hne] using h.new i hi (by omega)

/-- An assignment to a node that was there keeps its file, one to a new directory keeps
its type. -/
theorem AddsDirs.setNode {v w : Vfs} (h : AddsDirs v w) {n : Nat} {g : VfsNode → VfsNode}
    (hold : n < v.next → ∀ a, (g a).fileData = a.fileData) (hnew : ∀ a, (g a).type = a.type) :
    AddsDirs v (setNode w n g) where
  mounts := h.mounts
  next := h.next
  old := fun i hi => by
    rw [← h.old i hi]
    by_cases hne : i = n
    · subst hne
      simp only [BestOS.setNode, Function.update_self, hold hi]
    · simp only [BestOS.setNode, Function.update_of_ne hne]
  new := fun i hi hlt => by
    rw [← h.new i hi hlt]
    by_cases hne : i = n
    · subst hne
      simp only [BestOS.setNode, Function.update_self, hnew]
    · simp only [BestOS.setNode, Function.update_of_ne hne]

theorem AddsDirs.linkDir {v w : Vfs} (h : AddsDirs v w) (node parent : Nat) :
    AddsDirs v (linkDir w node parent) := by
  have hpush : ∀ {u : Vfs}, AddsDirs v u → ∀ i c, AddsDirs v (pushChild u i c) :=
    fun hu i c => hu.setNode (fun _ _ => rfl) fun _ => rfl
  have h₁ := h.newNode (g := dotEntry ['.', '.'] parent) fun _ => rfl
  have h₂ := h₁.newNode (g := dotEntry ['.'] node) fun _ => rfl
  exact hpush (hpush (hpush h₂ _ _) _ _) _ _

/-- **`vfs_mkdir`** adds directories, and their types are assigned. -/
theorem vfsMkdir_addsDirs (K : Known) {v w : Vfs} {path : CString} {res : Option Nat}
    (hm : vfsMkdir v path = some (res, w)) :
    AddsDirs v w ∧ ∀ i, v.next ≤ i → i < w.next → (mkdirKnown K v path).field i .type := by
  have h₁ : AddsDirs v (newNode v emptyDir).2 := (AddsDirs.refl v).newNode fun _ => rfl
  -- the new directory itself
  have hself : ∀ {u : Vfs} {g : VfsNode → VfsNode}, AddsDirs v u → (∀ a, (g a).type = a.type) →
      AddsDirs v (setNode u v.next g) :=
    fun hu hg => hu.setNode (fun hlt => absurd hlt (Nat.lt_irrefl _)) hg
  unfold vfsMkdir at hm
  unfold mkdirKnown
  dsimp only at hm ⊢
  rw [show (newNode v emptyDir).1 = v.next from rfl] at hm
  split at hm
  · next hslash =>
    cases hm
    rw [if_pos hslash]
    refine ⟨hself ⟨h₁.mounts, h₁.next, h₁.old, h₁.new⟩ fun _ => rfl, fun i hi hlt => ?_⟩
    have hlt' : i < v.next + 1 := hlt
    exact .inl (.inr ⟨by omega, by decide⟩)
  · next hslash =>
    rw [if_neg hslash]
    cases hg : vfsGetParent (newNode v emptyDir).2 (newNode v emptyDir).2.root path with
    | none =>
      rw [hg] at hm
      cases hm
    | some p =>
      obtain ⟨parent, u⟩ := p
      rw [hg] at hm
      rw [show vfsGetParent (newNode v emptyDir).2 v.root path = some (parent, u) from hg]
      -- the search leaves the nodes alone
      have hsame : AddsDirs v u ∧ u.next = v.next + 1 := by
        obtain ⟨e, t, rfl⟩ := vfsGetParent_vfs hg
        exact ⟨⟨h₁.mounts, h₁.next, h₁.old, h₁.new⟩, rfl⟩
      have h₂ : AddsDirs v (setNode u v.next (namedDir parent (basename path))) :=
        hself hsame.1 fun _ => rfl
      have hnext : (setNode u v.next (namedDir parent (basename path))).next = v.next + 1 := hsame.2
      dsimp only at hm
      generalize setNode u v.next (namedDir parent (basename path)) = u' at hm h₂ hnext
      cases parent with
      | none =>
        cases hm
        refine ⟨⟨h₂.mounts, h₂.next, h₂.old, h₂.new⟩, fun i hi hlt => ?_⟩
        have hlt' : i < u'.next := hlt
        exact .inl (.inr ⟨by omega, by decide⟩)
      | some parent =>
        cases hr : u'.root with
        | none =>
          rw [hr] at hm
          cases hm
        | some root =>
          rw [hr] at hm
          cases hm
          refine ⟨(hself (g := fun n => { n with mountpoint := (u'.nodes root).mountpoint }) h₂
            fun _ => rfl).linkDir v.next parent, fun i hi hlt => ?_⟩
          have hlt' : i < u'.next + 1 + 1 := hlt
          by_cases h0 : i = v.next
          · exact .inl (.inl (.inl (.inl (.inr ⟨h0, by decide⟩))))
          · by_cases h1 : i = v.next + 1
            · exact .inl (.inr ⟨h1, by decide⟩)
            · exact .inr ⟨by omega, by decide⟩

theorem le_mkdirKnown (K : Known) (v : Vfs) (path : CString) : K.Le (mkdirKnown K v path) := by
  unfold mkdirKnown
  dsimp only
  have hle := K.le_assign v.next [.type, .children]
  split
  · exact hle.trans (Known.le_assign _ _ _)
  · have hle' := hle.trans (Known.le_assign _ v.next [.parent, .name])
    split
    · exact ((hle'.trans (Known.le_assign _ _ _)).trans (Known.le_assign _ _ _)).trans
        (Known.le_assign _ _ _)
    · exact hle'

theorem le_loadKnown (K : Known) (s : SysState) (n : Nat) : K.Le (loadKnown K s n) := by
  unfold loadKnown
  split
  · exact .refl K
  · exact ⟨fun _ _ h => h, fun _ h => h, fun _ h => .inl (.inl h)⟩

theorem le_readKnown (K : Known) (tmp : Nat) (s : SysState) (n count buf : Nat) :
    K.Le (readKnown K tmp s n count buf) := by
  have hload := le_loadKnown K s n
  unfold readKnown
  split
  · split
    · exact hload
    · exact ⟨hload.field, hload.mount, fun x hx => .inl (hload.byte x hx)⟩
  · split
    · exact ⟨fun _ _ h => h, fun _ h => h, fun _ h => .inl (.inl h)⟩
    · exact .refl K
  · exact .refl K

/-- A file is made exactly when `Creates` says so. -/
theorem openIn_cases {v w : Vfs} {buf parent flags : Nat} {name : CString} {res : Option Nat}
    (ho : openIn buf v parent name flags = some (res, w)) :
    (Creates v parent name flags ∧
        w = pushChild (newNode v (newFile name parent flags (v.nodes parent).mountpoint buf)).2
          parent v.next) ∨
      ¬ Creates v parent name flags ∧ w.next = v.next := by
  cases openIn_end ho with
  | made hf hcreat => exact .inl ⟨⟨hf, hcreat⟩, rfl⟩
  | missing hf hcreat => exact .inr ⟨fun hc => hc.2 hcreat, rfl⟩
  | refused n hf hdir htype => exact .inr ⟨fun hc => absurd (hf.symm.trans hc.1) (by simp), rfl⟩
  | found n hf => exact .inr ⟨fun hc => absurd (hf.symm.trans hc.1) (by simp), rfl⟩

section

variable {K : Known} {s : SysState}

/-- The file `vfs_open` makes. -/
theorem NodeKnown.newFile {v w : Vfs} {buf parent flags : Nat} {name : CString}
    (hk : NewFileKnown K s buf parent) (hnodes : v.nodes = s.vfs.nodes) (hnext : v.next = s.vfs.next)
    (hmounts : v.mounts = s.vfs.mounts)
    (hw : w = pushChild (newNode v (newFile name parent flags (v.nodes parent).mountpoint buf)).2
      parent v.next) :
    NodeKnown (K.assign v.next fileFields) { s with vfs := w } v.next := by
  have hdata : (w.nodes v.next).fileData
      = (BestOS.newFile name parent flags (v.nodes parent).mountpoint buf
        (v.nodes v.next)).fileData := by
    rw [hw]
    rw [pushChild_fileData]
    simp only [newNode, setNode, Function.update_self]
  have hwm : w.mounts = s.vfs.mounts := by
    rw [hw]
    exact hmounts
  obtain ⟨htype, hmount, hsize, haddr, hint, hinit⟩ := fileData_eq hdata
  rw [hnodes] at hmount hsize hint hinit
  have hassigned : ∀ f ∈ fileFields, (K.assign v.next fileFields).field v.next f :=
    fun f hf => .inr ⟨rfl, hf⟩
  refine ⟨hassigned _ (by decide), fun _ => ⟨hassigned _ (by decide), fun m hm => ?_⟩, fun _ ht => ?_⟩
  · exact hk.fs m (hmount.symm.trans hm)
  · have htmpfs : OnTmpfs s parent := by
      obtain ⟨m, hm, hfs⟩ := ht
      exact ⟨m, hmount.symm.trans hm, by rw [← hwm]; exact hfs⟩
    obtain ⟨hsizeK, hrange⟩ := hk.stSize htmpfs
    have hbase : (w.nodes v.next).contentsBase
        = VfsNode.contentsBase { s.vfs.nodes s.vfs.next with address := buf } := by
      unfold VfsNode.contentsBase
      rw [hinit, haddr, hint, hnext]
      rfl
    rw [hnext] at hsize hinit ⊢
    rw [hnext] at hbase hassigned
    refine ⟨.inl hsizeK, ?_, .inl (hk.init htmpfs), fun _ => hassigned _ (by decide), fun hi => ?_,
      fun i hi => ?_⟩
    · rw [hsize]
      exact hrange
    · exact .inl (hk.internalAddress htmpfs (hinit.symm.trans hi))
    · show K.byte _
      rw [hbase]
      refine hk.bytes htmpfs i ?_
      rw [hsize] at hi
      exact hi

theorem FilesKnown.mkdir (h : FilesKnown K s) {path : CString} {res : Option Nat} {w : Vfs}
    (hm : vfsMkdir s.vfs path = some (res, w)) :
    FilesKnown (mkdirKnown K s.vfs path) { s with vfs := w } := by
  obtain ⟨hadds, htypes⟩ := vfsMkdir_addsDirs K hm
  intro n hn
  by_cases hold : n < s.vfs.next
  · exact (h n hold).keep (le_mkdirKnown K s.vfs path) hadds.mounts (hadds.old n hold)
  · have hdir : (w.nodes n).type = .directory := hadds.new n (Nat.not_lt.mp hold) hn
    refine ⟨htypes n (Nat.not_lt.mp hold) hn, fun hf => ?_, fun hf => ?_⟩
    · exact absurd (hdir.symm.trans hf) (by decide)
    · exact absurd (hdir.symm.trans hf) (by decide)

theorem FilesKnown.openFile (h : FilesKnown K s) {buf flags : Nat} {start res : Option Nat}
    {path : CString} {w : Vfs} (hk : CallKnown K s (.openFile buf start path flags))
    (ho : vfsOpen buf s.vfs start path flags = some (res, w)) :
    FilesKnown (openKnown K s.vfs path flags) { s with vfs := w } := by
  unfold vfsOpen at ho
  unfold openKnown
  cases hg : vfsGetParent s.vfs s.vfs.root path with
  | none =>
    rw [hg] at ho
    cases ho
  | some p =>
    obtain ⟨parent, v⟩ := p
    rw [hg] at ho
    obtain ⟨e, t, rfl⟩ := vfsGetParent_vfs hg
    cases parent with
    | none =>
      cases ho
      exact fun n hn => (h n hn).keep (.refl K) rfl rfl
    | some parent =>
      dsimp only at ho ⊢
      obtain ⟨hmounts, hnodes⟩ := openIn_files ho
      have hkeep : ∀ n < s.vfs.next, (w.nodes n).fileData = (s.vfs.nodes n).fileData := by
        intro n hn
        rcases hnodes with ⟨-, hsame⟩ | ⟨-, -, hsame⟩
        · exact hsame n
        · exact hsame n (Nat.ne_of_lt hn)
      intro n hn
      by_cases hold : n < s.vfs.next
      · exact (h n hold).keep (le_openInKnown K _ parent (basename path) flags) hmounts (hkeep n hold)
      · rcases openIn_cases ho with ⟨hc, hw⟩ | ⟨-, hnext⟩
        · have hnext : w.next = s.vfs.next + 1 := by rw [hw]; rfl
          have hn' : n < w.next := hn
          obtain rfl : n = s.vfs.next := by omega
          rw [openInKnown_made hc]
          exact .newFile (hk.2 parent _ hg hc) rfl rfl rfl hw
        · have hn' : n < w.next := hn
          exact absurd (hnext ▸ hn') hold

/-- The contents of a file that was filled, or had been, are in its buffer. -/
theorem FileKnown.loaded {n : Nat} (h : FileKnown K s n) {i : Nat}
    (hi : i < (s.vfs.nodes n).stSize) : (loadKnown K s n).byte ((s.vfs.nodes n).address + i) := by
  have hbyte := h.bytes i hi
  have hrange := h.range
  unfold VfsNode.contentsBase at hbyte
  unfold loadKnown
  cases hinit : (s.vfs.nodes n).init with
  | true =>
    rw [hinit] at hbyte
    exact hbyte
  | false =>
    have hsize : (toSize (s.vfs.nodes n).stSize : Int) = (s.vfs.nodes n).stSize :=
      toSize_of_nonneg (by omega) hrange
    exact .inl (.inr ⟨by omega, by omega⟩)

/-- Only node `n` changes, and neither its type nor its filesystem: what becomes of the
files is to be said. -/
theorem FilesKnown.onlyNode {K' : Known} {t : SysState} {n : Nat} (h : FilesKnown K s)
    (hfield : ∀ m f, K.field m f → K'.field m f) (hmount : ∀ m, K.mount m → K'.mount m)
    (honly : OnlyNode n s.vfs t.vfs)
    (hfile : ∀ m, IsFile s m → FileKnown K s m → FileKnown K' t m) : FilesKnown K' t := by
  intro m hm
  rw [honly.next] at hm
  obtain ⟨htype, hpoint⟩ : (t.vfs.nodes m).type = (s.vfs.nodes m).type ∧
      (t.vfs.nodes m).mountpoint = (s.vfs.nodes m).mountpoint := by
    by_cases hmn : m = n
    · subst hmn
      exact ⟨honly.type, honly.mountpoint⟩
    · rw [honly.nodes m hmn]
      exact ⟨rfl, rfl⟩
  exact (h m hm).same (hfield m) hmount honly.mounts htype hpoint
    fun hf ht => hfile m ⟨hm, hf, ht⟩ ((h m hm).file hf ht)

/-- A file that is filled, or has been, is known by its buffer. -/
theorem FileKnown.filled {K' : Known} {t : SysState} {n : Nat} (h : FileKnown K s n)
    (hload : LoadKnown K s n) (hle : (loadKnown K s n).Le K')
    (hdata : (t.vfs.nodes n).fileData = { s.vfs.nodes n with init := true }.fileData) :
    FileKnown K' t n := by
  have hK := (le_loadKnown K s n).trans hle
  obtain ⟨-, -, hsize, haddr, -, hinit⟩ := fileData_eq hdata
  have hbase : (t.vfs.nodes n).contentsBase = (s.vfs.nodes n).address := by
    unfold VfsNode.contentsBase
    rw [hinit, haddr]
    rfl
  refine ⟨hK.field _ _ h.stSize, ?_, hK.field _ _ h.init, fun _ => ?_, fun hi => ?_, fun i hi => ?_⟩
  · rw [hsize]
    exact h.range
  · cases hold : (s.vfs.nodes n).init with
    | true => exact hK.field _ _ (h.address hold)
    | false => exact hK.field _ _ (hload.fields hold).1
  · exact absurd (hinit.symm.trans hi) (by simp)
  · rw [hbase]
    exact hle.byte _ (h.loaded (by rw [hsize] at hi; exact hi))

theorem FilesKnown.tmpfsRead (h : FilesKnown K s) {K' : Known} {n offset count buf : Nat}
    (hload : LoadKnown K s n) (hle : (loadKnown K s n).Le K') :
    FilesKnown K' (tmpfsRead s n offset count buf).2 := by
  have hK := (le_loadKnown K s n).trans hle
  obtain ⟨honly, hdata, -⟩ := tmpfsRead_files s n offset count buf
  refine h.onlyNode hK.field hK.mount honly fun m _ hfile => ?_
  by_cases hmn : m = n
  · subst hmn
    exact hfile.filled hload hle hdata
  · exact hfile.same (hK.field m) (by rw [honly.nodes m hmn]) fun i hi => hK.byte _ (hfile.bytes i hi)

theorem FilesKnown.read (h : FilesKnown K s) {tmp n offset count buf : Nat} {ret : Int}
    {t : SysState} (hk : ReadKnown K s n offset count buf)
    (hc : vfsRead tmp s n offset count buf = some (ret, t)) :
    FilesKnown (readKnown K tmp s n count buf) t := by
  have hle := le_readKnown K tmp s n count buf
  rw [vfsRead_nodeFs] at hc
  cases hfs : nodeFs s.vfs n with
  | none =>
    rw [hfs] at hc
    cases hc
  | some fs =>
    rw [hfs] at hc
    cases fs with
    | devfs =>
      obtain ⟨hvfs, -⟩ := devfsRead_mem hc
      intro m hm
      rw [hvfs] at hm
      exact (h m hm).keep hle (by rw [hvfs]) (by rw [hvfs])
    | tmpfs =>
      have hloaded : (loadKnown K s n).Le (readKnown K tmp s n count buf) := by
        unfold readKnown
        rw [hfs]
        dsimp only
        split
        · exact .refl _
        · exact ⟨fun _ _ h => h, fun _ h => h, fun _ h => .inl h⟩
      have ht : (BestOS.tmpfsRead s n offset count buf).2 = t := congrArg Prod.snd (Option.some.inj hc)
      rw [← ht]
      exact h.tmpfsRead (hk.load hfs) hloaded

theorem FilesKnown.tmpfsWrite (h : FilesKnown K s) {g : Grant} {n count buf : Nat}
    (hk : TmpfsWriteKnown K g s n count buf) :
    FilesKnown { K.assign n [.cursor] with byte := writtenOn K g s n count buf }
      (tmpfsWrite g s n count buf).2 := by
  have honly := tmpfsWrite_onlyNode g s n count buf
  refine h.onlyNode (fun _ _ hf => .inl hf) (fun _ hm => hm) honly fun m hm hfile => ?_
  have hassign : ∀ f, K.field m f → (K.assign n [.cursor]).field m f := fun _ hf => .inl hf
  by_cases hmn : m = n
  · subst hmn
    rw [tmpfsWrite_eq]
    refine ⟨hassign _ hfile.stSize, ?_, hassign _ hfile.init, fun _ => hassign _ hk.address,
      fun hi => hassign _ (hfile.internalAddress ?_), fun i hi => ?_⟩
    · simp only [setNode, Function.update_self, toOff]
      exact BitVec.toInt_lt
    · simpa only [setNode, Function.update_self] using hi
    · simp only [setNode, Function.update_self] at hi ⊢
      exact hk.own hm i hi
  · exact hfile.same hassign (by rw [honly.nodes m hmn]) (hk.others m hmn hm)

theorem FilesKnown.write (h : FilesKnown K s) {g : Grant} {n count buf : Nat} {ret : Int}
    {t : SysState} (hk : WriteKnown K g s n count buf)
    (hc : vfsWrite g s n count buf = some (ret, t)) :
    FilesKnown (writeKnown K g s n count buf) t := by
  rw [vfsWrite_nodeFs] at hc
  unfold writeKnown
  cases hfs : nodeFs s.vfs n with
  | none =>
    rw [hfs] at hc
    cases hc
  | some fs =>
    rw [hfs] at hc
    cases fs with
    | devfs =>
      have ht : (devfsWrite s n count).2 = t := congrArg Prod.snd (Option.some.inj hc)
      obtain ⟨honly, -⟩ := devfsWrite_files s n count
      rw [ht] at honly
      refine h.onlyNode (fun _ _ hf => hf) (fun _ hm => hm) honly fun m hm hfile => ?_
      -- the node written to is no file of a tmpfs
      have hmn : m ≠ n := by
        rintro rfl
        have htmpfs := onTmpfs_iff.mp hm.2.2
        rw [hfs] at htmpfs
        cases htmpfs
      exact hfile.same (fun _ hf => hf) (by rw [honly.nodes m hmn]) hfile.bytes
    | tmpfs =>
      have ht : (BestOS.tmpfsWrite g s n count buf).2 = t := congrArg Prod.snd (Option.some.inj hc)
      rw [← ht]
      exact h.tmpfsWrite (hk.tmpfs hfs)

end

theorem FilesKnown.call {K : Known} {s t : SysState} (h : FilesKnown K s) {c : VfsCall}
    {r : VfsResult} (hk : CallKnown K s c) (hc : vfsCall s c = some (r, t)) :
    FilesKnown (K.after s c) t := by
  cases c with
  | mkdir path =>
    obtain ⟨p, hm, hp⟩ := Option.map_eq_some_iff.mp hc
    cases hp
    exact h.mkdir hm
  | openFile buf start path flags =>
    obtain ⟨p, ho, hp⟩ := Option.map_eq_some_iff.mp hc
    cases hp
    exact h.openFile hk ho
  | findNode start name =>
    obtain ⟨p, -, hp⟩ := Option.map_eq_some_iff.mp hc
    cases hp
    exact h
  | read tmp n offset count buf =>
    obtain ⟨p, hr, hp⟩ := Option.map_eq_some_iff.mp hc
    cases hp
    exact h.read hk hr
  | write g n count buf =>
    obtain ⟨p, hw, hp⟩ := Option.map_eq_some_iff.mp hc
    cases hp
    exact h.write hk hw

/-! ### Two runs -/

/-- The same files, with the same sizes and contents. -/
def SameFiles (s s' : SysState) : Prop :=
  ∀ n, (IsFile s n ↔ IsFile s' n) ∧ (IsFile s n →
    (s.vfs.nodes n).stSize = (s'.vfs.nodes n).stSize ∧
      ∀ i : Nat, i < (s.vfs.nodes n).stSize → contents s n i = contents s' n i)

/-- The two runs fail both, or have returned the same, call by call, with the same
`errno` and the same files. -/
def SameOutcome : Option (List (VfsResult × Nat) × SysState) →
    Option (List (VfsResult × Nat) × SysState) → Prop :=
  Option.Rel fun p p' => p.1 = p'.1 ∧ p.2.vfs.errno = p'.2.vfs.errno ∧ SameFiles p.2 p'.2

/-- What is the same at the start: all but the nodes, mount points and bytes in the
blocks `malloc` is about to return. -/
def Known.start (B : Nat → Prop) (s : SysState) : Known where
  field := fun n _ => n < s.vfs.next
  mount := fun m => m < s.vfs.nextMount
  byte := fun a => ¬ B a

/-- Two states that differ only in what those blocks hold; no file is in one of them. -/
structure TwinStart (K : Known) (B : Nat → Prop) (s s' : SysState) : Prop where
  same : SameState K s s'
  known : (Known.start B s).Le K
  mounts : ∀ n < s.vfs.next, (s.vfs.nodes n).type = .file →
    ∀ m, (s.vfs.nodes n).mountpoint = some m → m < s.vfs.nextMount
  range : ∀ n, IsFile s n → (s.vfs.nodes n).stSize < 2 ^ 63
  apart : ∀ n, IsFile s n → ∀ i : Nat, i < (s.vfs.nodes n).stSize →
    ¬ B ((s.vfs.nodes n).contentsBase + i)

/-- Every call of the run reads only what is known by then. -/
def CallsKnown (K : Known) (s : SysState) : List VfsCall → Prop
  | [] => True
  | c :: cs => CallKnown K s c ∧
      ∀ r t, vfsCall s c = some (r, t) → CallsKnown (K.after s c) t cs

theorem TwinStart.files {K : Known} {B : Nat → Prop} {s s' : SysState}
    (h : TwinStart K B s s') : FilesKnown K s := by
  intro n hn
  have hfield : ∀ f, K.field n f := fun f => h.known.field n f hn
  refine ⟨hfield _, fun hf => ⟨hfield _, fun m hm => h.known.mount m (h.mounts n hn hf m hm)⟩,
    fun hf ht => ⟨hfield _, h.range n ⟨hn, hf, ht⟩, hfield _, fun _ => hfield _,
      fun _ => hfield _, fun i hi => h.known.byte _ (h.apart n ⟨hn, hf, ht⟩ i hi)⟩⟩

/-- Files that are known are the same in both states. -/
theorem SameState.files {K : Known} {s s' : SysState} (h : SameState K s s')
    (hfiles : FilesKnown K s) : SameFiles s s' := by
  intro n
  have hfile : IsFile s n ↔ IsFile s' n := by
    unfold IsFile
    rw [← h.vfs.next]
    refine and_congr_right fun hn => ?_
    obtain ⟨htypeK, hfs, -⟩ := hfiles n hn
    have htype : (s.vfs.nodes n).type = (s'.vfs.nodes n).type := h.vfs.field n .type htypeK
    rw [← htype]
    refine and_congr_right fun hf => ?_
    rw [onTmpfs_iff, onTmpfs_iff, h.nodeFs (hfs hf)]
  refine ⟨hfile, fun hn => ?_⟩
  have hk := (hfiles n hn.1).file hn.2.1 hn.2.2
  have hbase : (s.vfs.nodes n).contentsBase = (s'.vfs.nodes n).contentsBase := by
    have hinit : (s.vfs.nodes n).init = (s'.vfs.nodes n).init := h.vfs.field n .init hk.init
    unfold VfsNode.contentsBase
    rw [← hinit]
    cases hi : (s.vfs.nodes n).init with
    | true => exact h.vfs.field n .address (hk.address hi)
    | false => exact h.vfs.field n .internalAddress (hk.internalAddress hi)
  refine ⟨h.vfs.field n .stSize hk.stSize, fun i hi => ?_⟩
  rw [contents_eq, contents_eq, ← hbase]
  exact (h.mem _ (hk.bytes i hi)).symm

/-- **Two runs of the same calls**, all of which read only what is known. -/
theorem SameState.calls {K : Known} {s s' : SysState} (h : SameState K s s')
    (hfiles : FilesKnown K s) {cs : List VfsCall} (hk : CallsKnown K s cs) :
    SameOutcome (vfsCalls s cs) (vfsCalls s' cs) := by
  induction cs generalizing K s s' with
  | nil => exact .some ⟨rfl, h.vfs.errno, h.files hfiles⟩
  | cons c cs ih =>
    obtain ⟨hcall, hrest⟩ := hk
    unfold vfsCalls
    rcases optionRel_cases (h.call hcall) with ⟨e, e'⟩ | ⟨⟨r, t⟩, ⟨r', t'⟩, e, e', hret, hsame⟩
    · rw [e, e']
      exact .none
    · obtain rfl : r = r' := hret
      rw [e, e', Option.bind_some, Option.bind_some]
      have hafter := ih hsame (hfiles.call hcall e) (hrest r t e)
      rcases optionRel_cases hafter with ⟨f, f'⟩ | ⟨p, p', f, f', hres, hend⟩
      · dsimp only
        rw [f, f']
        exact .none
      · dsimp only
        rw [f, f']
        refine .some ⟨?_, hend⟩
        dsimp only
        rw [hres, hsame.vfs.errno]

/-- **Old heap contents make no difference** to a run all of whose calls read only fields
and bytes that were the same to begin with, or were assigned since their block was handed
out. -/
theorem fresh_nodes_agree {K : Known} {B : Nat → Prop} {s s' : SysState} {cs : List VfsCall}
    (hstart : TwinStart K B s s') (hk : CallsKnown K s cs) :
    SameOutcome (vfsCalls s cs) (vfsCalls s' cs) :=
  hstart.same.calls hstart.files hk

/-! ### A recycled block -/

/-- `newTask`, where the next block of a node was a dot entry of the root before. -/
def recycledTask : SysState :=
  setFile newTask newTask.vfs.next fun n => { n with pointsTo := some 0 }

theorem recycledTask_start :
    TwinStart (Known.start (fun _ => False) newTask) (fun _ => False) newTask recycledTask where
  same := by
    refine ⟨⟨rfl, rfl, rfl, rfl, rfl, fun n f hf => ?_, fun _ _ => rfl⟩, fun _ _ => rfl, rfl, rfl,
      rfl⟩
    have hn : n ≠ newTask.vfs.next := Nat.ne_of_lt hf
    have hsame : recycledTask.vfs.nodes n = newTask.vfs.nodes n := by
      simp only [recycledTask, setFile, setNode, Function.update_of_ne hn]
    rw [hsame]
    cases f <;> rfl
  known := .refl _
  mounts := by decide
  range := by
    rintro n ⟨hn, hf, -⟩
    obtain rfl : n = 0 := Nat.lt_one_iff.mp hn
    cases hf
  apart := fun _ _ _ _ h => h

/-- `/a` is made, and looked up in the root. -/
def makeAndFind : List VfsCall := [.mkdir ['/', 'a'], .findNode (some 0) ['a']]

theorem makeAndFind_known : CallsKnown (Known.start (fun _ => False) newTask) newTask makeAndFind := by
  have hroot : ∀ f, (Known.start (fun _ => False) newTask).field 0 f := fun _ => Nat.one_pos
  refine ⟨fun _ => ⟨fun _ hc => absurd hc List.not_mem_nil, fun parent w hg => ?_⟩,
    fun r t hc => ⟨fun n hn => ?_, fun _ _ _ => trivial⟩⟩
  · -- the parent is the root
    have hparent : (vfsGetParent (newNode newTask.vfs emptyDir).2 newTask.vfs.root ['/', 'a']).map
        Prod.fst = some (some 0) := rfl
    rw [hg] at hparent
    obtain rfl : parent = 0 := by simpa using hparent
    exact ⟨fun root hr => by
      obtain rfl : 0 = root := Option.some.inj hr
      exact hroot _, .inl (hroot _)⟩
  · obtain rfl : 0 = n := Option.some.inj hn
    have hc' : (vfsMkdir newTask.vfs ['/', 'a']).map (fun p =>
        (VfsResult.node p.1, { newTask with vfs := p.2 })) = some (r, t) := hc
    obtain ⟨p, hm, hp⟩ := Option.map_eq_some_iff.mp hc'
    cases hp
    have hle := le_mkdirKnown (Known.start (fun _ => False) newTask) newTask.vfs ['/', 'a']
    have hmade : (vfsMkdir newTask.vfs ['/', 'a']).map (fun r =>
        ((r.2.nodes 0).pointsTo, (r.2.nodes 0).children)) = some (none, [1]) := rfl
    rw [hm] at hmade
    obtain ⟨hpoints, hchildren⟩ := Prod.mk.inj (Option.some.inj hmade)
    refine ⟨hle.field _ _ (hroot _), fun t ht => ?_, fun _ => ⟨hle.field _ _ (hroot _),
      fun c hc => ?_⟩⟩
    · rw [hpoints] at ht
      cases ht
    · rw [hchildren] at hc
      obtain rfl := List.mem_singleton.mp hc
      -- its name has been assigned
      exact .inl (.inl (.inl (.inr ⟨rfl, by decide⟩)))

/-- The directory is found, whatever its block held before. -/
theorem fresh_nodes_agree_recycled :
    SameOutcome (vfsCalls newTask makeAndFind) (vfsCalls recycledTask makeAndFind) ∧
      (vfsCalls recycledTask makeAndFind).map Prod.fst
        = some [(.node (some 1), 0), (.node (some 1), 0)] :=
  ⟨fresh_nodes_agree recycledTask_start makeAndFind_known, rfl⟩

theorem SameOutcome.results {o o' : Option (List (VfsResult × Nat) × SysState)}
    (h : SameOutcome o o') : o.map Prod.fst = o'.map Prod.fst := by
  rcases optionRel_cases h with ⟨rfl, rfl⟩ | ⟨p, p', rfl, rfl, hres, -⟩
  · rfl
  · exact congrArg some hres

/-- **A lookup follows a pointer nobody assigned**: in the new directory `/a` there is no
`a`, but where its block was a dot entry before, the one in the root is found. -/
theorem lookup_follows_old_pointer :
    ¬ ∀ (K : Known) (B : Nat → Prop) (s s' : SysState) (cs : List VfsCall),
      TwinStart K B s s' → SameOutcome (vfsCalls s cs) (vfsCalls s' cs) := by
  intro hclaim
  have hsame := (hclaim _ _ _ _ [.mkdir ['/', 'a'], .findNode (some 1) ['a']]
    recycledTask_start).results
  have hfresh : (vfsCalls newTask [.mkdir ['/', 'a'], .findNode (some 1) ['a']]).map Prod.fst
      = some [(.node (some 1), 0), (.node none, 0)] := rfl
  have hrecycled : (vfsCalls recycledTask [.mkdir ['/', 'a'], .findNode (some 1) ['a']]).map Prod.fst
      = some [(.node (some 1), 0), (.node (some 1), 0)] := rfl
  rw [hfresh, hrecycled] at hsame
  simp at hsame

end BestOS
