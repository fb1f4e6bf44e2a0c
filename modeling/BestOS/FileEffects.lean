/-
BestOS/FileEffects.lean

What each file system call does to the files.

A file is a node with a type, a mount point, a size, a buffer, an archive address
and the flag that says whether it was read (`fileData`); its cursor, its mode and
its children are no part of it.  For each call one lemma says which node it can
change, what becomes of the file there, and what it stores: `sysOpenat_files`,
`sysRead_files`, `sysWrite_files` and `sysClose_files`.
-/
import BestOS.ReadAfterWrite
import BestOS.VfsTree

namespace BestOS

open ByteMemory

/-! ### Files -/

instance (s : SysState) (n : Nat) : Decidable (OnTmpfs s n) :=
  decidable_of_iff ((s.vfs.nodes n).mountpoint.any fun m => (s.vfs.mounts m).fs = some .tmpfs)
    (by simp [OnTmpfs, Option.any_eq_true])

/-- A file of a tmpfs that is in the tree. -/
def IsFile (s : SysState) (n : Nat) : Prop :=
  n < s.vfs.next ∧ (s.vfs.nodes n).type = .file ∧ OnTmpfs s n

instance (s : SysState) (n : Nat) : Decidable (IsFile s n) := inferInstanceAs (Decidable (_ ∧ _))

/-- The fields of a node that its file depends on. -/
def VfsNode.fileData (node : VfsNode) : VfsNodeType × Option Nat × Int × Nat × Nat × Bool :=
  (node.type, node.mountpoint, node.stSize, node.address, node.internalAddress, node.init)

theorem fileData_eq {node node' : VfsNode} (h : node'.fileData = node.fileData) :
    node'.type = node.type ∧ node'.mountpoint = node.mountpoint ∧ node'.stSize = node.stSize ∧
      node'.address = node.address ∧ node'.internalAddress = node.internalAddress ∧
      node'.init = node.init := by
  simpa [VfsNode.fileData] using h

theorem onTmpfs_congr {s s' : SysState} {n : Nat}
    (hmount : (s'.vfs.nodes n).mountpoint = (s.vfs.nodes n).mountpoint)
    (hmounts : s'.vfs.mounts = s.vfs.mounts) : OnTmpfs s' n ↔ OnTmpfs s n := by
  unfold OnTmpfs
  rw [hmount, hmounts]

/-- Whether a node is a file depends on its type and on its mount point. -/
theorem isFile_congr {s s' : SysState} {n : Nat} (hnext : n < s'.vfs.next ↔ n < s.vfs.next)
    (hmounts : s'.vfs.mounts = s.vfs.mounts)
    (htype : (s'.vfs.nodes n).type = (s.vfs.nodes n).type)
    (hmount : (s'.vfs.nodes n).mountpoint = (s.vfs.nodes n).mountpoint) :
    IsFile s' n ↔ IsFile s n := by
  unfold IsFile
  rw [hnext, htype, onTmpfs_congr hmount hmounts]

/-! ### Filling a file from the archive -/

theorem toSize_of_lt {i : Int} (h0 : 0 ≤ i) (h : i < 2 ^ 64) : (toSize i : Int) = i := by
  unfold toSize
  rw [BitVec.toNat_ofInt, Int.toNat_of_nonneg (Int.emod_nonneg _ (by decide))]
  exact Int.emod_eq_of_lt h0 (by exact_mod_cast h)

theorem tmpfsLoad_of_init {s : SysState} {n : Nat} (h : (s.vfs.nodes n).init = true) :
    tmpfsLoad s n = s := by
  unfold tmpfsLoad
  simp only [h, ↓reduceIte]

/-- Memory after a file was filled from the archive. -/
theorem tmpfsLoad_mem {s : SysState} {n : Nat} (h : (s.vfs.nodes n).init = false) :
    (tmpfsLoad s n).mem =
      put (memcpy s.mem (s.vfs.nodes n).address (s.vfs.nodes n).internalAddress
        (toSize (s.vfs.nodes n).stSize))
        (toSize ((s.vfs.nodes n).address + (s.vfs.nodes n).stSize - 1)) 0xFF := by
  unfold tmpfsLoad
  simp only [h, Bool.false_eq_true, ↓reduceIte]
  rfl

/-! ### `sys_openat` -/

/-- What an open does to the files: nothing, or a node is added whose buffer is
the new block. -/
structure OpensFile (buf : Nat) (v v' : Vfs) : Prop where
  mounts : v'.mounts = v.mounts
  nodes : (v'.next = v.next ∧ ∀ i, (v'.nodes i).fileData = (v.nodes i).fileData) ∨
    (v'.next = v.next + 1 ∧ (v'.nodes v.next).address = buf ∧
      ∀ i, i ≠ v.next → (v'.nodes i).fileData = (v.nodes i).fileData)

theorem setNode_fileData (v : Vfs) (n : Nat) (f : VfsNode → VfsNode)
    (hf : ∀ node, (f node).fileData = node.fileData) (i : Nat) :
    ((setNode v n f).nodes i).fileData = (v.nodes i).fileData := by
  by_cases hi : i = n
  · subst hi
    simp only [setNode, Function.update_self, hf]
  · simp only [setNode, Function.update_of_ne hi]

theorem pushChild_fileData (v : Vfs) (i child n : Nat) :
    ((pushChild v i child).nodes n).fileData = (v.nodes n).fileData :=
  setNode_fileData v i (fun node => { node with children := node.children ++ [child] })
    (fun _ => rfl) n

theorem openIn_files {v v' : Vfs} {buf parent flags : Nat} {name : CString} {res : Option Nat}
    (ho : openIn buf v parent name flags = some (res, v')) : OpensFile buf v v' := by
  cases openIn_end ho with
  | made hf hcreat =>
    refine ⟨rfl, .inr ⟨rfl, ?_, fun i hi => ?_⟩⟩
    · refine (fileData_eq (pushChild_fileData _ parent v.next v.next)).2.2.2.1.trans ?_
      simp [newNode, setNode, newFile]
    · refine (pushChild_fileData _ parent v.next i).trans ?_
      simp [newNode, setNode, Function.update_of_ne hi]
  | missing hf hcreat => exact ⟨rfl, .inl ⟨rfl, fun _ => rfl⟩⟩
  | refused n hf hdir htype => exact ⟨rfl, .inl ⟨rfl, fun _ => rfl⟩⟩
  | found n hf =>
    -- the mode is no part of a file
    exact ⟨rfl, .inl ⟨rfl, setNode_fileData v n (fun node => { node with oMode := flags })
      fun _ => rfl⟩⟩

theorem OpensFile.same {buf : Nat} {v v' : Vfs} (hnodes : v'.nodes = v.nodes)
    (hnext : v'.next = v.next) (hmounts : v'.mounts = v.mounts) : OpensFile buf v v' :=
  ⟨hmounts, .inl ⟨hnext, fun i => by rw [hnodes]⟩⟩

theorem sysOpenat_files {buf : Nat} {grant : Bool} {s s' : SysState} {dirfd : Int} {path : CString}
    {mode : Nat} {r : Int} (h : sysOpenat buf grant s dirfd path mode = some (r, s')) :
    s'.mem = s.mem ∧ OpensFile buf s.vfs s'.vfs := by
  unfold sysOpenat at h
  split at h
  · cases h
  · split at h
    · cases h
    · next hg =>
      cases h
      obtain ⟨e, t, rfl⟩ := vfsGetParent_vfs hg
      exact ⟨rfl, .same rfl rfl rfl⟩
    · next hg =>
      obtain ⟨e, t, rfl⟩ := vfsGetParent_vfs hg
      split at h
      · cases h
      · next ho =>
        cases h
        refine ⟨rfl, ?_⟩
        -- the parent is looked up once more
        unfold vfsOpen at ho
        split at ho
        · cases ho
        · next hp =>
          cases ho
          obtain ⟨e', t', rfl⟩ := vfsGetParent_vfs hp
          exact .same rfl rfl rfl
        · next hp =>
          obtain ⟨e', t', rfl⟩ := vfsGetParent_vfs hp
          obtain ⟨hmounts, hnodes⟩ := openIn_files ho
          exact ⟨hmounts, hnodes⟩

/-! ### `sys_read` -/

/-- The characters typed are stored from the start of the buffer on. -/
theorem ttyLoop_mem {tmp j : Nat} {input rest : List (BitVec 8)} {m m' : Mem} {i : Nat}
    (h : ttyLoop tmp m i input = some (m', j, rest)) :
    j ≤ i + input.length ∧ ∀ a, (∀ k ≤ i + input.length, a ≠ tmp + k) → m' a = m a := by
  induction input generalizing m i with
  | nil => cases h
  | cons c input ih =>
    rw [List.length_cons]
    unfold ttyLoop at h
    dsimp only at h
    split at h
    · cases h
      refine ⟨by omega, fun a ha => put_ne (ha i (by omega))⟩
    · obtain ⟨hj, hmem⟩ := ih h
      refine ⟨by omega, fun a ha => ?_⟩
      rw [hmem a fun k hk => ha k (by omega), put_ne (ha i (by omega))]

/-- The number of characters stored: up to the first carriage return. -/
theorem ttyLoop_length {tmp j : Nat} {input rest : List (BitVec 8)} {m m' : Mem} {i : Nat}
    (h : ttyLoop tmp m i input = some (m', j, rest)) :
    j = i + ((input.takeWhile (· ≠ 13)).length + 1) := by
  induction input generalizing m i with
  | nil => cases h
  | cons c input ih =>
    rw [ttyLoop] at h
    split at h
    · next hc =>
      cases h
      rw [List.takeWhile_cons_of_neg (by simp [hc])]
      rfl
    · next hc =>
      rw [ih h, List.takeWhile_cons_of_pos (by simpa using hc), List.length_cons]
      omega

theorem memcpy_outside {m : Mem} {dest src n a : Nat} (h : ∀ k < n, a ≠ dest + k) :
    memcpy m dest src n a = m a := by
  apply memcpy_agree
  by_contra hin
  exact h (a - dest) (by omega) (by omega)

theorem devfsRead_mem {tmp buf n : Nat} {s s' : SysState} {r : Int}
    (h : devfsRead tmp s n buf = some (r, s')) :
    s'.vfs = s.vfs ∧
      ∀ a, (∀ k ≤ s.input.length, a ≠ tmp + k ∧ a ≠ buf + k) → s'.mem a = s.mem a := by
  unfold devfsRead at h
  split at h
  · split at h
    · cases h
    · next mem i input hloop =>
      cases h
      obtain ⟨hi, hmem⟩ := ttyLoop_mem hloop
      refine ⟨rfl, fun a ha => ?_⟩
      dsimp only
      rw [memcpy_outside fun k hk => (ha k (by omega)).2, put_ne (ha i (by omega)).1,
        hmem a fun k hk => (ha k (by omega)).1]
  · cases h
    exact ⟨rfl, fun a _ => rfl⟩

/-- Only node `n` changes. -/
structure OnlyNode (n : Nat) (v v' : Vfs) : Prop where
  next : v'.next = v.next
  mounts : v'.mounts = v.mounts
  nodes : ∀ m, m ≠ n → v'.nodes m = v.nodes m
  type : (v'.nodes n).type = (v.nodes n).type
  mountpoint : (v'.nodes n).mountpoint = (v.nodes n).mountpoint

theorem OnlyNode.isFile {n : Nat} {s s' : SysState} (h : OnlyNode n s.vfs s'.vfs) (m : Nat) :
    IsFile s' m ↔ IsFile s m := by
  by_cases hm : m = n
  · subst hm
    exact isFile_congr (by rw [h.next]) h.mounts h.type h.mountpoint
  · exact isFile_congr (by rw [h.next]) h.mounts (by rw [h.nodes m hm]) (by rw [h.nodes m hm])

theorem setNode_onlyNode (v : Vfs) (n : Nat) (f : VfsNode → VfsNode)
    (htype : (f (v.nodes n)).type = (v.nodes n).type)
    (hmount : (f (v.nodes n)).mountpoint = (v.nodes n).mountpoint) :
    OnlyNode n v (setNode v n f) where
  next := rfl
  mounts := rfl
  nodes := fun m hm => by simp only [setNode, Function.update_of_ne hm]
  type := by simpa only [setNode, Function.update_self] using htype
  mountpoint := by simpa only [setNode, Function.update_self] using hmount

theorem OnlyNode.refl (n : Nat) (v : Vfs) : OnlyNode n v v := ⟨rfl, rfl, fun _ _ => rfl, rfl, rfl⟩

theorem OnlyNode.trans {n : Nat} {v v' v'' : Vfs} (h : OnlyNode n v v') (h' : OnlyNode n v' v'') :
    OnlyNode n v v'' where
  next := h'.next.trans h.next
  mounts := h'.mounts.trans h.mounts
  nodes := fun m hm => (h'.nodes m hm).trans (h.nodes m hm)
  type := h'.type.trans h.type
  mountpoint := h'.mountpoint.trans h.mountpoint

theorem tmpfsLoad_files (s : SysState) (n : Nat) :
    OnlyNode n s.vfs (tmpfsLoad s n).vfs ∧
      ((tmpfsLoad s n).vfs.nodes n).fileData = { s.vfs.nodes n with init := true }.fileData := by
  unfold tmpfsLoad
  dsimp only
  split
  · next hinit => exact ⟨.refl n _, by simp only [VfsNode.fileData, hinit]⟩
  · refine ⟨setNode_onlyNode s.vfs n (fun node => { node with init := true }) rfl rfl, ?_⟩
    simp only [setFile, setNode, Function.update_self]

theorem tmpfsRead_files (s : SysState) (n offset count buf : Nat) :
    OnlyNode n s.vfs (tmpfsRead s n offset count buf).2.vfs ∧
      ((tmpfsRead s n offset count buf).2.vfs.nodes n).fileData
        = { s.vfs.nodes n with init := true }.fileData ∧
      ∀ a, (∀ k < count, a ≠ buf + k) →
        (tmpfsRead s n offset count buf).2.mem a = (tmpfsLoad s n).mem a := by
  obtain ⟨honly, hdata⟩ := tmpfsLoad_files s n
  unfold tmpfsRead
  dsimp only
  split
  · exact ⟨honly, hdata, fun _ _ => rfl⟩
  · have hcursor := setNode_onlyNode (tmpfsLoad s n).vfs n
      (fun node => { node with cursor := (node.cursor + count) % 2 ^ 64 }) rfl rfl
    refine ⟨honly.trans hcursor, ?_, fun a ha => memcpy_outside ha⟩
    refine Eq.trans ?_ hdata
    simp only [setFile, setNode, Function.update_self, VfsNode.fileData]

/-- What a read does to its node. -/
theorem sysRead_files {tmp buf count : Nat} {s s' : SysState} {fd r : Int}
    (h : sysRead tmp s fd buf count = some (r, s')) :
    ∃ n, fileOf s fd = some n ∧ OnlyNode n s.vfs s'.vfs ∧
      ((OnTmpfs s n ∧
          (s'.vfs.nodes n).fileData = { s.vfs.nodes n with init := true }.fileData ∧
          ∀ a, (∀ k < count, a ≠ buf + k) → s'.mem a = (tmpfsLoad s n).mem a) ∨
        (¬ OnTmpfs s n ∧ (s'.vfs.nodes n).fileData = (s.vfs.nodes n).fileData ∧
          ∀ a, (∀ k ≤ s.input.length, a ≠ tmp + k ∧ a ≠ buf + k) → s'.mem a = s.mem a)) := by
  unfold sysRead at h
  split at h
  · cases h
  · next n hn =>
    refine ⟨n, hn, ?_⟩
    split at h
    · cases h
    · next ret s₁ hread =>
      cases h
      -- the cursor, which `sys_read` moves again, is no part of the file
      have hcursor := setNode_onlyNode s₁.vfs n
        (fun node => { node with cursor := (node.cursor + count) % 2 ^ 64 }) rfl rfl
      have hsame := setNode_fileData s₁.vfs n
        (fun node => { node with cursor := (node.cursor + count) % 2 ^ 64 }) (fun _ => rfl) n
      by_cases htmpfs : OnTmpfs s n
      · rw [vfsRead_tmpfs htmpfs] at hread
        obtain ⟨honly, hdata, hmem⟩ := tmpfsRead_files s n (s.vfs.nodes n).cursor count buf
        rw [Option.some.inj hread] at honly hdata hmem
        exact ⟨honly.trans hcursor, .inl ⟨htmpfs, hsame.trans hdata, hmem⟩⟩
      · obtain ⟨hvfs, hmem⟩ := devfsRead_mem (vfsRead_devfs htmpfs hread)
        have hrefl : OnlyNode n s.vfs s₁.vfs := hvfs ▸ .refl n s₁.vfs
        exact ⟨hrefl.trans hcursor, .inr ⟨htmpfs, by rw [← hvfs]; exact hsame, hmem⟩⟩

/-! ### `sys_write` -/

theorem tmpfsWrite_onlyNode (g : Grant) (s : SysState) (n count buf : Nat) :
    OnlyNode n s.vfs (tmpfsWrite g s n count buf).2.vfs := by
  rw [tmpfsWrite_eq]
  exact ⟨rfl, rfl, fun m hm => by simp only [setNode, Function.update_of_ne hm],
    by simp only [setNode, Function.update_self], by simp only [setNode, Function.update_self]⟩

theorem devfsWrite_files (s : SysState) (n count : Nat) :
    OnlyNode n s.vfs (devfsWrite s n count).2.vfs ∧ (devfsWrite s n count).2.mem = s.mem := by
  unfold devfsWrite
  split
  · exact ⟨setNode_onlyNode s.vfs n (fun node =>
      { node with
        cursor := (node.cursor + count) % 2 ^ 64
        stSize := toOff (node.stSize + count) }) rfl rfl, rfl⟩
  · exact ⟨.refl n _, rfl⟩

/-- What a write does to its node, and to memory. -/
theorem sysWrite_files {g : Grant} {buf count n : Nat} {s s' : SysState} {fd r : Int}
    (hn : fileOf s fd = some n) (h : sysWrite g s fd buf count = some (r, s')) :
    OnlyNode n s.vfs s'.vfs ∧
      ((OnTmpfs s n ∧ (s'.vfs.nodes n).address = (writeRoom g s n count).1 ∧
          s'.mem = memcpy (writeRoom g s n count).2
            (((writeRoom g s n count).1 + (s.vfs.nodes n).writeOffset) % 2 ^ 64) buf count) ∨
        (¬ OnTmpfs s n ∧ s'.mem = s.mem)) := by
  unfold sysWrite at h
  rw [hn] at h
  dsimp only at h
  by_cases htmpfs : OnTmpfs s n
  · rw [vfsWrite_tmpfs htmpfs] at h
    cases h
    refine ⟨tmpfsWrite_onlyNode g s n count buf, .inl ⟨htmpfs, ?_, ?_⟩⟩
    · simp only [tmpfsWrite_eq, setNode, Function.update_self]
    · rw [tmpfsWrite_eq]
  · obtain ⟨honly, hmem⟩ := devfsWrite_files s n count
    rw [vfsWrite_devfs htmpfs h]
    exact ⟨honly, .inr ⟨htmpfs, hmem⟩⟩

/-! ### `sys_close` -/

/-- The node that `sys_close` resets, and whose buffer it gives back. -/
def closeTarget (s : SysState) (fildes : Nat) : Option Nat :=
  fileOf { s with task :=
    { s.task with descriptors := vecSplice s.task.descriptors fildes 1 } } fildes

theorem sysClose_files {s s' : SysState} {fildes : Nat} (h : sysClose s fildes = some s') :
    ∃ n, closeTarget s fildes = some n ∧ OnlyNode n s.vfs s'.vfs ∧ s'.mem = s.mem := by
  unfold sysClose at h
  dsimp only at h
  split at h
  · cases h
  · next n hn =>
    cases h
    exact ⟨n, hn, setNode_onlyNode s.vfs n (fun node =>
      { node with
        init := false
        cursor := 0 }) rfl rfl, rfl⟩

end BestOS
