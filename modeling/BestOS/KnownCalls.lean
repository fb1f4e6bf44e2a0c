/-
BestOS/KnownCalls.lean

One call of the file system in two states that agree on what is known.

The calls are `vfs_mkdir`, `vfs_open`, `vfs_find_node`, `vfs_read` and `vfs_write`.
Beside the fields of nodes (`SameVfs`) the two states agree on the bytes of memory
that are known; `copiedOn` says where they agree after a copy.

`CallKnown` says of a call that it reads nothing that is not known, and that the file
it makes or writes to is left with a size and with bytes that are.  `SameState.call`:
such a call does the same in both states.
-/
import BestOS.KnownFields

namespace BestOS

open ByteMemory

/-! ### Calls -/

/-- One call; `buf` of an open, `tmp` and the grant of a write are what `malloc` and
`realloc` return. -/
inductive VfsCall
  | mkdir (path : CString)
  | openFile (buf : Nat) (start : Option Nat) (path : CString) (flags : Nat)
  | findNode (start : Option Nat) (name : CString)
  | read (tmp n offset count buf : Nat)
  | write (g : Grant) (n count buf : Nat)

/-- What a call returns: a node, or a number and the bytes in the caller's buffer. -/
inductive VfsResult
  | node (p : Option Nat)
  | bytes (ret : Int) (data : List (BitVec 8))

/-- The characters typed up to the first carriage return. -/
def lineLength (s : SysState) : Nat := (s.input.takeWhile (· ≠ 13)).length + 1

/-- How many bytes a read stores in the caller's buffer. -/
def readCount (s : SysState) (n count buf : Nat) : Nat :=
  match nodeFs s.vfs n with
  | some .tmpfs => if buf = 0 then 0 else count
  | some .devfs => if strEq (s.vfs.nodes n).name ['t', 't', 'y'] then lineLength s else 0
  | none => 0

/-- One call from `s`; `none` where it does not return. -/
def vfsCall (s : SysState) : VfsCall → Option (VfsResult × SysState)
  | .mkdir path => (vfsMkdir s.vfs path).map fun r => (.node r.1, { s with vfs := r.2 })
  | .openFile buf start path flags =>
      (vfsOpen buf s.vfs start path flags).map fun r => (.node r.1, { s with vfs := r.2 })
  | .findNode start name => (vfsFindNode s.vfs start name).map fun p => (.node p, s)
  | .read tmp n offset count buf =>
      (vfsRead tmp s n offset count buf).map fun r =>
        (.bytes r.1 ((List.range (readCount s n count buf)).map fun i => r.2.mem (buf + i)), r.2)
  | .write g n count buf => (vfsWrite g s n count buf).map fun r => (.bytes r.1 [], r.2)

/-- A sequence of calls: what each returns and `errno` after it, and the last state. -/
def vfsCalls (s : SysState) : List VfsCall → Option (List (VfsResult × Nat) × SysState)
  | [] => some ([], s)
  | c :: cs =>
    (vfsCall s c).bind fun r =>
      (vfsCalls r.2 cs).map fun rs => ((r.1, r.2.vfs.errno) :: rs.1, rs.2)

/-! ### Two states -/

/-- The bytes of a range are known. -/
def Known.store (K : Known) (a size : Nat) : Known :=
  { K with byte := fun x => K.byte x ∨ a ≤ x ∧ x < a + size }

/-- Two states that agree on what is known. -/
structure SameState (K : Known) (s s' : SysState) : Prop where
  vfs : SameVfs K s.vfs s'.vfs
  mem : AgreeOn K.byte s.mem s'.mem
  task : s.task = s'.task
  freed : s.freed = s'.freed
  input : s.input = s'.input

/-- Two calls that both fail, or return the same and leave states that agree. -/
def SameReturn {α : Type} (K : Known) : Option (α × SysState) → Option (α × SysState) → Prop :=
  Option.Rel fun r r' => r.1 = r'.1 ∧ SameState K r.2 r'.2

/-- The filesystem of a node is known. -/
structure FsKnown (K : Known) (s : SysState) (n : Nat) : Prop where
  mountpoint : K.field n .mountpoint
  fs : ∀ m, (s.vfs.nodes n).mountpoint = some m → K.mount m

section

variable {K : Known} {s s' : SysState}

theorem SameVfs.withByte {v v' : Vfs} (h : SameVfs K v v') (B : Nat → Prop) :
    SameVfs { K with byte := B } v v' :=
  ⟨h.next, h.nextMount, h.root, h.errno, h.strtok, h.field, h.mount⟩

/-- The trees after a call that leaves memory alone. -/
theorem SameState.withVfs {K' : Known} {v v' : Vfs} (h : SameState K s s') (hv : SameVfs K' v v')
    (hbyte : K'.byte = K.byte) : SameState K' { s with vfs := v } { s' with vfs := v' } :=
  ⟨hv, by rw [hbyte]; exact h.mem, h.task, h.freed, h.input⟩

theorem SameState.withMem (h : SameState K s s') {B : Nat → Prop} {m m' : Mem}
    (hm : AgreeOn B m m') :
    SameState { K with byte := B } { s with mem := m } { s' with mem := m' } :=
  ⟨h.vfs.withByte B, hm, h.task, h.freed, h.input⟩

theorem SameState.assign (h : SameState K s s') (n : Nat) {g : VfsNode → VfsNode}
    {fs : List NodeField} (hg : Assigns g fs) :
    SameState (K.assign n fs) (setFile s n g) (setFile s' n g) :=
  h.withVfs (h.vfs.assign n hg) rfl

theorem SameState.mono {K' : Known} (h : SameState K' s s') (hle : K.Le K') : SameState K s s' :=
  ⟨h.vfs.mono hle, h.mem.mono hle.byte, h.task, h.freed, h.input⟩

/-- An update that reads the field it changes. -/
theorem SameState.setFile (h : SameState K s s') (n : Nat) {g : VfsNode → VfsNode}
    (hg : Assigns g []) : SameState K (setFile s n g) (setFile s' n g) :=
  (h.assign n hg).mono (K.le_assign n [])

theorem SameState.nodeFs (h : SameState K s s') {n : Nat} (hk : FsKnown K s n) :
    nodeFs s.vfs n = nodeFs s'.vfs n := by
  have hmount : (s.vfs.nodes n).mountpoint = (s'.vfs.nodes n).mountpoint :=
    h.vfs.field n .mountpoint hk.mountpoint
  unfold BestOS.nodeFs
  rw [← hmount]
  exact Option.bind_congr fun m hm => h.vfs.mount m (hk.fs m hm)

end

/-! ### `vfs_read` -/

/-- What the first read of a file reads: its fields and the bytes in the archive.  The
copy does not run over the end of the address space. -/
structure LoadKnown (K : Known) (s : SysState) (n : Nat) : Prop where
  init : K.field n .init
  fields : (s.vfs.nodes n).init = false →
    K.field n .address ∧ K.field n .internalAddress ∧ K.field n .stSize
  bytes : (s.vfs.nodes n).init = false → ∀ i < toSize (s.vfs.nodes n).stSize,
    K.byte ((s.vfs.nodes n).internalAddress + i)
  below : (s.vfs.nodes n).init = false →
    (s.vfs.nodes n).internalAddress + toSize (s.vfs.nodes n).stSize ≤ 2 ^ 64 ∧
      (s.vfs.nodes n).address + toSize (s.vfs.nodes n).stSize ≤ 2 ^ 64

/-- What is known once the file is filled. -/
def loadKnown (K : Known) (s : SysState) (n : Nat) : Known :=
  if (s.vfs.nodes n).init then K
  else
    (K.store (s.vfs.nodes n).address (toSize (s.vfs.nodes n).stSize)).store
      (toSize ((s.vfs.nodes n).address + (s.vfs.nodes n).stSize - 1)) 1

/-- What `vfs_read` reads.  The offset is added to the address in 64 bits, and from
there the copy does not run over the end of the address space. -/
structure ReadKnown (K : Known) (s : SysState) (n offset count buf : Nat) : Prop where
  fs : FsKnown K s n
  load : nodeFs s.vfs n = some .tmpfs → LoadKnown K s n
  address : nodeFs s.vfs n = some .tmpfs → buf ≠ 0 → K.field n .address
  bytes : nodeFs s.vfs n = some .tmpfs → buf ≠ 0 → ∀ i < count,
    (loadKnown K s n).byte (((s.vfs.nodes n).address + offset) % 2 ^ 64 + i)
  below : nodeFs s.vfs n = some .tmpfs → buf ≠ 0 →
    ((s.vfs.nodes n).address + offset) % 2 ^ 64 + count ≤ 2 ^ 64 ∧ buf + count ≤ 2 ^ 64
  name : nodeFs s.vfs n = some .devfs → K.field n .name

/-- What is known after `vfs_read`. -/
def readKnown (K : Known) (tmp : Nat) (s : SysState) (n count buf : Nat) : Known :=
  match nodeFs s.vfs n with
  | some .tmpfs => if buf = 0 then loadKnown K s n else (loadKnown K s n).store buf count
  | some .devfs =>
      if strEq (s.vfs.nodes n).name ['t', 't', 'y'] then
        (K.store tmp (lineLength s + 1)).store buf (lineLength s)
      else K
  | none => K

/-- The characters typed are the same, and so is what is stored. -/
theorem ttyLoop_agreeOn {G : Nat → Prop} {m m' : Mem} (h : AgreeOn G m m') (tmp i : Nat)
    (input : List (BitVec 8)) :
    Option.Rel (fun r r' => r.2 = r'.2 ∧
        AgreeOn (fun x => G x ∨ tmp + i ≤ x ∧ x < tmp + r.2.1) r.1 r'.1)
      (ttyLoop tmp m i input) (ttyLoop tmp m' i input) := by
  induction input generalizing G m m' i with
  | nil => exact .none
  | cons c input ih =>
    have hput := h.put (tmp + i) c
    rw [ttyLoop, ttyLoop]
    by_cases hc : c = 13
    · rw [if_pos hc, if_pos hc]
      refine .some ⟨rfl, hput.mono fun x hx => hx.imp_right fun hx => ?_⟩
      dsimp only at hx
      omega
    · rw [if_neg hc, if_neg hc]
      rcases optionRel_cases (ih hput (i + 1)) with ⟨e, e'⟩ | ⟨r, r', e, e', hr, hmem⟩
      · rw [e, e']
        exact .none
      · rw [e, e']
        refine .some ⟨hr, hmem.mono fun x hx => ?_⟩
        rcases hx with hx | hx
        · exact .inl (.inl hx)
        · by_cases hxi : x = tmp + i
          · exact .inl (.inr hxi)
          · exact .inr (by omega)

theorem tmpfsLoad_of_not_init {s : SysState} {n : Nat} (h : (s.vfs.nodes n).init = false) :
    tmpfsLoad s n =
      setFile { s with mem := (tmpfsLoad s n).mem } n fun node => { node with init := true } := by
  unfold tmpfsLoad
  simp only [h, Bool.false_eq_true, ↓reduceIte]
  rfl

theorem assigns_init : Assigns (fun n => { n with init := true }) [.init] := by
  intro a b f hf
  cases f <;> simp_all

theorem assigns_cursor (count : Nat) :
    Assigns (fun n => { n with cursor := (n.cursor + count) % 2 ^ 64 }) [] := by
  intro a b f hf
  cases f <;> simp_all

section

variable {K : Known} {s s' : SysState}

theorem SameState.tmpfsLoad (h : SameState K s s') {n : Nat} (hk : LoadKnown K s n) :
    SameState (loadKnown K s n) (tmpfsLoad s n) (tmpfsLoad s' n) := by
  have hinit : (s.vfs.nodes n).init = (s'.vfs.nodes n).init := h.vfs.field n .init hk.init
  unfold loadKnown
  cases hi : (s.vfs.nodes n).init with
  | true =>
    rw [if_pos rfl, tmpfsLoad_of_init hi, tmpfsLoad_of_init (hinit.symm.trans hi)]
    exact h
  | false =>
    have hi' : (s'.vfs.nodes n).init = false := hinit.symm.trans hi
    obtain ⟨haddr, hint, hsize⟩ := hk.fields hi
    have haddr' : (s.vfs.nodes n).address = (s'.vfs.nodes n).address := h.vfs.field n .address haddr
    have hint' : (s.vfs.nodes n).internalAddress = (s'.vfs.nodes n).internalAddress :=
      h.vfs.field n .internalAddress hint
    have hsize' : (s.vfs.nodes n).stSize = (s'.vfs.nodes n).stSize := h.vfs.field n .stSize hsize
    have hcopy := (agreeOn_memcpy h.mem (s.vfs.nodes n).address (s.vfs.nodes n).internalAddress
      (toSize (s.vfs.nodes n).stSize)).mono fun x hx => copiedOn_of_source (hk.bytes hi) hx
    have hlast := hcopy.put (toSize ((s.vfs.nodes n).address + (s.vfs.nodes n).stSize - 1)) 0xFF
    rw [if_neg (by decide), tmpfsLoad_of_not_init hi, tmpfsLoad_of_not_init hi', tmpfsLoad_mem hi,
      tmpfsLoad_mem hi', ← haddr', ← hint', ← hsize']
    refine SameState.mono (SameState.assign (h.withMem (hlast.mono fun x hx => ?_)) n assigns_init)
      (Known.le_assign _ _ _)
    exact hx.imp_right fun hx => by omega

theorem loadKnown_field (K : Known) (s : SysState) (n : Nat) :
    (loadKnown K s n).field = K.field := by
  unfold loadKnown
  split <;> rfl

theorem SameState.tmpfsRead (h : SameState K s s') {n offset count buf : Nat}
    (hload : LoadKnown K s n) (haddr : buf ≠ 0 → K.field n .address)
    (hbytes : buf ≠ 0 → ∀ i < count,
      (loadKnown K s n).byte (((s.vfs.nodes n).address + offset) % 2 ^ 64 + i)) :
    (tmpfsRead s n offset count buf).1 = (tmpfsRead s' n offset count buf).1 ∧
      SameState (if buf = 0 then loadKnown K s n else (loadKnown K s n).store buf count)
        (tmpfsRead s n offset count buf).2 (tmpfsRead s' n offset count buf).2 := by
  have hfilled := h.tmpfsLoad hload
  obtain ⟨-, hdata⟩ := tmpfsLoad_files s n
  unfold BestOS.tmpfsRead
  dsimp only
  by_cases hbuf : buf = 0
  · rw [if_pos hbuf, if_pos hbuf, if_pos hbuf]
    exact ⟨rfl, hfilled⟩
  · rw [if_neg hbuf, if_neg hbuf, if_neg hbuf]
    have hsame : ((BestOS.tmpfsLoad s n).vfs.nodes n).address
        = ((BestOS.tmpfsLoad s' n).vfs.nodes n).address :=
      hfilled.vfs.field n .address (by rw [loadKnown_field]; exact haddr hbuf)
    have hsrc : ((BestOS.tmpfsLoad s n).vfs.nodes n).address = (s.vfs.nodes n).address :=
      (fileData_eq hdata).2.2.2.1
    rw [← hsame, hsrc]
    have hcopy := (agreeOn_memcpy hfilled.mem buf
      (((s.vfs.nodes n).address + offset) % 2 ^ 64) count).mono
        fun x hx => copiedOn_of_source (hbytes hbuf) hx
    exact ⟨rfl, SameState.setFile (hfilled.withMem hcopy) n (assigns_cursor count)⟩

theorem SameState.devfsRead (h : SameState K s s') {tmp n buf : Nat} (hname : K.field n .name) :
    SameReturn
      (if strEq (s.vfs.nodes n).name ['t', 't', 'y'] then
        (K.store tmp (lineLength s + 1)).store buf (lineLength s) else K)
      (devfsRead tmp s n buf) (devfsRead tmp s' n buf) := by
  have hsame : (s.vfs.nodes n).name = (s'.vfs.nodes n).name := h.vfs.field n .name hname
  unfold BestOS.devfsRead
  rw [← hsame, ← h.input, ← h.freed]
  by_cases htty : strEq (s.vfs.nodes n).name ['t', 't', 'y'] = true
  · rw [if_pos htty, if_pos htty, if_pos htty]
    rcases optionRel_cases (ttyLoop_agreeOn h.mem tmp 0 s.input) with
      ⟨e, e'⟩ | ⟨⟨m, i, input⟩, ⟨m', i', input'⟩, e, e', heq, hmem⟩
    · rw [e, e']
      exact .none
    · obtain ⟨rfl, rfl⟩ := Prod.mk.inj heq
      have hlen : i = lineLength s := by rw [ttyLoop_length e, Nat.zero_add]; rfl
      rw [e, e']
      have hline : AgreeOn (K.store tmp (i + 1)).byte (put m (tmp + i) 0xFF) (put m' (tmp + i) 0xFF) :=
        (hmem.put (tmp + i) 0xFF).mono fun x hx => by
          rcases hx with hx | hx
          · exact .inl (.inl hx)
          · by_cases hlast : x = tmp + i
            · exact .inr hlast
            · exact .inl (.inr ⟨hx.1, by dsimp only; omega⟩)
      have hcopy := (agreeOn_memcpy hline buf tmp i).mono fun x hx =>
        copiedOn_of_source (fun k hk => .inr ⟨by omega, by omega⟩) hx
      rw [← hlen]
      exact .some ⟨rfl, (h.vfs.withByte _).withByte _, hcopy, h.task, rfl, rfl⟩
  · rw [if_neg htty, if_neg htty, if_neg htty]
    exact .some ⟨rfl, h⟩

/-- **`vfs_read`** from two states that agree on what it reads. -/
theorem SameState.vfsRead (h : SameState K s s') (tmp : Nat) {n offset count buf : Nat}
    (hk : ReadKnown K s n offset count buf) :
    SameReturn (readKnown K tmp s n count buf) (vfsRead tmp s n offset count buf)
      (vfsRead tmp s' n offset count buf) := by
  rw [vfsRead_nodeFs, vfsRead_nodeFs, ← h.nodeFs hk.fs]
  unfold readKnown
  cases hfs : BestOS.nodeFs s.vfs n with
  | none => exact .none
  | some fs =>
    cases fs with
    | tmpfs => exact .some (h.tmpfsRead (hk.load hfs) (hk.address hfs) (hk.bytes hfs))
    | devfs => exact h.devfsRead (hk.name hfs)

theorem SameState.readCount (h : SameState K s s') {n offset count buf : Nat}
    (hk : ReadKnown K s n offset count buf) :
    readCount s n count buf = readCount s' n count buf := by
  unfold BestOS.readCount lineLength
  rw [← h.nodeFs hk.fs, ← h.input]
  cases hfs : BestOS.nodeFs s.vfs n with
  | none => rfl
  | some fs =>
    cases fs with
    | tmpfs => rfl
    | devfs =>
      have hname : (s.vfs.nodes n).name = (s'.vfs.nodes n).name :=
        h.vfs.field n .name (hk.name hfs)
      dsimp only
      rw [← hname]

/-- The bytes a read has stored are known. -/
theorem readKnown_data (K : Known) (tmp : Nat) (s : SysState) (n count buf : Nat) {i : Nat}
    (hi : i < readCount s n count buf) : (readKnown K tmp s n count buf).byte (buf + i) := by
  unfold readCount at hi
  unfold readKnown
  split <;> simp only [*] at hi
  · split
    · next hbuf => simp [hbuf] at hi
    · next hbuf =>
      rw [if_neg hbuf] at hi
      exact .inr ⟨by omega, by omega⟩
  · split
    · next hname =>
      rw [if_pos hname] at hi
      exact .inr ⟨by omega, by omega⟩
    · next hname => simp [hname] at hi
  · omega

end

/-! ### `vfs_write` -/

/-- What is known after `realloc`, if `G` was known before. -/
def reallocOn (G : Nat → Prop) (g : Grant) (p size : Nat) : Nat → Prop :=
  if size = 0 then G
  else if p = 0 then G
  else
    let realSize := toInt g.tagSize
    let realSize := if realSize > toInt size then toInt size else realSize
    copiedOn G g.ptr p (toSize realSize)

/-- What is known of memory once a write has made room. -/
def roomOn (K : Known) (g : Grant) (s : SysState) (n count : Nat) : Nat → Prop :=
  if (s.vfs.nodes n).Grows then
    reallocOn K.byte g (s.vfs.nodes n).address (growSize (s.vfs.nodes n) count)
  else K.byte

/-- What is known of memory after `tmpfs_write`. -/
def writtenOn (K : Known) (g : Grant) (s : SysState) (n count buf : Nat) : Nat → Prop :=
  copiedOn (roomOn K g s n count)
    (((writeRoom g s n count).1 + (s.vfs.nodes n).writeOffset) % 2 ^ 64) buf count

/-- Where the contents of a file start. -/
def VfsNode.contentsBase (node : VfsNode) : Nat :=
  if node.init then node.address else node.internalAddress

/-- What `tmpfs_write` reads; and the file has known bytes up to its new end, and the
other files keep theirs.  The copy does not run over the end of the address space. -/
structure TmpfsWriteKnown (K : Known) (g : Grant) (s : SysState) (n count buf : Nat) : Prop where
  oMode : K.field n .oMode
  stSize : K.field n .stSize
  address : K.field n .address
  cursor : (s.vfs.nodes n).oMode &&& O_APPEND = 0 → K.field n .cursor
  below : ((writeRoom g s n count).1 + (s.vfs.nodes n).writeOffset) % 2 ^ 64 + count ≤ 2 ^ 64 ∧
    buf + count ≤ 2 ^ 64
  own : IsFile s n → ∀ i : Nat, i < toOff ((s.vfs.nodes n).stSize + count) →
    writtenOn K g s n count buf
      (VfsNode.contentsBase { s.vfs.nodes n with address := (writeRoom g s n count).1 } + i)
  others : ∀ m, m ≠ n → IsFile s m → ∀ i : Nat, i < (s.vfs.nodes m).stSize →
    writtenOn K g s n count buf ((s.vfs.nodes m).contentsBase + i)

/-- What `vfs_write` reads. -/
structure WriteKnown (K : Known) (g : Grant) (s : SysState) (n count buf : Nat) : Prop where
  fs : FsKnown K s n
  tmpfs : nodeFs s.vfs n = some .tmpfs → TmpfsWriteKnown K g s n count buf
  name : nodeFs s.vfs n = some .devfs → K.field n .name

/-- What is known after `vfs_write`. -/
def writeKnown (K : Known) (g : Grant) (s : SysState) (n count buf : Nat) : Known :=
  match nodeFs s.vfs n with
  | some .tmpfs => { K.assign n [.cursor] with byte := writtenOn K g s n count buf }
  | _ => K

theorem agreeOn_realloc {G : Nat → Prop} {m m' : Mem} (h : AgreeOn G m m') (g : Grant)
    (p size : Nat) :
    (realloc g m p size).1 = (realloc g m' p size).1 ∧
      AgreeOn (reallocOn G g p size) (realloc g m p size).2 (realloc g m' p size).2 := by
  unfold realloc reallocOn
  by_cases hsize : size = 0
  · rw [if_pos hsize, if_pos hsize, if_pos hsize]
    exact ⟨rfl, h⟩
  · rw [if_neg hsize, if_neg hsize, if_neg hsize]
    by_cases hp : p = 0
    · rw [if_pos hp, if_pos hp, if_pos hp]
      exact ⟨rfl, h⟩
    · rw [if_neg hp, if_neg hp, if_neg hp]
      exact ⟨rfl, agreeOn_memcpy h g.ptr p _⟩

theorem tmpfsWrite_ret (g : Grant) (s : SysState) (n count buf : Nat) :
    (tmpfsWrite g s n count buf).1
      = if (s.vfs.nodes n).oMode &&& O_APPEND ≠ 0 then 0 else toInt count := by
  unfold tmpfsWrite
  split <;> rfl

/-- Two nodes between which a write makes no difference. -/
structure SameWrite (a b : VfsNode) : Prop where
  append : a.oMode &&& O_APPEND ≠ 0 ↔ b.oMode &&& O_APPEND ≠ 0
  grows : a.Grows ↔ b.Grows
  offset : a.writeOffset = b.writeOffset
  cursor : ∀ count, a.writeCursor count = b.writeCursor count
  size : ∀ count, growSize a count = growSize b count

theorem sameWrite {a b : VfsNode} (hmode : a.oMode = b.oMode) (hsize : a.stSize = b.stSize)
    (hcursor : a.oMode &&& O_APPEND = 0 → a.cursor = b.cursor) : SameWrite a b := by
  by_cases happ : a.oMode &&& O_APPEND = 0
  · have hcur := hcursor happ
    refine ⟨?_, ?_, ?_, fun count => ?_, fun count => ?_⟩ <;>
      simp only [VfsNode.Grows, VfsNode.writeOffset, VfsNode.writeCursor, growSize, hmode, hsize,
        hcur]
  · have happ' : b.oMode &&& O_APPEND ≠ 0 := by rw [← hmode]; exact happ
    refine ⟨?_, ?_, ?_, fun count => ?_, fun count => ?_⟩ <;>
      simp [VfsNode.Grows, VfsNode.writeOffset, VfsNode.writeCursor, growSize, hmode, hsize, happ']

section

variable {K : Known} {s s' : SysState}

theorem SameState.writeRoom (h : SameState K s s') (g : Grant) {n : Nat} (count : Nat)
    (hw : SameWrite (s.vfs.nodes n) (s'.vfs.nodes n))
    (haddr : (s.vfs.nodes n).address = (s'.vfs.nodes n).address) :
    (writeRoom g s n count).1 = (writeRoom g s' n count).1 ∧
      AgreeOn (roomOn K g s n count) (writeRoom g s n count).2 (writeRoom g s' n count).2 := by
  unfold BestOS.writeRoom roomOn
  rw [← haddr, ← hw.size]
  by_cases hgrow : (s.vfs.nodes n).Grows
  · rw [if_pos hgrow, if_pos hgrow, if_pos (hw.grows.mp hgrow)]
    exact agreeOn_realloc h.mem g _ _
  · rw [if_neg hgrow, if_neg hgrow, if_neg fun hc => hgrow (hw.grows.mpr hc)]
    exact ⟨rfl, h.mem⟩

theorem SameState.tmpfsWrite (h : SameState K s s') {g : Grant} {n count buf : Nat}
    (hk : TmpfsWriteKnown K g s n count buf) :
    (tmpfsWrite g s n count buf).1 = (tmpfsWrite g s' n count buf).1 ∧
      SameState { K.assign n [.cursor] with byte := writtenOn K g s n count buf }
        (tmpfsWrite g s n count buf).2 (tmpfsWrite g s' n count buf).2 := by
  have haddr : (s.vfs.nodes n).address = (s'.vfs.nodes n).address :=
    h.vfs.field n .address hk.address
  have hsize : (s.vfs.nodes n).stSize = (s'.vfs.nodes n).stSize := h.vfs.field n .stSize hk.stSize
  have hw : SameWrite (s.vfs.nodes n) (s'.vfs.nodes n) :=
    sameWrite (h.vfs.field n .oMode hk.oMode) hsize
      fun happ => h.vfs.field n .cursor (hk.cursor happ)
  obtain ⟨hroom, hmem⟩ := h.writeRoom g count hw haddr
  rw [tmpfsWrite_ret, tmpfsWrite_ret, tmpfsWrite_eq, tmpfsWrite_eq]
  refine ⟨if_congr hw.append rfl rfl, ?_, ?_, h.task, ?_, h.input⟩
  · dsimp only
    refine SameVfs.withByte (K := K.assign n [.cursor]) ?_ _
    refine h.vfs.setNode n (fun m (hm : (K.assign n [.cursor]).mount m) => hm)
      (fun m f hm hf => ?_) fun f hf => ?_
    · exact hf.resolve_right fun heq => hm heq.1
    · have hold : f ≠ .cursor → SameField (s.vfs.nodes n) (s'.vfs.nodes n) f := fun hne =>
        h.vfs.field n f (hf.resolve_right fun heq => hne (List.mem_singleton.mp heq.2))
      cases f with
      | cursor => exact hw.cursor count
      | address => exact hroom
      | stSize => exact congrArg (fun i => toOff (i + count)) hsize
      | _ => exact hold (by decide)
  · rw [← hroom, ← hw.offset]
    exact agreeOn_memcpy hmem _ _ _
  · rw [← haddr, ← h.freed]
    exact if_congr (and_congr_left' hw.grows) rfl rfl

theorem SameState.devfsWrite (h : SameState K s s') {n : Nat} (count : Nat) (hname : K.field n .name) :
    (devfsWrite s n count).1 = (devfsWrite s' n count).1 ∧
      SameState K (devfsWrite s n count).2 (devfsWrite s' n count).2 := by
  have hsame : (s.vfs.nodes n).name = (s'.vfs.nodes n).name := h.vfs.field n .name hname
  unfold BestOS.devfsWrite
  rw [← hsame]
  split
  · refine ⟨rfl, h.setFile n ?_⟩
    intro a b f hf
    cases f <;> simp_all
  · exact ⟨rfl, h⟩

/-- **`vfs_write`** from two states that agree on what it reads. -/
theorem SameState.vfsWrite (h : SameState K s s') {g : Grant} {n count buf : Nat}
    (hk : WriteKnown K g s n count buf) :
    SameReturn (writeKnown K g s n count buf) (vfsWrite g s n count buf)
      (vfsWrite g s' n count buf) := by
  rw [vfsWrite_nodeFs, vfsWrite_nodeFs, ← h.nodeFs hk.fs]
  unfold writeKnown
  cases hfs : BestOS.nodeFs s.vfs n with
  | none => exact .none
  | some fs =>
    cases fs with
    | tmpfs =>
      obtain ⟨hret, hstate⟩ := h.tmpfsWrite (hk.tmpfs hfs)
      exact .some ⟨by dsimp only; rw [hret], hstate⟩
    | devfs =>
      obtain ⟨hret, hstate⟩ := h.devfsWrite count (hk.name hfs)
      exact .some ⟨by dsimp only; rw [hret], hstate⟩

end

/-! ### One call -/

/-- What the block of a new file has to hold already: `vfs_open` assigns neither the size,
nor the flag, nor the archive address, and the file has bytes if the size says so. -/
structure NewFileKnown (K : Known) (s : SysState) (buf parent : Nat) : Prop where
  fs : ∀ m, (s.vfs.nodes parent).mountpoint = some m → K.mount m
  stSize : OnTmpfs s parent →
    K.field s.vfs.next .stSize ∧ (s.vfs.nodes s.vfs.next).stSize < 2 ^ 63
  init : OnTmpfs s parent → K.field s.vfs.next .init
  internalAddress : OnTmpfs s parent → (s.vfs.nodes s.vfs.next).init = false →
    K.field s.vfs.next .internalAddress
  bytes : OnTmpfs s parent → ∀ i : Nat, i < (s.vfs.nodes s.vfs.next).stSize →
    K.byte (VfsNode.contentsBase { s.vfs.nodes s.vfs.next with address := buf } + i)

/-- A call reads only what is known, and the file it makes or writes to is known. -/
def CallKnown (K : Known) (s : SysState) : VfsCall → Prop
  | .mkdir path => strEq path ['/'] = false → MkdirKnown K s.vfs path
  | .openFile buf _ path flags => OpenKnown K s.vfs path flags ∧
      ∀ parent w, vfsGetParent s.vfs s.vfs.root path = some (some parent, w) →
        Creates w parent (basename path) flags → NewFileKnown K s buf parent
  | .findNode start name => ∀ n, start = some n → LookupKnown K s.vfs n name
  | .read _ n offset count buf => ReadKnown K s n offset count buf
  | .write g n count buf => WriteKnown K g s n count buf

/-- What is known after the call. -/
def Known.after (K : Known) (s : SysState) : VfsCall → Known
  | .mkdir path => mkdirKnown K s.vfs path
  | .openFile _ _ path flags => openKnown K s.vfs path flags
  | .findNode _ _ => K
  | .read tmp n _ count buf => readKnown K tmp s n count buf
  | .write g n count buf => writeKnown K g s n count buf

theorem mkdirKnown_byte (K : Known) (v : Vfs) (path : CString) :
    (mkdirKnown K v path).byte = K.byte := by
  unfold mkdirKnown
  dsimp only
  split
  · rfl
  · split <;> rfl

theorem openKnown_byte (K : Known) (v : Vfs) (path : CString) (flags : Nat) :
    (openKnown K v path flags).byte = K.byte := by
  unfold openKnown openInKnown
  split
  · split
    · split <;> rfl
    · split <;> rfl
    · rfl
  · rfl

section

variable {K : Known} {s s' : SysState}

/-- A call that returns a node, or fails, in both trees alike. -/
theorem SameState.returnsNode (h : SameState K s s') {K' : Known}
    {r r' : Option (Option Nat × Vfs)} (hr : SameEnd K' r r') (hbyte : K'.byte = K.byte) :
    SameReturn K' (r.map fun p => (VfsResult.node p.1, { s with vfs := p.2 }))
      (r'.map fun p => (VfsResult.node p.1, { s' with vfs := p.2 })) := by
  rcases hr.cases with ⟨e, e'⟩ | ⟨p, w, w', e, e', hw⟩
  · rw [e, e']
    exact .none
  · rw [e, e']
    exact .some ⟨rfl, h.withVfs hw hbyte⟩

/-- **One call** does the same in both runs. -/
theorem SameState.call (h : SameState K s s') {c : VfsCall} (hk : CallKnown K s c) :
    SameReturn (K.after s c) (vfsCall s c) (vfsCall s' c) := by
  cases c with
  | mkdir path => exact h.returnsNode (h.vfs.vfsMkdir hk) (mkdirKnown_byte K s.vfs path)
  | openFile buf start path flags =>
    exact h.returnsNode (h.vfs.vfsOpen hk.1) (openKnown_byte K s.vfs path flags)
  | findNode start name =>
    have hfind := h.vfs.vfsFindNode hk
    unfold vfsCall
    dsimp only
    rw [← hfind]
    cases vfsFindNode s.vfs start name with
    | none => exact .none
    | some p => exact .some ⟨rfl, h⟩
  | read tmp n offset count buf =>
    have hcount := h.readCount hk
    have hdata := fun i (hi : i < BestOS.readCount s n count buf) => readKnown_data K tmp s n count buf hi
    unfold vfsCall
    dsimp only
    rcases optionRel_cases (h.vfsRead tmp hk) with ⟨e, e'⟩ | ⟨r, r', e, e', hret, hstate⟩
    · rw [e, e']
      exact .none
    · rw [e, e', ← hcount]
      refine .some ⟨?_, hstate⟩
      dsimp only
      rw [hret]
      refine congrArg _ (List.map_congr_left fun i hi => ?_)
      exact (hstate.mem _ (hdata i (List.mem_range.mp hi))).symm
  | write g n count buf =>
    unfold vfsCall
    dsimp only
    rcases optionRel_cases (h.vfsWrite hk) with ⟨e, e'⟩ | ⟨r, r', e, e', hret, hstate⟩
    · rw [e, e']
      exact .none
    · rw [e, e']
      refine .some ⟨?_, hstate⟩
      dsimp only
      rw [hret]

end

end BestOS
