/-
BestOS/ReadAfterWrite.lean

What was written to a tmpfs file is what a read finds.

A file has one buffer.  `tmpfs_write` stores into it, and moves it to a larger
block when the cursor has reached the size or the file is opened for appending;
`tmpfs_read` copies out of it.  But the first read fills the buffer from the
archive (`tmpfsLoad`), whatever has been written before, and only the size
decides whether a block is moved, although the size grows with every write, also
where the file is overwritten.

A run is a sequence of `vfs_write` and `vfs_read` calls on one node, with
anything happening to the rest of memory between them.  Beside the state it
carries the size of the block the buffer is in, and `written`, the byte most
recently written at each offset.  `WriteInv` says that these bytes are in the
buffer; `Careful` is the condition under which a call keeps it.
-/
import BestOS.SequentialRead
import BestOS.BlockHeap

namespace BestOS

open ByteMemory
open BlockHeap (Apart)

/-! ### `tmpfs_write` in one equation -/

/-- The write calls `realloc`. -/
def VfsNode.Grows (node : VfsNode) : Prop :=
  node.oMode &&& O_APPEND ≠ 0 ∨ node.stSize ≤ toInt node.cursor

instance (node : VfsNode) : Decidable node.Grows := inferInstanceAs (Decidable (_ ∨ _))

/-- The offset in the file that a write goes to. -/
def VfsNode.writeOffset (node : VfsNode) : Nat :=
  if node.oMode &&& O_APPEND ≠ 0 then toSize node.stSize else node.cursor

/-- The cursor after the write of `count` bytes. -/
def VfsNode.writeCursor (node : VfsNode) (count : Nat) : Nat :=
  if node.oMode &&& O_APPEND ≠ 0 then toSize node.stSize else (node.cursor + count) % 2 ^ 64

/-- The buffer, and memory, once a write has made room. -/
def writeRoom (g : Grant) (s : SysState) (n count : Nat) : Nat × Mem :=
  if (s.vfs.nodes n).Grows then
    realloc g s.mem (s.vfs.nodes n).address (growSize (s.vfs.nodes n) count)
  else ((s.vfs.nodes n).address, s.mem)

/-- **`tmpfs_write`**: room is made, the bytes are copied, and the size grows by
their number. -/
theorem tmpfsWrite_eq (g : Grant) (s : SysState) (n count buffer : Nat) :
    (tmpfsWrite g s n count buffer).2 =
      { s with
        vfs := setNode s.vfs n fun node =>
          { node with
            address := (writeRoom g s n count).1
            stSize := toOff (node.stSize + count)
            cursor := node.writeCursor count }
        mem := memcpy (writeRoom g s n count).2
          (((writeRoom g s n count).1 + (s.vfs.nodes n).writeOffset) % 2 ^ 64) buffer count
        freed := if (s.vfs.nodes n).Grows ∧ (s.vfs.nodes n).address ≠ 0 then
          (s.vfs.nodes n).address :: s.freed else s.freed } := by
  unfold tmpfsWrite writeRoom VfsNode.writeOffset VfsNode.writeCursor
  by_cases happ : (s.vfs.nodes n).oMode &&& O_APPEND ≠ 0
  · have hgrow : (s.vfs.nodes n).Grows := .inl happ
    simp only [if_pos happ, growFile, growSize, setFile, setNode,
      Function.update_self, Function.update_idem, hgrow, true_and, ite_not, ↓reduceIte]
  · by_cases hend : (s.vfs.nodes n).stSize ≤ toInt (s.vfs.nodes n).cursor
    · have hgrow : (s.vfs.nodes n).Grows := .inr hend
      simp only [if_neg happ, ge_iff_le, if_pos hend, growFile, growSize, setFile,
        setNode, Function.update_self, Function.update_idem, hgrow, true_and, ite_not, ↓reduceIte]
    · have hgrow : ¬ (s.vfs.nodes n).Grows := fun h => h.elim happ hend
      simp only [if_neg happ, ge_iff_le, if_neg hend, setFile, setNode, hgrow,
        false_and, ↓reduceIte]

theorem toSize_natCast {k : Nat} (h : k < 2 ^ 63) : toSize (k : Int) = k := by
  have := toSize_of_nonneg (Int.natCast_nonneg k) (by omega)
  omega

/-- `realloc` of a block whose size fits an `int`. -/
theorem realloc_eq {g : Grant} {m : Mem} {p size : Nat} (hp : p ≠ 0) (hpos : 0 < size)
    (hsize : size < 2 ^ 31) (htag : g.tagSize < 2 ^ 31) :
    realloc g m p size = (g.ptr, memcpy m g.ptr p (min g.tagSize size)) := by
  rw [realloc, if_neg (by omega), if_neg hp]
  dsimp only
  rw [toInt_of_lt htag, toInt_of_lt hsize]
  by_cases h : (g.tagSize : Int) > (size : Int)
  · rw [if_pos h, toSize_natCast (by omega), Nat.min_eq_right (by omega)]
  · rw [if_neg h, toSize_natCast (by omega), Nat.min_eq_left (by omega)]

/-! ### Calls on one node -/

/-- The node belongs to a tmpfs. -/
def OnTmpfs (s : SysState) (n : Nat) : Prop :=
  ∃ m, (s.vfs.nodes n).mountpoint = some m ∧ (s.vfs.mounts m).fs = some .tmpfs

theorem onTmpfs_iff {s : SysState} {n : Nat} : OnTmpfs s n ↔ nodeFs s.vfs n = some .tmpfs := by
  simp [OnTmpfs, nodeFs, Option.bind_eq_some_iff]

theorem vfsWrite_tmpfs {s : SysState} {n : Nat} (h : OnTmpfs s n) (g : Grant) (count buf : Nat) :
    vfsWrite g s n count buf =
      some (if (tmpfsWrite g s n count buf).1 ≠ -1 then toInt count else -1,
        (tmpfsWrite g s n count buf).2) := by
  rw [vfsWrite_nodeFs, onTmpfs_iff.mp h]
  rfl

theorem vfsRead_tmpfs {s : SysState} {n : Nat} (h : OnTmpfs s n) (tmp offset count buf : Nat) :
    vfsRead tmp s n offset count buf = some (tmpfsRead s n offset count buf) := by
  rw [vfsRead_nodeFs, onTmpfs_iff.mp h]
  rfl

/-- A node that is on no tmpfs is read by the devices. -/
theorem vfsRead_devfs {s s' : SysState} {n tmp offset count buf : Nat} {r : Int}
    (h : ¬ OnTmpfs s n) (hr : vfsRead tmp s n offset count buf = some (r, s')) :
    devfsRead tmp s n buf = some (r, s') := by
  rw [onTmpfs_iff] at h
  rw [vfsRead_nodeFs] at hr
  cases hfs : nodeFs s.vfs n with
  | none =>
    rw [hfs] at hr
    cases hr
  | some fs =>
    rw [hfs] at h hr
    cases fs with
    | tmpfs => exact absurd rfl h
    | devfs => exact hr

theorem vfsWrite_devfs {g : Grant} {s s' : SysState} {n count buf : Nat} {r : Int}
    (h : ¬ OnTmpfs s n) (hw : vfsWrite g s n count buf = some (r, s')) :
    s' = (devfsWrite s n count).2 := by
  rw [onTmpfs_iff] at h
  rw [vfsWrite_nodeFs] at hw
  cases hfs : nodeFs s.vfs n with
  | none =>
    rw [hfs] at hw
    cases hw
  | some fs =>
    rw [hfs] at h hw
    cases fs with
    | tmpfs => exact absurd rfl h
    | devfs => exact (congrArg Prod.snd (Option.some.inj hw)).symm

/-- The system, the size of the block that holds the buffer of the node, and the
byte most recently written at each offset. -/
structure FileState where
  sys : SysState
  cap : Nat
  written : Nat → Option (BitVec 8)

/-- A call on the node, or a change of memory by somebody else.  `ptr` is the
block that `realloc` gets, if it is called. -/
inductive FileOp
  | write (count buffer ptr : Nat)
  | read (offset count buffer : Nat)
  | store (mem : Mem)

/-- One step. -/
def fileStep (n : Nat) (f : FileState) : FileOp → Option FileState
  | .write count buffer ptr =>
      let node := f.sys.vfs.nodes n
      (vfsWrite ⟨f.cap, ptr⟩ f.sys n count buffer).map fun r =>
        { sys := r.2
          cap := if node.Grows then growSize node count else f.cap
          written := fun o =>
            if node.writeOffset ≤ o ∧ o < node.writeOffset + count then
              some (f.sys.mem (buffer + (o - node.writeOffset)))
            else f.written o }
  | .read offset count buffer =>
      (vfsRead 0 f.sys n offset count buffer).map fun r => { f with sys := r.2 }
  | .store mem => some { f with sys := { f.sys with mem := mem } }

/-- The states reached by steps that meet `ok` in the state they are taken in,
from a node nothing has been written to. -/
inductive FileRun (n : Nat) (ok : FileState → FileOp → Prop) (s₀ : SysState) (cap₀ : Nat) :
    FileState → Prop
  | start : FileRun n ok s₀ cap₀ ⟨s₀, cap₀, fun _ => none⟩
  | step {f f'} (op : FileOp) : FileRun n ok s₀ cap₀ f → ok f op → fileStep n f op = some f' →
      FileRun n ok s₀ cap₀ f'

/-- What the rest of the kernel owes to a call: the file's block and the one
`realloc` gets do not run over the end of the address space, the caller's buffers
and the new block are apart from the file's block, and nobody else stores into
that. -/
def Legal (n : Nat) (f : FileState) : FileOp → Prop
  | .write count buffer ptr =>
      let node := f.sys.vfs.nodes n
      node.address + f.cap ≤ 2 ^ 64 ∧ Apart buffer count node.address f.cap ∧
      (node.Grows → ptr + growSize node count ≤ 2 ^ 64 ∧
        Apart ptr (growSize node count) node.address f.cap ∧
        Apart ptr (growSize node count) buffer count)
  | .read _ count buffer =>
      (f.sys.vfs.nodes n).address + f.cap ≤ 2 ^ 64 ∧
      Apart buffer count (f.sys.vfs.nodes n).address f.cap
  | .store mem => ∀ o < f.cap, mem ((f.sys.vfs.nodes n).address + o)
      = f.sys.mem ((f.sys.vfs.nodes n).address + o)

/-- A call of `realloc` that keeps what was written: there is a block, the sizes
fit an `int`, and no byte that was written, or is about to be, lies behind the
new end. -/
structure GrowOk (f : FileState) (node : VfsNode) (count : Nat) : Prop where
  address : node.address ≠ 0
  size : 0 < growSize node count ∧ growSize node count < 2 ^ 31
  cap : f.cap < 2 ^ 31
  kept : ∀ o, f.written o ≠ none → o < growSize node count
  fits : node.writeOffset + count ≤ growSize node count

/-- The condition on a call: a file has been read before bytes are written to it,
and the bytes stay inside the block. -/
def Careful (n : Nat) (f : FileState) (op : FileOp) : Prop :=
  Legal n f op ∧
  match op with
  | .write count _ _ =>
      let node := f.sys.vfs.nodes n
      (count ≠ 0 → node.init = true) ∧
      (node.Grows → GrowOk f node count) ∧
      (¬ node.Grows → node.writeOffset + count ≤ f.cap)
  | _ => True

/-! ### The invariant -/

/-- The bytes that were written are in the buffer, and the file has been read
before. -/
structure WriteInv (n : Nat) (f : FileState) : Prop where
  tmpfs : OnTmpfs f.sys n
  kept : ∀ o b, f.written o = some b → (f.sys.vfs.nodes n).init = true ∧ o < f.cap ∧
    f.sys.mem ((f.sys.vfs.nodes n).address + o) = b

/-- What a write leaves in the block: the bytes of the caller's buffer at the
offset, and elsewhere what was there. -/
theorem write_bytes {n : Nat} {f : FileState} {count buffer ptr : Nat}
    (hok : Careful n f (.write count buffer ptr)) {o : Nat} {m : Mem}
    (hm : m = (tmpfsWrite ⟨f.cap, ptr⟩ f.sys n count buffer).2.mem) :
    let node := f.sys.vfs.nodes n
    let room := writeRoom ⟨f.cap, ptr⟩ f.sys n count
    (node.writeOffset ≤ o → o < node.writeOffset + count →
      m (room.1 + o) = f.sys.mem (buffer + (o - node.writeOffset))) ∧
    (¬ (node.writeOffset ≤ o ∧ o < node.writeOffset + count) → o < f.cap →
      (node.Grows → o < growSize node count) → m (room.1 + o) = f.sys.mem (node.address + o)) := by
  intro node room
  obtain ⟨⟨hspace, hbuf, hnew⟩, -, hgrow, hstay⟩ := hok
  change node.address + f.cap ≤ 2 ^ 64 at hspace
  change Apart buffer count node.address f.cap at hbuf
  change node.Grows → ptr + growSize node count ≤ 2 ^ 64 ∧
    Apart ptr (growSize node count) node.address f.cap ∧
    Apart ptr (growSize node count) buffer count at hnew
  change node.Grows → GrowOk f node count at hgrow
  change ¬ node.Grows → node.writeOffset + count ≤ f.cap at hstay
  -- the range written to is apart from the caller's buffer, and making room has kept both
  have hcopy : room.1 + node.writeOffset + count ≤ 2 ^ 64 ∧
      Apart (room.1 + node.writeOffset) count buffer count ∧
      (∀ i < count, room.2 (buffer + i) = f.sys.mem (buffer + i)) ∧
      (o < f.cap → (node.Grows → o < growSize node count) →
        room.2 (room.1 + o) = f.sys.mem (node.address + o)) := by
    by_cases hg : node.Grows
    · have hok := hgrow hg
      have hin := hok.fits
      have hroom : room = (ptr, memcpy f.sys.mem ptr node.address (min f.cap (growSize node count))) := by
        show writeRoom _ _ _ _ = _
        rw [writeRoom, if_pos hg]
        exact realloc_eq hok.address hok.size.1 hok.size.2 hok.cap
      obtain ⟨hnewspace, hapart, hbuf⟩ := hnew hg
      simp only [Apart] at hbuf hapart ⊢
      rw [hroom]
      refine ⟨by dsimp only; omega, by omega, fun i hi => ?_, fun hcap hsize => ?_⟩
      · exact memcpy_agree _ _ _ _ (by omega)
      · exact memcpy_byte _ _ _ (by have := hsize hg; omega) (by omega)
    · have hin := hstay hg
      have hroom : room = (node.address, f.sys.mem) := by
        show writeRoom _ _ _ _ = _
        rw [writeRoom, if_neg hg]
      simp only [Apart] at hbuf ⊢
      rw [hroom]
      exact ⟨by dsimp only; omega, by omega, fun i _ => rfl, fun _ _ => rfl⟩
  obtain ⟨hend, hapart, hsrc, hkeep⟩ := hcopy
  have hmem : m = memcpy room.2 (room.1 + node.writeOffset) buffer count := by
    rw [hm, tmpfsWrite_eq]
    exact memcpy_dest_mod _ _ hend
  refine ⟨fun h1 h2 => ?_, fun hout hcap hsize => ?_⟩
  · rw [hmem, memcpy_apply _ _ _ _ _ hapart, if_pos (by omega), hsrc _ (by omega)]
    congr 1
    omega
  · rw [hmem, memcpy_agree _ _ _ _ (by omega), hkeep hcap hsize]

theorem WriteInv.write {n : Nat} {f f' : FileState} {count buffer ptr : Nat} (h : WriteInv n f)
    (hok : Careful n f (.write count buffer ptr))
    (hstep : fileStep n f (.write count buffer ptr) = some f') : WriteInv n f' := by
  rw [fileStep, vfsWrite_tmpfs h.tmpfs] at hstep
  obtain rfl := Option.some.inj hstep
  have hnode : ((tmpfsWrite ⟨f.cap, ptr⟩ f.sys n count buffer).2.vfs.nodes n).address
        = (writeRoom ⟨f.cap, ptr⟩ f.sys n count).1 ∧
      ((tmpfsWrite ⟨f.cap, ptr⟩ f.sys n count buffer).2.vfs.nodes n).init
        = (f.sys.vfs.nodes n).init ∧
      ((tmpfsWrite ⟨f.cap, ptr⟩ f.sys n count buffer).2.vfs.nodes n).mountpoint
        = (f.sys.vfs.nodes n).mountpoint := by
    rw [tmpfsWrite_eq]
    simp [setNode]
  have hmounts : (tmpfsWrite ⟨f.cap, ptr⟩ f.sys n count buffer).2.vfs.mounts
      = f.sys.vfs.mounts := by
    rw [tmpfsWrite_eq]
    rfl
  obtain ⟨haddr, hinit, hmount⟩ := hnode
  refine ⟨?_, fun o b hb => ?_⟩
  · obtain ⟨m, hm, hfs⟩ := h.tmpfs
    exact ⟨m, hmount.trans hm, by rw [hmounts]; exact hfs⟩
  · obtain ⟨hnew, hold⟩ := write_bytes hok (o := o) rfl
    obtain ⟨-, hread, hgrow, hstay⟩ := hok
    dsimp only at hb ⊢
    rw [hinit, haddr]
    -- a byte of this write, or an earlier one that is kept
    by_cases hin : (f.sys.vfs.nodes n).writeOffset ≤ o ∧
        o < (f.sys.vfs.nodes n).writeOffset + count
    · rw [if_pos hin] at hb
      refine ⟨hread (by omega), ?_, (hnew hin.1 hin.2).trans (Option.some.inj hb)⟩
      by_cases hg : (f.sys.vfs.nodes n).Grows
      · rw [if_pos hg]
        exact Nat.lt_of_lt_of_le hin.2 (hgrow hg).fits
      · rw [if_neg hg]
        exact Nat.lt_of_lt_of_le hin.2 (hstay hg)
    · rw [if_neg hin] at hb
      obtain ⟨hbefore, hcap, hbyte⟩ := h.kept o b hb
      have hsize : (f.sys.vfs.nodes n).Grows → o < growSize (f.sys.vfs.nodes n) count :=
        fun hg => (hgrow hg).kept o (by rw [hb]; simp)
      refine ⟨hbefore, ?_, (hold hin hcap hsize).trans hbyte⟩
      by_cases hg : (f.sys.vfs.nodes n).Grows
      · rw [if_pos hg]
        exact hsize hg
      · rw [if_neg hg]
        exact hcap

/-- What a read does to the node: nothing but its cursor and the flag. -/
theorem tmpfsRead_node (s : SysState) (n offset count buffer : Nat) :
    ((tmpfsRead s n offset count buffer).2.vfs.nodes n).mountpoint = (s.vfs.nodes n).mountpoint ∧
      ((tmpfsRead s n offset count buffer).2.vfs.nodes n).address = (s.vfs.nodes n).address ∧
      ((tmpfsRead s n offset count buffer).2.vfs.nodes n).init = true ∧
      (tmpfsRead s n offset count buffer).2.vfs.mounts = s.vfs.mounts := by
  unfold tmpfsRead tmpfsLoad
  by_cases hinit : (s.vfs.nodes n).init <;> by_cases hbuf : buffer = 0 <;>
    simp [hinit, hbuf, setFile, setNode]

/-- Once the file has been read, a read only copies. -/
theorem tmpfsRead_mem {s : SysState} {n : Nat} (h : (s.vfs.nodes n).init = true)
    (offset count : Nat) {buffer : Nat} (hbuf : buffer ≠ 0) :
    (tmpfsRead s n offset count buffer).1 = toInt count ∧
    (tmpfsRead s n offset count buffer).2.mem
      = memcpy s.mem buffer (((s.vfs.nodes n).address + offset) % 2 ^ 64) count := by
  simp [tmpfsRead, tmpfsLoad, h, hbuf, setFile]

theorem WriteInv.step {n : Nat} {f f' : FileState} {op : FileOp} (h : WriteInv n f)
    (hok : Careful n f op) (hstep : fileStep n f op = some f') : WriteInv n f' := by
  cases op with
  | write count buffer ptr => exact h.write hok hstep
  | read offset count buffer =>
      rw [fileStep, vfsRead_tmpfs h.tmpfs] at hstep
      obtain rfl := Option.some.inj hstep
      obtain ⟨hmount, haddr, hinit, hmounts⟩ := tmpfsRead_node f.sys n offset count buffer
      refine ⟨?_, fun o b hb => ?_⟩
      · obtain ⟨m, hm, hfs⟩ := h.tmpfs
        exact ⟨m, hmount.trans hm, by rw [hmounts]; exact hfs⟩
      · obtain ⟨hread, hcap, hbyte⟩ := h.kept o b hb
        refine ⟨hinit, hcap, ?_⟩
        dsimp only
        rw [haddr, ← hbyte]
        by_cases hbuf : buffer = 0
        · simp [tmpfsRead, tmpfsLoad, hread, hbuf]
        · rw [(tmpfsRead_mem hread offset count hbuf).2]
          have hapart : Apart buffer count (f.sys.vfs.nodes n).address f.cap := hok.1.2
          simp only [Apart] at hapart
          exact memcpy_agree _ _ _ _ (by omega)
  | store mem =>
      obtain rfl := Option.some.inj hstep
      refine ⟨h.tmpfs, fun o b hb => ?_⟩
      obtain ⟨hread, hcap, hbyte⟩ := h.kept o b hb
      exact ⟨hread, hcap, (hok.1 o hcap).trans hbyte⟩

theorem FileRun.inv {n : Nat} {s₀ : SysState} {cap₀ : Nat} {f : FileState} (h : OnTmpfs s₀ n)
    (hrun : FileRun n (Careful n) s₀ cap₀ f) : WriteInv n f := by
  induction hrun with
  | start =>
      refine ⟨h, fun o b hb => ?_⟩
      cases hb
  | step op _ hok hstep ih => exact ih.step hok hstep

/-- **Read after write.**  In every run of careful calls on a tmpfs node, a read
returns at each offset that was written the byte written there last. -/
theorem read_after_write {n : Nat} {s₀ : SysState} {cap₀ : Nat} {f : FileState} (h : OnTmpfs s₀ n)
    (hrun : FileRun n (Careful n) s₀ cap₀ f) {offset count buffer : Nat} (hbuf : buffer ≠ 0)
    (hok : Legal n f (.read offset count buffer)) :
    ∃ ret s', vfsRead 0 f.sys n offset count buffer = some (ret, s') ∧
      ∀ i < count, ∀ b, f.written (offset + i) = some b → s'.mem (buffer + i) = b := by
  have hinv := hrun.inv h
  refine ⟨(tmpfsRead f.sys n offset count buffer).1, (tmpfsRead f.sys n offset count buffer).2,
    vfsRead_tmpfs hinv.tmpfs 0 offset count buffer, fun i hi b hb => ?_⟩
  obtain ⟨hread, hcap, hbyte⟩ := hinv.kept (offset + i) b hb
  obtain ⟨hspace, hapart⟩ := hok
  simp only [Apart] at hapart
  rw [(tmpfsRead_mem hread offset count hbuf).2, Nat.mod_eq_of_lt (by omega),
    memcpy_byte _ _ _ hi (by omega), Nat.add_assoc, hbyte]

/-- `fourBytes` after a write of the byte at 0x2007 to its start. -/
def oneByteWritten : FileState where
  sys := (tmpfsWrite ⟨5, 0⟩ fourBytes 0 1 0x2007).2
  cap := 5
  written := fun o => if 0 ≤ o ∧ o < 0 + 1 then some (fourBytes.mem (0x2007 + (o - 0))) else none

/-- A file that has been read: the byte 7 is written, and a read returns it. -/
theorem read_after_write_fourBytes :
    FileRun 0 (Careful 0) fourBytes 5 oneByteWritten ∧ oneByteWritten.written 0 = some 7 ∧
      ∃ ret s', vfsRead 0 oneByteWritten.sys 0 0 4 0x3000 = some (ret, s') ∧
        s'.mem 0x3000 = 7 := by
  have hrun : FileRun 0 (Careful 0) fourBytes 5 oneByteWritten := by
    refine .step (.write 1 0x2007 0) .start ⟨⟨by decide, ?_, ?_⟩, fun _ => rfl, ?_, ?_⟩ rfl
    · exact .inr (by decide)
    · exact fun hg => absurd hg (by decide)
    · exact fun hg => absurd hg (by decide)
    · exact fun _ => by decide
  obtain ⟨ret, s', hread, hbytes⟩ := read_after_write (n := 0) ⟨0, rfl, rfl⟩ hrun (by decide)
    (show Legal 0 oneByteWritten (.read 0 4 0x3000) from ⟨by decide, .inr (by decide)⟩)
  exact ⟨hrun, rfl, ret, s', hread, hbytes 0 (by decide) 7 rfl⟩

/-- A file of four bytes as `tmpfs_create_file` leaves it, with its bytes in the
archive at 0x4000. -/
def archiveFile : SysState :=
  setFile fourBytes 0 fun node => { node with internalAddress := 0x4000, init := false }

/-- `archiveFile` after the same write. -/
def writtenFirst : FileState where
  sys := (tmpfsWrite ⟨5, 0⟩ archiveFile 0 1 0x2007).2
  cap := 5
  written := fun o => if 0 ≤ o ∧ o < 0 + 1 then some (archiveFile.mem (0x2007 + (o - 0))) else none

/-- **A write before the first read is lost**: the read fills the buffer from the
archive over the byte that was written. -/
theorem first_read_overwrites :
    ¬ ∀ (n : Nat) (s₀ : SysState) (cap₀ : Nat) (f : FileState), OnTmpfs s₀ n →
      FileRun n (Legal n) s₀ cap₀ f → ∀ offset count buffer : Nat, buffer ≠ 0 →
      ((offset + count : Nat) : Int) ≤ (f.sys.vfs.nodes n).stSize →
      Legal n f (.read offset count buffer) →
      ∃ ret s', vfsRead 0 f.sys n offset count buffer = some (ret, s') ∧
        ∀ i < count, ∀ b, f.written (offset + i) = some b → s'.mem (buffer + i) = b := by
  intro hclaim
  have hrun : FileRun 0 (Legal 0) archiveFile 5 writtenFirst :=
    .step (.write 1 0x2007 0) .start
      ⟨by decide, .inr (by decide), fun hg => absurd hg (by decide)⟩ rfl
  obtain ⟨ret, s', hread, hbytes⟩ := hclaim 0 archiveFile 5 writtenFirst ⟨0, rfl, rfl⟩ hrun
    0 1 0x3000 (by decide) (by decide) ⟨by decide, .inr (by decide)⟩
  have hbyte : s'.mem 0x3000 = 7 := hbytes 0 (by decide) 7 rfl
  have hfound : (vfsRead 0 writtenFirst.sys 0 0 1 0x3000).map (fun r => r.2.mem 0x3000) = some 0 := by
    decide
  rw [hread, Option.map_some, hbyte] at hfound
  exact absurd hfound (by decide)

end BestOS
