/-
BestOS/WriteCapacity.lean

Does `tmpfs_write` stay in the buffer it asked for?

The size of a file's buffer is stored nowhere.  It is what was last asked of `malloc` or
`realloc`: two bytes in `vfs_open`, `size + 1` in `tmpfs_create_file`, and
`st_size + count + 1` in a write that grows the buffer.  A write that does not grow it
moves `st_size` all the same, so the size runs ahead of the buffer by the bytes that were
written in place since; `Capacity.inPlace` counts them.  `CapacityInv` says what was asked
for in terms of `st_size` and this count, and `CopyFits` is the condition on a write.

A run makes the calls of `ReadConfined` and writes, on one file, with other code between
them that leaves the node alone.
-/
import BestOS.WriteSemantics
import BestOS.ArchiveRead
import BestOS.Descriptors

namespace BestOS

open ByteMemory

/-! ### The copy of a write -/

/-- `tmpfs_write` up to its `memcpy`. -/
def tmpfsWriteRoom (g : Grant) (s : SysState) (n count : Nat) : SysState :=
  if (s.vfs.nodes n).oMode &&& O_APPEND ≠ 0 then
    growFile g (setFile s n fun node => { node with cursor := toSize node.stSize }) n count
  else if toInt (s.vfs.nodes n).cursor ≥ (s.vfs.nodes n).stSize then growFile g s n count
  else s

/-- `(void *)node->address + node->cursor`, where the bytes are copied to.  The sum is
not reduced here: one that wraps is in front of the block, and as it stands behind it. -/
def copyDest (g : Grant) (s : SysState) (n count : Nat) : Nat :=
  ((tmpfsWriteRoom g s n count).vfs.nodes n).address
    + ((tmpfsWriteRoom g s n count).vfs.nodes n).cursor

/-- The copy goes to the offset of the write, in the buffer as it then is. -/
theorem copyDest_eq (g : Grant) (s : SysState) (n count : Nat) :
    copyDest g s n count =
      ((tmpfsWriteRoom g s n count).vfs.nodes n).address + (s.vfs.nodes n).writeOffset := by
  unfold copyDest tmpfsWriteRoom VfsNode.writeOffset
  by_cases happ : (s.vfs.nodes n).oMode &&& O_APPEND ≠ 0
  · simp only [if_pos happ, growFile, setFile, setNode, Function.update_self]
  · by_cases hend : toInt (s.vfs.nodes n).cursor ≥ (s.vfs.nodes n).stSize
    · simp only [if_neg happ, if_pos hend, growFile, setFile, setNode, Function.update_self]
    · simp only [if_neg happ, if_neg hend]

/-! ### Runs -/

/-- A call on the file; `g` is what `realloc` finds and gets, if a write calls it. -/
inductive BufferCall
  | cursor (c : CursorCall)
  | write (g : Grant) (fd : BitVec 32) (buf count : BitVec 64)

def BufferCall.fd : BufferCall → Int
  | .cursor c => c.fd
  | .write _ fd _ _ => fd.toInt

def bufferCall (s : SysState) : BufferCall → Option (Int × SysState)
  | .cursor c => cursorCall s c
  | .write g fd buf count => sysWrite g s fd.toInt buf.toNat count.toNat

/-- The system, the size last asked for the buffer of the file, and the number of bytes
written since then without asking for more. -/
structure Capacity where
  sys : SysState
  requested : Nat
  inPlace : Int

/-- What the call asks for. -/
def requestedBy (n : Nat) (f : Capacity) : BufferCall → Nat
  | .cursor _ => f.requested
  | .write _ _ _ count =>
      if (f.sys.vfs.nodes n).Grows then growSize (f.sys.vfs.nodes n) count.toNat else f.requested

/-- What the call adds to the bytes written in place. -/
def inPlaceBy (n : Nat) (f : Capacity) : BufferCall → Int
  | .cursor _ => f.inPlace
  | .write _ _ _ count => if (f.sys.vfs.nodes n).Grows then 0 else f.inPlace + count.toNat

def capacityStep (n : Nat) (f : Capacity) (c : BufferCall) : Option Capacity :=
  (bufferCall f.sys c).map fun r =>
    { sys := r.2
      requested := requestedBy n f c
      inPlace := inPlaceBy n f c }

/-- A file is made, by `tmpfs_create_file` or by `vfs_open` with a new node.  A node of
`vfs_open` has the `st_size` that its block held, whatever the two bytes are. -/
inductive FileMade : Nat → Capacity → Prop
  | archive {block address size : Nat} {v : Vfs} {name : CString} {s : SysState} :
      tmpfsCreateFile block v name address size = some s.vfs →
      FileMade v.next ⟨s, (size + 1) % 2 ^ 64, 0⟩
  | opened {buf flags n : Nat} {v : Vfs} {start : Option Nat} {path : CString} {s : SysState} :
      vfsOpen buf v start path flags = some (some n, s.vfs) → s.vfs.next = v.next + 1 →
      FileMade n ⟨s, 2, (s.vfs.nodes n).stSize - 1⟩

/-- A call on the file, or what happens between two. -/
inductive FileEvent
  | call (c : BufferCall)
  | other (t : SysState)

/-- `P` holds of every call of the run. -/
def EveryCall (P : Nat → Capacity → BufferCall → Prop) (n : Nat) :
    Capacity → List FileEvent → Prop
  | _, [] => True
  | f, .call c :: es => fileOf f.sys c.fd = some n →
      P n f c ∧ ∀ f', capacityStep n f c = some f' → EveryCall P n f' es
  | f, .other t :: es => t.vfs.nodes n = f.sys.vfs.nodes n → t.vfs.mounts = f.sys.vfs.mounts →
      EveryCall P n { f with sys := t } es

/-! ### The property and the condition -/

/-- The `memcpy` of a write stores into the `size` bytes from `node->address` on. -/
def CopyWithin (g : Grant) (s : SysState) (n count size : Nat) : Prop :=
  let block := ((tmpfsWriteRoom g s n count).vfs.nodes n).address
  ∀ i < count, block ≤ copyDest g s n count + i ∧ copyDest g s n count + i < block + size

/-- The size is the one last asked for. -/
def CopyInside (n : Nat) (f : Capacity) : BufferCall → Prop
  | .cursor _ => True
  | .write g fd buf count =>
      CopyWithin g f.sys n count.toNat (requestedBy n f (.write g fd buf count))

/-- The condition on a write.  If it grows the buffer, it begins at most one byte behind
the end of the file, and the size asked for does not wrap.  If not, it ends at most one
byte behind the end, less the bytes written in place since the buffer was asked for. -/
def CopyFits (n : Nat) (f : Capacity) : BufferCall → Prop
  | .cursor _ => True
  | .write _ _ _ count =>
      let node := f.sys.vfs.nodes n
      count = 0 ∨
        if node.Grows then
          node.writeOffset ≤ toSize (node.stSize + 1) ∧
            toSize (node.stSize + 1) + count.toNat < 2 ^ 64
        else node.cursor + count.toNat ≤ toSize (node.stSize + 1 - f.inPlace)

/-! ### The invariant -/

/-- The buffer was asked for with one byte more than the file has, but for the bytes that
were written in place. -/
structure CapacityInv (n : Nat) (f : Capacity) : Prop where
  tmpfs : OnTmpfs f.sys n
  requested : f.requested = toSize ((f.sys.vfs.nodes n).stSize + 1 - f.inPlace)

theorem toSize_toOff (i j : Int) : toSize (toOff i + j) = toSize (i + j) := by
  have hmod := toOff_mod i
  unfold toSize
  rw [BitVec.toNat_ofInt, BitVec.toNat_ofInt]
  omega

theorem FileMade.requested {n : Nat} {f : Capacity} (h : FileMade n f) :
    f.requested = toSize ((f.sys.vfs.nodes n).stSize + 1 - f.inPlace) := by
  cases h with
  | @archive block address size v name s hmade =>
    show (size + 1) % 2 ^ 64 = toSize ((s.vfs.nodes v.next).stSize + 1 - 0)
    rw [(tmpfsCreateFile_node hmade).1.length]
    unfold toSize
    rw [BitVec.toNat_ofInt, BitVec.toInt_ofNat', Int.bmod_def]
    split <;> omega
  | @opened buf flags n v start path s ho hnew =>
    show 2 = toSize ((s.vfs.nodes n).stSize + 1 - ((s.vfs.nodes n).stSize - 1))
    rw [show (s.vfs.nodes n).stSize + 1 - ((s.vfs.nodes n).stSize - 1) = 2 by omega]
    rfl

/-- Seeks and reads leave the size alone. -/
theorem cursorCall_stSize {s s' : SysState} {n : Nat} {c : CursorCall} {ret : Int}
    (h : OnTmpfs s n) (hfd : fileOf s c.fd = some n) (hcall : cursorCall s c = some (ret, s')) :
    (s'.vfs.nodes n).stSize = (s.vfs.nodes n).stSize := by
  cases c with
  | read tmp fd buf count =>
    obtain ⟨s'', hread, -, -, -, hnode⟩ := sysRead_copies hfd h tmp buf count
    obtain ⟨-, rfl⟩ := Prod.mk.inj (Option.some.inj (hread.symm.trans hcall))
    rw [hnode]
  | seek fd offset whence =>
    obtain ⟨n', hn', ⟨-, rfl⟩ | ⟨-, rfl⟩⟩ := sysSeek_cases hcall
    · rfl
    · obtain rfl := Option.some.inj (hfd.symm.trans hn')
      simp only [setFile, setNode, Function.update_self]

/-- What a write does to the file. -/
theorem sysWrite_tmpfs {g : Grant} {s s' : SysState} {n : Nat} {fd ret : Int} {buf count : Nat}
    (h : OnTmpfs s n) (hfd : fileOf s fd = some n)
    (hcall : sysWrite g s fd buf count = some (ret, s')) :
    s' = (tmpfsWrite g s n count buf).2 ∧ OnTmpfs s' n ∧
      (s'.vfs.nodes n).stSize = toOff ((s.vfs.nodes n).stSize + count) := by
  unfold sysWrite at hcall
  rw [hfd] at hcall
  dsimp only at hcall
  rw [vfsWrite_tmpfs h] at hcall
  obtain ⟨-, rfl⟩ := Prod.mk.inj (Option.some.inj hcall)
  obtain ⟨m, hm, hfs⟩ := h
  rw [tmpfsWrite_eq]
  refine ⟨rfl, ⟨m, ?_, hfs⟩, ?_⟩ <;> simp only [setNode, Function.update_self, hm]

theorem CapacityInv.step {n : Nat} {f f' : Capacity} {c : BufferCall} (h : CapacityInv n f)
    (hfd : fileOf f.sys c.fd = some n) (hstep : capacityStep n f c = some f') :
    CapacityInv n f' := by
  obtain ⟨⟨ret, s'⟩, hcall, rfl⟩ := Option.map_eq_some_iff.mp hstep
  cases c with
  | cursor c =>
    refine ⟨h.tmpfs.cursorCall hfd hcall, ?_⟩
    show f.requested = toSize ((s'.vfs.nodes n).stSize + 1 - f.inPlace)
    rw [cursorCall_stSize h.tmpfs hfd hcall]
    exact h.requested
  | write g fd buf count =>
    obtain ⟨-, htmpfs, hsize⟩ := sysWrite_tmpfs h.tmpfs hfd hcall
    refine ⟨htmpfs, ?_⟩
    dsimp only
    rw [hsize, Int.add_sub_assoc, toSize_toOff]
    simp only [requestedBy, inPlaceBy]
    by_cases hgrow : (f.sys.vfs.nodes n).Grows
    · rw [if_pos hgrow, if_pos hgrow, growSize, Int.sub_zero, Int.add_assoc]
    · rw [if_neg hgrow, if_neg hgrow, h.requested]
      congr 1
      omega

/-! ### One call -/

/-- What a write that grows the buffer asks for. -/
theorem growSize_mod (node : VfsNode) (count : Nat) :
    growSize node count = (toSize (node.stSize + 1) + count) % 2 ^ 64 := by
  unfold growSize toSize
  rw [BitVec.toNat_ofInt, BitVec.toNat_ofInt]
  omega

/-- A range of `count` bytes at an offset. -/
theorem copyWithin_iff {g : Grant} {s : SysState} {n count size : Nat} :
    CopyWithin g s n count size ↔
      count = 0 ∨ (s.vfs.nodes n).writeOffset + count ≤ size := by
  unfold CopyWithin
  dsimp only
  rw [copyDest_eq]
  constructor
  · intro h
    by_contra hout
    have := h (count - 1) (by omega)
    omega
  · intro h i hi
    omega

/-- **One write**: the copy is inside exactly under the condition. -/
theorem CapacityInv.copyInside_iff {n : Nat} {f : Capacity} (h : CapacityInv n f)
    (c : BufferCall) : CopyInside n f c ↔ CopyFits n f c := by
  cases c with
  | cursor c => exact Iff.rfl
  | write g fd buf count =>
    have hlt := count.isLt
    unfold CopyInside CopyFits
    dsimp only
    rw [copyWithin_iff]
    by_cases hzero : count = 0
    · exact iff_of_true (.inl (congrArg BitVec.toNat hzero)) (.inl hzero)
    have hpos : count.toNat ≠ 0 := fun h0 => hzero (BitVec.eq_of_toNat_eq h0)
    rw [or_iff_right hpos, or_iff_right hzero]
    unfold requestedBy
    dsimp only
    by_cases hgrow : (f.sys.vfs.nodes n).Grows
    · rw [if_pos hgrow, if_pos hgrow, growSize_mod]
      have hbelow : toSize ((f.sys.vfs.nodes n).stSize + 1) < 2 ^ 64 := BitVec.isLt _
      omega
    · rw [if_neg hgrow, if_neg hgrow, h.requested]
      have hoff : (f.sys.vfs.nodes n).writeOffset = (f.sys.vfs.nodes n).cursor :=
        if_neg fun happ => hgrow (.inl happ)
      rw [hoff]

/-- **Write capacity.**  For every file, however it was made, and every run of seeks, reads
and writes on it: all copies stay in the buffer last asked for if and only if all writes
meet the condition. -/
theorem write_capacity_iff {n : Nat} {f : Capacity} (hmade : FileMade n f)
    (htmpfs : OnTmpfs f.sys n) (es : List FileEvent) :
    EveryCall CopyInside n f es ↔ EveryCall CopyFits n f es := by
  suffices hinv : ∀ f, CapacityInv n f →
      (EveryCall CopyInside n f es ↔ EveryCall CopyFits n f es) from
    hinv f ⟨htmpfs, hmade.requested⟩
  clear hmade htmpfs f
  intro f hinv
  induction es generalizing f with
  | nil => exact Iff.rfl
  | cons e es ih =>
    cases e with
    | call c =>
      refine imp_congr_right fun hfd => and_congr (hinv.copyInside_iff c) ?_
      exact forall_congr' fun f' => imp_congr_right fun hstep => ih f' (hinv.step hfd hstep)
    | other t =>
      refine imp_congr_right fun hnode => imp_congr_right fun hmounts => ih _ ⟨?_, ?_⟩
      · obtain ⟨m, hm, hfs⟩ := hinv.tmpfs
        exact ⟨m, by rw [hnode]; exact hm, by rw [hmounts]; exact hfs⟩
      · rw [hnode]
        exact hinv.requested

/-! ### A new file -/

theorem oneFile_made : FileMade 1 ⟨oneFile, 2, -1⟩ :=
  .opened (show vfsOpen 0x1000 newTask.vfs (some 0) ['/', 'a'] O_CREAT
    = some (some 1, oneFile.vfs) from rfl) rfl

/-- Four bytes are written, and then one over the first. -/
theorem write_capacity_overwrite :
    EveryCall CopyInside 1 ⟨oneFile, 2, -1⟩
      [.call (.write ⟨2, 0x5000⟩ 0 0x2000 4), .call (.cursor (.seek 0 0 3)),
        .call (.write ⟨5, 0x6000⟩ 0 0x2000 1)] := by
  refine (write_capacity_iff oneFile_made ⟨0, rfl, rfl⟩ _).mpr ?_
  refine fun _ => ⟨.inr (by decide), fun f₁ h₁ => ?_⟩
  obtain rfl := Option.some.inj h₁
  refine fun _ => ⟨trivial, fun f₂ h₂ => ?_⟩
  obtain rfl := Option.some.inj h₂
  exact fun _ => ⟨.inr (by decide), fun _ _ => trivial⟩

/-- **A write behind the end leaves the buffer**: the cursor of a new file is moved to 100,
and one byte is written. -/
theorem seek_leaves_buffer :
    ¬ ∀ (n : Nat) (f : Capacity) (es : List FileEvent), FileMade n f → OnTmpfs f.sys n →
      EveryCall (fun n f _ => (f.sys.vfs.nodes n).cursor < 2 ^ 63) n f es →
      EveryCall CopyInside n f es := by
  intro hclaim
  obtain ⟨-, hseek⟩ := hclaim 1 ⟨oneFile, 2, -1⟩
    [.call (.cursor (.seek 0 100 3)), .call (.write ⟨2, 0x5000⟩ 0 0x2000 1)] oneFile_made
    ⟨0, rfl, rfl⟩
    (fun _ => ⟨by decide, fun f₁ h₁ _ => ⟨by
      obtain rfl := Option.some.inj h₁
      decide, fun _ _ => trivial⟩⟩) rfl
  obtain ⟨hinside, -⟩ := hseek _ rfl rfl
  exact absurd (hinside 0 (by decide)) (by decide)

end BestOS
