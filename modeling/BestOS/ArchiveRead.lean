/-
BestOS/ArchiveRead.lean

Are the files of the archive read back as they are?

`tmpfs_create_file` takes a buffer of `size + 1` bytes and remembers where the archive
has the contents; the first read copies them over and then stores -1 in the last byte of
the file, or in the byte in front of the buffer if the file is empty.  It does so if
`init` is false, which `tmpfs_create_file` does not see to: the flag is what the block of
the node held before.

So there are two cases.  A flag left true makes the buffer, whatever it holds, the
contents (`delivers_loaded`).  One left false makes the contents those of the archive but
for the last byte (`delivers_unread`).
-/
import BestOS.ReadConfined
import BestOS.UstarTree

namespace BestOS

open ByteMemory
open BlockHeap (Apart)

/-! ### The property -/

/-- `vfs_read(file, offset, count, dest)`. -/
structure FileRead where
  offset : Nat
  count : Nat
  dest : Nat

/-- Each of the calls returns, puts its part of `data` in its buffer, and changes nothing
else outside the `size + 1` bytes at `block`. -/
def DeliversData (n block size : Nat) (data : Nat → BitVec 8) : SysState → List FileRead → Prop
  | _, [] => True
  | s, r :: reads =>
    ∃ ret s', vfsRead 0 s n r.offset r.count r.dest = some (ret, s') ∧
      (∀ i < r.count, s'.mem (r.dest + i) = data (r.offset + i)) ∧
      (∀ a, (a < block ∨ block + (size + 1) ≤ a) → (a < r.dest ∨ r.dest + r.count ≤ a) →
        s'.mem a = s.mem a) ∧
      DeliversData n block size data s' reads

/-- A call inside the file, with a buffer of the caller's own. -/
structure ReadInside (block address size : Nat) (r : FileRead) : Prop where
  inside : r.offset + r.count ≤ size
  dest : r.dest ≠ 0
  offBlock : Apart r.dest r.count block (size + 1)
  offArchive : Apart r.dest r.count address size

/-- The condition, on what the block of the node and the bytes around the file held when
it was created. -/
def ReadsOk (left : VfsNode) (m : Mem) (block address size : Nat) (reads : List FileRead) : Prop :=
  reads = [] ∨
  if left.init then
    ∀ r ∈ reads, ∀ i < r.count, m (block + (r.offset + i)) = m (address + (r.offset + i))
  else
    (size = 0 → m (block - 1) = 0xFF) ∧
    ∀ r ∈ reads, 0 < r.count → r.offset + r.count = size → m (address + (size - 1)) = 0xFF

/-! ### The file -/

/-- The node of a file that was created from the archive. -/
structure FromArchive (node : VfsNode) (block address size : Nat) : Prop where
  buffer : node.address = block
  archive : node.internalAddress = address
  length : node.stSize = (BitVec.ofNat 64 size).toInt

/-- What `tmpfs_create_file` sets, and what it leaves. -/
theorem tmpfsCreateFile_node {v v' : Vfs} {name : CString} {block address size : Nat}
    (h : tmpfsCreateFile block v name address size = some v') :
    FromArchive (v'.nodes v.next) block address size ∧
      (v'.nodes v.next).init = (v.nodes v.next).init := by
  unfold tmpfsCreateFile at h
  dsimp only at h
  split at h
  · cases h
  · cases h
  · next parent v₁ hg =>
    obtain ⟨e, t, rfl⟩ := vfsGetParent_vfs hg
    obtain rfl := Option.some.inj h
    -- the parent only gets a child, whichever node it is
    by_cases hne : v.next = parent
    · subst hne
      refine ⟨⟨?_, ?_, ?_⟩, ?_⟩ <;> simp [pushChild, setNode, newNode, tmpfsFile, namedFile]
    · refine ⟨⟨?_, ?_, ?_⟩, ?_⟩ <;>
        simp [pushChild, setNode, newNode, tmpfsFile, namedFile, Function.update_of_ne hne]

/-! ### Reads of a file that is in its buffer -/

/-- One read: the bytes are copied, and the file stays where it is. -/
theorem vfsRead_loaded {s : SysState} {n : Nat} (hfs : OnTmpfs s n)
    (hinit : (s.vfs.nodes n).init = true) {r : FileRead} (hdest : r.dest ≠ 0) :
    ∃ ret s', vfsRead 0 s n r.offset r.count r.dest = some (ret, s') ∧
      s'.mem = memcpy s.mem r.dest (((s.vfs.nodes n).address + r.offset) % 2 ^ 64) r.count ∧
      OnTmpfs s' n ∧ (s'.vfs.nodes n).init = true ∧
      (s'.vfs.nodes n).address = (s.vfs.nodes n).address := by
  obtain ⟨hmount, haddr, hset, hmounts⟩ := tmpfsRead_node s n r.offset r.count r.dest
  refine ⟨(tmpfsRead s n r.offset r.count r.dest).1, (tmpfsRead s n r.offset r.count r.dest).2,
    vfsRead_tmpfs hfs 0 r.offset r.count r.dest, (tmpfsRead_mem hinit r.offset r.count hdest).2, ?_, hset, haddr⟩
  obtain ⟨k, hk, htmp⟩ := hfs
  exact ⟨k, hmount.trans hk, by rw [hmounts]; exact htmp⟩

/-- A file in its buffer delivers what the buffer holds. -/
theorem delivers_loaded {n block address size : Nat} {data held : Nat → BitVec 8}
    {reads : List FileRead} (hreads : ∀ r ∈ reads, ReadInside block address size r) {s : SysState}
    (hfs : OnTmpfs s n) (hinit : (s.vfs.nodes n).init = true)
    (haddr : (s.vfs.nodes n).address = block) (hfits : block + size + 1 ≤ 2 ^ 64)
    (hheld : ∀ j < size, s.mem (block + j) = held j) :
    DeliversData n block size data s reads ↔
      ∀ r ∈ reads, ∀ i < r.count, held (r.offset + i) = data (r.offset + i) := by
  induction reads generalizing s with
  | nil => exact iff_of_true trivial fun r hr => absurd hr List.not_mem_nil
  | cons r reads ih =>
    have hr := hreads r List.mem_cons_self
    obtain ⟨ret, s', hread, hmem, hfs', hinit', haddr'⟩ := vfsRead_loaded hfs hinit hr.dest
    have hoff := hr.offBlock
    have hin := hr.inside
    simp only [Apart] at hoff
    rw [haddr, Nat.mod_eq_of_lt (by omega)] at hmem
    rw [haddr] at haddr'
    have hbytes : ∀ i < r.count, s'.mem (r.dest + i) = held (r.offset + i) := by
      intro i hi
      rw [hmem, memcpy_byte _ _ _ hi (by omega), Nat.add_assoc, hheld _ (by omega)]
    have hkeep : ∀ a, (a < r.dest ∨ r.dest + r.count ≤ a) → s'.mem a = s.mem a := by
      intro a ha
      rw [hmem, memcpy_agree _ _ _ _ ha]
    have hheld' : ∀ j < size, s'.mem (block + j) = held j := by
      intro j hj
      rw [hkeep _ (by omega), hheld j hj]
    have hrest := ih (fun q hq => hreads q (List.mem_cons_of_mem r hq)) hfs' hinit' haddr' hheld'
    rw [List.forall_mem_cons, ← hrest]
    constructor
    · rintro ⟨ret₁, s₁, hread₁, hdata, -, hdeliv⟩
      obtain ⟨-, rfl⟩ := Prod.mk.inj (Option.some.inj (hread.symm.trans hread₁))
      exact ⟨fun i hi => (hbytes i hi).symm.trans (hdata i hi), hdeliv⟩
    · rintro ⟨hdata, hdeliv⟩
      exact ⟨ret, s', hread, fun i hi => (hbytes i hi).trans (hdata i hi),
        fun a _ ha => hkeep a ha, hdeliv⟩

/-! ### The first read -/

/-- The bytes of the buffer once it has been filled. -/
def filledByte (m : Mem) (address size j : Nat) : BitVec 8 :=
  if j + 1 = size then 0xFF else m (address + j)

/-- What the first read leaves before it copies. -/
structure Filled (n block address size : Nat) (s s' : SysState) : Prop where
  tmpfs : OnTmpfs s' n
  init : (s'.vfs.nodes n).init = true
  buffer : (s'.vfs.nodes n).address = block
  inside : ∀ j < size, s'.mem (block + j) = filledByte s.mem address size j
  front : size = 0 → s'.mem (block - 1) = 0xFF
  outside : ∀ a, (a < block ∨ block + (size + 1) ≤ a) → (size = 0 → a ≠ block - 1) →
    s'.mem a = s.mem a

theorem firstRead_filled {s : SysState} {n block address size : Nat} (hfs : OnTmpfs s n)
    (hnode : FromArchive (s.vfs.nodes n) block address size)
    (hinit : (s.vfs.nodes n).init = false) (hblock : block ≠ 0)
    (hfits : block + size + 1 ≤ 2 ^ 64) (hapart : Apart block (size + 1) address size) :
    Filled n block address size s (tmpfsLoad s n) := by
  have hsize : (BitVec.ofNat 64 size).toNat = size := by
    rw [BitVec.toNat_ofNat]
    exact Nat.mod_eq_of_lt (by omega)
  have hlen : toSize (s.vfs.nodes n).stSize = size := by
    rw [toSize, hnode.length, BitVec.ofInt_toInt, hsize]
  have hlast : toSize (block + (s.vfs.nodes n).stSize - 1) = block + size - 1 := by
    rw [toSize, BitVec.toNat_ofInt, hnode.length, BitVec.toInt_eq_toNat_bmod, hsize, Int.bmod_def]
    split <;> omega
  have hmem : (tmpfsLoad s n).mem
      = put (memcpy s.mem block address size) (block + size - 1) 0xFF := by
    unfold tmpfsLoad
    simp only [hinit, hnode.buffer, hnode.archive, hlen, hlast, setFile, Bool.false_eq_true, if_false]
  have hcopy := fun x => memcpy_apply s.mem block address size x (by
    simp only [Apart] at hapart
    omega)
  obtain ⟨htask, hmounts, hmount, -⟩ := tmpfsLoad_node s n
  refine ⟨?_, ?_, ?_, fun j hj => ?_, fun hzero => ?_, fun a ha hfront => ?_⟩
  · obtain ⟨k, hk, htmp⟩ := hfs
    exact ⟨k, hmount.trans hk, by rw [hmounts]; exact htmp⟩
  · simp [tmpfsLoad, hinit, setFile, setNode]
  · simp [tmpfsLoad, hinit, setFile, setNode, hnode.buffer]
  · rw [hmem, filledByte]
    split
    · rw [show block + j = block + size - 1 by omega, put_same]
    · rw [put_ne (by omega), hcopy, if_pos (by omega), Nat.add_sub_cancel_left]
  · rw [hmem, hzero, Nat.add_zero, put_same]
  · rw [hmem, put_ne (by omega), hcopy, if_neg (by omega)]

/-- A read of a file that was filled is the read itself. -/
theorem vfsRead_load {s : SysState} {n : Nat} (hfs : OnTmpfs s n)
    (hfs' : OnTmpfs (tmpfsLoad s n) n) (hinit : ((tmpfsLoad s n).vfs.nodes n).init = true)
    (offset count dest : Nat) :
    vfsRead 0 s n offset count dest = vfsRead 0 (tmpfsLoad s n) n offset count dest := by
  have hload : tmpfsLoad (tmpfsLoad s n) n = tmpfsLoad s n := by
    rw [tmpfsLoad]
    dsimp only
    rw [if_pos hinit]
  rw [vfsRead_tmpfs hfs, vfsRead_tmpfs hfs', tmpfsRead, tmpfsRead, hload]

/-- The first call starts from the filled buffer. -/
theorem delivers_filled {s : SysState} {n block address size : Nat} (hfs : OnTmpfs s n)
    (hfill : Filled n block address size s (tmpfsLoad s n)) (hblock : block ≠ 0)
    {data : Nat → BitVec 8} {r : FileRead} (hr : ReadInside block address size r)
    (reads : List FileRead) :
    DeliversData n block size data s (r :: reads) ↔
      (size = 0 → s.mem (block - 1) = 0xFF) ∧
      DeliversData n block size data (tmpfsLoad s n) (r :: reads) := by
  obtain ⟨ret, s', hread, hmem, -⟩ := vfsRead_loaded hfill.tmpfs hfill.init hr.dest
  have hsame := vfsRead_load hfs hfill.tmpfs hfill.init r.offset r.count r.dest
  have hin := hr.inside
  have hkeep : ∀ a, (a < r.dest ∨ r.dest + r.count ≤ a) → s'.mem a = (tmpfsLoad s n).mem a := by
    intro a ha
    rw [hmem, memcpy_agree _ _ _ _ ha]
  constructor
  · rintro ⟨ret₁, s₁, hread₁, hdata, hframe, hrest⟩
    obtain ⟨-, rfl⟩ := Prod.mk.inj (Option.some.inj (hread.symm.trans (hsame.symm.trans hread₁)))
    refine ⟨fun hzero => ?_, ret, s', hread, hdata, fun a _ ha => hkeep a ha, hrest⟩
    rw [← hframe (block - 1) (by omega) (by omega), hkeep (block - 1) (by omega), hfill.front hzero]
  · rintro ⟨hfront, ret₁, s₁, hread₁, hdata, -, hrest⟩
    obtain ⟨-, rfl⟩ := Prod.mk.inj (Option.some.inj (hread.symm.trans hread₁))
    refine ⟨ret, s', hsame.trans hread, hdata, fun a hout ha => ?_, hrest⟩
    rw [hkeep a ha]
    by_cases hedge : size = 0 ∧ a = block - 1
    · rw [hedge.2, hfill.front hedge.1, hfront hedge.1]
    · exact hfill.outside a hout fun hzero heq => hedge ⟨hzero, heq⟩

/-- The last byte is the only one that may differ. -/
theorem filled_agrees_iff {m : Mem} {block address size : Nat} {reads : List FileRead}
    (hreads : ∀ q ∈ reads, ReadInside block address size q) :
    (∀ q ∈ reads, ∀ i < q.count,
        filledByte m address size (q.offset + i) = m (address + (q.offset + i))) ↔
      ∀ q ∈ reads, 0 < q.count → q.offset + q.count = size →
        m (address + (size - 1)) = 0xFF := by
  refine forall_congr' fun q => forall_congr' fun hq => ?_
  have hin := (hreads q hq).inside
  constructor
  · intro h hpos hend
    have hlast := h (q.count - 1) (by omega)
    rw [filledByte, if_pos (by omega), show q.offset + (q.count - 1) = size - 1 by omega] at hlast
    exact hlast.symm
  · intro h i hi
    unfold filledByte
    split
    · next hend =>
      have hlast := h (by omega) (by omega)
      rw [show size - 1 = q.offset + i by omega] at hlast
      exact hlast.symm
    · rfl

/-- A file that has not been read delivers the archive but for the last byte. -/
theorem delivers_unread {s : SysState} {n block address size : Nat} (hfs : OnTmpfs s n)
    (hnode : FromArchive (s.vfs.nodes n) block address size)
    (hinit : (s.vfs.nodes n).init = false) (hblock : block ≠ 0)
    (hfits : block + size + 1 ≤ 2 ^ 64) (hapart : Apart block (size + 1) address size)
    {r : FileRead} {reads : List FileRead}
    (hreads : ∀ q ∈ r :: reads, ReadInside block address size q) :
    DeliversData n block size (fun i => s.mem (address + i)) s (r :: reads) ↔
      (size = 0 → s.mem (block - 1) = 0xFF) ∧
      ∀ q ∈ r :: reads, 0 < q.count → q.offset + q.count = size →
        s.mem (address + (size - 1)) = 0xFF := by
  have hfill := firstRead_filled hfs hnode hinit hblock hfits hapart
  rw [delivers_filled hfs hfill hblock (hreads r List.mem_cons_self),
    delivers_loaded hreads hfill.tmpfs hfill.init hfill.buffer hfits hfill.inside,
    filled_agrees_iff hreads]

/-- The file `/f` of four bytes, made of the archive at 0x4000 under a new root. -/
def newFileVfs : Vfs := (tmpfsCreateFile 0x1000 tinyRoot ['/', 'f'] 0x4000 4).getD noVfs

theorem newFileVfs_eq :
    tmpfsCreateFile 0x1000 tinyRoot ['/', 'f'] 0x4000 4 = some newFileVfs := rfl

def newFileState : SysState := { fourBytes with vfs := newFileVfs }

theorem newFileState_tmpfs : OnTmpfs newFileState tinyRoot.next := ⟨0, rfl, rfl⟩

end BestOS
