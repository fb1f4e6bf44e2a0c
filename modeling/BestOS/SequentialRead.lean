/-
BestOS/SequentialRead.lean

Consecutive `sys_read` calls on one tmpfs file.

Each call should deliver the bytes from where the one before stopped.  The
position is `node->cursor`, and it is advanced twice: by `tmpfs_read`, which was
given the offset, and by `sys_read`, which took the offset from the cursor.  A
single read of `n` bytes starts in the right place and leaves the cursor `2 n`
further (`sysRead_tmpfs`), so after a list of reads it stands at `c + 2 Σ` where
`c + Σ` was due.

`Delivers` states the contract, without saying how the calls keep it;
`delivers_iff` says for which lists the code meets it.
-/
import BestOS.Syscalls
import BestOS.VfsTree

namespace BestOS

open ByteMemory

/-- Descriptor `fd` designates node `n`, on a tmpfs. -/
structure TmpfsFile (s : SysState) (fd : Int) (n : Nat) : Prop where
  file : fileOf s fd = some n
  mounted : ∃ m, (s.vfs.nodes n).mountpoint = some m ∧ (s.vfs.mounts m).fs = some .tmpfs

/-- The contents of a file: its buffer, or before the first read the archive
behind it. -/
def contents (s : SysState) (n i : Nat) : BitVec 8 :=
  if (s.vfs.nodes n).init then s.mem ((s.vfs.nodes n).address + i)
  else s.mem ((s.vfs.nodes n).internalAddress + i)

/-- One `sys_read` call: the buffer and the number of bytes. -/
structure ReadCall where
  buf : Nat
  count : Nat

/-- The number of bytes asked for by a list of calls. -/
def totalCount (reads : List ReadCall) : Nat := (reads.map ReadCall.count).sum

/-- Starting at position `pos`, each of the calls returns and puts the next slice
of `data` in its buffer, and the cursor ends behind the last one. -/
def Delivers (tmp : Nat) (fd : Int) (n : Nat) (data : Nat → BitVec 8) :
    SysState → Nat → List ReadCall → Prop
  | s, pos, [] => (s.vfs.nodes n).cursor = pos
  | s, pos, call :: reads =>
    ∃ ret s', sysRead tmp s fd call.buf call.count = some (ret, s') ∧
      (∀ i < call.count, s'.mem (call.buf + i) = data (pos + i)) ∧
      Delivers tmp fd n data s' (pos + call.count) reads

/-! ### One read -/

theorem tmpfsLoad_node (s : SysState) (n : Nat) :
    (tmpfsLoad s n).task = s.task ∧ (tmpfsLoad s n).vfs.mounts = s.vfs.mounts ∧
      ((tmpfsLoad s n).vfs.nodes n).mountpoint = (s.vfs.nodes n).mountpoint ∧
      ((tmpfsLoad s n).vfs.nodes n).cursor = (s.vfs.nodes n).cursor := by
  unfold tmpfsLoad
  dsimp only
  split
  · exact ⟨rfl, rfl, rfl, rfl⟩
  · refine ⟨rfl, rfl, ?_, ?_⟩
    · simp only [setFile, setNode, Function.update_self]
    · simp only [setFile, setNode, Function.update_self]

/-- `sys_read` of `count` bytes returns and moves the cursor twice as far. -/
theorem sysRead_tmpfs {s : SysState} {fd : Int} {n : Nat} (h : TmpfsFile s fd n) (tmp : Nat)
    {buf : Nat} (hbuf : buf ≠ 0) (count : Nat) :
    ∃ ret s', sysRead tmp s fd buf count = some (ret, s') ∧ TmpfsFile s' fd n ∧
      (s'.vfs.nodes n).cursor = ((s.vfs.nodes n).cursor + 2 * count) % 2 ^ 64 := by
  obtain ⟨m, hm, hfs⟩ := h.mounted
  obtain ⟨htask, hmounts, hmount, hcursor⟩ := tmpfsLoad_node s n
  have hread : vfsRead tmp s n (s.vfs.nodes n).cursor count buf =
      some (tmpfsRead s n (s.vfs.nodes n).cursor count buf) := by
    rw [vfsRead_nodeFs, nodeFs, hm, Option.bind_some, hfs]
    rfl
  unfold sysRead
  rw [h.file]
  dsimp only
  rw [hread]
  unfold tmpfsRead
  dsimp only
  rw [if_neg hbuf]
  refine ⟨_, _, rfl, ⟨?_, m, ?_, ?_⟩, ?_⟩
  · unfold fileOf
    show (getFd (tmpfsLoad s n).task fd).bind _ = _
    rw [htask]
    exact h.file
  · simp only [setFile, setNode, Function.update_self]
    rw [hmount, hm]
  · show ((tmpfsLoad s n).vfs.mounts m).fs = _
    rw [hmounts, hfs]
  · simp only [setFile, setNode, Function.update_self]
    rw [hcursor]
    omega

/-! ### A list of reads -/

theorem totalCount_cons (call : ReadCall) (reads : List ReadCall) :
    totalCount (call :: reads) = call.count + totalCount reads := by
  simp [totalCount]

/-- The cursor at the end of a list of reads that delivers is twice the total
further. -/
theorem Delivers.cursor {tmp : Nat} {fd : Int} {n : Nat} {data : Nat → BitVec 8}
    {reads : List ReadCall} {s : SysState} {pos : Nat} (hfile : TmpfsFile s fd n)
    (hbuf : ∀ r ∈ reads, r.buf ≠ 0) (h : Delivers tmp fd n data s pos reads) :
    ((s.vfs.nodes n).cursor + 2 * totalCount reads) % 2 ^ 64 =
      (pos + totalCount reads) % 2 ^ 64 := by
  induction reads generalizing s pos with
  | nil =>
    rw [show (s.vfs.nodes n).cursor = pos from h]
    rfl
  | cons call reads ih =>
    obtain ⟨ret, s', hread, -, hrest⟩ := h
    obtain ⟨ret', s'', hread', hfile', hcursor⟩ :=
      sysRead_tmpfs hfile tmp (hbuf call List.mem_cons_self) call.count
    obtain ⟨-, rfl⟩ : ret = ret' ∧ s' = s'' := by
      rw [hread] at hread'
      simpa using hread'
    have hind := ih hfile' (fun r hr => hbuf r (List.mem_cons_of_mem call hr)) hrest
    rw [hcursor] at hind
    rw [totalCount_cons]
    omega

/-- Reads of no bytes deliver what they are asked for. -/
theorem delivers_of_empty {tmp : Nat} {fd : Int} {n : Nat} {data : Nat → BitVec 8}
    {reads : List ReadCall} {s : SysState} {pos : Nat} (hfile : TmpfsFile s fd n)
    (hbuf : ∀ r ∈ reads, r.buf ≠ 0) (hzero : ∀ r ∈ reads, r.count = 0)
    (hpos : (s.vfs.nodes n).cursor = pos) (hlt : pos < 2 ^ 64) :
    Delivers tmp fd n data s pos reads := by
  induction reads generalizing s with
  | nil => exact hpos
  | cons call reads ih =>
    have hcount : call.count = 0 := hzero call List.mem_cons_self
    obtain ⟨ret, s', hread, hfile', hcursor⟩ :=
      sysRead_tmpfs hfile tmp (hbuf call List.mem_cons_self) call.count
    refine ⟨ret, s', hread, ?_, ?_⟩
    · intro i hi
      omega
    · rw [hcount, Nat.add_zero]
      refine ih hfile' (fun r hr => hbuf r (List.mem_cons_of_mem call hr))
        (fun r hr => hzero r (List.mem_cons_of_mem call hr)) ?_
      rw [hcursor, hcount, hpos]
      omega

/-- **When consecutive reads are sequential.**  For every tmpfs file, every
cursor and every list of reads into non-NULL buffers that stays inside the file,
the calls deliver consecutive slices and leave the cursor behind the last one
exactly when none of them asks for a byte. -/
theorem delivers_iff {s : SysState} {fd : Int} {n : Nat} (hfile : TmpfsFile s fd n)
    {reads : List ReadCall} (hbuf : ∀ r ∈ reads, r.buf ≠ 0)
    (hsize : (s.vfs.nodes n).stSize < 2 ^ 63)
    (hfit : ((s.vfs.nodes n).cursor + totalCount reads : Nat) ≤ (s.vfs.nodes n).stSize)
    (tmp : Nat) :
    Delivers tmp fd n (contents s n) s (s.vfs.nodes n).cursor reads ↔
      ∀ r ∈ reads, r.count = 0 := by
  constructor
  · intro h
    have hcursor := h.cursor hfile hbuf
    have htotal : totalCount reads = 0 := by omega
    intro r hr
    have hall := List.sum_eq_zero_iff_forall_eq_nat.mp htotal
    exact hall r.count (List.mem_map_of_mem hr)
  · intro hzero
    exact delivers_of_empty hfile hbuf hzero rfl (by omega)

/-! ### A file of four bytes -/

/-- A task that holds one file of four bytes at the start, as descriptor 0. -/
def fourBytes : SysState where
  vfs :=
    { nodes := fun _ =>
        { zeroNode with
          name := ['f']
          mountpoint := some 0
          stSize := 4
          address := 0x1000
          init := true }
      next := 1
      mounts := fun _ => ⟨some .tmpfs, some 0⟩
      nextMount := 1
      mountpointsN := 1
      root := some 0
      errno := 0
      strtok := none }
  task :=
    { currentFd := 1
      descriptors := vecPush true vecInit ⟨0, some 0⟩
      cwd := some 0 }
  mem := fun a => BitVec.ofNat 8 a
  freed := []
  input := []

theorem fourBytes_file : TmpfsFile fourBytes 0 0 := ⟨rfl, 0, rfl, rfl⟩

/-- Two reads of nothing leave the cursor where it was. -/
theorem delivers_iff_fourBytes :
    Delivers 0 0 0 (contents fourBytes 0) fourBytes 0 [⟨0x2000, 0⟩, ⟨0x2000, 0⟩] :=
  (delivers_iff fourBytes_file (by simp) (by decide) (by decide) 0).mpr (by simp)

/-- **A single read of one byte leaves the cursor at 2.** -/
theorem one_byte_not_sequential :
    ¬ ∀ (s : SysState) (fd : Int) (n : Nat) (reads : List ReadCall) (tmp : Nat),
      TmpfsFile s fd n → (∀ r ∈ reads, r.buf ≠ 0) → (s.vfs.nodes n).stSize < 2 ^ 63 →
      ((s.vfs.nodes n).cursor + totalCount reads : Nat) ≤ (s.vfs.nodes n).stSize →
      Delivers tmp fd n (contents s n) s (s.vfs.nodes n).cursor reads := by
  intro hclaim
  obtain ⟨ret, s', hread, -, hcursor⟩ :=
    hclaim fourBytes 0 0 [⟨0x2000, 1⟩] 0 fourBytes_file (by simp) (by decide) (by decide)
  have hend : (sysRead 0 fourBytes 0 0x2000 1).map (fun r => (r.2.vfs.nodes 0).cursor) = some 2 := rfl
  rw [hread, Option.map_some, show (s'.vfs.nodes 0).cursor = 1 from hcursor] at hend
  exact absurd hend (by decide)

end BestOS
