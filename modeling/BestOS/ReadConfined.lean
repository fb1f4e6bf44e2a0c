/-
BestOS/ReadConfined.lean

Do reads stay inside the file?

`sys_seek` puts any 64-bit value into the cursor and `sys_read` copies any
number of bytes from there on; neither looks at `st_size`.  So a read may run
past the contents or start outside them, and a seek to a negative position is
carried out.  `CallConfined` is what is asked of one call, and `CallOk` the
condition under which the code does it, on the state the call is made in.

A run makes such calls on one file, through any descriptors and by any tasks.
Between them other code may run, as long as it leaves the node of the file and
the mount points alone; the contents of memory play no part.
-/
import BestOS.ReadAfterWrite

namespace BestOS

open ByteMemory

/-! ### Calls that move the cursor -/

/-- `sys_read` or `sys_seek`, with the arguments of the registers; `tmp` is the
address that `devfs_read` would get from `malloc`. -/
inductive CursorCall
  | read (tmp : Nat) (fd : BitVec 32) (buf count : BitVec 64)
  | seek (fd : BitVec 32) (offset : BitVec 64) (whence : BitVec 32)

def CursorCall.fd : CursorCall → Int
  | .read _ fd _ _ => fd.toInt
  | .seek fd _ _ => fd.toInt

def cursorCall (s : SysState) : CursorCall → Option (Int × SysState)
  | .read tmp fd buf count => sysRead tmp s fd.toInt buf.toNat count.toNat
  | .seek fd offset whence => sysSeek s fd.toInt offset.toInt whence.toInt

/-- The states reached from `s₀` by calls on node `n` that meet `ok` where they
are made. -/
inductive CursorRun (ok : SysState → CursorCall → Prop) (n : Nat) (s₀ : SysState) : SysState → Prop
  | start : CursorRun ok n s₀ s₀
  | call {s s' ret} (c : CursorCall) : CursorRun ok n s₀ s → fileOf s c.fd = some n → ok s c →
      cursorCall s c = some (ret, s') → CursorRun ok n s₀ s'
  | other {s t} : CursorRun ok n s₀ s → t.vfs.nodes n = s.vfs.nodes n → t.vfs.mounts = s.vfs.mounts →
      CursorRun ok n s₀ t

/-! ### The property -/

/-- Address `a` holds one of the `st_size` bytes of the file. -/
def InContents (node : VfsNode) (a : Nat) : Prop :=
  ∃ j : Nat, (j : Int) < node.stSize ∧ a % 2 ^ 64 = (node.address + j) % 2 ^ 64

/-- How many bytes `memcpy` puts into the buffer: none if it is NULL. -/
def copied (buf count : BitVec 64) : Nat := if buf = 0 then 0 else count.toNat

/-- A read that finds memory as `m` leaves it as `m'`, with a copy of contents of the
file and nothing else; it returns their number, which is at most what the file has
from the cursor on. -/
structure ReadConfined (node : VfsNode) (m m' : Mem) (buf count : BitVec 64) (ret : Int) :
    Prop where
  bytes : ∃ src, m' = memcpy m buf.toNat src (copied buf count) ∧
    ∀ i < copied buf count, InContents node (src + i)
  value : ret = copied buf count
  bound : ret ≤ max 0 (node.stSize - node.cursor)

/-- Where a seek is meant to go. -/
def seekTarget (node : VfsNode) (offset whence : Int) : Option Int :=
  if whence = SEEK_SET then some offset
  else if whence = SEEK_CUR then some (node.cursor + offset)
  else if whence = SEEK_END then some (node.stSize + offset)
  else none

/-- The call failed, and the cursor is where it was. -/
structure Rejected (n : Nat) (s s' : SysState) (ret : Int) : Prop where
  value : ret = -1
  errno : s'.vfs.errno = EINVAL
  cursor : (s'.vfs.nodes n).cursor = (s.vfs.nodes n).cursor

/-- What is asked of one call on node `n`.  The first read fills the buffer of the
file before it copies. -/
def CallConfined (n : Nat) (s : SysState) (c : CursorCall) : Prop :=
  ∀ ret s', cursorCall s c = some (ret, s') →
    match c with
    | .read _ _ buf count =>
        ReadConfined (s.vfs.nodes n) (tmpfsLoad s n).mem s'.mem buf count ret
    | .seek _ offset whence =>
        ∀ t, seekTarget (s.vfs.nodes n) offset.toInt whence.toInt = some t → t < 0 →
          Rejected n s s' ret

/-- The condition: a read has a buffer and ends inside the contents, and fits the
`int` that the filesystem returns; a seek does not go below zero. -/
def CallOk (n : Nat) (s : SysState) : CursorCall → Prop
  | .read _ _ buf count =>
      buf ≠ 0 ∧ count.toNat < 2 ^ 31 ∧
        (count.toNat = 0 ∨ (s.vfs.nodes n).cursor + count.toNat ≤ (s.vfs.nodes n).stSize)
  | .seek _ offset whence =>
      ∀ t, seekTarget (s.vfs.nodes n) offset.toInt whence.toInt = some t → 0 ≤ t

/-! ### One call -/

/-- How far a read moves the cursor: `sys_read` advances it, and `tmpfs_read` has
done so already, unless the buffer is NULL. -/
def advance (buf count : BitVec 64) : Nat := if buf = 0 then count.toNat else 2 * count.toNat

/-- What `sys_read` on a tmpfs file returns, and the state it leaves: `copied`
bytes from the cursor on, which is added to the address in 64 bits, are put into
the buffer. -/
theorem sysRead_copies {s : SysState} {n : Nat} {fd : Int} (hfd : fileOf s fd = some n)
    (hmount : OnTmpfs s n) (tmp : Nat) (buf count : BitVec 64) :
    ∃ s', sysRead tmp s fd buf.toNat count.toNat
        = some (if buf = 0 then -1 else toInt count.toNat, s') ∧
      s'.mem = memcpy (tmpfsLoad s n).mem buf.toNat
        (((s.vfs.nodes n).address + (s.vfs.nodes n).cursor) % 2 ^ 64) (copied buf count) ∧
      s'.task = s.task ∧ s'.vfs.mounts = s.vfs.mounts ∧
      s'.vfs.nodes n = { s.vfs.nodes n with
        init := true
        cursor := ((s.vfs.nodes n).cursor + advance buf count) % 2 ^ 64 } := by
  obtain ⟨htask, hmounts, -, -⟩ := tmpfsLoad_node s n
  have hnode : (tmpfsLoad s n).vfs.nodes n = { s.vfs.nodes n with init := true } := by
    unfold tmpfsLoad
    dsimp only
    split
    · next hinit => rw [← hinit]
    · simp only [setFile, setNode, Function.update_self]
  unfold sysRead
  rw [hfd]
  dsimp only
  rw [vfsRead_tmpfs hmount, tmpfsRead, copied, advance]
  by_cases hbuf : buf = 0
  · rw [if_pos hbuf, if_pos hbuf, if_pos hbuf, hbuf]
    refine ⟨_, rfl, rfl, htask, hmounts, ?_⟩
    simp only [setFile, setNode, Function.update_self]
    show { (tmpfsLoad s n).vfs.nodes n with
      cursor := (((tmpfsLoad s n).vfs.nodes n).cursor + count.toNat) % 2 ^ 64 } = _
    rw [hnode]
  · have hne : buf.toNat ≠ 0 := fun h => hbuf (BitVec.eq_of_toNat_eq h)
    dsimp only
    rw [if_neg hbuf, if_neg hbuf, if_neg hbuf, if_neg hne, hnode]
    refine ⟨_, rfl, rfl, htask, hmounts, ?_⟩
    simp only [setFile, setNode, Function.update_self, hnode]
    -- the two steps are one step of twice the length
    congr 1
    omega

theorem toInt_lt (k : Nat) : toInt k < 2 ^ 31 := by
  have := BitVec.toInt_lt (x := BitVec.ofNat 32 k)
  unfold toInt
  omega

theorem readConfined_iff (node : VfsNode) (m : Mem) (buf count : BitVec 64) :
    ReadConfined node m
        (memcpy m buf.toNat ((node.address + node.cursor) % 2 ^ 64) (copied buf count)) buf count
        (if buf = 0 then -1 else toInt count.toNat) ↔
      buf ≠ 0 ∧ count.toNat < 2 ^ 31 ∧
        (count.toNat = 0 ∨ node.cursor + count.toNat ≤ node.stSize) := by
  by_cases hbuf : buf = 0
  · refine iff_of_false (fun h => ?_) fun h => h.1 hbuf
    have hval := h.value
    rw [if_pos hbuf, copied, if_pos hbuf] at hval
    cases hval
  · rw [if_neg hbuf]
    have hcopied : copied buf count = count.toNat := if_neg hbuf
    constructor
    · rintro ⟨-, hval, hbound⟩
      have hlt := toInt_lt count.toNat
      rw [hcopied] at hval
      exact ⟨hbuf, by omega, by omega⟩
    · rintro ⟨-, hlt, hend⟩
      have hint := toInt_of_lt hlt
      refine ⟨⟨_, rfl, fun i hi => ?_⟩, by rw [hint, hcopied], by omega⟩
      rw [hcopied] at hi
      exact ⟨node.cursor + i, by omega, by omega⟩

/-- A seek whose target is given changes nothing but the cursor, and `errno` never. -/
theorem sysSeek_errno {s s' : SysState} {n : Nat} {fd offset whence ret t : Int}
    (hfd : fileOf s fd = some n) (ht : seekTarget (s.vfs.nodes n) offset whence = some t)
    (h : sysSeek s fd offset whence = some (ret, s')) : s'.vfs.errno = s.vfs.errno := by
  obtain ⟨base, hbase⟩ : ∃ base, seekBase (s.vfs.nodes n) offset whence = some base := by
    unfold seekTarget at ht
    unfold seekBase
    split_ifs at ht ⊢
    all_goals exact ⟨_, rfl⟩
  obtain ⟨n', hn', ⟨hnone, -⟩ | ⟨-, rfl⟩⟩ := sysSeek_cases h
  · obtain rfl := Option.some.inj (hfd.symm.trans hn')
    rw [hbase] at hnone
    cases hnone
  · rfl

/-- `sys_seek` returns on every open descriptor. -/
theorem sysSeek_returns {s : SysState} {n : Nat} {fd : Int} (hfd : fileOf s fd = some n)
    (offset whence : Int) : ∃ ret s', sysSeek s fd offset whence = some (ret, s') := by
  unfold sysSeek
  rw [hfd]
  dsimp only
  cases seekBase (s.vfs.nodes n) offset whence with
  | none => exact ⟨_, _, rfl⟩
  | some base => exact ⟨_, _, rfl⟩

/-- **One call, exactly.**  Where it was made with `errno` cleared, a call is
confined if and only if it meets the condition. -/
theorem callConfined_of_ok {s : SysState} {n : Nat} (hmount : OnTmpfs s n) {c : CursorCall}
    (hfd : fileOf s c.fd = some n) :
    (CallOk n s c → CallConfined n s c) ∧
      (s.vfs.errno = 0 → CallConfined n s c → CallOk n s c) := by
  cases c with
  | read tmp fd buf count =>
      obtain ⟨s', hread, hmem, -⟩ := sysRead_copies hfd hmount tmp buf count
      have hiff := readConfined_iff (s.vfs.nodes n) (tmpfsLoad s n).mem buf count
      rw [← hmem] at hiff
      refine ⟨fun hok ret s'' h => ?_, fun _ h => hiff.mp (h _ s' hread)⟩
      obtain ⟨rfl, rfl⟩ := Prod.mk.inj (Option.some.inj (hread.symm.trans h))
      exact hiff.mpr hok
  | seek fd offset whence =>
      refine ⟨fun hok ret s' _ t ht hneg => ?_, fun herr h t ht => ?_⟩
      · have := hok t ht
        omega
      · by_contra hneg
        obtain ⟨ret, s', hseek⟩ := sysSeek_returns hfd offset.toInt whence.toInt
        have hrej := (h ret s' hseek t ht (by omega)).errno
        rw [sysSeek_errno hfd ht hseek, herr] at hrej
        cases hrej

/-! ### Runs -/

theorem OnTmpfs.setFile {s : SysState} {n m : Nat} (h : OnTmpfs s n) (f : VfsNode → VfsNode)
    (hf : ∀ node, (f node).mountpoint = node.mountpoint) : OnTmpfs (setFile s m f) n := by
  obtain ⟨k, hk, hfs⟩ := h
  refine ⟨k, ?_, hfs⟩
  by_cases hm : n = m
  · subst hm
    simp only [BestOS.setFile, setNode, Function.update_self, hf, hk]
  · simp only [BestOS.setFile, setNode, Function.update_of_ne hm, hk]

/-- Reads and seeks leave the file where it is mounted. -/
theorem OnTmpfs.cursorCall {s s' : SysState} {n : Nat} {c : CursorCall} {ret : Int}
    (h : OnTmpfs s n) (hfd : fileOf s c.fd = some n) (hcall : cursorCall s c = some (ret, s')) :
    OnTmpfs s' n := by
  cases c with
  | read tmp fd buf count =>
      obtain ⟨s'', hread, -, -, hmounts, hnode⟩ := sysRead_copies hfd h tmp buf count
      obtain ⟨-, rfl⟩ := Prod.mk.inj (Option.some.inj (hread.symm.trans hcall))
      obtain ⟨k, hk, hfs⟩ := h
      exact ⟨k, by rw [hnode]; exact hk, by rw [hmounts]; exact hfs⟩
  | seek fd offset whence =>
      obtain ⟨n', hn', ⟨-, rfl⟩ | ⟨-, rfl⟩⟩ := sysSeek_cases hcall
      · exact h
      · obtain rfl := Option.some.inj (hfd.symm.trans hn')
        exact h.setFile _ fun _ => rfl

theorem CursorRun.onTmpfs {ok : SysState → CursorCall → Prop} {n : Nat} {s₀ s : SysState}
    (h₀ : OnTmpfs s₀ n) (hrun : CursorRun ok n s₀ s) : OnTmpfs s n := by
  induction hrun with
  | start => exact h₀
  | call c _ hfd _ hcall ih => exact ih.cursorCall hfd hcall
  | other _ hnode hmounts ih =>
      obtain ⟨k, hk, hfs⟩ := ih
      exact ⟨k, by rw [hnode]; exact hk, by rw [hmounts]; exact hfs⟩

/-- **Read confinement.**  In every run of reads and seeks on a tmpfs file that
all meet the condition, each call is confined; and where `errno` is cleared, as
`syscall_dispatch` leaves it, the condition is also necessary for that. -/
theorem reads_confined {n : Nat} {s₀ s : SysState} (h₀ : OnTmpfs s₀ n)
    (hrun : CursorRun (CallOk n) n s₀ s) (c : CursorCall) (hfd : fileOf s c.fd = some n) :
    (CallOk n s c → CallConfined n s c) ∧
      (s.vfs.errno = 0 → CallConfined n s c → CallOk n s c) :=
  callConfined_of_ok (hrun.onTmpfs h₀) hfd

/-- Four bytes: a seek to offset 2, and two bytes read from there. -/
theorem reads_confined_fourBytes :
    ∃ s, CursorRun (CallOk 0) 0 fourBytes s ∧ (s.vfs.nodes 0).cursor = 2 ∧
      CallConfined 0 s (.read 0 0 0x3000 2) := by
  have hrun : CursorRun (CallOk 0) 0 fourBytes
      (setFile fourBytes 0 fun node => { node with cursor := 2 }) :=
    .call (.seek 0 2 3) .start rfl
      (fun t ht => by
        obtain rfl : (2 : Int) = t := Option.some.inj ht
        decide) rfl
  have hok : CallOk 0 (setFile fourBytes 0 fun node => { node with cursor := 2 })
      (.read 0 0 0x3000 2) := ⟨by decide, by decide, .inr (by decide)⟩
  exact ⟨_, hrun, rfl, (reads_confined ⟨0, rfl, rfl⟩ hrun _ rfl).1 hok⟩

/-- **Reads are not confined**: five bytes are read from a file of four. -/
theorem read_past_end :
    ¬ ∀ (n : Nat) (s₀ s : SysState) (c : CursorCall), OnTmpfs s₀ n →
      CursorRun (fun _ _ => True) n s₀ s → fileOf s c.fd = some n → CallConfined n s c := by
  intro hclaim
  have hread := hclaim 0 fourBytes fourBytes (.read 0 0 0x3000 5) ⟨0, rfl, rfl⟩ .start rfl _ _ rfl
  exact absurd hread.bound (by decide)

end BestOS
