/-
BestOS/Ustar.lean

The initial filesystem, `kernel/fs/ustar.c` and `tmpfs_create_file` of
`kernel/fs/tmpfs.c`.

`create_tmpfs_files` walks over an archive in memory, header by header, and makes
a directory or a file of each.  The archive is not stored to, so its bytes are
those of one memory.

A path is built in a block of `strlen(name) + 2` bytes that is filled with a
slash and the name and not terminated: what the rest of the kernel takes for the
path ends with whatever the last byte of the block and the bytes behind it held,
up to a NUL.  `UstarHeap.tail` is that part, for each round of the loop.  The
contents of node blocks before they are filled in are those of `Vfs.nodes`.
-/
import BestOS.VfsTree
import BestOS.Mem
import Mathlib.Data.Nat.ModEq

namespace BestOS

open ByteMemory

/-! ### Reading a header -/

/-- A pointer reaches 2^64 bytes. -/
@[irreducible] def maxString : Nat := 2 ^ 64

/-- The string at an address, up to its NUL, of at most `limit` characters. -/
def cString (m : Mem) (a : Nat) : Nat → CString
  | 0 => []
  | limit + 1 => if m a = 0 then [] else Char.ofNat (m a).toNat :: cString m (a + 1) limit

/-- `in[j] - '0'`, as an `unsigned int`; `char` is signed. -/
def digit (b : BitVec 8) : Nat := ((b.toInt - 48) % 2 ^ 32).toNat

/-- The loop of `getsize`, from index `j` down, in 32 bits. -/
def getsizeLoop (m : Mem) (a : Nat) : Nat → Nat → Nat → Nat
  | 0, _, size => size
  | j + 1, count, size =>
    getsizeLoop m a j (count * 8 % 2 ^ 32) ((size + digit (m (a + j)) * count) % 2 ^ 32)

/-- `getsize`. -/
def getsize (m : Mem) (a : Nat) : Nat := getsizeLoop m a 11 1 0

/-- `header->name`. -/
def headerName (m : Mem) (a : Nat) : CString := cString m a maxString

/-- `header->typeflag[0]`. -/
def headerType (m : Mem) (a : Nat) : BitVec 8 := m (a + 156)

/-- `getsize(header->size)`. -/
def headerGetsize (m : Mem) (a : Nat) : Nat := getsize m (a + 124)

/-! ### `create_tmpfs_files` -/

/-- What `malloc` returns in round `i`: the string behind the name in the block of the
path, and the address of the buffer of a file. -/
structure UstarHeap where
  tail : Nat → CString
  buffer : Nat → Nat

/-- `new_name`. -/
def newName (h : UstarHeap) (i : Nat) (name : CString) : CString := '/' :: name ++ h.tail i

/-- The assignments to a file before its parent is looked up. -/
def namedFile (name : CString) (n : VfsNode) : VfsNode :=
  { n with
    name := name
    type := .file }

/-- The assignments after that. -/
def tmpfsFile (parent : Nat) (mountpoint : Option Nat) (size buffer address : Nat) (n : VfsNode) :
    VfsNode :=
  { n with
    parent := some parent
    mountpoint := mountpoint
    stSize := (BitVec.ofNat 64 size).toInt
    address := buffer
    internalAddress := address }

/-- `tmpfs_create_file`; a parent that is not found is dereferenced. -/
def tmpfsCreateFile (buffer : Nat) (v : Vfs) (name : CString) (address size : Nat) : Option Vfs :=
  let (ret, v) := newNode v (namedFile (basename name))
  match vfsGetParent v v.root name with
  | none => none
  | some (none, _) => none
  | some (some parent, v) =>
    let v := setNode v ret (tmpfsFile parent (v.nodes parent).mountpoint size buffer address)
    some (pushChild v parent ret)

/-- The body of the loop, without the step to the next header.  What `vfs_mkdir`
returns is not looked at. -/
def createEntry (h : UstarHeap) (m : Mem) (i a : Nat) (v : Vfs) : Option Vfs :=
  if headerType m a = 0x35#8 then
    -- the name of a directory ends in a slash, which is overwritten
    (vfsMkdir v (newName h i (headerName m a).dropLast)).map Prod.snd
  else
    tmpfsCreateFile (h.buffer i) v (newName h i (headerName m a)) ((a + 512) % 2 ^ 64)
      (headerGetsize m a)

/-- The step to the next header. -/
def nextAddress (a size : Nat) : Nat :=
  let a := (a + (size / 512 + 1) * 512) % 2 ^ 64
  -- a block that is not full
  if size % 512 ≠ 0 then (a + 512) % 2 ^ 64 else a

/-- The loop, from round `i` on; there is no result within `fuel` rounds, or NULL is
dereferenced, where it is `none`. -/
def createLoop (h : UstarHeap) (m : Mem) : Nat → Nat → Nat → Vfs → Option Vfs
  | 0, _, _, _ => none
  | fuel + 1, i, a, v =>
    if m a = 0 then some v
    else
      (createEntry h m i a v).bind fun v =>
        createLoop h m fuel (i + 1) (nextAddress a (headerGetsize m a)) v

/-- `create_tmpfs_files`. -/
def createTmpfsFiles (h : UstarHeap) (m : Mem) (fuel a : Nat) (v : Vfs) : Option Vfs :=
  createLoop h m fuel 0 a v

/-- More rounds than are needed change nothing. -/
theorem createLoop_fuel {h : UstarHeap} {m : Mem} {fuel i a : Nat} {v v' : Vfs}
    (hrun : createLoop h m fuel i a v = some v') (more : Nat) :
    createLoop h m (fuel + more) i a v = some v' := by
  induction fuel generalizing i a v with
  | zero => cases hrun
  | succ fuel ih =>
    rw [Nat.succ_add]
    unfold createLoop at hrun ⊢
    by_cases hend : m a = 0
    · rw [if_pos hend] at hrun ⊢
      exact hrun
    · rw [if_neg hend] at hrun ⊢
      obtain ⟨v₁, hentry, hrest⟩ := Option.bind_eq_some_iff.mp hrun
      rw [hentry, Option.bind_some]
      exact ih hrest

/-! ### The size field -/

/-- The number that the first `j` characters stand for in octal. -/
def octal (m : Mem) (a : Nat) : Nat → Nat
  | 0 => 0
  | j + 1 => 8 * octal m a j + ((m (a + j)).toNat - 48)

/-- An octal digit. -/
def OctalDigit (b : BitVec 8) : Prop := 0x30 ≤ b.toNat ∧ b.toNat ≤ 0x37

instance (b : BitVec 8) : Decidable (OctalDigit b) := inferInstanceAs (Decidable (_ ∧ _))

theorem digit_eq {b : BitVec 8} (h : OctalDigit b) : digit b = b.toNat - 48 := by
  have hint : b.toInt = b.toNat := BitVec.toInt_eq_toNat_of_lt (by
    have := h.2
    omega)
  have h1 := h.1
  have h2 := h.2
  unfold digit
  rw [hint]
  omega

theorem getsizeLoop_eq {m : Mem} {a j : Nat} (h : ∀ i < j, OctalDigit (m (a + i)))
    (count size : Nat) (hsize : size < 2 ^ 32) :
    getsizeLoop m a j count size = (size + count * octal m a j) % 2 ^ 32 := by
  induction j generalizing count size with
  | zero =>
    show size = (size + count * 0) % 2 ^ 32
    rw [Nat.mul_zero, Nat.add_zero, Nat.mod_eq_of_lt hsize]
  | succ j ih =>
    rw [getsizeLoop, ih (fun i hi => h i (Nat.lt_succ_of_lt hi)) _ _ (Nat.mod_lt _ (by decide)),
      digit_eq (h j (Nat.lt_succ_self j)), octal]
    generalize (m (a + j)).toNat - 48 = d
    generalize octal m a j = n
    have hsum : size + d * count + count * 8 * n = size + count * (8 * n + d) := by
      rw [Nat.mul_add, Nat.mul_assoc, Nat.mul_comm d count]
      omega
    rw [← hsum]
    exact (Nat.ModEq.add (Nat.mod_modEq _ _) ((Nat.mod_modEq _ _).mul_right n))

/-- Whatever the field holds, the number has 32 bits. -/
theorem getsize_lt (m : Mem) (a : Nat) : getsize m a < 2 ^ 32 := by
  have hloop : ∀ j count size, size < 2 ^ 32 → getsizeLoop m a j count size < 2 ^ 32 := by
    intro j
    induction j with
    | zero => exact fun _ _ hsize => hsize
    | succ j ih => exact fun _ _ _ => ih _ _ (Nat.mod_lt _ (by decide))
  exact hloop 11 1 0 (by decide)

/-- `getsize` reads the eleven digits of the field, in 32 bits. -/
theorem getsize_eq {m : Mem} {a : Nat} (h : ∀ i < 11, OctalDigit (m (a + i))) :
    getsize m a = octal m a 11 % 2 ^ 32 := by
  unfold getsize
  rw [getsizeLoop_eq h 1 0 (by decide), Nat.one_mul, Nat.zero_add]

/-! ### The layout -/

/-- The blocks of an entry with contents of this size, its header among them. -/
def blocksFor (size : Nat) : Nat := 1 + (size + 511) / 512

/-- The step follows the layout. -/
theorem nextAddress_blocks {a size : Nat} (h : a + 512 * blocksFor size < 2 ^ 64) :
    nextAddress a size = a + 512 * blocksFor size := by
  unfold nextAddress blocksFor at *
  dsimp only
  split <;> omega

end BestOS
