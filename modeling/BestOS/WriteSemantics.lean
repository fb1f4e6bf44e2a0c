/-
BestOS/WriteSemantics.lean

What `tmpfs_write` does to a file that is not opened for appending.

Writing `count` bytes at the cursor should replace what stands there and let the file
grow only as far as the bytes reach.  The code has one size update for all cases,
`st_size += count`, and moves the buffer only when the cursor has reached the size.  Both
are right for a write at the end and wrong for any other that stores something:
`write_semantics_iff`.

`contents` of a file that has not been read yet are its bytes in the archive, and a
write does not change them: what it stores is there only if the archive happens to go on
with the same bytes.
-/
import BestOS.ReadConfined

namespace BestOS

open ByteMemory
open BlockHeap (Apart)

/-! ### The property -/

/-- The bytes of the buffer stand at the cursor, everything else in the file is as
before, the size covers both, and the cursor is behind the bytes. -/
structure WriteSemantics (s s' : SysState) (n count buffer : Nat) : Prop where
  size : (s'.vfs.nodes n).stSize
    = max (s.vfs.nodes n).stSize ((s.vfs.nodes n).cursor + count : Nat)
  cursor : (s'.vfs.nodes n).cursor = (s.vfs.nodes n).cursor + count
  bytes : ∀ i : Nat, (i : Int) < (s'.vfs.nodes n).stSize → contents s' n i =
    if (s.vfs.nodes n).cursor ≤ i ∧ i < (s.vfs.nodes n).cursor + count then
      s.mem (buffer + (i - (s.vfs.nodes n).cursor))
    else contents s n i

/-- One past the last `p` for which `p + MMAP_IO_BASE` is a canonical address. -/
def canonicalEnd : Nat := 2 ^ 48

/-- A `memcpy` returns where neither range reaches an address that is not canonical. -/
def CopyReturns (dest src n : Nat) : Prop :=
  n = 0 ∨ dest + n ≤ canonicalEnd ∧ src + n ≤ canonicalEnd

/-- `real_size` of `realloc`, the number of bytes it copies: an `int`. -/
def realSize (g : Grant) (size : Nat) : Int := min (toInt g.tagSize) (toInt size)

/-- The copies of `tmpfs_write` return, that of `realloc` and its own. -/
structure WriteReturns (g : Grant) (s : SysState) (n count buffer : Nat) : Prop where
  grown : (s.vfs.nodes n).Grows →
    CopyReturns g.ptr (s.vfs.nodes n).address
      (toSize (realSize g (growSize (s.vfs.nodes n) count)))
  copied : CopyReturns (((writeRoom g s n count).1 + (s.vfs.nodes n).writeOffset) % 2 ^ 64)
    buffer count

/-- A call of `tmpfs_write`: the file has a buffer that holds its contents and is not
opened for appending, the cursor is in the file or at its end, the blocks lie in memory,
and the caller's bytes and the block that `realloc` gets are apart from each other and
from the rest of the file. -/
structure WriteSetting (g : Grant) (s : SysState) (n count buffer : Nat) : Prop where
  mode : (s.vfs.nodes n).oMode &&& O_APPEND = 0
  cursor : ((s.vfs.nodes n).cursor : Int) ≤ (s.vfs.nodes n).stSize
  address : (s.vfs.nodes n).address ≠ 0
  holds : (s.vfs.nodes n).stSize ≤ g.tagSize
  block : (s.vfs.nodes n).address + g.tagSize ≤ canonicalEnd
  caller : buffer + count ≤ canonicalEnd
  room : ¬ (s.vfs.nodes n).Grows →
    (s.vfs.nodes n).address + (s.vfs.nodes n).cursor + count ≤ canonicalEnd ∧
    Apart ((s.vfs.nodes n).address + (s.vfs.nodes n).cursor) count buffer count ∧
    ((s.vfs.nodes n).init = false →
      Apart ((s.vfs.nodes n).address + (s.vfs.nodes n).cursor) count
        (s.vfs.nodes n).internalAddress ((s.vfs.nodes n).cursor + count))
  grown : (s.vfs.nodes n).Grows →
    g.ptr + growSize (s.vfs.nodes n) count ≤ canonicalEnd ∧
    Apart g.ptr (growSize (s.vfs.nodes n) count) (s.vfs.nodes n).address g.tagSize ∧
    Apart g.ptr (growSize (s.vfs.nodes n) count) buffer count ∧
    ((s.vfs.nodes n).init = false →
      Apart g.ptr (growSize (s.vfs.nodes n) count)
        (s.vfs.nodes n).internalAddress ((s.vfs.nodes n).cursor + count))

/-- Where the buffer has to grow, `real_size` is no negative `int`, and what lies behind
it of the contents stands in the new block already. -/
def GrowKeeps (g : Grant) (s : SysState) (n count : Nat) : Prop :=
  let size := realSize g (growSize (s.vfs.nodes n) count)
  (s.vfs.nodes n).Grows → 0 ≤ size ∧
    ((s.vfs.nodes n).init = true → ∀ i : Nat, size ≤ i → (i : Int) < (s.vfs.nodes n).stSize →
      s.mem (g.ptr + i) = s.mem ((s.vfs.nodes n).address + i))

/-- A write of nothing, or one at the end of the file; and if the file has not been read,
the archive goes on with the bytes that are written. -/
def WriteOk (g : Grant) (s : SysState) (n count buffer : Nat) : Prop :=
  GrowKeeps g s n count ∧
    (count = 0 ∨
      (s.vfs.nodes n).cursor = (s.vfs.nodes n).stSize ∧
      ((s.vfs.nodes n).init = false → ∀ i < count,
        s.mem ((s.vfs.nodes n).internalAddress + ((s.vfs.nodes n).cursor + i))
          = s.mem (buffer + i)))

/-! ### Sizes -/

theorem toOff_eq {i : Int} (h0 : 0 ≤ i) (h : i < 2 ^ 63) : toOff i = i := by
  unfold toOff
  rw [BitVec.toInt_ofInt]
  exact Int.bmod_eq_of_le (by omega) (by omega)

/-- A size in an `off_t` is right modulo 2^64. -/
theorem toOff_mod (i : Int) : toOff i % 2 ^ 64 = i % 2 ^ 64 := by
  unfold toOff
  rw [BitVec.toInt_ofInt, Int.bmod_def]
  split <;> omega

theorem realloc_realSize {g : Grant} {m : Mem} {p size : Nat} (hp : p ≠ 0) (hsize : size ≠ 0) :
    realloc g m p size = (g.ptr, memcpy m g.ptr p (toSize (realSize g size))) := by
  rw [realloc, if_neg hsize, if_neg hp, realSize]
  dsimp only
  by_cases h : toInt g.tagSize > toInt size
  · rw [if_pos h, min_eq_right (by omega)]
  · rw [if_neg h, min_eq_left (by omega)]

/-- A copy of a negative number of bytes does not return. -/
theorem not_copyReturns {i : Int} (h : i < 0) (hlow : -2 ^ 31 ≤ i) (dest src : Nat) :
    ¬ CopyReturns dest src (toSize i) := by
  unfold CopyReturns canonicalEnd toSize
  rw [BitVec.toNat_ofInt]
  omega

theorem realSize_ge (g : Grant) (size : Nat) : -2 ^ 31 ≤ realSize g size := by
  have htag := BitVec.le_toInt (BitVec.ofNat 32 g.tagSize)
  have hsize := BitVec.le_toInt (BitVec.ofNat 32 size)
  unfold realSize toInt
  omega

/-- What `realloc` copies fits the block it gets, and comes from the old one. -/
theorem realSize_le {g : Grant} {size : Nat} (hpos : 0 ≤ realSize g size) :
    toSize (realSize g size) ≤ size ∧ toSize (realSize g size) ≤ g.tagSize ∧
      (toSize (realSize g size) : Int) = realSize g size := by
  have hle := toInt_le size
  have htag := toInt_le g.tagSize
  have hlt := toInt_lt g.tagSize
  have hmin : realSize g size = min (toInt g.tagSize) (toInt size) := rfl
  have hsize := toSize_of_nonneg hpos (by omega)
  refine ⟨?_, ?_, hsize⟩ <;> omega

namespace WriteSetting

variable {g : Grant} {s : SysState} {n count buffer : Nat}

theorem offset (h : WriteSetting g s n count buffer) :
    (s.vfs.nodes n).writeOffset = (s.vfs.nodes n).cursor :=
  if_neg (not_not.mpr h.mode)

/-- The node after the write. -/
theorem node (h : WriteSetting g s n count buffer) :
    (tmpfsWrite g s n count buffer).2.vfs.nodes n = { s.vfs.nodes n with
      address := (writeRoom g s n count).1
      stSize := toOff ((s.vfs.nodes n).stSize + count)
      cursor := ((s.vfs.nodes n).cursor + count) % 2 ^ 64 } := by
  have hcursor : (s.vfs.nodes n).writeCursor count = ((s.vfs.nodes n).cursor + count) % 2 ^ 64 :=
    if_neg (not_not.mpr h.mode)
  rw [tmpfsWrite_eq]
  simp only [setNode, Function.update_self, hcursor]

/-- Blocks that lie in memory have sizes far below what a word holds. -/
theorem sizes (h : WriteSetting g s n count buffer) :
    (s.vfs.nodes n).stSize ≤ 2 ^ 48 ∧ count ≤ 2 ^ 48 := by
  have hholds := h.holds
  have hblock := h.block
  have hcaller := h.caller
  unfold canonicalEnd at hblock hcaller
  omega

/-- The buffer grows only at the end of the file. -/
theorem grows_end (h : WriteSetting g s n count buffer) (hgrow : (s.vfs.nodes n).Grows) :
    ((s.vfs.nodes n).cursor : Int) = (s.vfs.nodes n).stSize := by
  have hsize : (s.vfs.nodes n).stSize ≤ toInt (s.vfs.nodes n).cursor :=
    hgrow.resolve_left (not_not.mpr h.mode)
  have hle := toInt_le (s.vfs.nodes n).cursor
  have hcursor := h.cursor
  omega

theorem growSize_eq (h : WriteSetting g s n count buffer) (hgrow : (s.vfs.nodes n).Grows) :
    growSize (s.vfs.nodes n) count = (s.vfs.nodes n).cursor + count + 1 := by
  have hend := h.grows_end hgrow
  have hsizes := h.sizes
  unfold growSize toSize
  rw [BitVec.toNat_ofInt]
  omega

/-! ### The size -/

/-- The size comes out right exactly where nothing is written, or at the end. -/
theorem size_iff (h : WriteSetting g s n count buffer) :
    toOff ((s.vfs.nodes n).stSize + count)
        = max (s.vfs.nodes n).stSize ((s.vfs.nodes n).cursor + count : Nat) ↔
      count = 0 ∨ (s.vfs.nodes n).cursor = (s.vfs.nodes n).stSize := by
  have hcursor := h.cursor
  have hsizes := h.sizes
  rw [toOff_eq (by omega) (by omega)]
  omega

/-! ### The call returns -/

/-- The new block, with what `realloc` copies. -/
theorem room_eq (h : WriteSetting g s n count buffer) (hgrow : (s.vfs.nodes n).Grows) :
    writeRoom g s n count = (g.ptr, memcpy s.mem g.ptr (s.vfs.nodes n).address
      (toSize (realSize g (growSize (s.vfs.nodes n) count)))) := by
  have hsize := h.growSize_eq hgrow
  rw [writeRoom, if_pos hgrow]
  exact realloc_realSize h.address (by omega)

/-- The address the bytes are copied to does not wrap. -/
theorem dest_le (h : WriteSetting g s n count buffer) :
    (writeRoom g s n count).1 + (s.vfs.nodes n).cursor + count ≤ canonicalEnd := by
  by_cases hgrow : (s.vfs.nodes n).Grows
  · have hsize := h.growSize_eq hgrow
    have hblock := (h.grown hgrow).1
    rw [h.room_eq hgrow]
    dsimp only
    omega
  · rw [writeRoom, if_neg hgrow]
    exact (h.room hgrow).1

/-- The call returns exactly where `real_size` is no negative number. -/
theorem returns_iff (h : WriteSetting g s n count buffer) :
    WriteReturns g s n count buffer ↔
      ((s.vfs.nodes n).Grows → 0 ≤ realSize g (growSize (s.vfs.nodes n) count)) := by
  constructor
  · intro hret hgrow
    by_contra hneg
    exact not_copyReturns (by omega) (realSize_ge g _) _ _ (hret.grown hgrow)
  · intro hpos
    refine ⟨fun hgrow => .inr ?_, .inr ⟨?_, h.caller⟩⟩
    · obtain ⟨hnew, hold, -⟩ := realSize_le (hpos hgrow)
      have hblock := h.block
      have hptr := (h.grown hgrow).1
      omega
    · have hdest := h.dest_le
      rw [h.offset]
      exact le_trans (Nat.add_le_add_right (Nat.mod_le _ _) count) hdest

/-! ### The bytes -/

theorem mem_eq (h : WriteSetting g s n count buffer) :
    (tmpfsWrite g s n count buffer).2.mem = memcpy (writeRoom g s n count).2
      ((writeRoom g s n count).1 + (s.vfs.nodes n).cursor) buffer count := by
  have hdest := h.dest_le
  unfold canonicalEnd at hdest
  rw [tmpfsWrite_eq, h.offset]
  exact memcpy_dest_mod _ _ (by omega)

/-- The bytes of the caller arrive at the cursor. -/
theorem new_bytes (h : WriteSetting g s n count buffer)
    (hpos : (s.vfs.nodes n).Grows → 0 ≤ realSize g (growSize (s.vfs.nodes n) count))
    {i : Nat} (hi : i < count) :
    (tmpfsWrite g s n count buffer).2.mem
      ((writeRoom g s n count).1 + ((s.vfs.nodes n).cursor + i)) = s.mem (buffer + i) := by
  rw [h.mem_eq, ← Nat.add_assoc]
  by_cases hgrow : (s.vfs.nodes n).Grows
  · have hsize := h.growSize_eq hgrow
    obtain ⟨hnew, -⟩ := realSize_le (hpos hgrow)
    have hbuf := (h.grown hgrow).2.2.1
    simp only [Apart] at hbuf
    rw [h.room_eq hgrow]
    dsimp only
    rw [memcpy_byte _ _ _ hi (by omega), memcpy_agree _ _ _ _ (by omega)]
  · have hbuf := (h.room hgrow).2.1
    simp only [Apart] at hbuf
    rw [writeRoom, if_neg hgrow]
    exact memcpy_byte _ _ _ hi (by omega)

/-- The other bytes of the file are in the buffer: those `realloc` copied, and behind
them what the new block held. -/
theorem old_bytes (h : WriteSetting g s n count buffer)
    (hpos : (s.vfs.nodes n).Grows → 0 ≤ realSize g (growSize (s.vfs.nodes n) count))
    {i : Nat} (hi : i < (s.vfs.nodes n).stSize)
    (hout : ¬ ((s.vfs.nodes n).cursor ≤ i ∧ i < (s.vfs.nodes n).cursor + count)) :
    (tmpfsWrite g s n count buffer).2.mem ((writeRoom g s n count).1 + i)
      = if (s.vfs.nodes n).Grows ∧ realSize g (growSize (s.vfs.nodes n) count) ≤ i then
          s.mem (g.ptr + i)
        else s.mem ((s.vfs.nodes n).address + i) := by
  rw [h.mem_eq]
  by_cases hgrow : (s.vfs.nodes n).Grows
  · have hsize := h.growSize_eq hgrow
    have hend := h.grows_end hgrow
    have hholds := h.holds
    have hold := (h.grown hgrow).2.1
    obtain ⟨hnew, -, hcopied⟩ := realSize_le (hpos hgrow)
    simp only [Apart] at hold
    rw [h.room_eq hgrow]
    dsimp only
    rw [memcpy_agree _ _ _ _ (by omega)]
    by_cases hbehind : realSize g (growSize (s.vfs.nodes n) count) ≤ i
    · rw [if_pos ⟨hgrow, hbehind⟩, memcpy_agree _ _ _ _ (by omega)]
    · rw [if_neg fun hc => hbehind hc.2, memcpy_byte _ _ _ (by omega) (by omega)]
  · rw [if_neg fun hc => hgrow hc.1, writeRoom, if_neg hgrow]
    exact memcpy_agree _ _ _ _ (by omega)

/-- The archive is left alone. -/
theorem archive_bytes (h : WriteSetting g s n count buffer)
    (hpos : (s.vfs.nodes n).Grows → 0 ≤ realSize g (growSize (s.vfs.nodes n) count))
    (hinit : (s.vfs.nodes n).init = false) {i : Nat}
    (hi : i < (s.vfs.nodes n).cursor + count ∨ count = 0 ∧ i < (s.vfs.nodes n).stSize) :
    (tmpfsWrite g s n count buffer).2.mem ((s.vfs.nodes n).internalAddress + i)
      = s.mem ((s.vfs.nodes n).internalAddress + i) := by
  rw [h.mem_eq]
  by_cases hgrow : (s.vfs.nodes n).Grows
  · have hsize := h.growSize_eq hgrow
    have hend := h.grows_end hgrow
    obtain ⟨hnew, -⟩ := realSize_le (hpos hgrow)
    have harch := (h.grown hgrow).2.2.2 hinit
    simp only [Apart] at harch
    rw [h.room_eq hgrow]
    dsimp only
    rw [memcpy_agree _ _ _ _ (by omega), memcpy_agree _ _ _ _ (by omega)]
  · have harch := (h.room hgrow).2.2 hinit
    simp only [Apart] at harch
    rw [writeRoom, if_neg hgrow]
    dsimp only
    rw [memcpy_agree _ _ _ _ (by omega)]

end WriteSetting

/-- **When a write is a write.**  For every file, every cursor in it and every number of
bytes, the call returns and the bytes, the size and the cursor come out right exactly when
nothing is written or the write is at the end of the file; the `int` that `realloc`
computes covers the contents; and if the file has not been read before, the archive goes on
with the same bytes. -/
theorem write_semantics_iff {g : Grant} {s : SysState} {n count buffer : Nat}
    (h : WriteSetting g s n count buffer) :
    WriteReturns g s n count buffer ∧
        WriteSemantics s (tmpfsWrite g s n count buffer).2 n count buffer ↔
      WriteOk g s n count buffer := by
  have hnode := h.node
  have hsizes := h.size_iff
  have hcursor := h.cursor
  have hsmall := h.sizes
  rw [h.returns_iff]
  constructor
  · rintro ⟨hpos, hsem⟩
    have hsize := hsem.size
    rw [hnode] at hsize
    refine ⟨fun hgrow => ⟨hpos hgrow, fun hinit i hbehind hi => ?_⟩,
      (hsizes.mp hsize).imp_right fun hend => ⟨hend, fun hinit i hi => ?_⟩⟩
    · -- the byte is behind what was copied, and read as the contents
      have hend := h.grows_end hgrow
      have hout : ¬ ((s.vfs.nodes n).cursor ≤ i ∧ i < (s.vfs.nodes n).cursor + count) := by omega
      have hbyte := hsem.bytes i (by rw [hsem.size]; omega)
      rw [if_neg hout, contents, contents, hnode] at hbyte
      simp only [hinit, if_true] at hbyte
      rw [h.old_bytes hpos hi hout, if_pos ⟨hgrow, hbehind⟩] at hbyte
      exact hbyte
    · -- the first read takes these bytes from the archive
      have hin : (((s.vfs.nodes n).cursor + i : Nat) : Int)
          < ((tmpfsWrite g s n count buffer).2.vfs.nodes n).stSize := by
        rw [hsem.size]
        omega
      have hbyte := hsem.bytes _ hin
      rw [if_pos ⟨Nat.le_add_right _ _, by omega⟩, contents, hnode] at hbyte
      simp only [hinit, Bool.false_eq_true, if_false, Nat.add_sub_cancel_left] at hbyte
      rw [← hbyte]
      exact (h.archive_bytes hpos hinit (.inl (by omega))).symm
  · rintro ⟨hgrown, hok⟩
    have hpos := fun hgrow => (hgrown hgrow).1
    have hsize := hsizes.mpr (hok.imp_right And.left)
    refine ⟨hpos, ?_, ?_, fun i hi => ?_⟩
    · rw [hnode]
      exact hsize
    · rw [hnode]
      exact Nat.mod_eq_of_lt (by omega)
    · rw [hnode] at hi
      dsimp only at hi
      rw [hsize] at hi
      rw [contents, contents, hnode]
      dsimp only
      by_cases hin : (s.vfs.nodes n).cursor ≤ i ∧ i < (s.vfs.nodes n).cursor + count
      · obtain ⟨k, rfl⟩ := Nat.exists_eq_add_of_le hin.1
        rw [if_pos hin, Nat.add_sub_cancel_left]
        cases hinit : (s.vfs.nodes n).init with
        | true => exact h.new_bytes hpos (by omega)
        | false =>
          have hread := (hok.resolve_left (by omega)).2 hinit k (by omega)
          exact (h.archive_bytes hpos hinit (.inl hin.2)).trans hread
      · rw [if_neg hin]
        have hold : (i : Int) < (s.vfs.nodes n).stSize := by
          rcases hok with hzero | ⟨hend, -⟩ <;> omega
        cases hinit : (s.vfs.nodes n).init with
        | true =>
          refine (h.old_bytes hpos hold hin).trans ?_
          split
          · next hbehind => exact (hgrown hbehind.1).2 hinit i hbehind.2 hold
          · rfl
        | false =>
          have hwhere : i < (s.vfs.nodes n).cursor + count ∨
              count = 0 ∧ i < (s.vfs.nodes n).stSize := by
            rcases hok with hzero | ⟨hend, -⟩
            · exact .inr ⟨hzero, hold⟩
            · left
              omega
          exact h.archive_bytes hpos hinit hwhere

/-- `fourBytes` with the cursor at the end. -/
def fourBytesEnd : SysState := setFile fourBytes 0 fun node => { node with cursor := 4 }

/-- A byte appended to four. -/
theorem write_semantics_append :
    WriteReturns ⟨5, 0x5000⟩ fourBytesEnd 0 1 0x2007 ∧
      WriteSemantics fourBytesEnd (tmpfsWrite ⟨5, 0x5000⟩ fourBytesEnd 0 1 0x2007).2 0 1 0x2007 := by
  have hset : WriteSetting ⟨5, 0x5000⟩ fourBytesEnd 0 1 0x2007 :=
    { mode := by decide
      cursor := by decide
      address := by decide
      holds := by decide
      block := by decide
      caller := by decide
      room := fun hgrow => absurd (by decide) hgrow
      grown := fun _ => ⟨by decide, .inr (by decide), .inr (by decide), fun h => by cases h⟩ }
  have hsize : realSize ⟨5, 0x5000⟩ (growSize (fourBytesEnd.vfs.nodes 0) 1) = 5 := by decide
  have hkeeps : GrowKeeps ⟨5, 0x5000⟩ fourBytesEnd 0 1 := by
    intro _
    refine ⟨by decide, fun _ i hbehind hi => ?_⟩
    have hfour : (fourBytesEnd.vfs.nodes 0).stSize = 4 := rfl
    omega
  exact (write_semantics_iff hset).mpr ⟨hkeeps, .inr ⟨by decide, fun h => by cases h⟩⟩

/-- **Overwriting makes the file longer**: one byte at the start of four. -/
theorem overwrite_extends :
    WriteSetting ⟨5, 0x5000⟩ fourBytes 0 1 0x2007 ∧ WriteReturns ⟨5, 0x5000⟩ fourBytes 0 1 0x2007 ∧
      ¬ WriteSemantics fourBytes (tmpfsWrite ⟨5, 0x5000⟩ fourBytes 0 1 0x2007).2 0 1 0x2007 := by
  have hset : WriteSetting ⟨5, 0x5000⟩ fourBytes 0 1 0x2007 :=
    { mode := by decide
      cursor := by decide
      address := by decide
      holds := by decide
      block := by decide
      caller := by decide
      room := fun _ => ⟨by decide, .inl (by decide), fun h => by cases h⟩
      grown := fun hgrow => absurd hgrow (by decide) }
  refine ⟨hset, hset.returns_iff.mpr fun hgrow => absurd hgrow (by decide), fun hsem => ?_⟩
  exact absurd hsem.size (by decide)

end BestOS
