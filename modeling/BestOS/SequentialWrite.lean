/-
BestOS/SequentialWrite.lean

Consecutive calls of `tmpfs_write` on a new file.

Nothing is read in between, so the first read does not overwrite what was written, and
nothing is sought, so every write begins at the end of the file: one to a file opened for
appending because it goes there, and any other because the cursor and the size have moved
together (`SequentialInv`).  In both modes every write therefore asks for a larger buffer,
and the bytes are added behind those of the writes before.

What `realloc` does with the old bytes is an assumption (`WriteLegal.preserved`).
-/
import BestOS.WriteCapacity
import BestOS.ByteLayout

namespace BestOS

open ByteMemory
open BlockHeap (Apart)

/-! ### Runs -/

/-- A call of `tmpfs_write`, and memory when it is made. -/
structure FileWrite where
  mem : Mem
  grant : Grant
  count : Nat
  buffer : Nat

/-- The bytes passed. -/
def FileWrite.bytes (w : FileWrite) : List (BitVec 8) := bytesFrom w.mem w.buffer w.count

/-- All of them, in order. -/
def buffers (ws : List FileWrite) : List (BitVec 8) := ws.flatMap FileWrite.bytes

def fileWrite (n : Nat) (s : SysState) (w : FileWrite) : SysState :=
  (tmpfsWrite w.grant { s with mem := w.mem } n w.count w.buffer).2

def writeAll (n : Nat) (s : SysState) (ws : List FileWrite) : SysState := ws.foldl (fileWrite n) s

/-- The size last asked for when the bytes are copied. -/
def askedFor (n : Nat) (s : SysState) (requested : Nat) (w : FileWrite) : Nat :=
  if (s.vfs.nodes n).Grows then growSize (s.vfs.nodes n) w.count else requested

/-- `P` holds of every call, in the state it is made in and with the size that was last
asked for before. -/
def EveryWrite (P : SysState → Nat → FileWrite → Prop) (n : Nat) :
    SysState → Nat → List FileWrite → Prop
  | _, _, [] => True
  | s, requested, w :: ws =>
      P s requested w ∧ EveryWrite P n (fileWrite n s w) (askedFor n s requested w) ws

/-- What the rest of the kernel owes to a call: nobody else has stored into the file, and
if `realloc` is called, it gets a block that lies in the address space, the bytes of the
old block are in it, and the caller's buffer is still there and apart from it. -/
structure WriteLegal (n : Nat) (s : SysState) (requested : Nat) (w : FileWrite) : Prop where
  kept : ∀ o : Nat, (o : Int) < (s.vfs.nodes n).stSize →
    w.mem ((s.vfs.nodes n).address + o) = s.mem ((s.vfs.nodes n).address + o)
  preserved : (s.vfs.nodes n).Grows →
    let r := realloc w.grant w.mem (s.vfs.nodes n).address (growSize (s.vfs.nodes n) w.count)
    ∀ o < min requested (growSize (s.vfs.nodes n) w.count),
      r.2 (r.1 + o) = w.mem ((s.vfs.nodes n).address + o)
  source : (s.vfs.nodes n).Grows →
    let r := realloc w.grant w.mem (s.vfs.nodes n).address (growSize (s.vfs.nodes n) w.count)
    (∀ i < w.count, r.2 (w.buffer + i) = w.mem (w.buffer + i)) ∧
      Apart w.buffer w.count r.1 (growSize (s.vfs.nodes n) w.count)
  placed : (s.vfs.nodes n).Grows →
    (realloc w.grant w.mem (s.vfs.nodes n).address (growSize (s.vfs.nodes n) w.count)).1
      + growSize (s.vfs.nodes n) w.count ≤ 2 ^ 64

/-- The copy stays in the block asked for last. -/
def StoresWithin (n : Nat) (s : SysState) (requested : Nat) (w : FileWrite) : Prop :=
  CopyWithin w.grant { s with mem := w.mem } n w.count (askedFor n s requested w)

/-- The assumption holds of the kernel's `realloc` where the sizes fit its `int` and the
blocks are apart. -/
theorem writeLegal_of_apart {n : Nat} {s : SysState} {requested : Nat} {w : FileWrite}
    (hkept : ∀ o : Nat, (o : Int) < (s.vfs.nodes n).stSize →
      w.mem ((s.vfs.nodes n).address + o) = s.mem ((s.vfs.nodes n).address + o))
    (haddr : (s.vfs.nodes n).address ≠ 0) (htag : w.grant.tagSize = requested)
    (hreq : requested < 2 ^ 31) (hpos : 0 < growSize (s.vfs.nodes n) w.count)
    (hsize : growSize (s.vfs.nodes n) w.count < 2 ^ 31)
    (hold : Apart w.grant.ptr (growSize (s.vfs.nodes n) w.count) (s.vfs.nodes n).address requested)
    (hbuf : Apart w.buffer w.count w.grant.ptr (growSize (s.vfs.nodes n) w.count))
    (hplaced : w.grant.ptr + growSize (s.vfs.nodes n) w.count ≤ 2 ^ 64) :
    WriteLegal n s requested w := by
  have hroom := realloc_eq (m := w.mem) haddr hpos hsize (htag ▸ hreq)
  rw [htag] at hroom
  simp only [Apart] at hold hbuf
  refine ⟨hkept, fun _ => ?_, fun _ => ?_, fun _ => ?_⟩
  · rw [hroom]
    exact fun o ho => memcpy_byte _ _ _ ho (by omega)
  · rw [hroom]
    exact ⟨fun i hi => memcpy_agree _ _ _ _ (by omega), hbuf⟩
  · rw [hroom]
    exact hplaced

/-! ### The invariant -/

/-- The file holds the bytes written so far, and the next write begins behind them. -/
structure SequentialInv (n : Nat) (s : SysState) (requested : Nat) (written : List (BitVec 8)) :
    Prop where
  size : (s.vfs.nodes n).stSize = written.length
  cursor : (s.vfs.nodes n).oMode &&& O_APPEND ≠ 0 ∨ (s.vfs.nodes n).cursor = written.length
  bytes : BytesAt s.mem (s.vfs.nodes n).address written
  room : written.length ≤ requested

namespace SequentialInv

variable {n : Nat} {s : SysState} {requested : Nat} {written : List (BitVec 8)} {w : FileWrite}

theorem offset (h : SequentialInv n s requested written) (hlt : written.length < 2 ^ 31) :
    (s.vfs.nodes n).writeOffset = written.length := by
  unfold VfsNode.writeOffset
  split
  · rw [h.size]
    exact toSize_natCast (by omega)
  · next happ => exact h.cursor.resolve_left happ

/-- Every write asks for a buffer. -/
theorem grows (h : SequentialInv n s requested written) (hlt : written.length < 2 ^ 31) :
    (s.vfs.nodes n).Grows :=
  h.cursor.imp_right fun hcursor => by rw [hcursor, h.size, toInt_of_lt hlt]

theorem growSize_eq (h : SequentialInv n s requested written)
    (hlt : written.length + w.count < 2 ^ 31) :
    growSize (s.vfs.nodes n) w.count = written.length + w.count + 1 := by
  unfold growSize
  rw [h.size]
  exact toSize_natCast (k := written.length + w.count + 1) (by omega)

/-- The copy of the next write. -/
theorem within (h : SequentialInv n s requested written)
    (hlt : written.length + w.count < 2 ^ 31) : StoresWithin n s requested w := by
  have hgrow : (s.vfs.nodes n).Grows := h.grows (by omega)
  have hoff : (s.vfs.nodes n).writeOffset = written.length := h.offset (by omega)
  unfold StoresWithin askedFor
  rw [copyWithin_iff, if_pos hgrow, h.growSize_eq hlt]
  right
  show (s.vfs.nodes n).writeOffset + w.count ≤ _
  omega

/-- One write adds its bytes. -/
theorem write (h : SequentialInv n s requested written) (hok : WriteLegal n s requested w)
    (hlt : written.length + w.count < 2 ^ 31) :
    SequentialInv n (fileWrite n s w) (askedFor n s requested w) (written ++ w.bytes) := by
  have hgrow : (s.vfs.nodes n).Grows := h.grows (by omega)
  have hoff : (s.vfs.nodes n).writeOffset = written.length := h.offset (by omega)
  have hsize := h.growSize_eq hlt
  have hpreserved := hok.preserved hgrow
  obtain ⟨hsource, hapart⟩ := hok.source hgrow
  have hplaced := hok.placed hgrow
  have hlen : (written ++ w.bytes).length = written.length + w.count := by
    rw [List.length_append, FileWrite.bytes, length_bytesFrom]
  -- memory and the file after the call
  have hroom : writeRoom w.grant { s with mem := w.mem } n w.count =
      realloc w.grant w.mem (s.vfs.nodes n).address (growSize (s.vfs.nodes n) w.count) :=
    if_pos hgrow
  have hwrite := tmpfsWrite_eq w.grant { s with mem := w.mem } n w.count w.buffer
  rw [hroom, show ({ s with mem := w.mem } : SysState).vfs = s.vfs from rfl, hoff] at hwrite
  generalize realloc w.grant w.mem (s.vfs.nodes n).address (growSize (s.vfs.nodes n) w.count)
    = r at *
  simp only [Apart, hsize] at hapart
  rw [hsize] at hplaced
  have hnode : (fileWrite n s w).vfs.nodes n = { s.vfs.nodes n with
      address := r.1
      stSize := toOff ((s.vfs.nodes n).stSize + w.count)
      cursor := (s.vfs.nodes n).writeCursor w.count } := by
    unfold fileWrite
    rw [hwrite]
    simp only [setNode, Function.update_self]
  have hmem : (fileWrite n s w).mem = memcpy r.2 (r.1 + written.length) w.buffer w.count := by
    unfold fileWrite
    rw [hwrite]
    exact memcpy_dest_mod _ _ (by omega)
  refine ⟨?_, ?_, ?_, ?_⟩
  · rw [hnode, hlen, h.size]
    exact toOff_eq (by omega) (by omega)
  · rw [hnode]
    by_cases happ : (s.vfs.nodes n).oMode &&& O_APPEND ≠ 0
    · exact .inl happ
    · right
      show (s.vfs.nodes n).writeCursor w.count = _
      rw [VfsNode.writeCursor, if_neg happ, h.cursor.resolve_left happ, hlen]
      omega
  · rw [hnode, hmem]
    dsimp only
    refine bytesAt_append.mpr ⟨h.bytes.congr fun i hi => ?_, ?_⟩
    · -- an earlier byte has moved with the buffer
      have hkeep := hok.kept i (by rw [h.size]; omega)
      rw [memcpy_agree _ _ _ _ (by omega), hpreserved i (by
        have := h.room
        omega), hkeep]
    · refine (bytesAt_bytesFrom w.mem w.buffer w.count).congr fun i hi => ?_
      rw [length_bytesFrom] at hi
      rw [memcpy_byte _ _ _ hi (by omega), hsource i hi]
  · unfold askedFor
    rw [if_pos hgrow, hsize, hlen]
    omega

/-- All writes add their bytes, and none leaves its buffer. -/
theorem writeAll {ws : List FileWrite} (h : SequentialInv n s requested written)
    (hok : EveryWrite (WriteLegal n) n s requested ws)
    (hlt : written.length + (buffers ws).length < 2 ^ 31) :
    (∃ requested', SequentialInv n (writeAll n s ws) requested' (written ++ buffers ws)) ∧
      EveryWrite (StoresWithin n) n s requested ws := by
  induction ws generalizing s requested written with
  | nil =>
    refine ⟨⟨requested, ?_⟩, trivial⟩
    rw [show buffers [] = [] from rfl, List.append_nil]
    exact h
  | cons w ws ih =>
    obtain ⟨hw, hrest⟩ := hok
    have hbuffers : buffers (w :: ws) = w.bytes ++ buffers ws := List.flatMap_cons
    have hcount : w.bytes.length = w.count := length_bytesFrom _ _ _
    rw [hbuffers, List.length_append, hcount] at hlt
    obtain ⟨hend, hwithin⟩ := ih (h.write hw (by omega)) hrest (by
      rw [List.length_append, hcount]
      omega)
    rw [List.append_assoc, ← hbuffers] at hend
    exact ⟨hend, h.within (by omega), hwithin⟩

end SequentialInv

/-! ### A new file -/

/-- What `vfs_open` leaves in a node it makes. -/
theorem vfsOpen_made {buf flags n : Nat} {v v' : Vfs} {start : Option Nat} {path : CString}
    (ho : vfsOpen buf v start path flags = some (some n, v')) (hnew : v'.next = v.next + 1) :
    (v'.nodes n).stSize = (v.nodes v.next).stSize ∧
      (v'.nodes n).cursor = (v.nodes v.next).cursor := by
  unfold vfsOpen at ho
  split at ho
  · cases ho
  · cases ho
  · next parent v₁ hg =>
    obtain ⟨e, t, rfl⟩ := vfsGetParent_vfs hg
    cases openIn_end ho with
    | made hf hcreat =>
      -- the parent only gets a child, whichever node it is
      by_cases hne : v.next = parent
      · subst hne
        constructor <;> simp [pushChild, setNode, newNode, newFile]
      · constructor <;>
          simp [pushChild, setNode, newNode, newFile, Function.update_of_ne hne]
    | found k hf => exact absurd hnew (Nat.succ_ne_self v.next).symm

/-- **Sequential writes concatenate.**  A file that `vfs_open` made in a zero-filled node,
for appending or not, and any list of buffers of less than 2^31 bytes in all, written one
after the other: the file holds their concatenation, `st_size` is its length, and every
copy stays in the buffer last asked for. -/
theorem sequential_writes {buf flags n : Nat} {v : Vfs} {start : Option Nat} {path : CString}
    {s : SysState} (ho : vfsOpen buf v start path flags = some (some n, s.vfs))
    (hnew : s.vfs.next = v.next + 1)
    (hzero : (v.nodes v.next).stSize = 0 ∧ (v.nodes v.next).cursor = 0) {ws : List FileWrite}
    (hok : EveryWrite (WriteLegal n) n s 2 ws) (htotal : (buffers ws).length < 2 ^ 31) :
    BytesAt (writeAll n s ws).mem ((writeAll n s ws).vfs.nodes n).address (buffers ws) ∧
      ((writeAll n s ws).vfs.nodes n).stSize = (buffers ws).length ∧
      EveryWrite (StoresWithin n) n s 2 ws := by
  obtain ⟨hsize, hcursor⟩ := vfsOpen_made ho hnew
  have hinv : SequentialInv n s 2 [] :=
    ⟨hsize.trans hzero.1, .inr (hcursor.trans hzero.2), trivial, Nat.zero_le 2⟩
  obtain ⟨⟨requested, hend⟩, hwithin⟩ := hinv.writeAll hok (by simpa using htotal)
  rw [List.nil_append] at hend
  exact ⟨hend.bytes, hend.size, hwithin⟩

/-- Two bytes, written to `/a`. -/
def firstWrite : FileWrite := ⟨fun a => BitVec.ofNat 8 a, ⟨2, 0x5000⟩, 2, 0x2001⟩

/-- And one more. -/
def secondWrite : FileWrite := ⟨(fileWrite 1 oneFile firstWrite).mem, ⟨3, 0x6000⟩, 1, 0x3003⟩

/-- The three bytes are in the file. -/
theorem sequential_writes_oneFile :
    BytesAt (writeAll 1 oneFile [firstWrite, secondWrite]).mem 0x6000 [1, 2, 3] ∧
      ((writeAll 1 oneFile [firstWrite, secondWrite]).vfs.nodes 1).stSize = 3 := by
  have hfirst : WriteLegal 1 oneFile 2 firstWrite := by
    refine writeLegal_of_apart (fun o ho => ?_) (by decide) rfl (by decide) (by decide) (by decide)
      (.inr (by decide)) (.inl (by decide)) (by decide)
    rw [show (oneFile.vfs.nodes 1).stSize = 0 from rfl] at ho
    omega
  have hsecond : WriteLegal 1 (fileWrite 1 oneFile firstWrite) 3 secondWrite :=
    writeLegal_of_apart (fun o ho => rfl) (by decide) rfl (by decide) (by decide) (by decide)
      (.inr (by decide)) (.inl (by decide)) (by decide)
  have hlegal : EveryWrite (WriteLegal 1) 1 oneFile 2 [firstWrite, secondWrite] :=
    ⟨hfirst, hsecond, trivial⟩
  obtain ⟨hbytes, hsize, -⟩ := sequential_writes
    (show vfsOpen 0x1000 newTask.vfs (some 0) ['/', 'a'] O_CREAT = some (some 1, oneFile.vfs) from rfl)
    rfl ⟨rfl, rfl⟩ hlegal (by decide)
  exact ⟨hbytes, hsize⟩

end BestOS
