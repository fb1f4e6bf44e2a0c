/-
BestOS/FileBuffers.lean

The buffers of tmpfs files while tasks open, read, write and close them.

The buffer belongs to the node, and the node to the tree, but `sys_close` gives
it back to the allocator and leaves the address in the node.  The next read
fills a block that is no longer the file's, and the next close gives the block
back a second time.  Which file this happens to is decided after the splice, so
it need not be the one that is closed.

A run is a sequence of calls, each by one of the tasks, on one tree and one
memory.  Beside these it carries the live blocks (`Heap`), and for each file
that a task closed and nobody wrote to since, the size and the bytes a read
would have returned when it was closed.  `FilesInv` is the invariant, and
`Sound` the condition on a call under which the code keeps it.
-/
import BestOS.FileEffects
import BestOS.Descriptors

namespace BestOS

open ByteMemory
open BlockHeap

/-! ### Calls by several tasks -/

/-- The byte that a read of the file finds at offset `i`. -/
def readBack (s : SysState) (n i : Nat) : BitVec 8 :=
  (tmpfsLoad s n).mem ((s.vfs.nodes n).address + i)

/-- What a file was when it was closed. -/
structure ClosedFile where
  size : Int
  bytes : Nat → BitVec 8

structure FileWorld where
  sys : SysState
  tasks : Nat → FileTask
  heap : Heap
  closed : Nat → Option ClosedFile

namespace FileWorld

/-- The state in which task `i` makes a call. -/
def enter (w : FileWorld) (i : Nat) : SysState := { w.sys with task := w.tasks i }

def leave (w : FileWorld) (i : Nat) (s : SysState) : FileWorld :=
  { w with
    sys := s
    tasks := Function.update w.tasks i s.task }

def node (w : FileWorld) (n : Nat) : VfsNode := w.sys.vfs.nodes n

/-- The size of the block that the buffer of a node is in. -/
def capacity (w : FileWorld) (n : Nat) : Nat := (w.heap.blocks (w.node n).address).getD 0

end FileWorld

/-- A call by a task, with the addresses that `malloc` and `realloc` return, or
a change of memory by somebody else. -/
inductive FileCall
  | openat (buf : Nat) (grant : Bool) (dirfd : Int) (path : CString) (mode : Nat)
  | read (tmp : Nat) (fd : Int) (buf count : Nat)
  | write (ptr : Nat) (fd : Int) (buf count : Nat)
  | close (fildes : Nat)
  | store (mem : Mem)

/-- One call by task `i`.  The block that `devfs_read` takes is given back before
it returns. -/
def fileCall (w : FileWorld) (i : Nat) : FileCall → Option FileWorld
  | .openat buf grant dirfd path mode =>
      (sysOpenat buf grant (w.enter i) dirfd path mode).map fun r =>
        { w.leave i r.2 with
          heap := if r.2.vfs.next = w.sys.vfs.next then w.heap else w.heap.alloc buf 2 }
  | .read tmp fd buf count =>
      (sysRead tmp (w.enter i) fd buf count).map fun r => w.leave i r.2
  | .write ptr fd buf count =>
      (fileOf (w.enter i) fd).bind fun n =>
        (sysWrite ⟨w.capacity n, ptr⟩ (w.enter i) fd buf count).map fun r =>
          { w.leave i r.2 with
            heap :=
              if OnTmpfs w.sys n ∧ (w.node n).Grows then
                (w.heap.alloc ptr (growSize (w.node n) count)).free (w.node n).address
              else w.heap
            closed := Function.update w.closed n none }
  | .close fildes =>
      (sysClose (w.enter i) fildes).map fun s =>
        { w.leave i s with
          heap := (closeTarget (w.enter i) fildes).elim w.heap fun n =>
            w.heap.free (w.node n).address
          closed := (fileOf (w.enter i) fildes).elim w.closed fun n =>
            if IsFile w.sys n then
              Function.update w.closed n (some ⟨(w.node n).stSize, readBack w.sys n⟩)
            else w.closed }
  | .store mem => some { w with sys := { w.sys with mem := mem } }

/-- The worlds reached from `w₀` by calls that meet `ok` where they are made. -/
inductive FilesRun (ok : FileWorld → Nat → FileCall → Prop) (w₀ : FileWorld) : FileWorld → Prop
  | start : FilesRun ok w₀ w₀
  | step {w w'} (i : Nat) (call : FileCall) : FilesRun ok w₀ w → ok w i call →
      fileCall w i call = some w' → FilesRun ok w₀ w'

/-! ### The condition -/

/-- The buffer of the node is a live block, and no file but the node itself uses
it. -/
structure Owned (w : FileWorld) (n : Nat) : Prop where
  live : w.heap.blocks (w.node n).address ≠ none
  own : ∀ m, IsFile w.sys m → (w.node m).address = (w.node n).address → m = n

/-- The addresses that the contents of file `n` depend on. -/
def GuardedBy (w : FileWorld) (n a : Nat) : Prop :=
  ((w.node n).address ≤ a ∧ a < (w.node n).address + w.capacity n) ∨
  ((w.node n).init = false ∧ (w.node n).internalAddress ≤ a ∧
    a < (w.node n).internalAddress + toSize (w.node n).stSize)

/-- The contents of a file that was closed depend on the address. -/
def Guarded (w : FileWorld) (a : Nat) : Prop := ∃ n, w.closed n ≠ none ∧ GuardedBy w n a

/-- A range is apart from the archive bytes of file `n`, as long as they are still
to be read. -/
def OffArchive (w : FileWorld) (n a size : Nat) : Prop :=
  (w.node n).init = false → Apart a size (w.node n).internalAddress (toSize (w.node n).stSize)

/-- What `malloc` returns: a fresh block, outside the archive. -/
def FreshBlock (w : FileWorld) (a size : Nat) : Prop :=
  w.heap.Fresh a size ∧ ∀ n, w.closed n ≠ none → OffArchive w n a size

/-- A first read that fills the block of the node, and nothing else. -/
structure FillFits (w : FileWorld) (n : Nat) : Prop where
  owned : Owned w n
  pos : 1 ≤ (w.node n).stSize
  fits : (w.node n).stSize ≤ w.capacity n

/-- A write whose bytes land inside the block of the node. -/
structure WriteFits (w : FileWorld) (n count : Nat) : Prop where
  owned : Owned w n
  grow : (w.node n).Grows → 0 < growSize (w.node n) count ∧ growSize (w.node n) count < 2 ^ 31 ∧
    w.capacity n < 2 ^ 31 ∧ (w.node n).writeOffset + count ≤ growSize (w.node n) count
  stay : ¬ (w.node n).Grows → (w.node n).writeOffset + count ≤ w.capacity n

/-- The contents of a file are in its buffer, or in the archive. -/
structure Contained (w : FileWorld) (n : Nat) : Prop where
  nonneg : 0 ≤ (w.node n).stSize
  fits : (w.node n).stSize ≤ w.capacity n
  archive : ∀ a k, w.heap.blocks a = some k → OffArchive w n a k

/-- What a call may assume: new blocks are fresh, descriptors to close are in
range, and the buffers of the callers, like everybody else's stores, keep out of
the files that were closed. -/
def Fair (w : FileWorld) (i : Nat) : FileCall → Prop
  | .openat buf _ _ _ _ => FreshBlock w buf 2
  | .read tmp fd buf count =>
      ∀ n, fileOf (w.enter i) fd = some n →
        (OnTmpfs w.sys n → ∀ k < count, ¬ Guarded w (buf + k)) ∧
        (¬ OnTmpfs w.sys n →
          ∀ k ≤ w.sys.input.length, ¬ Guarded w (tmp + k) ∧ ¬ Guarded w (buf + k))
  | .write ptr fd _ count =>
      ∀ n, fileOf (w.enter i) fd = some n → OnTmpfs w.sys n → (w.node n).Grows →
        FreshBlock w ptr (growSize (w.node n) count)
  | .close fildes => fildes < (w.tasks i).descriptors.length
  | .store mem => ∀ a, Guarded w a → mem a = w.sys.mem a

/-- The condition on a call: a file is filled and written inside its block, a
close gives back a block that is live and is not the buffer of a tmpfs file, and
the contents of the file that is closed are in its buffer or in the archive. -/
def Sound (w : FileWorld) (i : Nat) : FileCall → Prop
  | .read _ fd _ _ =>
      ∀ n, fileOf (w.enter i) fd = some n → OnTmpfs w.sys n → (w.node n).init = false →
        FillFits w n
  | .write _ fd _ count =>
      ∀ n, fileOf (w.enter i) fd = some n → OnTmpfs w.sys n → WriteFits w n count
  | .close fildes =>
      (∀ n, closeTarget (w.enter i) fildes = some n →
        ¬ IsFile w.sys n ∧ ((w.node n).address = 0 ∨ Owned w n)) ∧
      ∀ n, fileOf (w.enter i) fildes = some n → IsFile w.sys n → Contained w n
  | _ => True

/-! ### The invariant -/

/-- A file that was closed has kept its size and its contents. -/
structure Kept (w : FileWorld) (n : Nat) (c : ClosedFile) : Prop where
  file : IsFile w.sys n
  contained : Contained w n
  size : (w.node n).stSize = c.size
  bytes : ∀ i : Nat, (i : Int) < c.size → readBack w.sys n i = c.bytes i

/-- Every file has a live block of its own, nothing was given back twice, and the
files that were closed are as they were. -/
structure FilesInv (w : FileWorld) : Prop where
  heap : w.heap.Ok
  live : ∀ n, IsFile w.sys n → w.heap.blocks (w.node n).address ≠ none
  own : ∀ n m, IsFile w.sys n → IsFile w.sys m → (w.node n).address = (w.node m).address → n = m
  kept : ∀ n c, w.closed n = some c → Kept w n c

theorem capacity_of {w : FileWorld} {n k : Nat} (h : w.heap.blocks (w.node n).address = some k) :
    w.capacity n = k := by
  unfold FileWorld.capacity
  rw [h]
  rfl

theorem blocks_capacity {w : FileWorld} {n : Nat} (h : w.heap.blocks (w.node n).address ≠ none) :
    w.heap.blocks (w.node n).address = some (w.capacity n) := by
  obtain ⟨k, hk⟩ := Option.ne_none_iff_exists'.mp h
  rw [capacity_of hk, hk]

theorem address_ne_zero {w : FileWorld} (h : w.heap.Ok) {n : Nat}
    (hlive : w.heap.blocks (w.node n).address ≠ none) : (w.node n).address ≠ 0 := by
  intro h0
  rw [h0] at hlive
  exact hlive h.null

/-! ### What a read finds -/

/-- Which task reads makes no difference. -/
theorem tmpfsLoad_enter (w : FileWorld) (i n : Nat) :
    (tmpfsLoad (w.enter i) n).mem = (tmpfsLoad w.sys n).mem := by
  by_cases hinit : (w.sys.vfs.nodes n).init = true
  · rw [tmpfsLoad_of_init hinit, tmpfsLoad_of_init (s := w.enter i) hinit]
    rfl
  · have hfalse : (w.sys.vfs.nodes n).init = false := by simpa using hinit
    rw [tmpfsLoad_mem hfalse, tmpfsLoad_mem (s := w.enter i) hfalse]
    rfl

/-- The contents of a file, from the addresses they depend on. -/
theorem readBack_eq {w : FileWorld} (h : w.heap.Ok) {n i : Nat}
    (hlive : w.heap.blocks (w.node n).address ≠ none) (hc : Contained w n)
    (hi : (i : Int) < (w.node n).stSize) :
    readBack w.sys n i =
      if (w.node n).init then w.sys.mem ((w.node n).address + i)
      else if (i : Int) = (w.node n).stSize - 1 then 0xFF
      else w.sys.mem ((w.node n).internalAddress + i) := by
  have hblock := blocks_capacity hlive
  have hpos := address_ne_zero h hlive
  have hend := h.fits _ _ hblock
  have hfits := hc.fits
  by_cases hinit : (w.node n).init = true
  · rw [if_pos hinit, readBack, tmpfsLoad_of_init hinit]
    rfl
  · have hfalse : (w.node n).init = false := by simpa using hinit
    have hsize := toSize_of_lt hc.nonneg (by omega)
    have hlast : (toSize ((w.node n).address + (w.node n).stSize - 1) : Int)
        = (w.node n).address + (w.node n).stSize - 1 := toSize_of_lt (by omega) (by omega)
    have harch := hc.archive _ _ hblock hfalse
    have hmem : (tmpfsLoad w.sys n).mem = _ := tmpfsLoad_mem hfalse
    rw [if_neg hinit, readBack, hmem]
    change put (memcpy w.sys.mem (w.node n).address (w.node n).internalAddress
      (toSize (w.node n).stSize)) (toSize ((w.node n).address + (w.node n).stSize - 1)) 0xFF
      ((w.node n).address + i) = _
    by_cases hi' : (i : Int) = (w.node n).stSize - 1
    · rw [if_pos hi', show toSize ((w.node n).address + (w.node n).stSize - 1)
        = (w.node n).address + i by omega, put_same]
    · rw [if_neg hi', put_ne (by omega), memcpy_byte _ _ _ (by omega)]
      simp only [Apart] at harch
      omega

/-! ### What a call leaves alone -/

/-- A closed file is kept by a call that changes neither its node, nor its block,
nor an address it depends on. -/
theorem Kept.frame {w w' : FileWorld} {n : Nat} {c : ClosedFile} (hk : Kept w n c)
    (hok : w.heap.Ok) (hok' : w'.heap.Ok)
    (hlive : w.heap.blocks (w.node n).address ≠ none) (hfile : IsFile w'.sys n)
    (hdata : (w'.node n).fileData = (w.node n).fileData)
    (hblock : w'.heap.blocks (w.node n).address = w.heap.blocks (w.node n).address)
    (harch : ∀ a k, w'.heap.blocks a = some k → OffArchive w n a k)
    (hmem : ∀ a, GuardedBy w n a → w'.sys.mem a = w.sys.mem a) : Kept w' n c := by
  obtain ⟨-, -, hsize, haddr, hinternal, hinit⟩ := fileData_eq hdata
  have hcap : w'.capacity n = w.capacity n := by
    unfold FileWorld.capacity
    rw [haddr, hblock]
  -- the file still lies in its block and off the archive
  have hc : Contained w' n := by
    refine ⟨?_, ?_, fun a k hb => ?_⟩
    · rw [hsize]
      exact hk.contained.nonneg
    · rw [hsize, hcap]
      exact hk.contained.fits
    · unfold OffArchive
      rw [hinit, hinternal, hsize]
      exact harch a k hb
  refine ⟨hfile, hc, hsize.trans hk.size, fun i hi => ?_⟩
  have hi' : (i : Int) < (w.node n).stSize := by rw [hk.size]; exact hi
  have hfits := hk.contained.fits
  rw [← hk.bytes i hi, readBack_eq hok hlive hk.contained hi',
    readBack_eq hok' (by rw [haddr, hblock]; exact hlive) hc (by rw [hsize]; exact hi'),
    hinit, haddr, hinternal, hsize]
  -- its bytes are in the buffer once it was read, and in the archive before
  by_cases hin : (w.node n).init = true
  · rw [if_pos hin, if_pos hin]
    exact hmem _ (.inl ⟨by omega, by omega⟩)
  · rw [if_neg hin, if_neg hin]
    have hfalse : (w.node n).init = false := by simpa using hin
    have hlen := toSize_of_lt hk.contained.nonneg
    have hend := hok.fits _ _ (blocks_capacity hlive)
    by_cases hlast : (i : Int) = (w.node n).stSize - 1
    · rw [if_pos hlast, if_pos hlast]
    · rw [if_neg hlast, if_neg hlast]
      refine hmem _ (.inr ⟨hfalse, by omega, ?_⟩)
      have hpos := address_ne_zero hok hlive
      have := hlen (by omega)
      omega

/-- **What a call has to do to keep the invariant**, if it changes at most node
`n`: the blocks of the other files stay, node `n` has a block of its own if it is
a file, and the closed files keep their contents. -/
theorem FilesInv.change {w w' : FileWorld} (n : Nat) (h : FilesInv w) (hheap : w'.heap.Ok)
    (hfile : ∀ m, m ≠ n → (IsFile w'.sys m ↔ IsFile w.sys m))
    (hdata : ∀ m, m ≠ n → (w'.node m).fileData = (w.node m).fileData)
    (hblocks : ∀ m, m ≠ n → IsFile w.sys m →
      w'.heap.blocks (w.node m).address = w.heap.blocks (w.node m).address)
    (hself : IsFile w'.sys n → w'.heap.blocks (w'.node n).address ≠ none ∧
      ∀ m, m ≠ n → IsFile w.sys m → (w.node m).address ≠ (w'.node n).address)
    (hclosed : ∀ m, m ≠ n → w'.closed m = w.closed m)
    (harch : ∀ m, m ≠ n → w.closed m ≠ none → ∀ a k, w'.heap.blocks a = some k →
      OffArchive w m a k)
    (hmem : ∀ m, m ≠ n → w.closed m ≠ none → ∀ a, GuardedBy w m a → w'.sys.mem a = w.sys.mem a)
    (hkept : ∀ c, w'.closed n = some c → Kept w' n c) : FilesInv w' := by
  have haddr : ∀ m, m ≠ n → (w'.node m).address = (w.node m).address := fun m hm =>
    (fileData_eq (hdata m hm)).2.2.2.1
  -- in each part: node `n`, or one that the call leaves alone
  refine ⟨hheap, fun m hm => ?_, fun m k hm hk heq => ?_, fun m c hc => ?_⟩
  · by_cases hmn : m = n
    · subst hmn
      exact (hself hm).1
    · have hm' := (hfile m hmn).mp hm
      rw [haddr m hmn, hblocks m hmn hm']
      exact h.live m hm'
  · by_cases hmn : m = n
    · subst hmn
      by_contra hne
      have hk' := (hfile k (Ne.symm hne)).mp hk
      exact (hself hm).2 k (Ne.symm hne) hk' ((haddr k (Ne.symm hne)).symm.trans heq.symm)
    · by_cases hkn : k = n
      · subst hkn
        exact absurd ((haddr m hmn).symm.trans heq) ((hself hk).2 m hmn ((hfile m hmn).mp hm))
      · rw [haddr m hmn, haddr k hkn] at heq
        exact h.own m k ((hfile m hmn).mp hm) ((hfile k hkn).mp hk) heq
  · by_cases hmn : m = n
    · subst hmn
      exact hkept c hc
    · rw [hclosed m hmn] at hc
      have hne : w.closed m ≠ none := by rw [hc]; simp
      have hk := h.kept m c hc
      exact hk.frame h.heap hheap (h.live m hk.file) ((hfile m hmn).mpr hk.file) (hdata m hmn)
        (hblocks m hmn hk.file) (harch m hmn hne) (hmem m hmn hne)

/-- Nothing is known of a node that does not exist. -/
theorem FilesInv.not_closed {w : FileWorld} (h : FilesInv w) {n : Nat} (hn : ¬ IsFile w.sys n) :
    w.closed n = none := by
  by_contra hne
  obtain ⟨c, hc⟩ := Option.ne_none_iff_exists'.mp hne
  exact hn (h.kept n c hc).file

theorem FilesInv.offArchive {w : FileWorld} (h : FilesInv w) {n : Nat} (hn : w.closed n ≠ none)
    (a k : Nat) (hb : w.heap.blocks a = some k) : OffArchive w n a k := by
  obtain ⟨c, hc⟩ := Option.ne_none_iff_exists'.mp hn
  exact (h.kept n c hc).contained.archive a k hb

/-! ### `sys_openat` -/

theorem FilesInv.openat {w w' : FileWorld} (h : FilesInv w) {i buf : Nat} {grant : Bool}
    {dirfd : Int} {path : CString} {mode : Nat}
    (hfair : Fair w i (.openat buf grant dirfd path mode))
    (hstep : fileCall w i (.openat buf grant dirfd path mode) = some w') : FilesInv w' := by
  obtain ⟨⟨r, s'⟩, hopen, rfl⟩ := Option.map_eq_some_iff.mp hstep
  obtain ⟨hmem, hmounts, hnodes⟩ := sysOpenat_files hopen
  obtain ⟨hfresh, haway⟩ := hfair
  have hmounts' : s'.vfs.mounts = w.sys.vfs.mounts := hmounts
  have hmem' : s'.mem = w.sys.mem := hmem
  have hnone : w.closed w.sys.vfs.next = none :=
    h.not_closed fun hf => Nat.lt_irrefl _ hf.1
  -- a node is added at `next`, or none is
  have hdata : ∀ m, m ≠ w.sys.vfs.next → (s'.vfs.nodes m).fileData = (w.node m).fileData := by
    intro m hm
    rcases hnodes with ⟨-, hdata⟩ | ⟨-, -, hdata⟩
    · exact hdata m
    · exact hdata m hm
  have hfile : ∀ m, m ≠ w.sys.vfs.next → (IsFile s' m ↔ IsFile w.sys m) := by
    intro m hm
    obtain ⟨htype, hmount, -⟩ := fileData_eq (hdata m hm)
    refine isFile_congr ?_ hmounts' htype hmount
    rcases hnodes with ⟨hnext, -⟩ | ⟨hnext, -⟩
    · rw [show s'.vfs.next = w.sys.vfs.next from hnext]
    · rw [show s'.vfs.next = w.sys.vfs.next + 1 from hnext]
      omega
  have hunused : ∀ m, IsFile w.sys m → (w.node m).address ≠ buf := by
    rintro m hm rfl
    exact h.live m hm hfresh.unused
  refine h.change w.sys.vfs.next ?_ hfile hdata ?_ ?_ (fun m _ => rfl) ?_
    (fun m _ _ a _ => congrFun hmem' a) ?_
  · show Heap.Ok (if _ then _ else _)
    split
    · exact h.heap
    · exact h.heap.alloc hfresh
  · intro m _ hm
    show Heap.blocks (if _ then _ else _) _ = _
    split
    · rfl
    · exact w.heap.alloc_ne 2 (hunused m hm)
  · intro hnew
    rcases hnodes with ⟨hnext, -⟩ | ⟨hnext, haddr, -⟩
    · have hlt : w.sys.vfs.next < s'.vfs.next := hnew.1
      exact absurd (show s'.vfs.next = w.sys.vfs.next from hnext) (Nat.ne_of_gt hlt)
    · have hne : s'.vfs.next ≠ w.sys.vfs.next := by
        rw [show s'.vfs.next = w.sys.vfs.next + 1 from hnext]
        omega
      have haddr' : (s'.vfs.nodes w.sys.vfs.next).address = buf := haddr
      refine ⟨?_, fun m _ hm heq => hunused m hm (heq.trans haddr')⟩
      show Heap.blocks (if _ then _ else _) (s'.vfs.nodes w.sys.vfs.next).address ≠ none
      rw [if_neg hne, haddr', Heap.alloc_self]
      simp
  · intro m _ hm a k hb
    have hb' : (if s'.vfs.next = w.sys.vfs.next then w.heap else w.heap.alloc buf 2).blocks a
      = some k := hb
    split at hb'
    · exact h.offArchive hm a k hb'
    · rcases Heap.live_of_alloc hb' with ⟨rfl, rfl⟩ | hb''
      · exact haway m hm
      · exact h.offArchive hm a k hb''
  · intro c hc
    exact absurd (hnone.symm.trans hc) (by simp)

/-! ### `sys_read` -/

/-- A first read that fits changes the block of its node only. -/
theorem FillFits.outside {w : FileWorld} {n a : Nat} (h : FillFits w n) (hok : w.heap.Ok)
    (hinit : (w.node n).init = false)
    (ha : a < (w.node n).address ∨ (w.node n).address + w.capacity n ≤ a) :
    (tmpfsLoad w.sys n).mem a = w.sys.mem a := by
  have hend := hok.fits _ _ (blocks_capacity h.owned.live)
  have hpos := h.pos
  have hfits := h.fits
  have haddr := address_ne_zero hok h.owned.live
  have hsize := toSize_of_lt (i := (w.node n).stSize) (by omega) (by omega)
  have hlast : (toSize ((w.node n).address + (w.node n).stSize - 1) : Int)
      = (w.node n).address + (w.node n).stSize - 1 := toSize_of_lt (by omega) (by omega)
  have hmem : (tmpfsLoad w.sys n).mem = _ := tmpfsLoad_mem hinit
  rw [hmem]
  change put (memcpy w.sys.mem (w.node n).address (w.node n).internalAddress
    (toSize (w.node n).stSize)) (toSize ((w.node n).address + (w.node n).stSize - 1)) 0xFF a = _
  rw [put_ne (by omega), memcpy_agree _ _ _ _ (by omega)]

/-- What another closed file depends on is outside a block that is not its own. -/
theorem FilesInv.guarded_outside {w : FileWorld} (h : FilesInv w) {n m a : Nat} (hown : Owned w n)
    (hm : m ≠ n) (hc : w.closed m ≠ none) (ha : GuardedBy w m a) :
    a < (w.node n).address ∨ (w.node n).address + w.capacity n ≤ a := by
  obtain ⟨c, hcm⟩ := Option.ne_none_iff_exists'.mp hc
  have hk := h.kept m c hcm
  have hblock := blocks_capacity hown.live
  rcases ha with ⟨hl, hr⟩ | ⟨hinit, hl, hr⟩
  · have hne : (w.node m).address ≠ (w.node n).address := fun heq => hm (hown.own m hk.file heq)
    exact (h.heap.apart _ _ _ _ (blocks_capacity (h.live m hk.file)) hblock hne).outside hl hr
  · exact (hk.contained.archive _ _ hblock hinit).symm.outside hl hr

theorem FilesInv.read {w w' : FileWorld} (h : FilesInv w) {i tmp buf count : Nat} {fd : Int}
    (hfair : Fair w i (.read tmp fd buf count)) (hok : Sound w i (.read tmp fd buf count))
    (hstep : fileCall w i (.read tmp fd buf count) = some w') : FilesInv w' := by
  obtain ⟨⟨r, s'⟩, hread, rfl⟩ := Option.map_eq_some_iff.mp hstep
  obtain ⟨n, hn, honly, hcases⟩ := sysRead_files hread
  obtain ⟨hbufs, hdev⟩ := hfair n hn
  have hfile : ∀ m, IsFile s' m ↔ IsFile w.sys m := honly.isFile
  have hdata : ∀ m, m ≠ n → (s'.vfs.nodes m).fileData = (w.node m).fileData := fun m hm => by
    rw [honly.nodes m hm]
    rfl
  have haddr : (s'.vfs.nodes n).address = (w.node n).address := by
    rcases hcases with ⟨-, hd, -⟩ | ⟨-, hd, -⟩ <;> exact (fileData_eq hd).2.2.2.1
  -- the caller's buffers keep out of the closed files
  have hmem : ∀ m, m ≠ n → w.closed m ≠ none → ∀ a, GuardedBy w m a → s'.mem a = w.sys.mem a := by
    intro m hm hc a ha
    rcases hcases with ⟨htmpfs, -, hmem⟩ | ⟨htmpfs, -, hmem⟩
    · have hbuf := hbufs htmpfs
      have hstored : s'.mem a = (tmpfsLoad (w.enter i) n).mem a := by
        refine hmem a ?_
        rintro k hk rfl
        exact hbuf k hk ⟨m, hc, ha⟩
      rw [hstored, tmpfsLoad_enter]
      by_cases hinit : (w.node n).init = true
      · rw [tmpfsLoad_of_init hinit]
      · have hfits := hok n hn htmpfs (by simpa using hinit)
        exact hfits.outside h.heap (by simpa using hinit) (h.guarded_outside hfits.owned hm hc ha)
    · refine hmem a fun k hk => ?_
      obtain ⟨htmp, hbuf⟩ := hdev htmpfs k hk
      exact ⟨fun heq => htmp (heq ▸ ⟨m, hc, ha⟩), fun heq => hbuf (heq ▸ ⟨m, hc, ha⟩)⟩
  refine h.change n h.heap (fun m _ => hfile m) hdata (fun _ _ _ => rfl) ?_ (fun _ _ => rfl)
    (fun m _ hc => h.offArchive hc) hmem ?_
  · intro hself
    have hself' := (hfile n).mp hself
    show w.heap.blocks (s'.vfs.nodes n).address ≠ none ∧
      ∀ m, m ≠ n → IsFile w.sys m → (w.node m).address ≠ (s'.vfs.nodes n).address
    rw [haddr]
    exact ⟨h.live n hself', fun m hm hf heq => hm (h.own m n hf hself' heq)⟩
  · intro c hc
    have hk := h.kept n c hc
    rcases hcases with ⟨htmpfs, hd, hmem⟩ | ⟨htmpfs, -⟩
    · obtain ⟨-, -, hsize, -, -, hinit⟩ := fileData_eq hd
      have hsize' : (s'.vfs.nodes n).stSize = (w.node n).stSize := hsize
      have hcap : FileWorld.capacity (w.leave i s') n = w.capacity n := by
        show (w.heap.blocks (s'.vfs.nodes n).address).getD 0 = _
        rw [haddr]
        rfl
      have hc' : w.closed n ≠ none := by rw [show w.closed n = some c from hc]; simp
      refine ⟨(hfile n).mpr hk.file, ⟨?_, ?_, ?_⟩, hsize'.trans hk.size, fun j hj => ?_⟩
      · exact hsize'.symm ▸ hk.contained.nonneg
      · rw [hcap]
        exact hsize'.symm ▸ hk.contained.fits
      · intro a k _ hfalse
        exact absurd (hinit.symm.trans hfalse) (by simp)
      · -- the file is filled now, with what a read would have found before
        rw [← hk.bytes j hj]
        show (tmpfsLoad s' n).mem ((s'.vfs.nodes n).address + j) = _
        rw [tmpfsLoad_of_init hinit, haddr, readBack, ← tmpfsLoad_enter w i]
        refine hmem _ ?_
        rintro k hk' heq
        have hfits := hk.contained.fits
        have hsz := hk.size
        refine hbufs htmpfs k hk' ⟨n, hc', .inl ⟨?_, ?_⟩⟩ <;> omega
    · exact absurd hk.file.2.2 htmpfs

/-! ### `sys_write` -/

/-- Where a write that fits makes room, and which memory it leaves alone. -/
theorem WriteFits.room {w : FileWorld} {n count : Nat} (h : WriteFits w n count)
    (hok : w.heap.Ok) (i buf : Nat) {ptr : Nat}
    (hptr : (w.node n).Grows → ptr + growSize (w.node n) count ≤ 2 ^ 64) :
    let room := writeRoom ⟨w.capacity n, ptr⟩ (w.enter i) n count
    let m := memcpy room.2 ((room.1 + (w.node n).writeOffset) % 2 ^ 64) buf count
    ((w.node n).Grows → room.1 = ptr ∧
      ∀ a, a < ptr ∨ ptr + growSize (w.node n) count ≤ a → m a = w.sys.mem a) ∧
    (¬ (w.node n).Grows → room.1 = (w.node n).address ∧
      ∀ a, a < (w.node n).address ∨ (w.node n).address + w.capacity n ≤ a →
        m a = w.sys.mem a) := by
  have haddr := address_ne_zero hok h.owned.live
  refine ⟨fun hg => ?_, fun hg => ?_⟩
  · -- `realloc` copies into the new block, and the write goes there
    obtain ⟨hpos, hsize, hcap, hfits⟩ := h.grow hg
    have hend := hptr hg
    have hroom : writeRoom ⟨w.capacity n, ptr⟩ (w.enter i) n count =
        (ptr, memcpy w.sys.mem ptr (w.node n).address
          (min (w.capacity n) (growSize (w.node n) count))) := by
      show (if (w.node n).Grows then _ else _) = _
      rw [if_pos hg]
      exact realloc_eq haddr hpos hsize hcap
    rw [hroom]
    refine ⟨rfl, fun a ha => ?_⟩
    dsimp only
    rw [memcpy_dest_mod _ _ (by omega), memcpy_agree _ _ _ _ (by omega),
      memcpy_agree _ _ _ _ (by omega)]
  · -- the write goes into the block the file has
    have hfits := h.stay hg
    have hend := hok.fits _ _ (blocks_capacity h.owned.live)
    have hroom : writeRoom ⟨w.capacity n, ptr⟩ (w.enter i) n count =
        ((w.node n).address, w.sys.mem) := by
      show (if (w.node n).Grows then _ else _) = _
      rw [if_neg hg]
      rfl
    rw [hroom]
    refine ⟨rfl, fun a ha => ?_⟩
    dsimp only
    rw [memcpy_dest_mod _ _ (by omega), memcpy_agree _ _ _ _ (by omega)]

theorem FilesInv.write {w w' : FileWorld} (h : FilesInv w) {i ptr buf count : Nat} {fd : Int}
    (hfair : Fair w i (.write ptr fd buf count)) (hok : Sound w i (.write ptr fd buf count))
    (hstep : fileCall w i (.write ptr fd buf count) = some w') : FilesInv w' := by
  obtain ⟨n, hn, hstep'⟩ := Option.bind_eq_some_iff.mp hstep
  obtain ⟨⟨r, s'⟩, hwrite, rfl⟩ := Option.map_eq_some_iff.mp hstep'
  obtain ⟨honly, hcases⟩ := sysWrite_files hn hwrite
  have hfile : ∀ m, IsFile s' m ↔ IsFile w.sys m := honly.isFile
  have hdata : ∀ m, m ≠ n → (s'.vfs.nodes m).fileData = (w.node m).fileData := fun m hm => by
    rw [honly.nodes m hm]
    rfl
  have hclosed : ∀ m, m ≠ n → Function.update w.closed n none m = w.closed m := fun m hm =>
    Function.update_of_ne hm none w.closed
  -- a file that is written to is no longer recorded as closed
  have hkept : ∀ (w' : FileWorld) c, Function.update w.closed n none n = some c → Kept w' n c := by
    intro w' c hc
    rw [Function.update_self] at hc
    cases hc
  rcases hcases with ⟨htmpfs, haddr, hmem⟩ | ⟨htmpfs, hmem⟩
  · have hfits := hok n hn htmpfs
    obtain ⟨hgrow, hstay⟩ := hfits.room h.heap i buf fun hg => (hfair n hn htmpfs hg).1.fits
    by_cases hg : (w.node n).Grows
    · -- the buffer moves to the new block
      obtain ⟨hroom, hout⟩ := hgrow hg
      obtain ⟨hfresh, haway⟩ := hfair n hn htmpfs hg
      have haddr' : (s'.vfs.nodes n).address = ptr := haddr.trans hroom
      have hne : ptr ≠ (w.node n).address := fun heq => hfits.owned.live (heq ▸ hfresh.unused)
      have hheap : (if OnTmpfs w.sys n ∧ (w.node n).Grows then
          (w.heap.alloc ptr (growSize (w.node n) count)).free (w.node n).address else w.heap)
          = (w.heap.alloc ptr (growSize (w.node n) count)).free (w.node n).address :=
        if_pos ⟨htmpfs, hg⟩
      dsimp only
      rw [hheap]
      refine h.change n ?_ (fun m _ => hfile m) hdata ?_ ?_ hclosed ?_ ?_ (hkept _)
      · refine (h.heap.alloc hfresh).free (.inr ?_)
        rw [Heap.alloc_ne _ _ hne.symm]
        exact hfits.owned.live
      · intro m hm hf
        have hptr : (w.node m).address ≠ ptr := fun heq => h.live m hf (heq ▸ hfresh.unused)
        have hother : (w.node m).address ≠ (w.node n).address :=
          fun heq => hm (hfits.owned.own m hf heq)
        show ((w.heap.alloc ptr _).free _).blocks _ = _
        rw [Heap.free_ne _ hother, Heap.alloc_ne _ _ hptr]
      · intro _
        show ((w.heap.alloc ptr _).free _).blocks (s'.vfs.nodes n).address ≠ none ∧
          ∀ m, m ≠ n → IsFile w.sys m → (w.node m).address ≠ (s'.vfs.nodes n).address
        rw [haddr', Heap.free_ne _ hne, Heap.alloc_self]
        exact ⟨by simp, fun m _ hf heq => h.live m hf (heq ▸ hfresh.unused)⟩
      · intro m _ hc a k hb
        rcases Heap.live_of_alloc (Heap.live_of_free hb) with ⟨rfl, rfl⟩ | hb'
        · exact haway m hc
        · exact h.offArchive hc a k hb'
      · intro m _ hc a ha
        refine (congrFun hmem a).trans (hout a ?_)
        obtain ⟨c, hcm⟩ := Option.ne_none_iff_exists'.mp hc
        have hk := h.kept m c hcm
        rcases ha with ⟨hl, hr⟩ | ⟨hinit, hl, hr⟩
        · exact (hfresh.apart _ _ (blocks_capacity (h.live m hk.file))).symm.outside hl hr
        · exact (haway m hc hinit).symm.outside hl hr
    · -- the buffer stays where it is
      obtain ⟨hroom, hout⟩ := hstay hg
      have haddr' : (s'.vfs.nodes n).address = (w.node n).address := haddr.trans hroom
      have hheap : (if OnTmpfs w.sys n ∧ (w.node n).Grows then
          (w.heap.alloc ptr (growSize (w.node n) count)).free (w.node n).address else w.heap)
          = w.heap := if_neg fun hand => hg hand.2
      dsimp only
      rw [hheap]
      refine h.change n h.heap (fun m _ => hfile m) hdata (fun _ _ _ => rfl) ?_ hclosed
        (fun m _ hc => h.offArchive hc) ?_ (hkept _)
      · intro hself
        show w.heap.blocks (s'.vfs.nodes n).address ≠ none ∧
          ∀ m, m ≠ n → IsFile w.sys m → (w.node m).address ≠ (s'.vfs.nodes n).address
        rw [haddr']
        exact ⟨hfits.owned.live, fun m hm hf heq => hm (hfits.owned.own m hf heq)⟩
      · intro m hm hc a ha
        exact (congrFun hmem a).trans (hout a (h.guarded_outside hfits.owned hm hc ha))
  · -- a node of another filesystem is no file
    have hheap : (if OnTmpfs w.sys n ∧ (w.node n).Grows then
        (w.heap.alloc ptr (growSize (w.node n) count)).free (w.node n).address else w.heap)
        = w.heap := if_neg fun hand => htmpfs hand.1
    dsimp only
    rw [hheap]
    refine h.change n h.heap (fun m _ => hfile m) hdata (fun _ _ _ => rfl) ?_ hclosed
      (fun m _ hc => h.offArchive hc) (fun m _ _ a _ => congrFun hmem a) (hkept _)
    intro hself
    exact absurd ((hfile n).mp hself).2.2 htmpfs

/-! ### `sys_close` -/

/-- Recording a file as closed. -/
theorem FilesInv.record {w : FileWorld} (h : FilesInv w) {n : Nat} (hn : IsFile w.sys n)
    (hc : Contained w n) :
    FilesInv { w with
      closed := Function.update w.closed n (some ⟨(w.node n).stSize, readBack w.sys n⟩) } := by
  refine h.change n h.heap (fun _ _ => Iff.rfl) (fun _ _ => rfl) (fun _ _ _ => rfl)
    (fun _ => ⟨h.live n hn, fun m hm hf heq => hm (h.own m n hf hn heq)⟩)
    (fun m hm => Function.update_of_ne hm _ _) (fun m _ hm => h.offArchive hm)
    (fun _ _ _ _ _ => rfl) ?_
  intro c hcn
  have hcn' : Function.update w.closed n (some ⟨(w.node n).stSize, readBack w.sys n⟩) n = some c :=
    hcn
  rw [Function.update_self] at hcn'
  obtain rfl := Option.some.inj hcn'
  exact ⟨hn, ⟨hc.nonneg, hc.fits, hc.archive⟩, rfl, fun _ _ => rfl⟩

theorem FilesInv.close {w w' : FileWorld} (h : FilesInv w) {i fildes : Nat}
    (hok : Sound w i (.close fildes)) (hstep : fileCall w i (.close fildes) = some w') :
    FilesInv w' := by
  obtain ⟨s', hclose, rfl⟩ := Option.map_eq_some_iff.mp hstep
  obtain ⟨n, hn, honly, hmem⟩ := sysClose_files hclose
  obtain ⟨htarget, hcont⟩ := hok
  obtain ⟨hnot, haddr⟩ := htarget n hn
  rw [hn]
  -- first the file that is closed is recorded, then the other one is reset
  generalize hrec : ((fileOf (w.enter i) fildes).elim w.closed fun n =>
    if IsFile w.sys n then
      Function.update w.closed n (some ⟨(w.node n).stSize, readBack w.sys n⟩)
    else w.closed) = closed
  have h₁ : FilesInv { w with closed := closed } := by
    subst hrec
    cases hf : fileOf (w.enter i) fildes with
    | none => exact h
    | some m =>
      by_cases hm : IsFile w.sys m
      · rw [Option.elim, if_pos hm]
        exact h.record hm (hcont m hf hm)
      · rw [Option.elim, if_neg hm]
        exact h
  refine h₁.change n ?_ (fun m _ => honly.isFile m) ?_ ?_ ?_ (fun _ _ => rfl) ?_
    (fun m _ _ a _ => congrFun hmem a) ?_
  · refine h.heap.free ?_
    rcases haddr with h0 | hown
    · exact .inl h0
    · exact .inr hown.live
  · intro m hm
    show (s'.vfs.nodes m).fileData = _
    rw [honly.nodes m hm]
    rfl
  · intro m hm hf
    show (w.heap.free (w.node n).address).blocks (w.node m).address = _
    rcases haddr with h0 | hown
    · rw [h0]
      rfl
    · exact Heap.free_ne _ fun heq => hm (hown.own m hf heq)
  · intro hself
    exact absurd ((honly.isFile n).mp hself) hnot
  · intro m _ hc a k hb
    exact h₁.offArchive hc a k (Heap.live_of_free hb)
  · intro c hc
    have hnone : closed n = none := h₁.not_closed hnot
    exact absurd (hnone.symm.trans hc) (by simp)

/-! ### Runs -/

theorem FilesInv.store {w w' : FileWorld} (h : FilesInv w) {i : Nat} {mem : Mem}
    (hfair : Fair w i (.store mem)) (hstep : fileCall w i (.store mem) = some w') :
    FilesInv w' := by
  obtain rfl := Option.some.inj hstep
  have hnot : ¬ IsFile w.sys w.sys.vfs.next := fun hf => Nat.lt_irrefl _ hf.1
  refine h.change w.sys.vfs.next h.heap (fun _ _ => Iff.rfl) (fun _ _ => rfl) (fun _ _ _ => rfl)
    (fun hself => absurd hself hnot) (fun _ _ => rfl) (fun m _ hm => h.offArchive hm)
    (fun m _ hm a ha => hfair a ⟨m, hm, ha⟩) ?_
  intro c hc
  exact absurd ((h.not_closed hnot).symm.trans hc) (by simp)

theorem FilesInv.step {w w' : FileWorld} (h : FilesInv w) {i : Nat} {call : FileCall}
    (hfair : Fair w i call) (hok : Sound w i call) (hstep : fileCall w i call = some w') :
    FilesInv w' := by
  cases call with
  | openat buf grant dirfd path mode => exact h.openat hfair hstep
  | read tmp fd buf count => exact h.read hfair hok hstep
  | write ptr fd buf count => exact h.write hfair hok hstep
  | close fildes => exact h.close hok hstep
  | store mem => exact h.store hfair hstep

/-- The state the tasks start from: every file has a live block of its own, and no
file was closed yet. -/
structure Booted (w : FileWorld) : Prop where
  heap : w.heap.Ok
  live : ∀ n, IsFile w.sys n → w.heap.blocks (w.node n).address ≠ none
  own : ∀ n m, IsFile w.sys n → IsFile w.sys m → (w.node n).address = (w.node m).address → n = m
  closed : ∀ n, w.closed n = none

theorem FilesRun.inv {w₀ w : FileWorld} (h₀ : Booted w₀)
    (hrun : FilesRun (fun w i call => Fair w i call ∧ Sound w i call) w₀ w) : FilesInv w := by
  induction hrun with
  | start =>
    refine ⟨h₀.heap, h₀.live, h₀.own, fun n c hc => ?_⟩
    rw [h₀.closed] at hc
    cases hc
  | step i call _ hok hstep ih => exact ih.step hok.1 hok.2 hstep

/-- Every task that has the file open reads what the file was when it was closed. -/
def ReadsBack (w : FileWorld) (n : Nat) (c : ClosedFile) : Prop :=
  ∀ (i tmp : Nat) (fd : Int) (buf count : Nat), fileOf (w.enter i) fd = some n → buf ≠ 0 →
    (∀ k < count, ¬ Guarded w (buf + k)) → (((w.node n).cursor + count : Nat) : Int) ≤ c.size →
    ∃ ret s', sysRead tmp (w.enter i) fd buf count = some (ret, s') ∧
      ∀ k < count, s'.mem (buf + k) = c.bytes ((w.node n).cursor + k)

/-- Every file has a live buffer, nothing was given back twice, and the files that
were closed read back with the size and the contents they had. -/
structure FilesSound (w : FileWorld) : Prop where
  live : ∀ n, IsFile w.sys n → w.heap.blocks (w.node n).address ≠ none
  clean : w.heap.clean = true
  size : ∀ n c, w.closed n = some c → (w.node n).stSize = c.size
  bytes : ∀ n c, w.closed n = some c → ReadsBack w n c

theorem Kept.readsBack {w : FileWorld} {n : Nat} {c : ClosedFile} (h : Kept w n c)
    (hok : w.heap.Ok) (hlive : w.heap.blocks (w.node n).address ≠ none)
    (hc : w.closed n = some c) : ReadsBack w n c := by
  intro i tmp fd buf count hfd hbuf hapart hfit
  have hread : vfsRead tmp (w.enter i) n (w.node n).cursor count buf
      = some (tmpfsRead (w.enter i) n (w.node n).cursor count buf) :=
    vfsRead_tmpfs (s := w.enter i) h.file.2.2 tmp _ count buf
  have hcursor : ((w.enter i).vfs.nodes n).cursor = (w.node n).cursor := rfl
  unfold sysRead
  rw [hfd]
  dsimp only
  rw [hcursor, hread]
  refine ⟨_, _, rfl, fun k hk => ?_⟩
  have haddr : ((tmpfsLoad (w.enter i) n).vfs.nodes n).address = (w.node n).address :=
    (fileData_eq (tmpfsLoad_files (w.enter i) n).2).2.2.2.1
  have hmem : (tmpfsRead (w.enter i) n (w.node n).cursor count buf).2.mem
      = memcpy (tmpfsLoad w.sys n).mem buf
          (((w.node n).address + (w.node n).cursor) % 2 ^ 64) count := by
    unfold tmpfsRead
    dsimp only
    rw [if_neg hbuf, haddr, tmpfsLoad_enter]
    rfl
  have hfits := h.contained.fits
  have hsize := h.size
  -- the range lies in the block, so its start does not wrap
  have hend := hok.fits _ _ (blocks_capacity hlive)
  have hstart : ((w.node n).address + (w.node n).cursor) % 2 ^ 64 =
      (w.node n).address + (w.node n).cursor := Nat.mod_eq_of_lt (by omega)
  show (tmpfsRead (w.enter i) n (w.node n).cursor count buf).2.mem (buf + k) = _
  rw [hmem, hstart, memcpy_byte _ _ _ hk ?_, Nat.add_assoc]
  · exact h.bytes _ (by omega)
  · -- the byte is in the block of the file, so it is not in the buffer
    by_contra hin
    refine hapart ((w.node n).address + (w.node n).cursor + k - buf) (by omega)
      ⟨n, by rw [hc]; simp, .inl ⟨by omega, by omega⟩⟩

/-- **File buffers across closes.**  In every run, by any number of tasks, whose
calls all meet the condition, every tmpfs file in the tree has a live buffer, no
block is given back twice, and a file that was closed reads back with the size
and the contents it had. -/
theorem files_across_closes {w₀ w : FileWorld} (h₀ : Booted w₀)
    (hrun : FilesRun (fun w i call => Fair w i call ∧ Sound w i call) w₀ w) : FilesSound w := by
  have h := hrun.inv h₀
  exact ⟨h.live, h.heap.clean, fun n c hc => (h.kept n c hc).size,
    fun n c hc => (h.kept n c hc).readsBack h.heap (h.live n (h.kept n c hc).file) hc⟩

/-! ### Closing one file -/

/-- The tree of `devfs_init`: a tmpfs, with `/dev/tty` on a devfs. -/
def ttyVfs : Vfs :=
  (vfsOpen 0x3000 ((vfsMount newTask.vfs ['/', 'd', 'e', 'v'] .devfs).getD noVfs) (some 0)
    ['/', 'd', 'e', 'v', '/', 't', 't', 'y'] O_CREAT).elim noVfs Prod.snd

/-- A task without descriptors; the buffer of the terminal is the one live block. -/
def ttyWorld : FileWorld where
  sys := { newTask with vfs := ttyVfs }
  tasks := fun _ => newTask.task
  heap := ⟨fun a => if a = 0x3000 then some 2 else none, true⟩
  closed := fun _ => none

/-- The world after a call. -/
def FileWorld.after (w : FileWorld) (i : Nat) (call : FileCall) : FileWorld :=
  (fileCall w i call).getD w

/-- The task created `/a`. -/
def aOpen : FileWorld := ttyWorld.after 0 (.openat 0x1000 true AT_FDCWD ['/', 'a'] O_CREAT)

/-- Then it opened `/dev/tty`. -/
def ttyOpen : FileWorld :=
  aOpen.after 0 (.openat 0x2000 true AT_FDCWD ['/', 'd', 'e', 'v', '/', 't', 't', 'y'] 0)

/-- Then it closed `/a`. -/
def aClosed : FileWorld := ttyOpen.after 0 (.close 0)

theorem ttyWorld_booted : Booted ttyWorld := by
  have hnone : ∀ n, ¬ IsFile ttyWorld.sys n := by
    intro n hn
    have hall : ∀ m < 5, ¬ IsFile ttyWorld.sys m := by decide +kernel
    exact hall n hn.1 hn
  have hblock : ∀ a k, ttyWorld.heap.blocks a = some k → a = 0x3000 ∧ k = 2 := by
    intro a k hb
    have hb' : (if a = 0x3000 then some 2 else none) = some k := hb
    split at hb'
    · next ha => exact ⟨ha, (Option.some.inj hb').symm⟩
    · cases hb'
  refine ⟨⟨rfl, rfl, fun a k hb => ?_, fun a b k l ha hb hne => ?_⟩,
    fun n hn => absurd hn (hnone n), fun n _ hn => absurd hn (hnone n), fun _ => rfl⟩
  · obtain ⟨rfl, rfl⟩ := hblock a k hb
    decide
  · exact absurd ((hblock a k ha).1.trans (hblock b l hb).1.symm) hne

theorem ttyWorld_fresh {a : Nat} (h0 : a ≠ 0) (h : a + 2 ≤ 0x3000) :
    ttyWorld.heap.Fresh a 2 := by
  refine ⟨h0, by omega, ?_, fun b m hb => ?_⟩
  · show (if a = 0x3000 then some 2 else none) = none
    rw [if_neg (by omega)]
  · have hb' : (if b = 0x3000 then some 2 else none) = some m := hb
    split at hb'
    · left
      omega
    · cases hb'

theorem aOpen_step : fileCall ttyWorld 0 (.openat 0x1000 true AT_FDCWD ['/', 'a'] O_CREAT)
    = some aOpen := rfl

theorem aOpen_fair : Fair ttyWorld 0 (.openat 0x1000 true AT_FDCWD ['/', 'a'] O_CREAT) :=
  ⟨ttyWorld_fresh (by decide) (by decide), fun n hn => absurd rfl hn⟩

theorem ttyOpen_step : fileCall aOpen 0 (.openat 0x2000 true AT_FDCWD
    ['/', 'd', 'e', 'v', '/', 't', 't', 'y'] 0) = some ttyOpen := rfl

theorem ttyOpen_fair : Fair aOpen 0 (.openat 0x2000 true AT_FDCWD
    ['/', 'd', 'e', 'v', '/', 't', 't', 'y'] 0) := by
  have hold : ttyWorld.heap.Fresh 0x2000 2 := ttyWorld_fresh (by decide) (by decide)
  refine ⟨⟨by decide, by decide, rfl, fun b m hb => ?_⟩, fun n hn => absurd rfl hn⟩
  rcases Heap.live_of_alloc (show (ttyWorld.heap.alloc 0x1000 2).blocks b = some m from hb)
    with ⟨rfl, rfl⟩ | hb'
  · exact .inr (by decide)
  · exact hold.apart b m hb'

theorem aClosed_sound : Sound ttyOpen 0 (.close 0) := by
  have hfiles : ∀ m < 6, IsFile ttyOpen.sys m → m = 5 := by decide +kernel
  refine ⟨fun n hn => ?_, fun n hn _ => ?_⟩
  · obtain rfl : n = 4 := Option.some.inj (hn.symm.trans rfl)
    refine ⟨by decide +kernel, .inr ⟨by decide +kernel, fun m hm heq => ?_⟩⟩
    obtain rfl := hfiles m hm.1 hm
    exact absurd heq (by decide +kernel)
  · obtain rfl : n = 5 := Option.some.inj (hn.symm.trans rfl)
    exact ⟨by decide +kernel, by decide +kernel, fun a k _ _ => .inr (Nat.zero_le a)⟩

theorem aClosed_run :
    FilesRun (fun w i call => Fair w i call ∧ Sound w i call) ttyWorld aClosed := by
  have hrange : 0 < (ttyOpen.tasks 0).descriptors.length := by decide +kernel
  have hone : FilesRun (fun w i call => Fair w i call ∧ Sound w i call) ttyWorld aOpen :=
    .step 0 _ .start ⟨aOpen_fair, trivial⟩ aOpen_step
  have htwo := hone.step 0 _ ⟨ttyOpen_fair, trivial⟩ ttyOpen_step
  exact htwo.step 0 (.close 0) ⟨hrange, aClosed_sound⟩ rfl

/-- `/a` is closed while the terminal is open behind it: the block of the terminal
is given back, and `/a` is kept. -/
theorem files_across_closes_tty :
    FilesRun (fun w i call => Fair w i call ∧ Sound w i call) ttyWorld aClosed ∧
      IsFile aClosed.sys 5 ∧ (aClosed.closed 5).isSome ∧ FilesSound aClosed :=
  ⟨aClosed_run, by decide +kernel, by decide +kernel,
    files_across_closes ttyWorld_booted aClosed_run⟩

/-- **Closing a file leaves it a buffer that is not live.**  The task creates `/a`
and closes it. -/
theorem close_leaves_dangling :
    ¬ ∀ w₀ w, Booted w₀ → FilesRun Fair w₀ w → FilesSound w := by
  intro hclaim
  have hrange : 0 < (aOpen.tasks 0).descriptors.length := by decide +kernel
  have hone : FilesRun Fair ttyWorld aOpen := .step 0 _ .start aOpen_fair aOpen_step
  have hrun : FilesRun Fair ttyWorld (aOpen.after 0 (.close 0)) := hone.step 0 (.close 0) hrange rfl
  have hsound := hclaim _ _ ttyWorld_booted hrun
  have hlive := hsound.live 5 (by decide +kernel)
  exact hlive (by decide +kernel)

end BestOS
