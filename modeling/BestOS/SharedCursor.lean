/-
BestOS/SharedCursor.lean

Two descriptors for one file.

The position of `sys_read` and `sys_seek` is a field of the node, not of the
descriptor, so what one user of a file does shows in what the other one gets.
The property compares two runs: any interleaving of calls on the two
descriptors, and for each descriptor the same calls without those of the other
(`Independent`).

`PairsOk` follows the interleaving and carries, for each descriptor, the
position its own calls alone have led to.  It asks that the shared cursor stands
there whenever a call depends on it, that the memory the reads copy from is not
stored to by them, and that a close does not change what the file contains.
Under it the run of one descriptor alone is simulated by the interleaving; the
relation is `Alone`.
-/
import BestOS.Descriptors
import BestOS.FileEffects
import BestOS.ReadConfined

namespace BestOS

open ByteMemory

/-! ### Calls of several tasks -/

/-- The system, and the descriptors of each task. -/
structure TaskWorld where
  sys : SysState
  tasks : Nat → FileTask

namespace TaskWorld

/-- The state in which task `i` makes a call. -/
def enter (w : TaskWorld) (i : Nat) : SysState := { w.sys with task := w.tasks i }

def leave (w : TaskWorld) (i : Nat) (s : SysState) : TaskWorld where
  sys := s
  tasks := Function.update w.tasks i s.task

def node (w : TaskWorld) (n : Nat) : VfsNode := w.sys.vfs.nodes n

end TaskWorld

/-- A descriptor, by the task that holds it and its number there. -/
structure Handle where
  task : Nat
  fd : Nat

/-- A call on a descriptor. -/
inductive HandleCall
  | read (tmp : Nat) (buf count : BitVec 64)
  | seek (offset : BitVec 64) (whence : BitVec 32)
  | close

def handleCall (w : TaskWorld) (h : Handle) : HandleCall → Option (Int × TaskWorld)
  | .read tmp buf count =>
      (sysRead tmp (w.enter h.task) h.fd buf.toNat count.toNat).map fun r => (r.1, w.leave h.task r.2)
  | .seek offset whence =>
      (sysSeek (w.enter h.task) h.fd offset.toInt whence.toInt).map fun r => (r.1, w.leave h.task r.2)
  | .close => (sysClose (w.enter h.task) h.fd).map fun s => (0, w.leave h.task s)

/-- What the caller gets: the value in `rax`, and the bytes in its buffer. -/
structure Observation where
  ret : Int
  bytes : List (BitVec 8)

def observe (c : HandleCall) (ret : Int) (m : Mem) : Observation where
  ret := ret
  bytes :=
    match c with
    | .read _ buf count => (List.range (copied buf count)).map fun i => m (buf.toNat + i)
    | _ => []

/-- What is observed in an interleaving of calls on two descriptors, each call and
each observation with the descriptor it belongs to. -/
def observations (hs : Bool → Handle) : TaskWorld → List (Bool × HandleCall) →
    Option (List (Bool × Observation))
  | _, [] => some []
  | w, (x, c) :: calls =>
      (handleCall w (hs x) c).bind fun r =>
        (observations hs r.2 calls).map fun obs => (x, observe c r.1 r.2.sys.mem) :: obs

/-- Each descriptor observes what it would without the calls on the other one. -/
def Independent (hs : Bool → Handle) (w : TaskWorld) (calls : List (Bool × HandleCall)) : Prop :=
  ∀ obs, observations hs w calls = some obs →
    ∀ x, observations hs w (calls.filter fun c => c.1 = x) = some (obs.filter fun o => o.1 = x)

/-! ### The condition -/

/-- `tmpfs_read`'s first half on memory: the buffer is filled from the archive. -/
def reload (m : Mem) (node : VfsNode) : Mem :=
  put (memcpy m node.address node.internalAddress (toSize node.stSize))
    (toSize (node.address + node.stSize - 1)) 0xFF

/-- Memory as a read finds it. -/
def filled (m : Mem) (node : VfsNode) : Mem := if node.init then m else reload m node

/-- The position after a call on a descriptor, from the position before. -/
def ownNext (w : TaskWorld) (n : Nat) (h : Handle) (p : Nat) : HandleCall → Nat
  | .read _ buf count => (p + advance buf count) % 2 ^ 64
  | .seek offset whence =>
      (seekBase { w.node n with cursor := p } offset.toInt whence.toInt).elim p toSize
  | .close => if closeTarget (w.enter h.task) h.fd = some n then 0 else p

/-- `G` is memory a file is kept in: it has the archive bytes, and neither it nor the
buffer runs over the end of the address space. -/
structure FileMemory (G : Nat → Prop) (node : VfsNode) : Prop where
  below : ∀ a, G a → a < 2 ^ 64
  buffer : node.address + toSize node.stSize ≤ 2 ^ 64
  archive : ∀ i < toSize node.stSize, G (node.internalAddress + i)

/-- The condition on one call, made on a descriptor whose own calls have led to
position `p`; `G` is the memory that reads copy from.  The position is added to the
address in 64 bits. -/
def HandleOk (G : Nat → Prop) (w : TaskWorld) (n : Nat) (p : Nat) : Handle → HandleCall → Prop
  | _, .read _ buf count =>
      0 < copied buf count → (w.node n).cursor = p ∧ buf.toNat + copied buf count ≤ 2 ^ 64 ∧
        ∀ i < copied buf count,
          G (((w.node n).address + p) % 2 ^ 64 + i) ∧ ¬ G (buf.toNat + i)
  | _, .seek _ whence => whence.toInt = SEEK_CUR → (w.node n).cursor = p
  -- a file that is closed would be filled with what it contains
  | h, .close =>
      closeTarget (w.enter h.task) h.fd = some n →
        AgreeOn G (filled w.sys.mem (w.node n)) (reload w.sys.mem (w.node n))

/-- The condition on an interleaving: every number finds the file, and every call
meets `HandleOk`; `own` are the positions of the two descriptors. -/
def PairsOk (G : Nat → Prop) (hs : Bool → Handle) (n : Nat) :
    TaskWorld → (Bool → Nat) → List (Bool × HandleCall) → Prop
  | _, _, [] => True
  | w, own, (x, c) :: calls =>
      fileOf (w.enter (hs x).task) (hs x).fd = some n ∧ HandleOk G w n (own x) (hs x) c ∧
        ∀ ret w', handleCall w (hs x) c = some (ret, w') →
          PairsOk G hs n w' (Function.update own x (ownNext w n (hs x) (own x) c)) calls

/-! ### What the calls do -/

theorem tmpfsLoad_filled (s : SysState) (n : Nat) :
    (tmpfsLoad s n).mem = filled s.mem (s.vfs.nodes n) := by
  unfold filled
  cases hinit : (s.vfs.nodes n).init with
  | true => rw [tmpfsLoad_of_init hinit, if_pos rfl]
  | false =>
      rw [tmpfsLoad_mem hinit, if_neg Bool.false_ne_true]
      rfl

theorem handleCall_read {w : TaskWorld} {h : Handle} {n : Nat}
    (hfd : fileOf (w.enter h.task) h.fd = some n) (hmount : OnTmpfs w.sys n) (tmp : Nat)
    (buf count : BitVec 64) :
    ∃ w', handleCall w h (.read tmp buf count)
        = some (if buf = 0 then -1 else toInt count.toNat, w') ∧
      w'.tasks = w.tasks ∧ w'.sys.vfs.mounts = w.sys.vfs.mounts ∧
      w'.sys.mem = memcpy (filled w.sys.mem (w.node n)) buf.toNat
        (((w.node n).address + (w.node n).cursor) % 2 ^ 64) (copied buf count) ∧
      w'.node n = { w.node n with
        init := true
        cursor := ((w.node n).cursor + advance buf count) % 2 ^ 64 } := by
  obtain ⟨s', hread, hmem, htask, hmounts, hnode⟩ :=
    sysRead_copies (s := w.enter h.task) hfd hmount tmp buf count
  refine ⟨w.leave h.task s', by rw [handleCall, hread]; rfl, ?_, hmounts, ?_, hnode⟩
  · show Function.update w.tasks h.task s'.task = w.tasks
    rw [htask]
    exact Function.update_eq_self _ _
  · show s'.mem = _
    rw [hmem, tmpfsLoad_filled]
    rfl

theorem handleCall_seek {w : TaskWorld} {h : Handle} {n : Nat}
    (hfd : fileOf (w.enter h.task) h.fd = some n) (offset : BitVec 64) (whence : BitVec 32) :
    ∃ w', handleCall w h (.seek offset whence)
        = some ((seekBase (w.node n) offset.toInt whence.toInt).getD (-1), w') ∧
      w'.tasks = w.tasks ∧ w'.sys.vfs.mounts = w.sys.vfs.mounts ∧ w'.sys.mem = w.sys.mem ∧
      w'.node n = { w.node n with
        cursor := (seekBase (w.node n) offset.toInt whence.toInt).elim (w.node n).cursor toSize } := by
  have hself : ∀ s : SysState, s.task = w.tasks h.task → (w.leave h.task s).tasks = w.tasks := by
    intro s hs
    show Function.update w.tasks h.task s.task = w.tasks
    rw [hs]
    exact Function.update_eq_self _ _
  have hnode : (w.enter h.task).vfs.nodes n = w.node n := rfl
  rw [handleCall, sysSeek, hfd]
  dsimp only
  rw [hnode]
  cases seekBase (w.node n) offset.toInt whence.toInt with
  | none => exact ⟨_, rfl, hself _ rfl, rfl, rfl, rfl⟩
  | some base =>
      refine ⟨_, rfl, hself _ rfl, rfl, rfl, ?_⟩
      show Function.update w.sys.vfs.nodes n _ n = _
      rw [Function.update_self]
      rfl

/-- The task after a close of `fildes`. -/
def closedTask (t : FileTask) (fildes : Nat) : FileTask :=
  { t with
    descriptors := vecSplice t.descriptors fildes 1
    currentFd := t.currentFd - 1 }

theorem handleCall_close {w : TaskWorld} {h : Handle} {m : Nat}
    (hm : closeTarget (w.enter h.task) h.fd = some m) (n : Nat) :
    ∃ w', handleCall w h .close = some (0, w') ∧
      w'.tasks = Function.update w.tasks h.task (closedTask (w.tasks h.task) h.fd) ∧
      w'.sys.vfs.mounts = w.sys.vfs.mounts ∧ w'.sys.mem = w.sys.mem ∧
      w'.node n = if m = n then { w.node n with init := false, cursor := 0 } else w.node n := by
  have hfile : fileOf { w.enter h.task with
      task := { (w.enter h.task).task with
        descriptors := vecSplice (w.enter h.task).task.descriptors h.fd 1 } } h.fd = some m := hm
  rw [handleCall, sysClose]
  dsimp only
  rw [hfile]
  refine ⟨_, rfl, rfl, rfl, rfl, ?_⟩
  show Function.update w.sys.vfs.nodes m _ n = _
  by_cases hmn : m = n
  · subst hmn
    rw [Function.update_self, if_pos rfl]
    rfl
  · rw [Function.update_of_ne (Ne.symm hmn), if_neg hmn]
    rfl

/-- A close that returns has found a node. -/
theorem closeTarget_of_returns {w w' : TaskWorld} {h : Handle} {ret : Int}
    (hcall : handleCall w h .close = some (ret, w')) :
    ∃ m, closeTarget (w.enter h.task) h.fd = some m := by
  cases hm : closeTarget (w.enter h.task) h.fd with
  | some m => exact ⟨m, rfl⟩
  | none =>
      have hfile : fileOf { w.enter h.task with
          task := { (w.enter h.task).task with
            descriptors := vecSplice (w.enter h.task).task.descriptors h.fd 1 } } h.fd = none := hm
      rw [handleCall, sysClose] at hcall
      dsimp only at hcall
      rw [hfile] at hcall
      cases hcall

/-! ### Memory -/

theorem reload_agreeOn {G : Nat → Prop} {m m' : Mem} (h : AgreeOn G m m') {node node' : VfsNode}
    (hnode : node'.fileData = { node with init := node'.init }.fileData)
    (hG : ∀ i < toSize node.stSize, G (node.internalAddress + i)) :
    AgreeOn G (reload m node) (reload m' node') := by
  obtain ⟨-, -, hsize, haddr, hint, -⟩ := fileData_eq hnode
  have hcopy := memcpy_agreeOn h node.address node.internalAddress hG
  intro a ha
  unfold reload
  rw [hsize, haddr, hint]
  by_cases hlast : a = toSize (node.address + node.stSize - 1)
  · rw [hlast, put_same, put_same]
  · rw [put_ne hlast, put_ne hlast, hcopy a ha]

/-! ### One call in the interleaving -/

/-- Where a read copies from `G` and stores elsewhere, the bytes in the buffer
are those at the source, and `G` keeps its contents. -/
theorem memcpy_guarded {G : Nat → Prop} (m : Mem) {dest src k : Nat}
    (h : ∀ i < k, G (src + i) ∧ ¬ G (dest + i)) :
    (∀ i < k, memcpy m dest src k (dest + i) = m (src + i)) ∧ AgreeOn G m (memcpy m dest src k) := by
  have hout : ∀ a, G a → ∀ i < k, a ≠ dest + i := fun a ha i hi he => (h i hi).2 (he ▸ ha)
  refine ⟨fun i hi => memcpy_byte m dest src hi ?_, fun a ha => memcpy_outside (hout a ha)⟩
  by_contra hin
  exact hout _ (h i hi).1 (src + i - dest) (by omega) (by omega)

theorem read_guarded {G : Nat → Prop} {w : TaskWorld} {n p tmp : Nat} {h : Handle}
    {buf count : BitVec 64} (hok : HandleOk G w n p h (.read tmp buf count)) :
    ∀ i < copied buf count,
      G (((w.node n).address + (w.node n).cursor) % 2 ^ 64 + i) ∧ ¬ G (buf.toNat + i) := by
  intro i hi
  obtain ⟨hcursor, -, hrange⟩ := hok (by omega)
  rw [hcursor]
  exact hrange i hi

theorem OnTmpfs.of_node {w w' : TaskWorld} {n cursor : Nat} {init : Bool} (h : OnTmpfs w.sys n)
    (hnode : w'.node n = { w.node n with cursor := cursor, init := init })
    (hmounts : w'.sys.vfs.mounts = w.sys.vfs.mounts) : OnTmpfs w'.sys n := by
  obtain ⟨k, hk, hfs⟩ := h
  have hmount : (w'.node n).mountpoint = (w.node n).mountpoint := by rw [hnode]
  exact ⟨k, hmount.trans hk, by rw [hmounts, hfs]⟩

/-- What a call that meets the condition does to the file: only the cursor and
the flag may change, and a read would find in `G` what it found before. -/
structure KeepsFile (G : Nat → Prop) (n : Nat) (c : HandleCall) (w w' : TaskWorld) : Prop where
  node : ∃ cursor init, w'.node n = { w.node n with cursor := cursor, init := init } ∧
    (c ≠ .close → (w.node n).init = true → init = true)
  mounts : w'.sys.vfs.mounts = w.sys.vfs.mounts
  tasks : c ≠ .close → w'.tasks = w.tasks
  mem : AgreeOn G (filled w.sys.mem (w.node n)) (filled w'.sys.mem (w'.node n))

theorem handleCall_keeps {G : Nat → Prop} {w w' : TaskWorld} {n p : Nat} {h : Handle}
    {c : HandleCall} {ret : Int} (hmount : OnTmpfs w.sys n)
    (hfd : fileOf (w.enter h.task) h.fd = some n) (hok : HandleOk G w n p h c)
    (hcall : handleCall w h c = some (ret, w')) : KeepsFile G n c w w' := by
  cases c with
  | read tmp buf count =>
      obtain ⟨w₁, hread, htasks, hmounts, hmem, hnode⟩ := handleCall_read hfd hmount tmp buf count
      obtain ⟨-, rfl⟩ := Prod.mk.inj (Option.some.inj (hread.symm.trans hcall))
      refine ⟨⟨_, true, hnode, fun _ _ => rfl⟩, hmounts, fun _ => htasks, ?_⟩
      have hfilled : filled w₁.sys.mem (w₁.node n) = w₁.sys.mem := by
        rw [hnode]
        exact if_pos rfl
      rw [hfilled, hmem]
      exact (memcpy_guarded _ (read_guarded hok)).2
  | seek offset whence =>
      obtain ⟨w₁, hseek, htasks, hmounts, hmem, hnode⟩ := handleCall_seek hfd offset whence
      obtain ⟨-, rfl⟩ := Prod.mk.inj (Option.some.inj (hseek.symm.trans hcall))
      refine ⟨⟨_, _, hnode, fun _ hinit => hinit⟩, hmounts, fun _ => htasks, ?_⟩
      rw [hnode, hmem]
      exact .refl _ _
  | close =>
      obtain ⟨m, hm⟩ := closeTarget_of_returns hcall
      obtain ⟨w₁, hclose, -, hmounts, hmem, hnode⟩ := handleCall_close hm n
      obtain ⟨-, rfl⟩ := Prod.mk.inj (Option.some.inj (hclose.symm.trans hcall))
      by_cases hmn : m = n
      · rw [if_pos hmn] at hnode
        refine ⟨⟨_, _, hnode, fun hc => absurd rfl hc⟩, hmounts, fun hc => absurd rfl hc, ?_⟩
        have hfilled : filled w₁.sys.mem (w₁.node n) = reload w.sys.mem (w.node n) := by
          rw [hnode, hmem]
          exact if_neg Bool.false_ne_true
        rw [hfilled]
        exact hok (hmn ▸ hm)
      · rw [if_neg hmn] at hnode
        refine ⟨⟨_, _, hnode, fun hc => absurd rfl hc⟩, hmounts, fun hc => absurd rfl hc, ?_⟩
        rw [hnode, hmem]
        exact .refl _ _

/-! ### The simulation -/

/-- `t` is the run of descriptor `x` alone and `w` the interleaving: the file is
the same but for the cursor, which stands at `p` in the run alone, and a read
would find the same in `G`. -/
structure Alone (G : Nat → Prop) (hs : Bool → Handle) (n : Nat) (x : Bool) (w t : TaskWorld)
    (p : Nat) : Prop where
  tmpfs : OnTmpfs w.sys n
  mounts : t.sys.vfs.mounts = w.sys.vfs.mounts
  memory : FileMemory G (w.node n)
  -- only the descriptor that is closed can be behind the interleaving in reading
  node : ∃ init, t.node n = { w.node n with cursor := p, init := init } ∧
    (x = true → init = true → (w.node n).init = true)
  mem : AgreeOn G (filled t.sys.mem (t.node n)) (filled w.sys.mem (w.node n))
  tasks : x = true → t.tasks = w.tasks
  file : x = false → fileOf (t.enter (hs x).task) (hs x).fd = some n

namespace Alone

variable {G : Nat → Prop} {hs : Bool → Handle} {n p : Nat} {x : Bool} {w t w' : TaskWorld}
  {c : HandleCall} {ret : Int}

/-- A call on the other descriptor happens in the interleaving only. -/
theorem other {h : Handle} {q : Nat} (ha : Alone G hs n x w t p)
    (hfd : fileOf (w.enter h.task) h.fd = some n) (hok : HandleOk G w n q h c)
    (hcall : handleCall w h c = some (ret, w')) (hx : x = true → c ≠ .close) :
    Alone G hs n x w' t p := by
  obtain ⟨⟨cursor, init, hnode, hinit⟩, hmounts, htasks, hmem⟩ :=
    handleCall_keeps ha.tmpfs hfd hok hcall
  obtain ⟨b, hb, hbw⟩ := ha.node
  constructor
  · exact ha.tmpfs.of_node hnode hmounts
  · rw [ha.mounts, hmounts]
  · rw [hnode]
    exact ⟨ha.memory.below, ha.memory.buffer, ha.memory.archive⟩
  · refine ⟨b, by rw [hb, hnode], fun htrue hbtrue => ?_⟩
    rw [hnode]
    exact hinit (hx htrue) (hbw htrue hbtrue)
  · exact ha.mem.trans hmem
  · exact fun htrue => by rw [ha.tasks htrue, htasks (hx htrue)]
  · exact ha.file

/-- The number finds the file in the run alone too. -/
theorem finds (ha : Alone G hs n x w t p)
    (hfd : fileOf (w.enter (hs x).task) (hs x).fd = some n) :
    fileOf (t.enter (hs x).task) (hs x).fd = some n := by
  cases hx : x with
  | false => exact hx ▸ ha.file hx
  | true =>
      rw [← hx, ← hfd]
      unfold TaskWorld.enter fileOf
      rw [ha.tasks hx]

theorem tmpfs_alone (ha : Alone G hs n x w t p) : OnTmpfs t.sys n := by
  obtain ⟨b, hb, -⟩ := ha.node
  exact ha.tmpfs.of_node hb ha.mounts

theorem address_eq (ha : Alone G hs n x w t p) :
    (t.node n).address = (w.node n).address ∧ (t.node n).cursor = p := by
  obtain ⟨b, hb, -⟩ := ha.node
  rw [hb]
  exact ⟨rfl, rfl⟩

/-- The run alone of the descriptor that is closed has not read more. -/
theorem init_le (ha : Alone G hs n x w t p) (hx : x = true) (ht : (t.node n).init = true) :
    (w.node n).init = true := by
  obtain ⟨b, hb, hbw⟩ := ha.node
  rw [hb] at ht
  exact hbw hx ht

/-- A call on the descriptor itself is made in both runs: what is left to show is
that the flag, the memory and the tasks still agree. -/
theorem both {t' : TaskWorld} {cursor q : Nat} {init init' : Bool} (ha : Alone G hs n x w t p)
    (hnode : w'.node n = { w.node n with cursor := cursor, init := init })
    (hnode' : t'.node n = { t.node n with cursor := q, init := init' })
    (hmounts : w'.sys.vfs.mounts = w.sys.vfs.mounts) (hmounts' : t'.sys.vfs.mounts = t.sys.vfs.mounts)
    (hinit : x = true → init' = true → init = true)
    (hmem : AgreeOn G (filled t'.sys.mem (t'.node n)) (filled w'.sys.mem (w'.node n)))
    (htasks : x = true → t'.tasks = w'.tasks) (hfile : x = false → t'.tasks = t.tasks) :
    Alone G hs n x w' t' q := by
  obtain ⟨b, hb, -⟩ := ha.node
  constructor
  · exact ha.tmpfs.of_node hnode hmounts
  · rw [hmounts, hmounts', ha.mounts]
  · rw [hnode]
    exact ⟨ha.memory.below, ha.memory.buffer, ha.memory.archive⟩
  · refine ⟨init', by rw [hnode', hnode, hb], ?_⟩
    rw [hnode]
    exact hinit
  · exact hmem
  · exact htasks
  · intro hfalse
    rw [← ha.file hfalse]
    unfold TaskWorld.enter fileOf
    rw [hfile hfalse]

theorem read {tmp : Nat} {buf count : BitVec 64} (ha : Alone G hs n x w t p)
    (hfd : fileOf (w.enter (hs x).task) (hs x).fd = some n)
    (hok : HandleOk G w n p (hs x) (.read tmp buf count))
    (hcall : handleCall w (hs x) (.read tmp buf count) = some (ret, w')) :
    ∃ t', handleCall t (hs x) (.read tmp buf count) = some (ret, t') ∧
      (∀ i < copied buf count, t'.sys.mem (buf.toNat + i) = w'.sys.mem (buf.toNat + i)) ∧
      Alone G hs n x w' t' ((p + advance buf count) % 2 ^ 64) := by
  have hfd' := ha.finds hfd
  obtain ⟨haddr, hcursor⟩ := ha.address_eq
  obtain ⟨w₁, hread, htasks, hmounts, hmem, hnode⟩ := handleCall_read hfd ha.tmpfs tmp buf count
  obtain ⟨t₁, hread', htasks', hmounts', hmem', hnode'⟩ :=
    handleCall_read hfd' ha.tmpfs_alone tmp buf count
  obtain ⟨rfl, rfl⟩ := Prod.mk.inj (Option.some.inj (hread.symm.trans hcall))
  -- a call that copies no bytes does not depend on the position
  have hw : ∀ i < copied buf count,
      G (((w.node n).address + p) % 2 ^ 64 + i) ∧ ¬ G (buf.toNat + i) :=
    fun i hi => (hok (by omega)).2.2 i hi
  have hsrc : 0 < copied buf count → (w.node n).cursor = p := fun hpos => (hok hpos).1
  have hmemw : w₁.sys.mem = memcpy (filled w.sys.mem (w.node n)) buf.toNat
      (((w.node n).address + p) % 2 ^ 64) (copied buf count) := by
    rw [hmem]
    rcases Nat.eq_zero_or_pos (copied buf count) with hzero | hpos
    · rw [hzero]
      rfl
    · rw [hsrc hpos]
  rw [haddr, hcursor] at hmem'
  rw [hcursor] at hnode'
  obtain ⟨hbytes, hkeep⟩ := memcpy_guarded (filled w.sys.mem (w.node n)) hw
  obtain ⟨hbytes', hkeep'⟩ := memcpy_guarded (filled t.sys.mem (t.node n)) hw
  refine ⟨t₁, hread', fun i hi => ?_, ?_⟩
  · rw [hmemw, hmem', hbytes i hi, hbytes' i hi, ha.mem _ (hw i hi).1]
  · refine ha.both hnode hnode' hmounts hmounts' (fun _ _ => rfl) ?_
      (fun htrue => by rw [htasks, htasks', ha.tasks htrue]) fun _ => htasks'
    have hfilled : filled w₁.sys.mem (w₁.node n) = w₁.sys.mem := by
      rw [hnode]
      exact if_pos rfl
    have hfilled' : filled t₁.sys.mem (t₁.node n) = t₁.sys.mem := by
      rw [hnode']
      exact if_pos rfl
    rw [hfilled, hfilled', hmemw, hmem']
    intro a hGa
    rw [hkeep a hGa, hkeep' a hGa, ha.mem a hGa]

theorem seekBase_own {node : VfsNode} {q : Nat} {offset whence : Int}
    (h : whence = SEEK_CUR → node.cursor = q) :
    seekBase { node with cursor := q } offset whence = seekBase node offset whence := by
  unfold seekBase
  split_ifs with _ hcur
  · rfl
  · rw [h hcur]
  · rfl
  · rfl

theorem seek {offset : BitVec 64} {whence : BitVec 32} (ha : Alone G hs n x w t p)
    (hfd : fileOf (w.enter (hs x).task) (hs x).fd = some n)
    (hok : HandleOk G w n p (hs x) (.seek offset whence))
    (hcall : handleCall w (hs x) (.seek offset whence) = some (ret, w')) :
    ∃ t', handleCall t (hs x) (.seek offset whence) = some (ret, t') ∧
      Alone G hs n x w' t'
        ((seekBase { w.node n with cursor := p } offset.toInt whence.toInt).elim p toSize) := by
  obtain ⟨b, hb, -⟩ := ha.node
  obtain ⟨w₁, hseek, htasks, hmounts, hmem, hnode⟩ := handleCall_seek hfd offset whence
  obtain ⟨t₁, hseek', htasks', hmounts', hmem', hnode'⟩ :=
    handleCall_seek (ha.finds hfd) offset whence
  obtain ⟨rfl, rfl⟩ := Prod.mk.inj (Option.some.inj (hseek.symm.trans hcall))
  have hbase : seekBase { w.node n with cursor := p } offset.toInt whence.toInt
      = seekBase (w.node n) offset.toInt whence.toInt := seekBase_own hok
  have hbase' : seekBase (t.node n) offset.toInt whence.toInt
      = seekBase (w.node n) offset.toInt whence.toInt := by
    rw [← hbase, hb]
    rfl
  rw [hbase'] at hseek'
  rw [hbase', ha.address_eq.2] at hnode'
  refine ⟨t₁, hseek', ?_⟩
  rw [hbase]
  refine ha.both hnode hnode' hmounts hmounts' ha.init_le ?_
    (fun htrue => by rw [htasks, htasks', ha.tasks htrue]) fun _ => htasks'
  rw [hnode, hnode', hmem, hmem']
  exact ha.mem

/-- Filled again from the archive, the file is the same in both runs. -/
theorem reload_mem (ha : Alone G hs n x w t p) (hx : x = true)
    (hm : closeTarget (w.enter (hs x).task) (hs x).fd = some n)
    (hok : HandleOk G w n p (hs x) .close) :
    AgreeOn G (reload t.sys.mem (t.node n)) (reload w.sys.mem (w.node n)) := by
  obtain ⟨b, hb, -⟩ := ha.node
  cases hinit : (t.node n).init with
  | false =>
      -- the run alone has not read the file: it would be filled now as well
      have hfilled : filled t.sys.mem (t.node n) = reload t.sys.mem (t.node n) := by
        rw [filled, hinit]
        exact if_neg Bool.false_ne_true
      rw [← hfilled]
      exact ha.mem.trans (hok hm)
  | true =>
      have hwinit := ha.init_le hx hinit
      have hagree : AgreeOn G t.sys.mem w.sys.mem := by
        have h := ha.mem
        rw [filled, filled, if_pos hinit, if_pos hwinit] at h
        exact h
      refine reload_agreeOn hagree ?_ ?_
      · rw [hb]
        rfl
      · rw [hb]
        exact ha.memory.archive

/-- A close: the file is filled again at the next read, in both runs from the
same archive. -/
theorem close (ha : Alone G hs n x w t p) (hx : x = true)
    (hok : HandleOk G w n p (hs x) .close) (hcall : handleCall w (hs x) .close = some (ret, w')) :
    ∃ t', handleCall t (hs x) .close = some (ret, t') ∧
      Alone G hs n x w' t' (if closeTarget (w.enter (hs x).task) (hs x).fd = some n then 0 else p) := by
  obtain ⟨m, hm⟩ := closeTarget_of_returns hcall
  have hm' : closeTarget (t.enter (hs x).task) (hs x).fd = some m := by
    rw [← hm]
    unfold TaskWorld.enter closeTarget fileOf
    rw [ha.tasks hx]
  obtain ⟨w₁, hclose, htasks, hmounts, hmem, hnode⟩ := handleCall_close hm n
  obtain ⟨t₁, hclose', htasks', hmounts', hmem', hnode'⟩ := handleCall_close hm' n
  obtain ⟨rfl, rfl⟩ := Prod.mk.inj (Option.some.inj (hclose.symm.trans hcall))
  have htasks₁ : t₁.tasks = w₁.tasks := by rw [htasks, htasks', ha.tasks hx]
  have hclosed : x = false → t₁.tasks = t.tasks := fun hfalse =>
    absurd (hfalse.symm.trans hx) Bool.false_ne_true
  refine ⟨t₁, hclose', ?_⟩
  by_cases hmn : m = n
  · subst hmn
    rw [if_pos rfl] at hnode hnode'
    rw [if_pos hm]
    refine ha.both hnode hnode' hmounts hmounts' (fun _ h => absurd h Bool.false_ne_true) ?_
      (fun _ => htasks₁) hclosed
    have hw : filled w₁.sys.mem (w₁.node m) = reload w.sys.mem (w.node m) := by
      rw [hnode, hmem]
      exact if_neg Bool.false_ne_true
    have ht : filled t₁.sys.mem (t₁.node m) = reload t.sys.mem (t.node m) := by
      rw [hnode', hmem']
      exact if_neg Bool.false_ne_true
    rw [hw, ht]
    exact ha.reload_mem hx hm hok
  · rw [if_neg hmn] at hnode hnode'
    have hne : closeTarget (w.enter (hs x).task) (hs x).fd ≠ some n := by
      rw [hm]
      exact fun h => hmn (Option.some.inj h)
    rw [if_neg hne]
    rw [← ha.address_eq.2]
    refine ha.both hnode hnode' hmounts hmounts' ha.init_le ?_ (fun _ => htasks₁) hclosed
    rw [hnode, hnode', hmem, hmem']
    exact ha.mem

/-- **A call on the descriptor itself** is observed alike in the interleaving and
alone. -/
theorem own (ha : Alone G hs n x w t p) (hfd : fileOf (w.enter (hs x).task) (hs x).fd = some n)
    (hok : HandleOk G w n p (hs x) c) (hcall : handleCall w (hs x) c = some (ret, w'))
    (hx : c = .close → x = true) :
    ∃ t', handleCall t (hs x) c = some (ret, t') ∧
      observe c ret t'.sys.mem = observe c ret w'.sys.mem ∧
      Alone G hs n x w' t' (ownNext w n (hs x) p c) := by
  cases c with
  | read tmp buf count =>
      obtain ⟨t', hread, hbytes, ha'⟩ := ha.read hfd hok hcall
      refine ⟨t', hread, ?_, ha'⟩
      unfold observe
      congr 1
      exact List.map_congr_left fun i hi => hbytes i (List.mem_range.mp hi)
  | seek offset whence =>
      obtain ⟨t', hseek, ha'⟩ := ha.seek hfd hok hcall
      exact ⟨t', hseek, rfl, ha'⟩
  | close =>
      obtain ⟨t', hclose, ha'⟩ := ha.close (hx rfl) hok hcall
      exact ⟨t', hclose, rfl, ha'⟩

end Alone

/-- The run alone observes what the interleaving shows of it. -/
theorem Alone.observations {G : Nat → Prop} {hs : Bool → Handle} {n : Nat} {x : Bool}
    {calls : List (Bool × HandleCall)} {w t : TaskWorld} {own : Bool → Nat}
    {obs : List (Bool × Observation)} (ha : Alone G hs n x w t (own x))
    (hpairs : PairsOk G hs n w own calls) (hclose : ∀ c ∈ calls, c.2 = .close → c.1 = true)
    (hobs : BestOS.observations hs w calls = some obs) :
    BestOS.observations hs t (calls.filter fun c => c.1 = x)
      = some (obs.filter fun o => o.1 = x) := by
  induction calls generalizing w t own obs with
  | nil =>
      obtain rfl := Option.some.inj hobs
      rfl
  | cons call calls ih =>
      obtain ⟨y, c⟩ := call
      obtain ⟨hfd, hok, hrest⟩ := hpairs
      rw [BestOS.observations, Option.bind_eq_some_iff] at hobs
      obtain ⟨⟨ret, w'⟩, hcall, hobs⟩ := hobs
      obtain ⟨obs', hobs', rfl⟩ := Option.map_eq_some_iff.mp hobs
      have hpairs' := hrest ret w' hcall
      have hclose' : ∀ c ∈ calls, c.2 = .close → c.1 = true :=
        fun c hc => hclose c (List.mem_cons_of_mem _ hc)
      by_cases hyx : y = x
      · subst hyx
        obtain ⟨t', hcall', hsame, ha'⟩ := ha.own hfd hok hcall (hclose _ List.mem_cons_self)
        have hown : Alone G hs n y w' t'
            (Function.update own y (ownNext w n (hs y) (own y) c) y) := by
          rw [Function.update_self]
          exact ha'
        rw [List.filter_cons_of_pos (by simp), List.filter_cons_of_pos (by simp),
          BestOS.observations, hcall', Option.bind_some, ih hown hpairs' hclose' hobs',
          Option.map_some, hsame]
      · -- the run alone does not make this call
        have ha' := ha.other hfd hok hcall fun htrue hc =>
          hyx ((hclose _ List.mem_cons_self hc).trans htrue.symm)
        have hown : Alone G hs n x w' t
            (Function.update own y (ownNext w n (hs y) (own y) c) x) := by
          rw [Function.update_of_ne (Ne.symm hyx)]
          exact ha'
        rw [List.filter_cons_of_neg (by simpa using hyx), List.filter_cons_of_neg (by simpa using hyx),
          ih hown hpairs' hclose' hobs']

/-- **When descriptors are independent.**  For two descriptors of one tmpfs file
and every interleaving of reads, seeks and closes on the one with reads and seeks
on the other: if each call finds the shared cursor where its own descriptor's
calls have led to, each descriptor observes what it would alone. -/
theorem descriptors_independent {G : Nat → Prop} {hs : Bool → Handle} {n : Nat} {w : TaskWorld}
    {calls : List (Bool × HandleCall)} (hmount : OnTmpfs w.sys n)
    (hfile : ∀ x, fileOf (w.enter (hs x).task) (hs x).fd = some n)
    (hG : FileMemory G (w.node n))
    (hclose : ∀ c ∈ calls, c.2 = .close → c.1 = true)
    (hpairs : PairsOk G hs n w (fun _ => (w.node n).cursor) calls) : Independent hs w calls := by
  intro obs hobs x
  refine Alone.observations ?_ hpairs hclose hobs
  constructor
  · exact hmount
  · rfl
  · exact hG
  · exact ⟨(w.node n).init, rfl, fun _ h => h⟩
  · exact .refl _ _
  · exact fun _ => rfl
  · exact fun _ => hfile x

/-! ### One file, opened twice -/

/-- `oneFile` after it opened `/a` again. -/
def openedTwice : TaskWorld where
  sys := ((sysOpenat 0 true oneFile AT_FDCWD ['/', 'a'] 0).getD (0, newTask)).2
  tasks := fun _ => ((sysOpenat 0 true oneFile AT_FDCWD ['/', 'a'] 0).getD (0, newTask)).2.task

/-- The two descriptors of `/a`. -/
def bothEnds (x : Bool) : Handle := ⟨0, if x then 0 else 1⟩

/-- Each descriptor seeks before it reads, and then the first one is closed. -/
def politeCalls : List (Bool × HandleCall) :=
  [(true, .read 0 0x3000 1), (false, .seek 1 3), (false, .read 0 0x3000 1), (true, .seek 0 3),
    (true, .close)]

theorem descriptors_independent_polite : Independent bothEnds openedTwice politeCalls := by
  have hread : ∀ (w : TaskWorld) (p : Nat) (h : Handle), (w.node 1).cursor = p → p < 2 →
      (w.node 1).address = 0x1000 →
      HandleOk (fun a => 0x1000 ≤ a ∧ a < 0x1002) w 1 p h (.read 0 0x3000 1) := by
    intro w p h hcursor hp haddr _
    refine ⟨hcursor, by decide, fun i hi => ?_⟩
    have hone : copied 0x3000 1 = 1 := rfl
    have hbuf : (0x3000 : BitVec 64).toNat = 0x3000 := rfl
    rw [haddr, hbuf]
    omega
  refine descriptors_independent (n := 1) (G := fun a => 0x1000 ≤ a ∧ a < 0x1002)
    ⟨0, rfl, rfl⟩ (fun x => by cases x <;> rfl)
    ⟨fun a ha => by omega, by decide, fun i hi => absurd hi (Nat.not_lt_zero i)⟩
    (by simp [politeCalls]) ?_
  refine ⟨rfl, hread _ _ _ rfl (by decide) rfl, fun ret w₁ h => ?_⟩
  obtain ⟨-, rfl⟩ := Prod.mk.inj (Option.some.inj h)
  refine ⟨rfl, fun hc => absurd hc (by decide), fun ret w₂ h => ?_⟩
  obtain ⟨-, rfl⟩ := Prod.mk.inj (Option.some.inj h)
  refine ⟨rfl, hread _ _ _ rfl (by decide) rfl, fun ret w₃ h => ?_⟩
  obtain ⟨-, rfl⟩ := Prod.mk.inj (Option.some.inj h)
  refine ⟨rfl, fun hc => absurd hc (by decide), fun ret w₄ h => ?_⟩
  obtain ⟨-, rfl⟩ := Prod.mk.inj (Option.some.inj h)
  refine ⟨rfl, fun _ a ha => ?_, fun ret w₅ h => trivial⟩
  -- the file is empty: filling it again stores in front of the buffer only
  exact put_ne (show a ≠ 0xFFF by omega)

/-- **A seek on one descriptor moves the other.**  `/a` is open twice; the first
descriptor seeks to 5, and the second one, which asks where it is, gets 5. -/
theorem seek_moves_both :
    ¬ ∀ (s₀ s₁ s₂ : SysState) (buf₁ buf₂ : Nat) (path : CString) (mode₁ mode₂ : Nat) (k₁ k₂ n : Nat)
      (calls : List (Bool × HandleCall)),
      sysOpenat buf₁ true s₀ AT_FDCWD path mode₁ = some ((k₁ : Int), s₁) →
      sysOpenat buf₂ true s₁ AT_FDCWD path mode₂ = some ((k₂ : Int), s₂) →
      fileOf s₂ k₁ = some n → fileOf s₂ k₂ = some n → OnTmpfs s₂ n →
      (∀ c ∈ calls, c.2 = .close → c.1 = true) →
      Independent (fun x => ⟨0, if x then k₁ else k₂⟩) ⟨s₂, fun _ => s₂.task⟩ calls := by
  intro hclaim
  have hind := hclaim newTask oneFile openedTwice.sys 0x1000 0 ['/', 'a'] O_CREAT 0 0 1 1
    [(true, .seek 5 3), (false, .seek 0 1)] rfl rfl rfl rfl ⟨0, rfl, rfl⟩ (by simp)
    [(true, ⟨5, []⟩), (false, ⟨5, []⟩)] rfl false
  have hret : (observations bothEnds openedTwice [(false, .seek 0 1)]).map
      (fun obs => obs.map fun o => o.2.ret) = some [0] := rfl
  rw [show observations bothEnds openedTwice [(false, .seek 0 1)]
    = some [(false, ⟨5, []⟩)] from hind] at hret
  exact absurd hret (by decide)

end BestOS
