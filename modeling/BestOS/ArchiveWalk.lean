/-
BestOS/ArchiveWalk.lean

The walk of `create_tmpfs_files` over an archive in memory.

`archiveWalk` is `createLoop` with a record of what it does: the bytes of headers it reads, the
data ranges it records for files, and the headers it is done with, each with the size that
`getsize` made of its field.  `result_archiveWalk` says that nothing but the record was added.

From one header to the next the arithmetic is right: an entry of any size below 2^32 takes
the blocks that `nextAddress` skips.  What can end the walk early is the entry itself.  The
parent of a file is dereferenced without a check, which `vfs_mkdir` has, so the walk comes
to the end of an archive exactly where every parent is found (`archive_walk_iff`).

And nobody tells the walk where the module ends: it goes on to wherever a size field leads,
until it finds a zero.  `StopsInside` is what the module has to hold for that to happen in
time (`walk_stays_iff`).
-/
import BestOS.UstarTree
import BestOS.AccessLog

namespace BestOS

open ByteMemory AccessLog

/-! ### The walk with its record -/

/-- What the walk does with memory: `start` and `size` of the bytes of a header it reads, and
of the range it records for a file; and the headers it is done with. -/
inductive WalkEvent
  | bytes (start size : Nat)
  | data (start size : Nat)
  | header (a size : Nat)
  deriving DecidableEq

/-- A round at a header with a name. -/
def walkRound (h : UstarHeap) (m : Mem) (i a : Nat) (v : Vfs) : Traced WalkEvent Vfs := do
  access (.bytes (a + 156) 1)
  -- the name with its NUL
  access (.bytes a ((headerName m a).length + 1))
  if headerType m a = 0x35#8 then
    let v ← silent (createEntry h m i a v)
    access (.bytes (a + 124) 11)
    access (.header a (headerGetsize m a))
    pure v
  else
    -- the size is an argument of the call
    access (.bytes (a + 124) 11)
    let v ← silent (createEntry h m i a v)
    access (.data ((a + 512) % 2 ^ 64) (headerGetsize m a))
    access (.bytes (a + 124) 11)
    access (.header a (headerGetsize m a))
    pure v

/-- `createLoop` with its record; it returns the address it ends at, too. -/
def archiveWalk (h : UstarHeap) (m : Mem) : Nat → Nat → Nat → Vfs → Traced WalkEvent (Nat × Vfs)
  | 0, _, _, _ => silent none
  | fuel + 1, i, a, v => do
    access (.bytes a 1)
    if m a = 0 then pure (a, v)
    else do
      let v ← walkRound h m i a v
      archiveWalk h m fuel (i + 1) (nextAddress a (headerGetsize m a)) v

/-- The headers the walk is done with, and what their sizes were taken for. -/
def visited (x : Traced WalkEvent (Nat × Vfs)) : List (Nat × Nat) :=
  seen (fun | .header a size => some (a, size) | _ => none) x

theorem result_walkRound (h : UstarHeap) (m : Mem) (i a : Nat) (v : Vfs) :
    (walkRound h m i a v).result = createEntry h m i a v := by
  unfold walkRound
  simp only [result_bind, result_access, Option.bind_some]
  split <;> simp

/-- The record is all that was added. -/
theorem result_archiveWalk (h : UstarHeap) (m : Mem) (fuel i a : Nat) (v : Vfs) :
    (archiveWalk h m fuel i a v).result.map Prod.snd = createLoop h m fuel i a v := by
  induction fuel generalizing i a v with
  | zero => rfl
  | succ fuel ih =>
    rw [archiveWalk, createLoop, result_bind, result_access, Option.bind_some]
    split
    · rfl
    · rw [result_bind, result_walkRound, Option.map_bind]
      exact Option.bind_congr fun v' _ => ih _ _ v'

/-! ### Entries that cannot be made -/

/-- The entry at `a` makes the kernel follow NULL: the lookup of its parent does; or there
is no parent for a file; or a parent for a directory, but no root. -/
def CreateFails (h : UstarHeap) (m : Mem) (i a : Nat) (v : Vfs) : Prop :=
  if headerType m a = 0x35#8 then
    let path := newName h i (headerName m a).dropLast
    let found := parentFromRoot (newNode v emptyDir).2 path
    ¬ strEq path ['/'] ∧ (found = none ∨ (∃ p, found = some (some p)) ∧ v.root = none)
  else
    let path := newName h i (headerName m a)
    ∀ p, parentFromRoot (newNode v (namedFile (basename path))).2 path ≠ some (some p)

theorem vfsMkdir_eq_none_iff (v : Vfs) (path : CString) :
    vfsMkdir v path = none ↔ ¬ strEq path ['/'] ∧
      (parentFromRoot (newNode v emptyDir).2 path = none ∨
        (∃ p, parentFromRoot (newNode v emptyDir).2 path = some (some p)) ∧ v.root = none) := by
  unfold vfsMkdir parentFromRoot
  dsimp only
  split
  · next hroot => simp [hroot]
  · next hroot =>
    cases hg : vfsGetParent (newNode v emptyDir).2 (newNode v emptyDir).2.root path with
    | none => simp [hroot]
    | some q =>
      obtain ⟨res, v'⟩ := q
      obtain ⟨e, t, rfl⟩ := vfsGetParent_vfs hg
      -- the lookup does not move the root
      have hsame : ∀ f, (setNode { (newNode v emptyDir).2 with errno := e, strtok := t }
          (newNode v emptyDir).1 f).root = v.root := fun _ => rfl
      cases res with
      | none => simp [hroot]
      | some parent =>
        dsimp only
        rw [hsame]
        cases v.root <;> simp [hroot]

theorem tmpfsCreateFile_eq_none_iff (buffer : Nat) (v : Vfs) (path : CString) (address size : Nat) :
    tmpfsCreateFile buffer v path address size = none ↔
      ∀ p, parentFromRoot (newNode v (namedFile (basename path))).2 path ≠ some (some p) := by
  unfold tmpfsCreateFile parentFromRoot
  dsimp only
  cases vfsGetParent (newNode v (namedFile (basename path))).2
      (newNode v (namedFile (basename path))).2.root path with
  | none => simp
  | some q =>
    obtain ⟨res, v'⟩ := q
    cases res <;> simp

theorem createEntry_eq_none_iff (h : UstarHeap) (m : Mem) (i a : Nat) (v : Vfs) :
    createEntry h m i a v = none ↔ CreateFails h m i a v := by
  unfold createEntry CreateFails
  split
  · rw [Option.map_eq_none_iff]
    exact vfsMkdir_eq_none_iff v _
  · exact tmpfsCreateFile_eq_none_iff _ v _ _ _

theorem createEntry_isSome {h : UstarHeap} {m : Mem} {i a : Nat} {v : Vfs}
    (hc : ¬ CreateFails h m i a v) : ∃ v', createEntry h m i a v = some v' :=
  Option.ne_none_iff_exists'.mp (mt (createEntry_eq_none_iff h m i a v).mp hc)

/-! ### Archives with any entries -/

/-- Entries of these sizes, one behind the other from `a` on, and a zero behind the last:
each has a name and its size in eleven octal digits. -/
inductive LaidOut (m : Mem) : Nat → List Nat → Prop
  | stop {a} : m a = 0 → LaidOut m a []
  | entry {a size sizes} : m a ≠ 0 → (∀ j < 11, OctalDigit (m (a + 124 + j))) →
      octal m (a + 124) 11 = size → size < 2 ^ 32 → a + 512 * blocksFor size < 2 ^ 64 →
      LaidOut m (a + 512 * blocksFor size) sizes → LaidOut m a (size :: sizes)

/-- The headers of such an archive, with their sizes. -/
def headersFrom (a : Nat) : List Nat → List (Nat × Nat)
  | [] => []
  | size :: sizes => (a, size) :: headersFrom (a + 512 * blocksFor size) sizes

/-- Where the block behind the last entry is. -/
def archiveEnd (a : Nat) : List Nat → Nat
  | [] => a
  | size :: sizes => archiveEnd (a + 512 * blocksFor size) sizes

/-- The walk is done with the headers of the archive, each once and in order, takes their
sizes for what they are, and ends at the zero. -/
def WalksArchive (h : UstarHeap) (m : Mem) (i a : Nat) (v : Vfs) (sizes : List Nat) : Prop :=
  ∃ rounds v', ∀ fuel, rounds ≤ fuel →
    (archiveWalk h m fuel i a v).result = some (archiveEnd a sizes, v') ∧
      visited (archiveWalk h m fuel i a v) = headersFrom a sizes

/-- In the tree built so far, no entry makes the kernel follow NULL. -/
def EntriesCreated (h : UstarHeap) (m : Mem) : Nat → Nat → Vfs → List Nat → Prop
  | _, _, _, [] => True
  | i, a, v, size :: sizes =>
    ¬ CreateFails h m i a v ∧ ∀ v', createEntry h m i a v = some v' →
      EntriesCreated h m (i + 1) (a + 512 * blocksFor size) v' sizes

section

variable {h : UstarHeap} {m : Mem} {i a size : Nat} {v : Vfs}

/-- A round at a header with a name. -/
theorem archiveWalk_entry (fuel : Nat) (hne : m a ≠ 0) (hsize : headerGetsize m a = size)
    (hend : a + 512 * blocksFor size < 2 ^ 64) :
    (archiveWalk h m (fuel + 1) i a v).result = (createEntry h m i a v).bind (fun v' =>
        (archiveWalk h m fuel (i + 1) (a + 512 * blocksFor size) v').result) ∧
      visited (archiveWalk h m (fuel + 1) i a v) = (createEntry h m i a v).elim [] fun v' =>
        (a, size) :: visited (archiveWalk h m fuel (i + 1) (a + 512 * blocksFor size) v') := by
  have hnext : nextAddress a (headerGetsize m a) = a + 512 * blocksFor size := by
    rw [hsize]
    exact nextAddress_blocks hend
  rw [archiveWalk, if_neg hne, hnext]
  constructor
  · rw [result_bind, result_access, Option.bind_some, result_bind, result_walkRound]
  · unfold visited
    rw [seen_bind, seen_bind, result_access, result_walkRound]
    unfold walkRound
    cases hc : createEntry h m i a v with
    | none => split <;> simp
    | some v' => split <;> simp [hsize]

theorem archiveWalk_stop (fuel : Nat) (hzero : m a = 0) :
    (archiveWalk h m (fuel + 1) i a v).result = some (a, v) ∧ visited (archiveWalk h m (fuel + 1) i a v) = [] := by
  rw [archiveWalk, if_pos hzero]
  exact ⟨rfl, rfl⟩

end

/-- **The walk over an archive.**  For every list of entries and every tree, the walk visits
the headers of the entries, each once and in order, decodes their sizes and ends at the zero
block, if and only if no entry makes the kernel follow NULL. -/
theorem archive_walk_iff {h : UstarHeap} {m : Mem} {i a : Nat} {v : Vfs} {sizes : List Nat}
    (hl : LaidOut m a sizes) : WalksArchive h m i a v sizes ↔ EntriesCreated h m i a v sizes := by
  induction hl generalizing i v with
  | stop hzero =>
    refine iff_of_true ⟨1, v, fun fuel hfuel => ?_⟩ trivial
    obtain ⟨fuel, rfl⟩ : ∃ k, fuel = k + 1 := ⟨fuel - 1, by omega⟩
    exact archiveWalk_stop fuel hzero
  | @entry a size sizes hne hdigits hoctal hsize hend _ ih =>
    have hfield : headerGetsize m a = size := by
      unfold headerGetsize
      rw [getsize_eq hdigits, hoctal, Nat.mod_eq_of_lt hsize]
    have hround := fun fuel => archiveWalk_entry (h := h) (i := i) (v := v) fuel hne hfield hend
    constructor
    · rintro ⟨rounds, v', hw⟩
      -- the first round has returned
      have hfirst := (hw (rounds + 1) (Nat.le_succ _)).1
      rw [(hround rounds).1] at hfirst
      obtain ⟨v₁, hc, -⟩ := Option.bind_eq_some_iff.mp hfirst
      refine ⟨fun hfails => ?_, fun v₂ hc₂ => ih.mp ⟨rounds, v', fun fuel hfuel => ?_⟩⟩
      · rw [(createEntry_eq_none_iff h m i a v).mpr hfails] at hc
        cases hc
      · obtain ⟨hres, hvis⟩ := hw (fuel + 1) (by omega)
        rw [(hround fuel).1, hc₂] at hres
        rw [(hround fuel).2, hc₂] at hvis
        exact ⟨hres, (List.cons.inj hvis).2⟩
    · rintro ⟨hcreate, hrest⟩
      obtain ⟨v₁, hc⟩ := createEntry_isSome hcreate
      obtain ⟨rounds, v', hw⟩ := ih.mpr (hrest v₁ hc)
      refine ⟨rounds + 1, v', fun fuel hfuel => ?_⟩
      obtain ⟨fuel, rfl⟩ : ∃ k, fuel = k + 1 := ⟨fuel - 1, by omega⟩
      obtain ⟨hres, hvis⟩ := hw fuel (by omega)
      rw [(hround fuel).1, (hround fuel).2, hc]
      exact ⟨hres, congrArg (List.cons (a, size)) hvis⟩

/-- No string behind the names, and no buffers. -/
def plainHeap : UstarHeap := ⟨fun _ => [], fun _ => 0⟩

theorem tinyTar_laidOut : LaidOut tinyTar 0x1000 [0, 3] :=
  .entry (by decide +kernel) (by decide +kernel) (by decide +kernel) (by decide) (by decide)
    (.entry (by decide +kernel) (by decide +kernel) (by decide +kernel) (by decide) (by decide)
      (.stop (by decide +kernel)))

/-- A directory and a file in it. -/
theorem archive_walk_tiny : WalksArchive plainHeap tinyTar 0 0x1000 tinyRoot [0, 3] := by
  have hboth : ((createEntry plainHeap tinyTar 0 0x1000 tinyRoot).bind
      (createEntry plainHeap tinyTar 1 0x1200)).isSome := by
    decide +kernel
  obtain ⟨v₂, hv₂⟩ := Option.isSome_iff_exists.mp hboth
  obtain ⟨v₁, hdir, hfile⟩ := Option.bind_eq_some_iff.mp hv₂
  have hcreated : ∀ i a v v', createEntry plainHeap tinyTar i a v = some v' →
      ¬ CreateFails plainHeap tinyTar i a v := by
    intro i a v v' hc hfails
    rw [(createEntry_eq_none_iff _ _ _ _ _).mpr hfails] at hc
    cases hc
  refine (archive_walk_iff tinyTar_laidOut).mpr ⟨hcreated _ _ _ _ hdir, fun v' hv' => ?_⟩
  obtain rfl := Option.some.inj (hdir.symm.trans hv')
  exact ⟨hcreated _ _ _ _ hfile, fun _ _ => trivial⟩

/-- An archive of a file `d/a` without its directory. -/
def orphanTar : Mem :=
  putHeader (fun _ => 0) 0x1000 ['d', '/', 'a'] (List.replicate 11 '0') '0'

theorem orphanTar_laidOut : LaidOut orphanTar 0x1000 [0] :=
  .entry (by decide +kernel) (by decide +kernel) (by decide +kernel) (by decide) (by decide)
    (.stop (by decide +kernel))

/-- **A file without its directory ends the walk**: its parent is dereferenced. -/
theorem orphan_ends_walk :
    ¬ ∀ (h : UstarHeap) (m : Mem) (a : Nat) (v : Vfs) (sizes : List Nat),
      LaidOut m a sizes → WalksArchive h m 0 a v sizes := by
  intro hclaim
  obtain ⟨rounds, v', hw⟩ := hclaim plainHeap orphanTar 0x1000 tinyRoot [0] orphanTar_laidOut
  have hnone : (createEntry plainHeap orphanTar 0 0x1000 tinyRoot).isNone := by
    decide +kernel
  have hres := (hw (rounds + 1) (Nat.le_succ _)).1
  have hfield : headerGetsize orphanTar 0x1000 = 0 := by
    decide +kernel
  rw [(archiveWalk_entry rounds (by decide +kernel) hfield (by decide)).1,
    Option.isNone_iff_eq_none.mp hnone] at hres
  cases hres

/-! ### The module -/

/-- Where a module was loaded, `[begin, end)`.  No entry reaches from there around the end of
the address space. -/
structure BootModule where
  start : Nat
  stop : Nat
  le : start ≤ stop
  fits : stop + 2 ^ 33 ≤ 2 ^ 64

/-- The test of `kernel_main`. -/
def Recognised (m : Mem) (M : BootModule) : Prop :=
  strEq ['u', 's', 't', 'a', 'r', ' ', ' '] (cString m (M.start + 257) maxString)

/-- What is read or recorded lies in the module. -/
def BootModule.Contains (M : BootModule) : WalkEvent → Prop
  | .bytes start size => ∀ x, start ≤ x → x < start + size → M.start ≤ x ∧ x < M.stop
  | .data start size => ∀ x, start ≤ x → x < start + size → M.start ≤ x ∧ x < M.stop
  | .header _ _ => True

/-- The walk from `a` on ends before the module does: from header to header it comes to a zero,
or to an entry that makes the kernel follow NULL and has its type and a NUL in the module. -/
inductive StopsInside (M : BootModule) (h : UstarHeap) (m : Mem) : Nat → Nat → Vfs → Prop
  | zero {i a v} : a < M.stop → m a = 0 → StopsInside M h m i a v
  | fault {i a v} : m a ≠ 0 → a + 156 < M.stop → (∃ b, a ≤ b ∧ b < M.stop ∧ m b = 0) →
      CreateFails h m i a v → StopsInside M h m i a v
  | next {i a v v'} : m a ≠ 0 → createEntry h m i a v = some v' →
      StopsInside M h m (i + 1) (a + 512 * blocksFor (headerGetsize m a)) v' →
      StopsInside M h m i a v

/-! ### Names -/

/-- A string that ends before the limit ends in a NUL. -/
theorem cString_nul {m : Mem} {a limit : Nat} (h : (cString m a limit).length < limit) :
    m (a + (cString m a limit).length) = 0 := by
  induction limit generalizing a with
  | zero => exact absurd h (Nat.not_lt_zero _)
  | succ limit ih =>
    rw [cString] at h ⊢
    split
    · next hzero => exact hzero
    · next hne =>
      rw [if_neg hne] at h
      have hrest := ih (a := a + 1) (Nat.lt_of_succ_lt_succ h)
      rwa [Nat.add_right_comm, Nat.add_assoc] at hrest

/-- And it does not reach past one. -/
theorem cString_length_le {m : Mem} {a b : Nat} (hab : a ≤ b) (hzero : m b = 0) (limit : Nat) :
    (cString m a limit).length ≤ b - a := by
  induction limit generalizing a with
  | zero => exact Nat.zero_le _
  | succ limit ih =>
    rw [cString]
    split
    · exact Nat.zero_le _
    · next hne =>
      have hlt : a ≠ b := fun heq => hne (heq ▸ hzero)
      have hrest := ih (a := a + 1) (by omega)
      rw [List.length_cons]
      omega

/-! ### Staying in the module -/

section

variable {M : BootModule} {h : UstarHeap} {m : Mem} {i a : Nat} {v : Vfs}

theorem contains_bytes {start size : Nat} (hpos : 0 < size) :
    M.Contains (.bytes start size) ↔ M.start ≤ start ∧ start + size ≤ M.stop := by
  constructor
  · intro hin
    have hfirst := hin start (Nat.le_refl _) (by omega)
    have hlast := hin (start + size - 1) (by omega) (by omega)
    omega
  · intro hin x h1 h2
    omega

/-- What a round asks of the module, beside that it begins inside. -/
theorem within_walkRound (ha : M.start ≤ a) :
    Within M.Contains (walkRound h m i a v) ↔
      a + 156 < M.stop ∧ a + (headerName m a).length < M.stop ∧
        (headerType m a ≠ 0x35#8 → ∀ v', createEntry h m i a v = some v' →
          M.Contains (.data ((a + 512) % 2 ^ 64) (headerGetsize m a))) := by
  unfold walkRound
  simp only [within_bind, within_access, result_access, forall_const, contains_bytes (Nat.succ_pos _)]
  have hheader : M.Contains (.header a (headerGetsize m a)) := trivial
  split
  · next hdir =>
    simp only [within_bind, within_access, within_silent, within_pure, result_silent, result_access,
      contains_bytes (show 0 < 11 by decide), forall_const, hdir, ne_eq, not_true_eq_false,
      false_implies, and_true, true_and, iff_true_intro hheader]
    constructor
    · rintro ⟨h1, h2, -⟩
      omega
    · rintro ⟨h1, h2⟩
      exact ⟨by omega, by omega, fun v' _ => by omega⟩
  · next hfile =>
    simp only [within_bind, within_access, within_silent, within_pure, result_silent, result_access,
      contains_bytes (show 0 < 11 by decide), forall_const, hfile, ne_eq, not_false_eq_true,
      and_true, true_and, iff_true_intro hheader]
    constructor
    · rintro ⟨h1, h2, -, hrest⟩
      exact ⟨by omega, by omega, fun v' hv' => (hrest v' hv').1⟩
    · rintro ⟨h1, h2, hdata⟩
      exact ⟨by omega, by omega, by omega, fun v' hv' => ⟨hdata v' hv', by omega⟩⟩

/-- The NUL of the name is in the module. -/
theorem headerName_inside (hnul : ∃ b, a ≤ b ∧ b < M.stop ∧ m b = 0) :
    a + (headerName m a).length < M.stop := by
  obtain ⟨b, hab, hb, hzero⟩ := hnul
  have hle : (headerName m a).length ≤ b - a := cString_length_le hab hzero maxString
  omega

theorem headerName_nul (hin : a + (headerName m a).length < M.stop) :
    ∃ b, a ≤ b ∧ b < M.stop ∧ m b = 0 := by
  have hfits := M.fits
  refine ⟨_, Nat.le_add_right _ _, hin, cString_nul ?_⟩
  unfold headerName at hin
  unfold maxString at hin ⊢
  omega

/-- Where the walk stops inside, it begins inside, and a NUL follows inside. -/
theorem StopsInside.nul (hs : StopsInside M h m i a v) :
    ∃ b, a ≤ b ∧ b < M.stop ∧ m b = 0 := by
  induction hs with
  | zero hlt hzero => exact ⟨_, Nat.le_refl _, hlt, hzero⟩
  | fault _ _ hnul _ => exact hnul
  | next _ _ _ ih =>
    obtain ⟨b, hab, hb, hzero⟩ := ih
    exact ⟨b, by omega, hb, hzero⟩

/-- No entry leads around the end of the address space. -/
theorem nextAddress_inside (ha : a < M.stop) :
    a + 512 * blocksFor (headerGetsize m a) < 2 ^ 64 ∧
      nextAddress a (headerGetsize m a) = a + 512 * blocksFor (headerGetsize m a) := by
  have hfits := M.fits
  have hsize : headerGetsize m a < 2 ^ 32 := getsize_lt m (a + 124)
  have hend : a + 512 * blocksFor (headerGetsize m a) < 2 ^ 64 := by
    unfold blocksFor
    omega
  exact ⟨hend, nextAddress_blocks hend⟩

/-- A walk that stops inside stays inside. -/
theorem StopsInside.within (hs : StopsInside M h m i a v) (ha : M.start ≤ a) (fuel : Nat) :
    Within M.Contains (archiveWalk h m fuel i a v) := by
  induction hs generalizing fuel with
  | @zero i a v hlt hzero =>
    cases fuel with
    | zero => exact within_silent none |>.mpr trivial
    | succ fuel =>
      rw [archiveWalk, if_pos hzero, within_bind, within_access, contains_bytes (Nat.succ_pos _)]
      exact ⟨⟨ha, hlt⟩, fun _ _ => within_pure _ |>.mpr trivial⟩
  | @fault i a v hne htype hnul hfails =>
    cases fuel with
    | zero => exact within_silent none |>.mpr trivial
    | succ fuel =>
      have hnone := (createEntry_eq_none_iff h m i a v).mpr hfails
      rw [archiveWalk, if_neg hne, within_bind, within_access, contains_bytes (Nat.succ_pos _)]
      refine ⟨⟨ha, by omega⟩, fun _ _ => within_bind.mpr ⟨(within_walkRound ha).mpr
        ⟨htype, headerName_inside hnul, fun _ v' hv' => ?_⟩, fun v' hv' => ?_⟩⟩
      · rw [hnone] at hv'
        cases hv'
      · rw [result_walkRound, hnone] at hv'
        cases hv'
  | @next i a v v' hne hc hrest ih =>
    cases fuel with
    | zero => exact within_silent none |>.mpr trivial
    | succ fuel =>
      -- the next header is inside, so all of this entry is
      obtain ⟨b, hab, hb, hzero⟩ := hrest.nul
      have hblocks : a + 512 + headerGetsize m a ≤ a + 512 * blocksFor (headerGetsize m a) := by
        unfold blocksFor
        omega
      obtain ⟨hend, hnext⟩ := nextAddress_inside (M := M) (m := m) (a := a) (by omega)
      rw [archiveWalk, if_neg hne, within_bind, within_access, contains_bytes (Nat.succ_pos _)]
      refine ⟨⟨ha, by omega⟩, fun _ _ => within_bind.mpr ⟨(within_walkRound ha).mpr
        ⟨by omega, headerName_inside ⟨b, by omega, hb, hzero⟩, fun _ _ _ => ?_⟩, fun v₁ hv₁ => ?_⟩⟩
      · rw [Nat.mod_eq_of_lt (by omega)]
        intro x h1 h2
        omega
      · rw [result_walkRound, hc] at hv₁
        obtain rfl := Option.some.inj hv₁
        rw [hnext]
        exact ih (by omega) fuel

/-- And a walk that stays inside stops there: it cannot go on for ever. -/
theorem stopsInside_of_within (ha : M.start ≤ a)
    (hin : ∀ fuel, Within M.Contains (archiveWalk h m fuel i a v)) : StopsInside M h m i a v := by
  induction hn : M.stop - a using Nat.strong_induction_on generalizing i a v with
  | _ n ih =>
    have hstep := fun fuel => hin (fuel + 1)
    simp only [archiveWalk, within_bind, within_access, contains_bytes (Nat.succ_pos _)] at hstep
    obtain ⟨⟨-, hlt⟩, -⟩ := hstep 0
    by_cases hzero : m a = 0
    · exact .zero hlt hzero
    have hround := fun fuel => (hstep fuel).2 () rfl
    simp only [if_neg hzero, within_bind] at hround
    obtain ⟨htype, hname, -⟩ := (within_walkRound ha).mp (hround 0).1
    cases hc : createEntry h m i a v with
    | none =>
      exact .fault hzero htype (headerName_nul hname) ((createEntry_eq_none_iff h m i a v).mp hc)
    | some v' =>
      obtain ⟨-, hnext⟩ := nextAddress_inside (M := M) (m := m) (a := a) (by omega)
      refine .next hzero hc (ih _ ?_ (by omega) (fun fuel => ?_) rfl)
      · unfold blocksFor
        omega
      · have hrest := (hround fuel).2 v' (by rw [result_walkRound, hc])
        rwa [hnext] at hrest

end

/-- **When the walk stays in the module.**  For every content of the module and every tree:
all bytes of headers that are read and all ranges that are recorded lie in the module if and
only if the walk stops inside. -/
theorem walk_stays_iff (M : BootModule) (h : UstarHeap) (m : Mem) (v : Vfs) :
    (∀ fuel, Within M.Contains (archiveWalk h m fuel 0 M.start v)) ↔
      StopsInside M h m 0 M.start v :=
  ⟨stopsInside_of_within (Nat.le_refl _), fun hs => hs.within (Nat.le_refl _)⟩

/-- A module of one header, for an empty file `a`, and nothing behind it. -/
def shortTar : Mem :=
  putString (putHeader (fun _ => 0) 0x1000 ['a'] (List.replicate 11 '0') '0') (0x1000 + 257)
    ['u', 's', 't', 'a', 'r', ' ', ' ']

def shortModule : BootModule := ⟨0x1000, 0x1200, by decide, by decide⟩

/-- **The walk leaves the module**: without a zero block behind the last entry the next header
is looked for at `end`. -/
theorem walk_leaves_module :
    ¬ ∀ (M : BootModule) (h : UstarHeap) (m : Mem) (v : Vfs), Recognised m M →
      ∀ fuel, Within M.Contains (archiveWalk h m fuel 0 M.start v) := by
  intro hclaim
  have hrecognised : Recognised shortTar shortModule := by
    unfold Recognised
    decide +kernel
  have hin := hclaim shortModule plainHeap shortTar tinyRoot hrecognised 2
  have hread : .bytes 0x1200 1 ∈ (archiveWalk plainHeap shortTar 2 0 shortModule.start tinyRoot).log := by
    decide +kernel
  have hlast := (hin _ hread 0x1200 (by decide) (by decide)).2
  exact absurd hlast (by decide)

end BestOS
