/-
BestOS/StackConfined.lean

Where the stores of the stack builder go.

`sched_new_elf_process` takes `STACK_SIZE` bytes of frames for the stack and pushes
whatever `argv` and `envp` hold.  It compares nothing with `STACK_SIZE`, so lists whose
encoding is longer run over the lower end: either a string is copied across it, or the
strings fit and the argument count, the last word stored, is below it.

Memory is seen through the kernel's addresses here, with the frames at `sp` standing at
`sp + MMAP_IO_BASE`.  Everything stored is computed from the lists alone, so a byte that
is stored outside the frames shows as a change in some memory.
-/
import BestOS.ExecStack

namespace BestOS

open ByteMemory

/-- The byte is not one of the `STACK_SIZE` bytes at `base`. -/
def OutsideStack (base x : Nat) : Prop := x < base ∨ base + STACK_SIZE ≤ x

/-- Building the stack at `base` stores nothing outside its frames: whatever memory held
there, it still does. -/
def StackConfined (base : Nat) (val : Auxval) (argv envp : List ByteString) : Prop :=
  ∀ m : Mem, AgreeOn (OutsideStack base) m (buildStack m base val argv envp).1

/-! ### Lists that fit -/

theorem stackConfined_of_fits {base : Nat} (hbase : base % PAGE_SIZE = 0) (val : Auxval)
    {argv envp : List ByteString} (hfit : encodedSize argv envp ≤ STACK_SIZE) :
    StackConfined base val argv envp := by
  have hpage : PAGE_SIZE = 4096 := rfl
  have hstack : STACK_SIZE = 0x4000 := rfl
  rw [hpage] at hbase
  have hsize := roomOf_le_encodedSize argv envp
  have htop := wordsTop_add (show base % 16 = 0 by omega)
    (show encodedSize argv envp ≤ base + STACK_SIZE by omega)
  intro m x hx
  unfold OutsideStack at hx
  obtain ⟨_, hf₁, _⟩ := pushStrings_spec m (show roomOf envp ≤ base + STACK_SIZE by omega)
  obtain ⟨_, hf₂, _⟩ := pushStrings_spec (pushStrings m (base + STACK_SIZE) envp).1
    (show roomOf argv ≤ base + STACK_SIZE - roomOf envp by omega)
  have hblock := (pushEntry_block
    (pushStrings (pushStrings m (base + STACK_SIZE) envp).1 (base + STACK_SIZE - roomOf envp) argv).1
    val (show 8 * (13 + argv.length + envp.length) ≤ wordsTop base argv envp by omega)
    (by omega)).1
  rw [buildStack_eq]
  dsimp only
  rw [hblock.frame x (by omega), hf₂ x (by omega), hf₁ x (by omega)]

/-! ### Lists that do not -/

theorem strcpy_congr_at {m m' : Mem} {x : Nat} (dest : Nat) (s : ByteString) (h : m x = m' x) :
    strcpy m dest s x = strcpy m' dest s x :=
  putBytes_congr_at _ _ h

theorem pushStrings_congr_at {m m' : Mem} {x : Nat} (stack : Nat) (ss : List ByteString)
    (h : m x = m' x) : (pushStrings m stack ss).1 x = (pushStrings m' stack ss).1 x := by
  induction ss generalizing m m' stack with
  | nil => exact h
  | cons s ss ih => exact ih _ (strcpy_congr_at _ s h)

theorem pushEntry_congr_at {m m' : Mem} {x : Nat} (stack : Nat) (val : Auxval)
    (argv envp : List ByteString) (h : m x = m' x) :
    (pushEntry m stack val argv envp).1 x = (pushEntry m' stack val argv envp).1 x := by
  unfold pushEntry pushAux
  simp only [storePointers_eq]
  refine writeLE_congr_at _ _ _ (writeWords_congr_at _ _ (writeLE_congr_at _ _ _ ?_))
  refine writeWords_congr_at _ _ (writeLE_congr_at _ _ _ ?_)
  iterate 10 refine writeLE_congr_at _ _ _ ?_
  exact h

/-- Strings that take more than there is above `base` are copied across it. -/
theorem pushStrings_below {base stack : Nat} (hbase : 0 < base) (hle : base ≤ stack)
    {ss : List ByteString} (hroom : stack < base + roomOf ss) :
    ∃ x < base, ∀ m m' : Mem, (pushStrings m stack ss).1 x = (pushStrings m' stack ss).1 x := by
  induction ss generalizing stack with
  | nil => exact absurd hroom (Nat.not_lt.mpr hle)
  | cons s ss ih =>
    rw [roomOf_cons] at hroom
    by_cases hcross : stack - s.room < base
    · refine ⟨stack - s.room, hcross, fun m m' => pushStrings_congr_at _ ss ?_⟩
      exact putBytes_reaches m m' le_rfl (by simp)
    · obtain ⟨x, hx, heq⟩ := ih (Nat.not_lt.mp hcross) (by omega)
      exact ⟨x, hx, fun m m' => heq _ _⟩

/-- Every string takes a byte at least. -/
theorem length_le_roomOf (ss : List ByteString) : ss.length ≤ roomOf ss := by
  induction ss with
  | nil => exact Nat.zero_le _
  | cons s ss ih =>
    have hroom : s.room = s.bytes.length + 1 := rfl
    rw [roomOf_cons, List.length_cons]
    omega

/-- The last store of the builder is the argument count. -/
theorem pushEntry_last (m : Mem) (stack : Nat) (val : Auxval) (argv envp : List ByteString) :
    ∃ m' : Mem, (pushEntry m stack val argv envp).1 =
      writeLE m' (pushEntry m stack val argv envp).2 8 argv.length :=
  ⟨_, rfl⟩

/-- If the lists do not fit, some byte below the frames is the same after the builder
whatever it was before. -/
theorem buildStack_below {base : Nat} (hbase : base % PAGE_SIZE = 0) (hlow : 0x40000 ≤ base)
    (val : Auxval) {argv envp : List ByteString} (hfit : STACK_SIZE < encodedSize argv envp) :
    ∃ x < base, ∀ m m' : Mem,
      (buildStack m base val argv envp).1 x = (buildStack m' base val argv envp).1 x := by
  have hpage : PAGE_SIZE = 4096 := rfl
  have hstack : STACK_SIZE = 0x4000 := rfl
  rw [hpage] at hbase
  simp only [buildStack_eq]
  by_cases henv : STACK_SIZE < roomOf envp
  · -- the environment crosses the lower end
    obtain ⟨x, hx, heq⟩ := pushStrings_below (show 0 < base by omega)
      (show base ≤ base + STACK_SIZE by omega) (show base + STACK_SIZE < base + roomOf envp by omega)
    exact ⟨x, hx, fun m m' => pushEntry_congr_at _ _ _ _ (pushStrings_congr_at _ _ (heq m m'))⟩
  · by_cases hargs : STACK_SIZE < roomOf envp + roomOf argv
    · -- the arguments do
      obtain ⟨x, hx, heq⟩ := pushStrings_below (show 0 < base by omega)
        (show base ≤ base + STACK_SIZE - roomOf envp by omega)
        (show base + STACK_SIZE - roomOf envp < base + roomOf argv by omega)
      exact ⟨x, hx, fun m m' => pushEntry_congr_at _ _ _ _ (heq _ _)⟩
    · -- the strings fit: so few of them that the words end less than `base` below the top
      have hargc := length_le_roomOf argv
      have henvc := length_le_roomOf envp
      have hsmall : encodedSize argv envp ≤ base + STACK_SIZE := by
        unfold encodedSize
        split <;> omega
      have htop := wordsTop_add (show base % 16 = 0 by omega) hsmall
      refine ⟨base + STACK_SIZE - encodedSize argv envp, by omega, fun m m' => ?_⟩
      obtain ⟨_, heq⟩ := pushEntry_last
        (pushStrings (pushStrings m (base + STACK_SIZE) envp).1
          (base + STACK_SIZE - roomOf envp) argv).1 (wordsTop base argv envp) val argv envp
      obtain ⟨_, heq'⟩ := pushEntry_last
        (pushStrings (pushStrings m' (base + STACK_SIZE) envp).1
          (base + STACK_SIZE - roomOf envp) argv).1 (wordsTop base argv envp) val argv envp
      rw [heq, heq', pushEntry_snd, pushEntry_snd]
      exact writeLE_reaches _ _ _ (by omega) (by omega)

theorem not_stackConfined {base : Nat} (hbase : base % PAGE_SIZE = 0) (hlow : 0x40000 ≤ base)
    (val : Auxval) {argv envp : List ByteString} (hfit : STACK_SIZE < encodedSize argv envp) :
    ¬ StackConfined base val argv envp := by
  intro hconf
  obtain ⟨x, hx, heq⟩ := buildStack_below hbase hlow val hfit
  obtain ⟨m, hm⟩ := exists_changed (f := fun m => (buildStack m base val argv envp).1) heq
  exact hm (hconf m x (.inl hx))

/-- **The stack stays in its frames exactly when the encoding fits.**  For every frame the
allocator hands out, all auxiliary values and all lists of strings. -/
theorem exec_stack_confined_iff (frame : Nat) (val : Auxval) (argv envp : List ByteString) :
    StackConfined (frame * PAGE_SIZE + MMAP_IO_BASE) val argv envp
      ↔ encodedSize argv envp ≤ STACK_SIZE := by
  have hio : MMAP_IO_BASE % PAGE_SIZE = 0 := by decide
  have hlow : 0x40000 ≤ MMAP_IO_BASE := by decide
  have hpage : PAGE_SIZE = 4096 := rfl
  have hbase : (frame * PAGE_SIZE + MMAP_IO_BASE) % PAGE_SIZE = 0 := by
    rw [Nat.mul_add_mod_self_right, hio]
  constructor
  · intro hconf
    by_contra hfit
    exact not_stackConfined hbase (hlow.trans (Nat.le_add_left _ _)) val (Nat.not_le.mp hfit) hconf
  · exact stackConfined_of_fits hbase val

/-- An argument of as many bytes as the stack has. -/
def longArg : ByteString := ⟨List.replicate STACK_SIZE 1, by simp [List.mem_replicate]⟩

/-- One argument that fills the stack: its first byte is stored below the frames. -/
theorem long_arg_leaves_stack :
    ¬ StackConfined (0x100 * PAGE_SIZE + MMAP_IO_BASE) ⟨1, 2, 3, 4⟩ [longArg] [] := by
  have hone : ∀ s : ByteString, roomOf [s] = s.bytes.length + 1 := fun s => by
    simp [roomOf, ByteString.room]
  have hlen : longArg.bytes.length = STACK_SIZE := List.length_replicate
  have hroom := hone longArg
  have hsize := roomOf_le_encodedSize [longArg] []
  refine not_stackConfined (by decide) (by decide) _ ?_
  omega

end BestOS
