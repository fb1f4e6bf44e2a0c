/-
BestOS/ExecStack.lean

The initial stack of a process, written by `sched_new_elf_process` and read by
the program's entry code.

The kernel works through its alias of the stack frames: it copies the strings
down from the top, aligns, and pushes the auxiliary vector, the environment
pointers, the argument pointers and the count.  The pointers are user
addresses, and they are computed a second time, from `USER_STACK_TOP` down,
without looking at where the strings went.  Both passes walk the strings in the
same order, so they are the same list of addresses, `ptrsFrom`, from two
different tops.

`decodeEntry` is the other side: the process-entry layout of the System V ABI,
as a parser.  `exec_stack_decodes` says that it reads back the arguments, the
environment and the four auxiliary values, in any user address space that shows
the stack frames below `USER_STACK_TOP`, whatever it shows elsewhere.
-/
import BestOS.ByteLayout
import BestOS.Elf

namespace BestOS

open ByteMemory

/-! ### What the kernel writes -/

/-- The bytes of a C string, without the NUL. -/
structure ByteString where
  bytes : List (BitVec 8)
  noNul : (0 : BitVec 8) ∉ bytes

def AT_ENTRY : Nat := 10
def AT_PHDR : Nat := 20
def AT_PHENT : Nat := 21
def AT_PHNUM : Nat := 22

/-- `strlen(s) + 1`. -/
def ByteString.room (s : ByteString) : Nat := s.bytes.length + 1

/-- `strcpy`. -/
def strcpy (m : Mem) (dest : Nat) (s : ByteString) : Mem := putBytes m dest (s.bytes ++ [0])

/-- The loop that pushes strings; the memory and the stack pointer after it. -/
def pushStrings (m : Mem) (stack : Nat) : List ByteString → Mem × Nat
  | [] => (m, stack)
  | s :: ss => pushStrings (strcpy m (stack - s.room) s) (stack - s.room) ss

/-- The loop that stores pointers; the memory and `sa` after it. -/
def storePointers (m : Mem) (stack sa : Nat) : List ByteString → Mem × Nat
  | [] => (m, sa)
  | s :: ss => storePointers (writeLE m stack 8 (sa - s.room)) (stack + 8) (sa - s.room) ss

/-- `stack -= 2; *stack = type; *(stack + 1) = value`. -/
def pushAux (m : Mem) (stack type value : Nat) : Mem :=
  writeLE (writeLE m (stack - 16) 8 type) (stack - 16 + 8) 8 value

/-- The pushes below the strings: the memory and the stack pointer after
them. -/
def pushEntry (m : Mem) (stack : Nat) (val : Auxval) (argv envp : List ByteString) : Mem × Nat :=
  let (m, stack) := (writeLE m (stack - 8) 8 0, stack - 8)
  let (m, stack) := (writeLE m (stack - 8) 8 0, stack - 8)
  let (m, stack) := (pushAux m stack AT_ENTRY val.atEntry.toNat, stack - 16)
  let (m, stack) := (pushAux m stack AT_PHDR val.atPhdr.toNat, stack - 16)
  let (m, stack) := (pushAux m stack AT_PHENT val.atPhent.toNat, stack - 16)
  let (m, stack) := (pushAux m stack AT_PHNUM val.atPhnum.toNat, stack - 16)
  let (m, stack) := (writeLE m (stack - 8) 8 0, stack - 8)
  let stack := stack - 8 * envp.length
  let (m, sa) := storePointers m stack USER_STACK_TOP envp
  let (m, stack) := (writeLE m (stack - 8) 8 0, stack - 8)
  let stack := stack - 8 * argv.length
  let (m, _) := storePointers m stack sa argv
  (writeLE m (stack - 8) 8 argv.length, stack - 8)

/-- The part of `sched_new_elf_process` that builds the stack in the frames at
`sp`: the memory and the final `t->stack.rsp`.  The kernel's alias is a multiple
of the page size away, so addresses are those of the frames themselves. -/
def buildStack (m : Mem) (sp : Nat) (val : Auxval) (argv envp : List ByteString) : Mem × Nat :=
  let stackTop := sp + STACK_SIZE
  let (m, stack) := pushStrings m stackTop envp
  let (m, stack) := pushStrings m stack argv
  let stack := stack - stack % 16
  let stack := if (argv.length + envp.length + 1) % 2 = 1 then stack - 8 else stack
  let (m, stack) := pushEntry m stack val argv envp
  (m, USER_STACK_TOP - (stackTop - stack))

/-- The bytes the strings take. -/
def roomOf (ss : List ByteString) : Nat := (ss.map ByteString.room).sum

/-- The bytes the whole encoding takes: the strings up to a multiple of 16, the
padding word, and 13 words besides the pointers. -/
def encodedSize (argv envp : List ByteString) : Nat :=
  (roomOf envp + roomOf argv + 15) / 16 * 16 +
    (if (argv.length + envp.length + 1) % 2 = 1 then 8 else 0) +
    8 * (13 + argv.length + envp.length)

/-! ### What the program reads -/

/-- The string at `a`. -/
def readString (m : Mem) : Nat → Nat → Option (List (BitVec 8))
  | 0, _ => none
  | fuel + 1, a => if m a = 0 then some [] else (readString m fuel (a + 1)).map (m a :: ·)

/-- The `n` words at `a`. -/
def readWords (m : Mem) (a : Nat) : Nat → List Nat
  | 0 => []
  | n + 1 => readLE m a 8 :: readWords m (a + 8) n

/-- The words at `a` up to a NULL, and the address behind it. -/
def readToNull (m : Mem) : Nat → Nat → Option (List Nat × Nat)
  | 0, _ => none
  | fuel + 1, a =>
    if readLE m a 8 = 0 then some ([], a + 8)
    else (readToNull m fuel (a + 8)).map fun r => (readLE m a 8 :: r.1, r.2)

/-- The auxiliary vector at `a`, up to the entry of type 0. -/
def readAuxv (m : Mem) : Nat → Nat → Option (List (Nat × Nat))
  | 0, _ => none
  | fuel + 1, a =>
    if readLE m a 8 = 0 then some []
    else (readAuxv m fuel (a + 16)).map fun r => (readLE m a 8, readLE m (a + 8) 8) :: r

/-- What the entry code finds. -/
structure ProcessEntry where
  argc : Nat
  argv : List (List (BitVec 8))
  envp : List (List (BitVec 8))
  auxv : List (Nat × Nat)

/-- The process-entry layout: the argument count, that many argument pointers
and a NULL, the environment pointers and a NULL, and the auxiliary vector. -/
def decodeEntry (m : Mem) (fuel rsp : Nat) : Option ProcessEntry :=
  let argc := readLE m rsp 8
  let argPtrs := readWords m (rsp + 8) argc
  let endArgs := rsp + 8 + 8 * argc
  if readLE m endArgs 8 ≠ 0 then none
  else do
    let (envPtrs, aux) ← readToNull m fuel (endArgs + 8)
    let auxv ← readAuxv m fuel aux
    let argv ← argPtrs.mapM (readString m fuel)
    let envp ← envPtrs.mapM (readString m fuel)
    some ⟨argc, argv, envp, auxv⟩

/-- A user address space that shows the stack frames at `sp` below
`USER_STACK_TOP`. -/
def ShowsStack (user m : Mem) (sp : Nat) : Prop :=
  ∀ i < STACK_SIZE, user (USER_STACK_TOP - STACK_SIZE + i) = m (sp + i)

/-! ### The two passes over the strings -/

/-- The addresses of strings pushed one after the other from `top` down. -/
def ptrsFrom (top : Nat) : List ByteString → List Nat
  | [] => []
  | s :: ss => (top - s.room) :: ptrsFrom (top - s.room) ss

theorem ptrsFrom_length (top : Nat) (ss : List ByteString) :
    (ptrsFrom top ss).length = ss.length := by
  induction ss generalizing top with
  | nil => rfl
  | cons s ss ih => rw [ptrsFrom, List.length_cons, List.length_cons, ih]

theorem ptrsFrom_bounds {top : Nat} {ss : List ByteString} {p : Nat} (h : p ∈ ptrsFrom top ss) :
    top - roomOf ss ≤ p ∧ p ≤ top := by
  induction ss generalizing top with
  | nil => cases h
  | cons s ss ih =>
    have hroom : roomOf (s :: ss) = s.room + roomOf ss := by simp [roomOf]
    rcases List.mem_cons.mp h with rfl | hrest
    · omega
    · have := ih hrest
      omega

/-- The strings stand at the addresses. -/
def StringsAt (m : Mem) : List Nat → List ByteString → Prop
  | p :: ps, s :: ss => BytesAt m p (s.bytes ++ [0]) ∧ StringsAt m ps ss
  | _, _ => True

theorem roomOf_cons (s : ByteString) (ss : List ByteString) :
    roomOf (s :: ss) = s.room + roomOf ss := by
  simp [roomOf]

/-- The first pass: the strings stand where `ptrsFrom` says, and nothing outside
their room is touched. -/
theorem pushStrings_spec (m : Mem) {top : Nat} {ss : List ByteString} (h : roomOf ss ≤ top) :
    (pushStrings m top ss).2 = top - roomOf ss ∧
      (∀ x, x < top - roomOf ss ∨ top ≤ x → (pushStrings m top ss).1 x = m x) ∧
      StringsAt (pushStrings m top ss).1 (ptrsFrom top ss) ss := by
  induction ss generalizing m top with
  | nil => exact ⟨rfl, fun _ _ => rfl, trivial⟩
  | cons s ss ih =>
    rw [roomOf_cons] at h ⊢
    obtain ⟨hptr, hframe, hat⟩ := ih (strcpy m (top - s.room) s)
      (show roomOf ss ≤ top - s.room by omega)
    have hlen : (s.bytes ++ [0]).length = s.room := by simp [ByteString.room]
    refine ⟨?_, ?_, ?_, ?_⟩
    · rw [pushStrings, hptr]
      omega
    · intro x hx
      rw [pushStrings, hframe x (by omega)]
      exact putBytes_agree _ _ _ (by omega)
    · rw [pushStrings]
      refine (bytesAt_putBytes m (top - s.room) _).congr fun i _ => hframe _ (.inr ?_)
      omega
    · rw [pushStrings]
      exact hat

/-- The second pass stores exactly these addresses. -/
theorem storePointers_eq (m : Mem) (stack sa : Nat) (ss : List ByteString) :
    storePointers m stack sa ss = (writeWords m stack (ptrsFrom sa ss), sa - roomOf ss) := by
  induction ss generalizing m stack sa with
  | nil => rfl
  | cons s ss ih =>
    rw [storePointers, ih, ptrsFrom, writeWords, roomOf_cons, Nat.sub_sub]

/-- Strings seen at other addresses: only the distance to the top counts. -/
theorem StringsAt.view {m u : Mem} {top top' : Nat} {ss : List ByteString}
    (h : StringsAt m (ptrsFrom top ss) ss) (hroom : roomOf ss ≤ top) (hroom' : roomOf ss ≤ top')
    (heq : ∀ k, 1 ≤ k → k ≤ roomOf ss → u (top' - k) = m (top - k)) :
    StringsAt u (ptrsFrom top' ss) ss := by
  induction ss generalizing top top' with
  | nil => trivial
  | cons s ss ih =>
    rw [roomOf_cons] at hroom hroom' heq
    have hlen : (s.bytes ++ [0]).length = s.room := by simp [ByteString.room]
    refine ⟨h.1.congr fun i hi => ?_, ih h.2 (by omega) (by omega) fun k h1 h2 => ?_⟩
    · rw [hlen] at hi
      rw [show top' - s.room + i = top' - (s.room - i) by omega,
        show top - s.room + i = top - (s.room - i) by omega]
      exact heq _ (by omega) (by omega)
    · rw [Nat.sub_sub, Nat.sub_sub]
      exact heq _ (by omega) (by omega)

/-! ### The words below the strings -/

/-- The words from the final stack pointer up. -/
def entryWords (val : Auxval) (argv envp : List ByteString) : List Nat :=
  argv.length :: (ptrsFrom (USER_STACK_TOP - roomOf envp) argv ++ 0 ::
    (ptrsFrom USER_STACK_TOP envp ++ 0 ::
      [AT_PHNUM, val.atPhnum.toNat, AT_PHENT, val.atPhent.toNat, AT_PHDR, val.atPhdr.toNat,
        AT_ENTRY, val.atEntry.toNat, 0, 0]))

theorem block_aux {m₀ m : Mem} {top a : Nat} {ws : List Nat} (h : Block m₀ top m a ws) {t : Nat}
    (ht : t < 2 ^ 64) (v : BitVec 64) (ha : 16 ≤ a) :
    Block m₀ top (pushAux m a t v.toNat) (a - 16) (t :: v.toNat :: ws) := by
  have hall : ∀ u ∈ [t, v.toNat], u < 2 ^ 64 := by
    intro u hu
    obtain rfl | rfl : u = t ∨ u = v.toNat := by simpa using hu
    · exact ht
    · exact v.isLt
  exact h.array hall ha

theorem block_pointers {m₀ m : Mem} {top a : Nat} {ws : List Nat} (h : Block m₀ top m a ws)
    {sa : Nat} (hsa : sa < 2 ^ 64) {ss : List ByteString} (ha : 8 * ss.length ≤ a) :
    Block m₀ top (storePointers m (a - 8 * ss.length) sa ss).1 (a - 8 * ss.length)
      (ptrsFrom sa ss ++ ws) := by
  have hall : ∀ p ∈ ptrsFrom sa ss, p < 2 ^ 64 := by
    intro p hp
    have := (ptrsFrom_bounds hp).2
    omega
  have hblock := h.array hall (by rw [ptrsFrom_length]; exact ha)
  rw [storePointers_eq]
  rw [ptrsFrom_length] at hblock
  exact hblock

/-- The pushes below the strings end this far down, with the count as the last store. -/
theorem pushEntry_snd (m : Mem) (stack : Nat) (val : Auxval) (argv envp : List ByteString) :
    (pushEntry m stack val argv envp).2 = stack - 8 * (13 + argv.length + envp.length) := by
  have hend : (pushEntry m stack val argv envp).2 =
      stack - 8 - 8 - 16 - 16 - 16 - 16 - 8 - 8 * envp.length - 8 - 8 * argv.length - 8 := rfl
  rw [hend]
  omega

/-- The pushes below the strings leave the block of `entryWords`. -/
theorem pushEntry_block (m : Mem) {stack : Nat} (val : Auxval) {argv envp : List ByteString}
    (hroom : 8 * (13 + argv.length + envp.length) ≤ stack) (hargs : argv.length < 2 ^ 64) :
    Block m stack (pushEntry m stack val argv envp).1
        (stack - 8 * (13 + argv.length + envp.length)) (entryWords val argv envp) ∧
      (pushEntry m stack val argv envp).2 = stack - 8 * (13 + argv.length + envp.length) := by
  have haddr : stack - 8 - 8 - 16 - 16 - 16 - 16 - 8 - 8 * envp.length - 8 - 8 * argv.length - 8 =
      stack - 8 * (13 + argv.length + envp.length) := by omega
  refine ⟨?_, pushEntry_snd m stack val argv envp⟩
  have b₀ := ((Block.start m stack).push (v := 0) (by decide) (by omega)).push (v := 0) (by decide)
    (by omega)
  have b₁ := block_aux b₀ (t := AT_ENTRY) (by decide) val.atEntry (by omega)
  have b₂ := block_aux b₁ (t := AT_PHDR) (by decide) val.atPhdr (by omega)
  have b₃ := block_aux b₂ (t := AT_PHENT) (by decide) val.atPhent (by omega)
  have b₄ := block_aux b₃ (t := AT_PHNUM) (by decide) val.atPhnum (by omega)
  have b₅ := b₄.push (v := 0) (by decide) (by omega)
  have htop : USER_STACK_TOP < 2 ^ 64 := by decide
  have b₆ := block_pointers b₅ htop (show 8 * envp.length ≤ _ by omega)
  have b₇ := b₆.push (v := 0) (by decide) (by omega)
  have b₈ := block_pointers b₇ (show USER_STACK_TOP - roomOf envp < 2 ^ 64 by omega)
    (show 8 * argv.length ≤ _ by omega)
  have b₉ := b₈.push hargs (by omega)
  rw [← haddr]
  unfold pushEntry entryWords
  simp only [storePointers_eq] at b₉ ⊢
  exact b₉

/-- The stack pointer after the strings, the alignment and the padding word. -/
def wordsTop (sp : Nat) (argv envp : List ByteString) : Nat :=
  let stack := sp + STACK_SIZE - roomOf envp - roomOf argv
  let stack := stack - stack % 16
  if (argv.length + envp.length + 1) % 2 = 1 then stack - 8 else stack

theorem pushStrings_snd (m : Mem) (top : Nat) (ss : List ByteString) :
    (pushStrings m top ss).2 = top - roomOf ss := by
  induction ss generalizing m top with
  | nil => rfl
  | cons s ss ih => rw [pushStrings, ih, roomOf_cons, Nat.sub_sub]

/-- The two passes over the strings, then the pushes below them. -/
theorem buildStack_eq (m : Mem) (sp : Nat) (val : Auxval) (argv envp : List ByteString) :
    buildStack m sp val argv envp =
      let r := pushEntry
        (pushStrings (pushStrings m (sp + STACK_SIZE) envp).1
          (sp + STACK_SIZE - roomOf envp) argv).1
        (wordsTop sp argv envp) val argv envp
      (r.1, USER_STACK_TOP - (sp + STACK_SIZE - r.2)) := by
  unfold buildStack wordsTop
  dsimp only
  rw [pushStrings_snd, pushStrings_snd]

/-- The words take the part of the encoding below `wordsTop`. -/
theorem wordsTop_add {sp : Nat} (hsp : sp % 16 = 0) {argv envp : List ByteString}
    (h : encodedSize argv envp ≤ sp + STACK_SIZE) :
    wordsTop sp argv envp + encodedSize argv envp =
      sp + STACK_SIZE + 8 * (13 + argv.length + envp.length) := by
  have hstack : STACK_SIZE = 0x4000 := rfl
  unfold encodedSize at h ⊢
  unfold wordsTop
  dsimp only
  split <;> omega

theorem roomOf_le_encodedSize (argv envp : List ByteString) :
    roomOf envp + roomOf argv + 8 * (13 + argv.length + envp.length) ≤ encodedSize argv envp := by
  unfold encodedSize
  omega

/-- **What the kernel leaves on the stack.**  The strings of both passes stand at
the addresses counted from the top, the block of `entryWords` below them, and the
final `rsp` is as far below `USER_STACK_TOP` as the block is below the top of the
frames. -/
theorem buildStack_spec (m : Mem) {sp : Nat} (hsp : sp % PAGE_SIZE = 0) (val : Auxval)
    {argv envp : List ByteString} (hfit : encodedSize argv envp ≤ STACK_SIZE) :
    StringsAt (buildStack m sp val argv envp).1 (ptrsFrom (sp + STACK_SIZE) envp) envp ∧
      StringsAt (buildStack m sp val argv envp).1
        (ptrsFrom (sp + STACK_SIZE - roomOf envp) argv) argv ∧
      WordsAt (buildStack m sp val argv envp).1 (sp + STACK_SIZE - encodedSize argv envp)
        (entryWords val argv envp) ∧
      (buildStack m sp val argv envp).2 = USER_STACK_TOP - encodedSize argv envp := by
  have hstack : STACK_SIZE = 0x4000 := rfl
  have hpage : PAGE_SIZE = 4096 := rfl
  rw [hpage] at hsp
  have hsize := roomOf_le_encodedSize argv envp
  have htop := wordsTop_add (show sp % 16 = 0 by omega)
    (show encodedSize argv envp ≤ sp + STACK_SIZE by omega)
  obtain ⟨_, hf₁, hs₁⟩ := pushStrings_spec m (show roomOf envp ≤ sp + STACK_SIZE by omega)
  obtain ⟨_, hf₂, hs₂⟩ := pushStrings_spec (pushStrings m (sp + STACK_SIZE) envp).1
    (show roomOf argv ≤ sp + STACK_SIZE - roomOf envp by omega)
  rw [buildStack_eq]
  dsimp only
  generalize (pushStrings (pushStrings m (sp + STACK_SIZE) envp).1 _ argv).1 = m₂ at *
  generalize wordsTop sp argv envp = top at *
  obtain ⟨hblock, hend⟩ := pushEntry_block m₂ val
    (show 8 * (13 + argv.length + envp.length) ≤ top by omega) (by omega)
  have hkeep : ∀ x, top ≤ x → (pushEntry m₂ top val argv envp).1 x = m₂ x :=
    fun x hx => hblock.frame x (.inr hx)
  have hbase : top - 8 * (13 + argv.length + envp.length) =
      sp + STACK_SIZE - encodedSize argv envp := by omega
  refine ⟨?_, ?_, ?_, ?_⟩
  · refine hs₁.view (by omega) (by omega) fun k h1 h2 => ?_
    rw [hkeep _ (by omega)]
    exact hf₂ _ (.inr (by omega))
  · refine hs₂.view (by omega) (by omega) fun k h1 h2 => ?_
    exact hkeep _ (by omega)
  · rw [← hbase]
    exact hblock.words
  · rw [hend, hbase]
    omega

/-! ### Reading it back -/

theorem readString_eq {m : Mem} {s : ByteString} {a fuel : Nat}
    (h : BytesAt m a (s.bytes ++ [0])) (hfuel : s.bytes.length < fuel) :
    readString m fuel a = some s.bytes := by
  obtain ⟨bytes, hnul⟩ := s
  induction bytes generalizing a fuel with
  | nil =>
    match fuel, hfuel with
    | fuel + 1, _ => rw [readString, if_pos h.1]
  | cons b bytes ih =>
    match fuel, hfuel with
    | fuel + 1, hfuel =>
      have hb : m a ≠ 0 := by
        rw [h.1]
        rintro rfl
        exact hnul List.mem_cons_self
      have hrest := ih (fun hc => hnul (List.mem_cons_of_mem b hc)) h.2 (Nat.lt_of_succ_lt_succ hfuel)
      rw [readString, if_neg hb, hrest, h.1]
      rfl

theorem readStrings_eq {m : Mem} {top fuel : Nat} {ss : List ByteString}
    (h : StringsAt m (ptrsFrom top ss) ss) (hfuel : roomOf ss ≤ fuel) :
    (ptrsFrom top ss).mapM (readString m fuel) = some (ss.map ByteString.bytes) := by
  induction ss generalizing top with
  | nil => rfl
  | cons s ss ih =>
    rw [roomOf_cons] at hfuel
    have hroom : s.room = s.bytes.length + 1 := rfl
    rw [ptrsFrom, List.mapM_cons, readString_eq h.1 (by omega), ih h.2 (by omega)]
    rfl

theorem readWords_eq {m : Mem} {a : Nat} {ws : List Nat} (h : WordsAt m a ws) :
    readWords m a ws.length = ws := by
  induction ws generalizing a with
  | nil => rfl
  | cons w ws ih => rw [List.length_cons, readWords, h.1, ih h.2]

theorem readToNull_eq {m : Mem} {a fuel : Nat} {ws vs : List Nat}
    (h : WordsAt m a (ws ++ 0 :: vs)) (hne : ∀ w ∈ ws, w ≠ 0) (hfuel : ws.length < fuel) :
    readToNull m fuel a = some (ws, a + 8 * (ws.length + 1)) := by
  induction ws generalizing a fuel with
  | nil =>
    match fuel, hfuel with
    | fuel + 1, _ =>
      rw [readToNull, if_pos h.1]
      rfl
  | cons w ws ih =>
    match fuel, hfuel with
    | fuel + 1, hfuel =>
      have hrest := ih h.2 (fun v hv => hne v (List.mem_cons_of_mem w hv))
        (Nat.lt_of_succ_lt_succ hfuel)
      rw [readToNull, if_neg (by rw [h.1]; exact hne w List.mem_cons_self), hrest, h.1]
      simp only [Option.map_some, List.length_cons, Option.some.injEq, Prod.mk.injEq, true_and]
      omega

/-- The words of a list of auxiliary entries. -/
def auxWords : List (Nat × Nat) → List Nat
  | [] => []
  | p :: ps => p.1 :: p.2 :: auxWords ps

theorem readAuxv_eq {m : Mem} {a fuel : Nat} {ps : List (Nat × Nat)} {vs : List Nat}
    (h : WordsAt m a (auxWords ps ++ 0 :: vs)) (hne : ∀ p ∈ ps, p.1 ≠ 0) (hfuel : ps.length < fuel) :
    readAuxv m fuel a = some ps := by
  induction ps generalizing a fuel with
  | nil =>
    match fuel, hfuel with
    | fuel + 1, _ => rw [readAuxv, if_pos h.1]
  | cons p ps ih =>
    match fuel, hfuel with
    | fuel + 1, hfuel =>
      obtain ⟨h₁, h₂, hrest⟩ := h
      have hps := ih hrest (fun q hq => hne q (List.mem_cons_of_mem p hq))
        (Nat.lt_of_succ_lt_succ hfuel)
      rw [readAuxv, if_neg (by rw [h₁]; exact hne p List.mem_cons_self), hps, h₁, h₂]
      rfl

/-- The four auxiliary entries the kernel writes, in the order they are read. -/
def auxEntries (val : Auxval) : List (Nat × Nat) :=
  [(AT_PHNUM, val.atPhnum.toNat), (AT_PHENT, val.atPhent.toNat), (AT_PHDR, val.atPhdr.toNat),
    (AT_ENTRY, val.atEntry.toNat)]

/-- The parser reads the block of `entryWords` and the strings it points to. -/
theorem decodeEntry_eq {m : Mem} {rsp fuel : Nat} {val : Auxval} {argv envp : List ByteString}
    (hwords : WordsAt m rsp (entryWords val argv envp))
    (henv : StringsAt m (ptrsFrom USER_STACK_TOP envp) envp)
    (hargs : StringsAt m (ptrsFrom (USER_STACK_TOP - roomOf envp) argv) argv)
    (hroom : roomOf envp + roomOf argv < USER_STACK_TOP)
    (hfuel : roomOf envp ≤ fuel ∧ roomOf argv ≤ fuel ∧ envp.length < fuel ∧ 4 < fuel) :
    decodeEntry m fuel rsp = some
      { argc := argv.length
        argv := argv.map ByteString.bytes
        envp := envp.map ByteString.bytes
        auxv := auxEntries val } := by
  obtain ⟨hargc, hrest⟩ := hwords
  rw [wordsAt_append, ptrsFrom_length] at hrest
  obtain ⟨hptrs, hnull, hrest⟩ := hrest
  have hwords := readWords_eq hptrs
  rw [ptrsFrom_length] at hwords
  -- a pointer into the stack is not the null that ends the list
  have hne : ∀ p ∈ ptrsFrom USER_STACK_TOP envp, p ≠ 0 := by
    intro p hp
    have := (ptrsFrom_bounds hp).1
    omega
  have henvs := readToNull_eq hrest hne (show _ < fuel by rw [ptrsFrom_length]; omega)
  rw [wordsAt_append] at hrest
  have hauxat : WordsAt m (rsp + 8 + 8 * argv.length + 8 +
      8 * ((ptrsFrom USER_STACK_TOP envp).length + 1)) (auxWords (auxEntries val) ++ 0 :: [0]) := by
    have h := hrest.2.2
    rw [show rsp + 8 + 8 * argv.length + 8 + 8 * (ptrsFrom USER_STACK_TOP envp).length + 8 =
      rsp + 8 + 8 * argv.length + 8 + 8 * ((ptrsFrom USER_STACK_TOP envp).length + 1) by omega] at h
    exact h
  have haux := readAuxv_eq hauxat (by simp [auxEntries, AT_PHNUM, AT_PHENT, AT_PHDR, AT_ENTRY])
    (show 4 < fuel from hfuel.2.2.2)
  unfold decodeEntry
  dsimp only
  rw [hargc, hwords, hnull, henvs]
  simp only [ne_eq, not_true_eq_false, if_false, Option.bind_eq_bind, Option.bind_some, haux,
    readStrings_eq hargs hfuel.2.1, readStrings_eq henv hfuel.1]

/-- **The program finds what it was given.**  For every page-aligned stack frame
base, every `argv` and `envp` whose encoding fits and every auxiliary value, in
any user address space that shows the frames below `USER_STACK_TOP`, the
process-entry layout at the final `rsp` decodes to the argument count, the
arguments, the environment and the auxiliary entries; and `rsp` is a multiple of
16. -/
theorem exec_stack_decodes (m : Mem) {sp : Nat} (hsp : sp % PAGE_SIZE = 0) (val : Auxval)
    {argv envp : List ByteString} (hfit : encodedSize argv envp ≤ STACK_SIZE) {user : Mem}
    (hview : ShowsStack user (buildStack m sp val argv envp).1 sp) :
    decodeEntry user STACK_SIZE (buildStack m sp val argv envp).2 = some
        { argc := argv.length
          argv := argv.map ByteString.bytes
          envp := envp.map ByteString.bytes
          auxv := auxEntries val } ∧
      (buildStack m sp val argv envp).2 % 16 = 0 := by
  have hsize : encodedSize argv envp = (roomOf envp + roomOf argv + 15) / 16 * 16 +
      (if (argv.length + envp.length + 1) % 2 = 1 then 8 else 0) +
      8 * (13 + argv.length + envp.length) := rfl
  have hstack : STACK_SIZE = 0x4000 := rfl
  have htop : USER_STACK_TOP = 2 ^ 47 - 8192 := rfl
  obtain ⟨henv, hargs, hwords, hrsp⟩ := buildStack_spec m hsp val hfit
  generalize (buildStack m sp val argv envp).1 = m' at *
  -- distances below the two tops correspond
  have hdist : ∀ k, 1 ≤ k → k ≤ STACK_SIZE →
      user (USER_STACK_TOP - k) = m' (sp + STACK_SIZE - k) := by
    intro k h1 h2
    have hk := hview (STACK_SIZE - k) (by omega)
    rw [show USER_STACK_TOP - STACK_SIZE + (STACK_SIZE - k) = USER_STACK_TOP - k by omega,
      show sp + (STACK_SIZE - k) = sp + STACK_SIZE - k by omega] at hk
    exact hk
  have hlen : 8 * (entryWords val argv envp).length ≤ encodedSize argv envp := by
    simp only [entryWords, List.length_cons, List.length_append, ptrsFrom_length, List.length_nil]
    omega
  rw [hrsp]
  refine ⟨decodeEntry_eq ?_ ?_ ?_ (by omega) (by omega), ?_⟩
  · refine hwords.congr fun i hi => ?_
    rw [show USER_STACK_TOP - encodedSize argv envp + i =
        USER_STACK_TOP - (encodedSize argv envp - i) by omega,
      show sp + STACK_SIZE - encodedSize argv envp + i =
        sp + STACK_SIZE - (encodedSize argv envp - i) by omega]
    exact hdist _ (by omega) (by omega)
  · exact henv.view (by omega) (by omega) fun k h1 h2 => hdist k h1 (by omega)
  · refine hargs.view (by omega) (by omega) fun k h1 h2 => ?_
    rw [Nat.sub_sub, Nat.sub_sub]
    exact hdist _ (by omega) (by omega)
  · rw [hsize]
    split <;> omega

/-- The argument `/bin/sh` that `kernel_main` passes. -/
def initArg : ByteString := ⟨[0x2f, 0x62, 0x69, 0x6e, 0x2f, 0x73, 0x68], by decide⟩

/-- The variable `PATH=/bin` that `kernel_main` passes. -/
def initEnv : ByteString := ⟨[0x50, 0x41, 0x54, 0x48, 0x3d, 0x2f, 0x62, 0x69, 0x6e], by decide⟩

/-- The first process finds its one argument and its one variable. -/
theorem exec_stack_decodes_init :
    ∃ user : Mem,
      ShowsStack user (buildStack (fun _ => 0) 0x1000 ⟨1, 2, 3, 4⟩ [initArg] [initEnv]).1 0x1000 ∧
      decodeEntry user STACK_SIZE
        (buildStack (fun _ => 0) 0x1000 ⟨1, 2, 3, 4⟩ [initArg] [initEnv]).2 =
        some ⟨1, [initArg.bytes], [initEnv.bytes], [(22, 4), (21, 3), (20, 2), (10, 1)]⟩ := by
  have hview : ∀ m : Mem, ShowsStack
      (fun a => m (a - (USER_STACK_TOP - STACK_SIZE) + 0x1000)) m 0x1000 := by
    intro m i _
    show m (USER_STACK_TOP - STACK_SIZE + i - (USER_STACK_TOP - STACK_SIZE) + 0x1000) = _
    rw [Nat.add_sub_cancel_left, Nat.add_comm]
  exact ⟨_, hview _, (exec_stack_decodes _ (by decide) _ (by decide) (hview _)).1⟩

end BestOS
