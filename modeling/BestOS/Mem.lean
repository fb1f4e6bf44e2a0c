/-
BestOS/Mem.lean

`lib/mem.c` and the arithmetic macros of `lib/base.h`.

The kernel runs on x86-64, so `size_t`, `uintptr_t` and `uint64_t` are
naturals below `2 ^ 64`; wherever the C arithmetic can wrap, the model says
`% 2 ^ 64`.  Physical memory is a `ByteMemory.Mem`.  The kernel reaches
physical address `p` through the alias `p + MMAP_IO_BASE`; the model indexes
memory by `p` itself, so the alias disappears at every dereference.  A sum of
addresses wraps.  The loops of `memset` and `memcpy` are followed without
wrapping: a range that runs over the end of the address space crosses
addresses that are not canonical, where the access faults.
-/
import BestOS.ByteMemory
import BestOS.BitMask

namespace BestOS

open ByteMemory

/-- `PAGE_SIZE` of `arch/arch.h`. -/
def PAGE_SIZE : Nat := 4096

/-- `STACK_SIZE` of `arch/arch.h`. -/
def STACK_SIZE : Nat := 0x4000

/-- `USER_STACK_TOP` of `arch/arch.h`. -/
def USER_STACK_TOP : Nat := 2 ^ 47 - 8192

/-- `~x` on a 64-bit word. -/
def not64 (x : Nat) : Nat := 2 ^ 64 - 1 - x

/-- `ALIGN_UP(NUM, WHAT)`. -/
def alignUp (num what : Nat) : Nat := (num + what - 1) % 2 ^ 64 &&& not64 (what - 1)

/-- `ALIGN_DOWN(NUM, WHAT)`. -/
def alignDown (num what : Nat) : Nat := num &&& not64 (what - 1)

theorem alignUp_page (x : Nat) :
    alignUp x PAGE_SIZE = (x + 4095) % 2 ^ 64 / 4096 * 4096 := by
  have hmask : not64 (PAGE_SIZE - 1) = 2 ^ 64 - 2 ^ 12 := by decide
  rw [alignUp, hmask, BitMask.and_field_mask (by decide), Nat.mod_mod]
  rfl

theorem alignDown_page {x : Nat} (hx : x < 2 ^ 64) :
    alignDown x PAGE_SIZE = x / 4096 * 4096 := by
  have hmask : not64 (PAGE_SIZE - 1) = 2 ^ 64 - 2 ^ 12 := by decide
  rw [alignDown, hmask, BitMask.and_field_mask (by decide), Nat.mod_eq_of_lt hx]
  rfl

/-- Conversion of a `size_t` to `int`. -/
def toInt (n : Nat) : Int := (BitVec.ofNat 32 n).toInt

/-- Conversion of an `int` or `off_t` to `size_t`. -/
def toSize (i : Int) : Nat := (BitVec.ofInt 64 i).toNat

/-- Arithmetic in an `int`. -/
def int32 (i : Int) : Int := (BitVec.ofInt 32 i).toInt

theorem toInt_of_lt {n : Nat} (h : n < 2 ^ 31) : toInt n = n := by
  unfold toInt
  rw [BitVec.toInt_ofNat']
  exact Int.bmod_eq_of_le (by omega) (by omega)

/-- A large `size_t` is a negative `int`. -/
theorem toInt_of_ge {n : Nat} (h1 : 2 ^ 31 ≤ n) (h2 : n < 2 ^ 32) : toInt n = n - 2 ^ 32 := by
  unfold toInt
  rw [BitVec.toInt_ofNat', Int.bmod_def]
  split <;> omega

theorem toInt_le (k : Nat) : toInt k ≤ k := by
  unfold toInt
  rw [BitVec.toInt_ofNat', Int.bmod_def]
  split <;> omega

theorem int32_of_lt {i : Int} (h1 : -2 ^ 31 ≤ i) (h2 : i < 2 ^ 31) : int32 i = i := by
  unfold int32
  rw [BitVec.toInt_ofInt]
  exact Int.bmod_eq_of_le (by omega) (by omega)

theorem toSize_of_nonneg {i : Int} (h0 : 0 ≤ i) (h : i < 2 ^ 63) : (toSize i : Int) = i := by
  unfold toSize
  rw [BitVec.toNat_ofInt]
  omega

/-! ### `memset` and `memcpy` -/

/-- `memset(s, c, n)`: the loop stores `c` at `s`, `s + 1`, ..., in order. -/
def memset (m : Mem) (s : Nat) (c : BitVec 8) : Nat → Mem
  | 0 => m
  | n + 1 => put (memset m s c n) (s + n) c

/-- `memcpy(to, from, n)`: bytes are copied in increasing order, each read from
the memory as the loop has left it. -/
def memcpy (m : Mem) (dest src : Nat) : Nat → Mem
  | 0 => m
  | n + 1 => put (memcpy m dest src n) (dest + n) (memcpy m dest src n (src + n))

theorem memset_apply (m : Mem) (s : Nat) (c : BitVec 8) (n x : Nat) :
    memset m s c n x = if s ≤ x ∧ x < s + n then c else m x := by
  induction n with
  | zero => simp [memset]
  | succ n ih =>
      by_cases hx : x = s + n
      · subst hx
        simp [memset]
      · rw [memset, put_ne hx, ih]
        by_cases h : s ≤ x ∧ x < s + n
        · rw [if_pos h, if_pos (by omega)]
        · rw [if_neg h, if_neg (by omega)]

theorem memset_eq (m : Mem) (s : Nat) (c : BitVec 8) (n : Nat) :
    memset m s c n = fun x => if s ≤ x ∧ x < s + n then c else m x :=
  funext fun x => memset_apply m s c n x

theorem memset_agree (m : Mem) (s : Nat) (c : BitVec 8) (n : Nat) {x : Nat}
    (h : x < s ∨ s + n ≤ x) : memset m s c n x = m x := by
  rw [memset_apply, if_neg (by omega)]

/-- Nothing outside the destination changes, wherever the source lies. -/
theorem memcpy_agree (m : Mem) (dest src n : Nat) {x : Nat} (h : x < dest ∨ dest + n ≤ x) :
    memcpy m dest src n x = m x := by
  induction n with
  | zero => rfl
  | succ n ih => rw [memcpy, put_ne (by omega), ih (by omega)]

/-- Copying bytes to where they are changes nothing. -/
theorem memcpy_self (m : Mem) (a n : Nat) : memcpy m a a n = m := by
  induction n with
  | zero => rfl
  | succ n ih => rw [memcpy, ih, put_self]

/-- A destination that was computed in 64 bits, and does not wrap. -/
theorem memcpy_dest_mod (m : Mem) {dest n : Nat} (src : Nat) (h : dest + n ≤ 2 ^ 64) :
    memcpy m (dest % 2 ^ 64) src n = memcpy m dest src n := by
  cases n with
  | zero => rfl
  | succ n => rw [Nat.mod_eq_of_lt (by omega)]

/-- A source byte outside the destination arrives, wherever the others lie. -/
theorem memcpy_byte (m : Mem) (dest src : Nat) {n i : Nat} (hi : i < n)
    (h : src + i < dest ∨ dest + n ≤ src + i) : memcpy m dest src n (dest + i) = m (src + i) := by
  induction n with
  | zero => omega
  | succ n ih =>
      by_cases hlast : i = n
      · subst hlast
        rw [memcpy, put_same, memcpy_agree _ _ _ _ (by omega)]
      · rw [memcpy, put_ne (by omega), ih (by omega) (by omega)]

/-- Copying between disjoint ranges moves the source bytes and nothing else. -/
theorem memcpy_apply (m : Mem) (dest src n x : Nat)
    (hd : dest + n ≤ src ∨ src + n ≤ dest) :
    memcpy m dest src n x
      = if dest ≤ x ∧ x < dest + n then m (src + (x - dest)) else m x := by
  induction n generalizing x with
  | zero => simp [memcpy]
  | succ n ih =>
      have ihs := ih (src + n) (by omega)
      rw [if_neg (by omega)] at ihs
      by_cases hx : x = dest + n
      · subst hx
        rw [memcpy, put_same, ihs, if_pos (by omega), Nat.add_sub_cancel_left]
      · rw [memcpy, put_ne hx, ih x (by omega)]
        by_cases h : dest ≤ x ∧ x < dest + n
        · rw [if_pos h, if_pos (by omega)]
        · rw [if_neg h, if_neg (by omega)]

/-- Where two memories agree after the same copy, if they agreed on `G` before it. -/
def copiedOn (G : Nat → Prop) (dest src : Nat) : Nat → Nat → Prop
  | 0 => G
  | n + 1 => fun x =>
    if x = dest + n then copiedOn G dest src n (src + n) else copiedOn G dest src n x

theorem agreeOn_memcpy {G : Nat → Prop} {m m' : Mem} (h : AgreeOn G m m') (dest src n : Nat) :
    AgreeOn (copiedOn G dest src n) (memcpy m dest src n) (memcpy m' dest src n) := by
  induction n with
  | zero => exact h
  | succ n ih =>
      intro x hx
      rw [memcpy, memcpy]
      simp only [copiedOn] at hx
      by_cases hlast : x = dest + n
      · rw [if_pos hlast] at hx
        rw [hlast, put_same, put_same, ih _ hx]
      · rw [if_neg hlast] at hx
        rw [put_ne hlast, put_ne hlast, ih x hx]

/-- A copy from `G` makes the two agree on the destination too. -/
theorem copiedOn_of_source {G : Nat → Prop} {dest src n : Nat} (hsrc : ∀ i < n, G (src + i))
    {x : Nat} (hx : G x ∨ dest ≤ x ∧ x < dest + n) : copiedOn G dest src n x := by
  induction n generalizing x with
  | zero => exact hx.resolve_right (by omega)
  | succ n ih =>
      have hprev : ∀ i < n, G (src + i) := fun i hi => hsrc i (by omega)
      simp only [copiedOn]
      split
      · exact ih hprev (.inl (hsrc n (by omega)))
      · exact ih hprev (hx.imp_right fun h => by omega)

/-- A copy from `G` keeps two memories that agree there in agreement. -/
theorem memcpy_agreeOn {G : Nat → Prop} {m m' : Mem} (h : AgreeOn G m m') (dest src : Nat) {n : Nat}
    (hsrc : ∀ i < n, G (src + i)) : AgreeOn G (memcpy m dest src n) (memcpy m' dest src n) :=
  (agreeOn_memcpy h dest src n).mono fun _ hx => copiedOn_of_source hsrc (.inl hx)

end BestOS
