/-
BestOS/HeapCopy.lean

`liballoc_memset` and `liballoc_memcpy` inside the kernel's window.

A loop over pointers of the window is one change of memory: `cleared` for the first and
`moved` for the second, which copies words first and then what is left, byte by byte.
Between ranges that do not meet the two loops of `liballoc_memcpy` are one copy
(`liballocMemcpy_eq`).
-/
import BestOS.HeapTags

namespace BestOS

open ByteMemory BlockHeap

variable {h : LibAlloc} {m : Mem} {d s n w i k p : Nat}

/-! ### Changes of memory -/

/-- Memory with `n` bytes at `d` that are `c`. -/
def cleared (m : Mem) (d : Nat) (c : BitVec 8) (n : Nat) : Mem :=
  fun x => if d ≤ x ∧ x < d + n then c else m x

/-- Memory with the `n` bytes of `s` at `d`. -/
def moved (m : Mem) (d s n : Nat) : Mem :=
  fun x => if d ≤ x ∧ x < d + n then m (s + (x - d)) else m x

theorem cleared_succ (m : Mem) (d : Nat) (c : BitVec 8) (n : Nat) :
    put (cleared m d c n) (d + n) c = cleared m d c (n + 1) := by
  funext x
  unfold cleared put
  by_cases hx : x = d + n
  · rw [if_pos hx, if_pos (by omega)]
  · rw [if_neg hx]
    exact if_congr (by omega) rfl rfl

/-- A store of what a load has found. -/
theorem writeLE_readLE (m m' : Mem) (a b w : Nat) (x : Nat) :
    writeLE m a w (readLE m' b w) x = if a ≤ x ∧ x < a + w then m' (b + (x - a)) else m x := by
  induction w generalizing m a b with
  | zero =>
    rw [if_neg (by omega)]
    rfl
  | succ w ih =>
    have hlow : BitVec.ofNat 8 ((m' b).toNat + 256 * readLE m' (b + 1) w) = m' b := by
      refine BitVec.eq_of_toNat_eq ?_
      have hb := (m' b).isLt
      rw [BitVec.toNat_ofNat]
      omega
    have hhigh : ((m' b).toNat + 256 * readLE m' (b + 1) w) / 256 = readLE m' (b + 1) w := by
      have hb := (m' b).isLt
      omega
    rw [readLE, writeLE, hlow, hhigh, ih]
    by_cases hx : a + 1 ≤ x ∧ x < a + 1 + w
    · rw [if_pos hx, if_pos (by omega), show b + 1 + (x - (a + 1)) = b + (x - a) by omega]
    · rw [if_neg hx]
      by_cases hxa : x = a
      · rw [hxa, put_same, if_pos (by omega), Nat.sub_self, Nat.add_zero]
      · rw [put_ne hxa, if_neg (by omega)]

/-- One round of a copy between ranges that do not meet. -/
theorem moved_add (h : Apart d (n + w) s (n + w)) :
    writeLE (moved m d s n) (d + n) w (readLE (moved m d s n) (s + n) w) = moved m d s (n + w) := by
  funext x
  rw [writeLE_readLE]
  by_cases hx : d + n ≤ x ∧ x < d + n + w
  · have hsrc : ¬ (d ≤ s + n + (x - (d + n)) ∧ s + n + (x - (d + n)) < d + n) := by
      rcases h with h | h <;> omega
    rw [if_pos hx, moved, if_neg hsrc, moved, if_pos (by omega),
      show s + n + (x - (d + n)) = s + (x - d) by omega]
  · rw [if_neg hx, moved, moved]
    exact if_congr (by omega) rfl rfl

/-- A copy goes on where the last one has stopped. -/
theorem moved_moved (h : Apart d (n + k) s (n + k)) :
    moved (moved m d s n) (d + n) (s + n) k = moved m d s (n + k) := by
  funext x
  unfold moved
  by_cases hx : d + n ≤ x ∧ x < d + n + k
  · have hsrc : ¬ (d ≤ s + n + (x - (d + n)) ∧ s + n + (x - (d + n)) < d + n) := by
      rcases h with h | h <;> omega
    rw [if_pos hx, if_neg hsrc, if_pos (by omega),
      show s + n + (x - (d + n)) = s + (x - d) by omega]
  · rw [if_neg hx]
    exact if_congr (by omega) rfl rfl

/-! ### The two functions -/

namespace LibAlloc

/-- The heap with another memory. -/
def fill (h : LibAlloc) (m : Mem) : LibAlloc := { h with machine := { h.machine with mem := m } }

@[simp] theorem fill_mem (h : LibAlloc) (m : Mem) : (h.fill m).machine.mem = m := rfl

@[simp] theorem fill_fill (h : LibAlloc) (m m' : Mem) : (h.fill m).fill m' = h.fill m' := rfl

@[simp] theorem fill_self (h : LibAlloc) : h.fill h.machine.mem = h := rfl

theorem store_eq (h : LibAlloc) (p n v : Nat) :
    h.store p n v = h.fill (writeLE h.machine.mem (physical p) n v) := rfl

theorem store_one (h : LibAlloc) (p v : Nat) :
    h.store p 1 v = h.fill (put h.machine.mem (physical p) (BitVec.ofNat 8 v)) := rfl

end LibAlloc

/-- A pointer further on in the window. -/
theorem physical_add (h1 : MMAP_IO_BASE ≤ p) (h2 : p + i < 2 ^ 64) :
    physical ((p + i) % 2 ^ 64) = physical p + i := by
  rw [Nat.mod_eq_of_lt h2, physical_eq (Nat.le_add_right_of_le h1) h2, physical_eq h1 (by omega)]
  omega

theorem liballocMemset_eq (h1 : MMAP_IO_BASE ≤ p) (c : Nat) (h2 : p + n ≤ 2 ^ 64) :
    liballocMemset h p c n
      = h.fill (cleared h.machine.mem (physical p) (BitVec.ofNat 8 c) n) := by
  induction n with
  | zero =>
    have hnone : cleared h.machine.mem (physical p) (BitVec.ofNat 8 c) 0 = h.machine.mem := by
      funext x
      exact if_neg (by omega)
    rw [liballocMemset, hnone, LibAlloc.fill_self]
  | succ n ih =>
    rw [liballocMemset, ih (by omega), LibAlloc.store_one, physical_add h1 (by omega),
      LibAlloc.fill_mem, cleared_succ, LibAlloc.fill_fill]

theorem moved_zero (m : Mem) (d s : Nat) : moved m d s 0 = m := by
  funext x
  exact if_neg (by omega)

theorem copyWords_eq (hd : MMAP_IO_BASE ≤ d) (hs : MMAP_IO_BASE ≤ s) (hd' : d + 4 * n ≤ 2 ^ 64)
    (hs' : s + 4 * n ≤ 2 ^ 64) (hap : Apart (physical d) (4 * n) (physical s) (4 * n)) :
    copyWords h d s n = h.fill (moved h.machine.mem (physical d) (physical s) (4 * n)) := by
  induction n with
  | zero => rw [copyWords, moved_zero, LibAlloc.fill_self]
  | succ n ih =>
    have hround := moved_add (m := h.machine.mem) (n := 4 * n) (w := 4) hap
    rw [copyWords, ih (by omega) (by omega)
      (hap.mono (Nat.le_refl _) (by omega) (Nat.le_refl _) (by omega)),
      LibAlloc.store_eq, LibAlloc.load, LibAlloc.fill_mem, physical_add hd (by omega),
      physical_add hs (by omega), LibAlloc.fill_fill, hround, Nat.mul_succ]

theorem copyBytes_eq (hd : MMAP_IO_BASE ≤ d) (hs : MMAP_IO_BASE ≤ s) (hd' : d + n ≤ 2 ^ 64)
    (hs' : s + n ≤ 2 ^ 64) (hap : Apart (physical d) n (physical s) n) :
    copyBytes h d s n = h.fill (moved h.machine.mem (physical d) (physical s) n) := by
  induction n with
  | zero => rw [copyBytes, moved_zero, LibAlloc.fill_self]
  | succ n ih =>
    rw [copyBytes, ih (by omega) (by omega)
      (hap.mono (Nat.le_refl _) (by omega) (Nat.le_refl _) (by omega)),
      LibAlloc.store_eq, LibAlloc.load, LibAlloc.fill_mem, physical_add hd (by omega),
      physical_add hs (by omega), LibAlloc.fill_fill, moved_add hap]

/-- **`liballoc_memcpy`** between ranges that do not meet. -/
theorem liballocMemcpy_eq (hd : MMAP_IO_BASE ≤ d) (hs : MMAP_IO_BASE ≤ s) (hd' : d + n < 2 ^ 64)
    (hs' : s + n < 2 ^ 64) (hap : Apart d n s n) :
    liballocMemcpy h d s n = h.fill (moved h.machine.mem (physical d) (physical s) n) := by
  have hphys := physical_apart hd hs (by omega) (by omega) hap
  have hn : 4 * (n / 4) + n % 4 = n := Nat.div_add_mod n 4
  have hd₁ : (d + 4 * (n / 4)) % 2 ^ 64 = d + 4 * (n / 4) := Nat.mod_eq_of_lt (by omega)
  have hs₁ : (s + 4 * (n / 4)) % 2 ^ 64 = s + 4 * (n / 4) := Nat.mod_eq_of_lt (by omega)
  have hpd := physical_add (i := 4 * (n / 4)) hd (by omega)
  have hps := physical_add (i := 4 * (n / 4)) hs (by omega)
  rw [hd₁] at hpd
  rw [hs₁] at hps
  have hwords := copyWords_eq (h := h) (n := n / 4) hd hs (by omega) (by omega)
    (hphys.mono (Nat.le_refl _) (by omega) (Nat.le_refl _) (by omega))
  unfold liballocMemcpy
  dsimp only
  rw [hwords, hd₁, hs₁, copyBytes_eq (by omega) (by omega) (by omega) (by omega)
    (by rw [hpd, hps]; exact hphys.mono (by omega) (by omega) (by omega) (by omega)),
    LibAlloc.fill_mem, LibAlloc.fill_fill, hpd, hps, moved_moved (by rwa [hn]), hn]

end BestOS
