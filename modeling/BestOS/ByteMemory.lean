/-
BestOS/ByteMemory.lean

A flat byte memory, independent of any particular program.

An address is a natural number and a memory is a total function to bytes.
Multi-byte values are little-endian: `readLE m a n` reads the `n` bytes at
`a`, `writeLE m a n v` stores the low `n` bytes of `v` there.

The three facts every client uses are

* `readLE_writeLE_same`  — a store is read back modulo `256 ^ n`;
* `readLE_congr`         — a load depends only on the bytes it covers;
* `writeLE_agree`        — a store changes nothing outside its range.

`AgreeOn P m m'` says two memories agree on the addresses in `P`; frame
conditions of larger operations are stated with it.
-/
import Mathlib.Data.Nat.Bitwise
import Mathlib.Tactic.Common
import Mathlib.Tactic.Ring

namespace ByteMemory

/-- A byte-addressed memory. -/
abbrev Mem := Nat → BitVec 8

/-- Store one byte. -/
def put (m : Mem) (a : Nat) (b : BitVec 8) : Mem := fun x => if x = a then b else m x

@[simp] theorem put_same (m : Mem) (a : Nat) (b : BitVec 8) : put m a b a = b := by
  simp [put]

theorem put_ne {m : Mem} {a x : Nat} {b : BitVec 8} (h : x ≠ a) : put m a b x = m x := by
  simp [put, h]

theorem put_self (m : Mem) (a : Nat) : put m a (m a) = m := by
  funext x
  by_cases hx : x = a
  · rw [hx, put_same]
  · rw [put_ne hx]

/-! ### Agreement on a set of addresses -/

/-- Two memories agree on every address satisfying `P`. -/
def AgreeOn (P : Nat → Prop) (m m' : Mem) : Prop := ∀ a, P a → m' a = m a

theorem AgreeOn.refl (P : Nat → Prop) (m : Mem) : AgreeOn P m m := fun _ _ => rfl

theorem AgreeOn.trans {P : Nat → Prop} {m₁ m₂ m₃ : Mem}
    (h₁ : AgreeOn P m₁ m₂) (h₂ : AgreeOn P m₂ m₃) : AgreeOn P m₁ m₃ := by
  intro a ha
  rw [h₂ a ha, h₁ a ha]

theorem AgreeOn.mono {P Q : Nat → Prop} {m m' : Mem} (h : AgreeOn Q m m')
    (hPQ : ∀ a, P a → Q a) : AgreeOn P m m' := fun a ha => h a (hPQ a ha)

/-- A store of the same byte into both makes them agree on it. -/
theorem AgreeOn.put {P : Nat → Prop} {m m' : Mem} (h : AgreeOn P m m') (a : Nat) (b : BitVec 8) :
    AgreeOn (fun x => P x ∨ x = a) (put m a b) (put m' a b) := by
  intro x hx
  by_cases hxa : x = a
  · rw [hxa, put_same, put_same]
  · rw [put_ne hxa, put_ne hxa, h x (hx.resolve_right hxa)]

/-! ### Little-endian loads and stores -/

/-- The little-endian value of the `n` bytes at `a`. -/
def readLE (m : Mem) (a : Nat) : Nat → Nat
  | 0 => 0
  | n + 1 => (m a).toNat + 256 * readLE m (a + 1) n

/-- Store the low `n` bytes of `v` at `a`, least significant first. -/
def writeLE (m : Mem) (a : Nat) : Nat → Nat → Mem
  | 0, _ => m
  | n + 1, v => writeLE (put m a (BitVec.ofNat 8 v)) (a + 1) n (v / 256)

theorem readLE_lt (m : Mem) (a n : Nat) : readLE m a n < 256 ^ n := by
  induction n generalizing a with
  | zero => simp [readLE]
  | succ n ih =>
      have hb : (m a).toNat < 256 := (m a).isLt
      have hr := ih (a + 1)
      have hpow : 256 ^ (n + 1) = 256 * 256 ^ n := by rw [pow_succ, Nat.mul_comm]
      simp only [readLE]
      omega

/-- A load depends only on the bytes it covers. -/
theorem readLE_congr {m m' : Mem} {a n : Nat}
    (h : ∀ x, a ≤ x → x < a + n → m' x = m x) : readLE m' a n = readLE m a n := by
  induction n generalizing a with
  | zero => rfl
  | succ n ih =>
      have ha : m' a = m a := h a (by omega) (by omega)
      have hrest : readLE m' (a + 1) n = readLE m (a + 1) n :=
        ih fun x h1 h2 => h x (by omega) (by omega)
      simp only [readLE, ha, hrest]

/-- A load from smaller bytes is smaller. -/
theorem readLE_le {m m' : Mem} {a n : Nat} (h : ∀ x < n, (m' (a + x)).toNat ≤ (m (a + x)).toNat) :
    readLE m' a n ≤ readLE m a n := by
  induction n generalizing a with
  | zero => exact Nat.le_refl _
  | succ n ih =>
    have hhead : (m' a).toNat ≤ (m a).toNat := h 0 (Nat.succ_pos n)
    have htail := ih (a := a + 1) fun x hx => by
      have := h (x + 1) (by omega)
      rwa [show a + (x + 1) = a + 1 + x by omega] at this
    simp only [readLE]
    omega

/-- Loading from zeroed bytes gives zero. -/
theorem readLE_zero {m : Mem} {a n : Nat} (h : ∀ x, a ≤ x → x < a + n → m x = 0#8) :
    readLE m a n = 0 := by
  induction n generalizing a with
  | zero => rfl
  | succ n ih =>
      have ha : m a = 0#8 := h a (by omega) (by omega)
      have hrest : readLE m (a + 1) n = 0 := ih fun x h1 h2 => h x (by omega) (by omega)
      simp [readLE, ha, hrest]

/-- A store changes nothing outside `[a, a + n)`. -/
theorem writeLE_agree (m : Mem) (a n v : Nat) {x : Nat} (h : x < a ∨ a + n ≤ x) :
    writeLE m a n v x = m x := by
  induction n generalizing m a v with
  | zero => rfl
  | succ n ih =>
      rw [writeLE, ih _ _ _ (by omega), put_ne (by omega)]

/-- A store is read back, modulo the width. -/
theorem readLE_writeLE_same (m : Mem) (a n v : Nat) :
    readLE (writeLE m a n v) a n = v % 256 ^ n := by
  induction n generalizing m a v with
  | zero => simp [readLE, Nat.mod_one]
  | succ n ih =>
      have hlow : writeLE (put m a (BitVec.ofNat 8 v)) (a + 1) n (v / 256) a
          = BitVec.ofNat 8 v := by
        rw [writeLE_agree _ _ _ _ (by omega), put_same]
      have hpow : 256 ^ (n + 1) = 256 * 256 ^ n := by rw [pow_succ, Nat.mul_comm]
      rw [writeLE, readLE, ih, hlow, hpow, Nat.mod_mul]
      simp

/-- A load misses a store to a disjoint range. -/
theorem readLE_writeLE_disjoint (m : Mem) {a b n k v : Nat} (h : b + k ≤ a ∨ a + n ≤ b) :
    readLE (writeLE m a n v) b k = readLE m b k :=
  readLE_congr fun _ h1 h2 => writeLE_agree m a n v (by omega)

end ByteMemory
