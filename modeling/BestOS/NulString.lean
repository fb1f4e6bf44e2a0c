/-
BestOS/NulString.lean

Strings that end with NUL in a byte memory, independent of any particular
program.

`StringAt m a s` says that the bytes of `s` stand at `a`, that none of them is
NUL, and that a NUL follows.  There is one such string at an address
(`StringAt.unique`), it depends only on the bytes it covers
(`StringAt.congr`), and behind any part of it the rest is a string again
(`stringAt_append`).
-/
import BestOS.ByteLayout

namespace ByteMemory

/-- The string at `a` is `s`. -/
def StringAt (m : Mem) (a : Nat) : List (BitVec 8) → Prop
  | [] => m a = 0
  | b :: s => (b ≠ 0 ∧ m a = b) ∧ StringAt m (a + 1) s

instance decidableStringAt (m : Mem) (a : Nat) : (s : List (BitVec 8)) → Decidable (StringAt m a s)
  | [] => inferInstanceAs (Decidable (m a = 0))
  | _ :: s =>
    have := decidableStringAt m (a + 1) s
    inferInstanceAs (Decidable (_ ∧ _))

variable {m m' : Mem} {a a' : Nat} {s t : List (BitVec 8)}

/-- What is read at `a` and behind it, byte by byte. -/
theorem stringAt_iff :
    StringAt m a s ↔ 0 ∉ s ∧ (∀ i (h : i < s.length), m (a + i) = s[i]) ∧ m (a + s.length) = 0 := by
  induction s generalizing a with
  | nil => simp [StringAt]
  | cons b s ih =>
    rw [StringAt, ih, List.mem_cons, not_or]
    have hrest : ∀ i, a + 1 + i = a + (i + 1) := fun i => by omega
    constructor
    · rintro ⟨⟨hb, hfirst⟩, hnul, hall, hend⟩
      refine ⟨⟨Ne.symm hb, hnul⟩, fun i hi => ?_, hrest s.length ▸ hend⟩
      cases i with
      | zero => exact hfirst
      | succ i => exact hrest i ▸ hall i (Nat.lt_of_succ_lt_succ hi)
    · rintro ⟨⟨hb, hnul⟩, hall, hend⟩
      refine ⟨⟨Ne.symm hb, hall 0 (Nat.succ_pos _)⟩, hnul, fun i hi => ?_, (hrest s.length).symm ▸ hend⟩
      rw [hrest]
      exact hall (i + 1) (Nat.succ_lt_succ hi)

theorem StringAt.nul_not_mem (h : StringAt m a s) : 0 ∉ s := (stringAt_iff.mp h).1

theorem StringAt.get (h : StringAt m a s) {i : Nat} (hi : i < s.length) : m (a + i) = s[i] :=
  (stringAt_iff.mp h).2.1 i hi

theorem StringAt.nul (h : StringAt m a s) : m (a + s.length) = 0 := (stringAt_iff.mp h).2.2

/-- Inside the string there is no NUL. -/
theorem StringAt.ne_zero (h : StringAt m a s) {i : Nat} (hi : i < s.length) : m (a + i) ≠ 0 := by
  rw [h.get hi]
  exact fun hz => h.nul_not_mem (hz ▸ List.getElem_mem hi)

/-- A string depends only on its bytes, wherever they are seen. -/
theorem StringAt.congr (h : StringAt m a s) (heq : ∀ i ≤ s.length, m' (a' + i) = m (a + i)) :
    StringAt m' a' s := by
  refine stringAt_iff.mpr ⟨h.nul_not_mem, fun i hi => ?_, ?_⟩
  · rw [heq i (Nat.le_of_lt hi), h.get hi]
  · rw [heq _ (Nat.le_refl _), h.nul]

theorem StringAt.unique (h : StringAt m a s) (h' : StringAt m a t) : s = t := by
  induction s generalizing a t with
  | nil =>
    cases t with
    | nil => rfl
    | cons c t => exact absurd (h'.1.2.symm.trans h) h'.1.1
  | cons b s ih =>
    cases t with
    | nil => exact absurd (h.1.2.symm.trans h') h.1.1
    | cons c t => rw [show b = c from h.1.2.symm.trans h'.1.2, ih h.2 h'.2]

/-- A string in two parts; the second one is a string of its own. -/
theorem stringAt_append :
    StringAt m a (s ++ t) ↔ (0 ∉ s ∧ BytesAt m a s) ∧ StringAt m (a + s.length) t := by
  induction s generalizing a with
  | nil => simp [BytesAt]
  | cons b s ih =>
    rw [List.cons_append, StringAt, ih, BytesAt, List.mem_cons, not_or, List.length_cons,
      show a + 1 + s.length = a + (s.length + 1) by omega]
    constructor
    · rintro ⟨⟨hb, hfirst⟩, ⟨hnul, hbytes⟩, ht⟩
      exact ⟨⟨⟨Ne.symm hb, hnul⟩, hfirst, hbytes⟩, ht⟩
    · rintro ⟨⟨⟨hb, hnul⟩, hfirst, hbytes⟩, ht⟩
      exact ⟨⟨Ne.symm hb, hfirst⟩, ⟨hnul, hbytes⟩, ht⟩

/-- Bytes without NUL, and a NUL behind them. -/
theorem BytesAt.stringAt (h : BytesAt m a s) (h0 : 0 ∉ s) (hnul : m (a + s.length) = 0) :
    StringAt m a s := by
  rw [← List.append_nil s, stringAt_append]
  exact ⟨⟨h0, h⟩, hnul⟩

theorem StringAt.drop (h : StringAt m a s) {k : Nat} (hk : k ≤ s.length) :
    StringAt m (a + k) (s.drop k) := by
  rw [← List.take_append_drop k s, stringAt_append, List.length_take, Nat.min_eq_left hk] at h
  exact h.2

end ByteMemory
