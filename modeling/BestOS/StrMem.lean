/-
BestOS/StrMem.lean

The string functions of `lib/str.c` on bytes.

In `Str` a C string is a list and a pointer into it a suffix, so every loop ends
by its type.  Here the loops are those of the source: they run over a byte memory
until they read a NUL, and that they end is a theorem (`Returns`).

`strstr` has two cursors that both go back when two bytes differ.  What decides
one comparison is which of the rest of the string and the substring is a prefix
of the other (`strstrLoop_compare`); it follows that `strstr` finds the leftmost
occurrence (`strstrAt_spec`).
-/
import BestOS.Fuel
import BestOS.NulString
import BestOS.Vfs

namespace BestOS

open ByteMemory Fuel

/-! ### `strlen` -/

/-- The loop of `strlen`. -/
def strlenLoop (m : Mem) (str : Nat) : Nat → Nat → Option Nat
  | _, 0 => none
  | length, fuel + 1 =>
    if m (str + length) ≠ 0 then strlenLoop m str (length + 1) fuel else some length

/-- `strlen`. -/
def strlenAt (m : Mem) (str : Nat) (fuel : Nat) : Option Nat := strlenLoop m str 0 fuel

variable {m : Mem} {a b : Nat} {s t : List (BitVec 8)}

theorem strlenLoop_returns (hs : StringAt m a s) {k : Nat} (hk : k ≤ s.length) :
    Returns (strlenLoop m a k) s.length := by
  induction hk using Nat.decreasingInduction with
  | self => exact .now fun fuel => by rw [strlenLoop, if_neg (not_not_intro hs.nul)]
  | of_succ k hlt ih => exact ih.step fun fuel => by rw [strlenLoop, if_pos (hs.ne_zero hlt)]

theorem strlenAt_returns (hs : StringAt m a s) : Returns (strlenAt m a) s.length :=
  strlenLoop_returns hs (Nat.zero_le _)

/-! ### `strstr` -/

/-- The loop of `strstr`; NULL is `none`. -/
def strstrLoop (m : Mem) (substr : Nat) : Nat → Nat → Nat → Nat → Option (Option Nat)
  | _, _, _, 0 => none
  | str, a, b, fuel + 1 =>
    if m b = 0 then some (some str)
    else if m a = 0 then some none
    else if m a ≠ m b then strstrLoop m substr (str + 1) (str + 1) substr fuel
    else strstrLoop m substr str (a + 1) (b + 1) fuel

/-- `strstr`. -/
def strstrAt (m : Mem) (str substr : Nat) (fuel : Nat) : Option (Option Nat) :=
  strstrLoop m substr str str substr fuel

/-- One comparison: the substring is used up, or the string is, or two bytes
differ and the next one begins. -/
theorem strstrLoop_compare (hs : StringAt m a s) (ht : StringAt m b t) (str substr : Nat) :
    (t <+: s ∧ Returns (strstrLoop m substr str a b) (some str)) ∨
      (¬ t <+: s ∧ s <+: t ∧ Returns (strstrLoop m substr str a b) none) ∨
      (¬ t <+: s ∧ ¬ s <+: t ∧ ∀ r, Returns (strstrLoop m substr (str + 1) (str + 1) substr) r →
        Returns (strstrLoop m substr str a b) r) := by
  induction t generalizing a b s with
  | nil =>
    have hb : m b = 0 := ht
    exact .inl ⟨List.nil_prefix, .now fun fuel => by rw [strstrLoop, if_pos hb]⟩
  | cons c t ih =>
    obtain ⟨⟨hc, hb⟩, ht⟩ := ht
    rw [← hb] at hc
    cases s with
    | nil =>
      have ha : m a = 0 := hs
      refine .inr (.inl ⟨?_, List.nil_prefix, .now fun fuel => ?_⟩)
      · rw [List.prefix_nil]
        exact List.cons_ne_nil c t
      · rw [strstrLoop, if_neg hc, if_pos ha]
    | cons d s =>
      obtain ⟨⟨hd, ha⟩, hs⟩ := hs
      rw [← ha] at hd
      by_cases hdc : d = c
      · -- the two cursors move on together
        subst hdc
        have hstep : ∀ fuel,
            strstrLoop m substr str a b (fuel + 1) = strstrLoop m substr str (a + 1) (b + 1) fuel :=
          fun fuel => by
            rw [strstrLoop, if_neg hc, if_neg hd, if_neg (not_not_intro (ha.trans hb.symm))]
        rw [List.prefix_cons_inj, List.prefix_cons_inj]
        rcases ih hs ht with ⟨hp, h⟩ | ⟨hp, hq, h⟩ | ⟨hp, hq, h⟩
        · exact .inl ⟨hp, h.step hstep⟩
        · exact .inr (.inl ⟨hp, hq, h.step hstep⟩)
        · exact .inr (.inr ⟨hp, hq, fun r hr => (h r hr).step hstep⟩)
      · refine .inr (.inr ⟨?_, ?_, fun r hr => hr.step fun fuel => ?_⟩)
        · rw [List.cons_prefix_cons]
          exact fun h => hdc h.1.symm
        · rw [List.cons_prefix_cons]
          exact fun h => hdc h.1
        · rw [strstrLoop, if_neg hc, if_neg hd, if_pos]
          rw [ha, hb]
          exact hdc

/-- The leftmost occurrence of `t` in `s` is at position `i`. -/
def LeftmostAt (t s : List (BitVec 8)) (i : Nat) : Prop :=
  t <+: s.drop i ∧ ∀ j < i, ¬ t <+: s.drop j

/-- **`strstr`** ends, at the leftmost occurrence or with NULL. -/
theorem strstrAt_spec (hs : StringAt m a s) (ht : StringAt m b t) :
    (∃ i, LeftmostAt t s i ∧ Returns (strstrAt m a b) (some (a + i))) ∨
      (¬ t <:+: s ∧ Returns (strstrAt m a b) none) := by
  induction s generalizing a with
  | nil =>
    rcases strstrLoop_compare hs ht a b with ⟨hp, h⟩ | ⟨hp, -, h⟩ | ⟨-, hq, -⟩
    · exact .inl ⟨0, ⟨hp, fun j hj => absurd hj (Nat.not_lt_zero j)⟩, h⟩
    · exact .inr ⟨fun hin => hp (List.prefix_nil.mpr (List.infix_nil.mp hin)), h⟩
    · exact absurd List.nil_prefix hq
  | cons c s ih =>
    rcases strstrLoop_compare hs ht a b with ⟨hp, h⟩ | ⟨hp, hq, h⟩ | ⟨hp, -, h⟩
    · exact .inl ⟨0, ⟨hp, fun j hj => absurd hj (Nat.not_lt_zero j)⟩, h⟩
    · -- the string is too short to hold the substring
      refine .inr ⟨fun hin => hp ?_, h⟩
      have heq := hq.eq_of_length (Nat.le_antisymm hq.length_le hin.length_le)
      exact ⟨[], by rw [List.append_nil, heq]⟩
    · rcases ih hs.2 with ⟨i, ⟨hat, hbefore⟩, hr⟩ | ⟨hno, hr⟩
      · refine .inl ⟨i + 1, ⟨hat, fun j hj => ?_⟩, ?_⟩
        · cases j with
          | zero => exact hp
          | succ j => exact hbefore j (Nat.lt_of_succ_lt_succ hj)
        · have hmoved := h _ hr
          rwa [show a + 1 + i = a + (i + 1) by omega] at hmoved
      · refine .inr ⟨fun hin => ?_, h _ hr⟩
        exact (List.infix_cons_iff.mp hin).elim hp hno

/-! ### Slashes -/

/-- `'/'`. -/
def SLASH : BitVec 8 := 0x2F

/-- `strstr(s, "/")` is the first slash. -/
theorem strstrAt_slash (hs : StringAt m a s) (hb : StringAt m b [SLASH]) :
    (SLASH ∉ s ∧ Returns (strstrAt m a b) none) ∨
      ∃ x y, s = x ++ SLASH :: y ∧ SLASH ∉ x ∧ Returns (strstrAt m a b) (some (a + x.length)) := by
  rcases strstrAt_spec hs hb with ⟨i, ⟨⟨y, hy⟩, hbefore⟩, hr⟩ | ⟨hno, hr⟩
  · have hi : i < s.length := by
      by_contra hge
      rw [List.drop_eq_nil_of_le (Nat.not_lt.mp hge)] at hy
      cases hy
    refine .inr ⟨s.take i, y, ?_, fun hmem => ?_, ?_⟩
    · rw [← List.singleton_append, hy, List.take_append_drop]
    · obtain ⟨j, hj, hjs⟩ := List.mem_take_iff_getElem.mp hmem
      refine hbefore j (by omega) ⟨s.drop (j + 1), ?_⟩
      rw [List.drop_eq_getElem_cons (i := j) (by omega), hjs, List.singleton_append]
    · rwa [List.length_take, Nat.min_eq_left (Nat.le_of_lt hi)]
  · refine .inl ⟨fun hmem => hno ?_, hr⟩
    obtain ⟨x, y, rfl⟩ := List.append_of_mem hmem
    exact ⟨x, y, by rw [List.append_assoc, List.singleton_append]⟩

/-- The characters of a byte string. -/
def chars (s : List (BitVec 8)) : CString := s.map fun b => Char.ofNat b.toNat

theorem toNat_char (b : BitVec 8) : (Char.ofNat b.toNat).toNat = b.toNat := by
  have hvalid : b.toNat.isValidChar := .inl (by have := b.isLt; omega)
  rw [Char.ofNat, dif_pos hvalid]
  rfl

theorem char_eq_slash {b : BitVec 8} : Char.ofNat b.toNat = '/' ↔ b = SLASH := by
  constructor
  · intro h
    apply BitVec.eq_of_toNat_eq
    rw [← toNat_char b, h]
    rfl
  · rintro rfl
    rfl

/-- The pieces between slashes are the same on bytes and on characters. -/
theorem chars_splitOn (s : List (BitVec 8)) :
    (chars s).splitOn '/' = (s.splitOn SLASH).map chars := by
  induction s with
  | nil => rfl
  | cons c s ih =>
    rw [chars, List.map_cons, List.splitOn_cons_eq_if_modifyHead, List.splitOn_cons_eq_if_modifyHead]
    by_cases hc : c = SLASH
    · rw [if_pos (beq_iff_eq.mpr (char_eq_slash.mpr hc)), if_pos (beq_iff_eq.mpr hc), List.map_cons,
        ← ih]
      rfl
    · rw [if_neg (fun h => hc (char_eq_slash.mp (beq_iff_eq.mp h))),
        if_neg (fun h => hc (beq_iff_eq.mp h))]
      show List.modifyHead _ ((chars s).splitOn '/') = _
      rw [ih]
      cases s.splitOn SLASH <;> rfl

/-! ### A path of letters -/

/-- A memory with `"/"` at `0x1000`, and a slash and `n` letters at `0x2000`. -/
def pathMemory (n : Nat) : Mem := fun x =>
  if x = 0x1000 ∨ x = 0x2000 then SLASH
  else if 0x2000 < x ∧ x ≤ 0x2000 + n then 0x61
  else 0

theorem pathMemory_slash (n : Nat) : StringAt (pathMemory n) 0x1000 [SLASH] :=
  ⟨⟨by decide, rfl⟩, rfl⟩

theorem pathMemory_path (n : Nat) :
    StringAt (pathMemory n) 0x2000 (SLASH :: List.replicate n 0x61) := by
  have hfirst : pathMemory n 0x2000 = SLASH := rfl
  refine ⟨⟨by decide, hfirst⟩, stringAt_iff.mpr ⟨?_, fun i hi => ?_, ?_⟩⟩
  · rw [List.mem_replicate]
    exact fun h => absurd h.2 (by decide)
  · rw [List.length_replicate] at hi
    rw [List.getElem_replicate, pathMemory, if_neg (by omega), if_pos (by omega)]
  · rw [List.length_replicate, pathMemory, if_neg (by omega), if_neg (by omega)]

end BestOS
