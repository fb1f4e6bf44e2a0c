/-
BestOS/ByteLayout.lean

Strings and blocks of words in a byte memory, independent of any particular
program.

`BytesAt m a bs` and `WordsAt m a ws` say what stands at `a`, byte by byte and
word by word (a word is eight bytes, little-endian).  Both depend only on the
bytes they cover (`BytesAt.congr`, `WordsAt.congr`), which is how a fact about
one memory is carried to a view of it at other addresses.

`Block m₀ top m a ws` is the state of a stack of words that grows down from
`top`: the words `ws` stand at `a`, they reach up to `top`, and outside of them
memory is still `m₀`.  Pushing a word or an array keeps it.

The last section is about the bytes that stores reach: they are the ones where the
result is the same for all memories.
-/
import BestOS.ByteMemory

namespace ByteMemory

/-! ### Byte strings -/

/-- Store the bytes `bs` from `a` on, in order. -/
def putBytes (m : Mem) (a : Nat) : List (BitVec 8) → Mem
  | [] => m
  | b :: bs => putBytes (put m a b) (a + 1) bs

/-- The bytes from `a` on are `bs`. -/
def BytesAt (m : Mem) (a : Nat) : List (BitVec 8) → Prop
  | [] => True
  | b :: bs => m a = b ∧ BytesAt m (a + 1) bs

theorem putBytes_agree (m : Mem) (a : Nat) (bs : List (BitVec 8)) {x : Nat}
    (h : x < a ∨ a + bs.length ≤ x) : putBytes m a bs x = m x := by
  induction bs generalizing m a with
  | nil => rfl
  | cons b bs ih =>
    rw [List.length_cons] at h
    rw [putBytes, ih _ _ (by omega), put_ne (by omega)]

/-- A string depends only on the bytes it covers, wherever they are seen. -/
theorem BytesAt.congr {m m' : Mem} {a a' : Nat} {bs : List (BitVec 8)} (h : BytesAt m a bs)
    (heq : ∀ i < bs.length, m' (a' + i) = m (a + i)) : BytesAt m' a' bs := by
  induction bs generalizing a a' with
  | nil => trivial
  | cons b bs ih =>
    refine ⟨(heq 0 (Nat.succ_pos _)).trans h.1, ih h.2 fun i hi => ?_⟩
    have hi' := heq (i + 1) (Nat.succ_lt_succ hi)
    rw [show a' + 1 + i = a' + (i + 1) by omega, show a + 1 + i = a + (i + 1) by omega]
    exact hi'

theorem bytesAt_putBytes (m : Mem) (a : Nat) (bs : List (BitVec 8)) :
    BytesAt (putBytes m a bs) a bs := by
  induction bs generalizing m a with
  | nil => trivial
  | cons b bs ih =>
    refine ⟨?_, ih _ _⟩
    rw [putBytes, putBytes_agree _ _ _ (.inl (Nat.lt_succ_self a)), put_same]

/-- The `n` bytes from `a` on. -/
def bytesFrom (m : Mem) (a : Nat) : Nat → List (BitVec 8)
  | 0 => []
  | n + 1 => m a :: bytesFrom m (a + 1) n

@[simp] theorem length_bytesFrom (m : Mem) (a n : Nat) : (bytesFrom m a n).length = n := by
  induction n generalizing a with
  | zero => rfl
  | succ n ih => rw [bytesFrom, List.length_cons, ih]

theorem bytesAt_bytesFrom (m : Mem) (a n : Nat) : BytesAt m a (bytesFrom m a n) := by
  induction n generalizing a with
  | zero => trivial
  | succ n ih => exact ⟨rfl, ih (a + 1)⟩

/-- The bytes depend only on themselves. -/
theorem bytesFrom_congr {m m' : Mem} {a n : Nat} (h : ∀ i < n, m' (a + i) = m (a + i)) :
    bytesFrom m' a n = bytesFrom m a n := by
  induction n generalizing a with
  | zero => rfl
  | succ n ih =>
    have hrest : bytesFrom m' (a + 1) n = bytesFrom m (a + 1) n := by
      refine ih fun i hi => ?_
      have hi' := h (i + 1) (Nat.succ_lt_succ hi)
      rwa [show a + (i + 1) = a + 1 + i by omega] at hi'
    have hhead : m' a = m a := h 0 (Nat.succ_pos n)
    rw [bytesFrom, bytesFrom, hrest, hhead]

theorem getElem?_bytesFrom (m : Mem) (a : Nat) {i n : Nat} (h : i < n) :
    (bytesFrom m a n)[i]? = some (m (a + i)) := by
  induction n generalizing a i with
  | zero => exact absurd h (Nat.not_lt_zero i)
  | succ n ih =>
    cases i with
    | zero => rfl
    | succ i =>
      rw [bytesFrom, List.getElem?_cons_succ, ih (a + 1) (Nat.lt_of_succ_lt_succ h),
        show a + 1 + i = a + (i + 1) by omega]

theorem bytesFrom_add (m : Mem) (a n k : Nat) :
    bytesFrom m a (n + k) = bytesFrom m a n ++ bytesFrom m (a + n) k := by
  induction n generalizing a with
  | zero => rw [Nat.zero_add, bytesFrom, List.nil_append, Nat.add_zero]
  | succ n ih =>
    rw [show n + 1 + k = n + k + 1 by omega, bytesFrom, ih, bytesFrom, List.cons_append,
      show a + 1 + n = a + (n + 1) by omega]

/-- A list is the bytes from `a` on if each of them is. -/
theorem bytesFrom_eq {m : Mem} {a : Nat} {bs : List (BitVec 8)}
    (h : ∀ i v, bs[i]? = some v → m (a + i) = v) : bytesFrom m a bs.length = bs := by
  refine List.ext_getElem? fun i => ?_
  by_cases hi : i < bs.length
  · rw [getElem?_bytesFrom m a hi, List.getElem?_eq_getElem hi,
      h i _ (List.getElem?_eq_getElem hi)]
  · rw [List.getElem?_eq_none (by rw [length_bytesFrom]; omega), List.getElem?_eq_none (by omega)]

theorem bytesAt_append {m : Mem} {a : Nat} {bs cs : List (BitVec 8)} :
    BytesAt m a (bs ++ cs) ↔ BytesAt m a bs ∧ BytesAt m (a + bs.length) cs := by
  induction bs generalizing a with
  | nil => exact (and_iff_right trivial).symm
  | cons b bs ih =>
    rw [List.cons_append, BytesAt, BytesAt, ih, List.length_cons, and_assoc,
      show a + 1 + bs.length = a + (bs.length + 1) by omega]

/-! ### Blocks of words -/

/-- Store the words `ws` from `a` on, in order. -/
def writeWords (m : Mem) (a : Nat) : List Nat → Mem
  | [] => m
  | w :: ws => writeWords (writeLE m a 8 w) (a + 8) ws

/-- The words from `a` on are `ws`. -/
def WordsAt (m : Mem) (a : Nat) : List Nat → Prop
  | [] => True
  | w :: ws => readLE m a 8 = w ∧ WordsAt m (a + 8) ws

theorem writeWords_agree (m : Mem) (a : Nat) (ws : List Nat) {x : Nat}
    (h : x < a ∨ a + 8 * ws.length ≤ x) : writeWords m a ws x = m x := by
  induction ws generalizing m a with
  | nil => rfl
  | cons w ws ih =>
    rw [List.length_cons] at h
    rw [writeWords, ih _ _ (by omega), writeLE_agree _ _ _ _ (by omega)]

theorem readLE_view {m m' : Mem} {a a' n : Nat} (h : ∀ i < n, m' (a' + i) = m (a + i)) :
    readLE m' a' n = readLE m a n := by
  induction n generalizing a a' with
  | zero => rfl
  | succ n ih =>
    have hrest : readLE m' (a' + 1) n = readLE m (a + 1) n := by
      refine ih fun i hi => ?_
      have hi' := h (i + 1) (Nat.succ_lt_succ hi)
      rw [show a' + 1 + i = a' + (i + 1) by omega, show a + 1 + i = a + (i + 1) by omega]
      exact hi'
    rw [readLE, readLE, hrest, show m' a' = m a from h 0 (Nat.succ_pos n)]

/-- A block depends only on the bytes it covers, wherever they are seen. -/
theorem WordsAt.congr {m m' : Mem} {a a' : Nat} {ws : List Nat} (h : WordsAt m a ws)
    (heq : ∀ i < 8 * ws.length, m' (a' + i) = m (a + i)) : WordsAt m' a' ws := by
  induction ws generalizing a a' with
  | nil => trivial
  | cons w ws ih =>
    rw [List.length_cons] at heq
    refine ⟨?_, ih h.2 fun i hi => ?_⟩
    · rw [readLE_view fun i hi => heq i (by omega)]
      exact h.1
    · have hi' := heq (i + 8) (by omega)
      rw [show a' + 8 + i = a' + (i + 8) by omega, show a + 8 + i = a + (i + 8) by omega]
      exact hi'

theorem wordsAt_append {m : Mem} {a : Nat} {ws vs : List Nat} :
    WordsAt m a (ws ++ vs) ↔ WordsAt m a ws ∧ WordsAt m (a + 8 * ws.length) vs := by
  induction ws generalizing a with
  | nil => simp [WordsAt]
  | cons w ws ih =>
    rw [List.cons_append, WordsAt, WordsAt, ih, List.length_cons, and_assoc,
      show a + 8 + 8 * ws.length = a + 8 * (ws.length + 1) by omega]

theorem wordsAt_writeWords (m : Mem) (a : Nat) {ws : List Nat} (h : ∀ w ∈ ws, w < 2 ^ 64) :
    WordsAt (writeWords m a ws) a ws := by
  induction ws generalizing m a with
  | nil => trivial
  | cons w ws ih =>
    refine ⟨?_, ih _ _ fun v hv => h v (List.mem_cons_of_mem w hv)⟩
    have hkeep : readLE (writeWords (writeLE m a 8 w) (a + 8) ws) a 8 = readLE (writeLE m a 8 w) a 8 :=
      readLE_congr fun x _ h2 => writeWords_agree _ _ _ (.inl h2)
    rw [writeWords, hkeep, readLE_writeLE_same]
    exact Nat.mod_eq_of_lt (h w List.mem_cons_self)

/-! ### A stack of words -/

/-- The words `ws` stand at `a` and reach up to `top`; elsewhere memory is `m₀`. -/
structure Block (m₀ : Mem) (top : Nat) (m : Mem) (a : Nat) (ws : List Nat) : Prop where
  words : WordsAt m a ws
  reach : a + 8 * ws.length = top
  frame : ∀ x, x < a ∨ top ≤ x → m x = m₀ x

theorem Block.start (m₀ : Mem) (top : Nat) : Block m₀ top m₀ top [] where
  words := trivial
  reach := rfl
  frame := fun _ _ => rfl

/-- Pushing an array of words. -/
theorem Block.array {m₀ m : Mem} {top a : Nat} {ws vs : List Nat} (h : Block m₀ top m a ws)
    (hv : ∀ v ∈ vs, v < 2 ^ 64) (ha : 8 * vs.length ≤ a) :
    Block m₀ top (writeWords m (a - 8 * vs.length) vs) (a - 8 * vs.length) (vs ++ ws) where
  words := by
    rw [wordsAt_append]
    refine ⟨wordsAt_writeWords _ _ hv, ?_⟩
    rw [Nat.sub_add_cancel ha]
    refine h.words.congr fun i _ => writeWords_agree _ _ _ (.inr ?_)
    omega
  reach := by
    have := h.reach
    rw [List.length_append]
    omega
  frame := by
    intro x hx
    have hr := h.reach
    rw [writeWords_agree _ _ _ (by omega)]
    exact h.frame x (by omega)

/-- Pushing one word. -/
theorem Block.push {m₀ m : Mem} {top a : Nat} {ws : List Nat} (h : Block m₀ top m a ws) {v : Nat}
    (hv : v < 2 ^ 64) (ha : 8 ≤ a) : Block m₀ top (writeLE m (a - 8) 8 v) (a - 8) (v :: ws) := by
  have hall : ∀ u ∈ [v], u < 2 ^ 64 := by simpa using hv
  exact h.array hall ha

/-! ### The bytes that stores reach

A store of fixed data acts on every byte by itself: a byte it reaches has the same value
afterwards in all memories, and any other byte is left as it is.  So two memories that
agree on a byte still do after the store, and they agree on it in any case if the store
reaches it. -/

theorem put_congr_at {m m' : Mem} {x : Nat} (a : Nat) (b : BitVec 8) (h : m x = m' x) :
    put m a b x = put m' a b x := by
  simp only [put, h]

theorem putBytes_congr_at {m m' : Mem} {x : Nat} (a : Nat) (bs : List (BitVec 8))
    (h : m x = m' x) : putBytes m a bs x = putBytes m' a bs x := by
  induction bs generalizing m m' a with
  | nil => exact h
  | cons b bs ih => exact ih _ (put_congr_at _ _ h)

theorem writeLE_congr_at {m m' : Mem} {x : Nat} (a n v : Nat) (h : m x = m' x) :
    writeLE m a n v x = writeLE m' a n v x := by
  induction n generalizing m m' a v with
  | zero => exact h
  | succ n ih => exact ih _ _ (put_congr_at _ _ h)

theorem writeWords_congr_at {m m' : Mem} {x : Nat} (a : Nat) (ws : List Nat) (h : m x = m' x) :
    writeWords m a ws x = writeWords m' a ws x := by
  induction ws generalizing m m' a with
  | nil => exact h
  | cons w ws ih => exact ih _ (writeLE_congr_at _ _ _ h)

theorem putBytes_reaches (m m' : Mem) {a : Nat} {bs : List (BitVec 8)} {x : Nat} (h : a ≤ x)
    (hx : x < a + bs.length) : putBytes m a bs x = putBytes m' a bs x := by
  induction bs generalizing m m' a with
  | nil => exact absurd hx (Nat.not_lt.mpr h)
  | cons b bs ih =>
    rw [List.length_cons] at hx
    obtain rfl | hne := h.eq_or_lt
    · rw [putBytes, putBytes]
      exact putBytes_congr_at _ _ (by rw [put_same, put_same])
    · exact ih _ _ hne (by omega)

theorem writeLE_reaches (m m' : Mem) {a n : Nat} (v : Nat) {x : Nat} (h : a ≤ x)
    (hx : x < a + n) : writeLE m a n v x = writeLE m' a n v x := by
  induction n generalizing m m' a v with
  | zero => exact absurd hx (Nat.not_lt.mpr h)
  | succ n ih =>
    obtain rfl | hne := h.eq_or_lt
    · rw [writeLE, writeLE]
      exact writeLE_congr_at _ _ _ (by rw [put_same, put_same])
    · exact ih _ _ _ hne (by omega)

/-- A byte that has the same value after `f` whatever memory held was written: some memory
is changed there. -/
theorem exists_changed {f : Mem → Mem} {x : Nat} (h : ∀ m m', f m x = f m' x) :
    ∃ m : Mem, f m x ≠ m x := by
  refine ⟨fun _ => ~~~ f (fun _ => 0) x, ?_⟩
  rw [h _ fun _ => 0]
  intro heq
  have hbit := congrArg (fun b => b.getLsbD 0) heq
  simp at hbit

end ByteMemory
