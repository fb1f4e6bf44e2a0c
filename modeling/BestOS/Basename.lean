/-
BestOS/Basename.lean

`basename` on bytes: does it find the last piece of a path?

The loop takes the length of the string at the slash last found into an `int l`,
and goes on at `&path[strlen(path) - l + 2]`.  The `int` keeps the length modulo
2^32 only, so the position is off by the multiple of 2^32 that is nearest to the
length (`sliceIndex_eq`).

A path of fewer than 2^31 - 1 bytes has the multiple 0 there.  In a longer one
the first round leaves out the bytes before the multiple, and the result is right
exactly if the last slash is not among them (`basename_last_iff`).
-/
import BestOS.Mem
import BestOS.StrMem

namespace BestOS

open ByteMemory Fuel

/-- `strlen(path) - l + 2`, in a `size_t`. -/
def sliceIndex (length : Nat) (l : Int) : Nat := (length + (2 ^ 64 - toSize l) + 2) % 2 ^ 64

/-- The `do … while` of `basename`; `slash` is the address of `"/"`. -/
def basenameLoopAt (m : Mem) (slash : Nat) : Nat → Nat → Nat → Option Nat
  | _, _, 0 => none
  | path, ssc, fuel + 1 => do
    let l := toInt ((← strlenAt m ssc fuel) + 1)
    let path := path + sliceIndex (← strlenAt m path fuel) l
    match ← strstrAt m path slash fuel with
    | none => some path
    | some ssc => basenameLoopAt m slash path ssc fuel

/-- `basename`. -/
def basenameAt (m : Mem) (slash path : Nat) (fuel : Nat) : Option Nat := do
  if m path ≠ SLASH then some path
  else if (← strlenAt m path fuel) = 1 then some path
  else
    let ssc ← strstrAt m path slash fuel
    basenameLoopAt m slash path (ssc.getD 0) fuel

variable {m : Mem} {a slash path ssc : Nat} {p s t : List (BitVec 8)}

/-! ### The last piece -/

/-- The piece behind the last slash of `s` starts at `k`. -/
structure LastPieceAt (s : List (BitVec 8)) (k : Nat) : Prop where
  le : k ≤ s.length
  rest : SLASH ∉ s.drop k
  behind : k = 0 ∨ s[k - 1]? = some SLASH

theorem lastPieceAt_zero (h : SLASH ∉ s) : LastPieceAt s 0 := ⟨Nat.zero_le _, h, .inl rfl⟩

theorem LastPieceAt.append {k : Nat} (h : LastPieceAt t k) (s : List (BitVec 8)) :
    LastPieceAt (s ++ SLASH :: t) (s.length + 1 + k) where
  le := by
    rw [List.length_append, List.length_cons]
    have := h.le
    omega
  rest := by
    rw [show s.length + 1 + k = s.length + (k + 1) by omega, List.drop_append,
      List.drop_eq_nil_of_le (Nat.le_add_right _ _), Nat.add_sub_cancel_left]
    exact h.rest
  behind := by
    refine .inr ?_
    rw [show s.length + 1 + k - 1 = s.length + k by omega,
      List.getElem?_append_right (Nat.le_add_right _ _), Nat.add_sub_cancel_left]
    cases k with
    | zero => rfl
    | succ k => exact h.behind.resolve_left (Nat.succ_ne_zero k)

/-- A slash stands at or after `d` iff the last piece starts after it. -/
theorem LastPieceAt.slash_mem_drop {k : Nat} (h : LastPieceAt s k) (d : Nat) :
    SLASH ∈ s.drop d ↔ d < k := by
  constructor
  · intro hmem
    by_contra hle
    refine h.rest ?_
    rw [← Nat.sub_add_cancel (Nat.not_lt.mp hle), Nat.add_comm, ← List.drop_drop] at hmem
    exact List.mem_of_mem_drop hmem
  · intro hlt
    have hslash : s[k - 1]? = some SLASH := h.behind.resolve_left (by omega)
    refine List.mem_of_getElem? (i := k - 1 - d) ?_
    rw [List.getElem?_drop, ← hslash]
    congr 1
    omega

/-- The last piece of what comes after position `d`, if a slash stands there or
after it. -/
theorem LastPieceAt.of_drop {d k : Nat} (h : LastPieceAt (s.drop (1 + d)) k) (hd : 1 + d ≤ s.length)
    (hmem : SLASH ∈ s.drop d) : LastPieceAt s (1 + d + k) where
  le := by
    have := h.le
    rw [List.length_drop] at this
    omega
  rest := by
    rw [← List.drop_drop]
    exact h.rest
  behind := by
    refine .inr ?_
    cases k with
    | zero =>
      -- no slash behind `d`, so it is there
      rw [List.drop_eq_getElem_cons (by omega), Nat.add_comm d 1, List.mem_cons] at hmem
      rw [show 1 + d + 0 - 1 = d by omega, List.getElem?_eq_getElem (by omega)]
      exact congrArg some (hmem.resolve_right h.rest).symm
    | succ k =>
      rw [← h.behind.resolve_left (Nat.succ_ne_zero k), List.getElem?_drop]
      congr 1

/-- The last piece is the last segment of `vfs_parse_path`. -/
theorem LastPieceAt.parsePath {k : Nat} (h : LastPieceAt s k) (strtok : Option CString) :
    (vfsParsePath strtok (chars s)).1.getLast? = some (chars (s.drop k)) := by
  rw [vfsParsePath_eq, chars_splitOn, List.getLast?_map]
  cases k with
  | zero =>
    have hno : SLASH ∉ s := h.rest
    rw [List.splitOn_eq_singleton hno]
    rfl
  | succ k =>
    have hbehind : s[k]? = some SLASH := h.behind.resolve_left (Nat.succ_ne_zero k)
    obtain ⟨hlt, hslash⟩ := List.getElem?_eq_some_iff.mp hbehind
    have hparts : s = s.take k ++ SLASH :: s.drop (k + 1) := by
      conv => lhs; rw [← List.take_append_drop k s, List.drop_eq_getElem_cons hlt, hslash]
    have hsplit : s.splitOn SLASH = (s.take k).splitOn SLASH ++ [s.drop (k + 1)] := by
      conv => lhs; rw [hparts, List.splitOn_append_cons_self, List.splitOn_eq_singleton h.rest]
    rw [hsplit, List.getLast?_concat]
    rfl

/-! ### The position behind the slash -/

/-- The multiple of 2^32 that is nearest to the length of a string with its NUL. -/
def wrapped (length : Nat) : Nat := 2 ^ 32 * ((length + 1 + 2 ^ 31) / 2 ^ 32)

/-- What the `int` loses of the length, the position gains. -/
theorem sliceIndex_eq {n l : Nat} (hn : n < 2 ^ 63) (hl : l ≤ n) :
    sliceIndex n (toInt (l + 1)) = n - l + 1 + wrapped l := by
  have hint : (toInt (l + 1) : Int) = l + 1 - wrapped l := by
    unfold toInt wrapped
    rw [BitVec.toInt_ofNat', Int.bmod_def]
    split <;> omega
  have hsize : (toSize (toInt (l + 1)) : Int) = (l + 1 - wrapped l) % 2 ^ 64 := by
    rw [hint, toSize, BitVec.toNat_ofInt]
    omega
  unfold sliceIndex
  unfold wrapped at *
  omega

theorem wrapped_of_lt {l : Nat} (h : l + 1 < 2 ^ 31) : wrapped l = 0 := by
  unfold wrapped
  omega

/-! ### The rounds -/

/-- The test at the end of a round, and the rounds that follow. -/
def basenameRest (m : Mem) (slash path : Nat) (fuel : Nat) : Option Nat :=
  (strstrAt m path slash fuel).bind fun ssc =>
    match ssc with
    | none => some path
    | some ssc => basenameLoopAt m slash path ssc fuel

/-- One round. -/
theorem basenameLoopAt_round (slash : Nat) (hpath : StringAt m path s) (hssc : StringAt m ssc t) :
    Enough fun fuel => basenameLoopAt m slash path ssc (fuel + 1)
      = basenameRest m slash (path + sliceIndex s.length (toInt (t.length + 1))) fuel := by
  refine ((strlenAt_returns hpath).and (strlenAt_returns hssc)).mono fun fuel h => ?_
  rw [basenameLoopAt, h.1, h.2]
  rfl

/-- **The rounds on a short string** end behind its last slash. -/
theorem basenameRest_returns (hslash : StringAt m slash [SLASH]) (hs : StringAt m path s)
    (hlen : s.length + 1 < 2 ^ 31) :
    ∃ k, LastPieceAt s k ∧ Returns (basenameRest m slash path) (path + k) := by
  induction hn : s.length using Nat.strong_induction_on generalizing path s with
  | _ n ih =>
    rcases strstrAt_slash hs hslash with ⟨hno, hr⟩ | ⟨x, y, rfl, hno, hr⟩
    · refine ⟨0, lastPieceAt_zero hno, hr.mono fun fuel h => ?_⟩
      rw [basenameRest, h]
      rfl
    · rw [List.length_append, List.length_cons] at hlen hn
      have hssc : StringAt m (path + x.length) (SLASH :: y) := (stringAt_append.mp hs).2
      have hy : StringAt m (path + (x.length + 1)) y := hssc.2
      -- the position is that behind the slash
      have hindex : sliceIndex (x ++ SLASH :: y).length (toInt ((SLASH :: y).length + 1))
          = x.length + 1 := by
        rw [List.length_append, List.length_cons, sliceIndex_eq (by omega) (by omega),
          wrapped_of_lt (by omega)]
        omega
      have hround := basenameLoopAt_round slash hs hssc
      rw [hindex] at hround
      obtain ⟨k, hk, hrest⟩ := ih y.length (by omega) hy (by omega) rfl
      refine ⟨x.length + 1 + k, hk.append x, ?_⟩
      rw [← Nat.add_assoc]
      refine hr.bind (g := fun ssc fuel => match ssc with
        | none => some path
        | some ssc => basenameLoopAt m slash path ssc fuel) ((returns_iff hround).mpr hrest)

/-- No round goes back. -/
theorem path_le_basenameLoopAt {fuel r : Nat} (h : basenameLoopAt m slash path ssc fuel = some r) :
    path ≤ r := by
  induction fuel generalizing path ssc with
  | zero => cases h
  | succ fuel ih =>
    rw [basenameLoopAt] at h
    obtain ⟨l, -, h⟩ := Option.bind_eq_some_iff.mp h
    obtain ⟨length, -, h⟩ := Option.bind_eq_some_iff.mp h
    obtain ⟨next, -, h⟩ := Option.bind_eq_some_iff.mp h
    refine Nat.le_trans (Nat.le_add_right path (sliceIndex length (toInt (l + 1)))) ?_
    cases next with
    | none => exact Nat.le_of_eq (Option.some.inj h)
    | some ssc => exact ih h

theorem path_le_basenameRest {r : Nat} (h : Returns (basenameRest m slash path) r) : path ≤ r := by
  obtain ⟨fuel, hf⟩ := h.exists
  obtain ⟨next, -, hf⟩ := Option.bind_eq_some_iff.mp hf
  cases next with
  | none => exact Nat.le_of_eq (Option.some.inj hf)
  | some ssc => exact path_le_basenameLoopAt hf

/-- The first round on a path that starts with a slash and goes on. -/
theorem basenameAt_first (hslash : StringAt m slash [SLASH]) (hp : StringAt m a p)
    (hhead : p.head? = some SLASH) (htwo : 2 ≤ p.length) (hmax : p.length < 2 ^ 63) {r : Nat} :
    Returns (basenameAt m slash a) r ↔
      Returns (basenameRest m slash (a + (1 + wrapped p.length))) r := by
  obtain ⟨q, rfl⟩ : ∃ q, p = SLASH :: q := by
    cases p with
    | nil => cases hhead
    | cons c q => exact ⟨q, by rw [Option.some.inj hhead]⟩
  have hfirst : Returns (strstrAt m a slash) (some a) := by
    rcases strstrAt_slash hp hslash with ⟨hno, -⟩ | ⟨x, y, heq, hno, hr⟩
    · exact absurd List.mem_cons_self hno
    · cases x with
      | nil => exact hr
      | cons c x => exact absurd (List.cons.inj heq).1 (fun h => hno (h ▸ List.mem_cons_self))
  have hround := basenameLoopAt_round slash hp hp
  rw [sliceIndex_eq hmax (Nat.le_refl _), Nat.sub_self, Nat.zero_add] at hround
  refine returns_iff ((((strlenAt_returns hp).succ.and hfirst.succ).and hround).mono fun fuel h => ?_)
  obtain ⟨⟨hlen, hssc⟩, hround⟩ := h
  rw [← hround, basenameAt, if_neg (not_not_intro hp.1.2), hlen, hssc]
  exact if_neg (by omega)

/-! ### `basename` and `vfs_parse_path` -/

/-- `basename(p)` ends, and at the suffix behind the last slash, which is the last
segment of `vfs_parse_path(p)`. -/
def BasenameOk (m : Mem) (slash a : Nat) (p : List (BitVec 8)) : Prop :=
  ∃ k, LastPieceAt p k ∧ StringAt m (a + k) (p.drop k) ∧
    (∀ strtok, (vfsParsePath strtok (chars p)).1.getLast? = some (chars (p.drop k))) ∧
    Returns (basenameAt m slash a) (a + k)

/-- What is left behind the multiple of 2^32 is short. -/
theorem length_drop_wrapped (p : List (BitVec 8)) :
    (p.drop (1 + wrapped p.length)).length + 1 < 2 ^ 31 := by
  rw [List.length_drop]
  unfold wrapped
  omega

/-- A slash behind the multiple of 2^32 is found. -/
theorem basenameOk_of_slash (hslash : StringAt m slash [SLASH]) (hp : StringAt m a p)
    (hhead : p.head? = some SLASH) (htwo : 2 ≤ p.length) (hmax : p.length < 2 ^ 63)
    (hmem : SLASH ∈ p.drop (wrapped p.length)) : BasenameOk m slash a p := by
  have hle : 1 + wrapped p.length ≤ p.length := by
    by_contra hgt
    rw [List.drop_eq_nil_of_le (by omega)] at hmem
    cases hmem
  have hrest : StringAt m (a + (1 + wrapped p.length)) (p.drop (1 + wrapped p.length)) :=
    hp.drop hle
  obtain ⟨k, hk, hr⟩ := basenameRest_returns hslash hrest (length_drop_wrapped p)
  have hlast := hk.of_drop hle hmem
  refine ⟨_, hlast, hp.drop hlast.le, fun strtok => hlast.parsePath strtok, ?_⟩
  rw [← Nat.add_assoc]
  exact (basenameAt_first hslash hp hhead htwo hmax).mpr hr

/-- Without one, `basename` is behind the last slash when it comes to look. -/
theorem not_basenameOk (hslash : StringAt m slash [SLASH]) (hp : StringAt m a p)
    (hhead : p.head? = some SLASH) (htwo : 2 ≤ p.length) (hmax : p.length < 2 ^ 63)
    (hno : SLASH ∉ p.drop (wrapped p.length)) : ¬ BasenameOk m slash a p := by
  rintro ⟨k, hk, -, -, hr⟩
  have hbehind := path_le_basenameRest ((basenameAt_first hslash hp hhead htwo hmax).mp hr)
  exact hno ((hk.slash_mem_drop _).mpr (by omega))

/-- **`basename` and the splitter.**  `strstr` ends at the leftmost occurrence, or
with NULL if there is none.  `basename` of a path that starts with a slash ends at
its last piece exactly if a slash stands at or behind the multiple of 2^32 that is
nearest to the length. -/
theorem basename_last_iff (m : Mem) :
    (∀ (a b : Nat) (s t : List (BitVec 8)), StringAt m a s → StringAt m b t →
      (∃ i, LeftmostAt t s i ∧ Returns (strstrAt m a b) (some (a + i))) ∨
        (¬ t <:+: s ∧ Returns (strstrAt m a b) none)) ∧
      ∀ (slash a : Nat) (p : List (BitVec 8)),
        StringAt m slash [SLASH] → StringAt m a p → p.head? = some SLASH → 2 ≤ p.length →
        p.length < 2 ^ 63 →
        (BasenameOk m slash a p ↔ SLASH ∈ p.drop (wrapped p.length)) := by
  refine ⟨fun a b s t hs ht => strstrAt_spec hs ht, fun slash a p hslash hp hhead htwo hmax => ?_⟩
  constructor
  · intro hok
    by_contra hno
    exact not_basenameOk hslash hp hhead htwo hmax hno hok
  · exact basenameOk_of_slash hslash hp hhead htwo hmax

/-! ### Two paths -/

theorem basename_last_short : BasenameOk (pathMemory 1) 0x1000 0x2000 [SLASH, 0x61] :=
  ((basename_last_iff _).2 _ _ _ (pathMemory_slash 1) (pathMemory_path 1) rfl (by decide)
    (by decide)).mpr (by decide +kernel)

/-- **A path of 2^31 - 1 bytes**: the `int` is negative, and `basename` goes on
2^32 bytes behind the path. -/
theorem basename_past_end :
    ¬ ∀ (m : Mem) (slash a : Nat) (p : List (BitVec 8)),
      StringAt m slash [SLASH] → StringAt m a p → p.head? = some SLASH → 2 ≤ p.length →
      BasenameOk m slash a p := by
  intro hclaim
  have hlen : (SLASH :: List.replicate (2 ^ 31 - 2) (0x61 : BitVec 8)).length = 2 ^ 31 - 1 := by
    rw [List.length_cons, List.length_replicate]
    omega
  have htwo : 2 ≤ (SLASH :: List.replicate (2 ^ 31 - 2) (0x61 : BitVec 8)).length := by omega
  refine not_basenameOk (pathMemory_slash _) (pathMemory_path _) rfl htwo (by omega) ?_
    (hclaim _ _ _ _ (pathMemory_slash _) (pathMemory_path _) rfl htwo)
  rw [List.drop_eq_nil_of_le (by rw [hlen]; decide +kernel)]
  exact List.not_mem_nil

end BestOS
