/-
BestOS/Str.lean

The string functions of `lib/str.c` that the path code is built on.

A C string is the list of its characters before the terminating NUL, and a
pointer into one is the suffix that starts there.  `strtok` keeps its position
in a static pointer between calls; it is an argument and a result here, `none`
for NULL.

The two ways the kernel takes a path apart are each tied to the split at
slashes, `List.splitOn '/'`: `strtok` cuts off the first piece
(`strtokScan_splitOn`), and `basename` ends at the last one (`basename_slash`).
-/
import Mathlib.Data.List.Basic

namespace BestOS

abbrev CString := List Char

def strlen (str : CString) : Nat := str.length

/-- `str_eq`: equal lengths, then equal characters. -/
def strEq (s1 s2 : CString) : Bool :=
  if strlen s1 ≠ strlen s2 then false
  else (List.range (strlen s1)).all fun i => s1[i]? == s2[i]?

/-- How the inner comparison of `strstr` ends: the substring is used up, the
string is used up, or two characters differ. -/
inductive Compare
  | found
  | ended
  | differ

/-- The two pointers `a` and `b` of `strstr`, moved on while they agree. -/
def compareFrom : CString → CString → Compare
  | _, [] => .found
  | [], _ :: _ => .ended
  | a :: as, b :: bs => if a = b then compareFrom as bs else .differ

/-- `strstr`. -/
def strstr (str substr : CString) : Option CString :=
  match compareFrom str substr with
  | .found => some str
  | .ended => none
  | .differ =>
    match str with
    | [] => none
    | _ :: str => strstr str substr

/-- The `do … while` of `basename`; `ssc` is the suffix of `path` at the slash
last found. -/
def basenameLoop : Nat → CString → CString → CString
  | 0, path, _ => path
  | fuel + 1, path, ssc =>
    -- strlen(path) - l + 2, where l = strlen(ssc) + 1 may exceed strlen(path)
    let path := path.drop (strlen path + 2 - (strlen ssc + 1))
    match strstr path ['/'] with
    | none => path
    | some ssc => basenameLoop fuel path ssc

/-- `basename`. -/
def basename (path : CString) : CString :=
  if path.head? ≠ some '/' then path
  else if strlen path = 1 then path
  else
    match strstr path ['/'] with
    | none => path
    | some ssc => basenameLoop (strlen path) path ssc

/-- `strchr`, for a character other than NUL. -/
def strchr (c : Char) : CString → Option CString
  | [] => none
  | a :: s => if a = c then some (a :: s) else strchr c s

/-- The scan of `strtok`: the token, and the position after the delimiter. -/
def strtokScan (delim : CString) : CString → CString × Option CString
  | [] => ([], none)
  | c :: s =>
    if (strchr c delim).isSome then ([], some s)
    else (c :: (strtokScan delim s).1, (strtokScan delim s).2)

/-- `strtok(str, delim)` with the static pointer `s`: the token and the new
static pointer. -/
def strtok (s str : Option CString) (delim : CString) : Option CString × Option CString :=
  match str.or s with
  | none => (none, none)
  | some s => (some (strtokScan delim s).1, (strtokScan delim s).2)

/-! ### Comparison -/

theorem strEq_iff (s1 s2 : CString) : strEq s1 s2 = true ↔ s1 = s2 := by
  unfold strEq strlen
  by_cases hlen : s1.length = s2.length
  · rw [if_neg (not_not_intro hlen)]
    constructor
    · intro h
      apply List.ext_getElem?
      intro i
      by_cases hi : i < s1.length
      · have := List.all_eq_true.mp h i (List.mem_range.mpr hi)
        exact eq_of_beq this
      · rw [List.getElem?_eq_none (by omega), List.getElem?_eq_none (by omega)]
    · rintro rfl
      simp
  · rw [if_pos hlen]
    constructor
    · intro h
      cases h
    · rintro rfl
      exact absurd rfl hlen

/-! ### Splitting at slashes -/

theorem strtokScan_splitOn (s : CString) :
    s.splitOn '/' = (strtokScan ['/'] s).1 ::
      ((strtokScan ['/'] s).2.elim [] fun rest => rest.splitOn '/') := by
  induction s with
  | nil => rfl
  | cons c s ih =>
    rw [List.splitOn_cons_eq_if_modifyHead, strtokScan]
    by_cases hc : c = '/'
    · have hs : (strchr c ['/']).isSome := by simp [strchr, hc]
      rw [if_pos (by simp [hc]), if_pos hs]
      rfl
    · have hs : ¬ (strchr c ['/']).isSome := by simp [strchr, Ne.symm hc]
      rw [if_neg (by simp [hc]), if_neg hs, ih]
      rfl

/-- Each position `strtok` leaves behind is shorter than the one before. -/
theorem strtokScan_shorter {s rest : CString} {delim : CString}
    (h : (strtokScan delim s).2 = some rest) : rest.length < s.length := by
  induction s with
  | nil => cases h
  | cons c s ih =>
    rw [strtokScan] at h
    by_cases hs : (strchr c delim).isSome
    · rw [if_pos hs] at h
      cases h
      exact Nat.lt_succ_self _
    · rw [if_neg hs] at h
      exact Nat.lt_succ_of_lt (ih h)

/-! ### The last piece -/

/-- The suffix of `s` that starts at its first slash. -/
theorem strstr_slash (s : CString) :
    ('/' ∉ s ∧ strstr s ['/'] = none) ∨
      ∃ a b, s = a ++ '/' :: b ∧ '/' ∉ a ∧ strstr s ['/'] = some ('/' :: b) := by
  induction s with
  | nil => exact .inl ⟨List.not_mem_nil, rfl⟩
  | cons c s ih =>
    by_cases hc : c = '/'
    · refine .inr ⟨[], s, by rw [hc]; rfl, List.not_mem_nil, ?_⟩
      rw [hc]
      unfold strstr
      simp [compareFrom]
    · have hstep : strstr (c :: s) ['/'] = strstr s ['/'] := by
        conv => lhs; unfold strstr
        simp [compareFrom, hc]
      rw [hstep]
      rcases ih with ⟨hno, heq⟩ | ⟨a, b, rfl, hno, heq⟩
      · exact .inl ⟨by simp [hno, Ne.symm hc], heq⟩
      · exact .inr ⟨c :: a, b, rfl, by simp [hno, Ne.symm hc], heq⟩

/-- The loop of `basename` ends at the piece after the last slash. -/
theorem basenameLoop_spec {fuel : Nat} {a b : CString} (hfuel : b.length < fuel) :
    ∃ front, b.splitOn '/' = front ++ [basenameLoop fuel (a ++ '/' :: b) ('/' :: b)] := by
  induction fuel generalizing a b with
  | zero => exact absurd hfuel (Nat.not_lt_zero _)
  | succ fuel ih =>
    have hdrop : (a ++ '/' :: b).drop (strlen (a ++ '/' :: b) + 2 - (strlen ('/' :: b) + 1)) = b := by
      have hlen : strlen (a ++ '/' :: b) + 2 - (strlen ('/' :: b) + 1) = (a ++ ['/']).length := by
        simp only [strlen, List.length_append, List.length_cons, List.length_nil]
        omega
      rw [hlen, show a ++ '/' :: b = (a ++ ['/']) ++ b by simp, List.drop_left]
    rw [basenameLoop, hdrop]
    rcases strstr_slash b with ⟨hno, heq⟩ | ⟨a', b', rfl, hno, heq⟩
    · exact ⟨[], by rw [heq, List.splitOn_eq_singleton hno]; rfl⟩
    · rw [heq]
      have hlt : b'.length < fuel := by
        simp only [List.length_append, List.length_cons] at hfuel
        omega
      obtain ⟨front, hf⟩ := ih (a := a') hlt
      exact ⟨a' :: front, by rw [List.splitOn_append_cons_self_of_not_mem hno, hf]; rfl⟩

/-- `basename` of a path that starts with a slash and goes on is its last
piece. -/
theorem basename_slash {p : CString} (hp : p ≠ []) :
    ∃ front, ('/' :: p).splitOn '/' = front ++ [basename ('/' :: p)] := by
  have hfirst : strstr ('/' :: p) ['/'] = some ('/' :: p) := by
    unfold strstr
    simp [compareFrom]
  have hbase : basename ('/' :: p) = basenameLoop (p.length + 1) ([] ++ '/' :: p) ('/' :: p) := by
    unfold basename
    rw [if_neg (by simp), if_neg (by simpa [strlen] using hp), hfirst]
    rfl
  obtain ⟨front, hf⟩ := basenameLoop_spec (a := []) (Nat.lt_succ_self p.length)
  refine ⟨[] :: front, ?_⟩
  rw [hbase, List.splitOn_cons_eq_if_modifyHead, if_pos (by simp), hf]
  rfl

/-- A path that does not start with a slash is its own `basename`. -/
theorem basename_relative {p : CString} (h : p.head? ≠ some '/') : basename p = p := by
  unfold basename
  rw [if_pos h]

end BestOS
