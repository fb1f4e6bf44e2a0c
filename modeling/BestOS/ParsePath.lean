/-
BestOS/ParsePath.lean

`vfs_parse_path` on bytes: is the join of the segments the path?

`strtok` puts a NUL in place of every slash of a copy of the path, and remembers
in a static pointer where it goes on.  The pieces it has not cut yet are a string
of their own at that pointer (`Remaining`), so each call cuts off the first piece and
leaves the others (`strtokAt_cut`).

`strdup` counts the path in an `int` and does not look at what `malloc` returns,
and `vec_push` gives up a segment when there is no larger block.  If none of that
happens (`PathFits`) the segments are those between the slashes, whatever the pointer
was before; and only then (`vfs_parse_path_iff`).
-/
import BestOS.BlockHeap
import BestOS.StrMem
import BestOS.Vec
import Mathlib.Data.List.Forall2

namespace BestOS

open ByteMemory Fuel BlockHeap

/-! ### `strchr`, `strtok` and `strdup` -/

/-- `strchr`; NULL is `none`. -/
def strchrAt (m : Mem) (c : BitVec 8) : Nat → Nat → Option (Option Nat)
  | _, 0 => none
  | s, fuel + 1 =>
    if m s ≠ c then
      if m s = 0 then some none else strchrAt m c (s + 1) fuel
    else some (some s)

/-- The loop of `strtok`: the static pointer and memory afterwards. -/
def strtokLoop (delim : Nat) (m : Mem) : Nat → Nat → Option (Option Nat × Mem)
  | _, 0 => none
  | s, fuel + 1 =>
    if m s ≠ 0 then do
      match ← strchrAt m (m s) delim fuel with
      | some _ => some (some (s + 1), put m s 0)
      | none => strtokLoop delim m (s + 1) fuel
    else some (none, m)

/-- `strtok(str, delim)` with the static pointer `s`: the token, the static
pointer and memory. -/
def strtokAt (delim : Nat) (m : Mem) (s str : Option Nat) (fuel : Nat) :
    Option (Option Nat × Option Nat × Mem) :=
  match str.or s with
  | none => some (none, none, m)
  | some s => do
    let (rest, m) ← strtokLoop delim m s fuel
    some (some s, rest, m)

/-- `while (s[len]) len++`, where `len` is an `int`. -/
def strdupLength (m : Mem) (s : Nat) : Nat → Nat → Option Nat
  | _, 0 => none
  | len, fuel + 1 =>
    if m (s + len) ≠ 0 then
      if len + 1 < 2 ^ 31 then strdupLength m s (len + 1) fuel else none
    else some len

/-- `while (*s) *p++ = *s++; *p = '\0'`. -/
def strdupCopy : Mem → Nat → Nat → Nat → Option Mem
  | _, _, _, 0 => none
  | m, p, s, fuel + 1 =>
    if m s ≠ 0 then strdupCopy (put m p (m s)) (p + 1) (s + 1) fuel
    else some (put m p 0)

/-- `strdup`, where `malloc` returns `str`.  There is no memory at NULL. -/
def strdupAt (str : Nat) (m : Mem) (s : Nat) (fuel : Nat) : Option Mem := do
  let len ← strdupLength m s 0 fuel
  if len + 1 < 2 ^ 31 ∧ str ≠ 0 then strdupCopy m str s fuel else none

variable {m m' : Mem} {a b delim s str lo hi : Nat} {t p : List (BitVec 8)}

/-- A string outside of the block that has changed. -/
theorem stringAt_frame {n : Nat} (h : StringAt m a t) (hapart : Apart b n a (t.length + 1))
    (hframe : ∀ z, z < b ∨ b + n ≤ z → m' z = m z) : StringAt m' a t := by
  unfold Apart at hapart
  exact h.congr fun i hi => hframe _ (by omega)

/-- What `strtok` asks about a byte that is not NUL. -/
theorem strchrAt_slash (hdelim : StringAt m delim [SLASH]) {c : BitVec 8} (hc : c ≠ 0) :
    Returns (strchrAt m c delim) (if c = SLASH then some delim else none) := by
  obtain ⟨⟨-, hfirst⟩, hnul⟩ := hdelim
  have hnul : m (delim + 1) = 0 := hnul
  by_cases heq : c = SLASH
  · rw [if_pos heq]
    refine .now fun fuel => ?_
    rw [strchrAt, if_neg (not_not_intro (hfirst.trans heq.symm))]
  · rw [if_neg heq]
    have hend : Returns (strchrAt m c (delim + 1)) none := by
      refine .now fun fuel => ?_
      rw [strchrAt, if_pos (fun h => hc (h.symm.trans hnul)), if_pos hnul]
    refine hend.step fun fuel => ?_
    rw [strchrAt, if_pos (fun h => heq (h.symm.trans hfirst)), if_neg]
    rw [hfirst]
    decide

theorem strtokLoop_skip (hdelim : StringAt m delim [SLASH]) (hnul : m s ≠ 0) (hslash : m s ≠ SLASH)
    {r} (h : Returns (strtokLoop delim m (s + 1)) r) : Returns (strtokLoop delim m s) r := by
  refine ((strchrAt_slash hdelim hnul).and h).step fun fuel h => ?_
  rw [if_neg hslash] at h
  rw [strtokLoop, if_pos hnul, h.1]
  exact h.2

/-- The loop of `strtok` up to the first slash, or to the end. -/
theorem strtokLoop_slash (hdelim : StringAt m delim [SLASH]) {x y : List (BitVec 8)}
    (hs : StringAt m s (x ++ SLASH :: y)) (hx : SLASH ∉ x) :
    Returns (strtokLoop delim m s) (some (s + x.length + 1), put m (s + x.length) 0) := by
  induction x generalizing s with
  | nil =>
    have hbyte : m s = SLASH := hs.1.2
    refine Enough.step (strchrAt_slash hdelim (c := SLASH) (by decide)) fun fuel h => ?_
    rw [strtokLoop, if_pos (by rw [hbyte]; decide), hbyte, h]
    rfl
  | cons c x ih =>
    rw [List.mem_cons, not_or] at hx
    obtain ⟨⟨hc, hbyte⟩, hrest⟩ := hs
    rw [List.length_cons, show s + (x.length + 1) = s + 1 + x.length by omega]
    exact strtokLoop_skip hdelim (hbyte ▸ hc) (hbyte ▸ Ne.symm hx.1) (ih hrest hx.2)

theorem strtokLoop_end (hdelim : StringAt m delim [SLASH]) (hs : StringAt m s t) (ht : SLASH ∉ t) :
    Returns (strtokLoop delim m s) (none, m) := by
  induction t generalizing s with
  | nil =>
    have hbyte : m s = 0 := hs
    exact .now fun fuel => by rw [strtokLoop, if_neg (not_not_intro hbyte)]
  | cons c t ih =>
    rw [List.mem_cons, not_or] at ht
    obtain ⟨⟨hc, hbyte⟩, hrest⟩ := hs
    exact strtokLoop_skip hdelim (hbyte ▸ hc) (hbyte ▸ Ne.symm ht.1) (ih hrest ht.2)

/-- `strdup` got through, so the string fits an `int` and there was a block. -/
theorem strdupLength_eq (hs : StringAt m s t) {k len fuel : Nat} (hk : k ≤ t.length)
    (h : strdupLength m s k fuel = some len) : len = t.length := by
  induction fuel generalizing k with
  | zero => cases h
  | succ fuel ih =>
    rw [strdupLength] at h
    rcases Nat.lt_or_eq_of_le hk with hlt | rfl
    · rw [if_pos (hs.ne_zero hlt)] at h
      split at h
      · exact ih hlt h
      · cases h
    · rw [if_neg (not_not_intro hs.nul)] at h
      exact (Option.some.inj h).symm

theorem strdupAt_some (hs : StringAt m s t) {fuel : Nat} (h : strdupAt str m s fuel = some m') :
    t.length + 1 < 2 ^ 31 ∧ str ≠ 0 := by
  unfold strdupAt at h
  obtain ⟨len, hlen, h⟩ := Option.bind_eq_some_iff.mp h
  rw [strdupLength_eq hs (Nat.zero_le _) hlen] at h
  split at h
  · assumption
  · cases h

theorem strdupLength_returns (hs : StringAt m s t) (ht : t.length < 2 ^ 31) {k : Nat}
    (hk : k ≤ t.length) : Returns (strdupLength m s k) t.length := by
  induction hk using Nat.decreasingInduction with
  | self => exact .now fun fuel => by rw [strdupLength, if_neg (not_not_intro hs.nul)]
  | of_succ k hlt ih =>
    exact ih.step fun fuel => by rw [strdupLength, if_pos (hs.ne_zero hlt), if_pos (by omega)]

theorem strdupCopy_returns (hs : StringAt m s t)
    (hapart : Apart str (t.length + 1) s (t.length + 1)) :
    Returns (strdupCopy m str s) (putBytes m str (t ++ [0])) := by
  unfold Apart at hapart
  induction t generalizing m str s with
  | nil =>
    have hnul : m s = 0 := hs
    exact .now fun fuel => by rw [strdupCopy, if_neg (not_not_intro hnul)]; rfl
  | cons c t ih =>
    rw [List.length_cons] at hapart
    obtain ⟨⟨hc, hbyte⟩, hrest⟩ := hs
    have hkeep : StringAt (put m str c) (s + 1) t :=
      hrest.congr fun i hi => put_ne (by omega)
    refine (ih hkeep (by omega)).step fun fuel => ?_
    rw [strdupCopy, if_pos (by rw [hbyte]; exact hc), hbyte]

/-- **`strdup`** leaves the string in the new block, and changes nothing else. -/
theorem strdupAt_returns (hs : StringAt m s t) (hlen : t.length + 1 < 2 ^ 31) (hstr : str ≠ 0)
    (hapart : Apart str (t.length + 1) s (t.length + 1)) :
    ∃ m', Returns (strdupAt str m s) m' ∧ StringAt m' str t ∧
      ∀ x, x < str ∨ str + (t.length + 1) ≤ x → m' x = m x := by
  refine ⟨putBytes m str (t ++ [0]), ?_, ?_, fun x hx => ?_⟩
  · refine (strdupLength_returns hs (by omega) (Nat.zero_le _)).bind
      (g := fun len fuel => if len + 1 < 2 ^ 31 ∧ str ≠ 0 then strdupCopy m str s fuel else none) ?_
    exact (strdupCopy_returns hs hapart).mono fun fuel h => (if_pos ⟨hlen, hstr⟩).trans h
  · obtain ⟨hbytes, hnul, -⟩ := bytesAt_append.mp (bytesAt_putBytes m str (t ++ [0]))
    exact hbytes.stringAt hs.nul_not_mem hnul
  · refine putBytes_agree _ _ _ ?_
    rw [List.length_append, List.length_singleton]
    exact hx

/-! ### Cutting off the first piece -/

/-- What `strtok` has not cut yet: nothing, or the pieces of a string in the block
`[lo, hi)`. -/
inductive Remaining (m : Mem) (lo hi : Nat) : Option Nat → List (List (BitVec 8)) → Prop
  | done : Remaining m lo hi none []
  | rest {s t pieces} : lo ≤ s → s + t.length < hi → StringAt m s t → t.splitOn SLASH = pieces →
      Remaining m lo hi (some s) pieces

/-- The segment `strtok` has returned, if it did, and what is not cut yet. -/
inductive PathSegment (m : Mem) (lo hi : Nat) :
    Option Nat → Option Nat → List (List (BitVec 8)) → Prop
  | done : PathSegment m lo hi none none []
  | piece {a x s more} : lo ≤ a → a + x.length < hi → StringAt m a x → Remaining m lo hi s more →
      PathSegment m lo hi (some a) s (x :: more)

variable {segment static : Option Nat} {x : List (BitVec 8)} {more pieces : List (List (BitVec 8))}

theorem Remaining.congr (h : Remaining m lo hi static pieces)
    (heq : ∀ z, lo ≤ z → z < hi → m' z = m z) : Remaining m' lo hi static pieces := by
  cases h with
  | done => exact .done
  | rest hlo hhi hs hp => exact .rest hlo hhi (hs.congr fun i hi => heq _ (by omega) (by omega)) hp

/-- The NUL that `strtok` writes ends one string and starts another. -/
theorem stringAt_cut {x y : List (BitVec 8)} (hs : StringAt m s (x ++ SLASH :: y)) :
    StringAt (put m (s + x.length) 0) s x ∧
      StringAt (put m (s + x.length) 0) (s + x.length + 1) y := by
  obtain ⟨⟨hnul, hbytes⟩, -, hy⟩ := stringAt_append.mp hs
  constructor
  · have hx : BytesAt (put m (s + x.length) 0) s x :=
      hbytes.congr fun i hi => put_ne (by omega)
    exact hx.stringAt hnul (put_same _ _ _)
  · exact hy.congr fun i hi => put_ne (by omega)

theorem strtokAt_returns {rest : Option Nat} (h : Returns (strtokLoop delim m s) (rest, m')) :
    Returns (strtokAt delim m (some s) none) (some s, rest, m') := by
  refine h.mono fun fuel h => ?_
  show (strtokLoop delim m s fuel).bind _ = _
  rw [h]
  rfl

/-- **`strtok(NULL, "/")`** cuts off the first piece, if there is one, and writes
only into the block. -/
theorem strtokAt_cut (h : Remaining m lo hi static pieces) (hdelim : StringAt m delim [SLASH]) :
    ∃ segment static' m', Returns (strtokAt delim m static none) (segment, static', m') ∧
      PathSegment m' lo hi segment static' pieces ∧ ∀ z, z < lo ∨ hi ≤ z → m' z = m z := by
  cases h with
  | done => exact ⟨none, none, m, .of_forall fun _ => rfl, .done, fun _ _ => rfl⟩
  | @rest s t pieces hlo hhi hs hp =>
    by_cases hmem : SLASH ∈ t
    · obtain ⟨x, y, rfl, hx⟩ := List.eq_append_cons_of_mem hmem
      rw [List.splitOn_append_cons_self_of_not_mem hx] at hp
      rw [List.length_append, List.length_cons] at hhi
      obtain ⟨hfirst, hrest⟩ := stringAt_cut hs
      refine ⟨some s, _, _, strtokAt_returns (strtokLoop_slash hdelim hs hx), ?_, fun z hz => ?_⟩
      · rw [← hp]
        exact .piece hlo (by omega) hfirst (.rest (by omega) (by omega) hrest rfl)
      · exact put_ne (by omega)
    · rw [List.splitOn_eq_singleton hmem] at hp
      refine ⟨some s, none, m, strtokAt_returns (strtokLoop_end hdelim hs hmem), ?_, fun _ _ => rfl⟩
      rw [← hp]
      exact .piece hlo hhi hs .done

/-! ### `vfs_parse_path` -/

/-- What the allocator answers: the blocks for the copy of the path and for the
segments, 0 for NULL, and whether there is a larger block for the vector when a
segment is pushed. -/
structure SplitBlocks where
  copy : Nat
  name : Nat → Nat
  grant : Nat → Bool

/-- `vec_expand_` computes a size that overflows its `int`. -/
def SizeOverflows (v : Vec Nat) : Prop :=
  v.length + 1 > v.capacity ∧ 2 ^ 31 ≤ (if v.capacity = 0 then 1 else v.capacity <<< 1) * 8

instance (v : Vec Nat) : Decidable (SizeOverflows v) := inferInstanceAs (Decidable (_ ∧ _))

/-- `vec_push(&segments, strdup(segment))`.  The value is computed only if there
is room for it. -/
def pushSegment (g : SplitBlocks) (i : Nat) (m : Mem) (v : Vec Nat) (segment fuel : Nat) :
    Option (Mem × Vec Nat) :=
  if SizeOverflows v then none
  else
    match vecExpand (g.grant i) v with
    | none => some (m, v)
    | some _ => do
      let m ← strdupAt (g.name i) m segment fuel
      some (m, vecPush (g.grant i) v (g.name i))

/-- The loop of `vfs_parse_path`, which has come to segment `i`. -/
def parseLoopAt (g : SplitBlocks) (delim : Nat) : Nat → Mem → Option Nat → Option Nat → Vec Nat → Nat →
    Option (Mem × Option Nat × Vec Nat)
  | _, _, _, _, _, 0 => none
  | _, m, s, none, v, _ + 1 => some (m, s, v)
  | i, m, s, some segment, v, fuel + 1 => do
    let (m, v) ← pushSegment g i m v segment fuel
    let (segment, s, m) ← strtokAt delim m s none fuel
    parseLoopAt g delim (i + 1) m s segment v fuel

/-- `vfs_parse_path`, with the static pointer of `strtok` before and after. -/
def vfsParsePathAt (g : SplitBlocks) (delim : Nat) (m : Mem) (s : Option Nat) (path fuel : Nat) :
    Option (Mem × Option Nat × Vec Nat) := do
  let m ← strdupAt g.copy m path fuel
  let (segment, s, m) ← strtokAt delim m s (some g.copy) fuel
  parseLoopAt g delim 0 m s segment vecInit fuel

/-- The blocks of the allocator are apart from each other and from the strings
that are still read. -/
structure BlocksApart (g : SplitBlocks) (delim path : Nat) (p : List (BitVec 8)) : Prop where
  copy_path : g.copy ≠ 0 → Apart g.copy (p.length + 1) path (p.length + 1)
  copy_delim : g.copy ≠ 0 → Apart g.copy (p.length + 1) delim 2
  name_copy : ∀ i x, (p.splitOn SLASH)[i]? = some x → g.name i ≠ 0 →
    Apart (g.name i) (x.length + 1) g.copy (p.length + 1)
  name_delim : ∀ i x, (p.splitOn SLASH)[i]? = some x → g.name i ≠ 0 →
    Apart (g.name i) (x.length + 1) delim 2
  names : ∀ i j x y, i < j → (p.splitOn SLASH)[i]? = some x → (p.splitOn SLASH)[j]? = some y →
    g.name i ≠ 0 → g.name j ≠ 0 → Apart (g.name i) (x.length + 1) (g.name j) (y.length + 1)

/-- `vfs_parse_path(p)` ends with a non-empty list of strings without slashes,
whose join is `p`, and with `strtok`'s pointer NULL, whatever it was before.  They
are the segments that `vfsParsePath` has. -/
def ParseOk (g : SplitBlocks) (m : Mem) (delim path : Nat) (p : List (BitVec 8)) : Prop :=
  ∃ m' v ptrs segments,
    (∀ s, Returns (vfsParsePathAt g delim m s path) (m', none, v)) ∧
      v.Holds ptrs ∧ List.Forall₂ (StringAt m') ptrs segments ∧
      segments ≠ [] ∧ (∀ x ∈ segments, SLASH ∉ x) ∧ [SLASH].intercalate segments = p ∧
      ∀ s, vfsParsePath s (chars p) = (segments.map chars, none)

/-- The path and the vector fit an `int`, and every block is granted. -/
structure PathFits (g : SplitBlocks) (p : List (BitVec 8)) : Prop where
  length : p.length + 1 < 2 ^ 31
  segments : (p.splitOn SLASH).length ≤ 2 ^ 27
  copy : g.copy ≠ 0
  name : ∀ i < (p.splitOn SLASH).length, g.name i ≠ 0
  grant : ∀ i < (p.splitOn SLASH).length, i = 0 ∨ i.isPowerOfTwo → g.grant i = true

/-! ### Room in the vector -/

/-- The capacity is the least power of two that is not below the length. -/
def CapacityOk (v : Vec Nat) : Prop :=
  (v.length = 0 ∧ v.capacity = 0) ∨
    ∃ k, v.capacity = 2 ^ k ∧ v.length ≤ 2 ^ k ∧ 2 ^ k < 2 * v.length

variable {g : SplitBlocks} {v : Vec Nat} {i : Nat}

theorem CapacityOk.full_iff (h : CapacityOk v) :
    v.length + 1 > v.capacity ↔ v.length = 0 ∨ v.length.isPowerOfTwo := by
  rcases h with ⟨hlen, hcap⟩ | ⟨k, hcap, hle, hlt⟩
  · exact iff_of_true (by omega) (.inl hlen)
  · constructor
    · intro hfull
      exact .inr ⟨k, by omega⟩
    · rintro (hzero | ⟨j, hj⟩)
      · omega
      · -- a power of two between 2 ^ (k - 1) and 2 ^ k
        rw [hj] at hle hlt
        have hjk : k < j + 1 := by
          rw [← Nat.pow_succ'] at hlt
          exact (Nat.pow_lt_pow_iff_right (by decide)).mp hlt
        have hkj : j ≤ k := (Nat.pow_le_pow_iff_right (by decide)).mp hle
        rw [hcap, hj, show j = k by omega]
        exact Nat.lt_succ_self _

theorem CapacityOk.overflows_iff (h : CapacityOk v) :
    SizeOverflows v ↔ v.length + 1 > v.capacity ∧ 2 ^ 27 ≤ v.length := by
  unfold SizeOverflows
  rw [Nat.shiftLeft_eq]
  refine and_congr_right fun hfull => ?_
  rcases h with ⟨hlen, hcap⟩ | ⟨k, hcap, hle, hlt⟩
  · rw [if_pos hcap]
    omega
  · rw [if_neg (by omega)]
    omega

theorem vecExpand_refused {grant : Bool} :
    vecExpand grant v = none ↔ v.length + 1 > v.capacity ∧ grant = false := by
  unfold vecExpand
  by_cases hfull : v.length + 1 > v.capacity
  · cases grant <;> simp [hfull]
  · simp [hfull]

/-- `vec_expand_` leaves the elements, and the least power of two that has room for
one more. -/
theorem vecExpand_room {grant : Bool} {w : Vec Nat} (h : CapacityOk v)
    (hroom : vecExpand grant v = some w) :
    w.data = v.data ∧ w.length = v.length ∧
      ∃ k, w.capacity = 2 ^ k ∧ v.length + 1 ≤ 2 ^ k ∧ 2 ^ k < 2 * (v.length + 1) := by
  unfold vecExpand at hroom
  by_cases hfull : v.length + 1 > v.capacity
  · rw [if_pos hfull] at hroom
    cases grant with
    | false => cases hroom
    | true =>
      cases hroom
      refine ⟨rfl, rfl, ?_⟩
      rcases h with ⟨hlen, hcap⟩ | ⟨k, hcap, hle, hlt⟩
      · exact ⟨0, if_pos hcap, by omega, by omega⟩
      · refine ⟨k + 1, ?_, by omega, by omega⟩
        show (if v.capacity = 0 then 1 else v.capacity <<< 1) = 2 ^ (k + 1)
        rw [if_neg (by omega), Nat.shiftLeft_eq, hcap]
        rfl
  · rw [if_neg hfull] at hroom
    cases hroom
    refine ⟨rfl, rfl, ?_⟩
    rcases h with ⟨hlen, hcap⟩ | ⟨k, hcap, hle, hlt⟩
    · omega
    · exact ⟨k, hcap, by omega, by omega⟩

/-- A push for which there is room. -/
theorem vecPush_room {grant : Bool} {w : Vec Nat} (h : CapacityOk v)
    (hroom : vecExpand grant v = some w) (val : Nat) :
    (vecPush grant v val).length = v.length + 1 ∧ CapacityOk (vecPush grant v val) ∧
      ∀ l, v.Holds l → (vecPush grant v val).Holds (l ++ [val]) := by
  obtain ⟨hdata, hlen, k, hcap, hle, hlt⟩ := vecExpand_room h hroom
  have hpush : vecPush grant v val =
      { data := fun i => if i = v.length then some val else v.data i
        length := v.length + 1
        capacity := w.capacity } := by
    rw [vecPush, hroom]
    dsimp only
    rw [hdata, hlen]
  rw [hpush]
  exact ⟨rfl, .inr ⟨k, hcap, hle, hlt⟩, fun l hl => hl.append val _⟩

/-! ### One round -/

theorem pushSegment_cases {x : List (BitVec 8)} (hx : StringAt m a x) (hlen : x.length + 1 < 2 ^ 31)
    (hapart : g.name i ≠ 0 → Apart (g.name i) (x.length + 1) a (x.length + 1)) (v : Vec Nat) :
    ((SizeOverflows v ∨ g.name i = 0) ∧ ∀ fuel, pushSegment g i m v a fuel = none) ∨
      (vecExpand (g.grant i) v = none ∧ Returns (pushSegment g i m v a) (m, v)) ∨
      (¬ SizeOverflows v ∧ g.name i ≠ 0 ∧ (∃ w, vecExpand (g.grant i) v = some w) ∧
        ∃ m', Returns (pushSegment g i m v a) (m', vecPush (g.grant i) v (g.name i)) ∧
          StringAt m' (g.name i) x ∧
          ∀ z, z < g.name i ∨ g.name i + (x.length + 1) ≤ z → m' z = m z) := by
  by_cases hover : SizeOverflows v
  · exact .inl ⟨.inl hover, fun fuel => if_pos hover⟩
  · cases hroom : vecExpand (g.grant i) v with
    | none =>
      refine .inr (.inl ⟨rfl, .of_forall fun fuel => ?_⟩)
      rw [pushSegment, if_neg hover, hroom]
    | some w =>
      by_cases hname : g.name i = 0
      · refine .inl ⟨.inr hname, fun fuel => ?_⟩
        rw [pushSegment, if_neg hover, hroom]
        dsimp only
        cases hdup : strdupAt (g.name i) m a fuel with
        | none => rfl
        | some m' => exact absurd hname (strdupAt_some hx hdup).2
      · obtain ⟨m', hdup, hcopy, hframe⟩ := strdupAt_returns hx hlen hname (hapart hname)
        refine .inr (.inr ⟨hover, hname, ⟨w, rfl⟩, m', hdup.mono fun fuel h => ?_, hcopy, hframe⟩)
        rw [pushSegment, if_neg hover, hroom]
        dsimp only
        rw [h]
        rfl

/-- The segment is dealt with, and the next one is cut off. -/
theorem parseLoopAt_next {m₁ m₂ : Mem} {v₁ : Vec Nat} {s : Option Nat}
    (hpush : Returns (pushSegment g i m v a) (m₁, v₁))
    (hcut : Returns (strtokAt delim m₁ s none) (segment, static, m₂)) {r} :
    Returns (parseLoopAt g delim i m s (some a) v) r ↔
      Returns (parseLoopAt g delim (i + 1) m₂ static segment v₁) r := by
  refine returns_iff ((hpush.and hcut).mono fun fuel h => ?_)
  rw [parseLoopAt, h.1]
  show (strtokAt delim m₁ s none fuel).bind _ = _
  rw [h.2]
  rfl

/-- The state before a round of the loop that has come to segment `i`. -/
structure Round (g : SplitBlocks) (delim : Nat) (p : List (BitVec 8)) (i : Nat) (m : Mem)
    (static segment : Option Nat) (pieces : List (List (BitVec 8))) : Prop where
  rest : (p.splitOn SLASH).drop i = pieces
  cut : PathSegment m g.copy (g.copy + (p.length + 1)) segment static pieces
  slash : StringAt m delim [SLASH]

theorem Round.head (h : Round g delim p i m static segment (x :: more)) :
    (p.splitOn SLASH)[i]? = some x := by
  rw [← List.head?_drop, h.rest]
  rfl

theorem Round.tail (h : Round g delim p i m static segment (x :: more)) :
    (p.splitOn SLASH).drop (i + 1) = more := by
  rw [← List.drop_drop, h.rest]
  rfl

/-- **One round**: it does not get through, the segment is given up, or it is
pushed; in the last two cases the loop goes on with the other pieces. -/
theorem Round.step {path : Nat} (hblocks : BlocksApart g delim path p) (hlen : p.length + 1 < 2 ^ 31)
    (hcopy : g.copy ≠ 0) (h : Round g delim p i m static segment (x :: more)) (v : Vec Nat) :
    ((SizeOverflows v ∨ g.name i = 0) ∧
        ∀ r, ¬ Returns (parseLoopAt g delim i m static segment v) r) ∨
      ∃ m' static' segment' v', Round g delim p (i + 1) m' static' segment' more ∧
        (∀ r, Returns (parseLoopAt g delim i m static segment v) r ↔
          Returns (parseLoopAt g delim (i + 1) m' static' segment' v') r) ∧
        ((vecExpand (g.grant i) v = none ∧ v' = v) ∨
          (¬ SizeOverflows v ∧ g.name i ≠ 0 ∧ (∃ w, vecExpand (g.grant i) v = some w) ∧
            v' = vecPush (g.grant i) v (g.name i) ∧ StringAt m' (g.name i) x ∧
            ∀ z, (z < g.name i ∨ g.name i + (x.length + 1) ≤ z) →
              (z < g.copy ∨ g.copy + (p.length + 1) ≤ z) → m' z = m z)) := by
  have hhead := h.head
  have htail := h.tail
  obtain ⟨-, hseg, hdelim⟩ := h
  cases hseg with
  | @piece a x s more hlo hhi hx hrest =>
    have hapart : g.name i ≠ 0 → Apart (g.name i) (x.length + 1) a (x.length + 1) := fun hname =>
      (hblocks.name_copy i x hhead hname).mono (Nat.le_refl _) (Nat.le_refl _) hlo (by omega)
    have hdelim_copy := hblocks.copy_delim hcopy
    rcases pushSegment_cases hx (by omega) hapart v with
      ⟨hwhy, hstuck⟩ | ⟨hrefused, hpush⟩ | ⟨hover, hname, hroom, m₁, hpush, hstr, hframe⟩
    · refine .inl ⟨hwhy, fun r hr => ?_⟩
      obtain ⟨fuel, hf⟩ := hr.succ.exists
      rw [parseLoopAt, hstuck] at hf
      cases hf
    · obtain ⟨segment', static', m₂, hcut, hseg', hframe⟩ := strtokAt_cut hrest hdelim
      refine .inr ⟨m₂, static', segment', v, ⟨htail, hseg', ?_⟩, fun r => parseLoopAt_next hpush hcut,
        .inl ⟨hrefused, rfl⟩⟩
      exact stringAt_frame hdelim hdelim_copy hframe
    · have hname_copy := hblocks.name_copy i x hhead hname
      have hrest₁ : Remaining m₁ g.copy (g.copy + (p.length + 1)) static more :=
        hrest.congr fun z h1 h2 => hframe z (by unfold Apart at hname_copy; omega)
      have hdelim₁ := stringAt_frame hdelim (hblocks.name_delim i x hhead hname) hframe
      obtain ⟨segment', static', m₂, hcut, hseg', hframe'⟩ := strtokAt_cut hrest₁ hdelim₁
      refine .inr ⟨m₂, static', segment', _, ⟨htail, hseg', ?_⟩, fun r => parseLoopAt_next hpush hcut,
        .inr ⟨hover, hname, hroom, rfl, ?_, fun z hz hz' => ?_⟩⟩
      · exact stringAt_frame hdelim₁ hdelim_copy hframe'
      · exact stringAt_frame hstr hname_copy.symm hframe'
      · rw [hframe' z hz', hframe z hz]

/-! ### The whole loop -/

/-- The first `i` segments stand in their blocks. -/
def Named (g : SplitBlocks) (p : List (BitVec 8)) (i : Nat) (m : Mem) : Prop :=
  ∀ j < i, ∀ x, (p.splitOn SLASH)[j]? = some x → StringAt m (g.name j) x

theorem parseLoopAt_done (h : Round g delim p i m static segment []) (v : Vec Nat) :
    Returns (parseLoopAt g delim i m static segment v) (m, none, v) := by
  cases h.cut with
  | done => exact .now fun fuel => rfl

/-- **If everything fits**, every piece is pushed. -/
theorem parseLoopAt_returns {path : Nat} (hblocks : BlocksApart g delim path p) (hfits : PathFits g p)
    (h : Round g delim p i m static segment pieces) (hcount : i + pieces.length = (p.splitOn SLASH).length)
    (hv : CapacityOk v) (hholds : v.Holds ((List.range i).map g.name)) (hnamed : Named g p i m) :
    ∃ m' v', Returns (parseLoopAt g delim i m static segment v) (m', none, v') ∧
      v'.Holds ((List.range (p.splitOn SLASH).length).map g.name) ∧
      Named g p (p.splitOn SLASH).length m' := by
  induction pieces generalizing i m static segment v with
  | nil =>
    rw [List.length_nil, Nat.add_zero] at hcount
    rw [← hcount]
    exact ⟨m, v, parseLoopAt_done h v, hholds, hnamed⟩
  | cons x more ih =>
    rw [List.length_cons] at hcount
    have hi : i < (p.splitOn SLASH).length := by omega
    have hvlen : v.length = i := by
      rw [hholds.length, List.length_map, List.length_range]
    have hsegments := hfits.segments
    rcases h.step hblocks hfits.length hfits.copy v with
      ⟨hwhy, -⟩ | ⟨m₂, static₂, segment₂, v₂, hround, hiff, hwhat⟩
    · rcases hwhy with hover | hname
      · have := ((hv.overflows_iff).mp hover).2
        omega
      · exact absurd hname (hfits.name i hi)
    · rcases hwhat with ⟨hrefused, -⟩ | ⟨-, hname, ⟨w, hroom⟩, rfl, hstr, hframe⟩
      · obtain ⟨hfull, hno⟩ := vecExpand_refused.mp hrefused
        have hgrant := hfits.grant i hi (hvlen ▸ hv.full_iff.mp hfull)
        rw [hno] at hgrant
        cases hgrant
      · obtain ⟨-, hv', hpush⟩ := vecPush_room hv hroom (g.name i)
        have hholds' := hpush _ hholds
        rw [← List.map_singleton, ← List.map_append, ← List.range_succ] at hholds'
        have hnamed' : Named g p (i + 1) m₂ := by
          intro j hj y hy
          rcases Nat.lt_succ_iff_lt_or_eq.mp hj with hlt | rfl
          · -- the block of an earlier segment
            have hne := hfits.name j (by omega)
            have h1 := hblocks.names j i y x hlt hy h.head hne hname
            have h2 := hblocks.name_copy j y hy hne
            unfold Apart at h1 h2
            exact (hnamed j hlt y hy).congr fun k hk => hframe _ (by omega) (by omega)
          · rw [h.head] at hy
            cases hy
            exact hstr
        obtain ⟨m', v', hret, hall, hend⟩ := ih hround (by omega) hv' hholds' hnamed'
        exact ⟨m', v', (hiff _).mpr hret, hall, hend⟩

/-- No more segments are pushed than there are pieces. -/
theorem length_parseLoopAt_le {path : Nat} (hblocks : BlocksApart g delim path p)
    (hlen : p.length + 1 < 2 ^ 31) (hcopy : g.copy ≠ 0)
    (h : Round g delim p i m static segment pieces) (hv : CapacityOk v) {r}
    (hr : Returns (parseLoopAt g delim i m static segment v) r) :
    r.2.2.length ≤ v.length + pieces.length := by
  induction pieces generalizing i m static segment v with
  | nil =>
    rw [hr.unique (parseLoopAt_done h v)]
    exact Nat.le_refl _
  | cons x more ih =>
    rw [List.length_cons]
    rcases h.step hblocks hlen hcopy v with
      ⟨-, hstuck⟩ | ⟨m₂, static₂, segment₂, v₂, hround, hiff, hwhat⟩
    · exact absurd hr (hstuck r)
    · have hr' := (hiff r).mp hr
      rcases hwhat with ⟨-, rfl⟩ | ⟨-, -, ⟨w, hroom⟩, rfl, -, -⟩
      · have := ih hround hv hr'
        omega
      · obtain ⟨hlen', hv', -⟩ := vecPush_room hv hroom (g.name i)
        have := ih hround hv' hr'
        omega

/-- **If every piece is pushed**, everything was granted and fitted. -/
theorem granted_of_length {path : Nat} (hblocks : BlocksApart g delim path p)
    (hlen : p.length + 1 < 2 ^ 31) (hcopy : g.copy ≠ 0)
    (h : Round g delim p i m static segment pieces) (hv : CapacityOk v) (hvlen : v.length = i)
    (hi : i ≤ 2 ^ 27) {r} (hr : Returns (parseLoopAt g delim i m static segment v) r)
    (hall : r.2.2.length = i + pieces.length) :
    i + pieces.length ≤ 2 ^ 27 ∧ ∀ j, i ≤ j → j < i + pieces.length →
      g.name j ≠ 0 ∧ (j = 0 ∨ j.isPowerOfTwo → g.grant j = true) := by
  induction pieces generalizing i m static segment v with
  | nil => exact ⟨hi, fun j h1 h2 => absurd h2 (Nat.not_lt.mpr h1)⟩
  | cons x more ih =>
    rw [List.length_cons] at hall ⊢
    rcases h.step hblocks hlen hcopy v with
      ⟨-, hstuck⟩ | ⟨m₂, static₂, segment₂, v₂, hround, hiff, hwhat⟩
    · exact absurd hr (hstuck r)
    · have hr' := (hiff r).mp hr
      rcases hwhat with ⟨-, rfl⟩ | ⟨hover, hname, ⟨w, hroom⟩, rfl, -, -⟩
      · -- one piece less
        have := length_parseLoopAt_le hblocks hlen hcopy hround hv hr'
        omega
      · obtain ⟨hlen', hv', -⟩ := vecPush_room hv hroom (g.name i)
        have hlt : i ≠ 2 ^ 27 := by
          intro heq
          refine hover (hv.overflows_iff.mpr ⟨hv.full_iff.mpr (.inr ⟨27, ?_⟩), ?_⟩) <;> omega
        obtain ⟨hbound, hrest⟩ := ih hround hv' (by omega) (by omega) hr' (by omega)
        refine ⟨by omega, fun j h1 h2 => ?_⟩
        rcases Nat.eq_or_lt_of_le h1 with rfl | hij
        · refine ⟨hname, fun hj => ?_⟩
          rw [← hvlen] at hj
          by_contra hno
          rw [vecExpand_refused.mpr ⟨hv.full_iff.mpr hj, Bool.eq_false_of_not_eq_true hno⟩] at hroom
          cases hroom
        · exact hrest j hij (by omega)

/-! ### The join of the segments -/

/-- The first call of `strtok` goes to the copy, whatever the pointer was. -/
theorem vfsParsePathAt_start {path : Nat} (hblocks : BlocksApart g delim path p)
    (hlen : p.length + 1 < 2 ^ 31) (hcopy : g.copy ≠ 0) (hp : StringAt m path p)
    (hdelim : StringAt m delim [SLASH]) :
    ∃ m' static segment, Round g delim p 0 m' static segment (p.splitOn SLASH) ∧
      ∀ s r, Returns (vfsParsePathAt g delim m s path) r ↔
        Returns (parseLoopAt g delim 0 m' static segment vecInit) r := by
  obtain ⟨m₁, hdup, hcopied, hframe⟩ := strdupAt_returns hp hlen hcopy (hblocks.copy_path hcopy)
  have hapart := hblocks.copy_delim hcopy
  have hdelim₁ := stringAt_frame hdelim hapart hframe
  have hwhole : Remaining m₁ g.copy (g.copy + (p.length + 1)) (some g.copy) (p.splitOn SLASH) :=
    .rest (Nat.le_refl _) (by omega) hcopied rfl
  obtain ⟨segment, static, m', hcut, hseg, hframe'⟩ := strtokAt_cut hwhole hdelim₁
  refine ⟨m', static, segment, ⟨rfl, hseg, ?_⟩, fun s r => returns_congr ?_⟩
  · exact stringAt_frame hdelim₁ hapart hframe'
  · refine (hdup.and hcut).mono fun fuel h => ?_
    rw [vfsParsePathAt, h.1]
    show (strtokAt delim m₁ (some g.copy) none fuel).bind _ = _
    rw [h.2]
    rfl

theorem fits_of_parseOk {path : Nat} (hblocks : BlocksApart g delim path p) (hp : StringAt m path p)
    (hdelim : StringAt m delim [SLASH]) (h : ParseOk g m delim path p) : PathFits g p := by
  obtain ⟨m', v, ptrs, segments, hret, hholds, hstrs, hne, hslash, hjoin, -⟩ := h
  obtain ⟨hlen, hcopy⟩ : p.length + 1 < 2 ^ 31 ∧ g.copy ≠ 0 := by
    obtain ⟨fuel, hf⟩ := (hret none).exists
    obtain ⟨m₁, hdup, -⟩ := Option.bind_eq_some_iff.mp hf
    exact strdupAt_some hp hdup
  have hsplit : p.splitOn SLASH = segments := by
    rw [← hjoin]
    exact List.splitOn_intercalate SLASH hslash hne
  have hcount : v.length = (p.splitOn SLASH).length := by
    rw [hholds.length, hstrs.length_eq, hsplit]
  obtain ⟨m₁, static, segment, hround, hiff⟩ := vfsParsePathAt_start hblocks hlen hcopy hp hdelim
  obtain ⟨hbound, hgranted⟩ := granted_of_length hblocks hlen hcopy hround (.inl ⟨rfl, rfl⟩) rfl
    (Nat.zero_le _) ((hiff none _).mp (hret none)) (by rw [Nat.zero_add]; exact hcount)
  rw [Nat.zero_add] at hbound hgranted
  exact ⟨hlen, hbound, hcopy, fun i hi => (hgranted i (Nat.zero_le i) hi).1,
    fun i hi => (hgranted i (Nat.zero_le i) hi).2⟩

theorem slash_not_mem_splitOn (p : List (BitVec 8)) : ∀ x ∈ p.splitOn SLASH, SLASH ∉ x := by
  induction p with
  | nil => simp
  | cons c p ih =>
    rw [List.splitOn_cons_eq_if_modifyHead]
    by_cases hc : c = SLASH
    · rw [if_pos (beq_iff_eq.mpr hc), List.forall_mem_cons]
      exact ⟨List.not_mem_nil, ih⟩
    · rw [if_neg (fun h => hc (beq_iff_eq.mp h))]
      cases hsplit : p.splitOn SLASH with
      | nil => exact absurd hsplit (List.splitOn_ne_nil _ _)
      | cons x more =>
        rw [hsplit, List.forall_mem_cons] at ih
        rw [List.modifyHead_cons, List.forall_mem_cons, List.mem_cons, not_or]
        exact ⟨⟨Ne.symm hc, ih.1⟩, ih.2⟩

theorem parseOk_of_fits {path : Nat} (hblocks : BlocksApart g delim path p) (hp : StringAt m path p)
    (hdelim : StringAt m delim [SLASH]) (hfits : PathFits g p) : ParseOk g m delim path p := by
  obtain ⟨m₁, static, segment, hround, hiff⟩ :=
    vfsParsePathAt_start hblocks hfits.length hfits.copy hp hdelim
  obtain ⟨m', v, hret, hholds, hnamed⟩ := parseLoopAt_returns hblocks hfits hround (Nat.zero_add _)
    (.inl ⟨rfl, rfl⟩) vecInit_holds fun j hj => absurd hj (Nat.not_lt_zero j)
  refine ⟨m', v, _, p.splitOn SLASH, fun s => (hiff s _).mpr hret, hholds, ?_,
    List.splitOn_ne_nil _ _, slash_not_mem_splitOn p, List.intercalate_splitOn SLASH, fun s => ?_⟩
  · refine List.forall₂_iff_get.mpr ⟨by simp, fun i _ h2 => ?_⟩
    simpa using hnamed i h2 _ (List.getElem?_eq_getElem h2)
  · rw [vfsParsePath_eq, chars_splitOn]

/-- **`vfs_parse_path`** returns the pieces of the path exactly if the path and the
vector fit an `int` and every block is granted. -/
theorem vfs_parse_path_iff (g : SplitBlocks) (m : Mem) (delim path : Nat) (p : List (BitVec 8))
    (hdelim : StringAt m delim [SLASH]) (hp : StringAt m path p)
    (hblocks : BlocksApart g delim path p) : ParseOk g m delim path p ↔ PathFits g p :=
  ⟨fits_of_parseOk hblocks hp hdelim, parseOk_of_fits hblocks hp hdelim⟩

/-! ### Two paths -/

/-- Blocks far behind the path, one for every segment. -/
def farBlocks : SplitBlocks where
  copy := 2 ^ 40
  name := fun i => 2 ^ 41 + i * 2 ^ 40
  grant := fun _ => true

theorem length_le_of_mem_splitOn (p : List (BitVec 8)) :
    ∀ x ∈ p.splitOn SLASH, x.length ≤ p.length := by
  induction p with
  | nil => simp
  | cons c p ih =>
    rw [List.splitOn_cons_eq_if_modifyHead, List.length_cons]
    have hmore : ∀ x ∈ p.splitOn SLASH, x.length ≤ p.length + 1 :=
      fun x hx => Nat.le_succ_of_le (ih x hx)
    split
    · exact List.forall_mem_cons.mpr ⟨Nat.zero_le _, hmore⟩
    · cases hsplit : p.splitOn SLASH with
      | nil => exact absurd hsplit (List.splitOn_ne_nil _ _)
      | cons x more =>
        rw [hsplit] at ih hmore
        rw [List.modifyHead_cons, List.forall_mem_cons]
        exact ⟨Nat.succ_le_succ (ih x List.mem_cons_self), (List.forall_mem_cons.mp hmore).2⟩

theorem farBlocks_apart {path : Nat} (hdelim : delim + 2 ≤ 2 ^ 40)
    (hpath : path + (p.length + 1) ≤ 2 ^ 40) : BlocksApart farBlocks delim path p := by
  have hshort : ∀ (i : Nat) (x : List (BitVec 8)), (p.splitOn SLASH)[i]? = some x →
      x.length ≤ p.length := fun i x hx => length_le_of_mem_splitOn p x (List.mem_of_getElem? hx)
  constructor
  · exact fun _ => .inr hpath
  · exact fun _ => .inr hdelim
  · refine fun i x _ _ => .inr ?_
    simp only [farBlocks]
    omega
  · refine fun i x _ _ => .inr ?_
    simp only [farBlocks]
    omega
  · intro i j x y hij hx _ _ _
    have := hshort i x hx
    left
    simp only [farBlocks]
    omega

theorem farBlocks_name (i : Nat) : farBlocks.name i ≠ 0 := by
  simp only [farBlocks]
  omega

theorem vfs_parse_path_short : ParseOk farBlocks (pathMemory 1) 0x1000 0x2000 [SLASH, 0x61] :=
  (vfs_parse_path_iff farBlocks _ _ _ _ (pathMemory_slash 1) (pathMemory_path 1)
    (farBlocks_apart (by decide) (by decide))).mpr
    ⟨by decide, by decide, by decide, fun i _ => farBlocks_name i, fun _ _ _ => rfl⟩

/-- **A path of 2^31 - 1 bytes**: `strdup` cannot count it, even if every block is
granted. -/
theorem vfs_parse_path_long :
    ¬ ∀ (g : SplitBlocks) (m : Mem) (delim path : Nat) (p : List (BitVec 8)),
      StringAt m delim [SLASH] → StringAt m path p → BlocksApart g delim path p →
      (g.copy ≠ 0 ∧ (∀ i, g.name i ≠ 0) ∧ ∀ i, g.grant i = true) → ParseOk g m delim path p := by
  intro hclaim
  have hlen : (SLASH :: List.replicate (2 ^ 31 - 2) (0x61 : BitVec 8)).length = 2 ^ 31 - 1 := by
    rw [List.length_cons, List.length_replicate]
    omega
  have hblocks : BlocksApart farBlocks 0x1000 0x2000 (SLASH :: List.replicate (2 ^ 31 - 2) 0x61) :=
    farBlocks_apart (by decide) (by rw [hlen]; decide)
  have hok := hclaim farBlocks _ _ _ _ (pathMemory_slash _) (pathMemory_path _) hblocks
    ⟨by decide, farBlocks_name, fun _ => rfl⟩
  have hfits := (fits_of_parseOk hblocks (pathMemory_path _) (pathMemory_slash _) hok).length
  omega

end BestOS
