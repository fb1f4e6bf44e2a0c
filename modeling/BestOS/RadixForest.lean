/-
BestOS/RadixForest.lean

Radix trees stored as a graph of tables, independent of any particular
program.

A table `t : τ` has, for every index `i : ι`, either no child or one
(`child t i`).  Looking a path up is `walk`.  Several roots may live in one
graph and may share subtrees: `Forest child roots shared d` says that

* tables reached by paths of length at most `d` are pairwise distinct, except
  that a path whose first index is `shared` leads to the same table from every
  root (`inj`);
* the roots agree on their shared slots (`agree`).

With one root this is the statement that the tables form a tree.

Two updates keep a forest a forest, and the library says what they do to every
walk:

* `Forest.extend` — hang a fresh, empty table into an empty slot above the
  last level: no lookup of full depth changes;
* `Forest.write`  — overwrite one slot of the last level: exactly the lookups
  through this slot change.

Roots come and go as well: `Forest.addRoot` adds a fresh root whose shared
slots are copied from another root and whose other slots are empty,
`Forest.mono` forgets roots, and `Forest.congr` says that nothing outside the
tables matters.
-/
import Mathlib.Data.Set.Basic
import Mathlib.Tactic.Common

namespace RadixForest

variable {τ ι : Type*}

/-- Follow a path of indices from a table. -/
def walk (child : τ → ι → Option τ) : τ → List ι → Option τ
  | t, [] => some t
  | t, i :: is => (child t i).bind fun t' => walk child t' is

variable {child child' : τ → ι → Option τ}

@[simp] theorem walk_nil (t : τ) : walk child t [] = some t := rfl

theorem walk_append (t : τ) (p q : List ι) :
    walk child t (p ++ q) = (walk child t p).bind fun t' => walk child t' q := by
  induction p generalizing t with
  | nil => rfl
  | cons i p ih =>
      simp only [List.cons_append, walk]
      rcases child t i with - | t'
      · rfl
      · exact ih t'

theorem walk_snoc {t t' : τ} {p : List ι} (h : walk child t p = some t') (i : ι) :
    walk child t (p ++ [i]) = child t' i := by
  rw [walk_append, h]
  simp [walk]

/-- A walk depends only on the slots it reads. -/
theorem walk_congr {t : τ} {q : List ι}
    (h : ∀ p i s, q = p ++ i :: s → ∀ t', walk child t p = some t' → child' t' i = child t' i) :
    walk child' t q = walk child t q := by
  induction q generalizing t with
  | nil => rfl
  | cons j q ih =>
      have hj : child' t j = child t j := h [] j q rfl t rfl
      simp only [walk, hj]
      rcases e : child t j with - | t'
      · rfl
      · refine ih fun p i s hq t'' hw => h (j :: p) i s (by rw [hq]; rfl) t'' ?_
        simp only [walk, e]
        exact hw

/-- The tables reached from `roots` by paths of length at most `d`. -/
def Table (child : τ → ι → Option τ) (roots : Set τ) (d : Nat) (t : τ) : Prop :=
  ∃ r ∈ roots, ∃ p : List ι, p.length ≤ d ∧ walk child r p = some t

/-- Distinct paths lead to distinct tables, up to the shared subtrees. -/
structure Forest (child : τ → ι → Option τ) (roots : Set τ) (shared : ι → Prop) (d : Nat) :
    Prop where
  inj : ∀ r ∈ roots, ∀ r' ∈ roots, ∀ (p p' : List ι) (t : τ), p.length ≤ d → p'.length ≤ d →
    walk child r p = some t → walk child r' p' = some t →
    p = p' ∧ (r = r' ∨ ∃ i q, p = i :: q ∧ shared i)
  agree : ∀ r ∈ roots, ∀ r' ∈ roots, ∀ i, shared i → child r i = child r' i

variable {roots : Set τ} {shared : ι → Prop} {d : Nat}

/-- A shared path leads to the same place from every root. -/
theorem Forest.walk_shared (h : Forest child roots shared d) {r r' : τ} (hr : r ∈ roots)
    (hr' : r' ∈ roots) {i : ι} (hi : shared i) (q : List ι) :
    walk child r (i :: q) = walk child r' (i :: q) := by
  simp only [walk, h.agree r hr r' hr' i hi]

/-- From an empty table only the empty path leads anywhere. -/
theorem walk_of_empty {r : τ} (h : ∀ i, child r i = none) {p : List ι} {t : τ}
    (hw : walk child r p = some t) : p = [] ∧ t = r := by
  cases p with
  | nil => exact ⟨rfl, (Option.some.inj hw).symm⟩
  | cons i p =>
      rw [walk, h i] at hw
      cases hw

/-- A single empty root is a forest. -/
theorem Forest.of_empty {r : τ} (h : ∀ i, child r i = none) : Forest child {r} shared d where
  inj := by
    rintro r₁ rfl r₂ rfl p₁ p₂ t - - hw₁ hw₂
    rw [(walk_of_empty h hw₁).1, (walk_of_empty h hw₂).1]
    exact ⟨rfl, .inl rfl⟩
  agree := by
    rintro r₁ rfl r₂ rfl i -
    rfl

theorem Table.of_empty {r t : τ} (h : ∀ i, child r i = none) (ht : Table child {r} d t) :
    t = r := by
  obtain ⟨r', rfl, p, -, hw⟩ := ht
  exact (walk_of_empty h hw).2

/-! ### Changing one slot -/

/-- `child'` differs from `child`, on the tables of the forest, at most in slot
`(t, i)`. -/
def SameExcept (child child' : τ → ι → Option τ) (roots : Set τ) (d : Nat) (t : τ) (i : ι) :
    Prop :=
  ∀ t', Table child roots d t' → ∀ j, (t' = t ∧ j = i) ∨ child' t' j = child t' j

/-- A walk that does not go through the changed slot is unchanged. -/
theorem walk_avoid {t : τ} {i : ι} (hs : SameExcept child child' roots d t i) {r : τ}
    (hr : r ∈ roots) {q : List ι} (hq : q.length ≤ d + 1)
    (havoid : ∀ p s, q = p ++ i :: s → walk child r p ≠ some t) :
    walk child' r q = walk child r q := by
  refine walk_congr fun p j s hqe t' hw => ?_
  have hp : p.length ≤ d := by
    have := congrArg List.length hqe
    simp only [List.length_append, List.length_cons] at this
    omega
  rcases hs t' ⟨r, hr, p, hp, hw⟩ j with ⟨rfl, rfl⟩ | h
  · exact absurd hw (havoid p s hqe)
  · exact h

/-- Paths through slot `(t, i)`, when `t` is reached by `p` from `r`. -/
def Through (r : τ) (p : List ι) (i : ι) (shared : ι → Prop) (r' : τ) (q : List ι) : Prop :=
  (r = r' ∨ ∃ j p', p = j :: p' ∧ shared j) ∧ ∃ s, q = p ++ i :: s

section Update

variable {r t : τ} {p : List ι} {i : ι}

/-- Only paths through the slot read it. -/
theorem Forest.avoid_of_not_through (h : Forest child roots shared d) (hr : r ∈ roots)
    (hp : p.length ≤ d) (hw : walk child r p = some t) {r' : τ} (hr' : r' ∈ roots) {q : List ι}
    (hq : q.length ≤ d + 1) (hn : ¬ Through r p i shared r' q) :
    ∀ p' s, q = p' ++ i :: s → walk child r' p' ≠ some t := by
  intro p' s hqe hw'
  have hp' : p'.length ≤ d := by
    have := congrArg List.length hqe
    simp only [List.length_append, List.length_cons] at this
    omega
  obtain ⟨rfl, hroot⟩ := h.inj r hr r' hr' p p' t hp hp' hw hw'
  exact hn ⟨hroot, s, hqe⟩

/-- The path to the slot is itself unchanged, from every root that reaches it. -/
theorem Forest.walk_to_slot (h : Forest child roots shared d)
    (hs : SameExcept child child' roots d t i) (hr : r ∈ roots) (hp : p.length ≤ d)
    (hw : walk child r p = some t) {r' : τ} (hr' : r' ∈ roots)
    (hroot : r = r' ∨ ∃ j p', p = j :: p' ∧ shared j) : walk child' r' p = some t := by
  have hw' : walk child r' p = some t := by
    rcases hroot with rfl | ⟨j, p', rfl, hj⟩
    · exact hw
    · rw [← h.walk_shared hr hr' hj]
      exact hw
  rw [walk_avoid hs hr' (by omega) ?_, hw']
  intro p' s hpe hw''
  -- a proper prefix of `p` would reach `t` too
  have hlen := congrArg List.length hpe
  simp only [List.length_append, List.length_cons] at hlen
  obtain ⟨hpp, -⟩ := h.inj r' hr' r' hr' p p' t hp (by omega) hw' hw''
  rw [← hpp] at hlen
  omega

/-- The walk through the changed slot. -/
theorem Forest.walk_through (h : Forest child roots shared d)
    (hs : SameExcept child child' roots d t i) (hr : r ∈ roots) (hp : p.length ≤ d)
    (hw : walk child r p = some t) {r' : τ} (hr' : r' ∈ roots)
    (hroot : r = r' ∨ ∃ j p', p = j :: p' ∧ shared j) (s : List ι) :
    walk child' r' (p ++ i :: s) = (child' t i).bind fun t' => walk child' t' s := by
  rw [walk_append, h.walk_to_slot hs hr hp hw hr' hroot]
  rfl

/-- **Hanging a fresh table into an empty slot.**  Lookups of full depth do not
change, the new table is reached by the path of the slot, no other table
appears and none moves. -/
theorem Forest.extend (h : Forest child roots shared d)
    (hs : SameExcept child child' roots d t i) (hr : r ∈ roots) (hp : p.length < d)
    (hw : walk child r p = some t) (hempty : child t i = none) {f : τ}
    (hnew : child' t i = some f) (hleaf : ∀ j, child' f j = none)
    (hfresh : ¬ Table child roots d f)
    (htop : p = [] → shared i → ∀ r' ∈ roots, r' = r) :
    Forest child' roots shared d ∧ walk child' r (p ++ [i]) = some f ∧
      (∀ r' ∈ roots, ∀ q : List ι, q.length = d + 1 → walk child' r' q = walk child r' q) ∧
      (∀ r' ∈ roots, ∀ (q : List ι) (t' : τ), q.length ≤ d → walk child' r' q = some t' →
        walk child r' q = some t' ∨ (t' = f ∧ q = p ++ [i] ∧
          (r = r' ∨ ∃ j p', p = j :: p' ∧ shared j))) ∧
      (∀ r' ∈ roots, ∀ (q : List ι) (t' : τ), q.length ≤ d → walk child r' q = some t' →
        walk child' r' q = some t') := by
  have hpd : p.length ≤ d := by omega
  -- where a path of the new graph leads
  have key : ∀ r' ∈ roots, ∀ q : List ι, q.length ≤ d + 1 →
      walk child' r' q = walk child r' q ∨ (walk child r' q = none ∧ q = p ++ [i] ∧
        walk child' r' q = some f ∧ (r = r' ∨ ∃ j p', p = j :: p' ∧ shared j)) := by
    intro r' hr' q hq
    by_cases hth : Through r p i shared r' q
    · obtain ⟨hroot, s, rfl⟩ := hth
      have hold : walk child r' (p ++ i :: s) = none := by
        have hself : SameExcept child child roots d t i := fun _ _ _ => .inr rfl
        rw [h.walk_through hself hr hpd hw hr' hroot, hempty]
        rfl
      have hnewq := h.walk_through hs hr hpd hw hr' hroot s
      rw [hnew, Option.bind_some] at hnewq
      cases s with
      | nil => exact .inr ⟨hold, rfl, hnewq, hroot⟩
      | cons j s =>
          left
          rw [hold, hnewq]
          simp [walk, hleaf j]
    · exact .inl (walk_avoid hs hr' hq (h.avoid_of_not_through hr hpd hw hr' hq hth))
  have holdOf : ∀ r' ∈ roots, ∀ (q : List ι) (t' : τ), q.length ≤ d →
      walk child' r' q = some t' → walk child r' q = some t' ∨
        (t' = f ∧ q = p ++ [i] ∧ (r = r' ∨ ∃ j p', p = j :: p' ∧ shared j)) := by
    intro r' hr' q t' hq hwq
    rcases key r' hr' q (by omega) with e | ⟨-, hqe, e, hroot⟩
    · exact .inl (e ▸ hwq)
    · exact .inr ⟨Option.some.inj (hwq.symm.trans e), hqe, hroot⟩
  refine ⟨⟨?_, ?_⟩, ?_, ?_, holdOf, ?_⟩
  · intro r₁ hr₁ r₂ hr₂ p₁ p₂ t' hp₁ hp₂ hw₁ hw₂
    rcases holdOf r₁ hr₁ p₁ t' hp₁ hw₁ with ho₁ | ⟨rfl, rfl, hroot₁⟩
    · rcases holdOf r₂ hr₂ p₂ t' hp₂ hw₂ with ho₂ | ⟨rfl, -, -⟩
      · exact h.inj r₁ hr₁ r₂ hr₂ p₁ p₂ t' hp₁ hp₂ ho₁ ho₂
      · exact absurd ⟨r₁, hr₁, p₁, hp₁, ho₁⟩ hfresh
    · rcases holdOf r₂ hr₂ p₂ t' hp₂ hw₂ with ho₂ | ⟨-, rfl, hroot₂⟩
      · exact absurd ⟨r₂, hr₂, p₂, hp₂, ho₂⟩ hfresh
      · refine ⟨rfl, ?_⟩
        rcases hroot₁ with rfl | ⟨j, p', rfl, hj⟩
        · rcases hroot₂ with rfl | ⟨j, p', rfl, hj⟩
          · exact .inl rfl
          · exact .inr ⟨j, p' ++ [i], rfl, hj⟩
        · exact .inr ⟨j, p' ++ [i], rfl, hj⟩
  · intro r₁ hr₁ r₂ hr₂ j hj
    by_cases hslot : ∃ r' ∈ roots, r' = t ∧ j = i
    · -- a shared slot of a root is filled only when there is one root
      obtain ⟨r', hr', rfl, rfl⟩ := hslot
      obtain ⟨hpe, -⟩ := h.inj r hr r' hr' p [] r' hpd (by simp) hw rfl
      have hone := htop hpe hj
      rw [hone r₁ hr₁, hone r₂ hr₂]
    · have same : ∀ r' ∈ roots, child' r' j = child r' j := by
        intro r' hr'
        rcases hs r' ⟨r', hr', [], by simp, rfl⟩ j with ⟨h1, h2⟩ | e
        · exact absurd ⟨r', hr', h1, h2⟩ hslot
        · exact e
      rw [same r₁ hr₁, same r₂ hr₂]
      exact h.agree r₁ hr₁ r₂ hr₂ j hj
  · rw [walk_snoc (h.walk_to_slot hs hr hpd hw hr (.inl rfl)), hnew]
  · intro r' hr' q hq
    rcases key r' hr' q (by omega) with e | ⟨-, rfl, -, -⟩
    · exact e
    · simp only [List.length_append, List.length_cons, List.length_nil] at hq
      omega
  · intro r' hr' q t' hq hwq
    rcases key r' hr' q (by omega) with e | ⟨e, -, -, -⟩
    · exact e.trans hwq
    · rw [e] at hwq
      cases hwq

/-- **Overwriting a slot of the last level.**  No table changes, and exactly
the lookups through the slot give its new content. -/
theorem Forest.write (h : Forest child roots shared d)
    (hs : SameExcept child child' roots d t i) (hr : r ∈ roots) (hp : p.length = d)
    (hd : 0 < d) (hw : walk child r p = some t) :
    Forest child' roots shared d ∧
      (∀ r' ∈ roots, ∀ q : List ι, q.length ≤ d → walk child' r' q = walk child r' q) ∧
      (∀ r' ∈ roots, ∀ q : List ι, q.length = d + 1 →
        (¬ Through r p i shared r' q → walk child' r' q = walk child r' q) ∧
        (Through r p i shared r' q → walk child' r' q = child' t i)) := by
  have hpd : p.length ≤ d := by omega
  -- a walk through the slot has more than `d` steps
  have hshort : ∀ r' ∈ roots, ∀ q : List ι, q.length ≤ d →
      walk child' r' q = walk child r' q := by
    intro r' hr' q hq
    refine walk_avoid hs hr' (by omega) (h.avoid_of_not_through hr hpd hw hr' (by omega) ?_)
    rintro ⟨-, s, rfl⟩
    simp only [List.length_append, List.length_cons] at hq
    omega
  refine ⟨⟨?_, ?_⟩, hshort, ?_⟩
  · intro r₁ hr₁ r₂ hr₂ p₁ p₂ t' hp₁ hp₂ hw₁ hw₂
    rw [hshort r₁ hr₁ p₁ hp₁] at hw₁
    rw [hshort r₂ hr₂ p₂ hp₂] at hw₂
    exact h.inj r₁ hr₁ r₂ hr₂ p₁ p₂ t' hp₁ hp₂ hw₁ hw₂
  · intro r₁ hr₁ r₂ hr₂ j hj
    have slot : ∀ r' ∈ roots, child' r' j = child r' j := by
      intro r' hr'
      simpa [walk] using hshort r' hr' [j] (by simpa [Nat.succ_le_iff] using hd)
    rw [slot r₁ hr₁, slot r₂ hr₂]
    exact h.agree r₁ hr₁ r₂ hr₂ j hj
  · intro r' hr' q hq
    refine ⟨fun hn => ?_, ?_⟩
    · exact walk_avoid hs hr' (by omega) (h.avoid_of_not_through hr hpd hw hr' (by omega) hn)
    · rintro ⟨hroot, s, rfl⟩
      have hs0 : s = [] := by
        simp only [List.length_append, List.length_cons] at hq
        exact List.length_eq_zero_iff.mp (by omega)
      subst hs0
      rw [walk_snoc (h.walk_to_slot hs hr hpd hw hr' hroot)]

end Update

/-! ### Changing the set of roots -/

/-- Fewer roots, fewer tables. -/
theorem Table.mono {roots' : Set τ} (hsub : roots' ⊆ roots) {t : τ}
    (h : Table child roots' d t) : Table child roots d t := by
  obtain ⟨r, hr, p, hp, hw⟩ := h
  exact ⟨r, hsub hr, p, hp, hw⟩

theorem Forest.mono {roots' : Set τ} (hsub : roots' ⊆ roots) (h : Forest child roots shared d) :
    Forest child roots' shared d where
  inj := fun r hr r' hr' => h.inj r (hsub hr) r' (hsub hr')
  agree := fun r hr r' hr' => h.agree r (hsub hr) r' (hsub hr')

/-- No root is a table below another root. -/
theorem Forest.root_eq (h : Forest child roots shared d) {r r' : τ} (hr : r ∈ roots)
    (hr' : r' ∈ roots) {p : List ι} (hp : p.length ≤ d) (hw : walk child r' p = some r) :
    r = r' := by
  obtain ⟨hnil, heq | ⟨i, q, hcons, -⟩⟩ := h.inj r hr r' hr' [] p r (Nat.zero_le d) hp rfl hw
  · exact heq
  · cases hcons

/-- Walks of full depth read nothing but the tables. -/
theorem walk_eq_of_tables (hs : ∀ t, Table child roots d t → ∀ j, child' t j = child t j) {r : τ}
    (hr : r ∈ roots) {q : List ι} (hq : q.length ≤ d + 1) : walk child' r q = walk child r q := by
  refine walk_congr fun p i s hqe t hw => hs t ⟨r, hr, p, ?_, hw⟩ i
  have := congrArg List.length hqe
  simp only [List.length_append, List.length_cons] at this
  omega

theorem Forest.congr (h : Forest child roots shared d)
    (hs : ∀ t, Table child roots d t → ∀ j, child' t j = child t j) :
    Forest child' roots shared d where
  inj := by
    intro r hr r' hr' p p' t hp hp' hw hw'
    rw [walk_eq_of_tables hs hr (by omega)] at hw
    rw [walk_eq_of_tables hs hr' (by omega)] at hw'
    exact h.inj r hr r' hr' p p' t hp hp' hw hw'
  agree := by
    intro r hr r' hr' i hi
    rw [hs r ⟨r, hr, [], Nat.zero_le d, rfl⟩, hs r' ⟨r', hr', [], Nat.zero_le d, rfl⟩]
    exact h.agree r hr r' hr' i hi

theorem Table.congr (hs : ∀ t, Table child roots d t → ∀ j, child' t j = child t j) {e : Nat}
    (he : e ≤ d) {t : τ} (h : Table child' roots e t) : Table child roots e t := by
  obtain ⟨r, hr, p, hp, hw⟩ := h
  rw [walk_eq_of_tables hs hr (by omega)] at hw
  exact ⟨r, hr, p, hp, hw⟩

/-- **A fresh root.**  Its shared slots are those of root `k`, its other slots
are empty: the shared subtrees are now reached from it too, and nothing else
is new. -/
theorem Forest.addRoot (h : Forest child roots shared d) {k f : τ} (hk : k ∈ roots)
    (hfresh : ¬ Table child roots d f)
    (hs : ∀ t, Table child roots d t → ∀ j, child' t j = child t j)
    (hshared : ∀ i, shared i → child' f i = child k i)
    (hempty : ∀ i, ¬ shared i → child' f i = none) :
    Forest child' (insert f roots) shared d ∧
      (∀ i, shared i → ∀ q : List ι, q.length ≤ d →
        walk child' f (i :: q) = walk child k (i :: q)) ∧
      (∀ e ≤ d, ∀ t, Table child' (insert f roots) e t → t = f ∨ Table child roots e t) := by
  have hcopy : ∀ i, shared i → ∀ q : List ι, q.length ≤ d →
      walk child' f (i :: q) = walk child k (i :: q) := by
    intro i hi q hq
    rw [← walk_eq_of_tables hs hk (show (i :: q).length ≤ d + 1 by simpa using hq)]
    simp only [walk, hshared i hi, hs k ⟨k, hk, [], Nat.zero_le d, rfl⟩]
  -- every walk of the new graph is the empty one from `f`, or a walk of the old graph
  have hold : ∀ r ∈ insert f roots, ∀ (p : List ι) (t : τ), p.length ≤ d →
      walk child' r p = some t → (r = f ∧ p = [] ∧ t = f) ∨
        ∃ r₀ ∈ roots, walk child r₀ p = some t ∧ (r₀ = r ∨ ∃ i q, p = i :: q ∧ shared i) := by
    rintro r (rfl | hr) p t hp hw
    · cases p with
      | nil => exact .inl ⟨rfl, rfl, (Option.some.inj hw).symm⟩
      | cons i q =>
          right
          by_cases hi : shared i
          · rw [hcopy i hi q (by simp only [List.length_cons] at hp; omega)] at hw
            exact ⟨k, hk, hw, .inr ⟨i, q, rfl, hi⟩⟩
          · rw [walk, hempty i hi] at hw
            cases hw
    · rw [walk_eq_of_tables hs hr (by omega)] at hw
      exact .inr ⟨r, hr, hw, .inl rfl⟩
  refine ⟨⟨?_, ?_⟩, hcopy, ?_⟩
  · intro r hr r' hr' p p' t hp hp' hw hw'
    rcases hold r hr p t hp hw with ⟨rfl, rfl, rfl⟩ | ⟨r₀, hr₀, hw₀, hroot⟩
    · rcases hold r' hr' p' t hp' hw' with ⟨rfl, rfl, -⟩ | ⟨r₀', hr₀', hw₀', -⟩
      · exact ⟨rfl, .inl rfl⟩
      · exact absurd ⟨r₀', hr₀', p', hp', hw₀'⟩ hfresh
    · rcases hold r' hr' p' t hp' hw' with ⟨rfl, rfl, rfl⟩ | ⟨r₀', hr₀', hw₀', hroot'⟩
      · exact absurd ⟨r₀, hr₀, p, hp, hw₀⟩ hfresh
      · obtain ⟨rfl, hsame⟩ := h.inj r₀ hr₀ r₀' hr₀' p p' t hp hp' hw₀ hw₀'
        refine ⟨rfl, ?_⟩
        rcases hroot with rfl | hsh
        · rcases hroot' with rfl | hsh
          · exact hsame
          · exact .inr hsh
        · exact .inr hsh
  · have hslot : ∀ r ∈ insert f roots, ∀ i, shared i → child' r i = child k i := by
      rintro r (rfl | hr) i hi
      · exact hshared i hi
      · rw [hs r ⟨r, hr, [], Nat.zero_le d, rfl⟩]
        exact h.agree r hr k hk i hi
    intro r hr r' hr' i hi
    rw [hslot r hr i hi, hslot r' hr' i hi]
  · rintro e he t ⟨r, hr, p, hp, hw⟩
    rcases hold r hr p t (by omega) hw with ⟨-, -, rfl⟩ | ⟨r₀, hr₀, hw₀, -⟩
    · exact .inl rfl
    · exact .inr ⟨r₀, hr₀, p, hp, hw₀⟩

end RadixForest
