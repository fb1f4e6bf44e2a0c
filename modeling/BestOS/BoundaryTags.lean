/-
BestOS/BoundaryTags.lean

Runs of memory cut into pieces by boundary tags, independent of any particular
program.

An allocator obtains runs of memory and cuts them into pieces that lie side by
side.  Every piece begins with a tag of `hdr` bytes that knows the pieces to its
left and right; a piece is in use, or it is kept for later on a list.  `Arena`
records the pieces by their addresses.

* `Tiled` — the pieces tile their runs: they do not meet, and what is not at the
  edge of its run has a neighbour there that knows it;
* `Coalesced` — of two neighbours one is in use, so that free memory is never cut
  in two.  Where nothing is in use, every piece is a whole run (`whole_of_idle`).

The operations are `relist` (onto a list or off it), `split` and `join`, `place` and
`drop` (a run comes and goes).  Each keeps both under the conditions that its client
has to see to.
-/
import BestOS.BlockHeap
import Mathlib.Tactic.Common

namespace BoundaryTags

open BlockHeap

/-- What is known of the piece at an address.  `left` and `right` are 0 at the edges of
the run, which has the address `base` and is `len` bytes long. -/
structure Piece where
  size : Nat
  left : Nat
  right : Nat
  base : Nat
  len : Nat
  list : Option Nat
deriving DecidableEq

abbrev Arena := Nat → Option Piece

namespace Arena

/-- A change of one piece. -/
def modify (A : Arena) (a : Nat) (f : Piece → Piece) : Arena :=
  Function.update A a ((A a).map f)

/-- Onto the list `l`, or off every list. -/
def relist (A : Arena) (a : Nat) (l : Option Nat) : Arena :=
  A.modify a fun p => { p with list := l }

/-- Cut `n` bytes behind the address of the piece `p`. -/
def split (A : Arena) (a n : Nat) (p : Piece) : Arena :=
  Function.update
    (Function.update (A.modify p.right fun q => { q with left := a + n }) a
      (some { p with size := n, right := a + n }))
    (a + n) (some { p with size := p.size - n, left := a, list := none })

/-- The piece `p` swallows its right neighbour `q`. -/
def join (A : Arena) (a : Nat) (p q : Piece) : Arena :=
  Function.update
    (Function.update (A.modify q.right fun r => { r with left := a }) p.right none) a
      (some { p with size := p.size + q.size, right := q.right })

/-- A new run, in one piece. -/
def place (A : Arena) (a n : Nat) : Arena :=
  Function.update A a (some { size := n, left := 0, right := 0, base := a, len := n, list := none })

/-- A piece that is a whole run goes. -/
def drop (A : Arena) (a : Nat) : Arena := Function.update A a none

/-- The pieces tile their runs. -/
structure Tiled (hdr : Nat) (A : Arena) : Prop where
  room : ∀ {a p}, A a = some p → a ≠ 0 ∧ hdr ≤ p.size
  apart : ∀ {a b p q}, A a = some p → A b = some q → a ≠ b → Apart a p.size b q.size
  inside : ∀ {a p}, A a = some p → p.base ≤ a ∧ a + p.size ≤ p.base + p.len
  runs : ∀ {a b p q}, A a = some p → A b = some q →
    (p.base = q.base ∧ p.len = q.len) ∨ Apart p.base p.len q.base q.len
  left : ∀ {a p}, A a = some p → p.left ≠ 0 →
    ∃ q, A p.left = some q ∧ q.right = a ∧ p.left + q.size = a ∧ q.base = p.base ∧ q.len = p.len
  right : ∀ {a p}, A a = some p → p.right ≠ 0 →
    ∃ q, A p.right = some q ∧ q.left = a ∧ a + p.size = p.right ∧ q.base = p.base ∧ q.len = p.len
  first : ∀ {a p}, A a = some p → p.left = 0 → a = p.base
  last : ∀ {a p}, A a = some p → p.right = 0 → a + p.size = p.base + p.len

/-- Free pieces are never neighbours. -/
def Coalesced (A : Arena) : Prop :=
  ∀ ⦃a p q⦄, A a = some p → A p.right = some q → p.list = none ∨ q.list = none

/-- A piece that is a whole run. -/
def Whole (p : Piece) : Prop := p.left = 0 ∧ p.right = 0

instance : DecidablePred Whole := fun p => inferInstanceAs (Decidable (p.left = 0 ∧ p.right = 0))

variable {hdr : Nat} {A : Arena} {a b n : Nat} {p q : Piece}

theorem modify_same (f : Piece → Piece) : A.modify a f a = (A a).map f := by
  simp [modify]

theorem modify_ne (f : Piece → Piece) (h : b ≠ a) : A.modify a f b = A b := by
  simp [modify, h]

namespace Tiled

theorem null (ok : A.Tiled hdr) : A 0 = none := by
  by_contra h
  obtain ⟨p, hp⟩ := Option.ne_none_iff_exists'.mp h
  exact (ok.room hp).1 rfl

/-- A whole piece fills its run. -/
theorem whole (ok : A.Tiled hdr) (h : A a = some p) (hw : Whole p) : p.base = a ∧ p.len = p.size := by
  have hbase := ok.first h hw.1
  have hlast := ok.last h hw.2
  omega

/-- **With nothing in use, memory is in whole runs.** -/
theorem whole_of_idle (ok : A.Tiled hdr) (hc : A.Coalesced) (hidle : ∀ {b q}, A b = some q → q.list ≠ none)
    (h : A a = some p) : Whole p := by
  constructor
  · by_contra hne
    obtain ⟨q, hq, hright, -⟩ := ok.left h hne
    rcases hc hq (by rw [hright]; exact h) with hfree | hfree
    · exact hidle hq hfree
    · exact hidle h hfree
  · by_contra hne
    obtain ⟨q, hq, -⟩ := ok.right h hne
    rcases hc h hq with hfree | hfree
    · exact hidle h hfree
    · exact hidle hq hfree

/-- Nothing begins inside a piece. -/
theorem none_inside (ok : A.Tiled hdr) (h0 : 0 < hdr) (h : A a = some p) (hlo : a < b)
    (hhi : b < a + p.size) : A b = none := by
  by_contra hne
  obtain ⟨q, hq⟩ := Option.ne_none_iff_exists'.mp hne
  have hroom := (ok.room hq).2
  rcases ok.apart h hq (by omega) with hle | hle <;> omega

/-- Nothing begins in a run apart from all others. -/
theorem none_of_apart (ok : A.Tiled hdr) (h0 : 0 < hdr) (hn : 0 < n)
    (hnew : ∀ {b q}, A b = some q → Apart a n q.base q.len) : A a = none := by
  by_contra hne
  obtain ⟨q, hq⟩ := Option.ne_none_iff_exists'.mp hne
  have hin := ok.inside hq
  have hroom := (ok.room hq).2
  rcases hnew hq with hle | hle <;> omega

theorem right_ne_self (ok : A.Tiled hdr) (h0 : 0 < hdr) (h : A a = some p) : p.right ≠ a := by
  intro he
  have hroom := ok.room h
  obtain ⟨q, -, -, hend, -⟩ := ok.right h (by rw [he]; exact hroom.1)
  omega

end Tiled

/-! ### Lists -/

theorem relist_same (l : Option Nat) (h : A a = some p) :
    A.relist a l a = some { p with list := l } := by
  rw [relist, modify_same, h]
  rfl

theorem relist_ne (l : Option Nat) (h : b ≠ a) : A.relist a l b = A b := modify_ne _ h

/-- What the piece at `b` was before. -/
theorem relist_cases {l : Option Nat} (h : A.relist a l b = some q) :
    ∃ q₀, A b = some q₀ ∧ q = { q₀ with list := if b = a then l else q₀.list } := by
  by_cases hba : b = a
  · subst hba
    rw [relist, modify_same, Option.map_eq_some_iff] at h
    obtain ⟨q₀, hq₀, rfl⟩ := h
    exact ⟨q₀, hq₀, by simp⟩
  · rw [relist_ne l hba] at h
    exact ⟨q, h, by simp [hba]⟩

/-- The piece at `b` afterwards. -/
theorem relist_of {l : Option Nat} (h : A b = some q) :
    A.relist a l b = some { q with list := if b = a then l else q.list } := by
  by_cases hba : b = a
  · subst hba
    rw [relist_same l h, if_pos rfl]
  · rw [relist_ne l hba, h, if_neg hba]

theorem Tiled.relist (ok : A.Tiled hdr) (a : Nat) (l : Option Nat) :
    (A.relist a l).Tiled hdr where
  room h := by
    obtain ⟨q, hq, rfl⟩ := relist_cases h
    exact (ok.room hq :)
  apart h h' hne := by
    obtain ⟨q, hq, rfl⟩ := relist_cases h
    obtain ⟨r, hr, rfl⟩ := relist_cases h'
    exact (ok.apart hq hr hne :)
  inside h := by
    obtain ⟨q, hq, rfl⟩ := relist_cases h
    exact (ok.inside hq :)
  runs h h' := by
    obtain ⟨q, hq, rfl⟩ := relist_cases h
    obtain ⟨r, hr, rfl⟩ := relist_cases h'
    exact (ok.runs hq hr :)
  left h hne := by
    obtain ⟨q, hq, rfl⟩ := relist_cases h
    obtain ⟨r, hr, hrest⟩ := ok.left hq hne
    exact ⟨_, relist_of hr, hrest⟩
  right h hne := by
    obtain ⟨q, hq, rfl⟩ := relist_cases h
    obtain ⟨r, hr, hrest⟩ := ok.right hq hne
    exact ⟨_, relist_of hr, hrest⟩
  first h := by
    obtain ⟨q, hq, rfl⟩ := relist_cases h
    exact (ok.first hq :)
  last h := by
    obtain ⟨q, hq, rfl⟩ := relist_cases h
    exact (ok.last hq :)

/-- What goes onto a list must not have a free neighbour. -/
theorem Coalesced.relist (hc : A.Coalesced) (ok : A.Tiled hdr) (h0 : 0 < hdr) {l : Option Nat}
    (hleft : l ≠ none → ∀ {b q}, A b = some q → q.right = a → q.list = none)
    (hright : l ≠ none → ∀ {p q}, A a = some p → A p.right = some q → q.list = none) :
    (A.relist a l).Coalesced := by
  intro b p q h h'
  obtain ⟨p₀, hp, rfl⟩ := relist_cases h
  obtain ⟨q₀, hq, rfl⟩ := relist_cases h'
  dsimp only at h' hq ⊢
  by_cases hl : l = none
  · rcases hc hp hq with hold | hold
    · exact .inl (by rw [hold, hl, ite_self])
    · exact .inr (by rw [hold, hl, ite_self])
  · by_cases hb : b = a
    · subst hb
      rw [if_neg (ok.right_ne_self h0 hp)]
      exact .inr (hright hl hp hq)
    · by_cases hr : p₀.right = a
      · rw [if_neg hb]
        exact .inl (hleft hl hp hr)
      · rw [if_neg hb, if_neg hr]
        exact hc hp hq

/-! ### Splitting -/

theorem split_new (A : Arena) (a n : Nat) (p : Piece) :
    A.split a n p (a + n) = some { p with size := p.size - n, left := a, list := none } := by
  simp [split]

theorem split_self (A : Arena) (a : Nat) {n : Nat} (hn : 0 < n) (p : Piece) :
    A.split a n p a = some { p with size := n, right := a + n } := by
  rw [split, Function.update_of_ne (by omega), Function.update_self]

theorem split_of {n : Nat} (ha : b ≠ a) (hc : b ≠ a + n) (h : A b = some q) :
    A.split a n p b = some { q with left := if b = p.right then a + n else q.left } := by
  rw [split, Function.update_of_ne hc, Function.update_of_ne ha]
  by_cases hb : b = p.right
  · subst hb
    rw [modify_same, h, if_pos rfl]
    rfl
  · rw [modify_ne _ hb, h, if_neg hb]

/-- What the pieces were before. -/
theorem split_cases {n : Nat} (h : A.split a n p b = some q) :
    (b = a + n ∧ q = { p with size := p.size - n, left := a, list := none }) ∨
    (b = a ∧ q = { p with size := n, right := a + n }) ∨
    (b ≠ a ∧ b ≠ a + n ∧
      ∃ q₀, A b = some q₀ ∧ q = { q₀ with left := if b = p.right then a + n else q₀.left }) := by
  by_cases hc : b = a + n
  · subst hc
    rw [split_new] at h
    exact .inl ⟨rfl, (Option.some.inj h).symm⟩
  · by_cases ha : b = a
    · subst ha
      rw [split, Function.update_of_ne hc, Function.update_self] at h
      exact .inr (.inl ⟨rfl, (Option.some.inj h).symm⟩)
    · refine .inr (.inr ⟨ha, hc, ?_⟩)
      rw [split, Function.update_of_ne hc, Function.update_of_ne ha] at h
      by_cases hb : b = p.right
      · subst hb
        rw [modify_same, Option.map_eq_some_iff] at h
        obtain ⟨q₀, hq, rfl⟩ := h
        exact ⟨q₀, hq, by rw [if_pos rfl]⟩
      · rw [modify_ne _ hb] at h
        exact ⟨q, h, by rw [if_neg hb]⟩

section

variable (ok : A.Tiled hdr) (h0 : 0 < hdr) (h : A a = some p) (hn : 0 < n) (hm : n < p.size)

include ok h0 h hn hm

/-- No piece began where `p` is cut. -/
theorem Tiled.ne_cut (hb : A b = some q) : b ≠ a + n := by
  rintro rfl
  rw [ok.none_inside h0 h (Nat.lt_add_of_pos_right hn) (Nat.add_lt_add_left hm a)] at hb
  cases hb

theorem Tiled.split_left (hb : A.split a n p b = some q) (hne : q.left ≠ 0) :
    ∃ r, A.split a n p q.left = some r ∧ r.right = b ∧ q.left + r.size = b ∧
      r.base = q.base ∧ r.len = q.len := by
  rcases split_cases hb with ⟨rfl, rfl⟩ | ⟨rfl, rfl⟩ | ⟨hba, -, q₀, hq, rfl⟩
  · exact ⟨_, split_self A a hn p, rfl, rfl, rfl, rfl⟩
  · -- the left neighbour of the piece is apart from both parts
    obtain ⟨r, hr, hrr, hend, hbase, hlen⟩ := ok.left h hne
    have hroom := ok.room hr
    dsimp only at hr hrr hend ⊢
    have hne' : p.left ≠ b := by omega
    exact ⟨_, split_of hne' (ok.ne_cut h0 h hn hm hr) hr, hrr, hend, hbase, hlen⟩
  · by_cases hbr : b = p.right
    · subst hbr
      obtain ⟨r, hr, -, hend, hbase, hlen⟩ := ok.right h (ok.room hq).1
      rw [hq] at hr
      cases hr
      simp only [if_pos]
      refine ⟨_, split_new A a n p, rfl, ?_, hbase.symm, hlen.symm⟩
      dsimp only
      omega
    · simp only [if_neg hbr] at hne ⊢
      obtain ⟨r, hr, hrr, hrest⟩ := ok.left hq hne
      have hne' : q₀.left ≠ a := by
        intro he
        rw [he, h] at hr
        cases hr
        exact hbr hrr.symm
      exact ⟨_, split_of hne' (ok.ne_cut h0 h hn hm hr) hr, hrr, hrest⟩

theorem Tiled.split_right (hb : A.split a n p b = some q) (hne : q.right ≠ 0) :
    ∃ r, A.split a n p q.right = some r ∧ r.left = b ∧ b + q.size = q.right ∧
      r.base = q.base ∧ r.len = q.len := by
  have hra := ok.right_ne_self h0 h
  rcases split_cases hb with ⟨rfl, rfl⟩ | ⟨rfl, rfl⟩ | ⟨hba, -, q₀, hq, rfl⟩
  · obtain ⟨r, hr, -, hend, hbase, hlen⟩ := ok.right h hne
    refine ⟨_, split_of hra (ok.ne_cut h0 h hn hm hr) hr, by rw [if_pos rfl], ?_, hbase, hlen⟩
    dsimp only
    omega
  · exact ⟨_, split_new A b n p, rfl, rfl, rfl, rfl⟩
  · obtain ⟨r, hr, hrl, hrest⟩ := ok.right hq hne
    dsimp only at hr ⊢
    by_cases hqa : q₀.right = a
    · rw [hqa, h] at hr
      cases hr
      rw [hqa] at hrest ⊢
      exact ⟨_, split_self A a hn p, hrl, hrest⟩
    · -- a piece with the same right neighbour would be the piece itself
      have hne' : q₀.right ≠ p.right := by
        intro he
        rw [he] at hr
        obtain ⟨r', hr', hrl', -⟩ := ok.right h (ok.room hr).1
        rw [hr'] at hr
        cases hr
        exact hba (hrl.symm.trans hrl')
      exact ⟨_, split_of hqa (ok.ne_cut h0 h hn hm hr) hr, by rw [if_neg hne', hrl], hrest⟩

end

/-- The parts lie where the piece was. -/
theorem Tiled.split_apart {r : Piece} {c : Nat} (ok : A.Tiled hdr) (h : A a = some p)
    (hn : n ≤ p.size) (hb : A.split a n p b = some q) (hc : A.split a n p c = some r)
    (hne : b ≠ c) : Apart b q.size c r.size := by
  have hpart : ∀ {b q m k}, A b = some q → b ≠ a → a ≤ m → m + k ≤ a + p.size →
      Apart m k b q.size := by
    intro b q m k hb hne hm hk
    exact (ok.apart h hb (Ne.symm hne)).mono hm hk (Nat.le_refl b) (Nat.le_refl _)
  rcases split_cases hb with ⟨rfl, rfl⟩ | ⟨rfl, rfl⟩ | ⟨hba, -, q₀, hq, rfl⟩
  · rcases split_cases hc with ⟨rfl, rfl⟩ | ⟨rfl, rfl⟩ | ⟨hca, -, r₀, hr, rfl⟩
    · exact absurd rfl hne
    · exact .inr (Nat.le_refl _)
    · exact hpart (q := r₀) hr hca (by omega) (by dsimp only; omega)
  · rcases split_cases hc with ⟨rfl, rfl⟩ | ⟨rfl, rfl⟩ | ⟨hca, -, r₀, hr, rfl⟩
    · exact .inl (Nat.le_refl _)
    · exact absurd rfl hne
    · exact hpart (q := r₀) hr hca (Nat.le_refl _) (by dsimp only; omega)
  · rcases split_cases hc with ⟨rfl, rfl⟩ | ⟨rfl, rfl⟩ | ⟨hca, -, r₀, hr, rfl⟩
    · exact (hpart (q := q₀) hq hba (by omega) (by dsimp only; omega)).symm
    · exact (hpart (q := q₀) hq hba (Nat.le_refl _) (by dsimp only; omega)).symm
    · exact (ok.apart hq hr hne :)

/-- The runs are those of before. -/
theorem split_run (h : A a = some p) (hb : A.split a n p b = some q) :
    ∃ c r, A c = some r ∧ q.base = r.base ∧ q.len = r.len := by
  rcases split_cases hb with ⟨rfl, rfl⟩ | ⟨rfl, rfl⟩ | ⟨-, -, q₀, hq, rfl⟩
  · exact ⟨a, p, h, rfl, rfl⟩
  · exact ⟨b, p, h, rfl, rfl⟩
  · exact ⟨b, q₀, hq, rfl, rfl⟩

/-- Both parts must have room for a tag. -/
theorem Tiled.split (ok : A.Tiled hdr) (h0 : 0 < hdr) {n : Nat} (h : A a = some p) (hn : hdr ≤ n)
    (hm : n + hdr ≤ p.size) : (A.split a n p).Tiled hdr where
  room hb := by
    rcases split_cases hb with ⟨rfl, rfl⟩ | ⟨rfl, rfl⟩ | ⟨-, -, q₀, hq, rfl⟩
    · exact ⟨by omega, by dsimp only; omega⟩
    · exact ⟨(ok.room h).1, hn⟩
    · exact (ok.room hq :)
  apart := ok.split_apart h (by omega)
  inside hb := by
    have hin := ok.inside h
    rcases split_cases hb with ⟨rfl, rfl⟩ | ⟨rfl, rfl⟩ | ⟨-, -, q₀, hq, rfl⟩
    · dsimp only
      omega
    · dsimp only
      omega
    · exact (ok.inside hq :)
  runs hb hc := by
    obtain ⟨_, q₀, hq, hq1, hq2⟩ := split_run h hb
    obtain ⟨_, r₀, hr, hr1, hr2⟩ := split_run h hc
    rw [hq1, hq2, hr1, hr2]
    exact ok.runs hq hr
  left := ok.split_left h0 h (by omega) (by omega)
  right := ok.split_right h0 h (by omega) (by omega)
  first hb hz := by
    rcases split_cases hb with ⟨rfl, rfl⟩ | ⟨rfl, rfl⟩ | ⟨-, -, q₀, hq, rfl⟩
    · exact absurd hz (ok.room h).1
    · exact (ok.first h hz :)
    · dsimp only at hz ⊢
      split at hz
      · omega
      · exact ok.first hq hz
  last hb hz := by
    rcases split_cases hb with ⟨rfl, rfl⟩ | ⟨rfl, rfl⟩ | ⟨-, -, q₀, hq, rfl⟩
    · have := ok.last h hz
      dsimp only
      omega
    · dsimp only at hz
      omega
    · exact (ok.last hq hz :)

/-- The part cut off is in use. -/
theorem Coalesced.split (hc : A.Coalesced) {n : Nat} (h : A a = some p) :
    (A.split a n p).Coalesced := by
  intro b q r hb hr
  rcases split_cases hb with ⟨rfl, rfl⟩ | ⟨rfl, rfl⟩ | ⟨hba, hbn, q₀, hq, rfl⟩
  · exact .inl rfl
  · rw [split_new] at hr
    cases hr
    exact .inr rfl
  · rcases split_cases hr with ⟨-, rfl⟩ | ⟨he, rfl⟩ | ⟨-, -, r₀, hr₀, rfl⟩
    · exact .inr rfl
    · dsimp only at he
      rw [← he] at h
      exact (hc hq h :)
    · exact (hc hq hr₀ :)

/-! ### Joining -/

theorem join_self (A : Arena) (a : Nat) (p q : Piece) :
    A.join a p q a = some { p with size := p.size + q.size, right := q.right } := by
  simp [join]

theorem join_of {r : Piece} (ha : b ≠ a) (hc : b ≠ p.right) (h : A b = some r) :
    A.join a p q b = some { r with left := if b = q.right then a else r.left } := by
  rw [join, Function.update_of_ne ha, Function.update_of_ne hc]
  by_cases hb : b = q.right
  · subst hb
    rw [modify_same, h, if_pos rfl]
    rfl
  · rw [modify_ne _ hb, h, if_neg hb]

/-- What the pieces were before. -/
theorem join_cases {r : Piece} (h : A.join a p q b = some r) :
    (b = a ∧ r = { p with size := p.size + q.size, right := q.right }) ∨
    (b ≠ a ∧ b ≠ p.right ∧
      ∃ r₀, A b = some r₀ ∧ r = { r₀ with left := if b = q.right then a else r₀.left }) := by
  by_cases ha : b = a
  · subst ha
    rw [join_self] at h
    exact .inl ⟨rfl, (Option.some.inj h).symm⟩
  · rw [join, Function.update_of_ne ha] at h
    by_cases hc : b = p.right
    · rw [hc, Function.update_self] at h
      cases h
    · refine .inr ⟨ha, hc, ?_⟩
      rw [Function.update_of_ne hc] at h
      by_cases hb : b = q.right
      · subst hb
        rw [modify_same, Option.map_eq_some_iff] at h
        obtain ⟨r₀, hr, rfl⟩ := h
        exact ⟨r₀, hr, by rw [if_pos rfl]⟩
      · rw [modify_ne _ hb] at h
        exact ⟨r, h, by rw [if_neg hb]⟩

/-- The runs are those of before. -/
theorem join_run {r : Piece} (h : A a = some p) (hb : A.join a p q b = some r) :
    ∃ c r₀, A c = some r₀ ∧ r.base = r₀.base ∧ r.len = r₀.len := by
  rcases join_cases hb with ⟨rfl, rfl⟩ | ⟨-, -, r₀, hr, rfl⟩
  · exact ⟨b, p, h, rfl, rfl⟩
  · exact ⟨b, r₀, hr, rfl, rfl⟩

section

variable {r : Piece} (ok : A.Tiled hdr) (h : A a = some p) (h' : A p.right = some q)

include ok h h'

/-- Nothing lies between the two parts. -/
theorem Tiled.join_apart {r' : Piece} {c : Nat} (hb : A.join a p q b = some r)
    (hc : A.join a p q c = some r') (hne : b ≠ c) : Apart b r.size c r'.size := by
  obtain ⟨-, -, -, hend, -⟩ := ok.right h (ok.room h').1
  have hroom := ok.room h
  have hroom' := ok.room h'
  have hboth : ∀ {b r}, A b = some r → b ≠ a → b ≠ p.right →
      Apart a (p.size + q.size) b r.size := by
    intro b r hb hba hbc
    have hr := ok.room hb
    rcases ok.apart h hb (Ne.symm hba) with hle | hle
    · rcases ok.apart h' hb (Ne.symm hbc) with hle' | hle'
      · left
        omega
      · omega
    · exact .inr hle
  rcases join_cases hb with ⟨rfl, rfl⟩ | ⟨hba, hbc, r₀, hr, rfl⟩
  · rcases join_cases hc with ⟨rfl, rfl⟩ | ⟨hca, hcc, r₁, hr₁, rfl⟩
    · exact absurd rfl hne
    · exact (hboth hr₁ hca hcc :)
  · rcases join_cases hc with ⟨rfl, rfl⟩ | ⟨hca, hcc, r₁, hr₁, rfl⟩
    · exact (hboth hr hba hbc :).symm
    · exact (ok.apart hr hr₁ hne :)

theorem Tiled.join_left (h0 : 0 < hdr) (hb : A.join a p q b = some r) (hne : r.left ≠ 0) :
    ∃ t, A.join a p q r.left = some t ∧ t.right = b ∧ r.left + t.size = b ∧
      t.base = r.base ∧ t.len = r.len := by
  obtain ⟨_, hq, -, hend, hbase, hlen⟩ := ok.right h (ok.room h').1
  rw [h'] at hq
  cases hq
  have hroom := ok.room h
  rcases join_cases hb with ⟨rfl, rfl⟩ | ⟨-, hbc, r₀, hr, rfl⟩
  · obtain ⟨t, ht, htr, hrest⟩ := ok.left h hne
    have htroom := ok.room ht
    dsimp only at ht htr hrest ⊢
    exact ⟨_, join_of (by omega) (by omega) ht, htr, hrest⟩
  · by_cases hbr : b = q.right
    · subst hbr
      obtain ⟨t, ht, -, hend', hbase', hlen'⟩ := ok.right h' (ok.room hr).1
      rw [hr] at ht
      cases ht
      simp only [if_pos]
      refine ⟨_, join_self A a p q, rfl, ?_, hbase.symm.trans hbase'.symm,
        hlen.symm.trans hlen'.symm⟩
      dsimp only
      omega
    · simp only [if_neg hbr] at hne ⊢
      obtain ⟨t, ht, htr, hrest⟩ := ok.left hr hne
      have hta : r₀.left ≠ a := by
        intro he
        rw [he, h] at ht
        cases ht
        exact hbc htr.symm
      have htc : r₀.left ≠ p.right := by
        intro he
        rw [he, h'] at ht
        cases ht
        exact hbr htr.symm
      exact ⟨_, join_of hta htc ht, htr, hrest⟩

theorem Tiled.join_right (h0 : 0 < hdr) (hb : A.join a p q b = some r) (hne : r.right ≠ 0) :
    ∃ t, A.join a p q r.right = some t ∧ t.left = b ∧ b + r.size = r.right ∧
      t.base = r.base ∧ t.len = r.len := by
  obtain ⟨_, hq, hql, hend, hbase, hlen⟩ := ok.right h (ok.room h').1
  rw [h'] at hq
  cases hq
  have hroom := ok.room h
  have hroom' := ok.room h'
  rcases join_cases hb with ⟨rfl, rfl⟩ | ⟨hba, hbc, r₀, hr, rfl⟩
  · obtain ⟨t, ht, -, hend', hbase', hlen'⟩ := ok.right h' hne
    dsimp only
    refine ⟨_, join_of (by omega) (by omega) ht, by rw [if_pos rfl], by omega,
      hbase'.trans hbase, hlen'.trans hlen⟩
  · obtain ⟨t, ht, htl, hrest⟩ := ok.right hr hne
    dsimp only at ht ⊢
    by_cases hra : r₀.right = a
    · rw [hra, h] at ht
      cases ht
      rw [hra] at hrest ⊢
      exact ⟨_, join_self A a p q, htl, hrest⟩
    · have hrc : r₀.right ≠ p.right := by
        intro he
        rw [he, h'] at ht
        cases ht
        exact hba (htl.symm.trans hql)
      have hrr : r₀.right ≠ q.right := by
        intro he
        rw [he] at ht
        obtain ⟨t', ht', htl', -⟩ := ok.right h' (ok.room ht).1
        rw [ht'] at ht
        cases ht
        exact hbc (htl.symm.trans htl')
      exact ⟨_, join_of hra hrc ht, by rw [if_neg hrr, htl], hrest⟩

end

theorem Tiled.join (ok : A.Tiled hdr) (h0 : 0 < hdr) (h : A a = some p)
    (h' : A p.right = some q) : (A.join a p q).Tiled hdr where
  room hb := by
    have hroom := ok.room h
    rcases join_cases hb with ⟨rfl, rfl⟩ | ⟨-, -, r₀, hr, rfl⟩
    · exact ⟨hroom.1, by dsimp only; omega⟩
    · exact (ok.room hr :)
  apart := ok.join_apart h h'
  inside hb := by
    obtain ⟨_, hq, -, hend, hbase, hlen⟩ := ok.right h (ok.room h').1
    rw [h'] at hq
    cases hq
    have hin := ok.inside h
    have hin' := ok.inside h'
    rcases join_cases hb with ⟨rfl, rfl⟩ | ⟨-, -, r₀, hr, rfl⟩
    · dsimp only
      omega
    · exact (ok.inside hr :)
  runs hb hc := by
    obtain ⟨_, r₀, hr, hr1, hr2⟩ := join_run h hb
    obtain ⟨_, r₁, hr', hr1', hr2'⟩ := join_run h hc
    rw [hr1, hr2, hr1', hr2']
    exact ok.runs hr hr'
  left := ok.join_left h h' h0
  right := ok.join_right h h' h0
  first hb hz := by
    rcases join_cases hb with ⟨rfl, rfl⟩ | ⟨-, -, r₀, hr, rfl⟩
    · exact (ok.first h hz :)
    · dsimp only at hz ⊢
      split at hz
      · exact absurd hz (ok.room h).1
      · exact ok.first hr hz
  last hb hz := by
    obtain ⟨_, hq, -, hend, hbase, hlen⟩ := ok.right h (ok.room h').1
    rw [h'] at hq
    cases hq
    rcases join_cases hb with ⟨rfl, rfl⟩ | ⟨-, -, r₀, hr, rfl⟩
    · have := ok.last h' hz
      dsimp only
      omega
    · exact (ok.last hr hz :)

/-- What has grown is in use. -/
theorem Coalesced.join (hc : A.Coalesced) : ((A.join a p q).relist a none).Coalesced := by
  intro b r r' hb hr
  obtain ⟨r₁, hb', rfl⟩ := relist_cases hb
  obtain ⟨r₁', hr', rfl⟩ := relist_cases hr
  dsimp only at hr' ⊢
  rcases join_cases hb' with ⟨rfl, rfl⟩ | ⟨hba, -, r₀, hr₀, rfl⟩
  · exact .inl (if_pos rfl)
  · rcases join_cases hr' with ⟨he, -⟩ | ⟨hra, -, r₀', hr₀', rfl⟩
    · exact .inr (if_pos he)
    · rw [if_neg hba, if_neg hra]
      exact (hc hr₀ hr₀' :)

/-! ### Runs -/

theorem place_self (A : Arena) (a n : Nat) :
    A.place a n a
      = some { size := n, left := 0, right := 0, base := a, len := n, list := none } :=
  Function.update_self a _ A

theorem place_ne (A : Arena) (n : Nat) (h : b ≠ a) : A.place a n b = A b :=
  Function.update_of_ne h _ A

theorem place_cases (h : A.place a n b = some q) :
    (b = a ∧ q = { size := n, left := 0, right := 0, base := a, len := n, list := none }) ∨
    (b ≠ a ∧ A b = some q) := by
  by_cases hba : b = a
  · rw [hba, place_self] at h
    exact .inl ⟨hba, (Option.some.inj h).symm⟩
  · rw [place_ne A n hba] at h
    exact .inr ⟨hba, h⟩

/-- A run apart from those that are there. -/
theorem Tiled.place (ok : A.Tiled hdr) (h0 : 0 < hdr) {n : Nat} (ha : a ≠ 0) (hn : hdr ≤ n)
    (hnew : ∀ {b q}, A b = some q → Apart a n q.base q.len) : (A.place a n).Tiled hdr := by
  have hnone := ok.none_of_apart h0 (by omega) hnew
  -- the neighbours of the other pieces are still there
  have hstay : ∀ {b q}, A b = some q → A.place a n b = some q := by
    intro b q hb
    have hba : b ≠ a := by
      rintro rfl
      rw [hnone] at hb
      cases hb
    rw [place_ne A n hba, hb]
  have hout : ∀ {b q}, A b = some q → Apart a n b q.size := by
    intro b q hb
    have hin := ok.inside hb
    exact (hnew hb).mono (Nat.le_refl a) (Nat.le_refl _) hin.1 hin.2
  constructor
  case room =>
    intro b q hb
    rcases place_cases hb with ⟨rfl, rfl⟩ | ⟨-, hb⟩
    · exact ⟨ha, hn⟩
    · exact ok.room hb
  case apart =>
    intro b c q r hb hc hbc
    rcases place_cases hb with ⟨rfl, rfl⟩ | ⟨-, hold⟩
    · rcases place_cases hc with ⟨rfl, rfl⟩ | ⟨-, hc⟩
      · exact absurd rfl hbc
      · exact hout hc
    · rcases place_cases hc with ⟨rfl, rfl⟩ | ⟨-, hc⟩
      · exact (hout hold).symm
      · exact ok.apart hold hc hbc
  case inside =>
    intro b q hb
    rcases place_cases hb with ⟨rfl, rfl⟩ | ⟨-, hb⟩
    · exact ⟨Nat.le_refl _, Nat.le_refl _⟩
    · exact ok.inside hb
  case runs =>
    intro b c q r hb hc
    rcases place_cases hb with ⟨rfl, rfl⟩ | ⟨-, hold⟩
    · rcases place_cases hc with ⟨rfl, rfl⟩ | ⟨-, hc⟩
      · exact .inl ⟨rfl, rfl⟩
      · exact .inr (hnew hc)
    · rcases place_cases hc with ⟨rfl, rfl⟩ | ⟨-, hc⟩
      · exact .inr (hnew hold).symm
      · exact ok.runs hold hc
  case left =>
    intro b q hb hl
    rcases place_cases hb with ⟨rfl, rfl⟩ | ⟨-, hb⟩
    · exact absurd rfl hl
    · obtain ⟨r, hr, hrest⟩ := ok.left hb hl
      exact ⟨r, hstay hr, hrest⟩
  case right =>
    intro b q hb hr
    rcases place_cases hb with ⟨rfl, rfl⟩ | ⟨-, hb⟩
    · exact absurd rfl hr
    · obtain ⟨r, hr, hrest⟩ := ok.right hb hr
      exact ⟨r, hstay hr, hrest⟩
  case first =>
    intro b q hb hz
    rcases place_cases hb with ⟨rfl, rfl⟩ | ⟨-, hb⟩
    · rfl
    · exact ok.first hb hz
  case last =>
    intro b q hb hz
    rcases place_cases hb with ⟨rfl, rfl⟩ | ⟨-, hb⟩
    · rfl
    · exact ok.last hb hz

/-- A run that is placed is in use. -/
theorem Coalesced.place (hc : A.Coalesced) {n : Nat} : (A.place a n).Coalesced := by
  intro b q r hb hr
  by_cases hba : b = a
  · rw [hba, place_self] at hb
    exact .inl ((Option.some.inj hb) ▸ rfl)
  · by_cases hra : q.right = a
    · rw [hra, place_self] at hr
      exact .inr ((Option.some.inj hr) ▸ rfl)
    · rw [place_ne A n hba] at hb
      rw [place_ne A n hra] at hr
      exact hc hb hr

theorem drop_cases (h : A.drop a b = some q) : b ≠ a ∧ A b = some q := by
  by_cases hba : b = a
  · rw [hba, drop, Function.update_self] at h
    cases h
  · rw [drop, Function.update_of_ne hba] at h
    exact ⟨hba, h⟩

theorem drop_ne (A : Arena) (h : b ≠ a) : A.drop a b = A b := Function.update_of_ne h _ A

theorem Tiled.drop (ok : A.Tiled hdr) (h : A a = some p) (hw : Whole p) : (A.drop a).Tiled hdr where
  room hb := ok.room (drop_cases hb).2
  apart hb hc := ok.apart (drop_cases hb).2 (drop_cases hc).2
  inside hb := ok.inside (drop_cases hb).2
  runs hb hc := ok.runs (drop_cases hb).2 (drop_cases hc).2
  left {b q} hb hne := by
    obtain ⟨hba, hb⟩ := drop_cases hb
    obtain ⟨r, hr, hrr, hrest⟩ := ok.left hb hne
    -- the piece knows of no right neighbour
    have hra : q.left ≠ a := by
      intro he
      rw [he, h] at hr
      cases hr
      exact (ok.room hb).1 (hrr.symm.trans hw.2)
    exact ⟨r, (drop_ne A hra).trans hr, hrr, hrest⟩
  right {b q} hb hne := by
    obtain ⟨hba, hb⟩ := drop_cases hb
    obtain ⟨r, hr, hrl, hrest⟩ := ok.right hb hne
    have hra : q.right ≠ a := by
      intro he
      rw [he, h] at hr
      cases hr
      exact (ok.room hb).1 (hrl.symm.trans hw.1)
    exact ⟨r, (drop_ne A hra).trans hr, hrl, hrest⟩
  first hb := ok.first (drop_cases hb).2
  last hb := ok.last (drop_cases hb).2

theorem Coalesced.drop (hc : A.Coalesced) : (A.drop a).Coalesced :=
  fun _ _ _ hb hr => hc (drop_cases hb).2 (drop_cases hr).2

end Arena

end BoundaryTags
