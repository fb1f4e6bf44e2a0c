/-
BestOS/BlockHeap.lean

The blocks of an allocator, independent of any particular program.

A heap records the blocks that are live, as a partial map from the address of a
block to its size, and whether every address given back so far was that of a
live block.  Nothing is said about where the allocator finds room: `Fresh` is
what a client may assume of a new block, and `Heap.Ok` is what it then knows of
the whole heap,

* `Heap.Ok.alloc` — a fresh block keeps the live blocks apart;
* `Heap.Ok.free`  — giving back a live block, or NULL, is no fault.
-/
import Mathlib.Algebra.Group.Nat.Defs
import Mathlib.Logic.Function.Basic

namespace BlockHeap

/-- The ranges `[a, a + n)` and `[b, b + m)` do not meet. -/
def Apart (a n b m : Nat) : Prop := a + n ≤ b ∨ b + m ≤ a

theorem Apart.symm {a n b m : Nat} (h : Apart a n b m) : Apart b m a n := Or.symm h

/-- Parts of ranges that do not meet do not meet. -/
theorem Apart.mono {a n b m a' n' b' m' : Nat} (h : Apart a n b m) (ha : a ≤ a')
    (hn : a' + n' ≤ a + n) (hb : b ≤ b') (hm : b' + m' ≤ b + m) : Apart a' n' b' m' := by
  rcases h with h | h
  · left
    omega
  · right
    omega

/-- An address inside one of two ranges that do not meet is outside the other. -/
theorem Apart.outside {a n b m x : Nat} (h : Apart a n b m) (hl : a ≤ x) (hr : x < a + n) :
    x < b ∨ b + m ≤ x := by
  rcases h with h | h
  · left
    omega
  · right
    omega

structure Heap where
  blocks : Nat → Option Nat
  clean : Bool

namespace Heap

def alloc (h : Heap) (a size : Nat) : Heap :=
  { h with blocks := Function.update h.blocks a (some size) }

/-- Giving back NULL does nothing. -/
def free (h : Heap) (a : Nat) : Heap :=
  if a = 0 then h
  else
    { blocks := Function.update h.blocks a none
      clean := h.clean && (h.blocks a).isSome }

/-- A new block: not NULL, inside the address space, and apart from every live
block. -/
structure Fresh (h : Heap) (a size : Nat) : Prop where
  ne_null : a ≠ 0
  fits : a + size ≤ 2 ^ 64
  unused : h.blocks a = none
  apart : ∀ b m, h.blocks b = some m → Apart a size b m

/-- The live blocks are apart, and only live blocks were given back. -/
structure Ok (h : Heap) : Prop where
  clean : h.clean = true
  null : h.blocks 0 = none
  fits : ∀ a n, h.blocks a = some n → a + n ≤ 2 ^ 64
  apart : ∀ a b n m, h.blocks a = some n → h.blocks b = some m → a ≠ b → Apart a n b m

@[simp] theorem alloc_self (h : Heap) (a size : Nat) : (h.alloc a size).blocks a = some size := by
  simp [alloc]

theorem alloc_ne (h : Heap) {a b : Nat} (size : Nat) (hne : b ≠ a) :
    (h.alloc a size).blocks b = h.blocks b := by
  simp [alloc, hne]

theorem free_ne (h : Heap) {a b : Nat} (hne : b ≠ a) : (h.free a).blocks b = h.blocks b := by
  unfold free
  split
  · rfl
  · simp [hne]

/-- A block that is live after others were given back was live before. -/
theorem live_of_free {h : Heap} {a b n : Nat} (hb : (h.free a).blocks b = some n) :
    h.blocks b = some n := by
  unfold free at hb
  split at hb
  · exact hb
  · by_cases hne : b = a
    · simp [hne] at hb
    · simpa [hne] using hb

theorem live_of_alloc {h : Heap} {a size b n : Nat} (hb : (h.alloc a size).blocks b = some n) :
    (b = a ∧ n = size) ∨ h.blocks b = some n := by
  by_cases hne : b = a
  · left
    subst hne
    rw [alloc_self] at hb
    exact ⟨rfl, (Option.some.inj hb).symm⟩
  · right
    rwa [alloc_ne h size hne] at hb

theorem Ok.alloc {h : Heap} (ok : h.Ok) {a size : Nat} (hf : h.Fresh a size) :
    (h.alloc a size).Ok where
  clean := ok.clean
  null := by
    rw [alloc_ne h size hf.ne_null.symm]
    exact ok.null
  fits := by
    intro b n hb
    rcases live_of_alloc hb with ⟨rfl, rfl⟩ | hb
    · exact hf.fits
    · exact ok.fits b n hb
  apart := by
    intro b c n m hb hc hne
    rcases live_of_alloc hb with ⟨rfl, rfl⟩ | hb'
    · rcases live_of_alloc hc with ⟨rfl, -⟩ | hc'
      · exact absurd rfl hne
      · exact hf.apart c m hc'
    · rcases live_of_alloc hc with ⟨rfl, rfl⟩ | hc'
      · exact (hf.apart b n hb').symm
      · exact ok.apart b c n m hb' hc' hne

theorem Ok.free {h : Heap} (ok : h.Ok) {a : Nat} (ha : a = 0 ∨ h.blocks a ≠ none) :
    (h.free a).Ok where
  clean := by
    unfold Heap.free
    split
    · exact ok.clean
    · next hne =>
        have hlive := Option.isSome_iff_ne_none.mpr (ha.resolve_left hne)
        simp [ok.clean, hlive]
  null := by
    by_contra hne
    obtain ⟨n, hn⟩ := Option.ne_none_iff_exists'.mp hne
    have := live_of_free hn
    rw [ok.null] at this
    cases this
  fits := fun b n hb => ok.fits b n (live_of_free hb)
  apart := fun b c n m hb hc hne => ok.apart b c n m (live_of_free hb) (live_of_free hc) hne

end Heap

end BlockHeap
