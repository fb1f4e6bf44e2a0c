/-
BestOS/BlockStore.lean

What a client of an allocator sees, independent of any particular program.

A store maps the address of each live block to its contents.  A client gets a block
(`alloc`), puts a value into one (`write`) and gives one back (`release`); nothing else
changes a store.  `Store.heap` forgets the contents, so that what `BlockHeap` says about
blocks that are apart holds of stores as well.
-/
import BestOS.BlockHeap
import Mathlib.Data.Option.Basic
import Mathlib.Tactic.Common

namespace BlockStore

open BlockHeap

variable {β : Type*}

/-- The live blocks and what is in them. -/
abbrev Store (β : Type*) := Nat → Option (List β)

namespace Store

def alloc (σ : Store β) (p : Nat) (bs : List β) : Store β := Function.update σ p (some bs)

def release (σ : Store β) (p : Nat) : Store β := Function.update σ p none

def write (σ : Store β) (p i : Nat) (v : β) : Store β :=
  Function.update σ p ((σ p).map fun bs => bs.set i v)

/-- The blocks without their contents. -/
def heap (σ : Store β) : Heap := ⟨fun p => (σ p).map List.length, true⟩

variable {σ : Store β} {p q i : Nat} {bs cs : List β} {v : β}

@[simp] theorem alloc_self (σ : Store β) (p : Nat) (bs : List β) : σ.alloc p bs p = some bs :=
  Function.update_self ..

theorem alloc_ne (σ : Store β) (bs : List β) (h : q ≠ p) : σ.alloc p bs q = σ q :=
  Function.update_of_ne h ..

@[simp] theorem release_self (σ : Store β) (p : Nat) : σ.release p p = none :=
  Function.update_self ..

theorem release_ne (σ : Store β) (h : q ≠ p) : σ.release p q = σ q := Function.update_of_ne h ..

@[simp] theorem alloc_alloc (σ : Store β) (p : Nat) (bs cs : List β) :
    (σ.alloc p bs).alloc p cs = σ.alloc p cs := Function.update_idem ..

theorem alloc_cases (h : σ.alloc p bs q = some cs) :
    (q = p ∧ cs = bs) ∨ (q ≠ p ∧ σ q = some cs) := by
  by_cases hqp : q = p
  · subst hqp
    rw [alloc_self] at h
    exact .inl ⟨rfl, (Option.some.inj h).symm⟩
  · exact .inr ⟨hqp, (alloc_ne σ bs hqp).symm.trans h⟩

theorem release_cases (h : σ.release p q = some cs) : q ≠ p ∧ σ q = some cs := by
  by_cases hqp : q = p
  · subst hqp
    rw [release_self] at h
    cases h
  · exact ⟨hqp, (release_ne σ hqp).symm.trans h⟩

/-- A write is a block of the same size in the same place. -/
theorem write_eq (h : σ p = some bs) : σ.write p i v = σ.alloc p (bs.set i v) := by
  rw [write, h, Option.map_some, alloc]

/-- Giving back a block that is not live does nothing. -/
theorem release_none (h : σ p = none) : σ.release p = σ := by
  funext q
  by_cases hqp : q = p
  · subst hqp
    rw [release_self, h]
  · exact release_ne σ hqp

theorem heap_some (h : σ p = some bs) : σ.heap.blocks p = some bs.length :=
  congrArg (Option.map List.length) h

theorem heap_cases {n : Nat} (h : σ.heap.blocks p = some n) :
    ∃ bs, σ p = some bs ∧ bs.length = n := Option.map_eq_some_iff.mp h

theorem heap_none (h : σ p = none) : σ.heap.blocks p = none := congrArg (Option.map List.length) h

end Store

end BlockStore
