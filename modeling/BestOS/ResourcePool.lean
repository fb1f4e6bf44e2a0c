/-
BestOS/ResourcePool.lean

Ownership of a pool of resources, independent of any particular program.

A pool over a type `α` has a set of `usable` resources, the subset that is
`free`, and the list of blocks handed out and not yet returned.  `Pool.Inv` is
what an allocator is for: whatever is handed out is usable, is not free, and
no two live blocks overlap.  Two moves preserve it:

* `Pool.Inv.take` — hand out a block of free resources;
* `Pool.Inv.give` — take back one live block, whole.

Under the same moves nothing is lost either: in a pool with `Pool.Exact`, which
both preserve, what is not free is in a live block, and the sizes add up to that
of the pool (`Pool.Exact.ncard`).
-/
import Mathlib.Data.Set.Card
import Mathlib.Data.Set.Lattice
import Mathlib.Order.CompletePartialOrder
import Mathlib.Data.List.Pairwise

namespace ResourcePool

variable {α : Type*}

/-- Live blocks are usable, not free, and pairwise disjoint. -/
structure Pool.Inv (usable free : Set α) (live : List (Set α)) : Prop where
  free_usable : free ⊆ usable
  live_usable : ∀ r ∈ live, r ⊆ usable
  live_taken : ∀ r ∈ live, Disjoint r free
  live_disjoint : live.Pairwise Disjoint

/-- With nothing handed out the invariant is that free resources are usable. -/
theorem Pool.Inv.start {usable free : Set α} (h : free ⊆ usable) : Pool.Inv usable free [] where
  free_usable := h
  live_usable := by simp
  live_taken := by simp
  live_disjoint := List.Pairwise.nil

/-- Handing out a block of free resources. -/
theorem Pool.Inv.take {usable free : Set α} {live : List (Set α)} {r : Set α}
    (h : Pool.Inv usable free live) (hr : r ⊆ free) : Pool.Inv usable (free \ r) (r :: live) where
  free_usable := Set.sdiff_subset.trans h.free_usable
  live_usable := by
    intro b hb
    rcases List.mem_cons.mp hb with rfl | hb
    · exact hr.trans h.free_usable
    · exact h.live_usable b hb
  live_taken := by
    intro b hb
    rcases List.mem_cons.mp hb with rfl | hb
    · exact Set.disjoint_sdiff_right
    · exact (h.live_taken b hb).mono_right Set.sdiff_subset
  live_disjoint :=
    List.pairwise_cons.mpr ⟨fun b hb => ((h.live_taken b hb).mono_right hr).symm, h.live_disjoint⟩

/-- Resources may leave the free set without being handed out. -/
theorem Pool.Inv.lose {usable free free' : Set α} {live : List (Set α)}
    (h : Pool.Inv usable free live) (hsub : free' ⊆ free) : Pool.Inv usable free' live where
  free_usable := hsub.trans h.free_usable
  live_usable := h.live_usable
  live_taken := fun b hb => (h.live_taken b hb).mono_right hsub
  live_disjoint := h.live_disjoint

/-- Taking back one live block. -/
theorem Pool.Inv.give {usable free : Set α} {l₁ l₂ : List (Set α)} {r : Set α}
    (h : Pool.Inv usable free (l₁ ++ r :: l₂)) : Pool.Inv usable (free ∪ r) (l₁ ++ l₂) := by
  have hmem : ∀ b ∈ l₁ ++ l₂, b ∈ l₁ ++ r :: l₂ := by
    intro b hb
    simp only [List.mem_append, List.mem_cons] at hb ⊢
    tauto
  -- every other live block is disjoint from `r`, whichever side of it it stands on
  have hsplit := List.pairwise_append.mp h.live_disjoint
  have hr₂ := List.pairwise_cons.mp hsplit.2.1
  have hapart : ∀ b ∈ l₁ ++ l₂, Disjoint b r := by
    intro b hb
    rcases List.mem_append.mp hb with hb | hb
    · exact hsplit.2.2 b hb r (by simp)
    · exact (hr₂.1 b hb).symm
  refine ⟨?_, fun b hb => h.live_usable b (hmem b hb), ?_, ?_⟩
  · exact Set.union_subset h.free_usable (h.live_usable r (by simp))
  · intro b hb
    exact Disjoint.union_right (h.live_taken b (hmem b hb)) (hapart b hb)
  · refine List.pairwise_append.mpr ⟨hsplit.1, hr₂.2, fun a ha b hb => ?_⟩
    exact hsplit.2.2 a ha b (by simp [hb])

/-! ### Pools that lose nothing -/

/-- Of `all` resources, each is free or in a live block. -/
structure Pool.Exact (all free : Set α) (live : List (Set α)) : Prop
    extends Pool.Inv all free live where
  covers : ∀ x ∈ all, x ∈ free ∨ ∃ r ∈ live, x ∈ r

theorem Pool.Exact.start (free : Set α) : Pool.Exact free free [] where
  toInv := .start Set.Subset.rfl
  covers := fun _ hx => .inl hx

theorem Pool.Exact.take {all free : Set α} {live : List (Set α)} {r : Set α}
    (h : Pool.Exact all free live) (hr : r ⊆ free) : Pool.Exact all (free \ r) (r :: live) where
  toInv := h.toInv.take hr
  covers := by
    intro x hx
    rcases h.covers x hx with hfree | ⟨b, hb, hxb⟩
    · by_cases hxr : x ∈ r
      · exact .inr ⟨r, List.mem_cons_self, hxr⟩
      · exact .inl ⟨hfree, hxr⟩
    · exact .inr ⟨b, List.mem_cons_of_mem r hb, hxb⟩

theorem Pool.Exact.give {all free : Set α} {l₁ l₂ : List (Set α)} {r : Set α}
    (h : Pool.Exact all free (l₁ ++ r :: l₂)) : Pool.Exact all (free ∪ r) (l₁ ++ l₂) where
  toInv := h.toInv.give
  covers := by
    intro x hx
    rcases h.covers x hx with hfree | ⟨b, hb, hxb⟩
    · exact .inl (.inl hfree)
    · rcases List.mem_append.mp hb with hb | hb
      · exact .inr ⟨b, List.mem_append_left l₂ hb, hxb⟩
      · rcases List.mem_cons.mp hb with rfl | hb
        · exact .inl (.inr hxb)
        · exact .inr ⟨b, List.mem_append_right l₁ hb, hxb⟩

/-- With nothing handed out, everything is free. -/
theorem Pool.Exact.free_eq {all free : Set α} (h : Pool.Exact all free []) : free = all := by
  refine h.free_usable.antisymm fun x hx => ?_
  exact (h.covers x hx).resolve_right (by simp)

/-- The free resources and those of the live blocks are as many as there are. -/
theorem Pool.Exact.ncard {all free : Set α} {live : List (Set α)} (hfin : all.Finite)
    (h : Pool.Exact all free live) : free.ncard + (live.map Set.ncard).sum = all.ncard := by
  -- the blocks are given back one after the other
  induction live generalizing free with
  | nil => simp [h.free_eq]
  | cons r live ih =>
      have hr := h.live_usable r List.mem_cons_self
      have hdisj := h.live_taken r List.mem_cons_self
      have hgive := ih (@Pool.Exact.give _ all free [] live r h)
      rw [Set.ncard_union_eq hdisj.symm (hfin.subset h.free_usable) (hfin.subset hr)] at hgive
      rw [List.map_cons, List.sum_cons, ← Nat.add_assoc]
      exact hgive

end ResourcePool
