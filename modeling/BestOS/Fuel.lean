/-
BestOS/Fuel.lean

Loops that are given fuel, independent of any particular program.

A loop that need not end is a function of an amount of fuel, one unit for each
round.  `Enough P` says that `P` holds from some amount on, and `Returns f r`
that `f` ends with `r` from some amount on; a loop that ends has one result
(`Returns.unique`).

One round is `Enough.step`, and one part after the other is `Returns.bind`.
-/
import Mathlib.Order.Basic
import Mathlib.Tactic.Common

namespace Fuel

variable {α β : Type*} {P Q : Nat → Prop}

/-- From some amount of fuel on. -/
def Enough (P : Nat → Prop) : Prop := ∃ n, ∀ fuel, n ≤ fuel → P fuel

theorem Enough.of_forall (h : ∀ fuel, P fuel) : Enough P := ⟨0, fun fuel _ => h fuel⟩

theorem Enough.exists (h : Enough P) : ∃ fuel, P fuel := by
  obtain ⟨n, hn⟩ := h
  exact ⟨n, hn n (Nat.le_refl n)⟩

theorem Enough.mono (h : Enough P) (hPQ : ∀ fuel, P fuel → Q fuel) : Enough Q := by
  obtain ⟨n, hn⟩ := h
  exact ⟨n, fun fuel hle => hPQ fuel (hn fuel hle)⟩

theorem Enough.and (hP : Enough P) (hQ : Enough Q) : Enough fun fuel => P fuel ∧ Q fuel := by
  obtain ⟨n, hn⟩ := hP
  obtain ⟨k, hk⟩ := hQ
  exact ⟨n + k, fun fuel hle =>
    ⟨hn fuel (Nat.le_of_add_right_le hle), hk fuel (Nat.le_of_add_left_le hle)⟩⟩

/-- One unit more does not matter. -/
theorem Enough.succ (h : Enough P) : Enough fun fuel => P (fuel + 1) := by
  obtain ⟨n, hn⟩ := h
  exact ⟨n, fun fuel hle => hn _ (Nat.le_succ_of_le hle)⟩

/-- **One round.**  What holds of the rest of the loop with enough fuel holds of
the loop with one unit more. -/
theorem Enough.step (h : Enough P) (hPQ : ∀ fuel, P fuel → Q (fuel + 1)) : Enough Q := by
  obtain ⟨n, hn⟩ := h
  refine ⟨n + 1, fun fuel hle => ?_⟩
  cases fuel with
  | zero => exact absurd hle (Nat.not_succ_le_zero n)
  | succ fuel => exact hPQ fuel (hn fuel (Nat.le_of_succ_le_succ hle))

/-- What holds as soon as there is a round. -/
theorem Enough.now (h : ∀ fuel, Q (fuel + 1)) : Enough Q :=
  (Enough.of_forall (P := fun _ => True) fun _ => trivial).step fun fuel _ => h fuel

/-- With enough fuel, `f` ends with `r`. -/
def Returns (f : Nat → Option α) (r : α) : Prop := Enough fun fuel => f fuel = some r

theorem Returns.unique {f : Nat → Option α} {r r' : α} (h : Returns f r) (h' : Returns f r') :
    r = r' := by
  obtain ⟨fuel, hf, hf'⟩ := (h.and h').exists
  exact Option.some.inj (hf.symm.trans hf')

/-- A loop that ends in its first round. -/
theorem Returns.now {f : Nat → Option α} {r : α} (h : ∀ fuel, f (fuel + 1) = some r) :
    Returns f r :=
  Enough.now h

/-- A loop that goes on. -/
theorem Returns.step {f g : Nat → Option α} {r : α} (h : Returns f r)
    (hfg : ∀ fuel, g (fuel + 1) = f fuel) : Returns g r :=
  Enough.step h fun fuel hf => (hfg fuel).trans hf

/-- A loop is, with enough fuel, its first round and the loop `f` behind it. -/
theorem returns_iff {f g : Nat → Option α} (h : Enough fun fuel => g (fuel + 1) = f fuel) {r : α} :
    Returns g r ↔ Returns f r :=
  ⟨fun hg => (h.and hg.succ).mono fun _ hf => hf.1.symm.trans hf.2,
    fun hf => (h.and hf).step fun _ hg => hg.1.trans hg.2⟩

theorem returns_congr {f g : Nat → Option α} (h : Enough fun fuel => g fuel = f fuel) {r : α} :
    Returns g r ↔ Returns f r :=
  ⟨fun hg => (h.and hg).mono fun _ hf => hf.1.symm.trans hf.2,
    fun hf => (h.and hf).mono fun _ hg => hg.1.trans hg.2⟩

theorem Returns.bind {f : Nat → Option α} {g : α → Nat → Option β} {a : α} {b : β}
    (h : Returns f a) (h' : Returns (g a) b) :
    Returns (fun fuel => (f fuel).bind fun a => g a fuel) b :=
  (h.and h').mono fun fuel hf => (congrArg (Option.bind · (g · fuel)) hf.1).trans hf.2

end Fuel
