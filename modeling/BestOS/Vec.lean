/-
BestOS/Vec.lean

The growable vectors of `lib/vec.h` and `lib/vec.c`.

A vector is a block of slots with a length and a capacity.  `vec_splice` moves
the tail down and leaves what stood in the last slots where it was, and nothing
checks an index against the length, so the slots at and after the length are
part of the model: a slot that was never written holds `none`, a slot that was
written and then left by a splice still holds its old value.

`realloc` is outside: whether it grants the larger block is the argument
`grant` of `vecExpand`, and a granted block keeps the old slots.

`Vec.Holds v l` reads the first `length` slots as the list `l`.  Every
operation has one lemma that says what it does to that list.
-/
import Mathlib.Data.List.Basic
import Mathlib.Tactic.Ring

namespace BestOS

variable {α : Type}

/-- `vec_t(T)`. -/
structure Vec (α : Type) where
  data : Nat → Option α
  length : Nat
  capacity : Nat

/-- `vec_init`. -/
def vecInit : Vec α where
  data := fun _ => none
  length := 0
  capacity := 0

/-- `vec_expand_`: make room for one more element; `none` when `realloc`
returns NULL. -/
def vecExpand (grant : Bool) (v : Vec α) : Option (Vec α) :=
  if v.length + 1 > v.capacity then
    if grant then
      some { v with capacity := if v.capacity = 0 then 1 else v.capacity <<< 1 }
    else
      none
  else
    some v

/-- `vec_push`. -/
def vecPush (grant : Bool) (v : Vec α) (val : α) : Vec α :=
  match vecExpand grant v with
  | none => v
  | some v =>
    { v with
      data := fun i => if i = v.length then some val else v.data i
      length := v.length + 1 }

/-- `vec_splice`, for a range inside the vector: `memmove` brings the tail down
over the removed slots. -/
def vecSplice (v : Vec α) (start count : Nat) : Vec α :=
  { v with
    data := fun i =>
      if start ≤ i ∧ i + count < v.length then v.data (i + count) else v.data i
    length := v.length - count }

section Find

variable [DecidableEq α]

/-- `vec_find`: the first position that holds `val`. -/
def vecFind (v : Vec α) (val : α) : Option Nat :=
  (List.range v.length).find? fun idx => v.data idx == some val

/-- `vec_remove`. -/
def vecRemove (v : Vec α) (val : α) : Vec α :=
  match vecFind v val with
  | none => v
  | some idx => vecSplice v idx 1

end Find

/-! ### The list a vector holds -/

/-- The first `length` slots of `v` are the elements of `l`, in order. -/
structure Vec.Holds (v : Vec α) (l : List α) : Prop where
  length : v.length = l.length
  data : ∀ i < l.length, v.data i = l[i]?

theorem vecInit_holds : (vecInit : Vec α).Holds [] where
  length := rfl
  data := by
    intro i hi
    exact absurd hi (Nat.not_lt_zero i)

/-- `vec_push` writes the slot at the length, or `realloc` refused the block and
nothing changes. -/
theorem vecPush_cases (grant : Bool) (v : Vec α) (val : α) :
    (∃ c, vecPush grant v val =
      { data := fun i => if i = v.length then some val else v.data i
        length := v.length + 1
        capacity := c }) ∨
    (grant = false ∧ vecPush grant v val = v) := by
  unfold vecPush vecExpand
  by_cases hroom : v.length + 1 > v.capacity
  · cases grant with
    | false =>
      right
      simp [hroom]
    | true =>
      left
      simp [hroom]
  · left
    simp [hroom]

theorem Vec.Holds.append {v : Vec α} {l : List α} (h : v.Holds l) (val : α) (c : Nat) :
    Vec.Holds
      { data := fun i => if i = v.length then some val else v.data i
        length := v.length + 1
        capacity := c } (l ++ [val]) := by
  refine ⟨by simp [h.length], fun i hi => ?_⟩
  rw [List.length_append, List.length_singleton] at hi
  show (if i = v.length then some val else v.data i) = _
  rw [h.length]
  by_cases hlast : i = l.length
  · rw [if_pos hlast, hlast, List.getElem?_concat_length]
  · rw [if_neg hlast, h.data i (by omega), List.getElem?_append_left (by omega)]

/-- A push appends, or it is refused and the vector keeps its list. -/
theorem Vec.Holds.push {v : Vec α} {l : List α} (h : v.Holds l) (grant : Bool) (val : α) :
    (vecPush grant v val).Holds (l ++ [val]) ∨
      (grant = false ∧ (vecPush grant v val).Holds l) := by
  rcases vecPush_cases grant v val with ⟨c, hc⟩ | ⟨hno, hc⟩
  · left
    rw [hc]
    exact h.append val c
  · right
    rw [hc]
    exact ⟨hno, h⟩

/-- Splicing one slot out of the vector erases that position. -/
theorem Vec.Holds.splice {v : Vec α} {l : List α} (h : v.Holds l) {k : Nat} (hk : k < l.length) :
    (vecSplice v k 1).Holds (l.eraseIdx k) where
  length := by
    rw [List.length_eraseIdx_of_lt hk, ← h.length]
    rfl
  data := by
    intro i hi
    rw [List.length_eraseIdx_of_lt hk] at hi
    show (if k ≤ i ∧ i + 1 < v.length then v.data (i + 1) else v.data i) = _
    rw [h.length, List.getElem?_eraseIdx]
    by_cases hki : k ≤ i
    · rw [if_pos ⟨hki, by omega⟩, if_neg (by omega), h.data (i + 1) (by omega)]
    · rw [if_neg (fun hc => hki hc.1), if_pos (by omega), h.data i (by omega)]

section Find

variable [DecidableEq α]

/-- `vec_find` finds a position exactly when the element is there. -/
theorem Vec.Holds.find {v : Vec α} {l : List α} (h : v.Holds l) (val : α) :
    vecFind v val = l.findIdx? (· == val) := by
  have hread : ∀ i, i < l.length → (v.data i == some val) = ((l[i]?.map (· == val)).getD false) := by
    intro i hi
    rw [h.data i hi, List.getElem?_eq_getElem hi]
    rfl
  unfold vecFind
  rw [h.length]
  cases hf : l.findIdx? (· == val) with
  | none =>
    rw [List.findIdx?_eq_none_iff] at hf
    rw [List.find?_eq_none]
    intro i hi
    rw [List.mem_range] at hi
    rw [hread i hi, List.getElem?_eq_getElem hi]
    simpa using hf _ (List.getElem_mem hi)
  | some k =>
    obtain ⟨hk, hval, hbefore⟩ := List.findIdx?_eq_some_iff_getElem.mp hf
    rw [List.find?_range_eq_some]
    refine ⟨?_, List.mem_range.mpr hk, fun j hj => ?_⟩
    · rw [hread k hk, List.getElem?_eq_getElem hk]
      exact hval
    · rw [hread j (by omega), List.getElem?_eq_getElem (by omega)]
      simpa using hbefore j hj

/-- `vec_remove` takes out the first occurrence. -/
theorem Vec.Holds.remove {v : Vec α} {l : List α} (h : v.Holds l) (val : α) :
    (vecRemove v val).Holds (l.erase val) := by
  unfold vecRemove
  rw [h.find val, List.erase_eq_eraseP', List.eraseP_eq_eraseIdx]
  cases hf : l.findIdx? (· == val) with
  | none => simpa [hf] using h
  | some k =>
    obtain ⟨hk, -, -⟩ := List.findIdx?_eq_some_iff_getElem.mp hf
    simpa [hf] using h.splice hk

end Find

end BestOS
