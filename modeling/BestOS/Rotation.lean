/-
BestOS/Rotation.lean

Going round a list, independent of any particular program.

A counter that stays `k` steps on each of `n` places stands on place
`(a + m / k) % n` after `m` steps.  In any window of `n * k` steps it is on every
place exactly `k` times (`card_slice`), so an entry of the list is met `k` times for
each of its places (`card_turns`).

`l.rotate i` is the list read from place `i` on, round to the place before it.  When
the entries differ, the first one that is not `t` is the one at `i`, or the next
(`find?_rotate_ne`).
-/
import Mathlib.Data.List.Rotate
import Mathlib.Data.Nat.Count
import Mathlib.Data.Nat.Periodic
import Mathlib.Algebra.BigOperators.Ring.Finset
import Mathlib.Algebra.Order.BigOperators.Group.Finset
import Mathlib.Tactic.Ring

namespace Rotation

/-! ### Turns -/

/-- Of the `n * k` numbers below `n * k`, those with quotient `j` are `k` in a row. -/
theorem count_slice {n k j : Nat} (hj : j < n) :
    Nat.count (fun x => x / k % n = j) (n * k) = k := by
  rcases Nat.eq_zero_or_pos k with rfl | hk
  · simp
  rw [Nat.count_eq_card_filter_range]
  have hslice : (Finset.range (n * k)).filter (fun x => x / k % n = j)
      = Finset.Ico (j * k) (j * k + k) := by
    ext x
    simp only [Finset.mem_filter, Finset.mem_range, Finset.mem_Ico]
    have hdiv : x / k = j ↔ j * k ≤ x ∧ x < j * k + k := by
      rw [Nat.div_eq_iff hk]
      omega
    constructor
    · rintro ⟨hx, hmod⟩
      rw [Nat.mod_eq_of_lt (Nat.div_lt_of_lt_mul (by rw [Nat.mul_comm]; exact hx))] at hmod
      exact hdiv.mp hmod
    · intro hx
      have hlast : j * k + k ≤ n * k := by
        rw [← Nat.succ_mul]
        exact Nat.mul_le_mul_right k hj
      rw [hdiv.mpr hx, Nat.mod_eq_of_lt hj]
      exact ⟨by omega, rfl⟩
  rw [hslice, Nat.card_Ico, Nat.add_sub_cancel_left]

/-- **Every place has its turn**: `k` times in any window of `n * k` steps. -/
theorem card_slice (a m : Nat) {n k j : Nat} (hk : 0 < k) (hj : j < n) :
    ((Finset.range (n * k)).filter fun i => (a + (m + i) / k) % n = j).card = k := by
  have hperiodic : Function.Periodic (fun x => x / k % n = j) (n * k) := by
    intro x
    show ((x + n * k) / k % n = j) = _
    rw [Nat.add_mul_div_right x n hk, Nat.add_mod_right]
  have hwindow := Nat.filter_Ico_card_eq_of_periodic (a * k + m) (n * k) (fun x => x / k % n = j)
    hperiodic
  rw [count_slice hj] at hwindow
  have hplace : ∀ i, a + (m + i) / k = (a * k + m + i) / k := by
    intro i
    rw [Nat.add_assoc, Nat.add_comm (a * k), Nat.add_mul_div_right _ _ hk, Nat.add_comm a]
  refine Eq.trans (Finset.card_bij (fun i _ => a * k + m + i) (fun i hi => ?_)
    (fun _ _ _ _ h => Nat.add_left_cancel h) fun x hx => ?_) hwindow
  · obtain ⟨hlt, hj⟩ := Finset.mem_filter.mp hi
    rw [Finset.mem_range] at hlt
    rw [hplace] at hj
    exact Finset.mem_filter.mpr ⟨Finset.mem_Ico.mpr ⟨by omega, by omega⟩, hj⟩
  · obtain ⟨hlt, hj⟩ := Finset.mem_filter.mp hx
    rw [Finset.mem_Ico] at hlt
    refine ⟨x - (a * k + m), Finset.mem_filter.mpr ⟨Finset.mem_range.mpr (by omega), ?_⟩, by omega⟩
    rw [hplace, Nat.add_sub_cancel' hlt.1]
    exact hj

variable {α : Type*} [DecidableEq α]

/-- The places of an entry are as many as the times it is listed. -/
theorem card_places (l : List α) (t : α) :
    ((Finset.range l.length).filter fun j => l[j]? = some t).card = l.count t := by
  induction l using List.reverseRecOn with
  | nil => rfl
  | append_singleton l x ih =>
    have hold : (Finset.range l.length).filter (fun j => (l ++ [x])[j]? = some t)
        = (Finset.range l.length).filter fun j => l[j]? = some t := by
      refine Finset.filter_congr fun j hj => ?_
      rw [List.getElem?_append_left (Finset.mem_range.mp hj)]
    rw [List.length_append, List.length_singleton, Finset.range_add_one, Finset.filter_insert, hold,
      List.getElem?_concat_length, List.count_append, List.count_singleton']
    by_cases hx : x = t
    · rw [if_pos (congrArg some hx), if_pos hx, Finset.card_insert_of_notMem (by simp), ih]
    · rw [if_neg (fun h => hx (Option.some.inj h)), if_neg hx, ih, Nat.add_zero]

/-- **Every entry has its turns**: `k` for each time it is listed. -/
theorem card_turns (l : List α) (t : α) (a m : Nat) {k : Nat} (hk : 0 < k) :
    ((Finset.range (l.length * k)).filter fun i =>
      l[(a + (m + i) / k) % l.length]? = some t).card = k * l.count t := by
  have hmaps : ∀ i ∈ (Finset.range (l.length * k)).filter (fun i =>
      l[(a + (m + i) / k) % l.length]? = some t),
      (a + (m + i) / k) % l.length ∈ (Finset.range l.length).filter fun j => l[j]? = some t := by
    intro i hi
    obtain ⟨-, hentry⟩ := Finset.mem_filter.mp hi
    exact Finset.mem_filter.mpr ⟨Finset.mem_range.mpr (List.getElem?_eq_some_iff.mp hentry).1, hentry⟩
  rw [Finset.card_eq_sum_card_fiberwise hmaps, ← card_places, Nat.mul_comm k]
  refine Finset.sum_const_nat fun j hj => ?_
  obtain ⟨hj, hentry⟩ := Finset.mem_filter.mp hj
  refine Eq.trans (congrArg Finset.card ?_) (card_slice a m hk (Finset.mem_range.mp hj))
  rw [Finset.filter_filter]
  refine Finset.filter_congr fun i _ => ?_
  constructor
  · exact fun h => h.2
  · rintro rfl
    exact ⟨hentry, rfl⟩

/-! ### The next entry that is not `t` -/

/-- The first entry that is not `t`, when the entries differ. -/
theorem find?_ne {l : List α} (hl : l.Nodup) (hlen : 2 ≤ l.length) (t : α) :
    l.find? (fun x => decide (x ≠ t)) = if l[0]? = some t then l[1]? else l[0]? := by
  obtain ⟨a, l, rfl⟩ := List.exists_cons_of_length_pos (Nat.zero_lt_of_lt hlen)
  obtain ⟨b, l, rfl⟩ := List.exists_cons_of_length_pos (Nat.lt_of_succ_lt_succ hlen)
  have hab : b ≠ a := fun h => (List.nodup_cons.mp hl).1 (h ▸ List.mem_cons_self)
  by_cases ha : a = t
  · subst ha
    rw [List.find?_cons_of_neg (by simp), List.find?_cons_of_pos (by simpa using hab)]
    simp
  · rw [List.find?_cons_of_pos (by simpa using ha)]
    simp [ha]

/-- The same from place `i` on, round the list. -/
theorem find?_rotate_ne {l : List α} (hl : l.Nodup) (hlen : 2 ≤ l.length) {i : Nat}
    (hi : i < l.length) (t : α) :
    (l.rotate i).find? (fun x => decide (x ≠ t))
      = if l[i]? = some t then l[(i + 1) % l.length]? else l[i]? := by
  have hhead : (l.rotate i)[0]? = l[i]? := by
    rw [List.getElem?_rotate (by omega), Nat.zero_add, Nat.mod_eq_of_lt hi]
  have hnext : (l.rotate i)[1]? = l[(i + 1) % l.length]? := by
    rw [List.getElem?_rotate (by omega), Nat.add_comm]
  rw [find?_ne (List.nodup_rotate.mpr hl) (by rw [List.length_rotate]; exact hlen), hhead, hnext]

end Rotation
