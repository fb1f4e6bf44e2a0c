/-
BestOS/NearestMark.lean

The nearest mark above a node.

A forest is given by the step `up` from a node to the one above it, and some of
its nodes carry a mark.  `NearestMark up mark i b` says that the first marked node
on the way up from `i`, which may be `i` itself, carries `b`.  A node has at most
one nearest mark (`NearestMark.unique`), and the nearest marks in a part of the
forest that no step leaves depend on that part only (`NearestMark.congr`).
-/
import Mathlib.Data.Option.Basic

variable {ι β : Type*} {up up' : ι → Option ι} {mark mark' : ι → Option β}

inductive NearestMark (up : ι → Option ι) (mark : ι → Option β) : ι → β → Prop
  | self {i b} : mark i = some b → NearestMark up mark i b
  | above {i j b} : mark i = none → up i = some j → NearestMark up mark j b →
      NearestMark up mark i b

namespace NearestMark

theorem marked_iff {i : ι} {b b' : β} (h : mark i = some b) :
    NearestMark up mark i b' ↔ b' = b := by
  constructor
  · rintro (hself | ⟨hnone, -, -⟩)
    · exact Option.some.inj (hself.symm.trans h)
    · rw [h] at hnone
      cases hnone
  · rintro rfl
    exact .self h

theorem above_iff {i j : ι} {b : β} (h : mark i = none) (hup : up i = some j) :
    NearestMark up mark i b ↔ NearestMark up mark j b := by
  constructor
  · rintro (hself | ⟨-, hup', hnear⟩)
    · rw [h] at hself
      cases hself
    · obtain rfl := Option.some.inj (hup.symm.trans hup')
      exact hnear
  · exact .above h hup

theorem unique {i : ι} {b b' : β} (h : NearestMark up mark i b) (h' : NearestMark up mark i b') :
    b = b' := by
  induction h with
  | self hmark => exact ((marked_iff hmark).mp h').symm
  | above hnone hup _ ih => exact ih ((above_iff hnone hup).mp h')

/-- Two forests that agree on a part that no step up from an unmarked node
leaves. -/
theorem mono {S : ι → Prop} (hclosed : ∀ i, S i → mark i = none → ∀ j, up i = some j → S j)
    (hup : ∀ i, S i → up' i = up i) (hmark : ∀ i, S i → mark' i = mark i) {i : ι} {b : β}
    (hi : S i) (h : NearestMark up mark i b) : NearestMark up' mark' i b := by
  induction h with
  | self h => exact .self ((hmark _ hi).trans h)
  | above hnone hj _ ih =>
    exact .above ((hmark _ hi).trans hnone) ((hup _ hi).trans hj) (ih (hclosed _ hi hnone _ hj))

theorem congr {S : ι → Prop} (hclosed : ∀ i, S i → mark i = none → ∀ j, up i = some j → S j)
    (hup : ∀ i, S i → up' i = up i) (hmark : ∀ i, S i → mark' i = mark i) {i : ι} {b : β}
    (hi : S i) : NearestMark up' mark' i b ↔ NearestMark up mark i b := by
  refine ⟨mono (fun j hj hnone k hk => ?_) (fun j hj => (hup j hj).symm)
    (fun j hj => (hmark j hj).symm) hi, mono hclosed hup hmark hi⟩
  exact hclosed j hj ((hmark j hj).symm.trans hnone) k ((hup j hj).symm.trans hk)

end NearestMark
