/-
BestOS/HeapEdits.lean

What the functions of `lib/alloc.c` do to the tags, one table for each.

`removeTag`, `insertTagAt`, the writing half of `splitTag` (`cutTag`), `meltLeft` and
`absorbRight` each follow at most four pointers; under the condition that these
lead to tags, their `Edit` is a table with the fields of those tags changed.
-/
import BestOS.HeapTags

namespace BestOS

open ByteMemory BlockHeap

variable {S : Set Nat} {h h' : LibAlloc} {t : TagTable} {a b i : Nat} {f g : TagField} {v : Nat}

theorem get_lt (h : LibAlloc) (a : Nat) (f : TagField) : h.get a f < 256 ^ f.width :=
  readLE_lt _ _ _

@[simp] theorem set_freePages (h : LibAlloc) (a : Nat) (f : TagField) (v : Nat) :
    (h.set a f v).freePages = h.freePages := by
  cases h
  rfl

@[simp] theorem set_completePages (h : LibAlloc) (a : Nat) (f : TagField) (v : Nat) :
    (h.set a f v).completePages = h.completePages := by
  cases h
  rfl

/-- A pointer of a list or between neighbours: NULL, or to a tag. -/
def PointsInto (S : Set Nat) (p : Nat) : Prop := p ≠ 0 → p ∈ S

theorem TagSet.lt_of_pointsInto (hS : TagSet S) {p : Nat} (hp : PointsInto S p) : p < 256 ^ 8 := by
  by_cases h0 : p = 0
  · rw [h0]
    decide
  · have := hS.high (hp h0)
    omega

/-- A store through a pointer that may be NULL; NULL is no tag. -/
theorem Edit.setIf (e : Edit S h h' t) (hS : TagSet S) {p : Nat} (hp : PointsInto S p)
    (hv : v < 256 ^ f.width) : Edit S h (if p ≠ 0 then h'.set p f v else h') (t.upd p f v) := by
  split
  · next hne => exact e.set hS (hp hne) hv
  · next h0 =>
      refine e.congr fun b hb g => ?_
      have hbp : b ≠ p := fun he => h0 (he ▸ hS.ne_zero hb)
      rw [TagTable.upd_apply, if_neg fun hc => hbp hc.1]

/-! ### `remove_tag` -/

/-- The front of a list gives way to the tag behind it. -/
def unhead (h : LibAlloc) (tag : Nat) : LibAlloc :=
  if h.freePages (h.get tag .index) = tag then
    { h with freePages := Function.update h.freePages (h.get tag .index) (h.get tag .next) }
  else h

/-- The neighbours on the list are tied to each other. -/
def tieNeighbours (h : LibAlloc) (tag : Nat) : LibAlloc :=
  let h := if h.get tag .prev ≠ 0 then h.set (h.get tag .prev) .next (h.get tag .next) else h
  if h.get tag .next ≠ 0 then h.set (h.get tag .next) .prev (h.get tag .prev) else h

theorem removeTag_eq (h : LibAlloc) (tag : Nat) :
    removeTag h tag
      = (((tieNeighbours (unhead h tag) tag).set tag .next 0).set tag .prev 0).set tag .index
          (2 ^ 32 - 1) := rfl

/-- The tags after `a` was taken off its list. -/
def TagTable.unlink (t : TagTable) (a : Nat) : TagTable :=
  ((((t.upd (t a .prev) .next (t a .next)).upd (t a .next) .prev (t a .prev)).upd a .next 0).upd
    a .prev 0).upd a .index (2 ^ 32 - 1)

theorem unhead_edit (S : Set Nat) (h : LibAlloc) (tag : Nat) : Edit S h (unhead h tag) h.get := by
  unfold unhead
  split
  · exact (Edit.refl S h).statics _ _
  · exact Edit.refl S h

theorem unhead_get (h : LibAlloc) (tag : Nat) : (unhead h tag).get = h.get := by
  unfold unhead
  split <;> rfl

theorem removeTag_edit (hS : TagSet S) (ha : a ∈ S) (hp : PointsInto S (h.get a .prev))
    (hn : PointsInto S (h.get a .next)) (hpa : h.get a .prev ≠ a) :
    Edit S h (removeTag h a) (TagTable.unlink h.get a) := by
  have e1 := (unhead_edit S h a).setIf hS (f := .next) hp (get_lt h a .next)
  -- the first store is not to `a`
  have hgets : ∀ f, (if h.get a .prev ≠ 0 then
      (unhead h a).set (h.get a .prev) .next (h.get a .next) else unhead h a).get a f
      = h.get a f := by
    intro f
    rw [e1.tags a ha f, TagTable.upd_apply, if_neg fun hc => hpa hc.1.symm]
  have e2 := e1.setIf hS (f := .prev) hn (get_lt h a .prev)
  rw [removeTag_eq, tieNeighbours, unhead_get]
  rw [hgets, hgets]
  exact ((e2.set hS ha (by decide)).set hS ha (by decide)).set hS ha (by decide)

theorem removeTag_freePages (h : LibAlloc) (a : Nat) :
    (removeTag h a).freePages = (unhead h a).freePages := by
  rw [removeTag_eq, tieNeighbours]
  simp only [set_freePages]
  split <;> split <;> rfl

theorem removeTag_completePages (h : LibAlloc) (a : Nat) :
    (removeTag h a).completePages = h.completePages := by
  rw [removeTag_eq, tieNeighbours, unhead]
  simp only [set_completePages]
  split <;> split <;> split <;> rfl

/-! ### `insert_tag` -/

/-- The tags after `a` was put in front of `first` on list `i`. -/
def TagTable.link (t : TagTable) (a i first : Nat) : TagTable :=
  if first ≠ 0 then ((t.upd a .index i).upd first .prev a).upd a .next first
  else t.upd a .index i

theorem insertTagAt_edit (hS : TagSet S) (ha : a ∈ S) (hi : i < 2 ^ 31)
    (hfirst : PointsInto S (h.freePages i)) :
    Edit S h (insertTagAt h a (i : Int)) (TagTable.link h.get a i (h.freePages i)) := by
  have e1 := (Edit.refl S h).set hS (f := .index) ha (v := i) (by
    simp only [TagField.width]
    omega)
  have hnn : ¬ (i : Int) < 0 := by omega
  unfold insertTagAt TagTable.link
  simp only [if_neg hnn, Int.toNat_natCast, set_freePages]
  split
  · next hne =>
      exact ((e1.set hS (hfirst hne) (hS.lt_of_pointsInto fun _ => ha)).set hS ha
        (hS.lt_of_pointsInto hfirst)).statics _ _
  · exact e1.statics _ _

theorem insertTagAt_freePages (h : LibAlloc) (a i : Nat) :
    (insertTagAt h a (i : Int)).freePages = Function.update h.freePages i a := by
  have hnn : ¬ (i : Int) < 0 := by omega
  unfold insertTagAt
  simp only [if_neg hnn, Int.toNat_natCast, set_freePages]
  split <;> rfl

theorem insertTagAt_completePages (h : LibAlloc) (a : Nat) (i : Int) :
    (insertTagAt h a i).completePages = h.completePages := by
  unfold insertTagAt
  simp only [set_freePages]
  split_ifs <;> rfl

/-! ### `split_tag` -/

/-- The address of the tag that `split_tag(tag)` makes. -/
def cutPoint (h : LibAlloc) (tag : Nat) : Nat := (tag + TAG_SIZE + h.get tag .size) % 2 ^ 64

/-- `split_tag(tag)`, but for `insert_tag`. -/
def cutTag (h : LibAlloc) (tag : Nat) : LibAlloc :=
  let remainder := (h.get tag .realSize + 2 ^ 32 - TAG_SIZE + 2 ^ 32 - h.get tag .size) % 2 ^ 32
  let newTag := cutPoint h tag
  let h := h.set newTag .magic LIBALLOC_MAGIC
  let h := h.set newTag .realSize remainder
  let h := (h.set newTag .next 0).set newTag .prev 0
  let h := (h.set newTag .splitLeft tag).set newTag .splitRight (h.get tag .splitRight)
  let right := h.get newTag .splitRight
  let h := if right ≠ 0 then h.set right .splitLeft newTag else h
  let h := h.set tag .splitRight newTag
  h.set tag .realSize ((h.get tag .realSize + 2 ^ 32 - h.get newTag .realSize) % 2 ^ 32)

theorem splitTag_eq (h : LibAlloc) (tag : Nat) :
    splitTag h tag = insertTag (cutTag h tag) (cutPoint h tag) := by
  unfold splitTag cutTag cutPoint
  rfl

/-- The tags after the piece at `a`, of size `s`, was cut at `c`. -/
def TagTable.cut (t : TagTable) (a c s : Nat) : TagTable :=
  ((((((((t.upd c .magic LIBALLOC_MAGIC).upd c .realSize (a + s - c)).upd c .next 0).upd c .prev
    0).upd c .splitLeft a).upd c .splitRight (t a .splitRight)).upd (t a .splitRight) .splitLeft
    c).upd a .splitRight c).upd a .realSize (c - a)

theorem cutTag_edit (hS : TagSet S) {n s : Nat} (ha : a ∈ S) (hc : a + TAG_SIZE + n ∈ S)
    (hsize : h.get a .size = n) (hreal : h.get a .realSize = s) (hfit : TAG_SIZE + n ≤ s)
    (hr : PointsInto S (h.get a .splitRight)) :
    Edit S h (cutTag h a) (TagTable.cut h.get a (a + TAG_SIZE + n) s) := by
  have hpoint : cutPoint h a = a + TAG_SIZE + n := by
    have := hS.high hc
    rw [cutPoint, hsize, Nat.mod_eq_of_lt (by omega)]
  unfold cutTag
  rw [hpoint]
  extract_lets rem c h1 h2 h3 h4 right h5 h6
  have hcdef : a + TAG_SIZE + n = c := rfl
  rw [hcdef] at hc ⊢
  clear_value c
  have hca : c ≠ a := by
    have : 0 < TAG_SIZE := by decide
    omega
  have hslt : s < 2 ^ 32 := hreal ▸ get_lt h a .realSize
  have hrem : rem = a + s - c := by
    have : TAG_SIZE < 2 ^ 32 := by decide
    simp only [rem, hsize, hreal]
    omega
  have e1 : Edit S h h1 _ := (Edit.refl S h).set hS hc (by decide)
  have e2 : Edit S h h2 _ := e1.set hS (f := .realSize) hc (v := rem) (by
    rw [hrem]
    show _ < 2 ^ 32
    omega)
  have e3 : Edit S h h3 _ := (e2.set hS hc (by decide)).set hS hc (by decide)
  have hright3 : h3.get a .splitRight = h.get a .splitRight := by
    rw [e3.tags a ha]
    simp [hca.symm]
  have e4 : Edit S h h4 _ := (e3.set hS hc (hS.lt_of_pointsInto fun _ => ha)).set hS
    (f := .splitRight) hc (v := h3.get a .splitRight) (get_lt _ _ _)
  have hright : right = h.get a .splitRight := by
    simp only [right]
    rw [e4.tags c hc]
    simp [hright3]
  have e5 : Edit S h h5 _ := e4.setIf hS (hright ▸ hr) (hS.lt_of_pointsInto fun _ => hc)
  have e6 : Edit S h h6 _ := e5.set hS (f := .splitRight) ha (v := c)
    (hS.lt_of_pointsInto fun _ => hc)
  have hlast : (h6.get a .realSize + 2 ^ 32 - h6.get c .realSize) % 2 ^ 32 = c - a := by
    rw [e6.tags a ha, e6.tags c hc]
    simp [hca, hca.symm, hreal, hrem]
    omega
  rw [hlast]
  have e7 := e6.set hS (f := .realSize) ha (v := c - a) (by
    show _ < 2 ^ 32
    omega)
  rw [hright3, hrem, hright] at e7
  exact e7

theorem cutTag_freePages (h : LibAlloc) (a : Nat) : (cutTag h a).freePages = h.freePages := by
  simp only [cutTag, set_freePages, apply_ite LibAlloc.freePages, ite_self]

theorem cutTag_completePages (h : LibAlloc) (a : Nat) :
    (cutTag h a).completePages = h.completePages := by
  simp only [cutTag, set_completePages, apply_ite LibAlloc.completePages, ite_self]

/-! ### `melt_left` and `absorb_right` -/

/-- The piece at `b` swallows its right neighbour, the one at `a`. -/
def fuseTags (h : LibAlloc) (b a : Nat) : LibAlloc :=
  let h := h.set b .realSize ((h.get b .realSize + h.get a .realSize) % 2 ^ 32)
  let h := h.set b .splitRight (h.get a .splitRight)
  if h.get a .splitRight ≠ 0 then h.set (h.get a .splitRight) .splitLeft b else h

theorem meltLeft_eq (h : LibAlloc) (tag : Nat) :
    meltLeft h tag = (h.get tag .splitLeft, fuseTags h (h.get tag .splitLeft) tag) := rfl

theorem absorbRight_eq (h : LibAlloc) (tag : Nat) :
    absorbRight h tag
      = fuseTags (removeTag h (h.get tag .splitRight)) tag (h.get tag .splitRight) := rfl

/-- The tags after that, with `s` for the size of both. -/
def TagTable.fuse (t : TagTable) (b a s : Nat) : TagTable :=
  ((t.upd b .realSize s).upd b .splitRight (t a .splitRight)).upd (t a .splitRight) .splitLeft b

theorem fuseTags_edit (hS : TagSet S) {s : Nat} (hb : b ∈ S) (ha : a ∈ S) (hne : a ≠ b)
    (hs : h.get b .realSize + h.get a .realSize = s) (hlt : s < 2 ^ 32)
    (hr : PointsInto S (h.get a .splitRight)) :
    Edit S h (fuseTags h b a) (TagTable.fuse h.get b a s) := by
  unfold fuseTags
  rw [hs, Nat.mod_eq_of_lt hlt]
  extract_lets h1 h2
  have e1 : Edit S h h1 _ := (Edit.refl S h).set hS (f := .realSize) hb (v := s) hlt
  have hr1 : h1.get a .splitRight = h.get a .splitRight := by
    rw [e1.tags a ha]
    simp
  have e2 : Edit S h h2 _ := e1.set hS (f := .splitRight) hb (v := h1.get a .splitRight)
    (get_lt _ _ _)
  have hr2 : h2.get a .splitRight = h.get a .splitRight := by
    rw [e2.tags a ha]
    simp [hne]
  rw [hr1] at e2
  rw [hr2]
  exact e2.setIf hS hr (hS.lt_of_pointsInto fun _ => hb)

theorem fuseTags_freePages (h : LibAlloc) (b a : Nat) :
    (fuseTags h b a).freePages = h.freePages := by
  simp only [fuseTags, set_freePages, apply_ite LibAlloc.freePages, ite_self]

theorem fuseTags_completePages (h : LibAlloc) (b a : Nat) :
    (fuseTags h b a).completePages = h.completePages := by
  simp only [fuseTags, set_completePages, apply_ite LibAlloc.completePages, ite_self]

/-! ### `allocate_new_tag` -/

/-- The tag that `allocate_new_tag` writes in front of its pages. -/
def writeNewTag (h : LibAlloc) (tag size pages : Nat) : LibAlloc :=
  let h := h.set tag .magic LIBALLOC_MAGIC
  let h := h.set tag .size size
  let h := h.set tag .realSize (pages * L_PAGE_SIZE)
  let h := h.set tag .index (2 ^ 32 - 1)
  let h := (h.set tag .next 0).set tag .prev 0
  (h.set tag .splitLeft 0).set tag .splitRight 0

theorem allocateNewTag_eq (h : LibAlloc) (size : Nat) :
    allocateNewTag h size
      = let r := liballocAlloc h.machine (toInt (newTagPages size))
        let h := { h with machine := r.2 }
        if r.1 = 0 then (0, h) else (r.1, writeNewTag h r.1 size (newTagPages size)) := rfl

def TagTable.fresh (t : TagTable) (a size realSize : Nat) : TagTable :=
  (((((((t.upd a .magic LIBALLOC_MAGIC).upd a .size size).upd a .realSize realSize).upd a .index
    (2 ^ 32 - 1)).upd a .next 0).upd a .prev 0).upd a .splitLeft 0).upd a .splitRight 0

theorem writeNewTag_edit (hS : TagSet S) (ha : a ∈ S) {size pages : Nat} (hsize : size < 2 ^ 32)
    (hpages : pages * L_PAGE_SIZE < 2 ^ 32) :
    Edit S h (writeNewTag h a size pages) (TagTable.fresh h.get a size (pages * L_PAGE_SIZE)) := by
  unfold writeNewTag TagTable.fresh
  exact ((((((((Edit.refl S h).set hS ha (by decide)).set hS ha hsize).set hS ha hpages).set hS ha
    (by decide)).set hS ha (by decide)).set hS ha (by decide)).set hS ha (by decide)).set hS ha
    (by decide)

theorem writeNewTag_freePages (h : LibAlloc) (a size pages : Nat) :
    (writeNewTag h a size pages).freePages = h.freePages := by
  simp only [writeNewTag, set_freePages]

theorem writeNewTag_completePages (h : LibAlloc) (a size pages : Nat) :
    (writeNewTag h a size pages).completePages = h.completePages := by
  simp only [writeNewTag, set_completePages]

end BestOS
