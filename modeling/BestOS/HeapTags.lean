/-
BestOS/HeapTags.lean

The tags of `lib/alloc.c` as records.

Tags that do not meet do not disturb each other: a store to a field of one is read
back there and nowhere else (`get_set`).  So what a function of `alloc.c` does to the
tags in a set `S` is followed in a table `t` of their fields, one update for each
store; `Edit S h h' t` says that the table tells what `h'` has made of `h`, and that
bytes outside the tags are as before.
-/
import BestOS.LibAllocFree
import BestOS.BlockHeap
import Mathlib.Data.Set.Insert

namespace BestOS

open ByteMemory BlockHeap

/-! ### The window -/

theorem physical_eq {p : Nat} (h1 : MMAP_IO_BASE ≤ p) (h2 : p < 2 ^ 64) :
    physical p = p - MMAP_IO_BASE := by
  unfold physical
  omega

/-- Ranges of the window that do not meet have physical ranges that do not meet. -/
theorem physical_apart {a n b m : Nat} (ha : MMAP_IO_BASE ≤ a) (hb : MMAP_IO_BASE ≤ b)
    (ha' : a < 2 ^ 64) (hb' : b < 2 ^ 64) (h : Apart a n b m) :
    Apart (physical a) n (physical b) m := by
  rw [physical_eq ha ha', physical_eq hb hb']
  rcases h with h | h
  · left
    omega
  · right
    omega

/-! ### Fields -/

theorem TagField.bound (f : TagField) : f.offset + f.width ≤ TAG_SIZE := by
  cases f <;> decide

theorem TagField.width_pos (f : TagField) : 0 < f.width := by
  cases f <;> decide

/-- The fields of a tag do not overlap. -/
theorem TagField.apart {f g : TagField} (h : g ≠ f) : Apart f.offset f.width g.offset g.width := by
  unfold Apart
  cases f <;> cases g <;> first | exact absurd rfl h | decide

deriving instance DecidableEq for TagField

/-- A set of tags that lie in the window and do not meet. -/
structure TagSet (S : Set Nat) : Prop where
  low : ∀ {a}, a ∈ S → MMAP_IO_BASE ≤ a
  high : ∀ {a}, a ∈ S → a + TAG_SIZE < 2 ^ 64
  apart : ∀ {a b}, a ∈ S → b ∈ S → a ≠ b → Apart a TAG_SIZE b TAG_SIZE

variable {S : Set Nat} {h h' : LibAlloc} {a b : Nat} {f g : TagField} {v : Nat}

theorem TagSet.ne_zero (hS : TagSet S) (ha : a ∈ S) : a ≠ 0 := by
  have := hS.low ha
  rintro rfl
  exact absurd this (by decide)

/-- Where a field of a tag is kept. -/
theorem TagSet.physical_field (hS : TagSet S) (ha : a ∈ S) (f : TagField) :
    physical (a + f.offset) = a - MMAP_IO_BASE + f.offset := by
  have h1 := hS.low ha
  have h2 := hS.high ha
  have hf := f.bound
  have hw := f.width_pos
  rw [physical_eq (by omega) (by omega)]
  omega

/-- **A field is read back, and no other field is touched.** -/
theorem get_set (hS : TagSet S) (ha : a ∈ S) (hb : b ∈ S) :
    (h.set a f v).get b g = if b = a ∧ g = f then v % 256 ^ f.width else h.get b g := by
  have ha1 := hS.low ha
  have hb1 := hS.low hb
  simp only [LibAlloc.set, LibAlloc.get, hS.physical_field ha, hS.physical_field hb]
  split
  · next heq =>
      rw [heq.1, heq.2]
      exact readLE_writeLE_same _ _ _ _
  · next hne =>
      refine readLE_writeLE_disjoint _ ?_
      by_cases hba : b = a
      · have hgf : g ≠ f := fun e => hne ⟨hba, e⟩
        rcases TagField.apart hgf with hle | hle
        · omega
        · omega
      · have hf := f.bound
        have hg := g.bound
        rcases hS.apart ha hb (Ne.symm hba) with hle | hle
        · omega
        · omega

/-! ### Tables -/

/-- What the tags hold. -/
abbrev TagTable := Nat → TagField → Nat

/-- `tag->field = v` in a table. -/
def TagTable.upd (t : TagTable) (a : Nat) (f : TagField) (v : Nat) : TagTable :=
  fun b g => if b = a ∧ g = f then v else t b g

@[simp] theorem TagTable.upd_apply (t : TagTable) :
    t.upd a f v b g = if b = a ∧ g = f then v else t b g := rfl

/-- `x` is no byte of a tag in `S`. -/
def OutsideTags (S : Set Nat) (x : Nat) : Prop :=
  ∀ a ∈ S, x < physical a ∨ physical a + TAG_SIZE ≤ x

/-- From `h` to `h'` the tags in `S` were written, and now hold what `t` says. -/
structure Edit (S : Set Nat) (h h' : LibAlloc) (t : TagTable) : Prop where
  tags : ∀ a ∈ S, ∀ f, h'.get a f = t a f
  kept : ∀ x, OutsideTags S x → h'.machine.mem x = h.machine.mem x
  bitmap : h'.machine.bitmap = h.machine.bitmap
  highest : h'.machine.highestPage = h.machine.highestPage
  initialized : h'.initialized = h.initialized

namespace Edit

variable {t : TagTable}

theorem refl (S : Set Nat) (h : LibAlloc) : Edit S h h h.get :=
  ⟨fun _ _ _ => rfl, fun _ _ => rfl, rfl, rfl, rfl⟩

/-- One more store. -/
theorem set (e : Edit S h h' t) (hS : TagSet S) (ha : a ∈ S) (hv : v < 256 ^ f.width) :
    Edit S h (h'.set a f v) (t.upd a f v) where
  tags := by
    intro b hb g
    rw [get_set hS ha hb, e.tags b hb g, Nat.mod_eq_of_lt hv]
    rfl
  kept := by
    intro x hx
    have ha1 := hS.low ha
    have hf := f.bound
    have hout := hx a ha
    rw [physical_eq ha1 (by have := hS.high ha; omega)] at hout
    refine (writeLE_agree _ _ _ _ ?_).trans (e.kept x hx)
    rw [hS.physical_field ha]
    omega
  bitmap := e.bitmap
  highest := e.highest
  initialized := e.initialized

/-- The statics of `alloc.c` are no tags. -/
theorem statics (e : Edit S h h' t) (first : Nat → Nat) (complete : Nat → Int) :
    Edit S h { h' with freePages := first, completePages := complete } t :=
  ⟨e.tags, e.kept, e.bitmap, e.highest, e.initialized⟩

/-- A table that says the same of the tags. -/
theorem congr (e : Edit S h h' t) {t' : TagTable} (ht : ∀ a ∈ S, ∀ f, t a f = t' a f) :
    Edit S h h' t' :=
  ⟨fun a ha f => (e.tags a ha f).trans (ht a ha f), e.kept, e.bitmap, e.highest,
    e.initialized⟩

theorem trans {h'' : LibAlloc} {t' : TagTable} (e : Edit S h h' t) (e' : Edit S h' h'' t') :
    Edit S h h'' t' :=
  ⟨e'.tags, fun x hx => (e'.kept x hx).trans (e.kept x hx), e'.bitmap.trans e.bitmap,
    e'.highest.trans e.highest, e'.initialized.trans e.initialized⟩

end Edit

end BestOS
