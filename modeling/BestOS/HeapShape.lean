/-
BestOS/HeapShape.lean

The heap of `lib/alloc.c` as an arena of pieces with boundary tags.

`HeapShape h A L` says that memory holds the arena `A`, whose free pieces stand on
the doubly linked lists `L`, and that every piece has its tag.  `removeTag`,
`insertTagAt`, `cutTag` and `fuseTags` are the arena's `relist`, `split` and `join`,
each with one lemma; `free` melts a block with a neighbour that is still on a list,
so that `Shelved`, that every free piece is on the list of its size, stands apart.
-/
import BestOS.HeapEdits
import BestOS.BoundaryTags
import BestOS.LinkedList

namespace BestOS

open ByteMemory BlockHeap BoundaryTags LinkedList

/-- `tag->index`: the list, or -1. -/
def indexOf : Option Nat → Nat
  | none => 2 ^ 32 - 1
  | some i => i

/-- The tag of a piece. -/
structure TagOk (h : LibAlloc) (a : Nat) (p : Piece) : Prop where
  magic : h.get a .magic = LIBALLOC_MAGIC
  realSize : h.get a .realSize = p.size
  index : h.get a .index = indexOf p.list
  splitLeft : h.get a .splitLeft = p.left
  splitRight : h.get a .splitRight = p.right
  unlinked : p.list = none → h.get a .next = 0 ∧ h.get a .prev = 0

/-- Where the tags of an arena are. -/
def tagsOf (A : Arena) : Set Nat := { a | ∃ p, A a = some p }

structure HeapShape (h : LibAlloc) (A : Arena) (L : Nat → List Nat) : Prop where
  tiled : A.Tiled TAG_SIZE
  window : ∀ {a p}, A a = some p →
    MMAP_IO_BASE ≤ p.base ∧ p.base + p.len < 2 ^ 64 ∧ p.len < 2 ^ 32
  tags : ∀ {a p}, A a = some p → TagOk h a p
  heads : ∀ i, h.freePages i = (L i).headD 0
  linked : ∀ i, Linked (fun a => h.get a .next) (fun a => h.get a .prev) 0 (L i)
  nodup : ∀ i, (L i).Nodup
  members : ∀ {a i}, a ∈ L i ↔ ∃ p, A a = some p ∧ p.list = some i
  small : ∀ {a p i}, A a = some p → p.list = some i → i < MAXEXP

/-- Every free piece is on the list of its size. -/
def Shelved (A : Arena) : Prop :=
  ∀ ⦃a p i⦄, A a = some p → p.list = some i → i = listIndex (p.size - TAG_SIZE)

theorem tag_size_pos : 0 < TAG_SIZE := by decide

/-- The lists there are. -/
theorem getexpLoop_le (size : Nat) : ∀ left, left ≤ MAXEXP → getexpLoop size left ≤ MAXEXP
  | 0, _ => Nat.le_refl _
  | left + 1, hle => by
      rw [getexpLoop]
      split
      · exact Nat.sub_le _ _
      · exact getexpLoop_le size left (Nat.le_of_succ_le hle)

theorem listIndex_lt (size : Nat) : listIndex size < MAXEXP := by
  have hle := getexpLoop_le size (MAXEXP - MINEXP) (Nat.sub_le _ _)
  have hm : MINEXP < MAXEXP := by decide
  unfold listIndex
  split
  · exact hm
  · next hge =>
      unfold getexp at hge ⊢
      split
      · next hsmall =>
          rw [if_pos hsmall] at hge
          exact absurd (by decide : (-1 : Int) < MINEXP) hge
      · next hbig =>
          rw [if_neg hbig] at hge
          omega

/-- The tags of pieces in the window do not meet. -/
theorem tagSet_of_tiled {A : Arena} (ok : A.Tiled TAG_SIZE)
    (hw : ∀ {a p}, A a = some p →
      MMAP_IO_BASE ≤ p.base ∧ p.base + p.len < 2 ^ 64 ∧ p.len < 2 ^ 32) : TagSet (tagsOf A) where
  low := by
    rintro a ⟨p, hp⟩
    exact (hw hp).1.trans (ok.inside hp).1
  high := by
    rintro a ⟨p, hp⟩
    have := hw hp
    have := ok.inside hp
    have := (ok.room hp).2
    omega
  apart := by
    rintro a b ⟨p, hp⟩ ⟨q, hq⟩ hne
    have h1 := (ok.room hp).2
    have h2 := (ok.room hq).2
    exact (ok.apart hp hq hne).mono (Nat.le_refl a) (by omega) (Nat.le_refl b) (by omega)

theorem tagsOf_relist (A : Arena) (a : Nat) (l : Option Nat) : tagsOf (A.relist a l) = tagsOf A := by
  ext b
  constructor
  · rintro ⟨q, hq⟩
    obtain ⟨q₀, hq₀, -⟩ := Arena.relist_cases hq
    exact ⟨q₀, hq₀⟩
  · rintro ⟨q, hq⟩
    exact ⟨_, Arena.relist_of hq⟩

/-- A tag stays where a piece is cut. -/
theorem tagsOf_split {A : Arena} {a b n : Nat} {p q : Piece} (hn : 0 < n) (hb : A b = some q) :
    b ∈ tagsOf (A.split a n p) := by
  by_cases hba : b = a
  · subst hba
    exact ⟨_, Arena.split_self A b hn p⟩
  · by_cases hbc : b = a + n
    · subst hbc
      exact ⟨_, Arena.split_new A a n p⟩
    · exact ⟨_, Arena.split_of hba hbc hb⟩

namespace HeapShape

variable {h h' : LibAlloc} {A : Arena} {L : Nat → List Nat} {a b i : Nat} {p q : Piece}

/-- A piece lies in the window. -/
theorem inWindow (sh : HeapShape h A L) (ha : A a = some p) :
    MMAP_IO_BASE ≤ a ∧ a + p.size < 2 ^ 64 ∧ p.size < 2 ^ 32 := by
  have hw := sh.window ha
  have hin := sh.tiled.inside ha
  omega

theorem tagSet (sh : HeapShape h A L) : TagSet (tagsOf A) :=
  tagSet_of_tiled sh.tiled sh.window

/-- The neighbours of a piece are tags. -/
theorem right_pointsInto (sh : HeapShape h A L) (ha : A a = some p) :
    PointsInto (tagsOf A) p.right := by
  intro hne
  obtain ⟨q, hq, -⟩ := sh.tiled.right ha hne
  exact ⟨q, hq⟩

theorem mem_list (sh : HeapShape h A L) (ha : A a = some p) (hl : p.list = some i) : a ∈ L i :=
  sh.members.mpr ⟨p, ha, hl⟩

theorem list_mem (sh : HeapShape h A L) (ha : a ∈ L i) : a ∈ tagsOf A := by
  obtain ⟨p, hp, -⟩ := sh.members.mp ha
  exact ⟨p, hp⟩

/-- A tag is on one list at most. -/
theorem list_eq (sh : HeapShape h A L) {j : Nat} (hi : a ∈ L i) (hj : a ∈ L j) : i = j := by
  obtain ⟨p, hp, hpi⟩ := sh.members.mp hi
  obtain ⟨q, hq, hqj⟩ := sh.members.mp hj
  rw [hp] at hq
  cases hq
  rw [hpi] at hqj
  exact Option.some.inj hqj

theorem zero_notMem (sh : HeapShape h A L) (i : Nat) : 0 ∉ L i :=
  fun h0 => (sh.linked i).ne_zero h0 rfl

/-- The pointers of a tag on a list. -/
theorem next_mem (sh : HeapShape h A L) (ha : a ∈ L i) :
    h.get a .next = 0 ∨ h.get a .next ∈ L i :=
  ((sh.linked i).next_mem ha).imp_right List.mem_of_mem_tail

theorem prev_mem (sh : HeapShape h A L) (ha : a ∈ L i) :
    h.get a .prev = 0 ∨ h.get a .prev ∈ L i :=
  (sh.linked i).prev_mem ha

theorem next_ne (sh : HeapShape h A L) (ha : a ∈ L i) : h.get a .next ≠ a :=
  (sh.linked i).next_ne (sh.nodup i) ha

theorem prev_ne (sh : HeapShape h A L) (ha : a ∈ L i) : h.get a .prev ≠ a :=
  (sh.linked i).prev_ne (List.nodup_cons.mpr ⟨sh.zero_notMem i, sh.nodup i⟩) ha

/-- The first tag of a list. -/
theorem head_pointsInto (sh : HeapShape h A L) (i : Nat) :
    PointsInto (tagsOf A) (h.freePages i) := by
  intro hne
  rw [sh.heads] at hne ⊢
  cases hL : L i with
  | nil =>
      rw [hL] at hne
      exact absurd rfl hne
  | cons b l => exact sh.list_mem (i := i) (by simp [hL])

/-- A piece in use is on no list. -/
theorem notMem_of_used (sh : HeapShape h A L) (ha : A a = some p) (hl : p.list = none) (i : Nat) :
    a ∉ L i := by
  intro hmem
  obtain ⟨q, hq, hqi⟩ := sh.members.mp hmem
  rw [ha] at hq
  cases hq
  rw [hl] at hqi
  cases hqi

/-- Onto a list or off it, a piece stays in its run. -/
theorem relist_window (sh : HeapShape h A L) {l : Option Nat} (hb : A.relist a l b = some q) :
    MMAP_IO_BASE ≤ q.base ∧ q.base + q.len < 2 ^ 64 ∧ q.len < 2 ^ 32 := by
  obtain ⟨q₀, hq, rfl⟩ := Arena.relist_cases hb
  exact (sh.window hq :)

/-! ### Off a list -/

/-- The lists without `a` on list `i`. -/
theorem members_remove (sh : HeapShape h A L) {b j : Nat} :
    b ∈ Function.update L i ((L i).erase a) j ↔ b ∈ L j ∧ ¬ (j = i ∧ b = a) := by
  by_cases hji : j = i
  · subst hji
    rw [Function.update_self, (sh.nodup j).mem_erase_iff]
    tauto
  · rw [Function.update_of_ne hji]
    simp [hji]

theorem remove_edit (sh : HeapShape h A L) (ha : A a = some p) (hl : p.list = some i) :
    Edit (tagsOf A) h (removeTag h a) (TagTable.unlink h.get a) := by
  have hmem := sh.mem_list ha hl
  refine removeTag_edit sh.tagSet ⟨p, ha⟩ (fun hne => ?_) (fun hne => ?_) (sh.prev_ne hmem)
  · exact sh.list_mem ((sh.prev_mem hmem).resolve_left hne)
  · exact sh.list_mem ((sh.next_mem hmem).resolve_left hne)

theorem remove_heads (sh : HeapShape h A L) (ha : A a = some p) (hl : p.list = some i) (j : Nat) :
    (removeTag h a).freePages j = (Function.update L i ((L i).erase a) j).headD 0 := by
  have hindex : h.get a .index = i := by
    rw [(sh.tags ha).index, hl]
    rfl
  have hhead := (sh.linked i).head_erase (sh.tiled.room ha).1
  rw [removeTag_freePages, unhead, hindex]
  by_cases hji : j = i
  · subst hji
    rw [Function.update_self, hhead, ← sh.heads j]
    split
    · exact Function.update_self _ _ _
    · rfl
  · rw [Function.update_of_ne hji, ← sh.heads j]
    split
    · exact Function.update_of_ne hji _ _
    · rfl

/-- The neighbours of `a` are on its list. -/
theorem ne_links (sh : HeapShape h A L) (ha : a ∈ L i) (h0 : b ≠ 0) (hb : b ∉ L i) :
    b ≠ h.get a .next ∧ b ≠ h.get a .prev := by
  constructor
  · intro he
    have hnext := sh.next_mem ha
    rw [← he] at hnext
    exact hb (hnext.resolve_left h0)
  · intro he
    have hprev := sh.prev_mem ha
    rw [← he] at hprev
    exact hb (hprev.resolve_left h0)

theorem remove_tags (sh : HeapShape h A L) (ha : A a = some p) (hl : p.list = some i)
    (hb : A.relist a none b = some q) : TagOk (removeTag h a) b q := by
  have e := sh.remove_edit ha hl
  obtain ⟨q₀, hq, rfl⟩ := Arena.relist_cases hb
  have htag := sh.tags hq
  constructor
  all_goals simp only [e.tags b ⟨q₀, hq⟩]
  case magic => simp [TagTable.unlink, htag.magic]
  case realSize => simp [TagTable.unlink, htag.realSize]
  case index =>
    by_cases hba : b = a
    · simp [TagTable.unlink, hba, indexOf]
    · simp [TagTable.unlink, hba, htag.index]
  case splitLeft => simp [TagTable.unlink, htag.splitLeft]
  case splitRight => simp [TagTable.unlink, htag.splitRight]
  case unlinked =>
    intro hused
    by_cases hba : b = a
    · simp [TagTable.unlink, hba]
    · rw [if_neg hba] at hused
      obtain ⟨hbn, hbp⟩ := sh.ne_links (sh.mem_list ha hl) (sh.tiled.room hq).1
        (sh.notMem_of_used hq hused i)
      simp [TagTable.unlink, hba, hbn, hbp, htag.unlinked hused]

theorem remove_linked (sh : HeapShape h A L) (ha : A a = some p) (hl : p.list = some i) (j : Nat) :
    Linked (fun b => (removeTag h a).get b .next) (fun b => (removeTag h a).get b .prev) 0
      (Function.update L i ((L i).erase a) j) := by
  have e := sh.remove_edit ha hl
  have hmem := sh.mem_list ha hl
  by_cases hji : j = i
  · subst hji
    rw [Function.update_self]
    refine (sh.linked j).erase (List.nodup_cons.mpr ⟨sh.zero_notMem j, sh.nodup j⟩) hmem
      (fun b hb hba => ?_) fun b hb hba => ?_
    · rw [e.tags b (sh.list_mem hb)]
      simp [TagTable.unlink, hba]
    · rw [e.tags b (sh.list_mem hb)]
      simp [TagTable.unlink, hba]
  · rw [Function.update_of_ne hji]
    have hne : ∀ {b}, b ∈ L j → b ≠ a ∧ b ≠ h.get a .next ∧ b ≠ h.get a .prev := by
      intro b hb
      have hbi : b ∉ L i := fun hbi => hji (sh.list_eq hb hbi)
      exact ⟨fun he => hbi (he ▸ hmem), sh.ne_links hmem ((sh.linked j).ne_zero hb) hbi⟩
    refine (sh.linked j).congr (fun b hb => ?_) fun b hb => ?_
    · obtain ⟨h1, h2, h3⟩ := hne hb
      rw [e.tags b (sh.list_mem hb)]
      simp [TagTable.unlink, h1, h3]
    · obtain ⟨h1, h2, h3⟩ := hne hb
      rw [e.tags b (sh.list_mem hb)]
      simp [TagTable.unlink, h1, h2]

theorem remove_members (sh : HeapShape h A L) (ha : A a = some p) (hl : p.list = some i) {j : Nat} :
    b ∈ Function.update L i ((L i).erase a) j ↔
      ∃ q, A.relist a none b = some q ∧ q.list = some j := by
  rw [sh.members_remove, sh.members]
  constructor
  · rintro ⟨⟨q, hq, hqj⟩, hne⟩
    refine ⟨_, Arena.relist_of hq, ?_⟩
    have hba : b ≠ a := by
      rintro rfl
      rw [hq] at ha
      cases ha
      rw [hl] at hqj
      exact hne ⟨(Option.some.inj hqj).symm, rfl⟩
    simpa [hba] using hqj
  · rintro ⟨q, hq, hqj⟩
    obtain ⟨q₀, hq₀, rfl⟩ := Arena.relist_cases hq
    by_cases hba : b = a
    · simp [hba] at hqj
    · simp only [if_neg hba] at hqj
      exact ⟨⟨q₀, hq₀, hqj⟩, fun hc => hba hc.2⟩

/-- **`remove_tag`** takes a free piece off its list. -/
theorem remove (sh : HeapShape h A L) (ha : A a = some p) (hl : p.list = some i) :
    HeapShape (removeTag h a) (A.relist a none) (Function.update L i ((L i).erase a)) where
  tiled := sh.tiled.relist a none
  window := sh.relist_window
  tags := sh.remove_tags ha hl
  heads := sh.remove_heads ha hl
  linked := sh.remove_linked ha hl
  nodup j := by
    by_cases hji : j = i
    · subst hji
      rw [Function.update_self]
      exact (sh.nodup j).erase a
    · rw [Function.update_of_ne hji]
      exact sh.nodup j
  members := sh.remove_members ha hl
  small hb hj := by
    obtain ⟨q₀, hq₀, rfl⟩ := Arena.relist_cases hb
    dsimp only at hj
    split at hj
    · cases hj
    · exact sh.small hq₀ hj

/-! ### Onto a list -/

theorem insert_edit (sh : HeapShape h A L) (ha : A a = some p) (hi : i < MAXEXP) :
    Edit (tagsOf A) h (insertTagAt h a (i : Int)) (TagTable.link h.get a i ((L i).headD 0)) := by
  have hmax : MAXEXP < 2 ^ 31 := by decide
  rw [← sh.heads i]
  exact insertTagAt_edit sh.tagSet ⟨p, ha⟩ (by omega) (sh.head_pointsInto i)

/-- The old front is a tag on list `i`, or NULL. -/
theorem ne_front (h0 : b ≠ 0) (hb : b ∉ L i) : b ≠ (L i).headD 0 := by
  rintro rfl
  cases hL : L i with
  | nil =>
      rw [hL] at h0
      exact h0 rfl
  | cons c l =>
      rw [hL] at hb
      exact hb List.mem_cons_self

theorem insert_tags (sh : HeapShape h A L) (ha : A a = some p) (hi : i < MAXEXP)
    (hb : A.relist a (some i) b = some q) : TagOk (insertTagAt h a (i : Int)) b q := by
  have e := sh.insert_edit ha hi
  obtain ⟨q₀, hq, rfl⟩ := Arena.relist_cases hb
  have hin : b ∈ tagsOf A := ⟨q₀, hq⟩
  have htag := sh.tags hq
  have hfield : ∀ f, f ≠ .index → f ≠ .next → f ≠ .prev →
      (insertTagAt h a (i : Int)).get b f = h.get b f := by
    intro f h1 h2 h3
    rw [e.tags b hin]
    unfold TagTable.link
    split <;> simp [h1, h2, h3]
  constructor
  case magic => exact (hfield _ (by decide) (by decide) (by decide)).trans htag.magic
  case realSize => exact (hfield _ (by decide) (by decide) (by decide)).trans htag.realSize
  case index =>
    rw [e.tags b hin]
    by_cases hba : b = a
    · unfold TagTable.link
      split <;> simp [hba, indexOf]
    · unfold TagTable.link
      split <;> simp [hba, htag.index]
  case splitLeft => exact (hfield _ (by decide) (by decide) (by decide)).trans htag.splitLeft
  case splitRight => exact (hfield _ (by decide) (by decide) (by decide)).trans htag.splitRight
  case unlinked =>
    intro hused
    by_cases hba : b = a
    · rw [if_pos hba] at hused
      cases hused
    · rw [if_neg hba] at hused
      have hbf := ne_front (sh.tiled.room hq).1 (sh.notMem_of_used hq hused i)
      rw [e.tags b hin, e.tags b hin]
      unfold TagTable.link
      split <;> simp [-List.headD_eq_head?_getD, hba, hbf, htag.unlinked hused]

theorem insert_linked (sh : HeapShape h A L) (ha : A a = some p) (hl : p.list = none)
    (hi : i < MAXEXP) (j : Nat) :
    Linked (fun b => (insertTagAt h a (i : Int)).get b .next)
      (fun b => (insertTagAt h a (i : Int)).get b .prev) 0 (Function.update L i (a :: L i) j) := by
  have e := sh.insert_edit ha hi
  have hnot := sh.notMem_of_used ha hl
  have hold := (sh.tags ha).unlinked hl
  have ha0 := (sh.tiled.room ha).1
  have hin : a ∈ tagsOf A := ⟨p, ha⟩
  by_cases hji : j = i
  · subst hji
    rw [Function.update_self]
    refine (sh.linked j).push (sh.nodup j) ha0 ?_ ?_ (fun b hb => ?_) fun b hb => ?_
    · rw [e.tags a hin]
      unfold TagTable.link
      split
      · simp
      · next h0 => simp [-List.headD_eq_head?_getD, hold.1, not_not.mp h0]
    · rw [e.tags a hin]
      unfold TagTable.link
      split <;> simp [-List.headD_eq_head?_getD, ne_front ha0 (hnot j), hold.2]
    · have hba : b ≠ a := fun he => hnot j (he ▸ hb)
      rw [e.tags b (sh.list_mem hb)]
      unfold TagTable.link
      split <;> simp [hba]
    · have hb0 := (sh.linked j).ne_zero hb
      rw [e.tags b (sh.list_mem hb)]
      unfold TagTable.link
      split
      · simp
      · next h0 =>
          have hbf : b ≠ (L j).headD 0 := by
            rwa [not_not.mp h0]
          rw [if_neg hbf]
          simp
  · rw [Function.update_of_ne hji]
    have hne : ∀ {b}, b ∈ L j → b ≠ a ∧ b ≠ (L i).headD 0 := by
      intro b hb
      refine ⟨fun he => hnot j (he ▸ hb), ne_front ((sh.linked j).ne_zero hb) ?_⟩
      exact fun hbi => hji (sh.list_eq hb hbi)
    refine (sh.linked j).congr (fun b hb => ?_) fun b hb => ?_
    · rw [e.tags b (sh.list_mem hb)]
      unfold TagTable.link
      split <;> simp [-List.headD_eq_head?_getD, hne hb]
    · rw [e.tags b (sh.list_mem hb)]
      unfold TagTable.link
      split <;> simp [-List.headD_eq_head?_getD, hne hb]

theorem insert_members (sh : HeapShape h A L) (ha : A a = some p) (hl : p.list = none) {j : Nat} :
    b ∈ Function.update L i (a :: L i) j ↔
      ∃ q, A.relist a (some i) b = some q ∧ q.list = some j := by
  by_cases hba : b = a
  · subst hba
    rw [Arena.relist_same _ ha]
    by_cases hji : j = i
    · simp [hji]
    · simp [Function.update_of_ne hji, sh.notMem_of_used ha hl j, Ne.symm hji]
  · rw [Arena.relist_ne _ hba, ← sh.members]
    by_cases hji : j = i
    · subst hji
      simp [hba]
    · rw [Function.update_of_ne hji]

/-- **`insert_tag`** puts a piece in use onto a list. -/
theorem insert (sh : HeapShape h A L) (ha : A a = some p) (hl : p.list = none)
    (hi : i < MAXEXP) :
    HeapShape (insertTagAt h a (i : Int)) (A.relist a (some i))
      (Function.update L i (a :: L i)) where
  tiled := sh.tiled.relist a _
  window := sh.relist_window
  tags := sh.insert_tags ha hi
  heads j := by
    rw [insertTagAt_freePages]
    by_cases hji : j = i
    · subst hji
      rw [Function.update_self, Function.update_self, List.headD_cons]
    · rw [Function.update_of_ne hji, Function.update_of_ne hji]
      exact sh.heads j
  linked := sh.insert_linked ha hl hi
  nodup j := by
    by_cases hji : j = i
    · subst hji
      rw [Function.update_self]
      exact List.nodup_cons.mpr ⟨sh.notMem_of_used ha hl j, sh.nodup j⟩
    · rw [Function.update_of_ne hji]
      exact sh.nodup j
  members := sh.insert_members ha hl
  small hb hj := by
    obtain ⟨q₀, hq₀, rfl⟩ := Arena.relist_cases hb
    dsimp only at hj
    split at hj
    · rwa [← Option.some.inj hj]
    · exact sh.small hq₀ hj

/-! ### Cutting -/

/-- The parts of a piece that is cut lie in the run of the piece. -/
theorem cut_window (sh : HeapShape h A L) (ha : A a = some p) {n : Nat}
    (hb : A.split a n p b = some q) :
    MMAP_IO_BASE ≤ q.base ∧ q.base + q.len < 2 ^ 64 ∧ q.len < 2 ^ 32 := by
  rcases Arena.split_cases hb with ⟨rfl, rfl⟩ | ⟨rfl, rfl⟩ | ⟨-, -, q₀, hq, rfl⟩
  · exact (sh.window ha :)
  · exact (sh.window ha :)
  · exact (sh.window hq :)

theorem cut_edit (sh : HeapShape h A L) (ha : A a = some p) {n : Nat}
    (hsize : h.get a .size = n) (hfit : TAG_SIZE + n + TAG_SIZE ≤ p.size) :
    Edit (tagsOf (A.split a (TAG_SIZE + n) p)) h
      ((cutTag h a).set (a + TAG_SIZE + n) .index (2 ^ 32 - 1))
      ((TagTable.cut h.get a (a + TAG_SIZE + n) p.size).upd (a + TAG_SIZE + n) .index
        (2 ^ 32 - 1)) := by
  have hpos := tag_size_pos
  have hin := sh.inWindow ha
  have htag := sh.tags ha
  have hS := tagSet_of_tiled (sh.tiled.split hpos ha (n := TAG_SIZE + n) (by omega) hfit)
    (sh.cut_window ha)
  have hcut : a + (TAG_SIZE + n) = a + TAG_SIZE + n := by omega
  have hc : a + TAG_SIZE + n ∈ tagsOf (A.split a (TAG_SIZE + n) p) :=
    ⟨_, hcut ▸ Arena.split_new A a (TAG_SIZE + n) p⟩
  refine (cutTag_edit hS (tagsOf_split (by omega) ha) hc hsize htag.realSize (by omega) ?_).set
    hS (f := .index) hc (v := 2 ^ 32 - 1) (by decide)
  rw [htag.splitRight]
  intro hne
  obtain ⟨q, hq⟩ := sh.right_pointsInto ha hne
  exact tagsOf_split (by omega) hq

/-- The tag a piece is cut at is new. -/
theorem ne_cut (sh : HeapShape h A L) (ha : A a = some p) {n : Nat}
    (hfit : TAG_SIZE + n + TAG_SIZE ≤ p.size) (hb : A b = some q) : b ≠ a + TAG_SIZE + n := by
  have hpos := tag_size_pos
  rw [Nat.add_assoc]
  exact sh.tiled.ne_cut hpos ha (by omega) (by omega) hb

theorem cut_tags (sh : HeapShape h A L) (ha : A a = some p) {n : Nat}
    (hsize : h.get a .size = n) (hfit : TAG_SIZE + n + TAG_SIZE ≤ p.size)
    (hb : A.split a (TAG_SIZE + n) p b = some q) :
    TagOk ((cutTag h a).set (a + TAG_SIZE + n) .index (2 ^ 32 - 1)) b q := by
  have e := sh.cut_edit ha hsize hfit
  have hpos := tag_size_pos
  have htag := sh.tags ha
  have hra := sh.tiled.right_ne_self hpos ha
  have hcut : a + (TAG_SIZE + n) = a + TAG_SIZE + n := by omega
  rcases Arena.split_cases hb with ⟨rfl, rfl⟩ | ⟨rfl, rfl⟩ | ⟨hba, -, q₀, hq, rfl⟩
  · -- the new tag
    have hrc : p.right ≠ a + TAG_SIZE + n := by
      intro he
      obtain ⟨q, hq⟩ := sh.right_pointsInto ha (by omega)
      exact sh.ne_cut ha hfit hq he
    have hca : a + TAG_SIZE + n ≠ a := by omega
    rw [hcut] at hb ⊢
    constructor
    all_goals simp only [e.tags _ ⟨_, hb⟩, TagTable.cut, TagTable.upd_apply, htag.splitRight]
    case magic => simp [hca]
    case realSize =>
      simp [hca]
      omega
    case index => simp [indexOf]
    case splitLeft => simp [hrc.symm, hca]
    case splitRight => simp [hca]
    case unlinked => simp [hca]
  · -- the piece that is cut
    have hca : b ≠ b + TAG_SIZE + n := by omega
    constructor
    all_goals simp only [e.tags _ ⟨_, hb⟩, TagTable.cut, TagTable.upd_apply, htag.splitRight]
    case magic => simp [hca, htag.magic]
    case realSize =>
      simp
      omega
    case index => simp [hca, htag.index]
    case splitLeft => simp [hca, hra.symm, htag.splitLeft]
    case splitRight =>
      simp [hca]
      omega
    case unlinked =>
      intro hused
      simp [hca, htag.unlinked hused]
  · have hbc := sh.ne_cut ha hfit hq
    have hbtag := sh.tags hq
    constructor
    all_goals simp only [e.tags _ ⟨_, hb⟩, TagTable.cut, TagTable.upd_apply, htag.splitRight]
    case magic => simp [hbc, hba, hbtag.magic]
    case realSize => simp [hbc, hba, hbtag.realSize]
    case index => simp [hbc, hba, hbtag.index]
    case splitLeft => simp [hbc, hba, hcut, hbtag.splitLeft]
    case splitRight => simp [hbc, hba, hbtag.splitRight]
    case unlinked =>
      intro hused
      simp [hbc, hba, hbtag.unlinked hused]

/-- A piece in use that is cut leaves the lists as they are. -/
theorem cut_members (sh : HeapShape h A L) (ha : A a = some p) (hl : p.list = none) {n j : Nat}
    (hfit : TAG_SIZE + n + TAG_SIZE ≤ p.size) :
    b ∈ L j ↔ ∃ q, A.split a (TAG_SIZE + n) p b = some q ∧ q.list = some j := by
  rw [sh.members]
  constructor
  · rintro ⟨q, hq, hqj⟩
    have hba : b ≠ a := by
      rintro rfl
      rw [ha] at hq
      cases hq
      rw [hl] at hqj
      cases hqj
    have hbc : b ≠ a + (TAG_SIZE + n) := by
      rw [← Nat.add_assoc]
      exact sh.ne_cut ha hfit hq
    exact ⟨_, Arena.split_of hba hbc hq, hqj⟩
  · rintro ⟨q, hq, hqj⟩
    rcases Arena.split_cases hq with ⟨rfl, rfl⟩ | ⟨rfl, rfl⟩ | ⟨-, -, q₀, hq₀, rfl⟩
    · cases hqj
    · dsimp only at hqj
      rw [hl] at hqj
      cases hqj
    · exact ⟨q₀, hq₀, hqj⟩

/-- `split_tag` cuts a piece in use and leaves the new tag without an index. -/
theorem cut (sh : HeapShape h A L) (ha : A a = some p) (hl : p.list = none) {n : Nat}
    (hsize : h.get a .size = n) (hfit : TAG_SIZE + n + TAG_SIZE ≤ p.size) :
    HeapShape ((cutTag h a).set (a + TAG_SIZE + n) .index (2 ^ 32 - 1))
      (A.split a (TAG_SIZE + n) p) L where
  tiled := sh.tiled.split tag_size_pos ha (Nat.le_add_right _ _) hfit
  window := sh.cut_window ha
  tags := sh.cut_tags ha hsize hfit
  heads j := by
    rw [set_freePages, cutTag_freePages]
    exact sh.heads j
  linked j := by
    have e := sh.cut_edit ha hsize hfit
    have hpos := tag_size_pos
    refine (sh.linked j).congr (fun b hb => ?_) fun b hb => ?_
    · obtain ⟨q, hq, -⟩ := sh.members.mp hb
      rw [e.tags b (tagsOf_split (by omega) hq)]
      simp [TagTable.cut, sh.ne_cut ha hfit hq]
    · obtain ⟨q, hq, -⟩ := sh.members.mp hb
      rw [e.tags b (tagsOf_split (by omega) hq)]
      simp [TagTable.cut, sh.ne_cut ha hfit hq]
  nodup := sh.nodup
  members := sh.cut_members ha hl hfit
  small hb hj := by
    rcases Arena.split_cases hb with ⟨rfl, rfl⟩ | ⟨rfl, rfl⟩ | ⟨-, -, q₀, hq₀, rfl⟩
    · cases hj
    · exact (sh.small ha hj :)
    · exact (sh.small hq₀ hj :)

/-! ### Fusing -/

theorem fuse_edit (sh : HeapShape h A L) (hb : A b = some p) (ha : A p.right = some q) :
    Edit (tagsOf A) h (fuseTags h b p.right) (TagTable.fuse h.get b p.right (p.size + q.size)) := by
  have hpos := tag_size_pos
  obtain ⟨q', hq', -, hend, hbase, hlen⟩ := sh.tiled.right hb (sh.tiled.room ha).1
  rw [ha] at hq'
  cases hq'
  have hroom := sh.tiled.room hb
  have hinside := sh.tiled.inside ha
  have hinside' := sh.tiled.inside hb
  have hwin := sh.window ha
  have htag' := sh.tags ha
  exact fuseTags_edit sh.tagSet (s := p.size + q.size) ⟨p, hb⟩ ⟨q, ha⟩ (by omega)
    (by rw [(sh.tags hb).realSize, htag'.realSize]) (by omega)
    (by rw [htag'.splitRight]; exact sh.right_pointsInto ha)

theorem fuse_tags (sh : HeapShape h A L) (hb : A b = some p) (ha : A p.right = some q) {c : Nat}
    {r : Piece} (hc : A.join b p q c = some r) : TagOk (fuseTags h b p.right) c r := by
  have e := sh.fuse_edit hb ha
  have htag' := sh.tags ha
  rcases Arena.join_cases hc with ⟨rfl, rfl⟩ | ⟨hcb, -, r₀, hr, rfl⟩
  · have htag := sh.tags hb
    have hrb : q.right ≠ c := by
      have hpos := tag_size_pos
      have hroom := sh.tiled.room hb
      obtain ⟨-, -, -, hend, -⟩ := sh.tiled.right hb (sh.tiled.room ha).1
      by_cases h0 : q.right = 0
      · rw [h0]
        exact hroom.1.symm
      · obtain ⟨-, -, -, hend', -⟩ := sh.tiled.right ha h0
        omega
    constructor
    all_goals simp only [e.tags c ⟨p, hb⟩, TagTable.fuse, TagTable.upd_apply, htag'.splitRight]
    case magic => simp [htag.magic]
    case realSize => simp
    case index => simp [htag.index]
    case splitLeft => simp [hrb.symm, htag.splitLeft]
    case splitRight => simp
    case unlinked =>
      intro hused
      simp [htag.unlinked hused]
  · have hctag := sh.tags hr
    constructor
    all_goals simp only [e.tags c ⟨r₀, hr⟩, TagTable.fuse, TagTable.upd_apply, htag'.splitRight]
    case magic => simp [hctag.magic]
    case realSize => simp [hcb, hctag.realSize]
    case index => simp [hctag.index]
    case splitLeft => simp [hctag.splitLeft]
    case splitRight => simp [hcb, hctag.splitRight]
    case unlinked =>
      intro hused
      simp [hctag.unlinked hused]

theorem fuse_members (sh : HeapShape h A L) (hb : A b = some p) (ha : A p.right = some q)
    (hl : q.list = none) {c j : Nat} :
    c ∈ L j ↔ ∃ r, A.join b p q c = some r ∧ r.list = some j := by
  rw [sh.members]
  constructor
  · rintro ⟨r, hr, hrj⟩
    by_cases hcb : c = b
    · subst hcb
      rw [hb] at hr
      cases hr
      exact ⟨_, Arena.join_self A c p q, hrj⟩
    · have hca : c ≠ p.right := by
        rintro rfl
        rw [ha] at hr
        cases hr
        rw [hl] at hrj
        cases hrj
      exact ⟨_, Arena.join_of hcb hca hr, hrj⟩
  · rintro ⟨r, hr, hrj⟩
    rcases Arena.join_cases hr with ⟨rfl, rfl⟩ | ⟨-, -, r₀, hr₀, rfl⟩
    · exact ⟨p, hb, hrj⟩
    · exact ⟨r₀, hr₀, hrj⟩

/-- A piece swallows its right neighbour, which is on no list. -/
theorem fuse (sh : HeapShape h A L) (hb : A b = some p) (ha : A p.right = some q)
    (hl : q.list = none) : HeapShape (fuseTags h b p.right) (A.join b p q) L where
  tiled := sh.tiled.join tag_size_pos hb ha
  window hc := by
    rcases Arena.join_cases hc with ⟨rfl, rfl⟩ | ⟨-, -, r₀, hr, rfl⟩
    · exact (sh.window hb :)
    · exact (sh.window hr :)
  tags := sh.fuse_tags hb ha
  heads j := by
    rw [fuseTags_freePages]
    exact sh.heads j
  linked j := by
    have e := sh.fuse_edit hb ha
    refine (sh.linked j).congr (fun c hc => ?_) fun c hc => ?_
    · rw [e.tags c (sh.list_mem hc)]
      simp [TagTable.fuse]
    · rw [e.tags c (sh.list_mem hc)]
      simp [TagTable.fuse]
  nodup := sh.nodup
  members := sh.fuse_members hb ha hl
  small hc hj := by
    rcases Arena.join_cases hc with ⟨rfl, rfl⟩ | ⟨-, -, r₀, hr, rfl⟩
    · exact (sh.small hb hj :)
    · exact (sh.small hr hj :)

/-! ### Frames -/

/-- A change that leaves the tags and the lists alone. -/
theorem congr (sh : HeapShape h A L) (hget : ∀ {a p}, A a = some p → ∀ f, f ≠ .size →
      h'.get a f = h.get a f)
    (hfree : h'.freePages = h.freePages) : HeapShape h' A L where
  tiled := sh.tiled
  window := sh.window
  tags ha := by
    have htag := sh.tags ha
    have hg := hget ha
    exact ⟨(hg _ (by decide)).trans htag.magic, (hg _ (by decide)).trans htag.realSize,
      (hg _ (by decide)).trans htag.index, (hg _ (by decide)).trans htag.splitLeft,
      (hg _ (by decide)).trans htag.splitRight, fun hused =>
      ⟨(hg _ (by decide)).trans (htag.unlinked hused).1,
        (hg _ (by decide)).trans (htag.unlinked hused).2⟩⟩
  heads i := by
    rw [hfree]
    exact sh.heads i
  linked i := by
    refine (sh.linked i).congr (fun b hb => ?_) fun b hb => ?_
    · obtain ⟨q, hq, -⟩ := sh.members.mp hb
      exact hget hq _ (by decide)
    · obtain ⟨q, hq, -⟩ := sh.members.mp hb
      exact hget hq _ (by decide)
  nodup := sh.nodup
  members := sh.members
  small := sh.small

/-- The size that was asked for does not matter to the heap. -/
theorem setSize (sh : HeapShape h A L) (ha : A a = some p) (v : Nat) :
    HeapShape (h.set a .size v) A L := by
  refine sh.congr (fun {b q} hb f hf => ?_) (set_freePages _ _ _ _)
  rw [get_set sh.tagSet ⟨p, ha⟩ ⟨q, hb⟩, if_neg fun hc => hf hc.2]

end HeapShape

end BestOS
