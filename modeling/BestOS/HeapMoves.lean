/-
BestOS/HeapMoves.lean

The parts of `malloc` and `free` keep the invariant of the heap, and every block but
the one they are about: `Move E h h' A A'` says that outside `E` the blocks in use are
the same, with the same sizes and contents.

`malloc` is `takeTag` or a new run, and then `useTag`; `free` is `meltLeft` with
`removeTag`, `absorbRight`, and then `returnTag`.
-/
import BestOS.HeapCore
import BestOS.ByteLayout

namespace BestOS

open ByteMemory BlockHeap BoundaryTags LinkedList

variable {h h' h'' : LibAlloc} {s : Machine} {owned : Nat → Prop} {A A' A'' : Arena}
  {L L' : Nat → List Nat} {a b i n : Nat} {p q : Piece} {t : TagTable} {E : Nat → Prop}

/-- A piece of `n` bytes at `b` is in use. -/
def Used (A : Arena) (b n : Nat) : Prop := ∃ p, A b = some p ∧ p.list = none ∧ p.size = n

structure Move (E : Nat → Prop) (h h' : LibAlloc) (A A' : Arena) : Prop where
  used : ∀ {b n}, ¬ E b → (Used A' b n ↔ Used A b n)
  sizes : ∀ {b n}, ¬ E b → Used A b n → h'.get b .size = h.get b .size
  payload : ∀ {b n x}, ¬ E b → Used A b n → b + TAG_SIZE ≤ x + MMAP_IO_BASE →
    x + MMAP_IO_BASE < b + n → h'.machine.mem x = h.machine.mem x
  initialized : h'.initialized = h.initialized

namespace Move

theorem refl (E : Nat → Prop) (h : LibAlloc) (A : Arena) : Move E h h A A :=
  ⟨fun _ => Iff.rfl, fun _ _ => rfl, fun _ _ _ _ => rfl, rfl⟩

theorem trans (m : Move E h h' A A') (m' : Move E h' h'' A' A'') : Move E h h'' A A'' where
  used hb := (m'.used hb).trans (m.used hb)
  sizes hb hu := (m'.sizes hb ((m.used hb).mpr hu)).trans (m.sizes hb hu)
  payload hb hu h1 h2 :=
    (m'.payload hb ((m.used hb).mpr hu) h1 h2).trans (m.payload hb hu h1 h2)
  initialized := m'.initialized.trans m.initialized

theorem mono (m : Move E h h' A A') {E' : Nat → Prop} (hE : ∀ b, E b → E' b) :
    Move E' h h' A A' where
  used hb := m.used fun he => hb (hE _ he)
  sizes hb := m.sizes fun he => hb (hE _ he)
  payload hb := m.payload fun he => hb (hE _ he)
  initialized := m.initialized

/-- Writing the tags `S`, those of the blocks in use but for their sizes. -/
theorem of_edit {S : Set Nat} (e : Edit S h h' t)
    (hused : ∀ {b n}, ¬ E b → (Used A' b n ↔ Used A b n))
    (hsize : ∀ {b n}, ¬ E b → Used A b n → b ∈ S ∧ t b .size = h.get b .size)
    (hout : ∀ {b n x}, ¬ E b → Used A b n → b + TAG_SIZE ≤ x + MMAP_IO_BASE →
      x + MMAP_IO_BASE < b + n → OutsideTags S x) : Move E h h' A A' where
  used := hused
  sizes hb hu := by
    obtain ⟨hin, hs⟩ := hsize hb hu
    exact (e.tags _ hin _).trans hs
  payload hb hu h1 h2 := e.kept _ (hout hb hu h1 h2)
  initialized := e.initialized

end Move

/-- The payload of a block in use is outside the tags. -/
theorem HeapShape.used_outside (sh : HeapShape h A L) (hu : Used A b n) {x : Nat}
    (h1 : b + TAG_SIZE ≤ x + MMAP_IO_BASE) (h2 : x + MMAP_IO_BASE < b + n) :
    OutsideTags (tagsOf A) x := by
  obtain ⟨q, hq, -, rfl⟩ := hu
  exact Payload.outside sh hq ⟨h1, h2⟩

theorem Used.mem_tags (hu : Used A b n) : b ∈ tagsOf A := by
  obtain ⟨q, hq, -⟩ := hu
  exact ⟨q, hq⟩

theorem used_relist (l : Option Nat) (hb : b ≠ a) : Used (A.relist a l) b n ↔ Used A b n := by
  unfold Used
  rw [Arena.relist_ne l hb]

@[simp] theorem wholeAt_relist (A : Arena) (a : Nat) (l : Option Nat) :
    wholeAt (A.relist a l) = wholeAt A := by
  funext b
  unfold wholeAt
  by_cases hba : b = a
  · subst hba
    cases hb : A b with
    | none => rw [Arena.relist, Arena.modify_same, hb]; rfl
    | some q =>
        rw [Arena.relist_same l hb]
        rfl
  · rw [Arena.relist_ne l hba]

theorem wholeAt_eq (ha : A a = some p) : wholeAt A a = decide (p.left = 0 ∧ p.right = 0) := by
  rw [wholeAt, ha]
  rfl

/-! ### A tag of a list -/

/-- `l_completePages[index] = v`. -/
def setComplete (h : LibAlloc) (index : Nat) (v : Int) : LibAlloc :=
  { h with completePages := Function.update h.completePages index v }

@[simp] theorem setComplete_get (h : LibAlloc) (index : Nat) (v : Int) :
    (setComplete h index v).get = h.get := rfl

@[simp] theorem setComplete_freePages (h : LibAlloc) (index : Nat) (v : Int) :
    (setComplete h index v).freePages = h.freePages := by
  cases h
  rfl

@[simp] theorem setComplete_completePages (h : LibAlloc) (index : Nat) (v : Int) :
    (setComplete h index v).completePages = Function.update h.completePages index v := by
  cases h
  rfl

theorem Edit.setComplete {S : Set Nat} (e : Edit S h h' t) (index : Nat) (v : Int) :
    Edit S h (setComplete h' index v) t := e.statics _ _

/-- A whole run leaves list `index`. -/
def uncount (h : LibAlloc) (tag index : Nat) : LibAlloc :=
  if h.get tag .splitLeft = 0 ∧ h.get tag .splitRight = 0 then
    setComplete h index (h.completePages index - 1)
  else h

@[simp] theorem uncount_get (h : LibAlloc) (tag index : Nat) : (uncount h tag index).get = h.get := by
  unfold uncount
  split <;> simp

@[simp] theorem uncount_freePages (h : LibAlloc) (tag index : Nat) :
    (uncount h tag index).freePages = h.freePages := by
  unfold uncount
  split <;> simp

theorem uncount_completePages {w : Bool}
    (hw : (h.get a .splitLeft = 0 ∧ h.get a .splitRight = 0) ↔ w = true) (j : Nat) :
    (uncount h a i).completePages j
      = h.completePages j - if j = i ∧ w = true then 1 else 0 := by
  unfold uncount
  rw [if_congr hw rfl rfl]
  cases w with
  | false => simp
  | true =>
      by_cases hji : j = i
      · simp [hji]
      · simp [hji]

theorem Edit.uncount {S : Set Nat} (e : Edit S h h' t) (tag index : Nat) :
    Edit S h (uncount h' tag index) t := by
  unfold BestOS.uncount
  split
  · exact e.setComplete _ _
  · exact e

/-- `malloc` takes the tag it has found on list `index`. -/
def takeTag (h : LibAlloc) (tag index : Nat) : LibAlloc := uncount (removeTag h tag) tag index

theorem malloc_eq (fuel : Nat) (h : LibAlloc) (size : Nat) :
    malloc fuel h size =
      match findTag (liballocInit h) size fuel ((liballocInit h).freePages (listIndex size)) with
      | none => none
      | some 0 =>
          let r := allocateNewTag (liballocInit h) size
          some (if r.1 = 0 then (0, r.2) else useTag r.2 size r.1)
      | some tag => some (useTag (takeTag (liballocInit h) tag (listIndex size)) size tag) := rfl

/-- The whole runs of a list that loses a member. -/
theorem countP_remove (L : Nat → List Nat) (f : Nat → Bool) (ha : a ∈ L i) (j : Nat) :
    ((Function.update L i ((L i).erase a) j).countP f : Int)
      = (L j).countP f - if j = i ∧ f a = true then 1 else 0 := by
  by_cases hji : j = i
  · subst hji
    have hpos : f a = true → 0 < (L j).countP f := fun hf => List.countP_pos_iff.mpr ⟨a, ha, hf⟩
    rw [Function.update_self, List.countP_erase]
    by_cases hf : f a = true
    · have := hpos hf
      simp only [ha, hf, and_self, if_true]
      omega
    · simp [hf]
  · rw [Function.update_of_ne hji]
    simp [hji]

/-- A tag knows whether it is a whole run. -/
theorem whole_iff (hg : ∀ f, f = .splitLeft ∨ f = .splitRight → h'.get a f = h.get a f)
    (sh : HeapShape h A L) (ha : A a = some p) :
    (h'.get a .splitLeft = 0 ∧ h'.get a .splitRight = 0) ↔ wholeAt A a = true := by
  have htag := sh.tags ha
  rw [hg _ (.inl rfl), hg _ (.inr rfl), htag.splitLeft, htag.splitRight, wholeAt_eq ha,
    decide_eq_true_eq]

/-- **A tag is taken off its list.** -/
theorem HeapCore.take (c : HeapCore h owned A L) (ha : A a = some p) (hl : p.list = some i) :
    HeapCore (takeTag h a i) owned (A.relist a none) (Function.update L i ((L i).erase a)) ∧
    Move (· = a) h (takeTag h a i) A (A.relist a none) ∧
    KeptWithin owned h.machine (takeTag h a i).machine := by
  have sh := c.shape
  have e := sh.remove_edit ha hl
  have e' : Edit (tagsOf A) h (takeTag h a i) _ := e.uncount a i
  have hin : a ∈ tagsOf A := ⟨p, ha⟩
  have hwhole : ((removeTag h a).get a .splitLeft = 0 ∧ (removeTag h a).get a .splitRight = 0)
      ↔ wholeAt A a = true :=
    whole_iff (fun f hf => by
      rw [e.tags a hin]
      rcases hf with rfl | rfl <;> simp [TagTable.unlink]) sh ha
  have hmem := sh.mem_list ha hl
  have hshape : HeapShape (takeTag h a i) (A.relist a none)
      (Function.update L i ((L i).erase a)) := by
    refine (sh.remove ha hl).congr (fun _ f _ => ?_) (uncount_freePages _ a i)
    rw [takeTag, uncount_get]
  have hframes := c.frames.edit hshape (sameRuns_relist A a none) (tagsOf_relist A a none ▸ e')
  refine ⟨⟨hshape, ⟨?_, ?_, fun j => ?_, fun j => ?_⟩, hframes.1⟩, ?_, hframes.2⟩
  · exact c.books.coalesced.relist sh.tiled tag_size_pos (fun hne => absurd rfl hne)
      fun hne => absurd rfl hne
  · intro b q j hb hj
    obtain ⟨q₀, hq₀, rfl⟩ := Arena.relist_cases hb
    by_cases hba : b = a
    · simp [hba] at hj
    · simp only [if_neg hba] at hj
      exact (c.books.placed hq₀ hj :)
  · rw [takeTag, uncount_completePages hwhole, removeTag_completePages, c.books.counted,
      countP_remove L _ hmem]
    simp
  · have hfew := c.books.few j
    rw [takeTag, uncount_completePages hwhole, removeTag_completePages]
    split <;> omega
  · refine Move.of_edit e' (fun hb => used_relist none hb) (fun hb hu => ⟨hu.mem_tags, ?_⟩)
      fun _ hu h1 h2 => sh.used_outside hu h1 h2
    simp [TagTable.unlink]

/-! ### The end of `malloc` -/

theorem TagTable.link_size (t : TagTable) (a i first b : Nat) :
    t.link a i first b .size = t b .size := by
  unfold TagTable.link
  split <;> simp

/-- The second of two stores to a field counts. -/
theorem set_set (h : LibAlloc) (a : Nat) (f : TagField) (v w : Nat) :
    (h.set a f v).set a f w = h.set a f w := by
  have hmem : ∀ (m : Mem) (x n : Nat), writeLE (writeLE m x n v) x n w = writeLE m x n w := by
    intro m x n
    funext y
    by_cases hy : x ≤ y ∧ y < x + n
    · exact writeLE_reaches _ _ w hy.1 hy.2
    · rw [writeLE_agree _ _ _ _ (by omega), writeLE_agree _ _ _ _ (by omega),
        writeLE_agree _ _ _ _ (by omega)]
  simp only [LibAlloc.set, hmem]

/-- `insert_tag` does not care what the index was. -/
theorem insertTagAt_setIndex (h : LibAlloc) (a i v : Nat) :
    insertTagAt (h.set a .index v) a (i : Int) = insertTagAt h a (i : Int) := by
  have hnn : ¬ (i : Int) < 0 := by omega
  unfold insertTagAt
  simp only [if_neg hnn, set_set, set_freePages]

/-- `insert_tag(tag, -1)` looks for the list of the tag's size. -/
theorem insertTag_at (h : LibAlloc) (a : Nat)
    (hi : i = listIndex ((h.get a .realSize + 2 ^ 64 - TAG_SIZE) % 2 ^ 64)) :
    insertTag h a = insertTagAt h a (i : Int) := by
  have hnn : ¬ (i : Int) < 0 := by omega
  rw [insertTag_eq]
  unfold insertTagAt
  rw [if_pos (by decide), if_neg hnn, Int.toNat_natCast, ← hi]

theorem HeapCore.setSize (c : HeapCore h owned A L) (ha : A a = some p) {size : Nat}
    (hlt : size < 2 ^ 32) :
    HeapCore (h.set a .size size) owned A L ∧ Move (· = a) h (h.set a .size size) A A ∧
    KeptWithin owned h.machine (h.set a .size size).machine := by
  have hin : a ∈ tagsOf A := ⟨p, ha⟩
  have e : Edit (tagsOf A) h (h.set a .size size) _ :=
    (Edit.refl (tagsOf A) h).set c.shape.tagSet (f := .size) hin hlt
  have hframes := c.frames.edit (c.shape.setSize ha size) (SameRuns.refl A) e
  refine ⟨⟨c.shape.setSize ha size, ⟨c.books.coalesced, c.books.placed, ?_, ?_⟩, hframes.1⟩, ?_,
    hframes.2⟩
  · rw [set_completePages]
    exact c.books.counted
  · rw [set_completePages]
    exact c.books.few
  · refine Move.of_edit e (fun _ => Iff.rfl) (fun hb hu => ⟨hu.mem_tags, ?_⟩)
      fun _ hu h1 h2 => c.shape.used_outside hu h1 h2
    simp [show _ ≠ a from hb]

/-- Cutting a piece in use makes no other piece whole, and none less so. -/
theorem wholeAt_split (ok : A.Tiled TAG_SIZE) (ha : A a = some p) {c : Nat} (hc : A (a + c) = none)
    (hb : b ∈ tagsOf A) (hba : b ≠ a) : wholeAt (A.split a c p) b = wholeAt A b := by
  obtain ⟨q, hq⟩ := hb
  have hbc : b ≠ a + c := by
    rintro rfl
    rw [hc] at hq
    cases hq
  rw [wholeAt_eq hq, wholeAt_eq (Arena.split_of hba hbc hq)]
  by_cases hbr : b = p.right
  · -- the right neighbour has a left neighbour before and after
    subst hbr
    obtain ⟨q', hq', hleft, -⟩ := ok.right ha (ok.room hq).1
    rw [hq] at hq'
    cases hq'
    have ha0 := (ok.room ha).1
    simp [hleft, ha0]
  · simp [hbr]

/-- The rest of a piece goes onto the list of its size. -/
theorem HeapCore.splitOff (c : HeapCore h owned A L) (ha : A a = some p) (hl : p.list = none)
    (hright : ∀ q, A p.right = some q → q.list = none) {size : Nat}
    (hsize : h.get a .size = size) (hfit : TAG_SIZE + size + TAG_SIZE ≤ p.size) :
    ∃ A' L', HeapCore (splitTag h a) owned A' L' ∧ Move (· = a) h (splitTag h a) A A' ∧
      KeptWithin owned h.machine (splitTag h a).machine ∧ Used A' a (TAG_SIZE + size) ∧
      (splitTag h a).get a .size = size := by
  have sh := c.shape
  have hpos := tag_size_pos
  have hin := sh.inWindow ha
  have hra := sh.tiled.right_ne_self hpos ha
  have hpoint : cutPoint h a = a + TAG_SIZE + size := by
    rw [cutPoint, hsize, Nat.mod_eq_of_lt (by omega)]
  have hcut : a + (TAG_SIZE + size) = a + TAG_SIZE + size := by omega
  have hnew : A (a + (TAG_SIZE + size)) = none :=
    sh.tiled.none_inside hpos ha (by omega) (by omega)
  have hne_new : ∀ {b q}, A b = some q → b ≠ a + (TAG_SIZE + size) := by
    rintro b q hb rfl
    rw [hnew] at hb
    cases hb
  have sh₁ := sh.cut ha hl hsize hfit
  have e₁ := sh.cut_edit ha hsize hfit
  rw [← hcut] at sh₁ e₁
  have hc₁ := Arena.split_new A a (TAG_SIZE + size) p
  have ha₁ := Arena.split_self A a (n := TAG_SIZE + size) (by omega) p
  have hcin : a + (TAG_SIZE + size) ∈ tagsOf (A.split a (TAG_SIZE + size) p) := ⟨_, hc₁⟩
  generalize hj : listIndex (p.size - (TAG_SIZE + size) - TAG_SIZE) = j
  have hjlt : j < MAXEXP := hj ▸ listIndex_lt _
  -- `split_tag` is the cut and the insertion of the new tag
  have hreal : (cutTag h a).get (a + (TAG_SIZE + size)) .realSize = p.size - (TAG_SIZE + size) := by
    have hr := (sh₁.tags hc₁).realSize
    rwa [get_set sh₁.tagSet hcin hcin, if_neg fun hc => by cases hc.2] at hr
  have hsplit : splitTag h a
      = insertTagAt ((cutTag h a).set (a + (TAG_SIZE + size)) .index (2 ^ 32 - 1))
          (a + (TAG_SIZE + size)) (j : Int) := by
    rw [splitTag_eq, hpoint, ← hcut, insertTagAt_setIndex]
    refine insertTag_at _ _ ?_
    have harg : (p.size - (TAG_SIZE + size) + 2 ^ 64 - TAG_SIZE) % 2 ^ 64
        = p.size - (TAG_SIZE + size) - TAG_SIZE := by omega
    rw [hreal, harg, hj]
  have e₂ := e₁.trans (sh₁.insert_edit hc₁ hjlt)
  have sh₂ := sh₁.insert hc₁ rfl hjlt
  rw [← hsplit] at e₂ sh₂
  have hkeep : ∀ {b}, b ≠ a → b ∈ tagsOf A → b ∈ tagsOf (A.split a (TAG_SIZE + size) p) := by
    rintro b hba ⟨q, hq⟩
    exact ⟨_, Arena.split_of hba (hne_new hq) hq⟩
  have hsizes : ∀ {b}, b ∈ tagsOf (A.split a (TAG_SIZE + size) p) →
      (splitTag h a).get b .size = h.get b .size := by
    intro b hb
    rw [e₂.tags b hb, TagTable.link_size, e₁.tags b hb]
    simp [TagTable.cut]
  have hframes := c.frames.edit sh₂
    ((sameRuns_split ha (by omega) hnew).trans (sameRuns_relist _ _ _)) (tagsOf_relist _ _ _ ▸ e₂)
  refine ⟨_, _, ⟨sh₂, ⟨?_, ?_, fun k => ?_, fun k => ?_⟩, hframes.1⟩, ?_, hframes.2, ?_, ?_⟩
  · refine (c.books.coalesced.split ha).relist sh₁.tiled hpos (fun _ b q hb hr => ?_)
      fun _ r q hr hq => ?_
    · obtain ⟨r, hr', hrl, -⟩ := sh₁.tiled.right hb (by rw [hr]; omega)
      rw [hr, hc₁] at hr'
      cases hr'
      dsimp only at hrl
      rw [← hrl, ha₁] at hb
      cases hb
      exact hl
    · rw [hc₁] at hr
      cases hr
      rcases Arena.split_cases hq with ⟨he, -⟩ | ⟨he, -⟩ | ⟨-, -, q₀, hq₀, rfl⟩
      · dsimp only at he
        rw [he, hc₁] at hq
        cases hq
        rfl
      · exact absurd he hra
      · exact hright q₀ hq₀
  · intro b q k hb hk
    obtain ⟨q₁, hq₁, rfl⟩ := Arena.relist_cases hb
    by_cases hbc : b = a + (TAG_SIZE + size)
    · subst hbc
      rw [hc₁] at hq₁
      cases hq₁
      rw [if_pos rfl, Option.some.injEq] at hk
      rw [← hk, ← hj]
    · simp only [if_neg hbc] at hk
      rcases Arena.split_cases hq₁ with ⟨he, -⟩ | ⟨-, rfl⟩ | ⟨-, -, q₀, hq₀, rfl⟩
      · exact absurd he hbc
      · dsimp only at hk
        rw [hl] at hk
        cases hk
      · exact (c.books.placed hq₀ hk :)
  · have hsame : (L k).countP (wholeAt (A.split a (TAG_SIZE + size) p))
        = (L k).countP (wholeAt A) := by
      refine List.countP_congr fun b hb => ?_
      have hba : b ≠ a := fun he => sh.notMem_of_used ha hl k (he ▸ hb)
      rw [wholeAt_split sh.tiled ha hnew (sh.list_mem hb) hba]
    rw [hsplit, insertTagAt_completePages, set_completePages, cutTag_completePages,
      c.books.counted, wholeAt_relist]
    by_cases hkj : k = j
    · subst hkj
      have hnot : wholeAt (A.split a (TAG_SIZE + size) p) (a + (TAG_SIZE + size)) = false := by
        rw [wholeAt_eq hc₁]
        simp [(sh.tiled.room ha).1]
      rw [Function.update_self, List.countP_cons_of_neg (by simp [hnot]), hsame]
    · rw [Function.update_of_ne hkj, hsame]
  · rw [hsplit, insertTagAt_completePages, set_completePages, cutTag_completePages]
    exact c.books.few k
  · refine Move.of_edit e₂ (fun {b n} hba => ?_) (fun hba hu => ?_) fun {b n x} hba hu h1 h2 => ?_
    · constructor
      · rintro ⟨q, hq, hlist, hn⟩
        obtain ⟨q₁, hq₁, rfl⟩ := Arena.relist_cases hq
        rcases Arena.split_cases hq₁ with ⟨he, -⟩ | ⟨he, -⟩ | ⟨-, -, q₀, hq₀, rfl⟩
        · simp [he] at hlist
        · exact absurd he hba
        · exact ⟨q₀, hq₀, by simpa [hne_new hq₀] using hlist, hn⟩
      · rintro ⟨q, hq, hlist, hn⟩
        refine ⟨_, Arena.relist_of (Arena.split_of hba (hne_new hq) hq), ?_, hn⟩
        simpa [hne_new hq] using hlist
    · refine ⟨hkeep hba hu.mem_tags, ?_⟩
      rw [← hsizes (hkeep hba hu.mem_tags), e₂.tags _ (hkeep hba hu.mem_tags)]
    · obtain ⟨q, hq, hlist, rfl⟩ := hu
      exact sh₁.used_outside ⟨_, Arena.split_of hba (hne_new hq) hq, hlist, rfl⟩ h1 h2
  · refine ⟨_, Arena.relist_of ha₁, ?_, rfl⟩
    simpa [hpos.ne'] using hl
  · rw [hsizes ⟨_, ha₁⟩, hsize]

/-- The excess that `malloc` computes is positive only if there is room for a tag. -/
theorem room_of_remainder {realSize size : Nat} (hfit : size + TAG_SIZE ≤ realSize)
    (hpos : toInt ((realSize + 2 ^ 64 - size % 2 ^ 64 + 2 ^ 64 - TAG_SIZE * 2) % 2 ^ 32) > 0) :
    TAG_SIZE + size + TAG_SIZE ≤ realSize := by
  by_contra hne
  have htag : TAG_SIZE = 48 := rfl
  -- a negative excess is a large one as an `unsigned int`, and negative as an `int`
  have hbig : 2 ^ 31 ≤ (realSize + 2 ^ 64 - size % 2 ^ 64 + 2 ^ 64 - TAG_SIZE * 2) % 2 ^ 32 := by
    omega
  have hneg := toInt_of_ge hbig (Nat.mod_lt _ (by decide))
  omega

/-- What `malloc` splits off the tag it uses. -/
def splitExcess (h : LibAlloc) (size tag : Nat) : LibAlloc :=
  let remainder := (h.get tag .realSize + 2 ^ 64 - size % 2 ^ 64 + 2 ^ 64 - TAG_SIZE * 2) % 2 ^ 32
  if toInt remainder > 0 ∧ getexp remainder ≥ 0 then splitTag h tag else h

theorem useTag_snd (h : LibAlloc) (size tag : Nat) :
    (useTag h size tag).2 = splitExcess (h.set tag .size size) size tag := by
  simp only [useTag, splitExcess]

/-- **The end of `malloc`** records the size and splits off what is worth a list. -/
theorem HeapCore.use (c : HeapCore h owned A L) (ha : A a = some p) (hl : p.list = none)
    (hright : ∀ q, A p.right = some q → q.list = none) {size : Nat}
    (hfit : size + TAG_SIZE ≤ p.size) :
    ∃ A' L' n, HeapCore (useTag h size a).2 owned A' L' ∧
      Move (· = a) h (useTag h size a).2 A A' ∧
      KeptWithin owned h.machine (useTag h size a).2.machine ∧ Used A' a n ∧
      size + TAG_SIZE ≤ n ∧ (useTag h size a).2.get a .size = size := by
  have hin := c.shape.inWindow ha
  have hlt : size < 2 ^ 32 := by omega
  obtain ⟨c₁, m₁, hmarks₁⟩ := c.setSize ha hlt
  have hmem : a ∈ tagsOf A := ⟨p, ha⟩
  have hsize : (h.set a .size size).get a .size = size := by
    rw [get_set c.shape.tagSet hmem hmem, if_pos ⟨rfl, rfl⟩]
    exact Nat.mod_eq_of_lt hlt
  have hreal := (c₁.shape.tags ha).realSize
  rw [useTag_snd]
  generalize h.set a .size size = h₁ at *
  unfold splitExcess
  rw [hreal]
  dsimp only
  split
  · next hcond =>
      obtain ⟨A', L', c₂, m₂, hmarks₂, hused, hsize₂⟩ := c₁.splitOff ha hl hright hsize
        (room_of_remainder hfit hcond.1)
      exact ⟨A', L', _, c₂, m₁.trans m₂, hmarks₁.trans hmarks₂, hused, by omega, hsize₂⟩
  · exact ⟨A, L, p.size, c₁, m₁, hmarks₁, ⟨p, ha, hl, rfl⟩, hfit, hsize⟩

end BestOS
