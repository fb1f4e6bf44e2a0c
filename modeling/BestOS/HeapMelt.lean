/-
BestOS/HeapMelt.lean

The parts of `free`.

A block that is given back melts with a free left neighbour (`HeapCore.meltLeft`) and
absorbs a free right one (`HeapCore.absorbRight`).  Free pieces are coalesced, so that
each loop of `free` goes round once at most (`meltLoop_returns`,
`absorbLoop_returns`).  `returnTag` puts what comes out onto its list, or gives the
pages of a whole run back (`HeapCore.returnTag`).
-/
import BestOS.HeapGrow
import BestOS.Fuel

namespace BestOS

open ByteMemory BlockHeap BoundaryTags LinkedList Fuel

variable {h h' h'' : LibAlloc} {s s' : Machine} {owned : Nat → Prop} {A A' A'' : Arena}
  {L L' : Nat → List Nat} {a b i j n f : Nat} {p q r : Piece} {t : TagTable}

/-! ### Joining and whole runs -/

/-- Joining two pieces makes no other piece whole, and none less so. -/
theorem wholeAt_join (ok : A.Tiled TAG_SIZE) (ha : A a = some p) (hb : A p.right = some q)
    {c : Nat} (hc : c ∈ tagsOf A) (hca : c ≠ a) (hcb : c ≠ p.right) :
    wholeAt (A.join a p q) c = wholeAt A c := by
  obtain ⟨r, hr⟩ := hc
  rw [wholeAt_eq hr, wholeAt_eq (Arena.join_of hca hcb hr)]
  by_cases hcr : c = q.right
  · -- the piece behind both has a left neighbour before and after
    subst hcr
    obtain ⟨r', hr', hleft, -⟩ := ok.right hb (ok.room hr).1
    rw [hr] at hr'
    cases hr'
    have ha0 := (ok.room ha).1
    have hb0 := (ok.room hb).1
    simp [hleft, ha0, hb0]
  · simp [hcr]

theorem used_join (ha : b ≠ a) (hr : b ≠ p.right) : Used (A.join a p q) b n ↔ Used A b n := by
  constructor
  · rintro ⟨r, hb, hlist, hn⟩
    rcases Arena.join_cases hb with ⟨he, -⟩ | ⟨-, -, r₀, hr₀, rfl⟩
    · exact absurd he ha
    · exact ⟨r₀, hr₀, hlist, hn⟩
  · rintro ⟨r, hb, hlist, hn⟩
    exact ⟨_, Arena.join_of ha hr hb, hlist, hn⟩

/-- A piece that is taken off list `i`, whatever its size has become. -/
theorem HeapBooks.joined (bk : HeapBooks h A L) (sh : HeapShape h A L)
    (ha : A a = some p) (hb : A p.right = some q) {c : Nat} (hca : c = a ∨ c = p.right)
    (hc : c ∈ L i) (hother : ∀ {d k}, d ∈ L k → d ≠ c → d ≠ a ∧ d ≠ p.right)
    {A' : Arena} (hA' : ∀ {d r}, A' d = some r → r.list ≠ none →
      ∃ r₀, A d = some r₀ ∧ r₀.size = r.size ∧ r₀.list = r.list)
    (hwhole : ∀ {d}, d ∈ tagsOf A → d ≠ a → d ≠ p.right → wholeAt A' d = wholeAt A d)
    (hcoal : A'.Coalesced) (hcomplete : h'.completePages = h.completePages) :
    HeapBooks h' A' (Function.update L i ((L i).erase c)) := by
  have hnot : wholeAt A c = false := by
    rcases hca with rfl | rfl
    · rw [wholeAt_eq ha]
      simp [(sh.tiled.room hb).1]
    · obtain ⟨q', hq', hleft, -⟩ := sh.tiled.right ha (sh.tiled.room hb).1
      rw [hb] at hq'
      cases hq'
      rw [wholeAt_eq hb]
      simp [hleft, (sh.tiled.room ha).1]
  refine ⟨hcoal, fun d r k hd hk => ?_, fun k => ?_, fun k => ?_⟩
  · obtain ⟨r₀, hr₀, hsize, hlist⟩ := hA' hd (by rw [hk]; exact Option.some_ne_none k)
    rw [← hsize]
    exact bk.placed hr₀ (hlist.trans hk)
  · have hcount := countP_remove L (wholeAt A) hc k
    rw [if_neg (by simp [hnot]), sub_zero] at hcount
    rw [hcomplete, bk.counted, ← hcount, Nat.cast_inj]
    refine List.countP_congr fun d hd => ?_
    have hd' := (sh.members_remove (b := d) (j := k) (i := i) (a := c)).mp hd
    have hdc : d ≠ c := by
      rintro rfl
      exact hd'.2 ⟨sh.list_eq hd'.1 hc, rfl⟩
    obtain ⟨h1, h2⟩ := hother hd'.1 hdc
    rw [hwhole (sh.list_mem hd'.1) h1 h2]
  · rw [hcomplete]
    exact bk.few k

/-! ### `melt_left` -/

/-- **`melt_left`** and `remove_tag`: the free left neighbour swallows the block. -/
theorem HeapCore.meltLeft (c : HeapCore h owned A L) (ha : A a = some p) (hl : p.list = none)
    (hq : A p.left = some q) (hfree : q.list = some i) :
    ∃ A' L' p', HeapCore (removeTag (fuseTags h p.left a) p.left) owned A' L' ∧
      Move (fun b => b = a ∨ b = p.left) h (removeTag (fuseTags h p.left a) p.left) A A' ∧
      KeptWithin owned h.machine (removeTag (fuseTags h p.left a) p.left).machine ∧
      A' p.left = some p' ∧ p'.list = none ∧ p'.left = q.left ∧ p'.right = p.right ∧ A' a = none := by
  have sh := c.shape
  obtain ⟨q', hq', hright, hend, -⟩ := sh.tiled.left ha (sh.tiled.room hq).1
  rw [hq] at hq'
  cases hq'
  have hroom := (sh.tiled.room hq).2
  have hpos := tag_size_pos
  have hne : a ≠ p.left := by omega
  have ha' : A q.right = some p := hright.symm ▸ ha
  have sh₁ := sh.fuse hq ha' hl
  have e₁ := sh.fuse_edit hq ha'
  rw [hright] at sh₁ e₁
  have hjoin := Arena.join_self A p.left q p
  have hmem := sh.mem_list hq hfree
  have sh₂ := sh₁.remove hjoin hfree
  have e₂ := sh₁.remove_edit hjoin hfree
  have fr₁ := c.frames.edit_old sh (sameRuns_join sh.tiled hq ha') e₁
  have fr₂ := fr₁.1.edit_old sh₁ (sameRuns_relist _ p.left none) e₂
  refine ⟨_, _, _, ⟨sh₂, c.books.joined sh hq ha' (.inl rfl) hmem ?_ ?_ ?_ c.books.coalesced.join
    ?_, fr₂.1⟩, ?_, KeptWithin.trans fr₁.2 fr₂.2, Arena.relist_same none hjoin, rfl, rfl, rfl, ?_⟩
  · intro d k hd hdc
    exact ⟨hdc, fun he => sh.notMem_of_used ha hl k (hright ▸ he ▸ hd)⟩
  · intro d r hd hr
    obtain ⟨r₁, hr₁, rfl⟩ := Arena.relist_cases hd
    rcases Arena.join_cases hr₁ with ⟨he, -⟩ | ⟨hdc, -, r₀, hr₀, rfl⟩
    · simp [he] at hr
    · exact ⟨r₀, hr₀, rfl, by simp [hdc]⟩
  · intro d hd h1 h2
    rw [wholeAt_relist, wholeAt_join sh.tiled hq ha' hd h1 h2]
  · rw [removeTag_completePages, fuseTags_completePages]
  · refine (Move.of_edit e₁ (fun hb => ?_) (fun hb hu => ⟨hu.mem_tags, ?_⟩)
      fun _ hu h1 h2 => sh.used_outside hu h1 h2).trans (Move.of_edit e₂ (fun hb => ?_)
      (fun hb hu => ⟨hu.mem_tags, ?_⟩) fun _ hu h1 h2 => sh₁.used_outside hu h1 h2)
    · exact used_join (fun he => hb (.inr he)) fun he => hb (.inl (he.trans hright))
    · simp [TagTable.fuse]
    · exact used_relist none fun he => hb (.inr he)
    · simp [TagTable.unlink]
  · rw [Arena.relist_ne none hne]
    cases hb : A.join p.left q p a with
    | none => rfl
    | some r =>
        rcases Arena.join_cases hb with ⟨he, -⟩ | ⟨-, he, -⟩
        · exact absurd he hne
        · exact absurd hright.symm he

/-! ### `absorb_right` -/

theorem relist_eq_self (ha : A a = some p) (hl : p.list = none) : A.relist a none = A := by
  funext b
  by_cases hba : b = a
  · subst hba
    rw [Arena.relist_same none ha, ha, ← hl]
  · exact Arena.relist_ne none hba

/-- **`absorb_right`**: the block swallows its free right neighbour. -/
theorem HeapCore.absorbRight (c : HeapCore h owned A L) (ha : A a = some p) (hl : p.list = none)
    (hq : A p.right = some q) (hfree : q.list = some i) :
    ∃ A' L' p', HeapCore (absorbRight h a) owned A' L' ∧
      Move (fun b => b = a ∨ b = p.right) h (absorbRight h a) A A' ∧
      KeptWithin owned h.machine (absorbRight h a).machine ∧
      A' a = some p' ∧ p'.list = none ∧ p'.left = p.left ∧ p'.right = q.right ∧ A' p.right = none := by
  have sh := c.shape
  have hpos := tag_size_pos
  obtain ⟨q', hq', hleft, -⟩ := sh.tiled.right ha (sh.tiled.room hq).1
  rw [hq] at hq'
  cases hq'
  have hne := sh.tiled.right_ne_self hpos ha
  have hmem := sh.mem_list hq hfree
  have sh₁ := sh.remove hq hfree
  have e₁ := sh.remove_edit hq hfree
  have ha₁ : A.relist p.right none a = some p := by rw [Arena.relist_ne none hne.symm, ha]
  have hq₁ := Arena.relist_same none hq
  have sh₂ := sh₁.fuse ha₁ hq₁ rfl
  have e₂ := sh₁.fuse_edit ha₁ hq₁
  have heq : BestOS.absorbRight h a = fuseTags (removeTag h p.right) a p.right := by
    rw [absorbRight_eq, (sh.tags ha).splitRight]
  rw [← heq] at sh₂ e₂
  have fr₁ := c.frames.edit_old sh (sameRuns_relist _ p.right none) e₁
  have fr₂ := fr₁.1.edit_old sh₁ (sameRuns_join sh₁.tiled ha₁ hq₁) e₂
  have hself := Arena.join_self (A.relist p.right none) a p { q with list := none }
  refine ⟨_, _, _, ⟨sh₂, c.books.joined sh ha hq (.inr rfl) hmem ?_ ?_ ?_ ?_ ?_, fr₂.1⟩, ?_,
    KeptWithin.trans fr₁.2 fr₂.2, hself, hl, rfl, rfl, ?_⟩
  · intro d k hd hdc
    exact ⟨fun he => sh.notMem_of_used ha hl k (he ▸ hd), hdc⟩
  · intro d r hd hr
    rcases Arena.join_cases hd with ⟨he, rfl⟩ | ⟨-, hdr, r₁, hr₁, rfl⟩
    · exact absurd hl hr
    · rw [Arena.relist_ne none hdr] at hr₁
      exact ⟨r₁, hr₁, rfl, rfl⟩
  · intro d hd h1 h2
    rw [wholeAt_join sh₁.tiled ha₁ hq₁ (tagsOf_relist A p.right none ▸ hd) h1 h2, wholeAt_relist]
  · have hcoal := (c.books.coalesced.relist sh.tiled hpos (a := p.right) (l := none)
      (fun hn => absurd rfl hn) fun hn => absurd rfl hn).join (a := a) (p := p)
      (q := { q with list := none })
    rwa [relist_eq_self hself hl] at hcoal
  · rw [heq, fuseTags_completePages, removeTag_completePages]
  · refine (Move.of_edit e₁ (fun hb => ?_) (fun hb hu => ⟨hu.mem_tags, ?_⟩)
      fun _ hu h1 h2 => sh.used_outside hu h1 h2).trans (Move.of_edit e₂ (fun hb => ?_)
      (fun hb hu => ⟨hu.mem_tags, ?_⟩) fun _ hu h1 h2 => sh₁.used_outside hu h1 h2)
    · exact used_relist none fun he => hb (.inr he)
    · simp [TagTable.unlink]
    · exact used_join (fun he => hb (.inl he)) fun he => hb (.inr he)
    · simp [TagTable.fuse]
  · cases hb : (A.relist p.right none).join a p { q with list := none } p.right with
    | none => rfl
    | some r =>
        rcases Arena.join_cases hb with ⟨he, -⟩ | ⟨-, he, -⟩
        · exact absurd he hne
        · exact absurd rfl he

/-! ### The loops -/

theorem Used.list_eq (hu : Used A b n) (hq : A b = some q) : q.list = none := by
  obtain ⟨q', hq', hlist, -⟩ := hu
  rw [hq] at hq'
  cases hq'
  exact hlist

/-- The test of both loops. -/
theorem freeNeighbour_iff (sh : HeapShape h A L) (hq : A b = some q) :
    freeNeighbour h b ↔ q.list ≠ none := by
  have hne := (sh.tiled.room hq).1
  have hmax : MAXEXP < 2 ^ 31 := by decide
  unfold freeNeighbour
  rw [(sh.tags hq).index]
  cases hl : q.list with
  | none =>
      have hneg : ¬ 0 ≤ toInt (indexOf none) := by decide
      simp [hneg]
  | some i =>
      have hlt := sh.small hq hl
      have hnn : 0 ≤ toInt (indexOf (some i)) := by
        rw [indexOf, toInt_of_lt (by omega)]
        omega
      simp [hne, hnn]

/-- A pointer to a neighbour that is in use, or NULL, ends a loop. -/
theorem not_freeNeighbour (sh : HeapShape h A L) (hin : PointsInto (tagsOf A) b)
    (hused : ∀ q, A b = some q → q.list = none) : ¬ freeNeighbour h b := by
  intro hfree
  obtain ⟨q, hq⟩ := hin hfree.1
  exact (freeNeighbour_iff sh hq).mp hfree (hused q hq)

theorem HeapShape.left_pointsInto (sh : HeapShape h A L) (ha : A a = some p) :
    PointsInto (tagsOf A) p.left := by
  intro hne
  obtain ⟨q, hq, -⟩ := sh.tiled.left ha hne
  exact ⟨q, hq⟩

/-- In the middle of `free(a)`: the block has become part of the piece at `a'`, which is
not given back yet. -/
structure Melted (owned : Nat → Prop) (a a' : Nat) (h h' : LibAlloc) (A A' : Arena) : Prop where
  used : ∀ {b n}, b ≠ a' → (Used A' b n ↔ Used A b n ∧ b ≠ a)
  sizes : ∀ {b n}, b ≠ a → Used A b n → b ≠ a' ∧ h'.get b .size = h.get b .size
  payload : ∀ {b n x}, b ≠ a → Used A b n → b + TAG_SIZE ≤ x + MMAP_IO_BASE →
    x + MMAP_IO_BASE < b + n → h'.machine.mem x = h.machine.mem x
  within : KeptWithin owned h.machine h'.machine
  initialized : h'.initialized = h.initialized

theorem Melted.refl (owned : Nat → Prop) (a : Nat) (h : LibAlloc) (A : Arena) :
    Melted owned a a h h A A where
  used hb := ⟨fun hu => ⟨hu, hb⟩, fun hu => hu.1⟩
  sizes hb _ := ⟨hb, rfl⟩
  payload _ _ _ _ := rfl
  within := KeptWithin.refl owned h.machine
  initialized := rfl

/-- Pieces that were free and are gone, or have become the piece at `a'`. -/
theorem Melted.step {a₁ a₂ c : Nat} (m : Melted owned a a₁ h h' A A')
    (mv : Move (fun b => b = a₁ ∨ b = c) h' h'' A' A'') (hm : KeptWithin owned h'.machine h''.machine)
    (hc : ∀ n, ¬ Used A' c n) (h1 : a₂ = a₁ ∧ A'' c = none ∨ a₂ = c ∧ A'' a₁ = none) :
    Melted owned a a₂ h h'' A A'' := by
  have hne : ∀ {b n}, b ≠ a → Used A b n → b ≠ a₁ ∧ b ≠ c ∧ Used A' b n := by
    intro b n hba hu
    have hb1 := (m.sizes hba hu).1
    have hu' := (m.used hb1).mpr ⟨hu, hba⟩
    exact ⟨hb1, fun he => hc n (he ▸ hu'), hu'⟩
  have hgone : ∀ {b n}, A'' b = none → ¬ Used A'' b n := by
    rintro b n hb ⟨q, hq, -⟩
    rw [hb] at hq
    cases hq
  refine ⟨fun {b n} hb => ⟨fun hu => ?_, fun hu => ?_⟩, fun hba hu => ?_, fun hba hu hx1 hx2 => ?_,
    m.within.trans hm, mv.initialized.trans m.initialized⟩
  · have hb' : b ≠ a₁ ∧ b ≠ c := by
      rcases h1 with ⟨rfl, hnone⟩ | ⟨rfl, hnone⟩
      · exact ⟨hb, fun he => hgone (he ▸ hnone) hu⟩
      · exact ⟨fun he => hgone (he ▸ hnone) hu, hb⟩
    exact (m.used hb'.1).mp ((mv.used fun he => he.elim hb'.1 hb'.2).mp hu)
  · obtain ⟨hb1, hbc, hu'⟩ := hne hu.2 hu.1
    exact (mv.used fun he => he.elim hb1 hbc).mpr hu'
  · obtain ⟨hb1, hbc, hu'⟩ := hne hba hu
    refine ⟨?_, (mv.sizes (fun he => he.elim hb1 hbc) hu').trans (m.sizes hba hu).2⟩
    rcases h1 with ⟨rfl, -⟩ | ⟨rfl, -⟩
    · exact hb1
    · exact hbc
  · obtain ⟨hb1, hbc, hu'⟩ := hne hba hu
    exact (mv.payload (fun he => he.elim hb1 hbc) hu' hx1 hx2).trans (m.payload hba hu hx1 hx2)

/-- A free piece is not in use. -/
theorem not_used_of_list (hq : A b = some q) (hl : q.list ≠ none) (n : Nat) : ¬ Used A b n :=
  fun hu => hl (hu.list_eq hq)

/-- **`MELT LEFT`** goes round once at most. -/
theorem meltLoop_returns (c : HeapCore h owned A L) (ha : A a = some p) (hl : p.list = none) :
    ∃ a' h' A' L' p', Returns (fun fuel => meltLoop fuel h a) (a', h') ∧ HeapCore h' owned A' L' ∧
      A' a' = some p' ∧ p'.list = none ∧ (∀ q, A' p'.left = some q → q.list = none) ∧
      Melted owned a a' h h' A A' := by
  have sh := c.shape
  have hsl := (sh.tags ha).splitLeft
  by_cases hfree : freeNeighbour h p.left
  · obtain ⟨q, hq⟩ := sh.left_pointsInto ha hfree.1
    obtain ⟨i, hqi⟩ := Option.ne_none_iff_exists'.mp ((freeNeighbour_iff sh hq).mp hfree)
    obtain ⟨A', L', p', c', mv, hm, hp', hl', hleft, -, hgone⟩ := c.meltLeft ha hl hq hqi
    have hqne := sh.tiled.left ha (sh.tiled.room hq).1
    -- the piece on the far left is in use, before and after
    have hfar : ∀ r, A' p'.left = some r → r.list = none := by
      intro r hr
      rw [hleft] at hr
      have h0 := (c'.shape.tiled.room hr).1
      obtain ⟨r₀, hr₀, hrr, hrend, -⟩ := sh.tiled.left hq h0
      have hroom₀ := (sh.tiled.room hr₀).2
      have hroom := (sh.tiled.room hq).2
      have hpos := tag_size_pos
      obtain ⟨q', hq', -, hend, -⟩ := hqne
      rw [hq] at hq'
      cases hq'
      have hused₀ : r₀.list = none := by
        rcases c.books.coalesced hr₀ (by rw [hrr]; exact hq) with hn | hn
        · exact hn
        · rw [hqi] at hn
          cases hn
      have hu : Used A q.left r₀.size := ⟨r₀, hr₀, hused₀, rfl⟩
      exact ((mv.used (by omega)).mpr hu).list_eq hr
    refine ⟨p.left, _, A', L', p', ?_, c', hp', hl', hfar, (Melted.refl owned a h A).step mv hm
      (not_used_of_list hq (by rw [hqi]; exact Option.some_ne_none i)) (.inr ⟨rfl, hgone⟩)⟩
    refine (Returns.now (f := fun fuel => meltLoop fuel (removeTag (fuseTags h p.left a) p.left)
      p.left) fun fuel => ?_).step fun fuel => ?_
    · rw [meltLoop, if_neg]
      rw [(c'.shape.tags hp').splitLeft]
      exact not_freeNeighbour c'.shape (c'.shape.left_pointsInto hp') hfar
    · rw [meltLoop, hsl, if_pos hfree, meltLeft_eq, hsl]
  · refine ⟨a, h, A, L, p, Returns.now fun fuel => ?_, c, ha, hl, fun q hq => ?_, Melted.refl owned a h A⟩
    · rw [meltLoop, hsl, if_neg hfree]
    · by_contra hne
      exact hfree ((freeNeighbour_iff sh hq).mpr hne)

/-- **`MELT RIGHT`** goes round once at most. -/
theorem absorbLoop_returns (c : HeapCore h owned A L) (ha : A a = some p) (hl : p.list = none)
    (hleft : ∀ q, A p.left = some q → q.list = none) {a₀ : Nat} {h₀ : LibAlloc} {A₀ : Arena}
    (m : Melted owned a₀ a h₀ h A₀ A) :
    ∃ h' A' L' p', Returns (fun fuel => absorbLoop fuel h a) h' ∧ HeapCore h' owned A' L' ∧
      A' a = some p' ∧ p'.list = none ∧ (∀ q, A' p'.left = some q → q.list = none) ∧
      (∀ q, A' p'.right = some q → q.list = none) ∧ Melted owned a₀ a h₀ h' A₀ A' := by
  have sh := c.shape
  have hsr := (sh.tags ha).splitRight
  by_cases hfree : freeNeighbour h p.right
  · obtain ⟨q, hq⟩ := sh.right_pointsInto ha hfree.1
    obtain ⟨i, hqi⟩ := Option.ne_none_iff_exists'.mp ((freeNeighbour_iff sh hq).mp hfree)
    obtain ⟨A', L', p', c', mv, hm, hp', hl', hleft', hright', hgone⟩ := c.absorbRight ha hl hq hqi
    obtain ⟨q', hq', -, hend, -⟩ := sh.tiled.right ha (sh.tiled.room hq).1
    rw [hq] at hq'
    cases hq'
    have hpos := tag_size_pos
    have hroom := (sh.tiled.room ha).2
    -- the neighbours of both pieces are in use, before and after
    have hnear : ∀ r, A' p'.left = some r → r.list = none := by
      intro r hr
      rw [hleft'] at hr
      have h0 := (c'.shape.tiled.room hr).1
      obtain ⟨r₀, hr₀, -, hrend, -⟩ := sh.tiled.left ha h0
      have hroom₀ := (sh.tiled.room hr₀).2
      have hu : Used A p.left r₀.size := ⟨r₀, hr₀, hleft r₀ hr₀, rfl⟩
      exact ((mv.used (by omega)).mpr hu).list_eq hr
    have hfar : ∀ r, A' p'.right = some r → r.list = none := by
      intro r hr
      rw [hright'] at hr
      have h0 := (c'.shape.tiled.room hr).1
      obtain ⟨r₀, hr₀, -, hrend, -⟩ := sh.tiled.right hq h0
      have hroom₀ := (sh.tiled.room hq).2
      have hused₀ : r₀.list = none := by
        rcases c.books.coalesced hq hr₀ with hn | hn
        · rw [hqi] at hn
          cases hn
        · exact hn
      have hu : Used A q.right r₀.size := ⟨r₀, hr₀, hused₀, rfl⟩
      exact ((mv.used (by omega)).mpr hu).list_eq hr
    refine ⟨_, A', L', p', ?_, c', hp', hl', hnear, hfar, m.step mv hm
      (not_used_of_list hq (by rw [hqi]; exact Option.some_ne_none i)) (.inl ⟨rfl, hgone⟩)⟩
    refine (Returns.now (f := fun fuel => absorbLoop fuel (absorbRight h a) a)
      fun fuel => ?_).step fun fuel => ?_
    · rw [absorbLoop, if_neg]
      rw [(c'.shape.tags hp').splitRight]
      exact not_freeNeighbour c'.shape (c'.shape.right_pointsInto hp') hfar
    · rw [absorbLoop, hsr, if_pos hfree]
  · refine ⟨h, A, L, p, Returns.now fun fuel => ?_, c, ha, hl, hleft, fun q hq => ?_, m⟩
    · rw [absorbLoop, hsr, if_neg hfree]
    · by_contra hne
      exact hfree ((freeNeighbour_iff sh hq).mpr hne)

end BestOS
