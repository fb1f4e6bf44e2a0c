/-
BestOS/HeapReturn.lean

The end of `free`: a tag goes back onto its list, or its pages go back to the frame
allocator.

With five whole runs on a list, the sixth is given back (`HeapCore.shrink`): `free`
counts the pages that `allocate_new_tag` asked for, and exactly the frames of the run
are free again.  Otherwise the tag is inserted (`HeapCore.insertBack`).
-/
import BestOS.HeapMelt

namespace BestOS

open ByteMemory BlockHeap BoundaryTags LinkedList Fuel

variable {h h' h₁ : LibAlloc} {s s' : Machine} {owned : Nat → Prop} {A A' : Arena}
  {L L' : Nat → List Nat} {a b i j n f : Nat} {p q : Piece}

/-- The whole runs of a list that gains a member. -/
theorem countP_push (L : Nat → List Nat) (g : Nat → Bool) (a i j : Nat) :
    ((Function.update L i (a :: L i) j).countP g : Int)
      = (L j).countP g + if j = i ∧ g a = true then 1 else 0 := by
  by_cases hji : j = i
  · subst hji
    rw [Function.update_self, List.countP_cons]
    by_cases hg : g a = true
    · simp [hg]
    · simp [hg]
  · rw [Function.update_of_ne hji]
    simp [hji]

/-- **Back onto the list of its size.** -/
theorem HeapCore.insertBack (c : HeapCore h owned A L) (ha : A a = some p) (hl : p.list = none)
    (hleft : ∀ q, A p.left = some q → q.list = none)
    (hright : ∀ q, A p.right = some q → q.list = none)
    (hi : i = listIndex (p.size - TAG_SIZE)) (hget : h₁.get = h.get)
    (hfree : h₁.freePages = h.freePages) (hmach : h₁.machine = h.machine)
    (hinit : h₁.initialized = h.initialized)
    (hcount : ∀ j, h₁.completePages j
      = h.completePages j + if j = i ∧ wholeAt A a = true then 1 else 0)
    (hfew : ∀ j, h₁.completePages j ≤ MAXCOMPLETE) :
    ∃ A' L', HeapCore (insertTagAt h₁ a (i : Int)) owned A' L' ∧
      Move (· = a) h (insertTagAt h₁ a (i : Int)) A A' ∧
      KeptWithin owned h.machine (insertTagAt h₁ a (i : Int)).machine ∧ ∀ n, ¬ Used A' a n := by
  have sh := c.shape
  have hpos := tag_size_pos
  have hlt : i < MAXEXP := hi ▸ listIndex_lt _
  have sh₁ : HeapShape h₁ A L := sh.congr (fun _ g _ => by rw [hget]) hfree
  have e := sh₁.insert_edit ha hlt
  have sh₂ := sh₁.insert ha hl hlt
  have fr := HeapFrames.edit_old (hmach ▸ c.frames) sh₁ (sameRuns_relist A a (some i)) e
  refine ⟨_, _, ⟨sh₂, ⟨?_, ?_, fun j => ?_, fun j => ?_⟩, fr.1⟩, ?_, hmach ▸ fr.2, ?_⟩
  · refine c.books.coalesced.relist sh.tiled hpos (fun _ b q hb hr => ?_) fun _ p' q hp' hq => ?_
    · obtain ⟨r, hr', hrl, -⟩ := sh.tiled.right hb (by rw [hr]; exact (sh.tiled.room ha).1)
      rw [hr, ha] at hr'
      cases hr'
      rw [← hrl] at hb
      exact hleft q hb
    · rw [ha] at hp'
      cases hp'
      exact hright q hq
  · intro b q k hb hk
    obtain ⟨q₀, hq₀, rfl⟩ := Arena.relist_cases hb
    by_cases hba : b = a
    · subst hba
      rw [ha] at hq₀
      cases hq₀
      rw [if_pos rfl, Option.some.injEq] at hk
      rw [← hk]
      exact hi
    · simp only [if_neg hba] at hk
      exact (c.books.placed hq₀ hk :)
  · rw [insertTagAt_completePages, hcount, c.books.counted, wholeAt_relist, countP_push]
  · rw [insertTagAt_completePages]
    exact hfew j
  · have mv : Move (· = a) h₁ (insertTagAt h₁ a (i : Int)) A (A.relist a (some i)) :=
      Move.of_edit e (fun hb => used_relist _ hb) (fun hb hu => ⟨hu.mem_tags, TagTable.link_size _ _ _ _ _⟩)
        fun _ hu h1 h2 => sh₁.used_outside hu h1 h2
    exact ⟨mv.used, fun hb hu => (mv.sizes hb hu).trans (by rw [hget]),
      fun hb hu h1 h2 => (mv.payload hb hu h1 h2).trans (by rw [hmach]),
      mv.initialized.trans hinit⟩
  · exact not_used_of_list (Arena.relist_same _ ha) (Option.some_ne_none i)

/-! ### A whole run -/

/-- A run is whole pages, and `free` counts them as `allocate_new_tag` did. -/
theorem releasedPages_of_aligned (hal : n % PAGE_SIZE = 0) (hle : L_PAGE_COUNT * L_PAGE_SIZE ≤ n)
    (hlt : n < 2 ^ 32) :
    releasedPages n = n / PAGE_SIZE ∧ toSize (toInt (n / PAGE_SIZE)) = n / PAGE_SIZE := by
  have hpage : L_PAGE_SIZE = 4096 := rfl
  have hsize : PAGE_SIZE = 4096 := rfl
  have hcount : L_PAGE_COUNT = 16 := rfl
  rw [hsize] at hal ⊢
  rw [hpage, hcount] at hle
  have hz : (if n % 4096 ≠ 0 then 1 else 0) = 0 := if_neg (not_not.mpr hal)
  have hm1 : 16 ≤ n / 4096 := by omega
  have hm2 : n / 4096 < 2 ^ 31 := by omega
  unfold releasedPages
  rw [hpage, hz, Nat.add_zero]
  dsimp only
  generalize n / 4096 = m at *
  rw [toInt_of_lt hm2, if_neg (by omega)]
  have hnat := toSize_of_nonneg (i := (m : Int)) (by omega) (by omega)
  exact ⟨rfl, by exact_mod_cast hnat⟩

/-- A whole run that is dropped. -/
theorem HeapShape.drop (sh : HeapShape h A L) (ha : A a = some p) (hl : p.list = none)
    (hw : Arena.Whole p) : HeapShape h (A.drop a) L where
  tiled := sh.tiled.drop ha hw
  window hb := sh.window (Arena.drop_cases hb).2
  tags hb := sh.tags (Arena.drop_cases hb).2
  heads := sh.heads
  linked := sh.linked
  nodup := sh.nodup
  members := by
    intro b j
    rw [sh.members]
    constructor
    · rintro ⟨q, hq, hqj⟩
      have hba : b ≠ a := by
        rintro rfl
        rw [ha] at hq
        cases hq
        rw [hl] at hqj
        cases hqj
      exact ⟨q, (Arena.drop_ne A hba).trans hq, hqj⟩
    · rintro ⟨q, hq, hqj⟩
      exact ⟨q, (Arena.drop_cases hq).2, hqj⟩
  small hb := sh.small (Arena.drop_cases hb).2

/-- The frames of a piece that is a whole run. -/
theorem inRun_whole (hbase : p.base = f * PAGE_SIZE + MMAP_IO_BASE) (hlen : p.len = n * PAGE_SIZE)
    (k : Nat) : InRun p k ↔ f ≤ k ∧ k < f + n := by
  unfold InRun
  rw [hbase, hlen]
  simp only [PAGE_SIZE]
  omega

/-- No other piece has a frame of a whole run. -/
theorem not_inRun_of_whole (ok : A.Tiled TAG_SIZE) (ha : A a = some p) (hw : Arena.Whole p)
    (hb : A b = some q) (hba : b ≠ a) {k : Nat} (hk : InRun q k) : ¬ InRun p k := by
  intro hkp
  have hpos := tag_size_pos
  have hroom := (ok.room hb).2
  obtain ⟨hbase, hlen⟩ := ok.whole ha hw
  have hin := ok.inside hb
  obtain ⟨h1, h2⟩ := hk
  obtain ⟨h3, h4⟩ := hkp
  rcases ok.runs ha hb with ⟨he1, he2⟩ | hle | hle
  · rcases ok.apart ha hb (Ne.symm hba) with hle | hle <;> omega
  · omega
  · omega

/-- **The sixth whole run** of a list: exactly its frames go back. -/
theorem HeapCore.shrink (c : HeapCore h owned A L) (ha : A a = some p) (hl : p.list = none)
    (hw : Arena.Whole p) (hs' : liballocFree h.machine a (toInt (releasedPages p.size)) = s') :
    HeapCore { h with machine := s' } (heldAfter owned h.machine s') (A.drop a) L ∧
    Move (· = a) h { h with machine := s' } A (A.drop a) ∧
    (∀ k, heldAfter owned h.machine s' k ↔ owned k ∧ ¬ InRun p k) ∧
    Spares owned h.machine s' := by
  have sh := c.shape
  obtain ⟨hbase, hlen⟩ := sh.tiled.whole ha hw
  obtain ⟨hal, hal', hcount⟩ := c.frames.aligned ha
  obtain ⟨hlow, hhigh, hlt⟩ := sh.window ha
  have hio := window_aligned
  obtain ⟨f, hf⟩ : ∃ f, a = f * PAGE_SIZE + MMAP_IO_BASE := by
    refine ⟨(a - MMAP_IO_BASE) / PAGE_SIZE, ?_⟩
    simp only [PAGE_SIZE] at *
    omega
  obtain ⟨n, hn⟩ : ∃ n, p.len = n * PAGE_SIZE := by
    refine ⟨p.len / PAGE_SIZE, ?_⟩
    simp only [PAGE_SIZE] at *
    omega
  have hrun : ∀ k, InRun p k ↔ f ≤ k ∧ k < f + n := inRun_whole (hbase.trans hf) hn
  have hin_owned : ∀ k, f ≤ k → k < f + n → owned k := fun k h1 h2 =>
    (c.frames.owned_iff k).mpr ⟨a, p, ha, (hrun k).mpr ⟨h1, h2⟩⟩
  have hend : f * PAGE_SIZE + n * PAGE_SIZE ≤ 2 ^ 64 := by omega
  have hfree : s' = pmmFree h.machine (f * PAGE_SIZE) n := by
    obtain ⟨hrel, hsz⟩ := releasedPages_of_aligned hal' hcount hlt
    have hdiv : p.len / PAGE_SIZE = n := by
      rw [hn]
      exact Nat.mul_div_cancel n (by decide)
    rw [← hs', liballocFree, ← hlen, hrel, hsz, hdiv, physical_eq (by omega) (by omega), hf,
      Nat.add_sub_cancel]
  have gf := pmmFree_spec (fun k h1 h2 => c.frames.marked (hin_owned k h1 h2)) hend
  have hbits := fun k => pageUsed_pmmFree h.machine (f * PAGE_SIZE) n k hend
  rw [← hfree] at gf hbits
  have hdiv : f * PAGE_SIZE / PAGE_SIZE = f := Nat.mul_div_cancel f (by decide)
  have hheld : ∀ k, heldAfter owned h.machine s' k ↔ owned k ∧ ¬ InRun p k := by
    intro k
    rw [hrun]
    constructor
    · rintro ⟨hk, ho⟩
      have hbit := hk.2
      rw [hbits k, hdiv, Bool.and_eq_true, Bool.not_eq_true', decide_eq_false_iff_not] at hbit
      refine ⟨ho.resolve_right fun hnot => hnot ⟨?_, hbit.1⟩, hbit.2⟩
      rw [← gf.bitmap]
      exact hk.1
    · rintro ⟨ho, hk⟩
      exact ⟨gf.marked k hk (c.frames.marked ho), .inl ho⟩
  have hpmm : PmmOk s' := gf.pmmOk c.frames.pmm fun x hx hk => by
    exact c.frames.apart (hin_owned _ hk.1 hk.2) hx
  have hget : ∀ {b q}, A b = some q → ∀ g,
      LibAlloc.get { h with machine := s' } b g = h.get b g := by
    intro b q hb g
    have hmem : b ∈ tagsOf A := ⟨q, hb⟩
    have hg := g.bound
    refine readLE_congr fun x h1 h2 => gf.kept x (c.frames.apart (c.owned_of_inPiece hb ?_))
    have hroom := (sh.tiled.room hb).2
    have hlow := sh.tagSet.low hmem
    rw [sh.tagSet.physical_field hmem] at h1 h2
    unfold InPiece
    omega
  have sh₁ : HeapShape { h with machine := s' } A L := sh.congr (fun hb g _ => hget hb g) rfl
  refine ⟨⟨sh₁.drop ha hl hw, ⟨c.books.coalesced.drop, fun b q j hb => ?_, fun j => ?_, c.books.few⟩,
    ⟨fun hb => c.frames.aligned (Arena.drop_cases hb).2, fun k => ?_, fun hk => hk.1, fun hk => ?_,
    hpmm, ?_⟩⟩, ⟨fun hb => ?_, fun hb hu => ?_, fun hb hu h1 h2 => ?_, rfl⟩, hheld,
    gf.spares hin_owned⟩
  · exact c.books.placed (Arena.drop_cases hb).2
  · have hsame : (L j).countP (wholeAt (A.drop a)) = (L j).countP (wholeAt A) := by
      refine List.countP_congr fun b hb => ?_
      have hba : b ≠ a := fun he => sh.notMem_of_used ha hl j (he ▸ hb)
      unfold wholeAt
      rw [Arena.drop_ne A hba]
    rw [hsame]
    exact c.books.counted j
  · rw [hheld, c.frames.owned_iff]
    constructor
    · rintro ⟨⟨b, q, hb, hk⟩, hnot⟩
      have hba : b ≠ a := by
        rintro rfl
        rw [ha] at hb
        cases hb
        exact hnot hk
      exact ⟨b, q, (Arena.drop_ne A hba).trans hb, hk⟩
    · rintro ⟨b, q, hb, hk⟩
      obtain ⟨hba, hb⟩ := Arena.drop_cases hb
      exact ⟨⟨b, q, hb, hk⟩, not_inRun_of_whole sh.tiled ha hw hb hba hk⟩
  · simpa only [InBitmap, gf.bitmap] using c.frames.apart ((hheld _).mp hk).1
  · rw [gf.high]
    exact c.frames.direct
  · unfold Used
    rw [Arena.drop_ne A hb]
  · obtain ⟨q, hq, -⟩ := hu
    exact hget hq _
  · obtain ⟨q, hq, -, rfl⟩ := hu
    exact gf.kept _ (c.frames.apart (c.owned_of_inPiece hq ⟨by omega, h2⟩))

/-! ### `free` -/

/-- **The end of `free`.** -/
theorem HeapCore.returnTag (c : HeapCore h owned A L) (ha : A a = some p) (hl : p.list = none)
    (hleft : ∀ q, A p.left = some q → q.list = none)
    (hright : ∀ q, A p.right = some q → q.list = none) :
    ∃ A' L', HeapCore (returnTag h a) (heldAfter owned h.machine (returnTag h a).machine) A' L' ∧
      Move (· = a) h (returnTag h a) A A' ∧ (∀ n, ¬ Used A' a n) ∧
      Spares owned h.machine (returnTag h a).machine ∧
      ∀ k, heldAfter owned h.machine (returnTag h a).machine k → owned k := by
  have sh := c.shape
  have htag := sh.tags ha
  have hin := sh.inWindow ha
  have hroom := (sh.tiled.room ha).2
  have hidx : (p.size + 2 ^ 64 - TAG_SIZE) % 2 ^ 64 = p.size - TAG_SIZE := by omega
  unfold BestOS.returnTag
  rw [htag.realSize, htag.splitLeft, htag.splitRight, hidx]
  dsimp only
  generalize hi : listIndex (p.size - TAG_SIZE) = i
  by_cases hw : p.left = 0 ∧ p.right = 0
  · rw [if_pos hw]
    have hwhole : wholeAt A a = true := by
      rw [wholeAt_eq ha]
      exact decide_eq_true hw
    by_cases hfull : h.completePages i = MAXCOMPLETE
    · rw [if_pos hfull]
      obtain ⟨c', mv, hheld, sp⟩ := c.shrink ha hl hw rfl
      refine ⟨_, L, c', mv, ?_, sp, fun k hk => ((hheld k).mp hk).1⟩
      rintro n ⟨q, hq, -⟩
      exact (Arena.drop_cases hq).1 rfl
    · rw [if_neg hfull]
      have hcount : ∀ j, (setComplete h i (h.completePages i + 1)).completePages j
          = h.completePages j + if j = i ∧ wholeAt A a = true then 1 else 0 := by
        intro j
        rw [setComplete_completePages]
        by_cases hji : j = i
        · simp [hji, hwhole]
        · simp [hji]
      have hfew : ∀ j, (setComplete h i (h.completePages i + 1)).completePages j ≤ MAXCOMPLETE := by
        intro j
        have hold := c.books.few j
        rw [setComplete_completePages]
        by_cases hji : j = i
        · subst hji
          rw [Function.update_self]
          omega
        · simpa [hji] using hold
      obtain ⟨A', L', c', mv, hm, hgone⟩ := c.insertBack ha hl hleft hright hi.symm
        (show (setComplete h i (h.completePages i + 1)).get = h.get from rfl) rfl rfl rfl hcount hfew
      rw [setComplete] at c' mv hm
      exact ⟨A', L', by rwa [c.frames.heldAfter_eq hm], mv, hgone, hm.spares,
        fun k hk => (c.frames.heldAfter_eq hm ▸ hk :)⟩
  · rw [if_neg hw]
    have hwhole : wholeAt A a = false := by
      rw [wholeAt_eq ha]
      exact decide_eq_false hw
    obtain ⟨A', L', c', mv, hm, hgone⟩ := c.insertBack ha hl hleft hright hi.symm
      (show h.get = h.get from rfl) rfl rfl rfl (fun j => by simp [hwhole]) c.books.few
    exact ⟨A', L', by rwa [c.frames.heldAfter_eq hm], mv, hgone, hm.spares,
      fun k hk => (c.frames.heldAfter_eq hm ▸ hk :)⟩

/-- The block at `a` is given back, the others are as before. -/
structure Released (a : Nat) (h h' : LibAlloc) (A A' : Arena) : Prop where
  used : ∀ {b n}, Used A' b n ↔ Used A b n ∧ b ≠ a
  sizes : ∀ {b n}, b ≠ a → Used A b n → h'.get b .size = h.get b .size
  payload : ∀ {b n x}, b ≠ a → Used A b n → b + TAG_SIZE ≤ x + MMAP_IO_BASE →
    x + MMAP_IO_BASE < b + n → h'.machine.mem x = h.machine.mem x
  initialized : h'.initialized = h.initialized

theorem Melted.release {a' : Nat} {h'' : LibAlloc} {A'' : Arena} (m : Melted owned a a' h h' A A')
    (mv : Move (· = a') h' h'' A' A'') (hgone : ∀ n, ¬ Used A'' a' n) : Released a h h'' A A'' where
  used {b n} := by
    by_cases hb : b = a'
    · subst hb
      refine iff_of_false (hgone n) fun hu => ?_
      exact (m.sizes hu.2 hu.1).1 rfl
    · exact (mv.used hb).trans (m.used hb)
  sizes hba hu := by
    obtain ⟨hb, hs⟩ := m.sizes hba hu
    exact (mv.sizes hb ((m.used hb).mpr ⟨hu, hba⟩)).trans hs
  payload hba hu h1 h2 := by
    obtain ⟨hb, -⟩ := m.sizes hba hu
    exact (mv.payload hb ((m.used hb).mpr ⟨hu, hba⟩) h1 h2).trans (m.payload hba hu h1 h2)
  initialized := mv.initialized.trans m.initialized

/-- **`free`** gives back a block in use, and only that one. -/
theorem HeapCore.free (c : HeapCore h owned A L) (hu : Used A a n) :
    ∃ h' A' L', Returns (fun fuel => free fuel h (a + TAG_SIZE)) h' ∧
      HeapCore h' (heldAfter owned h.machine h'.machine) A' L' ∧ Released a h h' A A' ∧
      Spares owned h.machine h'.machine ∧ ∀ k, heldAfter owned h.machine h'.machine k → owned k := by
  obtain ⟨p, ha, hl, -⟩ := hu
  have hin := c.shape.inWindow ha
  have hroom := (c.shape.tiled.room ha).2
  have hpos := tag_size_pos
  obtain ⟨a', h₁, A₁, L₁, p₁, hmelt, c₁, ha₁, hl₁, hleft₁, m₁⟩ := meltLoop_returns c ha hl
  obtain ⟨h₂, A₂, L₂, p₂, habsorb, c₂, ha₂, hl₂, hleft₂, hright₂, m₂⟩ :=
    absorbLoop_returns c₁ ha₁ hl₁ hleft₁ m₁
  obtain ⟨A₃, L₃, c₃, mv, hgone, sp, hheld₃⟩ := c₂.returnTag ha₂ hl₂ hleft₂ hright₂
  have hheld : heldAfter owned h.machine (BestOS.returnTag h₂ a').machine
      = heldAfter owned h₂.machine (BestOS.returnTag h₂ a').machine :=
    m₂.within.heldAfter_left.symm
  refine ⟨_, A₃, L₃, ?_, hheld ▸ c₃, m₂.release mv hgone, Spares.after m₂.within sp,
    fun k hk => hheld₃ k (hheld ▸ hk)⟩
  refine (hmelt.and habsorb).mono fun fuel hf => ?_
  have htag : (a + TAG_SIZE + 2 ^ 64 - TAG_SIZE) % 2 ^ 64 = a := by omega
  change BestOS.free fuel h (a + TAG_SIZE) = some _
  rw [BestOS.free, if_neg (by omega)]
  dsimp only
  have hf₁ : meltLoop fuel h a = _ := hf.1
  have hf₂ : absorbLoop fuel h₁ a' = _ := hf.2
  rw [htag, if_neg (not_not.mpr (c.shape.tags ha).magic), hf₁, Option.bind_some, hf₂,
    Option.map_some]

end BestOS
