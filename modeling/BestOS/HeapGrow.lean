/-
BestOS/HeapGrow.lean

Runs come from the frame allocator and go back to it.

`Undisturbed` is what the rest of the kernel has to grant the heap: the frames the heap
owns stay marked and keep their bytes.  Every other use of the frame allocator does
(`TakesFrames.undisturbed`), and so a new run meets no run the heap has.
`allocateNewTag` makes a run one piece (`HeapCore.grow`), `liballocFree` gives the pages
of a whole run back (`HeapCore.shrink`).
-/
import BestOS.HeapMoves

namespace BestOS

open ByteMemory BlockHeap BoundaryTags LinkedList

variable {h h' h'' : LibAlloc} {s s' : Machine} {owned : Nat → Prop} {A A' A'' : Arena}
  {L L' : Nat → List Nat} {a b i n f size pages : Nat} {p q : Piece} {t : TagTable}

/-! ### The rest of the kernel -/

/-- From `s` to `s'` the frames `owned` were left alone. -/
structure Undisturbed (owned : Nat → Prop) (s s' : Machine) : Prop where
  bitmap : s'.bitmap = s.bitmap
  high : s'.highestPage = s.highestPage
  pmm : PmmOk s'
  marked : ∀ {k}, owned k → MarkedUsed s' k
  bytes : ∀ {x}, owned (x / PAGE_SIZE) → s'.mem x = s.mem x

/-- Frames taken from the allocator are nobody's yet. -/
theorem TakesFrames.undisturbed (tf : TakesFrames s s' f n) (fr : HeapFrames s owned A) :
    Undisturbed owned s s' where
  bitmap := tf.bitmap
  high := tf.high
  pmm := tf.pmmOk fr.pmm
  marked hk := tf.marked (fr.marked hk)
  bytes hx := tf.kept _ (fun hr => tf.not_marked hr.1 hr.2 (fr.marked hx)) (fr.apart hx)

/-- Giving back frames that the heap does not own. -/
theorem GivesFrames.undisturbed (gf : GivesFrames s s' f n) (fr : HeapFrames s owned A)
    (hpmm : PmmOk s') (hout : ∀ k, owned k → ¬ (f ≤ k ∧ k < f + n)) :
    Undisturbed owned s s' where
  bitmap := gf.bitmap
  high := gf.high
  pmm := hpmm
  marked hk := gf.marked _ (hout _ hk) (fr.marked hk)
  bytes hx := gf.kept _ (fr.apart hx)

/-- **Whatever leaves its frames alone leaves the heap alone.** -/
theorem HeapCore.undisturbed (c : HeapCore h owned A L) (u : Undisturbed owned h.machine s') :
    HeapCore { h with machine := s' } owned A L ∧
    Move (fun _ => False) h { h with machine := s' } A A := by
  have hget : ∀ {a p}, A a = some p → ∀ g, LibAlloc.get { h with machine := s' } a g = h.get a g := by
    intro a p ha g
    have hin : a ∈ tagsOf A := ⟨p, ha⟩
    have hg := g.bound
    have hroom := (c.shape.tiled.room ha).2
    have hlow := c.shape.tagSet.low hin
    refine readLE_congr fun x h1 h2 => u.bytes (c.owned_of_inPiece ha ?_)
    rw [c.shape.tagSet.physical_field hin] at h1 h2
    unfold InPiece
    omega
  refine ⟨⟨c.shape.congr (fun ha g _ => hget ha g) rfl, ⟨c.books.coalesced, c.books.placed,
    c.books.counted, c.books.few⟩, ⟨c.frames.aligned, c.frames.owned_iff, u.marked, fun hx => ?_,
    u.pmm, ?_⟩⟩, ⟨fun _ => Iff.rfl, fun _ hu => ?_, fun _ hu h1 h2 => ?_, rfl⟩⟩
  · simpa only [InBitmap, u.bitmap] using c.frames.apart hx
  · rw [u.high]
    exact c.frames.direct
  · obtain ⟨q, hq, -⟩ := hu
    exact hget hq _
  · obtain ⟨q, hq, -, rfl⟩ := hu
    exact u.bytes (c.owned_of_inPiece hq ⟨by omega, h2⟩)

/-! ### A new run -/

/-- The largest requests are refused nowhere, but their sizes do not fit the fields of a
tag. -/
def Request (size : Nat) : Prop := size + TAG_SIZE + L_PAGE_SIZE ≤ 2 ^ 32

/-- Whole pages for `u` bytes. -/
theorem le_ceil_pages (u : Nat) :
    u ≤ (u / L_PAGE_SIZE + if u % L_PAGE_SIZE ≠ 0 then 1 else 0) * L_PAGE_SIZE ∧
    (u / L_PAGE_SIZE + if u % L_PAGE_SIZE ≠ 0 then 1 else 0) * L_PAGE_SIZE < u + L_PAGE_SIZE := by
  have hpage : L_PAGE_SIZE = 4096 := rfl
  by_cases hz : u % L_PAGE_SIZE ≠ 0
  · rw [if_pos hz]
    rw [hpage] at hz ⊢
    omega
  · rw [if_neg hz]
    rw [hpage] at hz ⊢
    omega

/-- The pages of a new run hold the block and its tag. -/
theorem newTagPages_spec (hreq : Request size) :
    L_PAGE_COUNT ≤ newTagPages size ∧ size + TAG_SIZE ≤ newTagPages size * L_PAGE_SIZE ∧
      newTagPages size * L_PAGE_SIZE < 2 ^ 32 := by
  have htag : TAG_SIZE = 48 := rfl
  have hpage : L_PAGE_SIZE = 4096 := rfl
  have hcount : L_PAGE_COUNT = 16 := rfl
  unfold Request at hreq
  have husage : (size % 2 ^ 32 + TAG_SIZE) % 2 ^ 32 = size + TAG_SIZE := by omega
  have hceil := le_ceil_pages (size + TAG_SIZE)
  unfold newTagPages
  rw [husage]
  dsimp only
  generalize ((size + TAG_SIZE) / L_PAGE_SIZE
    + if (size + TAG_SIZE) % L_PAGE_SIZE ≠ 0 then 1 else 0) = pages at *
  rw [hpage] at hceil hreq ⊢
  rw [toInt_of_lt (by omega)]
  split <;> omega

/-- `allocate_new_tag` makes pages of its own a piece in use. -/
theorem HeapShape.place (sh : HeapShape h A L)
    (hnew : ∀ {b q}, A b = some q → Apart a (pages * L_PAGE_SIZE) q.base q.len)
    (hlow : MMAP_IO_BASE ≤ a) (hhigh : a + pages * L_PAGE_SIZE < 2 ^ 64)
    (hlen : pages * L_PAGE_SIZE < 2 ^ 32) (hfit : size + TAG_SIZE ≤ pages * L_PAGE_SIZE) :
    HeapShape (writeNewTag h a size pages) (A.place a (pages * L_PAGE_SIZE)) L ∧
    Edit (tagsOf (A.place a (pages * L_PAGE_SIZE))) h (writeNewTag h a size pages)
      (TagTable.fresh h.get a size (pages * L_PAGE_SIZE)) := by
  have hio : 0 < MMAP_IO_BASE := by decide
  have htiled := sh.tiled.place tag_size_pos (a := a) (n := pages * L_PAGE_SIZE) (by omega)
    (by omega) hnew
  have hnone := sh.tiled.none_of_apart tag_size_pos (by have := tag_size_pos; omega) hnew
  have hne : ∀ {b q}, A b = some q → b ≠ a := by
    rintro b q hb rfl
    rw [hnone] at hb
    cases hb
  have hcases : ∀ {b q}, A.place a (pages * L_PAGE_SIZE) b = some q →
      (b = a ∧ q = ⟨pages * L_PAGE_SIZE, 0, 0, a, pages * L_PAGE_SIZE, none⟩) ∨
      (b ≠ a ∧ A b = some q) := by
    intro b q hb
    by_cases hba : b = a
    · rw [hba, Arena.place_self] at hb
      exact .inl ⟨hba, (Option.some.inj hb).symm⟩
    · rw [Arena.place_ne A _ hba] at hb
      exact .inr ⟨hba, hb⟩
  have hwindow : ∀ {b q}, A.place a (pages * L_PAGE_SIZE) b = some q →
      MMAP_IO_BASE ≤ q.base ∧ q.base + q.len < 2 ^ 64 ∧ q.len < 2 ^ 32 := by
    intro b q hb
    rcases hcases hb with ⟨rfl, rfl⟩ | ⟨-, hb⟩
    · exact ⟨hlow, hhigh, hlen⟩
    · exact sh.window hb
  have hstay : ∀ {b q}, A b = some q → A.place a (pages * L_PAGE_SIZE) b = some q := by
    intro b q hb
    rw [Arena.place_ne A _ (hne hb), hb]
  have ha := Arena.place_self A a (pages * L_PAGE_SIZE)
  have hin : a ∈ tagsOf (A.place a (pages * L_PAGE_SIZE)) := ⟨_, ha⟩
  have e : Edit (tagsOf (A.place a (pages * L_PAGE_SIZE))) h (writeNewTag h a size pages)
      (TagTable.fresh h.get a size (pages * L_PAGE_SIZE)) :=
    writeNewTag_edit (tagSet_of_tiled htiled hwindow) hin (by omega) hlen
  refine ⟨⟨htiled, hwindow, ?_, ?_, ?_, sh.nodup, ?_, ?_⟩, e⟩
  · intro b q hb
    rcases hcases hb with ⟨rfl, rfl⟩ | ⟨hba, hb'⟩
    · refine ⟨?_, ?_, ?_, ?_, ?_, fun _ => ?_⟩
      all_goals simp only [e.tags _ hin, TagTable.fresh, TagTable.upd_apply]
      all_goals simp [indexOf]
    · have htag := sh.tags hb'
      have hinb : b ∈ tagsOf (A.place a (pages * L_PAGE_SIZE)) := ⟨q, hb⟩
      refine ⟨?_, ?_, ?_, ?_, ?_, fun hused => ?_⟩
      all_goals simp only [e.tags _ hinb, TagTable.fresh, TagTable.upd_apply, hba, false_and,
        if_false]
      · exact htag.magic
      · exact htag.realSize
      · exact htag.index
      · exact htag.splitLeft
      · exact htag.splitRight
      · exact htag.unlinked hused
  · intro j
    rw [writeNewTag_freePages]
    exact sh.heads j
  · intro j
    have hget : ∀ {b}, b ∈ L j → ∀ g, (writeNewTag h a size pages).get b g = h.get b g := by
      intro b hb g
      obtain ⟨q, hq, -⟩ := sh.members.mp hb
      rw [e.tags b ⟨q, hstay hq⟩]
      simp [TagTable.fresh, hne hq]
    exact (sh.linked j).congr (fun b hb => hget hb _) fun b hb => hget hb _
  · intro b j
    rw [sh.members]
    constructor
    · rintro ⟨q, hq, hqj⟩
      exact ⟨q, hstay hq, hqj⟩
    · rintro ⟨q, hq, hqj⟩
      rcases hcases hq with ⟨rfl, rfl⟩ | ⟨-, hq⟩
      · cases hqj
      · exact ⟨q, hq, hqj⟩
  · intro b q j hb hj
    rcases hcases hb with ⟨rfl, rfl⟩ | ⟨-, hb⟩
    · cases hj
    · exact sh.small hb hj

/-- The frames the heap has after a call: those it had or that were marked for it, as far
as they are marked. -/
def heldAfter (owned : Nat → Prop) (s s' : Machine) (k : Nat) : Prop :=
  MarkedUsed s' k ∧ (owned k ∨ ¬ MarkedUsed s k)

/-- A call that marks nothing. -/
theorem HeapFrames.heldAfter_eq (fr : HeapFrames s owned A) (hm : KeptWithin owned s s') :
    heldAfter owned s s' = owned := by
  funext k
  unfold heldAfter
  rw [hm.marks k, eq_iff_iff]
  constructor
  · rintro ⟨hk, ho | hn⟩
    · exact ho
    · exact absurd hk hn
  · exact fun ho => ⟨fr.marked ho, .inl ho⟩

/-- A call that takes frames. -/
theorem TakesFrames.heldAfter_iff (tf : TakesFrames s s' f n) (fr : HeapFrames s owned A)
    (k : Nat) : heldAfter owned s s' k ↔ owned k ∨ f ≤ k ∧ k < f + n := by
  constructor
  · rintro ⟨hk, ho | hn⟩
    · exact .inl ho
    · exact .inr (mem_of_newly_marked tf.bitmap tf.bits hn hk)
  · rintro (ho | hk)
    · exact ⟨tf.marked (fr.marked ho), .inl ho⟩
    · exact ⟨tf.taken fr.pmm hk.1 hk.2, .inr (tf.not_marked hk.1 hk.2)⟩

/-- From `s` to `s'` the marked frames that are not `owned` were spared. -/
structure Spares (owned : Nat → Prop) (s s' : Machine) : Prop where
  bitmap : s'.bitmap = s.bitmap
  highest : s'.highestPage = s.highestPage
  marked : ∀ {k}, MarkedUsed s k → ¬ owned k → MarkedUsed s' k
  bytes : ∀ {x}, MarkedUsed s (x / PAGE_SIZE) → ¬ owned (x / PAGE_SIZE) → ¬ InBitmap s x →
    s'.mem x = s.mem x

theorem KeptWithin.spares (w : KeptWithin owned s s') : Spares owned s s' :=
  ⟨w.bitmap, w.highest, fun hk _ => (w.marks _).mpr hk, fun _ hx _ => w.bytes hx⟩

theorem Spares.after {s'' : Machine} (w : KeptWithin owned s s') (sp : Spares owned s' s'') :
    Spares owned s s'' where
  bitmap := sp.bitmap.trans w.bitmap
  highest := sp.highest.trans w.highest
  marked hk ho := sp.marked ((w.marks _).mpr hk) ho
  bytes hk ho hx := (sp.bytes ((w.marks _).mpr hk) ho
    (by rwa [InBitmap, w.bitmap, ← InBitmap])).trans (w.bytes ho)

/-- The frames of others are not among those the heap has got. -/
theorem Spares.trans {s'' : Machine} (sp : Spares owned s s')
    (sp' : Spares (heldAfter owned s s') s' s'') : Spares owned s s'' where
  bitmap := sp'.bitmap.trans sp.bitmap
  highest := sp'.highest.trans sp.highest
  marked hk ho := sp'.marked (sp.marked hk ho) fun hh => hh.2.elim ho fun hn => hn hk
  bytes hk ho hx := (sp'.bytes (sp.marked hk ho) (fun hh => hh.2.elim ho fun hn => hn hk)
    (by rwa [InBitmap, sp.bitmap, ← InBitmap])).trans (sp.bytes hk ho hx)

/-- Two calls, the second of which takes no frames. -/
theorem heldAfter_heldAfter {s'' : Machine}
    (hno : ∀ k, heldAfter (heldAfter owned s s') s' s'' k → heldAfter owned s s' k) :
    heldAfter (heldAfter owned s s') s' s'' = heldAfter owned s s'' := by
  funext k
  rw [eq_iff_iff]
  constructor
  · exact fun hk => ⟨hk.1, (hno k hk).2⟩
  · rintro ⟨hk, ho⟩
    by_cases hm : MarkedUsed s' k
    · exact ⟨hk, .inl ⟨hm, ho⟩⟩
    · exact ⟨hk, .inr hm⟩

/-- Only the marks count. -/
theorem KeptWithin.heldAfter_right {s₀ : Machine} {o : Nat → Prop} (w : KeptWithin o s s') :
    heldAfter owned s₀ s' = heldAfter owned s₀ s := by
  funext k
  unfold heldAfter
  rw [w.marks k]

theorem KeptWithin.heldAfter_left {s'' : Machine} {o : Nat → Prop} (w : KeptWithin o s s') :
    heldAfter owned s' s'' = heldAfter owned s s'' := by
  funext k
  unfold heldAfter
  rw [w.marks k]

/-- From `s` to `s'` the `n` frames behind the lowest free one were marked, and no other. -/
def TookRun (s s' : Machine) (n : Nat) : Prop :=
  ∃ f, (∀ k < f, pageUsed s k = true) ∧ (∀ k, f ≤ k → k < f + n → pageUsed s k = false) ∧
    ∀ k, MarkedUsed s' k ↔ MarkedUsed s k ∨ f ≤ k ∧ k < f + n

theorem TakesFrames.tookRun (tf : TakesFrames s s' f n) (hpmm : PmmOk s) : TookRun s s' n := by
  refine ⟨f, tf.lowest, tf.was_free, fun k => ⟨fun hk => ?_, ?_⟩⟩
  · by_cases hold : MarkedUsed s k
    · exact .inl hold
    · exact .inr (mem_of_newly_marked tf.bitmap tf.bits hold hk)
  · rintro (hk | hk)
    · exact tf.marked hk
    · exact tf.taken hpmm hk.1 hk.2

theorem TookRun.within {o : Nat → Prop} {s'' : Machine} (tr : TookRun s s' n)
    (w : KeptWithin o s' s'') : TookRun s s'' n := by
  obtain ⟨f, hlow, hfree, hmarks⟩ := tr
  exact ⟨f, hlow, hfree, fun k => (w.marks k).trans (hmarks k)⟩

theorem TakesFrames.spares (tf : TakesFrames s s' f n) (owned : Nat → Prop) :
    Spares owned s s' where
  bitmap := tf.bitmap
  highest := tf.high
  marked hk _ := tf.marked hk
  bytes hk _ hx := tf.kept _ (fun hr => tf.not_marked hr.1 hr.2 hk) hx

theorem GivesFrames.spares (gf : GivesFrames s s' f n) (hin : ∀ k, f ≤ k → k < f + n → owned k) :
    Spares owned s s' where
  bitmap := gf.bitmap
  highest := gf.high
  marked hk ho := gf.marked _ (fun hr => ho (hin _ hr.1 hr.2)) hk
  bytes _ _ hx := gf.kept _ hx

/-- What `liballoc_alloc` hands the heap: pages of the window, apart from its runs. -/
theorem TakesFrames.apart_runs (tf : TakesFrames s s' f n) (fr : HeapFrames s owned A) (hn : 1 ≤ n)
    (hwin : ∀ {b q}, A b = some q → MMAP_IO_BASE ≤ q.base) {b : Nat} {q : Piece}
    (hb : A b = some q) :
    Apart (f * PAGE_SIZE + MMAP_IO_BASE) (n * PAGE_SIZE) q.base q.len := by
  by_contra hmeet
  obtain ⟨hbase, hlen, hcount⟩ := fr.aligned hb
  have hlow := hwin hb
  have hw := window_aligned
  -- the higher of the two first frames is in both runs
  have hshared : ∃ k, f ≤ k ∧ k < f + n ∧ InRun q k := by
    unfold Apart at hmeet
    unfold InRun
    simp only [PAGE_SIZE, L_PAGE_COUNT, L_PAGE_SIZE] at *
    refine ⟨max f ((q.base - MMAP_IO_BASE) / 4096), ?_⟩
    omega
  obtain ⟨k, h1, h2, hk⟩ := hshared
  exact tf.not_marked h1 h2 (fr.marked ((fr.owned_iff k).mpr ⟨b, q, hb, hk⟩))

/-- The frames of the heap with a new run. -/
theorem TakesFrames.place (tf : TakesFrames s s' f n) (fr : HeapFrames s owned A)
    (hn : L_PAGE_COUNT ≤ n) (hnone : A (f * PAGE_SIZE + MMAP_IO_BASE) = none) :
    HeapFrames s' (heldAfter owned s s')
      (A.place (f * PAGE_SIZE + MMAP_IO_BASE) (n * PAGE_SIZE)) := by
  have hw := window_aligned
  have hcases : ∀ {b q}, A.place (f * PAGE_SIZE + MMAP_IO_BASE) (n * PAGE_SIZE) b = some q →
      q = ⟨n * PAGE_SIZE, 0, 0, f * PAGE_SIZE + MMAP_IO_BASE, n * PAGE_SIZE, none⟩ ∨
      A b = some q := by
    intro b q hb
    by_cases hba : b = f * PAGE_SIZE + MMAP_IO_BASE
    · rw [hba, Arena.place_self] at hb
      exact .inl (Option.some.inj hb).symm
    · rw [Arena.place_ne A _ hba] at hb
      exact .inr hb
  have hnew : ∀ k, InRun ⟨n * PAGE_SIZE, 0, 0, f * PAGE_SIZE + MMAP_IO_BASE, n * PAGE_SIZE, none⟩ k
      ↔ f ≤ k ∧ k < f + n := by
    intro k
    simp only [InRun, PAGE_SIZE]
    omega
  refine ⟨?_, fun k => ?_, fun hk => hk.1, ?_, tf.pmmOk fr.pmm, ?_⟩
  · intro b q hb
    rcases hcases hb with rfl | hb
    · simp only [PAGE_SIZE, L_PAGE_COUNT, L_PAGE_SIZE] at *
      omega
    · exact fr.aligned hb
  · rw [tf.heldAfter_iff fr, fr.owned_iff]
    constructor
    · rintro (⟨b, q, hb, hk⟩ | hk)
      · have hba : b ≠ f * PAGE_SIZE + MMAP_IO_BASE := by
          rintro rfl
          rw [hnone] at hb
          cases hb
        exact ⟨b, q, (Arena.place_ne A _ hba).trans hb, hk⟩
      · exact ⟨_, _, Arena.place_self A _ _, (hnew k).mpr hk⟩
    · rintro ⟨b, q, hb, hk⟩
      rcases hcases hb with rfl | hb
      · exact .inr ((hnew k).mp hk)
      · exact .inl ⟨b, q, hb, hk⟩
  · intro x hx
    unfold InBitmap
    rw [tf.bitmap]
    rcases (tf.heldAfter_iff fr _).mp hx with ho | hk
    · exact fr.apart ho
    · exact tf.apart fr.pmm hk.1 hk.2
  · rw [tf.high]
    exact fr.direct

/-- What the hook returns when the frame allocator finds pages. -/
theorem liballocAlloc_run (fr : HeapFrames s owned A) (hpages : 1 ≤ pages) (hlt : pages < 2 ^ 31)
    (hrun : RunFree s pages) :
    ∃ f s', liballocAlloc s (toInt pages) = (f * PAGE_SIZE + MMAP_IO_BASE, s') ∧
      TakesFrames s s' f pages ∧ f * PAGE_SIZE + MMAP_IO_BASE + pages * PAGE_SIZE < 2 ^ 64 := by
  have hsize : toSize (toInt pages) = pages := by
    have hnat := toSize_of_nonneg (i := (pages : Int)) (by omega) (by omega)
    rw [toInt_of_lt hlt]
    exact_mod_cast hnat
  obtain ⟨f, hf, tf⟩ := pmmAllocateZero_run fr.pmm hpages hrun
  have hbelow := tf.below
  have hdirect := fr.direct
  have hlast : f * PAGE_SIZE + MMAP_IO_BASE + pages * PAGE_SIZE < 2 ^ 64 := by
    simp only [PAGE_SIZE, MMAP_IO_BASE] at hbelow ⊢
    omega
  refine ⟨f, _, ?_, tf, hlast⟩
  rw [liballocAlloc, hsize, hf, Nat.mod_eq_of_lt (by omega)]

/-- **`allocate_new_tag`** adds a run of its own to the heap. -/
theorem HeapCore.grow (c : HeapCore h owned A L) (hreq : Request size)
    (hrun : RunFree h.machine (newTagPages size)) :
    ∃ a h' p A', allocateNewTag h size = (a, h') ∧ a ≠ 0 ∧ A a = none ∧
      A' a = some p ∧ p.list = none ∧ p.right = 0 ∧ size + TAG_SIZE ≤ p.size ∧
      HeapCore h' (heldAfter owned h.machine h'.machine) A' L ∧ Move (· = a) h h' A A' ∧
      Spares owned h.machine h'.machine ∧
      TookRun h.machine h'.machine (newTagPages size) := by
  obtain ⟨hcount, hfit, hlen⟩ := newTagPages_spec hreq
  have hpage : L_PAGE_SIZE = PAGE_SIZE := rfl
  have hio : 0 < MMAP_IO_BASE := by decide
  have hpos : 1 ≤ newTagPages size := (by decide : 1 ≤ L_PAGE_COUNT).trans hcount
  have heq := allocateNewTag_eq h size
  generalize newTagPages size = pages at *
  have hlt : pages < 2 ^ 31 := by
    rw [hpage, PAGE_SIZE] at hlen
    omega
  obtain ⟨f, s', halloc, tf, hhigh⟩ := liballocAlloc_run c.frames hpos hlt hrun
  have hwin : ∀ {b q}, A b = some q → MMAP_IO_BASE ≤ q.base := fun hb => (c.shape.window hb).1
  have hapart : ∀ {b q}, A b = some q → Apart (f * PAGE_SIZE + MMAP_IO_BASE) (pages * PAGE_SIZE)
      q.base q.len := fun hb => tf.apart_runs c.frames hpos hwin hb
  have hnone : A (f * PAGE_SIZE + MMAP_IO_BASE) = none := by
    refine c.shape.tiled.none_of_apart tag_size_pos (n := pages * PAGE_SIZE) ?_ hapart
    rw [hpage] at hfit
    have := tag_size_pos
    omega
  -- the pages first, then the tag
  obtain ⟨c₁, m₁⟩ := c.undisturbed (tf.undisturbed c.frames)
  have fr₁ := tf.place c.frames hcount hnone
  rw [halloc] at heq
  dsimp only at heq
  rw [if_neg (by omega)] at heq
  have hlow : MMAP_IO_BASE ≤ f * PAGE_SIZE + MMAP_IO_BASE := Nat.le_add_left _ _
  generalize f * PAGE_SIZE + MMAP_IO_BASE = a at *
  generalize hh₁ : ({ h with machine := s' } : LibAlloc) = h₁ at *
  have hs' : h₁.machine = s' := by rw [← hh₁]
  obtain ⟨sh₂, e₂⟩ := c₁.shape.place hapart hlow hhigh hlen hfit
  rw [← hs'] at fr₁
  have hframes := fr₁.edit sh₂ (SameRuns.refl _) e₂
  have hheld : heldAfter owned h.machine (writeNewTag h₁ a size pages).machine
      = heldAfter owned h.machine h₁.machine := hframes.2.heldAfter_right
  have hself := Arena.place_self A a (pages * PAGE_SIZE)
  have hplace : ∀ {b q}, b ≠ a → (A.place a (pages * PAGE_SIZE) b = some q ↔ A b = some q) :=
    fun hba => by rw [Arena.place_ne A _ hba]
  refine ⟨a, _, _, _, heq, by omega, hnone, hself, rfl, rfl, hfit,
    ⟨sh₂, ⟨c₁.books.coalesced.place, ?_, fun i => ?_, fun i => ?_⟩, hheld ▸ hframes.1⟩,
    (m₁.mono fun _ hf => hf.elim).trans (Move.of_edit e₂ (fun {b n} hba => ?_)
      (fun {b n} hba hu => ?_) fun {b n x} hba hu h1 h2 => ?_),
    ((hs' ▸ tf.spares owned :) : Spares owned h.machine h₁.machine).trans hframes.2.spares,
    ((hs' ▸ tf.tookRun c.frames.pmm :) : TookRun h.machine h₁.machine pages).within hframes.2⟩
  · intro b q i hb hi
    by_cases hba : b = a
    · rw [hba, hself] at hb
      cases hb
      cases hi
    · exact c₁.books.placed ((hplace hba).mp hb) hi
  · have hsame : (L i).countP (wholeAt (A.place a (pages * PAGE_SIZE)))
        = (L i).countP (wholeAt A) := by
      refine List.countP_congr fun b hb => ?_
      have hba : b ≠ a := by
        rintro rfl
        obtain ⟨q, hq, -⟩ := c₁.shape.members.mp hb
        rw [hnone] at hq
        cases hq
      unfold wholeAt
      rw [Arena.place_ne A _ hba]
    rw [writeNewTag_completePages, c₁.books.counted, hsame]
  · rw [writeNewTag_completePages]
    exact c₁.books.few i
  · unfold Used
    simp only [hplace hba]
  · obtain ⟨q, hq, hrest⟩ := hu
    refine ⟨⟨q, (hplace hba).mpr hq⟩, ?_⟩
    simp [TagTable.fresh, show b ≠ a from hba]
  · obtain ⟨q, hq, hrest⟩ := hu
    exact sh₂.used_outside ⟨q, (hplace hba).mpr hq, hrest⟩ h1 h2

end BestOS
