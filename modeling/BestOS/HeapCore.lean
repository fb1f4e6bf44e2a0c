/-
BestOS/HeapCore.lean

The invariant of the kernel heap, and what each part of `malloc` and `free` does to
it.

`HeapCore h owned A L` ties three things together: the arena in memory (`HeapShape`),
the book-keeping of `alloc.c` (free pieces are coalesced and on the list of their
size, `l_completePages` counts the whole runs on a list), and the frames `owned` that
the heap has from the frame allocator, which are exactly those of its runs and are
marked used.
-/
import BestOS.HeapShape
import BestOS.Frames

namespace BestOS

open ByteMemory BlockHeap BoundaryTags LinkedList

/-- Frame `k` belongs to the run of a piece. -/
def InRun (p : Piece) (k : Nat) : Prop :=
  p.base ≤ k * PAGE_SIZE + MMAP_IO_BASE ∧ k * PAGE_SIZE + MMAP_IO_BASE < p.base + p.len

/-- Byte `x` belongs to the piece at `a`. -/
def InPiece (a : Nat) (p : Piece) (x : Nat) : Prop :=
  a ≤ x + MMAP_IO_BASE ∧ x + MMAP_IO_BASE < a + p.size

/-- Byte `x` belongs to it, and not to its tag. -/
def Payload (a : Nat) (p : Piece) (x : Nat) : Prop :=
  a + TAG_SIZE ≤ x + MMAP_IO_BASE ∧ x + MMAP_IO_BASE < a + p.size

/-- The runs of an arena are whole pages, and its frames are those the heap owns. -/
structure HeapFrames (s : Machine) (owned : Nat → Prop) (A : Arena) : Prop where
  aligned : ∀ {a p}, A a = some p →
    p.base % PAGE_SIZE = 0 ∧ p.len % PAGE_SIZE = 0 ∧ L_PAGE_COUNT * L_PAGE_SIZE ≤ p.len
  owned_iff : ∀ k, owned k ↔ ∃ a p, A a = some p ∧ InRun p k
  marked : ∀ {k}, owned k → MarkedUsed s k
  apart : ∀ {x}, owned (x / PAGE_SIZE) → ¬ InBitmap s x
  pmm : PmmOk s
  direct : s.highestPage < 2 ^ 47

/-- A free piece that is a whole run, as `l_completePages` counts them. -/
def wholeAt (A : Arena) (a : Nat) : Bool := (A a).any fun p => decide (Arena.Whole p)

/-- The book-keeping of `alloc.c`. -/
structure HeapBooks (h : LibAlloc) (A : Arena) (L : Nat → List Nat) : Prop where
  coalesced : A.Coalesced
  placed : Shelved A
  counted : ∀ i, h.completePages i = ((L i).countP (wholeAt A) : Nat)
  few : ∀ i, h.completePages i ≤ MAXCOMPLETE

structure HeapCore (h : LibAlloc) (owned : Nat → Prop) (A : Arena) (L : Nat → List Nat) : Prop where
  shape : HeapShape h A L
  books : HeapBooks h A L
  frames : HeapFrames h.machine owned A

variable {h h' : LibAlloc} {s s' : Machine} {owned : Nat → Prop} {A A' : Arena}
  {L : Nat → List Nat} {a b i : Nat} {p q : Piece} {t : TagTable}

/-! ### Bytes of pieces -/

theorem window_aligned : MMAP_IO_BASE % PAGE_SIZE = 0 := by decide

/-- The frame of a byte of a piece is one of its run. -/
theorem inRun_of_inPiece (ok : A.Tiled TAG_SIZE) (ha : A a = some p)
    (hal : p.base % PAGE_SIZE = 0) {x : Nat} (hx : InPiece a p x) : InRun p (x / PAGE_SIZE) := by
  have hin := ok.inside ha
  have hw := window_aligned
  obtain ⟨h1, h2⟩ := hx
  unfold InRun
  simp only [PAGE_SIZE] at hal hw ⊢
  omega

namespace HeapCore

theorem owned_of_inPiece (c : HeapCore h owned A L) (ha : A a = some p) {x : Nat}
    (hx : InPiece a p x) : owned (x / PAGE_SIZE) :=
  (c.frames.owned_iff _).mpr
    ⟨a, p, ha, inRun_of_inPiece c.shape.tiled ha (c.frames.aligned ha).1 hx⟩

end HeapCore

/-- A byte of a tag, as an address of physical memory. -/
theorem inPiece_of_tag (sh : HeapShape h A L) (ha : A a = some p) {x : Nat}
    (h1 : physical a ≤ x) (h2 : x < physical a + TAG_SIZE) : InPiece a p x := by
  have hw := sh.inWindow ha
  have hroom := (sh.tiled.room ha).2
  rw [physical_eq hw.1 (by omega)] at h1 h2
  unfold InPiece
  omega

/-- What lies behind the tag of a piece is in no tag. -/
theorem Payload.outside (sh : HeapShape h A L) (ha : A a = some p) {x : Nat}
    (hx : Payload a p x) : OutsideTags (tagsOf A) x := by
  rintro b ⟨q, hb⟩
  have hwa := sh.inWindow ha
  have hwb := sh.inWindow hb
  have hroom := (sh.tiled.room hb).2
  obtain ⟨h1, h2⟩ := hx
  rw [physical_eq hwb.1 (by omega)]
  by_cases hba : b = a
  · subst hba
    right
    omega
  · rcases sh.tiled.apart ha hb (Ne.symm hba) with hle | hle
    · left
      omega
    · right
      omega

/-! ### Changes that keep the frames -/

/-- The same frames belong to the runs of both arenas. -/
structure SameRuns (A A' : Arena) : Prop where
  forth : ∀ {a p}, A a = some p → ∃ b q, A' b = some q ∧ q.base = p.base ∧ q.len = p.len
  back : ∀ {a p}, A' a = some p → ∃ b q, A b = some q ∧ q.base = p.base ∧ q.len = p.len

theorem SameRuns.refl (A : Arena) : SameRuns A A :=
  ⟨fun ha => ⟨_, _, ha, rfl, rfl⟩, fun ha => ⟨_, _, ha, rfl, rfl⟩⟩

theorem SameRuns.trans {A'' : Arena} (r : SameRuns A A') (r' : SameRuns A' A'') :
    SameRuns A A'' where
  forth ha := by
    obtain ⟨b, q, hb, h1, h2⟩ := r.forth ha
    obtain ⟨c, q', hc, h1', h2'⟩ := r'.forth hb
    exact ⟨c, q', hc, h1'.trans h1, h2'.trans h2⟩
  back ha := by
    obtain ⟨b, q, hb, h1, h2⟩ := r'.back ha
    obtain ⟨c, q', hc, h1', h2'⟩ := r.back hb
    exact ⟨c, q', hc, h1'.trans h1, h2'.trans h2⟩

theorem sameRuns_relist (A : Arena) (a : Nat) (l : Option Nat) : SameRuns A (A.relist a l) where
  forth ha := ⟨_, _, Arena.relist_of ha, rfl, rfl⟩
  back ha := by
    obtain ⟨q, hq, rfl⟩ := Arena.relist_cases ha
    exact ⟨_, q, hq, rfl, rfl⟩

theorem sameRuns_split (ha : A a = some p) {n : Nat} (hn : 0 < n)
    (hnew : A (a + n) = none) : SameRuns A (A.split a n p) where
  forth {b q} hb := by
    by_cases hba : b = a
    · subst hba
      rw [ha] at hb
      cases hb
      exact ⟨_, _, Arena.split_self A b hn p, rfl, rfl⟩
    · have hbn : b ≠ a + n := by
        rintro rfl
        rw [hnew] at hb
        cases hb
      exact ⟨_, _, Arena.split_of hba hbn hb, rfl, rfl⟩
  back hb := by
    rcases Arena.split_cases hb with ⟨rfl, rfl⟩ | ⟨rfl, rfl⟩ | ⟨-, -, q₀, hq, rfl⟩
    · exact ⟨a, p, ha, rfl, rfl⟩
    · exact ⟨_, p, ha, rfl, rfl⟩
    · exact ⟨_, q₀, hq, rfl, rfl⟩

theorem sameRuns_join (ok : A.Tiled TAG_SIZE) (ha : A a = some p) (hb : A p.right = some q) :
    SameRuns A (A.join a p q) where
  forth {c r} hc := by
    by_cases hca : c = a
    · subst hca
      rw [ha] at hc
      cases hc
      exact ⟨_, _, Arena.join_self A c p q, rfl, rfl⟩
    · by_cases hcr : c = p.right
      · subst hcr
        rw [hb] at hc
        cases hc
        obtain ⟨q', hq', -, -, hbase, hlen⟩ := ok.right ha (ok.room hb).1
        rw [hb] at hq'
        cases hq'
        exact ⟨_, _, Arena.join_self A a p q, hbase.symm, hlen.symm⟩
      · exact ⟨_, _, Arena.join_of hca hcr hc, rfl, rfl⟩
  back hc := by
    rcases Arena.join_cases hc with ⟨rfl, rfl⟩ | ⟨-, -, r₀, hr, rfl⟩
    · exact ⟨_, p, ha, rfl, rfl⟩
    · exact ⟨_, r₀, hr, rfl, rfl⟩

/-- Marks survive a step that leaves the bitmap alone. -/
theorem markedUsed_iff_of_bitmap (hb : s'.bitmap = s.bitmap)
    (hm : ∀ x, InBitmap s x → s'.mem x = s.mem x) (k : Nat) :
    MarkedUsed s' k ↔ MarkedUsed s k := by
  unfold MarkedUsed
  rw [hb]
  refine and_congr_right fun hk => ?_
  rw [pageUsed_congr hb hm hk]

/-- From `s` to `s'` no mark has changed, and no byte outside the frames `owned`. -/
structure KeptWithin (owned : Nat → Prop) (s s' : Machine) : Prop where
  bitmap : s'.bitmap = s.bitmap
  highest : s'.highestPage = s.highestPage
  marks : ∀ k, MarkedUsed s' k ↔ MarkedUsed s k
  bytes : ∀ {x}, ¬ owned (x / PAGE_SIZE) → s'.mem x = s.mem x

theorem KeptWithin.refl (owned : Nat → Prop) (s : Machine) : KeptWithin owned s s :=
  ⟨rfl, rfl, fun _ => Iff.rfl, fun _ => rfl⟩

theorem KeptWithin.trans {s'' : Machine} (w : KeptWithin owned s s') (w' : KeptWithin owned s' s'') :
    KeptWithin owned s s'' :=
  ⟨w'.bitmap.trans w.bitmap, w'.highest.trans w.highest, fun k => (w'.marks k).trans (w.marks k),
    fun hx => (w'.bytes hx).trans (w.bytes hx)⟩

/-- Writing tags in owned frames keeps the frames of the heap. -/
theorem HeapFrames.edit_of {S : Set Nat} (f : HeapFrames h.machine owned A)
    (hruns : SameRuns A A') (e : Edit S h h' t)
    (hS : ∀ a ∈ S, ∀ x, physical a ≤ x → x < physical a + TAG_SIZE → owned (x / PAGE_SIZE)) :
    HeapFrames h'.machine owned A' ∧ KeptWithin owned h.machine h'.machine := by
  -- the bitmap is in none of the owned frames
  have hkept : ∀ x, InBitmap h.machine x → h'.machine.mem x = h.machine.mem x := by
    intro x hx
    refine e.kept x fun a ha => ?_
    by_contra hne
    exact f.apart (hS a ha x (by omega) (by omega)) hx
  have hmarks := markedUsed_iff_of_bitmap e.bitmap hkept
  refine ⟨⟨?_, fun k => ?_, fun hk => (hmarks _).mpr (f.marked hk), fun hk => ?_, ?_, ?_⟩,
    ⟨e.bitmap, e.highest, hmarks, fun {x} hx => e.kept x fun a ha => ?_⟩⟩
  · intro a p ha
    obtain ⟨b, q, hb, h1, h2⟩ := hruns.back ha
    rw [← h1, ← h2]
    exact f.aligned hb
  · rw [f.owned_iff]
    constructor
    · rintro ⟨a, p, ha, hk⟩
      obtain ⟨b, q, hb, h1, h2⟩ := hruns.forth ha
      exact ⟨b, q, hb, by rwa [InRun, h1, h2]⟩
    · rintro ⟨a, p, ha, hk⟩
      obtain ⟨b, q, hb, h1, h2⟩ := hruns.back ha
      exact ⟨b, q, hb, by rwa [InRun, h1, h2]⟩
  · simpa only [InBitmap, e.bitmap] using f.apart hk
  · exact f.pmm.kept e.highest e.bitmap fun hk => (hmarks _).mpr hk
  · rw [e.highest]
    exact f.direct
  · by_contra hne
    exact hx (hS a ha x (by omega) (by omega))

/-- The tags of an arena are in its runs. -/
theorem HeapFrames.tag_owned (f : HeapFrames s owned A) (sh : HeapShape h A L) :
    ∀ a ∈ tagsOf A, ∀ x, physical a ≤ x → x < physical a + TAG_SIZE → owned (x / PAGE_SIZE) := by
  rintro a ⟨p, hp⟩ x h1 h2
  exact (f.owned_iff _).mpr
    ⟨a, p, hp, inRun_of_inPiece sh.tiled hp (f.aligned hp).1 (inPiece_of_tag sh hp h1 h2)⟩

/-- The tags written are those of the arena that comes out. -/
theorem HeapFrames.edit (f : HeapFrames h.machine owned A) (sh : HeapShape h' A' L)
    (hruns : SameRuns A A') (e : Edit (tagsOf A') h h' t) :
    HeapFrames h'.machine owned A' ∧ KeptWithin owned h.machine h'.machine := by
  refine f.edit_of hruns e ?_
  rintro a ⟨p, hp⟩ x h1 h2
  obtain ⟨b, q, hb, hbase, hlen⟩ := hruns.back hp
  have hal : p.base % PAGE_SIZE = 0 := hbase ▸ (f.aligned hb).1
  have hrun := inRun_of_inPiece sh.tiled hp hal (inPiece_of_tag sh hp h1 h2)
  rw [InRun, ← hbase, ← hlen] at hrun
  exact (f.owned_iff _).mpr ⟨b, q, hb, hrun⟩

/-- The tags written are those of the arena that was there. -/
theorem HeapFrames.edit_old (f : HeapFrames h.machine owned A) (sh : HeapShape h A L)
    (hruns : SameRuns A A') (e : Edit (tagsOf A) h h' t) :
    HeapFrames h'.machine owned A' ∧ KeptWithin owned h.machine h'.machine :=
  f.edit_of hruns e (f.tag_owned sh)

end BestOS
