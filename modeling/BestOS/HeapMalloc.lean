/-
BestOS/HeapMalloc.lean

`malloc` as a whole.

The search follows a list of tags that does not go round, so it ends
(`findTag_returns`), with a tag that is large enough or with NULL; then the tag is taken
off its list, or a new run is cut (`HeapCore.malloc`).  `Granted` is what the client gets:
a block that was not in use, of the size it asked for, with every other block in use left
as it was.
-/
import BestOS.HeapReturn

namespace BestOS

open ByteMemory BlockHeap BoundaryTags LinkedList Fuel

variable {h h' : LibAlloc} {s s' : Machine} {owned : Nat → Prop} {A A' : Arena}
  {L L' : Nat → List Nat} {a b i j n f size : Nat} {p q : Piece}

/-! ### The search -/

theorem findTag_along (sh : HeapShape h A L) (hreq : Request size) :
    ∀ {l : List Nat} {before : Nat},
      Linked (fun a => h.get a .next) (fun a => h.get a .prev) before l → (∀ b ∈ l, b ∈ L i) →
      ∃ r, Returns (fun fuel => findTag h size fuel (l.headD 0)) r ∧
        (r = 0 ∨ ∃ p, A r = some p ∧ p.list = some i ∧ size + TAG_SIZE ≤ p.size - TAG_SIZE)
  | [], _, _, _ => ⟨0, Returns.now fun fuel => by rw [List.headD_nil, findTag, if_pos rfl], .inl rfl⟩
  | b :: l, _, hlinked, hmem => by
      obtain ⟨hb0, -, hlink, hrest⟩ := hlinked
      have hnext : h.get b .next = l.headD 0 := hlink
      obtain ⟨p, hp, hpi⟩ := sh.members.mp (hmem b (by simp))
      have hin := sh.inWindow hp
      have hroom := (sh.tiled.room hp).2
      have hpage : L_PAGE_SIZE = 4096 := rfl
      unfold Request at hreq
      have hsize : (p.size + 2 ^ 64 - TAG_SIZE) % 2 ^ 64 = p.size - TAG_SIZE := by omega
      have hwant : (size + TAG_SIZE) % 2 ^ 64 = size + TAG_SIZE := by omega
      by_cases hfit : p.size - TAG_SIZE ≥ size + TAG_SIZE
      · refine ⟨b, Returns.now fun fuel => ?_, .inr ⟨p, hp, hpi, hfit⟩⟩
        rw [List.headD_cons, findTag, if_neg hb0, (sh.tags hp).realSize, hsize, hwant, if_pos hfit]
      · obtain ⟨r, hr, hres⟩ := findTag_along sh hreq hrest fun c hc => hmem c (by simp [hc])
        refine ⟨r, hr.step fun fuel => ?_, hres⟩
        rw [List.headD_cons, findTag, if_neg hb0, (sh.tags hp).realSize, hsize, hwant, if_neg hfit,
          hnext]

/-- **The search ends**, with a tag of the list that is large enough or with NULL. -/
theorem findTag_returns (sh : HeapShape h A L) (hreq : Request size) (i : Nat) :
    ∃ r, Returns (fun fuel => findTag h size fuel (h.freePages i)) r ∧
      (r = 0 ∨ ∃ p, A r = some p ∧ p.list = some i ∧ size + TAG_SIZE ≤ p.size - TAG_SIZE) := by
  rw [sh.heads i]
  exact findTag_along sh hreq (sh.linked i) fun b hb => hb

/-! ### `malloc` -/

theorem HeapShape.pointer (sh : HeapShape h A L) (ha : A a = some p) :
    (a + TAG_SIZE) % 2 ^ 64 = a + TAG_SIZE := by
  have hin := sh.inWindow ha
  have hroom := (sh.tiled.room ha).2
  omega

theorem malloc_found {fuel r : Nat}
    (hf : findTag (liballocInit h) size fuel ((liballocInit h).freePages (listIndex size)) = some r)
    (hr : r ≠ 0) :
    malloc fuel h size = some (useTag (takeTag (liballocInit h) r (listIndex size)) size r) := by
  rw [malloc_eq, hf]
  cases r with
  | zero => exact absurd rfl hr
  | succ r => rfl

theorem malloc_grown {fuel r : Nat} {h₁ : LibAlloc}
    (hf : findTag (liballocInit h) size fuel ((liballocInit h).freePages (listIndex size)) = some 0)
    (hnew : allocateNewTag (liballocInit h) size = (r, h₁)) (hr : r ≠ 0) :
    malloc fuel h size = some (useTag h₁ size r) := by
  rw [malloc_eq, hf, hnew]
  exact congrArg some (if_neg hr)

theorem useTag_eq (hptr : (a + TAG_SIZE) % 2 ^ 64 = a + TAG_SIZE) :
    useTag h size a = (a + TAG_SIZE, (useTag h size a).2) := by
  have hfst := (useTag_fst h size a).trans hptr
  generalize useTag h size a = r at hfst ⊢
  rw [← hfst]

/-- The frame allocator can help out when the list has no tag that is large enough. -/
def Room (h : LibAlloc) (size : Nat) : Prop :=
  ∀ fuel, findTag (liballocInit h) size fuel ((liballocInit h).freePages (listIndex size)) = some 0 →
    RunFree h.machine (newTagPages size)

/-- A block of `size` bytes behind the tag at `a`, new to the client. -/
structure Granted (a size : Nat) (h h' : LibAlloc) (A A' : Arena) : Prop where
  fresh : ∀ n, ¬ Used A a n
  block : ∃ n, Used A' a n ∧ size + TAG_SIZE ≤ n
  size_eq : h'.get a .size = size
  used : ∀ {b n}, b ≠ a → (Used A' b n ↔ Used A b n)
  sizes : ∀ {b n}, Used A b n → h'.get b .size = h.get b .size
  payload : ∀ {b n x}, Used A b n → b + TAG_SIZE ≤ x + MMAP_IO_BASE →
    x + MMAP_IO_BASE < b + n → h'.machine.mem x = h.machine.mem x
  initialized : h'.initialized = h.initialized

theorem Move.granted (mv : Move (· = a) h h' A A') (hfresh : ∀ n, ¬ Used A a n)
    (hblock : ∃ n, Used A' a n ∧ size + TAG_SIZE ≤ n) (hsize : h'.get a .size = size) :
    Granted a size h h' A A' where
  fresh := hfresh
  block := hblock
  size_eq := hsize
  used := mv.used
  sizes hu := mv.sizes (fun he => hfresh _ (he ▸ hu)) hu
  payload hu := mv.payload (fun he => hfresh _ (he ▸ hu)) hu
  initialized := mv.initialized

/-- **`malloc`** on a heap that is set up. -/
theorem HeapCore.malloc (c : HeapCore h owned A L) (hinit : h.initialized = true)
    (hreq : Request size) (hroom : Room h size) :
    ∃ a h' A' L', Returns (fun fuel => malloc fuel h size) (a + TAG_SIZE, h') ∧
      HeapCore h' (heldAfter owned h.machine h'.machine) A' L' ∧ Granted a size h h' A A' ∧
      Spares owned h.machine h'.machine ∧ ((∀ k, MarkedUsed h'.machine k ↔ MarkedUsed h.machine k) ∨
        TookRun h.machine h'.machine (newTagPages size)) := by
  have hready : liballocInit h = h := by
    rw [liballocInit, if_pos hinit]
  obtain ⟨r, hfind, hr⟩ := findTag_returns c.shape hreq (listIndex size)
  rcases hr with rfl | ⟨p, ha, hl, hfit⟩
  · -- a new run
    obtain ⟨fuel₀, hfuel₀⟩ := hfind.exists
    have hrun : RunFree h.machine (newTagPages size) := hroom fuel₀ (by rw [hready]; exact hfuel₀)
    obtain ⟨a, h₁, p, A₁, heq, ha0, hnone, ha₁, hl₁, hright, hfit, c₁, m₁, sp, tr⟩ := c.grow hreq hrun
    obtain ⟨A₂, L₂, n, c₂, m₂, hm₂, hu₂, hn₂, hs₂⟩ := c₁.use ha₁ hl₁ (fun q hq => by
      rw [hright, c₁.shape.tiled.null] at hq
      cases hq) hfit
    have hheld : heldAfter owned h.machine (useTag h₁ size a).2.machine
        = heldAfter owned h.machine h₁.machine := hm₂.heldAfter_right
    have hptr := c₁.shape.pointer ha₁
    refine ⟨a, (useTag h₁ size a).2, A₂, L₂, ?_, by rw [hheld]; exact c₂,
      (m₁.trans m₂).granted ?_ ⟨n, hu₂, hn₂⟩ hs₂, sp.trans hm₂.spares, .inr (tr.within hm₂)⟩
    · refine hfind.mono fun fuel hf => ?_
      rw [← useTag_eq hptr]
      exact malloc_grown (by rw [hready]; exact hf) (by rw [hready]; exact heq) ha0
    · rintro m ⟨q, hq, -⟩
      rw [hnone] at hq
      cases hq
  · -- a tag of the list
    have ha0 := (c.shape.tiled.room ha).1
    obtain ⟨c₁, m₁, hm₁⟩ := c.take ha hl
    have hne := c.shape.tiled.right_ne_self tag_size_pos ha
    obtain ⟨A₂, L₂, n, c₂, m₂, hm₂, hu₂, hn₂, hs₂⟩ := c₁.use (Arena.relist_same none ha) rfl
      (fun q hq => by
        rw [Arena.relist_ne none hne] at hq
        rcases c.books.coalesced ha hq with hn | hn
        · rw [hl] at hn
          cases hn
        · exact hn) (show size + TAG_SIZE ≤ p.size by omega)
    have hptr := c.shape.pointer ha
    have hm := KeptWithin.trans hm₁ hm₂
    refine ⟨r, _, A₂, L₂, ?_, by rwa [c.frames.heldAfter_eq hm], (m₁.trans m₂).granted
      (not_used_of_list ha (by rw [hl]; exact Option.some_ne_none _)) ⟨n, hu₂, hn₂⟩ hs₂,
      hm.spares, .inl hm.marks⟩
    refine hfind.mono fun fuel hf => ?_
    rw [← useTag_eq hptr]
    have hfound := malloc_found (by rw [hready]; exact hf) ha0
    rwa [hready] at hfound

end BestOS
