/-
BestOS/PageTable.lean

Page tables refine a partial function on pages.

The invariant `PageMaps s roots shared` ties the page tables below a set of
top-level tables to the frame allocator:

* the bitmap covers memory and lies in frames marked used (`PmmOk`);
* the tables form a forest in the sense of `BestOS/RadixForest.lean`;
* every table is a frame marked used that does not overlap the bitmap;
* a present entry above the last level carries nothing but a frame address and
  bits 0 to 8, so that the kernel (`& ~0x1ff`) and the hardware (bits 12 to
  51) follow it to the same table.

One lemma says what `get_next_level` does under it (`getNextLevel_spec`).  The
three calls of a descent then compose, and `vmm_map` and `vmm_unmap` are one
`Forest.write` each: exactly one page changes its translation.

A set of roots, rather than one, is what the tasks need: their upper halves
share the kernel's tables (`shared`).
-/
import BestOS.Frames
import BestOS.Vmm

namespace BestOS

open ByteMemory RadixForest

/-! ### The invariant -/

/-- A frame that holds a page table. -/
structure TableFrame (s : Machine) (t : Nat) : Prop where
  aligned : t % PAGE_SIZE = 0
  used : MarkedUsed s (t / PAGE_SIZE)
  apart : ∀ a, t ≤ a → a < t + PAGE_SIZE → ¬ InBitmap s a

/-- The entry carries nothing but a frame address and bits 0 to 8: the kernel's
mask and the hardware's select the same table. -/
def PlainEntry (e : Nat) : Prop := e &&& not64 0x1ff = frameOf e

/-- The page tables below `roots`; slots in `shared` of the top level hold the
same tables in all of them. -/
structure PageMaps (s : Machine) (roots : Set Nat) (shared : Fin 512 → Prop) : Prop where
  pmm : PmmOk s
  forest : Forest (child s.mem) roots shared 3
  frames : ∀ t, Table (child s.mem) roots 3 t → TableFrame s t
  plain : ∀ t, Table (child s.mem) roots 2 t → ∀ i : Fin 512, entry s.mem t i % 2 = 1 →
    PlainEntry (entry s.mem t i)

/-- What an operation on the page tables leaves alone: it takes at most `n`
frames, lowest first; only free frames become tables, and no table goes away;
frames in use that are neither tables nor the bitmap keep their bytes. -/
structure Grows (s s' : Machine) (roots : Set Nat) (n : Nat) : Prop where
  bitmap : s'.bitmap = s.bitmap
  high : s'.highestPage = s.highestPage
  used : ∀ k, MarkedUsed s k → MarkedUsed s' k
  below : ∀ k, ¬ MarkedUsed s k → MarkedUsed s' k → k < s.highestPage / PAGE_SIZE
  upward : Upward s → Upward s'
  free : freeCount s ≤ freeCount s' + n
  tables : ∀ t, Table (child s'.mem) roots 3 t →
    Table (child s.mem) roots 3 t ∨ ¬ MarkedUsed s (t / PAGE_SIZE)
  walks : ∀ r ∈ roots, ∀ (p : List (Fin 512)) (t : Nat), p.length ≤ 3 →
    walk (child s.mem) r p = some t → walk (child s'.mem) r p = some t
  data : ∀ a, MarkedUsed s (a / PAGE_SIZE) →
    ¬ Table (child s.mem) roots 3 (a / PAGE_SIZE * PAGE_SIZE) → ¬ InBitmap s a →
    s'.mem a = s.mem a

/-- No lookup of full depth changes. -/
def SameLookups (s s' : Machine) (roots : Set Nat) : Prop :=
  ∀ r ∈ roots, ∀ q : List (Fin 512), q.length = 4 →
    walk (child s'.mem) r q = walk (child s.mem) r q

theorem Grows.refl (s : Machine) (roots : Set Nat) (n : Nat) : Grows s s roots n where
  bitmap := rfl
  high := rfl
  used := fun _ h => h
  below := fun _ hn h => absurd h hn
  upward := fun h => h
  free := by omega
  tables := fun _ h => .inl h
  walks := fun _ _ _ _ _ h => h
  data := fun _ _ _ _ => rfl

theorem Grows.trans {s₁ s₂ s₃ : Machine} {roots : Set Nat} {n₁ n₂ : Nat}
    (h₁ : Grows s₁ s₂ roots n₁) (h₂ : Grows s₂ s₃ roots n₂) : Grows s₁ s₃ roots (n₁ + n₂) where
  bitmap := h₂.bitmap.trans h₁.bitmap
  high := h₂.high.trans h₁.high
  used := fun k hk => h₂.used k (h₁.used k hk)
  below := by
    intro k hn hk
    by_cases hmid : MarkedUsed s₂ k
    · exact h₁.below k hn hmid
    · rw [← h₁.high]
      exact h₂.below k hmid hk
  upward := fun h => h₂.upward (h₁.upward h)
  free := by
    have := h₁.free
    have := h₂.free
    omega
  tables := by
    intro t ht
    rcases h₂.tables t ht with ht | hfree
    · exact h₁.tables t ht
    · exact .inr fun hu => hfree (h₁.used _ hu)
  walks := fun r hr p t hp hw => h₂.walks r hr p t hp (h₁.walks r hr p t hp hw)
  data := by
    intro a hu hnt hnb
    -- a table of `s₂` is one of `s₁`, or its frame was free then
    have hnt₂ : ¬ Table (child s₂.mem) roots 3 (a / PAGE_SIZE * PAGE_SIZE) := by
      intro ht
      rcases h₁.tables _ ht with ht | hfree
      · exact hnt ht
      · rw [Nat.mul_div_cancel _ (by decide)] at hfree
        exact hfree hu
    have hnb₂ : ¬ InBitmap s₂ a := by simpa only [InBitmap, h₁.bitmap] using hnb
    rw [h₂.data a (h₁.used _ hu) hnt₂ hnb₂, h₁.data a hu hnt hnb]

theorem Grows.mono {s s' : Machine} {roots : Set Nat} {n n' : Nat} (h : Grows s s' roots n)
    (hn : n ≤ n') : Grows s s' roots n' :=
  { h with free := h.free.trans (Nat.add_le_add_left hn _) }

/-! ### One level of the descent -/

/-- How many of the tables along a path are missing. -/
def missing (m : Mem) : Nat → List (Fin 512) → Nat
  | _, [] => 0
  | t, i :: is =>
      match child m t i with
      | none => is.length + 1
      | some t' => missing m t' is

theorem missing_le (m : Mem) (t : Nat) (is : List (Fin 512)) : missing m t is ≤ is.length := by
  induction is generalizing t with
  | nil => simp [missing]
  | cons i is ih =>
      rw [missing]
      rcases child m t i with - | t'
      · simp
      · exact (ih t').trans (by simp)

/-- Below an empty table everything is missing. -/
theorem missing_of_empty {m : Mem} {t : Nat} (h : ∀ j, child m t j = none)
    (is : List (Fin 512)) : missing m t is = is.length := by
  cases is with
  | nil => rfl
  | cons i is => simp [missing, h i]

/-- A frame address with flags below bit 9, as an entry. -/
theorem plain_frame_entry {f flags : Nat} (hf : f * PAGE_SIZE < 2 ^ 52) (hfl : flags < 512) :
    f * PAGE_SIZE ||| flags = f * PAGE_SIZE + flags ∧
    (f * PAGE_SIZE + flags) &&& not64 0x1ff = f * PAGE_SIZE ∧
    frameOf (f * PAGE_SIZE + flags) = f * PAGE_SIZE := by
  have hmask : not64 0x1ff = 2 ^ 64 - 2 ^ 9 := by decide
  have hor : f * PAGE_SIZE ||| flags = f * PAGE_SIZE + flags :=
    BitMask.or_flags (k := 12) (Nat.mul_mod_left f PAGE_SIZE) (by omega)
  refine ⟨hor, ?_, ?_⟩
  · rw [hmask, BitMask.and_field_mask (by decide)]
    simp only [PAGE_SIZE] at hf ⊢
    omega
  · rw [frameOf_eq]
    simp only [PAGE_SIZE] at hf ⊢
    omega

/-- `get_next_level` on a present entry changes nothing. -/
theorem getNextLevel_present {s : Machine} {t flags : Nat} {i : Fin 512}
    (h : entry s.mem t i % 2 = 1) :
    getNextLevel s t i flags = (entry s.mem t i &&& not64 0x1ff, s) := by
  have hbit : ¬ entry s.mem t i &&& 1 = 0 := by rw [Nat.and_one_is_mod]; omega
  simp only [getNextLevel, if_neg hbit]

theorem getNextLevel_eq_absent {s : Machine} {t flags f : Nat} {i : Fin 512}
    (h : ¬ entry s.mem t i % 2 = 1) (haddr : (pmmAllocateZero s 1).1 = f * PAGE_SIZE)
    (hf52 : f * PAGE_SIZE < 2 ^ 52) (hfl : flags < 512) :
    getNextLevel s t i flags = (f * PAGE_SIZE,
      { (pmmAllocateZero s 1).2 with
        mem := setEntry (setEntry (pmmAllocateZero s 1).2.mem t i (f * PAGE_SIZE)) t i
          (f * PAGE_SIZE + flags) }) := by
  have hbit : entry s.mem t i &&& 1 = 0 := by rw [Nat.and_one_is_mod]; omega
  obtain ⟨hor, hmask, -⟩ := plain_frame_entry hf52 hfl
  unfold getNextLevel
  rw [if_pos hbit]
  dsimp only
  rw [haddr]
  generalize (pmmAllocateZero s 1).2 = s₁
  rw [entry_setEntry_same s₁.mem t i (show f * PAGE_SIZE < 2 ^ 64 by omega), hor,
    entry_setEntry_same _ t i (show f * PAGE_SIZE + flags < 2 ^ 64 by omega), hmask]

/-- The state after `get_next_level` has hung frame `f` into slot `(t, i)`. -/
structure HangsFrame (s s' : Machine) (f t : Nat) (i : Fin 512) (flags : Nat) : Prop where
  below : f < s.highestPage / PAGE_SIZE
  was_free : pageUsed s f = false
  lowest : ∀ k < f, pageUsed s k = true
  bitmap : s'.bitmap = s.bitmap
  high : s'.highestPage = s.highestPage
  bits : ∀ k < 8 * s.bitmap.size,
    pageUsed s' k = (pageUsed s k || decide (f ≤ k ∧ k < f + 1))
  slot : entry s'.mem t i = f * PAGE_SIZE + flags
  others : ∀ t', TableFrame s t' → ∀ j : Fin 512, ¬ (t' = t ∧ j = i) →
    entry s'.mem t' j = entry s.mem t' j
  empty : ∀ j : Fin 512, entry s'.mem (f * PAGE_SIZE) j = 0
  kept : ∀ a, a / PAGE_SIZE ≠ f → a / PAGE_SIZE ≠ t / PAGE_SIZE → ¬ InBitmap s a →
    s'.mem a = s.mem a

/-- The entries of a cleared frame. -/
theorem entry_eq_zero {m : Mem} {f : Nat} (h : ∀ a, a / PAGE_SIZE = f → m a = 0#8) (i : Fin 512) :
    entry m (f * PAGE_SIZE) i = 0 := by
  have hi := i.isLt
  refine readLE_zero fun a h1 h2 => h a ((page_eq_iff a f).mpr ?_)
  simp only [PAGE_SIZE] at h1 h2 ⊢
  omega

theorem hangsFrame {s s₁ : Machine} {f t flags : Nat} {i : Fin 512} (htake : TakesFrames s s₁ f 1)
    (ht : TableFrame s t) (hf : f * PAGE_SIZE < 2 ^ 52) (hfl : flags < 512) :
    HangsFrame s { s₁ with
      mem := setEntry (setEntry s₁.mem t i (f * PAGE_SIZE)) t i (f * PAGE_SIZE + flags) }
      f t i flags := by
  -- no table is in the frame taken, which was free
  have hne : ∀ {t'}, TableFrame s t' → t' / PAGE_SIZE ≠ f := by
    rintro t' ht' rfl
    exact htake.not_marked (Nat.le_refl _) (Nat.lt_succ_self _) ht'.used
  have hout : ∀ a, a < t ∨ t + PAGE_SIZE ≤ a →
      setEntry (setEntry s₁.mem t i (f * PAGE_SIZE)) t i (f * PAGE_SIZE + flags) a = s₁.mem a := by
    intro a ha
    rw [setEntry_agree _ _ _ _ ha, setEntry_agree _ _ _ _ ha]
  refine ⟨htake.below, htake.was_free f (Nat.le_refl f) (Nat.lt_succ_self f), htake.lowest,
    htake.bitmap, htake.high, ?_, ?_, ?_, ?_, ?_⟩
  · -- the slot is in a table, and no table is in the bitmap
    intro k hk
    rw [← htake.bits k hk]
    refine pageUsed_congr (s := s₁) (by rfl) ?_ (by rwa [htake.bitmap])
    intro a ha
    refine hout a ?_
    have hna := ht.apart a
    simp only [InBitmap, htake.bitmap] at ha hna
    by_contra hin
    exact hna (by omega) (by omega) ha
  · exact entry_setEntry_same _ _ _ (by omega)
  · intro t' ht' j hj
    dsimp only
    rw [entry_setEntry_ne _ ht.aligned ht'.aligned _ hj,
      entry_setEntry_ne _ ht.aligned ht'.aligned _ hj]
    refine entry_congr j fun a h1 h2 => htake.kept a ?_ (ht'.apart a h1 h2)
    rw [page_of_mem_frame ht'.aligned h1 h2]
    have := hne ht'
    omega
  · intro j
    refine entry_eq_zero (fun a hpage => ?_) j
    dsimp only
    rw [hout a (outside_frame ht.aligned (by rw [hpage]; exact (hne ht).symm)),
      htake.zeroed a (by omega)]
  · intro a h1 h2 h3
    dsimp only
    rw [hout a (outside_frame ht.aligned h2), htake.kept a (by omega) h3]

/-- `get_next_level` on an absent entry takes a frame and hangs it into the
slot. -/
theorem getNextLevel_absent {s : Machine} {t flags : Nat} {i : Fin 512}
    (h : ¬ entry s.mem t i % 2 = 1) (ht : TableFrame s t) (hpmm : PmmOk s)
    (hfree : 1 ≤ freeCount s) (hfl : flags < 512) :
    ∃ f, f * PAGE_SIZE < 2 ^ 52 ∧ (getNextLevel s t i flags).1 = f * PAGE_SIZE ∧
      HangsFrame s (getNextLevel s t i flags).2 f t i flags := by
  obtain ⟨f, haddr, htake⟩ := pmmAllocateZero_run hpmm (Nat.le_refl 1) (runFree_one hpmm hfree)
  have hf52 : f * PAGE_SIZE < 2 ^ 52 := by
    have := htake.end_le hpmm
    simp only [PAGE_SIZE] at this ⊢
    omega
  refine ⟨f, hf52, ?_⟩
  rw [getNextLevel_eq_absent h haddr hf52 hfl]
  exact ⟨rfl, hangsFrame htake ht hf52 hfl⟩

theorem HangsFrame.marked {s s' : Machine} {f t flags : Nat} {i : Fin 512}
    (h : HangsFrame s s' f t i flags) {k : Nat} (hk : MarkedUsed s k) : MarkedUsed s' k := by
  refine ⟨by rw [h.bitmap]; exact hk.1, ?_⟩
  rw [h.bits k hk.1, hk.2, Bool.true_or]

theorem HangsFrame.below_of_marked {s s' : Machine} {f t flags : Nat} {i : Fin 512}
    (h : HangsFrame s s' f t i flags) {k : Nat} (hn : ¬ MarkedUsed s k) (hk : MarkedUsed s' k) :
    k < s.highestPage / PAGE_SIZE := by
  have hnew := mem_of_newly_marked h.bitmap h.bits hn hk
  have := h.below
  omega

theorem HangsFrame.tableFrame {s s' : Machine} {f t flags : Nat} {i : Fin 512}
    (h : HangsFrame s s' f t i flags) {t' : Nat} (ht : TableFrame s t') : TableFrame s' t' where
  aligned := ht.aligned
  used := h.marked ht.used
  apart := by simpa only [InBitmap, h.bitmap] using ht.apart

theorem HangsFrame.pmmOk {s s' : Machine} {f t flags : Nat} {i : Fin 512}
    (h : HangsFrame s s' f t i flags) (hpmm : PmmOk s) : PmmOk s' :=
  hpmm.kept h.high h.bitmap h.marked

/-- The fresh frame is a table frame afterwards. -/
theorem HangsFrame.fresh {s s' : Machine} {f t flags : Nat} {i : Fin 512}
    (h : HangsFrame s s' f t i flags) (hpmm : PmmOk s) : TableFrame s' (f * PAGE_SIZE) where
  aligned := Nat.mul_mod_left _ _
  used := by
    have hf8 : f < 8 * s.bitmap.size := Nat.lt_of_lt_of_le h.below hpmm.covers
    rw [Nat.mul_div_cancel f (by decide)]
    refine ⟨by rw [h.bitmap]; exact hf8, ?_⟩
    rw [h.bits f hf8]
    simp
  apart := by
    intro a h1 h2 ha
    have ha' : InBitmap s a := by simpa only [InBitmap, h.bitmap] using ha
    have hu := (hpmm.stored a ha').2
    rw [(page_eq_iff a f).mpr ⟨h1, h2⟩, h.was_free] at hu
    cases hu

/-- One frame less in the pool, one table more, and no byte in use changed. -/
theorem HangsFrame.grows {s s' : Machine} {f t flags : Nat} {i : Fin 512}
    (hang : HangsFrame s s' f t i flags) {roots : Set Nat} {shared : Fin 512 → Prop}
    (h : PageMaps s roots shared) (ht : Table (child s.mem) roots 3 t)
    (htabs : ∀ t', Table (child s'.mem) roots 3 t' →
      Table (child s.mem) roots 3 t' ∨ t' = f * PAGE_SIZE)
    (hkept : ∀ r ∈ roots, ∀ (p : List (Fin 512)) (t' : Nat), p.length ≤ 3 →
      walk (child s.mem) r p = some t' → walk (child s'.mem) r p = some t') :
    Grows s s' roots 1 := by
  have hcov := h.pmm.covers
  have hbits : ∀ k < s.highestPage / PAGE_SIZE,
      pageUsed s' k = (pageUsed s k || decide (f ≤ k ∧ k < f + 1)) :=
    fun k hk => hang.bits k (by omega)
  have hfree : ¬ MarkedUsed s f := fun hu => by
    have := hu.2
    rw [hang.was_free] at this
    cases this
  refine ⟨hang.bitmap, hang.high, fun k => hang.marked, fun k => hang.below_of_marked,
    fun hup => hup.mark hang.high hang.lowest hbits, ?_, ?_, hkept, ?_⟩
  · have hmark := freeCount_mark hang.high hang.below (fun k h1 h2 => by
      obtain rfl : k = f := by omega
      exact hang.was_free) hbits
    omega
  · intro t' ht'
    rcases htabs t' ht' with hold | rfl
    · exact .inl hold
    · rw [Nat.mul_div_cancel f (by decide)]
      exact .inr hfree
  · -- a byte in use is not in the new frame, and a byte of no table is not in `t`
    intro a hu hnt hnb
    refine hang.kept a ?_ ?_ hnb
    · intro e
      rw [e] at hu
      exact hfree hu
    · intro e
      apply hnt
      rw [e, Nat.div_mul_cancel (Nat.dvd_of_mod_eq_zero (h.frames t ht).aligned)]
      exact ht

/-- **One level of the descent.**  `get_next_level` returns the table the slot
leads to, creating it if need be; no translation changes. -/
theorem getNextLevel_spec {s : Machine} {roots : Set Nat} {shared : Fin 512 → Prop}
    (h : PageMaps s roots shared) {r t : Nat} (hr : r ∈ roots) {p : List (Fin 512)}
    (hp : p.length < 3) (hw : walk (child s.mem) r p = some t) (i : Fin 512) {flags : Nat}
    (hfl : flags = 0b11 ∨ flags = 0b111)
    (hfree : child s.mem t i = none → 1 ≤ freeCount s)
    (htop : child s.mem t i = none → p = [] → shared i → ∀ r' ∈ roots, r' = r) :
    PageMaps (getNextLevel s t i flags).2 roots shared ∧
      walk (child (getNextLevel s t i flags).2.mem) r (p ++ [i])
        = some (getNextLevel s t i flags).1 ∧
      SameLookups s (getNextLevel s t i flags).2 roots ∧
      ∃ n, Grows s (getNextLevel s t i flags).2 roots n ∧
        ∀ is, missing s.mem t (i :: is) = n +
          missing (getNextLevel s t i flags).2.mem (getNextLevel s t i flags).1 is := by
  have htable : TableFrame s t := h.frames t ⟨r, hr, p, by omega, hw⟩
  by_cases hpres : entry s.mem t i % 2 = 1
  · -- the table exists; its entry is plain, so both masks agree
    have hplain := h.plain t ⟨r, hr, p, by omega, hw⟩ i hpres
    have hchild : child s.mem t i = some (entry s.mem t i &&& not64 0x1ff) := by
      rw [child, if_pos hpres, hplain]
    rw [getNextLevel_present hpres]
    refine ⟨h, by rw [walk_snoc hw, hchild], fun _ _ _ _ => rfl, 0, Grows.refl _ _ _, fun is => ?_⟩
    rw [missing, hchild, Nat.zero_add]
  · -- a frame is hung in: the forest grows by one table, which is a leaf
    have hempty : child s.mem t i = none := by rw [child, if_neg hpres]
    obtain ⟨f, hf52, hret, hang⟩ :=
      getNextLevel_absent hpres htable h.pmm (hfree hempty) (show flags < 512 by omega)
    rw [hret]
    generalize (getNextLevel s t i flags).2 = s' at hang ⊢
    -- the slot leads to the new frame, which is zero
    have hnew : child s'.mem t i = some (f * PAGE_SIZE) := by
      have hodd : (f * PAGE_SIZE + flags) % 2 = 1 := by
        simp only [PAGE_SIZE]
        omega
      rw [child, hang.slot, if_pos hodd,
        (plain_frame_entry hf52 (show flags < 512 by omega)).2.2]
    have hleaf : ∀ j, child s'.mem (f * PAGE_SIZE) j = none := by
      intro j
      exact child_eq_none (hang.empty j)
    have hsame : SameExcept (child s.mem) (child s'.mem) roots 3 t i := by
      intro t' ht' j
      by_cases hslot : t' = t ∧ j = i
      · exact .inl hslot
      · exact .inr (child_congr (hang.others t' (h.frames t' ht') j hslot))
    -- it was free, so it is no table yet
    have hfresh : ¬ Table (child s.mem) roots 3 (f * PAGE_SIZE) := by
      intro ht
      have hu := (h.frames _ ht).used.2
      rw [Nat.mul_div_cancel f (by decide), hang.was_free] at hu
      cases hu
    obtain ⟨hforest, hwalk, hfull, htables, hkept⟩ :=
      h.forest.extend hsame hr hp hw hempty hnew hleaf hfresh (htop hempty)
    have htabs : ∀ d ≤ 3, ∀ t', Table (child s'.mem) roots d t' →
        Table (child s.mem) roots d t' ∨ t' = f * PAGE_SIZE := by
      rintro d hd t' ⟨r', hr', q, hq, hwq⟩
      rcases htables r' hr' q t' (by omega) hwq with hold | ⟨e, -, -⟩
      · exact .inl ⟨r', hr', q, hq, hold⟩
      · exact .inr e
    refine ⟨⟨hang.pmmOk h.pmm, hforest, ?_, ?_⟩, hwalk, hfull, 1, ?_, fun is => ?_⟩
    · intro t' ht'
      rcases htabs 3 (by omega) t' ht' with hold | rfl
      · exact hang.tableFrame (h.frames t' hold)
      · exact hang.fresh h.pmm
    · intro t' ht' j hj
      rcases htabs 2 (by omega) t' ht' with hold | rfl
      · by_cases hslot : t' = t ∧ j = i
        · obtain ⟨rfl, rfl⟩ := hslot
          rw [PlainEntry, hang.slot]
          obtain ⟨-, h1, h2⟩ := plain_frame_entry hf52 (show flags < 512 by omega)
          rw [h1, h2]
        · obtain ⟨r', hr', q, hq, hwq⟩ := hold
          have e := hang.others t' (h.frames t' ⟨r', hr', q, by omega, hwq⟩) j hslot
          rw [e] at hj ⊢
          exact h.plain t' ⟨r', hr', q, hq, hwq⟩ j hj
      · rw [hang.empty j] at hj
        cases hj
    · exact hang.grows h ⟨r, hr, p, by omega, hw⟩ (htabs 3 (Nat.le_refl 3)) hkept
    · rw [missing, hempty, missing_of_empty hleaf, Nat.add_comm]

/-! ### The whole descent -/

/-- `get_next_level` along a list of indices. -/
def descend (s : Machine) (t flags : Nat) : List (Fin 512) → Nat × Machine
  | [] => (t, s)
  | i :: is =>
      let r := getNextLevel s t i flags
      descend r.2 r.1 flags is

theorem getPml1_eq (s : Machine) (pagemap va flags : Nat) :
    getPml1 s pagemap va flags
      = descend s pagemap flags [index va 39, index va 30, index va 21] := by
  simp only [getPml1, descend, pmlEntry_eq]

/-- The descent reaches the table at the end of the path, provided the frames
for the missing tables are there. -/
theorem descend_spec {s : Machine} {roots : Set Nat} {shared : Fin 512 → Prop}
    (h : PageMaps s roots shared) {r t : Nat} (hr : r ∈ roots) {flags : Nat}
    (hfl : flags = 0b11 ∨ flags = 0b111) {p is : List (Fin 512)} (hp : p.length + is.length ≤ 3)
    (hw : walk (child s.mem) r p = some t) (hfree : missing s.mem t is ≤ freeCount s)
    (htop : ∀ i, is.head? = some i → child s.mem t i = none → p = [] → shared i →
      ∀ r' ∈ roots, r' = r) :
    PageMaps (descend s t flags is).2 roots shared ∧
      walk (child (descend s t flags is).2.mem) r (p ++ is) = some (descend s t flags is).1 ∧
      SameLookups s (descend s t flags is).2 roots ∧
      Grows s (descend s t flags is).2 roots (missing s.mem t is) := by
  induction is generalizing s t p with
  | nil => exact ⟨h, by simpa [descend] using hw, fun _ _ _ _ => rfl, Grows.refl _ _ _⟩
  | cons i is ih =>
      simp only [List.length_cons] at hp
      have hone : child s.mem t i = none → 1 ≤ freeCount s := by
        intro hnone
        rw [missing, hnone] at hfree
        exact Nat.le_trans (Nat.succ_le_succ (Nat.zero_le _)) hfree
      obtain ⟨hinv, hwalk, hsame, n, hgrow, hmiss⟩ :=
        getNextLevel_spec h hr (by omega) hw i hfl hone (htop i rfl)
      have hfree' := hgrow.free
      rw [hmiss is] at hfree ⊢
      obtain ⟨hinv', hwalk', hsame', hgrow'⟩ := ih hinv (by simp; omega) hwalk (by omega) (by simp)
      refine ⟨hinv', ?_, fun r' hr' q hq => ?_, hgrow.trans hgrow'⟩
      · simpa [descend] using hwalk'
      · exact (hsame' r' hr' q hq).trans (hsame r' hr' q hq)

/-! ### Writing the last level -/

/-- What an entry of the last level translates to. -/
def leafOf (e : Nat) : Option Nat := if e % 2 = 1 then some (frameOf e) else none

theorem setLeaf_spec {s : Machine} {roots : Set Nat} {shared : Fin 512 → Prop}
    (h : PageMaps s roots shared) {r t : Nat} (hr : r ∈ roots) {p : List (Fin 512)}
    (hp : p.length = 3) (hw : walk (child s.mem) r p = some t) (i : Fin 512) {v : Nat}
    (hv : v < 2 ^ 64) :
    PageMaps { s with mem := setEntry s.mem t i v } roots shared ∧
      Grows s { s with mem := setEntry s.mem t i v } roots 0 ∧
      ∀ r' ∈ roots, ∀ q : List (Fin 512), q.length = 4 →
        (¬ Through r p i shared r' q →
          walk (child (setEntry s.mem t i v)) r' q = walk (child s.mem) r' q) ∧
        (Through r p i shared r' q → walk (child (setEntry s.mem t i v)) r' q = leafOf v) := by
  have htable : TableFrame s t := h.frames t ⟨r, hr, p, by omega, hw⟩
  have hother : ∀ t', TableFrame s t' → ∀ j : Fin 512, ¬ (t' = t ∧ j = i) →
      entry (setEntry s.mem t i v) t' j = entry s.mem t' j := fun t' ht' j hj =>
    entry_setEntry_ne _ htable.aligned ht'.aligned _ hj
  have hsame : SameExcept (child s.mem) (child (setEntry s.mem t i v)) roots 3 t i := by
    intro t' ht' j
    by_cases hslot : t' = t ∧ j = i
    · exact .inl hslot
    · exact .inr (child_congr (hother t' (h.frames t' ht') j hslot))
  have hleaf : child (setEntry s.mem t i v) t i = leafOf v := by
    rw [child, entry_setEntry_same _ _ _ hv, leafOf]
  obtain ⟨hforest, hshort, hfull⟩ := h.forest.write hsame hr hp (by decide) hw
  have htabs : ∀ d ≤ 3, ∀ t', Table (child (setEntry s.mem t i v)) roots d t' →
      Table (child s.mem) roots d t' := by
    rintro d hd t' ⟨r', hr', q, hq, hwq⟩
    exact ⟨r', hr', q, hq, by rw [← hshort r' hr' q (by omega)]; exact hwq⟩
  -- the write stays out of the bitmap
  have hbits : ∀ k, k < 8 * s.bitmap.size →
      pageUsed { s with mem := setEntry s.mem t i v } k = pageUsed s k := by
    intro k hk
    refine pageUsed_congr (s := s) (by rfl) (fun a ha => ?_) hk
    refine setEntry_agree _ _ _ _ ?_
    by_contra hin
    exact htable.apart a (by omega) (by omega) ha
  have hused : ∀ k, MarkedUsed { s with mem := setEntry s.mem t i v } k ↔ MarkedUsed s k :=
    fun k => and_congr_right fun hk => by rw [hbits k hk]
  have hmark : ∀ k, MarkedUsed s k → MarkedUsed { s with mem := setEntry s.mem t i v } k :=
    fun k => (hused k).mpr
  obtain ⟨hcount, hupward⟩ :
      freeCount { s with mem := setEntry s.mem t i v } = freeCount s ∧
        (Upward s → Upward { s with mem := setEntry s.mem t i v }) :=
    pool_congr h.pmm rfl rfl hused
  refine ⟨⟨⟨h.pmm.high, h.pmm.covers, ?_⟩, hforest, ?_, ?_⟩,
    ⟨rfl, rfl, hmark, ?_, hupward, Nat.le_of_eq hcount.symm, ?_, ?_, ?_⟩, ?_⟩
  · exact fun a ha => hmark _ (h.pmm.stored a ha)
  · intro t' ht'
    have ht := h.frames t' (htabs 3 (by omega) t' ht')
    exact ⟨ht.aligned, hmark _ ht.used, ht.apart⟩
  · intro t' ht' j hj
    obtain ⟨r', hr', q, hq, hwq⟩ := htabs 2 (by omega) t' ht'
    -- a table of the upper levels is not the one written to
    have hne : t' ≠ t := by
      rintro rfl
      obtain ⟨e, -⟩ := h.forest.inj r hr r' hr' p q t' (by omega) (by omega) hw hwq
      rw [← e] at hq
      omega
    have e := hother t' (h.frames t' ⟨r', hr', q, by omega, hwq⟩) j fun hs => hne hs.1
    dsimp only at hj ⊢
    rw [e] at hj ⊢
    exact h.plain t' ⟨r', hr', q, hq, hwq⟩ j hj
  · intro k hn hk
    exact absurd ((hused k).mp hk) hn
  · exact fun t' ht' => .inl (htabs 3 (by omega) t' ht')
  · intro r' hr' q t' hq hwq
    exact (hshort r' hr' q hq).trans hwq
  · -- the write stays in `t`, which is a table
    intro a _ hnt _
    refine setEntry_agree _ _ _ _ (outside_frame htable.aligned fun e => hnt ?_)
    rw [e, Nat.div_mul_cancel (Nat.dvd_of_mod_eq_zero htable.aligned)]
    exact ⟨r, hr, p, by omega, hw⟩
  · intro r' hr' q hq
    obtain ⟨hkeep, hset⟩ := hfull r' hr' q hq
    exact ⟨hkeep, fun hth => (hset hth).trans hleaf⟩

/-! ### `vmm_map` and `vmm_unmap` -/

/-- The three upper indices of an address. -/
def tablePath (va : Nat) : List (Fin 512) := [index va 39, index va 30, index va 21]

/-- **Writing one page.**  The page of `va` gets the new entry, in `r` and in
every page map that shares its top-level slot; every other page of every page
map keeps its translation. -/
theorem writePml1_spec {s : Machine} {roots : Set Nat} {shared : Fin 512 → Prop}
    (h : PageMaps s roots shared) {r : Nat} (hr : r ∈ roots) (va : Nat) {flags v : Nat}
    (hfl : flags = 0b11 ∨ flags = 0b111) (hv : v < 2 ^ 64)
    (hfree : missing s.mem r (tablePath va) ≤ freeCount s)
    (htop : child s.mem r (index va 39) = none → shared (index va 39) → ∀ r' ∈ roots, r' = r) :
    PageMaps (writePml1 s r va flags v) roots shared ∧
      Grows s (writePml1 s r va flags v) roots (missing s.mem r (tablePath va)) ∧
      ∀ r' ∈ roots, ∀ va',
        (vaPage va' = vaPage va ∧ (r = r' ∨ shared (index va 39)) →
          translate (writePml1 s r va flags v).mem r' va' = leafOf v) ∧
        (¬ (vaPage va' = vaPage va ∧ (r = r' ∨ shared (index va 39))) →
          translate (writePml1 s r va flags v).mem r' va' = translate s.mem r' va') := by
  obtain ⟨hinv, hwalk, hsame, hgrow⟩ := descend_spec h hr hfl (p := [])
    (show [].length + (tablePath va).length ≤ 3 by simp [tablePath]) rfl hfree (by
      intro i hi hnone _ hsh
      obtain rfl : index va 39 = i := by simpa [tablePath] using hi
      exact htop hnone hsh)
  obtain ⟨hinv', hgrow', hlook⟩ := setLeaf_spec hinv hr (by simp [tablePath]) hwalk (index va 12) hv
  have heq : writePml1 s r va flags v
      = { (descend s r flags (tablePath va)).2 with
          mem := setEntry (descend s r flags (tablePath va)).2.mem
            (descend s r flags (tablePath va)).1 (index va 12) v } := by
    simp only [writePml1, getPml1_eq, pmlEntry_eq, tablePath]
  -- the slot is on the way to `va'` when the pages agree
  have hthrough : ∀ r' va', Through r ([] ++ tablePath va) (index va 12) shared r' (vaPath va') ↔
      vaPage va' = vaPage va ∧ (r = r' ∨ shared (index va 39)) := by
    intro r' va'
    rw [← vaPath_eq_iff]
    constructor
    · rintro ⟨hroot, t, ht⟩
      have hnil : t = [] := by
        have := congrArg List.length ht
        simp only [vaPath, tablePath, List.nil_append, List.length_append, List.length_cons,
          List.length_nil] at this
        exact List.length_eq_zero_iff.mp (by omega)
      subst hnil
      refine ⟨ht, hroot.imp_right ?_⟩
      rintro ⟨i, q, hq, hi⟩
      obtain ⟨rfl, -⟩ : index va 39 = i ∧ _ := by simpa [tablePath] using hq
      exact hi
    · rintro ⟨hpath, hroot⟩
      exact ⟨hroot.imp_right fun hi => ⟨_, _, rfl, hi⟩, [], hpath⟩
  rw [heq]
  refine ⟨hinv', by simpa using hgrow.trans hgrow', fun r' hr' va' => ?_⟩
  obtain ⟨hkeep, hset⟩ := hlook r' hr' (vaPath va') rfl
  rw [hthrough] at hkeep hset
  exact ⟨hset, fun hn => (hkeep hn).trans (hsame r' hr' (vaPath va') rfl)⟩

/-! ### What is not written -/

/-- Nothing has changed but the bitmap and what is a table now. -/
def TablesOnly (s s' : Machine) (roots : Set Nat) : Prop :=
  ∀ a, ¬ InBitmap s a → ¬ Table (child s'.mem) roots 3 (a / PAGE_SIZE * PAGE_SIZE) →
    s'.mem a = s.mem a

theorem TablesOnly.trans {s₁ s₂ s₃ : Machine} {roots : Set Nat} {n₁ n₂ : Nat}
    (h₁ : TablesOnly s₁ s₂ roots) (hg₁ : Grows s₁ s₂ roots n₁) (h₂ : TablesOnly s₂ s₃ roots)
    (hg₂ : Grows s₂ s₃ roots n₂) : TablesOnly s₁ s₃ roots := by
  intro a hb hnt
  have hb₂ : ¬ InBitmap s₂ a := by simpa only [InBitmap, hg₁.bitmap] using hb
  rw [h₂ a hb₂ hnt, h₁ a hb]
  -- a table stays one
  rintro ⟨r, hr, p, hp, hw⟩
  exact hnt ⟨r, hr, p, hp, hg₂.walks r hr p _ hp hw⟩

theorem table_of_page {m : Mem} {roots : Set Nat} {t a : Nat} (ht : Table (child m) roots 3 t)
    (hal : t % PAGE_SIZE = 0) (hpage : a / PAGE_SIZE = t / PAGE_SIZE) :
    Table (child m) roots 3 (a / PAGE_SIZE * PAGE_SIZE) := by
  rw [hpage, Nat.div_mul_cancel (Nat.dvd_of_mod_eq_zero hal)]
  exact ht

/-- A level of the descent writes to its table, and to the frame it hangs in. -/
theorem getNextLevel_tablesOnly {s : Machine} {roots : Set Nat} {shared : Fin 512 → Prop}
    (h : PageMaps s roots shared) {r t : Nat} (hr : r ∈ roots) {p : List (Fin 512)}
    (hp : p.length < 3) (hw : walk (child s.mem) r p = some t) (i : Fin 512) {flags : Nat}
    (hfl : flags = 0b11 ∨ flags = 0b111)
    (hfree : child s.mem t i = none → 1 ≤ freeCount s)
    (htop : child s.mem t i = none → p = [] → shared i → ∀ r' ∈ roots, r' = r) :
    TablesOnly s (getNextLevel s t i flags).2 roots := by
  obtain ⟨-, hwalk, -, n, hgrow, -⟩ := getNextLevel_spec h hr hp hw i hfl hfree htop
  have htable : TableFrame s t := h.frames t ⟨r, hr, p, by omega, hw⟩
  by_cases hpres : entry s.mem t i % 2 = 1
  · rw [getNextLevel_present hpres]
    exact fun _ _ _ => rfl
  · have hempty : child s.mem t i = none := by rw [child, if_neg hpres]
    obtain ⟨f, -, hret, hang⟩ :=
      getNextLevel_absent hpres htable h.pmm (hfree hempty) (show flags < 512 by omega)
    rw [hret] at hwalk
    refine fun a hb hnt => hang.kept a (fun heq => hnt ?_) (fun heq => hnt ?_) hb
    · rw [heq]
      exact ⟨r, hr, p ++ [i], by simp; omega, hwalk⟩
    · exact table_of_page ⟨r, hr, p, by omega, hgrow.walks r hr p t (by omega) hw⟩ htable.aligned heq

theorem descend_tablesOnly {s : Machine} {roots : Set Nat} {shared : Fin 512 → Prop}
    (h : PageMaps s roots shared) {r t : Nat} (hr : r ∈ roots) {flags : Nat}
    (hfl : flags = 0b11 ∨ flags = 0b111) {p is : List (Fin 512)} (hp : p.length + is.length ≤ 3)
    (hw : walk (child s.mem) r p = some t) (hfree : missing s.mem t is ≤ freeCount s)
    (htop : ∀ i, is.head? = some i → child s.mem t i = none → p = [] → shared i →
      ∀ r' ∈ roots, r' = r) :
    TablesOnly s (descend s t flags is).2 roots := by
  induction is generalizing s t p with
  | nil => exact fun _ _ _ => rfl
  | cons i is ih =>
      simp only [List.length_cons] at hp
      have hone : child s.mem t i = none → 1 ≤ freeCount s := by
        intro hnone
        rw [missing, hnone] at hfree
        exact Nat.le_trans (Nat.succ_le_succ (Nat.zero_le _)) hfree
      obtain ⟨hinv, hwalk, -, n, hgrow, hmiss⟩ :=
        getNextLevel_spec h hr (by omega) hw i hfl hone (htop i rfl)
      have hfirst := getNextLevel_tablesOnly h hr (by omega) hw i hfl hone (htop i rfl)
      have hfree' := hgrow.free
      rw [hmiss is] at hfree
      have hlen : (p ++ [i]).length + is.length ≤ 3 := by
        simp
        omega
      have hrest := descend_spec hinv hr hfl hlen hwalk (by omega) (by simp)
      exact hfirst.trans hgrow (ih hinv hlen hwalk (by omega) (by simp)) hrest.2.2.2

/-- Writing one page stays in the bitmap and the tables. -/
theorem writePml1_tablesOnly {s : Machine} {roots : Set Nat} {shared : Fin 512 → Prop}
    (h : PageMaps s roots shared) {r : Nat} (hr : r ∈ roots) (va : Nat) {flags v : Nat}
    (hfl : flags = 0b11 ∨ flags = 0b111) (hv : v < 2 ^ 64)
    (hfree : missing s.mem r (tablePath va) ≤ freeCount s)
    (htop : child s.mem r (index va 39) = none → shared (index va 39) → ∀ r' ∈ roots, r' = r) :
    TablesOnly s (writePml1 s r va flags v) roots := by
  have hlen : ([] : List (Fin 512)).length + (tablePath va).length ≤ 3 := by simp [tablePath]
  have htop' : ∀ i, (tablePath va).head? = some i → child s.mem r i = none →
      ([] : List (Fin 512)) = [] → shared i → ∀ r' ∈ roots, r' = r := by
    intro i hi hnone _ hsh
    obtain rfl : index va 39 = i := by simpa [tablePath] using hi
    exact htop hnone hsh
  obtain ⟨hinv, hwalk, -, hgrow⟩ := descend_spec h hr hfl hlen rfl hfree htop'
  have hdesc := descend_tablesOnly h hr hfl hlen rfl hfree htop'
  obtain ⟨-, hgrow', -⟩ := setLeaf_spec hinv hr (by simp [tablePath]) hwalk (index va 12) hv
  have heq : writePml1 s r va flags v
      = { (descend s r flags (tablePath va)).2 with
          mem := setEntry (descend s r flags (tablePath va)).2.mem
            (descend s r flags (tablePath va)).1 (index va 12) v } := by
    simp only [writePml1, getPml1_eq, pmlEntry_eq, tablePath]
  rw [heq]
  generalize (descend s r flags (tablePath va)).2 = s₁ at *
  generalize (descend s r flags (tablePath va)).1 = t at *
  refine hdesc.trans hgrow (fun a _ hnt => ?_) hgrow'
  -- the last entry is in a table, too
  have hal := (hinv.frames t ⟨r, hr, _, by simp [tablePath], hwalk⟩).aligned
  refine setEntry_agree _ _ _ _ (outside_frame hal fun hpage => hnt ?_)
  exact table_of_page ⟨r, hr, _, by simp [tablePath], hgrow'.walks r hr _ t (by simp [tablePath]) hwalk⟩
    hal hpage

/-- A page-aligned frame address with `vmm_map`'s flags, as a last-level
entry. -/
theorem leafOf_frame {pa flags : Nat} (hpa : pa % PAGE_SIZE = 0) (hlt : pa < 2 ^ 52)
    (hfl : flags = 0b11 ∨ flags = 0b111) :
    pa ||| flags < 2 ^ 64 ∧ leafOf (pa ||| flags) = some pa := by
  have hpage : pa / PAGE_SIZE * PAGE_SIZE = pa :=
    Nat.div_mul_cancel (Nat.dvd_of_mod_eq_zero hpa)
  have hent := plain_frame_entry (f := pa / PAGE_SIZE) (by omega) (show flags < 512 by omega)
  rw [hpage] at hent
  obtain ⟨hor, -, hframe⟩ := hent
  have hodd : (pa + flags) % 2 = 1 := by
    simp only [PAGE_SIZE] at hpa
    omega
  rw [hor, leafOf, if_pos hodd, hframe]
  exact ⟨by omega, rfl⟩

/-- **Page-table refinement.**  On a page map whose tables form a tree of
frames marked used, `vmm_map` is a pointwise update of `translate` and
`vmm_unmap` a pointwise removal; both keep the page map well formed, and every
table they add is a frame that was free. -/
theorem vmm_refines_translate {s : Machine} {pagemap : Nat}
    (h : PageMaps s {pagemap} fun _ => False) (hfree : 3 ≤ freeCount s) {pa va flags : Nat}
    (hpa : pa % PAGE_SIZE = 0) (hlt : pa < 2 ^ 52) (hfl : flags = 0b11 ∨ flags = 0b111) :
    ((∀ va', translate (vmmMap s pagemap pa va flags).mem pagemap va'
        = if vaPage va' = vaPage va then some pa else translate s.mem pagemap va') ∧
      PageMaps (vmmMap s pagemap pa va flags) {pagemap} (fun _ => False) ∧
      ∀ t, Table (child (vmmMap s pagemap pa va flags).mem) {pagemap} 3 t →
        Table (child s.mem) {pagemap} 3 t ∨ ¬ MarkedUsed s (t / PAGE_SIZE)) ∧
    ((∀ va', translate (vmmUnmap s pagemap va flags).mem pagemap va'
        = if vaPage va' = vaPage va then none else translate s.mem pagemap va') ∧
      PageMaps (vmmUnmap s pagemap va flags) {pagemap} (fun _ => False) ∧
      ∀ t, Table (child (vmmUnmap s pagemap va flags).mem) {pagemap} 3 t →
        Table (child s.mem) {pagemap} 3 t ∨ ¬ MarkedUsed s (t / PAGE_SIZE)) := by
  have hmiss : missing s.mem pagemap (tablePath va) ≤ freeCount s :=
    (missing_le _ _ _).trans hfree
  -- both calls write one entry of the last level
  have hone : ∀ {v}, v < 2 ^ 64 →
      (∀ va', translate (writePml1 s pagemap va flags v).mem pagemap va'
        = if vaPage va' = vaPage va then leafOf v else translate s.mem pagemap va') ∧
      PageMaps (writePml1 s pagemap va flags v) {pagemap} (fun _ => False) ∧
      ∀ t, Table (child (writePml1 s pagemap va flags v).mem) {pagemap} 3 t →
        Table (child s.mem) {pagemap} 3 t ∨ ¬ MarkedUsed s (t / PAGE_SIZE) := by
    intro v hv
    obtain ⟨hinv, hgrow, hlook⟩ :=
      writePml1_spec h rfl va hfl hv hmiss fun _ hsh => hsh.elim
    refine ⟨fun va' => ?_, hinv, hgrow.tables⟩
    obtain ⟨hset, hkeep⟩ := hlook pagemap rfl va'
    by_cases hpage : vaPage va' = vaPage va
    · rw [if_pos hpage, hset ⟨hpage, .inl rfl⟩]
    · rw [if_neg hpage, hkeep fun hc => hpage hc.1]
  obtain ⟨hv, hleaf⟩ := leafOf_frame hpa hlt hfl
  refine ⟨?_, ?_⟩
  · have hmap := hone hv
    rw [hleaf] at hmap
    exact hmap
  · exact hone (by decide)

/-- A zeroed frame in use is an empty page map. -/
theorem PageMaps.of_empty {s : Machine} {r : Nat} (hpmm : PmmOk s) (hframe : TableFrame s r)
    (hzero : ∀ i : Fin 512, entry s.mem r i = 0) (shared : Fin 512 → Prop) :
    PageMaps s {r} shared := by
  have hempty : ∀ i, child s.mem r i = none := fun i => child_eq_none (hzero i)
  refine ⟨hpmm, Forest.of_empty hempty, fun t ht => ?_, fun t ht i hodd => ?_⟩
  · rw [Table.of_empty hempty ht]
    exact hframe
  · rw [Table.of_empty hempty ht, hzero i] at hodd
    cases hodd

/-! ### Concrete page maps -/

/-- Sixteen pages.  The bitmap is page 1; `used` is its first byte, the bits of
pages 0 to 7.  Everything else is zero. -/
def tinyMachine (used : BitVec 8) : Machine where
  mem := put (fun _ => 0#8) 0x1000 used
  highestPage := 0x10000
  usablePages := 0
  bitmap := ⟨0x1000, 0x1000⟩

theorem tinyMachine_mem (used : BitVec 8) {a : Nat} (h : a ≠ 0x1000) :
    (tinyMachine used).mem a = 0#8 := put_ne (m := fun _ => 0#8) h

theorem tinyMachine_pmmOk {used : BitVec 8} (h : pageUsed (tinyMachine used) 1 = true) :
    PmmOk (tinyMachine used) where
  high := by simp [tinyMachine]
  covers := by simp [tinyMachine, PAGE_SIZE]
  stored := by
    rintro a ⟨h1, h2⟩
    have hpage : a / PAGE_SIZE = 1 := by
      simp only [tinyMachine] at h1 h2
      simp only [PAGE_SIZE]
      omega
    rw [hpage]
    exact ⟨by simp [tinyMachine], h⟩

/-- A zeroed table of `tinyMachine` has no present entry. -/
theorem tinyMachine_entry (used : BitVec 8) {t : Nat} (ht : 0x1001 ≤ t) (i : Nat) :
    entry (tinyMachine used).mem t i = 0 :=
  readLE_zero fun a h1 _ => tinyMachine_mem used (by omega)

theorem tinyMachine_child (used : BitVec 8) {t : Nat} (ht : 0x1001 ≤ t) (i : Fin 512) :
    child (tinyMachine used).mem t i = none :=
  child_eq_none (tinyMachine_entry used ht i)

/-- Page 2 in use, with an empty top-level table. -/
theorem tinyMachine_pageMaps_of {used : BitVec 8} (h1 : pageUsed (tinyMachine used) 1 = true)
    (h2 : pageUsed (tinyMachine used) 2 = true) :
    PageMaps (tinyMachine used) {0x2000} fun _ => False := by
  have hframe : TableFrame (tinyMachine used) 0x2000 := by
    refine ⟨by decide, ⟨by simp [tinyMachine, PAGE_SIZE], h2⟩, fun a h1 _ hb => ?_⟩
    simp only [InBitmap, tinyMachine] at hb
    omega
  exact .of_empty (tinyMachine_pmmOk h1) hframe (fun i => tinyMachine_entry used (by decide) i) _

/-- Pages 0 to 2 in use, an empty top-level table in page 2. -/
theorem tinyMachine_pageMaps : PageMaps (tinyMachine 0b111#8) {0x2000} fun _ => False :=
  tinyMachine_pageMaps_of (by decide) (by decide)

/-- Mapping frame `0x9000` at address 0 of the empty page map. -/
theorem vmm_refines_translate_tiny :
    translate (vmmMap (tinyMachine 0b111#8) 0x2000 0x9000 0 0b11).mem 0x2000 0 = some 0x9000 :=
  (vmm_refines_translate tinyMachine_pageMaps (by decide +kernel) (by decide) (by decide)
    (.inl rfl)).1.1 0

/-- The hypotheses on the page map without what `PageMaps` adds about its
entries and about the bitmap: a tree of page-aligned frames marked used. -/
structure UsedTree (s : Machine) (pagemap : Nat) : Prop where
  pmm : PmmOk s
  forest : Forest (child s.mem) {pagemap} (fun _ => False) 3
  used : ∀ t, Table (child s.mem) {pagemap} 3 t → t % PAGE_SIZE = 0 ∧ MarkedUsed s (t / PAGE_SIZE)

/-- Pages 0 to 3 in use; slot 0 of the top-level table leads to page 3 through
an entry with bit 9 set. -/
def leakyMachine : Machine :=
  { tinyMachine 0b1111#8 with mem := setEntry (tinyMachine 0b1111#8).mem 0x2000 0 0x3203 }

theorem leakyMachine_usedTree : UsedTree leakyMachine 0x2000 := by
  have hempty : ∀ i, child (tinyMachine 0b1111#8).mem 0x2000 i = none := fun i =>
    tinyMachine_child _ (by decide) i
  have hother : ∀ t j, t % PAGE_SIZE = 0 → 0x1001 ≤ t → ¬ (t = 0x2000 ∧ j = (0 : Fin 512)) →
      child leakyMachine.mem t j = none := by
    intro t j hal hlo hne
    have e : entry leakyMachine.mem t j = entry (tinyMachine 0b1111#8).mem t j :=
      entry_setEntry_ne _ (by decide) hal (i := 0) _ hne
    rw [child_congr e, tinyMachine_child _ hlo]
  have hsame : SameExcept (child (tinyMachine 0b1111#8).mem) (child leakyMachine.mem) {0x2000} 3
      0x2000 0 := by
    intro t ht j
    rw [Table.of_empty hempty ht]
    by_cases hj : j = 0
    · exact .inl ⟨rfl, hj⟩
    · exact .inr ((hother _ j (by decide) (by decide) fun h => hj h.2).trans (hempty j).symm)
  have hbits : ∀ k < 8 * 0x1000, pageUsed leakyMachine k = pageUsed (tinyMachine 0b1111#8) k := by
    intro k hk
    refine pageUsed_congr (s := tinyMachine 0b1111#8) (by rfl) (fun a ha => ?_) hk
    have hlt : a < 0x2000 := by simpa [tinyMachine] using ha.2
    exact setEntry_agree _ _ _ (0 : Fin 512) (.inl hlt)
  have hbase : Forest (child (tinyMachine 0b1111#8).mem) {0x2000} (fun _ => False) 3 :=
    Forest.of_empty hempty
  have hext := hbase.extend hsame rfl
    (p := []) (by decide) rfl (hempty 0) (f := 0x3000) (by decide +kernel)
    (fun j => hother _ j (by decide) (by decide) fun h => absurd h.1 (by decide))
    (fun ht => by simpa using Table.of_empty hempty ht) fun _ h => h.elim
  refine ⟨⟨by decide, by decide, fun a ha => ?_⟩, hext.1, ?_⟩
  · have hpmm : PmmOk (tinyMachine 0b1111#8) := tinyMachine_pmmOk (by decide)
    have hst := hpmm.stored a ha
    exact ⟨hst.1, (hbits _ hst.1).trans hst.2⟩
  · rintro t ⟨r, rfl, p, hp, hw⟩
    rcases hext.2.2.2.1 _ rfl p t hp hw with hold | ⟨rfl, -, -⟩
    · rw [Table.of_empty hempty ⟨_, rfl, p, hp, hold⟩]
      exact ⟨by decide, by decide, by decide +kernel⟩
    · exact ⟨by decide, by decide, by decide +kernel⟩

/-- The bitmap of `tinyMachine`, read as a page table, is empty as long as page
0 is free. -/
theorem overlapping_empty (i : Fin 512) : child (tinyMachine 0b10#8).mem 0x1000 i = none := by
  by_cases hi : i = 0
  · subst hi
    decide
  · have hpos : 0 < i.val := Nat.pos_of_ne_zero fun h => hi (Fin.ext h)
    have hzero : entry (tinyMachine 0b10#8).mem 0x1000 i = 0 :=
      readLE_zero fun a h1 _ => tinyMachine_mem _ (by omega)
    exact child_eq_none hzero

/-- Page 1 is both the bitmap and the top-level table. -/
theorem overlapping_usedTree : UsedTree (tinyMachine 0b10#8) 0x1000 := by
  refine ⟨tinyMachine_pmmOk (by decide), Forest.of_empty overlapping_empty, fun t ht => ?_⟩
  rw [Table.of_empty overlapping_empty ht]
  exact ⟨by decide, by decide, by decide⟩

/-- **A tree of used frames alone is not enough.**  Through an entry with bit 9
set `get_next_level` writes beside the table the hardware reads, and the page
stays untranslated; and when the bitmap itself is a table, marking the new
tables makes another page translated. -/
theorem usedTree_not_enough :
    (¬ ∀ (s : Machine) (pagemap pa va flags : Nat), UsedTree s pagemap → 3 ≤ freeCount s →
      pa % PAGE_SIZE = 0 → pa < 2 ^ 52 → flags = 0b11 ∨ flags = 0b111 →
      ∀ va', translate (vmmMap s pagemap pa va flags).mem pagemap va'
        = if vaPage va' = vaPage va then some pa else translate s.mem pagemap va') ∧
    ¬ ∀ (s : Machine) (pagemap pa va flags : Nat), UsedTree s pagemap →
      (∀ t, Table (child s.mem) {pagemap} 2 t → ∀ i : Fin 512, entry s.mem t i % 2 = 1 →
        PlainEntry (entry s.mem t i)) →
      3 ≤ freeCount s → pa % PAGE_SIZE = 0 → pa < 2 ^ 52 → flags = 0b11 ∨ flags = 0b111 →
      ∀ va', translate (vmmMap s pagemap pa va flags).mem pagemap va'
        = if vaPage va' = vaPage va then some pa else translate s.mem pagemap va' := by
  constructor
  · intro hclaim
    have h := hclaim leakyMachine 0x2000 0x9000 0 0b11 leakyMachine_usedTree (by decide +kernel)
      (by decide) (by decide) (.inl rfl) 0
    simp only [vmmMap, writePml1, getPml1, getNextLevel, pmmAllocateZero, memset_eq] at h
    revert h
    decide +kernel
  · intro hclaim
    have hplain : ∀ t, Table (child (tinyMachine 0b10#8).mem) {0x1000} 2 t → ∀ i : Fin 512,
        entry (tinyMachine 0b10#8).mem t i % 2 = 1 → PlainEntry (entry (tinyMachine 0b10#8).mem t i) := by
      intro t ht i hodd
      rw [Table.of_empty overlapping_empty ht] at hodd
      have := overlapping_empty i
      rw [child, if_pos hodd] at this
      cases this
    have h := hclaim (tinyMachine 0b10#8) 0x1000 0x9000 (2 ^ 39) 0b11 overlapping_usedTree hplain
      (by decide +kernel) (by decide) (by decide) (.inl rfl) 0
    simp only [vmmMap, writePml1, getPml1, getNextLevel, pmmAllocateZero, memset_eq] at h
    revert h
    decide +kernel

end BestOS
