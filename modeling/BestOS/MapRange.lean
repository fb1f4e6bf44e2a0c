/-
BestOS/MapRange.lean

Mapping many pages.

`BestOS/PageTable.lean` says what one `vmm_map` does.  The kernel maps ranges:
`vmm_map_range` at boot, the stack in `task_init`, the segments of a program,
and `vmm_mmap`, whose loop takes a frame and maps it, page after page.  Both
kinds of loop are described here by one lemma each, `mapPages_spec` and
`mmapPages_spec`.

How many frames a loop takes for tables is a property of the state before it:
`missingTables` collects the table positions along the addresses of the loop
that are not there yet.  Each call of `vmm_map` removes from that set what it
creates.

Frames that are handed out but are not tables are `Held`; whatever happens to
the page tables, they stay what they are (`Held.grows`).
-/
import BestOS.PageTable
import Mathlib.Algebra.Order.BigOperators.Group.Finset
import Mathlib.Data.Finset.Union

namespace BestOS

open ByteMemory RadixForest

variable {s s' : Machine} {roots : Set Nat} {shared : Fin 512 → Prop}

/-! ### Changes beside the tables -/

/-- **Nothing outside the tables matters to the page maps**, as long as the
frames of the tables and of the bitmap stay marked. -/
theorem PageMaps.frame (h : PageMaps s roots shared) (s' : Machine) (hb : s'.bitmap = s.bitmap)
    (hpmm : PmmOk s')
    (hmem : ∀ t, Table (child s.mem) roots 3 t → ∀ a, t ≤ a → a < t + PAGE_SIZE →
      s'.mem a = s.mem a)
    (hused : ∀ t, Table (child s.mem) roots 3 t → MarkedUsed s' (t / PAGE_SIZE)) :
    PageMaps s' roots shared ∧
      ∀ t, Table (child s.mem) roots 3 t → ∀ j, child s'.mem t j = child s.mem t j := by
  have hentry : ∀ t, Table (child s.mem) roots 3 t → ∀ j : Fin 512,
      entry s'.mem t j = entry s.mem t j :=
    fun t ht j => entry_congr j (hmem t ht)
  have hchild : ∀ t, Table (child s.mem) roots 3 t → ∀ j, child s'.mem t j = child s.mem t j :=
    fun t ht j => child_congr (hentry t ht j)
  refine ⟨⟨hpmm, h.forest.congr hchild, fun t ht => ?_, fun t ht i hodd => ?_⟩, hchild⟩
  · have ht' := ht.congr hchild (Nat.le_refl 3)
    have hframe := h.frames t ht'
    refine ⟨hframe.aligned, hused t ht', ?_⟩
    simpa only [InBitmap, hb] using hframe.apart
  · have ht' := ht.congr hchild (by omega)
    have e := hentry t (by
      obtain ⟨r, hr, p, hp, hw⟩ := ht'
      exact ⟨r, hr, p, by omega, hw⟩) i
    rw [e] at hodd ⊢
    exact h.plain t ht' i hodd

/-- A frame that is in use and is neither a table nor part of the bitmap. -/
structure Held (s : Machine) (roots : Set Nat) (k : Nat) : Prop where
  used : MarkedUsed s k
  not_table : ¬ Table (child s.mem) roots 3 (k * PAGE_SIZE)
  apart : ∀ a, a / PAGE_SIZE = k → ¬ InBitmap s a

theorem Held.grows {n k : Nat} (h : Held s roots k) (hg : Grows s s' roots n) :
    Held s' roots k where
  used := hg.used k h.used
  not_table := by
    intro ht
    rcases hg.tables _ ht with hold | hfree
    · exact h.not_table hold
    · rw [Nat.mul_div_cancel k (by decide)] at hfree
      exact hfree h.used
  apart := by simpa only [InBitmap, hg.bitmap] using h.apart

/-- A frame that was free in `s` and is held in `s'`. -/
def Fresh (s s' : Machine) (roots : Set Nat) (k : Nat) : Prop :=
  ¬ MarkedUsed s k ∧ Held s' roots k

/-- No byte of a table lies in a page that is free. -/
theorem PageMaps.page_of_table (h : PageMaps s roots shared) {t : Nat}
    (ht : Table (child s.mem) roots 3 t) {a : Nat} (h1 : t ≤ a) (h2 : a < t + PAGE_SIZE) :
    MarkedUsed s (a / PAGE_SIZE) := by
  have hframe := h.frames t ht
  rw [page_of_mem_frame hframe.aligned h1 h2]
  exact hframe.used

/-- **Taking frames** for anything but tables leaves every page map alone. -/
theorem PageMaps.take (h : PageMaps s roots shared) {f n : Nat} (ht : TakesFrames s s' f n) :
    PageMaps s' roots shared ∧ Grows s s' roots n ∧
      (∀ r ∈ roots, ∀ q : List (Fin 512), q.length ≤ 4 →
        walk (child s'.mem) r q = walk (child s.mem) r q) ∧
      ∀ k, f ≤ k → k < f + n → Fresh s s' roots k := by
  -- a frame in use is not among those taken
  have hout : ∀ a, MarkedUsed s (a / PAGE_SIZE) →
      ¬ (f ≤ a / PAGE_SIZE ∧ a / PAGE_SIZE < f + n) :=
    fun a hu hin => ht.not_marked hin.1 hin.2 hu
  obtain ⟨hinv, hchild⟩ := h.frame s' ht.bitmap (ht.pmmOk h.pmm)
    (fun t htab a h1 h2 =>
      ht.kept a (hout a (h.page_of_table htab h1 h2)) ((h.frames t htab).apart a h1 h2))
    fun t htab => ht.marked (h.frames t htab).used
  have hcov := h.pmm.covers
  have hcount := ht.freeCount h.pmm
  have hwalks : ∀ r ∈ roots, ∀ q : List (Fin 512), q.length ≤ 4 →
      walk (child s'.mem) r q = walk (child s.mem) r q :=
    fun r hr q hq => walk_eq_of_tables hchild hr hq
  have htabs : ∀ t, Table (child s'.mem) roots 3 t → Table (child s.mem) roots 3 t :=
    fun t htab => htab.congr hchild (Nat.le_refl 3)
  refine ⟨hinv, ⟨ht.bitmap, ht.high, fun k => ht.marked, fun k => ht.below_of_marked, ?_,
    by omega, fun t htab => .inl (htabs t htab),
    ?_, ?_⟩, hwalks, fun k h1 h2 => ⟨ht.not_marked h1 h2, ht.taken h.pmm h1 h2, ?_, ?_⟩⟩
  · exact fun hup => hup.mark ht.high ht.lowest fun k hk => ht.bits k (by omega)
  · intro r hr p t hp hw
    exact (hwalks r hr p (by omega)).trans hw
  · exact fun a hu _ hnb => ht.kept a (hout a hu) hnb
  · intro htab
    have hu := (h.frames _ (htabs _ htab)).used
    rw [Nat.mul_div_cancel k (by decide)] at hu
    exact ht.not_marked h1 h2 hu
  · rintro a rfl
    simpa only [InBitmap, ht.bitmap] using ht.apart h.pmm h1 h2

/-- **Storing beside the tables and the bitmap** leaves every page map alone, and
every frame what it was. -/
theorem PageMaps.store (h : PageMaps s roots shared) (m : Mem)
    (hbitmap : ∀ a, InBitmap s a → m a = s.mem a)
    (htables : ∀ t, Table (child s.mem) roots 3 t → ∀ a, t ≤ a → a < t + PAGE_SIZE →
      m a = s.mem a) :
    PageMaps { s with mem := m } roots shared ∧
      (∀ t, Table (child s.mem) roots 3 t → ∀ j, child m t j = child s.mem t j) ∧
      (∀ k, MarkedUsed { s with mem := m } k ↔ MarkedUsed s k) ∧
      ∀ k, Held s roots k → Held { s with mem := m } roots k := by
  have hused : ∀ k, MarkedUsed { s with mem := m } k ↔ MarkedUsed s k := by
    intro k
    refine and_congr_right fun hk => ?_
    rw [pageUsed_congr (s := s) (by rfl) hbitmap hk]
  obtain ⟨hinv, hchild⟩ := h.frame { s with mem := m } (by rfl)
    ⟨h.pmm.high, h.pmm.covers, fun a ha => (hused _).mpr (h.pmm.stored a ha)⟩ htables
    fun t ht => (hused _).mpr (h.frames t ht).used
  refine ⟨hinv, hchild, hused, fun k hk => ⟨(hused k).mpr hk.used, fun ht => ?_, hk.apart⟩⟩
  exact hk.not_table (ht.congr hchild (Nat.le_refl 3))

/-- A table lies in no frame that is held. -/
theorem PageMaps.not_held_of_table (h : PageMaps s roots shared) {t : Nat}
    (ht : Table (child s.mem) roots 3 t) {a : Nat} (h1 : t ≤ a) (h2 : a < t + PAGE_SIZE) :
    ¬ Held s roots (a / PAGE_SIZE) := by
  intro hheld
  have hal := (h.frames t ht).aligned
  apply hheld.not_table
  rw [page_of_mem_frame hal h1 h2, Nat.div_mul_cancel (Nat.dvd_of_mod_eq_zero hal)]
  exact ht

/-- **Storing into held frames** changes no translation either. -/
theorem PageMaps.store_held (h : PageMaps s roots shared) (m : Mem)
    (hm : ∀ a, ¬ Held s roots (a / PAGE_SIZE) → m a = s.mem a) :
    PageMaps { s with mem := m } roots shared ∧
      (∀ k, MarkedUsed { s with mem := m } k ↔ MarkedUsed s k) ∧
      (∀ k, Held s roots k → Held { s with mem := m } roots k) ∧
      ∀ r ∈ roots, ∀ va, translate m r va = translate s.mem r va := by
  obtain ⟨hinv, hchild, hused, hheld⟩ := h.store m
    (fun a ha => hm a fun hheld => hheld.apart a rfl ha)
    fun t ht a h1 h2 => hm a (h.not_held_of_table ht h1 h2)
  exact ⟨hinv, hused, hheld, fun r hr => translate_of_walk fun _ => walk_eq_of_tables hchild hr⟩

/-- Nor does it take a table away. -/
theorem PageMaps.table_of_store_held (h : PageMaps s roots shared) {m : Mem}
    (hm : ∀ a, ¬ Held s roots (a / PAGE_SIZE) → m a = s.mem a) {t : Nat}
    (ht : Table (child s.mem) roots 3 t) : Table (child m) roots 3 t := by
  obtain ⟨-, hchild, -, -⟩ := h.store m
    (fun a ha => hm a fun hheld => hheld.apart a rfl ha)
    fun t ht a h1 h2 => hm a (h.not_held_of_table ht h1 h2)
  obtain ⟨r, hr, p, hp, hw⟩ := ht
  exact ⟨r, hr, p, hp, (walk_eq_of_tables hchild hr (by omega)).trans hw⟩

/-! ### The tables a range needs -/

/-- The positions of the three tables below the top level that an address goes
through. -/
def tablePrefixes (va : Nat) : Finset (List (Fin 512)) :=
  {[index va 39], [index va 39, index va 30], [index va 39, index va 30, index va 21]}

/-- The positions of all tables along these addresses. -/
def tablesFor (vas : List Nat) : Finset (List (Fin 512)) := vas.toFinset.biUnion tablePrefixes

/-- The tables along these addresses that are not there yet. -/
def missingTables (m : Mem) (r : Nat) (vas : List Nat) : Finset (List (Fin 512)) :=
  (tablesFor vas).filter fun p => walk (child m) r p = none

theorem length_of_mem_tablePrefixes {va : Nat} {p : List (Fin 512)} (h : p ∈ tablePrefixes va) :
    p.length ≤ 3 := by
  simp only [tablePrefixes, Finset.mem_insert, Finset.mem_singleton] at h
  rcases h with rfl | rfl | rfl <;> simp

/-- An address goes on below each of its tables. -/
theorem vaPath_of_mem_tablePrefixes {va : Nat} {p : List (Fin 512)} (h : p ∈ tablePrefixes va) :
    ∃ i q, vaPath va = p ++ i :: q := by
  simp only [tablePrefixes, Finset.mem_insert, Finset.mem_singleton] at h
  rcases h with rfl | rfl | rfl
  · exact ⟨index va 30, [index va 21, index va 12], rfl⟩
  · exact ⟨index va 21, [index va 12], rfl⟩
  · exact ⟨index va 12, [], rfl⟩

theorem card_tablePrefixes (va : Nat) : (tablePrefixes va).card = 3 := by simp [tablePrefixes]

/-- The tables of an address depend on its 2 MiB region only. -/
theorem tablePrefixes_congr {va va' : Nat} (h : va / 2 ^ 21 = va' / 2 ^ 21) :
    tablePrefixes va = tablePrefixes va' := by
  have hindex : ∀ off, 21 ≤ off → index va off = index va' off := by
    intro off hoff
    obtain ⟨d, rfl⟩ := Nat.exists_eq_add_of_le hoff
    simp only [index, pow_add, ← Nat.div_div_eq_div_mul, h]
  simp only [tablePrefixes, hindex 39 (by decide), hindex 30 (by decide), hindex 21 (by decide)]

theorem card_missingTables_le (m : Mem) (r : Nat) (vas : List Nat) :
    (missingTables m r vas).card ≤ (tablesFor vas).card :=
  Finset.card_le_card (Finset.filter_subset _ _)

/-- Addresses in `G` regions of 2 MiB need at most three tables for each. -/
theorem card_tablesFor_le {vas : List Nat} {G : Finset Nat} (h : ∀ va ∈ vas, va / 2 ^ 21 ∈ G) :
    (tablesFor vas).card ≤ 3 * G.card := by
  have hsub : tablesFor vas ⊆ G.biUnion fun g => tablePrefixes (g * 2 ^ 21) := by
    intro p hp
    obtain ⟨va, hva, hpre⟩ := Finset.mem_biUnion.mp hp
    refine Finset.mem_biUnion.mpr ⟨va / 2 ^ 21, h va (List.mem_toFinset.mp hva), ?_⟩
    rwa [tablePrefixes_congr (Nat.mul_div_cancel (va / 2 ^ 21) (Nat.two_pow_pos 21))]
  refine (Finset.card_le_card hsub).trans ?_
  rw [Nat.mul_comm]
  exact Finset.card_biUnion_le_card_mul G _ 3 fun g _ => Nat.le_of_eq (card_tablePrefixes _)

/-- The count along one path is the number of positions missing there. -/
theorem missing_eq_card (m : Mem) (r va : Nat) :
    missing m r (tablePath va)
      = ((tablePrefixes va).filter fun p => walk (child m) r p = none).card := by
  simp only [tablePath, missing]
  rcases h₁ : child m r (index va 39) with - | t₁
  · rw [Finset.filter_true_of_mem, card_tablePrefixes]
    · rfl
    · intro p hp
      simp only [tablePrefixes, Finset.mem_insert, Finset.mem_singleton] at hp
      rcases hp with rfl | rfl | rfl <;> simp [walk, h₁]
  · rcases h₂ : child m t₁ (index va 30) with - | t₂
    · simp [tablePrefixes, Finset.filter_insert, Finset.filter_singleton, walk, h₁, h₂]
    · rcases h₃ : child m t₂ (index va 21) with - | t₃
      · simp [tablePrefixes, Finset.filter_insert, Finset.filter_singleton, walk, h₁, h₂, h₃]
      · simp [tablePrefixes, Finset.filter_insert, Finset.filter_singleton, walk, h₁, h₂, h₃]

/-- The tables of the first address are among those of all. -/
theorem missing_le_cons (m : Mem) (r va : Nat) (vas : List Nat) :
    missing m r (tablePath va) ≤ (missingTables m r (va :: vas)).card := by
  rw [missing_eq_card]
  refine Finset.card_le_card (Finset.filter_subset_filter _ fun q hq => ?_)
  exact Finset.mem_biUnion.mpr ⟨va, by simp, hq⟩

/-- Once the tables of the first address are there, the rest needs that many
tables fewer. -/
theorem missingTables_cons {r va n : Nat} (vas : List Nat) (hr : r ∈ roots)
    (hg : Grows s s' roots n)
    (hthere : ∀ p ∈ tablePrefixes va, walk (child s'.mem) r p ≠ none) :
    missing s.mem r (tablePath va) + (missingTables s'.mem r vas).card
      ≤ (missingTables s.mem r (va :: vas)).card := by
  have hdisj : Disjoint ((tablePrefixes va).filter fun p => walk (child s.mem) r p = none)
      (missingTables s'.mem r vas) := by
    rw [Finset.disjoint_left]
    intro p hp hp'
    exact hthere p (Finset.mem_filter.mp hp).1 (Finset.mem_filter.mp hp').2
  rw [missing_eq_card, ← Finset.card_union_of_disjoint hdisj]
  refine Finset.card_le_card (Finset.union_subset ?_ ?_)
  · intro p hp
    obtain ⟨hp, hw⟩ := Finset.mem_filter.mp hp
    exact Finset.mem_filter.mpr ⟨Finset.mem_biUnion.mpr ⟨va, by simp, hp⟩, hw⟩
  · intro p hp
    obtain ⟨hp, hw⟩ := Finset.mem_filter.mp hp
    obtain ⟨va', hmem, hpre⟩ := Finset.mem_biUnion.mp hp
    refine Finset.mem_filter.mpr ⟨Finset.mem_biUnion.mpr ⟨va', ?_, hpre⟩, ?_⟩
    · simpa using Or.inr (List.mem_toFinset.mp hmem)
    · cases hold : walk (child s.mem) r p with
      | none => rfl
      | some t =>
          rw [hg.walks r hr p t (length_of_mem_tablePrefixes hpre) hold] at hw
          cases hw

/-! ### One call of `vmm_map` -/

/-- A slot of the top level may be filled only where it is not shared, or where
there is one page map. -/
def TopFree (m : Mem) (roots : Set Nat) (shared : Fin 512 → Prop) (r va : Nat) : Prop :=
  child m r (index va 39) = none → shared (index va 39) → ∀ r' ∈ roots, r' = r

theorem TopFree.grows {r va n : Nat} (h : TopFree s.mem roots shared r va) (hr : r ∈ roots)
    (hg : Grows s s' roots n) : TopFree s'.mem roots shared r va := by
  intro hnone hsh
  refine h ?_ hsh
  cases hold : child s.mem r (index va 39) with
  | none => rfl
  | some t =>
      have hw : walk (child s.mem) r [index va 39] = some t := by simp [walk, hold]
      have hw' := hg.walks r hr _ t (by simp) hw
      simp [walk, hnone] at hw'

/-- Page `va'` of `r'` is one that mapping `va` in `r` is about. -/
def SamePage (shared : Fin 512 → Prop) (r va r' va' : Nat) : Prop :=
  vaPage va' = vaPage va ∧ (r = r' ∨ shared (index va 39))

theorem leafOf_or (pa : Nat) {flags : Nat} (hfl : flags = 0b11 ∨ flags = 0b111) :
    leafOf (pa ||| flags) = some (frameOf (pa ||| flags)) := by
  have hodd : (pa ||| flags) % 2 = 1 := by
    rcases hfl with rfl | rfl <;> simp [Nat.or_mod_two_eq_one]
  rw [leafOf, if_pos hodd]

/-- The flags of an entry leave an aligned frame as it is. -/
theorem frameOf_aligned {pa flags : Nat} (hpa : pa % PAGE_SIZE = 0) (hlt : pa < 2 ^ 52)
    (hfl : flags = 0b11 ∨ flags = 0b111) : frameOf (pa ||| flags) = pa := by
  have hleaf := (leafOf_frame hpa hlt hfl).2
  rw [leafOf_or pa hfl] at hleaf
  exact Option.some.inj hleaf

theorem vmmMap_spec (h : PageMaps s roots shared) {r : Nat} (hr : r ∈ roots) (va : Nat)
    {pa flags : Nat} (hfl : flags = 0b11 ∨ flags = 0b111) (hpa : pa < 2 ^ 64)
    (hfree : missing s.mem r (tablePath va) ≤ freeCount s) (htop : TopFree s.mem roots shared r va) :
    PageMaps (vmmMap s r pa va flags) roots shared ∧
      Grows s (vmmMap s r pa va flags) roots (missing s.mem r (tablePath va)) ∧
      (∀ p ∈ tablePrefixes va, walk (child (vmmMap s r pa va flags).mem) r p ≠ none) ∧
      ∀ r' ∈ roots, ∀ va',
        (SamePage shared r va r' va' →
          translate (vmmMap s r pa va flags).mem r' va' = some (frameOf (pa ||| flags))) ∧
        (¬ SamePage shared r va r' va' →
          translate (vmmMap s r pa va flags).mem r' va' = translate s.mem r' va') := by
  have hv : pa ||| flags < 2 ^ 64 := Nat.or_lt_two_pow hpa (by omega)
  obtain ⟨hinv, hgrow, hlook⟩ := writePml1_spec h hr va hfl hv hfree htop
  rw [leafOf_or pa hfl] at hlook
  refine ⟨hinv, hgrow, fun p hp hnone => ?_, hlook⟩
  -- the page is translated, so every table on its path is there
  have htrans := (hlook r hr va).1 ⟨rfl, .inl rfl⟩
  obtain ⟨i, q, hq⟩ := vaPath_of_mem_tablePrefixes hp
  rw [translate, hq, walk_append] at htrans
  rw [vmmMap] at hnone
  rw [hnone] at htrans
  cases htrans

/-! ### Ranges of given frames -/

/-- Once the first page is mapped, the pool still has the tables of the others. -/
theorem mapPages_first (h : PageMaps s roots shared) {r : Nat} (hr : r ∈ roots) {flags : Nat}
    (hfl : flags = 0b11 ∨ flags = 0b111) {p : Nat × Nat} {pages : List (Nat × Nat)}
    (hpa : p.1 < 2 ^ 64)
    (hfree : (missingTables s.mem r (p.2 :: pages.map Prod.snd)).card ≤ freeCount s)
    (htop : ∀ q ∈ p :: pages, TopFree s.mem roots shared r q.2) :
    missing s.mem r (tablePath p.2) ≤ freeCount s ∧
      missing s.mem r (tablePath p.2)
        + (missingTables (vmmMap s r p.1 p.2 flags).mem r (pages.map Prod.snd)).card
        ≤ (missingTables s.mem r (p.2 :: pages.map Prod.snd)).card ∧
      (missingTables (vmmMap s r p.1 p.2 flags).mem r (pages.map Prod.snd)).card
        ≤ freeCount (vmmMap s r p.1 p.2 flags) ∧
      ∀ q ∈ pages, TopFree (vmmMap s r p.1 p.2 flags).mem roots shared r q.2 := by
  have hone := (missing_le_cons s.mem r p.2 (pages.map Prod.snd)).trans hfree
  obtain ⟨-, hgrow, hthere, -⟩ := vmmMap_spec h hr p.2 hfl hpa hone (htop p List.mem_cons_self)
  have hcount := missingTables_cons (pages.map Prod.snd) hr hgrow hthere
  have hleft := hgrow.free
  exact ⟨hone, hcount, by omega, fun q hq => (htop q (List.mem_cons_of_mem p hq)).grows hr hgrow⟩

/-- **Mapping a sequence of pages** takes the missing tables and no more;
afterwards the tables are there, and a page whose translation has changed is
one of the sequence. -/
theorem mapPages_spec (h : PageMaps s roots shared) {r : Nat} (hr : r ∈ roots) {flags : Nat}
    (hfl : flags = 0b11 ∨ flags = 0b111) (pages : List (Nat × Nat))
    (hpa : ∀ p ∈ pages, p.1 < 2 ^ 64)
    (hfree : (missingTables s.mem r (pages.map Prod.snd)).card ≤ freeCount s)
    (htop : ∀ p ∈ pages, TopFree s.mem roots shared r p.2) :
    PageMaps (mapPages s r flags pages) roots shared ∧
      Grows s (mapPages s r flags pages) roots (missingTables s.mem r (pages.map Prod.snd)).card ∧
      (∀ p ∈ pages, ∀ q ∈ tablePrefixes p.2,
        walk (child (mapPages s r flags pages).mem) r q ≠ none) ∧
      ∀ r' ∈ roots, ∀ va',
        translate (mapPages s r flags pages).mem r' va' = translate s.mem r' va' ∨
        ∃ p ∈ pages, SamePage shared r p.2 r' va' ∧
          translate (mapPages s r flags pages).mem r' va' = some (frameOf (p.1 ||| flags)) := by
  induction pages generalizing s with
  | nil => exact ⟨h, Grows.refl _ _ _, by simp, fun _ _ _ => .inl rfl⟩
  | cons p pages ih =>
      rw [List.map_cons] at hfree ⊢
      have hp : p.1 < 2 ^ 64 := hpa p (by simp)
      -- the frames of the first page and those of the others are counted apart
      obtain ⟨hone, hcount, hfree₁, htop₁⟩ := mapPages_first h hr hfl hp hfree htop
      obtain ⟨hinv₁, hgrow₁, hthere₁, hlook₁⟩ := vmmMap_spec h hr p.2 hfl hp hone (htop p (by simp))
      rw [mapPages_cons]
      generalize vmmMap s r p.1 p.2 flags = s₁ at *
      obtain ⟨hinv₂, hgrow₂, hthere₂, hlook₂⟩ :=
        ih hinv₁ (fun p hp => hpa p (by simp [hp])) hfree₁ htop₁
      refine ⟨hinv₂, (hgrow₁.trans hgrow₂).mono hcount, ?_, fun r' hr' va' => ?_⟩
      · -- a table that the first page brought is still there after the others
        intro p' hp' q hq hnone
        rcases List.mem_cons.mp hp' with rfl | hmem
        · cases hold : walk (child s₁.mem) r q with
          | none => exact hthere₁ q hq hold
          | some t =>
              rw [hgrow₂.walks r hr q t (length_of_mem_tablePrefixes hq) hold] at hnone
              cases hnone
        · exact hthere₂ p' hmem q hq hnone
      · rcases hlook₂ r' hr' va' with hsame | ⟨p', hp', hpage, hnew⟩
        · by_cases hpage : SamePage shared r p.2 r' va'
          · exact .inr ⟨p, by simp, hpage, hsame.trans ((hlook₁ r' hr' va').1 hpage)⟩
          · exact .inl (hsame.trans ((hlook₁ r' hr' va').2 hpage))
        · exact .inr ⟨p', by simp [hp'], hpage, hnew⟩

/-- And nothing but the bitmap and the tables is written. -/
theorem mapPages_tablesOnly (h : PageMaps s roots shared) {r : Nat} (hr : r ∈ roots) {flags : Nat}
    (hfl : flags = 0b11 ∨ flags = 0b111) (pages : List (Nat × Nat))
    (hpa : ∀ p ∈ pages, p.1 < 2 ^ 64)
    (hfree : (missingTables s.mem r (pages.map Prod.snd)).card ≤ freeCount s)
    (htop : ∀ p ∈ pages, TopFree s.mem roots shared r p.2) :
    TablesOnly s (mapPages s r flags pages) roots := by
  induction pages generalizing s with
  | nil => exact fun _ _ _ => rfl
  | cons p pages ih =>
      rw [List.map_cons] at hfree
      have hp : p.1 < 2 ^ 64 := hpa p (by simp)
      have hpa' : ∀ p' ∈ pages, p'.1 < 2 ^ 64 := fun p' hp' => hpa p' (by simp [hp'])
      obtain ⟨hone, -, hfree₁, htop₁⟩ := mapPages_first h hr hfl hp hfree htop
      obtain ⟨hinv, hgrow, -⟩ := vmmMap_spec h hr p.2 hfl hp hone (htop p (by simp))
      have hfirst : TablesOnly s (vmmMap s r p.1 p.2 flags) roots :=
        writePml1_tablesOnly h hr p.2 hfl (Nat.or_lt_two_pow hp (by omega)) hone (htop p (by simp))
      rw [mapPages_cons]
      obtain ⟨-, hgrow', -⟩ := mapPages_spec hinv hr hfl pages hpa' hfree₁ htop₁
      exact hfirst.trans hgrow (ih hinv hpa' hfree₁ htop₁) hgrow'

/-- The last of the pages that lies at the page of `va`. -/
def lastPage (pages : List (Nat × Nat)) (va : Nat) : Option (Nat × Nat) :=
  (pages.filter fun p => vaPage p.2 = vaPage va).getLast?

theorem lastPage_cons (p : Nat × Nat) (pages : List (Nat × Nat)) (va : Nat) :
    lastPage (p :: pages) va
      = (lastPage pages va).or (if vaPage p.2 = vaPage va then some p else none) := by
  rw [lastPage, lastPage]
  by_cases hpage : vaPage p.2 = vaPage va
  · rw [List.filter_cons_of_pos (by simpa using hpage), List.getLast?_cons, if_pos hpage]
    cases (pages.filter fun p => vaPage p.2 = vaPage va).getLast? <;> rfl
  · rw [List.filter_cons_of_neg (by simpa using hpage), if_neg hpage, Option.or_none]

theorem lastPage_eq_none {pages : List (Nat × Nat)} {va : Nat}
    (h : ∀ p ∈ pages, vaPage p.2 ≠ vaPage va) : lastPage pages va = none := by
  rw [lastPage, List.filter_eq_nil_iff.mpr fun p hp => by simpa using h p hp]
  rfl

theorem lastPage_eq_some {l₁ l₂ : List (Nat × Nat)} {p : Nat × Nat} {va : Nat}
    (hp : vaPage p.2 = vaPage va) (h : ∀ q ∈ l₂, vaPage q.2 ≠ vaPage va) :
    lastPage (l₁ ++ p :: l₂) va = some p := by
  have hnone : l₂.filter (fun q => vaPage q.2 = vaPage va) = [] :=
    List.filter_eq_nil_iff.mpr fun q hq => by simpa using h q hq
  rw [lastPage, List.filter_append, List.filter_cons_of_pos (by simpa using hp), hnone,
    List.getLast?_concat]

/-- **The last mapping of a page counts**: whatever was mapped there before is
replaced. -/
theorem mapPages_last (h : PageMaps s roots shared) {r : Nat} (hr : r ∈ roots) {flags : Nat}
    (hfl : flags = 0b11 ∨ flags = 0b111) (pages : List (Nat × Nat))
    (hpa : ∀ p ∈ pages, p.1 < 2 ^ 64)
    (hfree : (missingTables s.mem r (pages.map Prod.snd)).card ≤ freeCount s)
    (htop : ∀ p ∈ pages, TopFree s.mem roots shared r p.2) (va : Nat) :
    translate (mapPages s r flags pages).mem r va
      = match lastPage pages va with
        | some p => some (frameOf (p.1 ||| flags))
        | none => translate s.mem r va := by
  induction pages generalizing s with
  | nil => rfl
  | cons p pages ih =>
      rw [List.map_cons] at hfree
      have hp : p.1 < 2 ^ 64 := hpa p (by simp)
      obtain ⟨hone, -, hfree₁, htop₁⟩ := mapPages_first h hr hfl hp hfree htop
      obtain ⟨hinv, -, -, hlook⟩ := vmmMap_spec h hr p.2 hfl hp hone (htop p (by simp))
      rw [mapPages_cons]
      generalize vmmMap s r p.1 p.2 flags = s₁ at *
      rw [ih hinv (fun p hp => hpa p (by simp [hp])) hfree₁ htop₁, lastPage_cons]
      cases lastPage pages va with
      | some q => rfl
      | none =>
          -- no later page replaces what the first one has put there
          by_cases hpage : vaPage p.2 = vaPage va
          · rw [if_pos hpage]
            exact (hlook r hr va).1 ⟨hpage.symm, .inl rfl⟩
          · rw [if_neg hpage]
            exact (hlook r hr va).2 fun hsame => hpage hsame.1.symm

/-! ### The loop of `vmm_mmap` -/

/-- One page gets a frame that was free, with nothing in it. -/
theorem mmapPage_spec (h : PageMaps s roots shared) {r : Nat} (hr : r ∈ roots) (va : Nat)
    (hfree : 1 + missing s.mem r (tablePath va) ≤ freeCount s)
    (htop : TopFree s.mem roots shared r va) :
    PageMaps (mmapPage s r va) roots shared ∧
      Grows s (mmapPage s r va) roots (1 + missing s.mem r (tablePath va)) ∧
      (∀ p ∈ tablePrefixes va, walk (child (mmapPage s r va).mem) r p ≠ none) ∧
      ∃ f, Fresh s (mmapPage s r va) roots f ∧
        (∀ a, a / PAGE_SIZE = f → (mmapPage s r va).mem a = 0#8) ∧ ∀ r' ∈ roots, ∀ va',
        (SamePage shared r va r' va' →
          translate (mmapPage s r va).mem r' va' = some (f * PAGE_SIZE)) ∧
        (¬ SamePage shared r va r' va' →
          translate (mmapPage s r va).mem r' va' = translate s.mem r' va') := by
  obtain ⟨f, haddr, htake⟩ :=
    pmmAllocateZero_run h.pmm (Nat.le_refl 1) (runFree_one h.pmm (by omega))
  obtain ⟨hinv₁, hgrow₁, hwalk₁, hfresh⟩ := h.take htake
  have hpa : f * PAGE_SIZE < 2 ^ 52 := by
    have := htake.end_le h.pmm
    simp only [PAGE_SIZE] at this ⊢
    omega
  -- the frame of the page is not a table: as many are missing as before
  have hmiss : missing (pmmAllocateZero s 1).2.mem r (tablePath va)
      = missing s.mem r (tablePath va) := by
    rw [missing_eq_card, missing_eq_card]
    refine congrArg Finset.card (Finset.filter_congr fun p hp => ?_)
    rw [hwalk₁ r hr p (by have := length_of_mem_tablePrefixes hp; omega)]
  have hcount := hgrow₁.free
  rw [mmapPage, haddr]
  generalize (pmmAllocateZero s 1).2 = s₁ at *
  obtain ⟨hinv₂, hgrow₂, hthere, hlook⟩ := vmmMap_spec hinv₁ hr va (.inr rfl)
    (show f * PAGE_SIZE < 2 ^ 64 by omega) (by omega) (htop.grows hr hgrow₁)
  rw [hmiss] at hgrow₂
  obtain ⟨hwas, hheld⟩ := hfresh f (Nat.le_refl f) (Nat.lt_succ_self f)
  refine ⟨hinv₂, hgrow₁.trans hgrow₂, hthere, f, ⟨hwas, hheld.grows hgrow₂⟩, ?_,
    fun r' hr' va' => ⟨fun hpage => ?_, fun hne => ?_⟩⟩
  · rintro a rfl
    rw [hgrow₂.data a hheld.used hheld.not_table (hheld.apart a rfl), htake.zeroed a (by omega)]
  · rw [(hlook r' hr' va').1 hpage, frameOf_aligned (Nat.mul_mod_left f PAGE_SIZE) hpa (.inr rfl)]
  · rw [(hlook r' hr' va').2 hne, translate_of_walk (hwalk₁ r' hr')]

/-- **The loop of `vmm_mmap`** takes one frame for each page and the missing
tables; a page whose translation has changed is one of its pages and has a
frame that was free. -/
theorem mmapPages_spec (h : PageMaps s roots shared) {r : Nat} (hr : r ∈ roots) (vas : List Nat)
    (hfree : vas.length + (missingTables s.mem r vas).card ≤ freeCount s)
    (htop : ∀ va ∈ vas, TopFree s.mem roots shared r va) :
    PageMaps (mmapPages s r vas) roots shared ∧
      Grows s (mmapPages s r vas) roots (vas.length + (missingTables s.mem r vas).card) ∧
      ∀ r' ∈ roots, ∀ va', translate (mmapPages s r vas).mem r' va' = translate s.mem r' va' ∨
        ∃ va ∈ vas, SamePage shared r va r' va' ∧ ∃ f, Fresh s (mmapPages s r vas) roots f ∧
          translate (mmapPages s r vas).mem r' va' = some (f * PAGE_SIZE) := by
  induction vas generalizing s with
  | nil => exact ⟨h, Grows.refl _ _ _, fun _ _ _ => .inl rfl⟩
  | cons va vas ih =>
      rw [List.length_cons] at hfree ⊢
      have hone := missing_le_cons s.mem r va vas
      obtain ⟨hinv₁, hgrow₁, hthere₁, f₁, hfresh₁, -, hlook₁⟩ :=
        mmapPage_spec h hr va (by omega) (htop va (by simp))
      rw [mmapPages_cons]
      generalize mmapPage s r va = s₁ at *
      have hcount := missingTables_cons vas hr hgrow₁ hthere₁
      have hfree₁ := hgrow₁.free
      obtain ⟨hinv₂, hgrow₂, hlook₂⟩ :=
        ih hinv₁ (by omega) fun va' hva' => (htop va' (by simp [hva'])).grows hr hgrow₁
      refine ⟨hinv₂, (hgrow₁.trans hgrow₂).mono (by omega), fun r' hr' va' => ?_⟩
      -- the last round that maps a page decides
      rcases hlook₂ r' hr' va' with hsame | ⟨va₂, hmem, hpage, f₂, hfresh₂, hnew⟩
      · by_cases hpage : SamePage shared r va r' va'
        · exact .inr ⟨va, by simp, hpage, f₁, ⟨hfresh₁.1, hfresh₁.2.grows hgrow₂⟩,
            hsame.trans ((hlook₁ r' hr' va').1 hpage)⟩
        · exact .inl (hsame.trans ((hlook₁ r' hr' va').2 hpage))
      · exact .inr ⟨va₂, by simp [hmem], hpage, f₂,
          ⟨fun hu => hfresh₂.1 (hgrow₁.used _ hu), hfresh₂.2⟩, hnew⟩

end BestOS
