/-
BestOS/DirectMap.lean

Is all of usable memory in the direct map?

The kernel reaches the frame at `p` through `p + MMAP_IO_BASE`.
`vmm_initialize` fills this window by two loops: one over the first 4 GiB, and
one for each usable entry.  The latter runs over the offsets `0` to
`entry.length` and maps these, not `entry.base` to `entry.base + entry.length`.
So a page behind the first 4 GiB is there only if some usable entry is longer
than its address (`DirectMapped`), and `high_memory_not_mapped` is a machine
with usable memory at 4 GiB that no entry reaches.

A page may be mapped by several rounds, and the last one counts
(`mapPages_last`).  This matters above `2 ^ 48` only, where the window, which
is 48 bits wide, starts again: there an entry that is too long replaces what
the page had.
-/
import BestOS.KernelHalf
import BestOS.PmmInit

namespace BestOS

open ByteMemory RadixForest

/-- The page at `p` is mapped to itself in the direct map.  Of the usable
entries that are longer than `p`, up to multiples of `2 ^ 48`, the last one
decides. -/
def DirectMapped (map : List MmapEntry) (p : Nat) : Prop :=
  match ((usableEntries map).filter fun e => p % 2 ^ 48 < e.length).getLast? with
  | some e => p < e.length ∧ e.length ≤ p + 2 ^ 48
  | none => p < 0x100000000

/-- The address through which the kernel reaches the frame at `p`. -/
def directVa (p : Nat) : Nat := (p + MMAP_IO_BASE) % 2 ^ 64

/-! ### The pages of one loop -/

theorem vaPage_directVa {i p : Nat} (hi : i % PAGE_SIZE = 0) (hp : p % PAGE_SIZE = 0) :
    vaPage (directVa i) = vaPage (directVa p) ↔ i % 2 ^ 48 = p % 2 ^ 48 := by
  simp only [vaPage, directVa, PAGE_SIZE, MMAP_IO_BASE] at hi hp ⊢
  omega

theorem aligned_of_mem_rangePages {stop offset : Nat} {q : Nat × Nat}
    (h : q ∈ rangePages stop offset) : q.1 % PAGE_SIZE = 0 := by
  obtain ⟨i, hi, rfl⟩ := List.mem_map.mp h
  obtain ⟨k, -, rfl⟩ := List.mem_map.mp hi
  rw [Nat.zero_add]
  exact Nat.mul_mod_left k PAGE_SIZE

/-- The loop reaches the page at `i`, and maps only higher pages after it. -/
theorem rangePages_split {stop i : Nat} (offset : Nat) (hal : i % PAGE_SIZE = 0) (hlt : i < stop) :
    ∃ l₁ l₂, rangePages stop offset = l₁ ++ (i, (i + offset) % 2 ^ 64) :: l₂ ∧
      ∀ q ∈ l₂, i < q.1 ∧ q ∈ rangePages stop offset := by
  have hmem : (i, (i + offset) % 2 ^ 64) ∈ rangePages stop offset := by
    refine List.mem_map.mpr ⟨i, List.mem_map.mpr ⟨i / PAGE_SIZE, List.mem_range.mpr ?_, ?_⟩, rfl⟩
    · simp only [PAGE_SIZE] at hal ⊢
      omega
    · rw [Nat.zero_add, Nat.div_mul_cancel (Nat.dvd_of_mod_eq_zero hal)]
  have hsorted : (rangePages stop offset).Pairwise fun q q' => q.1 < q'.1 := by
    rw [rangePages, pageSteps, List.map_map, List.pairwise_map]
    refine List.pairwise_lt_range.imp fun {j k} hjk => ?_
    show 0 + j * PAGE_SIZE < 0 + k * PAGE_SIZE
    simp only [PAGE_SIZE]
    omega
  obtain ⟨l₁, l₂, heq⟩ := List.append_of_mem hmem
  refine ⟨l₁, l₂, heq, fun q hq => ⟨?_, by rw [heq]; simp [hq]⟩⟩
  rw [heq] at hsorted
  exact (List.pairwise_cons.mp (List.pairwise_append.mp hsorted).2.1).1 q hq

/-- The pages that the last loop maps. -/
def entryPages (map : List MmapEntry) : List (Nat × Nat) :=
  (usableEntries map).flatMap fun e => rangePages e.length MMAP_IO_BASE

theorem bootPages_eq (map : List MmapEntry) :
    bootPages map = rangePages 0x8000000 MMAP_KERNEL_BASE ++
      (rangePages 0x100000000 MMAP_IO_BASE ++ entryPages map) :=
  List.append_assoc _ _ _

/-- A page of the direct map that one of the loops maps at the place of `p`. -/
theorem mod_of_mem_rangePages {stop p : Nat} (hp : p % PAGE_SIZE = 0) {q : Nat × Nat}
    (h : q ∈ rangePages stop MMAP_IO_BASE) (hpage : vaPage q.2 = vaPage (directVa p)) :
    q.1 % 2 ^ 48 = p % 2 ^ 48 := by
  rw [(mem_rangePages h).2] at hpage
  exact (vaPage_directVa (aligned_of_mem_rangePages h) hp).mp hpage

/-- An entry that is not longer than `p` up to multiples of `2 ^ 48` leaves its
page alone. -/
theorem entryPages_apart {es : List MmapEntry} {p : Nat} (hp : p % PAGE_SIZE = 0)
    (h : ∀ e ∈ es, e.length ≤ p % 2 ^ 48) :
    ∀ q ∈ es.flatMap (fun e => rangePages e.length MMAP_IO_BASE),
      vaPage q.2 ≠ vaPage (directVa p) := by
  intro q hq hpage
  obtain ⟨e, he, hq⟩ := List.mem_flatMap.mp hq
  have hmod := mod_of_mem_rangePages hp hq hpage
  have hlt := (mem_rangePages hq).1
  have hle := h e he
  have := Nat.mod_le q.1 (2 ^ 48)
  omega

/-! ### The last round that maps a page -/

/-- If an entry decides, the page gets the highest address that this entry maps
there. -/
theorem lastPage_of_entry {map u₁ u₂ : List MmapEntry} {e : MmapEntry} {p : Nat}
    (hp : p % PAGE_SIZE = 0) (hsplit : usableEntries map = u₁ ++ e :: u₂)
    (he : p % 2 ^ 48 < e.length) (hu₂ : ∀ x ∈ u₂, x.length ≤ p % 2 ^ 48) :
    ∃ i, lastPage (bootPages map) (directVa p) = some (i, directVa i) ∧
      i % PAGE_SIZE = 0 ∧ i % 2 ^ 48 = p % 2 ^ 48 ∧ i < e.length ∧ e.length ≤ i + 2 ^ 48 := by
  -- the highest address of the entry that is `p` up to multiples of `2 ^ 48`
  obtain ⟨i, hi⟩ : ∃ i, i = p % 2 ^ 48 + (e.length - 1 - p % 2 ^ 48) / 2 ^ 48 * 2 ^ 48 := ⟨_, rfl⟩
  have hal : i % PAGE_SIZE = 0 := by
    simp only [PAGE_SIZE] at hp ⊢
    omega
  have hmod : i % 2 ^ 48 = p % 2 ^ 48 := by omega
  obtain ⟨l₁, l₂, hrange, hafter⟩ :=
    rangePages_split MMAP_IO_BASE hal (show i < e.length by omega)
  refine ⟨i, ?_, hal, hmod, by omega, by omega⟩
  have hpages : entryPages map
      = u₁.flatMap (fun e => rangePages e.length MMAP_IO_BASE) ++
        (l₁ ++ (i, directVa i) :: (l₂ ++ u₂.flatMap fun e => rangePages e.length MMAP_IO_BASE)) := by
    rw [entryPages, hsplit, List.flatMap_append, List.flatMap_cons, hrange]
    simp [directVa]
  rw [bootPages_eq, hpages, ← List.append_assoc, ← List.append_assoc, ← List.append_assoc]
  refine lastPage_eq_some ((vaPage_directVa hal hp).mpr hmod) fun q hq hpage => ?_
  rcases List.mem_append.mp hq with hq | hq
  · -- a later page of the same entry would be higher still
    obtain ⟨hlt, hmem⟩ := hafter q hq
    have := mod_of_mem_rangePages hp hmem hpage
    have := (mem_rangePages hmem).1
    omega
  · exact entryPages_apart hp hu₂ q hq hpage

/-- If no entry decides, the first 4 GiB do. -/
theorem lastPage_low {map : List MmapEntry} {p : Nat} (hp : p % PAGE_SIZE = 0)
    (hnone : ∀ e ∈ usableEntries map, e.length ≤ p % 2 ^ 48) (hlow : p % 2 ^ 48 < 0x100000000) :
    lastPage (bootPages map) (directVa p) = some (p % 2 ^ 48, directVa (p % 2 ^ 48)) := by
  have hal : p % 2 ^ 48 % PAGE_SIZE = 0 := by
    simp only [PAGE_SIZE] at hp ⊢
    omega
  obtain ⟨l₁, l₂, hrange, hafter⟩ := rangePages_split MMAP_IO_BASE hal hlow
  have hpages : bootPages map = (rangePages 0x8000000 MMAP_KERNEL_BASE ++ l₁) ++
      (p % 2 ^ 48, directVa (p % 2 ^ 48)) :: (l₂ ++ entryPages map) := by
    rw [bootPages_eq, hrange]
    simp [directVa]
  rw [hpages]
  refine lastPage_eq_some ((vaPage_directVa hal hp).mpr (Nat.mod_mod _ _)) fun q hq hpage => ?_
  rcases List.mem_append.mp hq with hq | hq
  · obtain ⟨hlt, hmem⟩ := hafter q hq
    have := mod_of_mem_rangePages hp hmem hpage
    have := (mem_rangePages hmem).1
    omega
  · exact entryPages_apart hp hnone q hq hpage

/-- Above 4 GiB there is at most the kernel's own mapping. -/
theorem lastPage_high {map : List MmapEntry} {p : Nat} (hp : p % PAGE_SIZE = 0)
    (hnone : ∀ e ∈ usableEntries map, e.length ≤ p % 2 ^ 48) (hhigh : 0x100000000 ≤ p % 2 ^ 48)
    {q : Nat × Nat} (hq : lastPage (bootPages map) (directVa p) = some q) : q.1 < 0x8000000 := by
  have hmem := List.mem_filter.mp (List.mem_of_getLast? hq)
  have hpage : vaPage q.2 = vaPage (directVa p) := by simpa using hmem.2
  have hin := hmem.1
  rw [bootPages_eq, List.mem_append, List.mem_append] at hin
  rcases hin with hk | hd | he
  · exact (mem_rangePages hk).1
  · have := mod_of_mem_rangePages hp hd hpage
    have := (mem_rangePages hd).1
    omega
  · exact absurd hpage (entryPages_apart hp hnone q he)

/-! ### The direct map after boot -/

/-- The kernel's page map, as the list of what was mapped last. -/
theorem translate_vmmInitialize {s : Machine} (h : PmmOk s) {map : List MmapEntry}
    (hlen : ∀ e ∈ map, e.type = .usable → e.length ≤ 2 ^ 52) (hsup : BootSupplied s map) (va : Nat) :
    translate (vmmInitialize s map).2.mem (vmmInitialize s map).1 va
      = (lastPage (bootPages map) va).map fun q => frameOf (q.1 ||| 0b11) := by
  rw [BootSupplied] at hsup
  obtain ⟨f, haddr, htake⟩ := pmmAllocateZero_run h (Nat.le_refl 1) (runFree_one h (by omega))
  have hinv := PageMaps.single h htake fun _ => False
  have hcount := htake.freeCount h
  have hempty : translate (pmmAllocateZero s 1).2.mem (f * PAGE_SIZE) va = none := by
    rw [translate, vaPath, walk, htake.child_eq_none]
    rfl
  have hpa : ∀ p ∈ bootPages map, p.1 < 2 ^ 64 := by
    intro p hp
    rw [bootPages_eq, List.mem_append, List.mem_append] at hp
    rcases hp with hp | hp | hp
    · exact (mem_rangePages hp).1.trans (by decide)
    · exact (mem_rangePages hp).1.trans (by decide)
    · obtain ⟨e, he, hp⟩ := List.mem_flatMap.mp hp
      obtain ⟨he, hu⟩ := List.mem_filter.mp he
      have := hlen e he (by simpa using hu)
      have := (mem_rangePages hp).1
      omega
  rw [vmmInitialize_eq, haddr]
  dsimp only
  generalize (pmmAllocateZero s 1).2 = s₁ at *
  have hmiss := card_missingTables_le s₁.mem (f * PAGE_SIZE) ((bootPages map).map Prod.snd)
  rw [mapPages_last hinv rfl (.inl rfl) _ hpa (by omega) (fun p _ _ hsh => hsh.elim) va]
  cases lastPage (bootPages map) va with
  | none => exact hempty
  | some q => rfl

/-- The entry that decides on `p`. -/
theorem deciding_entry {map : List MmapEntry} {p : Nat} {e : MmapEntry}
    (h : ((usableEntries map).filter fun e => p % 2 ^ 48 < e.length).getLast? = some e) :
    p % 2 ^ 48 < e.length ∧
      ∃ u₁ u₂, usableEntries map = u₁ ++ e :: u₂ ∧ ∀ x ∈ u₂, x.length ≤ p % 2 ^ 48 := by
  obtain ⟨ys, hys⟩ := List.getLast?_eq_some_iff.mp h
  obtain ⟨l₁, l₂, hsplit, -, hlast⟩ := List.filter_eq_append_iff.mp hys
  obtain ⟨l₃, l₄, rfl, -, he, hrest⟩ := List.filter_eq_cons_iff.mp hlast
  refine ⟨by simpa using he, l₁ ++ l₃, l₄, by simp [hsplit], fun x hx => ?_⟩
  have := List.filter_eq_nil_iff.mp hrest x hx
  simpa using this

/-- **One page of the direct map**: it leads to `p` exactly when the page is
`DirectMapped`. -/
theorem directMap_page_iff {s : Machine} (h : PmmOk s) {map : List MmapEntry}
    (hlen : ∀ e ∈ map, e.type = .usable → e.length ≤ 2 ^ 52) (hsup : BootSupplied s map)
    {p : Nat} (hp : p % PAGE_SIZE = 0) :
    translate (vmmInitialize s map).2.mem (vmmInitialize s map).1 (directVa p) = some p ↔
      DirectMapped map p := by
  rw [translate_vmmInitialize h hlen hsup, DirectMapped]
  split
  · rename_i e hlast
    obtain ⟨he, u₁, u₂, hsplit, hu₂⟩ := deciding_entry hlast
    obtain ⟨i, hi, hal, hmod, hlo, hhi⟩ := lastPage_of_entry hp hsplit he hu₂
    have hmem : e ∈ usableEntries map := by simp [hsplit]
    obtain ⟨hin, hu⟩ := List.mem_filter.mp hmem
    have hbound := hlen e hin (by simpa using hu)
    rw [hi, Option.map_some, frameOf_aligned hal (by omega) (.inl rfl), Option.some.injEq]
    omega
  · rename_i hnone
    have hshort : ∀ e ∈ usableEntries map, e.length ≤ p % 2 ^ 48 := by
      intro e he
      have := List.filter_eq_nil_iff.mp (List.getLast?_eq_none_iff.mp hnone) e he
      simpa using this
    by_cases hlow : p % 2 ^ 48 < 0x100000000
    · have hal : p % 2 ^ 48 % PAGE_SIZE = 0 := by
        simp only [PAGE_SIZE] at hp ⊢
        omega
      rw [lastPage_low hp hshort hlow, Option.map_some, frameOf_aligned hal (by omega) (.inl rfl),
        Option.some.injEq]
      omega
    · -- the kernel's window leads to the first 128 MiB
      have hne : ¬ p < 0x100000000 := by
        have := Nat.mod_le p (2 ^ 48)
        omega
      refine iff_of_false (fun heq => ?_) hne
      obtain ⟨q, hq, hframe⟩ := Option.map_eq_some_iff.mp heq
      have hlt := lastPage_high hp hshort (by omega) hq
      have hal : q.1 % PAGE_SIZE = 0 := by
        have hmem := (List.mem_filter.mp (List.mem_of_getLast? hq)).1
        simp only [bootPages_eq, List.mem_append, entryPages, List.mem_flatMap] at hmem
        rcases hmem with hm | hm | ⟨e, -, hm⟩
        all_goals exact aligned_of_mem_rangePages hm
      rw [frameOf_aligned hal (by omega) (.inl rfl)] at hframe
      omega

/-- Below `2 ^ 48` nothing is replaced: a page is there if it is in the first
4 GiB or below the length of a usable entry. -/
theorem directMapped_iff {map : List MmapEntry}
    (hlen : ∀ e ∈ map, e.type = .usable → e.length ≤ 2 ^ 48) {p : Nat} (hp : p < 2 ^ 48) :
    DirectMapped map p ↔
      p < 0x100000000 ∨ ∃ e ∈ map, e.type = .usable ∧ p < e.length := by
  have hmod : p % 2 ^ 48 = p := Nat.mod_eq_of_lt hp
  rw [DirectMapped]
  split
  · rename_i e hlast
    obtain ⟨he, u₁, u₂, hsplit, -⟩ := deciding_entry hlast
    have hmem : e ∈ usableEntries map := by simp [hsplit]
    obtain ⟨hin, hu⟩ := List.mem_filter.mp hmem
    have hu' : e.type = .usable := by simpa using hu
    have hbound := hlen e hin hu'
    rw [hmod] at he
    exact iff_of_true ⟨he, by omega⟩ (.inr ⟨e, hin, hu', he⟩)
  · rename_i hnone
    refine ⟨.inl, ?_⟩
    rintro (hlow | ⟨e, he, hu, hlt⟩)
    · exact hlow
    · have hin : e ∈ usableEntries map := List.mem_filter.mpr ⟨he, by simpa using hu⟩
      have hshort := List.filter_eq_nil_iff.mp (List.getLast?_eq_none_iff.mp hnone) e hin
      rw [hmod] at hshort
      simp at hshort
      omega

/-- Every page of every usable entry is in the direct map. -/
def DirectMapComplete (map : List MmapEntry) (start : Machine) (map' : List MmapEntry) : Prop :=
  ∀ k, UsablePage map k →
    translate (vmmInitialize start map').2.mem (vmmInitialize start map').1
      (directVa (k * PAGE_SIZE)) = some (k * PAGE_SIZE)

theorem BootOk.length_le {mem : Mem} {map map' : List MmapEntry} {start : Machine}
    (hb : BootOk mem map) (h : pmmInitialize mem map = some (start, map')) :
    ∀ e ∈ map', e.type = .usable → e.length ≤ 2 ^ 52 := by
  intro e' he' hu'
  rw [pmmInitialize_map h] at he'
  obtain ⟨e, he, hu, hend⟩ := end_of_mem_carveBitmap (fun e he _ => hb.map_ok.no_wrap e he) e' he' hu'
  have htop := le_scanHighest he (by simp [MmapEntry.counted, hu]) (hb.map_ok.no_wrap e he) 0
  have := hb.phys
  omega

/-- **The direct map is complete** exactly when each page of a usable entry is
`DirectMapped` by the entries that `pmm_initialize` has left; this holds for the
usable entries as the boot loader passed them, and for what is left of them. -/
theorem directMap_complete_iff {mem : Mem} {map map' : List MmapEntry} {start : Machine}
    (hb : BootOk mem map) (h : pmmInitialize mem map = some (start, map')) :
    (DirectMapComplete map start map' ↔
      ∀ k, UsablePage map k → DirectMapped map' (k * PAGE_SIZE)) ∧
    (DirectMapComplete map' start map' ↔
      ∀ k, UsablePage map' k → DirectMapped map' (k * PAGE_SIZE)) := by
  have hpmm := pmmOk_pmmInitialize hb.map_ok hb.fits hb.phys h
  have hpage := fun k => directMap_page_iff hpmm (hb.length_le h) (hb.supplied start map' h)
    (p := k * PAGE_SIZE) (Nat.mul_mod_left k PAGE_SIZE)
  exact ⟨forall_congr' fun k => imp_congr_right fun _ => hpage k,
    forall_congr' fun k => imp_congr_right fun _ => hpage k⟩

/-- The machine with 64 MiB has all of them in the direct map. -/
theorem directMap_complete_flat : DirectMapComplete flatMap64 flatStart flatMap64Left := by
  refine (directMap_complete_iff flatBootOk flatStart_eq).1.mpr fun k hk => ?_
  obtain ⟨e, he, -, -, hhi⟩ := hk
  obtain rfl : e = ⟨0x100000, 0x4000000, .usable⟩ := by simpa [flatMap64] using he
  have hlt : k * PAGE_SIZE < 0x4100000 := by
    have : 0 < PAGE_SIZE := by decide
    dsimp only at hhi
    omega
  exact (directMapped_iff (by decide) (by omega)).mpr (.inl (by omega))

/-! ### A machine with memory above 4 GiB -/

/-- 64 MiB from 1 MiB on, and eight pages at 4 GiB. -/
def highMap : List MmapEntry :=
  [⟨0x100000, 0x4000000, .usable⟩, ⟨0x100000000, 0x8000, .usable⟩]

theorem highMap_ok : MemoryMapOk highMap := ⟨by decide, by decide, by simp [highMap]⟩

theorem highMap_fits : BitmapFits highMap :=
  ⟨⟨_, List.mem_cons_self, rfl, by decide⟩, by decide⟩

/-- The pages behind the bitmap are free. -/
theorem freeCount_highMap {mem : Mem} {map' : List MmapEntry} {start : Machine}
    (h : pmmInitialize mem highMap = some (start, map')) : 0x3fdf ≤ freeCount start := by
  obtain ⟨⟨hsize, e, he, -, hdata, hlen⟩, hbits, -⟩ :=
    pmmInitialize_bits highMap_ok.usableEntries highMap_fits h
  have hbytes : start.bitmap.size = 0x21000 := hsize.trans (by decide)
  have hbase : start.bitmap.data = 0x100000 := by
    rw [hdata]
    simp only [highMap, List.mem_cons, List.not_mem_nil, or_false] at he
    rcases he with rfl | rfl
    · rfl
    · rw [hbytes] at hlen
      cases Nat.not_le_of_lt (show 0x8000 < 0x21000 by decide) hlen
  have hhigh : start.highestPage / PAGE_SIZE = 0x100008 := by
    rw [(pmmInitialize_eq h).1]
    decide
  have hsub : Finset.Ico 0x121 0x4100
      ⊆ (Finset.range (start.highestPage / PAGE_SIZE)).filter
          fun k => pageUsed start k = false := by
    intro k hk
    obtain ⟨h1, h2⟩ := Finset.mem_Ico.mp hk
    refine Finset.mem_filter.mpr ⟨Finset.mem_range.mpr (by omega), (hbits k (by omega)).mpr ⟨?_, ?_⟩⟩
    · refine ⟨_, List.mem_cons_self, rfl, ?_, ?_⟩
      · show 0x100000 ≤ k * PAGE_SIZE
        simp only [PAGE_SIZE]
        omega
      · show k * PAGE_SIZE + PAGE_SIZE ≤ 0x100000 + 0x4000000
        simp only [PAGE_SIZE]
        omega
    · rw [InBitmap, hbase, hbytes]
      simp only [PAGE_SIZE]
      omega
  have hcard := Finset.card_le_card hsub
  rwa [Nat.card_Ico] at hcard

theorem highMap_left {mem : Mem} {map' : List MmapEntry} {start : Machine}
    (h : pmmInitialize mem highMap = some (start, map')) :
    map' = [⟨0x121000, 0x3fdf000, .usable⟩, ⟨0x100000000, 0x8000, .usable⟩] :=
  (pmmInitialize_map h).trans (by decide)

theorem highMap_bootOk (mem : Mem) : BootOk mem highMap where
  map_ok := highMap_ok
  fits := highMap_fits
  phys := by decide
  supplied := by
    intro start map' h
    have h1 := freeCount_highMap h
    have hlen : ∀ e ∈ map', e.type = .usable → e.length ≤ 0x100000000 := by
      rw [highMap_left h]
      decide
    have h2 := card_tablesFor_boot hlen
    rw [BootSupplied]
    omega

/-- **Memory above 4 GiB is missing.**  The allocator hands out the pages at
4 GiB, and the direct map does not lead to them. -/
theorem high_memory_not_mapped :
    ¬ ∀ (mem : Mem) (map map' : List MmapEntry) (start : Machine), BootOk mem map →
      pmmInitialize mem map = some (start, map') → DirectMapComplete map' start map' := by
  intro hclaim
  obtain ⟨start, map', h⟩ : ∃ start map', pmmInitialize (fun _ => 0#8) highMap = some (start, map') :=
    pmmInitialize_some (by decide)
  have hb := highMap_bootOk fun _ => 0#8
  have hpmm := pmmOk_pmmInitialize hb.map_ok hb.fits hb.phys h
  have hleft := highMap_left h
  have husable : UsablePage map' 0x100000 := by
    rw [hleft]
    exact ⟨⟨0x100000000, 0x8000, .usable⟩, by simp, rfl, by decide, by decide⟩
  have hmapped := hclaim _ _ _ _ hb h _ husable
  rw [directMap_page_iff hpmm (hb.length_le h) (hb.supplied start map' h) (by decide),
    directMapped_iff (by rw [hleft]; decide) (by decide), hleft] at hmapped
  revert hmapped
  decide

end BestOS
