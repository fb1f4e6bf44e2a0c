/-
BestOS/KernelHalf.lean

Does `sys_mmap` leave the kernel half alone?

The upper 256 slots of the top level hold the same tables in `kernel_pagemap`
and in every task.  One write below such a slot is seen by all of them, so the
property asked of `sys_mmap` is that it never changes a translation there, in
the calling task's page map or in `kernel_pagemap` (`KernelHalfKept`).

`vmm_mmap` does not check where it maps: with `MAP_FIXED` the caller's `hint`
goes to `vmm_map` as it is, and without it the address is computed from
`used_pages`, which nobody initialises.  `mmap_changes_kernel_half` is a run of
a freshly booted machine: one task, two calls at `MMAP_KERNEL_BASE`.

The property does hold along every run in which tasks map below the kernel
half and the pool does not run dry (`KeepsHalves`): `mmap_keeps_kernel_half`.
An empty pool matters because `get_next_level` uses the `NULL` it is given as
the address of a table.
-/
import BestOS.SpaceInv

namespace BestOS

open ByteMemory RadixForest

/-! ### Boot -/

/-- The pages of a call of `vmm_map_range`. -/
def rangePages (stop offset : Nat) : List (Nat × Nat) :=
  (pageSteps 0 stop).map fun i => (i, (i + offset) % 2 ^ 64)

/-- All pages that `vmm_initialize` maps, in order. -/
def bootPages (map : List MmapEntry) : List (Nat × Nat) :=
  rangePages 0x8000000 MMAP_KERNEL_BASE ++ rangePages 0x100000000 MMAP_IO_BASE ++
    (map.filter fun e => e.type = .usable).flatMap fun e => rangePages e.length MMAP_IO_BASE

theorem vmmInitialize_eq (s : Machine) (map : List MmapEntry) :
    vmmInitialize s map = ((pmmAllocateZero s 1).1,
      mapPages (pmmAllocateZero s 1).2 (pmmAllocateZero s 1).1 0b11 (bootPages map)) := by
  simp only [vmmInitialize, vmmMapRange, mapPages, bootPages, rangePages, List.foldl_append,
    List.foldl_flatMap]

theorem mem_rangePages {stop offset : Nat} {p : Nat × Nat} (h : p ∈ rangePages stop offset) :
    p.1 < stop ∧ p.2 = (p.1 + offset) % 2 ^ 64 := by
  obtain ⟨i, hi, rfl⟩ := List.mem_map.mp h
  obtain ⟨k, hk, rfl⟩ := List.mem_map.mp hi
  have hlt := List.mem_range.mp hk
  refine ⟨?_, rfl⟩
  simp only [PAGE_SIZE] at hlt ⊢
  omega

/-- The pool holds a frame for `kernel_pagemap` and one for every table that
`vmm_initialize` needs. -/
def BootSupplied (s : Machine) (map : List MmapEntry) : Prop :=
  1 + (tablesFor ((bootPages map).map Prod.snd)).card ≤ freeCount s

/-- A fresh frame has no slot filled. -/
theorem TakesFrames.child_eq_none {s s' : Machine} {f : Nat} (htake : TakesFrames s s' f 1)
    (i : Fin 512) : child s'.mem (f * PAGE_SIZE) i = none :=
  BestOS.child_eq_none (entry_eq_zero (fun a ha => htake.zeroed a (by omega)) i)

/-- A fresh frame is a page map that translates nothing. -/
theorem PageMaps.single {s s' : Machine} (h : PmmOk s) {f : Nat} (htake : TakesFrames s s' f 1)
    (shared : Fin 512 → Prop) : PageMaps s' {f * PAGE_SIZE} shared := by
  have hal : f * PAGE_SIZE % PAGE_SIZE = 0 := Nat.mul_mod_left _ _
  have hdiv : f * PAGE_SIZE / PAGE_SIZE = f := Nat.mul_div_cancel f (by decide)
  refine .of_empty (htake.pmmOk h) ⟨hal, ?_, fun a h1 h2 => ?_⟩
    (entry_eq_zero fun a ha => htake.zeroed a (by omega)) shared
  · rw [hdiv]
    exact htake.taken h (Nat.le_refl f) (Nat.lt_succ_self f)
  · have hpage := page_of_mem_frame hal h1 h2
    rw [hdiv] at hpage
    simpa only [InBitmap, htake.bitmap] using
      htake.apart h (Nat.le_of_eq hpage.symm) (by omega)

/-- The first page of the kernel's window is among them. -/
theorem kernel_mem_bootPages (map : List MmapEntry) : (0, MMAP_KERNEL_BASE) ∈ bootPages map := by
  have hzero : 0 ∈ pageSteps 0 0x8000000 :=
    List.mem_map.mpr ⟨0, List.mem_range.mpr (by decide), rfl⟩
  have hmem : (0, MMAP_KERNEL_BASE) ∈ rangePages 0x8000000 MMAP_KERNEL_BASE :=
    List.mem_map.mpr ⟨0, hzero, by decide⟩
  rw [bootPages, List.append_assoc]
  exact List.mem_append_left _ hmem

/-- After boot there is one page map. -/
theorem bootedSystem_pagemaps (s : Machine) (map : List MmapEntry) :
    (bootedSystem s map).pagemaps = {(bootedSystem s map).kernelPagemap} := by
  simp [System.pagemaps, bootedSystem]

/-- **`vmm_initialize`** builds the kernel's page map, the kernel's own slot of
the top level included, and takes no more frames than it has tables. -/
theorem bootedSystem_spec {s : Machine} (h : PmmOk s) {map : List MmapEntry}
    (hlen : ∀ e ∈ map, e.type = .usable → e.length < 2 ^ 64) (hsup : BootSupplied s map) :
    PageMaps (bootedSystem s map).machine (bootedSystem s map).pagemaps KernelSlot ∧
      (bootedSystem s map).machine.bitmap = s.bitmap ∧
      (Upward s → Upward (bootedSystem s map).machine) ∧
      freeCount s ≤ freeCount (bootedSystem s map).machine
        + (1 + (tablesFor ((bootPages map).map Prod.snd)).card) ∧
      child (bootedSystem s map).machine.mem (bootedSystem s map).kernelPagemap
        (index MMAP_KERNEL_BASE 39) ≠ none := by
  rw [BootSupplied] at hsup
  obtain ⟨f, haddr, htake⟩ := pmmAllocateZero_run h (Nat.le_refl 1) (runFree_one h (by omega))
  have hinv₁ := PageMaps.single h htake KernelSlot
  have hcount₁ := htake.freeCount h
  have hbitmap₁ := htake.bitmap
  have hup₁ : Upward s → Upward (pmmAllocateZero s 1).2 := fun hup =>
    hup.mark htake.high htake.lowest fun k hk => htake.bits k (Nat.lt_of_lt_of_le hk h.covers)
  -- the kernel, the first 4 GiB, and the usable entries
  have hpa : ∀ p ∈ bootPages map, p.1 < 2 ^ 64 := by
    intro p hp
    simp only [bootPages, List.mem_append, List.mem_flatMap, List.mem_filter, decide_eq_true_eq] at hp
    rcases hp with (hp | hp) | ⟨e, ⟨he, hu⟩, hp⟩
    · exact (mem_rangePages hp).1.trans (by decide)
    · exact (mem_rangePages hp).1.trans (by decide)
    · exact (mem_rangePages hp).1.trans (hlen e he hu)
  have hfirst := kernel_mem_bootPages map
  rw [bootedSystem_pagemaps]
  simp only [bootedSystem, vmmInitialize_eq, haddr]
  generalize (pmmAllocateZero s 1).2 = s₁ at *
  generalize bootPages map = pages at *
  have hmiss := card_missingTables_le s₁.mem (f * PAGE_SIZE) (pages.map Prod.snd)
  obtain ⟨hinv₂, hgrow, hthere, -⟩ := mapPages_spec hinv₁ rfl (.inl rfl) pages hpa
    (by omega) fun p _ _ _ r' hr' => hr'
  have hcount₂ := hgrow.free
  refine ⟨hinv₂, hgrow.bitmap.trans hbitmap₁, fun hup => hgrow.upward (hup₁ hup), by omega, ?_⟩
  intro hnone
  refine hthere _ hfirst [index MMAP_KERNEL_BASE 39] (by simp [tablePrefixes]) ?_
  rw [walk, hnone]
  rfl

/-- What boot asks of the machine: a memory map as the protocol promises it, a
bitmap that fits, physical addresses of 52 bits, and frames for the kernel's
page tables. -/
structure BootOk (mem : Mem) (map : List MmapEntry) : Prop where
  map_ok : MemoryMapOk map
  fits : BitmapFits map
  phys : scanHighest map 0 ≤ 2 ^ 52
  supplied : ∀ start map', pmmInitialize mem map = some (start, map') → BootSupplied start map'

theorem BootOk.length_lt {mem : Mem} {map map' : List MmapEntry} {start : Machine}
    (h : BootOk mem map) (hinit : pmmInitialize mem map = some (start, map')) :
    ∀ e ∈ map', e.type = .usable → e.length < 2 ^ 64 := by
  intro e he hu
  rw [pmmInitialize_map hinit] at he
  obtain ⟨_, _, _, _, _, _, hlt⟩ := carveBitmap_sub (bitmapSize_aligned _) h.map_ok e he hu
  omega

/-- After boot the invariant holds: one page map, and nothing owned yet. -/
theorem spaceInv_boot {mem : Mem} {map : List MmapEntry} {boot : System} (h : BootOk mem map)
    (hboot : bootSystem mem map = some boot) : SpaceInv boot fun _ => none := by
  obtain ⟨⟨start, map'⟩, hinit, rfl⟩ := Option.map_eq_some_iff.mp hboot
  have hpmm := pmmOk_pmmInitialize h.map_ok h.fits h.phys hinit
  obtain ⟨hinv, -⟩ := bootedSystem_spec hpmm (h.length_lt hinit) (h.supplied start map' hinit)
  have htasks : (bootedSystem start map').tasks = [] := rfl
  have hblocks : (bootedSystem start map').blocks = [] := rfl
  dsimp only
  generalize bootedSystem start map' = boot at *
  refine ⟨hinv, ?_, ?_, ?_, by simp, ?_, ?_, ?_, ?_⟩
  all_goals simp [htasks, hblocks]

/-! ### The property -/

/-- Between `s` and `s'` no address of the kernel half changes its translation,
in the task's page map or in `kernel_pagemap`. -/
def KernelHalfKept (s s' : System) (t : TaskMem) : Prop :=
  ∀ va, KernelSlot (index va 39) →
    translate s'.machine.mem t.pagemap va = translate s.machine.mem t.pagemap va ∧
    translate s'.machine.mem s.kernelPagemap va = translate s.machine.mem s.kernelPagemap va

/-- A call with `MAP_ANONYMOUS` returns. -/
theorem sysStep_mmap_returns {s : System} {i flags : Nat} {t : TaskMem} (hint size : Nat)
    (ht : s.tasks[i]? = some t) (hanon : flags &&& MAP_ANONYMOUS ≠ 0) :
    ∃ s', sysStep s (.mmap i hint size flags) = some s' := by
  have hmask : flags &&& 0xFFFFFFFF &&& MAP_ANONYMOUS = flags &&& MAP_ANONYMOUS := by
    rw [Nat.and_assoc]
    rfl
  simp only [sysStep, ht, Option.bind_some, vmmMmap, hmask, if_neg hanon, Option.map_some]
  exact ⟨_, rfl⟩

/-- **`sys_mmap` and the kernel half.**  In every state that a booted system
reaches by steps that keep to their half, a call of `sys_mmap` that does so
too returns and changes no translation of the kernel half. -/
theorem mmap_keeps_kernel_half {mem : Mem} {map : List MmapEntry} {boot s : System}
    (hb : BootOk mem map) (hboot : bootSystem mem map = some boot)
    (hrun : SysRun KeepsHalves boot s) {i hint size flags : Nat} {t : TaskMem}
    (ht : s.tasks[i]? = some t) (hanon : flags &&& MAP_ANONYMOUS ≠ 0)
    (hok : KeepsHalves s (.mmap i hint size flags)) :
    ∃ s', sysStep s (.mmap i hint size flags) = some s' ∧ KernelHalfKept s s' t := by
  obtain ⟨own, hinv⟩ := hrun.inv (spaceInv_boot hb hboot)
  obtain ⟨s', hstep⟩ := sysStep_mmap_returns hint size ht hanon
  refine ⟨s', hstep, ?_⟩
  obtain ⟨t', u, ht', rfl⟩ := sysStep_mmap hstep
  obtain rfl : t = t' := Option.some.inj (ht.symm.trans ht')
  have hmem : t ∈ s.tasks := List.mem_of_getElem? ht
  obtain ⟨hfree, huser⟩ := hok t ht
  obtain ⟨-, hkept⟩ := hinv.mmapPages hmem (by simpa [Supplied, mmapAddresses] using hfree) huser
  intro va hva
  have hnot : ¬ UserHalf va := fun hu => hu hva
  exact ⟨hkept _ (task_mem_pagemaps hmem) va hnot, hkept _ (kernel_mem_pagemaps s) va hnot⟩

/-! ### A machine with 64 MiB -/

/-- One usable range of 64 MiB from 1 MiB on. -/
def flatMap64 : List MmapEntry := [⟨0x100000, 0x4000000, .usable⟩]

/-- `flatMap64` after the bitmap has taken its first page. -/
def flatMap64Left : List MmapEntry := [⟨0x101000, 0x3fff000, .usable⟩]

/-- Zeroed memory with a bitmap that has every page marked. -/
def flatFull : Machine where
  mem := memset (fun _ => 0#8) 0x100000 0xff#8 0x1000
  highestPage := 0x4100000
  usablePages := 0
  bitmap := ⟨0x100000, 0x1000⟩

/-- The state `pmm_initialize` builds from `flatMap64` on zeroed memory. -/
def flatStart : Machine := releaseUsable flatFull flatMap64Left

theorem flatStart_eq :
    pmmInitialize (fun _ => 0#8) flatMap64 = some (flatStart, flatMap64Left) := rfl

theorem flatStart_high : flatStart.highestPage / PAGE_SIZE = 0x4100 := by
  rw [flatStart, releaseUsable_highestPage]
  rfl

/-- Exactly the pages from `0x101` on are free. -/
theorem pageUsed_flatStart {k : Nat} (hk : k < 0x4100) :
    pageUsed flatStart k = decide (k < 0x101) := by
  have hfree := pageUsed_pmmFree flatFull 0x101000 0x3fff k (by decide)
  have hone := bitTest_memset_ones (fun _ => 0#8) 0x100000 0x1000 (k := k) (by omega)
  have hrange : (0x101000 / PAGE_SIZE ≤ k ∧ k < 0x101000 / PAGE_SIZE + 0x3fff) ↔ ¬ k < 0x101 := by
    simp only [PAGE_SIZE]
    omega
  have hrelease : flatStart = pmmFree flatFull 0x101000 (0x3fff000 / PAGE_SIZE) := by
    simp only [flatStart, flatMap64Left, releaseUsable, if_true]
  have hpages : 0x3fff000 / PAGE_SIZE = 0x3fff := by decide
  have hbit : pageUsed flatFull k = true := hone
  rw [hrelease, hpages, hfree, hbit, Bool.true_and, decide_eq_decide.mpr hrange, decide_not,
    Bool.not_not]

theorem flatStart_upward : Upward flatStart := by
  refine (pool_of_below (n := 0x101) fun k hk => ?_).1
  rw [flatStart_high] at hk
  exact pageUsed_flatStart hk

theorem freeCount_flatStart : 0x3fff ≤ freeCount flatStart := by
  have hcount : freeCount flatStart = flatStart.highestPage / PAGE_SIZE - 0x101 := by
    refine (pool_of_below fun k hk => ?_).2
    rw [flatStart_high] at hk
    exact pageUsed_flatStart hk
  rw [hcount, flatStart_high]

/-- Boot maps 64 regions of 2 MiB for the kernel, and 2048 for the direct map as
long as no usable entry is longer than 4 GiB. -/
theorem card_tablesFor_boot {map : List MmapEntry}
    (hlen : ∀ e ∈ map, e.type = .usable → e.length ≤ 0x100000000) :
    (tablesFor ((bootPages map).map Prod.snd)).card ≤ 6336 := by
  have hregions : ∀ va ∈ (bootPages map).map Prod.snd, va / 2 ^ 21 ∈
      Finset.Ico (MMAP_KERNEL_BASE / 2 ^ 21) (MMAP_KERNEL_BASE / 2 ^ 21 + 64) ∪
        Finset.Ico (MMAP_IO_BASE / 2 ^ 21) (MMAP_IO_BASE / 2 ^ 21 + 2048) := by
    intro va hva
    obtain ⟨p, hp, rfl⟩ := List.mem_map.mp hva
    simp only [bootPages, List.mem_append, List.mem_flatMap, List.mem_filter] at hp
    rw [Finset.mem_union, Finset.mem_Ico, Finset.mem_Ico]
    rcases hp with (hp | hp) | ⟨e, ⟨he, hu⟩, hp⟩
    · obtain ⟨hlt, hva⟩ := mem_rangePages hp
      rw [hva]
      simp only [MMAP_KERNEL_BASE]
      omega
    · obtain ⟨hlt, hva⟩ := mem_rangePages hp
      rw [hva]
      simp only [MMAP_IO_BASE]
      omega
    · obtain ⟨hlt, hva⟩ := mem_rangePages hp
      have hle := hlen e he (by simpa using hu)
      rw [hva]
      simp only [MMAP_IO_BASE]
      omega
  refine (card_tablesFor_le hregions).trans ?_
  have hcard := Finset.card_union_le
    (Finset.Ico (MMAP_KERNEL_BASE / 2 ^ 21) (MMAP_KERNEL_BASE / 2 ^ 21 + 64))
    (Finset.Ico (MMAP_IO_BASE / 2 ^ 21) (MMAP_IO_BASE / 2 ^ 21 + 2048))
  rw [Nat.card_Ico, Nat.card_Ico] at hcard
  omega

theorem card_tablesFor_flat :
    (tablesFor ((bootPages flatMap64Left).map Prod.snd)).card ≤ 6336 :=
  card_tablesFor_boot (by decide)

theorem flatBootOk : BootOk (fun _ => 0#8) flatMap64 where
  map_ok := ⟨by decide, by decide, by simp [flatMap64]⟩
  fits := ⟨⟨_, List.mem_cons_self, rfl, by decide⟩, by decide⟩
  phys := by decide
  supplied := by
    intro start map' hinit
    obtain ⟨rfl, rfl⟩ : flatStart = start ∧ flatMap64Left = map' := by
      rw [flatStart_eq] at hinit
      simpa using hinit
    have h1 := freeCount_flatStart
    have h2 := card_tablesFor_flat
    rw [BootSupplied]
    omega

/-- The machine after boot. -/
def flatBoot : System := bootedSystem flatStart flatMap64Left

theorem flatBoot_eq : bootSystem (fun _ => 0#8) flatMap64 = some flatBoot := by
  rw [bootSystem, flatStart_eq, Option.map_some, flatBoot]

/-- Most of the pool is left after boot, still as one segment, and the kernel's
own slot of the top level is filled. -/
theorem flatBoot_spec :
    Upward flatBoot.machine ∧ flatBoot.machine.bitmap.size = 0x1000 ∧
      10046 ≤ freeCount flatBoot.machine ∧
      child flatBoot.machine.mem flatBoot.kernelPagemap (index MMAP_KERNEL_BASE 39) ≠ none := by
  have hpmm := pmmOk_pmmInitialize flatBootOk.map_ok flatBootOk.fits flatBootOk.phys flatStart_eq
  obtain ⟨-, hbitmap, hup, hcount, hslot⟩ :=
    bootedSystem_spec hpmm (flatBootOk.length_lt flatStart_eq)
      (flatBootOk.supplied _ _ flatStart_eq)
  have h1 := freeCount_flatStart
  have h2 := card_tablesFor_flat
  rw [← flatBoot] at hbitmap hup hcount hslot
  refine ⟨hup flatStart_upward, ?_, by omega, hslot⟩
  rw [hbitmap, flatStart, releaseUsable_bitmap, flatFull]

/-- The machine with one task. -/
def flatTask : System := taskInit flatBoot 0

theorem flatBoot_keepsHalves : KeepsHalves flatBoot (.taskInit 0) := by
  obtain ⟨hup, hsize, hcount, -⟩ := flatBoot_spec
  exact ⟨hup.runFree (by decide) (by rw [hsize]; decide) (Nat.le_trans (by decide) hcount),
    Nat.le_trans (by decide) hcount⟩

theorem flatTask_run : SysRun KeepsHalves flatBoot flatTask :=
  .step (.taskInit 0) .boot flatBoot_keepsHalves rfl

/-- There is one task, it has the kernel's slot, and the pool is far from
empty. -/
theorem flatTask_spec :
    ∃ t, flatTask.tasks[0]? = some t ∧ 10038 ≤ freeCount flatTask.machine ∧
      child flatTask.machine.mem t.pagemap (index MMAP_KERNEL_BASE 39) ≠ none := by
  obtain ⟨hrun, hfree⟩ := flatBoot_keepsHalves
  obtain ⟨-, -, hcount, hslot⟩ := flatBoot_spec
  obtain ⟨f₀, f, htasks, hadd, -⟩ :=
    taskInit_spec (spaceInv_boot flatBootOk flatBoot_eq).maps hrun hfree 0
  refine ⟨⟨f * PAGE_SIZE, f₀ * PAGE_SIZE, 0⟩, ?_, ?_, ?_⟩
  · rw [flatTask, htasks]
    rfl
  · have := hadd.free
    show 10038 ≤ freeCount (taskInit flatBoot 0).machine
    omega
  · obtain ⟨t, ht⟩ := Option.ne_none_iff_exists'.mp hslot
    have hkernel := hadd.slots _ (kernel_mem_pagemaps flatBoot) _ t ht
    have hsame := hadd.maps.forest.agree (f * PAGE_SIZE) (Set.mem_insert _ _) flatBoot.kernelPagemap
      (Set.mem_insert_of_mem _ (kernel_mem_pagemaps flatBoot)) (index MMAP_KERNEL_BASE 39)
      (by decide)
    show child (taskInit flatBoot 0).machine.mem (f * PAGE_SIZE) _ ≠ none
    rw [hsame, hkernel]
    simp

/-- The addresses of a one-page call with `MAP_FIXED` and `MAP_ANONYMOUS`. -/
theorem mmapAddresses_fixed {hint : Nat} (hlt : hint < 2 ^ 64) (u : Nat) :
    mmapAddresses hint 0x1000 (MAP_FIXED ||| MAP_ANONYMOUS) u = [hint] := by
  have hcount : mmapPageCount 0x1000 = 1 := by decide
  have hvirt : mmapVirt hint (MAP_FIXED ||| MAP_ANONYMOUS) u = hint := if_pos (by decide)
  simpa [mmapAddresses, hcount, hvirt, List.range_succ] using hlt

/-- The first task maps a page at 4 MiB. -/
theorem mmap_keeps_kernel_half_flat :
    ∃ t s', flatTask.tasks[0]? = some t ∧
      sysStep flatTask (.mmap 0 0x400000 0x1000 (MAP_FIXED ||| MAP_ANONYMOUS)) = some s' ∧
      KernelHalfKept flatTask s' t := by
  obtain ⟨t, ht, hcount, -⟩ := flatTask_spec
  have hok : KeepsHalves flatTask (.mmap 0 0x400000 0x1000 (MAP_FIXED ||| MAP_ANONYMOUS)) := by
    intro t' ht'
    rw [mmapAddresses_fixed (by decide)]
    refine ⟨?_, by decide⟩
    have hmiss := (card_missingTables_le flatTask.machine.mem t'.pagemap [0x400000]).trans
      (card_tablesFor_le (G := {2}) (by decide))
    have hpages : mmapPageCount 0x1000 = 1 := by decide
    rw [Finset.card_singleton] at hmiss
    rw [Supplied, hpages]
    omega
  obtain ⟨s', hstep, hkept⟩ :=
    mmap_keeps_kernel_half flatBootOk flatBoot_eq flatTask_run ht (by decide) hok
  exact ⟨t, s', ht, hstep, hkept⟩

/-- One page at a filled kernel slot: the call gives it a fresh frame in
`kernel_pagemap` too. -/
theorem mmap_kernel_page {s s' : System} {roots : Set Nat} {t : TaskMem}
    (h : PageMaps s.machine roots KernelSlot) (ht : s.tasks[0]? = some t)
    (hr : t.pagemap ∈ roots) (hk : s.kernelPagemap ∈ roots)
    (htop : TopFree s.machine.mem roots KernelSlot t.pagemap MMAP_KERNEL_BASE)
    (hfree : 4 ≤ freeCount s.machine)
    (hstep : sysStep s (.mmap 0 MMAP_KERNEL_BASE 0x1000 (MAP_FIXED ||| MAP_ANONYMOUS)) = some s') :
    PageMaps s'.machine roots KernelSlot ∧ Grows s.machine s'.machine roots 4 ∧
      s'.kernelPagemap = s.kernelPagemap ∧
      (∃ u, s'.tasks[0]? = some { t with usedPages := u }) ∧
      ∃ f, Fresh s.machine s'.machine roots f ∧
        translate s'.machine.mem s.kernelPagemap MMAP_KERNEL_BASE = some (f * PAGE_SIZE) := by
  obtain ⟨t', u, ht', rfl⟩ := sysStep_mmap hstep
  obtain rfl : t = t' := Option.some.inj (ht.symm.trans ht')
  rw [mmapAddresses_fixed (by decide)]
  have hmiss := missing_le s.machine.mem t.pagemap (tablePath MMAP_KERNEL_BASE)
  simp only [tablePath, List.length_cons, List.length_nil] at hmiss
  obtain ⟨hinv, hgrow, -, f, hfresh, -, hlook⟩ :=
    mmapPage_spec h hr MMAP_KERNEL_BASE (by simp only [tablePath]; omega) htop
  refine ⟨hinv, hgrow.mono (by simp only [tablePath]; omega), rfl, ⟨u, ?_⟩, f, hfresh, ?_⟩
  · exact List.getElem?_set_self (List.getElem?_eq_some_iff.mp ht).1
  · exact (hlook _ hk _).1 ⟨rfl, .inr (by decide)⟩

/-- **`sys_mmap` changes the kernel half.**  On the freshly booted machine the
first task calls `sys_mmap` twice for the page at `MMAP_KERNEL_BASE`, with
`MAP_FIXED`; the second call replaces, in `kernel_pagemap`, the frame that the
first one put there. -/
theorem mmap_changes_kernel_half :
    ¬ ∀ (mem : Mem) (map : List MmapEntry) (boot s s' : System) (i hint size flags : Nat)
      (t : TaskMem), BootOk mem map → bootSystem mem map = some boot →
      SysRun (fun _ _ => True) boot s → s.tasks[i]? = some t → flags &&& MAP_ANONYMOUS ≠ 0 →
      sysStep s (.mmap i hint size flags) = some s' → KernelHalfKept s s' t := by
  intro hclaim
  obtain ⟨t, ht, hcount, hslot⟩ := flatTask_spec
  obtain ⟨own, hinv⟩ := flatTask_run.inv (spaceInv_boot flatBootOk flatBoot_eq)
  have hr := task_mem_pagemaps (List.mem_of_getElem? ht)
  have hk := kernel_mem_pagemaps flatTask
  have htop : TopFree flatTask.machine.mem flatTask.pagemaps KernelSlot t.pagemap MMAP_KERNEL_BASE :=
    fun hnone => absurd hnone hslot
  -- the first call
  obtain ⟨s₁, hstep₁⟩ := sysStep_mmap_returns MMAP_KERNEL_BASE 0x1000 ht
    (show (MAP_FIXED ||| MAP_ANONYMOUS) &&& MAP_ANONYMOUS ≠ 0 by decide)
  obtain ⟨hinv₁, hgrow₁, hkernel₁, ⟨u, ht₁⟩, f₁, hfresh₁, htrans₁⟩ :=
    mmap_kernel_page hinv.maps ht hr hk htop (by omega) hstep₁
  have hcount₁ := hgrow₁.free
  -- the second call
  obtain ⟨s₂, hstep₂⟩ := sysStep_mmap_returns MMAP_KERNEL_BASE 0x1000 ht₁
    (show (MAP_FIXED ||| MAP_ANONYMOUS) &&& MAP_ANONYMOUS ≠ 0 by decide)
  obtain ⟨-, -, -, -, f₂, hfresh₂, htrans₂⟩ :=
    mmap_kernel_page hinv₁ ht₁ hr (by rw [hkernel₁]; exact hk) (htop.grows hr hgrow₁) (by omega)
      hstep₂
  have hrun₁ : SysRun (fun _ _ => True) flatBoot s₁ :=
    .step _ (.step (.taskInit 0) .boot trivial rfl) trivial hstep₁
  have hsame := (hclaim _ _ _ _ _ _ _ _ _ _ flatBootOk flatBoot_eq hrun₁ ht₁ (by decide) hstep₂
    MMAP_KERNEL_BASE (by decide)).2
  rw [htrans₂, hkernel₁, htrans₁] at hsame
  have heq : f₂ = f₁ :=
    Nat.eq_of_mul_eq_mul_right (show 0 < PAGE_SIZE by decide) (Option.some.inj hsame)
  exact hfresh₂.1 (heq ▸ hfresh₁.2.used)

end BestOS
