/-
BestOS/TaskAlias.lean

Does a task's `pagemap` lead to the frame it was given?

`task_init` stores the frame of a new top-level table as a pointer through the
kernel's own window, `f + MMAP_KERNEL_BASE`, and fills the table through it;
`vmm_map` does so too, and a context switch subtracts `MMAP_KERNEL_BASE` again.
The window is 128 MiB long.  A frame behind it has a pointer that
`vmm_initialize` has mapped nowhere, or to another frame, if a usable entry is
so long that the direct map runs into the window (`InKernelWindow`).  The
allocator knows of no such bound: `task_alias_missing` is a task on a machine
with 1 GiB, 128 MiB of which are in use.

The kernel half is the same in every page map and stays as it was built
(`SysRun.kernelHalf`), so what holds after boot holds along every run of steps
that keep to their half.
-/
import BestOS.DirectMap

namespace BestOS

open ByteMemory RadixForest

/-! ### The pointer -/

/-- `new->pagemap`, for a table in the frame at `f`. -/
def taskPointer (f : Nat) : Nat := (f + MMAP_KERNEL_BASE) % 2 ^ 64

/-- `(uint64_t)new_task->pagemap - MMAP_KERNEL_BASE`, which goes to `cr3`. -/
def loadedCr3 (pagemap : Nat) : Nat := (pagemap + (2 ^ 64 - MMAP_KERNEL_BASE)) % 2 ^ 64

/-- The physical address that `va` stands for. -/
def physicalAddress (m : Mem) (pagemap va : Nat) : Option Nat :=
  (translate m pagemap va).map fun frame => frame + va % PAGE_SIZE

/-- The pointer does not wrap, every byte behind it is a byte of the frame, and
the frame is what a context switch loads. -/
structure TaskAlias (m : Mem) (pagemap f : Nat) : Prop where
  fits : f + MMAP_KERNEL_BASE < 2 ^ 64
  reached : ∀ o < PAGE_SIZE, physicalAddress m pagemap (taskPointer f + o) = some (f + o)
  loaded : loadedCr3 (taskPointer f) = f

/-- How far the kernel's window lies above the start of the direct map. -/
def windowOffset : Nat := MMAP_KERNEL_BASE - MMAP_IO_BASE

/-- The frame is one of the first 128 MiB, and no usable entry is so long that
the direct map replaces its page in the window. -/
def InKernelWindow (map : List MmapEntry) (f : Nat) : Prop :=
  f < 0x8000000 ∧ ∀ e ∈ map, e.type = .usable → e.length ≤ f + windowOffset

instance (map : List MmapEntry) (f : Nat) : Decidable (InKernelWindow map f) :=
  inferInstanceAs (Decidable (_ ∧ _))

theorem taskPointer_eq_directVa (f : Nat) : taskPointer f = directVa (f + windowOffset) := by
  have hbase : windowOffset + MMAP_IO_BASE = MMAP_KERNEL_BASE := by decide
  rw [taskPointer, directVa, Nat.add_assoc, hbase]

/-- A page is one page for all of its bytes. -/
theorem taskAlias_iff {m : Mem} {pagemap f : Nat} (hf : f % PAGE_SIZE = 0) :
    TaskAlias m pagemap f ↔
      f + MMAP_KERNEL_BASE < 2 ^ 64 ∧ translate m pagemap (taskPointer f) = some f := by
  have hal : taskPointer f % PAGE_SIZE = 0 := by
    simp only [taskPointer, PAGE_SIZE, MMAP_KERNEL_BASE] at hf ⊢
    omega
  have hbyte : ∀ o < PAGE_SIZE, physicalAddress m pagemap (taskPointer f + o)
      = (translate m pagemap (taskPointer f)).map (· + o) := by
    intro o ho
    have hpage : vaPage (taskPointer f + o) = vaPage (taskPointer f) := by
      simp only [vaPage, PAGE_SIZE] at hal ho ⊢
      omega
    have hmod : (taskPointer f + o) % PAGE_SIZE = o := by
      simp only [PAGE_SIZE] at hal ho ⊢
      omega
    rw [physicalAddress, translate_congr m pagemap hpage, hmod]
  constructor
  · rintro ⟨hfits, hreached, -⟩
    refine ⟨hfits, ?_⟩
    have hzero := hreached 0 (by decide)
    rw [hbyte 0 (by decide)] at hzero
    simpa using hzero
  · rintro ⟨hfits, hpage⟩
    refine ⟨hfits, fun o ho => by rw [hbyte o ho, hpage, Option.map_some], ?_⟩
    simp only [loadedCr3, taskPointer, MMAP_KERNEL_BASE] at hfits ⊢
    omega

/-! ### The window after boot -/

theorem lastPage_append (l₁ l₂ : List (Nat × Nat)) (va : Nat) :
    lastPage (l₁ ++ l₂) va = (lastPage l₂ va).or (lastPage l₁ va) := by
  rw [lastPage, lastPage, lastPage, List.filter_append, List.getLast?_append]

theorem mem_of_lastPage {pages : List (Nat × Nat)} {va : Nat} {q : Nat × Nat}
    (h : lastPage pages va = some q) : q ∈ pages ∧ vaPage q.2 = vaPage va := by
  have hmem := List.mem_filter.mp (List.mem_of_getLast? h)
  exact ⟨hmem.1, by simpa using hmem.2⟩

/-- The rounds of the direct map, of which the last one at a page counts. -/
def directPages (map : List MmapEntry) : List (Nat × Nat) :=
  rangePages 0x100000000 MMAP_IO_BASE ++ entryPages map

theorem mem_directPages {map : List MmapEntry} {q : Nat × Nat} (h : q ∈ directPages map) :
    q ∈ rangePages 0x100000000 MMAP_IO_BASE ∨
      ∃ e ∈ map, e.type = .usable ∧ q ∈ rangePages e.length MMAP_IO_BASE := by
  rcases List.mem_append.mp h with hq | hq
  · exact .inl hq
  · obtain ⟨e, he, hq⟩ := List.mem_flatMap.mp hq
    obtain ⟨he, hu⟩ := List.mem_filter.mp he
    exact .inr ⟨e, he, by simpa using hu, hq⟩

/-- A round of the direct map in the window does not lead to the frame. -/
theorem directPages_ne {map : List MmapEntry} {f : Nat} (hf : f % PAGE_SIZE = 0) {q : Nat × Nat}
    (h : q ∈ directPages map) (hpage : vaPage q.2 = vaPage (taskPointer f)) : q.1 ≠ f := by
  have hal : (f + windowOffset) % PAGE_SIZE = 0 := by
    simp only [windowOffset, PAGE_SIZE, MMAP_KERNEL_BASE, MMAP_IO_BASE] at hf ⊢
    omega
  rw [taskPointer_eq_directVa] at hpage
  have hmod : q.1 % 2 ^ 48 = (f + windowOffset) % 2 ^ 48 := by
    rcases mem_directPages h with hq | ⟨e, -, -, hq⟩
    all_goals exact mod_of_mem_rangePages hal hq hpage
  simp only [windowOffset, MMAP_KERNEL_BASE, MMAP_IO_BASE] at hmod
  omega

/-- The direct map stays out of the window at `f` if no entry reaches it. -/
theorem directPages_apart_iff {map : List MmapEntry} {f : Nat} (hf : f % PAGE_SIZE = 0)
    (hlt : f < 0x8000000) :
    (∀ q ∈ directPages map, vaPage q.2 ≠ vaPage (taskPointer f)) ↔
      ∀ e ∈ map, e.type = .usable → e.length ≤ f + windowOffset := by
  have hal : (f + windowOffset) % PAGE_SIZE = 0 := by
    simp only [windowOffset, PAGE_SIZE, MMAP_KERNEL_BASE, MMAP_IO_BASE] at hf ⊢
    omega
  have hmod : (f + windowOffset) % 2 ^ 48 = f + windowOffset := by
    simp only [windowOffset, MMAP_KERNEL_BASE, MMAP_IO_BASE]
    omega
  have hfar : 0x100000000 ≤ f + windowOffset := by
    simp only [windowOffset, MMAP_KERNEL_BASE, MMAP_IO_BASE]
    omega
  rw [taskPointer_eq_directVa]
  constructor
  · intro h e he hu
    by_contra hlong
    -- the round of `e` at this page
    obtain ⟨l₁, l₂, hrange, -⟩ := rangePages_split MMAP_IO_BASE hal (Nat.lt_of_not_le hlong)
    refine h (f + windowOffset, directVa (f + windowOffset))
      (List.mem_append_right _ (List.mem_flatMap.mpr ⟨e, ?_, ?_⟩)) rfl
    · exact List.mem_filter.mpr ⟨he, by simpa using hu⟩
    · rw [hrange, directVa]
      exact List.mem_append_right _ List.mem_cons_self
  · intro h q hq hpage
    rcases mem_directPages hq with hq | ⟨e, he, hu, hq⟩
    · have := mod_of_mem_rangePages hal hq hpage
      have := (mem_rangePages hq).1
      omega
    · have := mod_of_mem_rangePages hal hq hpage
      have := (mem_rangePages hq).1
      have := h e he hu
      have := Nat.mod_le q.1 (2 ^ 48)
      omega

theorem lastPage_window {map : List MmapEntry} {f : Nat} (hf : f % PAGE_SIZE = 0)
    (hwin : InKernelWindow map f) :
    lastPage (bootPages map) (taskPointer f) = some (f, taskPointer f) := by
  obtain ⟨hlt, hshort⟩ := hwin
  obtain ⟨l₁, l₂, hrange, hafter⟩ := rangePages_split MMAP_KERNEL_BASE hf hlt
  rw [bootPages_eq, hrange, List.append_assoc, List.cons_append]
  refine lastPage_eq_some rfl fun q hq hpage => ?_
  rcases List.mem_append.mp hq with hq | hq
  · -- a later page of the window
    obtain ⟨hlow, hmem⟩ := hafter q hq
    have hal := aligned_of_mem_rangePages hmem
    obtain ⟨hstop, hva⟩ := mem_rangePages hmem
    rw [hva] at hpage
    simp only [vaPage, taskPointer, PAGE_SIZE, MMAP_KERNEL_BASE] at hpage hf hal
    omega
  · exact (directPages_apart_iff hf hlt).mpr hshort q hq hpage

theorem window_of_lastPage {map : List MmapEntry} {f : Nat} (hf : f % PAGE_SIZE = 0)
    {q : Nat × Nat} (h : lastPage (bootPages map) (taskPointer f) = some q) (hq : q.1 = f) :
    InKernelWindow map f := by
  have hdirect : lastPage (directPages map) (taskPointer f) = none := by
    cases hd : lastPage (directPages map) (taskPointer f) with
    | none => rfl
    | some q' =>
        obtain ⟨hmem, hpage⟩ := mem_of_lastPage hd
        rw [bootPages_eq, ← directPages, lastPage_append, hd, Option.some_or] at h
        exact absurd (Option.some.inj h ▸ hq) (directPages_ne hf hmem hpage)
  rw [bootPages_eq, ← directPages, lastPage_append, hdirect, Option.none_or] at h
  have hlt : f < 0x8000000 := hq ▸ (mem_rangePages (mem_of_lastPage h).1).1
  refine ⟨hlt, (directPages_apart_iff hf hlt).mp fun q' hq' hpage => ?_⟩
  have hnil := List.getLast?_eq_none_iff.mp hdirect
  have := List.filter_eq_nil_iff.mp hnil q' hq'
  simp [hpage] at this

/-- **One frame after boot**: its pointer leads to it exactly when it is in the
kernel's window. -/
theorem bootedSystem_alias_iff {mem : Mem} {map map' : List MmapEntry} {start : Machine}
    (hb : BootOk mem map) (h : pmmInitialize mem map = some (start, map')) {f : Nat}
    (hf : f % PAGE_SIZE = 0) :
    TaskAlias (bootedSystem start map').machine.mem (bootedSystem start map').kernelPagemap f ↔
      InKernelWindow map' f := by
  have hpmm := pmmOk_pmmInitialize hb.map_ok hb.fits hb.phys h
  have hlen := hb.length_le h
  rw [taskAlias_iff hf, bootedSystem, translate_vmmInitialize hpmm hlen (hb.supplied start map' h)]
  have hframe : ∀ q ∈ bootPages map', frameOf (q.1 ||| 0b11) = q.1 := by
    intro q hq
    rw [bootPages_eq] at hq
    rcases List.mem_append.mp hq with hq | hq
    · exact frameOf_aligned (aligned_of_mem_rangePages hq) ((mem_rangePages hq).1.trans (by decide))
        (.inl rfl)
    · rcases mem_directPages hq with hq | ⟨e, he, hu, hq⟩
      · exact frameOf_aligned (aligned_of_mem_rangePages hq)
          ((mem_rangePages hq).1.trans (by decide)) (.inl rfl)
      · exact frameOf_aligned (aligned_of_mem_rangePages hq)
          (Nat.lt_of_lt_of_le (mem_rangePages hq).1 (hlen e he hu)) (.inl rfl)
  constructor
  · rintro ⟨-, htrans⟩
    obtain ⟨q, hq, hqf⟩ := Option.map_eq_some_iff.mp htrans
    rw [hframe q (mem_of_lastPage hq).1] at hqf
    exact window_of_lastPage hf hq hqf
  · intro hwin
    have hlast := lastPage_window hf hwin
    refine ⟨Nat.lt_of_lt_of_le (Nat.add_lt_add_right hwin.1 _) (by decide), ?_⟩
    rw [hlast, Option.map_some, hframe _ (mem_of_lastPage hlast).1]

/-! ### The kernel half along a run -/

/-- A page map translates as before where no table has changed. -/
theorem translate_kept {m m' : Mem} {roots : Set Nat}
    (hm : ∀ t, Table (child m) roots 3 t → ∀ a, t ≤ a → a < t + PAGE_SIZE → m' a = m a)
    {r : Nat} (hr : r ∈ roots) (va : Nat) : translate m' r va = translate m r va :=
  translate_of_walk (fun _ hq => walk_eq_of_tables
    (fun t ht j => child_congr (entry_congr j (hm t ht))) hr hq) va

/-- In the kernel half, one page map is as good as another. -/
theorem PageMaps.translate_shared {s : Machine} {roots : Set Nat}
    (h : PageMaps s roots KernelSlot) {r r' : Nat} (hr : r ∈ roots) (hr' : r' ∈ roots) {va : Nat}
    (hva : ¬ UserHalf va) : translate s.mem r va = translate s.mem r' va :=
  h.forest.walk_shared hr hr' (not_not.mp hva) _

/-- Giving pages back touches the bitmap only. -/
theorem pmmFree_outside {s : Machine} (hhigh : s.highestPage ≤ 2 ^ 52)
    (hcovers : s.highestPage / PAGE_SIZE ≤ 8 * s.bitmap.size) {k n : Nat}
    (hk : k + n ≤ s.highestPage / PAGE_SIZE) {a : Nat} (ha : ¬ InBitmap s a) :
    (pmmFree s (k * PAGE_SIZE) n).mem a = s.mem a := by
  refine pmmFree_mem (fun i hi => ?_) ha
  refine Nat.lt_of_lt_of_le ?_ hcovers
  simp only [PAGE_SIZE] at hk ⊢
  omega

/-- **One step and the kernel half.**  A step that keeps to its half leaves
`kernel_pagemap` where it is and changes no translation of its kernel half. -/
theorem SpaceInv.kernelHalf_step {s s' : System} {own : Nat → Option Holder} (h : SpaceInv s own)
    {op : SysOp} (hok : KeepsHalves s op) (hstep : sysStep s op = some s') :
    s'.kernelPagemap = s.kernelPagemap ∧ ∀ va, ¬ UserHalf va →
      translate s'.machine.mem s.kernelPagemap va = translate s.machine.mem s.kernelPagemap va := by
  have hk := kernel_mem_pagemaps s
  have hhigh := h.maps.pmm.high
  have hcovers := h.maps.pmm.covers
  cases op with
  | taskInit usedPages =>
      obtain rfl := Option.some.inj hstep
      obtain ⟨f₀, f, -, hadd, -⟩ := taskInit_spec h.maps hok.1 hok.2 usedPages
      exact ⟨rfl, fun va _ => hadd.others _ hk va⟩
  | loadSegment i base p =>
      obtain ⟨t, ht, rfl⟩ := Option.map_eq_some_iff.mp hstep
      obtain ⟨hrun, hfree, huser⟩ := hok t ht
      obtain ⟨-, -, hlook⟩ := h.maps.elfLoadSegment (task_mem_pagemaps (List.mem_of_getElem? ht))
        hrun hfree fun va hva => topFree_user _ _ _ (huser va hva)
      refine ⟨rfl, fun va' hva' => ?_⟩
      rcases hlook _ hk va' with hsame | ⟨va, hva, hpage, -⟩
      · exact hsame
      · exact absurd (hpage.user (huser va hva)).2 hva'
  | mmap i hint size flags =>
      obtain ⟨t, u, ht, rfl⟩ := sysStep_mmap hstep
      obtain ⟨hfree, huser⟩ := hok t ht
      obtain ⟨-, hkept⟩ := h.mmapPages (List.mem_of_getElem? ht)
        (by simpa [Supplied, mmapAddresses] using hfree) huser
      exact ⟨rfl, fun va hva => hkept _ hk va hva⟩
  | exit i =>
      obtain ⟨t, ht, rfl⟩ := Option.map_eq_some_iff.mp hstep
      have hmem := List.mem_of_getElem? ht
      obtain ⟨f, hsp, hbelow, -⟩ := h.stack t hmem
      have hroot := h.maps.frames _ ⟨_, task_mem_pagemaps hmem, [], by simp, rfl⟩
      have hpage : t.pagemap / PAGE_SIZE * PAGE_SIZE = t.pagemap :=
        Nat.div_mul_cancel (Nat.dvd_of_mod_eq_zero hroot.aligned)
      refine ⟨rfl, fun va _ => translate_kept (fun t' ht' a h1 h2 => ?_) hk va⟩
      have ha := (h.maps.frames t' ht').apart a h1 h2
      dsimp only
      rw [hsp, ← hpage, pmmFree_outside (by simpa using hhigh) (by simpa using hcovers)
        (by rw [pmmFree_highestPage]; exact h.below t hmem) (by simpa [InBitmap] using ha),
        pmmFree_outside hhigh hcovers hbelow ha]
  | heapAlloc n =>
      obtain rfl := Option.some.inj hstep
      obtain ⟨f, -, htake⟩ := pmmAllocateZero_run h.maps.pmm hok.1 hok.2
      obtain ⟨-, -, hwalk, -⟩ := h.maps.take htake
      exact ⟨rfl, fun va _ => translate_of_walk (hwalk _ hk) va⟩
  | heapFree j =>
      obtain ⟨b, hb, rfl⟩ := Option.map_eq_some_iff.mp hstep
      obtain ⟨-, hrun⟩ := h.blocks b (List.mem_of_getElem? hb)
      exact ⟨rfl, fun va _ => translate_of_walk ((h.giveRun hrun).2.1 _ hk) va⟩
  | userStore i va b =>
      obtain ⟨t, ht, hrest⟩ := Option.bind_eq_some_iff.mp hstep
      split at hrest
      · rename_i hva
        obtain ⟨f, hf, rfl⟩ := Option.map_eq_some_iff.mp hrest
        -- the task's frames are not tables
        have hheld := h.held _ _ (h.user t (List.mem_of_getElem? ht) va hva f hf)
        refine ⟨rfl, fun va' _ => translate_kept (fun t' ht' a h1 h2 => ?_) hk va'⟩
        refine put_ne fun heq => hheld.not_table ?_
        have hal := translate_aligned hf
        have hframe := (h.maps.frames t' ht').aligned
        have hsame : f / PAGE_SIZE * PAGE_SIZE = t' := by
          simp only [PAGE_SIZE] at hal hframe h1 h2 heq ⊢
          omega
        rwa [hsame]
      · cases hrest
  | kernelStore a b =>
      obtain rfl := Option.some.inj hstep
      refine ⟨rfl, fun va _ => translate_kept (fun t ht x h1 h2 => ?_) hk va⟩
      have := hok.2 t ht
      exact put_ne (by omega)

/-- **The kernel half along a run**: every page map translates it as
`kernel_pagemap` did after boot. -/
theorem SysRun.kernelHalf {boot s : System} {own : Nat → Option Holder} (hboot : SpaceInv boot own)
    (hrun : SysRun KeepsHalves boot s) :
    ∀ r ∈ s.pagemaps, ∀ va, ¬ UserHalf va →
      translate s.machine.mem r va = translate boot.machine.mem boot.kernelPagemap va := by
  have hkernel : ∀ va, ¬ UserHalf va → translate s.machine.mem s.kernelPagemap va
      = translate boot.machine.mem boot.kernelPagemap va := by
    induction hrun with
    | boot => exact fun _ _ => rfl
    | step op hrun hok hstep ih =>
        obtain ⟨_, hinv⟩ := hrun.inv hboot
        obtain ⟨hsame, hkept⟩ := hinv.kernelHalf_step hok hstep
        intro va hva
        rw [hsame, hkept va hva, ih va hva]
  obtain ⟨_, hinv⟩ := hrun.inv hboot
  intro r hr va hva
  rw [hinv.maps.translate_shared hr (kernel_mem_pagemaps s) hva, hkernel va hva]

/-! ### The tasks of a run -/

theorem pmmAllocateZero_aligned (s : Machine) : (pmmAllocateZero s 1).1 % PAGE_SIZE = 0 := by
  show (pmmAllocate s 1).1 % PAGE_SIZE = 0
  rw [pmmAllocate_eq s Nat.one_pos]
  split
  · rfl
  · split
    · rfl
    · exact Nat.mul_mod_left _ _

/-- What the allocator returns for a page map is always the start of a page. -/
theorem SysRun.pagemap_aligned {ok : System → SysOp → Prop} {boot s : System}
    (hboot : boot.tasks = []) (hrun : SysRun ok boot s) :
    ∀ t ∈ s.tasks, t.pagemap % PAGE_SIZE = 0 := by
  induction hrun with
  | boot =>
      rw [hboot]
      simp
  | @step s s' op _ _ hstep ih =>
      intro t ht
      cases op with
      | taskInit usedPages =>
          obtain rfl := Option.some.inj hstep
          rcases List.mem_append.mp ht with hold | hnew
          · exact ih t hold
          · rw [List.mem_singleton.mp hnew]
            exact pmmAllocateZero_aligned _
      | loadSegment i base p =>
          obtain ⟨t', ht', rfl⟩ := Option.map_eq_some_iff.mp hstep
          exact ih t ht
      | mmap i hint size flags =>
          obtain ⟨t', u, ht', rfl⟩ := sysStep_mmap hstep
          rcases List.mem_or_eq_of_mem_set ht with hold | rfl
          · exact ih t hold
          · exact ih t' (List.mem_of_getElem? ht')
      | exit i =>
          obtain ⟨t', ht', rfl⟩ := Option.map_eq_some_iff.mp hstep
          exact ih t (List.mem_of_mem_eraseIdx ht)
      | heapAlloc n =>
          obtain rfl := Option.some.inj hstep
          exact ih t ht
      | heapFree j =>
          obtain ⟨b, hb, rfl⟩ := Option.map_eq_some_iff.mp hstep
          exact ih t ht
      | userStore i va b =>
          obtain ⟨t', ht', hrest⟩ := Option.bind_eq_some_iff.mp hstep
          split at hrest
          · obtain ⟨f, hf, rfl⟩ := Option.map_eq_some_iff.mp hrest
            exact ih t ht
          · cases hrest
      | kernelStore a b =>
          obtain rfl := Option.some.inj hstep
          exact ih t ht

/-- A task of a run whose steps keep to their half. -/
theorem SysRun.alias_iff {mem : Mem} {map map' : List MmapEntry} {start : Machine}
    (hb : BootOk mem map) (h : pmmInitialize mem map = some (start, map')) {s : System}
    (hrun : SysRun KeepsHalves (bootedSystem start map') s) {t : TaskMem} (ht : t ∈ s.tasks)
    {r : Nat} (hr : r ∈ s.pagemaps) :
    TaskAlias s.machine.mem r t.pagemap ↔ InKernelWindow map' t.pagemap := by
  have hboot : bootSystem mem map = some (bootedSystem start map') := by
    rw [bootSystem, h, Option.map_some]
  have hal := hrun.pagemap_aligned rfl t ht
  rw [← bootedSystem_alias_iff hb h hal, taskAlias_iff hal, taskAlias_iff hal]
  refine and_congr_right fun hfits => ?_
  -- a pointer that does not wrap is in the kernel half
  have hhalf : ¬ UserHalf (taskPointer t.pagemap) := by
    simp only [UserHalf, KernelSlot, index, taskPointer, MMAP_KERNEL_BASE] at hfits ⊢
    omega
  rw [hrun.kernelHalf (spaceInv_boot hb hboot) r hr _ hhalf]

/-- **Page maps of tasks.**  After boot, the pointer to a page-aligned frame leads
to it exactly when the frame is in the kernel's window; so it is for the page
map of every task of every run, and in every page map of a run whose steps keep
to their half. -/
theorem task_alias_iff {mem : Mem} {map map' : List MmapEntry} {start : Machine}
    (hb : BootOk mem map) (h : pmmInitialize mem map = some (start, map')) :
    (∀ f, f % PAGE_SIZE = 0 →
      (TaskAlias (bootedSystem start map').machine.mem (bootedSystem start map').kernelPagemap f ↔
        InKernelWindow map' f)) ∧
    (∀ s, SysRun (fun _ _ => True) (bootedSystem start map') s → ∀ t ∈ s.tasks,
      (TaskAlias (bootedSystem start map').machine.mem (bootedSystem start map').kernelPagemap
        t.pagemap ↔ InKernelWindow map' t.pagemap)) ∧
    ∀ s, SysRun KeepsHalves (bootedSystem start map') s → ∀ t ∈ s.tasks, ∀ r ∈ s.pagemaps,
      (TaskAlias s.machine.mem r t.pagemap ↔ InKernelWindow map' t.pagemap) :=
  ⟨fun _ hf => bootedSystem_alias_iff hb h hf,
    fun _ hrun t ht => bootedSystem_alias_iff hb h (hrun.pagemap_aligned rfl t ht),
    fun _ hrun _ ht _ hr => hrun.alias_iff hb h ht hr⟩

/-- On the machine with 64 MiB every frame is in the window. -/
theorem task_alias_flat :
    ∃ t ∈ flatTask.tasks, TaskAlias flatTask.machine.mem flatTask.kernelPagemap t.pagemap := by
  obtain ⟨t, ht, -⟩ := flatTask_spec
  have hmem := List.mem_of_getElem? ht
  obtain ⟨_, hinv⟩ := flatTask_run.inv (spaceInv_boot flatBootOk flatBoot_eq)
  refine ⟨t, hmem, ((task_alias_iff flatBootOk flatStart_eq).2.2 _ flatTask_run t hmem _
    (kernel_mem_pagemaps _)).mpr ⟨?_, ?_⟩⟩
  · have hbelow := Nat.lt_of_lt_of_le (hinv.below t hmem) hinv.maps.pmm.covers
    have hsize : flatTask.machine.bitmap.size = 0x1000 := by
      obtain ⟨hrun, hfree⟩ := flatBoot_keepsHalves
      obtain ⟨-, hsize, -⟩ := flatBoot_spec
      obtain ⟨f₀, f, -, hadd, -⟩ :=
        taskInit_spec (spaceInv_boot flatBootOk flatBoot_eq).maps hrun hfree 0
      rw [flatTask, hadd.bitmap, hsize]
    rw [hsize] at hbelow
    simp only [PAGE_SIZE] at hbelow
    omega
  · intro e he _
    obtain rfl : e = ⟨0x101000, 0x3fff000, .usable⟩ := by simpa [flatMap64Left] using he
    exact Nat.le_trans (by decide) (Nat.le_add_left windowOffset t.pagemap)

/-! ### A machine with 1 GiB -/

/-- All of the first GiB behind the first MiB. -/
def gibMap : List MmapEntry := [⟨0x100000, 0x3ff00000, .usable⟩]

theorem gibMap_ok : MemoryMapOk gibMap := ⟨by decide, by decide, by simp [gibMap]⟩

theorem gibMap_fits : BitmapFits gibMap := ⟨⟨_, List.mem_cons_self, rfl, by decide⟩, by decide⟩

/-- The bitmap takes eight pages, and the pages behind it are free. -/
theorem gibMap_start {mem : Mem} {map' : List MmapEntry} {start : Machine}
    (h : pmmInitialize mem gibMap = some (start, map')) :
    Upward start ∧ freeCount start = 0x3fef8 ∧ start.bitmap.size = 0x8000 := by
  obtain ⟨⟨hsize, e, he, -, hdata, -⟩, hbits, -⟩ :=
    pmmInitialize_bits gibMap_ok.usableEntries gibMap_fits h
  have hbytes : start.bitmap.size = 0x8000 := hsize.trans (by decide)
  obtain rfl : e = ⟨0x100000, 0x3ff00000, .usable⟩ := by simpa [gibMap] using he
  have hbase : start.bitmap.data = 0x100000 := hdata
  have hhigh : start.highestPage / PAGE_SIZE = 0x40000 := by
    rw [(pmmInitialize_eq h).1]
    decide
  have hused : ∀ k < start.highestPage / PAGE_SIZE, pageUsed start k = decide (k < 0x108) := by
    intro k hk
    rw [hhigh] at hk
    have hbit := hbits k (by omega)
    have husable : UsablePage gibMap k ↔ 0x100 ≤ k := by
      simp only [UsablePage, gibMap, List.mem_singleton, exists_eq_left, true_and]
      show 0x100000 ≤ k * 4096 ∧ k * 4096 + 4096 ≤ 0x100000 + 0x3ff00000 ↔ 0x100 ≤ k
      omega
    rw [husable, InBitmap, hbase, hbytes] at hbit
    simp only [PAGE_SIZE] at hbit
    by_cases hlow : k < 0x108
    · rw [decide_eq_true hlow, ← Bool.not_eq_false]
      exact fun hfree => absurd (hbit.mp hfree) (by omega)
    · rw [decide_eq_false hlow]
      exact hbit.mpr (by omega)
  obtain ⟨hup, hcount⟩ := pool_of_below hused
  exact ⟨hup, hcount.trans (by rw [hhigh]), hbytes⟩

theorem gibMap_length {mem : Mem} {map' : List MmapEntry} {start : Machine}
    (h : pmmInitialize mem gibMap = some (start, map')) :
    ∀ e ∈ map', e.type = .usable → e.length ≤ 0x100000000 := by
  rw [pmmInitialize_map h]
  decide

theorem gibMap_bootOk (mem : Mem) : BootOk mem gibMap where
  map_ok := gibMap_ok
  fits := gibMap_fits
  phys := by decide
  supplied := by
    intro start map' h
    obtain ⟨-, hcount, -⟩ := gibMap_start h
    have htables := card_tablesFor_boot (gibMap_length h)
    rw [BootSupplied]
    omega

/-- An allocation of 128 MiB takes all that is left of the first 128 MiB. -/
theorem heapAlloc_behind {s s' : System} {own : Nat → Option Holder} (h : SpaceInv s own)
    (hup : Upward s.machine) (hsize : s.machine.bitmap.size = 0x8000)
    (hcount : 0x8008 ≤ freeCount s.machine) (hstep : sysStep s (.heapAlloc 0x8000) = some s') :
    KeepsHalves s (.heapAlloc 0x8000) ∧ KeepsHalves s' (.taskInit 0) ∧
      ∀ k < 0x8000, MarkedUsed s'.machine k := by
  have halloc : KeepsHalves s (.heapAlloc 0x8000) :=
    ⟨by decide, hup.runFree (by decide) (Nat.le_of_eq hsize.symm) (by omega)⟩
  obtain ⟨f, -, htake⟩ := pmmAllocateZero_run h.maps.pmm halloc.1 halloc.2
  obtain rfl := Option.some.inj hstep
  dsimp only
  generalize (pmmAllocateZero s.machine 0x8000).2 = m at *
  have hcount' := htake.freeCount h.maps.pmm
  have hup' := hup.mark htake.high htake.lowest fun k hk =>
    htake.bits k (Nat.lt_of_lt_of_le hk h.maps.pmm.covers)
  refine ⟨halloc, ⟨hup'.runFree (by decide) ?_ ?_, ?_⟩, fun k hk => ?_⟩
  · rw [htake.bitmap, hsize]
    decide
  · show 4 ≤ freeCount m
    omega
  · show 8 ≤ freeCount m
    omega
  · have hin : k < 8 * s.machine.bitmap.size := by omega
    refine ⟨by rwa [htake.bitmap], ?_⟩
    rw [htake.bits k hin]
    by_cases hlow : k < f
    · rw [htake.lowest k hlow, Bool.true_or]
    · rw [decide_eq_true (by omega), Bool.or_true]

/-- With 128 MiB in use from the start of memory on, the page map of a new task
lies behind the window. -/
theorem taskInit_behind {s : System} {own : Nat → Option Holder} (h : SpaceInv s own)
    (hok : KeepsHalves s (.taskInit 0)) (hused : ∀ k < 0x8000, MarkedUsed s.machine k) :
    ∃ t ∈ (taskInit s 0).tasks, 0x8000000 ≤ t.pagemap := by
  obtain ⟨f₀, f, htasks, -, hnew, -⟩ := taskInit_spec h.maps hok.1 hok.2 0
  refine ⟨⟨f * PAGE_SIZE, f₀ * PAGE_SIZE, 0⟩, by rw [htasks]; simp, ?_⟩
  have hf : ¬ f < 0x8000 := fun hf => hnew (hused f hf)
  show 0x8000000 ≤ f * PAGE_SIZE
  simp only [PAGE_SIZE]
  omega

/-- **A page map behind the window.**  After an allocation of 128 MiB on a
machine with 1 GiB, `task_init` gives the new task a page map that its pointer
does not lead to. -/
theorem task_alias_missing :
    ¬ ∀ (mem : Mem) (map : List MmapEntry) (boot s : System) (t : TaskMem), BootOk mem map →
      bootSystem mem map = some boot → SysRun KeepsHalves boot s → t ∈ s.tasks →
      TaskAlias boot.machine.mem boot.kernelPagemap t.pagemap := by
  intro hclaim
  obtain ⟨start, map', h⟩ : ∃ start map', pmmInitialize (fun _ => 0#8) gibMap = some (start, map') :=
    pmmInitialize_some (by decide)
  have hb := gibMap_bootOk fun _ => 0#8
  have hpmm := pmmOk_pmmInitialize hb.map_ok hb.fits hb.phys h
  have hboot : bootSystem (fun _ => 0#8) gibMap = some (bootedSystem start map') := by
    rw [bootSystem, h, Option.map_some]
  have hinv := spaceInv_boot hb hboot
  -- the pool after boot
  obtain ⟨hup₀, hcount₀, hsize₀⟩ := gibMap_start h
  obtain ⟨-, hbitmap, hup, hcount, -⟩ :=
    bootedSystem_spec hpmm (hb.length_lt h) (hb.supplied start map' h)
  have htables := card_tablesFor_boot (gibMap_length h)
  -- 128 MiB for the heap, and then a task
  obtain ⟨s₁, hs₁⟩ : ∃ s₁, sysStep (bootedSystem start map') (.heapAlloc 0x8000) = some s₁ := ⟨_, rfl⟩
  obtain ⟨halloc, hinit, hused⟩ :=
    heapAlloc_behind hinv (hup hup₀) (hbitmap ▸ hsize₀) (by omega) hs₁
  have hrun₁ := SysRun.step _ .boot halloc hs₁
  obtain ⟨_, hinv₁⟩ := hrun₁.inv hinv
  obtain ⟨t, ht, hfar⟩ := taskInit_behind hinv₁ hinit hused
  have hrun₂ := SysRun.step (.taskInit 0) hrun₁ hinit rfl
  have halias := hclaim _ _ _ _ t hb hboot hrun₂ ht
  rw [bootedSystem_alias_iff hb h (hrun₂.pagemap_aligned rfl t ht)] at halias
  exact Nat.not_lt.mpr hfar halias.1

end BestOS
