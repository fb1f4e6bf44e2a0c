/-
BestOS/SpaceInv.lean

Every step of the system that keeps to its half keeps the address spaces
apart.

The invariant `SpaceInv s own` has two parts.  The page maps of the kernel and
of all tasks form one forest that shares the kernel's half (`PageMaps`, with
`KernelSlot`).  And the frames in use beside the tables have an owner: `own`
gives for each frame the task or the heap block it belongs to.  What a task
maps below the kernel half, its stack, and the heap's blocks are frames they
own; an owned frame is neither a table nor part of the bitmap.

So a task's store goes to a frame of its own, the frames that `sys_exit` and
the heap give back are nobody else's, and a frame that is taken was nobody's.
One lemma for each step says that it keeps the invariant; `SysRun.inv` is the
induction over runs.
-/
import BestOS.AddressSpaces
import Mathlib.Data.List.Nodup

namespace BestOS

open ByteMemory RadixForest

/-! ### A new top-level table -/

/-- The copying writes to the new table only. -/
theorem copyKernelHalf_agree (m : Mem) (p k : Nat) {n : Nat} (hn : n ≤ 256) {a : Nat}
    (h : a < p ∨ p + PAGE_SIZE ≤ a) : copyKernelHalf m p k n a = m a := by
  induction n with
  | zero => rfl
  | succ n ih =>
      show setEntry _ p (256 + n) _ a = m a
      rw [setEntry_agree _ p _ (⟨256 + n, by omega⟩ : Fin 512) h, ih (by omega)]

theorem copyKernelHalf_entry (m : Mem) {p k : Nat} (hp : p % PAGE_SIZE = 0)
    (hk : k % PAGE_SIZE = 0) (hne : k ≠ p) {n : Nat} (hn : n ≤ 256) (i : Fin 512) :
    entry (copyKernelHalf m p k n) p i
      = if 256 ≤ i.val ∧ i.val < 256 + n then entry m k i else entry m p i := by
  induction n with
  | zero => rw [if_neg (by omega)]; rfl
  | succ n ih =>
      have hlt : 256 + n < 512 := by omega
      have hsrc : entry (copyKernelHalf m p k n) k (256 + n) = entry m k (256 + n) := by
        refine entry_congr (⟨256 + n, hlt⟩ : Fin 512) fun a h1 h2 => ?_
        refine copyKernelHalf_agree m p k (by omega) ?_
        simp only [PAGE_SIZE] at hp hk h2 ⊢
        omega
      show entry (setEntry _ p (256 + n) _) p i = _
      rw [hsrc]
      by_cases hi : i.val = 256 + n
      · rw [hi, entry_setEntry_same _ _ _ (entry_lt m k (256 + n)), if_pos (by omega)]
      · have hslot : ¬ (p = p ∧ i = (⟨256 + n, hlt⟩ : Fin 512)) := fun h => hi (congrArg Fin.val h.2)
        rw [entry_setEntry_ne _ hp hp (entry m k (256 + n)) hslot, ih (by omega)]
        by_cases hin : 256 ≤ i.val ∧ i.val < 256 + n
        · rw [if_pos hin, if_pos (by omega)]
        · rw [if_neg hin, if_neg (by omega)]

/-- A fresh frame, with the kernel half of `k` copied in, is a new page map
beside the others: its user half is empty, and no other page map notices. -/
theorem PageMaps.newRoot {s s₁ : Machine} {roots : Set Nat} (h : PageMaps s roots KernelSlot)
    {k f : Nat} (hk : k ∈ roots) (htake : TakesFrames s s₁ f 1) :
    PageMaps (shareKernelHalf s₁ (f * PAGE_SIZE) k) (insert (f * PAGE_SIZE) roots) KernelSlot ∧
      Grows s (shareKernelHalf s₁ (f * PAGE_SIZE) k) roots 1 ∧
      (∀ r ∈ roots, ∀ q : List (Fin 512), q.length ≤ 4 →
        walk (child (shareKernelHalf s₁ (f * PAGE_SIZE) k).mem) r q = walk (child s.mem) r q) ∧
      (∀ i, ¬ KernelSlot i →
        child (shareKernelHalf s₁ (f * PAGE_SIZE) k).mem (f * PAGE_SIZE) i = none) ∧
      (∀ j, Held s roots j →
        Held (shareKernelHalf s₁ (f * PAGE_SIZE) k) (insert (f * PAGE_SIZE) roots) j) ∧
      f * PAGE_SIZE ∉ roots := by
  let s' := shareKernelHalf s₁ (f * PAGE_SIZE) k
  obtain ⟨hinv₁, hgrow₁, hwalk₁, hfresh⟩ := h.take htake
  obtain ⟨hwas, hheld⟩ := hfresh f (Nat.le_refl f) (Nat.lt_succ_self f)
  have hal : f * PAGE_SIZE % PAGE_SIZE = 0 := Nat.mul_mod_left _ _
  have hdiv : f * PAGE_SIZE / PAGE_SIZE = f := Nat.mul_div_cancel f (by decide)
  have hkTable : Table (child s₁.mem) roots 3 k := ⟨k, hk, [], by simp, rfl⟩
  have hkFrame := hinv₁.frames k hkTable
  have hkne : k ≠ f * PAGE_SIZE := fun e => hheld.not_table (e ▸ hkTable)
  -- the copying stays inside the new frame
  have hout : ∀ a, a / PAGE_SIZE ≠ f → s'.mem a = s₁.mem a := fun a ha =>
    copyKernelHalf_agree s₁.mem (f * PAGE_SIZE) k (Nat.le_refl 256)
      (outside_frame hal (by rw [hdiv]; exact ha))
  have hbits : ∀ j < 8 * s₁.bitmap.size, pageUsed s' j = pageUsed s₁ j := fun j hj =>
    pageUsed_congr (s := s₁) (by rfl)
      (fun a ha => hout a fun e => hheld.apart a e ha) hj
  have hused : ∀ j, MarkedUsed s' j ↔ MarkedUsed s₁ j := fun j =>
    and_congr_right fun hj => by rw [hbits j hj]
  have hmark : ∀ j, MarkedUsed s₁ j → MarkedUsed s' j := fun j => (hused j).mpr
  have hpmm' : PmmOk s' := ⟨hinv₁.pmm.high, hinv₁.pmm.covers, fun a ha =>
    hmark _ (hinv₁.pmm.stored a ha)⟩
  have htableOut : ∀ t, Table (child s₁.mem) roots 3 t → ∀ a, t ≤ a → a < t + PAGE_SIZE →
      s'.mem a = s₁.mem a := by
    intro t ht a h1 h2
    refine hout a fun e => hheld.not_table ?_
    have hframe := hinv₁.frames t ht
    rw [page_of_mem_frame hframe.aligned h1 h2] at e
    rwa [← e, Nat.div_mul_cancel (Nat.dvd_of_mod_eq_zero hframe.aligned)]
  obtain ⟨hinv', hchild⟩ := hinv₁.frame s' (by rfl) hpmm' htableOut
    fun t ht => hmark _ (hinv₁.frames t ht).used
  -- the new table: the kernel slots of `k`, and zero below
  have hentry : ∀ i : Fin 512, entry s'.mem (f * PAGE_SIZE) i
      = if KernelSlot i then entry s₁.mem k i else 0 := by
    intro i
    have hzero : entry s₁.mem (f * PAGE_SIZE) i = 0 :=
      entry_eq_zero (fun a ha => htake.zeroed a (by omega)) i
    show entry (copyKernelHalf s₁.mem (f * PAGE_SIZE) k 256) (f * PAGE_SIZE) i = _
    rw [copyKernelHalf_entry s₁.mem hal hkFrame.aligned hkne (Nat.le_refl 256), hzero]
    have hi := i.isLt
    by_cases hslot : KernelSlot i
    · rw [if_pos hslot, if_pos ⟨hslot, by omega⟩]
    · rw [if_neg hslot, if_neg fun hc => hslot hc.1]
  have hshared : ∀ i, KernelSlot i → child s'.mem (f * PAGE_SIZE) i = child s₁.mem k i := by
    intro i hi
    rw [child, child, hentry i, if_pos hi]
  have hempty : ∀ i, ¬ KernelSlot i → child s'.mem (f * PAGE_SIZE) i = none := by
    intro i hi
    exact child_eq_none (by rw [hentry i, if_neg hi])
  obtain ⟨hforest, -, htables⟩ := hinv₁.forest.addRoot hk hheld.not_table hchild hshared hempty
  have hwalks : ∀ r ∈ roots, ∀ q : List (Fin 512), q.length ≤ 4 →
      walk (child s'.mem) r q = walk (child s.mem) r q := by
    intro r hr q hq
    rw [walk_eq_of_tables hchild hr hq, hwalk₁ r hr q hq]
  have hmarked : MarkedUsed s' f := hmark f hheld.used
  refine ⟨⟨hpmm', hforest, ?_, ?_⟩, ?_, hwalks, ?_, ?_, ?_⟩
  · intro t ht
    rcases htables 3 (Nat.le_refl 3) t ht with rfl | hold
    · refine ⟨hal, by rwa [hdiv], fun a h1 h2 => hheld.apart a ?_⟩
      rw [page_of_mem_frame hal h1 h2, hdiv]
    · have hframe := hinv₁.frames t hold
      exact ⟨hframe.aligned, hmark _ hframe.used, hframe.apart⟩
  · intro t ht i hodd
    rcases htables 2 (by omega) t ht with rfl | hold
    · rw [hentry i] at hodd ⊢
      by_cases hslot : KernelSlot i
      · rw [if_pos hslot] at hodd ⊢
        exact hinv₁.plain k ⟨k, hk, [], by simp, rfl⟩ i hodd
      · rw [if_neg hslot] at hodd
        cases hodd
    · obtain ⟨r, hr, p, hp, hw⟩ := hold
      have hT : Table (child s₁.mem) roots 3 t := ⟨r, hr, p, by omega, hw⟩
      have e : entry s'.mem t i = entry s₁.mem t i := entry_congr i (htableOut t hT)
      rw [e] at hodd ⊢
      exact hinv₁.plain t ⟨r, hr, p, hp, hw⟩ i hodd
  · obtain ⟨hcount, hupward⟩ : freeCount s' = freeCount s₁ ∧ (Upward s₁ → Upward s') :=
      pool_congr hinv₁.pmm rfl rfl hused
    refine ⟨hgrow₁.bitmap, hgrow₁.high, fun j hj => hmark j (hgrow₁.used j hj), ?_,
      fun hup => hupward (hgrow₁.upward hup), ?_, ?_, ?_, ?_⟩
    · exact fun j hn hj => hgrow₁.below j hn ((hused j).mp hj)
    · rw [hcount]
      exact hgrow₁.free
    · exact fun t ht => hgrow₁.tables t (ht.congr hchild (Nat.le_refl 3))
    · intro r hr p t hp hw
      exact (hwalks r hr p (by omega)).trans hw
    · intro a hu hnt hnb
      have hane : a / PAGE_SIZE ≠ f := fun e => hwas (e ▸ hu)
      rw [hout a hane]
      exact hgrow₁.data a hu hnt hnb
  · exact hempty
  · intro j hj
    have hj₁ := hj.grows hgrow₁
    refine ⟨hmark j hj₁.used, fun ht => ?_, hj₁.apart⟩
    rcases htables 3 (Nat.le_refl 3) _ ht with e | hold
    · exact hwas ((Nat.eq_of_mul_eq_mul_right (by decide) e) ▸ hj.used)
    · exact hj₁.not_table hold
  · exact fun hmem => hheld.not_table ⟨_, hmem, [], by simp, rfl⟩

/-! ### Giving frames back, and stores -/

/-- Releasing frames that hold neither tables nor the bitmap. -/
theorem PageMaps.give {s s' : Machine} {roots : Set Nat} {shared : Fin 512 → Prop}
    (h : PageMaps s roots shared) {f n : Nat} (hgive : GivesFrames s s' f n)
    (hout : ∀ k, f ≤ k → k < f + n →
      ¬ Table (child s.mem) roots 3 (k * PAGE_SIZE) ∧ ∀ a, a / PAGE_SIZE = k → ¬ InBitmap s a) :
    PageMaps s' roots shared ∧
      (∀ t, Table (child s.mem) roots 3 t → ∀ j, child s'.mem t j = child s.mem t j) ∧
      ∀ k, ¬ (f ≤ k ∧ k < f + n) → Held s roots k → Held s' roots k := by
  have hpmm : PmmOk s' := hgive.pmmOk h.pmm fun a ha hin => (hout _ hin.1 hin.2).2 a rfl ha
  obtain ⟨hinv, hchild⟩ := h.frame s' hgive.bitmap hpmm
    (fun t ht a h1 h2 => hgive.kept a ((h.frames t ht).apart a h1 h2)) (by
      intro t ht
      have hframe := h.frames t ht
      refine hgive.marked _ (fun hin => (hout _ hin.1 hin.2).1 ?_) hframe.used
      rwa [Nat.div_mul_cancel (Nat.dvd_of_mod_eq_zero hframe.aligned)])
  refine ⟨hinv, hchild, fun k hk hheld => ⟨hgive.marked k hk hheld.used, fun ht => ?_, ?_⟩⟩
  · exact hheld.not_table (ht.congr hchild (Nat.le_refl 3))
  · simpa only [InBitmap, hgive.bitmap] using hheld.apart

/-! ### The invariant -/

/-- Who a frame in use belongs to: a task, known by its page map, or a block of
the heap, known by its address. -/
inductive Holder
  | task (pagemap : Nat)
  | heap (addr : Nat)
deriving DecidableEq

/-- `n` pages from `addr` on belong to `o`. -/
def OwnsRun (s : Machine) (own : Nat → Option Holder) (o : Holder) (addr n : Nat) : Prop :=
  ∃ k, addr = k * PAGE_SIZE ∧ k + n ≤ s.highestPage / PAGE_SIZE ∧
    ∀ j, k ≤ j → j < k + n → own j = some o

/-- The invariant of the address spaces. -/
structure SpaceInv (s : System) (own : Nat → Option Holder) : Prop where
  maps : PageMaps s.machine s.pagemaps KernelSlot
  distinct : (s.tasks.map TaskMem.pagemap).Nodup
  kernel_apart : ∀ t ∈ s.tasks, t.pagemap ≠ s.kernelPagemap
  below : ∀ t ∈ s.tasks, t.pagemap / PAGE_SIZE < s.machine.highestPage / PAGE_SIZE
  held : ∀ k o, own k = some o → Held s.machine s.pagemaps k
  user : ∀ t ∈ s.tasks, ∀ va, UserHalf va → ∀ f, translate s.machine.mem t.pagemap va = some f →
    own (f / PAGE_SIZE) = some (.task t.pagemap)
  stack : ∀ t ∈ s.tasks,
    OwnsRun s.machine own (.task t.pagemap) t.sp (STACK_SIZE / PAGE_SIZE)
  blocks : ∀ b ∈ s.blocks, 1 ≤ b.2 ∧ OwnsRun s.machine own (.heap b.1) b.1 b.2
  blocks_distinct : (s.blocks.map Prod.fst).Nodup

theorem kernel_mem_pagemaps (s : System) : s.kernelPagemap ∈ s.pagemaps := Set.mem_insert _ _

theorem task_mem_pagemaps {s : System} {t : TaskMem} (ht : t ∈ s.tasks) :
    t.pagemap ∈ s.pagemaps := Set.mem_insert_of_mem _ ⟨t, ht, rfl⟩

theorem OwnsRun.mono {s s' : Machine} {own own' : Nat → Option Holder} {o : Holder}
    {addr n : Nat} (h : OwnsRun s own o addr n) (hh : s'.highestPage = s.highestPage)
    (hown : ∀ k, own k = some o → own' k = some o) : OwnsRun s' own' o addr n := by
  obtain ⟨k, haddr, hle, hall⟩ := h
  exact ⟨k, haddr, by rw [hh]; exact hle, fun j h1 h2 => hown j (hall j h1 h2)⟩

open Classical in
/-- The fresh frames go to `o`. -/
noncomputable def handTo (o : Holder) (m m' : Machine) (roots : Set Nat)
    (own : Nat → Option Holder) (k : Nat) : Option Holder :=
  if Fresh m m' roots k then some o else own k

section

variable {o o' : Holder} {m m' : Machine} {roots : Set Nat} {own : Nat → Option Holder} {k : Nat}

theorem handTo_fresh (h : Fresh m m' roots k) : handTo o m m' roots own k = some o :=
  if_pos h

/-- A frame that has an owner was in use, so it is not fresh. -/
theorem handTo_owned {roots₀ : Set Nat} (hheld : Held m roots₀ k) (h : own k = some o') :
    handTo o m m' roots own k = some o' := by
  rw [handTo, if_neg fun hfresh => hfresh.1 hheld.used, h]

theorem handTo_some (h : handTo o m m' roots own k = some o') :
    Fresh m m' roots k ∨ own k = some o' := by
  unfold handTo at h
  split at h
  · rename_i hfresh
    exact .inl hfresh
  · exact .inr h

end

/-- **Growing.**  A step that takes frames, builds tables and maps pages for
one holder `o` keeps the invariant; the fresh frames are `o`'s. -/
theorem SpaceInv.grow {s : System} {own : Nat → Option Holder} (h : SpaceInv s own)
    {m' : Machine} {n : Nat} (hinv : PageMaps m' s.pagemaps KernelSlot)
    (hg : Grows s.machine m' s.pagemaps n) (o : Holder)
    (huser : ∀ t ∈ s.tasks, ∀ va, UserHalf va → ∀ f, translate m'.mem t.pagemap va = some f →
      translate s.machine.mem t.pagemap va = some f ∨
        o = .task t.pagemap ∧ Fresh s.machine m' s.pagemaps (f / PAGE_SIZE)) :
    ∃ own', SpaceInv { s with machine := m' } own' ∧
      ∀ k, Fresh s.machine m' s.pagemaps k → own' k = some o := by
  have hkeep : ∀ k o', own k = some o' →
      handTo o s.machine m' s.pagemaps own k = some o' := fun k o' hk =>
    handTo_owned (h.held k o' hk) hk
  refine ⟨handTo o s.machine m' s.pagemaps own,
    ⟨hinv, h.distinct, h.kernel_apart, by rw [hg.high]; exact h.below, ?_, ?_, ?_, ?_,
      h.blocks_distinct⟩,
    fun k hk => handTo_fresh hk⟩
  · intro k o' hk
    rcases handTo_some hk with hfresh | hold
    · exact hfresh.2
    · exact (h.held k o' hold).grows hg
  · intro t ht va hva f hf
    rcases huser t ht va hva f hf with hold | ⟨rfl, hfresh⟩
    · exact hkeep _ _ (h.user t ht va hva f hold)
    · exact handTo_fresh hfresh
  · exact fun t ht => (h.stack t ht).mono hg.high fun k => hkeep k _
  · exact fun b hb => ⟨(h.blocks b hb).1, (h.blocks b hb).2.mono hg.high fun k => hkeep k _⟩

/-! ### What a task maps -/

/-- Pages that a task maps below the kernel half are seen by that task only,
and lie below the kernel half. -/
theorem SamePage.user {r va r' va' : Nat} (h : SamePage KernelSlot r va r' va')
    (hva : UserHalf va) : r = r' ∧ UserHalf va' := by
  obtain ⟨hpage, hroot⟩ := h
  have hpath := (vaPath_eq_iff va va').mpr hpage
  simp only [vaPath, List.cons.injEq] at hpath
  refine ⟨hroot.resolve_right hva, ?_⟩
  rw [UserHalf, hpath.1]
  exact hva

theorem topFree_user (m : Mem) (roots : Set Nat) (r : Nat) {va : Nat} (hva : UserHalf va) :
    TopFree m roots KernelSlot r va := fun _ hslot => absurd hslot hva

/-- The entries made for a run of frames. -/
theorem frame_of_run {s : Machine} (h : PmmOk s) {f n j : Nat}
    (hbelow : f + n ≤ s.highestPage / PAGE_SIZE) (hj : j < n) :
    frameOf ((j * PAGE_SIZE + f * PAGE_SIZE) % 2 ^ 64 ||| 0b111) = (f + j) * PAGE_SIZE := by
  have hhigh := h.high
  have hlt : (f + j) * PAGE_SIZE < 2 ^ 52 := by
    simp only [PAGE_SIZE] at hbelow ⊢
    omega
  have hsum : (j * PAGE_SIZE + f * PAGE_SIZE) % 2 ^ 64 = (f + j) * PAGE_SIZE := by
    rw [← Nat.add_mul, Nat.add_comm j f, Nat.mod_eq_of_lt (by omega)]
  rw [hsum]
  exact frameOf_aligned (Nat.mul_mod_left (f + j) PAGE_SIZE) hlt (.inr rfl)

/-- A page of a task's own half that is mapped anew has a fresh frame and is seen by that task
only. -/
theorem owned_or_fresh {s : System} {r : Nat} {m' : Machine} {vas : List Nat}
    (hlook : ∀ r' ∈ s.pagemaps, ∀ va', translate m'.mem r' va' = translate s.machine.mem r' va' ∨
      ∃ va ∈ vas, SamePage KernelSlot r va r' va' ∧ ∃ f, Fresh s.machine m' s.pagemaps f ∧
        translate m'.mem r' va' = some (f * PAGE_SIZE))
    (huser : ∀ va ∈ vas, UserHalf va) :
    ∀ t ∈ s.tasks, ∀ va, UserHalf va → ∀ f, translate m'.mem t.pagemap va = some f →
      translate s.machine.mem t.pagemap va = some f ∨
        Holder.task r = .task t.pagemap ∧ Fresh s.machine m' s.pagemaps (f / PAGE_SIZE) := by
  intro t ht va' _ f hf
  rcases hlook t.pagemap (task_mem_pagemaps ht) va' with hsame | ⟨va, hva, hpage, f', hfresh, hnew⟩
  · exact .inl (hsame.symm.trans hf)
  · obtain ⟨heq, -⟩ := hpage.user (huser va hva)
    obtain rfl : f = f' * PAGE_SIZE := Option.some.inj (hf.symm.trans hnew)
    rw [Nat.mul_div_cancel f' (by decide)]
    exact .inr ⟨by rw [heq], hfresh⟩

/-- **The loop of `vmm_mmap` below the kernel half** keeps the invariant and
every translation of the kernel half, in all page maps. -/
theorem SpaceInv.mmapPages {s : System} {own : Nat → Option Holder} (h : SpaceInv s own)
    {t : TaskMem} (ht : t ∈ s.tasks) {vas : List Nat}
    (hfree : vas.length + (missingTables s.machine.mem t.pagemap vas).card ≤ freeCount s.machine)
    (huser : ∀ va ∈ vas, UserHalf va) :
    (∃ own', SpaceInv { s with machine := mmapPages s.machine t.pagemap vas } own') ∧
      ∀ r ∈ s.pagemaps, ∀ va, ¬ UserHalf va →
        translate (BestOS.mmapPages s.machine t.pagemap vas).mem r va
          = translate s.machine.mem r va := by
  obtain ⟨hinv, hgrow, hlook⟩ := mmapPages_spec h.maps (task_mem_pagemaps ht) vas hfree
    fun va hva => topFree_user _ _ _ (huser va hva)
  refine ⟨?_, fun r' hr' va' hva' => ?_⟩
  · obtain ⟨own', hown', -⟩ :=
      h.grow hinv hgrow (.task t.pagemap) (owned_or_fresh hlook huser)
    exact ⟨own', hown'⟩
  · rcases hlook r' hr' va' with hsame | ⟨va, hva, hpage, -⟩
    · exact hsame
    · exact absurd (hpage.user (huser va hva)).2 hva'

/-- `used_pages` is of no concern to the page maps. -/
theorem SpaceInv.setUsed {s : System} {own : Nat → Option Holder} (h : SpaceInv s own) {i : Nat}
    {t : TaskMem} (ht : s.tasks[i]? = some t) (u : Nat) :
    SpaceInv { s with tasks := s.tasks.set i { t with usedPages := u } } own := by
  have hi := (List.getElem?_eq_some_iff.mp ht).1
  have hmem : t ∈ s.tasks := List.mem_of_getElem? ht
  -- the task at `i` keeps its page map and its stack
  have hfrom : ∀ t' ∈ s.tasks.set i { t with usedPages := u },
      ∃ t₀ ∈ s.tasks, t₀.pagemap = t'.pagemap ∧ t₀.sp = t'.sp := by
    intro t' ht'
    rcases List.mem_or_eq_of_mem_set ht' with hold | rfl
    · exact ⟨t', hold, rfl, rfl⟩
    · exact ⟨t, hmem, rfl, rfl⟩
  have hmap : (s.tasks.set i { t with usedPages := u }).map TaskMem.pagemap
      = s.tasks.map TaskMem.pagemap := by
    refine List.ext_getElem? fun j => ?_
    rw [List.getElem?_map, List.getElem?_map]
    by_cases hij : i = j
    · subst hij
      rw [List.getElem?_set_self hi, ht]
      rfl
    · rw [List.getElem?_set_ne hij]
  have hroots : System.pagemaps { s with tasks := s.tasks.set i { t with usedPages := u } }
      = s.pagemaps := by
    have hset : ∀ l : List TaskMem, { r | ∃ t ∈ l, t.pagemap = r }
        = { r | r ∈ l.map TaskMem.pagemap } := fun l => by simp
    rw [System.pagemaps, System.pagemaps, hset, hset]
    dsimp only
    rw [hmap]
  refine ⟨by rw [hroots]; exact h.maps, by dsimp only; rw [hmap]; exact h.distinct, ?_, ?_,
    by rw [hroots]; exact h.held, ?_, ?_, h.blocks, h.blocks_distinct⟩
  · intro t' ht'
    obtain ⟨t₀, ht₀, hp, -⟩ := hfrom t' ht'
    rw [← hp]
    exact h.kernel_apart t₀ ht₀
  · intro t' ht'
    obtain ⟨t₀, ht₀, hp, -⟩ := hfrom t' ht'
    rw [← hp]
    exact h.below t₀ ht₀
  · intro t' ht'
    obtain ⟨t₀, ht₀, hp, -⟩ := hfrom t' ht'
    rw [← hp]
    exact h.user t₀ ht₀
  · intro t' ht'
    obtain ⟨t₀, ht₀, hp, hsp⟩ := hfrom t' ht'
    rw [← hp, ← hsp]
    exact h.stack t₀ ht₀

theorem Segment.pages_snd (p : Segment) (base newAddr : Nat) :
    (p.pages base newAddr).map Prod.snd = p.addresses base := by
  simp [Segment.pages, Segment.addresses, Function.comp_def]

/-- **A segment** takes one frame for each page and the missing tables; a page whose
translation has changed is one of its pages and has a frame that was free. -/
theorem PageMaps.elfLoadSegment {s : Machine} {roots : Set Nat} {shared : Fin 512 → Prop}
    (h : PageMaps s roots shared) {r : Nat} (hr : r ∈ roots) {base : Nat} {p : Segment}
    (hrun : p.pageCount = 0 ∨ RunFree s p.pageCount)
    (hfree : p.pageCount + (missingTables s.mem r (p.addresses base)).card ≤ freeCount s)
    (htop : ∀ va ∈ p.addresses base, TopFree s.mem roots shared r va) :
    PageMaps (BestOS.elfLoadSegment s r base p) roots shared ∧
      Grows s (BestOS.elfLoadSegment s r base p) roots
        (p.pageCount + (missingTables s.mem r (p.addresses base)).card) ∧
      ∀ r' ∈ roots, ∀ va',
        translate (BestOS.elfLoadSegment s r base p).mem r' va' = translate s.mem r' va' ∨
        ∃ va ∈ p.addresses base, SamePage shared r va r' va' ∧
          ∃ f, Fresh s (BestOS.elfLoadSegment s r base p) roots f ∧
            translate (BestOS.elfLoadSegment s r base p).mem r' va' = some (f * PAGE_SIZE) := by
  by_cases hzero : p.pageCount = 0
  · have hsame : BestOS.elfLoadSegment s r base p = s := by
      rw [BestOS.elfLoadSegment, hzero, pmmAllocateZero_zero, Segment.pages, hzero]
      rfl
    rw [hsame]
    exact ⟨h, Grows.refl _ _ _, fun _ _ _ => .inl rfl⟩
  · obtain ⟨f, haddr, htake⟩ := pmmAllocateZero_run h.pmm (by omega) (hrun.resolve_left hzero)
    obtain ⟨hinv₁, hgrow₁, hwalk₁, hfresh⟩ := h.take htake
    rw [BestOS.elfLoadSegment, haddr]
    generalize (pmmAllocateZero s p.pageCount).2 = s₁ at *
    -- the frames of the segment are not tables: as many are missing as before
    have hmiss : missingTables s₁.mem r (p.addresses base)
        = missingTables s.mem r (p.addresses base) := by
      refine Finset.filter_congr fun q hq => ?_
      obtain ⟨va, -, hpre⟩ := Finset.mem_biUnion.mp hq
      rw [hwalk₁ _ hr q (by have := length_of_mem_tablePrefixes hpre; omega)]
    have hcount := hgrow₁.free
    have hmem : ∀ q ∈ p.pages base (f * PAGE_SIZE), q.1 < 2 ^ 64 ∧ q.2 ∈ p.addresses base ∧
        ∃ j < p.pageCount, frameOf (q.1 ||| 0b111) = (f + j) * PAGE_SIZE := by
      intro q hq
      obtain ⟨j, hj, rfl⟩ := List.mem_map.mp hq
      refine ⟨Nat.mod_lt _ (by decide), List.mem_map.mpr ⟨j, hj, rfl⟩, j, List.mem_range.mp hj, ?_⟩
      exact frame_of_run h.pmm htake.below (List.mem_range.mp hj)
    obtain ⟨hinv₂, hgrow₂, -, hlook⟩ := mapPages_spec hinv₁ hr (.inr rfl)
      (p.pages base (f * PAGE_SIZE)) (fun q hq => (hmem q hq).1)
      (by rw [Segment.pages_snd, hmiss]; omega)
      fun q hq => (htop q.2 (hmem q hq).2.1).grows hr hgrow₁
    rw [Segment.pages_snd, hmiss] at hgrow₂
    refine ⟨hinv₂, hgrow₁.trans hgrow₂, fun r' hr' va' => ?_⟩
    rcases hlook r' hr' va' with hsame | ⟨q, hq, hpage, hnew⟩
    · exact .inl (hsame.trans (translate_of_walk (hwalk₁ _ hr') va'))
    · obtain ⟨-, haddresses, j, hj, hframe⟩ := hmem q hq
      obtain ⟨hwas, hheld⟩ := hfresh (f + j) (by omega) (by omega)
      rw [hframe] at hnew
      exact .inr ⟨q.2, haddresses, hpage, f + j, ⟨hwas, hheld.grows hgrow₂⟩, hnew⟩

theorem SpaceInv.elfLoadSegment {s : System} {own : Nat → Option Holder} (h : SpaceInv s own)
    {t : TaskMem} (ht : t ∈ s.tasks) {base : Nat} {p : Segment}
    (hrun : p.pageCount = 0 ∨ RunFree s.machine p.pageCount)
    (hfree : Supplied s t.pagemap p.pageCount (p.addresses base))
    (huser : ∀ va ∈ p.addresses base, UserHalf va) :
    ∃ own', SpaceInv { s with machine := elfLoadSegment s.machine t.pagemap base p } own' := by
  obtain ⟨hinv, hgrow, hlook⟩ := h.maps.elfLoadSegment (task_mem_pagemaps ht) hrun hfree
    fun va hva => topFree_user _ _ _ (huser va hva)
  obtain ⟨own', hown', -⟩ := h.grow hinv hgrow (.task t.pagemap) (owned_or_fresh hlook huser)
  exact ⟨own', hown'⟩

/-! ### The heap, the exit of a task, and stores -/

theorem SpaceInv.heapAlloc {s : System} {own : Nat → Option Holder} (h : SpaceInv s own) {n : Nat}
    (hn : 1 ≤ n) (hrun : RunFree s.machine n) :
    ∃ own', SpaceInv { s with
      machine := (pmmAllocateZero s.machine n).2
      blocks := ((pmmAllocateZero s.machine n).1, n) :: s.blocks } own' := by
  obtain ⟨f, haddr, htake⟩ := pmmAllocateZero_run h.maps.pmm hn hrun
  obtain ⟨hinv, hgrow, hwalk, hfresh⟩ := h.maps.take htake
  rw [haddr]
  generalize (pmmAllocateZero s.machine n).2 = m' at *
  obtain ⟨own', hown', hnew⟩ := h.grow hinv hgrow (.heap (f * PAGE_SIZE)) (by
    intro t ht va _ f' hf'
    rw [translate_of_walk (hwalk _ (task_mem_pagemaps ht))] at hf'
    exact .inl hf')
  -- the address is not that of another block: its page was free
  have haddr_new : f * PAGE_SIZE ∉ s.blocks.map Prod.fst := by
    intro hmem
    obtain ⟨b, hb, hbase⟩ := List.mem_map.mp hmem
    obtain ⟨hpos, k, hk, -, hall⟩ := h.blocks b hb
    obtain rfl : k = f := Nat.eq_of_mul_eq_mul_right (show 0 < PAGE_SIZE by decide)
      (hk.symm.trans hbase)
    have hheld := h.held k _ (hall k (Nat.le_refl k) (by omega))
    exact htake.not_marked (Nat.le_refl k) (by omega) hheld.used
  refine ⟨own', hown'.maps, hown'.distinct, hown'.kernel_apart, hown'.below, hown'.held,
    hown'.user, hown'.stack, ?_, List.nodup_cons.mpr ⟨haddr_new, hown'.blocks_distinct⟩⟩
  intro b hb
  rcases List.mem_cons.mp hb with rfl | hold
  · exact ⟨hn, f, rfl, by rw [htake.high]; exact htake.below,
      fun j h1 h2 => hnew j (hfresh j h1 h2)⟩
  · exact hown'.blocks b hold

/-- Another element of a list without repetitions, after one is dropped. -/
theorem mem_eraseIdx_ne {α β : Type*} {l : List α} (key : α → β) (hnd : (l.map key).Nodup) {i : Nat}
    {x y : α} (hx : l[i]? = some x) (hy : y ∈ l.eraseIdx i) : y ∈ l ∧ key y ≠ key x := by
  obtain ⟨j, hji, hj⟩ := List.mem_eraseIdx_iff_getElem?.mp hy
  refine ⟨List.mem_of_getElem? hj, fun hkey => hji ?_⟩
  have hj' : (l.map key)[j]? = some (key x) := by rw [List.getElem?_map, hj, Option.map_some, hkey]
  have hi' : (l.map key)[i]? = some (key x) := by rw [List.getElem?_map, hx, Option.map_some]
  have hlt := (List.getElem?_eq_some_iff.mp hj').1
  exact (List.getElem?_inj hlt hnd).mp (hj'.trans hi'.symm)

/-- Forgetting what `o` owns. -/
def dropHolder (own : Nat → Option Holder) (o : Holder) : Nat → Option Holder := fun k =>
  if own k = some o then none else own k

theorem dropHolder_some {own : Nat → Option Holder} {o o' : Holder} {k : Nat}
    (h : dropHolder own o k = some o') : own k = some o' ∧ o' ≠ o := by
  unfold dropHolder at h
  split at h
  · cases h
  · rename_i hne
    exact ⟨h, fun e => hne (e ▸ h)⟩

theorem dropHolder_of_ne {own : Nat → Option Holder} {o o' : Holder} {k : Nat}
    (h : own k = some o') (hne : o' ≠ o) : dropHolder own o k = some o' := by
  rw [dropHolder, if_neg fun e => hne (Option.some.inj (h.symm.trans e)), h]

/-- Giving back a run that `o` owns. -/
theorem SpaceInv.giveRun {s : System} {own : Nat → Option Holder} (h : SpaceInv s own)
    {o : Holder} {addr n : Nat} (hrun : OwnsRun s.machine own o addr n) :
    PageMaps (pmmFree s.machine addr n) s.pagemaps KernelSlot ∧
      (∀ r ∈ s.pagemaps, ∀ q : List (Fin 512), q.length ≤ 4 →
        walk (child (pmmFree s.machine addr n).mem) r q = walk (child s.machine.mem) r q) ∧
      ∀ k o', dropHolder own o k = some o' →
        Held (pmmFree s.machine addr n) s.pagemaps k := by
  obtain ⟨f, rfl, hbelow, hall⟩ := hrun
  -- what is given back is neither a table nor part of the bitmap
  have hheld : ∀ k, f ≤ k → k < f + n → Held s.machine s.pagemaps k :=
    fun k h1 h2 => h.held k o (hall k h1 h2)
  have hhigh := h.maps.pmm.high
  have hgive := pmmFree_spec (fun k h1 h2 => (hheld k h1 h2).used)
    (show f * PAGE_SIZE + n * PAGE_SIZE ≤ 2 ^ 64 by
      simp only [PAGE_SIZE] at hbelow ⊢
      omega)
  obtain ⟨hinv, hchild, hkeep⟩ := h.maps.give hgive fun k h1 h2 =>
    ⟨(hheld k h1 h2).not_table, (hheld k h1 h2).apart⟩
  refine ⟨hinv, fun r hr q hq => walk_eq_of_tables hchild hr hq, fun k o' hk => ?_⟩
  obtain ⟨hown, hne⟩ := dropHolder_some hk
  refine hkeep k (fun hin => hne ?_) (h.held k o' hown)
  exact Option.some.inj (hown.symm.trans (hall k hin.1 hin.2))

theorem SpaceInv.heapFree {s : System} {own : Nat → Option Holder} (h : SpaceInv s own) {j : Nat}
    {b : Nat × Nat} (hb : s.blocks[j]? = some b) :
    SpaceInv { s with
      machine := pmmFree s.machine b.1 b.2
      blocks := s.blocks.eraseIdx j } (dropHolder own (.heap b.1)) := by
  obtain ⟨-, hrun⟩ := h.blocks b (List.mem_of_getElem? hb)
  obtain ⟨hinv, hwalk, hheld⟩ := h.giveRun hrun
  refine ⟨hinv, h.distinct, h.kernel_apart, ?_, hheld, ?_, ?_, ?_, ?_⟩
  · rw [pmmFree_highestPage]
    exact h.below
  · intro t ht va hva f hf
    rw [translate_of_walk (hwalk _ (task_mem_pagemaps ht))] at hf
    exact dropHolder_of_ne (h.user t ht va hva f hf) (by simp)
  · exact fun t ht => (h.stack t ht).mono (pmmFree_highestPage _ _ _) fun k hk =>
      dropHolder_of_ne hk (by simp)
  · intro b' hb'
    obtain ⟨hmem, hne⟩ := mem_eraseIdx_ne Prod.fst h.blocks_distinct hb hb'
    refine ⟨(h.blocks b' hmem).1, (h.blocks b' hmem).2.mono (pmmFree_highestPage _ _ _) ?_⟩
    exact fun k hk => dropHolder_of_ne hk fun e => hne (Holder.heap.inj e)
  · exact h.blocks_distinct.sublist ((List.eraseIdx_sublist _ _).map _)

theorem SpaceInv.exit {s : System} {own : Nat → Option Holder} (h : SpaceInv s own) {i : Nat}
    {t : TaskMem} (ht : s.tasks[i]? = some t) :
    SpaceInv { s with
      machine := pmmFree (pmmFree s.machine t.sp (STACK_SIZE / PAGE_SIZE)) t.pagemap 1
      tasks := s.tasks.eraseIdx i } (dropHolder own (.task t.pagemap)) := by
  have hmem : t ∈ s.tasks := List.mem_of_getElem? ht
  have hother : ∀ t' ∈ s.tasks.eraseIdx i, t' ∈ s.tasks ∧ t'.pagemap ≠ t.pagemap :=
    fun t' ht' => mem_eraseIdx_ne TaskMem.pagemap h.distinct ht ht'
  obtain ⟨hinv₁, hwalk₁, hheld₁⟩ := h.giveRun (h.stack t hmem)
  have hhigh₁ := pmmFree_highestPage s.machine t.sp (STACK_SIZE / PAGE_SIZE)
  generalize pmmFree s.machine t.sp (STACK_SIZE / PAGE_SIZE) = m₁ at *
  -- the page maps that stay
  have hsub : System.pagemaps { s with tasks := s.tasks.eraseIdx i } ⊆ s.pagemaps := by
    rintro r (rfl | ⟨t', ht', rfl⟩)
    · exact kernel_mem_pagemaps s
    · exact task_mem_pagemaps (hother t' ht').1
  have hgone : ∀ r ∈ System.pagemaps { s with tasks := s.tasks.eraseIdx i }, t.pagemap ≠ r := by
    rintro r (rfl | ⟨t', ht', rfl⟩)
    · exact h.kernel_apart t hmem
    · exact (hother t' ht').2.symm
  -- the top-level table of the task is given back too, and no other page map has it
  have htable : TableFrame m₁ t.pagemap :=
    hinv₁.frames _ ⟨_, task_mem_pagemaps hmem, [], by simp, rfl⟩
  have hinv₂ : PageMaps m₁ (System.pagemaps { s with tasks := s.tasks.eraseIdx i }) KernelSlot :=
    ⟨hinv₁.pmm, hinv₁.forest.mono hsub, fun t' ht' => hinv₁.frames t' (ht'.mono hsub),
      fun t' ht' => hinv₁.plain t' (ht'.mono hsub)⟩
  have hpage : t.pagemap / PAGE_SIZE * PAGE_SIZE = t.pagemap :=
    Nat.div_mul_cancel (Nat.dvd_of_mod_eq_zero htable.aligned)
  have hbound : t.pagemap / PAGE_SIZE * PAGE_SIZE + 1 * PAGE_SIZE ≤ 2 ^ 64 := by
    have h1 := h.below t hmem
    have h2 := h.maps.pmm.high
    simp only [PAGE_SIZE] at h1 ⊢
    omega
  have hgive := pmmFree_spec (s := m₁) (f := t.pagemap / PAGE_SIZE) (n := 1) (by
    intro k h1 h2
    obtain rfl : k = t.pagemap / PAGE_SIZE := by omega
    exact htable.used) hbound
  rw [hpage] at hgive
  obtain ⟨hinv₃, hchild, hkeep⟩ := hinv₂.give hgive (by
    intro k h1 h2
    obtain rfl : k = t.pagemap / PAGE_SIZE := by omega
    rw [hpage]
    refine ⟨?_, fun a ha => htable.apart a ?_ ?_⟩
    · rintro ⟨r, hr, p, hp, hw⟩
      exact hgone r hr (hinv₁.forest.root_eq (task_mem_pagemaps hmem) (hsub hr) hp hw)
    · have := (page_eq_iff a _).mp ha
      omega
    · have := (page_eq_iff a _).mp ha
      omega)
  have hwalk : ∀ t' ∈ s.tasks.eraseIdx i, ∀ va,
      translate (pmmFree m₁ t.pagemap 1).mem t'.pagemap va
        = translate s.machine.mem t'.pagemap va := by
    intro t' ht' va
    have hr' := task_mem_pagemaps (hother t' ht').1
    have hr'' : t'.pagemap ∈ System.pagemaps { s with tasks := s.tasks.eraseIdx i } :=
      Set.mem_insert_of_mem _ ⟨t', ht', rfl⟩
    rw [translate_of_walk fun _ => walk_eq_of_tables hchild hr'',
      translate_of_walk (hwalk₁ _ hr')]
  refine ⟨hinv₃, h.distinct.sublist ((List.eraseIdx_sublist _ _).map _),
    fun t' ht' => h.kernel_apart t' (hother t' ht').1, ?_, ?_, ?_, ?_, ?_, h.blocks_distinct⟩
  · intro t' ht'
    rw [pmmFree_highestPage, hhigh₁]
    exact h.below t' (hother t' ht').1
  · intro k o' hk
    have hk₁ := hheld₁ k o' hk
    refine hkeep k (fun hin => hk₁.not_table ?_) ⟨hk₁.used, fun hT => hk₁.not_table (hT.mono hsub), hk₁.apart⟩
    obtain rfl : k = t.pagemap / PAGE_SIZE := by omega
    rw [hpage]
    exact ⟨_, task_mem_pagemaps hmem, [], by simp, rfl⟩
  · intro t' ht' va hva f hf
    obtain ⟨hold, hne⟩ := hother t' ht'
    dsimp only at hf
    rw [hwalk t' ht' va] at hf
    exact dropHolder_of_ne (h.user t' hold va hva f hf) fun e => hne (Holder.task.inj e)
  · intro t' ht'
    obtain ⟨hold, hne⟩ := hother t' ht'
    refine (h.stack t' hold).mono ((pmmFree_highestPage _ _ _).trans hhigh₁) ?_
    exact fun k hk => dropHolder_of_ne hk fun e => hne (Holder.task.inj e)
  · intro b hb
    refine ⟨(h.blocks b hb).1, (h.blocks b hb).2.mono ((pmmFree_highestPage _ _ _).trans hhigh₁) ?_⟩
    exact fun k hk => dropHolder_of_ne hk (by simp)

theorem SpaceInv.store {s : System} {own : Nat → Option Holder} (h : SpaceInv s own) {a : Nat}
    (b : BitVec 8) (hnb : ¬ InBitmap s.machine a)
    (hnt : ∀ t, Table (child s.machine.mem) s.pagemaps 3 t → a < t ∨ t + PAGE_SIZE ≤ a) :
    SpaceInv { s with machine := { s.machine with mem := put s.machine.mem a b } } own := by
  have hbitmap : ∀ x, InBitmap s.machine x → put s.machine.mem a b x = s.machine.mem x := by
    intro x hx
    refine put_ne ?_
    rintro rfl
    exact hnb hx
  obtain ⟨hinv, hchild, -, hheld⟩ := h.maps.store (put s.machine.mem a b) hbitmap fun t ht x h1 h2 => by
    have := hnt t ht
    exact put_ne (by omega)
  refine ⟨hinv, h.distinct, h.kernel_apart, h.below, fun k o hk => hheld k (h.held k o hk), ?_,
    h.stack, h.blocks, h.blocks_distinct⟩
  intro t ht va hva f hf
  rw [translate_of_walk fun _ => walk_eq_of_tables hchild (task_mem_pagemaps ht)] at hf
  exact h.user t ht va hva f hf

/-- A translation is the address of a frame. -/
theorem translate_aligned {m : Mem} {r va f : Nat} (h : translate m r va = some f) :
    f % PAGE_SIZE = 0 := by
  have hsplit : vaPath va = tablePath va ++ [index va 12] := rfl
  rw [translate, hsplit, walk_append] at h
  obtain ⟨t, -, ht⟩ := Option.bind_eq_some_iff.mp h
  simp only [walk, Option.bind_eq_some_iff] at ht
  obtain ⟨f', hchild, rfl⟩ : ∃ f', child m t (index va 12) = some f' ∧ f' = f := by simpa using ht
  unfold child at hchild
  split at hchild
  · rw [← Option.some.inj hchild, frameOf_eq]
    exact Nat.mul_mod_left _ _
  · cases hchild

/-- A task's store goes to a frame of its own. -/
theorem SpaceInv.userStore {s : System} {own : Nat → Option Holder} (h : SpaceInv s own)
    {t : TaskMem} (ht : t ∈ s.tasks) {va f : Nat} (hva : UserHalf va)
    (hf : translate s.machine.mem t.pagemap va = some f) (b : BitVec 8) :
    SpaceInv { s with machine :=
      { s.machine with mem := put s.machine.mem (f + va % PAGE_SIZE) b } } own := by
  have hal := translate_aligned hf
  have hheld := h.held _ _ (h.user t ht va hva f hf)
  have hpage : (f + va % PAGE_SIZE) / PAGE_SIZE = f / PAGE_SIZE := by
    simp only [PAGE_SIZE] at hal ⊢
    omega
  refine h.store b (hheld.apart _ hpage) fun t' ht' => ?_
  have hframe := h.maps.frames t' ht'
  refine outside_frame hframe.aligned fun e => hheld.not_table ?_
  rwa [← hpage, e, Nat.div_mul_cancel (Nat.dvd_of_mod_eq_zero hframe.aligned)]

/-! ### A new task -/

theorem stackPages_user (stack : Nat) : ∀ q ∈ stackPages stack, UserHalf q.2 := by
  intro q hq
  obtain ⟨i, hi, rfl⟩ := List.mem_map.mp hq
  have hlt : i < 4 := List.mem_range.mp hi
  simp only [UserHalf, KernelSlot, index, PAGE_SIZE, USER_STACK_TOP, STACK_SIZE]
  omega

theorem firstStackPage_mem (stack : Nat) :
    ((0 * PAGE_SIZE + stack) % 2 ^ 64, USER_STACK_TOP - STACK_SIZE) ∈ stackPages stack :=
  List.mem_map.mpr ⟨0, List.mem_range.mpr (by decide), by simp [USER_STACK_TOP, STACK_SIZE]⟩

/-- The stack lies in one region of 2 MiB. -/
theorem card_missingTables_stackPages (m : Mem) (r stack : Nat) :
    (missingTables m r ((stackPages stack).map Prod.snd)).card ≤ 3 := by
  refine (card_missingTables_le m r _).trans
    (card_tablesFor_le (G := {(USER_STACK_TOP - STACK_SIZE) / 2 ^ 21}) fun va hva => ?_)
  obtain ⟨q, hq, rfl⟩ := List.mem_map.mp hva
  obtain ⟨i, hi, rfl⟩ := List.mem_map.mp hq
  have hlt : i < 4 := List.mem_range.mp hi
  simp only [Finset.mem_singleton, PAGE_SIZE, USER_STACK_TOP, STACK_SIZE]
  omega

/-- What `task_init` does: page map `f` and stack pages `f₀` to `f₀ + 3` are
new, the page map translates nothing but the stack below the kernel half, and
no other page map changes. -/
structure TaskAdded (m m' : Machine) (roots : Set Nat) (f₀ f : Nat) : Prop where
  maps : PageMaps m' (insert (f * PAGE_SIZE) roots) KernelSlot
  high : m'.highestPage = m.highestPage
  bitmap : m'.bitmap = m.bitmap
  upward : Upward m → Upward m'
  free : freeCount m ≤ freeCount m' + 8
  new : f * PAGE_SIZE ∉ roots
  below : f < m.highestPage / PAGE_SIZE
  stack_below : f₀ + 4 ≤ m.highestPage / PAGE_SIZE
  held : ∀ k, Held m roots k → Held m' (insert (f * PAGE_SIZE) roots) k
  stack : ∀ k, f₀ ≤ k → k < f₀ + 4 → Fresh m m' (insert (f * PAGE_SIZE) roots) k
  slots : ∀ r ∈ roots, ∀ i t, child m.mem r i = some t → child m'.mem r i = some t
  others : ∀ r ∈ roots, ∀ va, translate m'.mem r va = translate m.mem r va
  user : ∀ va, UserHalf va → ∀ g, translate m'.mem (f * PAGE_SIZE) va = some g →
    ∃ j < 4, g = (f₀ + j) * PAGE_SIZE

theorem taskInit_spec {s : System} (h : PageMaps s.machine s.pagemaps KernelSlot)
    (hrun : RunFree s.machine (STACK_SIZE / PAGE_SIZE)) (hfree : 8 ≤ freeCount s.machine)
    (usedPages : Nat) :
    ∃ f₀ f, (taskInit s usedPages).tasks
        = s.tasks ++ [⟨f * PAGE_SIZE, f₀ * PAGE_SIZE, usedPages⟩] ∧
      TaskAdded s.machine (taskInit s usedPages).machine s.pagemaps f₀ f ∧
      ¬ MarkedUsed s.machine f ∧
      ∃ t, child (taskInit s usedPages).machine.mem (f * PAGE_SIZE)
          (index (USER_STACK_TOP - STACK_SIZE) 39) = some t ∧
        ¬ MarkedUsed s.machine (t / PAGE_SIZE) := by
  have hfour : STACK_SIZE / PAGE_SIZE = 4 := rfl
  rw [hfour] at hrun
  -- the stack
  obtain ⟨f₀, haddr₀, htake₀⟩ := pmmAllocateZero_run h.pmm (by decide) hrun
  obtain ⟨hinv₀, hgrow₀, hwalk₀, hfresh₀⟩ := h.take htake₀
  have hcount₀ := hgrow₀.free
  unfold taskInit
  dsimp only
  rw [hfour, haddr₀]
  have hbelow₀ := htake₀.below
  generalize (pmmAllocateZero s.machine 4).2 = s₀ at *
  -- the page map, with the kernel half shared
  obtain ⟨f, haddr, htake⟩ := pmmAllocateZero_run hinv₀.pmm (Nat.le_refl 1)
    (runFree_one hinv₀.pmm (by omega))
  obtain ⟨hinv₁, hgrow₁, hwalk₁, hempty₁, hheld₁, hnew⟩ :=
    hinv₀.newRoot (kernel_mem_pagemaps s) htake
  have hbelow := htake.below
  rw [haddr]
  generalize shareKernelHalf (pmmAllocateZero s₀ 1).2 (f * PAGE_SIZE) s.kernelPagemap = s₁ at *
  have hcount₁ := hgrow₁.free
  have hsmall := card_missingTables_stackPages s₁.mem (f * PAGE_SIZE) (f₀ * PAGE_SIZE)
  have hroot : f * PAGE_SIZE ∈ insert (f * PAGE_SIZE) s.pagemaps := Set.mem_insert _ _
  -- the stack is mapped into the new page map
  obtain ⟨hinv₂, hgrow₂, hthere₂, hlook₂⟩ := mapPages_spec hinv₁ hroot (.inr rfl)
    (stackPages (f₀ * PAGE_SIZE))
    (by
      intro q hq
      obtain ⟨i, -, rfl⟩ := List.mem_map.mp hq
      exact Nat.mod_lt _ (by decide))
    (by omega) fun q hq => topFree_user _ _ _ (stackPages_user _ q hq)
  generalize mapPages s₁ (f * PAGE_SIZE) 0b111 (stackPages (f₀ * PAGE_SIZE)) = s₂ at *
  have hcount₂ := hgrow₂.free
  have hsub : ∀ r ∈ s.pagemaps, r ∈ insert (f * PAGE_SIZE) s.pagemaps :=
    fun r hr => Set.mem_insert_of_mem _ hr
  have hbefore : ∀ k, MarkedUsed s.machine k → MarkedUsed s₁ k := fun k hk =>
    hgrow₁.used k (hgrow₀.used k hk)
  refine ⟨f₀, f, rfl, ?_, fun hk => htake.not_marked (Nat.le_refl f) (Nat.lt_succ_self f)
    (hgrow₀.used f hk), ?_⟩
  rotate_left
  · obtain ⟨t, ht⟩ := Option.ne_none_iff_exists'.mp
      (hthere₂ _ (firstStackPage_mem (f₀ * PAGE_SIZE)) [index (USER_STACK_TOP - STACK_SIZE) 39]
        (by simp [tablePrefixes]))
    refine ⟨t, by simpa [walk] using ht, fun hk => ?_⟩
    -- the table is new: before the mapping the slot was empty
    rcases hgrow₂.tables t ⟨_, hroot, _, by simp, ht⟩ with ⟨r, hr, p, hp, hw⟩ | hfreed
    · obtain ⟨rfl, rfl | ⟨i, q, hcons, hslot⟩⟩ := hinv₂.forest.inj _ hroot r hr _ p t (by simp) hp ht
        (hgrow₂.walks r hr p t hp hw)
      · rw [walk, hempty₁ _ (by decide)] at hw
        cases hw
      · obtain ⟨rfl, -⟩ := List.cons.inj hcons
        exact absurd hslot (by decide)
    · exact hfreed (hbefore _ hk)
  refine ⟨hinv₂, hgrow₂.high.trans (hgrow₁.high.trans hgrow₀.high),
    hgrow₂.bitmap.trans (hgrow₁.bitmap.trans hgrow₀.bitmap),
    fun hup => hgrow₂.upward (hgrow₁.upward (hgrow₀.upward hup)), by omega, hnew, ?_, hbelow₀,
    fun k hk => (hheld₁ k (hk.grows hgrow₀)).grows hgrow₂, ?_, ?_, ?_, ?_⟩
  · rw [← hgrow₀.high]
    exact hbelow
  · intro k h1 h2
    obtain ⟨hwas, hheld⟩ := hfresh₀ k h1 h2
    exact ⟨hwas, (hheld₁ k hheld).grows hgrow₂⟩
  · intro r hr i t hchild
    have hw : walk (child s.machine.mem) r [i] = some t := by simp [walk, hchild]
    rw [← hwalk₀ r hr [i] (by simp), ← hwalk₁ r hr [i] (by simp)] at hw
    simpa [walk] using hgrow₂.walks r (hsub r hr) [i] t (by simp) hw
  · intro r hr va
    -- the stack is mapped below the kernel half, so in the new page map only
    have hsame : translate s₂.mem r va = translate s₁.mem r va := by
      rcases hlook₂ r (hsub r hr) va with hsame | ⟨q, hq, hpage, -⟩
      · exact hsame
      · obtain ⟨heq, -⟩ := hpage.user (stackPages_user _ q hq)
        exact absurd (heq ▸ hr) hnew
    rw [hsame, translate_of_walk (hwalk₁ r hr), translate_of_walk (hwalk₀ r hr)]
  · intro va hva g hg
    rcases hlook₂ _ hroot va with hsame | ⟨q, hq, -, hnewq⟩
    · rw [hsame, translate, vaPath, walk, hempty₁ _ hva] at hg
      cases hg
    · obtain ⟨j, hj, rfl⟩ := List.mem_map.mp hq
      have hj4 : j < 4 := List.mem_range.mp hj
      rw [frame_of_run h.pmm hbelow₀ hj4] at hnewq
      exact ⟨j, hj4, Option.some.inj (hg.symm.trans hnewq)⟩

/-- **A new task** keeps the invariant. -/
theorem SpaceInv.taskInit {s : System} {own : Nat → Option Holder} (h : SpaceInv s own)
    (hrun : RunFree s.machine (STACK_SIZE / PAGE_SIZE)) (hfree : 8 ≤ freeCount s.machine)
    (usedPages : Nat) : ∃ own', SpaceInv (taskInit s usedPages) own' := by
  obtain ⟨f₀, f, htasks, hadd, -⟩ := taskInit_spec h.maps hrun hfree usedPages
  have hblocks : (BestOS.taskInit s usedPages).blocks = s.blocks := rfl
  have hkernel : (BestOS.taskInit s usedPages).kernelPagemap = s.kernelPagemap := rfl
  generalize BestOS.taskInit s usedPages = s' at *
  have hroots : s'.pagemaps = insert (f * PAGE_SIZE) s.pagemaps := by
    ext r
    simp only [System.pagemaps, htasks, hkernel, Set.mem_insert_iff, Set.mem_ofPred_eq,
      List.mem_append, List.mem_singleton]
    constructor
    · rintro (rfl | ⟨t, ht | rfl, rfl⟩)
      · exact .inr (.inl rfl)
      · exact .inr (.inr ⟨t, ht, rfl⟩)
      · exact .inl rfl
    · rintro (rfl | rfl | ⟨t, ht, rfl⟩)
      · exact .inr ⟨_, .inr rfl, rfl⟩
      · exact .inl rfl
      · exact .inr ⟨t, .inl ht, rfl⟩
  -- the stack and the tables of the new page map belong to the task
  let own' := handTo (.task (f * PAGE_SIZE)) s.machine s'.machine s'.pagemaps own
  have hkeep : ∀ k o, own k = some o → own' k = some o := fun k o hk =>
    handTo_owned (h.held k o hk) hk
  have hmaps := hadd.maps
  have hheld := hadd.held
  have hstack := hadd.stack
  rw [← hroots] at hmaps hheld hstack
  have hblocksRun : ∀ {o addr n}, OwnsRun s.machine own o addr n →
      OwnsRun s'.machine own' o addr n := fun hrun => hrun.mono hadd.high fun k => hkeep k _
  -- for each part of the invariant: an old task, or the new one
  have htask : ∀ t ∈ s'.tasks, t ∈ s.tasks ∨ t = ⟨f * PAGE_SIZE, f₀ * PAGE_SIZE, usedPages⟩ := by
    intro t ht
    rw [htasks] at ht
    simpa using ht
  refine ⟨own', hmaps, ?_, ?_, ?_, ?_, ?_, ?_, ?_, by rw [hblocks]; exact h.blocks_distinct⟩
  · rw [htasks, List.map_append, List.nodup_append]
    refine ⟨h.distinct, by simp, ?_⟩
    rintro r hr r' hr' rfl
    obtain ⟨t, ht, rfl⟩ := List.mem_map.mp hr
    have hpagemap : t.pagemap = f * PAGE_SIZE := by simpa using hr'
    exact hadd.new (hpagemap ▸ task_mem_pagemaps ht)
  · intro t ht
    rw [hkernel]
    rcases htask t ht with hold | rfl
    · exact h.kernel_apart t hold
    · intro (e : f * PAGE_SIZE = s.kernelPagemap)
      exact hadd.new (e ▸ kernel_mem_pagemaps s)
  · intro t ht
    rw [hadd.high]
    rcases htask t ht with hold | rfl
    · exact h.below t hold
    · rw [Nat.mul_div_cancel f (by decide)]
      exact hadd.below
  · intro k o hk
    rcases handTo_some hk with hfresh | hold
    · exact hfresh.2
    · exact hheld k (h.held k o hold)
  · intro t ht va hva g hg
    rcases htask t ht with hold | rfl
    · rw [hadd.others _ (task_mem_pagemaps hold) va] at hg
      exact hkeep _ _ (h.user t hold va hva g hg)
    · obtain ⟨j, hj, rfl⟩ := hadd.user va hva g hg
      rw [Nat.mul_div_cancel (f₀ + j) (by decide)]
      exact handTo_fresh (hstack (f₀ + j) (by omega) (by omega))
  · intro t ht
    rcases htask t ht with hold | rfl
    · exact hblocksRun (h.stack t hold)
    · refine ⟨f₀, rfl, by rw [hadd.high]; exact hadd.stack_below, fun k h1 h2 => ?_⟩
      exact handTo_fresh (hstack k h1 h2)
  · rw [hblocks]
    exact fun b hb => ⟨(h.blocks b hb).1, hblocksRun (h.blocks b hb).2⟩

/-! ### Steps and runs -/

/-- What a call of `mmap` does when it returns. -/
theorem sysStep_mmap {s s' : System} {i hint size flags : Nat}
    (h : sysStep s (.mmap i hint size flags) = some s') :
    ∃ t u, s.tasks[i]? = some t ∧
      s' = { s with
        machine := mmapPages s.machine t.pagemap (mmapAddresses hint size flags t.usedPages)
        tasks := s.tasks.set i { t with usedPages := u } } := by
  simp only [sysStep, Option.bind_eq_some_iff, Option.map_eq_some_iff] at h
  obtain ⟨t, ht, r, hr, rfl⟩ := h
  unfold vmmMmap at hr
  split at hr
  · cases hr
  · obtain rfl := Option.some.inj hr
    exact ⟨t, _, ht, rfl⟩

/-- **One step** that keeps to its half keeps the invariant. -/
theorem SpaceInv.step {s s' : System} {own : Nat → Option Holder} (h : SpaceInv s own) {op : SysOp}
    (hok : KeepsHalves s op) (hstep : sysStep s op = some s') : ∃ own', SpaceInv s' own' := by
  cases op with
  | taskInit usedPages =>
      obtain rfl := Option.some.inj hstep
      exact h.taskInit hok.1 hok.2 usedPages
  | loadSegment i base p =>
      obtain ⟨t, ht, rfl⟩ := Option.map_eq_some_iff.mp hstep
      obtain ⟨hrun, hfree, huser⟩ := hok t ht
      exact h.elfLoadSegment (List.mem_of_getElem? ht) hrun hfree huser
  | mmap i hint size flags =>
      obtain ⟨t, u, ht, rfl⟩ := sysStep_mmap hstep
      obtain ⟨hfree, huser⟩ := hok t ht
      obtain ⟨⟨own', hown'⟩, -⟩ := h.mmapPages (List.mem_of_getElem? ht)
        (by simpa [Supplied, mmapAddresses] using hfree) huser
      exact ⟨own', hown'.setUsed (i := i) ht u⟩
  | exit i =>
      obtain ⟨t, ht, rfl⟩ := Option.map_eq_some_iff.mp hstep
      exact ⟨_, h.exit ht⟩
  | heapAlloc n =>
      obtain rfl := Option.some.inj hstep
      exact h.heapAlloc hok.1 hok.2
  | heapFree j =>
      obtain ⟨b, hb, rfl⟩ := Option.map_eq_some_iff.mp hstep
      exact ⟨_, h.heapFree hb⟩
  | userStore i va b =>
      obtain ⟨t, ht, hrest⟩ := Option.bind_eq_some_iff.mp hstep
      split at hrest
      · rename_i hva
        obtain ⟨f, hf, rfl⟩ := Option.map_eq_some_iff.mp hrest
        exact ⟨own, h.userStore (List.mem_of_getElem? ht) hva hf b⟩
      · cases hrest
  | kernelStore a b =>
      obtain rfl := Option.some.inj hstep
      exact ⟨own, h.store b hok.1 hok.2⟩

/-- The invariant holds along every run of steps that keep to their half. -/
theorem SysRun.inv {boot s : System} {own : Nat → Option Holder} (hboot : SpaceInv boot own)
    (hrun : SysRun KeepsHalves boot s) : ∃ own', SpaceInv s own' := by
  induction hrun with
  | boot => exact ⟨own, hboot⟩
  | step op _ hok hstep ih =>
      obtain ⟨own', hown'⟩ := ih
      exact hown'.step hok hstep

end BestOS
