/-
BestOS/SpaceIsolation.lean

Tasks are isolated from each other.

What the invariant `SpaceInv` says of one state, and what it gives for runs:

* the pages that two tasks have below the kernel half are in different frames, and none of
  them is a page table, part of the bitmap or part of a block of the heap
  (`user_frames_apart`);
* as long as nobody acts for a task, nothing it sees changes: not where its pages are, and
  not what is in them (`foreign_steps_unseen`);
* nor does anything the tasks do reach a block of the heap (`heap_frames_undisturbed`), so
  that the rest of the system is a legal neighbour for `malloc`.
-/
import BestOS.KernelHalf
import BestOS.HeapGrow

namespace BestOS

open ByteMemory RadixForest

variable {m m' : Machine} {roots : Set Nat} {s s' : System} {own : Nat → Option Holder}
  {o : Holder} {op : SysOp} {t : TaskMem} {k f n : Nat}

/-! ### Frames that a step leaves alone -/

/-- Frame `k` stays marked and keeps its bytes. -/
def KeepsFrame (m m' : Machine) (k : Nat) : Prop :=
  MarkedUsed m' k ∧ ∀ a, a / PAGE_SIZE = k → m'.mem a = m.mem a

theorem Grows.keepsFrame (hg : Grows m m' roots n) (hk : Held m roots k) : KeepsFrame m m' k := by
  refine ⟨hg.used k hk.used, fun a ha => hg.data a ?_ ?_ (hk.apart a ha)⟩
  · rw [ha]
    exact hk.used
  · rw [ha]
    exact hk.not_table

theorem GivesFrames.keepsFrame (hg : GivesFrames m m' f n) (hk : Held m roots k)
    (hout : ¬ (f ≤ k ∧ k < f + n)) : KeepsFrame m m' k :=
  ⟨hg.marked k hout hk.used, fun a ha => hg.kept a (hk.apart a ha)⟩

theorem KeepsFrame.trans {m'' : Machine} (h : KeepsFrame m m' k) (h' : KeepsFrame m' m'' k) :
    KeepsFrame m m'' k :=
  ⟨h'.1, fun a ha => (h'.2 a ha).trans (h.2 a ha)⟩

/-- A run that `o` owns can be given back. -/
theorem SpaceInv.gives (h : SpaceInv s own) {addr : Nat} (hrun : OwnsRun s.machine own o addr n) :
    ∃ f, GivesFrames s.machine (pmmFree s.machine addr n) f n ∧
      ∀ k, f ≤ k → k < f + n → own k = some o := by
  obtain ⟨f, rfl, hbelow, hall⟩ := hrun
  have hhigh := h.maps.pmm.high
  refine ⟨f, pmmFree_spec (fun k h1 h2 => (h.held k o (hall k h1 h2)).used) ?_, hall⟩
  simp only [PAGE_SIZE] at hbelow ⊢
  omega

/-- Changes of the bitmap change no translation. -/
theorem PageMaps.translate_of_bitmap {shared : Fin 512 → Prop} (h : PageMaps m roots shared)
    (hm : ∀ a, ¬ InBitmap m a → m'.mem a = m.mem a) {r : Nat} (hr : r ∈ roots) (va : Nat) :
    translate m'.mem r va = translate m.mem r va := by
  refine translate_of_walk (fun q hq => walk_eq_of_tables (d := 3) (fun t ht j => ?_) hr hq) va
  exact child_congr (entry_congr j fun a h1 h2 => hm a ((h.frames t ht).apart a h1 h2))

/-- `sys_exit` gives back frames of the task and its top-level table. -/
theorem SpaceInv.exit_keeps (h : SpaceInv s own) (ht : t ∈ s.tasks) :
    (∀ a, ¬ InBitmap s.machine a →
      (pmmFree (pmmFree s.machine t.sp (STACK_SIZE / PAGE_SIZE)) t.pagemap 1).mem a
        = s.machine.mem a) ∧
    ∀ k o, own k = some o → o ≠ .task t.pagemap →
      KeepsFrame s.machine
        (pmmFree (pmmFree s.machine t.sp (STACK_SIZE / PAGE_SIZE)) t.pagemap 1) k := by
  obtain ⟨f, hgive₁, hown⟩ := h.gives (h.stack t ht)
  obtain ⟨hinv₁, hwalk₁, hheld₁⟩ := h.giveRun (h.stack t ht)
  have htable₁ : Table (child (pmmFree s.machine t.sp (STACK_SIZE / PAGE_SIZE)).mem) s.pagemaps 3
      t.pagemap := ⟨_, task_mem_pagemaps ht, [], by simp, rfl⟩
  have hhigh₁ := pmmFree_highestPage s.machine t.sp (STACK_SIZE / PAGE_SIZE)
  generalize pmmFree s.machine t.sp (STACK_SIZE / PAGE_SIZE) = m₁ at *
  have hframe := hinv₁.frames _ htable₁
  have hpage : t.pagemap / PAGE_SIZE * PAGE_SIZE = t.pagemap :=
    Nat.div_mul_cancel (Nat.dvd_of_mod_eq_zero hframe.aligned)
  have hgive₂ := pmmFree_spec (s := m₁) (f := t.pagemap / PAGE_SIZE) (n := 1) (by
    intro k h1 h2
    obtain rfl : k = t.pagemap / PAGE_SIZE := by omega
    exact hframe.used) (by
    have h1 := h.below t ht
    have h2 := h.maps.pmm.high
    simp only [PAGE_SIZE] at h1 ⊢
    omega)
  rw [hpage] at hgive₂
  refine ⟨fun a ha => ?_, fun k o hk hne => ?_⟩
  · rw [hgive₂.kept a (by rwa [InBitmap, hgive₁.bitmap, ← InBitmap]), hgive₁.kept a ha]
  · have hk₁ := hheld₁ k o (dropHolder_of_ne hk hne)
    refine (hgive₁.keepsFrame (h.held k o hk) fun hin => ?_).trans
      (hgive₂.keepsFrame hk₁ fun hin => hk₁.not_table ?_)
    · exact hne (Option.some.inj (hk.symm.trans (hown k hin.1 hin.2)))
    · obtain rfl : k = t.pagemap / PAGE_SIZE := by omega
      rwa [hpage]

/-- `task_init` writes to frames that were free only. -/
theorem SpaceInv.taskInit_keeps (h : SpaceInv s own)
    (hrun : RunFree s.machine (STACK_SIZE / PAGE_SIZE)) (hfree : 8 ≤ freeCount s.machine)
    (usedPages : Nat) (hk : Held s.machine s.pagemaps k) :
    KeepsFrame s.machine (BestOS.taskInit s usedPages).machine k := by
  have hfour : STACK_SIZE / PAGE_SIZE = 4 := rfl
  rw [hfour] at hrun
  -- the stack, the page map, and the mapping of the one in the other
  obtain ⟨f₀, haddr₀, htake₀⟩ := pmmAllocateZero_run h.maps.pmm (by decide) hrun
  obtain ⟨hinv₀, hgrow₀, -⟩ := h.maps.take htake₀
  have hcount₀ := hgrow₀.free
  unfold BestOS.taskInit
  dsimp only
  rw [hfour, haddr₀]
  generalize (pmmAllocateZero s.machine 4).2 = s₀ at *
  obtain ⟨f, haddr, htake⟩ := pmmAllocateZero_run hinv₀.pmm (Nat.le_refl 1)
    (runFree_one hinv₀.pmm (by omega))
  obtain ⟨hinv₁, hgrow₁, -, -, hheld₁, -⟩ := hinv₀.newRoot (kernel_mem_pagemaps s) htake
  rw [haddr]
  generalize shareKernelHalf (pmmAllocateZero s₀ 1).2 (f * PAGE_SIZE) s.kernelPagemap = s₁ at *
  have hcount₁ := hgrow₁.free
  have hsmall := card_missingTables_stackPages s₁.mem (f * PAGE_SIZE) (f₀ * PAGE_SIZE)
  obtain ⟨-, hgrow₂, -⟩ := mapPages_spec hinv₁ (Set.mem_insert _ _) (.inr rfl)
    (stackPages (f₀ * PAGE_SIZE))
    (by
      intro q hq
      obtain ⟨i, -, rfl⟩ := List.mem_map.mp hq
      exact Nat.mod_lt _ (by decide))
    (by omega) fun q hq => topFree_user _ _ _ (stackPages_user _ q hq)
  have hk₀ := hk.grows hgrow₀
  exact ((hgrow₀.keepsFrame hk).trans (hgrow₁.keepsFrame hk₀)).trans
    (hgrow₂.keepsFrame (hheld₁ k hk₀))

/-- The byte that a task's store goes to is in the frame of its page. -/
theorem page_of_userStore {mem : Mem} {r va f : Nat} (hf : translate mem r va = some f) :
    (f + va % PAGE_SIZE) / PAGE_SIZE = f / PAGE_SIZE := by
  have hal := translate_aligned hf
  simp only [PAGE_SIZE] at hal ⊢
  omega

/-- A store into a frame that is held, or where `KeepsHalves` lets the kernel store. -/
theorem PageMaps.put_keeps {shared : Fin 512 → Prop} (h : PageMaps m roots shared) {a : Nat}
    (b : BitVec 8) (hnb : ¬ InBitmap m a)
    (hnt : ∀ t, Table (child m.mem) roots 3 t → a < t ∨ t + PAGE_SIZE ≤ a) :
    (∀ k, MarkedUsed { m with mem := put m.mem a b } k ↔ MarkedUsed m k) ∧
    ∀ r ∈ roots, ∀ va, translate (put m.mem a b) r va = translate m.mem r va := by
  obtain ⟨-, hchild, hused, -⟩ := h.store (put m.mem a b) (fun x hx => put_ne (by
    rintro rfl
    exact hnb hx)) fun t ht x h1 h2 => put_ne (by
    have := hnt t ht
    omega)
  exact ⟨hused, fun r hr => translate_of_walk fun q hq => walk_eq_of_tables hchild hr hq⟩

theorem Held.outside {shared : Fin 512 → Prop} (h : PageMaps m roots shared) {a : Nat}
    (hk : Held m roots (a / PAGE_SIZE)) :
    ¬ InBitmap m a ∧ ∀ t, Table (child m.mem) roots 3 t → a < t ∨ t + PAGE_SIZE ≤ a := by
  refine ⟨hk.apart a rfl, fun t ht => ?_⟩
  by_contra hin
  exact h.not_held_of_table ht (by omega) (by omega) hk

/-! ### One step -/

/-- The step is taken for holder `o`: by the task, or on the block of the heap. -/
def ActsFor (s : System) (o : Holder) : SysOp → Prop
  | .taskInit _ | .heapAlloc _ | .kernelStore _ _ => False
  | .loadSegment i _ _ | .mmap i _ _ _ | .exit i | .userStore i _ _ =>
      ∃ t, s.tasks[i]? = some t ∧ o = .task t.pagemap
  | .heapFree j => ∃ b, s.blocks[j]? = some b ∧ o = .heap b.1

/-- What a step leaves alone: the frames of every holder that it is not taken for, a store
of the kernel into them apart, and the page maps of the other tasks. -/
structure StepEffect (s s' : System) (own : Nat → Option Holder) (op : SysOp) : Prop where
  bitmap : s'.machine.bitmap = s.machine.bitmap
  high : s'.machine.highestPage = s.machine.highestPage
  frames : ∀ {k o}, own k = some o → ¬ ActsFor s o op →
    (∀ a b, op = .kernelStore a b → a / PAGE_SIZE ≠ k) → KeepsFrame s.machine s'.machine k
  stays : ∀ {t}, t ∈ s.tasks → ¬ ActsFor s (.task t.pagemap) op → t ∈ s'.tasks
  maps : ∀ {t}, t ∈ s.tasks → ¬ ActsFor s (.task t.pagemap) op → ∀ va,
    translate s'.machine.mem t.pagemap va = translate s.machine.mem t.pagemap va

/-- Pages below the kernel half that one task maps are not seen by another. -/
theorem unseen_of_look {r r' va' : Nat} {vas : List Nat} {p : Nat → Prop}
    (hlook : translate m'.mem r' va' = translate m.mem r' va' ∨
      ∃ va ∈ vas, SamePage KernelSlot r va r' va' ∧ ∃ f, p f ∧
        translate m'.mem r' va' = some (f * PAGE_SIZE))
    (huser : ∀ va ∈ vas, UserHalf va) (hne : r ≠ r') :
    translate m'.mem r' va' = translate m.mem r' va' := by
  refine hlook.resolve_right ?_
  rintro ⟨va, hva, hpage, -⟩
  exact hne (hpage.user (huser va hva)).1

/-- **One step.** -/
theorem SpaceInv.effect (h : SpaceInv s own) (hok : KeepsHalves s op)
    (hstep : sysStep s op = some s') : StepEffect s s' own op := by
  cases op with
  | taskInit usedPages =>
      obtain rfl := Option.some.inj hstep
      obtain ⟨f₀, f, htasks, hadd, -⟩ := taskInit_spec h.maps hok.1 hok.2 usedPages
      refine ⟨hadd.bitmap, hadd.high, fun hk _ _ => ?_, fun ht _ => ?_, fun ht _ => ?_⟩
      · exact h.taskInit_keeps hok.1 hok.2 usedPages (h.held _ _ hk)
      · rw [htasks]
        exact List.mem_append_left _ ht
      · exact hadd.others _ (task_mem_pagemaps ht)
  | loadSegment i base p =>
      obtain ⟨t₀, ht₀, rfl⟩ := Option.map_eq_some_iff.mp hstep
      obtain ⟨hrun, hfree, huser⟩ := hok t₀ ht₀
      obtain ⟨-, hgrow, hlook⟩ := h.maps.elfLoadSegment
        (task_mem_pagemaps (List.mem_of_getElem? ht₀)) hrun hfree
        fun va hva => topFree_user _ _ _ (huser va hva)
      refine ⟨hgrow.bitmap, hgrow.high, fun hk _ _ => hgrow.keepsFrame (h.held _ _ hk),
        fun ht _ => ht, fun ht hnot va => ?_⟩
      exact unseen_of_look (hlook _ (task_mem_pagemaps ht) va) huser
        fun e => hnot ⟨t₀, ht₀, congrArg Holder.task e.symm⟩
  | mmap i hint size flags =>
      obtain ⟨t₀, u, ht₀, rfl⟩ := sysStep_mmap hstep
      obtain ⟨hfree, huser⟩ := hok t₀ ht₀
      obtain ⟨-, hgrow, hlook⟩ := mmapPages_spec h.maps
        (task_mem_pagemaps (List.mem_of_getElem? ht₀)) _
        (by simpa [Supplied, mmapAddresses] using hfree)
        fun va hva => topFree_user _ _ _ (huser va hva)
      refine ⟨hgrow.bitmap, hgrow.high, fun hk _ _ => hgrow.keepsFrame (h.held _ _ hk),
        fun {t} ht hnot => ?_, fun ht hnot va => ?_⟩
      · obtain ⟨j, hj⟩ := List.getElem?_of_mem ht
        have hij : i ≠ j := by
          rintro rfl
          exact hnot ⟨t, hj, rfl⟩
        exact List.mem_of_getElem? ((List.getElem?_set_ne hij).trans hj)
      · exact unseen_of_look (hlook _ (task_mem_pagemaps ht) va) huser
          fun e => hnot ⟨t₀, ht₀, congrArg Holder.task e.symm⟩
  | exit i =>
      obtain ⟨t₀, ht₀, rfl⟩ := Option.map_eq_some_iff.mp hstep
      obtain ⟨hmem, hkeep⟩ := h.exit_keeps (List.mem_of_getElem? ht₀)
      refine ⟨by simp, by simp, fun {k o} hk hnot _ => ?_, fun {t} ht hnot => ?_, fun ht _ => ?_⟩
      · exact hkeep k o hk fun e => hnot ⟨t₀, ht₀, e⟩
      · obtain ⟨j, hj⟩ := List.getElem?_of_mem ht
        have hij : j ≠ i := by
          rintro rfl
          exact hnot ⟨t, hj, rfl⟩
        exact List.mem_eraseIdx_iff_getElem?.mpr ⟨j, hij, hj⟩
      · exact h.maps.translate_of_bitmap hmem (task_mem_pagemaps ht)
  | heapAlloc n =>
      obtain rfl := Option.some.inj hstep
      obtain ⟨f, -, htake⟩ := pmmAllocateZero_run h.maps.pmm hok.1 hok.2
      obtain ⟨-, hgrow, hwalk, -⟩ := h.maps.take htake
      exact ⟨hgrow.bitmap, hgrow.high, fun hk _ _ => hgrow.keepsFrame (h.held _ _ hk),
        fun ht _ => ht, fun ht _ => translate_of_walk (hwalk _ (task_mem_pagemaps ht))⟩
  | heapFree j =>
      obtain ⟨b, hb, rfl⟩ := Option.map_eq_some_iff.mp hstep
      obtain ⟨f, hgive, hown⟩ := h.gives (h.blocks b (List.mem_of_getElem? hb)).2
      refine ⟨hgive.bitmap, hgive.high, fun {k o} hk hnot _ => ?_, fun ht _ => ht, fun ht _ => ?_⟩
      · refine hgive.keepsFrame (h.held k o hk) fun hin => hnot ⟨b, hb, ?_⟩
        exact Option.some.inj (hk.symm.trans (hown k hin.1 hin.2))
      · exact h.maps.translate_of_bitmap hgive.kept (task_mem_pagemaps ht)
  | userStore i va b =>
      obtain ⟨t₀, ht₀, hrest⟩ := Option.bind_eq_some_iff.mp hstep
      split at hrest
      · rename_i hva
        obtain ⟨f, hf, rfl⟩ := Option.map_eq_some_iff.mp hrest
        have howner := h.user t₀ (List.mem_of_getElem? ht₀) va hva f hf
        have hpage := page_of_userStore hf
        obtain ⟨hnb, hnt⟩ := (hpage ▸ h.held _ _ howner).outside h.maps
        obtain ⟨hused, hsame⟩ := h.maps.put_keeps b hnb hnt
        refine ⟨rfl, rfl, fun {k o} hk hnot _ => ⟨(hused k).mpr (h.held k o hk).used,
          fun a ha => put_ne fun e => ?_⟩, fun ht _ => ht, fun ht _ => hsame _ (task_mem_pagemaps ht)⟩
        -- the frame is another holder's
        rw [← hpage, ← e, ha] at howner
        exact hnot ⟨t₀, ht₀, Option.some.inj (hk.symm.trans howner)⟩
      · cases hrest
  | kernelStore a b =>
      obtain rfl := Option.some.inj hstep
      obtain ⟨hused, hsame⟩ := h.maps.put_keeps b hok.1 hok.2
      refine ⟨rfl, rfl, fun {k o} hk _ hstore => ⟨(hused k).mpr (h.held k o hk).used,
        fun x hx => put_ne fun e => ?_⟩, fun ht _ => ht, fun ht _ => hsame _ (task_mem_pagemaps ht)⟩
      exact hstore a b rfl (e ▸ hx)

/-! ### Runs -/

/-- The byte that task `t` sees at `va`. -/
def byteSeen (s : System) (t : TaskMem) (va : Nat) : Option (BitVec 8) :=
  (translate s.machine.mem t.pagemap va).map fun f => s.machine.mem (f + va % PAGE_SIZE)

/-- The step is taken for `t`, or it is a store of the kernel into a page of `t`. -/
def Concerns (s : System) (t : TaskMem) (op : SysOp) : Prop :=
  ActsFor s (.task t.pagemap) op ∨ ∃ a b va f, op = .kernelStore a b ∧ UserHalf va ∧
    translate s.machine.mem t.pagemap va = some f ∧ a / PAGE_SIZE = f / PAGE_SIZE

/-- Steps that do not concern `t`. -/
inductive ForeignRun (t : TaskMem) (s : System) : System → Prop
  | refl : ForeignRun t s s
  | step {s₁ s₂} (op) (hrun : ForeignRun t s s₁) (hok : KeepsHalves s₁ op)
      (hnot : ¬ Concerns s₁ t op) (hstep : sysStep s₁ op = some s₂) : ForeignRun t s s₂

theorem SpaceInv.unseen (h : SpaceInv s own) (ht : t ∈ s.tasks) (hok : KeepsHalves s op)
    (hnot : ¬ Concerns s t op) (hstep : sysStep s op = some s') :
    t ∈ s'.tasks ∧
    (∀ va, translate s'.machine.mem t.pagemap va = translate s.machine.mem t.pagemap va) ∧
    ∀ va, UserHalf va → byteSeen s' t va = byteSeen s t va := by
  have heff := h.effect hok hstep
  have hact : ¬ ActsFor s (.task t.pagemap) op := fun hc => hnot (.inl hc)
  refine ⟨heff.stays ht hact, heff.maps ht hact, fun va hva => ?_⟩
  unfold byteSeen
  rw [heff.maps ht hact va]
  cases hf : translate s.machine.mem t.pagemap va with
  | none => rfl
  | some f =>
      have hkeep := heff.frames (h.user t ht va hva f hf) hact fun a b hop hpage =>
        hnot (.inr ⟨a, b, va, f, hop, hva, hf, hpage⟩)
      rw [Option.map_some, Option.map_some, hkeep.2 _ (page_of_userStore hf)]

/-- **What others do is not seen.**  Over any run in which no step concerns task `t`, its
page map translates as before, and every byte below the kernel half is what it was. -/
theorem foreign_steps_unseen {mem : Mem} {map : List MmapEntry} {boot : System}
    (hb : BootOk mem map) (hboot : bootSystem mem map = some boot)
    (hrun : SysRun KeepsHalves boot s) (ht : t ∈ s.tasks) (hforeign : ForeignRun t s s') :
    t ∈ s'.tasks ∧
    (∀ va, translate s'.machine.mem t.pagemap va = translate s.machine.mem t.pagemap va) ∧
    ∀ va, UserHalf va → byteSeen s' t va = byteSeen s t va := by
  have hstart := hrun.inv (spaceInv_boot hb hboot)
  suffices hall : (∃ own, SpaceInv s' own) ∧ t ∈ s'.tasks ∧
      (∀ va, translate s'.machine.mem t.pagemap va = translate s.machine.mem t.pagemap va) ∧
      ∀ va, UserHalf va → byteSeen s' t va = byteSeen s t va from hall.2
  induction hforeign with
  | refl => exact ⟨hstart, ht, fun _ => rfl, fun _ _ => rfl⟩
  | step op _ hok hnot hstep ih =>
      obtain ⟨⟨own₁, hinv₁⟩, ht₁, hmap₁, hseen₁⟩ := ih
      obtain ⟨ht₂, hmap₂, hseen₂⟩ := hinv₁.unseen ht₁ hok hnot hstep
      exact ⟨hinv₁.step hok hstep, ht₂, fun va => (hmap₂ va).trans (hmap₁ va),
        fun va hva => (hseen₂ va hva).trans (hseen₁ va hva)⟩

theorem flatTask_keepsHalves : KeepsHalves flatTask (.heapAlloc 1) := by
  obtain ⟨own, h⟩ := flatTask_run.inv (spaceInv_boot flatBootOk flatBoot_eq)
  obtain ⟨-, -, hcount, -⟩ := flatTask_spec
  exact ⟨Nat.le_refl 1, runFree_one h.maps.pmm (by omega)⟩

/-- The heap takes a page behind the first task's back. -/
theorem foreign_steps_unseen_flat : ∃ t s', flatTask.tasks[0]? = some t ∧
    sysStep flatTask (.heapAlloc 1) = some s' ∧ t ∈ s'.tasks ∧
    ∀ va, UserHalf va → byteSeen s' t va = byteSeen flatTask t va := by
  obtain ⟨t, ht, -⟩ := flatTask_spec
  have hnot : ¬ Concerns flatTask t (.heapAlloc 1) := by
    rintro (hact | ⟨a, b, va, f, hop, -⟩)
    · exact hact
    · cases hop
  obtain ⟨hstays, -, hseen⟩ := foreign_steps_unseen flatBootOk flatBoot_eq flatTask_run
    (List.mem_of_getElem? ht) (.step (.heapAlloc 1) .refl flatTask_keepsHalves hnot rfl)
  exact ⟨t, _, ht, rfl, hstays, hseen⟩

/-- **The frames of tasks are apart.**  A page that a task has below the kernel half is in a
frame that no other task has there, that is no page table, and that belongs neither to the
bitmap nor to a block of the heap. -/
theorem user_frames_apart {mem : Mem} {map : List MmapEntry} {boot : System}
    (hb : BootOk mem map) (hboot : bootSystem mem map = some boot)
    (hrun : SysRun KeepsHalves boot s) (ht : t ∈ s.tasks) {va f : Nat} (hva : UserHalf va)
    (hf : translate s.machine.mem t.pagemap va = some f) :
    (∀ t' ∈ s.tasks, t' ≠ t → ∀ va', UserHalf va' →
      translate s.machine.mem t'.pagemap va' ≠ some f) ∧
    ¬ Table (child s.machine.mem) s.pagemaps 3 f ∧
    MarkedUsed s.machine (f / PAGE_SIZE) ∧
    (∀ a, a / PAGE_SIZE = f / PAGE_SIZE → ¬ InBitmap s.machine a) ∧
    ∀ b ∈ s.blocks, ¬ (b.1 ≤ f ∧ f < b.1 + b.2 * PAGE_SIZE) := by
  obtain ⟨own, h⟩ := hrun.inv (spaceInv_boot hb hboot)
  have howner := h.user t ht va hva f hf
  have hheld := h.held _ _ howner
  refine ⟨fun t' ht' hne va' hva' hf' => ?_, ?_, hheld.used, hheld.apart, fun b hb hin => ?_⟩
  · have howner' := h.user t' ht' va' hva' f hf'
    have hpagemap := Holder.task.inj (Option.some.inj (howner'.symm.trans howner))
    exact hne (List.inj_on_of_nodup_map h.distinct ht' ht hpagemap)
  · have hnot := hheld.not_table
    rwa [Nat.div_mul_cancel (Nat.dvd_of_mod_eq_zero (translate_aligned hf))] at hnot
  · obtain ⟨-, k, hk, -, hall⟩ := h.blocks b hb
    rw [hk] at hin
    have hblock := hall (f / PAGE_SIZE) (by
      simp only [PAGE_SIZE] at hin ⊢
      omega) (by
      simp only [PAGE_SIZE] at hin ⊢
      omega)
    cases howner.symm.trans hblock

/-- The first task maps a page at 4 MiB. -/
theorem flatTask_mapped : ∃ (t : TaskMem) (s' : System) (f : Nat),
    SysRun KeepsHalves flatBoot s' ∧ t ∈ s'.tasks ∧
    translate s'.machine.mem t.pagemap 0x400000 = some f := by
  obtain ⟨own, h⟩ := flatTask_run.inv (spaceInv_boot flatBootOk flatBoot_eq)
  obtain ⟨t, ht, hcount, -⟩ := flatTask_spec
  have hr := task_mem_pagemaps (List.mem_of_getElem? ht)
  have hok : KeepsHalves flatTask (.mmap 0 0x400000 0x1000 (MAP_FIXED ||| MAP_ANONYMOUS)) := by
    intro t' ht'
    rw [mmapAddresses_fixed (by decide)]
    refine ⟨?_, by decide⟩
    have hmiss := (card_missingTables_le flatTask.machine.mem t'.pagemap [0x400000]).trans
      (card_tablesFor_le (G := {2}) (by decide))
    have hpages : mmapPageCount 0x1000 = 1 := by decide
    rw [Finset.card_singleton] at hmiss
    rw [Supplied, hpages]
    omega
  obtain ⟨s', hstep⟩ := sysStep_mmap_returns 0x400000 0x1000 ht
    (show (MAP_FIXED ||| MAP_ANONYMOUS) &&& MAP_ANONYMOUS ≠ 0 by decide)
  obtain ⟨t', u, ht', rfl⟩ := sysStep_mmap hstep
  obtain rfl : t = t' := Option.some.inj (ht.symm.trans ht')
  have hrun := flatTask_run.step _ hok hstep
  rw [mmapAddresses_fixed (by decide)] at hrun
  have hmiss := missing_le flatTask.machine.mem t.pagemap (tablePath 0x400000)
  simp only [tablePath, List.length_cons, List.length_nil] at hmiss
  obtain ⟨-, -, -, f, -, -, hlook⟩ := mmapPage_spec h.maps hr 0x400000
    (by simp only [tablePath]; omega) (topFree_user _ _ _ (by decide))
  refine ⟨_, _, f * PAGE_SIZE, hrun, List.mem_of_getElem?
    (List.getElem?_set_self (List.getElem?_eq_some_iff.mp ht).1), ?_⟩
  exact (hlook _ hr _).1 ⟨rfl, .inl rfl⟩

theorem user_frames_apart_flat : ∃ (t : TaskMem) (s : System) (f : Nat), t ∈ s.tasks ∧
    translate s.machine.mem t.pagemap 0x400000 = some f ∧
    MarkedUsed s.machine (f / PAGE_SIZE) ∧ ¬ Table (child s.machine.mem) s.pagemaps 3 f := by
  obtain ⟨t, s, f, hrun, ht, hf⟩ := flatTask_mapped
  have huser : UserHalf 0x400000 := by decide
  obtain ⟨-, htable, hused, -⟩ := user_frames_apart flatBootOk flatBoot_eq hrun ht huser hf
  exact ⟨t, s, f, ht, hf, hused, htable⟩

/-- Frame `k` belongs to a block of the heap. -/
def HeapFrame (s : System) (k : Nat) : Prop :=
  ∃ b ∈ s.blocks, b.1 ≤ k * PAGE_SIZE ∧ k * PAGE_SIZE < b.1 + b.2 * PAGE_SIZE

/-- **The heap is left alone** by whatever the kernel does for its tasks: every step that
does not give a block of the heap back and is no store of the kernel into one keeps the
frames of the heap marked and their bytes. -/
theorem heap_frames_undisturbed {mem : Mem} {map : List MmapEntry} {boot : System}
    (hb : BootOk mem map) (hboot : bootSystem mem map = some boot)
    (hrun : SysRun KeepsHalves boot s) (hok : KeepsHalves s op)
    (hstep : sysStep s op = some s') (hfree : ∀ j, op ≠ .heapFree j)
    (hstore : ∀ a b, op = .kernelStore a b → ¬ HeapFrame s (a / PAGE_SIZE)) :
    Undisturbed (HeapFrame s) s.machine s'.machine := by
  obtain ⟨own, h⟩ := hrun.inv (spaceInv_boot hb hboot)
  obtain ⟨own', h'⟩ := h.step hok hstep
  have heff := h.effect hok hstep
  have hkeep : ∀ k, HeapFrame s k → KeepsFrame s.machine s'.machine k := by
    rintro k hk
    obtain ⟨b, hb, hin⟩ := id hk
    obtain ⟨-, f, hf, -, hall⟩ := h.blocks b hb
    rw [hf] at hin
    have howner := hall k (by
      simp only [PAGE_SIZE] at hin
      omega) (by
      simp only [PAGE_SIZE] at hin
      omega)
    refine heff.frames howner (fun hact => ?_) fun a b hop hpage => hstore a b hop (hpage ▸ hk)
    cases op with
    | taskInit | heapAlloc | kernelStore => exact hact
    | loadSegment | mmap | exit | userStore =>
        obtain ⟨t, -, ho⟩ := hact
        cases ho
    | heapFree j => exact hfree j rfl
  exact ⟨heff.bitmap, heff.high, h'.maps.pmm, fun hk => (hkeep _ hk).1,
    fun {x} hx => (hkeep _ hx).2 x rfl⟩

/-- A page for the heap is one free frame less. -/
theorem SpaceInv.heapAlloc_free (h : SpaceInv s own) (hok : KeepsHalves s (.heapAlloc n))
    (hstep : sysStep s (.heapAlloc n) = some s') :
    freeCount s.machine ≤ freeCount s'.machine + n ∧ s'.blocks ≠ [] := by
  obtain rfl := Option.some.inj hstep
  obtain ⟨f, -, htake⟩ := pmmAllocateZero_run h.maps.pmm hok.1 hok.2
  obtain ⟨-, hgrow, -⟩ := h.maps.take htake
  exact ⟨hgrow.free, List.cons_ne_nil _ _⟩

/-- A second block next to the first one. -/
theorem heap_frames_undisturbed_flat : ∃ s s', s.blocks ≠ [] ∧
    sysStep s (.heapAlloc 1) = some s' ∧ Undisturbed (HeapFrame s) s.machine s'.machine := by
  obtain ⟨own, h⟩ := flatTask_run.inv (spaceInv_boot flatBootOk flatBoot_eq)
  obtain ⟨-, -, hcount, -⟩ := flatTask_spec
  obtain ⟨s₁, hs₁⟩ : ∃ s₁, sysStep flatTask (.heapAlloc 1) = some s₁ := ⟨_, rfl⟩
  obtain ⟨hfree, hblocks⟩ := h.heapAlloc_free flatTask_keepsHalves hs₁
  have hrun := flatTask_run.step _ flatTask_keepsHalves hs₁
  obtain ⟨own₁, h₁⟩ := hrun.inv (spaceInv_boot flatBootOk flatBoot_eq)
  have hok : KeepsHalves s₁ (.heapAlloc 1) :=
    ⟨Nat.le_refl 1, runFree_one h₁.maps.pmm (by omega)⟩
  obtain ⟨s₂, hs₂⟩ : ∃ s₂, sysStep s₁ (.heapAlloc 1) = some s₂ := ⟨_, rfl⟩
  exact ⟨s₁, s₂, hblocks, hs₂, heap_frames_undisturbed flatBootOk flatBoot_eq hrun hok hs₂
    (by rintro j ⟨⟩) (by rintro a b ⟨⟩)⟩

end BestOS
