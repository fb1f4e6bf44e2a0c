/-
BestOS/ExitFrames.lean

Does `sys_exit` give back a task's frames?

Frames are taken for a task in five places: `task_init` takes the stack and the
top-level table, `elf_load_program` the segments, `vmm_mmap` its pages, and
`get_next_level` the tables in between.  `sys_exit` gives back two of these: the
stack and the top-level table.

`Life s₀ usedPages s t T` follows one task from its creation in `s₀`: its record
is now `t`, and `T` are the frames taken for it so far.  Its own steps are those
that take frames; between them anything else may happen that leaves the task
alone (`Beside`).

What becomes free at the exit are exactly the four frames of the stack and the
one of the page map (`LifeInv.exit`).  The stack itself is mapped through three
tables of lower levels, so there is always something left behind
(`Life.left_behind`).
-/
import BestOS.Mmap

namespace BestOS

open ByteMemory RadixForest

/-! ### The life of a task -/

/-- The frames that are marked in `m'` and were not in `m`. -/
def Taken (m m' : Machine) : Set Nat := { k | ¬ MarkedUsed m k ∧ MarkedUsed m' k }

/-- The steps of task `i` that take frames for it. -/
def SysOp.TakesFor (i : Nat) : SysOp → Prop
  | .loadSegment j _ _ => j = i
  | .mmap j _ _ _ => j = i
  | _ => False

/-- `pmm_allocate` hands out free frames for all that the step asks for. -/
def FramesServed (s : System) : SysOp → Prop
  | .taskInit _ => RunFree s.machine (STACK_SIZE / PAGE_SIZE) ∧ 8 ≤ freeCount s.machine
  | .loadSegment i base p => ∀ t, s.tasks[i]? = some t →
      (p.pageCount = 0 ∨ RunFree s.machine p.pageCount) ∧
      Supplied s t.pagemap p.pageCount (p.addresses base)
  | .mmap i hint size flags => ∀ t, s.tasks[i]? = some t →
      Supplied s t.pagemap (mmapPageCount size) (mmapAddresses hint size flags t.usedPages)
  | _ => True

/-- What happens beside the task: its page map stays a tree of tables, and the
frames taken for it are not given to anybody. -/
structure Beside (s s' : System) (t : TaskMem) (T : Set Nat) : Prop where
  maps : PageMaps s'.machine {t.pagemap} fun _ => False
  bitmap : s'.machine.bitmap = s.machine.bitmap
  high : s'.machine.highestPage = s.machine.highestPage
  taken : ∀ k ∈ T, MarkedUsed s'.machine k

/-- The task created in `s₀` has the record `t` in `s`, and `T` are the frames
taken for it since. -/
inductive Life (s₀ : System) (usedPages : Nat) : System → TaskMem → Set Nat → Prop
  | created {s t} : FramesServed s₀ (.taskInit usedPages) →
      sysStep s₀ (.taskInit usedPages) = some s → s.tasks[s₀.tasks.length]? = some t →
      Life s₀ usedPages s t (Taken s₀.machine s.machine)
  | own {s s' t t' T i} (op) : Life s₀ usedPages s t T → s.tasks[i]? = some t → op.TakesFor i →
      FramesServed s op → sysStep s op = some s' → s'.tasks[i]? = some t' →
      Life s₀ usedPages s' t' (T ∪ Taken s.machine s'.machine)
  | other {s s' t T} : Life s₀ usedPages s t T → Beside s s' t T → Life s₀ usedPages s' t T

/-- All that was taken is free afterwards, and nothing else has become free. -/
structure GivesBack (T : Set Nat) (m m' : Machine) : Prop where
  all : ∀ k ∈ T, ¬ MarkedUsed m' k
  only : ∀ k, MarkedUsed m k → ¬ MarkedUsed m' k → k ∈ T

/-! ### What stays true during it -/

/-- Among the frames `T`, below `n`, are the page map, the stack, and one more. -/
structure TaskFrames (t : TaskMem) (T : Set Nat) (n : Nat) : Prop where
  pagemap : ∃ f, t.pagemap = f * PAGE_SIZE ∧ f < n ∧ f ∈ T
  stack : ∃ f₀, t.sp = f₀ * PAGE_SIZE ∧ f₀ + 4 ≤ n ∧ ∀ k, f₀ ≤ k → k < f₀ + 4 → k ∈ T
  table : ∃ k ∈ T, k * PAGE_SIZE ≠ t.pagemap ∧
    ¬ (t.sp ≤ k * PAGE_SIZE ∧ k * PAGE_SIZE < t.sp + STACK_SIZE)

/-- The invariant of a task's life. -/
structure LifeInv (m : Machine) (t : TaskMem) (T : Set Nat) : Prop where
  maps : PageMaps m {t.pagemap} fun _ => False
  taken : ∀ k ∈ T, MarkedUsed m k
  frames : TaskFrames t T (m.highestPage / PAGE_SIZE)

theorem TaskFrames.mono {t t' : TaskMem} {T T' : Set Nat} {n : Nat} (h : TaskFrames t T n)
    (hmap : t'.pagemap = t.pagemap) (hsp : t'.sp = t.sp) (hsub : T ⊆ T') :
    TaskFrames t' T' n := by
  obtain ⟨⟨f, hf, hfn, hfT⟩, ⟨f₀, hf₀, hf₀n, hall⟩, ⟨k, hk, hkt⟩⟩ := h
  rw [← hmap, ← hsp] at *
  exact ⟨⟨f, hf, hfn, hsub hfT⟩, ⟨f₀, hf₀, hf₀n, fun k h1 h2 => hsub (hall k h1 h2)⟩,
    ⟨k, hsub hk, hkt⟩⟩

/-- A step that only takes frames keeps what was taken, and marks the rest. -/
theorem LifeInv.grows {m m' : Machine} {t t' : TaskMem} {T : Set Nat} {n : Nat}
    (h : LifeInv m t T) (hmaps : PageMaps m' {t.pagemap} fun _ => False)
    (hgrow : Grows m m' {t.pagemap} n) (hmap : t'.pagemap = t.pagemap) (hsp : t'.sp = t.sp) :
    LifeInv m' t' (T ∪ Taken m m') where
  maps := by rw [hmap]; exact hmaps
  taken := by
    rintro k (hk | hk)
    · exact hgrow.used k (h.taken k hk)
    · exact hk.2
  frames := by
    rw [hgrow.high]
    exact h.frames.mono hmap hsp Set.subset_union_left

/-- A task's own step. -/
theorem LifeInv.own {s s' : System} {t t' : TaskMem} {T : Set Nat} {i : Nat} {op : SysOp}
    (h : LifeInv s.machine t T) (ht : s.tasks[i]? = some t) (hop : op.TakesFor i)
    (hserved : FramesServed s op) (hstep : sysStep s op = some s') (ht' : s'.tasks[i]? = some t') :
    LifeInv s'.machine t' (T ∪ Taken s.machine s'.machine) := by
  have htop : ∀ va, TopFree s.machine.mem {t.pagemap} (fun _ => False) t.pagemap va :=
    fun _ _ hsh => hsh.elim
  cases op with
  | loadSegment j base p =>
      obtain rfl : j = i := hop
      obtain ⟨hrun, hsup⟩ := hserved t ht
      obtain ⟨t₀, ht₀, rfl⟩ := Option.map_eq_some_iff.mp hstep
      obtain rfl : t = t₀ := Option.some.inj (ht.symm.trans ht₀)
      obtain rfl : t = t' := Option.some.inj (ht.symm.trans ht')
      obtain ⟨hmaps, hgrow, -⟩ := h.maps.elfLoadSegment rfl hrun hsup fun va _ => htop va
      exact h.grows hmaps hgrow rfl rfl
  | mmap j hint size flags =>
      obtain rfl : j = i := hop
      have hsup := hserved t ht
      obtain ⟨t₀, u, ht₀, rfl⟩ := sysStep_mmap hstep
      obtain rfl : t = t₀ := Option.some.inj (ht.symm.trans ht₀)
      have hset : t' = { t with usedPages := u } := by
        rw [List.getElem?_set_self (List.getElem?_eq_some_iff.mp ht).1] at ht'
        exact (Option.some.inj ht').symm
      obtain ⟨hmaps, hgrow, -⟩ := mmapPages_spec h.maps rfl
        (mmapAddresses hint size flags t.usedPages)
        (by simpa [Supplied, mmapAddresses] using hsup) fun va _ => htop va
      exact h.grows hmaps hgrow (by rw [hset]) (by rw [hset])
  | _ => exact hop.elim

/-- The kernel's page map is a tree of tables, and the allocator works. -/
def KernelTree (s : System) : Prop := PageMaps s.machine {s.kernelPagemap} KernelSlot

/-- `task_init`: the second-level table of the stack is neither the page map nor
part of the stack. -/
theorem LifeInv.created {s₀ s : System} {t : TaskMem} {usedPages : Nat} (h : KernelTree s₀)
    (hserved : FramesServed s₀ (.taskInit usedPages))
    (hstep : sysStep s₀ (.taskInit usedPages) = some s) (ht : s.tasks[s₀.tasks.length]? = some t) :
    LifeInv s.machine t (Taken s₀.machine s.machine) := by
  obtain rfl := Option.some.inj hstep
  -- the other tasks are of no concern
  let alone : System := { s₀ with tasks := [] }
  have hroots : alone.pagemaps = {s₀.kernelPagemap} := by simp [alone, System.pagemaps]
  obtain ⟨f₀, f, htasks, hadd, hfree, a, hchild, hafree⟩ :=
    taskInit_spec (s := alone) (by rw [hroots]; exact h) hserved.1 hserved.2 usedPages
  have hmachine : (taskInit alone usedPages).machine = (taskInit s₀ usedPages).machine := rfl
  obtain rfl : t = ⟨f * PAGE_SIZE, f₀ * PAGE_SIZE, usedPages⟩ := by
    have hnew : (taskInit s₀ usedPages).tasks
        = s₀.tasks ++ (taskInit alone usedPages).tasks := rfl
    rw [hnew, htasks, List.nil_append, List.getElem?_concat_length] at ht
    exact (Option.some.inj ht).symm
  rw [hmachine] at hadd hchild
  have hin : f * PAGE_SIZE ∈ insert (f * PAGE_SIZE) alone.pagemaps := Set.mem_insert _ _
  have hmaps := hadd.maps.alone hin
  have hwalk : walk (child (taskInit s₀ usedPages).machine.mem) (f * PAGE_SIZE)
      [index (USER_STACK_TOP - STACK_SIZE) 39] = some a := by simp [walk, hchild]
  have htable := hadd.maps.frames a ⟨_, hin, _, by simp, hwalk⟩
  have hpage : a / PAGE_SIZE * PAGE_SIZE = a :=
    Nat.div_mul_cancel (Nat.dvd_of_mod_eq_zero htable.aligned)
  have hroot := hadd.maps.frames (f * PAGE_SIZE) ⟨_, hin, [], by simp, rfl⟩
  have hdiv : f * PAGE_SIZE / PAGE_SIZE = f := Nat.mul_div_cancel f (by decide)
  refine ⟨hmaps, fun k hk => hk.2, ?_⟩
  rw [hadd.high]
  refine ⟨⟨f, rfl, hadd.below, hfree, hdiv ▸ hroot.used⟩,
    ⟨f₀, rfl, hadd.stack_below, fun k h1 h2 => ?_⟩,
    ⟨a / PAGE_SIZE, ⟨hafree, htable.used⟩, fun heq => ?_, fun hstack => ?_⟩⟩
  · obtain ⟨hwas, hheld⟩ := hadd.stack k h1 h2
    exact ⟨hwas, hheld.used⟩
  · -- one path leads to the page map, and it is the empty one
    rw [hpage] at heq
    obtain rfl : a = f * PAGE_SIZE := heq
    obtain ⟨hnil, -⟩ := hadd.maps.forest.inj _ hin _ hin _ [] _ (by simp) (by simp) hwalk rfl
    cases hnil
  · have hk : f₀ ≤ a / PAGE_SIZE ∧ a / PAGE_SIZE < f₀ + 4 := by
      simp only [PAGE_SIZE, STACK_SIZE] at hstack ⊢
      omega
    refine (hadd.stack _ hk.1 hk.2).2.not_table ?_
    rw [hpage]
    exact ⟨_, hin, _, by simp, hwalk⟩

/-- The invariant holds all through a task's life. -/
theorem Life.inv {s₀ s : System} {usedPages : Nat} {t : TaskMem} {T : Set Nat}
    (h : KernelTree s₀) (hlife : Life s₀ usedPages s t T) : LifeInv s.machine t T := by
  induction hlife with
  | created hserved hstep ht => exact LifeInv.created h hserved hstep ht
  | own op _ ht hop hserved hstep ht' ih => exact ih.own ht hop hserved hstep ht'
  | other _ hbeside ih => exact ⟨hbeside.maps, hbeside.taken, by rw [hbeside.high]; exact ih.frames⟩

/-! ### What may happen beside it -/

/-- A store of the kernel that misses the task's tables and the bitmap. -/
theorem Beside.kernelStore {s s' : System} {t : TaskMem} {T : Set Nat} {a : Nat} {b : BitVec 8}
    (h : LifeInv s.machine t T) (hnb : ¬ InBitmap s.machine a)
    (hnt : ∀ p, Table (child s.machine.mem) {t.pagemap} 3 p → a < p ∨ p + PAGE_SIZE ≤ a)
    (hstep : sysStep s (.kernelStore a b) = some s') : Beside s s' t T := by
  obtain rfl := Option.some.inj hstep
  obtain ⟨hmaps, -, hused, -⟩ := h.maps.store (put s.machine.mem a b)
    (fun x hx => put_ne fun e => hnb (e ▸ hx))
    fun p hp x h1 h2 => put_ne (by have := hnt p hp; omega)
  exact ⟨hmaps, rfl, rfl, fun k hk => (hused k).mpr (h.taken k hk)⟩

/-- A run of frames for the kernel's heap. -/
theorem Beside.heapAlloc {s s' : System} {t : TaskMem} {T : Set Nat} {n : Nat}
    (h : LifeInv s.machine t T) (hn : 1 ≤ n) (hrun : RunFree s.machine n)
    (hstep : sysStep s (.heapAlloc n) = some s') : Beside s s' t T := by
  obtain rfl := Option.some.inj hstep
  obtain ⟨f, -, htake⟩ := pmmAllocateZero_run h.maps.pmm hn hrun
  obtain ⟨hmaps, hgrow, -⟩ := h.maps.take htake
  exact ⟨hmaps, hgrow.bitmap, hgrow.high, fun k hk => hgrow.used k (h.taken k hk)⟩

/-! ### The exit -/

/-- The frames of the stack and of the top-level table. -/
def exitFrames (t : TaskMem) : Set Nat :=
  { k | k * PAGE_SIZE = t.pagemap ∨ t.sp ≤ k * PAGE_SIZE ∧ k * PAGE_SIZE < t.sp + STACK_SIZE }

theorem TaskFrames.exitFrames_subset {t : TaskMem} {T : Set Nat} {n : Nat}
    (h : TaskFrames t T n) : exitFrames t ⊆ T := by
  obtain ⟨f, hf, -, hfT⟩ := h.pagemap
  obtain ⟨f₀, hf₀, -, hall⟩ := h.stack
  rintro k (hk | ⟨h1, h2⟩)
  · rw [hf] at hk
    rwa [Nat.eq_of_mul_eq_mul_right (by decide) hk]
  · rw [hf₀] at h1 h2
    simp only [PAGE_SIZE, STACK_SIZE] at h1 h2
    exact hall k (by omega) (by omega)

/-- **`sys_exit`** frees the stack and the top-level table, and nothing else. -/
theorem LifeInv.exit {s s' : System} {t : TaskMem} {T : Set Nat} {i : Nat}
    (h : LifeInv s.machine t T) (ht : s.tasks[i]? = some t) (hexit : sysStep s (.exit i) = some s')
    (k : Nat) : MarkedUsed s'.machine k ↔ MarkedUsed s.machine k ∧ k ∉ exitFrames t := by
  obtain ⟨t₀, ht₀, rfl⟩ := Option.map_eq_some_iff.mp hexit
  obtain rfl : t = t₀ := Option.some.inj (ht.symm.trans ht₀)
  obtain ⟨f, hf, hfn, -⟩ := h.frames.pagemap
  obtain ⟨f₀, hf₀, hf₀n, -⟩ := h.frames.stack
  have hhigh := h.maps.pmm.high
  have hstack : t.sp + STACK_SIZE / PAGE_SIZE * PAGE_SIZE ≤ 2 ^ 64 := by
    rw [hf₀]
    simp only [PAGE_SIZE, STACK_SIZE] at hf₀n ⊢
    omega
  have hmap : t.pagemap + 1 * PAGE_SIZE ≤ 2 ^ 64 := by
    rw [hf]
    simp only [PAGE_SIZE] at hfn ⊢
    omega
  have hrange : k ∈ exitFrames t ↔
      (t.sp / PAGE_SIZE ≤ k ∧ k < t.sp / PAGE_SIZE + STACK_SIZE / PAGE_SIZE) ∨
        (t.pagemap / PAGE_SIZE ≤ k ∧ k < t.pagemap / PAGE_SIZE + 1) := by
    show _ ∨ _ ↔ _
    rw [hf, hf₀]
    simp only [PAGE_SIZE, STACK_SIZE]
    omega
  unfold MarkedUsed
  rw [pmmFree_bitmap, pmmFree_bitmap, pageUsed_pmmFree _ _ _ _ hmap,
    pageUsed_pmmFree _ _ _ _ hstack, hrange]
  simp only [Bool.and_eq_true, Bool.not_eq_true', decide_eq_false_iff_not]
  tauto

section

variable {s₀ s s' : System} {usedPages i : Nat} {t : TaskMem} {T : Set Nat}

/-- The second-level table of the stack stays marked. -/
theorem Life.left_behind (h : KernelTree s₀) (hlife : Life s₀ usedPages s t T)
    (ht : s.tasks[i]? = some t) (hexit : sysStep s (.exit i) = some s') :
    ¬ GivesBack T s.machine s'.machine := by
  have hinv := hlife.inv h
  obtain ⟨k, hk, hmap, hstack⟩ := hinv.frames.table
  intro hback
  refine hback.all k hk ((hinv.exit ht hexit k).mpr ⟨hinv.taken k hk, ?_⟩)
  rintro (heq | hin)
  · exact hmap heq
  · exact hstack hin

/-- **The exit of a task never gives back all its frames.**  Whatever the task has mapped, of the
frames taken for it those of the stack and the top-level table become free and the others stay
marked, one of them at least; no frame of anybody else becomes free. -/
theorem exit_leaves_frames (h : KernelTree s₀) (hlife : Life s₀ usedPages s t T)
    (ht : s.tasks[i]? = some t) (hexit : sysStep s (.exit i) = some s') :
    ¬ GivesBack T s.machine s'.machine ∧
      (∀ k ∈ T, MarkedUsed s'.machine k ↔ k ∉ exitFrames t) ∧
      ∀ k, MarkedUsed s.machine k → ¬ MarkedUsed s'.machine k → k ∈ T := by
  have hinv := hlife.inv h
  refine ⟨hlife.left_behind h ht hexit, fun k hk => ?_, fun k hk hfree => ?_⟩
  · rw [hinv.exit ht hexit k, and_iff_right (hinv.taken k hk)]
  · by_contra hne
    exact hfree ((hinv.exit ht hexit k).mpr
      ⟨hk, fun hin => hne (hinv.frames.exitFrames_subset hin)⟩)

end

/-! ### On the machine with 64 MiB -/

theorem flatBoot_kernelTree : KernelTree flatBoot := by
  have hmaps := (spaceInv_boot flatBootOk flatBoot_eq).maps
  rwa [flatBoot, bootedSystem_pagemaps] at hmaps

theorem sysStep_exit_returns {s : System} {i : Nat} {t : TaskMem} (ht : s.tasks[i]? = some t) :
    ∃ s', sysStep s (.exit i) = some s' := by
  rw [sysStep, ht, Option.map_some]
  exact ⟨_, rfl⟩

/-- A task is created, and exits at once. -/
theorem flatTask_life : ∃ t s', flatTask.tasks[0]? = some t ∧
    Life flatBoot 0 flatTask t (Taken flatBoot.machine flatTask.machine) ∧
    sysStep flatTask (.exit 0) = some s' := by
  obtain ⟨t, ht, -⟩ := flatTask_spec
  obtain ⟨s', hexit⟩ := sysStep_exit_returns ht
  exact ⟨t, s', ht, .created flatBoot_keepsHalves rfl ht, hexit⟩

theorem exit_leaves_frames_flat : ∃ t s', sysStep flatTask (.exit 0) = some s' ∧
    ¬ GivesBack (Taken flatBoot.machine flatTask.machine) flatTask.machine s'.machine ∧
    (∀ k ∈ Taken flatBoot.machine flatTask.machine,
      MarkedUsed s'.machine k ↔ k ∉ exitFrames t) ∧
    ∀ k, MarkedUsed flatTask.machine k → ¬ MarkedUsed s'.machine k →
      k ∈ Taken flatBoot.machine flatTask.machine := by
  obtain ⟨t, s', ht, hlife, hexit⟩ := flatTask_life
  exact ⟨t, s', hexit, exit_leaves_frames flatBoot_kernelTree hlife ht hexit⟩

/-- **`sys_exit` does not give back a task's frames.** -/
theorem exit_gives_back_too_little :
    ¬ ∀ (s₀ s s' : System) (usedPages i : Nat) (t : TaskMem) (T : Set Nat), KernelTree s₀ →
      Life s₀ usedPages s t T → s.tasks[i]? = some t → sysStep s (.exit i) = some s' →
      GivesBack T s.machine s'.machine := by
  intro hclaim
  obtain ⟨t, s', ht, hlife, hexit⟩ := flatTask_life
  exact hlife.left_behind flatBoot_kernelTree ht hexit
    (hclaim _ _ _ _ _ _ _ flatBoot_kernelTree hlife ht hexit)

end BestOS
