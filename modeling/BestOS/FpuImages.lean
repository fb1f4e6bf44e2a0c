/-
BestOS/FpuImages.lean

Where the FPU images of the tasks are kept.

`fxsave` stores 512 bytes at the address of its operand.  `task_init` and
`interrupts_handler` give it `fpu_storage`, which is no buffer and no pointer to one that
was set up, but the last field of `Task`, eight bytes long: the image takes the field and
504 bytes behind the record.  What is there is decided by the heap: a boundary tag, another
task, a file.  Saving changes it, and when its owner stores there the image is gone.

A run makes tasks and takes timer interrupts, with any other code between them.  Beside
memory and the scheduler it carries the image saved last for each task.  `FpuInv` says that
this is the image found behind `fpu_storage`, and `FpuApart` is the condition under which
the steps keep it.  Whether a save stays inside the record is another matter: under the
invariant it does exactly where the image has not changed behind its first eight bytes
since the save before (`SaveFits`).
-/
import BestOS.KernelStack
import BestOS.ByteLayout
import BestOS.BlockHeap

namespace BestOS

open ByteMemory
open BlockHeap (Apart)

/-! ### Saving and loading -/

/-- `sizeof(Task)`. -/
def TASK_SIZE : Nat := 264
/-- `offsetof(Task, stack)`. -/
def TASK_STACK : Nat := 72
/-- `offsetof(Task, fpu_storage)`. -/
def TASK_FPU : Nat := 256

/-- The bytes of an FPU image. -/
abbrev FpuImage := Fin 512 → BitVec 8

/-- `fxsave`, at the address of its operand. -/
def fxsave (m : Mem) (a : Nat) (regs : FpuImage) : Mem := fun x =>
  if h : a ≤ x ∧ x - a < 512 then regs ⟨x - a, h.2⟩ else m x

/-- `fxrstor`. -/
def fxrstor (m : Mem) (a : Nat) : FpuImage := fun i => m (a + i)

/-- `t->stack = frame`. -/
def storeFrame (m : Mem) (t : Nat) (frame : Stack) : Mem :=
  writeWords m (t + TASK_STACK) (frame.words.map BitVec.toNat)

/-- Memory, the scheduler, `prev_task`, the tasks made so far, and the image that was saved
last for each of them. -/
structure FpuWorld where
  mem : Mem
  sched : Sched Nat
  prev : Option Nat
  tasks : List Nat
  saved : Nat → Option FpuImage

/-- The part of `task_init` that saves the FPU state into the new record. -/
def initFpu (w : FpuWorld) (t : Nat) (regs : FpuImage) : FpuWorld :=
  { w with
    mem := fxsave w.mem (t + TASK_FPU) regs
    tasks := t :: w.tasks
    saved := Function.update w.saved t (some regs) }

/-- `prev_task` is saved, when there is one: its frame and the FPU state. -/
def savePrev (w : FpuWorld) (frame : Stack) (regs : FpuImage) : FpuWorld :=
  match w.prev with
  | none => w
  | some p =>
    { w with
      mem := fxsave (storeFrame w.mem p frame) (p + TASK_FPU) regs
      saved := Function.update w.saved p (some regs) }

/-- The timer branch of `interrupts_handler`, and the image it loads. -/
def timerFpu (w : FpuWorld) (frame : Stack) (regs : FpuImage) : Option (FpuWorld × FpuImage) :=
  let w := savePrev w frame regs
  match schedTick w.sched with
  | none => none
  | some sched =>
    match sched.currentTask with
    | none => none
    | some newTask =>
      some ({ w with
        sched := sched
        prev := some newTask }, fxrstor w.mem (newTask + TASK_FPU))

/-! ### Runs -/

/-- A task is made, a timer interrupt arrives, or any other code runs, which may change
memory and the scheduler. -/
inductive FpuOp
  | taskInit (t : Nat) (regs : FpuImage)
  | timer (frame : Stack) (regs : FpuImage)
  | other (mem : Mem) (sched : Sched Nat)

def fpuStep (w : FpuWorld) : FpuOp → Option FpuWorld
  | .taskInit t regs => some (initFpu w t regs)
  | .timer frame regs => (timerFpu w frame regs).map Prod.fst
  | .other mem sched =>
    some { w with
      mem := mem
      sched := sched }

def fpuBoot (m : Mem) : FpuWorld := ⟨m, schedInit, none, [], fun _ => none⟩

/-- The states reached from boot by steps that meet `ok` where they are taken. -/
inductive FpuRun (ok : FpuWorld → FpuOp → Prop) (m : Mem) : FpuWorld → Prop
  | boot : FpuRun ok m (fpuBoot m)
  | step {w w'} (op : FpuOp) : FpuRun ok m w → ok w op → fpuStep w op = some w' → FpuRun ok m w'

/-- What the rest of the kernel sees to: records are blocks of their own, nobody else uses
the field `fpu_storage`, and only tasks that were made are in the scheduler. -/
def FpuLegal (w : FpuWorld) : FpuOp → Prop
  | .taskInit t _ => ∀ u ∈ w.tasks, Apart t TASK_SIZE u TASK_SIZE
  | .timer _ _ => True
  | .other mem sched =>
    (∀ t ∈ w.tasks, ∀ x, t + TASK_FPU ≤ x → x < t + TASK_SIZE → mem x = w.mem x) ∧
    (∀ i t, sched.processes.data i = some t → t ∈ w.tasks) ∧
    ∀ t, sched.currentTask = some t → t ∈ w.tasks

/-- The condition for the images: no record lies where the image of another task is, and
nobody stores into the part of an image behind its record. -/
def FpuApart (w : FpuWorld) (op : FpuOp) : Prop :=
  FpuLegal w op ∧
  match op with
  | .taskInit t _ => ∀ u ∈ w.tasks, Apart t (TASK_FPU + 512) u (TASK_FPU + 512)
  | .timer _ _ => True
  | .other mem _ =>
    ∀ t ∈ w.tasks, ∀ x, t + TASK_SIZE ≤ x → x < t + TASK_FPU + 512 → mem x = w.mem x

/-- The images agree but for the eight bytes that are in the record. -/
def SameBehind (image image' : FpuImage) : Prop := ∀ i, 8 ≤ i.val → image i = image' i

/-- The condition for the saves: a new task has, behind its record, the image that is saved
there; and a task that is preempted has the one it was saved with before. -/
def SaveFits (w : FpuWorld) : FpuOp → Prop
  | .taskInit t regs => SameBehind regs (fxrstor w.mem (t + TASK_FPU))
  | .timer _ regs => ∀ p image, w.prev = some p → w.saved p = some image → SameBehind regs image
  | .other _ _ => True

/-! ### The property -/

/-- Outside the record of `t` memory is as before. -/
def InsideRecord (t : Nat) (m m' : Mem) : Prop :=
  AgreeOn (fun x => x < t ∨ t + TASK_SIZE ≤ x) m m'

/-- A task is resumed with the image that was saved last for it. -/
def ResumesSaved (w : FpuWorld) : FpuOp → Prop
  | .timer frame regs => ∀ w' loaded, timerFpu w frame regs = some (w', loaded) →
      ∀ t, w'.prev = some t → w'.saved t = some loaded
  | _ => True

/-- A step saves into the record of its task only. -/
def SavesInside (w : FpuWorld) : FpuOp → Prop
  | .taskInit t regs => InsideRecord t w.mem (initFpu w t regs).mem
  | .timer frame regs => ∀ p, w.prev = some p → InsideRecord p w.mem (savePrev w frame regs).mem
  | .other _ _ => True

/-! ### One save -/

theorem fxsave_same (m : Mem) (a : Nat) (regs : FpuImage) (i : Fin 512) :
    fxsave m a regs (a + i) = regs i := by
  have h : a ≤ a + i ∧ a + i - a < 512 := ⟨Nat.le_add_right _ _, by omega⟩
  rw [fxsave, dif_pos h]
  congr 1
  exact Fin.ext (Nat.add_sub_cancel_left _ _)

theorem fxsave_agree (m : Mem) (a : Nat) (regs : FpuImage) {x : Nat} (h : x < a ∨ a + 512 ≤ x) :
    fxsave m a regs x = m x :=
  dif_neg (by omega)

theorem fxrstor_fxsave (m : Mem) (a : Nat) (regs : FpuImage) : fxrstor (fxsave m a regs) a = regs :=
  funext (fxsave_same m a regs)

/-- An image is loaded as before if its bytes are. -/
theorem fxrstor_congr {m m' : Mem} {a : Nat} (h : ∀ x, a ≤ x → x < a + 512 → m' x = m x) :
    fxrstor m' a = fxrstor m a :=
  funext fun i => h _ (Nat.le_add_right _ _) (by omega)

/-- Saving stays inside the record exactly when the rest of the image is there already. -/
theorem fxsave_inside_iff (m : Mem) (t : Nat) (regs : FpuImage) :
    InsideRecord t m (fxsave m (t + TASK_FPU) regs) ↔
      SameBehind regs (fxrstor m (t + TASK_FPU)) := by
  have hsize : TASK_SIZE = 264 := rfl
  have hfpu : TASK_FPU = 256 := rfl
  constructor
  · intro h i hi
    rw [fxrstor, ← h _ (.inr (by omega)), fxsave_same]
  · intro h x hx
    by_cases hin : t + TASK_FPU ≤ x ∧ x < t + TASK_FPU + 512
    · obtain ⟨k, rfl⟩ := Nat.exists_eq_add_of_le hin.1
      have hk := h ⟨k, by omega⟩ (show 8 ≤ k by omega)
      exact (fxsave_same m _ regs ⟨k, by omega⟩).trans hk
    · exact fxsave_agree _ _ _ (by omega)

/-- The frame is stored in front of `fpu_storage`. -/
theorem storeFrame_agree (m : Mem) (p : Nat) (frame : Stack) {x : Nat}
    (h : x < p ∨ p + TASK_FPU ≤ x) : storeFrame m p frame x = m x := by
  refine writeWords_agree _ _ _ ?_
  rw [List.length_map, show frame.words.length = 22 from rfl]
  simp only [TASK_FPU, TASK_STACK] at h ⊢
  omega

/-! ### The invariant -/

/-- The area of a record with its image. -/
def AreasApart (t u : Nat) : Prop := Apart t (TASK_FPU + 512) u (TASK_FPU + 512)

/-- The scheduler knows tasks that were made, their areas do not meet, and each image is
the one that was saved last. -/
structure FpuInv (w : FpuWorld) : Prop where
  slots : ∀ i t, w.sched.processes.data i = some t → t ∈ w.tasks
  current : ∀ t, w.sched.currentTask = some t → t ∈ w.tasks
  prev : ∀ t, w.prev = some t → t ∈ w.tasks
  apart : ∀ t ∈ w.tasks, ∀ u ∈ w.tasks, t ≠ u → AreasApart t u
  images : ∀ t ∈ w.tasks, w.saved t = some (fxrstor w.mem (t + TASK_FPU))

theorem FpuInv.boot (m : Mem) : FpuInv (fpuBoot m) where
  slots := fun _ _ h => by cases h
  current := fun _ h => by cases h
  prev := fun _ h => by cases h
  apart := fun _ h => by cases h
  images := fun _ h => by cases h

theorem FpuInv.taskInit {w : FpuWorld} (h : FpuInv w) {t : Nat} {regs : FpuImage}
    (hok : FpuApart w (.taskInit t regs)) : FpuInv (initFpu w t regs) := by
  obtain ⟨-, hapart⟩ := hok
  refine ⟨fun i u hu => .tail _ (h.slots i u hu), fun u hu => .tail _ (h.current u hu),
    fun u hu => .tail _ (h.prev u hu), ?_, ?_⟩
  · intro u hu u' hu' hne
    rcases List.mem_cons.mp hu with rfl | hold <;> rcases List.mem_cons.mp hu' with rfl | hold'
    · exact absurd rfl hne
    · exact hapart u' hold'
    · exact (hapart u hold).symm
    · exact h.apart u hold u' hold' hne
  · intro u hu
    show Function.update w.saved t (some regs) u = some (fxrstor (fxsave w.mem (t + TASK_FPU) regs) _)
    by_cases hut : u = t
    · subst hut
      rw [Function.update_self, fxrstor_fxsave]
    · have hold := (List.mem_cons.mp hu).resolve_left hut
      have hareas := hapart u hold
      simp only [Apart] at hareas
      rw [Function.update_of_ne hut, h.images u hold]
      refine congrArg some (fxrstor_congr fun x h1 h2 => fxsave_agree _ _ _ ?_).symm
      omega

/-- Saving `prev_task` keeps every image that is saved. -/
theorem FpuInv.savePrev {w : FpuWorld} (h : FpuInv w) (frame : Stack) (regs : FpuImage) :
    FpuInv (savePrev w frame regs) := by
  unfold BestOS.savePrev
  cases hp : w.prev with
  | none => exact h
  | some p =>
    refine ⟨h.slots, h.current, fun t ht => h.prev t (hp.trans ht), h.apart, fun u hu => ?_⟩
    have hmem := h.prev p hp
    dsimp only
    by_cases hup : u = p
    · subst hup
      rw [Function.update_self, fxrstor_fxsave]
    · have hareas := h.apart u hu p hmem hup
      simp only [AreasApart, Apart] at hareas
      rw [Function.update_of_ne hup, h.images u hu]
      refine congrArg some (fxrstor_congr fun x h1 h2 => ?_).symm
      rw [fxsave_agree _ _ _ (by omega), storeFrame_agree _ _ _ (by omega)]

/-- A timer interrupt that returns: `prev_task` is saved, and the task in some slot, or the
current one, gets its image. -/
theorem timerFpu_cases {w w' : FpuWorld} {frame : Stack} {regs loaded : FpuImage}
    (h : timerFpu w frame regs = some (w', loaded)) :
    ∃ t sched, schedTick (savePrev w frame regs).sched = some sched ∧ sched.currentTask = some t ∧
      w' = { savePrev w frame regs with sched := sched, prev := some t } ∧
      loaded = fxrstor (savePrev w frame regs).mem (t + TASK_FPU) := by
  unfold timerFpu at h
  dsimp only at h
  split at h
  · cases h
  · next sched htick =>
    split at h
    · cases h
    · next t hcur =>
      obtain ⟨rfl, rfl⟩ := Prod.mk.inj (Option.some.inj h)
      exact ⟨t, sched, htick, hcur, rfl, rfl⟩

theorem FpuInv.timer {w w' : FpuWorld} (h : FpuInv w) {frame : Stack} {regs loaded : FpuImage}
    (ht : timerFpu w frame regs = some (w', loaded)) :
    FpuInv w' ∧ ∀ t, w'.prev = some t → w'.saved t = some loaded := by
  have hsaved := h.savePrev frame regs
  obtain ⟨t, sched, htick, hcur, rfl, rfl⟩ := timerFpu_cases ht
  obtain ⟨hproc, hpick⟩ := schedTick_cases htick
  -- the task comes from a slot or was current
  have hmem : t ∈ (BestOS.savePrev w frame regs).tasks := by
    rcases hpick with hsame | ⟨i, hslot⟩
    · exact hsaved.current t (hsame.symm.trans hcur)
    · exact hsaved.slots i t (hslot.symm.trans hcur)
  refine ⟨⟨?_, ?_, ?_, hsaved.apart, hsaved.images⟩, ?_⟩
  · intro i u hu
    rw [hproc] at hu
    exact hsaved.slots i u hu
  · intro u hu
    obtain rfl : t = u := Option.some.inj (hcur.symm.trans hu)
    exact hmem
  · intro u hu
    obtain rfl : t = u := Option.some.inj hu
    exact hmem
  · intro u hu
    obtain rfl : t = u := Option.some.inj hu
    exact hsaved.images t hmem

theorem FpuInv.step {w w' : FpuWorld} (h : FpuInv w) {op : FpuOp} (hok : FpuApart w op)
    (hstep : fpuStep w op = some w') : FpuInv w' := by
  cases op with
  | taskInit t regs =>
    obtain rfl := Option.some.inj hstep
    exact h.taskInit hok
  | timer frame regs =>
    obtain ⟨⟨w₁, loaded⟩, ht, rfl⟩ := Option.map_eq_some_iff.mp hstep
    exact (h.timer ht).1
  | other mem sched =>
    obtain rfl := Option.some.inj hstep
    obtain ⟨⟨hfield, hslots, hcurrent⟩, hbehind⟩ := hok
    refine ⟨hslots, hcurrent, h.prev, h.apart, fun t ht => ?_⟩
    dsimp only
    rw [h.images t ht]
    refine congrArg some (fxrstor_congr fun x h1 h2 => ?_).symm
    by_cases hx : x < t + TASK_SIZE
    · exact hfield t ht x h1 hx
    · exact hbehind t ht x (by omega) (by omega)

theorem FpuRun.inv {m : Mem} {w : FpuWorld} (hrun : FpuRun FpuApart m w) : FpuInv w := by
  induction hrun with
  | boot => exact .boot m
  | step op _ hok hstep ih => exact ih.step hok hstep

/-- Saving `prev_task` stays inside its record exactly when the rest of the image is there
already. -/
theorem savePrev_inside_iff {w : FpuWorld} {p : Nat} (hp : w.prev = some p) (frame : Stack)
    (regs : FpuImage) : InsideRecord p w.mem (savePrev w frame regs).mem ↔
      SameBehind regs (fxrstor w.mem (p + TASK_FPU)) := by
  have hsize : TASK_SIZE = 264 := rfl
  have hfpu : TASK_FPU = 256 := rfl
  have hmem : (savePrev w frame regs).mem
      = fxsave (storeFrame w.mem p frame) (p + TASK_FPU) regs := by
    unfold savePrev
    rw [hp]
  have hframe : ∀ x, (x < p ∨ p + TASK_SIZE ≤ x) →
      storeFrame w.mem p frame x = w.mem x :=
    fun x hx => storeFrame_agree _ _ _ (by omega)
  have himage : fxrstor (storeFrame w.mem p frame) (p + TASK_FPU) = fxrstor w.mem (p + TASK_FPU) :=
    fxrstor_congr fun x h1 _ => storeFrame_agree _ _ _ (by omega)
  rw [hmem, ← himage, ← fxsave_inside_iff]
  refine forall_congr' fun x => forall_congr' fun hx => ?_
  rw [hframe x hx]

/-- **Saving, exactly.**  What is behind the record of a task that runs is the image it was
saved with. -/
theorem FpuInv.savesInside_iff {w : FpuWorld} (h : FpuInv w) (op : FpuOp) :
    SavesInside w op ↔ SaveFits w op := by
  cases op with
  | taskInit t regs => exact fxsave_inside_iff w.mem t regs
  | timer frame regs =>
    refine forall_congr' fun p => ⟨fun hin image hp hsaved => ?_, fun hfits hp => ?_⟩
    · rw [h.images p (h.prev p hp)] at hsaved
      obtain rfl := Option.some.inj hsaved
      exact (savePrev_inside_iff hp frame regs).mp (hin hp)
    · exact (savePrev_inside_iff hp frame regs).mpr (hfits _ hp (h.images p (h.prev p hp)))
  | other mem sched => exact Iff.rfl

theorem FpuInv.resumesSaved {w : FpuWorld} (h : FpuInv w) (op : FpuOp) : ResumesSaved w op := by
  cases op with
  | timer frame regs => exact fun w' loaded ht => (h.timer ht).2
  | _ => trivial

/-- **FPU images stay with their tasks.**  In every run whose steps keep the images apart,
however they change, a task is resumed with the image that was saved last for it; and a
save stays inside the record exactly where the image is, behind its first eight bytes, what
it was at the save before. -/
theorem fpu_isolated {m : Mem} {w : FpuWorld} (hrun : FpuRun FpuApart m w) (op : FpuOp) :
    ResumesSaved w op ∧ (SavesInside w op ↔ SaveFits w op) :=
  ⟨hrun.inv.resumesSaved op, hrun.inv.savesInside_iff op⟩

/-! ### Two tasks side by side -/

/-- An FPU image of equal bytes. -/
def plainImage (b : BitVec 8) : FpuImage := fun _ => b

/-- Tasks in blocks next to each other, made with zeros all over. -/
def adjacentMade : FpuWorld :=
  initFpu (initFpu (fpuBoot fun _ => 0) 0x1000 (plainImage 0)) 0x1108 (plainImage 0)

/-- Both are pushed. -/
def adjacentPushed : FpuWorld :=
  { adjacentMade with sched := schedPush true (schedPush true schedInit 0x1000) 0x1108 }

/-- The first tick has switched to the first of them. -/
def adjacentRunning : FpuWorld :=
  { adjacentPushed with
    sched := { adjacentPushed.sched with currentTick := 0, index := 1, currentTask := some 0x1000 }
    prev := some 0x1000 }

/-- A slot after a push. -/
theorem schedPush_slots {s : Sched Nat} {grant : Bool} {t t' i : Nat}
    (h : (schedPush grant s t).processes.data i = some t') :
    t' = t ∨ s.processes.data i = some t' := by
  have hpush : (vecPush grant s.processes t).data i = some t' := h
  exact slots_push hpush

theorem adjacentPushed_slots (i t : Nat) (h : adjacentPushed.sched.processes.data i = some t) :
    t ∈ adjacentPushed.tasks := by
  rcases schedPush_slots h with rfl | h
  · exact List.mem_cons_self
  · rcases schedPush_slots h with rfl | h
    · exact .tail _ List.mem_cons_self
    · cases h

/-- **Preempting a task changes the record behind it.** -/
theorem adjacent_tasks_overwritten :
    ¬ ∀ (m : Mem) (w : FpuWorld) (op : FpuOp), FpuRun FpuLegal m w → FpuLegal w op →
      ResumesSaved w op ∧ SavesInside w op := by
  intro hclaim
  have hmade : FpuRun FpuLegal (fun _ => 0) adjacentMade := by
    refine .step (.taskInit 0x1108 (plainImage 0)) (.step (.taskInit 0x1000 (plainImage 0)) .boot
      (fun u hu => by cases hu) rfl) (fun u hu => ?_) rfl
    obtain rfl : u = 0x1000 := List.mem_singleton.mp hu
    exact .inr (by decide)
  have hpushed : FpuRun FpuLegal (fun _ => 0) adjacentPushed :=
    .step (.other _ _) hmade ⟨fun _ _ _ _ _ => rfl, adjacentPushed_slots, fun t ht => by cases ht⟩ rfl
  have hrunning : FpuRun FpuLegal (fun _ => 0) adjacentRunning :=
    .step (.timer (blankStack 32) (plainImage 0)) hpushed trivial rfl
  have hsave := (hclaim _ _ (.timer (blankStack 32) (plainImage 0xFF)) hrunning trivial).2
    0x1000 rfl
  have hfits := (savePrev_inside_iff rfl (blankStack 32) (plainImage 0xFF)).mp hsave 8 (by decide)
  exact absurd hfits (by decide)

/-! ### Two tasks apart -/

/-- Tasks in blocks far from each other. -/
def apartMade : FpuWorld :=
  initFpu (initFpu (fpuBoot fun _ => 0) 0x1000 (plainImage 1)) 0x2000 (plainImage 2)

def apartPushed : FpuWorld :=
  { apartMade with sched := schedPush true (schedPush true schedInit 0x1000) 0x2000 }

/-- The next tick is to switch, as `sys_execve` sees to. -/
def lastTick (w : FpuWorld) : FpuWorld :=
  { w with sched := schedSetTick w.sched (SWITCH_TICK - 1) }

/-- The first tick has switched to the first task. -/
def firstResumed : FpuWorld :=
  { apartPushed with
    sched := { apartPushed.sched with currentTick := 0, index := 1, currentTask := some 0x1000 }
    prev := some 0x1000 }

/-- The first task was preempted with another image, and the second one runs. -/
def secondResumed : FpuWorld :=
  { savePrev (lastTick firstResumed) (blankStack 32) (plainImage 3) with
    sched := { apartPushed.sched with currentTick := 0, index := 2, currentTask := some 0x2000 }
    prev := some 0x2000 }

/-- The image of the second task, with other bytes in its record. -/
def changedImage : FpuImage := fun i => if i.val < 8 then 4 else 2

theorem apartPushed_slots (i t : Nat) (h : apartPushed.sched.processes.data i = some t) :
    t ∈ apartPushed.tasks := by
  rcases schedPush_slots h with rfl | h
  · exact List.mem_cons_self
  · rcases schedPush_slots h with rfl | h
    · exact .tail _ List.mem_cons_self
    · cases h

theorem secondResumed_run : FpuRun FpuApart (fun _ => 0) (lastTick secondResumed) := by
  have hmade : FpuRun FpuApart (fun _ => 0) apartMade := by
    refine .step (.taskInit 0x2000 (plainImage 2)) (.step (.taskInit 0x1000 (plainImage 1)) .boot
      ⟨fun u hu => (by cases hu), fun u hu => (by cases hu)⟩ rfl)
      ⟨fun u hu => ?_, fun u hu => ?_⟩ rfl
    · obtain rfl : u = 0x1000 := List.mem_singleton.mp hu
      exact .inr (by decide)
    · obtain rfl : u = 0x1000 := List.mem_singleton.mp hu
      exact .inr (by decide)
  have hpushed : FpuRun FpuApart (fun _ => 0) apartPushed :=
    .step (.other _ _) hmade
      ⟨⟨fun _ _ _ _ _ => rfl, apartPushed_slots, fun t ht => by cases ht⟩, fun _ _ _ _ _ => rfl⟩ rfl
  have hfirst : FpuRun FpuApart (fun _ => 0) firstResumed :=
    .step (.timer (blankStack 32) (plainImage 9)) hpushed ⟨trivial, trivial⟩ rfl
  have hsecond : FpuRun FpuApart (fun _ => 0) secondResumed := by
    refine .step (.timer (blankStack 32) (plainImage 3))
      (.step (.other firstResumed.mem (lastTick firstResumed).sched) hfirst
        ⟨⟨fun _ _ _ _ _ => rfl, apartPushed_slots, fun t ht => ?_⟩, fun _ _ _ _ _ => rfl⟩ rfl)
      ⟨trivial, trivial⟩ rfl
    obtain rfl : 0x1000 = t := Option.some.inj ht
    exact .tail _ List.mem_cons_self
  refine .step (.other secondResumed.mem (lastTick secondResumed).sched) hsecond
    ⟨⟨fun _ _ _ _ _ => rfl, apartPushed_slots, fun t ht => ?_⟩, fun _ _ _ _ _ => rfl⟩ rfl
  obtain rfl : 0x2000 = t := Option.some.inj ht
  exact List.mem_cons_self

/-- The first task is resumed with the image it was preempted with, and the second one is
saved inside its record, its first eight bytes having changed. -/
theorem fpu_isolated_two :
    (∃ w, timerFpu (lastTick secondResumed) (blankStack 32) changedImage
        = some (w, plainImage 3) ∧ w.prev = some 0x1000) ∧
      SavesInside (lastTick secondResumed) (.timer (blankStack 32) changedImage) := by
  obtain ⟨hresumes, hsaves⟩ :=
    fpu_isolated secondResumed_run (.timer (blankStack 32) changedImage)
  refine ⟨?_, hsaves.mpr fun p image hp hsaved i hi => ?_⟩
  · obtain ⟨⟨w, loaded⟩, ht, hw⟩ : ∃ r, timerFpu (lastTick secondResumed) (blankStack 32)
        changedImage = some r ∧ r.1.prev = some 0x1000 ∧ r.1.saved 0x1000 = some (plainImage 3) :=
      ⟨_, rfl, rfl, rfl⟩
    have hloaded := hresumes w loaded ht 0x1000 hw.1
    obtain rfl := Option.some.inj (hw.2.symm.trans hloaded)
    exact ⟨w, ht, hw.1⟩
  · obtain rfl : 0x2000 = p := Option.some.inj hp
    obtain rfl : plainImage 2 = image := Option.some.inj hsaved
    exact if_neg (by omega)

end BestOS
