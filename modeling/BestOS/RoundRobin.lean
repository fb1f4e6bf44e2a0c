/-
BestOS/RoundRobin.lean

Whose turn it is.

`sched_tick` switches at every `SWITCH_TICK`-th call and takes the processes in the
order of the vector.  While nothing is pushed or removed the task after any number of
ticks is given by a formula, and in every window of `n * SWITCH_TICK` ticks each of
the `n` tasks has its `SWITCH_TICK` (`round_robin`).

`sched_remove` takes a task out of the vector and leaves the index where it is.  What
stood behind the task moves down by one, so the entry that was next is passed over if
the task stood before it (`removal_keeps_turn_iff`).
-/
import BestOS.Interrupts
import BestOS.Rotation

namespace BestOS

variable {τ : Type}

/-- `n` calls of `sched_tick`. -/
def schedTicks (s : Sched τ) : Nat → Option (Sched τ)
  | 0 => some s
  | n + 1 => (schedTicks s n).bind schedTick

/-- The current task after `n` more ticks. -/
def currentAfter (s : Sched τ) (n : Nat) : Option τ := (schedTicks s n).bind Sched.currentTask

/-! ### A fixed vector -/

/-- Just after a switch: the slice is full, and the index is behind the task that
runs. -/
structure JustSwitched (s : Sched τ) (p : List τ) : Prop where
  holds : s.processes.Holds p
  length_lt : p.length < 2 ^ 31
  tick : s.currentTick = 0
  index_pos : 1 ≤ s.index
  index_le : s.index ≤ p.length
  current : s.currentTask = p[s.index - 1]?

/-- `m` ticks after a switch to place `a`: `m % SWITCH_TICK` of the slice are over,
and the places have moved on by the slices that are over. -/
structure TickInv (p : List τ) (a m : Nat) (s : Sched τ) : Prop where
  holds : s.processes.Holds p
  tick : s.currentTick = m % SWITCH_TICK
  index : s.index = (a + m / SWITCH_TICK) % p.length + 1
  current : s.currentTask = p[(a + m / SWITCH_TICK) % p.length]?

/-- The place after a switch. -/
theorem TickInv.switchIndex {p : List τ} {a m : Nat} {s : Sched τ} (inv : TickInv p a m s)
    (hne : 0 < p.length) (hlt : p.length < 2 ^ 31) :
    switchIndex s = (a + m / SWITCH_TICK + 1) % p.length := by
  have hplace := Nat.mod_lt (a + m / SWITCH_TICK) hne
  unfold BestOS.switchIndex
  have hnext : (a + m / SWITCH_TICK + 1) % p.length
      = ((a + m / SWITCH_TICK) % p.length + 1) % p.length := (Nat.mod_add_mod _ _ _).symm
  rw [inv.holds.length, inv.index, toInt_of_lt (by omega), hnext]
  generalize (a + m / SWITCH_TICK) % p.length = place at hplace
  -- the index wraps exactly where the place does
  by_cases hwrap : place + 1 = p.length
  · rw [if_pos (by exact_mod_cast hwrap), hwrap, Nat.mod_self]
  · rw [if_neg (by exact_mod_cast hwrap), Nat.mod_eq_of_lt (by omega)]

theorem TickInv.step {p : List τ} {a m : Nat} {s : Sched τ} (inv : TickInv p a m s)
    (hne : 0 < p.length) (hlt : p.length < 2 ^ 31) :
    ∃ s', schedTick s = some s' ∧ TickInv p a (m + 1) s' := by
  have hlen := inv.holds.length
  have htick := inv.tick
  unfold schedTick
  rw [if_neg (by omega)]
  have hplace := Nat.mod_lt (a + m / SWITCH_TICK + 1) hne
  by_cases hdue : s.currentTick + 1 ≥ SWITCH_TICK
  · have hslice : (m + 1) / SWITCH_TICK = m / SWITCH_TICK + 1 := by
      simp only [SWITCH_TICK] at htick hdue ⊢
      omega
    rw [if_pos hdue, inv.switchIndex hne hlt]
    refine ⟨_, rfl, inv.holds, ?_, ?_, ?_⟩
    · show 0 = (m + 1) % SWITCH_TICK
      simp only [SWITCH_TICK] at htick hdue ⊢
      omega
    · show ((a + m / SWITCH_TICK + 1) % p.length + 1) % 2 ^ 64 = _
      rw [hslice, Nat.mod_eq_of_lt (by omega), ← Nat.add_assoc]
    · show s.processes.data _ = _
      rw [hslice, ← Nat.add_assoc, inv.holds.data _ hplace]
  · have hslice : (m + 1) / SWITCH_TICK = m / SWITCH_TICK := by
      simp only [SWITCH_TICK] at htick hdue ⊢
      omega
    rw [if_neg hdue]
    refine ⟨_, rfl, inv.holds, ?_, ?_, ?_⟩
    · show s.currentTick + 1 = _
      simp only [SWITCH_TICK] at htick hdue ⊢
      omega
    · rw [hslice]
      exact inv.index
    · rw [hslice]
      exact inv.current

theorem JustSwitched.ticks {s : Sched τ} {p : List τ} (h : JustSwitched s p) (m : Nat) :
    ∃ s', schedTicks s m = some s' ∧ TickInv p (s.index - 1) m s' := by
  have hpos := h.index_pos
  have hle := h.index_le
  induction m with
  | zero =>
    have hplace : (s.index - 1 + 0 / SWITCH_TICK) % p.length = s.index - 1 := by
      rw [Nat.zero_div, Nat.add_zero, Nat.mod_eq_of_lt (by omega)]
    refine ⟨s, rfl, h.holds, h.tick, ?_, ?_⟩
    · rw [hplace]
      omega
    · rw [hplace]
      exact h.current
  | succ m ih =>
    obtain ⟨s₁, hs₁, inv⟩ := ih
    obtain ⟨s₂, hs₂, inv'⟩ := inv.step (by omega) h.length_lt
    refine ⟨s₂, ?_, inv'⟩
    rw [schedTicks, hs₁, Option.bind_some, hs₂]

variable [DecidableEq τ]

/-- **Round robin.**  With a fixed vector `p`, from just after a switch: after `m` ticks
the task at place `index - 1 + m / SWITCH_TICK`, counted round the vector, is current;
and in any window of `n * SWITCH_TICK` ticks each task is current `SWITCH_TICK` times
for each of its entries, so exactly `SWITCH_TICK` times if it has one. -/
theorem round_robin {s : Sched τ} {p : List τ} (h : JustSwitched s p) :
    (∀ m, ∃ s', schedTicks s m = some s' ∧
      s'.currentTask = p[(s.index - 1 + m / SWITCH_TICK) % p.length]?) ∧
    ∀ m t, ((Finset.range (p.length * SWITCH_TICK)).filter fun i =>
      currentAfter s (m + i) = some t).card = SWITCH_TICK * p.count t := by
  refine ⟨fun m => ?_, fun m t => ?_⟩
  · obtain ⟨s', hs', inv⟩ := h.ticks m
    exact ⟨s', hs', inv.current⟩
  · have hcurrent : ∀ i, currentAfter s i = p[(s.index - 1 + i / SWITCH_TICK) % p.length]? := by
      intro i
      obtain ⟨s', hs', inv⟩ := h.ticks i
      rw [currentAfter, hs', Option.bind_some, inv.current]
    simp only [hcurrent]
    exact Rotation.card_turns p t (s.index - 1) m (by decide)

/-- Two tasks, and the first one has just been switched to. -/
theorem round_robin_twoTasks :
    ∃ s : Sched Nat, JustSwitched s [0, 1] ∧ currentAfter s 25 = some 0 ∧
      ((Finset.range 20).filter fun i => currentAfter s (7 + i) = some 1).card = 10 := by
  have hholds : (vecPush true (vecPush true vecInit 0) 1).Holds [0, 1] :=
    ⟨rfl, fun i hi => by
      match i, hi with
      | 0, _ => rfl
      | 1, _ => rfl⟩
  have h : JustSwitched ⟨vecPush true (vecPush true vecInit 0) 1, 2, 0, 1, some 0⟩ [0, 1] :=
    ⟨hholds, by decide, rfl, by decide, by decide, rfl⟩
  obtain ⟨hlaw, hturns⟩ := round_robin h
  obtain ⟨s', hs', hcurrent⟩ := hlaw 25
  refine ⟨_, h, ?_, hturns 7 1⟩
  rw [currentAfter, hs']
  exact hcurrent

/-! ### A removal -/

/-- Every task that is pushed is a new one, as in `sched_new_elf_process`. -/
def PushesNew (s : Sched τ) : SchedOp τ → Prop
  | .push _ t => ∀ i < s.processes.length, s.processes.data i ≠ some t
  | _ => True

/-- The vector always holds different tasks. -/
theorem SchedRun.nodup {s : Sched τ} (h : SchedRun PushesNew s) :
    ∃ p, s.processes.Holds p ∧ p.Nodup := by
  induction h with
  | init => exact ⟨[], vecInit_holds, .nil⟩
  | step op _ hok hs ih =>
    obtain ⟨p, hp, hnodup⟩ := ih
    cases op with
    | taskInit =>
      cases hs
      exact ⟨p, hp, hnodup⟩
    | push grant t =>
      cases hs
      rcases hp.push grant t with happ | ⟨-, hsame⟩
      · refine ⟨p ++ [t], happ, List.nodup_append.mpr ⟨hnodup, List.nodup_singleton t, ?_⟩⟩
        rintro u hu v hv rfl
        obtain rfl := List.mem_singleton.mp hv
        obtain ⟨i, hi, hiu⟩ := List.mem_iff_getElem.mp hu
        refine hok i (by rw [hp.length]; exact hi) ?_
        rw [hp.data i hi, List.getElem?_eq_getElem hi, hiu]
      · exact ⟨p, hsame, hnodup⟩
    | remove t =>
      cases hs
      exact ⟨p.erase t, hp.remove t, hnodup.erase t⟩
    | tick =>
      exact ⟨p, (schedTick_cases hs).1 ▸ hp, hnodup⟩
    | execve =>
      cases hs
      exact ⟨p, hp, hnodup⟩

/-- The ticks up to and including the next switch. -/
def ticksToSwitch (s : Sched τ) : Nat := max 1 (SWITCH_TICK - s.currentTick)

omit [DecidableEq τ] in
/-- Ticks before the switch only count. -/
theorem schedTicks_waiting {s : Sched τ} (hne : s.processes.length ≠ 0) {n : Nat}
    (hn : s.currentTick + n < SWITCH_TICK) :
    schedTicks s n = some { s with currentTick := s.currentTick + n } := by
  induction n with
  | zero => rfl
  | succ n ih =>
    rw [schedTicks, ih (by omega), Option.bind_some, schedTick, if_neg hne]
    exact if_neg (by show ¬ s.currentTick + n + 1 ≥ SWITCH_TICK; omega)

omit [DecidableEq τ] in
/-- The task that the next switch takes is the one in the slot at `switchIndex`. -/
theorem currentAfter_switch {s : Sched τ} (hne : s.processes.length ≠ 0) :
    currentAfter s (ticksToSwitch s) = s.processes.data (switchIndex s) := by
  obtain ⟨n, hn, hticks⟩ : ∃ n, ticksToSwitch s = n + 1 ∧
      schedTicks s n = some { s with currentTick := s.currentTick + n } ∧
      SWITCH_TICK ≤ s.currentTick + n + 1 := by
    by_cases hdue : SWITCH_TICK ≤ s.currentTick + 1
    · exact ⟨0, by unfold ticksToSwitch; omega, rfl, hdue⟩
    · refine ⟨SWITCH_TICK - s.currentTick - 1, by unfold ticksToSwitch; omega, ?_, by omega⟩
      exact schedTicks_waiting hne (by omega)
  rw [currentAfter, hn, schedTicks, hticks.1, Option.bind_some, schedTick, if_neg hne,
    if_pos hticks.2]
  rfl

/-- After `t` was removed the next switch takes the first task that is not `t`, in
cyclic order from the place of the index on. -/
def TurnKept (s : Sched τ) (p : List τ) (t : τ) : Prop :=
  currentAfter (schedRemove s t) (ticksToSwitch (schedRemove s t))
    = (p.rotate s.index).find? fun x => decide (x ≠ t)

/-- The condition: the task stands at the index or behind it; or there are two tasks and
the index is at the second; or the index is at the end of the vector and the slot there,
which no task was pushed to, happens to hold the task that is next. -/
def RemovalOk (s : Sched τ) (p : List τ) (t : τ) : Prop :=
  s.index ≤ p.idxOf t ∨ (p.length = 2 ∧ s.index = 1) ∨
    (s.index = p.length ∧ s.processes.data p.length = p.find? fun x => decide (x ≠ t))

/-- What the switch after a removal takes: the entry that has moved to the index, or the
first one if the index is at the new end, or what stands in the slot behind the old
end. -/
theorem currentAfter_removal {s : Sched τ} {p : List τ} (hp : s.processes.Holds p)
    (hlt : p.length < 2 ^ 31) (hindex : s.index ≤ p.length) {t : τ} (ht : t ∈ p)
    (hlen : 2 ≤ p.length) :
    currentAfter (schedRemove s t) (ticksToSwitch (schedRemove s t)) =
      if s.index + 1 < p.length then (p.eraseIdx (p.idxOf t))[s.index]?
      else if s.index + 1 = p.length then (p.eraseIdx (p.idxOf t))[0]?
      else s.processes.data p.length := by
  have hrem : (schedRemove s t).processes.Holds (p.eraseIdx (p.idxOf t)) := by
    rw [← List.erase_eq_eraseIdx_of_idxOf rfl]
    exact hp.remove t
  have hlength : (p.eraseIdx (p.idxOf t)).length = p.length - 1 :=
    List.length_eraseIdx_of_lt (List.idxOf_lt_length_of_mem ht)
  have hnew := hrem.length
  rw [currentAfter_switch (by omega), switchIndex, show (schedRemove s t).index = s.index from rfl,
    toInt_of_lt (by omega), hnew, hlength]
  by_cases hbelow : s.index + 1 < p.length
  · rw [if_neg (by omega), if_pos hbelow, hrem.data _ (by omega)]
  · rw [if_neg hbelow]
    by_cases hend : s.index + 1 = p.length
    · rw [if_pos (by omega), if_pos hend, hrem.data _ (by omega)]
    · -- the slot behind the vector keeps what it held
      rw [if_neg (by omega), if_neg hend, show s.index = p.length by omega]
      have hold := hp.length
      show (vecRemove s.processes t).data p.length = _
      unfold vecRemove
      split
      · rfl
      · exact if_neg (by omega)

/-- **The next turn after a removal.**  In a vector of different tasks, the switch after
the removal of one of them takes the task that was next exactly when `RemovalOk`. -/
theorem removal_keeps_turn_iff {s : Sched τ} {p : List τ} (hp : s.processes.Holds p)
    (hnodup : p.Nodup) (hlt : p.length < 2 ^ 31) (hindex : s.index ≤ p.length) {t : τ}
    (ht : t ∈ p) (hother : ∃ u ∈ p, u ≠ t) : TurnKept s p t ↔ RemovalOk s p t := by
  have hk := List.idxOf_lt_length_of_mem ht
  have hkt : p[p.idxOf t]? = some t := by
    rw [List.getElem?_eq_getElem hk, List.getElem_idxOf]
  have hlen : 2 ≤ p.length := by
    obtain ⟨u, hu, hne⟩ := hother
    obtain ⟨i, hi, rfl⟩ := List.mem_iff_getElem.mp hu
    by_contra hshort
    have hsame : i = p.idxOf t := by omega
    subst hsame
    exact hne (List.getElem_idxOf hk)
  -- an entry stands at one place only
  have hinj : ∀ {i j : Nat}, i < p.length → (p[i]? = p[j]? ↔ i = j) := fun hi =>
    List.getElem?_inj hi hnodup
  unfold TurnKept RemovalOk
  rw [currentAfter_removal hp hlt hindex ht hlen]
  by_cases hend : s.index = p.length
  · rw [if_neg (by omega), if_neg (by omega), hend, List.rotate_length]
    constructor
    · exact fun h => .inr (.inr ⟨rfl, h⟩)
    · rintro (h | ⟨h2, h1⟩ | ⟨-, h⟩)
      · omega
      · omega
      · exact h
  · have hi : s.index < p.length := by omega
    rw [Rotation.find?_rotate_ne hnodup hlen hi, ← hkt]
    simp only [hinj hi, List.getElem?_eraseIdx]
    rcases Nat.lt_trichotomy s.index (p.idxOf t) with hbefore | hat | hbehind
    -- the tail that moves down is behind the index
    · rw [if_pos (by omega), if_pos hbefore, if_neg (by omega)]
      exact iff_of_true rfl (.inl hbefore.le)
    -- the task itself was next: the one behind it moves up, or the first one is next
    · rw [if_pos hat]
      refine iff_of_true ?_ (.inl hat.le)
      by_cases hlast : s.index + 1 < p.length
      · rw [if_pos hlast, if_neg (by omega), Nat.mod_eq_of_lt hlast]
      · have hwrap : s.index + 1 = p.length := by omega
        rw [if_neg hlast, if_pos hwrap, if_pos (by omega), hwrap, Nat.mod_self]
    -- the entry at the index moves down and is passed over
    · rw [if_neg (show ¬ s.index < p.idxOf t by omega), if_neg (show ¬ s.index = p.idxOf t by omega)]
      by_cases hlast : s.index + 1 < p.length
      · rw [if_pos hlast, hinj hlast]
        refine iff_of_false (by omega) ?_
        rintro (h | ⟨h2, h1⟩ | ⟨h, -⟩) <;> omega
      · rw [if_neg hlast, if_pos (by omega)]
        by_cases hfirst : p.idxOf t = 0
        · rw [if_neg (by omega), hinj (by omega)]
          constructor
          · exact fun h => .inr (.inl (by omega))
          · rintro (h | ⟨h2, h1⟩ | ⟨h, -⟩) <;> omega
        · rw [if_pos (by omega), hinj (by omega)]
          refine iff_of_false (by omega) ?_
          rintro (h | ⟨h2, h1⟩ | ⟨h, -⟩) <;> omega

/-- Three tasks are made and pushed; the first has its slice, and the second is
switched to. -/
def secondRuns : List (SchedOp Nat) :=
  [.taskInit, .push true 0, .taskInit, .push true 1, .taskInit, .push true 2] ++
    List.replicate 11 .tick

/-- The state after `secondRuns`. -/
def secondRunning : Sched Nat := (secondRuns.foldlM schedStep schedInit).getD schedInit

theorem secondRunning_run : SchedRun (fun _ _ => True) secondRunning :=
  SchedRun.foldlM (fun _ _ => trivial) .init secondRuns rfl

theorem secondRunning_holds : secondRunning.processes.Holds [0, 1, 2] :=
  ⟨rfl, fun i hi => by
    match i, hi with
    | 0, _ => rfl
    | 1, _ => rfl
    | 2, _ => rfl⟩

/-- The third task is removed while the second one runs: the first is next. -/
theorem removal_keeps_turn_third :
    TurnKept secondRunning [0, 1, 2] 2 ∧
      currentAfter (schedRemove secondRunning 2) (ticksToSwitch (schedRemove secondRunning 2))
        = some 0 :=
  ⟨(removal_keeps_turn_iff secondRunning_holds (by decide) (by decide) (by decide) (by decide)
    ⟨0, by decide, by decide⟩).mpr (.inl (by decide)), by decide⟩

/-- **The exit of the running task costs the next one its turn.**  The second of three
tasks exits while the index is at the third, and the first is switched to. -/
theorem exit_skips_next :
    ¬ ∀ (s : Sched Nat) (p : List Nat) (t : Nat), SchedRun (fun _ _ => True) s →
      s.processes.Holds p → p.Nodup → s.currentTask = some t → s.index ≤ p.length → t ∈ p →
      (∃ u ∈ p, u ≠ t) → TurnKept s p t := by
  intro hclaim
  have hkept := hclaim secondRunning [0, 1, 2] 1 secondRunning_run secondRunning_holds (by decide)
    rfl (by decide) (by decide) ⟨0, by decide, by decide⟩
  exact absurd hkept (by unfold TurnKept; decide)

end BestOS
