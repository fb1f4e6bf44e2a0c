/-
BestOS/SpinLock.lean

Critical sections behind a spin lock, independent of any particular program.

Threads run sections, each a list of actions.  A thread that wants to enter sets the lock
and looks what it was before; if it was set it tries again, so any number of threads may be
waiting, and nothing is said about who comes first.  Inside, the actions of the section are
taken one at a time, with steps of other threads in between; at the end the lock is cleared.

Whatever the interleaving, the actions are those of whole sections, one section after the
other in the order in which they have entered, up to the one that is going on
(`Reach.serial`); and a thread that has called can always be brought to the end of its
section (`Reach.finishes`).
-/
import Mathlib.Data.List.Basic
import Mathlib.Logic.Function.Basic
import Mathlib.Logic.Relation
import Mathlib.Tactic.Common

namespace SpinLock

variable {τ α : Type*} [DecidableEq τ]

/-- Where a thread is, with the actions it still has to take. -/
inductive Phase (α : Type*)
  | outside
  | waiting (todo : List α)
  | inside (todo : List α)

/-- The lock, the threads, the actions taken, and the sections that have entered. -/
structure World (τ α : Type*) where
  lock : Bool
  phase : τ → Phase α
  done : List α
  entered : List (List α)

/-- A step of one thread; `may t todo` if `todo` is a section of thread `t`. -/
inductive Step (may : τ → List α → Prop) (w : World τ α) : World τ α → Prop
  | call {t todo} (hmay : may t todo) (h : w.phase t = .outside) :
      Step may w { w with phase := Function.update w.phase t (.waiting todo) }
  | spin {t todo} (h : w.phase t = .waiting todo) (hlock : w.lock = true) :
      Step may w { w with lock := true }
  | acquire {t todo} (h : w.phase t = .waiting todo) (hlock : w.lock = false) :
      Step may w { w with
        lock := true
        phase := Function.update w.phase t (.inside todo)
        entered := w.entered ++ [todo] }
  | act {t a todo} (h : w.phase t = .inside (a :: todo)) :
      Step may w { w with
        phase := Function.update w.phase t (.inside todo)
        done := w.done ++ [a] }
  | release {t} (h : w.phase t = .inside []) :
      Step may w { w with
        lock := false
        phase := Function.update w.phase t .outside }

/-- Nobody is inside and the lock is clear. -/
def start : World τ α := ⟨false, fun _ => .outside, [], []⟩

abbrev Steps (may : τ → List α → Prop) : World τ α → World τ α → Prop :=
  Relation.ReflTransGen (Step may)

/-- The states of any interleaving. -/
def Reach (may : τ → List α → Prop) (w : World τ α) : Prop := Steps may start w

/-- The lock is set exactly while a thread is inside, it is one thread, and `done` lacks
what this thread still has to do. -/
inductive Inv (w : World τ α) : Prop
  | free (hlock : w.lock = false) (hout : ∀ t todo, w.phase t ≠ .inside todo)
      (hdone : w.entered.flatten = w.done) : Inv w
  | held (t : τ) (todo : List α) (hlock : w.lock = true) (hin : w.phase t = .inside todo)
      (hout : ∀ u todo', w.phase u = .inside todo' → u = t)
      (hdone : w.entered.flatten = w.done ++ todo) : Inv w

variable {may : τ → List α → Prop} {w w' : World τ α} {t : τ}

/-- **One step.** -/
theorem Step.inv (hstep : Step may w w') (inv : Inv w) : Inv w' := by
  cases hstep with
  | @call t todo hmay h =>
    have hkeep : ∀ u todo', Function.update w.phase t (Phase.waiting todo) u = .inside todo' →
        w.phase u = .inside todo' := by
      intro u todo' hu
      by_cases hut : u = t
      · subst hut
        rw [Function.update_self] at hu
        cases hu
      · rwa [Function.update_of_ne hut] at hu
    cases inv with
    | free hlock hout hdone => exact .free hlock (fun u todo' hu => hout u todo' (hkeep u todo' hu)) hdone
    | held s rest hlock hin hout hdone =>
      have hst : s ≠ t := by
        rintro rfl
        rw [h] at hin
        cases hin
      exact .held s rest hlock ((Function.update_of_ne hst ..).trans hin)
        (fun u todo' hu => hout u todo' (hkeep u todo' hu)) hdone
  | spin h hlock =>
    cases inv with
    | free hfree => exact absurd (hlock.symm.trans hfree) (by decide)
    | held s rest _ hin hout hdone => exact .held s rest rfl hin hout hdone
  | @acquire t todo h hlock =>
    cases inv with
    | free _ hout hdone =>
      refine .held t todo rfl (Function.update_self ..) (fun u todo' hu => ?_) ?_
      · by_contra hut
        exact hout u todo' ((Function.update_of_ne hut ..).symm.trans hu)
      · rw [List.flatten_append, List.flatten_singleton, hdone]
    | held _ _ hheld => exact absurd (hheld.symm.trans hlock) (by decide)
  | @act t a todo h =>
    cases inv with
    | free _ hout => exact absurd h (hout _ _)
    | held s rest hlock hin hout hdone =>
      obtain rfl := hout t _ h
      obtain rfl : a :: todo = rest := Phase.inside.inj (h.symm.trans hin)
      refine .held t todo hlock (Function.update_self ..) (fun u todo' hu => ?_) ?_
      · by_contra hut
        exact hut (hout u todo' ((Function.update_of_ne hut ..).symm.trans hu))
      · rw [hdone, List.append_assoc, List.singleton_append]
  | @release t h =>
    cases inv with
    | free _ hout => exact absurd h (hout _ _)
    | held s rest hlock hin hout hdone =>
      obtain rfl := hout t _ h
      obtain rfl : [] = rest := Phase.inside.inj (h.symm.trans hin)
      refine .free rfl (fun u todo' hu => ?_) (hdone.trans (List.append_nil _))
      by_cases hut : u = t
      · subst hut
        have hnow : Function.update w.phase u .outside u = .inside todo' := hu
        rw [Function.update_self] at hnow
        cases hnow
      · exact hut (hout u todo' ((Function.update_of_ne hut ..).symm.trans hu))

/-- **Every interleaving.** -/
theorem Reach.inv (hw : Reach may w) : Inv w := by
  induction hw with
  | refl => exact .free rfl (fun _ _ h => by cases h) rfl
  | tail _ hstep ih => exact hstep.inv ih

/-- **Sections come one after the other.**  What has been done is the beginning of the
sections in the order in which they have entered, all of it when the lock is clear; and two
threads are never inside. -/
theorem Reach.serial (hw : Reach may w) :
    w.done <+: w.entered.flatten ∧ (w.lock = false → w.done = w.entered.flatten) ∧
      ∀ t u todo todo', w.phase t = .inside todo → w.phase u = .inside todo' → t = u := by
  cases hw.inv with
  | free hlock hout hdone =>
    exact ⟨hdone ▸ List.prefix_rfl, fun _ => hdone.symm, fun t _ todo _ ht => absurd ht (hout t todo)⟩
  | held s rest hlock hin hout hdone =>
    exact ⟨hdone ▸ List.prefix_append _ _, fun h => absurd (hlock.symm.trans h) (by decide),
      fun t u todo todo' ht hu => (hout t todo ht).trans (hout u todo' hu).symm⟩

/-- A thread inside gets to the end by its own steps. -/
theorem finishes_inside {todo : List α} (h : w.phase t = .inside todo) :
    Steps may w { w with
      lock := false
      phase := Function.update w.phase t .outside
      done := w.done ++ todo } := by
  induction todo generalizing w with
  | nil =>
    rw [List.append_nil]
    exact .single (.release h)
  | cons a todo ih =>
    have hrest := ih (w := { w with
      phase := Function.update w.phase t (.inside todo)
      done := w.done ++ [a] }) (Function.update_self ..)
    simp only [Function.update_idem, List.append_assoc, List.singleton_append] at hrest
    exact .head (.act h) hrest

/-- **Nobody waits in vain.**  From every state that can be reached, a thread that is
waiting can still enter, take all its actions, and leave. -/
theorem Reach.finishes (hw : Reach may w) {todo : List α} (h : w.phase t = .waiting todo) :
    ∃ w', Steps may w w' ∧ w'.phase t = .outside ∧ w'.entered = w.entered ++ [todo] ∧
      w'.done = w.entered.flatten ++ todo := by
  -- from a clear lock
  have hclear : ∀ {v : World τ α}, v.phase t = .waiting todo → v.lock = false →
      v.done = w.entered.flatten → v.entered = w.entered →
      ∃ w', Steps may v w' ∧ w'.phase t = .outside ∧ w'.entered = w.entered ++ [todo] ∧
        w'.done = w.entered.flatten ++ todo := by
    intro v hv hlock hdone hentered
    have hin : ({ v with
      lock := true
      phase := Function.update v.phase t (.inside todo)
      entered := v.entered ++ [todo] } : World τ α).phase t = .inside todo := Function.update_self ..
    have hend : Steps may _ _ := finishes_inside hin
    refine ⟨_, .head (.acquire hv hlock) hend, Function.update_self .., ?_, ?_⟩
    · rw [hentered]
    · rw [hdone]
  cases hw.inv with
  | free hlock hout hdone => exact hclear h hlock hdone.symm rfl
  | held s rest hlock hin hout hdone =>
    -- the one inside leaves first
    have hst : t ≠ s := by
      rintro rfl
      rw [h] at hin
      cases hin
    obtain ⟨w', hsteps, hw'⟩ := hclear (v := { w with
      lock := false
      phase := Function.update w.phase s .outside
      done := w.done ++ rest }) ((Function.update_of_ne hst ..).trans h) rfl hdone.symm rfl
    exact ⟨w', (finishes_inside hin).trans hsteps, hw'⟩

end SpinLock
