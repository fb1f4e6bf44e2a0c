/-
BestOS/AccessLog.lean

Computations with a record of the accesses they make, independent of any
particular program.

`Traced ι α` is a computation that made the accesses `log`, in order, and then
returned a value of type `α` or faulted.  What comes after a fault is not
reached and makes no access, so the record of a sequence is the record of its
first part followed, if that returns, by the record of the second.

`Within P x` says that every access of `x` meets `P`, and `seen p x` is the part of
the record that `p` picks out; `within_bind` and `seen_bind` are the rules for
sequences.
-/
import Mathlib.Data.List.Basic

universe u v w

namespace AccessLog

/-- The accesses made, and the value returned; `none` is a fault. -/
structure Traced (ι : Type u) (α : Type v) where
  log : List ι
  result : Option α

variable {ι : Type u} {α β : Type v}

/-- One access. -/
def access (i : ι) : Traced ι Unit := ⟨[i], some ()⟩

/-- A part of the computation that makes none. -/
def silent (r : Option α) : Traced ι α := ⟨[], r⟩

/-- One computation after another. -/
protected def Traced.bind (x : Traced ι α) (f : α → Traced ι β) : Traced ι β :=
  match x.result with
  | none => ⟨x.log, none⟩
  | some a => ⟨x.log ++ (f a).log, (f a).result⟩

instance : Monad (Traced ι) where
  pure a := ⟨[], some a⟩
  bind := Traced.bind

/-! ### The value -/

@[simp] theorem result_pure (a : α) : (pure a : Traced ι α).result = some a := rfl

@[simp] theorem result_access (i : ι) : (access i).result = some () := rfl

@[simp] theorem result_silent (r : Option α) : (silent r : Traced ι α).result = r := rfl

@[simp] theorem result_bind (x : Traced ι α) (f : α → Traced ι β) :
    (x >>= f).result = x.result.bind fun a => (f a).result := by
  show (Traced.bind x f).result = _
  unfold Traced.bind
  cases x.result <;> rfl

/-! ### The accesses -/

/-- Every access meets `P`. -/
def Within (P : ι → Prop) (x : Traced ι α) : Prop := ∀ i ∈ x.log, P i

@[simp] theorem within_pure {P : ι → Prop} (a : α) : Within P (pure a : Traced ι α) ↔ True :=
  iff_true_intro fun _ hi => absurd hi List.not_mem_nil

@[simp] theorem within_access {P : ι → Prop} (i : ι) : Within P (access i) ↔ P i :=
  List.forall_mem_singleton

@[simp] theorem within_silent {P : ι → Prop} (r : Option α) :
    Within P (silent r : Traced ι α) ↔ True :=
  iff_true_intro fun _ hi => absurd hi List.not_mem_nil

/-- **Sequences.**  The second part counts if the first returns. -/
@[simp] theorem within_bind {P : ι → Prop} {x : Traced ι α} {f : α → Traced ι β} :
    Within P (x >>= f) ↔ Within P x ∧ ∀ a, x.result = some a → Within P (f a) := by
  show Within P (Traced.bind x f) ↔ _
  unfold Traced.bind
  cases hx : x.result with
  | none => simp [Within]
  | some a => simp [Within, or_imp, forall_and]

theorem within_access_bind {γ : Type} {P : ι → Prop} (i : ι) (f : Unit → Traced ι γ) :
    Within P (access i >>= f) ↔ P i ∧ Within P (f ()) := by
  rw [within_bind, within_access, result_access]
  exact and_congr_right fun _ => ⟨fun h => h () rfl, fun h _ _ => h⟩

/-- What `p` picks out of the record. -/
def seen {κ : Type w} (p : ι → Option κ) (x : Traced ι α) : List κ := x.log.filterMap p

section

variable {κ : Type w} (p : ι → Option κ)

@[simp] theorem seen_pure (a : α) : seen p (pure a : Traced ι α) = [] := rfl

@[simp] theorem seen_access (i : ι) : seen p (access i) = (p i).toList := by
  show [i].filterMap p = _
  cases h : p i <;> simp [h]

@[simp] theorem seen_silent (r : Option α) : seen p (silent r : Traced ι α) = [] := rfl

@[simp] theorem seen_bind (x : Traced ι α) (f : α → Traced ι β) :
    seen p (x >>= f) = seen p x ++ x.result.elim [] fun a => seen p (f a) := by
  show seen p (Traced.bind x f) = _
  unfold Traced.bind
  cases hx : x.result with
  | none => exact (List.append_nil _).symm
  | some a => exact List.filterMap_append

end

end AccessLog
