/-
BestOS/TtyRead.lean

How much does a read from the terminal store?

`devfs_read` allocates `count` bytes and then stores every character that comes
in, up to a carriage return; `count` is not looked at again.  Behind the line it
stores one byte more, and then the whole line goes to the caller.  So a line has
room only if it is at least one byte shorter than the buffer, and a line that
never ends is stored for ever (`lineFits_stream`).

`devfsReadTraced` is `devfsRead` with the stores it makes into its own buffer and
into the caller's.  A list of characters is what has been typed so far: where it
ends without a carriage return, the call waits in `com_getc`.
-/
import Mathlib.Data.List.TakeWhile
import BestOS.AccessLog
import BestOS.FileEffects
import BestOS.Dispatch

namespace BestOS

open AccessLog ByteMemory

/-! ### The stores -/

/-- A byte stored into the buffer that `devfs_read` allocates, or into the
caller's, by its offset there. -/
inductive TtyStore
  | tmp (i : Nat)
  | buffer (i : Nat)

def TtyStore.offset : TtyStore → Nat
  | .tmp i => i
  | .buffer i => i

/-- The loop of `devfs_read`. -/
def ttyLoopTraced (tmp : Nat) (mem : Mem) (i : Nat) :
    List (BitVec 8) → Traced TtyStore (Mem × Nat × List (BitVec 8))
  | [] => silent none
  | c :: input => do
    access (.tmp i)
    let mem := put mem (tmp + i) c
    if c = 13 then pure (mem, i + 1, input) else ttyLoopTraced tmp mem (i + 1) input

/-- `memcpy(buffer, buf, i)`. -/
def copyTraced (mem : Mem) (buffer tmp : Nat) : Nat → Traced TtyStore Mem
  | 0 => pure mem
  | i + 1 => do
    let mem ← copyTraced mem buffer tmp i
    access (.buffer i)
    pure (put mem (buffer + i) (mem (tmp + i)))

/-- `devfs_read`. -/
def devfsReadTraced (tmp : Nat) (s : SysState) (n buffer : Nat) : Traced TtyStore (Int × SysState) :=
  if strEq (s.vfs.nodes n).name ['t', 't', 'y'] then do
    let (mem, i, input) ← ttyLoopTraced tmp s.mem 0 s.input
    -- `buf[i] = -1`, behind the line
    access (.tmp i)
    let mem ← copyTraced (put mem (tmp + i) 0xFF) buffer tmp i
    pure (toInt i, { s with
      mem := mem
      input := input
      freed := tmp :: s.freed })
  else
    pure (-1, s)

theorem ttyLoopTraced_result (tmp : Nat) (mem : Mem) (i : Nat) (input : List (BitVec 8)) :
    (ttyLoopTraced tmp mem i input).result = ttyLoop tmp mem i input := by
  induction input generalizing mem i with
  | nil => rfl
  | cons c input ih =>
    rw [ttyLoopTraced, ttyLoop, result_bind, result_access, Option.bind_some]
    dsimp only
    split
    · rfl
    · exact ih _ _

@[simp] theorem copyTraced_result (mem : Mem) (buffer tmp i : Nat) :
    (copyTraced mem buffer tmp i).result = some (memcpy mem buffer tmp i) := by
  induction i with
  | zero => rfl
  | succ i ih => simp [copyTraced, ih, memcpy]

theorem devfsReadTraced_result (tmp : Nat) (s : SysState) (n buffer : Nat) :
    (devfsReadTraced tmp s n buffer).result = devfsRead tmp s n buffer := by
  unfold devfsReadTraced devfsRead
  split
  · rw [result_bind, ttyLoopTraced_result]
    cases ttyLoop tmp s.mem 0 s.input with
    | none => rfl
    | some r => simp
  · rfl

/-! ### The length of a line -/

/-- How many characters stand before the first carriage return. -/
def beforeReturn (input : List (BitVec 8)) : Nat := (input.takeWhile (· ≠ 13)).length

theorem beforeReturn_return (input : List (BitVec 8)) : beforeReturn (13 :: input) = 0 := by
  simp [beforeReturn]

theorem beforeReturn_cons {c : BitVec 8} (hc : c ≠ 13) (input : List (BitVec 8)) :
    beforeReturn (c :: input) = beforeReturn input + 1 := by
  rw [beforeReturn, List.takeWhile_cons_of_pos (by simpa using hc), List.length_cons, beforeReturn]

theorem beforeReturn_of_not_mem {input : List (BitVec 8)} (h : 13 ∉ input) :
    beforeReturn input = input.length := by
  rw [beforeReturn, List.takeWhile_eq_self_iff.mpr]
  intro c hc
  have : c ≠ 13 := fun heq => h (heq ▸ hc)
  simpa using this

theorem return_mem_cons {c : BitVec 8} (hc : c ≠ 13) (input : List (BitVec 8)) :
    13 ∈ c :: input ↔ 13 ∈ input :=
  List.mem_cons.trans (or_iff_right (Ne.symm hc))

/-- The loop stores the line and its carriage return, one after the other. -/
theorem ttyLoopTraced_within {P : TtyStore → Prop} (tmp : Nat) (mem : Mem) (i : Nat)
    (input : List (BitVec 8)) :
    Within P (ttyLoopTraced tmp mem i input) ↔
      ∀ k < beforeReturn input + (if 13 ∈ input then 1 else 0), P (.tmp (i + k)) := by
  induction input generalizing mem i with
  | nil => simp [ttyLoopTraced, beforeReturn]
  | cons c input ih =>
    rw [ttyLoopTraced, within_access_bind]
    dsimp only
    by_cases hc : c = 13
    · subst hc
      rw [if_pos rfl, within_pure, beforeReturn_return, if_pos List.mem_cons_self]
      simp
    · rw [if_neg hc, ih, beforeReturn_cons hc]
      simp only [return_mem_cons hc]
      constructor
      · rintro ⟨hfirst, hrest⟩ k hk
        cases k with
        | zero => exact hfirst
        | succ k =>
          rw [show i + (k + 1) = i + 1 + k by omega]
          exact hrest k (by omega)
      · intro hall
        refine ⟨hall 0 (by omega), fun k hk => ?_⟩
        rw [show i + 1 + k = i + (k + 1) by omega]
        exact hall (k + 1) (by omega)

theorem copyTraced_within {P : TtyStore → Prop} (mem : Mem) (buffer tmp i : Nat) :
    Within P (copyTraced mem buffer tmp i) ↔ ∀ k < i, P (.buffer k) := by
  induction i with
  | zero => simp [copyTraced]
  | succ i ih =>
    rw [copyTraced, within_bind, ih, copyTraced_result, Nat.forall_lt_succ_right]
    simp

/-- A line comes to an end where there is a carriage return. -/
theorem ttyLoop_isSome (tmp : Nat) (mem : Mem) (i : Nat) (input : List (BitVec 8)) :
    (ttyLoop tmp mem i input).isSome ↔ 13 ∈ input := by
  induction input generalizing mem i with
  | nil => simp [ttyLoop]
  | cons c input ih =>
    rw [ttyLoop]
    by_cases hc : c = 13
    · subst hc
      exact iff_of_true rfl List.mem_cons_self
    · rw [if_neg hc, ih, return_mem_cons hc]

/-! ### Bounded reads -/

/-- At most `count` bytes go into each of the two buffers, and the value returned
is at most `count`. -/
structure TtyBounded (count : Nat) (x : Traced TtyStore (Int × SysState)) : Prop where
  stores : Within (fun a => a.offset < count) x
  value : ∀ r, x.result = some r → r.1 ≤ count

/-- The line fits, with its carriage return and the byte behind it; as long as no
carriage return was typed, what was typed fits. -/
def LineFits (count : Nat) (input : List (BitVec 8)) : Prop :=
  beforeReturn input + (if 13 ∈ input then 2 else 0) ≤ count

instance (count : Nat) (input : List (BitVec 8)) : Decidable (LineFits count input) :=
  inferInstanceAs (Decidable (_ ≤ _))

/-- The stores of a read: the line with its carriage return and, once there is one,
the byte behind it and the copy. -/
theorem devfsReadTraced_within {P : TtyStore → Prop} (tmp : Nat) {s : SysState} {n : Nat}
    (buffer : Nat) (hname : (s.vfs.nodes n).name = ['t', 't', 'y']) :
    Within P (devfsReadTraced tmp s n buffer) ↔
      (∀ k < beforeReturn s.input + (if 13 ∈ s.input then 2 else 0), P (.tmp k)) ∧
        (13 ∈ s.input → ∀ k < beforeReturn s.input + 1, P (.buffer k)) := by
  have htty : strEq (s.vfs.nodes n).name ['t', 't', 'y'] = true := (strEq_iff _ _).mpr hname
  rw [devfsReadTraced, if_pos htty, within_bind, ttyLoopTraced_within, ttyLoopTraced_result]
  by_cases hret : 13 ∈ s.input
  · obtain ⟨⟨mem, i, rest⟩, hr⟩ := Option.isSome_iff_exists.mp ((ttyLoop_isSome _ _ _ _).mpr hret)
    have hi : i = beforeReturn s.input + 1 := by
      rw [ttyLoop_length hr, Nat.zero_add, beforeReturn]
    rw [hr, if_pos hret, if_pos hret]
    simp only [Option.some.injEq, forall_eq', within_access_bind]
    rw [within_bind, copyTraced_within, hi]
    simp only [Nat.zero_add, within_pure, implies_true, and_true, hret, forall_true_left]
    rw [← and_assoc, ← Nat.forall_lt_succ_right (p := fun k => P (.tmp k))]
  · have hnone : ttyLoop tmp s.mem 0 s.input = none :=
      Option.not_isSome_iff_eq_none.mp fun h => hret ((ttyLoop_isSome _ _ _ _).mp h)
    rw [hnone, if_neg hret, if_neg hret]
    simp only [Nat.zero_add]
    refine ⟨fun h => ⟨h.1, fun hin => absurd hin hret⟩, fun h => ⟨h.1, fun _ ha => ?_⟩⟩
    cases ha

theorem devfsReadTraced_bounded_iff (tmp : Nat) {s : SysState} {n : Nat} (buffer count : Nat)
    (hname : (s.vfs.nodes n).name = ['t', 't', 'y']) :
    TtyBounded count (devfsReadTraced tmp s n buffer) ↔ LineFits count s.input := by
  rw [LineFits]
  constructor
  · rintro ⟨hstores, -⟩
    -- the last byte stored is the one that does not fit
    have hlast := ((devfsReadTraced_within tmp buffer hname).mp hstores).1
    by_contra hlong
    exact Nat.lt_irrefl _ (hlast count (Nat.lt_of_not_le hlong))
  · intro hfit
    refine ⟨(devfsReadTraced_within tmp buffer hname).mpr ⟨fun k hk => ?_, fun hret k hk => ?_⟩, ?_⟩
    · exact Nat.lt_of_lt_of_le hk hfit
    · rw [if_pos hret] at hfit
      show k < count
      omega
    · intro r hr
      rw [devfsReadTraced_result, devfsRead, if_pos ((strEq_iff _ _).mpr hname)] at hr
      split at hr
      · cases hr
      · next mem i rest hl =>
        have hret := (ttyLoop_isSome tmp s.mem 0 s.input).mp (Option.isSome_iff_exists.mpr ⟨_, hl⟩)
        have hi : i = beforeReturn s.input + 1 := by
          rw [ttyLoop_length hl, Nat.zero_add, beforeReturn]
        rw [if_pos hret] at hfit
        cases hr
        have := toInt_le i
        dsimp only
        omega

/-! ### Endless streams -/

theorem get_beforeReturn {input : List (BitVec 8)} (h : 13 ∈ input) :
    input[beforeReturn input]? = some 13 := by
  induction input with
  | nil => exact absurd h List.not_mem_nil
  | cons c input ih =>
    by_cases hc : c = 13
    · subst hc
      rw [beforeReturn_return, List.getElem?_cons_zero]
    · rw [beforeReturn_cons hc, List.getElem?_cons_succ]
      exact ih ((return_mem_cons hc input).mp h)

theorem beforeReturn_le {input : List (BitVec 8)} {j : Nat} (h : input[j]? = some 13) :
    beforeReturn input ≤ j := by
  induction input generalizing j with
  | nil => exact Nat.zero_le j
  | cons c input ih =>
    by_cases hc : c = 13
    · subst hc
      rw [beforeReturn_return]
      exact Nat.zero_le j
    · cases j with
      | zero => exact absurd (Option.some.inj h) hc
      | succ j =>
        rw [beforeReturn_cons hc]
        exact Nat.succ_le_succ (ih h)

/-- What was typed of an endless stream fits at every moment exactly when the
stream has a carriage return early enough. -/
theorem lineFits_stream (count : Nat) (stream : Nat → BitVec 8) :
    (∀ m, LineFits count ((List.range m).map stream)) ↔
      ∃ j, j + 2 ≤ count ∧ stream j = 13 := by
  have hget : ∀ m j, ((List.range m).map stream)[j]? = if j < m then some (stream j) else none := by
    intro m j
    rw [List.getElem?_map]
    split <;> simp [*]
  constructor
  · intro hfits
    -- one character more than the buffer has bytes
    have hfit := hfits (count + 1)
    by_cases hret : 13 ∈ (List.range (count + 1)).map stream
    · have hat := get_beforeReturn hret
      rw [LineFits, if_pos hret] at hfit
      rw [hget, if_pos (by omega)] at hat
      exact ⟨_, hfit, Option.some.inj hat⟩
    · rw [LineFits, if_neg hret, beforeReturn_of_not_mem hret] at hfit
      simp at hfit
  · rintro ⟨j, hj, hreturn⟩ m
    by_cases hret : 13 ∈ (List.range m).map stream
    · rw [LineFits, if_pos hret]
      have hle : beforeReturn ((List.range m).map stream) ≤ j := by
        by_cases hjm : j < m
        · exact beforeReturn_le (by rw [hget, if_pos hjm, hreturn])
        · refine (List.takeWhile_prefix _).length_le.trans ?_
          simpa using Nat.le_of_not_lt hjm
      omega
    · rw [LineFits, if_neg hret, beforeReturn_of_not_mem hret, List.length_map, List.length_range]
      have hjm : ¬ j < m := fun hjm =>
        hret (List.mem_map.mpr ⟨j, List.mem_range.mpr hjm, hreturn⟩)
      omega

/-- **A read from the terminal stays in its buffers** exactly when the first
carriage return leaves room for one byte behind it. -/
theorem tty_read_bounded_iff (tmp : Nat) {s : SysState} {n : Nat} (buffer count : Nat)
    (hname : (s.vfs.nodes n).name = ['t', 't', 'y']) :
    (TtyBounded count (devfsReadTraced tmp s n buffer) ↔ LineFits count s.input) ∧
      ∀ stream : Nat → BitVec 8,
        (∀ m, TtyBounded count
          (devfsReadTraced tmp { s with input := (List.range m).map stream } n buffer)) ↔
        ∃ j, j + 2 ≤ count ∧ stream j = 13 := by
  refine ⟨devfsReadTraced_bounded_iff tmp buffer count hname, fun stream => ?_⟩
  rw [← lineFits_stream]
  exact forall_congr' fun m => devfsReadTraced_bounded_iff tmp
    (s := { s with input := (List.range m).map stream }) buffer count hname

/-! ### The first terminal -/

/-- What the first task reads from the terminal, with `input` typed. -/
def typed (input : List (BitVec 8)) : SysState := { initKernel.sys with input := input }

theorem typed_tty (input : List (BitVec 8)) :
    ((typed input).vfs.nodes 8).name = ['t', 't', 'y'] := by
  show (initKernel.sys.vfs.nodes 8).name = ['t', 't', 'y']
  decide +kernel

/-- Two letters and a carriage return in a buffer of four bytes. -/
theorem tty_read_bounded_two :
    ((typed [104, 105, 13]).vfs.nodes 8).name = ['t', 't', 'y'] ∧
      TtyBounded 4 (devfsReadTraced 0x5100 (typed [104, 105, 13]) 8 0x7000) :=
  ⟨typed_tty _, (tty_read_bounded_iff 0x5100 0x7000 4 (typed_tty _)).1.mpr (by decide)⟩

/-- **A line that fills the buffer.**  Three letters and a carriage return in a
buffer of four bytes: the byte behind the line is a fifth one. -/
theorem full_line_overruns :
    ¬ ∀ (tmp : Nat) (s : SysState) (n buffer count : Nat), (s.vfs.nodes n).name = ['t', 't', 'y'] →
      TtyBounded count (devfsReadTraced tmp s n buffer) := by
  intro hclaim
  have hbounded := hclaim 0x5100 (typed [97, 98, 99, 13]) 8 0x7000 4 (typed_tty _)
  have hfits : LineFits 4 [97, 98, 99, 13] :=
    (devfsReadTraced_bounded_iff 0x5100 0x7000 4 (typed_tty _)).mp hbounded
  exact absurd hfits (by decide)

end BestOS
