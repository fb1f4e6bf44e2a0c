/-
BestOS/VecMem.lean

Vectors of pointers in memory: does `sched_remove` take out one task?

`Vec` has the vectors of `lib/vec.h` with slots; here a vector has a block of
words from `realloc`, and `vec_remove` is what it is in the source, a search and a
`memmove` of the words behind.  The two ranges of that `memmove` overlap in all
but one word.

`memmove` copies upwards if the source is above and downwards if it is below, so
that no byte is overwritten before it is read (`memmove_apply`).  The sizes are
computed in an `int`; in a vector that was filled by `vec_push` they fit
(`VecRun.ok`), since `vec_expand_` has computed a larger one before.
-/
import BestOS.ByteLayout
import BestOS.Syscalls
import BestOS.Sched

namespace BestOS

open ByteMemory

/-! ### `memmove` -/

/-- The loop from the end. -/
def memmoveBackward (m : Mem) (dest src : Nat) : Nat → Mem
  | 0 => m
  | i + 1 => memmoveBackward (put m (dest + i) (m (src + i))) dest src i

/-- `memmove(dest, src, n)`; the loop from the start is that of `memcpy`. -/
def memmove (m : Mem) (dest src n : Nat) : Mem :=
  if src > dest then memcpy m dest src n
  else if src < dest then memmoveBackward m dest src n
  else m

/-- From the start: what is still to be copied lies above what is written. -/
theorem memcpy_above (m : Mem) {dest src : Nat} (h : dest ≤ src) (n x : Nat) :
    memcpy m dest src n x = if dest ≤ x ∧ x < dest + n then m (src + (x - dest)) else m x := by
  induction n generalizing x with
  | zero =>
    rw [if_neg (by omega)]
    rfl
  | succ n ih =>
    -- the byte at `src + n` has not been overwritten yet
    have hread : memcpy m dest src n (src + n) = m (src + n) := by
      rw [ih, if_neg (by omega)]
    by_cases hx : x = dest + n
    · rw [memcpy, hx, put_same, hread, if_pos (by omega), Nat.add_sub_cancel_left]
    · rw [memcpy, put_ne hx, ih]
      by_cases hin : dest ≤ x ∧ x < dest + n
      · rw [if_pos hin, if_pos (by omega)]
      · rw [if_neg hin, if_neg (by omega)]

/-- From the end: what is still to be copied lies below what is written. -/
theorem memmoveBackward_below (m : Mem) {dest src : Nat} (h : src < dest) (n x : Nat) :
    memmoveBackward m dest src n x
      = if dest ≤ x ∧ x < dest + n then m (src + (x - dest)) else m x := by
  induction n generalizing m with
  | zero =>
    rw [if_neg (by omega)]
    rfl
  | succ n ih =>
    rw [memmoveBackward, ih]
    by_cases hin : dest ≤ x ∧ x < dest + n
    · rw [if_pos hin, if_pos (by omega), put_ne (by omega)]
    · rw [if_neg hin]
      by_cases hx : x = dest + n
      · rw [hx, put_same, if_pos (by omega), Nat.add_sub_cancel_left]
      · rw [put_ne hx, if_neg (by omega)]

/-- **`memmove`** brings every byte of the source to the destination and changes
no other byte, however the two overlap. -/
theorem memmove_apply (m : Mem) (dest src n x : Nat) :
    memmove m dest src n x = if dest ≤ x ∧ x < dest + n then m (src + (x - dest)) else m x := by
  unfold memmove
  by_cases habove : src > dest
  · rw [if_pos habove, memcpy_above m (Nat.le_of_lt habove)]
  · rw [if_neg habove]
    by_cases hbelow : src < dest
    · rw [if_pos hbelow, memmoveBackward_below m hbelow]
    · rw [if_neg hbelow]
      obtain rfl : src = dest := by omega
      by_cases hin : src ≤ x ∧ x < src + n
      · rw [if_pos hin, Nat.add_sub_cancel' hin.1]
      · rw [if_neg hin]

/-! ### Vectors of pointers -/

/-- `vec_t(T *)`. -/
structure PtrVec where
  data : Nat
  length : Int
  capacity : Int

/-- A value computed in an `int`; there is none if it overflows. -/
def checkInt (i : Int) : Option Int := if -2 ^ 31 ≤ i ∧ i < 2 ^ 31 then some i else none

/-- `v->data[i]`. -/
def word (m : Mem) (data i : Nat) : Nat := readLE m (data + 8 * i) 8

/-- The loop of `vec_find`, with `n` positions to go. -/
def findLoop (m : Mem) (data val : Nat) : Nat → Nat → Nat
  | 0, idx => idx
  | n + 1, idx => if word m data idx = val then idx else findLoop m data val n (idx + 1)

/-- `vec_find`. -/
def vecFindAt (m : Mem) (v : PtrVec) (val : Nat) : Int :=
  let idx : Int := findLoop m v.data val v.length.toNat 0
  if idx = v.length then -1 else idx

/-- `vec_splice`, where `memsz` is 8. -/
def vecSpliceAt (m : Mem) (v : PtrVec) (start count : Int) : Option (Mem × PtrVec) := do
  let dest ← checkInt (start * 8)
  let src ← checkInt ((← checkInt (start + count)) * 8)
  let rest ← checkInt (v.length - start)
  let size ← checkInt ((← checkInt (rest - count)) * 8)
  let m := memmove m (v.data + dest).toNat (v.data + src).toNat (toSize size)
  some (m, { v with length := ← checkInt (v.length - count) })

/-- `vec_remove`. -/
def vecRemoveAt (m : Mem) (v : PtrVec) (val : Nat) : Option (Mem × PtrVec) :=
  let idx := vecFindAt m v val
  if idx ≠ -1 then vecSpliceAt m v idx 1 else some (m, v)

/-- `(*capacity == 0) ? 1 : *capacity << 1`. -/
def grownCapacity (capacity : Int) : Option Int :=
  if capacity = 0 then some 1 else checkInt (capacity * 2)

/-- `vec_expand_`: whether there is room for one more. -/
def vecExpandAt (g : Grant) (m : Mem) (v : PtrVec) : Option (Bool × Mem × PtrVec) := do
  if (← checkInt (v.length + 1)) > v.capacity then
    let n ← grownCapacity v.capacity
    let size ← checkInt (n * 8)
    let r := realloc g m v.data (toSize size)
    if r.1 = 0 then some (false, r.2, v)
    else some (true, r.2, { v with data := r.1, capacity := n })
  else some (true, m, v)

/-- `vec_push`. -/
def vecPushAt (g : Grant) (m : Mem) (v : PtrVec) (val : Nat) : Option (Mem × PtrVec) := do
  let (ok, m, v) ← vecExpandAt g m v
  if ok then
    let length ← checkInt (v.length + 1)
    some (writeLE m (v.data + 8 * v.length).toNat 8 val, { v with length := length })
  else some (m, v)

/-- The elements, in order. -/
def vecList (m : Mem) (v : PtrVec) : List Nat := (List.range v.length.toNat).map (word m v.data)

/-! ### Finding -/

theorem findLoop_eq (m : Mem) (data val n idx : Nat) :
    findLoop m data val n idx = idx + ((List.range' idx n).map (word m data)).idxOf val := by
  induction n generalizing idx with
  | zero => rfl
  | succ n ih =>
    rw [findLoop, List.range'_succ, List.map_cons]
    by_cases h : word m data idx = val
    · rw [if_pos h, List.idxOf_cons_eq _ h, Nat.add_zero]
    · rw [if_neg h, ih, List.idxOf_cons_ne _ h]
      omega

@[simp] theorem length_vecList (m : Mem) (v : PtrVec) : (vecList m v).length = v.length.toNat := by
  simp [vecList]

/-- `vec_find` finds the first occurrence. -/
theorem vecFindAt_eq (m : Mem) {v : PtrVec} (hlen : 0 ≤ v.length) (val : Nat) :
    vecFindAt m v val = if val ∈ vecList m v then ((vecList m v).idxOf val : Int) else -1 := by
  have hloop : findLoop m v.data val v.length.toNat 0 = (vecList m v).idxOf val := by
    rw [findLoop_eq, Nat.zero_add, vecList, List.range_eq_range']
  unfold vecFindAt
  rw [hloop]
  dsimp only
  by_cases hmem : val ∈ vecList m v
  · have hlt := List.idxOf_lt_length_of_mem hmem
    rw [length_vecList] at hlt
    rw [if_pos hmem, if_neg (by omega)]
  · rw [if_neg hmem, List.idxOf_eq_length hmem, length_vecList, if_pos (by omega)]

/-! ### Removing -/

/-- The sizes of the block fit an `int`. -/
structure VecFits (v : PtrVec) : Prop where
  nonneg : 0 ≤ v.length
  room : v.length ≤ v.capacity
  size : 8 * v.capacity < 2 ^ 31

theorem checkInt_eq {i : Int} (h1 : -2 ^ 31 ≤ i) (h2 : i < 2 ^ 31) : checkInt i = some i :=
  if_pos ⟨h1, h2⟩

/-- In a vector whose sizes fit, `vec_splice` moves the words behind position `k`
down by one. -/
theorem vecSpliceAt_eq (m : Mem) {v : PtrVec} (h : VecFits v) {k : Nat} (hk : k < v.length.toNat) :
    vecSpliceAt m v k 1 = some
      (memmove m (v.data + 8 * k) (v.data + 8 * (k + 1)) (8 * (v.length.toNat - (k + 1))),
        { v with length := v.length - 1 }) := by
  obtain ⟨hnonneg, hroom, hsize⟩ := h
  obtain ⟨j, hj⟩ : ∃ j : Nat, (j : Int) = v.length - k - 1 := ⟨_, Int.toNat_of_nonneg (by omega)⟩
  have hbytes : toSize ((j : Int) * 8) = 8 * (v.length.toNat - (k + 1)) := by
    have h0 : (0 : Int) ≤ j * 8 := by omega
    have := toSize_of_nonneg h0 (by omega)
    omega
  have hdest : ((v.data : Int) + (k : Int) * 8).toNat = v.data + 8 * k := by omega
  have hsrc : ((v.data : Int) + ((k : Int) + 1) * 8).toNat = v.data + 8 * (k + 1) := by omega
  have h₁ : checkInt ((k : Int) * 8) = some ((k : Int) * 8) := checkInt_eq (by omega) (by omega)
  have h₂ : checkInt ((k : Int) + 1) = some ((k : Int) + 1) := checkInt_eq (by omega) (by omega)
  have h₃ : checkInt (((k : Int) + 1) * 8) = some (((k : Int) + 1) * 8) :=
    checkInt_eq (by omega) (by omega)
  have h₄ : checkInt (v.length - k) = some (v.length - k) := checkInt_eq (by omega) (by omega)
  have h₅ : checkInt (v.length - k - 1) = some (j : Int) :=
    hj ▸ checkInt_eq (by omega) (by omega)
  have h₆ : checkInt ((j : Int) * 8) = some ((j : Int) * 8) :=
    checkInt_eq (by omega) (by omega)
  have h₇ : checkInt (v.length - 1) = some (v.length - 1) := checkInt_eq (by omega) (by omega)
  unfold vecSpliceAt
  simp only [Option.bind_eq_bind]
  rw [h₁, Option.bind_some, h₂, Option.bind_some, h₃, Option.bind_some, h₄, Option.bind_some, h₅,
    Option.bind_some, h₆, Option.bind_some, h₇, Option.bind_some, hbytes, hdest, hsrc]

/-- The words after the words behind `k` have moved down. -/
theorem vecList_splice (m : Mem) {v : PtrVec} {k : Nat} (hk : k < v.length.toNat) :
    vecList (memmove m (v.data + 8 * k) (v.data + 8 * (k + 1)) (8 * (v.length.toNat - (k + 1))))
        { v with length := v.length - 1 } = (vecList m v).eraseIdx k := by
  have hlen : (v.length - 1).toNat = v.length.toNat - 1 := by omega
  refine List.ext_getElem? fun i => ?_
  rw [List.getElem?_eraseIdx, vecList, vecList, List.getElem?_map, List.getElem?_map,
    List.getElem?_map, hlen]
  by_cases hi : i < v.length.toNat - 1
  · rw [List.getElem?_range hi, List.getElem?_range (show i < v.length.toNat by omega),
      List.getElem?_range (show i + 1 < v.length.toNat by omega), Option.map_some, Option.map_some,
      Option.map_some]
    by_cases hik : i < k
    · rw [if_pos hik]
      refine congrArg some (readLE_congr fun x _ h2 => ?_)
      have h2 : x < v.data + 8 * i + 8 := h2
      rw [memmove_apply, if_neg (by omega)]
    · rw [if_neg hik]
      refine congrArg some (readLE_view fun j hj => ?_)
      show memmove m _ _ _ (v.data + 8 * i + j) = m (v.data + 8 * (i + 1) + j)
      rw [memmove_apply, if_pos (by omega)]
      congr 1
      omega
  · have hnone : ∀ n, n ≤ i → (List.range n)[i]? = none := fun n hn =>
      List.getElem?_eq_none (by rwa [List.length_range])
    have hnext : (List.range v.length.toNat)[i + 1]? = none :=
      List.getElem?_eq_none (by rw [List.length_range]; omega)
    have hik : ¬ i < k := by omega
    rw [hnone _ (by omega), hnext, if_neg hik, Option.map_none, Option.map_none]

/-- `vec_remove` of a vector whose sizes fit: the first occurrence is gone, the
block is where it was, and outside of it memory is as before. -/
theorem vecRemoveAt_spec (m : Mem) {v : PtrVec} (h : VecFits v) (val : Nat) :
    ∃ m' v', vecRemoveAt m v val = some (m', v') ∧ vecList m' v' = (vecList m v).erase val ∧
      VecFits v' ∧ v'.data = v.data ∧
      ∀ x, x < v.data ∨ v.data + 8 * v.length.toNat ≤ x → m' x = m x := by
  unfold vecRemoveAt
  rw [vecFindAt_eq m h.nonneg]
  dsimp only
  by_cases hmem : val ∈ vecList m v
  · have hk := List.idxOf_lt_length_of_mem hmem
    rw [length_vecList] at hk
    rw [if_pos hmem, if_pos (by omega), vecSpliceAt_eq m h hk]
    refine ⟨_, _, rfl, ?_, ⟨?_, ?_, h.size⟩, rfl, fun x hx => ?_⟩
    · rw [vecList_splice m hk, List.erase_eq_eraseIdx_of_idxOf rfl]
    · show 0 ≤ v.length - 1
      omega
    · have := h.room
      show v.length - 1 ≤ v.capacity
      omega
    · rw [memmove_apply, if_neg (by omega)]
  · rw [if_neg hmem, if_neg (fun hne => hne rfl)]
    exact ⟨m, v, rfl, (List.erase_of_not_mem hmem).symm, h, rfl, fun _ _ => rfl⟩

/-! ### Vectors that were filled by `vec_push` -/

/-- The states of a vector and of memory after `vec_init`: calls of `vec_push`
and `vec_remove`, and whatever the rest of the kernel does to memory. -/
inductive VecRun : Mem → PtrVec → Prop
  | init (m) : VecRun m ⟨0, 0, 0⟩
  | push {m v m' v'} (g : Grant) (val : Nat) :
      VecRun m v → vecPushAt g m v val = some (m', v') → VecRun m' v'
  | remove {m v m' v'} (val : Nat) :
      VecRun m v → vecRemoveAt m v val = some (m', v') → VecRun m' v'
  | other {m v} (m' : Mem) : VecRun m v → VecRun m' v

theorem checkInt_some {i j : Int} (h : checkInt i = some j) : j = i ∧ i < 2 ^ 31 := by
  unfold checkInt at h
  split at h
  · next hrange => exact ⟨(Option.some.inj h).symm, hrange.2⟩
  · cases h

/-- `vec_expand_` has computed the size of the block it leaves. -/
theorem vecExpandAt_fits {g : Grant} {m m' : Mem} {v v' : PtrVec} {ok : Bool} (h : VecFits v)
    (hex : vecExpandAt g m v = some (ok, m', v')) :
    VecFits v' ∧ (ok = true → v'.length + 1 ≤ v'.capacity) := by
  unfold vecExpandAt at hex
  simp only [Option.bind_eq_bind] at hex
  obtain ⟨len, hlen, hex⟩ := Option.bind_eq_some_iff.mp hex
  obtain ⟨rfl, -⟩ := checkInt_some hlen
  split at hex
  · -- the new capacity is 1, or twice the old one
    obtain ⟨n, hn, hex⟩ := Option.bind_eq_some_iff.mp hex
    obtain ⟨size, hsize, hex⟩ := Option.bind_eq_some_iff.mp hex
    obtain ⟨rfl, hlt⟩ := checkInt_some hsize
    have hroom : v.length + 1 ≤ n := by
      have h0 := h.nonneg
      have h1 := h.room
      unfold grownCapacity at hn
      split at hn
      · cases hn
        omega
      · obtain ⟨rfl, -⟩ := checkInt_some hn
        omega
    split at hex
    · cases hex
      exact ⟨h, fun hok => absurd hok Bool.false_ne_true⟩
    · cases hex
      exact ⟨⟨h.nonneg, Int.le_of_lt hroom, by rw [Int.mul_comm]; exact hlt⟩, fun _ => hroom⟩
  · next hroom =>
    cases hex
    exact ⟨h, fun _ => Int.not_lt.mp hroom⟩

theorem vecPushAt_fits {g : Grant} {m m' : Mem} {v v' : PtrVec} {val : Nat} (h : VecFits v)
    (hpush : vecPushAt g m v val = some (m', v')) : VecFits v' := by
  unfold vecPushAt at hpush
  simp only [Option.bind_eq_bind] at hpush
  obtain ⟨⟨ok, m₁, v₁⟩, hex, hpush⟩ := Option.bind_eq_some_iff.mp hpush
  obtain ⟨hfits, hroom⟩ := vecExpandAt_fits h hex
  cases ok with
  | false =>
    cases hpush
    exact hfits
  | true =>
    obtain ⟨len, hlen, hpush⟩ := Option.bind_eq_some_iff.mp hpush
    obtain ⟨rfl, -⟩ := checkInt_some hlen
    cases hpush
    exact ⟨Int.le_add_one hfits.nonneg, hroom rfl, hfits.size⟩

/-- The sizes of every such vector fit an `int`. -/
theorem VecRun.ok {m : Mem} {v : PtrVec} (h : VecRun m v) : VecFits v := by
  induction h with
  | init => exact ⟨by decide, by decide, by decide⟩
  | push g val _ hpush ih => exact vecPushAt_fits ih hpush
  | @remove m v m' v' val _ hrem ih =>
    obtain ⟨_, _, heq, -, hfits, -⟩ := vecRemoveAt_spec m ih val
    rw [hrem] at heq
    cases heq
    exact hfits
  | other _ _ ih => exact ih

/-- **`memmove` and `vec_remove`.**  Whatever the distance of source and
destination, `memmove` copies the source as it was, and changes nothing else.  So
`vec_remove` on a vector that was filled by `vec_push` takes out the first
occurrence of the task and keeps the others in order, which is what `sched_remove`
does to the list of tasks. -/
theorem memmove_vec_remove :
    (∀ (m : Mem) (dest src n : Nat),
      (∀ i < n, memmove m dest src n (dest + i) = m (src + i)) ∧
        ∀ x, x < dest ∨ dest + n ≤ x → memmove m dest src n x = m x) ∧
      ∀ (m : Mem) (v : PtrVec), VecRun m v → ∀ t : Nat, ∃ m' v',
        vecRemoveAt m v t = some (m', v') ∧
          vecList m' v' = (vecList m v).erase t ∧
          (∀ x, x < v.data ∨ v.data + 8 * v.length.toNat ≤ x → m' x = m x) ∧
          ∀ s : Sched Nat, s.processes.Holds (vecList m v) →
            (schedRemove s t).processes.Holds (vecList m' v') := by
  refine ⟨fun m dest src n => ⟨fun i hi => ?_, fun x hx => ?_⟩, fun m v hrun t => ?_⟩
  · rw [memmove_apply, if_pos ⟨Nat.le_add_right _ _, Nat.add_lt_add_left hi _⟩,
      Nat.add_sub_cancel_left]
  · rw [memmove_apply, if_neg (by omega)]
  · obtain ⟨m', v', hrem, hlist, -, -, hframe⟩ := vecRemoveAt_spec m hrun.ok t
    refine ⟨m', v', hrem, hlist, hframe, fun s hs => ?_⟩
    rw [hlist]
    exact hs.remove t

/-- Three pushes, each of which moves the block, and the first of two equal tasks
is removed. -/
theorem memmove_vec_remove_first :
    ∃ m v, VecRun m v ∧ vecList m v = [5, 7, 5] ∧
      ∃ m' v', vecRemoveAt m v 5 = some (m', v') ∧ vecList m' v' = [7, 5] := by
  have h₁ := VecRun.push ⟨0, 4096⟩ 5 (.init fun _ => 0) rfl
  have h₂ := h₁.push ⟨8, 8192⟩ 7 rfl
  have h₃ := h₂.push ⟨16, 12288⟩ 5 rfl
  obtain ⟨m, v, hrun, hthree⟩ : ∃ m v, VecRun m v ∧ vecList m v = [5, 7, 5] :=
    ⟨_, _, h₃, by decide +kernel⟩
  obtain ⟨m', v', hrem, hlist, -, -⟩ := memmove_vec_remove.2 m v hrun 5
  refine ⟨m, v, hrun, hthree, m', v', hrem, ?_⟩
  rw [hlist, hthree]
  rfl

end BestOS
