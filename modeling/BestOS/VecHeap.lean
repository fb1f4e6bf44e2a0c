/-
BestOS/VecHeap.lean

Vectors in the kernel's heap.

`Vec` and `VecMem` leave it to an argument whether `realloc` finds a block.  Here the block
is one of the heap of `HeapRun`: `vec_expand_` calls `realloc`, an element is stored behind
the others, `vec_splice` moves the bytes behind the gap down, and `vec_deinit` frees.

`HoldsList memsz σ v l` says that the vector `v` holds the list `l` of elements of `memsz`
bytes, in a block of the store `σ`.  Each operation does to the list what its name says
(`HeapInv.vecPush`, `HeapInv.vecSplice`, `HeapInv.vecRemove`), and reaches no other block.  So several vectors,
and whoever else has blocks, do not get in each other's way, over whole runs
(`vectors_hold_lists`).
-/
import BestOS.HeapRun
import BestOS.VecMem

namespace BestOS

open ByteMemory BlockHeap BlockStore Fuel

/-! ### The operations -/

/-- An assignment of several bytes. -/
def storeBytes (h : LibAlloc) (p : Nat) : List (BitVec 8) → LibAlloc
  | [] => h
  | b :: bs => storeBytes (h.store p 1 b.toNat) ((p + 1) % 2 ^ 64) bs

/-- The loop of `memmove` from the end. -/
def copyBytesBackward (h : LibAlloc) (dest src : Nat) : Nat → LibAlloc
  | 0 => h
  | i + 1 => copyBytesBackward (h.store ((dest + i) % 2 ^ 64) 1 (h.load ((src + i) % 2 ^ 64) 1))
      dest src i

/-- `memmove` in the kernel's window. -/
def memmoveHeap (h : LibAlloc) (dest src n : Nat) : LibAlloc :=
  if src > dest then copyBytes h dest src n
  else if src < dest then copyBytesBackward h dest src n
  else h

/-- `vec_expand_`: whether there is room for one more. -/
def vecExpandHeap (memsz fuel : Nat) (h : LibAlloc) (v : PtrVec) :
    Option (Bool × LibAlloc × PtrVec) := do
  if (← checkInt (v.length + 1)) > v.capacity then
    let n ← grownCapacity v.capacity
    let size ← checkInt (n * memsz)
    let r ← LibAlloc.realloc fuel h v.data (toSize size)
    if r.1 = 0 then some (false, r.2, v)
    else some (true, r.2, { v with data := r.1, capacity := n })
  else some (true, h, v)

/-- `vec_push`. -/
def vecPushHeap (memsz fuel : Nat) (h : LibAlloc) (v : PtrVec) (val : List (BitVec 8)) :
    Option (LibAlloc × PtrVec) := do
  let (ok, h, v) ← vecExpandHeap memsz fuel h v
  if ok then
    let length ← checkInt (v.length + 1)
    some (storeBytes h ((v.data + v.length * memsz) % 2 ^ 64).toNat val, { v with length := length })
  else some (h, v)

/-- `vec_splice`. -/
def vecSpliceHeap (memsz : Nat) (h : LibAlloc) (v : PtrVec) (start count : Int) :
    Option (LibAlloc × PtrVec) := do
  let dest ← checkInt (start * memsz)
  let src ← checkInt ((← checkInt (start + count)) * memsz)
  let rest ← checkInt (v.length - start)
  let size ← checkInt ((← checkInt (rest - count)) * memsz)
  let h := memmoveHeap h (v.data + dest).toNat (v.data + src).toNat (toSize size)
  some (h, { v with length := ← checkInt (v.length - count) })

/-- The loop of `vec_find`, with `n` positions to go. -/
def findLoopHeap (memsz : Nat) (h : LibAlloc) (data : Nat) (val : List (BitVec 8)) :
    Nat → Nat → Nat
  | 0, idx => idx
  | n + 1, idx =>
      if bytesFrom h.machine.mem (physical ((data + idx * memsz) % 2 ^ 64)) memsz = val then idx
      else findLoopHeap memsz h data val n (idx + 1)

/-- `vec_find`, for elements that are equal when their bytes are. -/
def vecFindHeap (memsz : Nat) (h : LibAlloc) (v : PtrVec) (val : List (BitVec 8)) : Int :=
  let idx : Int := findLoopHeap memsz h v.data val v.length.toNat 0
  if idx = v.length then -1 else idx

/-- `vec_remove`. -/
def vecRemoveHeap (memsz : Nat) (h : LibAlloc) (v : PtrVec) (val : List (BitVec 8)) :
    Option (LibAlloc × PtrVec) :=
  let idx := vecFindHeap memsz h v val
  if idx ≠ -1 then vecSpliceHeap memsz h v idx 1 else some (h, v)

variable {x : HeapState} {h' : LibAlloc} {v v' : PtrVec} {memsz p i j n : Nat}
  {bs cs : List (BitVec 8)} {l : List (List (BitVec 8))} {e : List (BitVec 8)}
  {σ : Store (BitVec 8)}

/-! ### Stores and moves inside a block -/

/-- `bs` with `cs` from position `i` on. -/
def overwrite (bs : List (BitVec 8)) (i : Nat) (cs : List (BitVec 8)) : List (BitVec 8) :=
  bs.take i ++ cs ++ bs.drop (i + cs.length)

theorem length_overwrite (h : i + cs.length ≤ bs.length) :
    (overwrite bs i cs).length = bs.length := by
  simp only [overwrite, List.length_append, List.length_take, List.length_drop]
  omega

theorem overwrite_nil (bs : List (BitVec 8)) (i : Nat) : overwrite bs i [] = bs := by
  simp [overwrite]

/-- One byte, and then the others. -/
theorem overwrite_set (h : i < bs.length) (b : BitVec 8) (cs : List (BitVec 8)) :
    overwrite (bs.set i b) (i + 1) cs = overwrite bs i (b :: cs) := by
  have htake : (bs.set i b).take (i + 1) = bs.take i ++ [b] := by
    rw [List.set_eq_take_append_cons_drop, if_pos h, List.take_append, List.take_take,
      List.length_take]
    simp [Nat.min_eq_left h.le]
  rw [overwrite, overwrite, htake, List.drop_set_of_lt (by omega), List.length_cons,
    List.append_assoc (bs.take i), List.singleton_append, Nat.add_right_comm, Nat.add_assoc]

/-- The others, and then one byte. -/
theorem set_overwrite (h : i + cs.length < bs.length) (b : BitVec 8) :
    (overwrite bs i cs).set (i + cs.length) b = overwrite bs i (cs ++ [b]) := by
  have hlen : (bs.take i ++ cs).length = i + cs.length := by
    rw [List.length_append, List.length_take, Nat.min_eq_left (by omega)]
  rw [overwrite, List.set_append_right _ _ (by omega), hlen, Nat.sub_self,
    List.drop_eq_getElem_cons h, List.set_cons_zero, overwrite, List.length_append,
    List.length_singleton, List.append_assoc, List.append_assoc, List.append_assoc,
    List.singleton_append, Nat.add_assoc]

/-- Behind what has been overwritten nothing has changed. -/
theorem getElem?_overwrite (h : i + cs.length ≤ bs.length) (hj : i + cs.length ≤ j) :
    (overwrite bs i cs)[j]? = bs[j]? := by
  have hlen : (bs.take i ++ cs).length = i + cs.length := by
    rw [List.length_append, List.length_take, Nat.min_eq_left (by omega)]
  rw [overwrite, List.getElem?_append_right (by omega), hlen, List.getElem?_drop,
    Nat.add_sub_cancel' hj]

/-- An assignment inside a block. -/
theorem HeapInv.storeBytes (inv : HeapInv x) (hp : x.store p = some bs)
    (hfit : i + cs.length ≤ bs.length) :
    HeapInv ⟨BestOS.storeBytes x.lib (p + i) cs, x.store.alloc p (overwrite bs i cs), x.owned⟩ ∧
    KeptWithin x.owned x.lib.machine (BestOS.storeBytes x.lib (p + i) cs).machine := by
  induction cs generalizing x bs i with
  | nil =>
    have hsame : x.store.alloc p bs = x.store := by
      rw [Store.alloc, ← hp, Function.update_eq_self]
    rw [overwrite_nil, hsame]
    exact ⟨inv, KeptWithin.refl _ _⟩
  | cons b cs ih =>
    rw [List.length_cons] at hfit
    have hib : i < bs.length := by omega
    obtain ⟨inv₁, w₁⟩ := inv.write hp hib b
    have hp₁ : x.store.write p i b p = some (bs.set i b) := by
      rw [Store.write_eq hp, Store.alloc_self]
    obtain ⟨inv₂, w₂⟩ := ih (i := i + 1) inv₁ hp₁ (by rw [List.length_set]; omega)
    rw [Store.write_eq hp, Store.alloc_alloc, overwrite_set hib] at inv₂
    obtain ⟨-, hhigh⟩ := inv.window hp
    rw [BestOS.storeBytes, Nat.mod_eq_of_lt (by omega)]
    exact ⟨inv₂, w₁.trans w₂⟩

/-- A move downwards inside a block: what is still to be read has not been overwritten. -/
theorem HeapInv.moveDown (inv : HeapInv x) (hp : x.store p = some bs) (hij : i ≤ j)
    (hfit : j + n ≤ bs.length) :
    HeapInv ⟨copyBytes x.lib (p + i) (p + j) n,
      x.store.alloc p (overwrite bs i ((bs.drop j).take n)), x.owned⟩ ∧
    KeptWithin x.owned x.lib.machine (copyBytes x.lib (p + i) (p + j) n).machine := by
  induction n with
  | zero =>
    have hsame : x.store.alloc p bs = x.store := by
      rw [Store.alloc, ← hp, Function.update_eq_self]
    rw [List.take_zero, overwrite_nil, hsame]
    exact ⟨inv, KeptWithin.refl _ _⟩
  | succ n ih =>
    obtain ⟨inv₁, w₁⟩ := ih (by omega)
    have hlen : ((bs.drop j).take n).length = n := by
      rw [List.length_take, List.length_drop]
      omega
    have hjn : j + n < bs.length := by omega
    have hbyte : (overwrite bs i ((bs.drop j).take n))[j + n]? = some bs[j + n] := by
      rw [getElem?_overwrite (by omega) (by omega), List.getElem?_eq_getElem hjn]
    have hnext : (bs.drop j).take (n + 1) = (bs.drop j).take n ++ [bs[j + n]] := by
      rw [List.take_add_one, List.getElem?_drop, List.getElem?_eq_getElem hjn, Option.toList_some]
    have hself := Store.alloc_self x.store p (overwrite bs i ((bs.drop j).take n))
    have hload := inv₁.load hself hbyte
    obtain ⟨inv₂, w₂⟩ := inv₁.write (i := i + n) hself
      (by rw [length_overwrite (by omega)]; omega) bs[j + n]
    have hset : (overwrite bs i ((bs.drop j).take n)).set (i + ((bs.drop j).take n).length) bs[j + n]
        = overwrite bs i ((bs.drop j).take n ++ [bs[j + n]]) :=
      set_overwrite (by omega) bs[j + n]
    rw [hlen] at hset
    rw [Store.write_eq hself, Store.alloc_alloc, hset, ← hnext] at inv₂
    obtain ⟨-, hhigh⟩ := inv.window hp
    rw [copyBytes, Nat.mod_eq_of_lt (by omega), Nat.mod_eq_of_lt (by omega), Nat.add_assoc,
      Nat.add_assoc]
    dsimp only at hload ⊢
    rw [hload]
    exact ⟨inv₂, w₁.trans w₂⟩

/-- Bytes put where they are. -/
theorem overwrite_self (h : i + n ≤ bs.length) :
    overwrite bs i ((bs.drop i).take n) = bs := by
  have hlen : ((bs.drop i).take n).length = n := by
    rw [List.length_take, List.length_drop]
    omega
  rw [overwrite, hlen, ← List.drop_drop, List.append_assoc, List.take_append_drop,
    List.take_append_drop]

/-- `memmove` downwards inside a block. -/
theorem HeapInv.memmove (inv : HeapInv x) (hp : x.store p = some bs) (hij : i ≤ j)
    (hfit : j + n ≤ bs.length) :
    HeapInv ⟨memmoveHeap x.lib (p + i) (p + j) n,
      x.store.alloc p (overwrite bs i ((bs.drop j).take n)), x.owned⟩ ∧
    KeptWithin x.owned x.lib.machine (memmoveHeap x.lib (p + i) (p + j) n).machine := by
  unfold memmoveHeap
  by_cases hlt : i < j
  · rw [if_pos (by omega)]
    exact inv.moveDown hp hij hfit
  · obtain rfl : i = j := by omega
    have hsame : x.store.alloc p bs = x.store := by
      rw [Store.alloc, ← hp, Function.update_eq_self]
    rw [if_neg (by omega), if_neg (by omega), overwrite_self hfit, hsame]
    exact ⟨inv, KeptWithin.refl _ _⟩

/-! ### The list of a vector -/

/-- The vector holds `l`: its elements come first in its block, one after the other.  A
vector without capacity has no block. -/
structure HoldsList (memsz : Nat) (σ : Store (BitVec 8)) (v : PtrVec)
    (l : List (List (BitVec 8))) : Prop where
  elements : ∀ e ∈ l, e.length = memsz
  length : v.length = l.length
  room : v.length ≤ v.capacity
  size : v.capacity * memsz < 2 ^ 31
  block : ∃ bs, bs.length = v.capacity.toNat * memsz ∧ l.flatten <+: bs ∧
    (v.data = 0 ∧ v.capacity = 0 ∨ v.data ≠ 0 ∧ 0 < v.capacity ∧ σ v.data = some bs)

/-- The capacity that `vec_expand_` asks for. -/
def grown (v : PtrVec) : Nat := if v.capacity = 0 then 1 else v.capacity.toNat * 2

/-- If the vector is full, a block of twice the size can be had. -/
def CanGrow (memsz : Nat) (h : LibAlloc) (v : PtrVec) : Prop :=
  v.length = v.capacity → grown v * memsz < 2 ^ 31 ∧ Room h (grown v * memsz)

theorem length_flatten_elements (hl : ∀ e ∈ l, e.length = memsz) :
    l.flatten.length = l.length * memsz := by
  induction l with
  | nil => simp
  | cons e l ih =>
    rw [List.flatten_cons, List.length_append, hl e (by simp), ih fun e he => hl e (by simp [he]),
      List.length_cons, Nat.succ_mul, Nat.add_comm]

theorem take_flatten (hl : ∀ e ∈ l, e.length = memsz) (k : Nat) :
    (l.take k).flatten = l.flatten.take (k * memsz) := by
  induction l generalizing k with
  | nil => simp
  | cons e l ih =>
    cases k with
    | zero => simp
    | succ k =>
      have he : e.length = memsz := hl e (by simp)
      rw [List.take_succ_cons, List.flatten_cons, List.flatten_cons,
        ih (fun e he => hl e (by simp [he])), List.take_append, he, Nat.succ_mul, Nat.add_sub_cancel,
        List.take_of_length_le (show e.length ≤ k * memsz + memsz by omega)]

theorem drop_flatten (hl : ∀ e ∈ l, e.length = memsz) (k : Nat) :
    (l.drop k).flatten = l.flatten.drop (k * memsz) := by
  have hsplit : (l.take k).flatten ++ (l.drop k).flatten = l.flatten := by
    rw [← List.flatten_append, List.take_append_drop]
  rw [take_flatten hl] at hsplit
  have hboth := (List.take_append_drop (k * memsz) l.flatten).trans hsplit.symm
  exact (List.append_cancel_left hboth).symm

theorem getElem?_flatten_elements (hl : ∀ e ∈ l, e.length = memsz) (hn : l[n]? = some e)
    (hj : j < e.length) : l.flatten[n * memsz + j]? = e[j]? := by
  obtain ⟨hlt, he⟩ := List.getElem?_eq_some_iff.mp hn
  rw [← List.getElem?_drop, ← drop_flatten hl, List.drop_eq_getElem_cons hlt, he,
    List.flatten_cons, List.getElem?_append_left hj]

/-- A new vector. -/
theorem HoldsList.init (memsz : Nat) (σ : Store (BitVec 8)) : HoldsList memsz σ ⟨0, 0, 0⟩ [] :=
  ⟨by simp, rfl, Int.le_refl 0, by simp, [], by simp, List.nil_prefix, .inl ⟨rfl, rfl⟩⟩

/-- A block in the same place with the same bytes will do. -/
theorem HoldsList.congr {τ : Store (BitVec 8)} (hv : HoldsList memsz σ v l)
    (h : v.data ≠ 0 → τ v.data = σ v.data) : HoldsList memsz τ v l := by
  obtain ⟨bs, hlen, hpre, hnone | ⟨h0, hpos, hbs⟩⟩ := hv.block
  · exact ⟨hv.elements, hv.length, hv.room, hv.size, bs, hlen, hpre, .inl hnone⟩
  · exact ⟨hv.elements, hv.length, hv.room, hv.size, bs, hlen, hpre,
      .inr ⟨h0, hpos, (h h0).trans hbs⟩⟩

/-! ### One operation -/

/-- A block of at most `2 ^ 31` bytes may be asked for. -/
theorem request_of_int (h : n < 2 ^ 31) : Request n := by
  have htag : TAG_SIZE = 48 := rfl
  have hpage : L_PAGE_SIZE = 4096 := rfl
  unfold Request
  omega

/-- Taking a block away and putting it back. -/
theorem after_same (inv : HeapInv x) (hp : x.store p = some bs) :
    x.after x.lib ((x.store.release p).alloc p bs) = x := by
  obtain ⟨A, L, c, t⟩ := inv.held
  have hsame : (x.store.release p).alloc p bs = x.store := by
    rw [Store.release, Store.alloc, Function.update_idem, ← hp, Function.update_eq_self]
  rw [HeapState.after, hsame, c.frames.heldAfter_eq (KeptWithin.refl _ _)]

/-- The computations of `vec_expand_` in an `int`. -/
theorem grownCapacity_eq (h0 : 0 ≤ v.capacity) (hsize : grown v * memsz < 2 ^ 31)
    (hmem : 0 < memsz) :
    grownCapacity v.capacity = some (grown v : Int) ∧
      checkInt ((grown v : Int) * memsz) = some ((grown v * memsz : Nat) : Int) ∧
      toSize ((grown v * memsz : Nat) : Int) = grown v * memsz := by
  have hle : grown v ≤ grown v * memsz := Nat.le_mul_of_pos_right _ hmem
  have hint : ((grown v * memsz : Nat) : Int) = (grown v : Int) * memsz := Int.natCast_mul ..
  refine ⟨?_, ?_, ?_⟩
  · unfold grownCapacity
    unfold grown at hle hsize ⊢
    by_cases hc : v.capacity = 0
    · rw [if_pos hc, if_pos hc]
      rfl
    · rw [if_neg hc] at hle hsize
      rw [if_neg hc, if_neg hc, checkInt_eq (by omega) (by omega)]
      congr 1
      omega
  · rw [← hint, checkInt_eq (by omega) (by omega)]
  · have hs := toSize_of_nonneg (i := ((grown v * memsz : Nat) : Int)) (by omega) (by omega)
    exact_mod_cast hs

/-- `realloc` of the block of a vector: the elements come along. -/
theorem HeapInv.growBlock (inv : HeapInv x) (hv : HoldsList memsz x.store v l) (hpos : 0 < n)
    (hint : n < 2 ^ 31) (hroom : Room x.lib n) (hmore : v.capacity.toNat * memsz ≤ n) :
    ∃ r h₁ cs, Returns (fun fuel => LibAlloc.realloc fuel x.lib v.data n) (r, h₁) ∧
      HeapInv (x.after h₁ ((x.store.release v.data).alloc r cs)) ∧ cs.length = n ∧
      l.flatten <+: cs ∧ r ≠ 0 ∧ x.store r = none := by
  have hunused : ∀ {r : Nat}, x.store.heap.Fresh r n → x.store r = none := fun hfresh =>
    Option.map_eq_none_iff.mp hfresh.unused
  obtain ⟨bs, hbs, hpre, ⟨hd, hc⟩ | ⟨hd, hc, hblock⟩⟩ := hv.block
  · -- the first block
    obtain ⟨r, h₁, hret, inv₁, hfresh, -⟩ := inv.malloc (request_of_int hint) hroom
    have hnil : l.flatten = [] := by
      rw [hc, Int.toNat_zero, Nat.zero_mul, List.length_eq_zero_iff] at hbs
      rwa [hbs, List.prefix_nil] at hpre
    refine ⟨r, h₁, bytesFrom h₁.machine.mem (physical r) n, ?_, ?_, length_bytesFrom .., ?_,
      hfresh.ne_null, hunused hfresh⟩
    · rw [hd]
      simpa only [realloc_null _ _ hpos] using hret
    · rw [hd, Store.release_none inv.null]
      exact inv₁
    · rw [hnil]
      exact List.nil_prefix
  · -- a larger one
    obtain ⟨r, h₁, cs, hret, inv₁, hcs, hfresh, -⟩ :=
      inv.realloc hblock (by omega) hpos hint hroom
    have hrp : r ≠ v.data := by
      rintro rfl
      rw [hunused hfresh] at hblock
      cases hblock
    rw [List.take_of_length_le (by omega)] at hcs
    refine ⟨r, h₁, cs, hret, ?_, ?_, hcs ▸ hpre.trans (List.prefix_append _ _), hfresh.ne_null,
      hunused hfresh⟩
    · rwa [Store.release, Store.alloc, Function.update_comm hrp.symm]
    · rw [hcs, List.length_append, length_bytesFrom]
      omega

/-- There is room in an `int` for one element more. -/
theorem HoldsList.short (hv : HoldsList memsz σ v l) (hmem : 0 < memsz) {h : LibAlloc}
    (hgrow : CanGrow memsz h v) : v.length + 1 < 2 ^ 31 := by
  have hnat := hv.length
  have hroom := hv.room
  by_cases hfull : v.length = v.capacity
  · have hsize := (hgrow hfull).1
    have hle : grown v ≤ grown v * memsz := Nat.le_mul_of_pos_right _ hmem
    unfold grown at hle hsize
    split at hle
    · omega
    · next hc =>
      rw [if_neg hc] at hsize
      omega
  · obtain ⟨cap, hcap⟩ : ∃ k : Nat, v.capacity = k := ⟨v.capacity.toNat, by omega⟩
    have hsize := hv.size
    rw [hcap, ← Int.natCast_mul] at hsize
    have hle : cap ≤ cap * memsz := Nat.le_mul_of_pos_right _ hmem
    omega

/-- **`vec_expand_`** finds room for one more element, and the elements are where they were
or in a new block. -/
theorem HeapInv.vecExpand (inv : HeapInv x) (hv : HoldsList memsz x.store v l) (hmem : 0 < memsz)
    (hgrow : CanGrow memsz x.lib v) :
    ∃ h₁ v₁ bs, Returns (fun fuel => vecExpandHeap memsz fuel x.lib v) (true, h₁, v₁) ∧
      HeapInv (x.after h₁ ((x.store.release v.data).alloc v₁.data bs)) ∧
      bs.length = v₁.capacity.toNat * memsz ∧ l.flatten <+: bs ∧ v₁.length = v.length ∧
      v₁.length < v₁.capacity ∧ v₁.capacity * memsz < 2 ^ 31 ∧ v₁.data ≠ 0 ∧
      (v₁.data = v.data ∨ x.store v₁.data = none) := by
  have hnat := hv.length
  have hroom := hv.room
  have hlen := hv.short hmem hgrow
  have hcheck : checkInt (v.length + 1) = some (v.length + 1) := checkInt_eq (by omega) hlen
  by_cases hfull : v.length = v.capacity
  · obtain ⟨hsize, hrm⟩ := hgrow hfull
    obtain ⟨hcap, hmul, hts⟩ := grownCapacity_eq (by omega) hsize hmem
    have hmore : v.capacity.toNat < grown v := by
      unfold grown
      split <;> omega
    obtain ⟨r, h₁, cs, hret, inv₁, hcs, hpre, hr, hunused⟩ :=
      inv.growBlock hv (Nat.mul_pos (by omega) hmem) hsize hrm (Nat.mul_le_mul_right _ hmore.le)
    refine ⟨h₁, { v with data := r, capacity := (grown v : Int) }, cs, ?_, inv₁, ?_, hpre, rfl, ?_,
      ?_, hr, .inr hunused⟩
    · refine hret.mono fun fuel hf => ?_
      have hf' : LibAlloc.realloc fuel x.lib v.data (grown v * memsz) = some (r, h₁) := hf
      unfold vecExpandHeap
      simp only [Option.bind_eq_bind]
      rw [hcheck, Option.bind_some, if_pos (by omega), hcap, Option.bind_some, hmul,
        Option.bind_some, hts, hf', Option.bind_some, if_neg hr]
    · rw [hcs, Int.toNat_natCast]
    · show v.length < (grown v : Int)
      omega
    · show (grown v : Int) * memsz < 2 ^ 31
      exact_mod_cast hsize
  · obtain ⟨bs, hbs, hpre, ⟨hd, hc⟩ | ⟨hd, hc, hblock⟩⟩ := hv.block
    · omega
    refine ⟨x.lib, v, bs, ?_, ?_, hbs, hpre, rfl, by omega, hv.size, hd, .inl rfl⟩
    · refine Enough.of_forall fun fuel => ?_
      unfold vecExpandHeap
      simp only [Option.bind_eq_bind]
      rw [hcheck, Option.bind_some, if_neg (by omega)]
    · rwa [after_same inv hblock]

/-- The state after an operation on `v` that has left the heap `h'` and the vector `v'`. -/
def HeapState.afterVec (x : HeapState) (memsz : Nat) (v : PtrVec) (h' : LibAlloc) (v' : PtrVec) :
    HeapState :=
  x.after h' ((x.store.release v.data).alloc v'.data
    (bytesFrom h'.machine.mem (physical v'.data) (v'.capacity.toNat * memsz)))

/-- **`vec_push`** puts the element behind the others. -/
theorem HeapInv.vecPush (inv : HeapInv x) (hv : HoldsList memsz x.store v l) (hmem : 0 < memsz)
    (he : e.length = memsz) (hgrow : CanGrow memsz x.lib v) :
    ∃ h' v', Returns (fun fuel => vecPushHeap memsz fuel x.lib v e) (h', v') ∧
      HeapInv (x.afterVec memsz v h' v') ∧
      HoldsList memsz (x.afterVec memsz v h' v').store v' (l ++ [e]) ∧
      (v'.data = v.data ∨ x.store v'.data = none) := by
  obtain ⟨h₁, v₁, bs, hret, inv₁, hbs, hpre, hl₁, hroom, hsize, hd, hplace⟩ :=
    inv.vecExpand hv hmem hgrow
  have hlen := hv.short hmem hgrow
  have hnat := hv.length
  have hflat := length_flatten_elements hv.elements
  have hfit : l.length * memsz + e.length ≤ bs.length := by
    rw [hbs, he, ← Nat.succ_mul]
    exact Nat.mul_le_mul_right _ (by omega)
  have hself := Store.alloc_self (x.store.release v.data) v₁.data bs
  obtain ⟨-, hhigh⟩ := inv₁.window hself
  obtain ⟨inv₂, w⟩ := inv₁.storeBytes hself hfit
  -- where the code stores the element
  have haddr : (((v₁.data : Int) + v₁.length * memsz) % 2 ^ 64).toNat
      = v₁.data + l.length * memsz := by
    have hint : v₁.length * memsz = ((l.length * memsz : Nat) : Int) := by
      rw [hl₁, hnat, Int.natCast_mul]
    rw [hint, Int.emod_eq_of_lt (by omega) (by omega)]
    omega
  have hcontents := inv₂.contents (Store.alloc_self ..)
  rw [length_overwrite hfit, hbs] at hcontents
  dsimp only [HeapState.after] at inv₂ w hcontents
  rw [Store.alloc_alloc] at inv₂
  refine ⟨BestOS.storeBytes h₁ (v₁.data + l.length * memsz) e, { v₁ with length := v₁.length + 1 },
    ?_, ?_, ?_, hplace⟩
  · refine hret.mono fun fuel hf => ?_
    have hf' : vecExpandHeap memsz fuel x.lib v = some (true, h₁, v₁) := hf
    unfold vecPushHeap
    simp only [Option.bind_eq_bind]
    rw [hf', Option.bind_some]
    dsimp only
    rw [if_pos rfl, checkInt_eq (by omega) (by omega), Option.bind_some, haddr]
  · unfold HeapState.afterVec
    rw [hcontents, HeapState.after, w.heldAfter_right]
    exact inv₂
  · have hfront : bs.take (l.length * memsz) = l.flatten := by
      rw [← hflat]
      exact (List.prefix_iff_eq_take.mp hpre).symm
    refine ⟨fun e' he' => ?_, ?_, hroom, hsize, _, length_bytesFrom .., ?_,
      .inr ⟨hd, show 0 < v₁.capacity by omega, Store.alloc_self ..⟩⟩
    · rcases List.mem_append.mp he' with he' | he'
      · exact hv.elements e' he'
      · rw [List.mem_singleton.mp he', he]
    · show v₁.length + 1 = ((l ++ [e]).length : Int)
      rw [List.length_append, List.length_singleton]
      omega
    · rw [hcontents, List.flatten_append, List.flatten_singleton, overwrite, hfront]
      exact List.prefix_append _ _

theorem checkInt_mul {k : Nat} (hsize : k * memsz < 2 ^ 31) :
    checkInt ((k : Int) * memsz) = some ((k * memsz : Nat) : Int) := by
  rw [← Int.natCast_mul, checkInt_eq (by omega) (by omega)]

/-- The computations of `vec_splice` in an `int`. -/
theorem vecSpliceHeap_eq (h : LibAlloc) {s c d : Nat} (hlen : v.length = ((s + c + d : Nat) : Int))
    (hmem : 0 < memsz) (hsize : (s + c + d) * memsz < 2 ^ 31) :
    vecSpliceHeap memsz h v s c = some
      (memmoveHeap h (v.data + s * memsz) (v.data + (s + c) * memsz) (d * memsz),
        { v with length := v.length - c }) := by
  have hle : ∀ k, k ≤ s + c + d → k * memsz < 2 ^ 31 := fun k hk =>
    (Nat.mul_le_mul_right memsz hk).trans_lt hsize
  have hlt : s + c + d < 2 ^ 31 := (Nat.le_mul_of_pos_right _ hmem).trans_lt hsize
  have hsum : checkInt ((s : Int) + c) = some ((s + c : Nat) : Int) := by
    rw [← Int.natCast_add, checkInt_eq (by omega) (by omega)]
  have hrest : checkInt (v.length - s) = some ((c + d : Nat) : Int) := by
    rw [checkInt_eq (by omega) (by omega)]
    exact congrArg some (by omega)
  have hcount : checkInt (((c + d : Nat) : Int) - c) = some (d : Int) := by
    rw [checkInt_eq (by omega) (by omega)]
    exact congrArg some (by omega)
  have hleft : checkInt (v.length - c) = some (v.length - c) :=
    checkInt_eq (by omega) (by omega)
  have hbytes : toSize ((d * memsz : Nat) : Int) = d * memsz := by
    have hd := hle d (by omega)
    have hs := toSize_of_nonneg (i := ((d * memsz : Nat) : Int)) (by omega) (by omega)
    exact_mod_cast hs
  have hptr : ∀ k : Nat, ((v.data : Int) + (k : Int)).toNat = v.data + k := fun k => by omega
  unfold vecSpliceHeap
  simp only [Option.bind_eq_bind]
  rw [checkInt_mul (hle s (by omega)), Option.bind_some, hsum, Option.bind_some,
    checkInt_mul (hle (s + c) (by omega)), Option.bind_some, hrest, Option.bind_some, hcount,
    Option.bind_some, checkInt_mul (hle d (by omega)), Option.bind_some, hleft, Option.bind_some,
    hbytes, hptr, hptr]

/-- **`vec_splice`** of a range inside the vector takes the range out. -/
theorem HeapInv.vecSplice (inv : HeapInv x) (hv : HoldsList memsz x.store v l) (hmem : 0 < memsz)
    {s c : Nat} (hin : s + c ≤ l.length) (hpos : 0 < l.length) :
    ∃ h' v', vecSpliceHeap memsz x.lib v s c = some (h', v') ∧
      HeapInv (x.afterVec memsz v h' v') ∧
      HoldsList memsz (x.afterVec memsz v h' v').store v' (l.take s ++ l.drop (s + c)) ∧
      v'.data = v.data := by
  have hnat := hv.length
  have hroom := hv.room
  obtain ⟨d, hd⟩ : ∃ d, l.length = s + c + d := ⟨l.length - (s + c), by omega⟩
  have hflat := length_flatten_elements hv.elements
  obtain ⟨bs, hbs, hpre, ⟨-, hc⟩ | ⟨hnull, hc, hblock⟩⟩ := hv.block
  · omega
  have hlen : (s + c + d) * memsz ≤ bs.length := by
    rw [hbs]
    exact Nat.mul_le_mul_right _ (by omega)
  have hcap : ((bs.length : Nat) : Int) = v.capacity * memsz := by
    rw [hbs, Int.natCast_mul, Int.toNat_of_nonneg (by omega)]
  have hsize := hv.size
  have heq := vecSpliceHeap_eq x.lib (v := v) (hnat.trans (by rw [hd])) hmem (by omega)
  have hsplit : (s + c) * memsz + d * memsz = (s + c + d) * memsz := (Nat.add_mul ..).symm
  have hle : s * memsz ≤ (s + c) * memsz := Nat.mul_le_mul_right _ (Nat.le_add_right s c)
  obtain ⟨inv₁, w⟩ := inv.memmove hblock hle (n := d * memsz) (by omega)
  have htail : (bs.drop ((s + c) * memsz)).take (d * memsz) = l.flatten.drop ((s + c) * memsz) := by
    rw [List.prefix_iff_eq_take.mp hpre, hflat, hd, ← hsplit, List.drop_take, Nat.add_sub_cancel_left]
  have hfront : bs.take (s * memsz) = l.flatten.take (s * memsz) := by
    rw [List.prefix_iff_eq_take.mp hpre, List.take_take, hflat, hd, Nat.min_eq_left (by omega)]
  have htlen : (l.flatten.drop ((s + c) * memsz)).length = d * memsz := by
    rw [List.length_drop, hflat, hd]
    omega
  rw [htail] at inv₁
  have hcontents := inv₁.contents (Store.alloc_self ..)
  rw [length_overwrite (by rw [htlen]; omega), hbs] at hcontents
  dsimp only at hcontents
  refine ⟨_, _, heq, ?_, ?_, rfl⟩
  · unfold HeapState.afterVec
    dsimp only
    obtain ⟨A, L, k, -⟩ := inv.held
    rw [hcontents, Store.release, Store.alloc, Function.update_idem, HeapState.after,
      k.frames.heldAfter_eq w]
    exact inv₁
  · refine ⟨fun e' he' => ?_, ?_, ?_, hsize, _, length_bytesFrom .., ?_,
      .inr ⟨hnull, hc, Store.alloc_self ..⟩⟩
    · rcases List.mem_append.mp he' with he' | he'
      · exact hv.elements e' (List.mem_of_mem_take he')
      · exact hv.elements e' (List.mem_of_mem_drop he')
    · show v.length - c = ((l.take s ++ l.drop (s + c)).length : Int)
      rw [List.length_append, List.length_take, List.length_drop]
      omega
    · show v.length - c ≤ v.capacity
      omega
    · dsimp only
      rw [hcontents, List.flatten_append, take_flatten hv.elements, drop_flatten hv.elements,
        overwrite, hfront]
      exact List.prefix_append _ _

/-- An element is where the code looks for it. -/
theorem HeapInv.element (inv : HeapInv x) (hv : HoldsList memsz x.store v l) (hmem : 0 < memsz)
    (hn : l[n]? = some e) :
    bytesFrom x.lib.machine.mem (physical ((v.data + n * memsz) % 2 ^ 64)) memsz = e := by
  have hnat := hv.length
  have hroom := hv.room
  have hlt := (List.getElem?_eq_some_iff.mp hn).1
  have he : e.length = memsz := hv.elements e (List.mem_of_getElem? hn)
  have hflat := length_flatten_elements hv.elements
  obtain ⟨bs, -, ⟨rest, hpre⟩, ⟨-, hc⟩ | ⟨-, -, hblock⟩⟩ := hv.block
  · omega
  obtain ⟨-, hhigh⟩ := inv.window hblock
  have hend : n * memsz + memsz ≤ l.length * memsz := by
    rw [← Nat.succ_mul]
    exact Nat.mul_le_mul_right _ hlt
  have hlen : l.length * memsz ≤ bs.length := by
    rw [← hpre, List.length_append, hflat]
    exact Nat.le_add_right _ _
  rw [Nat.mod_eq_of_lt (by omega), inv.byte_at hblock (by omega), ← he]
  refine bytesFrom_eq fun j b hj => ?_
  have hje := (List.getElem?_eq_some_iff.mp hj).1
  have hbyte := getElem?_bytesFrom x.lib.machine.mem (physical v.data) (i := n * memsz + j)
    (show n * memsz + j < bs.length by omega)
  rw [inv.contents hblock, ← hpre, List.getElem?_append_left (by omega),
    getElem?_flatten_elements hv.elements hn hje, hj] at hbyte
  rw [Nat.add_assoc, he]
  exact (Option.some.inj hbyte).symm

theorem HeapInv.findLoop (inv : HeapInv x) (hv : HoldsList memsz x.store v l) (hmem : 0 < memsz)
    (hn : i + n = l.length) :
    findLoopHeap memsz x.lib v.data e n i = i + (l.drop i).idxOf e := by
  induction n generalizing i with
  | zero =>
    rw [List.drop_of_length_le (by omega)]
    rfl
  | succ n ih =>
    have hi : i < l.length := by omega
    rw [findLoopHeap, inv.element hv hmem (List.getElem?_eq_getElem hi),
      List.drop_eq_getElem_cons hi]
    by_cases h : l[i] = e
    · rw [if_pos h, List.idxOf_cons_eq _ h, Nat.add_zero]
    · rw [if_neg h, ih (by omega), List.idxOf_cons_ne _ h]
      omega

/-- **`vec_find`** finds the first occurrence. -/
theorem HeapInv.vecFind (inv : HeapInv x) (hv : HoldsList memsz x.store v l) (hmem : 0 < memsz) :
    vecFindHeap memsz x.lib v e = if e ∈ l then (l.idxOf e : Int) else -1 := by
  have hnat := hv.length
  have hloop := inv.findLoop (e := e) hv hmem (show 0 + v.length.toNat = l.length by omega)
  rw [List.drop_zero, Nat.zero_add] at hloop
  unfold vecFindHeap
  rw [hloop]
  dsimp only
  by_cases hin : e ∈ l
  · have hlt := List.idxOf_lt_length_of_mem hin
    rw [if_pos hin, if_neg (by omega)]
  · rw [if_neg hin, List.idxOf_eq_length hin, if_pos hnat.symm]

/-- **`vec_remove`** takes the first occurrence out. -/
theorem HeapInv.vecRemove (inv : HeapInv x) (hv : HoldsList memsz x.store v l) (hmem : 0 < memsz)
    (hin : e ∈ l) :
    ∃ h' v', vecRemoveHeap memsz x.lib v e = some (h', v') ∧
      HeapInv (x.afterVec memsz v h' v') ∧
      HoldsList memsz (x.afterVec memsz v h' v').store v' (l.erase e) ∧ v'.data = v.data := by
  have hlt := List.idxOf_lt_length_of_mem hin
  have hcut : l.take (l.idxOf e) ++ l.drop (l.idxOf e + 1) = l.erase e := by
    rw [← List.eraseIdx_eq_take_drop_succ, List.erase_eq_eraseIdx_of_idxOf rfl]
  obtain ⟨h', v', hret, hinv, hholds, hdata⟩ :=
    inv.vecSplice (s := l.idxOf e) (c := 1) hv hmem hlt (by omega)
  refine ⟨h', v', ?_, hinv, hcut ▸ hholds, hdata⟩
  unfold vecRemoveHeap
  rw [inv.vecFind hv hmem, if_pos hin]
  dsimp only
  rw [if_pos (by omega)]
  exact hret

/-- `vec_remove` of what is not there. -/
theorem HeapInv.vecRemove_absent (inv : HeapInv x) (hv : HoldsList memsz x.store v l)
    (hmem : 0 < memsz) (hin : e ∉ l) : vecRemoveHeap memsz x.lib v e = some (x.lib, v) := by
  unfold vecRemoveHeap
  rw [inv.vecFind hv hmem, if_neg hin]
  rfl

/-! ### Several vectors, and other clients -/

section World

variable {ι : Type} [DecidableEq ι]

/-- Vectors with the lists they stand for. -/
structure VecWorld (ι : Type) where
  heap : HeapState
  vecs : ι → PtrVec
  lists : ι → List (List (BitVec 8))

/-- The block that a call is given. -/
def HeapCall.subject : HeapCall → Nat
  | .realloc p _ _ => p
  | .free p => p
  | .write p _ _ => p
  | _ => 0

/-- A step: an operation on one vector, or a call of somebody else, who is given no block of
a vector. -/
inductive VecStep (memsz : ι → Nat) (w : VecWorld ι) : VecWorld ι → Prop
  | push {i : ι} {e : List (BitVec 8)} {h' : LibAlloc} {v' : PtrVec} (he : e.length = memsz i)
      (hgrow : CanGrow (memsz i) w.heap.lib (w.vecs i))
      (hret : Returns (fun fuel => vecPushHeap (memsz i) fuel w.heap.lib (w.vecs i) e) (h', v')) :
      VecStep memsz w ⟨w.heap.afterVec (memsz i) (w.vecs i) h' v', Function.update w.vecs i v',
        Function.update w.lists i (w.lists i ++ [e])⟩
  | splice {i : ι} {s c : Nat} {h' : LibAlloc} {v' : PtrVec}
      (hin : s + c ≤ (w.lists i).length) (hpos : 0 < (w.lists i).length)
      (hret : vecSpliceHeap (memsz i) w.heap.lib (w.vecs i) s c = some (h', v')) :
      VecStep memsz w ⟨w.heap.afterVec (memsz i) (w.vecs i) h' v', Function.update w.vecs i v',
        Function.update w.lists i ((w.lists i).take s ++ (w.lists i).drop (s + c))⟩
  | remove {i : ι} {e : List (BitVec 8)} {h' : LibAlloc} {v' : PtrVec} (hin : e ∈ w.lists i)
      (hret : vecRemoveHeap (memsz i) w.heap.lib (w.vecs i) e = some (h', v')) :
      VecStep memsz w ⟨w.heap.afterVec (memsz i) (w.vecs i) h' v', Function.update w.vecs i v',
        Function.update w.lists i ((w.lists i).erase e)⟩
  | deinit {i : ι} {h' : LibAlloc}
      (hret : Returns (fun fuel => free fuel w.heap.lib (w.vecs i).data) h') :
      VecStep memsz w ⟨w.heap.after h' (w.heap.store.release (w.vecs i).data),
        Function.update w.vecs i ⟨0, 0, 0⟩, Function.update w.lists i []⟩
  | client {c : HeapCall} {y : HeapState} (hstep : HeapStep w.heap c y)
      (hc : ∀ i, (w.vecs i).data ≠ 0 → c.subject ≠ (w.vecs i).data) :
      VecStep memsz w ⟨y, w.vecs, w.lists⟩

/-- From boot on; every vector is new. -/
inductive VecReach (memsz : ι → Nat) : VecWorld ι → Prop
  | boot {s : Machine} (hpmm : PmmOk s) (hdirect : s.highestPage < 2 ^ 47) :
      VecReach memsz ⟨bootHeap s, fun _ => ⟨0, 0, 0⟩, fun _ => []⟩
  | step {w w' : VecWorld ι} (hw : VecReach memsz w) (hstep : VecStep memsz w w') : VecReach memsz w'

/-- Every vector holds its list, and no two are in one block. -/
structure VecInv (memsz : ι → Nat) (w : VecWorld ι) : Prop where
  heap : HeapInv w.heap
  holds : ∀ i, HoldsList (memsz i) w.heap.store (w.vecs i) (w.lists i)
  apart : ∀ {i j}, i ≠ j → (w.vecs i).data ≠ 0 → (w.vecs i).data ≠ (w.vecs j).data

variable {size : ι → Nat} {w w' : VecWorld ι} {k : ι}

theorem HoldsList.live (hv : HoldsList memsz σ v l) (h : v.data ≠ 0) : σ v.data ≠ none := by
  obtain ⟨bs, -, -, ⟨h0, -⟩ | ⟨-, -, hbs⟩⟩ := hv.block
  · exact absurd h0 h
  · rw [hbs]
    exact Option.some_ne_none bs

/-- What is asked of an operation on one vector: it leaves every other live block alone. -/
theorem VecInv.replace (inv : VecInv size w) {y : HeapState} {v' : PtrVec}
    {l' : List (List (BitVec 8))} (hy : HeapInv y) (hv : HoldsList (size k) y.store v' l')
    (hplace : v'.data = 0 ∨ v'.data = (w.vecs k).data ∨ w.heap.store v'.data = none)
    (hkeep : ∀ q, q ≠ (w.vecs k).data → q ≠ v'.data → y.store q = w.heap.store q) :
    VecInv size ⟨y, Function.update w.vecs k v', Function.update w.lists k l'⟩ := by
  -- the block of another vector is neither the old one nor the new one
  have hother : ∀ {j}, j ≠ k → (w.vecs j).data ≠ 0 →
      (w.vecs j).data ≠ (w.vecs k).data ∧ (w.vecs j).data ≠ v'.data := by
    intro j hj h0
    refine ⟨inv.apart hj h0, fun he => ?_⟩
    rcases hplace with hnull | hsame | hnone
    · exact h0 (he.trans hnull)
    · exact inv.apart hj h0 (he.trans hsame)
    · exact (inv.holds j).live h0 (he ▸ hnone)
  refine ⟨hy, fun j => ?_, fun {i j} hij h0 => ?_⟩
  · by_cases hj : j = k
    · subst hj
      simpa only [Function.update_self] using hv
    · simp only [Function.update_of_ne hj]
      exact (inv.holds j).congr fun h0 => hkeep _ (hother hj h0).1 (hother hj h0).2
  · by_cases hi : i = k
    · subst hi
      simp only [Function.update_self, Function.update_of_ne hij.symm] at h0 ⊢
      intro he
      exact (hother hij.symm (he ▸ h0)).2 he.symm
    · simp only [Function.update_of_ne hi] at h0 ⊢
      by_cases hj : j = k
      · subst hj
        rw [Function.update_self]
        exact (hother hi h0).2
      · rw [Function.update_of_ne hj]
        exact inv.apart hij h0

/-- A call changes the block it is given, and a new one. -/
theorem HeapStep.keeps {c : HeapCall} {y : HeapState} (hstep : HeapStep x c y) (inv : HeapInv x)
    {q : Nat} (hq : x.store q ≠ none) (hc : c.subject ≠ q) : y.store q = x.store q := by
  have hnew : ∀ {r m : Nat}, x.store.heap.Fresh r m → q ≠ r := by
    rintro r m hfresh rfl
    exact hq (Option.map_eq_none_iff.mp hfresh.unused)
  cases hstep with
  | malloc hreq hroom hret =>
      obtain ⟨p, h', hret', -, hfresh, -⟩ := inv.malloc hreq hroom
      cases hret.unique hret'
      exact Store.alloc_ne _ _ (hnew hfresh)
  | calloc hreq hint hroom hret =>
      obtain ⟨p, h', hret', -, hfresh, -⟩ := inv.calloc hreq hint hroom
      cases hret.unique hret'
      exact Store.alloc_ne _ _ (hnew hfresh)
  | realloc hp hold hpos hint hroom hret =>
      obtain ⟨r, h', cs, hret', -, -, hfresh, -⟩ := inv.realloc hp hold hpos hint hroom
      cases hret.unique hret'
      exact (Store.release_ne _ hc.symm).trans (Store.alloc_ne _ _ (hnew hfresh))
  | reallocNull hpos hreq hroom hret =>
      obtain ⟨p, h', hret', -, hfresh, -⟩ := inv.malloc hreq hroom
      simp only [realloc_null _ _ hpos] at hret
      cases hret.unique hret'
      exact Store.alloc_ne _ _ (hnew hfresh)
  | reallocZero hp hret => exact Store.release_ne _ hc.symm
  | free hp hret => exact Store.release_ne _ hc.symm
  | write hp hi =>
      rw [Store.write_eq hp]
      exact Store.alloc_ne _ _ hc.symm
  | others hu => rfl

/-- **One step.** -/
theorem VecStep.inv (hsize : ∀ i, 0 < size i) (hstep : VecStep size w w') (inv : VecInv size w) :
    VecInv size w' := by
  cases hstep with
  | @push i e h' v' he hgrow hret =>
      obtain ⟨h₁, v₁, hret₁, hy, hv, hplace⟩ :=
        inv.heap.vecPush (inv.holds i) (hsize i) he hgrow
      cases hret.unique hret₁
      exact inv.replace hy hv (.inr hplace) fun q h1 h2 =>
        (Store.alloc_ne _ _ h2).trans (Store.release_ne _ h1)
  | @splice i s c h' v' hin hpos hret =>
      obtain ⟨h₁, v₁, hret₁, hy, hv, hplace⟩ :=
        inv.heap.vecSplice (inv.holds i) (hsize i) hin hpos
      cases hret.symm.trans hret₁
      exact inv.replace hy hv (.inr (.inl hplace)) fun q h1 h2 =>
        (Store.alloc_ne _ _ h2).trans (Store.release_ne _ h1)
  | @remove i e h' v' hin hret =>
      obtain ⟨h₁, v₁, hret₁, hy, hv, hplace⟩ :=
        inv.heap.vecRemove (inv.holds i) (hsize i) hin
      cases hret.symm.trans hret₁
      exact inv.replace hy hv (.inr (.inl hplace)) fun q h1 h2 =>
        (Store.alloc_ne _ _ h2).trans (Store.release_ne _ h1)
  | @deinit i h' hret =>
      have hlive : (w.vecs i).data = 0 ∨ w.heap.store (w.vecs i).data ≠ none := by
        by_cases h0 : (w.vecs i).data = 0
        · exact .inl h0
        · exact .inr ((inv.holds i).live h0)
      obtain ⟨h₁, hret₁, hy, -⟩ := inv.heap.free_any hlive
      cases hret.unique hret₁
      exact inv.replace hy (.init _ _) (.inl rfl) fun q h1 _ => Store.release_ne _ h1
  | client hstep hc =>
      exact ⟨(hstep.inv inv.heap).1, fun i => (inv.holds i).congr fun h0 =>
        hstep.keeps inv.heap ((inv.holds i).live h0) (hc i h0), inv.apart⟩

/-- **Every run.** -/
theorem VecReach.inv (hsize : ∀ i, 0 < size i) (hw : VecReach size w) : VecInv size w := by
  induction hw with
  | boot hpmm hdirect =>
      exact ⟨bootHeap_inv hpmm hdirect, fun i => .init _ _, fun _ h0 => absurd rfl h0⟩
  | step _ hstep ih => exact hstep.inv hsize ih

/-! ### What holds in every run -/

/-- **Every vector holds its list.**  In every state that operations on the vectors, and
calls of others who have blocks, lead to, `length` is that of the list, and each byte of
`data[n]` is that of its `n`-th element. -/
theorem vectors_hold_lists (hsize : ∀ i, 0 < size i) (hw : VecReach size w) (i : ι) :
    (w.vecs i).length = (w.lists i).length ∧ ∀ n e, (w.lists i)[n]? = some e →
      e.length = size i ∧ ∀ j b, e[j]? = some b →
        w.heap.lib.load ((w.vecs i).data + (n * size i + j)) 1 = b.toNat := by
  have inv := hw.inv hsize
  have hv := inv.holds i
  refine ⟨hv.length, fun n e hn => ?_⟩
  have hmem : e ∈ w.lists i := List.mem_of_getElem? hn
  refine ⟨hv.elements e hmem, fun j b hj => ?_⟩
  have hflat := getElem?_flatten_elements hv.elements hn (List.getElem?_eq_some_iff.mp hj).1
  rw [hj] at hflat
  obtain ⟨bs, hbs, ⟨rest, hpre⟩, ⟨-, hc⟩ | ⟨-, -, hblock⟩⟩ := hv.block
  · -- without a block there are no elements
    have hnat := hv.length
    have hroom := hv.room
    have hlt := (List.getElem?_eq_some_iff.mp hn).1
    omega
  · refine inv.heap.load hblock ?_
    rw [← hpre, List.getElem?_append_left (List.getElem?_eq_some_iff.mp hflat).1, hflat]

/-- **The operations end**, and do not fail: on every vector, `vec_push` if a larger block
can be had when it needs one, `vec_splice` of a range inside, `vec_remove` of anything, which
without an occurrence leaves all as it is, and `vec_deinit`. -/
theorem vector_operations_end (hsize : ∀ i, 0 < size i) (hw : VecReach size w) (i : ι) :
    (∀ e, e.length = size i → CanGrow (size i) w.heap.lib (w.vecs i) →
      ∃ h' v', Returns (fun fuel => vecPushHeap (size i) fuel w.heap.lib (w.vecs i) e) (h', v') ∧
        v'.length = (w.vecs i).length + 1) ∧
    (∀ s c : Nat, s + c ≤ (w.lists i).length → 0 < (w.lists i).length →
      ∃ h' v', vecSpliceHeap (size i) w.heap.lib (w.vecs i) s c = some (h', v') ∧
        v'.length = (w.vecs i).length - c) ∧
    (∀ e, ∃ h' v', vecRemoveHeap (size i) w.heap.lib (w.vecs i) e = some (h', v') ∧
      if e ∈ w.lists i then v'.length = (w.vecs i).length - 1
      else h' = w.heap.lib ∧ v' = w.vecs i) ∧
    ∃ h', Returns (fun fuel => free fuel w.heap.lib (w.vecs i).data) h' := by
  have inv := hw.inv hsize
  have hv := inv.holds i
  have hnat := hv.length
  refine ⟨fun e he hgrow => ?_, fun s c hin hpos => ?_, fun e => ?_, ?_⟩
  · obtain ⟨h', v', hret, -, hv', -⟩ := inv.heap.vecPush hv (hsize i) he hgrow
    refine ⟨h', v', hret, ?_⟩
    rw [hv'.length, List.length_append, List.length_singleton, hnat, Int.natCast_succ]
  · obtain ⟨h', v', hret, -, hv', -⟩ := inv.heap.vecSplice hv (hsize i) hin hpos
    refine ⟨h', v', hret, ?_⟩
    rw [hv'.length, List.length_append, List.length_take, List.length_drop]
    omega
  · by_cases hin : e ∈ w.lists i
    · obtain ⟨h', v', hret, -, hv', -⟩ := inv.heap.vecRemove hv (hsize i) hin
      refine ⟨h', v', hret, ?_⟩
      have hpos := List.length_pos_of_mem hin
      rw [if_pos hin, hv'.length, List.length_erase_of_mem hin]
      omega
    · refine ⟨_, _, inv.heap.vecRemove_absent hv (hsize i) hin, ?_⟩
      rw [if_neg hin]
      exact ⟨rfl, rfl⟩
  · have hlive : (w.vecs i).data = 0 ∨ w.heap.store (w.vecs i).data ≠ none := by
      by_cases h0 : (w.vecs i).data = 0
      · exact .inl h0
      · exact .inr (hv.live h0)
    obtain ⟨h', hret, -⟩ := inv.heap.free_any hlive
    exact ⟨h', hret⟩

end World

/-! ### A vector of bytes -/

theorem roomy_vecs :
    VecReach (fun _ : Unit => 1) ⟨bootHeap roomy, fun _ => ⟨0, 0, 0⟩, fun _ => []⟩ :=
  .boot roomy_pmmOk (by decide)

theorem roomy_canGrow : CanGrow 1 (bootHeap roomy).lib ⟨0, 0, 0⟩ :=
  fun _ => ⟨by decide, roomy_room⟩

theorem vector_operations_end_roomy : ∃ h' v',
    Returns (fun fuel => vecPushHeap 1 fuel (bootHeap roomy).lib ⟨0, 0, 0⟩ [7#8]) (h', v') ∧
      v'.length = 0 + 1 :=
  (vector_operations_end (fun _ => Nat.one_pos) roomy_vecs ()).1 [7#8] rfl roomy_canGrow

/-- The vector with one byte. -/
theorem vectors_hold_lists_roomy : ∃ w : VecWorld Unit, w.lists () = [[7#8]] ∧
    w.heap.lib.load ((w.vecs ()).data + (0 * 1 + 0)) 1 = (7#8).toNat := by
  obtain ⟨h', v', hret, -⟩ := roomy_reach.inv.vecPush (HoldsList.init 1 _) Nat.one_pos
    (show [7#8].length = 1 from rfl) roomy_canGrow
  obtain ⟨w, hw, hlists⟩ : ∃ w, VecReach (fun _ : Unit => 1) w ∧ w.lists () = [[7#8]] :=
    ⟨_, roomy_vecs.step (.push (i := ()) (e := [7#8]) rfl roomy_canGrow hret), by
      simp only [Function.update_self, List.nil_append]⟩
  have hfirst : (w.lists ())[0]? = some [7#8] := by rw [hlists]; rfl
  exact ⟨w, hlists, ((vectors_hold_lists (fun _ => Nat.one_pos) hw ()).2 0 _ hfirst).2 0 _ rfl⟩

end BestOS
