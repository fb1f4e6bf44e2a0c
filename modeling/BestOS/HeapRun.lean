/-
BestOS/HeapRun.lean

The heap over whole runs.

In a run the client calls `malloc`, `calloc`, `realloc` and `free` and writes into its
live blocks, and in between the rest of the kernel does what it likes outside the frames
of the heap.  Every state reached satisfies `HeapInv` (`HeapReach.inv`), so

* a live block holds what the client has put there (`heap_contents`);
* live blocks do not meet and lie in marked frames (`heap_blocks`);
* every call ends, with what it is called for (`malloc_ends`, `free_ends`, `calloc_ends`,
  `realloc_ends`);
* no call touches a frame that somebody else has marked (`heap_spares`);
* with nothing live, what the heap still holds is a few whole runs (`heap_idle`).
-/
import BestOS.HeapInv

namespace BestOS

open ByteMemory BlockHeap BlockStore BoundaryTags LinkedList Fuel

inductive HeapCall
  | malloc (size p : Nat)
  | calloc (nobj size p : Nat)
  | realloc (p size r : Nat)
  | free (p : Nat)
  | write (p i : Nat) (v : BitVec 8)
  | others

/-- What `realloc` puts into the new block: the old bytes, and then what happens to be
there. -/
def carried (h' : LibAlloc) (r size : Nat) (bs : List (BitVec 8)) : List (BitVec 8) :=
  bs.take size ++ bytesFrom h'.machine.mem (physical r + bs.length) (size - bs.length)

/-- One call, and what the client believes of its blocks afterwards.  A request is one that
can be served (`Request`), and there is room for it: a block in the lists, or free frames for
a run (`Room`).  The sizes that `calloc` and `realloc` are given fit an `int`; a block given
back is live. -/
inductive HeapStep (x : HeapState) : HeapCall → HeapState → Prop
  | malloc {size p h'} (hreq : Request size) (hroom : Room x.lib size)
      (hret : Returns (fun fuel => malloc fuel x.lib size) (p, h')) :
      HeapStep x (.malloc size p)
        (x.after h' (x.store.alloc p (bytesFrom h'.machine.mem (physical p) size)))
  | calloc {nobj size p h'} (hreq : Request (nobj * size)) (hint : nobj * size < 2 ^ 31)
      (hroom : Room x.lib (nobj * size))
      (hret : Returns (fun fuel => LibAlloc.calloc fuel x.lib nobj size) (p, h')) :
      HeapStep x (.calloc nobj size p)
        (x.after h' (x.store.alloc p (List.replicate (nobj * size) 0#8)))
  | realloc {p size r h' bs} (hp : x.store p = some bs) (hold : bs.length < 2 ^ 31)
      (hpos : 0 < size) (hint : size < 2 ^ 31) (hroom : Room x.lib size)
      (hret : Returns (fun fuel => LibAlloc.realloc fuel x.lib p size) (r, h')) :
      HeapStep x (.realloc p size r)
        (x.after h' ((x.store.alloc r (carried h' r size bs)).release p))
  | reallocNull {size r h'} (hpos : 0 < size) (hreq : Request size) (hroom : Room x.lib size)
      (hret : Returns (fun fuel => LibAlloc.realloc fuel x.lib 0 size) (r, h')) :
      HeapStep x (.realloc 0 size r)
        (x.after h' (x.store.alloc r (bytesFrom h'.machine.mem (physical r) size)))
  | reallocZero {p r h'} (hp : p = 0 ∨ x.store p ≠ none)
      (hret : Returns (fun fuel => LibAlloc.realloc fuel x.lib p 0) (r, h')) :
      HeapStep x (.realloc p 0 r) (x.after h' (x.store.release p))
  | free {p h'} (hp : p = 0 ∨ x.store p ≠ none)
      (hret : Returns (fun fuel => free fuel x.lib p) h') :
      HeapStep x (.free p) (x.after h' (x.store.release p))
  | write {p i v bs} (hp : x.store p = some bs) (hi : i < bs.length) :
      HeapStep x (.write p i v) ⟨x.lib.store (p + i) 1 v.toNat, x.store.write p i v, x.owned⟩
  | others {s'} (hu : Undisturbed x.owned x.lib.machine s') :
      HeapStep x .others ⟨{ x.lib with machine := s' }, x.store, x.owned⟩

/-- Before the first call: the statics are zero, and there is no block. -/
def bootHeap (s : Machine) : HeapState :=
  ⟨⟨s, false, fun _ => 0, fun _ => 0⟩, fun _ => none, fun _ => False⟩

inductive HeapReach : HeapState → Prop
  | boot {s} (hpmm : PmmOk s) (hdirect : s.highestPage < 2 ^ 47) : HeapReach (bootHeap s)
  | step {x c y} (hx : HeapReach x) (hstep : HeapStep x c y) : HeapReach y

variable {x y : HeapState} {c : HeapCall} {s : Machine} {p q i size nobj : Nat}
  {bs : List (BitVec 8)}

/-! ### The invariant -/

theorem bootHeap_inv (hpmm : PmmOk s) (hdirect : s.highestPage < 2 ^ 47) : HeapInv (bootHeap s) := by
  have htiled : Arena.Tiled TAG_SIZE fun _ => none := by
    constructor
    all_goals
      intros
      contradiction
  refine ⟨.inr ⟨rfl, rfl, fun _ => rfl⟩, fun _ => none, fun _ => [], ⟨⟨htiled, ?_, ?_, fun _ => rfl,
    fun _ => trivial, fun _ => List.nodup_nil, ?_, ?_⟩, ⟨?_, ?_, fun _ => rfl, fun _ => ?_⟩,
    ⟨?_, fun k => ?_, fun hk => hk.elim, fun hk => hk.elim, hpmm, hdirect⟩⟩, ⟨?_, ?_, ?_⟩⟩
  · intro a p h
    cases h
  · intro a p h
    cases h
  · intro a i
    simp
  · intro a p i h
    cases h
  · intro a p q h
    cases h
  · intro a p i h
    cases h
  · change (0 : Int) ≤ MAXCOMPLETE
    decide
  · intro a p h
    cases h
  · simp [bootHeap]
  · intro p bs h
    cases h
  · rintro a n ⟨q, hq, -⟩
    cases hq
  · intro p bs h
    cases h

/-- NULL is given back without effect. -/
theorem HeapInv.free_null (inv : HeapInv x) : x.after x.lib (x.store.release 0) = x := by
  obtain ⟨A, L, c, t⟩ := inv.held
  rw [HeapState.after, Store.release_none inv.null, c.frames.heldAfter_eq (KeptWithin.refl _ _)]

theorem HeapInv.write (inv : HeapInv x) (hp : x.store p = some bs) (hi : i < bs.length)
    (v : BitVec 8) :
    HeapInv ⟨x.lib.store (p + i) 1 v.toNat, x.store.write p i v, x.owned⟩ ∧
    KeptWithin x.owned x.lib.machine (x.lib.store (p + i) 1 v.toNat).machine := by
  have hphys := inv.byte_at hp hi
  have hold := inv.contents hp
  have hnew : bytesFrom (put x.lib.machine.mem (physical p + i) v) (physical p) (bs.set i v).length
      = bs.set i v := by
    refine bytesFrom_eq fun j w hj => ?_
    rw [List.getElem?_set] at hj
    split at hj
    · next hij =>
        subst hij
        rw [put_same]
        exact Option.some.inj hj
    · next hij =>
        have hjb : j < bs.length := (List.getElem?_eq_some_iff.mp hj).1
        have hbyte := getElem?_bytesFrom x.lib.machine.mem (physical p) hjb
        rw [hold, hj] at hbyte
        rw [put_ne (by omega)]
        exact (Option.some.inj hbyte).symm
  have hfill := inv.fill hp (m := put x.lib.machine.mem (physical p + i) v) fun z hz =>
    put_ne (by omega)
  rw [List.length_set] at hnew
  rw [LibAlloc.store_one, hphys, Store.write_eq hp, BitVec.ofNat_toNat, BitVec.setWidth_eq]
  rwa [hnew] at hfill

theorem realloc_null (fuel : Nat) (h : LibAlloc) (hpos : 0 < size) :
    LibAlloc.realloc fuel h 0 size = malloc fuel h size := by
  rw [LibAlloc.realloc, if_neg hpos.ne', if_pos rfl]

theorem realloc_zero_returns {h h' : LibAlloc} (hret : Returns (fun fuel => free fuel h p) h') :
    Returns (fun fuel => LibAlloc.realloc fuel h p 0) (0, h') :=
  hret.mono fun fuel hf => by
    have hf' : free fuel h p = some h' := hf
    change LibAlloc.realloc fuel h p 0 = _
    rw [LibAlloc.realloc, if_pos rfl, hf', Option.map_some]

/-- `free(p)`, for NULL and for a live block. -/
theorem HeapInv.free_any (inv : HeapInv x) (hp : p = 0 ∨ x.store p ≠ none) :
    ∃ h', Returns (fun fuel => BestOS.free fuel x.lib p) h' ∧
      HeapInv (x.after h' (x.store.release p)) ∧ Spares x.owned x.lib.machine h'.machine := by
  by_cases hlive : x.store p = none
  · have hp0 := hp.resolve_right (not_not.mpr hlive)
    subst hp0
    refine ⟨x.lib, Enough.of_forall fun fuel => if_pos rfl, ?_, (KeptWithin.refl _ _).spares⟩
    rwa [inv.free_null]
  · obtain ⟨bs, hbs⟩ := Option.ne_none_iff_exists'.mp hlive
    obtain ⟨h', hret, inv', sp, -⟩ := inv.free hbs
    exact ⟨h', hret, inv', sp⟩

/-- **One step.** -/
theorem HeapStep.inv (hstep : HeapStep x c y) (inv : HeapInv x) :
    HeapInv y ∧ (c ≠ .others → Spares x.owned x.lib.machine y.lib.machine) := by
  cases hstep with
  | malloc hreq hroom hret =>
      obtain ⟨p, h', hret', inv', -, sp, -⟩ := inv.malloc hreq hroom
      cases hret.unique hret'
      exact ⟨inv', fun _ => sp⟩
  | calloc hreq hint hroom hret =>
      obtain ⟨p, h', hret', inv', -, sp⟩ := inv.calloc hreq hint hroom
      cases hret.unique hret'
      exact ⟨inv', fun _ => sp⟩
  | realloc hp hold hpos hint hroom hret =>
      obtain ⟨r, h', cs, hret', inv', hcs, -, sp⟩ := inv.realloc hp hold hpos hint hroom
      cases hret.unique hret'
      rw [hcs] at inv'
      exact ⟨inv', fun _ => sp⟩
  | reallocNull hpos hreq hroom hret =>
      obtain ⟨p, h', hret', inv', -, sp, -⟩ := inv.malloc hreq hroom
      simp only [realloc_null _ _ hpos] at hret
      cases hret.unique hret'
      exact ⟨inv', fun _ => sp⟩
  | reallocZero hp hret =>
      obtain ⟨h', hret', inv', sp⟩ := inv.free_any hp
      cases hret.unique (realloc_zero_returns hret')
      exact ⟨inv', fun _ => sp⟩
  | free hp hret =>
      obtain ⟨h', hret', inv', sp⟩ := inv.free_any hp
      cases hret.unique hret'
      exact ⟨inv', fun _ => sp⟩
  | write hp hi =>
      obtain ⟨inv', w⟩ := inv.write hp hi _
      exact ⟨inv', fun _ => w.spares⟩
  | others hu => exact ⟨inv.others hu, fun hne => absurd rfl hne⟩

/-- **Every run.** -/
theorem HeapReach.inv (hx : HeapReach x) : HeapInv x := by
  induction hx with
  | boot hpmm hdirect => exact bootHeap_inv hpmm hdirect
  | step _ hstep ih => exact (hstep.inv ih).1

/-! ### A small heap -/

/-- 64 pages, of which the one with the bitmap and the one behind it are in use. -/
def roomy : Machine where
  mem x := if x = 0 then 3#8 else 0#8
  highestPage := 0x40000
  usablePages := 62
  bitmap := ⟨0, 16⟩

theorem roomy_pmmOk : PmmOk roomy := by
  refine ⟨by decide, by decide, fun a ha => ?_⟩
  obtain ⟨h1, h2⟩ := ha
  have hbyte : a / PAGE_SIZE = 0 := Nat.div_eq_of_lt (h2.trans (by decide))
  rw [hbyte]
  exact ⟨by decide, by decide⟩

theorem roomy_reach : HeapReach (bootHeap roomy) := .boot roomy_pmmOk (by decide)

theorem roomy_room : Room (bootHeap roomy).lib 1 :=
  fun _ _ => ⟨by decide +kernel, 2, by decide +kernel, by decide +kernel⟩

theorem one_request : Request 1 := by
  have htag : TAG_SIZE = 48 := rfl
  have hpage : L_PAGE_SIZE = 4096 := rfl
  unfold Request
  omega

/-- `malloc(1)` leaves room for another run. -/
theorem oneBlock : ∃ x p bs, HeapStep (bootHeap roomy) (.malloc 1 p) x ∧ x.store p = some bs ∧
    bs.length = 1 ∧ Room x.lib 2 := by
  obtain ⟨p, h', hret, -, -, sp, hmarks⟩ := roomy_reach.inv.malloc one_request roomy_room
  refine ⟨_, p, _, .malloc one_request roomy_room hret, Store.alloc_self .., length_bytesFrom ..,
    fun _ _ => ?_⟩
  have hbitmap : h'.machine.bitmap = ⟨0, 16⟩ := sp.bitmap
  have hhigh : h'.machine.highestPage = 0x40000 := sp.highest
  have hroomy : ∀ k < 64, pageUsed roomy k = decide (k < 2) := by decide
  have hmarked : ∀ k < 64, MarkedUsed roomy k ↔ k < 2 := fun k hk => by
    rw [MarkedUsed, hroomy k hk, decide_eq_true_eq]
    exact and_iff_right (show k < 128 by omega)
  -- page 2 or page 18 is the lowest free one
  obtain ⟨g, hg, hnew⟩ : ∃ g ≤ 18, ∀ k < 64, MarkedUsed h'.machine k ↔ k < g := by
    rcases hmarks with hsame | ⟨f, hlow, hfree, htook⟩
    · exact ⟨2, by omega, fun k hk => (hsame k).trans (hmarked k hk)⟩
    · have hf : f = 2 := by
        by_contra hne
        rcases Nat.lt_or_gt_of_ne hne with hlt | hgt
        · have h0 : pageUsed roomy f = false :=
            hfree f (Nat.le_refl f) (Nat.lt_add_of_pos_right (by decide))
          rw [hroomy f (by omega), decide_eq_false_iff_not] at h0
          omega
        · have h2 : pageUsed roomy 2 = true := hlow 2 hgt
          rw [hroomy 2 (by omega)] at h2
          exact absurd h2 (by decide)
      have hpages : newTagPages 1 = 16 := by decide
      refine ⟨18, Nat.le_refl _, fun k hk => (htook k).trans ?_⟩
      have hold : MarkedUsed (bootHeap roomy).lib.machine k ↔ k < 2 := hmarked k hk
      rw [hold, hf, hpages]
      omega
  have hused : ∀ k < 64, pageUsed h'.machine k = decide (k < g) := fun k hk => by
    have hk' := hnew k hk
    rw [MarkedUsed, hbitmap, and_iff_right (show k < 8 * 16 by omega)] at hk'
    rw [Bool.eq_iff_iff, hk', decide_eq_true_eq]
  have hpages : newTagPages 2 = 16 := by decide
  change RunFree h'.machine (newTagPages 2)
  rw [hpages]
  refine ⟨by rw [hbitmap], g, ?_, fun j hj => ?_⟩
  · unfold firstFree
    rw [hhigh, List.find?_range_eq_some]
    refine ⟨?_, List.mem_range.mpr (show g < 64 by omega), fun k hk => ?_⟩
    · rw [hused g (by omega)]
      simp
    · rw [hused k (by omega)]
      simpa using hk
  · rw [hhigh, hused (g + j) (by omega)]
    exact ⟨show g + j < 64 by omega, decide_eq_false (by omega)⟩

/-! ### What holds in every run -/

/-- **The client finds in its blocks what it has put there.** -/
theorem heap_contents (hx : HeapReach x) (hp : x.store p = some bs) {v : BitVec 8}
    (hi : bs[i]? = some v) : x.lib.load (p + i) 1 = v.toNat := hx.inv.load hp hi

theorem heap_contents_write : ∃ x p, HeapReach x ∧ x.store p = some [7#8] ∧
    x.lib.load (p + 0) 1 = (7#8).toNat := by
  obtain ⟨x, p, bs, hstep, hp, hlen, -⟩ := oneBlock
  obtain ⟨b, rfl⟩ := List.length_eq_one_iff.mp hlen
  have hx := (roomy_reach.step hstep).step (.write (v := 7#8) hp Nat.zero_lt_one)
  have hp' := (congrFun (Store.write_eq (i := 0) (v := 7#8) hp) p).trans (Store.alloc_self ..)
  exact ⟨_, p, hx, hp', heap_contents (i := 0) hx hp' rfl⟩

/-- **Live blocks do not meet**, and they lie in frames that are marked for the heap and do
not hold the bitmap. -/
theorem heap_blocks (hx : HeapReach x) :
    x.store.heap.Ok ∧ ∀ p bs i, x.store p = some bs → i < bs.length →
      x.owned (physical (p + i) / PAGE_SIZE) ∧
      MarkedUsed x.lib.machine (physical (p + i) / PAGE_SIZE) ∧
      ¬ InBitmap x.lib.machine (physical (p + i)) := by
  have inv := hx.inv
  refine ⟨inv.ok, fun p bs i hp hi => ?_⟩
  have hphys := inv.byte_at hp hi
  obtain ⟨A, L, core, t⟩ := inv.held
  obtain ⟨a, n, hpa, ⟨q, hq, -, rfl⟩, -, -, -, hend, hat⟩ := t.inside core.shape hp
  have hown := core.owned_of_inPiece hq (x := physical (p + i)) ⟨by omega, by omega⟩
  exact ⟨hown, core.frames.marked hown, core.frames.apart hown⟩

theorem heap_blocks_one : ∃ (x : HeapState) (p : Nat) (bs : List (BitVec 8)),
    x.store p = some bs ∧ 0 < bs.length ∧
    x.owned (physical (p + 0) / PAGE_SIZE) := by
  obtain ⟨x, p, bs, hstep, hp, hlen, -⟩ := oneBlock
  have hpos : 0 < bs.length := by omega
  exact ⟨x, p, bs, hp, hpos, ((heap_blocks (roomy_reach.step hstep)).2 p bs 0 hp hpos).1⟩

/-- **`malloc` ends**, with a block that meets no live one; it marks no frame, or the
lowest run of free ones. -/
theorem malloc_ends (hx : HeapReach x) (hreq : Request size) (hroom : Room x.lib size) :
    ∃ p h', Returns (fun fuel => malloc fuel x.lib size) (p, h') ∧ x.store.heap.Fresh p size ∧
      ((∀ k, MarkedUsed h'.machine k ↔ MarkedUsed x.lib.machine k) ∨
        TookRun x.lib.machine h'.machine (newTagPages size)) := by
  obtain ⟨p, h', hret, -, hfresh, -, hmarks⟩ := hx.inv.malloc hreq hroom
  exact ⟨p, h', hret, hfresh, hmarks⟩

theorem malloc_ends_roomy :
    ∃ p h', Returns (fun fuel => malloc fuel (bootHeap roomy).lib 1) (p, h') := by
  obtain ⟨p, h', hret, -⟩ := malloc_ends roomy_reach one_request roomy_room
  exact ⟨p, h', hret⟩

/-- **`free` ends** on every live block. -/
theorem free_ends (hx : HeapReach x) (hp : p = 0 ∨ x.store p ≠ none) :
    ∃ h', Returns (fun fuel => free fuel x.lib p) h' := by
  obtain ⟨h', hret, -⟩ := hx.inv.free_any hp
  exact ⟨h', hret⟩

theorem free_ends_one : ∃ (x : HeapState) (p : Nat) (h' : LibAlloc), x.store p ≠ none ∧
    Returns (fun fuel => free fuel x.lib p) h' := by
  obtain ⟨x, p, bs, hstep, hp, -⟩ := oneBlock
  have hlive : x.store p ≠ none := by
    rw [hp]
    exact Option.some_ne_none bs
  obtain ⟨h', hret⟩ := free_ends (roomy_reach.step hstep) (.inr hlive)
  exact ⟨x, p, h', hlive, hret⟩

/-- **`calloc` ends**, with a block of zeros. -/
theorem calloc_ends (hx : HeapReach x) (hreq : Request (nobj * size))
    (hint : nobj * size < 2 ^ 31) (hroom : Room x.lib (nobj * size)) :
    ∃ p h', Returns (fun fuel => LibAlloc.calloc fuel x.lib nobj size) (p, h') ∧
      x.store.heap.Fresh p (nobj * size) ∧ ∀ i < nobj * size, h'.load (p + i) 1 = 0 := by
  obtain ⟨p, h', hret, inv', hfresh, -⟩ := hx.inv.calloc hreq hint hroom
  refine ⟨p, h', hret, hfresh, fun i hi => ?_⟩
  exact inv'.load (Store.alloc_self ..) (List.getElem?_replicate_of_lt hi)

theorem calloc_ends_roomy : ∃ p h',
    Returns (fun fuel => LibAlloc.calloc fuel (bootHeap roomy).lib 1 1) (p, h') ∧
      h'.load (p + 0) 1 = 0 := by
  have hone : Request (1 * 1) := one_request
  obtain ⟨p, h', hret, -, hzero⟩ := calloc_ends roomy_reach hone (by decide) roomy_room
  exact ⟨p, h', hret, hzero 0 (by decide)⟩

/-- **`realloc` ends**, with a new block that begins with the bytes of the old one. -/
theorem realloc_ends (hx : HeapReach x) (hp : x.store p = some bs) (hold : bs.length < 2 ^ 31)
    (hpos : 0 < size) (hint : size < 2 ^ 31) (hroom : Room x.lib size) :
    ∃ r h', Returns (fun fuel => LibAlloc.realloc fuel x.lib p size) (r, h') ∧
      x.store.heap.Fresh r size ∧
      ∀ i, i < size → i < bs.length → h'.load (r + i) 1 = x.lib.load (p + i) 1 := by
  obtain ⟨r, h', cs, hret, inv', hcs, hfresh, -⟩ := hx.inv.realloc hp hold hpos hint hroom
  refine ⟨r, h', hret, hfresh, fun i hi hib => ?_⟩
  have hrp : r ≠ p := by
    rintro rfl
    have hunused := hfresh.unused
    rw [Store.heap_some hp] at hunused
    cases hunused
  have hbyte : bs[i]? = some bs[i] := List.getElem?_eq_getElem hib
  have hnew : cs[i]? = some bs[i] := by
    rw [hcs, List.getElem?_append_left (by rw [List.length_take]; omega), List.getElem?_take,
      if_pos hi, hbyte]
  rw [hx.inv.load hp hbyte]
  exact inv'.load ((Store.release_ne _ hrp).trans (Store.alloc_self ..)) hnew

theorem realloc_ends_one : ∃ x p r h', HeapReach x ∧
    Returns (fun fuel => LibAlloc.realloc fuel x.lib p 2) (r, h') ∧
      h'.load (r + 0) 1 = x.lib.load (p + 0) 1 := by
  obtain ⟨x, p, bs, hstep, hp, hlen, hroom⟩ := oneBlock
  have hx := roomy_reach.step hstep
  obtain ⟨r, h', hret, -, hsame⟩ := realloc_ends hx hp (by omega) (by decide) (by decide) hroom
  exact ⟨x, p, r, h', hx, hret, hsame 0 (by decide) (by omega)⟩

/-- **The heap leaves others alone.**  No call unmarks a frame, or stores into one, that is
marked and not the heap's. -/
theorem heap_spares (hx : HeapReach x) (hstep : HeapStep x c y) (hc : c ≠ .others)
    {owner : Nat → Prop} (hmarked : ∀ k, owner k → MarkedUsed x.lib.machine k)
    (hothers : ∀ k, owner k → ¬ x.owned k)
    (hbitmap : ∀ z, owner (z / PAGE_SIZE) → ¬ InBitmap x.lib.machine z) :
    Undisturbed owner x.lib.machine y.lib.machine := by
  obtain ⟨inv', hspares⟩ := hstep.inv hx.inv
  obtain ⟨A, L, core, -⟩ := inv'.held
  have sp := hspares hc
  exact ⟨sp.bitmap, sp.highest, core.frames.pmm, fun hk => sp.marked (hmarked _ hk) (hothers _ hk),
    fun {z} hz => sp.bytes (hmarked _ hz) (hothers _ hz) (hbitmap z hz)⟩

/-- `malloc(1)` leaves page 1 to those who have it. -/
theorem heap_spares_roomy : ∃ x p, HeapStep (bootHeap roomy) (.malloc 1 p) x ∧
    Undisturbed (· = 1) roomy x.lib.machine := by
  obtain ⟨x, p, bs, hstep, -⟩ := oneBlock
  refine ⟨x, p, hstep, heap_spares roomy_reach hstep (by simp) ?_ ?_ ?_⟩
  · rintro k rfl
    exact ⟨by decide, by decide⟩
  · exact fun k _ hk => hk
  · rintro z hz ⟨-, hin⟩
    have hz' : z < 16 := hin
    rw [Nat.div_eq_of_lt (hz'.trans (by decide))] at hz
    cases hz

/-- **With nothing live** every tag is that of a whole run and on the list of its size, no
list has more than `MAXCOMPLETE` of them, and the frames of the heap are theirs. -/
theorem heap_idle (hx : HeapReach x) (hidle : ∀ p, x.store p = none) :
    ∃ L : Nat → List Nat,
      (∀ i, x.lib.freePages i = (L i).headD 0 ∧
        Linked (fun a => x.lib.get a .next) (fun a => x.lib.get a .prev) 0 (L i) ∧
        x.lib.completePages i = (L i).length ∧ ((L i).length : Int) ≤ MAXCOMPLETE) ∧
      (∀ i a, a ∈ L i → x.lib.get a .splitLeft = 0 ∧ x.lib.get a .splitRight = 0 ∧
        listIndex (x.lib.get a .realSize - TAG_SIZE) = i) ∧
      ∀ k, x.owned k ↔ ∃ i, ∃ a ∈ L i, a ≤ k * PAGE_SIZE + MMAP_IO_BASE ∧
        k * PAGE_SIZE + MMAP_IO_BASE < a + x.lib.get a .realSize := by
  obtain ⟨A, L, core, t⟩ := hx.inv.held
  have sh := core.shape
  have hfree : ∀ {b q}, A b = some q → q.list ≠ none := by
    intro b q hb hl
    obtain ⟨bs, hbs⟩ := t.live ⟨q, hb, hl, rfl⟩
    rw [hidle] at hbs
    cases hbs
  have hwhole : ∀ {b q}, A b = some q → Arena.Whole q := fun hb =>
    sh.tiled.whole_of_idle core.books.coalesced hfree hb
  have hcount : ∀ i, (L i).countP (wholeAt A) = (L i).length := by
    intro i
    refine List.countP_eq_length.mpr fun a ha => ?_
    obtain ⟨q, hq, -⟩ := sh.members.mp ha
    rw [wholeAt_eq hq]
    exact decide_eq_true (hwhole hq)
  have hcomplete : ∀ i, x.lib.completePages i = (L i).length := fun i => by
    rw [core.books.counted, hcount]
  refine ⟨L, fun i => ⟨sh.heads i, sh.linked i, hcomplete i, ?_⟩, fun i a ha => ?_, fun k => ?_⟩
  · rw [← hcomplete]
    exact core.books.few i
  · obtain ⟨q, hq, hqi⟩ := sh.members.mp ha
    have htag := sh.tags hq
    rw [htag.splitLeft, htag.splitRight, htag.realSize]
    exact ⟨(hwhole hq).1, (hwhole hq).2, (core.books.placed hq hqi).symm⟩
  · rw [core.frames.owned_iff]
    constructor
    · rintro ⟨a, q, hq, hk⟩
      obtain ⟨i, hi⟩ := Option.ne_none_iff_exists'.mp (hfree hq)
      obtain ⟨hbase, hlen⟩ := sh.tiled.whole hq (hwhole hq)
      refine ⟨i, a, sh.members.mpr ⟨q, hq, hi⟩, ?_⟩
      rwa [(sh.tags hq).realSize, ← hlen, ← hbase]
    · rintro ⟨i, a, ha, hk⟩
      obtain ⟨q, hq, -⟩ := sh.members.mp ha
      obtain ⟨hbase, hlen⟩ := sh.tiled.whole hq (hwhole hq)
      refine ⟨a, q, hq, ?_⟩
      rw [(sh.tags hq).realSize] at hk
      rwa [InRun, hbase, hlen]

/-- The one block is given back. -/
theorem heap_idle_one : ∃ (x : HeapState) (L : Nat → List Nat), HeapReach x ∧
    (∀ p, x.store p = none) ∧ ∀ i, x.lib.completePages i = (L i).length := by
  obtain ⟨x, p, bs, hstep, hp, -⟩ := oneBlock
  have hx := roomy_reach.step hstep
  obtain ⟨h', hret, -⟩ := hx.inv.free hp
  have hlive : x.store p ≠ none := by
    rw [hp]
    exact Option.some_ne_none bs
  have hx' := hx.step (.free (.inr hlive) hret)
  have hidle : ∀ q, (x.store.release p) q = none := by
    intro q
    by_contra hne
    obtain ⟨cs, hcs⟩ := Option.ne_none_iff_exists'.mp hne
    obtain ⟨hqp, hq⟩ := Store.release_cases hcs
    cases hstep
    obtain ⟨rfl, -⟩ | ⟨-, hold⟩ := Store.alloc_cases hq
    · exact hqp rfl
    · cases hold
  obtain ⟨L, hL, -⟩ := heap_idle hx' hidle
  exact ⟨_, L, hx', hidle, fun i => (hL i).2.2.1⟩

end BestOS
