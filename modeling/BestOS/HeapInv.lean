/-
BestOS/HeapInv.lean

The heap and its client.

`HeapState` is the heap, the frames it has, and what its client believes: a store with
the contents of every live block.  `HeapInv` says that the belief is right: the live
blocks are the blocks in use of an arena that satisfies `HeapCore`, and each holds what
was put there.  Each call of the client keeps it, and each call ends.
-/
import BestOS.HeapMalloc
import BestOS.HeapCopy
import BestOS.BlockStore

namespace BestOS

open ByteMemory BlockHeap BlockStore BoundaryTags LinkedList Fuel

structure HeapState where
  lib : LibAlloc
  store : Store (BitVec 8)
  owned : Nat → Prop

variable {h h' : LibAlloc} {s' : Machine} {owned : Nat → Prop} {A A' : Arena}
  {L L' : Nat → List Nat} {a b i n size p q : Nat} {σ : Store (BitVec 8)} {bs : List (BitVec 8)}

/-- The live blocks of the store are the blocks in use of the arena, with their sizes and
contents. -/
structure Tied (h : LibAlloc) (σ : Store (BitVec 8)) (A : Arena) : Prop where
  used : ∀ {p bs}, σ p = some bs → ∃ a n, p = a + TAG_SIZE ∧ Used A a n ∧
    h.get a .size = bs.length ∧ bs.length + TAG_SIZE ≤ n
  live : ∀ {a n}, Used A a n → ∃ bs, σ (a + TAG_SIZE) = some bs
  contents : ∀ {p bs}, σ p = some bs → bytesFrom h.machine.mem (physical p) bs.length = bs

/-- `l_freePages` and `l_completePages` are set up, or as they are at boot. -/
structure HeapInv (x : HeapState) : Prop where
  ready : x.lib.initialized = true ∨ (x.lib.freePages = fun _ => 0) ∧
    (x.lib.completePages = fun _ => 0) ∧ ∀ p, x.store p = none
  held : ∃ A L, HeapCore x.lib x.owned A L ∧ Tied x.lib x.store A

/-- The state after a call that has left the heap `h'` and the store `σ`. -/
def HeapState.after (x : HeapState) (h' : LibAlloc) (σ : Store (BitVec 8)) : HeapState :=
  ⟨h', σ, heldAfter x.owned x.lib.machine h'.machine⟩

/-! ### One call -/

/-- A byte of a live block is behind the tag of a block in use. -/
theorem Tied.inside (t : Tied h σ A) (sh : HeapShape h A L) (hp : σ p = some bs) :
    ∃ a n, p = a + TAG_SIZE ∧ Used A a n ∧ h.get a .size = bs.length ∧
      MMAP_IO_BASE ≤ p ∧ p + bs.length < 2 ^ 64 ∧ p + bs.length ≤ a + n ∧
      physical p + MMAP_IO_BASE = p := by
  obtain ⟨a, n, rfl, hu, hsize, hfit⟩ := t.used hp
  obtain ⟨q, hq, hl, rfl⟩ := hu
  have hin := sh.inWindow hq
  have hphys : physical (a + TAG_SIZE) = a + TAG_SIZE - MMAP_IO_BASE :=
    physical_eq (by omega) (by omega)
  exact ⟨a, q.size, rfl, ⟨q, hq, hl, rfl⟩, hsize, by omega, by omega, by omega, by omega⟩

theorem Tied.granted (t : Tied h σ A) (sh : HeapShape h A L)
    (g : Granted a size h h' A A') :
    Tied h' (σ.alloc (a + TAG_SIZE) (bytesFrom h'.machine.mem (physical (a + TAG_SIZE)) size)) A'
    where
  used {p bs} hp := by
    rcases Store.alloc_cases hp with ⟨rfl, rfl⟩ | ⟨-, hp⟩
    · obtain ⟨n, hu, hfit⟩ := g.block
      exact ⟨a, n, rfl, hu, by rw [g.size_eq, length_bytesFrom], by rwa [length_bytesFrom]⟩
    · obtain ⟨b, n, rfl, hu, hsize, hfit⟩ := t.used hp
      have hba : b ≠ a := fun he => g.fresh n (he ▸ hu)
      exact ⟨b, n, rfl, (g.used hba).mpr hu, (g.sizes hu).trans hsize, hfit⟩
  live {b n} hu := by
    by_cases hba : b = a
    · exact ⟨_, by rw [hba, Store.alloc_self]⟩
    · obtain ⟨bs, hbs⟩ := t.live ((g.used hba).mp hu)
      exact ⟨bs, by rw [Store.alloc_ne _ _ (by omega), hbs]⟩
  contents {p bs} hp := by
    rcases Store.alloc_cases hp with ⟨rfl, rfl⟩ | ⟨-, hp⟩
    · rw [length_bytesFrom]
    · obtain ⟨b, n, rfl, hu, -, -, -, hend, hphys⟩ := t.inside sh hp
      rw [← t.contents hp, length_bytesFrom]
      exact bytesFrom_congr fun i hi => g.payload hu (by omega) (by omega)

theorem Tied.released (t : Tied h σ A) (sh : HeapShape h A L) (r : Released a h h' A A') :
    Tied h' (σ.release (a + TAG_SIZE)) A' where
  used {p bs} hp := by
    obtain ⟨hne, hp⟩ := Store.release_cases hp
    obtain ⟨b, n, rfl, hu, hsize, hfit⟩ := t.used hp
    have hba : b ≠ a := fun he => hne (by rw [he])
    exact ⟨b, n, rfl, r.used.mpr ⟨hu, hba⟩, (r.sizes hba hu).trans hsize, hfit⟩
  live {b n} hu := by
    obtain ⟨hu, hba⟩ := r.used.mp hu
    obtain ⟨bs, hbs⟩ := t.live hu
    exact ⟨bs, by rw [Store.release_ne _ (by omega), hbs]⟩
  contents {p bs} hp := by
    obtain ⟨hne, hp⟩ := Store.release_cases hp
    obtain ⟨b, n, rfl, hu, -, -, -, hend, hphys⟩ := t.inside sh hp
    have hba : b ≠ a := fun he => hne (by rw [he])
    rw [← t.contents hp, length_bytesFrom]
    exact bytesFrom_congr fun i hi => r.payload hba hu (by omega) (by omega)

/-- Live blocks do not meet. -/
theorem Tied.apart (t : Tied h σ A) (sh : HeapShape h A L) {cs : List (BitVec 8)}
    (hp : σ p = some bs) (hq : σ q = some cs) (hpq : p ≠ q) :
    Apart p bs.length q cs.length := by
  obtain ⟨a, n, rfl, ⟨r, hr, -, rfl⟩, -, -, -, hend, -⟩ := t.inside sh hp
  obtain ⟨b, k, rfl, ⟨r', hr', -, rfl⟩, -, -, -, hend', -⟩ := t.inside sh hq
  have hab : a ≠ b := fun he => hpq (by rw [he])
  rcases sh.tiled.apart hr hr' hab with hle | hle
  · left
    omega
  · right
    omega

variable {x y : HeapState}

theorem HeapInv.ok (inv : HeapInv x) : x.store.heap.Ok := by
  obtain ⟨A, L, c, t⟩ := inv.held
  have hio : 0 < MMAP_IO_BASE := by decide
  refine ⟨rfl, ?_, fun p n hp => ?_, fun p q n k hp hq hpq => ?_⟩
  · by_contra hne
    obtain ⟨n, hn⟩ := Option.ne_none_iff_exists'.mp hne
    obtain ⟨bs, hbs, -⟩ := Store.heap_cases hn
    obtain ⟨a, n, -, -, -, hlow, -⟩ := t.inside c.shape hbs
    omega
  · obtain ⟨bs, hbs, rfl⟩ := Store.heap_cases hp
    obtain ⟨a, n, -, -, -, -, hhigh, -⟩ := t.inside c.shape hbs
    exact hhigh.le
  · obtain ⟨bs, hbs, rfl⟩ := Store.heap_cases hp
    obtain ⟨cs, hcs, rfl⟩ := Store.heap_cases hq
    exact t.apart c.shape hbs hcs hpq

/-- NULL is no block. -/
theorem HeapInv.null (inv : HeapInv x) : x.store 0 = none := by
  by_contra hne
  obtain ⟨bs, hbs⟩ := Option.ne_none_iff_exists'.mp hne
  have hnull := inv.ok.null
  rw [Store.heap_some hbs] at hnull
  cases hnull

theorem HeapInv.contents (inv : HeapInv x) (hp : x.store p = some bs) :
    bytesFrom x.lib.machine.mem (physical p) bs.length = bs := by
  obtain ⟨A, L, c, t⟩ := inv.held
  exact t.contents hp

theorem HeapInv.window (inv : HeapInv x) (hp : x.store p = some bs) :
    MMAP_IO_BASE ≤ p ∧ p + bs.length < 2 ^ 64 := by
  obtain ⟨A, L, c, t⟩ := inv.held
  obtain ⟨a, n, -, -, -, hlow, hhigh, -⟩ := t.inside c.shape hp
  exact ⟨hlow, hhigh⟩

/-- Where a byte of a live block is. -/
theorem HeapInv.byte_at (inv : HeapInv x) (hp : x.store p = some bs) (hi : i < bs.length) :
    physical (p + i) = physical p + i := by
  obtain ⟨hlow, hhigh⟩ := inv.window hp
  have hphys := physical_add (p := p) (i := i) hlow (by omega)
  rwa [Nat.mod_eq_of_lt (by omega)] at hphys

/-- A load from a live block. -/
theorem HeapInv.load (inv : HeapInv x) (hp : x.store p = some bs) {v : BitVec 8}
    (hi : bs[i]? = some v) : x.lib.load (p + i) 1 = v.toNat := by
  have hib : i < bs.length := (List.getElem?_eq_some_iff.mp hi).1
  have hbyte := getElem?_bytesFrom x.lib.machine.mem (physical p) hib
  rw [inv.contents hp, hi] at hbyte
  rw [LibAlloc.load, inv.byte_at hp hib, readLE, readLE, Nat.mul_zero, Nat.add_zero,
    ← Option.some.inj hbyte]

/-- What `realloc` reads from the tag of a live block. -/
theorem HeapInv.size_eq (inv : HeapInv x) (hp : x.store p = some bs) :
    x.lib.get ((p + 2 ^ 64 - TAG_SIZE) % 2 ^ 64) .size = bs.length := by
  obtain ⟨A, L, c, t⟩ := inv.held
  obtain ⟨a, n, rfl, -, hsize, -, hhigh, -⟩ := t.inside c.shape hp
  rwa [show (a + TAG_SIZE + 2 ^ 64 - TAG_SIZE) % 2 ^ 64 = a by omega]

theorem HeapInv.initialized (inv : HeapInv x) (hp : x.store p = some bs) :
    x.lib.initialized = true := by
  refine inv.ready.resolve_right fun hr => ?_
  rw [hr.2.2 p] at hp
  cases hp

/-- The first call of `malloc` finds the statics as it wants them. -/
theorem liballocInit_eq (inv : HeapInv x) : liballocInit x.lib = { x.lib with initialized := true } := by
  unfold liballocInit
  rcases inv.ready with hi | ⟨hf, hc, -⟩
  · rw [if_pos hi, ← hi]
  · split
    · next hi => rw [← hi]
    · rw [← hf, ← hc]

theorem liballocInit_liballocInit (h : LibAlloc) : liballocInit (liballocInit h) = liballocInit h := by
  have hi : (liballocInit h).initialized = true := by
    unfold liballocInit
    split
    · assumption
    · rfl
  rw [liballocInit, if_pos hi]

theorem malloc_liballocInit (fuel : Nat) (h : LibAlloc) (size : Nat) :
    malloc fuel (liballocInit h) size = malloc fuel h size := by
  rw [malloc_eq, malloc_eq, liballocInit_liballocInit]

/-- **`malloc`** hands out a block that is apart from all others. -/
theorem HeapInv.malloc (inv : HeapInv x) (hreq : Request size) (hroom : Room x.lib size) :
    ∃ p h', Returns (fun fuel => malloc fuel x.lib size) (p, h') ∧
      HeapInv (x.after h' (x.store.alloc p (bytesFrom h'.machine.mem (physical p) size))) ∧
      x.store.heap.Fresh p size ∧ Spares x.owned x.lib.machine h'.machine ∧
      ((∀ k, MarkedUsed h'.machine k ↔ MarkedUsed x.lib.machine k) ∨
        TookRun x.lib.machine h'.machine (newTagPages size)) := by
  obtain ⟨A, L, c, t⟩ := inv.held
  have hinit := liballocInit_eq inv
  have hmach : (liballocInit x.lib).machine = x.lib.machine := by rw [hinit]
  have hget : (liballocInit x.lib).get = x.lib.get := by rw [hinit]; rfl
  have hi : (liballocInit x.lib).initialized = true := by rw [hinit]
  have c₁ : HeapCore (liballocInit x.lib) x.owned A L := by
    rw [hinit]
    exact ⟨c.shape.congr (fun _ _ _ => rfl) rfl, ⟨c.books.coalesced, c.books.placed, c.books.counted,
      c.books.few⟩, c.frames⟩
  have t₁ : Tied (liballocInit x.lib) x.store A := by
    rw [hinit]
    exact ⟨t.used, t.live, t.contents⟩
  have hroom₁ : Room (liballocInit x.lib) size := by
    unfold Room
    rw [liballocInit_liballocInit, hmach]
    exact hroom
  obtain ⟨a, h', A', L', hret, c', g, sp, tr⟩ := c₁.malloc hi hreq hroom₁
  rw [hmach] at c' sp tr
  have t' := t₁.granted c₁.shape g
  have hio : 0 < MMAP_IO_BASE := by decide
  have hself := Store.alloc_self x.store (a + TAG_SIZE)
    (bytesFrom h'.machine.mem (physical (a + TAG_SIZE)) size)
  obtain ⟨a', n, -, -, -, hlow, hhigh, -⟩ := t'.inside c'.shape hself
  rw [length_bytesFrom] at hhigh
  have hunused : x.store (a + TAG_SIZE) = none := by
    by_contra hne
    obtain ⟨bs, hbs⟩ := Option.ne_none_iff_exists'.mp hne
    obtain ⟨b, m, hb, hu, -⟩ := t.used hbs
    exact g.fresh m ((Nat.add_right_cancel hb) ▸ hu)
  refine ⟨a + TAG_SIZE, h', ?_, ⟨.inl (g.initialized.trans hi), A', L', c', t'⟩,
    ⟨by omega, hhigh.le, Store.heap_none hunused, fun q m hq => ?_⟩, sp, tr⟩
  · simpa only [malloc_liballocInit] using hret
  · obtain ⟨cs, hcs, rfl⟩ := Store.heap_cases hq
    have hqa : q ≠ a + TAG_SIZE := by
      rintro rfl
      rw [hunused] at hcs
      cases hcs
    have hap := t'.apart c'.shape hself ((Store.alloc_ne x.store _ hqa).trans hcs) (Ne.symm hqa)
    rwa [length_bytesFrom] at hap

/-- **`free`** of a live block. -/
theorem HeapInv.free (inv : HeapInv x) (hp : x.store p = some bs) :
    ∃ h', Returns (fun fuel => free fuel x.lib p) h' ∧ HeapInv (x.after h' (x.store.release p)) ∧
      Spares x.owned x.lib.machine h'.machine ∧ ∀ k, (x.after h' (x.store.release p)).owned k → x.owned k := by
  obtain ⟨A, L, c, t⟩ := inv.held
  obtain ⟨a, n, rfl, hu, -⟩ := t.used hp
  obtain ⟨h', A', L', hret, c', r, sp, hheld⟩ := c.free hu
  exact ⟨h', hret, ⟨.inl (r.initialized.trans (inv.initialized hp)), A', L', c',
    t.released c.shape r⟩, sp, hheld⟩

/-- Stores into a live block are seen there, and nowhere else. -/
theorem HeapInv.fill (inv : HeapInv x) (hp : x.store p = some bs) {m : Mem}
    (hm : ∀ z, ¬ (physical p ≤ z ∧ z < physical p + bs.length) → m z = x.lib.machine.mem z) :
    HeapInv ⟨x.lib.fill m, x.store.alloc p (bytesFrom m (physical p) bs.length), x.owned⟩ ∧
    KeptWithin x.owned x.lib.machine (x.lib.fill m).machine := by
  obtain ⟨A, L, c, t⟩ := inv.held
  obtain ⟨a, n, hpa, hu, hsize, hlow, hhigh, hend, hphys⟩ := t.inside c.shape hp
  -- the block is in owned frames and in no tag
  have hout : ∀ z, physical p ≤ z → z < physical p + bs.length → OutsideTags (tagsOf A) z :=
    fun z h1 h2 => c.shape.used_outside hu (by omega) (by omega)
  have hown : ∀ z, physical p ≤ z → z < physical p + bs.length → x.owned (z / PAGE_SIZE) := by
    intro z h1 h2
    obtain ⟨r, hr, -, rfl⟩ := hu
    exact c.owned_of_inPiece hr ⟨by omega, by omega⟩
  have hget : ∀ {b r}, A b = some r → ∀ f, (x.lib.fill m).get b f = x.lib.get b f := by
    intro b r hb f
    have hin : b ∈ tagsOf A := ⟨r, hb⟩
    have hf := f.bound
    refine readLE_congr fun z h1 h2 => hm z fun hz => ?_
    rw [c.shape.tagSet.physical_field hin] at h1 h2
    have hlow' := c.shape.tagSet.low hin
    have hz' := hout z hz.1 hz.2 b hin
    rw [physical_eq hlow' (by have := c.shape.tagSet.high hin; omega)] at hz'
    omega
  have hbitmap : ∀ z, InBitmap x.lib.machine z → m z = x.lib.machine.mem z := fun z hz =>
    hm z fun hb => c.frames.apart (hown z hb.1 hb.2) hz
  have hmarks : ∀ k, MarkedUsed (x.lib.fill m).machine k ↔ MarkedUsed x.lib.machine k :=
    markedUsed_iff_of_bitmap rfl hbitmap
  have t' : Tied (x.lib.fill m) (x.store.alloc p (bytesFrom m (physical p) bs.length)) A := by
    refine ⟨fun {q cs} hq => ?_, fun {b k} hb => ?_, fun {q cs} hq => ?_⟩
    · have hlen : ∃ ds, x.store q = some ds ∧ ds.length = cs.length := by
        rcases Store.alloc_cases hq with ⟨rfl, rfl⟩ | ⟨-, hq⟩
        · exact ⟨bs, hp, (length_bytesFrom ..).symm⟩
        · exact ⟨cs, hq, rfl⟩
      obtain ⟨ds, hds, hlen⟩ := hlen
      obtain ⟨b, k, rfl, hb, hbs, hfit⟩ := t.used hds
      obtain ⟨r, hr⟩ := hb.mem_tags
      exact ⟨b, k, rfl, hb, by rw [hget hr, hbs, hlen], hlen ▸ hfit⟩
    · obtain ⟨cs, hcs⟩ := t.live hb
      by_cases hq : b + TAG_SIZE = p
      · exact ⟨_, by rw [hq, Store.alloc_self]⟩
      · exact ⟨cs, by rw [Store.alloc_ne _ _ hq, hcs]⟩
    · rcases Store.alloc_cases hq with ⟨rfl, rfl⟩ | ⟨hqp, hq⟩
      · rw [length_bytesFrom, LibAlloc.fill_mem]
      · have hap := t.apart c.shape hp hq (Ne.symm hqp)
        obtain ⟨b, k, -, -, -, -, hhigh', -, hphys'⟩ := t.inside c.shape hq
        have hpq : physical q + p = physical p + q := by omega
        rw [← t.contents hq, length_bytesFrom]
        refine bytesFrom_congr fun i hi => hm _ fun hz => ?_
        rcases hap with hle | hle <;> omega
  refine ⟨⟨?_, A, L, ⟨c.shape.congr (fun hb f _ => hget hb f) rfl, ⟨c.books.coalesced,
    c.books.placed, c.books.counted, c.books.few⟩, ⟨c.frames.aligned, c.frames.owned_iff,
    fun hk => (hmarks _).mpr (c.frames.marked hk), c.frames.apart,
    c.frames.pmm.kept rfl rfl fun hk => (hmarks _).mpr hk, c.frames.direct⟩⟩, t'⟩,
    ⟨rfl, rfl, hmarks, fun {z} hz => hm z fun hb => hz (hown z hb.1 hb.2)⟩⟩
  exact .inl (inv.initialized hp)

theorem toSize_toInt (h : n < 2 ^ 31) : toSize (toInt n) = n := by
  have hnat := toSize_of_nonneg (i := (n : Int)) (by omega) (by omega)
  rw [toInt_of_lt h]
  exact_mod_cast hnat

/-- A new block is filled before it is handed on. -/
theorem HeapInv.refill {cs : List (BitVec 8)} (inv : HeapInv (x.after h (x.store.alloc p cs)))
    {m : Mem} (hm : ∀ z, ¬ (physical p ≤ z ∧ z < physical p + cs.length) → m z = h.machine.mem z) :
    HeapInv ⟨h.fill m, x.store.alloc p (bytesFrom m (physical p) cs.length),
      heldAfter x.owned x.lib.machine h.machine⟩ ∧
    KeptWithin (heldAfter x.owned x.lib.machine h.machine) h.machine (h.fill m).machine := by
  obtain ⟨inv', w⟩ := inv.fill (Store.alloc_self x.store p cs) hm
  rw [HeapState.after, Store.alloc_alloc] at inv'
  exact ⟨inv', w⟩

/-- **`calloc`** is a block of zeros. -/
theorem HeapInv.calloc (inv : HeapInv x) {nobj : Nat} (hreq : Request (nobj * size))
    (hint : nobj * size < 2 ^ 31) (hroom : Room x.lib (nobj * size)) :
    ∃ p h', Returns (fun fuel => LibAlloc.calloc fuel x.lib nobj size) (p, h') ∧
      HeapInv (x.after h' (x.store.alloc p (List.replicate (nobj * size) 0#8))) ∧
      x.store.heap.Fresh p (nobj * size) ∧ Spares x.owned x.lib.machine h'.machine := by
  obtain ⟨p, h₁, hret, inv₁, hfresh, sp, -⟩ := inv.malloc hreq hroom
  generalize hn : nobj * size = n at *
  have hlen := length_bytesFrom h₁.machine.mem (physical p) n
  obtain ⟨hlow, hhigh⟩ := inv₁.window (Store.alloc_self ..)
  generalize bytesFrom h₁.machine.mem (physical p) n = cs at *
  subst hlen
  have hset := liballocMemset_eq (h := h₁) hlow 0 hhigh.le
  generalize hm : cleared h₁.machine.mem (physical p) (BitVec.ofNat 8 0) cs.length = m at hset
  have hzero : bytesFrom m (physical p) cs.length = List.replicate cs.length 0#8 := by
    have heq : bytesFrom m (physical p) (List.replicate cs.length 0#8).length
        = List.replicate cs.length 0#8 :=
      bytesFrom_eq fun i v hi => by
        obtain ⟨hin, hv⟩ := List.getElem?_eq_some_iff.mp hi
        rw [List.length_replicate] at hin
        rw [List.getElem_replicate] at hv
        rw [← hm, cleared, if_pos ⟨Nat.le_add_right _ _, by omega⟩, ← hv]
    rwa [List.length_replicate] at heq
  obtain ⟨inv₂, w⟩ := inv₁.refill (m := m) fun z hz => by rw [← hm, cleared, if_neg hz]
  rw [hzero] at inv₂
  refine ⟨p, h₁.fill m, ?_, ?_, hfresh, sp.trans w.spares⟩
  · refine hret.mono fun fuel hf => ?_
    have hf' : BestOS.malloc fuel x.lib cs.length = some (p, h₁) := hf
    change LibAlloc.calloc fuel x.lib nobj size = _
    rw [LibAlloc.calloc, hn, toSize_toInt hint, hf', Option.map_some, hset]
  · rwa [HeapState.after, w.heldAfter_right]

/-- **`realloc`** of a live block carries its contents over, as far as they fit. -/
theorem HeapInv.realloc (inv : HeapInv x) (hp : x.store p = some bs) (hold : bs.length < 2 ^ 31)
    (hpos : 0 < size) (hint : size < 2 ^ 31) (hroom : Room x.lib size) :
    ∃ r h' cs, Returns (fun fuel => LibAlloc.realloc fuel x.lib p size) (r, h') ∧
      HeapInv (x.after h' ((x.store.alloc r cs).release p)) ∧
      cs = bs.take size ++ bytesFrom h'.machine.mem (physical r + bs.length) (size - bs.length) ∧
      x.store.heap.Fresh r size ∧ Spares x.owned x.lib.machine h'.machine := by
  have hreq : Request size := by
    have htag : TAG_SIZE = 48 := rfl
    have hpage : L_PAGE_SIZE = 4096 := rfl
    unfold Request
    omega
  obtain ⟨r, h₁, hret₁, inv₁, hfresh, sp₁, -⟩ := inv.malloc hreq hroom
  have hrp : r ≠ p := by
    rintro rfl
    have hunused := hfresh.unused
    rw [Store.heap_some hp] at hunused
    cases hunused
  have hap := hfresh.apart p bs.length (Store.heap_some hp)
  have hp₁ : (x.store.alloc r (bytesFrom h₁.machine.mem (physical r) size)) p = some bs :=
    (Store.alloc_ne x.store _ hrp.symm).trans hp
  have hold₁ : bytesFrom h₁.machine.mem (physical p) bs.length = bs := inv₁.contents hp₁
  have hp0 : p ≠ 0 := fun he => by rw [he, inv.null] at hp; cases hp
  obtain ⟨hlowp, hhighp⟩ := inv₁.window hp₁
  obtain ⟨hlow, hhigh⟩ := inv₁.window (Store.alloc_self ..)
  have hlen := length_bytesFrom h₁.machine.mem (physical r) size
  generalize bytesFrom h₁.machine.mem (physical r) size = cs at *
  subst hlen
  -- the copy
  have hk : (if toInt bs.length > toInt cs.length then toInt cs.length else toInt bs.length)
      = toInt (min bs.length cs.length) := by
    rw [toInt_of_lt hold, toInt_of_lt hint, toInt_of_lt (by omega)]
    split <;> omega
  have hcopy := liballocMemcpy_eq (h := h₁) (d := r) (s := p) (n := min bs.length cs.length) hlow hlowp
    (by omega) (by omega) (hap.mono (Nat.le_refl _) (by omega) (Nat.le_refl _) (by omega))
  generalize hm : moved h₁.machine.mem (physical r) (physical p) (min bs.length cs.length) = m at hcopy
  have htake : bytesFrom m (physical r) (bs.take cs.length).length = bs.take cs.length := by
    refine bytesFrom_eq fun i v hi => ?_
    rw [List.getElem?_take] at hi
    split at hi
    · next hic =>
        have hib : i < bs.length := (List.getElem?_eq_some_iff.mp hi).1
        have hbyte := getElem?_bytesFrom h₁.machine.mem (physical p) hib
        rw [hold₁, hi] at hbyte
        rw [← hm, moved, if_pos ⟨Nat.le_add_right _ _, by omega⟩, Nat.add_sub_cancel_left]
        exact (Option.some.inj hbyte).symm
    · cases hi
  obtain ⟨inv₂, w⟩ := inv₁.refill (m := m) fun z hz => by rw [← hm, moved, if_neg (by omega)]
  have hp₂ : (x.store.alloc r (bytesFrom m (physical r) cs.length)) p = some bs :=
    (Store.alloc_ne x.store _ hrp.symm).trans hp
  obtain ⟨h₃, hret₃, inv₃, sp₃, hno⟩ := inv₂.free hp₂
  have hr₃ : bytesFrom h₃.machine.mem (physical r) cs.length
      = bytesFrom m (physical r) cs.length := by
    have hc := inv₃.contents ((Store.release_ne _ hrp).trans (Store.alloc_self ..))
    rwa [length_bytesFrom] at hc
  refine ⟨r, h₃, bytesFrom m (physical r) cs.length, ?_, ?_, ?_, hfresh, ?_⟩
  · refine (hret₁.and hret₃).mono fun fuel hf => ?_
    have hf₁ : BestOS.malloc fuel x.lib cs.length = some (r, h₁) := hf.1
    have hf₃ : BestOS.free fuel (h₁.fill m) p = some h₃ := hf.2
    have hsize := inv.size_eq hp
    change LibAlloc.realloc fuel x.lib p cs.length = _
    rw [LibAlloc.realloc, if_neg hpos.ne', if_neg hp0]
    dsimp only
    rw [hsize, hk, toSize_toInt (by omega), hf₁, Option.bind_some, hcopy, hf₃, Option.map_some]
  · have hno₁ : ∀ k, heldAfter (heldAfter x.owned x.lib.machine h₁.machine) h₁.machine h₃.machine k →
        heldAfter x.owned x.lib.machine h₁.machine k := by
      rw [← w.heldAfter_left]
      exact hno
    rw [HeapState.after, ← heldAfter_heldAfter hno₁, ← w.heldAfter_left]
    exact inv₃
  · rw [List.length_take] at htake
    by_cases hle : cs.length ≤ bs.length
    · rw [Nat.sub_eq_zero_of_le hle, bytesFrom, List.append_nil, ← htake, Nat.min_eq_left hle]
    · have hsum : cs.length = bs.length + (cs.length - bs.length) := by omega
      rw [Nat.min_eq_right (by omega)] at htake
      rw [hsum, bytesFrom_add, bytesFrom_add] at hr₃
      have hrest := (List.append_inj hr₃ (by simp)).2
      rw [hrest, ← htake, ← bytesFrom_add, ← hsum]
  · refine sp₁.trans (Spares.after w ?_)
    exact sp₃

/-- **The rest of the kernel** leaves the heap alone if it leaves its frames alone. -/
theorem HeapInv.others (inv : HeapInv x) (hu : Undisturbed x.owned x.lib.machine s') :
    HeapInv ⟨{ x.lib with machine := s' }, x.store, x.owned⟩ := by
  obtain ⟨A, L, c, t⟩ := inv.held
  obtain ⟨c', mv⟩ := c.undisturbed hu
  refine ⟨inv.ready, A, L, c', fun {p bs} hp => ?_, t.live, fun {p bs} hp => ?_⟩
  · obtain ⟨a, n, rfl, hb, hsize, hfit⟩ := t.used hp
    exact ⟨a, n, rfl, hb, (mv.sizes (fun hf => hf) hb).trans hsize, hfit⟩
  · obtain ⟨a, n, rfl, hb, -, -, -, hend, hphys⟩ := t.inside c.shape hp
    rw [← t.contents hp, length_bytesFrom]
    exact bytesFrom_congr fun i hi => mv.payload (fun hf => hf) hb (by omega) (by omega)

end BestOS
