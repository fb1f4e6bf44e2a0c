/-
BestOS/MmapOutcome.lean

When `vmm_mmap` is all or nothing.

The call has no error path: the size is rounded up with wrap-around, a `NULL`
from the allocator is logged and mapped, and a `NULL` table is entered and then
used.  What a careful caller may hope for is `AllOrNothing`: the whole region
is there, or a failure is reported and nothing has changed; and every link that
has come into the page map, to a page or to a table, leads to a frame the
allocator has handed out for it.

This holds exactly when the size fits the 48-bit address space and the pool
holds a frame for every page and for every missing table.  One direction is the
exact description of the loop, `mmapPages_exact`.  The other needs nothing about
what the loop does once the pool is empty: whatever it did, all-or-nothing
itself names that many distinct free frames.
-/
import BestOS.Mmap

namespace BestOS

open ByteMemory RadixForest

variable {s s' : Machine}

/-! ### The property -/

/-- A frame the allocator can hand out. -/
def FreeFrame (s : Machine) (f : Nat) : Prop :=
  f < s.highestPage / PAGE_SIZE ∧ pageUsed s f = false

/-- Every byte of `[base, base + size)` is translated, each page to a zeroed
frame of its own that was free before. -/
structure FullyMapped (s s' : Machine) (pagemap base size : Nat) : Prop where
  fresh : ∀ o < size, ∃ f, FreeFrame s f ∧ ZeroFrame s'.mem f ∧
    translate s'.mem pagemap (base + o) = some (f * PAGE_SIZE)
  distinct : ∀ o < size, ∀ o' < size,
    translate s'.mem pagemap (base + o) = translate s'.mem pagemap (base + o') →
    (base + o) / PAGE_SIZE = (base + o') / PAGE_SIZE

/-- A failure is reported, by a value that is not a page address as
`(void *) -1` is not, and nothing has changed. -/
structure Refused (s : Machine) (pagemap used : Nat) (res : MmapResult) : Prop where
  reported : res.ret % PAGE_SIZE ≠ 0
  counter : res.usedPages = used
  kept : ∀ va, translate res.machine.mem pagemap va = translate s.mem pagemap va

/-- Slot `p` of the page map leads to `a` now and did not before. -/
structure NewLink (s s' : Machine) (pagemap : Nat) (p : List (Fin 512)) (a : Nat) : Prop where
  depth : p.length ≤ 4
  now : walk (child s'.mem) pagemap p = some a
  before : walk (child s.mem) pagemap p ≠ some a

/-- The new links lead to frames the allocator has handed out, one for each. -/
structure LinksHandedOut (s s' : Machine) (pagemap : Nat) : Prop where
  free : ∀ p a, NewLink s s' pagemap p a → ∃ f, FreeFrame s f ∧ a = f * PAGE_SIZE
  once : ∀ p q a, NewLink s s' pagemap p a → NewLink s s' pagemap q a → p = q

/-- All or nothing. -/
def AllOrNothing (s : Machine) (pagemap used : Nat) (c : MmapCall) : Prop :=
  ∃ res, vmmMmap s pagemap c.hint c.size c.flags used = some res ∧
    (FullyMapped s res.machine pagemap res.ret c.size ∨ Refused s pagemap used res) ∧
    LinksHandedOut s res.machine pagemap

/-! ### Enough frames -/

theorem Fresh.freeFrame {roots : Set Nat} {f n : Nat} (h : Fresh s s' roots f)
    (hpmm : PmmOk s) (hg : Grows s s' roots n) : FreeFrame s f := by
  have hlt := hg.below f h.1 h.2.used
  refine ⟨hlt, ?_⟩
  by_contra hbit
  exact h.1 ⟨Nat.lt_of_lt_of_le hlt hpmm.covers, by simpa using hbit⟩

/-- A table that was not there before is a frame that was free. -/
theorem NewLink.freeFrame {pagemap n a : Nat} {p : List (Fin 512)}
    (h : PageMaps s {pagemap} fun _ => False) (h' : PageMaps s' {pagemap} fun _ => False)
    (hg : Grows s s' {pagemap} n) (hp : p.length ≤ 3) (hl : NewLink s s' pagemap p a) :
    FreeFrame s (a / PAGE_SIZE) ∧ a = a / PAGE_SIZE * PAGE_SIZE := by
  have htable : Table (child s'.mem) {pagemap} 3 a := ⟨pagemap, rfl, p, hp, hl.now⟩
  have hframe := h'.frames a htable
  have hfree : ¬ MarkedUsed s (a / PAGE_SIZE) := by
    rcases hg.tables a htable with ⟨r, rfl, q, hq, hw⟩ | hfree
    · -- an old table keeps its place, and has no other
      have hw' := hg.walks _ rfl q a hq hw
      obtain ⟨rfl, -⟩ := h'.forest.inj _ rfl _ rfl p q a hp hq hl.now hw'
      exact absurd hw hl.before
    · exact hfree
  have hlt := hg.below _ hfree hframe.used
  refine ⟨⟨hlt, ?_⟩, (Nat.div_mul_cancel (Nat.dvd_of_mod_eq_zero hframe.aligned)).symm⟩
  by_contra hbit
  exact hfree ⟨Nat.lt_of_lt_of_le hlt h.pmm.covers, by simpa using hbit⟩

/-- A path of four indices belongs to an address. -/
theorem exists_vaPath {p : List (Fin 512)} (hp : p.length = 4) : ∃ va, vaPath va = p := by
  obtain ⟨i, j, k, l, rfl⟩ := List.length_eq_four.mp hp
  refine ⟨i * 2 ^ 39 + j * 2 ^ 30 + k * 2 ^ 21 + l * 2 ^ 12, ?_⟩
  have hi := i.isLt
  have hj := j.isLt
  have hk := k.isLt
  have hl := l.isLt
  simp only [vaPath, index, List.cons.injEq, Fin.ext_iff, and_true]
  omega

theorem mmapPageCount_eq {size : Nat} (h : size ≤ 2 ^ 64 - 4096) :
    mmapPageCount size = (size + 4095) / 4096 := by
  rw [mmapPageCount, alignUp_page, PAGE_SIZE, Nat.mul_div_cancel _ (by decide),
    Nat.mod_eq_of_lt (by omega)]

section

variable {c : MmapCall} {pagemap used : Nat}

/-- The address of the page that byte `o` of the region is in. -/
def pageAddress (used o : Nat) : Nat := (bump used + o / 4096 * 4096) % 2 ^ 64

theorem pageAddress_mem (hfix : ¬ c.Fixed) (hsize : c.size ≤ 2 ^ 64 - 4096) {o : Nat}
    (ho : o < c.size) : pageAddress used o ∈ c.addresses used := by
  rw [mem_addresses_bump hfix, mmapPageCount_eq hsize]
  exact ⟨o / 4096, by omega, rfl⟩

theorem vaPage_pageAddress (used o : Nat) :
    vaPage (bump used % 2 ^ 64 + o) = vaPage (pageAddress used o) := by
  simp only [vaPage, pageAddress, bump, ALLOC_BASE, PAGE_SIZE]
  omega

/-- An address of the call is that of one of the region's bytes. -/
theorem exists_pageAddress (hfix : ¬ c.Fixed) (hsize : c.size ≤ 2 ^ 64 - 4096) {va : Nat}
    (hva : va ∈ c.addresses used) : ∃ o < c.size, va = pageAddress used o := by
  obtain ⟨i, hi, rfl⟩ := (mem_addresses_bump hfix).mp hva
  rw [mmapPageCount_eq hsize] at hi
  refine ⟨i * 4096, by omega, ?_⟩
  rw [pageAddress, Nat.mul_div_cancel _ (by decide)]

theorem pageAddress_inj {o o' : Nat} (ho : o < 2 ^ 48) (ho' : o' < 2 ^ 48)
    (h : pageAddress used o = pageAddress used o') :
    (bump used % 2 ^ 64 + o) / PAGE_SIZE = (bump used % 2 ^ 64 + o') / PAGE_SIZE := by
  simp only [pageAddress, bump, ALLOC_BASE, PAGE_SIZE] at h ⊢
  omega

/-- With the frames at hand the call maps the whole region. -/
theorem fullyMapped (h : PageMaps s {pagemap} fun _ => False) (hfix : ¬ c.Fixed)
    (hsize : c.size ≤ 2 ^ 48) (hserved : c.Served pagemap used s) :
    FullyMapped s (mmapPages s pagemap (c.addresses used)) pagemap (bump used % 2 ^ 64) c.size ∧
      LinksHandedOut s (mmapPages s pagemap (c.addresses used)) pagemap := by
  have hcount : (c.addresses used).length + (missingTables s.mem pagemap (c.addresses used)).card
      ≤ freeCount s := by
    rwa [length_addresses]
  have htop : ∀ va ∈ c.addresses used, TopFree s.mem {pagemap} (fun _ => False) pagemap va :=
    fun va _ _ hsh => hsh.elim
  have hpages : mmapPageCount c.size ≤ 2 ^ 36 := by
    rw [mmapPageCount_eq (by omega)]
    omega
  obtain ⟨hinv, hgrow, hlook⟩ := mmapPages_spec h rfl _ hcount htop
  obtain ⟨hexact, hinj⟩ := mmapPages_exact h rfl _ hcount htop (addresses_pairwise c used hpages)
  generalize mmapPages s pagemap (c.addresses used) = s' at *
  have hmem : ∀ o < c.size, pageAddress used o ∈ c.addresses used :=
    fun o ho => pageAddress_mem hfix (by omega) ho
  -- a new link of the last level belongs to a page of the call
  have hleaf : ∀ p a, p.length = 4 → NewLink s s' pagemap p a →
      ∃ va ∈ c.addresses used, vaPath va = p ∧ ∃ f, Fresh s s' {pagemap} f ∧ a = f * PAGE_SIZE := by
    intro p a hp hl
    obtain ⟨va, rfl⟩ := exists_vaPath hp
    rcases hlook pagemap rfl va with hsame | ⟨va₂, hin, hsame, f, hfresh, hnew⟩
    · exact absurd (hsame.symm.trans hl.now) hl.before
    · exact ⟨va₂, hin, ((vaPath_eq_iff va₂ va).mpr hsame.1).symm, f, hfresh,
        Option.some.inj (hl.now.symm.trans hnew)⟩
  -- no frame is a page and a table
  have hcross : ∀ p q a, p.length = 4 → q.length ≤ 3 → NewLink s s' pagemap p a →
      ¬ NewLink s s' pagemap q a := by
    intro p q a hp hq hl hl'
    obtain ⟨-, -, -, f, hfresh, rfl⟩ := hleaf p a hp hl
    exact hfresh.2.not_table ⟨pagemap, rfl, q, hq, hl'.now⟩
  refine ⟨⟨fun o ho => ?_, fun o ho o' ho' heq => ?_⟩, fun p a hl => ?_, fun p q a hl hl' => ?_⟩
  · obtain ⟨f, hfresh, hzero, htr⟩ := hexact _ (hmem o ho)
    exact ⟨f, hfresh.freeFrame h.pmm hgrow, hzero, htr _ (vaPage_pageAddress used o)⟩
  · rw [translate_congr _ _ (vaPage_pageAddress used o),
      translate_congr _ _ (vaPage_pageAddress used o')] at heq
    exact pageAddress_inj (by omega) (by omega) (hinj _ (hmem o ho) _ (hmem o' ho') heq)
  · by_cases hp : p.length ≤ 3
    · exact ⟨_, hl.freeFrame h hinv hgrow hp⟩
    · obtain ⟨-, -, -, f, hfresh, e⟩ := hleaf p a (by have := hl.depth; omega) hl
      exact ⟨f, hfresh.freeFrame h.pmm hgrow, e⟩
  · -- two links to one frame: both tables, or both pages
    have hdp := hl.depth
    have hdq := hl'.depth
    by_cases hp : p.length ≤ 3 <;> by_cases hq : q.length ≤ 3
    · exact (hinv.forest.inj _ rfl _ rfl p q a hp hq hl.now hl'.now).1
    · exact absurd hl (hcross q p a (by omega) hp hl')
    · exact absurd hl' (hcross p q a (by omega) hq hl)
    · obtain ⟨va, hva, rfl, -⟩ := hleaf p a (by omega) hl
      obtain ⟨va', hva', rfl, -⟩ := hleaf q a (by omega) hl'
      rw [hinj va hva va' hva' (hl.now.trans hl'.now.symm)]

/-! ### Only then -/

theorem ZeroFrame.no_child {m : Mem} {f : Nat} (h : ZeroFrame m f) (i : Fin 512) :
    child m (f * PAGE_SIZE) i = none :=
  child_eq_none (entry_eq_zero h i)

/-- A region of more than `2 ^ 48` bytes has two pages with one translation. -/
theorem FullyMapped.size_le {base size : Nat} (h : FullyMapped s s' pagemap base size) :
    size ≤ 2 ^ 48 := by
  by_contra hbig
  have hpage : vaPage (base + 0) = vaPage (base + 2 ^ 48) := by
    rw [vaPage, vaPage, Nat.add_zero, Nat.add_mod_right]
  have heq := h.distinct 0 (by omega) (2 ^ 48) (by omega) (translate_congr _ _ hpage)
  simp only [PAGE_SIZE] at heq
  omega

/-- The frame of a page. -/
theorem FullyMapped.page (hfix : ¬ c.Fixed)
    (h : FullyMapped s s' pagemap (bump used % 2 ^ 64) c.size) {va : Nat}
    (hva : va ∈ c.addresses used) : ∃ f, FreeFrame s f ∧ ZeroFrame s'.mem f ∧
      walk (child s'.mem) pagemap (vaPath va) = some (f * PAGE_SIZE) := by
  have hsize := h.size_le
  obtain ⟨o, ho, rfl⟩ := exists_pageAddress hfix (by omega) hva
  obtain ⟨f, hfree, hzero, htr⟩ := h.fresh o ho
  exact ⟨f, hfree, hzero, (translate_congr _ _ (vaPage_pageAddress used o)).symm.trans htr⟩

theorem FullyMapped.page_inj (hfix : ¬ c.Fixed)
    (h : FullyMapped s s' pagemap (bump used % 2 ^ 64) c.size) {va va' : Nat}
    (hva : va ∈ c.addresses used) (hva' : va' ∈ c.addresses used)
    (heq : translate s'.mem pagemap va = translate s'.mem pagemap va') :
    vaPath va = vaPath va' := by
  have hsize := h.size_le
  obtain ⟨o, ho, rfl⟩ := exists_pageAddress hfix (by omega) hva
  obtain ⟨o', ho', rfl⟩ := exists_pageAddress hfix (by omega) hva'
  rw [← translate_congr _ _ (vaPage_pageAddress used o),
    ← translate_congr _ _ (vaPage_pageAddress used o')] at heq
  have hsame := h.distinct o ho o' ho' heq
  rw [vaPath_eq_iff, ← vaPage_pageAddress, ← vaPage_pageAddress]
  simp only [vaPage, PAGE_SIZE] at hsame ⊢
  omega

/-- The frame of a table that was missing: it leads on to a page, so it is not
zero. -/
theorem FullyMapped.table (hfix : ¬ c.Fixed)
    (h : FullyMapped s s' pagemap (bump used % 2 ^ 64) c.size)
    (hlinks : LinksHandedOut s s' pagemap) {p : List (Fin 512)}
    (hp : p ∈ missingTables s.mem pagemap (c.addresses used)) :
    ∃ f i, FreeFrame s f ∧ NewLink s s' pagemap p (f * PAGE_SIZE) ∧
      child s'.mem (f * PAGE_SIZE) i ≠ none := by
  obtain ⟨hin, hnone⟩ := Finset.mem_filter.mp hp
  obtain ⟨va, hva, hpre⟩ := Finset.mem_biUnion.mp hin
  obtain ⟨i, q, hpath⟩ := vaPath_of_mem_tablePrefixes hpre
  obtain ⟨f₀, -, -, hwalk⟩ := h.page hfix (List.mem_toFinset.mp hva)
  rw [hpath, walk_append] at hwalk
  rcases hw : walk (child s'.mem) pagemap p with - | a
  · rw [hw] at hwalk
    cases hwalk
  · have hlink : NewLink s s' pagemap p a :=
      ⟨(length_of_mem_tablePrefixes hpre).trans (by omega), hw, by rw [hnone]; simp⟩
    obtain ⟨f, hfree, rfl⟩ := hlinks.free p a hlink
    refine ⟨f, i, hfree, hlink, fun hchild => ?_⟩
    rw [hw] at hwalk
    simp [walk, hchild] at hwalk

/-- **Counting.**  Whatever the state afterwards: the pages of a region that is
there, and the tables it needs, are that many distinct frames that were free. -/
theorem FullyMapped.served (hfix : ¬ c.Fixed)
    (hmap : FullyMapped s s' pagemap (bump used % 2 ^ 64) c.size)
    (hlinks : LinksHandedOut s s' pagemap) : c.Served pagemap used s := by
  have hsize := hmap.size_le
  have hcount : mmapPageCount c.size ≤ 2 ^ 36 := by
    rw [mmapPageCount_eq (by omega)]
    omega
  have hpairs := addresses_pairwise c used hcount
  let tables := missingTables s.mem pagemap (c.addresses used)
  let pages := ((c.addresses used).map vaPath).toFinset
  have hpages : ∀ p ∈ pages, ∃ va ∈ c.addresses used, vaPath va = p := by
    intro p hp
    exact List.mem_map.mp (List.mem_toFinset.mp hp)
  -- a path to a page has four steps, one to a table at most three
  have hdisj : Disjoint pages tables := by
    rw [Finset.disjoint_left]
    intro p hp hp'
    obtain ⟨va, -, rfl⟩ := hpages p hp
    obtain ⟨hin, -⟩ := Finset.mem_filter.mp hp'
    obtain ⟨va', -, hpre⟩ := Finset.mem_biUnion.mp hin
    exact absurd (length_of_mem_tablePrefixes hpre) (by simp [vaPath])
  have hcard : pages.card = mmapPageCount c.size := by
    have hnodup : ((c.addresses used).map vaPath).Nodup :=
      List.pairwise_map.mpr (hpairs.imp fun hne e => hne ((vaPath_eq_iff _ _).mp e))
    rw [List.toFinset_card_of_nodup hnodup, List.length_map, length_addresses]
  have hframe : ∀ p ∈ pages ∪ tables, ∃ f, FreeFrame s f ∧
      walk (child s'.mem) pagemap p = some (f * PAGE_SIZE) := by
    intro p hp
    rcases Finset.mem_union.mp hp with hp | hp
    · obtain ⟨va, hva, rfl⟩ := hpages p hp
      obtain ⟨f, hfree, -, hw⟩ := hmap.page hfix hva
      exact ⟨f, hfree, hw⟩
    · obtain ⟨f, -, hfree, hlink, -⟩ := hmap.table hfix hlinks hp
      exact ⟨f, hfree, hlink.now⟩
  -- a page is zero and a table is not, so no frame is both
  have hcross : ∀ p ∈ pages, ∀ q ∈ tables,
      walk (child s'.mem) pagemap p ≠ walk (child s'.mem) pagemap q := by
    intro p hp q hq heq
    obtain ⟨va, hva, rfl⟩ := hpages p hp
    obtain ⟨f, -, hzero, hw⟩ := hmap.page hfix hva
    obtain ⟨f', i, -, hlink, hchild⟩ := hmap.table hfix hlinks hq
    rw [hw, hlink.now] at heq
    rw [← Option.some.inj heq] at hchild
    exact hchild (hzero.no_child i)
  rw [MmapCall.Served, ← hcard]
  show pages.card + tables.card ≤ freeCount s
  rw [← Finset.card_union_of_disjoint hdisj]
  -- the walk takes pages and missing tables to free frames, one to one
  refine Finset.card_le_card_of_injOn
    (fun p => (walk (child s'.mem) pagemap p).getD 0 / PAGE_SIZE) ?_ ?_
  · intro p hp
    obtain ⟨f, hfree, hw⟩ := hframe p hp
    simp only [hw, Option.getD_some, Nat.mul_div_cancel f (show 0 < PAGE_SIZE by decide)]
    exact Finset.mem_filter.mpr ⟨Finset.mem_range.mpr hfree.1, hfree.2⟩
  · intro p hp q hq heq
    obtain ⟨f, -, hw⟩ := hframe p hp
    obtain ⟨f', -, hw'⟩ := hframe q hq
    simp only [hw, hw', Option.getD_some, Nat.mul_div_cancel _ (show 0 < PAGE_SIZE by decide)] at heq
    have hsame : walk (child s'.mem) pagemap p = walk (child s'.mem) pagemap q := by
      rw [hw, hw', heq]
    rcases Finset.mem_union.mp hp with hp | hp <;> rcases Finset.mem_union.mp hq with hq | hq
    · obtain ⟨va, hva, rfl⟩ := hpages p hp
      obtain ⟨va', hva', rfl⟩ := hpages q hq
      exact hmap.page_inj hfix hva hva' hsame
    · exact absurd hsame (hcross p hp q hq)
    · exact absurd hsame.symm (hcross q hq p hp)
    · obtain ⟨f₁, -, -, hlink, -⟩ := hmap.table hfix hlinks hp
      obtain ⟨f₂, -, -, hlink', -⟩ := hmap.table hfix hlinks hq
      have e : f₂ * PAGE_SIZE = f₁ * PAGE_SIZE :=
        Option.some.inj (hlink'.now.symm.trans (hsame.symm.trans hlink.now))
      exact hlinks.once p q _ hlink (e ▸ hlink')

/-- **`vmm_mmap` without `MAP_FIXED` is all or nothing** exactly when the size
fits the address space and the pool holds a frame for every page and for every
table missing along the region. -/
theorem mmap_all_or_nothing_iff (h : PageMaps s {pagemap} fun _ => False) (hanon : c.Anonymous)
    (hfix : ¬ c.Fixed) :
    AllOrNothing s pagemap used c ↔ c.size ≤ 2 ^ 48 ∧ c.Served pagemap used s := by
  have hcall := vmmMmap_eq hanon s pagemap used
  rw [mmapVirt_bump hfix] at hcall
  constructor
  · rintro ⟨res, hres, hout, hlinks⟩
    rw [hcall] at hres
    obtain rfl := Option.some.inj hres
    rcases hout with hmap | hrefused
    · exact ⟨hmap.size_le, hmap.served hfix hlinks⟩
    · -- the code never reports a failure
      refine absurd ?_ hrefused.reported
      simp only [bump, ALLOC_BASE, PAGE_SIZE]
      omega
  · rintro ⟨hsize, hserved⟩
    obtain ⟨hmap, hlinks⟩ := fullyMapped h hfix hsize hserved
    exact ⟨_, hcall, .inl hmap, hlinks⟩

end

/-- One page on `tinyMachine`. -/
theorem mmap_all_or_nothing_tiny :
    AllOrNothing (tinyMachine 0b111#8) 0x2000 0 onePage :=
  (mmap_all_or_nothing_iff tinyMachine_pageMaps (by decide) (by decide)).mpr
    ⟨by decide, onePage_served (by decide +kernel)⟩

/-- `tinyMachine` cut down to eight pages, all of them in use. -/
def fullMachine : Machine := { tinyMachine 0xff#8 with highestPage := 0x8000 }

theorem fullMachine_pageMaps : PageMaps fullMachine {0x2000} fun _ => False := by
  have hpmm : PmmOk fullMachine :=
    ⟨by decide, by decide, fun a ha => (tinyMachine_pmmOk (by decide)).stored a ha⟩
  have hframe : TableFrame fullMachine 0x2000 := by
    refine ⟨by decide, ⟨by decide, by decide⟩, fun a h1 _ hb => ?_⟩
    simp only [InBitmap, fullMachine, tinyMachine] at hb
    omega
  exact .of_empty hpmm hframe (fun i => tinyMachine_entry _ (by decide) i) _

/-- **Neither all nor nothing.**  With an empty pool a call for one page
returns an address whose page cannot have a frame that was free; a call for
`2 ^ 64 - 1` bytes returns an address although it maps nothing. -/
theorem mmap_neither :
    (¬ ∀ (s : Machine) (pagemap used : Nat) (c : MmapCall),
      PageMaps s {pagemap} (fun _ => False) → c.size < 2 ^ 64 → c.Anonymous → ¬ c.Fixed →
      AllOrNothing s pagemap used c) ∧
    ¬ AllOrNothing fullMachine 0x2000 0 onePage ∧
    ¬ AllOrNothing (tinyMachine 0b111#8) 0x2000 0 ⟨0, 2 ^ 64 - 1, MAP_ANONYMOUS⟩ := by
  have hfull : ¬ AllOrNothing fullMachine 0x2000 0 onePage := by
    rintro ⟨res, hres, hout, -⟩
    rw [vmmMmap_eq (by decide)] at hres
    obtain rfl := Option.some.inj hres
    rcases hout with hmap | hrefused
    · obtain ⟨f, ⟨hlt, hfree⟩, -⟩ := hmap.fresh 0 (by decide)
      have hnone : ∀ k < 8, pageUsed fullMachine k = true := by decide +kernel
      rw [hnone f hlt] at hfree
      cases hfree
    · exact hrefused.reported (by decide)
  have hwrap : ¬ AllOrNothing (tinyMachine 0b111#8) 0x2000 0 ⟨0, 2 ^ 64 - 1, MAP_ANONYMOUS⟩ := by
    rintro ⟨res, hres, hout, -⟩
    rw [vmmMmap_eq (by decide)] at hres
    obtain rfl := Option.some.inj hres
    rcases hout with hmap | hrefused
    · obtain ⟨f, -, -, htr⟩ := hmap.fresh 0 (by decide)
      have hempty : translate (tinyMachine 0b111#8).mem 0x2000 (ALLOC_BASE + 0) = none := by
        rw [translate, vaPath, walk, tinyMachine_child _ (by decide)]
        rfl
      exact absurd (hempty.symm.trans htr) (by simp)
    · exact hrefused.reported (by decide)
  exact ⟨fun hclaim => hfull (hclaim _ _ _ _ fullMachine_pageMaps (by decide) (by decide) (by decide)),
    hfull, hwrap⟩

end BestOS
