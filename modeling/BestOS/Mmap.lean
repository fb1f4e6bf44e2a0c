/-
BestOS/Mmap.lean

`vmm_mmap`, call after call.

`BestOS/MapRange.lean` describes the loop of one call from above: a page whose
translation has changed is one of the call's.  Here the same loop is described
exactly (`mmapPages_exact`): when the pages of the call are pairwise distinct,
each gets a frame of its own, zeroed and free before.

Three results rest on it.

* Anonymous calls without `MAP_FIXED`, one after another, lay out adjacent
  regions; the invariant of such a run is `Laid`.
* One such call is all or nothing exactly when its size fits the address space
  and the pool holds a frame for every page and every missing table.
* A call without `MAP_FIXED` meets no live mapping as long as the calls before
  it have kept out of the pages that the bump counter has still to reach.

A page map is looked at alone, as `PageMaps s {pagemap}`: a task's page map
keeps the invariant by itself (`PageMaps.alone`), whatever it shares with
others.
-/
import BestOS.KernelHalf
import Mathlib.Data.List.Chain

namespace BestOS

open ByteMemory RadixForest

variable {s s' : Machine} {roots : Set Nat} {shared : Fin 512 → Prop}

/-- Each of several page maps is one by itself. -/
theorem PageMaps.alone (h : PageMaps s roots shared) {r : Nat} (hr : r ∈ roots) :
    PageMaps s {r} fun _ => False where
  pmm := h.pmm
  forest := by
    have hsub : {r} ⊆ roots := Set.singleton_subset_iff.mpr hr
    refine ⟨?_, fun _ _ _ _ _ hsh => hsh.elim⟩
    rintro r₁ rfl r₂ rfl p p' t hp hp' hw hw'
    exact ⟨(h.forest.inj _ hr _ hr p p' t hp hp' hw hw').1, .inl rfl⟩
  frames := fun t ht => h.frames t (ht.mono (Set.singleton_subset_iff.mpr hr))
  plain := fun t ht => h.plain t (ht.mono (Set.singleton_subset_iff.mpr hr))

/-! ### The loop, exactly -/

/-- A frame with nothing in it. -/
def ZeroFrame (m : Mem) (f : Nat) : Prop := ∀ a, a / PAGE_SIZE = f → m a = 0#8

/-- **The loop of `vmm_mmap`, exactly.**  Pairwise distinct pages get frames
that were free, are zeroed and are pairwise distinct. -/
theorem mmapPages_exact (h : PageMaps s roots shared) {r : Nat} (hr : r ∈ roots) (vas : List Nat)
    (hfree : vas.length + (missingTables s.mem r vas).card ≤ freeCount s)
    (htop : ∀ va ∈ vas, TopFree s.mem roots shared r va)
    (hpages : vas.Pairwise fun va va' => vaPage va ≠ vaPage va') :
    (∀ va ∈ vas, ∃ f, Fresh s (mmapPages s r vas) roots f ∧
      ZeroFrame (mmapPages s r vas).mem f ∧ ∀ va', vaPage va' = vaPage va →
        translate (mmapPages s r vas).mem r va' = some (f * PAGE_SIZE)) ∧
    ∀ va ∈ vas, ∀ va' ∈ vas,
      translate (mmapPages s r vas).mem r va = translate (mmapPages s r vas).mem r va' →
      va = va' := by
  induction vas generalizing s with
  | nil => simp
  | cons va vas ih =>
      obtain ⟨hhead, htail⟩ := List.pairwise_cons.mp hpages
      rw [List.length_cons] at hfree
      have hone := missing_le_cons s.mem r va vas
      obtain ⟨hinv₁, hgrow₁, hthere₁, f₁, hfresh₁, hzero₁, hlook₁⟩ :=
        mmapPage_spec h hr va (by omega) (htop va (by simp))
      rw [mmapPages_cons]
      generalize mmapPage s r va = s₁ at *
      have hcount := missingTables_cons vas hr hgrow₁ hthere₁
      have hfree₁ := hgrow₁.free
      have htop₁ : ∀ va' ∈ vas, TopFree s₁.mem roots shared r va' := fun va' hva' =>
        (htop va' (by simp [hva'])).grows hr hgrow₁
      obtain ⟨-, hgrow₂, hlook₂⟩ := mmapPages_spec hinv₁ hr vas (by omega) htop₁
      obtain ⟨hrest, hinj⟩ := ih hinv₁ (by omega) htop₁ htail
      generalize mmapPages s₁ r vas = s₂ at *
      -- the later rounds leave the first page alone
      have hfirst : ∀ va', vaPage va' = vaPage va →
          translate s₂.mem r va' = some (f₁ * PAGE_SIZE) := by
        intro va' hva'
        rcases hlook₂ r hr va' with hsame | ⟨va₂, hmem, hpage, -⟩
        · exact hsame.trans ((hlook₁ r hr va').1 ⟨hva', .inl rfl⟩)
        · exact absurd (hva'.symm.trans hpage.1) (hhead va₂ hmem)
      -- a later round takes a frame that the first page has made used
      have hother : ∀ va' ∈ vas, translate s₂.mem r va ≠ translate s₂.mem r va' := by
        intro va' hva' heq
        obtain ⟨f, hfresh, -, htr⟩ := hrest va' hva'
        rw [hfirst va rfl, htr va' rfl] at heq
        have e : f₁ = f := Nat.eq_of_mul_eq_mul_right (by decide) (Option.some.inj heq)
        exact hfresh.1 (e ▸ hfresh₁.2.used)
      refine ⟨?_, ?_⟩
      · intro va' hva'
        rcases List.mem_cons.mp hva' with rfl | hmem
        · refine ⟨f₁, ⟨hfresh₁.1, hfresh₁.2.grows hgrow₂⟩, ?_, hfirst⟩
          rintro a rfl
          rw [hgrow₂.data a hfresh₁.2.used hfresh₁.2.not_table (hfresh₁.2.apart a rfl)]
          exact hzero₁ a rfl
        · obtain ⟨f, hfresh, hzero, htr⟩ := hrest va' hmem
          exact ⟨f, ⟨fun hu => hfresh.1 (hgrow₁.used f hu), hfresh.2⟩, hzero, htr⟩
      · intro va₁ h₁ va₂ h₂ heq
        rcases List.mem_cons.mp h₁ with e₁ | h₁ <;> rcases List.mem_cons.mp h₂ with e₂ | h₂
        · exact e₁.trans e₂.symm
        · exact absurd (e₁ ▸ heq) (hother va₂ h₂)
        · exact absurd (e₂ ▸ heq.symm) (hother va₁ h₁)
        · exact hinj va₁ h₁ va₂ h₂ heq

/-! ### Calls -/

/-- The arguments of a call of `vmm_mmap` beside the page map. -/
structure MmapCall where
  hint : Nat
  size : Nat
  flags : Nat
deriving Repr, DecidableEq

/-- The flags contain `MAP_ANONYMOUS`. -/
def MmapCall.Anonymous (c : MmapCall) : Prop := c.flags &&& MAP_ANONYMOUS ≠ 0

/-- The flags contain `MAP_FIXED`. -/
def MmapCall.Fixed (c : MmapCall) : Prop := c.flags &&& MAP_FIXED ≠ 0

instance (c : MmapCall) : Decidable c.Anonymous := inferInstanceAs (Decidable (_ ≠ _))

instance (c : MmapCall) : Decidable c.Fixed := inferInstanceAs (Decidable (_ ≠ _))

/-- The addresses the call maps. -/
def MmapCall.addresses (c : MmapCall) (used : Nat) : List Nat :=
  mmapAddresses c.hint c.size c.flags used

/-- The pool holds the frames the call asks for: one for each page, one for
each table missing along its addresses. -/
def MmapCall.Served (c : MmapCall) (pagemap used : Nat) (s : Machine) : Prop :=
  mmapPageCount c.size + (missingTables s.mem pagemap (c.addresses used)).card ≤ freeCount s

/-- The address the bump counter stands for. -/
def bump (used : Nat) : Nat := ALLOC_BASE + 4096 * used

theorem flags_mask (flags : Nat) {b : Nat} (hb : 0xFFFFFFFF &&& b = b) :
    flags &&& 0xFFFFFFFF &&& b = flags &&& b := by
  rw [Nat.and_assoc, hb]

/-- What a call returns. -/
theorem vmmMmap_eq {c : MmapCall} (hanon : c.Anonymous) (s : Machine) (pagemap used : Nat) :
    vmmMmap s pagemap c.hint c.size c.flags used = some
      { ret := mmapVirt c.hint c.flags used
        usedPages := if c.Fixed then used else (used + mmapPageCount c.size) % 2 ^ 64
        machine := mmapPages s pagemap (c.addresses used) } := by
  rw [vmmMmap, flags_mask _ rfl, flags_mask _ rfl, if_neg hanon]
  rfl

theorem vmmMmap_anonymous {c : MmapCall} {s : Machine} {pagemap used : Nat} {res : MmapResult}
    (h : vmmMmap s pagemap c.hint c.size c.flags used = some res) : c.Anonymous := by
  intro hzero
  rw [vmmMmap, flags_mask _ rfl, if_pos hzero] at h
  cases h

theorem mmapVirt_bump {c : MmapCall} (hfix : ¬ c.Fixed) (used : Nat) :
    mmapVirt c.hint c.flags used = bump used % 2 ^ 64 := by
  have hzero : ¬ c.flags &&& MAP_FIXED ≠ 0 := hfix
  rw [mmapVirt, flags_mask _ rfl, if_neg hzero, bump, Nat.add_comm, Nat.mul_comm]

theorem length_addresses (c : MmapCall) (used : Nat) :
    (c.addresses used).length = mmapPageCount c.size := by
  simp [MmapCall.addresses, mmapAddresses]

/-- The `i`-th address of a call without `MAP_FIXED`. -/
theorem mem_addresses_bump {c : MmapCall} (hfix : ¬ c.Fixed) {used va : Nat} :
    va ∈ c.addresses used ↔
      ∃ i < mmapPageCount c.size, va = (bump used + i * 4096) % 2 ^ 64 := by
  simp only [MmapCall.addresses, mmapAddresses, mmapVirt_bump hfix, List.mem_map, List.mem_range,
    Nat.mod_add_mod, eq_comm]

/-- The pages of a call are pairwise distinct as long as they fit the address
space. -/
theorem addresses_pairwise (c : MmapCall) (used : Nat) (h : mmapPageCount c.size ≤ 2 ^ 36) :
    (c.addresses used).Pairwise fun va va' => vaPage va ≠ vaPage va' := by
  rw [MmapCall.addresses, mmapAddresses, List.pairwise_map]
  refine List.pairwise_lt_range.imp_of_mem ?_
  intro i j _ hj hij
  rw [List.mem_range] at hj
  simp only [vaPage, PAGE_SIZE]
  omega

/-- The bytes of a call are its pages. -/
theorem alignUp_eq_pages (size : Nat) :
    alignUp size PAGE_SIZE = 4096 * mmapPageCount size := by
  rw [mmapPageCount, alignUp_page, PAGE_SIZE]
  omega

/-! ### Anonymous calls in sequence -/

/-- A region `[base, base + bytes)`. -/
structure Region where
  base : Nat
  bytes : Nat
deriving Repr, DecidableEq

def Region.Contains (g : Region) (va : Nat) : Prop := g.base ≤ va ∧ va < g.base + g.bytes

instance (g : Region) (va : Nat) : Decidable (g.Contains va) := inferInstanceAs (Decidable (_ ∧ _))

/-- Calls of `vmm_mmap` on one page map and one counter, each meeting `ok` in
the state it is made in; the regions they have returned, in order. -/
inductive MmapRun (ok : MmapCall → Nat → Machine → Prop) (pagemap used₀ : Nat) (s₀ : Machine) :
    List Region → Nat → Machine → Prop
  | start : MmapRun ok pagemap used₀ s₀ [] used₀ s₀
  | call {regions used s res} (c : MmapCall) :
      MmapRun ok pagemap used₀ s₀ regions used s → ok c used s →
      vmmMmap s pagemap c.hint c.size c.flags used = some res →
      MmapRun ok pagemap used₀ s₀ (regions ++ [⟨res.ret, alignUp c.size PAGE_SIZE⟩])
        res.usedPages res.machine

/-- An anonymous call without `MAP_FIXED` for which there are frames and
addresses. -/
structure PlainCall (pagemap : Nat) (c : MmapCall) (used : Nat) (s : Machine) : Prop where
  anonymous : c.Anonymous
  not_fixed : ¬ c.Fixed
  size : c.size ≤ 2 ^ 64 - 4096
  served : c.Served pagemap used s
  below : bump (used + mmapPageCount c.size) < 2 ^ 47

/-- What a plain call has done to the page map: the pages from `bump used` to
`bump used'` have frames of their own, and no other page has changed. -/
structure Extends (s s' : Machine) (pagemap used used' : Nat) : Prop where
  maps : PageMaps s' {pagemap} fun _ => False
  grows : ∃ n, Grows s s' {pagemap} n
  fresh : ∀ va, bump used ≤ va → va < bump used' →
    ∃ f, Fresh s s' {pagemap} f ∧ translate s'.mem pagemap va = some (f * PAGE_SIZE)
  apart : ∀ va va', bump used ≤ va → va < bump used' → bump used ≤ va' → va' < bump used' →
    translate s'.mem pagemap va = translate s'.mem pagemap va' → va / PAGE_SIZE = va' / PAGE_SIZE
  kept : ∀ va, va < bump used → translate s'.mem pagemap va = translate s.mem pagemap va

/-- **One plain call.** -/
theorem PlainCall.spec {pagemap used : Nat} {c : MmapCall}
    (h : PageMaps s {pagemap} fun _ => False) (hc : PlainCall pagemap c used s) :
    ∃ s', vmmMmap s pagemap c.hint c.size c.flags used
        = some ⟨bump used, used + mmapPageCount c.size, s'⟩ ∧
      Extends s s' pagemap used (used + mmapPageCount c.size) := by
  obtain ⟨hanon, hfix, -, hserved, hbelow⟩ := hc
  generalize hn : mmapPageCount c.size = n at *
  have hlt : bump used + n * 4096 < 2 ^ 47 := by
    simp only [bump] at hbelow ⊢
    omega
  have hcount : (c.addresses used).length + (missingTables s.mem pagemap (c.addresses used)).card
      ≤ freeCount s := by
    rwa [length_addresses]
  have htop : ∀ va ∈ c.addresses used, TopFree s.mem {pagemap} (fun _ => False) pagemap va :=
    fun va _ _ hsh => hsh.elim
  obtain ⟨hinv, hgrow, hlook⟩ := mmapPages_spec h rfl _ hcount htop
  obtain ⟨hexact, hinj⟩ := mmapPages_exact h rfl _ hcount htop
    (addresses_pairwise c used (by simp only [bump] at hlt; omega))
  have hmem : ∀ va, va ∈ c.addresses used ↔ ∃ i < n, va = bump used + i * 4096 := by
    intro va
    rw [mem_addresses_bump hfix, hn]
    refine exists_congr fun i => and_congr_right fun hi => ?_
    have hi' : i * 4096 < n * 4096 := Nat.mul_lt_mul_of_pos_right hi (by decide)
    have hlt64 : bump used + i * 4096 < 2 ^ 64 :=
      (Nat.add_lt_add_left hi' _).trans (hlt.trans (by decide))
    rw [Nat.mod_eq_of_lt hlt64]
  -- an address of the new region, and the first address of its page
  have hpage : ∀ va, bump used ≤ va → va < bump (used + n) →
      va / PAGE_SIZE * PAGE_SIZE ∈ c.addresses used ∧ vaPage va = vaPage (va / PAGE_SIZE * PAGE_SIZE) := by
    intro va h1 h2
    rw [hmem]
    simp only [bump, ALLOC_BASE, vaPage, PAGE_SIZE] at h1 h2 ⊢
    refine ⟨⟨(va - (0x1000000 + 4096 * used)) / 4096, by omega, by omega⟩, by omega⟩
  have hused : (if c.Fixed then used else (used + mmapPageCount c.size) % 2 ^ 64) = used + n := by
    rw [if_neg hfix, hn, Nat.mod_eq_of_lt]
    simp only [bump] at hlt
    omega
  refine ⟨_, ?_, hinv, ⟨_, hgrow⟩, ?_, ?_, ?_⟩
  · rw [vmmMmap_eq hanon, mmapVirt_bump hfix, hused,
      Nat.mod_eq_of_lt (show bump used < 2 ^ 64 by omega)]
  · intro va h1 h2
    obtain ⟨hin, heq⟩ := hpage va h1 h2
    obtain ⟨f, hfresh, -, htr⟩ := hexact _ hin
    exact ⟨f, hfresh, htr va heq⟩
  · intro va va' h1 h2 h1' h2' heq
    obtain ⟨hin, hsame⟩ := hpage va h1 h2
    obtain ⟨hin', hsame'⟩ := hpage va' h1' h2'
    obtain ⟨f, -, -, htr⟩ := hexact _ hin
    obtain ⟨f', -, -, htr'⟩ := hexact _ hin'
    rw [htr va hsame, htr' va' hsame', ← htr _ rfl, ← htr' _ rfl] at heq
    exact Nat.eq_of_mul_eq_mul_right (by decide) (hinj _ hin _ hin' heq)
  · intro va hva
    rcases hlook pagemap rfl va with hsame | ⟨va₂, hin, hsame, -⟩
    · exact hsame
    · obtain ⟨i, hi, rfl⟩ := (hmem va₂).mp hin
      have heq := hsame.1
      simp only [vaPage, PAGE_SIZE, bump, ALLOC_BASE] at heq hva hlt
      omega

theorem bump_mono {used used' : Nat} (h : used ≤ used') : bump used ≤ bump used' :=
  Nat.add_le_add_left (Nat.mul_le_mul_left _ h) _

theorem Extends.refl {pagemap : Nat} (h : PageMaps s {pagemap} fun _ => False) (used : Nat) :
    Extends s s pagemap used used where
  maps := h
  grows := ⟨0, Grows.refl _ _ _⟩
  fresh := fun _ h1 h2 => absurd (Nat.lt_of_le_of_lt h1 h2) (Nat.lt_irrefl _)
  apart := fun _ _ h1 h2 => absurd (Nat.lt_of_le_of_lt h1 h2) (Nat.lt_irrefl _)
  kept := fun _ _ => rfl

/-- Later pages leave the earlier ones alone and get other frames. -/
theorem Extends.trans {s'' : Machine} {pagemap used used' used'' : Nat}
    (h₁ : Extends s s' pagemap used used') (h₂ : Extends s' s'' pagemap used' used'')
    (hle : used ≤ used') : Extends s s'' pagemap used used'' := by
  obtain ⟨n₁, hgrow₁⟩ := h₁.grows
  obtain ⟨n₂, hgrow₂⟩ := h₂.grows
  have hbump := bump_mono hle
  -- the second half leaves the pages of the first alone
  have hold : ∀ va, bump used ≤ va → va < bump used' → ∃ f, Fresh s s' {pagemap} f ∧
      translate s''.mem pagemap va = some (f * PAGE_SIZE) := by
    intro va h1 h2
    obtain ⟨f, hfresh, htr⟩ := h₁.fresh va h1 h2
    exact ⟨f, hfresh, (h₂.kept va h2).trans htr⟩
  -- a frame of the second half was free while the first half was mapped
  have hcross : ∀ va va', bump used ≤ va → va < bump used' → bump used' ≤ va' → va' < bump used'' →
      translate s''.mem pagemap va ≠ translate s''.mem pagemap va' := by
    intro va va' h1 h2 h3 h4 heq
    obtain ⟨f, hfresh, htr⟩ := hold va h1 h2
    obtain ⟨f', hfresh', htr'⟩ := h₂.fresh va' h3 h4
    rw [htr, htr'] at heq
    have e : f = f' := Nat.eq_of_mul_eq_mul_right (by decide) (Option.some.inj heq)
    exact hfresh'.1 (e ▸ hfresh.2.used)
  refine ⟨h₂.maps, ⟨_, hgrow₁.trans hgrow₂⟩, ?_, ?_, ?_⟩
  · intro va h1 h2
    by_cases hva : va < bump used'
    · obtain ⟨f, hfresh, htr⟩ := hold va h1 hva
      exact ⟨f, ⟨hfresh.1, hfresh.2.grows hgrow₂⟩, htr⟩
    · obtain ⟨f, hfresh, htr⟩ := h₂.fresh va (Nat.le_of_not_lt hva) h2
      exact ⟨f, ⟨fun hu => hfresh.1 (hgrow₁.used f hu), hfresh.2⟩, htr⟩
  · intro va va' h1 h2 h1' h2' heq
    by_cases hva : va < bump used' <;> by_cases hva' : va' < bump used'
    · rw [h₂.kept va hva, h₂.kept va' hva'] at heq
      exact h₁.apart va va' h1 hva h1' hva' heq
    · exact absurd heq (hcross va va' h1 hva (Nat.le_of_not_lt hva') h2')
    · exact absurd heq.symm (hcross va' va h1' hva' (Nat.le_of_not_lt hva) h2)
    · exact h₂.apart va va' (Nat.le_of_not_lt hva) h2 (Nat.le_of_not_lt hva') h2' heq
  · intro va hva
    rw [h₂.kept va (Nat.lt_of_lt_of_le hva hbump), h₁.kept va hva]

/-- The invariant of a run of plain calls: the regions lie one behind the other
up to the counter, and their pages are the ones the run has added. -/
structure Laid (pagemap used₀ : Nat) (s₀ : Machine) (regions : List Region) (used : Nat)
    (s : Machine) : Prop where
  le : used₀ ≤ used
  adjacent : regions.IsChain fun g g' => g'.base = g.base + g.bytes
  ordered : regions.Pairwise fun g g' => g.base + g.bytes ≤ g'.base
  within : ∀ g ∈ regions, bump used₀ ≤ g.base ∧ g.base + g.bytes ≤ bump used
  last : ∀ g ∈ regions.getLast?, g.base + g.bytes = bump used
  pages : Extends s₀ s pagemap used₀ used

/-- One more plain call. -/
theorem Laid.call {pagemap used₀ used : Nat} {s₀ : Machine} {regions : List Region}
    {c : MmapCall} {res : MmapResult} (h : Laid pagemap used₀ s₀ regions used s)
    (hc : PlainCall pagemap c used s)
    (hres : vmmMmap s pagemap c.hint c.size c.flags used = some res) :
    Laid pagemap used₀ s₀ (regions ++ [⟨res.ret, alignUp c.size PAGE_SIZE⟩]) res.usedPages
      res.machine := by
  obtain ⟨s', heq, hext⟩ := hc.spec h.pages.maps
  rw [heq] at hres
  obtain rfl := Option.some.inj hres
  rw [alignUp_eq_pages]
  -- the counter stands at the end of the last region
  have hend : bump used + 4096 * mmapPageCount c.size = bump (used + mmapPageCount c.size) := by
    rw [bump, bump, Nat.mul_add, Nat.add_assoc]
  have hmono := bump_mono (Nat.le_add_right used (mmapPageCount c.size))
  refine ⟨h.le.trans (Nat.le_add_right _ _), ?_, ?_, ?_, ?_, h.pages.trans hext h.le⟩
  · refine h.adjacent.append (.singleton _) ?_
    intro g hg g' hg'
    obtain rfl : _ = g' := by simpa using hg'
    exact (h.last g hg).symm
  · refine List.pairwise_append.mpr ⟨h.ordered, List.pairwise_singleton _ _, ?_⟩
    intro g hg g' hg'
    obtain rfl := List.mem_singleton.mp hg'
    exact (h.within g hg).2
  · intro g hg
    rcases List.mem_append.mp hg with hg | hg
    · exact ⟨(h.within g hg).1, (h.within g hg).2.trans hmono⟩
    · obtain rfl := List.mem_singleton.mp hg
      exact ⟨bump_mono h.le, hend.le⟩
  · intro g hg
    obtain rfl : _ = g := by simpa using hg
    exact hend

theorem MmapRun.laid {pagemap used₀ used : Nat} {s₀ : Machine} {regions : List Region}
    (h : PageMaps s₀ {pagemap} fun _ => False)
    (hrun : MmapRun (PlainCall pagemap) pagemap used₀ s₀ regions used s) :
    Laid pagemap used₀ s₀ regions used s := by
  induction hrun with
  | start => exact ⟨Nat.le_refl _, .nil, .nil, by simp, by simp, Extends.refl h used₀⟩
  | call c _ hok hres ih => exact ih.call hok hres

/-- **Anonymous `vmm_mmap` calls in sequence.**  The regions they return are
adjacent and pairwise disjoint; every page of every region is translated to a
frame that was free before the first call and is neither a table nor part of
the bitmap; no two pages share a frame; calls that follow return and change no
translation inside an earlier region. -/
theorem anonymous_mmaps {pagemap used₀ used used' : Nat} {s₀ s s' : Machine}
    {regions later : List Region} (h : PageMaps s₀ {pagemap} fun _ => False)
    (hrun : MmapRun (PlainCall pagemap) pagemap used₀ s₀ regions used s)
    (hlater : MmapRun (PlainCall pagemap) pagemap used s later used' s') :
    (regions.IsChain fun g g' => g'.base = g.base + g.bytes) ∧
    (regions.Pairwise fun g g' => ∀ va, ¬ (g.Contains va ∧ g'.Contains va)) ∧
    (∀ g ∈ regions, ∀ va, g.Contains va → ∃ f, Fresh s₀ s {pagemap} f ∧
      translate s.mem pagemap va = some (f * PAGE_SIZE)) ∧
    (∀ g ∈ regions, ∀ g' ∈ regions, ∀ va va', g.Contains va → g'.Contains va' →
      translate s.mem pagemap va = translate s.mem pagemap va' →
      va / PAGE_SIZE = va' / PAGE_SIZE) ∧
    (∀ g ∈ regions, ∀ va, g.Contains va →
      translate s'.mem pagemap va = translate s.mem pagemap va) ∧
    ∀ c, PlainCall pagemap c used s →
      ∃ res, vmmMmap s pagemap c.hint c.size c.flags used = some res := by
  have hlaid := hrun.laid h
  -- every region lies between the counter before the run and the counter now
  have hin : ∀ g ∈ regions, ∀ va, g.Contains va → bump used₀ ≤ va ∧ va < bump used :=
    fun g hg va hva => ⟨(hlaid.within g hg).1.trans hva.1, hva.2.trans_le (hlaid.within g hg).2⟩
  refine ⟨hlaid.adjacent, hlaid.ordered.imp ?_, ?_, ?_, ?_, ?_⟩
  · rintro g g' hle va ⟨hva, hva'⟩
    exact absurd (hva.2.trans_le hle) (Nat.not_lt.mpr hva'.1)
  · intro g hg va hva
    exact hlaid.pages.fresh va (hin g hg va hva).1 (hin g hg va hva).2
  · intro g hg g' hg' va va' hva hva' heq
    obtain ⟨h1, h2⟩ := hin g hg va hva
    obtain ⟨h1', h2'⟩ := hin g' hg' va' hva'
    exact hlaid.pages.apart va va' h1 h2 h1' h2' heq
  · intro g hg va hva
    exact (hlater.laid hlaid.pages.maps).pages.kept va (hin g hg va hva).2
  · intro c hc
    obtain ⟨s'', heq, -⟩ := hc.spec hlaid.pages.maps
    exact ⟨_, heq⟩

/-- One anonymous page. -/
def onePage : MmapCall := ⟨0, 0x1000, MAP_ANONYMOUS⟩

theorem onePage_addresses : onePage.addresses 0 = [ALLOC_BASE] := by decide

theorem onePage_served {pagemap : Nat} (h : 4 ≤ freeCount s) : onePage.Served pagemap 0 s := by
  have hmiss := (card_missingTables_le s.mem pagemap [ALLOC_BASE]).trans
    (card_tablesFor_le (G := {8}) (by decide))
  have hcount : mmapPageCount onePage.size = 1 := by decide
  rw [Finset.card_singleton] at hmiss
  rw [MmapCall.Served, onePage_addresses, hcount]
  omega

theorem onePage_plain {pagemap : Nat} (h : 4 ≤ freeCount s) : PlainCall pagemap onePage 0 s where
  anonymous := by decide
  not_fixed := by decide
  size := by decide
  served := onePage_served h
  below := by decide

/-- One call, from the empty page map of `tinyMachine`. -/
theorem onePage_run {s₀ : Machine} {pagemap : Nat} (h : 4 ≤ freeCount s₀) :
    MmapRun (PlainCall pagemap) pagemap 0 s₀ [⟨ALLOC_BASE, 0x1000⟩] 1
      (mmapPages s₀ pagemap [ALLOC_BASE]) := by
  have heq := vmmMmap_eq (show onePage.Anonymous by decide) s₀ pagemap 0
  rw [onePage_addresses] at heq
  exact .call onePage .start (onePage_plain h) heq

theorem anonymous_mmaps_tiny :
    ∃ f, Fresh (tinyMachine 0b111#8) (mmapPages (tinyMachine 0b111#8) 0x2000 [ALLOC_BASE]) {0x2000} f ∧
      translate (mmapPages (tinyMachine 0b111#8) 0x2000 [ALLOC_BASE]).mem 0x2000 0x1000fff
        = some (f * PAGE_SIZE) :=
  (anonymous_mmaps tinyMachine_pageMaps (onePage_run (by decide +kernel)) .start).2.2.1 _
    (List.mem_singleton.mpr rfl) _ (by decide)

/-- **A tree of used frames is not enough for `vmm_mmap` either.**  Through the
entry with bit 9 set the page of the very first call stays untranslated. -/
theorem usedTree_not_enough_for_mmap :
    ¬ ∀ (s₀ s : Machine) (pagemap used₀ used : Nat) (regions : List Region),
      UsedTree s₀ pagemap → MmapRun (PlainCall pagemap) pagemap used₀ s₀ regions used s →
      ∀ g ∈ regions, ∀ va, g.Contains va → ∃ f, translate s.mem pagemap va = some f := by
  intro hclaim
  have hfree : 4 ≤ freeCount leakyMachine := by decide +kernel
  obtain ⟨f, hf⟩ := hclaim _ _ _ _ _ _ leakyMachine_usedTree (onePage_run hfree) _
    (List.mem_singleton.mpr rfl) ALLOC_BASE (by decide)
  have hnone : translate (mmapPages leakyMachine 0x2000 [ALLOC_BASE]).mem 0x2000 ALLOC_BASE = none := by
    simp only [mmapPages, List.foldl_cons, List.foldl_nil, mmapPage, vmmMap, writePml1, getPml1,
      getNextLevel, pmmAllocateZero, memset_eq]
    decide +kernel
  rw [hnone] at hf
  cases hf

/-! ### Live mappings -/

/-- The page is one that the counter, now at `used`, reaches before `limit`. -/
def Ahead (used limit va : Nat) : Prop := ∃ n, used ≤ n ∧ n < limit ∧ vaPage va = vaPage (bump n)

/-- The call keeps out of the pages ahead: with `MAP_FIXED` it maps none of
them, without it takes the next ones up to `limit`; and the pool can serve
it. -/
structure KeepsAhead (pagemap limit : Nat) (c : MmapCall) (used : Nat) (s : Machine) : Prop where
  served : c.Served pagemap used s
  fixed : c.Fixed → ∀ va ∈ c.addresses used, ¬ Ahead used limit va
  bumped : ¬ c.Fixed → used + mmapPageCount c.size ≤ limit

/-- The pages ahead of the counter are not in use. -/
structure AheadFree (pagemap limit used₀ used : Nat) (s : Machine) : Prop where
  maps : PageMaps s {pagemap} fun _ => False
  le : used₀ ≤ used
  free : ∀ va, Ahead used limit va → translate s.mem pagemap va = none

/-- Pages within one turn of the address space are told apart by their number. -/
theorem bump_inj {n n' : Nat} (h : vaPage (bump n) = vaPage (bump n')) (h1 : n ≤ n')
    (h2 : n' < n + 2 ^ 36) : n = n' := by
  simp only [vaPage, bump, ALLOC_BASE, PAGE_SIZE] at h
  omega

/-- The addresses of a call without `MAP_FIXED` are the next pages. -/
theorem exists_bump_of_mem {c : MmapCall} (hfix : ¬ c.Fixed) {used va : Nat}
    (hva : va ∈ c.addresses used) : ∃ i < mmapPageCount c.size, vaPage va = vaPage (bump (used + i)) := by
  obtain ⟨i, hi, rfl⟩ := (mem_addresses_bump hfix).mp hva
  refine ⟨i, hi, ?_⟩
  simp only [vaPage, bump, PAGE_SIZE]
  omega

/-- One call. -/
theorem AheadFree.call {pagemap limit used₀ used : Nat} {c : MmapCall} {res : MmapResult}
    (h : AheadFree pagemap limit used₀ used s) (hturn : limit ≤ used₀ + 2 ^ 36)
    (hlimit : limit < 2 ^ 64) (hc : KeepsAhead pagemap limit c used s)
    (hres : vmmMmap s pagemap c.hint c.size c.flags used = some res) :
    AheadFree pagemap limit used₀ res.usedPages res.machine := by
  rw [vmmMmap_eq (vmmMmap_anonymous hres)] at hres
  obtain rfl := Option.some.inj hres
  have hcount : (c.addresses used).length + (missingTables s.mem pagemap (c.addresses used)).card
      ≤ freeCount s := by
    rw [length_addresses]
    exact hc.served
  obtain ⟨hinv, -, hlook⟩ := mmapPages_spec h.maps rfl _ hcount fun va _ _ hsh => hsh.elim
  have hle := h.le
  by_cases hfix : c.Fixed
  · -- the counter stays, and the call maps no page ahead of it
    dsimp only
    rw [if_pos hfix]
    refine ⟨hinv, hle, fun va hva => ?_⟩
    rcases hlook pagemap rfl va with hsame | ⟨va₂, hin, hpage, -⟩
    · exact hsame.trans (h.free va hva)
    · obtain ⟨n, h1, h2, hn⟩ := hva
      exact absurd ⟨n, h1, h2, hpage.1.symm.trans hn⟩ (hc.fixed hfix va₂ hin)
  · -- the counter moves behind the pages the call maps
    have hbump := hc.bumped hfix
    dsimp only
    rw [if_neg hfix, Nat.mod_eq_of_lt (by omega)]
    refine ⟨hinv, by omega, fun va hva => ?_⟩
    obtain ⟨n, h1, h2, hn⟩ := hva
    rcases hlook pagemap rfl va with hsame | ⟨va₂, hin, hpage, -⟩
    · exact hsame.trans (h.free va ⟨n, by omega, h2, hn⟩)
    · obtain ⟨i, hi, hva₂⟩ := exists_bump_of_mem hfix hin
      have hsame : vaPage (bump (used + i)) = vaPage (bump n) := by
        rw [← hva₂, ← hpage.1, hn]
      have := bump_inj hsame (by omega) (by omega)
      omega

theorem MmapRun.aheadFree {pagemap limit used₀ used : Nat} {s₀ : Machine} {regions : List Region}
    (h : AheadFree pagemap limit used₀ used₀ s₀) (hturn : limit ≤ used₀ + 2 ^ 36)
    (hlimit : limit < 2 ^ 64)
    (hrun : MmapRun (KeepsAhead pagemap limit) pagemap used₀ s₀ regions used s) :
    AheadFree pagemap limit used₀ used s := by
  induction hrun with
  | start => exact h
  | call c _ hok hres ih => exact ih.call hturn hlimit hok hres

/-- **`vmm_mmap` meets no live mapping.**  After any sequence of calls that keep
out of the pages ahead of the counter, a call without `MAP_FIXED` returns a
region none of whose pages was translated. -/
theorem mmap_meets_no_live_mapping {pagemap limit used₀ used : Nat} {s₀ s : Machine}
    {regions : List Region} {c : MmapCall} (h : PageMaps s₀ {pagemap} fun _ => False)
    (hstart : ∀ va, Ahead used₀ limit va → translate s₀.mem pagemap va = none)
    (hturn : limit ≤ used₀ + 2 ^ 36) (hlimit : limit < 2 ^ 64)
    (hrun : MmapRun (KeepsAhead pagemap limit) pagemap used₀ s₀ regions used s)
    (hanon : c.Anonymous) (hfix : ¬ c.Fixed) (hnext : used + mmapPageCount c.size ≤ limit) :
    ∃ res, vmmMmap s pagemap c.hint c.size c.flags used = some res ∧
      ∀ va, Region.Contains ⟨res.ret, alignUp c.size PAGE_SIZE⟩ va →
        translate s.mem pagemap va = none := by
  have hfree := hrun.aheadFree ⟨h, Nat.le_refl _, hstart⟩ hturn hlimit
  refine ⟨_, vmmMmap_eq hanon s pagemap used, ?_⟩
  rintro va ⟨h1, h2⟩
  dsimp only at h1 h2
  rw [mmapVirt_bump hfix] at h1 h2
  rw [alignUp_eq_pages] at h2
  refine hfree.free va ⟨used + (va - bump used % 2 ^ 64) / 4096, by omega, by omega, ?_⟩
  simp only [vaPage, bump, ALLOC_BASE, PAGE_SIZE] at h1 h2 ⊢
  omega

/-- One page at 4 MiB, below everything the counter reaches. -/
def lowPage : MmapCall := ⟨0x400000, 0x1000, MAP_FIXED ||| MAP_ANONYMOUS⟩

theorem fixedPage_served {pagemap hint used : Nat} (hlt : hint < 2 ^ 64) (h : 4 ≤ freeCount s) :
    (⟨hint, 0x1000, MAP_FIXED ||| MAP_ANONYMOUS⟩ : MmapCall).Served pagemap used s := by
  have hmiss := (card_missingTables_le s.mem pagemap [hint]).trans
    (card_tablesFor_le (G := {hint / 2 ^ 21}) (by simp))
  have hcount : mmapPageCount 0x1000 = 1 := by decide
  rw [Finset.card_singleton] at hmiss
  simp only [MmapCall.Served, MmapCall.addresses, mmapAddresses_fixed hlt, hcount]
  omega

/-- One page where the counter starts. -/
def basePage : MmapCall := ⟨ALLOC_BASE, 0x1000, MAP_FIXED ||| MAP_ANONYMOUS⟩

/-- `tinyMachine`: a page at 4 MiB, then a page wherever there is room. -/
theorem mmap_meets_no_live_mapping_tiny :
    ∃ s regions res, MmapRun (KeepsAhead 0x2000 1) 0x2000 0 (tinyMachine 0b111#8) regions 0 s ∧
      vmmMmap s 0x2000 onePage.hint onePage.size onePage.flags 0 = some res ∧
      ∀ va, Region.Contains ⟨res.ret, alignUp onePage.size PAGE_SIZE⟩ va →
        translate s.mem 0x2000 va = none := by
  have hempty : ∀ va, translate (tinyMachine 0b111#8).mem 0x2000 va = none := by
    intro va
    rw [translate, vaPath, walk, tinyMachine_child _ (by decide)]
    rfl
  have hlow : KeepsAhead 0x2000 1 lowPage 0 (tinyMachine 0b111#8) := by
    refine ⟨fixedPage_served (by decide) (by decide +kernel), fun _ va hva => ?_, by decide⟩
    rw [MmapCall.addresses, lowPage, mmapAddresses_fixed (by decide), List.mem_singleton] at hva
    rintro ⟨n, -, hn, hpage⟩
    obtain rfl : n = 0 := by omega
    exact absurd (hva ▸ hpage) (by decide)
  have hrun := MmapRun.call lowPage .start hlow
    (vmmMmap_eq (show lowPage.Anonymous by decide) (tinyMachine 0b111#8) 0x2000 0)
  obtain ⟨res, hres, hfree⟩ := mmap_meets_no_live_mapping (c := onePage) tinyMachine_pageMaps
    (fun va _ => hempty va) (by decide) (by decide) hrun (by decide) (by decide) (by decide)
  exact ⟨_, _, res, hrun, hres, hfree⟩

/-- **`vmm_mmap` replaces a live mapping.**  The first task of a booted machine
maps a page at `ALLOC_BASE` with `MAP_FIXED`; a call without it then returns
that very page. -/
theorem mmap_replaces_live_mapping :
    ∃ t s used regions res va, flatTask.tasks[0]? = some t ∧
      MmapRun (fun _ _ _ => True) t.pagemap t.usedPages flatTask.machine regions used s ∧
      vmmMmap s t.pagemap onePage.hint onePage.size onePage.flags used = some res ∧
      Region.Contains ⟨res.ret, alignUp onePage.size PAGE_SIZE⟩ va ∧
      translate s.mem t.pagemap va ≠ none := by
  obtain ⟨t, ht, hcount, -⟩ := flatTask_spec
  obtain ⟨own, hinv⟩ := flatTask_run.inv (spaceInv_boot flatBootOk flatBoot_eq)
  have halone := hinv.maps.alone (task_mem_pagemaps (List.mem_of_getElem? ht))
  have hzero : t.usedPages = 0 := by
    obtain ⟨f₀, f, htasks, -⟩ := taskInit_spec (spaceInv_boot flatBootOk flatBoot_eq).maps
      flatBoot_keepsHalves.1 flatBoot_keepsHalves.2 0
    rw [flatTask, htasks] at ht
    obtain rfl := Option.some.inj ht
    rfl
  have haddr : basePage.addresses 0 = [ALLOC_BASE] := mmapAddresses_fixed (by decide) 0
  have hserved : basePage.Served t.pagemap 0 flatTask.machine :=
    fixedPage_served (by decide) (by omega)
  -- the first call translates the page
  obtain ⟨hexact, -⟩ := mmapPages_exact halone rfl (basePage.addresses 0)
    (by rw [length_addresses]; exact hserved) (fun va _ _ hsh => hsh.elim)
    (by rw [haddr]; exact List.pairwise_singleton _ _)
  obtain ⟨f, -, -, htr⟩ := hexact ALLOC_BASE (by rw [haddr]; exact List.mem_singleton.mpr rfl)
  have hrun : MmapRun (fun _ _ _ => True) t.pagemap t.usedPages flatTask.machine
      [⟨ALLOC_BASE, 0x1000⟩] 0 (mmapPages flatTask.machine t.pagemap (basePage.addresses 0)) := by
    rw [hzero]
    exact .call basePage .start trivial
      (vmmMmap_eq (show basePage.Anonymous by decide) flatTask.machine t.pagemap 0)
  have hcontains : Region.Contains ⟨ALLOC_BASE, 0x1000⟩ ALLOC_BASE := by decide
  refine ⟨t, _, 0, [⟨ALLOC_BASE, 0x1000⟩], _, ALLOC_BASE, ht, hrun,
    vmmMmap_eq (by decide) _ _ _, hcontains, ?_⟩
  rw [htr ALLOC_BASE rfl]
  simp

end BestOS
