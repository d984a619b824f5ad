import Mathlib
import AuOs.Memory.BuddyRun
import AuOs.Memory.Setup
import AuOs.Paging.Build
import AuOs.Paging.KmapSafe

/-!
# From `kmap_setup` on

* `TablesLive` — the page tables lie on no page that the zones would hand out.
* `kmapSetupPool_get` — the pool of `kmap_setup`, over the zones.
* `KmapReady` — what `kmap_setup` finds: tables that leave the region unmapped.
* `kmapSetup_spec` — what it leaves: every last-level table of the region, and no page mapped.
* `kmap_safe` — every run of `kmap` and `kunmap` after it.
* `direct_page_unmaps` — a page whose address in the direct mapping is one of the region.
-/

set_option autoImplicit false

namespace AuOs

open DyadicTiling (Block)

/-- A table on a managed page lies in a block that is allocated. -/
def TablesLive (M : Set Nat) (live : List Block) (used : Set Nat) : Prop :=
  ∀ t ∈ used, ∀ i ∈ M, t = i * 4096 → ∃ b ∈ live, i ∈ b.cells

variable {pml4 : Nat} {M used : Set Nat} {live : List Block} {s : Paging (List Zone)}

/-- **A page for a table**, or no zone has one. -/
theorem kmapSetupPool_get (hM : PagesOk M) (h : ZonesInv s.pages M live)
    (ht : TablesLive M live used) : (kmapSetupPool.get_page s = .error (.bug .kmapSetupNoPage) ∧
      ∀ z ∈ s.pages, ∀ b ∈ freeList z, b.order < 0) ∨
    ∃ s' i, kmapSetupPool.get_page s = .ok (i * 4096, s') ∧ Fresh used s s' (i * 4096) ∧
      ZonesInv s'.pages M (⟨i, 0⟩ :: live) ∧
      TablesLive M (⟨i, 0⟩ :: live) (insert (i * 4096) used) := by
  simp only [kmapSetupPool, pageAlloc]
  rcases @pageAllocRaw_spec _ _ _ 0 h with ⟨hnone, hfew⟩ | ⟨zones, i, hsome, _, hinv, _⟩
  · rw [hnone]
    exact Or.inl ⟨rfl, hfew (Nat.zero_le _)⟩
  · refine Or.inr ?_
    have htiling := hinv.tiling
    have hi : i ∈ M := htiling.cells_subset (by simp) (Block.start_mem ⟨i, 0⟩)
    have hbound := hM i hi
    rw [show ADDR_LIMIT / PAGE_SIZE = 2 ^ 40 from rfl] at hbound
    have hmod : i * PAGE_SIZE % WORD = i * 4096 := by
      apply Nat.mod_eq_of_lt
      rw [show PAGE_SIZE = 4096 from rfl, WORD_eq]
      omega
    have hne : ¬ i * 4096 = 0 := by omega
    refine ⟨{ s.clear (i * 4096) with pages := zones }, i, ?_,
      ⟨⟨hne, by omega, by omega⟩, ?_, ?_, ?_⟩, hinv, ?_⟩
    · rw [hsome]
      simp only [ok_bind, pure_eq_ok, hmod, bugOn_neg hne]
    · intro hused
      obtain ⟨b, hb, hib⟩ := ht _ hused i hi rfl
      exact htiling.not_mem_of_cons (List.mem_append_left _ hb) hib (Block.start_mem ⟨i, 0⟩)
    · intro j
      have hzero : Function.update s.mem (i * 4096) (fun _ => 0) (i * 4096) = fun _ => 0 :=
        Function.update_self ..
      exact congrFun hzero j
    · intro x hx
      exact Function.update_of_ne hx ..
    · rintro t (rfl | hused) j hj hjt
      · obtain rfl : i = j := by omega
        exact ⟨_, List.mem_cons_self, Block.start_mem ⟨i, 0⟩⟩
      · obtain ⟨b, hb, hjb⟩ := ht t hused j hj hjt
        exact ⟨b, List.mem_cons_of_mem _ hb, hjb⟩

/-- Any number of pages is asked for; the zones may run out. -/
def ZonePages (M : Set Nat) (_ : Nat) (zones : List Zone) (used : Set Nat) : Prop :=
  ∃ live, ZonesInv zones M live ∧ TablesLive M live used

theorem kmapSetupPool_ok (hM : PagesOk M) :
    PoolOk (some kmapSetupPool) (fun e => e = .bug .kmapSetupNoPage) (ZonePages M) where
  mono _ h := h
  get p hp k s used h := by
    obtain rfl := Option.some.inj hp
    obtain ⟨live, hinv, ht⟩ := h
    rcases kmapSetupPool_get hM hinv ht with ⟨hget, _⟩ | ⟨s', i, hget, hfresh, hinv', ht'⟩
    · rw [hget]
      exact Post.error rfl
    · rw [hget]
      exact Post.ok ⟨hfresh, _, hinv', ht'⟩

/-! ## `kmap_setup` -/

/-- The tables form a tree that does not map the region, and are safe from the page allocator. -/
structure KmapReady (pml4 : Nat) (M : Set Nat) (live : List Block)
    (s : Paging (List Zone)) : Prop where
  root : RootAddr pml4
  tree : pageTable.Tree s.mem 4 pml4
  unmapped : ∀ v, KMAP_BEGIN ≤ v → v < KMAP_END → translate s.mem pml4 v = none
  zones : ZonesInv s.pages M live
  pages : PagesOk M
  tables : TablesLive M live (pageTable.tables s.mem 4 pml4)

theorem kmap_lastAddr : lastAddr KMAP_END = KMAP_END - 1 := by
  decide

theorem kmap_pageRange : PageRange KMAP_BEGIN KMAP_END 0 :=
  ⟨by decide, by decide, by decide, by decide, Or.inr (by decide), rfl, by decide⟩

/-- **The region is built**, whatever pool the pages come from. -/
theorem kmapSetup_spec {E : Stop → Prop} {I : Nat → List Zone → Set Nat → Prop}
    (hok : PoolOk (some kmapSetupPool) E I) (h : KmapReady pml4 M live s)
    (hI : I (0 + 512 * entryPages 3) s.pages (pageTable.tables s.mem 4 pml4))
    (array : Option (Nat → KmapRange)) :
    Post (kmapSetup pml4 array s) (fun e => E e ∨ array = none) fun k =>
    KmapOk pml4 ⟨k, [], []⟩ := by
  have hready : MapReady (some kmapSetupPool) I (0 + 512 * entryPages 3) 3 pml4 KMAP_BEGIN
      (lastAddr KMAP_END) (pageTable.tables s.mem 4 pml4) s := by
    refine ⟨h.tree, Set.Subset.rfl, hI, ?_, nofun⟩
    intro v h1 h2
    rw [kmap_lastAddr, KMAP_END_eq] at h2
    apply h.unmapped v h1
    rw [KMAP_END_eq]
    omega
  have hin : ∀ v, KMAP_BEGIN ≤ v → v < KMAP_END → v ≤ lastAddr KMAP_END := by
    intro v _ h2
    rw [kmap_lastAddr]
    omega
  unfold kmapSetup
  refine ((ptPopulatePages_spec hok kmap_pageRange hready).weaken fun _ => Or.inl).bind ?_
  rintro s' ⟨fresh, hd⟩
  cases array with
  | none => exact Or.inr rfl
  | some slots =>
    obtain ⟨ranges, hranges, hinv⟩ := kmapRangesSetup_spec slots
    simp only [hranges, ok_bind]
    refine Post.ok ⟨⟨hd.remap.tree, ?_⟩, ⟨_, KmapHeap.ok_of_setup hranges⟩, nofun, nofun, ?_, nofun⟩
    · intro v h1 h2
      exact hd.built (by decide) v h1 (hin v h1 h2)
    · intro v h1 h2 _
      rw [hd.translate_inside kmap_pageRange h1 (hin v h1 h2)]
      rfl

/-- The array is set up last. -/
theorem kmapSetup_ranges {slots : Nat → KmapRange} {k : Kmap}
    (h : kmapSetup pml4 (some slots) s = .ok k) : kmapRangesSetup slots = .ok k.ranges := by
  unfold kmapSetup at h
  obtain ⟨s', _, h⟩ := bind_eq_ok.mp h
  obtain ⟨ranges, hranges, hk⟩ := bind_eq_ok.mp h
  obtain rfl := Except.ok.inj hk
  exact hranges

/-- What a `kmap_setup` that returned has left, wherever it took its pages from. -/
theorem KmapReady.setup (h : KmapReady pml4 M live s) {array : Option (Nat → KmapRange)} {k : Kmap}
    (hsetup : kmapSetup pml4 array s = .ok k) : KmapOk pml4 ⟨k, [], []⟩ := by
  have hsupply : ZonePages M (0 + 512 * entryPages 3) s.pages (pageTable.tables s.mem 4 pml4) :=
    ⟨live, h.zones, h.tables⟩
  exact (kmapSetup_spec (kmapSetupPool_ok h.pages) h hsupply array).of_eq hsetup

/-! ## Every run -/

variable {zones : List Zone} {array : Option (Nat → KmapRange)} {k : Kmap} {st : KmapSystem}

/-- What a mapping translates to, page by page. -/
theorem kmapTarget_page {from_ i o : Nat} {pages : List Nat} (hfrom : from_ % 4096 = 0)
    (hi : i < pages.length) (ho : o < 4096) :
    kmapTarget from_ pages (from_ + i * 4096 + o) = some ⟨pages[i] * 4096 + o, true, true⟩ := by
  unfold kmapTarget
  rw [show (from_ + i * 4096 + o - from_) / 4096 = i by omega, List.getElem?_eq_getElem hi,
    show (from_ + i * 4096 + o) % 4096 = o by omega]
  rfl

/-- **`kmap` and `kunmap`.** -/
theorem kmap_safe (h : KmapReady pml4 M live s) (hsetup : kmapSetup pml4 array s = .ok k)
    (hrun : (kmapCalls zones pml4).Run ⟨k, [], []⟩ st) :
    (∀ m ∈ st.mapped, KMAP_BEGIN ≤ kmapAddr m.1 ∧ kmapAddr m.1 + m.2.length * 4096 ≤ KMAP_END ∧
      ∀ (i : Nat) (hi : i < m.2.length), ∀ o < 4096,
        translate st.k.mem pml4 (kmapAddr m.1 + i * 4096 + o) = some
          ⟨m.2[i] * 4096 + o, true, true⟩) ∧
    st.mapped.Pairwise (fun m m' => ∀ v, Mapped m v → ¬ Mapped m' v) ∧
    (∀ pages, KmapLegal zones pages → 2 ≤ pages.length →
      kmap zones pml4 pages st.k = .ok (st.k, 0) ∨
      ∃ k' ptr, kmap zones pml4 pages st.k = .ok (k', ptr) ∧ KmapDone pml4 pages st k' ptr) ∧
    (∀ m ∈ st.mapped, ∃ k', kunmap pml4 (kmapAddr m.1) st.k = .ok k' ∧
      (∀ v, Mapped m v → translate k'.mem pml4 v = none) ∧
      ∀ v, Canonical v → ¬ Mapped m v → translate k'.mem pml4 v = translate st.k.mem pml4 v) ∧
    ∀ c, (kmapCalls zones pml4).legal st c → ∃ st', (kmapCalls zones pml4).exec st c = .ok st' := by
  have hok := (kmapCalls_keeps zones h.root).run (h.setup hsetup) hrun
  refine ⟨?_, hok.pairwise, ?_, ?_, ?_⟩
  · intro m hm
    obtain ⟨hb, hal, he⟩ := hok.inside hm
    refine ⟨hb, he, ?_⟩
    intro i hi o ho
    rw [hok.maps m hm]
    · exact kmapTarget_page hal hi ho
    · unfold Mapped OnPages
      omega
  · intro pages hlegal hlen
    rcases kmap_spec hok hlegal.1 hlen with hnull | ⟨k', range, hkmap, hdone, _⟩
    · exact Or.inl hnull
    · exact Or.inr ⟨k', kmapAddr range, hkmap, hdone⟩
  · intro m hm
    obtain ⟨k', hkunmap, hnone, hothers, _⟩ := kunmap_spec h.root hok hm
    exact ⟨k', hkunmap, hnone, hothers⟩
  · intro c hc
    obtain ⟨st', hexec, _⟩ := ((kmapCalls_keeps zones h.root) st c hok hc).returns
    exact ⟨st', hexec⟩

/-! ## A machine with pages for all tables -/

/-- The zones still have so many pages, and only single pages were taken. -/
def PagesLeft (M : Set Nat) (k : Nat) (zones : List Zone) (used : Set Nat) : Prop :=
  ∃ live, ZonesInv zones M live ∧ TablesLive M live used ∧ (∀ b ∈ live, b.order = 0) ∧
    live.length + k ≤ M.ncard

/-- Single pages cover no more pages than there are of them. -/
theorem ncard_le_of_tiling {l : List Block} (h : DyadicTiling.Tiling l M)
    (hl : ∀ b ∈ l, b.order = 0) : M.ncard ≤ l.length := by
  have hsub : M ⊆ ((l.map Block.start).toFinset : Set Nat) := by
    intro i hi
    obtain ⟨b, hb, hib⟩ := (h.cover i).mp hi
    rw [Block.mem_cells, hl b hb] at hib
    simp only [List.coe_toFinset, List.mem_map, Set.mem_ofPred_eq]
    exact ⟨b, hb, by omega⟩
  calc M.ncard ≤ ((l.map Block.start).toFinset : Set Nat).ncard :=
        Set.ncard_le_ncard hsub (Finset.finite_toSet _)
    _ = (l.map Block.start).toFinset.card := Set.ncard_coe_finset _
    _ ≤ (l.map Block.start).length := List.toFinset_card_le _
    _ = l.length := List.length_map ..

theorem kmapSetupPool_left (hM : PagesOk M) :
    PoolOk (some kmapSetupPool) (fun _ => False) (PagesLeft M) where
  mono hle h := by
    obtain ⟨live, hinv, ht, ho, hlen⟩ := h
    exact ⟨live, hinv, ht, ho, by omega⟩
  get p hp k s used h := by
    obtain rfl := Option.some.inj hp
    obtain ⟨live, hinv, ht, ho, hlen⟩ := h
    rcases kmapSetupPool_get hM hinv ht with ⟨_, hfew⟩ | ⟨s', i, hget, hfresh, hinv', ht'⟩
    · have hnone : s.pages.flatMap freeList = [] := by
        apply List.flatMap_eq_nil_iff.mpr
        intro z hz
        apply List.eq_nil_iff_forall_not_mem.mpr
        intro b hb
        exact absurd (hfew z hz b hb) (Nat.not_lt_zero _)
      have htiling := hinv.tiling
      rw [hnone, List.append_nil] at htiling
      have := ncard_le_of_tiling htiling ho
      omega
    · rw [hget]
      refine Post.ok ⟨hfresh, _, hinv', ht', ?_, ?_⟩
      · rintro b (_ | ⟨_, hb⟩)
        · rfl
        · exact ho b hb
      · rw [List.length_cons]
        omega

/-- 256 terabytes in one zone.  The `pml4` is its page 1; the pages behind it are free. -/
def bigZone : Zone := Zone.zeroed 0 (2 ^ 36)

/-- Memory that was never written. -/
def blankTables : PageTables := fun _ _ => 0

theorem blankTables_absent (t i : Nat) : pageTable.decode 4 (blankTables t i) = .absent := by
  rw [show blankTables t i = 0 from rfl]
  exact (@pteSlot_absent 4 0).mpr (by decide)

theorem bigZone_ready : ∃ zones, pageAllocZoneFree [bigZone] 0x2000 (2 ^ 48) = .ok zones ∧
    KmapReady 0x1000 (wholePages 0x2000 (2 ^ 48)) [] ⟨blankTables, zones⟩ := by
  have hzeroed : ZonesInv [bigZone] ∅ [] := by
    apply ZonesInv.of_zeroed
    · intro z hz
      exact ⟨0, 2 ^ 36, List.mem_singleton.mp hz⟩
    · exact List.pairwise_singleton ..
  have hin : ∀ i ∈ wholePages 0x2000 (2 ^ 48), 2 ≤ i ∧ i < 2 ^ 36 := by
    rintro i ⟨_, hb, he⟩
    rw [show PAGE_SIZE = 4096 from rfl] at hb he
    omega
  obtain ⟨zones, hfree, hinv, _⟩ := @pageAllocZoneFree_spec _ _ _ 0x2000 (2 ^ 48) hzeroed
    (by decide) (fun _ => ⟨bigZone, by simp, fun i hi => by
      have := hin i hi
      exact decide_eq_true (by simp [bigZone, Zone.zeroed]; omega)⟩)
    (fun _ _ => Set.notMem_empty _)
  rw [Set.union_empty] at hinv
  refine ⟨zones, hfree, ⟨⟨by decide, by decide⟩, tree_of_zeroed fun _ => rfl, ?_, hinv, ?_, ?_⟩⟩
  · intro v _ _
    apply Radix.walk_absent
    exact blankTables_absent 0x1000 (pageTable.index 4 v)
  · intro i hi
    have := hin i hi
    rw [show ADDR_LIMIT / PAGE_SIZE = 2 ^ 40 from rfl]
    omega
  · rintro t (rfl | ⟨i, c, hc, _⟩) j hj hjt
    · have := hin j hj
      omega
    · have hnone := (blankTables_absent 0x1000 i).symm.trans hc
      cases hnone

/-- The zone has pages for every table of the region. -/
theorem bigZone_setup : ∃ zones k, pageAllocZoneFree [bigZone] 0x2000 (2 ^ 48) = .ok zones ∧
    KmapReady 0x1000 (wholePages 0x2000 (2 ^ 48)) [] ⟨blankTables, zones⟩ ∧
    kmapSetup 0x1000 (some someSlots) ⟨blankTables, zones⟩ = .ok k := by
  obtain ⟨zones, hfree, h⟩ := bigZone_ready
  have hcard : 512 * entryPages 3 ≤ (wholePages 0x2000 (2 ^ 48)).ncard := by
    have hpages : wholePages 0x2000 (2 ^ 48) = (Finset.Ico 2 (2 ^ 36) : Finset Nat) := by
      ext i
      simp only [wholePages, Set.mem_ofPred_eq, Finset.coe_Ico, Set.mem_Ico,
        show PAGE_SIZE = 4096 from rfl]
      omega
    rw [hpages, Set.ncard_coe_finset, Nat.card_Ico]
    decide
  have hleft : PagesLeft (wholePages 0x2000 (2 ^ 48)) (0 + 512 * entryPages 3) zones
      (pageTable.tables blankTables 4 0x1000) := by
    refine ⟨[], h.zones, h.tables, (fun _ h => by cases h), ?_⟩
    rw [List.length_nil, Nat.zero_add, Nat.zero_add]
    exact hcard
  have hspec := kmapSetup_spec (kmapSetupPool_left h.pages) h hleft (some someSlots)
  obtain ⟨k, hsetup, _⟩ := (hspec.weaken fun e he => he.elim id (fun h => by cases h)).returns
  exact ⟨zones, k, hfree, h, hsetup⟩

theorem bigZone_pagesOk {pages : List Nat} (h : ∀ page ∈ pages, page < 2 ^ 36) :
    KmapPagesOk [bigZone] pages := by
  intro page hpage
  have hlt := h page hpage
  refine ⟨⟨bigZone, List.mem_singleton_self _, ?_⟩, by omega⟩
  exact decide_eq_true ⟨Nat.zero_le _, hlt⟩

/-- Where `kmap` puts a range is settled by the ranges. -/
theorem kmap_ptr {pages : List Nat} {k k' : Kmap} {ranges : KmapRanges} {range ptr : Nat}
    (hlen : 2 ≤ pages.length) (halloc : kmapAllocRange k.ranges pages.length = .ok
      (ranges, some range))
    (hkmap : kmap zones pml4 pages k = .ok (k', ptr)) : ptr = kmapAddr range := by
  rw [kmap_several pml4 k hlen, halloc] at hkmap
  simp only [ok_bind] at hkmap
  obtain ⟨s', _, hs'⟩ := bind_eq_ok.mp hkmap
  exact (Prod.ext_iff.mp (Except.ok.inj hs')).2.symm

/-- The first mapping is put at the start of the region. -/
theorem bigZone_mapped : ∃ zones k k₁, pageAllocZoneFree [bigZone] 0x2000 (2 ^ 48) = .ok zones ∧
    KmapReady 0x1000 (wholePages 0x2000 (2 ^ 48)) [] ⟨blankTables, zones⟩ ∧
    kmapSetup 0x1000 (some someSlots) ⟨blankTables, zones⟩ = .ok k ∧
    kmap [bigZone] 0x1000 [5, 7] k = .ok (k₁, KMAP_BEGIN) ∧
    KmapOk 0x1000 ⟨k₁, [(0, [5, 7])], []⟩ := by
  obtain ⟨zones, k, hfree, h, hsetup⟩ := bigZone_setup
  have halloc : (do
      let ranges ← kmapRangesSetup someSlots
      let r ← kmapAllocRange ranges 2
      return r.2) = (.ok (some 0) : Res (Option Nat)) := by
    decide +kernel
  rw [kmapSetup_ranges hsetup, ok_bind] at halloc
  obtain ⟨⟨ranges, range⟩, hranges, hrange⟩ := bind_eq_ok.mp halloc
  obtain rfl := Except.ok.inj hrange
  have hpages : KmapPagesOk [bigZone] [5, 7] := bigZone_pagesOk (by decide)
  rcases kmap_spec (h.setup hsetup) hpages (by decide) with hkmap | ⟨k₁, range, hkmap, _, hok⟩
  · exact absurd (kmap_ptr (by decide) hranges hkmap) (by decide)
  · have hptr := kmap_ptr (by decide) hranges hkmap
    obtain rfl : range = 0 := by
      rw [kmapAddr_eq, kmapAddr_eq] at hptr
      omega
    exact ⟨zones, k, k₁, hfree, h, hsetup, hkmap, hok⟩

theorem kmap_safe_bigZone : ∃ zones k k₁ k₂,
    pageAllocZoneFree [bigZone] 0x2000 (2 ^ 48) = .ok zones ∧
    kmapSetup 0x1000 (some someSlots) ⟨blankTables, zones⟩ = .ok k ∧
    kmap [bigZone] 0x1000 [5, 7] k = .ok (k₁, KMAP_BEGIN) ∧
    translate k₁.mem 0x1000 (KMAP_BEGIN + 1 * 4096 + 5) = some ⟨7 * 4096 + 5, true, true⟩ ∧
    kunmap 0x1000 KMAP_BEGIN k₁ = .ok k₂ ∧
    translate k₂.mem 0x1000 (KMAP_BEGIN + 1 * 4096 + 5) = none := by
  obtain ⟨zones, k, k₁, hfree, h, hsetup, hkmap, _⟩ := bigZone_mapped
  have hlegal : KmapLegal [bigZone] [5, 7] :=
    ⟨bigZone_pagesOk (by decide), fun page hpage => by simp at hpage⟩
  have hrun : (kmapCalls [bigZone] 0x1000).Run ⟨k, [], []⟩ ⟨k₁, [(0, [5, 7])], []⟩ := by
    refine .single ⟨.kmap [5, 7], hlegal, ?_⟩
    show (kmap [bigZone] 0x1000 [5, 7] k >>= _) = _
    rw [hkmap]
    rfl
  obtain ⟨hmaps, _, _, hunmap, _⟩ := kmap_safe h hsetup hrun
  have hpage := (hmaps _ List.mem_cons_self).2.2 1 (by decide) 5 (by decide)
  obtain ⟨k₂, hkunmap, hnone, _⟩ := hunmap _ List.mem_cons_self
  refine ⟨zones, k, k₁, k₂, hfree, hsetup, hkmap, hpage, hkunmap, hnone _ ⟨?_, ?_⟩⟩ <;> decide

/-- A page of the 2 GiB from `MAX_PMEM_SIZE` on is returned at the address of the live mapping, and
unmapping it unmaps the other. -/
theorem direct_page_unmaps : ∃ zones k k₁ k₂, pageAllocZoneFree [bigZone] 0x2000
    (2 ^ 48) = .ok zones ∧ kmapSetup 0x1000 (some someSlots) ⟨blankTables, zones⟩ = .ok k ∧
    kmap [bigZone] 0x1000 [5, 7] k = .ok (k₁, KMAP_BEGIN) ∧
    translate k₁.mem 0x1000 KMAP_BEGIN = some ⟨5 * 4096, true, true⟩ ∧
    kmap [bigZone] 0x1000 [0x7fff00000] k₁ = .ok (k₁, KMAP_BEGIN) ∧
    kunmap 0x1000 KMAP_BEGIN k₁ = .ok k₂ ∧ translate k₂.mem 0x1000 KMAP_BEGIN = none := by
  obtain ⟨zones, k, k₁, hfree, h, hsetup, hkmap, hok⟩ := bigZone_mapped
  have hin : Mapped (0, [5, 7]) KMAP_BEGIN := ⟨le_rfl, by decide⟩
  have hmaps := hok.maps _ List.mem_cons_self KMAP_BEGIN hin
  have hpage : KmapPagesOk [bigZone] [0x7fff00000] := bigZone_pagesOk (by decide)
  obtain ⟨ptr, hsingle, rfl, _⟩ := kmap_single 0x1000 k₁ hpage
  obtain ⟨k₂, hkunmap, hnone, _⟩ := kunmap_spec h.root hok List.mem_cons_self
  exact ⟨zones, k, k₁, k₂, hfree, hsetup, hkmap, hmaps, hsingle, hkunmap, hnone _ hin⟩

end AuOs
