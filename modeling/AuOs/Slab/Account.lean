import Mathlib
import AuOs.Slab.Safety

/-!
# The account of the pages

Where the pages are that the page allocator had when `mem_alloc_setup` was called.

* `DIRECT_LIMIT` — the physical memory below it has an address of the kernel that is not 0.
* `HeapExact` — the live pointers are all blocks of the heap there are; `heapCalls_exact`: every
  legal call keeps it.
* `FreePage`, `PoolPage`, `UserPage` — a page is in a list of the page allocator, in a pool of a
  cache, in a block of whole pages that is live.
* `HeapExact.account` — every page that was free is one of these; `HeapExact.shrink_all`: when
  nothing is live, `mem_alloc_shrink` gives every page back.
* `no_page_lost` — the result for every run from boot on.
-/

set_option autoImplicit false

namespace AuOs

namespace Slab

open DyadicTiling

/-- The end of the physical memory that has an address of the kernel. -/
def DIRECT_LIMIT : Nat := WORD - HIGHER_BASE

/-- The page is in a list of the page allocator. -/
def FreePage (zones : List Zone) (i : Nat) : Prop :=
  ∃ zone ∈ zones, ∃ b ∈ freeList zone, i ∈ b.cells

/-- The page is in a pool of a cache. -/
def PoolPage (h : Heap) (i : Nat) : Prop :=
  ∃ c cache a, h.caches c = some cache ∧ cache.linked a = true ∧
    i ∈ (⟨(h.pools a).page, cache.layout.poolOrder⟩ : Block).cells

/-- The page is in a block of whole pages that is live. -/
def UserPage (s : HeapState) (i : Nat) : Prop :=
  ∃ b : Block, va (b.start * PAGE_SIZE) ∈ s.live ∧
    memSize s.heap (va (b.start * PAGE_SIZE)) = .ok (2 ^ (PAGE_SHIFT + b.order)) ∧ i ∈ b.cells

/-- A pool that is not completely free has an object. -/
theorem PoolOk.exists_busy {layout : Layout} {page : Nat} {pool : Pool}
    (h : PoolOk layout page pool)
    (hfree : pool.free ≠ layout.objCount) : ∃ pos < layout.objCount, pool.busy pos = true := by
  by_contra hnone
  push Not at hnone
  have hall : freeSlots layout.objCount pool.bitmask = Finset.range layout.objCount := by
    ext pos
    rw [mem_freeSlots, Finset.mem_range]
    exact ⟨fun hp => hp.1, fun hp => ⟨hp, Bool.eq_false_iff.mpr (hnone pos hp)⟩⟩
  rw [h.free, hall, Finset.card_range] at hfree
  exact hfree rfl

/-! ## Free pages -/

/-- **A page is free** if and only if no block that is held has it. -/
theorem freePage_iff {zones : List Zone} {M : Set Nat} {live : List Block}
    (hz : ZonesInv zones M live) {i : Nat} :
    FreePage zones i ↔ i ∈ M ∧ ∀ b ∈ live, i ∉ b.cells := by
  have htiling := hz.tiling
  constructor
  · rintro ⟨zone, hzone, b, hb, hi⟩
    have hfree : b ∈ zones.flatMap freeList := List.mem_flatMap.mpr ⟨zone, hzone, hb⟩
    refine ⟨htiling.cells_subset (List.mem_append_right _ hfree) hi, ?_⟩
    intro c hc hic
    have hapart := (List.pairwise_append.mp htiling.disjoint).2.2 c hc b hfree
    exact Set.disjoint_left.mp hapart hic hi
  · rintro ⟨hi, hout⟩
    obtain ⟨b, hb, hib⟩ := (htiling.cover i).mp hi
    rcases List.mem_append.mp hb with hb | hb
    · exact absurd hib (hout b hb)
    · obtain ⟨zone, hzone, hb⟩ := List.mem_flatMap.mp hb
      exact ⟨zone, hzone, b, hb, hib⟩

section Account

variable {M : Set Nat} {slabs slabs' : List PoolAt} {bigs bigs' foreign : List Block} {h h' : Heap}
  {s : HeapState} {p n : Nat}

/-- The pages have an address of the kernel. -/
def Direct (M : Set Nat) : Prop := ∀ i ∈ M, (i + 1) * PAGE_SIZE ≤ DIRECT_LIMIT

/-- **No block of the heap is at address 0.** -/
theorem BlockOf.ne_zero {specs : Nat → Nat × Nat} (hM : Direct M)
    (hi : HeapInv specs M slabs bigs foreign h) (hb : BlockOf slabs bigs h p n) : p ≠ 0 := by
  obtain ⟨b, hmem, hw, _⟩ := hb.within hi
  have hend := hM b.start (hi.cells_subset hmem b.start_mem)
  have hlimit : DIRECT_LIMIT + HIGHER_BASE = WORD := rfl
  have hbase : 0 < HIGHER_BASE := by decide
  have hva : va (b.start * PAGE_SIZE) = b.start * PAGE_SIZE + HIGHER_BASE := by
    apply Nat.mod_eq_of_lt
    have hsize : 0 < PAGE_SIZE := by decide
    rw [Nat.succ_mul] at hend
    omega
  omega

/-- The caches of `mem_alloc` and no others are set up. -/
def MemCaches (h : Heap) : Prop := ∀ c, h.caches c ≠ none ↔ c < MEM_POOLS

theorem MemCaches.keep (hset : MemCaches h)
    (hl : ∀ c, (h'.caches c).map Cache.layout = (h.caches c).map Cache.layout) : MemCaches h' := by
  intro c
  have hnone : h'.caches c = none ↔ h.caches c = none := by
    rw [← Option.map_eq_none_iff, hl c, Option.map_eq_none_iff]
  rw [ne_eq, hnone]
  exact hset c

/-- **The invariant of the account**: the live pointers are the blocks of the heap. -/
structure AllLive (slabs : List PoolAt) (bigs : List Block) (s : HeapState) : Prop where
  nodup : s.live.Nodup
  mem_iff : ∀ p, p ∈ s.live ↔ ∃ n, BlockOf slabs bigs s.heap p n

def HeapExact (M : Set Nat) (foreign : List Block) (s : HeapState) : Prop :=
  ∃ slabs bigs, HeapInv memSpecs M slabs bigs foreign s.heap ∧ MemCaches s.heap ∧
    AllLive slabs bigs s

/-! ## Calls -/

/-- No block comes and none goes. -/
theorem AllLive.same (hl : AllLive slabs bigs s)
    (hkeep : ∀ q m, BlockOf slabs bigs s.heap q m → BlockOf slabs' bigs' h' q m)
    (honly : ∀ q m, BlockOf slabs' bigs' h' q m → BlockOf slabs bigs s.heap q m) :
    AllLive slabs' bigs' ⟨h', s.live⟩ := by
  refine ⟨hl.nodup, fun q => (hl.mem_iff q).trans ?_⟩
  exact exists_congr fun m => ⟨hkeep q m, honly q m⟩

/-- One block comes. -/
theorem AllLive.cons (hl : AllLive slabs bigs s)
    (hkeep : ∀ q m, BlockOf slabs bigs s.heap q m → BlockOf slabs' bigs' h' q m)
    (hnew : ∃ n, BlockOf slabs' bigs' h' p n) (hfresh : ∀ m, ¬ BlockOf slabs bigs s.heap p m)
    (honly : ∀ q m, BlockOf slabs' bigs' h' q m → q = p ∨ BlockOf slabs bigs s.heap q m) :
    AllLive slabs' bigs' ⟨h', p :: s.live⟩ := by
  refine ⟨List.nodup_cons.mpr ⟨?_, hl.nodup⟩, fun q => ?_⟩
  · intro hmem
    obtain ⟨m, hm⟩ := (hl.mem_iff p).mp hmem
    exact hfresh m hm
  · rw [List.mem_cons, hl.mem_iff]
    constructor
    · rintro (rfl | ⟨m, hm⟩)
      · exact hnew
      · exact ⟨m, hkeep q m hm⟩
    · rintro ⟨m, hm⟩
      exact (honly q m hm).imp_right fun hold => ⟨m, hold⟩

/-- One block goes. -/
theorem AllLive.erase (hl : AllLive slabs bigs s)
    (hkeep : ∀ q m, q ≠ p → BlockOf slabs bigs s.heap q m → BlockOf slabs' bigs' h' q m)
    (hgone : ∀ m, ¬ BlockOf slabs' bigs' h' p m)
    (honly : ∀ q m, BlockOf slabs' bigs' h' q m → BlockOf slabs bigs s.heap q m) :
    AllLive slabs' bigs' ⟨h', s.live.erase p⟩ := by
  refine ⟨hl.nodup.erase p, fun q => ?_⟩
  rw [hl.nodup.mem_erase_iff, hl.mem_iff]
  constructor
  · rintro ⟨hne, m, hm⟩
    exact ⟨m, hkeep q m hne hm⟩
  · rintro ⟨m, hm⟩
    refine ⟨?_, m, honly q m hm⟩
    rintro rfl
    exact hgone m hm

/-- **`mem_alloc`.** -/
theorem alloc_exact (hM : Direct M) (hs : HeapExact M foreign s) (size : Nat) :
    ∃ h' ptr, memAlloc s.heap size = .ok (h', ptr) ∧
      HeapExact M foreign ⟨h', if ptr = 0 then s.live else ptr :: s.live⟩ := by
  obtain ⟨slabs, bigs, hi, hset, hl⟩ := hs
  obtain ⟨h', ptr, slabs', bigs', halloc, hi', hrest, hkeep, hres⟩ :=
    memAlloc_exact hi (fun c => (hset c).mpr) size
  refine ⟨h', ptr, halloc, slabs', bigs', hi', hset.keep hrest.layouts, ?_⟩
  rcases hres with ⟨h0, honly⟩ | ⟨⟨n, hblock, _⟩, hfresh, honly⟩
  · rw [if_pos h0]
    exact hl.same hkeep honly
  · rw [if_neg (hblock.ne_zero hM hi')]
    exact hl.cons hkeep ⟨n, hblock⟩ hfresh honly

/-- **`mem_free`.** -/
theorem free_exact (hM : Direct M) (hs : HeapExact M foreign s) (hp : p = 0 ∨ p ∈ s.live) :
    ∃ h', memFree s.heap p = .ok h' ∧ HeapExact M foreign ⟨h', s.live.erase p⟩ := by
  obtain ⟨slabs, bigs, hi, hset, hl⟩ := hs
  by_cases h0 : p = 0
  · have hout : p ∉ s.live := by
      intro hmem
      obtain ⟨n, hblock⟩ := (hl.mem_iff p).mp hmem
      exact hblock.ne_zero hM hi h0
    rw [List.erase_of_not_mem hout, memFree, if_pos h0]
    exact ⟨s.heap, rfl, slabs, bigs, hi, hset, hl⟩
  · obtain ⟨n, hblock⟩ := (hl.mem_iff p).mp (hp.resolve_left h0)
    obtain ⟨h', bigs', hfree, hi', hrest, hkeep, hgone, honly⟩ := memFree_exact hi hblock h0
    exact ⟨h', hfree, slabs, bigs', hi', hset.keep hrest.layouts, hl.erase hkeep hgone honly⟩

/-- **`mem_realloc`.** -/
theorem realloc_exact (hM : Direct M) (hs : HeapExact M foreign s)
    (hp : p = 0 ∨ p ∈ s.live) (size : Nat) : ∃ h' new, memRealloc s.heap p size = .ok (h', new) ∧
      HeapExact M foreign ⟨h', if new = 0 then s.live else new :: s.live.erase p⟩ := by
  by_cases h0 : p = 0
  · obtain ⟨h', new, halloc, hok⟩ := alloc_exact hM hs size
    have hout : p ∉ s.live := by
      obtain ⟨_, _, hi, _, hl⟩ := hs
      intro hmem
      obtain ⟨n, hblock⟩ := (hl.mem_iff p).mp hmem
      exact hblock.ne_zero hM hi h0
    refine ⟨h', new, ?_, ?_⟩
    · rw [memRealloc, if_pos h0, halloc]
    · rwa [List.erase_of_not_mem hout]
  · obtain ⟨slabs, bigs, hi, hset, hl⟩ := hs
    have hmem := hp.resolve_left h0
    obtain ⟨n, hblock⟩ := (hl.mem_iff p).mp hmem
    rcases memRealloc_exact hi (fun c => (hset c).mpr) h0 hblock size with ⟨_, hres⟩ |
      ⟨h', slabs', bigs', hres, hi', hrest, hkeep, honly⟩ |
      ⟨h', new, n', slabs', bigs', hres, hi', _, _, hmoves, hlayouts, honly⟩
    · refine ⟨s.heap, p, hres, slabs, bigs, hi, hset, ?_⟩
      have hperm := (List.perm_cons_erase hmem).symm
      rw [if_neg h0]
      exact ⟨hperm.nodup_iff.mpr hl.nodup, fun q => hperm.mem_iff.trans (hl.mem_iff q)⟩
    · refine ⟨h', 0, hres, slabs', bigs', hi', hset.keep hrest.layouts, ?_⟩
      rw [if_pos rfl]
      refine hl.same hkeep (honly.resolve_right ?_)
      rintro ⟨m, hm⟩
      exact hm.ne_zero hM hi' rfl
    · refine ⟨h', new, hres, slabs', bigs', hi', hset.keep hlayouts, ?_⟩
      rw [if_neg hmoves.nonzero]
      refine ⟨List.nodup_cons.mpr ⟨?_, hl.nodup.erase p⟩, fun q => ?_⟩
      · intro hin
        obtain ⟨m, hm⟩ := (hl.mem_iff new).mp (List.mem_of_mem_erase hin)
        exact hmoves.fresh m hm
      · rw [List.mem_cons, hl.nodup.mem_erase_iff, hl.mem_iff]
        constructor
        · rintro (rfl | ⟨hne, m, hm⟩)
          · exact ⟨n', hmoves.block⟩
          · exact ⟨m, (hmoves.others q m hne hm).1⟩
        · rintro ⟨m, hm⟩
          refine (honly q m hm).imp_right fun hold => ⟨?_, m, hold⟩
          rintro rfl
          exact hmoves.gone m hm

/-- **`mem_alloc_shrink`** leaves no pool that is completely free. -/
theorem shrink_exact (hs : HeapExact M foreign s) :
    ∃ h' slabs' bigs', memAllocShrink s.heap = .ok h' ∧
      HeapInv memSpecs M slabs' bigs' foreign h' ∧ MemCaches h' ∧
      AllLive slabs' bigs' ⟨h', s.live⟩ ∧ ∀ t ∈ slabs',
          (h'.pools t.header).free ≠ t.layout.objCount := by
  obtain ⟨slabs, bigs, hi, hset, hl⟩ := hs
  obtain ⟨h', slabs', hshrink, hi', hrest, hkeep, hpools⟩ :=
    memAllocShrink_exact hi fun c => (hset c).mpr
  refine ⟨h', slabs', bigs, hshrink, hi', hset.keep hrest.layouts, hl.same hkeep ?_, ?_⟩
  · intro q m hq
    refine hq.objects hrest.symm ?_
    rintro d ⟨t, ht, htd, pos, hpos, hbusy, hq⟩
    obtain ⟨ht', heq, _⟩ := hpools t ht
    rw [heq] at hbusy
    exact ⟨t, ht', htd, pos, hpos, hbusy, hq⟩
  · intro t ht
    obtain ⟨ht', heq, hfree⟩ := hpools t ht
    obtain ⟨cache, hcache, _⟩ := hi.home t ht'
    rw [heq]
    refine hfree ((hset t.cache).mp ?_)
    rw [hcache]
    exact Option.some_ne_none _

/-- **Every legal call** keeps the account. -/
theorem heapCalls_exact (hM : Direct M) (foreign : List Block) :
    heapCalls.Keeps (fun _ => False) (HeapExact M foreign) := by
  intro s call hs hc
  apply Post.of_ok
  cases call with
  | alloc size =>
    obtain ⟨h', ptr, halloc, hok⟩ := alloc_exact hM hs size
    refine ⟨_, ?_, hok⟩
    simp only [heapCalls, halloc, ok_bind, pure_eq_ok]
  | free ptr =>
    obtain ⟨h', hfree, hok⟩ := free_exact hM hs hc
    refine ⟨_, ?_, hok⟩
    simp only [heapCalls, hfree, ok_bind, pure_eq_ok]
  | realloc ptr size =>
    obtain ⟨h', new, hrealloc, hok⟩ := realloc_exact hM hs hc size
    refine ⟨_, ?_, hok⟩
    simp only [heapCalls, hrealloc, ok_bind, pure_eq_ok]
  | shrink =>
    obtain ⟨h', slabs', bigs', hshrink, hi', hset', hl', _⟩ := shrink_exact hs
    refine ⟨⟨h', s.live⟩, ?_, slabs', bigs', hi', hset', hl'⟩
    simp only [heapCalls, hshrink, ok_bind, pure_eq_ok]

/-! ## The account -/

/-- The zones at the start, and those of the heap: they hold the same blocks for other users. -/
theorem HeapExact.account {zones : List Zone} (hz : ZonesInv zones M foreign)
    (hs : HeapExact M foreign s) {i : Nat}
    (hfree : FreePage zones i) : FreePage s.heap.zones i ∨ PoolPage s.heap i ∨ UserPage s i := by
  obtain ⟨slabs, bigs, hi, _, hl⟩ := hs
  obtain ⟨hiM, hout⟩ := (freePage_iff hz).mp hfree
  by_cases hnow : FreePage s.heap.zones i
  · exact Or.inl hnow
  right
  rw [freePage_iff hi.zones] at hnow
  push Not at hnow
  obtain ⟨b, hb, hib⟩ := hnow hiM
  rcases List.mem_append.mp hb with hb | hb
  · obtain ⟨t, ht, rfl⟩ := List.mem_map.mp hb
    obtain ⟨cache, hcache, hlayout⟩ := hi.home t ht
    have hlinked := (hi.mem_listOf ht hcache).mpr rfl
    refine Or.inl ⟨t.cache, cache, t.header, hcache, Cache.linked_iff.mpr ⟨_, hlinked⟩, ?_⟩
    rw [(hi.pools t ht).page_eq, hlayout]
    exact hib
  · rcases List.mem_append.mp hb with hb | hb
    · have hblock : BlockOf slabs bigs s.heap (va (b.start * PAGE_SIZE))
        (2 ^ (PAGE_SHIFT + b.order)) :=
        Or.inr ⟨b, hb, rfl, rfl⟩
      exact Or.inr ⟨b, (hl.mem_iff _).mpr ⟨_, hblock⟩, memSize_eq hi hblock, hib⟩
    · exact absurd hib (hout b hb)

/-- **When nothing is live, every page comes back.** -/
theorem HeapExact.shrink_all {zones : List Zone} (hz : ZonesInv zones M foreign)
    (hs : HeapExact M foreign s) (hlive : s.live = []) :
    ∃ h', memAllocShrink s.heap = .ok h' ∧ ∀ i, FreePage h'.zones i ↔ FreePage zones i := by
  obtain ⟨h', slabs, bigs, hshrink, hi, _, hl, hpools⟩ := shrink_exact hs
  refine ⟨h', hshrink, ?_⟩
  have hnone : ∀ q m, ¬ BlockOf slabs bigs h' q m := by
    intro q m hq
    have hmem := (hl.mem_iff q).mpr ⟨m, hq⟩
    rw [hlive] at hmem
    cases hmem
  have hbigs : bigs = [] := by
    apply List.eq_nil_iff_forall_not_mem.mpr
    exact fun b hb => hnone _ _ (Or.inr ⟨b, hb, rfl, rfl⟩)
  have hslabs : slabs = [] := by
    apply List.eq_nil_iff_forall_not_mem.mpr
    intro t ht
    -- a pool that is not completely free has an object
    obtain ⟨cache, hcache, _⟩ := hi.home t ht
    obtain ⟨pos, hpos, hbusy⟩ := (hi.pools t ht).exists_busy (hpools t ht)
    exact hnone _ _ (Or.inl ⟨t.cache, cache, ⟨t, ht, rfl, pos, hpos, hbusy, rfl⟩, hcache, rfl⟩)
  subst hbigs hslabs
  intro i
  rw [freePage_iff hi.zones, freePage_iff hz]
  rfl

/-- **The account after `mem_alloc_setup`.** -/
theorem heapExact_setup {zones : List Zone} (hz : ZonesInv zones M foreign) (hM : PagesOk M)
    (pools : Nat → Pool) (bytes : Nat → Int8) :
    ∃ h, memAllocSetup (noCaches zones pools bytes).heap = .ok h ∧ HeapExact M foreign ⟨h, []⟩ := by
  obtain ⟨slabs, hi, _, _⟩ := @noCaches_ok memSpecs M foreign zones hz hM pools bytes
  obtain rfl : slabs = [] := by
    apply List.eq_nil_iff_forall_not_mem.mpr
    intro t ht
    obtain ⟨cache, hcache, _⟩ := hi.home t ht
    cases hcache
  obtain ⟨h, hsetup, hi', hset, _⟩ := memAllocSetup_exact hi fun _ => rfl
  refine ⟨h, hsetup, [], [], hi', hset, List.nodup_nil, fun p => iff_of_false List.not_mem_nil ?_⟩
  rintro ⟨n, ⟨_, _, ⟨t, ht, _⟩, _⟩ | ⟨b, hb, _⟩⟩
  · cases ht
  · cases hb

end Account

/-- The state after `balloc_setup`, for memory that has an address of the kernel. -/
theorem ballocSetup_direct {mem : Memory} {info : MultibootInfo} {img : BootImage} {s : Balloc}
    (hentries : ∀ e ∈ mmapEntries mem info, e.addr + e.length ≤ DIRECT_LIMIT)
    (hkernel : img.kbegin ≤ img.kend ∧ img.kend ≤ DIRECT_LIMIT)
    (hinitrd : img.initrdBegin ≤ img.initrdEnd ∧ img.initrdEnd ≤ DIRECT_LIMIT)
    (hsetup : ballocSetup mem info img = .ok s) :
    BootOk (s.ranges .memoryMap) (withheld (mmapEntries mem info) img) ⟨s, []⟩ ∧
      MapOk (s.ranges .memoryMap) ∧ ∀ r ∈ s.ranges .memoryMap, r.end_ ≤ DIRECT_LIMIT := by
  have hlimit : DIRECT_LIMIT < WORD := by decide
  have hle : DIRECT_LIMIT ≤ ADDR_LIMIT := by decide
  obtain ⟨h, hmap⟩ := (ballocParseMmap_spec (ballocSetupNodes_same DIRECT_LIMIT) (fun e he => by
    rw [MmapEntry.rend_eq ((hentries e he).trans_lt hlimit)]
    exact ⟨Nat.le_add_right _ _, hentries e he⟩) hkernel hinitrd).of_eq hsetup
  refine ⟨?_, ⟨h.inv.ordered _, fun r hr => (hmap r hr).trans hle⟩, hmap⟩
  rw [BootOk, List.append_nil]
  exact h

/-- The pages that `page_alloc_setup` releases. -/
theorem releasedPages_direct {mmap : List MemoryNode} {removed : List (Nat × Nat)} {s : BootState}
    (h : BootOk mmap removed s) (hmap : ∀ r ∈ mmap, r.end_ ≤ DIRECT_LIMIT) :
    Direct (releasedPages (freeRanges s.balloc)) := by
  rintro i ⟨r, hr, hi⟩
  obtain ⟨node, hnode, rfl⟩ := List.mem_map.mp hr
  obtain ⟨m, hm, _, hend⟩ := h.inside node hnode
  exact (hi.2.2.trans hend).trans (hmap m hm)

/-- **No page is lost.**  For every memory map below `DIRECT_LIMIT` and any bootstrap allocations,
when `page_alloc_setup` returned on memory that reads as zero, and after any calls of the page
allocator: in every run of the heap each page that was free when `mem_alloc_setup` was called is
free, in a pool of a cache or in a live block of whole pages; and when nothing is live,
`mem_alloc_shrink` makes exactly those pages free again. -/
theorem no_page_lost (mem : Memory) (info : MultibootInfo) (img : BootImage)
    (hentries : ∀ e ∈ mmapEntries mem info, e.addr + e.length ≤ DIRECT_LIMIT)
    (hkernel : img.kbegin ≤ img.kend ∧ img.kend ≤ DIRECT_LIMIT)
    (hinitrd : img.initrdBegin ≤ img.initrdEnd ∧ img.initrdEnd ≤ DIRECT_LIMIT)
    (s₀ : Balloc) (hsetup : ballocSetup mem info img = .ok s₀) (s₁ : BootState)
    (hboot : bootCalls.Run ⟨s₀, []⟩ s₁) (p : BootState × List Zone)
    (hpages : pageAllocSetup (fun _ => Page.zero) s₁ = .ok p) (q : PageState)
    (hearlier : pageCalls.Run ⟨p.2, []⟩ q) (pools : Nat → Pool) (bytes : Nat → Int8) :
    ∃ h, memAllocSetup (noCaches q.zones pools bytes).heap = .ok h ∧ ∀ s, heapCalls.Run ⟨h, []⟩ s →
      (∀ i, FreePage q.zones i → FreePage s.heap.zones i ∨ PoolPage s.heap i ∨ UserPage s i) ∧
      (s.live = [] → ∃ h', memAllocShrink s.heap = .ok h' ∧ ∀ i, FreePage h'.zones i ↔
          FreePage q.zones i) := by
  obtain ⟨h₀, hmap, hdirect⟩ := ballocSetup_direct hentries hkernel hinitrd hsetup
  have h₁ := (bootCalls_keeps _ _).run h₀ hboot
  obtain ⟨h₂, _, _, hz, hsame, _⟩ := (pageAllocSetup_spec h₁ hmap).of_eq hpages
  have hM := releasedPages_ok hmap hz hsame
  have hq := (pageCalls_keeps hM).run hz hearlier
  obtain ⟨h, halloc, hok⟩ := heapExact_setup hq hM pools bytes
  refine ⟨h, halloc, ?_⟩
  intro s hrun
  have hs := (heapCalls_exact (releasedPages_direct h₂ hdirect) _).run hok hrun
  exact ⟨fun i hi => hs.account hq hi, fun hlive => hs.shrink_all hq hlive⟩

theorem no_page_lost_one_block : ∃ zones h s, heapCalls.Run ⟨h, []⟩ s ∧ s.live = [] ∧
    ¬ FreePage s.heap.zones 3 ∧
    FreePage zones 3 ∧ ∃ h', memAllocShrink s.heap = .ok h' ∧ ∀ i, FreePage h'.zones i ↔
    FreePage zones i := by
  have hres : (do
      let s₀ ← ballocSetup overlappingMap ⟨64, 48, 0x100⟩ ⟨0x2000, 0x3000, 0x4000, 0x4800⟩
      let p ← pageAllocSetup (fun _ => Page.zero) ⟨s₀, []⟩
      let h ← memAllocSetup (noCaches p.2 noPools fun _ => 0).heap
      let small ← memAlloc h 100
      let h ← memFree small.1 small.2
      return (p.2.map freeList, small.2, h.zones.map freeList) :
        Res (List (List Block) × Nat × List (List Block))) =
    .ok ([[⟨3, 0⟩, ⟨8, 0⟩, ⟨6, 1⟩]], 0xffff800000003000, [[⟨8, 0⟩, ⟨6, 1⟩]]) := by decide +kernel
  obtain ⟨s₀, hs₀, hres⟩ := bind_eq_ok.mp hres
  obtain ⟨p, hp, hres⟩ := bind_eq_ok.mp hres
  obtain ⟨h, hsetup, hres⟩ := bind_eq_ok.mp hres
  obtain ⟨⟨h₁, a⟩, halloc, hres⟩ := bind_eq_ok.mp hres
  obtain ⟨h₂, hfree, hlists⟩ := bind_eq_ok.mp hres
  obtain ⟨hbefore, hrest⟩ := Prod.mk.inj (Except.ok.inj hlists)
  obtain ⟨rfl, hafter⟩ := Prod.mk.inj hrest
  have hrun₁ : heapCalls.Run ⟨h, []⟩ ⟨h₁, [0xffff800000003000]⟩ := by
    refine .single ⟨.alloc 100, trivial, ?_⟩
    simp only [heapCalls, halloc, ok_bind, pure_eq_ok]
    rfl
  have hrun₂ := hrun₁.tail (c := ⟨h₂, []⟩) ⟨.free 0xffff800000003000, Or.inr List.mem_cons_self, by
    simp only [heapCalls, hfree, ok_bind, pure_eq_ok]
    rfl⟩
  obtain ⟨h', hsetup', hall⟩ := no_page_lost overlappingMap ⟨64, 48, 0x100⟩ ⟨0x2000, 0x3000,
    0x4000, 0x4800⟩
    (by decide) (by decide) (by decide) s₀ hs₀ ⟨s₀, []⟩ .refl p hp _ .refl noPools fun _ => 0
  obtain rfl := Except.ok.inj (hsetup.symm.trans hsetup')
  obtain ⟨_, hback⟩ := hall _ hrun₂
  have hiff : ∀ {zones : List Zone} {l : List Block} {i : Nat}, zones.map freeList = [l] →
      (FreePage zones i ↔ ∃ b ∈ l, i ∈ b.cells) := by
    intro zones l i hl
    obtain ⟨z, rfl, rfl⟩ := List.map_eq_singleton_iff.mp hl
    simp [FreePage]
  refine ⟨p.2, h, _, hrun₂, rfl, ?_, ?_, hback rfl⟩
  · rw [hiff hafter]
    rintro ⟨b, hb, hi⟩
    simp only [List.mem_cons, List.not_mem_nil, or_false] at hb
    rcases hb with rfl | rfl
    · exact absurd hi.1 (by decide)
    · exact absurd hi.1 (by decide)
  · rw [hiff hbefore]
    exact ⟨⟨3, 0⟩, List.mem_cons_self, Nat.le_refl _, by decide⟩

end Slab

end AuOs
