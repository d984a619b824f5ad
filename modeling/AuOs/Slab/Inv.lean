import Mathlib
import AuOs.Slab.Cache

/-!
# The invariant of the heap

The pages that the allocators hold are of three kinds: the pools of the caches, the blocks of whole
pages that `mem_alloc` handed out, and what belongs to other users of the page allocator.

* `listOf` — the list that a pool belongs to.
* `Heap.forall_setCache`, `Heap.layout_setCache` — what holds of every cache when one of them is
  set.
* `HeapInv` — **the invariant**: the three kinds of blocks are live in the page allocator, the
  descriptors of the first two say which kind they are, every pool satisfies `PoolOk` and is in the
  list it belongs to.
* `HeapInv.slab_eq`, `HeapInv.header_inj`, `HeapInv.object_inj` — pools, headers and objects are
  apart.
* `HeapInv.alloc`, `HeapInv.tag`, `HeapInv.free` — what the page allocator does to the blocks of the
  third kind; the other two kinds pass through it on their way.
* `HeapInv.relist`, `HeapInv.adopt`, `HeapInv.drop` — a pool changes, a block becomes a pool, a pool
  becomes a block again.
-/

set_option autoImplicit false

namespace AuOs

namespace Slab

open DyadicTiling

/-- The list that a pool with `free` free slots belongs to. -/
def listOf (objCount free : Nat) : PoolList :=
  if free = objCount then .freePools else if free = 0 then .busyPools else .partialPools

theorem listOf_eq_free {n f : Nat} : listOf n f = .freePools ↔ f = n := by
  unfold listOf
  split
  case isTrue h => exact iff_of_true rfl h
  case isFalse h =>
    refine iff_of_false ?_ h
    split <;> exact PoolList.noConfusion

theorem listOf_eq_some {n f : Nat} : listOf n f = .partialPools ↔ f ≠ n ∧ f ≠ 0 := by
  unfold listOf
  split
  case isTrue h => exact iff_of_false PoolList.noConfusion fun hf => hf.1 h
  case isFalse h =>
    split
    case isTrue h0 => exact iff_of_false PoolList.noConfusion fun hf => hf.2 h0
    case isFalse h0 => exact iff_of_true rfl ⟨h, h0⟩

theorem listOf_eq_busy {n f : Nat} (hn : n ≠ 0) : listOf n f = .busyPools ↔ f = 0 := by
  unfold listOf
  split
  case isTrue h => exact iff_of_false PoolList.noConfusion fun hf => hn (h ▸ hf)
  case isFalse h =>
    split
    case isTrue h0 => exact iff_of_true rfl h0
    case isFalse h0 => exact iff_of_false PoolList.noConfusion h0

theorem Heap.caches_setCache (h : Heap) (c : Nat) (cache : Cache) :
    (h.setCache c cache).caches c = some cache :=
  Function.update_self ..

theorem Heap.caches_setCache_of_ne (h : Heap) {c d : Nat} (hd : d ≠ c) (cache : Cache) :
    (h.setCache c cache).caches d = h.caches d := Function.update_of_ne hd ..

/-- What holds of the cache that is set and of the others holds of all. -/
theorem Heap.forall_setCache {P : Nat → Cache → Prop} {h : Heap} {c : Nat} {cache : Cache}
    (hself : P c cache) (hother : ∀ d x, d ≠ c → h.caches d = some x → P d x) (d : Nat) (x : Cache)
    (hx : (h.setCache c cache).caches d = some x) : P d x := by
  by_cases hd : d = c
  · subst hd
    rw [h.caches_setCache, Option.some.injEq] at hx
    exact hx ▸ hself
  · rw [h.caches_setCache_of_ne hd] at hx
    exact hother d x hd hx

/-- A cache keeps its layout when it is set. -/
theorem Heap.layout_setCache {h : Heap} {c d : Nat} {cache cache' : Cache} {layout : Layout}
    (hc : h.caches c = some cache) (hl : cache'.layout = cache.layout)
    (hd : ∃ x, h.caches d = some x ∧ x.layout = layout) :
    ∃ x, (h.setCache c cache').caches d = some x ∧ x.layout = layout := by
  obtain ⟨x, hx, rfl⟩ := hd
  by_cases hdc : d = c
  · subst hdc
    rw [hc, Option.some.injEq] at hx
    exact ⟨cache', h.caches_setCache d cache', by rw [hl, hx]⟩
  · exact ⟨x, by rw [h.caches_setCache_of_ne hdc, hx], rfl⟩

/-- **The invariant of the heap**, for caches set up with the sizes and alignments `specs`. -/
structure HeapInv (specs : Nat → Nat × Nat) (M : Set Nat) (slabs : List PoolAt)
    (bigs foreign : List Block) (h : Heap) : Prop where
  limit : PagesOk M
  zones : ZonesInv h.zones M (slabs.map PoolAt.block ++ (bigs ++ foreign))
  setup : ∀ c cache, h.caches c = some cache → 0 < (specs c).1 ∧ (∃ k, (specs c).2 = 2 ^ k) ∧
    LayoutFit (specs c).1 (specs c).2 cache.layout
  home : ∀ s ∈ slabs, ∃ cache, h.caches s.cache = some cache ∧ cache.layout = s.layout
  slab_tags : ∀ s ∈ slabs, ∀ i ∈ s.block.cells, Tagged h.zones i true (.cache (some s.cache))
  big_tags : ∀ b ∈ bigs, Tagged h.zones b.start false (.order b.order)
  pools : ∀ s ∈ slabs, PoolOk s.layout s.page (h.pools s.header)
  nodup : ∀ c cache, h.caches c = some cache → ∀ k, (cache.pools k).Nodup
  lists : ∀ c cache, h.caches c = some cache → ∀ k a, a ∈ cache.pools k ↔
    ∃ s ∈ slabs, s.cache = c ∧ s.header = a ∧ listOf s.layout.objCount (h.pools a).free = k

namespace HeapInv

variable {specs : Nat → Nat × Nat} {M : Set Nat} {slabs : List PoolAt}
  {bigs foreign : List Block} {h : Heap} {s t : PoolAt}

/-! ## Pools are apart -/

theorem mem_block (hs : s ∈ slabs) : s.block ∈ slabs.map PoolAt.block ++ (bigs ++ foreign) :=
  List.mem_append_left _ (List.mem_map_of_mem hs)

theorem cells_subset (hi : HeapInv specs M slabs bigs foreign h) {b : Block}
    (hb : b ∈ slabs.map PoolAt.block ++ (bigs ++ foreign)) : b.cells ⊆ M :=
  hi.zones.tiling.cells_subset (List.mem_append_left _ hb)

theorem aligned (hi : HeapInv specs M slabs bigs foreign h) {b : Block}
    (hb : b ∈ slabs.map PoolAt.block ++ (bigs ++ foreign)) : b.Aligned :=
  hi.zones.tiling.aligned b (List.mem_append_left _ hb)

theorem usable (hi : HeapInv specs M slabs bigs foreign h) {b : Block}
    (hb : b ∈ slabs.map PoolAt.block ++ (bigs ++ foreign)) : Usable b :=
  ⟨hi.aligned hb, hi.zones.order_le hb, fun i hm => (hi.limit i (hi.cells_subset hb hm)).2⟩

/-- A pool in a block of the page allocator. -/
theorem placed_block {cache : Cache} (hi : HeapInv specs M slabs bigs foreign h)
    (hb : s.block ∈ slabs.map PoolAt.block ++ (bigs ++ foreign))
    (hcache : h.caches s.cache = some cache)
    (hlayout : cache.layout = s.layout) : Placed (specs s.cache).1 (specs s.cache).2 s := by
  obtain ⟨hsize, halign, hfit⟩ := hi.setup _ _ hcache
  rw [hlayout] at hfit
  exact ⟨hsize, halign, hfit, hi.usable hb⟩

theorem placed (hi : HeapInv specs M slabs bigs foreign h) (hs : s ∈ slabs) :
    Placed (specs s.cache).1 (specs s.cache).2 s := by
  obtain ⟨cache, hcache, hlayout⟩ := hi.home s hs
  exact hi.placed_block (mem_block hs) hcache hlayout

/-- The blocks that are held are apart: the pools, the others, and these from one another. -/
theorem live_apart (hi : HeapInv specs M slabs bigs foreign h) :
    (slabs.map PoolAt.block).Pairwise (fun b c => Disjoint b.cells c.cells) ∧
    (bigs ++ foreign).Pairwise (fun b c => Disjoint b.cells c.cells) ∧
    ∀ b ∈ slabs.map PoolAt.block, ∀ c ∈ bigs ++ foreign, Disjoint b.cells c.cells :=
  List.pairwise_append.mp (List.pairwise_append.mp hi.zones.tiling.disjoint).1

/-- So are the blocks of whole pages. -/
theorem others_apart (hi : HeapInv specs M slabs bigs foreign h) :
    bigs.Pairwise (fun b c => Disjoint b.cells c.cells) ∧
    foreign.Pairwise (fun b c => Disjoint b.cells c.cells) ∧
    ∀ b ∈ bigs, ∀ c ∈ foreign, Disjoint b.cells c.cells :=
  List.pairwise_append.mp hi.live_apart.2.1

/-- **A page belongs to one pool.** -/
theorem slab_eq (hi : HeapInv specs M slabs bigs foreign h) (hs : s ∈ slabs)
    (ht : t ∈ slabs) {i : Nat} (his : i ∈ s.block.cells) (hit : i ∈ t.block.cells) : s = t := by
  by_contra hne
  have hpair := hi.live_apart.1
  rw [List.pairwise_map] at hpair
  have : Std.Symm fun s t : PoolAt => Disjoint s.block.cells t.block.cells :=
    ⟨fun _ _ hd => hd.symm⟩
  exact Set.disjoint_left.mp (hpair.forall hs ht hne) his hit

/-- A page of a pool belongs to no block of another kind. -/
theorem not_mem_other (hi : HeapInv specs M slabs bigs foreign h) (hs : s ∈ slabs) {b : Block}
    (hb : b ∈ bigs ++ foreign) {i : Nat} (his : i ∈ s.block.cells) : i ∉ b.cells := by
  have hcross := hi.live_apart.2.2
  exact Set.disjoint_left.mp (hcross _ (List.mem_map_of_mem hs) b hb) his

/-- **Headers are apart.** -/
theorem header_inj (hi : HeapInv specs M slabs bigs foreign h) (hs : s ∈ slabs) (ht : t ∈ slabs)
    (heq : s.header = t.header) : s = t := by
  rw [s.header_eq, t.header_eq] at heq
  have haddr := va_inj (hi.placed hs).headerAddr_lt (hi.placed ht).headerAddr_lt heq
  apply hi.slab_eq hs ht (hi.placed hs).headerAddr_page
  rw [haddr]
  exact (hi.placed ht).headerAddr_page

/-- **Objects are apart.** -/
theorem object_inj (hi : HeapInv specs M slabs bigs foreign h) (hs : s ∈ slabs)
    (ht : t ∈ slabs) {p q : Nat}
    (hp : p < s.layout.objCount) (hq : q < t.layout.objCount) (heq : s.object p = t.object q) :
    s = t ∧ p = q := by
  have heq' := heq
  rw [s.object_eq, t.object_eq] at heq'
  have haddr := va_inj ((hi.placed hs).objAddr_lt hp) ((hi.placed ht).objAddr_lt hq) heq'
  have hst : s = t := by
    apply hi.slab_eq hs ht ((hi.placed hs).objAddr_page hp)
    rw [haddr]
    exact (hi.placed ht).objAddr_page hq
  subst hst
  exact ⟨rfl, (hi.placed hs).object_inj hp hq heq⟩

/-! ## Blocks of the page allocator -/

/-- The zones change, and with them only the blocks of other users. -/
theorem sameUsers {foreign' : List Block} {zones : List Zone}
    (hi : HeapInv specs M slabs bigs foreign h)
    (hz : ZonesInv zones M (slabs.map PoolAt.block ++ (bigs ++ foreign')))
    (hs : SameUsers h.zones zones) :
    HeapInv specs M slabs bigs foreign' { h with zones := zones } :=
  { hi with
    zones := hz
    slab_tags := fun s hm i hc => (hi.slab_tags s hm i hc).sameUsers hs
    big_tags := fun b hb => (hi.big_tags b hb).sameUsers hs }

/-- The order of the blocks of other users does not matter. -/
theorem perm {foreign' : List Block} (hi : HeapInv specs M slabs bigs foreign h)
    (hp : foreign.Perm foreign') : HeapInv specs M slabs bigs foreign' h :=
  hi.sameUsers (hi.zones.perm_live ((hp.append_left _).append_left _)) (SameUsers.refl _)

theorem perm_foreign (l : List Block) (b : Block) :
    (slabs.map PoolAt.block ++ (bigs ++ b :: l)).Perm
    (b :: (slabs.map PoolAt.block ++ (bigs ++ l))) :=
  (List.perm_middle.append_left _).trans List.perm_middle

/-- **`__page_alloc`** adds a block. -/
theorem alloc (hi : HeapInv specs M slabs bigs foreign h) (order : Nat) :
    pageAllocRaw h.zones order = .ok (h.zones, none) ∨
    ∃ zones idx, pageAllocRaw h.zones order = .ok (zones, some idx) ∧
      HeapInv specs M slabs bigs (⟨idx, order⟩ :: foreign) { h with zones := zones } := by
  rcases @pageAllocRaw_spec _ _ _ order hi.zones with ⟨hnone, _⟩ | ⟨zones, idx, hsome, _, hz, _, hs⟩
  · exact Or.inl hnone
  · exact Or.inr ⟨zones, idx, hsome, hi.sameUsers (hz.perm_live (perm_foreign _ _).symm) hs⟩

/-- **`__page_free`** removes a block. -/
theorem free {b : Block} (hi : HeapInv specs M slabs bigs (b :: foreign) h) :
    ∃ zones, pageFreeRaw h.zones b.start b.order = .ok zones ∧
      HeapInv specs M slabs bigs foreign { h with zones := zones } := by
  obtain ⟨zones, hfree, hz, _, hs⟩ := pageFreeRaw_spec (hi.zones.perm_live (perm_foreign _ _))
  exact ⟨zones, hfree, hi.sameUsers hz hs⟩

/-- **Writing the descriptors** of a block disturbs no block of the first two kinds. -/
theorem tag {b : Block} {f : Page → Page} {n : Nat}
    (hi : HeapInv specs M slabs bigs (b :: foreign) h) (hf : KeepsBuddy f) (hn : n ≤ 2 ^ b.order) :
    ∃ zones, updatePages f b.start n h.zones = .ok zones ∧
      HeapInv specs M slabs bigs (b :: foreign) { h with zones := zones } ∧
      ∀ cached u, (∀ desc, pageTestBit (f desc) PAGE_CACHE_BIT = cached ∧ (f desc).u = u) →
        ∀ i, b.start ≤ i → i < b.start + n → Tagged zones i cached u := by
  have hb : b ∈ slabs.map PoolAt.block ++ (bigs ++ b :: foreign) := by simp
  obtain ⟨zones, hup, hz, htag, hkeep⟩ := updatePages_spec hi.zones hb hf hn
  refine ⟨zones, hup, ⟨hi.limit, hz, hi.setup, hi.home, ?_, ?_, hi.pools, hi.nodup, hi.lists⟩, htag⟩
  · intro s hs i his
    have hout : i ∉ b.cells := hi.not_mem_other hs (by simp) his
    exact hkeep i _ _ hout (hi.slab_tags s hs i his)
  · intro c hc
    have hcross := hi.others_apart.2.2
    have hout : c.start ∉ b.cells :=
      Set.disjoint_left.mp (hcross c hc b List.mem_cons_self) c.start_mem
    exact hkeep _ _ _ hout (hi.big_tags c hc)

/-! ## Pools -/

/-- The header of a new pool is no other pool's. -/
theorem setFresh {a : Nat} (hi : HeapInv specs M slabs bigs foreign h)
    (ha : ∀ s ∈ slabs, s.header ≠ a)
    (pool : Pool) : HeapInv specs M slabs bigs foreign (h.setPool a pool) :=
  { hi with
    pools := by
      intro s hs
      show PoolOk _ _ (Function.update h.pools a pool s.header)
      rw [Function.update_of_ne (ha s hs)]
      exact hi.pools s hs
    lists := by
      intro c cache hcache k x
      rw [hi.lists c cache hcache k x]
      refine exists_congr fun s => and_congr_right fun hs => and_congr_right fun _ =>
        and_congr_right ?_
      rintro rfl
      show _ ↔ listOf _ (Function.update h.pools a pool s.header).free = k
      rw [Function.update_of_ne (ha s hs)] }

/-- **A pool changes** and moves to the list it belongs to. -/
theorem relist {cache cache' : Cache} {pool : Pool} (hi : HeapInv specs M slabs bigs foreign h)
    (hs : s ∈ slabs) (hcache : h.caches s.cache = some cache) (hpool : PoolOk s.layout s.page pool)
    (hlayout : cache'.layout = cache.layout) (hn : ∀ k, (cache'.pools k).Nodup)
    (hmem : ∀ k a, a ∈ cache'.pools k ↔ (a = s.header ∧ listOf s.layout.objCount pool.free = k) ∨
      (a ≠ s.header ∧ a ∈ cache.pools k)) :
    HeapInv specs M slabs bigs foreign ((h.setPool s.header pool).setCache s.cache cache') := by
  have hupd : ∀ t ∈ slabs, t ≠ s → Function.update h.pools s.header pool t.header =
      h.pools t.header :=
    fun t ht hne => Function.update_of_ne (fun heq => hne (hi.header_inj ht hs heq)) ..
  have hself : Function.update h.pools s.header pool s.header = pool := Function.update_self ..
  refine ⟨hi.limit, hi.zones, ?_, ?_, hi.slab_tags, hi.big_tags, ?_, ?_, ?_⟩
  · apply Heap.forall_setCache
    · rw [hlayout]
      exact hi.setup _ _ hcache
    · exact fun c x _ hx => hi.setup c x hx
  · exact fun t ht => Heap.layout_setCache hcache hlayout (hi.home t ht)
  · intro t ht
    show PoolOk _ _ (Function.update h.pools s.header pool t.header)
    by_cases hts : t = s
    · rw [hts, hself]
      exact hpool
    · rw [hupd t ht hts]
      exact hi.pools t ht
  · refine Heap.forall_setCache ?_ fun c x _ hx => hi.nodup c x hx
    exact hn
  · apply Heap.forall_setCache
    · intro k a
      show _ ↔ ∃ t ∈ slabs, t.cache = s.cache ∧ t.header = a ∧
        listOf t.layout.objCount (Function.update h.pools s.header pool a).free = k
      rw [hmem, hi.lists _ _ hcache]
      constructor
      · rintro (⟨rfl, hk⟩ | ⟨hne, t, ht, hct, rfl, hk⟩)
        · exact ⟨s, hs, rfl, rfl, by rw [hself]; exact hk⟩
        · exact ⟨t, ht, hct, rfl, by rw [hupd t ht fun hts => hne (by rw [hts])]; exact hk⟩
      · rintro ⟨t, ht, hct, rfl, hk⟩
        by_cases hts : t = s
        · subst hts
          rw [hself] at hk
          exact Or.inl ⟨rfl, hk⟩
        · rw [hupd t ht hts] at hk
          exact Or.inr ⟨fun heq => hts (hi.header_inj ht hs heq), t, ht, hct, rfl, hk⟩
    · intro c x hc hx k a
      rw [hi.lists c x hx k a]
      refine exists_congr fun t => and_congr_right fun ht => and_congr_right fun hct =>
        and_congr_right ?_
      rintro rfl
      show _ ↔ listOf _ (Function.update h.pools s.header pool t.header).free = k
      rw [hupd t ht fun hts => hc (by rw [← hct, hts])]

/-- The header of a pool in a block of another user is no other pool's. -/
theorem header_ne (hi : HeapInv specs M slabs bigs (s.block :: foreign) h)
    (hplaced : Placed (specs s.cache).1 (specs s.cache).2 s) (ht : t ∈ slabs) :
    t.header ≠ s.header := by
  intro heq
  rw [t.header_eq, s.header_eq] at heq
  have haddr := va_inj (hi.placed ht).headerAddr_lt hplaced.headerAddr_lt heq
  have hout : t.headerAddr / PAGE_SIZE ∉ s.block.cells :=
    hi.not_mem_other ht (by simp) (hi.placed ht).headerAddr_page
  rw [haddr] at hout
  exact hout hplaced.headerAddr_page

/-- **A block becomes a pool** and is linked in the list it belongs to. -/
theorem adopt {cache : Cache} {pool : Pool} (hi : HeapInv specs M slabs bigs (s.block :: foreign) h)
    (hcache : h.caches s.cache = some cache) (hlayout : cache.layout = s.layout)
    (htags : ∀ i ∈ s.block.cells, Tagged h.zones i true (.cache (some s.cache)))
    (hpool : PoolOk s.layout s.page pool) :
    (∀ k, s.header ∉ cache.pools k) ∧ HeapInv specs M (s :: slabs) bigs foreign
      ((h.setPool s.header pool).setCache s.cache
        (cache.moved s.header (listOf s.layout.objCount pool.free))) := by
  have hplaced := hi.placed_block (s := s) (by simp) hcache hlayout
  have hne : ∀ t ∈ slabs, t.header ≠ s.header := fun t ht => hi.header_ne hplaced ht
  have hnew : ∀ k, s.header ∉ cache.pools k := by
    intro k hk
    obtain ⟨t, ht, _, heq, _⟩ := (hi.lists _ _ hcache k _).mp hk
    exact hne t ht heq
  have hupd : ∀ t ∈ slabs, Function.update h.pools s.header pool t.header = h.pools t.header :=
    fun t ht => Function.update_of_ne (hne t ht) ..
  have hself : Function.update h.pools s.header pool s.header = pool := Function.update_self ..
  refine ⟨hnew, hi.limit, hi.zones.perm_live (perm_foreign _ _), ?_, ?_, ?_,
    hi.big_tags, ?_, ?_, ?_⟩
  · apply Heap.forall_setCache
    · have hset := hi.setup _ _ hcache
      exact hset
    · exact fun c x _ hx => hi.setup c x hx
  · intro t ht
    apply Heap.layout_setCache (h := h.setPool s.header pool) hcache (by rfl)
    rcases List.mem_cons.mp ht with rfl | ht
    · exact ⟨cache, hcache, hlayout⟩
    · exact hi.home t ht
  · intro t ht i hit
    rcases List.mem_cons.mp ht with rfl | ht
    · exact htags i hit
    · exact hi.slab_tags t ht i hit
  · intro t ht
    show PoolOk _ _ (Function.update h.pools s.header pool t.header)
    rcases List.mem_cons.mp ht with rfl | ht
    · rw [hself]
      exact hpool
    · rw [hupd t ht]
      exact hi.pools t ht
  · refine Heap.forall_setCache ?_ fun c x _ hx => hi.nodup c x hx
    exact Cache.nodup_moved (hi.nodup _ _ hcache)
  · apply Heap.forall_setCache
    · intro k a
      show _ ↔ ∃ t ∈ s :: slabs, t.cache = s.cache ∧ t.header = a ∧
        listOf t.layout.objCount (Function.update h.pools s.header pool a).free = k
      rw [List.exists_mem_cons_iff, Cache.mem_moved (hi.nodup _ _ hcache k), hi.lists _ _ hcache]
      refine or_congr ?_ ?_
      · constructor
        · rintro ⟨rfl, rfl⟩
          exact ⟨rfl, rfl, by rw [hself]⟩
        · rintro ⟨_, rfl, hk⟩
          rw [hself] at hk
          exact ⟨rfl, hk.symm⟩
      · constructor
        · rintro ⟨_, t, ht, hct, rfl, hk⟩
          exact ⟨t, ht, hct, rfl, by rw [hupd t ht]; exact hk⟩
        · rintro ⟨t, ht, hct, rfl, hk⟩
          rw [hupd t ht] at hk
          exact ⟨hne t ht, t, ht, hct, rfl, hk⟩
    · intro c x hc hx k a
      show _ ↔ ∃ t ∈ s :: slabs, t.cache = c ∧ t.header = a ∧
        listOf t.layout.objCount (Function.update h.pools s.header pool a).free = k
      rw [List.exists_mem_cons_iff, hi.lists c x hx k a, or_iff_right fun hs => hc hs.1.symm]
      refine exists_congr fun t => and_congr_right fun ht => and_congr_right fun _ =>
        and_congr_right ?_
      rintro rfl
      rw [hupd t ht]

/-- **The free pools of a cache leave it**, their blocks stay with the allocator. -/
theorem drop {cache : Cache} {c : Nat} (hi : HeapInv specs M slabs bigs foreign h)
    (hcache : h.caches c = some cache) :
    ∃ keep gone, slabs.Perm (gone ++ keep) ∧
      (∀ s ∈ gone, s.cache = c ∧ (h.pools s.header).free = s.layout.objCount) ∧
      (gone.map PoolAt.header).Perm (cache.pools .freePools) ∧
      HeapInv specs M keep bigs (gone.map PoolAt.block ++ foreign)
        (h.setCache c { cache with pools := Function.update cache.pools .freePools [] }) := by
  generalize hgone : (slabs.filter fun s =>
    decide (s.cache = c ∧ (h.pools s.header).free = s.layout.objCount)) = gone
  generalize hkeep : (slabs.filter fun s =>
    !decide (s.cache = c ∧ (h.pools s.header).free = s.layout.objCount)) = keep
  have hp : slabs.Perm (gone ++ keep) := by
    rw [← hgone, ← hkeep]
    exact (List.filter_append_perm _ _).symm
  have hmemg : ∀ s, s ∈ gone ↔ s ∈ slabs ∧ s.cache = c ∧
      (h.pools s.header).free = s.layout.objCount := by
    intro s
    rw [← hgone, List.mem_filter, decide_eq_true_iff]
  have hmemk : ∀ s, s ∈ keep ↔ s ∈ slabs ∧ ¬ (s.cache = c ∧
      (h.pools s.header).free = s.layout.objCount) := by
    intro s
    rw [← hkeep, List.mem_filter, Bool.not_eq_true', decide_eq_false_iff_not]
  have hslabs : ∀ {s}, s ∈ keep → s ∈ slabs := fun hs => ((hmemk _).mp hs).1
  refine ⟨keep, gone, hp, fun s hs => ((hmemg s).mp hs).2, ?_, hi.limit, ?_, ?_, ?_, ?_,
    hi.big_tags, ?_, ?_, ?_⟩
  · have hnodup : slabs.Nodup := by
      have hpair := hi.live_apart.1
      rw [List.pairwise_map] at hpair
      refine hpair.imp ?_
      rintro s t hd rfl
      exact Set.disjoint_left.mp hd s.block.start_mem s.block.start_mem
    have hgn : (gone.map PoolAt.header).Nodup := by
      refine List.Nodup.map_on ?_ (hgone ▸ hnodup.filter _)
      intro s hs t ht heq
      exact hi.header_inj ((hmemg s).mp hs).1 ((hmemg t).mp ht).1 heq
    rw [List.perm_ext_iff_of_nodup hgn (hi.nodup c cache hcache _)]
    intro a
    rw [List.mem_map, hi.lists c cache hcache]
    constructor
    · rintro ⟨s, hs, rfl⟩
      obtain ⟨hss, hsc, hfree⟩ := (hmemg s).mp hs
      exact ⟨s, hss, hsc, rfl, if_pos hfree⟩
    · rintro ⟨s, hss, hsc, rfl, hlist⟩
      exact ⟨s, (hmemg s).mpr ⟨hss, hsc, listOf_eq_free.mp hlist⟩, rfl⟩
  · refine hi.zones.perm_live ?_
    have hsplit : (slabs.map PoolAt.block ++ (bigs ++ foreign)).Perm
        (gone.map PoolAt.block ++ ((keep.map PoolAt.block ++ bigs) ++ foreign)) := by
      rw [List.append_assoc, ← List.append_assoc (gone.map _), ← List.map_append]
      exact (hp.map _).append_right _
    refine hsplit.trans ?_
    rw [← List.append_assoc (keep.map _) bigs (gone.map _ ++ foreign)]
    exact List.perm_append_comm_assoc _ _ _
  · apply Heap.forall_setCache
    · have hset := hi.setup _ _ hcache
      exact hset
    · exact fun d x _ hx => hi.setup d x hx
  · exact fun s hs => Heap.layout_setCache hcache (by rfl) (hi.home s (hslabs hs))
  · exact fun s hs => hi.slab_tags s (hslabs hs)
  · exact fun s hs => hi.pools s (hslabs hs)
  · refine Heap.forall_setCache ?_ fun d x _ hx => hi.nodup d x hx
    intro k
    by_cases hk : k = .freePools
    · subst hk
      show (Function.update cache.pools .freePools [] .freePools).Nodup
      rw [Function.update_self]
      exact List.nodup_nil
    · show (Function.update cache.pools .freePools [] k).Nodup
      rw [Function.update_of_ne hk]
      exact hi.nodup _ _ hcache k
  · apply Heap.forall_setCache
    · intro k a
      show a ∈ Function.update cache.pools .freePools [] k ↔
        ∃ s ∈ keep, s.cache = c ∧ s.header = a ∧ listOf s.layout.objCount (h.pools a).free = k
      by_cases hk : k = .freePools
      · subst hk
        rw [Function.update_self]
        refine iff_of_false List.not_mem_nil ?_
        rintro ⟨s, hs, hsc, rfl, hlist⟩
        exact ((hmemk s).mp hs).2 ⟨hsc, listOf_eq_free.mp hlist⟩
      · rw [Function.update_of_ne hk, hi.lists _ _ hcache]
        refine exists_congr fun s => ?_
        constructor
        · rintro ⟨hs, hsc, rfl, hlist⟩
          refine ⟨(hmemk s).mpr ⟨hs, fun hfree => hk ?_⟩, hsc, rfl, hlist⟩
          rw [← hlist]
          exact listOf_eq_free.mpr hfree.2
        · rintro ⟨hs, hrest⟩
          exact ⟨hslabs hs, hrest⟩
    · intro d x hd hx k a
      rw [hi.lists d x hx k a]
      refine exists_congr fun s => ?_
      constructor
      · rintro ⟨hs, hsc, hrest⟩
        exact ⟨(hmemk s).mpr ⟨hs, fun hfree => hd (hsc ▸ hfree.1)⟩, hsc, hrest⟩
      · rintro ⟨hs, hrest⟩
        exact ⟨hslabs hs, hrest⟩

end HeapInv

end Slab

end AuOs
