import Mathlib
import AuOs.Lib.CallSystem
import AuOs.Slab.Operations

/-!
# Runs of the caches

Any number of caches that share the page allocator, each set up once and then used by calls in any
order.

* `CacheState` — the heap and, as a ghost component, the objects that were returned and not yet
  freed.
* `cacheCalls` — the four calls; only an object that is live may be freed.
* `CacheOk` — the invariant of a run.
* `cacheCalls_keeps` — **every legal call returns** and keeps the invariant.
* `CacheSafe`, `LiveOk` — what it says about the pools of a cache and about its objects.
* `cache_runs` — the result for every run.
-/

set_option autoImplicit false

namespace AuOs

namespace Slab

open DyadicTiling

/-- The heap and the objects in the hands of their users, each with its cache. -/
structure CacheState where
  heap : Heap
  live : List (Nat × Nat)

/-- The calls on caches. -/
inductive CacheCall where
  | setup (c : Nat)
  | alloc (c : Nat)
  | free (c ptr : Nat)
  | shrink (c : Nat)

/-- The calls, for caches with the sizes and alignments `specs`.  A cache is set up before it is
used, and its layout has to be computable without overflow. -/
def cacheCalls (specs : Nat → Nat × Nat) : CallSystem CacheState CacheCall Stop where
  legal s
    | .setup c => s.heap.caches c = none ∧ 0 < (specs c).1 ∧ (∃ k, (specs c).2 = 2 ^ k) ∧
        LayoutFits (specs c).1 (specs c).2
    | .alloc c => s.heap.caches c ≠ none
    | .free c ptr => (c, ptr) ∈ s.live
    | .shrink c => s.heap.caches c ≠ none
  exec s
    | .setup c => do
      let h ← memCacheSetup s.heap c (specs c).1 (specs c).2
      return { s with heap := h }
    | .alloc c => do
      let (h, ptr) ← memCacheAlloc s.heap c
      return ⟨h, if ptr = 0 then s.live else (c, ptr) :: s.live⟩
    | .free c ptr => do
      let h ← memCacheFree s.heap c ptr
      return ⟨h, s.live.erase (c, ptr)⟩
    | .shrink c => do
      let h ← memCacheShrink s.heap c
      return { s with heap := h }

/-- The invariant of a run: the live objects are objects of their caches, and no pointer is live
twice. -/
def CacheOk (specs : Nat → Nat × Nat) (M : Set Nat) (foreign : List Block)
    (s : CacheState) : Prop :=
  ∃ slabs, HeapInv specs M slabs [] foreign s.heap ∧ (s.live.map Prod.snd).Nodup ∧
    ∀ o ∈ s.live, ObjectOf slabs s.heap o.1 o.2

section Run

variable {specs : Nat → Nat × Nat} {M : Set Nat} {foreign : List Block} {s : CacheState}

/-- **One call.** -/
theorem cacheCalls_step {call : CacheCall} (h : CacheOk specs M foreign s)
    (hc : (cacheCalls specs).legal s call) :
    ∃ s', (cacheCalls specs).exec s call = .ok s' ∧ CacheOk specs M foreign s' := by
  obtain ⟨slabs, hi, hnodup, hlive⟩ := h
  cases call with
  | setup c =>
    obtain ⟨hnone, hsize, halign, hfits⟩ := hc
    obtain ⟨h', cache, hset, hi', rfl⟩ := memCacheSetup_spec hi hnone hsize halign hfits
    refine ⟨⟨_, s.live⟩, ?_, slabs, hi', hnodup, hlive⟩
    simp only [cacheCalls, hset, ok_bind, pure_eq_ok]
    rfl
  | alloc c =>
    obtain ⟨cache, hcache⟩ := Option.ne_none_iff_exists'.mp hc
    obtain ⟨h', p, slabs', halloc, hi', _, hkeep, hnew⟩ := memCacheAlloc_spec hi hcache
    refine ⟨⟨h', if p = 0 then s.live else (c, p) :: s.live⟩, ?_, slabs', hi', ?_⟩
    · simp only [cacheCalls, halloc, ok_bind, pure_eq_ok]
    · by_cases hp : p = 0
      · rw [if_pos hp]
        exact ⟨hnodup, fun o ho => hkeep o.1 o.2 (hlive o ho)⟩
      · obtain ⟨hobj, hfresh⟩ := hnew hp
        rw [if_neg hp]
        refine ⟨?_, ?_⟩
        · rw [List.map_cons, List.nodup_cons]
          refine ⟨?_, hnodup⟩
          intro hmem
          obtain ⟨⟨d, q⟩, ho, rfl⟩ := List.mem_map.mp hmem
          exact hfresh d (hlive (d, q) ho)
        · intro o ho
          rcases List.mem_cons.mp ho with rfl | ho
          · exact hobj
          · exact hkeep o.1 o.2 (hlive o ho)
  | free c p =>
    have hmem : (c, p) ∈ s.live := hc
    obtain ⟨h', hfree, hi', _, hkeep, _⟩ := memCacheFree_spec hi (hlive _ hmem)
    have hperm := List.perm_cons_erase hmem
    have hnodup' := (hperm.map Prod.snd).nodup_iff.mp hnodup
    rw [List.map_cons, List.nodup_cons] at hnodup'
    refine ⟨⟨h', s.live.erase (c, p)⟩, ?_, slabs, hi', hnodup'.2, ?_⟩
    · simp only [cacheCalls, hfree, ok_bind, pure_eq_ok]
    · intro o ho
      apply hkeep o.1 o.2 _ (hlive o (List.mem_of_mem_erase ho))
      rintro heq
      exact hnodup'.1 (heq ▸ List.mem_map_of_mem ho)
  | shrink c =>
    obtain ⟨cache, hcache⟩ := Option.ne_none_iff_exists'.mp hc
    obtain ⟨h', slabs', hshrink, hi', _, hkeep⟩ := memCacheShrink_spec hi hcache
    refine ⟨⟨h', s.live⟩, ?_, slabs', hi', hnodup, fun o ho => hkeep o.1 o.2 (hlive o ho)⟩
    simp only [cacheCalls, hshrink, ok_bind, pure_eq_ok]

/-- **Every legal call returns** and keeps the invariant. -/
theorem cacheCalls_keeps (specs : Nat → Nat × Nat) (M : Set Nat) (foreign : List Block) :
    (cacheCalls specs).Keeps (fun _ => False) (CacheOk specs M foreign) := by
  intro s call h hc
  exact Post.of_ok (cacheCalls_step h hc)

/-- Caches that were not set up yet. -/
def noCaches (zones : List Zone) (pools : Nat → Pool) (bytes : Nat → Int8) : CacheState :=
  ⟨⟨zones, pools, fun _ => none, bytes⟩, []⟩

theorem noCaches_ok {zones : List Zone} (hz : ZonesInv zones M foreign) (hM : PagesOk M)
    (pools : Nat → Pool) (bytes : Nat → Int8) :
    CacheOk specs M foreign (noCaches zones pools bytes) := by
  refine ⟨[], ⟨hM, hz, ?_, ?_, ?_, ?_, ?_, ?_, ?_⟩, List.nodup_nil, ?_⟩
  · intro c cache hc
    cases hc
  · intro t ht
    cases ht
  · intro t ht
    cases ht
  · intro b hb
    cases hb
  · intro t ht
    cases ht
  · intro c cache hc
    cases hc
  · intro c cache hc
    cases hc
  · intro o ho
    cases ho

/-! ## What holds in every state -/

/-- The pools of a cache: the counter counts the clear bits, the bits behind the last object are
set, and the list tells how many slots are free. -/
structure CacheSafe (h : Heap) (cache : Cache) : Prop where
  counts : ∀ k a, a ∈ cache.pools k →
    (h.pools a).free = (freeSlots cache.layout.objCount (h.pools a).bitmask).card
  tail : ∀ k a, a ∈ cache.pools k → ∀ pos, cache.layout.objCount ≤ pos →
    pos < cache.layout.maskWords * OBJS_PER_WORD → (h.pools a).busy pos = true
  one_list : ∀ a, cache.linked a = true → ∃! k, a ∈ cache.pools k
  nodup : ∀ k, (cache.pools k).Nodup
  free_pools : ∀ a, cache.linked a = true →
    (a ∈ cache.pools .freePools ↔ (h.pools a).free = cache.layout.objCount)
  busy_pools : ∀ a, cache.linked a = true → (a ∈ cache.pools .busyPools ↔ (h.pools a).free = 0)
  partial_pools : ∀ a, cache.linked a = true →
    (a ∈ cache.pools .partialPools ↔ (h.pools a).free ≠ cache.layout.objCount ∧
      (h.pools a).free ≠ 0)

/-- An object that its user holds: a slot of a pool that is found from the pointer alone. -/
structure LiveOk (align : Nat) (h : Heap) (cache : Cache) (ptr : Nat) : Prop where
  aligned : align ∣ ptr
  slot : ∃ k pos, poolOf cache.layout ptr ∈ cache.pools k ∧ pos < cache.layout.objCount ∧
    (h.pools (poolOf cache.layout ptr)).busy pos = true ∧
    ptr = ((h.pools (poolOf cache.layout ptr)).data + pos * cache.layout.objSize) % WORD

theorem HeapInv.cacheSafe {slabs : List PoolAt} {bigs : List Block} {h : Heap} {c : Nat}
    {cache : Cache}
    (hi : HeapInv specs M slabs bigs foreign h) (hc : h.caches c = some cache) :
    CacheSafe h cache := by
  have hpool : ∀ {k a}, a ∈ cache.pools k → ∃ t ∈ slabs, t.header = a ∧ cache.layout = t.layout ∧
      PoolOk cache.layout t.page (h.pools a) ∧
          listOf cache.layout.objCount (h.pools a).free = k := by
    intro k a ha
    obtain ⟨t, ht, rfl, rfl, hk⟩ := (hi.lists c cache hc k a).mp ha
    have hl := hi.layout_eq ht hc
    rw [hl]
    exact ⟨t, ht, rfl, rfl, hi.pools t ht, hk⟩
  have hlist : ∀ {a}, cache.linked a = true → ∀ k,
      (a ∈ cache.pools k ↔ listOf cache.layout.objCount (h.pools a).free = k) := by
    intro a ha k
    obtain ⟨j, hj⟩ := Cache.linked_iff.mp ha
    obtain ⟨t, ht, rfl, hl, _, hk⟩ := hpool hj
    constructor
    · intro hm
      exact (hpool hm).choose_spec.2.2.2.2
    · rintro rfl
      rwa [hk]
  have hobjs : ∀ {a}, cache.linked a = true → cache.layout.objCount ≠ 0 := by
    intro a ha
    obtain ⟨j, hj⟩ := Cache.linked_iff.mp ha
    obtain ⟨t, ht, _, hl, _⟩ := hpool hj
    have htwo := hi.two_objs ht
    rw [hl]
    omega
  refine ⟨?_, ?_, ?_, hi.nodup c cache hc, ?_, ?_, ?_⟩
  · intro k a ha
    obtain ⟨t, _, _, _, hok, _⟩ := hpool ha
    exact hok.free
  · intro k a ha
    obtain ⟨t, _, _, _, hok, _⟩ := hpool ha
    exact hok.tail
  · intro a ha
    refine ⟨_, (hlist ha _).mpr rfl, ?_⟩
    intro k hk
    exact ((hlist ha k).mp hk).symm
  · intro a ha
    rw [hlist ha, listOf_eq_free]
  · intro a ha
    rw [hlist ha, listOf_eq_busy (hobjs ha)]
  · intro a ha
    rw [hlist ha, listOf_eq_some]

theorem HeapInv.liveOk {slabs : List PoolAt} {bigs : List Block} {h : Heap} {c p : Nat}
    (hi : HeapInv specs M slabs bigs foreign h) (ho : ObjectOf slabs h c p) :
    ∃ cache, h.caches c = some cache ∧ LiveOk (specs c).2 h cache p := by
  obtain ⟨t, ht, rfl, pos, hpos, hbusy, rfl⟩ := ho
  obtain ⟨cache, hc, hl⟩ := hi.home t ht
  have hpool := (hi.placed ht).poolOf_object hpos
  have hdata := (hi.pools t ht).data_eq
  refine ⟨cache, hc, (hi.placed ht).dvd_object hpos,
    listOf t.layout.objCount (h.pools t.header).free, pos, ?_⟩
  rw [hl, hpool, hdata, va_add, ← PoolAt.objAddr, ← t.object_eq]
  exact ⟨(hi.mem_listOf ht hc).mpr rfl, hpos, hbusy, rfl⟩

/-- The blocks of pages that the caches hold are pools, each in one list of its cache. -/
theorem HeapInv.pools_listed {slabs : List PoolAt} {h : Heap}
    (hi : HeapInv specs M slabs [] foreign h) :
    ∃ pools : List PoolAt, ZonesInv h.zones M (pools.map PoolAt.block ++ foreign) ∧
      ∀ t ∈ pools, ∃ cache, h.caches t.cache = some cache ∧ ∃! k, t.header ∈ cache.pools k := by
  refine ⟨slabs, hi.zones, ?_⟩
  intro t ht
  obtain ⟨cache, hc, _⟩ := hi.home t ht
  refine ⟨cache, hc, _, (hi.mem_listOf ht hc).mpr rfl, ?_⟩
  intro k hk
  exact ((hi.mem_listOf ht hc).mp hk).symm

/-- The zones after the release of one range. -/
theorem released_range {begin_ end_ : Nat} (r : Nat × Nat) (hr : r.1 + PAGE_SIZE ≤ WORD)
    (hin : ∀ i ∈ wholePages r.1 r.2, begin_ ≤ i ∧ i < end_) (hend : end_ ≤ ADDR_LIMIT / PAGE_SIZE) :
    ∃ zones, releaseRanges [Zone.zeroed begin_ end_] [r] = .ok zones ∧
      ZonesInv zones (releasedPages [r]) [] ∧ PagesOk (releasedPages [r]) := by
  have hstart : ZonesInv [Zone.zeroed begin_ end_] ∅ [] :=
    ZonesInv.of_zeroed (fun z hz => ⟨begin_, end_, List.mem_singleton.mp hz⟩)
      (List.pairwise_singleton ..)
  have hfree : ∀ z ∈ [Zone.zeroed begin_ end_], ∀ b ∈ freeList z, CutFrom [] b := by
    intro z hz b hb
    rw [List.mem_singleton.mp hz] at hb
    simp [freeList, Zone.zeroed] at hb
  obtain ⟨zones, hrel, hz, _, _⟩ := releaseRanges_spec [r] [] _ ∅ hstart
    (fun q hq => by rwa [List.mem_singleton.mp hq])
    (fun q hq _ => ⟨_, List.mem_cons_self, fun i hi =>
      Zone.contains_iff.mpr (hin i (List.mem_singleton.mp hq ▸ hi))⟩)
    (List.pairwise_singleton ..) (fun _ _ => Set.disjoint_empty _) hfree
  rw [Set.union_empty] at hz
  refine ⟨zones, hrel, hz, ?_⟩
  rintro i ⟨q, hq, hi⟩
  rw [List.mem_singleton.mp hq] at hi
  exact ⟨Nat.pos_of_ne_zero hi.1, (hin i hi).2.trans_le hend⟩

/-- Pages 1 to 15, all free. -/
theorem fifteenPages_ok : ∃ zones, releaseRanges [Zone.zeroed 1 16]
    [(0x1000, 0x10000)] = .ok zones ∧
    ZonesInv zones (releasedPages [(0x1000, 0x10000)]) [] ∧
    PagesOk (releasedPages [(0x1000, 0x10000)]) := by
  apply released_range
  · decide
  · rintro i ⟨hi0, hbegin, hend⟩
    unfold PAGE_SIZE PAGE_SHIFT at *
    omega
  · decide

/-- Memory that reads as zero. -/
def noPools (_ : Nat) : Pool := ⟨0, 0, 0, fun _ => 0⟩

/-- **Every run of the caches.**  From any state of the page allocator, and for any sizes and
alignments, the blocks that the caches hold are pools, each in one list; the pools of every cache
are as their lists say; the live objects are distinct aligned slots of pools that are found from the
pointer alone; and every legal call returns. -/
theorem cache_runs (specs : Nat → Nat × Nat) {M : Set Nat} {foreign : List Block}
    {zones : List Zone}
    (hz : ZonesInv zones M foreign) (hM : PagesOk M) (pools : Nat → Pool) (bytes : Nat → Int8)
    {s : CacheState} (hrun : (cacheCalls specs).Run (noCaches zones pools bytes) s) :
    (∃ pools : List PoolAt, ZonesInv s.heap.zones M (pools.map PoolAt.block ++ foreign) ∧
      ∀ t ∈ pools, ∃ cache, s.heap.caches t.cache = some cache ∧ ∃! k, t.header ∈ cache.pools k) ∧
    (∀ c cache, s.heap.caches c = some cache → CacheSafe s.heap cache) ∧
    (s.live.map Prod.snd).Nodup ∧
    (∀ o ∈ s.live, ∃ cache, s.heap.caches o.1 = some cache ∧
      LiveOk (specs o.1).2 s.heap cache o.2) ∧
    ∀ call, (cacheCalls specs).legal s call → ∃ s', (cacheCalls specs).exec s call = .ok s' := by
  have hok := (cacheCalls_keeps specs M foreign).run (noCaches_ok hz hM pools bytes) hrun
  have hret : ∀ call, (cacheCalls specs).legal s call →
      ∃ s', (cacheCalls specs).exec s call = .ok s' := by
    intro call hc
    obtain ⟨s', hexec, _⟩ := cacheCalls_step hok hc
    exact ⟨s', hexec⟩
  obtain ⟨slabs, hi, hnodup, hlive⟩ := hok
  exact ⟨hi.pools_listed, fun c cache hc => hi.cacheSafe hc, hnodup,
    fun o ho => hi.liveOk (hlive o ho), hret⟩

/-- The calls that `cacheCalls` allows, where it allows any layout. -/
def CacheState.allows (s : CacheState) : CacheCall → Bool
  | .setup c => (s.heap.caches c).isNone
  | .alloc c => (s.heap.caches c).isSome
  | .free c ptr => decide ((c, ptr) ∈ s.live)
  | .shrink c => (s.heap.caches c).isSome

theorem CacheState.allows_legal (hspecs : ∀ c, 0 < (specs c).1 ∧ (∃ k, (specs c).2 = 2 ^ k) ∧
    LayoutFits (specs c).1 (specs c).2) (s : CacheState) (c : CacheCall) (h : s.allows c = true) :
    (cacheCalls specs).legal s c := by
  cases c with
  | setup c => exact ⟨Option.isNone_iff_eq_none.mp h, hspecs c⟩
  | alloc c => exact Option.isSome_iff_ne_none.mp h
  | free c ptr => exact (of_decide_eq_true h : (c, ptr) ∈ s.live)
  | shrink c => exact Option.isSome_iff_ne_none.mp h

/-- Two objects of one pool come and go, the empty pool is given back, and a third object is
taken. -/
def comeAndGo : List CacheCall :=
  [.setup 0, .alloc 0, .alloc 0, .free 0 0xffff800000001000, .free 0 0xffff800000001040,
    .shrink 0, .alloc 0]

theorem cache_runs_comeAndGo : ∃ zones s,
    (cacheCalls fun _ => (64, 64)).Run (noCaches zones noPools fun _ => 0) s ∧
    s.live = [(0, 0xffff800000001000)] ∧
    (∀ o ∈ s.live, ∃ cache, s.heap.caches o.1 = some cache ∧ LiveOk 64 s.heap cache o.2) ∧
    ∀ call, (cacheCalls fun _ => (64, 64)).legal s call →
      ∃ s', (cacheCalls fun _ => (64, 64)).exec s call = .ok s' := by
  have htrial : ((releaseRanges [Zone.zeroed 1 16] [(0x1000, 0x10000)]).toOption.any fun zones =>
      ((cacheCalls fun _ => (64, 64)).trial CacheState.allows comeAndGo
        (noCaches zones noPools fun _ => 0)).any fun s =>
          decide (s.live = [(0, 0xffff800000001000)])) = true := by
    decide +kernel
  obtain ⟨zones, hrel, hz, hM⟩ := fifteenPages_ok
  rw [hrel] at htrial
  have hfits : LayoutFits 64 64 := @layoutFits_pages _ _ 0 (by decide) (by decide) (by decide)
  obtain ⟨s, hrun, hs⟩ := CallSystem.exists_run
    (CacheState.allows_legal fun _ => ⟨by decide, ⟨6, rfl⟩, hfits⟩) htrial
  obtain ⟨_, _, _, hlive, hret⟩ := cache_runs (fun _ => (64, 64)) hz hM noPools (fun _ => 0) hrun
  exact ⟨zones, s, hrun, hs, hlive, hret⟩

end Run

end Slab

end AuOs
