import Mathlib
import AuOs.Slab.Objects

/-!
# The operations on a cache

* `memCacheSetup_spec`, `memCacheAlloc_spec`, `memCacheFree_spec`, `memCacheShrink_spec` — **each
  operation returns** and keeps the invariant of the heap; a new object is no object that was there
  before, and the other objects stay.
-/

set_option autoImplicit false

namespace AuOs

namespace Slab

open DyadicTiling

section Operations

variable {specs : Nat → Nat × Nat} {M : Set Nat} {slabs : List PoolAt}
  {bigs foreign : List Block} {h : Heap} {c p : Nat} {cache : Cache}

/-- A pool that is the first of a list. -/
theorem HeapInv.of_head (hi : HeapInv specs M slabs bigs foreign h) (hc : h.caches c = some cache)
    {k : PoolList} {a : Nat} {l : List Nat} (hl : cache.pools k = a :: l) :
    ∃ s ∈ slabs, s.cache = c ∧ s.header = a ∧ cache.layout = s.layout ∧
      listOf s.layout.objCount (h.pools a).free = k := by
  obtain ⟨s, hs, rfl, hh, hk⟩ := (hi.lists _ _ hc k a).mp (hl ▸ List.mem_cons_self)
  exact ⟨s, hs, rfl, hh, hi.layout_eq hs hc, hk⟩

theorem HeapInv.two_objs (hi : HeapInv specs M slabs bigs foreign h) {s : PoolAt} (hs : s ∈ slabs) :
    2 ≤ s.layout.objCount := (hi.placed hs).layout.ok.two_objs

/-- **`mem_cache_setup`** of a cache that was not in use. -/
theorem memCacheSetup_spec (hi : HeapInv specs M slabs bigs foreign h) (hc : h.caches c = none)
    (hs : 0 < (specs c).1) (ha : ∃ k, (specs c).2 = 2 ^ k)
    (hfits : LayoutFits (specs c).1 (specs c).2) :
    ∃ h' cache, memCacheSetup h c (specs c).1 (specs c).2 = .ok h' ∧
      HeapInv specs M slabs bigs foreign h' ∧ h' = h.setCache c cache := by
  obtain ⟨layout, hsetup, hok⟩ := layout_ok _ _ hs ha hfits
  obtain ⟨k, hk⟩ := ha
  have hpos : 0 < (specs c).2 := by
    rw [hk]
    exact Nat.two_pow_pos k
  have hwords : layout.maskWords = (layout.objCount + 63) / 64 := by
    obtain ⟨layout', hsetup', _, _, hwords, _⟩ := memCacheLayoutSetup_eq hs hpos hfits
    rw [hsetup, Except.ok.injEq] at hsetup'
    rw [hsetup', hwords]
  have hslab : ∀ s ∈ slabs, s.cache ≠ c := by
    intro s hsm heq
    obtain ⟨x, hx, _⟩ := hi.home s hsm
    rw [heq, hc] at hx
    cases hx
  refine ⟨_, ⟨fun _ => [], layout⟩, by rw [memCacheSetup, hsetup]; rfl, ?_, rfl⟩
  refine ⟨hi.limit, hi.zones, ?_, ?_, hi.slab_tags, hi.big_tags, hi.pools, ?_, ?_⟩
  · refine Heap.forall_setCache ?_ fun d x _ hx => hi.setup d x hx
    exact ⟨hs, ⟨k, hk⟩, hok, hwords⟩
  · intro s hsm
    rw [h.caches_setCache_of_ne (hslab s hsm)]
    exact hi.home s hsm
  · refine Heap.forall_setCache ?_ fun d x _ hx => hi.nodup d x hx
    exact fun _ => List.nodup_nil
  · refine Heap.forall_setCache ?_ fun d x _ hx => hi.lists d x hx
    intro j a
    refine iff_of_false List.not_mem_nil ?_
    rintro ⟨s, hsm, heq, _⟩
    exact hslab s hsm heq

/-- **`mem_cache_alloc`.**  It returns no memory and changes no object, or the pointer is the one
new object. -/
theorem memCacheAlloc_exact (hi : HeapInv specs M slabs bigs foreign h)
    (hc : h.caches c = some cache) :
    ∃ h' p slabs', memCacheAlloc h c = .ok (h', p) ∧ HeapInv specs M slabs' bigs foreign h' ∧
      SameRest h h' ∧ (∀ d q, ObjectOf slabs h d q → ObjectOf slabs' h' d q) ∧
      ((p = 0 ∧ ∀ d q, ObjectOf slabs' h' d q → ObjectOf slabs h d q) ∨
        ObjectOf slabs' h' c p ∧ (∀ d, ¬ ObjectOf slabs h d p) ∧
          ∀ d q, ObjectOf slabs' h' d q → q = p ∨ ObjectOf slabs h d q) := by
  unfold memCacheAlloc
  rw [Heap.cache_eq hc, ok_bind]
  cases hpart : cache.pools .partialPools with
  | cons a l =>
    obtain ⟨s, hs, rfl, rfl, hlayout, hk⟩ := hi.of_head hc hpart
    obtain ⟨_, hne⟩ := listOf_eq_some.mp hk
    obtain ⟨pos, hpos, hbusy, halloc, hok⟩ := hi.poolAlloc hs hne
    have htwo := hi.two_objs hs
    simp only [hlayout, halloc, ok_bind]
    by_cases hzero : ((h.pools s.header).take pos).free = 0
    · -- the last free slot: the pool moves to the busy pools
      have hlist : listOf s.layout.objCount ((h.pools s.header).take pos).free = .busyPools := by
        rw [hzero]
        exact (listOf_eq_busy (by omega)).mpr rfl
      obtain ⟨hrelink, hi'⟩ := hi.relink hs hc hok hlist
      obtain ⟨hkeep, hnew, hold⟩ := hi.objects_take hs hpos hbusy
        ((h.setPool s.header _).setCache s.cache (cache.moved s.header .busyPools)) rfl
      rw [if_pos hzero, hrelink]
      refine ⟨_, _, slabs, rfl, hi', SameRest.moved hc _ _ _, hkeep, Or.inr ⟨hnew, hold, ?_⟩⟩
      exact fun d q => hi.of_objects_take hs _ rfl
    · have hlist : listOf s.layout.objCount ((h.pools s.header).take pos).free =
          listOf s.layout.objCount (h.pools s.header).free := by
        have hfree : ((h.pools s.header).take pos).free = (h.pools s.header).free - 1 := rfl
        have hle := (hi.pools s hs).free_le
        rw [hk, listOf_eq_some]
        exact ⟨by omega, hzero⟩
      obtain ⟨hkeep, hnew, hold⟩ := hi.objects_take hs hpos hbusy (h.setPool s.header _) rfl
      rw [if_neg hzero]
      refine ⟨_, _, slabs, rfl, hi.setPool hs hok hlist, ⟨rfl, fun _ => rfl⟩, hkeep,
        Or.inr ⟨hnew, hold, ?_⟩⟩
      exact fun d q => hi.of_objects_take hs _ rfl
  | nil =>
    cases hfree : cache.pools .freePools with
    | cons a l =>
      obtain ⟨s, hs, rfl, rfl, hlayout, hk⟩ := hi.of_head hc hfree
      have hall := listOf_eq_free.mp hk
      have htwo := hi.two_objs hs
      obtain ⟨pos, hpos, hbusy, halloc, hok⟩ := hi.poolAlloc hs (by omega)
      have htake : ((h.pools s.header).take pos).free = s.layout.objCount - 1 := by
        rw [← hall]
        rfl
      have hne : ((h.pools s.header).take pos).free ≠ s.layout.objCount := by omega
      have hlist : listOf s.layout.objCount ((h.pools s.header).take pos).free = .partialPools := by
        rw [listOf_eq_some]
        exact ⟨hne, by omega⟩
      obtain ⟨hrelink, hi'⟩ := hi.relink hs hc hok hlist
      obtain ⟨hkeep, hnew, hold⟩ := hi.objects_take hs hpos hbusy
        ((h.setPool s.header _).setCache s.cache (cache.moved s.header .partialPools)) rfl
      simp only [hlayout, halloc, ok_bind]
      rw [if_pos hne, hrelink]
      refine ⟨_, _, slabs, rfl, hi', SameRest.moved hc _ _ _, hkeep, Or.inr ⟨hnew, hold, ?_⟩⟩
      exact fun d q => hi.of_objects_take hs _ rfl
    | nil =>
      simp only
      rcases hi.create hc with hnone | ⟨h₁, s, hcreate, rfl, hlayout, hi₁, htags, hpool, hall,
        hcaches, hbytes, hothers⟩
      · rw [hnone]
        exact ⟨h, 0, slabs, rfl, hi, SameRest.refl h, fun _ _ hq => hq,
          Or.inl ⟨rfl, fun _ _ hq => hq⟩⟩
      · have hc₁ : h₁.caches s.cache = some cache := by rw [hcaches, hc]
        have hplaced := hi₁.placed_block (s := s) (by simp) hc₁ hlayout.symm
        have htwo := hplaced.layout.ok.two_objs
        obtain ⟨pos, hpos, hbusy, halloc⟩ := memPoolAlloc_spec hplaced.layout hpool (by omega)
        have hok := hpool.take hpos hbusy
        have hlist : listOf s.layout.objCount ((h₁.pools s.header).take pos).free =
            .partialPools := by
          have htake : ((h₁.pools s.header).take pos).free = s.layout.objCount - 1 := by
            rw [← hall]
            rfl
          rw [listOf_eq_some]
          omega
        obtain ⟨hnew, hi'⟩ := hi₁.adopt hc₁ hlayout.symm htags hok
        rw [hlist] at hi'
        have hself : ∀ x, ((h₁.setPool s.header ((h₁.pools s.header).take pos)).setCache s.cache
            x).pools s.header = (h₁.pools s.header).take pos := fun _ => Function.update_self ..
        have hupd : ∀ x, ∀ t ∈ slabs,
            ((h₁.setPool s.header ((h₁.pools s.header).take pos)).setCache s.cache x).pools
              t.header = h.pools t.header := by
          intro x t ht
          rw [← (hothers t ht).2]
          exact Function.update_of_ne (hothers t ht).1 ..
        rw [hcreate]
        simp only [ok_bind, ← hlayout, halloc]
        rw [Heap.link_eq (h := h₁.setPool s.header _) hc₁ hnew]
        refine ⟨_, _, s :: slabs, rfl, hi', ?_, ?_, ?_⟩
        · have hrest := SameRest.moved hc₁ s.header ((h₁.pools s.header).take pos) .partialPools
          exact ⟨hrest.bytes.trans hbytes, fun d => (hrest.layouts d).trans (by rw [hcaches])⟩
        · rintro d q ⟨t, ht, htd, i, hlt, hb, hq⟩
          refine ⟨t, List.mem_cons_of_mem _ ht, htd, i, hlt, ?_, hq⟩
          rw [hupd _ t ht]
          exact hb
        · right
          rw [← PoolAt.objAddr, ← s.object_eq]
          refine ⟨⟨s, List.mem_cons_self, rfl, pos, hpos, ?_, rfl⟩, ?_, ?_⟩
          · rw [hself, Pool.busy_take, decide_eq_true rfl, Bool.or_true]
          · rintro d ⟨t, ht, _, i, hlt, _, heq⟩
            obtain ⟨rfl, _⟩ := hi'.object_inj (List.mem_cons_of_mem _ ht)
              List.mem_cons_self hlt hpos heq
            exact (hothers t ht).1 rfl
          · rintro d q ⟨t, ht, htd, i, hlt, hb, rfl⟩
            rcases List.mem_cons.mp ht with rfl | ht
            · -- the new pool was completely free
              rw [hself, Pool.busy_take, hpool.busy_of_free hall hlt, Bool.false_or,
                decide_eq_true_iff] at hb
              exact Or.inl (by rw [hb])
            · rw [hupd _ t ht] at hb
              exact Or.inr ⟨t, ht, htd, i, hlt, hb, rfl⟩

/-- A pointer that is not null is a new object; the others stay. -/
theorem memCacheAlloc_spec (hi : HeapInv specs M slabs bigs foreign h)
    (hc : h.caches c = some cache) :
    ∃ h' p slabs', memCacheAlloc h c = .ok (h', p) ∧ HeapInv specs M slabs' bigs foreign h' ∧
      SameRest h h' ∧ (∀ d q, ObjectOf slabs h d q → ObjectOf slabs' h' d q) ∧
      (p ≠ 0 → ObjectOf slabs' h' c p ∧ ∀ d, ¬ ObjectOf slabs h d p) := by
  obtain ⟨h', p, slabs', halloc, hi', hrest, hkeep, hres⟩ := memCacheAlloc_exact hi hc
  refine ⟨h', p, slabs', halloc, hi', hrest, hkeep, fun hp => ?_⟩
  rcases hres with ⟨h0, _⟩ | ⟨hnew, hold, _⟩
  · exact absurd h0 hp
  · exact ⟨hnew, hold⟩

/-- **`mem_cache_free`** of an object of the cache. -/
theorem memCacheFree_exact (hi : HeapInv specs M slabs bigs foreign h)
    (hobj : ObjectOf slabs h c p) :
    ∃ h', memCacheFree h c p = .ok h' ∧ HeapInv specs M slabs bigs foreign h' ∧ SameRest h h' ∧
      ((∀ d q, q ≠ p → ObjectOf slabs h d q → ObjectOf slabs h' d q) ∧
        ∀ d, ¬ ObjectOf slabs h' d p) ∧
      ∀ d q, ObjectOf slabs h' d q → ObjectOf slabs h d q := by
  obtain ⟨s, hs, rfl, pos, hpos, hbusy, rfl⟩ := hobj
  obtain ⟨cache, hc, hlayout⟩ := hi.home s hs
  have hplaced := hi.placed hs
  have htwo := hi.two_objs hs
  have hlt := (hi.pools s hs).free_lt hpos hbusy
  have hok := (hi.pools s hs).give hpos hbusy
  have hfree : memPoolFree s.layout (h.pools s.header) (s.object pos) = .ok
      ((h.pools s.header).give pos) := by
    rw [s.object_eq, PoolAt.objAddr]
    exact memPoolFree_spec hplaced.layout hplaced.objSize_pos hplaced.poolSize_lt
      (hi.pools s hs) hpos hbusy
  have hgive : ((h.pools s.header).give pos).free = (h.pools s.header).free + 1 := rfl
  unfold memCacheFree
  simp only [Heap.cache_eq hc, ok_bind, hlayout, hplaced.poolOf_object hpos, hfree]
  by_cases hone : ((h.pools s.header).give pos).free = 1
  · -- the pool was busy
    have hnot : ((h.pools s.header).give pos).free ≠ s.layout.objCount := by omega
    have hlist : listOf s.layout.objCount ((h.pools s.header).give pos).free = .partialPools := by
      rw [listOf_eq_some]
      omega
    obtain ⟨hrelink, hi'⟩ := hi.relink hs hc hok hlist
    rw [if_pos hone, hrelink, ok_bind, if_neg hnot]
    exact ⟨_, rfl, hi', SameRest.moved hc _ _ _, hi.objects_give hs hpos _ rfl,
      fun d q => hi.of_objects_give hs _ rfl⟩
  · rw [if_neg hone, ok_bind]
    by_cases hall : ((h.pools s.header).give pos).free = s.layout.objCount
    · -- the last object of the pool
      obtain ⟨hrelink, hi'⟩ := hi.relink hs hc hok (listOf_eq_free.mpr hall)
      rw [if_pos hall, hrelink]
      exact ⟨_, rfl, hi', SameRest.moved hc _ _ _, hi.objects_give hs hpos _ rfl,
        fun d q => hi.of_objects_give hs _ rfl⟩
    · have hold : listOf s.layout.objCount (h.pools s.header).free = .partialPools := by
        rw [listOf_eq_some]
        omega
      have hlist : listOf s.layout.objCount ((h.pools s.header).give pos).free =
          listOf s.layout.objCount (h.pools s.header).free := by
        rw [hold, listOf_eq_some]
        omega
      rw [if_neg hall]
      exact ⟨_, rfl, hi.setPool hs hok hlist, ⟨rfl, fun _ => rfl⟩, hi.objects_give hs hpos _ rfl,
        fun d q => hi.of_objects_give hs _ rfl⟩

/-- The object goes, the others stay. -/
theorem memCacheFree_spec (hi : HeapInv specs M slabs bigs foreign h)
    (hobj : ObjectOf slabs h c p) :
    ∃ h', memCacheFree h c p = .ok h' ∧ HeapInv specs M slabs bigs foreign h' ∧ SameRest h h' ∧
      (∀ d q, q ≠ p → ObjectOf slabs h d q → ObjectOf slabs h' d q) ∧
          ∀ d, ¬ ObjectOf slabs h' d p := by
  obtain ⟨h', hfree, hi', hrest, hgive, _⟩ := memCacheFree_exact hi hobj
  exact ⟨h', hfree, hi', hrest, hgive⟩

/-- **`mem_pool_destroy`** of a pool that left its cache. -/
theorem memPoolDestroy_spec {s : PoolAt} (hi : HeapInv specs M slabs bigs (s.block :: foreign) h)
    (hpage : (h.pools s.header).page = s.page)
    (hall : (h.pools s.header).free = s.layout.objCount) :
    ∃ zones, memPoolDestroy s.layout h s.header = .ok { h with zones := zones } ∧
      HeapInv specs M slabs bigs foreign { h with zones := zones } := by
  obtain ⟨zones₁, hup, hi₁, _⟩ := hi.tag (keepsBuddy_clear (.cache none)) (Nat.le_refl _)
  obtain ⟨zones₂, hfree, hi₂⟩ := hi₁.free
  refine ⟨zones₂, ?_, hi₂⟩
  unfold memPoolDestroy
  simp only [hpage]
  rw [bugOn_neg (not_not.mpr hall), ok_bind]
  have hup' : updatePages uncached s.page (2 ^ s.layout.poolOrder) h.zones = .ok zones₁ := hup
  have hfree' : pageFreeRaw zones₁ s.page s.layout.poolOrder = .ok zones₂ := hfree
  rw [hup', ok_bind, hfree', ok_bind]
  rfl

/-- **The loop of `mem_cache_shrink`.** -/
theorem destroy_loop (layout : Layout) : ∀ (l : List Nat) (gone : List PoolAt) (h : Heap),
    HeapInv specs M slabs bigs (gone.map PoolAt.block ++ foreign) h →
    (gone.map PoolAt.header).Perm l →
    (∀ s ∈ gone, s.layout = layout ∧ (h.pools s.header).page = s.page ∧
      (h.pools s.header).free = s.layout.objCount) →
    ∃ zones, l.foldlM (memPoolDestroy layout) h = .ok { h with zones := zones } ∧
      HeapInv specs M slabs bigs foreign { h with zones := zones } := by
  intro l
  induction l with
  | nil =>
    intro gone h hi hp _
    have hnil : gone = [] := List.map_eq_nil_iff.mp hp.eq_nil
    subst hnil
    exact ⟨h.zones, rfl, hi⟩
  | cons a l ih =>
    intro gone h hi hp hgone
    obtain ⟨s, hs, rfl⟩ := List.mem_map.mp (hp.mem_iff.mpr List.mem_cons_self)
    have hsplit : gone.Perm (s :: gone.erase s) := List.perm_cons_erase hs
    have hrest : ((gone.erase s).map PoolAt.header).Perm l :=
      ((hsplit.map PoolAt.header).symm.trans hp).cons_inv
    obtain ⟨rfl, hpage, hall⟩ := hgone s hs
    have hi' : HeapInv specs M slabs bigs (s.block :: ((gone.erase s).map PoolAt.block ++ foreign))
        h :=
      hi.perm ((hsplit.map PoolAt.block).append_right _)
    obtain ⟨zones, hdestroy, hi₁⟩ := memPoolDestroy_spec hi' hpage hall
    obtain ⟨zones', hloop, hi₂⟩ := ih (gone.erase s) _ hi₁ hrest
      fun t ht => hgone t (List.mem_of_mem_erase ht)
    refine ⟨zones', ?_, hi₂⟩
    rw [List.foldlM_cons, hdestroy, ok_bind]
    exact hloop

/-- **`mem_cache_shrink`** gives the free pools back; no object goes. -/
theorem memCacheShrink_exact (hi : HeapInv specs M slabs bigs foreign h)
    (hc : h.caches c = some cache) :
    ∃ h' slabs', memCacheShrink h c = .ok h' ∧ HeapInv specs M slabs' bigs foreign h' ∧
      SameRest h h' ∧ (∀ d q, ObjectOf slabs h d q → ObjectOf slabs' h' d q) ∧
      ∀ s ∈ slabs', s ∈ slabs ∧ h'.pools s.header = h.pools s.header ∧
        (s.cache = c → (h.pools s.header).free ≠ s.layout.objCount) := by
  obtain ⟨keep, gone, hp, hgone, hheads, hi'⟩ := hi.drop hc
  have hsub : ∀ s ∈ gone, s ∈ slabs := fun s hs => hp.mem_iff.mpr (List.mem_append_left _ hs)
  obtain ⟨zones, hloop, hi₂⟩ := destroy_loop cache.layout _ gone _ hi' hheads (by
    intro s hs
    obtain ⟨hsc, hall⟩ := hgone s hs
    exact ⟨(hi.layout_eq (hsub s hs) (hsc ▸ hc)).symm, (hi.pools s (hsub s hs)).page_eq, hall⟩)
  refine ⟨_, keep, ?_, hi₂, ?_, ?_, ?_⟩
  · rw [memCacheShrink, Heap.cache_eq hc, ok_bind]
    exact hloop
  · have hrest := @SameRest.setCache h c cache
      { cache with pools := Function.update cache.pools .freePools [] } hc rfl
    exact ⟨hrest.bytes, hrest.layouts⟩
  · rintro d q ⟨s, hs, hsd, pos, hpos, hbusy, hq⟩
    refine ⟨s, ?_, hsd, pos, hpos, hbusy, hq⟩
    rcases List.mem_append.mp (hp.mem_iff.mp hs) with hg | hk
    · -- a pool with an object is not completely free
      have hclear := (hi.pools s hs).busy_of_free (hgone s hg).2 hpos
      rw [hclear] at hbusy
      cases hbusy
    · exact hk
  · intro s hs
    refine ⟨hp.mem_iff.mpr (List.mem_append_right _ hs), rfl, ?_⟩
    rintro rfl hall
    -- a pool that stays is in a list, and there are no free pools
    have hfree := (hi₂.mem_listOf (k := .freePools) hs (h.caches_setCache s.cache _)).mpr
      (listOf_eq_free.mpr hall)
    dsimp only at hfree
    rw [Function.update_self] at hfree
    cases hfree

/-- No object goes. -/
theorem memCacheShrink_spec (hi : HeapInv specs M slabs bigs foreign h)
    (hc : h.caches c = some cache) :
    ∃ h' slabs', memCacheShrink h c = .ok h' ∧ HeapInv specs M slabs' bigs foreign h' ∧
      SameRest h h' ∧ ∀ d q, ObjectOf slabs h d q → ObjectOf slabs' h' d q := by
  obtain ⟨h', slabs', hshrink, hi', hrest, hkeep, _⟩ := memCacheShrink_exact hi hc
  exact ⟨h', slabs', hshrink, hi', hrest, hkeep⟩

end Operations

end Slab

end AuOs
