import Mathlib
import AuOs.Slab.Pool

/-!
# Caches

Reference model of `struct mem_cache` and of the functions of `alloc.c` that work on it.  The
spinlock of a cache adds nothing on one thread.

* `PoolList`, `Cache` — the three lists of pools and the layout of a cache; `Cache.listDel` and
  `Cache.listAdd` are `list_del` and `list_add` on these lists.
* `Heap` — the zones of the page allocator, the headers of the pools by their addresses, and the
  caches.
* `memPoolCreate`, `memPoolDestroy` — a pool and its pages.
* `memCacheSetup`, `memCacheAlloc`, `memCacheFree`, `memCacheShrink` — the operations on a cache.
-/

set_option autoImplicit false

namespace AuOs

namespace Slab

/-- The lists of `struct mem_cache`. -/
inductive PoolList where
  | freePools
  | partialPools
  | busyPools
  deriving DecidableEq, Repr

/-- `struct mem_cache`.  A pool is named by the address of its header, which is the address of its
list links too. -/
structure Cache where
  pools : PoolList → List Nat
  layout : Layout

namespace Cache

/-- The pool is linked in one of the lists. -/
def linked (cache : Cache) (a : Nat) : Bool :=
  decide (a ∈ cache.pools .freePools ∨ a ∈ cache.pools .partialPools ∨ a ∈ cache.pools .busyPools)

/-- `list_del(&pool->ll)`: the pool leaves whichever list it is in. -/
def listDel (cache : Cache) (a : Nat) : Res Cache :=
  if cache.linked a then .ok { cache with pools := fun k => (cache.pools k).erase a }
  else .error .fault

/-- `list_add(&pool->ll, &cache->k)`. -/
def listAdd (cache : Cache) (a : Nat) (k : PoolList) : Res Cache :=
  if cache.linked a then .error .fault
  else .ok { cache with pools := Function.update cache.pools k (a :: cache.pools k) }

end Cache

/-- What the allocators of the kernel work on.  `bytes` is the memory in the hands of their
users. -/
structure Heap where
  zones : List Zone
  pools : Nat → Pool
  caches : Nat → Option Cache
  bytes : Nat → Int8

namespace Heap

/-- `*cache`, of a cache that was set up. -/
def cache (h : Heap) (c : Nat) : Res Cache :=
  match h.caches c with
  | some cache => .ok cache
  | none => .error .fault

def setCache (h : Heap) (c : Nat) (cache : Cache) : Heap :=
  { h with caches := Function.update h.caches c (some cache) }

def setPool (h : Heap) (a : Nat) (pool : Pool) : Heap :=
  { h with pools := Function.update h.pools a pool }

/-- `list_add(&pool->ll, &cache->k)`. -/
def link (h : Heap) (c a : Nat) (k : PoolList) : Res Heap := do
  let cache ← h.cache c
  let cache ← cache.listAdd a k
  return h.setCache c cache

/-- `list_del(&pool->ll); list_add(&pool->ll, &cache->k)`. -/
def relink (h : Heap) (c a : Nat) (k : PoolList) : Res Heap := do
  let cache ← h.cache c
  let cache ← cache.listDel a
  let cache ← cache.listAdd a k
  return h.setCache c cache

end Heap

/-- `page_set_bit(page, PAGE_CACHE_BIT); page->u.cache = cache`. -/
def cached (c : Nat) (desc : Page) : Page :=
  { pageSetBit desc PAGE_CACHE_BIT with u := .cache (some c) }

/-- `page_clear_bit(page, PAGE_CACHE_BIT); page->u.cache = 0`. -/
def uncached (desc : Page) : Page := { pageClearBit desc PAGE_CACHE_BIT with u := .cache none }

/-- `mem_pool_create`. -/
def memPoolCreate (h : Heap) (c : Nat) (layout : Layout) : Res (Heap × Option Nat) := do
  let (zones, page) ← pageAllocRaw h.zones layout.poolOrder
  match page with
  | none => return ({ h with zones := zones }, none)
  | some page =>
    let addr ← pageAddr zones page
    let a := va (addr + layout.metaOffs)
    let zones ← updatePages (cached c) page (2 ^ layout.poolOrder) zones
    let pool : Pool := {
      page := page
      data := va addr
      free := layout.objCount
      bitmask := memPoolBitmapSetup layout (h.pools a).bitmask }
    return ({ h with zones := zones }.setPool a pool, some a)

/-- `mem_pool_destroy`. -/
def memPoolDestroy (layout : Layout) (h : Heap) (a : Nat) : Res Heap := do
  let pool := h.pools a
  bugOn (pool.free ≠ layout.objCount) .poolDestroyBusy
  let zones ← updatePages uncached pool.page (2 ^ layout.poolOrder) h.zones
  let zones ← pageFreeRaw zones pool.page layout.poolOrder
  return { h with zones := zones }

/-- `mem_cache_setup`. -/
def memCacheSetup (h : Heap) (c size align : Nat) : Res Heap := do
  let layout ← memCacheLayoutSetup size align
  return h.setCache c { pools := fun _ => [], layout := layout }

/-- `mem_cache_alloc`: the pointer, or 0. -/
def memCacheAlloc (h : Heap) (c : Nat) : Res (Heap × Nat) := do
  let cache ← h.cache c
  match cache.pools .partialPools with
  | a :: _ =>
    let (pool, data) ← memPoolAlloc cache.layout (h.pools a)
    let h := h.setPool a pool
    if pool.free = 0 then
      let h ← h.relink c a .busyPools
      return (h, data)
    else return (h, data)
  | [] =>
    match cache.pools .freePools with
    | a :: _ =>
      let (pool, data) ← memPoolAlloc cache.layout (h.pools a)
      let h := h.setPool a pool
      if pool.free ≠ cache.layout.objCount then
        let h ← h.relink c a .partialPools
        return (h, data)
      else return (h, data)
    | [] =>
      let (h, a) ← memPoolCreate h c cache.layout
      match a with
      | none => return (h, 0)
      | some a =>
        let (pool, data) ← memPoolAlloc cache.layout (h.pools a)
        let h := h.setPool a pool
        let h ← h.link c a .partialPools
        return (h, data)

/-- `mem_cache_free`. -/
def memCacheFree (h : Heap) (c ptr : Nat) : Res Heap := do
  let cache ← h.cache c
  let a := poolOf cache.layout ptr
  let pool ← memPoolFree cache.layout (h.pools a) ptr
  let h := h.setPool a pool
  let h ← (if pool.free = 1 then h.relink c a .partialPools else .ok h)
  if pool.free = cache.layout.objCount then h.relink c a .freePools else .ok h

/-- `mem_cache_shrink`. -/
def memCacheShrink (h : Heap) (c : Nat) : Res Heap := do
  let cache ← h.cache c
  let freeSlabs := cache.pools .freePools
  let h := h.setCache c { cache with pools := Function.update cache.pools .freePools [] }
  freeSlabs.foldlM (memPoolDestroy cache.layout) h

/-! ## Lists -/

namespace Cache

variable {cache : Cache} {a : Nat}

theorem linked_iff : cache.linked a = true ↔ ∃ k, a ∈ cache.pools k := by
  rw [linked, decide_eq_true_iff]
  constructor
  · rintro (h | h | h)
    · exact ⟨_, h⟩
    · exact ⟨_, h⟩
    · exact ⟨_, h⟩
  · rintro ⟨k, h⟩
    cases k with
    | freePools => exact Or.inl h
    | partialPools => exact Or.inr (Or.inl h)
    | busyPools => exact Or.inr (Or.inr h)

/-- The pool at the head of one list and in no other. -/
def moved (cache : Cache) (a : Nat) (k : PoolList) : Cache :=
  { cache with
    pools := fun j => if j = k then a :: (cache.pools j).erase a else (cache.pools j).erase a }

theorem listAdd_eq {k : PoolList} (h : ∀ j, a ∉ cache.pools j) :
    cache.listAdd a k = .ok (cache.moved a k) := by
  have hnot : ¬ cache.linked a = true := fun hl => (linked_iff.mp hl).elim h
  rw [listAdd, if_neg hnot, moved]
  congr 2
  funext j
  by_cases hj : j = k
  · rw [hj, Function.update_self, if_pos rfl, List.erase_of_not_mem (h k)]
  · rw [Function.update_of_ne hj, if_neg hj, List.erase_of_not_mem (h j)]

/-- **Moving a pool** from its list to another. -/
theorem relink_eq {k : PoolList} (hn : ∀ j, (cache.pools j).Nodup) (hex : ∃ j, a ∈ cache.pools j) :
    (cache.listDel a >>= fun cache => cache.listAdd a k) = .ok (cache.moved a k) := by
  have hgone : ∀ j, a ∉ (cache.pools j).erase a := fun j => (hn j).not_mem_erase
  rw [listDel, if_pos (linked_iff.mpr hex), ok_bind, listAdd_eq hgone]
  congr 1
  unfold moved
  congr 1
  funext j
  dsimp only
  rw [List.erase_of_not_mem (hgone j)]

theorem mem_moved {k j : PoolList} {x : Nat} (hn : (cache.pools j).Nodup) :
    x ∈ (cache.moved a k).pools j ↔ (x = a ∧ j = k) ∨ (x ≠ a ∧ x ∈ cache.pools j) := by
  unfold moved
  dsimp only
  by_cases hj : j = k
  · rw [if_pos hj, List.mem_cons, hn.mem_erase_iff, and_iff_left hj]
  · rw [if_neg hj, hn.mem_erase_iff]
    tauto

theorem nodup_moved {k : PoolList} (hn : ∀ j, (cache.pools j).Nodup) (j : PoolList) :
    ((cache.moved a k).pools j).Nodup := by
  unfold moved
  dsimp only
  split
  · exact List.nodup_cons.mpr ⟨(hn j).not_mem_erase, (hn j).erase a⟩
  · exact (hn j).erase a

end Cache

end Slab

end AuOs
