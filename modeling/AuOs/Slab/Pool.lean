import Mathlib
import AuOs.Memory.Access
import AuOs.Memory.Setup
import AuOs.Slab.Bitmap

/-!
# Pools

Reference model of `mem_pool_alloc` and `mem_pool_free` of `alloc.c`.

* `Pool` — `struct mem_pool` without its list links.
* `memPoolAlloc`, `memPoolFree` — the two functions.
* `PoolOk` — **the invariant of a pool**: it counts its free slots, and the bits behind the last
  object stay set.
* `memPoolAlloc_spec`, `memPoolFree_spec` — each function succeeds on such a pool and keeps it so.
* `PoolAt` — where a pool lies; `poolOf_object` says that **the pool is recovered from the pointer
  alone**.
-/

set_option autoImplicit false

namespace AuOs

namespace Slab

open DyadicTiling

/-- `struct mem_pool`. -/
structure Pool where
  page : Nat
  data : Nat
  free : Nat
  bitmask : Bitmask

/-- `mem_pool_alloc`. -/
def memPoolAlloc (layout : Layout) (pool : Pool) : Res (Pool × Nat) := do
  bugOn (pool.free = 0) .poolAllocFull
  match poolScan pool.bitmask layout.maskWords 0 with
  | none => .error (.bug .poolAllocNoSlot)
  | some word =>
    let bit := ffs (~~~pool.bitmask word)
    let pos := OBJS_PER_WORD * word + bit
    let pool := { pool with bitmask := setSlot pool.bitmask word bit, free := pool.free - 1 }
    return (pool, (pool.data + pos * layout.objSize) % WORD)

/-- `mem_pool_free`. -/
def memPoolFree (layout : Layout) (pool : Pool) (ptr : Nat) : Res Pool := do
  let offs := (ptr + (WORD - pool.data)) % WORD
  let pos := offs / layout.objSize
  bugOn (pos ≥ layout.objCount) .poolFreePos
  let word := pos / OBJS_PER_WORD
  let bit := pos % OBJS_PER_WORD
  bugOn (pool.bitmask word &&& 1#64 <<< bit = 0) .poolFreeBit
  let pool := { pool with bitmask := clearSlot pool.bitmask word bit, free := pool.free + 1 }
  bugOn (pool.free > layout.objCount) .poolFreeCount
  return pool

/-- A slot is taken. -/
def Pool.take (pool : Pool) (pos : Nat) : Pool :=
  { pool with
    bitmask := setSlot pool.bitmask (pos / OBJS_PER_WORD) (pos % OBJS_PER_WORD)
    free := pool.free - 1 }

/-- A slot is given back. -/
def Pool.give (pool : Pool) (pos : Nat) : Pool :=
  { pool with
    bitmask := clearSlot pool.bitmask (pos / OBJS_PER_WORD) (pos % OBJS_PER_WORD)
    free := pool.free + 1 }

/-- The slot holds an object. -/
def Pool.busy (pool : Pool) (pos : Nat) : Bool := bitAt pool.bitmask pos

theorem Pool.busy_take (pool : Pool) (pos q : Nat) :
    (pool.take pos).busy q = (pool.busy q || decide (q = pos)) := bitAt_setSlot pool.bitmask pos q

theorem Pool.busy_give (pool : Pool) (pos q : Nat) :
    (pool.give pos).busy q = (pool.busy q && !decide (q = pos)) :=
  bitAt_clearSlot pool.bitmask pos q

/-- **The invariant of a pool** whose data start at a page. -/
structure PoolOk (layout : Layout) (page : Nat) (pool : Pool) : Prop where
  page_eq : pool.page = page
  data_eq : pool.data = va (page * PAGE_SIZE)
  /-- `free` is the number of the clear bits of the objects. -/
  free : pool.free = (freeSlots layout.objCount pool.bitmask).card
  /-- The other bits of the words are set. -/
  tail : ∀ pos, layout.objCount ≤ pos → pos < layout.maskWords * OBJS_PER_WORD →
    pool.busy pos = true

/-- **What the pools rely on** beyond `LayoutOk`: the last word of the mask holds an object. -/
structure LayoutFit (size align : Nat) (layout : Layout) : Prop where
  ok : LayoutOk size align layout
  words : layout.maskWords = (layout.objCount + 63) / 64

namespace PoolOk

variable {layout : Layout} {page pos : Nat} {pool : Pool}

theorem free_le (h : PoolOk layout page pool) : pool.free ≤ layout.objCount := by
  rw [h.free]
  exact freeSlots_card_le _ _

theorem take (h : PoolOk layout page pool) (hpos : pos < layout.objCount)
    (hfree : pool.busy pos = false) : PoolOk layout page (pool.take pos) where
  page_eq := h.page_eq
  data_eq := h.data_eq
  free := by
    have hmem : pos ∈ freeSlots layout.objCount pool.bitmask := mem_freeSlots.mpr ⟨hpos, hfree⟩
    show pool.free - 1 = _
    rw [h.free, ← Finset.card_erase_of_mem hmem, ← freeSlots_set]
    rfl
  tail := by
    intro q hq hlt
    rw [Pool.busy_take, h.tail q hq hlt, Bool.true_or]

theorem give (h : PoolOk layout page pool) (hpos : pos < layout.objCount)
    (hbusy : pool.busy pos = true) : PoolOk layout page (pool.give pos) where
  page_eq := h.page_eq
  data_eq := h.data_eq
  free := by
    have hmem : pos ∉ freeSlots layout.objCount pool.bitmask := by
      intro hin
      have hclear := (mem_freeSlots.mp hin).2
      rw [Pool.busy, hclear] at hbusy
      cases hbusy
    show pool.free + 1 = _
    rw [h.free, ← Finset.card_insert_of_notMem hmem, ← freeSlots_clear hpos]
    rfl
  tail := by
    intro q hq hlt
    have hne : q ≠ pos := by omega
    rw [Pool.busy_give, h.tail q hq hlt, decide_eq_false hne]
    rfl

/-- **A new pool** is completely free. -/
theorem setup {size align : Nat} (hl : LayoutFit size align layout) (page : Nat) (mask : Bitmask) :
    PoolOk layout page ⟨page, va (page * PAGE_SIZE), layout.objCount,
      memPoolBitmapSetup layout mask⟩ := by
  refine ⟨rfl, rfl, ?_, ?_⟩
  · have hall : freeSlots layout.objCount (memPoolBitmapSetup layout mask) =
      Finset.range layout.objCount := by
      ext pos
      rw [mem_freeSlots, Finset.mem_range, and_iff_left_iff_imp]
      intro hpos
      rw [bitAt_setup hl.words mask (hpos.trans_le hl.ok.mask_bits), decide_eq_false_iff_not]
      exact Nat.not_le.mpr hpos
    show layout.objCount = _
    rw [hall, Finset.card_range]
  · intro pos hpos hlt
    show bitAt _ pos = true
    rw [bitAt_setup hl.words mask hlt, decide_eq_true hpos]

/-- A pool with a busy slot is not completely free. -/
theorem free_lt (h : PoolOk layout page pool) (hpos : pos < layout.objCount)
    (hbusy : pool.busy pos = true) : pool.free < layout.objCount := by
  have hgive := (h.give hpos hbusy).free_le
  exact hgive

/-- No slot of a completely free pool is busy. -/
theorem busy_of_free (h : PoolOk layout page pool) (hall : pool.free = layout.objCount)
    (hpos : pos < layout.objCount) : pool.busy pos = false :=
  bitAt_of_card (h.free ▸ hall) hpos

end PoolOk

/-- **`mem_pool_alloc`** takes a free slot if there is one. -/
theorem memPoolAlloc_spec {size align : Nat} {layout : Layout} {page : Nat} {pool : Pool}
    (hl : LayoutFit size align layout) (h : PoolOk layout page pool) (hfree : pool.free ≠ 0) :
    ∃ pos < layout.objCount, pool.busy pos = false ∧
      memPoolAlloc layout pool = .ok (pool.take pos,
          va (page * PAGE_SIZE + pos * layout.objSize)) := by
  have hne : (freeSlots layout.objCount pool.bitmask).Nonempty := by
    rw [← Finset.card_pos, ← h.free]
    exact Nat.pos_of_ne_zero hfree
  obtain ⟨word, bit, hscan, hffs, hbit, hslot⟩ := poolScan_slot hl.ok.mask_bits h.tail hne
  obtain ⟨hpos, hclear⟩ := mem_freeSlots.mp hslot
  have hdiv : (OBJS_PER_WORD * word + bit) / OBJS_PER_WORD = word := by
    rw [Nat.mul_add_div (by decide), Nat.div_eq_of_lt hbit, Nat.add_zero]
  have hmod : (OBJS_PER_WORD * word + bit) % OBJS_PER_WORD = bit := by
    rw [Nat.mul_add_mod, Nat.mod_eq_of_lt hbit]
  refine ⟨OBJS_PER_WORD * word + bit, hpos, hclear, ?_⟩
  unfold memPoolAlloc Pool.take
  rw [bugOn_neg hfree, ok_bind, hscan]
  simp only [hffs, hdiv, hmod, h.data_eq, va_add, pure_eq_ok]

/-- **`mem_pool_free`** of a busy slot gives it back. -/
theorem memPoolFree_spec {size align : Nat} {layout : Layout} {page pos : Nat} {pool : Pool}
    (hl : LayoutFit size align layout) (hs : 0 < layout.objSize) (hpool : layout.poolSize < WORD)
    (h : PoolOk layout page pool) (hpos : pos < layout.objCount) (hbusy : pool.busy pos = true) :
    memPoolFree layout pool (va (page * PAGE_SIZE + pos * layout.objSize)) =
    .ok (pool.give pos) := by
  have hoffs : (va (page * PAGE_SIZE + pos * layout.objSize) + (WORD - pool.data)) % WORD =
      pos * layout.objSize := by
    have hle : pos * layout.objSize ≤ layout.objCount * layout.objSize :=
      Nat.mul_le_mul_right _ (Nat.le_of_lt hpos)
    have hfit := hl.ok.objs_fit
    have hin := hl.ok.mask_inside
    rw [h.data_eq]
    generalize page * PAGE_SIZE = base
    unfold va WORD HIGHER_BASE at *
    omega
  have hmod : pos % OBJS_PER_WORD < 64 := Nat.mod_lt _ (by decide)
  have hset : ¬ pool.bitmask (pos / OBJS_PER_WORD) &&& 1#64 <<< (pos % OBJS_PER_WORD) = 0 := by
    have hbit := and_one_shiftLeft_ne_zero (pool.bitmask (pos / OBJS_PER_WORD)) hmod
    rw [← bitAt, show bitAt pool.bitmask pos = true from hbusy, bne_iff_ne] at hbit
    exact hbit
  have hcount : ¬ pool.free + 1 > layout.objCount := Nat.not_lt.mpr (h.free_lt hpos hbusy)
  unfold memPoolFree Pool.give
  simp only [hoffs, Nat.mul_div_cancel _ hs]
  rw [bugOn_neg (Nat.not_le.mpr hpos), ok_bind, bugOn_neg hset, ok_bind, bugOn_neg hcount, ok_bind]
  rfl

/-! ## Where a pool lies -/

/-- The pool of a cache in the pages from `page` on. -/
structure PoolAt where
  cache : Nat
  page : Nat
  layout : Layout
  deriving DecidableEq

namespace PoolAt

/-- The pages of the pool. -/
def block (s : PoolAt) : Block := ⟨s.page, s.layout.poolOrder⟩

/-- The physical address of an object. -/
def objAddr (s : PoolAt) (pos : Nat) : Nat := s.page * PAGE_SIZE + pos * s.layout.objSize

/-- The pointer to an object. -/
@[irreducible] def object (s : PoolAt) (pos : Nat) : Nat := va (s.objAddr pos)

/-- The physical address of the header. -/
def headerAddr (s : PoolAt) : Nat := s.page * PAGE_SIZE + s.layout.metaOffs

/-- The pointer to the header. -/
@[irreducible] def header (s : PoolAt) : Nat := va s.headerAddr

theorem object_eq (s : PoolAt) (pos : Nat) : s.object pos = va (s.objAddr pos) := by
  unfold object
  rfl

theorem header_eq (s : PoolAt) : s.header = va s.headerAddr := by
  unfold header
  rfl

end PoolAt

/-- The header that `__mem_cache_free` computes from a pointer. -/
def poolOf (layout : Layout) (ptr : Nat) : Nat :=
  (alignDown ptr layout.poolSize + layout.metaOffs) % WORD

/-- A block that the page allocator can hand out. -/
structure Usable (b : Block) : Prop where
  aligned : b.Aligned
  order_le : b.order ≤ MAX_ORDER
  limit : ∀ i ∈ b.cells, i < ADDR_LIMIT / PAGE_SIZE

theorem addr_limit_pages : ADDR_LIMIT / PAGE_SIZE = 2 ^ 40 := by decide

namespace Usable

variable {b : Block}

theorem size_dvd (h : Usable b) : 2 ^ b.order * PAGE_SIZE ∣ 2 ^ 30 := by
  rw [show PAGE_SIZE = 2 ^ 12 from rfl, ← Nat.pow_add]
  apply Nat.pow_dvd_pow
  have hle := h.order_le
  unfold MAX_ORDER at hle
  omega

/-- The pages end below the limit of the addresses. -/
theorem end_le (h : Usable b) : b.start * PAGE_SIZE + 2 ^ b.order * PAGE_SIZE ≤ 2 ^ 52 := by
  have hpos := Nat.two_pow_pos b.order
  have hlast := h.limit (b.start + 2 ^ b.order - 1) (by
    rw [Block.mem_cells]
    omega)
  rw [addr_limit_pages] at hlast
  rw [show PAGE_SIZE = 4096 from rfl]
  omega

/-- The pointer to the first byte is a multiple of the size. -/
theorem size_dvd_va (h : Usable b) : 2 ^ b.order * PAGE_SIZE ∣ va (b.start * PAGE_SIZE) := by
  have hbase : 2 ^ b.order * PAGE_SIZE ∣ b.start * PAGE_SIZE :=
    Nat.mul_dvd_mul h.aligned (Nat.dvd_refl _)
  have hhigh := h.size_dvd.trans (show 2 ^ 30 ∣ HIGHER_BASE by decide)
  have hword := h.size_dvd.trans (show 2 ^ 30 ∣ WORD by decide)
  exact (Nat.dvd_mod_iff hword).mpr (Nat.dvd_add hbase hhigh)

/-- The block ends in the address space. -/
theorem va_end (h : Usable b) : va (b.start * PAGE_SIZE) + 2 ^ b.order * PAGE_SIZE ≤ WORD := by
  obtain ⟨q, hq⟩ := h.size_dvd_va
  obtain ⟨w, hw⟩ := h.size_dvd.trans (show 2 ^ 30 ∣ WORD by decide)
  have hlt := va_lt (b.start * PAGE_SIZE)
  rw [hq, hw] at hlt ⊢
  rw [← Nat.mul_succ]
  exact Nat.mul_le_mul_left _ (Nat.lt_of_mul_lt_mul_left hlt)

/-- Inside the block `va` does not wrap. -/
theorem va_inside (h : Usable b) {x : Nat} (hx : x < 2 ^ b.order * PAGE_SIZE) :
    va (b.start * PAGE_SIZE + x) = va (b.start * PAGE_SIZE) + x := by
  have hend := h.va_end
  rw [← va_add]
  exact Nat.mod_eq_of_lt (by omega)

end Usable

/-- A pool in the pages of a block of the page allocator. -/
structure Placed (size align : Nat) (s : PoolAt) : Prop where
  size_pos : 0 < size
  align_pow : ∃ k, align = 2 ^ k
  layout : LayoutFit size align s.layout
  usable : Usable s.block

namespace Placed

variable {size align pos : Nat} {s : PoolAt}

theorem poolSize_eq (s : PoolAt) : s.layout.poolSize = 2 ^ s.layout.poolOrder * 4096 :=
  Nat.pow_add 2 _ 12

theorem objSize_pos (h : Placed size align s) : 0 < s.layout.objSize :=
  h.size_pos.trans_le h.layout.ok.objSize.1.1

theorem poolSize_lt (h : Placed size align s) : s.layout.poolSize < WORD := by
  rw [poolSize_eq]
  exact (Nat.le_of_dvd (by decide) h.usable.size_dvd).trans_lt (by decide)

/-- The pages of the pool end below the limit of the addresses. -/
theorem end_le (h : Placed size align s) : s.page * PAGE_SIZE + s.layout.poolSize ≤ 2 ^ 52 := by
  rw [poolSize_eq]
  exact h.usable.end_le

/-- The pointer to the first byte is a multiple of the size of the pool. -/
theorem poolSize_dvd_data (h : Placed size align s) : s.layout.poolSize ∣
    va (s.page * PAGE_SIZE) := by
  rw [poolSize_eq]
  exact h.usable.size_dvd_va

/-- Inside the pool `va` does not wrap. -/
theorem va_inside (h : Placed size align s) {n : Nat} (hn : n < s.layout.poolSize) :
    va (s.page * PAGE_SIZE + n) = va (s.page * PAGE_SIZE) + n := by
  rw [poolSize_eq] at hn
  exact h.usable.va_inside hn

/-- An object ends before the header. -/
theorem object_end (h : Placed size align s) (hpos : pos < s.layout.objCount) :
    pos * s.layout.objSize + s.layout.objSize ≤ s.layout.metaOffs := by
  rw [← Nat.succ_mul]
  exact (Nat.mul_le_mul_right _ hpos).trans h.layout.ok.objs_fit

theorem metaOffs_lt (h : Placed size align s) : s.layout.metaOffs < s.layout.poolSize := by
  have hin := h.layout.ok.mask_inside
  unfold BITMASK_OFFS at hin
  omega

theorem object_eq_add (h : Placed size align s) (hpos : pos < s.layout.objCount) :
    s.object pos = va (s.page * PAGE_SIZE) + pos * s.layout.objSize := by
  have hend := h.object_end hpos
  have hmeta := h.metaOffs_lt
  have hsize := h.objSize_pos
  rw [s.object_eq, PoolAt.objAddr, h.va_inside (by omega)]

theorem header_eq_add (h : Placed size align s) :
    s.header = va (s.page * PAGE_SIZE) + s.layout.metaOffs := by
  rw [s.header_eq, PoolAt.headerAddr, h.va_inside h.metaOffs_lt]

/-- **The pool is recovered from the pointer alone.** -/
theorem poolOf_object (h : Placed size align s) (hpos : pos < s.layout.objCount) :
    poolOf s.layout (s.object pos) = s.header := by
  have hend := h.object_end hpos
  have hmeta := h.metaOffs_lt
  have hsize := h.objSize_pos
  have hlt := va_lt (s.page * PAGE_SIZE)
  obtain ⟨q, hq⟩ := h.poolSize_dvd_data
  have hdiv : s.object pos / s.layout.poolSize = q := by
    rw [h.object_eq_add hpos, hq, Nat.mul_add_div (by omega),
      Nat.div_eq_of_lt (by omega), Nat.add_zero]
  rw [poolOf, alignDown, floor, hdiv, ← hq, Nat.mod_eq_of_lt hlt, va_add, s.header_eq,
    PoolAt.headerAddr]

/-- The objects are aligned. -/
theorem dvd_object (h : Placed size align s) (hpos : pos < s.layout.objCount) : align ∣
    s.object pos := by
  rw [h.object_eq_add hpos]
  apply Nat.dvd_add
  · exact h.layout.ok.align_dvd.trans h.poolSize_dvd_data
  · exact h.layout.ok.objSize.1.2.trans (Nat.dvd_mul_left _ _)

/-- A byte of the pool lies in one of its pages. -/
theorem page_mem (s : PoolAt) {n : Nat} (hn : n < s.layout.poolSize) :
    (s.page * PAGE_SIZE + n) / PAGE_SIZE ∈ s.block.cells := by
  rw [poolSize_eq] at hn
  rw [Block.mem_cells, show PAGE_SIZE = 4096 from rfl]
  unfold PoolAt.block
  dsimp only
  omega

theorem objAddr_page (h : Placed size align s) (hpos : pos < s.layout.objCount) :
    s.objAddr pos / PAGE_SIZE ∈ s.block.cells := by
  have hend := h.object_end hpos
  have hmeta := h.metaOffs_lt
  have hsize := h.objSize_pos
  exact page_mem s (by omega)

theorem headerAddr_page (h : Placed size align s) : s.headerAddr / PAGE_SIZE ∈ s.block.cells :=
  page_mem s h.metaOffs_lt

theorem objAddr_lt (h : Placed size align s) (hpos : pos < s.layout.objCount) :
    s.objAddr pos < WORD := by
  have hend := h.object_end hpos
  have hmeta := h.metaOffs_lt
  have hle := h.end_le
  unfold PoolAt.objAddr WORD
  omega

theorem headerAddr_lt (h : Placed size align s) : s.headerAddr < WORD := by
  have hmeta := h.metaOffs_lt
  have hle := h.end_le
  unfold PoolAt.headerAddr WORD
  omega

/-- The slots of a pool are distinct. -/
theorem object_inj (h : Placed size align s) {q : Nat} (hpos : pos < s.layout.objCount)
    (hq : q < s.layout.objCount) (heq : s.object pos = s.object q) : pos = q := by
  rw [s.object_eq, s.object_eq] at heq
  have haddr := va_inj (h.objAddr_lt hpos) (h.objAddr_lt hq) heq
  apply Nat.eq_of_mul_eq_mul_right h.objSize_pos
  exact Nat.add_left_cancel haddr

end Placed

end Slab

end AuOs
