import Mathlib
import AuOs.Slab.Operations

/-!
# The kernel's heap

Reference model of `mem_alloc`, `mem_free`, `mem_alloc_setup` and `mem_alloc_shrink` of `alloc.c`.
A block is an object of one of the 34 caches or a block of whole pages; `mem_free` tells them apart
by the descriptor of the page that the pointer points into.

* `memPoolSize`, `memPoolLookup`, `memOrderCalculate` — the sizes, and where a request goes.
* `memAlloc`, `memFree`, `memSize` — the functions; `memSize` is how `mem_realloc` finds the size of
  a block.
* `BlockOf` — the pointer is a block of so many bytes.
* `memSize_eq`, `memAlloc_spec`, `memFree_spec`, `memAllocShrink_spec` — **each function returns**,
  keeps the invariant of the heap and changes no block but the one it is called for.
-/

set_option autoImplicit false

namespace AuOs

namespace Slab

open DyadicTiling

/-- `mem_pool_size`. -/
def memPoolSize : List Nat :=
  [64, 128, 192, 256, 320, 384, 448,
    512, 576, 640, 704, 768, 832, 896,
    960, 1024, 1152, 1280, 1408, 1536, 1664,
    1792, 1920, 2048, 2304, 2560, 2816, 3072,
    3584, 4096, 5120, 6144, 7168, 8192]

/-- `MEM_POOLS`. -/
def MEM_POOLS : Nat := memPoolSize.length

/-- Size and alignment of `mem_pool[i]`. -/
def memSpecs (i : Nat) : Nat × Nat := (memPoolSize.getD i 0, memPoolSize.getD 0 0)

/-- `mem_alloc_setup`. -/
def memAllocSetup (h : Heap) : Res Heap :=
  (List.range MEM_POOLS).foldlM (fun h i => memCacheSetup h i (memSpecs i).1 (memSpecs i).2) h

/-- `mem_alloc_shrink`. -/
def memAllocShrink (h : Heap) : Res Heap := (List.range MEM_POOLS).foldlM memCacheShrink h

/-- `mem_pool_lookup`. -/
def memPoolLookup (size : Nat) : Option Nat :=
  (List.range MEM_POOLS).find? fun i => memPoolSize.getD i 0 ≥ size

/-- `mem_order_calculate`. -/
def memOrderCalculate (size : Nat) : Nat :=
  ((List.range (MAX_ORDER + 1)).find? fun order => 2 ^ (order + PAGE_SHIFT) ≥ size).getD
    (MAX_ORDER + 1)

/-- `page_clear_bit(page, PAGE_CACHE_BIT); page->u.order = order`. -/
def ordered (order : Nat) (desc : Page) : Page :=
  { pageClearBit desc PAGE_CACHE_BIT with u := .order order }

/-- `mem_alloc`: the pointer, or 0. -/
def memAlloc (h : Heap) (size : Nat) : Res (Heap × Nat) :=
  match memPoolLookup size with
  | some c => memCacheAlloc h c
  | none => do
    let order := memOrderCalculate size
    let (zones, page) ← pageAllocRaw h.zones order
    match page with
    | none => return ({ h with zones := zones }, 0)
    | some page =>
      let zones ← updatePages (ordered order) page 1 zones
      let addr ← pageAddr zones page
      return ({ h with zones := zones }, va addr)

/-- `addr_page(pa(ptr) & ~(uintptr_t)PAGE_MASK)` and the descriptor there. -/
def ptrPage (h : Heap) (ptr : Nat) : Res (Nat × Page) := do
  let page ← addrPage h.zones (pageMask (pa ptr))
  let desc ← pageDesc h.zones page
  return (page, desc)

/-- `mem_free`. -/
def memFree (h : Heap) (ptr : Nat) : Res Heap :=
  if ptr = 0 then .ok h
  else do
    let (page, desc) ← ptrPage h ptr
    if pageTestBit desc PAGE_CACHE_BIT then
      let c ← desc.u.readCache
      memCacheFree h c ptr
    else
      let order ← desc.u.readOrder
      let zones ← updatePages (ordered 0) page 1 h.zones
      let zones ← pageFree zones
        (pa ptr / 2 ^ (order + PAGE_SHIFT) * 2 ^ (order + PAGE_SHIFT)) order
      return { h with zones := zones }

/-- `old_size` of `mem_realloc`. -/
def memSize (h : Heap) (ptr : Nat) : Res Nat := do
  let (_, desc) ← ptrPage h ptr
  if pageTestBit desc PAGE_CACHE_BIT then
    let c ← desc.u.readCache
    let cache ← h.cache c
    return cache.layout.objSize
  else
    let order ← desc.u.readOrder
    return 2 ^ (PAGE_SHIFT + order)

/-! ## Requests -/

/-- The size of a cache that serves a request. -/
theorem memPoolLookup_some {size c : Nat} (h : memPoolLookup size = some c) :
    c < MEM_POOLS ∧ size ≤ (memSpecs c).1 := by
  have hmem := List.mem_of_find?_eq_some h
  have hle := List.find?_some h
  exact ⟨List.mem_range.mp hmem, of_decide_eq_true hle⟩

/-- The order of a request that there is a list for. -/
theorem memOrderCalculate_le {size : Nat} (h : memOrderCalculate size ≤ MAX_ORDER) :
    size ≤ 2 ^ (PAGE_SHIFT + memOrderCalculate size) := by
  unfold memOrderCalculate at h ⊢
  cases hfind : (List.range (MAX_ORDER + 1)).find? fun order =>
    decide (2 ^ (order + PAGE_SHIFT) ≥ size) with
  | none =>
    rw [hfind, Option.getD_none] at h
    omega
  | some order =>
    have hle := List.find?_some hfind
    rw [Option.getD_some, Nat.add_comm]
    exact of_decide_eq_true hle

/-- Every size has a layout. -/
theorem memSpecs_fits {i : Nat} (hi : i < MEM_POOLS) :
    0 < (memSpecs i).1 ∧ (∃ k, (memSpecs i).2 = 2 ^ k) ∧
    LayoutFits (memSpecs i).1 (memSpecs i).2 := by
  have hbounds : ∀ i < MEM_POOLS, 0 < (memSpecs i).1 ∧ (memSpecs i).1 ≤ 8192 := by decide
  obtain ⟨hpos, hle⟩ := hbounds i hi
  have halign : (memSpecs i).2 = 64 := rfl
  have hround : roundUp (memSpecs i).1 64 ≤ (memSpecs i).1 + 64 - 1 := Nat.mul_div_le _ _
  refine ⟨hpos, ⟨6, rfl⟩, ?_⟩
  rw [halign]
  apply @layoutFits_pages _ _ 4
  · unfold WORD
    omega
  · unfold minPoolSize MIN_POOL_OBJS PAGE_SIZE PAGE_SHIFT
    have hheader : headerSize 8 = 48 := rfl
    omega
  · decide

/-! ## Blocks -/

/-- The pointer is a block of `n` bytes: an object of a cache, or whole pages. -/
def BlockOf (slabs : List PoolAt) (bigs : List Block) (h : Heap) (p n : Nat) : Prop :=
  (∃ c cache, ObjectOf slabs h c p ∧ h.caches c = some cache ∧ cache.layout.objSize = n) ∨
  ∃ b ∈ bigs, va (b.start * PAGE_SIZE) = p ∧ 2 ^ (PAGE_SHIFT + b.order) = n

section Blocks

variable {specs : Nat → Nat × Nat} {M : Set Nat} {slabs slabs' : List PoolAt}
  {bigs foreign : List Block} {h h' : Heap} {p n : Nat}

/-- Objects that stay are blocks of the same size. -/
theorem BlockOf.objects (hb : BlockOf slabs bigs h p n) (hrest : SameRest h h')
    (hobj : ∀ d, ObjectOf slabs h d p → ObjectOf slabs' h' d p) : BlockOf slabs' bigs h' p n := by
  rcases hb with ⟨c, cache, ho, hc, hn⟩ | hbig
  · have hlayout := hrest.layouts c
    rw [hc, Option.map_some] at hlayout
    obtain ⟨cache', hc', hl⟩ := Option.map_eq_some_iff.mp hlayout
    exact Or.inl ⟨c, cache', hobj c ho, hc', by rw [hl, hn]⟩
  · exact Or.inr hbig

/-- Caches stay set up. -/
theorem SameRest.ready (hrest : SameRest h h') {c : Nat} (hc : h.caches c ≠ none) :
    h'.caches c ≠ none := by
  intro hnone
  have hlayout := hrest.layouts c
  rw [hnone, Option.map_none, eq_comm, Option.map_eq_none_iff] at hlayout
  exact hc hlayout

/-- The page that a pointer points into, and its descriptor. -/
theorem ptrPage_eq {phys : Nat} {b : Block} {cached : Bool} {u : PageU}
    (hi : HeapInv specs M slabs bigs foreign h)
    (hb : b ∈ slabs.map PoolAt.block ++ (bigs ++ foreign)) (hphys : phys < WORD)
    (hpage : phys / PAGE_SIZE ∈ b.cells) (htag : Tagged h.zones (phys / PAGE_SIZE) cached u) :
    ∃ desc, ptrPage h (va phys) = .ok (phys / PAGE_SIZE, desc) ∧
      pageTestBit desc PAGE_CACHE_BIT = cached ∧ desc.u = u := by
  obtain ⟨hzone, _, _⟩ := hi.page_lt hb hpage
  obtain ⟨desc, hdesc, hread⟩ := pageDesc_eq htag hzone
  refine ⟨desc, ?_, hread⟩
  rw [ptrPage, pa_va hphys, pageMask, addrPage_eq hzone, ok_bind, hdesc, ok_bind]
  rfl

namespace HeapInv

variable {b : Block}

theorem mem_foreign (hb : b ∈ foreign) : b ∈ slabs.map PoolAt.block ++ (bigs ++ foreign) :=
  List.mem_append_right _ (List.mem_append_right _ hb)

theorem mem_big (hb : b ∈ bigs) : b ∈ slabs.map PoolAt.block ++ (bigs ++ foreign) :=
  List.mem_append_right _ (List.mem_append_left _ hb)

/-- The address of a page does not wrap. -/
theorem page_addr_lt (hi : HeapInv specs M slabs bigs foreign h)
    (hb : b ∈ slabs.map PoolAt.block ++ (bigs ++ foreign)) :
    b.start * PAGE_SIZE < WORD ∧ b.start * PAGE_SIZE ≠ 0 := by
  obtain ⟨_, hpos, hlt⟩ := hi.page_lt hb b.start_mem
  unfold WORD PAGE_SIZE PAGE_SHIFT
  omega

theorem addr_div (i : Nat) : i * PAGE_SIZE / PAGE_SIZE = i := Nat.mul_div_cancel i (by decide)

/-- An object lies in no block of pages. -/
theorem object_not_page {c : Nat} (hi : HeapInv specs M slabs bigs foreign h)
    (ho : ObjectOf slabs h c p) (hb : b ∈ bigs ++ foreign) : va (b.start * PAGE_SIZE) ≠ p := by
  obtain ⟨s, hs, _, pos, hpos, _, rfl⟩ := ho
  intro heq
  rw [s.object_eq] at heq
  have hlt := (hi.page_addr_lt (List.mem_append_right _ hb)).1
  have haddr := va_inj hlt ((hi.placed hs).objAddr_lt hpos) heq
  have hout := hi.not_mem_other hs hb ((hi.placed hs).objAddr_page hpos)
  rw [← haddr, addr_div] at hout
  exact hout b.start_mem

/-- Blocks of pages are apart, from one another and from those of other users. -/
theorem pages_apart (hi : HeapInv specs M slabs bigs foreign h) {b' : Block} (hb : b ∈ bigs)
    (hb' : b' ∈ foreign) : va (b.start * PAGE_SIZE) ≠ va (b'.start * PAGE_SIZE) := by
  intro heq
  have haddr := va_inj (hi.page_addr_lt (mem_big hb)).1 (hi.page_addr_lt (mem_foreign hb')).1 heq
  have hstart : b.start = b'.start := Nat.eq_of_mul_eq_mul_right (by decide) haddr
  have hcross := hi.others_apart.2.2
  exact Set.disjoint_left.mp (hcross b hb b' hb') b.start_mem (hstart ▸ b'.start_mem)

/-- The pages of other users are no block. -/
theorem foreign_not_block (hi : HeapInv specs M slabs bigs foreign h) (hb : b ∈ foreign) :
    ¬ BlockOf slabs bigs h (va (b.start * PAGE_SIZE)) n := by
  rintro (⟨c, _, ho, _⟩ | ⟨b', hb', heq, _⟩)
  · exact hi.object_not_page ho (List.mem_append_right _ hb) rfl
  · exact hi.pages_apart hb' hb heq

/-- A tagged block of pages is handed out. -/
theorem promote (hi : HeapInv specs M slabs bigs (b :: foreign) h)
    (htag : Tagged h.zones b.start false (.order b.order)) :
    HeapInv specs M slabs (b :: bigs) foreign h :=
  { hi with
    zones := hi.zones.perm_live (List.perm_middle.append_left _)
    big_tags := by
      intro b' hb'
      rcases List.mem_cons.mp hb' with rfl | hb'
      · exact htag
      · exact hi.big_tags b' hb' }

/-- A block of pages is taken back. -/
theorem demote (hi : HeapInv specs M slabs bigs foreign h) (hb : b ∈ bigs) :
    HeapInv specs M slabs (bigs.erase b) (b :: foreign) h :=
  { hi with
    zones := by
      have hperm : (bigs ++ foreign).Perm (bigs.erase b ++ b :: foreign) :=
        ((List.perm_cons_erase hb).append_right foreign).trans List.perm_middle.symm
      exact hi.zones.perm_live (hperm.append_left _)
    big_tags := fun b' hb' => hi.big_tags b' (List.mem_of_mem_erase hb') }

/-- **`page_free`** removes a block. -/
theorem freeAddr (hi : HeapInv specs M slabs bigs (b :: foreign) h) :
    ∃ zones, pageFree h.zones (b.start * PAGE_SIZE) b.order = .ok zones ∧
      HeapInv specs M slabs bigs foreign { h with zones := zones } := by
  have h0 := (hi.page_addr_lt (mem_foreign List.mem_cons_self)).2
  obtain ⟨zones, hfree, hz, _, hs⟩ :=
    pageFree_spec (hi.zones.perm_live (perm_foreign _ _)) h0 (addr_div b.start)
  exact ⟨zones, hfree, hi.sameUsers hz hs⟩

end HeapInv

/-- The descriptor of an object. -/
theorem ptrPage_object {c : Nat} (hi : HeapInv specs M slabs bigs foreign h)
    (ho : ObjectOf slabs h c p) :
    ∃ page desc, ptrPage h p = .ok (page, desc) ∧ pageTestBit desc PAGE_CACHE_BIT = true ∧
      desc.u = .cache (some c) := by
  obtain ⟨s, hs, rfl, pos, hpos, _, rfl⟩ := ho
  have hpage := (hi.placed hs).objAddr_page hpos
  obtain ⟨desc, hptr, hread⟩ := ptrPage_eq hi (HeapInv.mem_block hs)
    ((hi.placed hs).objAddr_lt hpos) hpage (hi.slab_tags s hs _ hpage)
  rw [s.object_eq]
  exact ⟨_, desc, hptr, hread⟩

/-- The descriptor of a block of pages. -/
theorem ptrPage_big {b : Block} (hi : HeapInv specs M slabs bigs foreign h) (hb : b ∈ bigs) :
    ∃ desc, ptrPage h (va (b.start * PAGE_SIZE)) = .ok (b.start, desc) ∧
      pageTestBit desc PAGE_CACHE_BIT = false ∧ desc.u = .order b.order := by
  have hmem : b ∈ slabs.map PoolAt.block ++ (bigs ++ foreign) := HeapInv.mem_big hb
  have hlt := (hi.page_addr_lt hmem).1
  have htag := hi.big_tags b hb
  rw [← HeapInv.addr_div b.start] at htag
  obtain ⟨desc, hptr, hread⟩ := ptrPage_eq hi hmem hlt
    (by rw [HeapInv.addr_div]; exact b.start_mem) htag
  rw [HeapInv.addr_div] at hptr
  exact ⟨desc, hptr, hread⟩

/-- **The size** that `mem_realloc` finds. -/
theorem memSize_eq (hi : HeapInv specs M slabs bigs foreign h) (hb : BlockOf slabs bigs h p n) :
    memSize h p = .ok n := by
  rcases hb with ⟨c, cache, ho, hc, rfl⟩ | ⟨b, hb, rfl, rfl⟩
  · obtain ⟨page, desc, hptr, hbit, hu⟩ := ptrPage_object hi ho
    rw [memSize, hptr, ok_bind]
    simp only
    rw [if_pos hbit, hu, PageU.readCache, ok_bind, Heap.cache_eq hc, ok_bind]
    rfl
  · obtain ⟨desc, hptr, hbit, hu⟩ := ptrPage_big hi hb
    rw [memSize, hptr, ok_bind]
    simp only
    rw [if_neg (by rw [hbit]; exact Bool.false_ne_true), hu, PageU.readOrder, ok_bind]
    rfl

/-- **`mem_free`** of a block. -/
theorem memFree_exact (hi : HeapInv specs M slabs bigs foreign h)
    (hb : BlockOf slabs bigs h p n) (hp : p ≠ 0) :
    ∃ h' bigs', memFree h p = .ok h' ∧ HeapInv specs M slabs bigs' foreign h' ∧ SameRest h h' ∧
      (∀ q m, q ≠ p → BlockOf slabs bigs h q m → BlockOf slabs bigs' h' q m) ∧
      (∀ m, ¬ BlockOf slabs bigs' h' p m) ∧
      ∀ q m, BlockOf slabs bigs' h' q m → BlockOf slabs bigs h q m := by
  rcases hb with ⟨c, cache, ho, hc, rfl⟩ | ⟨b, hb, rfl, rfl⟩
  · obtain ⟨page, desc, hptr, hbit, hu⟩ := ptrPage_object hi ho
    obtain ⟨h', hfree, hi', hrest, ⟨hkeep, hgone⟩, honly⟩ := memCacheFree_exact hi ho
    refine ⟨h', bigs, ?_, hi', hrest, ?_, ?_, ?_⟩
    · rw [memFree, if_neg hp, hptr, ok_bind]
      simp only
      rw [if_pos hbit, hu, PageU.readCache, ok_bind, hfree]
    · intro q m hq hbq
      exact hbq.objects hrest fun d => hkeep d q hq
    · rintro m (⟨d, _, hd, _⟩ | ⟨b, hb, heq, _⟩)
      · exact hgone d hd
      · exact hi.object_not_page ho (List.mem_append_left _ hb) heq
    · intro q m hq
      exact hq.objects hrest.symm fun d => honly d q
  · obtain ⟨desc, hptr, hbit, hu⟩ := ptrPage_big hi hb
    have hmem : b ∈ slabs.map PoolAt.block ++ (bigs ++ foreign) := HeapInv.mem_big hb
    have hi₁ := hi.demote hb
    obtain ⟨zones₁, hup, hi₂, _⟩ := hi₁.tag (keepsBuddy_clear (.order 0)) Nat.one_le_two_pow
    obtain ⟨zones₂, hfree, hi₃⟩ := hi₂.freeAddr
    have hup' : updatePages (ordered 0) b.start 1 h.zones = .ok zones₁ := hup
    have haddr : pa (va (b.start * PAGE_SIZE)) / 2 ^ (b.order +
        PAGE_SHIFT) * 2 ^ (b.order + PAGE_SHIFT) = b.start * PAGE_SIZE := by
      rw [pa_va (hi.page_addr_lt hmem).1]
      apply Nat.div_mul_cancel
      rw [pow_add]
      exact Nat.mul_dvd_mul (hi.aligned hmem) (Nat.dvd_refl _)
    refine ⟨{ h with zones := zones₂ }, bigs.erase b, ?_, hi₃, ⟨rfl, fun _ => rfl⟩, ?_, ?_, ?_⟩
    · rw [memFree, if_neg hp, hptr, ok_bind]
      simp only
      rw [if_neg (by rw [hbit]; exact Bool.false_ne_true), hu, PageU.readOrder, ok_bind, hup',
        ok_bind, haddr, hfree]
      rfl
    · rintro q m hq (hobj | ⟨b', hb', rfl, rfl⟩)
      · exact Or.inl hobj
      · refine Or.inr ⟨b', ?_, rfl, rfl⟩
        apply (List.mem_erase_of_ne _).mpr hb'
        rintro rfl
        exact hq rfl
    · intro m hblock
      exact hi₁.foreign_not_block List.mem_cons_self hblock
    · rintro q m (hobj | ⟨b', hb', hq⟩)
      · exact Or.inl hobj
      · exact Or.inr ⟨b', List.mem_of_mem_erase hb', hq⟩

/-- The block goes, the others stay. -/
theorem memFree_spec (hi : HeapInv specs M slabs bigs foreign h)
    (hb : BlockOf slabs bigs h p n) (hp : p ≠ 0) :
    ∃ h' bigs', memFree h p = .ok h' ∧ HeapInv specs M slabs bigs' foreign h' ∧ SameRest h h' ∧
      (∀ q m, q ≠ p → BlockOf slabs bigs h q m → BlockOf slabs bigs' h' q m) ∧
      ∀ m, ¬ BlockOf slabs bigs' h' p m := by
  obtain ⟨h', bigs', hfree, hi', hrest, hkeep, hgone, _⟩ := memFree_exact hi hb hp
  exact ⟨h', bigs', hfree, hi', hrest, hkeep, hgone⟩

end Blocks

/-- **`mem_alloc_setup`** sets up its caches, before any cache is in use. -/
theorem memAllocSetup_exact {M : Set Nat} {slabs : List PoolAt}
    {bigs foreign : List Block} {h : Heap}
    (hi : HeapInv memSpecs M slabs bigs foreign h) (hnone : ∀ c, h.caches c = none) :
    ∃ h', memAllocSetup h = .ok h' ∧ HeapInv memSpecs M slabs bigs foreign h' ∧
      (∀ c, h'.caches c ≠ none ↔ c < MEM_POOLS) ∧ h'.zones = h.zones := by
  have hloop : ∀ n ≤ MEM_POOLS, ∃ h', (List.range n).foldlM
      (fun h i => memCacheSetup h i (memSpecs i).1 (memSpecs i).2) h = .ok h' ∧
      HeapInv memSpecs M slabs bigs foreign h' ∧ (∀ c, h'.caches c = none ↔ n ≤ c) ∧
          h'.zones = h.zones := by
    intro n
    induction n with
    | zero =>
      intro _
      exact ⟨h, rfl, hi, fun c => iff_of_true (hnone c) (Nat.zero_le c), rfl⟩
    | succ n ih =>
      intro hn
      obtain ⟨h₁, hfold, hi₁, hset₁, hzones₁⟩ := ih (Nat.le_of_succ_le hn)
      obtain ⟨hsize, halign, hfits⟩ := memSpecs_fits hn
      have hfree := (hset₁ n).mpr (Nat.le_refl n)
      obtain ⟨h₂, cache, hsetup, hi₂, rfl⟩ := memCacheSetup_spec hi₁ hfree hsize halign hfits
      refine ⟨_, ?_, hi₂, ?_, hzones₁⟩
      · rw [List.range_succ, List.foldlM_append, hfold, ok_bind, List.foldlM_cons, hsetup]
        rfl
      · intro c
        show Function.update h₁.caches n (some cache) c = none ↔ _
        by_cases hc : c = n
        · subst hc
          rw [Function.update_self]
          exact iff_of_false (Option.some_ne_none cache) (Nat.not_succ_le_self c)
        · rw [Function.update_of_ne hc, hset₁]
          omega
  obtain ⟨h', hfold, hi', hset, hzones⟩ := hloop MEM_POOLS (Nat.le_refl _)
  refine ⟨h', hfold, hi', ?_, hzones⟩
  intro c
  rw [ne_eq, hset c, Nat.not_le]

theorem memAllocSetup_spec {M : Set Nat} {slabs : List PoolAt}
    {bigs foreign : List Block} {h : Heap}
    (hi : HeapInv memSpecs M slabs bigs foreign h) (hnone : ∀ c, h.caches c = none) :
    ∃ h', memAllocSetup h = .ok h' ∧ HeapInv memSpecs M slabs bigs foreign h' ∧
      (∀ c < MEM_POOLS, h'.caches c ≠ none) ∧ h'.zones = h.zones := by
  obtain ⟨h', hsetup, hi', hset, hzones⟩ := memAllocSetup_exact hi hnone
  exact ⟨h', hsetup, hi', fun c => (hset c).mpr, hzones⟩

/-- **`mem_alloc`.**  It returns no memory and changes no block, or the pointer is the one new
block, of at least the size that was asked for. -/
theorem memAlloc_exact {M : Set Nat} {slabs : List PoolAt} {bigs foreign : List Block} {h : Heap}
    (hi : HeapInv memSpecs M slabs bigs foreign h)
    (hset : ∀ c < MEM_POOLS, h.caches c ≠ none) (size : Nat) :
    ∃ h' p slabs' bigs', memAlloc h size = .ok (h', p) ∧
      HeapInv memSpecs M slabs' bigs' foreign h' ∧
      SameRest h h' ∧ (∀ q m, BlockOf slabs bigs h q m → BlockOf slabs' bigs' h' q m) ∧
      ((p = 0 ∧ ∀ q m, BlockOf slabs' bigs' h' q m → BlockOf slabs bigs h q m) ∨
        (∃ n, BlockOf slabs' bigs' h' p n ∧ size ≤ n) ∧ (∀ m, ¬ BlockOf slabs bigs h p m) ∧
          ∀ q m, BlockOf slabs' bigs' h' q m → q = p ∨ BlockOf slabs bigs h q m) := by
  unfold memAlloc
  cases hlookup : memPoolLookup size with
  | some c =>
    obtain ⟨hc, hsize⟩ := memPoolLookup_some hlookup
    obtain ⟨cache, hcache⟩ := Option.ne_none_iff_exists'.mp (hset c hc)
    obtain ⟨h', p, slabs', halloc, hi', hrest, hkeep, hres⟩ := memCacheAlloc_exact hi hcache
    refine ⟨h', p, slabs', bigs, halloc, hi', hrest, ?_, ?_⟩
    · intro q m hq
      exact hq.objects hrest fun d => hkeep d q
    rcases hres with ⟨h0, honly⟩ | ⟨hobj, hold, honly⟩
    · exact Or.inl ⟨h0, fun q m hq => hq.objects hrest.symm fun d => honly d q⟩
    · refine Or.inr ⟨?_, ?_, ?_⟩
      · have hlayout := hrest.layouts c
        rw [hcache, Option.map_some] at hlayout
        obtain ⟨cache', hc', _⟩ := Option.map_eq_some_iff.mp hlayout
        obtain ⟨_, _, hfit⟩ := hi'.setup c cache' hc'
        exact ⟨_, Or.inl ⟨c, cache', hobj, hc', rfl⟩, hsize.trans hfit.ok.objSize.1.1⟩
      · rintro m (⟨d, _, hd, _⟩ | ⟨b, hb, heq, _⟩)
        · exact hold d hd
        · exact hi'.object_not_page hobj (List.mem_append_left _ hb) heq
      · intro q m hq
        by_cases hqp : q = p
        · exact Or.inl hqp
        · exact Or.inr (hq.objects hrest.symm fun d hd => (honly d q hd).resolve_left hqp)
  | none =>
    simp only
    rcases hi.alloc (memOrderCalculate size) with hnone | ⟨zones, page, hsome, hi₁⟩
    · rw [hnone]
      exact ⟨h, 0, slabs, bigs, rfl, hi, SameRest.refl h, fun _ _ hq => hq,
        Or.inl ⟨rfl, fun _ _ hq => hq⟩⟩
    · have hmem : (⟨page, memOrderCalculate size⟩ : Block) ∈ slabs.map PoolAt.block ++
          (bigs ++ ⟨page, memOrderCalculate size⟩ :: foreign) :=
            HeapInv.mem_foreign List.mem_cons_self
      obtain ⟨zones₂, hup, hi₂, htag⟩ := hi₁.tag
        (keepsBuddy_clear (.order (memOrderCalculate size))) Nat.one_le_two_pow
      have hup' : updatePages (ordered (memOrderCalculate size)) page 1 zones = .ok zones₂ := hup
      obtain ⟨hzone, _, hlt⟩ := hi₂.page_lt hmem (Block.start_mem _)
      have hstart := htag false _ (tag_clear (.order (memOrderCalculate size))) page (Nat.le_refl _)
        (Nat.lt_succ_self _)
      have hi₃ := hi₂.promote hstart
      have horder : memOrderCalculate size ≤ MAX_ORDER := hi₁.zones.order_le hmem
      have haddr : pageAddr zones₂ page = .ok (page * PAGE_SIZE) := pageAddr_eq hzone hlt
      rw [hsome]
      simp only [ok_bind, hup', haddr]
      refine ⟨{ h with zones := zones₂ }, va (page * PAGE_SIZE), slabs, _, rfl, hi₃,
        ⟨rfl, fun _ => rfl⟩, ?_, ?_⟩
      · rintro q m (hobj | ⟨b, hb, heq, hm⟩)
        · exact Or.inl hobj
        · exact Or.inr ⟨b, List.mem_cons_of_mem _ hb, heq, hm⟩
      · refine Or.inr ⟨⟨_, Or.inr ⟨_, List.mem_cons_self, rfl, rfl⟩, memOrderCalculate_le horder⟩,
          ?_, ?_⟩
        · intro m hblock
          exact hi₁.foreign_not_block List.mem_cons_self hblock
        · rintro q m (hobj | ⟨b, hb, rfl, hm⟩)
          · exact Or.inr (Or.inl hobj)
          · rcases List.mem_cons.mp hb with rfl | hb
            · exact Or.inl rfl
            · exact Or.inr (Or.inr ⟨b, hb, rfl, hm⟩)

/-- A pointer that is not null is a new block of at least the size that was asked for; the others
stay. -/
theorem memAlloc_spec {M : Set Nat} {slabs : List PoolAt} {bigs foreign : List Block} {h : Heap}
    (hi : HeapInv memSpecs M slabs bigs foreign h)
    (hset : ∀ c < MEM_POOLS, h.caches c ≠ none) (size : Nat) :
    ∃ h' p slabs' bigs', memAlloc h size = .ok (h', p) ∧
      HeapInv memSpecs M slabs' bigs' foreign h' ∧
      SameRest h h' ∧ (∀ q m, BlockOf slabs bigs h q m → BlockOf slabs' bigs' h' q m) ∧
      (p ≠ 0 → (∃ n, BlockOf slabs' bigs' h' p n ∧ size ≤ n) ∧
          ∀ m, ¬ BlockOf slabs bigs h p m) := by
  obtain ⟨h', p, slabs', bigs', halloc, hi', hrest, hkeep, hres⟩ := memAlloc_exact hi hset size
  refine ⟨h', p, slabs', bigs', halloc, hi', hrest, hkeep, fun hp => ?_⟩
  rcases hres with ⟨h0, _⟩ | ⟨hblock, hfresh, _⟩
  · exact absurd h0 hp
  · exact ⟨hblock, hfresh⟩

/-- **`mem_alloc_shrink`** gives the free pools of all caches back; the other pools and all blocks
stay. -/
theorem memAllocShrink_exact {specs : Nat → Nat × Nat} {M : Set Nat} {bigs foreign : List Block}
    {slabs : List PoolAt} {h : Heap} (hi : HeapInv specs M slabs bigs foreign h)
    (hset : ∀ c < MEM_POOLS, h.caches c ≠ none) :
    ∃ h' slabs', memAllocShrink h = .ok h' ∧ HeapInv specs M slabs' bigs foreign h' ∧
      SameRest h h' ∧ (∀ q m, BlockOf slabs bigs h q m → BlockOf slabs' bigs h' q m) ∧
      ∀ s ∈ slabs', s ∈ slabs ∧ h'.pools s.header = h.pools s.header ∧
        (s.cache < MEM_POOLS → (h.pools s.header).free ≠ s.layout.objCount) := by
  have hloop : Post (memAllocShrink h) (fun _ => False) fun h' =>
    ∃ slabs', HeapInv specs M slabs' bigs foreign h' ∧
      SameRest h h' ∧ (∀ q m, BlockOf slabs bigs h q m → BlockOf slabs' bigs h' q m) ∧
      ∀ s ∈ slabs', s ∈ slabs ∧ h'.pools s.header = h.pools s.header ∧
        (s.cache ∈ List.range MEM_POOLS → (h.pools s.header).free ≠ s.layout.objCount) := by
    unfold memAllocShrink
    refine Post.foldlM (I := fun done h' => ∃ slabs', HeapInv specs M slabs' bigs foreign h' ∧
      SameRest h h' ∧ (∀ q m, BlockOf slabs bigs h q m → BlockOf slabs' bigs h' q m) ∧
      ∀ s ∈ slabs', s ∈ slabs ∧ h'.pools s.header = h.pools s.header ∧
        (s.cache ∈ done → (h.pools s.header).free ≠ s.layout.objCount)) _
      ⟨slabs, hi, SameRest.refl h, fun _ _ hq => hq, fun s hs => ⟨hs, rfl, nofun⟩⟩ ?_
    rintro done c hc h₁ ⟨slabs₁, hi₁, hrest₁, hkeep₁, hpools₁⟩
    obtain ⟨cache, hcache⟩ := Option.ne_none_iff_exists'.mp
      (hrest₁.ready (hset c (List.mem_range.mp hc)))
    obtain ⟨h₂, slabs₂, hshrink, hi₂, hrest₂, hkeep₂, hpools₂⟩ := memCacheShrink_exact hi₁ hcache
    apply Post.of_ok
    refine ⟨h₂, hshrink, slabs₂, hi₂, hrest₁.trans hrest₂, ?_, ?_⟩
    · intro q m hq
      exact (hkeep₁ q m hq).objects hrest₂ fun d => hkeep₂ d q
    · intro s hs
      obtain ⟨hs₁, heq₂, hfree₂⟩ := hpools₂ s hs
      obtain ⟨hs₀, heq₁, hfree₁⟩ := hpools₁ s hs₁
      refine ⟨hs₀, heq₂.trans heq₁, fun hdone => ?_⟩
      rcases List.mem_append.mp hdone with hd | hd
      · exact hfree₁ hd
      · rw [← heq₁]
        exact hfree₂ (List.mem_singleton.mp hd)
  obtain ⟨h', hshrink, slabs', hi', hrest, hkeep, hpools⟩ := hloop.returns
  refine ⟨h', slabs', hshrink, hi', hrest, hkeep, fun s hs => ?_⟩
  obtain ⟨hs', heq, hfree⟩ := hpools s hs
  exact ⟨hs', heq, fun hc => hfree (List.mem_range.mpr hc)⟩

/-- No block goes. -/
theorem memAllocShrink_spec {specs : Nat → Nat × Nat} {M : Set Nat} {bigs foreign : List Block}
    {slabs : List PoolAt} {h : Heap} (hi : HeapInv specs M slabs bigs foreign h)
    (hset : ∀ c < MEM_POOLS, h.caches c ≠ none) :
    ∃ h' slabs', memAllocShrink h = .ok h' ∧ HeapInv specs M slabs' bigs foreign h' ∧
      SameRest h h' ∧ ∀ q m, BlockOf slabs bigs h q m → BlockOf slabs' bigs h' q m := by
  obtain ⟨h', slabs', hshrink, hi', hrest, hkeep, _⟩ := memAllocShrink_exact hi hset
  exact ⟨h', slabs', hshrink, hi', hrest, hkeep⟩

end Slab

end AuOs
