import Mathlib
import AuOs.Slab.Heap

/-!
# The bytes of the heap

Where the blocks that `mem_alloc` hands out lie, as addresses of the kernel.

* `span` — the bytes from an address on; `Within` says that they lie in a block of pages.
* `Usable.span_disjoint` — blocks of different pages have different bytes.
* `BlockOf.disjoint` — **two blocks of the heap share no byte.**
* `BlockOf.header_disjoint`, `BlockOf.free_disjoint` — a block shares no byte with the header of a
  pool or with a page in a list of the page allocator.
-/

set_option autoImplicit false

namespace AuOs

namespace Slab

open DyadicTiling

/-- The `n` bytes from `a` on. -/
def span (a n : Nat) : Set Nat := Set.Ico a (a + n)

theorem span_disjoint {a b m n : Nat} (h : a + m ≤ b) : Disjoint (span a m) (span b n) := by
  rw [Set.disjoint_left]
  rintro y ⟨_, hlt⟩ ⟨hle, _⟩
  omega

/-- The bytes of a block of pages. -/
def pagesSpan (b : Block) : Set Nat := span (va (b.start * PAGE_SIZE)) (2 ^ b.order * PAGE_SIZE)

/-- The `n` bytes from `a` on lie in the pages of the block. -/
def Within (b : Block) (a n : Nat) : Prop :=
  va (b.start * PAGE_SIZE) ≤ a ∧ a + n ≤ va (b.start * PAGE_SIZE) + 2 ^ b.order * PAGE_SIZE

theorem Within.subset {b : Block} {a n : Nat} (h : Within b a n) : span a n ⊆ pagesSpan b :=
  Set.Ico_subset_Ico h.1 h.2

theorem Within.le {b : Block} {a n : Nat} (h : Within b a n) (hb : Usable b) : a + n ≤ WORD :=
  h.2.trans hb.va_end

/-- **Blocks of different pages have different bytes.** -/
theorem Usable.span_disjoint {b b' : Block} (hb : Usable b) (hb' : Usable b')
    (hd : Disjoint b.cells b'.cells) : Disjoint (pagesSpan b) (pagesSpan b') := by
  have hcell : ∀ {b : Block} {x}, x < 2 ^ b.order * PAGE_SIZE →
      (b.start * PAGE_SIZE + x) / PAGE_SIZE ∈ b.cells := by
    intro b x hx
    rw [Block.mem_cells]
    unfold PAGE_SIZE PAGE_SHIFT at *
    omega
  have hlt : ∀ {b : Block} {x}, Usable b → x < 2 ^ b.order * PAGE_SIZE →
      b.start * PAGE_SIZE + x < WORD := by
    intro b x hb hx
    have hend := hb.end_le
    unfold WORD
    omega
  rw [Set.disjoint_left]
  rintro y ⟨hle, hlt₁⟩ ⟨hle', hlt₂⟩
  obtain ⟨x, rfl⟩ := Nat.exists_eq_add_of_le hle
  obtain ⟨x', hx'⟩ := Nat.exists_eq_add_of_le hle'
  have hxb : x < 2 ^ b.order * PAGE_SIZE := by omega
  have hxb' : x' < 2 ^ b'.order * PAGE_SIZE := by omega
  rw [← hb.va_inside hxb, ← hb'.va_inside hxb'] at hx'
  have haddr := va_inj (hlt hb hxb) (hlt hb' hxb') hx'
  have hpage := hcell hxb
  rw [haddr] at hpage
  exact Set.disjoint_left.mp hd hpage (hcell hxb')

/-! ## Pools -/

namespace Placed

variable {size align pos q : Nat} {s : PoolAt}

/-- An object lies in the pages of its pool. -/
theorem object_within (h : Placed size align s) (hpos : pos < s.layout.objCount) :
    Within s.block (s.object pos) s.layout.objSize := by
  have hend := h.object_end hpos
  have hmeta := h.metaOffs_lt
  rw [poolSize_eq] at hmeta
  rw [h.object_eq_add hpos]
  refine ⟨Nat.le_add_right _ _, ?_⟩
  rw [Nat.add_assoc]
  apply Nat.add_le_add_left
  exact hend.trans (Nat.le_of_lt hmeta)

/-- The header lies in the pages of its pool. -/
theorem header_within (h : Placed size align s) :
    Within s.block s.header (metaSize s.layout.objCount) := by
  rw [h.header_eq_add]
  refine ⟨Nat.le_add_right _ _, ?_⟩
  rw [Nat.add_assoc, h.layout.ok.header_ends, poolSize_eq]
  exact Nat.le_refl _

/-- The objects of a pool share no byte. -/
theorem objects_disjoint (h : Placed size align s) (hpos : pos < s.layout.objCount)
    (hq : q < s.layout.objCount)
    (hne : pos ≠ q) : Disjoint (span (s.object pos) s.layout.objSize)
    (span (s.object q) s.layout.objSize) := by
  have hlt : ∀ {i j}, i < s.layout.objCount → j < s.layout.objCount → i < j →
      s.object i + s.layout.objSize ≤ s.object j := by
    intro i j hi hj hij
    rw [h.object_eq_add hi, h.object_eq_add hj, Nat.add_assoc, ← Nat.succ_mul]
    exact Nat.add_le_add_left (Nat.mul_le_mul_right _ hij) _
  rcases Nat.lt_or_gt_of_ne hne with hlt' | hgt
  · exact span_disjoint (hlt hpos hq hlt')
  · exact (span_disjoint (hlt hq hpos hgt)).symm

/-- An object shares no byte with the header. -/
theorem object_header_disjoint (h : Placed size align s) (hpos : pos < s.layout.objCount) :
    Disjoint (span (s.object pos) s.layout.objSize)
    (span s.header (metaSize s.layout.objCount)) := by
  have hend := h.object_end hpos
  apply span_disjoint
  rw [h.object_eq_add hpos, h.header_eq_add]
  omega

end Placed

/-! ## Blocks of the heap -/

section Extents

variable {specs : Nat → Nat × Nat} {M : Set Nat} {slabs : List PoolAt}
  {bigs foreign : List Block} {h : Heap} {b : Block} {p q n m : Nat}

theorem HeapInv.usable_free (hi : HeapInv specs M slabs bigs foreign h) {zone : Zone}
    (hz : zone ∈ h.zones) (hb : b ∈ freeList zone) : Usable b := by
  have hmem := List.mem_append_right (slabs.map PoolAt.block ++ (bigs ++ foreign))
    (List.mem_flatMap.mpr ⟨zone, hz, hb⟩)
  refine ⟨hi.zones.tiling.aligned b hmem, (mem_freeList.mp hb).1, ?_⟩
  intro i hib
  exact (hi.limit i (hi.zones.tiling.cells_subset hmem hib)).2

/-- Blocks of pages that are held are apart from those in the lists of the page allocator. -/
theorem HeapInv.free_apart (hi : HeapInv specs M slabs bigs foreign h) {b' : Block}
    (hb : b ∈ slabs.map PoolAt.block ++ (bigs ++ foreign)) {zone : Zone} (hz : zone ∈ h.zones)
    (hb' : b' ∈ freeList zone) : Disjoint b.cells b'.cells :=
  (List.pairwise_append.mp hi.zones.tiling.disjoint).2.2 b hb b'
    (List.mem_flatMap.mpr ⟨zone, hz, hb'⟩)

/-- Blocks of pages that were handed out are apart. -/
theorem HeapInv.bigs_apart (hi : HeapInv specs M slabs bigs foreign h) {b' : Block} (hb : b ∈ bigs)
    (hb' : b' ∈ bigs) (hne : b ≠ b') : Disjoint b.cells b'.cells := by
  have hpair := hi.others_apart.1
  have : Std.Symm fun b b' : Block => Disjoint b.cells b'.cells := ⟨fun _ _ hd => hd.symm⟩
  exact hpair.forall hb hb' hne

/-- A page of a pool is in no block of another kind. -/
theorem HeapInv.slab_apart (hi : HeapInv specs M slabs bigs foreign h) {s : PoolAt} (hs : s ∈ slabs)
    (hb : b ∈ bigs) : Disjoint s.block.cells b.cells := by
  rw [Set.disjoint_left]
  intro i his
  exact hi.not_mem_other hs (List.mem_append_left _ hb) his

theorem HeapInv.slabs_apart (hi : HeapInv specs M slabs bigs foreign h) {s t : PoolAt}
    (hs : s ∈ slabs) (ht : t ∈ slabs) (hne : s ≠ t) : Disjoint s.block.cells t.block.cells := by
  rw [Set.disjoint_left]
  intro i his hit
  exact hne (hi.slab_eq hs ht his hit)

/-- A block of whole pages. -/
theorem within_big (b : Block) : Within b (va (b.start * PAGE_SIZE))
    (2 ^ (PAGE_SHIFT + b.order)) := by
  refine ⟨Nat.le_refl _, Nat.le_of_eq ?_⟩
  rw [Nat.pow_add, Nat.mul_comm (2 ^ PAGE_SHIFT)]
  rfl

/-- The pages that a block of the heap lies in. -/
theorem BlockOf.within (hi : HeapInv specs M slabs bigs foreign h) (hp : BlockOf slabs bigs h p n) :
    ∃ b ∈ slabs.map PoolAt.block ++ (bigs ++ foreign), Within b p n := by
  rcases hp with ⟨_, cache, ⟨s, hs, rfl, pos, hpos, _, rfl⟩, hc, rfl⟩ | ⟨b, hb, rfl, rfl⟩
  · rw [hi.layout_eq hs hc]
    exact ⟨s.block, HeapInv.mem_block hs, (hi.placed hs).object_within hpos⟩
  · exact ⟨b, HeapInv.mem_big hb, within_big b⟩

/-- A block ends in the address space. -/
theorem BlockOf.le (hi : HeapInv specs M slabs bigs foreign h) (hp : BlockOf slabs bigs h p n) :
    p + n ≤ WORD := by
  obtain ⟨b, hb, hw⟩ := hp.within hi
  exact hw.le (hi.usable hb)

/-- **Two blocks of the heap share no byte.** -/
theorem BlockOf.disjoint (hi : HeapInv specs M slabs bigs foreign h) (hp : BlockOf slabs bigs h p n)
    (hq : BlockOf slabs bigs h q m) (hne : p ≠ q) : Disjoint (span p n) (span q m) := by
  have hpages : ∀ {b b' : Block}, b ∈ slabs.map PoolAt.block ++ (bigs ++ foreign) →
      b' ∈ slabs.map PoolAt.block ++ (bigs ++ foreign) → Disjoint b.cells b'.cells →
      Within b p n → Within b' q m → Disjoint (span p n) (span q m) := by
    intro b b' hb hb' hd hw hw'
    exact ((hi.usable hb).span_disjoint (hi.usable hb') hd).mono hw.subset hw'.subset
  rcases hp with ⟨_, cache, ⟨s, hs, rfl, pos, hpos, _, rfl⟩, hc, rfl⟩ | ⟨b, hb, rfl, rfl⟩
  · rw [hi.layout_eq hs hc] at *
    have hw := (hi.placed hs).object_within hpos
    rcases hq with ⟨_, cache', ⟨t, ht, rfl, j, hj, _, rfl⟩, hc', rfl⟩ | ⟨b', hb', rfl, rfl⟩
    · rw [hi.layout_eq ht hc'] at *
      by_cases hst : s = t
      · subst hst
        have hij : pos ≠ j := fun heq => hne (by rw [heq])
        exact (hi.placed hs).objects_disjoint hpos hj hij
      · exact hpages (HeapInv.mem_block hs) (HeapInv.mem_block ht) (hi.slabs_apart hs ht hst) hw
          ((hi.placed ht).object_within hj)
    · exact hpages (HeapInv.mem_block hs) (HeapInv.mem_big hb') (hi.slab_apart hs hb') hw
        (within_big b')
  · rcases hq with ⟨_, cache', ⟨t, ht, rfl, j, hj, _, rfl⟩, hc', rfl⟩ | ⟨b', hb', rfl, rfl⟩
    · rw [hi.layout_eq ht hc'] at *
      exact hpages (HeapInv.mem_big hb) (HeapInv.mem_block ht)
        (hi.slab_apart ht hb).symm (within_big b) ((hi.placed ht).object_within hj)
    · have hbb : b ≠ b' := fun heq => hne (by rw [heq])
      exact hpages (HeapInv.mem_big hb) (HeapInv.mem_big hb')
        (hi.bigs_apart hb hb' hbb) (within_big b) (within_big b')

/-- **A block shares no byte with the header of a pool.** -/
theorem BlockOf.header_disjoint (hi : HeapInv specs M slabs bigs foreign h)
    (hp : BlockOf slabs bigs h p n)
    {s : PoolAt} (hs : s ∈ slabs) : Disjoint (span p n)
    (span s.header (metaSize s.layout.objCount)) := by
  have hheader := (hi.placed hs).header_within
  have hpages : ∀ {b : Block}, b ∈ slabs.map PoolAt.block ++ (bigs ++ foreign) →
      Disjoint b.cells s.block.cells →
      Within b p n → Disjoint (span p n) (span s.header (metaSize s.layout.objCount)) := by
    intro b hb hd hw
    exact ((hi.usable hb).span_disjoint (hi.usable (HeapInv.mem_block hs)) hd).mono
      hw.subset hheader.subset
  rcases hp with ⟨_, cache, ⟨t, ht, rfl, pos, hpos, _, rfl⟩, hc, rfl⟩ | ⟨b, hb, rfl, rfl⟩
  · rw [hi.layout_eq ht hc] at *
    by_cases hts : t = s
    · subst hts
      exact (hi.placed ht).object_header_disjoint hpos
    · exact hpages (HeapInv.mem_block ht) (hi.slabs_apart ht hs hts)
        ((hi.placed ht).object_within hpos)
  · exact hpages (HeapInv.mem_big hb) (hi.slab_apart hs hb).symm (within_big b)

/-- **A block shares no byte with a page in a list of the page allocator.** -/
theorem BlockOf.free_disjoint (hi : HeapInv specs M slabs bigs foreign h)
    (hp : BlockOf slabs bigs h p n)
    {zone : Zone} (hz : zone ∈ h.zones) (hb : b ∈ freeList zone) {i : Nat} (hib : i ∈ b.cells) :
    Disjoint (span p n) (span (va (i * PAGE_SIZE)) PAGE_SIZE) := by
  obtain ⟨b', hb', hw⟩ := hp.within hi
  have hfree := hi.usable_free hz hb
  have hpage : Within b (va (i * PAGE_SIZE)) PAGE_SIZE := by
    obtain ⟨hle, hlt⟩ := hib
    obtain ⟨k, rfl⟩ := Nat.exists_eq_add_of_le hle
    have hk : (k + 1) * PAGE_SIZE ≤ 2 ^ b.order * PAGE_SIZE := Nat.mul_le_mul_right _ (by omega)
    rw [Nat.succ_mul] at hk
    have hpos : 0 < PAGE_SIZE := by decide
    rw [Nat.add_mul, hfree.va_inside (by omega)]
    exact ⟨Nat.le_add_right _ _, by omega⟩
  exact ((hi.usable hb').span_disjoint hfree (hi.free_apart hb' hz hb)).mono hw.subset hpage.subset

/-- Blocks are aligned, if the objects of all caches are. -/
theorem BlockOf.dvd {k : Nat} (hi : HeapInv specs M slabs bigs foreign h)
    (hk : ∀ c, (specs c).2 = 2 ^ k)
    (hle : k ≤ PAGE_SHIFT) (hp : BlockOf slabs bigs h p n) : 2 ^ k ∣ p := by
  rcases hp with ⟨_, cache, ⟨s, hs, rfl, pos, hpos, _, rfl⟩, _, _⟩ | ⟨b, hb, rfl, _⟩
  · rw [← hk s.cache]
    exact (hi.placed hs).dvd_object hpos
  · have hpage : 2 ^ k ∣ PAGE_SIZE := Nat.pow_dvd_pow 2 hle
    exact (hpage.trans (Nat.dvd_mul_left _ _)).trans (hi.usable (HeapInv.mem_big hb)).size_dvd_va

end Extents

end Slab

end AuOs
