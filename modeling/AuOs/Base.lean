import Mathlib
import AuOs.Lib.Post

/-!
# Constants and the ways the kernel stops

* `PAGE_SHIFT`, `PAGE_SIZE`, `MAX_ORDER`, `HIGHER_BASE` — the constants of `defines.h`.
* `Bug` — the `BUG` and `BUG_ON` sites of the modelled files, one constructor for each condition.
* `Res` — the result of a function that may stop the kernel: a `BUG` halts the CPU for good, a
  `fault` is an access the C code has no right to make (a null or unlinked list entry, a descriptor
  outside its array, the wrong member of a union), `hang` is a loop that ran out of the fuel the
  model gives it.  The theorems about these functions prove which of the three can happen.
-/

set_option autoImplicit false

namespace AuOs

def PAGE_SHIFT : Nat := 12

def PAGE_SIZE : Nat := 2 ^ PAGE_SHIFT

/-- Just enough for 1GB pages. -/
def MAX_ORDER : Nat := 18

def HIGHER_BASE : Nat := 0xffff800000000000

/-- Values of `uintptr_t`, `size_t` and `unsigned long long` are taken modulo this. -/
def WORD : Nat := 2 ^ 64

/-- Where `BUG` and `BUG_ON` stand in the source. -/
inductive Bug where
  /-- `page_set_order`: `order > (int)PAGE_ORDER_MASK` or `order < 0`. -/
  | pageSetOrder
  /-- `__page_alloc_zone_setup`: `pa(zone) == UINTPTR_MAX`. -/
  | zoneSetupNoMemory
  /-- `page_zone`: `"orphan page"`. -/
  | orphanPage
  /-- `addr_page`: `addr & PAGE_MASK`. -/
  | addrUnaligned
  /-- `addr_page`: `"Page for addr 0x%lx not found"`. -/
  | addrNotFound
  /-- `__page_alloc_zone_free`: `!zone`. -/
  | zoneFreeNoZone
  /-- `__page_alloc_zone_free`: `begin < zone->begin || begin >= zone->end`. -/
  | zoneFreeBegin
  /-- `__page_alloc_zone_free`: `end <= zone->begin || end > zone->end`. -/
  | zoneFreeEnd
  /-- `__page_alloc_zone`: `list_empty(&zone->order[current])`. -/
  | zoneAllocEmpty
  /-- `__page_free_zone`: `idx & ((1ull << order) - 1)`. -/
  | zoneFreeUnaligned
  /-- `page_free`: `!zone`. -/
  | pageFreeNoZone
  /-- `balloc_alloc_node`: `list_empty(&balloc_free_list)`. -/
  | ballocNoNode
  /-- `balloc_parse_mmap`: `(info->flags & (1ul << 6)) == 0`. -/
  | ballocNoMmap
  /-- `thread_alloc`: `"stack allocation failed"`. -/
  | threadNoStack
  /-- `thread_alloc`: `thread == 0`. -/
  | threadNoMemory
  /-- `force_schedule`: `preempt_cnt != 0`. -/
  | forceSchedulePreempt
  /-- `idle`: `idle_thread`. -/
  | idleTwice
  /-- `pml_shift`: `level < 1 || level > 4`. -/
  | pmlShift
  /-- `pml_offs`: `level > 4`. -/
  | pmlOffs
  /-- `pml_size`: `level < 1 || level > 4`. -/
  | pmlSize
  /-- `__pt_map_pages`: `lvl == 1`, the entry is absent and the page cannot be mapped by it. -/
  | ptMapNoLeaf
  /-- `__pt_map_pages`: `!page`. -/
  | ptMapNoPage
  /-- `__pt_map_pages`: `lvl == 1`, the entry is present. -/
  | ptMapPresent
  /-- `pt_map_pages` and `pt_populate_pages`: `begin & PAGE_MASK`. -/
  | ptMapBegin
  /-- `pt_map_pages` and `pt_populate_pages`: `end & PAGE_MASK`. -/
  | ptMapEnd
  /-- `paging_setup_get_page`: `"Not enough free memory to setup initial page table"`. -/
  | pagingSetupNoPage
  /-- `kmap_setup_get_page`: `!addr`. -/
  | kmapSetupNoPage
  /-- `kmap_setup`: `!kmap_ranges`. -/
  | kmapSetupNoRanges
  /-- `mem_pool_destroy`: `pool->free != cache->obj_count`. -/
  | poolDestroyBusy
  /-- `mem_pool_alloc`: `!pool->free`. -/
  | poolAllocFull
  /-- `mem_pool_alloc`: `"Failed to find free slot in mem_pool"`. -/
  | poolAllocNoSlot
  /-- `mem_pool_free`: `pos >= cache->obj_count`. -/
  | poolFreePos
  /-- `mem_pool_free`: `!(pool->bitmask[word] & (1ull << bit))`. -/
  | poolFreeBit
  /-- `mem_pool_free`: `pool->free > cache->obj_count`. -/
  | poolFreeCount
  deriving DecidableEq, Repr

/-- How a call ends when it does not return. -/
inductive Stop where
  | bug (b : Bug)
  | fault
  | hang
  deriving DecidableEq, Repr

/-- The result of a function that may stop the kernel. -/
abbrev Res (α : Type) := Except Stop α

/-- `BUG_ON(c)`. -/
def bugOn (c : Prop) [Decidable c] (b : Bug) : Res Unit :=
  if c then .error (.bug b) else .ok ()

section Res

variable {α β : Type}

@[simp] theorem ok_bind (a : α) (f : α → Res β) : ((.ok a : Res α) >>= f) = f a := rfl

@[simp] theorem pure_eq_ok (a : α) : (pure a : Res α) = .ok a := rfl

@[simp] theorem error_bind (e : Stop) (f : α → Res β) : ((.error e : Res α) >>= f) = .error e := rfl

theorem bind_eq_ok {x : Res α} {f : α → Res β} {b : β} :
    (x >>= f) = .ok b ↔ ∃ a, x = .ok a ∧ f a = .ok b := by
  cases x with
  | error e => simp
  | ok a => simp

@[simp] theorem bugOn_neg {c : Prop} [Decidable c] {b : Bug} (h : ¬ c) : bugOn c b = .ok () :=
  if_neg h

end Res

end AuOs
