import Mathlib
import AuOs.Memory.Zones
import AuOs.Paging.Tables
import AuOs.Paging.KmapRanges

/-!
# `kmap` and `kunmap`

Reference model of the last part of `paging.c`.  `cr3` never changes while it runs, so `pml4` is an
argument.  Flushing the TLB and the spinlock leave the modelled state alone.

* `kmap`, `kunmap` — `__kmap` and `__kunmap`.  The pages are given by their numbers.
* `kmapSetupPool`, `kmapSetup` — `kmap_setup` and the pool it populates the region from.  What
  `mem_alloc` returned for the array is an argument: null, or a block with any contents.
-/

set_option autoImplicit false

namespace AuOs

def MAX_PMEM_SIZE : Nat := 0x00007fff00000000

/-- The tables and the ranges. -/
structure Kmap where
  mem : PageTables
  ranges : KmapRanges

/-- `addr_kmap`. -/
def addrKmap (addr : Nat) : Nat := (addr - KMAP_BEGIN) >>> PAGE_SHIFT

/-- `kmap_addr`. -/
def kmapAddr (range : Nat) : Nat := KMAP_BEGIN + (range <<< PAGE_SHIFT)

/-! ## `__kmap` -/

/-- `for (addr = from; addr != to; addr += PAGE_SIZE)`, on the pages that are left. -/
def kmapLoop (zones : List Zone) (pml4 to_ : Nat) : List Nat → Nat → Paging Unit → Res (Paging Unit)
  | [], addr, s => if addr = to_ then .ok s else .error .fault
  | page :: pages, addr, s =>
    if addr = to_ then .ok s
    else do
      let phys ← pageAddr zones page
      let s ← ptMapPages pml4 addr ((addr + PAGE_SIZE) % WORD) phys PTE_WRITE none s
      kmapLoop zones pml4 to_ pages ((addr + PAGE_SIZE) % WORD) s

/-- `__kmap`; `count` is the number of pages. -/
def kmap (zones : List Zone) (pml4 : Nat) (pages : List Nat) (k : Kmap) : Res (Kmap × Nat) :=
  match pages with
  | [] => .ok (k, 0)
  | [page] => do
    let phys ← pageAddr zones page
    return (k, va phys)
  | pages => do
    let (ranges, range) ← kmapAllocRange k.ranges pages.length
    match range with
    | none => return ({ k with ranges }, 0)
    | some range =>
      let from_ := kmapAddr range
      let s ← kmapLoop zones pml4 ((from_ + pages.length * PAGE_SIZE) % WORD) pages from_
        ⟨k.mem, ()⟩
      return (⟨s.mem, ranges⟩, kmapAddr range)

/-! ## `__kunmap` -/

/-- `for (int l = 4; l > 0; --l)`: the table and the index of the last-level entry of `addr`.
Whether the entries on the way are present is not looked at. -/
def ptePlace (mem : PageTables) (addr : Nat) : Nat → Pte → Res (Nat × Nat)
  | 0, _ => .error .fault
  | l + 1, pte => do
    let next := (pte &&& PTE_PHYS_MASK).toNat
    let index ← pmlOffs addr (l + 1)
    if l = 0 then return (next, index) else ptePlace mem addr l (mem next index)

/-- `for (addr = from; addr != to; addr += PAGE_SIZE)`. -/
def kunmapLoop (pml4 to_ : Nat) : Nat → Nat → PageTables → Res PageTables
  | 0, _, _ => .error .hang
  | fuel + 1, addr, mem =>
    if addr = to_ then .ok mem
    else do
      let (table, index) ← ptePlace mem addr 4 (BitVec.ofNat 64 pml4)
      kunmapLoop pml4 to_ fuel ((addr + PAGE_SIZE) % WORD) (Radix.put mem table index 0)

/-- `__kunmap`. -/
def kunmap (pml4 ptr : Nat) (k : Kmap) : Res Kmap :=
  if ptr < KMAP_BEGIN ∨ ptr ≥ KMAP_END then .ok k
  else do
    let range := addrKmap ptr
    let slot ← k.ranges.get range
    let count := slot.pages
    let mem ← kunmapLoop pml4 ((ptr + count * PAGE_SIZE) % WORD) (count + 1) ptr k.mem
    let ranges ← kmapFreeRange k.ranges range slot.pages
    return ⟨mem, ranges⟩

/-! ## `kmap_setup` -/

/-- The pool of `kmap_setup`: `kmap_setup_get_page`. -/
def kmapSetupPool : PagePool (List Zone) where
  get_page s := do
    let (zones, addr) ← pageAlloc s.pages 0
    bugOn (addr = 0) .kmapSetupNoPage
    return (addr, { s.clear addr with pages := zones })

/-- `kmap_setup`; `array` is what `mem_alloc(size * KMAP_PAGES)` returns. -/
def kmapSetup (pml4 : Nat) (array : Option (Nat → KmapRange))
    (s : Paging (List Zone)) : Res Kmap := do
  let s ← ptPopulatePages pml4 KMAP_BEGIN KMAP_END (some kmapSetupPool) s
  match array with
  | none => .error (.bug .kmapSetupNoRanges)
  | some slots =>
    let ranges ← kmapRangesSetup slots
    return ⟨s.mem, ranges⟩

end AuOs
