import Mathlib
import AuOs.Base
import AuOs.Lib.Radix

/-!
# Page tables

Reference model of the page-table half of `paging.c`.

* `Pte`, `PageTables` — entries and tables.  A table is named by the physical address of its page;
  the pointer `va(page)` of the source is `page`.
* `pmlShift`, `pmlOffs`, `pmlSize` — the three functions of a level.
* `PagePool`, `poolGetPage` — `struct page_pool`; a null pool is `none`, and calling through it
  faults.
* `ptMapLvl` — `__pt_map_pages`; `ptMapEntry` is one turn of its loop.
* `ptMapPages`, `ptPopulatePages` — the entry points.
* `pageTable` — what the hardware makes of the tables: the walk, with 2MB and 1GB pages.
-/

set_option autoImplicit false

namespace AuOs

/-- `pte_t`. -/
abbrev Pte := BitVec 64

/-- `__PTE_PRESENT`. -/
def PTE_PRESENT : Pte := 1#64 <<< 0

/-- `__PTE_LARGE`. -/
def PTE_LARGE : Pte := 1#64 <<< 7

def PTE_WRITE : Pte := 1#64 <<< 1

def PTE_USER : Pte := 1#64 <<< 2

def PTE_PHYS_MASK : Pte := 0xffffffffff000#64

/-- The tables in memory, by the address of their page and the number of the entry. -/
abbrev PageTables := Nat → Nat → Pte

/-! ## Levels -/

/-- `pml_shift`. -/
def pmlShift (level : Nat) : Res Nat := do
  bugOn (level < 1 ∨ level > 4) .pmlShift
  return [0, 12, 21, 30, 39].getD level 0

/-- `pml_offs`. -/
def pmlOffs (addr level : Nat) : Res Nat := do
  bugOn (level > 4) .pmlOffs
  let shift ← pmlShift level
  return (addr >>> shift) &&& [0xfff, 0x1ff, 0x1ff, 0x1ff, 0x1ff].getD level 0

/-- `pml_size`. -/
def pmlSize (level : Nat) : Res Nat := do
  bugOn (level < 1 ∨ level > 4) .pmlSize
  let shift ← pmlShift level
  return 1 <<< shift

/-! ## `struct page_pool` -/

/-- The tables, and what the pool takes its pages from. -/
structure Paging (σ : Type) where
  mem : PageTables
  pages : σ

/-- `struct page_pool`.  `put_page` is never called. -/
structure PagePool (σ : Type) where
  get_page : Paging σ → Res (Nat × Paging σ)

section Map

variable {σ : Type}

/-- `pte[i] = pte`. -/
def Paging.put (s : Paging σ) (pml i : Nat) (pte : Pte) : Paging σ :=
  { s with mem := Radix.put s.mem pml i pte }

@[simp] theorem Paging.put_mem (s : Paging σ) (pml i : Nat) (pte : Pte) :
    (s.put pml i pte).mem = Radix.put s.mem pml i pte := rfl

/-- `memset(va(page), 0, PAGE_SIZE)`. -/
def Paging.clear (s : Paging σ) (page : Nat) : Paging σ :=
  { s with mem := Function.update s.mem page fun _ => 0 }

/-- `pool_get_page`. -/
def poolGetPage (pool : Option (PagePool σ)) (s : Paging σ) : Res (Nat × Paging σ) :=
  match pool with
  | none => .error .fault
  | some pool => pool.get_page s

/-! ## `__pt_map_pages` -/

/-- `((begin + size) & ~mask) - 1`. -/
def entryEnd (begin_ size : Nat) : Nat := ((begin_ + size) % WORD / size * size + WORD - 1) % WORD

/-- `map_end`. -/
def mapEnd (begin_ end_ size : Nat) : Nat :=
  if entryEnd begin_ size < end_ then entryEnd begin_ size else end_

/-- `pde_flags`. -/
def pdeFlags : Pte := PTE_PRESENT ||| PTE_WRITE ||| PTE_USER

/-- `pte_large`. -/
def pteLarge (flags : Pte) (lvl : Nat) : Pte := if lvl = 3 ∨ lvl = 2 then flags &&& PTE_LARGE else 0

/-- One turn of the loop: entry `i` of `pml` gets the addresses from `begin_` to `end_`, both
included.  `next` is the recursive call. -/
def ptMapEntry (next : Nat → Nat → Nat → Nat → Paging σ → Res (Paging σ)) (flags : Pte)
    (pool : Option (PagePool σ)) (lvl size pml i begin_ end_ phys : Nat) (s : Paging σ) :
    Res (Paging σ) := do
  let tomap := (end_ + WORD - begin_ + 1) % WORD
  let pte := s.mem pml i
  if pte &&& PTE_PRESENT = 0 then
    if lvl ≠ 4 ∧ tomap = size ∧ begin_ % size = 0 ∧ phys % size = 0 ∧
        (pteLarge flags lvl ≠ 0 ∨ lvl = 1) then
      return s.put pml i (BitVec.ofNat 64 phys ||| flags ||| pteLarge flags lvl)
    bugOn (lvl = 1) .ptMapNoLeaf
    let (page, s) ← poolGetPage pool s
    bugOn (page = 0) .ptMapNoPage
    let pte := BitVec.ofNat 64 page ||| pdeFlags
    next (pte &&& PTE_PHYS_MASK).toNat begin_ end_ phys (s.put pml i pte)
  else
    bugOn (lvl = 1) .ptMapPresent
    next (pte &&& PTE_PHYS_MASK).toNat begin_ end_ phys s

/-- `for (int i = from; i <= to; ++i)`: the number of turns left, then what the turns change. -/
def ptMapLoop (next : Nat → Nat → Nat → Nat → Paging σ → Res (Paging σ)) (flags : Pte)
    (pool : Option (PagePool σ)) (lvl size pml end_ : Nat) :
    Nat → Nat → Nat → Nat → Paging σ → Res (Paging σ)
  | 0, _, _, _, s => .ok s
  | turns + 1, i, begin_, phys, s => do
    let last := mapEnd begin_ end_ size
    let tomap := (last + WORD - begin_ + 1) % WORD
    let s ← ptMapEntry next flags pool lvl size pml i begin_ last phys s
    ptMapLoop next flags pool lvl size pml end_ turns (i + 1) ((begin_ + tomap) % WORD)
      ((phys + tomap) % WORD) s

/-- `__pt_map_pages`, for a table of the given level. -/
def ptMapLvl (flags : Pte) (pool : Option (PagePool σ)) :
    Nat → Nat → Nat → Nat → Nat → Paging σ → Res (Paging σ)
  | 0, _, _, _, _, _ => .error (.bug .pmlSize)
  | lvl + 1, pml, begin_, end_, phys, s => do
    let size ← pmlSize (lvl + 1)
    let from_ ← pmlOffs begin_ (lvl + 1)
    let to_ ← pmlOffs end_ (lvl + 1)
    ptMapLoop (ptMapLvl flags pool lvl) flags pool (lvl + 1) size pml end_ (to_ + 1 - from_) from_
      begin_ phys s

/-- `pt_map_pages`. -/
def ptMapPages (pml4 begin_ end_ phys : Nat) (flags : Pte) (pool : Option (PagePool σ))
    (s : Paging σ) : Res (Paging σ) := do
  bugOn (begin_ % PAGE_SIZE ≠ 0) .ptMapBegin
  bugOn (end_ % PAGE_SIZE ≠ 0) .ptMapEnd
  ptMapLvl (flags ||| PTE_PRESENT ||| PTE_LARGE ||| PTE_USER) pool 4 pml4 begin_
    ((end_ + WORD - 1) % WORD) phys s

/-- `pt_populate_pages`. -/
def ptPopulatePages (pml4 begin_ end_ : Nat) (pool : Option (PagePool σ)) (s : Paging σ) :
    Res (Paging σ) := do
  bugOn (begin_ % PAGE_SIZE ≠ 0) .ptMapBegin
  bugOn (end_ % PAGE_SIZE ≠ 0) .ptMapEnd
  ptMapLvl 0 pool 4 pml4 begin_ ((end_ + WORD - 1) % WORD) 0 s

end Map

/-! ## The walk -/

/-- What an address translates to. -/
structure Mapping where
  addr : Nat
  write : Bool
  user : Bool
  deriving DecidableEq, Repr

/-- The bytes one entry of a table of the level stands for. -/
@[irreducible] def lvlSize (lvl : Nat) : Nat := 2 ^ (12 + 9 * (lvl - 1))

/-- How the hardware reads an entry: it maps a page at level 1, and at levels 2 and 3 if it is
large. -/
def pteSlot (lvl : Nat) (pte : Pte) : RadixSlot Nat (Nat → Mapping) :=
  if pte &&& PTE_PRESENT = 0 then .absent
  else if lvl = 1 ∨ ((lvl = 2 ∨ lvl = 3) ∧ pte &&& PTE_LARGE ≠ 0) then
    .leaf fun v =>
      ⟨(pte &&& PTE_PHYS_MASK).toNat / lvlSize lvl * lvlSize lvl + v % lvlSize lvl,
        decide (pte &&& PTE_WRITE ≠ 0), decide (pte &&& PTE_USER ≠ 0)⟩
  else .table (pte &&& PTE_PHYS_MASK).toNat

/-- The page tables of the hardware. -/
def pageTable : Radix Nat Nat Pte Nat Mapping where
  index lvl v := v / lvlSize lvl % 512
  decode := pteSlot
  through pte m :=
    ⟨m.addr, m.write && decide (pte &&& PTE_WRITE ≠ 0), m.user && decide (pte &&& PTE_USER ≠ 0)⟩

/-- The 4-level walk from `cr3`. -/
def translate (mem : PageTables) (pml4 v : Nat) : Option Mapping := pageTable.walk mem 4 pml4 v

end AuOs
