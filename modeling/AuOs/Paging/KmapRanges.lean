import Mathlib
import AuOs.Base

/-!
# The ranges of the kmap region

Reference model of the range allocator of `paging.c`.

* `KmapRanges` — the array `kmap_ranges` and the lists `kmap_free_ranges`.  A `struct kmap_range *`
  is the number of its slot; the lists hold such numbers, in list order.
* `KmapLink` — where the links of a slot point.  `list_empty` asks for the first case only.
* `kmapOrder`, `kmapFindFree`, `kmapFreeRange`, `kmapAllocRange` — the functions of the source.  A
  slot outside the array, or a link that cannot be followed, is a `fault`.
-/

set_option autoImplicit false

namespace AuOs

def VIRTUAL_BASE : Nat := 0xffffffff80000000

def KMAP_SIZE : Nat := 0x080000000

def KMAP_BEGIN : Nat := VIRTUAL_BASE - KMAP_SIZE

def KMAP_END : Nat := VIRTUAL_BASE

def KMAP_PAGES : Nat := KMAP_SIZE >>> PAGE_SHIFT

def KMAP_ORDERS : Nat := 16

/-- Where the links of a slot point: to the slot, nowhere, or elsewhere. -/
inductive KmapLink where
  | self
  | null
  | other
  deriving DecidableEq, Repr

/-- `struct kmap_range`. -/
structure KmapRange where
  ll : KmapLink
  pages : Nat
  deriving DecidableEq, Repr

/-- `kmap_ranges`, of `KMAP_PAGES` slots, and `kmap_free_ranges`. -/
structure KmapRanges where
  slots : Nat → KmapRange
  free : Nat → List Nat

namespace KmapRanges

/-- A slot is read. -/
def get (k : KmapRanges) (range : Nat) : Res KmapRange :=
  if range < KMAP_PAGES then .ok (k.slots range) else .error .fault

/-- `range->pages = pages`. -/
def setPages (k : KmapRanges) (range pages : Nat) : Res KmapRanges :=
  if range < KMAP_PAGES then
    .ok { k with slots := Function.update k.slots range { k.slots range with pages := pages } }
  else .error .fault

def setLink (k : KmapRanges) (range : Nat) (ll : KmapLink) : KmapRanges :=
  { k with slots := Function.update k.slots range { k.slots range with ll := ll } }

/-- The slot is linked in one of the lists. -/
def linked (k : KmapRanges) (range : Nat) : Bool :=
  (List.range KMAP_ORDERS).any fun order => decide (range ∈ k.free order)

/-- `list_empty(&range->ll)`. -/
def listEmpty (k : KmapRanges) (range : Nat) : Res Bool := do
  let slot ← k.get range
  return decide (slot.ll = .self)

/-- `list_init(&range->ll)`. -/
def listInit (k : KmapRanges) (range : Nat) : KmapRanges := k.setLink range .self

/-- `list_del(&range->ll)`: the slot leaves whichever list it is in, and its links become null. -/
def listDel (k : KmapRanges) (range : Nat) : Res KmapRanges := do
  let slot ← k.get range
  if k.linked range then
    return ({ k with free := fun order => (k.free order).erase range } : KmapRanges).setLink
      range .null
  else if slot.ll = .self then return k.setLink range .null
  else .error .fault

/-- `list_add(&range->ll, &kmap_free_ranges[order])`. -/
def listAdd (k : KmapRanges) (range order : Nat) : Res KmapRanges :=
  if k.linked range ∨ KMAP_ORDERS ≤ order then .error .fault
  else .ok (({ k with
      free := Function.update k.free order (range :: k.free order) } : KmapRanges).setLink
    range .other)

end KmapRanges

/-- The loop of `kmap_order`. -/
def kmapOrderLoop (pages : Nat) : Nat → Nat → Nat
  | 0, order => order
  | fuel + 1, order =>
    if 1 <<< order < pages ∧ order ≠ KMAP_ORDERS then kmapOrderLoop pages fuel (order + 1)
    else order

/-- `kmap_order`. -/
def kmapOrder (pages : Nat) : Nat := kmapOrderLoop pages KMAP_ORDERS 0

/-- `kmap_find_free`. -/
def kmapFindFree (k : KmapRanges) (order pages : Nat) : Option Nat :=
  (k.free order).find? fun range => decide (pages ≤ (k.slots range).pages)

/-- The first half of `kmap_free_range`: the range before is absorbed if it is free. -/
def kmapMergePrev (k : KmapRanges) (range pages : Nat) : Res (KmapRanges × Nat × Nat) :=
  if range > 0 then do
    let tag ← k.get (range - 1)
    if range < tag.pages then .error .fault
    else do
      let prev := range - tag.pages
      if (← k.listEmpty prev) = false then
        let k ← k.listDel prev
        let slot ← k.get prev
        return (k, prev, pages + slot.pages)
      else return (k, range, pages)
  else .ok (k, range, pages)

/-- The second half: the range behind is absorbed if it is free. -/
def kmapMergeNext (k : KmapRanges) (range pages : Nat) : Res (KmapRanges × Nat) :=
  if range + pages < KMAP_PAGES then do
    let next := range + pages
    if (← k.listEmpty next) = false then
      let k ← k.listDel next
      let slot ← k.get next
      return (k, pages + slot.pages)
    else return (k, pages)
  else .ok (k, pages)

/-- `kmap_free_range`. -/
def kmapFreeRange (k : KmapRanges) (range pages : Nat) : Res KmapRanges := do
  let (k, range, pages) ← kmapMergePrev k range pages
  let (k, pages) ← kmapMergeNext k range pages
  let k ← k.setPages range pages
  let k ← k.setPages (range + pages - 1) pages
  k.listAdd range (kmapOrder (pages + 1) - 1)

/-- The loop of `kmap_alloc_range` over the orders from `order` on. -/
def kmapSearch (k : KmapRanges) (pages : Nat) : Nat → Nat → Option Nat
  | 0, _ => none
  | fuel + 1, order =>
    if order = KMAP_ORDERS then none
    else
      match kmapFindFree k order pages with
      | some range => some range
      | none => kmapSearch k pages fuel (order + 1)

/-- The range `kmap_alloc_range` settles on. -/
def kmapChoose (k : KmapRanges) (pages : Nat) : Res (Option Nat) :=
  let start := kmapOrder pages
  match kmapSearch k pages (KMAP_ORDERS + 1) start with
  | some range => .ok (some range)
  | none =>
    if 1 <<< start > pages then
      if start = 0 then .error .fault else .ok (kmapFindFree k (start - 1) pages)
    else .ok none

/-- `kmap_alloc_range`. -/
def kmapAllocRange (k : KmapRanges) (pages : Nat) : Res (KmapRanges × Option Nat) := do
  match ← kmapChoose k pages with
  | none => return (k, none)
  | some range =>
    let slot ← k.get range
    let rangePages := slot.pages
    let k ← k.listDel range
    let k := k.listInit range
    let k ← k.setPages range pages
    let k ← k.setPages (range + pages - 1) pages
    if rangePages > pages then
      let k ← kmapFreeRange k (range + pages) (rangePages - pages)
      return (k, some range)
    else return (k, some range)

/-- The part of `kmap_setup` that concerns the ranges, on an array with any contents. -/
def kmapRangesSetup (slots : Nat → KmapRange) : Res KmapRanges :=
  kmapFreeRange ⟨slots, fun _ => []⟩ 0 KMAP_PAGES

end AuOs
