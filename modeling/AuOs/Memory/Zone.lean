import Mathlib
import AuOs.Lib.Dyadic
import AuOs.Memory.Page

/-!
# The buddy allocator of one zone

Reference model of `__page_alloc_zone`, `__page_free_zone` and of the loop of
`__page_alloc_zone_free` of `memory.c`.

* `Zone` — `struct page_alloc_zone`.  A `struct page *` is the number of the page it describes:
  the pointer `zone->pages + (idx - zone->begin)` is `idx`.  The circular lists `order[k]` are
  lists of such pointers, in list order.
* `listAdd`, `listAddTail`, `listDel` — the operations of `list.c` on these lists.  Linking a linked
  descriptor or unlinking an unlinked one corrupts memory in C and is a `fault` here.
* `pageAllocZone`, `pageFreeZone`, `releaseLoop` — the three functions.  Their loops take fuel, and
  run out of it with `hang`.
-/

set_option autoImplicit false

namespace AuOs

open DyadicTiling

/-- `struct page_alloc_zone`.  `pages` is indexed by page number, `begin_ ≤ i < end_`. -/
structure Zone where
  begin_ : Nat
  end_ : Nat
  order : Nat → List Nat
  pages : Nat → Page

namespace Zone

/-- A zone of `[begin_, end_)` whose lists were initialised and whose descriptors read as zero. -/
def zeroed (begin_ end_ : Nat) : Zone := ⟨begin_, end_, fun _ => [], fun _ => Page.zero⟩

/-- The page belongs to the zone. -/
def contains (zone : Zone) (idx : Nat) : Bool := decide (zone.begin_ ≤ idx ∧ idx < zone.end_)

theorem contains_iff {zone : Zone} {idx : Nat} :
    zone.contains idx = true ↔ zone.begin_ ≤ idx ∧ idx < zone.end_ := decide_eq_true_iff

/-- Replace a descriptor. -/
def setPage (zone : Zone) (idx : Nat) (page : Page) : Zone :=
  { zone with pages := Function.update zone.pages idx page }

/-- Replace a list. -/
def setOrder (zone : Zone) (order : Nat) (l : List Nat) : Zone :=
  { zone with order := Function.update zone.order order l }

/-- `&zone->pages[idx - zone->begin]` is dereferenced. -/
def access (zone : Zone) (idx : Nat) : Res Unit :=
  if zone.contains idx then .ok () else .error .fault

/-- The descriptor is linked in one of the lists. -/
def linked (zone : Zone) (idx : Nat) : Bool :=
  (List.range (MAX_ORDER + 1)).any fun order => decide (idx ∈ zone.order order)

end Zone

/-- `list_add(&page->ll, &zone->order[order])`. -/
def listAdd (zone : Zone) (page order : Nat) : Res Zone :=
  if zone.linked page then .error .fault
  else .ok (zone.setOrder order (page :: zone.order order))

/-- `list_add_tail(&page->ll, &zone->order[order])`. -/
def listAddTail (zone : Zone) (page order : Nat) : Res Zone :=
  if zone.linked page then .error .fault
  else .ok (zone.setOrder order (zone.order order ++ [page]))

/-- `list_del(&page->ll)`: the descriptor leaves whichever list it is in. -/
def listDel (zone : Zone) (page : Nat) : Res Zone :=
  if zone.linked page then .ok { zone with order := fun order => (zone.order order).erase page }
  else .error .fault

/-- `page_set_order(page, order); page_set_free(page)`. -/
def markFree (zone : Zone) (page order : Nat) : Res Zone := do
  zone.access page
  let desc ← pageSetOrder (zone.pages page) order
  return zone.setPage page (pageSetFree desc)

/-! ## `__page_alloc_zone` -/

/-- `while (list_empty(&zone->order[current]) && current <= MAX_ORDER) ++current;`

When every list is empty the condition is evaluated once more with `current = MAX_ORDER + 1`: the
element behind the array is read, and the second operand ends the loop whatever was read. -/
def scanOrder (zone : Zone) : Nat → Nat → Nat
  | 0, current => current
  | fuel + 1, current =>
    if zone.order current = [] ∧ current ≤ MAX_ORDER then scanOrder zone fuel (current + 1)
    else current

/-- `while (current != order)`: halve the block at `idx`, the upper half goes to a list. -/
def splitLoop (zone : Zone) (idx order : Nat) : Nat → Res Zone
  | 0 => if 0 = order then .ok zone else .error .fault
  | current + 1 =>
    if current + 1 = order then .ok zone
    else do
      let bidx := idx ^^^ 2 ^ current
      zone.access bidx
      let zone ← listAdd zone bidx current
      let zone ← markFree zone bidx current
      splitLoop zone idx order current

/-- `__page_alloc_zone`. -/
def pageAllocZone (zone : Zone) (order : Nat) : Res (Zone × Option Nat) := do
  let current := scanOrder zone (MAX_ORDER + 2) order
  if current > MAX_ORDER then return (zone, none)
  bugOn (zone.order current = []) .zoneAllocEmpty
  match zone.order current with
  | [] => .error .fault
  | idx :: _ =>
    zone.access idx
    let zone := zone.setPage idx (pageSetBusy (zone.pages idx))
    let zone ← listDel zone idx
    let zone ← splitLoop zone idx order current
    return (zone, some idx)

/-! ## `__page_free_zone` -/

/-- `while (order < MAX_ORDER)`: absorb the buddy as long as it is free.  Returns the head of the
merged block and its order; `page` and `idx` of the source move together. -/
def mergeLoop : Nat → Zone → Nat → Nat → Res (Zone × Nat × Nat)
  | 0, _, _, _ => .error .hang
  | fuel + 1, zone, idx, order =>
    if order < MAX_ORDER then
      let bidx := idx ^^^ 2 ^ order
      if bidx < zone.begin_ ∨ bidx ≥ zone.end_ then .ok (zone, idx, order)
      else if pageIsFree (zone.pages bidx) = false ∨ pageOrder (zone.pages bidx) ≠ order then
        .ok (zone, idx, order)
      else do
        let zone' ← listDel zone bidx
        mergeLoop fuel zone' (if bidx < idx then bidx else idx) (order + 1)
    else .ok (zone, idx, order)

/-- `__page_free_zone`. -/
def pageFreeZone (zone : Zone) (idx order : Nat) : Res Zone := do
  bugOn (idx % 2 ^ order ≠ 0) .zoneFreeUnaligned
  let (zone, idx, order) ← mergeLoop (MAX_ORDER + 1) zone idx order
  let zone ← listAdd zone idx order
  markFree zone idx order

/-! ## The loop of `__page_alloc_zone_free` -/

/-- `for (order = 0; order < MAX_ORDER; ++order)` with its two breaks: the largest order a block at
`page` can have inside `[page, end_)`. -/
def releaseOrder (page end_ : Nat) : Nat → Nat → Nat
  | 0, order => order
  | fuel + 1, order =>
    if order < MAX_ORDER then
      if page.testBit order then order
      else if page + 2 ^ (order + 1) > end_ then order
      else releaseOrder page end_ fuel (order + 1)
    else order

/-- `for (uintptr_t page = begin; page != end;)`. -/
def releaseLoop (end_ : Nat) : Nat → Zone → Nat → Res Zone
  | 0, _, _ => .error .hang
  | fuel + 1, zone, page =>
    if page = end_ then .ok zone
    else do
      let order := releaseOrder page end_ (MAX_ORDER + 1) 0
      zone.access page
      let zone ← listAddTail zone page order
      let zone ← markFree zone page order
      releaseLoop end_ fuel zone (page + 2 ^ order)

/-! ## The blocks in the lists -/

/-- The blocks linked in the zone's lists. -/
def freeList (zone : Zone) : List Block :=
  (List.range (MAX_ORDER + 1)).flatMap fun order => (zone.order order).map (Block.mk · order)

theorem mem_freeList {zone : Zone} {b : Block} :
    b ∈ freeList zone ↔ b.order ≤ MAX_ORDER ∧ b.start ∈ zone.order b.order := by
  simp only [freeList, List.mem_flatMap, List.mem_range, List.mem_map]
  constructor
  · rintro ⟨order, ho, start, hs, rfl⟩
    exact ⟨Nat.le_of_lt_succ ho, hs⟩
  · rintro ⟨ho, hs⟩
    exact ⟨b.order, Nat.lt_succ_of_le ho, b.start, hs, rfl⟩

@[simp] theorem freeList_setPage (zone : Zone) (idx : Nat) (page : Page) :
    freeList (zone.setPage idx page) = freeList zone := rfl

theorem linked_iff {zone : Zone} {idx : Nat} :
    zone.linked idx = true ↔ ∃ b ∈ freeList zone, b.start = idx := by
  simp only [Zone.linked, List.any_eq_true, List.mem_range, decide_eq_true_eq]
  constructor
  · rintro ⟨order, ho, hi⟩
    exact ⟨⟨idx, order⟩, mem_freeList.mpr ⟨Nat.le_of_lt_succ ho, hi⟩, rfl⟩
  · rintro ⟨b, hb, rfl⟩
    obtain ⟨ho, hi⟩ := mem_freeList.mp hb
    exact ⟨b.order, Nat.lt_succ_of_le ho, hi⟩

/-- Adding an entry to one member of a family of lists adds it to their concatenation. -/
theorem flatMap_update_perm {β : Type} {l : List Nat} (hl : l.Nodup) {o : Nat} (ho : o ∈ l)
    {f : Nat → List β} {ys : List β} {x : β} (hys : ys.Perm (x :: f o)) :
    (l.flatMap (Function.update f o ys)).Perm (x :: l.flatMap f) := by
  obtain ⟨l₁, l₂, rfl⟩ := List.append_of_mem ho
  have hn := List.nodup_append.mp hl
  have h₁ : ∀ k ∈ l₁, Function.update f o ys k = f k := fun k hk =>
    Function.update_of_ne (hn.2.2 k hk o List.mem_cons_self) ..
  have h₂ : ∀ k ∈ l₂, Function.update f o ys k = f k := fun k hk =>
    Function.update_of_ne (fun e => (List.nodup_cons.mp hn.2.1).1 (by rwa [← e])) ..
  simp only [List.flatMap_append, List.flatMap_cons, Function.update_self, List.flatMap_congr h₁,
    List.flatMap_congr h₂]
  refine ((hys.append_right _).append_left _).trans ?_
  rw [List.cons_append]
  exact List.perm_middle

theorem freeList_setOrder {zone : Zone} {idx order : Nat} {l : List Nat} (ho : order ≤ MAX_ORDER)
    (hl : l.Perm (idx :: zone.order order)) :
    (freeList (zone.setOrder order l)).Perm (⟨idx, order⟩ :: freeList zone) := by
  have hf : (fun k => ((zone.setOrder order l).order k).map (Block.mk · k)) =
      Function.update (fun k => (zone.order k).map (Block.mk · k)) order
        (l.map (Block.mk · order)) := by
    funext k
    by_cases hk : k = order
    · subst hk; simp [Zone.setOrder]
    · simp [Zone.setOrder, hk]
  rw [freeList, hf]
  refine flatMap_update_perm List.nodup_range (List.mem_range.mpr (Nat.lt_succ_of_le ho)) ?_
  exact hl.map (Block.mk · order)

/-- Unlinking a block whose head is in no other list. -/
theorem freeList_listDel {zone : Zone} {b : Block} (hb : b ∈ freeList zone)
    (hu : ∀ c ∈ freeList zone, c.start = b.start → c = b) :
    ∃ zone', listDel zone b.start = .ok zone' ∧ (freeList zone).Perm (b :: freeList zone') ∧
      zone' = { zone with order := zone'.order } := by
  obtain ⟨ho, hm⟩ := mem_freeList.mp hb
  refine ⟨_, if_pos (linked_iff.mpr ⟨b, hb, rfl⟩), ?_, rfl⟩
  generalize hz : ({ zone with order := fun o => (zone.order o).erase b.start } : Zone) = zone'
  have hsame : freeList zone = freeList (zone'.setOrder b.order (zone.order b.order)) := by
    rw [freeList, freeList]
    refine List.flatMap_congr fun k hk => ?_
    by_cases hkb : k = b.order
    · subst hkb; simp [Zone.setOrder]
    · have hnot : b.start ∉ zone.order k := fun hm' => by
        have hk' : k ≤ MAX_ORDER := Nat.le_of_lt_succ (List.mem_range.mp hk)
        have := hu ⟨b.start, k⟩ (mem_freeList.mpr ⟨hk', hm'⟩) rfl
        exact hkb (congrArg Block.order this)
      simp [Zone.setOrder, hkb, ← hz, List.erase_of_not_mem hnot]
  rw [hsame]
  refine freeList_setOrder ho ?_
  rw [← hz]
  exact List.perm_cons_erase hm

end AuOs
