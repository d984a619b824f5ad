import Mathlib
import AuOs.Rbtree.Valid

/-!
# The bootstrap allocator

Reference model of `balloc.c`.

* `Balloc` — the node pool with its free list and the two trees.  A `struct memory_node *` is its
  index in `balloc_nodes`; the key of a node may be changed while the node is linked.
* `ballocFreeNode` — the free list shares its links with the trees: freeing a node that is still
  linked somewhere destroys that list or tree and is a `fault`.
* `addRange`, `removeRange`, `ballocAllocRaw`, `ballocAlloc` — `__balloc_add_range`,
  `__balloc_remove_range`, `__balloc_alloc` and `balloc_alloc`.
-/

set_option autoImplicit false

namespace AuOs

def BALLOC_MAX_RANGES : Nat := 128

def UINTPTR_MAX : Nat := WORD - 1

/-- `begin` and `end` of `struct memory_node`. -/
structure MemoryNode where
  begin_ : Nat
  end_ : Nat
  deriving DecidableEq, Repr

/-- `&memory_map` or `&free_ranges`. -/
inductive Which where
  | memoryMap
  | freeRanges
  deriving DecidableEq, Repr

structure Balloc where
  nodes : Nat → MemoryNode
  freeList : List Nat
  tree : Which → RbTree Nat

namespace Balloc

def setNode (s : Balloc) (id : Nat) (node : MemoryNode) : Balloc :=
  { s with nodes := Function.update s.nodes id node }

def setTree (s : Balloc) (w : Which) (t : RbTree Nat) : Balloc :=
  { s with tree := Function.update s.tree w t }

/-- The nodes of a tree in order. -/
def ids (s : Balloc) (w : Which) : List Nat := (s.tree w).toList

/-- The ranges of a tree in order. -/
def ranges (s : Balloc) (w : Which) : List MemoryNode := (s.ids w).map s.nodes

end Balloc

/-- `balloc_alloc_node`. -/
def ballocAllocNode (s : Balloc) : Res (Balloc × Nat) :=
  match s.freeList with
  | [] => .error (.bug .ballocNoNode)
  | node :: rest => .ok ({ s with freeList := rest }, node)

/-- `balloc_free_node`. -/
def ballocFreeNode (s : Balloc) (node : Nat) : Res Balloc :=
  if node ∈ s.freeList ∨ node ∈ s.ids .memoryMap ∨ node ∈ s.ids .freeRanges then .error .fault
  else .ok { s with freeList := node :: s.freeList }

/-- `rb_erase(&node->link.rb, tree)` -/
def unlinkNode (s : Balloc) (w : Which) (node : Nat) : Res Balloc := do
  let t ← rbErase (s.tree w) node
  return s.setTree w t

/-! ## `__balloc_add_range` -/

/-- The descent to the slot of `from` and the insertion of the new node. -/
def linkRange (s : Balloc) (w : Which) (from_ to_ : Nat) : Res (Balloc × Nat) := do
  let slot := descend (fun node => decide ((s.nodes node).begin_ < from_)) [] (s.tree w)
  let (s, new) ← ballocAllocNode s
  let s := s.setNode new ⟨from_, to_⟩
  let t ← rbInsert slot (rbLink new)
  return (s.setTree w t, new)

/-- `if (prev && prev->end >= new->begin)`: the new node takes over its predecessor. -/
def absorbPrev (s : Balloc) (w : Which) (new : Nat) : Res Balloc := do
  let prev ← rbPrev (s.tree w) new
  match prev with
  | none => return s
  | some prev =>
    if (s.nodes prev).end_ ≥ (s.nodes new).begin_ then do
      let end_ := if (s.nodes prev).end_ > (s.nodes new).end_ then (s.nodes prev).end_
        else (s.nodes new).end_
      let s := s.setNode new ⟨(s.nodes prev).begin_, end_⟩
      let s ← unlinkNode s w prev
      ballocFreeNode s prev
    else return s

/-- `if (next && next->begin <= new->end)`: the new node takes over its successor. -/
def absorbNext (s : Balloc) (w : Which) (new : Nat) : Res Balloc := do
  let next ← rbNext (s.tree w) new
  match next with
  | none => return s
  | some next =>
    if (s.nodes next).begin_ ≤ (s.nodes new).end_ then do
      let s := s.setNode new ⟨(s.nodes new).begin_, (s.nodes next).end_⟩
      let s ← unlinkNode s w next
      ballocFreeNode s next
    else return s

/-- `__balloc_add_range`. -/
def addRange (s : Balloc) (w : Which) (from_ to_ : Nat) : Res Balloc := do
  let (s, new) ← linkRange s w from_ to_
  let s ← absorbPrev s w new
  absorbNext s w new

/-! ## `__balloc_remove_range` and `__balloc_alloc` -/

/-- The lines that `__balloc_remove_range` and `__balloc_alloc` share: unlink `ptr`, put back what
lies before `lo` and what lies after `hi`, recycle `ptr`. -/
def cutNode (s : Balloc) (w : Which) (ptr lo hi : Nat) : Res Balloc := do
  let s ← unlinkNode s w ptr
  let s ← (if (s.nodes ptr).begin_ < lo then addRange s w (s.nodes ptr).begin_ lo else .ok s)
  let s ← (if (s.nodes ptr).end_ > hi then addRange s w hi (s.nodes ptr).end_ else .ok s)
  ballocFreeNode s ptr

/-- The first node that ends after `from`. -/
def firstAfter (s : Balloc) (w : Which) (from_ : Nat) : Option Nat :=
  lowerBound (fun node => decide ((s.nodes node).end_ > from_)) none (s.tree w)

/-- `while (ptr && ptr->begin < to)` of `__balloc_remove_range`. -/
def removeLoop (w : Which) (from_ to_ : Nat) : Nat → Balloc → Option Nat → Res Balloc
  | 0, _, _ => .error .hang
  | _ + 1, s, none => .ok s
  | fuel + 1, s, some ptr =>
    if (s.nodes ptr).begin_ < to_ then do
      let next ← rbNext (s.tree w) ptr
      let s ← cutNode s w ptr from_ to_
      removeLoop w from_ to_ fuel s next
    else .ok s

/-- `__balloc_remove_range`. -/
def removeRange (s : Balloc) (w : Which) (from_ to_ : Nat) : Res Balloc :=
  removeLoop w from_ to_ (BALLOC_MAX_RANGES + 1) s (firstAfter s w from_)

/-- `(b + mask) & ~mask` with `mask = align - 1`, all of it in 64 bits. -/
def alignAddr (b align : Nat) : Nat :=
  let mask := (align + WORD - 1) % WORD
  ((b + mask) % WORD) &&& (WORD - 1 - mask)

/-- `while (ptr && ptr->begin < to)` of `__balloc_alloc`. -/
def allocRangeLoop (size align from_ to_ : Nat) : Nat → Balloc → Option Nat → Res (Balloc × Nat)
  | 0, _, _ => .error .hang
  | _ + 1, s, none => .ok (s, to_)
  | fuel + 1, s, some ptr =>
    if (s.nodes ptr).begin_ < to_ then
      let b := if (s.nodes ptr).begin_ > from_ then (s.nodes ptr).begin_ else from_
      let e := if (s.nodes ptr).end_ < to_ then (s.nodes ptr).end_ else to_
      let addr := alignAddr b align
      if (addr + size) % WORD ≤ e then do
        let s ← cutNode s .freeRanges ptr addr ((addr + size) % WORD)
        return (s, addr)
      else do
        let next ← rbNext (s.tree .freeRanges) ptr
        allocRangeLoop size align from_ to_ fuel s next
    else .ok (s, to_)

/-- `__balloc_alloc`: an address, or `to` when there is no room. -/
def ballocAllocRaw (s : Balloc) (size align from_ to_ : Nat) : Res (Balloc × Nat) :=
  allocRangeLoop size align from_ to_ (BALLOC_MAX_RANGES + 1) s (firstAfter s .freeRanges from_)

/-- The alignment `balloc_alloc` chooses. -/
def ballocAlign (size : Nat) : Nat :=
  if size ≤ 8 then 8 else if size ≤ 16 then 16 else if size ≤ 32 then 32 else 64

/-- `balloc_alloc`. -/
def ballocAlloc (s : Balloc) (size from_ to_ : Nat) : Res (Balloc × Nat) :=
  ballocAllocRaw s size (ballocAlign size) from_ to_

/-- `balloc_free`. -/
def ballocFree (s : Balloc) (begin_ end_ : Nat) : Res Balloc := addRange s .freeRanges begin_ end_

/-- `balloc_setup_nodes`, on trees that are empty. -/
def ballocSetupNodes : Balloc where
  nodes := fun _ => ⟨0, 0⟩
  freeList := (List.range BALLOC_MAX_RANGES).foldl (fun freeList node => node :: freeList) []
  tree := fun _ => RbTree.leaf

end AuOs
