import Mathlib
import AuOs.Lists
import AuOs.Rbtree.Domain
import AuOs.Rbtree.Steps
import AuOs.Balloc.Alloc

/-!
# The bootstrap allocator in memory

Reference model of `balloc.c` on the nodes in memory.  The free list and the two trees share the
words of the nodes: `link` is a union of a `struct list_head` and a `struct rb_node`.

* `BallocLayout` — where `balloc_nodes` and `balloc_free_list` are.
* `BallocMem` — the words `link`, the ranges and the two roots.
* `BallocMem.lists` — the same words as `struct list_head`: `next` is `left` and `prev` is `right`.
* `BallocMem.addRange`, `BallocMem.removeRange`, `BallocMem.allocRaw` — the functions, by way of
  `list_add`, `list_del`, `rb_link`, `rb_insert`, `rb_erase`, `rb_next` and `rb_prev` in memory.

The loops through the trees may turn `TREE_TURNS` times, and are a `hang` otherwise.
-/

set_option autoImplicit false

namespace AuOs

/-- `sizeof(struct memory_node)`. -/
def NODE_SIZE : Nat := 40

/-- The turns of a loop through a tree of `BALLOC_MAX_RANGES` nodes. -/
def TREE_TURNS : Nat := 2 * Nat.log 2 (BALLOC_MAX_RANGES + 1) + 2

/-- The addresses of `balloc_nodes` and of `balloc_free_list`. -/
structure BallocLayout where
  nodes : Nat
  freeList : Nat
  nodes_pos : 0 < nodes
  nodes_even : nodes % 2 = 0
  nodes_le : nodes + NODE_SIZE * BALLOC_MAX_RANGES ≤ WORD
  freeList_pos : 0 < freeList
  freeList_lt : freeList < WORD
  apart : freeList < nodes ∨ nodes + NODE_SIZE * BALLOC_MAX_RANGES ≤ freeList

namespace BallocLayout

/-- `&balloc_nodes[i]`, which is the address of its `link` as well. -/
def addr (L : BallocLayout) (i : Nat) : RbPtr := BitVec.ofNat 64 (L.nodes + NODE_SIZE * i)

/-- `&balloc_free_list` -/
def head (L : BallocLayout) : ListPtr := BitVec.ofNat 64 L.freeList

variable (L : BallocLayout) {i j : Nat}

theorem toNat_addr (hi : i < BALLOC_MAX_RANGES) : (L.addr i).toNat = L.nodes + NODE_SIZE * i := by
  have hle := L.nodes_le
  unfold NODE_SIZE BALLOC_MAX_RANGES at *
  exact Nat.mod_eq_of_lt (by show L.nodes + 40 * i < WORD; omega)

theorem toNat_head : L.head.toNat = L.freeList := Nat.mod_eq_of_lt L.freeList_lt

theorem addr_ne_zero (hi : i < BALLOC_MAX_RANGES) : L.addr i ≠ 0 := by
  intro h
  have h0 := congrArg BitVec.toNat h
  rw [L.toNat_addr hi] at h0
  have hpos := L.nodes_pos
  simp at h0
  omega

theorem head_ne_zero : L.head ≠ 0 := by
  intro h
  have h0 := congrArg BitVec.toNat h
  rw [L.toNat_head] at h0
  exact absurd h0 (Nat.ne_of_gt L.freeList_pos)

theorem addr_even (i : Nat) : Even (L.addr i) := by
  have heven := L.nodes_even
  have hmod : (L.nodes + NODE_SIZE * i) % 2 = 0 := by
    unfold NODE_SIZE
    omega
  rw [Even, addr, BitVec.getLsbD_ofNat, Nat.testBit_zero, hmod]
  rfl

theorem addr_inj (hi : i < BALLOC_MAX_RANGES) (hj : j < BALLOC_MAX_RANGES)
    (h : L.addr i = L.addr j) : i = j := by
  have hn := congrArg BitVec.toNat h
  rw [L.toNat_addr hi, L.toNat_addr hj] at hn
  unfold NODE_SIZE at hn
  omega

theorem addr_ne_head (hi : i < BALLOC_MAX_RANGES) : L.addr i ≠ L.head := by
  intro h
  have hn := congrArg BitVec.toNat h
  rw [L.toNat_addr hi, L.toNat_head] at hn
  have happart := L.apart
  unfold NODE_SIZE BALLOC_MAX_RANGES at *
  omega

end BallocLayout

/-- The nodes in memory: `link`, as a `struct rb_node`, and `begin` and `end`; and the roots of the
trees.  The links also hold `balloc_free_list`, which is a `struct list_head` only. -/
structure BallocMem where
  links : RbPtr → Option RbNode
  keys : RbPtr → MemoryNode
  root : Which → RbPtr

namespace BallocMem

/-- A tree and the nodes in memory. -/
def tree (m : BallocMem) (w : Which) : RbHeap := ⟨m.links, m.root w⟩

def setTree (m : BallocMem) (w : Which) (h : RbHeap) : BallocMem :=
  { m with links := h.nodes, root := Function.update m.root w h.root }

/-- The links as list entries. -/
def lists (m : BallocMem) : ListMem := fun p => (m.links p).map fun n => ⟨n.left, n.right⟩

/-- The links after the list entries were written; the third word stays. -/
def setLists (m : BallocMem) (l : ListMem) : BallocMem :=
  { m with links := fun p => (m.links p).map fun n =>
      match l p with
      | some e => ⟨e.next, e.prev, n.parent⟩
      | none => n }

def setKey (m : BallocMem) (p : RbPtr) (node : MemoryNode) : BallocMem :=
  { m with keys := Function.update m.keys p node }

section Functions

variable (L : BallocLayout)

/-- `balloc_alloc_node`. -/
def allocNode (m : BallocMem) : Res (BallocMem × RbPtr) := do
  let empty ← m.lists.listEmpty L.head
  if empty then .error (.bug .ballocNoNode)
  else do
    let node ← m.lists.getNext L.head
    let l ← m.lists.listDel node
    return (m.setLists l, node)

/-- `balloc_free_node`. -/
def freeNode (m : BallocMem) (node : RbPtr) : Res BallocMem := do
  let l ← m.lists.listAdd node L.head
  return m.setLists l

/-- `rb_erase(&node->link.rb, tree)` -/
def unlinkNode (m : BallocMem) (w : Which) (node : RbPtr) : Res BallocMem := do
  let h ← (m.tree w).rbErase TREE_TURNS node
  return m.setTree w h

/-- The lines of `__balloc_add_range` up to `rb_insert`. -/
def linkRange (m : BallocMem) (w : Which) (from_ to_ : Nat) : Res (BallocMem × RbPtr) := do
  let (parent, plink) ←
    (m.tree w).descendLoop (fun node => decide ((m.keys node).begin_ < from_)) TREE_TURNS 0 .root
  let (m, new) ← m.allocNode L
  let m := m.setKey new ⟨from_, to_⟩
  let h ← (m.tree w).rbLink new parent plink
  let h ← h.rbInsert TREE_TURNS new
  return (m.setTree w h, new)

/-- `if (prev && prev->end >= new->begin)` -/
def absorbPrev (m : BallocMem) (w : Which) (new : RbPtr) : Res BallocMem := do
  let prev ← (m.tree w).rbPrev TREE_TURNS new
  if prev = 0 then return m
  else if (m.keys prev).end_ ≥ (m.keys new).begin_ then do
    let end_ :=
      if (m.keys prev).end_ > (m.keys new).end_ then (m.keys prev).end_ else (m.keys new).end_
    let m := m.setKey new ⟨(m.keys prev).begin_, end_⟩
    let m ← m.unlinkNode w prev
    m.freeNode L prev
  else return m

/-- `if (next && next->begin <= new->end)` -/
def absorbNext (m : BallocMem) (w : Which) (new : RbPtr) : Res BallocMem := do
  let next ← (m.tree w).rbNext TREE_TURNS new
  if next = 0 then return m
  else if (m.keys next).begin_ ≤ (m.keys new).end_ then do
    let m := m.setKey new ⟨(m.keys new).begin_, (m.keys next).end_⟩
    let m ← m.unlinkNode w next
    m.freeNode L next
  else return m

/-- `__balloc_add_range`. -/
def addRange (m : BallocMem) (w : Which) (from_ to_ : Nat) : Res BallocMem := do
  let (m, new) ← m.linkRange L w from_ to_
  let m ← m.absorbPrev L w new
  m.absorbNext L w new

/-- The lines that `__balloc_remove_range` and `__balloc_alloc` share. -/
def cutNode (m : BallocMem) (w : Which) (ptr : RbPtr) (lo hi : Nat) : Res BallocMem := do
  let m ← m.unlinkNode w ptr
  let m ← (if (m.keys ptr).begin_ < lo then m.addRange L w (m.keys ptr).begin_ lo else .ok m)
  let m ← (if (m.keys ptr).end_ > hi then m.addRange L w hi (m.keys ptr).end_ else .ok m)
  m.freeNode L ptr

/-- The first node that ends after `from`, or null. -/
def firstAfter (m : BallocMem) (w : Which) (from_ : Nat) : Res RbPtr :=
  (m.tree w).lowerBoundLoop (fun node => decide ((m.keys node).end_ > from_))
    TREE_TURNS (m.root w) 0

/-- `while (ptr && ptr->begin < to)` of `__balloc_remove_range`. -/
def removeLoop (w : Which) (from_ to_ : Nat) : Nat → BallocMem → RbPtr → Res BallocMem
  | 0, _, _ => .error .hang
  | fuel + 1, m, ptr =>
    if ptr = 0 then .ok m
    else if (m.keys ptr).begin_ < to_ then do
      let next ← (m.tree w).rbNext TREE_TURNS ptr
      let m ← m.cutNode L w ptr from_ to_
      removeLoop w from_ to_ fuel m next
    else .ok m

/-- `__balloc_remove_range`. -/
def removeRange (m : BallocMem) (w : Which) (from_ to_ : Nat) : Res BallocMem := do
  let ptr ← m.firstAfter w from_
  removeLoop L w from_ to_ (BALLOC_MAX_RANGES + 1) m ptr

/-- `while (ptr && ptr->begin < to)` of `__balloc_alloc`. -/
def allocRangeLoop (size align from_ to_ : Nat) : Nat → BallocMem → RbPtr → Res (BallocMem × Nat)
  | 0, _, _ => .error .hang
  | fuel + 1, m, ptr =>
    if ptr = 0 then .ok (m, to_)
    else if (m.keys ptr).begin_ < to_ then
      let b := if (m.keys ptr).begin_ > from_ then (m.keys ptr).begin_ else from_
      let e := if (m.keys ptr).end_ < to_ then (m.keys ptr).end_ else to_
      let addr := alignAddr b align
      if (addr + size) % WORD ≤ e then do
        let m ← m.cutNode L .freeRanges ptr addr ((addr + size) % WORD)
        return (m, addr)
      else do
        let next ← (m.tree .freeRanges).rbNext TREE_TURNS ptr
        allocRangeLoop size align from_ to_ fuel m next
    else .ok (m, to_)

/-- `__balloc_alloc`: an address, or `to` when there is no room. -/
def allocRaw (m : BallocMem) (size align from_ to_ : Nat) : Res (BallocMem × Nat) := do
  let ptr ← m.firstAfter .freeRanges from_
  allocRangeLoop L size align from_ to_ (BALLOC_MAX_RANGES + 1) m ptr

/-- `balloc_setup_nodes`. -/
def setupNodes (m : BallocMem) : Res BallocMem := do
  let l ← m.lists.listInit L.head
  (List.range BALLOC_MAX_RANGES).foldlM (fun m i => freeNode L m (L.addr i)) (m.setLists l)

/-- The calls of the bootstrap allocator in memory. -/
def calls : CallSystem BallocMem BallocCall Stop where
  legal _
    | .add _ from_ to_ => from_ ≤ to_
    | .remove _ from_ to_ => from_ ≤ to_
    | .alloc _ _ from_ to_ => from_ ≤ to_
  exec m
    | .add w from_ to_ => m.addRange L w from_ to_
    | .remove w from_ to_ => m.removeRange L w from_ to_
    | .alloc size align from_ to_ => do
      let (m, _) ← m.allocRaw L size align from_ to_
      return m

end Functions

end BallocMem

end AuOs
