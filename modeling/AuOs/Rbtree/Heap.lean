import Mathlib
import AuOs.Rbtree.Tree

/-!
# Red-black trees in memory

Reference model of `rbtree.c` and `rb_link` on the nodes in memory.

* `RbNode`, `RbHeap` — a `struct rb_node`, the nodes at their addresses and `tree->root`.  Bit 0 of
  the word `parent` is the colour.
* `rbRotate`, `rbInsert`, `rbEraseFix`, `rbErase`, `rbNext`, `rbPrev` — the functions.  The two
  mirrored halves of a function are one definition over a `Side`, under the names of the source
  where the halves are functions of their own.

Dereferencing a null pointer or the address of no node is a `fault`.  The loops take fuel, and run
out of it with `hang`.
-/

set_option autoImplicit false

namespace AuOs

/-- An address, or the word `parent` of a node. -/
abbrev RbPtr := BitVec 64

def RED : RbPtr := 0

def BLACK : RbPtr := 1

/-- `struct rb_node`. -/
structure RbNode where
  left : RbPtr
  right : RbPtr
  parent : RbPtr
  deriving DecidableEq, Repr

namespace RbNode

/-- `node->left` or `node->right`. -/
def child : Side → RbNode → RbPtr
  | .left, n => n.left
  | .right, n => n.right

def setChild : Side → RbPtr → RbNode → RbNode
  | .left, p, n => { n with left := p }
  | .right, p, n => { n with right := p }

end RbNode

/-- The nodes in memory and `tree->root`. -/
structure RbHeap where
  nodes : RbPtr → Option RbNode
  root : RbPtr

/-- `struct rb_node **plink`: the root pointer, or a child pointer of a node. -/
inductive RbSlot where
  | root
  | child (s : Side) (parent : RbPtr)
  deriving DecidableEq, Repr

namespace RbHeap

/-- The node at an address is read. -/
def get (h : RbHeap) (p : RbPtr) : Res RbNode :=
  if p = 0 then .error .fault
  else
    match h.nodes p with
    | some n => .ok n
    | none => .error .fault

/-- The node at an address is written. -/
def modify (h : RbHeap) (p : RbPtr) (f : RbNode → RbNode) : Res RbHeap := do
  let n ← h.get p
  return { h with nodes := Function.update h.nodes p (some (f n)) }

def child (h : RbHeap) (s : Side) (node : RbPtr) : Res RbPtr := do
  let n ← h.get node
  return n.child s

def setChild (h : RbHeap) (s : Side) (node p : RbPtr) : Res RbHeap :=
  h.modify node (RbNode.setChild s p)

/-- `rb_color`. -/
def rbColor (h : RbHeap) (node : RbPtr) : Res RbPtr := do
  let n ← h.get node
  return n.parent &&& 1

/-- `rb_set_color`. -/
def rbSetColor (h : RbHeap) (node color : RbPtr) : Res RbHeap :=
  h.modify node fun n => { n with parent := (n.parent &&& ~~~1) ||| color }

/-- `rb_set_red`. -/
def rbSetRed (h : RbHeap) (node : RbPtr) : Res RbHeap := h.rbSetColor node RED

/-- `rb_set_black`. -/
def rbSetBlack (h : RbHeap) (node : RbPtr) : Res RbHeap := h.rbSetColor node BLACK

/-- `rb_parent`. -/
def rbParent (h : RbHeap) (node : RbPtr) : Res RbPtr := do
  let n ← h.get node
  return n.parent &&& ~~~1

/-- `rb_set_parent`. -/
def rbSetParent (h : RbHeap) (child parent : RbPtr) : Res RbHeap :=
  h.modify child fun n => { n with parent := (n.parent &&& 1) ||| parent }

/-- `rb_red`. -/
def rbRed (h : RbHeap) (node : RbPtr) : Res Bool :=
  if node = 0 then .ok false
  else do
    let color ← h.rbColor node
    return color == RED

/-- `rb_black`. -/
def rbBlack (h : RbHeap) (node : RbPtr) : Res Bool := do
  let red ← h.rbRed node
  return !red

/-- `rb_link`. -/
def rbLink (h : RbHeap) (node parent : RbPtr) (plink : RbSlot) : Res RbHeap := do
  let h ← h.modify node fun _ => ⟨0, 0, parent⟩
  match plink with
  | .root => return { h with root := node }
  | .child s p => h.setChild s p node

/-! ## Rotations -/

/-- `if (p) { if (p->left == x) p->left = r; else p->right = r; } else tree->root = r;` -/
def replaceChild (h : RbHeap) (p x r : RbPtr) : Res RbHeap :=
  if p = 0 then .ok { h with root := r }
  else do
    let l ← h.child .left p
    if l = x then h.setChild .left p r else h.setChild .right p r

/-- `rb_rotate_left` for `Side.left`, `rb_rotate_right` for `Side.right`. -/
def rbRotate (s : Side) (h : RbHeap) (x : RbPtr) : Res RbHeap := do
  let p ← h.rbParent x
  let r ← h.child s.other x
  let b ← h.child s r
  let h ← h.setChild s.other x b
  let h ← (if b = 0 then .ok h else h.rbSetParent b x)
  let h ← h.setChild s r x
  let h ← h.rbSetParent r p
  let h ← h.replaceChild p x r
  h.rbSetParent x r

/-- `rb_rotate_left`. -/
def rbRotateLeft : RbHeap → RbPtr → Res RbHeap := rbRotate .left

/-- `rb_rotate_right`. -/
def rbRotateRight : RbHeap → RbPtr → Res RbHeap := rbRotate .right

/-! ## Iteration -/

/-- `while (node->left) node = node->left;` and its mirror image. -/
def outermostLoop (s : Side) : Nat → RbHeap → RbPtr → Res RbPtr
  | 0, _, _ => .error .hang
  | fuel + 1, h, node => do
    let p ← h.child s node
    if p = 0 then return node else outermostLoop s fuel h p

/-- `__rb_leftmost`. -/
def rbLeftmost (fuel : Nat) (h : RbHeap) (node : RbPtr) : Res RbPtr :=
  if node = 0 then .ok 0 else outermostLoop .left fuel h node

/-- `__rb_rightmost`. -/
def rbRightmost (fuel : Nat) (h : RbHeap) (node : RbPtr) : Res RbPtr :=
  if node = 0 then .ok 0 else outermostLoop .right fuel h node

/-- `while (p && p->right == node)` and its mirror image: `s` is the side in the test. -/
def climbLoop (s : Side) : Nat → RbHeap → RbPtr → RbPtr → Res RbPtr
  | 0, _, _, _ => .error .hang
  | fuel + 1, h, node, p =>
    if p = 0 then .ok p
    else do
      let c ← h.child s p
      if c = node then do
        let p' ← h.rbParent p
        climbLoop s fuel h p p'
      else return p

/-- `rb_next`. -/
def rbNext (fuel : Nat) (h : RbHeap) (node : RbPtr) : Res RbPtr :=
  if node = 0 then .ok 0
  else do
    let r ← h.child .right node
    if r ≠ 0 then h.rbLeftmost fuel r
    else do
      let p ← h.rbParent node
      climbLoop .right fuel h node p

/-- `rb_prev`. -/
def rbPrev (fuel : Nat) (h : RbHeap) (node : RbPtr) : Res RbPtr :=
  if node = 0 then .ok 0
  else do
    let l ← h.child .left node
    if l ≠ 0 then h.rbRightmost fuel l
    else do
      let p ← h.rbParent node
      climbLoop .left fuel h node p

/-! ## Insertion -/

/-- `if (node == p->right) { rb_rotate_left(p, tree); p = node; }` for `p` on the left side of its
parent, and the mirror image: the new `p`. -/
def straighten (s : Side) (h : RbHeap) (node p : RbPtr) : Res (RbHeap × RbPtr) := do
  let c ← h.child s.other p
  if node = c then do
    let h ← rbRotate s h p
    return (h, node)
  else return (h, p)

/-- The rotations that end the loop of `rb_insert`, for `p` on side `s` of `g`. -/
def insertRotate (s : Side) (h : RbHeap) (node p g : RbPtr) : Res RbHeap := do
  let (h, p) ← straighten s h node p
  let h ← rbRotate s.other h g
  let h ← h.rbSetBlack p
  h.rbSetRed g

/-- `while (rb_red(p))`. -/
def insertLoop : Nat → RbHeap → RbPtr → RbPtr → Res RbHeap
  | 0, _, _, _ => .error .hang
  | fuel + 1, h, node, p => do
    let red ← h.rbRed p
    if red then do
      let g ← h.rbParent p
      let l ← h.child .left g
      let s := if p = l then Side.left else Side.right
      let u ← h.child s.other g
      let red ← h.rbRed u
      if red then do
        let h ← h.rbSetRed g
        let h ← h.rbSetBlack p
        let h ← h.rbSetBlack u
        let p ← h.rbParent g
        insertLoop fuel h g p
      else insertRotate s h node p g
    else return h

/-- `rb_insert`. -/
def rbInsert (fuel : Nat) (h : RbHeap) (node : RbPtr) : Res RbHeap := do
  let p ← h.rbParent node
  let h ← insertLoop fuel h node p
  h.rbSetBlack h.root

/-! ## Erasure -/

/-- `if (rb_red(b)) { ...  }` of `rb_erase_fix`, for `child` on side `s` of `parent`: the new
sibling. -/
def liftSibling (s : Side) (h : RbHeap) (parent b : RbPtr) : Res (RbHeap × RbPtr) := do
  let red ← h.rbRed b
  if red then do
    let h ← h.rbSetBlack b
    let h ← h.rbSetRed parent
    let h ← rbRotate s h parent
    let b ← h.child s.other parent
    return (h, b)
  else return (h, b)

/-- `if (rb_black(b->right)) { ...  }` before the last rotation of `rb_erase_fix`, and the mirror
image: the new sibling. -/
def straightenSibling (s : Side) (h : RbHeap) (parent b : RbPtr) : Res (RbHeap × RbPtr) := do
  let far ← h.child s.other b
  let black ← h.rbBlack far
  if black then do
    let near ← h.child s b
    let h ← h.rbSetBlack near
    let h ← h.rbSetRed b
    let h ← rbRotate s.other h b
    let b ← h.child s.other parent
    return (h, b)
  else return (h, b)

/-- The rotations that end the loop of `rb_erase_fix`. -/
def eraseRotate (s : Side) (h : RbHeap) (parent b : RbPtr) : Res RbHeap := do
  let (h, b) ← straightenSibling s h parent b
  let color ← h.rbColor parent
  let h ← h.rbSetColor b color
  let h ← h.rbSetBlack parent
  let far ← h.child s.other b
  let h ← (if far = 0 then .ok h else h.rbSetBlack far)
  rbRotate s h parent

/-- `while (rb_black(child) && child != tree->root)`: the tree and the last `child`. -/
def eraseLoop : Nat → RbHeap → RbPtr → RbPtr → Res (RbHeap × RbPtr)
  | 0, _, _, _ => .error .hang
  | fuel + 1, h, child, parent => do
    let black ← h.rbBlack child
    if black ∧ child ≠ h.root then do
      let l ← h.child .left parent
      let s := if child = l then Side.left else Side.right
      let b ← h.child s.other parent
      let (h, b) ← liftSibling s h parent b
      let near ← h.child s b
      let far ← h.child s.other b
      let nearBlack ← h.rbBlack near
      let bothBlack ← (if nearBlack then h.rbBlack far else .ok false)
      if bothBlack then do
        let h ← h.rbSetRed b
        let p ← h.rbParent parent
        eraseLoop fuel h parent p
      else do
        let h ← eraseRotate s h parent b
        return (h, h.root)
    else return (h, child)

/-- `rb_erase_fix`. -/
def rbEraseFix (fuel : Nat) (h : RbHeap) (child parent : RbPtr) : Res RbHeap := do
  let (h, child) ← eraseLoop fuel h child parent
  if child = 0 then return h else h.rbSetBlack child

/-- The branch of `rb_erase` for a node whose successor `x` is its right child. -/
def spliceChild (h : RbHeap) (node x : RbPtr) : Res (RbHeap × RbPtr) := do
  let l ← h.child .left node
  let h ← h.setChild .left x l
  let n ← h.get node
  let h ← h.modify x fun m => { m with parent := n.parent }
  let l ← h.child .left x
  let h ← h.rbSetParent l x
  return (h, x)

/-- The branch of `rb_erase` for a node whose successor `x` is further down; `c` is its child. -/
def spliceBelow (h : RbHeap) (node x c : RbPtr) : Res (RbHeap × RbPtr) := do
  let p ← h.rbParent x
  let n ← h.get node
  let h ← h.modify x fun _ => n
  let h ← h.setChild .left p c
  let h ← (if c = 0 then .ok h else h.rbSetParent c p)
  let l ← h.child .left x
  let h ← h.rbSetParent l x
  let r ← h.child .right x
  let h ← h.rbSetParent r x
  return (h, p)

/-- `rb_erase`. -/
def rbErase (fuel : Nat) (h : RbHeap) (node : RbPtr) : Res RbHeap := do
  let l ← h.child .left node
  let r ← h.child .right node
  let (h, x, c, p, color) ← (if l ≠ 0 ∧ r ≠ 0 then do
      let x ← h.rbNext fuel node
      let c ← h.child .right x
      let color ← h.rbColor x
      let (h, p) ← (if x = r then spliceChild h node x else spliceBelow h node x c)
      return (h, x, c, p, color)
    else do
      let p ← h.rbParent node
      let color ← h.rbColor node
      let c := if l ≠ 0 then l else r
      let h ← (if c = 0 then .ok h else h.rbSetParent c p)
      return (h, c, c, p, color))
  let np ← h.rbParent node
  let h ← h.replaceChild np node x
  if color = BLACK then rbEraseFix fuel h c p else return h

end RbHeap

end AuOs
