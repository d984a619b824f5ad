import Mathlib
import AuOs.Base

/-!
# Red-black trees

Reference model of `rbtree.c` on inductive trees.  A `struct rb_node *` is an element of `α`, the
identity of the node; parent pointers are a context (`Ctx`), the list of frames from the node up to
the root.  The two mirrored halves of every function are one definition over a `Side`.

* `RbTree`, `Frame`, `Ctx` — trees, and trees with a hole; `Ctx.plug` fills the hole.
* `rotate` — `rb_rotate_left` and `rb_rotate_right`.
* `rbInsert`, `rbEraseFix`, `rbErase` — the functions of the same names.  A null pointer that the C
  code would dereference is a `fault`.
* `rbNext`, `rbPrev`, `rbLeftmost` — iteration.
* `descend`, `lowerBound` — the two searches of `balloc.c`, for any test of the nodes.
-/

set_option autoImplicit false

namespace AuOs

inductive Color where
  | red
  | black
  deriving DecidableEq, Repr

inductive Side where
  | left
  | right
  deriving DecidableEq, Repr

/-- The other child. -/
def Side.other : Side → Side
  | .left => .right
  | .right => .left

inductive RbTree (α : Type) where
  | leaf
  | node (color : Color) (left : RbTree α) (elem : α) (right : RbTree α)
  deriving Repr

variable {α : Type}

namespace RbTree

/-- The elements in order. -/
def toList : RbTree α → List α
  | leaf => []
  | node _ l x r => l.toList ++ x :: r.toList

/-- `rb_red`: null is black. -/
def isRed : RbTree α → Bool
  | node .red _ _ _ => true
  | _ => false

/-- `rb_set_color` at the root of a tree that may be null. -/
def setColor (color : Color) : RbTree α → RbTree α
  | leaf => leaf
  | node _ l x r => node color l x r

def isLeaf : RbTree α → Bool
  | leaf => true
  | node _ _ _ _ => false

/-- The node whose child on side `s` is `t` and whose other child is `u`. -/
def mk (s : Side) (color : Color) (t : RbTree α) (x : α) (u : RbTree α) : RbTree α :=
  match s with
  | .left => node color t x u
  | .right => node color u x t

end RbTree

/-- A node with a hole on one side. -/
structure Frame (α : Type) where
  side : Side
  color : Color
  elem : α
  sibling : RbTree α

/-- Fill the hole. -/
def Frame.fill (f : Frame α) (t : RbTree α) : RbTree α := .mk f.side f.color t f.elem f.sibling

/-- The nodes above a hole, the parent first. -/
abbrev Ctx (α : Type) := List (Frame α)

namespace Ctx

/-- The whole tree. -/
def plug : Ctx α → RbTree α → RbTree α
  | [], t => t
  | f :: ctx, t => plug ctx (f.fill t)

/-- The elements before the hole. -/
def before : Ctx α → List α
  | [] => []
  | f :: ctx =>
    match f.side with
    | .left => before ctx
    | .right => before ctx ++ (f.sibling.toList ++ [f.elem])

/-- The elements after the hole. -/
def after : Ctx α → List α
  | [] => []
  | f :: ctx =>
    match f.side with
    | .left => f.elem :: f.sibling.toList ++ after ctx
    | .right => after ctx

end Ctx

open RbTree

/-! ## Rotations and insertion -/

/-- `rb_rotate_left` for `Side.left`, `rb_rotate_right` for `Side.right`: the child on the other
side moves up.  Colours stay with their nodes. -/
def rotate : Side → RbTree α → Res (RbTree α)
  | .left, node c a x (node c' b y d) => .ok (node c' (node c a x b) y d)
  | .right, node c (node c' d y b) x a => .ok (node c' d y (node c b x a))
  | _, _ => .error .fault

/-- `rb_link`: a new node has no children, and its parent word says RED. -/
def rbLink (x : α) : RbTree α := node .red leaf x leaf

/-- `rb_set_black(p); rb_set_red(g)` after the rotation: `p` is the root, `g` its child on side
`s`. -/
def recolor : Side → RbTree α → RbTree α
  | .left, node _ l x r => node .black (l.setColor .red) x r
  | .right, node _ l x r => node .black l x (r.setColor .red)
  | _, leaf => leaf

/-- `rb_insert` of the red node at the root of `t`, in the hole of `ctx`. -/
def rbInsert : Ctx α → RbTree α → Res (RbTree α)
  | [], t => .ok (t.setColor .black)
  | [p], t =>
    -- a red root would have its null parent dereferenced
    if p.color = .red then .error .fault else .ok ((p.fill t).setColor .black)
  | p :: g :: ctx, t =>
    if p.color = .red then
      if g.sibling.isRed then
        let p := { p with color := .black }
        let g := { g with color := .red, sibling := g.sibling.setColor .black }
        rbInsert ctx (g.fill (p.fill t))
      else do
        let p ← if p.side = g.side then .ok (p.fill t) else rotate g.side (p.fill t)
        let g' ← rotate g.side.other (g.fill p)
        return (Ctx.plug ctx (recolor g.side.other g')).setColor .black
    else .ok ((Ctx.plug (p :: g :: ctx) t).setColor .black)

/-! ## Erasure -/

/-- The child on a side. -/
def RbTree.child : Side → RbTree α → RbTree α
  | _, leaf => leaf
  | .left, node _ l _ _ => l
  | .right, node _ _ _ r => r

/-- The sibling after `if (rb_red(b)) { ... b = parent->right; }`: a red sibling becomes the black
grandparent of `child`, and one of its children the new sibling. -/
def liftSibling (parent : Frame α) (ctx : Ctx α) : Frame α × Ctx α :=
  match parent.side, parent.sibling with
  | .left, node .red l y r =>
    ({ parent with color := .red, sibling := l }, ⟨.left, .black, y, r⟩ :: ctx)
  | .right, node .red l y r =>
    ({ parent with color := .red, sibling := r }, ⟨.right, .black, y, l⟩ :: ctx)
  | _, _ => (parent, ctx)

/-- The last branch of the loop of `rb_erase_fix`: the rotations that end it.  `b` is the sibling,
`near` and `far` are its children as seen from `child`. -/
def eraseRotate (parent : Frame α) (child : RbTree α) : Res (RbTree α) := do
  let s := parent.side
  let b ←
    if (parent.sibling.child s.other).isRed then .ok parent.sibling
    else
      -- near is red: it becomes the black sibling, over the red b
      match s, parent.sibling with
      | .left, node _ l y r => rotate .right (node .red (l.setColor .black) y r)
      | .right, node _ l y r => rotate .left (node .red l y (r.setColor .black))
      | _, leaf => .error .fault
  match s, b with
  | .left, node _ l y r =>
    rotate .left (node .black child parent.elem (node parent.color l y (r.setColor .black)))
  | .right, node _ l y r =>
    rotate .right (node .black (node parent.color (l.setColor .black) y r) parent.elem child)
  | _, leaf => .error .fault

/-- `rb_erase_fix`. -/
def rbEraseFix : Nat → Ctx α → RbTree α → Res (RbTree α)
  | 0, _, _ => .error .hang
  | _ + 1, [], child => .ok (child.setColor .black)
  | fuel + 1, parent :: ctx, child =>
    if child.isRed then .ok (Ctx.plug (parent :: ctx) (child.setColor .black))
    else
      let (parent, ctx) := liftSibling parent ctx
      match parent.sibling with
      | leaf => .error .fault
      | node _ l _ r =>
        if !l.isRed && !r.isRed then
          rbEraseFix fuel ctx ({ parent with sibling := parent.sibling.setColor .red }.fill child)
        else do
          let t ← eraseRotate parent child
          return (Ctx.plug ctx t).setColor .black

/-- The leftmost node below a hole: the frames above it, its colour, itself and its right child. -/
def popLeftmost : Ctx α → RbTree α → Option (Ctx α × Color × α × RbTree α)
  | _, leaf => none
  | ctx, node c leaf x r => some (ctx, c, x, r)
  | ctx, node c l x r => popLeftmost (⟨.left, c, x, r⟩ :: ctx) l

section Locate

variable [DecidableEq α]

/-- The place of a node: the frames above it and the subtree whose root it is. -/
def locate (x : α) : Ctx α → RbTree α → Option (Ctx α × RbTree α)
  | _, leaf => none
  | ctx, node c l y r =>
    if y = x then some (ctx, node c l y r)
    else (locate x (⟨.left, c, y, r⟩ :: ctx) l).or (locate x (⟨.right, c, y, l⟩ :: ctx) r)

/-- `if (color == BLACK) rb_erase_fix(c, p, tree)` -/
def eraseFinish (color : Color) (ctx : Ctx α) (c : RbTree α) : Res (RbTree α) :=
  if color = .black then rbEraseFix (ctx.length + 2) ctx c else .ok (Ctx.plug ctx c)

/-- `rb_erase`.  A node with two children is replaced by its successor, which takes over its colour;
what is missing afterwards is the successor's old place. -/
def rbErase (t : RbTree α) (x : α) : Res (RbTree α) :=
  match locate x [] t with
  | some (ctx, node color l _ r) =>
    if !l.isLeaf && !r.isLeaf then
      match popLeftmost [] r with
      | some (inner, color', y, c) => eraseFinish color' (inner ++ ⟨.right, color, y, l⟩ :: ctx) c
      | none => .error .fault
    else eraseFinish color ctx (if l.isLeaf then r else l)
  | _ => .error .fault

/-! ## Iteration -/

/-- `__rb_leftmost`. -/
def RbTree.leftmost : RbTree α → Option α
  | leaf => none
  | node _ leaf x _ => some x
  | node _ l _ _ => l.leftmost

/-- `__rb_rightmost`. -/
def RbTree.rightmost : RbTree α → Option α
  | leaf => none
  | node _ _ x leaf => some x
  | node _ _ _ r => r.rightmost

/-- `while (p && p->right == node)` and, mirrored, `while (p && p->left == node)`: the first
ancestor that has the node on side `s`. -/
def climb (s : Side) : Ctx α → Option α
  | [] => none
  | f :: ctx => if f.side = s then some f.elem else climb s ctx

/-- `rb_next` of a node of the tree. -/
def rbNext (t : RbTree α) (x : α) : Res (Option α) :=
  match locate x [] t with
  | some (ctx, node _ _ _ r) => .ok (if r.isLeaf then climb .left ctx else r.leftmost)
  | _ => .error .fault

/-- `rb_prev` of a node of the tree. -/
def rbPrev (t : RbTree α) (x : α) : Res (Option α) :=
  match locate x [] t with
  | some (ctx, node _ l _ _) => .ok (if l.isLeaf then climb .right ctx else l.rightmost)
  | _ => .error .fault

end Locate

/-! ## Searches -/

/-- The descent to an empty slot: right of the nodes that satisfy `p`, left of the others. -/
def descend (p : α → Bool) : Ctx α → RbTree α → Ctx α
  | ctx, leaf => ctx
  | ctx, node c l x r =>
    if p x then descend p (⟨.right, c, x, l⟩ :: ctx) r
    else descend p (⟨.left, c, x, r⟩ :: ctx) l

/-- The descent that remembers the last node that satisfies `p`: left of those, right of the
others. -/
def lowerBound (p : α → Bool) : Option α → RbTree α → Option α
  | ptr, leaf => ptr
  | ptr, node _ l x r => if p x then lowerBound p (some x) l else lowerBound p ptr r

end AuOs
