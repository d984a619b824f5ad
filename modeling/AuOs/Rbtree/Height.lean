import Mathlib
import AuOs.Rbtree.Valid

/-!
# The height of a red-black tree

* `RbTree.height` — the number of nodes on a longest way down.
* `height_plug_le` — the frames above a place and the tree below it fit into the height.
* `Balanced.height_le`, `Balanced.length_ge` — the black height bounds the height from above and the
  number of nodes from below.
* `Valid.height_le` — **a valid tree is at most twice as high as a complete one**.
-/

set_option autoImplicit false

namespace AuOs

open RbTree

variable {α : Type} {c c' : Color} {n : Nat} {l r t u : RbTree α} {x : α} {s : Side}

/-- The number of nodes on a longest way from the root to a leaf. -/
def RbTree.height : RbTree α → Nat
  | leaf => 0
  | node _ l _ r => max l.height r.height + 1

theorem height_mk : (RbTree.mk s c t x u).height = max t.height u.height + 1 := by
  cases s with
  | left => rfl
  | right => exact congrArg (· + 1) (max_comm u.height t.height)

theorem height_le_length (t : RbTree α) : t.height ≤ t.toList.length := by
  induction t with
  | leaf => exact Nat.le_refl 0
  | node c l x r ihl ihr =>
    rw [height, toList, List.length_append, List.length_cons]
    omega

/-- **A place in the tree** has at most `height` nodes above and on a way below it. -/
theorem height_plug_le (ctx : Ctx α) (t : RbTree α) :
    ctx.length + t.height ≤ (Ctx.plug ctx t).height := by
  induction ctx generalizing t with
  | nil => exact Nat.le_of_eq (Nat.zero_add _)
  | cons f ctx ih =>
    have hup := ih (f.fill t)
    have hfill : (f.fill t).height = max t.height f.sibling.height + 1 := height_mk
    rw [List.length_cons, Ctx.plug]
    omega

theorem height_leftmost_le {ctx : Ctx α} {y : α} (hplug : Ctx.plug ctx (.node c .leaf y u) = t) :
    ctx.length + 1 ≤ t.height := by
  have hle := height_plug_le ctx (.node c .leaf y u)
  rw [hplug, height] at hle
  omega

/-! ## Balanced trees -/

/-- The levels that red nodes add: one below each black node, and the root if it is red. -/
def Color.extra : Color → Nat
  | .red => 1
  | .black => 0

theorem RbTree.Balanced.height_le (h : t.Balanced c n) : t.height ≤ 2 * n + c.extra := by
  induction h with
  | leaf => exact Nat.le_refl 0
  | red _ _ ihl ihr =>
    simp only [height, Color.extra] at ihl ihr ⊢
    omega
  | @black _ _ _ c c' _ _ _ ihl ihr =>
    have hextra : ∀ c : Color, c.extra ≤ 1 := by
      intro c
      cases c <;> decide
    have hc := hextra c
    have hc' := hextra c'
    simp only [height, Color.extra]
    omega

theorem RbTree.Balanced.length_ge (h : t.Balanced c n) : 2 ^ n ≤ t.toList.length + 1 := by
  induction h with
  | leaf => exact Nat.le_refl 1
  | red _ _ ihl ihr =>
    rw [toList, List.length_append, List.length_cons]
    omega
  | black _ _ ihl ihr =>
    rw [toList, List.length_append, List.length_cons, pow_succ]
    omega

/-- The bound on the height. -/
def heightBound (nodes : Nat) : Nat := 2 * Nat.log 2 (nodes + 1)

/-- **The height of a valid tree** is at most twice the logarithm of the number of its nodes. -/
theorem RbTree.Valid.height_le (h : t.Valid) : t.height ≤ heightBound t.toList.length := by
  obtain ⟨n, hn⟩ := h
  have hlog : n ≤ Nat.log 2 (t.toList.length + 1) := Nat.le_log_of_pow_le (by decide) hn.length_ge
  calc t.height ≤ 2 * n + Color.black.extra := hn.height_le
    _ = 2 * n := Nat.add_zero _
    _ ≤ heightBound t.toList.length := Nat.mul_le_mul_left 2 hlog

end AuOs
