import Mathlib
import AuOs.Rbtree.Tree

/-!
# What the red-black tree functions do

* `RbTree.Balanced`, `Ctx.Balanced` — the colour invariant of a tree and of a tree with a hole.
* `RbTree.Valid` — a whole tree: balanced with a black root.
* `rbInsert_spec` — inserting keeps the tree valid and puts the new node between `before` and
  `after` of its slot.
* `rbErase_spec` — erasing keeps the tree valid and removes just that node.
* `rbNext_spec`, `rbPrev_spec` — the neighbours in the in-order list.
* `descend_spec`, `lowerBound_spec` — the searches, when the test holds of a prefix of the list.
-/

set_option autoImplicit false

namespace AuOs

open RbTree

variable {α : Type} {c c' c'' : Color} {n m : Nat} {l r t u : RbTree α} {x : α} {s : Side}

/-! ## Lists -/

theorem toList_mk (s : Side) (c : Color) (t : RbTree α) (x : α) (u : RbTree α) :
    (RbTree.mk s c t x u).toList =
      match s with
      | .left => t.toList ++ x :: u.toList
      | .right => u.toList ++ x :: t.toList := by
  cases s <;> rfl

@[simp] theorem toList_setColor (c : Color) (t : RbTree α) : (t.setColor c).toList = t.toList := by
  cases t <;> rfl

@[simp] theorem isLeaf_iff : t.isLeaf = true ↔ t = .leaf := by
  cases t <;> simp [isLeaf]

theorem toList_plug : ∀ (ctx : Ctx α) (t : RbTree α),
    (Ctx.plug ctx t).toList = Ctx.before ctx ++ t.toList ++ Ctx.after ctx
  | [], t => by simp [Ctx.plug, Ctx.before, Ctx.after]
  | f :: ctx, t => by
    rw [Ctx.plug, toList_plug ctx, Frame.fill, toList_mk]
    cases hs : f.side <;> simp [Ctx.before, Ctx.after, hs]

theorem plug_append : ∀ (ctx ctx' : Ctx α) (t : RbTree α),
    Ctx.plug (ctx ++ ctx') t = Ctx.plug ctx' (Ctx.plug ctx t)
  | [], _, _ => rfl
  | f :: ctx, ctx', t => plug_append ctx ctx' (f.fill t)

/-! ## The colour invariant -/

/-- No red node has a red child, and every path down has `n` black nodes; the root has the given
colour. -/
inductive RbTree.Balanced : RbTree α → Color → Nat → Prop where
  | leaf : Balanced .leaf .black 0
  | red {l : RbTree α} {x : α} {r : RbTree α} {n : Nat} :
    Balanced l .black n → Balanced r .black n → Balanced (.node .red l x r) .red n
  | black {l : RbTree α} {x : α} {r : RbTree α} {c c' : Color} {n : Nat} :
    Balanced l c n → Balanced r c' n → Balanced (.node .black l x r) .black (n + 1)

/-- The hole may be filled with a balanced tree of this colour and black height; the root is
black. -/
inductive Ctx.Balanced : Ctx α → Color → Nat → Prop where
  | root {n : Nat} : Balanced [] .black n
  | red {s : Side} {x : α} {t : RbTree α} {ctx : Ctx α} {n : Nat} :
    t.Balanced .black n → Balanced ctx .red n → Balanced (⟨s, .red, x, t⟩ :: ctx) .black n
  | black {s : Side} {x : α} {t : RbTree α} {ctx : Ctx α} {c c' : Color} {n : Nat} :
    t.Balanced c' n → Balanced ctx .black (n + 1) → Balanced (⟨s, .black, x, t⟩ :: ctx) c n

/-- A whole red-black tree. -/
def RbTree.Valid (t : RbTree α) : Prop := ∃ n, t.Balanced .black n

theorem RbTree.Valid.leaf : (RbTree.leaf : RbTree α).Valid := ⟨0, .leaf⟩

theorem RbTree.Balanced.isRed (h : t.Balanced c n) : t.isRed = true ↔ c = .red := by
  cases h <;> simp [RbTree.isRed]

/-- The root's colour may be set to black. -/
theorem RbTree.Balanced.setBlack (h : t.Balanced c n) : (t.setColor .black).Valid := by
  cases h with
  | leaf => exact ⟨0, .leaf⟩
  | red hl hr => exact ⟨_, .black hl hr⟩
  | black hl hr => exact ⟨_, .black hl hr⟩

theorem RbTree.Balanced.setBlack_red (h : t.Balanced .red n) :
    (t.setColor .black).Balanced .black (n + 1) := by
  cases h with
  | red hl hr => exact .black hl hr

theorem RbTree.Balanced.mk_red (ht : t.Balanced .black n) (hu : u.Balanced .black n) :
    (RbTree.mk s .red t x u).Balanced .red n := by
  cases s
  · exact .red ht hu
  · exact .red hu ht

theorem RbTree.Balanced.mk_black (ht : t.Balanced c n) (hu : u.Balanced c' n) :
    (RbTree.mk s .black t x u).Balanced .black (n + 1) := by
  cases s
  · exact .black ht hu
  · exact .black hu ht

/-- A hole for a red node is a hole for a black one. -/
theorem Ctx.Balanced.blacken {ctx : Ctx α} (h : Ctx.Balanced ctx c n) :
    Ctx.Balanced ctx .black n := by
  cases h with
  | root => exact .root
  | red ht hc => exact .red ht hc
  | black ht hc => exact .black ht hc

/-- Filling the hole gives a valid tree. -/
theorem Ctx.Balanced.plug {ctx : Ctx α} (h : Ctx.Balanced ctx c n) (ht : t.Balanced c n) :
    (Ctx.plug ctx t).Valid := by
  induction h generalizing t with
  | root => exact ⟨_, ht⟩
  | red hu _ ih => exact ih (RbTree.Balanced.mk_red ht hu)
  | black hu _ ih => exact ih (RbTree.Balanced.mk_black ht hu)

theorem Ctx.Balanced.plug_setBlack {ctx : Ctx α} (h : Ctx.Balanced ctx c n) (ht : t.Balanced c n) :
    ((Ctx.plug ctx t).setColor .black).Valid := by
  obtain ⟨m, hm⟩ := h.plug ht
  exact hm.setBlack

/-! ## Insertion -/

/-- **`rb_insert`** of a red subtree in a hole for a black one: the tree is valid again and its
elements keep their order. -/
theorem rbInsert_spec : ∀ (ctx : Ctx α) (t : RbTree α) (n : Nat), Ctx.Balanced ctx .black n →
    t.Balanced .red n → ∃ t', rbInsert ctx t = .ok t' ∧ t'.Valid ∧
      t'.toList = Ctx.before ctx ++ t.toList ++ Ctx.after ctx
  | [], t, n, _, ht => ⟨_, rfl, ht.setBlack, by simp [Ctx.before, Ctx.after]⟩
  | [p], t, n, hc, ht => by
    cases hc with
    | red _ hroot => cases hroot
    | black hu hroot =>
      exact ⟨_, rfl, (RbTree.Balanced.mk_black ht hu).setBlack, by
        rw [toList_setColor, ← toList_plug]; rfl⟩
  | p :: g :: ctx, t, n, hc, ht => by
    cases hc with
    | black hu hc =>
      exact ⟨_, rfl, Ctx.Balanced.plug_setBlack (.black (c := .red) hu hc) ht, by
        rw [toList_setColor, ← toList_plug]⟩
    | @red s x w _ _ hu hg =>
      cases hg with
      | @black s' y v _ _ c' _ hv hctx =>
        by_cases hred : v.isRed = true
        · -- the uncle is red: recolour and go on two levels up
          have hc' : c' = .red := hv.isRed.mp hred
          subst hc'
          have hfocus : (RbTree.mk s' .red (RbTree.mk s .black t x w) y
              (v.setColor .black)).Balanced .red (n + 1) :=
            RbTree.Balanced.mk_red (RbTree.Balanced.mk_black ht hu) hv.setBlack_red
          obtain ⟨t', hins, hvalid, hlist⟩ := rbInsert_spec ctx _ (n + 1) hctx hfocus
          refine ⟨t', by rw [rbInsert, if_pos rfl, if_pos hred]; exact hins, hvalid, ?_⟩
          rw [hlist, ← toList_plug, ← toList_plug, Ctx.plug, Ctx.plug, toList_plug, toList_plug]
          simp only [Frame.fill, toList_mk]
          cases s <;> cases s' <;> simp
        · -- the uncle is black: the rotations end the loop
          have hc' : c' = .black := by
            cases c' with
            | red => exact absurd (hv.isRed.mpr rfl) hred
            | black => rfl
          subst hc'
          cases ht with
          | @red tl e tr _ htl htr =>
            rw [rbInsert, if_pos rfl, if_neg hred]
            cases s with
            | left =>
              cases s' with
              | left =>
                refine ⟨_, rfl, hctx.plug_setBlack (.black (.red htl htr) (.red hu hv)), ?_⟩
                simp [toList_plug, Ctx.before, Ctx.after, toList, recolor, Side.other]
              | right =>
                refine ⟨_, rfl, hctx.plug_setBlack (.black (.red hv htl) (.red htr hu)), ?_⟩
                simp [toList_plug, Ctx.before, Ctx.after, toList, recolor, Side.other]
            | right =>
              cases s' with
              | left =>
                refine ⟨_, rfl, hctx.plug_setBlack (.black (.red hu htl) (.red htr hv)), ?_⟩
                simp [toList_plug, Ctx.before, Ctx.after, toList, recolor, Side.other]
              | right =>
                refine ⟨_, rfl, hctx.plug_setBlack (.black (.red hv hu) (.red htl htr)), ?_⟩
                simp [toList_plug, Ctx.before, Ctx.after, toList, recolor, Side.other]

/-! ## Erasure -/

/-- The subtree at a hole lacks one black node, unless its red root can make up for it. -/
def Deficit (t : RbTree α) (n : Nat) : Prop :=
  t.Balanced .black n ∨ t.isRed = true ∧ (t.setColor .black).Balanced .black (n + 1)

/-- After the step for a red sibling the sibling is black, and only the shape has changed. -/
theorem liftSibling_spec {parent : Frame α} {ctx : Ctx α}
    (h : Ctx.Balanced (parent :: ctx) .black (n + 1)) :
    ∃ p' ctx', liftSibling parent ctx = (p', ctx') ∧ Ctx.Balanced (p' :: ctx') .black (n + 1) ∧
      p'.sibling.isRed = false ∧ Ctx.before (p' :: ctx') = Ctx.before (parent :: ctx) ∧
      Ctx.after (p' :: ctx') = Ctx.after (parent :: ctx) ∧
      (ctx'.length = ctx.length ∨ p'.color = .red ∧ ctx'.length = ctx.length + 1) := by
  cases h with
  | @red s x b _ _ hb hctx =>
    have hblack : b.isRed = false := by
      cases hb
      rfl
    refine ⟨⟨s, .red, x, b⟩, ctx, ?_, .red hb hctx, hblack, rfl, rfl, Or.inl rfl⟩
    cases hb
    cases s <;> rfl
  | @black s x b _ _ c' _ hb hctx =>
    cases hb with
    | @black l y r _ _ _ hl hr =>
      refine ⟨⟨s, .black, x, .node .black l y r⟩, ctx, ?_,
        .black (.black hl hr) hctx, rfl, rfl, rfl, Or.inl rfl⟩
      cases s <;> rfl
    | @red l y r _ hl hr =>
      cases s with
      | left =>
        refine ⟨⟨.left, .red, x, l⟩, ⟨.left, .black, y, r⟩ :: ctx, rfl,
          .red hl (.black hr hctx), ?_, ?_, ?_, Or.inr ⟨rfl, rfl⟩⟩
        · cases hl; rfl
        · simp [Ctx.before]
        · simp [Ctx.after, toList]
      | right =>
        refine ⟨⟨.right, .red, x, r⟩, ⟨.right, .black, y, l⟩ :: ctx, rfl,
          .red hr (.black hl hctx), ?_, ?_, ?_, Or.inr ⟨rfl, rfl⟩⟩
        · cases hr; rfl
        · simp [Ctx.before, toList]
        · simp [Ctx.after]

/-- The rotations that end the loop repay the missing black node. -/
theorem eraseRotate_spec {pc cl cr : Color} {y : α} {child : RbTree α}
    (hc : child.Balanced .black n) (hl : l.Balanced cl n) (hr : r.Balanced cr n)
    (hred : l.isRed = true ∨ r.isRed = true) :
    ∃ t₁ z t₂, eraseRotate ⟨s, pc, x, .node .black l y r⟩ child = .ok (.node pc t₁ z t₂) ∧
      t₁.Balanced .black (n + 1) ∧ t₂.Balanced .black (n + 1) ∧
      (RbTree.node pc t₁ z t₂).toList = (Frame.fill ⟨s, pc, x,
          .node .black l y r⟩ child).toList := by
  cases s with
  | left =>
    cases hr with
    | @red rl z rr _ hrl hrr =>
      exact ⟨_, _, _, rfl, .black hc hl, .black hrl hrr, by simp [toList, Frame.fill, RbTree.mk]⟩
    | leaf =>
      cases hl with
      | @red ll z lr _ hll hlr =>
        exact ⟨_, _, _, rfl, .black hc hll, .black hlr
          .leaf, by simp [toList, Frame.fill, RbTree.mk]⟩
      | leaf => simp [isRed] at hred
    | black hrl hrr =>
      cases hl with
      | @red ll z lr _ hll hlr =>
        exact ⟨_, _, _, rfl, .black hc hll, .black hlr (.black hrl hrr),
          by simp [toList, Frame.fill, RbTree.mk]⟩
      | black => simp [isRed] at hred
  | right =>
    cases hl with
    | @red ll z lr _ hll hlr =>
      exact ⟨_, _, _, rfl, .black hll hlr, .black hr hc, by simp [toList, Frame.fill, RbTree.mk]⟩
    | leaf =>
      cases hr with
      | @red rl z rr _ hrl hrr =>
        exact ⟨_, _, _, rfl, .black .leaf hrl,
          .black hrr hc, by simp [toList, Frame.fill, RbTree.mk]⟩
      | leaf => simp [isRed] at hred
    | black hll hlr =>
      cases hr with
      | @red rl z rr _ hrl hrr =>
        exact ⟨_, _, _, rfl, .black (.black hll hlr) hrl, .black hrr hc,
          by simp [toList, Frame.fill, RbTree.mk]⟩
      | black => simp [isRed] at hred

/-- **`rb_erase_fix`**: a subtree with a deficit is put into a hole for one black node more. -/
theorem rbEraseFix_spec : ∀ (fuel : Nat) (ctx : Ctx α) (child : RbTree α) (n : Nat),
    Ctx.Balanced ctx .black (n + 1) → Deficit child n →
    ctx.length + (if child.isRed then 1 else 2) ≤ fuel →
    ∃ t', rbEraseFix fuel ctx child = .ok t' ∧ t'.Valid ∧
      t'.toList = Ctx.before ctx ++ child.toList ++ Ctx.after ctx
  | 0, ctx, child, n, _, _, hf => by
    split at hf <;> omega
  | fuel + 1, [], child, n, _, hd, _ => by
    refine ⟨child.setColor .black, rfl, ?_, by simp [Ctx.before, Ctx.after]⟩
    rcases hd with hd | ⟨_, hd⟩
    · exact hd.setBlack
    · exact ⟨_, hd⟩
  | fuel + 1, parent :: ctx, child, n, hc, hd, hf => by
    unfold rbEraseFix
    rcases hd with hd | ⟨hred, hd⟩
    · have hblack : child.isRed = false := by cases hd <;> rfl
      rw [hblack, if_neg (by simp), List.length_cons] at hf
      rw [if_neg (by simp [hblack])]
      obtain ⟨⟨s, pc, x, b⟩, ctx', hlift, hc', hb, hbefore, hafter, hlen⟩ := liftSibling_spec hc
      rw [hlift, ← hbefore, ← hafter]
      simp only
      -- the sibling is a black node: it has at least one black node above its leaves
      have key : ∃ l y r cl cr c'' m, b = .node .black l y r ∧ l.Balanced cl n ∧ r.Balanced cr n ∧
          Ctx.Balanced ctx' c'' m ∧ (pc = .red ∧ c'' = .red ∧ m = n + 1 ∨
            pc = .black ∧ c'' = .black ∧ m = n + 2 ∧ ctx'.length = ctx.length) := by
        cases hc' with
        | red hbal hctx =>
          cases hbal with
          | black hl hr => exact ⟨_, _, _, _, _, _, _, rfl, hl, hr, hctx, Or.inl ⟨rfl, rfl, rfl⟩⟩
        | black hbal hctx =>
          have hlen' : ctx'.length = ctx.length := by
            rcases hlen with hlen | ⟨hpc, _⟩
            · exact hlen
            · cases hpc
          cases hbal with
          | red => cases hb
          | black hl hr =>
            exact ⟨_, _, _, _, _, _, _, rfl, hl, hr, hctx, Or.inr ⟨rfl, rfl, rfl, hlen'⟩⟩
      obtain ⟨l, y, r, cl, cr, c'', m, rfl, hl, hr, hctx, hpc⟩ := key
      simp only
      by_cases hkids : (!l.isRed && !r.isRed) = true
      · -- both children black: the parent's subtree inherits the deficit
        rw [if_pos hkids]
        simp only [Bool.and_eq_true, Bool.not_eq_true'] at hkids
        have hcl : cl = .black := by
          cases cl with
          | red => rw [hl.isRed.mpr rfl] at hkids; cases hkids.1
          | black => rfl
        have hcr : cr = .black := by
          cases cr with
          | red => rw [hr.isRed.mpr rfl] at hkids; cases hkids.2
          | black => rfl
        subst hcl hcr
        have hb' : ((RbTree.node .black l y r).setColor .red).Balanced .red n := .red hl hr
        rcases hpc with ⟨rfl, rfl, rfl⟩ | ⟨rfl, rfl, rfl, hlen'⟩
        · have hdef : Deficit (Frame.fill ⟨s, .red, x,
              (RbTree.node .black l y r).setColor .red⟩ child) n := Or.inr ⟨by cases s <;> rfl, by
            cases s
            · exact .black hd hb'
            · exact .black hb' hd⟩
          obtain ⟨t', hfix, hvalid, hlist⟩ := rbEraseFix_spec fuel ctx' _ n hctx.blacken hdef (by
            have : (Frame.fill ⟨s, .red, x, (RbTree.node .black l y r).setColor .red⟩ child).isRed =
              true := by cases s <;> rfl
            rw [this, if_pos rfl]
            omega)
          refine ⟨t', hfix, hvalid, ?_⟩
          rw [hlist, ← toList_plug, ← toList_plug]
          cases s <;> simp [Ctx.plug, Frame.fill, toList_plug, toList_mk]
        · have hdef : Deficit (Frame.fill ⟨s, .black, x,
              (RbTree.node .black l y r).setColor .red⟩ child)
              (n + 1) := Or.inl (RbTree.Balanced.mk_black hd hb')
          obtain ⟨t', hfix, hvalid, hlist⟩ := rbEraseFix_spec fuel ctx' _ (n + 1) hctx hdef (by
            split <;> omega)
          refine ⟨t', hfix, hvalid, ?_⟩
          rw [hlist, ← toList_plug, ← toList_plug]
          cases s <;> simp [Ctx.plug, Frame.fill, toList_plug, toList_mk]
      · rw [if_neg hkids]
        have hred : l.isRed = true ∨ r.isRed = true := by
          by_contra hn
          rw [not_or] at hn
          simp [hn.1, hn.2] at hkids
        obtain ⟨t₁, z, t₂, hrot, h₁, h₂, hlist⟩ :=
          eraseRotate_spec (s := s) (x := x) hd hl hr hred (y := y)
        rw [hrot]
        refine ⟨_, rfl, ?_, ?_⟩
        · rcases hpc with ⟨rfl, rfl, rfl⟩ | ⟨rfl, rfl, rfl, _⟩
          · exact hctx.plug_setBlack (.red h₁ h₂)
          · exact hctx.plug_setBlack (.black h₁ h₂)
        · rw [toList_setColor, toList_plug, hlist, ← toList_plug, ← toList_plug]
          rfl
    · rw [if_pos hred]
      exact ⟨_, rfl, hc.plug hd, by rw [toList_plug, toList_setColor]⟩

/-- What is known of the children of a balanced node. -/
theorem RbTree.Balanced.children (h : (RbTree.node c l x r).Balanced c' n) :
    c' = c ∧ ∃ cl cr k, l.Balanced cl k ∧ r.Balanced cr k ∧
      (c = .red ∧ cl = .black ∧ cr = .black ∧ n = k ∨ c = .black ∧ n = k + 1) := by
  cases h with
  | red hl hr => exact ⟨rfl, _, _, _, hl, hr, Or.inl ⟨rfl, rfl, rfl, rfl⟩⟩
  | black hl hr => exact ⟨rfl, _, _, _, hl, hr, Or.inr ⟨rfl, rfl⟩⟩

/-- Going down to a child. -/
theorem Ctx.Balanced.down {ctx : Ctx α} (h : Ctx.Balanced ctx c n)
    (ht : (RbTree.node c l x r).Balanced c n) (y : α) :
    (∃ cl k, l.Balanced cl k ∧ Ctx.Balanced (⟨.left, c, y, r⟩ :: ctx) cl k) ∧
    (∃ cr k, r.Balanced cr k ∧ Ctx.Balanced (⟨.right, c, y, l⟩ :: ctx) cr k) := by
  cases ht with
  | red hl hr => exact ⟨⟨_, _, hl, .red hr h⟩, ⟨_, _, hr, .red hl h⟩⟩
  | black hl hr => exact ⟨⟨_, _, hl, .black hr h⟩, ⟨_, _, hr, .black hl h⟩⟩

/-- A hole in a valid tree. -/
theorem Ctx.Balanced.of_plug : ∀ {ctx : Ctx α} {t : RbTree α}, (Ctx.plug ctx t).Valid →
    ∃ c n, Ctx.Balanced ctx c n ∧ t.Balanced c n
  | [], _, ⟨n, hn⟩ => ⟨.black, n, .root, hn⟩
  | ⟨s, c, x, u⟩ :: ctx, t, h => by
    obtain ⟨c₀, n, hctx, hfill⟩ := @Ctx.Balanced.of_plug ctx _ h
    cases s with
    | left =>
      obtain rfl := hfill.children.1
      obtain ⟨⟨cl, k, hl, hctx'⟩, _⟩ := hctx.down hfill x
      exact ⟨cl, k, hctx', hl⟩
    | right =>
      obtain rfl := hfill.children.1
      obtain ⟨_, cr, k, hr, hctx'⟩ := hctx.down hfill x
      exact ⟨cr, k, hctx', hr⟩

/-- The end of `rb_erase`: a node of colour `c` with one child `t` was unlinked. -/
theorem eraseFinish_spec {ctx : Ctx α} {k : Nat} (hctx : Ctx.Balanced ctx c n)
    (ht : t.Balanced c' k) (hk : c = .red ∧ c' = .black ∧ n = k ∨ c = .black ∧ n = k + 1) :
    ∃ t', eraseFinish c ctx t = .ok t' ∧ t'.Valid ∧
      t'.toList = Ctx.before ctx ++ t.toList ++ Ctx.after ctx := by
  unfold eraseFinish
  rcases hk with ⟨rfl, rfl, rfl⟩ | ⟨rfl, rfl⟩
  · rw [if_neg (by decide)]
    exact ⟨_, rfl, hctx.blacken.plug ht, toList_plug _ _⟩
  · rw [if_pos rfl]
    refine rbEraseFix_spec _ ctx t k hctx ?_ (by split <;> omega)
    cases c' with
    | black => exact Or.inl ht
    | red => exact Or.inr ⟨ht.isRed.mpr rfl, ht.setBlack_red⟩

theorem popLeftmost_node (ctx : Ctx α) (c c' : Color) (l' r' : RbTree α) (x x' : α) (r : RbTree α) :
    popLeftmost ctx (.node c (.node c' l' x' r') x r) =
      popLeftmost (⟨.left, c, x, r⟩ :: ctx) (.node c' l' x' r') := rfl

theorem popLeftmost_append (ctx ctx' : Ctx α) : ∀ (t : RbTree α),
    popLeftmost (ctx ++ ctx') t =
      (popLeftmost ctx t).map fun p => (p.1 ++ ctx', p.2) := by
  intro t
  induction t generalizing ctx with
  | leaf => rfl
  | node c l x r ih _ =>
    cases l with
    | leaf => rfl
    | node c' l' x' r' =>
      rw [popLeftmost_node, popLeftmost_node]
      exact ih (⟨.left, c, x, r⟩ :: ctx)

theorem popLeftmost_isSome (ctx : Ctx α) (c : Color) (l : RbTree α) (x : α) (r : RbTree α) :
    ∃ p, popLeftmost ctx (.node c l x r) = some p := by
  induction l generalizing ctx c x r with
  | leaf => exact ⟨_, rfl⟩
  | node c' l' x' r' ih _ =>
    rw [popLeftmost_node]
    exact ih (⟨.left, c, x, r⟩ :: ctx) c' x' r'

theorem popLeftmost_spec {ctx ctx' : Ctx α} {cy : Color} {y : α} {u : RbTree α}
    (h : popLeftmost ctx t = some (ctx', cy, y, u)) :
    Ctx.before ctx' = Ctx.before ctx ∧
      t.toList ++ Ctx.after ctx = y :: (u.toList ++ Ctx.after ctx') ∧
      ∀ c n, Ctx.Balanced ctx c n → t.Balanced c n →
        ∃ m, Ctx.Balanced ctx' cy m ∧ (RbTree.node cy .leaf y u).Balanced cy m := by
  induction t generalizing ctx with
  | leaf => cases h
  | node c l x r ih _ =>
    cases l with
    | leaf =>
      cases h
      refine ⟨rfl, by simp [toList], fun c₀ n hctx ht => ?_⟩
      obtain ⟨rfl, _⟩ := ht.children
      exact ⟨n, hctx, ht⟩
    | node c' l' x' r' =>
      rw [popLeftmost_node] at h
      obtain ⟨hb, hl, hbal⟩ := ih h
      refine ⟨hb, ?_, fun c₀ n hctx ht => ?_⟩
      · rw [← hl]
        simp [toList, Ctx.after]
      · obtain ⟨rfl, _⟩ := ht.children
        obtain ⟨⟨cl, k, hlb, hdown⟩, _⟩ := hctx.down ht x
        exact hbal cl k hdown hlb

/-- A node has one place in a list without repetitions. -/
theorem split_unique {A B A' B' : List α} (h : A ++ x :: B = A' ++ x :: B')
    (hn : (A ++ x :: B).Nodup) : A = A' ∧ B = B' := by
  induction A generalizing A' with
  | nil =>
    cases A' with
    | nil => exact ⟨rfl, by simpa using h⟩
    | cons a A' =>
      simp only [List.nil_append, List.cons_append, List.cons.injEq] at h
      rw [List.nil_append, h.2] at hn
      simp [h.1] at hn
  | cons b A ih =>
    cases A' with
    | nil =>
      simp only [List.nil_append, List.cons_append, List.cons.injEq] at h
      rw [h.1] at hn
      simp at hn
    | cons a A' =>
      simp only [List.cons_append, List.cons.injEq] at h
      obtain ⟨h1, h2⟩ := ih h.2 (by simpa using (List.nodup_cons.mp hn).2)
      exact ⟨by rw [h.1, h1], h2⟩

theorem leftmost_eq : ∀ (t : RbTree α), t.leftmost = t.toList.head?
  | .leaf => rfl
  | .node _ .leaf _ _ => rfl
  | .node _ (.node c l y r') x r => by
    rw [leftmost, leftmost_eq (.node c l y r')]
    · simp [toList]
    · simp

theorem rightmost_eq : ∀ (t : RbTree α), t.rightmost = t.toList.getLast?
  | .leaf => rfl
  | .node _ _ _ .leaf => by simp [rightmost, toList]
  | .node _ l x (.node c l' y r) => by
    rw [rightmost, rightmost_eq (.node c l' y r)]
    · rw [toList.eq_2 _ l x, List.append_cons]
      exact (List.getLast?_append_of_ne_nil _ (by simp [toList])).symm
    · simp

theorem climb_left : ∀ (ctx : Ctx α), climb .left ctx = (Ctx.after ctx).head?
  | [] => rfl
  | f :: ctx => by
    cases hs : f.side
    · simp [climb, Ctx.after, hs]
    · simp [climb, Ctx.after, hs, climb_left ctx]

theorem climb_right : ∀ (ctx : Ctx α), climb .right ctx = (Ctx.before ctx).getLast?
  | [] => rfl
  | f :: ctx => by
    cases hs : f.side
    · simp [climb, Ctx.before, hs, climb_right ctx]
    · simp [climb, Ctx.before, hs]

section Locate

variable [DecidableEq α]

/-- The search for a node finds the place of a node of the tree. -/
theorem locate_spec : ∀ (t : RbTree α) (ctx : Ctx α) (x : α), x ∈ t.toList →
    ∃ ctx' c l r, locate x ctx t = some (ctx', .node c l x r) ∧
      Ctx.plug ctx' (.node c l x r) = Ctx.plug ctx t ∧
      ∀ c₀ n, Ctx.Balanced ctx c₀ n → t.Balanced c₀ n →
        ∃ m, Ctx.Balanced ctx' c m ∧ (RbTree.node c l x r).Balanced c m
  | .leaf, ctx, x, hx => by cases hx
  | .node c l y r, ctx, x, hx => by
    unfold locate
    by_cases hyx : y = x
    · subst hyx
      rw [if_pos rfl]
      refine ⟨ctx, c, l, r, rfl, rfl, fun c₀ n hctx ht => ?_⟩
      obtain ⟨rfl, _⟩ := ht.children
      exact ⟨n, hctx, ht⟩
    · rw [if_neg hyx]
      cases hleft : locate x (⟨.left, c, y, r⟩ :: ctx) l with
      | some p =>
        rw [Option.some_or]
        have hxl : x ∈ l.toList := by
          by_contra hn
          exact absurd hleft (by rw [locate_none l _ x hn]; simp)
        obtain ⟨ctx', c', l', r', hloc, hplug, hbal⟩ :=
          locate_spec l (⟨.left, c, y, r⟩ :: ctx) x hxl
        rw [hleft] at hloc
        refine ⟨ctx', c', l', r', hloc, hplug, fun c₀ n hctx ht => ?_⟩
        obtain ⟨rfl, _⟩ := ht.children
        obtain ⟨⟨cl, k, hlb, hdown⟩, _⟩ := hctx.down ht y
        exact hbal cl k hdown hlb
      | none =>
        rw [Option.none_or]
        have hxr : x ∈ r.toList := by
          rcases List.mem_append.mp hx with hx | hx
          · obtain ⟨_, _, _, _, hloc, _⟩ := locate_spec l (⟨.left, c, y, r⟩ :: ctx) x hx
            rw [hleft] at hloc
            cases hloc
          · rcases List.mem_cons.mp hx with hx | hx
            · exact absurd hx.symm hyx
            · exact hx
        obtain ⟨ctx', c', l', r', hloc, hplug, hbal⟩ :=
          locate_spec r (⟨.right, c, y, l⟩ :: ctx) x hxr
        refine ⟨ctx', c', l', r', hloc, hplug, fun c₀ n hctx ht => ?_⟩
        obtain ⟨rfl, _⟩ := ht.children
        obtain ⟨_, ⟨cr, k, hrb, hdown⟩⟩ := hctx.down ht y
        exact hbal cr k hdown hrb
where
  locate_none : ∀ (t : RbTree α) (ctx : Ctx α) (x : α), x ∉ t.toList → locate x ctx t = none
  | .leaf, _, _, _ => rfl
  | .node c l y r, ctx, x, hx => by
    simp only [toList, List.mem_append, List.mem_cons, not_or] at hx
    rw [locate, if_neg (Ne.symm hx.2.1), locate_none l _ x hx.1, locate_none r _ x hx.2.2]
    rfl

/-- **`rb_erase`** of a node of a valid tree leaves a valid tree without that node. -/
theorem rbErase_spec (ht : t.Valid) (hx : x ∈ t.toList) :
    ∃ t' A B, rbErase t x = .ok t' ∧ t'.Valid ∧ t.toList = A ++ x :: B ∧ t'.toList = A ++ B := by
  obtain ⟨n, hn⟩ := ht
  obtain ⟨ctx, c, l, r, hloc, hplug, hbal⟩ := locate_spec t [] x hx
  obtain ⟨m, hctx, hnode⟩ := hbal .black n .root hn
  obtain ⟨_, cl, cr, k, hl, hr, hk⟩ := hnode.children
  have hlist : t.toList = (Ctx.before ctx ++ l.toList) ++ x :: (r.toList ++ Ctx.after ctx) := by
    have : t = Ctx.plug ctx (.node c l x r) := hplug.symm
    rw [this, toList_plug]
    simp [toList]
  unfold rbErase
  rw [hloc]
  simp only
  by_cases hkids : (!l.isLeaf && !r.isLeaf) = true
  · -- two children: the successor takes the node's place and colour
    rw [if_pos hkids]
    simp only [Bool.and_eq_true, Bool.not_eq_true'] at hkids
    obtain ⟨rc, rl, rx, rr, rfl⟩ : ∃ rc rl rx rr, r = .node rc rl rx rr := by
      cases r with
      | leaf => exact absurd hkids.2 (by simp [isLeaf])
      | node rc rl rx rr => exact ⟨rc, rl, rx, rr, rfl⟩
    obtain ⟨⟨inner, cy, y, u⟩, hpop⟩ := popLeftmost_isSome [] rc rl rx rr
    have hpop' : popLeftmost (⟨.right, c, y, l⟩ :: ctx) (.node rc rl rx rr) =
        some (inner ++ ⟨.right, c, y, l⟩ :: ctx, cy, y, u) := by
      have := popLeftmost_append [] (⟨.right, c, y, l⟩ :: ctx) (.node rc rl rx rr)
      rw [List.nil_append, hpop] at this
      exact this
    obtain ⟨hbefore, hafter, hpopbal⟩ := popLeftmost_spec hpop'
    obtain ⟨_, ⟨cr', k', hr', hdown⟩⟩ := hctx.down hnode y
    obtain ⟨m', hctx', hnode'⟩ := hpopbal cr' k' hdown hr'
    obtain ⟨_, _, cu, k'', _, hu, hk''⟩ := hnode'.children
    rw [hpop]
    simp only
    obtain ⟨t', hfin, hvalid, hl'⟩ := eraseFinish_spec hctx' hu (by
      rcases hk'' with ⟨h1, _, h2, h3⟩ | ⟨h1, h2⟩
      · exact Or.inl ⟨h1, h2, h3⟩
      · exact Or.inr ⟨h1, h2⟩)
    refine ⟨t', _, _, hfin, hvalid, hlist, ?_⟩
    rw [hl', hbefore]
    have hafter' : (RbTree.node rc rl rx rr).toList ++ Ctx.after ctx =
        y :: (u.toList ++ Ctx.after (inner ++ ⟨.right, c, y, l⟩ :: ctx)) := hafter
    rw [hafter']
    simp [Ctx.before]
  · rw [if_neg hkids]
    cases l with
    | leaf =>
      obtain ⟨t', hfin, hvalid, hl'⟩ := eraseFinish_spec hctx hr (by
        rcases hk with ⟨h1, _, h2, h3⟩ | ⟨h1, h2⟩
        · exact Or.inl ⟨h1, h2, h3⟩
        · exact Or.inr ⟨h1, h2⟩)
      exact ⟨t', _, _, hfin, hvalid, hlist, by rw [hl']; simp [toList]⟩
    | node lc ll lx lr =>
      have hleaf : r = .leaf := by
        cases r with
        | leaf => rfl
        | node => simp [isLeaf] at hkids
      subst hleaf
      obtain ⟨t', hfin, hvalid, hl'⟩ := eraseFinish_spec hctx hl (by
        rcases hk with ⟨h1, h2, _, h3⟩ | ⟨h1, h2⟩
        · exact Or.inl ⟨h1, h2, h3⟩
        · exact Or.inr ⟨h1, h2⟩)
      exact ⟨t', _, _, hfin, hvalid, hlist, by rw [hl']; simp [toList]⟩

/-! ## Iteration -/

/-- The place of a node and its place in the list. -/
theorem locate_split {A B : List α} (hn : t.toList.Nodup) (hx : t.toList = A ++ x :: B) :
    ∃ ctx c l r, locate x [] t = some (ctx, .node c l x r) ∧
      A = Ctx.before ctx ++ l.toList ∧ B = r.toList ++ Ctx.after ctx := by
  obtain ⟨ctx, c, l, r, hloc, hplug, _⟩ := locate_spec t [] x (by rw [hx]; simp)
  have hlist : t.toList = (Ctx.before ctx ++ l.toList) ++ x :: (r.toList ++ Ctx.after ctx) := by
    have : t = Ctx.plug ctx (.node c l x r) := hplug.symm
    rw [this, toList_plug]
    simp [toList]
  rw [hx] at hlist hn
  obtain ⟨hA, hB⟩ := split_unique hlist hn
  exact ⟨ctx, c, l, r, hloc, hA, hB⟩

/-- **`rb_next`** is the next element of the list. -/
theorem rbNext_spec {A B : List α} (hn : t.toList.Nodup) (hx : t.toList = A ++ x :: B) :
    rbNext t x = .ok B.head? := by
  obtain ⟨ctx, c, l, r, hloc, _, rfl⟩ := locate_split hn hx
  unfold rbNext
  rw [hloc]
  simp only
  cases r with
  | leaf => simp [isLeaf, climb_left, toList]
  | node => simp [isLeaf, leftmost_eq, toList]

/-- **`rb_prev`** is the previous element of the list. -/
theorem rbPrev_spec {A B : List α} (hn : t.toList.Nodup) (hx : t.toList = A ++ x :: B) :
    rbPrev t x = .ok A.getLast? := by
  obtain ⟨ctx, c, l, r, hloc, rfl, _⟩ := locate_split hn hx
  unfold rbPrev
  rw [hloc]
  simp only
  cases l with
  | leaf => simp [isLeaf, climb_right, toList]
  | node =>
    rw [if_neg (by simp [isLeaf]), rightmost_eq,
      List.getLast?_append_of_ne_nil _ (by simp [toList])]

/-- `rb_erase` removes the node from the list. -/
theorem rbErase_split {A B : List α} (ht : t.Valid) (hn : t.toList.Nodup)
    (hx : t.toList = A ++ x :: B) :
    ∃ t', rbErase t x = .ok t' ∧ t'.Valid ∧ t'.toList = A ++ B := by
  obtain ⟨t', A', B', herase, hvalid, hlist, hlist'⟩ := rbErase_spec (x := x) ht (by rw [hx]; simp)
  rw [hx] at hlist hn
  obtain ⟨rfl, rfl⟩ := split_unique hlist hn
  exact ⟨t', herase, hvalid, hlist'⟩

end Locate

/-! ## Searches -/

/-- **The descent to a slot**, when the nodes that satisfy `p` come first: the slot lies between
them and the others. -/
theorem descend_spec {p : α → Bool} : ∀ (t : RbTree α) (ctx : Ctx α) (A B : List α),
    t.toList = A ++ B → (∀ a ∈ A, p a = true) → (∀ b ∈ B, p b = false) →
    Ctx.before (descend p ctx t) = Ctx.before ctx ++ A ∧
      Ctx.after (descend p ctx t) = B ++ Ctx.after ctx
  | .leaf, ctx, A, B, h, _, _ => by
    obtain ⟨rfl, rfl⟩ := List.append_eq_nil_iff.mp h.symm
    simp [descend]
  | .node c l x r, ctx, A, B, h, hA, hB => by
    unfold descend
    rw [toList] at h
    by_cases hx : p x = true
    · rw [if_pos hx]
      obtain ⟨A', rfl, hr⟩ : ∃ A', A = l.toList ++ x :: A' ∧ r.toList = A' ++ B := by
        rcases List.append_eq_append_iff.mp h with ⟨A', hA', hr⟩ | ⟨B', hl, hB'⟩
        · cases A' with
          | nil =>
            rw [List.nil_append] at hr
            rw [hB x (by rw [← hr]; simp)] at hx
            cases hx
          | cons a A' =>
            rw [List.cons_append, List.cons.injEq] at hr
            exact ⟨A', by rw [hA', hr.1], hr.2⟩
        · rw [hB x (by rw [hB']; simp)] at hx
          cases hx
      obtain ⟨h1, h2⟩ := descend_spec r (⟨.right, c, x, l⟩ :: ctx) A' B hr
        (fun a ha => hA a (by simp [ha])) hB
      exact ⟨by rw [h1]; simp [Ctx.before], by rw [h2]; simp [Ctx.after]⟩
    · rw [if_neg hx]
      obtain ⟨B', rfl, hl⟩ : ∃ B', B = B' ++ x :: r.toList ∧ l.toList = A ++ B' := by
        rcases List.append_eq_append_iff.mp h with ⟨A', hA', hr⟩ | ⟨B', hl, hB'⟩
        · cases A' with
          | nil =>
            refine ⟨[], by simpa using hr.symm, by simpa using hA'.symm⟩
          | cons a A' =>
            rw [List.cons_append, List.cons.injEq] at hr
            exact absurd (hA x (by rw [hA', hr.1]; simp)) hx
        · exact ⟨B', hB', hl⟩
      obtain ⟨h1, h2⟩ := descend_spec l (⟨.left, c, x, r⟩ :: ctx) A B' hl hA
        (fun b hb => hB b (by simp [hb]))
      exact ⟨by rw [h1]; simp [Ctx.before], by rw [h2]; simp [Ctx.after]⟩

theorem descend_balanced {p : α → Bool} : ∀ (t : RbTree α) (ctx : Ctx α) (c : Color) (n : Nat),
    Ctx.Balanced ctx c n → t.Balanced c n → Ctx.Balanced (descend p ctx t) .black 0
  | .leaf, ctx, c, n, hctx, ht => by
    cases ht
    exact hctx
  | .node c' l x r, ctx, c, n, hctx, ht => by
    unfold descend
    obtain ⟨rfl, _⟩ := ht.children
    obtain ⟨⟨cl, k, hl, hdl⟩, ⟨cr, k', hr, hdr⟩⟩ := hctx.down ht x
    split
    · exact descend_balanced r _ cr k' hdr hr
    · exact descend_balanced l _ cl k hdl hl

/-- **A new node in the slot of a descent.** -/
theorem rbInsert_descend {p : α → Bool} {A B : List α} (ht : t.Valid) (h : t.toList = A ++ B)
    (hA : ∀ a ∈ A, p a = true) (hB : ∀ b ∈ B, p b = false) (x : α) :
    ∃ t', rbInsert (descend p [] t) (rbLink x) = .ok t' ∧ t'.Valid ∧ t'.toList = A ++ x :: B := by
  obtain ⟨n, hn⟩ := ht
  obtain ⟨h1, h2⟩ := descend_spec t [] A B h hA hB
  obtain ⟨t', hins, hvalid, hlist⟩ := rbInsert_spec (descend p [] t) (rbLink x) 0
    (descend_balanced t [] .black n .root hn) (.red .leaf .leaf)
  refine ⟨t', hins, hvalid, ?_⟩
  rw [hlist, h1, h2]
  simp [rbLink, toList, Ctx.before, Ctx.after]

/-- **The search for the first node** that satisfies `p`, when those nodes come last. -/
theorem lowerBound_spec {p : α → Bool} : ∀ (t : RbTree α) (ptr : Option α) (A B : List α),
    t.toList = A ++ B → (∀ a ∈ A, p a = false) → (∀ b ∈ B, p b = true) →
    lowerBound p ptr t = B.head?.or ptr
  | .leaf, ptr, A, B, h, _, _ => by
    obtain ⟨rfl, rfl⟩ := List.append_eq_nil_iff.mp h.symm
    rfl
  | .node c l x r, ptr, A, B, h, hA, hB => by
    unfold lowerBound
    rw [toList] at h
    by_cases hx : p x = true
    · rw [if_pos hx]
      obtain ⟨B', rfl, hl⟩ : ∃ B', B = B' ++ x :: r.toList ∧ l.toList = A ++ B' := by
        rcases List.append_eq_append_iff.mp h with ⟨A', hA', hr⟩ | ⟨B', hl, hB'⟩
        · cases A' with
          | nil => exact ⟨[], by simpa using hr.symm, by simpa using hA'.symm⟩
          | cons a A' =>
            rw [List.cons_append, List.cons.injEq] at hr
            rw [hA x (by rw [hA', hr.1]; simp)] at hx
            cases hx
        · exact ⟨B', hB', hl⟩
      rw [lowerBound_spec l (some x) A B' hl hA fun b hb => hB b (by simp [hb])]
      cases B' <;> rfl
    · rw [if_neg hx]
      obtain ⟨A', rfl, hr⟩ : ∃ A', A = l.toList ++ x :: A' ∧ r.toList = A' ++ B := by
        rcases List.append_eq_append_iff.mp h with ⟨A', hA', hr⟩ | ⟨B', hl, hB'⟩
        · cases A' with
          | nil =>
            rw [List.nil_append] at hr
            exact absurd (hB x (by rw [← hr]; simp)) hx
          | cons a A' =>
            rw [List.cons_append, List.cons.injEq] at hr
            exact ⟨A', by rw [hA', hr.1], hr.2⟩
        · exact absurd (hB x (by rw [hB']; simp)) hx
      exact lowerBound_spec r ptr A' B hr (fun a ha => hA a (by simp [ha])) hB

end AuOs
