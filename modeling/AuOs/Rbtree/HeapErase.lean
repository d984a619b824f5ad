import Mathlib
import AuOs.Rbtree.HeapInsert

/-!
# Erasure in memory

* `liftSibling_mk`, `eraseRotate_mk` — the steps of `rbEraseFix`, seen from either side.
* `eraseLoop_refines`, `rbEraseFix_refines` — `rb_erase_fix` in memory does what `rbEraseFix` does
  to trees.
* `unlink_refines` — a node with one child at most leaves the tree.
-/

set_option autoImplicit false

namespace AuOs

variable {own : Set RbPtr} {rest : RbPtr → Option RbNode} {h : RbHeap} {ctx : Ctx RbPtr}
  {t t' a b d u near far : RbTree RbPtr} {s : Side} {c c' pc : Color} {x y : RbPtr}

/-! ## The steps on trees -/

theorem liftSibling_mk : liftSibling ⟨s, c, x, .mk s .red b y d⟩ ctx =
    (⟨s, .red, x, b⟩, ⟨s, .black, y, d⟩ :: ctx) := by
  cases s <;> rfl

theorem liftSibling_black (hu : u.isRed = false) :
    liftSibling ⟨s, c, x, u⟩ ctx = (⟨s, c, x, u⟩, ctx) := by
  cases u with
  | leaf => cases s <;> rfl
  | node c' l y r =>
    cases c' with
    | red => cases hu
    | black => cases s <;> rfl

/-- The sibling after the first rotation that `rb_erase_fix` ends with. -/
def straightSibling (s : Side) (c' : Color) (near : RbTree RbPtr) (y : RbPtr) (far : RbTree RbPtr) :
    Res (RbTree RbPtr) :=
  if far.isRed then .ok (.mk s c' near y far)
  else rotate s.other (.mk s .red (near.setColor .black) y far)

theorem eraseRotate_mk (hn : near ≠ .leaf ∨ far.isRed = true) :
    ∃ cb n z f, straightSibling s c' near y far = .ok (.mk s cb n z f) ∧
      eraseRotate ⟨s, pc, x, .mk s c' near y far⟩ b =
        .ok (.mk s pc (.mk s .black b x n) z (f.setColor .black)) := by
  have hchild : (RbTree.mk s c' near y far).child s.other = far := by cases s <;> rfl
  unfold straightSibling
  cases hf : far.isRed with
  | true =>
    refine ⟨c', near, y, far, rfl, ?_⟩
    unfold eraseRotate
    simp only [hchild, hf, if_true, ok_bind]
    cases s <;> rfl
  | false =>
    have hnear : near ≠ .leaf := hn.resolve_right (by simp [hf])
    obtain ⟨cn, p, w, q, rfl⟩ := RbTree.exists_mk s.other hnear
    refine ⟨.black, q, w, .mk s .red p y far, ?_, ?_⟩
    · simp only [Bool.false_eq_true, if_false]
      cases s <;> rfl
    · unfold eraseRotate
      simp only [hchild, hf, Bool.false_eq_true, if_false]
      cases s <;> rfl

/-! ## The steps in memory -/

/-- The sibling of the node in focus is in focus. -/
theorem At.sibling : At own rest h (⟨s, c, x, u⟩ :: ctx) t ↔
    At own rest h (⟨s.other, c, x, t⟩ :: ctx) u := by
  rw [At.up, At.up, fill_mk, fill_mk, RbTree.mk_other]

theorem At.setColor_if (h' : At own rest h ctx t) (c : Color) :
    ∃ h₁, (if t.ptr = 0 then .ok h else h.rbSetColor t.ptr c.bit) = .ok h₁ ∧
      At own rest h₁ ctx (t.setColor c) := by
  cases t with
  | leaf => exact ⟨h, rfl, h'⟩
  | node c' l z r =>
    obtain ⟨h₁, hset, h₁'⟩ := h'.setColor nofun c
    have hz : (RbTree.node c' l z r).ptr ≠ 0 := (At.node_eq (s := .left) h').1
    exact ⟨h₁, (if_neg hz).trans hset, h₁'⟩

/-- **The step for a red sibling.** -/
theorem liftSibling_refines {p : Frame RbPtr} (h' : At own rest h (p :: ctx) t) :
    ∃ h₁, RbHeap.liftSibling p.side h p.elem p.sibling.ptr =
        .ok (h₁, (liftSibling p ctx).1.sibling.ptr) ∧
      At own rest h₁ ((liftSibling p ctx).1 :: (liftSibling p ctx).2) t ∧
      (liftSibling p ctx).1.side = p.side ∧ (liftSibling p ctx).1.elem = p.elem := by
  obtain ⟨s, c, x, u⟩ := p
  have hu := (At.sibling.mp h').rbRed
  unfold RbHeap.liftSibling
  simp only
  rw [hu, ok_bind]
  cases hr : u.isRed with
  | false =>
    rw [liftSibling_black hr]
    exact ⟨h, rfl, h', rfl, rfl⟩
  | true =>
    obtain ⟨cu, b, y, d, rfl⟩ := RbTree.exists_mk s (t := u) fun e => by rw [e] at hr; cases hr
    have hcu : cu = .red := by
      cases cu with
      | red => rfl
      | black => cases s <;> cases hr
    subst hcu
    rw [liftSibling_mk]
    rw [if_pos rfl, RbTree.ptr_mk]
    obtain ⟨h₁, hblack, h₁'⟩ := (At.sibling.mp h').setColor (by cases s <;> exact nofun) .black
    rw [RbTree.setColor_mk] at h₁'
    rw [RbTree.ptr_mk] at hblack
    replace h₁' := At.up.mp (At.sibling.mpr h₁')
    rw [fill_mk] at h₁'
    obtain ⟨h₂, hred, h₂'⟩ := h₁'.setColor (by cases s <;> exact nofun) .red
    rw [RbTree.setColor_mk] at h₂'
    rw [RbTree.ptr_mk] at hred
    obtain ⟨h₃, hrot, h₃'⟩ := h₂'.rotate
    have hfocus := (At.up (f := ⟨s, .black, y, d⟩)).mpr h₃'
    refine ⟨h₃, ?_, At.up.mpr hfocus, rfl, rfl⟩
    rw [show h.rbSetBlack y = .ok h₁ from hblack, ok_bind,
      show h₁.rbSetRed x = .ok h₂ from hred, ok_bind, hrot, ok_bind, hfocus.child_other]
    rfl

/-- The sibling before the last rotation. -/
theorem straightenSibling_refines (h' : At own rest h (⟨s, pc, x, .mk s c' near y far⟩ :: ctx) t)
    {B : RbTree RbPtr} (hB : straightSibling s c' near y far = .ok B)
    (hn : near ≠ .leaf ∨ far.isRed = true) :
    ∃ h₁, RbHeap.straightenSibling s h x y = .ok (h₁, B.ptr) ∧
      At own rest h₁ (⟨s, pc, x, B⟩ :: ctx) t := by
  have hb := At.sibling.mp h'
  have hf := ((At.up (f := ⟨s.other, c', y, near⟩)).mpr
    (by rw [fill_mk, RbTree.mk_other]; exact hb)).rbBlack
  unfold RbHeap.straightenSibling
  rw [hb.child_other, ok_bind, hf, ok_bind]
  unfold straightSibling at hB
  cases hr : far.isRed with
  | true =>
    rw [hr] at hB
    cases hB
    exact ⟨h, by simp, h'⟩
  | false =>
    have hnear : near ≠ .leaf := hn.resolve_right (by simp [hr])
    rw [hr] at hB
    simp only [Bool.false_eq_true, if_false, Bool.not_false, if_true] at hB ⊢
    rw [hb.child, ok_bind]
    obtain ⟨h₁, hblack, h₁'⟩ := ((At.up (f := ⟨s, c', y, far⟩)).mpr hb).setColor hnear .black
    replace h₁' := At.up.mp h₁'
    rw [fill_mk] at h₁'
    obtain ⟨h₂, hred, h₂'⟩ := h₁'.setColor (by cases s <;> exact nofun) .red
    rw [RbTree.setColor_mk] at h₂'
    rw [RbTree.ptr_mk] at hred
    obtain ⟨cn, p, w, q, hcn⟩ := RbTree.exists_mk s.other (t := near.setColor .black) (by
      cases near with
      | leaf => exact absurd rfl hnear
      | node => exact nofun)
    rw [hcn, ← RbTree.mk_other] at h₂'
    rw [hcn, ← RbTree.mk_other, rotate_mk] at hB
    cases hB
    obtain ⟨h₃, hrot, h₃'⟩ := h₂'.rotate
    refine ⟨h₃, ?_, At.sibling.mpr h₃'⟩
    have hx := At.up.mp (At.sibling.mpr h₃')
    rw [fill_mk] at hx
    rw [show h.rbSetBlack near.ptr = .ok h₁ from hblack, ok_bind,
      show h₁.rbSetRed y = .ok h₂ from hred, ok_bind, hrot, ok_bind, hx.child_other]
    rfl

/-- **The rotations that end `rb_erase_fix`.** -/
theorem eraseRotate_refines (h' : At own rest h (⟨s, pc, x, .mk s c' near y far⟩ :: ctx) t)
    (hn : near ≠ .leaf ∨ far.isRed = true) {T : RbTree RbPtr}
    (hT : eraseRotate ⟨s, pc, x, .mk s c' near y far⟩ t = .ok T) :
    ∃ h₁, RbHeap.eraseRotate s h x y = .ok h₁ ∧ At own rest h₁ ctx T ∧ T ≠ .leaf := by
  obtain ⟨cb, n, z, f, hB, hT'⟩ := @eraseRotate_mk t _ _ s c' pc x y hn
  obtain rfl := Except.ok.inj (hT.symm.trans hT')
  obtain ⟨h₁, hstraight, h₁'⟩ := straightenSibling_refines h' hB hn
  rw [RbTree.ptr_mk] at hstraight
  have hx := At.up.mp h₁'
  rw [fill_mk] at hx
  -- the colours
  obtain ⟨h₂, hcol, h₂'⟩ := (At.sibling.mp h₁').setColor (by cases s <;> exact nofun) pc
  rw [RbTree.setColor_mk] at h₂'
  rw [RbTree.ptr_mk] at hcol
  replace h₂' := At.up.mp (At.sibling.mpr h₂')
  rw [fill_mk] at h₂'
  obtain ⟨h₃, hblack, h₃'⟩ := h₂'.setColor (by cases s <;> exact nofun) .black
  rw [RbTree.setColor_mk] at h₃'
  rw [RbTree.ptr_mk] at hblack
  have hz := At.sibling.mp ((At.up (f := ⟨s, .black, x, _⟩)).mpr h₃')
  obtain ⟨h₄, hfar, h₄'⟩ := ((At.up (f := ⟨s.other, pc, z, n⟩)).mpr
    (by rw [fill_mk, RbTree.mk_other]; exact hz)).setColor_if .black
  replace h₄' := At.up.mp h₄'
  rw [fill_mk, RbTree.mk_other] at h₄'
  replace h₄' := At.up.mp (At.sibling.mpr h₄')
  rw [fill_mk] at h₄'
  obtain ⟨h₅, hrot, h₅'⟩ := h₄'.rotate
  refine ⟨h₅, ?_, h₅', by cases s <;> exact nofun⟩
  rw [RbHeap.eraseRotate, hstraight, ok_bind]
  simp only
  rw [hx.rbColor, ok_bind, hcol, ok_bind, show h₂.rbSetBlack x = .ok h₃ from hblack, ok_bind,
    hz.child_other, ok_bind]
  exact (congrArg (· >>= fun h => RbHeap.rbRotate s h x) hfar).trans hrot

/-! ## The loop -/

theorem ptr_plug_mem : ∀ (f : Frame RbPtr) (ctx : Ctx RbPtr) (t : RbTree RbPtr),
    (Ctx.plug (f :: ctx) t).ptr ∈ Ctx.ids (f :: ctx)
  | f, [], t => by simp [Ctx.plug, Frame.fill, Ctx.ids]
  | f, g :: ctx, t => by
    have h := ptr_plug_mem g ctx (f.fill t)
    simp only [Ctx.ids, List.mem_cons, List.mem_append] at h ⊢
    exact Or.inr (Or.inr h)

/-- A node below another one is not the root. -/
theorem At.root_ne {f : Frame RbPtr} (h' : At own rest h (f :: ctx) t) : t.ptr ≠ h.root := by
  have hroot : h.root = (Ctx.plug (f :: ctx) t).ptr := (At.plug.mp h').hole
  rw [hroot]
  have hmem := ptr_plug_mem f ctx t
  intro he
  rw [← he] at hmem
  cases t with
  | leaf => exact h'.zero_notMem (List.mem_append_right _ hmem)
  | node c l x r =>
    exact (List.nodup_append.mp h'.nodup).2.2 x (by simp [RbTree.toList]) x hmem rfl

/-- One turn of the loop on trees. -/
theorem rbEraseFix_mk {fuel : Nat} {p : Frame RbPtr} {ctx' : Ctx RbPtr} (ht : t.isRed = false)
    (hlift : liftSibling p ctx = (⟨s, pc, x, .mk s c' near y far⟩, ctx')) :
    rbEraseFix (fuel + 1) (p :: ctx) t =
      if !near.isRed && !far.isRed then rbEraseFix fuel ctx' (.mk s pc t x (.mk s .red near y far))
      else do
        let T ← eraseRotate ⟨s, pc, x, .mk s c' near y far⟩ t
        return (Ctx.plug ctx' T).setColor .black := by
  rw [rbEraseFix, ht, if_neg Bool.false_ne_true, hlift]
  cases s with
  | left => rfl
  | right =>
    show (if !far.isRed && !near.isRed then _ else _) = _
    rw [Bool.and_comm]
    rfl

/-- **The loop of `rb_erase_fix`** does to the nodes in memory what `rbEraseFix` does to trees; the
node it ends with is blackened after it. -/
theorem eraseLoop_refines : ∀ (fuel : Nat) (ctx : Ctx RbPtr) (t t' : RbTree RbPtr) (h : RbHeap),
    At own rest h ctx t → rbEraseFix fuel ctx t = .ok t' →
    ∃ h₁ ctx₁ t₁, RbHeap.eraseLoop fuel h t.ptr (Ctx.ptr ctx) = .ok (h₁, t₁.ptr) ∧
      At own rest h₁ ctx₁ t₁ ∧ Ctx.plug ctx₁ (t₁.setColor .black) = t'
  | 0, _, _, _, _, _, hfix => by cases hfix
  | fuel + 1, [], t, t', h, h', hfix => by
    refine ⟨h, [], t, ?_, h', Except.ok.inj hfix⟩
    rw [RbHeap.eraseLoop, h'.rbBlack, ok_bind, if_neg]
    · rfl
    · exact fun hc => hc.2 h'.hole.symm
  | fuel + 1, p :: ctx, t, t', h, h', hfix => by
    have hfix' := hfix
    rw [rbEraseFix] at hfix
    rw [RbHeap.eraseLoop, h'.rbBlack, ok_bind]
    cases hr : t.isRed with
    | true =>
      rw [hr, if_pos rfl] at hfix
      exact ⟨h, p :: ctx, t, by simp, h', Except.ok.inj hfix⟩
    | false =>
      rw [hr, if_neg Bool.false_ne_true] at hfix
      obtain ⟨h₁, hlift, h₁', hside, helem⟩ := liftSibling_refines h'
      generalize hp' : liftSibling p ctx = q at *
      obtain ⟨⟨s, pc, x, u⟩, ctx'⟩ := q
      simp only at hfix hlift h₁' hside helem
      rw [if_pos ⟨rfl, h'.root_ne⟩]
      -- the side is found by a comparison with the left child
      have hp := At.up.mp h'
      obtain ⟨ps, pc', px, pu⟩ := p
      simp only at hside helem
      subst hside helem
      rw [fill_mk] at hp
      have hul : u ≠ .leaf := fun e => by rw [e] at hfix; cases hfix
      have hne : t ≠ .leaf ∨ pu ≠ .leaf := by
        refine Or.inr fun e => hul ?_
        subst e
        rw [liftSibling_black rfl] at hp'
        simp only [Prod.mk.injEq, Frame.mk.injEq] at hp'
        exact hp'.1.2.2.2.symm
      obtain ⟨l, hl, htest⟩ := hp.side_eq hne
      rw [Ctx.ptr, hl, ok_bind]
      simp only [htest]
      rw [hp.child_other, ok_bind, hlift, ok_bind]
      obtain ⟨c', near, y, far, rfl⟩ := RbTree.exists_mk s hul
      have hb := At.sibling.mp h₁'
      have hnear := ((At.up (f := ⟨s, c', y, far⟩)).mpr hb).rbBlack
      have hfar := ((At.up (f := ⟨s.other, c', y, near⟩)).mpr
        (by rw [fill_mk, RbTree.mk_other]; exact hb)).rbBlack
      simp only [RbTree.ptr_mk]
      rw [hb.child, ok_bind, hb.child_other, ok_bind, hnear, ok_bind, hfar]
      rw [rbEraseFix_mk hr hp'] at hfix'
      cases hblack : (!near.isRed && !far.isRed) with
      | true =>
        rw [hblack, if_pos rfl] at hfix'
        obtain ⟨hn, hf⟩ := Bool.and_eq_true_iff.mp hblack
        rw [hn, hf]
        simp only [if_true, ok_bind]
        obtain ⟨h₂, hred, h₂'⟩ := hb.setColor (by cases s <;> exact fun h => by cases h) .red
        rw [RbTree.setColor_mk] at h₂'
        rw [RbTree.ptr_mk] at hred
        replace h₂' := At.up.mp (At.sibling.mpr h₂')
        rw [fill_mk] at h₂'
        obtain ⟨h₃, ctx₁, t₁, hloop, h₃', hplug⟩ := eraseLoop_refines fuel ctx' _ t' h₂ h₂' hfix'
        refine ⟨h₃, ctx₁, t₁, ?_, h₃', hplug⟩
        rw [show h₁.rbSetRed y = .ok h₂ from hred, ok_bind, h₂'.rbParent, ok_bind]
        rw [RbTree.ptr_mk] at hloop
        exact hloop
      | false =>
        rw [hblack, if_neg Bool.false_ne_true] at hfix'
        have hn : near ≠ .leaf ∨ far.isRed = true := by
          refine or_iff_not_imp_right.mpr fun hf e => ?_
          rw [e, Bool.eq_false_iff.mpr hf] at hblack
          cases hblack
        obtain ⟨T, hT, hfix'⟩ := bind_eq_ok.mp hfix'
        obtain ⟨h₂, hrot, h₂', hTl⟩ := eraseRotate_refines h₁' hn hT
        have hroot := At.plug.mp h₂'
        refine ⟨h₂, [], Ctx.plug ctx' T, ?_, hroot, Except.ok.inj hfix'⟩
        have htest : (if (!near.isRed) = true then (.ok (!far.isRed) : Res Bool) else .ok false) =
            .ok false := by
          rw [← hblack]
          cases near.isRed <;> rfl
        rw [htest, ok_bind, if_neg Bool.false_ne_true, hrot, ok_bind,
          show h₂.root = _ from hroot.hole]
        rfl

/-- **`rb_erase_fix`** in memory does what `rbEraseFix` does to trees. -/
theorem rbEraseFix_refines {fuel : Nat} (h' : At own rest h ctx t)
    (hfix : rbEraseFix fuel ctx t = .ok t') :
    ∃ h₁, RbHeap.rbEraseFix fuel h t.ptr (Ctx.ptr ctx) = .ok h₁ ∧ At own rest h₁ [] t' := by
  obtain ⟨h₁, ctx₁, t₁, hloop, h₁', rfl⟩ := eraseLoop_refines fuel ctx t t' h h' hfix
  obtain ⟨h₂, hblack, h₂'⟩ := h₁'.setColor_if .black
  refine ⟨h₂, ?_, At.plug.mp h₂'⟩
  rw [RbHeap.rbEraseFix, hloop, ok_bind]
  exact hblack

/-- More fuel does not change the result. -/
theorem rbEraseFix_mono {fuel fuel' : Nat} (hle : fuel ≤ fuel')
    (hfix : rbEraseFix fuel ctx t = .ok t') : rbEraseFix fuel' ctx t = .ok t' := by
  induction fuel generalizing fuel' ctx t with
  | zero => cases hfix
  | succ fuel ih =>
    obtain ⟨fuel', rfl⟩ : ∃ k, fuel' = k + 1 := ⟨fuel' - 1, by omega⟩
    cases ctx with
    | nil => exact hfix
    | cons p ctx =>
      rw [rbEraseFix] at hfix ⊢
      split
      · rw [if_pos ‹_›] at hfix
        exact hfix
      · rw [if_neg ‹_›] at hfix
        generalize liftSibling p ctx = q at *
        obtain ⟨⟨s, c, x, u⟩, ctx'⟩ := q
        cases u with
        | leaf => cases hfix
        | node c' l y r =>
          simp only at hfix ⊢
          split
          · rw [if_pos ‹_›] at hfix
            exact ih (by omega) hfix
          · rw [if_neg ‹_›] at hfix
            exact hfix

theorem eraseFinish_refines {fuel : Nat} (h' : At own rest h ctx t)
    (hfix : eraseFinish c ctx t = .ok t') (hf : ctx.length + 2 ≤ fuel) :
    ∃ h₁, (if c.bit = BLACK then RbHeap.rbEraseFix fuel h t.ptr (Ctx.ptr ctx) else .ok h) = .ok h₁ ∧
      At own rest h₁ [] t' := by
  unfold eraseFinish at hfix
  cases c with
  | black =>
    rw [if_pos rfl] at hfix
    obtain ⟨h₁, hrun, h₁'⟩ := rbEraseFix_refines h' (rbEraseFix_mono hf hfix)
    exact ⟨h₁, (if_pos rfl).trans hrun, h₁'⟩
  | red =>
    rw [if_neg nofun] at hfix
    cases hfix
    exact ⟨h, if_neg (by decide), At.plug.mp h'⟩

/-! ## Unlinking a node -/

/-- **A node with one child at most leaves the tree**, and the child takes its place. -/
theorem unlink_refines (h' : At own rest h ctx (.mk s c t x .leaf)) :
    ∃ h₁ h₂, (if t.ptr = 0 then .ok h else h.rbSetParent t.ptr (Ctx.ptr ctx)) = .ok h₁ ∧
      h₁.rbParent x = .ok (Ctx.ptr ctx) ∧ h₁.replaceChild (Ctx.ptr ctx) x t.ptr = .ok h₂ ∧
      At own rest h₂ ctx t := by
  obtain ⟨hx0, hxe, hx⟩ := h'.node_eq
  obtain ⟨_, ht, _⟩ := linked_mk.mp h'.tree
  have hole := h'.hole
  rw [RbTree.ptr_mk] at hole
  have hperm : ((RbTree.mk s c t x .leaf).toList ++ Ctx.ids ctx).Perm
      (x :: (t.toList ++ Ctx.ids ctx)) := by
    refine (toList_mk_perm.append_right _).trans ?_
    simp [RbTree.toList]
  have hn := hperm.nodup_iff.mp h'.nodup
  have haddr := fun z hz => h'.addr z (hperm.mem_iff.mpr hz)
  have hzero : 0 ∉ x :: (t.toList ++ Ctx.ids ctx) := fun hm => h'.zero_notMem (hperm.mem_iff.mpr hm)
  simp only [List.nodup_cons, List.nodup_append, List.mem_append, not_or] at hn
  simp only [List.mem_cons, List.mem_append, not_or] at hzero
  obtain ⟨⟨hxt, hxc⟩, hnt, hnc, htc⟩ := hn
  obtain ⟨h₁, e₁, ht₁, r₁, n₁⟩ := @reparent_spec _ _ (Ctx.ptr ctx) _ ht hnt hzero.2.1 hxe
  obtain ⟨h₂, e₂, hc₂, n₂⟩ := replaceChild_spec (h := h₁) (x := x) (y := t.ptr)
    (hole.frame r₁ fun z hz => n₁ z fun hzt => htc z hzt z hz rfl) hnc hzero.2.2 hx0 hxc
  refine ⟨h₁, h₂, e₁, ?_, e₂, hc₂, ht₁.frame fun z hz => n₂ z fun hzc => htc z hz z hzc rfl,
    List.nodup_append.mpr ⟨hnt, hnc, htc⟩, fun z hz => haddr z (List.mem_cons_of_mem _ hz),
      fun z hz => ?_⟩
  · exact rbParent_eq (c := c) hx0 ((n₁ x hxt).trans hx) RbNode.parent_ofSide h'.even_ctx
  · have hout : z ∉ t.toList ++ Ctx.ids ctx := fun hm => hz (haddr z (List.mem_cons_of_mem _ hm)).1
    rw [n₂ z fun hm => hout (List.mem_append_right _ hm),
      n₁ z fun hm => hout (List.mem_append_left _ hm)]
    exact h'.outside z hz

end AuOs
