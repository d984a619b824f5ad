import Mathlib
import AuOs.Rbtree.Linked

/-!
# Insertion in memory

* `insertLoop_refines`, `rbInsert_refines` — `rb_insert` in memory does what `rbInsert` does to
  trees.
* `rbLink_at` — `rb_link` hangs a new node into an empty slot.
* `rb_insert_valid` — `rb_link` and `rb_insert` at any empty slot of a valid tree.
-/

set_option autoImplicit false

namespace AuOs

variable {own : Set RbPtr} {rest : RbPtr → Option RbNode} {h : RbHeap} {ctx : Ctx RbPtr}
  {t t' a b d : RbTree RbPtr} {s : Side} {c c' : Color} {x y : RbPtr}

theorem recolor_mk : recolor s (.mk s c a x b) = .mk s .black (a.setColor .red) x b := by
  cases s <;> rfl

/-- The node in focus and its parent are brought into line below the grandparent. -/
theorem straighten_refines {p : Frame RbPtr} (h' : At own rest h (p :: ctx) t) (ht : t ≠ .leaf)
    {P : RbTree RbPtr} (hP : (if p.side = s then .ok (p.fill t) else rotate s (p.fill t)) = .ok P) :
    ∃ h₁, RbHeap.straighten s h t.ptr p.elem = .ok (h₁, P.ptr) ∧ At own rest h₁ ctx P ∧
    P ≠ .leaf := by
  obtain ⟨ps, pc, px, pu⟩ := p
  have hp := At.up.mp h'
  rw [fill_mk] at hp hP
  simp only at hP
  unfold RbHeap.straighten
  rcases s.eq_or_other ps with rfl | rfl
  · rw [if_pos rfl] at hP
    cases hP
    refine ⟨h, ?_, hp, by cases ps <;> exact nofun⟩
    rw [hp.child_other, ok_bind, if_neg (hp.ptr_ne (Or.inl ht)), RbTree.ptr_mk]
    rfl
  · rw [if_neg s.other_ne] at hP
    obtain ⟨c', b, y, d, rfl⟩ := RbTree.exists_mk s ht
    rw [RbTree.mk_other, rotate_mk] at hP
    cases hP
    rw [RbTree.mk_other] at hp
    obtain ⟨h₁, hrot, h₁'⟩ := hp.rotate
    refine ⟨h₁, ?_, h₁', by cases s <;> exact nofun⟩
    rw [hp.child_other, ok_bind, if_pos rfl, hrot, RbTree.ptr_mk, RbTree.ptr_mk]
    rfl

/-- **The rotations that end the loop of `rb_insert`.** -/
theorem insertRotate_refines {p g : Frame RbPtr} (h' : At own rest h (p :: g :: ctx) t)
    (ht : t ≠ .leaf) {P G : RbTree RbPtr}
    (hP : (if p.side = g.side then .ok (p.fill t) else rotate g.side (p.fill t)) = .ok P)
    (hG : rotate g.side.other (g.fill P) = .ok G) :
    ∃ h₁, RbHeap.insertRotate g.side h t.ptr p.elem g.elem = .ok h₁ ∧
      At own rest h₁ ctx (recolor g.side.other G) ∧ G ≠ .leaf := by
  obtain ⟨h₁, hstraight, h₁', hPl⟩ := straighten_refines h' ht hP
  obtain ⟨gs, gc, gx, gu⟩ := g
  simp only at hP hG hstraight ⊢
  have hg := At.up.mp h₁'
  obtain ⟨pc, b, py, d, rfl⟩ := RbTree.exists_mk gs.other hPl
  rw [fill_mk, ← RbTree.mk_other] at hg hG
  rw [rotate_mk] at hG
  cases hG
  obtain ⟨h₂, hrot, h₂'⟩ := hg.rotate
  obtain ⟨h₃, hblack, h₃'⟩ := h₂'.setColor (by cases gs <;> exact nofun) .black
  rw [RbTree.setColor_mk] at h₃'
  rw [RbTree.ptr_mk] at hblack
  -- the old grandparent is the child on the other side now
  obtain ⟨h₄, hred, h₄'⟩ := (At.up (f := ⟨gs.other, .black, py, d⟩).mpr h₃').setColor
    (by cases gs <;> exact nofun) .red
  refine ⟨h₄, ?_, ?_, by cases gs <;> exact nofun⟩
  · rw [RbHeap.insertRotate, hstraight, ok_bind]
    simp only [RbTree.ptr_mk] at hred ⊢
    rw [hrot, ok_bind, show h₂.rbSetBlack py = .ok h₃ from hblack, ok_bind]
    exact hred
  · rw [recolor_mk]
    exact At.up.mp h₄'

/-- **The loop of `rb_insert`** does to the nodes in memory what `rbInsert` does to trees; the root
is blackened after it. -/
theorem insertLoop_refines : ∀ (ctx : Ctx RbPtr) (t t' : RbTree RbPtr) (h : RbHeap),
    At own rest h ctx t → t ≠ .leaf → rbInsert ctx t = .ok t' → ∀ fuel, ctx.length < fuel →
    ∃ h₁ t₁, RbHeap.insertLoop fuel h t.ptr (Ctx.ptr ctx) = .ok h₁ ∧ At own rest h₁ [] t₁ ∧
      t₁ ≠ .leaf ∧ t₁.setColor .black = t'
  | _, _, _, _, _, _, _, 0, hf => by omega
  | [], t, t', h, h', ht, hins, fuel + 1, _ => ⟨h, t, rfl, h', ht, Except.ok.inj hins⟩
  | [p], t, t', h, h', ht, hins, fuel + 1, _ => by
    have hp := At.up.mp h'
    have hne : p.fill t ≠ .leaf := by
      obtain ⟨s, c, x, u⟩ := p
      cases s <;> exact fun h => by cases h
    have hred := hp.rbRed
    rw [rbInsert] at hins
    split at hins
    · cases hins
    · rename_i hc
      refine ⟨h, p.fill t, ?_, hp, hne, Except.ok.inj hins⟩
      have hfill : (p.fill t).ptr = p.elem ∧ (p.fill t).isRed = false := by
        obtain ⟨s, c, x, u⟩ := p
        cases c with
        | red => exact absurd rfl hc
        | black => cases s <;> exact ⟨rfl, rfl⟩
      rw [hfill.1, hfill.2] at hred
      rw [RbHeap.insertLoop, Ctx.ptr, hred]
      rfl
  | p :: g :: ctx, t, t', h, h', ht, hins, fuel + 1, hf => by
    have hp := At.up.mp h'
    have hg := At.up.mp hp
    have hred := hp.rbRed
    obtain ⟨ps, pc, px, pu⟩ := p
    obtain ⟨gs, gc, gx, gu⟩ := g
    rw [fill_mk] at hp hg hred
    rw [fill_mk] at hg
    rw [RbTree.ptr_mk] at hred
    rw [RbHeap.insertLoop, Ctx.ptr, hred, ok_bind]
    have hpr : (RbTree.mk ps pc t px pu).isRed = decide (pc = .red) := by
      cases ps <;> cases pc <;> rfl
    rw [hpr]
    by_cases hc : pc = .red
    · subst hc
      obtain ⟨l, hl, hside⟩ := hg.side_eq (Or.inl (by cases ps <;> exact fun h => by cases h))
      rw [RbTree.ptr_mk] at hside
      have hu := hg.child_other
      have hur := (At.up (f := ⟨gs.other, gc, gx, .mk ps .red t px pu⟩).mpr
        (RbTree.mk_other ▸ hg)).rbRed
      simp only [decide_true, if_true]
      rw [hp.rbParent, ok_bind, Ctx.ptr, hl, ok_bind, hside, hu, ok_bind, hur, ok_bind]
      rw [rbInsert] at hins
      simp only [if_true] at hins
      cases hgr : gu.isRed with
      | true =>
        rw [hgr] at hins
        simp only [if_true] at hins ⊢
        have hgul : gu ≠ .leaf := fun e => by rw [e] at hgr; cases hgr
        -- the three nodes change their colours
        obtain ⟨h₁, hred₁, h₁'⟩ := hg.setColor (by cases gs <;> exact fun h => by cases h) .red
        rw [RbTree.setColor_mk] at h₁'
        obtain ⟨h₂, hblack₂, h₂'⟩ := (At.up (f := ⟨gs, .red, gx, gu⟩).mpr h₁').setColor
          (by cases ps <;> exact fun h => by cases h) .black
        replace h₂' := At.up.mp h₂'
        rw [fill_mk, RbTree.setColor_mk, ← RbTree.mk_other] at h₂'
        obtain ⟨h₃, hblack₃, h₃'⟩ := (At.up (f := ⟨gs.other, .red, gx, .mk ps .black t px pu⟩).mpr
          h₂').setColor hgul .black
        replace h₃' := At.up.mp h₃'
        rw [fill_mk, RbTree.mk_other] at h₃'
        obtain ⟨h₄, t₁, hloop, h₄', htl, hcol⟩ := insertLoop_refines ctx _ t' h₃ h₃'
          (by cases gs <;> exact fun h => by cases h) hins fuel
            (by simp only [List.length_cons] at hf; omega)
        refine ⟨h₄, t₁, ?_, h₄', htl, hcol⟩
        rw [RbTree.ptr_mk] at hred₁ hblack₂ hloop
        rw [show h.rbSetRed gx = .ok h₁ from hred₁, ok_bind,
          show h₁.rbSetBlack px = .ok h₂ from hblack₂,
          ok_bind, show h₂.rbSetBlack gu.ptr = .ok h₃ from hblack₃, ok_bind, h₃'.rbParent, ok_bind]
        exact hloop
      | false =>
        rw [hgr] at hins
        simp only [Bool.false_eq_true, if_false] at hins ⊢
        have hins' : ((if ps = gs then .ok (Frame.fill ⟨ps, .red, px, pu⟩ t)
            else rotate gs (Frame.fill ⟨ps, .red, px, pu⟩ t)) >>= fun P =>
              rotate gs.other (Frame.fill ⟨gs, gc, gx, gu⟩ P) >>= fun G =>
                (.ok ((Ctx.plug ctx (recolor gs.other G)).setColor .black) : Res _)) = .ok t' := by
          rw [← hins]
          split <;> rfl
        obtain ⟨P, hP, hins'⟩ := bind_eq_ok.mp hins'
        obtain ⟨G, hG, hins'⟩ := bind_eq_ok.mp hins'
        obtain ⟨h₁, hrot, h₁', hGl⟩ := insertRotate_refines h' ht hP hG
        have hrl : recolor gs.other G ≠ .leaf := by
          obtain ⟨c, a, x, b, rfl⟩ := RbTree.exists_mk gs.other hGl
          rw [recolor_mk]
          cases gs <;> exact fun h => by cases h
        exact ⟨h₁, _, hrot, At.plug.mp h₁', plug_ne_leaf ctx hrl, Except.ok.inj hins'⟩
    · rw [decide_eq_false hc]
      rw [rbInsert] at hins
      simp only [hc, if_false] at hins
      refine ⟨h, _, rfl, At.plug.mp h', plug_ne_leaf (⟨ps, pc, px, pu⟩ :: ⟨gs, gc, gx,
        gu⟩ :: ctx) ht, Except.ok.inj hins⟩

/-- **`rb_insert`** in memory does what `rbInsert` does to trees. -/
theorem rbInsert_refines (h' : At own rest h ctx t) (ht : t ≠ .leaf)
    (hins : rbInsert ctx t = .ok t') {fuel : Nat} (hf : ctx.length < fuel) :
    ∃ h₁, RbHeap.rbInsert fuel h t.ptr = .ok h₁ ∧ At own rest h₁ [] t' := by
  obtain ⟨h₁, t₁, hloop, h₁', htl, rfl⟩ := insertLoop_refines ctx t t' h h' ht hins fuel hf
  obtain ⟨h₂, hblack, h₂'⟩ := h₁'.setColor htl .black
  refine ⟨h₂, ?_, h₂'⟩
  obtain ⟨c, a, x, b, rfl⟩ := RbTree.exists_mk .left ht
  rw [RbHeap.rbInsert, RbTree.ptr_mk, h'.rbParent, ok_bind]
  rw [RbTree.ptr_mk] at hloop
  rw [hloop, ok_bind, show h₁.root = t₁.ptr from h₁'.hole]
  exact hblack

/-! ## A new node -/

/-- The pointer to the hole. -/
def Ctx.slot : Ctx RbPtr → RbSlot
  | [] => .root
  | f :: _ => .child f.side f.elem

/-- **`rb_link`** hangs a new node into an empty slot. -/
theorem rbLink_at {n : RbNode} (h' : At own rest h ctx .leaf) (hn : h.nodes x = some n)
    (hx : x ∈ own ∧ x ≠ 0 ∧ Even x) (hnew : x ∉ Ctx.ids ctx) :
    ∃ h₁, h.rbLink x (Ctx.ptr ctx) (Ctx.slot ctx) = .ok h₁ ∧ At own rest h₁ ctx (rbLink x) := by
  let h₁ : RbHeap := { h with nodes := Function.update h.nodes x (some ⟨0, 0, Ctx.ptr ctx⟩) }
  have e₁ : h.modify x (fun _ => ⟨0, 0, Ctx.ptr ctx⟩) = .ok h₁ := modify_eq hx.2.1 hn _
  have n₁ : ∀ z, z ≠ x → h₁.nodes z = h.nodes z := fun z hz => Function.update_of_ne hz ..
  have hword : parentWord (Ctx.ptr ctx) .red = Ctx.ptr ctx := by simp [parentWord, Color.bit, RED]
  have hnode : ∀ h₂ : RbHeap, h₂.nodes x = h₁.nodes x → Linked h₂.nodes (Ctx.ptr ctx) (rbLink x) :=
    fun h₂ h => ⟨by rw [h, hword]; exact Function.update_self .., trivial, trivial⟩
  have haddr : ∀ z ∈ (rbLink x).toList ++ Ctx.ids ctx, z ∈ own ∧ z ≠ 0 ∧ Even z := fun z hz => by
    rcases List.mem_append.mp hz with hz | hz
    · rw [show z = x by simpa [rbLink, RbTree.toList] using hz]
      exact hx
    · exact h'.addr z (List.mem_append_right _ hz)
  have hnodup : ((rbLink x).toList ++ Ctx.ids ctx).Nodup := by
    simpa [rbLink, RbTree.toList] using ⟨hnew, (List.nodup_append.mp h'.nodup).2.1⟩
  have hout : ∀ z, z ∉ own → z ≠ x := fun z hz e => hz (e ▸ hx.1)
  rw [RbHeap.rbLink, e₁, ok_bind]
  cases ctx with
  | nil =>
    refine ⟨_, rfl, rfl, hnode _ rfl, hnodup, haddr, fun z hz => ?_⟩
    exact (n₁ z (hout z hz)).trans (h'.outside z hz)
  | cons f ctx =>
    obtain ⟨hf, hs, hc⟩ := h'.hole
    obtain ⟨s, c, p, u⟩ := f
    have hp : p ∈ own ∧ p ≠ 0 ∧ Even p := h'.addr p (by simp [Ctx.ids])
    simp only [Ctx.ids, List.mem_cons, List.mem_append, not_or] at hnew
    have hids := (List.nodup_append.mp h'.nodup).2.1
    simp only [Ctx.ids, List.nodup_cons, List.mem_append, not_or] at hids
    have hnode_p := setChild_eq (s := s) (y := x) hp.2.1 ((n₁ p (Ne.symm hnew.1)).trans hf)
    rw [RbNode.setChild_ofSide] at hnode_p
    refine ⟨_, hnode_p, ⟨Function.update_self .., hs.frame fun z hz => ?_,
      hc.frame rfl fun z hz => ?_⟩, hnode _ (Function.update_of_ne hnew.1 ..), hnodup, haddr,
      fun z hz => ?_⟩
    · have hzp : z ≠ p := fun e => hids.1.1 (e ▸ hz)
      exact (Function.update_of_ne hzp ..).trans (n₁ z fun e => hnew.2.1 (e ▸ hz))
    · have hzp : z ≠ p := fun e => hids.1.2 (e ▸ hz)
      exact (Function.update_of_ne hzp ..).trans (n₁ z fun e => hnew.2.2 (e ▸ hz))
    · have hzp : z ≠ p := fun e => hz (e ▸ hp.1)
      exact ((Function.update_of_ne hzp ..).trans (n₁ z (hout z hz))).trans (h'.outside z hz)

/-- **`rb_link` and `rb_insert`** at an empty slot of a valid tree give a valid tree, in which the
new node stands at the position of the slot; no other node in memory is written. -/
theorem rb_insert_valid {n : RbNode} (hr : Represents h t) (hvalid : t.Valid)
    (hslot : Ctx.plug ctx .leaf = t) (hn : h.nodes x = some n) (hx0 : x ≠ 0) (hxe : Even x)
    (hnew : x ∉ t.toList) {fuel : Nat} (hf : ctx.length < fuel) :
    ∃ h₁ t', (h.rbLink x (Ctx.ptr ctx) (Ctx.slot ctx) >>= fun h => h.rbInsert fuel x) = .ok h₁ ∧
      Represents h₁ t' ∧ t'.Valid ∧ t.toList = Ctx.before ctx ++ Ctx.after ctx ∧
      t'.toList = Ctx.before ctx ++ x :: Ctx.after ctx ∧
      ∀ z, z ≠ x → z ∉ t.toList → h₁.nodes z = h.nodes z := by
  subst hslot
  have hat := @Represents.at _ _ {z | z = x ∨ z ∈ (Ctx.plug ctx .leaf).toList} hr
    fun z hz => Or.inr hz
  have hids : x ∉ Ctx.ids ctx := fun hm =>
    hnew (by simpa using ids_plug.mem_iff.mpr (List.mem_append_right _ hm))
  obtain ⟨h₁, hlink, h₁'⟩ := rbLink_at (At.plug.mpr hat) hn ⟨Or.inl rfl, hx0, hxe⟩ hids
  obtain ⟨c, k, hctx, hleaf⟩ := Ctx.Balanced.of_plug hvalid
  cases hleaf
  obtain ⟨t', hins, hvalid', hlist⟩ := rbInsert_spec ctx (rbLink x) 0 hctx (.red .leaf .leaf)
  obtain ⟨h₂, hrun, h₂'⟩ := rbInsert_refines h₁' nofun hins hf
  refine ⟨h₂, t', ?_, h₂'.represents, hvalid', ?_, ?_, fun z hzx hz => ?_⟩
  · rw [hlink, ok_bind]
    exact hrun
  · rw [toList_plug]
    simp [RbTree.toList]
  · rw [hlist]
    simp [rbLink, RbTree.toList]
  · exact h₂'.outside z fun hm => hm.elim hzx hz

/-- A black root at address 24 with a red left child at 8, and a node at 16 that is not linked
yet. -/
def twoNodes : RbHeap :=
  ⟨fun p => List.lookup p [(24, ⟨8, 0, BLACK⟩), (8, ⟨0, 0, 24⟩), (16, ⟨0, 0, 0⟩)], 24⟩

theorem twoNodes_represents : Represents twoNodes
    (.node .black (.node .red .leaf 8 .leaf) 24 .leaf) where
  root := rfl
  linked := ⟨rfl, ⟨rfl, trivial, trivial⟩, trivial⟩
  nodup := by decide
  addr := fun x hx => by
    rcases List.mem_pair.mp hx with rfl | rfl <;> exact ⟨by decide, rfl⟩

/-- The new node is linked between the two, and comes to stand above them. -/
theorem rb_insert_valid_twoNodes :
    ∃ h₁ t', (twoNodes.rbLink 16 8 (.child .right 8) >>= fun h => h.rbInsert 3 16) = .ok h₁ ∧
      h₁.root = 16 ∧ Represents h₁ t' ∧ t'.Valid ∧ t'.toList = [8, 16, 24] := by
  have hvalid : (RbTree.node .black (.node .red .leaf (8 : RbPtr) .leaf) 24 .leaf).Valid :=
    ⟨1, .black (.red .leaf .leaf) .leaf⟩
  obtain ⟨h₁, t', hrun, hrep, hvalid', _, hlist, _⟩ := @rb_insert_valid
    _ [⟨.right, .red, 8, .leaf⟩, ⟨.left, .black, 24, .leaf⟩] _ 16 _
      twoNodes_represents hvalid rfl rfl
    (by decide) rfl (by decide) 3 (by decide)
  have hroot : some h₁.root = some 16 :=
    (congrArg (fun r => r.toOption.map RbHeap.root) hrun).symm.trans (by decide)
  exact ⟨h₁, t', hrun, Option.some.inj hroot, hrep, hvalid', hlist⟩

end AuOs
