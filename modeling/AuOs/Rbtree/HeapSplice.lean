import Mathlib
import AuOs.Rbtree.Height
import AuOs.Rbtree.HeapErase

/-!
# Erasure of a node with two children

* `popLeftmost_plug`, `outermostLoop_refines` — the successor of a node with a right child.
* `spliceChild_refines`, `spliceBelow_refines` — the successor takes over the place and the colour
  of the node.
* `rb_erase_valid` — `rb_erase` of any node of a valid tree.
-/

set_option autoImplicit false

namespace AuOs

/-! ## The successor -/

section Leftmost

variable {α : Type} {ctx ctx' : Ctx α} {t u : RbTree α} {cy : Color} {y : α}

/-- The frames of the leftmost node lead back to the tree. -/
theorem popLeftmost_plug (hpop : popLeftmost ctx t = some (ctx', cy, y, u)) :
    Ctx.plug ctx' (.node cy .leaf y u) = Ctx.plug ctx t := by
  induction t generalizing ctx with
  | leaf => cases hpop
  | node c l x r ih _ =>
    cases l with
    | leaf =>
      cases hpop
      rfl
    | node c' l' x' r' =>
      rw [popLeftmost_node] at hpop
      exact ih hpop

/-- The leftmost node is the root, or a left child below it. -/
theorem popLeftmost_cases (hpop : popLeftmost ctx t = some (ctx', cy, y, u)) :
    (ctx' = ctx ∧ t = .node cy .leaf y u) ∨
      ∃ f inner, ctx' = f :: (inner ++ ctx) ∧ f.side = .left := by
  induction t generalizing ctx with
  | leaf => cases hpop
  | node c l x r ih _ =>
    cases l with
    | leaf =>
      cases hpop
      exact Or.inl ⟨rfl, rfl⟩
    | node c' l' x' r' =>
      rw [popLeftmost_node] at hpop
      refine Or.inr ?_
      rcases ih hpop with ⟨rfl, _⟩ | ⟨f, inner, rfl, hf⟩
      · exact ⟨_, [], rfl, rfl⟩
      · exact ⟨f, inner ++ [⟨.left, c, x, r⟩], by simp, hf⟩

end Leftmost

variable {own : Set RbPtr} {rest : RbPtr → Option RbNode} {h : RbHeap} {ctx ctx' : Ctx RbPtr}
  {t l u : RbTree RbPtr} {c cy : Color} {x y : RbPtr}

/-- **`while (node->left) node = node->left;`** ends at the leftmost node. -/
theorem outermostLoop_refines (h' : At own rest h ctx t)
    (hpop : popLeftmost ctx t = some (ctx', cy, y, u)) {fuel : Nat} (hf : t.height ≤ fuel) :
    RbHeap.outermostLoop .left fuel h t.ptr = .ok y := by
  induction t generalizing ctx fuel with
  | leaf => cases hpop
  | node c l x r ih _ =>
    obtain ⟨fuel, rfl⟩ : ∃ k, fuel = k + 1 := ⟨fuel - 1, by simp [RbTree.height] at hf; omega⟩
    have hchild : h.child .left x = .ok l.ptr := At.child (s := .left) h'
    rw [RbTree.ptr_node, RbHeap.outermostLoop, hchild, ok_bind]
    cases l with
    | leaf =>
      cases hpop
      exact if_pos rfl
    | node c' l' x' r' =>
      have hl := (At.up (f := ⟨.left, c, x, r⟩)).mpr h'
      have hz : (RbTree.node c' l' x' r').ptr ≠ 0 := (At.node_eq (s := .left) hl).1
      rw [if_neg hz]
      rw [popLeftmost_node] at hpop
      refine ih hl hpop ?_
      simp only [RbTree.height] at hf ⊢
      omega

/-- `rb_next` of a node with a right child. -/
theorem rbNext_refines {r : RbTree RbPtr} (h' : At own rest h ctx (.node c l x r))
    (hpop : popLeftmost (⟨.right, c, x, l⟩ :: ctx) r = some (ctx', cy, y, u)) {fuel : Nat}
    (hf : r.height ≤ fuel) : h.rbNext fuel x = .ok y := by
  have hr := (At.up (f := ⟨.right, c, x, l⟩)).mpr h'
  have hz : r.ptr ≠ 0 := by
    cases r with
    | leaf => cases hpop
    | node => exact (At.node_eq (s := .left) hr).1
  have hchild : h.child .right x = .ok r.ptr := At.child (s := .right) h'
  rw [RbHeap.rbNext, if_neg (At.node_eq (s := .left) h').1, hchild, ok_bind, if_pos hz,
    RbHeap.rbLeftmost, if_neg hz]
  exact outermostLoop_refines hr hpop hf

/-! ## Taking over a place -/

/-- The hole is pointed to the root of a tree that is ready for it. -/
theorem replaceChild_at (hole : LinkedCtx h x ctx) (ht : Linked h.nodes (Ctx.ptr ctx) t)
    (hn : (t.toList ++ Ctx.ids ctx).Nodup)
    (haddr : ∀ z ∈ t.toList ++ Ctx.ids ctx, z ∈ own ∧ z ≠ 0 ∧ Even z)
    (hout : ∀ z, z ∉ own → h.nodes z = rest z) (hx0 : x ≠ 0) (hx : x ∉ Ctx.ids ctx) :
    ∃ h₁, h.replaceChild (Ctx.ptr ctx) x t.ptr = .ok h₁ ∧ At own rest h₁ ctx t := by
  obtain ⟨hnt, hnc, hdis⟩ := List.nodup_append.mp hn
  have hz : 0 ∉ Ctx.ids ctx := fun hm => (haddr 0 (List.mem_append_right _ hm)).2.1 rfl
  obtain ⟨h₁, hrun, hole₁, hsame⟩ := replaceChild_spec (y := t.ptr) hole hnc hz hx0 hx
  refine ⟨h₁, hrun, hole₁, ht.frame fun z hz => hsame z fun hm => hdis z hz z hm rfl, hn, haddr,
    fun z hz => ?_⟩
  rw [hsame z fun hm => hz (haddr z (List.mem_append_right _ hm)).1, hout z hz]

/-- **The successor is the right child**: it takes the left child, the parent and the colour of the
node. -/
theorem spliceChild_refines (h' : At own rest h ctx (.node c l x (.node cy .leaf y u)))
    (hl : l ≠ .leaf) :
    ∃ h₁ h₂, h.spliceChild x y = .ok (h₁, y) ∧ h₁.rbParent x = .ok (Ctx.ptr ctx) ∧
      h₁.replaceChild (Ctx.ptr ctx) x y = .ok h₂ ∧ At own rest h₂ (⟨.right, c, y, l⟩ :: ctx) u := by
  obtain ⟨hx0, hxe, hx⟩ := At.node_eq (s := .left) h'
  obtain ⟨hy0, hye, hy⟩ := At.node_eq (s := .left) ((At.up (f := ⟨.right, c, x, l⟩)).mpr h')
  have hx' : h.nodes x = some ⟨l.ptr, y, parentWord (Ctx.ptr ctx) c⟩ := hx
  have hy' : h.nodes y = some ⟨0, u.ptr, parentWord x cy⟩ := hy
  obtain ⟨_, hlt, _, _, hu⟩ := h'.tree
  have hole : LinkedCtx h x ctx := h'.hole
  have hperm : ((RbTree.node c l x (.node cy .leaf y u)).toList ++ Ctx.ids ctx).Perm
      (x :: ((RbTree.node c l y u).toList ++ Ctx.ids ctx)) := by
    simp only [RbTree.toList, List.nil_append, List.append_assoc, List.cons_append]
    exact List.perm_middle
  have hn := List.nodup_cons.mp (hperm.nodup_iff.mp h'.nodup)
  have haddr := fun z hz => h'.addr z (hperm.mem_iff.mpr (List.mem_cons_of_mem _ hz))
  have hnodup := hn.2
  simp only [RbTree.toList, List.nodup_append, List.nodup_cons, List.mem_append, List.mem_cons,
    not_or] at hn
  obtain ⟨⟨⟨hxl, hxy, hxu⟩, hxc⟩, ⟨hnl, ⟨hyu, hnu⟩, hlu⟩, hnc, hdis⟩ := hn
  have hly : y ∉ l.toList := fun hm => hlu y hm y (Or.inl rfl) rfl
  have hyc : y ∉ Ctx.ids ctx := fun hm => hdis y (Or.inr (Or.inl rfl)) y hm rfl
  have hl0 : l.ptr ≠ 0 := by
    cases l with
    | leaf => exact absurd rfl hl
    | node cl ll lx lr => exact (haddr lx (by simp [RbTree.toList])).2.1
  let h₁ : RbHeap :=
    { h with nodes := Function.update h.nodes y (some ⟨l.ptr, u.ptr, parentWord x cy⟩) }
  have e₁ : h.setChild .left y l.ptr = .ok h₁ := setChild_eq hy0 hy'
  have x₁ : h₁.nodes x = some ⟨l.ptr, y, parentWord (Ctx.ptr ctx) c⟩ :=
    (Function.update_of_ne hxy ..).trans hx'
  let h₂ : RbHeap := { h₁ with
    nodes := Function.update h₁.nodes y (some ⟨l.ptr, u.ptr, parentWord (Ctx.ptr ctx) c⟩) }
  have e₂ : h₁.modify y (fun m => { m with parent := parentWord (Ctx.ptr ctx) c }) = .ok h₂ :=
    modify_eq (h := h₁) hy0 (Function.update_self ..) fun m =>
      { m with parent := parentWord (Ctx.ptr ctx) c }
  have y₂ : h₂.nodes y = some ⟨l.ptr, u.ptr, parentWord (Ctx.ptr ctx) c⟩ := Function.update_self ..
  have n₂ : ∀ z, z ≠ y → h₂.nodes z = h.nodes z := fun z hz =>
    (Function.update_of_ne hz ..).trans (Function.update_of_ne hz ..)
  have hz : 0 ∉ l.toList := fun hm => 
    (haddr 0 (List.mem_append_left _ (List.mem_append_left _ hm))).2.1 rfl
  obtain ⟨h₃, e₃, hl₃, r₃, n₃⟩ := @reparent_spec h₂ x y l
    (hlt.frame fun z hz => n₂ z fun e => hly (e ▸ hz)) hnl hz hxe
  rw [if_neg hl0] at e₃
  have keep : ∀ z, z ≠ y → z ∉ l.toList → h₃.nodes z = h.nodes z := fun z hzy hzl =>
    (n₃ z hzl).trans (n₂ z hzy)
  have hout : ∀ z, z ∉ own → h₃.nodes z = rest z := fun z hz => by
    have hzy : z ≠ y := fun e => hz (e ▸ (haddr y (by simp [RbTree.toList])).1)
    rw [keep z hzy fun hm => hz (haddr z (by simp [RbTree.toList, hm])).1]
    exact h'.outside z hz
  obtain ⟨h₄, e₄, h₄'⟩ := @replaceChild_at own rest h₃ _ (.node c l y u) _
    (hole.frame r₃ fun z hz => keep z (fun e => hyc (e ▸ hz)) fun hm => hdis z (Or.inl hm) z hz rfl)
    ⟨(n₃ y hly).trans y₂, hl₃, hu.frame fun z hz => keep z (fun e => hyu (e ▸ hz)) fun hm =>
      hlu z hm z (Or.inr hz) rfl⟩
    hnodup haddr hout hx0 hxc
  refine ⟨h₃, h₄, ?_, ?_, e₄, (At.up (f := ⟨.right, c, y, l⟩)).mpr h₄'⟩
  · rw [RbHeap.spliceChild, child_eq hx0 hx', ok_bind]
    simp only [RbNode.child]
    rw [e₁, ok_bind, get_eq hx0 x₁, ok_bind, e₂, ok_bind, child_eq hy0 y₂, ok_bind]
    simp only [RbNode.child]
    rw [e₃]
    rfl
  · exact rbParent_eq (c := c) hx0 ((keep x hxy hxl).trans hx') rfl h'.even_ctx

/-- A node outside of the tree takes over a place in it. -/
theorem takeOver {nodes : RbPtr → Option RbNode} {r : RbTree RbPtr}
    (h' : At own nodes h ctx (.node c l x r)) (hy : y ∉ own) (hy0 : y ≠ 0) (hye : Even y)
    (hnode : nodes y = some ⟨l.ptr, r.ptr, parentWord (Ctx.ptr ctx) c⟩) (hl : l ≠ .leaf)
    (hr : r ≠ .leaf) : ∃ h₁ h₂ h₃, h.rbSetParent l.ptr y = .ok h₁ ∧ h₁.child .right y = .ok r.ptr ∧
      h₁.rbSetParent r.ptr y = .ok h₂ ∧ h₂.rbParent x = .ok (Ctx.ptr ctx) ∧
      h₂.replaceChild (Ctx.ptr ctx) x y = .ok h₃ ∧
      ∀ rest : RbPtr → Option RbNode, (∀ z, z ∉ own → z ≠ y → nodes z = rest z) →
        At (insert y own) rest h₃ ctx (.node c l y r) := by
  obtain ⟨hx0, hxe, hx⟩ := At.node_eq (s := .left) h'
  obtain ⟨_, hlt, hrt⟩ := h'.tree
  have hyn : y ∉ (RbTree.node c l x r).toList ++ Ctx.ids ctx := fun hm => hy (h'.addr y hm).1
  have hzero := h'.zero_notMem
  have hn := h'.nodup
  simp only [RbTree.toList, List.nodup_append, List.nodup_cons, List.mem_append, List.mem_cons,
    not_or] at hn hyn hzero
  have hxc : x ∉ Ctx.ids ctx := fun hm => hn.2.2 x (Or.inr (Or.inl rfl)) x hm rfl
  have hxl : x ∉ l.toList := fun hm => hn.1.2.2 x hm x (Or.inl rfl) rfl
  have hlr : ∀ z ∈ l.toList, z ∉ r.toList := fun z hz hm => hn.1.2.2 z hz z (Or.inr hm) rfl
  have hne : ∀ {t : RbTree RbPtr}, t ≠ .leaf → 0 ∉ t.toList → t.ptr ≠ 0 := fun {t} ht hz e => by
    cases t with
    | leaf => exact ht rfl
    | node ct lt xt rt => exact hz (by simp [RbTree.toList, show xt = 0 from e])
  obtain ⟨h₁, e₁, hl₁, r₁, n₁⟩ := @reparent_spec _ _ y _ hlt hn.1.1 hzero.1.1 hxe
  rw [if_neg (hne hl hzero.1.1)] at e₁
  have y₁ : h₁.nodes y = some ⟨l.ptr, r.ptr, parentWord (Ctx.ptr ctx) c⟩ :=
    (n₁ y hyn.1.1).trans ((h'.outside y hy).trans hnode)
  obtain ⟨h₂, e₂, hr₂, r₂, n₂⟩ := @reparent_spec h₁ _ y r
    (hrt.frame fun z hz => n₁ z fun hm => hlr z hm hz) hn.1.2.1.2 hzero.1.2.2 hxe
  rw [if_neg (hne hr hzero.1.2.2)] at e₂
  have keep : ∀ z, z ∉ l.toList → z ∉ r.toList → h₂.nodes z = h.nodes z := fun z hzl hzr =>
    (n₂ z hzr).trans (n₁ z hzl)
  have hperm : ((RbTree.node c l y r).toList ++ Ctx.ids ctx).Perm
      (y :: (l.toList ++ (r.toList ++ Ctx.ids ctx))) := by
    simp only [RbTree.toList, List.append_assoc, List.cons_append]
    exact List.perm_middle
  have haddr : ∀ z ∈ (RbTree.node c l y r).toList ++ Ctx.ids ctx, z ∈ insert y own ∧
      z ≠ 0 ∧ Even z := by
    intro z hz
    rcases List.mem_cons.mp (hperm.mem_iff.mp hz) with rfl | hm
    · exact ⟨Set.mem_insert _ _, hy0, hye⟩
    · have := h'.addr z (by
        simp only [RbTree.toList, List.mem_append, List.mem_cons] at hm ⊢
        tauto)
      exact ⟨Set.mem_insert_of_mem _ this.1, this.2⟩
  obtain ⟨h₃, e₃, h₃'⟩ := @replaceChild_at (insert y own) h₂.nodes h₂ _
    (.node c l y r) _
    (LinkedCtx.frame (h := h) h'.hole (r₂.trans r₁) fun z hz => keep z
      (fun hm => hn.2.2 z (Or.inl hm) z hz rfl) fun hm => hn.2.2 z (Or.inr (Or.inr hm)) z hz rfl)
    ⟨(n₂ y hyn.1.2.2).trans y₁, hl₁.frame fun z hz => n₂ z (hlr z hz), hr₂⟩
    (hperm.nodup_iff.mpr (by
      simp only [List.nodup_cons, List.nodup_append, List.mem_append]
      grind)) haddr (fun _ _ => rfl) hx0 hxc
  refine ⟨h₁, h₂, h₃, e₁, child_eq hy0 y₁, e₂, ?_, e₃, fun rest hrest =>
    ⟨h₃'.hole, h₃'.tree, h₃'.nodup, h₃'.addr, fun z hz => ?_⟩⟩
  · exact rbParent_eq (c := c) hx0 ((keep x hxl hn.1.2.1.1).trans hx) rfl h'.even_ctx
  · have hzo : z ∉ own := fun hm => hz (Set.mem_insert_of_mem _ hm)
    have hzy : z ≠ y := fun e => hz (e ▸ Set.mem_insert _ _)
    rw [h₃'.outside z hz, keep z (fun hm => hzo (h'.addr z (by simp [RbTree.toList, hm])).1)
      fun hm => hzo (h'.addr z (by simp [RbTree.toList, hm])).1, h'.outside z hzo]
    exact hrest z hzo hzy

theorem ptr_plug (f : Frame RbPtr) : ∀ (ctx : Ctx RbPtr) (t t' : RbTree RbPtr),
    (Ctx.plug (f :: ctx) t).ptr = (Ctx.plug (f :: ctx) t').ptr
  | [], _, _ => by simp [Ctx.plug, Frame.fill]
  | g :: ctx, t, t' => by
    have h := ptr_plug g ctx (f.fill t) (f.fill t')
    simpa [Ctx.plug] using h

/-- **The successor is further down**: its right child takes its place, and it becomes a copy of the
node. -/
theorem spliceBelow_refines {f : Frame RbPtr} {inner : Ctx RbPtr} (hf : f.side = .left)
    (h' : At own rest h (f :: (inner ++ ⟨.right, c, x, l⟩ :: ctx)) (.node cy .leaf y u))
    (hl : l ≠ .leaf) :
    ∃ h₁ h₂, h.spliceBelow x y u.ptr = .ok (h₁, f.elem) ∧ h₁.rbParent x = .ok (Ctx.ptr ctx) ∧
      h₁.replaceChild (Ctx.ptr ctx) x y = .ok h₂ ∧
      At own rest h₂ (f :: (inner ++ ⟨.right, c, y, l⟩ :: ctx)) u := by
  set outer : Ctx RbPtr := f :: (inner ++ ⟨.right, c, x, l⟩ :: ctx) with houter
  -- the subtree of the node, before and after
  have hplug : ∀ t z, Ctx.plug (f :: (inner ++ ⟨.right, c, z, l⟩ :: ctx)) t =
      Ctx.plug ctx (.node c l z (Ctx.plug (f :: inner) t)) := fun t z =>
    plug_append (f :: inner) (⟨.right, c, z, l⟩ :: ctx) t
  have hfocus : ∀ {own rest h z t}, At own rest h (f :: (inner ++ ⟨.right, c, z, l⟩ :: ctx)) t ↔
      At own rest h ctx (.node c l z (Ctx.plug (f :: inner) t)) := fun {own rest h z t} => by
    rw [At.plug, hplug, ← At.plug]
  have hx := (At.node_eq (s := .left) (hfocus.mp h')).2.2
  have hx0 := (At.node_eq (s := .left) (hfocus.mp h')).1
  obtain ⟨hy0, hye, hy⟩ := At.node_eq (s := .left) h'
  obtain ⟨_, _, hu⟩ := h'.tree
  have hole : LinkedCtx h y outer := h'.hole
  have hn := h'.nodup
  have hzero := h'.zero_notMem
  simp only [RbTree.toList, List.nil_append, List.cons_append, List.nodup_cons, List.mem_cons,
    List.mem_append, List.nodup_append, not_or] at hn hzero
  obtain ⟨⟨hyu, hyo⟩, hnu, hno, hdis⟩ := hn
  -- `*x = *node`
  set n : RbNode := .ofSide .left l.ptr (Ctx.plug (f :: inner) (.node cy .leaf y u)).ptr
    (parentWord (Ctx.ptr ctx) c) with hdef
  let h₁ : RbHeap := { h with nodes := Function.update h.nodes y (some n) }
  have e₁ : h.modify y (fun _ => n) = .ok h₁ := modify_eq hy0 hy _
  have n₁ : ∀ z, z ≠ y → h₁.nodes z = h.nodes z := fun z hz => Function.update_of_ne hz ..
  -- the child takes the old place of the successor
  obtain ⟨h₂, e₂, hole₂, r₂, n₂⟩ := relink_spec (h := h₁) (y := u.ptr)
    (hole.frame rfl fun z hz => n₁ z fun e => hyo (e ▸ hz)) hno hzero.2.2
  have hfmem : f.elem ∈ Ctx.ids outer := by simp [houter, Ctx.ids]
  obtain ⟨h₃, e₃, hu₃, r₃, n₃⟩ := @reparent_spec h₂ y f.elem u
    (hu.frame fun z hz => (n₂ z fun e => hdis z hz f.elem hfmem e).trans
      (n₁ z fun e => hyu (e ▸ hz)))
    hnu hzero.2.1 hye
  have y₃ : h₃.nodes y = some n := by
    rw [n₃ y hyu, n₂ y fun e => hyo (e ▸ hfmem)]
    exact Function.update_self ..
  have h₃' : At {z | z ∈ own ∧ z ≠ y} h₃.nodes h₃ outer u := by
    refine ⟨hole₂.frame r₃ fun z hz => n₃ z fun hm => hdis z hm z hz rfl, hu₃,
      List.nodup_append.mpr ⟨hnu, hno, hdis⟩, fun z hz => ?_, fun _ _ => rfl⟩
    have hzy : z ≠ y := fun e => (List.mem_append.mp hz).elim (e ▸ hyu) (e ▸ hyo)
    have hza := h'.addr z (List.mem_cons_of_mem (a := z) y hz)
    exact ⟨⟨hza.1, hzy⟩, hza.2⟩
  obtain ⟨h₄, h₅, h₆, e₄, c₄, e₅, p₅, e₆, h₆'⟩ :=
    takeOver (hfocus.mp h₃') (y := y) (fun hm => hm.2 rfl) hy0
    hye (by rw [y₃, hdef, ptr_plug f inner _ u]; rfl) hl (plug_ne_leaf inner (by
      obtain ⟨s, cf, xf, uf⟩ := f
      cases s <;> exact fun h => by cases h))
  refine ⟨h₅, h₆, ?_, p₅, e₆, hfocus.mpr ?_⟩
  · have hp : h.rbParent y = .ok f.elem := At.rbParent (s := .left) h'
    have hset : h₁.setChild .left f.elem u.ptr = .ok h₂ := hf ▸ e₂
    have hleft : h₃.child .left y = .ok l.ptr := child_eq hy0 y₃
    rw [RbHeap.spliceBelow, hp, ok_bind, get_eq hx0 hx, ok_bind, e₁, ok_bind, hset, ok_bind, e₃,
      ok_bind, hleft, ok_bind, e₄, ok_bind, c₄, ok_bind, e₅]
    rfl
  · have hown : insert y {z | z ∈ own ∧ z ≠ y} = own :=
      Set.ext fun z => ⟨fun hm => hm.elim (fun e =>
        e ▸ (h'.addr y (by simp [RbTree.toList])).1) And.left,
        fun hm => or_iff_not_imp_left.mpr fun hne => ⟨hm, hne⟩⟩
    rw [← hown]
    refine h₆' rest fun z hz hzy => ?_
    have hzo : z ∉ own := fun hm => hz ⟨hm, hzy⟩
    have hnot : ∀ w ∈ (RbTree.node cy .leaf y u).toList ++ Ctx.ids outer, z ≠ w := fun w hw e =>
      hzo (e ▸ (h'.addr w hw).1)
    rw [n₃ z fun hm => hnot z (by simp [RbTree.toList, hm]) rfl,
      n₂ z (hnot _ (List.mem_append_right _ hfmem)), n₁ z hzy]
    exact h'.outside z hzo

/-! ## Erasure -/

theorem At.ptr_eq_zero (h' : At own rest h ctx t) : t.ptr = 0 ↔ t.isLeaf = true := by
  cases t with
  | leaf => exact iff_of_true rfl rfl
  | node c l x r => exact iff_of_false (At.node_eq (s := .left) h').1 nofun

/-- A node with one child at most. -/
theorem rbErase_one {s : Side} (h' : At own rest h ctx (.mk s c t x .leaf)) {t' : RbTree RbPtr}
    (hfin : eraseFinish c ctx t = .ok t') {fuel : Nat} (hf : ctx.length + 2 ≤ fuel) :
    ∃ h₁, h.rbErase fuel x = .ok h₁ ∧ At own rest h₁ [] t' := by
  obtain ⟨h₁, h₂, e₁, p₁, e₂, h₂'⟩ := unlink_refines h'
  obtain ⟨h₃, e₃, h₃'⟩ := eraseFinish_refines h₂' hfin hf
  refine ⟨h₃, ?_, h₃'⟩
  have hl : ∃ l r, h.child .left x = .ok l ∧ h.child .right x = .ok r ∧ ¬ (l ≠ 0 ∧ r ≠ 0) ∧
      (if l ≠ 0 then l else r) = t.ptr := by
    cases s with
    | left =>
      refine ⟨t.ptr, 0, h'.child, h'.child_other, fun hc => hc.2 rfl, ?_⟩
      by_cases ht : t.ptr = 0
      · rw [if_neg (not_not.mpr ht), ht]
      · exact if_pos ht
    | right => exact ⟨0, t.ptr, h'.child_other, h'.child, fun hc => hc.1 rfl,
      if_neg fun hc => hc rfl⟩
  obtain ⟨l, r, hl, hr, hlr, hc⟩ := hl
  rw [RbHeap.rbErase, hl, ok_bind, hr, ok_bind, if_neg hlr, h'.rbParent, ok_bind,
    h'.rbColor, ok_bind]
  simp only [hc]
  rw [e₁]
  simp only [ok_bind, pure_eq_ok]
  rw [p₁, ok_bind, e₂, ok_bind]
  exact e₃

/-- A node with two children. -/
theorem rbErase_two {r : RbTree RbPtr} {inner : Ctx RbPtr} (h' : At own rest h ctx (.node c l x r))
    (hl : l ≠ .leaf) (hpop : popLeftmost [] r = some (inner, cy, y, u)) {t' : RbTree RbPtr}
    (hfin : eraseFinish cy (inner ++ ⟨.right, c, y, l⟩ :: ctx) u = .ok t') {fuel : Nat}
    (hf : (inner ++ ⟨.right, c, y, l⟩ :: ctx).length + 2 ≤ fuel) (hfr : r.height ≤ fuel) :
    ∃ h₁, h.rbErase fuel x = .ok h₁ ∧ At own rest h₁ [] t' := by
  have hpop' : popLeftmost (⟨.right, c, x, l⟩ :: ctx) r =
      some (inner ++ ⟨.right, c, x, l⟩ :: ctx, cy, y, u) := by
    have happ := popLeftmost_append [] (⟨.right, c, x, l⟩ :: ctx) r
    rwa [List.nil_append, hpop] at happ
  have hnext := rbNext_refines h' hpop' hfr
  have hr := (At.up (f := ⟨.right, c, x, l⟩)).mpr h'
  have hy : At own rest h (inner ++ ⟨.right, c, x, l⟩ :: ctx) (.node cy .leaf y u) := by
    rw [At.plug, popLeftmost_plug hpop', ← At.plug]
    exact hr
  have hl0 : l.ptr ≠ 0 := fun e => by
    have := ((At.up (f := ⟨.left, c, x, r⟩)).mpr h').ptr_eq_zero.mp e
    cases l with
    | leaf => exact hl rfl
    | node => cases this
  have hr0 : r.ptr ≠ 0 := fun e => by
    have := hr.ptr_eq_zero.mp e
    cases r with
    | leaf => cases hpop
    | node => cases this
  have hcl : h.child .left x = .ok l.ptr := At.child (s := .left) h'
  have hcr : h.child .right x = .ok r.ptr := At.child (s := .right) h'
  have hcu : h.child .right y = .ok u.ptr := At.child (s := .right) hy
  have hcol : h.rbColor y = .ok cy.bit := At.rbColor (s := .left) hy
  -- both ways of taking the successor out end alike
  suffices hsplice : ∃ h₁ h₂,
      (if y = r.ptr then h.spliceChild x y else h.spliceBelow x y u.ptr) =
        .ok (h₁, Ctx.ptr (inner ++ ⟨.right, c, y, l⟩ :: ctx)) ∧
      h₁.rbParent x = .ok (Ctx.ptr ctx) ∧ h₁.replaceChild (Ctx.ptr ctx) x y = .ok h₂ ∧
      At own rest h₂ (inner ++ ⟨.right, c, y, l⟩ :: ctx) u by
    obtain ⟨h₁, h₂, e₁, p₁, e₂, h₂'⟩ := hsplice
    obtain ⟨h₃, e₃, h₃'⟩ := eraseFinish_refines h₂' hfin hf
    refine ⟨h₃, ?_, h₃'⟩
    rw [RbHeap.rbErase, hcl, ok_bind, hcr, ok_bind, if_pos ⟨hl0, hr0⟩, hnext, ok_bind,
      hcu, ok_bind, hcol, ok_bind, e₁]
    simp only [ok_bind, pure_eq_ok]
    rw [p₁, ok_bind, e₂, ok_bind]
    exact e₃
  rcases popLeftmost_cases hpop with ⟨rfl, rfl⟩ | ⟨f, inner, rfl, hside⟩
  · rw [RbTree.ptr_node, if_pos rfl]
    exact spliceChild_refines h' hl
  · simp only [List.append_nil, List.cons_append] at hy ⊢
    -- the successor is below the right child, and a node occurs once
    have hne : y ≠ r.ptr := by
      have hroot : Ctx.plug (f :: inner) (.node cy .leaf y u) = r := by
        simpa [Ctx.plug] using popLeftmost_plug hpop
      have hn := (List.nodup_append.mp hr.nodup).1
      rw [← hroot] at hn ⊢
      replace hn := ids_plug.nodup_iff.mp hn
      exact (List.nodup_append.mp hn).2.2 y (by simp [RbTree.toList]) _ (ptr_plug_mem f inner _)
    rw [if_neg hne]
    exact spliceBelow_refines hside hy hl

/-- **`rb_erase`** in memory does what `rbErase` does to trees; its loops turn as often as the tree
is high. -/
theorem rbErase_height (h' : At own rest h [] t) {x : RbPtr} (hx : x ∈ t.toList) {t' : RbTree RbPtr}
    (herase : rbErase t x = .ok t') {fuel : Nat} (hf : t.height + 2 ≤ fuel) :
    ∃ h₁, h.rbErase fuel x = .ok h₁ ∧ At own rest h₁ [] t' := by
  obtain ⟨ctx, c, l, r, hloc, hplug, _⟩ := locate_spec t [] x hx
  rw [rbErase, hloc] at herase
  simp only at herase
  have hat : At own rest h ctx (.node c l x r) := by
    rw [At.plug, hplug]
    exact h'
  have hle := height_plug_le ctx (.node c l x r)
  replace hplug : Ctx.plug ctx (.node c l x r) = t := hplug
  rw [hplug, RbTree.height] at hle
  by_cases hkids : (!l.isLeaf && !r.isLeaf) = true
  · rw [if_pos hkids] at herase
    obtain ⟨hll, _⟩ := Bool.and_eq_true_iff.mp hkids
    cases hpop : popLeftmost [] r with
    | none => rw [hpop] at herase; cases herase
    | some q =>
      obtain ⟨inner, cy, y, u⟩ := q
      rw [hpop] at herase
      have hinner : inner.length + 1 ≤ r.height := height_leftmost_le (popLeftmost_plug hpop)
      refine rbErase_two hat (fun e => ?_) hpop herase ?_ (by omega)
      · rw [e] at hll
        cases hll
      · simp only [List.length_append, List.length_cons]
        omega
  · rw [if_neg hkids] at herase
    cases l with
    | leaf => exact rbErase_one (s := .right) hat herase (by omega)
    | node cl ll lx lr =>
      cases r with
      | leaf => exact rbErase_one (s := .left) hat herase (by omega)
      | node => exact absurd rfl hkids

theorem rbErase_refines (h' : At own rest h [] t) {x : RbPtr} (hx : x ∈ t.toList)
    {t' : RbTree RbPtr}
    (herase : rbErase t x = .ok t') {fuel : Nat} (hf : t.toList.length + 2 ≤ fuel) :
    ∃ h₁, h.rbErase fuel x = .ok h₁ ∧ At own rest h₁ [] t' :=
  rbErase_height h' hx herase (Nat.le_trans (Nat.add_le_add_right (height_le_length t) 2) hf)

/-- **`rb_erase`** of a node of a valid tree ends without a fault and gives a valid tree without
that node; every other node keeps its place in the order, and no other node in memory is written. -/
theorem rb_erase_valid (hr : Represents h t) (hvalid : t.Valid) (hx : x ∈ t.toList) {fuel : Nat}
    (hf : t.toList.length + 2 ≤ fuel) :
    ∃ h₁ t' A B, h.rbErase fuel x = .ok h₁ ∧ Represents h₁ t' ∧ t'.Valid ∧
      t.toList = A ++ x :: B ∧ t'.toList = A ++ B ∧ ∀ z, z ∉ t.toList → h₁.nodes z = h.nodes z := by
  have hat := @Represents.at _ _ {z | z ∈ t.toList} hr fun z hz => hz
  obtain ⟨t', A, B, herase, hvalid', hlist, hlist'⟩ := rbErase_spec hvalid hx
  obtain ⟨h₁, hrun, h₁'⟩ := rbErase_refines hat hx herase hf
  exact ⟨h₁, t', A, B, hrun, h₁'.represents, hvalid', hlist, hlist', h₁'.outside⟩

/-- A black node at address 16 with red children at addresses 8 and 24. -/
def threeNodes : RbHeap :=
  ⟨fun p => List.lookup p [(8, ⟨0, 0, 16⟩), (16, ⟨8, 24, BLACK⟩), (24, ⟨0, 0, 16⟩)], 16⟩

theorem threeNodes_represents : Represents threeNodes
    (.node .black (.node .red .leaf 8 .leaf) 16 (.node .red .leaf 24 .leaf)) where
  root := rfl
  linked := ⟨rfl, ⟨rfl, trivial, trivial⟩, rfl, trivial, trivial⟩
  nodup := by decide
  addr := fun x hx => by
    rcases List.mem_cons.mp hx with rfl | hx
    · exact ⟨by decide, rfl⟩
    · rcases List.mem_cons.mp hx with rfl | hx
      · exact ⟨by decide, rfl⟩
      · rw [List.mem_singleton.mp hx]
        exact ⟨by decide, rfl⟩

theorem rb_erase_valid_threeNodes :
    ∃ h₁ t', threeNodes.rbErase 5 16 = .ok h₁ ∧ Represents h₁ t' ∧ t'.Valid ∧
    t'.toList = [8, 24] := by
  have hvalid : (RbTree.node .black (.node .red .leaf (8 : RbPtr) .leaf) 16
      (.node .red .leaf 24 .leaf)).Valid := ⟨1, .black (.red .leaf .leaf) (.red .leaf .leaf)⟩
  obtain ⟨h₁, t', A, B, hrun, hrep, hvalid', hlist, hlist', _⟩ := @rb_erase_valid _ _ 16
    threeNodes_represents hvalid (by decide) 5 (by decide)
  have hsplit := split_unique (hlist.symm.trans (show _ = [8] ++ 16 :: [24] from rfl))
    (hlist ▸ by decide)
  exact ⟨h₁, t', hrun, hrep, hvalid', by rw [hlist', hsplit.1, hsplit.2]; rfl⟩

end AuOs
