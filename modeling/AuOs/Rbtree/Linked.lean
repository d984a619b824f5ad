import Mathlib
import AuOs.Rbtree.Valid
import AuOs.Rbtree.Heap

/-!
# Trees linked in memory

* `parentWord` — the word `parent` of a node, made of the address of the parent and the colour.
* `Linked`, `LinkedCtx` — a tree, or a tree with a hole, stands in memory; its elements are the
  addresses of the nodes.
* `At own rest h ctx t` — the heap holds `t` in the hole of `ctx`; outside of `own` it is `rest`.
* `Represents h t` — the whole tree stands in memory.
* `At.up` — moving the focus: a frame can be taken from the context or put back.
* `At.setColor`, `At.rotate` — the two ways in which the fix-up loops write.
-/

set_option autoImplicit false

namespace AuOs

/-! ## The word `parent` -/

/-- The bit that stands for the colour. -/
def Color.bit : Color → RbPtr
  | .red => RED
  | .black => BLACK

/-- The word `parent` of a node of colour `c` below `p`. -/
def parentWord (p : RbPtr) (c : Color) : RbPtr := p ||| c.bit

/-- The address of a node, or null: bit 0 is free for the colour. -/
def Even (p : RbPtr) : Prop := p.getLsbD 0 = false

section Word

variable {p q : RbPtr} {c c' : Color}

theorem one_getLsbD (i : Nat) : (1 : RbPtr).getLsbD i = decide (i = 0) := by
  rw [show (1 : RbPtr) = 1#64 from rfl, BitVec.getLsbD_one]
  simp

theorem even_zero : Even 0 := rfl

theorem Color.bit_getLsbD (i : Nat) : c.bit.getLsbD i =
    (decide (c = .black) && decide (i = 0)) := by
  cases c with
  | red => simp [Color.bit, RED]
  | black => rw [Color.bit, BLACK, one_getLsbD]; simp

theorem parentWord_color (h : Even p) : parentWord p c &&& 1 = c.bit := by
  refine BitVec.eq_of_getLsbD_eq fun i _ => ?_
  rw [BitVec.getLsbD_and, parentWord, BitVec.getLsbD_or, Color.bit_getLsbD, one_getLsbD]
  by_cases hi : i = 0
  · subst hi
    rw [show p.getLsbD 0 = false from h]
    simp
  · simp [hi]

theorem parentWord_parent (h : Even p) : parentWord p c &&& ~~~1 = p := by
  refine BitVec.eq_of_getLsbD_eq fun i hi => ?_
  rw [BitVec.getLsbD_and, parentWord, BitVec.getLsbD_or, Color.bit_getLsbD, BitVec.getLsbD_not,
    one_getLsbD]
  by_cases h0 : i = 0
  · subst h0
    rw [show p.getLsbD 0 = false from h]
    simp
  · simp [h0, hi]

/-- `rb_set_color`. -/
theorem parentWord_setColor (h : Even p) : (parentWord p c &&& ~~~1) ||| c'.bit =
    parentWord p c' := by
  rw [parentWord_parent h, parentWord]

/-- `rb_set_parent`. -/
theorem parentWord_setParent (h : Even p) : (parentWord p c &&& 1) ||| q = parentWord q c := by
  rw [parentWord_color h, parentWord, BitVec.or_comm]

theorem Color.bit_eq_red : (c.bit == RED) = decide (c = .red) := by cases c <;> rfl

end Word

/-! ## Nodes -/

/-- The node whose child on side `s` is `a` and whose other child is `b`. -/
def RbNode.ofSide (s : Side) (a b w : RbPtr) : RbNode :=
  match s with
  | .left => ⟨a, b, w⟩
  | .right => ⟨b, a, w⟩

namespace RbNode

variable {s : Side} {a b w a' : RbPtr}

@[simp] theorem child_ofSide : (ofSide s a b w).child s = a := by cases s <;> rfl

@[simp] theorem child_other_ofSide : (ofSide s a b w).child s.other = b := by cases s <;> rfl

@[simp] theorem setChild_ofSide : (ofSide s a b w).setChild s a' = ofSide s a' b w := by
  cases s <;> rfl

@[simp] theorem setChild_other_ofSide : (ofSide s a b w).setChild s.other a' = ofSide s a a' w := by
  cases s <;> rfl

@[simp] theorem parent_ofSide : (ofSide s a b w).parent = w := by cases s <;> rfl

@[simp] theorem setParent_ofSide :
    ({ ofSide s a b w with parent := a' } : RbNode) = ofSide s a b a' := by
  cases s <;> rfl

end RbNode

/-- The address of the root, null for the empty tree. -/
def RbTree.ptr : RbTree RbPtr → RbPtr
  | .leaf => 0
  | .node _ _ x _ => x

/-- The address of the parent of the hole, null if there is none. -/
def Ctx.ptr : Ctx RbPtr → RbPtr
  | [] => 0
  | f :: _ => f.elem

/-- The nodes of a context. -/
def Ctx.ids : Ctx RbPtr → List RbPtr
  | [] => []
  | f :: ctx => f.elem :: (f.sibling.toList ++ Ctx.ids ctx)

/-- A tree in memory, below the node `par`. -/
def Linked (nodes : RbPtr → Option RbNode) : RbPtr → RbTree RbPtr → Prop
  | _, .leaf => True
  | par, .node c l x r => nodes x = some ⟨l.ptr, r.ptr, parentWord par c⟩ ∧
      Linked nodes x l ∧ Linked nodes x r

/-- A tree with a hole in memory; the pointer to the hole is `hole`. -/
def LinkedCtx (h : RbHeap) : RbPtr → Ctx RbPtr → Prop
  | hole, [] => h.root = hole
  | hole, f :: ctx =>
    h.nodes f.elem = some (.ofSide f.side hole f.sibling.ptr (parentWord (Ctx.ptr ctx) f.color)) ∧
      Linked h.nodes f.elem f.sibling ∧ LinkedCtx h f.elem ctx

/-- The heap holds the tree `t` in the hole of `ctx`; outside of `own` it is `rest`. -/
structure At (own : Set RbPtr) (rest : RbPtr → Option RbNode) (h : RbHeap) (ctx : Ctx RbPtr)
    (t : RbTree RbPtr) : Prop where
  hole : LinkedCtx h t.ptr ctx
  tree : Linked h.nodes (Ctx.ptr ctx) t
  nodup : (t.toList ++ Ctx.ids ctx).Nodup
  addr : ∀ x ∈ t.toList ++ Ctx.ids ctx, x ∈ own ∧ x ≠ 0 ∧ Even x
  outside : ∀ x, x ∉ own → h.nodes x = rest x

/-- The whole tree stands in memory: the root pointer, the child and parent pointers and the colours
are as in `t`. -/
structure Represents (h : RbHeap) (t : RbTree RbPtr) : Prop where
  root : h.root = t.ptr
  linked : Linked h.nodes 0 t
  nodup : t.toList.Nodup
  addr : ∀ x ∈ t.toList, x ≠ 0 ∧ Even x

section Frame

variable {nodes nodes' : RbPtr → Option RbNode} {s : Side} {c c' : Color} {x y par par' : RbPtr}
  {t u v : RbTree RbPtr} {ctx : Ctx RbPtr} {h h' : RbHeap} {hole hole' : RbPtr}

@[simp] theorem RbTree.ptr_node {l r : RbTree RbPtr} : (RbTree.node c l x r).ptr = x := rfl

@[simp] theorem RbTree.ptr_mk : (RbTree.mk s c t x u).ptr = x := by cases s <;> rfl

theorem Side.eq_or_other (s s' : Side) : s' = s ∨ s' = s.other := by
  cases s <;> cases s' <;> decide

theorem Side.other_ne (s : Side) : s.other ≠ s := by cases s <;> decide

theorem rotate_mk : rotate s (.mk s c t x (.mk s c' u y v)) =
    .ok (.mk s c' (.mk s c t x u) y v) := by
  cases s <;> rfl

theorem RbTree.mk_other : RbTree.mk s.other c t x u = .mk s c u x t := by cases s <;> rfl

@[simp] theorem RbTree.setColor_mk :
    (RbTree.mk s c t x u).setColor c' = .mk s c' t x u := by cases s <;> rfl

/-- A tree that is not empty, seen from a side. -/
theorem RbTree.exists_mk (s : Side) (ht : t ≠ .leaf) : ∃ c a x b, t = .mk s c a x b := by
  cases t with
  | leaf => exact absurd rfl ht
  | node c l x r =>
    cases s
    · exact ⟨c, l, x, r, rfl⟩
    · exact ⟨c, r, x, l, rfl⟩

@[simp] theorem RbTree.ptr_setColor : (t.setColor c).ptr = t.ptr := by cases t <;> rfl

theorem linked_mk : Linked nodes par (.mk s c t x u) ↔
    nodes x = some (.ofSide s t.ptr u.ptr (parentWord par c)) ∧ Linked nodes x t ∧
    Linked nodes x u := by
  cases s
  · exact Iff.rfl
  · exact and_congr_right fun _ => and_comm

/-- Writes outside of a tree do not change it. -/
theorem Linked.frame : ∀ {t : RbTree RbPtr} {par : RbPtr}, Linked nodes par t →
    (∀ x ∈ t.toList, nodes' x = nodes x) → Linked nodes' par t
  | .leaf, _, _, _ => trivial
  | .node c l x r, par, ⟨hx, hl, hr⟩, hsame => by
    refine ⟨(hsame x (by simp [RbTree.toList])).trans hx, hl.frame fun y hy => ?_,
      hr.frame fun y hy => ?_⟩
    · exact hsame y (by simp [RbTree.toList, hy])
    · exact hsame y (by simp [RbTree.toList, hy])

theorem LinkedCtx.frame : ∀ {ctx : Ctx RbPtr} {hole : RbPtr}, LinkedCtx h hole ctx →
    h'.root = h.root → (∀ x ∈ Ctx.ids ctx, h'.nodes x = h.nodes x) → LinkedCtx h' hole ctx
  | [], _, hc, hroot, _ => hroot.trans hc
  | f :: ctx, hole, ⟨hf, hs, hc⟩, hroot, hsame => by
    refine ⟨(hsame _ List.mem_cons_self).trans hf, hs.frame fun y hy => ?_,
      hc.frame hroot fun y hy => ?_⟩
    · exact hsame y (List.mem_cons_of_mem _ (List.mem_append_left _ hy))
    · exact hsame y (List.mem_cons_of_mem _ (List.mem_append_right _ hy))

theorem ids_fill (f : Frame RbPtr) :
    ((f.fill t).toList ++ Ctx.ids ctx).Perm (t.toList ++ Ctx.ids (f :: ctx)) := by
  obtain ⟨s, c, x, u⟩ := f
  simp only [Frame.fill, toList_mk, Ctx.ids]
  cases s
  · simp
  · simp only [List.append_assoc, List.cons_append]
    refine List.perm_middle.trans ?_
    refine (List.Perm.cons x ?_).trans List.perm_middle.symm
    rw [← List.append_assoc, ← List.append_assoc]
    exact List.perm_append_comm.append_right _

theorem ids_plug : ∀ {ctx : Ctx RbPtr} {t : RbTree RbPtr},
    (Ctx.plug ctx t).toList.Perm (t.toList ++ Ctx.ids ctx)
  | [], _ => by simp [Ctx.plug, Ctx.ids]
  | f :: ctx, t => (@ids_plug ctx (f.fill t)).trans (ids_fill f)

/-- **Moving the focus.** -/
theorem At.up {own : Set RbPtr} {rest : RbPtr → Option RbNode} {f : Frame RbPtr} :
    At own rest h (f :: ctx) t ↔ At own rest h ctx (f.fill t) := by
  have hids := @ids_fill t ctx f
  constructor
  · rintro ⟨⟨hf, hs, hc⟩, ht, hn, ha, ho⟩
    refine ⟨by rw [Frame.fill, RbTree.ptr_mk]; exact hc, linked_mk.mpr ⟨hf, ht, hs⟩,
      hids.nodup_iff.mpr hn, fun x hx => ha x (hids.mem_iff.mp hx), ho⟩
  · rintro ⟨hc, ht, hn, ha, ho⟩
    obtain ⟨hf, ht, hs⟩ := linked_mk.mp ht
    rw [Frame.fill, RbTree.ptr_mk] at hc
    exact ⟨⟨hf, hs, hc⟩, ht, hids.nodup_iff.mp hn, fun x hx => ha x (hids.mem_iff.mpr hx), ho⟩

/-- The whole tree in focus. -/
theorem At.plug {own : Set RbPtr} {rest : RbPtr → Option RbNode} : ∀ {ctx : Ctx RbPtr}
    {t : RbTree RbPtr}, At own rest h ctx t ↔ At own rest h [] (Ctx.plug ctx t)
  | [], _ => Iff.rfl
  | f :: ctx, t => At.up.trans (@At.plug _ _ ctx (f.fill t))

/-- A tree in memory, in focus. -/
theorem Represents.at {own : Set RbPtr} (hr : Represents h t) (hown : ∀ x ∈ t.toList, x ∈ own) :
    At own h.nodes h [] t where
  hole := hr.root
  tree := hr.linked
  nodup := by simpa [Ctx.ids] using hr.nodup
  addr := fun x hx => by
    have hx : x ∈ t.toList := by simpa [Ctx.ids] using hx
    exact ⟨hown x hx, hr.addr x hx⟩
  outside := fun _ _ => rfl

theorem At.represents {own : Set RbPtr} {rest : RbPtr → Option RbNode} (h' : At own rest h [] t) :
    Represents h t where
  root := h'.hole
  linked := h'.tree
  nodup := (List.nodup_append.mp h'.nodup).1
  addr := fun x hx => (h'.addr x (List.mem_append_left _ hx)).2

theorem fill_mk : (⟨s, c, x, u⟩ : Frame RbPtr).fill t = .mk s c t x u := rfl

theorem plug_ne_leaf : ∀ (ctx : Ctx RbPtr) {t : RbTree RbPtr}, t ≠ .leaf → Ctx.plug ctx t ≠ .leaf
  | [], _, ht => ht
  | ⟨s, _, _, _⟩ :: ctx, _, _ => plug_ne_leaf ctx (by cases s <;> exact nofun)

end Frame

/-! ## Reading and writing -/

section Access

variable {h : RbHeap} {x y par par' hole : RbPtr} {n : RbNode} {s : Side} {c : Color}
  {t : RbTree RbPtr} {ctx : Ctx RbPtr}

theorem get_eq (hx : x ≠ 0) (hn : h.nodes x = some n) : h.get x = .ok n := by
  rw [RbHeap.get, if_neg hx, hn]

theorem modify_eq (hx : x ≠ 0) (hn : h.nodes x = some n) (f : RbNode → RbNode) :
    h.modify x f = .ok { h with nodes := Function.update h.nodes x (some (f n)) } := by
  rw [RbHeap.modify, get_eq hx hn]
  rfl

theorem child_eq (hx : x ≠ 0) (hn : h.nodes x = some n) : h.child s x = .ok (n.child s) := by
  rw [RbHeap.child, get_eq hx hn]
  rfl

theorem setChild_eq (hx : x ≠ 0) (hn : h.nodes x = some n) :
    h.setChild s x y =
      .ok { h with nodes := Function.update h.nodes x (some (n.setChild s y)) } :=
  modify_eq hx hn _

theorem rbColor_eq (hx : x ≠ 0) (hn : h.nodes x = some n) (hp : n.parent = parentWord par c)
    (he : Even par) : h.rbColor x = .ok c.bit := by
  rw [RbHeap.rbColor, get_eq hx hn, ok_bind, hp, parentWord_color he]
  rfl

theorem rbParent_eq (hx : x ≠ 0) (hn : h.nodes x = some n) (hp : n.parent = parentWord par c)
    (he : Even par) : h.rbParent x = .ok par := by
  rw [RbHeap.rbParent, get_eq hx hn, ok_bind, hp, parentWord_parent he]
  rfl

theorem rbSetParent_eq (hx : x ≠ 0) (hn : h.nodes x = some n) (hp : n.parent = parentWord par c)
    (he : Even par) : h.rbSetParent x y =
      .ok { h with
        nodes := Function.update h.nodes x (some { n with parent := parentWord y c }) } := by
  rw [RbHeap.rbSetParent, modify_eq hx hn, hp, parentWord_setParent he]

theorem rbSetColor_eq {c' : Color} (hx : x ≠ 0) (hn : h.nodes x = some n)
    (hp : n.parent = parentWord par c) (he : Even par) : h.rbSetColor x c'.bit =
      .ok { h with
        nodes := Function.update h.nodes x (some { n with parent := parentWord par c' }) } := by
  rw [RbHeap.rbSetColor, modify_eq hx hn, hp, parentWord_setColor he]

/-- `if (c) rb_set_parent(c, p)`: a tree moves below another node. -/
theorem reparent_spec (ht : Linked h.nodes par t) (hn : t.toList.Nodup) (hz : 0 ∉ t.toList)
    (he : Even par) : ∃ h', (if t.ptr = 0 then .ok h else h.rbSetParent t.ptr par') = .ok h' ∧
      Linked h'.nodes par' t ∧ h'.root = h.root ∧ ∀ z, z ∉ t.toList → h'.nodes z = h.nodes z := by
  cases t with
  | leaf => exact ⟨h, rfl, trivial, rfl, fun _ _ => rfl⟩
  | node c l x r =>
    obtain ⟨hx, hl, hr⟩ := ht
    have hx0 : x ≠ 0 := fun e => hz (by simp [RbTree.toList, e])
    have hne : ∀ y, y ∈ l.toList ∨ y ∈ r.toList → y ≠ x := by
      simp only [RbTree.toList, List.nodup_append, List.nodup_cons, List.mem_cons] at hn
      grind
    refine ⟨_, (if_neg hx0).trans (rbSetParent_eq hx0 hx rfl he), ⟨?_, ?_, ?_⟩, rfl, fun z hz => ?_⟩
    · simp
    · exact hl.frame fun y hy => by simp [hne y (Or.inl hy)]
    · exact hr.frame fun y hy => by simp [hne y (Or.inr hy)]
    · have : z ≠ x := fun e => hz (by simp [RbTree.toList, e])
      simp [this]

/-- The pointer to the hole is written. -/
theorem relink_spec {f : Frame RbPtr} (hc : LinkedCtx h x (f :: ctx))
    (hn : (Ctx.ids (f :: ctx)).Nodup) (hz : 0 ∉ Ctx.ids (f :: ctx)) :
    ∃ h', h.setChild f.side f.elem y = .ok h' ∧ LinkedCtx h' y (f :: ctx) ∧ h'.root = h.root ∧
      ∀ z, z ≠ f.elem → h'.nodes z = h.nodes z := by
  obtain ⟨hf, hs, hc⟩ := hc
  obtain ⟨s, c, p, u⟩ := f
  simp only [Ctx.ids, List.mem_cons, List.mem_append, not_or] at hz hf hs hc
  simp only [Ctx.ids, List.nodup_cons, List.nodup_append, List.mem_append] at hn
  have hnode := setChild_eq (s := s) (y := y) (fun e => hz.1 e.symm) hf
  rw [RbNode.setChild_ofSide] at hnode
  refine ⟨_, hnode, ⟨by simp, hs.frame fun z hz => ?_, hc.frame rfl fun z hz => ?_⟩, rfl,
    fun z hzp => Function.update_of_ne hzp ..⟩
  · have : z ≠ p := fun e => hn.1 (Or.inl (e ▸ hz))
    simp [this]
  · have : z ≠ p := fun e => hn.1 (Or.inr (e ▸ hz))
    simp [this]

/-- **`replaceChild`** points the hole to another node. -/
theorem replaceChild_spec (hc : LinkedCtx h x ctx) (hn : (Ctx.ids ctx).Nodup)
    (hz : 0 ∉ Ctx.ids ctx) (hx0 : x ≠ 0) (hx : x ∉ Ctx.ids ctx) :
    ∃ h', h.replaceChild (Ctx.ptr ctx) x y = .ok h' ∧ LinkedCtx h' y ctx ∧
      ∀ z, z ∉ Ctx.ids ctx → h'.nodes z = h.nodes z := by
  cases ctx with
  | nil => exact ⟨_, if_pos rfl, rfl, fun _ _ => rfl⟩
  | cons f ctx =>
    obtain ⟨h', hset, hc', _, hsame⟩ := relink_spec (y := y) hc hn hz
    refine ⟨h', ?_, hc', fun z hz => hsame z fun e => hz (by simp [Ctx.ids, e])⟩
    rw [← hset]
    obtain ⟨s, c, p, u⟩ := f
    simp only [Ctx.ids, List.mem_cons, List.mem_append, not_or] at hz hx
    have hp0 : p ≠ 0 := fun e => hz.1 e.symm
    rw [Ctx.ptr, RbHeap.replaceChild, if_neg hp0, child_eq hp0 hc.1, ok_bind]
    cases s with
    | left => exact if_pos rfl
    | right =>
      -- the other child is not `x`
      refine if_neg fun he => ?_
      cases u with
      | leaf => exact hx0 he.symm
      | node cu l z r => exact hx.2.1 (by simp [RbTree.toList, show z = x from he])

end Access

section At

variable {own : Set RbPtr} {rest : RbPtr → Option RbNode} {h : RbHeap} {ctx : Ctx RbPtr}
  {t a b d l r : RbTree RbPtr} {s : Side} {c c' : Color} {x y : RbPtr}

theorem toList_mk_perm : (RbTree.mk s c a x b).toList.Perm (x :: (a.toList ++ b.toList)) := by
  cases s
  · exact List.perm_middle
  · exact List.perm_middle.trans (List.Perm.cons x List.perm_append_comm)

namespace At

theorem even_ctx (h' : At own rest h ctx t) : Even (Ctx.ptr ctx) := by
  cases ctx with
  | nil => exact even_zero
  | cons f ctx => exact (h'.addr f.elem (by simp [Ctx.ids])).2.2

theorem zero_notMem (h' : At own rest h ctx t) : 0 ∉ t.toList ++ Ctx.ids ctx := fun hm =>
  (h'.addr 0 hm).2.1 rfl

/-- The node in focus. -/
theorem node_eq (h' : At own rest h ctx (.mk s c a x b)) :
    x ≠ 0 ∧ Even x ∧ h.nodes x = some (.ofSide s a.ptr b.ptr (parentWord (Ctx.ptr ctx) c)) := by
  have hx := h'.addr x (List.mem_append_left _ (toList_mk_perm.mem_iff.mpr List.mem_cons_self))
  exact ⟨hx.2.1, hx.2.2, (linked_mk.mp h'.tree).1⟩

/-- **`rb_set_color`** of the node in focus. -/
theorem setColor (h' : At own rest h ctx t) (ht : t ≠ .leaf) (c' : Color) :
    ∃ h₁, h.rbSetColor t.ptr c'.bit = .ok h₁ ∧ At own rest h₁ ctx (t.setColor c') := by
  obtain ⟨c, a, x, b, rfl⟩ := RbTree.exists_mk .left ht
  obtain ⟨hx0, _, hx⟩ := h'.node_eq
  obtain ⟨_, ha, hb⟩ := linked_mk.mp h'.tree
  have hn := (toList_mk_perm.append_right (Ctx.ids ctx)).nodup_iff.mp h'.nodup
  simp only [List.cons_append, List.nodup_cons, List.mem_append, not_or] at hn
  have hmem := List.mem_append_left (Ctx.ids ctx)
    ((toList_mk_perm (s := .left) (c := c) (x := x) (a := a) (b := b)).mem_iff.mpr
      List.mem_cons_self)
  rw [RbTree.ptr_mk, RbTree.setColor_mk]
  refine ⟨_, rbSetColor_eq (c := c) hx0 hx RbNode.parent_ofSide h'.even_ctx, ?_,
    linked_mk.mpr ⟨?_, ?_, ?_⟩, h'.nodup, h'.addr, fun z hz => ?_⟩
  · have hole := h'.hole
    rw [RbTree.ptr_mk] at hole ⊢
    refine hole.frame rfl fun z hz => ?_
    have : z ≠ x := fun e => hn.1.2 (e ▸ hz)
    simp [this]
  · simp
  · refine ha.frame fun z hz => ?_
    have : z ≠ x := fun e => hn.1.1.1 (e ▸ hz)
    simp [this]
  · refine hb.frame fun z hz => ?_
    have : z ≠ x := fun e => hn.1.1.2 (e ▸ hz)
    simp [this]
  · have : z ≠ x := fun e => hz (e ▸ (h'.addr x hmem).1)
    simpa [this] using h'.outside z hz

/-- `rb_red` of a tree that may be null. -/
theorem rbRed (h' : At own rest h ctx t) : h.rbRed t.ptr = .ok t.isRed := by
  cases t with
  | leaf => rfl
  | node c l x r =>
    obtain ⟨hx0, _, hx⟩ := At.node_eq (s := .left) h'
    rw [RbHeap.rbRed, RbTree.ptr_node, if_neg hx0,
      rbColor_eq (c := c) hx0 hx RbNode.parent_ofSide h'.even_ctx, ok_bind, pure_eq_ok,
      Color.bit_eq_red]
    cases c <;> rfl

theorem rbBlack (h' : At own rest h ctx t) : h.rbBlack t.ptr = .ok !t.isRed := by
  rw [RbHeap.rbBlack, h'.rbRed]
  rfl

theorem child (h' : At own rest h ctx (.mk s c a x b)) : h.child s x = .ok a.ptr := by
  obtain ⟨hx0, _, hx⟩ := h'.node_eq
  rw [child_eq hx0 hx, RbNode.child_ofSide]

theorem child_other (h' : At own rest h ctx (.mk s c a x b)) : h.child s.other x = .ok b.ptr := by
  obtain ⟨hx0, _, hx⟩ := h'.node_eq
  rw [child_eq hx0 hx, RbNode.child_other_ofSide]

theorem rbColor (h' : At own rest h ctx (.mk s c a x b)) : h.rbColor x = .ok c.bit := by
  obtain ⟨hx0, _, hx⟩ := h'.node_eq
  exact rbColor_eq hx0 hx RbNode.parent_ofSide h'.even_ctx

theorem rbParent (h' : At own rest h ctx (.mk s c a x b)) : h.rbParent x = .ok (Ctx.ptr ctx) := by
  obtain ⟨hx0, _, hx⟩ := h'.node_eq
  exact rbParent_eq (c := c) hx0 hx RbNode.parent_ofSide h'.even_ctx

/-- The two children of a node are different, unless both are null. -/
theorem ptr_ne (h' : At own rest h ctx (.mk s c a x b)) (hab : a ≠ .leaf ∨ b ≠ .leaf) :
    a.ptr ≠ b.ptr := by
  have hn := (List.nodup_append.mp h'.nodup).1
  have hz : 0 ∉ (RbTree.mk s c a x b).toList := fun hm => h'.zero_notMem (List.mem_append_left _ hm)
  rw [toList_mk_perm.mem_iff] at hz
  replace hn := toList_mk_perm.nodup_iff.mp hn
  intro he
  cases a with
  | leaf =>
    cases b with
    | leaf => exact hab.elim (fun h => h rfl) fun h => h rfl
    | node _ _ y _ => exact hz (by simp [RbTree.toList, show (0 : RbPtr) = y from he])
  | node _ _ y _ =>
    cases b with
    | leaf => exact hz (by simp [RbTree.toList, show y = (0 : RbPtr) from he])
    | node _ _ z _ =>
      obtain rfl : y = z := he
      have hd := (List.nodup_append.mp (List.nodup_cons.mp hn).2).2.2
      exact hd y (by simp [RbTree.toList]) y (by simp [RbTree.toList]) rfl

/-- The test by which the code finds the side of a child. -/
theorem side_eq (h' : At own rest h ctx (.mk s c a x b)) (hab : a ≠ .leaf ∨ b ≠ .leaf) :
    ∃ l, h.child .left x = .ok l ∧ (if a.ptr = l then Side.left else Side.right) = s := by
  cases s with
  | left => exact ⟨_, h'.child, if_pos rfl⟩
  | right => exact ⟨_, h'.child_other, if_neg (h'.ptr_ne hab)⟩

/-- **A rotation** at the node in focus. -/
theorem rotate (h' : At own rest h ctx (.mk s c a x (.mk s c' b y d))) :
    ∃ h₁, RbHeap.rbRotate s h x = .ok h₁ ∧ At own rest h₁ ctx (.mk s c' (.mk s c a x b) y d) := by
  obtain ⟨hx0, hxe, hx⟩ := h'.node_eq
  obtain ⟨_, ha, hyd⟩ := linked_mk.mp h'.tree
  obtain ⟨hy, hb, hd⟩ := linked_mk.mp hyd
  have hperm : ((RbTree.mk s c a x (.mk s c' b y d)).toList ++ Ctx.ids ctx).Perm
      (x :: y :: (a.toList ++ (b.toList ++ (d.toList ++ Ctx.ids ctx)))) := by
    refine (toList_mk_perm.append_right _).trans ?_
    rw [List.cons_append, List.append_assoc]
    refine List.Perm.cons x (((toList_mk_perm.append_right _).append_left _).trans ?_)
    rw [List.cons_append, List.append_assoc]
    exact List.perm_middle
  have hperm' : ((RbTree.mk s c' (.mk s c a x b) y d).toList ++ Ctx.ids ctx).Perm
      (x :: y :: (a.toList ++ (b.toList ++ (d.toList ++ Ctx.ids ctx)))) := by
    refine (toList_mk_perm.append_right _).trans ?_
    rw [List.cons_append, List.append_assoc]
    refine (List.Perm.cons y (toList_mk_perm.append_right _)).trans ?_
    rw [List.cons_append, List.append_assoc]
    exact List.Perm.swap x y _
  have hn := hperm.nodup_iff.mp h'.nodup
  have haddr := fun z hz => h'.addr z (hperm.mem_iff.mpr hz)
  have hzero : 0 ∉ x :: y :: (a.toList ++ (b.toList ++ (d.toList ++ Ctx.ids ctx))) := fun hm =>
    h'.zero_notMem (hperm.mem_iff.mpr hm)
  have hy0 : y ≠ 0 := (haddr y (by simp)).2.1
  have hye : Even y := (haddr y (by simp)).2.2
  have hPe := h'.even_ctx
  have hole := h'.hole
  rw [RbTree.ptr_mk] at hx hole
  simp only [List.nodup_cons, List.nodup_append, List.mem_cons, List.mem_append, not_or] at hn
  simp only [List.mem_cons, List.mem_append, not_or] at hzero
  obtain ⟨⟨hxy, hxa, hxb, hxd, hxc⟩, ⟨hya, hyb, hyd', hyc⟩, hna,
    ⟨hnb, ⟨hnd, hnc, hdc⟩, hbdc⟩, habdc⟩ := hn
  have hab : ∀ z ∈ a.toList, z ∉ b.toList := fun z h₁ h₂ => habdc z h₁ z (Or.inl h₂) rfl
  have had : ∀ z ∈ a.toList, z ∉ d.toList := fun z h₁ h₂ => habdc z h₁ z (Or.inr (Or.inl h₂)) rfl
  have hac : ∀ z ∈ a.toList, z ∉ Ctx.ids ctx := fun z h₁ h₂ => habdc z h₁ z (Or.inr (Or.inr h₂)) rfl
  have hbd : ∀ z ∈ b.toList, z ∉ d.toList := fun z h₁ h₂ => hbdc z h₁ z (Or.inl h₂) rfl
  have hbc : ∀ z ∈ b.toList, z ∉ Ctx.ids ctx := fun z h₁ h₂ => hbdc z h₁ z (Or.inr h₂) rfl
  have hdc' : ∀ z ∈ d.toList, z ∉ Ctx.ids ctx := fun z h₁ h₂ => hdc z h₁ z h₂ rfl
  -- x->right = r->left
  let h₁ : RbHeap := { h with
    nodes := Function.update h.nodes x (some (.ofSide s a.ptr b.ptr (parentWord (Ctx.ptr ctx) c))) }
  have e₁ : h.setChild s.other x b.ptr = .ok h₁ := by
    rw [setChild_eq hx0 hx, RbNode.setChild_other_ofSide]
  have n₁ : ∀ z, z ≠ x → h₁.nodes z = h.nodes z := fun z hz => Function.update_of_ne hz ..
  obtain ⟨h₂, e₂, hb₂, r₂, n₂⟩ := @reparent_spec h₁ _ x _
    (hb.frame fun z hz => n₁ z fun e => hxb (e ▸ hz)) hnb hzero.2.2.2.1 hye
  have y₂ : h₂.nodes y = some (.ofSide s b.ptr d.ptr (parentWord x c')) := by
    rw [n₂ y hyb, n₁ y (Ne.symm hxy), hy]
  -- r->left = x, and its parent
  let h₃ : RbHeap := { h₂ with
    nodes := Function.update h₂.nodes y (some (.ofSide s x d.ptr (parentWord x c'))) }
  have e₃ : h₂.setChild s y x = .ok h₃ := by rw [setChild_eq hy0 y₂, RbNode.setChild_ofSide]
  let h₄ : RbHeap := { h₃ with
    nodes := Function.update h₃.nodes y (some (.ofSide s x d.ptr (parentWord (Ctx.ptr ctx) c'))) }
  have e₄ : h₃.rbSetParent y (Ctx.ptr ctx) = .ok h₄ := by
    rw [rbSetParent_eq (c := c') hy0 (Function.update_self ..) RbNode.parent_ofSide hxe,
      RbNode.setParent_ofSide]
  have n₄ : ∀ z, z ≠ y → h₄.nodes z = h₂.nodes z := fun z hz =>
    (Function.update_of_ne hz ..).trans (Function.update_of_ne hz ..)
  have y₄ : h₄.nodes y = some (.ofSide s x d.ptr (parentWord (Ctx.ptr ctx) c')) :=
    Function.update_self ..
  obtain ⟨h₅, e₅, hc₅, n₅⟩ := @replaceChild_spec h₄ x y ctx
    (hole.frame r₂ fun z hz => by
      have hzx : z ≠ x := fun e => hxc (e ▸ hz)
      have hzy : z ≠ y := fun e => hyc (e ▸ hz)
      rw [n₄ z hzy, n₂ z fun hzb => hbc z hzb hz, n₁ z hzx]) hnc hzero.2.2.2.2.2 hx0 hxc
  have x₅ : h₅.nodes x = some (.ofSide s a.ptr b.ptr (parentWord (Ctx.ptr ctx) c)) := by
    rw [n₅ x hxc, n₄ x hxy, n₂ x hxb]
    exact Function.update_self ..
  have y₅ := (n₅ y hyc).trans y₄
  let h₆ : RbHeap := { h₅ with
    nodes := Function.update h₅.nodes x (some (.ofSide s a.ptr b.ptr (parentWord y c))) }
  have e₆ : h₅.rbSetParent x y = .ok h₆ := by
    rw [rbSetParent_eq (c := c) hx0 x₅ RbNode.parent_ofSide hPe, RbNode.setParent_ofSide]
  have n₆ : ∀ z, z ≠ x → h₆.nodes z = h₅.nodes z := fun z hz => Function.update_of_ne hz ..
  have hrun : RbHeap.rbRotate s h x = .ok h₆ := by
    rw [RbHeap.rbRotate, rbParent_eq (c := c) hx0 hx RbNode.parent_ofSide hPe, ok_bind,
      child_eq hx0 hx, RbNode.child_other_ofSide, ok_bind, child_eq hy0 hy, RbNode.child_ofSide,
      ok_bind, e₁, ok_bind, e₂, ok_bind, e₃, ok_bind, e₄, ok_bind, e₅, ok_bind, e₆]
  refine ⟨h₆, hrun, ?_, linked_mk.mpr ⟨?_, linked_mk.mpr ⟨?_, ?_, ?_⟩, ?_⟩, hperm'.nodup_iff.mpr ?_,
    fun z hz => haddr z (hperm'.mem_iff.mp hz), fun z hz => ?_⟩
  · rw [RbTree.ptr_mk]
    exact hc₅.frame rfl fun z hz => n₆ z fun e => hxc (e ▸ hz)
  · rw [n₆ y (Ne.symm hxy), y₅, RbTree.ptr_mk]
  · exact Function.update_self ..
  · refine ha.frame fun z hz => ?_
    have hzx : z ≠ x := fun e => hxa (e ▸ hz)
    have hzy : z ≠ y := fun e => hya (e ▸ hz)
    rw [n₆ z hzx, n₅ z (hac z hz), n₄ z hzy, n₂ z (hab z hz), n₁ z hzx]
  · refine hb₂.frame fun z hz => ?_
    have hzx : z ≠ x := fun e => hxb (e ▸ hz)
    have hzy : z ≠ y := fun e => hyb (e ▸ hz)
    rw [n₆ z hzx, n₅ z (hbc z hz), n₄ z hzy]
  · refine hd.frame fun z hz => ?_
    have hzx : z ≠ x := fun e => hxd (e ▸ hz)
    have hzy : z ≠ y := fun e => hyd' (e ▸ hz)
    rw [n₆ z hzx, n₅ z (hdc' z hz), n₄ z hzy, n₂ z fun hzb => hbd z hzb hz, n₁ z hzx]
  · exact hperm.nodup_iff.mp h'.nodup
  · have hout : ∀ w, w ∈ x :: y :: (a.toList ++ (b.toList ++ (d.toList ++ Ctx.ids ctx))) → z ≠ w :=
      fun w hw e => hz (e ▸ (haddr w hw).1)
    have hzx := hout x (by simp)
    rw [n₆ z hzx, n₅ z fun hm => hout z (by simp [hm]) rfl, n₄ z (hout y (by simp)),
      n₂ z fun hm => hout z (by simp [hm]) rfl, n₁ z hzx]
    exact h'.outside z hz

end At

end At

end AuOs
