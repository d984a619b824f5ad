import Mathlib
import AuOs.Rbtree.HeapSplice

/-!
# Walks through a tree in memory

The walks `for (p = rb_leftmost(tree); p; p = rb_next(p))`, and the same from the right, by which
the bootstrap allocator and the zone setup scan their trees.

* `rbTreeLeftmost`, `rbTreeRightmost`, `rbWalk` — `rb_leftmost`, `rb_rightmost` and the walk.
* `outermostLoop_spec` — the descent ends at the end of the in-order list.
* `climbLoop_spec` — the climb ends at the nearest ancestor on the other side.
* `rbNext_eq`, `rbPrev_eq` — both are a step in the in-order list.
* `rb_walks` — the walks visit the nodes in order, each of them once.
-/

set_option autoImplicit false

namespace AuOs

namespace RbHeap

/-- `rb_leftmost`. -/
def rbTreeLeftmost (fuel : Nat) (h : RbHeap) : Res RbPtr := h.rbLeftmost fuel h.root

/-- `rb_rightmost`. -/
def rbTreeRightmost (fuel : Nat) (h : RbHeap) : Res RbPtr := h.rbRightmost fuel h.root

/-- The nodes that a walk visits: `while (p) p = next(p);` -/
def rbWalk (next : RbPtr → Res RbPtr) : Nat → RbPtr → Res (List RbPtr)
  | 0, _ => .error .hang
  | fuel + 1, p =>
    if p = 0 then .ok []
    else do
      let q ← next p
      let rest ← rbWalk next fuel q
      return p :: rest

/-- `rb_next` for `Side.left`, `rb_prev` for `Side.right`: the side is that of the descent. -/
def rbStep (s : Side) (fuel : Nat) (h : RbHeap) (node : RbPtr) : Res RbPtr :=
  if node = 0 then .ok 0
  else do
    let r ← h.child s.other node
    if r ≠ 0 then if r = 0 then .ok 0 else outermostLoop s fuel h r
    else do
      let p ← h.rbParent node
      climbLoop s.other fuel h node p

theorem rbNext_step (fuel : Nat) (h : RbHeap) : h.rbNext fuel = rbStep .left fuel h := rfl

theorem rbPrev_step (fuel : Nat) (h : RbHeap) : h.rbPrev fuel = rbStep .right fuel h := rfl

end RbHeap

/-! ## The descent -/

theorem Side.other_other (s : Side) : s.other.other = s := by cases s <;> rfl

/-- The end of a list on a side. -/
def Side.last {α : Type} : Side → List α → Option α
  | .left, A => A.head?
  | .right, A => A.getLast?

section Descent

variable {h : RbHeap} {s : Side} {c : Color} {x par : RbPtr} {t a b : RbTree RbPtr}

theorem last_toList_mk : s.last (RbTree.mk s c a x b).toList = some ((s.last a.toList).getD x) := by
  rw [toList_mk]
  cases s with
  | left =>
    cases ha : a.toList with
    | nil => rfl
    | cons y A => rfl
  | right =>
    cases ha : a.toList using List.reverseRecOn with
    | nil => simp [Side.last]
    | append_singleton A y =>
      have hcons : b.toList ++ x :: (A ++ [y]) = (b.toList ++ x :: A) ++ [y] := by simp
      simp only [Side.last, hcons, List.getLast?_append, List.getLast?_singleton]
      rfl

theorem ptr_eq_zero (h0 : 0 ∉ t.toList) : t.ptr = 0 ↔ t = .leaf := by
  cases t with
  | leaf => exact iff_of_true rfl rfl
  | node c l x r =>
    refine iff_of_false (fun he => h0 ?_) (by simp)
    rw [← he]
    simp [RbTree.toList]

/-- **`__rb_leftmost`, `__rb_rightmost`**: the loop ends at the end of the in-order list. -/
theorem outermostLoop_spec : ∀ {fuel : Nat} {t : RbTree RbPtr} {par : RbPtr}, Linked h.nodes par t →
    0 ∉ t.toList → t ≠ .leaf → t.height ≤ fuel →
    RbHeap.outermostLoop s fuel h t.ptr = .ok ((s.last t.toList).getD 0) := by
  intro fuel
  induction fuel with
  | zero =>
    intro t par _ _ hne hlen
    obtain ⟨c, a, x, b, rfl⟩ := RbTree.exists_mk s hne
    rw [height_mk] at hlen
    omega
  | succ fuel ih =>
    intro t par hl h0 hne hlen
    obtain ⟨c, a, x, b, rfl⟩ := RbTree.exists_mk s hne
    obtain ⟨hx, ha, _⟩ := linked_mk.mp hl
    rw [height_mk] at hlen
    rw [toList_mk_perm.mem_iff, List.mem_cons, List.mem_append, not_or, not_or] at h0
    have hchild := child_eq (s := s) (Ne.symm h0.1) hx
    rw [RbNode.child_ofSide] at hchild
    rw [RbTree.ptr_mk, RbHeap.outermostLoop, hchild, ok_bind, last_toList_mk]
    by_cases hleaf : a = .leaf
    · subst hleaf
      rw [RbTree.ptr, if_pos rfl]
      cases s <;> rfl
    · have hptr : a.ptr ≠ 0 := fun he => hleaf ((ptr_eq_zero h0.2.1).mp he)
      rw [if_neg hptr, ih ha h0.2.1 hleaf (by omega)]
      obtain ⟨c', a', y, b', rfl⟩ := RbTree.exists_mk s hleaf
      rw [last_toList_mk]
      rfl

/-- The descent from the root of a tree that may be empty. -/
theorem outermost_eq {fuel : Nat} (hl : Linked h.nodes par t) (h0 : 0 ∉ t.toList)
    (hf : t.height ≤ fuel) : (if t.ptr = 0 then .ok 0 else RbHeap.outermostLoop s fuel h t.ptr) =
      .ok ((s.last t.toList).getD 0) := by
  by_cases hleaf : t = .leaf
  · subst hleaf
    cases s <;> rfl
  · rw [if_neg fun he => hleaf ((ptr_eq_zero h0).mp he), outermostLoop_spec hl h0 hleaf hf]

end Descent

/-! ## The climb -/

section Climb

variable {own : Set RbPtr} {rest : RbPtr → Option RbNode} {h : RbHeap} {s : Side} {c : Color}

/-- **The climb** ends at the nearest ancestor whose other child is on the path. -/
theorem climbLoop_spec : ∀ {ctx : Ctx RbPtr} {t : RbTree RbPtr} {fuel : Nat}, At own rest h ctx t →
    t ≠ .leaf → ctx.length < fuel →
    RbHeap.climbLoop s fuel h t.ptr (Ctx.ptr ctx) = .ok ((climb s.other ctx).getD 0) := by
  intro ctx
  induction ctx with
  | nil =>
    intro t fuel _ _ hf
    obtain ⟨fuel, rfl⟩ := Nat.exists_eq_succ_of_ne_zero (Nat.ne_of_gt hf)
    exact if_pos rfl
  | cons f ctx ih =>
    intro t fuel hat hne hf
    obtain ⟨fuel, rfl⟩ := Nat.exists_eq_succ_of_ne_zero (Nat.ne_of_gt (Nat.zero_lt_of_lt hf))
    obtain ⟨s', c, p, u⟩ := f
    have hup := At.up.mp hat
    rw [fill_mk] at hup
    obtain ⟨hp0, _, _⟩ := hup.node_eq
    rw [Ctx.ptr, RbHeap.climbLoop, if_neg hp0]
    rcases Side.eq_or_other s s' with rfl | rfl
    · -- the hole is the child in the test: the climb goes on
      have hmk : RbTree.mk s' c t p u ≠ .leaf := by cases s' <;> simp [RbTree.mk]
      have ih := ih hup hmk (Nat.lt_of_succ_lt_succ hf)
      rw [RbTree.ptr_mk] at ih
      rw [hup.child, ok_bind, if_pos rfl, hup.rbParent, ok_bind, ih, climb]
      rw [if_neg (Ne.symm (Side.other_ne s'))]
    · have hchild := hup.child_other
      rw [Side.other_other] at hchild
      rw [hchild, ok_bind, if_neg (Ne.symm (hup.ptr_ne (Or.inl hne))), climb, if_pos rfl]
      rfl

end Climb

/-! ## The neighbours -/

section Neighbours

variable {h : RbHeap} {t : RbTree RbPtr} {A B : List RbPtr} {x : RbPtr} {fuel : Nat}

/-- The place of a node of a tree in memory. -/
theorem Represents.locate (hr : Represents h t) (hx : t.toList = A ++ x :: B) :
    ∃ ctx c l r, At Set.univ h.nodes h ctx (.node c l x r) ∧ Ctx.plug ctx (.node c l x r) = t ∧
      A = Ctx.before ctx ++ l.toList ∧ B = r.toList ++ Ctx.after ctx := by
  have hmem : x ∈ t.toList := by
    rw [hx]
    exact List.mem_append_right A List.mem_cons_self
  obtain ⟨ctx, c, l, r, _, hplug, _⟩ := locate_spec t [] x hmem
  replace hplug : Ctx.plug ctx (.node c l x r) = t := hplug
  have hat : At Set.univ h.nodes h [] t := hr.at fun y _ => Set.mem_univ y
  have hlist : t.toList = (Ctx.before ctx ++ l.toList) ++ x :: (r.toList ++ Ctx.after ctx) := by
    rw [← hplug, toList_plug, RbTree.toList]
    simp
  have hn := hr.nodup
  rw [hx] at hlist hn
  obtain ⟨hA, hB⟩ := split_unique hlist hn
  rw [← hplug] at hat
  exact ⟨ctx, c, l, r, At.plug.mpr hat, hplug, hA, hB⟩

/-- A step from a node whose child on the other side is `b`. -/
theorem rbStep_eq {own : Set RbPtr} {rest : RbPtr → Option RbNode} {s : Side} {c : Color}
    {ctx : Ctx RbPtr} {a b : RbTree RbPtr} (hat : At own rest h ctx (.mk s c a x b))
    (hf : (Ctx.plug ctx (.mk s c a x b)).height < fuel) :
    RbHeap.rbStep s fuel h x = .ok (((s.last b.toList).or (climb s ctx)).getD 0) := by
  have hmk : RbTree.mk s c a x b ≠ .leaf := by cases s <;> simp [RbTree.mk]
  have hle := height_plug_le ctx (.mk s c a x b)
  rw [height_mk] at hle
  obtain ⟨hx0, _, _⟩ := hat.node_eq
  have hz : 0 ∉ b.toList := by
    intro hm
    have hmem := toList_mk_perm (s := s) (c := c) (x := x) (a := a) (b := b)
    have hsub : 0 ∈ a.toList ++ b.toList := List.mem_append_right _ hm
    exact hat.zero_notMem (List.mem_append_left _ (hmem.mem_iff.mpr (List.mem_cons_of_mem x hsub)))
  rw [RbHeap.rbStep, if_neg hx0, hat.child_other, ok_bind]
  by_cases hleaf : b = .leaf
  · subst hleaf
    have hclimb := climbLoop_spec (s := s.other) hat hmk (show _ < fuel by omega)
    rw [RbTree.ptr_mk, Side.other_other] at hclimb
    rw [if_neg (by simp [RbTree.ptr]), hat.rbParent, ok_bind, hclimb]
    cases s <;> rfl
  · have hb0 : b.ptr ≠ 0 := fun he => hleaf ((ptr_eq_zero hz).mp he)
    have hb := (linked_mk.mp hat.tree).2.2
    rw [if_pos hb0, outermost_eq hb hz (by omega)]
    obtain ⟨c', a', y, b', rfl⟩ := RbTree.exists_mk s hleaf
    rw [last_toList_mk]
    rfl

/-- **`rb_next`** is the next node of the list, null after the last; its loops turn as often as the
tree is high. -/
theorem rbNext_height (hr : Represents h t) (hx : t.toList = A ++ x :: B) (hf : t.height < fuel) :
    h.rbNext fuel x = .ok (B.head?.getD 0) := by
  obtain ⟨ctx, c, l, r, hat, hplug, -, rfl⟩ := hr.locate hx
  rw [← hplug] at hf
  have hstep := rbStep_eq (s := .left) (a := l) (b := r) hat hf
  rw [RbHeap.rbNext_step, hstep, climb_left, Side.last, List.head?_append]

/-- **`rb_prev`** is the previous node of the list, null before the first. -/
theorem rbPrev_height (hr : Represents h t) (hx : t.toList = A ++ x :: B) (hf : t.height < fuel) :
    h.rbPrev fuel x = .ok (A.getLast?.getD 0) := by
  obtain ⟨ctx, c, l, r, hat, hplug, rfl, -⟩ := hr.locate hx
  rw [← hplug] at hf
  have hstep := rbStep_eq (s := .right) (a := r) (b := l) hat hf
  rw [RbHeap.rbPrev_step, hstep, climb_right, Side.last, List.getLast?_append]

theorem rbNext_eq (hr : Represents h t) (hx : t.toList = A ++ x :: B)
    (hf : t.toList.length < fuel) : h.rbNext fuel x = .ok (B.head?.getD 0) :=
  rbNext_height hr hx ((height_le_length t).trans_lt hf)

theorem rbPrev_eq (hr : Represents h t) (hx : t.toList = A ++ x :: B)
    (hf : t.toList.length < fuel) : h.rbPrev fuel x = .ok (A.getLast?.getD 0) :=
  rbPrev_height hr hx ((height_le_length t).trans_lt hf)

theorem rbTreeLeftmost_height (hr : Represents h t) (hf : t.height ≤ fuel) :
    h.rbTreeLeftmost fuel = .ok (t.toList.head?.getD 0) := by
  have hz : 0 ∉ t.toList := fun hm => (hr.addr 0 hm).1 rfl
  rw [RbHeap.rbTreeLeftmost, RbHeap.rbLeftmost, hr.root, outermost_eq hr.linked hz hf, Side.last]

theorem rbTreeRightmost_height (hr : Represents h t) (hf : t.height ≤ fuel) :
    h.rbTreeRightmost fuel = .ok (t.toList.getLast?.getD 0) := by
  have hz : 0 ∉ t.toList := fun hm => (hr.addr 0 hm).1 rfl
  rw [RbHeap.rbTreeRightmost, RbHeap.rbRightmost, hr.root, outermost_eq hr.linked hz hf, Side.last]

theorem rbTreeLeftmost_eq (hr : Represents h t) (hf : t.toList.length ≤ fuel) :
    h.rbTreeLeftmost fuel = .ok (t.toList.head?.getD 0) :=
  rbTreeLeftmost_height hr ((height_le_length t).trans hf)

theorem rbTreeRightmost_eq (hr : Represents h t) (hf : t.toList.length ≤ fuel) :
    h.rbTreeRightmost fuel = .ok (t.toList.getLast?.getD 0) :=
  rbTreeRightmost_height hr ((height_le_length t).trans hf)

end Neighbours

/-! ## The walks -/

section Walks

variable {h : RbHeap} {t : RbTree RbPtr} {fuel : Nat}

/-- A walk by a function that steps through a list visits the list. -/
theorem rbWalk_spec {next : RbPtr → Res RbPtr} {L : List RbPtr} (h0 : 0 ∉ L)
    (hnext : ∀ A x B, L = A ++ x :: B → next x = .ok (B.head?.getD 0)) :
    ∀ {B A : List RbPtr} {fuel : Nat}, L = A ++ B → B.length < fuel →
      RbHeap.rbWalk next fuel (B.head?.getD 0) = .ok B := by
  intro B
  induction B with
  | nil =>
    intro A fuel _ hf
    obtain ⟨fuel, rfl⟩ := Nat.exists_eq_succ_of_ne_zero (Nat.ne_of_gt hf)
    exact if_pos rfl
  | cons x B ih =>
    intro A fuel hL hf
    obtain ⟨fuel, rfl⟩ := Nat.exists_eq_succ_of_ne_zero (Nat.ne_of_gt (Nat.zero_lt_of_lt hf))
    have hx0 : x ≠ 0 := by
      intro he
      apply h0
      rw [hL, he]
      exact List.mem_append_right A List.mem_cons_self
    have hrest := @ih (A ++ [x]) fuel (by simp [hL]) (Nat.lt_of_succ_lt_succ hf)
    rw [List.head?_cons, Option.getD_some, RbHeap.rbWalk, if_neg hx0, hnext A x B hL,
      ok_bind, hrest]
    rfl

/-- `rb_next` and `rb_prev` undo each other. -/
theorem rbNext_iff_rbPrev (hr : Represents h t) (hf : t.toList.length < fuel) {x y : RbPtr}
    (hx : x ∈ t.toList) (hy : y ∈ t.toList) : h.rbNext fuel x = .ok y ↔
    h.rbPrev fuel y = .ok x := by
  constructor
  · intro hnext
    obtain ⟨A, B, hxB⟩ := List.append_of_mem hx
    rw [rbNext_eq hr hxB hf] at hnext
    cases B with
    | nil => exact absurd (Except.ok.inj hnext).symm (hr.addr y hy).1
    | cons z B =>
      obtain rfl : z = y := Except.ok.inj hnext
      rw [rbPrev_eq hr (A := A ++ [x]) (B := B) (by simp [hxB]) hf]
      simp
  · intro hprev
    obtain ⟨A, B, hyB⟩ := List.append_of_mem hy
    rw [rbPrev_eq hr hyB hf] at hprev
    cases A using List.reverseRecOn with
    | nil => exact absurd (Except.ok.inj hprev).symm (hr.addr x hx).1
    | append_singleton A z =>
      simp only [List.getLast?_append, List.getLast?_singleton, Option.some_or,
        Option.getD_some] at hprev
      obtain rfl : z = x := Except.ok.inj hprev
      rw [rbNext_eq hr (A := A) (B := y :: B) (by simp [hyB]) hf]
      rfl

/-- **The walks.**  In a tree of any shape whose parent pointers fit, `rb_next` and `rb_prev` are
the neighbours in the in-order list, each undoes the other, and the walks visit the list from either
end. -/
theorem rb_walks (hr : Represents h t) (hf : t.toList.length < fuel) :
    (∀ A x B, t.toList = A ++ x :: B →
      h.rbNext fuel x = .ok (B.head?.getD 0) ∧ h.rbPrev fuel x = .ok (A.getLast?.getD 0)) ∧
    h.rbNext fuel 0 = .ok 0 ∧ h.rbPrev fuel 0 = .ok 0 ∧
    (∀ x ∈ t.toList, ∀ y ∈ t.toList, h.rbNext fuel x = .ok y ↔ h.rbPrev fuel y = .ok x) ∧
    t.toList.Nodup ∧ (∀ x ∈ t.toList, x ≠ 0) ∧
    (h.rbTreeLeftmost fuel >>= RbHeap.rbWalk (h.rbNext fuel) fuel) = .ok t.toList ∧
    (h.rbTreeRightmost fuel >>= RbHeap.rbWalk (h.rbPrev fuel) fuel) = .ok t.toList.reverse := by
  have h0 : 0 ∉ t.toList := fun hm => (hr.addr 0 hm).1 rfl
  have hnext : ∀ A x B, t.toList = A ++ x :: B → h.rbNext fuel x = .ok (B.head?.getD 0) := by
    intro A x B hx
    exact rbNext_eq hr hx hf
  have hprev : ∀ A x B, t.toList.reverse = A ++ x :: B →
      h.rbPrev fuel x = .ok (B.head?.getD 0) := by
    intro A x B hx
    have hlist : t.toList = B.reverse ++ x :: A.reverse := by
      rw [← List.reverse_reverse t.toList, hx]
      simp
    rw [rbPrev_eq hr hlist hf, List.getLast?_reverse]
  refine ⟨fun A x B hx => ⟨rbNext_eq hr hx hf, rbPrev_eq hr hx hf⟩, rfl, rfl,
    fun x hx y hy => rbNext_iff_rbPrev hr hf hx hy, hr.nodup, fun x hx => (hr.addr x hx).1, ?_, ?_⟩
  · rw [rbTreeLeftmost_eq hr (Nat.le_of_lt hf), ok_bind]
    exact rbWalk_spec h0 hnext (A := []) rfl hf
  · have hwalk := rbWalk_spec (fun hm => h0 (List.mem_reverse.mp hm)) hprev (A := [])
      (B := t.toList.reverse) rfl (show _ < fuel by rw [List.length_reverse]; exact hf)
    rw [rbTreeRightmost_eq hr (Nat.le_of_lt hf), ok_bind]
    rwa [List.head?_reverse] at hwalk

theorem rb_walks_threeNodes :
    (threeNodes.rbTreeLeftmost 4 >>= RbHeap.rbWalk (threeNodes.rbNext 4) 4) = .ok [8, 16, 24] ∧
    (threeNodes.rbTreeRightmost 4 >>= RbHeap.rbWalk (threeNodes.rbPrev 4) 4) = .ok [24, 16, 8] := by
  obtain ⟨_, _, _, _, _, _, hup, hdown⟩ := rb_walks threeNodes_represents (show _ < 4 by decide)
  exact ⟨hup, hdown⟩

end Walks

end AuOs
