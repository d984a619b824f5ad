import Mathlib
import AuOs.Rbtree.Height
import AuOs.Rbtree.Iterate

/-!
# The cost of the tree functions

The searches of `balloc.c` in memory, and how often the loops of the tree functions turn.

* `descendLoop`, `lowerBoundLoop` — the two `while` loops over the nodes in memory.
* `descendLoop_eq`, `lowerBoundLoop_eq` — they do what `descend` and `lowerBound` do to trees, with
  one turn for each level.
* `rb_logarithmic` — **every function returns** after at most `2 log₂ (n + 1) + 2` turns of each of
  its loops.
-/

set_option autoImplicit false

namespace AuOs

namespace RbHeap

/-- `*plink` -/
def readSlot (h : RbHeap) : RbSlot → Res RbPtr
  | .root => .ok h.root
  | .child s node => h.child s node

/-- `while (*plink) { parent = *plink; plink = ... ? &parent->right : &parent->left; }` -/
def descendLoop (p : RbPtr → Bool) : Nat → RbHeap → RbPtr → RbSlot → Res (RbPtr × RbSlot)
  | 0, _, _, _ => .error .hang
  | fuel + 1, h, parent, plink => do
    let link ← h.readSlot plink
    if link = 0 then return (parent, plink)
    else descendLoop p fuel h link (.child (if p link then .right else .left) link)

/-- `while (link) { if (...) { link = link->left; ptr = node; } else link = link->right; }` -/
def lowerBoundLoop (p : RbPtr → Bool) : Nat → RbHeap → RbPtr → RbPtr → Res RbPtr
  | 0, _, _, _ => .error .hang
  | fuel + 1, h, link, ptr =>
    if link = 0 then .ok ptr
    else if p link then do
      let l ← h.child .left link
      lowerBoundLoop p fuel h l link
    else do
      let r ← h.child .right link
      lowerBoundLoop p fuel h r ptr

/-- A new node in the slot that the search finds. -/
def insertBy (p : RbPtr → Bool) (fuel : Nat) (h : RbHeap) (node : RbPtr) : Res RbHeap := do
  let (parent, plink) ← h.descendLoop p fuel 0 .root
  let h ← h.rbLink node parent plink
  h.rbInsert fuel node

end RbHeap

/-! ## The searches -/

section Searches

variable {own : Set RbPtr} {rest : RbPtr → Option RbNode} {h : RbHeap} {p : RbPtr → Bool}

theorem readSlot_eq {ctx : Ctx RbPtr} {t : RbTree RbPtr} (h' : At own rest h ctx t) :
    h.readSlot (Ctx.slot ctx) = .ok t.ptr := by
  cases ctx with
  | nil => exact congrArg Except.ok h'.hole
  | cons f ctx => exact (At.up.mp h').child

/-- **The descent to a slot** turns once for each level. -/
theorem descendLoop_eq {t : RbTree RbPtr} : ∀ {ctx : Ctx RbPtr} {fuel : Nat}, At own rest h ctx t →
    t.height < fuel → h.descendLoop p fuel (Ctx.ptr ctx) (Ctx.slot ctx) =
      .ok (Ctx.ptr (descend p ctx t), Ctx.slot (descend p ctx t)) := by
  induction t with
  | leaf =>
    intro ctx fuel h' hf
    obtain ⟨fuel, rfl⟩ := Nat.exists_eq_succ_of_ne_zero (Nat.ne_of_gt hf)
    rw [RbHeap.descendLoop, readSlot_eq h', ok_bind]
    exact if_pos rfl
  | node c l x r ihl ihr =>
    intro ctx fuel h' hf
    obtain ⟨fuel, rfl⟩ := Nat.exists_eq_succ_of_ne_zero (Nat.ne_of_gt (Nat.zero_lt_of_lt hf))
    rw [RbTree.height] at hf
    obtain ⟨hx0, _⟩ := At.node_eq (s := .left) h'
    rw [RbHeap.descendLoop, readSlot_eq h', ok_bind, RbTree.ptr_node, if_neg hx0, descend]
    cases hp : p x with
    | true =>
      have hr := (At.up (f := ⟨.right, c, x, l⟩)).mpr h'
      exact ihr hr (by omega)
    | false =>
      have hl := (At.up (f := ⟨.left, c, x, r⟩)).mpr h'
      exact ihl hl (by omega)

/-- **The search for the first node** turns once for each level. -/
theorem lowerBoundLoop_eq {t : RbTree RbPtr} : ∀ {par : RbPtr} {ptr : Option RbPtr} {fuel : Nat},
    Linked h.nodes par t → 0 ∉ t.toList → t.height < fuel →
    h.lowerBoundLoop p fuel t.ptr (ptr.getD 0) = .ok ((lowerBound p ptr t).getD 0) := by
  induction t with
  | leaf =>
    intro par ptr fuel _ _ hf
    obtain ⟨fuel, rfl⟩ := Nat.exists_eq_succ_of_ne_zero (Nat.ne_of_gt hf)
    exact if_pos rfl
  | node c l x r ihl ihr =>
    intro par ptr fuel hlinked h0 hf
    obtain ⟨fuel, rfl⟩ := Nat.exists_eq_succ_of_ne_zero (Nat.ne_of_gt (Nat.zero_lt_of_lt hf))
    rw [RbTree.height] at hf
    rw [RbTree.toList, List.mem_append, List.mem_cons, not_or, not_or] at h0
    obtain ⟨h0l, h0x, h0r⟩ := h0
    obtain ⟨hx, hl, hr⟩ := hlinked
    have hx0 : x ≠ 0 := Ne.symm h0x
    rw [RbTree.ptr_node, RbHeap.lowerBoundLoop, if_neg hx0, lowerBound]
    cases hp : p x with
    | true =>
      rw [if_pos rfl, if_pos rfl, child_eq hx0 hx, ok_bind]
      exact @ihl _ (some x) _ hl h0l (by omega)
    | false =>
      rw [if_neg Bool.false_ne_true, if_neg Bool.false_ne_true, child_eq hx0 hx, ok_bind]
      exact ihr hr h0r (by omega)

/-- The slot of a descent is a place in the tree. -/
theorem descend_plug {α : Type} {p : α → Bool} {t : RbTree α} :
    ∀ {ctx : Ctx α}, Ctx.plug (descend p ctx t) .leaf = Ctx.plug ctx t := by
  induction t with
  | leaf =>
    intro ctx
    rfl
  | node c l x r ihl ihr =>
    intro ctx
    rw [descend]
    split
    · exact ihr
    · exact ihl

end Searches

/-! ## The functions -/

section Functions

variable {h : RbHeap} {t : RbTree RbPtr} {A B : List RbPtr} {x : RbPtr} {fuel : Nat}

theorem descendLoop_root {p : RbPtr → Bool} (hr : Represents h t) (hf : t.height < fuel) :
    h.descendLoop p fuel 0 .root = .ok (Ctx.ptr (descend p [] t), Ctx.slot (descend p [] t)) := by
  have hat := @Represents.at _ _ Set.univ hr fun z _ => Set.mem_univ z
  exact descendLoop_eq hat hf

/-- **`rb_link` and `rb_insert`** put a new node between the nodes that satisfy `p` and the
others. -/
theorem linkInsert_spec {p : RbPtr → Bool} {n : RbNode} (hr : Represents h t) (hvalid : t.Valid)
    (hlist : t.toList = A ++ B) (hA : ∀ a ∈ A, p a = true) (hB : ∀ b ∈ B, p b = false)
    (hn : h.nodes x = some n) (hx0 : x ≠ 0) (hxe : Even x) (hnew : x ∉ t.toList)
    (hf : t.height < fuel) :
    ∃ h₁ h₂ t', h.rbLink x (Ctx.ptr (descend p [] t)) (Ctx.slot (descend p [] t)) = .ok h₁ ∧
      h₁.rbInsert fuel x = .ok h₂ ∧ Represents h₂ t' ∧ t'.Valid ∧ t'.toList = A ++ x :: B ∧
      ∀ z, z ≠ x → z ∉ t.toList → h₂.nodes z = h.nodes z := by
  have hat := @Represents.at _ _ {z | z = x ∨ z ∈ t.toList} hr fun z hz => Or.inr hz
  have hplug : Ctx.plug (descend p [] t) .leaf = t := descend_plug
  have hids : x ∉ Ctx.ids (descend p [] t) := by
    intro hm
    apply hnew
    rw [← hplug]
    exact ids_plug.mem_iff.mpr (List.mem_append_right _ hm)
  have hslot := At.plug.mpr (hplug.symm ▸ hat)
  have hlen := height_plug_le (descend p [] t) .leaf
  rw [hplug] at hlen
  obtain ⟨h₁, hlink, h₁'⟩ := rbLink_at hslot hn ⟨Or.inl rfl, hx0, hxe⟩ hids
  obtain ⟨t', hins, hvalid', hlist'⟩ := rbInsert_descend hvalid hlist hA hB x
  obtain ⟨h₂, hrun, h₂'⟩ := rbInsert_refines h₁' nofun hins (Nat.lt_of_le_of_lt hlen hf)
  refine ⟨h₁, h₂, t', hlink, hrun, h₂'.represents, hvalid', hlist', ?_⟩
  intro z hzx hz
  refine h₂'.outside z ?_
  rintro (rfl | hm)
  · exact hzx rfl
  · exact hz (hplug ▸ hm)

/-- **A new node** goes into the slot that the search finds. -/
theorem insertBy_spec {p : RbPtr → Bool} {n : RbNode} (hr : Represents h t) (hvalid : t.Valid)
    (hlist : t.toList = A ++ B) (hA : ∀ a ∈ A, p a = true) (hB : ∀ b ∈ B, p b = false)
    (hn : h.nodes x = some n) (hx0 : x ≠ 0) (hxe : Even x) (hnew : x ∉ t.toList)
    (hf : t.height < fuel) :
    ∃ h₁ t', RbHeap.insertBy p fuel h x = .ok h₁ ∧ Represents h₁ t' ∧ t'.Valid ∧
    t'.toList = A ++ x :: B := by
  obtain ⟨h₁, h₂, t', hlink, hins, hr', hvalid', hlist', _⟩ :=
    linkInsert_spec hr hvalid hlist hA hB hn hx0 hxe hnew hf
  refine ⟨h₂, t', ?_, hr', hvalid', hlist'⟩
  rw [RbHeap.insertBy, descendLoop_root hr hf, ok_bind]
  simp only
  rw [hlink, ok_bind, hins]

/-- **A node leaves the tree.** -/
theorem rbErase_mem (hr : Represents h t) (hvalid : t.Valid) (hlist : t.toList = A ++ x :: B)
    (hf : t.height + 2 ≤ fuel) :
    ∃ h₁ t', h.rbErase fuel x = .ok h₁ ∧ Represents h₁ t' ∧ t'.Valid ∧ t'.toList = A ++ B ∧
      ∀ z, z ∉ t.toList → h₁.nodes z = h.nodes z := by
  have hat := @Represents.at _ _ {z | z ∈ t.toList} hr fun z hz => hz
  have hx : x ∈ t.toList := by
    rw [hlist]
    exact List.mem_append_right A List.mem_cons_self
  obtain ⟨t', herase, hvalid', hlist'⟩ := rbErase_split hvalid hr.nodup hlist
  obtain ⟨h₁, hrun, h₁'⟩ := rbErase_height hat hx herase hf
  exact ⟨h₁, t', hrun, h₁'.represents, hvalid', hlist', h₁'.outside⟩

/-- **The first node** that satisfies `p`. -/
theorem lowerBoundLoop_spec {p : RbPtr → Bool} (hr : Represents h t) (hlist : t.toList = A ++ B)
    (hA : ∀ a ∈ A, p a = false) (hB : ∀ b ∈ B, p b = true) (hf : t.height < fuel) :
    h.lowerBoundLoop p fuel h.root 0 = .ok (B.head?.getD 0) := by
  have h0 : 0 ∉ t.toList := fun hm => (hr.addr 0 hm).1 rfl
  have hloop := @lowerBoundLoop_eq h p t _ none _ hr.linked h0 hf
  rw [lowerBound_spec t none A B hlist hA hB, Option.or_none] at hloop
  rw [hr.root]
  exact hloop

/-- **The cost of the tree functions.**  In a valid tree of `n` nodes in memory, the searches,
`rb_insert` of a new node in the slot that was found, `rb_erase`, `rb_next`, `rb_prev`,
`rb_leftmost` and `rb_rightmost` return what they should although each of their loops may turn `2
log₂ (n + 1) + 2` times only, and the new trees are valid again. -/
theorem rb_logarithmic (hr : Represents h t) (hvalid : t.Valid)
    (hf : 2 * Nat.log 2 (t.toList.length + 1) + 2 ≤ fuel) :
    (∀ p A B, t.toList = A ++ B → (∀ a ∈ A, p a = true) → (∀ b ∈ B, p b = false) →
      h.lowerBoundLoop (fun x => !p x) fuel h.root 0 = .ok (B.head?.getD 0) ∧
      ∀ x n, h.nodes x = some n → x ≠ 0 → Even x → x ∉ t.toList →
        ∃ h₁ t', RbHeap.insertBy p fuel h x = .ok h₁ ∧ Represents h₁ t' ∧ t'.Valid ∧
          t'.toList = A ++ x :: B) ∧
    (∀ A x B, t.toList = A ++ x :: B →
      h.rbNext fuel x = .ok (B.head?.getD 0) ∧ h.rbPrev fuel x = .ok (A.getLast?.getD 0) ∧
      ∃ h₁ t', h.rbErase fuel x = .ok h₁ ∧ Represents h₁ t' ∧ t'.Valid ∧ t'.toList = A ++ B) ∧
    h.rbTreeLeftmost fuel = .ok (t.toList.head?.getD 0) ∧
    h.rbTreeRightmost fuel = .ok (t.toList.getLast?.getD 0) := by
  have hheight : t.height + 2 ≤ fuel := (Nat.add_le_add_right hvalid.height_le 2).trans hf
  refine ⟨?_, ?_, ?_, ?_⟩
  · intro p A B hlist hA hB
    refine ⟨lowerBoundLoop_spec hr hlist ?_ ?_ (by omega), ?_⟩
    · intro a ha
      rw [hA a ha, Bool.not_true]
    · intro b hb
      rw [hB b hb, Bool.not_false]
    · intro x n hn hx0 hxe hnew
      exact insertBy_spec hr hvalid hlist hA hB hn hx0 hxe hnew (by omega)
  · intro A x B hlist
    obtain ⟨h₁, t', hrun, hr', hvalid', hlist', _⟩ := rbErase_mem hr hvalid hlist hheight
    exact ⟨rbNext_height hr hlist (by omega), rbPrev_height hr hlist (by omega), h₁, t', hrun, hr',
      hvalid', hlist'⟩
  · exact rbTreeLeftmost_height hr (by omega)
  · exact rbTreeRightmost_height hr (by omega)

theorem rb_logarithmic_threeNodes : ∃ h₁ t', threeNodes.rbErase 6 16 = .ok h₁ ∧
    Represents h₁ t' ∧ t'.Valid ∧ t'.toList = [8, 24] ∧ threeNodes.rbTreeRightmost 6 = .ok 24 := by
  have hvalid : (RbTree.node .black (.node .red .leaf (8 : RbPtr) .leaf) 16
      (.node .red .leaf 24 .leaf)).Valid := ⟨1, .black (.red .leaf .leaf) (.red .leaf .leaf)⟩
  obtain ⟨_, hnode, _, hright⟩ := @rb_logarithmic _ _ 6 threeNodes_represents hvalid (by decide)
  obtain ⟨_, _, h₁, t', hrun, hr, hvalid', hlist⟩ := hnode [8] 16 [24] rfl
  exact ⟨h₁, t', hrun, hr, hvalid', hlist, hright⟩

end Functions

end AuOs
