import Mathlib
import AuOs.Lib.CallSystem
import AuOs.Balloc.Ranges

/-!
# The bootstrap allocator's representation invariant

* `RangesOk` — a list of ranges is sorted, disjoint and has no touching neighbours.
* `Owned s held` — the trees are valid, and every node of the pool is in exactly one place: the free
  list, one of the trees, or the hands of the running function (`held`).
* `BallocInv` — both, for the two trees.
* `addRange_spec` — where `__balloc_add_range` puts the new node and which neighbours it absorbs.
* `addRange_inv`, `cutNode_inv` — they keep the invariant or stop for want of nodes.
-/

set_option autoImplicit false

namespace AuOs

/-- The only way these functions stop. -/
def NoNode (e : Stop) : Prop := e = .bug .ballocNoNode

/-- They stop with every node in use. -/
def Exhausted (s : Balloc) (e : Stop) : Prop := NoNode e ∧ s.freeList = []

/-- Sorted, disjoint and not touching. -/
structure RangesOk (l : List MemoryNode) : Prop where
  le : ∀ r ∈ l, r.begin_ ≤ r.end_
  apart : l.Pairwise fun r r' => r.end_ < r'.begin_

def Which.other : Which → Which
  | .memoryMap => .freeRanges
  | .freeRanges => .memoryMap

/-- Every node of the pool is in exactly one place. -/
structure Owned (s : Balloc) (held : List Nat) : Prop where
  valid : ∀ w, (s.tree w).Valid
  nodes : (held ++ (s.freeList ++ (s.ids .memoryMap ++ s.ids .freeRanges))).Perm
    (List.range BALLOC_MAX_RANGES)

/-- The representation invariant. -/
structure BallocInv (s : Balloc) (held : List Nat) : Prop where
  owned : Owned s held
  ordered : ∀ w, RangesOk (s.ranges w)

/-! ## Ownership -/

namespace Owned

variable {s : Balloc} {held : List Nat} {w : Which} {A B : List Nat} {p : Nat}

theorem perm (h : Owned s held) (w : Which) :
    (held ++ (s.freeList ++ (s.ids w ++ s.ids w.other))).Perm (List.range BALLOC_MAX_RANGES) := by
  cases w with
  | memoryMap => exact h.nodes
  | freeRanges =>
    exact ((List.perm_append_comm.append_left _).append_left _).trans h.nodes

theorem nodup (h : Owned s held) (w : Which) :
    (held ++ (s.freeList ++ (s.ids w ++ s.ids w.other))).Nodup :=
  (h.perm w).nodup_iff.mpr List.nodup_range

theorem ids_nodup (h : Owned s held) (w : Which) : (s.ids w).Nodup :=
  (List.nodup_append.mp (List.nodup_append.mp (List.nodup_append.mp (h.nodup w)).2.1).2.1).1

/-- The invariant from the two trees in either order. -/
theorem of_perm (w : Which) (hv : ∀ w, (s.tree w).Valid)
    (hp : (held ++ (s.freeList ++ (s.ids w ++ s.ids w.other))).Perm
      (List.range BALLOC_MAX_RANGES)) : Owned s held := by
  cases w with
  | memoryMap => exact ⟨hv, hp⟩
  | freeRanges =>
    exact ⟨hv, ((List.perm_append_comm.append_left _).append_left _).trans hp⟩

end Owned

theorem Which.other_ne (w : Which) : w.other ≠ w := by cases w <;> decide

theorem Which.eq_or_other (w v : Which) : v = w ∨ v = w.other := by
  cases w <;> cases v <;> decide

section Tree

variable {s : Balloc} {w : Which} {t : RbTree Nat}

@[simp] theorem ids_setTree : (s.setTree w t).ids w = t.toList := by
  simp [Balloc.setTree, Balloc.ids]

@[simp] theorem ids_setTree_other : (s.setTree w t).ids w.other = s.ids w.other := by
  simp [Balloc.setTree, Balloc.ids, w.other_ne]

@[simp] theorem tree_setTree_other : (s.setTree w t).tree w.other = s.tree w.other := by
  simp [Balloc.setTree, w.other_ne]

theorem valid_setTree (h : ∀ w, (s.tree w).Valid) (ht : t.Valid) (v : Which) :
    ((s.setTree w t).tree v).Valid := by
  rcases w.eq_or_other v with rfl | rfl
  · simpa [Balloc.setTree] using ht
  · simpa [Balloc.setTree, w.other_ne] using h w.other

end Tree

/-- Unlinking a node of a tree: it is in the function's hands now. -/
theorem unlinkNode_spec {s : Balloc} {held A B : List Nat} {w : Which} {p : Nat} (h : Owned s held)
    (hids : s.ids w = A ++ p :: B) :
    ∃ s', unlinkNode s w p = .ok s' ∧ Owned s' (p :: held) ∧ s'.ids w = A ++ B ∧
      s'.tree w.other = s.tree w.other ∧ s'.nodes = s.nodes := by
  obtain ⟨t, herase, hvalid, hlist⟩ := rbErase_split (h.valid w) (h.ids_nodup w) hids
  refine ⟨s.setTree w t, by rw [unlinkNode, herase]; rfl, ?_, by rw [ids_setTree, hlist],
    tree_setTree_other, rfl⟩
  refine Owned.of_perm w (valid_setTree h.valid hvalid) ?_
  rw [ids_setTree, ids_setTree_other, hlist]
  refine List.Perm.trans ?_ (h.perm w)
  rw [hids, List.cons_append]
  refine (@List.perm_middle _ _ _ (s.freeList ++ (A ++ B ++ s.ids w.other))).symm.trans ?_
  refine List.Perm.append_left _ ?_
  refine (@List.perm_middle _ _ _ (A ++ B ++ s.ids w.other)).symm.trans ?_
  refine List.Perm.append_left _ ?_
  rw [List.append_assoc, List.append_assoc, List.cons_append]
  exact List.perm_middle.symm

/-- A node in hand may be freed. -/
theorem ballocFreeNode_spec {s : Balloc} {held : List Nat} {p : Nat} (h : Owned s (p :: held)) :
    ∃ s', ballocFreeNode s p = .ok s' ∧ Owned s' held ∧ s'.tree = s.tree ∧ s'.nodes = s.nodes := by
  have hn := h.nodup .memoryMap
  rw [List.cons_append, List.nodup_cons] at hn
  simp only [List.mem_append, not_or] at hn
  refine ⟨_, if_neg ?_, ⟨h.valid, ?_⟩, rfl, rfl⟩
  · simp only [not_or]
    exact ⟨hn.1.2.1, hn.1.2.2.1, hn.1.2.2.2⟩
  · refine List.Perm.trans ?_ h.nodes
    rw [List.cons_append]
    exact List.perm_middle

/-- `rb_erase` followed by `balloc_free_node`. -/
theorem unlinkNode_free_spec {s : Balloc} {held A B : List Nat} {w : Which} {p : Nat}
    (h : Owned s held) (hids : s.ids w = A ++ p :: B) :
    ∃ s', (unlinkNode s w p >>= fun s => ballocFreeNode s p) = .ok s' ∧ Owned s' held ∧
      s'.ids w = A ++ B ∧ s'.tree w.other = s.tree w.other ∧ s'.nodes = s.nodes := by
  obtain ⟨s₁, h₁, howned, hids₁, htree₁, hnodes₁⟩ := unlinkNode_spec h hids
  obtain ⟨s₂, h₂, howned₂, htree₂, hnodes₂⟩ := ballocFreeNode_spec howned
  refine ⟨s₂, by rw [h₁, ok_bind, h₂], howned₂, ?_, by rw [htree₂, htree₁], hnodes₂.trans hnodes₁⟩
  rw [Balloc.ids, htree₂]
  exact hids₁

/-! ## `__balloc_add_range` -/

/-- The new node in its slot. -/
theorem linkRange_spec {s : Balloc} {held A B : List Nat} {w : Which} {from_ to_ : Nat}
    (h : Owned s held) (hids : s.ids w = A ++ B) (hA : ∀ a ∈ A, (s.nodes a).begin_ < from_)
    (hB : ∀ b ∈ B, from_ ≤ (s.nodes b).begin_) :
    Post (linkRange s w from_ to_) (Exhausted s) fun p => Owned p.1 held ∧ p.2 ∈ s.freeList ∧
      p.1.ids w = A ++ p.2 :: B ∧ p.1.tree w.other = s.tree w.other ∧
      p.1.nodes = Function.update s.nodes p.2 ⟨from_, to_⟩ := by
  unfold linkRange ballocAllocNode
  cases hfree : s.freeList with
  | nil => exact Post.error ⟨rfl, hfree⟩
  | cons new rest =>
    obtain ⟨t, hins, hvalid, hlist⟩ := rbInsert_descend
      (p := fun node => decide ((s.nodes node).begin_ < from_)) (h.valid w) hids
      (fun a ha => decide_eq_true (hA a ha))
      (fun b hb => decide_eq_false (not_lt.mpr (hB b hb))) new
    refine Post.of_ok ⟨_, by simp only [ok_bind]; rw [hins]; rfl, ?_, List.mem_cons_self, ?_, ?_,
      rfl⟩
    · refine Owned.of_perm w (valid_setTree h.valid hvalid) ?_
      rw [ids_setTree, ids_setTree_other, hlist]
      refine List.Perm.trans ?_ (h.perm w)
      refine List.Perm.append_left _ ?_
      rw [hfree, hids]
      refine (List.Perm.append_left rest ?_).trans List.perm_middle
      rw [List.append_assoc, List.append_assoc, List.cons_append]
      exact List.perm_middle
    · rw [ids_setTree, hlist]
    · exact tree_setTree_other

section Absorb

variable {β : Type}

/-- The new range `r` after the test of its predecessor: `A` lies before it, `A'` is what
remains. -/
def AbsorbedPrev (key : β → MemoryNode) (A : List β) (r : MemoryNode) (A' : List β)
    (r' : MemoryNode) : Prop :=
  (A' = A ∧ r' = r ∧ ∀ p ∈ A.getLast?, (key p).end_ < r.begin_) ∨
  ∃ p, A = A' ++ [p] ∧ r.begin_ ≤ (key p).end_ ∧ r' = ⟨(key p).begin_, max (key p).end_ r.end_⟩

/-- The new range `r` after the test of its successor: `B` lies after it, `B'` is what remains. -/
def AbsorbedNext (key : β → MemoryNode) (r : MemoryNode) (B : List β) (r' : MemoryNode)
    (B' : List β) : Prop :=
  (B' = B ∧ r' = r ∧ ∀ q ∈ B.head?, r.end_ < (key q).begin_) ∨
  ∃ q, B = q :: B' ∧ (key q).begin_ ≤ r.end_ ∧ r' = ⟨r.begin_, (key q).end_⟩

/-- **A range put into its slot keeps the order**, after both tests. -/
theorem RangesOk.absorb {key : β → MemoryNode} {A A' B B' : List β} {r r₁ r' : MemoryNode}
    (h : RangesOk ((A ++ B).map key)) (hr : r.begin_ ≤ r.end_)
    (hA : ∀ a ∈ A, (key a).begin_ < r.begin_) (hB : ∀ b ∈ B, r.begin_ ≤ (key b).begin_)
    (hprev : AbsorbedPrev key A r A' r₁) (hnext : AbsorbedNext key r₁ B r' B') :
    RangesOk (A'.map key ++ r' :: B'.map key) := by
  have hle : ∀ a ∈ A ++ B, (key a).begin_ ≤ (key a).end_ := fun a ha =>
    h.le _ (List.mem_map_of_mem ha)
  obtain ⟨hAA, hBB, hAB⟩ := List.pairwise_append.mp (List.pairwise_map.mp h.apart)
  -- first the range after the test of the predecessor
  have h₁ : (∀ a ∈ A', (key a).end_ < r₁.begin_) ∧
      A'.Pairwise (fun a b => (key a).end_ < (key b).begin_)
      ∧ (∀ a ∈ A', a ∈ A) ∧ r₁.begin_ ≤ r₁.end_ ∧ r₁.begin_ ≤ r.begin_ := by
    rcases hprev with ⟨rfl, rfl, hlast⟩ | ⟨p, rfl, hp, rfl⟩
    · refine ⟨fun a ha => ?_, hAA, fun a ha => ha, hr, le_refl _⟩
      obtain ⟨A₀, p, rfl⟩ := List.eq_nil_or_concat' A' |>.resolve_left (List.ne_nil_of_mem ha)
      have hp := hlast p (by simp)
      rcases List.mem_append.mp ha with ha | ha
      · have h1 := (List.pairwise_append.mp hAA).2.2 a ha p (by simp)
        have h2 := hle p (by simp)
        omega
      · rw [List.mem_singleton.mp ha]
        exact hp
    · obtain ⟨hA', _, hlast⟩ := List.pairwise_append.mp hAA
      have hpb := hA p (by simp)
      have hpe := hle p (by simp)
      refine ⟨fun a ha => hlast a ha p (by simp), hA', fun a ha => by simp [ha], ?_, hpb.le⟩
      exact le_trans hpe (le_max_left _ _)
  obtain ⟨hA₁, hA₂, hA₃, hr₁, hb₁⟩ := h₁
  rcases hnext with ⟨rfl, rfl, hhead⟩ | ⟨q, rfl, hq, rfl⟩
  · have hB₁ : ∀ b ∈ B', r'.end_ < (key b).begin_ := by
      intro b hb
      cases B' with
      | nil => cases hb
      | cons q B' =>
        have hq := hhead q (by simp)
        rcases List.mem_cons.mp hb with rfl | hb
        · exact hq
        · have h1 := (List.pairwise_cons.mp hBB).1 b hb
          have h2 := hle q (by simp)
          omega
    refine ⟨?_, ?_⟩
    · intro x hx
      rcases List.mem_append.mp hx with hx | hx
      · obtain ⟨a, ha, rfl⟩ := List.mem_map.mp hx
        exact hle a (by simp [hA₃ a ha])
      · rcases List.mem_cons.mp hx with rfl | hx
        · exact hr₁
        · obtain ⟨b, hb, rfl⟩ := List.mem_map.mp hx
          exact hle b (by simp [hb])
    · rw [List.pairwise_append, List.pairwise_cons, List.pairwise_map, List.pairwise_map]
      simp only [List.mem_map, List.mem_cons, forall_exists_index, and_imp,
        forall_apply_eq_imp_iff₂, forall_eq_or_imp]
      exact ⟨hA₂, ⟨hB₁, hBB⟩, fun a ha => ⟨hA₁ a ha, fun b hb => hAB a (hA₃ a ha) b hb⟩⟩
  · obtain ⟨hqB, hBB'⟩ := List.pairwise_cons.mp hBB
    have hqb := hB q (by simp)
    have hqe := hle q (by simp)
    refine ⟨?_, ?_⟩
    · intro x hx
      rcases List.mem_append.mp hx with hx | hx
      · obtain ⟨a, ha, rfl⟩ := List.mem_map.mp hx
        exact hle a (by simp [hA₃ a ha])
      · rcases List.mem_cons.mp hx with rfl | hx
        · simp only
          omega
        · obtain ⟨b, hb, rfl⟩ := List.mem_map.mp hx
          exact hle b (by simp [hb])
    · rw [List.pairwise_append, List.pairwise_cons, List.pairwise_map, List.pairwise_map]
      simp only [List.mem_map, List.mem_cons, forall_exists_index, and_imp,
        forall_apply_eq_imp_iff₂, forall_eq_or_imp]
      exact ⟨hA₂, ⟨hqB, hBB'⟩, fun a ha => ⟨hA₁ a ha,
        fun b hb => hAB a (hA₃ a ha) b (by simp [hb])⟩⟩

end Absorb

theorem absorbPrev_spec {s : Balloc} {held A B : List Nat} {w : Which} {new : Nat}
    (h : Owned s held) (hids : s.ids w = A ++ new :: B) :
    ∃ s' A' r, absorbPrev s w new = .ok s' ∧ Owned s' held ∧ s'.ids w = A' ++ new :: B ∧
      s'.tree w.other = s.tree w.other ∧ s'.nodes = Function.update s.nodes new r ∧
      AbsorbedPrev s.nodes A (s.nodes new) A' r := by
  have hprev := rbPrev_spec (h.ids_nodup w) hids
  unfold absorbPrev
  rw [hprev, ok_bind]
  have hkeep : ∀ hlast : ∀ p ∈ A.getLast?, (s.nodes p).end_ < (s.nodes new).begin_,
      ∃ s' A' r, (.ok s : Res Balloc) = .ok s' ∧ Owned s' held ∧ s'.ids w = A' ++ new :: B ∧
      s'.tree w.other = s.tree w.other ∧ s'.nodes = Function.update s.nodes new r ∧
      AbsorbedPrev s.nodes A (s.nodes new) A' r := fun hlast =>
    ⟨s, A, s.nodes new, rfl, h, hids, rfl, (Function.update_eq_self _ _).symm,
      Or.inl ⟨rfl, rfl, hlast⟩⟩
  rcases List.eq_nil_or_concat' A with rfl | ⟨A', p, rfl⟩
  · exact hkeep (by simp)
  · simp only [List.getLast?_append, List.getLast?_singleton, Option.some_or]
    by_cases hp : (s.nodes p).end_ ≥ (s.nodes new).begin_
    · rw [if_pos hp]
      generalize hr : (⟨(s.nodes p).begin_, if (s.nodes p).end_ > (s.nodes new).end_ then
        (s.nodes p).end_ else (s.nodes new).end_⟩ : MemoryNode) = r
      have hset : Owned (s.setNode new r) held := ⟨h.valid, h.nodes⟩
      obtain ⟨s', hfree, howned, hids', htree, hnodes⟩ :=
        unlinkNode_free_spec (w := w) (p := p) hset
        (A := A') (B := new :: B) (by simpa [Balloc.ids, Balloc.setNode] using hids)
      refine ⟨s', A', r, hfree, howned, hids', htree, hnodes, Or.inr ⟨p, rfl, hp, ?_⟩⟩
      rw [← hr]
      congr 1
      split <;> omega
    · rw [if_neg hp]
      exact hkeep (by simpa using hp)

theorem absorbNext_spec {s : Balloc} {held A B : List Nat} {w : Which} {new : Nat}
    (h : Owned s held) (hids : s.ids w = A ++ new :: B) :
    ∃ s' B' r, absorbNext s w new = .ok s' ∧ Owned s' held ∧ s'.ids w = A ++ new :: B' ∧
      s'.tree w.other = s.tree w.other ∧ s'.nodes = Function.update s.nodes new r ∧
      AbsorbedNext s.nodes (s.nodes new) B r B' := by
  have hnext := rbNext_spec (h.ids_nodup w) hids
  unfold absorbNext
  rw [hnext, ok_bind]
  have hkeep : ∀ hhead : ∀ q ∈ B.head?, (s.nodes new).end_ < (s.nodes q).begin_,
      ∃ s' B' r, (.ok s : Res Balloc) = .ok s' ∧ Owned s' held ∧ s'.ids w = A ++ new :: B' ∧
      s'.tree w.other = s.tree w.other ∧ s'.nodes = Function.update s.nodes new r ∧
      AbsorbedNext s.nodes (s.nodes new) B r B' := fun hhead =>
    ⟨s, B, s.nodes new, rfl, h, hids, rfl, (Function.update_eq_self _ _).symm,
      Or.inl ⟨rfl, rfl, hhead⟩⟩
  cases B with
  | nil => exact hkeep (by simp)
  | cons q B' =>
    simp only [List.head?_cons]
    by_cases hq : (s.nodes q).begin_ ≤ (s.nodes new).end_
    · rw [if_pos hq]
      generalize hr : (⟨(s.nodes new).begin_, (s.nodes q).end_⟩ : MemoryNode) = r
      have hset : Owned (s.setNode new r) held := ⟨h.valid, h.nodes⟩
      obtain ⟨s', hfree, howned, hids', htree, hnodes⟩ :=
        unlinkNode_free_spec (w := w) (p := q) hset
        (A := A ++ [new]) (B := B') (by simpa [Balloc.ids, Balloc.setNode] using hids)
      refine ⟨s', B', r, hfree, howned, by simpa using hids', htree, hnodes, Or.inr ⟨q, rfl, hq,
        ?_⟩⟩
      exact hr.symm
    · rw [if_neg hq]
      exact hkeep (by simpa using hq)

/-- **`__balloc_add_range`**: the new node stands in the slot of `from`, and has absorbed its
neighbours as the two tests say. -/
theorem addRange_spec {s : Balloc} {held A B : List Nat} {w : Which} {from_ to_ : Nat}
    (h : Owned s held) (hids : s.ids w = A ++ B) (hA : ∀ a ∈ A, (s.nodes a).begin_ < from_)
    (hB : ∀ b ∈ B, from_ ≤ (s.nodes b).begin_) :
    Post (addRange s w from_ to_) (Exhausted s) fun s' => Owned s' held ∧
      s'.tree w.other = s.tree w.other ∧ ∃ new A' B' r₁ r, new ∈ s.freeList ∧
        s'.ids w = A' ++ new :: B' ∧ s'.nodes = Function.update s.nodes new r ∧
        AbsorbedPrev s.nodes A ⟨from_, to_⟩ A' r₁ ∧ AbsorbedNext s.nodes r₁ B r B' := by
  refine (linkRange_spec h hids hA hB).bind ?_
  rintro ⟨s₁, new⟩ ⟨h₁, hfree, hids₁, htree₁, hnodes₁⟩
  simp only at h₁ hfree hids₁ htree₁ hnodes₁
  have hnew : new ∉ A ++ B := by
    intro hm
    have hn := h.nodup w
    rw [hids] at hn
    exact (List.nodup_append.mp (List.nodup_append.mp hn).2.1).2.2 new hfree new
      (List.mem_append_left _ hm) rfl
  have hold : ∀ x ∈ A ++ B, s₁.nodes x = s.nodes x := fun x hx => by
    rw [hnodes₁, Function.update_of_ne (fun e => hnew (by rwa [← e]))]
  have hnode : s₁.nodes new = ⟨from_, to_⟩ := by rw [hnodes₁, Function.update_self]
  obtain ⟨s₂, A', r₁, hprev, h₂, hids₂, htree₂, hnodes₂, habs⟩ := absorbPrev_spec h₁ hids₁
  obtain ⟨s₃, B', r, hnext, h₃, hids₃, htree₃, hnodes₃, habs'⟩ := absorbNext_spec h₂ hids₂
  simp only
  rw [hprev, ok_bind, hnext]
  refine Post.ok ⟨h₃, by rw [htree₃, htree₂, htree₁], new, A', B', r₁, r, hfree, hids₃, ?_, ?_, ?_⟩
  · rw [hnodes₃, hnodes₂, hnodes₁, Function.update_idem, Function.update_idem]
  · rw [hnode] at habs
    rcases habs with ⟨rfl, rfl, hlast⟩ | ⟨p, rfl, hp, rfl⟩
    · refine Or.inl ⟨rfl, rfl, fun p hp => ?_⟩
      rw [← hold p (List.mem_append_left _ (List.mem_of_getLast? hp))]
      exact hlast p hp
    · rw [hold p (by simp)] at hp ⊢
      exact Or.inr ⟨p, rfl, hp, rfl⟩
  · have hold₂ : ∀ x ∈ B, s₂.nodes x = s.nodes x := fun x hx => by
      have hx' : x ∈ A ++ B := List.mem_append_right _ hx
      rw [hnodes₂, Function.update_of_ne (fun e => hnew (by rwa [← e])), hold x hx']
    rw [hnodes₂, Function.update_self] at habs'
    rcases habs' with ⟨rfl, rfl, hhead⟩ | ⟨q, rfl, hq, rfl⟩
    · refine Or.inl ⟨rfl, rfl, fun q hq => ?_⟩
      rw [← hold₂ q (List.mem_of_head? hq), hnodes₂]
      exact hhead q hq
    · rw [← hnodes₂, hold₂ q (by simp)] at hq ⊢
      exact Or.inr ⟨q, rfl, hq, rfl⟩

/-! ## The invariant -/

/-- A list whose elements satisfying `p` come first is cut behind them. -/
theorem exists_prefix {β : Type} {p : β → Prop} [DecidablePred p] {l : List β}
    (h : l.Pairwise fun a b => p b → p a) :
    ∃ A B, l = A ++ B ∧ (∀ a ∈ A, p a) ∧ ∀ b ∈ B, ¬ p b := by
  induction l with
  | nil => exact ⟨[], [], rfl, by simp, by simp⟩
  | cons x l ih =>
    obtain ⟨hx, hl⟩ := List.pairwise_cons.mp h
    obtain ⟨A, B, rfl, hA, hB⟩ := ih hl
    by_cases hp : p x
    · exact ⟨x :: A, B, rfl, by simpa [hp] using hA, hB⟩
    · have hA' : A = [] := by
        cases A with
        | nil => rfl
        | cons a A => exact absurd (hx a (by simp) (hA a (by simp))) hp
      subst hA'
      exact ⟨[], x :: B, rfl, by simp, by simpa [hp] using hB⟩

/-- The list `l'` of ranges is `l` with `r` put into its slot. -/
def Inserted (l : List MemoryNode) (r : MemoryNode) (l' : List MemoryNode) : Prop :=
  ∃ A B A' B' r₁ r', l = A ++ B ∧ (∀ a ∈ A, a.begin_ < r.begin_) ∧ (∀ b ∈ B, r.begin_ ≤ b.begin_) ∧
    AbsorbedPrev id A r A' r₁ ∧ AbsorbedNext id r₁ B r' B' ∧ l' = A' ++ r' :: B'

theorem AbsorbedPrev.map {nodes : Nat → MemoryNode} {A A' : List Nat} {r r' : MemoryNode}
    (h : AbsorbedPrev nodes A r A' r') :
    AbsorbedPrev id (A.map nodes) r (A'.map nodes) r' := by
  rcases h with ⟨rfl, rfl, hlast⟩ | ⟨p, rfl, hp, rfl⟩
  · refine Or.inl ⟨rfl, rfl, fun p hp => ?_⟩
    rw [List.getLast?_map] at hp
    obtain ⟨q, hq, rfl⟩ := Option.mem_map.mp hp
    exact hlast q hq
  · exact Or.inr ⟨nodes p, by simp, hp, rfl⟩

theorem AbsorbedNext.map {nodes : Nat → MemoryNode} {B B' : List Nat} {r r' : MemoryNode}
    (h : AbsorbedNext nodes r B r' B') :
    AbsorbedNext id r (B.map nodes) r' (B'.map nodes) := by
  rcases h with ⟨rfl, rfl, hhead⟩ | ⟨q, rfl, hq, rfl⟩
  · refine Or.inl ⟨rfl, rfl, fun p hp => ?_⟩
    rw [List.head?_map] at hp
    obtain ⟨q, hq, rfl⟩ := Option.mem_map.mp hp
    exact hhead q hq
  · exact Or.inr ⟨nodes q, by simp, hq, rfl⟩

/-- What `__balloc_add_range` does depends on the ranges only. -/
theorem Inserted.unique {l l₁ l₂ : List MemoryNode} {r : MemoryNode} (h₁ : Inserted l r l₁)
    (h₂ : Inserted l r l₂) : l₁ = l₂ := by
  obtain ⟨A₁, B₁, A₁', B₁', q₁, r₁, rfl, hA₁, hB₁, hp₁, hn₁, rfl⟩ := h₁
  obtain ⟨A₂, B₂, A₂', B₂', q₂, r₂, hl, hA₂, hB₂, hp₂, hn₂, rfl⟩ := h₂
  have hfilter : ∀ A B : List MemoryNode, (∀ a ∈ A, a.begin_ < r.begin_) →
      (∀ b ∈ B, r.begin_ ≤ b.begin_) → (A ++ B).filter (fun a => decide (a.begin_ < r.begin_)) =
          A := by
    intro A B hA hB
    rw [List.filter_append, List.filter_eq_self.mpr (by simpa using hA),
      List.filter_eq_nil_iff.mpr (by simpa using hB), List.append_nil]
  have hA : A₁ = A₂ := by
    rw [← hfilter A₁ B₁ hA₁ hB₁, hl, hfilter A₂ B₂ hA₂ hB₂]
  subst hA
  obtain rfl := List.append_cancel_left hl
  have hprev : A₁' = A₂' ∧ q₁ = q₂ := by
    rcases hp₁ with ⟨rfl, rfl, h₁⟩ | ⟨p, rfl, hp, rfl⟩
    · rcases hp₂ with ⟨rfl, rfl, _⟩ | ⟨p, rfl, hp, rfl⟩
      · exact ⟨rfl, rfl⟩
      · exact absurd (h₁ p (by simp)) (not_lt.mpr hp)
    · rcases hp₂ with ⟨rfl, rfl, h₂⟩ | ⟨p', he, hp', rfl⟩
      · exact absurd (h₂ p (by simp)) (not_lt.mpr hp)
      · obtain ⟨rfl, hpp⟩ := List.append_inj' he rfl
        cases hpp
        exact ⟨rfl, rfl⟩
  obtain ⟨rfl, rfl⟩ := hprev
  rcases hn₁ with ⟨rfl, rfl, h₁⟩ | ⟨p, rfl, hp, rfl⟩
  · rcases hn₂ with ⟨rfl, rfl, _⟩ | ⟨p, rfl, hp, rfl⟩
    · rfl
    · exact absurd (h₁ p (by simp)) (not_lt.mpr hp)
  · rcases hn₂ with ⟨rfl, rfl, h₂⟩ | ⟨p', he, hp', rfl⟩
    · exact absurd (h₂ p (by simp)) (not_lt.mpr hp)
    · cases he
      rfl

/-- A function worked on the tree `w` only: the other tree and the nodes in hand are unchanged. -/
structure OnlyTree (w : Which) (held : List Nat) (s s' : Balloc) : Prop where
  tree : s'.tree w.other = s.tree w.other
  nodes : ∀ x ∈ held ++ s.ids w.other, s'.nodes x = s.nodes x

namespace OnlyTree

variable {w : Which} {held : List Nat} {s s₁ s₂ : Balloc}

theorem refl (w : Which) (held : List Nat) (s : Balloc) : OnlyTree w held s s :=
  ⟨rfl, fun _ _ => rfl⟩

theorem trans (h : OnlyTree w held s s₁) (h' : OnlyTree w held s₁ s₂) : OnlyTree w held s s₂ := by
  refine ⟨h'.tree.trans h.tree, fun x hx => ?_⟩
  rw [h'.nodes x (by rwa [Balloc.ids, h.tree]), h.nodes x hx]

theorem ranges (h : OnlyTree w held s s₁) : s₁.ranges w.other = s.ranges w.other := by
  rw [Balloc.ranges, Balloc.ranges, Balloc.ids, h.tree]
  exact List.map_congr_left fun x hx => h.nodes x (List.mem_append_right _ hx)

end OnlyTree

/-- The nodes of the trees and the nodes in hand are not in the free list. -/
theorem Owned.not_free {s : Balloc} {held : List Nat} (h : Owned s held) {x : Nat} (w : Which)
    (hx : x ∈ held ++ (s.ids w ++ s.ids w.other)) : x ∉ s.freeList := by
  intro hf
  have hn := h.nodup w
  obtain ⟨_, hn', hhf⟩ := List.nodup_append.mp hn
  rcases List.mem_append.mp hx with hx | hx
  · exact hhf x hx x (List.mem_append_left _ hf) rfl
  · exact (List.nodup_append.mp hn').2.2 x hf x hx rfl

/-- The ranges of a tree after one node was given a new range. -/
theorem map_update_of_notMem {nodes : Nat → MemoryNode} {l : List Nat} {new : Nat} {r : MemoryNode}
    (h : new ∉ l) : l.map (Function.update nodes new r) = l.map nodes :=
  List.map_congr_left fun x hx => Function.update_of_ne (fun e => h (by rwa [← e])) ..

theorem BallocInv.split {s : Balloc} {held : List Nat} (h : BallocInv s held) (w : Which)
    (from_ : Nat) : ∃ A B, s.ids w = A ++ B ∧ (∀ a ∈ A, (s.nodes a).begin_ < from_) ∧
      ∀ b ∈ B, from_ ≤ (s.nodes b).begin_ := by
  have hp : (s.ids w).Pairwise fun a b => (s.nodes b).begin_ < from_ →
      (s.nodes a).begin_ < from_ := by
    refine (List.pairwise_map.mp (h.ordered w).apart).imp_of_mem fun {a b} ha _ hab hb => ?_
    have := (h.ordered w).le _ (List.mem_map_of_mem ha)
    omega
  obtain ⟨A, B, hids, hA, hB⟩ := exists_prefix hp
  exact ⟨A, B, hids, hA, fun b hb => not_lt.mp (hB b hb)⟩

/-- **`__balloc_add_range` keeps the invariant.** -/
theorem addRange_inv {s : Balloc} {held : List Nat} {w : Which} {from_ to_ : Nat}
    (h : BallocInv s held) (hle : from_ ≤ to_) :
    Post (addRange s w from_ to_) (Exhausted s) fun s' => BallocInv s' held ∧ OnlyTree w held s s' ∧
      Inserted (s.ranges w) ⟨from_, to_⟩ (s'.ranges w) := by
  obtain ⟨A, B, hids, hA, hB⟩ := h.split w from_
  refine (addRange_spec h.owned hids hA hB).mono ?_
  rintro s' ⟨howned, htree, new, A', B', r₁, r, hfree, hids', hnodes, hprev, hnext⟩
  have hnot : ∀ x ∈ held ++ (s.ids w ++ s.ids w.other), x ≠ new := fun x hx e =>
    h.owned.not_free w hx (by rwa [e])
  have honly : OnlyTree w held s s' := by
    refine ⟨htree, fun x hx => ?_⟩
    rw [hnodes, Function.update_of_ne (hnot x _)]
    simp only [List.mem_append] at hx ⊢
    tauto
  have hA' : ∀ x ∈ A', x ∈ s.ids w := by
    intro x hx
    rw [hids]
    rcases hprev with ⟨rfl, _⟩ | ⟨p, rfl, _⟩ <;> simp [hx]
  have hB' : ∀ x ∈ B', x ∈ s.ids w := by
    intro x hx
    rw [hids]
    rcases hnext with ⟨rfl, _⟩ | ⟨p, rfl, _⟩ <;> simp [hx]
  have hranges : s'.ranges w = A'.map s.nodes ++ r :: B'.map s.nodes := by
    rw [Balloc.ranges, hids', hnodes, List.map_append, List.map_cons, Function.update_self,
      map_update_of_notMem fun hm => hnot new (by simp [hA' new hm]) rfl,
      map_update_of_notMem fun hm => hnot new (by simp [hB' new hm]) rfl]
  refine ⟨⟨howned, fun v => ?_⟩, honly, ?_⟩
  · rcases w.eq_or_other v with rfl | rfl
    · rw [hranges]
      have hok := h.ordered v
      rw [Balloc.ranges, hids] at hok
      exact hok.absorb hle hA hB hprev hnext
    · rw [honly.ranges]
      exact h.ordered _
  · refine ⟨A.map s.nodes, B.map s.nodes, _, _, r₁, r, ?_, ?_, ?_, hprev.map, hnext.map, hranges⟩
    · rw [Balloc.ranges, hids, List.map_append]
    · simpa using hA
    · simpa using hB

end AuOs
