import Mathlib
import AuOs.Balloc.Inv

/-!
# Cutting ranges

* `covered` — the addresses of a list of ranges.
* `cutNode_spec` — cutting `[lo, hi)` out of one node: the other nodes stay, and the pieces cover
  just the rest of it.
* `Trimmed` — a list of ranges lost `[lo, hi)`, and each range that is left lies inside one there
  was.
* `removeRange_spec` — `__balloc_remove_range` trims the tree by exactly `[from, to)`.
-/

set_option autoImplicit false

namespace AuOs

/-- The addresses of a list of ranges. -/
def covered (l : List MemoryNode) : Set Nat := {x | ∃ r ∈ l, r.begin_ ≤ x ∧ x < r.end_}

@[simp] theorem mem_covered {l : List MemoryNode} {x : Nat} :
    x ∈ covered l ↔ ∃ r ∈ l, r.begin_ ≤ x ∧ x < r.end_ := Iff.rfl

theorem RangesOk.sublist {l l' : List MemoryNode} (h : RangesOk l) (hs : l'.Sublist l) :
    RangesOk l' :=
  ⟨fun r hr => h.le r (hs.subset hr), h.apart.sublist hs⟩

section Cut

variable {s : Balloc} {held A B : List Nat} {w : Which} {ptr lo hi from_ to_ : Nat}

/-- Unlinking a node keeps the invariant. -/
theorem unlinkNode_inv (h : BallocInv s held) (hids : s.ids w = A ++ ptr :: B) :
    ∃ s', unlinkNode s w ptr = .ok s' ∧ BallocInv s' (ptr :: held) ∧ s'.ids w = A ++ B ∧
      OnlyTree w held s s' ∧ s'.nodes = s.nodes := by
  obtain ⟨s', hun, howned, hids', htree, hnodes⟩ := unlinkNode_spec h.owned hids
  have honly : OnlyTree w held s s' := ⟨htree, fun x _ => by rw [hnodes]⟩
  refine ⟨s', hun, ⟨howned, fun v => ?_⟩, hids', honly, hnodes⟩
  rcases w.eq_or_other v with rfl | rfl
  · have hok := h.ordered v
    rw [Balloc.ranges, hids] at hok
    rw [Balloc.ranges, hids', hnodes]
    exact hok.sublist (((List.sublist_cons_self ptr B).append_left A).map _)
  · rw [honly.ranges]
    exact h.ordered _

theorem ballocFreeNode_inv (h : BallocInv s (ptr :: held)) :
    ∃ s', ballocFreeNode s ptr = .ok s' ∧ BallocInv s' held ∧ s'.tree = s.tree ∧
      s'.nodes = s.nodes := by
  obtain ⟨s', hfree, howned, htree, hnodes⟩ := ballocFreeNode_spec h.owned
  refine ⟨s', hfree, ⟨howned, fun v => ?_⟩, htree, hnodes⟩
  rw [Balloc.ranges, Balloc.ids, htree, hnodes]
  exact h.ordered v

/-- A conditional insertion. -/
theorem addRange_if_inv {c : Prop} [Decidable c] (h : BallocInv s held) (hc : c → from_ ≤ to_) :
    Post (if c then addRange s w from_ to_ else .ok s) NoNode fun s' =>
      BallocInv s' held ∧ OnlyTree w held s s' := by
  split
  · exact ((addRange_inv h (hc ‹_›)).mono fun s' hs => ⟨hs.1, hs.2.1⟩).weaken fun _ he => he.1
  · exact Post.ok ⟨h, OnlyTree.refl w held s⟩

theorem OnlyTree.tail {s' : Balloc} (h : OnlyTree w (ptr :: held) s s') : OnlyTree w held s s' :=
  ⟨h.tree, fun x hx => h.nodes x (List.mem_cons_of_mem _ hx)⟩

/-- **Cutting a node keeps the invariant**, wherever it is cut. -/
theorem cutNode_inv (h : BallocInv s held) (hids : s.ids w = A ++ ptr :: B) :
    Post (cutNode s w ptr lo hi) NoNode fun s' => BallocInv s' held ∧ OnlyTree w held s s' := by
  obtain ⟨s₁, hun, h₁, _, honly₁, _⟩ := unlinkNode_inv h hids
  unfold cutNode
  rw [hun, ok_bind]
  refine (addRange_if_inv h₁ le_of_lt).bind ?_
  rintro s₂ ⟨h₂, honly₂⟩
  refine (addRange_if_inv h₂ le_of_lt).bind ?_
  rintro s₃ ⟨h₃, honly₃⟩
  obtain ⟨s₄, hfree, h₄, htree, hnodes⟩ := ballocFreeNode_inv h₃
  rw [hfree]
  refine Post.ok ⟨h₄, honly₁.trans ((honly₂.trans honly₃).tail.trans ⟨by rw [htree], ?_⟩)⟩
  exact fun x _ => by rw [hnodes]

/-- A range that touches no other gets a node of its own. -/
theorem addRange_apart (h : BallocInv s held) (hids : s.ids w = A ++ B) (hle : from_ ≤ to_)
    (hA : ∀ a ∈ A, (s.nodes a).end_ < from_) (hB : ∀ b ∈ B, to_ < (s.nodes b).begin_) :
    Post (addRange s w from_ to_) NoNode fun s' => BallocInv s' held ∧ OnlyTree w held s s' ∧
      ∃ new, new ∉ A ++ B ∧ s'.ids w = A ++ new :: B ∧
        s'.nodes = Function.update s.nodes new ⟨from_, to_⟩ := by
  have hbegin : ∀ x ∈ A ++ B, (s.nodes x).begin_ ≤ (s.nodes x).end_ := fun x hx =>
    (h.ordered w).le _ (by rw [Balloc.ranges, hids]; exact List.mem_map_of_mem hx)
  have hA' : ∀ a ∈ A, (s.nodes a).begin_ < from_ := fun a ha =>
    lt_of_le_of_lt (hbegin a (List.mem_append_left _ ha)) (hA a ha)
  have hB' : ∀ b ∈ B, from_ ≤ (s.nodes b).begin_ := fun b hb => hle.trans (hB b hb).le
  refine Post.weaken (E := Exhausted s) ?_ fun _ he => he.1
  refine ((addRange_inv h hle).and (addRange_spec h.owned hids hA' hB')).mono ?_
  rintro s' ⟨⟨hinv, honly, _⟩, _, _, new, A', B', r₁, r, hfree, hids', hnodes, hprev, hnext⟩
  refine ⟨hinv, honly, new, fun hm => ?_, ?_⟩
  · exact h.owned.not_free w (by rw [hids]; simp only [List.mem_append] at hm ⊢; tauto) hfree
  rcases hprev with ⟨rfl, rfl, _⟩ | ⟨p, rfl, hp, _⟩
  · rcases hnext with ⟨rfl, rfl, _⟩ | ⟨q, rfl, hq, _⟩
    · exact ⟨hids', hnodes⟩
    · exact absurd hq (not_le.mpr (hB q List.mem_cons_self))
  · exact absurd hp (not_le.mpr (hA p (by simp)))

/-- The node was cut into the pieces `M`: what they cover is the node without `[lo, hi)`. -/
structure Pieces (node : MemoryNode) (lo hi : Nat) (M : List MemoryNode) : Prop where
  inside : ∀ r ∈ M, node.begin_ ≤ r.begin_ ∧ r.end_ ≤ node.end_
  cover : ∀ x, x ∈ covered M ↔ (node.begin_ ≤ x ∧ x < node.end_) ∧ ¬ (lo ≤ x ∧ x < hi)

/-- What is left before `lo`, when nothing is left behind `hi`. -/
theorem Pieces.before {node : MemoryNode} (hlo : lo ≤ node.end_) (hhi : node.end_ ≤ hi) :
    Pieces node lo hi (if node.begin_ < lo then [⟨node.begin_, lo⟩] else []) := by
  constructor
  · intro r hr
    split at hr
    · rw [List.mem_singleton] at hr
      subst hr
      exact ⟨le_refl _, hlo⟩
    · cases hr
  · intro x
    split
    · simp only [mem_covered, List.mem_singleton, exists_eq_left]
      omega
    · simp only [mem_covered, List.not_mem_nil, false_and, exists_false]
      exact iff_of_false id (by omega)

/-- What is left before `lo` and behind `hi`. -/
theorem Pieces.both {node : MemoryNode} (hle : lo ≤ hi) (hlo : lo ≤ node.end_)
    (hhi : node.begin_ ≤ hi) (hend : hi < node.end_) :
    Pieces node lo hi ((if node.begin_ < lo then [⟨node.begin_, lo⟩] else []) ++
      [⟨hi, node.end_⟩]) := by
  constructor
  · intro r hr
    rcases List.mem_append.mp hr with hr | hr
    · split at hr
      · rw [List.mem_singleton] at hr
        subst hr
        exact ⟨le_refl _, hlo⟩
      · cases hr
    · rw [List.mem_singleton] at hr
      subst hr
      exact ⟨hhi, le_refl _⟩
  · intro x
    split
    · simp only [mem_covered, List.cons_append, List.nil_append, List.mem_cons,
        List.not_mem_nil, or_false, exists_eq_or_imp, exists_eq_left]
      omega
    · simp only [mem_covered, List.nil_append, List.mem_singleton, exists_eq_left]
      omega

/-- The two pieces touch. -/
theorem Pieces.whole {node : MemoryNode} (hle : hi ≤ lo) (hlo : lo ≤ node.end_) :
    Pieces node lo hi [⟨node.begin_, max lo node.end_⟩] := by
  constructor
  · intro r hr
    rw [List.mem_singleton] at hr
    subst hr
    exact ⟨le_refl _, max_le hlo (le_refl _)⟩
  · intro x
    simp only [mem_covered, List.mem_singleton, exists_eq_left]
    omega

/-- **Cutting a node**: its neighbours stay as they are. -/
theorem cutNode_spec (h : BallocInv s held) (hids : s.ids w = A ++ ptr :: B) (hle : lo ≤ hi)
    (hlo : lo ≤ (s.nodes ptr).end_) (hhi : (s.nodes ptr).begin_ ≤ hi) :
    Post (cutNode s w ptr lo hi) NoNode fun s' => BallocInv s' held ∧ OnlyTree w held s s' ∧
      ∃ M, s'.ids w = A ++ (M ++ B) ∧ (∀ x ∈ A ++ B, s'.nodes x = s.nodes x) ∧
        Pieces (s.nodes ptr) lo hi (M.map s'.nodes) := by
  refine ((cutNode_inv h hids).and ?_).mono fun s' hs => ⟨hs.1.1, hs.1.2, hs.2⟩
  have hok := h.ordered w
  rw [Balloc.ranges, hids] at hok
  obtain ⟨_, hpB, hAp⟩ := List.pairwise_append.mp (List.pairwise_map.mp hok.apart)
  have hbegin : ∀ x ∈ A ++ ptr :: B, (s.nodes x).begin_ ≤ (s.nodes x).end_ := fun x hx =>
    hok.le _ (List.mem_map_of_mem hx)
  have hptr := hbegin ptr (by simp)
  have hAend : ∀ a ∈ A, (s.nodes a).end_ < (s.nodes ptr).begin_ :=
    fun a ha => hAp a ha ptr (by simp)
  have hBbegin : ∀ b ∈ B, (s.nodes ptr).end_ < (s.nodes b).begin_ := (List.pairwise_cons.mp hpB).1
  obtain ⟨s₁, hun, h₁, hids₁, _, hnodes₁⟩ := unlinkNode_inv h hids
  unfold cutNode
  rw [hun, ok_bind]
  -- the piece before lo
  have hleft : Post (if (s₁.nodes ptr).begin_ < lo then addRange s₁ w (s₁.nodes ptr).begin_ lo
      else .ok s₁) NoNode fun s₂ => BallocInv s₂ (ptr :: held) ∧ s₂.nodes ptr = s.nodes ptr ∧
      ∃ L, s₂.ids w = A ++ L ++ B ∧ (∀ x ∈ A ++ B, s₂.nodes x = s.nodes x) ∧
        L.map s₂.nodes = if (s.nodes ptr).begin_ <
            lo then [⟨(s.nodes ptr).begin_, lo⟩] else [] := by
    rw [hnodes₁]
    split
    · refine (addRange_apart h₁ hids₁ (le_of_lt ‹_›) (by rwa [hnodes₁]) fun b hb => ?_).mono ?_
      · rw [hnodes₁]
        exact lt_of_le_of_lt hlo (hBbegin b hb)
      · rintro s₂ ⟨h₂, honly, new, hnew, hids₂, hnodes₂⟩
        refine ⟨h₂, ?_, [new], by simpa using hids₂, fun x hx => ?_, ?_⟩
        · rw [honly.nodes ptr (by simp), hnodes₁]
        · rw [hnodes₂, Function.update_of_ne (fun e => hnew (by rwa [← e])), hnodes₁]
        · simp [hnodes₂]
    · exact Post.ok ⟨h₁, by rw [hnodes₁], [], by simpa using hids₁, fun x _ => by rw [hnodes₁], rfl⟩
  refine hleft.bind ?_
  rintro s₂ ⟨h₂, hptr₂, L, hids₂, hAB₂, hL⟩
  -- the piece after hi, which touches the other one when lo = hi
  have hright : Post (if (s₂.nodes ptr).end_ > hi then addRange s₂ w hi (s₂.nodes ptr).end_
      else .ok s₂) NoNode fun s₃ => BallocInv s₃ (ptr :: held) ∧
      ∃ M, s₃.ids w = A ++ (M ++ B) ∧ (∀ x ∈ A ++ B, s₃.nodes x = s.nodes x) ∧
        Pieces (s.nodes ptr) lo hi (M.map s₃.nodes) := by
    rw [hptr₂]
    have hLmem : ∀ x ∈ L, (s.nodes ptr).begin_ < lo ∧ s₂.nodes x = ⟨(s.nodes ptr).begin_, lo⟩ := by
      intro x hx
      have := List.mem_map_of_mem (f := s₂.nodes) hx
      rw [hL] at this
      split at this
      · exact ⟨‹_›, List.mem_singleton.mp this⟩
      · cases this
    split
    · have hAL : ∀ a ∈ A ++ L, (s₂.nodes a).begin_ < hi := by
        intro a ha
        rcases List.mem_append.mp ha with ha | ha
        · rw [hAB₂ a (by simp [ha])]
          have h1 := hAend a ha
          have h2 := hbegin a (by simp [ha])
          omega
        · obtain ⟨h1, h2⟩ := hLmem a ha
          rw [h2]
          exact lt_of_lt_of_le h1 hle
      have hB₂ : ∀ b ∈ B, hi ≤ (s₂.nodes b).begin_ := fun b hb => by
        rw [hAB₂ b (by simp [hb])]
        have h1 := hBbegin b hb
        omega
      refine Post.weaken (E := Exhausted s₂) ?_ fun _ he => he.1
      refine ((addRange_inv h₂ (le_of_lt ‹_›)).and (addRange_spec h₂.owned hids₂ hAL hB₂)).mono ?_
      rintro s₃ ⟨⟨h₃, _, _⟩, _, _, new, A', B', r₁, r, hfree, hids₃, hnodes₃, hprev, hnext⟩
      have hnew : ∀ x ∈ A ++ L ++ B, x ≠ new := fun x hx e =>
        h₂.owned.not_free w (x := x) (by
          rw [hids₂]; exact List.mem_append_right _ (List.mem_append_left _ hx)) (by rwa [e])
      -- the successor is not reached
      have hr₁ : r₁.end_ = (s.nodes ptr).end_ := by
        rcases hprev with ⟨_, rfl, _⟩ | ⟨p, hp, hpe, rfl⟩
        · rfl
        · have hpm : p ∈ A ++ L := by rw [hp]; simp
          rcases List.mem_append.mp hpm with hpA | hpL
          · exfalso
            rw [hAB₂ p (by simp [hpA])] at hpe
            have h1 := hAend p hpA
            simp only at hpe
            omega
          · rw [(hLmem p hpL).2]
            simp only
            omega
      have hB' : B' = B ∧ r = r₁ := by
        rcases hnext with ⟨rfl, rfl, _⟩ | ⟨q, rfl, hq, _⟩
        · exact ⟨rfl, rfl⟩
        · exfalso
          rw [hAB₂ q (by simp), hr₁] at hq
          have h1 := hBbegin q (by simp)
          omega
      obtain ⟨rfl, rfl⟩ := hB'
      refine ⟨h₃, ?_⟩
      have hAB₃ : ∀ x ∈ A ++ B', s₃.nodes x = s.nodes x := by
        intro x hx
        rw [hnodes₃, Function.update_of_ne (hnew x ?_), hAB₂ x hx]
        simp only [List.mem_append] at hx ⊢
        tauto
      rcases hprev with ⟨rfl, rfl, hlast⟩ | ⟨p, hp, hpe, rfl⟩
      · -- two pieces, or one after hi
        refine ⟨L ++ [new], by simpa using hids₃, hAB₃, ?_⟩
        have hLmap : L.map s₃.nodes = L.map s₂.nodes := by
          rw [hnodes₃]
          exact map_update_of_notMem fun hm => hnew new (by simp [hm]) rfl
        rw [List.map_append, hLmap, hL, List.map_singleton, hnodes₃, Function.update_self]
        exact Pieces.both hle hlo hhi ‹_›
      · -- both pieces in one node: nothing was cut
        have hpm : p ∈ A ++ L := by rw [hp]; simp
        have hpL : p ∈ L := by
          rcases List.mem_append.mp hpm with hpA | hpL
          · exfalso
            rw [hAB₂ p (by simp [hpA])] at hpe
            have h1 := hAend p hpA
            simp only at hpe
            omega
          · exact hpL
        obtain ⟨hlt, hpn⟩ := hLmem p hpL
        rw [if_pos hlt] at hL
        obtain ⟨l, rfl, hl⟩ := List.map_eq_singleton_iff.mp hL
        obtain ⟨rfl, _⟩ := List.append_inj' hp rfl
        rw [hpn] at hpe hnodes₃
        simp only at hpe
        refine ⟨[new], by simpa using hids₃, hAB₃, ?_⟩
        rw [List.map_singleton, hnodes₃, Function.update_self]
        exact Pieces.whole hpe hlo
    · refine Post.ok ⟨h₂, L, by simpa using hids₂, hAB₂, ?_⟩
      rw [hL]
      exact Pieces.before hlo (Nat.not_lt.mp ‹_›)
  refine hright.bind ?_
  rintro s₃ ⟨h₃, M, hids₃, hAB₃, hM⟩
  obtain ⟨s₄, hfree, _, htree, hnodes⟩ := ballocFreeNode_inv h₃
  rw [hfree]
  exact Post.ok ⟨M, by rw [Balloc.ids, htree]; exact hids₃, by rwa [hnodes], by rwa [hnodes]⟩

end Cut

/-! ## `__balloc_remove_range` -/

/-- The ranges `l'` cover what `l` covers without `[lo, hi)`, each inside a range of `l`. -/
structure Trimmed (l : List MemoryNode) (lo hi : Nat) (l' : List MemoryNode) : Prop where
  cover : ∀ x, x ∈ covered l' ↔ x ∈ covered l ∧ ¬ (lo ≤ x ∧ x < hi)
  inside : ∀ r' ∈ l', ∃ r ∈ l, r.begin_ ≤ r'.begin_ ∧ r'.end_ ≤ r.end_

theorem Trimmed.refl {l : List MemoryNode} {lo hi : Nat}
    (h : ∀ x ∈ covered l, ¬ (lo ≤ x ∧ x < hi)) : Trimmed l lo hi l :=
  ⟨fun x => ⟨fun hx => ⟨hx, h x hx⟩, fun hx => hx.1⟩, fun r hr => ⟨r, hr, le_refl _, le_refl _⟩⟩

@[simp] theorem mem_covered_append {l l' : List MemoryNode} {x : Nat} :
    x ∈ covered (l ++ l') ↔ x ∈ covered l ∨ x ∈ covered l' := by
  simp only [mem_covered, List.mem_append, or_and_right, exists_or]

@[simp] theorem mem_covered_cons {r : MemoryNode} {l : List MemoryNode} {x : Nat} :
    x ∈ covered (r :: l) ↔ (r.begin_ ≤ x ∧ x < r.end_) ∨ x ∈ covered l := by
  simp only [mem_covered, List.mem_cons, exists_eq_or_imp]

@[simp] theorem covered_nil : covered [] = ∅ := by
  ext x
  simp [covered]

/-- One node of the list was cut. -/
theorem Pieces.trimmed {L R M : List MemoryNode} {node : MemoryNode} {lo hi : Nat}
    (h : Pieces node lo hi M) : ∀ x, x ∈ covered (L ++ (M ++ R)) ↔
      x ∈ covered L ∨ ((node.begin_ ≤ x ∧ x < node.end_) ∧ ¬ (lo ≤ x ∧ x < hi)) ∨
          x ∈ covered R := by
  intro x
  rw [mem_covered_append, mem_covered_append, h.cover]

section Remove

variable {s : Balloc} {held A B : List Nat} {w : Which} {from_ to_ : Nat}

theorem Owned.length_le (h : Owned s held) (w : Which) : (s.ids w).length ≤ BALLOC_MAX_RANGES := by
  have := (h.perm w).length_eq
  simp only [List.length_append, List.length_range] at this
  omega

/-- The search of `__balloc_remove_range` and `__balloc_alloc`. -/
theorem firstAfter_spec (h : BallocInv s held) (w : Which) (from_ : Nat) :
    ∃ A B, s.ids w = A ++ B ∧ firstAfter s w from_ = B.head? ∧
      (∀ a ∈ A, (s.nodes a).end_ ≤ from_) ∧ ∀ b ∈ B, from_ < (s.nodes b).end_ := by
  have hp : (s.ids w).Pairwise fun a b => (s.nodes b).end_ ≤ from_ → (s.nodes a).end_ ≤ from_ := by
    refine (List.pairwise_map.mp (h.ordered w).apart).imp_of_mem fun {a b} _ hb hab hle => ?_
    have := (h.ordered w).le _ (List.mem_map_of_mem hb)
    omega
  obtain ⟨A, B, hids, hA, hB⟩ := exists_prefix hp
  refine ⟨A, B, hids, ?_, hA, fun b hb => not_le.mp (hB b hb)⟩
  unfold firstAfter
  rw [lowerBound_spec _ none A B hids, Option.or_none]
  · exact fun a ha => decide_eq_false (not_lt.mpr (hA a ha))
  · exact fun b hb => decide_eq_true (not_le.mp (hB b hb))

/-- **The removal loop**, at the first node `B` that the range may reach; the nodes `A` before it
are done. -/
theorem removeLoop_spec (hle : from_ ≤ to_) : ∀ (fuel : Nat) (s : Balloc) (A B : List Nat),
    BallocInv s held → s.ids w = A ++ B → B.length < fuel →
    (∀ x ∈ covered (A.map s.nodes), ¬ (from_ ≤ x ∧ x < to_)) →
    (∀ b ∈ B, from_ < (s.nodes b).end_) →
    Post (removeLoop w from_ to_ fuel s B.head?) NoNode fun s' =>
      BallocInv s' held ∧ OnlyTree w held s s' ∧ Trimmed (s.ranges w) from_ to_ (s'.ranges w)
  | 0, s, A, B, _, _, hf, _, _ => by omega
  | fuel + 1, s, A, B, h, hids, hf, hA, hB => by
    have hranges : s.ranges w = A.map s.nodes ++ B.map s.nodes := by
      rw [Balloc.ranges, hids, List.map_append]
    cases B with
    | nil =>
      refine Post.ok ⟨h, OnlyTree.refl w held s, Trimmed.refl fun x hx => hA x ?_⟩
      rw [hranges] at hx
      simpa using hx
    | cons ptr B =>
      rw [List.head?_cons, removeLoop]
      have hap := List.pairwise_map.mp (h.ordered w).apart
      rw [hids] at hap
      have hptr := (List.pairwise_cons.mp (List.pairwise_append.mp hap).2.1).1
      have hbegin : ∀ b ∈ ptr :: B, (s.nodes b).begin_ ≤ (s.nodes b).end_ := fun b hb =>
        (h.ordered w).le _ (List.mem_map_of_mem (by rw [hids]; exact List.mem_append_right _ hb))
      split
      · rename_i hlt
        rw [rbNext_spec (h.owned.ids_nodup w) hids, ok_bind]
        have hend := hB ptr List.mem_cons_self
        refine (cutNode_spec h hids hle hend.le hlt.le).bind ?_
        rintro s₁ ⟨h₁, honly₁, M, hids₁, hsame, hM⟩
        have hmapA : A.map s₁.nodes = A.map s.nodes :=
          List.map_congr_left fun x hx => hsame x (List.mem_append_left _ hx)
        have hmapB : B.map s₁.nodes = B.map s.nodes :=
          List.map_congr_left fun x hx => hsame x (List.mem_append_right _ hx)
        have hranges₁ : s₁.ranges w = A.map s.nodes ++ (M.map s₁.nodes ++ B.map s.nodes) := by
          rw [Balloc.ranges, hids₁, List.map_append, List.map_append, hmapA, hmapB]
        refine (removeLoop_spec hle fuel s₁ (A ++ M) B h₁ (by rw [hids₁, List.append_assoc])
          (by simpa using hf) ?_ ?_).mono ?_
        · intro x hx
          rw [List.map_append, hmapA, mem_covered_append] at hx
          rcases hx with hx | hx
          · exact hA x hx
          · exact ((hM.cover x).mp hx).2
        · intro b hb
          rw [hsame b (List.mem_append_right _ hb)]
          exact hB b (List.mem_cons_of_mem _ hb)
        · rintro s₂ ⟨h₂, honly₂, hcover, hinside⟩
          refine ⟨h₂, honly₁.trans honly₂, fun x => ?_, fun r' hr' => ?_⟩
          · rw [hcover x, hranges₁, hM.trimmed x, hranges, mem_covered_append, List.map_cons,
              mem_covered_cons]
            tauto
          · obtain ⟨r₁, hr₁, h1, h2⟩ := hinside r' hr'
            rw [hranges₁] at hr₁
            rw [hranges]
            rcases List.mem_append.mp hr₁ with hr | hr
            · exact ⟨r₁, List.mem_append_left _ hr, h1, h2⟩
            rcases List.mem_append.mp hr with hr | hr
            · obtain ⟨h3, h4⟩ := hM.inside r₁ hr
              exact ⟨s.nodes ptr, by simp, h3.trans h1, h2.trans h4⟩
            · exact ⟨r₁, by rw [List.map_cons]; exact List.mem_append_right _ (.tail _ hr), h1, h2⟩
      · rename_i hge
        refine Post.ok ⟨h, OnlyTree.refl w held s, Trimmed.refl fun x hx => ?_⟩
        rw [hranges, mem_covered_append] at hx
        rcases hx with hx | ⟨r, hr, hx, _⟩
        · exact hA x hx
        · obtain ⟨b, hb, rfl⟩ := List.mem_map.mp hr
          rcases List.mem_cons.mp hb with rfl | hb
          · omega
          · have h1 := hptr b hb
            have h2 := hbegin ptr List.mem_cons_self
            omega

/-- **`__balloc_remove_range`** removes exactly the range, and splits no range more than that
takes. -/
theorem removeRange_spec (h : BallocInv s held) (hle : from_ ≤ to_) :
    Post (removeRange s w from_ to_) NoNode fun s' =>
      BallocInv s' held ∧ OnlyTree w held s s' ∧ Trimmed (s.ranges w) from_ to_ (s'.ranges w) := by
  obtain ⟨A, B, hids, hfirst, hA, hB⟩ := firstAfter_spec h w from_
  unfold removeRange
  rw [hfirst]
  refine removeLoop_spec hle _ s A B h hids ?_ ?_ hB
  · have := h.owned.length_le w
    rw [hids, List.length_append] at this
    omega
  · rintro x ⟨r, hr, _, hx⟩
    obtain ⟨a, ha, rfl⟩ := List.mem_map.mp hr
    have := hA a ha
    omega

end Remove

end AuOs
