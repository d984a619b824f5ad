import Mathlib

/-!
# Circular lists

A circular list is a walk that starts and ends at its head and meets every other node once.

* `Circuit R head l` — from `head` through `l` back to `head`, each node related to the next by `R`.
* `Circuit.frame` — a circuit depends on the relation between its own nodes.
* `Circuit.succ`, `Circuit.pred` — every node is related to one, and one is related to it.
* `Circuit.exists_cut` — the neighbours of a stretch of the circuit.
* `Circuit.replace` — **a stretch of the circuit is replaced by another**: the rule for insertion,
  removal and splicing.
-/

set_option autoImplicit false

/-- The nodes of `head :: l` are related one to the next, and the last to the head. -/
structure Circuit {α : Type} (R : α → α → Prop) (head : α) (l : List α) : Prop where
  chain : List.IsChain R (head :: (l ++ [head]))
  nodup : (head :: l).Nodup

section Circuit

variable {α : Type} {R R' : α → α → Prop} {head p q x : α} {l l₁ l₂ A B M M' : List α}

/-- The relation matters where a chain is left and entered. -/
theorem List.IsChain.frame (h : List.IsChain R l)
    (hR : ∀ x ∈ l.dropLast, ∀ y ∈ l.tail, R x y → R' x y) : List.IsChain R' l := by
  induction h with
  | nil => exact List.IsChain.nil
  | singleton x => exact List.IsChain.singleton x
  | cons_cons hxy hchain ih =>
    rename_i x y l
    refine List.IsChain.cons_cons (hR x ?_ y List.mem_cons_self hxy) (ih ?_)
    · rw [List.dropLast_cons_of_ne_nil (List.cons_ne_nil y l)]
      exact List.mem_cons_self
    · intro z hz w hw
      apply hR z _ w (List.mem_of_mem_tail hw)
      rw [List.dropLast_cons_of_ne_nil (List.cons_ne_nil y l)]
      exact List.mem_cons_of_mem x hz

/-- A chain without repetitions is entered at its first node and left at its last one. -/
theorem List.IsChain.between {first last : α} (h : List.IsChain R l) (hfirst : l = first :: A)
    (hlast : l = B ++ [last]) (hn : l.Nodup)
    (hR : ∀ x ∈ l, ∀ y ∈ l, x ≠ last → y ≠ first → R x y → R' x y) (hp : R' p first)
    (hq : R' last q) : List.IsChain R' (p :: (l ++ [q])) := by
  have hinner : List.IsChain R' l := by
    apply h.frame
    intro x hx y hy
    apply hR x (List.mem_of_mem_dropLast hx) y (List.mem_of_mem_tail hy)
    · rintro rfl
      rw [hlast, List.dropLast_concat] at hx
      rw [hlast] at hn
      exact (List.nodup_append.mp hn).2.2 x hx x List.mem_cons_self rfl
    · rintro rfl
      rw [hfirst, List.tail_cons] at hy
      rw [hfirst] at hn
      exact (List.nodup_cons.mp hn).1 hy
  have htail : List.IsChain R' (l ++ [q]) := by
    refine List.isChain_append.mpr ⟨hinner, List.IsChain.singleton q, ?_⟩
    intro x hx y hy
    rw [hlast, List.getLast?_concat] at hx
    obtain rfl : last = x := Option.some.inj hx
    obtain rfl : q = y := Option.some.inj hy
    exact hq
  rw [hfirst] at htail ⊢
  exact List.IsChain.cons_cons hp htail

/-- A chain is cut at two of its nodes. -/
theorem List.isChain_cut_two : List.IsChain R (l₁ ++ p :: (M ++ q :: l₂)) ↔
    List.IsChain R (l₁ ++ [p]) ∧ List.IsChain R (p :: (M ++ [q])) ∧ List.IsChain R (q :: l₂) := by
  have hsecond : List.IsChain R (p :: (M ++ q :: l₂)) ↔
      List.IsChain R (p :: (M ++ [q])) ∧ List.IsChain R (q :: l₂) :=
    @List.isChain_split α R q (p :: M) l₂
  rw [List.isChain_split, hsecond]

namespace Circuit

theorem nil (h : R head head) : Circuit R head [] where
  chain := List.IsChain.cons_cons h (List.IsChain.singleton head)
  nodup := List.nodup_singleton head

theorem frame (h : Circuit R head l) (hR : ∀ x ∈ head :: l, ∀ y ∈ head :: l, R x y → R' x y) :
    Circuit R' head l where
  chain := by
    have hmem : ∀ x ∈ head :: (l ++ [head]), x ∈ head :: l := by
      intro x hx
      simp only [List.mem_cons, List.mem_append, List.not_mem_nil, or_false] at hx ⊢
      tauto
    exact h.chain.imp_of_mem_imp fun x y hx hy => hR x (hmem x hx) y (hmem y hy)
  nodup := h.nodup

/-- The node before the first part and the node after the second. -/
theorem exists_cut (head : α) (A B : List α) :
    ∃ l₁ p q l₂, head :: A = l₁ ++ [p] ∧ B ++ [head] = q :: l₂ := by
  obtain ⟨l₁, p, hA⟩ := List.eq_nil_or_concat' (head :: A) |>.resolve_left (List.cons_ne_nil head A)
  cases B with
  | nil => exact ⟨l₁, p, head, [], hA, rfl⟩
  | cons q B => exact ⟨l₁, p, q, B ++ [head], hA, rfl⟩

theorem left_mem (hA : head :: A = l₁ ++ [p]) (B : List α) : p ∈ head :: (A ++ B) := by
  rw [← List.cons_append, hA]
  exact List.mem_append_left B (List.mem_append_right l₁ List.mem_cons_self)

theorem right_mem (hB : B ++ [head] = q :: l₂) (A : List α) : q ∈ head :: (A ++ B) := by
  have hq : q ∈ B ++ [head] := hB ▸ List.mem_cons_self
  rcases List.mem_append.mp hq with hq | hq
  · exact List.mem_cons_of_mem _ (List.mem_append_right A hq)
  · exact List.mem_singleton.mp hq ▸ List.mem_cons_self

/-- The whole walk, seen from the neighbours of `M`. -/
theorem walk_eq (hA : head :: A = l₁ ++ [p]) (hB : B ++ [head] = q :: l₂) (M : List α) :
    head :: (A ++ (M ++ B) ++ [head]) = l₁ ++ p :: (M ++ q :: l₂) := by
  calc head :: (A ++ (M ++ B) ++ [head]) = (head :: A) ++ (M ++ (B ++ [head])) := by simp
    _ = l₁ ++ p :: (M ++ q :: l₂) := by rw [hA, hB]; simp

/-- The stretch `M` with its neighbours. -/
theorem stretch (h : Circuit R head (A ++ (M ++ B))) (hA : head :: A = l₁ ++ [p])
    (hB : B ++ [head] = q :: l₂) : List.IsChain R (p :: (M ++ [q])) := by
  have hchain := h.chain
  rw [walk_eq hA hB, List.isChain_cut_two] at hchain
  exact hchain.2.1

/-- **Replacing a stretch**: `M` with its two neighbours `p` and `q` becomes `M'`. -/
theorem replace (h : Circuit R head (A ++ (M ++ B))) (hA : head :: A = l₁ ++ [p])
    (hB : B ++ [head] = q :: l₂)
    (hR : ∀ x ∈ head :: (A ++ B), ∀ y ∈ head :: (A ++ B), x ≠ p → y ≠ q → R x y → R' x y)
    (hM : List.IsChain R' (p :: (M' ++ [q]))) (hn : (head :: (A ++ (M' ++ B))).Nodup) :
    Circuit R' head (A ++ (M' ++ B)) := by
  have hchain := h.chain
  rw [walk_eq hA hB, List.isChain_cut_two] at hchain
  obtain ⟨hleft, -, hright⟩ := hchain
  have hnodup := h.nodup
  simp only [List.nodup_cons, List.nodup_append, List.mem_append, not_or] at hnodup
  obtain ⟨⟨hhA, hhM, hhB⟩, hnA, ⟨hnM, hnB, hMB⟩, hAMB⟩ := hnodup
  have hnleft : (l₁ ++ [p]).Nodup := hA ▸ List.nodup_cons.mpr ⟨hhA, hnA⟩
  have hnright : (q :: l₂).Nodup := by
    rw [← hB]
    refine List.nodup_append.mpr ⟨hnB, List.nodup_singleton head, ?_⟩
    rintro b hb c hc rfl
    exact hhB (List.mem_singleton.mp hc ▸ hb)
  have hp : p ∈ head :: A := hA ▸ List.mem_append_right l₁ List.mem_cons_self
  have hq : q ∈ B ++ [head] := hB ▸ List.mem_cons_self
  -- the nodes before `p` and behind `q` keep their neighbours
  have hBleft : (q :: l₂).dropLast = B := by rw [← hB, List.dropLast_concat]
  have hAtail : (l₁ ++ [p]).tail = A := by rw [← hA, List.tail_cons]
  refine ⟨?_, hn⟩
  rw [walk_eq hA hB, List.isChain_cut_two]
  refine ⟨hleft.frame ?_, hM, hright.frame ?_⟩
  · intro x hx y hy hxy
    rw [List.dropLast_concat] at hx
    rw [hAtail] at hy
    have hxA : x ∈ head :: A := hA ▸ List.mem_append_left [p] hx
    have hxp : x ≠ p := by
      rintro rfl
      exact (List.nodup_append.mp hnleft).2.2 x hx x List.mem_cons_self rfl
    have hyq : y ≠ q := by
      rintro rfl
      rcases List.mem_append.mp hq with hq | hq
      · exact hAMB y hy y (Or.inr hq) rfl
      · exact hhA (List.mem_singleton.mp hq ▸ hy)
    exact hR x (List.mem_append_left B hxA) y
      (List.mem_cons_of_mem _ (List.mem_append_left B hy)) hxp hyq hxy
  · intro x hx y hy hxy
    rw [hBleft] at hx
    rw [List.tail_cons] at hy
    have hyB : y ∈ B ++ [head] := hB ▸ List.mem_cons_of_mem q hy
    have hxp : x ≠ p := by
      rintro rfl
      rcases List.mem_cons.mp hp with rfl | hp
      · exact hhB hx
      · exact hAMB x hp x (Or.inr hx) rfl
    have hyq : y ≠ q := by
      rintro rfl
      exact (List.nodup_cons.mp hnright).1 hy
    have hyAB : y ∈ head :: (A ++ B) := by
      rcases List.mem_append.mp hyB with hyB | hyB
      · exact List.mem_cons_of_mem _ (List.mem_append_right A hyB)
      · exact List.mem_singleton.mp hyB ▸ List.mem_cons_self
    exact hR x (List.mem_cons_of_mem _ (List.mem_append_right A hx)) y hyAB hxp hyq hxy

/-- Every node has a neighbour behind it. -/
theorem succ (h : Circuit R head l) (hx : x ∈ head :: l) : ∃ y ∈ head :: l, R x y := by
  obtain ⟨A, B, hl⟩ := List.append_of_mem hx
  have hchain := h.chain
  cases B with
  | nil =>
    refine ⟨head, List.mem_cons_self, ?_⟩
    rw [← List.cons_append, hl, List.append_assoc] at hchain
    exact (List.isChain_append_cons_cons.mp hchain).2.1
  | cons y B =>
    refine ⟨y, hl ▸ List.mem_append_right A (List.mem_cons_of_mem x List.mem_cons_self), ?_⟩
    rw [← List.cons_append, hl, List.append_assoc] at hchain
    exact (List.isChain_append_cons_cons.mp hchain).2.1

/-- Every node has a neighbour before it. -/
theorem pred (h : Circuit R head l) (hx : x ∈ head :: l) : ∃ y ∈ head :: l, R y x := by
  have hchain := h.chain
  obtain ⟨A, B, hl⟩ : ∃ A B, l ++ [head] = A ++ x :: B := by
    apply List.append_of_mem
    rcases List.mem_cons.mp hx with rfl | hx
    · exact List.mem_append_right l List.mem_cons_self
    · exact List.mem_append_left _ hx
  obtain ⟨l₁, y, hA⟩ := List.eq_nil_or_concat' (head :: A) |>.resolve_left (List.cons_ne_nil head A)
  rw [hl, ← List.cons_append, hA, List.append_assoc] at hchain
  refine ⟨y, ?_, (List.isChain_append_cons_cons.mp hchain).2.1⟩
  have hy : y ∈ head :: A := hA ▸ List.mem_append_right l₁ List.mem_cons_self
  rcases List.mem_cons.mp hy with rfl | hy
  · exact List.mem_cons_self
  · have hy' : y ∈ l ++ [head] := hl ▸ List.mem_append_left _ hy
    rcases List.mem_append.mp hy' with hy' | hy'
    · exact List.mem_cons_of_mem _ hy'
    · exact List.mem_singleton.mp hy' ▸ List.mem_cons_self

end Circuit

end Circuit
