import Mathlib
import AuOs.Balloc.Alloc

/-!
# What the bootstrap allocator covers

* `covered_absorbPrev`, `covered_absorbNext` — the addresses before and after the two tests.
* `removeRange_covers` — `__balloc_remove_range` takes exactly its range away.
* `addRange_covers_iff` — the new range is added to the addresses of the tree just when no range
  that begins in it or after it ends before it does.
-/

set_option autoImplicit false

namespace AuOs

/-- The addresses of a range. -/
def MemoryNode.addresses (r : MemoryNode) : Set Nat := Set.Ico r.begin_ r.end_

section Absorb

variable {A A' B B' : List MemoryNode} {r r' : MemoryNode}

@[simp] theorem covered_append {l l' : List MemoryNode} :
    covered (l ++ l') = covered l ∪ covered l' := Set.ext fun _ => mem_covered_append

@[simp] theorem covered_cons {l : List MemoryNode} : covered (r :: l) = r.addresses ∪ covered l :=
  Set.ext fun _ => mem_covered_cons

/-- The predecessor is absorbed with all its addresses. -/
theorem covered_absorbPrev (h : AbsorbedPrev id A r A' r') (hA : ∀ a ∈ A, a.begin_ < r.begin_) :
    covered A' ∪ r'.addresses = covered A ∪ r.addresses := by
  rcases h with ⟨rfl, rfl, _⟩ | ⟨p, rfl, hp, rfl⟩
  · rfl
  · have hb : p.begin_ < r.begin_ := hA p (by simp)
    have hboth : Set.Ico p.begin_ (max p.end_ r.end_) = p.addresses ∪ r.addresses := by
      ext x
      simp only [MemoryNode.addresses, Set.mem_Ico, Set.mem_union, id_eq] at hp ⊢
      omega
    rw [covered_append, covered_cons, covered_nil, Set.union_empty, Set.union_assoc, ← hboth]
    rfl

/-- The successor is absorbed with all its addresses if the new range does not end after it. -/
theorem covered_absorbNext (h : AbsorbedNext id r B r' B') (hB : ∀ b ∈ B, r.begin_ ≤ b.begin_)
    (hend : ∀ b ∈ B, r.end_ ≤ b.end_) : covered (r' :: B') = r.addresses ∪ covered B := by
  rcases h with ⟨rfl, rfl, _⟩ | ⟨q, rfl, hq, rfl⟩
  · exact covered_cons
  · have hb := hB q List.mem_cons_self
    have he := hend q List.mem_cons_self
    have hboth : Set.Ico r.begin_ q.end_ = r.addresses ∪ q.addresses := by
      ext x
      simp only [MemoryNode.addresses, Set.mem_Ico, Set.mem_union, id_eq] at hq ⊢
      omega
    rw [covered_cons, covered_cons, ← Set.union_assoc, ← hboth]
    rfl

/-- A successor that ends before the new range cuts it short. -/
theorem end_notMem_absorbNext {q : MemoryNode} (h : AbsorbedNext id r (q :: B) r' B')
    (hle : q.begin_ ≤ q.end_) (hend : q.end_ < r.end_) (hB : ∀ b ∈ B, q.end_ < b.begin_) :
    q.end_ ∉ covered (r' :: B') := by
  rcases h with ⟨rfl, rfl, hhead⟩ | ⟨q', heq, hq, rfl⟩
  · have := hhead q (by simp)
    simp only [id_eq] at this
    omega
  · obtain ⟨rfl, rfl⟩ := List.cons.inj heq
    rw [covered_cons]
    rintro (hx | ⟨b, hb, hx, _⟩)
    · exact absurd hx.2 (lt_irrefl _)
    · exact absurd (hB b hb) (not_lt.mpr hx)

end Absorb

/-- **When a range put into its slot adds just its own addresses.** -/
theorem Inserted.covered_eq_iff {l l' : List MemoryNode} {r : MemoryNode} (h : Inserted l r l')
    (hl : RangesOk l) (hr : r.begin_ ≤ r.end_) :
    covered l' = covered l ∪ r.addresses ↔ ∀ q ∈ l, r.begin_ ≤ q.begin_ → r.end_ ≤ q.end_ := by
  obtain ⟨A, B, A', B', r₁, r₂, rfl, hA, hB, hprev, hnext, rfl⟩ := h
  obtain ⟨_, hBB, hAB⟩ := List.pairwise_append.mp hl.apart
  have hcond : (∀ q ∈ A ++ B, r.begin_ ≤ q.begin_ → r.end_ ≤ q.end_) ↔
      ∀ b ∈ B, r.end_ ≤ b.end_ := by
    refine ⟨fun h b hb => h b (List.mem_append_right _ hb) (hB b hb), fun h q hq hle => ?_⟩
    rcases List.mem_append.mp hq with hq | hq
    · exact absurd (hA q hq) (not_lt.mpr hle)
    · exact h q hq
  have hbefore : covered A' ∪ r₁.addresses = covered A ∪ r.addresses := covered_absorbPrev hprev hA
  have hr₁ : r₁.begin_ ≤ r.begin_ ∧ r.end_ ≤ r₁.end_ ∧
      (∀ a ∈ A', a.end_ < r.begin_) ∧ ∀ b ∈ B, r₁.end_ = r.end_ ∨ r₁.end_ < b.begin_ := by
    rcases hprev with ⟨rfl, rfl, hlast⟩ | ⟨p, rfl, hp, rfl⟩
    · refine ⟨le_rfl, le_rfl, fun a ha => ?_, fun b _ => Or.inl rfl⟩
      obtain ⟨A₀, p, rfl⟩ := List.eq_nil_or_concat' A' |>.resolve_left (List.ne_nil_of_mem ha)
      have hp : p.end_ < r₁.begin_ := hlast p (by simp)
      rcases List.mem_append.mp ha with ha | ha
      · have hap := (List.pairwise_append.mp (List.pairwise_append.mp hl.apart).1).2.2
          a ha p (by simp)
        have hle := hl.le p (by simp)
        omega
      · rw [List.mem_singleton.mp ha]
        exact hp
    · have hb := hA p (by simp)
      refine ⟨hb.le, le_max_right _ _, fun a ha => ?_, fun b hbB => ?_⟩
      · have hap := (List.pairwise_append.mp (List.pairwise_append.mp hl.apart).1).2.2
          a ha p (by simp)
        exact hap.trans hb
      · have hpb := hAB p (by simp) b hbB
        simp only [id_eq]
        omega
  obtain ⟨hbegin, hend, hA', hB₁⟩ := hr₁
  rw [hcond]
  constructor
  · intro heq
    cases B with
    | nil => simp
    | cons q B =>
      obtain ⟨hqB, _⟩ := List.pairwise_cons.mp hBB
      have hqle := hl.le q (by simp)
      have hqb := hB q List.mem_cons_self
      -- the later ranges end later still
      suffices hq : r.end_ ≤ q.end_ by
        intro b hb
        rcases List.mem_cons.mp hb with rfl | hb
        · exact hq
        · have := hqB b hb
          have := hl.le b (by simp [hb])
          omega
      by_contra hlt
      have hnot := end_notMem_absorbNext hnext hqle (by omega) hqB
      have hmem : q.end_ ∈ covered (A' ++ r₂ :: B') := by
        rw [heq]
        exact Or.inr ⟨by omega, by omega⟩
      rcases mem_covered_append.mp hmem with ⟨a, ha, _, hx⟩ | hmem
      · have := hA' a ha
        omega
      · exact hnot hmem
  · intro hle
    have hnext' := covered_absorbNext hnext (fun b hb => hbegin.trans (hB b hb)) fun b hb => by
      have := hle b hb
      have := hl.le b (by simp [hb])
      rcases hB₁ b hb with h | h <;> omega
    rw [covered_append, hnext', ← Set.union_assoc, hbefore, covered_append, Set.union_right_comm]

/-- **`__balloc_add_range` adds `[from, to)` to the addresses of the tree if and only if** every
range that begins at `from` or after it ends at `to` or after it. -/
theorem addRange_covers_iff {s : Balloc} {held : List Nat} {w : Which} {from_ to_ : Nat}
    (h : BallocInv s held) (hle : from_ ≤ to_) :
    Post (addRange s w from_ to_) (Exhausted s) fun s' =>
      (covered (s'.ranges w) = covered (s.ranges w) ∪ Set.Ico from_ to_ ↔
        ∀ r ∈ s.ranges w, from_ ≤ r.begin_ → to_ ≤ r.end_) :=
  (addRange_inv h hle).mono fun _ hs => hs.2.2.covered_eq_iff (h.ordered w) hle

theorem addRange_covers_overlapping : ∃ s₁ s₂, s₁.ranges .freeRanges = [⟨0x4000, 0x5000⟩] ∧
    addRange s₁ .freeRanges 0x4800 0x9000 = .ok s₂ ∧
    (covered (s₂.ranges .freeRanges) = covered (s₁.ranges .freeRanges) ∪ Set.Ico 0x4800 0x9000 ↔
      ∀ r ∈ s₁.ranges .freeRanges, 0x4800 ≤ r.begin_ → 0x9000 ≤ r.end_) := by
  have hadd : ∃ s₁, addRange ballocSetupNodes .freeRanges 0x4000 0x5000 = .ok s₁ ∧
      s₁.ranges .freeRanges = [⟨0x4000, 0x5000⟩] ∧
      ∃ s₂, addRange s₁ .freeRanges 0x4800 0x9000 = .ok s₂ := ⟨_, rfl, rfl, _, rfl⟩
  obtain ⟨s₁, h₁, hr₁, s₂, h₂⟩ := hadd
  have hinv := ((addRange_inv (w := .freeRanges) ballocSetupNodes_inv (by decide)).of_eq h₁).1
  exact ⟨s₁, s₂, hr₁, h₂, (addRange_covers_iff hinv (by decide)).of_eq h₂⟩

/-- A range that contains another one is cut off at the end of that. -/
theorem addRange_loses_tail : ∃ s₁ s₂, BallocInv s₁ [] ∧
    s₁.ranges .freeRanges = [⟨0x4000, 0x5000⟩] ∧
    addRange s₁ .freeRanges 0x1000 0x9000 = .ok s₂ ∧
    s₂.ranges .freeRanges = [⟨0x1000, 0x5000⟩] ∧
    covered (s₂.ranges .freeRanges) ≠ covered (s₁.ranges .freeRanges) ∪ Set.Ico 0x1000 0x9000 := by
  have hadd : ∃ s₁, addRange ballocSetupNodes .freeRanges 0x4000 0x5000 = .ok s₁ ∧
      s₁.ranges .freeRanges = [⟨0x4000, 0x5000⟩] ∧
      ∃ s₂, addRange s₁ .freeRanges 0x1000 0x9000 = .ok s₂ ∧
        s₂.ranges .freeRanges = [⟨0x1000, 0x5000⟩] := ⟨_, rfl, rfl, _, rfl, rfl⟩
  obtain ⟨s₁, h₁, hr₁, s₂, h₂, hr₂⟩ := hadd
  have hinv := ((addRange_inv (w := .freeRanges) ballocSetupNodes_inv (by decide)).of_eq h₁).1
  refine ⟨s₁, s₂, hinv, hr₁, h₂, hr₂, fun heq => ?_⟩
  have hmem : (0x5000 : Nat) ∈ covered (s₂.ranges .freeRanges) := by
    rw [heq]
    exact Or.inr ⟨by decide, by decide⟩
  rw [hr₂] at hmem
  obtain ⟨r, hr, _, hx⟩ := hmem
  rw [List.mem_singleton.mp hr] at hx
  exact absurd hx (lt_irrefl _)

/-! ## `__balloc_remove_range` -/

theorem Trimmed.covered_eq {l l' : List MemoryNode} {lo hi : Nat} (h : Trimmed l lo hi l') :
    covered l' = covered l \ Set.Ico lo hi := by
  ext x
  exact h.cover x

/-- **`__balloc_remove_range` takes `[from, to)` away**, or finds the pool of nodes empty. -/
theorem removeRange_covers {s : Balloc} {held : List Nat} {w : Which} {from_ to_ : Nat}
    (h : BallocInv s held) (hle : from_ ≤ to_) :
    Post (removeRange s w from_ to_) NoNode fun s' => BallocInv s' held ∧
      covered (s'.ranges w) = covered (s.ranges w) \ Set.Ico from_ to_ := by
  refine (removeRange_spec h hle).mono ?_
  rintro s' ⟨hinv, _, htrim⟩
  exact ⟨hinv, htrim.covered_eq⟩

theorem removeRange_covers_middle : ∃ s₁ s₂, s₁.ranges .freeRanges = [⟨0x1000, 0x9000⟩] ∧
    removeRange s₁ .freeRanges 0x2000 0x3000 = .ok s₂ ∧
    covered (s₂.ranges .freeRanges) = covered (s₁.ranges .freeRanges) \ Set.Ico 0x2000 0x3000 := by
  have hremove : ∃ s₁, addRange ballocSetupNodes .freeRanges 0x1000 0x9000 = .ok s₁ ∧
      s₁.ranges .freeRanges = [⟨0x1000, 0x9000⟩] ∧
      ∃ s₂, removeRange s₁ .freeRanges 0x2000 0x3000 = .ok s₂ := ⟨_, rfl, rfl, _, rfl⟩
  obtain ⟨s₁, h₁, hr₁, s₂, h₂⟩ := hremove
  have hinv := ((addRange_inv (w := .freeRanges) ballocSetupNodes_inv (by decide)).of_eq h₁).1
  exact ⟨s₁, s₂, hr₁, h₂, ((removeRange_covers hinv (by decide)).of_eq h₂).2⟩

end AuOs
