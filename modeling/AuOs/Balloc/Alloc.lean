import Mathlib
import AuOs.Balloc.Cut

/-!
# Bootstrap allocation

* `alignAddr_spec` — rounding up, when nothing wraps.
* `ballocAllocRaw_inv` — `__balloc_alloc` keeps the invariant, whatever the size and the alignment.
* `ballocAllocRaw_spec` — without overflow the block lies inside one free range, and exactly the
  block leaves the free ranges.
* `ballocCalls`, `balloc_representation` — the representation invariant over all runs.
-/

set_option autoImplicit false

namespace AuOs

/-! ## Alignment -/

theorem or_le_add (a b : Nat) : a ||| b ≤ a + b := by
  induction a using Nat.strongRecOn generalizing b with
  | _ a ih =>
    rcases Nat.eq_zero_or_pos a with rfl | ha
    · simp
    · have h := ih (a / 2) (by omega) (b / 2)
      have hdiv : (a ||| b) / 2 = a / 2 ||| b / 2 := Nat.or_div_two
      have hmod : (a ||| b) % 2 = 1 ↔ a % 2 = 1 ∨ b % 2 = 1 := Nat.or_mod_two_eq_one
      omega

/-- Clearing the bits of a mask takes away at most the mask. -/
theorem le_and_not_add {x m n : Nat} (hx : x < 2 ^ n) (hm : m < 2 ^ n) :
    x ≤ (x &&& (2 ^ n - 1 - m)) + m := by
  have hsplit : (x &&& (2 ^ n - 1 - m)) ||| (x &&& m) = x := by
    refine Nat.eq_of_testBit_eq fun i => ?_
    rw [Nat.testBit_or, Nat.testBit_and, Nat.testBit_and, Nat.sub_sub, Nat.add_comm 1 m,
      Nat.testBit_two_pow_sub_succ hm]
    by_cases hi : i < n
    · cases x.testBit i <;> cases m.testBit i <;> simp [hi]
    · rw [Nat.testBit_lt_two_pow (hx.trans_le (Nat.pow_le_pow_right (by decide) (not_lt.mp hi)))]
      simp
  have h1 := or_le_add (x &&& (2 ^ n - 1 - m)) (x &&& m)
  have h2 : x &&& m ≤ m := Nat.and_le_right
  omega

/-- The rounded address is at most `align - 1` above `b`. -/
theorem alignAddr_spec {b align : Nat} (hal : 1 ≤ align) (h : b + align ≤ WORD) :
    b ≤ alignAddr b align ∧ alignAddr b align < b + align := by
  have hmask : (align + WORD - 1) % WORD = align - 1 := by
    rw [show align + WORD - 1 = align - 1 + WORD by omega, Nat.add_mod_right]
    exact Nat.mod_eq_of_lt (by omega)
  have hsum : (b + (align - 1)) % WORD = b + (align - 1) := Nat.mod_eq_of_lt (by omega)
  unfold alignAddr
  simp only
  rw [hmask, hsum]
  have hlow : b + (align - 1) ≤ ((b + (align - 1)) &&& (WORD - 1 - (align - 1))) + (align - 1) := by
    unfold WORD at *
    exact le_and_not_add (by omega) (by omega)
  have hhigh : (b + (align - 1)) &&& (WORD - 1 - (align - 1)) ≤ b + (align - 1) := Nat.and_le_left
  omega

/-! ## `__balloc_alloc` -/

section Alloc

variable {s : Balloc} {held A B : List Nat} {w : Which} {size align from_ to_ : Nat}

/-- The address that is tried in a node. -/
def tryAddr (s : Balloc) (align from_ ptr : Nat) : Nat :=
  alignAddr (if (s.nodes ptr).begin_ > from_ then (s.nodes ptr).begin_ else from_) align

/-- The block fits into the node, as far as the window reaches. -/
def FitsNode (s : Balloc) (size align from_ to_ ptr : Nat) : Prop :=
  (tryAddr s align from_ ptr + size) % WORD ≤ min (s.nodes ptr).end_ to_

/-- **The search of `__balloc_alloc`** ends with nothing found or with the cut of the first node
that fits. -/
theorem allocRangeLoop_search (h : BallocInv s held) : ∀ (fuel : Nat) (A B : List Nat),
    s.ids .freeRanges = A ++ B → B.length < fuel →
    (allocRangeLoop size align from_ to_ fuel s B.head? = .ok (s, to_) ∧
      ∀ b ∈ B, (s.nodes b).begin_ < to_ → ¬ FitsNode s size align from_ to_ b) ∨
    ∃ A' ptr B', B = A' ++ ptr :: B' ∧ FitsNode s size align from_ to_ ptr ∧
      (∀ a ∈ A', ¬ FitsNode s size align from_ to_ a) ∧
      allocRangeLoop size align from_ to_ fuel s B.head? =
        (do
          let s' ← cutNode s .freeRanges ptr (tryAddr s align from_ ptr)
            ((tryAddr s align from_ ptr + size) % WORD)
          return (s', tryAddr s align from_ ptr))
  | 0, A, B, _, hf => by omega
  | fuel + 1, A, [], hids, hf => Or.inl ⟨rfl, by simp⟩
  | fuel + 1, A, ptr :: B, hids, hf => by
    rw [List.head?_cons, allocRangeLoop]
    split
    · have he : (if (s.nodes ptr).end_ < to_ then (s.nodes ptr).end_ else to_) =
          min (s.nodes ptr).end_ to_ := by
        split <;> omega
      have htry : alignAddr (if (s.nodes ptr).begin_ > from_ then (s.nodes ptr).begin_ else from_)
          align = tryAddr s align from_ ptr := rfl
      simp only [he, htry]
      by_cases hfit : (tryAddr s align from_ ptr + size) % WORD ≤ min (s.nodes ptr).end_ to_
      · rw [if_pos hfit]
        exact Or.inr ⟨[], ptr, B, rfl, hfit, by simp, rfl⟩
      · rw [if_neg hfit, rbNext_spec (h.owned.ids_nodup _) hids, ok_bind]
        rcases allocRangeLoop_search h fuel (A ++ [ptr]) B (by simpa using hids)
            (by simpa using hf) with
          ⟨hnone, hall⟩ | ⟨A', ptr', B', rfl, hfit', hbefore, heq⟩
        · refine Or.inl ⟨hnone, ?_⟩
          rintro b (_ | ⟨_, hb⟩)
          · exact fun _ => hfit
          · exact hall b hb
        · refine Or.inr ⟨ptr :: A', ptr', B', rfl, hfit', ?_, heq⟩
          rintro a (_ | ⟨_, ha⟩)
          · exact hfit
          · exact hbefore a ha
    · -- the nodes behind the window begin later still
      rename_i hge
      refine Or.inl ⟨rfl, ?_⟩
      have hok := h.ordered .freeRanges
      rw [Balloc.ranges, hids, List.map_append] at hok
      have hap := (List.pairwise_append.mp hok.apart).2.1
      rw [List.map_cons, List.pairwise_cons] at hap
      have hle := hok.le (s.nodes ptr) (by simp)
      rintro b (_ | ⟨_, hb⟩) hlt
      · exact absurd hlt hge
      · have := hap.1 _ (List.mem_map_of_mem hb)
        omega

theorem ballocAllocRaw_search (h : BallocInv s held) : ∃ C B, s.ids .freeRanges = C ++ B ∧
    (∀ c ∈ C, (s.nodes c).end_ ≤ from_) ∧ (∀ b ∈ B, from_ < (s.nodes b).end_) ∧
    ((ballocAllocRaw s size align from_ to_ = .ok (s, to_) ∧
      ∀ b ∈ B, (s.nodes b).begin_ < to_ → ¬ FitsNode s size align from_ to_ b) ∨
    ∃ A' ptr B', B = A' ++ ptr :: B' ∧ FitsNode s size align from_ to_ ptr ∧
      (∀ a ∈ A', ¬ FitsNode s size align from_ to_ a) ∧
      ballocAllocRaw s size align from_ to_ =
        (do
          let s' ← cutNode s .freeRanges ptr (tryAddr s align from_ ptr)
            ((tryAddr s align from_ ptr + size) % WORD)
          return (s', tryAddr s align from_ ptr))) := by
  obtain ⟨C, B, hids, hfirst, hC, hB⟩ := firstAfter_spec h .freeRanges from_
  refine ⟨C, B, hids, hC, hB, ?_⟩
  unfold ballocAllocRaw
  rw [hfirst]
  apply allocRangeLoop_search h _ C B hids
  have := h.owned.length_le .freeRanges
  rw [hids, List.length_append] at this
  omega

/-- **`__balloc_alloc` keeps the invariant**, even when its arithmetic wraps. -/
theorem ballocAllocRaw_inv (h : BallocInv s held) :
    Post (ballocAllocRaw s size align from_ to_) NoNode fun p =>
      BallocInv p.1 held ∧ OnlyTree .freeRanges held s p.1 := by
  obtain ⟨C, B, hids, _, _, ⟨hnone, _⟩ | ⟨A, ptr, B', rfl, _, _, heq⟩⟩ :=
    @ballocAllocRaw_search _ _ size align from_ to_ h
  · rw [hnone]
    exact Post.ok ⟨h, OnlyTree.refl _ _ _⟩
  · rw [heq]
    rw [← List.append_assoc] at hids
    exact (cutNode_inv h hids).bind fun s' hs => Post.ok hs

/-- One node was cut, and the ranges were trimmed by what was cut out. -/
theorem cutNode_trimmed {ptr lo hi : Nat} (h : BallocInv s held) (hids : s.ids w = A ++ ptr :: B)
    (hle : lo ≤ hi) (hlo : lo ≤ (s.nodes ptr).end_) (hhi : (s.nodes ptr).begin_ ≤ hi)
    (hin : (s.nodes ptr).begin_ ≤ lo ∧ hi ≤ (s.nodes ptr).end_) :
    Post (cutNode s w ptr lo hi) NoNode fun s' => BallocInv s' held ∧ OnlyTree w held s s' ∧
      Trimmed (s.ranges w) lo hi (s'.ranges w) := by
  refine (cutNode_spec h hids hle hlo hhi).mono ?_
  rintro s' ⟨h', honly, M, hids', hsame, hM⟩
  have hranges : s.ranges w = A.map s.nodes ++ s.nodes ptr :: B.map s.nodes := by
    rw [Balloc.ranges, hids, List.map_append, List.map_cons]
  have hranges' : s'.ranges w = A.map s.nodes ++ (M.map s'.nodes ++ B.map s.nodes) := by
    rw [Balloc.ranges, hids', List.map_append, List.map_append,
      List.map_congr_left fun x hx => hsame x (List.mem_append_left _ hx),
      List.map_congr_left fun x hx => hsame x (List.mem_append_right _ hx)]
  have hok := h.ordered w
  rw [hranges] at hok
  obtain ⟨_, hR, hL⟩ := List.pairwise_append.mp hok.apart
  have hle' := hok.le
  refine ⟨h', honly, fun x => ?_, fun r' hr' => ?_⟩
  · rw [hranges', hM.trimmed x, hranges, mem_covered_append, mem_covered_cons]
    -- the other ranges do not meet the block, which lies inside `ptr`
    have hout : x ∈ covered (A.map s.nodes) ∨ x ∈ covered (B.map s.nodes) →
        ¬ (lo ≤ x ∧ x < hi) := by
      rintro (⟨r, hr, h1, h2⟩ | ⟨r, hr, h1, h2⟩)
      · have := hL r hr (s.nodes ptr) List.mem_cons_self
        omega
      · have := (List.pairwise_cons.mp hR).1 r hr
        omega
    tauto
  · rw [hranges'] at hr'
    rw [hranges]
    rcases List.mem_append.mp hr' with hr | hr
    · exact ⟨r', List.mem_append_left _ hr, le_refl _, le_refl _⟩
    rcases List.mem_append.mp hr with hr | hr
    · obtain ⟨h3, h4⟩ := hM.inside r' hr
      exact ⟨s.nodes ptr, by simp, h3, h4⟩
    · exact ⟨r', List.mem_append_right _ (.tail _ hr), le_refl _, le_refl _⟩

/-- The address that is tried, when nothing wraps. -/
theorem tryAddr_spec {ptr : Nat} (hal : 1 ≤ align)
    (hptr : (s.nodes ptr).begin_ ≤ (s.nodes ptr).end_)
    (hfrom : from_ < (s.nodes ptr).end_) (hov : (s.nodes ptr).end_ + size + align ≤ WORD) :
    ∃ b, b = max (s.nodes ptr).begin_ from_ ∧ b + align ≤ WORD ∧
      tryAddr s align from_ ptr = alignAddr b align ∧ b ≤ tryAddr s align from_ ptr ∧
      (tryAddr s align from_ ptr + size) % WORD = tryAddr s align from_ ptr + size := by
  have hb : (if (s.nodes ptr).begin_ > from_ then (s.nodes ptr).begin_ else from_) =
      max (s.nodes ptr).begin_ from_ := by
    split <;> omega
  have hword : max (s.nodes ptr).begin_ from_ + align ≤ WORD := by omega
  obtain ⟨h1, h2⟩ := alignAddr_spec hal hword
  unfold tryAddr
  rw [hb]
  exact ⟨_, rfl, hword, rfl, h1, Nat.mod_eq_of_lt (by omega)⟩

/-- **`__balloc_alloc` without overflow**: it finds no room and changes nothing, or the block lies
inside one free range and just the block leaves the free ranges. -/
theorem ballocAllocRaw_spec (h : BallocInv s held) (hal : 1 ≤ align)
    (hov : ∀ r ∈ s.ranges .freeRanges, r.end_ + size + align ≤ WORD) :
    Post (ballocAllocRaw s size align from_ to_) NoNode fun p =>
      BallocInv p.1 held ∧ OnlyTree .freeRanges held s p.1 ∧
      (p = (s, to_) ∨ from_ ≤ p.2 ∧ p.2 + size ≤ to_ ∧
        (∃ r ∈ s.ranges .freeRanges, r.begin_ ≤ p.2 ∧ p.2 + size ≤ r.end_) ∧
        Trimmed (s.ranges .freeRanges) p.2 (p.2 + size) (p.1.ranges .freeRanges)) := by
  obtain ⟨C, B, hids, _, hB, ⟨hnone, _⟩ | ⟨A, ptr, B', rfl, hfit, _, heq⟩⟩ :=
    @ballocAllocRaw_search _ _ size align from_ to_ h
  · rw [hnone]
    exact Post.ok ⟨h, OnlyTree.refl _ _ _, Or.inl rfl⟩
  · have hmem : s.nodes ptr ∈ s.ranges .freeRanges := by
      rw [Balloc.ranges, hids]
      exact List.mem_map_of_mem (by simp)
    have hptr := (h.ordered .freeRanges).le _ hmem
    obtain ⟨b, hb, _, _, htry, hmod⟩ := tryAddr_spec hal hptr (hB ptr (by simp)) (hov _ hmem)
    rw [heq]
    unfold FitsNode at hfit
    rw [hmod] at hfit ⊢
    have hfit' := le_min_iff.mp hfit
    rw [← List.append_assoc] at hids
    refine (cutNode_trimmed h hids (by omega) (by omega) (by omega) ⟨by omega, hfit'.1⟩).bind ?_
    rintro s' ⟨h', honly, htrim⟩
    exact Post.ok ⟨h', honly, Or.inr ⟨by simp only; omega, hfit'.2,
      ⟨s.nodes ptr, hmem, by simp only; omega, hfit'.1⟩, htrim⟩⟩

end Alloc

/-! ## All runs -/

/-- The calls of the bootstrap allocator. -/
inductive BallocCall where
  | add (w : Which) (from_ to_ : Nat)
  | remove (w : Which) (from_ to_ : Nat)
  | alloc (size align from_ to_ : Nat)

/-- `__balloc_add_range`, `__balloc_remove_range` and `__balloc_alloc` with `from <= to`. -/
def ballocCalls : CallSystem Balloc BallocCall Stop where
  legal _
    | .add _ from_ to_ => from_ ≤ to_
    | .remove _ from_ to_ => from_ ≤ to_
    | .alloc _ _ from_ to_ => from_ ≤ to_
  exec s
    | .add w from_ to_ => addRange s w from_ to_
    | .remove w from_ to_ => removeRange s w from_ to_
    | .alloc size align from_ to_ => do
      let (s, _) ← ballocAllocRaw s size align from_ to_
      return s

/-- **Each call keeps the invariant**, or finds the pool of nodes empty. -/
theorem ballocCalls_keeps : ballocCalls.Keeps NoNode fun s => BallocInv s [] := by
  intro s c h hc
  cases c with
  | add w from_ to_ => exact ((addRange_inv h hc).mono fun s' hs => hs.1).weaken fun _ he => he.1
  | remove w from_ to_ => exact (removeRange_spec h hc).mono fun s' hs => hs.1
  | alloc size align from_ to_ =>
    exact (@ballocAllocRaw_inv _ _ size align from_ to_ h).bind
      fun p hp => Post.ok hp.1

theorem ballocSetupNodes_inv : BallocInv ballocSetupNodes [] where
  owned := by
    refine ⟨fun _ => RbTree.Valid.leaf, ?_⟩
    have hfree : ballocSetupNodes.freeList = (List.range BALLOC_MAX_RANGES).reverse := by
      have h : ballocSetupNodes.freeList = (List.range BALLOC_MAX_RANGES).reverse ++ [] :=
        List.foldl_flip_cons_eq_append'
      rwa [List.append_nil] at h
    simp only [Balloc.ids, ballocSetupNodes, RbTree.toList, List.append_nil,
      List.nil_append] at hfree ⊢
    rw [hfree]
    exact List.reverse_perm _
  ordered := fun _ => ⟨by simp [Balloc.ranges, Balloc.ids, ballocSetupNodes, RbTree.toList],
    by simp [Balloc.ranges, Balloc.ids, ballocSetupNodes, RbTree.toList]⟩

/-- **The representation invariant of the bootstrap allocator** after any run of calls: both trees
are sorted, disjoint and do not touch, every node is in exactly one of the free list and the two
trees, and a call can only stop because no node is left.  In particular no node that is still linked
is ever freed: that would be a `fault`. -/
theorem balloc_representation (s : Balloc) (hrun : ballocCalls.Run ballocSetupNodes s) :
    (∀ w, RangesOk (s.ranges w)) ∧
    (s.freeList ++ (s.ids .memoryMap ++ s.ids .freeRanges)).Perm (List.range BALLOC_MAX_RANGES) ∧
    ∀ c, ballocCalls.legal s c →
      (∃ s', ballocCalls.exec s c = .ok s') ∨
          ballocCalls.exec s c = .error (.bug .ballocNoNode) := by
  have h := ballocCalls_keeps.run ballocSetupNodes_inv hrun
  refine ⟨h.ordered, h.owned.nodes, fun c hc => ?_⟩
  have hends := ballocCalls_keeps.ends ballocSetupNodes_inv hrun hc
  cases hx : ballocCalls.exec s c with
  | ok s' => exact Or.inl ⟨s', rfl⟩
  | error e => exact Or.inr (congrArg Except.error (hends.err_of_eq hx))

/-- `from <= to`. -/
def BallocCall.ordered : BallocCall → Bool
  | .add _ from_ to_ => decide (from_ ≤ to_)
  | .remove _ from_ to_ => decide (from_ ≤ to_)
  | .alloc _ _ from_ to_ => decide (from_ ≤ to_)

theorem BallocCall.ordered_legal (s : Balloc) (c : BallocCall) (h : c.ordered = true) :
    ballocCalls.legal s c := by
  cases c with
  | add w from_ to_ => exact (of_decide_eq_true h : from_ ≤ to_)
  | remove w from_ to_ => exact (of_decide_eq_true h : from_ ≤ to_)
  | alloc size align from_ to_ => exact (of_decide_eq_true h : from_ ≤ to_)

/-- A range with a hole, and a block at its start. -/
def holeAndBlock : List BallocCall :=
  [.add .memoryMap 0x1000 0x9000, .add .freeRanges 0x1000 0x9000, .remove .freeRanges 0x3000 0x4000,
    .alloc 0x40 0x40 0 0x10000]

theorem balloc_representation_holeAndBlock : ∃ s, ballocCalls.Run ballocSetupNodes s ∧
    s.ranges .freeRanges = [⟨0x1040, 0x3000⟩, ⟨0x4000, 0x9000⟩] ∧ (∀ w, RangesOk (s.ranges w)) ∧
    (s.freeList ++ (s.ids .memoryMap ++ s.ids .freeRanges)).Perm (List.range BALLOC_MAX_RANGES) ∧
    ∀ c, ballocCalls.legal s c →
      (∃ s', ballocCalls.exec s c = .ok s') ∨
          ballocCalls.exec s c = .error (.bug .ballocNoNode) := by
  obtain ⟨s, hrun, hs⟩ := @CallSystem.exists_run _ _ _ ballocCalls ballocSetupNodes
    (fun _ => BallocCall.ordered) BallocCall.ordered_legal holeAndBlock
    (fun s => s.ranges .freeRanges = [⟨0x1040, 0x3000⟩, ⟨0x4000, 0x9000⟩]) _ (by decide +kernel)
  exact ⟨s, hrun, hs, balloc_representation s hrun⟩

end AuOs
