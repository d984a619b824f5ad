import Mathlib
import AuOs.Balloc.Cover

/-!
# First fit

* `alignAddr_le` — rounding up to a power of two gives the least multiple.
* `Fits` — an address that `__balloc_alloc` may return.
* `pieceCount`, `cutNode_stop` — cutting a node stops exactly when there are fewer nodes than
  pieces.
* `ballocAllocRaw_lowest` — the search ends at the lowest address that fits.
* `first_fit` — `__balloc_alloc` takes the lowest address that fits, and exactly the block leaves
  the free ranges.  `alloc_needs_node` is a pool whose last node is in use.
-/

set_option autoImplicit false

namespace AuOs

/-! ## Rounding up -/

/-- The rounded address is a multiple. -/
theorem dvd_alignAddr {b k : Nat} (h : b + 2 ^ k ≤ WORD) : 2 ^ k ∣ alignAddr b (2 ^ k) := by
  have hpos : 0 < 2 ^ k := Nat.two_pow_pos k
  have hmask : (2 ^ k + WORD - 1) % WORD = 2 ^ k - 1 := by
    rw [show 2 ^ k + WORD - 1 = 2 ^ k - 1 + WORD by omega, Nat.add_mod_right]
    exact Nat.mod_eq_of_lt (by omega)
  have hk : 2 ^ k ∣ WORD := by
    apply Nat.pow_dvd_pow
    by_contra hk
    have : WORD < 2 ^ k := Nat.pow_lt_pow_right (by decide) (not_le.mp hk)
    omega
  have hzero : (WORD - 1 - (2 ^ k - 1)) % 2 ^ k = 0 := by
    rw [show WORD - 1 - (2 ^ k - 1) = WORD - 2 ^ k by omega]
    exact Nat.mod_eq_zero_of_dvd (Nat.dvd_sub hk (dvd_refl _))
  apply Nat.dvd_of_mod_eq_zero
  unfold alignAddr
  simp only
  rw [hmask, Nat.and_mod_two_pow, hzero, Nat.and_zero]

/-- **The least multiple** from `b` on. -/
theorem alignAddr_le {b k a : Nat} (h : b + 2 ^ k ≤ WORD) (ha : 2 ^ k ∣ a) (hb : b ≤ a) :
    alignAddr b (2 ^ k) ≤ a := by
  obtain ⟨_, hlt⟩ := alignAddr_spec (Nat.two_pow_pos k) h
  obtain ⟨q, hq⟩ := dvd_alignAddr h
  obtain ⟨q', rfl⟩ := ha
  rw [hq] at hlt ⊢
  by_contra hgt
  have hqq : q' + 1 ≤ q := Nat.lt_of_mul_lt_mul_left (not_le.mp hgt)
  have := Nat.mul_le_mul_left (2 ^ k) hqq
  rw [Nat.mul_add, Nat.mul_one] at this
  omega

/-! ## The lowest address -/

/-- An aligned block of the window inside a single range. -/
structure Fits (l : List MemoryNode) (size align from_ to_ a : Nat) : Prop where
  aligned : align ∣ a
  from_le : from_ ≤ a
  le_to : a + size ≤ to_
  inside : ∃ r ∈ l, r.begin_ ≤ a ∧ a + size ≤ r.end_

/-- The lowest of them. -/
def LowestFit (l : List MemoryNode) (size align from_ to_ a : Nat) : Prop :=
  Fits l size align from_ to_ a ∧ ∀ a', Fits l size align from_ to_ a' → a ≤ a'

section FirstFit

variable {s : Balloc} {held A B : List Nat} {w : Which} {size align from_ to_ ptr lo hi k : Nat}

/-- A node with room for a block is one that the search accepts, at the same address or below. -/
theorem FitsNode.of_fits {a : Nat} (hptr : (s.nodes ptr).begin_ ≤ (s.nodes ptr).end_)
    (hfrom : from_ < (s.nodes ptr).end_) (hov : (s.nodes ptr).end_ + size + 2 ^ k ≤ WORD)
    (ha : 2 ^ k ∣ a) (hfa : from_ ≤ a) (hto : a + size ≤ to_) (hb : (s.nodes ptr).begin_ ≤ a)
    (he : a + size ≤ (s.nodes ptr).end_) :
    FitsNode s size (2 ^ k) from_ to_ ptr ∧ tryAddr s (2 ^ k) from_ ptr ≤ a := by
  obtain ⟨b, rfl, hword, htry, _, hmod⟩ := tryAddr_spec (Nat.two_pow_pos k) hptr hfrom hov
  have hle : tryAddr s (2 ^ k) from_ ptr ≤ a := by
    rw [htry]
    exact alignAddr_le hword ha (max_le hb hfa)
  refine ⟨?_, hle⟩
  unfold FitsNode
  rw [hmod]
  omega

/-! ## Running out of nodes -/

/-- The pieces that are left of a range. -/
def pieceCount (node : MemoryNode) (lo hi : Nat) : Nat :=
  (if node.begin_ < lo then 1 else 0) + if hi < node.end_ then 1 else 0

/-- Where the nodes are. -/
theorem Owned.count (h : Owned s held) (w : Which) :
    held.length + (s.freeList.length + ((s.ids w).length + (s.ids w.other).length)) =
      BALLOC_MAX_RANGES := by
  have := (h.perm w).length_eq
  simpa using this

theorem OnlyTree.ids_other {s' : Balloc} (h : OnlyTree w held s s') :
    s'.ids w.other = s.ids w.other := by
  rw [Balloc.ids, h.tree]
  rfl

theorem addRange_exhausted (hfree : s.freeList = []) (w : Which) (from_ to_ : Nat) :
    addRange s w from_ to_ = .error (.bug .ballocNoNode) := by
  unfold addRange linkRange ballocAllocNode
  rw [hfree]
  rfl

/-- **Cutting stops when fewer nodes are free than pieces are left**, and only then: the node of the
range is free again after its pieces were inserted. -/
theorem cutNode_stop (h : BallocInv s held) (hids : s.ids w = A ++ ptr :: B)
    (hlo : lo ≤ (s.nodes ptr).end_) :
    Post (cutNode s w ptr lo hi)
      (fun e => NoNode e ∧ s.freeList.length < pieceCount (s.nodes ptr) lo hi) fun _ =>
      pieceCount (s.nodes ptr) lo hi ≤ s.freeList.length := by
  have hok := h.ordered w
  rw [Balloc.ranges, hids] at hok
  obtain ⟨_, hpB, hAp⟩ := List.pairwise_append.mp (List.pairwise_map.mp hok.apart)
  obtain ⟨s₁, hun, h₁, hids₁, honly₁, hnodes₁⟩ := unlinkNode_inv h hids
  have hcount := h.owned.count w
  have hcount₁ := h₁.owned.count w
  rw [hids₁, honly₁.ids_other] at hcount₁
  rw [hids] at hcount
  simp only [List.length_append, List.length_cons] at hcount hcount₁
  unfold cutNode
  rw [hun, ok_bind]
  -- The piece before `lo` takes one node.
  have hleft : Post (if (s₁.nodes ptr).begin_ < lo then addRange s₁ w (s₁.nodes ptr).begin_ lo
      else .ok s₁) (fun e => NoNode e ∧ s.freeList.length < pieceCount (s.nodes ptr) lo hi)
          fun s₂ =>
      BallocInv s₂ (ptr :: held) ∧ s₂.nodes ptr = s.nodes ptr ∧
      s.freeList.length = s₂.freeList.length + if (s.nodes ptr).begin_ < lo then 1 else 0 := by
    rw [hnodes₁]
    split
    · rename_i hlt
      have hstop : Post (addRange s₁ w (s.nodes ptr).begin_ lo)
          (fun e => NoNode e ∧ s.freeList.length < pieceCount (s.nodes ptr) lo hi)
              fun _ => True := by
        refine ((addRange_inv h₁ hlt.le).mono fun _ _ => trivial).weaken ?_
        rintro e ⟨he, hempty⟩
        rw [hempty, List.length_nil] at hcount₁
        unfold pieceCount
        rw [if_pos hlt]
        exact ⟨he, by omega⟩
      have hapart := addRange_apart h₁ hids₁ hlt.le
        (fun a ha => by
          rw [hnodes₁]
          exact hAp a ha ptr (by simp))
        (fun b hb => by
          rw [hnodes₁]
          exact lt_of_le_of_lt hlo ((List.pairwise_cons.mp hpB).1 b hb))
      refine (hstop.and_ok (hapart.weaken fun _ _ => trivial)).mono ?_
      rintro s₂ ⟨_, h₂, honly₂, new, _, hids₂, _⟩
      have hcount₂ := h₂.owned.count w
      rw [hids₂, honly₂.ids_other, honly₁.ids_other] at hcount₂
      simp only [List.length_append, List.length_cons] at hcount₂
      refine ⟨h₂, ?_, by omega⟩
      rw [honly₂.nodes ptr (by simp), hnodes₁]
    · exact Post.ok ⟨h₁, by rw [hnodes₁], by omega⟩
  refine hleft.bind ?_
  rintro s₂ ⟨h₂, hptr₂, hfree₂⟩
  -- The piece behind `hi` takes one more.
  have hright : Post (if (s₂.nodes ptr).end_ > hi then addRange s₂ w hi (s₂.nodes ptr).end_
      else .ok s₂) (fun e => NoNode e ∧ s.freeList.length < pieceCount (s.nodes ptr) lo hi)
          fun s₃ =>
      BallocInv s₃ (ptr :: held) ∧ pieceCount (s.nodes ptr) lo hi ≤ s.freeList.length := by
    rw [hptr₂]
    unfold pieceCount
    split
    · rename_i hgt
      by_cases hempty : s₂.freeList = []
      · rw [addRange_exhausted hempty]
        rw [hempty, List.length_nil] at hfree₂
        exact Post.error ⟨rfl, by omega⟩
      · have hpos := List.length_pos_iff.mpr hempty
        exact ((addRange_inv h₂ (le_of_lt hgt)).mono fun _ hs => ⟨hs.1, by omega⟩).weaken
          fun e he => absurd he.2 hempty
    · exact Post.ok ⟨h₂, by omega⟩
  refine hright.bind ?_
  rintro s₃ ⟨h₃, hpieces⟩
  obtain ⟨s₄, hfree, _⟩ := ballocFreeNode_inv h₃
  rw [hfree]
  exact hpieces

/-! ## `__balloc_alloc` -/

/-- **What the search ends with**: no address fits, or the lowest one is cut out of its node. -/
theorem ballocAllocRaw_lowest (h : BallocInv s held) (hsize : 0 < size)
    (hov : ∀ r ∈ s.ranges .freeRanges, r.end_ + size + 2 ^ k ≤ WORD) :
    (ballocAllocRaw s size (2 ^ k) from_ to_ = .ok (s, to_) ∧
      ∀ a, ¬ Fits (s.ranges .freeRanges) size (2 ^ k) from_ to_ a) ∨
    ∃ a A ptr B, s.ids .freeRanges = A ++ ptr :: B ∧
      LowestFit (s.ranges .freeRanges) size (2 ^ k) from_ to_ a ∧
      (s.nodes ptr).begin_ ≤ a ∧ a + size ≤ (s.nodes ptr).end_ ∧
      ballocAllocRaw s size (2 ^ k) from_ to_ = do
        let s' ← cutNode s .freeRanges ptr a (a + size)
        return (s', a) := by
  obtain ⟨C, B, hids, hC, hB, hsearch⟩ := @ballocAllocRaw_search _ _ size (2 ^ k) from_ to_ h
  have hmem : ∀ q ∈ C ++ B, s.nodes q ∈ s.ranges .freeRanges := by
    intro q hq
    rw [Balloc.ranges, hids]
    exact List.mem_map_of_mem hq
  -- A block lies in a node of the search, which would have been accepted.
  have hfits : ∀ a, Fits (s.ranges .freeRanges) size (2 ^ k) from_ to_ a → ∃ q ∈ B,
      (s.nodes q).begin_ ≤ a ∧ (s.nodes q).begin_ < to_ ∧ FitsNode s size (2 ^ k) from_ to_ q ∧
      tryAddr s (2 ^ k) from_ q ≤ a := by
    rintro a ⟨ha, hfa, hto, r, hr, hb, he⟩
    rw [Balloc.ranges, hids] at hr
    obtain ⟨q, hq, rfl⟩ := List.mem_map.mp hr
    rcases List.mem_append.mp hq with hqC | hqB
    · have := hC q hqC
      omega
    · obtain ⟨hfit, hle⟩ := FitsNode.of_fits ((h.ordered .freeRanges).le _ (hmem q hq)) (hB q hqB)
        (hov _ (hmem q hq)) ha hfa hto hb he
      exact ⟨q, hqB, hb, by omega, hfit, hle⟩
  rcases hsearch with ⟨hnone, hall⟩ | ⟨A, ptr, B', rfl, hfit, hbefore, heq⟩
  · refine Or.inl ⟨hnone, ?_⟩
    intro a ha
    obtain ⟨q, hq, _, hlt, hfit, _⟩ := hfits a ha
    exact hall q hq hlt hfit
  · have hptr := (h.ordered .freeRanges).le _ (hmem ptr (by simp))
    obtain ⟨b, rfl, hword, htry, hle, hmod⟩ :=
      tryAddr_spec (Nat.two_pow_pos k) hptr (hB ptr (by simp)) (hov _ (hmem ptr (by simp)))
    have hfit' := hfit
    unfold FitsNode at hfit'
    rw [hmod] at hfit' heq
    generalize ha : tryAddr s (2 ^ k) from_ ptr = a at *
    rw [← List.append_assoc] at hids
    refine Or.inr ⟨a, C ++ A, ptr, B', hids, ⟨?_, ?_⟩, by omega, by omega, heq⟩
    · have hdvd : 2 ^ k ∣ a := by
        rw [htry]
        exact dvd_alignAddr hword
      exact ⟨hdvd, by omega, by omega, s.nodes ptr, hmem ptr (by simp), by omega, by omega⟩
    · intro a' ha'
      obtain ⟨q, hq, hbq, _, hfitq, hleq⟩ := hfits a' ha'
      rcases List.mem_append.mp hq with hqA | hqB
      · exact absurd hfitq (hbefore q hqA)
      rcases List.mem_cons.mp hqB with rfl | hqB'
      · exact ha ▸ hleq
      · -- The later nodes begin behind the block.
        have hok := h.ordered .freeRanges
        rw [Balloc.ranges, hids, List.map_append, List.map_cons] at hok
        have hafter := (List.pairwise_cons.mp (List.pairwise_append.mp hok.apart).2.1).1 _
          (List.mem_map_of_mem hqB')
        omega

/-- **`__balloc_alloc` is first fit**: it takes the lowest address that fits, and exactly the block
leaves the free ranges, unless fewer nodes are free than the block leaves pieces of its range. -/
theorem first_fit (h : BallocInv s held) (hsize : 0 < size)
    (hov : ∀ r ∈ s.ranges .freeRanges, r.end_ + size + 2 ^ k ≤ WORD) :
    ((∀ a, ¬ Fits (s.ranges .freeRanges) size (2 ^ k) from_ to_ a) →
      ballocAllocRaw s size (2 ^ k) from_ to_ = .ok (s, to_)) ∧
    ∀ a, LowestFit (s.ranges .freeRanges) size (2 ^ k) from_ to_ a →
      ∃ r ∈ s.ranges .freeRanges, r.begin_ ≤ a ∧ a + size ≤ r.end_ ∧
        (s.freeList.length < pieceCount r a (a + size) →
          ballocAllocRaw s size (2 ^ k) from_ to_ = .error (.bug .ballocNoNode)) ∧
        (pieceCount r a (a + size) ≤ s.freeList.length →
          ∃ s', ballocAllocRaw s size (2 ^ k) from_ to_ = .ok (s', a) ∧ BallocInv s' held ∧
            covered (s'.ranges .freeRanges) = covered (s.ranges .freeRanges) \ Set.Ico a
                (a + size)) := by
  rcases ballocAllocRaw_lowest h hsize hov with ⟨hnone, hno⟩ |
    ⟨a, A, ptr, B, hids, hlow, hb, he, heq⟩
  · exact ⟨fun _ => hnone, fun a ha => absurd ha.1 (hno a)⟩
  · refine ⟨fun hno => absurd hlow.1 (hno a), ?_⟩
    intro a' hlow'
    obtain rfl := Nat.le_antisymm (hlow.2 a' hlow'.1) (hlow'.2 a hlow.1)
    have hptr : s.nodes ptr ∈ s.ranges .freeRanges := by
      rw [Balloc.ranges, hids]
      exact List.mem_map_of_mem (by simp)
    have hcut := (@cutNode_stop _ _ _ _ _ _ _ (a + size) h hids (by omega)).and_ok
      ((cutNode_trimmed h hids (by omega) (by omega) (by omega) ⟨hb, he⟩).weaken fun _ _ => trivial)
    refine ⟨s.nodes ptr, hptr, hb, he, fun hfew => ?_, fun henough => ?_⟩
    · cases hres : cutNode s .freeRanges ptr a (a + size) with
      | error e =>
        obtain rfl := (hcut.err_of_eq hres).1
        rw [heq, hres]
        rfl
      | ok s' => exact absurd (hcut.of_eq hres).1 (not_le.mpr hfew)
    · obtain ⟨s', hres, _, h', _, htrim⟩ :=
        (hcut.weaken fun e he => absurd he.2 (not_lt.mpr henough)).returns
      refine ⟨s', ?_, h', htrim.covered_eq⟩
      rw [heq, hres]
      rfl

end FirstFit

theorem first_fit_two_ranges : ∃ s s', s.ranges .freeRanges = [⟨0x1000, 0x1020⟩, ⟨0x2004, 0x3000⟩] ∧
    ballocAllocRaw s 0x40 (2 ^ 4) 0x1008 0x9000 = .ok (s', 0x2010) ∧
    covered (s'.ranges .freeRanges) = covered (s.ranges .freeRanges) \ Set.Ico 0x2010 0x2050 := by
  have hadd : ∃ s₁, addRange ballocSetupNodes .freeRanges 0x1000 0x1020 = .ok s₁ ∧
      ∃ s, addRange s₁ .freeRanges 0x2004 0x3000 = .ok s ∧
      s.ranges .freeRanges = [⟨0x1000, 0x1020⟩, ⟨0x2004, 0x3000⟩] ∧ s.freeList.length = 126 :=
    ⟨_, rfl, _, rfl, rfl, rfl⟩
  obtain ⟨s₁, h₁, s, h₂, hr, hfree⟩ := hadd
  have hinv₁ := ((addRange_inv (w := .freeRanges) ballocSetupNodes_inv (by decide)).of_eq h₁).1
  have hinv := ((addRange_inv (w := .freeRanges) hinv₁ (by decide)).of_eq h₂).1
  have hov : ∀ r ∈ s.ranges .freeRanges, r.end_ + 0x40 + 2 ^ 4 ≤ WORD := by
    rw [hr]
    decide
  have hlow : LowestFit (s.ranges .freeRanges) 0x40 (2 ^ 4) 0x1008 0x9000 0x2010 := by
    rw [hr]
    refine ⟨⟨by decide, by decide, by decide, ⟨0x2004, 0x3000⟩, by simp, by decide, by decide⟩, ?_⟩
    rintro a ⟨⟨q, rfl⟩, hfrom, _, r, hmem, hb, he⟩
    rcases List.mem_pair.mp hmem with rfl | rfl
    · simp only at hb he
      omega
    · simp only at hb he
      omega
  obtain ⟨r, _, _, _, _, hok⟩ := (first_fit hinv (by decide) hov).2 _ hlow
  obtain ⟨s', halloc, _, hcov⟩ := hok (by unfold pieceCount; split <;> split <;> omega)
  exact ⟨s, s', hr, halloc, hcov⟩

/-! ## A pool without free nodes -/

/-- A range of eight bytes. -/
def smallRange (i : Nat) : MemoryNode := ⟨16 * i, 16 * i + 8⟩

/-- As many ranges as there are nodes. -/
theorem small_ranges : ∀ n ≤ BALLOC_MAX_RANGES, ∃ s, ballocCalls.Run ballocSetupNodes s ∧
    BallocInv s [] ∧ s.freeList.length + n = BALLOC_MAX_RANGES ∧
    s.ranges .freeRanges = (List.range n).map smallRange
  | 0, _ => ⟨ballocSetupNodes, .refl, ballocSetupNodes_inv, rfl, rfl⟩
  | n + 1, hn => by
    obtain ⟨s, hrun, h, hfree, hranges⟩ := small_ranges n (Nat.le_of_succ_le hn)
    have hids : s.ids .freeRanges = s.ids .freeRanges ++ [] := (List.append_nil _).symm
    have hle : 16 * n ≤ 16 * n + 8 := Nat.le_add_right ..
    have hA : ∀ a ∈ s.ids .freeRanges, (s.nodes a).end_ < 16 * n := by
      intro a ha
      have hmem : s.nodes a ∈ s.ranges .freeRanges := List.mem_map_of_mem ha
      rw [hranges] at hmem
      obtain ⟨i, hi, heq⟩ := List.mem_map.mp hmem
      have := List.mem_range.mp hi
      rw [← heq]
      show 16 * i + 8 < 16 * n
      omega
    have hstop : Post (addRange s .freeRanges (16 * n) (16 * n + 8)) (fun _ => False) fun s' =>
        BallocInv s' [] ∧ OnlyTree .freeRanges [] s s' := by
      refine ((addRange_inv h hle).mono fun _ hs => ⟨hs.1, hs.2.1⟩).weaken ?_
      rintro e ⟨_, hempty⟩
      rw [hempty, List.length_nil] at hfree
      omega
    have hapart := (addRange_apart h hids hle hA (by simp)).weaken fun _ _ => trivial
    obtain ⟨s', hadd, ⟨h', honly⟩, _, _, new, hnew, hids', hnodes⟩ := (hstop.and_ok hapart).returns
    have hcount := h.owned.count .freeRanges
    have hcount' := h'.owned.count .freeRanges
    rw [hids', honly.ids_other] at hcount'
    simp only [List.length_append, List.length_cons, List.length_nil] at hcount hcount'
    refine ⟨s', hrun.tail ⟨.add .freeRanges (16 * n) (16 * n + 8), hle, hadd⟩, h', by omega, ?_⟩
    rw [List.append_nil] at hnew
    rw [Balloc.ranges, hids', hnodes, List.map_append, map_update_of_notMem hnew, List.range_succ,
      List.map_append, ← hranges, List.map_singleton, Function.update_self]
    rfl

/-- With every node in use no block can be cut off, although there is room for it. -/
theorem alloc_needs_node : ∃ s, ballocCalls.Run ballocSetupNodes s ∧ BallocInv s [] ∧
    (∀ r ∈ s.ranges .freeRanges, r.end_ + 1 + 2 ^ 0 ≤ WORD) ∧
    Fits (s.ranges .freeRanges) 1 (2 ^ 0) 0 8 0 ∧
    ballocAllocRaw s 1 (2 ^ 0) 0 8 = .error (.bug .ballocNoNode) := by
  obtain ⟨s, hrun, h, hfree, hranges⟩ := small_ranges BALLOC_MAX_RANGES le_rfl
  have hempty : s.freeList = [] := List.length_eq_zero_iff.mp (by omega)
  have hsmall : ∀ r ∈ s.ranges .freeRanges, ∃ i < BALLOC_MAX_RANGES, r = smallRange i := by
    intro r hr
    rw [hranges] at hr
    obtain ⟨i, hi, rfl⟩ := List.mem_map.mp hr
    exact ⟨i, List.mem_range.mp hi, rfl⟩
  have hov : ∀ r ∈ s.ranges .freeRanges, r.end_ + 1 + 2 ^ 0 ≤ WORD := by
    intro r hr
    obtain ⟨i, hi, rfl⟩ := hsmall r hr
    rw [show BALLOC_MAX_RANGES = 128 from rfl] at hi
    show 16 * i + 8 + 1 + 1 ≤ 18446744073709551616
    omega
  have hfits : Fits (s.ranges .freeRanges) 1 (2 ^ 0) 0 8 0 := by
    refine ⟨dvd_zero _, le_rfl, by decide, smallRange 0, ?_, le_rfl, by decide⟩
    rw [hranges]
    exact List.mem_map_of_mem (List.mem_range.mpr (by decide))
  refine ⟨s, hrun, h, hov, hfits, ?_⟩
  rcases ballocAllocRaw_lowest h (by decide) hov with
    ⟨_, hno⟩ | ⟨a, A, ptr, B, hids, _, hb, he, heq⟩
  · exact absurd hfits (hno 0)
  · have hmem : s.nodes ptr ∈ s.ranges .freeRanges := by
      rw [Balloc.ranges, hids]
      exact List.mem_map_of_mem (by simp)
    obtain ⟨i, _, hnode⟩ := hsmall _ hmem
    -- Of eight bytes one is taken: a piece is left before the block or behind it.
    have hpiece : 0 < pieceCount (s.nodes ptr) a (a + 1) := by
      rw [hnode]
      unfold pieceCount smallRange
      simp only
      split <;> split <;> omega
    have hstop := @cutNode_stop _ _ _ _ _ _ a (a + 1) h hids (by omega)
    rw [heq]
    cases hres : cutNode s .freeRanges ptr a (a + 1) with
    | error e =>
      obtain rfl := (hstop.err_of_eq hres).1
      rfl
    | ok s' =>
      have hle := hstop.of_eq hres
      rw [hempty, List.length_nil] at hle
      omega

end AuOs
