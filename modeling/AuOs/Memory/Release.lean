import Mathlib
import AuOs.Memory.ZoneInv

/-!
# Releasing page ranges to a zone

The loop of `__page_alloc_zone_free`: it cuts a page range into aligned blocks, each as large as its
start and the end of the range allow.

* `releaseOrder_spec` — the order chosen at a page: the block is aligned, lies inside the range, and
  the next larger one would not.
* `releaseLoop_spec` — the loop ends (its test `page != end` is never stepped over) and adds exactly
  the pages of the range to the managed ones.
* `noBuddies_of_cut` — blocks released from ranges that do not touch are never buddies.
-/

set_option autoImplicit false

namespace AuOs

open DyadicTiling

/-- A block cannot grow upwards inside a range that ends at `end_`. -/
def Greedy (end_ : Nat) (b : Block) : Prop :=
  b.order < MAX_ORDER → 2 ^ (b.order + 1) ∣ b.start → end_ < b.start + 2 ^ (b.order + 1)

theorem testBit_iff_not_dvd {a k : Nat} (h : 2 ^ k ∣ a) :
    a.testBit k = true ↔ ¬ 2 ^ (k + 1) ∣ a := by
  obtain ⟨q, rfl⟩ := h
  have hpos := Nat.two_pow_pos k
  rw [Nat.testBit_eq_decide_div_mod_eq, Nat.mul_div_cancel_left _ hpos, pow_succ,
    Nat.mul_dvd_mul_iff_left hpos, decide_eq_true_eq]
  omega

theorem releaseOrder_spec {page end_ : Nat} : ∀ (fuel order : Nat), MAX_ORDER < fuel + order →
    order ≤ MAX_ORDER → 2 ^ order ∣ page → page + 2 ^ order ≤ end_ →
    let o := releaseOrder page end_ fuel order
    o ≤ MAX_ORDER ∧ 2 ^ o ∣ page ∧ page + 2 ^ o ≤ end_ ∧ Greedy end_ ⟨page, o⟩
  | 0, order, hf, hle, _, _ => by omega
  | fuel + 1, order, hf, hle, hd, hend => by
    simp only [releaseOrder]
    by_cases ho : order < MAX_ORDER
    · rw [if_pos ho]
      by_cases hbit : page.testBit order = true
      · rw [if_pos hbit]
        exact ⟨hle, hd, hend, fun _ hdvd => absurd hdvd ((testBit_iff_not_dvd hd).mp hbit)⟩
      · rw [if_neg hbit]
        by_cases hgt : page + 2 ^ (order + 1) > end_
        · rw [if_pos hgt]
          exact ⟨hle, hd, hend, fun _ _ => hgt⟩
        · rw [if_neg hgt]
          have hd' : 2 ^ (order + 1) ∣ page := by
            by_contra hn
            exact hbit ((testBit_iff_not_dvd hd).mpr hn)
          exact releaseOrder_spec fuel (order + 1) (by omega) ho hd' (not_lt.mp hgt)
    · rw [if_neg ho]
      exact ⟨hle, hd, hend, fun hlt => absurd hlt ho⟩

/-- Pages that were not managed come in hand as a block. -/
theorem ZoneInv.grow {zone : Zone} {M : Set Nat} {live held : List Block} {b : Block}
    (h : ZoneInv zone M live held) (hb : b.Aligned) (ho : b.order ≤ MAX_ORDER)
    (hd : Disjoint b.cells M) (hin : ∀ i ∈ b.cells, zone.contains i = true) :
    ZoneInv zone (b.cells ∪ M) live (b :: held) where
  tiling := h.tiling.cons hb hd
  inside := fun i hi => hi.elim (hin i) (h.inside i)
  order_le := fun c hc => by
    rcases List.mem_cons.mp hc with rfl | hc
    · exact ho
    · exact h.order_le c hc
  free_desc := h.free_desc
  live_busy := h.live_busy
  wild_busy := fun i hi hM => h.wild_busy i hi fun hi' => hM (Or.inr hi')

/-- **The release loop** adds the pages `[page, end_)`, in blocks that cannot grow upwards. -/
theorem releaseLoop_spec {end_ : Nat} {live : List Block} :
    ∀ (fuel page : Nat) (zone : Zone) (M : Set Nat), ZoneInv zone M live [] →
      page ≤ end_ → end_ < fuel + page →
      (∀ i, page ≤ i → i < end_ → zone.contains i = true ∧ i ∉ M) →
      ∃ zone', releaseLoop end_ fuel zone page = .ok zone' ∧
        ZoneInv zone' ({i | page ≤ i ∧ i < end_} ∪ M) live [] ∧
        (∀ b ∈ freeList zone', b ∈ freeList zone ∨
          page ≤ b.start ∧ b.start + 2 ^ b.order ≤ end_ ∧ Greedy end_ b) ∧
        SameUser zone zone'
  | 0, page, zone, M, _, hle, hf, _ => by omega
  | fuel + 1, page, zone, M, h, hle, hf, hnew => by
    unfold releaseLoop
    by_cases he : page = end_
    · subst he
      have hM : ({i | page ≤ i ∧ i < page} ∪ M) = M := by
        ext i
        simp only [Set.mem_union, Set.mem_ofPred_eq]
        exact or_iff_right (by omega)
      rw [if_pos rfl, hM]
      exact ⟨zone, rfl, h, fun b hb => Or.inl hb, SameUser.refl zone⟩
    · rw [if_neg he]
      obtain ⟨ho, hd, hend, hgreedy⟩ := releaseOrder_spec (MAX_ORDER + 1) 0 (by omega)
        (Nat.zero_le _) (one_dvd page) (by omega : page + 2 ^ 0 ≤ end_)
      simp only
      generalize releaseOrder page end_ (MAX_ORDER + 1) 0 = order at *
      have hpos := Nat.two_pow_pos order
      have hcells : ∀ i ∈ (⟨page, order⟩ : Block).cells, zone.contains i = true ∧ i ∉ M :=
        fun i hi => hnew i hi.1 (hi.2.trans_le hend)
      have hgrow := h.grow (b := ⟨page, order⟩) hd ho
        (Set.disjoint_left.mpr fun i hi => (hcells i hi).2) fun i hi => (hcells i hi).1
      obtain ⟨z₁, hadd, h₁, hp, hsame₁⟩ := hgrow.listAddTail_spec
      obtain ⟨zone', hloop, hinv, hblocks, hsame⟩ :=
        releaseLoop_spec fuel (page + 2 ^ order) z₁ _ h₁ hend (by omega) (fun i hi hi' => ⟨by
          rw [hsame₁.contains]; exact (hnew i (by omega) hi').1, fun hM => by
          rcases hM with hM | hM
          · exact absurd hM.2 (not_lt.mpr hi)
          · exact (hnew i (by omega) hi').2 hM⟩)
      have hset : {i | page + 2 ^ order ≤ i ∧ i < end_} ∪ ((⟨page, order⟩ : Block).cells ∪ M) =
          {i | page ≤ i ∧ i < end_} ∪ M := by
        ext i
        simp only [Set.mem_union, Set.mem_ofPred_eq, Block.mem_cells, ← or_assoc]
        exact or_congr_left (by omega)
      rw [hset] at hinv
      refine ⟨zone', ?_, hinv, fun b hb => ?_, hsame₁.trans hsame⟩
      · obtain ⟨z₂, hz₂, hz₁⟩ := bind_eq_ok.mp hadd
        have hin := (hcells page (Block.start_mem _)).1
        simp only at hz₂ hz₁
        rw [Zone.access, if_pos hin, ok_bind, hz₂, ok_bind, hz₁, ok_bind]
        exact hloop
      · rcases hblocks b hb with hb | ⟨h1, h2, h3⟩
        · rcases List.mem_cons.mp (hp.mem_iff.mp hb) with rfl | hb
          · exact Or.inr ⟨Nat.le_refl _, hend, hgreedy⟩
          · exact Or.inl hb
        · exact Or.inr ⟨by omega, h2, h3⟩

/-! ## Blocks of separated ranges -/

/-- The block was cut from one of the page ranges `(begin, end)`. -/
def CutFrom (ranges : List (Nat × Nat)) (b : Block) : Prop :=
  ∃ r ∈ ranges, r.1 ≤ b.start ∧ b.start + 2 ^ b.order ≤ r.2 ∧ Greedy r.2 b

/-- Two page ranges have at least one page between them, or one of them is empty. -/
def Separated (r s : Nat × Nat) : Prop := r.2 < s.1 ∨ s.2 < r.1 ∨ r.2 ≤ r.1 ∨ s.2 ≤ s.1

theorem Separated.symm {r s : Nat × Nat} (h : Separated r s) : Separated s r := by
  unfold Separated at *; omega

/-- **Blocks cut from separated ranges are never buddies** of an order below `MAX_ORDER`. -/
theorem noBuddies_of_cut {l : List Block} {ranges : List (Nat × Nat)}
    (hsep : ranges.Pairwise Separated) (hal : ∀ b ∈ l, b.Aligned)
    (hcut : ∀ b ∈ l, CutFrom ranges b) : ∀ b ∈ l, b.order < MAX_ORDER → b.buddy ∉ l := by
  intro b hb ho hbuddy
  -- the lower one of the two could have grown, unless the upper one is in another range
  have key : ∀ c ∈ l, c.order < MAX_ORDER → c.buddy ∈ l →
      c.buddy.start = c.start + 2 ^ c.order → 2 ^ (c.order + 1) ∣ c.start → False := by
    intro c hc hco hcb hstart hdvd
    obtain ⟨r, hr, h1, h2, hg⟩ := hcut c hc
    obtain ⟨s, hs, h3, h4, _⟩ := hcut _ hcb
    have hpos := Nat.two_pow_pos c.order
    rw [Block.buddy_order, hstart] at h4
    rw [hstart] at h3
    have hgr := hg hco hdvd
    rw [pow_succ] at hgr
    by_cases hrs : r = s
    · subst hrs; omega
    · have : Std.Symm Separated := ⟨fun _ _ h => h.symm⟩
      have := hsep.forall hr hs hrs
      unfold Separated at this
      omega
  rcases Block.buddy_cases (hal b hb) with ⟨_, hs, hd⟩ | ⟨_, hs, hd⟩
  · exact key b hb ho hbuddy hs hd
  · refine key b.buddy hbuddy ho (by rwa [Block.buddy_buddy]) ?_ hd
    rw [Block.buddy_buddy, Block.buddy_order]
    exact hs

end AuOs
