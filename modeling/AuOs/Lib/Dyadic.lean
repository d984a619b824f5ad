import Mathlib

/-!
# Aligned power-of-two blocks and their tilings

The arithmetic behind a binary buddy scheme, over `Nat` and independent of any program.

* `Block` — `2 ^ order` consecutive numbers from `start`; `Block.Aligned` says that `start` is a
  multiple of the size.  Two aligned blocks that meet are nested (`Block.cells_subset`).
* `Block.buddy`, `Block.parent`, `Block.low`, `Block.high` — the `xor` buddy of a block, the block
  of the next order that contains both, and the two halves of a block of positive order.
* `Tiling l M` — the aligned blocks of the list `l` are pairwise disjoint and cover exactly `M`.
  It is stable under permutation, splitting, merging, adding and removing a block.
* `Tiling.exists_superblock` — in a tiling without a pair of buddies, an aligned block of covered
  numbers lies inside a single block of the tiling.
* `Tiling.mem_iff_canonical` — such a tiling is determined by the set it covers: its blocks are the
  maximal aligned blocks inside that set.
-/

set_option autoImplicit false

namespace DyadicTiling

/-- `xor` with `2 ^ k` acts on the quotient of a multiple of `2 ^ k`. -/
theorem mul_xor_two_pow (q k : Nat) : 2 ^ k * q ^^^ 2 ^ k = 2 ^ k * (q ^^^ 1) := by
  have hpos : 0 < 2 ^ k := Nat.two_pow_pos k
  have hdiv : (2 ^ k * q ^^^ 2 ^ k) / 2 ^ k = q ^^^ 1 := by
    rw [Nat.xor_div_two_pow, Nat.mul_div_cancel_left _ hpos, Nat.div_self hpos]
  have hmod : (2 ^ k * q ^^^ 2 ^ k) % 2 ^ k = 0 := by
    rw [Nat.xor_mod_two_pow, Nat.mul_mod_right, Nat.mod_self, Nat.xor_self]
  have := Nat.div_add_mod (2 ^ k * q ^^^ 2 ^ k) (2 ^ k)
  rw [hdiv, hmod] at this
  omega

theorem xor_two_pow_of_dvd {a k : Nat} (h : 2 ^ (k + 1) ∣ a) : a ^^^ 2 ^ k = a + 2 ^ k := by
  obtain ⟨r, rfl⟩ := h
  have he : Even (2 * r) := even_two_mul r
  rw [pow_succ, Nat.mul_assoc, mul_xor_two_pow, Nat.xor_one_of_even he, Nat.mul_add, Nat.mul_one]

theorem xor_two_pow_of_not_dvd {a k : Nat} (h : 2 ^ k ∣ a) (hn : ¬ 2 ^ (k + 1) ∣ a) :
    a ^^^ 2 ^ k = a - 2 ^ k ∧ 2 ^ k ≤ a ∧ 2 ^ (k + 1) ∣ a - 2 ^ k := by
  obtain ⟨q, rfl⟩ := h
  rw [pow_succ, Nat.mul_dvd_mul_iff_left (Nat.two_pow_pos k)] at hn
  have ho : Odd q := Nat.not_even_iff_odd.mp (fun h => hn (even_iff_two_dvd.mp h))
  have hsub : 2 ^ k * q - 2 ^ k = 2 ^ k * (q - 1) := by rw [Nat.mul_sub, Nat.mul_one]
  refine ⟨by rw [mul_xor_two_pow, Nat.xor_one_of_odd ho, hsub], ?_, ?_⟩
  · exact Nat.le_mul_of_pos_right _ (by omega)
  · rw [pow_succ, hsub]
    exact Nat.mul_dvd_mul_left _ (by omega)

/-- `2 ^ order` consecutive numbers from `start`. -/
structure Block where
  start : Nat
  order : Nat
  deriving DecidableEq, Repr

namespace Block

/-- The numbers of a block. -/
def cells (b : Block) : Set Nat := {i | b.start ≤ i ∧ i < b.start + 2 ^ b.order}

/-- The start of the block is a multiple of its size. -/
def Aligned (b : Block) : Prop := 2 ^ b.order ∣ b.start

instance (b : Block) : Decidable b.Aligned := inferInstanceAs (Decidable (_ ∣ _))

@[simp] theorem mem_cells {b : Block} {i : Nat} :
    i ∈ b.cells ↔ b.start ≤ i ∧ i < b.start + 2 ^ b.order := Iff.rfl

theorem start_mem (b : Block) : b.start ∈ b.cells := by
  have := Nat.two_pow_pos b.order
  simp only [mem_cells]; omega

/-- Membership in an aligned block is a comparison of quotients. -/
theorem mem_cells_iff_div {b : Block} (hb : b.Aligned) {i : Nat} :
    i ∈ b.cells ↔ i / 2 ^ b.order = b.start / 2 ^ b.order := by
  obtain ⟨q, hq⟩ := hb
  have hpos : 0 < 2 ^ b.order := Nat.two_pow_pos b.order
  rw [mem_cells, hq, Nat.mul_div_cancel_left _ hpos, Nat.div_eq_iff hpos, Nat.mul_comm q]
  omega

/-- **Aligned blocks that meet are nested.** -/
theorem cells_subset {b c : Block} (hb : b.Aligned) (hc : c.Aligned) (hle : b.order ≤ c.order)
    {i : Nat} (hib : i ∈ b.cells) (hic : i ∈ c.cells) : b.cells ⊆ c.cells := by
  intro j hj
  rw [mem_cells_iff_div hb] at hib hj
  rw [mem_cells_iff_div hc] at hic ⊢
  have hpow : 2 ^ c.order = 2 ^ b.order * 2 ^ (c.order - b.order) := by
    rw [← pow_add]; congr 1; omega
  rw [← hic, hpow, ← Nat.div_div_eq_div_mul, ← Nat.div_div_eq_div_mul, hj, ← hib]

theorem eq_of_mem {b c : Block} (hb : b.Aligned) (hc : c.Aligned) (ho : b.order = c.order)
    {i : Nat} (hib : i ∈ b.cells) (hic : i ∈ c.cells) : b = c := by
  have h1 := cells_subset hb hc ho.le hib hic b.start_mem
  have h2 := cells_subset hc hb ho.ge hic hib c.start_mem
  cases b; cases c
  simp only [mem_cells] at h1 h2 ho ⊢
  simp only [Block.mk.injEq]
  omega

/-! ## Halves, parent and buddy -/

/-- The lower half of a block. -/
def low (b : Block) : Block := ⟨b.start, b.order - 1⟩

/-- The upper half of a block. -/
def high (b : Block) : Block := ⟨b.start + 2 ^ (b.order - 1), b.order - 1⟩

/-- The block of the same size whose start differs in the size bit. -/
def buddy (b : Block) : Block := ⟨b.start ^^^ 2 ^ b.order, b.order⟩

/-- The block of the next order that contains the block and its buddy. -/
def parent (b : Block) : Block := ⟨min b.start (b.start ^^^ 2 ^ b.order), b.order + 1⟩

@[simp] theorem buddy_order (b : Block) : b.buddy.order = b.order := rfl
@[simp] theorem parent_order (b : Block) : b.parent.order = b.order + 1 := rfl

@[simp] theorem buddy_buddy (b : Block) : b.buddy.buddy = b := by
  cases b; simp [buddy]

theorem buddy_ne (b : Block) : b.buddy ≠ b := by
  intro h
  have h1 : b.start ^^^ 2 ^ b.order = b.start := congrArg Block.start h
  have h2 : b.start ^^^ (b.start ^^^ 2 ^ b.order) = 2 ^ b.order := Nat.xor_xor_cancel_left ..
  rw [h1, Nat.xor_self] at h2
  have := Nat.two_pow_pos b.order
  omega

/-- An aligned block is either the lower or the upper half of its parent. -/
theorem buddy_cases {b : Block} (hb : b.Aligned) :
    (b.parent.start = b.start ∧ b.buddy.start = b.start + 2 ^ b.order ∧
      2 ^ (b.order + 1) ∣ b.start) ∨
    (b.parent.start = b.buddy.start ∧ b.start = b.buddy.start + 2 ^ b.order ∧
      2 ^ (b.order + 1) ∣ b.buddy.start) := by
  have hpos := Nat.two_pow_pos b.order
  by_cases h : 2 ^ (b.order + 1) ∣ b.start
  · have hx := xor_two_pow_of_dvd h
    left
    simp only [parent, buddy, hx]
    exact ⟨by omega, trivial, h⟩
  · obtain ⟨hx, hle, hd⟩ := xor_two_pow_of_not_dvd hb h
    right
    simp only [parent, buddy, hx]
    exact ⟨by omega, by omega, hd⟩

theorem Aligned.buddy {b : Block} (hb : b.Aligned) : b.buddy.Aligned := by
  rcases buddy_cases hb with ⟨_, h, _⟩ | ⟨_, _, h⟩
  · rw [Aligned, h]; exact Nat.dvd_add hb (Nat.dvd_refl _)
  · exact (Nat.pow_dvd_pow 2 (Nat.le_succ _)).trans h

theorem Aligned.parent {b : Block} (hb : b.Aligned) : b.parent.Aligned := by
  rcases buddy_cases hb with ⟨hs, _, h⟩ | ⟨hs, _, h⟩
  · rw [Aligned, hs]; exact h
  · rw [Aligned, hs]; exact h

/-- The parent is the union of the block and its buddy. -/
theorem parent_cells {b : Block} (hb : b.Aligned) : b.parent.cells = b.cells ∪ b.buddy.cells := by
  ext i
  simp only [mem_cells, Set.mem_union, parent_order, buddy_order, pow_succ]
  rcases buddy_cases hb with ⟨hs, hd, _⟩ | ⟨hs, hd, _⟩ <;> omega

theorem disjoint_buddy {b : Block} (hb : b.Aligned) : Disjoint b.cells b.buddy.cells := by
  rw [Set.disjoint_left]
  intro i h1 h2
  exact b.buddy_ne (eq_of_mem hb.buddy hb rfl h2 h1)

theorem Aligned.low {b : Block} (hb : b.Aligned) : b.low.Aligned :=
  (Nat.pow_dvd_pow 2 (Nat.sub_le _ _)).trans hb

theorem Aligned.high {b : Block} (hb : b.Aligned) : b.high.Aligned :=
  Nat.dvd_add ((Nat.pow_dvd_pow 2 (Nat.sub_le _ _)).trans hb) (Nat.dvd_refl _)

theorem low_dvd {b : Block} (hb : b.Aligned) (ho : 0 < b.order) :
    2 ^ (b.low.order + 1) ∣ b.low.start := by
  rw [Block.low, Nat.sub_add_cancel ho]; exact hb

/-- The halves of a block of positive order are buddies. -/
theorem low_buddy {b : Block} (hb : b.Aligned) (ho : 0 < b.order) : b.low.buddy = b.high := by
  have h := xor_two_pow_of_dvd (low_dvd hb ho)
  simp only [Block.buddy, h]
  rfl

theorem low_parent {b : Block} (hb : b.Aligned) (ho : 0 < b.order) : b.low.parent = b := by
  have h := xor_two_pow_of_dvd (low_dvd hb ho)
  simp only [Block.parent, h, Nat.min_eq_left (Nat.le_add_right _ _)]
  simp only [Block.low, Nat.sub_add_cancel ho]

theorem cells_halves {b : Block} (hb : b.Aligned) (ho : 0 < b.order) :
    b.cells = b.low.cells ∪ b.high.cells := by
  rw [← low_buddy hb ho, ← parent_cells hb.low, low_parent hb ho]

end Block

/-! ## Tilings -/

/-- The blocks of `l` are aligned, pairwise disjoint and cover exactly `M`. -/
structure Tiling (l : List Block) (M : Set Nat) : Prop where
  aligned : ∀ b ∈ l, b.Aligned
  disjoint : l.Pairwise (fun b c => Disjoint b.cells c.cells)
  cover : ∀ i, i ∈ M ↔ ∃ b ∈ l, i ∈ b.cells

namespace Tiling

variable {l l' : List Block} {M M' : Set Nat} {b c : Block}

theorem nil : Tiling [] ∅ := ⟨by simp, List.Pairwise.nil, by simp⟩

theorem perm (h : Tiling l M) (hp : l.Perm l') : Tiling l' M where
  aligned := fun b hb => h.aligned b (hp.mem_iff.mpr hb)
  disjoint := (hp.pairwise_iff (fun hd => hd.symm)).mp h.disjoint
  cover := fun i => by simp only [h.cover i, hp.mem_iff]

theorem cells_subset (h : Tiling l M) (hb : b ∈ l) : b.cells ⊆ M :=
  fun i hi => (h.cover i).mpr ⟨b, hb, hi⟩

/-- A number lies in at most one block of a tiling. -/
theorem eq_of_mem (h : Tiling l M) (hb : b ∈ l) (hc : c ∈ l) {i : Nat} (hib : i ∈ b.cells)
    (hic : i ∈ c.cells) : b = c := by
  by_contra hne
  have : Std.Symm (fun b c : Block => Disjoint b.cells c.cells) := ⟨fun _ _ hd => hd.symm⟩
  have hd := h.disjoint.forall hb hc hne
  exact Set.disjoint_left.mp hd hib hic

/-- Peeling the first block off a tiling. -/
theorem cons_iff : Tiling (b :: l) M ↔ b.Aligned ∧ b.cells ⊆ M ∧ Tiling l (M \ b.cells) := by
  constructor
  · intro h
    refine ⟨h.aligned b List.mem_cons_self, h.cells_subset List.mem_cons_self, ?_, ?_, ?_⟩
    · exact fun c hc => h.aligned c (List.mem_cons_of_mem _ hc)
    · exact (List.pairwise_cons.mp h.disjoint).2
    · intro i
      rw [Set.mem_sdiff, h.cover i]
      constructor
      · rintro ⟨⟨c, hc, hic⟩, hib⟩
        rcases List.mem_cons.mp hc with rfl | hc
        · exact absurd hic hib
        · exact ⟨c, hc, hic⟩
      · rintro ⟨c, hc, hic⟩
        have hd := (List.pairwise_cons.mp h.disjoint).1 c hc
        exact ⟨⟨c, List.mem_cons_of_mem _ hc, hic⟩, Set.disjoint_right.mp hd hic⟩
  · rintro ⟨hb, hsub, h⟩
    refine ⟨?_, List.pairwise_cons.mpr ⟨?_, h.disjoint⟩, ?_⟩
    · intro c hc
      rcases List.mem_cons.mp hc with rfl | hc
      · exact hb
      · exact h.aligned c hc
    · intro c hc
      rw [Set.disjoint_right]
      exact fun i hi => (h.cells_subset hc hi).2
    · intro i
      simp only [List.mem_cons, exists_eq_or_imp, ← h.cover i, Set.mem_sdiff]
      by_cases hi : i ∈ b.cells
      · simp only [hi, hsub hi, true_or]
      · simp only [hi, not_false_eq_true, and_true, false_or]

theorem tail (h : Tiling (b :: l) M) : Tiling l (M \ b.cells) := (cons_iff.mp h).2.2

theorem not_mem_of_cons (h : Tiling (b :: l) M) (hc : c ∈ l) {i : Nat} (hi : i ∈ c.cells) :
    i ∉ b.cells :=
  (h.tail.cells_subset hc hi).2

/-- Adding a block next to a tiling. -/
theorem cons (h : Tiling l M) (hb : b.Aligned) (hd : Disjoint b.cells M) :
    Tiling (b :: l) (b.cells ∪ M) := by
  refine cons_iff.mpr ⟨hb, Set.subset_union_left, ?_⟩
  rwa [Set.union_sdiff_left, hd.symm.sdiff_eq_left]

theorem append (h : Tiling l M) (h' : Tiling l' M') (hd : Disjoint M M') :
    Tiling (l ++ l') (M ∪ M') := by
  induction l generalizing M with
  | nil =>
    have hM : M = ∅ := Set.eq_empty_of_forall_notMem fun i hi => by simpa using (h.cover i).mp hi
    rwa [hM, Set.empty_union, List.nil_append]
  | cons b l ih =>
    obtain ⟨hb, hsub, ht⟩ := cons_iff.mp h
    refine cons_iff.mpr ⟨hb, hsub.trans Set.subset_union_left, ?_⟩
    have hMb : (M ∪ M') \ b.cells = M \ b.cells ∪ M' := by
      rw [Set.union_sdiff_distrib, (hd.mono_left hsub).symm.sdiff_eq_left]
    rw [hMb]
    exact ih ht (hd.mono_left Set.sdiff_subset)

/-- **Splitting** a block of positive order into its halves. -/
theorem split (h : Tiling (b :: l) M) (ho : 0 < b.order) : Tiling (b.low :: b.high :: l) M := by
  obtain ⟨hb, hsub, ht⟩ := cons_iff.mp h
  rw [Block.cells_halves hb ho] at hsub ht
  have hd : Disjoint b.high.cells b.low.cells := by
    rw [← Block.low_buddy hb ho]; exact (Block.disjoint_buddy hb.low).symm
  refine cons_iff.mpr ⟨hb.low, Set.subset_union_left.trans hsub, ?_⟩
  refine cons_iff.mpr ⟨hb.high, fun i hi => ?_, by rwa [sdiff_sdiff]⟩
  exact ⟨hsub (Or.inr hi), Set.disjoint_left.mp hd hi⟩

/-- **Merging** a block with its buddy. -/
theorem merge (h : Tiling (b :: b.buddy :: l) M) : Tiling (b.parent :: l) M := by
  obtain ⟨hb, hsub, ht⟩ := cons_iff.mp h
  obtain ⟨_, hsub', ht'⟩ := cons_iff.mp ht
  refine cons_iff.mpr ⟨hb.parent, ?_, ?_⟩
  · rw [Block.parent_cells hb]
    exact Set.union_subset hsub (hsub'.trans Set.sdiff_subset)
  · rwa [Block.parent_cells hb, ← Set.sdiff_sdiff]

/-! ## Maximality -/

/-- Without a pair of buddies of order below `m`, an aligned block of covered numbers lies inside
one block of the tiling. -/
theorem exists_superblock {m : Nat} (h : Tiling l M)
    (hnb : ∀ b ∈ l, b.order < m → b.buddy ∉ l) :
    ∀ (k : Nat) (c : Block), c.order = k → k ≤ m → c.Aligned → c.cells ⊆ M →
      ∃ b ∈ l, c.order ≤ b.order ∧ c.cells ⊆ b.cells := by
  intro k
  induction k with
  | zero =>
    intro c ho _ hc hsub
    obtain ⟨b, hb, hi⟩ := (h.cover c.start).mp (hsub c.start_mem)
    exact ⟨b, hb, by omega, Block.cells_subset hc (h.aligned b hb) (by omega) c.start_mem hi⟩
  | succ k ih =>
    intro c ho hk hc hsub
    have hpos : 0 < c.order := by omega
    have hhalves := Block.cells_halves hc hpos
    have hlo : c.low.order = k := by simp only [Block.low]; omega
    have hho : c.high.order = k := by simp only [Block.high]; omega
    rw [hhalves] at hsub
    obtain ⟨b, hb, hbo, hbs⟩ := ih c.low hlo (by omega) hc.low (Set.subset_union_left.trans hsub)
    obtain ⟨d, hd, hdo, hds⟩ := ih c.high hho (by omega) hc.high (Set.subset_union_right.trans hsub)
    have hls : c.low.start ∈ c.cells := by rw [hhalves]; exact Or.inl c.low.start_mem
    have hhs : c.high.start ∈ c.cells := by rw [hhalves]; exact Or.inr c.high.start_mem
    by_cases hbk : b.order = k
    · by_cases hdk : d.order = k
      · -- both halves are blocks of the tiling, so they are a pair of buddies
        exfalso
        have hbl : c.low = b := Block.eq_of_mem hc.low (h.aligned b hb) (by omega) c.low.start_mem
          (hbs c.low.start_mem)
        have hdh : c.high = d := Block.eq_of_mem hc.high (h.aligned d hd) (by omega)
          c.high.start_mem (hds c.high.start_mem)
        refine hnb b hb (by omega) ?_
        rwa [← hbl, Block.low_buddy hc hpos, hdh]
      · exact ⟨d, hd, by omega,
          Block.cells_subset hc (h.aligned d hd) (by omega) hhs (hds c.high.start_mem)⟩
    · exact ⟨b, hb, by omega,
        Block.cells_subset hc (h.aligned b hb) (by omega) hls (hbs c.low.start_mem)⟩

end Tiling

/-- The maximal aligned blocks inside `M` of order at most `m`. -/
def Canonical (M : Set Nat) (m : Nat) (b : Block) : Prop :=
  b.Aligned ∧ b.order ≤ m ∧ b.cells ⊆ M ∧ (b.order < m → ¬ b.parent.cells ⊆ M)

/-- **Uniqueness of the decomposition**: the blocks of a tiling without a pair of buddies of order
below `m` are the maximal aligned blocks of the set it covers. -/
theorem Tiling.mem_iff_canonical {l : List Block} {M : Set Nat} {m : Nat} (h : Tiling l M)
    (hm : ∀ b ∈ l, b.order ≤ m) (hnb : ∀ b ∈ l, b.order < m → b.buddy ∉ l) (b : Block) :
    b ∈ l ↔ Canonical M m b := by
  constructor
  · intro hb
    have ha := h.aligned b hb
    refine ⟨ha, hm b hb, h.cells_subset hb, fun hlt hsub => ?_⟩
    obtain ⟨c, hc, ho, hcs⟩ := h.exists_superblock hnb _ b.parent rfl (by simpa using hlt)
      ha.parent hsub
    have hs : b.start ∈ b.parent.cells := by
      rw [Block.parent_cells ha]; exact Or.inl b.start_mem
    have := h.eq_of_mem hb hc b.start_mem (hcs hs)
    subst this
    simp at ho
  · rintro ⟨ha, hbm, hsub, hmax⟩
    obtain ⟨c, hc, ho, hcs⟩ := h.exists_superblock hnb _ b rfl hbm ha hsub
    rcases Nat.lt_or_eq_of_le ho with hlt | heq
    · -- a strictly larger block would contain the parent
      exfalso
      have hs : b.start ∈ b.parent.cells := by
        rw [Block.parent_cells ha]; exact Or.inl b.start_mem
      have hpc := Block.cells_subset ha.parent (h.aligned c hc) (by simpa using hlt) hs
        (hcs b.start_mem)
      have := hm c hc
      exact hmax (by omega) (hpc.trans (h.cells_subset hc))
    · have := Block.eq_of_mem ha (h.aligned c hc) heq b.start_mem (hcs b.start_mem)
      rwa [this]

end DyadicTiling
