import Mathlib
import AuOs.Paging.Count

/-!
# Whether the counted pages are enough

* `Enough` — `pt_map_pages` takes at most as many pages as `pt_count_pages` returns.
* `Short` — the ranges for which it takes more: in step with `phys` for 1GB pages, with a partial
  2MB page at the end, and with next to nothing counted at the beginning.
* `enough_iff` — the count is enough exactly for the other ranges.
-/

set_option autoImplicit false

namespace AuOs

/-- A non-empty range of whole pages inside one canonical half, `end_` exclusive, and any page to
map it to. -/
structure CountRange (begin_ end_ phys : Nat) : Prop where
  begin_al : begin_ % PAGE_SIZE = 0
  end_al : end_ % PAGE_SIZE = 0
  end_lt : end_ < WORD
  nonempty : begin_ ≤ lastAddr end_
  half : lastAddr end_ < 2 ^ 47 ∨ WORD - 2 ^ 47 ≤ begin_
  phys_al : phys % PAGE_SIZE = 0
  phys_lt : phys < WORD

/-- **The specification**: from a pool that lasts, mapping the range into a zeroed `pml4` takes at
most as many pages as were counted. -/
def Enough (begin_ end_ phys : Nat) : Prop :=
  ∃ count, ptCountPages begin_ end_ phys = .ok count ∧
    ∀ (σ : Type) (pool : PagePool σ) (flags : Pte) (pml4 : Nat) (used : Set Nat)
      (s : Paging (σ × Nat)),
      pml4 ∈ used → (∀ i, s.mem pml4 i = 0) → pool.Yields treePages s.pages.1 used →
      ∃ s', ptMapPages pml4 begin_ end_ phys flags (some pool.counted) s = .ok s' ∧
        s'.pages.2 ≤ s.pages.2 + count

/-- Nothing is counted below the tables of the 1GB pages but where the range begins, and there too
little. -/
def Short (b e p : Nat) : Prop :=
  InStep (lvlSize 3) p b ∧ (e + 1) % lvlSize 2 ≠ 0 ∧
    (b % lvlSize 3 = 0 ∨ b / lvlSize 4 ≠ e / lvlSize 4 ∧ pageTable.index 3 b = 511 ∧
      (b % lvlSize 2 = 0 ∨ pageTable.index 2 b = 511))

/-! ## What is taken against what is counted -/

section Arithmetic

variable {n b e p x : Nat}

theorem takenTables_three : takenTables 3 p b e = blocks (lvlSize 4) b e +
    ((if InStep (lvlSize 3) p b then cutBlocks (lvlSize 3) b e else blocks (lvlSize 3) b e) +
      if InStep (lvlSize 2) p b then cutBlocks (lvlSize 2) b e else blocks (lvlSize 2) b e) := by
  simp [takenTables]

theorem countEntries_two : countEntries 2 p b x = blocks (lvlSize 3) b x +
    if InStep (lvlSize 2) p b then if b % lvlSize 2 = 0 then 0 else blocks (lvlSize 2) b
    (firstEnd (lvlSize 3) b x) else blocks (lvlSize 2) b x := by
  simp [countEntries]

theorem countEntries_three : countEntries 3 p b x = blocks (lvlSize 4) b x +
    if InStep (lvlSize 3) p b then if b % lvlSize 3 = 0 then 0 else countEntries 2 p b
    (firstEnd (lvlSize 4) b x) else countEntries 2 p b x := by
  rw [countEntries]

/-- The last address that is counted is in the same entry of the `pml4`. -/
theorem lastCounted_div {z : Nat} (hz : 0 < z) : lastCounted z e / z = e / z := by
  unfold lastCounted
  split
  · rfl
  · rw [blockEnd_div hz]

theorem blocks_lastCounted {z : Nat} (hz : 0 < z) :
    blocks z b (lastCounted z e) = blocks z b e := by
  rw [blocks, blocks, lastCounted_div hz]

/-- The entries of a table from one of them on. -/
theorem blocks_table (hn : n ≤ 3) :
    blocks (lvlSize (n + 1)) b (blockEnd (lvlSize (n + 2)) b) =
    512 - pageTable.index (n + 1) b := by
  have hsize := lvlSize_sizes hn
  simp only [pageTable]
  generalize lvlSize (n + 1) = z at *
  generalize lvlSize (n + 2) = w at *
  unfold blocks blockEnd
  rcases hsize with ⟨rfl, rfl⟩ | ⟨rfl, rfl⟩ | ⟨rfl, rfl⟩ | ⟨rfl, rfl⟩ <;> omega

/-- What is in step for 1GB pages is in step for 2MB pages. -/
theorem inStep_two (h : InStep (lvlSize 3) p b) : InStep (lvlSize 2) p b := by
  have hmod := congrArg (· % lvlSize 2) h
  simp only [Nat.mod_mod_of_dvd _ (lvlSize_dvd_succ (n := 1) (by decide))] at hmod
  exact hmod

theorem mod_two (h : x % lvlSize 3 = 0) : x % lvlSize 2 = 0 :=
  Nat.mod_eq_zero_of_dvd ((lvlSize_dvd_succ (n := 1) (by decide)).trans (Nat.dvd_of_mod_eq_zero h))

/-- Tables for 2MB pages that are cut, where only the first one may have been counted. -/
theorem cutBlocks_two_le (h : b ≤ x) :
    cutBlocks (lvlSize 2) b e ≤ 1 + if b % lvlSize 2 = 0 then 0 else blocks (lvlSize 2) b x := by
  have hcut := @cutBlocks_le (lvlSize 2) b e
  have hpos := @blocks_pos (lvlSize 2) b x h
  split at hcut <;> split at hcut <;> simp_all <;> omega

/-- Out of step, everything down to the 2MB pages is counted, or the 2MB pages are in step. -/
theorem enough_outOfStep (hbe : b ≤ e) (h : ¬ InStep (lvlSize 3) p b) :
    takenTables 3 p b e ≤ 1 + countEntries 3 p b (lastCounted (lvlSize 4) e) := by
  have hle : e ≤ lastCounted (lvlSize 4) e := le_lastCounted lvlSize_pos
  rw [takenTables_three, countEntries_three, if_neg h, if_neg h, blocks_lastCounted lvlSize_pos,
    countEntries_two]
  have h₃ := @blocks_mono (lvlSize 3) b e _ hle
  by_cases hstep : InStep (lvlSize 2) p b
  · rw [if_pos hstep, if_pos hstep]
    have hcut := @cutBlocks_two_le b e _ (le_firstEnd lvlSize_pos (hbe.trans hle) (z := lvlSize 3))
    omega
  · rw [if_neg hstep, if_neg hstep]
    have h₂ := @blocks_mono (lvlSize 2) b e _ hle
    omega

/-- From the beginning of a 1GB page on, nothing is counted below the tables of the 1GB pages. -/
theorem enough_aligned (h : InStep (lvlSize 3) p b) (hb : b % lvlSize 3 = 0) :
    takenTables 3 p b e ≤ 1 + countEntries 3 p b (lastCounted (lvlSize 4) e) ↔
    (e + 1) % lvlSize 2 = 0 := by
  rw [takenTables_three, countEntries_three, if_pos h, if_pos h, if_pos hb, if_pos (inStep_two h),
    blocks_lastCounted lvlSize_pos, cutBlocks_begin hb, cutBlocks_begin (mod_two hb)]
  by_cases h₂ : (e + 1) % lvlSize 2 = 0
  · simp only [h₂, if_true, iff_true]
    split <;> omega
  · have h₃ : ¬ (e + 1) % lvlSize 3 = 0 := fun h => h₂ (mod_two h)
    rw [if_neg h₂, if_neg h₃]
    simp only [h₂, iff_false]
    omega

/-- In one entry of the `pml4`, the 1GB pages that are cut were counted. -/
theorem enough_one (hbe : b ≤ e) (h : InStep (lvlSize 3) p b) (hb : ¬ b % lvlSize 3 = 0)
    (hone : b / lvlSize 4 = e / lvlSize 4) :
    takenTables 3 p b e ≤ 1 + countEntries 3 p b (lastCounted (lvlSize 4) e) := by
  have hle : e ≤ lastCounted (lvlSize 4) e := le_lastCounted lvlSize_pos
  have hfirst : e ≤ firstEnd (lvlSize 4) b (lastCounted (lvlSize 4) e) :=
    le_min ((le_blockEnd_iff lvlSize_pos hbe).mpr hone) hle
  have h₃ := (@cutBlocks_le_blocks (lvlSize 3) b e hbe).trans (blocks_mono hfirst)
  have h₂ := @cutBlocks_two_le b e _ (le_firstEnd lvlSize_pos (hbe.trans hfirst) (z := lvlSize 3))
  rw [takenTables_three, countEntries_three, if_pos h, if_pos h, if_neg hb, if_pos (inStep_two h),
    blocks_lastCounted lvlSize_pos, countEntries_two, if_pos (inStep_two h)]
  omega

theorem entry_ne (hn : n ≤ 3) (h : b / lvlSize (n + 2) ≠ e / lvlSize (n + 2)) :
    b / lvlSize (n + 1) ≠ e / lvlSize (n + 1) := by
  obtain ⟨k, hk⟩ := lvlSize_dvd_succ hn
  intro heq
  rw [hk, ← Nat.div_div_eq_div_mul, heq, Nat.div_div_eq_div_mul] at h
  exact h rfl

/-- The first entries of a range that goes on behind its first table. -/
theorem firstEnd_table (hn : n ≤ 3) :
    firstEnd (lvlSize (n + 1)) b (blockEnd (lvlSize (n + 2)) b) = blockEnd (lvlSize (n + 1)) b :=
  Nat.min_eq_left (by rw [blockEnd_table hn]; exact Nat.le_add_right ..)

/-- **In several entries of the `pml4`**, what is counted is below the first one. -/
theorem enough_many (hbe : b ≤ e) (h : InStep (lvlSize 3) p b) (hb : ¬ b % lvlSize 3 = 0)
    (hmany : b / lvlSize 4 ≠ e / lvlSize 4) :
    takenTables 3 p b e ≤ 1 + countEntries 3 p b (lastCounted (lvlSize 4) e) ↔
      ¬ ((e + 1) % lvlSize 2 ≠ 0 ∧ pageTable.index 3 b = 511 ∧
          (b % lvlSize 2 = 0 ∨ pageTable.index 2 b = 511)) := by
  have hfirst : firstEnd (lvlSize 4) b (lastCounted (lvlSize 4) e) = blockEnd (lvlSize 4) b := by
    refine firstEnd_many lvlSize_pos (hbe.trans (le_lastCounted lvlSize_pos)) ?_
    rwa [lastCounted_div lvlSize_pos]
  have hmany₃ : b / lvlSize 3 ≠ e / lvlSize 3 := entry_ne (n := 2) (by decide) hmany
  have hmany₂ : b / lvlSize 2 ≠ e / lvlSize 2 := entry_ne (n := 1) (by decide) hmany₃
  have hblocks₃ : blocks (lvlSize 3) b (blockEnd (lvlSize 4) b) = 512 - pageTable.index 3 b :=
    blocks_table (n := 2) (by decide)
  have hblocks₂ : blocks (lvlSize 2) b (blockEnd (lvlSize 3) b) = 512 - pageTable.index 2 b :=
    blocks_table (n := 1) (by decide)
  have hindex₃ : pageTable.index 3 b < 512 := index_lt (n := 2)
  have hindex₂ : pageTable.index 2 b < 512 := index_lt (n := 1)
  have hend : (e + 1) % lvlSize 3 = 0 → (e + 1) % lvlSize 2 = 0 := mod_two
  rw [takenTables_three, countEntries_three, if_pos h, if_pos h, if_neg hb, if_pos (inStep_two h),
    blocks_lastCounted lvlSize_pos, countEntries_two, if_pos (inStep_two h), hfirst,
    firstEnd_table (n := 2) (by decide), hblocks₃, hblocks₂, cutBlocks_many hmany₃,
      cutBlocks_many hmany₂, if_neg hb]
  -- the partial pages at both ends against the entries that are left in the first tables
  by_cases hb₂ : b % lvlSize 2 = 0
  · simp only [hb₂, if_true, true_or, and_true]
    split <;> split <;> omega
  · simp only [hb₂, if_false, false_or]
    split <;> split <;> omega

/-- **Taken against counted.** -/
theorem takenTables_le_iff (hbe : b ≤ e) :
    takenTables 3 p b e ≤ 1 + countEntries 3 p b (lastCounted (lvlSize 4) e) ↔ ¬ Short b e p := by
  unfold Short
  by_cases h : InStep (lvlSize 3) p b
  · by_cases hb : b % lvlSize 3 = 0
    · rw [enough_aligned h hb]
      simp [h, hb]
    · by_cases hone : b / lvlSize 4 = e / lvlSize 4
      · simp [hb, hone, enough_one hbe h hb hone]
      · rw [enough_many hbe h hb hone]
        simp [h, hb, hone]
  · simp [h, enough_outOfStep hbe h]

/-- No range of one `pml4` takes more pages than it has tables. -/
theorem takenTables_le (hr : RangeOk 4 b e 0) : takenTables 3 p b e ≤ treePages := by
  have hspan : b / 281474976710656 = e / 281474976710656 := lvlSize_root ▸ hr.span
  have hle := hr.le
  have hz₂ : lvlSize 2 = 2097152 := by
    unfold lvlSize
    rfl
  have hz₃ : lvlSize 3 = 1073741824 := by
    unfold lvlSize
    rfl
  have hz₄ : lvlSize 4 = 549755813888 := by
    unfold lvlSize
    rfl
  have h₂ := @cutBlocks_le_blocks (lvlSize 2) b e hle
  have h₃ := @cutBlocks_le_blocks (lvlSize 3) b e hle
  have hpages : treePages = 512 + 512 * 512 + 512 * 512 * 512 := by decide
  rw [takenTables_three, hpages]
  unfold blocks at *
  rw [hz₂] at *
  rw [hz₃] at *
  rw [hz₄]
  split <;> split <;> omega

end Arithmetic

/-! ## The result -/

section Enough

variable {σ : Type} {begin_ end_ phys pml4 taken : Nat} {used : Set Nat} {pool : PagePool σ}
  {s : Paging (σ × Nat)}

theorem CountRange.rangeOk (h : CountRange begin_ end_ phys) :
    RangeOk 4 begin_ (lastAddr end_) 0 := by
  refine PageRange.rangeOk ⟨h.begin_al, h.end_al, h.end_lt, h.nonempty, h.half, rfl, ?_⟩
  have hlt : lastAddr end_ < WORD := Nat.mod_lt _ (by decide)
  have hhalf := h.half
  rw [WORD_eq] at *
  omega

theorem lastAddr_succ (h : end_ < WORD) : (lastAddr end_ + 1) % WORD = end_ := by
  unfold lastAddr
  rw [WORD_eq] at *
  omega

theorem large_given (flags : Pte) : (flags ||| PTE_PRESENT ||| PTE_LARGE ||| PTE_USER) &&&
    PTE_LARGE ≠ 0 := by
  intro h
  have hbit := congrArg (BitVec.getLsbD · 7) h
  have hlarge : PTE_LARGE.getLsbD 7 = true := by decide
  simp only [BitVec.getLsbD_and, BitVec.getLsbD_or, hlarge, Bool.or_true, Bool.true_or,
    Bool.true_and] at hbit
  exact absurd hbit (by decide)

/-- **The pages that `pt_map_pages` takes**, from a pool that has as many. -/
theorem ptMapPages_takes (h : CountRange begin_ end_ phys) (flags : Pte) (ht : pml4 ∈ used)
    (hz : ∀ i, s.mem pml4 i = 0)
    (hy : pool.Yields (takenTables 3 phys begin_ (lastAddr end_)) s.pages.1 used) :
    ∃ s', ptMapPages pml4 begin_ end_ phys flags (some pool.counted) s = .ok s' ∧
      s'.pages.2 = s.pages.2 + takenTables 3 phys begin_ (lastAddr end_) := by
  rw [← Nat.zero_add (takenTables _ _ _ _)] at hy
  obtain ⟨s', used', hrun, hd⟩ := ptMapLvl_takes (large_given flags)
    (le_refl 3) h.rangeOk h.phys_al ht (fun i _ => hz i) hy
  refine ⟨s', ?_, hd.count⟩
  rw [ptMapPages, bugOn_neg (not_not.mpr h.begin_al), ok_bind,
    bugOn_neg (not_not.mpr h.end_al), ok_bind]
  exact hrun

/-- **Enough** is a matter of the two numbers. -/
theorem enough_iff_le (h : CountRange begin_ end_ phys) : Enough begin_ end_ phys ↔
    takenTables 3 phys begin_ (lastAddr end_) ≤
      1 + countEntries 3 phys begin_ (lastCounted (lvlSize 4) (lastAddr end_)) := by
  have hcount := ptCountPages_eq h.rangeOk h.phys_al h.phys_lt
  rw [lastAddr_succ h.end_lt] at hcount
  have hpages := takenTables_le (p := phys) h.rangeOk
  constructor
  · rintro ⟨count, hcount', hmap⟩
    cases hcount.symm.trans hcount'
    have hy : bumpPool.Yields treePages 2 {PAGE_SIZE} := by
      refine bumpPool_yields ⟨by decide, by decide, ?_⟩
      rintro x rfl
      decide
    obtain ⟨s', hrun, hle⟩ := hmap Nat bumpPool 0 PAGE_SIZE {PAGE_SIZE} ⟨fun _ _ => 0, 2,
      0⟩ rfl (fun _ => rfl) hy
    obtain ⟨s'', hrun', htaken⟩ := ptMapPages_takes (s := ⟨fun _ _ => 0, 2, 0⟩) h 0
      (Set.mem_singleton PAGE_SIZE) (fun _ => rfl) (hy.mono hpages)
    cases hrun.symm.trans hrun'
    omega
  · intro hle
    refine ⟨_, hcount, fun σ pool flags pml4 used s ht hz hy => ?_⟩
    obtain ⟨s', hrun, htaken⟩ := ptMapPages_takes h flags ht hz (hy.mono hpages)
    exact ⟨s', hrun, by omega⟩

/-- **The counted pages are enough** exactly when the range is not short. -/
theorem enough_iff (h : CountRange begin_ end_ phys) : Enough begin_ end_ phys ↔
    ¬ Short begin_ (lastAddr end_) phys :=
  (enough_iff_le h).trans (takenTables_le_iff h.nonempty)

/-- One 2MB page at its own address. -/
theorem enough_large_page : Enough 0 2097152 0 := by
  refine (enough_iff ⟨rfl, rfl, by decide, by decide, Or.inl (by decide), rfl, by decide⟩).mpr
    fun h => h.2.1 ?_
  unfold lvlSize
  rfl

/-- The first page: three tables are taken, two pages are counted. -/
theorem not_enough_first_page : CountRange 0 4096 0 ∧ ¬ Enough 0 4096 0 := by
  have hrange : CountRange 0 4096 0 :=
    ⟨rfl, rfl, by decide, by decide, Or.inl (by decide), rfl, by decide⟩
  refine ⟨hrange, fun h => ?_⟩
  have hend : (lastAddr 4096 + 1) % lvlSize 2 ≠ 0 := by
    unfold lvlSize
    decide
  exact (takenTables_le_iff (Nat.zero_le _)).mp ((enough_iff_le hrange).mp h) ⟨rfl, hend,
    Or.inl (Nat.zero_mod _)⟩

end Enough

end AuOs
