import Mathlib
import AuOs.Paging.Tables

/-!
# Entries and ranges of a page table

* `pte_phys`, `pte_flag` — the address and the flags of an entry are read back as they were stored;
  `pteSlot_page`, `pteSlot_pde` say what the entries that `__pt_map_pages` writes stand for.
* `pmlSize_eq`, `pmlOffs_eq` — the functions of a level never stop at the levels 1 to 4.
* `RangeOk` — a range inside one table; `RangeOk.first`, `RangeOk.rest` cut it at the end of its
  first entry, as a turn of the loop does.
-/

set_option autoImplicit false

namespace AuOs

/-! ## Bits of an entry -/

theorem physMask_getLsbD (i : Nat) : PTE_PHYS_MASK.getLsbD i = decide (12 ≤ i ∧ i < 52) := by
  have h : (0xffffffffff000 : Nat) = (2 ^ 40 - 1) * 2 ^ 12 := by norm_num
  simp only [PTE_PHYS_MASK, BitVec.getLsbD_ofNat, h, Nat.testBit_mul_two_pow,
    Nat.testBit_two_pow_sub_one]
  rw [← Bool.decide_and, ← Bool.decide_and, decide_eq_decide]
  omega

theorem low_getLsbD {phys : Nat} (h : phys % 4096 = 0) {i : Nat} (hi : i < 12) :
    (BitVec.ofNat 64 phys).getLsbD i = false := by
  obtain ⟨k, rfl⟩ := Nat.dvd_of_mod_eq_zero h
  rw [BitVec.getLsbD_ofNat, show 4096 * k = k * 2 ^ 12 by ring, Nat.testBit_mul_two_pow]
  simp [Nat.not_le.mpr hi]

/-- The address can be read back from the entry. -/
theorem pte_phys {phys : Nat} {flags : Pte} (h : phys % 4096 = 0) (hlt : phys < 2 ^ 52)
    (hf : flags &&& PTE_PHYS_MASK = 0) :
    ((BitVec.ofNat 64 phys ||| flags) &&& PTE_PHYS_MASK).toNat = phys := by
  have he : (BitVec.ofNat 64 phys ||| flags) &&& PTE_PHYS_MASK = BitVec.ofNat 64 phys := by
    apply BitVec.eq_of_getLsbD_eq
    intro i hi
    have hfi : (flags &&& PTE_PHYS_MASK).getLsbD i = false := by rw [hf]; simp
    rw [BitVec.getLsbD_and] at hfi
    rw [BitVec.getLsbD_and, BitVec.getLsbD_or, Bool.and_or_distrib_right, hfi, Bool.or_false,
      physMask_getLsbD]
    by_cases h12 : i < 12
    · rw [low_getLsbD h h12, Bool.false_and]
    · by_cases h52 : i < 52
      · simp [h52, Nat.not_lt.mp h12]
      · have : phys.testBit i = false :=
          Nat.testBit_lt_two_pow (hlt.trans_le
            (Nat.pow_le_pow_right (by decide) (Nat.not_lt.mp h52)))
        simp [BitVec.getLsbD_ofNat, this]
  rw [he, BitVec.toNat_ofNat, Nat.mod_eq_of_lt (hlt.trans (by norm_num))]

/-- The address leaves the flags alone. -/
theorem pte_flag {phys : Nat} {flags : Pte} (h : phys % 4096 = 0) {bit : Nat} (hb : bit < 12) :
    (BitVec.ofNat 64 phys ||| flags) &&& 1#64 <<< bit = flags &&& 1#64 <<< bit := by
  apply BitVec.eq_of_getLsbD_eq
  intro i hi
  simp only [BitVec.getLsbD_and, BitVec.getLsbD_or, BitVec.getLsbD_shiftLeft, BitVec.getLsbD_one]
  by_cases hi' : i = bit
  · rw [hi', low_getLsbD h hb, Bool.false_or]
  · have : ¬ (¬ i < bit ∧ i - bit = 0) := by omega
    grind

theorem or_pteLarge (flags : Pte) (lvl : Nat) : flags ||| pteLarge flags lvl = flags := by
  unfold pteLarge
  split
  · apply BitVec.eq_of_getLsbD_eq
    intro i hi
    rw [BitVec.getLsbD_or, BitVec.getLsbD_and]
    cases flags.getLsbD i <;> simp
  · simp

theorem pdeFlags_phys : pdeFlags &&& PTE_PHYS_MASK = 0 := by decide

theorem pteSlot_absent {lvl : Nat} {pte : Pte} :
    pteSlot lvl pte = .absent ↔ pte &&& PTE_PRESENT = 0 := by
  unfold pteSlot
  split
  · simp_all
  · split <;> simp_all

theorem pteSlot_table {lvl c : Nat} {pte : Pte} (h : pteSlot lvl pte = .table c) :
    pte &&& PTE_PRESENT ≠ 0 ∧ lvl ≠ 1 ∧ (pte &&& PTE_PHYS_MASK).toNat = c := by
  unfold pteSlot at h
  split at h
  · cases h
  · split at h
    · cases h
    · rename_i hp hl
      exact ⟨hp, fun h1 => hl (Or.inl h1), RadixSlot.table.inj h⟩

/-- An entry that names a page. -/
theorem pteSlot_page {lvl phys : Nat} {flags : Pte} (h : phys % 4096 = 0) (hlt : phys < 2 ^ 52)
    (hf : flags &&& PTE_PHYS_MASK = 0) :
    pteSlot lvl (BitVec.ofNat 64 phys ||| flags) =
      if flags &&& PTE_PRESENT = 0 then .absent
      else if lvl = 1 ∨ ((lvl = 2 ∨ lvl = 3) ∧ flags &&& PTE_LARGE ≠ 0) then
        .leaf fun v => ⟨phys / lvlSize lvl * lvlSize lvl + v % lvlSize lvl,
          decide (flags &&& PTE_WRITE ≠ 0), decide (flags &&& PTE_USER ≠ 0)⟩
      else .table phys := by
  unfold pteSlot
  rw [pte_phys h hlt hf, PTE_PRESENT, PTE_LARGE, PTE_WRITE, PTE_USER,
    pte_flag h (show 0 < 12 by decide),
    pte_flag h (show 7 < 12 by decide), pte_flag h (show 1 < 12 by decide),
    pte_flag h (show 2 < 12 by decide)]

/-- The entry of a new table. -/
theorem pteSlot_pde {lvl page : Nat} (hl : 2 ≤ lvl) (h : page % 4096 = 0) (hlt : page < 2 ^ 52) :
    pteSlot lvl (BitVec.ofNat 64 page ||| pdeFlags) = .table page := by
  rw [pteSlot_page h hlt pdeFlags_phys, if_neg (by decide), if_neg]
  rintro (h1 | ⟨_, h1⟩)
  · omega
  · exact h1 (by decide)

theorem pde_through {page : Nat} (h : page % 4096 = 0) :
    pageTable.through (BitVec.ofNat 64 page ||| pdeFlags) = id := by
  funext m
  have hw : (BitVec.ofNat 64 page ||| pdeFlags) &&& PTE_WRITE ≠ 0 := by
    rw [PTE_WRITE, pte_flag h (by decide)]
    decide
  have hu : (BitVec.ofNat 64 page ||| pdeFlags) &&& PTE_USER ≠ 0 := by
    rw [PTE_USER, pte_flag h (by decide)]
    decide
  simp only [pageTable, decide_eq_true hw, decide_eq_true hu, Bool.and_true, id]

/-! ## Levels -/

theorem pmlShift_eq {lvl : Nat} (h1 : 1 ≤ lvl) (h4 : lvl ≤ 4) :
    pmlShift lvl = .ok (12 + 9 * (lvl - 1)) := by
  interval_cases lvl <;> rfl

theorem pmlSize_eq {lvl : Nat} (h1 : 1 ≤ lvl) (h4 : lvl ≤ 4) : pmlSize lvl = .ok (lvlSize lvl) := by
  unfold lvlSize
  interval_cases lvl <;> rfl

theorem pmlOffs_eq {lvl : Nat} (h1 : 1 ≤ lvl) (h4 : lvl ≤ 4) (addr : Nat) :
    pmlOffs addr lvl = .ok (pageTable.index lvl addr) := by
  have hmask : [0xfff, 0x1ff, 0x1ff, 0x1ff, 0x1ff].getD lvl 0 = 2 ^ 9 - 1 := by
    interval_cases lvl <;> rfl
  unfold pmlOffs
  rw [bugOn_neg (Nat.not_lt.mpr h4), ok_bind, pmlShift_eq h1 h4, ok_bind, hmask,
    Nat.and_two_pow_sub_one_eq_mod, Nat.shiftRight_eq_div_pow]
  simp only [pageTable, lvlSize]
  rfl

/-! ## Ranges inside one table -/

theorem WORD_eq : WORD = 18446744073709551616 := rfl

/-- The bytes of an entry and of a table of a level. -/
def Sizes (z w : Nat) : Prop :=
  (z = 4096 ∧ w = 2097152) ∨ (z = 2097152 ∧ w = 1073741824) ∨ (z = 1073741824 ∧ w = 549755813888) ∨
    (z = 549755813888 ∧ w = 281474976710656)

theorem lvlSize_sizes {n : Nat} (hn : n ≤ 3) : Sizes (lvlSize (n + 1)) (lvlSize (n + 2)) := by
  unfold lvlSize
  interval_cases n
  · exact Or.inl ⟨rfl, rfl⟩
  · exact Or.inr (Or.inl ⟨rfl, rfl⟩)
  · exact Or.inr (Or.inr (Or.inl ⟨rfl, rfl⟩))
  · exact Or.inr (Or.inr (Or.inr ⟨rfl, rfl⟩))

/-- The addresses from `b` to `e`, both included, are whole pages below one table of the level, and
so are the pages from `phys` on they are to be mapped to. -/
structure RangeOk (lvl b e phys : Nat) : Prop where
  le : b ≤ e
  lt : e < WORD
  span : b / lvlSize (lvl + 1) = e / lvlSize (lvl + 1)
  begin_al : b % 4096 = 0
  end_al : (e + 1) % 4096 = 0
  phys_al : phys % 4096 = 0
  phys_lt : phys + (e - b) < 2 ^ 52

variable {n b e phys m v : Nat}

theorem mapEnd_eq (hn : n ≤ 3) (hb : b < WORD) :
    mapEnd b e (lvlSize (n + 1)) = min ((b / lvlSize (n + 1) + 1) * lvlSize (n + 1) - 1) e := by
  have hzw := lvlSize_sizes hn
  generalize lvlSize (n + 1) = z at *
  generalize lvlSize (n + 2) = w at *
  have he : entryEnd b z = (b / z + 1) * z - 1 := by
    unfold entryEnd
    rw [WORD_eq] at *
    rcases hzw with ⟨rfl, rfl⟩ | ⟨rfl, rfl⟩ | ⟨rfl, rfl⟩ | ⟨rfl, rfl⟩ <;> omega
  unfold mapEnd
  rw [he]
  split
  · rw [Nat.min_eq_left (by assumption : _ < e).le]
  · rw [Nat.min_eq_right (Nat.not_lt.mp (by assumption))]

section Arithmetic

variable (hn : n ≤ 3)

include hn

/-- The part of the range that the first entry covers. -/
theorem RangeOk.first (h : RangeOk (n + 1) b e phys) :
    RangeOk n b (mapEnd b e (lvlSize (n + 1))) phys := by
  obtain ⟨hle, hlt, -, hb, he, hp, hpl⟩ := h
  rw [mapEnd_eq hn (hle.trans_lt hlt)]
  refine ⟨?_, (Nat.min_le_right ..).trans_lt hlt, ?_, hb, ?_, hp,
    (Nat.add_le_add_left (Nat.sub_le_sub_right (Nat.min_le_right ..) _) _).trans_lt hpl⟩
  all_goals
    have hzw := lvlSize_sizes hn
    generalize lvlSize (n + 1) = z at *
    generalize lvlSize (n + 2) = w at *
    clear hlt hpl
    rcases hzw with ⟨rfl, rfl⟩ | ⟨rfl, rfl⟩ | ⟨rfl, rfl⟩ | ⟨rfl, rfl⟩ <;> omega

theorem RangeOk.first_le (h : RangeOk (n + 1) b e phys) : mapEnd b e (lvlSize (n + 1)) ≤ e := by
  rw [mapEnd_eq hn (h.le.trans_lt h.lt)]
  exact Nat.min_le_right ..

/-- The part behind the first entry. -/
theorem RangeOk.rest (h : RangeOk (n + 1) b e phys) (hm : m = mapEnd b e (lvlSize (n + 1)))
    (hlt : m < e) :
    RangeOk (n + 1) (m + 1) e (phys + (m + 1 - b)) ∧
      (m + 1) / lvlSize (n + 2) = b / lvlSize (n + 2) ∧
      pageTable.index (n + 1) (m + 1) = pageTable.index (n + 1) b + 1 := by
  rw [mapEnd_eq hn (h.le.trans_lt h.lt)] at hm
  obtain ⟨hle, hw, hspan, hb, he, hp, hpl⟩ := h
  have hphys : m + 1 ≤ e → b ≤ m → phys + (m + 1 - b) + (e - (m + 1)) = phys + (e - b) := by
    clear hm hspan hpl
    omega
  suffices hcut : b ≤ m ∧ (m + 1) / lvlSize (n + 2) = b / lvlSize (n + 2) ∧ (m + 1) % 4096 = 0 ∧
      (phys + (m + 1 - b)) % 4096 = 0 ∧ (m + 1) / lvlSize (n + 1) % 512 = b / lvlSize
          (n + 1) % 512 + 1 by
    obtain ⟨hbm, hsame, halign, hpal, hindex⟩ := hcut
    exact ⟨⟨hlt, hw, hsame.trans hspan, halign, he, hpal, (hphys hlt hbm).symm ▸ hpl⟩, hsame,
      hindex⟩
  have hzw := lvlSize_sizes hn
  generalize lvlSize (n + 1) = z at *
  generalize lvlSize (n + 2) = w at *
  clear hphys hw hpl
  rcases hzw with ⟨rfl, rfl⟩ | ⟨rfl, rfl⟩ | ⟨rfl, rfl⟩ | ⟨rfl, rfl⟩ <;>
    exact ⟨by omega, by omega, by omega, by omega, by omega⟩

/-- A range with one entry left ends there. -/
theorem RangeOk.last_iff (h : RangeOk (n + 1) b e phys) :
    mapEnd b e (lvlSize (n + 1)) = e ↔ pageTable.index (n + 1) b = pageTable.index (n + 1) e := by
  rw [mapEnd_eq hn (h.le.trans_lt h.lt)]
  obtain ⟨hle, -, hspan, -, -, -, -⟩ := h
  simp only [pageTable]
  have hzw := lvlSize_sizes hn
  generalize lvlSize (n + 1) = z at *
  generalize lvlSize (n + 2) = w at *
  rcases hzw with ⟨rfl, rfl⟩ | ⟨rfl, rfl⟩ | ⟨rfl, rfl⟩ | ⟨rfl, rfl⟩ <;> omega

theorem RangeOk.index_le (h : RangeOk (n + 1) b e phys) :
    pageTable.index (n + 1) b ≤ pageTable.index (n + 1) e := by
  obtain ⟨hle, -, hspan, -, -, -, -⟩ := h
  simp only [pageTable]
  have hzw := lvlSize_sizes hn
  generalize lvlSize (n + 1) = z at *
  generalize lvlSize (n + 2) = w at *
  rcases hzw with ⟨rfl, rfl⟩ | ⟨rfl, rfl⟩ | ⟨rfl, rfl⟩ | ⟨rfl, rfl⟩ <;> omega

/-- An entry that is to be mapped as a whole. -/
theorem RangeOk.whole (hle : b ≤ e) (hb : b % lvlSize (n + 1) = 0) (hp : phys % lvlSize (n + 1) = 0)
    (hsize : e + 1 - b = lvlSize (n + 1)) (hv : v / lvlSize (n + 2) = b / lvlSize (n + 2)) :
    (pageTable.index (n + 1) v = pageTable.index (n + 1) b ↔ b ≤ v ∧ v ≤ e) ∧
      (b ≤ v → v ≤ e →
        phys / lvlSize (n + 1) * lvlSize (n + 1) + v % lvlSize (n + 1) = phys + (v - b)) := by
  simp only [pageTable]
  have hzw := lvlSize_sizes hn
  generalize lvlSize (n + 1) = z at *
  generalize lvlSize (n + 2) = w at *
  rcases hzw with ⟨rfl, rfl⟩ | ⟨rfl, rfl⟩ | ⟨rfl, rfl⟩ | ⟨rfl, rfl⟩ <;>
    exact ⟨⟨fun hi => ⟨by omega, by omega⟩, fun hi => by omega⟩, fun h1 h2 => by omega⟩

/-- `tomap` does not wrap. -/
theorem RangeOk.tomap (h : RangeOk n b e phys) : (e + WORD - b + 1) % WORD = e + 1 - b := by
  obtain ⟨hle, hlt, hspan, -, -, -, -⟩ := h
  rw [WORD_eq] at *
  have hzw := lvlSize_sizes hn
  generalize lvlSize (n + 1) = z at *
  generalize lvlSize (n + 2) = w at *
  rcases hzw with ⟨rfl, rfl⟩ | ⟨rfl, rfl⟩ | ⟨rfl, rfl⟩ | ⟨rfl, rfl⟩ <;> omega

end Arithmetic

theorem lvlSize_page : lvlSize (0 + 1) = 4096 := by
  unfold lvlSize
  rfl

/-- A range below an entry of level 1 is one page. -/
theorem RangeOk.page (h : RangeOk 0 b e phys) : e + 1 - b = 4096 := by
  obtain ⟨hle, -, hspan, hb, he, -, -⟩ := h
  rw [lvlSize_page] at hspan
  omega

/-- The addresses of a range with one entry select it. -/
theorem RangeOk.index_eq (h : RangeOk n b e phys) (hbv : b ≤ v) (hve : v ≤ e) :
    pageTable.index (n + 1) v = pageTable.index (n + 1) b := by
  have hv : v / lvlSize (n + 1) = b / lvlSize (n + 1) :=
    le_antisymm (h.span ▸ Nat.div_le_div_right hve) (Nat.div_le_div_right hbv)
  simp only [pageTable, hv]

end AuOs
