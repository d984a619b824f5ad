import Mathlib
import AuOs.Paging.Take

/-!
# `pt_count_pages`

Reference model of the page counting of `paging.c`.

* `ptCountLvl` — `__pt_count_pages`; `ptCountPages` is the entry point.
* `countEntries` — what the recursion adds up, in closed form; a range in the last entry of the
  `pml4` is counted as if it went to the end of memory.
* `ptCountLvl_eq`, `ptCountPages_eq` — the recursion computes it.
-/

set_option autoImplicit false

namespace AuOs

/-! ## The functions -/

/-- `for (int i = from; i != to; ++i)`: the number of turns, `begin`, `phys` and `count`. -/
def ptCountLoop (next : Nat → Nat → Nat → Res Nat) (lvl size : Nat)
    (notaligned : Bool) (end_ : Nat) : Nat → Nat → Nat → Nat → Res Nat
  | 0, _, _, count => .ok count
  | turns + 1, begin_, phys, count => do
    let entry_end := (begin_ + size) % WORD / size * size
    let map_begin := begin_
    let map_end := if entry_end < end_ then entry_end else end_
    let tomap := (map_end + WORD - map_begin) % WORD
    let more ← (if lvl = 4 ∨ notaligned then next map_begin map_end phys else return 0)
    ptCountLoop next lvl size notaligned end_ turns ((begin_ + tomap) % WORD)
      ((phys + tomap) % WORD) (count + more)

/-- `__pt_count_pages`.  The loop never ends when `from` is above `to`. -/
def ptCountLvl : Nat → Nat → Nat → Nat → Res Nat
  | 0, _, _, _ => .error (.bug .pmlSize)
  | lvl + 1, begin_, end_, phys => do
    let size ← pmlSize (lvl + 1)
    let from_ ← pmlOffs begin_ (lvl + 1)
    let last ← pmlOffs ((end_ + WORD - 1) % WORD) (lvl + 1)
    let to_ := last + 1
    let notaligned := decide (begin_ % size ≠ 0 ∨ phys % size ≠ 0)
    let count := 1
    if lvl + 1 = 1 then return count
    if to_ < from_ then .error .hang
    else ptCountLoop (ptCountLvl lvl) (lvl + 1) size notaligned end_ (to_ - from_) begin_ phys count

/-- `pt_count_pages`. -/
def ptCountPages (begin_ end_ phys : Nat) : Res Nat := ptCountLvl 4 begin_ end_ phys

/-! ## What is counted -/

/-- What the entries of a table of level `n + 1` add for the addresses from `b` to `e`.  Where
`phys` is in step with them, only the first entry can be counted with what is below it. -/
def countEntries : Nat → Nat → Nat → Nat → Nat
  | 0, _, _, _ => 0
  | n + 1, p, b, e =>
    blocks (lvlSize (n + 2)) b e +
      if InStep (lvlSize (n + 1)) p b then
        if b % lvlSize (n + 1) = 0 then 0 else countEntries n p b (firstEnd (lvlSize (n + 2)) b e)
      else countEntries n p b e

/-- What `__pt_count_pages` returns below the `pml4`. -/
def countTable (n p b e : Nat) : Nat :=
  1 + if b % lvlSize (n + 1) = 0 ∧ p % lvlSize (n + 1) = 0 then 0 else countEntries n p b e

section Entries

variable {n p q b e m c : Nat}

theorem lvlSize_pos : 0 < lvlSize n := by
  unfold lvlSize
  positivity

/-- An entry is one table. -/
theorem countEntries_one (hbe : b ≤ e) (h : b / lvlSize (n + 2) = e / lvlSize (n + 2)) :
    countEntries (n + 1) p b e = countTable n p b e := by
  rw [countEntries, blocks_one h, firstEnd_one lvlSize_pos hbe h, countTable]
  congr 1
  by_cases hb : b % lvlSize (n + 1) = 0
  · by_cases hp : p % lvlSize (n + 1) = 0
    · simp [InStep, hb, hp]
    · simp [InStep, hb, hp]
  · simp [hb]

/-- The entries up to the end of one and the entries behind it. -/
theorem countEntries_split (hn : n ≤ 3) (hm : (m + 1) % lvlSize (n + 1) = 0)
    (hb : b ≤ m) (he : m < e) :
    countEntries n p b e = countEntries n p b m + countEntries n ((p + (m + 1 - b)) % WORD)
    (m + 1) e := by
  induction n with
  | zero => rfl
  | succ n ih =>
    have hlow := Nat.mod_eq_zero_of_dvd ((lvlSize_dvd_succ (by omega)).trans
      (Nat.dvd_of_mod_eq_zero hm))
    have hstep := @inStep_add _ _ b (m + 1) p (lvlSize_dvd_word (n := n) (by omega)) (by omega)
    simp only [countEntries, hstep, ih (by omega) hlow, blocks_split hm hb he, hlow, if_true,
      firstEnd_cut lvlSize_pos hm hb he]
    split
    · ring
    · ring

/-- A range that is moved by whole entries, with `phys`, has the same count. -/
theorem countEntries_shift (hn : n ≤ 3) (hc : lvlSize (n + 1) ∣ c)
    (hq : InStep (lvlSize (n + 1)) p (c + q)) :
    countEntries n p (c + b) (c + e) = countEntries n q b e := by
  induction n generalizing e with
  | zero => rfl
  | succ n ih =>
    have hdvd : lvlSize (n + 1) ∣ lvlSize (n + 2) := lvlSize_dvd_succ (by omega)
    have hlow : lvlSize (n + 1) ∣ c := hdvd.trans hc
    have hq' : InStep (lvlSize (n + 1)) p (c + q) := by
      have hmod := congrArg (· % lvlSize (n + 1)) hq
      simp only [Nat.mod_mod_of_dvd _ hdvd] at hmod
      exact hmod
    have hstep : InStep (lvlSize (n + 1)) p (c + b) ↔ InStep (lvlSize (n + 1)) q b := by
      rw [InStep, hq', shift_mod hlow, shift_mod hlow]
      rfl
    simp only [countEntries, blocks_shift hc, hstep, shift_mod hlow, firstEnd_shift hc lvlSize_pos,
      ih (by omega) hlow hq']

/-- Entries that are covered, from address 0 on. -/
theorem countEntries_full (hn : n ≤ 2) (turns : Nat) :
    countEntries (n + 1) q 0 ((turns + 1) * lvlSize (n + 2) - 1) =
      (turns + 1) * countTable n q 0 (blockEnd (lvlSize (n + 2)) 0) := by
  have hz : 0 < lvlSize (n + 2) := lvlSize_pos
  have hend : blockEnd (lvlSize (n + 2)) 0 = lvlSize (n + 2) - 1 := by simp [blockEnd]
  induction turns with
  | zero =>
    rw [Nat.zero_add, Nat.one_mul, Nat.one_mul, hend]
    exact countEntries_one (Nat.zero_le _) (by rw [Nat.zero_div, Nat.div_eq_of_lt (by omega)])
  | succ turns ih =>
    have hsucc : (turns + 1 + 1) * lvlSize (n + 2) = lvlSize (n + 2) + (turns + 1) * lvlSize
      (n + 2) := by ring
    have hpos : 1 ≤ (turns + 1) * lvlSize (n + 2) := Nat.mul_pos (Nat.succ_pos _) hz
    have hstep : InStep (lvlSize (n + 2)) ((q + lvlSize (n + 2)) % WORD) (lvlSize (n + 2) + q) := by
      rw [InStep, Nat.mod_mod_of_dvd _ (lvlSize_dvd_word (n := n + 1) (by omega)), Nat.add_comm]
    rw [hsucc, Nat.add_sub_assoc hpos, countEntries_split (m := lvlSize (n + 2) - 1) (by omega)
      (by rw [Nat.sub_add_cancel hz, Nat.mod_self]) (Nat.zero_le _) (by omega),
        Nat.sub_add_cancel hz, Nat.sub_zero]
    have hshift := @countEntries_shift (n + 1) ((q + lvlSize (n + 2)) % WORD) q 0
      ((turns + 1) * lvlSize (n + 2) - 1) (lvlSize (n + 2)) (by omega) dvd_rfl hstep
    simp only [Nat.add_zero] at hshift
    rw [hshift, ih, countEntries_one (Nat.zero_le _)
      (by rw [Nat.zero_div, Nat.div_eq_of_lt (by omega)]), hend]
    ring

/-- The rest of an entry, then entries that are covered. -/
theorem countEntries_rest (hn : n ≤ 2) (hb : b < WORD) (r : Nat) :
    countEntries (n + 1) p b (blockEnd (lvlSize (n + 2)) b + r * lvlSize (n + 2)) =
      countTable n p b (blockEnd (lvlSize (n + 2)) b) +
        r * countTable n ((p + (WORD - b) % WORD) % WORD) 0 (blockEnd (lvlSize (n + 2)) 0) := by
  have hz : 0 < lvlSize (n + 2) := lvlSize_pos
  have hle := le_blockEnd (b := b) hz
  have hone : countEntries (n + 1) p b (blockEnd (lvlSize (n + 2)) b) =
      countTable n p b (blockEnd (lvlSize (n + 2)) b) := countEntries_one hle (blockEnd_div hz).symm
  cases r with
  | zero => simp only [Nat.zero_mul, Nat.add_zero, hone]
  | succ r =>
    have hpos : 0 < (r + 1) * lvlSize (n + 2) := Nat.mul_pos (Nat.succ_pos _) hz
    have hmod := blockEnd_succ_mod (b := b) hz
    have hstep : InStep (lvlSize (n + 2)) ((p + (blockEnd (lvlSize (n + 2)) b + 1 - b)) % WORD)
        (blockEnd (lvlSize (n + 2)) b + 1 + (p + (WORD - b) % WORD) % WORD) := by
      have hsize := lvlSize_sizes (n := n + 1) (by omega)
      generalize blockEnd (lvlSize (n + 2)) b = m at *
      generalize lvlSize (n + 2) = z at *
      unfold InStep
      rw [WORD_eq] at *
      rcases hsize with ⟨rfl, -⟩ | ⟨rfl, -⟩ | ⟨rfl, -⟩ | ⟨rfl, -⟩ <;> omega
    rw [countEntries_split (m := blockEnd (lvlSize (n + 2)) b) (by omega) hmod hle (by omega), hone,
      ← countEntries_full hn]
    have hshift := @countEntries_shift (n + 1) _ ((p + (WORD - b) % WORD) % WORD) 0
      ((r + 1) * lvlSize (n + 2) - 1) (blockEnd (lvlSize (n + 2)) b + 1) (by omega)
        (Nat.dvd_of_mod_eq_zero hmod) hstep
    simp only [Nat.add_zero] at hshift
    rw [← hshift]
    congr 2
    omega

end Entries

/-! ## The recursion -/

/-- The last address that is counted: to the end of memory in its last block. -/
def lastCounted (z e : Nat) : Nat := if blockEnd z e + 1 < WORD then e else blockEnd z e

theorem le_lastCounted {z e : Nat} (hz : 0 < z) : e ≤ lastCounted z e := by
  unfold lastCounted
  split
  · exact le_rfl
  · exact le_blockEnd hz

section Loop

variable {next : Nat → Nat → Nat → Res Nat} {lvl z n b e p v count turns : Nat} {notaligned : Bool}

/-- No entry is counted. -/
theorem ptCountLoop_skip (h4 : lvl ≠ 4) (end_ : Nat) :
    ptCountLoop next lvl z false end_ turns b p count = .ok count := by
  induction turns generalizing b p with
  | zero => rfl
  | succ turns ih =>
    rw [ptCountLoop]
    simp only [h4, false_or, Bool.false_eq_true, if_false, pure_eq_ok, ok_bind, Nat.add_zero]
    exact ih

/-- Once `begin` has reached the end of memory, every turn counts from address 0 again. -/
theorem ptCountLoop_zero (hcall : lvl = 4 ∨ notaligned) (hp : p < WORD) (hv : next 0 0 p = .ok v) :
    ptCountLoop next lvl z notaligned 0 turns 0 p count = .ok (count + turns * v) := by
  induction turns generalizing count with
  | zero => rw [ptCountLoop, Nat.zero_mul, Nat.add_zero]
  | succ turns ih =>
    rw [ptCountLoop]
    simp only [if_pos hcall, Nat.not_lt_zero, if_false, hv, ok_bind, Nat.zero_add,
      Nat.sub_zero, Nat.mod_self, Nat.zero_mod, Nat.add_zero, Nat.mod_eq_of_lt hp]
    rw [ih]
    congr 1
    ring

/-- What is known of the call for a table of level `n + 1`: a range that ends before the end of
memory, and one whose end has wrapped. -/
structure CountOk (next : Nat → Nat → Nat → Res Nat) (n : Nat) : Prop where
  range : ∀ {b e p : Nat}, RangeOk (n + 1) b e 0 → p % 4096 = 0 → p < WORD →
    blockEnd (lvlSize (n + 2)) b + 1 < WORD → next b (e + 1) p = .ok (countTable n p b e)
  wrapped : ∀ {b p : Nat}, b < WORD → b % 4096 = 0 → p % 4096 = 0 → p < WORD →
    next b 0 p = .ok (countTable n p b (blockEnd (lvlSize (n + 2)) b))

/-- `entry_end` is 0 in the last entry of memory. -/
theorem entryEnd_count (hn : n ≤ 3) (hb : b < WORD) :
    (b + lvlSize (n + 1)) % WORD / lvlSize (n + 1) * lvlSize (n + 1) =
    if blockEnd (lvlSize (n + 1)) b + 1 < WORD then blockEnd (lvlSize (n + 1)) b + 1 else 0 := by
  have hsize := lvlSize_sizes hn
  generalize lvlSize (n + 1) = z at *
  generalize lvlSize (n + 2) = w at *
  unfold blockEnd
  rw [WORD_eq] at *
  rcases hsize with ⟨rfl, rfl⟩ | ⟨rfl, rfl⟩ | ⟨rfl, rfl⟩ | ⟨rfl, rfl⟩ <;> split <;> omega

theorem mapEnd_count (hn : n ≤ 3) (hb : b < WORD) (htop : blockEnd (lvlSize (n + 1)) b + 1 < WORD) :
    (if (b + lvlSize (n + 1)) % WORD / lvlSize (n + 1) * lvlSize (n + 1) < e + 1
      then (b + lvlSize (n + 1)) % WORD / lvlSize (n + 1) * lvlSize (n + 1) else e + 1) =
    firstEnd (lvlSize (n + 1)) b e + 1 := by
  rw [entryEnd_count hn hb, if_pos htop, firstEnd]
  split
  · rw [Nat.min_eq_left (by omega)]
  · rw [Nat.min_eq_right (by omega)]

/-- **The loop** over a range that ends before the end of memory. -/
theorem ptCountLoop_range (hn : n ≤ 2) (hcall : lvl = 4 ∨ notaligned) (h : CountOk next n)
    (hr : RangeOk (n + 2) b e 0) (he : e + 1 < WORD) (hp : p % 4096 = 0) (hpw : p < WORD)
    (hturns : pageTable.index (n + 2) b + turns = pageTable.index (n + 2) e + 1) :
    ptCountLoop next lvl (lvlSize (n + 2)) notaligned (e + 1) turns b p count =
      .ok (count + countEntries (n + 1) p b (lastCounted (lvlSize (n + 2)) e)) := by
  induction turns generalizing b p count with
  | zero =>
    have hle : pageTable.index (n + 2) b ≤ pageTable.index (n + 2) e :=
      hr.index_le (n := n + 1) (by omega)
    omega
  | succ turns ih =>
    have hb : b < WORD := hr.le.trans_lt hr.lt
    have hz : 0 < lvlSize (n + 2) := lvlSize_pos
    have hfirst := hr.first (n := n + 1) (by omega)
    have hlast := hr.last_iff (n := n + 1) (by omega)
    have hrest := hr.rest (n := n + 1) (m := mapEnd b e (lvlSize (n + 2))) (by omega) rfl
    have hmap : mapEnd b e (lvlSize (n + 2)) = firstEnd (lvlSize (n + 2)) b e :=
      mapEnd_eq (n := n + 1) (by omega) hb
    rw [hmap] at hfirst hlast hrest
    rw [ptCountLoop]
    simp only [if_pos hcall]
    by_cases hone : b / lvlSize (n + 2) = e / lvlSize (n + 2)
    · have hfirst_eq : firstEnd (lvlSize (n + 2)) b e = e := firstEnd_one hz hr.le hone
      have hzero : turns = 0 := by
        have hindex : pageTable.index (n + 2) b = pageTable.index (n + 2) e := hlast.mp hfirst_eq
        omega
      subst hzero
      simp only [ptCountLoop]
      have hsame : blockEnd (lvlSize (n + 2)) b = blockEnd (lvlSize (n + 2)) e := by
        rw [blockEnd, hone, blockEnd]
      by_cases htop : blockEnd (lvlSize (n + 2)) b + 1 < WORD
      · rw [mapEnd_count (n := n + 1) (by omega) hb htop, hfirst_eq,
          h.range (hfirst_eq ▸ hfirst) hp hpw htop, ok_bind,
          lastCounted, if_pos (hsame ▸ htop), countEntries_one hr.le hone]
      · -- the last entry of memory
        rw [entryEnd_count (n := n + 1) (by omega) hb, if_neg htop, if_pos (Nat.succ_pos e),
          h.wrapped hb hr.begin_al hp hpw, ok_bind, lastCounted, if_neg (hsame ▸ htop), ← hsame,
          countEntries_one (le_blockEnd hz) (blockEnd_div hz).symm]
    · have hfirst_eq : firstEnd (lvlSize (n + 2)) b e = blockEnd (lvlSize (n + 2)) b :=
        firstEnd_many hz hr.le hone
      have hlt : blockEnd (lvlSize (n + 2)) b < e := by
        by_contra hlt
        exact hone ((le_blockEnd_iff hz hr.le).mp (Nat.not_lt.mp hlt))
      rw [hfirst_eq] at hfirst hrest
      have htop : blockEnd (lvlSize (n + 2)) b + 1 < WORD := by omega
      obtain ⟨hr', -, hindex⟩ := hrest hlt
      have hnext : pageTable.index (n + 2) (blockEnd (lvlSize (n + 2)) b + 1) = pageTable.index
        (n + 2) b + 1 := hindex
      have hle := le_blockEnd (b := b) hz
      have htomap : (blockEnd (lvlSize (n + 2)) b + 1 + WORD - b) % WORD = blockEnd
          (lvlSize (n + 2)) b + 1 - b := by
        rw [show blockEnd (lvlSize (n + 2)) b + 1 + WORD - b = blockEnd (lvlSize (n + 2)) b +
          1 - b + WORD by omega, Nat.add_mod_right, Nat.mod_eq_of_lt (by omega)]
      have hbeg : (b + (blockEnd (lvlSize (n + 2)) b + 1 - b)) % WORD = blockEnd
          (lvlSize (n + 2)) b + 1 := by
        rw [Nat.add_sub_of_le (by omega), Nat.mod_eq_of_lt htop]
      have hcount : blockEnd (lvlSize (n + 2)) b < lastCounted (lvlSize (n + 2)) e :=
        hlt.trans_le (le_lastCounted hz)
      rw [mapEnd_count (n := n + 1) (by omega) hb htop, hfirst_eq, h.range hfirst hp hpw htop,
        ok_bind, htomap, hbeg,
        ih hr'.phys_zero (phys_step hp hr.begin_al hr'.begin_al (by omega))
          (Nat.mod_lt _ (by decide)) (by omega),
        countEntries_split (e := lastCounted (lvlSize (n + 2)) e) (by omega)
          (blockEnd_succ_mod hz) hle hcount,
        countEntries_one hle (blockEnd_div hz).symm, Nat.add_assoc]

/-- **The loop** over a range whose end has wrapped, and that goes on for so many entries. -/
theorem ptCountLoop_wrapped (hn : n ≤ 2) (hcall : lvl = 4 ∨ notaligned) (h : CountOk next n)
    (hb : b < WORD) (hbal : b % 4096 = 0) (hp : p % 4096 = 0) (hpw : p < WORD) :
    ptCountLoop next lvl (lvlSize (n + 2)) notaligned 0 (turns + 1) b p count =
      .ok (count + countEntries (n + 1) p b (blockEnd (lvlSize (n + 2)) b + turns * lvlSize
          (n + 2))) := by
  have hphys : (p + (WORD - b) % WORD) % WORD % 4096 = 0 := by
    rw [WORD_eq] at *
    omega
  have hbeg : (b + (WORD - b) % WORD) % WORD = 0 := by
    rw [WORD_eq] at *
    omega
  have hlt : (p + (WORD - b) % WORD) % WORD < WORD := Nat.mod_lt _ (by decide)
  have hrest := h.wrapped (b := 0) (by decide) rfl hphys hlt
  rw [ptCountLoop]
  simp only [if_pos hcall, Nat.not_lt_zero, if_false, h.wrapped hb hbal hp hpw, ok_bind,
    Nat.zero_add, hbeg]
  rw [ptCountLoop_zero hcall hlt hrest, countEntries_rest hn hb, Nat.add_assoc]

end Loop

section Levels

variable {n b e p : Nat}

theorem index_lt : pageTable.index (n + 1) b < 512 := Nat.mod_lt _ (by decide)

/-- The end of a table, from the end of one of its entries. -/
theorem blockEnd_table (hn : n ≤ 3) : blockEnd (lvlSize (n + 2)) b =
    blockEnd (lvlSize (n + 1)) b + (511 - pageTable.index (n + 1) b) * lvlSize (n + 1) := by
  have hsize := lvlSize_sizes hn
  simp only [pageTable]
  generalize lvlSize (n + 1) = z at *
  generalize lvlSize (n + 2) = w at *
  unfold blockEnd
  rcases hsize with ⟨rfl, rfl⟩ | ⟨rfl, rfl⟩ | ⟨rfl, rfl⟩ | ⟨rfl, rfl⟩ <;> omega

theorem index_last (hn : n ≤ 3) : pageTable.index (n + 1) (WORD - 1) = 511 := by
  have hsize := lvlSize_sizes hn
  simp only [pageTable]
  generalize lvlSize (n + 1) = z at *
  generalize lvlSize (n + 2) = w at *
  rcases hsize with ⟨rfl, rfl⟩ | ⟨rfl, rfl⟩ | ⟨rfl, rfl⟩ | ⟨rfl, rfl⟩ <;> rfl

theorem ptCountLvl_one : CountOk (ptCountLvl 1) 0 := by
  have hone : ∀ b end_ p e, ptCountLvl 1 b end_ p = .ok (countTable 0 p b e) := by
    intro b end_ p e
    rw [ptCountLvl, pmlSize_eq le_rfl (by decide), ok_bind, pmlOffs_eq le_rfl (by decide), ok_bind,
      pmlOffs_eq le_rfl (by decide), ok_bind]
    simp [countTable, countEntries]
  exact ⟨fun _ _ _ _ => hone .., fun _ _ _ _ => hone ..⟩

/-- A table of the levels above the first. -/
theorem ptCountLvl_loop (hn : n ≤ 2) {end_ to_ : Nat}
    (hto : pageTable.index (n + 2) ((end_ + WORD - 1) % WORD) = to_)
    (hle : pageTable.index (n + 2) b ≤ to_) :
    ptCountLvl (n + 2) b end_ p = ptCountLoop (ptCountLvl (n + 1)) (n + 2) (lvlSize (n + 2))
      (decide (b % lvlSize (n + 2) ≠ 0 ∨ p % lvlSize (n + 2) ≠ 0)) end_
        (to_ + 1 - pageTable.index (n + 2) b) b p
      1 := by
  have hback : ¬ to_ + 1 < pageTable.index (n + 2) b := by omega
  rw [ptCountLvl, pmlSize_eq (by omega) (by omega), ok_bind,
    pmlOffs_eq (by omega) (by omega), ok_bind, pmlOffs_eq (by omega) (by omega), ok_bind, hto]
  simp only [if_neg (show ¬ n + 1 + 1 = 1 by omega)]
  exact if_neg hback

/-- The two cases of a table below the `pml4`. -/
theorem ptCountLvl_cases (hn : n ≤ 1) {end_ to_ : Nat}
    (hto : pageTable.index (n + 2) ((end_ + WORD - 1) % WORD) = to_)
    (hle : pageTable.index (n + 2) b ≤ to_)
    (hloop : ptCountLoop (ptCountLvl (n + 1)) (n + 2) (lvlSize (n + 2)) true end_
      (to_ + 1 - pageTable.index (n + 2) b) b p 1 = .ok (1 + countEntries (n + 1) p b e)) :
    ptCountLvl (n + 2) b end_ p = .ok (countTable (n + 1) p b e) := by
  rw [ptCountLvl_loop (by omega) hto hle]
  by_cases hal : b % lvlSize (n + 2) = 0 ∧ p % lvlSize (n + 2) = 0
  · rw [countTable, if_pos hal, decide_eq_false (by simp [hal]), ptCountLoop_skip (by omega)]
  · rw [countTable, if_neg hal, decide_eq_true (by tauto)]
    exact hloop

/-- **One level of the recursion.** -/
theorem ptCountLvl_step (hn : n ≤ 1) (h : CountOk (ptCountLvl (n + 1)) n) :
    CountOk (ptCountLvl (n + 2)) (n + 1) := by
  constructor
  · intro b e p hr hp hpw (htop : blockEnd (lvlSize (n + 3)) b + 1 < WORD)
    have hindex : pageTable.index (n + 2) b ≤ pageTable.index (n + 2) e :=
      hr.index_le (n := n + 1) (by omega)
    have hend : blockEnd (lvlSize (n + 3)) b = blockEnd (lvlSize (n + 3)) e := by
      rw [blockEnd, hr.span, blockEnd]
    have htable : blockEnd (lvlSize (n + 3)) e = blockEnd (lvlSize (n + 2)) e + _ :=
      blockEnd_table (n := n + 1) (by omega)
    have hlt : blockEnd (lvlSize (n + 2)) e + 1 < WORD := by omega
    have hle := le_blockEnd (b := e) (lvlSize_pos (n := n + 2))
    have hto : (e + 1 + WORD - 1) % WORD = e := by
      rw [show e + 1 + WORD - 1 = e + WORD by omega, Nat.add_mod_right, Nat.mod_eq_of_lt hr.lt]
    have hlast : lastCounted (lvlSize (n + 2)) e = e := if_pos hlt
    have hloop := @ptCountLoop_range (ptCountLvl (n + 1)) (n + 2) n b e p 1
      (pageTable.index (n + 2) e + 1 - pageTable.index (n + 2) b) true (by omega) (Or.inr rfl) h hr
        (by omega) hp hpw
      (by omega)
    rw [hlast] at hloop
    exact ptCountLvl_cases hn (by rw [hto]) hindex hloop
  · intro b p hb hbal hp hpw
    have hindex : pageTable.index (n + 2) b < 512 := index_lt
    have hto : pageTable.index (n + 2) ((0 + WORD - 1) % WORD) = 511 := by
      rw [show (0 + WORD - 1) % WORD = WORD - 1 from rfl]
      exact index_last (by omega)
    have hloop := @ptCountLoop_wrapped (ptCountLvl (n + 1)) (n + 2) n b p 1
      (511 - pageTable.index (n + 2) b) true (by omega) (Or.inr rfl) h hb hbal hp hpw
    rw [← blockEnd_table (by omega)] at hloop
    refine ptCountLvl_cases hn hto (by omega) ?_
    rw [show 511 + 1 - pageTable.index (n + 2) b = 511 - pageTable.index (n + 2) b + 1 by omega]
    exact hloop

/-- **`__pt_count_pages`** below the `pml4`. -/
theorem ptCountLvl_eq (hn : n ≤ 2) : CountOk (ptCountLvl (n + 1)) n := by
  induction n with
  | zero => exact ptCountLvl_one
  | succ n ih => exact ptCountLvl_step (by omega) (ih (by omega))

/-- **`pt_count_pages`**, where `e` is the last address. -/
theorem ptCountPages_eq (hr : RangeOk 4 b e 0) (hp : p % 4096 = 0) (hpw : p < WORD) :
    ptCountPages b ((e + 1) % WORD) p = .ok (1 +
      countEntries 3 p b (lastCounted (lvlSize 4) e)) := by
  have hindex : pageTable.index 4 b ≤ pageTable.index 4 e := hr.index_le (by omega)
  have hnext : CountOk (ptCountLvl 3) 2 := ptCountLvl_eq le_rfl
  rcases Nat.lt_or_ge (e + 1) WORD with he | he
  · have hto : (e + 1 + WORD - 1) % WORD = e := by
      rw [show e + 1 + WORD - 1 = e + WORD by omega, Nat.add_mod_right, Nat.mod_eq_of_lt hr.lt]
    rw [Nat.mod_eq_of_lt he, ptCountPages, ptCountLvl_loop le_rfl (by rw [hto]) hindex]
    have hturns : pageTable.index 4 b + (pageTable.index 4 e + 1 - pageTable.index 4 b) =
        pageTable.index 4 e + 1 := by
      omega
    exact ptCountLoop_range le_rfl (Or.inl rfl) hnext hr he hp hpw hturns
  · -- the range goes to the end of memory
    obtain rfl : e = WORD - 1 := by
      have := hr.lt
      omega
    have hlt : pageTable.index 4 b < 512 := index_lt (n := 3)
    have hto : pageTable.index 4 ((0 + WORD - 1) % WORD) = 511 := index_last (n := 3) le_rfl
    have hloop := @ptCountLoop_wrapped (ptCountLvl 3) 4 2 b p 1 (511 - pageTable.index 4 b)
      (decide (b % lvlSize 4 ≠ 0 ∨ p % lvlSize 4 ≠ 0)) le_rfl (Or.inl rfl) hnext
        (hr.le.trans_lt hr.lt) hr.begin_al hp
      hpw
    rw [← blockEnd_table (n := 3) le_rfl] at hloop
    have hend : lastCounted (lvlSize 4) (WORD - 1) = blockEnd (lvlSize 5) b := by
      have hspan : b / lvlSize 5 = (WORD - 1) / lvlSize 5 := hr.span
      rw [blockEnd, hspan]
      unfold lastCounted lvlSize
      rfl
    rw [show (WORD - 1 + 1) % WORD = 0 from rfl, ptCountPages,
      ptCountLvl_loop le_rfl hto hlt.le_pred, hend,
      show 511 + 1 - pageTable.index 4 b = 511 - pageTable.index 4 b + 1 by omega]
    exact hloop

end Levels

end AuOs
