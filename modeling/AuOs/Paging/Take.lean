import Mathlib
import AuOs.Lib.Blocks
import AuOs.Paging.Build

/-!
# How many pages `pt_map_pages` takes

The number of tables that a range needs in a zeroed `pml4`, whatever address it is mapped to.

* `PagePool.counted` — a pool and the number of pages it gave.
* `takenTables` — one table for each entry of the levels above that is not one large page.
* `Took` — what a call did to the tables and to the pool.
* `ptMapEntry_takes`, `ptMapLoop_takes`, `ptMapLvl_takes` — one turn, the loop, the recursion.
-/

set_option autoImplicit false

namespace AuOs

variable {σ : Type}

/-- The same pages, counted. -/
def PagePool.counted (pool : PagePool σ) : PagePool (σ × Nat) where
  get_page s := do
    let (page, s') ← pool.get_page ⟨s.mem, s.pages.1⟩
    return (page, ⟨s'.mem, s'.pages, s.pages.2 + 1⟩)

/-- The tables below a table of level `n + 1` that the addresses from `b` to `e` need, where `b` is
mapped to `p`.  An entry that is one large page needs none. -/
def takenTables : Nat → Nat → Nat → Nat → Nat
  | 0, _, _, _ => 0
  | n + 1, p, b, e =>
    (if n + 2 ≤ 3 ∧ InStep (lvlSize (n + 2)) p b then cutBlocks (lvlSize (n + 2)) b e
      else blocks (lvlSize (n + 2)) b e) + takenTables n p b e

/-- Pages were taken from the pool; of the tables in use only `t` changed, up to its entry `i`. -/
structure Took (pool : PagePool σ) (k taken t i : Nat) (used used' : Set Nat)
    (s s' : Paging (σ × Nat)) : Prop where
  sub : used ⊆ used'
  supply : pool.Yields k s'.pages.1 used'
  count : s'.pages.2 = s.pages.2 + taken
  frame : ∀ x ∈ used, x ≠ t → s'.mem x = s.mem x
  rest : ∀ j, i < j → s'.mem t j = s.mem t j

/-! ## Sizes -/

section Sizes

variable {n b e m p : Nat}

theorem lvlSize_dvd_word (hn : n ≤ 3) : lvlSize (n + 1) ∣ WORD := by
  unfold lvlSize
  interval_cases n <;> decide

theorem lvlSize_dvd_succ (hn : n ≤ 3) : lvlSize (n + 1) ∣ lvlSize (n + 2) := by
  unfold lvlSize
  interval_cases n <;> decide

/-- A range is cut at the end of an entry. -/
theorem takenTables_split (hn : n ≤ 3) (hm : (m + 1) % lvlSize (n + 1) = 0)
    (hb : b ≤ m) (he : m < e) :
    takenTables n p b e = takenTables n p b m + takenTables n ((p + (m + 1 - b)) % WORD)
    (m + 1) e := by
  induction n with
  | zero => rfl
  | succ n ih =>
    have hlow := Nat.mod_eq_zero_of_dvd ((lvlSize_dvd_succ (by omega)).trans
      (Nat.dvd_of_mod_eq_zero hm))
    have hstep := @inStep_add _ _ b (m + 1) p (lvlSize_dvd_word hn) (by omega)
    simp only [takenTables, hstep, ih (by omega) hlow]
    split
    · rw [cutBlocks_split hm hb he]
      ring
    · rw [blocks_split hm hb he]
      ring

/-- A large page needs no tables. -/
theorem takenTables_large (hn : n ≤ 2) (hb : b % lvlSize (n + 1) = 0) (hp : p % lvlSize (n + 1) = 0)
    (he : (e + 1) % lvlSize (n + 1) = 0) : takenTables n p b e = 0 := by
  induction n with
  | zero => rfl
  | succ n ih =>
    have hlow : ∀ x, x % lvlSize (n + 2) = 0 → x % lvlSize (n + 1) = 0 := fun x hx =>
      Nat.mod_eq_zero_of_dvd ((lvlSize_dvd_succ (by omega)).trans (Nat.dvd_of_mod_eq_zero hx))
    have hstep : n + 2 ≤ 3 ∧ InStep (lvlSize (n + 2)) p b := ⟨by omega, hp.trans hb.symm⟩
    rw [takenTables, if_pos hstep, cutBlocks_covered hb he,
      ih (by omega) (hlow b hb) (hlow p hp) (hlow (e + 1) he)]

/-- Another entry needs a table of its own. -/
theorem takenTables_small (h : b / lvlSize (n + 2) = e / lvlSize (n + 2))
    (hcut : ¬ (n + 2 ≤ 3 ∧ b % lvlSize (n + 2) = 0 ∧ p % lvlSize (n + 2) = 0 ∧
      (e + 1) % lvlSize (n + 2) = 0)) :
    takenTables (n + 1) p b e = 1 + takenTables n p b e := by
  rw [takenTables]
  split
  · rename_i hstep
    rw [cutBlocks_one h fun hb => hcut ⟨hstep.1, hb.1, hstep.2.trans hb.1, hb.2⟩]
  · rw [blocks_one h]

end Sizes

theorem pteLarge_ne_zero {flags : Pte} {lvl : Nat} (hl : flags &&& PTE_LARGE ≠ 0)
    (hlvl : lvl = 3 ∨ lvl = 2) : pteLarge flags lvl ≠ 0 := by
  rwa [pteLarge, if_pos hlvl]

/-- The addresses a range is mapped to do not matter for how it is cut. -/
theorem RangeOk.phys_zero {n b e p : Nat} (h : RangeOk n b e p) : RangeOk n b e 0 where
  le := h.le
  lt := h.lt
  span := h.span
  begin_al := h.begin_al
  end_al := h.end_al
  phys_al := rfl
  phys_lt := by
    have := h.phys_lt
    omega

theorem phys_step {p b m : Nat} (hp : p % 4096 = 0) (hb : b % 4096 = 0) (hm : m % 4096 = 0)
    (hle : b ≤ m) : (p + (m - b)) % WORD % 4096 = 0 := by
  rw [WORD_eq]
  omega

/-- The first entry of a range that goes on is covered to its end. -/
theorem RangeOk.first_end {n b e : Nat} (h : RangeOk (n + 1) b e 0) (hn : n ≤ 3)
    (hlt : mapEnd b e (lvlSize (n + 1)) < e) :
    (mapEnd b e (lvlSize (n + 1)) + 1) % lvlSize (n + 1) = 0 := by
  have hpos : 0 < (b / lvlSize (n + 1) + 1) * lvlSize (n + 1) :=
    Nat.mul_pos (Nat.succ_pos _) (by unfold lvlSize; positivity)
  rw [mapEnd_eq hn (h.le.trans_lt h.lt)] at hlt ⊢
  rw [Nat.min_eq_left (by omega), Nat.sub_add_cancel hpos, Nat.mul_mod_left]

/-! ## One turn, the loop, the recursion -/

section Takes

variable {pool : PagePool σ} {flags : Pte} {n k t b e m p : Nat} {used : Set Nat}
  {s : Paging (σ × Nat)}

/-- What is known of the call for a table of level `n + 1` that is zero from the entry of `b` on. -/
def Takes (next : Nat → Nat → Nat → Nat → Paging (σ × Nat) → Res (Paging (σ × Nat)))
    (pool : PagePool σ) (n : Nat) : Prop :=
  ∀ {k t b e p : Nat} {used : Set Nat} {s : Paging (σ × Nat)}, RangeOk (n + 1) b e 0 →
    p % 4096 = 0 → t ∈ used → (∀ i, pageTable.index (n + 1) b ≤ i → s.mem t i = 0) →
    pool.Yields (k + takenTables n p b e) s.pages.1 used →
    ∃ s' used', next t b e p s = .ok s' ∧
      Took pool k (takenTables n p b e) t (pageTable.index (n + 1) e) used used' s s'

/-- The pool gives one more page. -/
theorem counted_get (hy : pool.Yields (k + 1) s.pages.1 used) :
    ∃ page s', poolGetPage (some pool.counted) s = .ok (page, s') ∧ PageAddr page ∧ page ∉ used ∧
      (∀ i, s'.mem page i = 0) ∧ (∀ x, x ≠ page → s'.mem x = s.mem x) ∧ s'.pages.2 = s.pages.2 + 1 ∧
      pool.Yields k s'.pages.1 (insert page used) := by
  obtain ⟨⟨page, s'⟩, hget, hnew, hrest⟩ := hy s.mem
  refine ⟨page, ⟨s'.mem, s'.pages, s.pages.2 + 1⟩, ?_, hnew.addr, hnew.new, hnew.zero,
    hnew.frame, rfl, hrest⟩
  simp only [poolGetPage, PagePool.counted, hget, ok_bind, pure_eq_ok]

/-- **One turn of the loop.** -/
theorem ptMapEntry_takes {next : Nat → Nat → Nat → Nat → Paging (σ × Nat) → Res (Paging (σ × Nat))}
    (hl : flags &&& PTE_LARGE ≠ 0) (hn : n ≤ 3) (hnext : ∀ m, n = m + 1 → Takes next pool m)
    (hr : RangeOk n b e 0) (hp : p % 4096 = 0) (ht : t ∈ used)
    (hz : s.mem t (pageTable.index (n + 1) b) = 0)
    (hy : pool.Yields (k + takenTables n p b e) s.pages.1 used) :
    ∃ s' used', ptMapEntry next flags (some pool.counted) (n + 1) (lvlSize (n + 1)) t
        (pageTable.index (n + 1) b) b e p s = .ok s' ∧
      Took pool k (takenTables n p b e) t (pageTable.index (n + 1) b) used used' s s' := by
  have habsent : s.mem t (pageTable.index (n + 1) b) &&& PTE_PRESENT = 0 := by
    rw [hz]
    decide
  unfold ptMapEntry
  rw [hr.tomap hn]
  simp only [if_pos habsent]
  split
  · rename_i hmap
    obtain ⟨h4, hsize, hb, hpz, -⟩ := hmap
    have hnone : takenTables n p b e = 0 := by
      refine takenTables_large (by omega) hb hpz ?_
      rw [show e + 1 = b + lvlSize (n + 1) by have := hr.le; omega, Nat.add_mod_right, hb]
    rw [hnone, Nat.add_zero] at hy
    rw [hnone]
    refine ⟨_, used, rfl, Set.Subset.rfl, hy, rfl, fun x _ hx => ?_, fun j hj => ?_⟩
    · exact Radix.put_table_ne hx
    · exact Radix.put_index_ne (by omega)
  · rename_i hmap
    cases n with
    | zero =>
      have hwhole := hr.page
      rw [lvlSize_page] at hmap
      exact absurd ⟨by decide, hwhole, hr.begin_al, hp, Or.inr rfl⟩ hmap
    | succ n =>
      have hcut :
          ¬ (n + 2 ≤ 3 ∧ b % lvlSize (n + 2) = 0 ∧ p % lvlSize (n + 2) = 0 ∧
              (e + 1) % lvlSize (n + 2) = 0) := by
        rintro ⟨h3, hb, hpz, he⟩
        exact hmap ⟨by omega, covered_size hr.span hb he, hb, hpz, Or.inl (pteLarge_ne_zero
          hl (by omega))⟩
      rw [takenTables_small hr.span hcut] at hy ⊢
      obtain ⟨page, s₁, hget, haddr, hnew, hzero, hframe, hcount, hrest⟩ :=
        counted_get (k := k + takenTables n p b e) (by rwa [Nat.add_comm 1, ← Nat.add_assoc] at hy)
      have hpt : page ≠ t := fun h => hnew (h ▸ ht)
      have hpde := @pteSlot_pde (n + 2) page (by omega) haddr.aligned haddr.lt
      rw [bugOn_neg (by omega), ok_bind, hget, ok_bind, bugOn_neg haddr.ne_zero, ok_bind,
        (pteSlot_table hpde).2.2]
      obtain ⟨s', used', hrun, hd⟩ := @hnext n rfl k page b e p (insert page used)
        (s₁.put t (pageTable.index (n + 2) b) (BitVec.ofNat 64 page ||| pdeFlags)) hr hp
          (Set.mem_insert ..)
        (fun i _ => by rw [Paging.put_mem, Radix.put_table_ne hpt, hzero]) hrest
      refine ⟨s', used', hrun, (Set.subset_insert ..).trans hd.sub, hd.supply, ?_,
        fun x hx hxt => ?_, fun j hj => ?_⟩
      · rw [hd.count, show (s₁.put _ _ _).pages = s₁.pages from rfl, hcount, Nat.add_assoc]
      · have hxp : x ≠ page := fun h => hnew (h ▸ hx)
        rw [hd.frame x (Set.mem_insert_of_mem _ hx) hxp, Paging.put_mem,
          Radix.put_table_ne hxt, hframe x hxp]
      · rw [hd.frame t (Set.mem_insert_of_mem _ ht) hpt.symm, Paging.put_mem,
          Radix.put_index_ne hj.ne', hframe t hpt.symm]

/-- **The loop**, from the entry of `b` to the entry of `e`. -/
theorem ptMapLoop_takes {next : Nat → Nat → Nat → Nat → Paging (σ × Nat) → Res (Paging (σ × Nat))}
    (hl : flags &&& PTE_LARGE ≠ 0) (hn : n ≤ 3) (hnext : ∀ m, n = m + 1 → Takes next pool m)
    (ht : t ∈ used) (turns : Nat) (hr : RangeOk (n + 1) b e 0) (hp : p % 4096 = 0)
    (hz : ∀ i, pageTable.index (n + 1) b ≤ i → s.mem t i = 0)
    (hturns : pageTable.index (n + 1) b + turns = pageTable.index (n + 1) e + 1)
    (hy : pool.Yields (k + takenTables n p b e) s.pages.1 used) :
    ∃ s' used', ptMapLoop next flags (some pool.counted) (n + 1) (lvlSize (n + 1)) t e turns
        (pageTable.index (n + 1) b) b p s = .ok s' ∧
      Took pool k (takenTables n p b e) t (pageTable.index (n + 1) e) used used' s s' := by
  induction turns generalizing b p used s with
  | zero =>
    have := hr.index_le hn
    omega
  | succ turns ih =>
    have hfirst := hr.first hn
    have hle := hr.first_le hn
    have hlast := hr.last_iff hn
    have hrest := hr.rest hn (m := mapEnd b e (lvlSize (n + 1))) rfl
    have hend := hr.first_end hn
    unfold ptMapLoop
    generalize mapEnd b e (lvlSize (n + 1)) = m at *
    have hbm := hfirst.le
    simp only [hfirst.tomap hn]
    rcases Nat.lt_or_eq_of_le hle with hlt | rfl
    · obtain ⟨hr', -, hindex⟩ := hrest hlt
      have hbeg : (b + (m + 1 - b)) % WORD = m + 1 := by
        rw [Nat.add_sub_of_le (Nat.le_succ_of_le hbm)]
        exact Nat.mod_eq_of_lt (lt_of_le_of_lt hlt hr.lt)
      rw [takenTables_split hn (hend hlt) hbm hlt, Nat.add_comm (takenTables n p b m),
        ← Nat.add_assoc] at hy
      obtain ⟨s₁, used₁, hturn, hd⟩ := ptMapEntry_takes hl hn hnext hfirst hp ht (hz _ le_rfl) hy
      obtain ⟨s', used', hloop, hd'⟩ := ih (hd.sub ht) hr'.phys_zero
        (phys_step hp hr.begin_al hr'.begin_al (Nat.le_succ_of_le hbm))
        (fun i hi => by rw [hd.rest i (by omega), hz i (by omega)]) (by omega) hd.supply
      refine ⟨s', used', ?_, hd.sub.trans hd'.sub, hd'.supply, ?_, fun x hx hxt => ?_,
        fun j hj => ?_⟩
      · rw [hturn, ok_bind, hbeg, ← hindex]
        exact hloop
      · rw [hd'.count, hd.count, takenTables_split hn (hend hlt) hbm hlt, Nat.add_assoc]
      · rw [hd'.frame x (hd.sub hx) hxt, hd.frame x hx hxt]
      · have := hr.index_le hn
        rw [hd'.rest j hj, hd.rest j (by omega)]
    · have hzero : turns = 0 := by
        have := hlast.mp rfl
        omega
      subst hzero
      rw [← hlast.mp rfl]
      obtain ⟨s', used', hturn, hd⟩ := ptMapEntry_takes hl hn hnext hfirst hp ht (hz _ le_rfl) hy
      refine ⟨s', used', ?_, hd⟩
      rw [hturn, ok_bind, ptMapLoop]

/-- One level of the recursion. -/
theorem ptMapLvl_takes_step (hl : flags &&& PTE_LARGE ≠ 0) (hn : n ≤ 3)
    (hnext : ∀ m, n = m + 1 → Takes (ptMapLvl flags (some pool.counted) n) pool m) :
    Takes (ptMapLvl flags (some pool.counted) (n + 1)) pool n := by
  intro k t b e p used s hr hp ht hz hy
  unfold ptMapLvl
  rw [pmlSize_eq (by omega) (by omega), ok_bind, pmlOffs_eq (by omega) (by omega), ok_bind,
    pmlOffs_eq (by omega) (by omega), ok_bind]
  have hle := hr.index_le hn
  exact ptMapLoop_takes hl hn hnext ht _ hr hp hz (by omega) hy

/-- **`__pt_map_pages`** at each level takes exactly these pages. -/
theorem ptMapLvl_takes (hl : flags &&& PTE_LARGE ≠ 0) (hn : n ≤ 3) :
    Takes (ptMapLvl flags (some pool.counted) (n + 1)) pool n := by
  induction n with
  | zero => exact ptMapLvl_takes_step hl hn fun m hm => absurd hm (Nat.succ_ne_zero m).symm
  | succ n ih =>
    refine ptMapLvl_takes_step hl hn fun m hm => ?_
    obtain rfl : n = m := by omega
    exact ih (by omega)

end Takes

end AuOs
