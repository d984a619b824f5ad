import Mathlib
import AuOs.Paging.Map

/-!
# The entry points and the walk

* `PageRange` — what the callers of `pt_map_pages` promise of `begin`, `end` and `phys`.
* `ptMapPages_spec`, `ptPopulatePages_spec` — the entry points, on any ready tree.
* `walk_congr_addr` — the walk looks at the low 48 bits of an address only.
* `MapDone.translate_inside`, `MapDone.translate_outside` — the translation of canonical addresses.
-/

set_option autoImplicit false

namespace AuOs

variable {σ : Type}

/-! ## The entry points -/

/-- `end - 1`, as the code computes it. -/
def lastAddr (end_ : Nat) : Nat := (end_ + WORD - 1) % WORD

/-- A range of whole pages inside one canonical half, `end_` exclusive, and the pages from `phys` on
below the limit of physical addresses. -/
structure PageRange (begin_ end_ phys : Nat) : Prop where
  begin_al : begin_ % PAGE_SIZE = 0
  end_al : end_ % PAGE_SIZE = 0
  end_lt : end_ < WORD
  nonempty : begin_ ≤ lastAddr end_
  half : lastAddr end_ < 2 ^ 47 ∨ WORD - 2 ^ 47 ≤ begin_
  phys_al : phys % PAGE_SIZE = 0
  phys_lt : phys + (lastAddr end_ - begin_) < 2 ^ 52

/-- A canonical address. -/
def Canonical (v : Nat) : Prop := v < 2 ^ 47 ∨ (WORD - 2 ^ 47 ≤ v ∧ v < WORD)

theorem lvlSize_root : lvlSize 5 = 281474976710656 := by
  unfold lvlSize
  rfl

variable {begin_ end_ phys pml4 k v : Nat} {flags : Pte} {used fresh : Set Nat} {s s' : Paging σ}
  {pool : Option (PagePool σ)} {E : Stop → Prop} {I : Nat → σ → Set Nat → Prop}

theorem PageRange.rangeOk (h : PageRange begin_ end_ phys) :
    RangeOk 4 begin_ (lastAddr end_) phys := by
  obtain ⟨hb, he, hlt, hne, hhalf, hp, hpl⟩ := h
  have hw : lastAddr end_ < WORD := Nat.mod_lt _ (by decide)
  have hlast : (lastAddr end_ + 1) % 4096 = 0 := by
    unfold lastAddr
    rw [WORD_eq] at *
    rw [show PAGE_SIZE = 4096 from rfl] at he
    omega
  refine ⟨hne, hw, ?_, hb, hlast, hp, hpl⟩
  rw [lvlSize_root]
  rw [WORD_eq] at hw hhalf
  omega

/-- What `pt_map_pages` adds to the flags: the pages are present, and open to user mode. -/
theorem mapTarget_user (flags : Pte) (b phys v : Nat) :
    mapTarget (flags ||| PTE_PRESENT ||| PTE_LARGE ||| PTE_USER) b phys v =
      some ⟨phys + (v - b), decide (flags &&& PTE_WRITE ≠ 0), true⟩ := by
  have hbit : ∀ bit, (flags ||| PTE_PRESENT ||| PTE_LARGE ||| PTE_USER) &&& bit =
      flags &&& bit ||| (PTE_PRESENT ||| PTE_LARGE ||| PTE_USER) &&& bit := fun bit => by
    apply BitVec.eq_of_getLsbD_eq
    intro i hi
    simp only [BitVec.getLsbD_and, BitVec.getLsbD_or]
    grind
  have hset : ∀ i, i < 64 → (PTE_PRESENT ||| PTE_LARGE ||| PTE_USER).getLsbD i = true →
      (flags ||| PTE_PRESENT ||| PTE_LARGE ||| PTE_USER) &&& 1#64 <<< i ≠ 0 := by
    intro i hi hset h0
    have h1 := congrArg (BitVec.getLsbD · i) h0
    simp only [BitVec.getLsbD_and, BitVec.getLsbD_or] at h1 hset
    simp [hi] at h1
    grind
  have hpres : _ &&& PTE_PRESENT ≠ 0 := hset 0 (by decide) (by decide)
  have huser : _ &&& PTE_USER ≠ 0 := hset 2 (by decide) (by decide)
  have hwrite : (flags ||| PTE_PRESENT ||| PTE_LARGE ||| PTE_USER) &&& PTE_WRITE =
      flags &&& PTE_WRITE := by
    rw [hbit, show (PTE_PRESENT ||| PTE_LARGE ||| PTE_USER) &&& PTE_WRITE = 0 by decide]
    simp
  unfold mapTarget
  rw [if_neg hpres, hwrite, decide_eq_true huser]

/-- **`pt_map_pages`.** -/
theorem ptMapPages_spec (hok : PoolOk pool E I) (hf : flags &&& PTE_PHYS_MASK = 0)
    (hr : PageRange begin_ end_ phys)
    (h : MapReady pool I (k + 512 * entryPages 3) 3 pml4 begin_ (lastAddr end_) used s) :
    Post (ptMapPages pml4 begin_ end_ phys flags pool s) E fun s' => ∃ fresh,
      MapDone pool I (flags ||| PTE_PRESENT ||| PTE_LARGE ||| PTE_USER) k 3 pml4 begin_
        (lastAddr end_) phys used fresh s s' := by
  have hmask : (flags ||| PTE_PRESENT ||| PTE_LARGE ||| PTE_USER) &&& PTE_PHYS_MASK = 0 := by
    have hrest : (PTE_PRESENT ||| PTE_LARGE ||| PTE_USER) &&& PTE_PHYS_MASK = 0 := by decide
    apply BitVec.eq_of_getLsbD_eq
    intro i hi
    have h1 := congrArg (BitVec.getLsbD · i) hf
    have h2 := congrArg (BitVec.getLsbD · i) hrest
    simp only [BitVec.getLsbD_and, BitVec.getLsbD_or] at h1 h2 ⊢
    grind
  unfold ptMapPages
  rw [bugOn_neg (by simp [hr.begin_al]), ok_bind, bugOn_neg (by simp [hr.end_al]), ok_bind]
  exact ptMapLvl_spec hok hmask (by decide) h hr.rangeOk

/-- **`pt_populate_pages`.** -/
theorem ptPopulatePages_spec (hok : PoolOk pool E I) (hr : PageRange begin_ end_ 0)
    (h : MapReady pool I (k + 512 * entryPages 3) 3 pml4 begin_ (lastAddr end_) used s) :
    Post (ptPopulatePages pml4 begin_ end_ pool s) E fun s' => ∃ fresh,
      MapDone pool I 0 k 3 pml4 begin_ (lastAddr end_) 0 used fresh s s' := by
  unfold ptPopulatePages
  rw [bugOn_neg (by simp [hr.begin_al]), ok_bind, bugOn_neg (by simp [hr.end_al]), ok_bind]
  exact ptMapLvl_spec hok (by decide) (by decide) h hr.rangeOk

/-! ## The walk of a canonical address -/

theorem pteSlot_leaf {lvl : Nat} {pte : Pte} {l : Nat → Mapping}
    (h : pteSlot lvl pte = .leaf l) {v v' : Nat}
    (hv : v % lvlSize lvl = v' % lvlSize lvl) : l v = l v' := by
  unfold pteSlot at h
  split at h
  · cases h
  · split at h
    · obtain rfl := RadixSlot.leaf.inj h
      simp only [hv]
    · cases h

theorem walk_congr_addr {mem : PageTables} {v v' : Nat} : ∀ {n t : Nat}, n ≤ 4 →
    v % 2 ^ 48 = v' % 2 ^ 48 → pageTable.walk mem n t v = pageTable.walk mem n t v'
  | 0, _, _, _ => rfl
  | n + 1, t, hn, hv => by
    have hmod : v % lvlSize (n + 1) = v' % lvlSize (n + 1) ∧
        pageTable.index (n + 1) v = pageTable.index (n + 1) v' := by
      simp only [pageTable]
      have hzw := lvlSize_sizes (show n ≤ 3 by omega)
      generalize lvlSize (n + 1) = z at *
      generalize lvlSize (n + 2) = w at *
      rcases hzw with ⟨rfl, rfl⟩ | ⟨rfl, rfl⟩ | ⟨rfl, rfl⟩ | ⟨rfl, rfl⟩ <;> omega
    simp only [Radix.walk, hmod.2]
    cases hs : pageTable.decode (n + 1) (mem t (pageTable.index (n + 1) v')) with
    | absent => rfl
    | leaf l => exact congrArg some (pteSlot_leaf hs hmod.1)
    | table c => simp only [walk_congr_addr (show n ≤ 4 by omega) hv]

/-- **Changes below one table of the root** are seen by the addresses of both halves that it serves:
an address of the other half is walked as an address of this half outside the range. -/
theorem translate_outside {mem mem' : PageTables} {b e : Nat} (hle : b ≤ e) (hlt : e < WORD)
    (hhalf : e < 2 ^ 47 ∨ WORD - 2 ^ 47 ≤ b)
    (h : ∀ u, SameTable 3 b u → ¬ (b ≤ u ∧ u ≤ e) → translate mem' pml4 u = translate mem pml4 u)
    (hv : Canonical v) (hout : ¬ (b ≤ v ∧ v ≤ e)) :
    translate mem' pml4 v = translate mem pml4 v := by
  obtain ⟨u, hu, hsame, hnot⟩ : ∃ u, u % 2 ^ 48 = v % 2 ^ 48 ∧ SameTable 3 b u ∧
      ¬ (b ≤ u ∧ u ≤ e) := by
    refine ⟨b / 2 ^ 48 * 2 ^ 48 + v % 2 ^ 48, ?_, ?_, ?_⟩
    · omega
    · unfold SameTable
      rw [lvlSize_root]
      omega
    · unfold Canonical at hv
      rw [WORD_eq] at *
      omega
  have hu' := h u hsame hnot
  unfold translate at hu' ⊢
  rw [← walk_congr_addr (by decide) hu, ← walk_congr_addr (by decide) hu]
  exact hu'

/-- The translations outside the range are as before, in both halves. -/
theorem MapDone.translate_outside
    (hd : MapDone pool I flags k 3 pml4 begin_ (lastAddr end_) phys used fresh s s')
    (hr : PageRange begin_ end_ phys) (hv : Canonical v)
    (hout : ¬ (begin_ ≤ v ∧ v ≤ lastAddr end_)) :
    translate s'.mem pml4 v = translate s.mem pml4 v :=
  AuOs.translate_outside hr.nonempty (Nat.mod_lt _ (by decide)) hr.half
    (fun u hu hnot => hd.remap.outside u hu hnot) hv hout

theorem MapDone.translate_inside
    (hd : MapDone pool I flags k 3 pml4 begin_ (lastAddr end_) phys used fresh s s')
    (hr : PageRange begin_ end_ phys) (hbv : begin_ ≤ v) (hve : v ≤ lastAddr end_) :
    translate s'.mem pml4 v = mapTarget flags begin_ phys v :=
  hd.remap.inside v (hr.rangeOk.sameTable hbv hve) ⟨hbv, hve⟩

end AuOs
