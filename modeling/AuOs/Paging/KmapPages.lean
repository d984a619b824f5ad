import Mathlib
import AuOs.Paging.Kmap
import AuOs.Paging.Walk
import AuOs.Paging.KmapRun

/-!
# The pages of the kmap region

* `RegionOk` — the tables form a tree that has a table of level 1 for every address of the region.
* `mapPage_spec`, `clearPage_spec` — one page is mapped without a pool, and unmapped by clearing its
  last-level entry.
* `kmapLoop_spec`, `kunmapLoop_spec` — the loops over the pages of a range.
-/

set_option autoImplicit false

namespace AuOs

variable {pml4 a phys v : Nat} {mem : PageTables}

theorem KMAP_BEGIN_eq : KMAP_BEGIN = 18446744069414584320 := rfl

theorem KMAP_END_eq : KMAP_END = 18446744071562067968 := rfl

theorem KMAP_PAGES_eq : KMAP_PAGES = 524288 := rfl

/-- What `cr3` can hold.  It may be page 0. -/
structure RootAddr (pml4 : Nat) : Prop where
  aligned : pml4 % 4096 = 0
  lt : pml4 < 2 ^ 52

/-- No page of the region needs a new table. -/
structure RegionOk (mem : PageTables) (pml4 : Nat) : Prop where
  tree : pageTable.Tree mem 4 pml4
  built : ∀ v, KMAP_BEGIN ≤ v → v < KMAP_END → ∃ c, pageTable.bottom mem 3 pml4 v = some c

/-- The address of a page of the region. -/
structure RegionPage (a : Nat) : Prop where
  le : KMAP_BEGIN ≤ a
  lt : a + 4096 ≤ KMAP_END
  aligned : a % 4096 = 0

theorem RegionPage.lastAddr (h : RegionPage a) : lastAddr ((a + 4096) % WORD) = a + 4095 := by
  obtain ⟨h1, h2, h3⟩ := h
  unfold AuOs.lastAddr
  rw [KMAP_BEGIN_eq] at h1
  rw [KMAP_END_eq] at h2
  rw [WORD_eq]
  omega

theorem RegionPage.pageRange (h : RegionPage a) (hp : phys % 4096 = 0)
    (hlt : phys + 4095 < 2 ^ 52) : PageRange a ((a + 4096) % WORD) phys := by
  have hlast := h.lastAddr
  obtain ⟨h1, h2, h3⟩ := h
  rw [KMAP_BEGIN_eq] at h1
  rw [KMAP_END_eq] at h2
  have hmod : (a + 4096) % WORD = a + 4096 := by
    rw [WORD_eq]
    omega
  refine ⟨h3, ?_, Nat.mod_lt _ (by decide), ?_, Or.inr ?_, hp, ?_⟩
  · rw [hmod]
    show (a + 4096) % 4096 = 0
    omega
  · rw [hlast]
    omega
  · rw [WORD_eq]
    omega
  · rw [hlast]
    omega

theorem RegionPage.inside (h : RegionPage a) (h1 : a ≤ v) (h2 : v ≤ a + 4095) :
    KMAP_BEGIN ≤ v ∧ v < KMAP_END := by
  have := h.le
  have := h.lt
  omega

/-- Where an address is canonical and its translation may change. -/
def OnPage (a v : Nat) : Prop := a ≤ v ∧ v ≤ a + 4095

/-- **One page is mapped**, without a pool. -/
theorem mapPage_spec {s : Paging Unit} (h : RegionOk s.mem pml4) (ha : RegionPage a)
    (hp : phys % 4096 = 0) (hlt : phys + 4095 < 2 ^ 52)
    (hfree : ∀ v, OnPage a v → translate s.mem pml4 v = none) :
    ∃ s', ptMapPages pml4 a ((a + PAGE_SIZE) % WORD) phys PTE_WRITE none s = .ok s' ∧
      RegionOk s'.mem pml4 ∧
      (∀ v, OnPage a v → translate s'.mem pml4 v = some ⟨phys + (v - a), true, true⟩) ∧
      ∀ v, Canonical v → ¬ OnPage a v → translate s'.mem pml4 v = translate s.mem pml4 v := by
  have hok : PoolOk (none : Option (PagePool Unit)) (fun _ => False) (fun _ _ _ => True) :=
    ⟨fun _ _ => trivial, nofun⟩
  have hr := ha.pageRange hp hlt
  have hlast := ha.lastAddr
  have hready : MapReady (none : Option (PagePool Unit)) (fun _ _ _ => True)
      (0 + 512 * entryPages 3) 3 pml4 a (lastAddr ((a + 4096) % WORD)) Set.univ s := by
    refine ⟨h.tree, Set.subset_univ _, trivial, ?_, ?_⟩
    · intro v h1 h2
      exact hfree v ⟨h1, hlast ▸ h2⟩
    · intro _ v h1 h2
      obtain ⟨h3, h4⟩ := ha.inside h1 (hlast ▸ h2)
      exact h.built v h3 h4
  obtain ⟨s', hexec, fresh, hd⟩ := (ptMapPages_spec hok
    (show PTE_WRITE &&& PTE_PHYS_MASK = 0 by decide) hr hready).returns
  refine ⟨s', hexec, ⟨hd.remap.tree, ?_⟩, ?_, ?_⟩
  · intro v h1 h2
    obtain ⟨c, hc⟩ := h.built v h1 h2
    refine ⟨c, hd.remap.bottom v c ?_ hc⟩
    have h3 := ha.le
    have h4 := ha.lt
    unfold SameTable
    rw [lvlSize_root]
    rw [KMAP_BEGIN_eq] at *
    rw [KMAP_END_eq] at *
    omega
  · rintro v ⟨h1, h2⟩
    rw [hd.translate_inside hr h1 (hlast.symm ▸ h2), mapTarget_user]
    rfl
  · intro v hv hout
    exact hd.translate_outside hr hv fun hin => hout ⟨hin.1, hlast ▸ hin.2⟩

/-! ## Unmapping a page -/

/-- The place that `kunmap` finds is the entry of the table of level 1. -/
theorem ptePlace_eq {addr c : Nat} : ∀ {n t : Nat} {pte : Pte}, n ≤ 3 →
    (pte &&& PTE_PHYS_MASK).toNat = t → pageTable.bottom mem n t addr = some c →
    ptePlace mem addr (n + 1) pte = .ok (c, pageTable.index 1 addr)
  | 0, t, pte, _, ht, hc => by
    obtain rfl : t = c := Option.some.inj hc
    rw [ptePlace, pmlOffs_eq (by decide) (by decide), ok_bind, ht]
    rfl
  | n + 1, t, pte, hn, ht, hc => by
    obtain ⟨d, hd⟩ := Radix.exists_table hc
    rw [Radix.bottom_table hd] at hc
    rw [ptePlace, pmlOffs_eq (by omega) (by omega), ok_bind, if_neg (by omega), ht]
    exact ptePlace_eq (by omega) (pteSlot_table hd).2.2 hc

/-- Clearing the last-level entry of a page. -/
theorem clear_remap {c : Nat} (ha : a % 4096 = 0) : ∀ {n t : Nat}, n ≤ 3 →
    pageTable.Tree mem (n + 1) t → pageTable.bottom mem n t a = some c →
    pageTable.Remap mem (Radix.put mem c (pageTable.index 1 a) 0) n t (SameTable n a) (OnPage a)
      (fun _ => none) ∅
  | 0, t, _, htree, hc => by
    obtain rfl : t = c := Option.some.inj hc
    have hnot : ∀ (pte : Pte) c, pageTable.decode (0 + 1) pte ≠ .table c := fun pte c hc =>
      (pteSlot_table hc).2.1 rfl
    have hzero : pageTable.decode (0 + 1) (0 : Pte) = .absent :=
      (@pteSlot_absent 1 0).mpr (by decide)
    have hremap := Radix.Remap.write (D := SameTable 0 a) (f := fun _ => none)
      (i := pageTable.index (0 + 1) a) (e := (0 : Pte)) htree (fun c => hnot _ c)
        (fun c => hnot _ c)
      (fun v _ _ => Or.inl ⟨hzero, rfl⟩)
    refine hremap.congr (fun v hv => ?_) (fun _ _ _ => rfl) rfl
    unfold SameTable at hv
    unfold OnPage
    simp only [pageTable]
    have hzw := lvlSize_sizes (show 0 ≤ 3 by decide)
    rw [lvlSize_page] at *
    generalize lvlSize (0 + 2) = w at *
    rcases hzw with ⟨-, rfl⟩ | ⟨h, -⟩ | ⟨h, -⟩ | ⟨h, -⟩ <;> omega
  | n + 1, t, hn, htree, hc => by
    obtain ⟨d, hd⟩ := Radix.exists_table hc
    rw [Radix.bottom_table hd] at hc
    have hremap := clear_remap ha (by omega) (htree.1 _ d hd).1 hc
    refine Radix.Remap.child htree hd (fun _ hx => hx.elim) (fun v hv hon => ?_)
      (hremap.anti fun v hv => sameTable_child hn hv.1 hv.2)
    unfold OnPage at hon
    simp only [pageTable]
    have hzw := lvlSize_sizes (show n + 1 ≤ 3 by omega)
    generalize lvlSize (n + 1 + 1) = z at *
    generalize lvlSize (n + 1 + 2) = w at *
    clear hremap hc hd htree
    rcases hzw with ⟨rfl, rfl⟩ | ⟨rfl, rfl⟩ | ⟨rfl, rfl⟩ | ⟨rfl, rfl⟩ <;> omega

/-- **One page is unmapped.** -/
theorem clearPage_spec (hpml4 : RootAddr pml4) (h : RegionOk mem pml4) (ha : RegionPage a) :
    ∃ table index, ptePlace mem a 4 (BitVec.ofNat 64 pml4) = .ok (table, index) ∧
      RegionOk (Radix.put mem table index 0) pml4 ∧
      (∀ v, OnPage a v → translate (Radix.put mem table index 0) pml4 v = none) ∧
      ∀ v, Canonical v → ¬ OnPage a v →
        translate (Radix.put mem table index 0) pml4 v = translate mem pml4 v := by
  obtain ⟨ha1, ha2⟩ := ha.inside (v := a) le_rfl (by omega)
  obtain ⟨c, hc⟩ := h.built a ha1 ha2
  have hphys : (BitVec.ofNat 64 pml4 &&& PTE_PHYS_MASK).toNat = pml4 := by
    have := @pte_phys pml4 0 hpml4.aligned hpml4.lt (by decide)
    simpa using this
  have hremap := clear_remap ha.aligned (n := 3) (by decide) h.tree hc
  have hsame : ∀ v, KMAP_BEGIN ≤ v → v < KMAP_END → SameTable 3 a v := by
    intro v h1 h2
    unfold SameTable
    rw [lvlSize_root]
    rw [KMAP_BEGIN_eq] at *
    rw [KMAP_END_eq] at *
    omega
  refine ⟨c, pageTable.index 1 a, ptePlace_eq (by decide) hphys hc, ⟨hremap.tree, ?_⟩, ?_, ?_⟩
  · intro v h1 h2
    obtain ⟨d, hd⟩ := h.built v h1 h2
    exact ⟨d, hremap.bottom v d (hsame v h1 h2) hd⟩
  · intro v hv
    obtain ⟨h1, h2⟩ := ha.inside hv.1 hv.2
    exact hremap.inside v (hsame v h1 h2) hv
  · intro v hv hout
    refine translate_outside (b := a) (e := a + 4095) (by omega) ?_ (Or.inr ?_)
      (fun u hu hnot => hremap.outside u hu hnot) hv hout
    · have := ha.lt
      rw [KMAP_END_eq] at this
      rw [WORD_eq]
      omega
    · rw [KMAP_BEGIN_eq] at ha1
      rw [WORD_eq]
      omega

/-! ## The loops -/

/-- What the pages of a mapping translate to, from its first address on. -/
def kmapTarget (from_ : Nat) (pages : List Nat) (v : Nat) : Option Mapping :=
  pages[(v - from_) / 4096]?.map fun page => ⟨page * 4096 + v % 4096, true, true⟩

/-- The addresses of a mapping of so many pages. -/
def OnPages (from_ count v : Nat) : Prop := from_ ≤ v ∧ v < from_ + count * 4096

/-- The pages can be mapped. -/
def KmapPagesOk (zones : List Zone) (pages : List Nat) : Prop :=
  ∀ page ∈ pages, (∃ zone ∈ zones, zone.contains page = true) ∧ page < 2 ^ 40

theorem kmapLoop_spec {zones : List Zone} : ∀ {pages : List Nat} {from_ : Nat} {s : Paging Unit},
    KmapPagesOk zones pages → KMAP_BEGIN ≤ from_ → from_ % 4096 = 0 →
    from_ + pages.length * 4096 ≤ KMAP_END → RegionOk s.mem pml4 →
    (∀ v, OnPages from_ pages.length v → translate s.mem pml4 v = none) →
    ∃ s', kmapLoop zones pml4 (from_ + pages.length * 4096) pages from_ s = .ok s' ∧
      RegionOk s'.mem pml4 ∧
      (∀ v, OnPages from_ pages.length v → translate s'.mem pml4 v = kmapTarget from_ pages v) ∧
      ∀ v, Canonical v → ¬ OnPages from_ pages.length v →
        translate s'.mem pml4 v = translate s.mem pml4 v
  | [], from_, s, _, _, _, _, h, _ => by
    refine ⟨s, if_pos (by simp), h, fun v hv => ?_, fun _ _ _ => rfl⟩
    unfold OnPages at hv
    rw [List.length_nil] at hv
    omega
  | page :: pages, from_, s, hpages, hb, hal, he, h, hfree => by
    rw [List.length_cons] at *
    obtain ⟨hz, hlt⟩ := hpages page List.mem_cons_self
    have ha : RegionPage from_ := ⟨hb, by omega, hal⟩
    have hmod : (from_ + PAGE_SIZE) % WORD = from_ + 4096 := by
      rw [KMAP_END_eq] at he
      rw [WORD_eq, show PAGE_SIZE = 4096 from rfl]
      omega
    obtain ⟨s₁, hmap, h₁, hin₁, hout₁⟩ := @mapPage_spec pml4 from_ (page * 4096) s h ha
      (by omega) (by omega) fun v hv => hfree v ⟨hv.1, by have := hv.2; omega⟩
    have hcanon : ∀ v, from_ ≤ v → v < from_ + (pages.length + 1) * 4096 → Canonical v := by
      intro v h1 h2
      refine Or.inr ?_
      rw [KMAP_BEGIN_eq] at *
      rw [KMAP_END_eq] at *
      rw [WORD_eq]
      omega
    have hfree₁ : ∀ v, OnPages (from_ + 4096) pages.length v → translate s₁.mem pml4 v = none := by
      rintro v ⟨hv1, hv2⟩
      rw [hout₁ v (hcanon v (by omega) (by omega)) fun hon => by have := hon.2; omega]
      exact hfree v ⟨by omega, by omega⟩
    obtain ⟨s', hloop, h', hin', hout'⟩ := kmapLoop_spec (s := s₁)
      (fun p hp => hpages p (List.mem_cons_of_mem _ hp)) (show KMAP_BEGIN ≤ from_ + 4096 by omega)
      (by omega) (by omega) h₁ hfree₁
    refine ⟨s', ?_, h', ?_, ?_⟩
    · rw [kmapLoop, if_neg (by omega), pageAddr_eq hz hlt, ok_bind, hmap, ok_bind, hmod,
        show from_ + (pages.length + 1) * 4096 = from_ + 4096 + pages.length * 4096 by omega]
      exact hloop
    · rintro v ⟨hv1, hv2⟩
      unfold kmapTarget
      by_cases hfirst : v < from_ + 4096
      · rw [hout' v (hcanon v hv1 hv2) fun hon => by have := hon.1; omega,
          hin₁ v ⟨hv1, by omega⟩, show (v - from_) / 4096 = 0 by omega]
        simp only [List.getElem?_cons_zero, Option.map_some, Option.some.injEq, Mapping.mk.injEq,
          and_true]
        omega
      · rw [hin' v ⟨by omega, by omega⟩, kmapTarget,
          show (v - from_) / 4096 = (v - (from_ + 4096)) / 4096 + 1 by
            omega, List.getElem?_cons_succ]
    · intro v hv hout
      unfold OnPages at hout
      rw [hout' v hv fun hon => by have := hon.1; have := hon.2; omega]
      exact hout₁ v hv fun hon => by have := hon.1; have := hon.2; omega

theorem kunmapLoop_spec (hpml4 : RootAddr pml4) : ∀ {count fuel from_ : Nat} {mem : PageTables},
    count < fuel → KMAP_BEGIN ≤ from_ → from_ % 4096 = 0 → from_ + count * 4096 ≤ KMAP_END →
    RegionOk mem pml4 →
    ∃ mem', kunmapLoop pml4 (from_ + count * 4096) fuel from_ mem = .ok mem' ∧ RegionOk mem' pml4 ∧
      (∀ v, OnPages from_ count v → translate mem' pml4 v = none) ∧
      ∀ v, Canonical v → ¬ OnPages from_ count v → translate mem' pml4 v = translate mem pml4 v
  | _, 0, _, _, hlt, _, _, _, _ => absurd hlt (Nat.not_lt_zero _)
  | 0, fuel + 1, from_, mem, _, _, _, _, h => by
    refine ⟨mem, if_pos (by simp), h, fun v hv => ?_, fun _ _ _ => rfl⟩
    unfold OnPages at hv
    omega
  | count + 1, fuel + 1, from_, mem, hlt, hb, hal, he, h => by
    have ha : RegionPage from_ := ⟨hb, by omega, hal⟩
    have hmod : (from_ + PAGE_SIZE) % WORD = from_ + 4096 := by
      rw [KMAP_END_eq] at he
      rw [WORD_eq, show PAGE_SIZE = 4096 from rfl]
      omega
    obtain ⟨table, index, hplace, h₁, hin₁, hout₁⟩ := clearPage_spec hpml4 h ha
    have hcanon : ∀ v, from_ ≤ v → v < from_ + (count + 1) * 4096 → Canonical v := by
      intro v h1 h2
      refine Or.inr ?_
      rw [KMAP_BEGIN_eq] at *
      rw [KMAP_END_eq] at *
      rw [WORD_eq]
      omega
    obtain ⟨mem', hloop, h', hin', hout'⟩ := @kunmapLoop_spec hpml4 count fuel (from_ + 4096) _
      (by omega) (by omega) (by omega) (by omega) h₁
    refine ⟨mem', ?_, h', ?_, ?_⟩
    · rw [kunmapLoop, if_neg (by omega), hplace, ok_bind, hmod,
        show from_ + (count + 1) * 4096 = from_ + 4096 + count * 4096 by omega]
      exact hloop
    · rintro v ⟨hv1, hv2⟩
      by_cases hfirst : v < from_ + 4096
      · rw [hout' v (hcanon v hv1 hv2) fun hon => by have := hon.1; omega]
        exact hin₁ v ⟨hv1, by omega⟩
      · exact hin' v ⟨by omega, by omega⟩
    · intro v hv hout
      unfold OnPages at hout
      rw [hout' v hv fun hon => by have := hon.1; have := hon.2; omega]
      exact hout₁ v hv fun hon => by have := hon.1; have := hon.2; omega

end AuOs
