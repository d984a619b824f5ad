import Mathlib
import AuOs.Paging.KmapPages

/-!
# Runs of `kmap` and `kunmap`

* `KmapSystem` — the tables and ranges, the mappings that are live, and the pointers into the direct
  mapping that `kmap` returned for single pages.
* `kmapCalls` — any number of calls, each pointer unmapped at most once.
* `KmapOk` — the invariant; `kmap_spec`, `kunmap_spec` are the two calls.
* `kmapCalls_keeps` — no call stops.
-/

set_option autoImplicit false

namespace AuOs

/-- The live mappings, by the slot of their range and their pages, are kept beside the state. -/
structure KmapSystem where
  k : Kmap
  mapped : List (Nat × List Nat)
  direct : List Nat

inductive KmapCall where
  | kmap (pages : List Nat)
  | kunmap (ptr : Nat)

/-- A pointer that `kmap` returned, and that is not unmapped yet. -/
def KmapSystem.Live (s : KmapSystem) (ptr : Nat) : Prop :=
  ptr = 0 ∨ ptr ∈ s.direct ∨ ∃ m ∈ s.mapped, kmapAddr m.1 = ptr

/-- The direct mapping would put the page into the region: the region begins where the direct
mapping of `MAX_PMEM_SIZE` bytes ends. -/
def InRegion (page : Nat) : Prop :=
  MAX_PMEM_SIZE ≤ page * 4096 ∧ page * 4096 < MAX_PMEM_SIZE + KMAP_SIZE

/-- Pages come from the zones; the address of a single page is not one of the region. -/
def KmapLegal (zones : List Zone) (pages : List Nat) : Prop :=
  KmapPagesOk zones pages ∧ ∀ page, pages = [page] → ¬ InRegion page

/-- The calls, and what becomes of the pointers. -/
def kmapCalls (zones : List Zone) (pml4 : Nat) : CallSystem KmapSystem KmapCall Stop where
  legal s
    | .kmap pages => KmapLegal zones pages
    | .kunmap ptr => s.Live ptr
  exec s
    | .kmap pages => do
      let (k, ptr) ← kmap zones pml4 pages s.k
      if ptr = 0 then return { s with k }
      else if pages.length = 1 then return { s with k, direct := ptr :: s.direct }
      else return { s with k, mapped := (addrKmap ptr, pages) :: s.mapped }
    | .kunmap ptr => do
      let k ← kunmap pml4 ptr s.k
      return ⟨k, s.mapped.filter fun m => decide (kmapAddr m.1 ≠ ptr), s.direct.erase ptr⟩

/-- The addresses of a live mapping. -/
def Mapped (m : Nat × List Nat) (v : Nat) : Prop := OnPages (kmapAddr m.1) m.2.length v

/-- The ranges in use are those of the live mappings, and the tables map their pages and no
others. -/
structure KmapOk (pml4 : Nat) (s : KmapSystem) : Prop where
  region : RegionOk s.k.mem pml4
  heap : ∃ l, KmapHeap.Ok ⟨s.k.ranges, s.mapped.map fun m => (m.1, m.2.length)⟩ l
  size : ∀ m ∈ s.mapped, 2 ≤ m.2.length
  maps : ∀ m ∈ s.mapped, ∀ v, Mapped m v →
    translate s.k.mem pml4 v = kmapTarget (kmapAddr m.1) m.2 v
  free : ∀ v, KMAP_BEGIN ≤ v → v < KMAP_END → (∀ m ∈ s.mapped, ¬ Mapped m v) →
    translate s.k.mem pml4 v = none
  direct : ∀ ptr ∈ s.direct, ptr < KMAP_BEGIN ∨ KMAP_END ≤ ptr

variable {zones : List Zone} {pml4 : Nat} {s : KmapSystem} {m m' : Nat × List Nat} {v : Nat}

theorem kmapAddr_eq (range : Nat) : kmapAddr range = KMAP_BEGIN + range * 4096 := by
  rw [kmapAddr, Nat.shiftLeft_eq]
  rfl

theorem addrKmap_kmapAddr (range : Nat) : addrKmap (kmapAddr range) = range := by
  rw [kmapAddr_eq, addrKmap, Nat.shiftRight_eq_div_pow, show PAGE_SHIFT = 12 from rfl]
  omega

namespace KmapOk

theorem bounds (h : KmapOk pml4 s) (hm : m ∈ s.mapped) : m.1 + m.2.length ≤ KMAP_PAGES := by
  obtain ⟨l, hl⟩ := h.heap
  exact (hl.bounds (List.mem_map_of_mem hm)).2

/-- A mapping lies inside the region. -/
theorem inside (h : KmapOk pml4 s) (hm : m ∈ s.mapped) :
    KMAP_BEGIN ≤ kmapAddr m.1 ∧ kmapAddr m.1 % 4096 = 0 ∧
      kmapAddr m.1 + m.2.length * 4096 ≤ KMAP_END := by
  have := h.bounds hm
  rw [kmapAddr_eq]
  rw [KMAP_PAGES_eq] at this
  rw [KMAP_BEGIN_eq, KMAP_END_eq]
  omega

theorem pairwise (h : KmapOk pml4 s) :
    s.mapped.Pairwise fun m m' => ∀ v, Mapped m v → ¬ Mapped m' v := by
  obtain ⟨l, hl⟩ := h.heap
  refine (List.pairwise_map.mp hl.pairwise).imp ?_
  intro m m' hdis v hv hv'
  unfold Mapped OnPages at hv hv'
  rw [kmapAddr_eq] at hv hv'
  simp only at hdis
  omega

/-- Mappings with an address in common are the same. -/
theorem eq_of_mapped (h : KmapOk pml4 s) (hm : m ∈ s.mapped) (hm' : m' ∈ s.mapped) (hv : Mapped m v)
    (hv' : Mapped m' v) : m = m' := by
  by_contra hne
  have hsymm : Std.Symm fun m m' : Nat × List Nat => ∀ v, Mapped m v → ¬ Mapped m' v :=
    ⟨fun _ _ hd v h1 h2 => hd v h2 h1⟩
  exact h.pairwise.forall hm hm' hne v hv hv'

end KmapOk

/-- The addresses of a range inside the array are canonical addresses of the region. -/
theorem OnPages.region {range n : Nat} (hn : range + n ≤ KMAP_PAGES)
    (hv : OnPages (kmapAddr range) n v) : KMAP_BEGIN ≤ v ∧ v < KMAP_END ∧ Canonical v := by
  unfold OnPages at hv
  unfold Canonical
  rw [kmapAddr_eq] at hv
  rw [KMAP_PAGES_eq] at hn
  rw [KMAP_BEGIN_eq] at *
  rw [KMAP_END_eq, WORD_eq]
  omega

theorem canonical_of_region (h1 : KMAP_BEGIN ≤ v) (h2 : v < KMAP_END) : Canonical v := by
  unfold Canonical
  rw [KMAP_BEGIN_eq] at h1
  rw [KMAP_END_eq] at h2
  rw [WORD_eq]
  omega

/-! ## The two calls -/

/-- What a `kmap` of two pages or more does that did not fail. -/
structure KmapDone (pml4 : Nat) (pages : List Nat) (s : KmapSystem) (k' : Kmap)
    (ptr : Nat) : Prop where
  le : KMAP_BEGIN ≤ ptr
  lt : ptr + pages.length * 4096 ≤ KMAP_END
  new : ∀ m ∈ s.mapped, ∀ v, Mapped m v → ¬ OnPages ptr pages.length v
  maps : ∀ v, OnPages ptr pages.length v → translate k'.mem pml4 v = kmapTarget ptr pages v
  others : ∀ v, Canonical v → ¬ OnPages ptr pages.length v →
    translate k'.mem pml4 v = translate s.k.mem pml4 v

/-- The range for several pages is looked for first. -/
theorem kmap_several (pml4 : Nat) (k : Kmap) {pages : List Nat} (hlen : 2 ≤ pages.length) :
    kmap zones pml4 pages k = do
      let (ranges, range) ← kmapAllocRange k.ranges pages.length
      match range with
      | none => return ({ k with ranges }, 0)
      | some range =>
        let s ← kmapLoop zones pml4 ((kmapAddr range + pages.length * PAGE_SIZE) % WORD) pages
          (kmapAddr range) ⟨k.mem, ()⟩
        return (⟨s.mem, ranges⟩, kmapAddr range) := by
  unfold kmap
  match pages, hlen with
  | _ :: _ :: _, _ => rfl

/-- **`kmap` of several pages.** -/
theorem kmap_spec (h : KmapOk pml4 s) {pages : List Nat} (hpages : KmapPagesOk zones pages)
    (hlen : 2 ≤ pages.length) :
    kmap zones pml4 pages s.k = .ok (s.k, 0) ∨
    ∃ k' range, kmap zones pml4 pages s.k = .ok (k', kmapAddr range) ∧
      KmapDone pml4 pages s k' (kmapAddr range) ∧
      KmapOk pml4 ⟨k', (range, pages) :: s.mapped, s.direct⟩ := by
  obtain ⟨l, hl⟩ := h.heap
  rw [kmap_several pml4 s.k hlen]
  rcases hl.alloc (show 0 < pages.length by omega) with hnone | ⟨ranges, l', range, hsome, hl'⟩
  · rw [hnone]
    exact Or.inl rfl
  · rw [hsome]
    refine Or.inr ?_
    have hbounds := (hl'.bounds (r := (range, pages.length)) List.mem_cons_self).2
    have hnew : ∀ m ∈ s.mapped, ∀ v, Mapped m v → ¬ OnPages (kmapAddr range) pages.length v := by
      intro m hm v hv hon
      have := List.rel_of_pairwise_cons hl'.pairwise (List.mem_map_of_mem hm)
      unfold Mapped OnPages at hv
      unfold OnPages at hon
      rw [kmapAddr_eq] at hv hon
      simp only at this
      omega
    have hin := fun v (hv : OnPages (kmapAddr range) pages.length v) => hv.region hbounds
    have hfree : ∀ v, OnPages (kmapAddr range) pages.length v → translate s.k.mem pml4 v = none :=
      fun v hv => h.free v (hin v hv).1 (hin v hv).2.1 fun m hm hmv => hnew m hm v hmv hv
    have hfrom : KMAP_BEGIN ≤ kmapAddr range ∧ kmapAddr range % 4096 = 0 ∧
        kmapAddr range + pages.length * 4096 ≤ KMAP_END ∧
        (kmapAddr range + pages.length * PAGE_SIZE) % WORD = kmapAddr range +
            pages.length * 4096 := by
      simp only at hbounds
      rw [kmapAddr_eq, show PAGE_SIZE = 4096 from rfl]
      rw [KMAP_PAGES_eq] at hbounds
      rw [KMAP_BEGIN_eq, KMAP_END_eq, WORD_eq]
      omega
    obtain ⟨hb, hal, he, hto⟩ := hfrom
    obtain ⟨s', hloop, hregion, hmaps, hothers⟩ :=
      @kmapLoop_spec pml4 zones pages (kmapAddr range) ⟨s.k.mem, ()⟩ hpages hb hal he h.region hfree
    refine ⟨⟨s'.mem, ranges⟩, range, ?_, ⟨hb, he, hnew, hmaps, hothers⟩, ?_⟩
    · simp only [ok_bind, hto, hloop]
      rfl
    · refine ⟨hregion, ⟨l', hl'⟩, ?_, ?_, ?_, h.direct⟩
      · rintro m (_ | ⟨_, hm⟩)
        · exact hlen
        · exact h.size m hm
      · rintro m (_ | ⟨_, hm⟩) v hv
        · exact hmaps v hv
        · rw [← h.maps m hm v hv]
          exact hothers v (OnPages.region (h.bounds hm) hv).2.2 (hnew m hm v hv)
      · intro v h1 h2 hnot
        have hout : ¬ OnPages (kmapAddr range) pages.length v :=
          hnot (range, pages) List.mem_cons_self
        rw [hothers v (canonical_of_region h1 h2) hout]
        exact h.free v h1 h2 fun m hm => hnot m (List.mem_cons_of_mem _ hm)

/-- The other mappings are those with another pointer. -/
def KmapSystem.others (s : KmapSystem) (ptr : Nat) : List (Nat × List Nat) :=
  s.mapped.filter fun m => decide (kmapAddr m.1 ≠ ptr)

theorem mem_others {ptr : Nat} : m ∈ s.others ptr ↔ m ∈ s.mapped ∧ kmapAddr m.1 ≠ ptr := by
  simp [KmapSystem.others]

/-- **`kunmap` of a live mapping.** -/
theorem kunmap_spec (hpml4 : RootAddr pml4) (h : KmapOk pml4 s) (hm : m ∈ s.mapped) :
    ∃ k', kunmap pml4 (kmapAddr m.1) s.k = .ok k' ∧
      (∀ v, Mapped m v → translate k'.mem pml4 v = none) ∧
      (∀ v, Canonical v → ¬ Mapped m v → translate k'.mem pml4 v = translate s.k.mem pml4 v) ∧
      ∀ direct, direct ⊆ s.direct → KmapOk pml4 ⟨k', s.others (kmapAddr m.1), direct⟩ := by
  obtain ⟨range, pages⟩ := m
  obtain ⟨l, hl⟩ := h.heap
  obtain ⟨hget, hlen, ranges, l', hfree, hl'⟩ := hl.free (List.mem_map_of_mem hm)
  obtain ⟨hb, hal, he⟩ := h.inside hm
  have hsize := h.size _ hm
  simp only at hget hlen hfree hl' hb hal he hsize
  have hto : (kmapAddr range + pages.length * PAGE_SIZE) % WORD =
      kmapAddr range + pages.length * 4096 := by
    apply Nat.mod_eq_of_lt
    rw [show PAGE_SIZE = 4096 from rfl, WORD_eq]
    rw [KMAP_END_eq] at he
    omega
  obtain ⟨mem', hloop, hregion, hnone, hkeep⟩ :=
    kunmapLoop_spec hpml4 (Nat.lt_succ_self pages.length) hb hal he h.region
  have hsame : ∀ m', kmapAddr m'.1 = kmapAddr range → m' ∈ s.mapped → m' = (range, pages) := by
    intro m' haddr hm'
    have hsize' := h.size m' hm'
    apply h.eq_of_mapped (v := kmapAddr range) hm' hm
    · unfold Mapped OnPages
      rw [haddr]
      omega
    · unfold Mapped OnPages
      simp only
      omega
  refine ⟨⟨mem', ranges⟩, ?_, hnone, hkeep, ?_⟩
  · unfold kunmap
    have hin : ¬ (kmapAddr range < KMAP_BEGIN ∨ kmapAddr range ≥ KMAP_END) := by omega
    rw [if_neg hin]
    simp only [addrKmap_kmapAddr, hget, ok_bind, hlen, hto, hloop, hfree]
    rfl
  intro direct hdirect
  refine ⟨hregion, ⟨l', ?_⟩, ?_, ?_, ?_, fun ptr hptr => h.direct ptr (hdirect hptr)⟩
  · have hfilter : (s.mapped.map fun m => (m.1, m.2.length)).filter
        (fun r => decide (r.1 ≠ range)) =
        (s.others (kmapAddr range)).map fun m => (m.1, m.2.length) := by
      rw [List.filter_map, KmapSystem.others]
      congr 1
      apply List.filter_congr
      intro m' _
      simp only [Function.comp_apply, kmapAddr_eq]
      apply decide_eq_decide.mpr
      omega
    rw [← hfilter]
    exact hl'
  · intro m' hm'
    exact h.size m' (mem_others.mp hm').1
  · intro m' hm' v hv
    obtain ⟨hmem, hne⟩ := mem_others.mp hm'
    rw [← h.maps m' hmem v hv]
    apply hkeep v (OnPages.region (h.bounds hmem) hv).2.2
    intro hon
    exact hne (h.eq_of_mapped hmem hm hv hon ▸ rfl)
  · intro v h1 h2 hnot
    by_cases hon : OnPages (kmapAddr range) pages.length v
    · exact hnone v hon
    · rw [hkeep v (canonical_of_region h1 h2) hon]
      apply h.free v h1 h2
      intro m' hm' hv
      by_cases haddr : kmapAddr m'.1 = kmapAddr range
      · obtain rfl := hsame m' haddr hm'
        exact hon hv
      · exact hnot m' (mem_others.mpr ⟨hm', haddr⟩) hv

/-- A pointer outside the region is not looked at. -/
theorem kunmap_outside (pml4 : Nat) (k : Kmap) {ptr : Nat} (h : ptr < KMAP_BEGIN ∨ KMAP_END ≤ ptr) :
    kunmap pml4 ptr k = .ok k :=
  if_pos h

/-- The addresses of the direct mapping wrap around behind the region. -/
theorem va_page {page : Nat} (hlt : page < 2 ^ 40) :
    (KMAP_BEGIN ≤ va (page * 4096) ∧ va (page * 4096) < KMAP_END) ↔ InRegion page := by
  unfold va InRegion
  rw [KMAP_BEGIN_eq, KMAP_END_eq, WORD_eq, show HIGHER_BASE = 18446603336221196288 from rfl,
    show MAX_PMEM_SIZE = 140733193388032 from rfl, show KMAP_SIZE = 2147483648 from rfl]
  omega

/-- A single page is not mapped: its address in the direct mapping is returned. -/
theorem kmap_single (pml4 : Nat) (k : Kmap) {page : Nat} (h : KmapPagesOk zones [page]) :
    ∃ ptr, kmap zones pml4 [page] k = .ok (k, ptr) ∧ ptr = va (page * 4096) ∧
      ((KMAP_BEGIN ≤ ptr ∧ ptr < KMAP_END) ↔ InRegion page) := by
  obtain ⟨hz, hlt⟩ := h page List.mem_cons_self
  refine ⟨va (page * 4096), ?_, rfl, va_page hlt⟩
  show (pageAddr zones page >>= fun phys => .ok (k, va phys)) = _
  rw [pageAddr_eq hz hlt]
  rfl

/-- **Every call keeps the invariant**, and none stops. -/
theorem kmapCalls_keeps (zones : List Zone) (hpml4 : RootAddr pml4) :
    (kmapCalls zones pml4).Keeps (fun _ => False) (KmapOk pml4) := by
  intro s c h hlegal
  cases c with
  | kmap pages =>
    show Post (kmap zones pml4 pages s.k >>= _) _ _
    match pages, hlegal with
    | [], _ => exact h
    | [page], hlegal =>
      obtain ⟨ptr, hkmap, _, hregion⟩ := kmap_single pml4 s.k hlegal.1
      have hout := mt hregion.mp (hlegal.2 page rfl)
      simp only [hkmap, ok_bind]
      by_cases hzero : ptr = 0
      · simp only [if_pos hzero]
        exact h
      · simp only [if_neg hzero, List.length_singleton, if_true]
        refine Post.ok ⟨h.region, h.heap, h.size, h.maps, h.free, ?_⟩
        rintro p (_ | ⟨_, hp⟩)
        · omega
        · exact h.direct p hp
    | page :: page' :: pages, hlegal =>
      have hlen : 2 ≤ (page :: page' :: pages).length := by simp
      have hne : ∀ range, kmapAddr range ≠ 0 := by
        intro range
        rw [kmapAddr_eq, KMAP_BEGIN_eq]
        omega
      rcases kmap_spec h hlegal.1 hlen with hkmap | ⟨k', range, hkmap, _, h'⟩
      · rw [hkmap]
        exact h
      · rw [hkmap]
        simp only [ok_bind, if_neg (hne range),
          if_neg (show ¬ (page :: page' :: pages).length = 1 by simp), addrKmap_kmapAddr]
        exact h'
  | kunmap ptr =>
    show Post (kunmap pml4 ptr s.k >>= _) _ _
    have hout : ptr < KMAP_BEGIN ∨ KMAP_END ≤ ptr →
        Post (kunmap pml4 ptr s.k >>= fun k =>
          .ok (⟨k, s.others ptr, s.direct.erase ptr⟩ : KmapSystem))
          (fun _ => False) (KmapOk pml4) := by
      intro hptr
      have hothers : s.others ptr = s.mapped := by
        apply List.filter_eq_self.mpr
        intro m hm
        obtain ⟨hb, _, he⟩ := h.inside hm
        have := h.size m hm
        apply decide_eq_true
        omega
      rw [kunmap_outside pml4 s.k hptr, hothers]
      exact ⟨h.region, h.heap, h.size, h.maps, h.free,
        fun p hp => h.direct p (List.mem_of_mem_erase hp)⟩
    rcases hlegal with rfl | hdirect | ⟨m, hm, rfl⟩
    · exact hout (Or.inl (by decide))
    · exact hout (h.direct ptr hdirect)
    · obtain ⟨k', hkunmap, _, _, h'⟩ := kunmap_spec hpml4 h hm
      rw [hkunmap]
      exact h' _ List.erase_subset

end AuOs
