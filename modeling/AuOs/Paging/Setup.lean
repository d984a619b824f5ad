import Mathlib
import AuOs.Balloc.FirstFit
import AuOs.Memory.Setup
import AuOs.Paging.Bootstrap
import AuOs.Paging.Build
import AuOs.Paging.Kmap

/-!
# `paging_setup`

Reference model of `paging_setup` and its pool, on top of the bootstrap allocator.

* `ballocMemory`, `pagingSetupPool`, `pagingSetup` — `balloc_memory`, `paging_setup_get_page` and
  `paging_setup` up to the load of `cr3`.
* `TablePage`, `PoolState` — the pages of the tables are taken from the free memory below 4GB, and
  page 0 is gone once the `pml4` is there: only the `pml4` may lie on it.
* `TablesOk` — what the tables translate; `TablesOk.map` maps one more range.
* `pagingSetup_spec` — the tables that `paging_setup` builds.
-/

set_option autoImplicit false

namespace AuOs

def BOOTSTRAP_MEM : Nat := 0x100000000

/-- `balloc_memory`; an empty tree has no node to read. -/
def ballocMemory (s : Balloc) : Res Nat :=
  match (s.tree .memoryMap).rightmost with
  | none => .error .fault
  | some node => .ok (s.nodes node).end_

/-- The pool of `paging_setup`: `paging_setup_get_page`. -/
def pagingSetupPool : PagePool BootState where
  get_page s := do
    let (pages, page) ← bootAllocRaw s.pages PAGE_SIZE PAGE_SIZE 0 BOOTSTRAP_MEM
    bugOn (page = BOOTSTRAP_MEM) .pagingSetupNoPage
    return (page, { s.clear page with pages })

/-- `mem_size`, for what `balloc_memory` returned. -/
def memSize (memory : Nat) : Nat :=
  if pageMask memory < MAX_PMEM_SIZE then pageMask memory else MAX_PMEM_SIZE

/-- What `paging_setup` leaves: `cr3`, `initrd_begin` and `initrd_end`. -/
structure PagingSetup where
  cr3 : Nat
  initrdBegin : Nat
  initrdEnd : Nat

/-- `paging_setup`. -/
def pagingSetup (img : BootImage) (s : Paging BootState) :
    Res (PagingSetup × Paging BootState) := do
  let memory ← ballocMemory s.pages.balloc
  let pool := some pagingSetupPool
  let (pml4, s) ← poolGetPage pool s
  let s ← ptMapPages pml4 HIGHER_BASE ((HIGHER_BASE + memSize memory) % WORD) 0 PTE_WRITE pool s
  let s ← ptMapPages pml4 VIRTUAL_BASE 0 0 PTE_WRITE pool s
  return (⟨pml4, va img.initrdBegin, va img.initrdEnd⟩, s)

/-! ## The pool -/

/-- `paging_setup` runs out of nodes or of pages. -/
def PagingStop (e : Stop) : Prop := NoNode e ∨ e = .bug .pagingSetupNoPage

/-- A page that was taken from the free memory. -/
structure TablePage (mmap : List MemoryNode) (removed : List (Nat × Nat)) (s : BootState)
    (t : Nat) : Prop where
  aligned : t % PAGE_SIZE = 0
  low : t + PAGE_SIZE ≤ BOOTSTRAP_MEM
  taken : (t, t + PAGE_SIZE) ∈ s.taken
  inMap : ∃ m ∈ mmap, m.begin_ ≤ t ∧ t + PAGE_SIZE ≤ m.end_
  apart : ∀ p ∈ removed, ∀ x, t ≤ x → x < t + PAGE_SIZE → ¬ (p.1 ≤ x ∧ x < p.2)

/-- Part of page 0 is not free. -/
def ZeroGone (s : BootState) : Prop := ∃ x < PAGE_SIZE, x ∉ covered (s.balloc.ranges .freeRanges)

/-- From `s` to `s'`, a page was taken. -/
structure PageTaken (mmap : List MemoryNode) (removed : List (Nat × Nat))
    (s s' : BootState) (page : Nat) : Prop where
  boot : BootOk mmap removed s'
  map : s'.balloc.ranges .memoryMap = s.balloc.ranges .memoryMap
  grows : s.taken ⊆ s'.taken
  table : TablePage mmap removed s' page
  free : ∀ x, page ≤ x → x < page + PAGE_SIZE → x ∈ covered (s.balloc.ranges .freeRanges)
  shrinks : covered (s'.balloc.ranges .freeRanges) ⊆ covered (s.balloc.ranges .freeRanges)
  zero : ZeroGone s'

variable {mmap : List MemoryNode} {removed : List (Nat × Nat)} {s s' : BootState} {b : Balloc}
  {B used : Set Nat} {page : Nat}

/-- What `__balloc_alloc` cut out, when it found a page. -/
structure PageCut (s b : Balloc) (page : Nat) : Prop where
  aligned : page % PAGE_SIZE = 0
  low : page + PAGE_SIZE ≤ BOOTSTRAP_MEM
  inside : ∃ r ∈ s.ranges .freeRanges, r.begin_ ≤ page ∧ page + PAGE_SIZE ≤ r.end_
  trimmed : Trimmed (s.ranges .freeRanges) page (page + PAGE_SIZE) (b.ranges .freeRanges)
  lowest : ∀ r ∈ s.ranges .freeRanges, r.begin_ = 0 → PAGE_SIZE ≤ r.end_ → page = 0

/-- **A page is cut out**, the lowest one that is free. -/
theorem cutPage_spec {s : Balloc} (h : BallocInv s [])
    (hlimit : ∀ r ∈ s.ranges .freeRanges, r.end_ ≤ ADDR_LIMIT) :
    Post (ballocAllocRaw s PAGE_SIZE PAGE_SIZE 0 BOOTSTRAP_MEM) NoNode fun p =>
      p.2 = BOOTSTRAP_MEM ∨ PageCut s p.1 p.2 := by
  have hsize : PAGE_SIZE = 4096 := rfl
  have hov : ∀ r ∈ s.ranges .freeRanges, r.end_ + PAGE_SIZE + PAGE_SIZE ≤ WORD := by
    intro r hr
    have := hlimit r hr
    rw [hsize, WORD_eq]
    rw [ADDR_LIMIT] at this
    omega
  obtain ⟨C, D, hids, hC, hD, ⟨hnone, _⟩ | ⟨A, ptr, D', rfl, hfit, hbefore, heq⟩⟩ :=
    @ballocAllocRaw_search _ _ PAGE_SIZE PAGE_SIZE 0 BOOTSTRAP_MEM h
  · rw [hnone]
    exact Post.ok (Or.inl rfl)
  · have hmem : ∀ q ∈ C ++ (A ++ ptr :: D'), s.nodes q ∈ s.ranges .freeRanges := by
      intro q hq
      rw [Balloc.ranges, hids]
      exact List.mem_map_of_mem hq
    have hnode : ∀ q ∈ A ++ ptr :: D', ∃ a, tryAddr s PAGE_SIZE 0 q = a ∧ (s.nodes q).begin_ ≤ a ∧
        a % PAGE_SIZE = 0 ∧ (a + PAGE_SIZE) % WORD = a + PAGE_SIZE ∧
            ((s.nodes q).begin_ = 0 → a = 0) := by
      intro q hq
      have hin := hmem q (List.mem_append_right _ hq)
      obtain ⟨b, rfl, hword, htry, hle, hmod⟩ :=
        tryAddr_spec (by decide) ((h.ordered .freeRanges).le _ hin) (hD q hq) (hov _ hin)
      refine ⟨_, rfl, (le_max_left ..).trans hle, ?_, hmod, ?_⟩
      · rw [htry]
        exact Nat.mod_eq_zero_of_dvd (@dvd_alignAddr _ PAGE_SHIFT hword)
      · intro h0
        rw [htry, h0]
        exact Nat.le_zero.mp (@alignAddr_le 0 PAGE_SHIFT 0 (by decide) (Nat.dvd_zero _) le_rfl)
    obtain ⟨a, ha, hle, hal, hmod, hzero⟩ := hnode ptr (by simp)
    rw [heq]
    unfold FitsNode at hfit
    rw [ha, hmod] at hfit ⊢
    have hfit' := le_min_iff.mp hfit
    have hptr := hmem ptr (by simp)
    have hlowest : ∀ r ∈ s.ranges .freeRanges, r.begin_ = 0 → PAGE_SIZE ≤ r.end_ → a = 0 := by
      intro r hr h0 hend
      rw [Balloc.ranges, hids] at hr
      obtain ⟨q, hq, rfl⟩ := List.mem_map.mp hr
      rcases List.mem_append.mp hq with hqC | hq
      · have := hC q hqC
        omega
      rcases List.mem_append.mp hq with hqA | hqD
      · -- A node with page 0 would have been taken.
        obtain ⟨c, hc, _, _, hcmod, hc0⟩ := hnode q (List.mem_append_left _ hqA)
        apply absurd _ (hbefore q hqA)
        unfold FitsNode
        rw [hc, hcmod, hc0 h0]
        exact le_min (by omega) (by decide)
      rcases List.mem_cons.mp hqD with rfl | hqD'
      · exact hzero h0
      · have hok := h.ordered .freeRanges
        rw [Balloc.ranges, hids, ← List.append_assoc, List.map_append, List.map_cons] at hok
        have hafter := (List.pairwise_cons.mp (List.pairwise_append.mp hok.apart).2.1).1 _
          (List.mem_map_of_mem hqD')
        omega
    rw [← List.append_assoc] at hids
    refine (cutNode_trimmed h hids (by omega) (by omega) (by omega) ⟨by omega, hfit'.1⟩).bind ?_
    rintro b ⟨_, _, htrim⟩
    exact Post.ok (Or.inr ⟨hal, hfit'.2, ⟨_, hptr, hle, hfit'.1⟩, htrim, hlowest⟩)

theorem PageCut.zeroGone {s : Balloc} (h : PageCut s b page)
    (hok : RangesOk (s.ranges .freeRanges)) :
    ∃ x < PAGE_SIZE, x ∉ covered (b.ranges .freeRanges) := by
  have hsize : PAGE_SIZE = 4096 := rfl
  by_cases hpage : page = 0
  · refine ⟨0, by decide, fun hx => ((h.trimmed.cover 0).mp hx).2 ⟨?_, ?_⟩⟩ <;> omega
  · -- The range at 0, if there is one, is smaller than a page.
    by_cases hr : ∃ r ∈ s.ranges .freeRanges, r.begin_ = 0
    · obtain ⟨r, hr, h0⟩ := hr
      have hend : r.end_ < PAGE_SIZE := by
        by_contra hend
        exact hpage (h.lowest r hr h0 (by omega))
      refine ⟨r.end_, hend, fun hx => ?_⟩
      obtain ⟨r', hr', h1, h2⟩ := ((h.trimmed.cover _).mp hx).1
      obtain ⟨A, D, hl⟩ := List.append_of_mem hr
      have hap := hok.apart
      rw [hl] at hap hr'
      obtain ⟨_, hD, hA⟩ := List.pairwise_append.mp hap
      rcases List.mem_append.mp hr' with hrA | hrD
      · have := hA r' hrA r List.mem_cons_self
        omega
      rcases List.mem_cons.mp hrD with rfl | hrD
      · omega
      · have := (List.pairwise_cons.mp hD).1 r' hrD
        omega
    · refine ⟨0, by decide, fun hx => ?_⟩
      obtain ⟨r, hr', h1, _⟩ := ((h.trimmed.cover 0).mp hx).1
      exact hr ⟨r, hr', Nat.le_zero.mp h1⟩

/-- **A page is taken**, or none is left. -/
theorem takePage_spec (h : BootOk mmap removed s) (hmap : MapOk mmap) :
    Post (bootAllocRaw s PAGE_SIZE PAGE_SIZE 0 BOOTSTRAP_MEM) NoNode fun p =>
      p.2 = BOOTSTRAP_MEM ∨ PageTaken mmap removed s p.1 p.2 := by
  have hlimit : ∀ r ∈ s.balloc.ranges .freeRanges, r.end_ ≤ ADDR_LIMIT := by
    intro r hr
    obtain ⟨m, hm, _, hend⟩ := h.inside r hr
    exact hend.trans (hmap.limit m hm)
  have hspec : Post (bootAllocRaw s PAGE_SIZE PAGE_SIZE 0 BOOTSTRAP_MEM) NoNode _ :=
    bootAllocRaw_spec h (by decide) fun r hr => by
      have hroom : ADDR_LIMIT + PAGE_SIZE + PAGE_SIZE ≤ WORD := by decide
      have := hlimit r hr
      omega
  have hcut : Post (bootAllocRaw s PAGE_SIZE PAGE_SIZE 0 BOOTSTRAP_MEM) NoNode fun p =>
      p.2 = BOOTSTRAP_MEM ∨ PageCut s.balloc p.1.balloc p.2 := by
    unfold bootAllocRaw
    exact (cutPage_spec h.inv hlimit).bind fun p hp => Post.ok hp
  refine (hspec.and hcut).mono ?_
  rintro ⟨s', page⟩ ⟨⟨hboot, honly, hgrows, htaken⟩, hres⟩
  refine or_iff_not_imp_left.mpr fun hne => ?_
  have hcut := hres.resolve_left hne
  obtain ⟨r, hr, h1, h2⟩ := hcut.inside
  obtain ⟨m, hm, h3, h4⟩ := h.inside r hr
  have hfree : ∀ x, page ≤ x → x < page + PAGE_SIZE → x ∈ covered (s.balloc.ranges .freeRanges) :=
    fun x hx hx' => ⟨r, hr, h1.trans hx, hx'.trans_le h2⟩
  exact {
    boot := hboot
    map := honly.ranges
    grows := hgrows
    table := ⟨hcut.aligned, hcut.low, htaken hne, ⟨m, hm, h3.trans h1, h2.trans h4⟩,
        fun p hp x hx hx' =>
      h.avoid p (List.mem_append_left _ hp) x (hfree x hx hx')⟩
    free := hfree
    shrinks := fun x hx => ((hcut.trimmed.cover x).mp hx).1
    zero := hcut.zeroGone (h.inv.ordered .freeRanges) }

/-! ## The supply of pages -/

/-- Between two calls of the pool: every page in use lies among `B`, which is withheld, or was
taken. -/
structure PoolState (mmap : List MemoryNode) (removed : List (Nat × Nat)) (B : Set Nat)
    (s : BootState) (used : Set Nat) : Prop where
  boot : BootOk mmap removed s
  map : s.balloc.ranges .memoryMap = mmap
  zero : ZeroGone s
  used : ∀ t ∈ used, t ∈ B ∨ TablePage mmap removed s t

/-- The page at an address is withheld. -/
def Withheld (removed : List (Nat × Nat)) (t : Nat) : Prop := ∃ p ∈ removed, p.1 ≤ t ∧ t < p.2

theorem TablePage.mono {t : Nat} (h : TablePage mmap removed s t) (hsub : s.taken ⊆ s'.taken) :
    TablePage mmap removed s' t :=
  ⟨h.aligned, h.low, hsub h.taken, h.inMap, h.apart⟩

/-- A page in use is not free. -/
theorem PageTaken.new (h : PageTaken mmap removed s s' page) (hboot : BootOk mmap removed s)
    (hB : ∀ t ∈ B, Withheld removed t) (hused : ∀ t ∈ used, t ∈ B ∨ TablePage mmap removed s t) :
    page ∉ used := by
  intro hpage
  have hfree := h.free page le_rfl (Nat.lt_add_of_pos_right (by decide))
  rcases hused page hpage with hb | ht
  · obtain ⟨p, hp, h1, h2⟩ := hB page hb
    exact hboot.avoid p (List.mem_append_left _ hp) page hfree ⟨h1, h2⟩
  · exact hboot.avoid _ (List.mem_append_right _ ht.taken) page hfree
      ⟨le_rfl, Nat.lt_add_of_pos_right (by decide)⟩

theorem PageTaken.insert (h : PageTaken mmap removed s s' page)
    (hused : ∀ t ∈ used, t ∈ B ∨ TablePage mmap removed s t) :
    ∀ t ∈ insert page used, t ∈ B ∨ TablePage mmap removed s' t := by
  rintro t (rfl | ht)
  · exact Or.inr h.table
  · exact (hused t ht).imp_right fun ht => ht.mono h.grows

/-- The pool gives a page that was taken, cleared. -/
theorem getPage_spec {s : Paging BootState} (h : BootOk mmap removed s.pages) (hmap : MapOk mmap) :
    Post (pagingSetupPool.get_page s) PagingStop fun r =>
      PageTaken mmap removed s.pages r.2.pages r.1 ∧ r.2.mem = (s.clear r.1).mem := by
  unfold pagingSetupPool
  refine ((takePage_spec h hmap).weaken fun _ => Or.inl).bind ?_
  rintro ⟨pages, page⟩ hres
  by_cases hpage : page = BOOTSTRAP_MEM
  · simp only [bugOn, if_pos hpage]
    exact Post.error (Or.inr rfl)
  · simp only [bugOn_neg hpage]
    exact Post.ok ⟨hres.resolve_left hpage, rfl⟩

theorem pagingSetupPool_ok (hmap : MapOk mmap) (hB : ∀ t ∈ B, Withheld removed t) :
    PoolOk (some pagingSetupPool) PagingStop fun _ => PoolState mmap removed B where
  mono _ h := h
  get p hp k s used h := by
    obtain rfl := Option.some.inj hp
    refine (getPage_spec h.boot hmap).mono ?_
    rintro ⟨page, s'⟩ ⟨htaken, hmem⟩
    have hne : page ≠ 0 := by
      rintro rfl
      obtain ⟨x, hx, hout⟩ := h.zero
      exact hout (htaken.free x (Nat.zero_le x) (by omega))
    have hlow := htaken.table.low
    rw [BOOTSTRAP_MEM] at hlow
    refine ⟨⟨⟨hne, htaken.table.aligned, by simp only; omega⟩,
      htaken.new h.boot hB h.used, fun i => ?_,
      fun x hx => ?_⟩, htaken.boot, htaken.map.trans h.map, htaken.zero, htaken.insert h.used⟩
    · have hzero : Function.update s.mem page (fun _ => 0) page = fun _ => 0 :=
        Function.update_self ..
      rw [hmem]
      exact congrFun hzero i
    · rw [hmem]
      exact Function.update_of_ne hx ..

/-! ## The tables -/

/-- The tables below `pml4` translate as `f` says and lie on pages that were taken. -/
structure TablesOk (mmap : List MemoryNode) (removed : List (Nat × Nat)) (B : Set Nat) (pml4 : Nat)
    (f : Nat → Option Mapping) (s : Paging BootState) : Prop where
  tree : pageTable.Tree s.mem 4 pml4
  pool : PoolState mmap removed B s.pages (pageTable.tables s.mem 4 pml4 ∪ B)
  apart : ∀ t ∈ pageTable.tables s.mem 4 pml4, t ∉ B
  maps : ∀ v, Canonical v → translate s.mem pml4 v = f v

variable {pml4 begin_ end_ phys : Nat} {f : Nat → Option Mapping}

theorem PoolState.anti (h : PoolState mmap removed B s used) {used' : Set Nat}
    (hsub : used' ⊆ used) : PoolState mmap removed B s used' :=
  ⟨h.boot, h.map, h.zero, fun t ht => h.used t (hsub ht)⟩

theorem TablesOk.congr {s : Paging BootState} {g : Nat → Option Mapping}
    (h : TablesOk mmap removed B pml4 f s)
    (hfg : ∀ v, Canonical v → f v = g v) : TablesOk mmap removed B pml4 g s :=
  ⟨h.tree, h.pool, h.apart, fun v hv => (h.maps v hv).trans (hfg v hv)⟩

/-- **One more range is mapped.** -/
theorem TablesOk.map {s : Paging BootState} (h : TablesOk mmap removed B pml4 f s)
    (hmap : MapOk mmap) (hB : ∀ t ∈ B, Withheld removed t) (hr : PageRange begin_ end_ phys)
    (hfree : ∀ v, begin_ ≤ v → v ≤ lastAddr end_ → f v = none) :
    Post (ptMapPages pml4 begin_ end_ phys PTE_WRITE (some pagingSetupPool) s) PagingStop fun s' =>
      TablesOk mmap removed B pml4 (fun v => if begin_ ≤ v ∧ v ≤ lastAddr end_ then
        some ⟨phys + (v - begin_), true, true⟩ else f v) s' ∧ ∀ t ∈ B, s'.mem t = s.mem t := by
  have hcan : ∀ v, begin_ ≤ v → v ≤ lastAddr end_ → Canonical v := by
    intro v h1 h2
    have hlast : lastAddr end_ < WORD := Nat.mod_lt _ (by decide)
    have := hr.half
    unfold Canonical
    omega
  have hready : MapReady (some pagingSetupPool) (fun _ => PoolState mmap removed B)
      (0 + 512 * entryPages 3) 3
      pml4 begin_ (lastAddr end_) (pageTable.tables s.mem 4 pml4 ∪ B) s := by
    refine ⟨h.tree, Set.subset_union_left, h.pool, fun v h1 h2 => ?_, nofun⟩
    exact (h.maps v (hcan v h1 h2)).trans (hfree v h1 h2)
  refine (ptMapPages_spec (pagingSetupPool_ok hmap hB) (by decide) hr hready).mono ?_
  rintro s' ⟨fresh, hd⟩
  have hnew : ∀ t ∈ fresh, t ∉ pageTable.tables s.mem 4 pml4 ∧ t ∉ B := fun t ht =>
    ⟨fun hm => hd.new t ht (Or.inl hm), fun hb => hd.new t ht (Or.inr hb)⟩
  refine ⟨⟨hd.remap.tree, hd.supply.anti ?_, fun t ht => ?_, fun v hv => ?_⟩, fun t ht => ?_⟩
  · rintro t (ht | ht)
    · exact (hd.remap.tables ht).imp_left Or.inl
    · exact Or.inl (Or.inr ht)
  · rcases hd.remap.tables ht with hold | hfresh
    · exact h.apart t hold
    · exact (hnew t hfresh).2
  · by_cases hin : begin_ ≤ v ∧ v ≤ lastAddr end_
    · rw [if_pos hin, hd.translate_inside hr hin.1 hin.2]
      exact mapTarget_user ..
    · rw [if_neg hin, hd.translate_outside hr hv hin]
      exact h.maps v hv
  · exact hd.remap.frame t (fun hm => h.apart t hm ht) fun hf => (hnew t hf).2 ht

/-- **The `pml4`**: one page, which maps nothing yet. -/
theorem getPml4_spec {s : Paging BootState} (h : BootOk mmap removed s.pages)
    (hs : s.pages.balloc.ranges .memoryMap = mmap) (hmap : MapOk mmap)
    (hB : ∀ t ∈ B, Withheld removed t) :
    Post (poolGetPage (some pagingSetupPool) s) PagingStop fun r =>
      TablesOk mmap removed B r.1 (fun _ => none) r.2 ∧ ∀ t ∈ B, r.2.mem t = s.mem t := by
  refine (getPage_spec h hmap).mono ?_
  rintro ⟨pml4, s'⟩ ⟨htaken, hmem⟩
  have hold : ∀ t ∈ B, t ∈ B ∨ TablePage mmap removed s.pages t := fun t ht => Or.inl ht
  have hnot : pml4 ∉ B := htaken.new h hB hold
  have hzero : ∀ i, s'.mem pml4 i = 0 := by
    intro i
    have hclear : Function.update s.mem pml4 (fun _ => 0) pml4 = fun _ => 0 :=
      Function.update_self ..
    rw [hmem]
    exact congrFun hclear i
  have habsent : ∀ i, pageTable.decode 4 (s'.mem pml4 i) = .absent := by
    intro i
    rw [hzero i]
    exact (@pteSlot_absent 4 0).mpr (by decide)
  have htables : ∀ t ∈ pageTable.tables s'.mem 4 pml4, t = pml4 := by
    rintro t (rfl | ⟨i, c, hc, _⟩)
    · rfl
    · exact nomatch (habsent i).symm.trans hc
  refine ⟨⟨tree_of_zeroed hzero, ⟨htaken.boot, htaken.map.trans hs, htaken.zero, ?_⟩, ?_, ?_⟩, ?_⟩
  · rintro t (ht | ht)
    · exact htaken.insert hold t (Or.inl (htables t ht))
    · exact Or.inl ht
  · intro t ht
    rw [htables t ht]
    exact hnot
  · intro v _
    exact Radix.walk_absent (habsent _)
  · intro t ht
    rw [hmem]
    refine Function.update_of_ne ?_ ..
    rintro rfl
    exact hnot ht

/-! ## `paging_setup` -/

/-- What `paging_setup` maps. -/
def kernelMap (size v : Nat) : Option Mapping :=
  if HIGHER_BASE ≤ v ∧ v < HIGHER_BASE + size then some ⟨v - HIGHER_BASE, true, true⟩
  else if VIRTUAL_BASE ≤ v then some ⟨v - VIRTUAL_BASE, true, true⟩
  else none

theorem memSize_spec (memory : Nat) : memSize memory % 4096 = 0 ∧ memSize memory ≤ MAX_PMEM_SIZE ∧
    (memSize memory < MAX_PMEM_SIZE → memSize memory = memory / 4096 * 4096) := by
  have hmask : pageMask memory = memory / 4096 * 4096 := rfl
  have hmax : MAX_PMEM_SIZE % 4096 = 0 := by decide
  unfold memSize
  rw [hmask]
  split <;> omega

/-- The direct mapping ends before the region of `kmap`. -/
theorem direct_pageRange {size : Nat} (hsize : size % 4096 = 0) (hpos : 0 < size)
    (hle : size ≤ MAX_PMEM_SIZE) : PageRange HIGHER_BASE ((HIGHER_BASE + size) % WORD) 0 ∧
      lastAddr ((HIGHER_BASE + size) % WORD) + 1 = HIGHER_BASE + size := by
  have hlast : lastAddr ((HIGHER_BASE + size) % WORD) + 1 = HIGHER_BASE + size := by
    unfold lastAddr
    rw [WORD_eq, HIGHER_BASE]
    rw [MAX_PMEM_SIZE] at hle
    omega
  refine ⟨⟨by decide, ?_, Nat.mod_lt _ (by decide), by omega, Or.inr (by decide), rfl, ?_⟩, hlast⟩
  · rw [WORD_eq, HIGHER_BASE, show PAGE_SIZE = 4096 from rfl]
    omega
  · rw [MAX_PMEM_SIZE] at hle
    omega

theorem virtual_pageRange : PageRange VIRTUAL_BASE 0 0 ∧ lastAddr 0 = WORD - 1 := by
  refine ⟨⟨by decide, rfl, by decide, by decide, Or.inr (by decide), rfl, by decide⟩, by decide⟩

/-- Nothing is mapped when there is no whole page of memory. -/
theorem direct_empty {σ : Type} (pml4 : Nat) (flags : Pte) (pool : Option (PagePool σ))
    (s : Paging σ) :
    ptMapPages pml4 HIGHER_BASE ((HIGHER_BASE + 0) % WORD) 0 flags pool s = .ok s := by
  have hsize : pmlSize 4 = .ok (2 ^ 39) := rfl
  have hfrom : pmlOffs HIGHER_BASE 4 = .ok 256 := rfl
  have hto : pmlOffs (((HIGHER_BASE + 0) % WORD + WORD - 1) % WORD) 4 = .ok 255 := rfl
  unfold ptMapPages
  rw [bugOn_neg (by decide), ok_bind, bugOn_neg (by decide), ok_bind, ptMapLvl, hsize, ok_bind,
    hfrom, ok_bind, hto, ok_bind]
  rfl

theorem ballocMemory_spec {s : Balloc} (hs : s.ranges .memoryMap = mmap) (hne : mmap ≠ []) :
    ballocMemory s = .ok (mmap.getLast hne).end_ := by
  subst hs
  have hids : s.ids .memoryMap ≠ [] := fun h => hne (List.map_eq_nil_iff.mpr h)
  unfold ballocMemory
  rw [rightmost_eq, show (s.tree .memoryMap).toList = s.ids .memoryMap from rfl,
    List.getLast?_eq_some_getLast hids]
  refine congrArg Except.ok ?_
  simp only [Balloc.ranges, List.getLast_map]

/-- **`paging_setup`** stops for want of nodes or of pages only.  It maps the memory at
`HIGHER_BASE` and the kernel at `VIRTUAL_BASE`, with tables on pages that it took. -/
theorem pagingSetup_spec {s : Paging BootState} {img : BootImage} (h : BootOk mmap removed s.pages)
    (hs : s.pages.balloc.ranges .memoryMap = mmap) (hmap : MapOk mmap) (hne : mmap ≠ [])
    (hB : ∀ t ∈ B, Withheld removed t) :
    Post (pagingSetup img s) PagingStop fun r =>
      TablesOk mmap removed B r.1.cr3 (kernelMap (memSize (mmap.getLast hne).end_)) r.2 ∧
      ∀ t ∈ B, r.2.mem t = s.mem t := by
  unfold pagingSetup
  rw [ballocMemory_spec hs hne, ok_bind]
  generalize (mmap.getLast hne).end_ = memory
  obtain ⟨hal, hle, _⟩ := memSize_spec memory
  generalize memSize memory = size at hal hle
  refine (getPml4_spec h hs hmap hB).bind ?_
  rintro ⟨pml4, s₁⟩ ⟨h₁, hframe₁⟩
  have hdirect : Post (ptMapPages pml4 HIGHER_BASE ((HIGHER_BASE + size) % WORD) 0 PTE_WRITE
      (some pagingSetupPool) s₁) PagingStop fun s₂ => TablesOk mmap removed B pml4 (fun v =>
        if HIGHER_BASE ≤ v ∧ v < HIGHER_BASE + size then some ⟨v - HIGHER_BASE, true,
          true⟩ else none) s₂ ∧
      ∀ t ∈ B, s₂.mem t = s₁.mem t := by
    rcases Nat.eq_zero_or_pos size with rfl | hpos
    · rw [direct_empty]
      refine Post.ok ⟨h₁.congr fun v _ => ?_, fun _ _ => rfl⟩
      rw [if_neg (by omega)]
    · obtain ⟨hr, hlast⟩ := direct_pageRange hal hpos hle
      refine (h₁.map hmap hB hr fun _ _ _ => rfl).mono ?_
      rintro s₂ ⟨h₂, hframe₂⟩
      refine ⟨h₂.congr fun v _ => ?_, hframe₂⟩
      simp only [Nat.zero_add]
      have hiff : HIGHER_BASE ≤ v ∧ v ≤ lastAddr ((HIGHER_BASE + size) % WORD) ↔
          HIGHER_BASE ≤ v ∧ v < HIGHER_BASE + size := by omega
      simp only [hiff]
  refine hdirect.bind ?_
  rintro s₂ ⟨h₂, hframe₂⟩
  obtain ⟨hr, hlast⟩ := virtual_pageRange
  have hbelow : HIGHER_BASE + size ≤ VIRTUAL_BASE := by
    rw [MAX_PMEM_SIZE] at hle
    rw [HIGHER_BASE, VIRTUAL_BASE]
    omega
  refine (h₂.map hmap hB hr fun v h1 _ => if_neg (by omega)).bind ?_
  rintro s₃ ⟨h₃, hframe₃⟩
  refine Post.ok ⟨h₃.congr fun v hv => ?_, fun t ht => ?_⟩
  · have hlt : v < WORD := by
      unfold Canonical at hv
      rw [WORD_eq] at *
      omega
    unfold kernelMap
    simp only [Nat.zero_add]
    by_cases hv : VIRTUAL_BASE ≤ v
    · rw [if_pos ⟨hv, by omega⟩, if_neg (by omega), if_pos hv]
    · rw [if_neg fun h => hv h.1, if_neg hv]
  · exact (hframe₃ t ht).trans ((hframe₂ t ht).trans (hframe₁ t ht))

end AuOs
