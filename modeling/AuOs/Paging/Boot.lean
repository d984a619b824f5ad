import Mathlib
import AuOs.Paging.KmapBoot
import AuOs.Paging.Setup

/-!
# From the boot tables to the page allocator

`balloc_setup`, `paging_setup` and `page_alloc_setup` one after the other, as `main` calls them.

* `ballocParseMmap_ne_nil` — the memory map is never empty: the kernel is in it.
* `paging_setup_maps` — the tables that `paging_setup` builds for any memory map.
* `cr3_switch` — the kernel and the tables stay where they are when `cr3` is loaded.
* `boot_pages_mapped` — `page_alloc` hands out mapped pages, and never a page of the tables.
-/

set_option autoImplicit false

namespace AuOs

/-! ## The memory map -/

/-- The allocator is sound and its memory map has a range. -/
def HasMap (s : Balloc) : Prop := BallocInv s [] ∧ s.ranges .memoryMap ≠ []

variable {s : Balloc} {from_ to_ : Nat}

theorem addRange_hasMap (h : BallocInv s []) (hle : from_ ≤ to_) :
    Post (addRange s .memoryMap from_ to_) (fun _ => True) HasMap := by
  refine ((addRange_inv h hle).weaken fun _ _ => trivial).mono ?_
  rintro s' ⟨h', _, _, _, _, _, _, _, _, _, _, _, _, heq⟩
  refine ⟨h', ?_⟩
  rw [heq]
  simp

theorem HasMap.addFree (h : HasMap s) (hle : from_ ≤ to_) :
    Post (addRange s .freeRanges from_ to_) (fun _ => True) HasMap := by
  refine ((addRange_inv h.1 hle).weaken fun _ _ => trivial).mono ?_
  rintro s' ⟨h', honly, _⟩
  refine ⟨h', ?_⟩
  rw [show s'.ranges .memoryMap = s.ranges .memoryMap from honly.ranges]
  exact h.2

theorem HasMap.remove (h : HasMap s) (hle : from_ ≤ to_) :
    Post (removeRange s .freeRanges from_ to_) (fun _ => True) HasMap := by
  refine ((removeRange_spec h.1 hle).weaken fun _ _ => trivial).mono ?_
  rintro s' ⟨h', honly, _⟩
  refine ⟨h', ?_⟩
  rw [show s'.ranges .memoryMap = s.ranges .memoryMap from honly.ranges]
  exact h.2

/-- **The kernel is in the memory map.** -/
theorem ballocParseMmap_ne_nil {mem : Memory} {info : MultibootInfo} {img : BootImage}
    (h : BallocInv s [])
    (hentries : ∀ e ∈ mmapEntries mem info, e.addr ≤ e.rend) (hkernel : img.kbegin ≤ img.kend)
    (hinitrd : img.initrdBegin ≤ img.initrdEnd) :
    Post (ballocParseMmap mem info img s) (fun _ => True) HasMap := by
  unfold ballocParseMmap
  by_cases hflags : info.flags.toNat &&& (1 <<< 6) = 0
  · rw [bugOn, if_pos hflags]
    trivial
  rw [bugOn_neg hflags, ok_bind]
  simp only [mmapLoop_entries]
  refine (Post.foldlM (I := fun _ s => BallocInv s []) _ h fun _ e he s hs => ?_).bind ?_
  · refine (addRange_hasMap hs (hentries e he)).bind fun s₁ h₁ => ?_
    exact (h₁.addFree (hentries e he)).mono fun _ h₂ => h₂.1
  intro s₁ h₁
  refine (addRange_hasMap h₁ hkernel).bind fun s₂ h₂ => ?_
  refine (h₂.addFree hkernel).bind fun s₃ h₃ => ?_
  refine (addRange_hasMap h₃.1 hinitrd).bind fun s₄ h₄ => ?_
  refine (h₄.addFree hinitrd).bind fun s₅ h₅ => ?_
  refine (Post.foldlM (I := fun _ => HasMap) _ h₅ fun _ e he s hs => ?_).bind fun s₆ h₆ => ?_
  · split
    · exact hs.remove (hentries e he)
    · exact Post.ok hs
  · exact (h₆.remove hkernel).bind fun s₇ h₇ => h₇.remove hinitrd

/-! ## A machine with a hundred kilobytes -/

/-- One entry: available memory from 0x1000 to 0x19000. -/
def smallMap : Memory := fun addr =>
  [20, 0, 0, 0,  0, 0x10, 0, 0, 0, 0, 0, 0,  0, 0x80, 1, 0, 0, 0, 0, 0,  1, 0, 0, 0].getD
    (addr - 0x100) 0

def smallImage : BootImage := ⟨0x2000, 0x4000, 0x6000, 0x6800⟩

/-- The boot tables of the machine. -/
def smallTables : PageTables := setupMapping 0x3000#32 0x2000#32 fun _ _ => 0

theorem smallMap_run : ∃ s₀ p s q, ballocSetup smallMap ⟨64, 24, 0x100⟩ smallImage = .ok s₀ ∧
    ballocMemory s₀ = .ok 0x19000 ∧ pagingSetup smallImage ⟨smallTables, ⟨s₀, []⟩⟩ = .ok (p, s) ∧
    p.cr3 = 0x1000 ∧ pageAllocSetup (fun _ => Page.zero) s.pages = .ok q := by
  have hres : (do
      let s₀ ← ballocSetup smallMap ⟨64, 24, 0x100⟩ smallImage
      let memory ← ballocMemory s₀
      let (p, s) ← pagingSetup smallImage ⟨smallTables, ⟨s₀, []⟩⟩
      let _ ← pageAllocSetup (fun _ => Page.zero) s.pages
      return (memory, p.cr3) : Res (Nat × Nat)) = .ok (0x19000, 0x1000) := by decide +kernel
  obtain ⟨s₀, hs₀, hres⟩ := bind_eq_ok.mp hres
  obtain ⟨memory, hmemory, hres⟩ := bind_eq_ok.mp hres
  obtain ⟨⟨p, s⟩, hp, hres⟩ := bind_eq_ok.mp hres
  obtain ⟨q, hq, hres⟩ := bind_eq_ok.mp hres
  obtain ⟨rfl, hcr3⟩ := Prod.ext_iff.mp (Except.ok.inj hres)
  exact ⟨s₀, p, s, q, hs₀, hmemory, hp, hcr3, hq⟩

/-! ## `paging_setup` at boot -/

/-- The boot loader's map, the kernel and the initial ramdisk lie below the limit of addresses. -/
structure BootInput (mem : Memory) (info : MultibootInfo) (img : BootImage) : Prop where
  entries : ∀ e ∈ mmapEntries mem info, e.addr + e.length ≤ ADDR_LIMIT
  kernel : img.kbegin ≤ img.kend ∧ img.kend ≤ ADDR_LIMIT
  initrd : img.initrdBegin ≤ img.initrdEnd ∧ img.initrdEnd ≤ ADDR_LIMIT

section Boot

variable {mem : Memory} {info : MultibootInfo} {img : BootImage} {s₀ : Balloc} {mem₀ : PageTables}

/-- The pages that `balloc_setup` withholds. -/
def withheldPages (mem : Memory) (info : MultibootInfo) (img : BootImage) : Set Nat :=
  {t | Withheld (withheld (mmapEntries mem info) img) t}

/-- The state after `balloc_setup`, with a memory map that is not empty. -/
theorem BootInput.start (hin : BootInput mem info img)
    (hsetup : ballocSetup mem info img = .ok s₀) :
    BootOk (s₀.ranges .memoryMap) (withheld (mmapEntries mem info) img) ⟨s₀, []⟩ ∧
      MapOk (s₀.ranges .memoryMap) ∧ s₀.ranges .memoryMap ≠ [] := by
  obtain ⟨hboot, hmap⟩ := ballocSetup_ok hin.entries hin.kernel hin.initrd hsetup
  have hlimit : ADDR_LIMIT < WORD := by decide
  have hnil := @ballocParseMmap_ne_nil _ mem info img ballocSetupNodes_inv
    (fun e he => by
      rw [MmapEntry.rend_eq ((hin.entries e he).trans_lt hlimit)]
      exact Nat.le_add_right ..) hin.kernel.1 hin.initrd.1
  exact ⟨hboot, hmap, (hnil.of_eq hsetup).2⟩

/-- The tables of `paging_setup`, right after `balloc_setup`. -/
theorem BootInput.paging (hin : BootInput mem info img) (hsetup : ballocSetup mem info img = .ok s₀)
    (mem₀ : PageTables) : ∃ memory, ballocMemory s₀ = .ok memory ∧
      (∀ m ∈ s₀.ranges .memoryMap, m.end_ ≤ memory) ∧
      Post (pagingSetup img ⟨mem₀, ⟨s₀, []⟩⟩) PagingStop fun r =>
        TablesOk (s₀.ranges .memoryMap) (withheld (mmapEntries mem info) img)
          (withheldPages mem info img) r.1.cr3 (kernelMap (memSize memory)) r.2 ∧
        ∀ t ∈ withheldPages mem info img, r.2.mem t = mem₀ t := by
  obtain ⟨hboot, hmap, hne⟩ := hin.start hsetup
  refine ⟨_, ballocMemory_spec rfl hne, ?_, pagingSetup_spec hboot rfl hmap hne fun t ht => ht⟩
  -- The ranges are in order, so the last one ends last.
  intro m hm
  rcases List.mem_iff_append.mp hm with ⟨A, D, hl⟩
  have hap := hmap.ranges.apart
  rcases List.eq_nil_or_concat D with rfl | ⟨D', r, rfl⟩
  · simp [hl]
  · rw [hl] at hap
    have hlast : (s₀.ranges .memoryMap).getLast hne = r := by simp [hl]
    have hlt := (List.pairwise_cons.mp (List.pairwise_append.mp hap).2.1).1 r (by simp)
    have hle := hmap.ranges.le r (by simp [hl])
    rw [hlast]
    omega

theorem TablesOk.tablePage {mmap : List MemoryNode} {removed : List (Nat × Nat)}
    {B : Set Nat} {pml4 t : Nat}
    {f : Nat → Option Mapping} {s : Paging BootState} (h : TablesOk mmap removed B pml4 f s)
    (ht : t ∈ pageTable.tables s.mem 4 pml4) : TablePage mmap removed s.pages t :=
  (h.pool.used t (Or.inl ht)).resolve_left (h.apart t ht)

/-- The direct mapping covers the pages of the tables. -/
theorem TablePage.le_memSize {mmap : List MemoryNode} {removed : List (Nat × Nat)} {s : BootState}
    {t memory : Nat} (h : TablePage mmap removed s t) (hlast : ∀ m ∈ mmap, m.end_ ≤ memory) :
    t + 4096 ≤ memSize memory := by
  obtain ⟨m, hm, _, hend⟩ := h.inMap
  have hal : t % 4096 = 0 := h.aligned
  have hlow : t + 4096 ≤ 0x100000000 := h.low
  have hle : t + 4096 ≤ memory := hend.trans (hlast m hm)
  have hmax : MAX_PMEM_SIZE = 0x00007fff00000000 := rfl
  obtain ⟨_, h1, h2⟩ := memSize_spec memory
  by_cases hlt : memSize memory < MAX_PMEM_SIZE
  · rw [h2 hlt]
    omega
  · omega

/-- **What `paging_setup` maps**, for any memory map: the memory at `HIGHER_BASE`, the kernel at
`VIRTUAL_BASE`, and nothing else.  The tables lie on pages that meet nothing reserved, neither the
kernel nor the initial ramdisk, and no withheld page was written. -/
theorem paging_setup_maps (hin : BootInput mem info img)
    (hsetup : ballocSetup mem info img = .ok s₀)
    (mem₀ : PageTables) : ∃ memory, ballocMemory s₀ = .ok memory ∧
      Post (pagingSetup img ⟨mem₀, ⟨s₀, []⟩⟩) PagingStop fun r =>
        (∀ v, Canonical v → translate r.2.mem r.1.cr3 v = kernelMap (memSize memory) v) ∧
        (∀ t ∈ pageTable.tables r.2.mem 4 r.1.cr3,
          TablePage (s₀.ranges .memoryMap) (withheld (mmapEntries mem info) img) r.2.pages t) ∧
        ∀ t ∈ withheldPages mem info img, r.2.mem t = mem₀ t := by
  obtain ⟨memory, hmemory, _, hpost⟩ := hin.paging hsetup mem₀
  refine ⟨memory, hmemory, hpost.mono ?_⟩
  rintro r ⟨hok, hframe⟩
  exact ⟨hok.maps, fun t ht => hok.tablePage ht, hframe⟩

theorem smallInput : BootInput smallMap ⟨64, 24, 0x100⟩ smallImage :=
  ⟨by decide, by decide, by decide⟩

theorem paging_setup_maps_small : ∃ s₀ p s, ballocSetup smallMap
    ⟨64, 24, 0x100⟩ smallImage = .ok s₀ ∧
    pagingSetup smallImage ⟨smallTables, ⟨s₀, []⟩⟩ = .ok (p, s) ∧
    translate s.mem p.cr3 (HIGHER_BASE + 0x18fff) = some ⟨0x18fff, true, true⟩ ∧
    translate s.mem p.cr3 (HIGHER_BASE + 0x19000) = none := by
  obtain ⟨s₀, p, s, _, hs₀, hmemory, hp, _⟩ := smallMap_run
  obtain ⟨memory, hmemory', hpost⟩ := paging_setup_maps smallInput hs₀ smallTables
  obtain rfl := Except.ok.inj (hmemory.symm.trans hmemory')
  obtain ⟨hmaps, _⟩ := hpost.of_eq hp
  refine ⟨s₀, p, s, hs₀, hp, ?_, ?_⟩
  · rw [hmaps _ (Or.inr (by decide))]
    rfl
  · rw [hmaps _ (Or.inr (by decide))]
    rfl

/-! ## Loading `cr3` -/

variable {pml3 pml4 : BitVec 32}

/-- The boot tables are two pages of the kernel. -/
structure BootTables (img : BootImage) (pml3 pml4 : BitVec 32) (mem : PageTables) : Prop where
  ne : pml3 ≠ pml4
  aligned : pml3.toNat % 4096 = 0
  zero3 : ∀ i, mem pml3.toNat i = 0
  zero4 : ∀ i, mem pml4.toNat i = 0
  kernel3 : img.kbegin ≤ pml3.toNat ∧ pml3.toNat < img.kend
  kernel4 : img.kbegin ≤ pml4.toNat ∧ pml4.toNat < img.kend

/-- The pages of the kernel are withheld. -/
theorem BootTables.intact (h : BootTables img pml3 pml4 mem₀) {mem₁ : PageTables}
    (hsame : ∀ t ∈ withheldPages mem info img, mem₁ t = setupMapping pml3 pml4 mem₀ t) :
    mem₁ pml3.toNat = setupMapping pml3 pml4 mem₀ pml3.toNat ∧
      mem₁ pml4.toNat = setupMapping pml3 pml4 mem₀ pml4.toNat := by
  have hmem : (img.kbegin, img.kend) ∈ withheld (mmapEntries mem info) img :=
    List.mem_append_right _ (by simp)
  exact ⟨hsame pml3.toNat ⟨_, hmem, h.kernel3⟩, hsame pml4.toNat ⟨_, hmem, h.kernel4⟩⟩

theorem BootTables.kept (h : BootTables img pml3 pml4 mem₀) {mem₁ : PageTables}
    (h3 : mem₁ pml3.toNat = setupMapping pml3 pml4 mem₀ pml3.toNat)
    (h4 : mem₁ pml4.toNat = setupMapping pml3 pml4 mem₀ pml4.toNat) (v : Nat) :
    translate mem₁ pml4.toNat v = translate (setupMapping pml3 pml4 mem₀) pml4.toNat v := by
  unfold translate
  apply Radix.walk_congr
  -- The `pml4` names one table, and that names none.
  rintro t (rfl | ⟨i, c, hc, ht⟩)
  · exact h4
  · rw [bootTable_decode h.ne h.aligned h.zero4] at hc
    split at hc
    · obtain rfl := RadixSlot.table.inj hc
      rcases ht with rfl | ⟨j, d, hd, _⟩
      · exact h3
      · rw [bootPage_decode h.ne h.zero3] at hd
        split at hd <;> cases hd
    · cases hc

/-- **Loading `cr3`.**  The boot tables are intact when the new ones are complete.  The kernel is at
the same place in both, and the new tables are reached by `va` in both. -/
theorem cr3_switch (hin : BootInput mem info img) (hsetup : ballocSetup mem info img = .ok s₀)
    (hboot : BootTables img pml3 pml4 mem₀) :
    Post (pagingSetup img ⟨setupMapping pml3 pml4 mem₀, ⟨s₀, []⟩⟩) PagingStop fun r =>
      (r.2.mem pml3.toNat = setupMapping pml3 pml4 mem₀ pml3.toNat ∧
        r.2.mem pml4.toNat = setupMapping pml3 pml4 mem₀ pml4.toNat) ∧
      (∀ v, VIRTUAL_BASE ≤ v → v < WORD →
        translate r.2.mem pml4.toNat v = some ⟨v - VIRTUAL_BASE, true, false⟩ ∧
        translate r.2.mem r.1.cr3 v = some ⟨v - VIRTUAL_BASE, true, true⟩) ∧
      ∀ t ∈ pageTable.tables r.2.mem 4 r.1.cr3, ∀ o < PAGE_SIZE,
        translate r.2.mem pml4.toNat (va t + o) = some ⟨t + o, true, false⟩ ∧
        translate r.2.mem r.1.cr3 (va t + o) = some ⟨t + o, true, true⟩ := by
  obtain ⟨memory, _, hlast, hpost⟩ := hin.paging hsetup (setupMapping pml3 pml4 mem₀)
  refine hpost.mono ?_
  rintro ⟨p, s⟩ ⟨hok, hframe⟩
  simp only at hok hframe ⊢
  obtain ⟨h3, h4⟩ := hboot.intact hframe
  have hold : ∀ v, Canonical v → ∀ w ∈ bootWindows, w.1 ≤ v → v < w.1 + w.2 →
      translate s.mem pml4.toNat v = some ⟨v - w.1, true, false⟩ := by
    intro v hv w hw h1 h2
    rw [hboot.kept h3 h4]
    exact boot_window hboot.ne hboot.aligned hboot.zero3 hboot.zero4 hw h1 h2
  have hsize := (memSize_spec memory).2.1
  rw [MAX_PMEM_SIZE] at hsize
  refine ⟨⟨h3, h4⟩, fun v h1 h2 => ?_, fun t ht o ho => ?_⟩
  · have hv : Canonical v := by
      rw [VIRTUAL_BASE] at h1
      unfold Canonical
      rw [WORD_eq] at *
      omega
    refine ⟨hold v hv (VIRTUAL_BASE, 2 ^ 31) (by simp [bootWindows]) h1 ?_, ?_⟩
    · rw [VIRTUAL_BASE]
      rw [WORD_eq] at h2
      omega
    · rw [hok.maps v hv, kernelMap, if_neg, if_pos h1]
      rw [HIGHER_BASE]
      rw [VIRTUAL_BASE] at h1
      omega
  · have hpage := hok.tablePage ht
    have hlow : t + 4096 ≤ 0x100000000 := hpage.low
    have hmem := hpage.le_memSize hlast
    have ho' : o < 4096 := ho
    have hva : va t + o = HIGHER_BASE + (t + o) := by
      unfold va
      rw [WORD_eq, HIGHER_BASE]
      omega
    have hv : Canonical (HIGHER_BASE + (t + o)) := by
      unfold Canonical
      rw [WORD_eq, HIGHER_BASE]
      omega
    rw [hva]
    refine ⟨?_, ?_⟩
    · rw [hold _ hv (HIGHER_BASE, 2 ^ 32) (by simp [bootWindows]) (Nat.le_add_right ..)
        (by simp only; omega)]
      rw [Nat.add_sub_cancel_left]
    · rw [hok.maps _ hv, kernelMap, if_pos ⟨Nat.le_add_right .., by omega⟩, Nat.add_sub_cancel_left]

theorem cr3_switch_small : ∃ s₀ p s, ballocSetup smallMap ⟨64, 24, 0x100⟩ smallImage = .ok s₀ ∧
    pagingSetup smallImage ⟨smallTables, ⟨s₀, []⟩⟩ = .ok (p, s) ∧
    translate s.mem 0x2000 VIRTUAL_BASE = some ⟨0, true, false⟩ ∧
    translate s.mem p.cr3 VIRTUAL_BASE = some ⟨0, true, true⟩ := by
  obtain ⟨s₀, p, s, _, hs₀, _, hp, _⟩ := smallMap_run
  have hboot : BootTables smallImage 0x3000#32 0x2000#32 fun _ _ => 0 :=
    ⟨by decide, by decide, fun _ => rfl, fun _ => rfl, by decide, by decide⟩
  have hswitch := (cr3_switch smallInput hs₀ hboot).of_eq hp
  exact ⟨s₀, p, s, hs₀, hp, hswitch.2.1 VIRTUAL_BASE le_rfl (by decide)⟩

/-! ## `page_alloc_setup` -/

/-- A page of the tables is no page that `page_alloc_setup` released. -/
theorem TablePage.not_released {mmap : List MemoryNode} {removed : List (Nat × Nat)}
    {s s' : BootState} {t i : Nat}
    (h : TablePage mmap removed s t) (hboot : BootOk mmap removed s') (hsub : s.taken ⊆ s'.taken)
    (hi : i ∈ releasedPages (freeRanges s'.balloc)) : t ≠ i * 4096 := by
  rintro rfl
  obtain ⟨_, hfree, _, h1, h2⟩ := hi
  obtain ⟨r, hr, rfl⟩ := List.mem_map.mp hfree
  have hcov : i * 4096 ∈ covered (s'.balloc.ranges .freeRanges) := by
    refine ⟨r, hr, h1, lt_of_lt_of_le ?_ h2⟩
    rw [show PAGE_SIZE = 4096 from rfl]
    omega
  exact hboot.avoid _ (List.mem_append_right _ (hsub h.taken)) _ hcov
    ⟨le_rfl, Nat.lt_add_of_pos_right (by decide)⟩

/-- A released page lies in the memory map. -/
theorem released_le {mmap : List MemoryNode} {removed : List (Nat × Nat)} {s : BootState}
    {i memory : Nat} (h : BootOk mmap removed s) (hlast : ∀ m ∈ mmap, m.end_ ≤ memory)
    (hi : i ∈ releasedPages (freeRanges s.balloc)) : (i + 1) * 4096 ≤ memory := by
  obtain ⟨_, hfree, _, _, h2⟩ := hi
  obtain ⟨r, hr, rfl⟩ := List.mem_map.mp hfree
  obtain ⟨m, hm, _, hend⟩ := h.inside r hr
  exact h2.trans (hend.trans (hlast m hm))

/-- **From boot to `kmap_setup`.**  After `balloc_setup`, `paging_setup` and `page_alloc_setup`, and
after any number of `page_alloc` and `page_free` calls, no allocated page is a page of the tables,
every allocated page below the limit of the direct mapping is reached by `va`, and `kmap_setup`
finds what it needs. -/
theorem boot_pages_mapped (hin : BootInput mem info img)
    (hsetup : ballocSetup mem info img = .ok s₀)
    {p : PagingSetup} {s : Paging BootState} (hpaging : pagingSetup img
      ⟨mem₀, ⟨s₀, []⟩⟩ = .ok (p, s)) :
    Post (pageAllocSetup (fun _ => Page.zero) s.pages) SetupStop fun q =>
      ∀ st, pageCalls.Run ⟨q.2, []⟩ st →
        (∀ b ∈ st.live, ∀ i ∈ b.cells, i * PAGE_SIZE ∉ pageTable.tables s.mem 4 p.cr3 ∧
          ((i + 1) * PAGE_SIZE ≤ MAX_PMEM_SIZE → ∀ o < PAGE_SIZE,
            translate s.mem p.cr3 (va (i * PAGE_SIZE) + o) = some ⟨i * PAGE_SIZE + o,
              true, true⟩)) ∧
        KmapReady p.cr3 (releasedPages (freeRanges q.1.balloc)) st.live ⟨s.mem, st.zones⟩ := by
  obtain ⟨memory, _, hlast, hpost⟩ := hin.paging hsetup mem₀
  obtain ⟨_, hmap, _⟩ := hin.start hsetup
  obtain ⟨hok, _⟩ := hpost.of_eq hpaging
  simp only at hok
  have hsize : PAGE_SIZE = 4096 := rfl
  obtain ⟨_, hmax, hmem⟩ := memSize_spec memory
  rw [MAX_PMEM_SIZE] at hmax hmem
  refine (pageAllocSetup_spec hok.pool.boot hmap).mono ?_
  rintro ⟨s₂, zones⟩ ⟨h₂, hsub, _, hinv, hsame, _⟩ st hrun
  simp only at h₂ hsub hinv hsame hrun ⊢
  have hpages := releasedPages_ok hmap hinv hsame
  have hst := (pageCalls_keeps hpages).run hinv hrun
  have hnot : ∀ i ∈ releasedPages (freeRanges s₂.balloc),
      i * 4096 ∉ pageTable.tables s.mem 4 p.cr3 :=
    fun i hi ht => (hok.tablePage ht).not_released h₂ hsub hi rfl
  refine ⟨fun b hb i hi => ?_, ?_⟩
  · have hi' := hst.tiling.cells_subset (List.mem_append_left _ hb) hi
    refine ⟨hnot i hi', fun hlow o ho => ?_⟩
    rw [hsize] at *
    rw [MAX_PMEM_SIZE] at hlow
    have hin := released_le h₂ hlast hi'
    have hva : va (i * 4096) + o = HIGHER_BASE + (i * 4096 + o) := by
      unfold va
      rw [WORD_eq, HIGHER_BASE]
      omega
    have hv : Canonical (HIGHER_BASE + (i * 4096 + o)) := by
      unfold Canonical
      rw [WORD_eq, HIGHER_BASE]
      omega
    rw [hva, hok.maps _ hv, kernelMap, if_pos ⟨Nat.le_add_right .., by omega⟩,
      Nat.add_sub_cancel_left]
  · have hroot := hok.tablePage Radix.mem_tables_self
    have hlow : p.cr3 + 4096 ≤ 0x100000000 := hroot.low
    refine ⟨⟨hroot.aligned, by omega⟩, hok.tree, ?_, hst, hpages, ?_⟩
    · intro v h1 h2
      rw [hok.maps v (canonical_of_region h1 h2), kernelMap, if_neg, if_neg]
      · rw [KMAP_END] at h2
        omega
      · rw [KMAP_BEGIN_eq] at h1
        rw [HIGHER_BASE]
        omega
    · intro t ht i hi hti
      exact absurd ht (hti ▸ hnot i hi)

theorem boot_pages_mapped_small : ∃ s₀ p s q, ballocSetup smallMap
    ⟨64, 24, 0x100⟩ smallImage = .ok s₀ ∧
    pagingSetup smallImage ⟨smallTables, ⟨s₀, []⟩⟩ = .ok (p, s) ∧
    pageAllocSetup (fun _ => Page.zero) s.pages = .ok q ∧
    KmapReady p.cr3 (releasedPages (freeRanges q.1.balloc)) [] ⟨s.mem, q.2⟩ := by
  obtain ⟨s₀, p, s, q, hs₀, _, hp, _, hq⟩ := smallMap_run
  have hready := ((boot_pages_mapped smallInput hs₀ hp).of_eq hq ⟨q.2, []⟩ .refl).2
  exact ⟨s₀, p, s, q, hs₀, hp, hq, hready⟩

end Boot

end AuOs
