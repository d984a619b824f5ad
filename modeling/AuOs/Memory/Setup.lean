import Mathlib
import AuOs.Balloc.Parse
import AuOs.Memory.BuddyRun

/-!
# From the memory map to the page allocator

Reference model of `__page_alloc_zone_setup` and `page_alloc_setup`, on top of the bootstrap
allocator, and of the runs of the kernel's memory from boot on.

* `BootState` — the bootstrap allocator and, as a ghost component, what it handed out.
* `pageAllocZoneSetup`, `pageAllocSetup` — a zone's descriptors keep whatever the memory of the zone
  held: the `memset` of the source clears no byte.
* `bootCalls`, `pageCalls` — bootstrap allocations before, and `page_alloc` and `page_free` after
  `page_alloc_setup`.
* `pageAllocSetup_spec` — the zones follow the memory map, and exactly the whole pages of the free
  ranges are released to them.
* `page_setup_safe` — nothing reserved is ever handed out.
-/

set_option autoImplicit false

namespace AuOs

open DyadicTiling

/-- `sizeof(struct page_alloc_zone)`, one descriptor included. -/
def SIZEOF_ZONE : Nat := 376

/-- `sizeof(struct page)` -/
def SIZEOF_PAGE : Nat := 32

/-- `offsetof(struct page_alloc_zone, pages)` -/
def ZONE_PAGES_OFFS : Nat := SIZEOF_ZONE - SIZEOF_PAGE

/-- The bootstrap allocator and the address ranges it handed out. -/
structure BootState where
  balloc : Balloc
  taken : List (Nat × Nat)

/-- Note what an allocation returned: the address, or `to` for failure. -/
def BootState.take (s : BootState) (balloc : Balloc) (addr size to_ : Nat) : BootState where
  balloc := balloc
  taken := if addr = to_ then s.taken else (addr, addr + size) :: s.taken

/-- `__balloc_alloc` -/
def bootAllocRaw (s : BootState) (size align from_ to_ : Nat) : Res (BootState × Nat) := do
  let (balloc, addr) ← ballocAllocRaw s.balloc size align from_ to_
  return (s.take balloc addr size to_, addr)

/-- `balloc_alloc` -/
def bootAlloc (s : BootState) (size from_ to_ : Nat) : Res (BootState × Nat) :=
  bootAllocRaw s size (ballocAlign size) from_ to_

/-- The pages of `__page_alloc_zone_setup`: the range rounded inwards. -/
def zoneBounds (zbegin zend : Nat) : Nat × Nat :=
  (pageMask ((zbegin + PAGE_SIZE - 1) % WORD) / PAGE_SIZE, pageMask zend / PAGE_SIZE)

/-- `__page_alloc_zone_setup`.  `prior` is what the memory of a descriptor at an address held. -/
def pageAllocZoneSetup (prior : Nat → Page) (s : BootState) (zones : List Zone)
    (zbegin zend : Nat) : Res (BootState × List Zone) := do
  let (begin_, end_) := zoneBounds zbegin zend
  if begin_ ≥ end_ then return (s, zones)
  let (s, addr) ← bootAlloc s (SIZEOF_ZONE + SIZEOF_PAGE * (end_ - begin_)) 0 UINTPTR_MAX
  bugOn (addr = UINTPTR_MAX) .zoneSetupNoMemory
  -- memset(zone->pages, 0, sizeof(struct page) * (zone->end - zone->end))
  let zone : Zone := {
    begin_ := begin_
    end_ := end_
    order := fun _ => []
    pages := fun idx => prior (addr + ZONE_PAGES_OFFS + SIZEOF_PAGE * (idx - begin_)) }
  return (s, zones ++ [zone])

/-- The first loop of `page_alloc_setup`: a zone for every range of the memory map. -/
def zonesLoop (prior : Nat → Page) :
    Nat → BootState → List Zone → Option Nat → Res (BootState × List Zone)
  | 0, _, _, _ => .error .hang
  | _ + 1, s, zones, none => .ok (s, zones)
  | fuel + 1, s, zones, some ptr => do
    let node := s.balloc.nodes ptr
    let (s, zones) ← pageAllocZoneSetup prior s zones node.begin_ node.end_
    let next ← rbNext (s.balloc.tree .memoryMap) ptr
    zonesLoop prior fuel s zones next

/-- The second loop of `page_alloc_setup`: the free ranges are released. -/
def rangesLoop (b : Balloc) : Nat → List Zone → Option Nat → Res (List Zone)
  | 0, _, _ => .error .hang
  | _ + 1, zones, none => .ok zones
  | fuel + 1, zones, some ptr => do
    let zones ← pageAllocZoneFree zones (b.nodes ptr).begin_ (b.nodes ptr).end_
    let next ← rbNext (b.tree .freeRanges) ptr
    rangesLoop b fuel zones next

/-- `page_alloc_setup`, less the dump. -/
def pageAllocSetup (prior : Nat → Page) (s : BootState) : Res (BootState × List Zone) := do
  let (s, zones) ← zonesLoop prior (BALLOC_MAX_RANGES + 1) s [] (s.balloc.tree .memoryMap).leftmost
  let zones ← rangesLoop s.balloc (BALLOC_MAX_RANGES + 1) zones (s.balloc.tree .freeRanges).leftmost
  return (s, zones)

/-! ## Bootstrap allocations -/

/-- `page_alloc_setup` stops only because no node or no memory is left for a zone. -/
def SetupStop (e : Stop) : Prop := NoNode e ∨ e = .bug .zoneSetupNoMemory

/-- The free ranges avoid what is withheld and what was handed out. -/
def BootOk (mmap : List MemoryNode) (removed : List (Nat × Nat)) (s : BootState) : Prop :=
  Restricted mmap (removed ++ s.taken) s.balloc

/-- **A bootstrap allocation** takes its block out of the free ranges. -/
theorem bootAllocRaw_spec {mmap : List MemoryNode} {removed : List (Nat × Nat)} {s : BootState}
    {size align from_ to_ : Nat} (h : BootOk mmap removed s) (hal : 1 ≤ align)
    (hov : ∀ r ∈ s.balloc.ranges .freeRanges, r.end_ + size + align ≤ WORD) :
    Post (bootAllocRaw s size align from_ to_) NoNode fun p => BootOk mmap removed p.1 ∧
      OnlyTree .freeRanges [] s.balloc p.1.balloc ∧ s.taken ⊆ p.1.taken ∧
      (p.2 ≠ to_ → (p.2, p.2 + size) ∈ p.1.taken) := by
  refine (@ballocAllocRaw_spec _ _ _ _ from_ to_ h.inv hal hov).bind ?_
  rintro ⟨balloc, addr⟩ ⟨hinv, honly, hres⟩
  simp only at hinv honly hres
  refine Post.ok ?_
  by_cases haddr : addr = to_
  · have htake : s.take balloc addr size to_ = ⟨balloc, s.taken⟩ := by
      rw [BootState.take, if_pos haddr]
    rw [htake]
    refine ⟨⟨hinv, honly.ranges.trans h.map, ?_, ?_⟩, honly, List.Subset.refl _,
      fun hne => absurd haddr hne⟩
    · intro r hr
      rcases hres with heq | ⟨_, _, _, htrim⟩
      · rw [show balloc = s.balloc from congrArg Prod.fst heq] at hr
        exact h.inside r hr
      · obtain ⟨r₀, hr₀, h1, h2⟩ := htrim.inside r hr
        obtain ⟨m, hm, h3, h4⟩ := h.inside r₀ hr₀
        exact ⟨m, hm, h3.trans h1, h2.trans h4⟩
    · intro p hp x hx
      rcases hres with heq | ⟨_, _, _, htrim⟩
      · rw [show balloc = s.balloc from congrArg Prod.fst heq] at hx
        exact h.avoid p hp x hx
      · exact h.avoid p hp x ((htrim.cover x).mp hx).1
  · have htake : s.take balloc addr size to_ = ⟨balloc, (addr, addr + size) :: s.taken⟩ := by
      rw [BootState.take, if_neg haddr]
    rw [htake]
    obtain ⟨_, _, _, htrim⟩ := hres.resolve_left fun heq => haddr (congrArg Prod.snd heq)
    refine ⟨⟨hinv, honly.ranges.trans h.map, ?_, ?_⟩, honly, List.subset_cons_self _ _,
      fun _ => List.mem_cons_self⟩
    · intro r hr
      obtain ⟨r₀, hr₀, h1, h2⟩ := htrim.inside r hr
      obtain ⟨m, hm, h3, h4⟩ := h.inside r₀ hr₀
      exact ⟨m, hm, h3.trans h1, h2.trans h4⟩
    · intro p hp x hx
      obtain ⟨hold, hout⟩ := (htrim.cover x).mp hx
      simp only [List.mem_append, List.mem_cons] at hp
      rcases hp with hp | rfl | hp
      · exact h.avoid p (List.mem_append_left _ hp) x hold
      · exact hout
      · exact h.avoid p (List.mem_append_right _ hp) x hold

/-! ## Zones -/

/-- All physical addresses lie below this. -/
def ADDR_LIMIT : Nat := 2 ^ 52

/-- The zone of a range of the memory map, if a whole page fits into it. -/
def zoneOf (r : MemoryNode) : Option Zone :=
  let (begin_, end_) := zoneBounds r.begin_ r.end_
  if begin_ ≥ end_ then none else some (Zone.zeroed begin_ end_)

/-- The descriptors of the zone lie in memory that was taken from the free ranges. -/
def HasArray (taken : List (Nat × Nat)) (zone : Zone) : Prop :=
  ∃ t ∈ taken, t.2 = t.1 + (SIZEOF_ZONE + SIZEOF_PAGE * (zone.end_ - zone.begin_))

/-- The memory map that `page_alloc_setup` works on. -/
structure MapOk (mmap : List MemoryNode) : Prop where
  ranges : RangesOk mmap
  limit : ∀ r ∈ mmap, r.end_ ≤ ADDR_LIMIT

theorem zoneBounds_eq {zbegin zend : Nat} (h : zbegin ≤ ADDR_LIMIT) :
    zoneBounds zbegin zend = ((zbegin + PAGE_SIZE - 1) / PAGE_SIZE, zend / PAGE_SIZE) := by
  have hmod : (zbegin + PAGE_SIZE - 1) % WORD = zbegin + PAGE_SIZE - 1 := Nat.mod_eq_of_lt (by
    have h1 : ADDR_LIMIT + PAGE_SIZE ≤ WORD := by decide
    have h2 : 0 < PAGE_SIZE := by decide
    omega)
  rw [zoneBounds, hmod, pageMask_div, pageMask_div]

/-- **`__page_alloc_zone_setup`** over memory that reads as zero. -/
theorem pageAllocZoneSetup_spec {mmap : List MemoryNode} {removed : List (Nat × Nat)}
    {s : BootState}
    {zones : List Zone} {r : MemoryNode} (h : BootOk mmap removed s) (hmap : MapOk mmap)
    (hr : r ∈ mmap) (harr : ∀ z ∈ zones, HasArray s.taken z) :
    Post (pageAllocZoneSetup (fun _ => Page.zero) s zones r.begin_ r.end_) SetupStop fun p =>
      BootOk mmap removed p.1 ∧ OnlyTree .freeRanges [] s.balloc p.1.balloc ∧ s.taken ⊆ p.1.taken ∧
      p.2 = zones ++ (zoneOf r).toList ∧ ∀ z ∈ p.2, HasArray p.1.taken z := by
  have hrle := hmap.ranges.le r hr
  have hrlim := hmap.limit r hr
  have hbounds := @zoneBounds_eq _ r.end_ (hrle.trans hrlim)
  unfold pageAllocZoneSetup zoneOf
  simp only
  generalize hb : zoneBounds r.begin_ r.end_ = b at *
  by_cases hempty : b.1 ≥ b.2
  · rw [if_pos hempty, if_pos hempty]
    exact Post.ok ⟨h, OnlyTree.refl _ _ _, List.Subset.refl _, by simp, harr⟩
  · rw [if_neg hempty, if_neg hempty]
    have hsize : SIZEOF_ZONE + SIZEOF_PAGE * (b.2 - b.1) + 64 + ADDR_LIMIT ≤ WORD := by
      have h1 : b.2 ≤ ADDR_LIMIT / PAGE_SIZE := by
        rw [hbounds]
        exact Nat.div_le_div_right hrlim
      have h2 : SIZEOF_ZONE + 32 * (ADDR_LIMIT / PAGE_SIZE) + 64 + ADDR_LIMIT ≤ WORD := by decide
      have h3 : SIZEOF_PAGE * (b.2 - b.1) = 32 * (b.2 - b.1) := rfl
      omega
    have halign : 1 ≤ ballocAlign (SIZEOF_ZONE + SIZEOF_PAGE * (b.2 - b.1)) ∧
        ballocAlign (SIZEOF_ZONE + SIZEOF_PAGE * (b.2 - b.1)) ≤ 64 := by
      unfold ballocAlign
      split
      · decide
      split
      · decide
      split <;> decide
    unfold bootAlloc
    refine ((bootAllocRaw_spec h halign.1 fun r₀ hr₀ => ?_).weaken fun e he => Or.inl he).bind ?_
    · obtain ⟨m, hm, _, hend⟩ := h.inside r₀ hr₀
      have := hmap.limit m hm
      omega
    rintro ⟨s', addr⟩ ⟨h', honly, hsub, htaken⟩
    simp only at h' honly hsub htaken ⊢
    by_cases haddr : addr = UINTPTR_MAX
    · rw [bugOn, if_pos haddr]
      exact Post.error (Or.inr rfl)
    · rw [bugOn_neg haddr, ok_bind]
      refine Post.ok ⟨h', honly, hsub, rfl, fun z hz => ?_⟩
      rcases List.mem_append.mp hz with hz | hz
      · obtain ⟨t, ht, hlen⟩ := harr z hz
        exact ⟨t, hsub ht, hlen⟩
      · rw [List.mem_singleton] at hz
        subst hz
        exact ⟨_, htaken haddr, rfl⟩

/-- **The first loop of `page_alloc_setup`**: one zone for each range of the memory map. -/
theorem zonesLoop_spec {mmap : List MemoryNode} {removed : List (Nat × Nat)} (hmap : MapOk mmap) :
    ∀ (fuel : Nat) (s : BootState) (zones : List Zone) (A B : List Nat), BootOk mmap removed s →
      s.balloc.ids .memoryMap = A ++ B → B.length < fuel → (∀ z ∈ zones, HasArray s.taken z) →
      Post (zonesLoop (fun _ => Page.zero) fuel s zones B.head?) SetupStop fun p =>
        BootOk mmap removed p.1 ∧ s.taken ⊆ p.1.taken ∧
        p.2 = zones ++ (B.map s.balloc.nodes).filterMap zoneOf ∧ ∀ z ∈ p.2, HasArray p.1.taken z
  | 0, s, zones, A, B, _, _, hf, _ => by omega
  | fuel + 1, s, zones, A, [], h, _, _, harr =>
    Post.ok ⟨h, List.Subset.refl _, by simp, harr⟩
  | fuel + 1, s, zones, A, ptr :: B, h, hids, hf, harr => by
    have hmem : s.balloc.nodes ptr ∈ mmap := by
      rw [← h.map, Balloc.ranges, hids]
      exact List.mem_map_of_mem (by simp)
    rw [List.head?_cons, zonesLoop]
    refine (pageAllocZoneSetup_spec h hmap hmem harr).bind ?_
    rintro ⟨s₁, zones₁⟩ ⟨h₁, honly₁, hsub₁, hz₁, harr₁⟩
    simp only at h₁ honly₁ hsub₁ hz₁ harr₁ ⊢
    have hids₁ : s₁.balloc.ids .memoryMap = A ++ ptr :: B := by
      rw [Balloc.ids, show s₁.balloc.tree .memoryMap = s.balloc.tree .memoryMap from honly₁.tree]
      exact hids
    rw [rbNext_spec (h₁.inv.owned.ids_nodup _) hids₁, ok_bind]
    refine (zonesLoop_spec hmap fuel s₁ zones₁ (A ++ [ptr]) B h₁ (by simpa using hids₁)
      (by simpa using hf) harr₁).mono ?_
    rintro ⟨s₂, zones₂⟩ ⟨h₂, hsub₂, hz₂, harr₂⟩
    have hnodes : B.map s₁.balloc.nodes = B.map s.balloc.nodes :=
      List.map_congr_left fun x hx => honly₁.nodes x (by
        show x ∈ [] ++ s.balloc.ids .memoryMap
        rw [hids]
        simp [hx])
    refine ⟨h₂, List.Subset.trans hsub₁ hsub₂, ?_, harr₂⟩
    simp only at hz₂ ⊢
    rw [hz₂, hz₁, hnodes, List.map_cons]
    cases hzo : zoneOf (s.balloc.nodes ptr) with
    | none => rw [List.filterMap_cons_none hzo]; simp
    | some z => rw [List.filterMap_cons_some hzo]; simp

/-- The second loop of `page_alloc_setup` releases the free ranges in order. -/
theorem rangesLoop_eq {b : Balloc} (hn : (b.ids .freeRanges).Nodup) :
    ∀ (fuel : Nat) (zones : List Zone) (A B : List Nat), b.ids .freeRanges = A ++ B →
      B.length < fuel → rangesLoop b fuel zones B.head? =
        releaseRanges zones (B.map fun id => ((b.nodes id).begin_, (b.nodes id).end_))
  | 0, zones, A, B, _, hf => by omega
  | fuel + 1, zones, A, [], _, _ => rfl
  | fuel + 1, zones, A, ptr :: B, hids, hf => by
    rw [List.head?_cons, rangesLoop, List.map_cons, releaseRanges]
    refine congrArg (pageAllocZoneFree zones (b.nodes ptr).begin_ (b.nodes ptr).end_ >>= ·)
      (funext fun zones' => ?_)
    rw [rbNext_spec hn hids, ok_bind]
    exact rangesLoop_eq hn fuel zones' (A ++ [ptr]) B (by simpa using hids) (by simpa using hf)

/-- The address ranges of the free tree. -/
def freeRanges (b : Balloc) : List (Nat × Nat) :=
  (b.ranges .freeRanges).map fun r => (r.begin_, r.end_)

theorem zoneOf_contains {r : MemoryNode} {z : Zone} (hr : r.begin_ ≤ ADDR_LIMIT)
    (hz : zoneOf r = some z) {i : Nat} :
    z.contains i = true ↔ r.begin_ ≤ i * PAGE_SIZE ∧ (i + 1) * PAGE_SIZE ≤ r.end_ := by
  rw [zoneOf, zoneBounds_eq hr] at hz
  simp only at hz
  split at hz
  · cases hz
  · cases hz
    rw [Zone.contains_iff]
    simp only [Zone.zeroed]
    have hsize : PAGE_SIZE = 4096 := rfl
    rw [hsize]
    omega

/-- The zones of the memory map. -/
theorem zones_start {mmap : List MemoryNode} (hmap : MapOk mmap) :
    ZonesInv (mmap.filterMap zoneOf) ∅ [] ∧
      ∀ z ∈ mmap.filterMap zoneOf, z.end_ ≤ ADDR_LIMIT / PAGE_SIZE := by
  have hbegin : ∀ r ∈ mmap, r.begin_ ≤ ADDR_LIMIT := fun r hr =>
    (hmap.ranges.le r hr).trans (hmap.limit r hr)
  refine ⟨ZonesInv.of_zeroed (fun z hz => ?_) ?_, fun z hz => ?_⟩
  · obtain ⟨r, _, hz⟩ := List.mem_filterMap.mp hz
    unfold zoneOf at hz
    simp only at hz
    split at hz
    · cases hz
    · exact ⟨_, _, (Option.some.inj hz).symm⟩
  · refine List.pairwise_filterMap.mpr (hmap.ranges.apart.imp_of_mem fun {r r'} hr hr' hlt => ?_)
    intro z hz z' hz' i hi
    rw [zoneOf_contains (hbegin r hr) hz] at hi
    rw [Bool.eq_false_iff]
    intro hi'
    rw [zoneOf_contains (hbegin r' hr') hz'] at hi'
    have hsize : PAGE_SIZE = 4096 := rfl
    rw [hsize] at hi hi'
    omega
  · obtain ⟨r, hr, hz⟩ := List.mem_filterMap.mp hz
    rw [zoneOf, zoneBounds_eq (hbegin r hr)] at hz
    simp only at hz
    split at hz
    · cases hz
    · cases hz
      exact Nat.div_le_div_right (hmap.limit r hr)

/-- **`page_alloc_setup`** on memory that reads as zero reaches no `BUG_ON` of
`__page_alloc_zone_free`, and the zones manage exactly the whole pages of the ranges that are free
at the end. -/
theorem pageAllocSetup_spec {mmap : List MemoryNode} {removed : List (Nat × Nat)} {s : BootState}
    (h : BootOk mmap removed s) (hmap : MapOk mmap) :
    Post (pageAllocSetup (fun _ => Page.zero) s) SetupStop fun p =>
      BootOk mmap removed p.1 ∧ s.taken ⊆ p.1.taken ∧ (∀ z ∈ p.2, HasArray p.1.taken z) ∧
      ZonesInv p.2 (releasedPages (freeRanges p.1.balloc)) [] ∧
      SameUsers (mmap.filterMap zoneOf) p.2 ∧
      ∀ z ∈ p.2, ∀ b ∈ freeList z,
        CutFrom ((freeRanges p.1.balloc).map fun r => releaseBounds r.1 r.2) b := by
  obtain ⟨hzones, _⟩ := zones_start hmap
  have hlen := h.inv.owned.length_le .memoryMap
  unfold pageAllocSetup
  rw [leftmost_eq]
  refine (zonesLoop_spec hmap (BALLOC_MAX_RANGES + 1) s [] [] (s.balloc.ids .memoryMap) h rfl
    (by omega) (fun z hz => by cases hz)).bind ?_
  rintro ⟨s₁, zones₁⟩ ⟨h₁, hsub, hz₁, harr⟩
  simp only at h₁ hsub hz₁ harr ⊢
  have hmmap : (s.balloc.ids .memoryMap).map s.balloc.nodes = mmap := h.map
  rw [List.nil_append, hmmap] at hz₁
  subst hz₁
  have hlen₁ := h₁.inv.owned.length_le .freeRanges
  rw [leftmost_eq, show (s₁.balloc.tree .freeRanges).toList = s₁.balloc.ids .freeRanges from rfl,
    rangesLoop_eq (h₁.inv.owned.ids_nodup _) (BALLOC_MAX_RANGES + 1) _ []
      (s₁.balloc.ids .freeRanges) rfl (by omega)]
  have hfree : ((s₁.balloc.ids .freeRanges).map fun id =>
      ((s₁.balloc.nodes id).begin_, (s₁.balloc.nodes id).end_)) = freeRanges s₁.balloc := by
    rw [freeRanges, Balloc.ranges, List.map_map]
    rfl
  rw [hfree]
  have hrange : ∀ r ∈ freeRanges s₁.balloc, r.1 ≤ r.2 ∧ ∃ m ∈ mmap, m.begin_ ≤ r.1 ∧
      r.2 ≤ m.end_ := by
    intro r hr
    obtain ⟨q, hq, rfl⟩ := List.mem_map.mp hr
    exact ⟨(h₁.inv.ordered .freeRanges).le q hq, h₁.inside q hq⟩
  have hlimit : ADDR_LIMIT + PAGE_SIZE ≤ WORD := by decide
  obtain ⟨zones₂, hrel, hinv, hcut, hsame⟩ :=
    releaseRanges_spec (freeRanges s₁.balloc) [] _ ∅ hzones (fun r hr => by
      obtain ⟨hle, m, hm, _, hend⟩ := hrange r hr
      have := hmap.limit m hm
      omega)
    (fun r hr hne => by
      obtain ⟨hle, m, hm, hb, he⟩ := hrange r hr
      have hmb : m.begin_ ≤ ADDR_LIMIT := (hmap.ranges.le m hm).trans (hmap.limit m hm)
      have hin : ∀ i ∈ wholePages r.1 r.2,
          m.begin_ ≤ i * PAGE_SIZE ∧ (i + 1) * PAGE_SIZE ≤ m.end_ := fun i hi =>
        ⟨hb.trans hi.2.1, hi.2.2.trans he⟩
      obtain ⟨i, hi⟩ := hne
      obtain ⟨z, hz⟩ : ∃ z, zoneOf m = some z := by
        rw [zoneOf, zoneBounds_eq hmb]
        simp only
        rw [if_neg]
        · exact ⟨_, rfl⟩
        · have hpage := hin i hi
          have hsize : PAGE_SIZE = 4096 := rfl
          rw [hsize] at hpage ⊢
          omega
      exact ⟨z, List.mem_filterMap.mpr ⟨m, hm, hz⟩, fun i hi =>
        (zoneOf_contains hmb hz).mpr (hin i hi)⟩)
    (by
      rw [freeRanges, List.pairwise_map]
      refine (h₁.inv.ordered .freeRanges).apart.imp fun {r r'} hlt => ?_
      rw [Set.disjoint_left]
      rintro i ⟨_, _, h1⟩ ⟨_, h2, _⟩
      have hsize : PAGE_SIZE = 4096 := rfl
      simp only [hsize] at h1 h2
      omega)
    (fun r _ => Set.disjoint_empty _)
    (fun z hz b hb => by
      obtain ⟨m, _, hzm⟩ := List.mem_filterMap.mp hz
      have hempty : freeList z = [] := by
        unfold zoneOf at hzm
        simp only at hzm
        split at hzm
        · cases hzm
        · cases hzm
          simp [freeList, Zone.zeroed]
      rw [hempty] at hb
      cases hb)
  rw [hrel, ok_bind]
  rw [Set.union_empty] at hinv
  refine Post.ok ⟨h₁, hsub, fun z hz => ?_, hinv, hsame, hcut⟩
  obtain ⟨z₀, hz₀, hzz⟩ := hsame.exists_left hz
  obtain ⟨t, ht, hlen⟩ := harr z₀ hz₀
  exact ⟨t, ht, by rw [hlen, hzz.begin_, hzz.end_]⟩

/-! ## Runs of the page allocator -/

/-- The zones and, as a ghost component, the blocks that are allocated. -/
structure PageState where
  zones : List Zone
  live : List Block

inductive PageCall where
  | alloc (order : Nat)
  | free (b : Block)

/-- `page_alloc` of any order, and `page_free` of a live block with the order it was allocated
with. -/
def pageCalls : CallSystem PageState PageCall Stop where
  legal s
    | .alloc _ => True
    | .free b => b ∈ s.live
  exec s
    | .alloc order => do
      let (zones, addr) ← pageAlloc s.zones order
      return ⟨zones, if addr = 0 then s.live else ⟨addr / PAGE_SIZE, order⟩ :: s.live⟩
    | .free b => do
      let zones ← pageFree s.zones (b.start * PAGE_SIZE) b.order
      return ⟨zones, s.live.erase b⟩

/-- The pages are below the address limit, and page 0 is not among them. -/
def PagesOk (M : Set Nat) : Prop := ∀ i ∈ M, 0 < i ∧ i < ADDR_LIMIT / PAGE_SIZE

/-- The pages that `page_alloc_setup` releases. -/
theorem releasedPages_ok {mmap : List MemoryNode} {zones : List Zone} {ranges : List (Nat × Nat)}
    (hmap : MapOk mmap) (hz : ZonesInv zones (releasedPages ranges) [])
    (hsame : SameUsers (mmap.filterMap zoneOf) zones) : PagesOk (releasedPages ranges) := by
  intro i hi
  obtain ⟨z, hz, hzi⟩ := hz.covers i hi
  obtain ⟨z₀, hz₀, hzz⟩ := hsame.exists_left hz
  have hend := (zones_start hmap).2 z₀ hz₀
  have hlt := (Zone.contains_iff.mp hzi).2
  rw [hzz.end_] at hlt
  obtain ⟨_, _, hi0, _⟩ := hi
  exact ⟨Nat.pos_of_ne_zero hi0, hlt.trans_le hend⟩

/-- **`page_alloc` and `page_free`** keep the invariant of the zones. -/
theorem pageCalls_keeps {M : Set Nat} (hM : PagesOk M) :
    pageCalls.Keeps (fun _ => False) fun s => ZonesInv s.zones M s.live := by
  intro s c h hc
  have hsize : PAGE_SIZE = 4096 := rfl
  cases c with
  | alloc order =>
    simp only [pageCalls, pageAlloc]
    rcases @pageAllocRaw_spec _ _ _ order h with ⟨hnone, _⟩ | ⟨zones', idx, hsome, _, hinv, _⟩
    · rw [hnone]
      exact Post.ok h
    · have hidx := hM idx (hinv.tiling.cells_subset (by simp) (Block.start_mem ⟨idx, order⟩))
      have hmod : idx * PAGE_SIZE % WORD = idx * PAGE_SIZE := Nat.mod_eq_of_lt (by
        have h1 : ADDR_LIMIT / PAGE_SIZE * PAGE_SIZE ≤ WORD := by decide
        exact (Nat.mul_lt_mul_of_pos_right hidx.2 (by decide)).trans_le h1)
      have hne : ¬ idx * PAGE_SIZE = 0 := by
        rw [hsize]
        omega
      have hdiv : idx * PAGE_SIZE / PAGE_SIZE = idx := Nat.mul_div_cancel _ (by decide)
      rw [hsome]
      simp only [ok_bind, pure_eq_ok, hmod, if_neg hne, hdiv]
      exact Post.ok hinv
  | free b =>
    have hb : b ∈ s.live := hc
    have h' : ZonesInv s.zones M (b :: s.live.erase b) := h.perm_live (List.perm_cons_erase hb)
    have hidx := hM b.start (h.tiling.cells_subset (List.mem_append_left _ hb) b.start_mem)
    have hne : b.start * PAGE_SIZE ≠ 0 := by
      rw [hsize]
      omega
    obtain ⟨zones', hfree, hinv, _⟩ := pageFree_spec h' hne (Nat.mul_div_cancel _ (by decide))
    simp only [pageCalls, hfree, ok_bind, pure_eq_ok]
    exact Post.ok hinv

/-! ## From boot on -/

inductive BootCall where
  | alloc (size align from_ to_ : Nat)

/-- `__balloc_alloc` with a positive alignment, when no sum of an address with the size and the
alignment wraps; `balloc_alloc` is the case of the alignments it chooses. -/
def bootCalls : CallSystem BootState BootCall Stop where
  legal s
    | .alloc size align _ _ =>
      1 ≤ align ∧ ∀ r ∈ s.balloc.ranges .freeRanges, r.end_ + size + align ≤ WORD
  exec s
    | .alloc size align from_ to_ => do
      let (s, _) ← bootAllocRaw s size align from_ to_
      return s

theorem bootCalls_keeps (mmap : List MemoryNode) (removed : List (Nat × Nat)) :
    bootCalls.Keeps NoNode (BootOk mmap removed) := by
  rintro s ⟨size, align, from_, to_⟩ h ⟨hal, hov⟩
  exact (@bootAllocRaw_spec _ _ _ _ _ from_ to_ h hal hov).bind fun p hp => Post.ok hp.1

/-- The state after `balloc_setup`. -/
theorem ballocSetup_ok {mem : Memory} {info : MultibootInfo} {img : BootImage} {s : Balloc}
    (hentries : ∀ e ∈ mmapEntries mem info, e.addr + e.length ≤ ADDR_LIMIT)
    (hkernel : img.kbegin ≤ img.kend ∧ img.kend ≤ ADDR_LIMIT)
    (hinitrd : img.initrdBegin ≤ img.initrdEnd ∧ img.initrdEnd ≤ ADDR_LIMIT)
    (hsetup : ballocSetup mem info img = .ok s) :
    BootOk (s.ranges .memoryMap) (withheld (mmapEntries mem info) img) ⟨s, []⟩ ∧
      MapOk (s.ranges .memoryMap) := by
  have hlimit : ADDR_LIMIT < WORD := by decide
  obtain ⟨h, hmap⟩ := (ballocParseMmap_spec (ballocSetupNodes_same ADDR_LIMIT) (fun e he => by
    rw [MmapEntry.rend_eq ((hentries e he).trans_lt hlimit)]
    exact ⟨Nat.le_add_right _ _, hentries e he⟩) hkernel hinitrd).of_eq hsetup
  refine ⟨?_, h.inv.ordered _, hmap⟩
  rw [BootOk, List.append_nil]
  exact h

end AuOs
