import Mathlib
import AuOs.Memory.Release

/-!
# The list of zones

The functions of `memory.c` that look a zone up in `page_alloc_zones` and work on it.

* `withZone` — the loop over `page_alloc_zones` that stops at the first zone of a page; it stands
  for `page_alloc_zone_find`, `page_zone` and the search of `addr_page`.
* `pageAllocZoneFree`, `pageAllocRaw`, `pageAlloc`, `pageFreeRaw`, `pageFree` — the functions
  `__page_alloc_zone_free`, `__page_alloc`, `page_alloc`, `__page_free` and `page_free`.  The
  spinlock wrappers `page_alloc_zone` and `page_free_zone` add nothing on one thread.
* `va`, `pageAddr` — `va` and `page_addr`.
* `ZonesInv` — every zone satisfies `ZoneInv` for its share of the managed pages and of the live
  blocks, and no page belongs to two zones.
* `ZonesInv.tiling` — the live blocks and the free blocks of all zones tile the managed pages.
-/

set_option autoImplicit false

namespace AuOs

open DyadicTiling

/-- Walk the list of zones up to the first one that contains page `idx` and work on it. -/
def withZone {α : Type} (idx : Nat) (noZone : Stop) (f : Zone → Res (Zone × α)) :
    List Zone → Res (List Zone × α)
  | [] => .error noZone
  | zone :: zones =>
    if zone.contains idx then do
      let (zone', a) ← f zone
      return (zone' :: zones, a)
    else do
      let (zones', a) ← withZone idx noZone f zones
      return (zone :: zones', a)

/-- `addr & page_mask`. -/
def pageMask (addr : Nat) : Nat := addr / PAGE_SIZE * PAGE_SIZE

/-- `begin` and `end` of `__page_alloc_zone_free`: the range rounded inwards to pages, page 0 left
out. -/
def releaseBounds (zbegin zend : Nat) : Nat × Nat :=
  let beginAddr := pageMask ((zbegin + PAGE_SIZE - 1) % WORD)
  let endAddr := pageMask zend
  (if beginAddr ≠ 0 then beginAddr / PAGE_SIZE else 1, endAddr / PAGE_SIZE)

/-- `__page_alloc_zone_free`. -/
def pageAllocZoneFree (zones : List Zone) (zbegin zend : Nat) : Res (List Zone) := do
  let (begin_, end_) := releaseBounds zbegin zend
  if begin_ ≥ end_ then return zones
  let (zones, _) ← withZone begin_ (.bug .zoneFreeNoZone) (fun zone => do
    bugOn (begin_ < zone.begin_ ∨ begin_ ≥ zone.end_) .zoneFreeBegin
    bugOn (end_ ≤ zone.begin_ ∨ end_ > zone.end_) .zoneFreeEnd
    let zone ← releaseLoop end_ (end_ - begin_ + 1) zone begin_
    return (zone, ())) zones
  return zones

/-- The loop of `__page_alloc`: the first zone that has a block. -/
def allocLoop (order : Nat) : List Zone → Res (List Zone × Option Nat)
  | [] => .ok ([], none)
  | zone :: zones => do
    let (zone, page) ← pageAllocZone zone order
    match page with
    | some page => return (zone :: zones, some page)
    | none =>
      let (zones, page) ← allocLoop order zones
      return (zone :: zones, page)

/-- `__page_alloc`. -/
def pageAllocRaw (zones : List Zone) (order : Nat) : Res (List Zone × Option Nat) :=
  if order > MAX_ORDER then .ok (zones, none) else allocLoop order zones

/-- `page_alloc`: the address of the block, or 0. -/
def pageAlloc (zones : List Zone) (order : Nat) : Res (List Zone × Nat) := do
  let (zones, page) ← pageAllocRaw zones order
  match page with
  | some idx => return (zones, idx * PAGE_SIZE % WORD)
  | none => return (zones, 0)

/-- `page_free`. -/
def pageFree (zones : List Zone) (addr order : Nat) : Res (List Zone) :=
  if addr = 0 then .ok zones
  else do
    let idx := addr / PAGE_SIZE
    let (zones, _) ← withZone idx (.bug .pageFreeNoZone) (fun zone => do
      let zone ← pageFreeZone zone idx order
      return (zone, ())) zones
    return zones

/-- `__page_free` of a page that is not null. -/
def pageFreeRaw (zones : List Zone) (page order : Nat) : Res (List Zone) := do
  let (zones, _) ← withZone page (.bug .orphanPage) (fun zone => do
    let zone ← pageFreeZone zone page order
    return (zone, ())) zones
  return zones

/-- `va`. -/
def va (phys : Nat) : Nat := (phys + HIGHER_BASE) % WORD

/-- `page_addr`. -/
def pageAddr (zones : List Zone) (page : Nat) : Res Nat :=
  if zones.any fun zone => zone.contains page then .ok ((page <<< PAGE_SHIFT) % WORD)
  else .error (.bug .orphanPage)

theorem pageAddr_eq {zones : List Zone} {page : Nat}
    (hz : ∃ zone ∈ zones, zone.contains page = true)
    (hlt : page < 2 ^ 40) : pageAddr zones page = .ok (page * 4096) := by
  obtain ⟨zone, hzone, hc⟩ := hz
  rw [pageAddr, if_pos (List.any_eq_true.mpr ⟨zone, hzone, hc⟩), Nat.shiftLeft_eq,
    Nat.mod_eq_of_lt]
  · rfl
  · unfold WORD PAGE_SHIFT
    omega

/-! ## Bounds of a released range -/

/-- The whole pages inside an address range, without page 0. -/
def wholePages (zbegin zend : Nat) : Set Nat :=
  {i | i ≠ 0 ∧ zbegin ≤ i * PAGE_SIZE ∧ (i + 1) * PAGE_SIZE ≤ zend}

theorem pageMask_div (addr : Nat) : pageMask addr / PAGE_SIZE = addr / PAGE_SIZE :=
  Nat.mul_div_cancel _ (by decide)

/-- **Rounding is exact** for ranges that do not start in the last page of the address space. -/
theorem mem_wholePages {zbegin zend : Nat} (h : zbegin + PAGE_SIZE ≤ WORD) {i : Nat} :
    i ∈ wholePages zbegin zend ↔
      (releaseBounds zbegin zend).1 ≤ i ∧ i < (releaseBounds zbegin zend).2 := by
  have hmod : (zbegin + PAGE_SIZE - 1) % WORD = zbegin + PAGE_SIZE - 1 := Nat.mod_eq_of_lt (by
    have : 0 < PAGE_SIZE := by decide
    omega)
  have hzero : pageMask (zbegin + PAGE_SIZE - 1) = 0 ↔
      (zbegin + PAGE_SIZE - 1) / PAGE_SIZE = 0 := by
    rw [pageMask, Nat.mul_eq_zero]
    exact or_iff_left (by decide)
  simp only [wholePages, Set.mem_ofPred_eq, releaseBounds, hmod, ne_eq, hzero, pageMask_div]
  have hsize : PAGE_SIZE = 4096 := rfl
  by_cases h0 : (zbegin + PAGE_SIZE - 1) / PAGE_SIZE = 0
  · rw [if_neg (not_not.mpr h0)]
    rw [hsize] at *
    omega
  · rw [if_pos h0]
    rw [hsize] at *
    omega

/-- The descriptors of the zones stay with their pages. -/
abbrev SameUsers (zones zones' : List Zone) : Prop := List.Forall₂ SameUser zones zones'

theorem SameUsers.refl (zones : List Zone) : SameUsers zones zones :=
  List.forall₂_same.mpr fun z _ => SameUser.refl z

/-! ## The invariant of all zones -/

structure ZonesInv (zones : List Zone) (M : Set Nat) (live : List Block) : Prop where
  disjoint : zones.Pairwise fun z z' => ∀ i, z.contains i = true → z'.contains i = false
  covers : ∀ i ∈ M, ∃ z ∈ zones, z.contains i = true
  live_in : ∀ b ∈ live, ∃ z ∈ zones, z.contains b.start = true
  zone : ∀ z ∈ zones, ZoneInv z (M ∩ {i | z.contains i = true})
    (live.filter fun b => z.contains b.start) []

namespace ZonesInv

variable {zones l₁ l₂ : List Zone} {M M' : Set Nat} {live live' : List Block} {zone zone' : Zone}

/-- A page belongs to one zone. -/
theorem eq_of_contains (h : ZonesInv zones M live) {z z' : Zone} (hz : z ∈ zones) (hz' : z' ∈ zones)
    {i : Nat} (hi : z.contains i = true) (hi' : z'.contains i = true) : z = z' := by
  by_contra hne
  have : Std.Symm (fun z z' : Zone => ∀ i, z.contains i = true → z'.contains i = false) :=
    ⟨fun z z' hzz i hi => by
      by_contra hc
      rw [hzz i (by simpa using hc)] at hi
      cases hi⟩
  have := h.disjoint.forall hz hz' hne i hi
  rw [hi'] at this
  cases this

theorem not_contains_of_split (h : ZonesInv (l₁ ++ zone :: l₂) M live) {y : Zone}
    (hy : y ∈ l₁ ∨ y ∈ l₂) {i : Nat} (hi : zone.contains i = true) : y.contains i = false := by
  obtain ⟨_, h₂, h₃⟩ := List.pairwise_append.mp h.disjoint
  rcases hy with hy | hy
  · by_contra hc
    rw [h₃ y hy zone List.mem_cons_self i (by simpa using hc)] at hi
    cases hi
  · exact (List.pairwise_cons.mp h₂).1 y hy i hi

/-- Replacing one zone: the other zones must see the same pages and live blocks as before. -/
theorem update (h : ZonesInv (l₁ ++ zone :: l₂) M live)
    (hc : ∀ i, zone'.contains i = zone.contains i)
    (hz : ZoneInv zone' (M' ∩ {i | zone.contains i = true})
      (live'.filter fun b => zone.contains b.start) [])
    (hM : ∀ i, zone.contains i = false → (i ∈ M' ↔ i ∈ M))
    (hlive : ∀ b ∈ live', zone.contains b.start = false → b ∈ live)
    (hperm : ∀ y, y ∈ l₁ ∨ y ∈ l₂ → (live.filter fun b => y.contains b.start).Perm
      (live'.filter fun b => y.contains b.start)) :
    ZonesInv (l₁ ++ zone' :: l₂) M' live' := by
  have hother : ∀ y, y ∈ l₁ ∨ y ∈ l₂ → ∀ i, y.contains i = true → zone.contains i = false := by
    intro y hy i hi
    by_contra hcon
    rw [h.not_contains_of_split hy (by simpa using hcon)] at hi
    cases hi
  refine ⟨?_, ?_, ?_, ?_⟩
  · have hd := h.disjoint
    rw [List.pairwise_append, List.pairwise_cons] at hd ⊢
    simp only [List.mem_cons, forall_eq_or_imp, hc] at hd ⊢
    exact hd
  · intro i hi
    by_cases hzi : zone.contains i = true
    · exact ⟨zone', by simp, by rw [hc]; exact hzi⟩
    · obtain ⟨z, hzm, hzc⟩ := h.covers i ((hM i (by simpa using hzi)).mp hi)
      refine ⟨z, ?_, hzc⟩
      simp only [List.mem_append, List.mem_cons] at hzm ⊢
      rcases hzm with hzm | rfl | hzm
      · exact Or.inl hzm
      · exact absurd hzc hzi
      · exact Or.inr (Or.inr hzm)
  · intro b hb
    by_cases hzi : zone.contains b.start = true
    · exact ⟨zone', by simp, by rw [hc]; exact hzi⟩
    · obtain ⟨z, hzm, hzc⟩ := h.live_in b (hlive b hb (by simpa using hzi))
      refine ⟨z, ?_, hzc⟩
      simp only [List.mem_append, List.mem_cons] at hzm ⊢
      rcases hzm with hzm | rfl | hzm
      · exact Or.inl hzm
      · exact absurd hzc hzi
      · exact Or.inr (Or.inr hzm)
  · intro z hzm
    have hcases : z = zone' ∨ (z ∈ l₁ ∨ z ∈ l₂) := by
      simp only [List.mem_append, List.mem_cons] at hzm; tauto
    rcases hcases with rfl | hy
    · simp only [hc]
      exact hz
    · have hMz : M' ∩ {i | z.contains i = true} = M ∩ {i | z.contains i = true} := by
        ext i
        simp only [Set.mem_inter_iff, Set.mem_ofPred_eq]
        exact and_congr_left fun hi => hM i (hother z hy i hi)
      rw [hMz]
      exact (h.zone z (by simp only [List.mem_append, List.mem_cons]; tauto)).perm_live (hperm z hy)

end ZonesInv

/-- Sorting the live blocks by zone loses and duplicates none. -/
theorem flatMap_filter_perm {zones : List Zone} {live : List Block}
    (hd : zones.Pairwise fun z z' => ∀ i, z.contains i = true → z'.contains i = false)
    (hex : ∀ b ∈ live, ∃ z ∈ zones, z.contains b.start = true) :
    (zones.flatMap fun z => live.filter fun b => z.contains b.start).Perm live := by
  induction zones generalizing live with
  | nil =>
    cases live with
    | nil => exact List.Perm.nil
    | cons b l => obtain ⟨z, hz, _⟩ := hex b List.mem_cons_self; cases hz
  | cons z zs ih =>
    obtain ⟨hz, hzs⟩ := List.pairwise_cons.mp hd
    have hrest : ∀ b ∈ live.filter (fun b => !z.contains b.start),
        ∃ y ∈ zs, y.contains b.start = true := by
      intro b hb
      obtain ⟨hbl, hbz⟩ := List.mem_filter.mp hb
      obtain ⟨y, hy, hyb⟩ := hex b hbl
      rcases List.mem_cons.mp hy with rfl | hy
      · rw [hyb] at hbz; cases hbz
      · exact ⟨y, hy, hyb⟩
    have hsame : (zs.flatMap fun y => live.filter fun b => y.contains b.start) =
        zs.flatMap fun y => (live.filter fun b => !z.contains b.start).filter
          fun b => y.contains b.start := by
      refine List.flatMap_congr fun y hy => ?_
      rw [List.filter_filter]
      refine List.filter_congr fun b _ => ?_
      cases hyb : y.contains b.start with
      | false => rfl
      | true =>
        cases hzb : z.contains b.start with
        | false => rfl
        | true => rw [hz y hy _ hzb] at hyb; cases hyb
    rw [List.flatMap_cons, hsame]
    exact ((ih hzs hrest).append_left _).trans (List.filter_append_perm _ _)

namespace ZonesInv

variable {zones : List Zone} {M : Set Nat} {live : List Block}

/-- **The live blocks and the free blocks of all zones tile the managed pages.** -/
theorem tiling (h : ZonesInv zones M live) : Tiling (live ++ zones.flatMap freeList) M := by
  have hzones : ∀ zs : List Zone, zs ⊆ zones →
      zs.Pairwise (fun z z' => ∀ i, z.contains i = true → z'.contains i = false) →
      Tiling (zs.flatMap fun z => (live.filter fun b => z.contains b.start) ++ freeList z)
        {i | i ∈ M ∧ ∃ z ∈ zs, z.contains i = true} := by
    intro zs
    induction zs with
    | nil => intro _ _; simpa using Tiling.nil
    | cons z zs ih =>
      intro hsub hd
      obtain ⟨hz, hzs⟩ := List.pairwise_cons.mp hd
      have h₁ := (h.zone z (hsub List.mem_cons_self)).tiling
      have h₂ := ih (fun y hy => hsub (List.mem_cons_of_mem _ hy)) hzs
      have hdis : Disjoint (M ∩ {i | z.contains i = true})
          {i | i ∈ M ∧ ∃ y ∈ zs, y.contains i = true} := by
        rw [Set.disjoint_left]
        rintro i ⟨_, hi⟩ ⟨_, y, hy, hyi⟩
        rw [hz y hy i hi] at hyi
        cases hyi
      have hset : {i | i ∈ M ∧ ∃ y ∈ z :: zs, y.contains i = true} =
          M ∩ {i | z.contains i = true} ∪ {i | i ∈ M ∧ ∃ y ∈ zs, y.contains i = true} := by
        ext i
        simp only [List.mem_cons, exists_eq_or_imp, Set.mem_ofPred_eq, Set.mem_union,
          Set.mem_inter_iff]
        tauto
      rw [hset, List.flatMap_cons]
      exact h₁.append h₂ hdis
  have hM : {i | i ∈ M ∧ ∃ z ∈ zones, z.contains i = true} = M := by
    ext i
    exact ⟨fun hi => hi.1, fun hi => ⟨hi, h.covers i hi⟩⟩
  have ht := hzones zones (List.Subset.refl _) h.disjoint
  rw [hM] at ht
  refine ht.perm ((List.flatMap_append_perm _ _ _).symm.trans ?_)
  exact (flatMap_filter_perm h.disjoint h.live_in).append_right _

/-- A live block lies inside one zone. -/
theorem live_cells (h : ZonesInv zones M live) {z : Zone} (hz : z ∈ zones) {b : Block}
    (hb : b ∈ live) (hs : z.contains b.start = true) {i : Nat} (hi : i ∈ b.cells) :
    z.contains i = true :=
  ((h.zone z hz).tiling.cells_subset (ZoneInv.mem_live (List.mem_filter.mpr ⟨hb, hs⟩)) hi).2

theorem perm_live {live' : List Block} (h : ZonesInv zones M live) (hp : live.Perm live') :
    ZonesInv zones M live' where
  disjoint := h.disjoint
  covers := h.covers
  live_in := fun b hb => h.live_in b (hp.mem_iff.mpr hb)
  zone := fun z hz => (h.zone z hz).perm_live (hp.filter _)

end ZonesInv

/-! ## The functions -/

/-- The search stops at the zone of the page. -/
theorem withZone_of_contains {α : Type} {idx : Nat} {noZone : Stop} {f : Zone → Res (Zone × α)}
    {l₁ l₂ : List Zone} {zone zone' : Zone} {a : α} (h₁ : ∀ z ∈ l₁, z.contains idx = false)
    (hz : zone.contains idx = true) (hf : f zone = .ok (zone', a)) :
    withZone idx noZone f (l₁ ++ zone :: l₂) = .ok (l₁ ++ zone' :: l₂, a) := by
  induction l₁ with
  | nil => rw [List.nil_append, withZone, if_pos hz, hf]; rfl
  | cons z zs ih =>
    have hn : ¬ z.contains idx = true := by rw [h₁ z List.mem_cons_self]; simp
    rw [List.cons_append, withZone, if_neg hn, ih fun y hy => h₁ y (List.mem_cons_of_mem _ hy)]
    rfl

section Spec

variable {zones : List Zone} {M : Set Nat} {live : List Block}

/-- A function on the zone of a page, lifted to the list of zones. -/
theorem withZone_spec {α : Type} {idx : Nat} (noZone : Stop) {f : Zone → Res (Zone × α)}
    (h : ZonesInv zones M live) {z : Zone} (hz : z ∈ zones) (hi : z.contains idx = true)
    {z' : Zone} {a : α} (hf : f z = .ok (z', a)) :
    ∃ l₁ l₂, zones = l₁ ++ z :: l₂ ∧
      withZone idx noZone f zones = .ok (l₁ ++ z' :: l₂, a) := by
  obtain ⟨l₁, l₂, rfl⟩ := List.append_of_mem hz
  refine ⟨l₁, l₂, rfl, withZone_of_contains (fun y hy => ?_) hi hf⟩
  exact h.not_contains_of_split (Or.inl hy) hi

theorem sameUsers_update {l₁ l₂ : List Zone} {z z' : Zone} (h : SameUser z z') :
    SameUsers (l₁ ++ z :: l₂) (l₁ ++ z' :: l₂) :=
  List.rel_append (SameUsers.refl l₁) (List.Forall₂.cons h (SameUsers.refl l₂))

/-- What a step on one zone does to the property `P` of every zone. -/
theorem forall_update {l₁ l₂ : List Zone} {z z' : Zone} {P : Zone → Prop}
    (h : ∀ y ∈ l₁ ++ z :: l₂, P y) (hz : P z → P z') : ∀ y ∈ l₁ ++ z' :: l₂, P y := by
  intro y hy
  simp only [List.mem_append, List.mem_cons] at h hy
  rcases hy with hy | rfl | hy
  · exact h y (Or.inl hy)
  · exact hz (h z (Or.inr (Or.inl rfl)))
  · exact h y (Or.inr (Or.inr hy))

/-- **`__page_free`/`page_free` on the zone list**: the live block becomes free. -/
theorem pageFree_withZone {b : Block} (noZone : Stop) (h : ZonesInv zones M (b :: live)) :
    ∃ zones', withZone b.start noZone (fun zone => do
        let zone ← pageFreeZone zone b.start b.order
        return (zone, ())) zones = .ok (zones', ()) ∧
      ZonesInv zones' M live ∧ ((∀ z ∈ zones, NoBuddies z) → ∀ z ∈ zones', NoBuddies z) ∧
      SameUsers zones zones' := by
  obtain ⟨z, hz, hzb⟩ := h.live_in b List.mem_cons_self
  have hinv := h.zone z hz
  rw [List.filter_cons_of_pos (by simpa using hzb)] at hinv
  obtain ⟨z', hfree, hinv', hnb, hsame⟩ := pageFreeZone_spec hinv
  obtain ⟨l₁, l₂, rfl, hwith⟩ := withZone_spec noZone h hz hzb
    (f := fun zone => do
      let zone ← pageFreeZone zone b.start b.order
      return (zone, ()))
    (by rw [hfree]; rfl)
  refine ⟨_, hwith, ?_, fun hn => forall_update hn hnb, sameUsers_update hsame⟩
  refine h.update hsame.contains hinv' (fun i _ => Iff.rfl) (fun c hc _ =>
    List.mem_cons_of_mem _ hc) ?_
  intro y hy
  have hyb := h.not_contains_of_split hy hzb
  rw [List.filter_cons_of_neg (by simpa using hyb)]

theorem pageFreeRaw_spec {b : Block} (h : ZonesInv zones M (b :: live)) :
    ∃ zones', pageFreeRaw zones b.start b.order = .ok zones' ∧ ZonesInv zones' M live ∧
      ((∀ z ∈ zones, NoBuddies z) → ∀ z ∈ zones', NoBuddies z) ∧ SameUsers zones zones' := by
  obtain ⟨zones', hwith, hrest⟩ := pageFree_withZone (.bug .orphanPage) h
  exact ⟨zones', by rw [pageFreeRaw, hwith]; rfl, hrest⟩

theorem pageFree_spec {b : Block} {addr : Nat} (h : ZonesInv zones M (b :: live))
    (h0 : addr ≠ 0) (haddr : addr / PAGE_SIZE = b.start) :
    ∃ zones', pageFree zones addr b.order = .ok zones' ∧ ZonesInv zones' M live ∧
      ((∀ z ∈ zones, NoBuddies z) → ∀ z ∈ zones', NoBuddies z) ∧ SameUsers zones zones' := by
  obtain ⟨zones', hwith, hrest⟩ := pageFree_withZone (.bug .pageFreeNoZone) h
  refine ⟨zones', ?_, hrest⟩
  rw [pageFree, if_neg h0]
  simp only [haddr]
  rw [hwith]
  rfl

/-- **The allocation loop**: a block of the first zone that has one. -/
theorem allocLoop_spec {order : Nat} (ho : order ≤ MAX_ORDER) :
    ∀ (l₂ l₁ : List Zone), ZonesInv (l₁ ++ l₂) M live →
      (allocLoop order l₂ = .ok (l₂, none) ∧ ∀ z ∈ l₂, ∀ b ∈ freeList z, b.order < order) ∨
      ∃ l₂' idx, allocLoop order l₂ = .ok (l₂', some idx) ∧
        ZonesInv (l₁ ++ l₂') M (⟨idx, order⟩ :: live) ∧
        ((∀ z ∈ l₁ ++ l₂, NoBuddies z) → ∀ z ∈ l₁ ++ l₂', NoBuddies z) ∧ SameUsers l₂ l₂' ∧
        ∃ z ∈ l₂, ∃ b ∈ freeList z, order ≤ b.order
  | [], l₁, _ => Or.inl ⟨rfl, fun z hz => by cases hz⟩
  | z :: zs, l₁, h => by
    have hinv := h.zone z (by simp)
    unfold allocLoop
    rcases pageAllocZone_spec hinv ho with ⟨hnone, hfew⟩ | ⟨z', idx, hsome, hinv', hnb, hsame, hex⟩
    · rw [hnone, ok_bind]
      simp only
      rcases allocLoop_spec ho zs (l₁ ++ [z]) (by simpa using h) with
        ⟨hloop, hall⟩ | ⟨zs', idx, hloop, hinv', hnb, hsame, y, hy, hex⟩
      · left
        rw [hloop]
        refine ⟨rfl, fun y hy => ?_⟩
        rcases List.mem_cons.mp hy with rfl | hy
        · exact hfew
        · exact hall y hy
      · right
        rw [hloop]
        exact ⟨z :: zs', idx, rfl, by simpa using hinv', by simpa using hnb,
          List.Forall₂.cons (SameUser.refl z) hsame, y, List.mem_cons_of_mem _ hy, hex⟩
    · right
      rw [hsome, ok_bind]
      refine ⟨z' :: zs, idx, rfl, ?_, fun hn => forall_update hn hnb,
        List.Forall₂.cons hsame (SameUsers.refl zs), z, List.mem_cons_self, hex⟩
      have hzi : z.contains idx = true := by
        have := hinv'.inside idx (hinv'.start_mem (c := ⟨idx, order⟩) (by simp))
        rwa [hsame.contains] at this
      refine h.update hsame.contains ?_ (fun i _ => Iff.rfl) (fun b hb hzb => ?_) fun y hy => ?_
      · rwa [List.filter_cons_of_pos (by simpa using hzi)]
      · rcases List.mem_cons.mp hb with rfl | hb
        · rw [hzi] at hzb; cases hzb
        · exact hb
      · have hyi := h.not_contains_of_split hy hzi
        rw [List.filter_cons_of_neg (by simpa using hyi)]

/-- **`__page_alloc`**: a block that becomes live, or null when no zone has one. -/
theorem pageAllocRaw_spec {order : Nat} (h : ZonesInv zones M live) :
    (pageAllocRaw zones order = .ok (zones, none) ∧
      (order ≤ MAX_ORDER → ∀ z ∈ zones, ∀ b ∈ freeList z, b.order < order)) ∨
    ∃ zones' idx, pageAllocRaw zones order = .ok (zones', some idx) ∧ order ≤ MAX_ORDER ∧
      ZonesInv zones' M (⟨idx, order⟩ :: live) ∧
      ((∀ z ∈ zones, NoBuddies z) → ∀ z ∈ zones', NoBuddies z) ∧ SameUsers zones zones' := by
  unfold pageAllocRaw
  by_cases ho : order ≤ MAX_ORDER
  · rw [if_neg (not_lt.mpr ho)]
    rcases allocLoop_spec ho zones [] h with ⟨hl, hall⟩ | ⟨zs, idx, hl, hinv, hnb, hsame, _⟩
    · exact Or.inl ⟨hl, fun _ => hall⟩
    · exact Or.inr ⟨zs, idx, hl, ho, hinv, hnb, hsame⟩
  · rw [if_pos (not_le.mp ho)]
    exact Or.inl ⟨rfl, fun h => absurd h ho⟩

/-- **`__page_alloc_zone_free`**: the whole pages of the range become managed and free. -/
theorem pageAllocZoneFree_spec {zbegin zend : Nat} (h : ZonesInv zones M live)
    (hb : zbegin + PAGE_SIZE ≤ WORD)
    (hin : (wholePages zbegin zend).Nonempty →
      ∃ z ∈ zones, ∀ i ∈ wholePages zbegin zend, z.contains i = true)
    (hnew : ∀ i ∈ wholePages zbegin zend, i ∉ M) :
    ∃ zones', pageAllocZoneFree zones zbegin zend = .ok zones' ∧
      ZonesInv zones' (wholePages zbegin zend ∪ M) live ∧
      (∀ ranges, (∀ z ∈ zones, ∀ b ∈ freeList z, CutFrom ranges b) →
        ∀ z ∈ zones', ∀ b ∈ freeList z, CutFrom (releaseBounds zbegin zend :: ranges) b) ∧
      SameUsers zones zones' := by
  have hpages := @mem_wholePages zbegin zend hb
  unfold pageAllocZoneFree
  simp only
  generalize releaseBounds zbegin zend = r at *
  have hmono : ∀ ranges b, CutFrom ranges b → CutFrom (r :: ranges) b := by
    rintro ranges b ⟨s, hs, hsb⟩
    exact ⟨s, List.mem_cons_of_mem _ hs, hsb⟩
  by_cases hempty : r.1 ≥ r.2
  · rw [if_pos hempty]
    have hM : wholePages zbegin zend ∪ M = M := by
      ext i
      rw [Set.mem_union, hpages]
      exact or_iff_right (by omega)
    rw [hM]
    exact ⟨zones, rfl, h, fun ranges hcut z hz b hbz => hmono ranges b (hcut z hz b hbz),
      SameUsers.refl zones⟩
  · rw [if_neg hempty]
    have hfirst : r.1 ∈ wholePages zbegin zend := hpages.mpr (by omega)
    have hlast : r.2 - 1 ∈ wholePages zbegin zend := hpages.mpr (by omega)
    obtain ⟨z, hz, hzin⟩ := hin ⟨_, hfirst⟩
    have hz1 := Zone.contains_iff.mp (hzin _ hfirst)
    have hz2 := Zone.contains_iff.mp (hzin _ hlast)
    have hinv := h.zone z hz
    have hle : r.1 ≤ r.2 := by omega
    have hfuel : r.2 < r.2 - r.1 + 1 + r.1 := by omega
    obtain ⟨z', hloop, hinv', hblocks, hsame⟩ := releaseLoop_spec (r.2 - r.1 + 1) r.1 z _ hinv
      hle hfuel (fun i hi hi' => by
        have := hpages.mpr ⟨hi, hi'⟩
        exact ⟨hzin i this, fun hM => hnew i this hM.1⟩)
    obtain ⟨l₁, l₂, rfl, hwith⟩ := withZone_spec (.bug .zoneFreeNoZone) h hz (hzin _ hfirst)
      (f := fun zone => do
        bugOn (r.1 < zone.begin_ ∨ r.1 ≥ zone.end_) .zoneFreeBegin
        bugOn (r.2 ≤ zone.begin_ ∨ r.2 > zone.end_) .zoneFreeEnd
        let zone ← releaseLoop r.2 (r.2 - r.1 + 1) zone r.1
        return (zone, ()))
      (by
        rw [bugOn_neg (by omega), bugOn_neg (by omega), ok_bind, ok_bind, hloop]
        rfl)
    refine ⟨_, by rw [hwith]; rfl, ?_, fun ranges hcut => ?_, sameUsers_update hsame⟩
    · refine h.update hsame.contains ?_ (fun i hi => ?_) (fun b hb _ => hb) fun y _ =>
        List.Perm.refl _
      · have hset : (wholePages zbegin zend ∪ M) ∩ {i | z.contains i = true} =
            {i | r.1 ≤ i ∧ i < r.2} ∪ M ∩ {i | z.contains i = true} := by
          ext i
          simp only [Set.mem_inter_iff, Set.mem_union, Set.mem_ofPred_eq, ← hpages]
          constructor
          · rintro ⟨hi | hi, hzi⟩
            · exact Or.inl hi
            · exact Or.inr ⟨hi, hzi⟩
          · rintro (hi | ⟨hi, hzi⟩)
            · exact ⟨Or.inl hi, hzin i hi⟩
            · exact ⟨Or.inr hi, hzi⟩
        rw [hset]
        exact hinv'
      · rw [Set.mem_union]
        refine or_iff_right fun hw => ?_
        rw [hzin i hw] at hi
        cases hi
    · refine forall_update (P := fun y => ∀ b ∈ freeList y, CutFrom (r :: ranges) b)
        (fun y hy b hby => hmono ranges b (hcut y hy b hby)) fun hcutz b hbz => ?_
      rcases hblocks b hbz with hb' | ⟨h1, h2, h3⟩
      · exact hcutz b hb'
      · exact ⟨r, List.mem_cons_self, h1, h2, h3⟩

end Spec

end AuOs
