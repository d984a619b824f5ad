import Mathlib
import AuOs.Memory.Setup

/-!
# FREE flags after `page_alloc_setup`

`__page_alloc_zone_setup` means to clear the descriptors of a new zone, but its `memset` takes the
length from `zone->end - zone->end`, so that they keep what the memory held.

* `ZoneSlot`, `zoneSlots` — the zones and the addresses that the bootstrap allocator gives them.
* `SameLists`, `Marked` — what the contents of the descriptors do not decide, and what becomes of
  them.
* `FreeTrusted` — a FREE flag stands only in the head of a block that is linked in its list.
* `free_trusted_iff` — it holds after `page_alloc_setup` just when the memory of every other
  descriptor had the flag clear before.
-/

set_option autoImplicit false

namespace AuOs

open DyadicTiling

/-! ## Where the zones are placed -/

/-- The page numbers of a zone and the address of its `struct page_alloc_zone`. -/
structure ZoneSlot where
  begin_ : Nat
  end_ : Nat
  addr : Nat
  deriving DecidableEq, Repr

namespace ZoneSlot

/-- The address of the descriptor of a page. -/
def desc (slot : ZoneSlot) (idx : Nat) : Nat :=
  slot.addr + ZONE_PAGES_OFFS + SIZEOF_PAGE * (idx - slot.begin_)

/-- The new zone, over memory that holds `prior`. -/
def zone (prior : Nat → Page) (slot : ZoneSlot) : Zone where
  begin_ := slot.begin_
  end_ := slot.end_
  order := fun _ => []
  pages := fun idx => prior (slot.desc idx)

end ZoneSlot

/-- The allocation that `__page_alloc_zone_setup` makes. -/
def placeZone (s : BootState) (slots : List ZoneSlot) (zbegin zend : Nat) :
    Res (BootState × List ZoneSlot) := do
  let (begin_, end_) := zoneBounds zbegin zend
  if begin_ ≥ end_ then return (s, slots)
  let (s, addr) ← bootAlloc s (SIZEOF_ZONE + SIZEOF_PAGE * (end_ - begin_)) 0 UINTPTR_MAX
  bugOn (addr = UINTPTR_MAX) .zoneSetupNoMemory
  return (s, slots ++ [⟨begin_, end_, addr⟩])

/-- The allocations that the first loop of `page_alloc_setup` makes. -/
def placeLoop : Nat → BootState → List ZoneSlot → Option Nat → Res (BootState × List ZoneSlot)
  | 0, _, _, _ => .error .hang
  | _ + 1, s, slots, none => .ok (s, slots)
  | fuel + 1, s, slots, some ptr => do
    let node := s.balloc.nodes ptr
    let (s, slots) ← placeZone s slots node.begin_ node.end_
    let next ← rbNext (s.balloc.tree .memoryMap) ptr
    placeLoop fuel s slots next

/-- The zones of `page_alloc_setup` with their addresses, and the bootstrap allocator after that. -/
def zoneSlots (s : BootState) : Res (BootState × List ZoneSlot) :=
  placeLoop (BALLOC_MAX_RANGES + 1) s [] (s.balloc.tree .memoryMap).leftmost

/-- The zones `zones` are the new ones at `slots`. -/
def Placed (prior : Nat → Page) (p : BootState × List Zone)
    (q : BootState × List ZoneSlot) : Prop :=
  p.1 = q.1 ∧ p.2 = q.2.map (ZoneSlot.zone prior)

section Place

variable {prior : Nat → Page} {s : BootState} {slots : List ZoneSlot}

theorem pageAllocZoneSetup_placed {zbegin zend : Nat} :
    Alike (pageAllocZoneSetup prior s (slots.map (ZoneSlot.zone prior)) zbegin zend)
      (placeZone s slots zbegin zend) (Placed prior) := by
  unfold pageAllocZoneSetup placeZone
  simp only
  split
  · exact Alike.ok ⟨rfl, rfl⟩
  · refine (Alike.same _).bind ?_
    rintro ⟨s', addr⟩ _ rfl
    refine (Alike.same _).bind fun _ _ _ => Alike.ok ⟨rfl, ?_⟩
    rw [List.map_append]
    rfl

/-- **The first loop** places the zones whatever the memory holds. -/
theorem zonesLoop_placed : ∀ (fuel : Nat) (s : BootState) (slots : List ZoneSlot)
    (ptr : Option Nat),
    Alike (zonesLoop prior fuel s (slots.map (ZoneSlot.zone prior)) ptr)
      (placeLoop fuel s slots ptr) (Placed prior)
  | 0, s, slots, ptr => Alike.error _
  | fuel + 1, s, slots, none => Alike.ok ⟨rfl, rfl⟩
  | fuel + 1, s, slots, some ptr => by
    refine pageAllocZoneSetup_placed.bind ?_
    rintro ⟨s₁, zones₁⟩ ⟨s₂, slots₁⟩ ⟨hs, hz⟩
    simp only at hs hz
    subst hs hz
    refine (Alike.same _).bind ?_
    rintro next _ rfl
    exact zonesLoop_placed fuel s₁ slots₁ next

end Place

/-! ## The lists -/

/-- The zones have the same bounds and lists. -/
structure SameLists (zone zone' : Zone) : Prop where
  begin_ : zone.begin_ = zone'.begin_
  end_ : zone.end_ = zone'.end_
  order : zone.order = zone'.order

namespace SameLists

variable {zone zone' : Zone} {idx order : Nat}

theorem contains (h : SameLists zone zone') : zone.contains idx = zone'.contains idx := by
  rw [Zone.contains, Zone.contains, h.begin_, h.end_]

theorem linked (h : SameLists zone zone') : zone.linked idx = zone'.linked idx := by
  rw [Zone.linked, Zone.linked, h.order]

theorem access (h : SameLists zone zone') : zone.access idx = zone'.access idx := by
  rw [Zone.access, Zone.access, h.contains]

theorem listAddTail (h : SameLists zone zone') :
    Alike (listAddTail zone idx order) (listAddTail zone' idx order) SameLists := by
  unfold AuOs.listAddTail
  rw [h.linked]
  split
  · exact Alike.error _
  · exact Alike.ok ⟨h.begin_, h.end_, by rw [h.order]; simp only [Zone.setOrder, h.order]⟩

theorem markFree (h : SameLists zone zone') :
    Alike (markFree zone idx order) (markFree zone' idx order) SameLists := by
  unfold AuOs.markFree pageSetOrder
  rw [h.access]
  simp only [bind_assoc]
  refine (Alike.same _).bind fun _ _ _ => (Alike.same _).bind fun _ _ _ =>
    (Alike.same _).bind fun _ _ _ => Alike.ok ⟨h.begin_, h.end_, h.order⟩

end SameLists

/-- **The release loop** makes the same lists whatever the descriptors hold. -/
theorem releaseLoop_sameLists {end_ : Nat} : ∀ (fuel page : Nat) (zone zone' : Zone),
    SameLists zone zone' →
    Alike (releaseLoop end_ fuel zone page) (releaseLoop end_ fuel zone' page) SameLists
  | 0, page, zone, zone', h => Alike.error _
  | fuel + 1, page, zone, zone', h => by
    unfold releaseLoop
    split
    · exact Alike.ok h
    · simp only
      rw [h.access]
      refine (Alike.same _).bind fun _ _ _ => h.listAddTail.bind fun z₁ z₁' h₁ =>
        h₁.markFree.bind fun z₂ z₂' h₂ => releaseLoop_sameLists fuel _ z₂ z₂' h₂

theorem withZone_sameLists {idx : Nat} {noZone : Stop} {f g : Zone → Res (Zone × Unit)}
    (hfg : ∀ z z', SameLists z z' → Alike (f z) (g z') fun p q => SameLists p.1 q.1)
    {zones zones' : List Zone} (h : List.Forall₂ SameLists zones zones') :
    Alike (withZone idx noZone f zones) (withZone idx noZone g zones')
      fun p q => List.Forall₂ SameLists p.1 q.1 := by
  induction h with
  | nil => exact Alike.error _
  | cons hz hzs ih =>
    unfold withZone
    rw [hz.contains]
    split
    · exact (hfg _ _ hz).bind fun p q hpq => Alike.ok (.cons hpq hzs)
    · exact ih.bind fun p q hpq => Alike.ok (.cons hz hpq)

theorem pageAllocZoneFree_sameLists {zbegin zend : Nat} {zones zones' : List Zone}
    (h : List.Forall₂ SameLists zones zones') :
    Alike (pageAllocZoneFree zones zbegin zend) (pageAllocZoneFree zones' zbegin zend)
      (List.Forall₂ SameLists) := by
  unfold pageAllocZoneFree
  simp only
  split
  · exact Alike.ok h
  · refine (withZone_sameLists (fun z z' hz => ?_) h).bind fun p q hpq => Alike.ok hpq
    rw [hz.begin_, hz.end_]
    refine (Alike.same _).bind fun _ _ _ => (Alike.same _).bind fun _ _ _ => ?_
    exact (releaseLoop_sameLists _ _ z z' hz).bind fun _ _ h => Alike.ok h

/-- **The second loop** makes the same lists whatever the descriptors hold. -/
theorem rangesLoop_sameLists {b : Balloc} : ∀ (fuel : Nat) (zones zones' : List Zone)
    (ptr : Option Nat), List.Forall₂ SameLists zones zones' →
    Alike (rangesLoop b fuel zones ptr) (rangesLoop b fuel zones' ptr) (List.Forall₂ SameLists)
  | 0, _, _, _, _ => Alike.error _
  | _ + 1, _, _, none, h => Alike.ok h
  | fuel + 1, _, _, some _, h =>
    (pageAllocZoneFree_sameLists h).bind fun z z' hz => (Alike.same _).bind fun next _ hn =>
      hn ▸ rangesLoop_sameLists fuel z z' next hz

/-! ## The descriptors -/

/-- The heads of the blocks are marked, all other descriptors are as they were. -/
structure Marked (prior : Nat → Page) (slot : ZoneSlot) (zone : Zone) : Prop where
  begin_ : zone.begin_ = slot.begin_
  end_ : zone.end_ = slot.end_
  head : ∀ b ∈ freeList zone,
    pageIsFree (zone.pages b.start) = true ∧ pageOrder (zone.pages b.start) = b.order
  other : ∀ idx, zone.linked idx = false → zone.pages idx = prior (slot.desc idx)

section Marked

variable {prior : Nat → Page} {slot : ZoneSlot} {zone : Zone}

theorem marked_new : Marked prior slot (slot.zone prior) := by
  refine ⟨rfl, rfl, fun b hb => ?_, fun _ _ => rfl⟩
  have h := (mem_freeList.mp hb).2
  cases h

/-- A block is linked and its head is marked. -/
theorem Marked.link {idx order : Nat} (h : Marked prior slot zone) (ho : order ≤ MAX_ORDER) :
    Post (listAddTail zone idx order >>= fun zone => markFree zone idx order) (fun _ => True)
      (Marked prior slot) := by
  unfold listAddTail
  cases hl : zone.linked idx with
  | true => exact trivial
  | false =>
    have hsize : MAX_ORDER < 256 := by decide
    simp only [Bool.false_eq_true, if_false, ok_bind]
    unfold markFree Zone.access
    split
    · rw [ok_bind, pageSetOrder_ok _ (by omega), ok_bind]
      have hlist : ∀ b, b ∈ freeList (zone.setOrder order (zone.order order ++ [idx])) ↔
          b = ⟨idx, order⟩ ∨ b ∈ freeList zone := fun b =>
        (freeList_setOrder ho (List.perm_append_singleton _ _)).mem_iff.trans List.mem_cons
      refine ⟨h.begin_, h.end_, fun b hb => ?_, fun i hi => ?_⟩
      · rw [freeList_setPage] at hb
        rcases (hlist b).mp hb with rfl | hb
        · simp only [Zone.setPage, Function.update_self, pageIsFree_setFree,
            pageOrder_setFree, true_and]
          exact pageOrder_withOrder _ (by omega)
        · have hne : b.start ≠ idx := fun he => by
            rw [linked_iff.mpr ⟨b, hb, he⟩] at hl
            cases hl
          simp only [Zone.setPage, Function.update_of_ne hne]
          exact h.head b hb
      · have hnot : ∀ b ∈ freeList (zone.setOrder order (zone.order order ++ [idx])), b.start ≠ i :=
          fun b hb he => by
            have hlinked : (zone.setOrder order (zone.order order ++ [idx])).linked i = true :=
              linked_iff.mpr ⟨b, hb, he⟩
            exact Bool.false_ne_true (hi.symm.trans hlinked)
        have hne : i ≠ idx := (hnot ⟨idx, order⟩ ((hlist _).mpr (Or.inl rfl))).symm
        simp only [Zone.setPage, Function.update_of_ne hne]
        refine h.other i ?_
        rw [Bool.eq_false_iff]
        intro hlink
        obtain ⟨b, hb, he⟩ := linked_iff.mp hlink
        exact hnot b ((hlist b).mpr (Or.inr hb)) he
    · exact trivial

theorem releaseOrder_le {page end_ : Nat} : ∀ fuel order : Nat, order ≤ MAX_ORDER →
    releaseOrder page end_ fuel order ≤ MAX_ORDER
  | 0, _, h => h
  | fuel + 1, order, h => by
    unfold releaseOrder
    split
    · split
      · exact h
      · split
        · exact h
        · exact releaseOrder_le fuel (order + 1) (by omega)
    · exact h

theorem releaseLoop_marked {end_ : Nat} : ∀ (fuel page : Nat) (zone : Zone),
    Marked prior slot zone →
    Post (releaseLoop end_ fuel zone page) (fun _ => True) (Marked prior slot)
  | 0, _, _, _ => trivial
  | fuel + 1, page, zone, h => by
    unfold releaseLoop
    split
    · exact h
    · have ho := @releaseOrder_le page end_ (MAX_ORDER + 1) 0 (Nat.zero_le _)
      refine Post.bind (P := fun _ => True) ?_ fun _ _ => ?_
      · unfold Zone.access
        split <;> trivial
      · rw [← bind_assoc]
        exact (h.link ho).bind fun z hz => releaseLoop_marked fuel _ z hz

theorem withZone_marked {idx : Nat} {noZone : Stop} {f : Zone → Res (Zone × Unit)}
    (hf : ∀ slot z, Marked prior slot z → Post (f z) (fun _ => True) fun p => Marked prior slot p.1)
    {slots : List ZoneSlot} {zones : List Zone} (h : List.Forall₂ (Marked prior) slots zones) :
    Post (withZone idx noZone f zones) (fun _ => True) fun p =>
      List.Forall₂ (Marked prior) slots p.1 := by
  induction h with
  | nil => trivial
  | cons hz hzs ih =>
    unfold withZone
    split
    · exact (hf _ _ hz).bind fun p hp => Post.ok (.cons hp hzs)
    · exact ih.bind fun p hp => Post.ok (.cons hz hp)

theorem pageAllocZoneFree_marked {zbegin zend : Nat} {slots : List ZoneSlot} {zones : List Zone}
    (h : List.Forall₂ (Marked prior) slots zones) :
    Post (pageAllocZoneFree zones zbegin zend) (fun _ => True)
      (List.Forall₂ (Marked prior) slots) := by
  have hbug : ∀ (c : Prop) [Decidable c] (b : Bug), Post (bugOn c b) (fun _ => True)
      fun _ => True :=
    fun c _ b => by unfold bugOn; split <;> trivial
  unfold pageAllocZoneFree
  simp only
  split
  · exact h
  · refine (withZone_marked (fun slot z hz => ?_) h).bind fun p hp => Post.ok hp
    exact (hbug _ _).bind fun _ _ => (hbug _ _).bind fun _ _ =>
      (releaseLoop_marked _ _ z hz).bind fun _ hz => Post.ok hz

/-- **The second loop** marks the heads of the blocks it links and writes no other descriptor. -/
theorem rangesLoop_marked {b : Balloc} {slots : List ZoneSlot} :
    ∀ (fuel : Nat) (zones : List Zone) (ptr : Option Nat), List.Forall₂ (Marked prior) slots zones →
    Post (rangesLoop b fuel zones ptr) (fun _ => True) (List.Forall₂ (Marked prior) slots)
  | 0, _, _, _ => trivial
  | _ + 1, _, none, h => h
  | fuel + 1, zones, some ptr, h => by
    have hnext : Post (rbNext (b.tree .freeRanges) ptr) (fun _ => True) fun _ => True := by
      cases rbNext (b.tree .freeRanges) ptr <;> trivial
    exact (pageAllocZoneFree_marked h).bind fun z hz => hnext.bind fun next _ =>
      rangesLoop_marked fuel z next hz

end Marked

/-! ## FREE flags -/

/-- A FREE flag stands only in the head of a block that is linked in the list of its order. -/
def FreeTrusted (zone : Zone) : Prop :=
  ∀ idx, zone.contains idx = true → pageIsFree (zone.pages idx) = true →
    pageOrder (zone.pages idx) ≤ MAX_ORDER ∧ idx ∈ zone.order (pageOrder (zone.pages idx))

/-- The page is the first one of a maximal aligned block of whole pages of the ranges. -/
def HeadOf (ranges : List (Nat × Nat)) (idx : Nat) : Prop :=
  ∃ order, DyadicTiling.Canonical (releasedPages ranges) MAX_ORDER ⟨idx, order⟩

theorem Marked.freeTrusted_iff {prior : Nat → Page} {slot : ZoneSlot} {zone : Zone}
    (h : Marked prior slot zone) : FreeTrusted zone ↔
      ∀ idx, zone.contains idx = true → zone.linked idx = false →
        pageIsFree (prior (slot.desc idx)) = false := by
  constructor
  · intro ht idx hin hl
    rw [← h.other idx hl, Bool.eq_false_iff]
    intro hf
    obtain ⟨ho, hmem⟩ := ht idx hin hf
    have hlinked := linked_iff.mpr ⟨⟨idx, _⟩, mem_freeList.mpr ⟨ho, hmem⟩, rfl⟩
    exact Bool.false_ne_true (hl.symm.trans hlinked)
  · intro hclear idx hin hf
    cases hl : zone.linked idx with
    | false =>
      rw [h.other idx hl, hclear idx hin hl] at hf
      cases hf
    | true =>
      obtain ⟨b, hb, rfl⟩ := linked_iff.mp hl
      rw [(h.head b hb).2]
      exact mem_freeList.mp hb

/-- The free ranges stay apart when they are rounded to pages. -/
theorem releaseBounds_separated {l : List MemoryNode} (h : RangesOk l)
    (hlimit : ∀ r ∈ l, r.end_ + PAGE_SIZE ≤ WORD) :
    ((l.map fun r => (r.begin_, r.end_)).map fun r => releaseBounds r.1 r.2).Pairwise
      Separated := by
  rw [List.map_map, List.pairwise_map]
  refine h.apart.imp_of_mem fun {r r'} _ hr' hlt => Or.inl ?_
  have hsize : PAGE_SIZE = 4096 := rfl
  have hwrap := hlimit r' hr'
  have hle := h.le r' hr'
  rw [hsize] at hwrap
  have hmod : (r'.begin_ + 4096 - 1) % WORD = r'.begin_ + 4096 - 1 := Nat.mod_eq_of_lt (by omega)
  simp only [Function.comp, releaseBounds, pageMask, hsize, hmod]
  split <;> omega

/-- In every zone the linked pages are the heads of the released blocks. -/
theorem linked_iff_headOf {zones : List Zone} {ranges : List (Nat × Nat)}
    (h : ZonesInv zones (releasedPages ranges) [])
    (hcut : ∀ z ∈ zones, ∀ b ∈ freeList z, CutFrom (ranges.map fun r => releaseBounds r.1 r.2) b)
    (hsep : (ranges.map fun r => releaseBounds r.1 r.2).Pairwise Separated) {z : Zone}
    (hz : z ∈ zones)
    {idx : Nat} (hin : z.contains idx = true) : z.linked idx = true ↔ HeadOf ranges idx := by
  have ht : Tiling (zones.flatMap freeList) (releasedPages ranges) := h.tiling
  have hmem : ∀ b, b ∈ zones.flatMap freeList ↔
      DyadicTiling.Canonical (releasedPages ranges) MAX_ORDER b :=
    ht.mem_iff_canonical (fun b hb => by
      obtain ⟨y, _, hb⟩ := List.mem_flatMap.mp hb
      exact (mem_freeList.mp hb).1) (noBuddies_of_cut hsep ht.aligned fun b hb => by
      obtain ⟨y, hy, hb⟩ := List.mem_flatMap.mp hb
      exact hcut y hy b hb)
  rw [linked_iff]
  constructor
  · rintro ⟨b, hb, rfl⟩
    exact ⟨b.order, (hmem b).mp (List.mem_flatMap.mpr ⟨z, hz, hb⟩)⟩
  · rintro ⟨order, hb⟩
    obtain ⟨y, hy, hb⟩ := List.mem_flatMap.mp ((hmem _).mpr hb)
    -- the block lies in the zone that its head lies in
    have hyin : y.contains idx = true :=
      (h.zone y hy).inside idx ((h.zone y hy).start_mem (ZoneInv.mem_free hb)) 
    rw [h.eq_of_contains hz hy hin hyin]
    exact ⟨_, hb, rfl⟩

/-- **`page_alloc_setup`** with the placing of the zones apart. -/
theorem pageAllocSetup_placed (prior : Nat → Page) (s : BootState) :
    pageAllocSetup prior s = (do
      let (s, slots) ← zoneSlots s
      let zones ← rangesLoop s.balloc (BALLOC_MAX_RANGES + 1) (slots.map (ZoneSlot.zone prior))
        (s.balloc.tree .freeRanges).leftmost
      return (s, zones)) := by
  have h := @zonesLoop_placed prior (BALLOC_MAX_RANGES + 1) s []
    (s.balloc.tree .memoryMap).leftmost
  rw [List.map_nil] at h
  unfold pageAllocSetup zoneSlots
  cases hz : zonesLoop prior (BALLOC_MAX_RANGES + 1) s [] (s.balloc.tree .memoryMap).leftmost with
  | error e =>
    cases hs : placeLoop (BALLOC_MAX_RANGES + 1) s [] (s.balloc.tree .memoryMap).leftmost with
    | error e' =>
      rw [hz, hs] at h
      rw [show e = e' from h]
      rfl
    | ok q => rw [hz, hs] at h; exact h.elim
  | ok p =>
    cases hs : placeLoop (BALLOC_MAX_RANGES + 1) s [] (s.balloc.tree .memoryMap).leftmost with
    | error e => rw [hz, hs] at h; exact h.elim
    | ok q =>
      rw [hz, hs] at h
      obtain ⟨h₁, h₂⟩ := h
      simp only [ok_bind, h₁, h₂]

/-- Every member of the first of two related lists has its counterpart. -/
theorem exists_related {α β : Type} {R : α → β → Prop} {l : List α} {l' : List β}
    (h : List.Forall₂ R l l') {a : α} (ha : a ∈ l) : ∃ b ∈ l', R a b := by
  induction h with
  | nil => cases ha
  | cons hab _ ih =>
    rcases List.mem_cons.mp ha with rfl | ha
    · exact ⟨_, List.mem_cons_self, hab⟩
    · exact (ih ha).imp fun b hb => ⟨List.mem_cons_of_mem _ hb.1, hb.2⟩

/-- A property of all members of two related lists. -/
theorem forall_mem_congr {α β : Type} {R : α → β → Prop} {P : α → Prop} {Q : β → Prop} {l : List α}
    {l' : List β} (h : List.Forall₂ R l l') (hPQ : ∀ a b, b ∈ l' → R a b → (P a ↔ Q b)) :
    (∀ b ∈ l', Q b) ↔ ∀ a ∈ l, P a := by
  induction h with
  | nil => simp
  | cons hab _ ih =>
    rw [List.forall_mem_cons, List.forall_mem_cons, hPQ _ _ List.mem_cons_self hab,
      ih fun a b hb => hPQ a b (List.mem_cons_of_mem _ hb)]

/-- **FREE flags after `page_alloc_setup`.**  For every memory map below the address limit, any
bootstrap allocations and any prior contents of memory, the flags can be trusted if and only if the
memory of each descriptor, but for the heads of the released blocks, had the flag clear. -/
theorem free_trusted_iff (mem : Memory) (info : MultibootInfo) (img : BootImage)
    (hentries : ∀ e ∈ mmapEntries mem info, e.addr + e.length ≤ ADDR_LIMIT)
    (hkernel : img.kbegin ≤ img.kend ∧ img.kend ≤ ADDR_LIMIT)
    (hinitrd : img.initrdBegin ≤ img.initrdEnd ∧ img.initrdEnd ≤ ADDR_LIMIT)
    (s₀ : Balloc) (hsetup : ballocSetup mem info img = .ok s₀)
    (s₁ : BootState) (hrun : bootCalls.Run ⟨s₀, []⟩ s₁) (prior : Nat → Page) :
    Post (pageAllocSetup prior s₁) SetupStop fun p => ∃ s₂ slots, zoneSlots s₁ = .ok (s₂, slots) ∧
      ((∀ z ∈ p.2, FreeTrusted z) ↔
        ∀ slot ∈ slots, ∀ idx, slot.begin_ ≤ idx → idx < slot.end_ →
          ¬ HeadOf (freeRanges s₂.balloc) idx → pageIsFree (prior (slot.desc idx)) = false) := by
  obtain ⟨h₀, hmap⟩ := ballocSetup_ok hentries hkernel hinitrd hsetup
  have h₁ := (bootCalls_keeps _ _).run h₀ hrun
  have hspec := pageAllocSetup_spec h₁ hmap
  rw [pageAllocSetup_placed] at hspec ⊢
  cases hslots : zoneSlots s₁ with
  | error e =>
    rw [hslots] at hspec
    exact hspec
  | ok q =>
    obtain ⟨s₂, slots⟩ := q
    rw [hslots] at hspec
    simp only [ok_bind] at hspec ⊢
    have hnew : ∀ prior : Nat → Page, List.Forall₂ (Marked prior) slots
        (slots.map (ZoneSlot.zone prior)) :=
      fun prior => List.forall₂_map_right_iff.mpr (List.forall₂_same.mpr fun _ _ => marked_new)
    have hsame : List.Forall₂ SameLists (slots.map (ZoneSlot.zone prior))
        (slots.map (ZoneSlot.zone fun _ => Page.zero)) :=
      List.forall₂_map_left_iff.mpr (List.forall₂_map_right_iff.mpr
        (List.forall₂_same.mpr fun _ _ => ⟨rfl, rfl, rfl⟩))
    -- the same lists as on memory that reads as zero
    have hlists := (rangesLoop_sameLists (b := s₂.balloc) (BALLOC_MAX_RANGES + 1) _ _
      (s₂.balloc.tree .freeRanges).leftmost hsame).post (Post.of_map hspec)
    have hmarks := rangesLoop_marked (b := s₂.balloc) (BALLOC_MAX_RANGES + 1) _
      (s₂.balloc.tree .freeRanges).leftmost (hnew prior)
    refine (hlists.and_ok hmarks).bind ?_
    rintro zones ⟨⟨zones', _, hsim, h₂, _, _, hinv, _, hcut⟩, hmark⟩
    refine Post.ok ⟨s₂, slots, rfl, ?_⟩
    have hsep : ((freeRanges s₂.balloc).map fun r => releaseBounds r.1 r.2).Pairwise Separated :=
      releaseBounds_separated (h₂.inv.ordered .freeRanges) fun r hr => by
        obtain ⟨m, hm, _, hend⟩ := h₂.inside r hr
        have := hmap.limit m hm
        have hlimit : ADDR_LIMIT + PAGE_SIZE ≤ WORD := by decide
        omega
    refine forall_mem_congr hmark fun slot z hz hm => ?_
    obtain ⟨z', hz', hlist⟩ := exists_related hsim hz
    rw [hm.freeTrusted_iff]
    refine forall_congr' fun idx => ?_
    rw [Zone.contains_iff, hm.begin_, hm.end_, and_imp]
    refine imp_congr_right fun hb => imp_congr_right fun he => imp_congr_left ?_
    have hin : z'.contains idx = true := by
      rw [← hlist.contains, Zone.contains_iff, hm.begin_, hm.end_]
      exact ⟨hb, he⟩
    rw [hlist.linked, ← linked_iff_headOf hinv hcut hsep hz' hin, Bool.not_eq_true]

theorem free_trusted_iff_overlapping :
    ∃ s₀ p, ballocSetup overlappingMap ⟨64, 48, 0x100⟩ ⟨0x2000, 0x3000, 0x4000, 0x4800⟩ = .ok s₀ ∧
      pageAllocSetup (fun _ => Page.zero) ⟨s₀, []⟩ = .ok p ∧
      ∃ s₂ slots, zoneSlots ⟨s₀, []⟩ = .ok (s₂, slots) ∧
        ((∀ z ∈ p.2, FreeTrusted z) ↔ ∀ slot ∈ slots, ∀ idx, slot.begin_ ≤ idx → idx < slot.end_ →
          ¬ HeadOf (freeRanges s₂.balloc) idx → pageIsFree Page.zero = false) := by
  have hres : (do
      let s₀ ← ballocSetup overlappingMap ⟨64, 48, 0x100⟩ ⟨0x2000, 0x3000, 0x4000, 0x4800⟩
      let p ← pageAllocSetup (fun _ => Page.zero) ⟨s₀, []⟩
      return p.2.length : Res Nat) = .ok 1 := by decide +kernel
  obtain ⟨s₀, hs₀, hres⟩ := bind_eq_ok.mp hres
  obtain ⟨p, hp, _⟩ := bind_eq_ok.mp hres
  have hpost := free_trusted_iff overlappingMap ⟨64, 48, 0x100⟩ ⟨0x2000, 0x3000, 0x4000, 0x4800⟩
    (by decide) (by decide) (by decide) s₀ hs₀ ⟨s₀, []⟩ .refl fun _ => Page.zero
  exact ⟨s₀, p, hs₀, hp, hpost.of_eq hp⟩

/-- Page 2 holds the kernel; if its descriptor happened to lie where a FREE flag stood, it is taken
for a free block. -/
theorem free_flag_left :
    ∃ s₀ p z, ballocSetup overlappingMap ⟨64, 48, 0x100⟩ ⟨0x2000, 0x3000, 0x4000, 0x4800⟩ = .ok s₀ ∧
      pageAllocSetup (fun _ => ⟨PAGE_FREE_MASK, .order 0⟩) ⟨s₀, []⟩ = .ok p ∧ p.2 = [z] ∧
      freeList z = [⟨3, 0⟩, ⟨8, 0⟩, ⟨6, 1⟩] ∧ z.contains 2 = true ∧ pageIsFree (z.pages 2) = true ∧
      ¬ FreeTrusted z := by
  have hres : (do
      let s₀ ← ballocSetup overlappingMap ⟨64, 48, 0x100⟩ ⟨0x2000, 0x3000, 0x4000, 0x4800⟩
      let p ← pageAllocSetup (fun _ => ⟨PAGE_FREE_MASK, .order 0⟩) ⟨s₀, []⟩
      return p.2.map fun z => (freeList z, z.contains 2, pageIsFree (z.pages 2), z.linked 2) :
      Res (List (List Block × Bool × Bool × Bool))) =
      .ok [([⟨3, 0⟩, ⟨8, 0⟩, ⟨6, 1⟩], true, true, false)] := by decide +kernel
  obtain ⟨s₀, hs₀, hres⟩ := bind_eq_ok.mp hres
  obtain ⟨p, hp, hres⟩ := bind_eq_ok.mp hres
  obtain ⟨z, hz, hzs⟩ := List.map_eq_singleton_iff.mp (Except.ok.inj hres)
  obtain ⟨hfree, hin, hflag, hl⟩ : freeList z = _ ∧ z.contains 2 = true ∧
      pageIsFree (z.pages 2) = true ∧ z.linked 2 = false := by
    simpa only [Prod.mk.injEq] using hzs
  refine ⟨s₀, p, z, hs₀, hp, hz, hfree, hin, hflag, fun ht => ?_⟩
  obtain ⟨ho, hmem⟩ := ht 2 hin hflag
  have hlinked := linked_iff.mpr ⟨⟨2, _⟩, mem_freeList.mpr ⟨ho, hmem⟩, rfl⟩
  exact Bool.false_ne_true (hl.symm.trans hlinked)

end AuOs
