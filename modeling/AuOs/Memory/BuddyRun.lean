import Mathlib
import AuOs.Lib.CallSystem
import AuOs.Memory.Zones

/-!
# Runs of the buddy allocator of one zone

A zone is set up over zeroed descriptors, address ranges are released to it with
`__page_alloc_zone_free`, and then `__page_alloc_zone` and `__page_free_zone` are called in any
order.

* `releaseRanges` — the second loop of `page_alloc_setup`; `releaseRanges_spec` says what it does to
  any list of zones.
* `zoneCalls` — the two calls on a zone, with the live blocks as a ghost component.
* `ZoneSafe` — the blocks in the lists and the live blocks are aligned, pairwise disjoint and cover
  exactly the pages released to the zone.
* `buddy_safety`, `full_coalescing` — what holds in every run.
-/

set_option autoImplicit false

namespace AuOs

open DyadicTiling

/-! ## Releasing a list of ranges -/

/-- The second loop of `page_alloc_setup`: release the ranges one after the other. -/
def releaseRanges : List Zone → List (Nat × Nat) → Res (List Zone)
  | zones, [] => .ok zones
  | zones, (begin_, end_) :: ranges => do
    let zones ← pageAllocZoneFree zones begin_ end_
    releaseRanges zones ranges

/-- The pages that releasing the address ranges hands to the allocator. -/
def releasedPages (ranges : List (Nat × Nat)) : Set Nat :=
  {i | ∃ r ∈ ranges, i ∈ wholePages r.1 r.2}

@[simp] theorem mem_releasedPages {ranges : List (Nat × Nat)} {i : Nat} :
    i ∈ releasedPages ranges ↔ ∃ r ∈ ranges, i ∈ wholePages r.1 r.2 := Iff.rfl

/-- If the range contains a whole page, its whole pages lie inside one zone. -/
def InZones (zones : List Zone) (r : Nat × Nat) : Prop :=
  (wholePages r.1 r.2).Nonempty → ∃ z ∈ zones, ∀ i ∈ wholePages r.1 r.2, z.contains i = true

theorem SameUsers.exists_contains {zones zones' : List Zone} (h : SameUsers zones zones') {z : Zone}
    (hz : z ∈ zones) : ∃ z' ∈ zones', ∀ i, z'.contains i = z.contains i := by
  induction h with
  | nil => cases hz
  | cons hsame _ ih =>
    rcases List.mem_cons.mp hz with rfl | hz
    · exact ⟨_, List.mem_cons_self, hsame.contains⟩
    · obtain ⟨z', hz', hc⟩ := ih hz
      exact ⟨z', List.mem_cons_of_mem _ hz', hc⟩

theorem SameUsers.exists_left {zones zones' : List Zone} (h : SameUsers zones zones') {z' : Zone}
    (hz' : z' ∈ zones') : ∃ z ∈ zones, SameUser z z' := by
  induction h with
  | nil => cases hz'
  | cons hsame _ ih =>
    rcases List.mem_cons.mp hz' with rfl | hz'
    · exact ⟨_, List.mem_cons_self, hsame⟩
    · obtain ⟨z, hz, hs⟩ := ih hz'
      exact ⟨z, List.mem_cons_of_mem _ hz, hs⟩

theorem InZones.of_sameUsers {zones zones' : List Zone} {r : Nat × Nat} (h : InZones zones r)
    (hs : SameUsers zones zones') : InZones zones' r := by
  intro hne
  obtain ⟨z, hz, hin⟩ := h hne
  obtain ⟨z', hz', hc⟩ := hs.exists_contains hz
  exact ⟨z', hz', fun i hi => by rw [hc]; exact hin i hi⟩

theorem SameUsers.trans {l₁ l₂ l₃ : List Zone} (h : SameUsers l₁ l₂) (h' : SameUsers l₂ l₃) :
    SameUsers l₁ l₃ := by
  induction h generalizing l₃ with
  | nil => exact h'
  | cons hz _ ih =>
    cases h' with
    | cons hz' hl' => exact List.Forall₂.cons (hz.trans hz') (ih hl')

/-- Zeroed zones that do not overlap manage nothing. -/
theorem ZonesInv.of_zeroed {zones : List Zone} (hz : ∀ z ∈ zones, ∃ b e, z = Zone.zeroed b e)
    (hd : zones.Pairwise fun z z' => ∀ i, z.contains i = true → z'.contains i = false) :
    ZonesInv zones ∅ [] where
  disjoint := hd
  covers := fun i hi => absurd hi (Set.notMem_empty i)
  live_in := fun b hb => by cases hb
  zone := fun z hzm => by
    obtain ⟨b, e, rfl⟩ := hz z hzm
    have hempty : freeList (Zone.zeroed b e) = [] := by simp [freeList, Zone.zeroed]
    refine ⟨?_, ?_, ?_, ?_, ?_, ?_⟩
    · rw [hempty, Set.empty_inter]
      exact Tiling.nil
    · exact fun i hi => absurd hi.1 (Set.notMem_empty i)
    · simp
    · simp [hempty]
    · simp
    · exact fun i _ _ => (by decide : pageIsFree Page.zero = false)

/-- **Releasing ranges** that lie inside the zones and do not overlap reaches no `BUG` and hands
exactly their whole pages to the zones. -/
theorem releaseRanges_spec : ∀ (ranges done : List (Nat × Nat)) (zones : List Zone) (M : Set Nat),
    ZonesInv zones M [] →
    (∀ r ∈ ranges, r.1 + PAGE_SIZE ≤ WORD) → (∀ r ∈ ranges, InZones zones r) →
    ranges.Pairwise (fun r s => Disjoint (wholePages r.1 r.2) (wholePages s.1 s.2)) →
    (∀ r ∈ ranges, Disjoint (wholePages r.1 r.2) M) →
    (∀ z ∈ zones, ∀ b ∈ freeList z, CutFrom done b) →
    ∃ zones', releaseRanges zones ranges = .ok zones' ∧
      ZonesInv zones' (releasedPages ranges ∪ M) [] ∧
      (∀ z ∈ zones', ∀ b ∈ freeList z,
        CutFrom (done ++ ranges.map fun r => releaseBounds r.1 r.2) b) ∧
      SameUsers zones zones'
  | [], done, zones, M, h, _, _, _, _, hcut => by
    refine ⟨zones, rfl, ?_, by simpa using hcut, SameUsers.refl zones⟩
    have hM : releasedPages [] ∪ M = M := by ext i; simp
    rwa [hM]
  | (begin_, end_) :: ranges, done, zones, M, h, hb, hin, hd, hM, hcut => by
    obtain ⟨hd₁, hd₂⟩ := List.pairwise_cons.mp hd
    obtain ⟨z₁, hfree, h₁, hcut₁, hsame₁⟩ := pageAllocZoneFree_spec h (hb _ List.mem_cons_self)
      (hin _ List.mem_cons_self)
      (fun i hi => Set.disjoint_left.mp (hM _ List.mem_cons_self) hi)
    have hcut₁' : ∀ z ∈ z₁, ∀ b ∈ freeList z,
        CutFrom (done ++ [releaseBounds begin_ end_]) b := by
      intro z hz b hbz
      obtain ⟨r, hr, hrest⟩ := hcut₁ done hcut z hz b hbz
      refine ⟨r, ?_, hrest⟩
      rcases List.mem_cons.mp hr with rfl | hr
      · exact List.mem_append_right _ List.mem_cons_self
      · exact List.mem_append_left _ hr
    obtain ⟨z₂, hrel, h₂, hcut₂, hsame₂⟩ := releaseRanges_spec ranges _ z₁ _ h₁
      (fun r hr => hb r (List.mem_cons_of_mem _ hr))
      (fun r hr => (hin r (List.mem_cons_of_mem _ hr)).of_sameUsers hsame₁) hd₂
      (fun r hr => by
        rw [Set.disjoint_union_right]
        exact ⟨(hd₁ r hr).symm, hM r (List.mem_cons_of_mem _ hr)⟩) hcut₁'
    refine ⟨z₂, ?_, ?_, ?_, hsame₁.trans hsame₂⟩
    · rw [releaseRanges, hfree, ok_bind]
      exact hrel
    · have hset : releasedPages ((begin_, end_) :: ranges) ∪ M =
          releasedPages ranges ∪ (wholePages begin_ end_ ∪ M) := by
        ext i
        simp only [Set.mem_union, mem_releasedPages, List.mem_cons, exists_eq_or_imp]
        exact or_assoc.trans or_left_comm
      rwa [hset]
    · simpa using hcut₂

/-! ## One zone -/

/-- A zone and, as a ghost component, the blocks that are allocated. -/
structure ZoneState where
  zone : Zone
  live : List Block

/-- The calls on a zone. -/
inductive ZoneCall where
  | alloc (order : Nat)
  | free (b : Block)

/-- `__page_alloc_zone` with an order of the zone's lists, and `__page_free_zone` of a live block
with the order it was allocated with. -/
def zoneCalls : CallSystem ZoneState ZoneCall Stop where
  legal s
    | .alloc order => order ≤ MAX_ORDER
    | .free b => b ∈ s.live
  exec s
    | .alloc order => do
      let (zone, page) ← pageAllocZone s.zone order
      match page with
      | some idx => return ⟨zone, ⟨idx, order⟩ :: s.live⟩
      | none => return ⟨zone, s.live⟩
    | .free b => do
      let zone ← pageFreeZone s.zone b.start b.order
      return ⟨zone, s.live.erase b⟩

/-- The invariant of a zone as a property of the state. -/
def ZoneOk (M : Set Nat) (s : ZoneState) : Prop := ZoneInv s.zone M s.live []

/-- **One call** keeps the invariant, and never creates a pair of free buddies. -/
theorem zoneCalls_step {M : Set Nat} {s : ZoneState} {c : ZoneCall} (h : ZoneOk M s)
    (hc : zoneCalls.legal s c) :
    ∃ s', zoneCalls.exec s c = .ok s' ∧ ZoneOk M s' ∧
      (NoBuddies s.zone → NoBuddies s'.zone) ∧ SameUser s.zone s'.zone := by
  cases c with
  | alloc order =>
    rcases pageAllocZone_spec h hc with ⟨hnone, _⟩ | ⟨zone', idx, hsome, hinv, hnb, hsame, _⟩
    · exact ⟨s, by simp only [zoneCalls, hnone, ok_bind, pure_eq_ok], h, id, SameUser.refl _⟩
    · exact ⟨⟨zone', ⟨idx, order⟩ :: s.live⟩, by simp only [zoneCalls, hsome, ok_bind, pure_eq_ok],
        hinv, hnb, hsame⟩
  | free b =>
    have hb : b ∈ s.live := hc
    have h' : ZoneInv s.zone M (b :: s.live.erase b) [] := h.perm_live (List.perm_cons_erase hb)
    obtain ⟨zone', hfree, hinv, hnb, hsame⟩ := pageFreeZone_spec h'
    exact ⟨⟨zone', s.live.erase b⟩, by simp only [zoneCalls, hfree, ok_bind, pure_eq_ok], hinv, hnb,
      hsame⟩

theorem zoneCalls_keeps (M : Set Nat) (z : Zone) :
    zoneCalls.Keeps (fun _ => False) fun s => ZoneOk M s ∧ SameUser z s.zone := by
  rintro s c ⟨h, hsame⟩ hc
  obtain ⟨s', hexec, h', _, hsame'⟩ := zoneCalls_step h hc
  exact Post.of_ok ⟨s', hexec, h', hsame.trans hsame'⟩

theorem zoneCalls_keeps_noBuddies (M : Set Nat) :
    zoneCalls.Keeps (fun _ => False) fun s => ZoneOk M s ∧ NoBuddies s.zone := by
  rintro s c ⟨h, hn⟩ hc
  obtain ⟨s', hexec, h', hnb, _⟩ := zoneCalls_step h hc
  exact Post.of_ok ⟨s', hexec, h', hnb hn⟩

/-- What one zone looks like after its ranges were released. -/
theorem releaseRanges_zone {begin_ end_ : Nat} {ranges : List (Nat × Nat)}
    (hbounds : ∀ r ∈ ranges, r.1 + PAGE_SIZE ≤ WORD)
    (hin : ∀ r ∈ ranges, ∀ i ∈ wholePages r.1 r.2, begin_ ≤ i ∧ i < end_)
    (hdisj : ranges.Pairwise fun r s => Disjoint (wholePages r.1 r.2) (wholePages s.1 s.2)) :
    ∃ zone, releaseRanges [Zone.zeroed begin_ end_] ranges = .ok [zone] ∧
      ZoneOk (releasedPages ranges) ⟨zone, []⟩ ∧
      SameUser (Zone.zeroed begin_ end_) zone ∧
      ∀ b ∈ freeList zone, CutFrom (ranges.map fun r => releaseBounds r.1 r.2) b := by
  have hstart : ZonesInv [Zone.zeroed begin_ end_] ∅ [] := ZonesInv.of_zeroed (by simp) (by simp)
  obtain ⟨zones, hrel, hinv, hcut, hsame⟩ := releaseRanges_spec ranges [] _ ∅ hstart hbounds
    (fun r hr _ => ⟨_, List.mem_cons_self, fun i hi => Zone.contains_iff.mpr (hin r hr i hi)⟩) hdisj
    (fun r _ => Set.disjoint_empty _) (by simp [freeList, Zone.zeroed])
  obtain ⟨zone, zs, hz, hzs, rfl⟩ := List.forall₂_cons_left_iff.mp hsame
  rw [List.forall₂_nil_left_iff] at hzs
  subst hzs
  refine ⟨zone, hrel, ?_, hz, fun b hb => hcut zone List.mem_cons_self b hb⟩
  have h := hinv.zone zone List.mem_cons_self
  have hM : (releasedPages ranges ∪ ∅) ∩ {i | zone.contains i = true} = releasedPages ranges := by
    ext i
    simp only [Set.union_empty, Set.mem_inter_iff, Set.mem_ofPred_eq, and_iff_left_iff_imp]
    rintro ⟨r, hr, hi⟩
    rw [hz.contains]
    exact Zone.contains_iff.mpr (hin r hr i hi)
  rw [hM] at h
  exact h

/-! ## Safety -/

/-- The blocks of a zone `[begin_, end_)` that manages the pages `M`: inside the zone, aligned,
pairwise disjoint, and together exactly `M`. -/
structure ZoneSafe (begin_ end_ : Nat) (M : Set Nat) (blocks : List Block) : Prop where
  inside : ∀ b ∈ blocks, begin_ ≤ b.start ∧ b.start + 2 ^ b.order ≤ end_
  aligned : ∀ b ∈ blocks, 2 ^ b.order ∣ b.start
  disjoint : blocks.Pairwise fun b c => Disjoint b.cells c.cells
  cover : ∀ i, i ∈ M ↔ ∃ b ∈ blocks, i ∈ b.cells

theorem ZoneOk.safe {begin_ end_ : Nat} {M : Set Nat} {s : ZoneState} (h : ZoneOk M s)
    (hs : SameUser (Zone.zeroed begin_ end_) s.zone) :
    ZoneSafe begin_ end_ M (freeList s.zone ++ s.live) := by
  have ht : Tiling (freeList s.zone ++ s.live) M :=
    h.tiling.perm (by rw [List.nil_append]; exact List.perm_append_comm)
  refine ⟨fun b hb => ?_, ht.aligned, ht.disjoint, ht.cover⟩
  have hpos := Nat.two_pow_pos b.order
  have hfirst := h.inside b.start (ht.cells_subset hb b.start_mem)
  have hlast := h.inside (b.start + 2 ^ b.order - 1)
    (ht.cells_subset hb (by rw [Block.mem_cells]; omega))
  rw [hs.contains, Zone.contains_iff] at hfirst hlast
  simp only [Zone.zeroed] at hfirst hlast
  omega

/-- What a free links consists of the freed block and of blocks that were free before. -/
theorem ZoneOk.free_absorbs {M : Set Nat} {s s' : ZoneState} {b : Block} (h : ZoneOk M s)
    (h' : ZoneOk M s') (hlive : s'.live = s.live.erase b) {d : Block} (hd : d ∈ freeList s'.zone)
    {i : Nat} (hi : i ∈ d.cells) : i ∈ b.cells ∨ ∃ c ∈ freeList s.zone, i ∈ c.cells := by
  have hiM : i ∈ M := h'.tiling.cells_subset (ZoneInv.mem_free hd) hi
  obtain ⟨c, hc, hic⟩ := (h.tiling.cover i).mp hiM
  rw [List.nil_append, List.mem_append] at hc
  rcases hc with hc | hc
  · by_cases hcb : c = b
    · exact Or.inl (hcb ▸ hic)
    · -- a live block other than `b` stays live, and `d` cannot meet it
      have hc' : c ∈ s'.live := by
        rw [hlive]
        exact (List.mem_erase_of_ne hcb).mpr hc
      have hp : List.Perm ([] ++ (s'.live ++ freeList s'.zone))
          (c :: (s'.live.erase c ++ freeList s'.zone)) := by
        rw [List.nil_append]
        exact (List.perm_cons_erase hc').append_right _
      exact absurd hic ((h'.tiling.perm hp).not_mem_of_cons (List.mem_append_right _ hd) hi)
  · exact Or.inr ⟨c, hc, hic⟩

/-- **Buddy allocator safety.**  For every zone and every set of disjoint ranges inside it, setup
reaches no `BUG`; in every state of every run the free and the live blocks are safe, no legal call
fails, and a free merges the block with free pages only.  A range of pages starts at a page boundary
below `2 ^ 64`, so it meets the first hypothesis. -/
theorem buddy_safety (begin_ end_ : Nat) (ranges : List (Nat × Nat))
    (hbounds : ∀ r ∈ ranges, r.1 + PAGE_SIZE ≤ WORD)
    (hin : ∀ r ∈ ranges, ∀ i ∈ wholePages r.1 r.2, begin_ ≤ i ∧ i < end_)
    (hdisj : ranges.Pairwise fun r s => Disjoint (wholePages r.1 r.2) (wholePages s.1 s.2)) :
    ∃ zone, releaseRanges [Zone.zeroed begin_ end_] ranges = .ok [zone] ∧
      ∀ s, zoneCalls.Run ⟨zone, []⟩ s →
        ZoneSafe begin_ end_ (releasedPages ranges) (freeList s.zone ++ s.live) ∧
        (∀ c, zoneCalls.legal s c → ∃ s', zoneCalls.exec s c = .ok s') ∧
        ∀ b ∈ s.live, ∀ zone', pageFreeZone s.zone b.start b.order = .ok zone' →
          ∀ d ∈ freeList zone', ∀ i ∈ d.cells,
            i ∈ b.cells ∨ ∃ c ∈ freeList s.zone, i ∈ c.cells := by
  obtain ⟨zone, hrel, hok, hsame, _⟩ := releaseRanges_zone hbounds hin hdisj
  refine ⟨zone, hrel, fun s hrun => ?_⟩
  have hkeeps := zoneCalls_keeps (releasedPages ranges) (Zone.zeroed begin_ end_)
  obtain ⟨h, hs⟩ := hkeeps.run ⟨hok, hsame⟩ hrun
  refine ⟨h.safe hs, fun c hc => (hkeeps.ends ⟨hok, hsame⟩ hrun hc).returns.imp fun _ h => h.1, ?_⟩
  intro b hb zone' hfree d hd i hi
  obtain ⟨s', hexec, h', _⟩ := zoneCalls_step h (c := .free b) hb
  have hs' : s' = ⟨zone', s.live.erase b⟩ := by
    simp only [zoneCalls, hfree, ok_bind, pure_eq_ok, Except.ok.injEq] at hexec
    exact hexec.symm
  subst hs'
  exact h.free_absorbs h' rfl hd hi

theorem buddy_safety_four_pages :
    ∃ zone, releaseRanges [Zone.zeroed 1 5] [(0x1000, 0x5000)] = .ok [zone] ∧
      ∀ s, zoneCalls.Run ⟨zone, []⟩ s →
        ZoneSafe 1 5 (releasedPages [(0x1000, 0x5000)]) (freeList s.zone ++ s.live) ∧
        (∀ c, zoneCalls.legal s c → ∃ s', zoneCalls.exec s c = .ok s') ∧
        ∀ b ∈ s.live, ∀ zone', pageFreeZone s.zone b.start b.order = .ok zone' →
          ∀ d ∈ freeList zone', ∀ i ∈ d.cells,
            i ∈ b.cells ∨ ∃ c ∈ freeList s.zone, i ∈ c.cells :=
  buddy_safety 1 5 [(0x1000, 0x5000)] (by decide)
    (by
      simp only [List.mem_singleton, forall_eq, wholePages, Set.mem_ofPred_eq, PAGE_SIZE,
        PAGE_SHIFT]
      omega)
    (List.pairwise_singleton ..)

/-! ## Full coalescing -/

/-- Two sets of pages neither meet nor touch. -/
def NotAdjacent (P Q : Set Nat) : Prop := ∀ i ∈ P, ∀ j ∈ Q, i ≠ j ∧ i + 1 ≠ j ∧ j + 1 ≠ i

theorem NotAdjacent.disjoint {P Q : Set Nat} (h : NotAdjacent P Q) : Disjoint P Q :=
  Set.disjoint_left.mpr fun i hP hQ => (h i hP i hQ).1 rfl

theorem NotAdjacent.separated {r s : Nat × Nat} (hr : r.1 + PAGE_SIZE ≤ WORD)
    (hs : s.1 + PAGE_SIZE ≤ WORD) (h : NotAdjacent (wholePages r.1 r.2) (wholePages s.1 s.2)) :
    Separated (releaseBounds r.1 r.2) (releaseBounds s.1 s.2) := by
  have hP := @mem_wholePages r.1 r.2 hr
  have hQ := @mem_wholePages s.1 s.2 hs
  generalize releaseBounds r.1 r.2 = p at *
  generalize releaseBounds s.1 s.2 = q at *
  by_contra hn
  unfold Separated at hn
  -- the last page of the range that starts first touches or meets the other range
  rcases le_total p.1 q.1 with hle | hle
  · have hi := hP.mpr (⟨by omega, by omega⟩ : p.1 ≤ min (p.2 - 1) q.1 ∧ min (p.2 - 1) q.1 < p.2)
    have hj := hQ.mpr (⟨by omega, by omega⟩ : q.1 ≤ q.1 ∧ q.1 < q.2)
    have := h _ hi _ hj
    omega
  · have hi := hP.mpr (⟨by omega, by omega⟩ : p.1 ≤ p.1 ∧ p.1 < p.2)
    have hj := hQ.mpr (⟨by omega, by omega⟩ : q.1 ≤ min (q.2 - 1) p.1 ∧ min (q.2 - 1) p.1 < q.2)
    have := h _ hi _ hj
    omega

/-- The managed pages that are in no live block. -/
def freePages (M : Set Nat) (live : List Block) : Set Nat := {i | i ∈ M ∧ ∀ b ∈ live, i ∉ b.cells}

theorem ZoneOk.free_tiling {M : Set Nat} {s : ZoneState} (h : ZoneOk M s) :
    Tiling (freeList s.zone) (freePages M s.live) := by
  have ht : Tiling (s.live ++ freeList s.zone) M := h.tiling
  obtain ⟨_, hd, hx⟩ := List.pairwise_append.mp ht.disjoint
  refine ⟨fun b hb => ht.aligned b (List.mem_append_right _ hb), hd, fun i => ?_⟩
  constructor
  · rintro ⟨hM, hn⟩
    obtain ⟨b, hb, hi⟩ := (ht.cover i).mp hM
    rcases List.mem_append.mp hb with hb | hb
    · exact absurd hi (hn b hb)
    · exact ⟨b, hb, hi⟩
  · rintro ⟨b, hb, hi⟩
    exact ⟨ht.cells_subset (List.mem_append_right _ hb) hi,
      fun c hc hic => Set.disjoint_left.mp (hx c hc b hb) hic hi⟩

/-- The blocks of a tiling are distinct. -/
theorem nodup_of_tiling {l : List Block} {M : Set Nat} (h : Tiling l M) : l.Nodup :=
  h.disjoint.imp fun hd e => by
    subst e
    exact Set.disjoint_left.mp hd (Block.start_mem _) (Block.start_mem _)

/-- The lists hold exactly the maximal aligned blocks of free pages, each once. -/
def FullyCoalesced (M : Set Nat) (s : ZoneState) : Prop :=
  (freeList s.zone).Nodup ∧
    (∀ b, b ∈ freeList s.zone ↔ Canonical (freePages M s.live) MAX_ORDER b) ∧ NoBuddies s.zone

theorem ZoneOk.fullyCoalesced {M : Set Nat} {s : ZoneState} (h : ZoneOk M s)
    (hn : NoBuddies s.zone) : FullyCoalesced M s := by
  refine ⟨nodup_of_tiling h.free_tiling, ?_, hn⟩
  exact h.free_tiling.mem_iff_canonical (fun b hb => (mem_freeList.mp hb).1) hn

/-- **Allocation fails exactly when no aligned run of free pages is left.** -/
theorem ZoneOk.alloc_none_iff {M : Set Nat} {s : ZoneState} (h : ZoneOk M s)
    (hn : NoBuddies s.zone) {order : Nat} (ho : order ≤ MAX_ORDER) :
    (∃ zone', pageAllocZone s.zone order = .ok (zone', none)) ↔
      ¬ ∃ idx, 2 ^ order ∣ idx ∧ ∀ i, idx ≤ i → i < idx + 2 ^ order → i ∈ freePages M s.live := by
  constructor
  · rintro ⟨zone', hnone⟩ ⟨idx, hdvd, hrun⟩
    obtain ⟨b, hb, hle, _⟩ := h.free_tiling.exists_superblock hn order ⟨idx, order⟩ rfl ho hdvd
      fun i hi => hrun i hi.1 hi.2
    rcases pageAllocZone_spec h ho with ⟨_, hfew⟩ | ⟨z, i, hsome, _⟩
    · exact absurd (hfew b hb) (not_lt.mpr hle)
    · rw [hsome] at hnone
      cases hnone
  · intro hno
    rcases pageAllocZone_spec h ho with ⟨hnone, _⟩ | ⟨_, _, _, _, _, _, b, hb, hle⟩
    · exact ⟨_, hnone⟩
    · -- the block the allocator found is itself such a run
      refine absurd ⟨b.start, (Nat.pow_dvd_pow 2 hle).trans (h.free_tiling.aligned b hb), ?_⟩ hno
      intro i hi hi'
      refine h.free_tiling.cells_subset hb ⟨hi, hi'.trans_le ?_⟩
      exact Nat.add_le_add_left (Nat.pow_le_pow_right (by decide) hle) _

/-- **Full coalescing.**  In every state of every run the lists hold the canonical decomposition of
the free pages: an allocation fails only when no aligned run of free pages is left, two states with
the same free pages have the same free blocks, and when everything was freed the blocks of the start
are back. -/
theorem full_coalescing (begin_ end_ : Nat) (ranges : List (Nat × Nat))
    (hbounds : ∀ r ∈ ranges, r.1 + PAGE_SIZE ≤ WORD)
    (hin : ∀ r ∈ ranges, ∀ i ∈ wholePages r.1 r.2, begin_ ≤ i ∧ i < end_)
    (hsep : ranges.Pairwise fun r s => NotAdjacent (wholePages r.1 r.2) (wholePages s.1 s.2)) :
    ∃ zone, releaseRanges [Zone.zeroed begin_ end_] ranges = .ok [zone] ∧
      ∀ s, zoneCalls.Run ⟨zone, []⟩ s →
        FullyCoalesced (releasedPages ranges) s ∧
        (∀ order, order ≤ MAX_ORDER →
          ((∃ zone', pageAllocZone s.zone order = .ok (zone', none)) ↔
            ¬ ∃ idx, 2 ^ order ∣ idx ∧ ∀ i, idx ≤ i → i < idx + 2 ^ order →
              i ∈ freePages (releasedPages ranges) s.live)) ∧
        (∀ s', zoneCalls.Run ⟨zone, []⟩ s' →
          freePages (releasedPages ranges) s.live = freePages (releasedPages ranges) s'.live →
          (freeList s.zone).Perm (freeList s'.zone)) ∧
        (s.live = [] → (freeList s.zone).Perm (freeList zone)) := by
  have hdisj := hsep.imp fun h => h.disjoint
  obtain ⟨zone, hrel, hok, _, hcut⟩ := releaseRanges_zone hbounds hin hdisj
  have hseps : (ranges.map fun r => releaseBounds r.1 r.2).Pairwise Separated := by
    rw [List.pairwise_map]
    exact hsep.imp_of_mem fun hr hs h => h.separated (hbounds _ hr) (hbounds _ hs)
  have hnb : NoBuddies zone := noBuddies_of_cut hseps
    (fun b hb => hok.tiling.aligned b (ZoneInv.mem_free hb)) hcut
  have hall : ∀ s, zoneCalls.Run ⟨zone, []⟩ s →
      ZoneOk (releasedPages ranges) s ∧ NoBuddies s.zone :=
    fun s hrun => (zoneCalls_keeps_noBuddies _).run ⟨hok, hnb⟩ hrun
  have hsame : ∀ s s', zoneCalls.Run ⟨zone, []⟩ s → zoneCalls.Run ⟨zone, []⟩ s' →
      freePages (releasedPages ranges) s.live = freePages (releasedPages ranges) s'.live →
      (freeList s.zone).Perm (freeList s'.zone) := by
    intro s s' hrun hrun' he
    obtain ⟨hn₁, hc₁, _⟩ := (hall s hrun).1.fullyCoalesced (hall s hrun).2
    obtain ⟨hn₂, hc₂, _⟩ := (hall s' hrun').1.fullyCoalesced (hall s' hrun').2
    refine (List.perm_ext_iff_of_nodup hn₁ hn₂).mpr fun b => ?_
    rw [hc₁, hc₂, he]
  refine ⟨zone, hrel, fun s hrun => ?_⟩
  obtain ⟨h, hn⟩ := hall s hrun
  refine ⟨h.fullyCoalesced hn, fun order ho => h.alloc_none_iff hn ho,
    fun s' => hsame s s' hrun, ?_⟩
  intro hlive
  exact hsame s ⟨zone, []⟩ hrun Relation.ReflTransGen.refl (by rw [hlive])

theorem full_coalescing_two_ranges :
    ∃ zone, releaseRanges [Zone.zeroed 1 9] [(0x1000, 0x5000), (0x6000, 0x9000)] = .ok [zone] ∧
      ∀ s, zoneCalls.Run ⟨zone, []⟩ s →
        FullyCoalesced (releasedPages [(0x1000, 0x5000), (0x6000, 0x9000)]) s := by
  have h := full_coalescing 1 9 [(0x1000, 0x5000), (0x6000, 0x9000)] (by decide)
    (by simp only [List.mem_cons, List.not_mem_nil, or_false, forall_eq_or_imp,
          forall_eq, wholePages, Set.mem_ofPred_eq, PAGE_SIZE, PAGE_SHIFT]
        exact ⟨fun i hi => by omega, fun i hi => by omega⟩)
    (by simp only [List.pairwise_cons, List.mem_cons, List.not_mem_nil, or_false, forall_eq,
          NotAdjacent, wholePages, Set.mem_ofPred_eq, PAGE_SIZE, PAGE_SHIFT, List.Pairwise.nil,
          and_true, false_imp_iff, implies_true]
        rintro i ⟨_, hi, hi'⟩ j ⟨_, hj, hj'⟩
        exact ⟨by omega, by omega, by omega⟩)
  exact h.imp fun zone hz => ⟨hz.1, fun s hs => (hz.2 s hs).1⟩

end AuOs
