import Mathlib
import AuOs.Lib.CallSystem
import AuOs.Paging.KmapFree

/-!
# Runs of the kmap range allocator

* `KmapHeap` — the ranges, and which of them are handed out.
* `kmapRangeCalls` — any number of `kmap_alloc_range` and of `kmap_free_range` of ranges in use.
* `kmap_ranges_invariant` — what holds after every run.
* `kmap_alloc_complete` — exactly when a request that fails had no free range to be served from:
  `large_request_refused` is a request of `2 ^ 16` pages that fails although all pages are free.
-/

set_option autoImplicit false

namespace AuOs

/-- The ranges, and the slot and the length of each range in use. -/
structure KmapHeap where
  ranges : KmapRanges
  live : List (Nat × Nat)

inductive KmapRangeCall where
  | alloc (pages : Nat)
  | free (range : Nat)

/-- A range is freed with the length its slot records, as `__kunmap` does. -/
def kmapRangeCalls : CallSystem KmapHeap KmapRangeCall Stop where
  legal s
    | .alloc pages => 1 ≤ pages
    | .free range => ∃ pages, (range, pages) ∈ s.live
  exec s
    | .alloc pages => do
      let (ranges, range) ← kmapAllocRange s.ranges pages
      match range with
      | none => return { s with ranges }
      | some range => return ⟨ranges, (range, pages) :: s.live⟩
    | .free range => do
      let slot ← s.ranges.get range
      let ranges ← kmapFreeRange s.ranges range slot.pages
      return ⟨ranges, s.live.filter fun r => decide (r.1 ≠ range)⟩

/-- The segment of a range in use. -/
def usedSeg (r : Nat × Nat) : KmapSeg := ⟨r.1, r.2, .used⟩

/-- The segments of `l` tile the slots, and those in use are the ranges handed out. -/
structure KmapHeap.Ok (s : KmapHeap) (l : List KmapSeg) : Prop where
  inv : KmapInv s.ranges l
  noneHeld : NoneHeld l
  used : (usedOf l).Perm (s.live.map usedSeg)

theorem KmapHeap.Ok.mem_live {s : KmapHeap} {l : List KmapSeg} (h : s.Ok l) {r : Nat × Nat}
    (hr : r ∈ s.live) : usedSeg r ∈ l :=
  List.mem_of_mem_filter (h.used.mem_iff.mpr (List.mem_map_of_mem hr))

namespace KmapHeap.Ok

variable {k : KmapRanges} {live : List (Nat × Nat)} {l : List KmapSeg} {range pages : Nat}

/-- A range in use lies inside the array, apart from the others. -/
theorem bounds {s : KmapHeap} (h : s.Ok l) {r : Nat × Nat} (hr : r ∈ s.live) :
    0 < r.2 ∧ r.1 + r.2 ≤ KMAP_PAGES :=
  (h.inv.tiles.mem (h.mem_live hr)).2

theorem pairwise {s : KmapHeap} (h : s.Ok l) :
    s.live.Pairwise fun r t => r.1 + r.2 ≤ t.1 ∨ t.1 + t.2 ≤ r.1 := by
  have hpair : (usedOf l).Pairwise fun t u => t.stop ≤ u.start ∨ u.stop ≤ t.start :=
    (h.inv.tiles.pairwise.filter _).imp Or.inl
  exact List.pairwise_map.mp ((h.used.pairwise_iff fun h => h.symm).mp hpair)

/-- A range is allocated, or nothing changes. -/
theorem alloc (h : KmapHeap.Ok ⟨k, live⟩ l) (hpages : 0 < pages) :
    kmapAllocRange k pages = .ok (k, none) ∨
    ∃ k' l' range, kmapAllocRange k pages = .ok (k', some range) ∧
      KmapHeap.Ok ⟨k', (range, pages) :: live⟩ l' := by
  rcases kmapAllocRange_spec h.inv h.noneHeld hpages with
    ⟨_, hnone⟩ | ⟨k', l', range, hsome, h', hl', hused⟩
  · exact Or.inl hnone
  · exact Or.inr ⟨k', l', range, hsome, h', hl', hused.trans (h.used.cons _)⟩

/-- A range in use is freed. -/
theorem free (h : KmapHeap.Ok ⟨k, live⟩ l) (hr : (range, pages) ∈ live) :
    k.get range = .ok (k.slots range) ∧ (k.slots range).pages = pages ∧
    ∃ k' l', kmapFreeRange k range pages = .ok k' ∧
      KmapHeap.Ok ⟨k', live.filter fun r => decide (r.1 ≠ range)⟩ l' := by
  have hmem := h.mem_live hr
  obtain ⟨A, B, rfl⟩ := List.append_of_mem hmem
  have hlen := h.inv.first _ hmem (by simp [usedSeg])
  have hheld := h.inv.hold rfl
  obtain ⟨k', l', hfree, h', hl', hused⟩ := kmapFreeRange_spec hheld
    (fun t ht => h.noneHeld t (List.mem_append_left _ ht))
    (fun t ht => h.noneHeld t (List.mem_append_right _ (List.mem_cons_of_mem _ ht)))
  refine ⟨if_pos h.inv.start_lt, hlen, k', l', hfree, h', hl', ?_⟩
  -- The other ranges in use start elsewhere.
  have hne : ∀ t ∈ usedOf A ++ usedOf B, t.start ≠ range := fun t ht =>
    h.inv.tiles.eq_of_start (List.mem_append.mpr ((List.mem_append.mp ht).imp
      List.mem_of_mem_filter List.mem_of_mem_filter))
  have hfilter := h.used.filter fun t => decide (t.start ≠ range)
  rw [usedOf_append, show usedOf (usedSeg (range, pages) :: B) = usedSeg (range, pages) :: usedOf B
    from usedOf_cons, List.filter_append, List.filter_cons, if_neg (by simp [usedSeg]),
    ← List.filter_append, List.filter_eq_self.mpr fun t ht => decide_eq_true (hne t ht),
    List.filter_map] at hfilter
  rw [hused]
  exact hfilter

end KmapHeap.Ok

/-- **Every call keeps the invariant**, and none stops. -/
theorem kmapRangeCalls_keeps : kmapRangeCalls.Keeps (fun _ => False) fun s => ∃ l, s.Ok l := by
  rintro ⟨k, live⟩ c ⟨l, h⟩ hlegal
  cases c with
  | alloc pages =>
    show Post (kmapAllocRange k pages >>= _) _ _
    rcases h.alloc hlegal with hnone | ⟨k', l', range, hsome, h'⟩
    · rw [hnone]
      exact ⟨l, h⟩
    · rw [hsome]
      exact ⟨l', h'⟩
  | free range =>
    obtain ⟨pages, hr⟩ := hlegal
    obtain ⟨hget, hpages, k', l', hfree, h'⟩ := h.free hr
    show Post (k.get range >>= _) _ _
    rw [hget, ok_bind, hpages, hfree]
    exact ⟨l', h'⟩

/-- The state after `kmap_setup`: all slots are one free range. -/
theorem KmapHeap.ok_of_setup {slots : Nat → KmapRange} {k : KmapRanges}
    (hsetup : kmapRangesSetup slots = .ok k) :
    KmapHeap.Ok ⟨k, []⟩ [⟨0, KMAP_PAGES, .free⟩] := by
  obtain ⟨k', hsetup', h⟩ := kmapRangesSetup_spec slots
  obtain rfl := Except.ok.inj (hsetup.symm.trans hsetup')
  exact ⟨h, by simp [NoneHeld], List.Perm.nil⟩

/-- Without a range in use, a single free range is left. -/
theorem KmapHeap.Ok.single {s : KmapHeap} {l : List KmapSeg} (h : s.Ok l) (hlive : s.live = []) :
    l = [⟨0, KMAP_PAGES, .free⟩] := by
  have hfree : ∀ t ∈ l, t.tag = .free := by
    intro t ht
    have hused : usedOf l = [] := by
      have := h.used
      rw [hlive] at this
      exact List.perm_nil.mp this
    cases htag : t.tag with
    | free => rfl
    | held => exact absurd htag (h.noneHeld t ht)
    | used =>
      have : t ∈ usedOf l := List.mem_filter.mpr ⟨ht, decide_eq_true htag⟩
      rw [hused] at this
      cases this
  have htiles := h.inv.tiles
  match l, hfree, htiles, h.inv.apart with
  | [], _, h0, _ => exact absurd (show 0 = KMAP_PAGES from h0) (by decide)
  | [⟨start, len, tag⟩], hfree, ⟨hs, _, hlen⟩, _ =>
    obtain rfl : start = 0 := hs
    obtain rfl : tag = .free := hfree ⟨0, len, tag⟩ (by simp)
    have hlen : 0 + len = KMAP_PAGES := hlen
    rw [Nat.zero_add] at hlen
    rw [hlen]
  | t :: u :: l, hfree, _, hapart =>
    exact absurd ⟨hfree t (by simp), hfree u (by simp)⟩ (List.isChain_cons_cons.mp hapart).1

/-- **The kmap range allocator.** -/
theorem kmap_ranges_invariant {slots : Nat → KmapRange} {k : KmapRanges} {s : KmapHeap}
    (hsetup : kmapRangesSetup slots = .ok k) (hrun : kmapRangeCalls.Run ⟨k, []⟩ s) :
    (∃ l, KmapInv s.ranges l ∧ NoneHeld l ∧ (usedOf l).Perm (s.live.map usedSeg)) ∧
    s.live.Pairwise (fun r t => r.1 + r.2 ≤ t.1 ∨ t.1 + t.2 ≤ r.1) ∧
    (s.live = [] → KmapInv s.ranges [⟨0, KMAP_PAGES, .free⟩]) ∧
    ∀ c, kmapRangeCalls.legal s c → ∃ s', kmapRangeCalls.exec s c = .ok s' := by
  have hstart : ∃ l, KmapHeap.Ok ⟨k, []⟩ l := ⟨_, KmapHeap.ok_of_setup hsetup⟩
  obtain ⟨l, h⟩ := kmapRangeCalls_keeps.run hstart hrun
  refine ⟨⟨l, h.inv, h.noneHeld, h.used⟩, h.pairwise, ?_, ?_⟩
  · intro hlive
    exact h.single hlive ▸ h.inv
  · intro c hc
    obtain ⟨s', hexec, _⟩ := (kmapRangeCalls_keeps s c ⟨l, h⟩ hc).returns
    exact ⟨s', hexec⟩

/-! ## Runs that are executed -/

/-- The calls that `kmapRangeCalls` allows. -/
def KmapHeap.allows (s : KmapHeap) : KmapRangeCall → Bool
  | .alloc pages => decide (1 ≤ pages)
  | .free range => s.live.any fun r => decide (r.1 = range)

theorem KmapHeap.allows_legal (s : KmapHeap) (c : KmapRangeCall) (h : s.allows c = true) :
    kmapRangeCalls.legal s c := by
  cases c with
  | alloc pages => exact (of_decide_eq_true h : 1 ≤ pages)
  | free range =>
    obtain ⟨⟨start, pages⟩, hr, heq⟩ := List.any_eq_true.mp h
    obtain rfl := of_decide_eq_true heq
    exact ⟨pages, hr⟩

/-- An array whose bytes were anything. -/
def someSlots (_ : Nat) : KmapRange := ⟨.other, 7⟩

theorem someSlots_run {calls : List KmapRangeCall} {P : KmapHeap → Prop} [DecidablePred P]
    (h : ((kmapRangesSetup someSlots).toOption.any fun k =>
      (kmapRangeCalls.trial KmapHeap.allows calls ⟨k, []⟩).any fun s => decide (P s)) = true) :
    ∃ k s, kmapRangesSetup someSlots = .ok k ∧ kmapRangeCalls.Run ⟨k, []⟩ s ∧ P s := by
  cases hsetup : kmapRangesSetup someSlots with
  | error e =>
    rw [hsetup] at h
    cases h
  | ok k =>
    rw [hsetup] at h
    obtain ⟨s, hrun, hP⟩ := CallSystem.exists_run KmapHeap.allows_legal h
    exact ⟨k, s, rfl, hrun, hP⟩

/-- Two ranges are taken, and the first is given back. -/
theorem kmap_ranges_invariant_two : ∃ k s, kmapRangesSetup someSlots = .ok k ∧
    kmapRangeCalls.Run ⟨k, []⟩ s ∧ s.live = [(5, 3)] ∧
    ∃ l, KmapInv s.ranges l ∧ NoneHeld l ∧ (usedOf l).Perm [⟨5, 3, .used⟩] := by
  obtain ⟨k, s, hsetup, hrun, hlive⟩ := @someSlots_run
    [.alloc 5, .alloc 3, .free 0] (fun s => s.live = [(5, 3)]) _ (by decide +kernel)
  obtain ⟨l, hinv, hheld, hused⟩ := (kmap_ranges_invariant hsetup hrun).1
  rw [hlive] at hused
  exact ⟨k, s, hsetup, hrun, hlive, l, hinv, hheld, hused⟩

/-! ## Requests that fail -/

theorem kmapSearch_none {k : KmapRanges} {pages : Nat} : ∀ {fuel order : Nat},
    KMAP_ORDERS < order + fuel → kmapSearch k pages fuel order = none →
    ∀ c, order ≤ c → c < KMAP_ORDERS → kmapFindFree k c pages = none
  | 0, order, hfuel, _, c, hle, hlt => by omega
  | fuel + 1, order, hfuel, h, c, hle, hlt => by
    rw [kmapSearch, if_neg (by omega)] at h
    cases hf : kmapFindFree k order pages with
    | some r => simp [hf] at h
    | none =>
      rw [hf] at h
      rcases Nat.eq_or_lt_of_le hle with rfl | hle
      · exact hf
      · exact kmapSearch_none (by omega) h c hle hlt

/-- The class of a range that fits a request below `2 ^ 16` pages is searched. -/
theorem class_searched {pages n : Nat} (hpages : 0 < pages) (hle : pages ≤ n)
    (hlt : pages < 2 ^ 16) : kmapOrder pages ≤ kmapClass n ∨
      (kmapClass n = kmapOrder pages - 1 ∧ pages < 2 ^ kmapOrder pages ∧ kmapOrder pages ≠ 0) := by
  obtain ⟨ho, hpow, hge⟩ := kmapOrder_spec pages
  generalize kmapOrder pages = o at *
  rcases Nat.lt_or_ge (kmapClass n) o with hc | hc
  · refine Or.inr ?_
    have hn : n ≠ 0 := by omega
    have hlog : o - 1 ≤ Nat.log 2 n :=
      (Nat.le_log_iff_pow_le (by decide) hn).mpr ((hpow (o - 1) (by omega)).le.trans hle)
    have hclass : kmapClass n = o - 1 := by
      unfold kmapClass KMAP_ORDERS at *
      omega
    refine ⟨hclass, ?_, by omega⟩
    rcases hge with rfl | hge
    · exact hlt
    · refine lt_of_le_of_ne hge ?_
      rintro rfl
      -- A range of at least `2 ^ o` pages is in class `o` at least.
      have hlog' : o ≤ Nat.log 2 n := (Nat.le_log_iff_pow_le (by decide) hn).mpr hle
      have : o < 16 := (Nat.pow_lt_pow_iff_right (by decide)).mp hlt
      unfold kmapClass KMAP_ORDERS at *
      omega
  · exact Or.inl hc

/-- A request below `2 ^ 16` pages that fails had no free range to be served from. -/
theorem kmapChoose_none {k : KmapRanges} {l : List KmapSeg} (h : KmapInv k l) {pages : Nat}
    (hpages : 0 < pages) (hlt : pages < 2 ^ 16) (hnone : kmapChoose k pages = .ok none) {c x : Nat}
    (hx : x ∈ k.free c) : (k.slots x).pages < pages := by
  by_contra hge
  obtain ⟨s, hs, hfree, rfl, rfl⟩ := (h.linked c x).mp hx
  rw [h.first s hs (by simp [hfree])] at hge
  have hmiss : kmapFindFree k (kmapClass s.len) pages ≠ none := by
    intro hf
    have := List.find?_eq_none.mp hf s.start hx
    rw [h.first s hs (by simp [hfree]), decide_eq_true_eq] at this
    exact this (Nat.not_lt.mp hge)
  unfold kmapChoose at hnone
  simp only at hnone
  cases hsearch : kmapSearch k pages (KMAP_ORDERS + 1) (kmapOrder pages) with
  | some r => simp [hsearch] at hnone
  | none =>
    rcases class_searched hpages (Nat.not_lt.mp hge) hlt with hle | ⟨hclass, hpow, h0⟩
    · exact hmiss (kmapSearch_none (by omega) hsearch _ hle (kmapClass_lt _))
    · rw [hsearch] at hnone
      simp only [Nat.one_shiftLeft, gt_iff_lt, if_pos hpow, if_neg h0, ← hclass] at hnone
      exact hmiss (Except.ok.inj hnone)

/-- Requests of `2 ^ 16` pages and more always fail. -/
theorem kmapChoose_large (k : KmapRanges) {pages : Nat} (hge : 2 ^ 16 ≤ pages) :
    kmapChoose k pages = .ok none := by
  obtain ⟨ho, hpow, hcap⟩ := kmapOrder_spec pages
  have horder : kmapOrder pages = KMAP_ORDERS := by
    rcases hcap with h | h
    · exact h
    · have : 16 ≤ kmapOrder pages := (Nat.pow_le_pow_iff_right (by decide)).mp (hge.trans h)
      exact le_antisymm ho this
  unfold kmapChoose
  simp only [horder, kmapSearch, if_true]
  rw [if_neg]
  rw [Nat.one_shiftLeft]
  exact Nat.not_lt.mpr hge

/-- **When a failed request means that no free range fits.** -/
theorem kmap_alloc_complete {slots : Nat → KmapRange} {k : KmapRanges} {s : KmapHeap}
    (hsetup : kmapRangesSetup slots = .ok k) (hrun : kmapRangeCalls.Run ⟨k, []⟩ s) {pages : Nat}
    (hpages : 1 ≤ pages) :
    ((∃ k', kmapAllocRange s.ranges pages = .ok (k', none)) →
        ∀ c, ∀ x ∈ s.ranges.free c, (s.ranges.slots x).pages < pages) ↔
      (pages < 2 ^ 16 ∨ ∀ c, ∀ x ∈ s.ranges.free c, (s.ranges.slots x).pages < pages) := by
  have hstart : ∃ l, KmapHeap.Ok ⟨k, []⟩ l := ⟨_, KmapHeap.ok_of_setup hsetup⟩
  obtain ⟨l, h⟩ := kmapRangeCalls_keeps.run hstart hrun
  constructor
  · intro hclaim
    rcases Nat.lt_or_ge pages (2 ^ 16) with hlt | hge
    · exact Or.inl hlt
    · refine Or.inr (hclaim ⟨s.ranges, ?_⟩)
      rw [kmapAllocRange, kmapChoose_large _ hge]
      rfl
  · rintro (hlt | hall) ⟨k', hnone⟩
    · intro c x hx
      rcases kmapAllocRange_spec h.inv h.noneHeld hpages with ⟨hchoose, _⟩ | ⟨k'', l', r, hsome, _⟩
      · exact kmapChoose_none h.inv hpages hlt hchoose hx
      · rw [hsome] at hnone
        cases hnone
    · exact hall

/-- Eight ranges of 65535 pages leave too little for nine pages. -/
theorem kmap_alloc_complete_full : ∃ k s, kmapRangesSetup someSlots = .ok k ∧
    kmapRangeCalls.Run ⟨k, []⟩ s ∧ (∃ k', kmapAllocRange s.ranges 9 = .ok (k', none)) ∧
    ∀ c, ∀ x ∈ s.ranges.free c, (s.ranges.slots x).pages < 9 := by
  obtain ⟨k, s, hsetup, hrun, hfull⟩ := @someSlots_run (List.replicate 8 (.alloc 65535))
    (fun s => (kmapAllocRange s.ranges 9).toOption.map Prod.snd = some none) _ (by decide +kernel)
  have hnone : ∃ k', kmapAllocRange s.ranges 9 = .ok (k', none) := by
    cases h : kmapAllocRange s.ranges 9 with
    | error e =>
      rw [h] at hfull
      cases hfull
    | ok r =>
      rw [h] at hfull
      have hr : r.2 = none := Option.some.inj hfull
      exact ⟨r.1, congrArg Except.ok (Prod.ext rfl hr)⟩
  have hexact := kmap_alloc_complete hsetup hrun (show 1 ≤ 9 by decide)
  exact ⟨k, s, hsetup, hrun, hnone, hexact.mpr (Or.inl (by decide)) hnone⟩

/-- All pages are free, and a request of `2 ^ 16` of them fails. -/
theorem large_request_refused : ∃ k, kmapRangesSetup someSlots = .ok k ∧
    0 ∈ k.free 15 ∧ (k.slots 0).pages = KMAP_PAGES ∧
    kmapAllocRange k (2 ^ 16) = .ok (k, none) := by
  obtain ⟨k, hsetup, h⟩ := kmapRangesSetup_spec someSlots
  refine ⟨k, hsetup, ?_, h.first _ List.mem_cons_self (by simp), ?_⟩
  · refine (h.linked 15 0).mpr ⟨_, List.mem_cons_self, rfl, rfl, ?_⟩
    have hlog : 15 ≤ Nat.log 2 KMAP_PAGES := (Nat.le_log_iff_pow_le (by decide) (by decide)).mpr
      (by decide)
    exact Nat.min_eq_right hlog
  · rw [kmapAllocRange, kmapChoose_large _ le_rfl]
    rfl

end AuOs
