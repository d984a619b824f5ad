import Mathlib
import AuOs.Paging.KmapInv

/-!
# Allocating and freeing kmap ranges

* `kmapMergePrev_spec`, `kmapMergeNext_spec` — a free neighbour is absorbed, found by the length in
  the last slot before the range or in the first slot behind it.
* `kmapFreeRange_spec` — freeing a range keeps the invariant and the other used ranges.
* `kmapAllocRange_spec` — an allocated range is cut from a free one; a request that fails changes
  nothing.
* `kmapRangesSetup_spec` — the state `kmap_setup` makes, whatever the array held before.
-/

set_option autoImplicit false

namespace AuOs

variable {k k' : KmapRanges} {A B l : List KmapSeg} {s t : KmapSeg} {start n : Nat}

/-- No function has a segment in hand. -/
def NoneHeld (l : List KmapSeg) : Prop := ∀ s ∈ l, s.tag ≠ .held

theorem usedOf_append : usedOf (A ++ B) = usedOf A ++ usedOf B := List.filter_append ..

theorem usedOf_cons_of_ne (h : s.tag ≠ .used) : usedOf (s :: l) = usedOf l := by
  simp [usedOf, h]

theorem usedOf_cons : usedOf (⟨start, n, .used⟩ :: l) = ⟨start, n, .used⟩ :: usedOf l := by
  simp [usedOf]

/-- `list_empty` of a slot inside the array. -/
theorem listEmpty_eq {x : Nat} (hx : x < KMAP_PAGES) :
    k.listEmpty x = .ok (decide ((k.slots x).ll = .self)) := by
  rw [KmapRanges.listEmpty, KmapRanges.get, if_pos hx, ok_bind]
  rfl

/-- **The range before.** -/
theorem kmapMergePrev_spec (h : KmapInv k (A ++ ⟨start, n, .held⟩ :: B)) (hA : NoneHeld A) :
    ∃ k' A' start' n', kmapMergePrev k start n = .ok (k', start', n') ∧
      KmapInv k' (A' ++ ⟨start', n', .held⟩ :: B) ∧ (∀ t ∈ A'.getLast?, t.tag ≠ .free) ∧
      usedOf A' = usedOf A ∧ A' ⊆ A := by
  have hpos : 0 < n := h.bounds.1
  rcases List.eq_nil_or_concat A with rfl | ⟨A, p, rfl⟩
  · have h0 : start = 0 := ((Seg.tiles_focus.mp h.tiles).1).symm
    subst h0
    exact ⟨k, [], 0, n, rfl, h, nofun, rfl, List.Subset.refl _⟩
  · rw [List.concat_eq_append, List.append_assoc] at h
    have hp := h.bounds
    have hstop : p.stop = start := (Seg.tiles_focus.mp h.tiles).2.2.1.symm
    have hstart := h.start_lt
    have hn := (h.tiles.mem (s := ⟨start, n, .held⟩) (by simp)).2.2
    have hmem : p ∈ A ++ p :: ([] ++ ⟨start, n, .held⟩ :: B) := by simp
    have hheld : p.tag ≠ .held := hA p (by simp)
    have hlast := h.last p hmem hheld
    unfold Seg.stop at hstop hn hp
    have hprev : start - p.len = p.start := by omega
    have hget : k.get (start - 1) = .ok (k.slots (start - 1)) := if_pos (by simp only at hn; omega)
    have htag : (k.slots (start - 1)).pages = p.len := by
      rw [← hstop]
      exact hlast
    rw [kmapMergePrev, if_pos (by omega), hget, ok_bind, htag, if_neg (by omega), hprev]
    simp only [listEmpty_eq hstart, ok_bind]
    cases hs : p.tag with
    | held => exact absurd hs hheld
    | used =>
      rw [h.own p hmem hs, if_neg (by simp)]
      refine ⟨k, A ++ [p], start, n, rfl, by simpa using h, ?_, by simp, by simp⟩
      simp [hs]
    | free =>
      have hother := h.other p hmem hs
      obtain ⟨k₁, hdel, h₁, hpages⟩ := h.unlink hs
      rw [if_pos (by simp [hother]), hdel, ok_bind, KmapRanges.get, if_pos hstart, ok_bind, hpages,
        h.first p hmem hheld]
      have hjoin : KmapInv k₁ (A ++ ⟨p.start, p.len + n, .held⟩ :: B) := by
        refine KmapInv.join ?_ hp.1 hpos
        rw [hstop]
        exact h₁
      refine ⟨k₁, A, p.start, n + p.len, rfl, Nat.add_comm n p.len ▸ hjoin, ?_, ?_, by simp⟩
      · intro t ht hfree
        have happart := (noFreePair_free hs).mp h.apart
        exact happart.2.2.1 t ht hfree
      · simp [usedOf, List.filter_append, hs]

/-- **The range behind.** -/
theorem kmapMergeNext_spec (h : KmapInv k (A ++ ⟨start, n, .held⟩ :: B)) (hB : NoneHeld B) :
    ∃ k' B' n', kmapMergeNext k start n = .ok (k', n') ∧
      KmapInv k' (A ++ ⟨start, n', .held⟩ :: B') ∧ (∀ t ∈ B'.head?, t.tag ≠ .free) ∧
      usedOf B' = usedOf B ∧ B' ⊆ B := by
  have hpos : 0 < n := h.bounds.1
  have htiles := (Seg.tiles_focus.mp h.tiles).2.2
  cases B with
  | nil =>
    have hend : start + n = KMAP_PAGES := htiles
    refine ⟨k, [], n, ?_, h, nofun, rfl, List.Subset.refl _⟩
    rw [kmapMergeNext, if_neg (by omega)]
  | cons p B =>
    have h' : KmapInv k ((A ++ [⟨start, n, .held⟩]) ++ p :: B) := by simpa using h
    have hp := h'.bounds
    have hstart := h'.start_lt
    have hstop : p.start = start + n := htiles.1
    have hmem : p ∈ A ++ ⟨start, n, .held⟩ :: p :: B := by simp
    have hheld : p.tag ≠ .held := hB p (by simp)
    rw [kmapMergeNext, if_pos (by omega), ← hstop]
    simp only [listEmpty_eq hstart, ok_bind]
    cases hs : p.tag with
    | held => exact absurd hs hheld
    | used =>
      rw [h.own p hmem hs, if_neg (by simp)]
      refine ⟨k, p :: B, n, rfl, h, ?_, rfl, List.Subset.refl _⟩
      simp [hs]
    | free =>
      have hother := h.other p hmem hs
      obtain ⟨k₁, hdel, h₁, hpages⟩ := h'.unlink hs
      rw [if_pos (by simp [hother]), hdel, ok_bind, KmapRanges.get, if_pos hstart, ok_bind, hpages,
        h.first p hmem hheld]
      have hjoin : KmapInv k₁ (A ++ ⟨start, n + p.len, .held⟩ :: B) := by
        refine KmapInv.join ?_ hpos hp.1
        rw [← hstop]
        simpa using h₁
      refine ⟨k₁, B, n + p.len, rfl, hjoin, ?_, ?_, by simp⟩
      · intro t ht hfree
        have happart := (noFreePair_free hs).mp h'.apart
        exact happart.2.2.2 t ht hfree
      · simp [usedOf, hs]

/-- **`kmap_free_range`.** -/
theorem kmapFreeRange_spec (h : KmapInv k (A ++ ⟨start, n, .held⟩ :: B)) (hA : NoneHeld A)
    (hB : NoneHeld B) :
    ∃ k' l', kmapFreeRange k start n = .ok k' ∧ KmapInv k' l' ∧ NoneHeld l' ∧
      usedOf l' = usedOf A ++ usedOf B := by
  obtain ⟨k₁, A', start', n₁, hprev, h₁, hAfree, hAused, hsubA⟩ := kmapMergePrev_spec h hA
  obtain ⟨k₂, B', n₂, hnext, h₂, hBfree, hBused, hsubB⟩ := kmapMergeNext_spec h₁ hB
  obtain ⟨k₃, k₄, k', h₃, h₄, hadd, h'⟩ := h₂.release rfl hAfree hBfree
  refine ⟨k', _, ?_, h', ?_, ?_⟩
  · rw [kmapFreeRange, hprev, ok_bind]
    simp only [hnext, ok_bind, h₃, h₄, hadd]
  · intro t ht
    rcases KmapInv.mem_focus.mp ht with rfl | ht
    · simp
    · rcases List.mem_append.mp ht with ht | ht
      · exact hA t (hsubA ht)
      · exact hB t (hsubB ht)
  · rw [usedOf_append, usedOf_cons_of_ne (by simp), hAused, hBused]

/-! ## Allocation -/

theorem kmapFindFree_some {order pages range : Nat} (h : kmapFindFree k order pages = some range) :
    range ∈ k.free order ∧ pages ≤ (k.slots range).pages := by
  have hm := List.mem_of_find?_eq_some h
  have hp := List.find?_some h
  exact ⟨hm, of_decide_eq_true hp⟩

theorem kmapSearch_some {pages range : Nat} : ∀ {fuel order : Nat},
    kmapSearch k pages fuel order = some range → ∃ c, kmapFindFree k c pages = some range
  | 0, _, h => by cases h
  | fuel + 1, order, h => by
    rw [kmapSearch] at h
    split at h
    · cases h
    · cases hf : kmapFindFree k order pages with
      | some r =>
        rw [hf] at h
        exact ⟨order, hf.trans h⟩
      | none =>
        rw [hf] at h
        exact kmapSearch_some h

/-- What `kmap_alloc_range` settles on is linked in a list and has the pages. -/
theorem kmapChoose_spec {pages : Nat} (hpages : 0 < pages) :
    ∃ r, kmapChoose k pages = .ok r ∧ ∀ range ∈ r, ∃ c, range ∈ k.free c ∧
      pages ≤ (k.slots range).pages := by
  unfold kmapChoose
  simp only
  cases hs : kmapSearch k pages (KMAP_ORDERS + 1) (kmapOrder pages) with
  | some range =>
    obtain ⟨c, hc⟩ := kmapSearch_some hs
    refine ⟨some range, rfl, ?_⟩
    rintro _ ⟨⟩
    exact ⟨c, kmapFindFree_some hc⟩
  | none =>
    simp only
    split
    · rename_i hlt
      have h0 : kmapOrder pages ≠ 0 := fun h0 => by
        rw [h0] at hlt
        simp at hlt
        omega
      rw [if_neg h0]
      refine ⟨_, rfl, fun range hr => ⟨_, kmapFindFree_some hr⟩⟩
    · exact ⟨none, rfl, nofun⟩

/-- **`kmap_alloc_range`**: the range is cut from the front of a free one. -/
theorem kmapAllocRange_spec (h : KmapInv k l) (hl : NoneHeld l) {pages : Nat} (hpages : 0 < pages) :
    (kmapChoose k pages = .ok none ∧ kmapAllocRange k pages = .ok (k, none)) ∨
    ∃ k' l' range, kmapAllocRange k pages = .ok (k', some range) ∧ KmapInv k' l' ∧ NoneHeld l' ∧
      (usedOf l').Perm (⟨range, pages, .used⟩ :: usedOf l) := by
  obtain ⟨r, hchoose, hr⟩ := @kmapChoose_spec k pages hpages
  unfold kmapAllocRange
  rw [hchoose, ok_bind]
  cases r with
  | none => exact Or.inl ⟨rfl, rfl⟩
  | some range =>
    refine Or.inr ?_
    obtain ⟨c, hc, hle⟩ := hr range rfl
    obtain ⟨s, hs, hfree, rfl, -⟩ := (h.linked c range).mp hc
    obtain ⟨A, B, rfl⟩ := List.append_of_mem hs
    have hlen := h.first s hs (by simp [hfree])
    rw [hlen] at hle
    obtain ⟨k₁, hdel, h₁, -⟩ := h.unlink hfree
    have hA : NoneHeld A := fun t ht => hl t (List.mem_append_left _ ht)
    have hB : NoneHeld B := fun t ht => hl t (List.mem_append_right _ (List.mem_cons_of_mem _ ht))
    have hused : usedOf (A ++ s :: B) = usedOf A ++ usedOf B := by
      rw [usedOf_append, usedOf_cons_of_ne (by simp [hfree])]
    simp only [KmapRanges.get, if_pos h.start_lt, ok_bind, hdel, hlen]
    rcases Nat.eq_or_lt_of_le hle with rfl | hlt
    · obtain ⟨k₂, k', h₂, h₃, h'⟩ := h₁.occupy rfl
      refine ⟨k', _, s.start, ?_, h', ?_, ?_⟩
      · simp only [h₂, h₃, ok_bind, if_neg (Nat.lt_irrefl _), gt_iff_lt]
        rfl
      · intro t ht
        rcases KmapInv.mem_focus.mp ht with rfl | ht
        · simp
        · exact hl t (KmapInv.mem_of_rest ht)
      · rw [hused, usedOf_append, usedOf_cons]
        exact List.perm_middle
    · have hcut : pages + (s.len - pages) = s.len := by omega
      have hsplit := KmapInv.split (m := pages) (n := s.len - pages) (by rw [hcut]; exact h₁) hpages
        (by omega)
      obtain ⟨k₂, k₃, h₂, h₃, h'⟩ := hsplit.occupy rfl
      rw [List.append_cons] at h'
      have hA' : NoneHeld (A ++ [⟨s.start, pages, .used⟩]) := by
        intro t ht
        rcases List.mem_append.mp ht with ht | ht
        · exact hA t ht
        · simp [List.mem_singleton.mp ht]
      obtain ⟨k', l', hfr, h'', hl', hused'⟩ := kmapFreeRange_spec h' hA' hB
      refine ⟨k', l', s.start, ?_, h'', hl', ?_⟩
      · simp only [h₂, h₃, ok_bind, gt_iff_lt, if_pos hlt, hfr]
        rfl
      · rw [hused', hused, usedOf_append, usedOf_cons, List.append_assoc]
        exact List.perm_middle

/-! ## The first state -/

/-- **The ranges that `kmap_setup` makes.** -/
theorem kmapRangesSetup_spec (slots : Nat → KmapRange) :
    ∃ k, kmapRangesSetup slots = .ok k ∧ KmapInv k [⟨0, KMAP_PAGES, .free⟩] := by
  have h : KmapInv ⟨slots, fun _ => []⟩ ([] ++ ⟨0, KMAP_PAGES, .held⟩ :: []) := by
    refine ⟨⟨rfl, by decide, Nat.zero_add _⟩, ?_, ?_, ?_, ?_, fun _ => List.nodup_nil, ?_, by simp⟩
    all_goals simp
  obtain ⟨k₁, k₂, k, h₁, h₂, hadd, h'⟩ := h.release rfl nofun nofun
  refine ⟨k, ?_, h'⟩
  have hprev : kmapMergePrev ⟨slots, fun _ => []⟩ 0 KMAP_PAGES = .ok (_, 0, KMAP_PAGES) :=
    if_neg (Nat.lt_irrefl 0)
  have hnext : kmapMergeNext ⟨slots, fun _ => []⟩ 0 KMAP_PAGES = .ok (_, KMAP_PAGES) :=
    if_neg (by simp)
  rw [kmapRangesSetup, kmapFreeRange, hprev, ok_bind]
  simp only [hnext, ok_bind, h₁, h₂, hadd]

end AuOs
