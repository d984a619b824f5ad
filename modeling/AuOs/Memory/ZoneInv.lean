import Mathlib
import AuOs.Memory.Zone

/-!
# The zone invariant

`__page_free_zone` decides about merging from the flags of one descriptor, and merging never clears
the FREE flag of the absorbed page.  `ZoneInv` says which descriptors can be trusted: the heads of
the free blocks (FREE, with their order), the heads of the live blocks and the pages that were never
released (not FREE).  The flags of the interior pages of a block are left open.

* `ZoneInv zone M live held` — the blocks in the lists, the live blocks and the blocks the running
  function holds tile the managed pages `M`.
* `mergeLoop_spec`, `pageFreeZone_spec`, `splitLoop_spec`, `pageAllocZone_spec` — each function
  succeeds on a zone that satisfies the invariant and keeps it.
* `NoBuddies` — no two free buddies of an order below `MAX_ORDER`; kept by the same functions.
* `SameUser` — the functions leave the user bits and the union of every descriptor alone.
-/

set_option autoImplicit false

namespace AuOs

open DyadicTiling

/-- The invariant of a zone whose managed pages are `M`, whose live blocks are `live`, in the middle
of a function that holds the blocks `held`. -/
structure ZoneInv (zone : Zone) (M : Set Nat) (live held : List Block) : Prop where
  tiling : Tiling (held ++ (live ++ freeList zone)) M
  inside : ∀ i ∈ M, zone.contains i = true
  order_le : ∀ b ∈ held ++ live, b.order ≤ MAX_ORDER
  free_desc : ∀ b ∈ freeList zone,
    pageIsFree (zone.pages b.start) = true ∧ pageOrder (zone.pages b.start) = b.order
  live_busy : ∀ b ∈ live, pageIsFree (zone.pages b.start) = false
  wild_busy : ∀ i, zone.contains i = true → i ∉ M → pageIsFree (zone.pages i) = false

/-- No two free blocks of an order below `MAX_ORDER` are buddies. -/
def NoBuddies (zone : Zone) : Prop :=
  ∀ b ∈ freeList zone, b.order < MAX_ORDER → b.buddy ∉ freeList zone

/-- What belongs to the users of the pages is unchanged, and so are the bounds of the zone. -/
structure SameUser (zone zone' : Zone) : Prop where
  begin_ : zone'.begin_ = zone.begin_
  end_ : zone'.end_ = zone.end_
  u : ∀ i, (zone'.pages i).u = (zone.pages i).u
  bit : ∀ i bit, bit < 48 → pageTestBit (zone'.pages i) bit = pageTestBit (zone.pages i) bit

theorem SameUser.refl (zone : Zone) : SameUser zone zone :=
  ⟨rfl, rfl, fun _ => rfl, fun _ _ _ => rfl⟩

theorem SameUser.trans {z₁ z₂ z₃ : Zone} (h : SameUser z₁ z₂) (h' : SameUser z₂ z₃) :
    SameUser z₁ z₃ :=
  ⟨h'.begin_.trans h.begin_, h'.end_.trans h.end_, fun i => (h'.u i).trans (h.u i),
    fun i bit hb => (h'.bit i bit hb).trans (h.bit i bit hb)⟩

theorem SameUser.contains {zone zone' : Zone} (h : SameUser zone zone') (i : Nat) :
    zone'.contains i = zone.contains i := by
  simp only [Zone.contains, h.begin_, h.end_]

theorem SameUser.setPage (zone : Zone) {idx : Nat} {page : Page}
    (hu : page.u = (zone.pages idx).u)
    (hb : ∀ bit, bit < 48 → pageTestBit page bit = pageTestBit (zone.pages idx) bit) :
    SameUser zone (zone.setPage idx page) := by
  refine ⟨rfl, rfl, fun i => ?_, fun i bit hbit => ?_⟩
  all_goals
    by_cases hi : i = idx
    · subst hi; simp_all [Zone.setPage]
    · simp [Zone.setPage, hi]

theorem max_order_lt : MAX_ORDER < 256 := by decide

namespace ZoneInv

variable {zone : Zone} {M : Set Nat} {live held : List Block} {b c : Block}

theorem mem_free (hc : c ∈ freeList zone) : c ∈ held ++ (live ++ freeList zone) :=
  List.mem_append_right _ (List.mem_append_right _ hc)

theorem mem_live (hc : c ∈ live) : c ∈ held ++ (live ++ freeList zone) :=
  List.mem_append_right _ (List.mem_append_left _ hc)

theorem start_mem (h : ZoneInv zone M live held) (hc : c ∈ held ++ (live ++ freeList zone)) :
    c.start ∈ M :=
  h.tiling.cells_subset hc c.start_mem

/-- The order of the live blocks in the ghost list does not matter. -/
theorem perm_live {live' : List Block} (h : ZoneInv zone M live held) (hp : live.Perm live') :
    ZoneInv zone M live' held where
  tiling := h.tiling.perm ((hp.append_right _).append_left _)
  inside := h.inside
  order_le := fun b hb => h.order_le b (((hp.append_left held).mem_iff).mpr hb)
  free_desc := h.free_desc
  live_busy := fun b hb => h.live_busy b (hp.mem_iff.mpr hb)
  wild_busy := h.wild_busy

/-- Taking a live block in hand. -/
theorem hold (h : ZoneInv zone M (b :: live) held) : ZoneInv zone M live (b :: held) where
  tiling := h.tiling.perm (by
    rw [List.cons_append, List.cons_append]; exact List.perm_middle)
  inside := h.inside
  order_le := fun c hc => h.order_le c (by
    simp only [List.mem_append, List.mem_cons] at hc ⊢; tauto)
  free_desc := h.free_desc
  live_busy := fun c hc => h.live_busy c (List.mem_cons_of_mem _ hc)
  wild_busy := h.wild_busy

/-- A block in hand whose head is not FREE becomes a live block. -/
theorem give (h : ZoneInv zone M live (b :: held))
    (hb : pageIsFree (zone.pages b.start) = false) : ZoneInv zone M (b :: live) held where
  tiling := h.tiling.perm (by
    rw [List.cons_append, List.cons_append]; exact List.perm_middle.symm)
  inside := h.inside
  order_le := fun c hc => h.order_le c (by
    simp only [List.mem_append, List.mem_cons] at hc ⊢; tauto)
  free_desc := h.free_desc
  live_busy := fun c hc => by
    rcases List.mem_cons.mp hc with rfl | hc
    · exact hb
    · exact h.live_busy c hc
  wild_busy := h.wild_busy

/-- Heads of distinct blocks are distinct pages. -/
theorem start_ne (h : ZoneInv zone M live (b :: held))
    (hc : c ∈ held ++ (live ++ freeList zone)) : c.start ≠ b.start := by
  intro e
  have hn := h.tiling.not_mem_of_cons hc c.start_mem
  rw [e] at hn
  exact hn b.start_mem

theorem not_linked (h : ZoneInv zone M live (b :: held)) : zone.linked b.start = false := by
  rw [Bool.eq_false_iff]
  intro hl
  obtain ⟨c, hc, hs⟩ := linked_iff.mp hl
  exact h.start_ne (mem_free hc) hs

/-- A descriptor that is neither a block head nor unmanaged may be overwritten. -/
theorem setPage_held (h : ZoneInv zone M live (b :: held)) (page : Page) :
    ZoneInv (zone.setPage b.start page) M live (b :: held) where
  tiling := h.tiling
  inside := h.inside
  order_le := h.order_le
  free_desc := fun c hc => by
    have hne := h.start_ne (mem_free hc)
    simp only [Zone.setPage, Function.update_of_ne hne]
    exact h.free_desc c hc
  live_busy := fun c hc => by
    have hne := h.start_ne (mem_live hc)
    simp only [Zone.setPage, Function.update_of_ne hne]
    exact h.live_busy c hc
  wild_busy := fun i hi hM => by
    have hne : i ≠ b.start := fun e => hM (e ▸ h.start_mem (List.mem_cons_self))
    simp only [Zone.setPage, Function.update_of_ne hne]
    exact h.wild_busy i hi hM

/-- **Unlinking** a free block puts it in hand. -/
theorem listDel_spec (h : ZoneInv zone M live held) (hb : b ∈ freeList zone) :
    ∃ zone', listDel zone b.start = .ok zone' ∧ ZoneInv zone' M live (b :: held) ∧
      (freeList zone).Perm (b :: freeList zone') ∧ zone' = { zone with order := zone'.order } := by
  have hu : ∀ c ∈ freeList zone, c.start = b.start → c = b := fun c hc e =>
    h.tiling.eq_of_mem (mem_free hc) (mem_free hb) c.start_mem (e ▸ b.start_mem)
  obtain ⟨zone', hdel, hp, hz⟩ := freeList_listDel hb hu
  have hpages : zone'.pages = zone.pages := by rw [hz]
  have hcont : ∀ i, zone'.contains i = zone.contains i := fun i => by
    rw [hz]; rfl
  have hsub : ∀ c ∈ freeList zone', c ∈ freeList zone := fun c hc =>
    hp.mem_iff.mpr (List.mem_cons_of_mem _ hc)
  refine ⟨zone', hdel, ?_, hp, hz⟩
  refine ⟨?_, ?_, ?_, ?_, ?_, ?_⟩
  · refine h.tiling.perm (((hp.append_left live).append_left held).trans ?_)
    refine (List.perm_middle.append_left held).trans ?_
    exact List.perm_middle
  · exact fun i hi => (hcont i).trans (h.inside i hi)
  · intro c hc
    rcases List.mem_cons.mp hc with rfl | hc
    · exact (mem_freeList.mp hb).1
    · exact h.order_le c hc
  · intro c hc
    rw [hpages]
    exact h.free_desc c (hsub c hc)
  · intro c hc
    rw [hpages]
    exact h.live_busy c hc
  · intro i hi hM
    rw [hpages]
    exact h.wild_busy i ((hcont i).symm.trans hi) hM

/-- **Linking** a block in hand into the list of its order and marking its head FREE. -/
theorem link_spec (h : ZoneInv zone M live (b :: held)) {l : List Nat}
    (hl : l.Perm (b.start :: zone.order b.order)) :
    ∃ zone', markFree (zone.setOrder b.order l) b.start b.order = .ok zone' ∧
      ZoneInv zone' M live held ∧ (freeList zone').Perm (b :: freeList zone) ∧
      SameUser zone zone' := by
  have hbo : b.order ≤ MAX_ORDER := h.order_le b List.mem_cons_self
  have hbo' : b.order < 256 := hbo.trans_lt max_order_lt
  have hin : (zone.setOrder b.order l).contains b.start = true := by
    have := h.inside b.start (h.start_mem List.mem_cons_self)
    exact this
  have hp := freeList_setOrder hbo hl
  refine ⟨(zone.setOrder b.order l).setPage b.start
    (pageSetFree ((zone.pages b.start).withOrder b.order)), ?_, ?_, hp, ?_⟩
  · rw [markFree, Zone.access, if_pos hin, ok_bind]
    show (pageSetOrder (zone.pages b.start) b.order >>= _) = _
    rw [pageSetOrder_ok _ hbo']
    rfl
  · have h' := h.setPage_held (pageSetFree ((zone.pages b.start).withOrder b.order))
    refine ⟨?_, h'.inside, fun c hc => h.order_le c (List.mem_cons_of_mem _ hc), ?_,
      h'.live_busy, h'.wild_busy⟩
    · have hmid : (held ++ (live ++ b :: freeList zone)).Perm
          (b :: held ++ (live ++ freeList zone)) :=
        (List.perm_middle.append_left held).trans List.perm_middle
      exact h.tiling.perm (hmid.symm.trans ((hp.symm.append_left live).append_left held))
    · intro c hc
      rw [freeList_setPage] at hc
      rcases List.mem_cons.mp (hp.mem_iff.mp hc) with rfl | hc
      · simp [Zone.setPage, hbo']
      · exact h'.free_desc c hc
  · have hs : SameUser zone (zone.setOrder b.order l) :=
      ⟨rfl, rfl, fun _ => rfl, fun _ _ _ => rfl⟩
    refine hs.trans (SameUser.setPage _ rfl fun bit hbit => ?_)
    rw [pageTestBit_setFree _ hbit, pageTestBit_withOrder _ hbo' hbit]
    rfl

/-- `list_add` of the head of a block in hand. -/
theorem listAdd_spec (h : ZoneInv zone M live (b :: held)) :
    ∃ zone', (listAdd zone b.start b.order >>= fun z => markFree z b.start b.order) = .ok zone' ∧
      ZoneInv zone' M live held ∧ (freeList zone').Perm (b :: freeList zone) ∧
      SameUser zone zone' := by
  rw [listAdd, if_neg (by simp [h.not_linked])]
  exact h.link_spec (List.Perm.refl _)

/-- `list_add_tail` of the head of a block in hand. -/
theorem listAddTail_spec (h : ZoneInv zone M live (b :: held)) :
    ∃ zone', (listAddTail zone b.start b.order >>= fun z => markFree z b.start b.order) =
      .ok zone' ∧ ZoneInv zone' M live held ∧ (freeList zone').Perm (b :: freeList zone) ∧
      SameUser zone zone' := by
  rw [listAddTail, if_neg (by simp [h.not_linked])]
  exact h.link_spec (List.perm_append_singleton _ _)

end ZoneInv

theorem NoBuddies.mono {zone zone' : Zone} (h : NoBuddies zone)
    (hsub : ∀ c ∈ freeList zone', c ∈ freeList zone) : NoBuddies zone' :=
  fun c hc ho hb => h c (hsub c hc) ho (hsub _ hb)

/-- Linking a block whose buddy is not free. -/
theorem NoBuddies.link {zone zone' : Zone} {b : Block} (h : NoBuddies zone)
    (hb : b.order < MAX_ORDER → b.buddy ∉ freeList zone)
    (hp : (freeList zone').Perm (b :: freeList zone)) : NoBuddies zone' := by
  intro c hc ho hcb
  rcases List.mem_cons.mp (hp.mem_iff.mp hc) with rfl | hc
  · rcases List.mem_cons.mp (hp.mem_iff.mp hcb) with he | hcb
    · exact c.buddy_ne he
    · exact hb ho hcb
  · rcases List.mem_cons.mp (hp.mem_iff.mp hcb) with rfl | hcb
    · exact hb ho (by rwa [Block.buddy_buddy])
    · exact h c hc ho hcb

/-! ## Freeing -/

section Free

variable {M : Set Nat} {live : List Block}

/-- **The merge test is right**: the descriptor at the buddy's number is inside the zone, FREE and
of the block's order exactly when the buddy is a free block. -/
theorem ZoneInv.buddy_mem_iff {zone : Zone} {b : Block} (h : ZoneInv zone M live [b]) :
    b.buddy ∈ freeList zone ↔ zone.contains b.buddy.start = true ∧
      pageIsFree (zone.pages b.buddy.start) = true ∧
      pageOrder (zone.pages b.buddy.start) = b.order := by
  have hb : b ∈ [b] ++ (live ++ freeList zone) := List.mem_cons_self
  have hal := h.tiling.aligned b hb
  constructor
  · intro hm
    obtain ⟨h1, h2⟩ := h.free_desc _ hm
    exact ⟨h.inside _ (h.start_mem (ZoneInv.mem_free hm)), h1, h2⟩
  · rintro ⟨hin, hfree, horder⟩
    have hM : b.buddy.start ∈ M := by
      by_contra hM
      rw [h.wild_busy _ hin hM] at hfree
      cases hfree
    obtain ⟨c, hc, hic⟩ := (h.tiling.cover _).mp hM
    have hcal := h.tiling.aligned c hc
    have hparent : b.buddy.start ∈ b.parent.cells := by
      rw [Block.parent_cells hal]; exact Or.inr b.buddy.start_mem
    have hcb : c ≠ b := by
      rintro rfl
      exact Set.disjoint_left.mp (Block.disjoint_buddy hal) hic c.buddy.start_mem
    -- a block of a larger order at the buddy would contain the whole parent, the freed block too
    have hle : c.order ≤ b.order := by
      by_contra hgt
      have hsub := Block.cells_subset hal.parent hcal (by rw [Block.parent_order]; omega)
        hparent hic
      have hs : b.start ∈ b.parent.cells := by
        rw [Block.parent_cells hal]; exact Or.inl b.start_mem
      exact hcb (h.tiling.eq_of_mem hc hb (hsub hs) b.start_mem)
    have hsub := Block.cells_subset hcal hal.buddy hle hic b.buddy.start_mem
    have hstart : c.start = b.buddy.start := by
      have h1 := (hsub c.start_mem).1
      have h2 := hic.1
      omega
    rcases List.mem_append.mp hc with hc | hc
    · exact absurd (List.mem_singleton.mp hc) hcb
    rcases List.mem_append.mp hc with hc | hc
    · have := h.live_busy c hc
      rw [hstart, hfree] at this
      cases this
    · have hco := (h.free_desc c hc).2
      rw [hstart, horder] at hco
      have : c = b.buddy := by
        cases c
        simp only at hstart hco
        rw [hstart, ← hco]; rfl
      rwa [← this]

/-- **The merge loop**: it ends with a block whose buddy is not free. -/
theorem mergeLoop_spec : ∀ (fuel : Nat) (zone : Zone) (b : Block), ZoneInv zone M live [b] →
    MAX_ORDER < fuel + b.order →
    ∃ zone' c, mergeLoop fuel zone b.start b.order = .ok (zone', c.start, c.order) ∧
      ZoneInv zone' M live [c] ∧ (c.order < MAX_ORDER → c.buddy ∉ freeList zone') ∧
      (∀ d ∈ freeList zone', d ∈ freeList zone) ∧ SameUser zone zone'
  | 0, zone, b, h, hf => by
    have := h.order_le b List.mem_cons_self
    omega
  | fuel + 1, zone, b, h, hf => by
    have hiff := h.buddy_mem_iff
    unfold mergeLoop
    by_cases ho : b.order < MAX_ORDER
    · rw [if_pos ho]
      by_cases hm : b.buddy ∈ freeList zone
      · obtain ⟨hin, hfree, horder⟩ := hiff.mp hm
        obtain ⟨z₁, hdel, h₁, hp, hz⟩ := h.listDel_spec hm
        have hmerged : ZoneInv z₁ M live [b.parent] := by
          have ht : Tiling (b :: b.buddy :: (live ++ freeList z₁)) M :=
            h₁.tiling.perm (List.Perm.swap _ _ _)
          exact ⟨ht.merge, h₁.inside, fun c hc => by
              rcases List.mem_cons.mp hc with rfl | hc
              · exact ho
              · exact h₁.order_le c (List.mem_cons_of_mem _ (List.mem_cons_of_mem _ hc)),
            h₁.free_desc, h₁.live_busy, h₁.wild_busy⟩
        obtain ⟨zone', c, hr, hinv, hexit, hsub, hsame⟩ :=
          mergeLoop_spec fuel z₁ b.parent hmerged (by rw [Block.parent_order]; omega)
        refine ⟨zone', c, ?_, hinv, hexit, fun d hd => ?_, ?_⟩
        · simp only [Zone.contains_iff, Block.buddy] at hin hfree horder hdel
          have hmin : (if b.start ^^^ 2 ^ b.order < b.start then b.start ^^^ 2 ^ b.order
              else b.start) = b.parent.start := by
            simp only [Block.parent]; split <;> omega
          rw [if_neg (by omega), if_neg (by simp [hfree, horder]), hdel, ok_bind, hmin]
          exact hr
        · exact hp.mem_iff.mpr (List.mem_cons_of_mem _ (hsub d hd))
        · exact SameUser.trans (by rw [hz]; exact ⟨rfl, rfl, fun _ => rfl, fun _ _ _ => rfl⟩) hsame
      · refine ⟨zone, b, ?_, h, fun _ => hm, fun _ hd => hd, SameUser.refl zone⟩
        by_cases hin : zone.contains b.buddy.start = true
        · have hno : pageIsFree (zone.pages b.buddy.start) = false ∨
              pageOrder (zone.pages b.buddy.start) ≠ b.order := by
            by_contra hcon
            simp only [not_or, Bool.not_eq_false, not_not] at hcon
            exact hm (hiff.mpr ⟨hin, hcon⟩)
          simp only [Zone.contains_iff, Block.buddy] at hin hno
          rw [if_neg (by omega), if_pos hno]
        · simp only [Zone.contains_iff, Block.buddy] at hin
          rw [if_pos (by omega)]
    · rw [if_neg ho]
      exact ⟨zone, b, rfl, h, fun hlt => absurd hlt ho, fun _ hd => hd, SameUser.refl zone⟩

/-- **`__page_free_zone`** succeeds on a live block and makes its pages free. -/
theorem pageFreeZone_spec {zone : Zone} {b : Block} (h : ZoneInv zone M (b :: live) []) :
    ∃ zone', pageFreeZone zone b.start b.order = .ok zone' ∧ ZoneInv zone' M live [] ∧
      (NoBuddies zone → NoBuddies zone') ∧ SameUser zone zone' := by
  have hh : ZoneInv zone M live [b] := h.hold
  obtain ⟨z₁, c, hloop, h₁, hexit, hsub, hsame⟩ :=
    mergeLoop_spec (MAX_ORDER + 1) zone b hh (by omega)
  obtain ⟨zone', hadd, hinv, hp, hsame'⟩ := h₁.listAdd_spec
  refine ⟨zone', ?_, hinv, fun hn => (hn.mono hsub).link hexit hp, hsame.trans hsame'⟩
  have hal := hh.tiling.aligned b List.mem_cons_self
  have hmod : ¬ b.start % 2 ^ b.order ≠ 0 := fun hne => hne (Nat.mod_eq_zero_of_dvd hal)
  rw [pageFreeZone, bugOn_neg hmod, ok_bind, hloop, ok_bind]
  exact hadd

end Free

/-! ## Allocating -/

section Alloc

variable {M : Set Nat} {live : List Block}

/-- The scan stops at the first order from `current` on whose list is not empty. -/
theorem scanOrder_spec (zone : Zone) : ∀ (fuel current : Nat), current ≤ MAX_ORDER →
    MAX_ORDER < fuel + current →
    current ≤ scanOrder zone fuel current ∧
    (∀ k, current ≤ k → k < scanOrder zone fuel current → zone.order k = []) ∧
    (scanOrder zone fuel current ≤ MAX_ORDER → zone.order (scanOrder zone fuel current) ≠ [])
  | 0, current, hc, hf => by omega
  | fuel + 1, current, hc, hf => by
    unfold scanOrder
    by_cases he : zone.order current = []
    · rw [if_pos ⟨he, hc⟩]
      by_cases hlt : current + 1 ≤ MAX_ORDER
      · obtain ⟨h1, h2, h3⟩ := scanOrder_spec zone fuel (current + 1) hlt (by omega)
        refine ⟨by omega, fun k hk hk' => ?_, h3⟩
        rcases Nat.eq_or_lt_of_le hk with rfl | hk
        · exact he
        · exact h2 k hk hk'
      · have hstop : scanOrder zone fuel (current + 1) = current + 1 := by
          cases fuel with
          | zero => rfl
          | succ n => rw [scanOrder, if_neg (fun h => hlt h.2)]
        rw [hstop]
        refine ⟨by omega, fun k hk hk' => ?_, fun h => absurd h hlt⟩
        have : k = current := by omega
        rwa [this]
    · rw [if_neg (fun h => he h.1)]
      exact ⟨Nat.le_refl _, fun k hk hk' => absurd hk (by omega), fun _ => he⟩

/-- **The split loop**: the lower part of the block stays live, the upper halves become free. -/
theorem splitLoop_spec {idx order : Nat} : ∀ (current : Nat) (zone : Zone), order ≤ current →
    ZoneInv zone M (⟨idx, current⟩ :: live) [] →
    ∃ zone', splitLoop zone idx order current = .ok zone' ∧
      ZoneInv zone' M (⟨idx, order⟩ :: live) [] ∧ (NoBuddies zone → NoBuddies zone') ∧
      SameUser zone zone'
  | 0, zone, hle, h => by
    have h0 : 0 = order := by omega
    subst h0
    exact ⟨zone, by rw [splitLoop, if_pos rfl], h, id, SameUser.refl zone⟩
  | current + 1, zone, hle, h => by
    unfold splitLoop
    by_cases he : current + 1 = order
    · subst he
      exact ⟨zone, by rw [if_pos rfl], h, id, SameUser.refl zone⟩
    · rw [if_neg he]
      have hb : (⟨idx, current + 1⟩ : Block) ∈
          [] ++ (⟨idx, current + 1⟩ :: live ++ freeList zone) := by simp
      have hal := h.tiling.aligned _ hb
      have hhigh := Block.low_buddy hal (Nat.succ_pos current)
      -- the upper half is taken in hand, the lower half is still live
      have hsplit : ZoneInv zone M (⟨idx, current⟩ :: live) [⟨idx ^^^ 2 ^ current, current⟩] := by
        have ht : Tiling (⟨idx, current⟩ :: ⟨idx ^^^ 2 ^ current, current⟩ ::
            (live ++ freeList zone)) M := by
          have := Tiling.split (b := ⟨idx, current + 1⟩) h.tiling (Nat.succ_pos current)
          rw [← hhigh] at this
          exact this
        have hmax := h.order_le ⟨idx, current + 1⟩ (by simp)
        refine ⟨ht.perm (List.Perm.swap _ _ _), h.inside, fun c hc => ?_, h.free_desc,
          fun c hc => ?_, h.wild_busy⟩
        · simp only [List.cons_append, List.nil_append, List.mem_cons] at hc
          rcases hc with rfl | rfl | hc
          · exact (Nat.le_succ current).trans hmax
          · exact (Nat.le_succ current).trans hmax
          · exact h.order_le c (by simp [hc])
        · rcases List.mem_cons.mp hc with rfl | hc
          · exact h.live_busy ⟨idx, current + 1⟩ List.mem_cons_self
          · exact h.live_busy c (List.mem_cons_of_mem _ hc)
      obtain ⟨z₁, hadd, h₁, hp, hsame₁⟩ := hsplit.listAdd_spec
      obtain ⟨zone', hloop, hinv, hnb, hsame⟩ := splitLoop_spec current z₁
        (Nat.le_of_lt_succ (lt_of_le_of_ne hle (Ne.symm he))) h₁
      refine ⟨zone', ?_, hinv, fun hn => hnb (hn.link (fun _ hbuddy => ?_) hp),
        hsame₁.trans hsame⟩
      · have hin := hsplit.inside _ (hsplit.start_mem List.mem_cons_self)
        obtain ⟨z₂, hz₂, hz₁⟩ := bind_eq_ok.mp hadd
        simp only [Zone.access] at hin ⊢
        rw [if_pos hin, ok_bind, hz₂, ok_bind, hz₁, ok_bind]
        exact hloop
      · -- the buddy of the new free block is the live lower half
        have hbb : (⟨idx ^^^ 2 ^ current, current⟩ : Block).buddy = ⟨idx, current⟩ := by
          simp [Block.buddy]
        rw [hbb] at hbuddy
        have hfree := (hsplit.free_desc _ hbuddy).1
        rw [hsplit.live_busy _ List.mem_cons_self] at hfree
        cases hfree

/-- **`__page_alloc_zone`** returns a block of the requested order, or null when the lists hold no
block of that order or a larger one. -/
theorem pageAllocZone_spec {zone : Zone} {order : Nat} (h : ZoneInv zone M live [])
    (ho : order ≤ MAX_ORDER) :
    (pageAllocZone zone order = .ok (zone, none) ∧ ∀ b ∈ freeList zone, b.order < order) ∨
    ∃ zone' idx, pageAllocZone zone order = .ok (zone', some idx) ∧
      ZoneInv zone' M (⟨idx, order⟩ :: live) [] ∧ (NoBuddies zone → NoBuddies zone') ∧
      SameUser zone zone' ∧ ∃ b ∈ freeList zone, order ≤ b.order := by
  obtain ⟨hle, hempty, hne⟩ := scanOrder_spec zone (MAX_ORDER + 2) order ho (by omega)
  unfold pageAllocZone
  simp only
  generalize hcur : scanOrder zone (MAX_ORDER + 2) order = current at *
  by_cases hgt : current > MAX_ORDER
  · left
    rw [if_pos hgt]
    refine ⟨rfl, fun b hb => ?_⟩
    obtain ⟨hbo, hm⟩ := mem_freeList.mp hb
    by_contra hge
    rw [hempty b.order (by omega) (by omega)] at hm
    cases hm
  · right
    have hcne := hne (by omega)
    rw [if_neg hgt, bugOn_neg hcne]
    cases hl : zone.order current with
    | nil => exact absurd hl hcne
    | cons idx rest =>
      have hb : (⟨idx, current⟩ : Block) ∈ freeList zone :=
        mem_freeList.mpr ⟨not_lt.mp hgt, by rw [hl]; exact List.mem_cons_self⟩
      have hin := h.inside _ (h.start_mem (ZoneInv.mem_free hb))
      -- unlinking and clearing FREE commute: the list first, then the flag
      obtain ⟨z₁, hdel, h₁, hp, hz⟩ := h.listDel_spec hb
      have hdel' : listDel (zone.setPage idx (pageSetBusy (zone.pages idx))) idx =
          .ok (z₁.setPage idx (pageSetBusy (z₁.pages idx))) := by
        have hlk : zone.linked idx = true := linked_iff.mpr ⟨_, hb, rfl⟩
        rw [listDel, if_pos hlk] at hdel
        cases hdel
        rw [listDel, if_pos (by exact hlk)]
        rfl
      have h₂ := (h₁.setPage_held (pageSetBusy (z₁.pages idx))).give (by simp [Zone.setPage])
      obtain ⟨zone', hloop, hinv, hnb, hsame⟩ := splitLoop_spec current _ hle h₂
      refine ⟨zone', idx, ?_, hinv, fun hn => hnb ?_, ?_, _, hb, hle⟩
      · simp only [Zone.access] at hin ⊢
        rw [ok_bind, if_pos hin, ok_bind, hdel', ok_bind, hloop, ok_bind]
        rfl
      · have : NoBuddies z₁ := hn.mono fun c hc => hp.mem_iff.mpr (List.mem_cons_of_mem _ hc)
        exact this
      · have hs₁ : SameUser zone z₁ := by rw [hz]; exact ⟨rfl, rfl, fun _ => rfl, fun _ _ _ => rfl⟩
        have hs₂ : SameUser z₁ (z₁.setPage idx (pageSetBusy (z₁.pages idx))) :=
          SameUser.setPage z₁ rfl fun bit hbit => pageTestBit_setBusy _ hbit
        exact (hs₁.trans hs₂).trans hsame

end Alloc

end AuOs
