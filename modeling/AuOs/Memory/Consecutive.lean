import Mathlib
import AuOs.Memory.BuddyRun

/-!
# The blocks of a released range

The loop of `__page_alloc_zone_free` on any zone, whatever its descriptors hold.

* `Consecutive` — blocks that follow one another from one page to another.
* `Appended` — the blocks were linked at the ends of the lists of their orders, and nothing else
  changed in the lists.
* `releaseLoop_blocks` — the induction over the loop: the test `page != end` is met exactly.
* `release_tiles` — **the loop ends, and its blocks tile the range**: each is aligned and as large
  as the range allows, and no two of them are buddies.
-/

set_option autoImplicit false

namespace AuOs

open DyadicTiling

/-- The blocks follow one another from `page` on and end at `end_`. -/
def Consecutive (end_ : Nat) : Nat → List Block → Prop
  | page, [] => page = end_
  | page, b :: blocks => b.start = page ∧ Consecutive end_ (page + 2 ^ b.order) blocks

/-- The blocks were linked at the ends of the lists, in this order. -/
def Appended (zone zone' : Zone) (blocks : List Block) : Prop :=
  ∀ k, zone'.order k = zone.order k ++ (blocks.filter fun b => decide (b.order = k)).map Block.start

/-- No larger block at this page is aligned and inside the range. -/
def MaximalBlock (end_ : Nat) (b : Block) : Prop :=
  ∀ k ≤ MAX_ORDER, 2 ^ k ∣ b.start → b.start + 2 ^ k ≤ end_ → k ≤ b.order

section Consecutive

variable {end_ page : Nat} {blocks : List Block}

theorem Consecutive.le (h : Consecutive end_ page blocks) : page ≤ end_ := by
  induction blocks generalizing page with
  | nil => exact Nat.le_of_eq h
  | cons b blocks ih => exact Nat.le_of_add_right_le (ih h.2)

/-- **Consecutive aligned blocks tile their range.** -/
theorem Consecutive.tiling (h : Consecutive end_ page blocks) (hal : ∀ b ∈ blocks, b.Aligned) :
    Tiling blocks {i | page ≤ i ∧ i < end_} := by
  induction blocks generalizing page with
  | nil =>
    have hempty : {i | page ≤ i ∧ i < end_} = ∅ := by
      ext i
      rw [show page = end_ from h]
      simp
    rw [hempty]
    exact Tiling.nil
  | cons b blocks ih =>
    obtain ⟨rfl, hrest⟩ := h
    have hle := hrest.le
    have htail := ih hrest fun c hc => hal c (List.mem_cons_of_mem _ hc)
    have hset : {i | b.start ≤ i ∧ i < end_} = b.cells ∪ {i | b.start + 2 ^ b.order ≤ i ∧
        i < end_} := by
      ext i
      simp only [Set.mem_ofPred_eq, Set.mem_union, Block.mem_cells]
      have hpos := Nat.two_pow_pos b.order
      omega
    rw [hset]
    apply htail.cons (hal b List.mem_cons_self)
    rw [Set.disjoint_left]
    intro i hi hi'
    exact Nat.not_le.mpr hi.2 hi'.1

/-- Every block lies inside the range. -/
theorem Consecutive.inside (h : Consecutive end_ page blocks) {b : Block} (hb : b ∈ blocks) :
    page ≤ b.start ∧ b.start + 2 ^ b.order ≤ end_ := by
  induction blocks generalizing page with
  | nil => cases hb
  | cons c blocks ih =>
    obtain ⟨rfl, hrest⟩ := h
    rcases List.mem_cons.mp hb with rfl | hb
    · exact ⟨Nat.le_refl _, hrest.le⟩
    · obtain ⟨hle, hend⟩ := ih hrest hb
      exact ⟨Nat.le_of_add_right_le hle, hend⟩

theorem Greedy.maximal {b : Block} (h : Greedy end_ b) : MaximalBlock end_ b := by
  intro k hk hdvd hend
  by_contra hlt
  have hpow : 2 ^ (b.order + 1) ≤ 2 ^ k := Nat.pow_le_pow_right (by decide) (by omega)
  have hgreedy := h (by omega) ((Nat.pow_dvd_pow 2 (by omega)).trans hdvd)
  omega

end Consecutive

/-! ## The loop -/

/-- Linking one block at the end of its list. -/
theorem link_appended {zone : Zone} {page order : Nat} (hin : zone.contains page = true)
    (hnew : zone.linked page = false) (ho : order ≤ MAX_ORDER) :
    ∃ zone', (listAddTail zone page order >>= fun z => markFree z page order) = .ok zone' ∧
      Appended zone zone' [⟨page, order⟩] ∧ (∀ i, zone'.contains i = zone.contains i) ∧
      ∀ i, i ≠ page → zone'.linked i = zone.linked i := by
  have ho' : order < 256 := ho.trans_lt max_order_lt
  refine ⟨(zone.setOrder order (zone.order order ++ [page])).setPage page
    (pageSetFree ((zone.pages page).withOrder order)), ?_, ?_, fun _ => rfl, ?_⟩
  · rw [listAddTail, hnew, if_neg Bool.false_ne_true, ok_bind, markFree, Zone.access,
      if_pos (show (zone.setOrder _ _).contains page = true from hin), ok_bind]
    show (pageSetOrder (zone.pages page) order >>= _) = _
    rw [pageSetOrder_ok _ ho']
    rfl
  · intro k
    show Function.update zone.order order (zone.order order ++ [page]) k = _
    by_cases hk : k = order
    · subst hk
      rw [Function.update_self]
      simp
    · rw [Function.update_of_ne hk]
      simp [Ne.symm hk]
  · intro i hi
    rw [Bool.eq_iff_iff, linked_iff, linked_iff]
    have hp := @freeList_setOrder zone page order _ ho (List.perm_append_singleton page _)
    constructor
    · rintro ⟨b, hb, rfl⟩
      rcases List.mem_cons.mp (hp.mem_iff.mp hb) with rfl | hb
      · exact absurd rfl hi
      · exact ⟨b, hb, rfl⟩
    · rintro ⟨b, hb, rfl⟩
      exact ⟨b, hp.mem_iff.mpr (List.mem_cons_of_mem _ hb), rfl⟩

theorem Appended.trans {z₁ z₂ z₃ : Zone} {b : Block} {blocks : List Block} (h : Appended z₁ z₂ [b])
    (h' : Appended z₂ z₃ blocks) : Appended z₁ z₃ (b :: blocks) := by
  intro k
  rw [h' k, h k, List.append_assoc, ← List.map_append, ← List.filter_append]
  rfl

/-- More fuel makes no difference to a loop that has enough. -/
theorem releaseLoop_fuel {end_ fuel fuel' page : Nat} {zone : Zone} (hle : page ≤ end_)
    (hf : end_ < fuel + page) (hf' : end_ < fuel' + page) :
    releaseLoop end_ fuel zone page = releaseLoop end_ fuel' zone page := by
  induction fuel generalizing fuel' page zone with
  | zero => omega
  | succ fuel ih =>
    cases fuel' with
    | zero => omega
    | succ fuel' =>
      unfold releaseLoop
      by_cases he : page = end_
      · rw [if_pos he, if_pos he]
      · obtain ⟨_, _, hend, _⟩ := releaseOrder_spec (MAX_ORDER + 1) 0 (by omega) (Nat.zero_le _)
          (one_dvd page) (by omega : page + 2 ^ 0 ≤ end_)
        have hpos := Nat.two_pow_pos (releaseOrder page end_ (MAX_ORDER + 1) 0)
        rw [if_neg he, if_neg he]
        refine bind_congr fun _ => bind_congr fun z₁ => bind_congr fun z₂ => ?_
        exact ih hend (by omega) (by omega)

/-- **The loop** links consecutive blocks that cannot grow.  The induction is on the pages that are
left. -/
theorem releaseLoop_blocks {end_ fuel page : Nat} {zone : Zone} (hle : page ≤ end_)
    (hf : end_ < fuel + page)
    (hpages : ∀ i, page ≤ i → i < end_ → zone.contains i = true ∧ zone.linked i = false) :
    ∃ zone' blocks, releaseLoop end_ fuel zone page = .ok zone' ∧ Appended zone zone' blocks ∧
      Consecutive end_ page blocks ∧ ∀ b ∈ blocks, b.order ≤ MAX_ORDER ∧ b.Aligned ∧
          Greedy end_ b := by
  induction fuel generalizing page zone with
  | zero => omega
  | succ fuel ih =>
    unfold releaseLoop
    by_cases he : page = end_
    · rw [if_pos he]
      refine ⟨zone, [], rfl, fun k => (List.append_nil _).symm, he, ?_⟩
      intro b hb
      cases hb
    · obtain ⟨ho, hd, hend, hgreedy⟩ := releaseOrder_spec (MAX_ORDER + 1) 0 (by omega)
        (Nat.zero_le _) (one_dvd page) (by omega : page + 2 ^ 0 ≤ end_)
      rw [if_neg he]
      simp only
      generalize releaseOrder page end_ (MAX_ORDER + 1) 0 = order at *
      have hpos := Nat.two_pow_pos order
      obtain ⟨hin, hnew⟩ := hpages page (Nat.le_refl _) (by omega)
      obtain ⟨z₁, hadd, happ, hcont, hlinked⟩ := link_appended hin hnew ho
      obtain ⟨zone', blocks, hloop, happ', hcons, hblocks⟩ :=
        @ih (page + 2 ^ order) z₁ hend (by omega) (by
        intro i hi hi'
        rw [hcont, hlinked i (by omega)]
        exact hpages i (by omega) hi')
      refine ⟨zone', ⟨page, order⟩ :: blocks, ?_, happ.trans happ', ⟨rfl, hcons⟩, ?_⟩
      · obtain ⟨z₂, hz₂, hz₁⟩ := bind_eq_ok.mp hadd
        rw [Zone.access, if_pos hin, ok_bind, hz₂, ok_bind, hz₁, ok_bind]
        exact hloop
      · intro b hb
        rcases List.mem_cons.mp hb with rfl | hb
        · exact ⟨ho, hd, hgreedy⟩
        · exact hblocks b hb

/-- **The blocks of a released range.**  For every zone and every range inside it none of whose
pages is linked, as the pages released before may be, the loop ends with any fuel above the number
of pages; it links consecutive blocks that tile the range, each aligned and maximal, and no two of
them are buddies of an order below `MAX_ORDER`. -/
theorem release_tiles (zone : Zone) (begin_ end_ : Nat) (hle : begin_ ≤ end_)
    (hpages : ∀ i, begin_ ≤ i → i < end_ → zone.contains i = true ∧ zone.linked i = false) :
    ∃ zone' blocks, (∀ fuel, end_ - begin_ < fuel → releaseLoop end_ fuel zone begin_ = .ok zone') ∧
      Appended zone zone' blocks ∧ Consecutive end_ begin_ blocks ∧
      Tiling blocks {i | begin_ ≤ i ∧ i < end_} ∧
      (∀ b ∈ blocks, b.order ≤ MAX_ORDER ∧ b.Aligned ∧ MaximalBlock end_ b) ∧
      ∀ b ∈ blocks, b.order < MAX_ORDER → b.buddy ∉ blocks := by
  obtain ⟨zone', blocks, hloop, happ, hcons, hblocks⟩ :=
    @releaseLoop_blocks end_ (end_ - begin_ + 1) begin_ zone hle (by omega) hpages
  have hal : ∀ b ∈ blocks, b.Aligned := fun b hb => (hblocks b hb).2.1
  refine ⟨zone', blocks, ?_, happ, hcons, hcons.tiling hal, ?_, ?_⟩
  · intro fuel hfuel
    rw [← hloop]
    exact releaseLoop_fuel hle (by omega) (by omega)
  · intro b hb
    obtain ⟨ho, hd, hg⟩ := hblocks b hb
    exact ⟨ho, hd, hg.maximal⟩
  · apply noBuddies_of_cut (List.pairwise_singleton _ (begin_, end_)) hal
    intro b hb
    obtain ⟨hstart, hend⟩ := hcons.inside hb
    exact ⟨_, List.mem_cons_self, hstart, hend, (hblocks b hb).2.2⟩

theorem release_tiles_three_to_eight :
    ∃ zone' blocks, (∀ fuel, 8 - 3 < fuel → releaseLoop 8 fuel (Zone.zeroed 1 9) 3 = .ok zone') ∧
      Appended (Zone.zeroed 1 9) zone' blocks ∧ Consecutive 8 3 blocks ∧
      Tiling blocks {i | 3 ≤ i ∧ i < 8} ∧
      (∀ b ∈ blocks, b.order ≤ MAX_ORDER ∧ b.Aligned ∧ MaximalBlock 8 b) ∧
      ∀ b ∈ blocks, b.order < MAX_ORDER → b.buddy ∉ blocks := by
  apply release_tiles (Zone.zeroed 1 9) 3 8 (by decide)
  intro i hi hi'
  have hin : (Zone.zeroed 1 9).contains i = true :=
    Zone.contains_iff.mpr ⟨show 1 ≤ i by omega, show i < 9 by omega⟩
  exact ⟨hin, by simp [Zone.linked, Zone.zeroed]⟩

end AuOs
