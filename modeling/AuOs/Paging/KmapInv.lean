import Mathlib
import AuOs.Lib.Post
import AuOs.Lib.Segments
import AuOs.Paging.KmapRanges

/-!
# The invariant of the kmap ranges

* `kmapOrder_spec`, `kmapOrder_class` — the rounding of a request and the class of a free range.
* `KmapInv k l` — the slots are tiled by the segments of `l`.  Free and used segments carry their
  length in their first and last slot; free ones are linked in their class, used ones are linked to
  themselves; a `held` segment is in the hands of the running function, and nothing is known of its
  slots.
* `KmapInv.change` — one segment changes, the others are not touched.
* `KmapInv.unlink`, `KmapInv.hold`, `KmapInv.join`, `KmapInv.split`, `KmapInv.occupy`,
  `KmapInv.release` — the steps the functions are made of.
-/

set_option autoImplicit false

namespace AuOs

/-! ## Orders -/

theorem kmapOrderLoop_spec (pages : Nat) : ∀ (fuel order : Nat), order + fuel = KMAP_ORDERS →
    (∀ j < order, 2 ^ j < pages) →
    kmapOrderLoop pages fuel order ≤ KMAP_ORDERS ∧
      (∀ j < kmapOrderLoop pages fuel order, 2 ^ j < pages) ∧
      (kmapOrderLoop pages fuel order = KMAP_ORDERS ∨ pages ≤ 2 ^ kmapOrderLoop pages fuel order)
  | 0, order, hfuel, hlt => ⟨by simp [kmapOrderLoop]; omega, hlt, Or.inl hfuel⟩
  | fuel + 1, order, hfuel, hlt => by
    rw [kmapOrderLoop, Nat.one_shiftLeft]
    split
    · rename_i hcond
      refine kmapOrderLoop_spec pages fuel (order + 1) (by omega) fun j hj => ?_
      rcases Nat.lt_succ_iff_lt_or_eq.mp hj with hj | rfl
      · exact hlt j hj
      · exact hcond.1
    · rename_i hcond
      refine ⟨by omega, hlt, ?_⟩
      by_cases ho : order = KMAP_ORDERS
      · exact Or.inl ho
      · exact Or.inr (Nat.not_lt.mp fun h => hcond ⟨h, ho⟩)

/-- `kmap_order` is the least order whose power of two holds the pages, or `KMAP_ORDERS`. -/
theorem kmapOrder_spec (pages : Nat) :
    kmapOrder pages ≤ KMAP_ORDERS ∧ (∀ j < kmapOrder pages, 2 ^ j < pages) ∧
      (kmapOrder pages = KMAP_ORDERS ∨ pages ≤ 2 ^ kmapOrder pages) :=
  kmapOrderLoop_spec pages KMAP_ORDERS 0 (Nat.zero_add _) fun _ hj => absurd hj (Nat.not_lt_zero _)

/-- The class of a free range. -/
def kmapClass (pages : Nat) : Nat := min (Nat.log 2 pages) (KMAP_ORDERS - 1)

theorem kmapClass_lt (pages : Nat) : kmapClass pages < KMAP_ORDERS := by
  unfold kmapClass KMAP_ORDERS
  omega

theorem kmapOrder_class {pages : Nat} (h : 0 < pages) :
    kmapOrder (pages + 1) - 1 = kmapClass pages := by
  obtain ⟨hle, hlt, hge⟩ := kmapOrder_spec (pages + 1)
  have hpos : 0 < kmapOrder (pages + 1) := by
    rcases Nat.eq_zero_or_pos (kmapOrder (pages + 1)) with h0 | h0
    · rw [h0] at hge
      rcases hge with hge | hge
      · exact absurd hge (by decide)
      · omega
    · exact h0
  generalize kmapOrder (pages + 1) = o at *
  have hlow : 2 ^ (o - 1) ≤ pages := Nat.lt_succ_iff.mp (hlt (o - 1) (by omega))
  have hlog : o - 1 ≤ Nat.log 2 pages := (Nat.le_log_iff_pow_le (by decide) h.ne').mpr hlow
  unfold kmapClass
  rcases hge with rfl | hge
  · unfold KMAP_ORDERS at *
    omega
  · have hup : Nat.log 2 pages < o := (Nat.log_lt_iff_lt_pow (by decide) h.ne').mpr (by omega)
    omega

/-! ## Segments -/

/-- What a segment of slots is in use for. -/
inductive KmapState where
  | free
  | used
  | held
  deriving DecidableEq, Repr

abbrev KmapSeg := Seg KmapState

/-- The segments that were handed out. -/
def usedOf (l : List KmapSeg) : List KmapSeg := l.filter fun s => decide (s.tag = .used)

/-- No two free segments side by side. -/
abbrev NoFreePair (l : List KmapSeg) : Prop :=
  l.IsChain fun s t => ¬ (s.tag = .free ∧ t.tag = .free)

/-- The invariant, for the slots tiled by `l`. -/
structure KmapInv (k : KmapRanges) (l : List KmapSeg) : Prop where
  tiles : Seg.Tiles 0 KMAP_PAGES l
  first : ∀ s ∈ l, s.tag ≠ .held → (k.slots s.start).pages = s.len
  last : ∀ s ∈ l, s.tag ≠ .held → (k.slots (s.stop - 1)).pages = s.len
  own : ∀ s ∈ l, s.tag = .used → (k.slots s.start).ll = .self
  other : ∀ s ∈ l, s.tag = .free → (k.slots s.start).ll ≠ .self
  nodup : ∀ c, (k.free c).Nodup
  linked : ∀ c x, x ∈ k.free c ↔ ∃ s ∈ l, s.tag = .free ∧ s.start = x ∧ kmapClass s.len = c
  apart : NoFreePair l

variable {k k' : KmapRanges} {A B : List KmapSeg} {s t : KmapSeg}

theorem noFreePair_focus (hs : s.tag ≠ .free) :
    NoFreePair (A ++ s :: B) ↔ NoFreePair A ∧ NoFreePair B := by
  simp only [NoFreePair, List.isChain_append, List.isChain_cons, hs]
  grind

theorem noFreePair_free (hs : s.tag = .free) :
    NoFreePair (A ++ s :: B) ↔ NoFreePair A ∧ NoFreePair B ∧ (∀ t ∈ A.getLast?, t.tag ≠ .free) ∧
      ∀ t ∈ B.head?, t.tag ≠ .free := by
  simp only [NoFreePair, List.isChain_append, List.isChain_cons, hs]
  grind

theorem noFreePair_held : ∀ {A T : List KmapSeg}, T ≠ [] → (∀ s ∈ T, s.tag = .held) →
    (NoFreePair (A ++ (T ++ B)) ↔ NoFreePair A ∧ NoFreePair B)
  | A, [], h, _ => absurd rfl h
  | A, [t], _, hT => noFreePair_focus (by simp [hT t List.mem_cons_self])
  | A, t :: u :: T, _, hT => by
    have hrest := noFreePair_held (A := []) (T := u :: T) (by simp) fun s hs =>
      hT s (List.mem_cons_of_mem _ hs)
    rw [List.cons_append, noFreePair_focus (by simp [hT t List.mem_cons_self])]
    rw [List.nil_append] at hrest
    rw [hrest]
    simp [NoFreePair]

namespace KmapInv

theorem mem_of_rest (ht : t ∈ A ++ B) : t ∈ A ++ s :: B := by
  rcases List.mem_append.mp ht with ht | ht
  · exact List.mem_append_left _ ht
  · exact List.mem_append_right _ (List.mem_cons_of_mem _ ht)

theorem mem_focus : t ∈ A ++ s :: B ↔ t = s ∨ t ∈ A ++ B := by
  simp only [List.mem_append, List.mem_cons]
  tauto

/-- The segment is inside the array. -/
theorem bounds (h : KmapInv k (A ++ s :: B)) : 0 < s.len ∧ s.stop ≤ KMAP_PAGES :=
  (h.tiles.mem (List.mem_append_right _ List.mem_cons_self)).2

theorem start_lt (h : KmapInv k (A ++ s :: B)) : s.start < KMAP_PAGES := by
  have := h.bounds
  unfold Seg.stop at this
  omega

theorem linked_iff (h : KmapInv k (A ++ s :: B)) : k.linked s.start = true ↔ s.tag = .free := by
  simp only [KmapRanges.linked, List.any_eq_true, List.mem_range, decide_eq_true_eq, h.linked]
  constructor
  · rintro ⟨c, _, t, ht, hfree, hstart, _⟩
    rcases mem_focus.mp ht with rfl | ht
    · exact hfree
    · exact absurd hstart (h.tiles.eq_of_start ht)
  · intro hfree
    exact ⟨kmapClass s.len, kmapClass_lt _, s, mem_focus.mpr (Or.inl rfl), hfree, rfl, rfl⟩

/-- **One segment changes**, in its own slots and links. -/
theorem change (h : KmapInv k (A ++ s :: B)) (tag : KmapState)
    (hslots : ∀ x, x < s.start ∨ s.stop ≤ x → k'.slots x = k.slots x)
    (hmarks : tag ≠ .held →
      (k'.slots s.start).pages = s.len ∧ (k'.slots (s.stop - 1)).pages = s.len)
    (hown : tag = .used → (k'.slots s.start).ll = .self)
    (hother : tag = .free → (k'.slots s.start).ll ≠ .self) (hnodup : ∀ c, (k'.free c).Nodup)
    (hlinked : ∀ c x, x ∈ k'.free c ↔
      (tag = .free ∧ s.start = x ∧ kmapClass s.len = c) ∨ (x ∈ k.free c ∧ x ≠ s.start))
    (hapart : NoFreePair (A ++ { s with tag := tag } :: B)) :
    KmapInv k' (A ++ { s with tag := tag } :: B) := by
  have hpos := h.bounds.1
  have hrest : ∀ t ∈ A ++ B, k'.slots t.start = k.slots t.start ∧
      k'.slots (t.stop - 1) = k.slots (t.stop - 1) := by
    intro t ht
    have hlen := (h.tiles.mem (mem_of_rest (s := s) ht)).2.1
    have := h.tiles.apart ht
    unfold Seg.stop at *
    exact ⟨hslots _ (by omega), hslots _ (by omega)⟩
  refine ⟨Seg.tiles_retag.mp h.tiles, ?_, ?_, ?_, ?_, hnodup, ?_, hapart⟩
  · intro t ht htag
    rcases mem_focus.mp ht with rfl | ht
    · exact (hmarks htag).1
    · rw [(hrest t ht).1]
      exact h.first t (mem_of_rest ht) htag
  · intro t ht htag
    rcases mem_focus.mp ht with rfl | ht
    · exact (hmarks htag).2
    · rw [(hrest t ht).2]
      exact h.last t (mem_of_rest ht) htag
  · intro t ht htag
    rcases mem_focus.mp ht with rfl | ht
    · exact hown htag
    · rw [(hrest t ht).1]
      exact h.own t (mem_of_rest ht) htag
  · intro t ht htag
    rcases mem_focus.mp ht with rfl | ht
    · exact hother htag
    · rw [(hrest t ht).1]
      exact h.other t (mem_of_rest ht) htag
  · intro c x
    rw [hlinked, h.linked]
    constructor
    · rintro (⟨htag, hx, hc⟩ | ⟨⟨t, ht, hfree, hx, hc⟩, hne⟩)
      · exact ⟨_, mem_focus.mpr (Or.inl rfl), htag, hx, hc⟩
      · rcases mem_focus.mp ht with rfl | ht
        · exact absurd hx.symm hne
        · exact ⟨t, mem_of_rest ht, hfree, hx, hc⟩
    · rintro ⟨t, ht, hfree, hx, hc⟩
      rcases mem_focus.mp ht with rfl | ht
      · exact Or.inl ⟨hfree, hx, hc⟩
      · refine Or.inr ⟨⟨t, mem_of_rest ht, hfree, hx, hc⟩, ?_⟩
        rintro rfl
        exact h.tiles.eq_of_start ht hx

/-- `list_del` of a free segment. -/
theorem unlink (h : KmapInv k (A ++ s :: B)) (hs : s.tag = .free) :
    ∃ k', k.listDel s.start = .ok k' ∧ KmapInv k' (A ++ { s with tag := .held } :: B) ∧
      ∀ x, (k'.slots x).pages = (k.slots x).pages := by
  have hget : k.get s.start = .ok (k.slots s.start) := if_pos h.start_lt
  refine ⟨_, by rw [KmapRanges.listDel, hget, ok_bind, if_pos (h.linked_iff.mpr hs)]; rfl, ?_, ?_⟩
  · refine h.change .held ?_ (absurd rfl) nofun nofun ?_ ?_ ?_
    · intro x hx
      have := h.bounds.1
      refine Function.update_of_ne ?_ ..
      unfold Seg.stop at hx
      omega
    · exact fun c => (h.nodup c).erase _
    · intro c x
      rw [show (_ ∈ KmapRanges.free _ c) = (x ∈ (k.free c).erase s.start) from rfl,
        (h.nodup c).mem_erase_iff]
      simp [and_comm]
    · have := (noFreePair_free hs).mp h.apart
      exact (noFreePair_focus (by simp)).mpr ⟨this.1, this.2.1⟩
  · intro x
    by_cases hx : x = s.start
    · subst hx
      simp [KmapRanges.setLink]
    · simp [KmapRanges.setLink, hx]

/-- A used segment is given up. -/
theorem hold (h : KmapInv k (A ++ s :: B)) (hs : s.tag = .used) :
    KmapInv k (A ++ { s with tag := .held } :: B) := by
  refine h.change .held (fun _ _ => rfl) (absurd rfl) nofun nofun h.nodup ?_ ?_
  · intro c x
    have hnot : ∀ c, s.start ∉ k.free c := fun c hm => by
      obtain ⟨t, ht, hfree, hstart, _⟩ := (h.linked c _).mp hm
      rcases mem_focus.mp ht with rfl | ht
      · simp [hs] at hfree
      · exact h.tiles.eq_of_start ht hstart
    constructor
    · intro hx
      exact Or.inr ⟨hx, fun he => hnot c (he ▸ hx)⟩
    · rintro (⟨hf, _⟩ | hx)
      · cases hf
      · exact hx.1
  · have := (noFreePair_focus (by simp [hs])).mp h.apart
    exact (noFreePair_focus (by simp)).mpr this

/-- The segments in hand are cut in another way. -/
theorem recut {S T : List KmapSeg} (h : KmapInv k (A ++ (S ++ B))) (hS : ∀ s ∈ S, s.tag = .held)
    (hT : ∀ s ∈ T, s.tag = .held) (hS0 : S ≠ []) (hT0 : T ≠ [])
    (htiles : Seg.Tiles 0 KMAP_PAGES (A ++ (T ++ B))) : KmapInv k (A ++ (T ++ B)) := by
  have hold : ∀ {s}, s ∈ A ++ (T ++ B) → s.tag ≠ .held → s ∈ A ++ (S ++ B) := by
    intro s hs htag
    simp only [List.mem_append] at *
    have := hT s
    tauto
  have hnew : ∀ {s}, s ∈ A ++ (S ++ B) → s.tag ≠ .held → s ∈ A ++ (T ++ B) := by
    intro s hs htag
    simp only [List.mem_append] at *
    have := hS s
    tauto
  refine ⟨htiles, ?_, ?_, ?_, ?_, h.nodup, ?_, ?_⟩
  · exact fun s hs htag => h.first s (hold hs htag) htag
  · exact fun s hs htag => h.last s (hold hs htag) htag
  · exact fun s hs htag => h.own s (hold hs (by simp [htag])) htag
  · exact fun s hs htag => h.other s (hold hs (by simp [htag])) htag
  · intro c x
    rw [h.linked]
    constructor
    · rintro ⟨s, hs, htag, hx⟩
      exact ⟨s, hnew hs (by simp [htag]), htag, hx⟩
    · rintro ⟨s, hs, htag, hx⟩
      exact ⟨s, hold hs (by simp [htag]), htag, hx⟩
  · exact (noFreePair_held hT0 hT).mpr ((noFreePair_held hS0 hS).mp h.apart)

/-- Two neighbours in hand become one segment, -/
theorem join {start m n : Nat} (h : KmapInv k
    (A ++ ⟨start, m, .held⟩ :: ⟨start + m, n, .held⟩ :: B))
    (hm : 0 < m) (hn : 0 < n) : KmapInv k (A ++ ⟨start, m + n, .held⟩ :: B) :=
  h.recut (S := [⟨start, m, .held⟩, ⟨start + m, n, .held⟩]) (T := [⟨start, m + n, .held⟩]) (by simp)
    (by simp) (by simp) (by simp) ((Seg.tiles_merge hm hn).mp h.tiles)

/-- or one segment becomes two. -/
theorem split {start m n : Nat} (h : KmapInv k (A ++ ⟨start, m + n, .held⟩ :: B)) (hm : 0 < m)
    (hn : 0 < n) : KmapInv k (A ++ ⟨start, m, .held⟩ :: ⟨start + m, n, .held⟩ :: B) :=
  h.recut (S := [⟨start, m + n, .held⟩]) (T := [⟨start, m, .held⟩, ⟨start + m, n, .held⟩]) (by simp)
    (by simp) (by simp) (by simp) ((Seg.tiles_merge hm hn).mpr h.tiles)

/-- Nothing links to a segment in hand. -/
theorem not_linked (h : KmapInv k (A ++ s :: B)) (hs : s.tag = .held) (c : Nat) :
    s.start ∉ k.free c := by
  intro hm
  obtain ⟨t, ht, hfree, hstart, _⟩ := (h.linked c _).mp hm
  rcases mem_focus.mp ht with rfl | ht
  · simp [hs] at hfree
  · exact h.tiles.eq_of_start ht hstart

/-- `(range + pages - 1)->pages = range->pages = pages`, for a range inside the array. -/
theorem setPages_both {start n : Nat} (hn : 0 < n) (hle : start + n ≤ KMAP_PAGES) (k : KmapRanges) :
    ∃ k₁ k', k.setPages start n = .ok k₁ ∧ k₁.setPages (start + n - 1) n = .ok k' ∧
      k'.free = k.free ∧ (∀ x, x < start ∨ start + n ≤ x → k'.slots x = k.slots x) ∧
      (k'.slots start).pages = n ∧ (k'.slots (start + n - 1)).pages = n ∧
      ∀ x, (k'.slots x).ll = (k.slots x).ll := by
  refine ⟨_, _, if_pos (by omega), if_pos (by omega), rfl, ?_, ?_, ?_, ?_⟩
  · intro x hx
    have h1 : x ≠ start := by omega
    have h2 : x ≠ start + n - 1 := by omega
    simp [h1, h2]
  · by_cases h1 : start = start + n - 1
    · rw [← h1]
      simp
    · simp [h1]
  · simp
  · intro x
    by_cases h1 : x = start <;> by_cases h2 : x = start + n - 1
    · subst h1
      rw [← h2]
      simp
    · subst h1
      simp [h2]
    · subst h2
      simp [h1]
    · simp [h1, h2]

/-- A segment in hand is handed out: `list_init`, then its length is written to both ends. -/
theorem occupy (h : KmapInv k (A ++ s :: B)) (hs : s.tag = .held) :
    ∃ k₁ k', (k.listInit s.start).setPages s.start s.len = .ok k₁ ∧
      k₁.setPages (s.start + s.len - 1) s.len = .ok k' ∧
      KmapInv k' (A ++ { s with tag := .used } :: B) := by
  obtain ⟨hpos, hle⟩ := h.bounds
  obtain ⟨k₁, k', h₁, h', hfree, hout, hfirst, hlast, hll⟩ :=
    setPages_both hpos hle (k.listInit s.start)
  refine ⟨k₁, k', h₁, h', ?_⟩
  refine h.change .used ?_ (fun _ => ⟨hfirst, hlast⟩) ?_ nofun ?_ ?_ ?_
  · intro x hx
    rw [hout x hx]
    refine Function.update_of_ne ?_ ..
    unfold Seg.stop at hx
    omega
  · intro _
    rw [hll]
    simp [KmapRanges.listInit, KmapRanges.setLink]
  · rw [hfree]
    exact h.nodup
  · intro c x
    rw [hfree]
    constructor
    · intro hx
      exact Or.inr ⟨hx, fun he => h.not_linked hs c (he ▸ hx)⟩
    · rintro (⟨hf, _⟩ | hx)
      · cases hf
      · exact hx.1
  · have := (noFreePair_focus (by simp [hs])).mp h.apart
    exact (noFreePair_focus (by simp)).mpr this

/-- A segment in hand goes to its list, if its neighbours are not free. -/
theorem release (h : KmapInv k (A ++ s :: B)) (hs : s.tag = .held)
    (hA : ∀ t ∈ A.getLast?, t.tag ≠ .free) (hB : ∀ t ∈ B.head?, t.tag ≠ .free) :
    ∃ k₁ k₂ k', k.setPages s.start s.len = .ok k₁ ∧
      k₁.setPages (s.start + s.len - 1) s.len = .ok k₂ ∧
      k₂.listAdd s.start (kmapOrder (s.len + 1) - 1) = .ok k' ∧
      KmapInv k' (A ++ { s with tag := .free } :: B) := by
  obtain ⟨hpos, hle⟩ := h.bounds
  obtain ⟨k₁, k₂, h₁, h₂, hfree, hout, hfirst, hlast, hll⟩ := setPages_both hpos hle k
  have hnot : k₂.linked s.start = false := by
    rw [← Bool.not_eq_true, KmapRanges.linked, hfree, ← KmapRanges.linked, h.linked_iff, hs]
    simp
  rw [kmapOrder_class hpos]
  refine ⟨k₁, k₂, _, h₁, h₂, if_neg (by simp [hnot, kmapClass_lt]), ?_⟩
  refine h.change .free ?_ (fun _ => ⟨?_, ?_⟩) nofun ?_ ?_ ?_ ?_
  · intro x hx
    rw [← hout x hx]
    refine Function.update_of_ne ?_ ..
    unfold Seg.stop at hx
    omega
  · simpa [KmapRanges.setLink] using hfirst
  · by_cases heq : s.stop - 1 = s.start
    · rw [heq]
      simpa [KmapRanges.setLink] using hfirst
    · simp only [KmapRanges.setLink, Function.update_of_ne heq]
      exact hlast
  · intro _
    simp [KmapRanges.setLink]
  · intro c
    by_cases hc : c = kmapClass s.len
    · subst hc
      simp only [KmapRanges.setLink, Function.update_self, hfree]
      exact List.nodup_cons.mpr ⟨h.not_linked hs _, h.nodup _⟩
    · simp only [KmapRanges.setLink, Function.update_of_ne hc, hfree]
      exact h.nodup c
  · intro c x
    have hne : x ∈ k.free c → x ≠ s.start := fun hx he => h.not_linked hs c (he ▸ hx)
    by_cases hc : c = kmapClass s.len
    · subst hc
      simp only [KmapRanges.setLink, Function.update_self, hfree, List.mem_cons]
      constructor
      · rintro (rfl | hx)
        · simp
        · exact Or.inr ⟨hx, hne hx⟩
      · rintro (⟨_, rfl, _⟩ | hx)
        · exact Or.inl rfl
        · exact Or.inr hx.1
    · simp only [KmapRanges.setLink, Function.update_of_ne hc, hfree]
      constructor
      · intro hx
        exact Or.inr ⟨hx, hne hx⟩
      · rintro (⟨_, _, hx⟩ | hx)
        · exact absurd hx.symm hc
        · exact hx.1
  · have := (noFreePair_focus (by simp [hs])).mp h.apart
    exact (noFreePair_free rfl).mpr ⟨this.1, this.2, hA, hB⟩

end KmapInv

end AuOs
