import Mathlib
import AuOs.Memory.Setup

/-!
# Addresses of page descriptors

The rest of the model names a `struct page *` by the number of its page.  Here the pointers are
addresses, as they are in `page_zone`, which finds the zone of a descriptor by subtracting pointers
into unrelated arrays.

* `ZoneAt` — a zone and the address of its array `pages`.
* `pageDiff`, `sizeT` — `page - zone->pages`, and the cast of the signed difference to `size_t`.
* `pageZone`, `pageAddrAt`, `addrPageAt` — `page_zone`, `page_addr` and `addr_page`.
* `pageAllocRawAt`, `pageAllocAt` — `__page_alloc` and `page_alloc`, each with its own loop.
* `ArraysOk` — what the zones have to satisfy: no page and no byte of an array belongs to two of
  them.
* `pageZone_desc` — **`page_zone` finds the zone of a descriptor**, wherever it stands in the list.
* `descriptors_correct` — the two translations are inverse, and `page_alloc` is `page_addr` of
  `__page_alloc`.
-/

set_option autoImplicit false

namespace AuOs

/-- A zone and the address of `zone->pages[0]`. -/
structure ZoneAt where
  zone : Zone
  pages : Nat

/-- `page - zone->pages`: the signed difference of the addresses in units of a descriptor. -/
def pageDiff (page pages : Nat) : Int := Int.bmod (page - pages) WORD / SIZEOF_PAGE

/-- `(size_t)d`. -/
def sizeT (d : Int) : Nat := (d % WORD).toNat

namespace ZoneAt

/-- `zone->end - zone->begin`, a `size_t`. -/
def count (z : ZoneAt) : Nat := (z.zone.end_ + WORD - z.zone.begin_) % WORD

/-- `&zone->pages[idx - zone->begin]`. -/
def desc (z : ZoneAt) (idx : Nat) : Nat := (z.pages + SIZEOF_PAGE * (idx - z.zone.begin_)) % WORD

/-- `(zone->begin + (page - zone->pages)) << PAGE_SHIFT`. -/
def addr (z : ZoneAt) (page : Nat) : Nat :=
  ((z.zone.begin_ + sizeT (pageDiff page z.pages)) % WORD) <<< PAGE_SHIFT % WORD

end ZoneAt

/-- `page_zone`. -/
def pageZone : List ZoneAt → Nat → Res ZoneAt
  | [], _ => .error (.bug .orphanPage)
  | zone :: zones, page =>
    if sizeT (pageDiff page zone.pages) < zone.count then .ok zone else pageZone zones page

/-- `page_addr`. -/
def pageAddrAt (zones : List ZoneAt) (page : Nat) : Res Nat := do
  let zone ← pageZone zones page
  return zone.addr page

/-- The loop of `addr_page`. -/
def addrPageLoop (page : Nat) : List ZoneAt → Res Nat
  | [] => .error (.bug .addrNotFound)
  | zone :: zones =>
    if page < zone.zone.begin_ ∨ page ≥ zone.zone.end_ then addrPageLoop page zones
    else .ok (zone.desc page)

/-- `addr_page`. -/
def addrPageAt (zones : List ZoneAt) (addr : Nat) : Res Nat := do
  bugOn (addr % PAGE_SIZE ≠ 0) .addrUnaligned
  addrPageLoop (addr / PAGE_SIZE) zones

/-- `page_alloc_zone`. -/
def pageAllocZoneAt (z : ZoneAt) (order : Nat) : Res (ZoneAt × Option Nat) := do
  let (zone, page) ← pageAllocZone z.zone order
  return ({ z with zone := zone }, page.map z.desc)

/-- The loop of `__page_alloc`. -/
def allocRawLoop (order : Nat) : List ZoneAt → Res (List ZoneAt × Option Nat)
  | [] => .ok ([], none)
  | zone :: zones => do
    let (zone, page) ← pageAllocZoneAt zone order
    match page with
    | some page => return (zone :: zones, some page)
    | none =>
      let (zones, page) ← allocRawLoop order zones
      return (zone :: zones, page)

/-- `__page_alloc`. -/
def pageAllocRawAt (zones : List ZoneAt) (order : Nat) : Res (List ZoneAt × Option Nat) :=
  if order > MAX_ORDER then .ok (zones, none) else allocRawLoop order zones

/-- The loop of `page_alloc`. -/
def allocAddrLoop (order : Nat) : List ZoneAt → Res (List ZoneAt × Nat)
  | [] => .ok ([], 0)
  | zone :: zones => do
    let (zone, page) ← pageAllocZoneAt zone order
    match page with
    | none =>
      let (zones, addr) ← allocAddrLoop order zones
      return (zone :: zones, addr)
    | some page => return (zone :: zones, zone.addr page)

/-- `page_alloc`. -/
def pageAllocAt (zones : List ZoneAt) (order : Nat) : Res (List ZoneAt × Nat) :=
  if order > MAX_ORDER then .ok (zones, 0) else allocAddrLoop order zones

/-! ## Zones with arrays in memory -/

/-- The array lies in memory, and the pages of the zone in the address space: the zone setup shifts
`begin` and `end` out of addresses. -/
structure ZoneAt.Ok (z : ZoneAt) : Prop where
  ordered : z.zone.begin_ ≤ z.zone.end_
  pages : z.zone.end_ * PAGE_SIZE ≤ WORD
  array : z.pages + SIZEOF_PAGE * (z.zone.end_ - z.zone.begin_) ≤ WORD

/-- The address is that of a byte of the array. -/
def ZoneAt.inArray (z : ZoneAt) (a : Nat) : Prop :=
  z.pages ≤ a ∧ a < z.pages + SIZEOF_PAGE * (z.zone.end_ - z.zone.begin_)

/-- Two zones share no page and no byte of their arrays, and a descriptor of one is a whole number
of descriptors away from the other. -/
structure ZoneAt.Apart (z z' : ZoneAt) : Prop where
  pages : ∀ i, z.zone.contains i = true → z'.zone.contains i = false
  array : ∀ a, z.inArray a → ¬ z'.inArray a
  congruent : z.pages % SIZEOF_PAGE = z'.pages % SIZEOF_PAGE

/-- The zones in the list. -/
structure ArraysOk (zones : List ZoneAt) : Prop where
  zone : ∀ z ∈ zones, z.Ok
  apart : zones.Pairwise ZoneAt.Apart

section Arrays

variable {z z' : ZoneAt} {zones : List ZoneAt} {idx page : Nat}

theorem ZoneAt.Apart.symm (h : z.Apart z') : z'.Apart z where
  pages := by
    intro i hi
    rw [← Bool.not_eq_true]
    intro hi'
    rw [h.pages i hi'] at hi
    cases hi
  array := fun a ha ha' => h.array a ha' ha
  congruent := h.congruent.symm

theorem ZoneAt.Ok.count_eq (h : z.Ok) : z.count = z.zone.end_ - z.zone.begin_ := by
  have hle := h.ordered
  have hpages := h.pages
  unfold ZoneAt.count WORD PAGE_SIZE PAGE_SHIFT at *
  omega

theorem ZoneAt.Ok.desc_eq (h : z.Ok) (hi : z.zone.contains idx = true) :
    z.desc idx = z.pages + SIZEOF_PAGE * (idx - z.zone.begin_) := by
  obtain ⟨hb, he⟩ := Zone.contains_iff.mp hi
  have harray := h.array
  apply Nat.mod_eq_of_lt
  unfold SIZEOF_PAGE at *
  omega

theorem ZoneAt.Ok.inArray_desc (h : z.Ok) (hi : z.zone.contains idx = true) :
    z.inArray (z.desc idx) := by
  obtain ⟨hb, he⟩ := Zone.contains_iff.mp hi
  rw [ZoneAt.inArray, h.desc_eq hi]
  unfold SIZEOF_PAGE
  omega

/-- **The test of `page_zone`** is true exactly for the bytes of the array, among the addresses that
are a whole number of descriptors away. -/
theorem ZoneAt.Ok.test_iff (h : z.Ok) (hp : page < WORD)
    (hc : page % SIZEOF_PAGE = z.pages % SIZEOF_PAGE) :
    sizeT (pageDiff page z.pages) < z.count ↔ z.inArray page := by
  have hle := h.ordered
  have hpages := h.pages
  have harray := h.array
  rw [h.count_eq, ZoneAt.inArray, sizeT, pageDiff, Int.bmod_def]
  unfold SIZEOF_PAGE WORD PAGE_SIZE PAGE_SHIFT at *
  omega

/-- The difference of a descriptor and the array of its zone. -/
theorem ZoneAt.Ok.sizeT_desc (h : z.Ok) (hi : z.zone.contains idx = true) :
    sizeT (pageDiff (z.desc idx) z.pages) = idx - z.zone.begin_ := by
  obtain ⟨hb, he⟩ := Zone.contains_iff.mp hi
  have hpages := h.pages
  have harray := h.array
  rw [h.desc_eq hi, sizeT, pageDiff, Int.bmod_def]
  unfold SIZEOF_PAGE WORD PAGE_SIZE PAGE_SHIFT at *
  omega

theorem ZoneAt.Ok.addr_desc (h : z.Ok) (hi : z.zone.contains idx = true) :
    z.addr (z.desc idx) = idx * PAGE_SIZE := by
  obtain ⟨hb, he⟩ := Zone.contains_iff.mp hi
  have hpages := h.pages
  rw [ZoneAt.addr, h.sizeT_desc hi, Nat.add_sub_cancel' hb, Nat.shiftLeft_eq]
  unfold WORD PAGE_SIZE PAGE_SHIFT at *
  omega

/-- **`page_zone`** finds the zone of a descriptor. -/
theorem pageZone_desc (h : ArraysOk zones) (hz : z ∈ zones) (hi : z.zone.contains idx = true) :
    pageZone zones (z.desc idx) = .ok z := by
  obtain ⟨hok, hap⟩ := h
  induction zones with
  | nil => cases hz
  | cons z' zones ih =>
    have hlt : z.desc idx < WORD := Nat.mod_lt _ (by decide)
    obtain ⟨hap', hap⟩ := List.pairwise_cons.mp hap
    have hzok := hok z hz
    have hmod : z.desc idx % SIZEOF_PAGE = z.pages % SIZEOF_PAGE := by
      rw [hzok.desc_eq hi, Nat.add_mul_mod_self_left]
    rw [pageZone]
    rcases List.mem_cons.mp hz with rfl | hz
    · exact if_pos ((hzok.test_iff hlt hmod).mpr (hzok.inArray_desc hi))
    · have hapart := hap' z hz
      have htest := (hok z' List.mem_cons_self).test_iff hlt (hmod.trans hapart.congruent.symm)
      rw [if_neg fun ht => hapart.array _ (htest.mp ht) (hzok.inArray_desc hi)]
      exact ih hz (fun z hz => hok z (List.mem_cons_of_mem _ hz)) hap

theorem pageAddrAt_desc (h : ArraysOk zones) (hz : z ∈ zones) (hi : z.zone.contains idx = true) :
    pageAddrAt zones (z.desc idx) = .ok (idx * PAGE_SIZE) := by
  rw [pageAddrAt, pageZone_desc h hz hi, ok_bind, (h.zone z hz).addr_desc hi]
  rfl

/-- **`addr_page`** finds the descriptor of an address. -/
theorem addrPageAt_mul (h : ArraysOk zones) (hz : z ∈ zones) (hi : z.zone.contains idx = true) :
    addrPageAt zones (idx * PAGE_SIZE) = .ok (z.desc idx) := by
  have hmod : ¬ idx * PAGE_SIZE % PAGE_SIZE ≠ 0 := not_not.mpr (Nat.mul_mod_left _ _)
  rw [addrPageAt, bugOn_neg hmod, ok_bind, Nat.mul_div_cancel _ (by decide)]
  obtain ⟨-, hap⟩ := h
  induction zones with
  | nil => cases hz
  | cons z' zones ih =>
    obtain ⟨hap', hap⟩ := List.pairwise_cons.mp hap
    rw [addrPageLoop]
    rcases List.mem_cons.mp hz with rfl | hz
    · obtain ⟨hb, he⟩ := Zone.contains_iff.mp hi
      exact if_neg (by omega)
    · have hout : z'.zone.contains idx = false := (hap' z hz).symm.pages idx hi
      have hno : idx < z'.zone.begin_ ∨ idx ≥ z'.zone.end_ := by
        have := Zone.contains_iff.not.mp (Bool.not_eq_true _ ▸ hout)
        omega
      rw [if_pos hno]
      exact ih hz hap

end Arrays

/-! ## Allocation -/

section Alloc

variable {zone zone' : Zone} {zones : List ZoneAt} {idx order page : Nat}

/-- The bounds of a zone, which no function writes. -/
def SameBounds (zone zone' : Zone) : Prop := zone'.begin_ = zone.begin_ ∧ zone'.end_ = zone.end_

theorem SameBounds.contains (h : SameBounds zone zone') (i : Nat) :
    zone'.contains i = zone.contains i := by
  rw [Zone.contains, Zone.contains, h.1, h.2]

theorem SameBounds.trans {z₁ z₂ z₃ : Zone} (h : SameBounds z₁ z₂) (h' : SameBounds z₂ z₃) :
    SameBounds z₁ z₃ :=
  ⟨h'.1.trans h.1, h'.2.trans h.2⟩

theorem listAdd_bounds : Post (listAdd zone page order) (fun _ => True) (SameBounds zone) := by
  unfold listAdd
  split
  · exact trivial
  · exact ⟨rfl, rfl⟩

theorem listDel_bounds : Post (listDel zone page) (fun _ => True) (SameBounds zone) := by
  unfold listDel
  split
  · exact ⟨rfl, rfl⟩
  · exact trivial

theorem markFree_bounds : Post (markFree zone page order) (fun _ => True) (SameBounds zone) := by
  unfold markFree
  refine Post.any.bind fun _ _ => Post.any.bind fun _ _ => ?_
  exact ⟨rfl, rfl⟩

theorem splitLoop_bounds (idx order : Nat) : ∀ {current : Nat} {zone : Zone},
    Post (splitLoop zone idx order current) (fun _ => True) (SameBounds zone) := by
  intro current
  induction current with
  | zero =>
    intro zone
    unfold splitLoop
    split
    · exact ⟨rfl, rfl⟩
    · exact trivial
  | succ current ih =>
    intro zone
    unfold splitLoop
    split
    · exact ⟨rfl, rfl⟩
    · refine Post.any.bind fun _ _ => ?_
      apply listAdd_bounds.bind
      intro z₁ h₁
      apply markFree_bounds.bind
      intro z₂ h₂
      exact ih.mono fun z₃ h₃ => h₁.trans (h₂.trans h₃)

/-- The page that `__page_alloc_zone` returns belongs to the zone, whatever the state of the zone
is. -/
theorem pageAllocZone_bounds : Post (pageAllocZone zone order) (fun _ => True)
    fun p => SameBounds zone p.1 ∧ ∀ idx, p.2 = some idx → zone.contains idx = true := by
  unfold pageAllocZone
  simp only
  split
  · refine ⟨⟨rfl, rfl⟩, ?_⟩
    intro idx h
    cases h
  · refine Post.any.bind fun _ _ => ?_
    split
    · exact trivial
    · have haccess : ∀ idx, Post (zone.access idx) (fun _ => True) fun _ =>
        zone.contains idx = true := by
        intro idx
        unfold Zone.access
        split
        · assumption
        · exact trivial
      apply (haccess _).bind
      intro _ hin
      apply listDel_bounds.bind
      intro z₁ h₁
      apply (splitLoop_bounds _ _).bind
      intro z₂ h₂
      refine ⟨h₁.trans h₂, ?_⟩
      intro idx hidx
      obtain rfl := Option.some.inj hidx
      exact hin

/-- The array stays where it is, with the bounds of the zone. -/
def SameArray (z z' : ZoneAt) : Prop := SameBounds z.zone z'.zone ∧ z'.pages = z.pages

theorem SameArray.refl (z : ZoneAt) : SameArray z z := ⟨⟨rfl, rfl⟩, rfl⟩

theorem SameArray.desc {z z' : ZoneAt} (h : SameArray z z') (idx : Nat) :
    z'.desc idx = z.desc idx := by
  rw [ZoneAt.desc, ZoneAt.desc, h.1.1, h.2]

theorem SameArray.ok {z z' : ZoneAt} (h : SameArray z z') (hz : z.Ok) : z'.Ok := by
  obtain ⟨⟨hb, he⟩, hp⟩ := h
  refine ⟨?_, ?_, ?_⟩
  · rw [hb, he]
    exact hz.ordered
  · rw [he]
    exact hz.pages
  · rw [hb, he, hp]
    exact hz.array

theorem SameArray.apart {z z' w w' : ZoneAt} (h : SameArray z z') (h' : SameArray w w')
    (hz : z.Apart w) : z'.Apart w' := by
  refine ⟨?_, ?_, ?_⟩
  · intro i
    rw [h.1.contains, h'.1.contains]
    exact hz.pages i
  · intro a
    unfold ZoneAt.inArray
    rw [h.1.1, h.1.2, h.2, h'.1.1, h'.1.2, h'.2]
    exact hz.array a
  · rw [h.2, h'.2]
    exact hz.congruent

theorem SameArray.exists_left {zones' : List ZoneAt} (hs : List.Forall₂ SameArray zones zones') :
    ∀ z' ∈ zones', ∃ z ∈ zones, SameArray z z' := by
  induction hs with
  | nil =>
    intro z' hz'
    cases hz'
  | cons h hs ih =>
    intro z' hz'
    rcases List.mem_cons.mp hz' with rfl | hz'
    · exact ⟨_, List.mem_cons_self, h⟩
    · obtain ⟨z, hz, hsame⟩ := ih z' hz'
      exact ⟨z, List.mem_cons_of_mem _ hz, hsame⟩

theorem ArraysOk.same {zones' : List ZoneAt} (h : ArraysOk zones)
    (hs : List.Forall₂ SameArray zones zones') : ArraysOk zones' := by
  obtain ⟨hok, hap⟩ := h
  refine ⟨?_, ?_⟩
  · intro z' hz'
    obtain ⟨z, hz, hsame⟩ := SameArray.exists_left hs z' hz'
    exact hsame.ok (hok z hz)
  · clear hok
    induction hs with
    | nil => exact List.Pairwise.nil
    | cons hsame hs ih =>
      obtain ⟨hhead, htail⟩ := List.pairwise_cons.mp hap
      refine List.pairwise_cons.mpr ⟨?_, ih htail⟩
      intro w' hw'
      obtain ⟨w, hw, hsame'⟩ := SameArray.exists_left hs w' hw'
      exact hsame.apart hsame' (hhead w hw)

theorem pageAllocZoneAt_bounds {z : ZoneAt} : Post (pageAllocZoneAt z order) (fun _ => True)
    fun p => SameArray z p.1 ∧
      ∀ page, p.2 = some page → ∃ idx, p.1.zone.contains idx = true ∧ page = p.1.desc idx := by
  unfold pageAllocZoneAt
  apply pageAllocZone_bounds.bind
  rintro ⟨zone', page⟩ ⟨hb, hp⟩
  have hsame : SameArray z { z with zone := zone' } := ⟨hb, rfl⟩
  refine ⟨hsame, ?_⟩
  intro desc hdesc
  obtain ⟨idx, hidx, rfl⟩ := Option.map_eq_some_iff.mp hdesc
  exact ⟨idx, (hb.contains idx).trans (hp idx hidx), (hsame.desc idx).symm⟩

/-- What the two loops return: the same zones, and the address of the page of the other. -/
structure SameBlock (zones : List ZoneAt) (p : List ZoneAt × Nat)
    (q : List ZoneAt × Option Nat) : Prop where
  list : p.1 = q.1
  same : List.Forall₂ SameArray zones q.1
  null : q.2 = none → p.2 = 0
  page : ∀ page, q.2 = some page →
    ∃ z ∈ q.1, ∃ idx, z.zone.contains idx = true ∧ page = z.desc idx ∧ p.2 = z.addr page

/-- **The two loops** take the same steps. -/
theorem allocLoops_alike : ∀ (zones : List ZoneAt),
    Alike (allocAddrLoop order zones) (allocRawLoop order zones) (SameBlock zones) := by
  intro zones
  induction zones with
  | nil =>
    refine ⟨rfl, List.Forall₂.nil, fun _ => rfl, ?_⟩
    intro page h
    cases h
  | cons z zones ih =>
    unfold allocAddrLoop allocRawLoop
    apply (Alike.of_post pageAllocZoneAt_bounds).bind
    rintro ⟨z', page⟩ _ ⟨rfl, hsame, hpage⟩
    cases page with
    | none =>
      apply ih.bind
      rintro ⟨zones₁, addr⟩ ⟨zones₂, page⟩ ⟨hlist, hrest, hnull, hfound⟩
      obtain rfl : zones₁ = zones₂ := hlist
      refine ⟨rfl, List.Forall₂.cons hsame hrest, hnull, ?_⟩
      intro desc hdesc
      obtain ⟨w, hw, hidx⟩ := hfound desc hdesc
      exact ⟨w, List.mem_cons_of_mem _ hw, hidx⟩
    | some desc =>
      have hrest : List.Forall₂ SameArray zones zones := List.forall₂_same.mpr fun w _ =>
        SameArray.refl w
      refine ⟨rfl, List.Forall₂.cons hsame hrest, ?_, ?_⟩
      · intro h
        cases h
      · intro desc' hdesc
        obtain rfl := Option.some.inj hdesc
        obtain ⟨idx, hidx, hd⟩ := hpage desc rfl
        exact ⟨z', List.mem_cons_self, idx, hidx, hd, rfl⟩

/-- **`page_alloc`** returns the address of the page that `__page_alloc` returns. -/
theorem pageAllocAt_eq (h : ArraysOk zones) (order : Nat) :
    pageAllocAt zones order = (do
      let (zones, page) ← pageAllocRawAt zones order
      match page with
      | none => return (zones, 0)
      | some page =>
        let addr ← pageAddrAt zones page
        return (zones, addr)) := by
  unfold pageAllocAt pageAllocRawAt
  by_cases ho : order > MAX_ORDER
  · rw [if_pos ho, if_pos ho]
    rfl
  · rw [if_neg ho, if_neg ho]
    have halike : Alike (allocAddrLoop order zones) _ _ := allocLoops_alike zones
    cases hraw : allocRawLoop order zones with
    | error e =>
      rw [hraw] at halike
      cases haddr : allocAddrLoop order zones with
      | error e' =>
        rw [haddr] at halike
        exact congrArg Except.error halike
      | ok p =>
        rw [haddr] at halike
        exact halike.elim
    | ok q =>
      rw [hraw] at halike
      cases haddr : allocAddrLoop order zones with
      | error e =>
        rw [haddr] at halike
        exact halike.elim
      | ok p =>
        rw [haddr] at halike
        obtain ⟨hlist, hsame, hnull, hpage⟩ := halike
        obtain ⟨zones₁, addr⟩ := p
        obtain ⟨zones₂, page⟩ := q
        obtain rfl : zones₁ = zones₂ := hlist
        rw [ok_bind]
        cases page with
        | none =>
          obtain rfl : addr = 0 := hnull rfl
          rfl
        | some desc =>
          obtain ⟨z, hz, idx, hidx, rfl, ha⟩ := hpage desc rfl
          obtain rfl : addr = z.addr (z.desc idx) := ha
          have hok := h.same hsame
          simp only [pageAddrAt_desc hok hz hidx, (hok.zone z hz).addr_desc hidx,
            ok_bind, pure_eq_ok]

/-- **Descriptors and addresses.**  For every list of such zones, `addr_page` undoes `page_addr` on
the descriptors and `page_addr` undoes `addr_page` on the addresses of the pages; `page_alloc`
returns the address of the page that `__page_alloc` returns, 0 for null, and leaves the same
zones. -/
theorem descriptors_correct (zones : List ZoneAt) (h : ArraysOk zones) :
    (∀ z ∈ zones, ∀ idx, z.zone.contains idx = true →
      (pageAddrAt zones (z.desc idx) >>= addrPageAt zones) = .ok (z.desc idx)) ∧
    (∀ z ∈ zones, ∀ addr, addr % PAGE_SIZE = 0 → z.zone.contains (addr / PAGE_SIZE) = true →
      (addrPageAt zones addr >>= pageAddrAt zones) = .ok addr) ∧
    ∀ order, pageAllocAt zones order = (do
      let (zones, page) ← pageAllocRawAt zones order
      match page with
      | none => return (zones, 0)
      | some page =>
        let addr ← pageAddrAt zones page
        return (zones, addr)) := by
  refine ⟨?_, ?_, pageAllocAt_eq h⟩
  · intro z hz idx hi
    rw [pageAddrAt_desc h hz hi]
    exact addrPageAt_mul h hz hi
  · intro z hz addr hmod hi
    have haddr : addr / PAGE_SIZE * PAGE_SIZE = addr :=
      Nat.div_mul_cancel (Nat.dvd_of_mod_eq_zero hmod)
    have hpage := addrPageAt_mul h hz hi
    rw [haddr] at hpage
    rw [hpage, ok_bind, pageAddrAt_desc h hz hi, haddr]

/-- Two zones; the array of the second stands below that of the first. -/
def twoArrays : List ZoneAt := [⟨Zone.zeroed 1 9, 8192⟩, ⟨Zone.zeroed 16 24, 4096⟩]

theorem twoArrays_ok : ArraysOk twoArrays where
  zone := by
    intro z hz
    rcases List.mem_cons.mp hz with rfl | hz
    · exact ⟨by decide, by decide, by decide⟩
    · rw [List.mem_singleton.mp hz]
      exact ⟨by decide, by decide, by decide⟩
  apart := by
    apply List.pairwise_pair.mpr
    refine ⟨?_, ?_, rfl⟩
    · intro i hi
      obtain ⟨_, hlt⟩ := Zone.contains_iff.mp hi
      apply decide_eq_false
      simp only [Zone.zeroed] at hlt ⊢
      omega
    · rintro a ⟨hle, _⟩ ⟨_, hlt⟩
      simp only [Zone.zeroed, SIZEOF_PAGE] at hle hlt
      omega

theorem descriptors_correct_twoArrays :
    (pageAddrAt twoArrays 4128 >>= addrPageAt twoArrays) = .ok 4128 ∧
    (addrPageAt twoArrays 32768 >>= pageAddrAt twoArrays) = .ok 32768 := by
  obtain ⟨hdesc, haddr, _⟩ := descriptors_correct twoArrays twoArrays_ok
  have hz : ⟨Zone.zeroed 16 24, 4096⟩ ∈ twoArrays := List.mem_cons_of_mem _ List.mem_cons_self
  have h1 : (pageAddrAt twoArrays 4128 >>= addrPageAt twoArrays) = .ok 4128 :=
    hdesc _ hz 17 (by decide)
  exact ⟨h1, haddr ⟨Zone.zeroed 1 9, 8192⟩ List.mem_cons_self 32768 (by decide) (by decide)⟩

end Alloc

end AuOs
