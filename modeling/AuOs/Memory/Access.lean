import Mathlib
import AuOs.Memory.BuddyRun

/-!
# Page descriptors in the hands of their users

What `alloc.c` does with a `struct page *` besides allocating and freeing it.  A pointer to a
descriptor is the number of its page; it is dereferenced in the array of the zone that contains the
page.

* `pa`, `addrPage` — `pa` and `addr_page`.
* `pageDesc`, `updatePages` — reading a descriptor, and a loop that writes the descriptors
  `page[i]`.
* `Tagged` — what the users of a page stored in its descriptor: the bit `PAGE_CACHE_BIT` and the
  union.
* `KeepsBuddy` — writes that leave alone what belongs to the buddy allocator.
* `updatePages_spec` — **such writes keep the invariant of the zones** and change no other
  descriptor.
-/

set_option autoImplicit false

namespace AuOs

open DyadicTiling

def PAGE_CACHE_BIT : Nat := 0

/-- `pa`. -/
def pa (virt : Nat) : Nat := (virt + (WORD - HIGHER_BASE)) % WORD

/-- `addr_page`. -/
def addrPage (zones : List Zone) (addr : Nat) : Res Nat := do
  bugOn (addr % PAGE_SIZE ≠ 0) .addrUnaligned
  if zones.any fun zone => zone.contains (addr / PAGE_SIZE) then return addr / PAGE_SIZE
  else .error (.bug .addrNotFound)

/-- `*page`. -/
def pageDesc (zones : List Zone) (page : Nat) : Res Page := do
  let (_, desc) ← withZone page .fault (fun zone => return (zone, zone.pages page)) zones
  return desc

/-- The writes of `for (int i = 0; i != n; ++i)` to `page[i]`. -/
def updateLoop (f : Page → Page) (page n : Nat) (zone : Zone) : Res Zone :=
  (List.range n).foldlM (fun zone i => do
    zone.access (page + i)
    return zone.setPage (page + i) (f (zone.pages (page + i)))) zone

/-- The same, for the zone of the page. -/
def updatePages (f : Page → Page) (page n : Nat) (zones : List Zone) : Res (List Zone) := do
  let (zones, _) ← withZone page .fault (fun zone => do
    let zone ← updateLoop f page n zone
    return (zone, ())) zones
  return zones

/-- The order of a live block is one the allocator has a list for. -/
theorem ZonesInv.order_le {zones : List Zone} {M : Set Nat} {live : List Block}
    (h : ZonesInv zones M live) {b : Block} (hb : b ∈ live) : b.order ≤ MAX_ORDER := by
  obtain ⟨z, hz, hzb⟩ := h.live_in b hb
  exact (h.zone z hz).order_le b (List.mem_append_right _ (List.mem_filter.mpr ⟨hb, hzb⟩))

/-! ## Addresses -/

theorem pa_va {phys : Nat} (h : phys < WORD) : pa (va phys) = phys := by
  unfold pa va WORD HIGHER_BASE at *
  omega

/-- **`va` keeps addresses apart.** -/
theorem va_inj {a b : Nat} (ha : a < WORD) (hb : b < WORD) (h : va a = va b) : a = b := by
  rw [← pa_va ha, h, pa_va hb]

theorem va_lt (phys : Nat) : va phys < WORD := Nat.mod_lt _ (by decide)

theorem va_add (phys n : Nat) : (va phys + n) % WORD = va (phys + n) := by
  unfold va
  rw [Nat.mod_add_mod, Nat.add_right_comm]

theorem addrPage_eq {zones : List Zone} {page : Nat}
    (hz : ∃ zone ∈ zones, zone.contains page = true) :
    addrPage zones (page * PAGE_SIZE) = .ok page := by
  obtain ⟨zone, hzone, hc⟩ := hz
  have hdiv : page * PAGE_SIZE / PAGE_SIZE = page := Nat.mul_div_cancel _ (by decide)
  have hany : (zones.any fun zone => zone.contains page) = true :=
    List.any_eq_true.mpr ⟨zone, hzone, hc⟩
  rw [addrPage, bugOn_neg (not_not.mpr (Nat.mul_mod_left _ _)), ok_bind, hdiv, if_pos hany]
  rfl

/-! ## What the users store -/

/-- The user bit and the union of the page's descriptor. -/
def Tagged (zones : List Zone) (page : Nat) (cached : Bool) (u : PageU) : Prop :=
  ∀ zone ∈ zones, zone.contains page = true →
    pageTestBit (zone.pages page) PAGE_CACHE_BIT = cached ∧ (zone.pages page).u = u

theorem Tagged.sameUsers {zones zones' : List Zone} {page : Nat} {cached : Bool} {u : PageU}
    (h : Tagged zones page cached u) (hs : SameUsers zones zones') :
    Tagged zones' page cached u := by
  intro zone' hz' hc'
  obtain ⟨zone, hz, hsame⟩ := hs.exists_left hz'
  rw [hsame.u, hsame.bit _ _ (by decide)]
  rw [hsame.contains] at hc'
  exact h zone hz hc'

/-- **Reading a descriptor.** -/
theorem pageDesc_eq {zones : List Zone} {page : Nat} {cached : Bool} {u : PageU}
    (h : Tagged zones page cached u) (hz : ∃ zone ∈ zones, zone.contains page = true) :
    ∃ desc, pageDesc zones page = .ok desc ∧ pageTestBit desc PAGE_CACHE_BIT = cached ∧
    desc.u = u := by
  induction zones with
  | nil =>
    obtain ⟨zone, hzone, _⟩ := hz
    cases hzone
  | cons zone zones ih =>
    unfold pageDesc withZone
    by_cases hc : zone.contains page = true
    · rw [if_pos hc]
      exact ⟨zone.pages page, rfl, h zone List.mem_cons_self hc⟩
    · have hrest : ∃ z ∈ zones, z.contains page = true := by
        obtain ⟨z, hzm, hzc⟩ := hz
        rcases List.mem_cons.mp hzm with rfl | hzm
        · exact absurd hzc hc
        · exact ⟨z, hzm, hzc⟩
      obtain ⟨desc, hdesc, hread⟩ := ih (fun z hzm => h z (List.mem_cons_of_mem _ hzm)) hrest
      obtain ⟨p, hwith, hp⟩ := bind_eq_ok.mp hdesc
      refine ⟨desc, ?_, hread⟩
      rw [if_neg hc, hwith]
      exact hp

/-! ## Writing descriptors -/

/-- The write leaves the FREE flag and the order field alone. -/
def KeepsBuddy (f : Page → Page) : Prop :=
  ∀ desc, pageIsFree (f desc) = pageIsFree desc ∧ pageOrder (f desc) = pageOrder desc

/-- The zone with the descriptors from `page` to `page + n` rewritten. -/
def Zone.mapPages (zone : Zone) (f : Page → Page) (page n : Nat) : Zone :=
  { zone with pages := fun i => if page ≤ i ∧ i < page + n then f (zone.pages i) else zone.pages i }

theorem updateLoop_eq {zone : Zone} {f : Page → Page} {page n : Nat}
    (hc : ∀ i < n, zone.contains (page + i) = true) :
    updateLoop f page n zone = .ok (zone.mapPages f page n) := by
  unfold updateLoop
  induction n with
  | zero =>
    have hnone : zone.mapPages f page 0 = zone := by
      unfold Zone.mapPages
      congr 1
      funext i
      rw [if_neg (by omega)]
    rw [hnone]
    rfl
  | succ n ih =>
    have hin : (zone.mapPages f page n).contains (page + n) = true := hc n (Nat.lt_succ_self n)
    have hold : (zone.mapPages f page n).pages (page + n) = zone.pages (page + n) :=
      if_neg (by omega)
    rw [List.range_succ, List.foldlM_append, ih fun i hi => hc i (Nat.lt_succ_of_lt hi), ok_bind,
      List.foldlM_cons, Zone.access, if_pos hin, hold]
    refine congrArg Except.ok ?_
    unfold Zone.setPage Zone.mapPages
    congr 1
    funext i
    by_cases hi : i = page + n
    · rw [hi, Function.update_self, if_pos (by omega)]
    · rw [Function.update_of_ne hi]
      exact if_congr (by omega) rfl rfl

/-- The invariant of a zone does not depend on what the users store. -/
theorem ZoneInv.mapPages {zone : Zone} {M : Set Nat} {live held : List Block} {f : Page → Page}
    (h : ZoneInv zone M live held) (hf : KeepsBuddy f) (page n : Nat) :
    ZoneInv (zone.mapPages f page n) M live held := by
  have hfree : ∀ i, pageIsFree ((zone.mapPages f page n).pages i) = pageIsFree (zone.pages i) := by
    intro i
    unfold Zone.mapPages
    dsimp only
    split
    · exact (hf _).1
    · rfl
  have horder : ∀ i, pageOrder ((zone.mapPages f page n).pages i) = pageOrder (zone.pages i) := by
    intro i
    unfold Zone.mapPages
    dsimp only
    split
    · exact (hf _).2
    · rfl
  refine ⟨h.tiling, h.inside, h.order_le, ?_, ?_, ?_⟩
  · intro b hb
    rw [hfree, horder]
    exact h.free_desc b hb
  · intro b hb
    rw [hfree]
    exact h.live_busy b hb
  · intro i hi hM
    rw [hfree]
    exact h.wild_busy i hi hM

/-- **Writing the first descriptors of a live block.** -/
theorem updatePages_spec {zones : List Zone} {M : Set Nat} {live : List Block}
    {f : Page → Page} {b : Block}
    {n : Nat} (h : ZonesInv zones M live) (hb : b ∈ live) (hf : KeepsBuddy f)
    (hn : n ≤ 2 ^ b.order) :
    ∃ zones', updatePages f b.start n zones = .ok zones' ∧ ZonesInv zones' M live ∧
      (∀ cached u, (∀ desc, pageTestBit (f desc) PAGE_CACHE_BIT = cached ∧ (f desc).u = u) →
        ∀ i, b.start ≤ i → i < b.start + n → Tagged zones' i cached u) ∧
      ∀ i cached u, i ∉ b.cells → Tagged zones i cached u → Tagged zones' i cached u := by
  obtain ⟨z, hz, hzb⟩ := h.live_in b hb
  have hcells : ∀ i < n, z.contains (b.start + i) = true := fun i hi =>
    h.live_cells hz hb hzb ⟨Nat.le_add_right _ _, by omega⟩
  obtain ⟨l₁, l₂, rfl, hwith⟩ := withZone_spec .fault h hz hzb
    (f := fun zone => do
      let zone ← updateLoop f b.start n zone
      return (zone, ()))
    (by rw [updateLoop_eq hcells]; rfl)
  have hothers : ∀ y, y ∈ l₁ ∨ y ∈ l₂ → ∀ i, b.start ≤ i → i < b.start + n →
      y.contains i = false := by
    intro y hy i hle hlt
    have hi := hcells (i - b.start) (by omega)
    rw [Nat.add_sub_cancel' hle] at hi
    exact h.not_contains_of_split hy hi
  have hpages : ∀ i, (z.mapPages f b.start n).pages i =
      if b.start ≤ i ∧ i < b.start + n then f (z.pages i) else z.pages i := fun i => rfl
  refine ⟨_, by rw [updatePages, hwith]; rfl, ?_, ?_, ?_⟩
  · exact h.update (fun _ => rfl) ((h.zone z hz).mapPages hf _ _) (fun _ _ => Iff.rfl)
      (fun _ hc _ => hc) fun _ _ => List.Perm.refl _
  · intro cached u hfu i hle hlt y hy hyi
    have hycase : y = z.mapPages f b.start n ∨ (y ∈ l₁ ∨ y ∈ l₂) := by
      rw [List.mem_append, List.mem_cons] at hy
      tauto
    rcases hycase with rfl | hy
    · rw [hpages, if_pos ⟨hle, hlt⟩]
      exact hfu _
    · rw [hothers y hy i hle hlt] at hyi
      cases hyi
  · intro i cached u hi ht y hy hyi
    have hycase : y = z.mapPages f b.start n ∨ (y ∈ l₁ ∨ y ∈ l₂) := by
      rw [List.mem_append, List.mem_cons] at hy
      tauto
    have hout : ¬ (b.start ≤ i ∧ i < b.start + n) := fun hin => hi ⟨hin.1, by omega⟩
    rcases hycase with rfl | hy
    · rw [hpages, if_neg hout]
      exact ht z hz hyi
    · refine ht y ?_ hyi
      rw [List.mem_append, List.mem_cons]
      tauto

end AuOs
