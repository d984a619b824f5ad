import Mathlib
import AuOs.Lib.CallSystem
import AuOs.Paging.Walk

/-!
# Page-table construction

Any number of `pt_map_pages` and `pt_populate_pages` calls on one `pml4` that was zero, each on
addresses that are not mapped.

* `PagePool.Yields` — a pool that gives so many fresh zeroed pages, one after the other.
* `ptCalls` — the calls; `ptCalls_keeps` says that the tables stay a tree.
* `pt_map_pages_translates` — what one more `pt_map_pages` does.  The user permission is always
  given: `user_always_given` is a mapping without `PTE_USER` that user mode can read.
-/

set_option autoImplicit false

namespace AuOs

variable {σ : Type}

/-- The pool gives this many fresh zeroed pages, whatever the tables hold by then. -/
def PagePool.Yields (pool : PagePool σ) : Nat → σ → Set Nat → Prop
  | 0, _, _ => True
  | k + 1, pages, used => ∀ mem, ∃ r, pool.get_page ⟨mem, pages⟩ = .ok r ∧
      Fresh used ⟨mem, pages⟩ r.2 r.1 ∧ Yields pool k r.2.pages (insert r.1 used)

/-- No more pages than this go into the tables below one `pml4`. -/
def treePages : Nat := 512 * entryPages 3

theorem PagePool.Yields.mono {pool : PagePool σ} : ∀ {k k' : Nat} {pages : σ} {used : Set Nat},
    k' ≤ k → pool.Yields k pages used → pool.Yields k' pages used
  | _, 0, _, _, _, _ => trivial
  | 0, k' + 1, _, _, h, _ => absurd h (by omega)
  | k + 1, k' + 1, _, _, h, hy => fun mem => by
    obtain ⟨r, hget, hnew, hrest⟩ := hy mem
    exact ⟨r, hget, hnew, hrest.mono (Nat.le_of_succ_le_succ h)⟩

theorem PagePool.poolOk (pool : PagePool σ) : PoolOk (some pool) (fun _ => False) pool.Yields where
  mono := PagePool.Yields.mono
  get p hp k s used h := by
    obtain rfl := Option.some.inj hp
    obtain ⟨r, hget, hnew, hrest⟩ := h s.mem
    exact Post.of_ok ⟨r, hget, hnew, hrest⟩

/-! ## The calls -/

/-- The two functions that change the tables. -/
inductive PtCall where
  | map (begin_ end_ phys : Nat) (flags : Pte)
  | populate (begin_ end_ : Nat)

/-- The range is not mapped yet, and the pool can serve the call. -/
structure PtLegal (pool : PagePool σ) (pml4 : Nat) (s : Paging σ)
    (begin_ end_ phys : Nat) : Prop where
  range : PageRange begin_ end_ phys
  unmapped : ∀ v, begin_ ≤ v → v ≤ lastAddr end_ → translate s.mem pml4 v = none
  yields : pool.Yields treePages s.pages (pageTable.tables s.mem 4 pml4)

/-- The calls on one `pml4`, with one pool. -/
def ptCalls (pool : PagePool σ) (pml4 : Nat) : CallSystem (Paging σ) PtCall Stop where
  legal s
    | .map begin_ end_ phys flags =>
      PtLegal pool pml4 s begin_ end_ phys ∧ flags &&& PTE_PHYS_MASK = 0
    | .populate begin_ end_ => PtLegal pool pml4 s begin_ end_ 0
  exec s
    | .map begin_ end_ phys flags => ptMapPages pml4 begin_ end_ phys flags (some pool) s
    | .populate begin_ end_ => ptPopulatePages pml4 begin_ end_ (some pool) s

variable {pool : PagePool σ} {pml4 begin_ end_ phys : Nat} {flags : Pte} {s s₀ : Paging σ}

theorem PtLegal.ready (h : PtLegal pool pml4 s begin_ end_ phys)
    (htree : pageTable.Tree s.mem 4 pml4) :
    MapReady (some pool) pool.Yields (0 + 512 * entryPages 3) 3 pml4 begin_ (lastAddr end_)
      (pageTable.tables s.mem 4 pml4) s where
  tree := htree
  sub := Set.Subset.rfl
  supply := by
    rw [Nat.zero_add]
    exact h.yields
  free := h.unmapped
  built := nofun

/-- **The tables stay a tree**, and no call stops. -/
theorem ptCalls_keeps (pool : PagePool σ) (pml4 : Nat) :
    (ptCalls pool pml4).Keeps (fun _ => False) fun s => pageTable.Tree s.mem 4 pml4 := by
  intro s c htree hlegal
  cases c with
  | map begin_ end_ phys flags =>
    obtain ⟨hl, hf⟩ := hlegal
    refine (ptMapPages_spec pool.poolOk hf hl.range (hl.ready htree)).mono ?_
    rintro s' ⟨fresh, hd⟩
    exact hd.remap.tree
  | populate begin_ end_ =>
    refine (ptPopulatePages_spec pool.poolOk hlegal.range (hlegal.ready htree)).mono ?_
    rintro s' ⟨fresh, hd⟩
    exact hd.remap.tree

/-- A zeroed `pml4` has no tables below it. -/
theorem tree_of_zeroed {mem : PageTables} (h : ∀ i, mem pml4 i = 0) :
    pageTable.Tree mem 4 pml4 := by
  have habsent : ∀ i, pageTable.decode 4 (mem pml4 i) = .absent := fun i => by
    rw [h i]
    exact (@pteSlot_absent 4 0).mpr (by decide)
  constructor
  · intro i c hc
    exact nomatch (habsent i).symm.trans hc
  · intro i j c d _ hc
    exact nomatch (habsent i).symm.trans hc

/-- **Page-table construction.** -/
theorem pt_map_pages_translates (hzero : ∀ i, s₀.mem pml4 i = 0)
    (hrun : (ptCalls pool pml4).Run s₀ s)
    (hlegal : (ptCalls pool pml4).legal s (.map begin_ end_ phys flags)) :
    ∃ s', ptMapPages pml4 begin_ end_ phys flags (some pool) s = .ok s' ∧
      (∀ v, begin_ ≤ v → v ≤ lastAddr end_ →
        translate s'.mem pml4 v = some ⟨phys + (v - begin_),
          decide (flags &&& PTE_WRITE ≠ 0), true⟩) ∧
      ∀ v, Canonical v → ¬ (begin_ ≤ v ∧ v ≤ lastAddr end_) →
        translate s'.mem pml4 v = translate s.mem pml4 v := by
  have htree := (ptCalls_keeps pool pml4).run (tree_of_zeroed hzero) hrun
  obtain ⟨hl, hf⟩ := hlegal
  obtain ⟨s', hexec, fresh, hd⟩ :=
    (ptMapPages_spec pool.poolOk hf hl.range (hl.ready htree)).returns
  refine ⟨s', hexec, ?_, fun v hv hout => hd.translate_outside hl.range hv hout⟩
  intro v hbv hve
  rw [hd.translate_inside hl.range hbv hve]
  exact mapTarget_user ..

/-! ## A machine with its first pages -/

/-- A pool that takes one page after the other. -/
def bumpPool : PagePool Nat where
  get_page s :=
    .ok (s.pages * PAGE_SIZE, { s.clear (s.pages * PAGE_SIZE) with pages := s.pages + 1 })

/-- The pages from `next` on are free, and there are `k` of them. -/
structure BumpLeft (k next : Nat) (used : Set Nat) : Prop where
  enough : k + next ≤ 2 ^ 40
  pos : 0 < next
  below : ∀ x ∈ used, x < next * 4096

theorem BumpLeft.mono {k k' next : Nat} {used used' : Set Nat}
    (h : BumpLeft k next used) (hk : k' ≤ k) (hsub : used' ⊆ used) : BumpLeft k' next used' :=
  ⟨(Nat.add_le_add_right hk next).trans h.enough, h.pos, fun x hx => h.below x (hsub hx)⟩

/-- The next page. -/
theorem BumpLeft.get {k next : Nat} {used : Set Nat} (h : BumpLeft (k + 1) next used)
    (mem : PageTables) :
    ∃ r, bumpPool.get_page ⟨mem, next⟩ = .ok r ∧ Fresh used ⟨mem, next⟩ r.2 r.1 ∧
      BumpLeft k r.2.pages (insert r.1 used) := by
  obtain ⟨hk, h0, hused⟩ := h
  have hfresh : Fresh used ⟨mem, next⟩ ⟨Function.update mem (next * 4096) fun _ => 0, next + 1⟩
      (next * 4096) := by
    refine ⟨⟨by omega, by omega, by omega⟩, fun hm => (hused _ hm).false, fun i => ?_,
      fun x hx => ?_⟩
    · simp
    · exact Function.update_of_ne hx ..
  have hrest : BumpLeft k (next + 1) (insert (next * 4096) used) := by
    refine ⟨by omega, by omega, ?_⟩
    rintro x (rfl | hx)
    · omega
    · exact (hused x hx).trans (by omega)
  exact ⟨_, rfl, hfresh, hrest⟩

theorem bumpPool_yields : ∀ {k next : Nat} {used : Set Nat}, BumpLeft k next used →
    bumpPool.Yields k next used
  | 0, _, _, _ => trivial
  | _ + 1, _, _, h => fun mem => by
    obtain ⟨r, hget, hfresh, hrest⟩ := h.get mem
    exact ⟨r, hget, hfresh, bumpPool_yields hrest⟩

theorem bumpPool_ok : PoolOk (some bumpPool) (fun _ => False) BumpLeft where
  mono hk h := h.mono hk Set.Subset.rfl
  get p hp k s used h := by
    obtain rfl := Option.some.inj hp
    exact Post.of_ok (h.get s.mem)

/-- All memory is zero, page 1 is the `pml4`, the pages from page 2 on are free. -/
def blankPaging : Paging Nat := ⟨fun _ _ => 0, 2⟩

theorem blankPaging_absent (i : Nat) : pageTable.decode 4
    (blankPaging.mem PAGE_SIZE i) = .absent := by
  have h : blankPaging.mem PAGE_SIZE i = 0 := rfl
  rw [h]
  exact (@pteSlot_absent 4 0).mpr (by decide)

theorem blankPaging_none (v : Nat) : translate blankPaging.mem PAGE_SIZE v = none :=
  Radix.walk_absent (blankPaging_absent _)

theorem blankPaging_left {k : Nat} (hk : k + 2 ≤ 2 ^ 40) :
    BumpLeft k blankPaging.pages (pageTable.tables blankPaging.mem 4 PAGE_SIZE) := by
  refine ⟨hk, by decide, ?_⟩
  rintro x (rfl | ⟨i, c, hc, _⟩)
  · decide
  · exact nomatch (blankPaging_absent i).symm.trans hc

theorem blankPaging_legal (hr : PageRange begin_ end_ phys) (hf : flags &&& PTE_PHYS_MASK = 0) :
    (ptCalls bumpPool PAGE_SIZE).legal blankPaging (.map begin_ end_ phys flags) :=
  ⟨⟨hr, fun v _ _ => blankPaging_none v, bumpPool_yields (blankPaging_left (by decide))⟩, hf⟩

/-- The first call leaves a tree, and pages for a second one. -/
theorem blankPaging_map (hr : PageRange begin_ end_ phys) (hf : flags &&& PTE_PHYS_MASK = 0) :
    ∃ s, ptMapPages PAGE_SIZE begin_ end_ phys flags (some bumpPool) blankPaging = .ok s ∧
      (∀ v, begin_ ≤ v → v ≤ lastAddr end_ →
        translate s.mem PAGE_SIZE v = some ⟨phys + (v - begin_),
          decide (flags &&& PTE_WRITE ≠ 0), true⟩) ∧
      (∀ v, Canonical v → ¬ (begin_ ≤ v ∧ v ≤ lastAddr end_) → translate s.mem PAGE_SIZE v = none) ∧
      bumpPool.Yields treePages s.pages (pageTable.tables s.mem 4 PAGE_SIZE) := by
  have hready : MapReady (some bumpPool) BumpLeft (treePages + 512 * entryPages 3) 3
      PAGE_SIZE begin_ (lastAddr end_) (pageTable.tables blankPaging.mem 4 PAGE_SIZE) blankPaging :=
    ⟨tree_of_zeroed fun _ => rfl, Set.Subset.rfl, blankPaging_left (by decide),
      fun v _ _ => blankPaging_none v, nofun⟩
  obtain ⟨s, hexec, fresh, hd⟩ := (ptMapPages_spec bumpPool_ok hf hr hready).returns
  refine ⟨s, hexec, ?_, ?_, bumpPool_yields (hd.supply.mono le_rfl hd.remap.tables)⟩
  · intro v hbv hve
    rw [hd.translate_inside hr hbv hve]
    exact mapTarget_user ..
  · intro v hv hout
    rw [hd.translate_outside hr hv hout]
    exact blankPaging_none v

/-- A page, and then a range with a large page between two small ones. -/
theorem pt_map_pages_translates_blank : ∃ s s',
    ptMapPages PAGE_SIZE 0x1000 0x2000 0x5000 PTE_WRITE (some bumpPool) blankPaging = .ok s ∧
    ptMapPages PAGE_SIZE 0x1ff000 0x401000 0x5ff000 0 (some bumpPool) s = .ok s' ∧
    translate s'.mem PAGE_SIZE 0x1000 = some ⟨0x5000, true, true⟩ ∧
    translate s'.mem PAGE_SIZE 0x1ff000 = some ⟨0x5ff000, false, true⟩ ∧
    translate s'.mem PAGE_SIZE 0x300000 = some ⟨0x700000, false, true⟩ ∧
    translate s'.mem PAGE_SIZE 0x401000 = none := by
  have hr : PageRange 0x1000 0x2000 0x5000 :=
    ⟨rfl, rfl, by decide, by decide, Or.inl (by decide), rfl, by decide⟩
  have hr' : PageRange 0x1ff000 0x401000 0x5ff000 :=
    ⟨rfl, rfl, by decide, by decide, Or.inl (by decide), rfl, by decide⟩
  have hflags : PTE_WRITE &&& PTE_PHYS_MASK = 0 := by decide
  obtain ⟨s, hexec, hin₁, hout₁, hyields⟩ := blankPaging_map hr hflags
  have hrun : (ptCalls bumpPool PAGE_SIZE).Run blankPaging s :=
    .single ⟨.map 0x1000 0x2000 0x5000 PTE_WRITE, blankPaging_legal hr hflags, hexec⟩
  have hfree : ∀ v, 0x1ff000 ≤ v → v ≤ lastAddr 0x401000 → translate s.mem PAGE_SIZE v = none := by
    intro v h1 h2
    rw [show lastAddr 0x401000 = 0x400fff from rfl] at h2
    refine hout₁ v (Or.inl (by omega)) ?_
    rw [show lastAddr 0x2000 = 0x1fff from rfl]
    omega
  have hlegal : (ptCalls bumpPool PAGE_SIZE).legal s (.map 0x1ff000 0x401000 0x5ff000 0) :=
    ⟨⟨hr', hfree, hyields⟩, (by decide : (0 : Pte) &&& PTE_PHYS_MASK = 0)⟩
  obtain ⟨s', hexec', hin, hout⟩ := pt_map_pages_translates (fun _ => rfl) hrun hlegal
  refine ⟨s, s', hexec, hexec', ?_, hin _ le_rfl (by decide), hin _ (by decide) (by decide), ?_⟩
  · rw [hout 0x1000 (Or.inl (by decide)) (by decide)]
    exact hin₁ 0x1000 le_rfl (by decide)
  · rw [hout 0x401000 (Or.inl (by decide)) (by decide)]
    exact hout₁ 0x401000 (Or.inl (by decide)) (by decide)

/-- A page that was mapped without `PTE_USER` is open to user mode. -/
theorem user_always_given : (ptCalls bumpPool PAGE_SIZE).legal blankPaging (.map 0 PAGE_SIZE 0 0) ∧
    (0 : Pte) &&& PTE_USER = 0 ∧
    ∃ s', ptMapPages PAGE_SIZE 0 PAGE_SIZE 0 0 (some bumpPool) blankPaging = .ok s' ∧
      translate s'.mem PAGE_SIZE 0 = some ⟨0, false, true⟩ := by
  have hr : PageRange 0 PAGE_SIZE 0 :=
    ⟨rfl, rfl, by decide, by decide, Or.inl (by decide), rfl, by decide⟩
  have hflags : (0 : Pte) &&& PTE_PHYS_MASK = 0 := by decide
  obtain ⟨s', hexec, hin, _, _⟩ := blankPaging_map hr hflags
  exact ⟨blankPaging_legal hr hflags, by decide, s', hexec, hin 0 le_rfl (by decide)⟩

end AuOs
