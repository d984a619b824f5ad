import Mathlib
import AuOs.Slab.Realloc

/-!
# Runs of the heap

`mem_alloc`, `mem_free`, `mem_realloc` and `mem_alloc_shrink` in any order, from `mem_alloc_setup`
on.

* `HeapState` — the heap and, as a ghost component, the pointers that were returned and not yet
  freed.
* `heapCalls` — the calls; `mem_free` and `mem_realloc` only get such a pointer, or 0.
* `HeapOk` — the invariant of a run; `heapCalls_keeps`: **every legal call returns** and keeps it.
* `BlockSafe`, `HeapSafe` — what it says about the bytes of a block and of all live blocks.
* `heap_safety` — the result for every run from boot on.
-/

set_option autoImplicit false

namespace AuOs

namespace Slab

open DyadicTiling

/-- The heap and the blocks in the hands of their users. -/
structure HeapState where
  heap : Heap
  live : List Nat

inductive HeapCall where
  | alloc (size : Nat)
  | free (ptr : Nat)
  | realloc (ptr size : Nat)
  | shrink

/-- The calls of the heap. -/
def heapCalls : CallSystem HeapState HeapCall Stop where
  legal s
    | .alloc _ => True
    | .free ptr => ptr = 0 ∨ ptr ∈ s.live
    | .realloc ptr _ => ptr = 0 ∨ ptr ∈ s.live
    | .shrink => True
  exec s
    | .alloc size => do
      let (h, ptr) ← memAlloc s.heap size
      return ⟨h, if ptr = 0 then s.live else ptr :: s.live⟩
    | .free ptr => do
      let h ← memFree s.heap ptr
      return ⟨h, s.live.erase ptr⟩
    | .realloc ptr size => do
      let (h, new) ← memRealloc s.heap ptr size
      return ⟨h, if new = 0 then s.live else new :: s.live.erase ptr⟩
    | .shrink => do
      let h ← memAllocShrink s.heap
      return { s with heap := h }

/-- The invariant of a run: the live pointers are distinct blocks. -/
def HeapOk (M : Set Nat) (foreign : List Block) (s : HeapState) : Prop :=
  ∃ slabs bigs, HeapInv memSpecs M slabs bigs foreign s.heap ∧
    (∀ c < MEM_POOLS, s.heap.caches c ≠ none) ∧
    s.live.Nodup ∧ ∀ p ∈ s.live, p ≠ 0 ∧ ∃ n, BlockOf slabs bigs s.heap p n

section Run

variable {M : Set Nat} {foreign : List Block} {s : HeapState}

/-- **`mem_alloc`** in a run. -/
theorem alloc_step (h : HeapOk M foreign s) (size : Nat) :
    ∃ h' ptr, memAlloc s.heap size = .ok (h', ptr) ∧
      HeapOk M foreign ⟨h', if ptr = 0 then s.live else ptr :: s.live⟩ := by
  obtain ⟨slabs, bigs, hi, hset, hnodup, hlive⟩ := h
  obtain ⟨h', ptr, slabs', bigs', halloc, hi', hrest, hkeep, hnew⟩ := memAlloc_spec hi hset size
  have hkept : ∀ p ∈ s.live, p ≠ 0 ∧ ∃ n, BlockOf slabs' bigs' h' p n := by
    intro p hp
    obtain ⟨hp0, n, hn⟩ := hlive p hp
    exact ⟨hp0, n, hkeep p n hn⟩
  refine ⟨h', ptr, halloc, slabs', bigs', hi', fun c hc => hrest.ready (hset c hc), ?_⟩
  by_cases h0 : ptr = 0
  · simp only [if_pos h0]
    exact ⟨hnodup, hkept⟩
  · obtain ⟨⟨n, hblock, _⟩, hfresh⟩ := hnew h0
    simp only [if_neg h0]
    refine ⟨List.nodup_cons.mpr ⟨?_, hnodup⟩, ?_⟩
    · intro hmem
      obtain ⟨_, m, hm⟩ := hlive ptr hmem
      exact hfresh m hm
    · intro p hp
      rcases List.mem_cons.mp hp with rfl | hp
      · exact ⟨h0, n, hblock⟩
      · exact hkept p hp

/-- **`mem_free`** in a run. -/
theorem free_step {ptr : Nat} (h : HeapOk M foreign s) (hptr : ptr = 0 ∨ ptr ∈ s.live) :
    ∃ h', memFree s.heap ptr = .ok h' ∧ HeapOk M foreign ⟨h', s.live.erase ptr⟩ := by
  obtain ⟨slabs, bigs, hi, hset, hnodup, hlive⟩ := h
  by_cases h0 : ptr = 0
  · have hout : ptr ∉ s.live := fun hmem => (hlive ptr hmem).1 h0
    rw [List.erase_of_not_mem hout, memFree, if_pos h0]
    exact ⟨s.heap, rfl, slabs, bigs, hi, hset, hnodup, hlive⟩
  · obtain ⟨_, n, hblock⟩ := hlive ptr (hptr.resolve_left h0)
    obtain ⟨h', bigs', hfree, hi', hrest, hkeep, _⟩ := memFree_spec hi hblock h0
    refine ⟨h', hfree, slabs, bigs', hi', fun c hc => hrest.ready (hset c hc), hnodup.erase ptr, ?_⟩
    intro p hp
    obtain ⟨hne, hmem⟩ := hnodup.mem_erase_iff.mp hp
    obtain ⟨hp0, m, hm⟩ := hlive p hmem
    exact ⟨hp0, m, hkeep p m hne hm⟩

/-- **`mem_realloc`** in a run. -/
theorem realloc_step {ptr : Nat} (h : HeapOk M foreign s)
    (hptr : ptr = 0 ∨ ptr ∈ s.live) (size : Nat) :
    ∃ h' new, memRealloc s.heap ptr size = .ok (h', new) ∧
      HeapOk M foreign ⟨h', if new = 0 then s.live else new :: s.live.erase ptr⟩ := by
  by_cases h0 : ptr = 0
  · obtain ⟨h', new, halloc, hok⟩ := alloc_step h size
    have hout : ptr ∉ s.live := by
      obtain ⟨_, _, _, _, _, hlive⟩ := h
      exact fun hmem => (hlive ptr hmem).1 h0
    refine ⟨h', new, ?_, ?_⟩
    · rw [memRealloc, if_pos h0, halloc]
    · rwa [List.erase_of_not_mem hout]
  · obtain ⟨slabs, bigs, hi, hset, hnodup, hlive⟩ := h
    have hmem := hptr.resolve_left h0
    obtain ⟨_, n, hblock⟩ := hlive ptr hmem
    rcases memRealloc_spec hi hset h0 hblock size with ⟨_, hres⟩ | ⟨h', slabs', bigs', hres, hi',
      hrest, hkeep⟩ | ⟨h', new, n', slabs', bigs', hres, hi', _, _, hmoves⟩
    · refine ⟨s.heap, ptr, hres, slabs, bigs, hi, hset, ?_⟩
      have hperm := (List.perm_cons_erase hmem).symm
      simp only [if_neg h0]
      refine ⟨hperm.nodup_iff.mpr hnodup, ?_⟩
      intro p hp
      exact hlive p (hperm.mem_iff.mp hp)
    · refine ⟨h', 0, hres, slabs', bigs', hi', fun c hc => hrest.ready (hset c hc), hnodup, ?_⟩
      intro p hp
      obtain ⟨hp0, m, hm⟩ := hlive p hp
      exact ⟨hp0, m, hkeep p m hm⟩
    · refine ⟨h', new, hres, slabs', bigs', hi', fun c hc => hmoves.ready c (hset c hc), ?_⟩
      simp only [if_neg hmoves.nonzero]
      refine ⟨List.nodup_cons.mpr ⟨?_, hnodup.erase ptr⟩, ?_⟩
      · intro hin
        obtain ⟨_, m, hm⟩ := hlive new (List.mem_of_mem_erase hin)
        exact hmoves.fresh m hm
      · intro p hp
        rcases List.mem_cons.mp hp with rfl | hp
        · exact ⟨hmoves.nonzero, n', hmoves.block⟩
        · obtain ⟨hne, hin⟩ := hnodup.mem_erase_iff.mp hp
          obtain ⟨hp0, m, hm⟩ := hlive p hin
          exact ⟨hp0, m, (hmoves.others p m hne hm).1⟩

/-- **One call.** -/
theorem heapCalls_step {call : HeapCall} (h : HeapOk M foreign s) (hc : heapCalls.legal s call) :
    ∃ s', heapCalls.exec s call = .ok s' ∧ HeapOk M foreign s' := by
  cases call with
  | alloc size =>
    obtain ⟨h', ptr, halloc, hok⟩ := alloc_step h size
    refine ⟨_, ?_, hok⟩
    simp only [heapCalls, halloc, ok_bind, pure_eq_ok]
  | free ptr =>
    obtain ⟨h', hfree, hok⟩ := free_step h hc
    refine ⟨_, ?_, hok⟩
    simp only [heapCalls, hfree, ok_bind, pure_eq_ok]
  | realloc ptr size =>
    obtain ⟨h', new, hrealloc, hok⟩ := realloc_step h hc size
    refine ⟨_, ?_, hok⟩
    simp only [heapCalls, hrealloc, ok_bind, pure_eq_ok]
  | shrink =>
    obtain ⟨slabs, bigs, hi, hset, hnodup, hlive⟩ := h
    obtain ⟨h', slabs', hshrink, hi', hrest, hkeep⟩ := memAllocShrink_spec hi hset
    refine ⟨⟨h', s.live⟩, ?_, slabs', bigs, hi', fun c hc => hrest.ready (hset c hc), hnodup, ?_⟩
    · simp only [heapCalls, hshrink, ok_bind, pure_eq_ok]
    · intro p hp
      obtain ⟨hp0, m, hm⟩ := hlive p hp
      exact ⟨hp0, m, hkeep p m hm⟩

/-- **Every legal call returns** and keeps the invariant. -/
theorem heapCalls_keeps (M : Set Nat) (foreign : List Block) :
    heapCalls.Keeps (fun _ => False) (HeapOk M foreign) := by
  intro s call h hc
  exact Post.of_ok (heapCalls_step h hc)

/-! ## What holds in every state -/

/-- The `n` bytes from `ptr` on are a block: it is aligned, `mem_realloc` finds its size, and its
bytes belong to no header of a pool and to no page in a list of the page allocator. -/
structure BlockSafe (h : Heap) (ptr n : Nat) : Prop where
  aligned : 64 ∣ ptr
  size : memSize h ptr = .ok n
  inside : ptr + n ≤ WORD
  headers : ∀ c cache a, h.caches c = some cache → cache.linked a = true →
    Disjoint (span ptr n) (span a (metaSize cache.layout.objCount))
  free : ∀ zone ∈ h.zones, ∀ b ∈ freeList zone, ∀ i ∈ b.cells,
    Disjoint (span ptr n) (span (va (i * PAGE_SIZE)) PAGE_SIZE)

/-- The live blocks are safe, and no two of them share a byte. -/
structure HeapSafe (s : HeapState) : Prop where
  nodup : s.live.Nodup
  blocks : ∀ p ∈ s.live, ∃ n, BlockSafe s.heap p n
  disjoint : ∀ p ∈ s.live, ∀ q ∈ s.live, p ≠ q → ∀ n m, memSize s.heap p = .ok n →
    memSize s.heap q = .ok m → Disjoint (span p n) (span q m)

theorem BlockOf.safe {slabs : List PoolAt} {bigs : List Block} {h : Heap} {p n : Nat}
    (hi : HeapInv memSpecs M slabs bigs foreign h) (hb : BlockOf slabs bigs h p n) :
    BlockSafe h p n where
  aligned := hb.dvd hi (fun _ => show _ = 2 ^ 6 from rfl) (by decide)
  size := memSize_eq hi hb
  inside := hb.le hi
  headers := by
    intro c cache a hc ha
    obtain ⟨k, hk⟩ := Cache.linked_iff.mp ha
    obtain ⟨t, ht, rfl, rfl, _⟩ := (hi.lists c cache hc k a).mp hk
    rw [hi.layout_eq ht hc]
    exact hb.header_disjoint hi ht
  free := by
    intro zone hz b hfree i hib
    exact hb.free_disjoint hi hz hfree hib

theorem HeapOk.safe (h : HeapOk M foreign s) : HeapSafe s := by
  obtain ⟨slabs, bigs, hi, _, hnodup, hlive⟩ := h
  refine ⟨hnodup, ?_, ?_⟩
  · intro p hp
    obtain ⟨_, n, hn⟩ := hlive p hp
    exact ⟨n, hn.safe hi⟩
  · intro p hp q hq hne n m hn hm
    obtain ⟨_, n', hbp⟩ := hlive p hp
    obtain ⟨_, m', hbq⟩ := hlive q hq
    obtain rfl := Except.ok.inj ((memSize_eq hi hbp).symm.trans hn)
    obtain rfl := Except.ok.inj ((memSize_eq hi hbq).symm.trans hm)
    exact hbp.disjoint hi hbq hne

/-- **The result of `mem_alloc`**: a new block of at least the size that was asked for. -/
theorem HeapOk.alloc_result {size ptr : Nat} {h' : Heap} (h : HeapOk M foreign s)
    (halloc : memAlloc s.heap size = .ok (h', ptr)) (h0 : ptr ≠ 0) :
    ptr ∉ s.live ∧ ∃ n, BlockSafe h' ptr n ∧ size ≤ n := by
  obtain ⟨slabs, bigs, hi, hset, _, hlive⟩ := h
  obtain ⟨h₁, p, slabs', bigs', heq, hi', _, _, hnew⟩ := memAlloc_spec hi hset size
  rw [halloc, Except.ok.injEq, Prod.mk.injEq] at heq
  obtain ⟨rfl, rfl⟩ := heq
  obtain ⟨⟨n, hblock, hsize⟩, hfresh⟩ := hnew h0
  refine ⟨?_, n, hblock.safe hi', hsize⟩
  intro hmem
  obtain ⟨_, m, hm⟩ := hlive ptr hmem
  exact hfresh m hm

/-- **The heap after `mem_alloc_setup`.** -/
theorem memAllocSetup_ok {zones : List Zone} (hz : ZonesInv zones M foreign) (hM : PagesOk M)
    (pools : Nat → Pool) (bytes : Nat → Int8) :
    ∃ h, memAllocSetup (noCaches zones pools bytes).heap = .ok h ∧ HeapOk M foreign ⟨h, []⟩ := by
  obtain ⟨slabs, hi, _, _⟩ := @noCaches_ok memSpecs M foreign zones hz hM pools bytes
  obtain ⟨h, hsetup, hi', hset, _⟩ := memAllocSetup_spec hi fun _ => rfl
  refine ⟨h, hsetup, slabs, [], hi', hset, List.nodup_nil, ?_⟩
  intro p hp
  cases hp

end Run

/-- **The safety of the heap.**  For every memory map below the address limit and any bootstrap
allocations: when `page_alloc_setup` returned on memory that reads as zero, and after any calls of
the page allocator, `mem_alloc_setup` returns, and in every later run the live blocks are disjoint
and apart from headers and free pages, every pointer that `mem_alloc` returns is aligned and has at
least the bytes that were asked for, and every legal call returns. -/
theorem heap_safety (mem : Memory) (info : MultibootInfo) (img : BootImage)
    (hentries : ∀ e ∈ mmapEntries mem info, e.addr + e.length ≤ ADDR_LIMIT)
    (hkernel : img.kbegin ≤ img.kend ∧ img.kend ≤ ADDR_LIMIT)
    (hinitrd : img.initrdBegin ≤ img.initrdEnd ∧ img.initrdEnd ≤ ADDR_LIMIT)
    (s₀ : Balloc) (hsetup : ballocSetup mem info img = .ok s₀) (s₁ : BootState)
    (hboot : bootCalls.Run ⟨s₀, []⟩ s₁) (p : BootState × List Zone)
    (hpages : pageAllocSetup (fun _ => Page.zero) s₁ = .ok p) (q : PageState)
    (hearlier : pageCalls.Run ⟨p.2, []⟩ q) (pools : Nat → Pool) (bytes : Nat → Int8) :
    ∃ h, memAllocSetup (noCaches q.zones pools bytes).heap = .ok h ∧ ∀ s, heapCalls.Run ⟨h, []⟩ s →
      HeapSafe s ∧
      (∀ size h' ptr, memAlloc s.heap size = .ok (h', ptr) → ptr ≠ 0 →
        ptr ∉ s.live ∧ ∃ n, BlockSafe h' ptr n ∧ size ≤ n) ∧
      ∀ call, heapCalls.legal s call → ∃ s', heapCalls.exec s call = .ok s' := by
  obtain ⟨h₀, hmap⟩ := ballocSetup_ok hentries hkernel hinitrd hsetup
  have h₁ := (bootCalls_keeps _ _).run h₀ hboot
  obtain ⟨_, _, _, hz, hsame, _⟩ := (pageAllocSetup_spec h₁ hmap).of_eq hpages
  have hM := releasedPages_ok hmap hz hsame
  have hq := (pageCalls_keeps hM).run hz hearlier
  obtain ⟨h, halloc, hok⟩ := memAllocSetup_ok hq hM pools bytes
  refine ⟨h, halloc, ?_⟩
  intro s hrun
  have hs := (heapCalls_keeps _ _).run hok hrun
  refine ⟨hs.safe, ?_, ?_⟩
  · intro size h' ptr hres h0
    exact hs.alloc_result hres h0
  · intro call hc
    obtain ⟨s', hexec, _⟩ := heapCalls_step hs hc
    exact ⟨s', hexec⟩

theorem heap_safety_overlapping : ∃ h s, heapCalls.Run ⟨h, []⟩ s ∧
    s.live = [0xffff800000008000, 0xffff800000003000] ∧ HeapSafe s ∧
    ∀ call, heapCalls.legal s call → ∃ s', heapCalls.exec s call = .ok s' := by
  have hres : (do
      let s₀ ← ballocSetup overlappingMap ⟨64, 48, 0x100⟩ ⟨0x2000, 0x3000, 0x4000, 0x4800⟩
      let p ← pageAllocSetup (fun _ => Page.zero) ⟨s₀, []⟩
      let h ← memAllocSetup (noCaches p.2 noPools fun _ => 0).heap
      let (h, a) ← memAlloc h 100
      let (_, b) ← memAlloc h 200
      return (a, b) : Res (Nat × Nat)) = .ok (0xffff800000003000,
        0xffff800000008000) := by decide +kernel
  obtain ⟨s₀, hs₀, hres⟩ := bind_eq_ok.mp hres
  obtain ⟨p, hp, hres⟩ := bind_eq_ok.mp hres
  obtain ⟨h, hsetup, hres⟩ := bind_eq_ok.mp hres
  obtain ⟨⟨h₁, a⟩, hfirst, hres⟩ := bind_eq_ok.mp hres
  obtain ⟨⟨h₂, b⟩, hsecond, hptrs⟩ := bind_eq_ok.mp hres
  obtain ⟨rfl, rfl⟩ := Prod.mk.inj (Except.ok.inj hptrs)
  have hrun₁ : heapCalls.Run ⟨h, []⟩ ⟨h₁, [0xffff800000003000]⟩ := by
    refine .single ⟨.alloc 100, trivial, ?_⟩
    simp only [heapCalls, hfirst, ok_bind, pure_eq_ok]
    rfl
  have hrun₂ := hrun₁.tail (c := ⟨h₂, [0xffff800000008000, 0xffff800000003000]⟩)
      ⟨.alloc 200, trivial, by
    simp only [heapCalls, hsecond, ok_bind, pure_eq_ok]
    rfl⟩
  obtain ⟨h', hsetup', hall⟩ := heap_safety overlappingMap ⟨64, 48, 0x100⟩ ⟨0x2000, 0x3000,
    0x4000, 0x4800⟩
    (by decide) (by decide) (by decide) s₀ hs₀ ⟨s₀, []⟩ .refl p hp _ .refl noPools fun _ => 0
  obtain rfl := Except.ok.inj (hsetup.symm.trans hsetup')
  obtain ⟨hsafe, _, hret⟩ := hall _ hrun₂
  exact ⟨h, _, hrun₂, rfl, hsafe, hret⟩

end Slab

end AuOs
