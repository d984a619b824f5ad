import Mathlib
import AuOs.Slab.Safety

/-!
# The contents of the blocks

The heap together with its users, who store bytes in the blocks they hold.

* `StoreState` — the heap and, as a ghost component, the bytes that were stored in each block.
* `storeCalls` — the calls of the heap, and a store to a byte of a live block.
* `inherited` — what a block holds after a call: the bytes that were stored in it, or in the block
  that `mem_realloc` moved.
* `Passes`, `heapCalls_passes` — what one call of the heap does to the bytes of the blocks.
* `contents_kept` — the result for every run from boot on.
-/

set_option autoImplicit false

namespace AuOs

namespace Slab

open DyadicTiling

/-- The heap and what its users stored: `written p i` is the last byte that was stored at offset `i`
of `p`. -/
structure StoreState where
  mem : HeapState
  written : Nat → Nat → Option Int8

inductive StoreCall where
  | heap (call : HeapCall)
  | store (ptr offset : Nat) (byte : Int8)

/-- The bytes of the block `p` after a call. -/
def inherited (s : StoreState) (call : HeapCall) (p : Nat) : Nat → Option Int8 :=
  if p ∈ s.mem.live then s.written p
  else match call with
    | .realloc ptr _ => if ptr ∈ s.mem.live then s.written ptr else fun _ => none
    | _ => fun _ => none

/-- `((char *)ptr)[offset] = byte;` -/
def Heap.store (h : Heap) (ptr offset : Nat) (byte : Int8) : Heap :=
  { h with bytes := Function.update h.bytes ((ptr + offset) % WORD) byte }

/-- The calls of the heap and the stores of its users, who stay in the blocks that they hold. -/
def storeCalls : CallSystem StoreState StoreCall Stop where
  legal s
    | .heap call => heapCalls.legal s.mem call
    | .store ptr offset _ => ptr ∈ s.mem.live ∧ ∃ n, memSize s.mem.heap ptr = .ok n ∧ offset < n
  exec s
    | .heap call => do
      let mem ← heapCalls.exec s.mem call
      return ⟨mem, inherited s call⟩
    | .store ptr offset byte =>
      .ok ⟨{ s.mem with heap := s.mem.heap.store ptr offset byte },
        Function.update s.written ptr (Function.update (s.written ptr) offset (some byte))⟩

/-- Every byte that was stored in a live block is still there. -/
def Holds (s : StoreState) : Prop :=
  ∀ p ∈ s.mem.live, ∀ i b, s.written p i = some b →
    ∃ n, memSize s.mem.heap p = .ok n ∧ i < n ∧ s.mem.heap.bytes (p + i) = b

/-- What a call of the heap does to the bytes of the blocks that are live after it. -/
structure Passes (s : HeapState) (call : HeapCall) (s' : HeapState) : Prop where
  kept : ∀ p ∈ s'.live, p ∈ s.live → ∀ n, memSize s.heap p = .ok n →
    memSize s'.heap p = .ok n ∧ SameBytes s.heap s'.heap p n
  moved : ∀ p ∈ s'.live, p ∉ s.live → ∀ ptr size, call = .realloc ptr size → ptr ∈ s.live →
    ∀ n, memSize s.heap ptr = .ok n →
      ∃ n', memSize s'.heap p = .ok n' ∧ n ≤ n' ∧
        ∀ i < n, s'.heap.bytes (p + i) = s.heap.bytes (ptr + i)

section Run

variable {M : Set Nat} {slabs slabs' : List PoolAt} {bigs bigs' foreign : List Block}
  {s s' : HeapState}

/-- A block that the call keeps has its size and its bytes. -/
theorem kept_of_blocks (hi : HeapInv memSpecs M slabs bigs foreign s.heap)
    (hi' : HeapInv memSpecs M slabs' bigs' foreign s'.heap)
    (hlive : ∀ p ∈ s.live, p ≠ 0 ∧ ∃ n, BlockOf slabs bigs s.heap p n)
    (hkeep : ∀ p ∈ s'.live, p ∈ s.live → ∀ n, BlockOf slabs bigs s.heap p n →
      BlockOf slabs' bigs' s'.heap p n ∧ SameBytes s.heap s'.heap p n) :
    ∀ p ∈ s'.live, p ∈ s.live → ∀ n, memSize s.heap p = .ok n →
      memSize s'.heap p = .ok n ∧ SameBytes s.heap s'.heap p n := by
  intro p hp' hp n hn
  obtain ⟨_, m, hm⟩ := hlive p hp
  obtain rfl := Except.ok.inj ((memSize_eq hi hm).symm.trans hn)
  obtain ⟨hm', hsame⟩ := hkeep p hp' hp m hm
  exact ⟨memSize_eq hi' hm', hsame⟩

/-- **What one call of the heap does to the blocks.** -/
theorem heapCalls_passes {call : HeapCall} (h : HeapOk M foreign s) (hc : heapCalls.legal s call)
    (hexec : heapCalls.exec s call = .ok s') : Passes s call s' := by
  obtain ⟨slabs, bigs, hi, hset, hnodup, hlive⟩ := h
  cases call with
  | alloc size =>
    obtain ⟨h', ptr, slabs', bigs', halloc, hi', hrest, hkeep, _⟩ := memAlloc_spec hi hset size
    simp only [heapCalls, halloc, ok_bind, pure_eq_ok, Except.ok.injEq] at hexec
    subst hexec
    refine ⟨kept_of_blocks hi hi' hlive ?_, ?_⟩
    · intro p _ _ n hn
      exact ⟨hkeep p n hn, SameBytes.of_eq hrest.bytes⟩
    · intro p _ _ ptr size hcall
      cases hcall
  | free ptr =>
    by_cases h0 : ptr = 0
    · simp only [heapCalls, memFree, if_pos h0, ok_bind, pure_eq_ok, Except.ok.injEq] at hexec
      subst hexec
      refine ⟨kept_of_blocks hi hi hlive ?_, ?_⟩
      · intro p _ _ n hn
        exact ⟨hn, SameBytes.of_eq rfl⟩
      · intro p _ _ ptr size hcall
        cases hcall
    · obtain ⟨_, m, hblock⟩ := hlive ptr (hc.resolve_left h0)
      obtain ⟨h', bigs', hfree, hi', hrest, hkeep, _⟩ := memFree_spec hi hblock h0
      simp only [heapCalls, hfree, ok_bind, pure_eq_ok, Except.ok.injEq] at hexec
      subst hexec
      refine ⟨kept_of_blocks hi hi' hlive ?_, ?_⟩
      · intro p hp' _ n hn
        exact ⟨hkeep p n (hnodup.mem_erase_iff.mp hp').1 hn, SameBytes.of_eq hrest.bytes⟩
      · intro p _ _ ptr size hcall
        cases hcall
  | realloc ptr size =>
    by_cases h0 : ptr = 0
    · obtain ⟨h', new, slabs', bigs', halloc, hi', hrest, hkeep, _⟩ := memAlloc_spec hi hset size
      simp only [heapCalls, memRealloc, if_pos h0, halloc, ok_bind, pure_eq_ok,
        Except.ok.injEq] at hexec
      subst hexec
      refine ⟨kept_of_blocks hi hi' hlive ?_, ?_⟩
      · intro p _ _ n hn
        exact ⟨hkeep p n hn, SameBytes.of_eq hrest.bytes⟩
      · rintro p _ _ _ _ ⟨rfl, rfl⟩ hmem
        exact absurd h0 (hlive _ hmem).1
    · have hmem := hc.resolve_left h0
      obtain ⟨_, m, hblock⟩ := hlive ptr hmem
      rcases memRealloc_spec hi hset h0 hblock size with ⟨_, hres⟩ |
        ⟨h', slabs', bigs', hres, hi', hrest, hkeep⟩ | ⟨h', new, n', slabs', bigs', hres, hi',
          hlt, hle, hmoves⟩
      · -- the block stays
        simp only [heapCalls, hres, ok_bind, pure_eq_ok, if_neg h0, Except.ok.injEq] at hexec
        subst hexec
        refine ⟨kept_of_blocks hi hi hlive ?_, ?_⟩
        · intro p _ _ n hn
          exact ⟨hn, SameBytes.of_eq rfl⟩
        · intro p hp hout
          exact absurd ((List.perm_cons_erase hmem).mem_iff.mpr hp) hout
      · -- there is no memory
        simp only [heapCalls, hres, ok_bind, pure_eq_ok, if_pos, Except.ok.injEq] at hexec
        subst hexec
        refine ⟨kept_of_blocks hi hi' hlive ?_, ?_⟩
        · intro p _ _ n hn
          exact ⟨hkeep p n hn, SameBytes.of_eq hrest.bytes⟩
        · intro p hp hout
          exact absurd hp hout
      · -- the block moves
        simp only [heapCalls, hres, ok_bind, pure_eq_ok, if_neg hmoves.nonzero,
          Except.ok.injEq] at hexec
        subst hexec
        have hnew : new ∉ s.live := by
          intro hin
          obtain ⟨_, k, hk⟩ := hlive new hin
          exact hmoves.fresh k hk
        refine ⟨kept_of_blocks hi hi' hlive ?_, ?_⟩
        · intro p hp' hp n hn
          have hne : p ≠ new := fun heq => hnew (heq ▸ hp)
          have hin := (List.mem_cons.mp hp').resolve_left hne
          exact hmoves.others p n (hnodup.mem_erase_iff.mp hin).1 hn
        · rintro p hp' hp _ _ ⟨rfl, rfl⟩ _ n hn
          obtain rfl := Except.ok.inj ((memSize_eq hi hblock).symm.trans hn)
          have hin : p ∉ s.live.erase ptr := fun hin => hp (List.mem_of_mem_erase hin)
          obtain rfl := (List.mem_cons.mp hp').resolve_right hin
          exact ⟨n', memSize_eq hi' hmoves.block, by omega, hmoves.copied⟩
  | shrink =>
    obtain ⟨h', slabs', hshrink, hi', hrest, hkeep⟩ := memAllocShrink_spec hi hset
    simp only [heapCalls, hshrink, ok_bind, pure_eq_ok, Except.ok.injEq] at hexec
    subst hexec
    refine ⟨kept_of_blocks hi hi' hlive ?_, ?_⟩
    · intro p _ _ n hn
      exact ⟨hkeep p n hn, SameBytes.of_eq hrest.bytes⟩
    · intro p _ _ ptr size hcall
      cases hcall

/-- A call of the heap keeps what its users stored. -/
theorem Holds.heap {t : StoreState} {call : HeapCall} (h : Holds t) (hp : Passes t.mem call s') :
    Holds ⟨s', inherited t call⟩ := by
  intro p hlive' i b hb
  simp only [inherited] at hb
  by_cases hlive : p ∈ t.mem.live
  · rw [if_pos hlive] at hb
    obtain ⟨n, hn, hi, hbyte⟩ := h p hlive i b hb
    obtain ⟨hn', hsame⟩ := hp.kept p hlive' hlive n hn
    exact ⟨n, hn', hi, (hsame i hi).trans hbyte⟩
  · rw [if_neg hlive] at hb
    cases call with
    | realloc ptr size =>
      simp only at hb
      split at hb
      · rename_i hptr
        obtain ⟨n, hn, hi, hbyte⟩ := h ptr hptr i b hb
        obtain ⟨n', hn', hle, hcopied⟩ := hp.moved p hlive' hlive ptr size rfl hptr n hn
        exact ⟨n', hn', by omega, (hcopied i hi).trans hbyte⟩
      · cases hb
    | alloc size => cases hb
    | free ptr => cases hb
    | shrink => cases hb

/-- The invariant of a run. -/
def StoreOk (M : Set Nat) (foreign : List Block) (s : StoreState) : Prop :=
  HeapOk M foreign s.mem ∧ Holds s

/-- **A store** changes one byte of one block. -/
theorem StoreOk.store {t : StoreState} {ptr offset n : Nat} (h : StoreOk M foreign t)
    (hptr : ptr ∈ t.mem.live)
    (hn : memSize t.mem.heap ptr = .ok n) (hlt : offset < n) (byte : Int8) :
    StoreOk M foreign ⟨{ t.mem with heap := t.mem.heap.store ptr offset byte },
      Function.update t.written ptr (Function.update (t.written ptr) offset (some byte))⟩ := by
  obtain ⟨hok, hholds⟩ := h
  have hsafe := hok.safe
  obtain ⟨m, hblock⟩ := hsafe.blocks ptr hptr
  obtain rfl := Except.ok.inj (hblock.size.symm.trans hn)
  have haddr : (ptr + offset) % WORD = ptr + offset :=
    Nat.mod_eq_of_lt (by have := hblock.inside; omega)
  obtain ⟨slabs, bigs, hi, hrest⟩ := hok
  refine ⟨⟨slabs, bigs, { hi with }, hrest⟩, ?_⟩
  intro p hp i b hb
  change Function.update t.written ptr _ p i = some b at hb
  by_cases hpp : p = ptr
  · subst hpp
    by_cases hio : i = offset
    · subst hio
      rw [Function.update_self, Function.update_self, Option.some.injEq] at hb
      refine ⟨m, hn, hlt, ?_⟩
      show Function.update t.mem.heap.bytes _ byte _ = b
      rw [haddr, Function.update_self, hb]
    · rw [Function.update_self, Function.update_of_ne hio] at hb
      obtain ⟨k, hk, hik, hbyte⟩ := hholds p hp i b hb
      refine ⟨k, hk, hik, ?_⟩
      show Function.update t.mem.heap.bytes _ byte _ = b
      rw [haddr, Function.update_of_ne (by omega), hbyte]
  · rw [Function.update_of_ne hpp] at hb
    obtain ⟨k, hk, hik, hbyte⟩ := hholds p hp i b hb
    refine ⟨k, hk, hik, ?_⟩
    show Function.update t.mem.heap.bytes _ byte _ = b
    rw [haddr, Function.update_of_ne, hbyte]
    -- the blocks share no byte
    intro heq
    exact Set.disjoint_left.mp (hsafe.disjoint p hp ptr hptr hpp k m hk hn)
      ⟨Nat.le_add_right p i, by omega⟩ ⟨by omega, by omega⟩

/-- **Every legal call returns** and keeps the invariant. -/
theorem storeCalls_keeps (M : Set Nat) (foreign : List Block) :
    storeCalls.Keeps (fun _ => False) (StoreOk M foreign) := by
  intro t call h hc
  apply Post.of_ok
  cases call with
  | heap call =>
    obtain ⟨s', hexec, hok⟩ := heapCalls_step h.1 hc
    refine ⟨⟨s', inherited t call⟩, ?_, hok, h.2.heap (heapCalls_passes h.1 hc hexec)⟩
    simp only [storeCalls, hexec, ok_bind, pure_eq_ok]
  | store ptr offset byte =>
    obtain ⟨hptr, n, hn, hlt⟩ := hc
    exact ⟨_, rfl, h.store hptr hn hlt byte⟩

end Run

/-- **The contents of the blocks.**  For every memory map below the address limit and any bootstrap
allocations, when `page_alloc_setup` returned on memory that reads as zero, and after any calls of
the page allocator: in every run of the heap in which the users store what they like in the blocks
that they hold, each byte that was stored in a live block, or in the block that `mem_realloc` moved
there, is inside the block and has the value that was stored last. -/
theorem contents_kept (mem : Memory) (info : MultibootInfo) (img : BootImage)
    (hentries : ∀ e ∈ mmapEntries mem info, e.addr + e.length ≤ ADDR_LIMIT)
    (hkernel : img.kbegin ≤ img.kend ∧ img.kend ≤ ADDR_LIMIT)
    (hinitrd : img.initrdBegin ≤ img.initrdEnd ∧ img.initrdEnd ≤ ADDR_LIMIT)
    (s₀ : Balloc) (hsetup : ballocSetup mem info img = .ok s₀) (s₁ : BootState)
    (hboot : bootCalls.Run ⟨s₀, []⟩ s₁) (p : BootState × List Zone)
    (hpages : pageAllocSetup (fun _ => Page.zero) s₁ = .ok p) (q : PageState)
    (hearlier : pageCalls.Run ⟨p.2, []⟩ q) (pools : Nat → Pool) (bytes : Nat → Int8) :
    ∃ h, memAllocSetup (noCaches q.zones pools bytes).heap = .ok h ∧
      ∀ s, storeCalls.Run ⟨⟨h, []⟩, fun _ _ => none⟩ s → Holds s ∧
        ∀ call, storeCalls.legal s call → ∃ s', storeCalls.exec s call = .ok s' := by
  obtain ⟨h₀, hmap⟩ := ballocSetup_ok hentries hkernel hinitrd hsetup
  have h₁ := (bootCalls_keeps _ _).run h₀ hboot
  obtain ⟨_, _, _, hz, hsame, _⟩ := (pageAllocSetup_spec h₁ hmap).of_eq hpages
  have hM := releasedPages_ok hmap hz hsame
  have hq := (pageCalls_keeps hM).run hz hearlier
  obtain ⟨h, halloc, hok⟩ := memAllocSetup_ok hq hM pools bytes
  refine ⟨h, halloc, ?_⟩
  intro s hrun
  have hstart : StoreOk (releasedPages (freeRanges p.1.balloc)) q.live ⟨⟨h, []⟩,
      fun _ _ => none⟩ := by
    refine ⟨hok, ?_⟩
    intro p hp
    cases hp
  have hs := (storeCalls_keeps _ _).run hstart hrun
  refine ⟨hs.2, ?_⟩
  intro call hc
  obtain ⟨s', hexec, _⟩ := (storeCalls_keeps _ _ s call hs hc).returns
  exact ⟨s', hexec⟩

theorem contents_kept_grows : ∃ h s, storeCalls.Run ⟨⟨h, []⟩, fun _ _ => none⟩ s ∧
    s.mem.live = [0xffff800000008000] ∧ s.mem.heap.bytes (0xffff800000008000 + 7) = 5 := by
  have hres : (do
      let s₀ ← ballocSetup overlappingMap ⟨64, 48, 0x100⟩ ⟨0x2000, 0x3000, 0x4000, 0x4800⟩
      let p ← pageAllocSetup (fun _ => Page.zero) ⟨s₀, []⟩
      let h ← memAllocSetup (noCaches p.2 noPools fun _ => 0).heap
      let small ← memAlloc h 100
      let n ← memSize small.1 small.2
      let moved ← memRealloc (small.1.store small.2 7 5) small.2 200
      return (small.2, n, moved.2) : Res (Nat × Nat × Nat)) = .ok (0xffff800000003000, 128,
          0xffff800000008000) := by
    decide +kernel
  obtain ⟨s₀, hs₀, hres⟩ := bind_eq_ok.mp hres
  obtain ⟨p, hp, hres⟩ := bind_eq_ok.mp hres
  obtain ⟨h, hsetup, hres⟩ := bind_eq_ok.mp hres
  obtain ⟨⟨h₁, a⟩, halloc, hres⟩ := bind_eq_ok.mp hres
  obtain ⟨n, hsize, hres⟩ := bind_eq_ok.mp hres
  obtain ⟨⟨h₂, b⟩, hrealloc, hptrs⟩ := bind_eq_ok.mp hres
  obtain ⟨rfl, hrest⟩ := Prod.mk.inj (Except.ok.inj hptrs)
  obtain ⟨rfl, rfl⟩ := Prod.mk.inj hrest
  have hrun₁ : storeCalls.Run ⟨⟨h, []⟩, fun _ _ => none⟩ ⟨⟨h₁, [0xffff800000003000]⟩,
      fun _ _ => none⟩ := by
    refine .single ⟨.heap (.alloc 100), trivial, ?_⟩
    simp only [storeCalls, heapCalls, halloc, ok_bind, pure_eq_ok]
    rfl
  have hrun₂ := hrun₁.tail ⟨.store 0xffff800000003000 7 5,
    ⟨List.mem_cons_self, 128, hsize, by decide⟩, rfl⟩
  have hrun₃ := hrun₂.tail ⟨.heap (.realloc 0xffff800000003000 200), Or.inr List.mem_cons_self, by
    simp only [storeCalls, heapCalls, hrealloc, ok_bind, pure_eq_ok]
    rfl⟩
  obtain ⟨h', hsetup', hall⟩ := contents_kept overlappingMap ⟨64, 48, 0x100⟩ ⟨0x2000, 0x3000,
    0x4000, 0x4800⟩
    (by decide) (by decide) (by decide) s₀ hs₀ ⟨s₀, []⟩ .refl p hp _ .refl noPools fun _ => 0
  obtain rfl := Except.ok.inj (hsetup.symm.trans hsetup')
  obtain ⟨n, _, _, hbyte⟩ := (hall _ hrun₃).1 0xffff800000008000 List.mem_cons_self 7 5 rfl
  exact ⟨h, _, hrun₃, rfl, hbyte⟩

end Slab

end AuOs
