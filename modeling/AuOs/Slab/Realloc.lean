import Mathlib
import AuOs.Slab.Extent
import AuOs.Slab.Run

/-!
# Reallocation

Reference model of `mem_realloc` of `alloc.c`, with the bytes that it copies.

* `copyLoop` — the loop of `memcpy`; `copyLoop_outside` and `copyLoop_inside` are what it does to
  the bytes.
* `memRealloc` — `mem_realloc`.
* `memRealloc_spec` — **what the function does**: the block stays, there is no memory, or the block
  `Moves`.
* `realloc_contract` — **the contract of `mem_realloc`**, for every state of the heap.
-/

set_option autoImplicit false

namespace AuOs

namespace Slab

open DyadicTiling

/-- `while (size--) *to++ = *from++;` -/
def copyLoop (bytes : Nat → Int8) (to_ from_ : Nat) : Nat → Nat → Int8
  | 0 => bytes
  | size + 1 =>
    copyLoop (Function.update bytes to_ (bytes from_)) ((to_ + 1) % WORD) ((from_ + 1) % WORD) size

/-- `memcpy`. -/
def Heap.memcpy (h : Heap) (dst src size : Nat) : Heap :=
  { h with bytes := copyLoop h.bytes dst src size }

/-- `mem_realloc`: the pointer, or 0. -/
def memRealloc (h : Heap) (ptr size : Nat) : Res (Heap × Nat) :=
  if ptr = 0 then memAlloc h size
  else do
    let oldSize ← memSize h ptr
    if oldSize ≥ size then return (h, ptr)
    else
      let (h, new) ← memAlloc h size
      if new = 0 then return (h, 0)
      else
        let h ← memFree (h.memcpy new ptr oldSize) ptr
        return (h, new)

/-! ## Copying -/

/-- The next byte, if there is one. -/
theorem next_addr {a size : Nat} (h : a + (size + 1) ≤ WORD) (hs : 0 < size) :
    (a + 1) % WORD = a + 1 :=
  Nat.mod_eq_of_lt (by omega)

/-- The bytes outside the destination are kept. -/
theorem copyLoop_outside {size : Nat} : ∀ {bytes : Nat → Int8}
    {to_ from_ a : Nat}, to_ + size ≤ WORD →
    a ∉ span to_ size → copyLoop bytes to_ from_ size a = bytes a := by
  induction size with
  | zero =>
    intro bytes to_ from_ a _ _
    rfl
  | succ size ih =>
    intro bytes to_ from_ a hend ha
    have hne : a ≠ to_ := by
      rintro rfl
      exact ha ⟨Nat.le_refl _, by omega⟩
    rw [copyLoop]
    rcases Nat.eq_zero_or_pos size with rfl | hpos
    · exact Function.update_of_ne hne ..
    · rw [next_addr hend hpos, ih (by omega), Function.update_of_ne hne]
      rintro ⟨hle, hlt⟩
      exact ha ⟨by omega, by omega⟩

/-- **The destination** holds the bytes of the source, if it lies apart from it. -/
theorem copyLoop_inside {size : Nat} : ∀ {bytes : Nat → Int8} {to_ from_ : Nat}, to_ + size ≤ WORD →
    from_ + size ≤ WORD → Disjoint (span to_ size) (span from_ size) →
    ∀ i < size, copyLoop bytes to_ from_ size (to_ + i) = bytes (from_ + i) := by
  induction size with
  | zero =>
    intro bytes to_ from_ _ _ _ i hi
    exact absurd hi (Nat.not_lt_zero i)
  | succ size ih =>
    intro bytes to_ from_ hto hfrom hd i hi
    have happart : ∀ j < size + 1, from_ + j ≠ to_ := by
      intro j hj heq
      exact Set.disjoint_left.mp hd ⟨Nat.le_refl to_, by omega⟩ ⟨by omega, by omega⟩
    rw [copyLoop]
    rcases Nat.eq_zero_or_pos size with rfl | hpos
    · obtain rfl : i = 0 := by omega
      exact Function.update_self ..
    · rw [next_addr hto hpos, next_addr hfrom hpos]
      cases i with
      | zero =>
        -- the first byte is written once
        have hout : to_ ∉ span (to_ + 1) size := fun hin => absurd hin.1 (Nat.not_succ_le_self to_)
        show copyLoop _ (to_ + 1) (from_ + 1) size to_ = bytes from_
        rw [copyLoop_outside (by omega) hout, Function.update_self]
      | succ j =>
        have hrest : Disjoint (span (to_ + 1) size) (span (from_ + 1) size) :=
          hd.mono (Set.Ico_subset_Ico (by omega) (by omega))
            (Set.Ico_subset_Ico (by omega) (by omega))
        have hsucc : ∀ a, a + (j + 1) = a + 1 + j := fun a => by omega
        rw [hsucc to_, ih (by omega) (by omega) hrest j (by omega), ← hsucc from_,
          Function.update_of_ne (happart (j + 1) hi)]

/-! ## `mem_realloc` -/

section Realloc

variable {M : Set Nat} {slabs slabs' : List PoolAt} {bigs bigs' foreign : List Block} {h h' : Heap}
  {p q n m : Nat}

/-- The bytes of a block are the same in both heaps. -/
def SameBytes (h h' : Heap) (p n : Nat) : Prop := ∀ i < n, h'.bytes (p + i) = h.bytes (p + i)

theorem SameBytes.of_eq (heq : h'.bytes = h.bytes) : SameBytes h h' p n := by
  intro i _
  rw [heq]

/-- Blocks do not depend on what their users store in them. -/
theorem BlockOf.memcpy (hb : BlockOf slabs bigs h q m) (dst src size : Nat) :
    BlockOf slabs bigs (h.memcpy dst src size) q m := hb

theorem HeapInv.memcpy {specs : Nat → Nat × Nat} (hi : HeapInv specs M slabs bigs foreign h)
    (dst src size : Nat) : HeapInv specs M slabs bigs foreign (h.memcpy dst src size) := { hi with }

/-- The block of `n` bytes at `p` moves to one of `n'` bytes at `new`. -/
structure Moves (slabs slabs' : List PoolAt) (bigs bigs' : List Block) (h h' : Heap)
    (p n new n' : Nat) : Prop where
  ready : ∀ c, h.caches c ≠ none → h'.caches c ≠ none
  nonzero : new ≠ 0
  block : BlockOf slabs' bigs' h' new n'
  fresh : ∀ m, ¬ BlockOf slabs bigs h new m
  gone : ∀ m, ¬ BlockOf slabs' bigs' h' p m
  others : ∀ q m, q ≠ p → BlockOf slabs bigs h q m → BlockOf slabs' bigs' h' q m ∧
    SameBytes h h' q m
  copied : ∀ i < n, h'.bytes (new + i) = h.bytes (p + i)

theorem Moves.ne {new n' : Nat} (hm : Moves slabs slabs' bigs bigs' h h' p n new n')
    (hb : BlockOf slabs bigs h p n) : new ≠ p := by
  rintro rfl
  exact hm.fresh n hb

/-- **`mem_realloc`** of a block: it stays, there is no memory, or it moves. -/
theorem memRealloc_exact (hi : HeapInv memSpecs M slabs bigs foreign h)
    (hset : ∀ c < MEM_POOLS, h.caches c ≠ none)
    (hp : p ≠ 0) (hb : BlockOf slabs bigs h p n) (size : Nat) :
    (size ≤ n ∧ memRealloc h p size = .ok (h, p)) ∨
    (∃ h' slabs' bigs', memRealloc h p size = .ok (h', 0) ∧
      HeapInv memSpecs M slabs' bigs' foreign h' ∧
      SameRest h h' ∧ (∀ q m, BlockOf slabs bigs h q m → BlockOf slabs' bigs' h' q m) ∧
      ((∀ q m, BlockOf slabs' bigs' h' q m → BlockOf slabs bigs h q m) ∨
        ∃ m, BlockOf slabs' bigs' h' 0 m)) ∨
    ∃ h' new n' slabs' bigs', memRealloc h p size = .ok (h', new) ∧
      HeapInv memSpecs M slabs' bigs' foreign h' ∧
      n < size ∧ size ≤ n' ∧ Moves slabs slabs' bigs bigs' h h' p n new n' ∧
      (∀ c, (h'.caches c).map Cache.layout = (h.caches c).map Cache.layout) ∧
      ∀ q m, BlockOf slabs' bigs' h' q m → q = new ∨ BlockOf slabs bigs h q m := by
  unfold memRealloc
  rw [if_neg hp, memSize_eq hi hb, ok_bind]
  by_cases hle : n ≥ size
  · rw [if_pos hle]
    exact Or.inl ⟨hle, rfl⟩
  · right
    rw [if_neg hle]
    obtain ⟨h₁, new, slabs₁, bigs₁, halloc, hi₁, hrest₁, hkeep₁, hresult⟩ :=
      memAlloc_exact hi hset size
    have hold := hkeep₁ p n hb
    rw [halloc, ok_bind]
    simp only
    by_cases h0 : new = 0
    · rw [if_pos h0]
      refine Or.inl ⟨h₁, slabs₁, bigs₁, rfl, hi₁, hrest₁, hkeep₁, ?_⟩
      subst h0
      exact hresult.imp (·.2) fun ⟨⟨m, hm, _⟩, _⟩ => ⟨m, hm⟩
    · right
      obtain ⟨⟨n', hblock, hsize⟩, hfresh, honly₁⟩ := hresult.resolve_left fun hz => h0 hz.1
      have hne : new ≠ p := by
        rintro rfl
        exact hfresh n hb
      have hend := hblock.le hi₁
      have hsub : span new n ⊆ span new n' := Set.Ico_subset_Ico (Nat.le_refl _) (by omega)
      obtain ⟨h₂, bigs₂, hfree, hi₂, hrest₂, hkeep₂, hgone, honly₂⟩ :=
        memFree_exact (hi₁.memcpy new p n) (hold.memcpy new p n) hp
      have hbytes : h₂.bytes = copyLoop h₁.bytes new p n := hrest₂.bytes
      rw [if_neg h0, hfree]
      refine ⟨h₂, new, n', slabs₁, bigs₂, rfl, hi₂, by omega, hsize, ⟨?_, h0,
        hkeep₂ new n' hne (hblock.memcpy new p n), hfresh, hgone, ?_, ?_⟩, ?_, ?_⟩
      · intro c hc
        have hc₁ : (h₁.memcpy new p n).caches c ≠ none := hrest₁.ready hc
        exact hrest₂.ready hc₁
      · intro q m hq hblockq
        have hq₁ := hkeep₁ q m hblockq
        have hqn : q ≠ new := by
          rintro rfl
          exact hfresh m hblockq
        refine ⟨hkeep₂ q m hq (hq₁.memcpy new p n), ?_⟩
        intro i hi'
        rw [hbytes, copyLoop_outside (by omega), hrest₁.bytes]
        intro hin
        exact Set.disjoint_left.mp (hq₁.disjoint hi₁ hblock hqn)
          ⟨Nat.le_add_right _ _, by omega⟩ (hsub hin)
      · intro i hi'
        have hd := (hblock.disjoint hi₁ hold hne).mono_left hsub
        rw [hbytes, copyLoop_inside (by omega) (hold.le hi₁) hd i hi', hrest₁.bytes]
      · exact fun c => (hrest₂.layouts c).trans (hrest₁.layouts c)
      · intro q m hq
        exact honly₁ q m (honly₂ q m hq)

theorem memRealloc_spec (hi : HeapInv memSpecs M slabs bigs foreign h)
    (hset : ∀ c < MEM_POOLS, h.caches c ≠ none)
    (hp : p ≠ 0) (hb : BlockOf slabs bigs h p n) (size : Nat) :
    (size ≤ n ∧ memRealloc h p size = .ok (h, p)) ∨
    (∃ h' slabs' bigs', memRealloc h p size = .ok (h', 0) ∧
      HeapInv memSpecs M slabs' bigs' foreign h' ∧
      SameRest h h' ∧ ∀ q m, BlockOf slabs bigs h q m → BlockOf slabs' bigs' h' q m) ∨
    ∃ h' new n' slabs' bigs', memRealloc h p size = .ok (h', new) ∧
      HeapInv memSpecs M slabs' bigs' foreign h' ∧
      n < size ∧ size ≤ n' ∧ Moves slabs slabs' bigs bigs' h h' p n new n' := by
  rcases memRealloc_exact hi hset hp hb size with hstay | ⟨h', slabs', bigs', hres, hi',
    hrest, hkeep, _⟩ | ⟨h', new, n', slabs', bigs', hres, hi', hlt, hsize, hmoves, _⟩
  · exact Or.inl hstay
  · exact Or.inr (Or.inl ⟨h', slabs', bigs', hres, hi', hrest, hkeep⟩)
  · exact Or.inr (Or.inr ⟨h', new, n', slabs', bigs', hres, hi', hlt, hsize, hmoves⟩)

/-- **The contract of `mem_realloc`**: for every state of the heap, every live block and every size,
it returns either a block that is large enough and begins with the bytes of the old block, which is
freed exactly when the pointer changed, or 0 with the old block as it was.  No other block goes or
changes. -/
theorem realloc_contract (hi : HeapInv memSpecs M slabs bigs foreign h)
    (hset : ∀ c < MEM_POOLS, h.caches c ≠ none)
    (hp : p ≠ 0) (hb : BlockOf slabs bigs h p n) (size : Nat) :
    ∃ h' p' slabs' bigs', memRealloc h p size = .ok (h', p') ∧
      HeapInv memSpecs M slabs' bigs' foreign h' ∧
      (∀ q m, q ≠ p → BlockOf slabs bigs h q m → BlockOf slabs' bigs' h' q m ∧ SameBytes h h' q m) ∧
      (p' ≠ 0 → (∃ n', BlockOf slabs' bigs' h' p' n' ∧ size ≤ n') ∧
        (∀ i < min n size, h'.bytes (p' + i) = h.bytes (p + i)) ∧
        (p' ≠ p ↔ ∀ m, ¬ BlockOf slabs' bigs' h' p m) ∧
          (p' ≠ p → ∀ m, ¬ BlockOf slabs bigs h p' m)) ∧
      (p' = 0 → BlockOf slabs' bigs' h' p n ∧ SameBytes h h' p n) := by
  rcases memRealloc_spec hi hset hp hb size with ⟨hle, hres⟩ | ⟨h', slabs', bigs', hres, hi',
    hrest, hkeep⟩ | ⟨h', new, n', slabs', bigs', hres, hi', hlt, hsize, hmoves⟩
  · refine ⟨h, p, slabs, bigs, hres, hi, ?_, ?_, fun h0 => absurd h0 hp⟩
    · intro q m _ hq
      exact ⟨hq, SameBytes.of_eq rfl⟩
    · intro _
      exact ⟨⟨n, hb, hle⟩, fun _ _ => rfl, iff_of_false (fun hne => hne rfl)
        fun hgone => hgone n hb, fun hne => absurd rfl hne⟩
  · refine ⟨h', 0, slabs', bigs', hres, hi', ?_, fun hne => absurd rfl hne, ?_⟩
    · intro q m _ hq
      exact ⟨hkeep q m hq, SameBytes.of_eq hrest.bytes⟩
    · intro _
      exact ⟨hkeep p n hb, SameBytes.of_eq hrest.bytes⟩
  · refine ⟨h', new, slabs', bigs', hres, hi', hmoves.others, ?_,
      fun h0 => absurd h0 hmoves.nonzero⟩
    intro _
    refine ⟨⟨n', hmoves.block, hsize⟩, ?_, iff_of_true (hmoves.ne hb) hmoves.gone,
      fun _ => hmoves.fresh⟩
    intro i hi'
    exact hmoves.copied i (lt_min_iff.mp hi').1

theorem realloc_contract_grows : ∃ h p h' p', memRealloc h p 200 = .ok (h', p') ∧
    p = 0xffff800000001000 ∧
    p' = 0xffff800000002000 ∧ (∀ i < 100, h'.bytes (p' + i) = h.bytes (p + i)) ∧
    ∃ M slabs bigs, HeapInv memSpecs M slabs bigs [] h' ∧ ∀ m, ¬ BlockOf slabs bigs h' p m := by
  have hres : (do
      let zones ← releaseRanges [Zone.zeroed 1 16] [(0x1000, 0x10000)]
      let h ← memAllocSetup (noCaches zones noPools fun i => Int8.ofNat i).heap
      let (h, p) ← memAlloc h 100
      let (_, p') ← memRealloc h p 200
      return (p, p') : Res (Nat × Nat)) = .ok (0xffff800000001000,
        0xffff800000002000) := by decide +kernel
  obtain ⟨zones, hrel, hz, hM⟩ := fifteenPages_ok
  obtain ⟨slabs, hi, _, _⟩ := @noCaches_ok memSpecs _ _ zones hz hM noPools fun i => Int8.ofNat i
  obtain ⟨h, hsetup, hi, hset, _⟩ := memAllocSetup_spec hi fun _ => rfl
  obtain ⟨h₁, p, slabs₁, bigs₁, halloc, hi₁, hrest, _, hnew⟩ := memAlloc_spec hi hset 100
  rw [hrel, ok_bind, hsetup, ok_bind, halloc, ok_bind] at hres
  obtain ⟨⟨h₂, p'⟩, hrealloc, hptrs⟩ := bind_eq_ok.mp hres
  obtain ⟨rfl, rfl⟩ := Prod.mk.inj (Except.ok.inj hptrs)
  obtain ⟨⟨n, hblock, hsize⟩, _⟩ := hnew (by decide)
  obtain ⟨h', p', slabs', bigs', heq, hi', _, hgrown, _⟩ :=
    realloc_contract hi₁ (fun c hc => hrest.ready (hset c hc)) (by decide) hblock 200
  rw [hrealloc, Except.ok.injEq, Prod.mk.injEq] at heq
  obtain ⟨rfl, rfl⟩ := heq
  obtain ⟨_, hcopied, hfreed, _⟩ := hgrown (by decide)
  refine ⟨h₁, _, h₂, _, hrealloc, rfl, rfl, ?_, _, slabs', bigs', hi', hfreed.mp (by decide)⟩
  intro i hlt
  exact hcopied i (lt_min_iff.mpr ⟨by omega, by omega⟩)

end Realloc

end Slab

end AuOs
