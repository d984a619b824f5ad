import Mathlib
import AuOs.Slab.Layout
import AuOs.Memory.Page

/-!
# Bitmaps of slots

Reference model of `ffs` of `alloc.c` and of the operations on the words of `bitmask`.

* `ffs` — its two loops, over bytes and over bits.  `ffs_spec`: it finds a set bit.
* `Bitmask`, `bitAt` — the words of a mask and its bits; `bitAt_setSlot`, `bitAt_clearSlot`.
* `memPoolBitmapSetup` — `mem_pool_bitmap_setup`.  `bitAt_setup`: the bits behind the last object
  are set.
* `freeSlots` — the clear bits of the first slots, and what setting and clearing one bit does to
  them.
* `poolScan` — the search for a word that is not full.  `poolScan_slot`: **it leads to a free
  slot**.
-/

set_option autoImplicit false

namespace AuOs

namespace Slab

/-- `for (i = 0; i != 8; ++i, mask <<= shift) if (bitmask & mask) break;` -/
def ffsLoop (bitmask : BitVec 64) (shift : Nat) : Nat → Nat → BitVec 64 → Nat
  | 0, i, _ => i
  | n + 1, i, mask =>
    if bitmask &&& mask ≠ 0 then i else ffsLoop bitmask shift n (i + 1) (mask <<< shift)

/-- `ffs`. -/
def ffs (bitmask : BitVec 64) : Nat :=
  let byte := ffsLoop bitmask 8 8 0 0xff#64
  let bit := ffsLoop bitmask 1 8 0 (1#64 <<< (byte * 8))
  byte * 8 + bit

example : ffs 0xfff0_0000 = 20 := by decide

/-- The words of `bitmask`. -/
abbrev Bitmask := Nat → BitVec 64

/-- The bit of a slot. -/
def bitAt (mask : Bitmask) (pos : Nat) : Bool :=
  (mask (pos / OBJS_PER_WORD)).getLsbD (pos % OBJS_PER_WORD)

/-- `bitmask[word] |= (1ul << bit)`. -/
def setSlot (mask : Bitmask) (word bit : Nat) : Bitmask :=
  Function.update mask word (mask word ||| 1#64 <<< bit)

/-- `bitmask[word] &= ~(1ull << bit)`. -/
def clearSlot (mask : Bitmask) (word bit : Nat) : Bitmask :=
  Function.update mask word (mask word &&& ~~~(1#64 <<< bit))

/-- `for (word = 0; word != words; ++word)`: the first word that is not `~0ul`. -/
def poolScan (mask : Bitmask) : Nat → Nat → Option Nat
  | 0, _ => none
  | n + 1, word => if mask word = ~~~0 then poolScan mask n (word + 1) else some word

/-- `for (w = word + 1; w < words; ++w) pool->bitmask[w] = ~0ul;` -/
def fillLoop (mask : Bitmask) : Nat → Nat → Bitmask
  | 0, _ => mask
  | n + 1, w => fillLoop (Function.update mask w (~~~0)) n (w + 1)

/-- `mem_pool_bitmap_setup`. -/
def memPoolBitmapSetup (layout : Layout) (mask : Bitmask) : Bitmask :=
  let words := layout.maskWords
  let pos := layout.objCount % OBJS_PER_WORD
  let word := layout.objCount / OBJS_PER_WORD
  let mask : Bitmask := fun w => if w < words then 0 else mask w
  let mask := if pos ≠ 0 then Function.update mask word (~~~(1#64 <<< pos - 1)) else mask
  fillLoop mask (words - (word + 1)) (word + 1)

/-! ## `ffs` -/

/-- The loop ends at the first mask that meets the word. -/
theorem ffsLoop_spec (x : BitVec 64) (shift n i : Nat) (mask : BitVec 64) :
    ∃ k ≤ n, ffsLoop x shift n i mask = i + k ∧ (k < n → x &&& mask <<< (shift * k) ≠ 0) ∧
      ∀ j < k, x &&& mask <<< (shift * j) = 0 := by
  induction n generalizing i mask with
  | zero => exact ⟨0, Nat.le_refl 0, rfl, fun h => absurd h (Nat.lt_irrefl 0),
    fun j hj => absurd hj (Nat.not_lt_zero j)⟩
  | succ n ih =>
    rw [ffsLoop]
    split
    case isTrue hmask =>
      refine ⟨0, Nat.zero_le _, rfl, fun _ => ?_, fun j hj => absurd hj (Nat.not_lt_zero j)⟩
      rw [Nat.mul_zero, BitVec.shiftLeft_zero]
      exact hmask
    case isFalse hmask =>
      obtain ⟨k, hk, hloop, hset, hclear⟩ := ih (i + 1) (mask <<< shift)
      have hshift : ∀ j, mask <<< shift <<< (shift * j) = mask <<< (shift * (j + 1)) := by
        intro j
        rw [← BitVec.shiftLeft_add, Nat.mul_succ, Nat.add_comm]
      refine ⟨k + 1, Nat.succ_le_succ hk, by rw [hloop, Nat.add_assoc,
        Nat.add_comm 1], fun h => ?_, fun j hj => ?_⟩
      · rw [← hshift]
        exact hset (Nat.lt_of_succ_lt_succ h)
      · cases j with
        | zero =>
          rw [Nat.mul_zero, BitVec.shiftLeft_zero]
          exact not_not.mp hmask
        | succ j =>
          rw [← hshift]
          exact hclear j (Nat.lt_of_succ_lt_succ hj)

theorem zero_getLsbD (i : Nat) : (0 : BitVec 64).getLsbD i = false := BitVec.getLsbD_zero

theorem byte_getLsbD (m i : Nat) :
    (0xff#64 <<< m).getLsbD i = decide (i < 64 ∧ m ≤ i ∧ i < m + 8) := by
  have hmask : 0xff#64 = PAGE_ORDER_MASK := by decide
  rw [hmask, BitVec.getLsbD_shiftLeft, orderMask_getLsbD]
  rw [← Bool.decide_coe (decide (i < 64) && _ && _), decide_eq_decide]
  simp only [Bool.and_eq_true, Bool.not_eq_true', decide_eq_true_eq, decide_eq_false_iff_not]
  omega

/-- A byte of the word is not zero if one of its bits is set. -/
theorem and_byte_ne_zero {x : BitVec 64} {m i : Nat} (hm : m ≤ i) (hi : i < m + 8)
    (hx : x.getLsbD i = true) : x &&& 0xff#64 <<< m ≠ 0 := by
  intro h0
  have h64 : i < 64 := BitVec.lt_of_getLsbD hx
  have hbit : (x &&& 0xff#64 <<< m).getLsbD i = true := by
    rw [BitVec.getLsbD_and, hx, byte_getLsbD, Bool.true_and, decide_eq_true_eq]
    exact ⟨h64, hm, hi⟩
  rw [h0, zero_getLsbD] at hbit
  cases hbit

/-- A byte that is not zero has a set bit. -/
theorem exists_bit_of_byte {x : BitVec 64} {m : Nat} (h : x &&& 0xff#64 <<< m ≠ 0) :
    ∃ j < 8, x.getLsbD (m + j) = true := by
  by_contra hnone
  apply h
  apply BitVec.eq_of_getLsbD_eq
  intro i _
  rw [BitVec.getLsbD_and, byte_getLsbD, zero_getLsbD, Bool.and_eq_false_iff]
  by_cases hin : m ≤ i ∧ i < m + 8
  · left
    rw [Bool.eq_false_iff]
    intro hx
    exact hnone ⟨i - m, by omega, by rwa [Nat.add_sub_cancel' hin.1]⟩
  · right
    rw [decide_eq_false_iff_not]
    exact fun hi => hin hi.2

/-- **`ffs` finds a set bit.** -/
theorem ffs_spec {x : BitVec 64} (hx : x ≠ 0) : ffs x < 64 ∧ x.getLsbD (ffs x) = true := by
  obtain ⟨byte, _, hbyte, hset, hclear⟩ := ffsLoop_spec x 8 8 0 0xff#64
  have hlt : byte < 8 := by
    by_contra hge
    apply hx
    apply BitVec.eq_of_getLsbD_eq
    intro i hi
    rw [zero_getLsbD, Bool.eq_false_iff]
    intro hxi
    exact and_byte_ne_zero (m := 8 * (i / 8)) (by omega) (by omega) hxi (hclear (i / 8) (by omega))
  obtain ⟨j, hj, hxj⟩ := exists_bit_of_byte (hset hlt)
  obtain ⟨bit, _, hbit, hset', hclear'⟩ := ffsLoop_spec x 1 8 0 (1#64 <<< (byte * 8))
  have hmask : ∀ k < 8, x &&& 1#64 <<< (byte * 8) <<< (1 * k) ≠ 0 ↔
      x.getLsbD (byte * 8 + k) = true := by
    intro k hk
    rw [← BitVec.shiftLeft_add, Nat.one_mul, ← and_one_shiftLeft_ne_zero x (by omega), bne_iff_ne]
  have hlt' : bit < 8 := by
    by_contra hge
    rw [Nat.mul_comm] at hxj
    exact (hmask j hj).mpr hxj (hclear' j (by omega))
  have hffs : ffs x = byte * 8 + bit := by
    unfold ffs
    simp only [hbyte, Nat.zero_add, hbit]
  rw [hffs]
  exact ⟨by omega, (hmask bit hlt').mp (hset' hlt')⟩

/-! ## Slots -/

variable {mask : Bitmask} {pos n words : Nat}

theorem bitAt_setSlot (mask : Bitmask) (pos q : Nat) :
    bitAt (setSlot mask (pos / OBJS_PER_WORD) (pos % OBJS_PER_WORD)) q =
      (bitAt mask q || decide (q = pos)) := by
  have hmod : pos % OBJS_PER_WORD < 64 := Nat.mod_lt _ (by decide)
  unfold bitAt setSlot
  by_cases hword : q / OBJS_PER_WORD = pos / OBJS_PER_WORD
  · rw [hword, Function.update_self, BitVec.getLsbD_or, one_shiftLeft_getLsbD hmod]
    congr 1
    rw [decide_eq_decide, Nat.ext_div_mod_iff OBJS_PER_WORD q pos]
    exact (and_iff_right hword).symm
  · rw [Function.update_of_ne hword]
    have hne : q ≠ pos := fun he => hword (by rw [he])
    rw [decide_eq_false hne, Bool.or_false]

theorem bitAt_clearSlot (mask : Bitmask) (pos q : Nat) :
    bitAt (clearSlot mask (pos / OBJS_PER_WORD) (pos % OBJS_PER_WORD)) q =
      (bitAt mask q && !decide (q = pos)) := by
  have hmod : pos % OBJS_PER_WORD < 64 := Nat.mod_lt _ (by decide)
  have hq : q % OBJS_PER_WORD < 64 := Nat.mod_lt _ (by decide)
  unfold bitAt clearSlot
  by_cases hword : q / OBJS_PER_WORD = pos / OBJS_PER_WORD
  · rw [hword, Function.update_self, BitVec.getLsbD_and, BitVec.getLsbD_not,
      one_shiftLeft_getLsbD hmod, decide_eq_true hq, Bool.true_and]
    congr 2
    rw [decide_eq_decide, Nat.ext_div_mod_iff OBJS_PER_WORD q pos]
    exact (and_iff_right hword).symm
  · rw [Function.update_of_ne hword]
    have hne : q ≠ pos := fun he => hword (by rw [he])
    rw [decide_eq_false hne, Bool.not_false, Bool.and_true]

/-- The slots below `n` whose bit is clear. -/
def freeSlots (n : Nat) (mask : Bitmask) : Finset Nat :=
  (Finset.range n).filter fun pos => bitAt mask pos = false

theorem mem_freeSlots : pos ∈ freeSlots n mask ↔ pos < n ∧ bitAt mask pos = false := by
  rw [freeSlots, Finset.mem_filter, Finset.mem_range]

theorem freeSlots_card_le (n : Nat) (mask : Bitmask) : (freeSlots n mask).card ≤ n := by
  calc (freeSlots n mask).card ≤ (Finset.range n).card := Finset.card_filter_le _ _
    _ = n := Finset.card_range n

/-- Taking a slot. -/
theorem freeSlots_set (n : Nat) (mask : Bitmask) (pos : Nat) :
    freeSlots n (setSlot mask (pos / OBJS_PER_WORD) (pos % OBJS_PER_WORD)) =
    (freeSlots n mask).erase pos := by
  ext q
  rw [Finset.mem_erase, mem_freeSlots, mem_freeSlots, bitAt_setSlot, Bool.or_eq_false_iff,
    decide_eq_false_iff_not]
  tauto

/-- Giving a slot back. -/
theorem freeSlots_clear (hpos : pos < n) :
    freeSlots n (clearSlot mask (pos / OBJS_PER_WORD) (pos % OBJS_PER_WORD)) =
    insert pos (freeSlots n mask) := by
  ext q
  rw [Finset.mem_insert, mem_freeSlots, mem_freeSlots, bitAt_clearSlot, Bool.and_eq_false_iff,
    Bool.not_eq_false', decide_eq_true_eq]
  constructor
  · rintro ⟨hq, hclear | rfl⟩
    · exact Or.inr ⟨hq, hclear⟩
    · exact Or.inl rfl
  · rintro (rfl | ⟨hq, hclear⟩)
    · exact ⟨hpos, Or.inr rfl⟩
    · exact ⟨hq, Or.inl hclear⟩

/-- No slot is taken if all are free. -/
theorem bitAt_of_card (h : (freeSlots n mask).card = n) (hpos : pos < n) :
    bitAt mask pos = false := by
  have hall : freeSlots n mask = Finset.range n :=
    Finset.eq_of_subset_of_card_le (Finset.filter_subset _ _) (by rw [h, Finset.card_range])
  exact (mem_freeSlots.mp (hall ▸ Finset.mem_range.mpr hpos)).2

/-! ## The search -/

/-- The loop stops at a word that is not full, if there is one. -/
theorem poolScan_spec : ∀ (n word w : Nat), word ≤ w → w < word + n → mask w ≠ ~~~0 →
    ∃ w', poolScan mask n word = some w' ∧ w' < word + n ∧ mask w' ≠ ~~~0 := by
  intro n
  induction n with
  | zero =>
    intro word w hle hlt
    omega
  | succ n ih =>
    intro word w hle hlt hw
    rw [poolScan]
    split
    case isTrue hfull =>
      have hne : w ≠ word := fun he => hw (he ▸ hfull)
      obtain ⟨w', hscan, hlt', hw'⟩ := ih (word + 1) w (by omega) (by omega) hw
      exact ⟨w', hscan, by omega, hw'⟩
    case isFalse hword =>
      exact ⟨word, rfl, by omega, hword⟩

/-- **The search leads to a free slot**: the slots behind the first `n` are marked as taken. -/
theorem poolScan_slot (hn : n ≤ words * OBJS_PER_WORD)
    (htail : ∀ pos, n ≤ pos → pos < words * OBJS_PER_WORD → bitAt mask pos = true)
    (hfree : (freeSlots n mask).Nonempty) :
    ∃ word bit, poolScan mask words 0 = some word ∧ ffs (~~~mask word) = bit ∧ bit < OBJS_PER_WORD ∧
      OBJS_PER_WORD * word + bit ∈ freeSlots n mask := by
  obtain ⟨p, hp⟩ := hfree
  obtain ⟨hpn, hpclear⟩ := mem_freeSlots.mp hp
  have hword : mask (p / OBJS_PER_WORD) ≠ ~~~0 := by
    intro hfull
    rw [bitAt, hfull, BitVec.getLsbD_not, zero_getLsbD, Bool.not_false, Bool.and_true,
      decide_eq_false_iff_not] at hpclear
    exact hpclear (Nat.mod_lt _ (by decide))
  obtain ⟨w, hscan, hw, hne⟩ := poolScan_spec words 0 (p / OBJS_PER_WORD) (Nat.zero_le _)
    (by rw [Nat.zero_add]; exact Nat.div_lt_of_lt_mul (by rw [Nat.mul_comm]; omega)) hword
  have hnot : ~~~mask w ≠ 0 := fun h0 => hne (by rw [← h0, BitVec.not_not])
  obtain ⟨hbit, hset⟩ := ffs_spec hnot
  generalize hffs : ffs (~~~mask w) = bit at *
  have hdiv : (OBJS_PER_WORD * w + bit) / OBJS_PER_WORD = w := by
    rw [Nat.mul_add_div (by decide), Nat.div_eq_of_lt (by exact hbit), Nat.add_zero]
  have hmod : (OBJS_PER_WORD * w + bit) % OBJS_PER_WORD = bit := by
    rw [Nat.mul_add_mod, Nat.mod_eq_of_lt (by exact hbit)]
  have hclear : bitAt mask (OBJS_PER_WORD * w + bit) = false := by
    rw [bitAt, hdiv, hmod]
    rw [BitVec.getLsbD_not, Bool.and_eq_true, Bool.not_eq_true'] at hset
    exact hset.2
  refine ⟨w, bit, hscan, hffs, hbit, mem_freeSlots.mpr ⟨?_, hclear⟩⟩
  by_contra hge
  have hin : OBJS_PER_WORD * w + bit < words * OBJS_PER_WORD := by
    unfold OBJS_PER_WORD WORD_SZ at *
    omega
  rw [htail _ (not_lt.mp hge) hin] at hclear
  cases hclear

/-! ## The first mask -/

theorem low_bits_getLsbD {k : Nat} (hk : k < 64) (i : Nat) :
    (1#64 <<< k - 1).getLsbD i = decide (i < k) := by
  have hlt : 2 ^ k < 2 ^ 64 := Nat.pow_lt_pow_right (by decide) hk
  have hone : (1#64 <<< k).toNat = 2 ^ k := by
    rw [BitVec.toNat_shiftLeft, BitVec.toNat_ofNat, Nat.one_mod_two_pow (by decide),
      Nat.one_shiftLeft, Nat.mod_eq_of_lt hlt]
  have hval : (1#64 <<< k - 1).toNat = 2 ^ k - 1 := by
    have hpos := Nat.two_pow_pos k
    rw [BitVec.toNat_sub, hone]
    show (2 ^ 64 - 1 + 2 ^ k) % 2 ^ 64 = 2 ^ k - 1
    omega
  rw [BitVec.getLsbD, hval, Nat.testBit_two_pow_sub_one]

/-- **After the setup** the bits of the objects are clear, the other bits of the words are set. -/
theorem bitAt_setup {layout : Layout} (hwords : layout.maskWords = (layout.objCount + 63) / 64)
    (mask : Bitmask) {pos : Nat} (hpos : pos < layout.maskWords * OBJS_PER_WORD) :
    bitAt (memPoolBitmapSetup layout mask) pos = decide (layout.objCount ≤ pos) := by
  have hnone : layout.maskWords - (layout.objCount / OBJS_PER_WORD + 1) = 0 := by
    rw [hwords, OBJS_PER_WORD, WORD_SZ]
    omega
  have hword : pos / OBJS_PER_WORD < layout.maskWords := by
    unfold OBJS_PER_WORD WORD_SZ at *
    omega
  unfold memPoolBitmapSetup
  simp only [hnone, fillLoop]
  rw [bitAt]
  split
  case isTrue hrest =>
    by_cases hlast : pos / OBJS_PER_WORD = layout.objCount / OBJS_PER_WORD
    · have hmod : layout.objCount % OBJS_PER_WORD < 64 := Nat.mod_lt _ (by decide)
      have hposmod : pos % OBJS_PER_WORD < 64 := Nat.mod_lt _ (by decide)
      rw [hlast, Function.update_self, BitVec.getLsbD_not, low_bits_getLsbD hmod,
        decide_eq_true hposmod, Bool.true_and, ← decide_not, decide_eq_decide]
      unfold OBJS_PER_WORD WORD_SZ at *
      omega
    · rw [Function.update_of_ne hlast, if_pos hword, zero_getLsbD, eq_comm,
        decide_eq_false_iff_not, not_le]
      unfold OBJS_PER_WORD WORD_SZ at *
      omega
  case isFalse hrest =>
    simp only [if_pos hword]
    rw [zero_getLsbD, eq_comm, decide_eq_false_iff_not, not_le]
    unfold OBJS_PER_WORD WORD_SZ at *
    omega

end Slab

end AuOs
