import Mathlib

/-!
# Descriptors

Reference model of `idt_entry_setup` of `ints.c` and of `setup_tss_desc` of `threads.c`.

* `Descriptor` — the two words of a descriptor.
* `gateOffset`, `gateSelector`, `gateFlags`, `tssBase`, `tssLimit` — how the processor reads a gate
  and a system descriptor.
* `idtLow_getLsbD`, `tssLow_getLsbD` — where the bits of the arguments are in the low word.
* `roundTrips_iff` — a gate is read back as it was written; a TSS descriptor has its base, but lost
  the bits of its limit above the 16th.
-/

set_option autoImplicit false

namespace AuOs

namespace Desc

/-! ## The two functions -/

/-- `struct idt_entry` and `struct tss_desc`. -/
structure Descriptor where
  low : BitVec 64
  high : BitVec 64
  deriving DecidableEq, Repr

/-- `idt_entry_setup`. -/
def idtEntrySetup (selector : BitVec 16) (handler flags : BitVec 64) : Descriptor where
  low := (handler &&& 0xFFFF#64) ||| selector.setWidth 64 <<< 16 |||
    (handler &&& 0xFFFF0000#64) <<< 32 ||| flags
  high := handler >>> 32 &&& 0xFFFFFFFF#64

def IO_MAP_BITS : Nat := 1 <<< 16

/-- `IO_MAP_BITS / sizeof(unsigned long)`. -/
def IO_MAP_WORDS : Nat := IO_MAP_BITS / 8

/-- `sizeof(tss_t)`, a packed structure; the map starts at 104. -/
def SIZEOF_TSS : Nat := 4 + 3 * 8 + 8 + 7 * 8 + 8 + 2 + 2 + (IO_MAP_WORDS + 1) * 8

/-- `setup_tss_desc`. -/
def setupTssDesc (tss : BitVec 64) : Descriptor :=
  let limit : BitVec 64 := BitVec.ofNat 64 (SIZEOF_TSS - 1)
  let base := tss
  { low := (limit &&& 0xFFFF#64) ||| (base &&& 0xFFFFFF#64) <<< 16 ||| 0xE90000000000#64 |||
      (limit &&& 0xF0000#64 <<< 16) <<< 32 ||| (base &&& 0xFF#64 <<< 24) <<< 32
    high := base >>> 32 &&& 0xFFFFFFFF#64 }

/-! ## The layouts -/

/-- The offset of a gate: its bits 0 to 15, 48 to 63 and 64 to 95. -/
def gateOffset (d : Descriptor) : BitVec 64 :=
  d.high.extractLsb' 0 32 ++ d.low.extractLsb' 48 16 ++ d.low.extractLsb' 0 16

def gateSelector (d : Descriptor) : BitVec 16 := d.low.extractLsb' 16 16

/-- The bits 32 to 47 of a gate: the stack, the type, the privilege level and whether it is
present. -/
def gateFlags (d : Descriptor) : BitVec 16 := d.low.extractLsb' 32 16

/-- The base of a system descriptor: its bits 16 to 39, 56 to 63 and 64 to 95. -/
def tssBase (d : Descriptor) : BitVec 64 :=
  d.high.extractLsb' 0 32 ++ d.low.extractLsb' 56 8 ++ d.low.extractLsb' 16 24

/-- The limit of a system descriptor: its bits 0 to 15 and 48 to 51. -/
def tssLimit (d : Descriptor) : BitVec 20 := d.low.extractLsb' 48 4 ++ d.low.extractLsb' 0 16

/-- The descriptors that are written, with their arguments.  The flags of a gate are the bits 32 to
47 of the word that is passed. -/
inductive Entry where
  | gate (selector : BitVec 16) (handler : BitVec 64) (flags : BitVec 16)
  | tss (addr : BitVec 64)
  deriving DecidableEq, Repr

/-- What is written can be read back. -/
def Entry.RoundTrips : Entry → Prop
  | gate selector handler flags =>
    let d := idtEntrySetup selector handler (flags.setWidth 64 <<< 32)
    gateOffset d = handler ∧ gateSelector d = selector ∧ gateFlags d = flags
  | tss addr =>
    tssBase (setupTssDesc addr) = addr ∧ (tssLimit (setupTssDesc addr)).toNat = SIZEOF_TSS - 1

/-! ## Bits -/

/-- `n` bits from `k` on. -/
def mask (n k : Nat) : BitVec 64 := BitVec.ofNat 64 ((2 ^ n - 1) * 2 ^ k)

theorem mask_getLsbD (n k i : Nat) : (mask n k).getLsbD i =
    decide (i < 64 ∧ k ≤ i ∧ i < k + n) := by
  rw [mask, BitVec.getLsbD_ofNat, Nat.testBit_mul_two_pow, Nat.testBit_two_pow_sub_one,
    ← Bool.decide_and, ← Bool.decide_and, decide_eq_decide]
  omega

theorem mask_16_0 : 0xFFFF#64 = mask 16 0 := by decide

theorem mask_16_16 : 0xFFFF0000#64 = mask 16 16 := by decide

theorem mask_24_0 : 0xFFFFFF#64 = mask 24 0 := by decide

theorem mask_8_24 : 0xFF#64 <<< 24 = mask 8 24 := by decide

theorem mask_32_0 : 0xFFFFFFFF#64 = mask 32 0 := by decide

/-- The high word of either descriptor. -/
theorem high_getLsbD (x : BitVec 64) {i : Nat} (hi : i < 32) :
    (x >>> 32 &&& 0xFFFFFFFF#64).getLsbD i = x.getLsbD (32 + i) := by
  rw [BitVec.getLsbD_and, mask_32_0, mask_getLsbD, BitVec.getLsbD_ushiftRight,
    decide_eq_true (by omega), Bool.and_true]

section Gate

variable {selector flags : BitVec 16} {handler : BitVec 64}

/-- **The low word of a gate**, bit by bit. -/
theorem idtLow_getLsbD {i : Nat} (hi : i < 64) :
    (idtEntrySetup selector handler (flags.setWidth 64 <<< 32)).low.getLsbD i =
      if i < 16 then handler.getLsbD i else if i < 32 then selector.getLsbD (i - 16)
      else if i < 48 then flags.getLsbD (i - 32) else handler.getLsbD (i - 32) := by
  simp only [idtEntrySetup, mask_16_0, mask_16_16, BitVec.getLsbD_or, BitVec.getLsbD_and,
    BitVec.getLsbD_shiftLeft, BitVec.getLsbD_setWidth, mask_getLsbD]
  rcases Nat.lt_or_ge i 16 with h16 | h16
  · simp [h16, hi, show i < 32 by omega]
  rcases Nat.lt_or_ge i 32 with h32 | h32
  · simp [h32, hi, show ¬ i < 16 by omega, show i - 16 < 64 by omega]
  have hsel : selector.getLsbD (i - 16) = false := BitVec.getLsbD_of_ge _ _ (by omega)
  rcases Nat.lt_or_ge i 48 with h48 | h48
  · simp [h48, hi, hsel, show ¬ i < 16 by omega, show ¬ i < 32 by omega,
      show ¬ 16 ≤ i - 32 by omega, show i - 32 < 64 by omega]
  · simp [hi, hsel, show ¬ i < 16 by omega, show ¬ i < 32 by omega, show ¬ i < 48 by omega,
      show 16 ≤ i - 32 by omega, show i - 32 < 64 by omega, show i - 32 < 32 by omega]

/-- **A gate** is read back as it was written. -/
theorem gate_roundTrips (selector flags : BitVec 16) (handler : BitVec 64) :
    (Entry.gate selector handler flags).RoundTrips := by
  refine ⟨BitVec.eq_of_getLsbD_eq fun i hi => ?_, BitVec.eq_of_getLsbD_eq fun i hi => ?_,
    BitVec.eq_of_getLsbD_eq fun i hi => ?_⟩
  · rw [gateOffset, BitVec.getLsbD_append]
    split
    case isTrue h16 =>
      rw [BitVec.getLsbD_extractLsb', Nat.zero_add, idtLow_getLsbD (by omega), if_pos h16]
      simp [h16]
    case isFalse h16 =>
      rw [BitVec.getLsbD_append]
      split
      case isTrue h32 =>
        rw [BitVec.getLsbD_extractLsb', idtLow_getLsbD (by omega), if_neg (by omega),
          if_neg (by omega), if_neg (by omega), show 48 + (i - 16) - 32 = i by omega]
        simp [h32]
      case isFalse h32 =>
        rw [BitVec.getLsbD_extractLsb', idtEntrySetup, high_getLsbD handler (by omega),
          show 32 + (0 + (i - 16 - 16)) = i by omega, decide_eq_true (by omega), Bool.true_and]
  · rw [gateSelector, BitVec.getLsbD_extractLsb', idtLow_getLsbD (by omega), if_neg (by omega),
      if_pos (by omega), Nat.add_sub_cancel_left]
    simp [hi]
  · rw [gateFlags, BitVec.getLsbD_extractLsb', idtLow_getLsbD (by omega), if_neg (by omega),
      if_neg (by omega), if_pos (by omega), Nat.add_sub_cancel_left]
    simp [hi]

end Gate

section Tss

variable {addr : BitVec 64}

/-- The part of the limit that is stored. -/
theorem limit_low : BitVec.ofNat 64 (SIZEOF_TSS - 1) &&& 0xFFFF#64 = 0x6F#64 := by decide

/-- The mask for the other part is shifted away from it. -/
theorem limit_high : BitVec.ofNat 64 (SIZEOF_TSS - 1) &&& 0xF0000#64 <<< 16 = 0#64 := by decide

theorem tss_access : 0xE90000000000#64 = 0xE9#64 <<< 40 := by decide

/-- A byte has no bits from the eighth on. -/
theorem byte_high {n i : Nat} (hn : n < 2 ^ 8) (hi : 8 ≤ i) :
    (BitVec.ofNat 64 n).getLsbD i = false := by
  rw [BitVec.getLsbD_ofNat, Nat.testBit_lt_two_pow
    (hn.trans_le (Nat.pow_le_pow_right (by decide) hi)), Bool.and_false]

/-- **The low word of a TSS descriptor**, bit by bit. -/
theorem tssLow_getLsbD {i : Nat} (hi : i < 64) :
    (setupTssDesc addr).low.getLsbD i =
      if i < 16 then (0x6F#64).getLsbD i else if i < 40 then addr.getLsbD (i - 16)
      else if i < 56 then (0xE9#64).getLsbD (i - 40) else addr.getLsbD (i - 32) := by
  simp only [setupTssDesc, limit_low, limit_high, tss_access, mask_24_0, mask_8_24,
    BitVec.getLsbD_or, BitVec.getLsbD_and, BitVec.getLsbD_shiftLeft, mask_getLsbD]
  rcases Nat.lt_or_ge i 16 with h16 | h16
  · simp [h16, show i < 40 by omega, show i < 32 by omega]
  rw [show (0x6F#64).getLsbD i = false from byte_high (by decide) (by omega)]
  rcases Nat.lt_or_ge i 40 with h40 | h40
  · simp [hi, h40, show ¬ i < 16 by omega, show i - 16 < 64 by omega, show i - 16 < 24 by omega,
      show ¬ 24 ≤ i - 32 by omega]
  rcases Nat.lt_or_ge i 56 with h56 | h56
  · simp [hi, h56, show ¬ i < 16 by omega, show ¬ i < 40 by omega, show ¬ i - 16 < 24 by omega,
      show ¬ 24 ≤ i - 32 by omega]
  · have haccess : (0xE9#64).getLsbD (i - 40) = false := byte_high (by decide) (by omega)
    simp [haccess, hi, show ¬ i < 16 by omega, show ¬ i < 40 by omega, show ¬ i < 56 by omega,
      show ¬ i < 32 by omega, show ¬ i - 16 < 24 by omega, show i - 32 < 64 by
        omega, show 24 ≤ i - 32 by omega,
      show i - 32 < 32 by omega]

/-- **The base of the TSS** is read back. -/
theorem tssBase_setup (addr : BitVec 64) : tssBase (setupTssDesc addr) = addr := by
  apply BitVec.eq_of_getLsbD_eq
  intro i hi
  rw [tssBase, BitVec.getLsbD_append]
  split
  case isTrue h24 =>
    rw [BitVec.getLsbD_extractLsb', tssLow_getLsbD (by omega), if_neg (by omega), if_pos (by omega),
      Nat.add_sub_cancel_left]
    simp [h24]
  case isFalse h24 =>
    rw [BitVec.getLsbD_append]
    split
    case isTrue h8 =>
      rw [BitVec.getLsbD_extractLsb', tssLow_getLsbD (by omega), if_neg (by omega),
        if_neg (by omega), if_neg (by omega), show 56 + (i - 24) - 32 = i by omega]
      simp [h8]
    case isFalse h8 =>
      rw [BitVec.getLsbD_extractLsb', setupTssDesc, high_getLsbD addr (by omega),
        show 32 + (0 + (i - 24 - 8)) = i by omega, decide_eq_true (by omega), Bool.true_and]

/-- **The limit of the TSS** is cut off behind its 16th bit, whatever the address is. -/
theorem tssLimit_setup (addr : BitVec 64) : tssLimit (setupTssDesc addr) = 0x6F#20 := by
  apply BitVec.eq_of_getLsbD_eq
  intro i hi
  have hconst : (0x6F#20).getLsbD i = (0x6F#64).getLsbD i := by
    rw [BitVec.getLsbD_ofNat, BitVec.getLsbD_ofNat, decide_eq_true hi, decide_eq_true (by omega)]
  rw [tssLimit, BitVec.getLsbD_append, hconst]
  split
  case isTrue h16 =>
    rw [BitVec.getLsbD_extractLsb', Nat.zero_add, tssLow_getLsbD (by omega), if_pos h16]
    simp [h16]
  case isFalse h16 =>
    rw [BitVec.getLsbD_extractLsb', tssLow_getLsbD (by omega), if_neg (by omega), if_neg (by omega),
      if_pos (by omega), byte_high (by decide) (by omega), byte_high (by decide) (by omega),
        Bool.and_false]

end Tss

/-- **What is written is read back** if and only if it is a gate.  Of a TSS descriptor the base is
read back, and only the lower 16 bits of the limit. -/
theorem roundTrips_iff (entry : Entry) :
    (entry.RoundTrips ↔ ∃ selector handler flags, entry = .gate selector handler flags) ∧
    ∀ addr, tssBase (setupTssDesc addr) = addr ∧ tssLimit (setupTssDesc addr) = 0x6F#20 := by
  refine ⟨?_, fun addr => ⟨tssBase_setup addr, tssLimit_setup addr⟩⟩
  cases entry with
  | gate selector handler flags =>
    exact iff_of_true (gate_roundTrips selector flags handler) ⟨_, _, _, rfl⟩
  | tss addr =>
    refine iff_of_false ?_ ?_
    · rintro ⟨_, hlimit⟩
      rw [tssLimit_setup] at hlimit
      exact absurd hlimit (by decide)
    · rintro ⟨_, _, _, h⟩
      cases h

/-- The limit of the TSS at any address is read back as `0x6f`, which ends before the map. -/
theorem tss_limit_lost : (tssLimit (setupTssDesc 0x100000)).toNat = 0x6F ∧
    SIZEOF_TSS - 1 = 0x1006F ∧ ¬ (Entry.tss 0x100000).RoundTrips := by
  refine ⟨by decide, by decide, ?_⟩
  rintro ⟨_, hlimit⟩
  exact absurd hlimit (by decide)

end Desc

end AuOs
