import Mathlib
import AuOs.Initramfs.Cpio

/-!
# Two decoders of numbers

Reference model of `atoi` of `string.c`, and its comparison with `cpiotoi` of `initramfs.c`.  Both
take the digits from the last one on, with a running power of the base.

* `atoi` — the function; `atoiDigit` is the value it gives a digit.
* `digitValue`, `positional` — the value of a digit, and of a string of digits.
* `weigh` — a sum over the digits, each weighted by its power of the base.
* `cpiotoi_positional` — `cpiotoi` is the positional value of a hexadecimal string.
* `digitError` — how far `atoi` is off at a digit, for bases above 10.
* `atoi_meets_iff` — **when `atoi` returns the positional value**.
-/

set_option autoImplicit false

namespace AuOs

/-- `MIN`. -/
def macroMin (a b : Int) : Int := if a < b then a else b

/-- `ABS`. -/
def macroAbs (a : Int) : Int := if a < 0 then -a else a

/-- `digit` of a turn of `atoi`. -/
def atoiDigit (base : BitVec 32) (c : Int8) : BitVec 32 :=
  if base > 10 then BitVec.ofInt 32 (macroMin (macroAbs (c.toInt - 65)) (macroAbs (c.toInt - 97)))
  else BitVec.ofInt 32 (c.toInt - 48)

/-- The loop of `atoi`, over the bytes from the last one on. -/
def atoiLoop (base : BitVec 32) : Bytes → BitVec 32 → BitVec 32 → BitVec 32
  | [], res, _ => res
  | c :: buf, res, mul => atoiLoop base buf (res + mul * atoiDigit base c) (mul * base)

/-- `atoi(buf, size, base)`, for the `size` bytes at `buf`. -/
def atoi (buf : Bytes) (base : BitVec 32) : BitVec 32 := atoiLoop base buf.reverse 0 1

/-! ## Positional values -/

/-- The value of a digit, in either case. -/
def digitValue (c : Int8) : Option Nat :=
  if 48 ≤ c.toInt ∧ c.toInt ≤ 57 then some (c.toInt - 48).toNat
  else if 65 ≤ c.toInt ∧ c.toInt ≤ 70 then some (c.toInt - 55).toNat
  else if 97 ≤ c.toInt ∧ c.toInt ≤ 102 then some (c.toInt - 87).toNat
  else none

/-- A string of digits of a base. -/
def IsNumber (base : Nat) (buf : Bytes) : Prop := ∀ c ∈ buf, ∃ d < base, digitValue c = some d

/-- The number that a string of digits stands for. -/
def positional (base : Nat) (buf : Bytes) : Nat :=
  Nat.ofDigits base (buf.reverse.map fun c => (digitValue c).getD 0)

/-- The sum of `f` over the digits, each weighted by its power of the base; the first has weight
one. -/
def weigh (base : Int) (f : Int8 → Int) : Bytes → Int
  | [] => 0
  | c :: buf => f c + base * weigh base f buf

section Weigh

variable {base : Int} {f g : Int8 → Int} {buf : Bytes}

theorem weigh_congr (h : ∀ c ∈ buf, f c = g c) : weigh base f buf = weigh base g buf := by
  induction buf with
  | nil => rfl
  | cons c buf ih =>
    rw [weigh, weigh, h c List.mem_cons_self, ih fun c hc => h c (List.mem_cons_of_mem _ hc)]

theorem weigh_sub : weigh base f buf - weigh base g buf = weigh base (fun c => f c - g c) buf := by
  induction buf with
  | nil => rfl
  | cons c buf ih =>
    rw [weigh, weigh, weigh, ← ih]
    ring

theorem positional_eq (base : Nat) (buf : Bytes) :
    (positional base buf : Int) =
      weigh base (fun c => ((digitValue c).getD 0 : Nat)) buf.reverse := by
  unfold positional
  induction buf.reverse with
  | nil => rfl
  | cons c buf ih =>
    rw [List.map_cons, Nat.ofDigits_cons, weigh, ← ih]
    push_cast
    rfl

end Weigh

/-! ## The loops -/

/-- Both loops, for the values they give the digits. -/
def digitLoop (digit : Int8 → BitVec 32) (base : BitVec 32) :
    Bytes → BitVec 32 → BitVec 32 → BitVec 32
  | [], res, _ => res
  | c :: buf, res, mul => digitLoop digit base buf (res + mul * digit c) (mul * base)

theorem atoiLoop_digitLoop (base : BitVec 32) (buf : Bytes) : ∀ res mul,
    atoiLoop base buf res mul = digitLoop (atoiDigit base) base buf res mul := by
  induction buf with
  | nil => exact fun _ _ => rfl
  | cons c buf ih => exact fun _ _ => ih _ _

theorem cpioLoop_digitLoop (buf : Bytes) : ∀ res mul, cpioLoop buf res mul =
    digitLoop (fun c => BitVec.ofInt 32 (charToDigit c).toInt) 16 buf res mul := by
  induction buf with
  | nil => exact fun _ _ => rfl
  | cons c buf ih => exact fun _ _ => ih _ _

/-- **The loops** compute a weighted sum, modulo `2 ^ 32`. -/
theorem digitLoop_eq {digit : Int8 → BitVec 32} {base : Int} {f : Int8 → Int} {buf : Bytes}
    (h : ∀ c ∈ buf, digit c = BitVec.ofInt 32 (f c)) : ∀ res mul,
    digitLoop digit (BitVec.ofInt 32 base) buf res mul =
    res + mul * BitVec.ofInt 32 (weigh base f buf) := by
  induction buf with
  | nil =>
    intro res mul
    have hzero : BitVec.ofInt 32 0 = 0#32 := rfl
    rw [digitLoop, weigh, hzero, BitVec.mul_zero, BitVec.add_zero]
  | cons c buf ih =>
    intro res mul
    rw [digitLoop, ih fun c hc => h c (List.mem_cons_of_mem _ hc), h c List.mem_cons_self, weigh,
      BitVec.ofInt_add, BitVec.ofInt_mul, BitVec.mul_add, BitVec.mul_assoc, BitVec.add_assoc]

/-- The loops from their start. -/
theorem digitLoop_start {digit : Int8 → BitVec 32} {base : Int} {f : Int8 → Int} {buf : Bytes}
    (h : ∀ c ∈ buf, digit c = BitVec.ofInt 32 (f c)) :
    digitLoop digit (BitVec.ofInt 32 base) buf 0 1 = BitVec.ofInt 32 (weigh base f buf) := by
  have hzero : (0 : BitVec 32) = 0#32 := rfl
  have hone : (1 : BitVec 32) = 1#32 := rfl
  rw [digitLoop_eq h, hzero, hone, BitVec.zero_add, BitVec.one_mul]

theorem ofInt_eq_iff {a b : Int} : BitVec.ofInt 32 a = BitVec.ofInt 32 b ↔
    (2 : Int) ^ 32 ∣ a - b := by
  rw [← BitVec.toNat_inj, BitVec.toNat_ofInt, BitVec.toNat_ofInt]
  norm_num
  omega

/-! ## The digits -/

section Digits

variable {c : Int8} {d : Nat} {base : BitVec 32}

/-- The three kinds of digits. -/
theorem digitValue_eq_some (h : digitValue c = some d) :
    (48 ≤ c.toInt ∧ c.toInt ≤ 57 ∧ (d : Int) = c.toInt - 48) ∨
    (65 ≤ c.toInt ∧ c.toInt ≤ 70 ∧ (d : Int) = c.toInt - 55) ∨
    (97 ≤ c.toInt ∧ c.toInt ≤ 102 ∧ (d : Int) = c.toInt - 87) := by
  unfold digitValue at h
  split at h
  case isTrue hc =>
    obtain rfl := Option.some.inj h
    omega
  case isFalse =>
    split at h
    case isTrue hc =>
      obtain rfl := Option.some.inj h
      omega
    case isFalse =>
      split at h
      case isTrue hc =>
        obtain rfl := Option.some.inj h
        omega
      case isFalse => cases h

/-- `char_to_digit` of a hexadecimal digit. -/
theorem charToDigit_digit (h : digitValue c = some d) : (charToDigit c).toInt = d := by
  have h48 : (48 : Int8).toInt = 48 := rfl
  have h57 : (57 : Int8).toInt = 57 := rfl
  have h65 : (65 : Int8).toInt = 65 := rfl
  have h70 : (70 : Int8).toInt = 70 := rfl
  have h97 : (97 : Int8).toInt = 97 := rfl
  have h10 : (10 : Int8).toInt = 10 := rfl
  rw [charToDigit]
  simp only [Int8.le_iff_toInt_le, h48, h57, h65, h70]
  rcases digitValue_eq_some h with hd | hd | hd
  · rw [if_pos (by omega), Int8.toInt_sub, h48, Int.bmod_def]
    omega
  · rw [if_neg (by omega), if_pos (by omega), Int8.toInt_add, Int8.toInt_sub, h10, h65,
      Int.bmod_def, Int.bmod_def]
    omega
  · rw [if_neg (by omega), if_neg (by omega), Int8.toInt_add, Int8.toInt_sub, h10, h97,
      Int.bmod_def, Int.bmod_def]
    omega

/-- How far `atoi` is off at a digit when the base is above 10: it takes the distance to the nearer
of the two letters `A` and `a`. -/
def digitError (c : Int8) : Int :=
  if 48 ≤ c.toInt ∧ c.toInt ≤ 57 then 17 - 2 * (c.toInt - 48) else -10

theorem atoiDigit_small (hb : ¬ base > 10) (h : digitValue c = some d) (hd : d < 10) :
    atoiDigit base c = BitVec.ofInt 32 d := by
  have hc : c.toInt - 48 = d := by
    rcases digitValue_eq_some h with h | h | h <;> omega
  rw [atoiDigit, if_neg hb, hc]

theorem atoiDigit_large (hb : base > 10) (h : digitValue c = some d) :
    atoiDigit base c = BitVec.ofInt 32 (d + digitError c) := by
  have hmin : macroMin (macroAbs (c.toInt - 65)) (macroAbs (c.toInt - 97)) = d + digitError c := by
    unfold macroMin macroAbs digitError
    rcases digitValue_eq_some h with h | h | h <;> split_ifs <;> omega
  rw [atoiDigit, if_pos hb, hmin]

end Digits

/-! ## The results -/

section Results

variable {base : Nat} {buf : Bytes}

/-- **`cpiotoi`** of a string of hexadecimal digits. -/
theorem cpiotoi_positional (h : IsNumber 16 buf) :
    cpiotoi buf = BitVec.ofNat 32 (positional 16 buf) := by
  have hdigit : ∀ c ∈ buf.reverse,
      BitVec.ofInt 32 (charToDigit c).toInt = BitVec.ofInt 32 (((digitValue c).getD 0 : Nat)) := by
    intro c hc
    obtain ⟨d, _, hd⟩ := h c (List.mem_reverse.mp hc)
    rw [charToDigit_digit hd, hd, Option.getD_some]
  have hbase : (16 : BitVec 32) = BitVec.ofInt 32 (16 : Nat) := rfl
  rw [cpiotoi, cpioLoop_digitLoop, hbase, digitLoop_start hdigit, ← positional_eq,
    BitVec.ofInt_natCast]

/-- The errors of the digits of a string, each weighted by its power of the base. -/
def errorSum (base : Nat) (buf : Bytes) : Int := weigh base digitError buf.reverse

theorem base_gt_iff (hb : base ≤ 16) : BitVec.ofNat 32 base > 10 ↔ 10 < base := by
  have hten : (10 : BitVec 32).toNat = 10 := rfl
  rw [gt_iff_lt, BitVec.lt_def, BitVec.toNat_ofNat, hten, Nat.mod_eq_of_lt (by omega)]

/-- For bases up to 10, `atoi` is right. -/
theorem atoi_small (hb : base ≤ 10) (h : IsNumber base buf) :
    atoi buf (BitVec.ofNat 32 base) = BitVec.ofInt 32 (positional base buf) := by
  have hbase := (base_gt_iff (show base ≤ 16 by omega)).not.mpr (by omega)
  have hdigit : ∀ c ∈ buf.reverse, atoiDigit (BitVec.ofNat 32 base) c =
      BitVec.ofInt 32 (((digitValue c).getD 0 : Nat)) := by
    intro c hc
    obtain ⟨d, hlt, hd⟩ := h c (List.mem_reverse.mp hc)
    rw [atoiDigit_small hbase hd (by omega), hd, Option.getD_some]
  rw [atoi, atoiLoop_digitLoop, positional_eq, ← digitLoop_start hdigit, BitVec.ofInt_natCast]

/-- For bases above 10, `atoi` is off by the errors of the digits. -/
theorem atoi_large (hb : 10 < base) (hb' : base ≤ 16) (h : IsNumber base buf) :
    atoi buf (BitVec.ofNat 32 base) = BitVec.ofInt 32
    (positional base buf + errorSum base buf) := by
  have hbase := (base_gt_iff hb').mpr hb
  have hdigit : ∀ c ∈ buf.reverse, atoiDigit (BitVec.ofNat 32 base) c =
      BitVec.ofInt 32 (((digitValue c).getD 0 : Nat) + digitError c) := by
    intro c hc
    obtain ⟨d, hlt, hd⟩ := h c (List.mem_reverse.mp hc)
    rw [atoiDigit_large hbase hd, hd, Option.getD_some]
  have hsum := @weigh_sub base (fun c => ((digitValue c).getD 0 : Nat) + digitError c)
    digitError buf.reverse
  have hvalue : weigh base (fun c => ((digitValue c).getD 0 : Nat) +
      digitError c - digitError c) buf.reverse = positional base buf := by
    rw [positional_eq]
    exact weigh_congr fun c _ => by omega
  have htotal : weigh base (fun c => ((digitValue c).getD 0 : Nat) + digitError c) buf.reverse =
      positional base buf + errorSum base buf := by
    rw [hvalue] at hsum
    rw [errorSum]
    omega
  rw [atoi, atoiLoop_digitLoop, ← htotal, ← digitLoop_start hdigit, BitVec.ofInt_natCast]

/-- In the bases 12 and 16 the error of the last digit cannot be made up for. -/
theorem errorSum_multiple_of_four (hb : 4 ∣ base) (hbuf : buf ≠ []) : ¬ (2 : Int) ^ 32 ∣
    errorSum base buf := by
  obtain ⟨c, rest, hrev⟩ := List.exists_cons_of_ne_nil (mt List.reverse_eq_nil_iff.mp hbuf)
  obtain ⟨k, rfl⟩ := hb
  rintro ⟨n, hn⟩
  rw [errorSum, hrev, weigh] at hn
  have herr : digitError c % 2 = 1 ∨ digitError c = -10 := by
    unfold digitError
    split_ifs
    · exact Or.inl (by omega)
    · exact Or.inr rfl
  generalize hr : weigh ((4 * k : Nat) : Int) digitError rest = r at hn
  have hmul : ((4 * k : Nat) : Int) * r = 4 * (k * r) := by
    push_cast
    ring
  rw [hmul] at hn
  norm_num at hn
  omega

end Results

/-- What `atoi` is for: it returns the positional value modulo `2 ^ 32`, in base 16 that of
`cpiotoi`. -/
structure AtoiMeets (base : Nat) (buf : Bytes) : Prop where
  value : atoi buf (BitVec.ofNat 32 base) = BitVec.ofNat 32 (positional base buf)
  agrees : base = 16 → atoi buf (BitVec.ofNat 32 base) = cpiotoi buf

/-- **When `atoi` returns the value.**  The nested macros give a decimal digit `d` the value `17 -
d` and a letter its distance from `A` or `a` when the base is above 10; the string comes out right
only if the errors cancel. -/
theorem atoi_meets_iff (base : Nat) (buf : Bytes) (hb : 2 ≤ base ∧ base ≤ 16)
    (h : IsNumber base buf) : AtoiMeets base buf ↔
      base ≤ 10 ∨ buf = [] ∨ (base ≠ 12 ∧ base ≠ 16 ∧ (2 : Int) ^ 32 ∣ errorSum base buf) := by
  have hmeets : AtoiMeets base buf ↔
      atoi buf (BitVec.ofNat 32 base) = BitVec.ofInt 32 (positional base buf) := by
    rw [BitVec.ofInt_natCast]
    refine ⟨fun hm => hm.value, fun hv => ⟨hv, ?_⟩⟩
    rintro rfl
    rw [hv, cpiotoi_positional h]
  rw [hmeets]
  by_cases hsmall : base ≤ 10
  · exact iff_of_true (atoi_small hsmall h) (Or.inl hsmall)
  · have hcancel : BitVec.ofInt 32 (positional base buf + errorSum base buf) =
        BitVec.ofInt 32 (positional base buf) ↔ (2 : Int) ^ 32 ∣ errorSum base buf := by
      rw [ofInt_eq_iff, add_sub_cancel_left]
    rw [atoi_large (by omega) hb.2 h, hcancel]
    constructor
    · intro hdvd
      by_cases hbuf : buf = []
      · exact Or.inr (Or.inl hbuf)
      · refine Or.inr (Or.inr ⟨?_, ?_, hdvd⟩)
        · rintro rfl
          exact errorSum_multiple_of_four (by decide) hbuf hdvd
        · rintro rfl
          exact errorSum_multiple_of_four (by decide) hbuf hdvd
    · rintro (hle | rfl | ⟨_, _, hdvd⟩)
      · exact absurd hle hsmall
      · exact Dvd.intro 0 rfl
      · exact hdvd

/-- In base 11 the two errors of `93` cancel. -/
theorem atoi_meets_iff_base_eleven : AtoiMeets 11 [57, 51] ∧ ¬ AtoiMeets 16 [49, 48] := by
  have hbase : 2 ≤ 11 ∧ 11 ≤ 16 := by decide
  have hnine : IsNumber 11 [57, 51] := by
    intro c hc
    rcases List.mem_cons.mp hc with rfl | hc
    · exact ⟨9, by decide, rfl⟩
    · rw [List.mem_singleton.mp hc]
      exact ⟨3, by decide, rfl⟩
  have hten : IsNumber 16 [49, 48] := by
    intro c hc
    rcases List.mem_cons.mp hc with rfl | hc
    · exact ⟨1, by decide, rfl⟩
    · rw [List.mem_singleton.mp hc]
      exact ⟨0, by decide, rfl⟩
  refine ⟨(atoi_meets_iff 11 [57, 51] hbase hnine).mpr
    (Or.inr (Or.inr ⟨by decide, by decide, 0, rfl⟩)), ?_⟩
  intro hm
  rcases (atoi_meets_iff 16 [49, 48] (by decide) hten).mp hm with h | h | ⟨_, h, _⟩
  · exact absurd h (by decide)
  · cases h
  · exact h rfl

/-- `atoi("10", 2, 16)` is 273. -/
theorem atoi_meets_counterexample : atoi [49, 48] 16 = 273 ∧ cpiotoi [49, 48] = 16 ∧
    ¬ AtoiMeets 16 [49, 48] := by
  refine ⟨by decide, by decide, ?_⟩
  intro hm
  exact absurd (hm.agrees rfl) (by decide)

end AuOs
