import Mathlib
import AuOs.Base
import AuOs.Lib.Splice

/-!
# Bytes

Reference model of the parts of `string.c` that work on blocks of bytes.

* `memcpy` — a pointer to read from is the list of the bytes from there to the end of its block, a
  pointer to write to is a block and a position in it.
* `strCompareAt`, `charToDigit` — `str_compare` with a string that ends inside its block, and
  `char_to_digit`.
* `memcpy_eq`, `memcpy_fault` — a copy inside both blocks is a splice; a copy that reads past the
  end of the source is a `fault`.
-/

set_option autoImplicit false

namespace AuOs

/-- A block of memory, or the bytes from a pointer to the end of its block. -/
abbrev Bytes := List Int8

/-- `memcpy`: `while (size--) *to++ = *from++;`. -/
def memcpy (dst : Bytes) (to_ : Nat) : Bytes → Nat → Res Bytes
  | _, 0 => .ok dst
  | [], _ + 1 => .error .fault
  | b :: from_, size + 1 =>
    if to_ < dst.length then memcpy (dst.set to_ b) (to_ + 1) from_ size else .error .fault

/-- `str_compare(a, b, strlen(b))`: the first difference ends it. -/
def strCompareAt : Bytes → Bytes → Res Int
  | _, [] => .ok 0
  | [], _ :: _ => .error .fault
  | a :: as, b :: bs =>
    if a < b then .ok (-1) else if b < a then .ok 1 else strCompareAt as bs

/-- `char_to_digit`. -/
def charToDigit (c : Int8) : Int8 :=
  if c ≤ 57 ∧ 48 ≤ c then c - 48
  else if 65 ≤ c ∧ c ≤ 70 then 10 + (c - 65)
  else 10 + (c - 97)

theorem set_eq_splice {dst : Bytes} {i : Nat} (b : Int8) (hi : i < dst.length) :
    dst.set i b = splice dst i [b] := by
  rw [List.set_eq_take_append_cons_drop, if_pos hi, splice, List.append_assoc]
  rfl

/-- **A copy inside both blocks.** -/
theorem memcpy_eq : ∀ {size to_ : Nat} {dst from_ : Bytes}, size ≤ from_.length →
    to_ + size ≤ dst.length → memcpy dst to_ from_ size = .ok (splice dst to_ (from_.take size))
  | 0, to_, dst, from_, _, _ => by
    rw [memcpy, List.take_zero, splice_nil]
  | size + 1, to_, dst, [], h, _ => absurd h (by simp)
  | size + 1, to_, dst, b :: from_, h, hto => by
    rw [List.length_cons] at h
    have hlen : to_ + 1 + size ≤ (dst.set to_ b).length := by
      rw [List.length_set]
      omega
    rw [memcpy, if_pos (by omega), memcpy_eq (Nat.le_of_succ_le_succ h) hlen,
      set_eq_splice b (by omega), List.take_succ_cons]
    exact congrArg Except.ok (splice_append (d := [b]) (by omega))

/-- The source is read past its end. -/
theorem memcpy_fault : ∀ {size to_ : Nat} {dst from_ : Bytes}, from_.length < size →
    memcpy dst to_ from_ size = .error .fault
  | 0, _, _, _, h => absurd h (Nat.not_lt_zero _)
  | _ + 1, _, _, [], _ => rfl
  | size + 1, to_, dst, b :: from_, h => by
    rw [memcpy]
    split
    · exact memcpy_fault (Nat.lt_of_succ_lt_succ h)
    · rfl

end AuOs
