import Mathlib
import AuOs.Lib.Post

/-!
# Memory of the 32-bit kernel

What `apic.c` and `main.c` of the second kernel use of memory.  Pointers and `uint32_t` are 32 bits
wide, and their arithmetic wraps.

* `Ptr`, `Mem` — addresses and the bytes at them.
* `Assertion`, `Halt`, `Run` — how a call ends that does not return: an assertion writes its message
  and halts, a loop runs out of the fuel the model gives it.
* `read16`, `read32`, `memcmp` — loads, least significant byte first, and the comparison with a
  text.
* `byteSum` — the sum of the bytes of a block.
-/

set_option autoImplicit false

namespace AuOs

namespace Acpi

/-- An address. -/
abbrev Ptr := BitVec 32

/-- The bytes in memory. -/
abbrev Mem := Ptr → BitVec 8

/-- Where `assert` stands in the source. -/
inductive Assertion where
  /-- `find_apic`: `"No APIC found."`. -/
  | noApic
  /-- `check_for_rsdp`: `"ERROR: Only ACPI 1.0 is supported!"`. -/
  | onlyAcpi1
  /-- `write_apic_info`: `"ERROR: reserved field must be zero."`. -/
  | reservedMustBeZero
  deriving DecidableEq, Repr

/-- How a call ends when it does not return: `assert` executes `hlt` with the interrupts
disabled. -/
inductive Halt where
  | assert (a : Assertion)
  | hang
  deriving DecidableEq, Repr

/-- The result of a function that may halt. -/
abbrev Run (α : Type) := Except Halt α

theorem run_bind {α β : Type} (a : α) (f : α → Run β) : ((.ok a : Run α) >>= f) = f a := rfl

def read16 (mem : Mem) (p : Ptr) : BitVec 16 := mem (p + 1) ++ mem p

def read32 (mem : Mem) (p : Ptr) : BitVec 32 := mem (p + 3) ++ mem (p + 2) ++ mem (p + 1) ++ mem p

/-- `memcmp` with a text: 1 at the first difference. -/
def memcmp (mem : Mem) : Ptr → List (BitVec 8) → Nat
  | _, [] => 0
  | lhs, b :: rhs => if mem lhs ≠ b then 1 else memcmp mem (lhs + 1) rhs

/-- The bytes of a block. -/
def bytesAt (mem : Mem) (p : Ptr) (n : Nat) : List (BitVec 8) :=
  (List.range n).map fun i => mem (p + BitVec.ofNat 32 i)

/-- The sum of the bytes of a block. -/
def byteSum (mem : Mem) (p : Ptr) (n : Nat) : Nat := ((bytesAt mem p n).map BitVec.toNat).sum

section Blocks

variable {mem : Mem} {p : Ptr}

theorem bytesAt_succ (n : Nat) : bytesAt mem p (n + 1) = mem p :: bytesAt mem (p + 1) n := by
  rw [bytesAt, List.range_succ_eq_map, List.map_cons, List.map_map, BitVec.ofNat_eq_ofNat,
    BitVec.add_zero, bytesAt]
  congr 1
  refine List.map_congr_left fun i _ => congrArg mem ?_
  show p + BitVec.ofNat 32 i.succ = p + 1#32 + BitVec.ofNat 32 i
  rw [Nat.succ_eq_one_add, BitVec.ofNat_add, BitVec.add_assoc]

@[simp] theorem byteSum_zero : byteSum mem p 0 = 0 := rfl

theorem byteSum_succ (n : Nat) : byteSum mem p (n + 1) = (mem p).toNat + byteSum mem (p + 1) n := by
  rw [byteSum, bytesAt_succ, List.map_cons, List.sum_cons, byteSum]

/-- **`memcmp`** compares the whole text. -/
theorem memcmp_eq_zero {text : List (BitVec 8)} : memcmp mem p text = 0 ↔
    bytesAt mem p text.length = text := by
  induction text generalizing p with
  | nil => exact iff_of_true rfl rfl
  | cons b text ih =>
    rw [memcmp, List.length_cons, bytesAt_succ, List.cons.injEq]
    by_cases hb : mem p = b
    · rw [if_neg (not_not.mpr hb), ih, and_iff_right hb]
    · rw [if_pos hb]
      exact iff_of_false Nat.one_ne_zero fun h => hb h.1

end Blocks

end Acpi

end AuOs
