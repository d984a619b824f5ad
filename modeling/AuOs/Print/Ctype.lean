import Mathlib
import AuOs.Strings

/-!
# Character classes

Reference model of `ctype.c`.  A `char` is signed; the classes look it up as an `unsigned char`.

* `ctype` — the table; `isdigit`, `isspace`, `islower`, `isupper`, `toupper`, `tolower` — the
  functions.
* `isSpaceChar`, `digitOf` — white space and the digits of the bases up to 36, by their characters.
* `isspace_eq` — **the table has the class of white space right**, for every character.
-/

set_option autoImplicit false

namespace AuOs

def CTYPE_SP : UInt8 := 0x01
def CTYPE_DI : UInt8 := 0x02
def CTYPE_LO : UInt8 := 0x04
def CTYPE_UP : UInt8 := 0x08
def CTYPE_XD : UInt8 := 0x10
def CTYPE_PU : UInt8 := 0x20
def CTYPE_XS : UInt8 := 0x40

/-- The table, by its runs of equal entries. -/
def ctype : List UInt8 :=
  List.replicate 9 0 ++ List.replicate 5 CTYPE_SP ++ List.replicate 18 0 ++
    [CTYPE_XS ||| CTYPE_SP] ++
    List.replicate 15 CTYPE_PU ++ List.replicate 10 (CTYPE_DI ||| CTYPE_XD) ++
    List.replicate 7 CTYPE_PU ++ List.replicate 6 (CTYPE_UP ||| CTYPE_XD) ++
    List.replicate 20 CTYPE_UP ++ List.replicate 6 CTYPE_PU ++
    List.replicate 6 (CTYPE_LO ||| CTYPE_XD) ++ List.replicate 20 CTYPE_LO ++
    List.replicate 4 CTYPE_PU ++ List.replicate 129 0

/-- `ctype[(unsigned char)c] & mask`. -/
def ctypeBits (c : Int8) (mask : UInt8) : Bool := ctype.getD c.toUInt8.toNat 0 &&& mask != 0

def isdigit (c : Int8) : Bool := ctypeBits c CTYPE_DI

def isspace (c : Int8) : Bool := ctypeBits c CTYPE_SP

def islower (c : Int8) : Bool := ctypeBits c CTYPE_LO

def isupper (c : Int8) : Bool := ctypeBits c CTYPE_UP

def toupper (c : Int8) : Int8 := if islower c then c - 0x20 else c

def tolower (c : Int8) : Int8 := if isupper c then c + 0x20 else c

/-! ## The classes by their characters -/

/-- White space: tab, line feed, vertical tab, form feed, carriage return and space. -/
def isSpaceChar (c : Int8) : Bool := c == 32 || (9 ≤ c && c ≤ 13)

/-- The value of a digit or a letter as a digit of the bases up to 36. -/
def digitOf (c : Int8) : Option Nat :=
  if 48 ≤ c ∧ c ≤ 57 then some (c.toInt - 48).toNat
  else if 97 ≤ c ∧ c ≤ 122 then some (c.toInt - 87).toNat
  else if 65 ≤ c ∧ c ≤ 90 then some (c.toInt - 55).toNat
  else none

/-- A property of every character, checked one by one. -/
theorem forall_char {P : Int8 → Prop} [DecidablePred P]
    (h : ∀ n < 256, P (Int8.ofBitVec (BitVec.ofNat 8 n))) (c : Int8) : P c := by
  have hc := h c.toBitVec.toNat c.toBitVec.isLt
  rwa [BitVec.ofNat_toNat, BitVec.setWidth_eq, Int8.ofBitVec_toBitVec] at hc

theorem isspace_eq (c : Int8) : isspace c = isSpaceChar c :=
  forall_char (P := fun c => isspace c = isSpaceChar c) (by decide +kernel) c

end AuOs
