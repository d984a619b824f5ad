import Mathlib
import AuOs.Acpi.Memory

/-!
# The search for the APIC table

Reference model of `acpi_header_checksum` and `find_apic`.

* `acpiHeaderChecksum`, `findApic` — the loop over the bytes of a table, whose index is 8 bits wide,
  and the loop over the tables.
* `checksum_short`, `checksum_long` — the sum of at most 255 bytes; a longer table is summed for
  ever.
* `findsApic_iff` — the search is right exactly if no table with the signature up to the first right
  one is longer than 255 bytes.
-/

set_option autoImplicit false

namespace AuOs

namespace Acpi

/-- `sizeof(ACPISDTHeader)`. -/
def SIZEOF_HEADER : Nat := 36

/-- `APIC`. -/
def APIC_SIGNATURE : List (BitVec 8) := [65, 80, 73, 67]

/-- `h->Length`. -/
def headerLength (mem : Mem) (h : Ptr) : BitVec 32 := read32 mem (h + 4)

/-- `for (i = 0; i < table_header->Length; i++)`, with a `uint8_t i`. -/
def checksumLoop (mem : Mem) (tableHeader : Ptr) : Nat → BitVec 8 → BitVec 8 → Run (BitVec 8)
  | 0, _, _ => .error .hang
  | fuel + 1, i, sum =>
    if i.toNat < (headerLength mem tableHeader).toNat then
      checksumLoop mem tableHeader fuel (i + 1) (sum + mem (tableHeader + i.setWidth 32))
    else .ok sum

/-- `acpi_header_checksum`. -/
def acpiHeaderChecksum (fuel : Nat) (mem : Mem) (tableHeader : Ptr) : Run (BitVec 8) :=
  checksumLoop mem tableHeader fuel 0 0

/-- `(rsdt->h.Length - sizeof(rsdt->h)) / 4`. -/
def rsdtEntries (mem : Mem) (rsdt : Ptr) : BitVec 32 :=
  (headerLength mem rsdt - BitVec.ofNat 32 SIZEOF_HEADER) / 4

/-- `rsdt->PointerToOtherSDT[i]` for the `i` below `entries`. -/
def tablePointers (mem : Mem) (rsdt : Ptr) : List Ptr :=
  (List.range (rsdtEntries mem rsdt).toNat).map fun i =>
    read32 mem (rsdt + BitVec.ofNat 32 SIZEOF_HEADER + BitVec.ofNat 32 (4 * i))

/-- The loop of `find_apic` over the tables. -/
def apicLoop (fuel : Nat) (mem : Mem) : List Ptr → Run Ptr
  | [] => .error (.assert .noApic)
  | h :: tables =>
    if memcmp mem h APIC_SIGNATURE = 0 then do
      let sum ← acpiHeaderChecksum fuel mem h
      if sum = 0 then return h else apicLoop fuel mem tables
    else apicLoop fuel mem tables

/-- `find_apic`. -/
def findApic (fuel : Nat) (mem : Mem) (rsdt : Ptr) : Run Ptr :=
  apicLoop fuel mem (tablePointers mem rsdt)

/-! ## What is looked for -/

/-- The table has the signature. -/
def IsApic (mem : Mem) (h : Ptr) : Prop := bytesAt mem h 4 = APIC_SIGNATURE

instance (mem : Mem) (h : Ptr) : Decidable (IsApic mem h) := inferInstanceAs (Decidable (_ = _))

/-- The table has the signature, and its bytes sum to 0 modulo 256. -/
def IsMadt (mem : Mem) (h : Ptr) : Prop :=
  IsApic mem h ∧ byteSum mem h (headerLength mem h).toNat % 256 = 0

instance (mem : Mem) (h : Ptr) : Decidable (IsMadt mem h) := inferInstanceAs (Decidable (_ ∧ _))

/-- The first right table of a list, or the assertion that there is none. -/
def firstMadt (mem : Mem) (tables : List Ptr) : Run Ptr :=
  match tables.find? fun h => decide (IsMadt mem h) with
  | some h => .ok h
  | none => .error (.assert .noApic)

/-- The search ends, with the first right table or with the assertion that there is none. -/
def FindsApic (mem : Mem) (rsdt : Ptr) : Prop :=
  ∃ fuel, findApic fuel mem rsdt = firstMadt mem (tablePointers mem rsdt)

/-- Up to the first right table, those with the signature have at most 255 bytes. -/
def ShortTables (mem : Mem) : List Ptr → Prop
  | [] => True
  | h :: tables =>
    (IsApic mem h → (headerLength mem h).toNat ≤ 255) ∧ (¬ IsMadt mem h → ShortTables mem tables)

/-! ## The sum of a table -/

section Checksum

variable {mem : Mem} {h : Ptr}

/-- The loop sums what is left of the table, if it has the fuel. -/
theorem checksumLoop_short (hlen : (headerLength mem h).toNat ≤ 255) {n : Nat} {i sum : BitVec 8}
    (hi : i.toNat + n = (headerLength mem h).toNat) (fuel : Nat) :
    Post (checksumLoop mem h fuel i sum) (fun e => e = .hang ∧ fuel ≤ n)
      (· = sum + BitVec.ofNat 8 (byteSum mem (h + i.setWidth 32) n)) := by
  induction n generalizing i sum fuel with
  | zero =>
    cases fuel with
    | zero => exact Post.error ⟨rfl, le_rfl⟩
    | succ fuel =>
      rw [checksumLoop, if_neg (by omega)]
      exact Post.ok (by rw [byteSum_zero, BitVec.add_zero])
  | succ n ih =>
    cases fuel with
    | zero => exact Post.error ⟨rfl, Nat.zero_le _⟩
    | succ fuel =>
      have hsucc : (i + 1).toNat = i.toNat + 1 := by
        rw [BitVec.toNat_add, show (1 : BitVec 8).toNat = 1 from rfl]
        exact Nat.mod_eq_of_lt (by omega)
      have hnext : h + (i + 1).setWidth 32 = h + i.setWidth 32 + 1 := by
        apply BitVec.eq_of_toNat_eq
        have hone : (1 : BitVec 32).toNat = 1 := rfl
        simp only [BitVec.toNat_add, BitVec.toNat_setWidth, hsucc, hone]
        omega
      rw [checksumLoop, if_pos (by omega)]
      refine ((ih (by omega) fuel).mono fun r hr => ?_).weaken fun e he =>
        ⟨he.1, Nat.succ_le_succ he.2⟩
      rw [hr, hnext, byteSum_succ, BitVec.add_assoc, BitVec.ofNat_add, BitVec.ofNat_toNat,
        BitVec.setWidth_eq]

/-- **A table of at most 255 bytes** is summed. -/
theorem checksum_short (hlen : (headerLength mem h).toNat ≤ 255) (fuel : Nat) :
    Post (acpiHeaderChecksum fuel mem h) (fun e => e = .hang ∧ fuel < 256)
      (· = BitVec.ofNat 8 (byteSum mem h (headerLength mem h).toNat)) := by
  have hstart : h + (0 : BitVec 8).setWidth 32 = h := BitVec.add_zero h
  have hsum := @checksumLoop_short mem h hlen (headerLength mem h).toNat 0 0 (Nat.zero_add _) fuel
  rw [hstart, BitVec.ofNat_eq_ofNat, BitVec.zero_add] at hsum
  exact hsum.weaken fun e he => ⟨he.1, by omega⟩

/-- **A longer table** is summed for ever: no index reaches its length. -/
theorem checksum_long (hlen : 255 < (headerLength mem h).toNat) (fuel : Nat) :
    acpiHeaderChecksum fuel mem h = .error .hang := by
  have hloop : ∀ i sum, checksumLoop mem h fuel i sum = .error .hang := by
    induction fuel with
    | zero => exact fun _ _ => rfl
    | succ fuel ih =>
      intro i sum
      have hi := i.isLt
      rw [checksumLoop, if_pos (by omega), ih]
  exact hloop 0 0

theorem ofNat_eq_zero_iff (n : Nat) : BitVec.ofNat 8 n = 0 ↔ n % 256 = 0 := by
  rw [← BitVec.toNat_inj, BitVec.toNat_ofNat]
  rfl

end Checksum

/-! ## The search -/

section Search

variable {mem : Mem} {tables : List Ptr}

theorem isApic_iff {h : Ptr} : memcmp mem h APIC_SIGNATURE = 0 ↔ IsApic mem h := memcmp_eq_zero

theorem firstMadt_cons (h : Ptr) :
    firstMadt mem (h :: tables) = if IsMadt mem h then .ok h else firstMadt mem tables := by
  unfold firstMadt
  by_cases hm : IsMadt mem h
  · rw [List.find?_cons, decide_eq_true hm, if_pos hm]
  · rw [List.find?_cons, decide_eq_false hm, if_neg hm]

theorem firstMadt_ne_hang : firstMadt mem tables ≠ .error .hang := by
  induction tables with
  | nil =>
    intro hc
    cases hc
  | cons h tables ih =>
    rw [firstMadt_cons]
    split
    · intro hc
      cases hc
    · exact ih

/-- What one table contributes to the search, if it is short. -/
theorem apicLoop_step {h : Ptr} {fuel : Nat} (hlen : IsApic mem h →
    (headerLength mem h).toNat ≤ 255) :
    Post (apicLoop fuel mem (h :: tables)) (fun e => (e = .hang ∧ fuel < 256) ∨
      (¬ IsMadt mem h ∧ apicLoop fuel mem tables = .error e))
      fun r => (IsMadt mem h ∧ r = h) ∨ (¬ IsMadt mem h ∧ apicLoop fuel mem tables = .ok r) := by
  have hrest : ∀ hn : ¬ IsMadt mem h, Post (apicLoop fuel mem tables)
      (fun e => (e = .hang ∧ fuel < 256) ∨ (¬ IsMadt mem h ∧ apicLoop fuel mem tables = .error e))
      fun r => (IsMadt mem h ∧ r = h) ∨ (¬ IsMadt mem h ∧ apicLoop fuel mem tables = .ok r) := by
    intro hn
    cases hrun : apicLoop fuel mem tables with
    | error e => exact Post.error (Or.inr ⟨hn, rfl⟩)
    | ok r => exact Post.ok (Or.inr ⟨hn, rfl⟩)
  rw [apicLoop]
  by_cases ha : IsApic mem h
  · rw [if_pos (isApic_iff.mpr ha)]
    refine ((checksum_short (hlen ha) fuel).weaken fun e he => Or.inl he).bind fun sum hsum => ?_
    subst hsum
    by_cases h0 : byteSum mem h (headerLength mem h).toNat % 256 = 0
    · rw [if_pos ((ofNat_eq_zero_iff _).mpr h0)]
      exact Post.ok (Or.inl ⟨⟨ha, h0⟩, rfl⟩)
    · rw [if_neg fun hz => h0 ((ofNat_eq_zero_iff _).mp hz)]
      exact hrest fun hm => h0 hm.2
  · rw [if_neg fun hz => ha (isApic_iff.mp hz)]
    exact hrest fun hm => ha hm.1

/-- **Short tables**: the loop finds the first right one. -/
theorem apicLoop_short (hs : ShortTables mem tables) {fuel : Nat} (hfuel : 256 ≤ fuel) :
    apicLoop fuel mem tables = firstMadt mem tables := by
  induction tables with
  | nil => rfl
  | cons h tables ih =>
    rw [firstMadt_cons]
    have hstep := @apicLoop_step mem tables h fuel hs.1
    by_cases hm : IsMadt mem h
    · rw [if_pos hm]
      cases hrun : apicLoop fuel mem (h :: tables) with
      | error e =>
        rcases hstep.err_of_eq hrun with ⟨_, hlt⟩ | ⟨hn, _⟩
        · exact absurd hlt (Nat.not_lt.mpr hfuel)
        · exact absurd hm hn
      | ok r =>
        rcases hstep.of_eq hrun with ⟨_, rfl⟩ | ⟨hn, _⟩
        · rfl
        · exact absurd hm hn
    · rw [if_neg hm, ← ih (hs.2 hm)]
      cases hrun : apicLoop fuel mem (h :: tables) with
      | error e =>
        rcases hstep.err_of_eq hrun with ⟨_, hlt⟩ | ⟨_, he⟩
        · exact absurd hlt (Nat.not_lt.mpr hfuel)
        · exact he.symm
      | ok r =>
        rcases hstep.of_eq hrun with ⟨hm', _⟩ | ⟨_, hr⟩
        · exact absurd hm' hm
        · exact hr.symm

/-- **A long table**: the loop does not get past it. -/
theorem apicLoop_long (hs : ¬ ShortTables mem tables) (fuel : Nat) :
    apicLoop fuel mem tables = .error .hang := by
  induction tables with
  | nil => exact absurd trivial hs
  | cons h tables ih =>
    by_cases hlen : IsApic mem h → (headerLength mem h).toNat ≤ 255
    · have hn : ¬ IsMadt mem h ∧ ¬ ShortTables mem tables := by
        rw [ShortTables, not_and_or, Classical.not_imp (a := ¬ IsMadt mem h)] at hs
        exact hs.resolve_left (not_not.mpr hlen)
      have hstep := @apicLoop_step mem tables h fuel hlen
      cases hrun : apicLoop fuel mem (h :: tables) with
      | error e =>
        rcases hstep.err_of_eq hrun with ⟨rfl, _⟩ | ⟨_, he⟩
        · rfl
        · rw [← he, ih hn.2]
      | ok r =>
        rcases hstep.of_eq hrun with ⟨hm, _⟩ | ⟨_, hr⟩
        · exact absurd hm hn.1
        · rw [ih hn.2] at hr
          cases hr
    · rw [Classical.not_imp] at hlen
      rw [apicLoop, if_pos (isApic_iff.mpr hlen.1), checksum_long (Nat.not_le.mp hlen.2)]
      rfl

/-- **The search ends with the first right table** if and only if the tables with the signature are
short up to it. -/
theorem findsApic_iff (mem : Mem) (rsdt : Ptr) : FindsApic mem rsdt ↔
    ShortTables mem (tablePointers mem rsdt) := by
  constructor
  · rintro ⟨fuel, hrun⟩
    by_contra hs
    rw [findApic, apicLoop_long hs] at hrun
    exact firstMadt_ne_hang hrun.symm
  · exact fun hs => ⟨256, apicLoop_short hs le_rfl⟩

end Search

/-- An RSDT at 0 with one pointer, to a table of 256 bytes at `0x100` whose bytes sum to 512. -/
def longMadt : Mem := fun p =>
  if p.toNat < 0x100 then if p = 4 then 40 else if p = 37 then 1 else 0
  else [65, 80, 73, 67, 0, 1, 0, 0, 1, 225].getD (p.toNat - 0x100) 0

/-- The only table is right, and is summed for ever. -/
theorem longMadt_hangs : tablePointers longMadt 0 = [0x100] ∧ IsMadt longMadt 0x100 ∧
    (∀ fuel, findApic fuel longMadt 0 = .error .hang) ∧ ¬ FindsApic longMadt 0 := by
  have hpointers : tablePointers longMadt 0 = [0x100] := by decide
  have hright : IsMadt longMadt 0x100 := by decide +kernel
  have hlong : ¬ ShortTables longMadt (tablePointers longMadt 0) := by
    rw [hpointers]
    intro hs
    exact absurd (hs.1 hright.1) (by decide)
  have hhang : ∀ fuel, findApic fuel longMadt 0 = .error .hang :=
    fun fuel => apicLoop_long hlong fuel
  refine ⟨hpointers, hright, hhang, ?_⟩
  rintro ⟨fuel, hrun⟩
  rw [hhang] at hrun
  exact firstMadt_ne_hang hrun.symm

end Acpi

end AuOs
