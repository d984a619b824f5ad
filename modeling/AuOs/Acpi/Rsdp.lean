import Mathlib
import AuOs.Acpi.Memory

/-!
# The search for the root descriptor

Reference model of `validate_first_rsdp`, `check_for_rsdp` and `find_rsdp`.

* `checkForRsdp` — a descriptor is accepted if its signature is right and its sum is a multiple of
  8; `checkForRsdp_eq`.
* `findRsdp` — the two scans; `findRsdp_eq` says that they look at `scanned`, in this order.
* `candidates`, `IsRsdp` — the places where a descriptor could stand, and what makes it one.
* `findRsdp_first` — as long as no sum up to the first descriptor is a multiple of 8 only, and the
  last place, which is not looked at, is not the first descriptor, the search ends with the first
  one, and stops at it if it is not of revision 0.
-/

set_option autoImplicit false

namespace AuOs

namespace Acpi

/-- `sizeof(RSDPDescriptor)`, a packed structure. -/
def SIZEOF_RSDP : Nat := 8 + 1 + 6 + 1 + 4

/-- `RSD PTR `. -/
def RSDP_SIGNATURE : List (BitVec 8) := [82, 83, 68, 32, 80, 84, 82, 32]

/-- `rsdp->Revision`. -/
def revision (mem : Mem) (p : Ptr) : BitVec 8 := mem (p + 15)

/-- `validate_first_rsdp`. -/
def validateFirstRsdp (mem : Mem) (rsdp10 : Ptr) : BitVec 32 :=
  let acc : BitVec 32 := (bytesAt mem rsdp10 SIZEOF_RSDP).foldl (fun acc b => acc + b.setWidth 32) 0
  acc &&& 7#32

/-- `check_for_rsdp`; 0 stands for a null pointer. -/
def checkForRsdp (mem : Mem) (ptr : Ptr) : Run Ptr :=
  if memcmp mem ptr RSDP_SIGNATURE ≠ 0 then .ok 0
  else if validateFirstRsdp mem ptr ≠ 0 then .ok 0
  else if revision mem ptr = 0 then .ok ptr
  else .error (.assert .onlyAcpi1)

/-- `for (p = first; p <= last; p += step)`. -/
def scanLoop (mem : Mem) (last step : Ptr) : Nat → Ptr → Run Ptr
  | 0, _ => .error .hang
  | fuel + 1, p =>
    if p ≤ last then do
      let rsdp ← checkForRsdp mem p
      if rsdp ≠ 0 then return rsdp else scanLoop mem last step fuel (p + step)
    else .ok 0

/-- `(*(uint16_t *)(0x040e)) * 16`. -/
def ebda (mem : Mem) : Ptr := (read16 mem 0x040e).setWidth 32 * 16

def EBDA_MIN : Ptr := 0x80000

def EBDA_MAX : Ptr := 0xa0000 - BitVec.ofNat 32 SIZEOF_RSDP

/-- The pointer to the EBDA is in range. -/
def EbdaInRange (mem : Mem) : Prop := EBDA_MIN ≤ ebda mem ∧ ebda mem < EBDA_MAX ∧ ebda mem % 16 = 0

instance (mem : Mem) : Decidable (EbdaInRange mem) := inferInstanceAs (Decidable (_ ∧ _))

/-- More turns than either scan makes. -/
def SCAN_FUEL : Nat := 0x20000

/-- `find_rsdp`. -/
def findRsdp (mem : Mem) : Run Ptr := do
  let rsdp ← (if EbdaInRange mem then scanLoop mem EBDA_MAX 16 SCAN_FUEL (ebda mem) else .ok 0)
  if rsdp ≠ 0 then return rsdp
  else scanLoop mem (0xfffff - BitVec.ofNat 32 SIZEOF_RSDP) 1 SCAN_FUEL 0xe0000

/-! ## The places -/

/-- `n` places from `p` on. -/
def places (p : Ptr) (step n : Nat) : List Ptr :=
  (List.range n).map fun i => p + BitVec.ofNat 32 (step * i)

/-- The places in the EBDA. -/
def ebdaPlaces (mem : Mem) : List Ptr :=
  if EbdaInRange mem then
    places (ebda mem) 16 ((0xa0000 - SIZEOF_RSDP - (ebda mem).toNat) / 16 + 1)
  else []

/-- The last place below `0x100000` that leaves room for a descriptor. -/
def LAST_PLACE : Ptr := 0x100000 - BitVec.ofNat 32 SIZEOF_RSDP

/-- The places that are looked at. -/
def scanned (mem : Mem) : List Ptr := ebdaPlaces mem ++ places 0xe0000 1 (0x20000 - SIZEOF_RSDP)

/-- The places where a descriptor could stand, in the order of the scans. -/
def candidates (mem : Mem) : List Ptr := scanned mem ++ [LAST_PLACE]

/-- The place has the signature. -/
def HasSignature (mem : Mem) (p : Ptr) : Prop := bytesAt mem p 8 = RSDP_SIGNATURE

instance (mem : Mem) (p : Ptr) : Decidable (HasSignature mem p) :=
  inferInstanceAs (Decidable (_ = _))

/-- A descriptor: the signature is right, and the bytes sum to 0 modulo 256. -/
def IsRsdp (mem : Mem) (p : Ptr) : Prop := HasSignature mem p ∧ byteSum mem p SIZEOF_RSDP % 256 = 0

instance (mem : Mem) (p : Ptr) : Decidable (IsRsdp mem p) := inferInstanceAs (Decidable (_ ∧ _))

/-- The first descriptor, or null; one that is not of revision 0 stops the kernel. -/
def firstRsdp (mem : Mem) (places : List Ptr) : Run Ptr :=
  match places.find? fun p => decide (IsRsdp mem p) with
  | some p => if revision mem p = 0 then .ok p else .error (.assert .onlyAcpi1)
  | none => .ok 0

/-- Up to the first descriptor, the bytes behind a signature sum to a multiple of 8 only if they sum
to a multiple of 256. -/
def SumsDecided (mem : Mem) : List Ptr → Prop
  | [] => True
  | p :: places => (HasSignature mem p → byteSum mem p SIZEOF_RSDP % 8 = 0 → IsRsdp mem p) ∧
      (¬ IsRsdp mem p → SumsDecided mem places)

/-! ## One place -/

section Check

variable {mem : Mem} {p : Ptr}

/-- The sum of bytes in a word. -/
theorem foldl_sum (l : List (BitVec 8)) (acc : BitVec 32) :
    (l.foldl (fun acc b => acc + b.setWidth 32) acc).toNat =
    (acc.toNat + (l.map BitVec.toNat).sum) % 2 ^ 32 := by
  induction l generalizing acc with
  | nil => exact (Nat.mod_eq_of_lt acc.isLt).symm
  | cons b l ih =>
    have hb := b.isLt
    rw [List.foldl_cons, ih, BitVec.toNat_add, BitVec.toNat_setWidth,
      Nat.mod_eq_of_lt (show b.toNat < 2 ^ 32 by omega),
      Nat.mod_add_mod, List.map_cons, List.sum_cons, Nat.add_assoc]

/-- The mask leaves the residue modulo 8. -/
theorem validateFirstRsdp_eq_zero : validateFirstRsdp mem p = 0 ↔
    byteSum mem p SIZEOF_RSDP % 8 = 0 := by
  have hzero : (0 : BitVec 32).toNat = 0 := rfl
  rw [validateFirstRsdp, ← BitVec.toNat_inj, BitVec.toNat_and,
    show (7#32).toNat = 2 ^ 3 - 1 from rfl,
    Nat.and_two_pow_sub_one_eq_mod, foldl_sum, hzero, Nat.zero_add, ← byteSum,
    Nat.mod_mod_of_dvd _ (by decide : 2 ^ 3 ∣ 2 ^ 32)]
  rfl

/-- **A place is accepted** if its signature is right and its bytes sum to a multiple of 8. -/
theorem checkForRsdp_eq : checkForRsdp mem p =
    if HasSignature mem p ∧ byteSum mem p SIZEOF_RSDP % 8 = 0 then
      if revision mem p = 0 then .ok p else .error (.assert .onlyAcpi1)
    else .ok 0 := by
  have hsig : memcmp mem p RSDP_SIGNATURE = 0 ↔ HasSignature mem p := memcmp_eq_zero
  rw [checkForRsdp]
  by_cases hs : HasSignature mem p
  · by_cases hv : byteSum mem p SIZEOF_RSDP % 8 = 0
    · rw [if_neg (not_not.mpr (hsig.mpr hs)),
        if_neg (not_not.mpr (validateFirstRsdp_eq_zero.mpr hv)), if_pos (And.intro hs hv)]
    · rw [if_neg (not_not.mpr (hsig.mpr hs)), if_pos fun h0 => hv (validateFirstRsdp_eq_zero.mp h0),
        if_neg fun hc => hv hc.2]
  · rw [if_pos fun h0 => hs (hsig.mp h0), if_neg fun hc => hs hc.1]

/-- A descriptor is accepted. -/
theorem IsRsdp.accepted (h : IsRsdp mem p) : HasSignature mem p ∧
    byteSum mem p SIZEOF_RSDP % 8 = 0 := by
  obtain ⟨hs, hsum⟩ := h
  exact ⟨hs, by omega⟩

end Check

/-! ## The scans -/

/-- The places of a list, looked at one after the other. -/
def scanPlaces (mem : Mem) : List Ptr → Run Ptr
  | [] => .ok 0
  | p :: places => do
    let rsdp ← checkForRsdp mem p
    if rsdp ≠ 0 then return rsdp else scanPlaces mem places

section Scan

variable {mem : Mem} {p : Ptr}

theorem places_succ (step n : Nat) : places p step (n + 1) =
    p :: places (p + BitVec.ofNat 32 step) step n := by
  rw [places, List.range_succ_eq_map, List.map_cons, List.map_map, Nat.mul_zero,
    BitVec.add_zero, places]
  congr 1
  refine List.map_congr_left fun i _ => ?_
  show p + BitVec.ofNat 32 (step * i.succ) = p + BitVec.ofNat 32 step + BitVec.ofNat 32 (step * i)
  rw [Nat.mul_succ, Nat.add_comm, BitVec.ofNat_add, BitVec.add_assoc]

/-- **The loop** looks at the places up to the last one. -/
theorem scanLoop_eq {last : Ptr} {step n fuel : Nat}
    (hle : n ≠ 0 → p.toNat + step * (n - 1) ≤ last.toNat)
    (hgt : last.toNat < p.toNat + step * n) (hend : p.toNat + step * n < 2 ^ 32)
    (hfuel : n < fuel) :
    scanLoop mem last (BitVec.ofNat 32 step) fuel p = scanPlaces mem (places p step n) := by
  induction n generalizing p fuel with
  | zero =>
    obtain ⟨fuel, rfl⟩ := Nat.exists_eq_succ_of_ne_zero (Nat.ne_of_gt hfuel)
    have hout : ¬ p ≤ last := by
      rw [BitVec.le_def]
      omega
    rw [scanLoop, if_neg hout]
    rfl
  | succ n ih =>
    obtain ⟨fuel, rfl⟩ := Nat.exists_eq_succ_of_ne_zero (Nat.ne_of_gt (Nat.zero_lt_of_lt hfuel))
    have hlast := hle (Nat.succ_ne_zero n)
    rw [Nat.add_sub_cancel] at hlast
    rw [Nat.mul_succ] at hgt hend
    have hin : p ≤ last := by
      rw [BitVec.le_def]
      omega
    have hnext : (p + BitVec.ofNat 32 step).toNat = p.toNat + step := by
      rw [BitVec.toNat_add, BitVec.toNat_ofNat, Nat.add_mod_mod]
      exact Nat.mod_eq_of_lt (by omega)
    have hrest : scanLoop mem last (BitVec.ofNat 32 step) fuel (p + BitVec.ofNat 32 step) =
        scanPlaces mem (places (p + BitVec.ofNat 32 step) step n) := by
      refine ih (fun hn => ?_) (by omega) (by omega) (by omega)
      obtain ⟨n, rfl⟩ := Nat.exists_eq_succ_of_ne_zero hn
      rw [Nat.mul_succ] at hlast
      rw [hnext, Nat.succ_sub_one]
      omega
    rw [scanLoop, if_pos hin, places_succ, scanPlaces, hrest]

/-- One list of places behind the other. -/
theorem scanPlaces_append (a b : List Ptr) : scanPlaces mem (a ++ b) =
    (scanPlaces mem a >>= fun rsdp => if rsdp ≠ 0 then .ok rsdp else scanPlaces mem b) := by
  induction a with
  | nil =>
    rw [List.nil_append, scanPlaces, run_bind]
    exact (if_neg (not_not.mpr rfl)).symm
  | cons p a ih =>
    rw [List.cons_append, scanPlaces, scanPlaces, ih]
    cases checkForRsdp mem p with
    | error e => rfl
    | ok rsdp =>
      rw [run_bind, run_bind]
      by_cases h0 : rsdp ≠ 0
      · rw [if_pos h0, if_pos h0]
        exact (if_pos h0).symm
      · rw [if_neg h0, if_neg h0]

/-- The scan of the EBDA. -/
theorem ebdaScan_eq : (if EbdaInRange mem then scanLoop mem EBDA_MAX 16 SCAN_FUEL
    (ebda mem) else .ok 0) = scanPlaces mem (ebdaPlaces mem) := by
  rw [ebdaPlaces]
  by_cases hr : EbdaInRange mem
  · rw [if_pos hr, if_pos hr]
    obtain ⟨hmin, hmax, _⟩ := hr
    rw [BitVec.le_def] at hmin
    rw [BitVec.lt_def] at hmax
    have h1 : EBDA_MIN.toNat = 0x80000 := rfl
    have h2 : EBDA_MAX.toNat = 0x9FFEC := rfl
    have h3 : SIZEOF_RSDP = 20 := rfl
    have h4 : SCAN_FUEL = 0x20000 := rfl
    refine @scanLoop_eq mem (ebda mem) EBDA_MAX 16 _ _ (fun _ => ?_) ?_ ?_ ?_
    · rw [Nat.add_sub_cancel]
      omega
    · omega
    · omega
    · omega
  · rw [if_neg hr, if_neg hr]
    rfl

/-- **`find_rsdp`** looks at the places in their order. -/
theorem findRsdp_eq : findRsdp mem = scanPlaces mem (scanned mem) := by
  have hbios : scanLoop mem (0xfffff - BitVec.ofNat 32 SIZEOF_RSDP) 1 SCAN_FUEL 0xe0000 =
      scanPlaces mem (places 0xe0000 1 (0x20000 - SIZEOF_RSDP)) := by
    have h1 : (0xe0000 : Ptr).toNat = 0xe0000 := rfl
    have h2 : (0xfffff - BitVec.ofNat 32 SIZEOF_RSDP : Ptr).toNat = 0xFFFEB := rfl
    have h3 : SIZEOF_RSDP = 20 := rfl
    have h4 : SCAN_FUEL = 0x20000 := rfl
    refine @scanLoop_eq mem 0xe0000 _ 1 _ _ (fun _ => ?_) ?_ ?_ ?_ <;> omega
  rw [findRsdp, ebdaScan_eq, hbios, scanned, scanPlaces_append]
  rfl

/-! ## The first descriptor -/

theorem firstRsdp_cons (places : List Ptr) : firstRsdp mem (p :: places) =
    if IsRsdp mem p then if revision mem p = 0 then .ok p else .error (.assert .onlyAcpi1)
    else firstRsdp mem places := by
  unfold firstRsdp
  by_cases hr : IsRsdp mem p
  · rw [List.find?_cons, decide_eq_true hr, if_pos hr]
  · rw [List.find?_cons, decide_eq_false hr, if_neg hr]

/-- **Sums that are decided by the mask**: the scan ends with the first descriptor. -/
theorem scanPlaces_first {l : List Ptr} (hs : SumsDecided mem l) (h0 : ∀ p ∈ l, p ≠ 0) :
    scanPlaces mem l = firstRsdp mem l := by
  induction l with
  | nil => rfl
  | cons p l ih =>
    rw [scanPlaces, firstRsdp_cons, checkForRsdp_eq]
    by_cases hr : IsRsdp mem p
    · rw [if_pos hr.accepted, if_pos hr]
      by_cases hrev : revision mem p = 0
      · rw [if_pos hrev, run_bind, if_pos (h0 p List.mem_cons_self)]
        rfl
      · rw [if_neg hrev]
        rfl
    · rw [if_neg fun hc => hr (hs.1 hc.1 hc.2), if_neg hr, run_bind, if_neg (not_not.mpr rfl)]
      exact ih (hs.2 hr) fun q hq => h0 q (List.mem_cons_of_mem _ hq)

theorem places_ne_zero {step n : Nat} (hp : p.toNat ≠ 0) (hend : p.toNat + step * n < 2 ^ 32) :
    ∀ q ∈ places p step n, q ≠ 0 := by
  intro q hq
  obtain ⟨i, hi, rfl⟩ := List.mem_map.mp hq
  have hle : step * i ≤ step * n := Nat.mul_le_mul_left step (Nat.le_of_lt (List.mem_range.mp hi))
  intro hz
  have hnat : (p + BitVec.ofNat 32 (step * i)).toNat = 0 := by
    rw [hz]
    rfl
  rw [BitVec.toNat_add, BitVec.toNat_ofNat, Nat.add_mod_mod, Nat.mod_eq_of_lt (by omega)] at hnat
  omega

theorem scanned_ne_zero : ∀ p ∈ scanned mem, p ≠ 0 := by
  have h3 : SIZEOF_RSDP = 20 := rfl
  intro p hp
  rcases List.mem_append.mp hp with hp | hp
  · rw [ebdaPlaces] at hp
    by_cases hr : EbdaInRange mem
    · rw [if_pos hr] at hp
      obtain ⟨hmin, hmax, _⟩ := hr
      rw [BitVec.le_def] at hmin
      rw [BitVec.lt_def] at hmax
      have h1 : EBDA_MIN.toNat = 0x80000 := rfl
      have h2 : EBDA_MAX.toNat = 0x9FFEC := rfl
      exact places_ne_zero (by omega) (by omega) p hp
    · rw [if_neg hr] at hp
      cases hp
  · have h1 : (0xe0000 : Ptr).toNat = 0xe0000 := rfl
    exact places_ne_zero (by omega) (by omega) p hp

/-- **The search ends with the first descriptor**, if the sums up to it are decided by the mask and
it is not at the last place.  A descriptor that is not of revision 0 is not returned: the kernel
stops at it. -/
theorem findRsdp_first (hs : SumsDecided mem (scanned mem))
    (hlast : IsRsdp mem LAST_PLACE → ∃ p ∈ scanned mem, IsRsdp mem p) :
    findRsdp mem = firstRsdp mem (candidates mem) := by
  rw [findRsdp_eq, scanPlaces_first hs scanned_ne_zero, candidates, firstRsdp, firstRsdp,
    List.find?_append]
  cases hfind : (scanned mem).find? fun p => decide (IsRsdp mem p) with
  | some p => rfl
  | none =>
    have hnot : ¬ IsRsdp mem LAST_PLACE := by
      intro hl
      obtain ⟨p, hp, hr⟩ := hlast hl
      exact absurd (decide_eq_true hr) (List.find?_eq_none.mp hfind p hp)
    rw [Option.none_or, List.find?_cons, decide_eq_false hnot, List.find?_nil]

/-- The first place is the start of the EBDA, if it is in range. -/
theorem scanned_ebda (hr : EbdaInRange mem) : ∃ rest, scanned mem = ebda mem :: rest := by
  rw [scanned, ebdaPlaces, if_pos hr, places_succ]
  exact ⟨_, rfl⟩

end Scan

/-- A descriptor at the start of the EBDA at `0x80000`. -/
def rsdpInEbda (checksum revision : BitVec 8) : Mem := fun p =>
  if p = 0x40f then 0x80
  else if p.toNat < 0x80000 then 0
  else [82, 83, 68, 32, 80, 84, 82, 32, checksum, 0, 0, 0, 0, 0, 0, revision].getD
    (p.toNat - 0x80000) 0

theorem findRsdp_first_in_ebda : findRsdp (rsdpInEbda 225 0) = firstRsdp (rsdpInEbda 225 0)
    (candidates (rsdpInEbda 225 0)) := by
  have hright : IsRsdp (rsdpInEbda 225 0) (ebda (rsdpInEbda 225 0)) := by decide
  obtain ⟨rest, hscan⟩ := scanned_ebda (show EbdaInRange (rsdpInEbda 225 0) by decide)
  refine findRsdp_first ?_ fun _ => ?_
  · rw [hscan]
    exact ⟨fun _ _ => hright, fun hn => absurd hright hn⟩
  · rw [hscan]
    exact ⟨_, List.mem_cons_self, hright⟩

/-- A descriptor of revision 2, with the right sum, is the first one and is not returned. -/
theorem revision_refused : IsRsdp (rsdpInEbda 223 2) 0x80000 ∧
    (candidates (rsdpInEbda 223 2)).find? (fun p => decide (IsRsdp (rsdpInEbda 223 2) p)) =
    some 0x80000 ∧ findRsdp (rsdpInEbda 223 2) = .error (.assert .onlyAcpi1) := by
  have hebda : ebda (rsdpInEbda 223 2) = 0x80000 := by decide
  have hright : IsRsdp (rsdpInEbda 223 2) 0x80000 := by decide
  obtain ⟨rest, hscan⟩ := scanned_ebda (show EbdaInRange (rsdpInEbda 223 2) by decide)
  rw [hebda] at hscan
  refine ⟨hright, ?_, ?_⟩
  · rw [candidates, hscan, List.cons_append, List.find?_cons, decide_eq_true hright]
  · rw [findRsdp_eq, hscan, scanPlaces, checkForRsdp_eq, if_pos hright.accepted, if_neg (by decide)]
    rfl

end Acpi

end AuOs
