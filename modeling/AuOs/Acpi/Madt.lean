import Mathlib
import AuOs.Lib.Traced
import AuOs.Acpi.FindApic

/-!
# The records of the APIC table

Reference model of the loop of `write_apic_info` over the records.  A record is named by its offset
in the table, `start - (uint8_t *)h`; every load from a record is in the trace, with its offset and
its size.  What is written to the monitor is not modelled.

* `recordTurn`, `recordLoop` — one turn, and the loop, which returns the records it came past.
* `Leads` — the length of a record leads to the next one; `needed` — how many bytes of it are read.
* `recordTurn_inside` — a turn stays in the table exactly if these bytes do.
* `Records` — a well-formed table: records of their full size, one behind the other up to the end.
* `loopRight_iff` — the loop ends, and stays in the table, exactly if the bytes that are read of
  every record it comes to are in the table and no record leads back to itself.
* `no_cycle_iff` — below 4 GiB less 255 bytes, such a record is one of length zero.
-/

set_option autoImplicit false

namespace AuOs

namespace Acpi

open Traced

/-- A load: the offset in the table, and the size. -/
abbrev Load := Ptr × Nat

/-- `uint8_by_offset(start, offset)`. -/
def uint8ByOffset (mem : Mem) (h start offset : Ptr) : Traced Load Halt (BitVec 8) := do
  mark (start + offset, 1)
  pure (mem (h + start + offset))

/-- `uint16_by_offset(start, offset)`. -/
def uint16ByOffset (mem : Mem) (h start offset : Ptr) : Traced Load Halt (BitVec 16) := do
  mark (start + offset, 2)
  pure (read16 mem (h + start + offset))

/-- `uint32_by_offset(start, offset)`. -/
def uint32ByOffset (mem : Mem) (h start offset : Ptr) : Traced Load Halt (BitVec 32) := do
  mark (start + offset, 4)
  pure (read32 mem (h + start + offset))

/-- `uint64_by_offset(start, offset)`. -/
def uint64ByOffset (mem : Mem) (h start offset : Ptr) : Traced Load Halt (BitVec 64) := do
  mark (start + offset, 8)
  pure (read32 mem (h + start + offset + 4) ++ read32 mem (h + start + offset))

/-- `assert(condition, RESERVED_MUST_BE_ZERO_ERROR)`. -/
def assertReserved (condition : Prop) [Decidable condition] : Traced Load Halt Unit :=
  lift (if condition then .ok () else .error (.assert .reservedMustBeZero))

/-- `switch(entry_type)`. -/
def recordSwitch (mem : Mem) (h start : Ptr) (entryType : BitVec 8) : Traced Load Halt Unit :=
  if entryType = 0 then do
    let _ ← uint8ByOffset mem h start 2
    let _ ← uint8ByOffset mem h start 3
    let flags ← uint32ByOffset mem h start 4
    assertReserved (flags = 0 ∨ flags = 1)
  else if entryType = 1 then do
    let _ ← uint8ByOffset mem h start 2
    let reserved ← uint8ByOffset mem h start 3
    assertReserved (reserved = 0)
    let _ ← uint32ByOffset mem h start 4
    let _ ← uint32ByOffset mem h start 8
  else if entryType = 5 then do
    let reserved ← uint16ByOffset mem h start 2
    assertReserved (reserved = 0)
    let _ ← uint64ByOffset mem h start 4
  else if entryType = 9 then do
    let reserved ← uint16ByOffset mem h start 2
    assertReserved (reserved = 0)
    let _ ← uint32ByOffset mem h start 4
  else pure ()

/-- One turn of the loop; the value is `record_length`. -/
def recordTurn (mem : Mem) (h start : Ptr) : Traced Load Halt (BitVec 8) := do
  let entryType ← uint8ByOffset mem h start 0
  let recordLength ← uint8ByOffset mem h start 1
  recordSwitch mem h start entryType
  pure recordLength

/-- `while ((uint32_t)(start - (uint8_t *)(h)) < h->Length)`, with the records it came past. -/
def recordLoop (mem : Mem) (h : Ptr) : Nat → Ptr → Traced Load Halt (List Ptr)
  | 0, _ => lift (.error .hang)
  | fuel + 1, start =>
    if start.toNat < (headerLength mem h).toNat then do
      let recordLength ← recordTurn mem h start
      let records ← recordLoop mem h fuel (start + recordLength.setWidth 32)
      pure (start :: records)
    else pure []

/-- Where the first record starts. -/
def MADT_RECORDS : Ptr := 44

/-! ## Records -/

section Record

variable (mem : Mem) (h start : Ptr)

def entryType : BitVec 8 := mem (h + start + 0)

def recordLength : BitVec 8 := mem (h + start + 1)

/-- The reserved bits of the record are zero, as far as they are looked at. -/
def Passes : Prop :=
  (entryType mem h start = 0 → read32 mem (h + start + 4) = 0 ∨ read32 mem (h + start + 4) = 1) ∧
  (entryType mem h start = 1 → mem (h + start + 3) = 0) ∧
  (entryType mem h start = 5 → read16 mem (h + start + 2) = 0) ∧
  (entryType mem h start = 9 → read16 mem (h + start + 2) = 0)

instance : Decidable (Passes mem h start) := inferInstanceAs (Decidable (_ ∧ _))

/-- How many bytes of the record are read; behind reserved bits that are not zero, none. -/
def needed : Nat :=
  if entryType mem h start = 0 then 8
  else if entryType mem h start = 1 then if mem (h + start + 3) = 0 then 12 else 4
  else if entryType mem h start = 5 then if read16 mem (h + start + 2) = 0 then 12 else 4
  else if entryType mem h start = 9 then if read16 mem (h + start + 2) = 0 then 8 else 4
  else 2

/-- The offset behind the record. -/
def nextRecord : Ptr := start + (recordLength mem h start).setWidth 32

end Record

/-- The bytes of the load are in the table. -/
def InTable (mem : Mem) (h : Ptr) (load : Load) : Prop :=
  load.1.toNat + load.2 ≤ (headerLength mem h).toNat

/-- The loop goes on from one record to the other. -/
def Leads (mem : Mem) (h start start' : Ptr) : Prop :=
  start.toNat < (headerLength mem h).toNat ∧ Passes mem h start ∧ start' = nextRecord mem h start

/-- The loop comes to the record. -/
abbrev Reached (mem : Mem) (h : Ptr) : Ptr → Ptr → Prop := Relation.ReflTransGen (Leads mem h)

/-- A well-formed table from an offset on: the records have the size of their kind, and the last one
ends where the table does. -/
def Records (mem : Mem) (h : Ptr) : Nat → List Nat → Prop
  | o, [] => o = (headerLength mem h).toNat
  | o, r :: records => r = o ∧ o < (headerLength mem h).toNat ∧ Passes mem h (BitVec.ofNat 32 o) ∧
      needed mem h (BitVec.ofNat 32 o) ≤ (recordLength mem h (BitVec.ofNat 32 o)).toNat ∧
      Records mem h (o + (recordLength mem h (BitVec.ofNat 32 o)).toNat) records

/-- What the loop is for. -/
structure LoopRight (mem : Mem) (h : Ptr) : Prop where
  ends : ∃ fuel, (recordLoop mem h fuel MADT_RECORDS).result ≠ .error .hang
  inside : ∀ fuel, ∀ load ∈ (recordLoop mem h fuel MADT_RECORDS).trace, InTable mem h load
  visits : ∀ records, Records mem h MADT_RECORDS.toNat records → records.Nodup ∧
    ∃ fuel, (recordLoop mem h fuel MADT_RECORDS).result = .ok (records.map (BitVec.ofNat 32))

/-! ## One turn -/

section Loads

variable {mem : Mem} {h start o : Ptr} {α : Type}

theorem uint8_result : (uint8ByOffset mem h start o).result = .ok (mem (h + start + o)) := rfl

theorem uint16_result : (uint16ByOffset mem h start o).result = .ok (read16 mem (h + start + o)) :=
  rfl

theorem uint32_result : (uint32ByOffset mem h start o).result = .ok (read32 mem (h + start + o)) :=
  rfl

theorem uint64_result : (uint64ByOffset mem h start o).result =
    .ok (read32 mem (h + start + o + 4) ++ read32 mem (h + start + o)) := rfl

theorem uint8_trace (f : BitVec 8 → Traced Load Halt α) :
    (uint8ByOffset mem h start o >>= f).trace = (start + o, 1) :: (f (mem (h + start + o))).trace :=
  rfl

theorem uint16_trace (f : BitVec 16 → Traced Load Halt α) :
    (uint16ByOffset mem h start o >>= f).trace =
    (start + o, 2) :: (f (read16 mem (h + start + o))).trace := rfl

theorem uint32_trace (f : BitVec 32 → Traced Load Halt α) :
    (uint32ByOffset mem h start o >>= f).trace =
    (start + o, 4) :: (f (read32 mem (h + start + o))).trace := rfl

theorem uint64_trace (f : BitVec 64 → Traced Load Halt α) :
    (uint64ByOffset mem h start o >>= f).trace =
    (start + o, 8) :: (f (read32 mem (h + start + o + 4) ++ read32 mem (h + start + o))).trace :=
  rfl

variable {c : Prop} [Decidable c]

theorem assert_result : (assertReserved c).result =
    if c then .ok () else .error (.assert .reservedMustBeZero) := rfl

theorem assert_trace : (assertReserved c).trace = [] := rfl

theorem assert_bind_trace (f : Unit → Traced Load Halt α) :
    (assertReserved c >>= f).trace = if c then (f ()).trace else [] := by
  rw [trace_bind, assert_result, assert_trace, List.nil_append]
  by_cases hc : c
  · rw [if_pos hc, if_pos hc]
  · rw [if_neg hc, if_neg hc]

end Loads

section Turn

variable {mem : Mem} {h start : Ptr}

theorem passes_localApic (ht : entryType mem h start = 0) : Passes mem h start ↔
    read32 mem (h + start + 4) = 0 ∨ read32 mem (h + start + 4) = 1 := by
  unfold Passes
  rw [ht]
  simp

theorem passes_ioApic (ht : entryType mem h start = 1) : Passes mem h start ↔
    mem (h + start + 3) = 0 := by
  unfold Passes
  rw [ht]
  simp

theorem passes_override (ht : entryType mem h start = 5) : Passes mem h start ↔
    read16 mem (h + start + 2) = 0 := by
  unfold Passes
  rw [ht]
  simp

theorem passes_x2apic (ht : entryType mem h start = 9) : Passes mem h start ↔
    read16 mem (h + start + 2) = 0 := by
  unfold Passes
  rw [ht]
  simp

/-- How the `switch` ends. -/
theorem recordSwitch_result : (recordSwitch mem h start (entryType mem h start)).result =
    if Passes mem h start then .ok () else .error (.assert .reservedMustBeZero) := by
  rw [recordSwitch]
  by_cases h0 : entryType mem h start = 0
  · simp only [if_pos h0, passes_localApic h0, result_bind, uint8_result, uint32_result,
      assert_result, run_bind]
  by_cases h1 : entryType mem h start = 1
  · simp only [if_neg h0, if_pos h1, passes_ioApic h1, result_bind, uint8_result,
      uint32_result, assert_result, run_bind, result_pure]
    split
    · rfl
    · rfl
  by_cases h5 : entryType mem h start = 5
  · simp only [if_neg h0, if_neg h1, if_pos h5, passes_override h5, result_bind,
      uint16_result, uint64_result, assert_result, run_bind, result_pure]
    split
    · rfl
    · rfl
  by_cases h9 : entryType mem h start = 9
  · simp only [if_neg h0, if_neg h1, if_neg h5, if_pos h9, passes_x2apic h9,
      result_bind, uint16_result, uint32_result, assert_result, run_bind, result_pure]
    split
    · rfl
    · rfl
  · have hpass : Passes mem h start :=
      ⟨fun hc => absurd hc h0, fun hc => absurd hc h1, fun hc => absurd hc h5,
        fun hc => absurd hc h9⟩
    rw [if_neg h0, if_neg h1, if_neg h5, if_neg h9, if_pos hpass, result_pure]

/-- The value of a turn. -/
theorem recordTurn_result : (recordTurn mem h start).result =
    if Passes mem h start then .ok (recordLength mem h start)
    else .error (.assert .reservedMustBeZero) := by
  rw [recordTurn, result_bind, uint8_result, run_bind, result_bind, uint8_result,
    run_bind, result_bind]
  show ((recordSwitch mem h start (entryType mem h start)).result >>= fun _ =>
    .ok (recordLength mem h start)) = _
  rw [recordSwitch_result]
  split
  · rfl
  · rfl

/-- The loads of a turn. -/
theorem recordTurn_trace : (recordTurn mem h start).trace =
    (start + 0, 1) :: (start + 1, 1) :: (recordSwitch mem h start
      (entryType mem h start)).trace := by
  rw [recordTurn, uint8_trace, uint8_trace, trace_bind]
  cases (recordSwitch mem h start (mem (h + start + 0))).result with
  | ok _ => exact congrArg _ (congrArg _ (List.append_nil _))
  | error _ => exact congrArg _ (congrArg _ (List.append_nil _))

/-- **A turn stays in the table** exactly if the bytes it needs are there: the loads of a record lie
side by side. -/
theorem recordTurn_inside (hstart : start.toNat < (headerLength mem h).toNat) :
    (∀ load ∈ (recordTurn mem h start).trace, InTable mem h load) ↔
      start.toNat + needed mem h start ≤ (headerLength mem h).toNat := by
  have hlen := (headerLength mem h).isLt
  rw [recordTurn_trace, recordSwitch, needed]
  by_cases h0 : entryType mem h start = 0
  · simp only [if_pos h0, uint8_trace, uint32_trace, assert_trace]
    simp [InTable, BitVec.toNat_add]
    omega
  by_cases h1 : entryType mem h start = 1
  · simp only [if_neg h0, if_pos h1, uint8_trace, uint32_trace, assert_bind_trace, trace_pure]
    by_cases hr : mem (h + start + 3) = 0
    · simp only [if_pos hr]
      simp [InTable, BitVec.toNat_add]
      omega
    · simp only [if_neg hr]
      simp [InTable, BitVec.toNat_add]
      omega
  by_cases h5 : entryType mem h start = 5
  · simp only [if_neg h0, if_neg h1, if_pos h5, uint16_trace, uint64_trace,
      assert_bind_trace, trace_pure]
    by_cases hr : read16 mem (h + start + 2) = 0
    · simp only [if_pos hr]
      simp [InTable, BitVec.toNat_add]
      omega
    · simp only [if_neg hr]
      simp [InTable, BitVec.toNat_add]
      omega
  by_cases h9 : entryType mem h start = 9
  · simp only [if_neg h0, if_neg h1, if_neg h5, if_pos h9, uint16_trace, uint32_trace,
      assert_bind_trace, trace_pure]
    by_cases hr : read16 mem (h + start + 2) = 0
    · simp only [if_pos hr]
      simp [InTable, BitVec.toNat_add]
      omega
    · simp only [if_neg hr]
      simp [InTable, BitVec.toNat_add]
      omega
  · simp only [if_neg h0, if_neg h1, if_neg h5, if_neg h9, trace_pure]
    simp [InTable, BitVec.toNat_add]
    omega

theorem two_le_needed : 2 ≤ needed mem h start := by
  unfold needed
  split_ifs <;> omega

end Turn

/-! ## The loop -/

section Loop

variable {mem : Mem} {h start start' o : Ptr} {fuel : Nat}

/-- Behind the end of the table nothing is read. -/
theorem recordLoop_done (hend : ¬ start.toNat < (headerLength mem h).toNat) :
    recordLoop mem h (fuel + 1) start = pure [] := by
  rw [recordLoop, if_neg hend]

/-- An assertion ends the loop. -/
theorem recordLoop_fails (hin : start.toNat < (headerLength mem h).toNat)
    (hp : ¬ Passes mem h start) :
    (recordLoop mem h (fuel + 1) start).result = .error (.assert .reservedMustBeZero) ∧
      (recordLoop mem h (fuel + 1) start).trace = (recordTurn mem h start).trace := by
  rw [recordLoop, if_pos hin, result_bind, trace_bind, recordTurn_result, if_neg hp]
  exact ⟨rfl, List.append_nil _⟩

/-- **One turn**, and the rest from the next record on. -/
theorem recordLoop_passes (hin : start.toNat < (headerLength mem h).toNat)
    (hp : Passes mem h start) : (recordLoop mem h (fuel + 1) start).result =
        ((recordLoop mem h fuel (nextRecord mem h start)).result >>= fun records =>
          .ok (start :: records)) ∧
      (recordLoop mem h (fuel + 1) start).trace =
        (recordTurn mem h start).trace ++ (recordLoop mem h fuel
            (nextRecord mem h start)).trace := by
  rw [recordLoop, if_pos hin, result_bind, trace_bind, recordTurn_result, if_pos hp,
    run_bind, result_bind]
  refine ⟨rfl, congrArg _ ?_⟩
  simp only
  rw [← nextRecord, trace_bind]
  cases (recordLoop mem h fuel (nextRecord mem h start)).result with
  | ok _ => exact List.append_nil _
  | error _ => exact List.append_nil _

/-- The loop runs on exactly as long as it does from the next record. -/
theorem hang_of_leads (hl : Leads mem h start start') :
    (recordLoop mem h (fuel + 1) start).result = .error .hang ↔
      (recordLoop mem h fuel start').result = .error .hang := by
  obtain ⟨hin, hp, rfl⟩ := hl
  rw [(recordLoop_passes hin hp).1]
  cases (recordLoop mem h fuel (nextRecord mem h start)).result with
  | ok records =>
    refine iff_of_false (fun hc => ?_) fun hc => ?_
    · cases hc
    · cases hc
  | error e => exact Iff.rfl

/-- A loop that ends comes to the records ahead of it with less fuel. -/
theorem ends_ahead (hends : (recordLoop mem h fuel start).result ≠ .error .hang)
    (hl : Relation.TransGen (Leads mem h) start o) :
    ∃ fuel' < fuel, (recordLoop mem h fuel' o).result ≠ .error .hang := by
  have hstep : ∀ {s s' : Ptr} {n : Nat}, (recordLoop mem h n s).result ≠ .error .hang →
      Leads mem h s s' → ∃ n' < n, (recordLoop mem h n' s').result ≠ .error .hang := by
    intro s s' n hn hss'
    cases n with
    | zero => exact absurd rfl hn
    | succ n => exact ⟨n, Nat.lt_succ_self n, fun hc => hn ((hang_of_leads hss').mpr hc)⟩
  induction hl with
  | single hl => exact hstep hends hl
  | tail _ hl ih =>
    obtain ⟨n, hn, hne⟩ := ih
    obtain ⟨n', hn', hne'⟩ := hstep hne hl
    exact ⟨n', hn'.trans hn, hne'⟩

/-- **A record that leads back to itself** keeps the loop for ever. -/
theorem hang_of_cycle (hc : Relation.TransGen (Leads mem h) o o) (fuel : Nat) :
    (recordLoop mem h fuel o).result = .error .hang := by
  induction fuel using Nat.strongRecOn with
  | _ fuel ih =>
    by_contra hne
    obtain ⟨fuel', hlt, hne'⟩ := ends_ahead hne hc
    exact hne' (ih fuel' hlt)

/-- Without such a record, the records ahead of the loop are in a well-founded order. -/
theorem leads_wellFounded (hnc : ∀ o, Reached mem h start o →
    ¬ Relation.TransGen (Leads mem h) o o) :
    WellFounded fun b a : Ptr => Reached mem h start a ∧ Relation.TransGen (Leads mem h) a b := by
  have htrans : IsTrans Ptr fun b a => Reached mem h start a ∧
      Relation.TransGen (Leads mem h) a b :=
    ⟨fun a b c hab hbc => ⟨hbc.1, hbc.2.trans hab.2⟩⟩
  have hirrefl : Std.Irrefl fun b a : Ptr => Reached mem h start a ∧
      Relation.TransGen (Leads mem h) a b :=
    ⟨fun a ha => hnc a ha.1 ha.2⟩
  have hfinite : Finite Ptr := Finite.of_injective BitVec.toFin fun a b hab =>
    BitVec.eq_of_toFin_eq hab
  exact Finite.wellFounded_of_trans_of_irrefl _

/-- **The loop ends** if no record that it comes to leads back to itself. -/
theorem ends_of_no_cycle (hnc : ∀ o, Reached mem h start o →
    ¬ Relation.TransGen (Leads mem h) o o) :
    ∃ fuel, (recordLoop mem h fuel start).result ≠ .error .hang := by
  suffices hall : ∀ o, Reached mem h start o →
      ∃ fuel, (recordLoop mem h fuel o).result ≠ .error .hang from
    hall start .refl
  intro o
  induction o using (leads_wellFounded hnc).induction with
  | _ o ih =>
    intro hreach
    by_cases hin : o.toNat < (headerLength mem h).toNat
    · by_cases hp : Passes mem h o
      · have hl : Leads mem h o (nextRecord mem h o) := ⟨hin, hp, rfl⟩
        obtain ⟨fuel, hne⟩ := ih _ ⟨hreach, .single hl⟩ (hreach.tail hl)
        exact ⟨fuel + 1, fun hc => hne ((hang_of_leads hl).mp hc)⟩
      · refine ⟨1, fun hc => ?_⟩
        rw [(recordLoop_fails hin hp).1] at hc
        cases hc
    · refine ⟨1, fun hc => ?_⟩
      rw [recordLoop_done hin] at hc
      cases hc

/-- **The loads** are in the table if the bytes that each record needs are. -/
theorem recordLoop_inside (hfit : ∀ o, Reached mem h start o →
    o.toNat < (headerLength mem h).toNat →
    o.toNat + needed mem h o ≤ (headerLength mem h).toNat) (fuel : Nat) :
    ∀ load ∈ (recordLoop mem h fuel start).trace, InTable mem h load := by
  induction fuel generalizing start with
  | zero => exact fun load hl => absurd hl List.not_mem_nil
  | succ fuel ih =>
    intro load hload
    by_cases hin : start.toNat < (headerLength mem h).toNat
    · have hturn := (recordTurn_inside hin).mpr (hfit start .refl hin)
      by_cases hp : Passes mem h start
      · rw [(recordLoop_passes hin hp).2] at hload
        rcases List.mem_append.mp hload with hload | hload
        · exact hturn load hload
        · exact ih (fun o ho => hfit o (.head ⟨hin, hp, rfl⟩ ho)) load hload
      · rw [(recordLoop_fails hin hp).2] at hload
        exact hturn load hload
    · rw [recordLoop_done hin] at hload
      exact absurd hload List.not_mem_nil

/-- A loop that ends makes the loads of every record it comes to. -/
theorem reached_loads (hr : Reached mem h start o) (ho : o.toNat < (headerLength mem h).toNat)
    (hends : (recordLoop mem h fuel start).result ≠ .error .hang) :
    ∀ load ∈ (recordTurn mem h o).trace, load ∈ (recordLoop mem h fuel start).trace := by
  induction hr using Relation.ReflTransGen.head_induction_on generalizing fuel with
  | refl =>
    intro load hload
    cases fuel with
    | zero => exact absurd rfl hends
    | succ fuel =>
      by_cases hp : Passes mem h o
      · rw [(recordLoop_passes ho hp).2]
        exact List.mem_append_left _ hload
      · rw [(recordLoop_fails ho hp).2]
        exact hload
  | head hl _ ih =>
    intro load hload
    cases fuel with
    | zero => exact absurd rfl hends
    | succ fuel =>
      have hnext := ih (fun hc => hends ((hang_of_leads hl).mpr hc)) load hload
      obtain ⟨hin, hp, rfl⟩ := hl
      rw [(recordLoop_passes hin hp).2]
      exact List.mem_append_right _ hnext

/-- **A well-formed table**: every record is visited once. -/
theorem records_visited {at_ : Nat} {records : List Nat} (hr : Records mem h at_ records) :
    (∀ r ∈ records, at_ ≤ r) ∧ records.Nodup ∧
      (recordLoop mem h (records.length + 1) (BitVec.ofNat 32 at_)).result = .ok
          (records.map (BitVec.ofNat 32)) := by
  have hlen := (headerLength mem h).isLt
  induction records generalizing at_ with
  | nil =>
    obtain rfl : at_ = (headerLength mem h).toNat := hr
    refine ⟨fun r hm => absurd hm List.not_mem_nil, List.nodup_nil, ?_⟩
    have hend : ¬ (BitVec.ofNat 32 (headerLength mem h).toNat).toNat <
        (headerLength mem h).toNat := by
      rw [BitVec.toNat_ofNat, Nat.mod_eq_of_lt hlen]
      exact Nat.lt_irrefl _
    rw [recordLoop_done hend]
    rfl
  | cons r records ih =>
    obtain ⟨rfl, hin, hp, hsize, hrest⟩ := hr
    obtain ⟨hle, hnodup, hrun⟩ := ih hrest
    have htwo := @two_le_needed mem h (BitVec.ofNat 32 r)
    have hin' : (BitVec.ofNat 32 r).toNat < (headerLength mem h).toNat := by
      rwa [BitVec.toNat_ofNat, Nat.mod_eq_of_lt (hin.trans hlen)]
    have hnext : nextRecord mem h (BitVec.ofNat 32 r) =
        BitVec.ofNat 32 (r + (recordLength mem h (BitVec.ofNat 32 r)).toNat) := by
      rw [nextRecord, BitVec.ofNat_add, BitVec.ofNat_toNat]
    refine ⟨fun r' hm => ?_, List.nodup_cons.mpr ⟨fun hm => ?_, hnodup⟩, ?_⟩
    · rcases List.mem_cons.mp hm with rfl | hm
      · exact le_rfl
      · exact (Nat.le_add_right _ _).trans (hle r' hm)
    · have := hle r hm
      omega
    · rw [List.length_cons, (recordLoop_passes hin' hp).1, hnext, hrun]
      rfl

/-- **The loop ends and stays in the table** if and only if the bytes that are read of the records
it comes to are there, and no record leads back to itself.  A well-formed table it always gets
right. -/
theorem loopRight_iff (mem : Mem) (h : Ptr) : LoopRight mem h ↔
    (∀ o, Reached mem h MADT_RECORDS o → o.toNat < (headerLength mem h).toNat →
      o.toNat + needed mem h o ≤ (headerLength mem h).toNat) ∧
    ∀ o, Reached mem h MADT_RECORDS o → ¬ Relation.TransGen (Leads mem h) o o := by
  constructor
  · rintro ⟨⟨fuel, hends⟩, hinside, _⟩
    refine ⟨fun o hr ho => (recordTurn_inside ho).mp fun load hload =>
      hinside fuel load (reached_loads hr ho hends load hload), fun o hr hc => ?_⟩
    rcases Relation.reflTransGen_iff_eq_or_transGen.mp hr with rfl | hr
    · exact hends (hang_of_cycle hc fuel)
    · obtain ⟨fuel', _, hne⟩ := ends_ahead hends hr
      exact hne (hang_of_cycle hc fuel')
  · rintro ⟨hfit, hnc⟩
    refine ⟨ends_of_no_cycle hnc, recordLoop_inside hfit, fun records hr => ?_⟩
    obtain ⟨_, hnodup, hrun⟩ := records_visited hr
    exact ⟨hnodup, _, hrun⟩

/-- A record behind which the next one starts further on. -/
theorem leads_lt (hlen : (headerLength mem h).toNat + 255 ≤ 2 ^ 32) (hl : Leads mem h start o)
    (hlength : recordLength mem h start ≠ 0) : start.toNat < o.toNat := by
  obtain ⟨hin, _, rfl⟩ := hl
  have hlt := (recordLength mem h start).isLt
  have hpos : 0 < (recordLength mem h start).toNat := by
    rw [Nat.pos_iff_ne_zero]
    exact fun h0 => hlength (BitVec.eq_of_toNat_eq h0)
  rw [nextRecord, BitVec.toNat_add, BitVec.toNat_setWidth, Nat.mod_eq_of_lt (by omega),
    Nat.mod_eq_of_lt (by omega)]
  omega

/-- **Below 4 GiB less 255 bytes** a record leads back to itself only if its length is zero. -/
theorem no_cycle_iff (hlen : (headerLength mem h).toNat + 255 ≤ 2 ^ 32) :
    (∀ o, Reached mem h start o → ¬ Relation.TransGen (Leads mem h) o o) ↔
      ∀ o, Reached mem h start o → o.toNat < (headerLength mem h).toNat → Passes mem h o →
        recordLength mem h o ≠ 0 := by
  constructor
  · intro hnc o hr hin hp h0
    refine hnc o hr (.single ⟨hin, hp, ?_⟩)
    rw [nextRecord, h0]
    exact (BitVec.add_zero o).symm
  · intro hne o hr hc
    have hgrow : ∀ b, Relation.TransGen (Leads mem h) o b → o.toNat < b.toNat := by
      intro b hb
      induction hb with
      | single hl => exact leads_lt hlen hl (hne o hr hl.1 hl.2.1)
      | tail hob hl ih =>
        exact ih.trans (leads_lt hlen hl (hne _ (hr.trans hob.to_reflTransGen) hl.1 hl.2.1))
    exact Nat.lt_irrefl _ (hgrow o hc)

end Loop

/-- A table of 46 bytes at `0x1000` with one record, of the given type and length.  The bytes before
the record sum to 75 without the checksum. -/
def oneRecord (entryType recordLength : BitVec 8) : Mem := fun p =>
  match (p - 0x1000).toNat with
  | 0 => 65
  | 1 => 80
  | 2 => 73
  | 3 => 67
  | 4 => 46
  | 9 => -(75 + entryType + recordLength)
  | 44 => entryType
  | 45 => recordLength
  | _ => 0

/-- In tables that `find_apic` can return, a record of length zero is visited for ever, and one of
eight bytes in the last two is read past the end. -/
theorem oneRecord_wrong : IsMadt (oneRecord 255 0) 0x1000 ∧ IsMadt (oneRecord 0 8) 0x1000 ∧
    (∀ fuel, (recordLoop (oneRecord 255 0) 0x1000 fuel MADT_RECORDS).result = .error .hang) ∧
    (∃ load ∈ (recordLoop (oneRecord 0 8) 0x1000 1 MADT_RECORDS).trace,
      ¬ InTable (oneRecord 0 8) 0x1000 load) ∧
    ¬ LoopRight (oneRecord 255 0) 0x1000 ∧ ¬ LoopRight (oneRecord 0 8) 0x1000 := by
  have hleads : Leads (oneRecord 255 0) 0x1000 MADT_RECORDS MADT_RECORDS := by
    refine ⟨by decide, ?_, by decide⟩
    exact ⟨fun hc => absurd hc (by decide), fun hc => absurd hc (by decide),
      fun hc => absurd hc (by decide), fun hc => absurd hc (by decide)⟩
  have hhang := fun fuel => hang_of_cycle (.single hleads) fuel
  have hload : ∃ load ∈ (recordLoop (oneRecord 0 8) 0x1000 1 MADT_RECORDS).trace,
      ¬ InTable (oneRecord 0 8) 0x1000 load := by
    refine ⟨(46, 1), by decide, ?_⟩
    rw [InTable]
    decide
  refine ⟨by decide +kernel, by decide +kernel, hhang, hload, fun hr => ?_, fun hr => ?_⟩
  · obtain ⟨fuel, hne⟩ := hr.ends
    exact hne (hhang fuel)
  · obtain ⟨load, hm, hout⟩ := hload
    exact hout (hr.inside 1 load hm)

end Acpi

end AuOs
