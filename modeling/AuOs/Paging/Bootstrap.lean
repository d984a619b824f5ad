import Mathlib
import AuOs.Paging.KmapRanges
import AuOs.Paging.Walk

/-!
# The page tables of the boot code

Reference model of `setup_mapping` of `bootstrap.S`, which fills `bootstrap_pml3` and
`bootstrap_pml4` with 32 bit code.  The two tables lie in `.bss`.

* `movPair`, `movLow`, `addCarry` — the instructions; an entry is a pair of words.
* `setupMapping` — `setup_mapping`, up to the load of `cr3`.
* `bootGigabyte` — what the entries of `bootstrap_pml3` stand for.
* `boot_translate` — **what the boot code maps**: six windows onto the same memory, and nothing
  else.
-/

set_option autoImplicit false

namespace AuOs

/-! ## `setup_mapping` -/

/-- `movl %eax, off(%edi)` with `movl %ebx, off + 4(%edi)`. -/
def movPair (mem : PageTables) (edi off : Nat) (eax ebx : BitVec 32) : PageTables :=
  Radix.put mem edi (off / 8) (ebx ++ eax)

/-- `movl %eax, off(%edi)` alone: the other half of the entry stays. -/
def movLow (mem : PageTables) (edi off : Nat) (eax : BitVec 32) : PageTables :=
  Radix.put mem edi (off / 8) ((mem edi (off / 8)).extractLsb' 32 32 ++ eax)

/-- `add $imm, %eax` with `adc $0, %ebx`. -/
def addCarry (imm eax ebx : BitVec 32) : BitVec 32 × BitVec 32 :=
  (eax + imm, if 2 ^ 32 ≤ eax.toNat + imm.toNat then ebx + 1 else ebx)

/-- `setup_mapping`, for the physical addresses of `bootstrap_pml3` and `bootstrap_pml4`. -/
def setupMapping (pml3 pml4 : BitVec 32) (mem : PageTables) : PageTables :=
  let edi := pml3.toNat
  let eax : BitVec 32 := 1#32 <<< 0 ||| 1#32 <<< 1 ||| 1#32 <<< 7
  let ebx : BitVec 32 := 0
  let mem := movPair mem edi 0 eax ebx
  let mem := movPair mem edi 4080 eax ebx
  let (eax, ebx) := addCarry 0x40000000 eax ebx
  let mem := movPair mem edi 8 eax ebx
  let mem := movPair mem edi 4088 eax ebx
  let (eax, ebx) := addCarry 0x40000000 eax ebx
  let mem := movPair mem edi 16 eax ebx
  let (eax, ebx) := addCarry 0x40000000 eax ebx
  let mem := movPair mem edi 24 eax ebx
  let edi := pml4.toNat
  let eax := pml3 + 1#32 <<< 0 + 1#32 <<< 1
  let mem := movLow mem edi 0 eax
  let mem := movLow mem edi 2048 eax
  movLow mem edi 4088 eax

/-! ## The entries -/

/-- The gigabyte that an entry of `bootstrap_pml3` maps. -/
def bootGigabyte (i : Nat) : Option Nat :=
  if i < 4 then some i else if i = 510 ∨ i = 511 then some (i - 510) else none

theorem bootGigabyte_lt {i g : Nat} (h : bootGigabyte i = some g) : g < 2 ^ 20 := by
  unfold bootGigabyte at h
  split at h
  · have := Option.some.inj h
    omega
  · split at h
    · have := Option.some.inj h
      omega
    · cases h

/-- The flags of a page of the boot code. -/
def bootFlags : Pte := PTE_PRESENT ||| PTE_WRITE ||| PTE_LARGE

variable {pml3 pml4 : BitVec 32} {mem : PageTables}

theorem setupMapping_pml3 (hne : pml3 ≠ pml4) (hzero : ∀ i, mem pml3.toNat i = 0) (i : Nat) :
    setupMapping pml3 pml4 mem pml3.toNat i =
      match bootGigabyte i with
      | some g => BitVec.ofNat 64 (g * 2 ^ 30) ||| bootFlags
      | none => 0 := by
  have hne' : pml3.toNat ≠ pml4.toNat := fun h => hne (BitVec.eq_of_toNat_eq h)
  unfold setupMapping movLow movPair
  simp only [Radix.put_table_ne hne']
  by_cases h : i = 0 ∨ i = 1 ∨ i = 2 ∨ i = 3 ∨ i = 510 ∨ i = 511
  · rcases h with rfl | rfl | rfl | rfl | rfl | rfl <;> simp [Radix.put] <;> decide
  · have hnone : bootGigabyte i = none := by
      unfold bootGigabyte
      rw [if_neg (by omega), if_neg (by omega)]
    rw [hnone, Radix.put_index_ne (by omega), Radix.put_index_ne (by omega),
      Radix.put_index_ne (by omega),
      Radix.put_index_ne (by omega), Radix.put_index_ne (by omega), Radix.put_index_ne (by omega)]
    exact hzero i

/-- The entry that `bootstrap_pml4` gets. -/
theorem pml4_entry (hal : pml3.toNat % 4096 = 0) :
    (0 : BitVec 32) ++ (pml3 + 1#32 <<< 0 + 1#32 <<< 1) =
      BitVec.ofNat 64 pml3.toNat ||| (PTE_PRESENT ||| PTE_WRITE) := by
  have hlt := pml3.isLt
  have hsum : (pml3 + 1#32 <<< 0 + 1#32 <<< 1).toNat = pml3.toNat + 3 := by
    rw [show pml3 + 1#32 <<< 0 + 1#32 <<< 1 = pml3 + 3#32 by rw [BitVec.add_assoc]; rfl,
      BitVec.toNat_add]
    exact Nat.mod_eq_of_lt (by simp; omega)
  have hor : pml3.toNat ||| 3 = pml3.toNat + 3 := by
    obtain ⟨k, hk⟩ := Nat.dvd_of_mod_eq_zero hal
    rw [hk]
    exact (Nat.two_pow_add_eq_or_of_lt (show 3 < 2 ^ 12 by decide) k).symm
  apply BitVec.eq_of_toNat_eq
  rw [BitVec.toNat_append, BitVec.toNat_or, BitVec.toNat_ofNat, hsum,
    Nat.mod_eq_of_lt (hlt.trans (by decide)),
      show (PTE_PRESENT ||| PTE_WRITE).toNat = 3 by decide, hor]
  simp

theorem setupMapping_pml4 (hne : pml3 ≠ pml4) (hzero : ∀ i, mem pml4.toNat i = 0)
    (hal : pml3.toNat % 4096 = 0) (i : Nat) :
    setupMapping pml3 pml4 mem pml4.toNat i =
      if i = 0 ∨ i = 256 ∨ i = 511 then BitVec.ofNat 64 pml3.toNat ||| (PTE_PRESENT ||| PTE_WRITE)
      else 0 := by
  have hne' : pml4.toNat ≠ pml3.toNat := fun h => hne (BitVec.eq_of_toNat_eq h.symm)
  rw [← pml4_entry hal]
  unfold setupMapping movLow movPair addCarry
  dsimp only
  by_cases h : i = 0 ∨ i = 256 ∨ i = 511
  · rw [if_pos h]
    rcases h with rfl | rfl | rfl <;> simp [Radix.put, hne', hzero]
  · rw [if_neg h, Radix.put_index_ne (by omega), Radix.put_index_ne (by omega),
      Radix.put_index_ne (by omega)]
    simp [Radix.put_table_ne hne', hzero]

/-! ## The walk -/

theorem lvlSize_gigabyte : lvlSize 3 = 2 ^ 30 := by
  unfold lvlSize
  rfl

theorem lvlSize_pml4 : lvlSize 4 = 2 ^ 39 := by
  unfold lvlSize
  rfl

/-- A page of the boot code. -/
theorem pteSlot_boot {g : Nat} (hg : g < 2 ^ 20) :
    pteSlot 3 (BitVec.ofNat 64 (g * 2 ^ 30) ||| bootFlags) =
    .leaf fun v => ⟨g * 2 ^ 30 + v % 2 ^ 30, true, false⟩ := by
  have hmask : bootFlags &&& PTE_PHYS_MASK = 0 := by decide
  rw [pteSlot_page (by omega) (by omega) hmask, if_neg (by decide), if_pos (by decide),
    lvlSize_gigabyte, Nat.mul_div_cancel _ (by decide)]
  rfl

/-- The entries of `bootstrap_pml4` name `bootstrap_pml3`. -/
theorem bootTable_decode (hne : pml3 ≠ pml4) (hal : pml3.toNat % 4096 = 0)
    (hzero : ∀ i, mem pml4.toNat i = 0) (i : Nat) :
    pageTable.decode 4 (setupMapping pml3 pml4 mem pml4.toNat i) =
      if i = 0 ∨ i = 256 ∨ i = 511 then .table pml3.toNat else .absent := by
  rw [setupMapping_pml4 hne hzero hal]
  show pteSlot 4 _ = _
  split
  · rw [pteSlot_page hal (pml3.isLt.trans (by decide)) (by decide), if_neg (by decide),
      if_neg (by decide)]
  · exact (@pteSlot_absent 4 0).mpr (by decide)

/-- The entries of `bootstrap_pml3` are pages. -/
theorem bootPage_decode (hne : pml3 ≠ pml4) (hzero : ∀ i, mem pml3.toNat i = 0) (i : Nat) :
    pageTable.decode 3 (setupMapping pml3 pml4 mem pml3.toNat i) =
      match bootGigabyte i with
      | some g => .leaf fun v => ⟨g * 2 ^ 30 + v % 2 ^ 30, true, false⟩
      | none => .absent := by
  rw [setupMapping_pml3 hne hzero]
  show pteSlot 3 _ = _
  cases hg : bootGigabyte i with
  | none => exact (@pteSlot_absent 3 0).mpr (by decide)
  | some g => exact pteSlot_boot (bootGigabyte_lt hg)

/-- The walk of the boot tables, entry by entry. -/
theorem boot_walk (hne : pml3 ≠ pml4) (hal : pml3.toNat % 4096 = 0)
    (hzero3 : ∀ i, mem pml3.toNat i = 0) (hzero4 : ∀ i, mem pml4.toNat i = 0) (v : Nat) :
    translate (setupMapping pml3 pml4 mem) pml4.toNat v =
      if v / 2 ^ 39 % 512 = 0 ∨ v / 2 ^ 39 % 512 = 256 ∨ v / 2 ^ 39 % 512 = 511 then
        (bootGigabyte (v / 2 ^ 30 % 512)).map fun g => ⟨g * 2 ^ 30 + v % 2 ^ 30, true, false⟩
      else none := by
  have hroot := bootTable_decode hne hal hzero4 (v / 2 ^ 39 % 512)
  have hpage := bootPage_decode hne hzero3 (v / 2 ^ 30 % 512)
  have h4 : pageTable.index 4 v = v / 2 ^ 39 % 512 := by rw [← lvlSize_pml4]; rfl
  have h3 : pageTable.index 3 v = v / 2 ^ 30 % 512 := by rw [← lvlSize_gigabyte]; rfl
  rw [← h4] at hroot ⊢
  rw [← h3] at hpage ⊢
  unfold translate
  by_cases hi : pageTable.index 4 v = 0 ∨ pageTable.index 4 v = 256 ∨ pageTable.index 4 v = 511
  · rw [if_pos hi] at hroot ⊢
    have hthrough : ∀ m : Mapping, m.write = true → m.user = false →
        pageTable.through (setupMapping pml3 pml4 mem pml4.toNat (pageTable.index 4 v)) m = m := by
      rintro ⟨a, _, _⟩ rfl rfl
      rw [setupMapping_pml4 hne hzero4 hal, if_pos hi]
      have hw : (BitVec.ofNat 64 pml3.toNat ||| (PTE_PRESENT ||| PTE_WRITE)) &&& PTE_WRITE ≠ 0 := by
        rw [PTE_WRITE, pte_flag hal (by decide)]
        decide
      simp only [pageTable, decide_eq_true hw, Bool.and_true, Bool.false_and]
    have hwalk : pageTable.walk (setupMapping pml3 pml4 mem) 4 pml4.toNat v =
        (pageTable.walk (setupMapping pml3 pml4 mem) 3 pml3.toNat v).map (pageTable.through
          (setupMapping pml3 pml4 mem pml4.toNat (pageTable.index 4 v))) := by
      simp only [Radix.walk, hroot]
    rw [hwalk]
    cases hg : bootGigabyte (pageTable.index 3 v) with
    | none =>
      rw [hg] at hpage
      rw [Radix.walk_absent hpage]
      rfl
    | some g =>
      rw [hg] at hpage
      rw [Radix.walk_leaf hpage]
      exact congrArg some (hthrough _ rfl rfl)
  · rw [if_neg hi] at hroot ⊢
    exact Radix.walk_absent hroot

/-! ## The windows -/

/-- The windows through which the boot code sees the memory from address 0 on: where they begin and
how large they are. -/
def bootWindows : List (Nat × Nat) :=
  [(0, 2 ^ 32), (510 * 2 ^ 30, 2 ^ 31), (HIGHER_BASE, 2 ^ 32), (HIGHER_BASE + 510 * 2 ^ 30, 2 ^ 31),
    (0xffffff8000000000, 2 ^ 32), (VIRTUAL_BASE, 2 ^ 31)]

/-- What the 512 GiB from `base` on translate to, when the table of gigabytes is hooked in there. -/
theorem bootGigabyte_window {base v : Nat} {m : Mapping} (hal : base % 2 ^ 39 = 0) (hb : base ≤ v)
    (hv : v < base + 2 ^ 39) :
    (bootGigabyte (v / 2 ^ 30 % 512)).map (fun g =>
      (⟨g * 2 ^ 30 + v % 2 ^ 30, true, false⟩ : Mapping)) =
        some m ↔
      v < base + 2 ^ 32 ∧ m = ⟨v - base, true, false⟩ ∨
        base + 510 * 2 ^ 30 ≤ v ∧ m = ⟨v - (base + 510 * 2 ^ 30), true, false⟩ := by
  unfold bootGigabyte
  by_cases hlow : v / 2 ^ 30 % 512 < 4
  · have haddr : v / 2 ^ 30 % 512 * 2 ^ 30 + v % 2 ^ 30 = v - base := by omega
    rw [if_pos hlow, Option.map_some, haddr]
    grind
  · rw [if_neg hlow]
    by_cases hhigh : v / 2 ^ 30 % 512 = 510 ∨ v / 2 ^ 30 % 512 = 511
    · have haddr : (v / 2 ^ 30 % 512 - 510) * 2 ^ 30 + v % 2 ^ 30 = v - (base + 510 * 2 ^ 30) := by
        omega
      rw [if_pos hhigh, Option.map_some, haddr]
      grind
    · rw [if_neg hhigh]
      constructor
      · rintro ⟨⟩
      · omega

section Windows

variable {v : Nat} (hne : pml3 ≠ pml4) (hal : pml3.toNat % 4096 = 0)
  (hzero3 : ∀ i, mem pml3.toNat i = 0) (hzero4 : ∀ i, mem pml4.toNat i = 0)

include hne hal hzero3 hzero4

/-- The entries 0, 256 and 511 of `bootstrap_pml4` stand for 512 GiB each. -/
theorem boot_base {base : Nat} {m : Mapping} (hbase : base = 0 ∨ base = HIGHER_BASE ∨
    base = 0xffffff8000000000) (hb : base ≤ v) (hv : v < base + 2 ^ 39) :
    translate (setupMapping pml3 pml4 mem) pml4.toNat v = some m ↔
      v < base + 2 ^ 32 ∧ m = ⟨v - base, true, false⟩ ∨
        base + 510 * 2 ^ 30 ≤ v ∧ m = ⟨v - (base + 510 * 2 ^ 30), true, false⟩ := by
  rw [HIGHER_BASE] at hbase
  rw [boot_walk hne hal hzero3 hzero4, if_pos (by omega)]
  exact bootGigabyte_window (by omega) hb hv

theorem boot_window {w : Nat × Nat} (hw : w ∈ bootWindows) (h1 : w.1 ≤ v) (h2 : v < w.1 + w.2) :
    translate (setupMapping pml3 pml4 mem) pml4.toNat v = some ⟨v - w.1, true, false⟩ := by
  have hbase := fun base h => @boot_base pml3 pml4 mem v hne hal hzero3 hzero4 base
    ⟨v - w.1, true, false⟩ h
  rw [HIGHER_BASE] at hbase
  simp only [bootWindows, HIGHER_BASE, VIRTUAL_BASE, List.mem_cons, List.not_mem_nil,
    or_false] at hw
  rcases hw with rfl | rfl | rfl | rfl | rfl | rfl
  · exact (hbase 0 (by simp) (by omega) (by omega)).mpr (Or.inl ⟨by omega, rfl⟩)
  · exact (hbase 0 (by simp) (by omega) (by omega)).mpr (Or.inr ⟨by omega, rfl⟩)
  · exact (hbase 0xffff800000000000 (by simp) (by omega) (by omega)).mpr (Or.inl ⟨by omega, rfl⟩)
  · exact (hbase 0xffff800000000000 (by simp) (by omega) (by omega)).mpr (Or.inr ⟨by omega, rfl⟩)
  · exact (hbase 0xffffff8000000000 (by simp) (by omega) (by omega)).mpr (Or.inl ⟨by omega, rfl⟩)
  · exact (hbase 0xffffff8000000000 (by simp) (by omega) (by omega)).mpr (Or.inr ⟨by omega, rfl⟩)

theorem boot_outside {m : Mapping} (hv : Canonical v)
    (h : translate (setupMapping pml3 pml4 mem) pml4.toNat v = some m) :
    ∃ w ∈ bootWindows, w.1 ≤ v ∧ v < w.1 + w.2 := by
  have hcan : v < 2 ^ 47 ∨ 2 ^ 64 - 2 ^ 47 ≤ v ∧ v < 2 ^ 64 := hv
  have hbase := fun base h => @boot_base pml3 pml4 mem v hne hal hzero3 hzero4 base m h
  simp only [bootWindows, HIGHER_BASE, VIRTUAL_BASE, List.mem_cons, List.not_mem_nil, or_false,
    exists_eq_or_imp, exists_eq_left]
  by_cases hroot : v / 2 ^ 39 % 512 = 0 ∨ v / 2 ^ 39 % 512 = 256 ∨ v / 2 ^ 39 % 512 = 511
  · rcases hroot with hi | hi | hi
    · have := (hbase 0 (by simp) (by omega) (by omega)).mp h
      omega
    · have := (hbase HIGHER_BASE (by simp) (by rw [HIGHER_BASE]; omega)
        (by rw [HIGHER_BASE]; omega)).mp h
      rw [HIGHER_BASE] at this
      omega
    · have := (hbase 0xffffff8000000000 (by simp) (by omega) (by omega)).mp h
      omega
  · rw [boot_walk hne hal hzero3 hzero4, if_neg hroot] at h
    cases h

end Windows

/-- **What the boot code maps.**  An address translates if and only if it lies in a window, to its
offset in the window, for writing and not for user mode. -/
theorem boot_translate (pml3 pml4 : BitVec 32) (mem : PageTables) (hne : pml3 ≠ pml4)
    (hal : pml3.toNat % 4096 = 0) (hzero3 : ∀ i, mem pml3.toNat i = 0)
    (hzero4 : ∀ i, mem pml4.toNat i = 0) (v : Nat) (hv : Canonical v) (m : Mapping) :
    translate (setupMapping pml3 pml4 mem) pml4.toNat v = some m ↔
      ∃ w ∈ bootWindows, w.1 ≤ v ∧ v < w.1 + w.2 ∧ m = ⟨v - w.1, true, false⟩ := by
  constructor
  · intro h
    obtain ⟨w, hw, h1, h2⟩ := boot_outside hne hal hzero3 hzero4 hv h
    have hin := boot_window hne hal hzero3 hzero4 hw h1 h2
    exact ⟨w, hw, h1, h2, Option.some.inj (h.symm.trans hin)⟩
  · rintro ⟨w, hw, h1, h2, rfl⟩
    exact boot_window hne hal hzero3 hzero4 hw h1 h2

theorem boot_translate_base : translate (setupMapping 0x102000#32 0x101000#32 fun _ _ => 0) 0x101000
    (VIRTUAL_BASE + 5) = some ⟨5, true, false⟩ :=
  (boot_translate 0x102000#32 0x101000#32 (fun _ _ => 0) (by decide) (by decide)
    (fun _ => rfl) (fun _ => rfl) (VIRTUAL_BASE + 5) (Or.inr ⟨by decide, by decide⟩) _).mpr
    ⟨(VIRTUAL_BASE, 2 ^ 31), by decide, by decide, by decide, rfl⟩

end AuOs
