import Mathlib
import AuOs.Balloc.Parse
import AuOs.Ramfs.Family

/-!
# The module with the initial file system

Reference model of `find_initrd`, on the bytes the boot loader left in memory.

* `MultibootModule`, `readModule` — `multiboot_module_t`, whose `mod_start` and `mod_end` are
  addresses.
* `findInitrd` — the loop over the modules, which leaves `initrd_begin` and `initrd_end`.
* `findInitrd_eq` — they come from the last module that holds an archive.
* `findInitrd_exact_iff` — `mod_end` is taken for a size, so the interval is that of the module only
  if the module starts or ends at zero.
* `findInitrd_withheld` — the memory behind the module is withheld from the free ranges as well.
-/

set_option autoImplicit false

namespace AuOs

/-- The fields of `struct multiboot_info` that `find_initrd` reads. -/
structure ModsInfo where
  modsCount : BitVec 32
  modsAddr : BitVec 32

/-- The fields of `multiboot_module_t` that `find_initrd` reads. -/
structure MultibootModule where
  modStart : Nat
  modEnd : Nat
  deriving DecidableEq, Repr

/-- `sizeof(multiboot_module_t)`. -/
def SIZEOF_MODULE : Nat := 16

def readModule (mem : Memory) (ptr : Nat) : MultibootModule where
  modStart := readLE mem ptr 4
  modEnd := readLE mem (ptr + 4) 4

/-- `modules[i]`. -/
def ModsInfo.module (mem : Memory) (info : ModsInfo) (i : Nat) : MultibootModule :=
  readModule mem (info.modsAddr.toNat + SIZEOF_MODULE * i)

/-- The characters at an address. -/
def charsAt (mem : Memory) (addr size : Nat) : CStr :=
  (List.range size).map fun i => Int8.ofBitVec (mem (addr + i))

/-- `070701`. -/
def CPIO_MAGIC : CStr := [48, 55, 48, 55, 48, 49]

/-- `initrd_begin` and `initrd_end`. -/
structure Initrd where
  begin_ : Nat
  end_ : Nat
  deriving DecidableEq, Repr

/-- `find_initrd`, less its messages: the flag is only reported. -/
def findInitrd (mem : Memory) (info : ModsInfo) : Initrd :=
  (List.range info.modsCount.toNat).foldl (fun initrd i =>
    if strCompare (charsAt mem (info.module mem i).modStart 6) CPIO_MAGIC 6 = 0 then
      ⟨(info.module mem i).modStart,
        ((info.module mem i).modStart + (info.module mem i).modEnd) % WORD⟩
    else initrd) ⟨0, 0⟩

/-- `balloc_setup` after `find_initrd`, with the kernel between `kbegin` and `kend`. -/
def bootBalloc (mem : Memory) (info : MultibootInfo) (mods : ModsInfo)
    (kbegin kend : Nat) : Res Balloc :=
  ballocSetup mem info ⟨kbegin, kend, (findInitrd mem mods).begin_, (findInitrd mem mods).end_⟩

/-! ## The last archive -/

/-- The module starts with the magic number. -/
def MultibootModule.IsArchive (mem : Memory) (m : MultibootModule) : Prop :=
  charsAt mem m.modStart 6 = CPIO_MAGIC

instance (mem : Memory) (m : MultibootModule) : Decidable (m.IsArchive mem) :=
  inferInstanceAs (Decidable (_ = _))

/-- The last module that holds an archive. -/
def lastArchive (mem : Memory) (info : ModsInfo) : Option MultibootModule :=
  (((List.range info.modsCount.toNat).map (info.module mem)).filter fun m =>
    decide (m.IsArchive mem)).getLast?

/-- A loop that keeps what it made of the last element it accepted. -/
theorem foldl_last {α β : Type} (p : α → Prop) [DecidablePred p] (f : α → β) (l : List α) (b : β) :
    l.foldl (fun r a => if p a then f a else r) b =
    (((l.filter fun a => decide (p a)).getLast?).map f).getD b := by
  induction l using List.reverseRecOn with
  | nil => rfl
  | append_singleton l a ih =>
    rw [List.foldl_append, List.foldl_cons, List.foldl_nil, List.filter_append, ih]
    by_cases ha : p a
    · rw [if_pos ha, List.filter_cons_of_pos (by simpa using ha), List.filter_nil,
        List.getLast?_concat]
      rfl
    · rw [if_neg ha, List.filter_cons_of_neg (by simpa using ha), List.filter_nil, List.append_nil]

section Find

variable {mem : Memory} {info : ModsInfo} {m : MultibootModule} {x : Nat}

theorem isArchive_iff : strCompare (charsAt mem m.modStart 6) CPIO_MAGIC 6 = 0 ↔ m.IsArchive mem :=
  strCompare_eq_zero _ _ (by simp [charsAt, CPIO_MAGIC])

/-- **`find_initrd`** takes the addresses of the last archive. -/
theorem findInitrd_eq : findInitrd mem info =
    ((lastArchive mem info).map fun m => ⟨m.modStart, (m.modStart + m.modEnd) % WORD⟩).getD
      ⟨0, 0⟩ := by
  rw [findInitrd, lastArchive, ← foldl_last (fun m => MultibootModule.IsArchive mem m),
    List.foldl_map]
  simp only [isArchive_iff]

theorem readLE_lt (mem : Memory) (addr n : Nat) : readLE mem addr n < 256 ^ n := by
  induction n generalizing addr with
  | zero => exact Nat.one_pos
  | succ n ih =>
    have hbyte := (mem addr).isLt
    have hrest := ih (addr + 1)
    rw [readLE, Nat.pow_succ]
    omega

theorem lastArchive_module (h : lastArchive mem info = some m) :
    m.IsArchive mem ∧ m.modStart + m.modEnd < WORD := by
  have hmem := List.mem_of_getLast? h
  obtain ⟨hlist, harchive⟩ := List.mem_filter.mp hmem
  obtain ⟨i, _, rfl⟩ := List.mem_map.mp hlist
  refine ⟨of_decide_eq_true harchive, ?_⟩
  have hstart := readLE_lt mem (info.modsAddr.toNat + SIZEOF_MODULE * i) 4
  have hend := readLE_lt mem (info.modsAddr.toNat + SIZEOF_MODULE * i + 4) 4
  have hbound : 256 ^ 4 + 256 ^ 4 ≤ WORD := by decide
  exact (Nat.add_lt_add hstart hend).trans_le hbound

/-- The interval that is left behind. -/
theorem findInitrd_mem_iff : (findInitrd mem info).begin_ ≤ x ∧ x < (findInitrd mem info).end_ ↔
    ∃ m, lastArchive mem info = some m ∧ m.modStart ≤ x ∧ x < m.modStart + m.modEnd := by
  rw [findInitrd_eq]
  cases hlast : lastArchive mem info with
  | none => simp
  | some m =>
    rw [Option.map_some, Option.getD_some, Nat.mod_eq_of_lt (lastArchive_module hlast).2]
    simp

/-- **The interval is that of the last archive** if and only if the archive starts or ends at zero:
its end is added to its start. -/
theorem findInitrd_exact_iff (mem : Memory) (info : ModsInfo) :
    (∀ x, (findInitrd mem info).begin_ ≤ x ∧ x < (findInitrd mem info).end_ ↔
      ∃ m, lastArchive mem info = some m ∧ m.modStart ≤ x ∧ x < m.modEnd) ↔
    ∀ m, lastArchive mem info = some m → m.modStart = 0 ∨ m.modEnd = 0 := by
  simp only [findInitrd_mem_iff]
  constructor
  · intro h m hm
    by_contra hne
    rw [not_or] at hne
    -- the last address that is added is not of the module
    have hlast := (h (m.modStart + m.modEnd - 1)).mp ⟨m, hm, by omega, by omega⟩
    obtain ⟨m', hm', _, hlt⟩ := hlast
    obtain rfl := Option.some.inj (hm.symm.trans hm')
    omega
  · intro h x
    refine exists_congr fun m => and_congr_right fun hm => ?_
    have hzero := h m hm
    omega

/-- **Free memory is hidden**: nothing from the start of the module up to the sum of its start and
its end is free after `balloc_setup`. -/
theorem findInitrd_withheld {binfo : MultibootInfo} {kbegin kend : Nat}
    (hwrap : ∀ e ∈ mmapEntries mem binfo, e.addr + e.length < WORD) (hkernel : kbegin ≤ kend)
    (hm : lastArchive mem info = some m) :
    Post (bootBalloc mem binfo info kbegin kend) ParseStop fun s =>
      ∀ x ∈ covered (s.ranges .freeRanges), ¬ (m.modStart ≤ x ∧ x < m.modStart + m.modEnd) := by
  have hinitrd : (findInitrd mem info).begin_ = m.modStart ∧
      (findInitrd mem info).end_ = m.modStart + m.modEnd := by
    rw [findInitrd_eq, hm, Option.map_some, Option.getD_some,
      Nat.mod_eq_of_lt (lastArchive_module hm).2]
    exact ⟨rfl, rfl⟩
  have hsum := (lastArchive_module hm).2
  unfold bootBalloc ballocSetup
  rw [hinitrd.1, hinitrd.2]
  refine (ballocParseMmap_spec (ballocSetupNodes_same (WORD + kend)) (fun e he => ?_)
    ⟨hkernel, by simp⟩ ⟨Nat.le_add_right _ _, by simp only; omega⟩).mono fun s hs x hx => ?_
  · rw [MmapEntry.rend_eq (hwrap e he)]
    exact ⟨Nat.le_add_right _ _, by have := hwrap e he; omega⟩
  · exact hs.1.avoid (m.modStart, m.modStart + m.modEnd) (List.mem_append_right _ (by simp)) x hx

end Find

/-- One module of 16 bytes at `0x200`. -/
def oneModule : Memory := fun addr =>
  if 0x200 ≤ addr then [48, 55, 48, 55, 48, 49].getD (addr - 0x200) 0
  else [0, 2, 0, 0, 0x10, 2, 0, 0].getD (addr - 0x100) 0

/-- The module from `0x200` to `0x210` leaves the interval from `0x200` to `0x410`. -/
theorem module_end_added : ∃ mem info, lastArchive mem info = some ⟨0x200, 0x210⟩ ∧
    findInitrd mem info = ⟨0x200, 0x410⟩ ∧
    ¬ ∀ x, (findInitrd mem info).begin_ ≤ x ∧ x < (findInitrd mem info).end_ ↔
      ∃ m, lastArchive mem info = some m ∧ m.modStart ≤ x ∧ x < m.modEnd := by
  have hfound : findInitrd oneModule ⟨1, 0x100⟩ = ⟨0x200, 0x410⟩ := by decide
  have hlast : lastArchive oneModule ⟨1, 0x100⟩ = some ⟨0x200, 0x210⟩ := by decide
  refine ⟨oneModule, ⟨1, 0x100⟩, hlast, hfound, fun h => ?_⟩
  obtain ⟨m, hm, _, hlt⟩ := (h 0x300).mp (by rw [hfound]; decide)
  rw [hlast] at hm
  obtain rfl := Option.some.inj hm
  exact absurd hlt (by decide)

end AuOs
