import Mathlib
import AuOs.Balloc.Alloc

/-!
# The multiboot memory map

Reference model of `balloc_parse_mmap` on the bytes the boot loader left in memory.

* `MmapEntry`, `readEntry` — `struct multiboot_mmap_entry`, packed and little endian.
* `mmapLoop` — the loop over the entries, which occurs twice; `mmapEntries` lists the entries it
  visits, and `mmapLoop_eq` says that it ends and visits just these.
* `ballocParseMmap` — both passes.
* `parse_safe` — what is reserved is not free afterwards, and every free range lies inside a single
  range of the memory map, however the entries overlap.
-/

set_option autoImplicit false

namespace AuOs

/-- Physical memory, byte by byte. -/
abbrev Memory := Nat → BitVec 8

/-- A little endian number of `n` bytes. -/
def readLE (mem : Memory) (addr : Nat) : Nat → Nat
  | 0 => 0
  | n + 1 => (mem addr).toNat + 256 * readLE mem (addr + 1) n

/-- `struct multiboot_mmap_entry`. -/
structure MmapEntry where
  size : Nat
  addr : Nat
  length : Nat
  type : Nat

/-- `sizeof(struct multiboot_mmap_entry)`, a packed structure. -/
def MMAP_ENTRY_SIZE : Nat := 24

def readEntry (mem : Memory) (ptr : Nat) : MmapEntry where
  size := readLE mem ptr 4
  addr := readLE mem (ptr + 4) 8
  length := readLE mem (ptr + 12) 8
  type := readLE mem (ptr + 20) 4

/-- The fields of `struct multiboot_info` that are read. -/
structure MultibootInfo where
  flags : BitVec 32
  mmapLength : BitVec 32
  mmapAddr : BitVec 32

/-- The memory the kernel and the initial ramdisk occupy: `text_phys_begin`, `bss_phys_end`,
`initrd_begin` and `initrd_end`. -/
structure BootImage where
  kbegin : Nat
  kend : Nat
  initrdBegin : Nat
  initrdEnd : Nat

/-- `while (ptr + sizeof(struct multiboot_mmap_entry) <= end)`.  The fields of the info are 32 bits
wide, so the pointer arithmetic does not wrap. -/
def mmapLoop (mem : Memory) (end_ : Nat) (f : Balloc → MmapEntry → Res Balloc) :
    Nat → Nat → Balloc → Res Balloc
  | 0, _, _ => .error .hang
  | fuel + 1, ptr, s =>
    if ptr + MMAP_ENTRY_SIZE ≤ end_ then do
      let entry := readEntry mem ptr
      let s ← f s entry
      mmapLoop mem end_ f fuel (ptr + (entry.size + 4)) s
    else .ok s

/-- `rbegin` and `rend` of an entry. -/
def MmapEntry.rend (entry : MmapEntry) : Nat := (entry.addr + entry.length) % WORD

/-- `balloc_parse_mmap`. -/
def ballocParseMmap (mem : Memory) (info : MultibootInfo) (img : BootImage) (s : Balloc) :
    Res Balloc := do
  bugOn (info.flags.toNat &&& (1 <<< 6) = 0) .ballocNoMmap
  let begin_ := info.mmapAddr.toNat
  let end_ := begin_ + info.mmapLength.toNat
  let fuel := info.mmapLength.toNat + 1
  let s ← mmapLoop mem end_ (fun s entry => do
    let s ← addRange s .memoryMap entry.addr entry.rend
    addRange s .freeRanges entry.addr entry.rend) fuel begin_ s
  let s ← addRange s .memoryMap img.kbegin img.kend
  let s ← addRange s .freeRanges img.kbegin img.kend
  let s ← addRange s .memoryMap img.initrdBegin img.initrdEnd
  let s ← addRange s .freeRanges img.initrdBegin img.initrdEnd
  let s ← mmapLoop mem end_ (fun s entry =>
    if entry.type ≠ 1 then removeRange s .freeRanges entry.addr entry.rend else .ok s) fuel begin_ s
  let s ← removeRange s .freeRanges img.kbegin img.kend
  removeRange s .freeRanges img.initrdBegin img.initrdEnd

/-- `balloc_setup`, less the dump. -/
def ballocSetup (mem : Memory) (info : MultibootInfo) (img : BootImage) : Res Balloc :=
  ballocParseMmap mem info img ballocSetupNodes

/-! ## The entries -/

/-- The entries from `ptr` on. -/
def entriesFrom (mem : Memory) (end_ : Nat) : Nat → Nat → List MmapEntry
  | 0, _ => []
  | fuel + 1, ptr =>
    if ptr + MMAP_ENTRY_SIZE ≤ end_ then
      readEntry mem ptr :: entriesFrom mem end_ fuel (ptr + ((readEntry mem ptr).size + 4))
    else []

/-- The entries of the memory map. -/
def mmapEntries (mem : Memory) (info : MultibootInfo) : List MmapEntry :=
  entriesFrom mem (info.mmapAddr.toNat + info.mmapLength.toNat) (info.mmapLength.toNat + 1)
    info.mmapAddr.toNat

/-- **The loop ends** and visits the entries in order. -/
theorem mmapLoop_eq {mem : Memory} {end_ : Nat} {f : Balloc → MmapEntry → Res Balloc} :
    ∀ (fuel ptr : Nat) (s : Balloc), 0 < fuel → end_ < ptr + fuel →
      mmapLoop mem end_ f fuel ptr s = (entriesFrom mem end_ fuel ptr).foldlM f s
  | 0, ptr, s, h0, _ => absurd h0 (lt_irrefl 0)
  | fuel + 1, ptr, s, _, hf => by
    unfold mmapLoop entriesFrom
    split
    · rename_i hin
      have hsize : MMAP_ENTRY_SIZE = 24 := rfl
      rw [List.foldlM_cons]
      refine congrArg (f s (readEntry mem ptr) >>= ·) (funext fun s' => ?_)
      exact mmapLoop_eq fuel _ s' (by omega) (by omega)
    · rfl

theorem mmapLoop_entries (mem : Memory) (info : MultibootInfo)
    (f : Balloc → MmapEntry → Res Balloc) (s : Balloc) :
    mmapLoop mem (info.mmapAddr.toNat + info.mmapLength.toNat) f (info.mmapLength.toNat + 1)
      info.mmapAddr.toNat s = (mmapEntries mem info).foldlM f s :=
  mmapLoop_eq _ _ s (by omega) (by omega)

/-! ## The two passes -/

/-- Both trees hold the same ranges, up to an address `limit`. -/
structure SameRanges (limit : Nat) (s : Balloc) : Prop where
  inv : BallocInv s []
  same : s.ranges .freeRanges = s.ranges .memoryMap
  bounded : ∀ r ∈ s.ranges .memoryMap, r.end_ ≤ limit

/-- An insertion reaches no further than the ranges and the new one. -/
theorem Inserted.end_le {l l' : List MemoryNode} {r : MemoryNode} {limit : Nat}
    (h : Inserted l r l')
    (hl : ∀ a ∈ l, a.end_ ≤ limit) (hr : r.end_ ≤ limit) : ∀ a ∈ l', a.end_ ≤ limit := by
  obtain ⟨A, B, A', B', r₁, r', rfl, _, _, hprev, hnext, rfl⟩ := h
  have h₁ : (∀ a ∈ A', a.end_ ≤ limit) ∧ r₁.end_ ≤ limit := by
    rcases hprev with ⟨rfl, rfl, _⟩ | ⟨p, rfl, _, rfl⟩
    · exact ⟨fun a ha => hl a (by simp [ha]), hr⟩
    · exact ⟨fun a ha => hl a (by simp [ha]), max_le (hl p (by simp)) hr⟩
  have h₂ : (∀ b ∈ B', b.end_ ≤ limit) ∧ r'.end_ ≤ limit := by
    rcases hnext with ⟨rfl, rfl, _⟩ | ⟨q, rfl, _, rfl⟩
    · exact ⟨fun b hb => hl b (by simp [hb]), h₁.2⟩
    · exact ⟨fun b hb => hl b (by simp [hb]), hl q (by simp)⟩
  intro a ha
  rcases List.mem_append.mp ha with ha | ha
  · exact h₁.1 a ha
  · rcases List.mem_cons.mp ha with rfl | ha
    · exact h₂.2
    · exact h₂.1 a ha

/-- **A range added to both trees**: they still hold the same ranges. -/
theorem addBoth_spec {limit : Nat} {s : Balloc} {from_ to_ : Nat} (h : SameRanges limit s)
    (hle : from_ ≤ to_) (hto : to_ ≤ limit) :
    Post (do
      let s ← addRange s .memoryMap from_ to_
      addRange s .freeRanges from_ to_) NoNode (SameRanges limit) := by
  refine ((addRange_inv (w := .memoryMap) h.inv hle).weaken fun _ he => he.1).bind ?_
  rintro s₁ ⟨h₁, honly₁, hins₁⟩
  refine ((addRange_inv (w := .freeRanges) h₁ hle).weaken fun _ he => he.1).mono ?_
  rintro s₂ ⟨h₂, honly₂, hins₂⟩
  have hfree : s₁.ranges .freeRanges = s.ranges .memoryMap := honly₁.ranges.trans h.same
  have hmap : s₂.ranges .memoryMap = s₁.ranges .memoryMap := honly₂.ranges
  rw [hfree] at hins₂
  refine ⟨h₂, by rw [hmap]; exact hins₂.unique hins₁, ?_⟩
  rw [hmap]
  exact hins₁.end_le h.bounded hto

theorem addBoth_bind {limit : Nat} {s : Balloc} {from_ to_ : Nat} {f : Balloc → Res Balloc}
    {Q : Balloc → Prop} (h : SameRanges limit s) (hle : from_ ≤ to_) (hto : to_ ≤ limit)
    (hf : ∀ s', SameRanges limit s' → Post (f s') NoNode Q) :
    Post (do
      let s ← addRange s .memoryMap from_ to_
      let s ← addRange s .freeRanges from_ to_
      f s) NoNode Q := by
  have h := (addBoth_spec h hle hto).bind hf
  rwa [bind_assoc] at h

/-- The free ranges lie inside single ranges of the memory map `mmap`, and none of the address
ranges `removed` is free. -/
structure Restricted (mmap : List MemoryNode) (removed : List (Nat × Nat)) (s : Balloc) : Prop where
  inv : BallocInv s []
  map : s.ranges .memoryMap = mmap
  inside : ∀ r ∈ s.ranges .freeRanges, ∃ m ∈ mmap, m.begin_ ≤ r.begin_ ∧ r.end_ ≤ m.end_
  avoid : ∀ p ∈ removed, ∀ x ∈ covered (s.ranges .freeRanges), ¬ (p.1 ≤ x ∧ x < p.2)

/-- **A range removed from the free ranges** stays removed. -/
theorem Restricted.remove {mmap : List MemoryNode} {removed : List (Nat × Nat)} {s : Balloc}
    {from_ to_ : Nat} (h : Restricted mmap removed s) (hle : from_ ≤ to_) :
    Post (removeRange s .freeRanges from_ to_) NoNode
      (Restricted mmap (removed ++ [(from_, to_)])) := by
  refine (removeRange_spec h.inv hle).mono ?_
  rintro s' ⟨h', honly, htrim⟩
  refine ⟨h', honly.ranges.trans h.map, fun r' hr' => ?_, fun p hp x hx => ?_⟩
  · obtain ⟨r, hr, h1, h2⟩ := htrim.inside r' hr'
    obtain ⟨m, hm, h3, h4⟩ := h.inside r hr
    exact ⟨m, hm, h3.trans h1, h2.trans h4⟩
  · obtain ⟨hold, hout⟩ := (htrim.cover x).mp hx
    rcases List.mem_append.mp hp with hp | hp
    · exact h.avoid p hp x hold
    · rw [List.mem_singleton] at hp
      subst hp
      exact hout

/-- The ranges that are withheld from the free ranges: the entries that are not available, the
kernel and the initial ramdisk. -/
def withheld (entries : List MmapEntry) (img : BootImage) : List (Nat × Nat) :=
  (entries.filter fun entry => decide (entry.type ≠ 1)).map (fun entry =>
    (entry.addr, entry.rend)) ++ [(img.kbegin, img.kend), (img.initrdBegin, img.initrdEnd)]

/-- `balloc_parse_mmap` stops only because the info has no map or the pool has no node. -/
def ParseStop (e : Stop) : Prop := e = .bug .ballocNoMmap ∨ NoNode e

theorem MmapEntry.rend_eq {entry : MmapEntry} (h : entry.addr + entry.length < WORD) :
    entry.rend = entry.addr + entry.length := Nat.mod_eq_of_lt h

/-- **Both passes** over a memory map whose ranges do not wrap. -/
theorem ballocParseMmap_spec {mem : Memory} {info : MultibootInfo} {img : BootImage} {s : Balloc}
    {limit : Nat} (h : SameRanges limit s)
    (hentries : ∀ e ∈ mmapEntries mem info, e.addr ≤ e.rend ∧ e.rend ≤ limit)
    (hkernel : img.kbegin ≤ img.kend ∧ img.kend ≤ limit)
    (hinitrd : img.initrdBegin ≤ img.initrdEnd ∧ img.initrdEnd ≤ limit) :
    Post (ballocParseMmap mem info img s) ParseStop fun s' =>
      Restricted (s'.ranges .memoryMap) (withheld (mmapEntries mem info) img) s' ∧
      ∀ r ∈ s'.ranges .memoryMap, r.end_ ≤ limit := by
  unfold ballocParseMmap
  by_cases hflags : info.flags.toNat &&& (1 <<< 6) = 0
  · rw [bugOn, if_pos hflags]
    exact Post.error (Or.inl rfl)
  rw [bugOn_neg hflags, ok_bind]
  simp only [mmapLoop_entries]
  refine Post.weaken ?_ fun e he => Or.inr he
  -- the first pass
  refine (Post.foldlM (I := fun _ => SameRanges limit) _ h fun _ e he s hs =>
    addBoth_spec hs (hentries e he).1 (hentries e he).2).bind ?_
  intro s₁ h₁
  refine addBoth_bind h₁ hkernel.1 hkernel.2 fun s₂ h₂ => ?_
  refine addBoth_bind h₂ hinitrd.1 hinitrd.2 fun s₃ h₃ => ?_
  have hstart : Restricted (s₃.ranges .memoryMap) [] s₃ :=
    ⟨h₃.inv, rfl, fun r hr => ⟨r, by rwa [← h₃.same], le_refl _, le_refl _⟩,
      fun p hp => by cases hp⟩
  -- the second pass
  refine (Post.foldlM (I := fun done s => Restricted (s₃.ranges .memoryMap)
    ((done.filter fun entry => decide (entry.type ≠ 1)).map fun entry =>
      (entry.addr, entry.rend)) s)
    _ hstart fun done e he s hs => ?_).bind fun s₄ h₄ => ?_
  · rw [List.filter_append, List.map_append]
    by_cases htype : e.type ≠ 1
    · rw [if_pos htype, List.filter_cons_of_pos (by simpa using htype)]
      exact hs.remove (hentries e he).1
    · rw [if_neg htype, List.filter_cons_of_neg (by simpa using htype),
        List.filter_nil, List.map_nil, List.append_nil]
      exact Post.ok hs
  · refine (h₄.remove hkernel.1).bind fun s₅ h₅ => (h₅.remove hinitrd.1).mono fun s₆ h₆ => ?_
    rw [List.append_assoc] at h₆
    rw [h₆.map]
    exact ⟨h₆, h₃.bounded⟩

theorem ballocSetupNodes_same (limit : Nat) : SameRanges limit ballocSetupNodes :=
  ⟨ballocSetupNodes_inv, rfl, by simp [Balloc.ranges, Balloc.ids, ballocSetupNodes, RbTree.toList]⟩

/-- **The memory map is parsed safely.**  Whatever the entries are and however they overlap, after
`balloc_setup` no address of an unavailable entry, of the kernel or of the initial ramdisk is free,
and every free range lies inside a single range of the memory map. -/
theorem parse_safe (mem : Memory) (info : MultibootInfo) (img : BootImage)
    (hwrap : ∀ e ∈ mmapEntries mem info, e.addr + e.length < WORD)
    (hkernel : img.kbegin ≤ img.kend) (hinitrd : img.initrdBegin ≤ img.initrdEnd) :
    Post (ballocSetup mem info img) ParseStop fun s =>
      (∀ x ∈ covered (s.ranges .freeRanges),
        (∀ e ∈ mmapEntries mem info, e.type ≠ 1 → ¬ (e.addr ≤ x ∧ x < e.addr + e.length)) ∧
        ¬ (img.kbegin ≤ x ∧ x < img.kend) ∧ ¬ (img.initrdBegin ≤ x ∧ x < img.initrdEnd)) ∧
      ∀ r ∈ s.ranges .freeRanges, ∃ m ∈ s.ranges .memoryMap, m.begin_ ≤ r.begin_ ∧
          r.end_ ≤ m.end_ := by
  refine (ballocParseMmap_spec (ballocSetupNodes_same (WORD + img.kend + img.initrdEnd))
    (fun e he => ?_) ⟨hkernel, by omega⟩ ⟨hinitrd, by omega⟩).mono fun s hs => ?_
  · rw [MmapEntry.rend_eq (hwrap e he)]
    exact ⟨Nat.le_add_right _ _, by have := hwrap e he; omega⟩
  replace hs := hs.1
  refine ⟨fun x hx => ⟨fun e he htype => ?_, ?_, ?_⟩, hs.inside⟩
  · have hmem : (e.addr, e.rend) ∈ withheld (mmapEntries mem info) img :=
      List.mem_append_left _ (List.mem_map.mpr ⟨e, List.mem_filter.mpr ⟨he, by simpa using htype⟩,
        rfl⟩)
    have := hs.avoid _ hmem x hx
    rwa [MmapEntry.rend_eq (hwrap e he)] at this
  · exact hs.avoid (img.kbegin, img.kend) (List.mem_append_right _ (by simp)) x hx
  · exact hs.avoid (img.initrdBegin, img.initrdEnd) (List.mem_append_right _ (by simp)) x hx

/-- Two entries: available memory, and a reserved page in the middle of it. -/
def overlappingMap : Memory := fun addr =>
  [20, 0, 0, 0,  0, 0x10, 0, 0, 0, 0, 0, 0,  0, 0x80, 0, 0, 0, 0, 0, 0,  1, 0, 0, 0,
   20, 0, 0, 0,  0, 0x50, 0, 0, 0, 0, 0, 0,  0, 0x10, 0, 0, 0, 0, 0, 0,  2, 0, 0, 0].getD
    (addr - 0x100) 0

theorem parse_safe_overlapping :
    ∃ s, ballocSetup overlappingMap ⟨64, 48, 0x100⟩ ⟨0x2000, 0x3000, 0x4000, 0x4800⟩ = .ok s ∧
      s.ranges .freeRanges =
        [⟨0x1000, 0x2000⟩, ⟨0x3000, 0x4000⟩, ⟨0x4800, 0x5000⟩, ⟨0x6000, 0x9000⟩] ∧
      ∀ r ∈ s.ranges .freeRanges, ∃ m ∈ s.ranges .memoryMap,
        m.begin_ ≤ r.begin_ ∧ r.end_ ≤ m.end_ := by
  have hres : (ballocSetup overlappingMap ⟨64, 48, 0x100⟩ ⟨0x2000, 0x3000, 0x4000, 0x4800⟩).map
      (fun s => s.ranges .freeRanges) =
      .ok [⟨0x1000, 0x2000⟩, ⟨0x3000, 0x4000⟩, ⟨0x4800, 0x5000⟩, ⟨0x6000, 0x9000⟩] := by rfl
  have hpost := parse_safe overlappingMap ⟨64, 48, 0x100⟩ ⟨0x2000, 0x3000, 0x4000, 0x4800⟩
    (by decide) (by decide) (by decide)
  cases hs : ballocSetup overlappingMap ⟨64, 48, 0x100⟩ ⟨0x2000, 0x3000, 0x4000, 0x4800⟩ with
  | error e => rw [hs] at hres; cases hres
  | ok s => rw [hs] at hres; exact ⟨s, rfl, Except.ok.inj hres, (hpost.of_eq hs).2⟩

end AuOs
