import Mathlib
import AuOs.Initramfs.Archive

/-!
# Images that are not archives

`initramfs` looks at neither the magic number nor the digits nor `initrd_end`.

* `entryHead`, `entryNext` — where the data of an entry and the next entry begin, whatever its
  fields hold.
* `InImage` — from here on everything lies inside the image, up to an entry that ends the walk.
* `Makes` — the calls into the file system that the walk makes.
* `initramfs_in_image` — the walk ends inside such images; when the file system accepts every entry,
  only there.  `image_overrun` are an image that is too short and one whose first entry is followed
  by itself.
-/

set_option autoImplicit false

namespace AuOs

/-! ## What an entry says -/

/-- `pad4`, as arithmetic. -/
def round4 (size : Nat) : Nat := (size + 3) / 4 * 4 % U32

def entryField (ptr : Bytes) (field : Nat) : BitVec 32 := cpiotoi ((ptr.drop field).take 8)

def entryDir (ptr : Bytes) : Bool := sIsDir (entryField ptr CPIO_MODE)

def entrySize (ptr : Bytes) : Nat := (entryField ptr CPIO_FILESIZE).toNat

/-- Where the data begins. -/
def entryHead (ptr : Bytes) : Nat :=
  round4 ((SIZEOF_CPIO_HEADER + (entryField ptr CPIO_NAMESIZE).toNat) % U32)

/-- Where the next entry begins. -/
def entryNext (ptr : Bytes) : Nat := (entryHead ptr + round4 (entrySize ptr)) % U32

def entryName (ptr : Bytes) : CStr := (ptr.drop SIZEOF_CPIO_HEADER).takeWhile (· ≠ 0)

/-- An entry whose name is not that of the trailer, and ends inside the image. -/
structure IsEntry (ptr : Bytes) : Prop where
  name : ∃ c, strCompareAt (ptr.drop SIZEOF_CPIO_HEADER) END_OF_ARCHIVE = .ok c ∧ c ≠ 0
  ends : 0 ∈ ptr.drop SIZEOF_CPIO_HEADER

/-- The walk from here on stays inside the image, and ends. -/
inductive InImage : Bytes → Prop
  | trailer {ptr : Bytes} : strCompareAt (ptr.drop SIZEOF_CPIO_HEADER) END_OF_ARCHIVE = .ok 0 →
    InImage ptr
  /-- A directory with data: `initramfs` gives up. -/
  | refused {ptr : Bytes} : IsEntry ptr → entryDir ptr = true → 0 < entrySize ptr → InImage ptr
  | entry {ptr : Bytes} : IsEntry ptr → (entryDir ptr = true → entrySize ptr = 0) →
    (entryDir ptr = false → entrySize ptr ≤ (ptr.drop (entryHead ptr)).length) →
    InImage (ptr.drop (entryNext ptr)) → InImage ptr

/-- All the bytes that a write is to read are inside the image. -/
def LoadCall.inside : LoadCall → Bool
  | .write _ _ contents count => contents.length == count
  | _ => true

section Bounds

variable {σ : Type} {fs : LoadFs σ} {ptr : Bytes} {s t : σ} {c : LoadCall}

/-- The calls read what they are given: past the end of the image that is a `fault`. -/
def reading (fs : LoadFs σ) : LoadFs σ := fun c s => if c.inside then fs c s else .error .fault

theorem reading_eq (h : c.inside = true) : reading fs c s = fs c s := if_pos h

theorem IsEntry.lt (h : IsEntry ptr) : SIZEOF_CPIO_HEADER < ptr.length := by
  have hpos := List.length_pos_of_mem h.ends
  rw [List.length_drop] at hpos
  omega

/-- The fields are inside the image. -/
theorem IsEntry.field (h : IsEntry ptr) {field : Nat} (hf : field + 8 ≤ SIZEOF_CPIO_HEADER) :
    cpioField ptr field = .ok (entryField ptr field) :=
  if_pos (hf.trans h.lt.le)

/-- The calls of a turn, when the header and the name are read. -/
def loadEntry (fs : LoadFs σ) (ptr : Bytes) (s : σ) : Res (σ × CpioTurn) := do
  let (s, f) ← fs (.create (entryName ptr) (entryDir ptr)) s
  if f = 0 then return (s, .createFailed)
  else if entrySize ptr > 0 ∧ entryDir ptr = true then return (s, .dirNotEmpty)
  else do
    let (s, loaded) ← (if entryDir ptr then .ok (s, true)
      else initramfsData fs (entryName ptr) f (ptr.drop (entryHead ptr)) (entrySize ptr) s)
    if !loaded then return (s, .openFailed) else return (s, .next (ptr.drop (entryNext ptr)))

/-- **What a turn does** with an entry, whatever its fields hold. -/
theorem initramfsEntry_eq (h : IsEntry ptr) : initramfsEntry fs ptr s = loadEntry fs ptr s := by
  obtain ⟨c, hcmp, hc⟩ := h.name
  have hname : stringAt (ptr.drop SIZEOF_CPIO_HEADER) = .ok (entryName ptr) := if_pos h.ends
  have hsize : (entryField ptr CPIO_FILESIZE).toNat < U32 := BitVec.isLt _
  have hmod : ∀ n, n % U32 < U32 := fun n => Nat.mod_lt n (by decide)
  unfold initramfsEntry
  simp only [hcmp, ok_bind, if_neg hc, h.field (show CPIO_NAMESIZE + 8 ≤
    SIZEOF_CPIO_HEADER by decide), h.field (show CPIO_MODE + 8 ≤ SIZEOF_CPIO_HEADER by decide),
    h.field (show CPIO_FILESIZE + 8 ≤ SIZEOF_CPIO_HEADER by decide), pad4_eq hsize,
      pad4_eq (hmod _), hname]
  rfl

/-! ## Inside the image -/

/-- The data of a file, as far as it is inside the image. -/
def entryData (ptr : Bytes) : Bytes := (ptr.drop (entryHead ptr)).take (entrySize ptr)

/-- A call that a turn makes, and the state it is made in. -/
inductive TurnMakes (fs : LoadFs σ) (ptr : Bytes) (s : σ) : LoadCall → σ → Prop
  | create : TurnMakes fs ptr s (.create (entryName ptr) (entryDir ptr)) s
  | open_ {s₁ : σ} {f : FPtr} :
    fs (.create (entryName ptr) (entryDir ptr)) s = .ok (s₁, f) → f ≠ 0 → entryDir ptr = false →
    TurnMakes fs ptr s (.open_ (entryName ptr)) s₁
  | write {s₁ s₂ : σ} {f : FPtr} :
    fs (.create (entryName ptr) (entryDir ptr)) s = .ok (s₁, f) → f ≠ 0 → entryDir ptr = false →
    fs (.open_ (entryName ptr)) s₁ = .ok (s₂, f) →
    entrySize ptr ≤ (ptr.drop (entryHead ptr)).length →
    TurnMakes fs ptr s (.write f 0 (entryData ptr) (entrySize ptr)) s₂
  | close {s₁ s₂ s₃ : σ} {f : FPtr} {n : Nat} :
    fs (.create (entryName ptr) (entryDir ptr)) s = .ok (s₁, f) → f ≠ 0 → entryDir ptr = false →
    fs (.open_ (entryName ptr)) s₁ = .ok (s₂, f) →
    entrySize ptr ≤ (ptr.drop (entryHead ptr)).length →
    fs (.write f 0 (entryData ptr) (entrySize ptr)) s₂ = .ok (s₃, n) →
    TurnMakes fs ptr s (.close f) s₃

/-- A call that the walk makes before it leaves the image. -/
inductive Makes (fs : LoadFs σ) : Bytes → σ → LoadCall → σ → Prop
  | turn {ptr : Bytes} {s t : σ} {c : LoadCall} :
    IsEntry ptr → TurnMakes fs ptr s c t → Makes fs ptr s c t
  | next {ptr ptr' : Bytes} {s s' t : σ} {c : LoadCall} :
    initramfsEntry (reading fs) ptr s = .ok (s', .next ptr') → Makes fs ptr' s' c t →
    Makes fs ptr s c t

/-- The calls that are made return. -/
def Returns (fs : LoadFs σ) (made : LoadCall → σ → Prop) : Prop :=
  ∀ c t, made c t → ∃ r, fs c t = .ok r

/-- Every entry is created, and a file is found when it is opened. -/
def Accepts (fs : LoadFs σ) (made : LoadCall → σ → Prop) : Prop :=
  ∀ name dir t t' f, made (.create name dir) t → fs (.create name dir) t = .ok (t', f) → f ≠ 0 ∧
    ∀ t'' ff, dir = false → fs (.open_ name) t' = .ok (t'', ff) → ff = f

/-- The data of a file is read when it is inside the image. -/
theorem initramfsData_returns {s₁ : σ} {f : FPtr} (hfs : Returns fs (TurnMakes fs ptr s))
    (hcreate : fs (.create (entryName ptr) (entryDir ptr)) s = .ok (s₁, f)) (hf : f ≠ 0)
    (hdir : entryDir ptr = false) (hsize : entrySize ptr ≤ (ptr.drop (entryHead ptr)).length) :
    ∃ r, initramfsData (reading fs) (entryName ptr) f (ptr.drop (entryHead ptr))
      (entrySize ptr) s₁ = .ok r := by
  obtain ⟨⟨s₂, ff⟩, hopen⟩ := hfs _ _ (.open_ hcreate hf hdir)
  unfold initramfsData
  rw [reading_eq rfl, hopen, ok_bind]
  simp only
  by_cases hff : ff = f
  · subst hff
    obtain ⟨⟨s₃, n⟩, hwrite⟩ := hfs _ _ (.write hcreate hf hdir hopen hsize)
    obtain ⟨⟨s₄, m⟩, hclose⟩ := hfs _ _ (.close hcreate hf hdir hopen hsize hwrite)
    have hin : (LoadCall.write ff 0 (entryData ptr) (entrySize ptr)).inside = true := by
      rw [LoadCall.inside, entryData, List.length_take_of_le hsize]
      exact beq_self_eq_true (entrySize ptr)
    have hread := (reading_eq hin).trans hwrite
    unfold entryData at hread
    rw [if_neg (by simp), hread, ok_bind]
    simp only
    rw [reading_eq rfl, hclose]
    exact ⟨_, rfl⟩
  · rw [if_pos hff]
    exact ⟨_, rfl⟩

/-- A turn whose data is inside the image returns. -/
theorem loadEntry_returns (hfs : Returns fs (TurnMakes fs ptr s))
    (hdata : entryDir ptr = false → entrySize ptr ≤ (ptr.drop (entryHead ptr)).length) :
    ∃ s' turn, loadEntry (reading fs) ptr s = .ok (s', turn) ∧ ∀ p, turn = .next p →
      p = ptr.drop (entryNext ptr) ∧ ¬ (entrySize ptr > 0 ∧ entryDir ptr = true) := by
  obtain ⟨⟨s₁, f⟩, hcreate⟩ := hfs _ _ .create
  unfold loadEntry
  rw [reading_eq rfl, hcreate, ok_bind]
  simp only
  by_cases hf : f = 0
  · rw [if_pos hf]
    exact ⟨s₁, _, rfl, nofun⟩
  rw [if_neg hf]
  by_cases hfull : entrySize ptr > 0 ∧ entryDir ptr = true
  · rw [if_pos hfull]
    exact ⟨s₁, _, rfl, nofun⟩
  rw [if_neg hfull]
  obtain ⟨⟨s₂, loaded⟩, hload⟩ : ∃ r, (if entryDir ptr then .ok (s₁, true)
      else initramfsData (reading fs) (entryName ptr) f (ptr.drop (entryHead ptr))
        (entrySize ptr) s₁) =
      .ok r := by
    cases hdir : entryDir ptr with
    | true => exact ⟨(s₁, true), rfl⟩
    | false => exact initramfsData_returns hfs hcreate hf hdir (hdata hdir)
  rw [hload, ok_bind]
  simp only
  cases loaded with
  | false => exact ⟨s₂, _, rfl, nofun⟩
  | true =>
    refine ⟨s₂, _, rfl, ?_⟩
    intro p hp
    exact ⟨(CpioTurn.next.inj hp).symm, hfull⟩

/-- The last turn is the end, any other is followed by the rest of the walk. -/
theorem initramfs_turn {turn : CpioTurn} {s' : σ} (hturn : initramfsEntry fs ptr s = .ok (s', turn))
    (hrest : ∀ p, turn = .next p → ∃ fuel r, initramfs fs fuel p s' = .ok r) :
    ∃ fuel r, initramfs fs fuel ptr s = .ok r := by
  cases turn with
  | next p =>
    obtain ⟨fuel, r, h⟩ := hrest p rfl
    refine ⟨fuel + 1, r, ?_⟩
    rw [initramfs, hturn]
    exact h
  | _ =>
    refine ⟨1, ?_⟩
    simp only [initramfs, hturn, ok_bind]
    exact ⟨_, rfl⟩

/-- **Inside the image** the walk ends. -/
theorem InImage.returns (h : InImage ptr) :
    ∀ s, Returns fs (Makes fs ptr s) → ∃ fuel r, initramfs (reading fs) fuel ptr s = .ok r := by
  induction h with
  | @trailer ptr hcmp =>
    intro s _
    have hturn : initramfsEntry (reading fs) ptr s = .ok (s, .loaded) := by
      rw [initramfsEntry, hcmp]
      rfl
    exact initramfs_turn hturn (fun _ h => by cases h)
  | @refused ptr hentry hdir hsize =>
    intro s hfs
    obtain ⟨s', turn, hturn, hnext⟩ := loadEntry_returns (fun c t h => hfs c t (.turn hentry h))
      fun hfalse => Bool.noConfusion (hfalse.symm.trans hdir)
    apply initramfs_turn ((initramfsEntry_eq hentry).trans hturn)
    intro p hp
    exact absurd ⟨hsize, hdir⟩ (hnext p hp).2
  | @entry ptr hentry _ hdata _ ih =>
    intro s hfs
    obtain ⟨s', turn, hturn, hnext⟩ := loadEntry_returns (fun c t h =>
      hfs c t (.turn hentry h)) hdata
    have hturn' := (initramfsEntry_eq hentry).trans hturn
    apply initramfs_turn hturn'
    rintro p rfl
    obtain ⟨rfl, _⟩ := hnext p rfl
    exact ih s' fun c t h => hfs c t (.next hturn' h)

/-! ## Only inside the image -/

/-- A write that was read was inside. -/
theorem inside_of_reading {r : σ × Nat} (h : reading fs c s = .ok r) : c.inside = true ∧
    fs c s = .ok r := by
  unfold reading at h
  split at h
  · exact ⟨‹_›, h⟩
  · cases h

/-- When every entry is accepted, a turn that returns is one of the two that `InImage` knows. -/
theorem loadEntry_accepts (hfs : Returns fs (TurnMakes fs ptr s))
    (hacc : Accepts fs (TurnMakes fs ptr s))
    {s' : σ} {turn : CpioTurn} (h : loadEntry (reading fs) ptr s = .ok (s', turn)) :
    (entryDir ptr = true ∧ 0 < entrySize ptr) ∨
    ((entryDir ptr = true → entrySize ptr = 0) ∧
      (entryDir ptr = false → entrySize ptr ≤ (ptr.drop (entryHead ptr)).length) ∧
      turn = .next (ptr.drop (entryNext ptr))) := by
  obtain ⟨⟨s₁, f⟩, hcreate⟩ := hfs _ _ .create
  obtain ⟨hf, hopened⟩ := hacc _ _ _ _ _ .create hcreate
  unfold loadEntry at h
  rw [reading_eq rfl, hcreate, ok_bind] at h
  simp only [if_neg hf] at h
  by_cases hfull : entrySize ptr > 0 ∧ entryDir ptr = true
  · exact Or.inl ⟨hfull.2, hfull.1⟩
  rw [if_neg hfull] at h
  refine Or.inr ?_
  cases hdir : entryDir ptr with
  | true =>
    rw [hdir, if_pos rfl, ok_bind] at h
    obtain ⟨_, rfl⟩ := Prod.mk.inj (Except.ok.inj h)
    refine ⟨fun _ => ?_, (fun h => by cases h), rfl⟩
    by_contra hne
    exact hfull ⟨by omega, hdir⟩
  | false =>
    obtain ⟨⟨s₂, ff⟩, hopen⟩ := hfs _ _ (.open_ hcreate hf hdir)
    obtain rfl := hopened _ _ hdir hopen
    rw [hdir, if_neg Bool.false_ne_true, initramfsData, reading_eq rfl, hopen, ok_bind] at h
    simp only [ne_eq, not_true, if_false] at h
    cases hread : reading fs (.write ff 0 ((ptr.drop (entryHead ptr)).take (entrySize ptr))
        (entrySize ptr)) s₂ with
    | error stop =>
      rw [hread] at h
      cases h
    | ok r =>
      obtain ⟨hin, hwrite⟩ := inside_of_reading hread
      have hlen : ((ptr.drop (entryHead ptr)).take (entrySize ptr)).length = entrySize ptr :=
        beq_iff_eq.mp hin
      rw [List.length_take] at hlen
      have hsize : entrySize ptr ≤ (ptr.drop (entryHead ptr)).length := by omega
      obtain ⟨⟨s₄, m⟩, hclose⟩ := hfs _ _ (.close hcreate hf hdir hopen hsize hwrite)
      rw [hread, ok_bind] at h
      simp only [reading_eq (c := .close ff) rfl, hclose, ok_bind] at h
      obtain ⟨_, rfl⟩ := Prod.mk.inj (Except.ok.inj h)
      exact ⟨(fun h => by cases h), fun _ => hsize, rfl⟩

/-- **A walk that ends** without leaving the image is one of `InImage`. -/
theorem InImage.of_returns : ∀ {fuel : Nat} {ptr : Bytes} {s : σ} {r : σ × CpioTurn},
    Returns fs (Makes fs ptr s) → Accepts fs (Makes fs ptr s) →
    initramfs (reading fs) fuel ptr s = .ok r → InImage ptr
  | 0, _, _, _, _, _, h => by cases h
  | fuel + 1, ptr, s, r, hfs, hacc, h => by
    obtain ⟨⟨s', turn⟩, hturn, hrest⟩ := bind_eq_ok.mp h
    have hturn' := hturn
    unfold initramfsEntry at hturn
    obtain ⟨cmp, hcmp, hturn⟩ := bind_eq_ok.mp hturn
    by_cases hc : cmp = 0
    · exact .trailer (hc ▸ hcmp)
    rw [if_neg hc] at hturn
    obtain ⟨_, _, hturn⟩ := bind_eq_ok.mp hturn
    obtain ⟨_, _, hturn⟩ := bind_eq_ok.mp hturn
    obtain ⟨_, _, hturn⟩ := bind_eq_ok.mp hturn
    obtain ⟨name, hname, _⟩ := bind_eq_ok.mp hturn
    have hends : 0 ∈ ptr.drop SIZEOF_CPIO_HEADER := by
      unfold stringAt at hname
      split at hname
      · assumption
      · cases hname
    have hentry : IsEntry ptr := ⟨⟨cmp, hcmp, hc⟩, hends⟩
    rcases loadEntry_accepts (fun c t h => hfs c t (.turn hentry h))
      (fun name dir t t' f h => hacc name dir t t' f (.turn hentry h))
      ((initramfsEntry_eq hentry).symm.trans hturn') with ⟨hdir, hsize⟩ | ⟨hempty, hdata, rfl⟩
    · exact .refused hentry hdir hsize
    · exact .entry hentry hempty hdata (InImage.of_returns (fun c t h => hfs c t (.next hturn' h))
        (fun name dir t t' f h => hacc name dir t t' f (.next hturn' h)) hrest)

/-- **Where `initramfs` ends and stays inside the image**, as long as the calls that it makes
return. -/
theorem initramfs_in_image (image : Bytes) (s : σ) (hfs : Returns fs (Makes fs image s)) :
    (InImage image → ∃ fuel r, initramfs (reading fs) fuel image s = .ok r) ∧
    (Accepts fs (Makes fs image s) → (∃ fuel r, initramfs (reading fs) fuel image s = .ok r) →
      InImage image) := by
  refine ⟨fun h => h.returns s hfs, ?_⟩
  rintro hacc ⟨fuel, r, h⟩
  exact InImage.of_returns hfs hacc h

end Bounds

/-! ## Archives -/

namespace CpioMember

theorem isEntry (m : CpioMember) (rest : Bytes) : IsEntry (m.bytes ++ rest) := by
  constructor
  · rw [m.drop_name]
    exact strCompareAt_ne (by decide) m.not_trailer
  · rw [m.drop_name]
    simp

theorem field_eq (m : CpioMember) (rest : Bytes) {field : Nat} {bytes : Bytes} {n : Nat}
    (hf : field + 8 ≤ SIZEOF_CPIO_HEADER)
    (hread : ∀ rest, cpioField (m.header.bytes ++ rest) field = .ok (cpiotoi bytes))
    (hex : HexField bytes n) :
    entryField (m.bytes ++ rest) field = BitVec.ofNat 32 n ∧ n < U32 := by
  have h := hread (m.name ++ 0 :: (m.namePad ++ (m.data ++ m.dataPad)) ++ rest)
  rw [← List.append_assoc] at h
  have hfield := Except.ok.inj (((m.isEntry rest).field hf).symm.trans h)
  rw [hfield]
  exact cpiotoi_eq hex

theorem entryDir_eq (m : CpioMember) (rest : Bytes) : entryDir (m.bytes ++ rest) = m.dir := by
  rw [entryDir, (m.field_eq rest (by decide) m.sized.mode m.modeField).1]
  exact m.modeDir

theorem entrySize_eq (m : CpioMember) (rest : Bytes) :
    entrySize (m.bytes ++ rest) = m.data.length := by
  obtain ⟨h, hlt⟩ := m.field_eq rest (by decide) m.sized.filesize m.filesizeField
  rw [entrySize, h, BitVec.toNat_ofNat]
  exact Nat.mod_eq_of_lt hlt

theorem entryHead_eq (m : CpioMember) (rest : Bytes) : entryHead (m.bytes ++ rest) =
    SIZEOF_CPIO_HEADER + (m.name.length + 1) + m.namePad.length := by
  obtain ⟨h, hlt⟩ := m.field_eq rest (by decide) m.sized.namesize m.namesizeField
  have hhead := m.head_eq
  rw [pad4_eq (Nat.mod_lt _ (by decide))] at hhead
  rw [entryHead, h, BitVec.toNat_ofNat, show 2 ^ 32 = U32 from rfl, Nat.mod_eq_of_lt hlt]
  exact Except.ok.inj hhead

theorem entryNext_eq (m : CpioMember) (rest : Bytes) : entryNext (m.bytes ++ rest) =
    SIZEOF_CPIO_HEADER + (m.name.length + 1) + m.namePad.length +
    (m.data.length + m.dataPad.length) := by
  have hsize := (m.field_eq rest (by decide) m.sized.filesize m.filesizeField).2
  have hdata := m.data_eq
  rw [pad4_eq hsize] at hdata
  rw [entryNext, m.entryHead_eq, m.entrySize_eq, round4, Except.ok.inj hdata]
  exact Nat.mod_eq_of_lt m.size_lt

end CpioMember

/-- **An archive is read inside its image.** -/
theorem archive_in_image {trailer : Bytes} (htrailer : trailer.length = SIZEOF_CPIO_HEADER)
    (rest : Bytes) : ∀ ms : List CpioMember,
      InImage (ms.flatMap CpioMember.bytes ++ (trailer ++ (END_OF_ARCHIVE ++ rest)))
  | [] => by
    apply InImage.trailer
    rw [List.flatMap_nil, List.nil_append, ← htrailer, List.drop_left]
    exact strCompareAt_self _ _
  | m :: ms => by
    rw [List.flatMap_cons, List.append_assoc]
    apply InImage.entry (m.isEntry _)
    · intro hdir
      rw [m.entryDir_eq] at hdir
      rw [m.entrySize_eq, m.dir_empty hdir, List.length_nil]
    · intro _
      rw [m.entrySize_eq, m.entryHead_eq, m.drop_head, List.length_append]
      exact Nat.le_add_right ..
    · rw [m.entryNext_eq, m.drop_entry]
      exact archive_in_image htrailer rest ms

section Loads

variable {σ : Type} {fs : LoadFs σ} {m : CpioMember} {f : FPtr} {s s' : σ}

theorem CpioMember.entryName_eq (m : CpioMember) (rest : Bytes) :
    entryName (m.bytes ++ rest) = m.name := by
  have h := stringAt_eq m.name_ends (m.namePad ++ (m.data ++ m.dataPad) ++ rest)
  unfold stringAt at h
  rw [if_pos (by simp)] at h
  rw [entryName, m.drop_name]
  exact Except.ok.inj h

theorem CpioMember.entryData_eq (m : CpioMember) (rest : Bytes) :
    entryData (m.bytes ++ rest) = m.data := by
  rw [entryData, m.entryHead_eq, m.drop_head, m.entrySize_eq, List.take_left]

/-- The calls for a member that the file system accepts return. -/
theorem MemberLoads.returns (h : MemberLoads fs m f s s') (rest : Bytes) :
    Returns fs (TurnMakes fs (m.bytes ++ rest) s) := by
  obtain ⟨_, s₁, hcreate, hrest⟩ := h
  have hfile : m.dir = false → ∃ s₂ s₃ n r, fs (.open_ m.name) s₁ = .ok (s₂, f) ∧
      fs (.write f 0 m.data m.data.length) s₂ = .ok (s₃, n) ∧ fs (.close f) s₃ = .ok (s', r) := by
    intro hdir
    rw [hdir] at hrest
    exact hrest
  intro c t hmade
  cases hmade with
  | create =>
    rw [m.entryName_eq, m.entryDir_eq]
    exact ⟨_, hcreate⟩
  | open_ hc _ hdir =>
    rw [m.entryDir_eq] at hdir
    rw [m.entryName_eq, m.entryDir_eq] at hc
    obtain ⟨s₂, _, _, _, hopen, _⟩ := hfile hdir
    obtain ⟨rfl, _⟩ := Prod.mk.inj (Except.ok.inj (hc.symm.trans hcreate))
    rw [m.entryName_eq]
    exact ⟨_, hopen⟩
  | write hc _ hdir ho _ =>
    rw [m.entryDir_eq] at hdir
    rw [m.entryName_eq, m.entryDir_eq] at hc
    rw [m.entryName_eq] at ho
    obtain ⟨s₂, s₃, _, _, hopen, hwrite, _⟩ := hfile hdir
    obtain ⟨rfl, rfl⟩ := Prod.mk.inj (Except.ok.inj (hc.symm.trans hcreate))
    obtain ⟨rfl, _⟩ := Prod.mk.inj (Except.ok.inj (ho.symm.trans hopen))
    rw [m.entryData_eq, m.entrySize_eq]
    exact ⟨_, hwrite⟩
  | close hc _ hdir ho _ hw =>
    rw [m.entryDir_eq] at hdir
    rw [m.entryName_eq, m.entryDir_eq] at hc
    rw [m.entryName_eq] at ho
    rw [m.entryData_eq, m.entrySize_eq] at hw
    obtain ⟨s₂, s₃, _, _, hopen, hwrite, hclose⟩ := hfile hdir
    obtain ⟨rfl, rfl⟩ := Prod.mk.inj (Except.ok.inj (hc.symm.trans hcreate))
    obtain ⟨rfl, _⟩ := Prod.mk.inj (Except.ok.inj (ho.symm.trans hopen))
    obtain ⟨rfl, _⟩ := Prod.mk.inj (Except.ok.inj (hw.symm.trans hwrite))
    exact ⟨_, hclose⟩

/-- The turn for it goes on behind it. -/
theorem MemberLoads.turn (h : MemberLoads fs m f s s') (rest : Bytes) {turn : CpioTurn} {t : σ}
    (hturn : initramfsEntry (reading fs) (m.bytes ++ rest) s = .ok (t, turn)) :
    t = s' ∧ turn = .next rest := by
  obtain ⟨hf, s₁, hcreate, hrest⟩ := h
  rw [initramfsEntry_eq (m.isEntry rest), loadEntry, m.entryName_eq, m.entryDir_eq, m.entrySize_eq,
    m.entryHead_eq, m.entryNext_eq, m.drop_head, m.drop_entry, reading_eq rfl, hcreate,
      ok_bind] at hturn
  simp only [if_neg hf] at hturn
  rw [if_neg fun hfull => by simp [m.dir_empty hfull.2] at hfull] at hturn
  cases hdir : m.dir with
  | true =>
    rw [hdir] at hrest hturn
    obtain rfl : s' = s₁ := hrest
    obtain ⟨rfl, rfl⟩ := Prod.mk.inj (Except.ok.inj hturn)
    exact ⟨rfl, rfl⟩
  | false =>
    rw [hdir] at hrest hturn
    obtain ⟨s₂, s₃, n, r, hopen, hwrite, hclose⟩ := hrest
    have hin : (LoadCall.write f 0 m.data m.data.length).inside = true := beq_self_eq_true _
    simp only [initramfsData, reading_eq (c := .open_ m.name) rfl, hopen, ok_bind, ne_eq,
      not_true, if_false,
      List.take_left, reading_eq hin, hwrite, reading_eq (c := .close f) rfl, hclose,
      Bool.false_eq_true, pure_eq_ok, Bool.not_true] at hturn
    obtain ⟨rfl, rfl⟩ := Prod.mk.inj (Except.ok.inj hturn)
    exact ⟨rfl, rfl⟩

/-- **The calls for an archive** that the file system accepts return. -/
theorem Loads.returns {trailer : Bytes} (htrailer : trailer.length = SIZEOF_CPIO_HEADER)
    (rest : Bytes) {ms : List CpioMember} {entries : List FPtr} (h : Loads fs ms entries s s') :
    Returns fs (Makes fs (ms.flatMap CpioMember.bytes ++ (trailer ++ (END_OF_ARCHIVE ++ rest)))
      s) := by
  induction h with
  | nil s =>
    rw [List.flatMap_nil, List.nil_append]
    have hend : strCompareAt ((trailer ++ (END_OF_ARCHIVE ++ rest)).drop SIZEOF_CPIO_HEADER)
        END_OF_ARCHIVE = .ok 0 := by
      rw [← htrailer, List.drop_left]
      exact strCompareAt_self _ _
    intro c t hmade
    cases hmade with
    | turn hentry _ =>
      obtain ⟨c', hcmp, hne⟩ := hentry.name
      exact absurd (Except.ok.inj (hcmp.symm.trans hend)) hne
    | next hturn _ =>
      rw [initramfsEntry, hend] at hturn
      cases hturn
  | cons hm _ ih =>
    rw [List.flatMap_cons, List.append_assoc]
    intro c t hmade
    cases hmade with
    | turn _ hmade => exact hm.returns _ c t hmade
    | next hturn hmade =>
      obtain ⟨rfl, hnext⟩ := hm.turn _ hturn
      obtain rfl := CpioTurn.next.inj hnext
      exact ih c t hmade

end Loads

theorem initramfs_in_image_archive : ∃ fuel r, initramfs (reading (ramfsFs 10 fun _ => 0)) fuel
    ([dirMember, fileMember].flatMap CpioMember.bytes ++
      (List.replicate 110 48 ++ (END_OF_ARCHIVE ++ [0]))) Ramfs.empty = .ok r := by
  obtain ⟨fs, hloads⟩ := ramfs_loads
  exact (initramfs_in_image _ Ramfs.empty (hloads.returns (List.length_replicate ..) [0])).1
    (archive_in_image (List.length_replicate ..) [0] _)

/-! ## Images that are not -/

/-- A directory whose name is said to be `0xFFFFFF92` bytes long: with the header that is `2 ^
32`. -/
def loopImage : Bytes :=
  { smallHeader dirMode 0 0 with namesize := [102, 102, 102, 102, 102, 102, 57, 50] }.bytes ++
    [100, 0]

theorem loopImage_turn : ∃ fs, initramfsEntry (ramfsFs 10 fun _ => 0) loopImage Ramfs.empty =
      .ok (fs, .next loopImage) ∧
    initramfsEntry (ramfsFs 10 fun _ => 0) loopImage fs = .ok (fs, .next loopImage) :=
  ⟨_, rfl, rfl⟩

/-- The magic number alone is read past its end; the other image is read for ever. -/
theorem image_overrun :
    (∀ fuel, initramfs (ramfsFs 10 fun _ => 0) (fuel + 1) [48, 55, 48, 55, 48, 49] Ramfs.empty =
      .error .fault) ∧
    ∀ fuel, initramfs (ramfsFs 10 fun _ => 0) fuel loopImage Ramfs.empty = .error .hang := by
  refine ⟨fun _ => rfl, ?_⟩
  obtain ⟨fs, hfirst, hagain⟩ := loopImage_turn
  have hloop : ∀ fuel, initramfs (ramfsFs 10 fun _ => 0) fuel loopImage fs = .error .hang := by
    intro fuel
    induction fuel with
    | zero => rfl
    | succ fuel ih =>
      rw [initramfs, hagain]
      exact ih
  intro fuel
  cases fuel with
  | zero => rfl
  | succ fuel =>
    rw [initramfs, hfirst]
    exact hloop fuel

end AuOs
