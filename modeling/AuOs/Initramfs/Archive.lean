import Mathlib
import AuOs.Initramfs.Cpio

/-!
# Archives in newc format

* `HexDigit`, `HexField` — a number as eight hexadecimal digits, in either letter case.
* `cpiotoi_eq` — such a field is decoded to its number.
* `CpioMember` — a member of an archive with everything that makes it well formed;
  `CpioMember.bytes` is its entry.
* `Loads` — the file system accepts the members, one after the other.
* `cpio_decodes` — `initramfs` makes exactly the calls for the members, in order.
-/

set_option autoImplicit false

namespace AuOs

/-! ## Numbers -/

/-- The character of a digit. -/
def HexDigit (c : Int8) (d : Nat) : Prop :=
  (d < 10 ∧ c = Int8.ofNat (48 + d)) ∨
    (10 ≤ d ∧ d < 16 ∧ (c = Int8.ofNat (55 + d) ∨ c = Int8.ofNat (87 + d)))

/-- Eight digits, the most significant first. -/
def HexField (field : Bytes) (n : Nat) : Prop :=
  ∃ ds : List Nat, ds.length = 8 ∧ List.Forall₂ HexDigit field ds ∧ n = Nat.ofDigits 16 ds.reverse

theorem charToDigit_eq {c : Int8} {d : Nat} (h : HexDigit c d) : (charToDigit c).toInt = d := by
  rcases h with ⟨hd, rfl⟩ | ⟨h10, hd, rfl | rfl⟩
  · interval_cases d <;> decide
  · interval_cases d <;> decide
  · interval_cases d <;> decide

theorem HexDigit.lt {c : Int8} {d : Nat} (h : HexDigit c d) : d < 16 := by
  rcases h with ⟨hd, _⟩ | ⟨_, hd, _⟩
  · omega
  · exact hd

theorem digits_lt : ∀ {buf : Bytes} {ds : List Nat}, List.Forall₂ HexDigit buf ds → ∀ d ∈ ds, d < 16
  | _, _, .nil, _, hd => absurd hd List.not_mem_nil
  | _, _, .cons hc h, d, hd => by
    rcases List.mem_cons.mp hd with rfl | hd
    · exact hc.lt
    · exact digits_lt h d hd

theorem cpioLoop_eq : ∀ {buf : Bytes} {ds : List Nat} (res mul : BitVec 32),
    List.Forall₂ HexDigit buf ds →
    cpioLoop buf res mul = res + mul * BitVec.ofNat 32 (Nat.ofDigits 16 ds)
  | [], [], res, mul, _ => by
    simp [cpioLoop]
  | c :: buf, d :: ds, res, mul, .cons hc h => by
    have hdigit : BitVec.ofInt 32 (charToDigit c).toInt = BitVec.ofNat 32 d := by
      rw [charToDigit_eq hc]
      rfl
    have hsum : BitVec.ofNat 32 (Nat.ofDigits 16 (d :: ds)) =
        BitVec.ofNat 32 d + 16 * BitVec.ofNat 32 (Nat.ofDigits 16 ds) := by
      rw [Nat.ofDigits_cons, BitVec.ofNat_add, BitVec.ofNat_mul]
      rfl
    rw [cpioLoop, cpioLoop_eq _ _ h, hdigit, hsum]
    ring

/-- **A field is decoded** to its number. -/
theorem cpiotoi_eq {field : Bytes} {n : Nat} (h : HexField field n) :
    cpiotoi field = BitVec.ofNat 32 n ∧ n < U32 := by
  obtain ⟨ds, hlen, hds, rfl⟩ := h
  have hlt : ∀ d ∈ ds.reverse, d < 16 := by
    intro d hd
    exact digits_lt hds d (List.mem_reverse.mp hd)
  constructor
  · unfold cpiotoi
    rw [cpioLoop_eq 0 1 (List.forall₂_reverse_iff.mpr hds)]
    simp
  · have := Nat.ofDigits_lt_base_pow_length (by decide) hlt
    rw [List.length_reverse, hlen] at this
    exact this

/-! ## Entries -/

/-- `struct cpio_header`. -/
structure CpioHeader where
  magic : Bytes
  inode : Bytes
  mode : Bytes
  uid : Bytes
  gid : Bytes
  nlink : Bytes
  mtime : Bytes
  filesize : Bytes
  major : Bytes
  minor : Bytes
  rmajor : Bytes
  rminor : Bytes
  namesize : Bytes
  check : Bytes

namespace CpioHeader

/-- The fields behind the magic number. -/
def fields (h : CpioHeader) : List Bytes :=
  [h.inode, h.mode, h.uid, h.gid, h.nlink, h.mtime, h.filesize, h.major, h.minor,
    h.rmajor, h.rminor, h.namesize, h.check]

def bytes (h : CpioHeader) : Bytes := h.magic ++ h.fields.flatten

/-- The fields have the lengths of the `struct`. -/
structure Sized (h : CpioHeader) : Prop where
  magic : h.magic.length = 6
  fields : ∀ field ∈ h.fields, field.length = 8

variable {h : CpioHeader}

theorem Sized.length (hs : h.Sized) : h.bytes.length = SIZEOF_CPIO_HEADER := by
  have hf := hs.fields
  simp only [CpioHeader.fields, List.forall_mem_cons] at hf
  simp [bytes, CpioHeader.fields, hs.magic, hf, SIZEOF_CPIO_HEADER]

/-- A field is read where the bytes before it end. -/
theorem cpioField_of_split {ptr P R field : Bytes} {offs : Nat} (hptr : ptr = P ++ (field ++ R))
    (hP : P.length = offs) (hfield : field.length = 8) :
    cpioField ptr offs = .ok (cpiotoi field) := by
  subst hptr hP
  have hlen : P.length + 8 ≤ (P ++ (field ++ R)).length := by
    rw [List.length_append, List.length_append]
    omega
  rw [cpioField, if_pos hlen, List.drop_left, ← hfield, List.take_left]

theorem Sized.mode (hs : h.Sized) (rest : Bytes) :
    cpioField (h.bytes ++ rest) CPIO_MODE = .ok (cpiotoi h.mode) := by
  have hf := hs.fields
  simp only [CpioHeader.fields, List.forall_mem_cons] at hf
  apply cpioField_of_split (P := h.magic ++ h.inode)
    (R := h.uid ++ (h.gid ++ (h.nlink ++ (h.mtime ++
      (h.filesize ++ (h.major ++ (h.minor ++ (h.rmajor ++
      (h.rminor ++ (h.namesize ++ (h.check ++ rest)))))))))))
  · simp [bytes, CpioHeader.fields]
  · simp [hs.magic, hf, CPIO_MODE]
  · exact hf.2.1

theorem Sized.filesize (hs : h.Sized) (rest : Bytes) :
    cpioField (h.bytes ++ rest) CPIO_FILESIZE = .ok (cpiotoi h.filesize) := by
  have hf := hs.fields
  simp only [CpioHeader.fields, List.forall_mem_cons] at hf
  apply cpioField_of_split
    (P := h.magic ++ (h.inode ++ (h.mode ++ (h.uid ++ (h.gid ++ (h.nlink ++ h.mtime))))))
    (R := h.major ++ (h.minor ++ (h.rmajor ++ (h.rminor ++ (h.namesize ++ (h.check ++ rest))))))
  · simp [bytes, CpioHeader.fields]
  · simp [hs.magic, hf, CPIO_FILESIZE]
  · exact hf.2.2.2.2.2.2.1

theorem Sized.namesize (hs : h.Sized) (rest : Bytes) :
    cpioField (h.bytes ++ rest) CPIO_NAMESIZE = .ok (cpiotoi h.namesize) := by
  have hf := hs.fields
  simp only [CpioHeader.fields, List.forall_mem_cons] at hf
  apply cpioField_of_split
    (P := h.magic ++ (h.inode ++ (h.mode ++ (h.uid ++
      (h.gid ++ (h.nlink ++ (h.mtime ++ (h.filesize ++
      (h.major ++ (h.minor ++ (h.rmajor ++ h.rminor)))))))))))
    (R := h.check ++ rest)
  · simp [bytes, CpioHeader.fields]
  · simp [hs.magic, hf, CPIO_NAMESIZE]
  · exact hf.2.2.2.2.2.2.2.2.2.2.2.1

end CpioHeader

/-- How many bytes come after so many, up to the next multiple of 4. -/
def padSize (size : Nat) : Nat := (4 - size % 4) % 4

/-- A member of an archive: what it is, and how it is written. -/
structure CpioMember where
  name : CStr
  dir : Bool
  data : Bytes
  header : CpioHeader
  mode : Nat
  namePad : Bytes
  dataPad : Bytes
  sized : header.Sized
  modeField : HexField header.mode mode
  modeDir : sIsDir (BitVec.ofNat 32 mode) = dir
  namesizeField : HexField header.namesize (name.length + 1)
  filesizeField : HexField header.filesize data.length
  name_ends : 0 ∉ name
  not_trailer : ¬ END_OF_ARCHIVE <+: name
  dir_empty : dir = true → data = []
  namePad_length : namePad.length = padSize (SIZEOF_CPIO_HEADER + (name.length + 1))
  dataPad_length : dataPad.length = padSize data.length
  size_lt : SIZEOF_CPIO_HEADER + (name.length + 1) + namePad.length +
    (data.length + dataPad.length) < U32

/-- The entry of a member. -/
def CpioMember.bytes (m : CpioMember) : Bytes :=
  m.header.bytes ++ (m.name ++ 0 :: (m.namePad ++ (m.data ++ m.dataPad)))

/-! ## Names -/

/-- A name that does not begin with a string without zeros differs from it somewhere. -/
theorem strCompareAt_ne : ∀ {a b rest : Bytes}, 0 ∉ b → ¬ b <+: a →
    ∃ c, strCompareAt (a ++ 0 :: rest) b = .ok c ∧ c ≠ 0
  | _, [], _, _, h => absurd List.nil_prefix h
  | [], b :: bs, rest, h0, _ => by
    have hb : b ≠ 0 := fun hb => h0 (hb ▸ List.mem_cons_self)
    rw [List.nil_append, strCompareAt]
    split
    · exact ⟨_, rfl, by decide⟩
    · split
      · exact ⟨_, rfl, by decide⟩
      · exact absurd (Int8.le_antisymm (Int8.not_lt.mp ‹_›) (Int8.not_lt.mp ‹_›)) hb
  | a :: as, b :: bs, rest, h0, h => by
    rw [List.cons_append, strCompareAt]
    split
    · exact ⟨_, rfl, by decide⟩
    · split
      · exact ⟨_, rfl, by decide⟩
      · have hab : a = b := Int8.le_antisymm (Int8.not_lt.mp ‹_›) (Int8.not_lt.mp ‹_›)
        subst hab
        exact strCompareAt_ne (fun hm => h0 (List.mem_cons_of_mem _ hm)) fun hp =>
          h (List.cons_prefix_cons.mpr ⟨rfl, hp⟩)

theorem strCompareAt_self : ∀ (b rest : Bytes), strCompareAt (b ++ rest) b = .ok 0
  | [], rest => by
    cases rest <;> rfl
  | b :: bs, rest => by
    rw [List.cons_append, strCompareAt, if_neg Int8.lt_irrefl, if_neg Int8.lt_irrefl]
    exact strCompareAt_self bs rest

theorem stringAt_eq {name : CStr} (h : 0 ∉ name) (rest : Bytes) :
    stringAt (name ++ 0 :: rest) = .ok name := by
  have htake : (name ++ 0 :: rest).takeWhile (· ≠ 0) = name := by
    rw [List.takeWhile_append_of_pos]
    · simp
    · intro c hc
      exact decide_eq_true fun hc0 => h (hc0 ▸ hc)
  rw [stringAt, if_pos (by simp), htake]

/-! ## What the calls are for a member -/

/-- The calls that load a member, whose entry the file system keeps at `f`. -/
def memberCalls (m : CpioMember) (f : FPtr) : List LoadCall :=
  if m.dir then [.create m.name true]
  else [.create m.name false, .open_ m.name, .write f 0 m.data m.data.length, .close f]

section Loads

variable {σ : Type}

/-- The file system creates the member and opens the entry it created. -/
structure MemberLoads (fs : LoadFs σ) (m : CpioMember) (f : FPtr) (s s' : σ) : Prop where
  ne_zero : f ≠ 0
  calls : ∃ s₁, fs (.create m.name m.dir) s = .ok (s₁, f) ∧
    if m.dir then s' = s₁
    else ∃ s₂ s₃ n r, fs (.open_ m.name) s₁ = .ok (s₂, f) ∧
      fs (.write f 0 m.data m.data.length) s₂ = .ok (s₃, n) ∧ fs (.close f) s₃ = .ok (s', r)

/-- The file system accepts the members, one after the other. -/
inductive Loads (fs : LoadFs σ) : List CpioMember → List FPtr → σ → σ → Prop
  | nil (s : σ) : Loads fs [] [] s s
  | cons {m : CpioMember} {f : FPtr} {ms : List CpioMember} {entries : List FPtr} {s s₁ s' : σ} :
    MemberLoads fs m f s s₁ → Loads fs ms entries s₁ s' → Loads fs (m :: ms) (f :: entries) s s'

variable {fs : LoadFs σ} {m : CpioMember} {f : FPtr} {s s' : σ}

theorem logged_ok {c : LoadCall} {r : Nat} (h : fs c s = .ok (s', r)) (log : List LoadCall) :
    logged fs c (s, log) = .ok ((s', log ++ [c]), r) := by
  simp only [logged, h, ok_bind]
  rfl

namespace CpioMember

/-- Where the data and the next entry begin. -/
theorem head_eq (m : CpioMember) : pad4 4 ((SIZEOF_CPIO_HEADER + (m.name.length + 1)) % U32) =
    .ok (SIZEOF_CPIO_HEADER + (m.name.length + 1) + m.namePad.length) := by
  have hlt := m.size_lt
  have hpad := m.namePad_length
  generalize m.name.length = n at *
  rw [Nat.mod_eq_of_lt (by omega), pad4_eq (by omega)]
  congr 1
  unfold padSize U32 SIZEOF_CPIO_HEADER at *
  omega

theorem data_eq (m : CpioMember) :
    pad4 4 m.data.length = .ok (m.data.length + m.dataPad.length) := by
  have hlt := m.size_lt
  have hpad := m.dataPad_length
  generalize m.data.length = n at *
  rw [pad4_eq (by omega)]
  congr 1
  unfold padSize U32 at *
  omega

theorem length_head (m : CpioMember) : (m.header.bytes ++ (m.name ++ 0 :: m.namePad)).length =
    SIZEOF_CPIO_HEADER + (m.name.length + 1) + m.namePad.length := by
  rw [List.length_append, m.sized.length, List.length_append, List.length_cons]
  omega

/-- The entry in front of the data, and in front of the next entry. -/
theorem bytes_split (m : CpioMember) (rest : Bytes) : m.bytes ++ rest =
    m.header.bytes ++ (m.name ++ 0 :: m.namePad) ++ (m.data ++ (m.dataPad ++ rest)) := by
  simp [bytes]

theorem drop_head (m : CpioMember) (rest : Bytes) :
    (m.bytes ++ rest).drop (SIZEOF_CPIO_HEADER + (m.name.length + 1) + m.namePad.length) =
      m.data ++ (m.dataPad ++ rest) := by
  rw [bytes_split, ← length_head, List.drop_left]

theorem drop_entry (m : CpioMember) (rest : Bytes) :
    (m.bytes ++ rest).drop (SIZEOF_CPIO_HEADER + (m.name.length + 1) + m.namePad.length +
      (m.data.length + m.dataPad.length)) = rest := by
  rw [← List.drop_drop, drop_head, ← List.append_assoc, ← List.length_append, List.drop_left]

/-- The file name is behind the header. -/
theorem drop_name (m : CpioMember) (rest : Bytes) : (m.bytes ++ rest).drop SIZEOF_CPIO_HEADER =
    m.name ++ 0 :: (m.namePad ++ (m.data ++ m.dataPad) ++ rest) := by
  rw [bytes, List.append_assoc, ← m.sized.length, List.drop_left]
  simp

end CpioMember

/-- The data of a file is passed on. -/
theorem initramfsData_spec {s₁ s₂ s₃ : σ} {n r : Nat} {rest : Bytes} {log : List LoadCall}
    (hopen : fs (.open_ m.name) s₁ = .ok (s₂, f))
    (hwrite : fs (.write f 0 m.data m.data.length) s₂ = .ok (s₃, n))
    (hclose : fs (.close f) s₃ = .ok (s', r)) :
    initramfsData (logged fs) m.name f (m.data ++ rest) m.data.length (s₁, log) =
      .ok ((s', log ++ [.open_ m.name, .write f 0 m.data m.data.length, .close f]), true) := by
  unfold initramfsData
  simp only [logged_ok hopen, ok_bind, ne_eq, not_true, if_false, List.take_left, logged_ok hwrite,
    logged_ok hclose]
  simp

/-- **One turn decodes one member.** -/
theorem initramfsEntry_spec (h : MemberLoads fs m f s s') (rest : Bytes) (log : List LoadCall) :
    initramfsEntry (logged fs) (m.bytes ++ rest) (s, log) =
      .ok ((s', log ++ memberCalls m f), .next rest) := by
  obtain ⟨hf, s₁, hcreate, hrest⟩ := h
  obtain ⟨c, hcmp, hc⟩ := @strCompareAt_ne _ _ (m.namePad ++ (m.data ++ m.dataPad) ++ rest)
    (show (0 : Int8) ∉ END_OF_ARCHIVE by decide) m.not_trailer
  obtain ⟨hns, hnlt⟩ := cpiotoi_eq m.namesizeField
  obtain ⟨hmd, _⟩ := cpiotoi_eq m.modeField
  obtain ⟨hfsz, hflt⟩ := cpiotoi_eq m.filesizeField
  have hnat : ∀ n, n < U32 → (BitVec.ofNat 32 n).toNat = n := fun n hn => by
    rw [BitVec.toNat_ofNat]
    exact Nat.mod_eq_of_lt hn
  have hhead := m.head_eq
  have hfields : ∀ offs, cpioField (m.bytes ++ rest) offs =
      cpioField (m.header.bytes ++ (m.name ++ 0 :: (m.namePad ++ (m.data ++ m.dataPad)) ++ rest))
          offs := by
    intro offs
    rw [CpioMember.bytes, List.append_assoc]
  unfold initramfsEntry
  simp only [m.drop_name, hcmp, ok_bind, if_neg hc, hfields, m.sized.namesize, m.sized.mode,
    m.sized.filesize, hns, hmd, hfsz, hnat _ hnlt, hnat _ hflt, hhead, m.modeDir,
    stringAt_eq m.name_ends, logged_ok hcreate, if_neg hf, m.drop_head, m.data_eq]
  have hempty : ¬ (m.data.length > 0 ∧ m.dir = true) := by
    rintro ⟨hlen, hdir⟩
    rw [m.dir_empty hdir] at hlen
    exact absurd hlen (Nat.lt_irrefl 0)
  rw [if_neg hempty, Nat.mod_eq_of_lt m.size_lt, m.drop_entry]
  cases hdir : m.dir with
  | true =>
    rw [hdir, if_pos rfl] at hrest
    subst hrest
    simp [memberCalls, hdir]
  | false =>
    rw [hdir, if_neg Bool.false_ne_true] at hrest
    obtain ⟨s₂, s₃, n, r, hopen, hwrite, hclose⟩ := hrest
    rw [if_neg Bool.false_ne_true, initramfsData_spec hopen hwrite hclose]
    simp [memberCalls, hdir]

/-- **The walk over an archive** ends at its trailer. -/
theorem initramfs_spec {trailer : Bytes} (htrailer : trailer.length = SIZEOF_CPIO_HEADER)
    (rest : Bytes) :
    ∀ {ms : List CpioMember} {entries : List FPtr} {s s' : σ} {fuel : Nat} {log : List LoadCall},
    Loads fs ms entries s s' → ms.length < fuel →
    initramfs (logged fs) fuel (ms.flatMap CpioMember.bytes ++
      (trailer ++ (END_OF_ARCHIVE ++ rest)))
      (s, log) = .ok ((s', log ++ (List.zipWith memberCalls ms entries).flatten), .loaded)
  | _, _, _, _, 0, _, _, hfuel => absurd hfuel (Nat.not_lt_zero _)
  | _, _, _, _, fuel + 1, log, .nil s, _ => by
    have hcmp : strCompareAt ((trailer ++ (END_OF_ARCHIVE ++ rest)).drop SIZEOF_CPIO_HEADER)
        END_OF_ARCHIVE = .ok 0 := by
      rw [← htrailer, List.drop_left]
      exact strCompareAt_self _ _
    rw [List.flatMap_nil, List.nil_append, initramfs, initramfsEntry, hcmp]
    simp
  | _, _, _, _, fuel + 1, log, @Loads.cons _ _ m f ms _ _ _ _ hm h, hfuel => by
    rw [List.flatMap_cons, List.append_assoc, initramfs, initramfsEntry_spec hm, ok_bind]
    simp only
    rw [initramfs_spec htrailer rest h (Nat.lt_of_succ_lt_succ hfuel), List.zipWith_cons_cons,
      List.flatten_cons, List.append_assoc]

theorem Loads.length {ms : List CpioMember} {entries : List FPtr} (h : Loads fs ms entries s s') :
    entries.length = ms.length := by
  induction h with
  | nil => rfl
  | cons _ _ ih => rw [List.length_cons, List.length_cons, ih]

/-- **Decoding an archive.** -/
theorem cpio_decodes {ms : List CpioMember} {entries : List FPtr} {trailer : Bytes}
    (h : Loads fs ms entries s s') (htrailer : trailer.length = SIZEOF_CPIO_HEADER) (rest : Bytes) :
    entries.length = ms.length ∧ ∀ fuel, ms.length < fuel →
      initramfs (logged fs) fuel
        (ms.flatMap CpioMember.bytes ++ (trailer ++ (END_OF_ARCHIVE ++ rest))) (s, []) =
        .ok ((s', (List.zipWith memberCalls ms entries).flatten), .loaded) := by
  refine ⟨h.length, ?_⟩
  intro fuel hfuel
  exact initramfs_spec htrailer rest h hfuel

end Loads

/-- A number below 10, as a field. -/
def smallField (d : Nat) : Bytes := [48, 48, 48, 48, 48, 48, 48, Int8.ofNat (48 + d)]

theorem smallField_hex {d : Nat} (hd : d < 10) : HexField (smallField d) d := by
  have h0 : HexDigit 48 0 := Or.inl ⟨by decide, rfl⟩
  refine ⟨[0, 0, 0, 0, 0, 0, 0, d], rfl, ?_, by simp [Nat.ofDigits_cons]⟩
  exact .cons h0 (.cons h0 (.cons h0 (.cons h0 (.cons h0 (.cons h0 (.cons h0
    (.cons (Or.inl ⟨hd, rfl⟩) .nil)))))))

/-- A header with small numbers; the mode is given. -/
def smallHeader (mode : Bytes) (filesize namesize : Nat) : CpioHeader where
  magic := [48, 55, 48, 55, 48, 49]
  inode := smallField 0
  mode := mode
  uid := smallField 0
  gid := smallField 0
  nlink := smallField 1
  mtime := smallField 0
  filesize := smallField filesize
  major := smallField 0
  minor := smallField 0
  rmajor := smallField 0
  rminor := smallField 0
  namesize := smallField namesize
  check := smallField 0

theorem smallHeader_sized {mode : Bytes} (hmode : mode.length = 8) (filesize namesize : Nat) :
    (smallHeader mode filesize namesize).Sized := by
  refine ⟨rfl, ?_⟩
  simp [CpioHeader.fields, smallHeader, smallField, hmode]

/-- The digits of `41ED`, the mode of a directory. -/
def dirMode : Bytes := [48, 48, 48, 48, 52, 49, 69, 68]

/-- The directory `d`. -/
def dirMember : CpioMember where
  name := [100]
  dir := true
  data := []
  header := smallHeader dirMode 0 2
  mode := 0x41ED
  namePad := []
  dataPad := []
  sized := smallHeader_sized rfl 0 2
  modeField := by
    have h0 : HexDigit 48 0 := Or.inl ⟨by decide, rfl⟩
    refine ⟨[0, 0, 0, 0, 4, 1, 14, 13], rfl, ?_, by decide⟩
    exact .cons h0 (.cons h0 (.cons h0 (.cons h0 (.cons (Or.inl ⟨by decide, rfl⟩)
      (.cons (Or.inl ⟨by decide, rfl⟩) (.cons (Or.inr ⟨by decide, by decide, Or.inl rfl⟩)
        (.cons (Or.inr ⟨by decide, by decide, Or.inl rfl⟩) .nil)))))))
  modeDir := by decide
  namesizeField := smallField_hex (by decide)
  filesizeField := smallField_hex (by decide)
  name_ends := by decide
  not_trailer := by decide
  dir_empty := fun _ => rfl
  namePad_length := rfl
  dataPad_length := rfl
  size_lt := by decide

/-- The file `d/a` with one byte. -/
def fileMember : CpioMember where
  name := [100, 47, 97]
  dir := false
  data := [65]
  header := smallHeader (smallField 0) 1 4
  mode := 0
  namePad := [0, 0]
  dataPad := [0, 0, 0]
  sized := smallHeader_sized rfl 1 4
  modeField := smallField_hex (by decide)
  modeDir := by decide
  namesizeField := smallField_hex (by decide)
  filesizeField := smallField_hex (by decide)
  name_ends := by decide
  not_trailer := by decide
  dir_empty := nofun
  namePad_length := rfl
  dataPad_length := rfl
  size_lt := by decide

/-- `ramfs.c` accepts both. -/
theorem ramfs_loads : ∃ fs, Loads (ramfsFs 10 fun _ => 0) [dirMember, fileMember]
    [1, 2] Ramfs.empty fs := by
  obtain ⟨fs₁, fs₂, hdir, hfile⟩ : ∃ fs₁ fs₂,
      MemberLoads (ramfsFs 10 fun _ => 0) dirMember 1 Ramfs.empty fs₁ ∧
      MemberLoads (ramfsFs 10 fun _ => 0) fileMember 2 fs₁ fs₂ :=
    ⟨_, _, ⟨by decide, _, rfl, rfl⟩, ⟨by decide, _, rfl, _, _, _, _, rfl, rfl, rfl⟩⟩
  exact ⟨fs₂, .cons hdir (.cons hfile (.nil fs₂))⟩

theorem cpio_decodes_ramfs : ∃ fs, initramfs (logged (ramfsFs 10 fun _ => 0)) 3
    ([dirMember, fileMember].flatMap CpioMember.bytes ++
      (List.replicate 110 48 ++ (END_OF_ARCHIVE ++ [0])))
    (Ramfs.empty, []) = .ok ((fs, [.create [100] true, .create [100, 47, 97] false,
      .open_ [100, 47, 97], .write 2 0 [65] 1, .close 2]), .loaded) := by
  obtain ⟨fs₂, hloads⟩ := ramfs_loads
  exact ⟨fs₂, (cpio_decodes hloads (List.length_replicate ..) [0]).2 3 (by decide)⟩

end AuOs
