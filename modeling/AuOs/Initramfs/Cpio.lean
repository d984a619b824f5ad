import Mathlib
import AuOs.Ramfs.Data

/-!
# The initial file system

Reference model of `initramfs.c`.  A pointer into the image is the list of the bytes from there to
`initrd_end`; to read past it is a `fault`.

* `pad4`, `cpiotoi`, `cpioField` — sizes, numbers and fields of the header.
* `LoadCall`, `LoadFs`, `ramfsFs` — the calls into the file system, and what answers them.
* `initramfsEntry`, `initramfs` — one turn of the loop of `initramfs`, and the loop.
-/

set_option autoImplicit false

namespace AuOs

def U32 : Nat := 2 ^ 32

/-- `pad4`: `while (size % 4) size++`. -/
def pad4 : Nat → Nat → Res Nat
  | 0, _ => .error .hang
  | fuel + 1, size => if size % 4 = 0 then .ok size else pad4 fuel ((size + 1) % U32)

/-- The loop of `cpiotoi`, over the bytes from the last one on. -/
def cpioLoop : Bytes → BitVec 32 → BitVec 32 → BitVec 32
  | [], res, _ => res
  | c :: buf, res, mul =>
    cpioLoop buf (res + mul * BitVec.ofInt 32 (charToDigit c).toInt) (mul * 16)

/-- `cpiotoi`. -/
def cpiotoi (buf : Bytes) : BitVec 32 := cpioLoop buf.reverse 0 1

/-! ## `struct cpio_header` -/

def SIZEOF_CPIO_HEADER : Nat := 110

def CPIO_MODE : Nat := 14

def CPIO_FILESIZE : Nat := 54

def CPIO_NAMESIZE : Nat := 94

/-- `cpiotoi(cpio_ptr->field, 8)`, by the offset of the field. -/
def cpioField (ptr : Bytes) (field : Nat) : Res (BitVec 32) :=
  if field + 8 ≤ ptr.length then .ok (cpiotoi ((ptr.drop field).take 8)) else .error .fault

def S_IFMT : BitVec 32 := 0xF000

def S_IFDIR : BitVec 32 := 0x4000

/-- `S_ISDIR`. -/
def sIsDir (mode : BitVec 32) : Bool := mode &&& S_IFMT == S_IFDIR

/-- `TRAILER!!!`. -/
def END_OF_ARCHIVE : Bytes := [84, 82, 65, 73, 76, 69, 82, 33, 33, 33]

/-- The string at a pointer. -/
def stringAt (ptr : Bytes) : Res CStr :=
  if 0 ∈ ptr then .ok (ptr.takeWhile (· ≠ 0)) else .error .fault

/-! ## Calls into the file system -/

/-- A call and its arguments.  Of the `count` bytes at `contents` a write is given those that are
inside the image. -/
inductive LoadCall where
  | create (filename : CStr) (dir : Bool)
  | open_ (filename : CStr)
  | write (f : FPtr) (seek : Nat) (contents : Bytes) (count : Nat)
  | close (f : FPtr)
  deriving DecidableEq, Repr

/-- What answers the calls: the next state, and the pointer or the number that is returned. -/
abbrev LoadFs (σ : Type) := LoadCall → σ → Res (σ × Nat)

/-- `ramfs.c`. -/
def ramfsFs (fuel : Nat) (prior : Nat → Int8) : LoadFs Ramfs
  | .create filename dir, fs => fs.ramfsCreateFile fuel filename dir
  | .open_ filename, fs => fs.ramfsOpen fuel filename
  | .write f seek contents count, fs => fs.ramfsWrite prior f seek contents count
  | .close f, fs => do
    let fs ← fs.mutexUnlock f
    return (fs, 0)

/-! ## `initramfs` -/

/-- How the loop ends, or where it goes on. -/
inductive CpioTurn where
  | next (ptr : Bytes)
  | loaded
  | createFailed
  | dirNotEmpty
  | openFailed
  deriving DecidableEq, Repr

section Initramfs

variable {σ : Type}

/-- `if (!is_dir) ...`: the data of a file. -/
def initramfsData (fs : LoadFs σ) (filename : CStr) (f : FPtr) (contents : Bytes)
    (filesize : Nat) (s : σ) : Res (σ × Bool) := do
  let (s, ff) ← fs (.open_ filename) s
  if ff ≠ f then return (s, false)
  else do
    let (s, _) ← fs (.write ff 0 (contents.take filesize) filesize) s
    let (s, _) ← fs (.close ff) s
    return (s, true)

/-- One turn of the loop of `initramfs`. -/
def initramfsEntry (fs : LoadFs σ) (ptr : Bytes) (s : σ) : Res (σ × CpioTurn) := do
  let filename := ptr.drop SIZEOF_CPIO_HEADER
  let cmp ← strCompareAt filename END_OF_ARCHIVE
  if cmp = 0 then return (s, .loaded)
  else do
    let filenameSize ← cpioField ptr CPIO_NAMESIZE
    let mode ← cpioField ptr CPIO_MODE
    let dir := sIsDir mode
    let head ← pad4 4 ((SIZEOF_CPIO_HEADER + filenameSize.toNat) % U32)
    let contents := ptr.drop head
    let name ← stringAt filename
    let (s, f) ← fs (.create name dir) s
    if f = 0 then return (s, .createFailed)
    else do
      let filesize ← cpioField ptr CPIO_FILESIZE
      if filesize.toNat > 0 ∧ dir = true then return (s, .dirNotEmpty)
      else do
        let (s, loaded) ← (if dir then .ok (s, true)
          else initramfsData fs name f contents filesize.toNat s)
        if !loaded then return (s, .openFailed)
        else do
          let data ← pad4 4 filesize.toNat
          return (s, .next (ptr.drop ((head + data) % U32)))

/-- `initramfs`: the last turn. -/
def initramfs (fs : LoadFs σ) : Nat → Bytes → σ → Res (σ × CpioTurn)
  | 0, _, _ => .error .hang
  | fuel + 1, ptr, s => do
    let (s, turn) ← initramfsEntry fs ptr s
    match turn with
    | .next ptr => initramfs fs fuel ptr s
    | turn => return (s, turn)

/-- The calls are written down. -/
def logged (fs : LoadFs σ) : LoadFs (σ × List LoadCall) := fun c s => do
  let (s', r) ← fs c s.1
  return ((s', s.2 ++ [c]), r)

end Initramfs

/-! ## Sizes -/

theorem pad4_round : ∀ {fuel size : Nat}, size < U32 → (4 - size % 4) % 4 < fuel →
    pad4 fuel size = .ok ((size + 3) / 4 * 4 % U32)
  | 0, _, _, h => absurd h (Nat.not_lt_zero _)
  | fuel + 1, size, hlt, hfuel => by
    unfold U32 at hlt
    rw [pad4]
    split
    · congr 1
      unfold U32
      omega
    · rw [pad4_round (Nat.mod_lt _ (by decide)) (by unfold U32; omega)]
      congr 1
      unfold U32
      omega

/-- **Rounding up**, modulo `2 ^ 32`. -/
theorem pad4_eq {size : Nat} (h : size < U32) : pad4 4 size = .ok ((size + 3) / 4 * 4 % U32) :=
  pad4_round h (Nat.mod_lt _ (by decide))

end AuOs
