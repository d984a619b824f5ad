import Mathlib
import AuOs.Ramfs.Names

/-!
# Paths that cannot be created

* `PathOp` — the three operations that create a path if it is not there.
* `Uncreatable` — the path names no entry, and none can be made for it.
* `getDirectoryName_slash`, `getDirectoryName_none` — the directory part of a path.
* `refused_iff` — the failure is reported only by `ramfs_create_file`, and only of a path that is
  too long or that has a directory part.
* `refused_faults` — the other calls stop at a null pointer or outside of the string.
-/

set_option autoImplicit false

namespace AuOs

/-- The operations that create a path. -/
inductive PathOp where
  | createFile (dir : Bool)
  | mkdir
  | open
  deriving DecidableEq, Repr

def PathOp.exec (fuel : Nat) (fs : Ramfs) (filename : CStr) : PathOp → Res (Ramfs × FPtr)
  | createFile dir => fs.ramfsCreateFile fuel filename dir
  | mkdir => fs.ramfsMkdir fuel filename
  | «open» => fs.ramfsOpen fuel filename

/-- The path is not there and cannot be created: it is empty, it has no `/` and there is a root, it
is too long, or there is no entry below which it could stand. -/
structure Uncreatable (fs : Ramfs) (path : CStr) : Prop where
  new : path ≠ [] → ∀ i e, fs.entries i = some e → e.filename ≠ withoutSlash path
  reason : path = [] ∨ (fs.root ≠ 0 ∧ slash ∉ path) ∨ RAMFS_MAX_FILENAME_SIZE < path.length ∨
    ∀ d, ¬ IsParent fs path d

/-- The failure is reported: null is returned, and the entries and their mutexes are as before. -/
def Reported (fuel : Nat) (fs : Ramfs) (path : CStr) (op : PathOp) : Prop :=
  op.exec fuel fs path = .ok (fs, 0)

/-! ## The directory part -/

theorem slashLoop_notMem {fn : CStr} (h : slash ∉ fn) (i index : Nat) :
    slashLoop fn i index = index := by
  induction fn generalizing i with
  | nil => rfl
  | cons c fn ih =>
    rw [List.mem_cons, not_or] at h
    rw [slashLoop, if_neg (Ne.symm h.1), ih h.2]

/-- The loop ends at a slash if there is one. -/
theorem slashLoop_mem {fn : CStr} (h : slash ∈ fn) (i index : Nat) :
    ∃ r, slashLoop fn i index = i + r ∧ r < fn.length ∧ (slash ∈ fn.tail ↔ 0 < r) := by
  induction fn generalizing i index with
  | nil => cases h
  | cons c fn ih =>
    rw [slashLoop, List.tail_cons, List.length_cons]
    by_cases hfn : slash ∈ fn
    · obtain ⟨r, hr, hlt, _⟩ := ih hfn (i + 1) (if c = slash then i else index)
      exact ⟨r + 1, by rw [hr]; omega, by omega, iff_of_true hfn (Nat.succ_pos r)⟩
    · have hc : c = slash := ((List.mem_cons.mp h).resolve_right hfn).symm
      refine ⟨0, ?_, Nat.succ_pos _, iff_of_false hfn (Nat.lt_irrefl 0)⟩
      rw [slashLoop_notMem hfn, if_pos hc, Nat.add_zero]

theorem withoutSlash_length (path : CStr) : (withoutSlash path).length ≤ path.length := by
  unfold withoutSlash
  split
  · rw [List.length_dropLast]
    exact Nat.sub_le _ _
  · exact le_rfl

theorem withoutSlash_subset {path : CStr} {c : Int8} (h : c ∈ withoutSlash path) : c ∈ path := by
  unfold withoutSlash at h
  split at h
  · exact List.dropLast_subset path h
  · exact h

section Directory

variable {fs : Ramfs} {path : CStr}

/-- A path without a slash has no directory part once there is a root. -/
theorem getDirectoryName_none (hp : path ≠ []) (hroot : fs.root ≠ 0)
    (hs : slash ∉ withoutSlash path) : fs.getDirectoryName path = .ok none := by
  rw [Ramfs.getDirectoryName, trimFilename_eq hp, ok_bind, slashLoop_notMem hs]
  exact (if_pos (Nat.lt_succ_self _)).trans (if_pos hroot)

/-- **The directory part** of a path with a slash; it is empty if the only slash comes first. -/
theorem getDirectoryName_slash (hp : path ≠ []) (hlen : path.length ≤ RAMFS_MAX_FILENAME_SIZE)
    (hs : slash ∈ withoutSlash path) :
    ∃ name, fs.getDirectoryName path = .ok (some name) ∧
    (slash ∈ (withoutSlash path).tail ↔ name ≠ []) := by
  obtain ⟨r, hr, hlt, htail⟩ := slashLoop_mem hs 0 (RAMFS_MAX_FILENAME_SIZE + 1)
  rw [Nat.zero_add] at hr
  have hle := withoutSlash_length path
  refine ⟨(withoutSlash path).take r, ?_, htail.trans ?_⟩
  · rw [Ramfs.getDirectoryName, trimFilename_eq hp, ok_bind, hr]
    exact if_neg (by omega)
  · rw [← List.length_pos_iff, List.length_take]
    omega

end Directory

/-! ## The three calls -/

section Calls

variable {fs : Ramfs} {t : Family} {path : CStr} {fuel : Nat}

/-- An empty path is read before its first byte. -/
theorem ramfsCreateFile_empty (dir : Bool) : fs.ramfsCreateFile fuel [] dir = .error .fault := by
  rw [Ramfs.ramfsCreateFile, List.length_nil, if_neg (Nat.not_lt_zero _), Ramfs.ramfsFind]
  by_cases hroot : fs.root = 0
  · rw [if_pos hroot]
    rfl
  · rw [if_neg hroot]
    rfl

/-- A null pointer is given to `ramfs_find`. -/
theorem ramfsFind_null_path (hroot : fs.root ≠ 0) : fs.ramfsFind fuel none = .error .fault := by
  rw [Ramfs.ramfsFind, if_neg hroot]
  rfl

theorem ramfsFind_empty_path (hroot : fs.root ≠ 0) :
    fs.ramfsFind fuel (some []) = .error .fault := by
  rw [Ramfs.ramfsFind, if_neg hroot]
  rfl

/-- A path that is not there is not found. -/
theorem ramfsFind_new (h : fs.Represents t) (hfuel : 2 * fs.brk + 2 ≤ fuel) (hp : path ≠ [])
    (hnew : ∀ i e, fs.entries i = some e → e.filename ≠ withoutSlash path) :
    fs.ramfsFind fuel (some path) = .ok 0 := by
  obtain ⟨r, hr, hfind⟩ := ramfsFind_total h hp
  rw [hfind fuel hfuel]
  by_contra hne
  obtain ⟨_, e, he, hname⟩ := hr.entry fun h0 => hne (congrArg Except.ok h0)
  exact hnew r e he hname

theorem Uncreatable.root_ne_zero (hu : Uncreatable fs path) (hp : path ≠ [])
    (hlen : path.length ≤ RAMFS_MAX_FILENAME_SIZE) : fs.root ≠ 0 := by
  intro hroot
  rcases hu.reason with hempty | ⟨hne, _⟩ | hlong | hnone
  · exact hp hempty
  · exact hne hroot
  · exact Nat.not_lt.mpr hlen hlong
  · exact hnone 0 (Or.inl ⟨hroot, rfl⟩)

/-- **`ramfs_create_file`** of a path that cannot be created. -/
theorem ramfsCreateFile_refused (h : fs.Represents t) (hu : Uncreatable fs path)
    (hfuel : 2 * fs.brk + 2 ≤ fuel) (dir : Bool) : fs.ramfsCreateFile fuel path dir =
      if RAMFS_MAX_FILENAME_SIZE < path.length ∨ slash ∈ (withoutSlash path).tail then .ok (fs, 0)
      else .error .fault := by
  by_cases hp : path = []
  · subst hp
    rw [ramfsCreateFile_empty, if_neg]
    rintro (hlong | hs)
    · exact Nat.not_lt_zero _ hlong
    · cases hs
  by_cases hlong : RAMFS_MAX_FILENAME_SIZE < path.length
  · rw [if_pos (Or.inl hlong), Ramfs.ramfsCreateFile, if_pos hlong]
  have hlen := Nat.not_lt.mp hlong
  have hroot := hu.root_ne_zero hp hlen
  rw [Ramfs.ramfsCreateFile, if_neg hlong, ramfsFind_new h hfuel hp (hu.new hp), ok_bind,
    if_neg (not_not.mpr rfl)]
  by_cases hs : slash ∈ withoutSlash path
  · obtain ⟨name, hname, htail⟩ := @getDirectoryName_slash fs path hp hlen hs
    rw [hname, ok_bind]
    by_cases hempty : name = []
    · -- the only slash is the first byte
      subst hempty
      rw [ramfsFind_empty_path hroot, if_neg]
      · rfl
      · rintro (hl | hm)
        · exact hlong hl
        · exact htail.mp hm rfl
    · obtain ⟨d, hd, hfind⟩ := ramfsFind_total h hempty
      have hd0 : d = 0 := by
        by_contra hne
        obtain ⟨_, e, he, hfile⟩ := hd.entry hne
        have hpar : IsParent fs path d := Or.inr ⟨name, _, e, hname,
          trimFilename_eq hempty, he, hfile⟩
        rcases hu.reason with h' | ⟨_, h'⟩ | h' | h'
        · exact hp h'
        · exact h' (withoutSlash_subset hs)
        · exact hlong h'
        · exact h' d hpar
      rw [hfind fuel hfuel, ok_bind, if_pos ⟨hroot, hd0⟩, if_pos (Or.inr (htail.mpr hempty))]
      rfl
  · rw [getDirectoryName_none hp hroot hs, ok_bind, ramfsFind_null_path hroot, if_neg]
    · rfl
    · rintro (hl | hm)
      · exact hlong hl
      · exact hs (List.mem_of_mem_tail hm)

/-- `ramfs_create_file` returned null or stopped. -/
theorem ramfsCreateFile_refused_cases (h : fs.Represents t) (hu : Uncreatable fs path)
    (hfuel : 2 * fs.brk + 2 ≤ fuel) (dir : Bool) : fs.ramfsCreateFile fuel path dir = .ok (fs, 0) ∨
      fs.ramfsCreateFile fuel path dir = .error .fault := by
  rw [ramfsCreateFile_refused h hu hfuel]
  split
  · exact Or.inl rfl
  · exact Or.inr rfl

/-- `ramfs_find` returned null or stopped. -/
theorem ramfsFind_refused_cases (h : fs.Represents t) (hu : Uncreatable fs path)
    (hfuel : 2 * fs.brk + 2 ≤ fuel) :
    fs.ramfsFind fuel (some path) = .ok 0 ∨ fs.ramfsFind fuel (some path) = .error .fault := by
  by_cases hp : path = []
  · subst hp
    by_cases hroot : fs.root = 0
    · exact Or.inl (if_pos hroot)
    · exact Or.inr (ramfsFind_empty_path hroot)
  · exact Or.inl (ramfsFind_new h hfuel hp (hu.new hp))

/-- **`ramfs_mkdir`** reports the failure with the name of a null entry. -/
theorem ramfsMkdir_refused (h : fs.Represents t) (hu : Uncreatable fs path)
    (hfuel : 2 * fs.brk + 2 ≤ fuel) : fs.ramfsMkdir fuel path = .error .fault := by
  rw [Ramfs.ramfsMkdir]
  rcases ramfsFind_refused_cases h hu hfuel with hfind | hfind
  · rw [hfind, ok_bind, if_neg (not_not.mpr rfl)]
    rcases ramfsCreateFile_refused_cases h hu hfuel false with hcreate | hcreate
    · rw [hcreate]
      rfl
    · rw [hcreate]
      rfl
  · rw [hfind]
    rfl

/-- **`ramfs_open`** locks the mutex of a null entry. -/
theorem ramfsOpen_refused (h : fs.Represents t) (hu : Uncreatable fs path)
    (hfuel : 2 * fs.brk + 2 ≤ fuel) : fs.ramfsOpen fuel path = .error .fault := by
  rw [Ramfs.ramfsOpen]
  rcases ramfsFind_refused_cases h hu hfuel with hfind | hfind
  · rw [hfind, ok_bind, if_neg (not_not.mpr rfl)]
    rcases ramfsCreateFile_refused_cases h hu hfuel false with hcreate | hcreate
    · rw [hcreate, ok_bind]
      simp only [ne_eq, not_true_eq_false, if_false]
      rw [hfind]
      rfl
    · rw [hcreate]
      rfl
  · rw [hfind]
    rfl

/-- **The failure is reported** by `ramfs_create_file` alone, of a path that is too long or has a
directory part. -/
theorem refused_iff (h : fs.Represents t) (hu : Uncreatable fs path) (hfuel : 2 * fs.brk + 2 ≤ fuel)
    (op : PathOp) : Reported fuel fs path op ↔ (∃ dir, op = .createFile dir) ∧
      (RAMFS_MAX_FILENAME_SIZE < path.length ∨ slash ∈ (withoutSlash path).tail) := by
  cases op with
  | createFile dir =>
    rw [Reported, PathOp.exec, ramfsCreateFile_refused h hu hfuel, and_iff_right ⟨dir, rfl⟩]
    split
    · exact iff_of_true rfl ‹_›
    · refine iff_of_false (fun hc => ?_) ‹_›
      cases hc
  | mkdir =>
    rw [Reported, PathOp.exec, ramfsMkdir_refused h hu hfuel]
    refine iff_of_false (fun hc => ?_) ?_
    · cases hc
    · rintro ⟨⟨dir, hc⟩, _⟩
      cases hc
  | «open» =>
    rw [Reported, PathOp.exec, ramfsOpen_refused h hu hfuel]
    refine iff_of_false (fun hc => ?_) ?_
    · cases hc
    · rintro ⟨⟨dir, hc⟩, _⟩
      cases hc

/-- A call that does not report the failure stops. -/
theorem refused_faults (h : fs.Represents t) (hu : Uncreatable fs path)
    (hfuel : 2 * fs.brk + 2 ≤ fuel)
    {op : PathOp} (hr : ¬ Reported fuel fs path op) : op.exec fuel fs path = .error .fault := by
  cases op with
  | createFile dir => exact (ramfsCreateFile_refused_cases h hu hfuel dir).resolve_left hr
  | mkdir => exact ramfsMkdir_refused h hu hfuel
  | «open» => exact ramfsOpen_refused h hu hfuel

end Calls

/-- Before the first entry, a path is refused for its length. -/
theorem uncreatable_long : Uncreatable Ramfs.empty (List.replicate 257 97) where
  new _ i e he := by cases he
  reason := Or.inr (Or.inr (Or.inl (by
    rw [List.length_replicate]
    decide)))

/-- A path of 257 bytes. -/
theorem refused_iff_long_path : Reported 4 Ramfs.empty (List.replicate 257 97) (.createFile true) ↔
    (∃ dir, PathOp.createFile true = .createFile dir) ∧
      (RAMFS_MAX_FILENAME_SIZE < (List.replicate 257 (97 : Int8)).length ∨
      slash ∈ (withoutSlash (List.replicate 257 97)).tail) :=
  refused_iff Ramfs.empty_represents uncreatable_long le_rfl _

/-- The same path is reported by `ramfs_create_file`, and stops `ramfs_mkdir` and `ramfs_open`. -/
theorem long_path_faults : ∃ fs t path, fs.Represents t ∧ Uncreatable fs path ∧ ∀ fuel, 4 ≤ fuel →
    Reported fuel fs path (.createFile true) ∧ PathOp.mkdir.exec fuel fs path = .error .fault ∧
      PathOp.open.exec fuel fs path = .error .fault := by
  refine ⟨_, _, _, Ramfs.empty_represents, uncreatable_long, fun fuel hfuel => ⟨?_, ?_, ?_⟩⟩
  · rw [Reported, PathOp.exec, Ramfs.ramfsCreateFile, if_pos]
    rw [List.length_replicate]
    decide
  · exact ramfsMkdir_refused Ramfs.empty_represents uncreatable_long hfuel
  · exact ramfsOpen_refused Ramfs.empty_represents uncreatable_long hfuel

end AuOs
