import Mathlib
import AuOs.Lib.CallSystem
import AuOs.Ramfs.Entry
import AuOs.Strings

/-!
# The data of a file

* `ramfsWrite`, `ramfsRead` — `ramfs_write` and `ramfs_read`, with the bytes the pointers lead to.
* `ramfsStore` — the part of `ramfs_write` behind its checks; `ramfsStore_spec` says that it splices
  the data into the contents, in place or by reallocation.
* `WriteMeets` — what `ramfs_write` is for: the data is spliced in, unless `seek` is past the end.
* `ramfs_write_exact` — the test of `seek` is the wrong way round, and so `ramfs_write` does what it
  is for only when there is nothing to write; `write_refused` is a first write to a new file.
-/

set_option autoImplicit false

namespace AuOs

/-- What `mem_alloc` returns when it succeeds: a block whose bytes were anything. -/
def memAlloc (prior : Nat → Int8) (size : Nat) : Bytes := (List.range size).map prior

@[simp] theorem length_memAlloc (prior : Nat → Int8) (size : Nat) :
    (memAlloc prior size).length = size := by
  simp [memAlloc]

/-- A whole block is filled. -/
theorem memcpy_memAlloc (prior : Nat → Int8) {size : Nat} {from_ : Bytes}
    (h : size ≤ from_.length) :
    memcpy (memAlloc prior size) 0 from_ size = .ok (from_.take size) := by
  have hlen : (from_.take size).length = size := List.length_take_of_le h
  rw [memcpy_eq h (by simp), splice_end (by simp [hlen]), List.take_zero, List.nil_append]

namespace Ramfs

/-- `fentry_file_set_contents`. -/
def fentryFileSetContents (prior : Nat → Int8) (fs : Ramfs) (f : FPtr)
    (contents : Bytes) (size : Nat) : Res Ramfs := do
  let e ← fs.get f
  let dir ← stored e.isDir
  if dir = true ∧ size > 0 then return fs
  else do
    let bytes ← memcpy (memAlloc prior size) 0 contents size
    return fs.set f { e with contents := some bytes, size := some size }

/-- `if (seek + count <= f->size) ... else ...`: the last part of `ramfs_write`. -/
def ramfsStore (prior : Nat → Int8) (fs : Ramfs) (f : FPtr) (seek : Nat) (contents : Bytes)
    (count : Nat) : Res Ramfs := do
  let e ← fs.get f
  let size ← stored e.size
  let bytes ← stored e.contents
  if (seek + count) % WORD ≤ size then do
    let bytes ← memcpy bytes seek contents count
    return fs.set f { e with contents := some bytes }
  else do
    let tmp ← memcpy (memAlloc prior ((seek + count) % WORD)) 0 bytes seek
    let tmp ← memcpy tmp seek contents count
    fentryFileSetContents prior fs f tmp ((seek + count) % WORD)

/-- `ramfs_write`. -/
def ramfsWrite (prior : Nat → Int8) (fs : Ramfs) (f : FPtr) (seek : Nat) (contents : Bytes)
    (count : Nat) : Res (Ramfs × Nat) := do
  let e ← fs.get f
  let dir ← stored e.isDir
  if dir then return (fs, 0)
  else do
    let locked ← stored e.mtx
    if !locked then return (fs, 0)
    else do
      let size ← stored e.size
      if seek ≤ size ∧ count > 0 then return (fs, 0)
      else do
        let fs ← ramfsStore prior fs f seek contents count
        return (fs, count)

/-- `ramfs_read`: the buffer, and the number of bytes that were read into it. -/
def ramfsRead (fs : Ramfs) (f : FPtr) (seek : Nat) (buf : Bytes) (count : Nat) :
    Res (Bytes × Nat) := do
  let e ← fs.get f
  let locked ← stored e.mtx
  if !locked then return (buf, 0)
  else do
    let size ← stored e.size
    if size ≤ seek then return (buf, 0)
    else do
      let resCount := if size - seek < count then size - seek else count
      let bytes ← stored e.contents
      let buf ← memcpy buf 0 (bytes.drop seek) resCount
      return (buf, resCount)

/-! ## Open files -/

/-- A regular file with these contents, opened. -/
structure OpenFile (fs : Ramfs) (f : FPtr) (e : Fentry) (bytes : Bytes) : Prop where
  ne_zero : f ≠ 0
  entry : fs.entries f = some e
  regular : e.isDir = some false
  locked : e.mtx = some true
  contents : e.contents = some bytes
  size : e.size = some bytes.length

/-- The file with other contents. -/
def setContents (fs : Ramfs) (f : FPtr) (e : Fentry) (bytes : Bytes) : Ramfs :=
  fs.set f { e with contents := some bytes, size := some bytes.length }

variable {prior : Nat → Int8} {fs fs' : Ramfs} {f : FPtr} {e : Fentry} {old data buf : Bytes}
  {seek count : Nat}

namespace OpenFile

theorem get (h : OpenFile fs f e old) : fs.get f = .ok e := by
  rw [Ramfs.get, if_neg h.ne_zero, h.entry]
  rfl

theorem stored_dir (h : OpenFile fs f e old) : stored e.isDir = .ok false := by
  rw [h.regular]
  rfl

theorem stored_locked (h : OpenFile fs f e old) : stored e.mtx = .ok true := by
  rw [h.locked]
  rfl

theorem stored_contents (h : OpenFile fs f e old) : stored e.contents = .ok old := by
  rw [h.contents]
  rfl

theorem stored_size (h : OpenFile fs f e old) : stored e.size = .ok old.length := by
  rw [h.size]
  rfl

/-- Nothing changes when the contents stay. -/
theorem setContents_self (h : OpenFile fs f e old) : fs.setContents f e old = fs := by
  have he : ({ e with contents := some old, size := some old.length } : Fentry) = e := by
    obtain ⟨_, _, _, _, hc, hs⟩ := h
    cases e
    simp only at hc hs
    rw [hc, hs]
  rw [setContents, he, set, ← h.entry, Function.update_eq_self]

end OpenFile

/-- The file gets a new block. -/
theorem fentryFileSetContents_spec (h : OpenFile fs f e old) :
    fentryFileSetContents prior fs f data data.length = .ok (fs.setContents f e data) := by
  unfold fentryFileSetContents
  rw [h.get, ok_bind, h.stored_dir, ok_bind, if_neg (fun hdir => Bool.noConfusion hdir.1),
    memcpy_memAlloc prior le_rfl, ok_bind, List.take_length]
  rfl

/-- **The data is spliced in**, in place or by reallocation. -/
theorem ramfsStore_spec (h : OpenFile fs f e old) (hseek : seek ≤ old.length)
    (hov : seek + data.length < WORD) :
    ramfsStore prior fs f seek data data.length =
    .ok (fs.setContents f e (splice old seek data)) := by
  have hmod : (seek + data.length) % WORD = seek + data.length := Nat.mod_eq_of_lt hov
  have hlen := length_splice (d := data) hseek
  unfold ramfsStore
  rw [h.get, ok_bind, h.stored_size, ok_bind, h.stored_contents, ok_bind, hmod]
  by_cases hin : seek + data.length ≤ old.length
  · rw [if_pos hin, memcpy_eq le_rfl hin, List.take_length, setContents, hlen, Nat.max_eq_left hin,
      ← h.size]
    rfl
  · -- The temporary buffer gets the old bytes up to `seek` and then the data.
    have htmp : (splice (memAlloc prior (seek + data.length)) 0 (old.take seek)).length =
        seek + data.length := by
      rw [length_splice_of_le, length_memAlloc]
      rw [length_memAlloc, List.length_take]
      omega
    have hfill : splice (splice (memAlloc prior (seek + data.length)) 0 (old.take seek)) seek data =
        splice old seek data := by
      have htake : (old.take seek).length = seek := List.length_take_of_le hseek
      rw [splice_end (l := old) (by omega), splice_end (by omega)]
      congr 1
      have hfirst := @take_splice _ (memAlloc prior (seek + data.length)) (old.take seek) 0
        (Nat.zero_le _)
      rwa [htake, Nat.zero_add, List.take_zero, List.nil_append] at hfirst
    have hsize : (splice old seek data).length = seek + data.length := by omega
    rw [if_neg hin, memcpy_eq hseek (by simp), ok_bind, memcpy_eq le_rfl (by omega), ok_bind,
      List.take_length, hfill, ← hsize]
    exact fentryFileSetContents_spec h

/-- The old contents are read past their end. -/
theorem ramfsStore_fault (h : OpenFile fs f e old) (hseek : old.length < seek)
    (hov : seek + data.length < WORD) :
    ramfsStore prior fs f seek data data.length = .error .fault := by
  have hmod : (seek + data.length) % WORD = seek + data.length := Nat.mod_eq_of_lt hov
  unfold ramfsStore
  rw [h.get, ok_bind, h.stored_size, ok_bind, h.stored_contents, ok_bind, hmod]
  rw [if_neg (by omega), memcpy_fault hseek]
  rfl

/-- Behind its checks `ramfs_write` refuses data at a good position, and stores at a bad one. -/
theorem ramfsWrite_eq (h : OpenFile fs f e old) :
    ramfsWrite prior fs f seek data data.length =
      if seek ≤ old.length ∧ data.length > 0 then .ok (fs, 0)
      else do
        let fs ← ramfsStore prior fs f seek data data.length
        return (fs, data.length) := by
  unfold ramfsWrite
  rw [h.get, ok_bind, h.stored_dir, ok_bind, h.stored_locked, ok_bind, h.stored_size]
  rfl

/-- **What is read** are the bytes at `seek`, as many as there are. -/
theorem ramfsRead_spec (h : OpenFile fs f e old) (hbuf : count ≤ buf.length) :
    ramfsRead fs f seek buf count =
      .ok (splice buf 0 ((old.drop seek).take count), min count (old.length - seek)) := by
  have hdrop : (old.drop seek).length = old.length - seek := List.length_drop ..
  unfold ramfsRead
  rw [h.get, ok_bind, h.stored_locked, ok_bind, h.stored_size, ok_bind, h.stored_contents]
  by_cases hseek : old.length ≤ seek
  · have hzero : min count (old.length - seek) = 0 := by omega
    rw [List.drop_eq_nil_of_le hseek, List.take_nil, splice_nil, hzero]
    exact if_pos hseek
  · have hcount : (if old.length - seek < count then old.length - seek else count) =
        min count (old.length - seek) := by
      split <;> omega
    have htake : (old.drop seek).take (min count (old.length - seek)) =
        (old.drop seek).take count := by
      rw [← hdrop]
      exact List.take_eq_take_min.symm
    simp only [Bool.not_true, Bool.false_eq_true, if_false, if_neg hseek, hcount,
      ok_bind, pure_eq_ok]
    rw [memcpy_eq (by omega) (by omega), htake]
    rfl

/-! ## What `ramfs_write` is for -/

/-- Up to the end of the file the data is spliced in and its length is returned; past the end
nothing is read or changed. -/
def WriteMeets (prior : Nat → Int8) (fs : Ramfs) (f : FPtr) (e : Fentry) (old : Bytes) (seek : Nat)
    (data : Bytes) : Prop :=
  if seek ≤ old.length then
    ramfsWrite prior fs f seek data data.length =
      .ok (fs.setContents f e (splice old seek data), data.length)
  else ramfsWrite prior fs f seek data data.length = .ok (fs, 0)

/-- The three ways a write ends; the first is the one with data and a good position. -/
theorem ramfsWrite_cases (h : OpenFile fs f e old) (hov : seek + data.length < WORD) :
    (seek ≤ old.length ∧ data ≠ [] ∧ ramfsWrite prior fs f seek data data.length = .ok (fs, 0)) ∨
    (seek ≤ old.length ∧ data = [] ∧ ramfsWrite prior fs f seek data data.length = .ok (fs, 0)) ∨
    (old.length < seek ∧ ramfsWrite prior fs f seek data data.length = .error .fault) := by
  rw [ramfsWrite_eq h]
  rcases Nat.lt_or_ge old.length seek with hseek | hseek
  · rw [if_neg (by omega), ramfsStore_fault h hseek hov]
    exact Or.inr (Or.inr ⟨hseek, rfl⟩)
  · cases data with
    | nil =>
      rw [if_neg (by simp), ramfsStore_spec h hseek hov, splice_nil, h.setContents_self]
      exact Or.inr (Or.inl ⟨hseek, rfl, rfl⟩)
    | cons b data =>
      rw [if_pos ⟨hseek, by simp⟩]
      exact Or.inl ⟨hseek, by simp, rfl⟩

theorem writeMeets_iff (h : OpenFile fs f e old) (hov : seek + data.length < WORD) :
    WriteMeets prior fs f e old seek data ↔ seek ≤ old.length ∧ data = [] := by
  unfold WriteMeets
  rcases @ramfsWrite_cases prior _ _ _ _ _ _ h hov with ⟨hseek, hne, hw⟩ |
    ⟨hseek, rfl, hw⟩ | ⟨hseek, hw⟩
  · rw [if_pos hseek, hw]
    refine iff_of_false (fun heq => ?_) (fun hnil => hne hnil.2)
    have hcount := (Prod.mk.inj (Except.ok.inj heq)).2
    exact hne (List.length_eq_zero_iff.mp hcount.symm)
  · rw [if_pos hseek, hw, splice_nil, h.setContents_self]
    exact iff_of_true rfl ⟨hseek, rfl⟩
  · rw [if_neg (by omega), hw]
    exact iff_of_false nofun fun hle => absurd hle.1 (by omega)

/-! ## Any number of reads and writes -/

inductive FileCall where
  | write (seek : Nat) (data : Bytes)
  | read (seek count : Nat) (buf : Bytes)

/-- The calls on one file. -/
def fileCalls (prior : Nat → Int8) (f : FPtr) : CallSystem Ramfs FileCall Stop where
  legal _
    | .write seek data => seek + data.length < WORD
    | .read _ count buf => count ≤ buf.length
  exec fs
    | .write seek data => do
      let (fs, _) ← ramfsWrite prior fs f seek data data.length
      return fs
    | .read seek count buf => do
      let _ ← ramfsRead fs f seek buf count
      return fs

/-- **No call changes the file**: it returns, or reads past the end of the contents. -/
theorem fileCalls_keeps (h : OpenFile fs f e old) :
    (fileCalls prior f).Keeps (fun stop => stop = .fault) fun fs' => fs' = fs := by
  rintro _ c rfl hlegal
  cases c with
  | write seek data =>
    show Post (ramfsWrite prior _ f seek data data.length >>= _) _ _
    rcases @ramfsWrite_cases prior _ _ _ _ _ _ h hlegal with ⟨_, _, hw⟩ | ⟨_, _, hw⟩ | ⟨_, hw⟩
    · rw [hw]
      rfl
    · rw [hw]
      rfl
    · rw [hw]
      rfl
  | read seek count buf =>
    show Post (ramfsRead _ f seek buf count >>= _) _ _
    rw [ramfsRead_spec h hlegal]
    rfl

/-- **`ramfs_write` and `ramfs_read`.** -/
theorem ramfs_write_exact {fs₀ : Ramfs} (h : OpenFile fs₀ f e old)
    (hrun : (fileCalls prior f).Run fs₀ fs) :
    OpenFile fs f e old ∧
    (∀ seek data, seek + data.length < WORD →
      (WriteMeets prior fs f e old seek data ↔ seek ≤ old.length ∧ data = [])) ∧
    ∀ seek count buf, count ≤ buf.length → ramfsRead fs f seek buf count =
      .ok (splice buf 0 ((old.drop seek).take count), min count (old.length - seek)) := by
  obtain rfl : fs = fs₀ := (fileCalls_keeps h).run rfl hrun
  refine ⟨h, ?_, ?_⟩
  · intro seek data hov
    exact writeMeets_iff h hov
  · intro seek count buf hbuf
    exact ramfsRead_spec h hbuf

/-- A file that was just created and opened. -/
def newFile : Fentry := ⟨[97], 0, some 0, some 0, some [], some 0, some false, some true⟩

theorem newFile_open : ∃ fs, ramfsOpen 10 Ramfs.empty [97] = .ok (fs, 1) ∧
    OpenFile fs 1 newFile [] :=
  ⟨_, rfl, by decide, rfl, rfl, rfl, rfl, rfl⟩

/-- A file of two bytes. -/
def twoBytes : Fentry := { newFile with contents := some [72, 105], size := some 2 }

def twoBytesFs : Ramfs := ⟨fun f => if f = 1 then some twoBytes else none, 1, 2⟩

theorem ramfs_write_exact_twoBytes : ∃ fs, (fileCalls (fun _ => 0) 1).Run twoBytesFs fs ∧
    WriteMeets (fun _ => 0) fs 1 twoBytes [72, 105] 2 [] ∧
    ¬ WriteMeets (fun _ => 0) fs 1 twoBytes [72, 105] 2 [33] ∧
    ramfsRead fs 1 1 [0, 0, 0] 3 = .ok ([105, 0, 0], 1) := by
  have hopen : OpenFile twoBytesFs 1 twoBytes [72, 105] := ⟨by decide, rfl, rfl, rfl, rfl, rfl⟩
  have hwrite : (fileCalls (fun _ => 0) 1).Step twoBytesFs _ :=
    ⟨.write 1 [111], (by decide : 1 + 1 < WORD), rfl⟩
  have hread := (Relation.ReflTransGen.single hwrite).tail ⟨.read 0 2 [0, 0], le_rfl, rfl⟩
  obtain ⟨_, hmeets, hexact⟩ := ramfs_write_exact hopen hread
  refine ⟨_, hread, (hmeets 2 [] (by decide)).mpr ⟨le_rfl, rfl⟩, ?_,
    hexact 1 3 [0, 0, 0] (by decide)⟩
  rw [hmeets 2 [33] (by decide)]
  decide

/-- The first byte of a new file is refused. -/
theorem write_refused : ∃ fs, ramfsOpen 10 Ramfs.empty [97] = .ok (fs, 1) ∧
    OpenFile fs 1 newFile [] ∧ ramfsWrite (fun _ => 0) fs 1 0 [65] 1 = .ok (fs, 0) ∧
    ¬ WriteMeets (fun _ => 0) fs 1 newFile [] 0 [65] := by
  obtain ⟨fs, hopen, h⟩ := newFile_open
  refine ⟨fs, hopen, h, ?_, ?_⟩
  · exact (ramfsWrite_eq h).trans (if_pos ⟨le_rfl, by decide⟩)
  · rw [writeMeets_iff h (by decide)]
    decide

end Ramfs

end AuOs
