import Mathlib
import AuOs.Base

/-!
# The file system in memory

Reference model of `ramfs.c` up to `ramfs_open`, on the entries at their addresses.

* `CStr` — the bytes of a string before its terminating zero.
* `Fentry`, `Ramfs` — a `struct fentry`, the entries in memory and `__root`.  A field that has not
  been stored yet is `none`, and to follow it is a `fault`, as is to follow a null pointer.
* `fentryListAdd`, `fentryCreate` — a new entry is linked into its directory, and then filled in.
* `findRecursive`, `ramfsFind` — the search by name.
* `ramfsCreateFile`, `ramfsMkdir`, `ramfsOpen` — the operations that create entries.

`mem_alloc` succeeds and gives a new address.  The loops and the recursion take fuel, and run out of
it with `hang`.  What is written to the serial port is not modelled.
-/

set_option autoImplicit false

namespace AuOs

/-! ## Strings -/

/-- The bytes of a C string. -/
abbrev CStr := List Int8

def slash : Int8 := 47

def RAMFS_MAX_FILENAME_SIZE : Nat := 256

/-- `str_compare` of two strings of at least `size` bytes. -/
def strCompare : CStr → CStr → Nat → Int
  | _, _, 0 => 0
  | a :: as, b :: bs, size + 1 => if a < b then -1 else if b < a then 1 else strCompare as bs size
  | _, _, _ + 1 => 0

/-- `trim_filename`: an empty string is read at index `-1`. -/
def trimFilename (filename : CStr) : Res CStr :=
  match filename.getLast? with
  | none => .error .fault
  | some c => .ok (filename.take (if c = slash then filename.length - 1 else filename.length))

/-- The loop of `get_directory_name` over `fn[i]`. -/
def slashLoop : CStr → Nat → Nat → Nat
  | [], _, index => index
  | c :: fn, i, index => slashLoop fn (i + 1) (if c = slash then i else index)

/-! ## Entries -/

/-- The address of an entry, 0 for `NULL`. -/
abbrev FPtr := Nat

/-- `struct fentry`.  `children` is the field `begin` of the list that `children` points to,
`contents` the bytes `contents` points to, `mtx` the field `locked` of the mutex. -/
structure Fentry where
  filename : CStr
  parent : FPtr
  next : Option FPtr
  children : Option FPtr
  contents : Option (List Int8)
  size : Option Nat
  isDir : Option Bool
  mtx : Option Bool
  deriving DecidableEq, Repr

/-- The entries in memory, `__root` and the next address that `mem_alloc` gives. -/
structure Ramfs where
  entries : FPtr → Option Fentry
  root : FPtr
  brk : FPtr

/-- A field that must have been stored. -/
def stored {α : Type} : Option α → Res α
  | some a => .ok a
  | none => .error .fault

/-- `fentry_equals_filename`. -/
def fentryEqualsFilename (f : Fentry) (filename : CStr) : Bool :=
  if f.filename.length ≠ filename.length then false
  else strCompare f.filename filename filename.length == 0

namespace Ramfs

/-- Before the first entry is created. -/
def empty : Ramfs := ⟨fun _ => none, 0, 1⟩

def get (fs : Ramfs) (f : FPtr) : Res Fentry :=
  if f = 0 then .error .fault else stored (fs.entries f)

def set (fs : Ramfs) (f : FPtr) (e : Fentry) : Ramfs :=
  { fs with entries := Function.update fs.entries f (some e) }

def modify (fs : Ramfs) (f : FPtr) (g : Fentry → Fentry) : Res Ramfs := do
  let e ← fs.get f
  return fs.set f (g e)

/-- `mem_alloc(sizeof(fentry))` and the stores to `filename` and `parent`. -/
def allocEntry (fs : Ramfs) (filename : CStr) (parent : FPtr) : Ramfs :=
  { fs.set fs.brk ⟨filename, parent, none, none, none, none, none, none⟩ with brk := fs.brk + 1 }

/-- `mem_free`. -/
def memFree (fs : Ramfs) (f : FPtr) : Ramfs :=
  { fs with entries := Function.update fs.entries f none }

/-- `mutex_lock`, by the only thread there is. -/
def mutexLock (fs : Ramfs) (f : FPtr) : Res Ramfs := do
  let e ← fs.get f
  let locked ← stored e.mtx
  if locked then .error .hang else return fs.set f { e with mtx := some true }

/-- `mutex_unlock`. -/
def mutexUnlock (fs : Ramfs) (f : FPtr) : Res Ramfs := do
  let e ← fs.get f
  let _ ← stored e.mtx
  return fs.set f { e with mtx := some false }

/-! ## Creation -/

/-- `while (it)` of `fentry_list_add`: the last entry of the list, or nothing if one has the
name. -/
def listAddLoop : Nat → Ramfs → FPtr → FPtr → CStr → Res (Option FPtr)
  | 0, _, _, _, _ => .error .hang
  | fuel + 1, fs, it, last, filename =>
    if it = 0 then .ok (some last)
    else do
      let e ← fs.get it
      if fentryEqualsFilename e filename then return none
      else do
        let next ← stored e.next
        listAddLoop fuel fs next it filename

/-- `fentry_list_add(parent->children, f)`. -/
def fentryListAdd (fuel : Nat) (fs : Ramfs) (parent f : FPtr) : Res (Ramfs × FPtr) := do
  let p ← fs.get parent
  let it ← stored p.children
  let fs ← fs.modify f fun e => { e with next := some 0 }
  if it = 0 then do
    let fs ← fs.modify parent fun p => { p with children := some f }
    return (fs, f)
  else do
    let e ← fs.get f
    let last ← listAddLoop fuel fs it 0 e.filename
    match last with
    | none => return (fs, 0)
    | some last => do
      let fs ← fs.modify last fun e => { e with next := some f }
      return (fs, f)

end Ramfs

/-- The stores of `fentry_create` after the entry is linked. -/
inductive InitStore where
  | next
  | children
  | contents
  | size
  | isDir
  | mtx
  deriving DecidableEq, Repr

namespace InitStore

/-- The stores in their order. -/
def all : List InitStore := [next, children, contents, size, isDir, mtx]

def apply (dir : Bool) : InitStore → Fentry → Fentry
  | next, e => { e with next := some 0 }
  | children, e => { e with children := some 0 }
  | contents, e => { e with contents := some [] }
  | size, e => { e with size := some 0 }
  | isDir, e => { e with isDir := some dir }
  | mtx, e => { e with mtx := some false }

end InitStore

namespace Ramfs

/-- `res->next = NULL; ... mutex_setup(res->mtx);` -/
def initEntry (fs : Ramfs) (res : FPtr) (dir : Bool) : Res Ramfs :=
  InitStore.all.foldlM (fun fs st => fs.modify res (st.apply dir)) fs

/-- `fentry_create`. -/
def fentryCreate (fuel : Nat) (fs : Ramfs) (filename : CStr) (parent : FPtr) (dir : Bool) :
    Res (Ramfs × FPtr) := do
  let res := fs.brk
  let name ← trimFilename filename
  let fs := fs.allocEntry name parent
  if parent = 0 ∧ fs.root = 0 then do
    let fs ← initEntry { fs with root := res } res dir
    return (fs, res)
  else do
    let fs ← fs.mutexLock parent
    let (fs, added) ← fentryListAdd fuel fs parent res
    let fs ← fs.mutexUnlock parent
    if res ≠ added then return (fs.memFree res, added)
    else do
      let fs ← fs.initEntry res dir
      return (fs, res)

/-! ## The search by name -/

/-- `fentry_list_find_with_name`, from the entry `it` on. -/
def listFind : Nat → Ramfs → FPtr → CStr → Res FPtr
  | 0, _, _, _ => .error .hang
  | fuel + 1, fs, it, filename =>
    if it = 0 then .ok 0
    else do
      let e ← fs.get it
      if fentryEqualsFilename e filename then return it
      else do
        let next ← stored e.next
        listFind fuel fs next filename

mutual

/-- `ramfs_find_recursive`. -/
def findRecursive : Nat → Ramfs → FPtr → CStr → Res FPtr
  | 0, _, _, _ => .error .hang
  | fuel + 1, fs, f, filename => do
    let e ← fs.get f
    if fentryEqualsFilename e filename then return f
    else do
      let first ← stored e.children
      let p ← listFind fuel fs first filename
      if p ≠ 0 then return p else childLoop fuel fs first filename

/-- `while (it)` of `ramfs_find_recursive`. -/
def childLoop : Nat → Ramfs → FPtr → CStr → Res FPtr
  | 0, _, _, _ => .error .hang
  | fuel + 1, fs, it, filename =>
    if it = 0 then .ok 0
    else do
      let pp ← findRecursive fuel fs it filename
      if pp ≠ 0 then return pp
      else do
        let e ← fs.get it
        let next ← stored e.next
        childLoop fuel fs next filename

end

/-- `ramfs_find`; the path may be `NULL`. -/
def ramfsFind (fuel : Nat) (fs : Ramfs) (filename : Option CStr) : Res FPtr :=
  if fs.root = 0 then .ok 0
  else do
    let filename ← stored filename
    let fn ← trimFilename filename
    let root ← fs.get fs.root
    if fentryEqualsFilename root fn then return fs.root else findRecursive fuel fs fs.root fn

/-! ## Operations -/

/-- `get_directory_name`. -/
def getDirectoryName (fs : Ramfs) (filename : CStr) : Res (Option CStr) := do
  let fn ← trimFilename filename
  let index := slashLoop fn 0 (RAMFS_MAX_FILENAME_SIZE + 1)
  if RAMFS_MAX_FILENAME_SIZE < index then
    if fs.root ≠ 0 then return none else return some fn
  else return some (fn.take index)

/-- `ramfs_create_file`. -/
def ramfsCreateFile (fuel : Nat) (fs : Ramfs) (filename : CStr) (dir : Bool) : Res (Ramfs × FPtr) :=
  if RAMFS_MAX_FILENAME_SIZE < filename.length then .ok (fs, 0)
  else do
    let f ← ramfsFind fuel fs (some filename)
    if f ≠ 0 then return (fs, f)
    else do
      let directoryName ← fs.getDirectoryName filename
      let parent ← ramfsFind fuel fs directoryName
      if fs.root ≠ 0 ∧ parent = 0 then return (fs, 0)
      else fentryCreate fuel fs filename parent dir

/-- `ramfs_mkdir`: a failure is reported with `f->filename` of a null `f`. -/
def ramfsMkdir (fuel : Nat) (fs : Ramfs) (filename : CStr) : Res (Ramfs × FPtr) := do
  let f ← ramfsFind fuel fs (some filename)
  if f ≠ 0 then return (fs, f)
  else do
    let (fs, f) ← ramfsCreateFile fuel fs filename false
    if f = 0 then .error .fault else return (fs, f)

/-- `ramfs_open`. -/
def ramfsOpen (fuel : Nat) (fs : Ramfs) (filename : CStr) : Res (Ramfs × FPtr) := do
  let f ← ramfsFind fuel fs (some filename)
  let (fs, f) ← (if f ≠ 0 then .ok (fs, f)
    else do
      let (fs, f) ← ramfsCreateFile fuel fs filename false
      if f ≠ 0 then return (fs, f)
      else do
        let f ← ramfsFind fuel fs (some filename)
        return (fs, f))
  let fs ← fs.mutexLock f
  return (fs, f)

end Ramfs

end AuOs
