import Mathlib
import AuOs.Lib.CallSystem
import AuOs.Ramfs.Names

/-!
# Creations and searches that run at the same time

Reference model of `ramfs_find` and `ramfs_create_file` as threads see them: between any two steps
another thread may run.

* `Search`, `Search.step` — a call of `ramfs_find`; a step reads the fields of one entry.  A search
  that follows a field that has not been stored is `wild`.
* `Creator`, `Creator.step` — a call of `ramfs_create_file` below an entry that is there: the two
  searches, the insertion under the mutex of the parent as one step, and the stores after it, one by
  one.
* `Race`, `race` — any number of both, in any order.
* `Careful` — the steps that keep out of the way of a creator that has stores to make.
-/

set_option autoImplicit false

namespace AuOs

/-! ## Searches -/

/-- Where a call of `ramfs_find` stands.  The list holds the iterators `it` of the calls of
`ramfs_find_recursive` that wait for a call below them. -/
inductive Search where
  | start
  /-- `ramfs_find_recursive(f)` begins. -/
  | enter (f : FPtr) (stack : List FPtr)
  /-- `fentry_list_find_with_name(f->children)` begins. -/
  | list (f : FPtr) (stack : List FPtr)
  /-- Its loop is at `it`. -/
  | scan (f it : FPtr) (stack : List FPtr)
  /-- `it = f->children->begin` -/
  | again (f : FPtr) (stack : List FPtr)
  /-- `while (it)` -/
  | loop (it : FPtr) (stack : List FPtr)
  /-- `it = it->next` after the call for `it`. -/
  | back (it : FPtr) (stack : List FPtr)
  | done (r : FPtr)
  /-- A field was followed that has not been stored. -/
  | wild
  deriving DecidableEq, Repr

/-- `ramfs_find_recursive` returns null to the call that waits for it. -/
def Search.returnNull : List FPtr → Search
  | [] => done 0
  | p :: stack => back p stack

/-- One step of the search for the trimmed name `fn`. -/
def Search.step (fs : Ramfs) (fn : CStr) : Search → Search
  | start =>
    if fs.root = 0 then done 0
    else
      match fs.entries fs.root with
      | none => wild
      | some e => if fentryEqualsFilename e fn then done fs.root else enter fs.root []
  | enter f stack =>
    match fs.entries f with
    | none => wild
    | some e =>
      if fentryEqualsFilename e fn then done f
      else if e.children.isSome then list f stack else wild
  | list f stack =>
    match (fs.entries f).bind Fentry.children with
    | none => wild
    | some first => scan f first stack
  | scan f it stack =>
    if it = 0 then again f stack
    else
      match fs.entries it with
      | none => wild
      | some e =>
        if fentryEqualsFilename e fn then done it
        else
          match e.next with
          | none => wild
          | some next => scan f next stack
  | again f stack =>
    match (fs.entries f).bind Fentry.children with
    | none => wild
    | some first => loop first stack
  | loop it stack =>
    if it = 0 then returnNull stack else enter it (it :: stack)
  | back it stack =>
    match (fs.entries it).bind Fentry.next with
    | none => wild
    | some next => loop next stack
  | done r => done r
  | wild => wild

/-! ## Creators -/

/-- Where a call of `ramfs_create_file` stands. -/
inductive Phase where
  | start
  /-- `f = ramfs_find(filename)` -/
  | find (fn : CStr) (search : Search)
  /-- `parent = ramfs_find(directory_name)` -/
  | findParent (fn : CStr) (search : Search)
  /-- `fentry_create`, up to the end of the locked insertion. -/
  | insert (parent : FPtr)
  /-- The stores that are left. -/
  | storing (res : FPtr) (todo : List InitStore)
  | returned (f : FPtr)
  deriving DecidableEq, Repr

/-- A call `ramfs_create_file(filename, dir)`. -/
structure Creator where
  filename : CStr
  dir : Bool
  phase : Phase
  deriving DecidableEq, Repr

/-- The next phase of a call whose step does not write to memory. -/
def Phase.next (fs : Ramfs) (filename : CStr) : Phase → Res Phase
  | start =>
    if RAMFS_MAX_FILENAME_SIZE < filename.length then .ok (returned 0)
    else do
      let fn ← trimFilename filename
      return find fn .start
  | find _ (.done f) =>
    if f ≠ 0 then .ok (returned f)
    else do
      let name ← fs.getDirectoryName filename
      let name ← stored name
      let fn ← trimFilename name
      return findParent fn .start
  | find fn search => .ok (find fn (search.step fs fn))
  | findParent _ (.done parent) =>
    .ok (if fs.root ≠ 0 ∧ parent = 0 then returned 0 else insert parent)
  | findParent fn search => .ok (findParent fn (search.step fs fn))
  | storing res [] => .ok (returned res)
  | phase => .ok phase

/-- `fentry_create` up to `mutex_unlock(parent->mtx)`. -/
def insertStep (fs : Ramfs) (filename : CStr) (parent : FPtr) : Res (Ramfs × Phase) := do
  let res := fs.brk
  let fn ← trimFilename filename
  let (fs, added) ← (fs.allocEntry fn parent).fentryListAdd (fs.brk + 1) parent res
  if res ≠ added then return (fs.memFree res, .returned added)
  else return (fs, .storing res InitStore.all)

/-- One step of a creator. -/
def Creator.step (fs : Ramfs) (c : Creator) : Res (Ramfs × Creator) :=
  match c.phase with
  | .insert parent => do
    let (fs, phase) ← insertStep fs c.filename parent
    return (fs, { c with phase := phase })
  | .storing res (st :: todo) => do
    let fs ← fs.modify res (st.apply c.dir)
    return (fs, { c with phase := if todo = [] then .returned res else .storing res todo })
  | _ => do
    let phase ← c.phase.next fs c.filename
    return (fs, { c with phase := phase })

/-! ## Runs -/

/-- A call of `ramfs_find` with its trimmed path. -/
structure Lookup where
  fn : CStr
  search : Search
  deriving DecidableEq, Repr

/-- The entries, and the calls that are running. -/
structure Race (κ ι : Type) where
  fs : Ramfs
  creators : κ → Creator
  lookups : ι → Lookup

/-- Whose turn it is. -/
inductive Turn (κ ι : Type) where
  | creator (k : κ)
  | lookup (i : ι)

section System

variable {κ ι : Type} [DecidableEq κ] [DecidableEq ι]

/-- One step of one call. -/
def Race.exec (s : Race κ ι) : Turn κ ι → Res (Race κ ι)
  | .creator k => do
    let (fs, c) ← (s.creators k).step s.fs
    return { s with fs := fs, creators := Function.update s.creators k c }
  | .lookup i =>
    let l := s.lookups i
    .ok { s with
      lookups := Function.update s.lookups i { l with search := l.search.step s.fs l.fn } }

/-- Any order of steps. -/
def race : CallSystem (Race κ ι) (Turn κ ι) Stop where
  legal _ _ := True
  exec := Race.exec

/-- An entry has been linked, and its creator has the store `st` to make. -/
def Race.Awaits (s : Race κ ι) (st : InitStore) (x : FPtr) : Prop :=
  ∃ k todo, (s.creators k).phase = .storing x todo ∧ st ∈ todo

/-- A search passes an entry with another name only after the store to its `children`. -/
def Race.CarefulSearch (s : Race κ ι) (fn : CStr) (search : Search) : Prop :=
  ∀ f stack e, search = .enter f stack → s.fs.entries f = some e → e.filename ≠ fn →
    ¬ s.Awaits .children f

/-- The steps that stay clear of the stores: an insertion waits for the stores to `next`, a search
for the store to `children` of the entry that it is at. -/
def Race.Careful (s : Race κ ι) : Turn κ ι → Prop
  | .creator k =>
    match (s.creators k).phase with
    | .find fn search => s.CarefulSearch fn search
    | .findParent fn search => s.CarefulSearch fn search
    | .insert _ => ∀ x, ¬ s.Awaits .next x
    | _ => True
  | .lookup i => s.CarefulSearch (s.lookups i).fn (s.lookups i).search

/-- The runs of such steps. -/
def carefulRace : CallSystem (Race κ ι) (Turn κ ι) Stop where
  legal s turn := s.Careful turn
  exec := Race.exec

end System

end AuOs
