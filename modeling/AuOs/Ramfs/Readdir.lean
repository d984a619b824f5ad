import Mathlib
import AuOs.Ramfs.Data
import AuOs.Ramfs.Kinds

/-!
# Directories

* `ramfsReaddir` — `ramfs_readdir`, with the names it writes to the serial port.
* `fentryListPrint_spec`, `ramfsReaddir_spec` — a directory is listed with all that stands below it,
  in the order of the lists.
* `IsDirectory`, `MakesDirectory` — what `ramfs_mkdir` is for.
* `ramfs_mkdir_makes_file` — it makes a regular file, whatever the tree and the path are, and that
  file is never listed.
-/

set_option autoImplicit false

namespace AuOs

/-- What `ramfs_readdir` writes to the serial port. -/
inductive Listing where
  | missing
  | notDirectory
  | names (filenames : List CStr)
  deriving DecidableEq, Repr

namespace Ramfs

mutual

/-- `fentry_print`: the names in their order. -/
def fentryPrint : Nat → Ramfs → FPtr → Res (List CStr)
  | 0, _, _ => .error .hang
  | fuel + 1, fs, f => do
    let e ← fs.get f
    let first ← stored e.children
    let below ← fentryListPrint fuel fs first
    return e.filename :: below

/-- `fentry_list_print`, from the entry `it` on. -/
def fentryListPrint : Nat → Ramfs → FPtr → Res (List CStr)
  | 0, _, _ => .error .hang
  | fuel + 1, fs, it =>
    if it = 0 then .ok []
    else do
      let here ← fentryPrint fuel fs it
      let e ← fs.get it
      let next ← stored e.next
      let rest ← fentryListPrint fuel fs next
      return here ++ rest

end

/-- `ramfs_readdir`. -/
def ramfsReaddir (fuel : Nat) (fs : Ramfs) (filename : CStr) : Res (Ramfs × Listing) := do
  let f ← ramfsFind fuel fs (some filename)
  if f = 0 then return (fs, .missing)
  else do
    let e ← fs.get f
    let dir ← stored e.isDir
    if !dir then return (fs, .notDirectory)
    else do
      let fs ← fs.mutexLock f
      let first ← stored e.children
      let filenames ← fentryListPrint fuel fs first
      let fs ← fs.mutexUnlock f
      return (fs, .names filenames)

/-- The name of the entry at an address. -/
def nameAt (fs : Ramfs) (f : FPtr) : CStr := ((fs.entries f).map Fentry.filename).getD []

end Ramfs

/-! ## Listings -/

section Listings

variable {fs : Ramfs} {t k : Family} {par f : FPtr} {path : CStr}

theorem nameAt_eq {e : Fentry} (he : fs.entries f = some e) : fs.nameAt f = e.filename := by
  rw [Ramfs.nameAt, he]
  rfl

/-- `fentry_print`, given the list below the entry. -/
theorem fentryPrint_spec {e : Fentry} (hf : fs.entries f = some e) (hf0 : f ≠ 0)
    (hfirst : e.children = some k.ptr)
    (ih : ∀ fuel, Post (Ramfs.fentryListPrint fuel fs k.ptr) (OutOfFuel fuel (2 * k.ids.length + 1))
      (· = k.ids.map fs.nameAt)) (fuel : Nat) :
    Post (Ramfs.fentryPrint fuel fs f) (OutOfFuel fuel (2 * k.ids.length + 2))
      (· = (f :: k.ids).map fs.nameAt) := by
  cases fuel with
  | zero => exact Post.error ⟨rfl, by omega⟩
  | succ fuel =>
    rw [Ramfs.fentryPrint, get_some hf0 hf, ok_bind, hfirst]
    refine ((ih fuel).weaken fun s hs => hs.mono fun hlt => by omega).bind fun below hbelow => ?_
    refine Post.ok ?_
    rw [hbelow, List.map_cons, nameAt_eq hf]

/-- **The names of siblings** and of all that is below them. -/
theorem fentryListPrint_spec (h : t.Linked fs.entries par) (hr : Readable fs t) (fuel : Nat) :
    Post (Ramfs.fentryListPrint fuel fs t.ptr) (OutOfFuel fuel (2 * t.ids.length + 1))
      (· = t.ids.map fs.nameAt) := by
  induction t generalizing par fuel with
  | nil =>
    cases fuel with
    | zero => exact Post.error ⟨rfl, by simp⟩
    | succ fuel => exact Post.ok rfl
  | entry f k n ihk ihn =>
    cases fuel with
    | zero => exact Post.error ⟨rfl, by simp⟩
    | succ fuel =>
      obtain ⟨e, hf, _, hc, hnext, hk, hn⟩ := h
      obtain ⟨c, hchild⟩ := Option.isSome_iff_exists.mp (hr.children f List.mem_cons_self e hf)
      have hfirst : e.children = some k.ptr := by
        rw [hchild, Option.getD_some] at hc
        rw [hchild, hc]
      have hlen : (Family.entry f k n).ids.length = k.ids.length + n.ids.length + 1 := by simp
      rw [Family.ptr_entry, Ramfs.fentryListPrint, if_neg hr.ne_zero]
      refine ((fentryPrint_spec hf hr.ne_zero hfirst (fun fuel =>
        ihk hk hr.children_of fuel) fuel).weaken
        fun s hs => hs.mono fun hlt => by omega).bind fun here hhere => ?_
      rw [get_some hr.ne_zero hf, ok_bind, hnext]
      refine ((ihn hn hr.next_of fuel).weaken fun s hs => hs.mono fun hlt => by omega).bind
        fun rest hrest => ?_
      refine Post.ok ?_
      rw [hhere, hrest, Family.ids_entry, ← List.map_append, List.cons_append]

theorem Readable.childrenOf (hr : Readable fs t) (d : FPtr) : Readable fs (t.childrenOf d) where
  addr hm := hr.addr (Family.childrenOf_ids hm)
  children i hi := hr.children i (Family.childrenOf_ids hi)

/-- The names do not depend on the mutexes. -/
theorem nameAt_set_mtx {e : Fentry} (he : fs.entries f = some e) (locked : Bool) (i : FPtr) :
    (fs.set f { e with mtx := some locked }).nameAt i = fs.nameAt i := by
  by_cases hif : i = f
  · subst hif
    rw [nameAt_eq he, nameAt_eq Ramfs.set_entries_self]
  · rw [Ramfs.nameAt, Ramfs.set_entries_of_ne hif, Ramfs.nameAt]

/-- `ramfs_find` of the path of an entry. -/
theorem ramfsFind_there (h : fs.Represents t) {e : Fentry} (hp : path ≠ [])
    (he : fs.entries f = some e)
    (hname : e.filename = withoutSlash path) {fuel : Nat} (hfuel : 2 * fs.brk + 2 ≤ fuel) :
    fs.ramfsFind fuel (some path) = .ok f := by
  have hf0 : f ≠ 0 := fun e' => h.readable.addr (e' ▸ h.all f e he)
  obtain ⟨r, hr, hfind⟩ := ramfsFind_total h hp
  have hself : Found fs.entries t.ids (withoutSlash path) f :=
    ⟨fun _ => ⟨h.all f e he, e, he, hname⟩, fun h0 => absurd h0 hf0⟩
  rw [hfind fuel hfuel, hr.unique h hself]

/-- A mutex that is free is locked and unlocked again. -/
theorem mutexLock_unlock {e : Fentry} (hf0 : f ≠ 0) (he : fs.entries f = some e)
    (hmtx : e.mtx = some false) : fs.mutexLock f = .ok (fs.set f { e with mtx := some true }) ∧
      (fs.set f { e with mtx := some true }).mutexUnlock f = .ok fs := by
  constructor
  · rw [Ramfs.mutexLock, get_some hf0 he, ok_bind, hmtx]
    rfl
  · have hsame : ({ e with mtx := some false } : Fentry) = e := by
      rw [← hmtx]
    rw [Ramfs.mutexUnlock, get_some hf0 Ramfs.set_entries_self, ok_bind]
    show Except.ok ((fs.set f { e with mtx := some true }).set f { e with mtx := some false }) =
      Except.ok fs
    rw [Ramfs.set_set, hsame, Ramfs.set, ← he, Function.update_eq_self]

/-- The search has the fuel it needs for what stands below an entry. -/
theorem childrenOf_fuel (h : fs.Represents t) (f : FPtr) :
    (t.childrenOf f).ids.length ≤ fs.brk := by
  have hle := childrenOf_length (d := f) t
  have hsub : t.ids ⊆ List.range fs.brk := fun i hi => List.mem_range.mpr (h.addr i hi).2
  have hcard := (List.subperm_of_subset h.nodup hsub).length_le
  rw [List.length_range] at hcard
  exact hle.trans hcard

/-- The list of a directory is written out while its mutex is held. -/
theorem fentryListPrint_locked (h : fs.Represents t) {e : Fentry}
    (he : fs.entries f = some e) {fuel : Nat} (hfuel : 2 * fs.brk + 2 ≤ fuel) :
    (fs.set f { e with mtx := some true }).fentryListPrint fuel (t.childrenOf f).ptr =
      .ok ((t.childrenOf f).ids.map fs.nameAt) := by
  obtain ⟨_, hlinked⟩ := h.linked.childrenOf (h.all f e he) he
  have hsame : Family.SameLinks e { e with mtx := some true } := ⟨rfl, rfl, rfl⟩
  have hlinked' := Ramfs.linked_set hlinked he hsame
  have hspec := fentryListPrint_spec hlinked' ((h.set_mtx he true).readable.childrenOf f) fuel
  have hle := childrenOf_fuel h f
  have hroom : 2 * (t.childrenOf f).ids.length + 1 ≤ 2 * fs.brk + 2 := by omega
  have henough := Nat.not_lt.mpr (hroom.trans hfuel)
  obtain ⟨names, hnames, heq⟩ := (hspec.weaken fun s hs => henough hs.2).returns
  rw [hnames, heq, List.map_congr_left fun i _ => nameAt_set_mtx he true i]

/-- **`ramfs_readdir`** of a directory that is not locked lists what stands below it. -/
theorem ramfsReaddir_spec (h : fs.Represents t) {e : Fentry} (hp : path ≠ [])
    (he : fs.entries f = some e)
    (hname : e.filename = withoutSlash path) (hdir : e.isDir = some true)
    (hmtx : e.mtx = some false) {fuel : Nat} (hfuel : 2 * fs.brk + 2 ≤ fuel) :
    fs.ramfsReaddir fuel path = .ok (fs, .names ((t.childrenOf f).ids.map fs.nameAt)) := by
  have hf0 : f ≠ 0 := fun e' => h.readable.addr (e' ▸ h.all f e he)
  obtain ⟨hlock, hunlock⟩ := mutexLock_unlock hf0 he hmtx
  have hprint := fentryListPrint_locked h he hfuel
  obtain ⟨hptr, _⟩ := h.linked.childrenOf (h.all f e he) he
  obtain ⟨c, hchild⟩ := Option.isSome_iff_exists.mp (h.ready f e he).children
  rw [hchild, Option.getD_some] at hptr
  rw [Ramfs.ramfsReaddir, ramfsFind_there h hp he hname hfuel, ok_bind, if_neg hf0,
    get_some hf0 he, ok_bind, hdir]
  simp only [stored, ok_bind, Bool.not_true, Bool.false_eq_true, if_false]
  rw [hlock, ok_bind, hchild, hptr]
  simp only [ok_bind]
  rw [hchild, hptr] at hprint hunlock
  rw [hprint, ok_bind, hunlock]
  rfl

/-- A regular file is not listed. -/
theorem ramfsReaddir_file (h : fs.Represents t) {e : Fentry} (hp : path ≠ [])
    (he : fs.entries f = some e)
    (hname : e.filename = withoutSlash path) (hdir : e.isDir = some false) {fuel : Nat}
    (hfuel : 2 * fs.brk + 2 ≤ fuel) : fs.ramfsReaddir fuel path = .ok (fs, .notDirectory) := by
  have hf0 : f ≠ 0 := fun e' => h.readable.addr (e' ▸ h.all f e he)
  rw [Ramfs.ramfsReaddir, ramfsFind_there h hp he hname hfuel, ok_bind, if_neg hf0,
    get_some hf0 he, ok_bind, hdir]
  rfl

end Listings

/-! ## Directories made by `ramfs_mkdir` -/

/-- The call creates a name directly below the directory. -/
def FsCall.Below (path : CStr) (c : FsCall) : Prop :=
  ∃ name, name ≠ [] ∧ slash ∉ name ∧ c.path = withoutSlash path ++ slash :: name ∧
    c.path.length ≤ RAMFS_MAX_FILENAME_SIZE

/-- The entry `f` is a directory: it has the kind, it is not written to, opened or not, and
`ramfs_readdir` lists what is created directly below it. -/
structure IsDirectory (fs : Ramfs) (path : CStr) (f : FPtr) : Prop where
  kind : ∃ e, fs.entries f = some e ∧ e.isDir = some true
  refused : ∀ prior seek contents count, fs.ramfsWrite prior f seek contents count = .ok (fs, 0) ∧
    ∀ fs', fs.mutexLock f = .ok fs' → fs'.ramfsWrite prior f seek contents count = .ok (fs', 0)
  listed : ∀ (calls : List FsCall) fs', (∀ c ∈ calls, c.Below path) →
    (calls.map FsCall.path).Nodup →
    calls.foldlM FsCall.exec fs = .ok fs' → ∀ fuel, 2 * fs'.brk + 2 ≤ fuel →
      fs'.ramfsReaddir fuel path = .ok (fs', .names (calls.map FsCall.path))

/-- What `ramfs_mkdir` is for. -/
def MakesDirectory (fs : Ramfs) (path : CStr) : Prop :=
  ∃ fuel fs' f, fs.ramfsMkdir fuel path = .ok (fs', f) ∧ IsDirectory fs' path f

section Mkdir

variable {fs fs' : Ramfs} {t : Family} {path : CStr} {d f : FPtr}

theorem Creates.ne_nil (hc : Creates fs path d) : path ≠ [] := by
  rintro rfl
  obtain ⟨fn, htrim, _⟩ := hc.new
  cases htrim

theorem Creates.withoutSlash_new (hc : Creates fs path d) :
    ∀ i e, fs.entries i = some e → e.filename ≠ withoutSlash path := by
  obtain ⟨fn, htrim, hnew⟩ := hc.new
  obtain rfl := Except.ok.inj (htrim.symm.trans (trimFilename_eq hc.ne_nil))
  exact hnew

/-- **`ramfs_mkdir`** of a new path: `ramfs_create_file` is told that the entry is not a
directory. -/
theorem ramfsMkdir_created (h : fs.Represents t) (hc : Creates fs path d) (fuel : Nat) :
    Post (fs.ramfsMkdir fuel path) (fun _ => True) fun r => (∃ t', r.1.Represents t') ∧
      ∃ e, r.1.entries r.2 = some e ∧ e.filename = withoutSlash path ∧ e.parent = d ∧
          e.isDir = some false := by
  have htrim := trimFilename_eq hc.ne_nil
  refine ((ramfsFind_spec h htrim fuel).weaken fun _ _ => trivial).bind fun f hf => ?_
  have hf0 : f = 0 := by
    by_contra hne
    obtain ⟨_, e, he, hname⟩ := hf.entry hne
    exact hc.withoutSlash_new f e he hname
  rw [if_neg (not_not.mpr hf0)]
  refine (ramfsCreateFile_spec h fuel).bind fun r hr => ?_
  cases hr with
  | refused hnot =>
    rcases hnot with hlong | hpar
    · exact absurd hlong (Nat.not_lt.mpr hc.len)
    · exact absurd hc.parent (hpar d)
  | @found fn f e htrim' he hname =>
    obtain rfl := Except.ok.inj (htrim.symm.trans htrim')
    exact absurd hname (hc.withoutSlash_new f e he)
  | @created fn d' fs' t' _ htrim' _ hd' hrep hcreated =>
    obtain rfl := Except.ok.inj (htrim.symm.trans htrim')
    obtain rfl := hc.parent.unique h hd'
    obtain ⟨e, he, hname, hpar, hdir, _⟩ := hcreated.new
    simp only
    rw [if_neg (Nat.pos_iff_ne_zero.mp h.brk)]
    exact Post.ok ⟨⟨t', hrep⟩, e, he, hname, hpar, hdir⟩

/-- An operation keeps the kind and the name of every entry. -/
theorem FsCall.exec_kept (h : fs.Represents t) {c : FsCall} (hexec : c.exec fs = .ok fs') :
    (∃ t', fs'.Represents t') ∧ ∀ i e, fs.entries i = some e → ∃ e', fs'.entries i = some e' ∧
    e.Kept e' := by
  obtain ⟨hop, hrep⟩ := (FsCall.exec_spec h c).of_eq hexec
  refine ⟨hrep, fun i e he => ?_⟩
  cases hop with
  | same hs _ =>
    obtain ⟨e', he', hk, _⟩ := hs.grown i e he
    exact ⟨e', he', hk⟩
  | made hm _ =>
    obtain ⟨e', he', hk, _⟩ := hm.grown i e he
    exact ⟨e', he', hk⟩

/-- **Any run** keeps the kind and the name of every entry. -/
theorem FsCall.run_kept {calls : List FsCall} (h : fs.Represents t)
    (hrun : calls.foldlM FsCall.exec fs = .ok fs') :
    (∃ t', fs'.Represents t') ∧ ∀ i e, fs.entries i = some e → ∃ e', fs'.entries i = some e' ∧
      e'.filename = e.filename ∧ e'.isDir = e.isDir := by
  induction calls generalizing fs t with
  | nil =>
    cases hrun
    exact ⟨⟨t, h⟩, fun i e he => ⟨e, he, rfl, rfl⟩⟩
  | cons c calls ih =>
    rw [List.foldlM_cons] at hrun
    obtain ⟨fs₁, hexec, hrun⟩ := bind_eq_ok.mp hrun
    obtain ⟨⟨t₁, hrep⟩, hkept⟩ := FsCall.exec_kept h hexec
    obtain ⟨hrep', hkept'⟩ := ih hrep hrun
    refine ⟨hrep', fun i e he => ?_⟩
    obtain ⟨e₁, he₁, hk⟩ := hkept i e he
    obtain ⟨e', he', hname, hdir⟩ := hkept' i e₁ he₁
    exact ⟨e', he', hname.trans hk.filename, hdir.trans hk.isDir⟩

/-- The kind of the new entry is wrong. -/
theorem not_makesDirectory (h : fs.Represents t) (hc : Creates fs path d) :
    ¬ MakesDirectory fs path := by
  rintro ⟨fuel, fs', f, hrun, hdir⟩
  obtain ⟨_, e, he, _, _, hfile⟩ := (ramfsMkdir_created h hc fuel).of_eq hrun
  obtain ⟨e', he', hkind⟩ := hdir.kind
  obtain rfl := Option.some.inj (he.symm.trans he')
  rw [hfile] at hkind
  cases hkind

/-- **`ramfs_mkdir` makes no directory**, in no tree and of no new path: what it makes is a regular
file, and whatever is created afterwards, `ramfs_readdir` does not list it. -/
theorem ramfs_mkdir_makes_file (h : fs.Represents t) (hc : Creates fs path d) :
    ¬ MakesDirectory fs path ∧ ∀ fuel fs' f, fs.ramfsMkdir fuel path = .ok (fs', f) →
      (∃ e, fs'.entries f = some e ∧ e.filename = withoutSlash path ∧ e.parent = d ∧
        e.isDir = some false) ∧
      ∀ (calls : List FsCall) fs'', calls.foldlM FsCall.exec fs' = .ok fs'' →
        ∀ fuel, 2 * fs''.brk + 2 ≤ fuel →
        fs''.ramfsReaddir fuel path = .ok (fs'', .notDirectory) := by
  refine ⟨not_makesDirectory h hc, fun fuel fs' f hrun => ?_⟩
  obtain ⟨⟨t', hrep⟩, e, he, hname, hpar, hfile⟩ := (ramfsMkdir_created h hc fuel).of_eq hrun
  refine ⟨⟨e, he, hname, hpar, hfile⟩, fun calls fs'' hcalls fuel' hfuel => ?_⟩
  obtain ⟨⟨t'', hrep'⟩, hkept⟩ := FsCall.run_kept hrep hcalls
  obtain ⟨e', he', hname', hdir'⟩ := hkept f e he
  exact ramfsReaddir_file hrep' hc.ne_nil he' (hname'.trans hname) (hdir'.trans hfile) hfuel

end Mkdir

/-- The directory `a` alone, below which `a/b` can be created. -/
theorem one_directory : ∃ fs t, Ramfs.empty.ramfsCreateFile 10 [97] true = .ok (fs, 1) ∧
    fs.Represents t ∧ Creates fs [97, 47, 98] 1 := by
  have hcreate := (@ramfsCreateFile_spec _ _ [97] true Ramfs.empty_represents 10).of_eq rfl
  obtain ⟨t, hrep⟩ := hcreate.represents Ramfs.empty_represents
  have htrim : trimFilename [97, 47, 98] = .ok [97, 47, 98] := rfl
  refine ⟨_, t, rfl, hrep, ⟨by decide, ⟨_, htrim, ?_⟩, Or.inr ⟨[97], [97], _, rfl, rfl, rfl, rfl⟩⟩⟩
  exact ramfsFind_null hrep ((ramfsFind_spec hrep htrim 10).of_eq rfl) rfl rfl

/-- The path `a/b` below the directory `a`. -/
theorem ramfs_mkdir_makes_file_below : ∃ fs, Ramfs.empty.ramfsCreateFile 10
    [97] true = .ok (fs, 1) ∧ ¬ MakesDirectory fs [97, 47, 98] := by
  obtain ⟨fs, t, hcreate, hrep, hc⟩ := one_directory
  exact ⟨fs, hcreate, (ramfs_mkdir_makes_file hrep hc).1⟩

/-- The directory `a` and what `ramfs_mkdir` makes of `a/b`. -/
theorem mkdir_not_listed : ∃ fs fs' t e, fs.Represents t ∧ Creates fs [97, 47, 98] 1 ∧
    (∃ d, fs.entries 1 = some d ∧ d.isDir = some true) ∧
    fs.ramfsMkdir 10 [97, 47, 98] = .ok (fs', 2) ∧ fs'.entries 2 = some e ∧ e.isDir = some false ∧
    fs'.ramfsReaddir 10 [97, 47, 98] = .ok (fs', .notDirectory) ∧
    ¬ MakesDirectory fs [97, 47, 98] := by
  obtain ⟨fs, t, hcreate, hrep, hc⟩ := one_directory
  cases hcreate
  exact ⟨_, _, t, _, hrep, hc, ⟨_, rfl, rfl⟩, rfl, rfl, rfl, rfl, not_makesDirectory hrep hc⟩

end AuOs
