import Mathlib
import AuOs.Lib.CallSystem
import AuOs.Ramfs.Create

/-!
# The names of the entries

* `IsParent` — the directory below which a path is created.
* `CreateOutcome`, `ramfsCreateFile_spec` — the tree is unchanged, or a new entry joins it.
* `creations` — runs of `ramfs_create_file`.
* `names_correct` — after any of them the names are distinct, every entry is in the tree once, and
  `ramfs_find` finds what is there.
-/

set_option autoImplicit false

namespace AuOs

section Outcome

variable {fs fs' : Ramfs} {t : Family} {path fn : CStr} {dir : Bool} {f : FPtr}

/-- The entry that the directory part of the path names; null for the first entry. -/
def IsParent (fs : Ramfs) (path : CStr) (d : FPtr) : Prop :=
  (fs.root = 0 ∧ d = 0) ∨ ∃ name fn e, fs.getDirectoryName path = .ok (some name) ∧
    trimFilename name = .ok fn ∧ fs.entries d = some e ∧ e.filename = fn

/-- What a call of `ramfs_create_file` that returned has done. -/
inductive CreateOutcome (fs : Ramfs) (path : CStr) (dir : Bool) : Ramfs × FPtr → Prop where
  | refused (hnot : RAMFS_MAX_FILENAME_SIZE < path.length ∨ ∀ d, ¬ IsParent fs path d) :
      CreateOutcome fs path dir (fs, 0)
  | found {fn : CStr} {f : FPtr} {e : Fentry} (htrim : trimFilename path = .ok fn)
      (he : fs.entries f = some e) (hname : e.filename = fn) : CreateOutcome fs path dir (fs, f)
  | created {fn : CStr} {d : FPtr} {fs' : Ramfs} {t' : Family}
      (hlen : path.length ≤ RAMFS_MAX_FILENAME_SIZE) (htrim : trimFilename path = .ok fn)
      (hnew : ∀ i e, fs.entries i = some e → e.filename ≠ fn) (hd : IsParent fs path d)
      (hrep : fs'.Represents t') (hc : Created fs fs' d fs.brk fn dir) :
      CreateOutcome fs path dir (fs', fs.brk)

theorem ramfsFind_null (h : fs.Represents t) {r : FPtr} {ids : List FPtr}
    (hf : Found fs.entries ids fn r) (hids : ids = t.ids) (hr : r = 0) :
    ∀ i e, fs.entries i = some e → e.filename ≠ fn := fun i e he =>
  hf.none hr i (hids ▸ h.all i e he) e he

/-- **`ramfs_create_file`** on a tree. -/
theorem ramfsCreateFile_spec (h : fs.Represents t) (fuel : Nat) :
    Post (fs.ramfsCreateFile fuel path dir) (fun _ => True) (CreateOutcome fs path dir) := by
  unfold Ramfs.ramfsCreateFile
  by_cases hlen : RAMFS_MAX_FILENAME_SIZE < path.length
  · rw [if_pos hlen]
    exact Post.ok (.refused (Or.inl hlen))
  · rw [if_neg hlen]
    cases htrim : trimFilename path with
    | error s =>
      -- an empty path is read before its first byte
      by_cases hroot : fs.root = 0
      · rw [Ramfs.ramfsFind, if_pos hroot, ok_bind, if_neg (not_not.mpr rfl),
          Ramfs.getDirectoryName, htrim]
        exact Post.error trivial
      · rw [Ramfs.ramfsFind, if_neg hroot]
        simp only [stored, ok_bind, htrim]
        exact Post.error trivial
    | ok fn =>
      refine ((ramfsFind_spec h htrim fuel).weaken fun _ _ => trivial).bind fun f hf => ?_
      by_cases hf0 : f ≠ 0
      · rw [if_pos hf0]
        obtain ⟨_, e, he, hname⟩ := hf.entry hf0
        exact Post.ok (.found htrim he hname)
      · rw [if_neg hf0]
        have hnew := ramfsFind_null h hf rfl (not_not.mp hf0)
        cases hdir : fs.getDirectoryName path with
        | error s => exact Post.error trivial
        | ok name =>
          rw [ok_bind]
          by_cases hroot : fs.root = 0
          · obtain rfl := h.root_eq_zero.mp hroot
            obtain ⟨fs', t', hrun, hrep, hc⟩ := @fentryCreate_root _ _ _ dir h htrim fuel
            rw [Ramfs.ramfsFind, if_pos hroot, ok_bind, if_neg fun hc => hc.1 hroot, hrun]
            exact Post.ok (.created (Nat.not_lt.mp hlen) htrim hnew (Or.inl ⟨hroot, rfl⟩) hrep hc)
          · cases name with
            | none =>
              rw [Ramfs.ramfsFind, if_neg hroot]
              exact Post.error trivial
            | some name =>
              cases htrim' : trimFilename name with
              | error s =>
                rw [Ramfs.ramfsFind, if_neg hroot]
                simp only [stored, ok_bind, htrim']
                exact Post.error trivial
              | ok fn' =>
                refine ((ramfsFind_spec h htrim' fuel).weaken fun _ _ => trivial).bind fun d hd =>
                  ?_
                by_cases hd0 : d = 0
                · rw [if_pos ⟨hroot, hd0⟩]
                  refine Post.ok (.refused (Or.inr fun d' hpar => ?_))
                  rcases hpar with hpar | ⟨name', fn'', e, hdir', htrim'', he, hname⟩
                  · exact hroot hpar.1
                  · obtain rfl := Option.some.inj (Except.ok.inj (hdir.symm.trans hdir'))
                    obtain rfl := Except.ok.inj (htrim'.symm.trans htrim'')
                    exact ramfsFind_null h hd rfl hd0 d' e he hname
                · rw [if_neg fun hc => hd0 hc.2]
                  obtain ⟨hmem, e, he, hname⟩ := hd.entry hd0
                  refine ((fentryCreate_below h hmem htrim hnew fuel).mono fun r hr => ?_).weaken
                    fun _ _ => trivial
                  obtain ⟨fs', x⟩ := r
                  obtain ⟨rfl, t', hrep, hc⟩ := hr
                  exact .created (Nat.not_lt.mp hlen) htrim hnew
                    (Or.inr ⟨name, fn', e, hdir, htrim', he, hname⟩) hrep hc

end Outcome

theorem Ramfs.empty_represents : Ramfs.empty.Represents .nil where
  root := rfl
  linked := trivial
  top := Or.inl rfl
  nodup := List.nodup_nil
  all i e he := by cases he
  addr i hi := absurd hi List.not_mem_nil
  brk := Nat.one_pos
  ready i e he := by cases he
  names i j e e' he := by cases he

/-! ## Runs -/

/-- A relative path. -/
structure IsPath (path : CStr) : Prop where
  ne_nil : path ≠ []
  relative : path.head? ≠ some slash

/-- A path without one trailing slash. -/
def withoutSlash (path : CStr) : CStr := if path.getLast? = some slash then path.dropLast else path

theorem trimFilename_eq {path : CStr} (h : path ≠ []) :
    trimFilename path = .ok (withoutSlash path) := by
  rw [trimFilename, withoutSlash, List.getLast?_eq_some_getLast h]
  by_cases hs : path.getLast h = slash
  · simp [hs, List.dropLast_eq_take]
  · simp [hs]

/-- A call of `ramfs_create_file`. -/
structure CreateCall where
  fuel : Nat
  filename : CStr
  dir : Bool

/-- Calls of `ramfs_create_file` with relative paths. -/
def creations : CallSystem Ramfs CreateCall Stop where
  legal _ c := IsPath c.filename
  exec fs c := do
    let (fs, _) ← fs.ramfsCreateFile c.fuel c.filename c.dir
    return fs

theorem CreateOutcome.represents {fs : Ramfs} {t : Family} {path : CStr} {dir : Bool}
    {r : Ramfs × FPtr}
    (h : fs.Represents t) (hr : CreateOutcome fs path dir r) : ∃ t', r.1.Represents t' := by
  cases hr with
  | refused => exact ⟨t, h⟩
  | found => exact ⟨t, h⟩
  | created _ _ _ _ hrep _ => exact ⟨_, hrep⟩

theorem creations_keeps : creations.Keeps (fun _ => True) fun fs => ∃ t, fs.Represents t := by
  rintro fs c ⟨t, h⟩ _
  exact (ramfsCreateFile_spec h c.fuel).bind fun r hr => Post.ok (hr.represents h)

section Lookup

variable {fs : Ramfs} {t : Family} {path : CStr}

/-- The search has one result, whatever fuel it is given. -/
theorem Found.unique {fn : CStr} {r r' : FPtr} (h : fs.Represents t)
    (hr : Found fs.entries t.ids fn r) (hr' : Found fs.entries t.ids fn r') : r = r' := by
  by_cases h0 : r = 0
  · by_contra hne
    obtain ⟨hm, e, he, hname⟩ := hr'.entry fun e => hne (h0.trans e.symm)
    exact hr.none h0 r' hm e he hname
  · obtain ⟨_, e, he, hname⟩ := hr.entry h0
    have h0' : r' ≠ 0 := fun e' => hr'.none e' r (h.all r e he) e he hname
    obtain ⟨_, e', he', hname'⟩ := hr'.entry h0'
    exact h.names r r' e e' he he' (hname.trans hname'.symm)

/-- **`ramfs_find`** returns if the fuel is enough. -/
theorem ramfsFind_total (h : fs.Represents t) (hp : path ≠ []) :
    ∃ r, Found fs.entries t.ids (withoutSlash path) r ∧
      ∀ fuel, 2 * fs.brk + 2 ≤ fuel → fs.ramfsFind fuel (some path) = .ok r := by
  have hfind : ∀ fuel, 2 * fs.brk + 2 ≤ fuel → ∃ r, fs.ramfsFind fuel (some path) = .ok r ∧
      Found fs.entries t.ids (withoutSlash path) r := fun fuel hf => by
    have hspec := ramfsFind_spec h (trimFilename_eq hp) fuel
    cases hrun : fs.ramfsFind fuel (some path) with
    | ok r => exact ⟨r, rfl, by rw [hrun] at hspec; exact hspec⟩
    | error s =>
      rw [hrun] at hspec
      exact absurd hspec.2 (Nat.not_lt.mpr hf)
  obtain ⟨r, _, hr⟩ := hfind _ le_rfl
  refine ⟨r, hr, fun fuel hf => ?_⟩
  obtain ⟨r', hrun, hr'⟩ := hfind fuel hf
  rw [hrun, hr.unique h hr']

/-- A path that exists is not created again. -/
theorem ramfsCreateFile_exists {fuel : Nat} {f : FPtr}
    (hf : fs.ramfsFind fuel (some path) = .ok f) (hf0 : f ≠ 0)
    (hlen : path.length ≤ RAMFS_MAX_FILENAME_SIZE) (dir : Bool) :
    fs.ramfsCreateFile fuel path dir = .ok (fs, f) := by
  rw [Ramfs.ramfsCreateFile, if_neg (Nat.not_lt.mpr hlen), hf, ok_bind, if_pos hf0]
  rfl

/-- The first entry can always be created. -/
theorem ramfsCreateFile_first (hp : path ≠ [])
    (hlen : path.length ≤ RAMFS_MAX_FILENAME_SIZE) (fuel : Nat)
    (dir : Bool) : ∃ fs, Ramfs.empty.ramfsCreateFile fuel path dir = .ok (fs, 1) ∧
      (∃ t, fs.Represents t) ∧ ∃ e, fs.entries 1 = some e ∧ e.filename = withoutSlash path := by
  obtain ⟨fs, t, hcreate, hrep, hc⟩ := @fentryCreate_root _ _ _ dir Ramfs.empty_represents
    (trimFilename_eq hp) fuel
  obtain ⟨e, he, hname, _⟩ := hc.new
  refine ⟨fs, ?_, ⟨t, hrep⟩, e, he, hname⟩
  have hdir : ∃ name, Ramfs.empty.getDirectoryName path = .ok (some name) := by
    rw [Ramfs.getDirectoryName, trimFilename_eq hp, ok_bind]
    by_cases hi : RAMFS_MAX_FILENAME_SIZE < slashLoop (withoutSlash path) 0
      (RAMFS_MAX_FILENAME_SIZE + 1)
    · exact ⟨_, (if_pos hi).trans (if_neg (not_not.mpr rfl))⟩
    · exact ⟨_, if_neg hi⟩
  obtain ⟨name, hname⟩ := hdir
  have hfind : ∀ p, Ramfs.empty.ramfsFind fuel p = .ok 0 := fun p => if_pos rfl
  rw [Ramfs.ramfsCreateFile, if_neg (Nat.not_lt.mpr hlen), hfind, ok_bind, if_neg (not_not.mpr rfl),
    hname, ok_bind, hfind, ok_bind, if_neg fun hc => hc.1 rfl]
  exact hcreate

end Lookup

/-- **The names after any creations**: they are distinct, every entry is in the tree once,
`ramfs_find` gives the entry with the name or null if there is none, and a path that exists, of a
length that is accepted, is not created again. -/
theorem names_correct {fs : Ramfs} (hrun : creations.Run Ramfs.empty fs) :
    (∀ i j e e', fs.entries i = some e → fs.entries j = some e' →
      e.filename = e'.filename → i = j) ∧
    (∃ t : Family, fs.root = t.ptr ∧ t.Linked fs.entries 0 ∧ t.ids.Nodup ∧
      ∀ i, i ∈ t.ids ↔ ∃ e, fs.entries i = some e) ∧
    ∀ path, IsPath path → ∃ f, (∀ fuel, 2 * fs.brk + 2 ≤ fuel →
      fs.ramfsFind fuel (some path) = .ok f) ∧
      (f ≠ 0 → ∃ e, fs.entries f = some e ∧ e.filename = withoutSlash path) ∧
      (f = 0 ↔ ∀ i e, fs.entries i = some e → e.filename ≠ withoutSlash path) ∧
      ∀ fuel dir, 2 * fs.brk + 2 ≤ fuel →
        (f ≠ 0 → path.length ≤ RAMFS_MAX_FILENAME_SIZE →
          fs.ramfsCreateFile fuel path dir = .ok (fs, f)) ∧
        (RAMFS_MAX_FILENAME_SIZE < path.length →
            fs.ramfsCreateFile fuel path dir = .ok (fs, 0)) := by
  obtain ⟨t, h⟩ := creations_keeps.run ⟨.nil, Ramfs.empty_represents⟩ hrun
  refine ⟨h.names, ⟨t, h.root, h.linked, h.nodup,
    fun i => ⟨h.linked.exists, fun ⟨e, he⟩ => h.all i e he⟩⟩, fun path hp => ?_⟩
  obtain ⟨f, hf, hfind⟩ := ramfsFind_total h hp.ne_nil
  refine ⟨f, hfind, fun hf0 => (hf.entry hf0).2, ⟨ramfsFind_null h hf rfl, fun hnone => ?_⟩,
    fun fuel dir hfuel => ⟨fun hf0 hlen => ramfsCreateFile_exists (hfind fuel hfuel) hf0 hlen dir,
        fun hlen =>
      if_pos hlen⟩⟩
  by_contra hf0
  obtain ⟨_, e, he, hname⟩ := hf.entry hf0
  exact hnone f e he hname

/-- A directory `a` with the file `a/b`. -/
theorem names_correct_two_entries : ∃ fs, creations.Run Ramfs.empty fs ∧
    fs.ramfsFind 10 (some [97, 47, 98]) = .ok 2 ∧
    ∀ i j e e', fs.entries i = some e → fs.entries j = some e' →
    e.filename = e'.filename → i = j := by
  have h₁ : creations.Step Ramfs.empty _ := ⟨⟨10, [97], true⟩, ⟨nofun, nofun⟩, rfl⟩
  have hrun := (Relation.ReflTransGen.single h₁).tail ⟨⟨10, [97, 47, 98], false⟩,
    ⟨nofun, by decide⟩, rfl⟩
  exact ⟨_, hrun, rfl, (names_correct hrun).1⟩

/-- A name of `RAMFS_MAX_FILENAME_SIZE` bytes is found with a trailing slash, but not accepted with
it. -/
theorem long_path_refused : ∃ fs path f, creations.Run Ramfs.empty fs ∧ IsPath path ∧ f ≠ 0 ∧
    (∀ fuel, 2 * fs.brk + 2 ≤ fuel → fs.ramfsFind fuel (some path) = .ok f) ∧
    ∀ fuel dir, fs.ramfsCreateFile fuel path dir = .ok (fs, 0) := by
  let name : CStr := List.replicate 256 97
  have hname : name ≠ [] := nofun
  obtain ⟨fs, hcreate, ⟨t, hrep⟩, e, he, hfile⟩ :=
    ramfsCreateFile_first hname List.length_replicate.le 0 true
  have hstep : creations.Step Ramfs.empty fs := by
    refine ⟨⟨0, name, true⟩, ⟨hname, by decide⟩, ?_⟩
    show (Ramfs.empty.ramfsCreateFile 0 name true >>= fun r => .ok r.1) = .ok fs
    rw [hcreate]
    rfl
  have hp : name ++ [slash] ≠ [] := by simp
  have htrim : withoutSlash (name ++ [slash]) = name := by simp [withoutSlash]
  have hself : withoutSlash name = name := by
    rw [withoutSlash, if_neg]
    rw [List.getLast?_replicate]
    decide
  obtain ⟨f, hf, hfind⟩ := ramfsFind_total hrep hp
  refine ⟨fs, name ++ [slash], f, .single hstep, ⟨hp, by decide⟩, fun hf0 => ?_, hfind,
    fun fuel dir => if_pos ?_⟩
  · exact hf.none hf0 1 (hrep.all 1 e he) e he (by rw [hfile, htrim, hself])
  · rw [List.length_append, List.length_replicate]
    decide

end AuOs
