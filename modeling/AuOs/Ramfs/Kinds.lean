import Mathlib
import AuOs.Ramfs.Names

/-!
# Files and directories

* `FsCall` — the operations that create entries.
* `Creates` — a path would be created below an entry that is there.
* `OpOutcome` — an operation leaves the entries as they are, or makes one.
* `dirs_iff` — the entries with children are directories if and only if no operation of the run
  created a path below an entry that is not a directory.
* `file_with_child` — such a run: the kind of the parent is not looked at.
-/

set_option autoImplicit false

namespace AuOs

/-- The operations that create entries. -/
inductive FsCall where
  | createFile (fuel : Nat) (filename : CStr) (dir : Bool)
  | mkdir (fuel : Nat) (filename : CStr)
  | open (fuel : Nat) (filename : CStr)

namespace FsCall

def path : FsCall → CStr
  | createFile _ filename _ => filename
  | mkdir _ filename => filename
  | «open» _ filename => filename

def exec (fs : Ramfs) : FsCall → Res Ramfs
  | createFile fuel filename dir => do
    let (fs, _) ← fs.ramfsCreateFile fuel filename dir
    return fs
  | mkdir fuel filename => do
    let (fs, _) ← fs.ramfsMkdir fuel filename
    return fs
  | «open» fuel filename => do
    let (fs, _) ← fs.ramfsOpen fuel filename
    return fs

end FsCall

/-- Every entry that has children is a directory. -/
def AllDirs (fs : Ramfs) : Prop :=
  ∀ i e, fs.entries i = some e → e.HasChildren → e.isDir = some true

/-- The path names no entry yet, and `d` is the entry below which it would be created. -/
structure Creates (fs : Ramfs) (path : CStr) (d : FPtr) : Prop where
  len : path.length ≤ RAMFS_MAX_FILENAME_SIZE
  new : ∃ fn, trimFilename path = .ok fn ∧ ∀ i e, fs.entries i = some e → e.filename ≠ fn
  parent : IsParent fs path d

/-- A path that is created is created below a directory. -/
def ParentIsDir (fs : Ramfs) (path : CStr) : Prop :=
  ∀ d e, Creates fs path d → fs.entries d = some e → e.isDir = some true

/-- Every call of a run that creates an entry finds its parent to be a directory. -/
def EachParentIsDir : Ramfs → List FsCall → Prop
  | _, [] => True
  | fs, c :: calls => ParentIsDir fs c.path ∧ ∀ fs', c.exec fs = .ok fs' → EachParentIsDir fs' calls

section Outcome

variable {fs fs' : Ramfs} {t : Family} {path : CStr} {dir : Bool} {f d : FPtr}

/-- The entries are the same but for their mutexes. -/
structure Same (fs fs' : Ramfs) : Prop where
  grown : Grown fs fs' fun _ => False
  back : ∀ i e', fs'.entries i = some e' → ∃ e, fs.entries i = some e

/-- An entry without children was made below `d`. -/
structure Made (fs fs' : Ramfs) (d : FPtr) : Prop where
  grown : Grown fs fs' (· = d)
  back : ∀ i e', fs'.entries i = some e' → (∃ e, fs.entries i = some e) ∨ ¬ e'.HasChildren

/-- What an operation that returned has done. -/
inductive OpOutcome (fs : Ramfs) (path : CStr) (fs' : Ramfs) : Prop where
  | same (hs : Same fs fs') (hnot : ∀ d, ¬ Creates fs path d)
  | made {d : FPtr} (hm : Made fs fs' d) (hd : Creates fs path d)

theorem Same.refl (fs : Ramfs) : Same fs fs where
  grown i e he := ⟨e, he, .refl e, by simp⟩
  back i e he := ⟨e, he⟩

/-- The mutex of an entry. -/
theorem Same.set_mtx {e : Fentry} (he : fs.entries f = some e) (locked : Bool) :
    Same fs (fs.set f { e with mtx := some locked }) where
  grown := @Grown.set _ _ _ { e with mtx := some locked } he (setMtx_kept locked) _ (fun _ _ => id)
    (by simp [Fentry.HasChildren])
  back i e' hi := by
    by_cases hif : i = f
    · exact ⟨e, hif ▸ he⟩
    · exact ⟨e', (Ramfs.set_entries_of_ne hif).symm.trans hi⟩

theorem Same.trans {fs'' : Ramfs} (h : Same fs fs') (h' : Same fs' fs'') : Same fs fs'' where
  grown := h.grown.trans h'.grown fun _ => by simp
  back i e he := by
    obtain ⟨e', he'⟩ := h'.back i e he
    exact h.back i e' he'

theorem Created.made {fn : CStr} {x : FPtr} (h : Created fs fs' d x fn dir) : Made fs fs' d where
  grown := h.old
  back i e' hi := by
    rcases h.only i e' hi with rfl | hold
    · obtain ⟨e, he, _, _, _, hkids, _⟩ := h.new
      obtain rfl := Option.some.inj (hi.symm.trans he)
      exact Or.inr hkids
    · exact Or.inl hold

theorem Made.trans_same {fs'' : Ramfs} (h : Made fs fs' d) (h' : Same fs' fs'') :
    Made fs fs'' d where
  grown := h.grown.trans h'.grown fun _ => by simp
  back i e'' hi := by
    obtain ⟨e', he'⟩ := h'.back i e'' hi
    obtain ⟨e, he, _, hkids⟩ := h'.grown i e' he'
    obtain rfl := Option.some.inj (hi.symm.trans he)
    rw [hkids, or_false]
    exact h.back i e' he'

theorem OpOutcome.trans_same {fs'' : Ramfs} (h : OpOutcome fs path fs') (h' : Same fs' fs'') :
    OpOutcome fs path fs'' := by
  cases h with
  | same hs hnot => exact .same (hs.trans h') hnot
  | made hm hd => exact .made (hm.trans_same h') hd

theorem Ramfs.Represents.set_mtx {e : Fentry} (h : fs.Represents t) (he : fs.entries f = some e)
    (locked : Bool) : (fs.set f { e with mtx := some locked }).Represents t where
  toHolds := @Ramfs.Holds.set _ _ _ _ { e with mtx := some locked } h.toHolds he ⟨rfl, rfl, rfl⟩ rfl
  ready i e' hi := by
    have hs := Same.set_mtx he locked
    obtain ⟨e₀, he₀⟩ := hs.back i e' hi
    obtain ⟨e₁, he₁, hk, _⟩ := hs.grown i e₀ he₀
    obtain rfl := Option.some.inj (hi.symm.trans he₁)
    exact hk.ready (h.ready i e₀ he₀)

/-! ## Operations -/

theorem CreateOutcome.op {r : Ramfs × FPtr} (hr : CreateOutcome fs path dir r) :
    OpOutcome fs path r.1 := by
  cases hr with
  | refused hnot =>
    refine .same (.refl fs) fun d hd => ?_
    rcases hnot with hlen | hpar
    · exact Nat.not_lt.mpr hd.len hlen
    · exact hpar d hd.parent
  | @found fn f e htrim he hname =>
    refine .same (.refl fs) fun d hd => ?_
    obtain ⟨fn', htrim', hnew⟩ := hd.new
    obtain rfl := Except.ok.inj (htrim.symm.trans htrim')
    exact hnew _ e he hname
  | created hlen htrim hnew hd _ hc => exact .made hc.made ⟨hlen, ⟨_, htrim, hnew⟩, hd⟩

/-- A path that was found is not created. -/
theorem Found.not_creates {fn : CStr} {ids : List FPtr} {r : FPtr}
    (htrim : trimFilename path = .ok fn)
    (hf : Found fs.entries ids fn r) (hr : r ≠ 0) (d : FPtr) : ¬ Creates fs path d := fun hd => by
  obtain ⟨fn', htrim', hnew⟩ := hd.new
  obtain rfl := Except.ok.inj (htrim.symm.trans htrim')
  obtain ⟨_, e, he, hname⟩ := hf.entry hr
  exact hnew r e he hname

/-- `ramfs_find` of any path. -/
theorem ramfsFind_post (h : fs.Represents t) (fuel : Nat) :
    Post (fs.ramfsFind fuel (some path)) (fun _ => True)
    fun r => r ≠ 0 → ∀ d, ¬ Creates fs path d := by
  cases htrim : trimFilename path with
  | error s =>
    by_cases hroot : fs.root = 0
    · rw [Ramfs.ramfsFind, if_pos hroot]
      exact Post.ok fun h0 => absurd rfl h0
    · rw [Ramfs.ramfsFind, if_neg hroot]
      simp only [stored, ok_bind, htrim]
      exact Post.error trivial
  | ok fn =>
    exact ((ramfsFind_spec h htrim fuel).mono fun r hr hr0 d =>
      hr.not_creates htrim hr0 d).weaken fun _ _ => trivial

/-- The tree after an operation. -/
def OpDone (fs : Ramfs) (path : CStr) (fs' : Ramfs) : Prop :=
  OpOutcome fs path fs' ∧ ∃ t, fs'.Represents t

theorem ramfsCreateFile_done (h : fs.Represents t) (fuel : Nat) :
    Post (fs.ramfsCreateFile fuel path dir) (fun _ => True) fun r => OpDone fs path r.1 :=
  (ramfsCreateFile_spec h fuel).mono fun _ hr => ⟨hr.op, hr.represents h⟩

theorem mutexLock_done (h : OpDone fs path fs') (f : FPtr) :
    Post (fs'.mutexLock f) (fun _ => True) (OpDone fs path) := by
  obtain ⟨hop, t, hrep⟩ := h
  unfold Ramfs.mutexLock
  cases hget : fs'.get f with
  | error s => exact Post.error trivial
  | ok e =>
    have he : fs'.entries f = some e := by
      unfold Ramfs.get at hget
      split at hget
      · cases hget
      · cases hentry : fs'.entries f with
        | none => rw [hentry] at hget; cases hget
        | some e' => rw [hentry] at hget; cases hget; rfl
    rw [ok_bind]
    cases e.mtx with
    | none => exact Post.error trivial
    | some locked =>
      cases locked with
      | true => exact Post.error trivial
      | false => exact Post.ok ⟨hop.trans_same (.set_mtx he true), t, hrep.set_mtx he true⟩

/-- **Every operation** leaves the entries as they are or makes one. -/
theorem FsCall.exec_spec (h : fs.Represents t) (c : FsCall) :
    Post (c.exec fs) (fun _ => True) (OpDone fs c.path) := by
  have hsame : ∀ path, (∀ d, ¬ Creates fs path d) → OpDone fs path fs := fun path hnot =>
    ⟨.same (.refl fs) hnot, t, h⟩
  cases c with
  | createFile fuel filename dir => exact (ramfsCreateFile_done h fuel).bind fun r hr => Post.ok hr
  | mkdir fuel filename =>
    refine Post.bind (P := fun r : Ramfs × FPtr => OpDone fs filename r.1) ?_ fun r hr => Post.ok hr
    refine (ramfsFind_post h fuel).bind fun f hf => ?_
    by_cases hf0 : f ≠ 0
    · rw [if_pos hf0]
      exact Post.ok (hsame filename (hf hf0))
    · rw [if_neg hf0]
      refine (ramfsCreateFile_done h fuel).bind fun r hr => ?_
      obtain ⟨fs', f'⟩ := r
      simp only
      split
      · exact Post.error trivial
      · exact Post.ok hr
  | «open» fuel filename =>
    refine Post.bind (P := fun r : Ramfs × FPtr => OpDone fs filename r.1) ?_ fun r hr => Post.ok hr
    refine (ramfsFind_post h fuel).bind fun f hf => ?_
    refine Post.bind (P := fun r : Ramfs × FPtr => OpDone fs filename r.1) ?_ fun r hr => ?_
    · by_cases hf0 : f ≠ 0
      · rw [if_pos hf0]
        exact Post.ok (hsame filename (hf hf0))
      · rw [if_neg hf0]
        refine (ramfsCreateFile_done h fuel).bind fun r hr => ?_
        obtain ⟨fs', f'⟩ := r
        simp only
        split
        · exact Post.ok hr
        · obtain ⟨_, t', hrep⟩ := hr
          exact (ramfsFind_post hrep fuel).bind fun _ _ => Post.ok ⟨by assumption, t', hrep⟩
    · obtain ⟨fs', f'⟩ := r
      exact (mutexLock_done hr f').bind fun fs'' hdone => Post.ok hdone

/-! ## Runs -/

theorem IsParent.unique {d' : FPtr} (h : fs.Represents t) (hd : IsParent fs path d)
    (hd' : IsParent fs path d') : d = d' := by
  have hnone : fs.root = 0 → ∀ i e, fs.entries i ≠ some e := fun hroot i e he => by
    obtain rfl := h.root_eq_zero.mp hroot
    exact List.not_mem_nil (h.all i e he)
  rcases hd with ⟨hroot, rfl⟩ | ⟨name, fn, e, hdir, htrim, he, hname⟩
  · rcases hd' with ⟨_, rfl⟩ | ⟨_, _, e', _, _, he', _⟩
    · rfl
    · exact absurd he' (hnone hroot d' e')
  · rcases hd' with ⟨hroot, rfl⟩ | ⟨name', fn', e', hdir', htrim', he', hname'⟩
    · exact absurd he (hnone hroot d e)
    · obtain rfl := Option.some.inj (Except.ok.inj (hdir.symm.trans hdir'))
      obtain rfl := Except.ok.inj (htrim.symm.trans htrim')
      exact h.names d d' e e' he he' (hname.trans hname'.symm)

/-- **One operation** keeps the property exactly if it creates nothing below a file. -/
theorem OpOutcome.allDirs_iff (h : fs.Represents t) (hop : OpOutcome fs path fs') :
    AllDirs fs' ↔ AllDirs fs ∧ ParentIsDir fs path := by
  have hkeep : ∀ {P}, Grown fs fs' P → AllDirs fs' → ∀ i e, fs.entries i = some e →
      e.HasChildren ∨ P i → e.isDir = some true := fun hg hall i e he hor => by
    obtain ⟨e', he', hk, hkids⟩ := hg i e he
    rw [← hk.isDir]
    exact hall i e' he' (hkids.mpr hor)
  cases hop with
  | same hs hnot =>
    refine ⟨fun hall => ⟨fun i e he hc => hkeep hs.grown hall i e he (Or.inl hc),
      fun d e hd => absurd hd (hnot d)⟩, fun hall i e' hi hc => ?_⟩
    obtain ⟨e, he⟩ := hs.back i e' hi
    obtain ⟨e'', he'', hk, hkids⟩ := hs.grown i e he
    obtain rfl := Option.some.inj (hi.symm.trans he'')
    rw [hk.isDir]
    exact hall.1 i e he ((hkids.mp hc).resolve_right id)
  | @made d hm hd =>
    refine ⟨fun hall => ⟨fun i e he hc => hkeep hm.grown hall i e he (Or.inl hc),
      fun d' e hd' he => ?_⟩, fun hall i e' hi hc => ?_⟩
    · obtain rfl := hd.parent.unique h hd'.parent
      exact hkeep hm.grown hall d e he (Or.inr rfl)
    · obtain ⟨e, he⟩ := (hm.back i e' hi).resolve_right fun hn => hn hc
      obtain ⟨e'', he'', hk, hkids⟩ := hm.grown i e he
      obtain rfl := Option.some.inj (hi.symm.trans he'')
      rw [hk.isDir]
      rcases hkids.mp hc with hold | rfl
      · exact hall.1 i e he hold
      · exact hall.2 i e hd he

theorem allDirs_run (h : fs.Represents t) {calls : List FsCall} {fs' : Ramfs}
    (hrun : calls.foldlM FsCall.exec fs = .ok fs') : AllDirs fs' ↔ AllDirs fs ∧
    EachParentIsDir fs calls := by
  induction calls generalizing fs t with
  | nil =>
    cases hrun
    exact (and_iff_left trivial).symm
  | cons c calls ih =>
    rw [List.foldlM_cons] at hrun
    obtain ⟨fs₁, hexec, hrun⟩ := bind_eq_ok.mp hrun
    have hdone := FsCall.exec_spec h c
    rw [hexec] at hdone
    obtain ⟨hop, t₁, hrep⟩ := hdone
    rw [ih hrep hrun, hop.allDirs_iff h, and_assoc]
    refine and_congr_right fun _ => and_congr_right fun _ => ⟨fun heach fs₂ hexec₂ => ?_,
      fun heach => heach fs₁ hexec⟩
    obtain rfl := Except.ok.inj (hexec.symm.trans hexec₂)
    exact heach

end Outcome

/-- **After any run** the entries with children are directories if and only if every call that
created an entry found its parent to be a directory. -/
theorem dirs_iff {calls : List FsCall} {fs : Ramfs}
    (hrun : calls.foldlM FsCall.exec Ramfs.empty = .ok fs) :
    AllDirs fs ↔ EachParentIsDir Ramfs.empty calls :=
  (allDirs_run Ramfs.empty_represents hrun).trans (and_iff_right fun i e he => by cases he)

/-- A directory `a` and the file `a/b`. -/
theorem dirs_iff_one_file : ∃ fs, [FsCall.createFile 10 [97] true,
    .open 10 [97, 47, 98]].foldlM FsCall.exec
    Ramfs.empty = .ok fs ∧ (AllDirs fs ↔ EachParentIsDir Ramfs.empty
      [FsCall.createFile 10 [97] true, .open 10 [97, 47, 98]]) :=
  ⟨_, rfl, dirs_iff rfl⟩

/-- The directory `a`, and the file `a/b` with the entry `a/b/c` below it. -/
theorem file_with_child : ∃ fs, [FsCall.createFile 10 [97] true, .createFile 10 [97, 47, 98] false,
      .createFile 10 [97, 47, 98, 47, 99] false].foldlM FsCall.exec Ramfs.empty = .ok fs ∧
    fs.entries 2 = some ⟨[97, 47, 98], 1, some 0, some 3, some [], some 0, some false, some false⟩ ∧
    ¬ AllDirs fs := by
  refine ⟨_, rfl, rfl, fun hall => ?_⟩
  have hdir := hall 2 ⟨[97, 47, 98], 1, some 0, some 3, some [], some 0, some false,
    some false⟩ rfl (by decide)
  cases hdir

end AuOs
