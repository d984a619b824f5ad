import Mathlib
import AuOs.Ramfs.Find

/-!
# The release of entries

Reference model of `fentry_release` and `fentry_list_release`, on the blocks that `mem_alloc` gave
for a `struct fentry`: the entry itself, its name, its list of children, its contents and its mutex.

* `BlockMem` — the blocks in use and those that were freed, in their order.  A block that is not in
  use is not read, and to free it is a `BUG` of `mem_pool_free`.
* `Subtree`, `Subtree.InMemory` — siblings with all that is below them, each with its own blocks.
* `ReleasesOnce` — every block of the subtree is freed once, and no other is touched.
* `fentryRelease_bug` — the list of the first entry without children is freed twice.
* `releasesOnce_iff` — so only the empty subtree is released as it should be.
-/

set_option autoImplicit false

namespace AuOs

/-- The pointers of a `struct fentry` that its release follows. -/
structure FentryPtrs where
  filename : FPtr
  next : FPtr
  children : FPtr
  contents : FPtr
  mtx : FPtr
  deriving DecidableEq, Repr

/-- What a block holds. -/
inductive HeapBlock where
  | fentry (e : FentryPtrs)
  | list (begin_ : FPtr)
  | mutex (locked : Bool)
  | bytes
  deriving DecidableEq, Repr

/-- The blocks in use, and the addresses that were given to `mem_free`. -/
structure BlockMem where
  blocks : FPtr → Option HeapBlock
  freed : List FPtr

namespace BlockMem

/-- The block at an address; a null pointer and a freed block are not followed. -/
def block (m : BlockMem) (p : FPtr) : Res HeapBlock :=
  if p = 0 then .error .fault else stored (m.blocks p)

def fentry (m : BlockMem) (f : FPtr) : Res FentryPtrs := do
  match ← m.block f with
  | .fentry e => return e
  | _ => .error .fault

/-- `fl->begin`. -/
def listBegin (m : BlockMem) (fl : FPtr) : Res FPtr := do
  match ← m.block fl with
  | .list begin_ => return begin_
  | _ => .error .fault

/-- `mtx->locked`. -/
def mutexLocked (m : BlockMem) (mtx : FPtr) : Res Bool := do
  match ← m.block mtx with
  | .mutex locked => return locked
  | _ => .error .fault

/-- `mem_free`: the slot must be in use. -/
def memFree (m : BlockMem) (ptr : FPtr) : Res BlockMem :=
  if ptr = 0 then .ok m
  else if (m.blocks ptr).isNone then .error (.bug .poolFreeBit)
  else .ok ⟨Function.update m.blocks ptr none, m.freed ++ [ptr]⟩

mutual

/-- `fentry_release`. -/
def fentryRelease : Nat → BlockMem → FPtr → Res BlockMem
  | 0, _, _ => .error .hang
  | fuel + 1, m, f =>
    if f = 0 then .ok m
    else do
      let e ← m.fentry f
      let locked ← m.mutexLocked e.mtx
      if locked then return m
      else do
        let m ← m.memFree e.mtx
        let e ← m.fentry f
        let m ← m.memFree e.filename
        let e ← m.fentry f
        let m ← fentryListRelease fuel m e.children
        let e ← m.fentry f
        let m ← m.memFree e.children
        let e ← m.fentry f
        let m ← m.memFree e.contents
        -- `f->size = 0`
        let _ ← m.fentry f
        m.memFree f

/-- `fentry_list_release`. -/
def fentryListRelease : Nat → BlockMem → FPtr → Res BlockMem
  | 0, _, _ => .error .hang
  | fuel + 1, m, fl => do
    let it ← m.listBegin fl
    let m ← releaseLoop fuel m it
    m.memFree fl

/-- `while (it)` of `fentry_list_release`. -/
def releaseLoop : Nat → BlockMem → FPtr → Res BlockMem
  | 0, _, _ => .error .hang
  | fuel + 1, m, it =>
    if it = 0 then .ok m
    else do
      let e ← m.fentry it
      let m ← fentryRelease fuel m it
      releaseLoop fuel m e.next

end

end BlockMem

/-! ## Subtrees -/

/-- Siblings, each with its pointers and the entries below it. -/
inductive Subtree where
  | nil
  | entry (f : FPtr) (e : FentryPtrs) (children next : Subtree)
  deriving DecidableEq, Repr

namespace Subtree

/-- The address of the first sibling. -/
def ptr : Subtree → FPtr
  | nil => 0
  | entry f _ _ _ => f

/-- The blocks of the entries; a file that was never written has no contents. -/
def blocks : Subtree → List FPtr
  | nil => []
  | entry f e children next =>
    f :: e.mtx :: e.filename :: e.children ::
      ((if e.contents = 0 then [] else [e.contents]) ++ (children.blocks ++ next.blocks))

/-- The entries stand in memory, and none of their mutexes is locked. -/
def InMemory (m : BlockMem) : Subtree → Prop
  | nil => True
  | entry f e children next =>
    m.blocks f = some (.fentry e) ∧ e.next = next.ptr ∧
      m.blocks e.children = some (.list children.ptr) ∧
      m.blocks e.mtx = some (.mutex false) ∧ m.blocks e.filename = some .bytes ∧
      (e.contents ≠ 0 → m.blocks e.contents = some .bytes) ∧ children.InMemory m ∧ next.InMemory m

/-- The first entry with what is below it, without its siblings. -/
def alone : Subtree → Subtree
  | nil => nil
  | entry f e children _ => entry f e children nil

/-- The length of the path to the first entry without children. -/
def depth : Subtree → Nat
  | nil => 0
  | entry _ _ children _ => children.depth + 1

/-- No two blocks are the same, and none is null. -/
structure Separate (t : Subtree) : Prop where
  nodup : t.blocks.Nodup
  null : 0 ∉ t.blocks

end Subtree

/-- Every block of the subtree was freed once, and the others are as before. -/
structure Released (m m' : BlockMem) (t : Subtree) : Prop where
  once : ∃ freed, m'.freed = m.freed ++ freed ∧ freed.Perm t.blocks
  rest : ∀ p, p ∉ t.blocks → m'.blocks p = m.blocks p

/-- What `fentry_release` is for: it works on an entry and what is below it. -/
def ReleasesOnce (m : BlockMem) (t : Subtree) : Prop :=
  ∃ fuel m', m.fentryRelease fuel t.ptr = .ok m' ∧ Released m m' t.alone

section Release

variable {m m' : BlockMem} {f p : FPtr} {e : FentryPtrs} {t k n : Subtree}

theorem block_eq {b : HeapBlock} (hp : p ≠ 0) (hb : m.blocks p = some b) : m.block p = .ok b := by
  rw [BlockMem.block, if_neg hp, hb]
  rfl

theorem fentry_eq (hf : f ≠ 0) (hb : m.blocks f = some (.fentry e)) : m.fentry f = .ok e := by
  rw [BlockMem.fentry, block_eq hf hb]
  rfl

theorem listBegin_eq {b : FPtr} (hp : p ≠ 0) (hb : m.blocks p = some (.list b)) :
    m.listBegin p = .ok b := by
  rw [BlockMem.listBegin, block_eq hp hb]
  rfl

theorem mutexLocked_eq {locked : Bool} (hp : p ≠ 0) (hb : m.blocks p = some (.mutex locked)) :
    m.mutexLocked p = .ok locked := by
  rw [BlockMem.mutexLocked, block_eq hp hb]
  rfl

/-- A block in use is freed; the others stay. -/
theorem memFree_spec {b : HeapBlock} (hp : p ≠ 0) (hb : m.blocks p = some b) :
    ∃ m', m.memFree p = .ok m' ∧ m'.blocks p = none ∧ ∀ q, q ≠ p → m'.blocks q = m.blocks q := by
  refine ⟨⟨Function.update m.blocks p none, m.freed ++ [p]⟩, ?_,
      Function.update_self .., fun q hq =>
    Function.update_of_ne hq ..⟩
  rw [BlockMem.memFree, if_neg hp, hb]
  rfl

/-- A block is not freed again. -/
theorem memFree_dead (hp : p ≠ 0) (hb : m.blocks p = none) :
    m.memFree p = .error (.bug .poolFreeBit) := by
  rw [BlockMem.memFree, if_neg hp, hb]
  rfl

/-- Blocks outside of the subtree do not matter to it. -/
theorem Subtree.InMemory.frame (h : t.InMemory m)
    (hsame : ∀ q ∈ t.blocks, m'.blocks q = m.blocks q) : t.InMemory m' := by
  induction t with
  | nil => trivial
  | entry f e k n ihk ihn =>
    obtain ⟨hf, hnext, hlist, hmtx, hname, hcontents, hk, hn⟩ := h
    have hmem : ∀ q, q ∈ (Subtree.entry f e k n).blocks → m'.blocks q = m.blocks q := hsame
    simp only [Subtree.blocks, List.mem_cons, List.mem_append] at hmem
    refine ⟨?_, hnext, ?_, ?_, ?_, fun hc => ?_, ihk hk fun q hq => hmem q ?_,
      ihn hn fun q hq => hmem q ?_⟩
    · exact (hmem f (Or.inl rfl)).trans hf
    · exact (hmem e.children (by simp)).trans hlist
    · exact (hmem e.mtx (by simp)).trans hmtx
    · exact (hmem e.filename (by simp)).trans hname
    · exact (hmem e.contents (by simp [hc])).trans (hcontents hc)
    · simp [hq]
    · simp [hq]

/-- What the release of an entry relies on: its own blocks are distinct, and not among those
below. -/
structure Apart (f : FPtr) (e : FentryPtrs) (k : Subtree) : Prop where
  entry : f ≠ 0 ∧ f ≠ e.mtx ∧ f ≠ e.filename ∧ f ≠ e.children
  list : e.children ≠ 0 ∧ e.children ≠ e.mtx ∧ e.children ≠ e.filename
  mtx : e.mtx ≠ 0 ∧ e.mtx ∉ k.blocks
  filename : e.filename ≠ 0 ∧ e.filename ≠ e.mtx ∧ e.filename ∉ k.blocks
  below : k.Separate

theorem Subtree.Separate.apart (h : (Subtree.entry f e k n).Separate) : Apart f e k := by
  obtain ⟨hn, h0⟩ := h
  simp only [Subtree.blocks, List.nodup_cons, List.nodup_append, List.mem_cons, List.mem_append,
    not_or] at hn h0
  obtain ⟨⟨hfm, hff, hfc, _⟩, ⟨hmf, hmc, _, hmk, _⟩, ⟨hfic, _, hfk, _⟩, _, _, ⟨hk, _⟩, _⟩ := hn
  obtain ⟨h0f, h0m, h0n, h0c, _, h0k, _⟩ := h0
  exact ⟨⟨Ne.symm h0f, hfm, hff, hfc⟩, ⟨Ne.symm h0c, Ne.symm hmc, Ne.symm hfic⟩, ⟨Ne.symm h0m, hmk⟩,
    ⟨Ne.symm h0n, Ne.symm hmf, hfk⟩, ⟨hk, h0k⟩⟩

/-- The list of an entry is freed twice, or its first child stops the kernel. -/
theorem fentryRelease_step (h : (Subtree.entry f e k n).InMemory m)
    (hs : (Subtree.entry f e k n).Separate)
    (ih : ∀ m fuel, k.InMemory m → k ≠ .nil → Post (m.fentryRelease fuel k.ptr)
      (fun s => s = .bug .poolFreeBit ∨ OutOfFuel fuel (3 * k.depth) s) fun _ =>
        False) (fuel : Nat) :
    Post (m.fentryRelease fuel f) (fun s => s = .bug .poolFreeBit ∨
      OutOfFuel fuel (3 * (k.depth + 1)) s) fun _ => False := by
  obtain ⟨hf, _, hlist, hmtx, hname, _, hk, _⟩ := h
  obtain ⟨⟨hf0, hfm, hfn, hfc⟩, ⟨hc0, hcm, hcn⟩, ⟨hm0, hmk⟩, ⟨hn0, hnm, hnk⟩, hsep⟩ := hs.apart
  cases fuel with
  | zero => exact Post.error (Or.inr ⟨rfl, by omega⟩)
  | succ fuel =>
    obtain ⟨m₁, hfree₁, _, hsame₁⟩ := memFree_spec hm0 hmtx
    obtain ⟨m₂, hfree₂, _, hsame₂⟩ := memFree_spec hn0 ((hsame₁ _ hnm).trans hname)
    have hf₁ := (hsame₁ f hfm).trans hf
    have hf₂ := (hsame₂ f hfn).trans hf₁
    have hlist₂ := (hsame₂ _ hcn).trans ((hsame₁ _ hcm).trans hlist)
    have hk₂ : k.InMemory m₂ := hk.frame fun q hq =>
      (hsame₂ q fun hq' => hnk (hq' ▸ hq)).trans (hsame₁ q fun hq' => hmk (hq' ▸ hq))
    rw [BlockMem.fentryRelease, if_neg hf0, fentry_eq hf0 hf, ok_bind,
      mutexLocked_eq hm0 hmtx, ok_bind,
      if_neg Bool.false_ne_true, hfree₁, ok_bind, fentry_eq hf0 hf₁, ok_bind, hfree₂, ok_bind,
        fentry_eq hf0 hf₂,
      ok_bind]
    cases fuel with
    | zero => exact Post.error (Or.inr ⟨rfl, by omega⟩)
    | succ fuel =>
      rw [BlockMem.fentryListRelease, listBegin_eq hc0 hlist₂, ok_bind]
      cases fuel with
      | zero => exact Post.error (Or.inr ⟨rfl, by omega⟩)
      | succ fuel =>
        cases k with
        | nil =>
          -- the list is freed at its end, and again by its owner
          obtain ⟨m₃, hfree₃, hdead, hsame₃⟩ := memFree_spec hc0 hlist₂
          have hf₃ := (hsame₃ f hfc).trans hf₂
          rw [BlockMem.releaseLoop, Subtree.ptr, if_pos rfl, ok_bind, hfree₃, ok_bind,
            fentry_eq hf0 hf₃, ok_bind, memFree_dead hc0 hdead]
          exact Post.error (Or.inl rfl)
        | entry f' e' k' n' =>
          have hf0' : f' ≠ 0 := fun hz => hsep.null (hz ▸ List.mem_cons_self)
          rw [BlockMem.releaseLoop, Subtree.ptr, if_neg hf0', fentry_eq hf0' hk₂.1, ok_bind]
          have hchild := ih m₂ fuel hk₂ (fun hc => by cases hc)
          rw [Subtree.ptr] at hchild
          cases hrun : m₂.fentryRelease fuel f' with
          | ok m₃ =>
            rw [hrun] at hchild
            exact hchild.elim
          | error s =>
            rw [hrun] at hchild
            exact Post.error (hchild.imp_right fun ho => ho.mono fun hlt => by omega)

/-- **The release of an entry** ends in a `BUG`: a list is freed twice. -/
theorem fentryRelease_bug (h : t.InMemory m) (hs : t.Separate) (hne : t ≠ .nil) (fuel : Nat) :
    Post (m.fentryRelease fuel t.ptr) (fun s => s = .bug .poolFreeBit ∨
      OutOfFuel fuel (3 * t.depth) s) fun _ => False := by
  induction t generalizing m fuel with
  | nil => exact absurd rfl hne
  | entry f e k n ihk _ =>
    exact fentryRelease_step h hs (fun m fuel hk hk0 => ihk hk hs.apart.below hk0 fuel) fuel

/-- **The blocks are freed once each** only if there is no entry at all. -/
theorem releasesOnce_iff (h : t.InMemory m) (hs : t.Separate) : ReleasesOnce m t ↔ t = .nil := by
  constructor
  · rintro ⟨fuel, m', hrun, _⟩
    by_contra hne
    exact (fentryRelease_bug h hs hne fuel).of_eq hrun
  · rintro rfl
    exact ⟨1, m, rfl, ⟨[], by simp, List.Perm.refl _⟩, fun _ _ => rfl⟩

end Release

/-- The blocks of an empty file: the entry, its mutex, its name and its list. -/
def oneFile : BlockMem where
  blocks p := if p = 1 then some (.fentry ⟨3, 0, 4, 0, 2⟩) else if p = 2 then some (.mutex false)
    else if p = 3 then some .bytes else if p = 4 then some (.list 0) else none
  freed := []

theorem oneFile_inMemory : (Subtree.entry 1 ⟨3, 0, 4, 0, 2⟩ .nil .nil).InMemory oneFile :=
  ⟨rfl, rfl, rfl, rfl, rfl, fun h => absurd rfl h, trivial, trivial⟩

theorem oneFile_separate : (Subtree.entry 1 ⟨3, 0, 4, 0, 2⟩ .nil .nil).Separate :=
  ⟨by decide, by decide⟩

/-- One empty file. -/
theorem releasesOnce_iff_one_file : ReleasesOnce oneFile (.entry 1 ⟨3, 0, 4, 0, 2⟩ .nil .nil) ↔
    Subtree.entry 1 ⟨3, 0, 4, 0, 2⟩ .nil .nil = .nil :=
  releasesOnce_iff oneFile_inMemory oneFile_separate

/-- The release of an empty file frees its list twice. -/
theorem one_file_freed_twice : ∃ m t, t.InMemory m ∧ t.Separate ∧
    m.fentryRelease 3 t.ptr = .error (.bug .poolFreeBit) ∧ ¬ ReleasesOnce m t := by
  refine ⟨_, _, oneFile_inMemory, oneFile_separate, rfl, ?_⟩
  rintro ⟨fuel, m', hrun, _⟩
  exact (fentryRelease_bug oneFile_inMemory oneFile_separate (fun hc => by cases hc) fuel).of_eq
    hrun

end AuOs
