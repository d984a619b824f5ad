import Mathlib
import AuOs.Ramfs.Search

/-!
# Creations that stay clear of each other

* `insertStep_spec` — the locked insertion, when no store to `next` is left to be made.
* `Stored`, `CreatorOk`, `RaceInv` — what holds between any two steps.
* `carefulRace_keeps` — every careful step keeps it.
-/

set_option autoImplicit false

namespace AuOs

/-! ## The insertion -/

section Links

variable {entries : FPtr → Option Fentry} {t : Family} {par : FPtr}

/-- The links out of an entry lead to entries of the tree. -/
theorem Family.Linked.links (h : t.Linked entries par) {i : FPtr} {e : Fentry} (hi : i ∈ t.ids)
    (he : entries i = some e) : (e.children.getD 0 = 0 ∨ e.children.getD 0 ∈ t.ids) ∧
      ∃ n, e.next = some n ∧ (n = 0 ∨ n ∈ t.ids) := by
  have hptr : ∀ s : Family, s.ptr = 0 ∨ s.ptr ∈ s.ids := fun s => by
    cases s with
    | nil => exact Or.inl rfl
    | entry => exact Or.inr List.mem_cons_self
  induction t generalizing par with
  | nil => cases hi
  | entry f k n ihk ihn =>
    obtain ⟨ef, hf, _, hc, hnext, hk, hn⟩ := h
    have hink : ∀ i ∈ k.ids, i ∈ (Family.entry f k n).ids := fun i hi =>
      List.mem_cons_of_mem _ (List.mem_append_left _ hi)
    have hinn : ∀ i ∈ n.ids, i ∈ (Family.entry f k n).ids := fun i hi =>
      List.mem_cons_of_mem _ (List.mem_append_right _ hi)
    rcases List.mem_cons.mp hi with rfl | hi
    · obtain rfl := Option.some.inj (hf.symm.trans he)
      rw [hc]
      exact ⟨(hptr k).imp_right (hink _), _, hnext, (hptr n).imp_right (hinn _)⟩
    · rcases List.mem_append.mp hi with hi | hi
      · obtain ⟨hc', m, hm, hlink⟩ := ihk hk hi
        exact ⟨hc'.imp_right (hink _), m, hm, hlink.imp_right (hink _)⟩
      · obtain ⟨hc', m, hm, hlink⟩ := ihn hn hi
        exact ⟨hc'.imp_right (hinn _), m, hm, hlink.imp_right (hinn _)⟩

/-- The last sibling has no sibling after it. -/
theorem Family.Linked.last_next (h : t.Linked entries par) (ht : t ≠ .nil) {e : Fentry}
    (he : entries (t.lastSibling 0) = some e) : e.next = some 0 := by
  induction t generalizing par with
  | nil => exact absurd rfl ht
  | entry f k n _ ih =>
    obtain ⟨ef, hf, _, _, hnext, _, hn⟩ := h
    rw [Family.lastSibling] at he
    cases n with
    | nil =>
      obtain rfl := Option.some.inj (hf.symm.trans he)
      exact hnext
    | entry => exact ih hn (fun h => by cases h) he

end Links

/-- How the insertion of `x` below `d` changes the entry `i`. -/
inductive LinkStep (d x i : FPtr) (e : Fentry) : Fentry → Prop where
  | same : LinkStep d x i e e
  | children : i = d → e.children = some 0 → LinkStep d x i e { e with children := some x }
  | next : e.next = some 0 → LinkStep d x i e { e with next := some x }

theorem LinkStep.extends {d x i : FPtr} {e e' : Fentry} (h : LinkStep d x i e e') :
    e.Extends e' := by
  cases h with
  | same => exact .refl e
  | children _ hc =>
    refine ⟨rfl, fun c hc' => ⟨x, rfl, fun h0 => absurd ?_ h0⟩, fun n hn => ⟨n, hn, fun _ => rfl⟩⟩
    exact (Option.some.inj (hc.symm.trans hc')).symm
  | next hn =>
    refine ⟨rfl, fun c hc => ⟨c, hc, fun _ => rfl⟩, fun n hn' => ⟨x, rfl, fun h0 => absurd ?_ h0⟩⟩
    exact (Option.some.inj (hn.symm.trans hn')).symm

theorem LinkStep.ready {d x i : FPtr} {e e' : Fentry} (h : LinkStep d x i e e')
    (hr : e.Ready) : e'.Ready := by
  cases h with
  | same => exact hr
  | children => exact ⟨hr.next, rfl, hr.contents, hr.size, hr.isDir, hr.mtx⟩
  | next => exact ⟨rfl, hr.children, hr.contents, hr.size, hr.isDir, hr.mtx⟩

section Insert

variable {fs : Ramfs} {t : Family} {d : FPtr} {path fn : CStr}

theorem Ramfs.Holds.length_le (h : fs.Holds t) : t.ids.length ≤ fs.brk := by
  have hsub : t.ids ⊆ List.range fs.brk := fun i hi => List.mem_range.mpr (h.addr i hi).2
  simpa using (List.subperm_of_subset h.nodup hsub).length_le

/-- The new entry after the insertion. -/
def linkedEntry (fn : CStr) (d : FPtr) : Fentry := ⟨fn, d, some 0, none, none, none, none, none⟩

/-- What the insertion leaves behind. -/
structure EntryLinked (fs fs' : Ramfs) (d : FPtr) (fn : CStr) : Prop where
  holds : ∃ t', fs'.Holds t'
  root : fs'.root = fs.root
  new : fs'.entries fs.brk = some (linkedEntry fn d)
  old : ∀ i e, fs.entries i = some e → ∃ e', fs'.entries i = some e' ∧ LinkStep d fs.brk i e e'
  back : ∀ i e', fs'.entries i = some e' → i = fs.brk ∨ ∃ e, fs.entries i = some e

/-- **The locked insertion** of a new name. -/
theorem insertStep_spec {ed : Fentry} (h : fs.Holds t) (hd : d ∈ t.ids)
    (hed : fs.entries d = some ed) (hlist : ed.children.isSome) (htrim : trimFilename path = .ok fn)
    (hnew : ∀ i e, fs.entries i = some e → e.filename ≠ fn) :
    ∃ fs', insertStep fs path d = .ok (fs', .storing fs.brk InitStore.all) ∧
    EntryLinked fs fs' d fn := by
  have hb0 : fs.brk ≠ 0 := h.brk.ne'
  have h0 : 0 ∉ t.ids := fun hm => Nat.lt_irrefl 0 (h.addr 0 hm).1
  let s₀ := fs.allocEntry fn d
  have n₀ : ∀ i, i ≠ fs.brk → s₀.entries i = fs.entries i := fun i hi => Function.update_of_ne hi ..
  have x₀ : s₀.entries fs.brk = some ⟨fn, d, none, none, none, none, none, none⟩ :=
    Function.update_self ..
  have l₀ : t.Linked s₀.entries 0 := h.linked.congr fun i hi => n₀ i (h.addr i hi).2.ne
  have d₀ : s₀.entries d = some ed := (n₀ d (h.addr d hd).2.ne).trans hed
  obtain ⟨es, hes, hadd⟩ := fentryListAdd_spec l₀ h0 hd d₀ hlist x₀ hb0 h.brk_notMem
    (fun i hi e he => hnew i e ((n₀ i (h.addr i hi).2.ne).symm.trans he)) (fs.brk + 1)
  let s₁ := s₀.set fs.brk (linkedEntry fn d)
  let s₂ := s₁.set (t.slot d) (Family.linkChild (t.childrenOf d) fs.brk es)
  have hslot := Family.slot_mem hd
  have hsx : t.slot d ≠ fs.brk := (h.addr _ hslot).2.ne
  have n₁ : ∀ i, i ≠ fs.brk → s₁.entries i = fs.entries i := fun i hi =>
    (Ramfs.set_entries_of_ne hi).trans (n₀ i hi)
  have n₂ : ∀ i, i ≠ t.slot d → s₂.entries i = s₁.entries i :=
    fun i hi => Ramfs.set_entries_of_ne hi
  have x₂ : s₂.entries fs.brk = some (linkedEntry fn d) :=
    (n₂ _ hsx.symm).trans Ramfs.set_entries_self
  have hes' : fs.entries (t.slot d) = some es := (n₀ _ hsx).symm.trans hes
  have hrun : (fs.allocEntry fn d).fentryListAdd (fs.brk + 1) d fs.brk = .ok (s₂, fs.brk) := by
    cases hlistAdd : s₀.fentryListAdd (fs.brk + 1) d fs.brk with
    | error s =>
      rw [hlistAdd] at hadd
      exact absurd hadd.2 (Nat.not_lt.mpr (Nat.succ_le_succ h.length_le))
    | ok r =>
      rw [hlistAdd] at hadd
      exact congrArg Except.ok hadd
  have hstep : LinkStep d fs.brk (t.slot d) es (Family.linkChild (t.childrenOf d) fs.brk es) := by
    unfold Family.linkChild
    by_cases hk : t.childrenOf d = .nil
    · have hsd : t.slot d = d := if_pos hk
      rw [if_pos hk]
      rw [hsd, hed] at hes'
      obtain rfl := Option.some.inj hes'
      obtain ⟨c, hc⟩ := Option.isSome_iff_exists.mp hlist
      have hzero := (h.linked.childrenOf hd hed).1
      rw [hk, hc] at hzero
      exact .children hsd (hc.trans (congrArg some hzero))
    · have hsl : t.slot d = (t.childrenOf d).lastSibling 0 := if_neg hk
      rw [if_neg hk]
      rw [hsl] at hes'
      exact .next ((h.linked.childrenOf hd hed).2.last_next hk hes')
  have hold : ∀ i e, fs.entries i = some e → ∃ e', s₂.entries i = some e' ∧
      LinkStep d fs.brk i e e' :=
    fun i e he => by
      have hib : i ≠ fs.brk := (h.addr i (h.all i e he)).2.ne
      by_cases his : i = t.slot d
      · subst his
        obtain rfl := Option.some.inj (hes'.symm.trans he)
        exact ⟨_, Ramfs.set_entries_self, hstep⟩
      · exact ⟨e, (n₂ i his).trans ((n₁ i hib).trans he), .same⟩
  have hback : ∀ i e', s₂.entries i = some e' → i = fs.brk ∨ ∃ e, fs.entries i = some e :=
    fun i e' he' => by
    refine or_iff_not_imp_left.mpr fun hib => ?_
    by_cases his : i = t.slot d
    · exact ⟨es, his ▸ hes'⟩
    · exact ⟨e', (n₁ i hib).symm.trans ((n₂ i his).symm.trans he')⟩
  have hids := Family.addChild_ids (x := fs.brk) hd h.nodup
  have hholds : s₂.Holds (t.addChild d fs.brk) := by
    refine h.add (fun i e he => ?_) hback ⟨_, x₂, rfl⟩ hnew ?_ ?_ ?_
      (Family.addChild_ids hd h.nodup) rfl
    · obtain ⟨e', he', hlink⟩ := hold i e he
      exact ⟨e', he', hlink.extends.filename⟩
    · rw [Family.addChild_ptr]
      exact h.root
    · refine l₀.addChild hd h.nodup ⟨x₂, rfl, rfl, rfl⟩ (fun e he => ?_) fun i hi his => ?_
      · obtain rfl := Option.some.inj (hes.symm.trans he)
        exact Ramfs.set_entries_self
      · exact (n₂ i his).trans (Ramfs.set_entries_of_ne (h.addr i hi).2.ne)
    · rcases h.top with rfl | ⟨r, k, rfl⟩
      · cases hd
      · rw [Family.addChild]
        split
        · exact ⟨_, _, rfl⟩
        · exact ⟨_, _, rfl⟩
  refine ⟨s₂, ?_, ⟨_, hholds⟩, rfl, x₂, hold, hback⟩
  rw [insertStep, htrim, ok_bind, hrun, ok_bind]
  exact if_neg (not_not.mpr rfl)

end Insert

/-! ## The invariant -/

namespace Fentry

/-- The field that a store fills has been filled. -/
def has (e : Fentry) : InitStore → Bool
  | .next => e.next.isSome
  | .children => e.children.isSome
  | .contents => e.contents.isSome
  | .size => e.size.isSome
  | .isDir => e.isDir.isSome
  | .mtx => e.mtx.isSome

theorem has_apply (e : Fentry) (dir : Bool) (st st' : InitStore) :
    (st.apply dir e).has st' = (decide (st' = st) || e.has st') := by
  cases st <;> cases st' <;> rfl

theorem ready_iff {e : Fentry} : e.Ready ↔ ∀ st, e.has st :=
  ⟨fun h st => by
    cases st with
    | next => exact h.next
    | children => exact h.children
    | contents => exact h.contents
    | size => exact h.size
    | isDir => exact h.isDir
    | mtx => exact h.mtx,
  fun h => ⟨h .next, h .children, h .contents, h .size, h .isDir, h .mtx⟩⟩

end Fentry

/-- The stores that are not left have been made; those that are left meet nothing in their
fields. -/
structure Stored (e : Fentry) (todo : List InitStore) : Prop where
  nodup : todo.Nodup
  has : ∀ st, st ∉ todo → e.has st
  children : InitStore.children ∈ todo → e.children = none
  next : InitStore.next ∈ todo → e.next = some 0

/-- No entry has the name. -/
def Unnamed (fs : Ramfs) (path : CStr) : Prop :=
  ∀ i e, fs.entries i = some e → e.filename ≠ withoutSlash path

/-- A path directly below `d`. -/
structure PathBelow (fs : Ramfs) (d : FPtr) (path : CStr) : Prop where
  ne_nil : path ≠ []
  len : path.length ≤ RAMFS_MAX_FILENAME_SIZE
  parent : ∃ name fn e, fs.getDirectoryName path = .ok (some name) ∧ trimFilename name = .ok fn ∧
    fs.entries d = some e ∧ e.filename = fn

/-- What a call of `ramfs_create_file` has achieved. -/
def CreatorOk (fs : Ramfs) (d : FPtr) (c : Creator) : Prop :=
  match c.phase with
  | .start => Unnamed fs c.filename
  | .find fn search => Unnamed fs c.filename ∧ fn = withoutSlash c.filename ∧ SearchOk fs fn search
  | .findParent fn search =>
    Unnamed fs c.filename ∧ (∃ e, fs.entries d = some e ∧ e.filename = fn) ∧
      SearchOk fs fn search ∧ Ahead fs d search
  | .insert parent => Unnamed fs c.filename ∧ parent = d
  | .storing x todo => x ≠ d ∧ todo ≠ [] ∧
      ∃ e, fs.entries x = some e ∧ e.filename = withoutSlash c.filename ∧ Stored e todo
  | .returned x => x ≠ 0 ∧ ∃ e, fs.entries x = some e ∧ e.filename = withoutSlash c.filename

/-- What holds between any two steps of a careful run. -/
structure RaceInv {κ ι : Type} (d : FPtr) (s : Race κ ι) : Prop where
  holds : ∃ t, s.fs.Holds t
  dir : ∃ e, s.fs.entries d = some e ∧ e.Ready
  found : d = s.fs.root ∨ Below s.fs d s.fs.root
  ready : ∀ i e, s.fs.entries i = some e → e.Ready ∨
    ∃ k todo, (s.creators k).phase = .storing i todo
  paths : ∀ k, PathBelow s.fs d (s.creators k).filename
  apart : ∀ k k', withoutSlash (s.creators k).filename = withoutSlash (s.creators k').filename →
    k = k'
  creators : ∀ k, CreatorOk s.fs d (s.creators k)
  lookups : ∀ i, SearchOk s.fs (s.lookups i).fn (s.lookups i).search

section Inv

variable {κ ι : Type} {d : FPtr} {s : Race κ ι} {fs fs' : Ramfs}

theorem Ramfs.Holds.sound {t : Family} (h : fs.Holds t)
    (hd : ∃ e, fs.entries d = some e) : fs.Sound := by
  have hlink : ∀ p, p = 0 ∨ p ∈ t.ids → fs.Link p := fun p hp => hp.imp_right h.linked.exists
  obtain ⟨ed, hed⟩ := hd
  refine ⟨?_, Option.eq_none_iff_forall_ne_some.mpr fun e he =>
    Nat.lt_irrefl 0 (h.addr 0 (h.all 0 e he)).1, fun i e c he hc => ?_, fun i e he => ?_⟩
  · rcases h.top with rfl | ⟨r, k, rfl⟩
    · exact absurd (h.all d ed hed) List.not_mem_nil
    · have hr : r ∈ (Family.entry r k .nil).ids := List.mem_cons_self
      rw [h.root, Family.ptr_entry]
      exact ⟨(h.addr r hr).1.ne', h.linked.exists hr⟩
  · have hc' := (h.linked.links (h.all i e he) he).1
    rw [hc, Option.getD_some] at hc'
    exact hlink c hc'
  · obtain ⟨n, hn, hn'⟩ := (h.linked.links (h.all i e he) he).2
    exact ⟨n, hn, hlink n hn'⟩

theorem RaceInv.sound (h : RaceInv d s) : s.fs.Sound := by
  obtain ⟨t, ht⟩ := h.holds
  obtain ⟨e, he, _⟩ := h.dir
  exact ht.sound ⟨e, he⟩

/-- An entry without its list has a creator that is to store it. -/
theorem RaceInv.awaits (h : RaceInv d s) {f : FPtr} {e : Fentry} (he : s.fs.entries f = some e)
    (hnone : e.children = none) : s.Awaits .children f := by
  rcases h.ready f e he with hr | ⟨k, todo, hk⟩
  · have := hr.children
    rw [hnone] at this
    cases this
  · refine ⟨k, todo, hk, ?_⟩
    by_contra hnot
    have hc := h.creators k
    rw [CreatorOk, hk] at hc
    obtain ⟨_, _, e', he', _, hstored⟩ := hc
    obtain rfl := Option.some.inj (he.symm.trans he')
    have hhas : e.children.isSome = true := hstored.has .children hnot
    rw [hnone] at hhas
    cases hhas

theorem RaceInv.listThere (h : RaceInv d s) {fn : CStr} {search : Search}
    (hc : s.CarefulSearch fn search) : ListThere s.fs fn search := fun f stack e hs he hne => by
  by_contra hnone
  exact hc f stack e hs he hne (h.awaits he (Option.not_isSome_iff_eq_none.mp hnone))

theorem getDirectoryName_congr (hroot : fs'.root = fs.root) (path : CStr) :
    fs'.getDirectoryName path = fs.getDirectoryName path := by
  rw [Ramfs.getDirectoryName, Ramfs.getDirectoryName, hroot]

theorem PathBelow.extends {path : CStr} (h : PathBelow fs d path) (hext : fs.Extends fs') :
    PathBelow fs' d path := by
  obtain ⟨name, fn, e, hdir, htrim, he, hname⟩ := h.parent
  obtain ⟨e', he', hx⟩ := hext.entry d e he
  exact ⟨h.ne_nil, h.len, name, fn, e', (getDirectoryName_congr hext.root path).trans hdir, htrim,
    he', hx.filename.trans hname⟩

/-- What a creator has achieved lasts, if its name stays free while it has no entry, and its entry
is not disturbed. -/
theorem CreatorOk.extends {c : Creator} (h : CreatorOk fs d c) (hext : fs.Extends fs')
    (h0 : fs.entries 0 = none) (hfree : Unnamed fs c.filename → Unnamed fs' c.filename)
    (hentry : ∀ x todo e, c.phase = .storing x todo → x ≠ d → fs.entries x = some e →
      e.filename = withoutSlash c.filename → Stored e todo →
      ∃ e', fs'.entries x = some e' ∧ e'.filename = e.filename ∧
          Stored e' todo) : CreatorOk fs' d c := by
  unfold CreatorOk at h ⊢
  cases hp : c.phase with
  | start =>
    rw [hp] at h
    exact hfree h
  | find fn search =>
    rw [hp] at h
    exact ⟨hfree h.1, h.2.1, h.2.2.extends hext⟩
  | findParent fn search =>
    rw [hp] at h
    obtain ⟨hun, ⟨e, he, hname⟩, hs, ha⟩ := h
    obtain ⟨e', he', hx⟩ := hext.entry d e he
    exact ⟨hfree hun, ⟨e', he', hx.filename.trans hname⟩, hs.extends hext, ha.extends h0 hext⟩
  | insert parent =>
    rw [hp] at h
    exact ⟨hfree h.1, h.2⟩
  | storing x todo =>
    rw [hp] at h
    obtain ⟨hxd, htodo, e, he, hname, hst⟩ := h
    obtain ⟨e', he', hname', hst'⟩ := hentry x todo e hp hxd he hname hst
    exact ⟨hxd, htodo, e', he', hname'.trans hname, hst'⟩
  | returned x =>
    rw [hp] at h
    obtain ⟨hx0, e, he, hname⟩ := h
    obtain ⟨e', he', hx⟩ := hext.entry x e he
    exact ⟨hx0, e', he', hx.filename.trans hname⟩

/-- The searches of a creator, and what it does with their results. -/
theorem RaceInv.next_ok (h : RaceInv d s) (k : κ) (hcareful : s.Careful (.creator k : Turn κ ι))
    (hins : ∀ p, (s.creators k).phase ≠ .insert p)
    (hst : ∀ x todo, (s.creators k).phase ≠ .storing x todo) :
    ∃ phase, (s.creators k).phase.next s.fs (s.creators k).filename = .ok phase ∧
      CreatorOk s.fs d { s.creators k with phase := phase } := by
  obtain ⟨t, ht⟩ := h.holds
  have hc := h.creators k
  have hpath := h.paths k
  rw [CreatorOk] at hc
  cases hp : (s.creators k).phase with
  | start =>
    rw [hp] at hc
    refine ⟨.find (withoutSlash (s.creators k).filename) .start, ?_, hc, rfl, trivial⟩
    rw [Phase.next, if_neg (Nat.not_lt.mpr hpath.len), trimFilename_eq hpath.ne_nil]
    rfl
  | find fn search =>
    rw [hp] at hc
    obtain ⟨hun, hfn, hs⟩ := hc
    by_cases hdone : ∃ f, search = .done f
    · obtain ⟨f, rfl⟩ := hdone
      -- nothing has the name yet
      have hf0 : f = 0 := by
        by_contra hf0
        obtain ⟨e, he, hname⟩ := hs hf0
        exact hun f e he (hname.trans hfn)
      obtain ⟨name, fn', e, hdir, htrim, he, hname⟩ := hpath.parent
      refine ⟨.findParent fn' .start, ?_, hun, ⟨e, he, hname⟩, trivial, h.found⟩
      rw [Phase.next, if_neg (not_not.mpr hf0), hdir, ok_bind]
      simp only [stored, ok_bind, htrim]
      rfl
    · refine ⟨.find fn (search.step s.fs fn), ?_, hun, hfn, step_ok h.sound hs (h.listThere ?_)⟩
      · cases search with
        | done f => exact absurd ⟨f, rfl⟩ hdone
        | _ => rfl
      · rw [Race.Careful, hp] at hcareful
        exact hcareful
  | findParent fn search =>
    rw [hp] at hc
    obtain ⟨hun, ⟨e, he, hname⟩, hs, ha⟩ := hc
    by_cases hdone : ∃ f, search = .done f
    · obtain ⟨p, rfl⟩ := hdone
      obtain ⟨e', he', hname'⟩ := hs ha
      have hpd : p = d := ht.names p d e' e he' he (hname'.trans hname.symm)
      exact ⟨.insert p, congrArg Except.ok (if_neg fun hc => ha hc.2), hun, hpd⟩
    · rw [Race.Careful, hp] at hcareful
      have hthere := h.listThere hcareful
      refine ⟨.findParent fn (search.step s.fs fn), ?_, hun, ⟨e, he, hname⟩,
        step_ok h.sound hs hthere, step_ahead h.sound hs hthere ha he hname⟩
      cases search with
      | done f => exact absurd ⟨f, rfl⟩ hdone
      | _ => rfl
  | insert p => exact absurd hp (hins p)
  | storing x todo => exact absurd hp (hst x todo)
  | returned x =>
    rw [hp] at hc
    exact ⟨.returned x, rfl, hc⟩

variable [DecidableEq κ]

/-- A step of a creator that does not write. -/
theorem RaceInv.setPhase (h : RaceInv d s) (k : κ)
    (hnot : ∀ x todo, (s.creators k).phase ≠ .storing x todo)
    {phase : Phase} (hok : CreatorOk s.fs d { s.creators k with phase := phase }) :
    RaceInv d { s with
      creators := Function.update s.creators k { s.creators k with phase := phase } } where
  holds := h.holds
  dir := h.dir
  found := h.found
  ready i e he := by
    refine (h.ready i e he).imp_right fun ⟨k', todo, hk'⟩ => ⟨k', todo, ?_⟩
    have hne : k' ≠ k := fun e => hnot i todo (e ▸ hk')
    simp only [Function.update_of_ne hne]
    exact hk'
  paths k' := by
    by_cases hk : k' = k
    · subst hk
      simp only [Function.update_self]
      exact h.paths k'
    · simp only [Function.update_of_ne hk]
      exact h.paths k'
  apart k₁ k₂ hname := by
    have hfile : ∀ k', (Function.update s.creators k
        { s.creators k with phase := phase } k').filename = (s.creators k').filename := fun k' => by
      by_cases hk : k' = k
      · subst hk
        simp
      · simp [hk]
    simp only [hfile] at hname
    exact h.apart k₁ k₂ hname
  creators k' := by
    by_cases hk : k' = k
    · subst hk
      simpa using hok
    · simp only [Function.update_of_ne hk]
      exact h.creators k'
  lookups := h.lookups

/-- The step of a creator that writes: its own entry, and what else there is. -/
theorem RaceInv.write (h : RaceInv d s) (k : κ) {fs' : Ramfs} {phase : Phase}
    (hholds : ∃ t, fs'.Holds t)
    (hext : s.fs.Extends fs') (hdir : ∀ e, s.fs.entries d = some e → e.Ready →
      ∃ e', fs'.entries d = some e' ∧ e'.Ready)
    (hready : ∀ i e, fs'.entries i = some e → e.Ready ∨
      (∃ k' todo, k' ≠ k ∧ (s.creators k').phase = .storing i todo) ∨
        ∃ todo, phase = .storing i todo)
    (hself : CreatorOk fs' d { s.creators k with phase := phase })
    (hother : ∀ k', k' ≠ k → CreatorOk fs' d (s.creators k')) :
    RaceInv d { s with
      fs := fs', creators := Function.update s.creators k
          { s.creators k with phase := phase } } := by
  have hfile : ∀ k', (Function.update s.creators k
      { s.creators k with phase := phase } k').filename = (s.creators k').filename := fun k' => by
    by_cases hk : k' = k
    · subst hk
      simp
    · simp [hk]
  obtain ⟨ed, hed, hedr⟩ := h.dir
  refine ⟨hholds, hdir ed hed hedr, ?_, fun i e he => ?_, fun k' => ?_,
    fun k₁ k₂ hname => ?_, fun k' => ?_, fun i => (h.lookups i).extends hext⟩
  · show d = fs'.root ∨ Below fs' d fs'.root
    rw [hext.root]
    exact h.found.imp_right (·.extends h.sound.null hext)
  · refine (hready i e he).imp_right fun hor => ?_
    rcases hor with ⟨k', todo, hk, hk'⟩ | ⟨todo, hphase⟩
    · exact ⟨k', todo, by simpa only [Function.update_of_ne hk] using hk'⟩
    · exact ⟨k, todo, by simpa only [Function.update_self] using hphase⟩
  · simp only [hfile]
    exact (h.paths k').extends hext
  · simp only [hfile] at hname
    exact h.apart k₁ k₂ hname
  · by_cases hk : k' = k
    · subst hk
      simpa using hself
    · simp only [Function.update_of_ne hk]
      exact hother k' hk

/-- **The insertion**, when no store to `next` is left to be made. -/
theorem RaceInv.insert_ok (h : RaceInv d s) (k : κ) {p : FPtr}
    (hp : (s.creators k).phase = .insert p)
    (hcareful : ∀ x, ¬ s.Awaits .next x) : ∃ fs' phase, insertStep s.fs (s.creators k).filename p =
      .ok (fs', phase) ∧ RaceInv d { s with
        fs := fs', creators := Function.update s.creators k
            { s.creators k with phase := phase } } := by
  obtain ⟨t, ht⟩ := h.holds
  obtain ⟨ed, hed, hedr⟩ := h.dir
  have hc := h.creators k
  rw [CreatorOk, hp] at hc
  obtain ⟨hun, rfl⟩ := hc
  obtain ⟨fs', hrun, hins⟩ := insertStep_spec ht (ht.all p ed hed) hed hedr.children
    (trimFilename_eq (h.paths k).ne_nil) hun
  have hext : s.fs.Extends fs' := ⟨hins.root, fun i e he => by
    obtain ⟨e', he', hlink⟩ := hins.old i e he
    exact ⟨e', he', hlink.extends⟩⟩
  have hbrk : s.fs.brk ≠ p := fun e => Nat.lt_irrefl _ (e ▸ (ht.addr p (ht.all p ed hed)).2)
  refine ⟨fs', _, hrun, h.write k hins.holds hext (fun e he hr => ?_) (fun i e' he' => ?_) ?_
    fun k' hk => ?_⟩
  · obtain ⟨e', he', hlink⟩ := hins.old p e he
    exact ⟨e', he', hlink.ready hr⟩
  · rcases hins.back i e' he' with rfl | ⟨e, he⟩
    · exact Or.inr (Or.inr ⟨_, rfl⟩)
    · obtain ⟨e'', he'', hlink⟩ := hins.old i e he
      obtain rfl := Option.some.inj (he'.symm.trans he'')
      rcases h.ready i e he with hr | ⟨k', todo, hk'⟩
      · exact Or.inl (hlink.ready hr)
      · refine Or.inr (Or.inl ⟨k', todo, fun e => ?_, hk'⟩)
        rw [e, hp] at hk'
        cases hk'
  · refine ⟨hbrk, nofun, _, hins.new, rfl, by decide, fun st hst => absurd ?_ hst, fun _ => rfl,
      fun _ => rfl⟩
    cases st <;> decide
  · refine (h.creators k').extends hext h.sound.null (fun hfree i e he => ?_)
      fun x todo e hx hxd he hname hst => ?_
    · rcases hins.back i e he with rfl | ⟨e₀, he₀⟩
      · obtain rfl := Option.some.inj (he.symm.trans hins.new)
        exact fun hname => hk (h.apart k' k hname.symm)
      · obtain ⟨e', he', hlink⟩ := hins.old i e₀ he₀
        obtain rfl := Option.some.inj (he.symm.trans he')
        rw [hlink.extends.filename]
        exact hfree i e₀ he₀
    · have hnext : InitStore.next ∉ todo := fun hm => hcareful x ⟨k', todo, hx, hm⟩
      obtain ⟨e', he', hlink⟩ := hins.old x e he
      refine ⟨e', he', hlink.extends.filename, ?_⟩
      cases hlink with
      | same => exact hst
      | children hxp => exact absurd hxp hxd
      | next hn =>
        refine ⟨hst.nodup, fun st hm => ?_, hst.children, fun hm => absurd hm hnext⟩
        have hhas := hst.has st hm
        cases st with
        | next => rfl
        | _ => exact hhas

/-- A store to the entry of its creator. -/
theorem Stored.apply {e : Fentry} {st : InitStore} {todo : List InitStore}
    (h : Stored e (st :: todo)) (dir : Bool) :
    Stored (st.apply dir e) todo ∧ e.Extends (st.apply dir e) ∧
    Family.SameLinks e (st.apply dir e) := by
  have hnot := (List.nodup_cons.mp h.nodup).1
  refine ⟨⟨(List.nodup_cons.mp h.nodup).2, fun st' hst' => ?_, fun hm => ?_, fun hm => ?_⟩, ?_, ?_⟩
  · rw [Fentry.has_apply, Bool.or_eq_true, decide_eq_true_iff]
    by_cases hs : st' = st
    · exact Or.inl hs
    · exact Or.inr (h.has st' fun hm => (List.mem_cons.mp hm).elim hs hst')
  · have hold := h.children (List.mem_cons_of_mem _ hm)
    cases st with
    | children => exact absurd hm hnot
    | _ => exact hold
  · have hold := h.next (List.mem_cons_of_mem _ hm)
    cases st with
    | next => exact absurd hm hnot
    | _ => exact hold
  · cases st with
    | next =>
      refine ⟨rfl, fun c hc => ⟨c, hc, fun _ => rfl⟩, fun n hn => ⟨0, rfl, fun _ => ?_⟩⟩
      exact Option.some.inj ((h.next List.mem_cons_self).symm.trans hn)
    | children =>
      refine ⟨rfl, fun c hc => ?_, fun n hn => ⟨n, hn, fun _ => rfl⟩⟩
      rw [h.children List.mem_cons_self] at hc
      cases hc
    | _ => exact ⟨rfl, fun c hc => ⟨c, hc, fun _ => rfl⟩, fun n hn => ⟨n, hn, fun _ => rfl⟩⟩
  · cases st with
    | next => exact ⟨rfl, rfl, (h.next List.mem_cons_self).symm⟩
    | children =>
      refine ⟨rfl, ?_, rfl⟩
      rw [h.children List.mem_cons_self]
      rfl
    | _ => exact ⟨rfl, rfl, rfl⟩

/-- **One of the stores** after the insertion. -/
theorem RaceInv.store_ok (h : RaceInv d s) (k : κ) {x : FPtr} {st : InitStore}
    {todo : List InitStore} (hp : (s.creators k).phase = .storing x (st :: todo)) :
    ∃ fs', s.fs.modify x (st.apply (s.creators k).dir) = .ok fs' ∧
      RaceInv d { s with
        fs := fs', creators := Function.update s.creators k
          { s.creators k with phase := if todo = [] then .returned x else .storing x todo } } := by
  obtain ⟨t, ht⟩ := h.holds
  have hc := h.creators k
  rw [CreatorOk, hp] at hc
  obtain ⟨hxd, _, e, he, hname, hstored⟩ := hc
  obtain ⟨hstored', hext', hlinks⟩ := hstored.apply (s.creators k).dir
  have hx0 : x ≠ 0 := (ht.addr x (ht.all x e he)).1.ne'
  refine ⟨_, Ramfs.modify_eq hx0 he _, ?_⟩
  have hext : s.fs.Extends (s.fs.set x (st.apply (s.creators k).dir e)) := ⟨rfl, fun i ei hi => by
    by_cases hix : i = x
    · subst hix
      obtain rfl := Option.some.inj (he.symm.trans hi)
      exact ⟨_, Ramfs.set_entries_self, hext'⟩
    · exact ⟨ei, (Ramfs.set_entries_of_ne hix).trans hi, .refl ei⟩⟩
  refine h.write k ⟨t, ht.set he hlinks hext'.filename⟩ hext (fun ed hd hr => ?_)
    (fun i ei hi => ?_) ?_ fun k' hk => ?_
  · exact ⟨ed, (Ramfs.set_entries_of_ne (Ne.symm hxd)).trans hd, hr⟩
  · by_cases hix : i = x
    · subst hix
      obtain rfl := Option.some.inj (hi.symm.trans Ramfs.set_entries_self)
      by_cases htodo : todo = []
      · subst htodo
        exact Or.inl (Fentry.ready_iff.mpr fun st' => hstored'.has st' List.not_mem_nil)
      · exact Or.inr (Or.inr ⟨todo, if_neg htodo⟩)
    · have hi' := (Ramfs.set_entries_of_ne hix).symm.trans hi
      refine (h.ready i ei hi').imp_right fun ⟨k', todo', hk'⟩ => Or.inl ⟨k', todo',
        fun e => hix ?_, hk'⟩
      rw [e, hp] at hk'
      cases hk'
      rfl
  · have hself : (s.fs.set x (st.apply (s.creators k).dir e)).entries x = some
      (st.apply (s.creators k).dir e) :=
      Ramfs.set_entries_self
    unfold CreatorOk
    by_cases htodo : todo = []
    · simp only [htodo, if_true]
      exact ⟨hx0, _, hself, hext'.filename.trans hname⟩
    · simp only [htodo, if_false]
      exact ⟨hxd, htodo, _, hself, hext'.filename.trans hname, hstored'⟩
  · refine (h.creators k').extends hext h.sound.null (fun hfree i ei hi => ?_)
      fun x' todo' e' _ _ he' hname' hst => ?_
    · by_cases hix : i = x
      · subst hix
        obtain rfl := Option.some.inj (hi.symm.trans Ramfs.set_entries_self)
        rw [hext'.filename]
        exact hfree i e he
      · exact hfree i ei ((Ramfs.set_entries_of_ne hix).symm.trans hi)
    · have hxx : x' ≠ x := fun h' => by
        subst h'
        obtain rfl := Option.some.inj (he.symm.trans he')
        exact hk (h.apart k' k (hname'.symm.trans hname))
      exact ⟨e', (Ramfs.set_entries_of_ne hxx).trans he', rfl, hst⟩

/-- **Every careful step** keeps the invariant, and none of them stops. -/
theorem carefulRace_keeps [DecidableEq ι] (d : FPtr) :
    (carefulRace : CallSystem (Race κ ι) (Turn κ ι) Stop).Keeps (fun _ => False) (RaceInv d) := by
  intro s turn h hcareful
  cases turn with
  | creator k =>
    show Post ((s.creators k).step s.fs >>= _) _ _
    unfold Creator.step
    cases hp : (s.creators k).phase with
    | insert p =>
      have hc : ∀ x, ¬ s.Awaits .next x := by
        simpa only [carefulRace, Race.Careful, hp] using hcareful
      obtain ⟨fs', phase, hrun, hinv⟩ := h.insert_ok k hp hc
      simp only [hrun, ok_bind, pure_eq_ok]
      exact Post.ok hinv
    | storing x todo =>
      cases todo with
      | nil =>
        have hc := h.creators k
        rw [CreatorOk, hp] at hc
        exact absurd rfl hc.2.1
      | cons st todo =>
        obtain ⟨fs', hrun, hinv⟩ := h.store_ok k hp
        simp only [hrun, ok_bind, pure_eq_ok]
        exact Post.ok hinv
    | _ =>
      obtain ⟨phase, hrun, hok⟩ := h.next_ok k hcareful (fun p => by rw [hp]; exact nofun)
          fun x todo => by
        rw [hp]; exact nofun
      rw [hp] at hrun
      simp only [hrun, ok_bind, pure_eq_ok]
      exact Post.ok (h.setPhase k (fun x todo => by rw [hp]; exact nofun) hok)
  | lookup i =>
    refine Post.ok ⟨h.holds, h.dir, h.found, h.ready, h.paths, h.apart, h.creators, fun j => ?_⟩
    have hc : s.CarefulSearch (s.lookups i).fn (s.lookups i).search := hcareful
    by_cases hj : j = i
    · subst hj
      simpa using step_ok h.sound (h.lookups j) (h.listThere hc)
    · simp only [Function.update_of_ne hj]
      exact h.lookups j

end Inv

end AuOs
