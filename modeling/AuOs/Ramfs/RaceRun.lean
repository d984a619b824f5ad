import Mathlib
import AuOs.Ramfs.RaceInv

/-!
# Runs of creations and searches

* `Begin` — the calls are to create distinct new names below one entry.
* `creations_meet` — after any careful run no search has gone wild, and when all calls have returned
  each of them has made an entry that `ramfs_find` finds.
* `sibling_lost` — a run that is not careful, in which an entry is lost.
-/

set_option autoImplicit false

namespace AuOs

section Runs

variable {κ ι : Type} {d : FPtr} {s : Race κ ι} {fs : Ramfs} [DecidableEq κ]

/-- The links lead to every entry of a tree. -/
theorem Family.Linked.reach {t : Family} {par i : FPtr} (h : t.Linked fs.entries par)
    (hr : Readable fs t) (hi : i ∈ t.ids) : Reach fs i t.ptr := by
  induction t generalizing par with
  | nil => cases hi
  | entry f k n ihk ihn =>
    obtain ⟨e, hf, _, hc, hnext, hk, hn⟩ := h
    rcases List.mem_cons.mp hi with rfl | hi
    · exact .here hr.ne_zero
    · rcases List.mem_append.mp hi with hi | hi
      · obtain ⟨c, hchild⟩ := Option.isSome_iff_exists.mp (hr.children f List.mem_cons_self e hf)
        rw [hchild, Option.getD_some] at hc
        subst hc
        exact .child hf hchild (ihk hk hr.children_of hi)
      · exact .next hf hnext (ihn hn hr.next_of hi)

/-- No call has taken a step: all of them are to create distinct new names below `d`. -/
structure Begin (d : FPtr) (s : Race κ ι) : Prop where
  represents : ∃ t, s.fs.Represents t
  dir : ∃ e, s.fs.entries d = some e
  start : ∀ k, (s.creators k).phase = .start
  paths : ∀ k, PathBelow s.fs d (s.creators k).filename
  new : ∀ k, Unnamed s.fs (s.creators k).filename
  apart : ∀ k k', withoutSlash (s.creators k).filename = withoutSlash (s.creators k').filename →
    k = k'
  lookups : ∀ i, (s.lookups i).search = .start

omit [DecidableEq κ] in
theorem Begin.inv (h : Begin d s) : RaceInv d s := by
  obtain ⟨t, ht⟩ := h.represents
  obtain ⟨ed, hed⟩ := h.dir
  refine ⟨⟨t, ht.toHolds⟩, ⟨ed, hed, ht.ready d ed hed⟩, ?_, fun i e he => Or.inl (ht.ready i e he),
    h.paths, h.apart, fun k => ?_, fun i => ?_⟩
  · have hd := ht.all d ed hed
    rcases ht.top with rfl | ⟨r, k, rfl⟩
    · cases hd
    · have hroot : s.fs.root = r := ht.root
      rw [hroot]
      obtain ⟨e, hf, _, hc, _, hk, _⟩ := ht.linked
      refine (List.mem_cons.mp hd).imp_right fun hm => ?_
      obtain ⟨c, hchild⟩ := Option.isSome_iff_exists.mp (ht.ready r e hf).children
      rw [hchild, Option.getD_some] at hc
      subst hc
      refine ⟨e, _, hf, hchild, hk.reach ht.readable.children_of ?_⟩
      simpa using hm
  · rw [CreatorOk, h.start k]
    exact h.new k
  · rw [h.lookups i]
    trivial

/-- The paths of the calls stay what they are. -/
theorem race_filename [DecidableEq ι] {s' : Race κ ι}
    (hrun : (carefulRace : CallSystem (Race κ ι) (Turn κ ι) Stop).Run s s') (k : κ) :
    (s'.creators k).filename = (s.creators k).filename := by
  have hkeeps : (carefulRace : CallSystem (Race κ ι) (Turn κ ι) Stop).Keeps
      (fun _ => True) fun s' =>
      ∀ k, (s'.creators k).filename = (s.creators k).filename := by
    intro s₁ turn hs₁ _
    cases turn with
    | creator k₁ =>
      have hfile : ∀ (phase : Phase) (k : κ),
          (Function.update s₁.creators k₁ { s₁.creators k₁ with phase := phase } k).filename =
            (s.creators k).filename := fun phase k => by
        by_cases hk : k = k₁
        · subst hk
          rw [Function.update_self]
          exact hs₁ k
        · rw [Function.update_of_ne hk]
          exact hs₁ k
      show Post ((s₁.creators k₁).step s₁.fs >>= _) _ _
      refine Post.bind (P := fun r : Ramfs × Creator =>
        ∃ phase, r.2 = { s₁.creators k₁ with phase := phase }) ?_ fun r hr => ?_
      · unfold Creator.step
        split
        · exact Post.any.bind fun r _ => Post.ok ⟨_, rfl⟩
        · exact Post.any.bind fun r _ => Post.ok ⟨_, rfl⟩
        · exact Post.any.bind fun r _ => Post.ok ⟨_, rfl⟩
      · obtain ⟨fs', c⟩ := r
        obtain ⟨phase, rfl⟩ := hr
        exact Post.ok (hfile phase)
    | lookup i => exact Post.ok hs₁
  exact hkeeps.run (fun _ => rfl) hrun k

/-- **Any careful run** of creations of distinct new names below one entry, and of searches: no
search follows a field that has not been stored, and when all calls have returned each of them has
made an entry that `ramfs_find` finds. -/
theorem creations_meet [DecidableEq ι] {s' : Race κ ι} (hb : Begin d s)
    (hrun : (carefulRace : CallSystem (Race κ ι) (Turn κ ι) Stop).Run s s') :
    (∀ k fn, (s'.creators k).phase ≠ .find fn .wild ∧
      (s'.creators k).phase ≠ .findParent fn .wild) ∧
    (∀ i, (s'.lookups i).search ≠ .wild) ∧
    ((∀ k, ∃ f, (s'.creators k).phase = .returned f) →
      ∀ k, ∃ f, (s'.creators k).phase = .returned f ∧ f ≠ 0 ∧
      (∃ e, s'.fs.entries f = some e ∧ e.filename = withoutSlash (s.creators k).filename) ∧
      ∀ fuel, 2 * s'.fs.brk + 2 ≤ fuel → s'.fs.ramfsFind fuel
          (some (s.creators k).filename) = .ok f) := by
  have h : RaceInv d s' := (carefulRace_keeps d).run hb.inv hrun
  refine ⟨fun k fn => ⟨fun hp => ?_, fun hp => ?_⟩, fun i hw => ?_, fun hall k => ?_⟩
  · have hc := h.creators k
    rw [CreatorOk, hp] at hc
    exact hc.2.2
  · have hc := h.creators k
    rw [CreatorOk, hp] at hc
    exact hc.2.2.1
  · have hl := h.lookups i
    rw [hw] at hl
    exact hl
  · obtain ⟨f, hf⟩ := hall k
    obtain ⟨t, ht⟩ := h.holds
    have hrep : s'.fs.Represents t := by
      refine ⟨ht, fun i e he => (h.ready i e he).resolve_right ?_⟩
      rintro ⟨k', todo, hk'⟩
      obtain ⟨f', hf'⟩ := hall k'
      rw [hf'] at hk'
      cases hk'
    have hc := h.creators k
    rw [CreatorOk, hf, race_filename hrun k] at hc
    obtain ⟨hf0, e, he, hname⟩ := hc
    obtain ⟨r, hr, hfind⟩ := ramfsFind_total hrep (hb.paths k).ne_nil
    have hself : Found s'.fs.entries t.ids (withoutSlash (s.creators k).filename) f :=
      ⟨fun _ => ⟨hrep.all f e he, e, he, hname⟩, fun h0 => absurd h0 hf0⟩
    rw [hr.unique hrep hself] at hfind
    exact ⟨f, hf, hf0, ⟨e, he, hname⟩, hfind⟩

end Runs

/-! ## Examples of runs -/

/-- The directory `a`. -/
def oneDir : Ramfs := ⟨fun f => if f = 1 then some (newEntry [97] 0 true) else none, 1, 2⟩

theorem oneDir_eq {i : FPtr} {e : Fentry} (h : oneDir.entries i = some e) : i = 1 ∧
    e = newEntry [97] 0 true := by
  simp only [oneDir, Option.ite_none_right_eq_some, Option.some.injEq] at h
  exact ⟨h.1, h.2.symm⟩

theorem oneDir_represents : oneDir.Represents (.entry 1 .nil .nil) where
  root := rfl
  linked := ⟨_, rfl, rfl, rfl, rfl, trivial, trivial⟩
  top := Or.inr ⟨1, .nil, rfl⟩
  nodup := List.nodup_singleton 1
  all i e he := List.mem_singleton.mpr (oneDir_eq he).1
  addr i hi := by
    rw [List.mem_singleton.mp hi]
    exact ⟨Nat.one_pos, Nat.one_lt_two⟩
  brk := Nat.two_pos
  names i j e e' he he' _ := (oneDir_eq he).1.trans (oneDir_eq he').1.symm
  ready i e he := by
    rw [(oneDir_eq he).2]
    exact newEntry_ready [97] 0 true

/-- Calls that create the names `path k` below `a`. -/
def creating {κ : Type} (path : κ → CStr) : Race κ Empty :=
  ⟨oneDir, fun k => ⟨path k, false, .start⟩, nofun⟩

theorem creating_begin {κ : Type} {path : κ → CStr}
    (hpath : ∀ k, ∃ c, c ≠ slash ∧ path k = [97, slash, c])
    (hinj : ∀ k k', path k = path k' → k = k') : Begin 1 (creating path) := by
  have htrim : ∀ c, c ≠ slash → withoutSlash [97, slash, c] = [97, slash, c] := fun c hc =>
    if_neg fun h => hc (Option.some.inj h)
  have hname : ∀ k, withoutSlash (path k) = path k := fun k => by
    obtain ⟨c, hc, hp⟩ := hpath k
    rw [hp, htrim c hc]
  refine ⟨⟨_, oneDir_represents⟩, ⟨_, rfl⟩, fun _ => rfl, fun k => ?_, fun k i e he hk => ?_,
    fun k k' h => ?_, nofun⟩
  · obtain ⟨c, hc, hp⟩ := hpath k
    show PathBelow oneDir 1 (path k)
    rw [hp]
    refine ⟨nofun, show 3 ≤ 256 by decide, [97], [97], _, ?_, rfl, rfl, rfl⟩
    have hs : slashLoop [97, slash, c] 0 (RAMFS_MAX_FILENAME_SIZE + 1) = 1 := by
      simp [slashLoop, hc]
    rw [Ramfs.getDirectoryName, @trimFilename_eq [97, slash, c] nofun, ok_bind, htrim c hc]
    simp only [hs]
    rfl
  · obtain ⟨c, hc, hp⟩ := hpath k
    rw [(oneDir_eq he).2] at hk
    have hk' : ([97] : CStr) = withoutSlash (path k) := hk
    rw [hname k, hp] at hk'
    cases hk'
  · exact hinj k k' ((hname k).symm.trans (h.trans (hname k')))

/-- `a/b` and `a/c`. -/
def twoPaths (k : Fin 2) : CStr := if k = 0 then [97, slash, 98] else [97, slash, 99]

theorem twoPaths_begin : Begin 1 (creating twoPaths) := by
  refine creating_begin (fun k => ?_) fun k k' hk => ?_
  · fin_cases k
    · exact ⟨98, by decide, rfl⟩
    · exact ⟨99, by decide, rfl⟩
  · fin_cases k <;> fin_cases k' <;> first | rfl | exact absurd hk (by decide)

/-- A call has no store to `next` or to `children` before it. -/
def Race.clear {κ : Type} (s : Race κ Empty) (k : κ) : Bool :=
  match (s.creators k).phase with
  | .storing _ todo => !todo.contains .next && !todo.contains .children
  | _ => true

theorem Race.clear_awaits {κ : Type} {s : Race κ Empty} (h : ∀ k, s.clear k = true)
    {st : InitStore} {x : FPtr} (hst : st = .next ∨ st = .children) : ¬ s.Awaits st x := by
  rintro ⟨k, todo, hk, hmem⟩
  have hc := h k
  rw [Race.clear, hk] at hc
  rcases hst with rfl | rfl <;> simp [hmem] at hc

/-- A step that stays clear of all stores to `next` and `children`. -/
def Race.clearTurn (s : Race (Fin 2) Empty) : Turn (Fin 2) Empty → Bool
  | .creator k =>
    match (s.creators k).phase with
    | .find _ _ => decide (∀ k, s.clear k = true)
    | .findParent _ _ => decide (∀ k, s.clear k = true)
    | .insert _ => decide (∀ k, s.clear k = true)
    | _ => true
  | .lookup i => i.elim

theorem Race.clearTurn_careful (s : Race (Fin 2) Empty) (turn : Turn (Fin 2) Empty)
    (h : s.clearTurn turn = true) : s.Careful turn := by
  cases turn with
  | creator k =>
    cases hp : (s.creators k).phase with
    | find fn search =>
      simp only [clearTurn, hp, decide_eq_true_eq] at h
      simp only [Careful, hp]
      exact fun f _ _ _ _ _ => clear_awaits h (Or.inr rfl)
    | findParent fn search =>
      simp only [clearTurn, hp, decide_eq_true_eq] at h
      simp only [Careful, hp]
      exact fun f _ _ _ _ _ => clear_awaits h (Or.inr rfl)
    | insert parent =>
      simp only [clearTurn, hp, decide_eq_true_eq] at h
      simp only [Careful, hp]
      exact fun x => clear_awaits h (Or.inl rfl)
    | _ => simp only [Careful, hp]
  | lookup i => exact i.elim

/-- Both calls search, step by step in turn; the second inserts its entry when the first has stored
`next` and `children` of its own. -/
def inTurn : List (Turn (Fin 2) Empty) :=
  (List.replicate 10 [.creator 0, .creator 1]).flatten ++
    [.creator 0, .creator 0, .creator 0, .creator 1] ++
    (List.replicate 4 [.creator 0, .creator 1]).flatten ++ [.creator 1, .creator 1]

theorem creations_meet_inTurn : ∃ s' : Race (Fin 2) Empty,
    (carefulRace : CallSystem (Race (Fin 2) Empty) (Turn (Fin 2) Empty) Stop).Run
      (creating twoPaths) s' ∧
    ((s'.creators 0).phase = .returned 2 ∧ (s'.creators 1).phase = .returned 3) ∧
    ∀ fuel, 2 * s'.fs.brk + 2 ≤ fuel → s'.fs.ramfsFind fuel (some [97, slash, 98]) = .ok 2 ∧
      s'.fs.ramfsFind fuel (some [97, slash, 99]) = .ok 3 := by
  obtain ⟨s', hrun, h0, h1⟩ := @CallSystem.exists_run _ _ _ carefulRace (creating twoPaths) _
    Race.clearTurn_careful inTurn
    (fun s' => (s'.creators 0).phase = .returned 2 ∧ (s'.creators 1).phase = .returned 3) _
      (by decide +kernel)
  have hall : ∀ k, ∃ f, (s'.creators k).phase = .returned f := by
    intro k
    fin_cases k
    · exact ⟨2, h0⟩
    · exact ⟨3, h1⟩
  have hmeet := (creations_meet twoPaths_begin hrun).2.2 hall
  obtain ⟨f, hf, _, _, hfind⟩ := hmeet 0
  obtain ⟨g, hg, _, _, hfind'⟩ := hmeet 1
  obtain rfl := Phase.returned.inj (hf.symm.trans h0)
  obtain rfl := Phase.returned.inj (hg.symm.trans h1)
  exact ⟨s', hrun, ⟨h0, h1⟩, fun fuel hfuel => ⟨hfind fuel hfuel, hfind' fuel hfuel⟩⟩

/-- Both calls insert their entries, and then make their stores. -/
def crossing : List (Turn (Fin 2) Empty) :=
  List.replicate 10 (.creator 0) ++ List.replicate 10 (.creator 1) ++ [.creator 0, .creator 1] ++
    List.replicate 6 (.creator 0) ++ List.replicate 6 (.creator 1)

/-- **A sibling is lost**: the store to `next` of `a/b` cuts off `a/c`, which was linked behind
it. -/
theorem sibling_lost : ∃ s s' : Race (Fin 2) Empty, Begin 1 s ∧
    (race : CallSystem (Race (Fin 2) Empty) (Turn (Fin 2) Empty) Stop).Run s s' ∧
    (s'.creators 0).phase = .returned 2 ∧ (s'.creators 1).phase = .returned 3 ∧
    s'.fs.ramfsFind 20 (some (s.creators 1).filename) = .ok 0 := by
  obtain ⟨s', hrun, hs'⟩ := @CallSystem.exists_run _ _ _ race (creating twoPaths) (fun _ _ => true)
    (fun _ _ _ => trivial) crossing
    (fun s' => (s'.creators 0).phase = .returned 2 ∧ (s'.creators 1).phase = .returned 3 ∧
      s'.fs.ramfsFind 20 (some [97, slash, 99]) = .ok 0) _ (by decide +kernel)
  exact ⟨creating twoPaths, s', twoPaths_begin, hrun, hs'⟩

end AuOs
