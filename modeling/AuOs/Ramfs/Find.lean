import Mathlib
import AuOs.Ramfs.Family

/-!
# The search by name

* `OutOfFuel` — the loops and the recursion stop early only for want of fuel.
* `Found` — an entry with the name, or null if there is none.
* `Ramfs.Holds` — a tree stands in memory, with distinct names, and nothing else does;
  `Ramfs.Represents` says that its entries are complete.
* `childLoop_spec`, `ramfsFind_spec` — the search, over siblings and over the whole tree.
-/

set_option autoImplicit false

namespace AuOs

/-- Fuel below the bound ran out. -/
def OutOfFuel (fuel bound : Nat) (s : Stop) : Prop := s = .hang ∧ fuel < bound

theorem OutOfFuel.mono {fuel fuel' bound bound' : Nat} {s : Stop} (h : OutOfFuel fuel bound s)
    (hle : fuel < bound → fuel' < bound') : OutOfFuel fuel' bound' s := ⟨h.1, hle h.2⟩

/-- The result of a search for `filename` among the entries `ids`. -/
structure Found (entries : FPtr → Option Fentry) (ids : List FPtr) (filename : CStr)
    (r : FPtr) : Prop where
  entry : r ≠ 0 → r ∈ ids ∧ ∃ e, entries r = some e ∧ e.filename = filename
  none : r = 0 → ∀ i ∈ ids, ∀ e, entries i = some e → e.filename ≠ filename

/-- All fields have been stored. -/
structure Fentry.Ready (e : Fentry) : Prop where
  next : e.next.isSome
  children : e.children.isSome
  contents : e.contents.isSome
  size : e.size.isSome
  isDir : e.isDir.isSome
  mtx : e.mtx.isSome

/-- The tree stands in memory, and nothing else does. -/
structure Ramfs.Holds (fs : Ramfs) (t : Family) : Prop where
  root : fs.root = t.ptr
  linked : t.Linked fs.entries 0
  top : t = .nil ∨ ∃ r k, t = .entry r k .nil
  nodup : t.ids.Nodup
  all : ∀ i e, fs.entries i = some e → i ∈ t.ids
  addr : ∀ i ∈ t.ids, 0 < i ∧ i < fs.brk
  brk : 0 < fs.brk
  names : ∀ i j e e', fs.entries i = some e → fs.entries j = some e' →
    e.filename = e'.filename → i = j

/-- The tree stands in memory, and its entries are complete. -/
structure Ramfs.Represents (fs : Ramfs) (t : Family) : Prop extends fs.Holds t where
  ready : ∀ i e, fs.entries i = some e → e.Ready

section Search

variable {fs : Ramfs} {t k n : Family} {par f : FPtr} {filename : CStr}

theorem get_some {e : Fentry} (hf : f ≠ 0) (he : fs.entries f = some e) : fs.get f = .ok e := by
  rw [Ramfs.get, if_neg hf, he]
  rfl

/-- The fields that the search follows have been stored. -/
structure Readable (fs : Ramfs) (t : Family) : Prop where
  addr : 0 ∉ t.ids
  children : ∀ i ∈ t.ids, ∀ e, fs.entries i = some e → e.children.isSome

theorem Readable.children_of (h : Readable fs (.entry f k n)) : Readable fs k where
  addr hm := h.addr (List.mem_cons_of_mem _ (List.mem_append_left _ hm))
  children i hi := h.children i (List.mem_cons_of_mem _ (List.mem_append_left _ hi))

theorem Readable.next_of (h : Readable fs (.entry f k n)) : Readable fs n where
  addr hm := h.addr (List.mem_cons_of_mem _ (List.mem_append_right _ hm))
  children i hi := h.children i (List.mem_cons_of_mem _ (List.mem_append_right _ hi))

theorem Readable.ne_zero (h : Readable fs (.entry f k n)) : f ≠ 0 := fun e =>
  h.addr (e ▸ List.mem_cons_self)

/-- `fentry_list_find_with_name`. -/
theorem listFind_spec (h : t.Linked fs.entries par) (hr : Readable fs t) (fuel : Nat) :
    Post (Ramfs.listFind fuel fs t.ptr filename) (OutOfFuel fuel (t.ids.length + 1)) fun p =>
      p ≠ 0 → p ∈ t.ids ∧ ∃ e, fs.entries p = some e ∧ e.filename = filename := by
  induction t generalizing par fuel with
  | nil =>
    cases fuel with
    | zero => exact Post.error ⟨rfl, by simp⟩
    | succ fuel => exact Post.ok fun hne => absurd rfl hne
  | entry f k n _ ih =>
    cases fuel with
    | zero => exact Post.error ⟨rfl, by simp⟩
    | succ fuel =>
      obtain ⟨e, hf, _, _, hnext, _, hn⟩ := h
      rw [Family.ptr_entry, Ramfs.listFind, if_neg hr.ne_zero, get_some hr.ne_zero hf, ok_bind]
      by_cases heq : fentryEqualsFilename e filename = true
      · rw [if_pos heq]
        exact Post.ok fun _ => ⟨List.mem_cons_self, e, hf, fentryEqualsFilename_iff.mp heq⟩
      · rw [if_neg heq, hnext]
        refine ((ih hn hr.next_of fuel).mono fun p hp hne => ?_).weaken fun s hs =>
          hs.mono fun hlt => ?_
        · obtain ⟨hm, he⟩ := hp hne
          exact ⟨List.mem_cons_of_mem _ (List.mem_append_right _ hm), he⟩
        · simp only [Family.ids_entry, List.length_cons, List.length_append]
          omega

/-- `ramfs_find_recursive`, given the loop over the entries below. -/
theorem findRecursive_spec {e : Fentry} (hf : fs.entries f = some e) (hf0 : f ≠ 0)
    (hfirst : e.children = some k.ptr) (hk : k.Linked fs.entries f) (hr : Readable fs k)
    (ih : ∀ fuel, Post (Ramfs.childLoop fuel fs k.ptr filename)
      (OutOfFuel fuel (2 * k.ids.length + 1)) (Found fs.entries k.ids filename)) (fuel : Nat) :
    Post (Ramfs.findRecursive fuel fs f filename) (OutOfFuel fuel (2 * k.ids.length + 2))
      (Found fs.entries (f :: k.ids) filename) := by
  cases fuel with
  | zero => exact Post.error ⟨rfl, by omega⟩
  | succ fuel =>
    rw [Ramfs.findRecursive, get_some hf0 hf, ok_bind]
    by_cases heq : fentryEqualsFilename e filename = true
    · rw [if_pos heq]
      exact Post.ok ⟨fun _ => ⟨List.mem_cons_self, e, hf, fentryEqualsFilename_iff.mp heq⟩,
          fun h0 =>
        absurd h0 hf0⟩
    · rw [if_neg heq, hfirst]
      refine (((listFind_spec hk hr fuel).weaken fun s hs => hs.mono fun hlt => ?_)).bind
        fun p hp => ?_
      · omega
      by_cases hp0 : p ≠ 0
      · rw [if_pos hp0]
        obtain ⟨hm, he⟩ := hp hp0
        exact Post.ok ⟨fun _ => ⟨List.mem_cons_of_mem _ hm, he⟩, fun h0 => absurd h0 hp0⟩
      · rw [if_neg hp0]
        refine ((ih fuel).mono fun r hfound => ⟨fun hne => ?_, fun h0 i hi e' he' => ?_⟩).weaken
          fun s hs => hs.mono fun hlt => by omega
        · obtain ⟨hm, he⟩ := hfound.entry hne
          exact ⟨List.mem_cons_of_mem _ hm, he⟩
        · rcases List.mem_cons.mp hi with rfl | hi
          · obtain rfl := Option.some.inj (hf.symm.trans he')
            exact fun h => heq (fentryEqualsFilename_iff.mpr h)
          · exact hfound.none h0 i hi e' he'

/-- **The search through siblings** and all that is below them. -/
theorem childLoop_spec (h : t.Linked fs.entries par) (hr : Readable fs t) (fuel : Nat) :
    Post (Ramfs.childLoop fuel fs t.ptr filename) (OutOfFuel fuel (2 * t.ids.length + 1))
      (Found fs.entries t.ids filename) := by
  induction t generalizing par fuel with
  | nil =>
    cases fuel with
    | zero => exact Post.error ⟨rfl, by simp⟩
    | succ fuel => exact Post.ok ⟨fun hne => absurd rfl hne,
      fun _ i hi => absurd hi List.not_mem_nil⟩
  | entry f k n ihk ihn =>
    cases fuel with
    | zero => exact Post.error ⟨rfl, by simp⟩
    | succ fuel =>
      obtain ⟨e, hf, _, hc, hnext, hk, hn⟩ := h
      obtain ⟨c, hchild⟩ := Option.isSome_iff_exists.mp (hr.children f List.mem_cons_self e hf)
      have hfirst : e.children = some k.ptr := by
        rw [hchild, Option.getD_some] at hc
        rw [hchild, hc]
      rw [Family.ptr_entry, Ramfs.childLoop, if_neg hr.ne_zero]
      refine ((findRecursive_spec hf hr.ne_zero hfirst hk hr.children_of
        (fun fuel => ihk hk hr.children_of fuel) fuel).weaken fun s hs =>
          hs.mono fun hlt => ?_).bind
        fun pp hpp => ?_
      · simp only [Family.ids_entry, List.length_cons, List.length_append]
        omega
      by_cases hpp0 : pp ≠ 0
      · rw [if_pos hpp0]
        obtain ⟨hm, he⟩ := hpp.entry hpp0
        refine Post.ok ⟨fun _ => ⟨?_, he⟩, fun h0 => absurd h0 hpp0⟩
        rw [Family.ids_entry, ← List.cons_append]
        exact List.mem_append_left _ hm
      · rw [if_neg hpp0, get_some hr.ne_zero hf, ok_bind, hnext]
        refine ((ihn hn hr.next_of fuel).weaken fun s hs => hs.mono fun hlt => ?_).mono
            fun r hfound =>
          ⟨fun hne => ?_, fun h0 i hi e' he' => ?_⟩
        · simp only [Family.ids_entry, List.length_cons, List.length_append]
          omega
        · obtain ⟨hm, he⟩ := hfound.entry hne
          exact ⟨List.mem_cons_of_mem _ (List.mem_append_right _ hm), he⟩
        · rw [Family.ids_entry, ← List.cons_append] at hi
          rcases List.mem_append.mp hi with hi | hi
          · exact hpp.none (not_not.mp hpp0) i hi e' he'
          · exact hfound.none h0 i hi e' he'

theorem Ramfs.Represents.readable (h : fs.Represents t) : Readable fs t where
  addr hm := Nat.lt_irrefl 0 (h.addr 0 hm).1
  children i _ e he := (h.ready i e he).children

theorem Ramfs.Represents.root_eq_zero (h : fs.Represents t) : fs.root = 0 ↔ t = .nil := by
  rw [h.root]
  cases t with
  | nil => exact iff_of_true rfl rfl
  | entry f k n => exact iff_of_false h.readable.ne_zero nofun

/-- **`ramfs_find`** of the path whose trimmed form is `fn`. -/
theorem ramfsFind_spec (h : fs.Represents t) {fn : CStr} (htrim : trimFilename filename = .ok fn)
    (fuel : Nat) : Post (Ramfs.ramfsFind fuel fs (some filename)) (OutOfFuel fuel (2 * fs.brk + 2))
      (Found fs.entries t.ids fn) := by
  unfold Ramfs.ramfsFind
  rcases h.top with rfl | ⟨r, k, rfl⟩
  · rw [if_pos (h.root_eq_zero.mpr rfl)]
    exact Post.ok ⟨fun hne => absurd rfl hne, fun _ i hi => absurd hi List.not_mem_nil⟩
  · have hr := h.readable
    have hroot : fs.root = r := h.root
    obtain ⟨e, hf, _, hc, _, hk, _⟩ := h.linked
    obtain ⟨c, hchild⟩ := Option.isSome_iff_exists.mp (h.ready r e hf).children
    have hfirst : e.children = some k.ptr := by
      rw [hchild, Option.getD_some] at hc
      rw [hchild, hc]
    rw [hroot, if_neg hr.ne_zero]
    simp only [stored, ok_bind, htrim]
    rw [get_some hr.ne_zero hf, ok_bind]
    by_cases heq : fentryEqualsFilename e fn = true
    · rw [if_pos heq]
      exact Post.ok ⟨fun _ => ⟨List.mem_cons_self, e, hf, fentryEqualsFilename_iff.mp heq⟩,
          fun h0 =>
        absurd h0 hr.ne_zero⟩
    · rw [if_neg heq]
      have hids : (Family.entry r k .nil).ids = r :: k.ids := by simp
      rw [hids]
      have hlen : k.ids.length ≤ fs.brk := by
        have hsub : k.ids ⊆ List.range fs.brk := fun i hi =>
          List.mem_range.mpr (h.addr i (List.mem_cons_of_mem _ (List.mem_append_left _ hi))).2
        have hn := h.nodup
        rw [hids, List.nodup_cons] at hn
        simpa using (List.subperm_of_subset hn.2 hsub).length_le
      refine (findRecursive_spec hf hr.ne_zero hfirst hk hr.children_of
        (fun fuel => childLoop_spec hk hr.children_of fuel) fuel).weaken fun s hs =>
          hs.mono fun hlt => ?_
      omega

end Search

end AuOs
