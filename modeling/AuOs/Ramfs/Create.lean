import Mathlib
import AuOs.Ramfs.Find

/-!
# The creation of an entry

* `fentryListAdd_spec` — the two stores that link a new entry into its directory.
* `Created` — what `fentry_create` does to the entries.
* `fentryCreate_root`, `fentryCreate_below` — a new entry joins the tree, or the tree is unchanged.
-/

set_option autoImplicit false

namespace AuOs

/-! ## Single writes -/

namespace Ramfs

variable {fs : Ramfs} {f i : FPtr} {e e' : Fentry}

@[simp] theorem set_entries_self : (fs.set f e).entries f = some e := Function.update_self ..

theorem set_entries_of_ne (h : i ≠ f) : (fs.set f e).entries i = fs.entries i :=
  Function.update_of_ne h ..

@[simp] theorem set_root : (fs.set f e).root = fs.root := rfl

@[simp] theorem set_brk : (fs.set f e).brk = fs.brk := rfl

@[simp] theorem set_set : (fs.set f e).set f e' = fs.set f e' := by
  simp [set]

theorem modify_eq (hf : f ≠ 0) (he : fs.entries f = some e) (g : Fentry → Fentry) :
    fs.modify f g = .ok (fs.set f (g e)) := by
  rw [modify, get_some hf he]
  rfl

/-- A write that keeps the links keeps the tree. -/
theorem linked_set {t : Family} {par : FPtr} (h : t.Linked fs.entries par)
    (he : fs.entries f = some e)
    (hs : Family.SameLinks e e') : t.Linked (fs.set f e').entries par := by
  refine h.frame fun i _ ei hi => ?_
  by_cases hif : i = f
  · subst hif
    obtain rfl := Option.some.inj (he.symm.trans hi)
    exact ⟨e', set_entries_self, hs⟩
  · exact ⟨ei, (set_entries_of_ne hif).trans hi, rfl, rfl, rfl⟩

end Ramfs

/-! ## Linking -/

section Add

variable {fs : Ramfs} {t k : Family} {par d x : FPtr} {filename : CStr}

theorem Family.Linked.childrenOf (h : t.Linked fs.entries par) (hd : d ∈ t.ids) {e : Fentry}
    (he : fs.entries d = some e) :
    e.children.getD 0 = (t.childrenOf d).ptr ∧ (t.childrenOf d).Linked fs.entries d := by
  induction t generalizing par with
  | nil => cases hd
  | entry f k n ihk ihn =>
    obtain ⟨ef, hf, _, hc, _, hk, hn⟩ := h
    rw [Family.childrenOf]
    by_cases hfd : f = d
    · subst hfd
      obtain rfl := Option.some.inj (hf.symm.trans he)
      rw [if_pos rfl]
      exact ⟨hc, hk⟩
    · rw [if_neg hfd]
      by_cases hdk : d ∈ k.ids
      · rw [if_pos hdk]
        exact ihk hk hdk
      · rw [if_neg hdk]
        refine ihn hn ?_
        exact ((List.mem_append.mp ((List.mem_cons.mp hd).resolve_left (Ne.symm hfd))).resolve_left
          hdk)

/-- `while (it)` ends at the last sibling if none has the name. -/
theorem listAddLoop_spec (h : k.Linked fs.entries par) (h0 : 0 ∉ k.ids)
    (hnew : ∀ i ∈ k.ids, ∀ e, fs.entries i = some e → e.filename ≠ filename)
    (last : FPtr) (fuel : Nat) :
    Post (Ramfs.listAddLoop fuel fs k.ptr last filename) (OutOfFuel fuel (k.ids.length + 1))
      (· = some (k.lastSibling last)) := by
  induction k generalizing par last fuel with
  | nil =>
    cases fuel with
    | zero => exact Post.error ⟨rfl, by simp⟩
    | succ fuel => exact Post.ok rfl
  | entry f k n _ ih =>
    cases fuel with
    | zero => exact Post.error ⟨rfl, by simp⟩
    | succ fuel =>
      obtain ⟨e, hf, _, _, hnext, _, hn⟩ := h
      have hf0 : f ≠ 0 := fun hz => h0 (hz ▸ List.mem_cons_self)
      have hne : ¬ fentryEqualsFilename e filename = true := fun heq =>
        hnew f List.mem_cons_self e hf (fentryEqualsFilename_iff.mp heq)
      rw [Family.ptr_entry, Ramfs.listAddLoop, if_neg hf0, get_some hf0 hf, ok_bind,
        if_neg hne, hnext]
      refine (ih hn (fun hm => h0 (List.mem_cons_of_mem _ (List.mem_append_right _ hm)))
        (fun i hi => hnew i (List.mem_cons_of_mem _ (List.mem_append_right _ hi))) f fuel).weaken
        fun s hs => hs.mono fun hlt => ?_
      simp only [Family.ids_entry, List.length_cons, List.length_append]
      omega

theorem childrenOf_length : ∀ (t : Family), (t.childrenOf d).ids.length ≤ t.ids.length
  | .nil => le_rfl
  | .entry f k n => by
    have hk := childrenOf_length k
    have hn := childrenOf_length n
    simp only [Family.childrenOf, Family.ids_entry, List.length_cons, List.length_append]
    split
    · omega
    · split <;> omega

/-- **`fentry_list_add`** of a new name: the entry gets no sibling after it, and is linked. -/
theorem fentryListAdd_spec {ed ex : Fentry} (h : t.Linked fs.entries par) (h0 : 0 ∉ t.ids)
    (hd : d ∈ t.ids)
    (hed : fs.entries d = some ed) (hc : ed.children.isSome)
    (hx : fs.entries x = some ex) (hx0 : x ≠ 0)
    (hxt : x ∉ t.ids) (hnew : ∀ i ∈ t.ids, ∀ e, fs.entries i = some e → e.filename ≠ ex.filename)
    (fuel : Nat) :
    ∃ es, fs.entries (t.slot d) = some es ∧
      Post (Ramfs.fentryListAdd fuel fs d x) (OutOfFuel fuel (t.ids.length + 1)) (· =
        ((fs.set x { ex with next := some 0 }).set (t.slot d)
            (Family.linkChild (t.childrenOf d) x es), x)) := by
  have hmem := Family.slot_mem hd
  obtain ⟨es, hes⟩ := h.exists hmem
  refine ⟨es, hes, ?_⟩
  obtain ⟨hptr, hlinked⟩ := h.childrenOf hd hed
  obtain ⟨c, hchild⟩ := Option.isSome_iff_exists.mp hc
  rw [hchild, Option.getD_some] at hptr
  have hd0 : d ≠ 0 := fun e => h0 (e ▸ hd)
  have hsx : t.slot d ≠ x := fun e => hxt (e ▸ hmem)
  have hs0 : t.slot d ≠ 0 := fun e => h0 (e ▸ hmem)
  have hes' := (@Ramfs.set_entries_of_ne fs _ _ { ex with next := some 0 } hsx).trans hes
  rw [Ramfs.fentryListAdd, get_some hd0 hed, ok_bind, hchild]
  simp only [stored, ok_bind]
  rw [Ramfs.modify_eq hx0 hx, ok_bind, hptr]
  cases hk : t.childrenOf d with
  | nil =>
    have hslot : t.slot d = d := by rw [Family.slot, hk, if_pos rfl]
    rw [hslot] at hes' ⊢
    rw [Family.ptr, if_pos rfl, Ramfs.modify_eq hd0 hes', ok_bind]
    exact Post.ok rfl
  | entry f k n =>
    have hslot : t.slot d = (Family.entry f k n).lastSibling 0 := by
      rw [Family.slot, hk, if_neg (fun h => by cases h)]
    rw [hk] at hlinked
    have hids : ∀ i ∈ (Family.entry f k n).ids, i ∈ t.ids :=
      fun i hi => Family.childrenOf_ids (hk ▸ hi)
    have hf0 : f ≠ 0 := fun e => h0 (e ▸ hids f List.mem_cons_self)
    have hsame : ∀ i ∈ (Family.entry f k n).ids,
        (fs.set x { ex with next := some 0 }).entries i = fs.entries i := fun i hi =>
      Ramfs.set_entries_of_ne fun e => hxt (e ▸ hids i hi)
    have hloop := @listAddLoop_spec (fs.set x { ex with next := some 0 }) _ _ ex.filename
      (hlinked.congr hsame) (fun hm => h0 (hids 0 hm))
      (fun i hi e he => hnew i (hids i hi) e ((hsame i hi).symm.trans he)) 0 fuel
    rw [Family.ptr_entry, if_neg hf0, get_some hx0 Ramfs.set_entries_self, ok_bind]
    refine (hloop.weaken fun s hs => hs.mono fun hlt => ?_).bind fun last hlast => ?_
    · have := childrenOf_length (d := d) t
      rw [hk] at this
      omega
    · subst hlast
      rw [← hslot]
      simp only
      rw [Ramfs.modify_eq hs0 hes', ok_bind]
      exact Post.ok rfl

end Add

/-! ## Creation -/

/-- The entry has a list that is not empty. -/
def Fentry.HasChildren (e : Fentry) : Prop := e.children.getD 0 ≠ 0

instance (e : Fentry) : Decidable e.HasChildren := inferInstanceAs (Decidable (_ ≠ _))

/-- What the writes to a linked entry leave alone. -/
structure Fentry.Kept (e e' : Fentry) : Prop where
  filename : e'.filename = e.filename
  isDir : e'.isDir = e.isDir
  ready : e.Ready → e'.Ready

theorem Fentry.Kept.refl (e : Fentry) : e.Kept e := ⟨rfl, rfl, id⟩

/-- The entries of `fs` are still there; those of `P` have children now. -/
def Grown (fs fs' : Ramfs) (P : FPtr → Prop) : Prop :=
  ∀ i e, fs.entries i = some e → ∃ e', fs'.entries i = some e' ∧ e.Kept e' ∧
    (e'.HasChildren ↔ e.HasChildren ∨ P i)

theorem Grown.trans {fs fs' fs'' : Ramfs} {P Q R : FPtr → Prop} (h : Grown fs fs' P)
    (h' : Grown fs' fs'' Q) (hR : ∀ i, R i ↔ P i ∨ Q i) : Grown fs fs'' R := fun i e he => by
  obtain ⟨e', he', hk, hc⟩ := h i e he
  obtain ⟨e'', he'', hk', hc'⟩ := h' i e' he'
  refine ⟨e'', he'', ⟨hk'.filename.trans hk.filename, hk'.isDir.trans hk.isDir, fun hr =>
    hk'.ready (hk.ready hr)⟩, ?_⟩
  rw [hc', hc, hR, or_assoc]

theorem Grown.set {fs : Ramfs} {f : FPtr} {e e' : Fentry} (he : fs.entries f = some e)
    (hk : e.Kept e')
    {P : FPtr → Prop} (hP : ∀ i, i ≠ f → ¬ P i) (hc : e'.HasChildren ↔ e.HasChildren ∨ P f) :
    Grown fs (fs.set f e') P := fun i ei hi => by
  by_cases hif : i = f
  · subst hif
    obtain rfl := Option.some.inj (he.symm.trans hi)
    exact ⟨e', Ramfs.set_entries_self, hk, hc⟩
  · exact ⟨ei, (Ramfs.set_entries_of_ne hif).trans hi, .refl ei, by simp [hP i hif]⟩

/-- A write outside of the entries. -/
theorem Grown.set_new {fs : Ramfs} {f : FPtr} {e' : Fentry} (hf : fs.entries f = none) :
    Grown fs (fs.set f e') fun _ => False := fun i e he => by
  have hif : i ≠ f := fun h => by rw [h, hf] at he; cases he
  exact ⟨e, (Ramfs.set_entries_of_ne hif).trans he, .refl e, by simp⟩

/-- A new entry `x` below `d`. -/
structure Created (fs fs' : Ramfs) (d x : FPtr) (fn : CStr) (dir : Bool) : Prop where
  new : ∃ e, fs'.entries x = some e ∧ e.filename = fn ∧ e.parent = d ∧ e.isDir = some dir ∧
    ¬ e.HasChildren ∧ e.Ready
  old : Grown fs fs' (· = d)
  only : ∀ i e', fs'.entries i = some e' → i = x ∨ ∃ e, fs.entries i = some e

/-- The entry after all stores of `fentry_create`. -/
def newEntry (fn : CStr) (d : FPtr) (dir : Bool) : Fentry :=
  ⟨fn, d, some 0, some 0, some [], some 0, some dir, some false⟩

theorem newEntry_ready (fn : CStr) (d : FPtr) (dir : Bool) : (newEntry fn d dir).Ready :=
  ⟨rfl, rfl, rfl, rfl, rfl, rfl⟩

theorem initEntry_eq {fs : Ramfs} {x : FPtr} {e : Fentry} (hx : x ≠ 0) (he : fs.entries x = some e)
    (dir : Bool) : fs.initEntry x dir = .ok (fs.set x (newEntry e.filename e.parent dir)) := by
  rw [Ramfs.initEntry, InitStore.all]
  simp only [List.foldlM_cons, List.foldlM_nil]
  rw [Ramfs.modify_eq hx he]
  simp only [ok_bind, Ramfs.modify_eq hx Ramfs.set_entries_self, Ramfs.set_set]
  rfl

section Create

variable {fs : Ramfs} {t : Family} {d : FPtr} {path fn : CStr} {dir : Bool}

theorem Ramfs.Holds.brk_notMem (h : fs.Holds t) : fs.brk ∉ t.ids := fun hm =>
  Nat.lt_irrefl _ (h.addr _ hm).2

/-- **The tree after a new entry**, whose name is new. -/
theorem Ramfs.Holds.add {fs' : Ramfs} {t' : Family} (h : fs.Holds t)
    (hold : ∀ i e, fs.entries i = some e → ∃ e', fs'.entries i = some e' ∧ e'.filename = e.filename)
    (hback : ∀ i e', fs'.entries i = some e' → i = fs.brk ∨ ∃ e, fs.entries i = some e)
    (hx : ∃ e, fs'.entries fs.brk = some e ∧ e.filename = fn)
    (hnew : ∀ i e, fs.entries i = some e → e.filename ≠ fn) (hroot : fs'.root = t'.ptr)
    (hlinked : t'.Linked fs'.entries 0) (htop : ∃ r k, t' = .entry r k .nil)
    (hids : t'.ids.Perm (fs.brk :: t.ids)) (hbrk : fs'.brk = fs.brk + 1) : fs'.Holds t' where
  root := hroot
  linked := hlinked
  top := Or.inr htop
  nodup := hids.nodup_iff.mpr (List.nodup_cons.mpr ⟨h.brk_notMem, h.nodup⟩)
  all i e he := hids.mem_iff.mpr <| by
    rcases hback i e he with rfl | ⟨e, he⟩
    · exact List.mem_cons_self
    · exact List.mem_cons_of_mem _ (h.all i e he)
  addr i hi := by
    rw [hbrk]
    rcases List.mem_cons.mp (hids.mem_iff.mp hi) with rfl | hi
    · exact ⟨h.brk, Nat.lt_succ_self _⟩
    · exact ⟨(h.addr i hi).1, (h.addr i hi).2.trans (Nat.lt_succ_self _)⟩
  brk := by
    rw [hbrk]
    exact Nat.succ_pos _
  names i j e e' hi hj hname := by
    obtain ⟨ex, hx, hxn⟩ := hx
    have hname_old : ∀ i e, i ≠ fs.brk → fs'.entries i = some e → ∃ e₀, fs.entries i = some e₀ ∧
        e.filename = e₀.filename := fun i e hne he => by
      obtain ⟨e₀, he₀⟩ := (hback i e he).resolve_left hne
      obtain ⟨e₁, he₁, hfile⟩ := hold i e₀ he₀
      obtain rfl := Option.some.inj (he.symm.trans he₁)
      exact ⟨e₀, he₀, hfile⟩
    by_cases hib : i = fs.brk <;> by_cases hjb : j = fs.brk
    · rw [hib, hjb]
    · subst hib
      obtain ⟨e₀, he₀, hn⟩ := hname_old j e' hjb hj
      obtain rfl := Option.some.inj (hi.symm.trans hx)
      exact absurd (hn.symm.trans (hname.symm.trans hxn)) (hnew j e₀ he₀)
    · subst hjb
      obtain ⟨e₀, he₀, hn⟩ := hname_old i e hib hi
      obtain rfl := Option.some.inj (hj.symm.trans hx)
      exact absurd (hn.symm.trans (hname.trans hxn)) (hnew i e₀ he₀)
    · obtain ⟨e₀, he₀, hn⟩ := hname_old i e hib hi
      obtain ⟨e₁, he₁, hn'⟩ := hname_old j e' hjb hj
      exact h.names i j e₀ e₁ he₀ he₁ (hn.symm.trans (hname.trans hn'))

/-- A write that keeps the links and the name of an entry. -/
theorem Ramfs.Holds.set {f : FPtr} {e e' : Fentry} (h : fs.Holds t) (he : fs.entries f = some e)
    (hs : Family.SameLinks e e') (hname : e'.filename = e.filename) : (fs.set f e').Holds t := by
  have hold : ∀ i e₁, (fs.set f e').entries i = some e₁ →
      ∃ e₀, fs.entries i = some e₀ ∧ e₁.filename = e₀.filename := fun i e₁ hi => by
    by_cases hif : i = f
    · subst hif
      obtain rfl := Option.some.inj (hi.symm.trans Ramfs.set_entries_self)
      exact ⟨e, he, hname⟩
    · exact ⟨e₁, (Ramfs.set_entries_of_ne hif).symm.trans hi, rfl⟩
  refine ⟨h.root, Ramfs.linked_set h.linked he hs, h.top, h.nodup, fun i e₁ hi => ?_, h.addr, h.brk,
    fun i j e₁ e₂ hi hj heq => ?_⟩
  · obtain ⟨e₀, he₀, _⟩ := hold i e₁ hi
    exact h.all i e₀ he₀
  · obtain ⟨a, ha, hna⟩ := hold i e₁ hi
    obtain ⟨b, hb, hnb⟩ := hold j e₂ hj
    exact h.names i j a b ha hb (hna.symm.trans (heq.trans hnb))

theorem Ramfs.Represents.created {fs' : Ramfs} {t' : Family} (h : fs.Represents t)
    (hc : Created fs fs' d fs.brk fn dir) (hnew : ∀ i e, fs.entries i = some e → e.filename ≠ fn)
    (hroot : fs'.root = t'.ptr) (hlinked : t'.Linked fs'.entries 0)
    (htop : ∃ r k, t' = .entry r k .nil)
    (hids : t'.ids.Perm (fs.brk :: t.ids)) (hbrk : fs'.brk = fs.brk + 1) : fs'.Represents t' where
  toHolds := by
    obtain ⟨ex, hx, hxn, _⟩ := hc.new
    refine h.toHolds.add (fun i e he => ?_) hc.only ⟨ex, hx, hxn⟩ hnew hroot hlinked htop hids hbrk
    obtain ⟨e', he', hk, _⟩ := hc.old i e he
    exact ⟨e', he', hk.filename⟩
  ready i e he := by
    rcases hc.only i e he with rfl | ⟨e', he'⟩
    · obtain ⟨e', he', _, _, _, _, hready⟩ := hc.new
      obtain rfl := Option.some.inj (he.symm.trans he')
      exact hready
    · obtain ⟨e'', he'', hkept, _⟩ := hc.old i e' he'
      obtain rfl := Option.some.inj (he.symm.trans he'')
      exact hkept.ready (h.ready i e' he')

/-- The first entry. -/
theorem fentryCreate_root (h : fs.Represents .nil)
    (htrim : trimFilename path = .ok fn) (fuel : Nat) :
    ∃ fs' t', Ramfs.fentryCreate fuel fs path 0 dir = .ok (fs', fs.brk) ∧ fs'.Represents t' ∧
      Created fs fs' 0 fs.brk fn dir := by
  have hroot : fs.root = 0 := h.root
  have hnone : ∀ i e, fs.entries i ≠ some e := fun i e he => List.not_mem_nil (h.all i e he)
  have hb0 : fs.brk ≠ 0 := Nat.pos_iff_ne_zero.mp h.brk
  let fs' : Ramfs := { fs.set fs.brk (newEntry fn 0 dir) with root := fs.brk, brk := fs.brk + 1 }
  have hself : fs'.entries fs.brk = some (newEntry fn 0 dir) := Ramfs.set_entries_self
  have hc : Created fs fs' 0 fs.brk fn dir := by
    refine ⟨⟨_, hself, rfl, rfl, rfl, not_not.mpr rfl, newEntry_ready _ _ _⟩, fun i e he =>
      absurd he (hnone i e), fun i e' he => or_iff_not_imp_left.mpr fun hne => ⟨e', ?_⟩⟩
    exact (Ramfs.set_entries_of_ne hne).symm.trans he
  refine ⟨fs', .entry fs.brk .nil .nil, ?_, h.created hc (fun i e he =>
    absurd he (hnone i e)) rfl ?_ ⟨_, _, rfl⟩ (List.Perm.refl _) rfl, hc⟩
  · rw [Ramfs.fentryCreate, htrim, ok_bind, if_pos ⟨rfl, hroot⟩]
    have hinit := @initEntry_eq { fs.allocEntry fn 0 with root := fs.brk } _
      ⟨fn, 0, none, none, none, none, none, none⟩ hb0 (Function.update_self ..) dir
    simp only at hinit ⊢
    rw [hinit]
    simp only [ok_bind, pure_eq_ok, Ramfs.allocEntry, Ramfs.set, Function.update_idem]
    rfl
  · exact ⟨_, hself, rfl, rfl, rfl, trivial, trivial⟩

theorem linkChild_kept {k : Family} {x : FPtr} (e : Fentry) : e.Kept (Family.linkChild k x e) := by
  unfold Family.linkChild
  split
  · exact ⟨rfl, rfl, fun h => ⟨h.next, rfl, h.contents, h.size, h.isDir, h.mtx⟩⟩
  · exact ⟨rfl, rfl, fun h => ⟨rfl, h.children, h.contents, h.size, h.isDir, h.mtx⟩⟩

theorem setMtx_kept {e : Fentry} (locked : Bool) : e.Kept { e with mtx := some locked } :=
  ⟨rfl, rfl, fun h => ⟨h.next, h.children, h.contents, h.size, h.isDir, rfl⟩⟩

/-- The link to a new child is stored in its parent or in a sibling. -/
theorem grown_link {par x : FPtr} {es : Fentry} (h : t.Linked fs.entries par) (h0 : 0 ∉ t.ids)
    (hd : d ∈ t.ids) (hs : fs.entries (t.slot d) = some es) (hx : x ≠ 0) :
    Grown fs (fs.set (t.slot d) (Family.linkChild (t.childrenOf d) x es)) (· = d) := by
  by_cases hk : t.childrenOf d = .nil
  · have hslot : t.slot d = d := if_pos hk
    refine Grown.set hs (linkChild_kept es) (fun i hi => hslot ▸ hi) ?_
    refine iff_of_true ?_ (Or.inr hslot)
    rw [Family.linkChild, if_pos hk]
    exact hx
  · obtain ⟨ed, hed⟩ := h.exists hd
    have hdir : ed.HasChildren := by
      rw [Fentry.HasChildren, (h.childrenOf hd hed).1]
      cases hkids : t.childrenOf d with
      | nil => exact absurd hkids hk
      | entry f k n =>
        have hf : f ∈ t.ids := Family.childrenOf_ids (by rw [hkids]; exact List.mem_cons_self)
        exact fun e => h0 (e ▸ hf)
    intro i e he
    have hchild : ∀ e : Fentry, (Family.linkChild (t.childrenOf d) x e).HasChildren ↔
        e.HasChildren := fun e => by
      rw [Family.linkChild, if_neg hk]
      rfl
    have hor : e.HasChildren ↔ e.HasChildren ∨ i = d := by
      refine ⟨Or.inl, fun hor => hor.elim id fun hid => ?_⟩
      subst hid
      obtain rfl := Option.some.inj (hed.symm.trans he)
      exact hdir
    by_cases hi : i = t.slot d
    · subst hi
      obtain rfl := Option.some.inj (hs.symm.trans he)
      exact ⟨_, Ramfs.set_entries_self, linkChild_kept es, (hchild es).trans hor⟩
    · exact ⟨e, (Ramfs.set_entries_of_ne hi).trans he, .refl e, hor⟩

/-- An entry below another one. -/
theorem fentryCreate_below (h : fs.Represents t) (hd : d ∈ t.ids)
    (htrim : trimFilename path = .ok fn)
    (hnew : ∀ i e, fs.entries i = some e → e.filename ≠ fn) (fuel : Nat) :
    Post (Ramfs.fentryCreate fuel fs path d dir) (· = .hang) fun r =>
      r.2 = fs.brk ∧ ∃ t', r.1.Represents t' ∧ Created fs r.1 d fs.brk fn dir := by
  obtain ⟨ed, hed⟩ := h.linked.exists hd
  have hd0 : d ≠ 0 := (h.addr d hd).1.ne'
  have hb0 : fs.brk ≠ 0 := h.brk.ne'
  have hxd : d ≠ fs.brk := (h.addr d hd).2.ne
  have hfree : fs.entries fs.brk = none := Option.eq_none_iff_forall_ne_some.mpr fun e he =>
    h.brk_notMem (h.all _ e he)
  have hready := h.ready d ed hed
  obtain ⟨locked, hmtx⟩ := Option.isSome_iff_exists.mp hready.mtx
  -- the new entry, and the mutex of the directory
  let s₀ := fs.allocEntry fn d
  have x₀ : s₀.entries fs.brk = some ⟨fn, d, none, none, none, none, none, none⟩ :=
    Function.update_self ..
  have n₀ : ∀ i, i ≠ fs.brk → s₀.entries i = fs.entries i := fun i hi => Function.update_of_ne hi ..
  have d₀ : s₀.entries d = some ed := (n₀ d hxd).trans hed
  have g₀ : Grown fs s₀ fun _ => False := @Grown.set_new _ _ ⟨fn, d, none, none, none, none,
    none, none⟩ hfree
  have l₀ : t.Linked s₀.entries 0 := h.linked.congr fun i hi => n₀ i (h.addr i hi).2.ne
  rw [Ramfs.fentryCreate, htrim, ok_bind, if_neg fun hc => hd0 hc.1]
  rw [Ramfs.mutexLock, get_some hd0 d₀, ok_bind, hmtx]
  cases locked with
  | true => exact Post.error rfl
  | false =>
    let s₁ := s₀.set d { ed with mtx := some true }
    have x₁ : s₁.entries fs.brk = some ⟨fn, d, none, none, none, none, none, none⟩ :=
      (Ramfs.set_entries_of_ne hxd.symm).trans x₀
    have n₁ : ∀ i, i ≠ d → s₁.entries i = s₀.entries i := fun i hi => Ramfs.set_entries_of_ne hi
    have g₁ : Grown s₀ s₁ fun _ => False := @Grown.set _ _ _ { ed with mtx := some true } d₀
      (setMtx_kept true) _ (fun _ _ => id) (by simp [Fentry.HasChildren])
    have l₁ : t.Linked s₁.entries 0 := Ramfs.linked_set l₀ d₀ ⟨rfl, rfl, rfl⟩
    have names₁ : ∀ i ∈ t.ids, ∀ e, s₁.entries i = some e → e.filename ≠ fn := fun i hi e he => by
      obtain ⟨e₀, he₀⟩ := h.linked.exists hi
      obtain ⟨e₁, he₁, hk, _⟩ := (g₀.trans g₁ (R := fun _ => False) (by simp)) i e₀ he₀
      obtain rfl := Option.some.inj (he.symm.trans he₁)
      rw [hk.filename]
      exact hnew i e₀ he₀
    obtain ⟨es, hes, hadd⟩ := fentryListAdd_spec l₁ h.readable.addr hd Ramfs.set_entries_self
      hready.children x₁ hb0 h.brk_notMem names₁ fuel
    simp only [stored, ok_bind, Bool.false_eq_true, if_false, pure_eq_ok]
    refine (hadd.weaken fun s hs => hs.1).bind fun r hr => ?_
    subst hr
    let s₂ := s₁.set fs.brk ⟨fn, d, some 0, none, none, none, none, none⟩
    let s₃ := s₂.set (t.slot d) (Family.linkChild (t.childrenOf d) fs.brk es)
    have hslot := Family.slot_mem hd
    have hsx : t.slot d ≠ fs.brk := (h.addr _ hslot).2.ne
    have n₂ : ∀ i, i ≠ fs.brk → s₂.entries i = s₁.entries i :=
      fun i hi => Ramfs.set_entries_of_ne hi
    have n₃ : ∀ i, i ≠ t.slot d → s₃.entries i = s₂.entries i :=
      fun i hi => Ramfs.set_entries_of_ne hi
    have slot₂ : s₂.entries (t.slot d) = some es := (n₂ _ hsx).trans hes
    have l₂ : t.Linked s₂.entries 0 := l₁.congr fun i hi => n₂ i (h.addr i hi).2.ne
    have x₃ : s₃.entries fs.brk = some ⟨fn, d, some 0, none, none, none, none, none⟩ :=
      (n₃ _ hsx.symm).trans Ramfs.set_entries_self
    have g₃ : Grown s₂ s₃ (· = d) := grown_link l₂ h.readable.addr hd slot₂ hb0
    have l₃ : (t.addChild d fs.brk).Linked s₃.entries 0 := by
      refine l₂.addChild hd h.nodup ⟨x₃, rfl, rfl, rfl⟩ (fun e he => ?_) fun i _ hi => n₃ i hi
      obtain rfl := Option.some.inj (slot₂.symm.trans he)
      exact Ramfs.set_entries_self
    -- the mutex is released
    have d₂ : s₂.entries d = some { ed with mtx := some true } :=
      (n₂ d hxd).trans Ramfs.set_entries_self
    obtain ⟨e₃, d₃, k₃, _⟩ := g₃ d _ d₂
    obtain ⟨locked, m₃⟩ := Option.isSome_iff_exists.mp
      (k₃.ready ((setMtx_kept true).ready hready)).mtx
    let s₄ := s₃.set d { e₃ with mtx := some false }
    have n₄ : ∀ i, i ≠ d → s₄.entries i = s₃.entries i := fun i hi => Ramfs.set_entries_of_ne hi
    have x₄ := (n₄ _ hxd.symm).trans x₃
    have e₄ : s₃.mutexUnlock d = .ok s₄ := by
      rw [Ramfs.mutexUnlock, get_some hd0 d₃, ok_bind, m₃]
      rfl
    let s₅ := s₄.set fs.brk (newEntry fn d dir)
    have e₅ : s₄.initEntry fs.brk dir = .ok s₅ := initEntry_eq hb0 x₄ dir
    have n₅ : ∀ i, i ≠ fs.brk → s₅.entries i = s₄.entries i :=
      fun i hi => Ramfs.set_entries_of_ne hi
    rw [show (s₁.set fs.brk ⟨fn, d, some 0, none, none, none, none, none⟩).set (t.slot d)
      (Family.linkChild (t.childrenOf d) fs.brk es) = s₃ from rfl, e₄, ok_bind,
        if_neg (not_not.mpr rfl), e₅]
    have g₂ : Grown s₁ s₂ fun _ => False := @Grown.set _ _ _ ⟨fn, d, some 0, none, none,
      none, none, none⟩ x₁
      ⟨rfl, rfl, fun hr => ⟨rfl, hr.children, hr.contents, hr.size, hr.isDir, hr.mtx⟩⟩ _
        (fun _ _ => id)
      (by simp [Fentry.HasChildren])
    have g₄ : Grown s₃ s₄ fun _ => False := @Grown.set _ _ _ { e₃ with mtx := some false } d₃
      (setMtx_kept false) _ (fun _ _ => id) (by simp [Fentry.HasChildren])
    have none_or : ∀ P : FPtr → Prop, ∀ i, P i ↔ False ∨ P i := fun P i => by simp
    have or_none : ∀ P : FPtr → Prop, ∀ i, P i ↔ P i ∨ False := fun P i => by simp
    have g₁₂ : Grown fs s₂ fun _ => False := (g₀.trans g₁ (none_or _)).trans g₂ (none_or _)
    have g₅ : Grown fs s₄ (· = d) := (g₁₂.trans g₃ (none_or _)).trans g₄ (or_none _)
    have hc : Created fs s₅ d fs.brk fn dir := by
      refine ⟨⟨_, Ramfs.set_entries_self, rfl, rfl, rfl, not_not.mpr rfl, newEntry_ready fn d dir⟩,
        fun i e he => ?_, fun i e' he' => or_iff_not_imp_left.mpr fun hne => ?_⟩
      · have hib : i ≠ fs.brk := fun hi => by rw [hi, hfree] at he; cases he
        rw [n₅ i hib]
        exact g₅ i e he
      · by_cases hid : i = d
        · exact ⟨ed, hid ▸ hed⟩
        · by_cases his : i = t.slot d
          · rw [his]
            exact h.linked.exists hslot
          · have hsame : s₅.entries i = fs.entries i :=
              (n₅ i hne).trans <| (n₄ i hid).trans <| (n₃ i his).trans <| (n₂ i hne).trans <|
                (n₁ i hid).trans (n₀ i hne)
            exact ⟨e', hsame.symm.trans he'⟩
    refine Post.ok ⟨rfl, t.addChild d fs.brk,
      h.created hc hnew ?_ ?_ ?_ (Family.addChild_ids hd h.nodup) rfl, hc⟩
    · rw [Family.addChild_ptr]
      exact h.root
    · exact Ramfs.linked_set (Ramfs.linked_set l₃ d₃ ⟨rfl, rfl, rfl⟩) x₄ ⟨rfl, rfl, rfl⟩
    · rcases h.top with rfl | ⟨r, k, rfl⟩
      · cases hd
      · rw [Family.addChild]
        split
        · exact ⟨_, _, rfl⟩
        · exact ⟨_, _, rfl⟩

end Create

end AuOs
